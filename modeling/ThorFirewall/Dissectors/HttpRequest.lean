import ThorFirewall.Lib.KeyedList
import ThorFirewall.Lib.TextSearch
import ThorFirewall.Lib.Utf8

/-!
# HTTP requests and responses (`dissectors/http.rs`)

`parse_request` takes the whole payload for a text, and gives the request up if it is not UTF-8; only then it looks for
the empty line behind which the body is. So a request with a binary body is not looked at, whatever its head is.

- `splitMessage_head`: what is found behind an ASCII head;
- `parseRequest_agrees_iff`, `parseResponse_agrees_iff`: when two bodies make no difference.
-/

namespace ThorFirewall.Dissectors

open KeyedList Text TextSearch Utf8

/-! ## Parsing -/

structure HttpRequest where
  method : List Char
  uri : List Char
  version : List Char
  headers : List (List Char × List Char)
  body : List UInt8

structure HttpResponse where
  version : List Char
  statusCode : ℕ
  statusText : List Char
  headers : List (List Char × List Char)
  body : List UInt8

/-- `str::split_once`. -/
def splitOnce (pattern s : List Char) : Option (List Char × List Char) :=
  (find pattern s).map fun pos => (s.take pos, s.drop (pos + pattern.length))

/-- `str::splitn`. -/
def splitn : ℕ → List Char → List Char → List (List Char)
  | 0, _, _ => []
  | 1, _, s => [s]
  | n + 2, pattern, s =>
    match splitOnce pattern s with
    | some (front, rest) => front :: splitn (n + 1) pattern rest
    | none => [s]

/-- The text before the first empty line, and the bytes behind it. -/
def splitMessage (data : List UInt8) : Option (List Char × List UInt8) :=
  (fromUtf8 data).map fun text =>
    match splitn 2 "\r\n\r\n".toList text with
    | [head, body] => (head, bytes body)
    | _ => (text, [])

section Lowercase

variable (lower : List Char → List Char)

def parseHeaders (ls : List (List Char)) : List (List Char × List Char) :=
  ls.foldl (fun headers line =>
    match splitOnce [':'] line with
    | some (k, v) => upsert Prod.fst (lower (trim k), trim v) headers
    | none => headers) []

def parseRequest (data : List UInt8) : Option HttpRequest :=
  (splitMessage data).bind fun (headerSection, body) =>
    match lines headerSection with
    | [] => none
    | requestLine :: headerLines =>
      match splitn 3 [' '] requestLine with
      | [method, uri, version] => some ⟨method, uri, trim version, parseHeaders lower headerLines, body⟩
      | _ => none

def parseResponse (data : List UInt8) : Option HttpResponse :=
  (splitMessage data).bind fun (headerSection, body) =>
    match lines headerSection with
    | [] => none
    | statusLine :: headerLines =>
      match splitn 3 [' '] statusLine with
      | version :: code :: text => (parseUnsigned 16 code).map fun statusCode =>
          ⟨version, statusCode, text.headD [], parseHeaders lower headerLines, body⟩
      | _ => none

end Lowercase

/-! ## Heads -/

/-- An ASCII text before the first empty line. -/
structure Head where
  text : List Char
  ascii : IsAscii text
  ends : find "\r\n\r\n".toList (text ++ "\r\n\r\n".toList) = some text.length

def Head.payload (head : Head) (body : List UInt8) : List UInt8 := bytes (head.text ++ "\r\n\r\n".toList) ++ body

/-- The first line of a request has a method, a URI and a version. -/
structure RequestHead extends Head where
  requestLine : ∃ line ∈ (lines text).head?, 2 ≤ line.count ' '

theorem fromUtf8_append {s : List Char} (hs : IsAscii s) (bs : List UInt8) :
    fromUtf8 (bytes s ++ bs) = (fromUtf8 bs).map (s ++ ·) := by
  cases hbs : fromUtf8 bs with
  | some t =>
    rw [← fromUtf8_eq_some_iff.1 hbs, ← bytes_append, fromUtf8_bytes]
    rfl
  | none =>
    rw [Option.map_none, ← Option.not_isSome_iff_eq_none, Option.isSome_iff_exists]
    rintro ⟨u, hu⟩
    have hwhole := fromUtf8_eq_some_iff.1 hu
    obtain ⟨t, rfl⟩ := prefix_of_bytes hs ⟨bs, hwhole.symm⟩
    rw [bytes_append, List.append_cancel_left_eq] at hwhole
    rw [← hwhole, fromUtf8_bytes] at hbs
    cases hbs

/-- **What is found behind a head**: the body, if it is UTF-8. -/
theorem splitMessage_head (head : Head) (body : List UInt8) :
    splitMessage (head.payload body) = (fromUtf8 body).map fun _ => (head.text, body) := by
  have hascii : IsAscii (head.text ++ "\r\n\r\n".toList) := isAscii_append.2 ⟨head.ascii, by decide⟩
  rw [splitMessage, Head.payload, fromUtf8_append hascii]
  cases hbody : fromUtf8 body with
  | none => rfl
  | some t =>
    have hfind := find_append head.ends t
    have hrest : (head.text ++ "\r\n\r\n".toList ++ t).drop (head.text.length + "\r\n\r\n".toList.length) = t := by
      rw [← List.length_append, List.drop_left]
    have hfront : (head.text ++ "\r\n\r\n".toList ++ t).take head.text.length = head.text := by
      rw [List.append_assoc, List.take_left]
    rw [Option.map_some, Option.map_some, Option.map_some, splitn, splitOnce, hfind, Option.map_some, hrest, hfront,
      ← fromUtf8_eq_some_iff.1 hbody]
    rfl

theorem splitOnce_space {line : List Char} (h : 1 ≤ line.count ' ') :
    ∃ front rest, splitOnce [' '] line = some (front, rest) ∧ line.count ' ' = rest.count ' ' + 1 := by
  have hsome : find [' '] line ≠ none := by
    rw [Ne, find_eq_none_iff, not_not, List.singleton_infix_iff]
    exact List.count_pos_iff.1 h
  obtain ⟨i, hi⟩ := Option.ne_none_iff_exists'.1 hsome
  obtain ⟨rest, hline, hle⟩ := eq_append_of_find hi
  have hlength : (line.take i).length = i := by rw [List.length_take, Nat.min_eq_left hle]
  have hfront : ' ' ∉ line.take i := by
    have hnone := find_prefix_eq_none hi (List.take_prefix i line) (by rw [hlength]; exact Nat.lt_succ_self i)
    rwa [find_eq_none_iff, List.singleton_infix_iff] at hnone
  refine ⟨_, _, by rw [splitOnce, hi]; rfl, ?_⟩
  have hcount : line.count ' ' = (line.take i).count ' ' + (line.drop i).count ' ' := by
    rw [← List.count_append, List.take_append_drop]
  have hdrop : line.drop i = ' ' :: rest := by
    conv_lhs => rw [hline, List.append_assoc]
    rw [List.drop_append_of_le_length hlength.ge, List.drop_of_length_le hlength.le]
    rfl
  have hnext : line.drop (i + 1) = rest := by rw [← List.drop_drop, hdrop]; rfl
  rw [hcount, List.count_eq_zero.2 hfront, hdrop, List.count_cons_self, List.length_singleton, hnext, Nat.zero_add]

/-- A line with two spaces has three parts. -/
theorem splitn_three {line : List Char} (h : 2 ≤ line.count ' ') : ∃ a b c, splitn 3 [' '] line = [a, b, c] := by
  obtain ⟨a, rest, ha, hcount⟩ := splitOnce_space (Nat.le_of_succ_le h)
  obtain ⟨b, c, hb, -⟩ := @splitOnce_space rest (by omega)
  exact ⟨a, b, c, by rw [splitn, ha]; simp only [splitn, hb]⟩

/-! ## Two bodies -/

variable (lower : List Char → List Char)

/-- What a request is read as. -/
theorem parseRequest_head (head : RequestHead) : ∃ method uri version headers, ∀ body,
    parseRequest lower (head.payload body) =
      (fromUtf8 body).map fun _ => ⟨method, uri, version, headers, body⟩ := by
  obtain ⟨line, hline, hspaces⟩ := head.requestLine
  obtain ⟨rest, hlines⟩ := List.head?_eq_some_iff.1 hline
  obtain ⟨method, uri, version, hparts⟩ := splitn_three hspaces
  refine ⟨method, uri, trim version, parseHeaders lower rest, fun body => ?_⟩
  rw [parseRequest, splitMessage_head]
  cases fromUtf8 body with
  | none => rfl
  | some t => simp only [Option.map_some, Option.bind_some, hlines, hparts]

/-- **When two bodies make no difference** for a request: both are UTF-8, or none is. -/
theorem parseRequest_agrees_iff (head : RequestHead) (body body' : List UInt8) :
    ((parseRequest lower (head.payload body)).map fun r => (r.method, r.uri, r.headers)) =
        ((parseRequest lower (head.payload body')).map fun r => (r.method, r.uri, r.headers)) ↔
      ((fromUtf8 body).isSome ↔ (fromUtf8 body').isSome) := by
  obtain ⟨method, uri, version, headers, h⟩ := parseRequest_head lower head
  rw [h, h]
  cases fromUtf8 body <;> cases fromUtf8 body' <;> simp

def loginHead : RequestHead where
  text := "POST /login HTTP/1.1\r\nHost: example.com".toList
  ascii := by decide +kernel
  ends := by decide +kernel
  requestLine := ⟨"POST /login HTTP/1.1".toList, by decide +kernel, by decide +kernel⟩

/-- One byte that is not UTF-8, behind a head that is read. -/
theorem binary_body_unread :
    ((parseRequest (List.map Char.toLower) (loginHead.payload [])).map fun r => (r.method, r.uri, r.headers)) ≠
      (parseRequest (List.map Char.toLower) (loginHead.payload [0xff])).map fun r => (r.method, r.uri, r.headers) := by
  obtain ⟨method, uri, version, headers, h⟩ := parseRequest_head (List.map Char.toLower) loginHead
  have hempty : fromUtf8 [] = some [] := fromUtf8_bytes []
  have hbinary : fromUtf8 [0xff] = none := by decide +kernel
  rw [h, h, hempty, hbinary]
  exact nofun

theorem parseResponse_head {head : Head} (hread : (parseResponse lower (head.payload [])).isSome) :
    ∃ version statusCode statusText headers, ∀ body, parseResponse lower (head.payload body) =
      (fromUtf8 body).map fun _ => ⟨version, statusCode, statusText, headers, body⟩ := by
  have hempty : fromUtf8 [] = some [] := fromUtf8_bytes []
  have hparse (body : List UInt8) : parseResponse lower (head.payload body) =
      (fromUtf8 body).bind fun _ => match lines head.text with
        | [] => none
        | statusLine :: headerLines =>
          match splitn 3 [' '] statusLine with
          | version :: code :: text => (parseUnsigned 16 code).map fun statusCode =>
              ⟨version, statusCode, text.headD [], parseHeaders lower headerLines, body⟩
          | _ => none := by
    rw [parseResponse, splitMessage_head]
    cases fromUtf8 body <;> rfl
  rw [hparse, hempty, Option.bind_some] at hread
  split at hread
  · cases hread
  · rename_i statusLine headerLines hlines
    split at hread
    · rename_i version code text hparts
      rw [Option.isSome_map] at hread
      obtain ⟨statusCode, hcode⟩ := Option.isSome_iff_exists.1 hread
      refine ⟨version, statusCode, text.headD [], parseHeaders lower headerLines, fun body => ?_⟩
      rw [hparse, hlines]
      simp only [hparts, hcode, Option.map_some]
      cases fromUtf8 body <;> rfl
    · cases hread

/-- The same for a response that is read without a body. -/
theorem parseResponse_agrees_iff {head : Head} (hread : (parseResponse lower (head.payload [])).isSome)
    (body body' : List UInt8) :
    ((parseResponse lower (head.payload body)).map fun r => (r.statusCode, r.headers)) =
        ((parseResponse lower (head.payload body')).map fun r => (r.statusCode, r.headers)) ↔
      ((fromUtf8 body).isSome ↔ (fromUtf8 body').isSome) := by
  obtain ⟨version, statusCode, statusText, headers, h⟩ := parseResponse_head lower hread
  rw [h, h]
  cases fromUtf8 body <;> cases fromUtf8 body' <;> simp

end ThorFirewall.Dissectors
