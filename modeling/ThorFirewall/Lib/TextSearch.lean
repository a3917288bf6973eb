import Mathlib
import ThorFirewall.Lib.Scanner
import ThorFirewall.Lib.Utf8

/-!
# Searching texts

`find` is the first position of a pattern in a list, `split` what is between its occurrences from left to right, and
`lines` what is between the ends of the lines. What is behind the first occurrence has no part in finding it
(`find_append`), and a list is split there (`split_append`).
-/

namespace TextSearch

open Text Utf8

variable {α : Type*} [DecidableEq α]

/-! ## Finding -/

/-- The first position at which the pattern begins. -/
def find (pattern : List α) : List α → Option ℕ
  | [] => if pattern = [] then some 0 else none
  | a :: l => if pattern.isPrefixOf (a :: l) then some 0 else (find pattern l).map (· + 1)

variable {pattern l m : List α} {i : ℕ}

theorem find_of_starts (h : pattern <+: l) : find pattern l = some 0 := by
  cases l with
  | nil => exact if_pos (List.prefix_nil.1 h)
  | cons a l => exact if_pos (List.isPrefixOf_iff_prefix.2 h)

theorem find_cons_of_ne {a : α} (h : ¬ pattern <+: a :: l) :
    find pattern (a :: l) = (find pattern l).map (· + 1) :=
  if_neg fun hp => h (List.isPrefixOf_iff_prefix.1 hp)

theorem find_eq_none_iff : find pattern l = none ↔ ¬ pattern <:+: l := by
  induction l with
  | nil =>
    rw [List.infix_nil]
    unfold find
    split_ifs with h <;> simp [h]
  | cons a l ih =>
    rw [List.infix_cons_iff, not_or]
    by_cases h : pattern <+: a :: l
    · simp [find_of_starts h, h]
    · rw [find_cons_of_ne h, Option.map_eq_none_iff, ih]
      exact ⟨fun hl => ⟨h, hl⟩, fun hl => hl.2⟩

/-- A position that is found is one of the pattern. -/
theorem eq_append_of_find (h : find pattern l = some i) : ∃ rest, l = l.take i ++ pattern ++ rest ∧ i ≤ l.length := by
  induction l generalizing i with
  | nil =>
    unfold find at h
    split_ifs at h with hnil
    cases h
    exact ⟨[], by simp [hnil]⟩
  | cons a l ih =>
    by_cases hp : pattern <+: a :: l
    · rw [find_of_starts hp] at h
      cases h
      obtain ⟨rest, hrest⟩ := hp
      exact ⟨rest, by simp [hrest]⟩
    · rw [find_cons_of_ne hp] at h
      obtain ⟨j, hj, rfl⟩ := Option.map_eq_some_iff.1 h
      obtain ⟨rest, hrest, hle⟩ := ih hj
      refine ⟨rest, ?_, Nat.succ_le_succ hle⟩
      rw [List.take_succ_cons, List.cons_append, List.cons_append, ← hrest]

/-- What comes behind an occurrence does not change where the first one is. -/
theorem find_append (h : find pattern l = some i) (m : List α) : find pattern (l ++ m) = some i := by
  induction l generalizing i with
  | nil =>
    unfold find at h
    split_ifs at h with hnil
    rw [hnil, find_of_starts (List.nil_prefix), h]
  | cons a l ih =>
    by_cases hp : pattern <+: a :: l
    · rw [find_of_starts hp] at h
      rw [find_of_starts (hp.trans (List.prefix_append _ _)), h]
    · rw [find_cons_of_ne hp] at h
      obtain ⟨j, hj, rfl⟩ := Option.map_eq_some_iff.1 h
      have hlong : ¬ pattern <+: a :: (l ++ m) := by
        -- the pattern occurs in the list, which is so no shorter
        intro hlong
        obtain ⟨rest, hrest, -⟩ := eq_append_of_find hj
        have hlength : pattern.length ≤ (a :: l).length := by
          rw [hrest]
          simp only [List.length_cons, List.length_append]
          omega
        exact hp (List.prefix_of_prefix_length_le hlong (List.prefix_append (a :: l) m) hlength)
      rw [List.cons_append, find_cons_of_ne hlong, ih hj]
      rfl

/-- Nothing is found before the pattern is complete. -/
theorem find_prefix_eq_none (h : find pattern l = some i) (hm : m <+: l) (hlength : m.length < i + pattern.length) :
    find pattern m = none := by
  cases hfind : find pattern m with
  | none => rfl
  | some j =>
    obtain ⟨rest, rfl⟩ := hm
    rw [find_append hfind] at h
    cases h
    obtain ⟨rest', hrest, hle⟩ := eq_append_of_find hfind
    have := congrArg List.length hrest
    rw [List.length_append, List.length_append, List.length_take, Nat.min_eq_left hle] at this
    omega

/-- In ASCII texts, what is found in the bytes is found in the text. -/
theorem find_bytes {s t : List Char} (hs : IsAscii s) (ht : IsAscii t) : find (bytes s) (bytes t) = find s t := by
  have hpre : ∀ t, bytes s <+: bytes t ↔ s <+: t :=
    fun t => ⟨prefix_of_bytes hs, fun ⟨r, hr⟩ => ⟨bytes r, by rw [← hr, bytes_append]⟩⟩
  induction t with
  | nil =>
    cases s with
    | nil => rfl
    | cons c s => simp [find, bytes, encode_ascii hs.cons.1]
  | cons c t ih =>
    obtain ⟨hc, ht⟩ := ht.cons
    have hbytes : bytes (c :: t) = c.val.toUInt8 :: bytes t := by
      rw [bytes_cons, encode_ascii hc, List.singleton_append]
    by_cases h : s <+: c :: t
    · rw [find_of_starts h, find_of_starts ((hpre _).2 h)]
    · have hb : ¬ bytes s <+: c.val.toUInt8 :: bytes t := fun hb => h ((hpre _).1 (hbytes ▸ hb))
      rw [hbytes, find_cons_of_ne hb, find_cons_of_ne h, ih ht]

omit [DecidableEq α] in
/-- A pattern that ends before an element that it has not. -/
theorem prefix_of_notMem {a : α} (ha : a ∉ pattern) (h : pattern <+: l ++ a :: m) : pattern <+: l := by
  rcases Nat.lt_or_ge l.length pattern.length with hlt | hle
  · obtain ⟨r, hr⟩ := h
    have hget : (pattern ++ r)[l.length]? = some a := by rw [hr]; simp
    rw [List.getElem?_append_left hlt] at hget
    exact absurd (List.mem_of_getElem? hget) ha
  · exact List.prefix_of_prefix_length_le h (List.prefix_append _ _) hle

omit [DecidableEq α] in
/-- An occurrence is on one side of an element that the pattern has not. -/
theorem infix_of_notMem {a : α} (ha : a ∉ pattern) (h : pattern <:+: l ++ a :: m) :
    pattern <:+: l ∨ pattern <:+: m := by
  induction l with
  | nil =>
    rcases List.infix_cons_iff.1 h with hp | hm
    · exact Or.inl (prefix_of_notMem (l := []) ha hp).isInfix
    · exact Or.inr hm
  | cons b l ih =>
    rcases List.infix_cons_iff.1 h with hp | hm
    · exact Or.inl (prefix_of_notMem (l := b :: l) ha hp).isInfix
    · exact (ih hm).imp_left List.infix_cons

/-- The first occurrence is behind an element that the pattern has not, if there is none before it. -/
theorem find_behind {a : α} (ha : a ∉ pattern) (hl : ¬ pattern <:+: l) :
    find pattern (l ++ a :: pattern) = some (l.length + 1) := by
  induction l with
  | nil =>
    have hp : ¬ pattern <+: a :: pattern := fun hp => hl (prefix_of_notMem (l := []) ha hp).isInfix
    rw [List.nil_append, find_cons_of_ne hp, find_of_starts List.prefix_rfl]
    rfl
  | cons b l ih =>
    have hp : ¬ pattern <+: b :: (l ++ a :: pattern) := fun hp =>
      hl (prefix_of_notMem (l := b :: l) ha hp).isInfix
    rw [List.cons_append, find_cons_of_ne hp, ih fun h => hl (List.infix_cons h)]
    rfl

/-! ## Splitting -/

/-- One element after the other; `skip` of them belong to a delimiter. -/
def splitFrom (delim : List α) : List α → ℕ → List (List α)
  | [], _ => [[]]
  | _ :: l, skip + 1 => splitFrom delim l skip
  | a :: l, 0 => if delim.isPrefixOf (a :: l) then [] :: splitFrom delim l (delim.length - 1)
    else (splitFrom delim l 0).modifyHead (a :: ·)

/-- The parts between the occurrences of a delimiter, which is not empty. -/
def split (delim l : List α) : List (List α) := splitFrom delim l 0

variable {delim : List α}

theorem splitFrom_skip (d : List α) : splitFrom delim (d ++ l) d.length = splitFrom delim l 0 := by
  induction d with
  | nil => rfl
  | cons a d ih => exact ih

theorem split_of_find_none (h : find delim l = none) : split delim l = [l] := by
  induction l with
  | nil => rfl
  | cons a l ih =>
    have hp : ¬ delim <+: a :: l := fun hp => by rw [find_of_starts hp] at h; cases h
    rw [find_cons_of_ne hp, Option.map_eq_none_iff] at h
    have hsplit : split delim (a :: l) = (split delim l).modifyHead (a :: ·) :=
      if_neg fun hpre => hp (List.isPrefixOf_iff_prefix.1 hpre)
    rw [hsplit, ih h]
    rfl

/-- **A list is split at the first occurrence of the delimiter.** -/
theorem split_append (hdelim : delim ≠ []) {p : List α} (h : find delim (p ++ delim) = some p.length) (m : List α) :
    split delim (p ++ delim ++ m) = p :: split delim m := by
  induction p with
  | nil =>
    obtain ⟨d, ds, rfl⟩ := List.exists_cons_of_ne_nil hdelim
    have hpre : (d :: ds).isPrefixOf (d :: (ds ++ m)) = true :=
      List.isPrefixOf_iff_prefix.2 (List.prefix_append (d :: ds) m)
    show splitFrom (d :: ds) (d :: (ds ++ m)) 0 = _
    rw [splitFrom, if_pos hpre]
    exact congrArg _ (splitFrom_skip ds)
  | cons a p ih =>
    have hp : ¬ delim <+: a :: (p ++ delim) := fun hp => by
      rw [List.cons_append, find_of_starts hp, Option.some_inj, List.length_cons] at h
      omega
    rw [List.cons_append, find_cons_of_ne hp, List.length_cons] at h
    have hfind : find delim (p ++ delim) = some p.length := by
      obtain ⟨j, hj, hsucc⟩ := Option.map_eq_some_iff.1 h
      rw [hj, Nat.succ_inj.1 hsucc]
    have hlong : ¬ delim <+: a :: (p ++ delim ++ m) := fun hlong => hp <|
      List.prefix_of_prefix_length_le hlong (List.prefix_append (a :: (p ++ delim)) m) (by simp; omega)
    have hsplit : split delim (a :: (p ++ delim ++ m)) = (split delim (p ++ delim ++ m)).modifyHead (a :: ·) :=
      if_neg fun hpre => hlong (List.isPrefixOf_iff_prefix.1 hpre)
    rw [List.cons_append, List.cons_append, hsplit, ih hfind]
    rfl

/-! ## Replacing -/

/-- The list with another one in the place of each occurrence of a pattern, from left to right. -/
def replace (pattern value l : List α) : List α := List.intercalate value (split pattern l)

theorem replace_of_find_none (value : List α) (h : find pattern l = none) : replace pattern value l = l := by
  rw [replace, split_of_find_none h, List.intercalate, List.intersperse_singleton, List.flatten_singleton]

theorem split_ne_nil (pattern l : List α) : split pattern l ≠ [] := by
  have hskip : ∀ (l : List α) (skip : ℕ), splitFrom pattern l skip ≠ [] := by
    intro l
    induction l with
    | nil => exact fun _ => List.cons_ne_nil _ _
    | cons a l ih =>
      intro skip
      cases skip with
      | succ skip => exact ih skip
      | zero =>
        unfold splitFrom
        split
        · exact List.cons_ne_nil _ _
        · exact fun h => ih 0 (List.eq_nil_of_length_eq_zero (by rw [← List.length_modifyHead, h, List.length_nil]))
  exact hskip l 0

/-- **The first occurrence is replaced**, and then those behind it. -/
theorem replace_append (value : List α) (hpattern : pattern ≠ []) {p : List α}
    (h : find pattern (p ++ pattern) = some p.length) (m : List α) :
    replace pattern value (p ++ pattern ++ m) = p ++ value ++ replace pattern value m := by
  obtain ⟨q, qs, hsplit⟩ := List.exists_cons_of_ne_nil (split_ne_nil pattern m)
  rw [replace, split_append hpattern h, replace, hsplit]
  simp [List.intercalate]

/-! ## White space -/

/-- White space goes at both ends. -/
theorem trim_append {l s r : List Char} (hl : l.all isWhitespace = true) (hr : r.all isWhitespace = true)
    (hhead : ∀ c ∈ s.head?, isWhitespace c = false) (hlast : ∀ c ∈ s.getLast?, isWhitespace c = false) :
    trim (l ++ s ++ r) = s := by
  rw [List.all_eq_true] at hl hr
  cases hs : s with
  | nil =>
    have hall : ∀ c ∈ l ++ r, isWhitespace c = true := List.forall_mem_append.2 ⟨hl, hr⟩
    rw [trim, List.append_nil, List.dropWhile_eq_nil_iff.2 hall]
    rfl
  | cons c t =>
    rw [← hs]
    have hfirst : (l ++ s ++ r).dropWhile isWhitespace = s ++ r := by
      rw [List.append_assoc]
      refine List.dropWhile_run hl fun d hd => hhead d ?_
      rwa [List.head?_append_of_ne_nil _ (by simp [hs])] at hd
    have hsecond : (r.reverse ++ s.reverse).dropWhile isWhitespace = s.reverse := by
      refine List.dropWhile_run (fun d hd => hr d (List.mem_reverse.1 hd)) fun d hd => hlast d ?_
      rwa [List.head?_reverse] at hd
    rw [trim, hfirst, List.reverse_append, hsecond, List.reverse_reverse]

theorem trim_self {s : List Char} (hhead : ∀ c ∈ s.head?, isWhitespace c = false)
    (hlast : ∀ c ∈ s.getLast?, isWhitespace c = false) : trim s = s := by
  have h := trim_append (l := []) (r := []) rfl rfl hhead hlast
  rwa [List.nil_append, List.append_nil] at h

theorem trim_infix (s : List Char) : trim s <:+: s :=
  (List.rdropWhile_prefix isWhitespace (s.dropWhile isWhitespace)).isInfix.trans (List.dropWhile_suffix _).isInfix

theorem trim_trim (s : List Char) : trim (trim s) = trim s := by
  have htrim : trim s = (s.dropWhile isWhitespace).rdropWhile isWhitespace := rfl
  refine trim_self (fun c hc => ?_) fun c hc => ?_
  · obtain ⟨t, ht⟩ := List.rdropWhile_prefix isWhitespace (s.dropWhile isWhitespace)
    rw [← htrim] at ht
    have hfirst : (s.dropWhile isWhitespace).head? = some c := by
      rw [← ht, List.head?_append, hc]
      rfl
    have hnot := List.head?_dropWhile_not isWhitespace s
    rw [hfirst] at hnot
    simpa using hnot
  · obtain ⟨hne, rfl⟩ := List.mem_getLast?_eq_getLast hc
    have hnot : ¬ isWhitespace (((s.dropWhile isWhitespace).rdropWhile isWhitespace).getLast hne) = true :=
      List.rdropWhile_last_not isWhitespace (s.dropWhile isWhitespace) hne
    exact Bool.eq_false_iff.2 hnot

theorem filter_dropWhile {β : Type*} {p : β → Bool} (l : List β) :
    (l.dropWhile p).filter (fun a => !p a) = l.filter fun a => !p a := by
  induction l with
  | nil => rfl
  | cons a l ih =>
    cases hp : p a with
    | true => rw [List.dropWhile_cons_of_pos hp, ih, List.filter_cons_of_neg (by simp [hp])]
    | false => rw [List.dropWhile_cons_of_neg (by simp [hp])]

/-- What is no white space is not trimmed. -/
theorem filter_trim (s : List Char) :
    (trim s).filter (fun c => !isWhitespace c) = s.filter fun c => !isWhitespace c := by
  rw [trim, List.filter_reverse, filter_dropWhile, ← List.filter_reverse, List.reverse_reverse, filter_dropWhile]

theorem mem_trim {c : Char} {s : List Char} (hc : isWhitespace c = false) (h : c ∈ s) : c ∈ trim s := by
  have hmem : c ∈ s.filter fun c => !isWhitespace c := List.mem_filter.2 ⟨h, by rw [hc]; rfl⟩
  rw [← filter_trim] at hmem
  exact List.mem_of_mem_filter hmem

theorem trimMatches_of_notMem {c : Char} {s : List Char} (h : c ∉ s) : trimMatches c s = s := by
  have hdrop : ∀ s : List Char, c ∉ s → s.dropWhile (· = c) = s := by
    intro s hs
    cases s with
    | nil => rfl
    | cons d s => exact List.dropWhile_cons_of_neg (by simpa using fun hdc => hs (by simp [hdc]))
  rw [trimMatches, hdrop s h, List.rdropWhile, hdrop _ (by simpa using h), List.reverse_reverse]

/-- Quotes around a text without quotes are taken off. -/
theorem trimMatches_quoted {c : Char} {s : List Char} (h : c ∉ s) : trimMatches c (c :: s ++ [c]) = s := by
  have hfront : (c :: s ++ [c]).dropWhile (· = c) = (s ++ [c]).dropWhile (· = c) :=
    List.dropWhile_cons_of_pos (by simp)
  have hback : (s ++ [c]).rdropWhile (· = c) = s.rdropWhile (· = c) :=
    List.rdropWhile_concat_pos _ _ _ (by simp)
  rw [trimMatches, hfront]
  cases s with
  | nil => simp
  | cons d s =>
    have hd : d ≠ c := fun hdc => h (by simp [hdc])
    have hrest : (d :: s ++ [c]).dropWhile (· = c) = d :: s ++ [c] :=
      List.dropWhile_cons_of_neg (by simpa using hd)
    have htrim := trimMatches_of_notMem h
    rw [trimMatches, List.dropWhile_cons_of_neg (by simpa using hd)] at htrim
    rw [hrest, hback, htrim]

/-! ## Letter case -/

/-- What is no letter is not changed, and nothing becomes it. -/
theorem eq_of_toLower {c d : Char} (hd : d.isLower = false) (h : c.toLower = d) : c = d := by
  unfold Char.toLower at h
  split_ifs at h with hupper
  · have hval := congrArg (fun c => c.val.toNat) h
    rw [← h] at hd
    simp [UInt32.le_iff_toNat_le, Char.isLower] at hval hupper hd
    omega
  · exact h

theorem notMem_map_toLower {d : Char} {s : List Char} (hd : d.isLower = false) (h : d ∉ s) :
    d ∉ s.map Char.toLower := by
  intro hmem
  obtain ⟨c, hc, hlow⟩ := List.mem_map.1 hmem
  exact h (eq_of_toLower hd hlow ▸ hc)

/-! ## Lines -/

/-- The line without the carriage return at its end. -/
def stripCr (l : List Char) : List Char := if l.getLast? = some '\r' then l.dropLast else l

/-- The last line is one only if it is not empty, and keeps its carriage return. -/
def linesOf : List (List Char) → List (List Char)
  | [] => []
  | [last] => if last = [] then [] else [last]
  | line :: next :: rest => stripCr line :: linesOf (next :: rest)

/-- `lines`. -/
def lines (s : List Char) : List (List Char) := linesOf (s.splitOn '\n')

variable {line s : List Char}

theorem lines_cons (h : '\n' ∉ line) : lines (line ++ '\n' :: s) = stripCr line :: lines s := by
  obtain ⟨next, rest, hnext⟩ := List.exists_cons_of_ne_nil (List.splitOn_ne_nil '\n' s)
  rw [lines, lines, List.splitOn_append_cons_self_of_not_mem h, hnext]
  rfl

/-- A line that ends with carriage return and line feed. -/
theorem lines_crlf (h : '\n' ∉ line) : lines (line ++ '\r' :: '\n' :: s) = line :: lines s := by
  have hline : '\n' ∉ line ++ ['\r'] := by simp [h]
  have := lines_cons (s := s) hline
  rw [List.append_assoc, List.singleton_append] at this
  rw [this]
  simp [stripCr]

theorem lines_single (h : '\n' ∉ line) (hne : line ≠ []) : lines line = [line] := by
  rw [lines, List.splitOn_eq_singleton h]
  exact if_neg hne

theorem lines_intercalate {ls : List (List Char)} (hne : ∀ line ∈ ls, line ≠ []) (hbreak : ∀ line ∈ ls, '\n' ∉ line) :
    lines ("\r\n".toList.intercalate ls) = ls := by
  induction ls with
  | nil => rfl
  | cons l ls ih =>
    cases ls with
    | nil => rw [List.intercalate_singleton, lines_single (hbreak l (by simp)) (hne l (by simp))]
    | cons l' ls =>
      have htail := ih (fun line hline => hne line (List.mem_cons_of_mem _ hline))
        fun line hline => hbreak line (List.mem_cons_of_mem _ hline)
      have hjoin : "\r\n".toList.intercalate (l :: l' :: ls) =
          l ++ '\r' :: '\n' :: "\r\n".toList.intercalate (l' :: ls) := by
        rw [List.intercalate_cons_cons, List.append_assoc]
        rfl
      rw [hjoin, lines_crlf (hbreak l (by simp)), htail]

/-- Lines with what follows them. -/
theorem lines_intercalate_append {ls : List (List Char)} (hls : ls ≠ []) (hbreak : ∀ line ∈ ls, '\n' ∉ line)
    (s : List Char) : lines ("\r\n".toList.intercalate ls ++ '\r' :: '\n' :: s) = ls ++ lines s := by
  induction ls with
  | nil => exact absurd rfl hls
  | cons l ls ih =>
    cases ls with
    | nil => rw [List.intercalate_singleton, lines_crlf (hbreak l (by simp)), List.singleton_append]
    | cons l' ls =>
      have hjoin : "\r\n".toList.intercalate (l :: l' :: ls) ++ '\r' :: '\n' :: s =
          l ++ '\r' :: '\n' :: ("\r\n".toList.intercalate (l' :: ls) ++ '\r' :: '\n' :: s) := by
        rw [List.intercalate_cons_cons, List.append_assoc, List.append_assoc]
        rfl
      rw [hjoin, lines_crlf (hbreak l (by simp)),
        ih (by simp) fun line hline => hbreak line (List.mem_cons_of_mem _ hline)]
      rfl

/-! ## The empty line -/

/-- The end of a line, and an empty line. -/
def emptyLine : List Char := ['\r', '\n', '\r', '\n']

/-- No empty line is found in a line. -/
theorem find_line {u : List Char} (h : '\n' ∉ line) :
    find emptyLine (line ++ '\r' :: u) = (find emptyLine ('\r' :: u)).map (· + line.length) := by
  induction line with
  | nil => simp
  | cons c l ih =>
    obtain ⟨hc, hl⟩ := not_or.1 (List.mem_cons.not.1 h)
    -- the second character is in the line, or is the carriage return behind it
    have hp : ¬ emptyLine <+: c :: (l ++ '\r' :: u) := by
      intro hp
      have hp := (List.cons_prefix_cons.1 hp).2
      cases l with
      | nil => exact absurd (List.cons_prefix_cons.1 hp).1 (by decide)
      | cons d l => exact hl (List.mem_cons.2 (Or.inl (List.cons_prefix_cons.1 hp).1))
    rw [List.cons_append, find_cons_of_ne hp, ih hl, Option.map_map]
    rfl

/-- The end of a line before one that is not empty is no empty line. -/
theorem find_break {u : List Char} (h : '\n' ∉ line) (hne : line ≠ []) :
    find emptyLine ('\r' :: '\n' :: (line ++ '\r' :: u)) =
      (find emptyLine (line ++ '\r' :: u)).map (· + 2) := by
  have hfirst : ¬ emptyLine <+: '\r' :: '\n' :: (line ++ '\r' :: u) := by
    intro hp
    have hp := (List.cons_prefix_cons.1 (List.cons_prefix_cons.1 hp).2).2
    obtain ⟨c, l, rfl⟩ := List.exists_cons_of_ne_nil hne
    have hp := (List.cons_prefix_cons.1 hp).2
    cases l with
    | nil => exact absurd (List.cons_prefix_cons.1 hp).1 (by decide)
    | cons d l => exact h (List.mem_cons_of_mem _ (List.mem_cons.2 (Or.inl (List.cons_prefix_cons.1 hp).1)))
  have hsecond : ¬ emptyLine <+: '\n' :: (line ++ '\r' :: u) := fun hp =>
    absurd (List.cons_prefix_cons.1 hp).1 (by decide)
  rw [find_cons_of_ne hfirst, find_cons_of_ne hsecond, Option.map_map]
  rfl

/-- **The first empty line is behind the lines**, but for one in front. -/
theorem find_intercalate {ls : List (List Char)} (hls : ls ≠ []) (hne : ∀ line ∈ ls.tail, line ≠ [])
    (hbreak : ∀ line ∈ ls, '\n' ∉ line) :
    find emptyLine ("\r\n".toList.intercalate ls ++ emptyLine) = some ("\r\n".toList.intercalate ls).length := by
  induction ls with
  | nil => exact absurd rfl hls
  | cons l ls ih =>
    have hl := hbreak l (by simp)
    cases ls with
    | nil =>
      have hline := find_line (u := ['\n', '\r', '\n']) hl
      rw [List.intercalate_singleton]
      have hhere : find emptyLine ['\r', '\n', '\r', '\n'] = some 0 := find_of_starts List.prefix_rfl
      refine hline.trans ?_
      rw [hhere]
      simp
    | cons l' ls =>
      have hnext := ih (by simp) (fun line hline => hne line (List.mem_cons_of_mem _ hline))
        fun line hline => hbreak line (List.mem_cons_of_mem _ hline)
      obtain ⟨u, hu⟩ : ∃ u, "\r\n".toList.intercalate (l' :: ls) ++ emptyLine = l' ++ '\r' :: u := by
        cases ls with
        | nil => exact ⟨['\n', '\r', '\n'], by rw [List.intercalate_singleton]; rfl⟩
        | cons l'' ls =>
          rw [List.intercalate_cons_cons, List.append_assoc, List.append_assoc]
          exact ⟨_, rfl⟩
      have hjoin : "\r\n".toList.intercalate (l :: l' :: ls) ++ emptyLine =
          l ++ '\r' :: '\n' :: (l' ++ '\r' :: u) := by
        rw [List.intercalate_cons_cons, List.append_assoc, List.append_assoc, hu]
        rfl
      rw [hu] at hnext
      rw [hjoin, find_line hl, find_break (hbreak l' (by simp)) (hne l' (by simp)), hnext, List.intercalate_cons_cons]
      simp
      omega

/-! ## Joined lines -/

omit [DecidableEq α] in
theorem infix_intercalate {sep : List α} {x : List α} {ls : List (List α)} (h : x ∈ ls) :
    x <:+: sep.intercalate ls := by
  induction ls with
  | nil => cases h
  | cons l ls ih =>
    cases ls with
    | nil => rw [List.mem_singleton.1 h, List.intercalate_singleton]
    | cons l' ls =>
      rw [List.intercalate_cons_cons]
      rcases List.mem_cons.1 h with rfl | h
      · exact ((List.prefix_append _ _).trans (List.prefix_append _ _)).isInfix
      · exact (ih h).trans (List.suffix_append _ _).isInfix

/-- Between the lines is nothing that the filter keeps. -/
theorem filter_intercalate {β : Type*} {p : β → Bool} {sep : List β} (hsep : sep.filter p = []) (ls : List (List β)) :
    (sep.intercalate ls).filter p = ls.flatten.filter p := by
  induction ls with
  | nil => rfl
  | cons l ls ih =>
    cases ls with
    | nil => simp
    | cons l' ls =>
      rw [List.intercalate_cons_cons, List.filter_append, List.filter_append, hsep, List.append_nil, ih,
        List.flatten_cons (l := l), List.filter_append]

theorem isAscii_intercalate {ls : List (List Char)} (h : ∀ line ∈ ls, IsAscii line) :
    IsAscii ("\r\n".toList.intercalate ls) := by
  induction ls with
  | nil => exact fun c hc => by simp at hc
  | cons l ls ih =>
    cases ls with
    | nil => simpa using h l (by simp)
    | cons l' ls =>
      rw [List.intercalate_cons_cons, isAscii_append, isAscii_append]
      exact ⟨⟨h l (by simp), by decide⟩, ih fun line hline => h line (List.mem_cons_of_mem _ hline)⟩

omit [DecidableEq α] in
/-- An occurrence in joined lines is one in a line, for a pattern that has not what is between them. -/
theorem infix_of_intercalate {x : List Char} (hx : x ≠ []) (hcr : '\r' ∉ x) (hlf : '\n' ∉ x) {ls : List (List Char)}
    (h : x <:+: "\r\n".toList.intercalate ls) : ∃ line ∈ ls, x <:+: line := by
  induction ls with
  | nil => exact absurd (List.infix_nil.1 h) hx
  | cons l ls ih =>
    cases ls with
    | nil => exact ⟨l, by simp, by rwa [List.intercalate_singleton] at h⟩
    | cons l' ls =>
      rw [List.intercalate_cons_cons, List.append_assoc] at h
      rcases infix_of_notMem hcr h with hl | h
      · exact ⟨l, by simp, hl⟩
      · rcases infix_of_notMem (l := []) hlf h with hnil | h
        · exact absurd (List.infix_nil.1 hnil) hx
        · obtain ⟨line, hline, hx⟩ := ih h
          exact ⟨line, List.mem_cons_of_mem _ hline, hx⟩

end TextSearch
