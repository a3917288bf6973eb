import Mathlib.Data.List.Infix

/-!
# Scanning a text in rounds

A scanner reads a text round by round until nothing is left. A round gives a token or none, or fails. When every round
takes a character at least, the scanner comes to an end, and its tokens are those of the rounds (`tokens_eq_ok_iff`).
-/

section Results

variable {ε α β : Type*} {x : Except ε α} {b : β}

theorem Except.map_eq_ok {f : α → β} : x.map f = .ok b ↔ ∃ a, x = .ok a ∧ f a = b := by
  cases x <;> simp [Except.map]

theorem Except.bind_eq_ok {f : α → Except ε β} : x.bind f = .ok b ↔ ∃ a, x = .ok a ∧ f a = .ok b := by
  cases x <;> simp [Except.bind]

theorem Except.map_ne_error {e : ε} {f : α → β} (hx : x ≠ .error e) : x.map f ≠ .error e := by
  cases x with
  | error e' => exact fun h => hx (congrArg Except.error (Except.error.inj h))
  | ok a => exact nofun

theorem Except.bind_ne_error {e : ε} {f : α → Except ε β} (hx : x ≠ .error e)
    (hf : ∀ a, x = .ok a → f a ≠ .error e) : x.bind f ≠ .error e := by
  cases x with
  | error e' => exact fun h => hx (congrArg Except.error (Except.error.inj h))
  | ok a => exact hf a rfl

end Results

section Spans

variable {α : Type*} {p : α → Bool} {w rest : List α}

/-- A run of elements ends where the rest begins. -/
theorem List.takeWhile_run (hw : ∀ a ∈ w, p a = true) (hrest : ∀ a ∈ rest.head?, p a = false) :
    (w ++ rest).takeWhile p = w := by
  rw [List.takeWhile_append_of_pos hw]
  cases rest with
  | nil => exact List.append_nil w
  | cons a rest => rw [List.takeWhile_cons_of_neg (by simp [hrest a rfl]), List.append_nil]

theorem List.dropWhile_run (hw : ∀ a ∈ w, p a = true) (hrest : ∀ a ∈ rest.head?, p a = false) :
    (w ++ rest).dropWhile p = rest := by
  rw [List.dropWhile_append_of_pos hw]
  cases rest with
  | nil => rfl
  | cons a rest => rw [List.dropWhile_cons_of_neg (by simp [hrest a rfl])]

/-- Behind a run comes an element that does not belong to it. -/
theorem List.head?_dropWhile_run (l : List α) : ∀ a ∈ (l.dropWhile p).head?, p a = false := by
  intro a ha
  have hnot := List.head?_dropWhile_not p l
  rw [Option.mem_def.1 ha] at hnot
  exact hnot

end Spans

namespace Scanner

variable {α τ ε : Type*} (round : List α → Except ε (Option τ × List α))

/-- The tokens of at most so many rounds. -/
def scan : ℕ → List α → Except ε (List τ)
  | _, [] => .ok []
  | 0, _ => .ok []
  | fuel + 1, s => match round s with
    | .ok (t, rest) => (scan fuel rest).map (t.toList ++ ·)
    | .error e => .error e

/-- There are no more rounds than characters. -/
def tokens (s : List α) : Except ε (List τ) := scan round s.length s

/-- Each round takes a character at least. -/
def Shrinks : Prop := ∀ s t rest, s ≠ [] → round s = .ok (t, rest) → rest.length < s.length

/-- The tokens of the rounds of a text. -/
inductive Rounds : List α → List τ → Prop
  | nil : Rounds [] []
  | cons {s rest : List α} {t : Option τ} {ts : List τ} (hs : s ≠ []) (h : round s = .ok (t, rest))
      (hrest : Rounds rest ts) : Rounds s (t.toList ++ ts)

variable {round}

theorem scan_eq_ok_iff (hround : Shrinks round) {fuel : ℕ} {s : List α} (h : s.length ≤ fuel) {ts : List τ} :
    scan round fuel s = .ok ts ↔ Rounds round s ts := by
  induction fuel generalizing s ts with
  | zero =>
    rw [List.length_eq_zero_iff.1 (Nat.le_zero.1 h)]
    simp only [scan, Except.ok.injEq]
    refine ⟨fun hts => hts ▸ .nil, fun hts => ?_⟩
    cases hts with
    | nil => rfl
    | cons hs _ _ => exact absurd rfl hs
  | succ fuel ih =>
    cases s with
    | nil =>
      simp only [scan, Except.ok.injEq]
      refine ⟨fun hts => hts ▸ .nil, fun hts => ?_⟩
      cases hts with
      | nil => rfl
      | cons hs _ _ => exact absurd rfl hs
    | cons c s =>
      simp only [scan]
      cases hc : round (c :: s) with
      | error e =>
        refine iff_of_false (fun h => by cases h) fun hts => ?_
        cases hts with
        | cons _ h _ => rw [hc] at h; cases h
      | ok p =>
        obtain ⟨t, rest⟩ := p
        have hlt := hround _ _ _ (List.cons_ne_nil c s) hc
        have hrest := @ih rest (Nat.le_of_lt_succ (hlt.trans_le h))
        constructor
        · intro hts
          obtain ⟨us, hscan, rfl⟩ := Except.map_eq_ok.1 hts
          exact .cons (List.cons_ne_nil c s) hc (hrest.1 hscan)
        · intro hts
          cases hts with
          | cons _ h hus =>
            rw [hc] at h
            cases h
            exact Except.map_eq_ok.2 ⟨_, hrest.2 hus, rfl⟩

/-- An error is one of a round. -/
theorem tokens_ne_error {e : ε} (h : ∀ s, round s ≠ .error e) (s : List α) : tokens round s ≠ .error e := by
  unfold tokens
  generalize s.length = fuel
  induction fuel generalizing s with
  | zero => cases s <;> exact nofun
  | succ fuel ih =>
    cases s with
    | nil => exact nofun
    | cons c s =>
      simp only [scan]
      cases hc : round (c :: s) with
      | error e' => exact fun heq => h _ (hc.trans (congrArg Except.error (Except.error.inj heq)))
      | ok p => exact Except.map_ne_error (ih p.2)

/-- **The tokens are those of the rounds.** -/
theorem tokens_eq_ok_iff (hround : Shrinks round) {s : List α} {ts : List τ} :
    tokens round s = .ok ts ↔ Rounds round s ts :=
  scan_eq_ok_iff hround (Nat.le_refl _)

end Scanner
