import Mathlib.Data.List.Basic
import Mathlib.Tactic.Ring

/-!
# Reading bytes at positions

Code that reads a packet at positions that it computes. An index behind the end of the bytes panics; code that gives the
packet up rejects it. `At data pos bs` says that the bytes `bs` stand at a position: each read finds what stands there
(`byteAt_of_at`, `slice_of_at`, `u16At_of_at`, ...), and a text of bytes splits into its parts (`at_append`).
-/

namespace ByteReader

/-- Why a reader returns nothing: it returns `None`, or an index is out of range. -/
inductive Stop
  | rejected
  | panicked
  deriving DecidableEq, Repr

abbrev Checked := Except Stop

variable {α : Type*}

/-- `return None`. -/
def reject : Checked α := .error .rejected

/-- `if !c { return None }`. -/
def require (c : Prop) [Decidable c] : Checked Unit := if c then .ok () else .error .rejected

/-- What is returned, as an option: a rejected packet is no error for the caller. -/
def attempt : Checked α → Checked (Option α)
  | .ok a => .ok (some a)
  | .error .rejected => .ok none
  | .error .panicked => .error .panicked

/-- `data[pos]`. -/
def byteAt (data : List UInt8) (pos : ℕ) : Checked UInt8 :=
  match data[pos]? with
  | some b => .ok b
  | none => .error .panicked

/-- `&data[start..stop]`. -/
def slice (data : List UInt8) (start stop : ℕ) : Checked (List UInt8) :=
  if start ≤ stop ∧ stop ≤ data.length then .ok ((data.drop start).take (stop - start)) else .error .panicked

/-- `[data[pos], .., data[pos + n - 1]]`. -/
def bytesAt (data : List UInt8) : ℕ → ℕ → Checked (List UInt8)
  | _, 0 => .ok []
  | pos, n + 1 => do
    let b ← byteAt data pos
    let bs ← bytesAt data (pos + 1) n
    return b :: bs

/-! ## Numbers -/

/-- The number with the given bytes, the highest first. -/
def ofBe (bs : List UInt8) : ℕ := bs.foldl (fun n b => 256 * n + b.toNat) 0

/-- The low `n` bytes of a number, the highest first. -/
def beBytes : ℕ → ℕ → List UInt8
  | 0, _ => []
  | n + 1, x => beBytes n (x / 256) ++ [UInt8.ofNat x]

@[simp] theorem length_beBytes (n x : ℕ) : (beBytes n x).length = n := by
  induction n generalizing x with
  | zero => rfl
  | succ n ih => rw [beBytes, List.length_append, ih, List.length_singleton]

theorem ofBe_beBytes (n x : ℕ) : ofBe (beBytes n x) = x % 256 ^ n := by
  induction n generalizing x with
  | zero => simp [beBytes, ofBe, Nat.mod_one]
  | succ n ih =>
    have hlow : (UInt8.ofNat x).toNat = x % 256 := UInt8.toNat_ofNat'
    rw [beBytes, ofBe, List.foldl_append, ← ofBe, ih, List.foldl_cons, List.foldl_nil, hlow, Nat.pow_succ', Nat.mod_mul]
    exact Nat.add_comm _ _

/-- `u16::from_be_bytes` of two bytes. -/
def u16At (data : List UInt8) (pos : ℕ) : Checked UInt16 := do
  return UInt16.ofNat (ofBe (← bytesAt data pos 2))

/-- `u32::from_be_bytes` of four bytes. -/
def u32At (data : List UInt8) (pos : ℕ) : Checked UInt32 := do
  return UInt32.ofNat (ofBe (← bytesAt data pos 4))

/-- `u16::from_le_bytes` and `u32::from_le_bytes`. -/
def u16LeAt (data : List UInt8) (pos : ℕ) : Checked UInt16 := do
  return UInt16.ofNat (ofBe (← bytesAt data pos 2).reverse)

def u32LeAt (data : List UInt8) (pos : ℕ) : Checked UInt32 := do
  return UInt32.ofNat (ofBe (← bytesAt data pos 4).reverse)

/-! ## What stands at a position -/

/-- The bytes stand at a position of the data. -/
def At (data : List UInt8) (pos : ℕ) (bs : List UInt8) : Prop := pos ≤ data.length ∧ bs <+: data.drop pos

instance (data : List UInt8) (pos : ℕ) (bs : List UInt8) : Decidable (At data pos bs) :=
  inferInstanceAs (Decidable (_ ∧ _))

variable {data as bs : List UInt8} {b : UInt8} {pos n : ℕ}

theorem At.congr {p q : ℕ} (h : At data p bs) (hpq : p = q) : At data q bs := hpq ▸ h

theorem at_self (data : List UInt8) : At data 0 data := ⟨Nat.zero_le _, List.prefix_rfl⟩

theorem At.le_length (h : At data pos bs) : pos + bs.length ≤ data.length := by
  have hle := h.2.length_le
  rw [List.length_drop] at hle
  have := h.1
  omega

/-- **Bytes stand where their parts do.** -/
theorem at_append : At data pos (as ++ bs) ↔ At data pos as ∧ At data (pos + as.length) bs := by
  constructor
  · intro h
    have hle := h.le_length
    obtain ⟨t, ht⟩ := h.2
    rw [List.length_append] at hle
    rw [List.append_assoc] at ht
    refine ⟨⟨h.1, _, ht⟩, by omega, ?_⟩
    rw [← List.drop_drop, ← ht, List.drop_left]
    exact List.prefix_append _ _
  · rintro ⟨⟨hle, t, ht⟩, -, hbs⟩
    refine ⟨hle, ?_⟩
    rw [← List.drop_drop, ← ht, List.drop_left] at hbs
    rw [← ht]
    exact (List.prefix_append_right_inj as).2 hbs

theorem at_cons : At data pos (b :: bs) ↔ At data pos [b] ∧ At data (pos + 1) bs := @at_append data [b] bs pos

/-- Bytes that stand in a part of the data stand in the data. -/
theorem At.trans {part : List UInt8} {start : ℕ} (h : At part pos bs) (hpart : At data start part) :
    At data (start + pos) bs := by
  have hle := hpart.le_length
  have hlt := h.1
  obtain ⟨t, ht⟩ := hpart.2
  refine ⟨by omega, ?_⟩
  rw [← List.drop_drop, ← ht, List.drop_append_of_le_length hlt]
  exact h.2.trans (List.prefix_append _ _)

/-- Bytes of the data that are in a part stand in the part. -/
theorem At.inPart {part : List UInt8} {start : ℕ} (hpart : At data start part) (h : At data (start + pos) bs)
    (hle : pos + bs.length ≤ part.length) : At part pos bs := by
  obtain ⟨t, ht⟩ := hpart.2
  have hbs := h.2
  rw [← List.drop_drop, ← ht, List.drop_append_of_le_length (by omega)] at hbs
  refine ⟨by omega, List.prefix_of_prefix_length_le hbs (List.prefix_append _ _) ?_⟩
  rw [List.length_drop]
  omega

theorem At.unique (has : At data pos as) (hbs : At data pos bs) (h : as.length = bs.length) : as = bs :=
  (List.prefix_of_prefix_length_le has.2 hbs.2 h.le).eq_of_length h

/-- Something stands between any two positions. -/
theorem exists_at (hle : pos ≤ n) (h : n ≤ data.length) : ∃ bs, At data pos bs ∧ n = pos + bs.length := by
  refine ⟨(data.drop pos).take (n - pos), ⟨by omega, List.take_prefix _ _⟩, ?_⟩
  rw [List.length_take, List.length_drop]
  omega

/-! ## Reads -/

theorem byteAt_of_at (h : At data pos (b :: bs)) : byteAt data pos = .ok b := by
  obtain ⟨t, ht⟩ := h.2
  have hget : data[pos]? = some b := by
    rw [← Nat.add_zero pos, ← List.getElem?_drop, ← ht]
    rfl
  rw [byteAt, hget]

theorem slice_of_at (h : At data pos bs) : slice data pos (pos + bs.length) = .ok bs := by
  rw [slice, if_pos ⟨Nat.le_add_right _ _, h.le_length⟩, Nat.add_sub_cancel_left]
  obtain ⟨t, ht⟩ := h.2
  rw [← ht, List.take_left]

theorem slice_eq_of_at {start stop : ℕ} (h : At data pos bs) (hstart : pos = start) (hstop : start + bs.length = stop) :
    slice data start stop = .ok bs := by
  subst hstart hstop
  exact slice_of_at h

theorem bytesAt_of_at (h : At data pos bs) : bytesAt data pos bs.length = .ok bs := by
  induction bs generalizing pos with
  | nil => rfl
  | cons b bs ih =>
    have hrest := ih (at_cons.1 h).2
    simp only [List.length_cons, bytesAt, byteAt_of_at h, hrest, bind, Except.bind, pure, Except.pure]

theorem u16At_of_at {x : ℕ} (hx : x < 2 ^ 16) (h : At data pos (beBytes 2 x)) :
    u16At data pos = .ok (UInt16.ofNat x) := by
  have hbytes := bytesAt_of_at h
  have hmod : x % 256 ^ 2 = x := Nat.mod_eq_of_lt hx
  rw [length_beBytes] at hbytes
  simp only [u16At, hbytes, bind, Except.bind, pure, Except.pure, ofBe_beBytes, hmod]

theorem u32At_of_at {x : ℕ} (hx : x < 2 ^ 32) (h : At data pos (beBytes 4 x)) :
    u32At data pos = .ok (UInt32.ofNat x) := by
  have hbytes := bytesAt_of_at h
  have hmod : x % 256 ^ 4 = x := Nat.mod_eq_of_lt hx
  rw [length_beBytes] at hbytes
  simp only [u32At, hbytes, bind, Except.bind, pure, Except.pure, ofBe_beBytes, hmod]

/-! ## Readers that return -/

theorem bind_eq_ok {α β : Type} {x : Checked α} {f : α → Checked β} {b : β} :
    (x >>= f) = .ok b ↔ ∃ a, x = .ok a ∧ f a = .ok b := by
  cases x with
  | error stop => exact iff_of_false nofun fun ⟨_, h, _⟩ => nomatch h
  | ok a => exact ⟨fun h => ⟨a, rfl, h⟩, fun ⟨_, h, hf⟩ => Except.ok.inj h ▸ hf⟩

theorem pure_eq_ok {α : Type} {a b : α} : (pure a : Checked α) = .ok b ↔ a = b := Except.ok.injEq a b ▸ Iff.rfl

theorem require_eq_ok {c : Prop} [Decidable c] {u : Unit} : require c = .ok u ↔ c := by
  unfold require
  split_ifs with h
  · exact iff_of_true rfl h
  · exact iff_of_false nofun h

theorem require_of {c : Prop} [Decidable c] (h : c) : require c = .ok () := if_pos h

theorem byteAt_eq_ok : byteAt data pos = .ok b ↔ data[pos]? = some b := by
  unfold byteAt
  cases data[pos]? with
  | none => exact iff_of_false nofun nofun
  | some c => exact ⟨fun h => congrArg some (Except.ok.inj h), fun h => congrArg Except.ok (Option.some.inj h)⟩

theorem slice_eq_ok {start stop : ℕ} :
    slice data start stop = .ok bs ↔ (start ≤ stop ∧ stop ≤ data.length) ∧ (data.drop start).take (stop - start) = bs := by
  unfold slice
  split_ifs with h
  · exact ⟨fun h' => ⟨h, Except.ok.inj h'⟩, fun h' => congrArg Except.ok h'.2⟩
  · exact iff_of_false nofun fun h' => h h'.1

theorem u16At_eq_ok {x : UInt16} : u16At data pos = .ok x ↔
    ∃ high low, data[pos]? = some high ∧ data[pos + 1]? = some low ∧ UInt16.ofNat (ofBe [high, low]) = x := by
  simp only [u16At, bytesAt, bind_eq_ok, byteAt_eq_ok, pure_eq_ok]
  constructor
  · rintro ⟨_, ⟨high, hhigh, _, ⟨low, hlow, _, hnil, rfl⟩, rfl⟩, rfl⟩
    cases hnil
    exact ⟨high, low, hhigh, hlow, rfl⟩
  · rintro ⟨high, low, hhigh, hlow, rfl⟩
    exact ⟨_, ⟨high, hhigh, _, ⟨low, hlow, _, rfl, rfl⟩, rfl⟩, rfl⟩

/-! ## Reads within the bytes -/

theorem bytesAt_isOk (data : List UInt8) (pos n : ℕ) (h : pos + n ≤ data.length) :
    ∃ bs, bytesAt data pos n = .ok bs := by
  obtain ⟨bs, hbs, hn⟩ := exists_at (Nat.le_add_right pos n) h
  obtain rfl : n = bs.length := by omega
  exact ⟨bs, bytesAt_of_at hbs⟩

theorem byteAt_isOk (data : List UInt8) (pos : ℕ) (h : pos < data.length) : ∃ b, byteAt data pos = .ok b := by
  rw [byteAt, List.getElem?_eq_getElem h]
  exact ⟨_, rfl⟩

theorem u16LeAt_isOk (data : List UInt8) (pos : ℕ) (h : pos + 2 ≤ data.length) : ∃ x, u16LeAt data pos = .ok x := by
  obtain ⟨bs, hbs⟩ := bytesAt_isOk _ _ _ h
  exact ⟨_, by rw [u16LeAt, hbs]; rfl⟩

theorem u32LeAt_isOk (data : List UInt8) (pos : ℕ) (h : pos + 4 ≤ data.length) : ∃ x, u32LeAt data pos = .ok x := by
  obtain ⟨bs, hbs⟩ := bytesAt_isOk _ _ _ h
  exact ⟨_, by rw [u32LeAt, hbs]; rfl⟩

/-! ## Reads that do not panic

`Yields Q x` says that a value with the property `Q` is returned, `Ensures Q x` that a value with the property is
returned or the packet is rejected.
-/

/-- No index is out of range, and what is returned has a property. -/
def Ensures (Q : α → Prop) : Checked α → Prop
  | .ok a => Q a
  | .error stop => stop ≠ .panicked

section Ensures

variable {α β : Type} {Q R : α → Prop} {x : Checked α}

theorem Ensures.mono (h : Ensures Q x) (hQR : ∀ a, Q a → R a) : Ensures R x := by
  cases x with
  | ok a => exact hQR a h
  | error stop => exact h

theorem Ensures.bind {S : β → Prop} {f : α → Checked β} (h : Ensures Q x) (hf : ∀ a, Q a → Ensures S (f a)) :
    Ensures S (x >>= f) := by
  cases x with
  | ok a => exact hf a h
  | error stop => exact h

theorem Ensures.ne_panicked (h : Ensures Q x) : x ≠ .error .panicked := by
  cases x with
  | ok a => exact nofun
  | error stop => exact fun heq => h (Except.error.inj heq)

theorem Ensures.of_ok {a : α} (h : Ensures Q x) (hx : x = .ok a) : Q a := by
  rw [hx] at h
  exact h

theorem ensures_reject : Ensures Q (reject : Checked α) := nofun

theorem ensures_require {c : Prop} [Decidable c] : Ensures (fun _ => c) (require c) := by
  unfold require
  split
  · assumption
  · exact nofun

/-- A value is returned, and has a property. -/
def Yields (Q : α → Prop) (x : Checked α) : Prop := ∃ a, x = .ok a ∧ Q a

theorem Yields.ensures (h : Yields Q x) : Ensures Q x := by
  obtain ⟨a, rfl, ha⟩ := h
  exact ha

theorem Yields.bind {S : β → Prop} {f : α → Checked β} (h : Yields Q x) (hf : ∀ a, Q a → Yields S (f a)) :
    Yields S (x >>= f) := by
  obtain ⟨a, rfl, ha⟩ := h
  exact hf a ha

/-- The value that is returned, with its property. -/
theorem Yields.eq_ok (h : Yields Q x) : Yields (fun a => Q a ∧ x = .ok a) x := by
  obtain ⟨a, ha, hQ⟩ := h
  exact ⟨a, ha, hQ, ha⟩

theorem yields_pure {a : α} (h : Q a) : Yields Q (pure a : Checked α) := ⟨a, rfl, h⟩

/-- A packet that is rejected is no error for the caller. -/
theorem Ensures.attempt (h : Ensures Q x) : Yields (fun o => ∀ a ∈ o, Q a) (attempt x) := by
  cases x with
  | ok a => exact ⟨some a, rfl, fun b hb => Option.some.inj hb ▸ h⟩
  | error stop =>
    cases stop with
    | rejected => exact ⟨none, rfl, nofun⟩
    | panicked => exact absurd rfl h

theorem yields_byteAt {pos : ℕ} (h : pos < data.length) : Yields (fun _ => True) (byteAt data pos) := by
  obtain ⟨b, hb⟩ := byteAt_isOk data pos h
  exact ⟨b, hb, trivial⟩

theorem yields_slice {start stop : ℕ} (hstart : start ≤ stop) (hstop : stop ≤ data.length) :
    Yields (fun part => part.length = stop - start) (slice data start stop) := by
  refine ⟨_, if_pos ⟨hstart, hstop⟩, ?_⟩
  simp only [List.length_take, List.length_drop]
  omega

theorem yields_bytesAt {pos n : ℕ} (h : pos + n ≤ data.length) : Yields (fun _ => True) (bytesAt data pos n) := by
  obtain ⟨bs, hbs⟩ := bytesAt_isOk data pos n h
  exact ⟨bs, hbs, trivial⟩

theorem yields_u16At {pos : ℕ} (h : pos + 2 ≤ data.length) : Yields (fun _ => True) (u16At data pos) :=
  (yields_bytesAt h).bind fun _ _ => yields_pure trivial

theorem yields_u32At {pos : ℕ} (h : pos + 4 ≤ data.length) : Yields (fun _ => True) (u32At data pos) :=
  (yields_bytesAt h).bind fun _ _ => yields_pure trivial

end Ensures

end ByteReader
