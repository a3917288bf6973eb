import ThorFirewall.Dissectors.Dns

/-!
# The DNS dissector on any bytes

A name may jump to any position of the packet, but it jumps at most eleven times and moves forward between two jumps.
Whatever the bytes are, no index is out of range, and a name ends behind its start and within the packet
(`parseName_ensures`).
-/

namespace ThorFirewall.Dissectors

open ByteReader Utf8

variable (data : List UInt8)

/-! ## Names -/

/-- The position behind a name: the one behind the first pointer, or one behind the last label. -/
def EndsAt (pos : ℕ) (finalPos : Option ℕ) (next : ℕ) : Prop :=
  match finalPos with
  | some p => next = p
  | none => pos < next ∧ next ≤ data.length

theorem parseNameLoop_ensures (jumps pos : ℕ) (labels : List (List Char)) (finalPos : Option ℕ) :
    Ensures (fun r => EndsAt data pos finalPos r.2) (parseNameLoop data jumps pos labels finalPos) := by
  rw [parseNameLoop]
  split
  · exact ensures_reject
  split
  · exact ensures_reject
  next hjumps hpos =>
  apply (yields_byteAt (by omega)).ensures.bind
  intro len _
  split
  · cases finalPos with
    | some p => exact rfl
    | none => exact ⟨Nat.lt_succ_self pos, by show pos + 1 ≤ _; omega⟩
  split
  · -- a pointer: the end of the name is settled by the first of them
    split
    · exact ensures_reject
    next hlow =>
    apply (yields_byteAt (by omega)).ensures.bind
    intro low _
    apply (parseNameLoop_ensures (jumps + 1) _ labels (finalPos <|> some (pos + 2))).mono
    intro r hr
    cases finalPos with
    | some p => exact hr
    | none => exact ⟨by rw [show r.2 = pos + 2 from hr]; omega, by rw [show r.2 = pos + 2 from hr]; omega⟩
  · simp only
    split
    · exact ensures_reject
    next hlabel =>
    apply (yields_slice (by omega) (by omega)).ensures.bind
    intro label _
    split
    · apply (parseNameLoop_ensures jumps (pos + 1 + len.toNat) _ finalPos).mono
      intro r hr
      cases finalPos with
      | some p => exact hr
      | none => exact ⟨by have := hr.1; omega, hr.2⟩
    · exact ensures_reject
termination_by (11 - jumps, data.length - pos)

/-- **A name ends behind its start and within the packet**, and no index is out of range. -/
theorem parseName_ensures (pos : ℕ) :
    Ensures (fun r => pos < r.2 ∧ r.2 ≤ data.length) (parseName data pos) :=
  parseNameLoop_ensures data 0 pos [] none

theorem nameOrDefault_yields (pos : ℕ) : Yields (fun _ => True) (nameOrDefault data pos) :=
  (parseName_ensures data pos).attempt.bind fun _ _ => yields_pure trivial

/-! ## Records -/

theorem parseTxt_yields (rdataBytes : List UInt8) (p : ℕ) (parts : List (List Char)) :
    Yields (fun _ => True) (parseTxt rdataBytes p parts) := by
  rw [parseTxt]
  split
  · next hp =>
    apply (yields_byteAt hp).bind
    intro len _
    simp only
    split
    · next hpart =>
      apply (yields_slice (by omega) hpart).bind
      intro part _
      exact parseTxt_yields rdataBytes _ _
    · exact yields_pure trivial
  · exact yields_pure trivial
termination_by rdataBytes.length - p

theorem checkedSub_yields {a b : ℕ} (h : b ≤ a) : Yields (fun n => n = a - b) (checkedSub a b) := ⟨_, if_pos h, rfl⟩

/-- The data of a record, which stand in front of the position. -/
theorem parseRdata_yields (rtype : UInt16) {rdataBytes : List UInt8} {pos : ℕ} (h : rdataBytes.length ≤ pos) :
    Yields (fun _ => True) (parseRdata data rtype rdataBytes pos) := by
  have hname : ∀ (k : ℕ) (f : List Char → DnsRdata), Yields (fun _ => True)
      (checkedSub pos rdataBytes.length >>= fun start => nameOrDefault data (start + k) >>= fun name => pure (f name)) :=
    fun k f => (checkedSub_yields h).bind fun _ _ => (nameOrDefault_yields data _).bind fun _ _ => yields_pure trivial
  unfold parseRdata
  simp only
  split
  · exact yields_pure trivial
  split
  · exact yields_pure trivial
  split
  · exact hname 0 .cname
  split
  · next hmx =>
    apply (yields_u16At (by omega)).bind
    intro priority _
    exact hname 2 (.mx priority)
  split
  · exact (parseTxt_yields rdataBytes 0 []).bind fun _ _ => yields_pure trivial
  split
  · exact hname 0 .ns
  split
  · exact hname 0 .ptr
  · exact yields_pure trivial

theorem parseRecord_yields (pos : ℕ) : Yields (fun _ => True) (parseRecord data pos) := by
  unfold parseRecord
  apply (parseName_ensures data pos).attempt.bind
  intro name _
  split
  · exact yields_pure trivial
  split
  · exact yields_pure trivial
  next name p hheader =>
  apply (yields_u16At (by omega)).bind
  intro rtype _
  apply (yields_u16At (by omega)).bind
  intro rclass _
  apply (yields_u32At (by omega)).bind
  intro ttl _
  apply (yields_u16At (by omega)).bind
  intro rdlen _
  simp only
  split
  · exact yields_pure trivial
  next hrdata =>
  apply (yields_slice (by omega) (by omega)).bind
  intro rdataBytes hlength
  exact (parseRdata_yields data rtype (by omega)).bind fun _ _ => yields_pure trivial

theorem parseRecords_yields (count pos : ℕ) : Yields (fun _ => True) (parseRecords data count pos) := by
  induction count generalizing pos with
  | zero => exact yields_pure trivial
  | succ count ih =>
    rw [parseRecords]
    apply (parseRecord_yields data pos).bind
    intro r _
    split
    · exact (ih _).bind fun _ _ => yields_pure trivial
    · exact yields_pure trivial

/-! ## Packets -/

theorem parseQuestions_ensures (count pos : ℕ) : Ensures (fun _ => True) (parseQuestions data count pos) := by
  induction count generalizing pos with
  | zero => trivial
  | succ count ih =>
    rw [parseQuestions]
    apply (parseName_ensures data pos).bind
    intro name _
    simp only
    split
    · trivial
    · apply (yields_u16At (by omega)).ensures.bind
      intro qtype _
      apply (yields_u16At (by omega)).ensures.bind
      intro qclass _
      exact (ih _).bind fun _ _ => trivial

theorem parseDnsPacket_ensures : Ensures (fun _ => True) (parseDnsPacket data) := by
  unfold parseDnsPacket
  split
  · exact ensures_reject
  next hheader =>
  apply (yields_u16At (by omega)).ensures.bind
  intro transactionId _
  apply (yields_u16At (by omega)).ensures.bind
  intro flags _
  apply (yields_u16At (by omega)).ensures.bind
  intro qdcount _
  apply (yields_u16At (by omega)).ensures.bind
  intro ancount _
  apply (yields_u16At (by omega)).ensures.bind
  intro nscount _
  apply (yields_u16At (by omega)).ensures.bind
  intro arcount _
  apply (parseQuestions_ensures data _ _).bind
  intro questions _
  apply (parseRecords_yields data _ _).ensures.bind
  intro answers _
  apply (parseRecords_yields data _ _).ensures.bind
  intro authority _
  exact (parseRecords_yields data _ _).ensures.bind fun _ _ => trivial

/-- **The decoding of DNS is total**: on every byte string and at every position, no index is out of range and no
subtraction goes below zero, and the name at a position ends behind it and within the packet. -/
theorem dns_total :
    (∀ pos, parseName data pos ≠ .error .panicked ∧
      ∀ name next, parseName data pos = .ok (name, next) → pos < next ∧ next ≤ data.length) ∧
      parseDnsPacket data ≠ .error .panicked :=
  ⟨fun pos => ⟨(parseName_ensures data pos).ne_panicked, fun _ _ h => (parseName_ensures data pos).of_ok h⟩,
    (parseDnsPacket_ensures data).ne_panicked⟩

end ThorFirewall.Dissectors
