import ThorFirewall.Dissectors.DnsTotality

/-!
# Damaged DNS packets

A record that cannot be read ends its section, and the sections behind it go on where its reading stopped. Where the
name or the header is cut off, nothing is left to read. Where the data of the record are cut off, the next section reads
them as records.

- `CompleteAt`, `CutAt`: a whole record at a position, and one whose data run past the end of the packet;
- `Fabricates`: a section is cut short by such data, and a later one finds a record in them;
- `sections_faithful_iff`: a packet gives no records behind a short section unless it is of this kind.
-/

namespace ThorFirewall.Dissectors

open ByteReader

variable (data : List UInt8)

/-! ## Records in the packet -/

/-- The header of a record with its name; its data are from `body` to `stop`. -/
def HeaderAt (pos body stop : ℕ) : Prop :=
  ∃ name p rdlen, parseName data pos = .ok (name, p) ∧ body = p + 10 ∧ body ≤ data.length ∧
    u16At data (p + 8) = .ok rdlen ∧ stop = body + rdlen.toNat

def CompleteAt (pos next : ℕ) : Prop := ∃ body, HeaderAt data pos body next ∧ next ≤ data.length

/-- The data of the record run past the end of the packet. -/
def CutAt (pos body : ℕ) : Prop := ∃ stop, HeaderAt data pos body stop ∧ data.length < stop

/-- So many records, one behind the other. -/
def Run : ℕ → ℕ → ℕ → Prop
  | 0, pos, next => pos = next
  | k + 1, pos, next => ∃ p, CompleteAt data pos p ∧ Run k p next

/-- Sections with these counts find a record at a position, or in the cut data of one there. -/
def Reread : List ℕ → ℕ → Prop
  | [], _ => False
  | 0 :: counts, pos => Reread counts pos
  | (_ + 1) :: counts, pos => (∃ next, CompleteAt data pos next) ∨ ∃ body, CutAt data pos body ∧ Reread counts body

/-- One of the sections is cut short in the data of a record, and the later ones read these data. -/
def Fabricates : List ℕ → ℕ → Prop
  | [], _ => False
  | count :: counts, pos => (∃ next, Run data count pos next ∧ Fabricates counts next) ∨
    ∃ k < count, ∃ p body, Run data k pos p ∧ CutAt data p body ∧ Reread data counts body

/-- So many questions, one behind the other. -/
def QuestionRun : ℕ → ℕ → ℕ → Prop
  | 0, pos, next => pos = next
  | k + 1, pos, next => ∃ name p, parseName data pos = .ok (name, p) ∧ p + 4 ≤ data.length ∧ QuestionRun k (p + 4) next

section Headers

variable {data} {pos next p body stop : ℕ}

theorem HeaderAt.unique {body' stop' : ℕ} (h : HeaderAt data pos body stop) (h' : HeaderAt data pos body' stop') :
    body = body' ∧ stop = stop' := by
  obtain ⟨name, p, rdlen, hname, rfl, _, hrdlen, rfl⟩ := h
  obtain ⟨name', p', rdlen', hname', rfl, _, hrdlen', rfl⟩ := h'
  obtain ⟨rfl, rfl⟩ := Prod.mk.inj (Except.ok.inj (hname.symm.trans hname'))
  obtain rfl := Except.ok.inj (hrdlen.symm.trans hrdlen')
  exact ⟨rfl, rfl⟩

theorem CompleteAt.unique {next' : ℕ} (h : CompleteAt data pos next) (h' : CompleteAt data pos next') : next = next' :=
  (h.choose_spec.1.unique h'.choose_spec.1).2

theorem CutAt.unique {body' : ℕ} (h : CutAt data pos body) (h' : CutAt data pos body') : body = body' :=
  (h.choose_spec.1.unique h'.choose_spec.1).1

theorem CompleteAt.not_cutAt (h : CompleteAt data pos next) (h' : CutAt data pos body) : False := by
  obtain ⟨_, hheader, hle⟩ := h
  obtain ⟨stop, hheader', hlt⟩ := h'
  have hstop := (hheader.unique hheader').2
  omega

/-- Nothing can be read from here on: there is no name, or no room for the header behind it. -/
def Dead (data : List UInt8) (pos : ℕ) : Prop := parseName data pos = .error .rejected ∨ data.length < pos + 10

theorem Dead.not_headerAt (h : Dead data pos) : ¬ HeaderAt data pos body stop := by
  rintro ⟨name, p, rdlen, hname, rfl, hle, _, _⟩
  rcases h with h | h
  · rw [hname] at h
    cases h
  · have hbehind := (parseName_ensures data pos).of_ok hname
    simp only at hbehind
    omega

theorem not_headerAt_complete (h : ∀ body stop, ¬ HeaderAt data pos body stop) : ¬ CompleteAt data pos next :=
  fun ⟨body, hheader, _⟩ => h body next hheader

theorem not_headerAt_cut (h : ∀ body stop, ¬ HeaderAt data pos body stop) : ¬ CutAt data pos body :=
  fun ⟨stop, hheader, _⟩ => h body stop hheader

end Headers

/-! ## One record -/

section Records

/-- What the reading of a record comes to: the record, the beginning of its cut data, or a position without a record. -/
theorem parseRecord_cases (pos : ℕ) :
    (∃ r next, parseRecord data pos = .ok (some r, next) ∧ CompleteAt data pos next) ∨
      (∃ body, parseRecord data pos = .ok (none, body) ∧ CutAt data pos body) ∨
        ∃ p, parseRecord data pos = .ok (none, p) ∧ Dead data p ∧ ∀ body stop, ¬ HeaderAt data pos body stop := by
  cases hname : parseName data pos with
  | error why =>
    cases why with
    | panicked => exact absurd hname (parseName_ensures data pos).ne_panicked
    | rejected =>
      have hdead : Dead data pos := .inl hname
      refine .inr (.inr ⟨pos, ?_, hdead, fun _ _ => hdead.not_headerAt⟩)
      rw [parseRecord, hname]
      rfl
  | ok r =>
    obtain ⟨name, p⟩ := r
    rw [parseRecord, hname]
    simp only [attempt, bind, Except.bind]
    by_cases hroom : data.length < p + 10
    · refine .inr (.inr ⟨p, if_pos hroom, .inr hroom, ?_⟩)
      rintro body stop ⟨name', p', rdlen, hname', rfl, hle, _, _⟩
      obtain ⟨rfl, rfl⟩ := Prod.mk.inj (Except.ok.inj (hname.symm.trans hname'))
      omega
    · rw [if_neg hroom]
      obtain ⟨rtype, hrtype, _⟩ := yields_u16At (show p + 2 ≤ data.length by omega)
      obtain ⟨rclass, hrclass, _⟩ := yields_u16At (show p + 2 + 2 ≤ data.length by omega)
      obtain ⟨ttl, httl, _⟩ := yields_u32At (show p + 4 + 4 ≤ data.length by omega)
      obtain ⟨rdlen, hrdlen, _⟩ := yields_u16At (show p + 8 + 2 ≤ data.length by omega)
      have hheader : HeaderAt data pos (p + 10) (p + 10 + rdlen.toNat) :=
        ⟨name, p, rdlen, hname, rfl, by omega, hrdlen, rfl⟩
      simp only [hrtype, hrclass, httl, hrdlen]
      by_cases hcut : data.length < p + 10 + rdlen.toNat
      · exact .inr (.inl ⟨p + 10, if_pos hcut, _, hheader, hcut⟩)
      · rw [if_neg hcut]
        obtain ⟨rdataBytes, hslice, hlength⟩ :=
          yields_slice (Nat.le_add_right (p + 10) rdlen.toNat) (Nat.le_of_not_lt hcut)
        obtain ⟨rdata, hrdata, _⟩ :=
          parseRdata_yields data rtype (show rdataBytes.length ≤ p + 10 + rdlen.toNat by omega)
        simp only [hslice, hrdata]
        exact .inl ⟨_, _, rfl, p + 10, hheader, Nat.le_of_not_lt hcut⟩

variable {data}

/-- Where nothing can be read, nothing is found. -/
theorem Dead.parseRecord {pos : ℕ} (h : Dead data pos) : ∃ p, parseRecord data pos = .ok (none, p) ∧ Dead data p := by
  rcases parseRecord_cases data pos with ⟨_, _, _, hcomplete⟩ | ⟨_, _, hcut⟩ | ⟨p, hp, hdead, _⟩
  · exact absurd hcomplete (not_headerAt_complete fun _ _ => h.not_headerAt)
  · exact absurd hcut (not_headerAt_cut fun _ _ => h.not_headerAt)
  · exact ⟨p, hp, hdead⟩

end Records

/-! ## Sections -/

section Sections

variable {data}

theorem Dead.parseRecords {pos : ℕ} (h : Dead data pos) (count : ℕ) :
    ∃ p, parseRecords data count pos = .ok ([], p) ∧ Dead data p := by
  cases count with
  | zero => exact ⟨pos, rfl, h⟩
  | succ count =>
    obtain ⟨p, hp, hdead⟩ := h.parseRecord
    exact ⟨p, by rw [Dissectors.parseRecords, hp]; rfl, hdead⟩

variable (data)

/-- What the reading of a section comes to: all records, or the ones in front of one that is cut or missing. -/
theorem parseRecords_cases (count pos : ℕ) :
    ∃ records next, parseRecords data count pos = .ok (records, next) ∧
      ((records.length = count ∧ Run data count pos next) ∨
        records.length < count ∧ ∃ p, Run data records.length pos p ∧
          (CutAt data p next ∨ Dead data next ∧ ∀ body stop, ¬ HeaderAt data p body stop)) := by
  induction count generalizing pos with
  | zero => exact ⟨[], pos, rfl, .inl ⟨rfl, rfl⟩⟩
  | succ count ih =>
    rcases parseRecord_cases data pos with ⟨r, p, hr, hcomplete⟩ | ⟨body, hr, hcut⟩ | ⟨p, hr, hdead, hnone⟩
    · obtain ⟨records, next, hrecords, hcase⟩ := ih p
      refine ⟨r :: records, next, ?_, ?_⟩
      · rw [parseRecords, hr]
        simp only [bind, Except.bind, hrecords]
        rfl
      · rcases hcase with ⟨hlength, hrun⟩ | ⟨hlength, q, hrun, hcase⟩
        · exact .inl ⟨congrArg (· + 1) hlength, p, hcomplete, hrun⟩
        · exact .inr ⟨Nat.succ_lt_succ hlength, q, ⟨p, hcomplete, hrun⟩, hcase⟩
    · exact ⟨[], body, by rw [parseRecords, hr]; rfl, .inr ⟨Nat.succ_pos _, pos, rfl, .inl hcut⟩⟩
    · exact ⟨[], p, by rw [parseRecords, hr]; rfl, .inr ⟨Nat.succ_pos _, pos, rfl, .inr ⟨hdead, hnone⟩⟩⟩

variable {data}

theorem Run.unique {k : ℕ} {pos next next' : ℕ} (h : Run data k pos next) (h' : Run data k pos next') :
    next = next' := by
  induction k generalizing pos with
  | zero => exact h.symm.trans h'
  | succ k ih =>
    obtain ⟨p, hp, hrest⟩ := h
    obtain ⟨p', hp', hrest'⟩ := h'
    obtain rfl := hp.unique hp'
    exact ih hrest hrest'

/-- In front of the end of a run there is a whole record. -/
theorem Run.complete {k m : ℕ} {pos next p : ℕ} (h : Run data k pos next) (hm : m < k) (hp : Run data m pos p) :
    ∃ q, CompleteAt data p q := by
  induction m generalizing k pos with
  | zero =>
    obtain ⟨k, rfl⟩ := Nat.exists_eq_succ_of_ne_zero (Nat.ne_of_gt hm)
    obtain ⟨q, hq, _⟩ := h
    cases hp
    exact ⟨q, hq⟩
  | succ m ih =>
    obtain ⟨k, rfl⟩ := Nat.exists_eq_succ_of_ne_zero (Nat.ne_of_gt (Nat.zero_lt_of_lt hm))
    obtain ⟨q, hq, hrest⟩ := h
    obtain ⟨q', hq', hrest'⟩ := hp
    obtain rfl := hq.unique hq'
    exact ih hrest (Nat.lt_of_succ_lt_succ hm) hrest'

/-- Sections that are read one behind the other. -/
def parseSections (data : List UInt8) : List ℕ → ℕ → Checked (List (List DnsRecord))
  | [], _ => return []
  | count :: counts, pos => do
    let (records, pos) ← parseRecords data count pos
    return records :: (← parseSections data counts pos)

/-- Behind a short section there is nothing. -/
def Honest : List ℕ → List (List DnsRecord) → Prop
  | count :: counts, records :: sections =>
    (records.length < count → ∀ section' ∈ sections, section' = []) ∧ Honest counts sections
  | _, _ => True

theorem honest_of_empty {counts : List ℕ} {sections : List (List DnsRecord)} (h : ∀ s ∈ sections, s = []) :
    Honest counts sections := by
  induction sections generalizing counts with
  | nil => cases counts <;> trivial
  | cons records sections ih =>
    have hrest := (List.forall_mem_cons.1 h).2
    cases counts with
    | nil => trivial
    | cons count counts => exact ⟨fun _ => hrest, ih hrest⟩

theorem parseSections_cons {counts : List ℕ} {count pos next : ℕ} {records : List DnsRecord}
    (h : parseRecords data count pos = .ok (records, next)) {sections : List (List DnsRecord)} :
    parseSections data (count :: counts) pos = .ok sections ↔
      ∃ rest, parseSections data counts next = .ok rest ∧ records :: rest = sections := by
  rw [parseSections, h]
  simp only [bind, Except.bind]
  cases parseSections data counts next with
  | ok rest => simp [pure, Except.pure]
  | error why => simp

theorem Dead.parseSections {counts : List ℕ} {pos : ℕ} {sections : List (List DnsRecord)} (hdead : Dead data pos)
    (h : parseSections data counts pos = .ok sections) : ∀ s ∈ sections, s = [] := by
  induction counts generalizing pos sections with
  | nil =>
    cases h
    exact nofun
  | cons count counts ih =>
    obtain ⟨p, hp, hdead'⟩ := hdead.parseRecords count
    obtain ⟨rest, hrest, rfl⟩ := (parseSections_cons hp).1 h
    exact List.forall_mem_cons.2 ⟨rfl, ih hdead' hrest⟩

/-- Behind cut data the sections are empty unless they find a record there. -/
theorem empty_iff_not_reread {counts : List ℕ} {pos : ℕ} {sections : List (List DnsRecord)}
    (h : parseSections data counts pos = .ok sections) : (∀ s ∈ sections, s = []) ↔ ¬ Reread data counts pos := by
  induction counts generalizing pos sections with
  | nil =>
    cases h
    exact iff_of_true nofun nofun
  | cons count counts ih =>
    cases count with
    | zero =>
      obtain ⟨rest, hrest, rfl⟩ := (parseSections_cons (show parseRecords data 0 pos = .ok ([], pos) from rfl)).1 h
      rw [List.forall_mem_cons, Reread, ← ih hrest]
      exact and_iff_right rfl
    | succ count =>
      obtain ⟨records, next, hrecords, hcase⟩ := parseRecords_cases data (count + 1) pos
      obtain ⟨rest, hrest, rfl⟩ := (parseSections_cons hrecords).1 h
      rw [List.forall_mem_cons, Reread, not_or]
      have hfound : ∀ {k p : ℕ}, Run data (k + 1) pos p → ∃ q, CompleteAt data pos q := fun hrun =>
        ⟨_, hrun.choose_spec.1⟩
      rcases hcase with ⟨hlength, hrun⟩ | ⟨hlength, p, hrun, hcase⟩
      · exact iff_of_false (fun h => by simp [h.1] at hlength) fun h => h.1 (hfound hrun)
      · cases records with
        | cons r records =>
          exact iff_of_false (fun h => by cases h.1) fun h => h.1 (hfound hrun)
        | nil =>
          cases hrun
          rcases hcase with hcut | ⟨hdead, hnone⟩
          · rw [ih hrest]
            refine ⟨fun h => ⟨fun ⟨_, hq⟩ => hq.not_cutAt hcut, ?_⟩, fun h => ⟨rfl, fun hreread => h.2 ⟨_, hcut, hreread⟩⟩⟩
            rintro ⟨body, hbody, hreread⟩
            exact h.2 (hcut.unique hbody ▸ hreread)
          · refine iff_of_true ⟨rfl, hdead.parseSections hrest⟩ ⟨?_, ?_⟩
            · exact fun ⟨_, hq⟩ => not_headerAt_complete hnone hq
            · exact fun ⟨_, hq, _⟩ => not_headerAt_cut hnone hq

/-- **Nothing stands behind a short section** unless its cut data are read again. -/
theorem honest_iff {counts : List ℕ} {pos : ℕ} {sections : List (List DnsRecord)}
    (h : parseSections data counts pos = .ok sections) : Honest counts sections ↔ ¬ Fabricates data counts pos := by
  induction counts generalizing pos sections with
  | nil => exact iff_of_true (by cases sections <;> trivial) nofun
  | cons count counts ih =>
    obtain ⟨records, next, hrecords, hcase⟩ := parseRecords_cases data count pos
    obtain ⟨rest, hrest, rfl⟩ := (parseSections_cons hrecords).1 h
    rw [Honest, Fabricates, not_or]
    rcases hcase with ⟨hlength, hrun⟩ | ⟨hlength, p, hrun, hcase⟩
    · -- A whole section: what it means for the others stays.
      rw [ih hrest]
      constructor
      · rintro ⟨_, hnot⟩
        refine ⟨fun ⟨q, hq, hfab⟩ => hnot (hrun.unique hq ▸ hfab), ?_⟩
        rintro ⟨k, hk, q, body, hq, hcut, _⟩
        obtain ⟨_, hcomplete⟩ := hrun.complete hk hq
        exact hcomplete.not_cutAt hcut
      · exact fun h => ⟨fun hlt => absurd hlength (Nat.ne_of_lt hlt), fun hfab => h.1 ⟨next, hrun, hfab⟩⟩
    · have hno : ¬ ∃ q, Run data count pos q ∧ Fabricates data counts q := by
        rintro ⟨q, hq, _⟩
        obtain ⟨_, hcomplete⟩ := hq.complete hlength hrun
        rcases hcase with hcut | ⟨_, hnone⟩
        · exact hcomplete.not_cutAt hcut
        · exact not_headerAt_complete hnone hcomplete
      have hsame : ∀ {k q body : ℕ}, Run data k pos q → CutAt data q body → k = records.length := by
        intro k q body hq hcut
        rcases Nat.lt_trichotomy k records.length with hlt | heq | hgt
        · obtain ⟨_, hcomplete⟩ := hrun.complete hlt hq
          exact (hcomplete.not_cutAt hcut).elim
        · exact heq
        · obtain ⟨_, hcomplete⟩ := hq.complete hgt hrun
          rcases hcase with hcut | ⟨_, hnone⟩
          · exact (hcomplete.not_cutAt hcut).elim
          · exact (not_headerAt_complete hnone hcomplete).elim
      have hempty : (records.length < count → ∀ s ∈ rest, s = []) ∧ Honest counts rest ↔ ∀ s ∈ rest, s = [] :=
        ⟨fun h => h.1 hlength, fun h => ⟨fun _ => h, honest_of_empty h⟩⟩
      rw [hempty]
      rcases hcase with hcut | ⟨hdead, hnone⟩
      · rw [empty_iff_not_reread hrest]
        constructor
        · intro hnot
          refine ⟨hno, ?_⟩
          rintro ⟨k, _, q, body, hq, hcut', hreread⟩
          obtain rfl := hsame hq hcut'
          obtain rfl := hrun.unique hq
          exact hnot (hcut.unique hcut' ▸ hreread)
        · exact fun h hreread => h.2 ⟨_, hlength, p, next, hrun, hcut, hreread⟩
      · refine iff_of_true (hdead.parseSections hrest) ⟨hno, ?_⟩
        rintro ⟨k, _, q, body, hq, hcut, _⟩
        obtain rfl := hsame hq hcut
        obtain rfl := hrun.unique hq
        exact not_headerAt_cut hnone hcut

end Sections

/-! ## Packets -/

/-- What the reading of the questions comes to: all of them, or none that the packet has room for, or no packet. -/
theorem parseQuestions_cases (count pos : ℕ) :
    (parseQuestions data count pos = .error .rejected ∧ ∀ q, ¬ QuestionRun data count pos q) ∨
      ∃ questions next, parseQuestions data count pos = .ok (questions, next) ∧
        ((questions.length = count ∧ ∀ q, QuestionRun data count pos q ↔ next = q) ∨
          questions.length < count ∧ Dead data next ∧ ∀ q, ¬ QuestionRun data count pos q) := by
  induction count generalizing pos with
  | zero => exact .inr ⟨[], pos, rfl, .inl ⟨rfl, fun _ => Iff.rfl⟩⟩
  | succ count ih =>
    cases hname : parseName data pos with
    | error why =>
      have hnone : ∀ q, ¬ QuestionRun data (count + 1) pos q := fun q hq => by
        obtain ⟨_, _, hname', _⟩ := hq
        rw [hname] at hname'
        cases hname'
      cases why with
      | panicked => exact absurd hname (parseName_ensures data pos).ne_panicked
      | rejected => exact .inl ⟨by rw [parseQuestions, hname]; rfl, hnone⟩
    | ok r =>
      obtain ⟨name, p⟩ := r
      have hrun : ∀ q, QuestionRun data (count + 1) pos q ↔ p + 4 ≤ data.length ∧ QuestionRun data count (p + 4) q := by
        intro q
        constructor
        · rintro ⟨_, _, hname', hq⟩
          obtain ⟨rfl, rfl⟩ := Prod.mk.inj (Except.ok.inj (hname.symm.trans hname'))
          exact hq
        · exact fun hq => ⟨name, p, hname, hq⟩
      simp only [hrun]
      rw [parseQuestions, hname]
      simp only [bind, Except.bind]
      by_cases hroom : data.length < p + 4
      · rw [if_pos hroom]
        refine .inr ⟨[], p, rfl, .inr ⟨Nat.succ_pos _, .inr (by omega), fun q hq => ?_⟩⟩
        exact absurd hq.1 (by omega)
      · rw [if_neg hroom]
        obtain ⟨qtype, hqtype, _⟩ := yields_u16At (show p + 2 ≤ data.length by omega)
        obtain ⟨qclass, hqclass, _⟩ := yields_u16At (show p + 2 + 2 ≤ data.length by omega)
        have hle : p + 4 ≤ data.length := Nat.le_of_not_lt hroom
        simp only [hqtype, hqclass]
        rcases ih (p + 4) with ⟨hrejected, hnone⟩ | ⟨questions, next, hquestions, hcase⟩
        · exact .inl ⟨by rw [hrejected], fun q hq => hnone q hq.2⟩
        · refine .inr ⟨_, next, by rw [hquestions]; rfl, ?_⟩
          rcases hcase with ⟨hlength, hall⟩ | ⟨hlength, hdead, hnone⟩
          · exact .inl ⟨congrArg (· + 1) hlength, fun q => by rw [hall, and_iff_right hle]⟩
          · exact .inr ⟨Nat.succ_lt_succ hlength, hdead, fun q hq => hnone q hq.2⟩

/-- A section that is shorter than its count in the header has nothing behind it. -/
def Faithful : Prop :=
  ∀ packet qdcount ancount nscount, parseDnsPacket data = .ok packet → u16At data 4 = .ok qdcount →
    u16At data 6 = .ok ancount → u16At data 8 = .ok nscount →
      (packet.questions.length < qdcount.toNat →
        packet.answers = [] ∧ packet.authority = [] ∧ packet.additional = []) ∧
      (packet.answers.length < ancount.toNat → packet.authority = [] ∧ packet.additional = []) ∧
      (packet.authority.length < nscount.toNat → packet.additional = [])

/-- Behind all its questions, the sections of the packet find records in cut data. -/
def Damaged : Prop :=
  ∃ qdcount ancount nscount arcount pos, u16At data 4 = .ok qdcount ∧ u16At data 6 = .ok ancount ∧
    u16At data 8 = .ok nscount ∧ u16At data 10 = .ok arcount ∧ QuestionRun data qdcount.toNat 12 pos ∧
      Fabricates data [ancount.toNat, nscount.toNat, arcount.toNat] pos

/-- **When no records are made up**: a packet has nothing behind a short section exactly if it is not damaged so that
cut data are read as records. -/
theorem sections_faithful_iff : Faithful data ↔ ¬ Damaged data := by
  by_cases hlength : data.length < 12
  · refine iff_of_true (fun packet _ _ _ h => ?_) ?_
    · rw [parseDnsPacket, if_pos hlength] at h
      cases h
    · rintro ⟨_, _, _, arcount, _, _, _, _, har, _⟩
      obtain ⟨_, low, _, hlow, _⟩ := u16At_eq_ok.1 har
      have := (List.getElem?_eq_some_iff.1 hlow).1
      omega
  obtain ⟨transactionId, hid, _⟩ := yields_u16At (show 0 + 2 ≤ data.length by omega)
  obtain ⟨flags, hflags, _⟩ := yields_u16At (show 2 + 2 ≤ data.length by omega)
  obtain ⟨qdcount, hqd, _⟩ := yields_u16At (show 4 + 2 ≤ data.length by omega)
  obtain ⟨ancount, han, _⟩ := yields_u16At (show 6 + 2 ≤ data.length by omega)
  obtain ⟨nscount, hns, _⟩ := yields_u16At (show 8 + 2 ≤ data.length by omega)
  obtain ⟨arcount, har, _⟩ := yields_u16At (show 10 + 2 ≤ data.length by omega)
  have hdamaged : Damaged data ↔ ∃ pos, QuestionRun data qdcount.toNat 12 pos ∧
      Fabricates data [ancount.toNat, nscount.toNat, arcount.toNat] pos := by
    constructor
    · rintro ⟨_, _, _, _, pos, hqd', han', hns', har', h⟩
      obtain rfl := Except.ok.inj (hqd.symm.trans hqd')
      obtain rfl := Except.ok.inj (han.symm.trans han')
      obtain rfl := Except.ok.inj (hns.symm.trans hns')
      obtain rfl := Except.ok.inj (har.symm.trans har')
      exact ⟨pos, h⟩
    · rintro ⟨pos, h⟩
      exact ⟨qdcount, ancount, nscount, arcount, pos, hqd, han, hns, har, h⟩
  rw [hdamaged]
  rcases parseQuestions_cases data qdcount.toNat 12 with ⟨hrejected, hnone⟩ | ⟨questions, pos, hquestions, hcase⟩
  · refine iff_of_true (fun packet _ _ _ h => ?_) fun ⟨pos, hrun, _⟩ => hnone pos hrun
    rw [parseDnsPacket, if_neg hlength, hid, hflags, hqd, han, hns, har] at h
    simp only [bind, Except.bind, hrejected] at h
    cases h
  · obtain ⟨⟨answers, p⟩, hanswers, _⟩ := parseRecords_yields data ancount.toNat pos
    obtain ⟨⟨authority, q⟩, hauthority, _⟩ := parseRecords_yields data nscount.toNat p
    obtain ⟨⟨additional, r⟩, hadditional, _⟩ := parseRecords_yields data arcount.toNat q
    have hsections : parseSections data [ancount.toNat, nscount.toNat, arcount.toNat] pos =
        .ok [answers, authority, additional] := by
      simp only [parseSections, hanswers, hauthority, hadditional, bind, Except.bind, pure, Except.pure]
    have hparse : ∃ packet, parseDnsPacket data = .ok packet ∧ packet.questions = questions ∧
        packet.answers = answers ∧ packet.authority = authority ∧ packet.additional = additional := by
      rw [parseDnsPacket, if_neg hlength, hid, hflags, hqd, han, hns, har]
      simp only [bind, Except.bind, hquestions, hanswers, hauthority, hadditional]
      exact ⟨_, rfl, rfl, rfl, rfl, rfl⟩
    obtain ⟨packet, hpacket, hpq, hpa, hpn, hpr⟩ := hparse
    have hfaithful : Faithful data ↔
        (questions.length < qdcount.toNat → answers = [] ∧ authority = [] ∧ additional = []) ∧
          Honest [ancount.toNat, nscount.toNat, arcount.toNat] [answers, authority, additional] := by
      have hhonest : Honest [ancount.toNat, nscount.toNat, arcount.toNat] [answers, authority, additional] ↔
          (answers.length < ancount.toNat → authority = [] ∧ additional = []) ∧
            (authority.length < nscount.toNat → additional = []) := by
        simp [Honest]
      rw [hhonest, ← hpq, ← hpa, ← hpn, ← hpr]
      constructor
      · exact fun h => h packet qdcount ancount nscount hpacket hqd han hns
      · intro h packet' qdcount' ancount' nscount' hpacket' hqd' han' hns'
        obtain rfl := Except.ok.inj (hpacket.symm.trans hpacket')
        obtain rfl := Except.ok.inj (hqd.symm.trans hqd')
        obtain rfl := Except.ok.inj (han.symm.trans han')
        obtain rfl := Except.ok.inj (hns.symm.trans hns')
        exact h
    rw [hfaithful, honest_iff hsections]
    rcases hcase with ⟨hall, hrun⟩ | ⟨_, hdead, hnone⟩
    · simp only [hrun, exists_eq_left']
      exact and_iff_right fun hshort => absurd hall (Nat.ne_of_lt hshort)
    · have hempty := hdead.parseSections hsections
      refine iff_of_true ⟨fun _ => ?_, ?_⟩ fun ⟨q, hq, _⟩ => hnone q hq
      · simpa using hempty
      · exact (honest_iff hsections).1 (honest_of_empty hempty)

/-! ## A record in the data of another -/

/-- One answer, whose data run past the end, and in them the record of an address. -/
def nestedBytes : List UInt8 :=
  [0, 1, 0x80, 0, 0, 0, 0, 1, 0, 1, 0, 0] ++ [0, 0, 10, 0, 1, 0, 0, 0, 0, 0xff, 0xff] ++
    [0, 0, 1, 0, 1, 0, 0, 0, 60, 0, 4, 10, 0, 0, 1]

theorem parseName_root {pos : ℕ} (h : At data pos [0]) : parseName data pos = .ok ([], pos + 1) := by
  have hle := h.le_length
  rw [List.length_singleton] at hle
  rw [parseName, parseNameLoop, dif_neg (by omega), dif_neg (by omega), byteAt_of_at h]
  rfl

/-- The record of the address 10.0.0.1, of the root. -/
def nestedRecord : DnsRecord := ⟨[], 1, 1, 60, .a ⟨[10, 0, 0, 1], rfl⟩⟩

/-- The answer is missing, and the authority section has the address. -/
theorem nestedBytes_fabricated :
    parseDnsPacket nestedBytes = .ok {
        transactionId := 1, flags := 0x8000, isResponse := true, opcode := 0, rcode := 0, questions := [], answers := []
        authority := [nestedRecord], additional := [] } ∧
      u16At nestedBytes 6 = .ok 1 := by
  have hname : parseName nestedBytes 12 = .ok ([], 13) := parseName_root nestedBytes (by decide)
  have hinner : parseName nestedBytes 23 = .ok ([], 24) := parseName_root nestedBytes (by decide)
  have hanswer : parseRecord nestedBytes 12 = .ok (none, 23) := by
    rw [parseRecord, hname]
    rfl
  have haddress : parseRecord nestedBytes 23 = .ok (some nestedRecord, 38) := by
    rw [parseRecord, hinner]
    rfl
  have hquestions : parseQuestions nestedBytes (0 : UInt16).toNat 12 = .ok ([], 12) := rfl
  have hanswers : parseRecords nestedBytes (1 : UInt16).toNat 12 = .ok ([], 23) := by
    show parseRecords nestedBytes 1 12 = _
    rw [parseRecords, hanswer]
    rfl
  have hauthority : parseRecords nestedBytes (1 : UInt16).toNat 23 = .ok ([nestedRecord], 38) := by
    show parseRecords nestedBytes 1 23 = _
    rw [parseRecords, haddress]
    rfl
  have hadditional : parseRecords nestedBytes (0 : UInt16).toNat 38 = .ok ([], 38) := rfl
  have hcounts : u16At nestedBytes 4 = .ok 0 ∧ u16At nestedBytes 6 = .ok 1 ∧ u16At nestedBytes 8 = .ok 1 ∧
      u16At nestedBytes 10 = .ok 0 := ⟨rfl, rfl, rfl, rfl⟩
  have hid : u16At nestedBytes 0 = .ok 1 ∧ u16At nestedBytes 2 = .ok 0x8000 := ⟨rfl, rfl⟩
  refine ⟨?_, hcounts.2.1⟩
  rw [parseDnsPacket, if_neg (by decide), hid.1, hid.2, hcounts.1, hcounts.2.1, hcounts.2.2.1, hcounts.2.2.2]
  simp only [bind, Except.bind, hquestions, hanswers, hauthority, hadditional]
  rfl

end ThorFirewall.Dissectors
