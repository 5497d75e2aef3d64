import QdkEc.Paulimer.PauliText

/-!
# The grammar of Pauli texts

This module states which texts denote which Paulis, and proves that the parser
accepts exactly these texts and returns the operators that they denote.  A text
is a phase followed by one letter for each qubit, or by letters with indices.
-/

namespace QdkEc

open PhasedPauli List PauliBits Option PauliUnitary Decimal
open scoped Memberwise

def isPauliLetter (c : Char) : Bool :=
  ['X', 'x', 'Y', 'y', 'Z', 'z'].contains c

/-- The characters that sparse texts ignore. -/
def isSeparator (c : Char) : Bool :=
  ['{', '}', ' ', '_'].contains c

def isDenseCharacter (c : Char) : Bool :=
  isPauliLetter c || ['I', ' '].contains c

/-- The operator of a letter on one qubit. -/
def pauliFactor (letter : Char) (qubit : ℕ) : PhasedPauli :=
  if letter = 'X' then X qubit
  else if letter = 'Y' then iPow 1 * X qubit * Z qubit
  else if letter = 'Z' then Z qubit
  else 1

/-- A sequence of letters, each followed by the digits of its index. -/
inductive SparseFactors : List Char → List (Char × ℕ) → Prop
  | nil : SparseFactors [] []
  | cons
      {letter : Char} {numeral rest : List Char} {ds : List ℕ} {entries : List (Char × ℕ)}
      (hletter : isPauliLetter letter = true)
      (hnonempty : ds ≠ [])
      (hdigits : numeral.map getDigit = ds.map some)
      (hrest : SparseFactors rest entries) :
      SparseFactors (letter :: (numeral ++ rest)) ((letter.toUpper, Decimal.value ds) :: entries)

/-- The operator of letters with indices, later ones on the left. -/
def sparseOperator (entries : List (Char × ℕ)) : PhasedPauli :=
  (entries.reverse.map fun entry => pauliFactor entry.1 entry.2).prod

/-- The operator of one letter for each qubit from some qubit on. -/
def denseOperator : List Char → ℕ → PhasedPauli
  | [], _ => 1
  | c :: cs, qubit => pauliFactor c.toUpper qubit * denseOperator cs (qubit + 1)

/-- A text without its phase denotes an operator, with indices below a bound. -/
inductive PauliBody (bound : ℕ) :
    List Char → PhasedPauli → Prop
  | dense
      {body : List Char}
      (hbody : ∀ c ∈ body, isDenseCharacter c = true) :
      PauliBody bound body (denseOperator body 0)
  | sparse
      {body : List Char} {entries : List (Char × ℕ)}
      (hmark : sparseMarks.contains (body.getD 1 ' ') = true)
      (hfactors : SparseFactors (body.filter fun c => !isSeparator c) entries)
      (hbound : ∀ entry ∈ entries, entry.2 < bound) :
      PauliBody bound body (sparseOperator entries)

/-- A text denotes an operator, with indices below a bound. -/
def PauliSentence (bound : ℕ) (text : List Char) (P : PhasedPauli) : Prop :=
  ∃ sign phaseExp body Q, (sign, phaseExp) ∈ ([], 0) :: phasePrefixes ∧
    trim text = sign ++ body ∧ PauliBody bound body Q ∧
      P = iPow (PauliUnitary.phaseResidue phaseExp) * Q

variable {c : Char}

theorem mem_pauliLetters : isPauliLetter c = true ↔ c ∈ ['X', 'x', 'Y', 'y', 'Z', 'z'] := by
  rw [isPauliLetter, contains_iff_mem]

theorem getDigit_of_isPauliLetter (h : isPauliLetter c = true) : getDigit c = none := by
  rw [mem_pauliLetters] at h
  revert c
  decide

theorem toUpper_of_isPauliLetter (h : isPauliLetter c = true) : c.toUpper ∈ ['X', 'Y', 'Z'] := by
  rw [mem_pauliLetters] at h
  revert c
  decide

theorem getDigit_of_isSeparator (h : isSeparator c = true) : getDigit c = none := by
  rw [isSeparator, contains_iff_mem] at h
  revert c
  decide

theorem isPauliLetter_of_isSeparator (h : isSeparator c = true) : isPauliLetter c = false := by
  rw [isSeparator, contains_iff_mem] at h
  revert c
  decide

theorem denseCharacter_cases (h : isDenseCharacter c = true) :
    c ∈ ['X', 'x', 'Z', 'z', 'Y', 'y', 'I', ' '] := by
  simp only [isDenseCharacter, isPauliLetter, Bool.or_eq_true, contains_iff_mem, mem_cons,
    not_mem_nil, or_false] at h ⊢
  tauto

/-- After a letter and some digits, the rest of a text gives entries. -/
inductive Continues : Char → List ℕ → List Char → List (Char × ℕ) → Prop
  | finish
      {letter : Char} {ds : List ℕ}
      (hnonempty : ds ≠ []) :
      Continues letter ds [] [(letter, Decimal.value ds)]
  | digit
      {letter c : Char} {ds : List ℕ} {d : ℕ} {rest : List Char} {entries : List (Char × ℕ)}
      (hdigit : getDigit c = some d)
      (hrest : Continues letter (ds ++ [d]) rest entries) :
      Continues letter ds (c :: rest) entries
  | letter
      {letter c : Char} {ds : List ℕ} {rest : List Char} {entries : List (Char × ℕ)}
      (hnonempty : ds ≠ [])
      (hletter : isPauliLetter c = true)
      (hrest : Continues c.toUpper [] rest entries) :
      Continues letter ds (c :: rest) ((letter, Decimal.value ds) :: entries)

variable {entries : List (Char × ℕ)} {text : List Char} {letter : Char} {ds : List ℕ}

namespace Continues

theorem exists_head (h : Continues letter ds text entries) :
    ∃ index rest, entries = (letter, index) :: rest ∧ value ds ≤ index := by
  induction h with
  | finish hnonempty => exact ⟨_, _, rfl, le_rfl⟩
  | digit hdigit hrest ih =>
    obtain ⟨index, rest, rfl, hle⟩ := ih
    rw [value_concat] at hle
    exact ⟨index, rest, rfl, by omega⟩
  | letter hnonempty hletter hrest ih => exact ⟨_, _, rfl, le_rfl⟩

theorem of_digits {ds es : List ℕ} {numeral rest : List Char}
    (hdigits : numeral.map getDigit = es.map some) (h : Continues letter (ds ++ es) rest entries) :
    Continues letter ds (numeral ++ rest) entries := by
  induction es generalizing ds numeral with
  | nil =>
    obtain rfl := map_eq_nil_iff.mp hdigits
    simpa using h
  | cons d es ih =>
    obtain ⟨c, cs, rfl, hc, hcs⟩ := map_eq_cons_iff.mp hdigits
    refine .digit hc (ih hcs ?_)
    rwa [append_assoc, singleton_append]

variable {rest : List Char}

theorem of_factors (hrest : SparseFactors rest entries) {ds es : List ℕ} {numeral : List Char}
    (hdigits : numeral.map getDigit = es.map some) (hnonempty : ds ++ es ≠ []) :
    Continues letter ds (numeral ++ rest) ((letter, value (ds ++ es)) :: entries) := by
  refine of_digits hdigits ?_
  clear hdigits
  induction hrest generalizing letter ds es with
  | nil => exact .finish hnonempty
  | cons hletter hne hdigits hrest ih =>
    exact .letter hnonempty hletter (of_digits hdigits (ih hne))

theorem exists_factors (h : Continues letter ds text entries) :
    ∃ numeral es rest entries', text = numeral ++ rest ∧ numeral.map getDigit = es.map some ∧
      ds ++ es ≠ [] ∧ SparseFactors rest entries' ∧
        entries = (letter, value (ds ++ es)) :: entries' := by
  induction h with
  | @finish letter ds hnonempty =>
    exact ⟨[], [], [], [], rfl, rfl, by simpa using hnonempty, .nil, by simp⟩
  | @digit letter c ds d rest entries hdigit hrest ih =>
    obtain ⟨numeral, es, rest, entries', rfl, hdigits, hnonempty, hfactors, rfl⟩ := ih
    refine ⟨c :: numeral, d :: es, rest, entries', rfl, ?_, by simp, hfactors, by simp⟩
    rw [map_cons, map_cons, hdigit, hdigits]
  | @letter letter c ds rest entries hnonempty hletter hrest ih =>
    obtain ⟨numeral, es, rest, entries', rfl, hdigits, hnonempty', hfactors, rfl⟩ := ih
    exact ⟨[], [], _, _, rfl, rfl, by simpa using hnonempty,
      .cons hletter hnonempty' hdigits hfactors, by simp⟩

theorem cons_digit_iff {d : ℕ} (hc : getDigit c = some d) :
    Continues letter ds (c :: rest) entries ↔ Continues letter (ds ++ [d]) rest entries := by
  refine ⟨fun h => ?_, .digit hc⟩
  cases h with
  | digit hdigit hrest =>
    obtain rfl := some_inj.mp (hc.symm.trans hdigit)
    exact hrest
  | letter _ hletter _ =>
    rw [getDigit_of_isPauliLetter hletter] at hc
    cases hc

theorem cons_letter_iff (hc : isPauliLetter c = true) : Continues letter ds (c :: rest) entries ↔
      ds ≠ [] ∧ ∃ after, entries = (letter, value ds) :: after ∧
        Continues c.toUpper [] rest after := by
  constructor
  · intro h
    cases h with
    | digit hdigit _ =>
      rw [getDigit_of_isPauliLetter hc] at hdigit
      cases hdigit
    | letter hnonempty _ hrest => exact ⟨hnonempty, _, rfl, hrest⟩
  · rintro ⟨hnonempty, after, rfl, hrest⟩
    exact .letter hnonempty hc hrest

theorem not_cons_other (hdigit : getDigit c = none) (hletter : isPauliLetter c = false) :
    ¬ Continues letter ds (c :: rest) entries := by
  intro h
  cases h with
  | digit hdigit' _ =>
    rw [hdigit] at hdigit'
    cases hdigit'
  | letter _ hletter' _ =>
    rw [hletter] at hletter'
    cases hletter'

end Continues

theorem sparseFactors_cons_iff : SparseFactors (c :: text) entries ↔
      isPauliLetter c = true ∧ Continues c.toUpper [] text entries := by
  constructor
  · intro h
    cases h with
    | cons hletter hnonempty hdigits hrest => exact ⟨hletter, .of_factors hrest hdigits hnonempty⟩
  · rintro ⟨hletter, h⟩
    obtain ⟨numeral, es, rest, entries', rfl, hdigits, hnonempty, hfactors, rfl⟩ := h.exists_factors
    exact .cons hletter hnonempty hdigits hfactors

namespace SparseScan

/-- The parser after a letter and some digits. -/
def pending (entries : List (Char × ℕ)) (letter : Char) (ds : List ℕ) : SparseScan where
  entries := entries
  pauliChar := some letter
  index := Decimal.value ds
  hasDigits := !ds.isEmpty

theorem read_separator (hc : isSeparator c = true) (s : SparseScan) : s.read c = some s := by
  have hletter := isPauliLetter_of_isSeparator hc
  rw [isPauliLetter] at hletter
  rw [isSeparator] at hc
  rw [read, getDigit_of_isSeparator (by rwa [isSeparator])]
  simp only [hletter, hc, Bool.false_eq_true, if_false, if_true]

theorem read_pending_digit {d : ℕ} (hc : getDigit c = some d) (entries : List (Char × ℕ))
    (letter : Char) (ds : List ℕ) : (pending entries letter ds).read c =
      if value (ds ++ [d]) < indexBound then some (pending entries letter (ds ++ [d]))
      else none := by
  rw [read, hc, value_concat]
  simp only [pending, isNone_some, Bool.false_eq_true, if_false, pushDigit_eq]
  split_ifs with hlt
  · simp [value_concat]
  · rfl

theorem finish_pending (entries : List (Char × ℕ)) (letter : Char) (ds : List ℕ) :
    (pending entries letter ds).finish =
      if ds = [] then none else some (entries ++ [(letter, value ds)]) := by
  cases ds <;> rfl

theorem read_letter (hc : isPauliLetter c = true) (s : SparseScan) :
    s.read c = s.finish.map fun entries => pending entries c.toUpper [] := by
  rw [read, getDigit_of_isPauliLetter hc]
  rw [isPauliLetter] at hc
  simp only [hc, if_true]
  cases s.finish <;> rfl

theorem read_other (hdigit : getDigit c = none) (hletter : isPauliLetter c = false)
    (hseparator : isSeparator c = false) (s : SparseScan) : s.read c = none := by
  rw [isPauliLetter] at hletter
  rw [isSeparator] at hseparator
  rw [read, hdigit]
  simp only [hletter, hseparator, Bool.false_eq_true, if_false]

def readAll (s : SparseScan) (text : List Char) : Option (List (Char × ℕ)) :=
  (text.foldlM read s).bind finish

theorem readAll_cons (s : SparseScan) (c : Char) (text : List Char) :
    s.readAll (c :: text) = (s.read c).bind fun s' => s'.readAll text := by
  rw [readAll, foldlM_cons]
  cases s.read c <;> rfl

theorem readAll_pending_iff {before entries : List (Char × ℕ)} (hlt : value ds < indexBound) :
    (pending before letter ds).readAll text = some entries ↔
      ∃ after, Continues letter ds (text.filter fun c => !isSeparator c) after ∧
        (∀ entry ∈ after, entry.2 < indexBound) ∧ entries = before ++ after := by
  induction text generalizing before letter ds with
  | nil =>
    change (pending before letter ds).finish = some entries ↔ _
    rw [finish_pending]
    constructor
    · intro h
      split_ifs at h with hds
      obtain rfl := some_inj.mp h
      exact ⟨_, .finish hds, by simpa using hlt, rfl⟩
    · rintro ⟨after, h, -, rfl⟩
      cases h with
      | finish hds => rw [if_neg hds]
  | cons c text ih =>
    rw [readAll_cons]
    cases hseparator : isSeparator c with
    | true =>
      rw [read_separator hseparator, bind_some, ih hlt,
        filter_cons_of_neg (by simp [hseparator])]
    | false =>
      rw [filter_cons_of_pos (by simp [hseparator])]
      cases hdigit : getDigit c with
      | some d =>
        rw [read_pending_digit hdigit]
        simp only [Continues.cons_digit_iff hdigit]
        split_ifs with hle
        · rw [bind_some, ih hle]
        · -- a number beyond the bound stays beyond it
          refine iff_of_false (by simp) ?_
          rintro ⟨after, h, hbound, -⟩
          obtain ⟨index, rest, rfl, hindex⟩ := h.exists_head
          exact hle (hindex.trans_lt (hbound _ (mem_cons_self ..)))
      | none =>
        cases hletter : isPauliLetter c with
        | true =>
          rw [read_letter hletter, finish_pending]
          simp only [Continues.cons_letter_iff hletter]
          split_ifs with hds
          · exact iff_of_false (by simp) fun ⟨_, ⟨hnonempty, _⟩, _⟩ => hnonempty hds
          · rw [map_some, bind_some, ih (by decide)]
            constructor
            · rintro ⟨after, h, hbound, rfl⟩
              refine ⟨_, ⟨hds, after, rfl, h⟩, ?_, by simp⟩
              rintro entry (_ | ⟨_, hmem⟩)
              · exact hlt
              · exact hbound entry hmem
            · rintro ⟨_, ⟨-, after, rfl, h⟩, hbound, rfl⟩
              exact ⟨after, h, fun entry hmem => hbound entry (mem_cons_of_mem _ hmem),
                by simp⟩
        | false =>
          rw [read_other hdigit hletter hseparator, bind_none]
          refine iff_of_false (by simp) ?_
          rintro ⟨after, h, -⟩
          exact Continues.not_cons_other hdigit hletter h

theorem readAll_start_iff : start.readAll text = some entries ↔
      SparseFactors (text.filter fun c => !isSeparator c) entries ∧
        ∀ entry ∈ entries, entry.2 < indexBound := by
  induction text with
  | nil =>
    constructor
    · intro h
      obtain rfl := some_inj.mp h
      exact ⟨.nil, by simp [start]⟩
    · rintro ⟨h, -⟩
      cases h with
      | nil => rfl
  | cons c text ih =>
    rw [readAll_cons]
    cases hseparator : isSeparator c with
    | true =>
      rw [read_separator hseparator, bind_some, ih, filter_cons_of_neg (by simp [hseparator])]
    | false =>
      rw [filter_cons_of_pos (by simp [hseparator]), sparseFactors_cons_iff]
      cases hletter : isPauliLetter c with
      | true =>
        rw [read_letter hletter]
        refine (readAll_pending_iff (by decide)).trans ?_
        simp only [start, nil_append, true_and]
        constructor
        · rintro ⟨after, h, hbound, rfl⟩
          exact ⟨h, hbound⟩
        · rintro ⟨h, hbound⟩
          exact ⟨entries, h, hbound, rfl⟩
      | false =>
        have hread : start.read c = none := by
          cases hdigit : getDigit c with
          | some d =>
            rw [read, hdigit]
            rfl
          | none => exact read_other hdigit hletter hseparator start
        simp [hread]

end SparseScan

variable {body : List Char}

theorem scanEntries_eq_some_iff : scanEntries body = some entries ↔
      SparseFactors (body.filter fun c => !isSeparator c) entries ∧
        ∀ entry ∈ entries, entry.2 < indexBound :=
  SparseScan.readAll_start_iff

variable {entry : Char × ℕ}

theorem SparseFactors.letter_mem (h : SparseFactors text entries) (hentry : entry ∈ entries) :
    entry.1 ∈ ['X', 'Y', 'Z'] := by
  induction h with
  | nil => cases hentry
  | cons hletter _ _ _ ih =>
    rcases mem_cons.mp hentry with rfl | hmem
    · exact toUpper_of_isPauliLetter hletter
    · exact ih hmem

variable {phaseExp : UInt8}

namespace StoredPauli

variable {k : BitsKind} {p : StoredPauli k} {i : ℕ}

/-- Both storages of a Pauli have an index. -/
def Reaches (p : StoredPauli k) (i : ℕ) : Prop :=
  PauliBits.Reaches p.xBits.capacity i ∧ PauliBits.Reaches p.zBits.capacity i

/-- A step returns a Pauli over the same storage, which denotes an operator. -/
def Yields (step : Option (StoredPauli k)) (capacity : PauliCapacity) (P : PhasedPauli) : Prop :=
  ∃ q, step = some q ∧ q.capacity = capacity ∧ q.toPhased = P

theorem reaches_congr {q : StoredPauli k} (h : q.capacity = p.capacity) :
    q.Reaches i ↔ p.Reaches i := by
  have hx : q.xBits.capacity = p.xBits.capacity := congrArg PauliCapacity.x h
  have hz : q.zBits.capacity = p.zBits.capacity := congrArg PauliCapacity.z h
  rw [Reaches, Reaches, hx, hz]

theorem mulAssignLeftX_yields (h : p.Reaches i) :
    Yields (p.mulAssignLeftX i) p.capacity (X i * p.toPhased) := by
  obtain ⟨s, hs, hbits, hcapacity⟩ := exists_negateIndex h.1
  refine ⟨{ p with xBits := s }, by simp [mulAssignLeftX, hs], by simp [capacity, hcapacity], ?_⟩
  ext1
  · simp [toPhased, toPauliUnitary]
  · simp [toPhased, toPauliUnitary, hbits, add_comm]
  · simp [toPhased, toPauliUnitary]

theorem mulAssignRightZ_yields (h : p.Reaches i) :
    Yields (p.mulAssignRightZ i) p.capacity (p.toPhased * Z i) := by
  obtain ⟨s, hs, hbits, hcapacity⟩ := exists_negateIndex h.2
  refine ⟨{ p with zBits := s }, by simp [mulAssignRightZ, hs], by simp [capacity, hcapacity], ?_⟩
  ext1
  · simp [toPhased, toPauliUnitary]
  · simp [toPhased, toPauliUnitary]
  · simp [toPhased, toPauliUnitary, hbits]

theorem phaseResidue_signed (b : Bool) (e : UInt8) : phaseResidue (if b then e + 2 else e) =
      phaseResidue e + twist b := by
  cases b with
  | false => simp
  | true =>
    rw [if_pos rfl, phaseResidue_add]
    rfl

theorem mulAssignLeftZ_yields (h : p.Reaches i) :
    Yields (p.mulAssignLeftZ i) p.capacity (Z i * p.toPhased) := by
  obtain ⟨s, hs, hbits, hcapacity⟩ := exists_negateIndex h.2
  have hstep : p.mulAssignLeftZ i = some { p with
      zBits := s
      xzPhaseExp := if p.xBits.toBits.index i then p.xzPhaseExp + 2 else p.xzPhaseExp } := by
    simp [mulAssignLeftZ, hs, index_eq h.1]
  refine ⟨_, hstep, by simp [capacity, hcapacity], ?_⟩
  ext1
  · simp [toPhased, toPauliUnitary, phaseResidue_signed, Bits.dot_unit_left]
  · simp [toPhased, toPauliUnitary]
  · simp [toPhased, toPauliUnitary, hbits, add_comm]

theorem mulAssignRightX_yields (h : p.Reaches i) :
    Yields (p.mulAssignRightX i) p.capacity (p.toPhased * X i) := by
  obtain ⟨s, hs, hbits, hcapacity⟩ := exists_negateIndex h.1
  have hstep : p.mulAssignRightX i = some { p with
      xBits := s
      xzPhaseExp := if p.zBits.toBits.index i then p.xzPhaseExp + 2 else p.xzPhaseExp } := by
    simp [mulAssignRightX, hs, index_eq h.2]
  refine ⟨_, hstep, by simp [capacity, hcapacity], ?_⟩
  ext1
  · simp [toPhased, toPauliUnitary, phaseResidue_signed, Bits.dot_unit_right]
  · simp [toPhased, toPauliUnitary, hbits]
  · simp [toPhased, toPauliUnitary]

theorem toPhased_addAssignPhaseExp (p : StoredPauli k) (value : UInt8) :
    (p.addAssignPhaseExp value).toPhased = iPow (phaseResidue value) * p.toPhased := by
  ext1
  · simp [toPhased, toPauliUnitary, addAssignPhaseExp, add_comm]
  · simp [toPhased, toPauliUnitary, addAssignPhaseExp]
  · simp [toPhased, toPauliUnitary, addAssignPhaseExp]

theorem Yields.bind {step : Option (StoredPauli k)} {capacity : PauliCapacity} {P Q : PhasedPauli}
    {f : StoredPauli k → Option (StoredPauli k)} (h : Yields step capacity P)
    (hf : ∀ q : StoredPauli k, q.capacity = capacity → q.toPhased = P → Yields (f q) capacity Q) :
    Yields (step.bind f) capacity Q := by
  obtain ⟨q, rfl, hcapacity, hP⟩ := h
  exact hf q hcapacity hP

theorem phaseResidue_one : phaseResidue 1 = 1 :=
  rfl

theorem mulAssignLeftY_yields (h : p.Reaches i) :
    Yields (p.mulAssignLeftY i) p.capacity (iPow 1 * X i * Z i * p.toPhased) := by
  refine (mulAssignLeftZ_yields h).bind fun q hq hqP => ?_
  have hX := mulAssignLeftX_yields ((reaches_congr hq).mpr h)
  rw [hq] at hX
  refine hX.bind fun r hr hrP => ⟨_, rfl, hr, ?_⟩
  rw [toPhased_addAssignPhaseExp, phaseResidue_one, hrP, hqP]
  simp only [mul_assoc]

theorem mulAssignRightY_yields (h : p.Reaches i) :
    Yields (p.mulAssignRightY i) p.capacity (p.toPhased * (iPow 1 * X i * Z i)) := by
  refine (mulAssignRightX_yields h).bind fun q hq hqP => ?_
  have hZ := mulAssignRightZ_yields ((reaches_congr hq).mpr h)
  rw [hq] at hZ
  refine hZ.bind fun r hr hrP => ⟨_, rfl, hr, ?_⟩
  rw [toPhased_addAssignPhaseExp, phaseResidue_one, hrP, hqP, mul_assoc (iPow 1), mul_iPow_mul]
  simp only [mul_assoc]

theorem mulAssignEntry_yields (hletter : entry.1 ∈ ['X', 'Y', 'Z']) (h : p.Reaches entry.2) :
    Yields (p.mulAssignEntry entry) p.capacity (pauliFactor entry.1 entry.2 * p.toPhased) := by
  obtain ⟨letter, qubit⟩ := entry
  simp only [mem_cons, not_mem_nil, or_false] at hletter
  rcases hletter with rfl | rfl | rfl
  · exact mulAssignLeftX_yields h
  · exact mulAssignLeftY_yields h
  · exact mulAssignLeftZ_yields h

theorem foldlM_mulAssignEntry_yields (hletter : ∀ entry ∈ entries, entry.1 ∈ ['X', 'Y', 'Z'])
    (h : ∀ entry ∈ entries, p.Reaches entry.2) : Yields (entries.foldlM mulAssignEntry p) p.capacity
      (sparseOperator entries * p.toPhased) := by
  induction entries generalizing p with
  | nil => exact ⟨p, rfl, rfl, by simp [sparseOperator]⟩
  | cons entry entries ih =>
    refine (mulAssignEntry_yields (hletter entry (by simp)) (h entry (by simp))).bind
      fun q hq hqP => ?_
    have hrest := ih (fun e he => hletter e (by simp [he]))
      (fun e he => (reaches_congr hq).mpr (h e (by simp [he])))
    rw [hq, hqP] at hrest
    simpa [sparseOperator, mul_assoc] using hrest

theorem toPhased_neutralElementOfSize (k : BitsKind) (size : ℕ) :
    (neutralElementOfSize k size).toPhased = 1 := by
  ext1
  · rfl
  · exact toBits_neutralElementOfSize k size
  · exact toBits_neutralElementOfSize k size

theorem reaches_neutralElementOfSize {size : ℕ} (h : i < size) :
    (neutralElementOfSize k size).Reaches i :=
  ⟨PauliBits.reaches_neutralElementOfSize h, PauliBits.reaches_neutralElementOfSize h⟩

/-- The parser returns a Pauli that denotes an operator. -/
def Parses (result : Option (Except PauliStringParsingError (StoredPauli k))) (P : PhasedPauli) :
    Prop :=
  ∃ q, result = some (.ok q) ∧ q.toPhased = P

/-- The parser returns an error. -/
def Rejects (result : Option (Except PauliStringParsingError (StoredPauli k))) : Prop :=
  result = some (.error .error)

theorem parseDensePauli_cons (hc : isDenseCharacter c = true) (cs : List Char) (h : p.Reaches i) :
    ∃ q : StoredPauli k, parseDensePauli (c :: cs) i p = parseDensePauli cs (i + 1) q ∧
      q.capacity = p.capacity ∧ q.toPhased = p.toPhased * pauliFactor c.toUpper i := by
  have hbind : ∀ {step : Option (StoredPauli k)} {P : PhasedPauli},
      Yields step p.capacity P → parseDensePauli (c :: cs) i p =
        step.bind (parseDensePauli cs (i + 1)) →
      ∃ q : StoredPauli k, parseDensePauli (c :: cs) i p = parseDensePauli cs (i + 1) q ∧
        q.capacity = p.capacity ∧ q.toPhased = P := by
    rintro step P ⟨q, rfl, hq, hP⟩ hparse
    exact ⟨q, hparse, hq, hP⟩
  have hcases := denseCharacter_cases hc
  simp only [mem_cons, not_mem_nil, or_false] at hcases
  rcases hcases with rfl | rfl | rfl | rfl | rfl | rfl | rfl | rfl
  · exact hbind (mulAssignRightX_yields h) rfl
  · exact hbind (mulAssignRightX_yields h) rfl
  · exact hbind (mulAssignRightZ_yields h) rfl
  · exact hbind (mulAssignRightZ_yields h) rfl
  · exact hbind (mulAssignRightY_yields h) rfl
  · exact hbind (mulAssignRightY_yields h) rfl
  · exact ⟨p, rfl, rfl, by simp [pauliFactor]⟩
  · exact ⟨p, rfl, rfl, by simp [pauliFactor]⟩

theorem parseDensePauli_other (hc : isDenseCharacter c = false) (cs : List Char) :
    Rejects (parseDensePauli (c :: cs) i p) := by
  have hx : ['X', 'x'].contains c = false := by simp_all [isDenseCharacter, isPauliLetter]
  have hz : ['Z', 'z'].contains c = false := by simp_all [isDenseCharacter, isPauliLetter]
  have hy : ['Y', 'y'].contains c = false := by simp_all [isDenseCharacter, isPauliLetter]
  have hi : ['I', ' '].contains c = false := by simp_all [isDenseCharacter, isPauliLetter]
  rw [Rejects, parseDensePauli, hx, hz, hy, hi]
  simp only [Bool.false_eq_true, if_false]

theorem parseDensePauli_parses (hbody : ∀ c ∈ body, isDenseCharacter c = true)
    (h : ∀ j, j < i + body.length → p.Reaches j) :
    Parses (parseDensePauli body i p) (p.toPhased * denseOperator body i) := by
  induction body generalizing p i with
  | nil => exact ⟨p, rfl, (mul_one _).symm⟩
  | cons c cs ih =>
    rw [length_cons] at h
    obtain ⟨q, hparse, hcapacity, hq⟩ :=
      parseDensePauli_cons (hbody c (by simp)) cs (h i (by omega))
    have hrest := ih (i := i + 1) (p := q) (fun c' hc' => hbody c' (by simp [hc']))
      (fun j hj => (reaches_congr hcapacity).mpr (h j (by omega)))
    rw [hparse, denseOperator, ← mul_assoc, ← hq]
    exact hrest

theorem parseDensePauli_rejects (hbody : ¬ ∀ c ∈ body, isDenseCharacter c = true)
    (h : ∀ j, j < i + body.length → p.Reaches j) : Rejects (parseDensePauli body i p) := by
  induction body generalizing p i with
  | nil => exact absurd (by simp) hbody
  | cons c cs ih =>
    rw [length_cons] at h
    cases hc : isDenseCharacter c with
    | true =>
      obtain ⟨q, hparse, hcapacity, -⟩ := parseDensePauli_cons hc cs (h i (by omega))
      rw [hparse]
      refine ih (i := i + 1) (p := q) ?_
        (fun j hj => (reaches_congr hcapacity).mpr (h j (by omega)))
      intro hcs
      refine hbody fun c' hc' => ?_
      rcases mem_cons.mp hc' with rfl | hmem
      · exact hc
      · exact hcs c' hmem
    | false => exact parseDensePauli_other hc cs

theorem length_le_byteLength (text : List Char) : text.length ≤ byteLength text := by
  induction text with
  | nil => exact le_rfl
  | cons c text ih =>
    have hpos := c.utf8Size_pos
    rw [byteLength, map_cons, sum_cons, length_cons]
    rw [byteLength] at ih
    omega

theorem le_of_mem_max? (h : entry ∈ entries) : entry.2 ≤ ((entries.map Prod.snd).max?).getD 0 := by
  have hmem : entry.2 ∈ entries.map Prod.snd := mem_map_of_mem h
  cases hmax : (entries.map Prod.snd).max? with
  | none =>
    rw [max?_eq_none_iff.mp hmax] at hmem
    cases hmem
  | some m => exact (max?_eq_some_iff.mp hmax).2 _ hmem

theorem max?_lt {bound : ℕ} (hpos : 0 < bound) (h : ∀ entry ∈ entries, entry.2 < bound) :
    ((entries.map Prod.snd).max?).getD 0 < bound := by
  cases hmax : (entries.map Prod.snd).max? with
  | none => exact hpos
  | some m =>
    obtain ⟨entry, hentry, rfl⟩ := mem_map.mp (max?_eq_some_iff.mp hmax).1
    exact h entry hentry

theorem toPhased_start (k : BitsKind) (size : ℕ) (phaseExp : UInt8) :
    ((neutralElementOfSize k size).addAssignPhaseExp phaseExp).toPhased =
      iPow (phaseResidue phaseExp) := by
  rw [toPhased_addAssignPhaseExp, toPhased_neutralElementOfSize, mul_one]

theorem parseSparsePauli_parses {k : BitsKind}
    (hfactors : SparseFactors (body.filter fun c => !isSeparator c) entries)
    (hbound : ∀ entry ∈ entries, entry.2 < indexBound - 1) :
    Parses (parseSparsePauli k body phaseExp)
      (iPow (phaseResidue phaseExp) * sparseOperator entries) := by
  have hscan : scanEntries body = some entries :=
    scanEntries_eq_some_iff.mpr ⟨hfactors, fun entry h => (hbound entry h).trans (by decide)⟩
  have hmax := max?_lt (by decide) hbound
  have hfits : ((entries.map Prod.snd).max?).getD 0 + 1 < indexBound := by omega
  obtain ⟨q, hq, -, hqP⟩ := foldlM_mulAssignEntry_yields
    (p := (neutralElementOfSize k (((entries.map Prod.snd).max?).getD 0 + 1)).addAssignPhaseExp
      phaseExp)
    (fun entry h => hfactors.letter_mem h)
    (fun entry h => reaches_neutralElementOfSize (Nat.lt_succ_of_le (le_of_mem_max? h)))
  refine ⟨q, ?_, ?_⟩
  · rw [parseSparsePauli, hscan]
    simp only [hfits, if_true, hq]
    rfl
  · rw [hqP, toPhased_start, iPow_mul_comm]

theorem parseSparsePauli_rejects {k : BitsKind}
    (h : ∀ entries, SparseFactors (body.filter fun c => !isSeparator c) entries →
      ¬ ∀ entry ∈ entries, entry.2 < indexBound) : Rejects (parseSparsePauli k body phaseExp) := by
  cases hscan : scanEntries body with
  | none => rw [Rejects, parseSparsePauli, hscan]
  | some entries =>
    obtain ⟨hfactors, hbound⟩ := scanEntries_eq_some_iff.mp hscan
    exact absurd hbound (h entries hfactors)

end StoredPauli

variable {P : PhasedPauli}

theorem PauliBody.head_not_mem {bound : ℕ} {cs : List Char} (h : PauliBody bound (c :: cs) P) :
    c ∉ ['+', '-', 'i', '𝑖'] := by
  have hletters : ∀ c ∈ ['X', 'x', 'Z', 'z', 'Y', 'y', 'I', ' '], c ∉ ['+', '-', 'i', '𝑖'] := by
    decide
  have hseparators : ∀ c ∈ ['{', '}', ' ', '_'], c ∉ ['+', '-', 'i', '𝑖'] := by decide
  have hdense : isDenseCharacter c = true → c ∉ ['+', '-', 'i', '𝑖'] := fun hc =>
    hletters c (denseCharacter_cases hc)
  cases h with
  | dense hbody => exact hdense (hbody c (by simp))
  | sparse hmark hfactors hbound =>
    cases hseparator : isSeparator c with
    | true => exact hseparators c (contains_iff_mem.mp hseparator)
    | false =>
      rw [filter_cons_of_pos (by simp [hseparator]), sparseFactors_cons_iff] at hfactors
      exact hdense (by simp [isDenseCharacter, hfactors.1])

theorem parsePhase_append {sign body : List Char}
    (hsign : (sign, phaseExp) ∈ ([], 0) :: phasePrefixes)
    (hbody : ∀ c ∈ body.head?, c ∉ ['+', '-', 'i', '𝑖']) :
    parsePhase (sign ++ body) = (phaseExp, body) := by
  simp only [phasePrefixes, mem_cons, not_mem_nil, or_false, Prod.mk.injEq] at hsign
  cases body with
  | nil =>
    rcases hsign with ⟨rfl, rfl⟩ | ⟨rfl, rfl⟩ | ⟨rfl, rfl⟩ | ⟨rfl, rfl⟩ | ⟨rfl, rfl⟩ |
      ⟨rfl, rfl⟩ | ⟨rfl, rfl⟩ | ⟨rfl, rfl⟩ | ⟨rfl, rfl⟩
    all_goals rfl
  | cons c cs =>
    have hc := hbody c rfl
    simp only [mem_cons, not_mem_nil, or_false, not_or] at hc
    have hplus : ('+' == c) = false := beq_eq_false_iff_ne.mpr (Ne.symm hc.1)
    have hminus : ('-' == c) = false := beq_eq_false_iff_ne.mpr (Ne.symm hc.2.1)
    have hi : ('i' == c) = false := beq_eq_false_iff_ne.mpr (Ne.symm hc.2.2.1)
    have hitalic : ('𝑖' == c) = false := beq_eq_false_iff_ne.mpr (Ne.symm hc.2.2.2)
    rcases hsign with ⟨rfl, rfl⟩ | ⟨rfl, rfl⟩ | ⟨rfl, rfl⟩ | ⟨rfl, rfl⟩ | ⟨rfl, rfl⟩ |
      ⟨rfl, rfl⟩ | ⟨rfl, rfl⟩ | ⟨rfl, rfl⟩ | ⟨rfl, rfl⟩
    all_goals
      simp [parsePhase, phasePrefixes, List.find?, List.isPrefixOf, hplus, hminus, hi, hitalic]

theorem exists_of_parsePhase (text : List Char) :
    ∃ sign, (sign, (parsePhase text).1) ∈ ([], 0) :: phasePrefixes ∧
      text = sign ++ (parsePhase text).2 := by
  unfold parsePhase
  cases hfind : phasePrefixes.find? fun entry => entry.1.isPrefixOf text with
  | none => exact ⟨[], mem_cons_self .., rfl⟩
  | some entry =>
    have hstart : entry.1.isPrefixOf text = true :=
      find?_some (p := fun entry : List Char × UInt8 => entry.1.isPrefixOf text) hfind
    obtain ⟨rest, rfl⟩ := isPrefixOf_iff_prefix.mp hstart
    refine ⟨entry.1, mem_cons_of_mem _ (mem_of_find?_eq_some hfind), ?_⟩
    simp

theorem pauliSentence_iff {bound : ℕ} : PauliSentence bound text P ↔
      ∃ Q, PauliBody bound (parsePhase (trim text)).2 Q ∧
        P = iPow (phaseResidue (parsePhase (trim text)).1) * Q := by
  constructor
  · rintro ⟨sign, phaseExp, body, Q, hsign, htext, hbody, rfl⟩
    have hhead : ∀ c ∈ body.head?, c ∉ ['+', '-', 'i', '𝑖'] := by
      cases body with
      | nil => simp
      | cons c cs =>
        rintro _ ⟨rfl⟩
        exact hbody.head_not_mem
    rw [htext, parsePhase_append hsign hhead]
    exact ⟨Q, hbody, rfl⟩
  · rintro ⟨Q, hbody, rfl⟩
    obtain ⟨sign, hsign, htext⟩ := exists_of_parsePhase (trim text)
    exact ⟨sign, _, _, Q, hsign, htext, hbody, rfl⟩

namespace StoredPauli

theorem mark_eq_false (hbody : ∀ c ∈ body, isDenseCharacter c = true) :
    sparseMarks.contains (body.getD 1 ' ') = false := by
  have hnone : ∀ c ∈ ['X', 'x', 'Z', 'z', 'Y', 'y', 'I', ' '], sparseMarks.contains c = false := by
    decide
  refine hnone _ ?_
  rcases Nat.lt_or_ge 1 body.length with hlt | hge
  · rw [getD_eq_getElem _ _ hlt]
    exact denseCharacter_cases (hbody _ (getElem_mem hlt))
  · rw [getD_eq_default _ _ hge]
    decide

theorem pauliFromStr_parses (k : BitsKind) (h : PauliSentence (indexBound - 1) text P) :
    Parses (pauliFromStr k text) P := by
  obtain ⟨Q, hbody, rfl⟩ := pauliSentence_iff.mp h
  unfold pauliFromStr
  generalize parsePhase (trim text) = split at hbody ⊢
  obtain ⟨phaseExp, body⟩ := split
  dsimp only at hbody ⊢
  cases hbody with
  | dense hbody =>
    rw [mark_eq_false hbody]
    rw [← toPhased_start k (byteLength body) phaseExp]
    refine parseDensePauli_parses hbody fun j hj => reaches_neutralElementOfSize ?_
    have hle := length_le_byteLength body
    omega
  | sparse hmark hfactors hbound =>
    rw [if_pos hmark]
    exact parseSparsePauli_parses hfactors hbound

theorem pauliFromStr_rejects (k : BitsKind) (h : ∀ P, ¬ PauliSentence indexBound text P) :
    Rejects (pauliFromStr k text) := by
  simp only [pauliSentence_iff, not_exists, not_and] at h
  have hnone : ∀ Q, ¬ PauliBody indexBound (parsePhase (trim text)).2 Q := fun Q hQ =>
    h _ Q hQ rfl
  unfold pauliFromStr
  generalize parsePhase (trim text) = split at hnone ⊢
  obtain ⟨phaseExp, body⟩ := split
  dsimp only at hnone ⊢
  split_ifs with hmark
  · refine parseSparsePauli_rejects fun entries hfactors hbound => ?_
    exact hnone _ (.sparse hmark hfactors hbound)
  · refine parseDensePauli_rejects (fun hbody => hnone _ (.dense hbody)) fun j hj =>
      reaches_neutralElementOfSize ?_
    have hle := length_le_byteLength body
    omega

def NamesLastIndex (text : List Char) : Prop :=
  ∃ entries, sparseMarks.contains ((parsePhase (trim text)).2.getD 1 ' ') = true ∧
    SparseFactors ((parsePhase (trim text)).2.filter fun c => !isSeparator c) entries ∧
      (∀ entry ∈ entries, entry.2 < indexBound) ∧ ∃ entry ∈ entries, entry.2 = indexBound - 1

theorem pauliSentence_or_namesLastIndex (h : PauliSentence indexBound text P) :
    PauliSentence (indexBound - 1) text P ∨ NamesLastIndex text := by
  obtain ⟨Q, hbody, rfl⟩ := pauliSentence_iff.mp h
  cases hbody with
  | dense hbody => exact .inl (pauliSentence_iff.mpr ⟨_, .dense hbody, rfl⟩)
  | @sparse entries hmark hfactors hbound =>
    by_cases hlast : ∃ entry ∈ entries, entry.2 = indexBound - 1
    · exact .inr ⟨entries, hmark, hfactors, hbound, hlast⟩
    · refine .inl (pauliSentence_iff.mpr ⟨_, .sparse hmark hfactors fun entry hentry => ?_, rfl⟩)
      have hlt := hbound entry hentry
      have hne : entry.2 ≠ indexBound - 1 := fun heq => hlast ⟨entry, hentry, heq⟩
      omega

theorem pauliFromStr_eq_none_iff {k : BitsKind} :
    pauliFromStr k text = none ↔ NamesLastIndex text := by
  constructor
  · intro hnone
    by_cases h : ∃ P, PauliSentence indexBound text P
    · obtain ⟨P, hP⟩ := h
      refine (pauliSentence_or_namesLastIndex hP).resolve_left fun hsentence => ?_
      obtain ⟨q, hq, -⟩ := pauliFromStr_parses k hsentence
      rw [hnone] at hq
      cases hq
    · have hreject := pauliFromStr_rejects k fun P hP => h ⟨P, hP⟩
      rw [Rejects, hnone] at hreject
      cases hreject
  · rintro ⟨entries, hmark, hfactors, hbound, entry, hentry, hlast⟩
    have hscan := scanEntries_eq_some_iff.mpr ⟨hfactors, hbound⟩
    have hle := le_of_mem_max? hentry
    have hover : ¬ ((entries.map Prod.snd).max?).getD 0 + 1 < indexBound := by omega
    rw [pauliFromStr]
    generalize parsePhase (trim text) = split at hmark hscan ⊢
    dsimp only at hmark hscan ⊢
    rw [if_pos hmark, parseSparsePauli, hscan]
    simp only [hover, if_false]

end StoredPauli

end QdkEc
