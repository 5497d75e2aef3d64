import QdkEc.Binar.BitVecStorage
import QdkEc.Lib.Decimal
import QdkEc.Paulimer.PauliRepresentation

/-!
# Printing and parsing Paulis

This module models the text of a Pauli: `format_pauli` in its dense and sparse
layouts, and `pauli_from_str`, which reads both of them.  A text is a list of
characters, and printing and parsing work over the storage of a dense or of a
sparse Pauli.
-/

namespace QdkEc

open PhasedPauli AlignedBitVec

namespace Memberwise

/-- What holds of the members of a list is decided member by member. -/
scoped instance (priority := high) decidableForallMem
    {α : Type*}
    (l : List α)
    (p : α → Prop)
    [DecidablePred p] :
    Decidable (∀ a ∈ l, p a) :=
  List.decidableBAll p l

end Memberwise

open scoped Memberwise

/-- How the imaginary unit, the subscripts and the separators are rendered. -/
inductive StringNotation where
  | unicode
  | ascii
  | tex
deriving DecidableEq

/-- Every position, or the positions of the support with subscripts. -/
inductive StringLayout where
  | dense
  | sparse
deriving DecidableEq

/-- The character of a decimal digit. -/
def asciiDigit (d : ℕ) : Char :=
  Char.ofNat ( '0'.toNat + d)

/-- The subscript character of a decimal digit. -/
def subscriptDigit (d : ℕ) : Char :=
  Char.ofNat ( '₀'.toNat + d)

namespace StringNotation

def imaginaryUnit : StringNotation → List Char
  | unicode => ['𝑖']
  | ascii => ['i']
  | tex => "\\mathrm\x7bi\x7d".toList

def subscript : StringNotation → ℕ → List Char
  | unicode, index => (Decimal.digits index).map subscriptDigit
  | ascii, index => '_' :: (Decimal.digits index).map asciiDigit
  | tex, index => '_' :: '{' :: (Decimal.digits index).map asciiDigit ++ ['}']

def separator : StringNotation → List Char
  | unicode => []
  | ascii | tex => [' ']

def minus : List Char :=
  ['-']

def arrow : StringNotation → List Char
  | unicode => ['→']
  | ascii => [':', ' ']
  | tex => " &\\mapsto ".toList

def mappingSeparator : StringNotation → List Char
  | tex => " \\\\\n".toList
  | unicode | ascii => [',', ' ']

def mappingPreamble : StringNotation → List Char
  | tex => "\\begin\x7balign\x7d\n".toList
  | unicode | ascii => []

def mappingEpilogue : StringNotation → List Char
  | tex => "\n\\end\x7balign\x7d".toList
  | unicode | ascii => []

end StringNotation

namespace PauliBits

variable {k : BitsKind}

/-- A bit set without bits, for a number of qubits. -/
def neutralElementOfSize : (k : BitsKind) → ℕ → PauliBits k
  | .aligned, size => aligned (AlignedBitVec.zeros size)
  | .indexSet, _ => indexSet ⟨∅⟩

/-- Flip the bit at an index; `none` is a panic. -/
def negateIndex : PauliBits k → ℕ → Option (PauliBits k)
  | aligned bits, i => (bits.negateIndex i).map aligned
  | indexSet bits, i => some (indexSet (bits.negateIndex i))

/-- Equal words, or equal index sets. -/
def eq : PauliBits k → PauliBits k → Bool
  | aligned bits, aligned other => bits == other
  | indexSet bits, indexSet other => bits == other

/-- The index of the last one. -/
def maxSupport (s : PauliBits k) : Option ℕ :=
  s.support.getLast?

/-- A storage of some capacity has an index. -/
def Reaches (capacity : Option ℕ) (i : ℕ) : Prop :=
  ∀ n ∈ capacity, i < n

variable {s : PauliBits k}

theorem index_eq {i : ℕ} (h : Reaches s.capacity i) : s.index i = some (s.toBits.index i) := by
  cases s with
  | aligned bits => rw [index, index_eq, if_pos (h _ rfl), toBits]
  | indexSet bits => rw [index, toBits, IndexSet.index_toBits]

theorem exists_negateIndex {i : ℕ} (h : Reaches s.capacity i) :
    ∃ s', s.negateIndex i = some s' ∧ s'.toBits = s.toBits + Bits.unit i ∧
      s'.capacity = s.capacity := by
  cases s with
  | aligned bits =>
    cases hbits : bits.negateIndex i with
    | none =>
      have hge := negateIndex_eq_none_iff.mp hbits
      have hlt := h _ rfl
      omega
    | some bits' =>
      obtain ⟨hsum, hlen⟩ := toBits_negateIndex hbits
      exact ⟨aligned bits', by simp [negateIndex, hbits], hsum, congrArg some hlen⟩
  | indexSet bits => exact ⟨_, rfl, IndexSet.toBits_negateIndex bits i, rfl⟩

theorem toBits_neutralElementOfSize (k : BitsKind) (size : ℕ) :
    (neutralElementOfSize k size).toBits = 0 := by
  cases k with
  | aligned =>
    refine Bits.ext_index fun i => ?_
    rw [neutralElementOfSize, toBits, index_toBits_zeros, Bits.index_zero]
  | indexSet =>
    refine Bits.ext_index fun i => ?_
    rw [neutralElementOfSize, toBits, IndexSet.index_toBits, Bits.index_zero]
    rfl

theorem reaches_neutralElementOfSize {k : BitsKind} {size i : ℕ} (h : i < size) :
    Reaches (neutralElementOfSize k size).capacity i := by
  cases k with
  | aligned =>
    rintro n ⟨rfl⟩
    have hle := le_bitsPerBlock_mul_blockCount size
    rw [bitLen, zeros, List.length_replicate]
    omega
  | indexSet => rintro n ⟨⟩

theorem mem_support {i : ℕ} : i ∈ s.support ↔ s.toBits.index i = true := by
  cases s with
  | aligned bits => exact Bits.mem_support
  | indexSet bits =>
    rw [toBits, IndexSet.index_toBits, support, IndexSet.mem_support, IndexSet.index,
      decide_eq_true_iff]

theorem nodup_support (s : PauliBits k) : s.support.Nodup := by
  cases s with
  | aligned bits => exact Bits.nodup_support _
  | indexSet bits => exact bits.nodup_support

theorem pairwise_support (s : PauliBits k) : s.support.Pairwise (· < ·) := by
  cases s with
  | aligned bits => exact Bits.pairwise_support _
  | indexSet bits => exact Finset.sortedLT_sort _ |>.pairwise

theorem index_eq_false_of_maxSupport (h : s.maxSupport = none) (i : ℕ) :
    s.toBits.index i = false := by
  have hnil : s.support = [] := List.getLast?_eq_none_iff.mp h
  rw [← Bool.not_eq_true, ← mem_support, hnil]
  exact List.not_mem_nil

theorem maxSupport_spec {m : ℕ} (h : s.maxSupport = some m) :
    s.toBits.index m = true ∧ ∀ i, s.toBits.index i = true → i ≤ m := by
  refine ⟨mem_support.mp (List.mem_of_getLast? h), fun i hi => ?_⟩
  have hmem := mem_support.mpr hi
  have hsplit := s.pairwise_support
  obtain ⟨init, hinit⟩ := List.getLast?_eq_some_iff.mp h
  rw [hinit] at hmem hsplit
  rcases List.mem_append.mp hmem with hinit | hlast
  · exact ((List.pairwise_append.mp hsplit).2.2 i hinit m (by simp)).le
  · exact (List.mem_singleton.mp hlast).le

end PauliBits

namespace StoredPauli

variable {k : BitsKind}

/-- The identity on a number of qubits. -/
def neutralElementOfSize (k : BitsKind) (size : ℕ) : StoredPauli k where
  xBits := PauliBits.neutralElementOfSize k size
  zBits := PauliBits.neutralElementOfSize k size
  xzPhaseExp := 0

/-- Multiply by a power of `i`. -/
def addAssignPhaseExp (p : StoredPauli k) (value : UInt8) : StoredPauli k :=
  { p with xzPhaseExp := p.xzPhaseExp + value }

/-- Multiply by `X` on one qubit on the left; `none` is a panic. -/
def mulAssignLeftX (p : StoredPauli k) (qubit : ℕ) :
    Option (StoredPauli k) := do
  let xBits ← p.xBits.negateIndex qubit
  some { p with xBits := xBits }

/-- Multiply by `X` on one qubit on the right; `none` is a panic. -/
def mulAssignRightX (p : StoredPauli k) (qubit : ℕ) :
    Option (StoredPauli k) := do
  let xBits ← p.xBits.negateIndex qubit
  let isZ ← p.zBits.index qubit
  some { p with
    xBits := xBits
    xzPhaseExp := if isZ then p.xzPhaseExp + 2 else p.xzPhaseExp }

/-- Multiply by `Z` on one qubit on the left; `none` is a panic. -/
def mulAssignLeftZ (p : StoredPauli k) (qubit : ℕ) :
    Option (StoredPauli k) := do
  let zBits ← p.zBits.negateIndex qubit
  let isX ← p.xBits.index qubit
  some { p with
    zBits := zBits
    xzPhaseExp := if isX then p.xzPhaseExp + 2 else p.xzPhaseExp }

/-- Multiply by `Z` on one qubit on the right; `none` is a panic. -/
def mulAssignRightZ (p : StoredPauli k) (qubit : ℕ) :
    Option (StoredPauli k) := do
  let zBits ← p.zBits.negateIndex qubit
  some { p with zBits := zBits }

/-- Multiply by `Y` on one qubit on the left; `none` is a panic. -/
def mulAssignLeftY (p : StoredPauli k) (qubit : ℕ) :
    Option (StoredPauli k) := do
  let p ← p.mulAssignLeftZ qubit
  let p ← p.mulAssignLeftX qubit
  some (p.addAssignPhaseExp 1)

/-- Multiply by `Y` on one qubit on the right; `none` is a panic. -/
def mulAssignRightY (p : StoredPauli k) (qubit : ℕ) :
    Option (StoredPauli k) := do
  let p ← p.mulAssignRightX qubit
  let p ← p.mulAssignRightZ qubit
  some (p.addAssignPhaseExp 1)

/-- The last qubit of the support. -/
def maxSupport (p : StoredPauli k) : Option ℕ :=
  match p.xBits.maxSupport, p.zBits.maxSupport with
  | none, none => none
  | none, some id => some id
  | some id, none => some id
  | some id1, some id2 => some (max id1 id2)

/-- Two Paulis over the same storage are equal, their phases counted modulo four. -/
def eq (p q : StoredPauli k) : Bool :=
  PauliUnitary.phaseValue p.xzPhaseExp == PauliUnitary.phaseValue q.xzPhaseExp &&
    (p.xBits.eq q.xBits && p.zBits.eq q.zBits)

/-- The sign and the imaginary unit in front of a Pauli. -/
def formatPhasePrefix (phase : Option UInt8) (extraPhase : UInt8) (signPlus : Bool)
    (style : StringNotation) :
    List Char :=
  match phase with
  | none => []
  | some phase =>
    let combined := (phase + extraPhase) % 4
    if combined = 0 then if signPlus then ['+'] else []
    else if combined = 1 then (if signPlus then ['+'] else []) ++ style.imaginaryUnit
    else if combined = 2 then StringNotation.minus
    else StringNotation.minus ++ style.imaginaryUnit

/-- The letter of a pair of bits. -/
def character : Bool × Bool → Char
  | (false, false) => 'I'
  | (true, false) => 'X'
  | (true, true) => 'Y'
  | (false, true) => 'Z'

/-- The phase that letters `Y` take out of the phase in front of `X` and `Z`. -/
def extraPhase (letters : List (Bool × Bool)) : UInt8 :=
  letters.foldl (fun phase letter => if letter.1 && letter.2 then (phase + 3) % 4 else phase) 0

/-- The pair of bits on one qubit; `none` is a panic. -/
def letterAt (p : StoredPauli k) (index : ℕ) :
    Option (Bool × Bool) := do
  let isX ← p.xBits.index index
  let isZ ← p.zBits.index index
  some (isX, isZ)

/-- One letter for each qubit up to the last one of the support; `none` is a panic. -/
def formatDensePauli (p : StoredPauli k) (phase : Option UInt8) (style : StringNotation)
    (size : Option ℕ) (signPlus : Bool) :
    Option (List Char) :=
  let lastIndex := size.getD ((p.maxSupport.map (· + 1)).getD 0)
  if lastIndex = 0 then some (formatPhasePrefix phase 0 signPlus style ++ ['I'])
  else do
    let letters ← (List.range lastIndex).mapM p.letterAt
    some (formatPhasePrefix phase (extraPhase letters) signPlus style ++ letters.map character)

/-- The letters of the support in ascending order, and the phase that they take out. -/
def stringMap (p : StoredPauli k) : UInt8 × List (ℕ × Char) where
  fst := p.zBits.support.foldl
    (fun phase index => if p.xBits.support.contains index then (phase + 3) % 4 else phase) 0
  snd := (p.xBits.support ++ p.zBits.support).toFinset.sort.map fun index =>
    (index, character (p.xBits.support.contains index, p.zBits.support.contains index))

/-- One letter with a subscript for each qubit of the support. -/
def formatSparsePauli (p : StoredPauli k) (phase : Option UInt8) (style : StringNotation)
    (signPlus : Bool) :
    List Char :=
  let (extraPhase, idToCharacter) := p.stringMap
  if idToCharacter = [] then formatPhasePrefix phase 0 signPlus style ++ ['I']
  else
    formatPhasePrefix phase extraPhase signPlus style ++
      style.separator.intercalate
        (idToCharacter.map fun entry => entry.2 :: style.subscript entry.1)

/-- The text of a Pauli; `none` is a panic. -/
def formatPauli (p : StoredPauli k) (phase : Option UInt8) (layout : StringLayout)
    (style : StringNotation) (size : Option ℕ) (signPlus : Bool) :
    Option (List Char) :=
  match layout with
  | .dense => p.formatDensePauli phase style size signPlus
  | .sparse => some (p.formatSparsePauli phase style signPlus)

/-- The text of a Pauli in a layout and a notation; `none` is a panic. -/
def toStringWith (p : StoredPauli k) (layout : StringLayout) (style : StringNotation) :
    Option (List Char) :=
  p.formatPauli (some (PauliUnitary.phaseValue p.xzPhaseExp)) layout style none false

end StoredPauli

/-- The text is no Pauli. -/
inductive PauliStringParsingError where
  | error
deriving DecidableEq

/-- The number of values of an index. -/
def indexBound : ℕ :=
  2 ^ 64

/-- The characters with the property `White_Space`. -/
def isWhitespace (c : Char) : Bool :=
  let code := c.toNat
  0x09 ≤ code && code ≤ 0x0D || code == 0x20 || code == 0x85 || code == 0xA0 || code == 0x1680 ||
    0x2000 ≤ code && code ≤ 0x200A || code == 0x2028 || code == 0x2029 || code == 0x202F ||
    code == 0x205F || code == 0x3000

/-- Remove white space from both ends. -/
def trim (text : List Char) : List Char :=
  ((text.dropWhile isWhitespace).reverse.dropWhile isWhitespace).reverse

/-- The value of a digit or of a subscript digit. -/
def getDigit (c : Char) : Option ℕ :=
  if '₀'.toNat ≤ c.toNat ∧ c.toNat ≤ '₉'.toNat then some (c.toNat - '₀'.toNat)
  else if '0'.toNat ≤ c.toNat ∧ c.toNat ≤ '9'.toNat then some (c.toNat - '0'.toNat)
  else none

/-- The phases in front of a Pauli, in the order in which they are tried. -/
def phasePrefixes : List (List Char × UInt8) :=
  [(['+', 'i'], 1), (['i'], 1), (['-', 'i'], 3), (['+', '𝑖'], 1), (['𝑖'], 1), (['-', '𝑖'], 3),
    (['+'], 0), (['-'], 2)]

/-- Split off the phase in front of a Pauli. -/
def parsePhase (text : List Char) : UInt8 × List Char :=
  match phasePrefixes.find? fun entry => entry.1.isPrefixOf text with
  | some (phaseString, phaseExp) => (phaseExp, text.drop phaseString.length)
  | none => (0, text)

/-- The second characters that make a text sparse. -/
def sparseMarks : List Char :=
  "₀₁₂₃₄₅₆₇₈₉0123456789_".toList

/-- What the parser of sparse texts has read. -/
structure SparseScan where
  entries : List (Char × ℕ)
  pauliChar : Option Char
  index : ℕ
  hasDigits : Bool

namespace SparseScan

def start : SparseScan where
  entries := []
  pauliChar := none
  index := 0
  hasDigits := false

/-- The entries with the one that is being read; `none` is a letter without an index. -/
def finish (s : SparseScan) : Option (List (Char × ℕ)) :=
  match s.pauliChar with
  | none => some s.entries
  | some previous => if s.hasDigits then some (s.entries ++ [(previous, s.index)]) else none

/-- Read one character; `none` is a parsing error. -/
def read (s : SparseScan) (c : Char) : Option SparseScan :=
  match getDigit c with
  | some digit =>
    if s.pauliChar.isNone then none
    else do
      let index ← Decimal.pushDigit indexBound s.index digit
      some { s with index := index, hasDigits := true }
  | none =>
    if ['X', 'x', 'Y', 'y', 'Z', 'z'].contains c then do
      let entries ← s.finish
      some { entries := entries, pauliChar := some c.toUpper, index := 0, hasDigits := false }
    else if ['{', '}', ' ', '_'].contains c then some s
    else none

end SparseScan

/-- The letters and indices of a sparse text; `none` is a parsing error. -/
def scanEntries (body : List Char) : Option (List (Char × ℕ)) := do
  let s ← body.foldlM SparseScan.read SparseScan.start
  s.finish

namespace StoredPauli

/-- Multiply by one letter of a sparse text on the left; `none` is a panic. -/
def mulAssignEntry (p : StoredPauli k) (entry : Char × ℕ) : Option (StoredPauli k) :=
  if entry.1 = 'X' then p.mulAssignLeftX entry.2
  else if entry.1 = 'Y' then p.mulAssignLeftY entry.2
  else if entry.1 = 'Z' then p.mulAssignLeftZ entry.2
  else none

/-- The Pauli of a sparse text; `none` is a panic. -/
def parseSparsePauli (k : BitsKind) (body : List Char) (phaseExp : UInt8) :
    Option (Except PauliStringParsingError (StoredPauli k)) :=
  match scanEntries body with
  | none => some (.error .error)
  | some entries =>
    let maxIndex := ((entries.map Prod.snd).max?).getD 0
    if maxIndex + 1 < indexBound then do
      let pauli ← entries.foldlM mulAssignEntry
        ((neutralElementOfSize k (maxIndex + 1)).addAssignPhaseExp phaseExp)
      some (.ok pauli)
    else none

/-- Multiply by the letters of a dense text from some qubit on; `none` is a panic. -/
def parseDensePauli :
    List Char → ℕ → StoredPauli k → Option (Except PauliStringParsingError (StoredPauli k))
  | [], _, res => some (.ok res)
  | c :: cs, index, res =>
    if ['X', 'x'].contains c then (res.mulAssignRightX index).bind (parseDensePauli cs (index + 1))
    else if ['Z', 'z'].contains c then
      (res.mulAssignRightZ index).bind (parseDensePauli cs (index + 1))
    else if ['Y', 'y'].contains c then
      (res.mulAssignRightY index).bind (parseDensePauli cs (index + 1))
    else if ['I', ' '].contains c then parseDensePauli cs (index + 1) res
    else some (.error .error)

/-- The number of bytes of a text. -/
def byteLength (text : List Char) : ℕ :=
  (text.map Char.utf8Size).sum

/-- The Pauli of a text; `none` is a panic. -/
def pauliFromStr (k : BitsKind) (pauliString : List Char) :
    Option (Except PauliStringParsingError (StoredPauli k)) :=
  let (phaseExp, body) := parsePhase (trim pauliString)
  if sparseMarks.contains (body.getD 1 ' ') then parseSparsePauli k body phaseExp
  else
    parseDensePauli body 0
      ((neutralElementOfSize k (byteLength body)).addAssignPhaseExp phaseExp)

end StoredPauli

end QdkEc
