import QdkEc.Paulimer.CliffordResize
import QdkEc.Paulimer.PauliTextRoundTrip

/-!
# Printing and parsing Clifford unitaries

This module models the text of a Clifford unitary: the images of all generators,
first of `Z` and then of `X`, each after its generator and an arrow.  The parser
splits a text into such items, writes the images as the preimages of an empty
tableau, checks that tableau and inverts it.
-/

namespace QdkEc

open PhasedPauli

namespace StoredPauli

/-- The dense Pauli on a number of qubits with the bits of a Pauli. -/
def denseOn (n : ℕ) (p : PauliUnitary) : StoredPauli .aligned where
  xBits := .aligned (AlignedBitVec.withLengthFromIter ((List.range n).map p.xBits.index)).1
  zBits := .aligned (AlignedBitVec.withLengthFromIter ((List.range n).map p.zBits.index)).1
  xzPhaseExp := p.xzPhaseExp

/-- The number of qubits of the support. -/
def weight (p : StoredPauli .indexSet) : ℕ :=
  p.sortedSupport.length

end StoredPauli

namespace CliffordUnitary

/-- One generator, the arrow and its image; `none` is a panic. -/
def formatImage (layout : StringLayout) (style : StringNotation)
    (image : Char × ℕ × StoredPauli .aligned) :
    Option (List Char) := do
  let (label, index, image) := image
  let imageStr ← image.formatPauli (some (PauliUnitary.phaseValue image.xzPhaseExp)) layout style
    none false
  some (label :: style.subscript index ++ style.arrow ++ imageStr)

/-- The text of a list of images; `none` is a panic. -/
def formatCliffordImages (images : List (Char × ℕ × StoredPauli .aligned)) (layout : StringLayout)
    (style : StringNotation) :
    Option (List Char) := do
  let items ← images.mapM (formatImage layout style)
  some (style.mappingPreamble ++ style.mappingSeparator.intercalate items ++ style.mappingEpilogue)

def images (C : CliffordUnitary) : List (Char × ℕ × StoredPauli .aligned) :=
  ((List.range C.numQubits).map fun index =>
      ('Z', index, StoredPauli.denseOn C.numQubits (C.imageZ index))) ++
    (List.range C.numQubits).map fun index =>
      ('X', index, StoredPauli.denseOn C.numQubits (C.imageX index))

/-- The text of a Clifford unitary in a layout and a notation; `none` is a panic. -/
def toStringWith (C : CliffordUnitary) (layout : StringLayout) (style : StringNotation) :
    Option (List Char) :=
  formatCliffordImages C.images layout style

/-- The text is no Clifford unitary. -/
inductive CliffordStringParsingError where
  | error
deriving DecidableEq

/-- A sparse Pauli and its image. -/
abbrev ImagePair :=
  StoredPauli .indexSet × StoredPauli .indexSet

def splitItems (text : List Char) : List (List Char) :=
  text.splitOnP fun c => ['\n', ','].contains c

/-- The sides of an item. -/
def splitArrow (item : List Char) : List (List Char) :=
  item.splitOnP fun c => [':', '→'].contains c

def trimEndCommas (text : List Char) : List Char :=
  (text.reverse.dropWhile (· == ',')).reverse

/-- Read one item; `none` is a panic. -/
def parseImagePair (item : List Char) : Option (Except CliffordStringParsingError ImagePair) :=
  match splitArrow item with
  | [fromText, toText] => do
      let pauliFrom ← StoredPauli.pauliFromStr .indexSet fromText
      let pauliTo ← StoredPauli.pauliFromStr .indexSet toText
      match pauliFrom, pauliTo with
      | .ok pauliFrom, .ok pauliTo => some (.ok (pauliFrom, pauliTo))
      | _, _ => some (.error .error)
  | _ => some (.error .error)

/-- Read all items up to the first error; `none` is a panic. -/
def parseImagePairs :
    List (List Char) → Option (Except CliffordStringParsingError (List ImagePair))
  | [] => some (.ok [])
  | item :: items => do
      match ← parseImagePair item with
      | .error e => some (.error e)
      | .ok pair =>
        match ← parseImagePairs items with
        | .error e => some (.error e)
        | .ok pairs => some (.ok (pair :: pairs))

/-- Write the image of one generator as a preimage; `none` is a parsing error. -/
def assignImagePair (C : CliffordUnitary) (pair : ImagePair) : Option CliffordUnitary :=
  if pair.1.weight = 1 then
    match pair.1.sortedSupport.head? with
    | some qubitId =>
      if C.numQubits ≤ qubitId ∨ pair.2.maxSupport.any (fun index => C.numQubits ≤ index) then none
      else if pair.1.toPauliUnitary.isPauliX qubitId then
        some (C.setPreimageX qubitId pair.2.toPauliUnitary.assigned)
      else if pair.1.toPauliUnitary.isPauliZ qubitId then
        some (C.setPreimageZ qubitId pair.2.toPauliUnitary.assigned)
      else none
    | none => none
  else none

/-- The Clifford unitary of a list of images. -/
def ofImagePairs (pairs : List ImagePair) : Except CliffordStringParsingError CliffordUnitary :=
  if pairs.length % 2 = 0 then
    match pairs.foldlM assignImagePair (zero (pairs.length / 2)) with
    | none => .error .error
    | some C => if C.isValid then .ok C.inverse else .error .error
  else .error .error

def textItems (text : List Char) : List (List Char) :=
  splitItems (trimEndCommas (trim text))

/-- The Clifford unitary of a text; `none` is a panic. -/
def cliffordFromStr (text : List Char) :
    Option (Except CliffordStringParsingError CliffordUnitary) :=
  if trim text = [] then some (.ok (identity 0))
  else do
    match ← parseImagePairs (textItems text) with
    | .error e => some (.error e)
    | .ok pairs => some (ofImagePairs pairs)

end CliffordUnitary

end QdkEc
