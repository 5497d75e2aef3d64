import QdkEc.Lib.Relabel
import QdkEc.Paulimer.PauliGroupStandardForm

/-!
# Symplectic forms of Pauli groups

This module models `symplectic_form_of`: a Gram–Schmidt loop that splits
generators into anticommuting pairs and elements that commute with everything.
The loop runs on dense Paulis over the support of the generators.
-/

namespace QdkEc

open PhasedPauli List PauliUnitary Subgroup

namespace PauliGroup

open PauliUnitary (antiCommutesWith mulAssignRight)

/-- Remove the element at an index; the last element takes its place. -/
def swapRemove {α : Type*} (l : List α) (index : ℕ) : List α :=
  match l.getLast? with
  | none => []
  | some last => (l.set index last).dropLast

/-- Make a generator that may anticommute with both elements of a pair commute with them. -/
def clearPair (xLogical zLogical generator : PauliUnitary) : PauliUnitary :=
  let generator :=
    if generator.antiCommutesWith xLogical then generator.mulAssignRight zLogical else generator
  if generator.antiCommutesWith zLogical then generator.mulAssignRight xLogical else generator

/-- Make a generator that commutes with `xLogical` commute with `zLogical`. -/
def clearZ (xLogical zLogical generator : PauliUnitary) : PauliUnitary :=
  if generator.antiCommutesWith zLogical then generator.mulAssignRight xLogical else generator

/-- Make the generators behind a removed pair commute with it; those before `index` commute with
`xLogical` already. -/
def clearRemaining (index : ℕ) (xLogical zLogical : PauliUnitary) (generators : List PauliUnitary) :
    List PauliUnitary :=
  generators.mapIdx fun i generator =>
    if index ≤ i then clearPair xLogical zLogical generator
    else clearZ xLogical zLogical generator

variable {α : Type*}

theorem length_swapRemove (l : List α) (index : ℕ) :
    (swapRemove l index).length = l.length - 1 := by
  unfold swapRemove
  split
  · rename_i h
    rw [getLast?_eq_none_iff.mp h]
    rfl
  · simp

theorem length_pos_of_getLast? {l : List α} {last : α} (h : l.getLast? = some last) :
    0 < l.length :=
  length_pos_of_mem (mem_of_getLast? h)

/-- The loop that pairs the last generator with the first one that anticommutes with it. -/
def symplecticLoop (generators conjugateElements commutingElements : List PauliUnitary) :
    List PauliUnitary :=
  match _hlast : generators.getLast? with
  | none => conjugateElements ++ commutingElements
  | some xLogical =>
    let remaining := generators.dropLast
    match remaining.findIdx? xLogical.antiCommutesWith with
    | some index =>
      let zLogical := remaining.getD index .neutralElement
      let cleared := clearRemaining index xLogical zLogical (swapRemove remaining index)
      symplecticLoop cleared (conjugateElements ++ [xLogical, zLogical]) commutingElements
    | none => symplecticLoop remaining conjugateElements (commutingElements ++ [xLogical])
termination_by generators.length
decreasing_by
  · have hpos := length_pos_of_getLast? _hlast
    rw [clearRemaining, length_mapIdx, length_swapRemove, length_dropLast]
    omega
  · have hpos := length_pos_of_getLast? _hlast
    rw [length_dropLast]
    omega

def symplecticFormOfDense (generators : List PauliUnitary) : List PauliUnitary :=
  symplecticLoop generators [] []

/-- A Pauli with its qubits numbered by their places in the support. -/
def condenseFrom (support : List ℕ) (pauli : PauliUnitary) : PauliUnitary where
  xBits := Bits.fromIndices (pauli.xBits.support.map fun index => support.idxOf index)
  zBits := Bits.fromIndices (pauli.zBits.support.map fun index => support.idxOf index)
  xzPhaseExp := PauliUnitary.phaseValue pauli.xzPhaseExp

/-- A dense Pauli on the qubits of a support. -/
def remappedSparse (support : List ℕ) (pauli : PauliUnitary) : PauliUnitary where
  xBits := Bits.fromIndices (pauli.xBits.support.map fun id => support.getD id 0)
  zBits := Bits.fromIndices (pauli.zBits.support.map fun id => support.getD id 0)
  xzPhaseExp := PauliUnitary.phaseValue pauli.xzPhaseExp

/-- Generators over their support, and the support. -/
def condense (paulis : List PauliUnitary) : List PauliUnitary × List ℕ :=
  let support := supportOf paulis
  (paulis.map (condenseFrom support), support)

/-- Dense Paulis on the qubits of a support. -/
def expand (paulis : List PauliUnitary) (support : List ℕ) : List PauliUnitary :=
  paulis.map (remappedSparse support)

/-- Generators of the same group in symplectic normal form. -/
def symplecticFormOf (generators : List PauliUnitary) : List PauliUnitary :=
  let (denseGenerators, support) := condense generators
  expand (symplecticFormOfDense denseGenerators) support

variable {index : ℕ}

theorem swapRemove_perm {l : List α} (hindex : index < l.length) :
    (l[index] :: swapRemove l index).Perm l := by
  obtain ⟨init, last, rfl⟩ : ∃ init last, l = init ++ [last] := by
    refine ⟨l.dropLast, l.getLast (ne_nil_of_length_pos (by omega)), ?_⟩
    exact (dropLast_append_getLast _).symm
  unfold swapRemove
  rw [getLast?_concat]
  dsimp only
  rcases Nat.lt_or_ge index init.length with hlt | hge
  · rw [set_append_left _ _ hlt, dropLast_concat, getElem_append_left hlt]
    calc
      (init[index] :: init.set index last).Perm (init[index] :: last :: init.eraseIdx index) :=
        (set_perm_cons_eraseIdx hlt last).cons _
      List.Perm _ (last :: init[index] :: init.eraseIdx index) := List.Perm.swap _ _ _
      List.Perm _ (last :: init) := (getElem_cons_eraseIdx_perm hlt).cons _
      List.Perm _ (init ++ [last]) := (perm_append_singleton last init).symm
  · obtain rfl : index = init.length := by
      rw [length_append, length_singleton] at hindex
      omega
    have hset : (init ++ [last]).set init.length last = init ++ [last] := by
      rw [set_append_right _ _ le_rfl, Nat.sub_self]
      rfl
    simpa using (perm_append_singleton last init).symm

theorem getElem?_swapRemove {l : List α} {index i : ℕ} (hindex : index < l.length)
    (hi : i < index) : (swapRemove l index)[i]? = l[i]? := by
  unfold swapRemove
  split
  · rename_i h
    rw [getLast?_eq_none_iff.mp h] at hindex
    simp at hindex
  · rw [getElem?_dropLast, length_set, if_pos (by omega), getElem?_set, if_neg (by omega)]

/-- A generator multiplied by elements of a pair so that it commutes with the pair. -/
structure ClearedBy (xLogical zLogical generator cleared : PauliUnitary) : Prop where
  exists_mul : ∃ w ∈ generatedBy [xLogical, zLogical],
    cleared.toPhased = generator.toPhased * w
  commutes_x : cleared.antiCommutesWith xLogical = false
  commutes_z : cleared.antiCommutesWith zLogical = false
  commutes : ∀ a, generator.antiCommutesWith a = false → xLogical.antiCommutesWith a = false →
    zLogical.antiCommutesWith a = false → cleared.antiCommutesWith a = false

variable {l : List PauliUnitary}

section Clear

variable {xLogical zLogical : PauliUnitary} (hpair : xLogical.antiCommutesWith zLogical = true)

theorem antiCommutesWith_mulAssignRight (a b c : PauliUnitary) :
    (a.mulAssignRight b).antiCommutesWith c = (a.antiCommutesWith c ^^ b.antiCommutesWith c) := by
  rw [antiCommutesWith_eq, toPhased_mulAssignRight, anti_mul_left]
  rfl

theorem antiCommutesWith_comm (a b : PauliUnitary) : a.antiCommutesWith b = b.antiCommutesWith a :=
  anti_comm a.toPhased b.toPhased

theorem antiCommutesWith_self (a : PauliUnitary) : a.antiCommutesWith a = false :=
  anti_self a.toPhased

include hpair

theorem clearedBy_clearZ {generator : PauliUnitary}
    (hx : generator.antiCommutesWith xLogical = false) :
    ClearedBy xLogical zLogical generator (clearZ xLogical zLogical generator) := by
  unfold clearZ
  split
  · rename_i hz
    refine ⟨⟨_, mem_generatedBy mem_cons_self, toPhased_mulAssignRight _ _⟩, ?_, ?_, ?_⟩
    · rw [antiCommutesWith_mulAssignRight, hx, antiCommutesWith_self]
      rfl
    · rw [antiCommutesWith_mulAssignRight, hz, hpair]
      rfl
    · intro a ha hxa hza
      rw [antiCommutesWith_mulAssignRight, ha, hxa]
      rfl
  · rename_i hz
    exact ⟨⟨1, one_mem _, (mul_one _).symm⟩, hx, Bool.not_eq_true _ ▸ hz,
      fun _ ha _ _ => ha⟩

theorem clearedBy_clearPair (generator : PauliUnitary) :
    ClearedBy xLogical zLogical generator (clearPair xLogical zLogical generator) := by
  by_cases hx : generator.antiCommutesWith xLogical = true
  · have hfirst : (generator.mulAssignRight zLogical).antiCommutesWith xLogical = false := by
      rw [antiCommutesWith_mulAssignRight, hx, antiCommutesWith_comm, hpair]
      rfl
    have hcleared := clearedBy_clearZ hpair hfirst
    have heq : clearPair xLogical zLogical generator =
        clearZ xLogical zLogical (generator.mulAssignRight zLogical) := by
      rw [clearPair, if_pos hx, clearZ]
    rw [heq]
    obtain ⟨w, hw, hmul⟩ := hcleared.exists_mul
    have hz := mem_generatedBy (l := [xLogical, zLogical]) (g := zLogical) (by simp)
    refine ⟨⟨_, Subgroup.mul_mem _ hz hw, ?_⟩, hcleared.commutes_x, hcleared.commutes_z, ?_⟩
    · rw [hmul, toPhased_mulAssignRight, mul_assoc]
    · intro a ha hxa hza
      refine hcleared.commutes a ?_ hxa hza
      rw [antiCommutesWith_mulAssignRight, ha, hza]
      rfl
  · have heq : clearPair xLogical zLogical generator = clearZ xLogical zLogical generator := by
      rw [clearPair, if_neg hx, clearZ]
    rw [heq]
    exact clearedBy_clearZ hpair (Bool.not_eq_true _ ▸ hx)

theorem forall₂_clearRemaining {generators : List PauliUnitary}
    (hbefore : ∀ i generator, i < index → generators[i]? = some generator →
      generator.antiCommutesWith xLogical = false) :
    List.Forall₂ (ClearedBy xLogical zLogical) generators
      (clearRemaining index xLogical zLogical generators) := by
  rw [forall₂_iff_get]
  refine ⟨by simp [clearRemaining], fun i hi hi' => ?_⟩
  simp only [clearRemaining, get_eq_getElem, getElem_mapIdx]
  split
  · exact clearedBy_clearPair hpair _
  · exact clearedBy_clearZ hpair (hbefore i _ (by omega) (getElem?_eq_getElem hi))

end Clear

theorem generatedBy_append (l m : List PauliUnitary) :
    generatedBy (l ++ m) = generatedBy l ⊔ generatedBy m := by
  rw [generatedBy, generatedBy, generatedBy, ← Subgroup.closure_union]
  congr 1
  ext p
  simp [or_and_right, exists_or]

theorem generatedBy_perm {l m : List PauliUnitary} (h : l.Perm m) :
    generatedBy l = generatedBy m := by
  simp only [generatedBy, h.mem_iff]

theorem generatedBy_sup_of_cleared {xLogical zLogical : PauliUnitary}
    {generators cleared : List PauliUnitary}
    (h : List.Forall₂ (ClearedBy xLogical zLogical) generators cleared) :
    generatedBy cleared ⊔ generatedBy [xLogical, zLogical] =
      generatedBy generators ⊔ generatedBy [xLogical, zLogical] := by
  have hstep : ∀ {generator cleared : PauliUnitary},
      ClearedBy xLogical zLogical generator cleared → ∀ G : Subgroup PhasedPauli,
      generatedBy [xLogical, zLogical] ≤ G →
      (cleared.toPhased ∈ G ↔ generator.toPhased ∈ G) := by
    intro generator cleared hcleared G hG
    obtain ⟨w, hw, hmul⟩ := hcleared.exists_mul
    rw [hmul]
    exact Subgroup.mul_mem_cancel_right G (hG hw)
  induction h with
  | nil => rfl
  | @cons generator cleared generators clearedRest hhead _ ih =>
    have hsingle : generatedBy [cleared] ⊔ generatedBy [xLogical, zLogical] =
        generatedBy [generator] ⊔ generatedBy [xLogical, zLogical] := by
      refine le_antisymm (sup_le (closure_le _ |>.mpr ?_) le_sup_right)
        (sup_le (closure_le _ |>.mpr ?_) le_sup_right)
      · rintro _ ⟨g, hg, rfl⟩
        rw [mem_singleton.mp hg, SetLike.mem_coe, hstep hhead _ le_sup_right]
        exact mem_sup_left (mem_generatedBy (mem_singleton_self _))
      · rintro _ ⟨g, hg, rfl⟩
        rw [mem_singleton.mp hg, SetLike.mem_coe, ← hstep hhead _ le_sup_right]
        exact mem_sup_left (mem_generatedBy (mem_singleton_self _))
    have hsplit (a : PauliUnitary) (l : List PauliUnitary) :
        generatedBy (a :: l) = generatedBy [a] ⊔ generatedBy l :=
      generatedBy_append [a] l
    rw [hsplit, hsplit generator, sup_assoc, ih, sup_left_comm, hsingle, sup_left_comm,
      ← sup_assoc]

theorem perm_of_partner {generators : List PauliUnitary} {xLogical : PauliUnitary}
    (hlast : generators.getLast? = some xLogical) (hindex : index < generators.dropLast.length) :
    (generators.dropLast.getD index .neutralElement :: xLogical ::
      swapRemove generators.dropLast index).Perm generators := by
  obtain ⟨init, rfl⟩ := getLast?_eq_some_iff.mp hlast
  rw [dropLast_concat] at hindex ⊢
  rw [getD_eq_getElem _ _ hindex]
  calc
    (init[index] :: xLogical :: swapRemove init index).Perm
        (xLogical :: init[index] :: swapRemove init index) := List.Perm.swap _ _ _
    List.Perm _ (xLogical :: init) := (swapRemove_perm hindex).cons _
    List.Perm _ (init ++ [xLogical]) := (perm_append_singleton xLogical init).symm

section Loop

variable {generators conj comm : List PauliUnitary} {xLogical : PauliUnitary}

theorem symplecticLoop_of_empty (h : generators.getLast? = none) :
    symplecticLoop generators conj comm = conj ++ comm := by
  rw [symplecticLoop]
  split
  · rfl
  · rename_i hlast
    rw [h] at hlast
    cases hlast

theorem symplecticLoop_of_partner (hlast : generators.getLast? = some xLogical)
    (hindex : generators.dropLast.findIdx? xLogical.antiCommutesWith = some index) :
    symplecticLoop generators conj comm =
      symplecticLoop (clearRemaining index xLogical (generators.dropLast.getD index .neutralElement)
          (swapRemove generators.dropLast index))
        (conj ++ [xLogical, generators.dropLast.getD index .neutralElement]) comm := by
  rw [symplecticLoop]
  split
  · rename_i h
    rw [hlast] at h
    cases h
  · rename_i h
    rw [hlast] at h
    cases h
    simp only [hindex]

theorem symplecticLoop_of_commuting (hlast : generators.getLast? = some xLogical)
    (hnone : generators.dropLast.findIdx? xLogical.antiCommutesWith = none) :
    symplecticLoop generators conj comm =
      symplecticLoop generators.dropLast conj (comm ++ [xLogical]) := by
  rw [symplecticLoop]
  split
  · rename_i h
    rw [hlast] at h
    cases h
  · rename_i h
    rw [hlast] at h
    cases h
    simp only [hnone]

theorem partner_spec {remaining : List PauliUnitary}
    (hindex : remaining.findIdx? xLogical.antiCommutesWith = some index) :
    index < remaining.length ∧
      xLogical.antiCommutesWith (remaining.getD index .neutralElement) = true ∧
      List.Forall₂ (ClearedBy xLogical (remaining.getD index .neutralElement))
        (swapRemove remaining index)
        (clearRemaining index xLogical (remaining.getD index .neutralElement)
          (swapRemove remaining index)) := by
  obtain ⟨hlt, hpair, hfirst⟩ := findIdx?_eq_some_iff_getElem.mp hindex
  rw [getD_eq_getElem _ _ hlt]
  refine ⟨hlt, hpair, forall₂_clearRemaining hpair ?_⟩
  intro i generator hi hget
  rw [getElem?_swapRemove hlt hi, getElem?_eq_getElem (by omega), Option.some_inj] at hget
  rw [← hget, antiCommutesWith_comm]
  exact Bool.not_eq_true _ ▸ hfirst i hi

theorem generatedBy_symplecticLoop (generators conj comm : List PauliUnitary) :
    generatedBy (symplecticLoop generators conj comm) =
      generatedBy generators ⊔ (generatedBy conj ⊔ generatedBy comm) := by
  induction generators, conj, comm using symplecticLoop.induct with
  | case1 generators conj comm hlast =>
    have hbot : generatedBy [] = ⊥ := by simp [generatedBy]
    rw [symplecticLoop_of_empty hlast, getLast?_eq_none_iff.mp hlast, generatedBy_append,
      hbot, bot_sup_eq]
  | case2 generators conj comm xLogical hlast remaining index hindex zLogical cleared ih =>
    obtain ⟨hlt, -, hcleared⟩ := partner_spec hindex
    have hperm : generatedBy generators =
        generatedBy (swapRemove remaining index) ⊔ generatedBy [xLogical, zLogical] := by
      rw [← generatedBy_append, ← generatedBy_perm (perm_of_partner hlast hlt)]
      have hmove : ([xLogical, zLogical] ++ swapRemove remaining index).Perm
          (swapRemove remaining index ++ [xLogical, zLogical]) := perm_append_comm
      exact generatedBy_perm ((List.Perm.swap _ _ _).trans hmove)
    rw [symplecticLoop_of_partner hlast hindex, ih, generatedBy_append, sup_assoc,
      sup_left_comm (generatedBy conj), ← sup_assoc, generatedBy_sup_of_cleared hcleared, hperm]
  | case3 generators conj comm xLogical hlast remaining hnone ih =>
    obtain ⟨init, rfl⟩ := getLast?_eq_some_iff.mp hlast
    rw [symplecticLoop_of_commuting hlast hnone, ih, generatedBy_append, generatedBy_append,
      sup_comm (generatedBy comm), sup_left_comm (generatedBy conj), ← sup_assoc]
    simp only [remaining, dropLast_concat]

end Loop

/-- The first elements come in anticommuting pairs, and all other elements commute. -/
def InSymplecticForm (pairs : ℕ) (l : List PauliUnitary) : Prop :=
  2 * pairs ≤ l.length ∧ ∀ i j a b, l[i]? = some a → l[j]? = some b →
    a.antiCommutesWith b = decide (i ≠ j ∧ i / 2 = j / 2 ∧ i / 2 < pairs)

theorem getElem?_concat_cases {l : List α} {c a : α} {i : ℕ} (h : (l ++ [c])[i]? = some a) :
    (i < l.length ∧ l[i]? = some a) ∨ (i = l.length ∧ c = a) := by
  rcases Nat.lt_or_ge i l.length with hi | hi
  · exact Or.inl ⟨hi, by rwa [getElem?_append_left hi] at h⟩
  · rw [getElem?_append_right hi, getElem?_singleton] at h
    split at h
    · exact Or.inr ⟨by omega, Option.some_inj.mp h⟩
    · cases h

variable {pairs : ℕ}

theorem InSymplecticForm.concat (h : InSymplecticForm pairs l)
    {c : PauliUnitary} (hc : ∀ a ∈ l, a.antiCommutesWith c = false) :
    InSymplecticForm pairs (l ++ [c]) := by
  have hlength := h.1
  refine ⟨by simpa using Nat.le_succ_of_le hlength, fun i j a b ha hb => ?_⟩
  rcases getElem?_concat_cases ha with ⟨hi, ha⟩ | ⟨hi, rfl⟩
  · rcases getElem?_concat_cases hb with ⟨hj, hb⟩ | ⟨hj, rfl⟩
    · exact h.2 i j a b ha hb
    · rw [hc a (mem_of_getElem? ha), eq_comm, decide_eq_false_iff_not]
      omega
  · rcases getElem?_concat_cases hb with ⟨hj, hb⟩ | ⟨hj, rfl⟩
    · rw [antiCommutesWith_comm, hc b (mem_of_getElem? hb), eq_comm, decide_eq_false_iff_not]
      omega
    · rw [antiCommutesWith_self, eq_comm, decide_eq_false_iff_not]
      omega

theorem InSymplecticForm.append {l m : List PauliUnitary} (h : InSymplecticForm pairs l)
    (hlm : ∀ a ∈ l, ∀ c ∈ m, a.antiCommutesWith c = false)
    (hm : m.Pairwise fun c d => c.antiCommutesWith d = false) :
    InSymplecticForm pairs (l ++ m) := by
  induction m generalizing l with
  | nil => rwa [append_nil]
  | cons c m ih =>
    obtain ⟨hc, hm⟩ := pairwise_cons.mp hm
    rw [append_cons]
    refine ih (h.concat fun a ha => hlm a ha c mem_cons_self) ?_ hm
    intro a ha d hd
    rcases mem_append.mp ha with ha | ha
    · exact hlm a ha d (mem_cons_of_mem c hd)
    · rw [mem_singleton.mp ha]
      exact hc d hd

theorem InSymplecticForm.append_pair
    (h : InSymplecticForm pairs l) (hlength : l.length = 2 * pairs) {x z : PauliUnitary}
    (hpair : x.antiCommutesWith z = true) (hx : ∀ a ∈ l, a.antiCommutesWith x = false)
    (hz : ∀ a ∈ l, a.antiCommutesWith z = false) : InSymplecticForm (pairs + 1) (l ++ [x, z]) := by
  have hx' := h.concat hx
  have hlength' : (l ++ [x]).length = 2 * pairs + 1 := by
    rw [length_append, hlength, length_singleton]
  -- `z` commutes with all elements before it but the last
  have hlast (i : ℕ) (a : PauliUnitary) (ha : (l ++ [x])[i]? = some a) :
      a.antiCommutesWith z = decide (i = 2 * pairs) := by
    rcases getElem?_concat_cases ha with ⟨hi, ha⟩ | ⟨hi, rfl⟩
    · rw [hz a (mem_of_getElem? ha), eq_comm, decide_eq_false_iff_not]
      omega
    · rw [hpair, eq_comm, decide_eq_true_iff]
      omega
  have hsplit : l ++ [x, z] = l ++ [x] ++ [z] := append_cons l x [z]
  rw [hsplit]
  refine ⟨by rw [length_append, hlength', length_singleton]; omega, ?_⟩
  intro i j a b ha hb
  rcases getElem?_concat_cases ha with ⟨hi, ha⟩ | ⟨hi, rfl⟩
  · rcases getElem?_concat_cases hb with ⟨hj, hb⟩ | ⟨hj, rfl⟩
    · rw [hx'.2 i j a b ha hb, decide_eq_decide]
      omega
    · rw [hlast i a ha, decide_eq_decide]
      omega
  · rcases getElem?_concat_cases hb with ⟨hj, hb⟩ | ⟨hj, rfl⟩
    · rw [antiCommutesWith_comm, hlast j b hb, decide_eq_decide]
      omega
    · rw [antiCommutesWith_self, eq_comm, decide_eq_false_iff_not]
      omega

/-- What holds before every pass of the loop. -/
structure LoopInvariant (pairs : ℕ) (generators conj comm : List PauliUnitary) : Prop where
  length_eq : conj.length = 2 * pairs
  form : InSymplecticForm pairs conj
  commuting : comm.Pairwise fun c d => c.antiCommutesWith d = false
  conj_comm : ∀ a ∈ conj, ∀ c ∈ comm, a.antiCommutesWith c = false
  rest : ∀ g ∈ generators, ∀ a ∈ conj ++ comm, g.antiCommutesWith a = false

theorem LoopInvariant.partner {generators conj comm rest cleared : List PauliUnitary}
    {x z : PauliUnitary} (h : LoopInvariant pairs generators conj comm)
    (hperm : (z :: x :: rest).Perm generators) (hpair : x.antiCommutesWith z = true)
    (hcleared : List.Forall₂ (ClearedBy x z) rest cleared) :
    LoopInvariant (pairs + 1) cleared (conj ++ [x, z]) comm := by
  have hmem (g : PauliUnitary) (hg : g ∈ z :: x :: rest) (a : PauliUnitary)
      (ha : a ∈ conj ++ comm) : g.antiCommutesWith a = false :=
    h.rest g (hperm.mem_iff.mp hg) a ha
  have hx := hmem x (by simp)
  have hz := hmem z (by simp)
  refine ⟨?_, ?_, h.commuting, ?_, ?_⟩
  · rw [length_append, h.length_eq]
    rfl
  · refine h.form.append_pair h.length_eq hpair ?_ ?_
    · intro a ha
      rw [antiCommutesWith_comm, hx a (mem_append_left _ ha)]
    · intro a ha
      rw [antiCommutesWith_comm, hz a (mem_append_left _ ha)]
  · intro a ha c hc
    rcases mem_append.mp ha with ha | ha
    · exact h.conj_comm a ha c hc
    · rcases mem_pair.mp ha with rfl | rfl
      · exact hx c (mem_append_right _ hc)
      · exact hz c (mem_append_right _ hc)
  · intro g' hg' a ha
    obtain ⟨hlength, hget⟩ := forall₂_iff_get.mp hcleared
    obtain ⟨i, hi, rfl⟩ := mem_iff_getElem.mp hg'
    have hrest := getElem_mem (hlength.symm ▸ hi : i < rest.length)
    have hclear : ClearedBy x z _ cleared[i] := hget i (hlength.symm ▸ hi) hi
    have hold (a : PauliUnitary) (ha : a ∈ conj ++ comm) : cleared[i].antiCommutesWith a = false :=
      hclear.commutes a (hmem _ (mem_cons_of_mem z (mem_cons_of_mem x hrest)) a ha)
        (hx a ha) (hz a ha)
    rcases mem_append.mp ha with ha | ha
    · rcases mem_append.mp ha with ha | ha
      · exact hold a (mem_append_left _ ha)
      · rcases mem_pair.mp ha with rfl | rfl
        · exact hclear.commutes_x
        · exact hclear.commutes_z
    · exact hold a (mem_append_right _ ha)

theorem LoopInvariant.commuting_element {rest conj comm : List PauliUnitary}
    {x : PauliUnitary} (h : LoopInvariant pairs (rest ++ [x]) conj comm)
    (hnone : ∀ g ∈ rest, x.antiCommutesWith g = false) :
    LoopInvariant pairs rest conj (comm ++ [x]) := by
  have hx := h.rest x (mem_append_right _ (mem_singleton_self x))
  refine ⟨h.length_eq, h.form, ?_, ?_, ?_⟩
  · refine pairwise_append.mpr ⟨h.commuting, pairwise_singleton _ _, ?_⟩
    intro c hc d hd
    rw [mem_singleton.mp hd, antiCommutesWith_comm]
    exact hx c (mem_append_right _ hc)
  · intro a ha c hc
    rcases mem_append.mp hc with hc | hc
    · exact h.conj_comm a ha c hc
    · rw [mem_singleton.mp hc, antiCommutesWith_comm]
      exact hx a (mem_append_left _ ha)
  · intro g hg a ha
    rw [← append_assoc] at ha
    rcases mem_append.mp ha with ha | ha
    · exact h.rest g (mem_append_left _ hg) a ha
    · rw [mem_singleton.mp ha, antiCommutesWith_comm]
      exact hnone g hg

theorem inSymplecticForm_symplecticLoop (generators conj comm : List PauliUnitary) :
    ∀ pairs, LoopInvariant pairs generators conj comm →
      ∃ pairs, InSymplecticForm pairs (symplecticLoop generators conj comm) := by
  induction generators, conj, comm using symplecticLoop.induct with
  | case1 generators conj comm hlast =>
    intro pairs h
    rw [symplecticLoop_of_empty hlast]
    exact ⟨pairs, h.form.append h.conj_comm h.commuting⟩
  | case2 generators conj comm xLogical hlast remaining index hindex zLogical cleared ih =>
    intro pairs h
    obtain ⟨hlt, hpair, hcleared⟩ := partner_spec hindex
    rw [symplecticLoop_of_partner hlast hindex]
    exact ih (pairs + 1) (h.partner (perm_of_partner hlast hlt) hpair hcleared)
  | case3 generators conj comm xLogical hlast remaining hnone ih =>
    intro pairs h
    rw [symplecticLoop_of_commuting hlast hnone]
    refine ih pairs (LoopInvariant.commuting_element ?_ (findIdx?_eq_none_iff.mp hnone))
    obtain ⟨init, rfl⟩ := getLast?_eq_some_iff.mp hlast
    simpa only [remaining, dropLast_concat] using h

theorem generatedBy_symplecticFormOfDense (generators : List PauliUnitary) :
    generatedBy (symplecticFormOfDense generators) = generatedBy generators := by
  have hbot : generatedBy [] = ⊥ := by simp [generatedBy]
  rw [symplecticFormOfDense, generatedBy_symplecticLoop, hbot, sup_bot_eq, sup_bot_eq]

theorem inSymplecticForm_symplecticFormOfDense (generators : List PauliUnitary) :
    ∃ pairs, InSymplecticForm pairs (symplecticFormOfDense generators) := by
  have hempty : InSymplecticForm 0 [] := ⟨le_rfl, fun i j a b ha _ => by simp at ha⟩
  exact inSymplecticForm_symplecticLoop generators [] [] 0
    ⟨rfl, hempty, List.Pairwise.nil, by simp, by simp⟩

theorem toPhased_condenseFrom (support : List ℕ) (pauli : PauliUnitary) :
    (condenseFrom support pauli).toPhased = pauli.toPhased.remap fun q => support.idxOf q := by
  ext1
  · exact phaseResidue_phaseValue _
  · rfl
  · rfl

theorem toPhased_remappedSparse (support : List ℕ) (pauli : PauliUnitary) :
    (remappedSparse support pauli).toPhased = pauli.toPhased.remap fun e => support.getD e 0 := by
  ext1
  · exact phaseResidue_phaseValue _
  · rfl
  · rfl

section Support

variable {support : List ℕ} {σ : Equiv.Perm ℕ}

theorem toPhased_remappedSparse_eq_lift (hσ : ∀ e (he : e < support.length), σ e = support[e])
    {pauli : PauliUnitary} (hpauli : pauli.Below support.length) :
    (remappedSparse support pauli).toPhased =
      (GeneratorFrame.identity.relabel σ).lift pauli.toPhased := by
  rw [toPhased_remappedSparse, GeneratorFrame.lift_relabel_identity σ.injective]
  refine PhasedPauli.remap_congr hpauli fun e he => ?_
  rw [getD_eq_getElem _ _ he, hσ e he]

theorem remap_getD_remap_idxOf (hnodup : support.Nodup) {b : Bits}
    (hb : ∀ q, b.index q = true → q ∈ support) :
    (b.remap fun q => support.idxOf q).Below support.length ∧
      (b.remap fun q => support.idxOf q).remap (fun e => support.getD e 0) = b := by
  have hbelow : (b.remap fun q => support.idxOf q).Below support.length := by
    rw [Bits.below_iff]
    intro i hi
    rw [← Bool.not_eq_true, Bits.index_remap]
    rintro ⟨q, hq, rfl⟩
    exact absurd (idxOf_lt_length_of_mem (hb q hq)) (Nat.not_lt.mpr hi)
  refine ⟨hbelow, Bits.ext_index fun j => ?_⟩
  rw [Bits.index_remap_getD hnodup hbelow]
  by_cases hj : j ∈ support
  · rw [decide_eq_true hj, Bool.true_and,
      Bits.index_remap_apply fun q hq heq => (idxOf_inj (hb q hq)).mp heq]
  · rw [decide_eq_false hj, Bool.false_and]
    cases hindex : b.index j with
    | false => rfl
    | true => exact absurd (hb j hindex) hj

theorem condenseFrom_spec (hnodup : support.Nodup) {pauli : PauliUnitary}
    (hpauli : ∀ q, pauli.xBits.index q = true ∨ pauli.zBits.index q = true → q ∈ support) :
    (condenseFrom support pauli).Below support.length ∧
      (remappedSparse support (condenseFrom support pauli)).toPhased = pauli.toPhased := by
  obtain ⟨hxBelow, hx⟩ := remap_getD_remap_idxOf hnodup fun q hq => hpauli q (Or.inl hq)
  obtain ⟨hzBelow, hz⟩ := remap_getD_remap_idxOf hnodup fun q hq => hpauli q (Or.inr hq)
  refine ⟨⟨hxBelow, hzBelow⟩, ?_⟩
  rw [toPhased_remappedSparse, toPhased_condenseFrom]
  ext1
  · rfl
  · exact hx
  · exact hz

theorem below_of_mem_generatedBy {n : ℕ} {generators : List PauliUnitary}
    (h : ∀ g ∈ generators, g.Below n) {p : PhasedPauli} (hp : p ∈ generatedBy generators) :
    p.Below n := by
  induction hp using closure_induction with
  | mem p hp =>
    obtain ⟨g, hg, rfl⟩ := hp
    exact h g hg
  | one => exact below_one n
  | mul p q _ _ hp hq => exact hp.mul hq
  | inv p _ hp => exact hp.inv

theorem generatedBy_expand (hσ : ∀ e (he : e < support.length), σ e = support[e])
    {paulis : List PauliUnitary} (hpaulis : ∀ p ∈ paulis, p.Below support.length) :
    generatedBy (expand paulis support) = (generatedBy paulis).map
        (GeneratorFrame.valid_identity.relabel σ.injective).liftHom := by
  rw [generatedBy, generatedBy, MonoidHom.map_closure]
  congr 1
  ext p
  constructor
  · rintro ⟨g, hg, rfl⟩
    obtain ⟨pauli, hpauli, rfl⟩ := mem_map.mp hg
    exact ⟨pauli.toPhased, ⟨pauli, hpauli, rfl⟩,
      (toPhased_remappedSparse_eq_lift hσ (hpaulis pauli hpauli)).symm⟩
  · rintro ⟨_, ⟨pauli, hpauli, rfl⟩, rfl⟩
    exact ⟨_, mem_map_of_mem hpauli, toPhased_remappedSparse_eq_lift hσ (hpaulis pauli hpauli)⟩

theorem InSymplecticForm.expand (hσ : ∀ e (he : e < support.length), σ e = support[e])
    {paulis : List PauliUnitary} (hpaulis : ∀ p ∈ paulis, p.Below support.length)
    (h : InSymplecticForm pairs paulis) : InSymplecticForm pairs (expand paulis support) := by
  refine ⟨by simpa [PauliGroup.expand] using h.1, fun i j a b ha hb => ?_⟩
  simp only [PauliGroup.expand, getElem?_map, Option.map_eq_some_iff] at ha hb
  obtain ⟨p, hp, rfl⟩ := ha
  obtain ⟨q, hq, rfl⟩ := hb
  rw [antiCommutesWith_eq, toPhased_remappedSparse_eq_lift hσ (hpaulis p (mem_of_getElem? hp)),
    toPhased_remappedSparse_eq_lift hσ (hpaulis q (mem_of_getElem? hq)),
    (GeneratorFrame.valid_identity.relabel σ.injective).anti_lift]
  exact h.2 i j p q hp hq

end Support

/-- The symplectic form generates the same group and is in symplectic normal form. -/
theorem symplecticFormOf_spec (group : PauliGroup) :
    generatedBy (symplecticFormOf group.generators) = group.toSubgroup ∧
      ∃ pairs, InSymplecticForm pairs (symplecticFormOf group.generators) := by
  obtain ⟨σ, hσ⟩ := GeneratorFrame.exists_perm_of_nodup (nodup_supportOf group.generators)
  let support := supportOf group.generators
  let dense := group.generators.map (condenseFrom support)
  have hcondensed (g : PauliUnitary) (hg : g ∈ group.generators) :=
    condenseFrom_spec (nodup_supportOf group.generators) (supported_supportOf _ g hg)
  have hdense : ∀ p ∈ dense, p.Below support.length := by
    intro p hp
    obtain ⟨g, hg, rfl⟩ := mem_map.mp hp
    exact (hcondensed g hg).1
  have hform : ∀ p ∈ symplecticFormOfDense dense, p.Below support.length := by
    intro p hp
    have hmem := mem_generatedBy hp
    rw [generatedBy_symplecticFormOfDense] at hmem
    exact below_of_mem_generatedBy hdense hmem
  constructor
  · have hback : generatedBy (expand dense support) = group.toSubgroup := by
      rw [toSubgroup, generatedBy, generatedBy]
      congr 1
      ext p
      simp only [PauliGroup.expand, dense, mem_map, exists_exists_and_eq_and]
      exact exists_congr fun g => and_congr_right fun hg => by rw [(hcondensed g hg).2]
    rw [← hback, generatedBy_expand hσ hdense, ← generatedBy_symplecticFormOfDense dense,
      ← generatedBy_expand hσ hform]
    rfl
  · obtain ⟨pairs, hpairs⟩ := inSymplecticForm_symplecticFormOfDense dense
    exact ⟨pairs, hpairs.expand hσ hform⟩

end PauliGroup

end QdkEc
