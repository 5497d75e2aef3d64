import QdkEc.DeqRuntime.SymbolicPropagator
import QdkEc.Lib.OptionTraversal

/-!
# Nodes of symbolic expressions

This module shows what the nodes that the propagator builds stand for: a sum without
the terms that cancel has the value of all its terms, a matrix of sums has the values
of the product of the matrix, and a sum with a new correction bit is zero when its
gadget is not included.
-/

namespace QdkEc

open List

theorem Bits.ofBools_concat (v : List Bool) (b : Bool) :
    Bits.ofBools (v ++ [b]) = Bits.ofBools v + (if b then Bits.unit v.length else 0) := by
  refine Bits.ext_index fun i => ?_
  rw [Bits.index_ofBools, Bits.index_add, Bits.index_ofBools]
  rcases Nat.lt_trichotomy i v.length with hi | rfl | hi
  · rw [getD_eq_getElem?_getD, getElem?_append_left hi, ← getD_eq_getElem?_getD]
    cases b <;> simp [Nat.ne_of_gt hi]
  · cases b <;> simp
  · cases b <;> simp [Nat.ne_of_lt hi, hi, Nat.le_of_lt hi]

theorem Bits.dot_ofBools (row : Bits) (v : List Bool) :
    Bits.dot row (Bits.ofBools v) = xorAll (v.zipIdx.map fun bit => row.index bit.2 && bit.1) := by
  induction v using List.reverseRecOn with
  | nil => exact Bits.dot_zero_right row
  | append_singleton v b ih =>
    rw [Bits.ofBools_concat, Bits.dot_add_right, ih, zipIdx_append, map_append, xorAll_append]
    cases b <;> simp

namespace PauliFrameSymbolicPropagator

theorem ite_add_count (term : ℕ) (terms : List ℕ) (u : ℕ) :
    (if u = term then 1 else 0) + terms.count u = (term :: terms).count u := by
  rw [count_cons, Nat.add_comm]
  by_cases hu : u = term
  · simp [hu]
  · simp [hu, Ne.symm hu]

variable {terms : List ℕ}

theorem reduceRun_spec {term : ℕ} (count : ℕ) (hsorted : (term :: terms).Pairwise (· ≤ ·)) :
    (reduceRun term count terms).Pairwise (· < ·) ∧
      (∀ u ∈ reduceRun term count terms, u ∈ term :: terms) ∧
      (∀ f : ℕ → Bool, xorAll ((reduceRun term count terms).map f) =
        ((decide (count % 2 = 1) && f term) ^^ xorAll (terms.map f))) ∧
      ∀ u, ((if u = term then count else 0) + terms.count u) % 2 = 1 →
        u ∈ reduceRun term count terms := by
  induction terms generalizing term count with
  | nil =>
    rw [reduceRun]
    split_ifs with hcount
    · refine ⟨pairwise_singleton _ _, fun u hu => hu, fun f => ?_, fun u hu => ?_⟩
      · simp [hcount]
      · by_contra hne
        rw [mem_singleton] at hne
        simp [hne] at hu
    · refine ⟨List.Pairwise.nil, fun u hu => absurd hu not_mem_nil, fun f => ?_,
        fun u hu => ?_⟩
      · simp [hcount]
      · split_ifs at hu
        · exact absurd hu hcount
        · cases hu
  | cons next terms ih =>
    rw [pairwise_cons] at hsorted
    obtain ⟨hle, hsorted⟩ := hsorted
    rw [reduceRun]
    by_cases hnext : next = term
    · subst hnext
      obtain ⟨hlt, hmem, hsum, hodd⟩ := ih (count + 1) hsorted
      rw [if_pos rfl]
      refine ⟨hlt, fun u hu => mem_cons_of_mem _ (hmem u hu), fun f => ?_, fun u hu => ?_⟩
      · rw [hsum, map_cons, xorAll_cons]
        have hflip : decide ((count + 1) % 2 = 1) = !decide (count % 2 = 1) := by
          rw [← decide_not, decide_eq_decide]
          omega
        rw [hflip]
        generalize decide (count % 2 = 1) = odd
        generalize xorAll (terms.map f) = rest
        rcases odd with _ | _ <;> rcases rest with _ | _ <;> simp
      · refine hodd u ?_
        rw [← ite_add_count] at hu
        split_ifs at hu ⊢ <;> omega
    · have hafter : ∀ u ∈ next :: terms, term < u := by
        intro u hu
        have hterm : term < next := lt_of_le_of_ne (hle next mem_cons_self) (Ne.symm hnext)
        rcases mem_cons.mp hu with rfl | hu
        · exact hterm
        · exact hterm.trans_le ((pairwise_cons.mp hsorted).1 u hu)
      have habsent : (next :: terms).count term = 0 :=
        count_eq_zero.mpr fun hmem => Nat.lt_irrefl _ (hafter term hmem)
      obtain ⟨hlt, hmem, hsum, hodd⟩ := ih 1 hsorted
      have hrest : ∀ u, u ≠ term →
          ((if u = term then count else 0) + (next :: terms).count u) % 2 = 1 →
            u ∈ reduceRun next 1 terms := by
        intro u hu hcount
        rw [if_neg hu, Nat.zero_add, ← ite_add_count] at hcount
        exact hodd u hcount
      split_ifs with hcount
      · refine ⟨pairwise_cons.mpr ⟨fun u hu => hafter u (hmem u hu), hlt⟩, ?_, fun f => ?_,
          fun u hu => ?_⟩
        · intro u hu
          rcases mem_cons.mp hu with rfl | hu
          · exact mem_cons_self
          · exact mem_cons_of_mem _ (hmem u hu)
        · rw [map_cons, xorAll_cons, hsum]
          simp [hcount]
        · by_cases huterm : u = term
          · exact huterm ▸ mem_cons_self
          · exact mem_cons_of_mem _ (hrest u huterm hu)
      · refine ⟨hlt, fun u hu => mem_cons_of_mem _ (hmem u hu), fun f => ?_, fun u hu => ?_⟩
        · rw [hsum]
          simp [hcount]
        · refine hrest u ?_ hu
          rintro rfl
          rw [if_pos rfl, habsent, Nat.add_zero] at hu
          exact hcount hu

theorem reduceTerms_spec (terms : List ℕ) : (reduceTerms terms).Pairwise (· < ·) ∧
      (∀ u ∈ reduceTerms terms, u ∈ terms ∧ u ≠ 0) ∧ (∀ f : ℕ → Bool, f 0 = false →
        xorAll ((reduceTerms terms).map f) = xorAll (terms.map f)) ∧
      ∀ u, u ≠ 0 → terms.count u % 2 = 1 → u ∈ reduceTerms terms := by
  have hperm := perm_insertionSort (· ≤ ·) (terms.filter fun term => term ≠ 0)
  have hsorted := pairwise_insertionSort (· ≤ ·) (terms.filter fun term => term ≠ 0)
  have hsum : ∀ f : ℕ → Bool, f 0 = false →
      xorAll ((terms.filter fun term => term ≠ 0).map f) = xorAll (terms.map f) := by
    intro f hf
    clear hsorted hperm
    induction terms with
    | nil => rfl
    | cons term terms ih =>
      by_cases hterm : term = 0
      · subst hterm
        simpa [hf] using ih
      · simpa [hterm] using ih
  have hmem : ∀ u, u ∈ (terms.filter fun term => term ≠ 0).insertionSort (· ≤ ·) →
      u ∈ terms ∧ u ≠ 0 := by
    intro u hu
    rwa [hperm.mem_iff, mem_filter, decide_eq_true_iff] at hu
  have hcount : ∀ u, u ≠ 0 →
      ((terms.filter fun term => term ≠ 0).insertionSort (· ≤ ·)).count u = terms.count u := by
    intro u hu
    rw [hperm.count_eq, count_filter (by simpa using hu)]
  have hsum' : ∀ f : ℕ → Bool, f 0 = false →
      xorAll (((terms.filter fun term => term ≠ 0).insertionSort (· ≤ ·)).map f) =
        xorAll (terms.map f) :=
    fun f hf => (xorAll_perm (hperm.map f)).trans (hsum f hf)
  rw [reduceTerms]
  generalize (terms.filter fun term => term ≠ 0).insertionSort (· ≤ ·) = sorted at *
  cases sorted with
  | nil =>
    refine ⟨List.Pairwise.nil, fun u hu => absurd hu not_mem_nil, hsum', fun u hu hodd => ?_⟩
    rw [← hcount u hu] at hodd
    cases hodd
  | cons term rest =>
    obtain ⟨hlt, hrun, hvalue, hodd⟩ := reduceRun_spec 1 hsorted
    refine ⟨hlt, fun u hu => hmem u (hrun u hu), fun f hf => ?_, fun u hu hcount' => ?_⟩
    · rw [← hsum' f hf]
      exact hvalue f
    · rw [← hcount u hu, ← ite_add_count] at hcount'
      exact hodd u hcount'

/-- A graph in which sums come after their terms, variables have one node, and node 0 is zero. -/
structure Graph (nodes : List SymbolicNode) : Prop where
  zero : nodes[0]? = some .zero
  ordered : XorNode.Ordered nodes
  distinct : XorNode.Distinct nodes

/-- The value of a node under correction bits, without the gadgets that are not included. -/
def value (included : ℕ → Bool) (ρ : CorrectionBasis → Bool) (nodes : List SymbolicNode)
    (node : ℕ) :
    Bool :=
  XorNode.value CorrectionBasis.gid included ρ nodes node

/-- A graph grew by nodes whose variables satisfy a property. -/
structure Grows (fresh : CorrectionBasis → Prop) (nodes nodes' : List SymbolicNode) : Prop where
  append : ∃ more, nodes' = nodes ++ more
  graph : Graph nodes'
  basis : ∀ (i : ℕ) component, nodes'[i]? = some (.basis component) →
    nodes[i]? = some (.basis component) ∨ fresh component

section Grows

variable {fresh : CorrectionBasis → Prop} {nodes nodes' nodes'' : List SymbolicNode}

theorem Graph.grows (h : Graph nodes) : Grows fresh nodes nodes where
  append := ⟨[], (append_nil _).symm⟩
  graph := h
  basis _ _ hi := .inl hi

theorem Grows.trans (h : Grows fresh nodes nodes') (h' : Grows fresh nodes' nodes'') :
    Grows fresh nodes nodes'' where
  append := by
    obtain ⟨more, rfl⟩ := h.append
    obtain ⟨more', rfl⟩ := h'.append
    exact ⟨more ++ more', append_assoc _ _ _⟩
  graph := h'.graph
  basis i component hi := (h'.basis i component hi).elim (h.basis i component) .inr

theorem Grows.mono {fresh' : CorrectionBasis → Prop} (h : Grows fresh nodes nodes')
    (hfresh : ∀ component, fresh component → fresh' component) : Grows fresh' nodes nodes' where
  append := h.append
  graph := h.graph
  basis i component hi := (h.basis i component hi).imp_right (hfresh component)

theorem Grows.length_le (h : Grows fresh nodes nodes') : nodes.length ≤ nodes'.length := by
  obtain ⟨more, rfl⟩ := h.append
  rw [length_append]
  exact Nat.le_add_right _ _

theorem Grows.value_eq (h : Grows fresh nodes nodes') (included : ℕ → Bool)
    (ρ : CorrectionBasis → Bool) {node : ℕ} (hnode : node < nodes.length) :
    value included ρ nodes' node = value included ρ nodes node := by
  obtain ⟨more, rfl⟩ := h.append
  exact XorNode.value_append _ _ _ _ _ hnode

end Grows

section Graph

variable {nodes : List SymbolicNode} (h : Graph nodes)

include h

theorem Graph.length_pos : 0 < nodes.length :=
  (List.getElem?_eq_some_iff.mp h.zero).1

theorem Graph.value_zero (included : ℕ → Bool) (ρ : CorrectionBasis → Bool) :
    value included ρ nodes 0 = false :=
  XorNode.value_eq _ _ _ h.ordered h.zero

theorem Graph.grows_concat {node : SymbolicNode} (hxor : ∀ g terms, node = .xor g terms →
      terms.Pairwise (· < ·) ∧ ∀ t ∈ terms, t < nodes.length)
    (hbasis : ∀ component, node = .basis component → ∀ i : ℕ, nodes[i]? ≠ some (.basis component)) :
    Grows (fun component => node = .basis component) nodes (nodes ++ [node]) := by
  have hcases : ∀ (i : ℕ) (entry : SymbolicNode), (nodes ++ [node])[i]? = some entry →
      nodes[i]? = some entry ∨ i = nodes.length ∧ entry = node := by
    intro i entry hi
    rcases Nat.lt_or_ge i nodes.length with hlt | hge
    · rw [getElem?_append_left hlt] at hi
      exact .inl hi
    · rw [getElem?_append_right hge, getElem?_singleton] at hi
      split_ifs at hi with hzero
      exact .inr ⟨by omega, (Option.some_inj.mp hi).symm⟩
  refine ⟨⟨[node], rfl⟩, ⟨?_, ?_, ?_⟩, ?_⟩
  · rw [getElem?_append_left h.length_pos, h.zero]
  · intro i g terms hi
    rcases hcases i _ hi with hold | ⟨rfl, hnew⟩
    · exact h.ordered i g terms hold
    · exact hxor g terms hnew.symm
  · intro i j component hi hj
    rcases hcases i _ hi with hold | ⟨rfl, hnew⟩
    · rcases hcases j _ hj with hold' | ⟨rfl, hnew'⟩
      · exact h.distinct i j component hold hold'
      · exact absurd hold (hbasis component hnew'.symm i)
    · rcases hcases j _ hj with hold' | ⟨rfl, -⟩
      · exact absurd hold' (hbasis component hnew.symm j)
      · rfl
  · intro i component hi
    exact (hcases i _ hi).imp_right fun hnew => hnew.2.symm

variable (gid : ℕ)

theorem Graph.grows_xor (hterms : terms.Pairwise (· < ·))
    (hbefore : ∀ t ∈ terms, t < nodes.length) :
    Grows (fun _ => False) nodes (nodes ++ [.xor gid terms]) ∧ ∀ included ρ, included gid = true →
        value included ρ (nodes ++ [.xor gid terms]) nodes.length =
          xorAll (terms.map (value included ρ nodes)) := by
  constructor
  · refine Grows.mono (h.grows_concat ?_ ?_) ?_
    · rintro g terms' ⟨⟩
      exact ⟨hterms, hbefore⟩
    · rintro component ⟨⟩
    · rintro component ⟨⟩
  · intro included ρ hincluded
    refine (XorNode.value_concat _ _ _ _ _).trans ?_
    rw [XorNode.eval, hincluded, Bool.true_and]
    rfl

theorem Graph.xor_spec (hterms : ∀ t ∈ terms, t < nodes.length) :
    Grows (fun _ => False) nodes (xor nodes gid terms).1 ∧
      (xor nodes gid terms).2 < (xor nodes gid terms).1.length ∧ ∀ included ρ, included gid = true →
        value included ρ (xor nodes gid terms).1 (xor nodes gid terms).2 =
          xorAll (terms.map (value included ρ nodes)) := by
  obtain ⟨hlt, hmem, hsum, -⟩ := reduceTerms_spec terms
  have hvalue : ∀ included ρ, xorAll ((reduceTerms terms).map (value included ρ nodes)) =
      xorAll (terms.map (value included ρ nodes)) :=
    fun included ρ => hsum _ (h.value_zero included ρ)
  have hbefore : ∀ t ∈ reduceTerms terms, t < nodes.length := fun t ht => hterms t (hmem t ht).1
  rw [xor]
  generalize reduceTerms terms = reduced at *
  rcases reduced with _ | ⟨t, _ | ⟨u, rest⟩⟩
  · refine ⟨h.grows, h.length_pos, fun included ρ _ => ?_⟩
    rw [← hvalue]
    exact h.value_zero included ρ
  · refine ⟨h.grows, hbefore t mem_cons_self, fun included ρ _ => ?_⟩
    rw [← hvalue]
    exact (Bool.xor_false _).symm
  · refine ⟨(h.grows_xor gid hlt hbefore).1, by simp, fun included ρ hincluded => ?_⟩
    rw [← hvalue]
    exact (h.grows_xor gid hlt hbefore).2 included ρ hincluded

theorem Graph.xor_basis_spec {component : CorrectionBasis} (hgid : component.gid = gid)
    (hfresh : ∀ i : ℕ, nodes[i]? ≠ some (.basis component))
    (hterms : ∀ t ∈ terms, t < nodes.length) : Grows (fun b => b = component) nodes
        (xor (basis nodes component).1 gid (terms ++ [(basis nodes component).2])).1 ∧
      (xor (basis nodes component).1 gid (terms ++ [(basis nodes component).2])).2 <
        (xor (basis nodes component).1 gid (terms ++ [(basis nodes component).2])).1.length ∧
      ∀ included ρ, value included ρ
          (xor (basis nodes component).1 gid (terms ++ [(basis nodes component).2])).1
          (xor (basis nodes component).1 gid (terms ++ [(basis nodes component).2])).2 =
        (included gid && (xorAll (terms.map (value included ρ nodes)) ^^ ρ component)) := by
  have hgrows : Grows (fun b => b = component) nodes (nodes ++ [.basis component]) := by
    refine Grows.mono (h.grows_concat ?_ ?_) ?_
    · rintro g terms' ⟨⟩
    · rintro component' ⟨⟩
      exact hfresh
    · rintro component' ⟨⟩
      rfl
  have hlast : ∀ t ∈ terms ++ [nodes.length],
      t < (nodes ++ [(.basis component : SymbolicNode)]).length := by
    intro t ht
    rw [length_append, length_singleton]
    rcases mem_append.mp ht with ht | ht
    · exact (hterms t ht).trans (Nat.lt_succ_self _)
    · rw [mem_singleton.mp ht]
      exact Nat.lt_succ_self _
  obtain ⟨hgrows', hlt, hvalue⟩ := hgrows.graph.xor_spec gid hlast
  refine ⟨hgrows.trans (hgrows'.mono fun _ hfalse => hfalse.elim), hlt, fun included ρ => ?_⟩
  have hnew : value included ρ (nodes ++ [.basis component]) nodes.length =
      (included gid && ρ component) := by
    refine (XorNode.value_concat _ _ _ _ _).trans ?_
    rw [XorNode.eval, hgid]
  cases hincluded : included gid with
  | true =>
    rw [hincluded] at hnew
    have hold : terms.map (value included ρ (nodes ++ [.basis component])) =
        terms.map (value included ρ nodes) :=
      map_congr_left fun t ht => hgrows.value_eq included ρ (hterms t ht)
    refine (hvalue included ρ hincluded).trans ?_
    rw [map_append, xorAll_append, hold, map_singleton, hnew]
    simp
  | false =>
    -- The new bit is one of the terms that are left, so the node is the bit or a sum of the gadget.
    have hpos := h.length_pos
    have hcount : (terms ++ [nodes.length]).count nodes.length % 2 = 1 := by
      rw [count_append, count_singleton_self,
        count_eq_zero.mpr fun hmem => Nat.lt_irrefl _ (hterms _ hmem)]
    have hmem := (reduceTerms_spec (terms ++ [nodes.length])).2.2.2 _ (by omega) hcount
    rw [hincluded] at hnew
    rw [xor, basis]
    generalize reduceTerms (terms ++ [nodes.length]) = reduced at hmem
    rcases reduced with _ | ⟨t, _ | ⟨u, rest⟩⟩
    · cases hmem
    · rw [mem_singleton] at hmem
      rw [← hmem]
      exact hnew
    · refine (XorNode.value_concat _ _ _ _ _).trans ?_
      rw [XorNode.eval, hincluded, Bool.false_and]
      rfl

theorem Graph.xorRows_spec {terms : ℕ → List ℕ} (rows : List ℕ)
    (hterms : ∀ row ∈ rows, ∀ t ∈ terms row, t < nodes.length) :
    Grows (fun _ => False) nodes (xorRows gid terms nodes rows).1 ∧
      (∀ node ∈ (xorRows gid terms nodes rows).2, node < (xorRows gid terms nodes rows).1.length) ∧
      (xorRows gid terms nodes rows).2.length = rows.length ∧ ∀ included ρ, included gid = true →
        (xorRows gid terms nodes rows).2.map (value included ρ (xorRows gid terms nodes rows).1) =
          rows.map fun row => xorAll ((terms row).map (value included ρ nodes)) := by
  induction rows generalizing nodes with
  | nil => exact ⟨h.grows, by simp [xorRows], rfl, fun _ _ _ => rfl⟩
  | cons row rows ih =>
    obtain ⟨hgrows, hlt, hvalue⟩ := h.xor_spec gid (hterms row mem_cons_self)
    have hrest : ∀ row' ∈ rows, ∀ t ∈ terms row', t < (xor nodes gid (terms row)).1.length :=
      fun row' hrow' t ht =>
        (hterms row' (mem_cons_of_mem _ hrow') t ht).trans_le hgrows.length_le
    obtain ⟨hgrows', hlt', hlength, hvalue'⟩ := ih hgrows.graph hrest
    refine ⟨hgrows.trans hgrows', ?_, congrArg (· + 1) hlength, fun included ρ hincluded => ?_⟩
    · intro node hnode
      rcases mem_cons.mp hnode with rfl | hnode
      · exact hlt.trans_le hgrows'.length_le
      · exact hlt' node hnode
    · refine congrArg₂ List.cons ?_ ?_
      · exact (hgrows'.value_eq included ρ hlt).trans (hvalue included ρ hincluded)
      · refine (hvalue' included ρ hincluded).trans (map_congr_left fun row' hrow' => ?_)
        refine congrArg xorAll (map_congr_left fun t ht => ?_)
        exact hgrows.value_eq included ρ (hterms row' (mem_cons_of_mem _ hrow') t ht)

/-- The sums of several new correction bits. -/
theorem Graph.xorBases_spec {component : ℕ → CorrectionBasis}
    (hcomponent : Function.Injective component) (hgid : ∀ i, (component i).gid = gid)
    {terms : ℕ → List ℕ} {indices : List ℕ} (hnodup : indices.Nodup)
    (hfresh : ∀ i ∈ indices, ∀ j : ℕ, nodes[j]? ≠ some (.basis (component i)))
    (hterms : ∀ i ∈ indices, ∀ t ∈ terms i, t < nodes.length) :
    Grows (fun b => ∃ i ∈ indices, b = component i) nodes
        (xorBases gid component terms nodes indices).1 ∧
      (∀ node ∈ (xorBases gid component terms nodes indices).2,
        node < (xorBases gid component terms nodes indices).1.length) ∧
      (xorBases gid component terms nodes indices).2.length = indices.length ∧
      ∀ included ρ, (xorBases gid component terms nodes indices).2.map
          (value included ρ (xorBases gid component terms nodes indices).1) =
        indices.map fun i => included gid &&
          (xorAll ((terms i).map (value included ρ nodes)) ^^ ρ (component i)) := by
  induction indices generalizing nodes with
  | nil => exact ⟨h.grows, by simp [xorBases], rfl, fun _ _ => rfl⟩
  | cons index indices ih =>
    rw [nodup_cons] at hnodup
    obtain ⟨hgrows, hlt, hvalue⟩ := h.xor_basis_spec gid (hgid index)
      (hfresh index mem_cons_self) (hterms index mem_cons_self)
    generalize hnext : xor (basis nodes (component index)).1 gid
      (terms index ++ [(basis nodes (component index)).2]) = next at hgrows hlt hvalue
    have hrest : ∀ i ∈ indices, ∀ t ∈ terms i, t < next.1.length := fun i hi t ht =>
      (hterms i (mem_cons_of_mem _ hi) t ht).trans_le hgrows.length_le
    have hfresh' : ∀ i ∈ indices, ∀ j : ℕ, next.1[j]? ≠ some (.basis (component i)) := by
      intro i hi j hj
      rcases hgrows.basis j _ hj with hold | hnew
      · exact hfresh i (mem_cons_of_mem _ hi) j hold
      · exact hnodup.1 (hcomponent hnew ▸ hi)
    obtain ⟨hgrows', hlt', hlength, hvalue'⟩ := ih hgrows.graph hnodup.2 hfresh' hrest
    rw [xorBases, hnext]
    refine ⟨(hgrows.mono ?_).trans (hgrows'.mono ?_), ?_, congrArg (· + 1) hlength,
      fun included ρ => ?_⟩
    · exact fun b hb => ⟨index, mem_cons_self, hb⟩
    · rintro b ⟨i, hi, hb⟩
      exact ⟨i, mem_cons_of_mem _ hi, hb⟩
    · intro node hnode
      rcases mem_cons.mp hnode with rfl | hnode
      · exact hlt.trans_le hgrows'.length_le
      · exact hlt' node hnode
    · refine congrArg₂ List.cons ?_ ?_
      · exact (hgrows'.value_eq included ρ hlt).trans (hvalue included ρ)
      · refine (hvalue' included ρ).trans (map_congr_left fun i hi => ?_)
        have hsame : (terms i).map (value included ρ next.1) =
            (terms i).map (value included ρ nodes) := map_congr_left fun t ht =>
          hgrows.value_eq included ρ (hterms i (mem_cons_of_mem _ hi) t ht)
        rw [hsame]

theorem Graph.applyMatrix_spec {matrix : AlignedBitMatrix} {inputs : List ℕ}
    (hcolumns : matrix.columnCount = inputs.length)
    (hinputs : ∀ node ∈ inputs, node < nodes.length) :
    ∃ built, applyMatrix nodes gid matrix inputs = some built ∧
      Grows (fun _ => False) nodes built.1 ∧ (∀ node ∈ built.2, node < built.1.length) ∧
      built.2.length = matrix.rowCount ∧ ∀ included ρ, included gid = true →
        built.2.map (value included ρ built.1) = (List.range matrix.rowCount).map
          (matrix.entry (inputs.map (value included ρ nodes))) := by
  have hterms : ∀ row ∈ List.range matrix.rowCount, ∀ t ∈ rowTerms matrix inputs row,
      t < nodes.length := by
    intro row _ t ht
    obtain ⟨input, hinput, rfl⟩ := mem_map.mp ht
    refine hinputs _ ?_
    exact fst_mem_of_mem_zipIdx (mem_of_mem_filter hinput)
  obtain ⟨hgrows, hlt, hlength, hvalue⟩ :=
    h.xorRows_spec gid (List.range matrix.rowCount) hterms
  refine ⟨_, if_pos hcolumns, hgrows, hlt, hlength.trans length_range,
    fun included ρ hincluded => ?_⟩
  refine (hvalue included ρ hincluded).trans (map_congr_left fun row _ => ?_)
  rw [AlignedBitMatrix.entry, Bits.dot_ofBools, rowTerms, map_map, xorAll_map_filter,
    zipIdx_map, map_map]
  rfl

end Graph

end PauliFrameSymbolicPropagator

end QdkEc
