import Mathlib.Algebra.BigOperators.Group.List.Basic
import Mathlib.Algebra.GroupWithZero.Nat
import Mathlib.Data.List.Induction
import Mathlib.Data.List.Sort

/-!
# Shared sums of variables

A graph of nodes stores sums of variables over two elements: a node is zero, a
variable, or the sum of nodes before it.  Every variable and every sum has an owner,
and what excluded owners have counts as zero.  The variables of a node, those that
occur an odd number of times in its expansion, are collected by a traversal from the
last node to the first one that cancels what it meets twice.
-/

namespace QdkEc

open List

/-- The sum of bits over two elements. -/
def xorAll (l : List Bool) : Bool :=
  l.foldr xor false

@[simp]
theorem xorAll_nil : xorAll [] = false :=
  rfl

@[simp]
theorem xorAll_cons (b : Bool) (l : List Bool) : xorAll (b :: l) = (b ^^ xorAll l) :=
  rfl

@[simp]
theorem xorAll_append (l l' : List Bool) : xorAll (l ++ l') = (xorAll l ^^ xorAll l') := by
  induction l with
  | nil => simp
  | cons b l ih => rw [cons_append, xorAll_cons, ih, xorAll_cons, Bool.xor_assoc]

theorem xorAll_perm {l l' : List Bool} (h : l.Perm l') : xorAll l = xorAll l' := by
  induction h with
  | nil => rfl
  | cons b _ ih => rw [xorAll_cons, xorAll_cons, ih]
  | swap a b l => rw [xorAll_cons, xorAll_cons, xorAll_cons, xorAll_cons, Bool.xor_left_comm]
  | trans _ _ ih ih' => exact ih.trans ih'

theorem xorAll_map_filter {A : Type*} (p f : A → Bool) (l : List A) :
    xorAll ((l.filter p).map f) = xorAll (l.map fun a => p a && f a) := by
  induction l with
  | nil => rfl
  | cons a l ih =>
    rw [map_cons, xorAll_cons, ← ih, filter_cons]
    cases p a <;> simp

theorem xorAll_map_decide_eq {A : Type*} [DecidableEq A] {l : List A} (hl : l.Nodup) (a : A) :
    xorAll (l.map fun b => decide (b = a)) = decide (a ∈ l) := by
  induction l with
  | nil => simp
  | cons b l ih =>
    rw [nodup_cons] at hl
    rw [map_cons, xorAll_cons, ih hl.2]
    by_cases hba : b = a
    · subst hba
      simp [hl.1]
    · simp [hba, Ne.symm hba]

theorem xorAll_map_eq_decide_countP {A : Type*} (f : A → Bool) (l : List A) :
    xorAll (l.map f) = decide (l.countP f % 2 = 1) := by
  induction l with
  | nil => rfl
  | cons a l ih =>
    rw [map_cons, xorAll_cons, ih, countP_cons]
    cases f a with
    | true =>
      rw [if_pos rfl, Bool.true_xor, ← decide_not, decide_eq_decide]
      omega
    | false =>
      rw [Bool.false_xor]
      rfl

/-- A node over variables of type `B` with owners of type `G`. -/
inductive XorNode (B G : Type)
  | zero
  | basis (component : B)
  | xor (owner : G) (terms : List ℕ)

namespace XorNode

variable {B G : Type} (owner : B → G) (included : G → Bool) (ρ : B → Bool)

/-- The value of a node from the values of the nodes before it. -/
def eval (values : List Bool) : XorNode B G → Bool
  | zero => false
  | basis component => included (owner component) && ρ component
  | xor g terms => included g && xorAll (terms.map fun t => values.getD t false)

/-- The values of nodes, first to last. -/
def evalAll (nodes : List (XorNode B G)) : List Bool :=
  nodes.foldl (fun values node => values ++ [node.eval owner included ρ values]) []

/-- The value of the node at an index. -/
def value (nodes : List (XorNode B G)) (i : ℕ) : Bool :=
  (evalAll owner included ρ nodes).getD i false

/-- Sums have distinct terms before themselves, in order. -/
def Ordered (nodes : List (XorNode B G)) : Prop :=
  ∀ i g terms, nodes[i]? = some (xor g terms) → terms.Pairwise (· < ·) ∧ ∀ t ∈ terms, t < i

theorem evalAll_concat (nodes : List (XorNode B G)) (node : XorNode B G) :
    evalAll owner included ρ (nodes ++ [node]) = evalAll owner included ρ nodes ++
        [node.eval owner included ρ (evalAll owner included ρ nodes)] := by
  rw [evalAll, foldl_append]
  rfl

@[simp]
theorem length_evalAll (nodes : List (XorNode B G)) :
    (evalAll owner included ρ nodes).length = nodes.length := by
  induction nodes using List.reverseRecOn with
  | nil => rfl
  | append_singleton nodes node ih =>
    rw [evalAll_concat, length_append, ih, length_append]
    rfl

theorem value_append (nodes more : List (XorNode B G)) {i : ℕ} (hi : i < nodes.length) :
    value owner included ρ (nodes ++ more) i = value owner included ρ nodes i := by
  induction more using List.reverseRecOn with
  | nil => rw [append_nil]
  | append_singleton more node ih =>
    have hlt : i < (evalAll owner included ρ (nodes ++ more)).length := by
      rw [length_evalAll, length_append]
      omega
    rw [← ih, value, ← append_assoc, evalAll_concat, value, getD_eq_getElem?_getD,
      getElem?_append_left hlt, ← getD_eq_getElem?_getD]

theorem value_concat (nodes : List (XorNode B G)) (node : XorNode B G) :
    value owner included ρ (nodes ++ [node]) nodes.length =
      node.eval owner included ρ (evalAll owner included ρ nodes) := by
  rw [value, evalAll_concat, getD_eq_getElem?_getD, getElem?_append_right (by simp)]
  simp

variable {nodes : List (XorNode B G)}

theorem value_eq (hnodes : Ordered nodes) {i : ℕ} {node : XorNode B G}
    (hnode : nodes[i]? = some node) : value owner included ρ nodes i =
      node.eval owner included ρ (evalAll owner included ρ nodes) := by
  obtain ⟨hi, rfl⟩ := List.getElem?_eq_some_iff.mp hnode
  have hsplit : nodes = nodes.take i ++ [nodes[i]] ++ nodes.drop (i + 1) := by simp
  have hlength : (nodes.take i).length = i := by
    rw [List.length_take]
    omega
  have hvalue : value owner included ρ nodes i =
      (nodes[i]).eval owner included ρ (evalAll owner included ρ (nodes.take i)) := by
    have hlast := value_concat owner included ρ (nodes.take i) nodes[i]
    rw [hlength] at hlast
    have happend := value_append owner included ρ (nodes.take i ++ [nodes[i]])
      (nodes.drop (i + 1)) (i := i) (by rw [length_append, hlength]; exact Nat.lt_succ_self i)
    rw [← hsplit] at happend
    exact happend.trans hlast
  rw [hvalue]
  cases hcase : nodes[i] with
  | zero => rfl
  | basis component => rfl
  | xor g terms =>
    have hterms := (hnodes i g terms (by rw [← hcase]; exact hnode)).2
    refine congrArg (included g && xorAll ·) (map_congr_left fun t ht => ?_)
    have ht' : t < (nodes.take i).length := (hterms t ht).trans_eq hlength.symm
    have happend := value_append owner included ρ (nodes.take i) (nodes.drop i) ht'
    rw [take_append_drop] at happend
    exact happend.symm

/-- Toggle the membership of a term, and queue it when it becomes a member. -/
def toggle (queue : List ℕ × List ℕ) (term : ℕ) : List ℕ × List ℕ :=
  if term ∈ queue.2 then (queue.1, queue.2.erase term)
  else (queue.1.orderedInsert (· ≥ ·) term, term :: queue.2)

/-- Collect the variables of the active nodes, greatest node first; `none` is a missing node or a
loop that is longer than its bound. -/
def collect (nodes : List (XorNode B G)) :
    ℕ → List ℕ × List ℕ → List B → Option (List B)
  | 0, _, _ => none
  | _ + 1, ([], _), components => some components
  | fuel + 1, (node :: pending, active), components =>
    if node ∈ active then
      match nodes[node]? with
      | none => none
      | some zero => collect nodes fuel (pending, active.erase node) components
      | some (basis component) =>
        collect nodes fuel (pending, active.erase node)
          (if included (owner component) then components ++ [component] else components)
      | some (xor g terms) =>
        if included g then
          collect nodes fuel (terms.foldl toggle (pending, active.erase node)) components
        else collect nodes fuel (pending, active.erase node) components
    else collect nodes fuel (pending, active) components

/-- The weight of a queue bounds the number of its turns. -/
def weight (pending : List ℕ) : ℕ :=
  (pending.map (2 ^ ·)).sum

theorem weight_lt {terms : List ℕ} (hterms : terms.Pairwise (· < ·)) {n : ℕ}
    (hn : ∀ t ∈ terms, t < n) : weight terms < 2 ^ n := by
  have hcons : ∀ (l : List ℕ) (t : ℕ), (t :: l).Pairwise (· < ·) → (∀ u ∈ t :: l, u < n) →
      weight (t :: l) + 2 ^ t ≤ 2 ^ n := by
    intro l
    induction l with
    | nil =>
      intro t _ ht
      calc
        weight [t] + 2 ^ t = 2 ^ (t + 1) := by simp [weight, Nat.pow_succ, Nat.mul_two]
        _ ≤ 2 ^ n := Nat.pow_le_pow_right (by omega) (ht t (by simp))
    | cons u l ih =>
      intro t hpairwise hall
      rw [pairwise_cons] at hpairwise
      have hu := ih u hpairwise.2 fun w hw => hall w (mem_cons_of_mem _ hw)
      have htu : 2 ^ (t + 1) ≤ 2 ^ u :=
        Nat.pow_le_pow_right (by omega) (hpairwise.1 u (by simp))
      have hsum : weight (t :: u :: l) = 2 ^ t + weight (u :: l) := by simp [weight]
      omega
  cases terms with
  | nil => exact Nat.two_pow_pos n
  | cons t l =>
    have := hcons l t hterms hn
    have := Nat.two_pow_pos t
    omega

/-- The members of a queue are queued, once, and weigh at most a bound. -/
structure Queued (queue : List ℕ × List ℕ) : Prop where
  nodup : queue.2.Nodup
  sorted : queue.1.Pairwise (· ≥ ·)
  mem : ∀ i ∈ queue.2, i ∈ queue.1

variable {queue : List ℕ × List ℕ}

theorem Queued.toggle (h : Queued queue) (term : ℕ) (f : ℕ → Bool) : Queued (toggle queue term) ∧
      weight (XorNode.toggle queue term).1 ≤ weight queue.1 + 2 ^ term ∧
      (∀ i ∈ (XorNode.toggle queue term).1, i ∈ queue.1 ∨ i = term) ∧
      xorAll ((XorNode.toggle queue term).2.map f) = (xorAll (queue.2.map f) ^^ f term) := by
  rw [XorNode.toggle]
  split_ifs with hterm
  · refine ⟨⟨h.nodup.erase term, h.sorted, fun i hi => h.mem i (mem_of_mem_erase hi)⟩,
      Nat.le_add_right _ _, fun i hi => .inl hi, ?_⟩
    have hperm := (perm_cons_erase hterm).map f
    rw [xorAll_perm hperm, map_cons, xorAll_cons, Bool.xor_comm (f term), Bool.xor_assoc,
      Bool.xor_self, Bool.xor_false]
  · have hperm := perm_orderedInsert (· ≥ ·) term queue.1
    refine ⟨⟨nodup_cons.mpr ⟨hterm, h.nodup⟩, ?_, ?_⟩, ?_, ?_, ?_⟩
    · exact h.sorted.orderedInsert term queue.1
    · intro i hi
      rw [hperm.mem_iff, mem_cons]
      exact (mem_cons.mp hi).imp_right (h.mem i)
    · rw [weight, ((hperm.map _).sum_eq), map_cons, sum_cons, Nat.add_comm]
      rfl
    · intro i hi
      rw [hperm.mem_iff, mem_cons] at hi
      exact hi.symm
    · rw [map_cons, xorAll_cons, Bool.xor_comm]

theorem Queued.foldl_toggle (f : ℕ → Bool) (terms : List ℕ) (h : Queued queue) :
    Queued (terms.foldl XorNode.toggle queue) ∧
      weight (terms.foldl XorNode.toggle queue).1 ≤ weight queue.1 + weight terms ∧
      (∀ i ∈ (terms.foldl XorNode.toggle queue).1, i ∈ queue.1 ∨ i ∈ terms) ∧
      xorAll ((terms.foldl XorNode.toggle queue).2.map f) =
        (xorAll (queue.2.map f) ^^ xorAll (terms.map f)) := by
  induction terms generalizing queue with
  | nil => exact ⟨h, Nat.le_add_right _ _, fun i hi => .inl hi, (Bool.xor_false _).symm⟩
  | cons term terms ih =>
    obtain ⟨hqueued, hweight, hmem, hsum⟩ := h.toggle term f
    obtain ⟨hqueued', hweight', hmem', hsum'⟩ := ih hqueued
    refine ⟨hqueued', ?_, ?_, ?_⟩
    · have hcons : weight (term :: terms) = 2 ^ term + weight terms := by simp [weight]
      rw [foldl_cons]
      omega
    · intro i hi
      rcases hmem' i hi with hi' | hi'
      · rcases hmem i hi' with hold | rfl
        · exact .inl hold
        · exact .inr mem_cons_self
      · exact .inr (mem_cons_of_mem _ hi')
    · rw [foldl_cons, hsum', hsum, map_cons, xorAll_cons, Bool.xor_assoc]

/-- Each variable has one node. -/
def Distinct (nodes : List (XorNode B G)) : Prop :=
  ∀ (i j : ℕ) (component : B), nodes[i]? = some (basis component) → nodes[j]? = some
    (basis component) → i = j

/-- What the loop has collected: variables of nodes after all active ones. -/
structure Collected (nodes : List (XorNode B G)) (active : List ℕ) (components : List B) :
    Prop where
  nodup : components.Nodup
  after : ∀ component ∈ components, ∃ j : ℕ, nodes[j]? = some (basis component) ∧ ∀ i ∈ active,
    i < j

theorem Queued.pop {node : ℕ} {pending active : List ℕ} (h : Queued (node :: pending, active)) :
    Queued (pending, active.erase node) ∧ ∀ i ∈ active.erase node, i < node := by
  obtain ⟨hnodup, hsorted, hmem⟩ := h
  rw [pairwise_cons] at hsorted
  have hne : ∀ i ∈ active.erase node, i ≠ node := by
    rintro i hi rfl
    exact hnodup.not_mem_erase hi
  have hmem' : ∀ i ∈ active.erase node, i ∈ pending := fun i hi =>
    (mem_cons.mp (hmem i (mem_of_mem_erase hi))).resolve_left (hne i hi)
  exact ⟨⟨hnodup.erase node, hsorted.2, hmem'⟩, fun i hi =>
    lt_of_le_of_ne (hsorted.1 i (hmem' i hi)) (hne i hi)⟩

variable {components : List B}

theorem Collected.of_le {active active' : List ℕ}
    (h : Collected nodes active components) (hle : ∀ i ∈ active', ∃ k ∈ active, i ≤ k) :
    Collected nodes active' components := by
  refine ⟨h.nodup, fun component hcomponent => ?_⟩
  obtain ⟨j, hj, hlt⟩ := h.after component hcomponent
  refine ⟨j, hj, fun i hi => ?_⟩
  obtain ⟨k, hk, hik⟩ := hle i hi
  exact hik.trans_lt (hlt k hk)

theorem Collected.concat {active active' : List ℕ}
    (h : Collected nodes active components) (hdistinct : Distinct nodes)
    {node : ℕ} {component : B} (hnode : nodes[node]? = some (basis component))
    (hactive : node ∈ active) (hlt : ∀ i ∈ active', i < node) :
    Collected nodes active' (components ++ [component]) := by
  have hnew : component ∉ components := by
    intro hcomponent
    obtain ⟨j, hj, hafter⟩ := h.after component hcomponent
    exact Nat.ne_of_lt (hafter node hactive) (hdistinct node j component hnode hj)
  constructor
  · rw [← concat_eq_append]
    exact h.nodup.concat hnew
  · intro component' hcomponent'
    rcases mem_append.mp hcomponent' with hold | hlast
    · exact (h.of_le fun i hi => ⟨node, hactive, (hlt i hi).le⟩).after component' hold
    · rw [mem_singleton.mp hlast]
      exact ⟨node, hnode, hlt⟩

variable {owner included}

theorem exists_collect_eq (hnodes : Ordered nodes) (hdistinct : Distinct nodes) (fuel : ℕ)
    (hqueue : Queued queue) (hlength : ∀ i ∈ queue.1, i < nodes.length)
    (hfuel : weight queue.1 < fuel) (hcollected : Collected nodes queue.2 components) :
    ∃ components', collect owner included nodes fuel queue components = some components' ∧
      components'.Nodup ∧ ∀ ρ, xorAll (components'.map ρ) = (xorAll (components.map ρ) ^^
        xorAll (queue.2.map (value owner included ρ nodes))) := by
  induction fuel generalizing queue components with
  | zero => exact absurd hfuel (Nat.not_lt_zero _)
  | succ fuel ih =>
    obtain ⟨pending, active⟩ := queue
    cases pending with
    | nil =>
      have hnil : active = [] := eq_nil_iff_forall_not_mem.mpr fun i hi =>
        absurd (hqueue.mem i hi) not_mem_nil
      subst hnil
      exact ⟨components, rfl, hcollected.nodup, fun ρ => (Bool.xor_false _).symm⟩
    | cons node pending =>
      obtain ⟨hpop, hbelow⟩ := hqueue.pop
      simp only at hlength hfuel hcollected ⊢
      have hweight : weight (node :: pending) = 2 ^ node + weight pending := by simp [weight]
      have hpos := Nat.two_pow_pos node
      have hpending : ∀ i ∈ pending, i < nodes.length :=
        fun i hi => hlength i (mem_cons_of_mem _ hi)
      rw [collect]
      split_ifs with hactive
      · -- The greatest node is expanded: what it stands for replaces it in the sum.
        have hsum : ∀ f : ℕ → Bool,
            xorAll (active.map f) = (f node ^^ xorAll ((active.erase node).map f)) :=
          fun f => xorAll_perm ((perm_cons_erase hactive).map f)
        have hkept : Collected nodes (active.erase node) components :=
          hcollected.of_le fun i hi => ⟨i, mem_of_mem_erase hi, le_refl i⟩
        obtain ⟨entry, hnode⟩ : ∃ entry, nodes[node]? = some entry :=
          ⟨_, getElem?_eq_getElem (hlength node mem_cons_self)⟩
        have hvalue := fun ρ => value_eq owner included ρ hnodes hnode
        rw [hnode]
        cases entry with
        | zero =>
          obtain ⟨result, hresult, hresult', hρ⟩ :=
            ih hpop hpending (by simp only; omega) hkept
          refine ⟨result, hresult, hresult', fun ρ => ?_⟩
          rw [hρ, hsum, hvalue]
          exact (congrArg _ (Bool.false_xor _)).symm
        | basis component =>
          cases hincluded : included (owner component) with
          | false =>
            obtain ⟨result, hresult, hresult', hρ⟩ :=
              ih hpop hpending (by simp only; omega) hkept
            refine ⟨result, ?_, hresult', fun ρ => ?_⟩
            · simp only [hincluded]
              exact hresult
            · rw [hρ, hsum, hvalue, eval, hincluded, Bool.false_and, Bool.false_xor]
          | true =>
            obtain ⟨result, hresult, hresult', hρ⟩ :=
              ih hpop hpending (by simp only; omega)
                (hcollected.concat hdistinct hnode hactive hbelow)
            refine ⟨result, ?_, hresult', fun ρ => ?_⟩
            · simp only [hincluded]
              exact hresult
            · rw [hρ, hsum, hvalue, eval, hincluded, Bool.true_and, map_append,
                xorAll_append, Bool.xor_assoc]
              simp
        | xor g terms =>
          obtain ⟨hterms, hbefore⟩ := hnodes node g terms hnode
          cases hincluded : included g with
          | false =>
            obtain ⟨result, hresult, hresult', hρ⟩ :=
              ih hpop hpending (by simp only; omega) hkept
            refine ⟨result, ?_, hresult', fun ρ => ?_⟩
            · simp only [hincluded]
              exact hresult
            · rw [hρ, hsum, hvalue, eval, hincluded, Bool.false_and, Bool.false_xor]
          | true =>
            have hfold := fun f => hpop.foldl_toggle f terms
            obtain ⟨hqueued, hlight, hpush, -⟩ := hfold fun _ => false
            have hlt := weight_lt hterms hbefore
            have hsorted := (pairwise_cons.mp hqueue.sorted).1
            have hcollected' : Collected nodes
                (terms.foldl toggle (pending, active.erase node)).2 components := by
              refine hcollected.of_le fun i hi => ⟨node, hactive, ?_⟩
              rcases hpush i (hqueued.mem i hi) with hold | hterm
              · exact hsorted i hold
              · exact (hbefore i hterm).le
            have hlength' : ∀ i ∈ (terms.foldl toggle (pending, active.erase node)).1,
                i < nodes.length := by
              intro i hi
              rcases hpush i hi with hold | hterm
              · exact hpending i hold
              · exact (hbefore i hterm).trans (hlength node mem_cons_self)
            obtain ⟨result, hresult, hresult', hρ⟩ :=
              ih hqueued hlength' (by simp only at hlight; omega) hcollected'
            refine ⟨result, ?_, hresult', fun ρ => ?_⟩
            · simp only [hincluded]
              exact hresult
            · rw [hρ, (hfold _).2.2.2, hsum, hvalue, eval, hincluded, Bool.true_and,
                Bool.xor_comm (xorAll ((active.erase node).map _))]
              rfl
      · rw [erase_of_not_mem hactive] at hpop
        exact ih hpop hpending (by simp only; omega) hcollected

theorem exists_collect_root_eq (hnodes : Ordered nodes)
    (hdistinct : Distinct nodes) {root : ℕ} (hroot : root < nodes.length) :
    ∃ components, collect owner included nodes (2 ^ root + 1) ([root], [root]) [] =
        some components ∧
      components.Nodup ∧ ∀ ρ, xorAll (components.map ρ) = value owner included ρ nodes root := by
  have hqueue : Queued ([root], [root]) :=
    ⟨nodup_singleton _, pairwise_singleton _ _, fun _ hi => hi⟩
  obtain ⟨components, hcomponents, hnodup, hρ⟩ := exists_collect_eq hnodes hdistinct
    (2 ^ root + 1) hqueue (by simpa using hroot) (by simp [weight]) ⟨nodup_nil, by simp⟩
  refine ⟨components, hcomponents, hnodup, fun ρ => ?_⟩
  rw [hρ]
  simp

end XorNode

end QdkEc
