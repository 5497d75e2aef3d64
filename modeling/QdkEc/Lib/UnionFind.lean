import Mathlib.Algebra.BigOperators.Group.Finset.Basic

/-!
# Union-find with payloads

This module develops disjoint sets as a forest of parent links with a payload at the
root of each set.  Looking up a root compresses the path to it, and joining two sets
merges their payloads.  Under a measure that is additive for merges, the payload of a
root measures the whole set of its members, in any order of lookups, unions and
changes of payloads.
-/

namespace QdkEc

open List Option

/-- A forest of parent links; the payloads of the roots count. -/
structure UnionFind (N : Type) where
  linkParent : List ℕ
  payload : List N

namespace UnionFind

variable {N : Type}

/-- A forest without nodes. -/
def empty : UnionFind N where
  linkParent := []
  payload := []

/-- Add a set of one node. -/
def insert (uf : UnionFind N) (data : N) : UnionFind N × ℕ :=
  (⟨uf.linkParent ++ [uf.payload.length], uf.payload ++ [data]⟩, uf.payload.length)

/-- Follow the links to a root, with the nodes on the way; `none` is a link out of range or a walk
that is longer than its bound. -/
def walk (links : List ℕ) : ℕ → ℕ → List ℕ → Option (ℕ × List ℕ)
  | 0, _, _ => none
  | fuel + 1, key, path => do
      let parent ← links[key]?
      if parent = key then some (key, path) else walk links fuel parent (path ++ [key])

/-- The root of a node; the nodes on the way are linked to it. -/
def find (uf : UnionFind N) (key : ℕ) :
    Option (UnionFind N × ℕ) := do
  let found ← walk uf.linkParent uf.linkParent.length key []
  some ({ uf with linkParent := found.2.foldl (fun links k => links.set k found.1) uf.linkParent },
    found.1)

/-- Join the sets of two nodes; the merge tells whether the left root stays one. -/
def union (merge : N → N → Bool × N) (uf : UnionFind N) (key0 key1 : ℕ) :
    Option (UnionFind N × Bool) := do
  let first ← uf.find key0
  let second ← first.1.find key1
  if first.2 = second.2 then some (second.1, false)
  else
    let left ← second.1.payload[first.2]?
    let right ← second.1.payload[second.2]?
    let parent := if (merge left right).1 then first.2 else second.2
    let child := if (merge left right).1 then second.2 else first.2
    some (⟨second.1.linkParent.set child parent,
      second.1.payload.set parent (merge left right).2⟩, true)

/-- Change the payload of the set of a node, which is returned. -/
def modify (uf : UnionFind N) (key : ℕ) (f : N → Option N) :
    Option (UnionFind N × N) := do
  let found ← uf.find key
  let node ← found.1.payload[found.2]?
  let node ← f node
  some ({ found.1 with payload := found.1.payload.set found.2 node }, node)

/-- The links lead to the roots, along growing ranks. -/
structure Forest (uf : UnionFind N) (root rank : ℕ → ℕ) : Prop where
  length : uf.linkParent.length = uf.payload.length
  parent_lt : ∀ {k parent : ℕ}, uf.linkParent[k]? = some parent → parent < uf.linkParent.length
  root_parent : ∀ {k parent : ℕ}, uf.linkParent[k]? = some parent → root parent = root k
  rank_lt : ∀ {k parent : ℕ}, uf.linkParent[k]? = some parent → parent ≠ k → rank k < rank parent
  root_self : ∀ {k : ℕ}, uf.linkParent[k]? = some k → root k = k
  root_lt : ∀ {k}, k < uf.linkParent.length → root k < uf.linkParent.length
  root_link : ∀ {k}, k < uf.linkParent.length → uf.linkParent[root k]? = some (root k)
  rank_root : ∀ {k}, k < uf.linkParent.length → root k ≠ k → rank k < rank (root k)

section Forest

variable {uf : UnionFind N} {root rank : ℕ → ℕ} (h : uf.Forest root rank)

include h

theorem Forest.root_root {k : ℕ} (hk : k < uf.linkParent.length) : root (root k) = root k :=
  h.root_self (h.root_link hk)

theorem Forest.exists_walk_eq (fuel : ℕ) {key : ℕ} {path : List ℕ}
    (hkey : key < uf.linkParent.length) (hnodup : path.Nodup)
    (hpath : ∀ j ∈ path, j < uf.linkParent.length ∧ root j = root key ∧ rank j < rank key)
    (hfuel : uf.linkParent.length ≤ path.length + fuel) :
    ∃ path', walk uf.linkParent fuel key path = some (root key, path') ∧
      ∀ j ∈ path', j < uf.linkParent.length ∧ root j = root key := by
  induction fuel generalizing key path with
  | zero =>
    have hfresh : key ∉ path := fun hmem => Nat.lt_irrefl _ (hpath key hmem).2.2
    have hsubset : key :: path ⊆ List.range uf.linkParent.length := by
      intro j hj
      rw [mem_range]
      rcases mem_cons.mp hj with rfl | hj
      · exact hkey
      · exact (hpath j hj).1
    have hle := ((nodup_cons.mpr ⟨hfresh, hnodup⟩).subperm hsubset).length_le
    rw [length_cons, length_range] at hle
    omega
  | succ fuel ih =>
    have hparent := getElem?_eq_getElem hkey
    rw [walk, hparent, bind_eq_bind, bind_some]
    split_ifs with heq
    · rw [heq] at hparent
      rw [h.root_self hparent]
      exact ⟨path, rfl, fun j hj => ⟨(hpath j hj).1, by rw [(hpath j hj).2.1, h.root_self hparent]⟩⟩
    · have hrank := h.rank_lt hparent heq
      have hroot := h.root_parent hparent
      have hfresh : key ∉ path := fun hmem => Nat.lt_irrefl _ (hpath key hmem).2.2
      have hpath' : ∀ j ∈ path ++ [key], j < uf.linkParent.length ∧
          root j = root uf.linkParent[key] ∧ rank j < rank uf.linkParent[key] := by
        intro j hj
        rcases mem_append.mp hj with hold | hlast
        · obtain ⟨hlt, hsame, hless⟩ := hpath j hold
          exact ⟨hlt, hsame.trans hroot.symm, hless.trans hrank⟩
        · rw [mem_singleton.mp hlast]
          exact ⟨hkey, hroot.symm, hrank⟩
      have hnodup' : (path ++ [key]).Nodup := by
        rw [← concat_eq_append]
        exact hnodup.concat hfresh
      obtain ⟨path', hwalk, hall⟩ := ih (h.parent_lt hparent) hnodup' hpath'
        (by rw [length_append, length_singleton]; omega)
      rw [hroot] at hwalk hall
      exact ⟨path', hwalk, hall⟩

theorem Forest.compress {k : ℕ} (hk : k < uf.linkParent.length) :
    Forest { uf with linkParent := uf.linkParent.set k (root k) } root rank where
  length := List.length_set.trans h.length
  parent_lt {j parent} hj := by
    rw [List.length_set]
    rw [getElem?_set] at hj
    split_ifs at hj with hkj
    · rw [← some_inj.mp hj]
      exact h.root_lt hk
    · exact h.parent_lt hj
  root_parent {j parent} hj := by
    rw [getElem?_set] at hj
    split_ifs at hj with hkj
    · rw [← some_inj.mp hj, ← hkj]
      exact h.root_root hk
    · exact h.root_parent hj
  rank_lt {j parent} hj hne := by
    rw [getElem?_set] at hj
    split_ifs at hj with hkj
    · subst hkj
      rw [← some_inj.mp hj] at hne ⊢
      exact h.rank_root hk hne
    · exact h.rank_lt hj hne
  root_self {j} hj := by
    rw [getElem?_set] at hj
    split_ifs at hj with hkj
    · rw [← hkj] at hj ⊢
      exact some_inj.mp hj
    · exact h.root_self hj
  root_lt hj := by
    rw [List.length_set] at hj ⊢
    exact h.root_lt hj
  root_link {j} hj := by
    rw [List.length_set] at hj
    rw [getElem?_set]
    split_ifs with hkj
    · rw [hkj, h.root_root hj]
    · exact h.root_link hj
  rank_root hj := by
    rw [List.length_set] at hj
    exact h.rank_root hj

theorem Forest.exists_find_eq {key : ℕ} (hkey : key < uf.linkParent.length) :
    ∃ uf', uf.find key = some (uf', root key) ∧ uf'.Forest root rank ∧
      uf'.payload = uf.payload ∧ uf'.linkParent.length = uf.linkParent.length := by
  obtain ⟨path, hwalk, hpath⟩ := h.exists_walk_eq uf.linkParent.length hkey nodup_nil
    (fun j hj => absurd hj not_mem_nil) (Nat.le_add_left _ _)
  have hcompress : ∀ (path : List ℕ) (links : List ℕ),
      Forest { uf with linkParent := links } root rank → links.length = uf.linkParent.length →
      (∀ j ∈ path, j < uf.linkParent.length ∧ root j = root key) →
        Forest { uf with
          linkParent := path.foldl (fun links k => links.set k (root key)) links } root rank ∧
          (path.foldl (fun links k => links.set k (root key)) links).length =
            uf.linkParent.length := by
    intro path
    induction path with
    | nil => exact fun links hforest hlength _ => ⟨hforest, hlength⟩
    | cons k path ih =>
      intro links hforest hlength hall
      obtain ⟨hk, hroot⟩ := hall k mem_cons_self
      have hnext := hforest.compress (k := k) (hlength ▸ hk)
      rw [hroot] at hnext
      exact ih _ hnext (List.length_set.trans hlength)
        fun j hj => hall j (mem_cons_of_mem _ hj)
  obtain ⟨hforest, hlength⟩ := hcompress path uf.linkParent h rfl hpath
  refine ⟨_, ?_, hforest, rfl, hlength⟩
  rw [find, hwalk]
  rfl

theorem Forest.setPayload (payload : List N) (hlength : payload.length = uf.payload.length) :
    Forest { uf with payload := payload } root rank :=
  { h with length := h.length.trans hlength.symm }

theorem Forest.link {parent child : ℕ} (hparent : parent < uf.linkParent.length)
    (hchild : child < uf.linkParent.length) (hparentRoot : root parent = parent)
    (hchildRoot : root child = child) (hne : parent ≠ child) :
    Forest { uf with linkParent := uf.linkParent.set child parent }
      (fun k => if root k = child then parent else root k)
      (fun k => if root k = child then rank k else rank k + (rank child + 1)) := by
  have hparent' : root parent ≠ child := fun heq => hne (hparentRoot.symm.trans heq)
  have hbelow : ∀ {k}, k < uf.linkParent.length → root k = child → rank k ≤ rank child := by
    intro k hk hroot
    rcases eq_or_ne k child with rfl | hkne
    · exact le_rfl
    · have hlt := h.rank_root hk (by rw [hroot]; exact hkne.symm)
      rw [hroot] at hlt
      exact hlt.le
  refine
    { length := List.length_set.trans h.length
      parent_lt := fun {k p} hk => ?_
      root_parent := fun {k p} hk => ?_
      rank_lt := fun {k p} hk hkp => ?_
      root_self := fun {k} hk => ?_
      root_lt := fun {k} hk => ?_
      root_link := fun {k} hk => ?_
      rank_root := fun {k} hk hroot => ?_ }
  · rw [List.length_set]
    rw [getElem?_set] at hk
    split_ifs at hk with hck
    · rw [← some_inj.mp hk]
      exact hparent
    · exact h.parent_lt hk
  · rw [getElem?_set] at hk
    split_ifs at hk with hck
    · rw [← some_inj.mp hk, ← hck, if_neg hparent', if_pos hchildRoot, hparentRoot]
    · rw [h.root_parent hk]
  · rw [getElem?_set] at hk
    split_ifs at hk with hck
    · rw [← some_inj.mp hk, ← hck, if_neg hparent', if_pos hchildRoot]
      omega
    · rw [h.root_parent hk]
      have hrank := h.rank_lt hk hkp
      split_ifs <;> omega
  · rw [getElem?_set] at hk
    split_ifs at hk with hck
    · exact absurd (some_inj.mp hk) (hck ▸ hne)
    · have hself := h.root_self hk
      rw [hself, if_neg (fun heq => hck heq.symm)]
  · rw [List.length_set] at hk ⊢
    split_ifs
    · exact hparent
    · exact h.root_lt hk
  · rw [List.length_set] at hk
    split_ifs with hroot
    · rw [getElem?_set_ne hne.symm]
      have hlink := h.root_link hparent
      rwa [hparentRoot] at hlink
    · rw [getElem?_set_ne (Ne.symm hroot)]
      exact h.root_link hk
  · rw [List.length_set] at hk
    by_cases hin : root k = child
    · have hle := hbelow hk hin
      rw [if_pos hin, if_pos hin, if_neg hparent']
      omega
    · rw [if_neg hin] at hroot ⊢
      rw [if_neg hin, if_neg (by rw [h.root_root hk]; exact hin)]
      have hlt := h.rank_root hk hroot
      omega

/-- A new node is its own root. -/
theorem Forest.insert (data : N) : (uf.insert data).1.Forest
      (fun k => if k < uf.linkParent.length then root k else k) rank := by
  have hentry : ∀ {k p : ℕ}, (uf.linkParent ++ [uf.payload.length])[k]? = some p →
      uf.linkParent[k]? = some p ∧ k < uf.linkParent.length ∨
        k = uf.linkParent.length ∧ p = uf.linkParent.length := by
    intro k p hk
    rcases Nat.lt_or_ge k uf.linkParent.length with hlt | hge
    · rw [List.getElem?_append_left hlt] at hk
      exact .inl ⟨hk, hlt⟩
    · rw [getElem?_append_right hge, getElem?_singleton] at hk
      split_ifs at hk with hzero
      rw [← h.length] at hk
      exact .inr ⟨by omega, (some_inj.mp hk).symm⟩
  have hlength : (uf.insert data).1.linkParent.length = uf.linkParent.length + 1 := by
    simp [UnionFind.insert]
  refine
    { length := ?_
      parent_lt := fun {k p} hk => ?_
      root_parent := fun {k p} hk => ?_
      rank_lt := fun {k p} hk hkp => ?_
      root_self := fun {k} hk => ?_
      root_lt := fun {k} hk => ?_
      root_link := fun {k} hk => ?_
      rank_root := fun {k} hk hroot => ?_ }
  · rw [hlength, UnionFind.insert, length_append, h.length, length_singleton]
  · rw [hlength]
    rcases hentry hk with ⟨hold, -⟩ | ⟨-, rfl⟩
    · exact (h.parent_lt hold).trans (Nat.lt_succ_self _)
    · exact Nat.lt_succ_self _
  · rcases hentry hk with ⟨hold, hlt⟩ | ⟨rfl, rfl⟩
    · rw [if_pos (h.parent_lt hold), if_pos hlt, h.root_parent hold]
    · rfl
  · rcases hentry hk with ⟨hold, -⟩ | ⟨rfl, rfl⟩
    · exact h.rank_lt hold hkp
    · exact absurd rfl hkp
  · rcases hentry hk with ⟨hold, hlt⟩ | ⟨rfl, -⟩
    · rw [if_pos hlt, h.root_self hold]
    · exact if_neg (Nat.lt_irrefl _)
  · rw [hlength] at hk ⊢
    split_ifs with hlt
    · exact (h.root_lt hlt).trans (Nat.lt_succ_self _)
    · exact hk
  · change (uf.linkParent ++ [uf.payload.length])[_]? = _
    split_ifs with hlt
    · rw [List.getElem?_append_left (h.root_lt hlt)]
      exact h.root_link hlt
    · rw [getElem?_append_right (by omega), getElem?_singleton, if_pos (by omega), ← h.length]
      exact congrArg some (by omega)
  · split_ifs at hroot ⊢ with hlt
    · exact h.rank_root hlt hroot
    · exact absurd rfl hroot

end Forest

section Classes

variable {ι M : Type*} [AddCommMonoid M]

open scoped Classical in
/-- The sum of the weights of the members that are related to one. -/
noncomputable def classSum (S : Finset ι) (r : ι → ι → Prop) (w : ι → M) (a : ι) : M :=
  ∑ b ∈ S.filter (r a), w b

/-- A relation after the classes of two members are joined. -/
def Join (r : ι → ι → Prop) (a b x y : ι) : Prop :=
  r x y ∨ r x a ∧ r b y ∨ r x b ∧ r a y

theorem classSum_congr {S : Finset ι} {r r' : ι → ι → Prop} {w w' : ι → M} {a : ι}
    (hr : ∀ b ∈ S, r a b ↔ r' a b) (hw : ∀ b ∈ S, r a b → w b = w' b) :
    classSum S r w a = classSum S r' w' a := by
  classical
  rw [classSum, classSum, Finset.filter_congr hr]
  refine Finset.sum_congr rfl fun b hb => ?_
  rw [Finset.mem_filter] at hb
  exact hw b hb.1 ((hr b hb.1).mpr hb.2)

section Equivalence

variable {S : Finset ι} {r : ι → ι → Prop} (hr : Equivalence r) {w : ι → M}

include hr

theorem classSum_eq_of_rel {a b : ι} (hab : r a b) : classSum S r w a = classSum S r w b :=
  congrArg (fun p : ι → Prop => by
      classical
      exact ∑ c ∈ S.filter p, w c)
    (funext fun _ => propext ⟨hr.trans (hr.symm hab), hr.trans hab⟩)

theorem join_iff_of_rel {a b x y : ι} (hab : r a b) : Join r a b x y ↔ r x y := by
  refine ⟨?_, .inl⟩
  rintro (hxy | ⟨hxa, hby⟩ | ⟨hxb, hay⟩)
  · exact hxy
  · exact hr.trans hxa (hr.trans hab hby)
  · exact hr.trans hxb (hr.trans (hr.symm hab) hay)

theorem classSum_join {a b x : ι} (hab : ¬ r a b) (hx : r x a ∨ r x b) :
    classSum S (Join r a b) w x = classSum S r w a + classSum S r w b := by
  classical
  have hdisjoint : Disjoint (S.filter (r a)) (S.filter (r b)) := by
    refine Finset.disjoint_filter.mpr fun c _ hac hbc => hab (hr.trans hac (hr.symm hbc))
  rw [classSum, classSum, classSum, ← Finset.sum_union hdisjoint, ← Finset.filter_or]
  refine Finset.sum_congr (Finset.filter_congr fun c _ => ?_) fun _ _ => rfl
  constructor
  · rintro (hxc | ⟨-, hbc⟩ | ⟨-, hac⟩)
    · exact hx.imp (fun hxa => hr.trans (hr.symm hxa) hxc) fun hxb => hr.trans (hr.symm hxb) hxc
    · exact .inr hbc
    · exact .inl hac
  · rintro (hac | hbc)
    · rcases hx with hxa | hxb
      · exact .inl (hr.trans hxa hac)
      · exact .inr (.inr ⟨hxb, hac⟩)
    · rcases hx with hxa | hxb
      · exact .inr (.inl ⟨hxa, hbc⟩)
      · exact .inl (hr.trans hxb hbc)

omit hr in
theorem classSum_join_of_not {a b x : ι} (hxa : ¬ r x a) (hxb : ¬ r x b) :
    classSum S (Join r a b) w x = classSum S r w x := by
  refine classSum_congr (fun c _ => ⟨?_, .inl⟩) fun _ _ _ => rfl
  rintro (hxc | ⟨hxa', -⟩ | ⟨hxb', -⟩)
  · exact hxc
  · exact absurd hxa' hxa
  · exact absurd hxb' hxb

theorem join_equivalence (a b : ι) : Equivalence (Join r a b) where
  refl x := .inl (hr.refl x)
  symm := by
    rintro x y (hxy | ⟨hxa, hby⟩ | ⟨hxb, hay⟩)
    · exact .inl (hr.symm hxy)
    · exact .inr (.inr ⟨hr.symm hby, hr.symm hxa⟩)
    · exact .inr (.inl ⟨hr.symm hay, hr.symm hxb⟩)
  trans := by
    rintro x y z (hxy | ⟨hxa, hby⟩ | ⟨hxb, hay⟩) (hyz | ⟨hya, hbz⟩ | ⟨hyb, haz⟩)
    · exact .inl (hr.trans hxy hyz)
    · exact .inr (.inl ⟨hr.trans hxy hya, hbz⟩)
    · exact .inr (.inr ⟨hr.trans hxy hyb, haz⟩)
    · exact .inr (.inl ⟨hxa, hr.trans hby hyz⟩)
    · exact .inr (.inl ⟨hxa, hbz⟩)
    · exact .inl (hr.trans hxa haz)
    · exact .inr (.inr ⟨hxb, hr.trans hay hyz⟩)
    · exact .inl (hr.trans hxb hbz)
    · exact .inr (.inr ⟨hxb, haz⟩)

end Equivalence

theorem eqvGen_edge (r : ι → ι → Prop) (a b x y : ι) :
    Relation.EqvGen (fun x y => r x y ∨ x = a ∧ y = b) x y ↔ Join (Relation.EqvGen r) a b x y := by
  have hjoin := join_equivalence (Relation.EqvGen.is_equivalence r) a b
  constructor
  · intro h
    induction h with
    | rel x y hxy =>
      rcases hxy with hxy | ⟨rfl, rfl⟩
      · exact .inl (.rel _ _ hxy)
      · exact .inr (.inl ⟨.refl _, .refl _⟩)
    | refl x => exact hjoin.refl x
    | symm x y _ ih => exact hjoin.symm ih
    | trans x y z _ _ ih ih' => exact hjoin.trans ih ih'
  · have hmono : ∀ {x y}, Relation.EqvGen r x y →
        Relation.EqvGen (fun x y => r x y ∨ x = a ∧ y = b) x y :=
      fun hxy => hxy.mono fun _ _ h => .inl h
    have hedge : Relation.EqvGen (fun x y => r x y ∨ x = a ∧ y = b) a b :=
      .rel _ _ (.inr ⟨rfl, rfl⟩)
    rintro (hxy | ⟨hxa, hby⟩ | ⟨hxb, hay⟩)
    · exact hmono hxy
    · exact (hmono hxa).trans _ _ _ (hedge.trans _ _ _ (hmono hby))
    · exact (hmono hxb).trans _ _ _ ((hedge.symm _ _).trans _ _ _ (hmono hay))

/-- The classes of several members are joined with the class of one. -/
def joinAll (r : ι → ι → Prop) (a : ι) (l : List ι) : ι → ι → Prop :=
  l.foldl (fun r b => Join r a b) r

theorem eqvGen_edges (r : ι → ι → Prop) (a : ι) (l : List ι) :
    Relation.EqvGen (fun x y => r x y ∨ x = a ∧ y ∈ l) = joinAll (Relation.EqvGen r) a l := by
  induction l generalizing r with
  | nil =>
    refine congrArg Relation.EqvGen (funext fun x => funext fun y => propext ?_)
    simp
  | cons b l ih =>
    have hedge : Join (Relation.EqvGen r) a b =
        Relation.EqvGen fun x y => r x y ∨ x = a ∧ y = b :=
      funext fun x => funext fun y => propext (eqvGen_edge r a b x y).symm
    have hstep := ih fun x y => r x y ∨ x = a ∧ y = b
    rw [← hedge] at hstep
    refine Eq.trans (congrArg Relation.EqvGen (funext fun x => funext fun y => propext ?_)) hstep
    rw [mem_cons]
    tauto

theorem joinAll_iff_of_not {r : ι → ι → Prop} (hr : Equivalence r) {a x : ι} {l : List ι}
    (ha : ¬ r x a) (hl : ∀ b ∈ l, ¬ r x b) (y : ι) : joinAll r a l x y ↔ r x y := by
  induction l generalizing r with
  | nil => exact Iff.rfl
  | cons b l ih =>
    have hb := hl b mem_cons_self
    have hkeep : ∀ z, Join r a b x z ↔ r x z := by
      refine fun z => ⟨?_, .inl⟩
      rintro (hxz | ⟨hxa, -⟩ | ⟨hxb, -⟩)
      · exact hxz
      · exact absurd hxa ha
      · exact absurd hxb hb
    refine (ih (join_equivalence hr a b) (mt (hkeep a).mp ha) fun c hc => ?_).trans (hkeep y)
    exact mt (hkeep c).mp (hl c (mem_cons_of_mem _ hc))

section Relabel

variable {r : ι → ι → Prop} {S : Finset ι} (root : ι → ℕ) {a b : ι} {parent child : ℕ}

theorem relabel_of_classes (hclass : ∀ c ∈ S, ∀ d ∈ S, root c = root d ↔ r c d) (ha : a ∈ S)
    (hb : b ∈ S) (hends : parent = root a ∧ child = root b ∨ parent = root b ∧ child = root a)
    {c : ι} (hc : c ∈ S) : (r c a ∨ r c b → (if root c = child then parent else root c) = parent) ∧
      (¬ (r c a ∨ r c b) →
        (if root c = child then parent else root c) = root c ∧ root c ≠ parent) := by
  have hmember : root c = parent ∨ root c = child ↔ r c a ∨ r c b := by
    rw [← hclass c hc a ha, ← hclass c hc b hb]
    rcases hends with ⟨rfl, rfl⟩ | ⟨rfl, rfl⟩
    · exact Iff.rfl
    · exact or_comm
  constructor
  · intro hjoined
    split_ifs with hin
    · rfl
    · exact (hmember.mpr hjoined).resolve_right hin
  · intro hapart
    rw [← hmember, not_or] at hapart
    exact ⟨if_neg hapart.2, hapart.1⟩

theorem relabel_eq_iff_join (hr : Equivalence r)
    (hclass : ∀ c ∈ S, ∀ d ∈ S, root c = root d ↔ r c d) (ha : a ∈ S) (hb : b ∈ S)
    (hends : parent = root a ∧ child = root b ∨ parent = root b ∧ child = root a) {c d : ι}
    (hc : c ∈ S) (hd : d ∈ S) :
    (if root c = child then parent else root c) = (if root d = child then parent else root d) ↔
      Join r a b c d := by
  obtain ⟨hroot, hroot'⟩ := relabel_of_classes root hclass ha hb hends hc
  obtain ⟨hrootd, hrootd'⟩ := relabel_of_classes root hclass ha hb hends hd
  by_cases hcj : r c a ∨ r c b
  · rw [hroot hcj]
    by_cases hdj : r d a ∨ r d b
    · rw [hrootd hdj]
      refine ⟨fun _ => ?_, fun _ => rfl⟩
      rcases hcj with hca | hcb
      · rcases hdj with hda | hdb
        · exact .inl (hr.trans hca (hr.symm hda))
        · exact .inr (.inl ⟨hca, hr.symm hdb⟩)
      · rcases hdj with hda | hdb
        · exact .inr (.inr ⟨hcb, hr.symm hda⟩)
        · exact .inl (hr.trans hcb (hr.symm hdb))
    · obtain ⟨heq, hneq⟩ := hrootd' hdj
      rw [heq]
      refine ⟨fun hparent => absurd hparent.symm hneq, fun hjoin => absurd ?_ hdj⟩
      rcases hjoin with hcd | ⟨-, hbd⟩ | ⟨-, had⟩
      · exact hcj.imp (hr.trans (hr.symm hcd)) (hr.trans (hr.symm hcd))
      · exact .inr (hr.symm hbd)
      · exact .inl (hr.symm had)
  · obtain ⟨heq, hneq⟩ := hroot' hcj
    rw [heq]
    by_cases hdj : r d a ∨ r d b
    · rw [hrootd hdj]
      refine ⟨fun hparent => absurd hparent hneq, fun hjoin => absurd ?_ hcj⟩
      rcases hjoin with hcd | ⟨hca, -⟩ | ⟨hcb, -⟩
      · exact hdj.imp (hr.trans hcd) (hr.trans hcd)
      · exact .inl hca
      · exact .inr hcb
    · rw [(hrootd' hdj).1, hclass c hc d hd]
      refine ⟨.inl, ?_⟩
      rintro (hcd | ⟨hca, -⟩ | ⟨hcb, -⟩)
      · exact hcd
      · exact absurd (.inl hca) hcj
      · exact absurd (.inr hcb) hcj

end Relabel

/-- The sets of a forest are the classes of a relation, and the payload of a root measures the
weights of its class. -/
def Tracks (uf : UnionFind N) (measure : N → M) (index : ι → ℕ) (S : Finset ι) (r : ι → ι → Prop)
    (w : ι → M) :
    Prop :=
  ∃ root rank, uf.Forest root rank ∧ (∀ a ∈ S, index a < uf.linkParent.length) ∧
    (∀ a ∈ S, ∀ b ∈ S, root (index a) = root (index b) ↔ r a b) ∧
    ∀ a ∈ S, ∃ node, uf.payload[root (index a)]? = some node ∧ measure node = classSum S r w a

section Tracks

variable {uf : UnionFind N} {measure : N → M} {index : ι → ℕ} {S : Finset ι}
variable {r : ι → ι → Prop} {w : ι → M}

theorem tracks_empty : (empty : UnionFind N).Tracks measure index (∅ : Finset ι) r w := by
  refine ⟨id, id, ⟨rfl, ?_, ?_, ?_, ?_, ?_, ?_, ?_⟩, by simp, by simp, by simp⟩
  all_goals
    intros
    simp_all [empty]

variable (h : uf.Tracks measure index S r w)

include h

/-- Only the members matter. -/
theorem Tracks.congr {index' : ι → ℕ} {r' : ι → ι → Prop} {w' : ι → M}
    (hindex : ∀ a ∈ S, index' a = index a) (hr : ∀ a ∈ S, ∀ b ∈ S, r a b ↔ r' a b)
    (hw : ∀ a ∈ S, w a = w' a) : uf.Tracks measure index' S r' w' := by
  obtain ⟨root, rank, hforest, hlt, hclass, hpayload⟩ := h
  refine ⟨root, rank, hforest, fun a ha => hindex a ha ▸ hlt a ha, fun a ha b hb => ?_,
    fun a ha => ?_⟩
  · rw [hindex a ha, hindex b hb, hclass a ha b hb, hr a ha b hb]
  · obtain ⟨node, hnode, hmeasure⟩ := hpayload a ha
    refine ⟨node, hindex a ha ▸ hnode, hmeasure.trans ?_⟩
    exact classSum_congr (hr a ha) fun b hb _ => hw b hb

theorem Tracks.restrict {T : Finset ι} (hsubset : T ⊆ S)
    (hclosed : ∀ a ∈ T, ∀ b ∈ S, r a b → b ∈ T) : uf.Tracks measure index T r w := by
  obtain ⟨root, rank, hforest, hlt, hclass, hpayload⟩ := h
  refine ⟨root, rank, hforest, fun a ha => hlt a (hsubset ha),
    fun a ha b hb => hclass a (hsubset ha) b (hsubset hb), fun a ha => ?_⟩
  obtain ⟨node, hnode, hmeasure⟩ := hpayload a (hsubset ha)
  refine ⟨node, hnode, hmeasure.trans ?_⟩
  classical
  refine Finset.sum_congr (Finset.ext fun b => ?_) fun _ _ => rfl
  rw [Finset.mem_filter, Finset.mem_filter]
  exact ⟨fun hb => ⟨hclosed a ha b hb.1 hb.2, hb.2⟩, fun hb => ⟨hsubset hb.1, hb.2⟩⟩

/-- A new node is a class of its own. -/
theorem Tracks.insert [DecidableEq ι] {a : ι} (ha : a ∉ S) (hself : r a a)
    (hnew : ∀ b ∈ S, ¬ r a b ∧ ¬ r b a) {data : N} (hdata : measure data = w a) :
    (uf.insert data).1.Tracks measure (Function.update index a (uf.insert data).2)
      (Insert.insert a S) r w := by
  obtain ⟨root, rank, hforest, hlt, hclass, hpayload⟩ := h
  have hindex : ∀ b ∈ S, Function.update index a (uf.insert data).2 b = index b := by
    intro b hb
    refine Function.update_of_ne ?_ _ _
    rintro rfl
    exact ha hb
  have hsecond : (uf.insert data).2 = uf.linkParent.length := hforest.length.symm
  have hlength : (uf.insert data).1.linkParent.length = uf.linkParent.length + 1 := by
    simp [UnionFind.insert]
  have hroot : ∀ b ∈ S, (if index b < uf.linkParent.length then root (index b) else index b) =
      root (index b) := fun b hb => if_pos (hlt b hb)
  have hsums : ∀ b ∈ S, classSum (Insert.insert a S) r w b = classSum S r w b := by
    classical
    intro b hb
    rw [classSum, classSum, Finset.filter_insert, if_neg (hnew b hb).2]
  have hsum : classSum (Insert.insert a S) r w a = w a := by
    classical
    rw [classSum, Finset.filter_insert, if_pos hself,
      Finset.filter_eq_empty_iff.mpr fun b hb => (hnew b hb).1]
    exact Finset.sum_singleton _ _
  refine ⟨_, _, hforest.insert data, fun b hb => ?_, fun b hb c hc => ?_, fun b hb => ?_⟩
  · rw [hlength]
    rcases Finset.mem_insert.mp hb with rfl | hb'
    · rw [Function.update_self, hsecond]
      exact Nat.lt_succ_self _
    · rw [hindex b hb']
      exact (hlt b hb').trans (Nat.lt_succ_self _)
  · rcases Finset.mem_insert.mp hb with rfl | hb'
    · rcases Finset.mem_insert.mp hc with rfl | hc'
      · exact ⟨fun _ => hself, fun _ => rfl⟩
      · rw [hindex c hc', Function.update_self, hsecond, hroot c hc', if_neg (Nat.lt_irrefl _)]
        have hrootLt := hforest.root_lt (hlt c hc')
        exact ⟨fun heq => absurd hrootLt (by omega), fun hbc => absurd hbc (hnew c hc').1⟩
    · rcases Finset.mem_insert.mp hc with rfl | hc'
      · rw [hindex b hb', Function.update_self, hsecond, hroot b hb', if_neg (Nat.lt_irrefl _)]
        have hrootLt := hforest.root_lt (hlt b hb')
        exact ⟨fun heq => absurd hrootLt (by omega), fun hbc => absurd hbc (hnew b hb').2⟩
      · rw [hindex b hb', hindex c hc', hroot b hb', hroot c hc']
        exact hclass b hb' c hc'
  · rcases Finset.mem_insert.mp hb with rfl | hb'
    · refine ⟨data, ?_, hdata.trans hsum.symm⟩
      rw [Function.update_self, hsecond, if_neg (Nat.lt_irrefl _), hforest.length]
      exact getElem?_concat_length
    · obtain ⟨node, hnode, hmeasure⟩ := hpayload b hb'
      refine ⟨node, ?_, hmeasure.trans (hsums b hb').symm⟩
      rw [hindex b hb', hroot b hb']
      change (uf.payload ++ [data])[_]? = _
      rwa [List.getElem?_append_left (List.getElem?_eq_some_iff.mp hnode).1]

theorem Tracks.exists_root :
    ∃ root : ℕ → ℕ, (∀ a ∈ S, ∀ b ∈ S, root (index a) = root (index b) ↔ r a b) ∧
      ∀ a ∈ S, ∃ uf' node, uf.find (index a) = some (uf', root (index a)) ∧
        uf'.payload[root (index a)]? = some node ∧ measure node = classSum S r w a := by
  obtain ⟨root, rank, hforest, hlt, hclass, hpayload⟩ := h
  refine ⟨root, hclass, fun a ha => ?_⟩
  obtain ⟨uf', hfind, -, hpayload', -⟩ := hforest.exists_find_eq (hlt a ha)
  obtain ⟨node, hnode, hmeasure⟩ := hpayload a ha
  exact ⟨uf', node, hfind, hpayload' ▸ hnode, hmeasure⟩

theorem Tracks.exists_union_eq (hr : Equivalence r) {merge : N → N → Bool × N}
    (hmerge : ∀ x y, measure (merge x y).2 = measure x + measure y) {a b : ι} (ha : a ∈ S)
    (hb : b ∈ S) : ∃ uf' joined, uf.union merge (index a) (index b) = some (uf', joined) ∧
      uf'.Tracks measure index S (Join r a b) w := by
  obtain ⟨root, rank, hforest, hlt, hclass, hpayload⟩ := h
  obtain ⟨uf₁, hfind₁, hforest₁, hpayload₁, hlength₁⟩ := hforest.exists_find_eq (hlt a ha)
  obtain ⟨uf₂, hfind₂, hforest₂, hpayload₂, hlength₂⟩ :=
    hforest₁.exists_find_eq (hlength₁ ▸ hlt b hb)
  have hlength : uf₂.linkParent.length = uf.linkParent.length := hlength₂.trans hlength₁
  have hpayload' : uf₂.payload = uf.payload := hpayload₂.trans hpayload₁
  by_cases hab : root (index a) = root (index b)
  · refine ⟨uf₂, false, ?_, root, rank, hforest₂, fun c hc => hlength ▸ hlt c hc,
      fun c hc d hd => ?_, fun c hc => ?_⟩
    · rw [UnionFind.union, hfind₁, bind_eq_bind, bind_some, hfind₂,
        bind_eq_bind, bind_some, if_pos hab]
    · rw [join_iff_of_rel hr ((hclass a ha b hb).mp hab)]
      exact hclass c hc d hd
    · obtain ⟨node, hnode, hmeasure⟩ := hpayload c hc
      refine ⟨node, hpayload' ▸ hnode, hmeasure.trans (classSum_congr (fun d _ => ?_)
        fun _ _ _ => rfl)⟩
      exact (join_iff_of_rel hr ((hclass a ha b hb).mp hab)).symm
  · have hnot : ¬ r a b := fun hrel => hab ((hclass a ha b hb).mpr hrel)
    obtain ⟨left, hleft, hmeasureLeft⟩ := hpayload a ha
    obtain ⟨right, hright, hmeasureRight⟩ := hpayload b hb
    -- Either root may stay one; the classes are the same in both cases.
    have hlink : ∀ parent child, (parent = root (index a) ∧ child = root (index b)) ∨
        (parent = root (index b) ∧ child = root (index a)) →
        UnionFind.Tracks ⟨uf₂.linkParent.set child parent,
          uf₂.payload.set parent (merge left right).2⟩ measure index S (Join r a b) w := by
      intro parent child hends
      have hparent : parent < uf₂.linkParent.length ∧ root parent = parent := by
        rw [hlength]
        rcases hends with ⟨rfl, -⟩ | ⟨rfl, -⟩
        · exact ⟨hforest.root_lt (hlt a ha), hforest.root_root (hlt a ha)⟩
        · exact ⟨hforest.root_lt (hlt b hb), hforest.root_root (hlt b hb)⟩
      have hchild : child < uf₂.linkParent.length ∧ root child = child := by
        rw [hlength]
        rcases hends with ⟨-, rfl⟩ | ⟨-, rfl⟩
        · exact ⟨hforest.root_lt (hlt b hb), hforest.root_root (hlt b hb)⟩
        · exact ⟨hforest.root_lt (hlt a ha), hforest.root_root (hlt a ha)⟩
      have hne : parent ≠ child := by
        rcases hends with ⟨rfl, rfl⟩ | ⟨rfl, rfl⟩
        · exact hab
        · exact fun heq => hab heq.symm
      have hforest' := (hforest₂.link hparent.1 hchild.1 hparent.2 hchild.2 hne).setPayload
        (uf₂.payload.set parent (merge left right).2) List.length_set
      have hroot := fun c hc =>
        relabel_of_classes (fun c => root (index c)) hclass ha hb hends (c := c) hc
      refine ⟨_, _, hforest', fun c hc => ?_, fun c hc d hd => ?_, fun c hc => ?_⟩
      · rw [List.length_set, hlength]
        exact hlt c hc
      · exact relabel_eq_iff_join (fun c => root (index c)) hr hclass ha hb hends hc hd
      · by_cases hcj : r c a ∨ r c b
        · refine ⟨(merge left right).2, ?_, ?_⟩
          · rw [(hroot c hc).1 hcj, getElem?_set_self]
            rw [← hforest₂.length]
            exact hparent.1
          · rw [hmerge, hmeasureLeft, hmeasureRight, classSum_join hr hnot hcj]
        · obtain ⟨heq, hneq⟩ := (hroot c hc).2 hcj
          obtain ⟨node, hnode, hmeasure⟩ := hpayload c hc
          refine ⟨node, ?_, ?_⟩
          · rw [heq, getElem?_set_ne hneq.symm, hpayload']
            exact hnode
          · rw [not_or] at hcj
            rw [hmeasure, classSum_join_of_not hcj.1 hcj.2]
    refine ⟨_, true, ?_, hlink (if (merge left right).1 then root (index a) else root (index b))
      (if (merge left right).1 then root (index b) else root (index a)) ?_⟩
    · rw [UnionFind.union, hfind₁, bind_eq_bind, bind_some, hfind₂,
        bind_eq_bind, bind_some, if_neg hab, hpayload', hleft]
      simp only [bind_some, hright]
    · cases (merge left right).1
      · exact .inr ⟨rfl, rfl⟩
      · exact .inl ⟨rfl, rfl⟩

theorem Tracks.exists_modify_eq (hr : Equivalence r) {f : N → Option N} {v : ι → M} {a : ι}
    (ha : a ∈ S) (hf : ∀ node, measure node = classSum S r w a →
      ∃ node', f node = some node' ∧ measure node' = classSum S r v a)
    (hw : ∀ b ∈ S, ¬ r a b → classSum S r v b = classSum S r w b) :
    ∃ uf' node', uf.modify (index a) f = some (uf', node') ∧
      measure node' = classSum S r v a ∧ uf'.Tracks measure index S r v := by
  obtain ⟨root, rank, hforest, hlt, hclass, hpayload⟩ := h
  obtain ⟨uf', hfind, hforest', hpayload', hlength⟩ := hforest.exists_find_eq (hlt a ha)
  obtain ⟨node, hnode, hmeasure⟩ := hpayload a ha
  obtain ⟨node', hnode', hmeasure'⟩ := hf node hmeasure
  refine ⟨{ uf' with payload := uf'.payload.set (root (index a)) node' }, node', ?_, hmeasure',
    root, rank, hforest'.setPayload _ List.length_set, fun b hb => hlength ▸ hlt b hb, hclass,
    fun b hb => ?_⟩
  · rw [UnionFind.modify, hfind, bind_eq_bind, bind_some, hpayload', hnode,
      bind_eq_bind, bind_some, hnode']
    rfl
  · by_cases hab : r a b
    · have hroot := (hclass a ha b hb).mpr hab
      refine ⟨node', ?_, hmeasure'.trans (classSum_eq_of_rel hr hab)⟩
      rw [← hroot, getElem?_set_self]
      rw [hpayload', ← hforest.length]
      exact hforest.root_lt (hlt a ha)
    · obtain ⟨other, hother, hmeasureOther⟩ := hpayload b hb
      refine ⟨other, ?_, hmeasureOther.trans (hw b hb hab).symm⟩
      rw [getElem?_set_ne fun heq => hab ((hclass a ha b hb).mp heq), hpayload']
      exact hother

end Tracks

end Classes

end UnionFind

end QdkEc
