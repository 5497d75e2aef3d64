import QdkEc.DeqRuntime.JitErrors

/-!
# Sequencing in another order

This module proves when the enumerations of sets do not matter.  A sequencer numbers the
owners that it has not met in the order in which it meets them, so it gives the same
result in every order when each set brings at most one of them; two new owners in one set
are numbered as they are enumerated, and sorting the entries afterwards does not undo
this.
-/

namespace QdkEc

open Option JitCompiler

theorem modify_append_of_lt {A : Type} {f : A → A} {l : List A} {i : ℕ} (hlt : i < l.length)
    (l' : List A) : (l ++ l').modify i f = l.modify i f ++ l' := by
  induction l generalizing i with
  | nil => cases hlt
  | cons a l ih =>
    cases i with
    | zero => rfl
    | succ i =>
      rw [List.cons_append, List.modify_succ_cons, List.modify_succ_cons, List.cons_append,
        ih (Nat.lt_of_succ_lt_succ hlt)]

theorem modify_length_append {A : Type} (f : A → A) (l : List A) (a : A) :
    (l ++ [a]).modify l.length f = l ++ [f a] := by
  induction l with
  | nil => rfl
  | cons b l ih =>
    rw [List.cons_append, List.length_cons, List.modify_succ_cons, ih, List.cons_append]

namespace Sequencer

variable {A : Type} {sequencer : Sequencer A} {a b i j : ℕ} (remote : ℕ → A)

theorem getOrInsert_of_mem (hmem : a ∈ sequencer.ids) (entry : A) :
    sequencer.getOrInsert a i entry = ({ sequencer with
      minimumIndices := sequencer.minimumIndices.modify (sequencer.ids.idxOf a) (min · i) },
        sequencer.ids.idxOf a) :=
  if_pos hmem

theorem getOrInsert_of_notMem (hmem : a ∉ sequencer.ids) (entry : A) :
    sequencer.getOrInsert a i entry = (⟨sequencer.ids ++ [a], sequencer.remotes ++ [entry],
      sequencer.minimumIndices ++ [i]⟩, sequencer.ids.length) :=
  if_neg hmem

theorem mem_ids_getOrInsert (entry : A) {id : ℕ} :
    id ∈ (sequencer.getOrInsert a i entry).1.ids ↔ id = a ∨ id ∈ sequencer.ids := by
  by_cases hmem : a ∈ sequencer.ids
  · rw [getOrInsert_of_mem hmem, or_iff_right_of_imp]
    rintro rfl
    exact hmem
  · rw [getOrInsert_of_notMem hmem, List.mem_append, List.mem_singleton, or_comm]

section

variable (hlength : sequencer.minimumIndices.length = sequencer.ids.length)

include hlength

theorem length_getOrInsert
    (entry : A) : (sequencer.getOrInsert a i entry).1.minimumIndices.length =
      (sequencer.getOrInsert a i entry).1.ids.length := by
  by_cases hmem : a ∈ sequencer.ids
  · rw [getOrInsert_of_mem hmem]
    exact (List.length_modify _ _ _).trans hlength
  · rw [getOrInsert_of_notMem hmem]
    simp [hlength]

/-- Two owners are met in either order when one of them is known. -/
theorem getOrInsert_comm_of_mem
    (ha : a ∈ sequencer.ids) (entry entry' : A) :
    ((sequencer.getOrInsert a i entry).1.getOrInsert b j entry').1 =
        ((sequencer.getOrInsert b j entry').1.getOrInsert a i entry).1 ∧
      ((sequencer.getOrInsert a i entry).1.getOrInsert b j entry').2 =
        (sequencer.getOrInsert b j entry').2 ∧
      ((sequencer.getOrInsert b j entry').1.getOrInsert a i entry).2 =
        (sequencer.getOrInsert a i entry).2 := by
  have hlt := List.idxOf_lt_length_of_mem ha
  rw [getOrInsert_of_mem ha]
  by_cases hb : b ∈ sequencer.ids
  · rw [getOrInsert_of_mem hb, getOrInsert_of_mem (by exact hb), getOrInsert_of_mem (by exact ha)]
    refine ⟨?_, rfl, rfl⟩
    by_cases hab : sequencer.ids.idxOf a = sequencer.ids.idxOf b
    · simp only [hab, List.modify_modify_eq, Function.comp_def, min_right_comm]
    · simp only [List.modify_modify_ne _ _ _ (Ne.symm hab)]
  · have ha' : a ∈ sequencer.ids ++ [b] := List.mem_append_left _ ha
    rw [getOrInsert_of_notMem hb, getOrInsert_of_notMem (by exact hb),
      getOrInsert_of_mem (by exact ha')]
    refine ⟨?_, rfl, List.idxOf_append_of_mem ha⟩
    simp only [List.idxOf_append_of_mem ha]
    rw [modify_append_of_lt (hlength ▸ hlt)]

theorem getOrInsert_comm
    (hknown : a ∈ sequencer.ids ∨ b ∈ sequencer.ids ∨ a = b) :
    ((sequencer.getOrInsert a i (remote a)).1.getOrInsert b j (remote b)).1 =
        ((sequencer.getOrInsert b j (remote b)).1.getOrInsert a i (remote a)).1 ∧
      ((sequencer.getOrInsert a i (remote a)).1.getOrInsert b j (remote b)).2 =
        (sequencer.getOrInsert b j (remote b)).2 ∧
      ((sequencer.getOrInsert b j (remote b)).1.getOrInsert a i (remote a)).2 =
        (sequencer.getOrInsert a i (remote a)).2 := by
  by_cases ha : a ∈ sequencer.ids
  · exact getOrInsert_comm_of_mem hlength ha _ _
  · by_cases hb : b ∈ sequencer.ids
    · obtain ⟨hsame, hfirst, hsecond⟩ :=
        getOrInsert_comm_of_mem (i := j) (b := a) (j := i) hlength hb (remote b) (remote a)
      exact ⟨hsame.symm, hsecond, hfirst⟩
    · obtain rfl : a = b := (hknown.resolve_left ha).resolve_left hb
      have hmem : a ∈ sequencer.ids ++ [a] := List.mem_append_right _ List.mem_cons_self
      rw [getOrInsert_of_notMem ha, getOrInsert_of_notMem ha, getOrInsert_of_mem (by exact hmem),
        getOrInsert_of_mem (by exact hmem)]
      simp only [List.idxOf_append_of_notMem ha, List.idxOf_cons_self, Nat.add_zero, ← hlength,
        modify_length_append, min_comm i j, and_self]

end

end Sequencer

/-- How entries are sequenced: who owns an entry and at which index, which remote entry an owner has,
and what is emitted; the current owner has no remote entry. -/
structure Sequencing (X A Y : Type) where
  current : ℕ
  owner : X → ℕ
  index : X → ℕ
  remote : ℕ → A
  emit : X → Option ℕ → Y

/-- A set brings at most one owner that is not known. -/
def BringsOne {X : Type} (owner : X → ℕ) (known : Set ℕ) (set : Set X) : Prop :=
  ∀ x ∈ set, ∀ y ∈ set, owner x ∉ known → owner y ∉ known → owner x = owner y

/-- Each set brings at most one owner that is not known and that no set before it has brought. -/
def BringOneEach {X : Type} (owner : X → ℕ) :
    Set ℕ → List (Set X) → Prop
  | _, [] => True
  | known, set :: sets =>
    BringsOne owner known set ∧ BringOneEach owner (known ∪ Set.image owner set) sets

theorem BringsOne.mono {X : Type} {owner : X → ℕ} {known known' : Set ℕ} {set set' : Set X}
    (h : BringsOne owner known set) (hknown : known ⊆ known') (hset : set' ⊆ set) :
    BringsOne owner known' set' :=
  fun x hx y hy hnew hnew' => h x (hset hx) y (hset hy) (fun hmem => hnew (hknown hmem))
    fun hmem => hnew' (hknown hmem)

theorem Enumerates.perm {X : Type} [DecidableEq X] {set : Finset X} {order order' : List X}
    (h : Enumerates order set) (h' : Enumerates order' set) : order.Perm order' :=
  List.perm_of_nodup_nodup_toFinset_eq h.1 h'.1 (h.2.trans h'.2.symm)

theorem Enumerates.mem_iff {X : Type} [DecidableEq X] {set : Finset X} {order : List X}
    (h : Enumerates order set) (x : X) : x ∈ order ↔ x ∈ set := by
  rw [← h.2, List.mem_toFinset]

namespace Sequencing

variable {X A Y : Type} (sequencing : Sequencing X A Y)

/-- Sequence an entry. -/
def step (sequenced : Sequencer A × List Y) (x : X) : Sequencer A × List Y :=
  if sequencing.owner x = sequencing.current then
    (sequenced.1, sequenced.2 ++ [sequencing.emit x none])
  else
    let inserted := sequenced.1.getOrInsert (sequencing.owner x) (sequencing.index x)
      (sequencing.remote (sequencing.owner x))
    (inserted.1, sequenced.2 ++ [sequencing.emit x (some inserted.2)])

/-- The owners that a sequencer knows. -/
def known (sequencer : Sequencer A) : Set ℕ :=
  {id | id = sequencing.current ∨ id ∈ sequencer.ids}

/-- The same owners are known, and the same entries were emitted in some order. -/
def Same (sequenced sequenced' : Sequencer A × List Y) : Prop :=
  sequenced.1 = sequenced'.1 ∧ sequenced.2.Perm sequenced'.2

variable {sequencing} {sequenced sequenced' : Sequencer A × List Y} {x y : X} {xs ys : List X}

theorem Same.step (h : Same sequenced sequenced') (x : X) :
    Same (sequencing.step sequenced x) (sequencing.step sequenced' x) := by
  obtain ⟨sequencer', emitted'⟩ := sequenced'
  obtain ⟨rfl, hperm⟩ := h
  rw [step, step]
  split
  · exact ⟨rfl, hperm.append_right _⟩
  · exact ⟨rfl, hperm.append_right _⟩

theorem Same.foldl (h : Same sequenced sequenced') (xs : List X) :
    Same (xs.foldl sequencing.step sequenced) (xs.foldl sequencing.step sequenced') := by
  induction xs generalizing sequenced sequenced' with
  | nil => exact h
  | cons x xs ih => exact ih (h.step x)

theorem known_step : sequencing.known (sequencing.step sequenced x).1 =
      insert (sequencing.owner x) (sequencing.known sequenced.1) := by
  ext id
  rw [step]
  split
  · rename_i hlocal
    simp [known, hlocal]
  · simp only [known, Set.mem_ofPred_eq, Set.mem_insert_iff, Sequencer.mem_ids_getOrInsert]
    tauto

theorem known_foldl (xs : List X) : sequencing.known (xs.foldl sequencing.step sequenced).1 =
      sequencing.known sequenced.1 ∪ Set.image sequencing.owner {x | x ∈ xs} := by
  induction xs generalizing sequenced with
  | nil => simp
  | cons x xs ih =>
    rw [List.foldl_cons, ih, known_step]
    ext id
    simp only [Set.mem_union, Set.mem_insert_iff, Set.mem_image, Set.mem_ofPred_eq,
      List.mem_cons, exists_eq_or_imp]
    tauto

section

variable (hlength : sequenced.1.minimumIndices.length = sequenced.1.ids.length)

include hlength

theorem length_step :
    (sequencing.step sequenced x).1.minimumIndices.length =
      (sequencing.step sequenced x).1.ids.length := by
  rw [step]
  split
  · exact hlength
  · exact Sequencer.length_getOrInsert hlength _

theorem length_foldl
    (xs : List X) : (xs.foldl sequencing.step sequenced).1.minimumIndices.length =
      (xs.foldl sequencing.step sequenced).1.ids.length := by
  induction xs generalizing sequenced with
  | nil => exact hlength
  | cons x xs ih => exact ih (length_step hlength)

theorem same_swap
    (hone : BringsOne sequencing.owner (sequencing.known sequenced.1) {z | z = x ∨ z = y}) :
    Same (sequencing.step (sequencing.step sequenced x) y)
      (sequencing.step (sequencing.step sequenced y) x) := by
  have hswap : ∀ a b : Y, (sequenced.2 ++ [a] ++ [b]).Perm (sequenced.2 ++ [b] ++ [a]) := by
    intro a b
    rw [List.append_assoc, List.append_assoc]
    exact (List.Perm.swap b a []).append_left _
  by_cases hx : sequencing.owner x = sequencing.current
  · by_cases hy : sequencing.owner y = sequencing.current
    · simp only [step, if_pos hx, if_pos hy]
      exact ⟨rfl, hswap _ _⟩
    · simp only [step, if_pos hx, if_neg hy]
      exact ⟨rfl, hswap _ _⟩
  · by_cases hy : sequencing.owner y = sequencing.current
    · simp only [step, if_neg hx, if_pos hy]
      exact ⟨rfl, hswap _ _⟩
    · have hknown : sequencing.owner x ∈ sequenced.1.ids ∨
          sequencing.owner y ∈ sequenced.1.ids ∨ sequencing.owner x = sequencing.owner y := by
        by_contra hnone
        push Not at hnone
        exact hnone.2.2 (hone x (.inl rfl) y (.inr rfl) (fun h => h.elim hx hnone.1)
          fun h => h.elim hy hnone.2.1)
      obtain ⟨hsame, hfirst, hsecond⟩ := Sequencer.getOrInsert_comm (i := sequencing.index x)
        (j := sequencing.index y) sequencing.remote hlength hknown
      simp only [step, if_neg hx, if_neg hy]
      refine ⟨hsame, ?_⟩
      rw [hfirst, hsecond]
      exact hswap _ _

end

theorem same_of_perm (hperm : xs.Perm ys) (h : Same sequenced sequenced')
    (hlength : sequenced.1.minimumIndices.length = sequenced.1.ids.length)
    (hone : BringsOne sequencing.owner (sequencing.known sequenced.1) {x | x ∈ xs}) :
    Same (xs.foldl sequencing.step sequenced) (ys.foldl sequencing.step sequenced') := by
  induction hperm generalizing sequenced sequenced' with
  | nil => exact h
  | cons x _ ih =>
    refine ih (h.step x) (length_step hlength) (hone.mono ?_ fun y => List.mem_cons_of_mem x)
    rw [known_step]
    exact Set.subset_insert _ _
  | swap x y xs =>
    refine Same.foldl ?_ xs
    have hswap : Same (sequencing.step (sequencing.step sequenced y) x)
        (sequencing.step (sequencing.step sequenced x) y) :=
      same_swap hlength (hone.mono subset_rfl fun z hz => by
        rcases hz with rfl | rfl
        · exact List.mem_cons_self
        · exact List.mem_cons_of_mem _ List.mem_cons_self)
    have hsame : Same (sequencing.step (sequencing.step sequenced x) y)
        (sequencing.step (sequencing.step sequenced' x) y) := (h.step x).step y
    exact ⟨hswap.1.trans hsame.1, hswap.2.trans hsame.2⟩
  | trans hfirst _ ihFirst ihSecond =>
    have hsecond := ihSecond h hlength (hone.mono subset_rfl fun x hx => hfirst.mem_iff.mpr hx)
    have hrefl : Same sequenced sequenced := ⟨rfl, .refl _⟩
    have hfirst' := ihFirst hrefl hlength hone
    exact ⟨hfirst'.1.trans hsecond.1, hfirst'.2.trans hsecond.2⟩

theorem foldl_enumeration [DecidableEq X] (sequenced : Sequencer A × List Y)
    (hlength : sequenced.1.minimumIndices.length = sequenced.1.ids.length) {set : Finset X}
    (hone : BringsOne sequencing.owner (sequencing.known sequenced.1) {x | x ∈ set})
    {order order' : List X} (henumerates : Enumerates order set)
    (henumerates' : Enumerates order' set) :
    Same (order.foldl sequencing.step sequenced) (order'.foldl sequencing.step sequenced) ∧
      (order.foldl sequencing.step sequenced).1.minimumIndices.length =
        (order.foldl sequencing.step sequenced).1.ids.length ∧
      sequencing.known (order.foldl sequencing.step sequenced).1 =
        sequencing.known sequenced.1 ∪ Set.image sequencing.owner {x | x ∈ set} := by
  refine ⟨same_of_perm (henumerates.perm henumerates') ⟨rfl, .refl _⟩ hlength
    (hone.mono subset_rfl fun x hx => (henumerates.mem_iff x).mp hx), length_foldl hlength order,
      ?_⟩
  rw [known_foldl]
  simp only [henumerates.mem_iff]

end Sequencing

theorem insertionSort_eq_of_perm {X : Type} {le : X → X → Prop} [DecidableRel le] {key : X → ℕ ×ₗ ℕ}
    (hkey : Function.Injective key) (hle : ∀ x y, le x y ↔ key x ≤ key y) {first second : List X}
    (hperm : first.Perm second) : first.insertionSort le = second.insertionSort le := by
  have htotal : Std.Total le := ⟨fun x y => by
    rw [hle, hle]
    exact le_total _ _⟩
  have htrans : IsTrans X le := ⟨fun x y z => by
    rw [hle, hle, hle]
    exact le_trans⟩
  have hantisymm : Std.Antisymm le := ⟨fun x y => by
    rw [hle, hle]
    exact fun hxy hyx => hkey (le_antisymm hxy hyx)⟩
  refine List.Perm.eq_of_pairwise' (List.pairwise_insertionSort _ _)
    (List.pairwise_insertionSort _ _) ?_
  exact ((List.perm_insertionSort _ first).trans hperm).trans
    (List.perm_insertionSort _ second).symm

/-- The key of a remote index and an index: what is local comes first. -/
def remoteKey (remote : Option ℕ) (index : ℕ) : ℕ ×ₗ ℕ :=
  toLex (remote.elim 0 (· + 1), index)

theorem remoteKey_injective {remote remote' : Option ℕ} {index index' : ℕ}
    (heq : remoteKey remote index = remoteKey remote' index') :
    remote = remote' ∧ index = index' := by
  obtain ⟨hremote, hindex⟩ := Prod.mk.inj (toLex.injective heq)
  refine ⟨?_, hindex⟩
  cases remote <;> cases remote' <;> simp_all

theorem remoteKey_le_iff {remote remote' : Option ℕ} {index index' : ℕ} :
    remoteKey remote index ≤ remoteKey remote' index' ↔
      remote.elim 0 (· + 1) < remote'.elim 0 (· + 1) ∨ (remote = remote' ∧ index ≤ index') := by
  rw [remoteKey, remoteKey, Prod.Lex.toLex_le_toLex]
  cases remote <;> cases remote' <;> simp

section Checks

variable {gid : ℕ} {gtypes : ℕ → ℕ} {gtypeOf : ℕ → Option ℕ}

def measurementKey (measurement : RemoteMeasurement) : ℕ ×ₗ ℕ :=
  remoteKey measurement.remoteGadget measurement.measurementIndex

theorem measurementKey_injective : Function.Injective measurementKey := by
  rintro ⟨remote, index⟩ ⟨remote', index'⟩ heq
  obtain ⟨rfl, rfl⟩ := remoteKey_injective heq
  rfl

theorem measurementLe_iff (first second : RemoteMeasurement) :
    measurementLe first second ↔ measurementKey first ≤ measurementKey second :=
  remoteKey_le_iff.symm

def measurementSequencing (gid : ℕ) (gtypes : ℕ → ℕ) :
    Sequencing ExplicitMeasurement RemoteGadget RemoteMeasurement where
  current := gid
  owner := ExplicitMeasurement.gid
  index := ExplicitMeasurement.measurementIndex
  remote remoteGid := ⟨none, gtypes remoteGid, 0, some remoteGid, none⟩
  emit measurement remote := ⟨remote, measurement.measurementIndex⟩

section

variable (hgtypes : ∀ remoteGid gtype, gtypeOf remoteGid = some gtype → gtypes remoteGid = gtype)

include hgtypes

theorem foldlM_sequenceMeasurement_eq
    {measurements : List ExplicitMeasurement}
    {sequenced sequenced' : Sequencer RemoteGadget × List RemoteMeasurement}
    (hrun : measurements.foldlM (sequenceMeasurement gid gtypeOf) sequenced = some sequenced') :
    measurements.foldl (measurementSequencing gid gtypes).step sequenced = sequenced' := by
  induction measurements generalizing sequenced with
  | nil => exact some_inj.mp hrun
  | cons measurement measurements ih =>
    obtain ⟨middle, hmiddle, hrun⟩ := bind_eq_some_iff.mp hrun
    have hstep : (measurementSequencing gid gtypes).step sequenced measurement = middle := by
      rw [sequenceMeasurement] at hmiddle
      split at hmiddle
      · rename_i hlocal
        cases hmiddle
        exact if_pos hlocal
      · rename_i hremote
        obtain ⟨gtype, hgtype, hmiddle⟩ := bind_eq_some_iff.mp hmiddle
        cases hmiddle
        rw [← hgtypes _ _ hgtype]
        exact if_neg hremote
    rw [List.foldl_cons, hstep]
    exact ih hrun

theorem sequenceChecks_eq {gtypeOf' : ℕ → Option ℕ}
    (hgtypes' : ∀ remoteGid gtype, gtypeOf' remoteGid = some gtype → gtypes remoteGid = gtype)
    {sequencer : Sequencer RemoteGadget}
    (hlength : sequencer.minimumIndices.length = sequencer.ids.length)
    {expanded : List (Finset ExplicitMeasurement × Bool)}
    (hone : BringOneEach ExplicitMeasurement.gid
      ((measurementSequencing gid gtypes).known sequencer)
      (expanded.map fun check => {measurement | measurement ∈ check.1}))
    {orders orders' : List (List ExplicitMeasurement)}
    {sequenced sequenced' : Sequencer RemoteGadget × List Check}
    (hrun : sequenceChecks gid gtypeOf sequencer expanded orders = some sequenced)
    (hrun' : sequenceChecks gid gtypeOf' sequencer expanded orders' = some sequenced') :
    sequenced = sequenced' := by
  induction expanded generalizing sequencer orders orders' sequenced sequenced' with
  | nil =>
    cases orders with
    | nil =>
      cases orders' with
      | nil => exact some_inj.mp (hrun.symm.trans hrun')
      | cons order' orders' => cases hrun'
    | cons order orders => cases hrun
  | cons set rest ih =>
    cases orders with
    | nil => cases hrun
    | cons order orders =>
      cases orders' with
      | nil => cases hrun'
      | cons order' orders' =>
        obtain ⟨_, hguard, hrun⟩ := bind_eq_some_iff.mp hrun
        obtain ⟨middle, hmiddle, hrun⟩ := bind_eq_some_iff.mp hrun
        obtain ⟨finished, hfinished, hrun⟩ := bind_eq_some_iff.mp hrun
        obtain ⟨_, hguard', hrun'⟩ := bind_eq_some_iff.mp hrun'
        obtain ⟨middle', hmiddle', hrun'⟩ := bind_eq_some_iff.mp hrun'
        obtain ⟨finished', hfinished', hrun'⟩ := bind_eq_some_iff.mp hrun'
        cases hrun
        cases hrun'
        obtain ⟨emitted, hemitted, hmiddle⟩ := bind_eq_some_iff.mp hmiddle
        obtain ⟨emitted', hemitted', hmiddle'⟩ := bind_eq_some_iff.mp hmiddle'
        cases hmiddle
        cases hmiddle'
        have henumerates : Enumerates order set.1 := (guard_eq_some' _).mp hguard
        have henumerates' : Enumerates order' set.1 := (guard_eq_some' _).mp hguard'
        have henumeration := (measurementSequencing gid gtypes).foldl_enumeration
          (sequencer, []) hlength hone.1 henumerates henumerates'
        rw [foldlM_sequenceMeasurement_eq hgtypes hemitted,
          foldlM_sequenceMeasurement_eq hgtypes' hemitted'] at henumeration
        obtain ⟨⟨hsequencer, hperm⟩, hlength', hknown⟩ := henumeration
        rw [← hsequencer] at hfinished'
        have hrest := ih hlength' (hknown ▸ hone.2) hfinished hfinished'
        rw [hrest, insertionSort_eq_of_perm measurementKey_injective measurementLe_iff hperm]

theorem buildCheckModelType_eq {gtypeOf' : ℕ → Option ℕ}
    (hgtypes' : ∀ remoteGid gtype, gtypeOf' remoteGid = some gtype → gtypes remoteGid = gtype)
    {expanded : List (Finset ExplicitMeasurement × Bool)}
    (hone : BringOneEach ExplicitMeasurement.gid {gid}
      (expanded.map fun check => {measurement | measurement ∈ check.1})) {gtype : ℕ}
    {orders orders' : List (List ExplicitMeasurement)}
    {checkModelType checkModelType' : CheckModelType}
    (hbuild : buildCheckModelType gid gtype gtypeOf expanded orders = some checkModelType)
    (hbuild' : buildCheckModelType gid gtype gtypeOf' expanded orders' = some checkModelType') :
    checkModelType = checkModelType' := by
  obtain ⟨sequenced, hsequenced, hbuild⟩ := bind_eq_some_iff.mp hbuild
  obtain ⟨sequenced', hsequenced', hbuild'⟩ := bind_eq_some_iff.mp hbuild'
  have hknown : (measurementSequencing gid gtypes).known .new = {gid} := by
    ext id
    simp [Sequencing.known, Sequencer.new, measurementSequencing]
  obtain rfl := sequenceChecks_eq hgtypes hgtypes' rfl (hknown ▸ hone) hsequenced hsequenced'
  exact some_inj.mp (hbuild.symm.trans hbuild')

end

end Checks

section Errors

variable {K : Type} {gid : ℕ}

def remoteCheckKey (check : RemoteCheck) : ℕ ×ₗ ℕ :=
  remoteKey check.remoteCheckModel check.checkIndex

theorem remoteCheckKey_injective : Function.Injective remoteCheckKey := by
  rintro ⟨remote, index⟩ ⟨remote', index'⟩ heq
  obtain ⟨rfl, rfl⟩ := remoteKey_injective heq
  rfl

theorem remoteCheckLe_iff (first second : RemoteCheck) :
    remoteCheckLe first second ↔ remoteCheckKey first ≤ remoteCheckKey second :=
  remoteKey_le_iff.symm

def checkSequencing (gid : ℕ) : Sequencing ExplicitCheck RemoteCheckModel RemoteCheck where
  current := gid
  owner := ExplicitCheck.cid
  index := ExplicitCheck.checkIndex
  remote cid := ⟨none, cid, 0, some cid, none⟩
  emit check remote := ⟨remote, check.checkIndex⟩

theorem step_checkSequencing : (checkSequencing gid).step = sequenceCheck gid :=
  rfl

/-- The checks that the errors with unfinished checks stand for. -/
def expandedErrors (outputVirtualChecks : List (Finset ExplicitCheck)) (gid : ℕ)
    (errors : List (JitError K)) :
    List (Set ExplicitCheck) :=
  (errors.filter fun error => error.references.unfinishedChecks ≠ []).map fun error =>
    {check | ∃ checks, JitCompiler.expandErrorChecks outputVirtualChecks gid error.references =
      some checks ∧ check ∈ checks}

variable {outputVirtualChecks : List (Finset ExplicitCheck)}

theorem sequenceErrors_eq {sequencer : Sequencer RemoteCheckModel}
    (hlength : sequencer.minimumIndices.length = sequencer.ids.length) {errors : List (JitError K)}
    (hone : BringOneEach ExplicitCheck.cid ((checkSequencing gid).known sequencer)
      (expandedErrors outputVirtualChecks gid errors)) {orders orders' : List (List ExplicitCheck)}
    {sequenced sequenced' : Sequencer RemoteCheckModel × List (ModelError K)}
    (hrun : sequenceErrors gid outputVirtualChecks sequencer errors orders = some sequenced)
    (hrun' : sequenceErrors gid outputVirtualChecks sequencer errors orders' = some sequenced') :
    sequenced = sequenced' := by
  induction errors generalizing sequencer orders orders' sequenced sequenced' with
  | nil =>
    cases orders with
    | nil =>
      cases orders' with
      | nil => exact some_inj.mp (hrun.symm.trans hrun')
      | cons order' orders' => cases hrun'
    | cons order orders => cases hrun
  | cons error errors ih =>
    rw [sequenceErrors.eq_def] at hrun hrun'
    dsimp only at hrun hrun'
    by_cases hnil : error.references.unfinishedChecks = []
    · rw [if_pos hnil] at hrun hrun'
      obtain ⟨finished, hfinished, hrun⟩ := bind_eq_some_iff.mp hrun
      obtain ⟨finished', hfinished', hrun'⟩ := bind_eq_some_iff.mp hrun'
      cases hrun
      cases hrun'
      rw [expandedErrors, List.filter_cons_of_neg (by simp [hnil])] at hone
      rw [ih hlength hone hfinished hfinished']
    · rw [if_neg hnil] at hrun hrun'
      cases orders with
      | nil => cases hrun
      | cons order orders =>
        cases orders' with
        | nil => cases hrun'
        | cons order' orders' =>
          obtain ⟨checks, hchecks, hrun⟩ := bind_eq_some_iff.mp hrun
          obtain ⟨_, hguard, hrun⟩ := bind_eq_some_iff.mp hrun
          obtain ⟨finished, hfinished, hrun⟩ := bind_eq_some_iff.mp hrun
          obtain ⟨checks', hchecks', hrun'⟩ := bind_eq_some_iff.mp hrun'
          obtain ⟨_, hguard', hrun'⟩ := bind_eq_some_iff.mp hrun'
          obtain ⟨finished', hfinished', hrun'⟩ := bind_eq_some_iff.mp hrun'
          cases hrun
          cases hrun'
          rw [hchecks] at hchecks'
          cases hchecks'
          have henumerates : Enumerates order checks := (guard_eq_some' _).mp hguard
          have henumerates' : Enumerates order' checks :=
            (guard_eq_some' _).mp hguard'
          rw [expandedErrors, List.filter_cons_of_pos (by simpa using hnil), List.map_cons]
            at hone
          simp only [hchecks, some_inj, exists_eq_left'] at hone
          obtain ⟨⟨hsequencer, hperm⟩, hlength', hknown⟩ :=
            (checkSequencing gid).foldl_enumeration (sequencer, error.base.checks) hlength
              hone.1 henumerates henumerates'
          rw [step_checkSequencing] at hsequencer hperm hlength' hknown
          have hsame : explicitChecksToBinError sequencer error order gid =
              explicitChecksToBinError sequencer error order' gid := by
            rw [explicitChecksToBinError, explicitChecksToBinError, hsequencer,
              insertionSort_eq_of_perm remoteCheckKey_injective remoteCheckLe_iff hperm]
          rw [← hsame] at hfinished' ⊢
          rw [ih hlength' (hknown ▸ hone.2) hfinished hfinished']

theorem buildErrorModelType_eq {errors : List (JitError K)}
    (hone : BringOneEach ExplicitCheck.cid {gid} (expandedErrors outputVirtualChecks gid errors))
    {orders orders' : List (List ExplicitCheck)} {errorModelType errorModelType' : ErrorModelType K}
    (hbuild : buildErrorModelType gid errors outputVirtualChecks orders = some errorModelType)
    (hbuild' : buildErrorModelType gid errors outputVirtualChecks orders' = some errorModelType') :
    errorModelType = errorModelType' := by
  obtain ⟨sequenced, hsequenced, hbuild⟩ := bind_eq_some_iff.mp hbuild
  obtain ⟨sequenced', hsequenced', hbuild'⟩ := bind_eq_some_iff.mp hbuild'
  have hknown : (checkSequencing gid).known .new = {gid} := by
    ext id
    simp [Sequencing.known, Sequencer.new, checkSequencing]
  obtain rfl := sequenceErrors_eq rfl (hknown ▸ hone) hsequenced hsequenced'
  exact some_inj.mp (hbuild.symm.trans hbuild')

end Errors

end QdkEc
