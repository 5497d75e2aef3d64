import QdkEc.DeqRuntime.WindowRequests
import QdkEc.Lib.NodeCosts

/-!
# Shrinking a window

This module models how the window coordinator trims an explored window to the gadgets that
are near its commit region.  The search goes over gadgets with a double-ended queue, where a
step to a free-hop gadget costs nothing.  A gadget is not searched from when it is found at
the buffer radius, so the free-hop gadgets at this very distance are left out.
-/

namespace QdkEc

open Option AList

variable {K : Type}

/-- The gadgets that are connected to the inputs and outputs of a gadget. -/
def WindowGadget.peers (gadget : WindowGadget K) : List ℕ :=
  gadget.connectors.map Connector.gid ++ (gadget.outputs.filterMap id).map Connector.gid

def WindowGadget.step (gadget : WindowGadget K) : ℕ :=
  if gadget.isFreeHop then 0 else 1

/-- The explored gadgets, and those of them that are committed, in the order in which they are
iterated over. -/
structure ExploredWindow (instances : GidMap (WindowGadget K)) where
  gadgets : Finset ℕ
  commitRegion : List ℕ
  executed : ∀ gid ∈ gadgets, (instances.lookup gid).isSome
  explored : ∀ gid ∈ commitRegion, gid ∈ gadgets

/-- The distances that are found, the gadgets to search from and the gadgets to keep. -/
structure Shrinking where
  dist : GidMap ℕ
  deque : List ℕ
  decoderWindow : Finset ℕ

namespace ExploredWindow

variable {instances : GidMap (WindowGadget K)} (window : ExploredWindow instances)
  (bufferRadius : ℕ)

/-- A gadget below the radius is queued, a free hop at the front. -/
def enqueue (peer : WindowGadget K) (newDist peerGid : ℕ) (deque : List ℕ) : List ℕ :=
  if newDist < bufferRadius then
    if peer.isFreeHop then peerGid :: deque else deque ++ [peerGid]
  else deque

/-- Visit a peer of a gadget at some distance; a gadget without a distance is farther than any
other. -/
def visit (myDist : ℕ) (s : Shrinking) (peerGid : ℕ) : Option Shrinking :=
  if peerGid ∈ window.gadgets then do
    let peer ← instances.lookup peerGid
    let newDist := myDist + peer.step
    if newDist ≤ bufferRadius ∧ (s.dist.lookup peerGid).all (newDist < ·) then
      some {
        dist := s.dist.insert peerGid newDist
        deque := enqueue bufferRadius peer newDist peerGid s.deque
        decoderWindow := insert peerGid s.decoderWindow }
    else some s
  else some s

/-- Search from the gadgets of the queue until it is empty. -/
def shrinkLoop : ℕ → Shrinking → Option Shrinking
  | 0, _ => none
  | fuel + 1, s =>
    match s.deque with
    | [] => some s
    | gid :: rest => do
        let myDist ← s.dist.lookup gid
        let gadget ← instances.lookup gid
        let s ← gadget.peers.foldlM (window.visit bufferRadius myDist) { s with deque := rest }
        shrinkLoop fuel s

/-- The search starts from the commit region. -/
def shrinkStart : Shrinking where
  dist := window.commitRegion.foldl (fun dist gid => dist.insert gid 0) ∅
  deque := window.commitRegion
  decoderWindow := window.commitRegion.toFinset

/-- The decoder window; the fuel is enough for each gadget to come nearer and nearer. -/
def shrinkWindow : Option (Finset ℕ) :=
  (window.shrinkLoop bufferRadius
    (window.gadgets.card * (bufferRadius + 1) + window.commitRegion.length + 1)
    window.shrinkStart).map Shrinking.decoderWindow

/-- A gadget of the window is connected to another gadget. -/
def Adjacent (gid peerGid : ℕ) : Prop :=
  peerGid ∈ window.gadgets ∧ ∃ gadget ∈ instances.lookup gid, peerGid ∈ gadget.peers

/-- What a step to a gadget of the window costs. -/
def stepTo (_ : ExploredWindow instances) (gid : ℕ) : ℕ :=
  (instances.lookup gid).elim 0 WindowGadget.step

def IsFreeHop (_ : ExploredWindow instances) (gid : ℕ) : Prop :=
  ∃ gadget ∈ instances.lookup gid, gadget.isFreeHop = true

/-- The gadgets of the window within some distance of the commit region. -/
def within (radius : ℕ) : Set ℕ :=
  {gid | gid ∈ window.gadgets ∧
    gid ∈ WithinDistance {c | c ∈ window.commitRegion} window.Adjacent window.stepTo radius}

variable {window bufferRadius} {s s' : Shrinking} {gid peerGid d : ℕ}

/-- A path from the commit region reaches a gadget. -/
abbrev Reached (window : ExploredWindow instances) (d gid : ℕ) : Prop :=
  ReachedAt {c | c ∈ window.commitRegion} window.Adjacent window.stepTo d gid

theorem Reached.mem_gadgets (h : window.Reached d gid) : gid ∈ window.gadgets := by
  cases h with
  | source h => exact window.explored _ h
  | step _ h => exact h.1

theorem isFreeHop_iff (h : gid ∈ window.gadgets) :
    window.IsFreeHop gid ↔ window.stepTo gid = 0 := by
  obtain ⟨gadget, hgadget⟩ := isSome_iff_exists.mp (window.executed gid h)
  simp [IsFreeHop, stepTo, hgadget, WindowGadget.step]

/-- The distances are costs of paths, and they cover the gadgets to keep. -/
structure Sound (window : ExploredWindow instances) (bufferRadius : ℕ) (s : Shrinking) :
    Prop where
  reached : ∀ gid d, s.dist.lookup gid = some d → d ≤ bufferRadius ∧ window.Reached d gid
  kept : ∀ gid, gid ∈ s.decoderWindow ↔ (s.dist.lookup gid).isSome
  source : ∀ gid ∈ window.commitRegion, s.dist.lookup gid = some 0
  deque : ∀ gid ∈ s.deque, ∃ d < bufferRadius, s.dist.lookup gid = some d
  counted : ∀ gid, s.dist.lookup gid = some bufferRadius → 0 < window.stepTo gid

/-- The steps from a distance below the radius are relaxed. -/
def RelaxedFrom (window : ExploredWindow instances) (bufferRadius : ℕ) (s : Shrinking)
    (gid : ℕ) : Prop :=
  ∀ d, s.dist.lookup gid = some d → d < bufferRadius → ∀ peerGid, window.Adjacent gid peerGid →
    d + window.stepTo peerGid ≤ bufferRadius →
      ∃ e ≤ d + window.stepTo peerGid, s.dist.lookup peerGid = some e

/-- How far the search is from its end. -/
def potential (window : ExploredWindow instances) (bufferRadius : ℕ) (s : Shrinking) : ℕ :=
  ∑ gid ∈ window.gadgets, (s.dist.lookup gid).getD (bufferRadius + 1) + s.deque.length

/-- The search has found shorter paths. -/
structure Lowers (window : ExploredWindow instances) (bufferRadius : ℕ) (s s' : Shrinking) :
    Prop where
  dist : ∀ gid d, s.dist.lookup gid = some d → ∃ e ≤ d, s'.dist.lookup gid = some e
  potential : window.potential bufferRadius s' ≤ window.potential bufferRadius s

/-- The search is at the peers of a gadget. -/
structure Visiting (window : ExploredWindow instances) (bufferRadius : ℕ) (gid d : ℕ)
    (s : Shrinking) : Prop extends Sound window bufferRadius s where
  label : s.dist.lookup gid = some d
  below : d < bufferRadius
  relaxed : ∀ other, other ∉ s.deque → other ≠ gid → window.RelaxedFrom bufferRadius s other

theorem Lowers.refl : window.Lowers bufferRadius s s :=
  ⟨fun _ d h => ⟨d, le_rfl, h⟩, le_rfl⟩

theorem Lowers.trans {s'' : Shrinking} (h : window.Lowers bufferRadius s s')
    (h' : window.Lowers bufferRadius s' s'') : window.Lowers bufferRadius s s'' where
  dist gid d hd := by
    obtain ⟨e, he, hs'⟩ := h.dist gid d hd
    obtain ⟨e', he', hs''⟩ := h'.dist gid e hs'
    exact ⟨e', he'.trans he, hs''⟩
  potential := h'.potential.trans h.potential

theorem lowers_insert {deque : List ℕ} {kept : Finset ℕ} (hpeer : peerGid ∈ window.gadgets)
    (hd : d ≤ bufferRadius) (hless : ∀ e, s.dist.lookup peerGid = some e → d < e)
    (hdeque : deque.length ≤ s.deque.length + 1) :
    window.Lowers bufferRadius s ⟨s.dist.insert peerGid d, deque, kept⟩ := by
  constructor
  · intro gid e he
    by_cases hgid : gid = peerGid
    · subst hgid
      exact ⟨d, (hless e he).le, lookup_insert _⟩
    · exact ⟨e, le_rfl, by rw [lookup_insert_ne hgid, he]⟩
  · have hsum : ∑ gid ∈ window.gadgets,
        ((s.dist.insert peerGid d).lookup gid).getD (bufferRadius + 1) <
          ∑ gid ∈ window.gadgets, (s.dist.lookup gid).getD (bufferRadius + 1) := by
      have hlt : ((s.dist.insert peerGid d).lookup peerGid).getD (bufferRadius + 1) <
          (s.dist.lookup peerGid).getD (bufferRadius + 1) := by
        rw [lookup_insert]
        cases hold : s.dist.lookup peerGid with
        | none => exact Nat.lt_succ_of_le hd
        | some e => exact hless e hold
      refine Finset.sum_lt_sum (fun gid _ => ?_) ⟨peerGid, hpeer, hlt⟩
      by_cases hgid : gid = peerGid
      · subst hgid
        exact hlt.le
      · rw [lookup_insert_ne hgid]
    simp only [potential]
    omega

/-- A shorter path to a peer is found. -/
theorem Visiting.insert (h : window.Visiting bufferRadius gid d s)
    (hadjacent : window.Adjacent gid peerGid) {deque : List ℕ} {newDist : ℕ}
    (hnew : newDist = d + window.stepTo peerGid) (hle : newDist ≤ bufferRadius)
    (hless : ∀ e, s.dist.lookup peerGid = some e → newDist < e) (hdeque : ∀ other, other ∈ deque ↔
      other ∈ s.deque ∨ other = peerGid ∧ newDist < bufferRadius)
    (hlength : deque.length ≤ s.deque.length + 1) : window.Visiting bufferRadius gid d
      ⟨s.dist.insert peerGid newDist, deque, Insert.insert peerGid s.decoderWindow⟩ := by
  have hlowers : window.Lowers bufferRadius s
      ⟨s.dist.insert peerGid newDist, deque, Insert.insert peerGid s.decoderWindow⟩ :=
    lowers_insert hadjacent.1 hle hless hlength
  have hne : gid ≠ peerGid := by
    rintro rfl
    have := hless d h.label
    omega
  have hother : ∀ other, other ≠ peerGid →
      (s.dist.insert peerGid newDist).lookup other = s.dist.lookup other :=
    fun other hother => lookup_insert_ne hother
  refine ⟨⟨?_, ?_, ?_, ?_, ?_⟩, ?_, h.below, ?_⟩
  · intro other e he
    by_cases hpeer : other = peerGid
    · subst hpeer
      rw [lookup_insert, some_inj] at he
      subst he
      refine ⟨hle, ?_⟩
      rw [hnew]
      exact (h.reached gid d h.label).2.step hadjacent
    · exact h.reached other e (by rwa [hother other hpeer] at he)
  · intro other
    by_cases hpeer : other = peerGid
    · subst hpeer
      simp [lookup_insert]
    · simp [hpeer, h.kept other, hother other hpeer]
  · intro other hcommit
    have hpeer : other ≠ peerGid := by
      rintro rfl
      exact absurd (hless 0 (h.source _ hcommit)) (Nat.not_lt_zero _)
    rw [hother other hpeer]
    exact h.source other hcommit
  · intro other hmem
    by_cases hpeer : other = peerGid
    · subst hpeer
      refine ⟨newDist, ?_, lookup_insert _⟩
      obtain hmem | ⟨-, hlt⟩ := (hdeque _).mp hmem
      · obtain ⟨e, he, hlabel⟩ := h.deque _ hmem
        exact (hless e hlabel).trans he
      · exact hlt
    · rw [hother other hpeer]
      exact h.deque other (((hdeque _).mp hmem).resolve_right fun h => hpeer h.1)
  · intro other he
    by_cases hpeer : other = peerGid
    · subst hpeer
      rw [lookup_insert, some_inj] at he
      have := h.below
      omega
    · exact h.counted other (by rwa [hother other hpeer] at he)
  · rw [hother gid hne, h.label]
  · intro other hmem hgid e he hbelow target htarget hnear
    rw [hdeque, not_or] at hmem
    have hpeer : other ≠ peerGid := by
      rintro rfl
      rw [lookup_insert, some_inj] at he
      exact hmem.2 ⟨rfl, he ▸ hbelow⟩
    rw [hother other hpeer] at he
    obtain ⟨e', he', hlabel⟩ := h.relaxed other hmem.1 hgid e he hbelow target htarget hnear
    obtain ⟨e'', he'', hlabel'⟩ := hlowers.dist target e' hlabel
    exact ⟨e'', he''.trans he', hlabel'⟩

theorem Visiting.visit (h : window.Visiting bufferRadius gid d s) {gadget : WindowGadget K}
    (hgadget : gadget ∈ instances.lookup gid) (hpeer : peerGid ∈ gadget.peers) :
    ∃ s', window.visit bufferRadius d s peerGid = some s' ∧
      window.Visiting bufferRadius gid d s' ∧ window.Lowers bufferRadius s s' ∧
        (peerGid ∈ window.gadgets → d + window.stepTo peerGid ≤ bufferRadius →
          ∃ e ≤ d + window.stepTo peerGid, s'.dist.lookup peerGid = some e) := by
  rw [ExploredWindow.visit]
  by_cases hexplored : peerGid ∈ window.gadgets
  swap
  · rw [if_neg hexplored]
    exact ⟨s, rfl, h, .refl, fun h => absurd h hexplored⟩
  obtain ⟨peer, hlookup⟩ := isSome_iff_exists.mp (window.executed _ hexplored)
  have hstep : window.stepTo peerGid = peer.step := by simp [stepTo, hlookup]
  simp only [if_pos hexplored, hlookup, bind_eq_bind, bind_some, hstep]
  by_cases hnear : d + peer.step ≤ bufferRadius ∧
      (s.dist.lookup peerGid).all (d + peer.step < ·)
  · rw [if_pos hnear]
    have hless : ∀ e, s.dist.lookup peerGid = some e → d + peer.step < e := by
      intro e he
      simpa [he] using hnear.2
    have hdeque : ∀ other, other ∈ enqueue bufferRadius peer (d + peer.step) peerGid s.deque ↔
        other ∈ s.deque ∨ other = peerGid ∧ d + peer.step < bufferRadius := by
      intro other
      simp only [enqueue]
      split_ifs with hlt <;> simp [hlt, or_comm]
    have hlength : (enqueue bufferRadius peer (d + peer.step) peerGid s.deque).length ≤
        s.deque.length + 1 := by
      simp only [enqueue]
      split_ifs <;> simp
    exact ⟨_, rfl, h.insert ⟨hexplored, gadget, hgadget, hpeer⟩ (by rw [hstep]) hnear.1 hless hdeque
      hlength, lowers_insert hexplored hnear.1 hless hlength,
      fun _ _ => ⟨_, le_rfl, lookup_insert _⟩⟩
  · rw [if_neg hnear]
    refine ⟨s, rfl, h, .refl, fun _ hle => ?_⟩
    cases hold : s.dist.lookup peerGid with
    | none => exact absurd ⟨hle, by simp [hold]⟩ hnear
    | some e => exact ⟨e, by simpa [hold, hle] using hnear, rfl⟩

theorem Visiting.foldlM_visit {gadget : WindowGadget K} (hgadget : gadget ∈ instances.lookup gid)
    {peers : List ℕ} (hpeers : ∀ peerGid ∈ peers, peerGid ∈ gadget.peers)
    (h : window.Visiting bufferRadius gid d s) :
    ∃ s', peers.foldlM (window.visit bufferRadius d) s = some s' ∧
      window.Visiting bufferRadius gid d s' ∧ window.Lowers bufferRadius s s' ∧
        ∀ peerGid ∈ peers, peerGid ∈ window.gadgets → d + window.stepTo peerGid ≤ bufferRadius →
            ∃ e ≤ d + window.stepTo peerGid, s'.dist.lookup peerGid = some e := by
  induction peers generalizing s with
  | nil => exact ⟨s, rfl, h, .refl, by simp⟩
  | cons peerGid peers ih =>
    obtain ⟨s₁, hs₁, hvisiting, hlowers, hpeer⟩ := h.visit hgadget (hpeers _ List.mem_cons_self)
    obtain ⟨s₂, hs₂, hvisiting', hlowers', hrest⟩ :=
      ih (fun other hother => hpeers other (List.mem_cons_of_mem _ hother)) hvisiting
    refine ⟨s₂, by simp [List.foldlM_cons, hs₁, hs₂], hvisiting', hlowers.trans hlowers', ?_⟩
    intro other hother hexplored hnear
    obtain rfl | hother := List.mem_cons.mp hother
    · obtain ⟨e, he, hlabel⟩ := hpeer hexplored hnear
      obtain ⟨e', he', hlabel'⟩ := hlowers'.dist _ _ hlabel
      exact ⟨e', he'.trans he, hlabel'⟩
    · exact hrest other hother hexplored hnear

theorem shrinkLoop_spec {fuel : ℕ} (hsound : window.Sound bufferRadius s)
    (hrelaxed : ∀ gid, gid ∉ s.deque → window.RelaxedFrom bufferRadius s gid)
    (hfuel : window.potential bufferRadius s < fuel) :
    ∃ s', window.shrinkLoop bufferRadius fuel s = some s' ∧ window.Sound bufferRadius s' ∧
      ∀ gid, window.RelaxedFrom bufferRadius s' gid := by
  induction fuel generalizing s with
  | zero => omega
  | succ fuel ih =>
    obtain ⟨dist, deque, kept⟩ := s
    cases deque with
    | nil => exact ⟨_, rfl, hsound, fun gid => hrelaxed gid List.not_mem_nil⟩
    | cons gid rest =>
      obtain ⟨d, hd, hlabel⟩ := hsound.deque gid List.mem_cons_self
      obtain ⟨gadget, hgadget⟩ := isSome_iff_exists.mp
        (window.executed gid (hsound.reached gid d hlabel).2.mem_gadgets)
      have hvisiting : window.Visiting bufferRadius gid d ⟨dist, rest, kept⟩ := {
        reached := hsound.reached
        kept := hsound.kept
        source := hsound.source
        deque := fun other hother => hsound.deque other (List.mem_cons_of_mem _ hother)
        counted := hsound.counted
        label := hlabel
        below := hd
        relaxed := fun other hother hne => hrelaxed other (by simp [hother, hne]) }
      obtain ⟨s', hs', hvisiting', hlowers, hpeers⟩ :=
        hvisiting.foldlM_visit hgadget (fun _ h => h)
      have hrelaxed' : ∀ other, other ∉ s'.deque →
          window.RelaxedFrom bufferRadius s' other := by
        intro other hother
        by_cases hgid : other = gid
        · subst hgid
          intro e he hbelow target htarget hnear
          rw [hvisiting'.label, some_inj] at he
          subst he
          obtain ⟨hexplored, gadget', hgadget', hmem⟩ := htarget
          rw [hgadget, mem_some_iff] at hgadget'
          subst hgadget'
          exact hpeers target hmem hexplored hnear
        · exact hvisiting'.relaxed other hother hgid
      have hpotential := hlowers.potential
      obtain ⟨s'', hs'', hresult⟩ := ih hvisiting'.toSound hrelaxed'
        (by simp only [potential, List.length_cons] at hfuel hpotential ⊢; omega)
      refine ⟨s'', ?_, hresult⟩
      change ((dist.lookup gid).bind fun myDist => (instances.lookup gid).bind fun gadget =>
        _) = _
      rw [hlabel, hgadget]
      simpa [hs'] using hs''

theorem lookup_foldl_insert (dist : GidMap ℕ) (region : List ℕ) (gid : ℕ) :
    (region.foldl (fun dist gid => dist.insert gid 0) dist).lookup gid =
      if gid ∈ region then some 0 else dist.lookup gid := by
  induction region generalizing dist with
  | nil => rfl
  | cons head region ih =>
    rw [List.foldl_cons, ih]
    by_cases hgid : gid = head
    · subst hgid
      simp
    · simp [hgid]

theorem lookup_shrinkStart (gid : ℕ) :
    window.shrinkStart.dist.lookup gid = if gid ∈ window.commitRegion then some 0 else none := by
  rw [shrinkStart, lookup_foldl_insert, lookup_empty]

theorem sound_shrinkStart (h : 1 ≤ bufferRadius) :
    window.Sound bufferRadius window.shrinkStart := by
  constructor
  · intro gid d hd
    rw [lookup_shrinkStart] at hd
    split_ifs at hd with hcommit
    cases hd
    exact ⟨Nat.zero_le _, .source hcommit⟩
  · intro gid
    rw [lookup_shrinkStart]
    by_cases hcommit : gid ∈ window.commitRegion <;> simp [shrinkStart, hcommit]
  · intro gid hcommit
    rw [lookup_shrinkStart, if_pos hcommit]
  · intro gid hcommit
    exact ⟨0, h, (lookup_shrinkStart gid).trans (if_pos hcommit)⟩
  · intro gid hd
    rw [lookup_shrinkStart] at hd
    split_ifs at hd
    simp only [some_inj] at hd
    omega

theorem mem_shrinkWindow (h : 1 ≤ bufferRadius) :
    ∃ decoderWindow, window.shrinkWindow bufferRadius = some decoderWindow ∧
      ∀ gid, gid ∈ decoderWindow ↔ gid ∈ window.within (bufferRadius - 1) ∨
        gid ∈ window.within bufferRadius ∧ ¬ window.IsFreeHop gid := by
  have hrelaxed : ∀ gid, gid ∉ window.shrinkStart.deque →
      window.RelaxedFrom bufferRadius window.shrinkStart gid := by
    intro gid (hgid : gid ∉ window.commitRegion) d hd
    rw [lookup_shrinkStart, if_neg hgid] at hd
    cases hd
  have hsum : ∑ gid ∈ window.gadgets,
      (window.shrinkStart.dist.lookup gid).getD (bufferRadius + 1) ≤
        window.gadgets.card • (bufferRadius + 1) := by
    refine Finset.sum_le_card_nsmul _ _ _ fun gid _ => ?_
    rw [lookup_shrinkStart]
    split_ifs <;> simp
  rw [smul_eq_mul] at hsum
  obtain ⟨s, hs, hsound, hrelaxed'⟩ := shrinkLoop_spec (sound_shrinkStart h) hrelaxed
    (Nat.lt_succ_of_le (Nat.add_le_add_right hsum window.commitRegion.length))
  refine ⟨s.decoderWindow, by rw [shrinkWindow, hs, map_some], fun gid => ?_⟩
  have hlabels : RelaxedBelow {c | c ∈ window.commitRegion} window.Adjacent window.stepTo
      bufferRadius (s.dist.lookup ·) :=
    ⟨hsound.source, hrelaxed'⟩
  rw [hsound.kept, isSome_iff_exists]
  constructor
  · rintro ⟨d, hd⟩
    obtain ⟨hle, hreached⟩ := hsound.reached gid d hd
    have hexplored := hreached.mem_gadgets
    obtain hlt | rfl := hle.lt_or_eq
    · exact .inl ⟨hexplored, d, by omega, hreached⟩
    · refine .inr ⟨⟨hexplored, _, le_rfl, hreached⟩, ?_⟩
      rw [isFreeHop_iff hexplored]
      exact (hsound.counted gid hd).ne'
  · rintro (⟨-, d, hd, hreached⟩ | ⟨⟨hexplored, d, hd, hreached⟩, hcounted⟩)
    · obtain ⟨e, -, he⟩ := hlabels.exists_label_of_lt hreached (by omega)
      exact ⟨e, he⟩
    · rw [isFreeHop_iff hexplored] at hcounted
      obtain ⟨e, -, he⟩ := hlabels.exists_label_of_le hreached hd (Nat.pos_of_ne_zero hcounted)
      exact ⟨e, he⟩

/-- The computed window is the documented one exactly when no free hop of the window is at the
buffer radius. -/
theorem shrinkWindow_eq_within_iff (window : ExploredWindow instances) (bufferRadius : ℕ)
    (h : 1 ≤ bufferRadius) :
    (∃ decoderWindow, window.shrinkWindow bufferRadius = some decoderWindow ∧
      ∀ gid, gid ∈ decoderWindow ↔ gid ∈ window.within bufferRadius) ↔
        ∀ gid, window.IsFreeHop gid → gid ∈ window.within bufferRadius →
          gid ∈ window.within (bufferRadius - 1) := by
  obtain ⟨decoderWindow, hwindow, hmem⟩ := @mem_shrinkWindow _ _ window _ h
  constructor
  · rintro ⟨_, hwindow', hdocumented⟩ gid hfree hgid
    obtain rfl := some_inj.mp (hwindow.symm.trans hwindow')
    exact ((hmem gid).mp ((hdocumented gid).mpr hgid)).resolve_right fun h => h.2 hfree
  · intro hcondition
    refine ⟨decoderWindow, hwindow, fun gid => (hmem gid).trans ⟨?_, fun hgid => ?_⟩⟩
    · rintro (⟨hexplored, d, hd, hreached⟩ | hgid)
      · exact ⟨hexplored, d, by omega, hreached⟩
      · exact hgid.1
    · by_cases hfree : window.IsFreeHop gid
      · exact .inl (hcondition gid hfree hgid)
      · exact .inr ⟨hgid, hfree⟩

/-- A gadget that is connected to one before and one after it. -/
def chainGadget (before after : List ℕ) (isFreeHop : Bool) : WindowGadget K where
  gtype := 0
  connectors := before.map (⟨·, 0⟩)
  outcomes := none
  probabilityModifiers := []
  bindingCid := none
  outputs := after.map (some ⟨·, 0⟩)
  isFreeHop := isFreeHop
  lossMask := none
  decoderSeed := none

/-- A committed gadget, a counted one after it and a free hop after that. -/
def chainInstances : GidMap (WindowGadget ℕ) :=
  [⟨1, chainGadget [] [2] false⟩, ⟨2, chainGadget [1] [3] false⟩,
    ⟨3, chainGadget [2] [] true⟩].toAList

/-- The whole chain is explored, and its first gadget is committed. -/
def chainWindow : ExploredWindow chainInstances where
  gadgets := {1, 2, 3}
  commitRegion := [1]
  executed := by decide
  explored := by decide

/-- The free hop after a gadget at the buffer radius is at the buffer radius too, and it is not
kept. -/
theorem shrinkWindow_chainWindow :
    chainWindow.shrinkWindow 1 = some {1, 2} ∧ 3 ∈ chainWindow.within 1 := by
  refine ⟨by decide, by decide, 1, le_rfl, ?_⟩
  have hcommit : chainWindow.Reached 0 1 := .source (by decide)
  have hcounted := hcommit.step (y := 2) ⟨by decide, _, rfl, by decide⟩
  exact hcounted.step (y := 3) ⟨by decide, _, rfl, by decide⟩

theorem shrinkWindow_eq_within_iff_chainWindow :
    (∃ decoderWindow, chainWindow.shrinkWindow 2 = some decoderWindow ∧
      ∀ gid, gid ∈ decoderWindow ↔ gid ∈ chainWindow.within 2) ↔
        ∀ gid, chainWindow.IsFreeHop gid → gid ∈ chainWindow.within 2 →
          gid ∈ chainWindow.within 1 :=
  shrinkWindow_eq_within_iff chainWindow 2 (by decide)

end ExploredWindow

end QdkEc
