import Mathlib.Data.List.Nodup
import Mathlib.Data.List.Pairwise
import QdkEc.Lib.OptionTraversal

/-!
# Names for the ports of a sequence of nodes

This module collects what is used of programs in which nodes are joined by names.  A node
reads some names and then binds names to its own output ports, and a name stands for the
port it was bound to last.  Each port is read exactly once, by a port of its type, exactly
when the names are used linearly: a node reads distinct names that are live with the types
of its inputs, it binds all its ports to distinct names that are not live, and no name is
live in the end.
-/

namespace QdkEc

open List

section Assign

variable {α β : Type} [DecidableEq α]

/-- Assign values to keys, in order. -/
def assignAll (dict : α → Option β) (entries : List (α × β)) : α → Option β :=
  entries.foldl (fun dict entry => Function.update dict entry.1 (some entry.2)) dict

variable {dict : α → Option β} {entries : List (α × β)} {key : α} {value : β}

@[simp] theorem assignAll_nil : assignAll dict [] = dict :=
  rfl

@[simp] theorem assignAll_cons {entry : α × β} : assignAll dict (entry :: entries) =
      assignAll (Function.update dict entry.1 (some entry.2)) entries :=
  rfl

theorem assignAll_of_notMem (h : key ∉ entries.map Prod.fst) :
    assignAll dict entries key = dict key := by
  induction entries generalizing dict with
  | nil => rfl
  | cons entry entries ih =>
    rw [map_cons, mem_cons, not_or] at h
    rw [assignAll_cons, ih h.2, Function.update_of_ne h.1]

theorem assignAll_eq_some (h : assignAll dict entries key = some value) :
    (key, value) ∈ entries ∨ key ∉ entries.map Prod.fst ∧ dict key = some value := by
  induction entries generalizing dict with
  | nil => exact .inr ⟨not_mem_nil, h⟩
  | cons entry entries ih =>
    rw [assignAll_cons] at h
    rcases ih h with hmem | ⟨hnot, hdict⟩
    · exact .inl (mem_cons_of_mem _ hmem)
    · by_cases hkey : key = entry.1
      · subst hkey
        rw [Function.update_self, Option.some.injEq] at hdict
        subst hdict
        exact .inl mem_cons_self
      · rw [Function.update_of_ne hkey] at hdict
        refine .inr ⟨?_, hdict⟩
        rw [map_cons, mem_cons, not_or]
        exact ⟨hkey, hnot⟩

theorem assignAll_of_mem (hnodup : (entries.map Prod.fst).Nodup) (h : (key, value) ∈ entries) :
    assignAll dict entries key = some value := by
  induction entries generalizing dict with
  | nil => cases h
  | cons entry entries ih =>
    rw [map_cons, nodup_cons] at hnodup
    rcases mem_cons.mp h with rfl | hmem
    · rw [assignAll_cons, assignAll_of_notMem hnodup.1, Function.update_self]
    · exact ih hnodup.2 hmem

theorem assignAll_ne_none : assignAll dict entries key ≠ none ↔
      dict key ≠ none ∨ key ∈ entries.map Prod.fst := by
  induction entries generalizing dict with
  | nil => simp
  | cons entry entries ih =>
    rw [assignAll_cons, ih, map_cons, mem_cons]
    by_cases hkey : key = entry.1
    · subst hkey
      simp
    · simp [hkey]

end Assign

/-- A node reads names for its inputs and then binds names to its outputs. -/
structure WireNode (α T : Type) where
  ins : List α
  inTypes : List T
  outs : List α
  outTypes : List T

/-- A node of a program, with the ports that its inputs are connected to. -/
structure WiredNode (T : Type) where
  id : ℕ
  inTypes : List T
  outTypes : List T
  connectors : List (ℕ × ℕ)

section Wiring

variable {α T : Type} [DecidableEq α]

/-- Bind names to the ports of a node. -/
def bindPorts (source : α → Option (ℕ × ℕ)) (id : ℕ) (outs : List α) : α → Option (ℕ × ℕ) :=
  assignAll source (outs.zipIdx.map fun entry => (entry.1, (id, entry.2)))

/-- Replace names by the ports they were bound to last. -/
def resolveNodes (id : ℕ) (source : α → Option (ℕ × ℕ)) :
    List (WireNode α T) → Option (List (WiredNode T))
  | [] => some []
  | node :: nodes =>
    (node.ins.mapM source).bind fun connectors =>
      if node.outs.length ≤ node.outTypes.length then
        (resolveNodes (id + 1) (bindPorts source id node.outs) nodes).map
          (⟨id, node.inTypes, node.outTypes, connectors⟩ :: ·)
      else none

/-- How often a port is read. -/
def consumers (program : List (WiredNode T)) (port : ℕ × ℕ) : ℕ :=
  (program.flatMap WiredNode.connectors).count port

/-- A connector joins an output port of an earlier node to an input port of the same type. -/
def ConnectorTyped (program : List (WiredNode T)) (wired : WiredNode T) (input : ℕ)
    (connector : ℕ × ℕ) :
    Prop :=
  ∃ source ∈ program, source.id = connector.1 ∧ source.id < wired.id ∧
    ∃ type, source.outTypes[connector.2]? = some type ∧
      wired.inTypes[input]? = some type

/-- Each output port is read exactly once, and each connector joins ports of the same type. -/
structure SoundWiring (program : List (WiredNode T)) : Prop where
  once : ∀ wired ∈ program, ∀ port < wired.outTypes.length,
    consumers program (wired.id, port) = 1
  typed : ∀ wired ∈ program, ∀ input connector,
    wired.connectors[input]? = some connector →
      ConnectorTyped program wired input connector

/-- Each name that a node reads was bound before. -/
def BoundNames (known : α → Prop) :
    List (WireNode α T) → Prop
  | [] => True
  | node :: nodes =>
    (∀ name ∈ node.ins, known name) ∧
      BoundNames (fun name => known name ∨ name ∈ node.outs) nodes

/-- A node reads distinct live names with the types of its inputs, and it binds each of its
ports. -/
structure ReadsLive (live : α → Option T) (node : WireNode α T) : Prop where
  nodup : node.ins.Nodup
  typed : ∀ (input : ℕ) name, node.ins[input]? = some name →
    ∃ type, live name = some type ∧ node.inTypes[input]? = some type
  length : node.outs.length = node.outTypes.length

def liveAfter (live : α → Option T) (node : WireNode α T) : α → Option T :=
  assignAll (fun name => if name ∈ node.ins then none else live name)
    (node.outs.zip node.outTypes)

/-- Each node reads distinct live names with the types of its inputs. -/
def ReadsLinearly (live : α → Option T) :
    List (WireNode α T) → Prop
  | [] => True
  | node :: nodes => ReadsLive live node ∧ ReadsLinearly (liveAfter live node) nodes

/-- A node binds its ports to distinct names that are not live. -/
structure BindsFresh (live : α → Option T) (node : WireNode α T) : Prop where
  nodup : node.outs.Nodup
  fresh : ∀ name ∈ node.outs, name ∈ node.ins ∨ live name = none

/-- Names are used linearly: what is bound is read before it is bound again, and in the end
everything was read. -/
def BindsLinearly (live : α → Option T) :
    List (WireNode α T) → Prop
  | [] => ∀ name, live name = none
  | node :: nodes => BindsFresh live node ∧ BindsLinearly (liveAfter live node) nodes

/-- What holds between nodes: a name that was bound stands for a port of a node before, which
is unread when the name is live and read otherwise; no two names stand for one port; and each
port is read once, or it is the port of a live name and unread. -/
structure WiringInvariant (program : List (WiredNode T)) (id : ℕ) (source : α → Option (ℕ × ℕ))
    (live : α → Option T) :
    Prop where
  ids : ∀ wired ∈ program, wired.id < id
  distinct : (program.map WiredNode.id).Nodup
  bound : ∀ name port, source name = some port →
    ∃ wired ∈ program, wired.id = port.1 ∧
      ∃ type, wired.outTypes[port.2]? = some type ∧
        (live name = some type ∧ consumers program port = 0 ∨
          live name = none ∧ 0 < consumers program port)
  live_bound : ∀ name, live name ≠ none → source name ≠ none
  injective : ∀ name other port, source name = some port →
    source other = some port → name = other
  once : ∀ wired ∈ program, ∀ port < wired.outTypes.length,
    consumers program (wired.id, port) = 1 ∨
      consumers program (wired.id, port) = 0 ∧
        ∃ name, source name = some (wired.id, port) ∧ live name ≠ none
  typed : ∀ wired ∈ program, ∀ input connector,
    wired.connectors[input]? = some connector →
      ConnectorTyped program wired input connector

omit [DecidableEq α] in
/-- What holds before the first node. -/
theorem WiringInvariant.nil {id : ℕ} :
    WiringInvariant (α := α) (T := T) [] id (fun _ => none) (fun _ => none) where
  ids _ h := (not_mem_nil h).elim
  distinct := nodup_nil
  bound _ _ h := nomatch h
  live_bound _ h := (h rfl).elim
  injective _ _ _ h := nomatch h
  once _ h := (not_mem_nil h).elim
  typed _ h := (not_mem_nil h).elim

variable {program rest : List (WiredNode T)} {id : ℕ} {source : α → Option (ℕ × ℕ)}
variable {live : α → Option T} {node : WireNode α T} {nodes : List (WireNode α T)}
variable {connectors : List (ℕ × ℕ)} {name : α} {port : ℕ × ℕ}

variable {outs : List α}

theorem bindPorts_eq_some (h : bindPorts source id outs name = some port) :
    (∃ output : ℕ, outs[output]? = some name ∧ port = (id, output)) ∨
      name ∉ outs ∧ source name = some port := by
  rcases assignAll_eq_some h with hmem | ⟨hnot, hsource⟩
  · obtain ⟨entry, hentry, heq⟩ := mem_map.mp hmem
    cases heq
    exact .inl ⟨entry.2, mem_zipIdx_iff_getElem?.mp hentry, rfl⟩
  · refine .inr ⟨fun hmem => hnot ?_, hsource⟩
    obtain ⟨output, houtput⟩ := getElem?_of_mem hmem
    rw [map_map]
    exact mem_map_of_mem (f := Prod.fst ∘ fun entry : α × ℕ => (entry.1, (id, entry.2)))
      (mem_zipIdx_iff_getElem?.mpr houtput : (name, output) ∈ outs.zipIdx)

omit [DecidableEq α] in
theorem map_fst_zipIdx :
    (outs.zipIdx.map fun entry => (entry.1, (id, entry.2))).map Prod.fst = outs := by
  rw [map_map]
  exact zipIdx_map_fst 0 outs

theorem bindPorts_of_notMem (h : name ∉ outs) : bindPorts source id outs name = source name := by
  refine assignAll_of_notMem ?_
  rw [map_fst_zipIdx]
  exact h

theorem bindPorts_of_nodup {output : ℕ} (hnodup : outs.Nodup) (h : outs[output]? = some name) :
    bindPorts source id outs name = some (id, output) := by
  refine assignAll_of_mem ?_ ?_
  · rw [map_fst_zipIdx]
    exact hnodup
  · exact mem_map.mpr ⟨(name, output), mem_zipIdx_iff_getElem?.mpr h, rfl⟩

theorem bindPorts_ne_none :
    bindPorts source id outs name ≠ none ↔ source name ≠ none ∨ name ∈ outs := by
  rw [bindPorts, assignAll_ne_none, map_fst_zipIdx]

theorem liveAfter_of_notMem (h : name ∉ node.outs) :
    liveAfter live node name = if name ∈ node.ins then none else live name := by
  refine assignAll_of_notMem fun hmem => h ?_
  obtain ⟨entry, hentry, rfl⟩ := mem_map.mp hmem
  exact (of_mem_zip hentry).1

theorem liveAfter_of_mem (live : α → Option T) {output : ℕ} (hnodup : node.outs.Nodup)
    (hlength : node.outs.length = node.outTypes.length) (h : node.outs[output]? = some name) :
    ∃ type, node.outTypes[output]? = some type ∧ liveAfter live node name = some type := by
  obtain ⟨hlt, rfl⟩ := List.getElem?_eq_some_iff.mp h
  refine ⟨node.outTypes[output], List.getElem?_eq_getElem (hlength ▸ hlt), ?_⟩
  refine assignAll_of_mem ?_ ?_
  · rw [List.map_fst_zip (Nat.le_of_eq hlength)]
    exact hnodup
  · refine mem_iff_getElem.mpr ⟨output, ?_, getElem_zip⟩
    rw [length_zip]
    omega

theorem liveAfter_ne_none (h : liveAfter live node name ≠ none) :
    name ∈ node.outs ∨ name ∉ node.ins ∧ live name ≠ none := by
  rcases assignAll_ne_none.mp h with hlive | hmem
  · by_cases hread : name ∈ node.ins
    · exact (hlive (if_pos hread)).elim
    · exact .inr ⟨hread, fun hnone => hlive ((if_neg hread).trans hnone)⟩
  · obtain ⟨entry, hentry, rfl⟩ := mem_map.mp hmem
    exact .inl (of_mem_zip hentry).1

omit [DecidableEq α] in
theorem consumers_append :
    consumers (program ++ rest) port = consumers program port + consumers rest port := by
  rw [consumers, flatMap_append, count_append]
  rfl

omit [DecidableEq α] in
theorem consumers_snoc {wired : WiredNode T} : consumers (program ++ [wired]) port =
      consumers program port + wired.connectors.count port := by
  rw [consumers_append, consumers, consumers, flatMap_singleton]

omit [DecidableEq α] in
theorem ConnectorTyped.mono {larger : List (WiredNode T)} {wired : WiredNode T} {input : ℕ}
    (h : ConnectorTyped program wired input port) (hsubset : ∀ wired ∈ program, wired ∈ larger) :
    ConnectorTyped larger wired input port := by
  obtain ⟨source, hmem, hrest⟩ := h
  exact ⟨source, hsubset _ hmem, hrest⟩

omit [DecidableEq α] in
theorem map_source_eq (h : node.ins.mapM source = some connectors) :
    node.ins.map source = connectors.map some :=
  forall₂_eq_eq_eq ▸ forall₂_map_left_iff.mpr
    (forall₂_map_right_iff.mpr (mapM_eq_some_iff.mp h))

namespace WiringInvariant

omit [DecidableEq α]

section

variable (inv : WiringInvariant program id source live)

include inv

theorem lt (h : source name = some port) :
    port.1 < id := by
  obtain ⟨wired, hmem, hid, -⟩ := inv.bound name port h
  rw [← hid]
  exact inv.ids wired hmem

theorem unread (h : source name = some port)
    (hlive : live name ≠ none) : consumers program port = 0 := by
  obtain ⟨_, -, -, _, -, ⟨-, hunread⟩ | ⟨hnone, -⟩⟩ := inv.bound name port h
  · exact hunread
  · exact (hlive hnone).elim

theorem consumers_next (output : ℕ) :
    consumers program (id, output) = 0 := by
  refine count_eq_zero.mpr fun hmem => ?_
  obtain ⟨wired, hwired, hconnector⟩ := mem_flatMap.mp hmem
  obtain ⟨input, hinput⟩ := getElem?_of_mem hconnector
  obtain ⟨earlier, hearlier, hid, -⟩ := inv.typed wired hwired input _ hinput
  exact Nat.lt_irrefl _ (hid ▸ inv.ids earlier hearlier)

theorem connectors_nodup (hnodup : node.ins.Nodup)
    (h : node.ins.mapM source = some connectors) : connectors.Nodup := by
  have hmap := map_source_eq h
  refine List.Nodup.of_map some (hmap ▸ hnodup.map_on fun name hname other _ heq => ?_)
  obtain ⟨port, hport⟩ := Option.isSome_iff_exists.mp
    (isSome_mapM_iff.mp (Option.isSome_of_eq_some h) name hname)
  exact inv.injective name other port hport (heq ▸ hport)

theorem count_connectors_next
    (h : node.ins.mapM source = some connectors) (output : ℕ) :
    connectors.count (id, output) = 0 := by
  refine count_eq_zero.mpr fun hmem => ?_
  obtain ⟨other, -, hother⟩ := (mem_mapM_iff h).mp hmem
  exact Nat.lt_irrefl _ (inv.lt hother)

theorem count_connectors_eq_zero_iff
    (h : node.ins.mapM source = some connectors) (hsource : source name = some port) :
    connectors.count port = 0 ↔ name ∉ node.ins := by
  rw [count_eq_zero, mem_mapM_iff h]
  refine not_congr ⟨?_, fun hname => ⟨name, hname, hsource⟩⟩
  rintro ⟨other, hother, hsource'⟩
  rwa [inv.injective name other port hsource hsource']

end

end WiringInvariant

theorem WiringInvariant.step (inv : WiringInvariant program id source live)
    (hreads : ReadsLive live node) (hfresh : BindsFresh live node)
    (hconnectors : node.ins.mapM source = some connectors) :
    WiringInvariant (program ++ [⟨id, node.inTypes, node.outTypes, connectors⟩]) (id + 1)
      (bindPorts source id node.outs) (liveAfter live node) := by
  have hnodup := inv.connectors_nodup hreads.nodup hconnectors
  have hsubset : ∀ wired ∈ program,
      wired ∈ program ++ [⟨id, node.inTypes, node.outTypes, connectors⟩] :=
    fun wired hmem => List.mem_append_left _ hmem
  refine ⟨?_, ?_, ?_, ?_, ?_, ?_, ?_⟩
  · intro wired hmem
    rcases mem_append.mp hmem with hold | hnew
    · exact Nat.lt_succ_of_lt (inv.ids wired hold)
    · rw [mem_singleton.mp hnew]
      exact Nat.lt_succ_self id
  · rw [map_append]
    refine inv.distinct.append (nodup_singleton _) ?_
    intro other hother hid
    obtain ⟨wired, hwired, rfl⟩ := mem_map.mp hother
    exact Nat.ne_of_lt (inv.ids wired hwired) (mem_singleton.mp hid)
  · intro name port hport
    rw [consumers_snoc]
    dsimp only
    rcases bindPorts_eq_some hport with ⟨output, houtput, rfl⟩ | ⟨hnot, hold⟩
    · obtain ⟨type, htype, hlive⟩ :=
        liveAfter_of_mem live hfresh.nodup hreads.length houtput
      refine ⟨_, mem_append_right _ (mem_singleton_self _), rfl, type, htype, ?_⟩
      refine .inl ⟨hlive, ?_⟩
      rw [inv.consumers_next, inv.count_connectors_next hconnectors]
    · obtain ⟨wired, hwired, hid, type, htype, hcase⟩ := inv.bound name port hold
      refine ⟨wired, hsubset wired hwired, hid, type, htype, ?_⟩
      rw [liveAfter_of_notMem hnot]
      have hcount := inv.count_connectors_eq_zero_iff hconnectors hold
      by_cases hmem : name ∈ node.ins
      · have hpos : connectors.count port ≠ 0 := fun hzero => hcount.mp hzero hmem
        rw [if_pos hmem]
        exact .inr ⟨rfl, by omega⟩
      · rw [if_neg hmem, hcount.mpr hmem]
        exact hcase
  · intro name hlive
    rw [bindPorts_ne_none]
    by_cases hmem : name ∈ node.outs
    · exact .inr hmem
    · rw [liveAfter_of_notMem hmem] at hlive
      exact .inl (inv.live_bound name fun h => hlive (by rw [h, ite_self]))
  · intro name other port hname hother
    rcases bindPorts_eq_some hname with ⟨output, houtput, rfl⟩ | ⟨-, hold⟩
    · rcases bindPorts_eq_some hother with ⟨output', houtput', heq⟩ | ⟨-, hold'⟩
      · cases heq
        exact Option.some.inj (houtput.symm.trans houtput')
      · exact (Nat.lt_irrefl _ (inv.lt hold')).elim
    · rcases bindPorts_eq_some hother with ⟨output', houtput', rfl⟩ | ⟨-, hold'⟩
      · exact (Nat.lt_irrefl _ (inv.lt hold)).elim
      · exact inv.injective name other port hold hold'
  · intro wired hmem output hlt
    rw [consumers_snoc]
    dsimp only
    rcases mem_append.mp hmem with hold | hnew
    · rcases inv.once wired hold output hlt with hone | ⟨hzero, name, hsource, hlive⟩
      · refine .inl ?_
        have hcount : connectors.count (wired.id, output) = 0 := by
          refine count_eq_zero.mpr fun hport => ?_
          obtain ⟨name, hname, hsource⟩ := (mem_mapM_iff hconnectors).mp hport
          obtain ⟨input, hinput⟩ := getElem?_of_mem hname
          obtain ⟨type, hlive, -⟩ := hreads.typed input name hinput
          have hunread := inv.unread hsource (hlive ▸ Option.some_ne_none type)
          omega
        omega
      · by_cases hname : name ∈ node.ins
        · refine .inl ?_
          rw [hzero, Nat.zero_add]
          exact count_eq_one_of_mem hnodup
            ((mem_mapM_iff hconnectors).mpr ⟨name, hname, hsource⟩)
        · have hout : name ∉ node.outs := fun hout =>
            (hfresh.fresh name hout).elim hname hlive
          refine .inr ⟨?_, name, ?_, ?_⟩
          · rw [hzero, (inv.count_connectors_eq_zero_iff hconnectors hsource).mpr hname]
          · rw [bindPorts_of_notMem hout, hsource]
          · rw [liveAfter_of_notMem hout, if_neg hname]
            exact hlive
    · obtain rfl := mem_singleton.mp hnew
      have hlt' : output < node.outs.length := hreads.length ▸ hlt
      have houtput := List.getElem?_eq_getElem hlt'
      obtain ⟨type, -, hlive⟩ := liveAfter_of_mem live hfresh.nodup hreads.length houtput
      refine .inr ⟨?_, node.outs[output], bindPorts_of_nodup hfresh.nodup houtput, ?_⟩
      · rw [inv.consumers_next, inv.count_connectors_next hconnectors]
      · rw [hlive]
        exact Option.some_ne_none type
  · intro wired hmem input connector hinput
    rcases mem_append.mp hmem with hold | hnew
    · exact (inv.typed wired hold input connector hinput).mono hsubset
    · obtain rfl := mem_singleton.mp hnew
      obtain ⟨name, hname, hsource⟩ := exists_getElem?_of_mapM hconnectors hinput
      obtain ⟨type, hlive, htype⟩ := hreads.typed input name hname
      obtain ⟨earlier, hearlier, hid, type', htype', ⟨hlive', -⟩ | ⟨hnone, -⟩⟩ :=
        inv.bound name connector hsource
      · obtain rfl : type = type' := Option.some.inj (hlive.symm.trans hlive')
        exact ⟨earlier, hsubset earlier hearlier, hid, inv.ids earlier hearlier, type, htype',
          htype⟩
      · rw [hlive] at hnone
        cases hnone

theorem resolveNodes_cons_eq_some {program : List (WiredNode T)} :
    resolveNodes id source (node :: nodes) = some program ↔
      ∃ connectors rest, node.ins.mapM source = some connectors ∧
        node.outs.length ≤ node.outTypes.length ∧
        resolveNodes (id + 1) (bindPorts source id node.outs) nodes = some rest ∧
        program = ⟨id, node.inTypes, node.outTypes, connectors⟩ :: rest := by
  rw [resolveNodes, Option.bind_eq_some_iff]
  constructor
  · rintro ⟨connectors, hconnectors, hrest⟩
    split at hrest
    · rename_i hlength
      obtain ⟨rest, hresolve, rfl⟩ := Option.map_eq_some_iff.mp hrest
      exact ⟨connectors, rest, hconnectors, hlength, hresolve, rfl⟩
    · cases hrest
  · rintro ⟨connectors, rest, hconnectors, hlength, hresolve, rfl⟩
    refine ⟨connectors, hconnectors, ?_⟩
    rw [if_pos hlength, hresolve, Option.map_some]

theorem isSome_resolveNodes_iff : (resolveNodes id source nodes).isSome ↔
      BoundNames (fun name => source name ≠ none) nodes ∧
        ∀ node ∈ nodes, node.outs.length ≤ node.outTypes.length := by
  induction nodes generalizing id source with
  | nil => simp [resolveNodes, BoundNames]
  | cons node nodes ih =>
    have hbound : BoundNames (fun name => source name ≠ none ∨ name ∈ node.outs) nodes ↔
        BoundNames (fun name => bindPorts source id node.outs name ≠ none) nodes := by
      simp only [bindPorts_ne_none]
    have hins : (∀ name ∈ node.ins, source name ≠ none) ↔ (node.ins.mapM source).isSome := by
      rw [isSome_mapM_iff]
      simp only [Option.isSome_iff_ne_none]
    rw [BoundNames, hbound, hins, forall_mem_cons, Option.isSome_iff_exists]
    constructor
    · rintro ⟨program, hprogram⟩
      obtain ⟨connectors, rest, hconnectors, hlength, hresolve, -⟩ :=
        resolveNodes_cons_eq_some.mp hprogram
      obtain ⟨hrest, hlengths⟩ := ih.mp (Option.isSome_of_eq_some hresolve)
      exact ⟨⟨Option.isSome_of_eq_some hconnectors, hrest⟩, hlength, hlengths⟩
    · rintro ⟨⟨hconnectors, hrest⟩, hlength, hlengths⟩
      obtain ⟨connectors, hconnectors⟩ := Option.isSome_iff_exists.mp hconnectors
      obtain ⟨rest, hresolve⟩ := Option.isSome_iff_exists.mp (ih.mpr ⟨hrest, hlengths⟩)
      exact ⟨_, resolveNodes_cons_eq_some.mpr
        ⟨connectors, rest, hconnectors, hlength, hresolve, rfl⟩⟩

theorem le_of_resolveNodes (h : resolveNodes id source nodes = some rest) :
    ∀ wired ∈ rest, id ≤ wired.id := by
  induction nodes generalizing id source rest with
  | nil =>
    cases h
    exact fun _ hmem => (not_mem_nil hmem).elim
  | cons node nodes ih =>
    obtain ⟨connectors, rest, -, -, hresolve, rfl⟩ := resolveNodes_cons_eq_some.mp h
    intro wired hmem
    rcases mem_cons.mp hmem with rfl | hmem
    · exact Nat.le_refl _
    · exact Nat.le_of_succ_le (ih hresolve wired hmem)

theorem consumers_eq_zero_of_resolveNodes (port : ℕ × ℕ)
    (h : resolveNodes id source nodes = some rest) (hlt : port.1 < id)
    (hnot : ∀ name, source name ≠ some port) : consumers rest port = 0 := by
  induction nodes generalizing id source rest with
  | nil =>
    cases h
    rfl
  | cons node nodes ih =>
    obtain ⟨connectors, rest, hconnectors, -, hresolve, rfl⟩ := resolveNodes_cons_eq_some.mp h
    have hrest : consumers rest port = 0 := by
      refine ih hresolve (Nat.lt_succ_of_lt hlt) fun name hname => ?_
      rcases bindPorts_eq_some hname with ⟨output, -, rfl⟩ | ⟨-, hold⟩
      · exact Nat.lt_irrefl _ hlt
      · exact hnot name hold
    have hcount : connectors.count port = 0 := by
      refine count_eq_zero.mpr fun hmem => ?_
      obtain ⟨name, -, hname⟩ := (mem_mapM_iff hconnectors).mp hmem
      exact hnot name hname
    rw [consumers, flatMap_cons, count_append, hcount, Nat.zero_add]
    exact hrest

theorem WiringInvariant.sound (inv : WiringInvariant program id source live)
    (h : resolveNodes id source nodes = some rest) (hreads : ReadsLinearly live nodes)
    (hbinds : BindsLinearly live nodes) : SoundWiring (program ++ rest) := by
  induction nodes generalizing id source live program rest with
  | nil =>
    cases h
    rw [append_nil]
    refine ⟨fun wired hmem output hlt => ?_, inv.typed⟩
    rcases inv.once wired hmem output hlt with hone | ⟨-, name, -, hlive⟩
    · exact hone
    · exact (hlive (hbinds name)).elim
  | cons node nodes ih =>
    obtain ⟨connectors, rest, hconnectors, -, hresolve, rfl⟩ := resolveNodes_cons_eq_some.mp h
    have hstep := ih (inv.step hreads.1 hbinds.1 hconnectors) hresolve hreads.2 hbinds.2
    rwa [append_assoc] at hstep

section Necessity

variable (inv : WiringInvariant program id source live)
variable (hconnectors : node.ins.mapM source = some connectors)
variable (hresolve : resolveNodes (id + 1) (bindPorts source id node.outs) nodes = some rest)
variable (hsound : SoundWiring (program ++ ⟨id, node.inTypes, node.outTypes, connectors⟩ :: rest))

include inv hsound

omit [DecidableEq α] in
theorem WiringInvariant.consumers_eq_one (hname : source name = some port) :
    consumers program port + connectors.count port + consumers rest port = 1 := by
  obtain ⟨wired, hwired, hid, type, htype, -⟩ := inv.bound name port hname
  have hlt := (List.getElem?_eq_some_iff.mp htype).1
  have hone := hsound.once wired (List.mem_append_left _ hwired) port.2 hlt
  rw [hid, List.append_cons, consumers_append, consumers_snoc] at hone
  exact hone

include hconnectors

omit [DecidableEq α] in
theorem WiringInvariant.ins_nodup : node.ins.Nodup := by
  refine List.Nodup.of_map source ?_
  rw [map_source_eq hconnectors]
  refine (nodup_iff_count_le_one.mpr fun port => ?_).map fun _ _ => Option.some.inj
  by_cases hmem : port ∈ connectors
  · obtain ⟨name, -, hname⟩ := (mem_mapM_iff hconnectors).mp hmem
    have hone := inv.consumers_eq_one hsound hname
    omega
  · rw [count_eq_zero.mpr hmem]
    exact Nat.zero_le 1

include hresolve

theorem WiringInvariant.ins_typed {input : ℕ} (hinput : node.ins[input]? = some name) :
    ∃ type, live name = some type ∧ node.inTypes[input]? = some type := by
  have hforall := mapM_eq_some_iff.mp hconnectors
  obtain ⟨hlt, rfl⟩ := List.getElem?_eq_some_iff.mp hinput
  have hlt' : input < connectors.length := hforall.length_eq ▸ hlt
  have hconnector := List.getElem?_eq_getElem hlt'
  have hname : source node.ins[input] = some connectors[input] := hforall.get hlt hlt'
  obtain ⟨wired, hwired, hid, type, htype, hcase⟩ := inv.bound _ _ hname
  obtain ⟨earlier, hearlier, hid', hbefore, type', htype', hin⟩ :=
    hsound.typed ⟨id, node.inTypes, node.outTypes, connectors⟩
      (mem_append_right _ mem_cons_self) input _ hconnector
  have hsame : earlier = wired := by
    rcases mem_append.mp hearlier with hold | hnew
    · exact inj_on_of_nodup_map inv.distinct hold hwired (hid'.trans hid.symm)
    · have hle : id ≤ earlier.id := by
        rcases mem_cons.mp hnew with rfl | hrest
        · exact Nat.le_refl _
        · exact Nat.le_of_succ_le (le_of_resolveNodes hresolve earlier hrest)
      exact (Nat.not_lt_of_ge hle hbefore).elim
  rw [hsame, htype, Option.some.injEq] at htype'
  rcases hcase with ⟨hlive, -⟩ | ⟨-, hpos⟩
  · exact ⟨type, hlive, htype' ▸ hin⟩
  · have hone := inv.consumers_eq_one hsound hname
    have hcount := count_pos_iff.mpr (mem_of_getElem? hconnector)
    omega

theorem WiringInvariant.exists_bound (output : ℕ) (hlt : output < node.outTypes.length) :
    ∃ name, bindPorts source id node.outs name = some (id, output) := by
  by_contra hnone
  have hone := hsound.once ⟨id, node.inTypes, node.outTypes, connectors⟩
    (mem_append_right _ mem_cons_self) output hlt
  have hrest := consumers_eq_zero_of_resolveNodes (id, output) hresolve
    (Nat.lt_succ_self id) fun name hname => hnone ⟨name, hname⟩
  have hcount : connectors.count (id, output) = 0 := by
    refine count_eq_zero.mpr fun hmem => ?_
    obtain ⟨name, -, hname⟩ := (mem_mapM_iff hconnectors).mp hmem
    exact Nat.lt_irrefl _ (inv.lt hname)
  rw [List.append_cons, consumers_append, consumers_snoc, inv.consumers_next] at hone
  dsimp only at hone
  omega

theorem WiringInvariant.getElem?_outs (output : ℕ) (hlt : output < node.outTypes.length) :
    ∃ name, node.outs[output]? = some name ∧
      bindPorts source id node.outs name = some (id, output) := by
  obtain ⟨name, hname⟩ := inv.exists_bound hconnectors hresolve hsound output hlt
  rcases bindPorts_eq_some hname with ⟨output', houtput, heq⟩ | ⟨-, hold⟩
  · cases heq
    exact ⟨name, houtput, hname⟩
  · exact (Nat.lt_irrefl _ (inv.lt hold)).elim

theorem WiringInvariant.linear_of_sound (hlength : node.outs.length ≤ node.outTypes.length) :
    ReadsLive live node ∧ BindsFresh live node := by
  have hread : ReadsLive live node := by
    refine ⟨inv.ins_nodup hconnectors hsound,
      fun input name => inv.ins_typed hconnectors hresolve hsound, ?_⟩
    by_contra hne
    obtain ⟨name, hname, -⟩ := inv.getElem?_outs hconnectors hresolve hsound
      node.outs.length (by omega)
    exact Nat.lt_irrefl _ (List.getElem?_eq_some_iff.mp hname).1
  refine ⟨hread, List.nodup_iff_injective_getElem.mpr fun i j heq => ?_, fun name hmem => ?_⟩
  · obtain ⟨name, hname, hbind⟩ := inv.getElem?_outs hconnectors hresolve hsound
      i (hread.length ▸ i.2)
    obtain ⟨name', hname', hbind'⟩ := inv.getElem?_outs hconnectors hresolve hsound
      j (hread.length ▸ j.2)
    rw [List.getElem?_eq_getElem i.2, Option.some.injEq] at hname
    rw [List.getElem?_eq_getElem j.2, Option.some.injEq] at hname'
    obtain rfl : name = name' := hname.symm.trans (heq.trans hname')
    rw [hbind, Option.some.injEq, Prod.mk.injEq] at hbind'
    exact Fin.ext hbind'.2
  · by_contra hnot
    rw [not_or] at hnot
    obtain ⟨port, hport⟩ := Option.ne_none_iff_exists'.mp (inv.live_bound name hnot.2)
    have hone := inv.consumers_eq_one hsound hport
    have hunread := inv.unread hport hnot.2
    have hcount : connectors.count port = 0 := by
      refine count_eq_zero.mpr fun hconnector => hnot.1 ?_
      obtain ⟨other, hother, hsource⟩ := (mem_mapM_iff hconnectors).mp hconnector
      rwa [inv.injective name other port hport hsource]
    have hrest := consumers_eq_zero_of_resolveNodes port hresolve
      (Nat.lt_succ_of_lt (inv.lt hport)) fun other hother => by
        rcases bindPorts_eq_some hother with ⟨output, -, rfl⟩ | ⟨hne, hold⟩
        · exact Nat.lt_irrefl _ (inv.lt hport)
        · exact hne (inv.injective name other port hport hold ▸ hmem)
    omega

end Necessity

theorem WiringInvariant.linear (inv : WiringInvariant program id source live)
    (h : resolveNodes id source nodes = some rest) (hsound : SoundWiring (program ++ rest)) :
    ReadsLinearly live nodes ∧ BindsLinearly live nodes := by
  induction nodes generalizing id source live program rest with
  | nil =>
    cases h
    rw [append_nil] at hsound
    refine ⟨trivial, fun name => ?_⟩
    by_contra hlive
    obtain ⟨port, hport⟩ := Option.ne_none_iff_exists'.mp (inv.live_bound name hlive)
    obtain ⟨wired, hwired, hid, type, htype, -⟩ := inv.bound name port hport
    have hone := hsound.once wired hwired port.2 (List.getElem?_eq_some_iff.mp htype).1
    rw [hid, inv.unread hport hlive] at hone
    cases hone
  | cons node nodes ih =>
    obtain ⟨connectors, rest, hconnectors, hlength, hresolve, rfl⟩ :=
      resolveNodes_cons_eq_some.mp h
    obtain ⟨hreads, hbinds⟩ := inv.linear_of_sound hconnectors hresolve hsound hlength
    rw [List.append_cons] at hsound
    obtain ⟨hreads', hbinds'⟩ := ih (inv.step hreads hbinds hconnectors) hresolve hsound
    exact ⟨⟨hreads, hreads'⟩, hbinds, hbinds'⟩

theorem soundWiring_iff (h : resolveNodes id (fun _ => none) nodes = some program) :
    SoundWiring program ↔
      ReadsLinearly (fun _ => none) nodes ∧ BindsLinearly (fun _ => none) nodes := by
  constructor
  · exact WiringInvariant.nil.linear h
  · rintro ⟨hreads, hbinds⟩
    exact WiringInvariant.nil.sound h hreads hbinds

end Wiring

end QdkEc
