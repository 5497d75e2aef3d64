import QdkEc.DeqRuntime.JitController
import QdkEc.Lib.TaskRuns

/-!
# Batches of instructions

This module models how the controller executes a batch: it checks the instructions, and
then it starts one task for each of them, which waits for the tasks of the gadgets at its
connectors.  Only missing, zero and duplicate identifiers and unknown connectors are
checked, so a batch is executed soundly exactly when its identifiers are not in use, its
connectors have no cycle, and the gadgets whose readouts an instruction reads come before
it by connectors.
-/

namespace QdkEc

open List TaskGraph

/-- The gadgets of a batch that is executed. -/
structure Batch where
  requests : List GadgetRequest

def Batch.gids (batch : Batch) : List ℕ :=
  batch.requests.map GadgetRequest.gid

/-- The tasks of a batch: a task waits for the tasks of the gadgets at its connectors. -/
def Batch.graph (batch : Batch) : TaskGraph :=
  ⟨batch.requests.map fun request => request.connectors.filterMap fun connector =>
    batch.gids.idxOf? connector.gid⟩

/-- A controller with the batches that were started. -/
structure BatchController (K S : Type) where
  controller : JitController K S
  batches : List Batch

namespace BatchController

variable {K S : Type} (state : BatchController K S)

end BatchController

/-- The gadgets whose readouts an instruction reads. -/
def GadgetRequest.remoteGids (request : GadgetRequest) : List ℕ :=
  ((request.modifier.bind GadgetModifier.remoteConditionalCorrection).elim []
    RemoteConditionalCorrection.remoteReadouts).map RemoteReadout.gid

/-- The gadgets that an instruction names: by its connectors, and by the readouts that it reads. -/
def GadgetRequest.namedGids (request : GadgetRequest) : List ℕ :=
  request.connectors.map Connector.gid ++ request.remoteGids

section Sound

variable {K S : Type}

/-- A gadget is executed, or a batch with it was started. -/
def BatchController.InUse (state : BatchController K S) (gid : ℕ) : Prop :=
  gid ∈ state.controller.compiler.gadgets ∨ ∃ batch ∈ state.batches, gid ∈ batch.gids

/-- A batch is executed soundly: its identifiers are new, its dependencies have no cycle, and in
every run of its tasks each instruction is executed once and after all gadgets that it names, and no
task waits forever. -/
structure BatchController.RunsSoundly (state : BatchController K S) (batch : Batch) : Prop where
  unused : ∀ gid ∈ batch.gids, ¬state.InUse gid
  acyclic : batch.graph.Acyclic
  once : ∀ events current, batch.graph.run events = some current → current.started.Nodup
  named : ∀ events current task next request, batch.graph.run events = some current →
    batch.graph.step current (.start task) = some next → batch.requests[task]? = some request →
      ∀ gid ∈ request.namedGids, gid ∈ state.controller.compiler.gadgets ∨
        ∃ other ∈ current.finished, batch.gids[other]? = some gid
  completes : ∀ events current, batch.graph.run events = some current →
    (∀ event, batch.graph.step current event = none) →
      ∀ task < batch.graph.size, task ∈ current.finished

end Sound

section Validated

variable {K S : Type} {state : BatchController K S} {batch : Batch}
  {instructions : List (JitInstruction K)}

variable {request : GadgetRequest}

theorem Batch.dependsOn_lt {task other : ℕ} (h : batch.graph.DependsOn task other) :
    other < batch.graph.size := by
  obtain ⟨dependencies, hdependencies, hother⟩ := h
  rw [graph, getElem?_map, Option.map_eq_some_iff] at hdependencies
  obtain ⟨request, -, rfl⟩ := hdependencies
  obtain ⟨connector, -, hindex⟩ := mem_filterMap.mp hother
  obtain ⟨hlt, -⟩ := List.idxOf?_eq_some_iff.mp hindex
  rw [gids, List.length_map] at hlt
  rwa [TaskGraph.size, graph, List.length_map]

theorem BatchController.RunsSoundly.condition (h : state.RunsSoundly batch) {task : ℕ}
    (hrequest : batch.requests[task]? = some request) {gid : ℕ} (hgid : gid ∈ request.remoteGids) :
    gid ∈ state.controller.compiler.gadgets ∨ ∃ other, batch.gids[other]? = some gid ∧
        Relation.TransGen batch.graph.DependsOn task other := by
  classical
  have hlt : task < batch.graph.size := by
    obtain ⟨hlt, -⟩ := List.getElem?_eq_some_iff.mp hrequest
    rwa [TaskGraph.size, Batch.graph, List.length_map]
  obtain ⟨events, current, hrun, hstarted, hfinished⟩ := exists_run_finished h.acyclic
    ((Finset.range batch.graph.size).filter (Relation.TransGen batch.graph.DependsOn task))
    (fun other hother => Finset.mem_range.mp (Finset.mem_filter.mp hother).1)
    (fun other hother next hnext => Finset.mem_filter.mpr
      ⟨Finset.mem_range.mpr (Batch.dependsOn_lt hnext), (Finset.mem_filter.mp hother).2.tail hnext⟩)
  have hnew : task ∉ current.started := fun hmem =>
    h.acyclic task (Finset.mem_filter.mp (hstarted task hmem)).2
  have hstep := step_start_iff.mpr ⟨⟨hlt, hnew, fun other hother =>
    hfinished other (Finset.mem_filter.mpr
      ⟨Finset.mem_range.mpr (Batch.dependsOn_lt hother), .single hother⟩)⟩, rfl⟩
  rcases h.named events current task _ request hrun hstep hrequest gid
    (mem_append_right _ hgid) with hexecuted | ⟨other, hother, hsame⟩
  · exact Or.inl hexecuted
  · have hmem := hstarted other ((reached_run hrun).subset other hother)
    exact Or.inr ⟨other, hsame, (Finset.mem_filter.mp hmem).2⟩

end Validated

end QdkEc
