import Mathlib.Order.WellFoundedSet
import QdkEc.Lib.OptionTraversal

/-!
# Tasks that wait for each other

This module collects what is used of tasks that are started in any order once the tasks
they depend on are finished.  A task is started once, and a task that was started comes
after all tasks it depends on, directly or not.  When no task depends on itself, every
run can be continued until all tasks are finished, and the tasks that a task depends on
can be finished without any other one.
-/

namespace QdkEc

open List Option

/-- Tasks with the numbers of the tasks that each of them depends on. -/
structure TaskGraph where
  dependencies : List (List ℕ)

/-- The tasks that were started and the tasks that were finished, in order. -/
structure TaskRun where
  started : List ℕ
  finished : List ℕ

/-- What happens next: a task is started or finished. -/
inductive TaskEvent
  | start (task : ℕ)
  | finish (task : ℕ)

namespace TaskGraph

variable (graph : TaskGraph)

/-- The number of tasks. -/
def size : ℕ :=
  graph.dependencies.length

/-- A task waits for another one. -/
def DependsOn (task other : ℕ) : Prop :=
  ∃ dependencies, graph.dependencies[task]? = some dependencies ∧ other ∈ dependencies

/-- No task waits for itself, directly or not. -/
def Acyclic : Prop :=
  ∀ task, ¬Relation.TransGen graph.DependsOn task task

/-- A task is started once, when the tasks it waits for are finished, and finished once. -/
def step (run : TaskRun) : TaskEvent → Option TaskRun
  | .start task => do
      let dependencies ← graph.dependencies[task]?
      guard (task ∉ run.started ∧ ∀ other ∈ dependencies, other ∈ run.finished)
      some { run with started := run.started ++ [task] }
  | .finish task => do
      guard (task ∈ run.started ∧ task ∉ run.finished)
      some { run with finished := run.finished ++ [task] }

/-- What happens at events. -/
def run (events : List TaskEvent) : Option TaskRun :=
  events.foldlM graph.step ⟨[], []⟩

variable {graph} {current next : TaskRun} {task other : ℕ}

theorem step_start_iff : graph.step current (.start task) = some next ↔
      (task < graph.size ∧ task ∉ current.started ∧
        ∀ other, graph.DependsOn task other → other ∈ current.finished) ∧
      next = { current with started := current.started ++ [task] } := by
  rw [step, bind_eq_bind, bind_eq_some_iff]
  constructor
  · rintro ⟨dependencies, hdependencies, hstep⟩
    obtain ⟨_, hguard, hstep⟩ := bind_eq_some_iff.mp hstep
    cases hstep
    obtain ⟨hnew, hready⟩ := (guard_eq_some' _).mp hguard
    obtain ⟨hlt, -⟩ := List.getElem?_eq_some_iff.mp hdependencies
    refine ⟨⟨hlt, hnew, fun other hother => ?_⟩, rfl⟩
    obtain ⟨others, hothers, hmem⟩ := hother
    rw [hdependencies] at hothers
    cases hothers
    exact hready other hmem
  · rintro ⟨⟨hlt, hnew, hready⟩, rfl⟩
    have hdependencies := getElem?_eq_getElem hlt
    refine ⟨_, hdependencies, ?_⟩
    refine bind_eq_some_iff.mpr ⟨(), (guard_eq_some' _).mpr ⟨hnew, ?_⟩, rfl⟩
    exact fun other hother => hready other ⟨_, hdependencies, hother⟩

theorem step_finish_iff : graph.step current (.finish task) = some next ↔
      (task ∈ current.started ∧ task ∉ current.finished) ∧
      next = { current with finished := current.finished ++ [task] } := by
  rw [step, bind_eq_bind, bind_eq_some_iff]
  constructor
  · rintro ⟨_, hguard, hstep⟩
    cases hstep
    exact ⟨(guard_eq_some' _).mp hguard, rfl⟩
  · rintro ⟨hguard, rfl⟩
    exact ⟨(), (guard_eq_some' _).mpr hguard, rfl⟩

/-- What holds in every run: tasks are started and finished once, a finished task was started, and
what a started task waits for is finished. -/
structure Reached (graph : TaskGraph) (current : TaskRun) : Prop where
  lt : ∀ task ∈ current.started, task < graph.size
  started : current.started.Nodup
  finished : current.finished.Nodup
  subset : ∀ task ∈ current.finished, task ∈ current.started
  closed : ∀ task ∈ current.started, ∀ other, graph.DependsOn task other →
    other ∈ current.finished

theorem reached_step (h : graph.Reached current) {event : TaskEvent}
    (hstep : graph.step current event = some next) : graph.Reached next := by
  cases event with
  | start task =>
    obtain ⟨⟨hlt, hnew, hready⟩, rfl⟩ := step_start_iff.mp hstep
    refine ⟨?_, ?_, h.finished, fun task htask => mem_append_left _ (h.subset task htask), ?_⟩
    · intro task htask
      rcases mem_append.mp htask with hold | hsame
      · exact h.lt task hold
      · rwa [mem_singleton.mp hsame]
    · rw [← concat_eq_append]
      exact h.started.concat hnew
    · intro task htask other hother
      rcases mem_append.mp htask with hold | hsame
      · exact h.closed task hold other hother
      · rw [mem_singleton.mp hsame] at hother
        exact hready other hother
  | finish task =>
    obtain ⟨⟨hstarted, hnew⟩, rfl⟩ := step_finish_iff.mp hstep
    refine ⟨h.lt, h.started, ?_, ?_, ?_⟩
    · rw [← concat_eq_append]
      exact h.finished.concat hnew
    · intro task htask
      rcases mem_append.mp htask with hold | hsame
      · exact h.subset task hold
      · rwa [mem_singleton.mp hsame]
    · exact fun task htask other hother =>
        mem_append_left _ (h.closed task htask other hother)

theorem reached_run {events : List TaskEvent} (hrun : graph.run events = some current) :
    graph.Reached current :=
  foldlM_induction (fun _ current => graph.Reached current)
    ⟨fun _ h => absurd h not_mem_nil, nodup_nil, nodup_nil,
      fun _ h => absurd h not_mem_nil, fun _ h => absurd h not_mem_nil⟩
    (fun _ _ _ _ h hstep => reached_step h hstep) hrun

theorem Acyclic.exists_independent (h : graph.Acyclic) {tasks : Finset ℕ}
    (hnonempty : tasks.Nonempty) :
    ∃ task ∈ tasks, ∀ other ∈ tasks, ¬graph.DependsOn task other := by
  let before : ℕ → ℕ → Prop := fun other task => Relation.TransGen graph.DependsOn task other
  have : Std.Irrefl before := ⟨h⟩
  have : IsStrictOrder ℕ before := {}
  have hwf := Set.wellFoundedOn_iff.mp (tasks.wellFoundedOn (r := before))
  obtain ⟨task, htask, hmin⟩ := hwf.has_min tasks hnonempty
  exact ⟨task, htask, fun other hother hdirect =>
    hmin other hother ⟨.single hdirect, hother, htask⟩⟩

theorem exists_step (hacyclic : graph.Acyclic) {tasks : Finset ℕ}
    (hlt : ∀ task ∈ tasks, task < graph.size)
    (hclosed : ∀ task ∈ tasks, ∀ other, graph.DependsOn task other → other ∈ tasks)
    (hunfinished : ∃ task ∈ tasks, task ∉ current.finished) :
    ∃ task ∈ tasks, ∃ next, graph.step current (.start task) = some next ∨
      graph.step current (.finish task) = some next := by
  obtain ⟨waiting, hwaiting, hnot⟩ := hunfinished
  obtain ⟨task, htask, hfree⟩ := hacyclic.exists_independent
    (show (tasks.filter (· ∉ current.finished)).Nonempty from
      ⟨waiting, Finset.mem_filter.mpr ⟨hwaiting, hnot⟩⟩)
  obtain ⟨hmem, hnot⟩ := Finset.mem_filter.mp htask
  refine ⟨task, hmem, ?_⟩
  by_cases hstarted : task ∈ current.started
  · exact ⟨_, Or.inr (step_finish_iff.mpr ⟨⟨hstarted, hnot⟩, rfl⟩)⟩
  · refine ⟨_, Or.inl (step_start_iff.mpr ⟨⟨hlt task hmem, hstarted, fun other hother => ?_⟩, rfl⟩)⟩
    by_contra hunfinished
    exact hfree other (Finset.mem_filter.mpr ⟨hclosed task hmem other hother, hunfinished⟩) hother

theorem Reached.length_le (h : graph.Reached current) :
    current.started.length + current.finished.length ≤ 2 * graph.size := by
  have hbound : ∀ {tasks : List ℕ}, tasks.Nodup → (∀ task ∈ tasks, task < graph.size) →
      tasks.length ≤ graph.size := by
    intro tasks hnodup hlt
    have hsubset : tasks.toFinset ⊆ Finset.range graph.size := fun task htask =>
      Finset.mem_range.mpr (hlt task (mem_toFinset.mp htask))
    have hcard := Finset.card_le_card hsubset
    rwa [toFinset_card_of_nodup hnodup, Finset.card_range] at hcard
  have hstarted := hbound h.started h.lt
  have hfinished := hbound h.finished fun task htask => h.lt task (h.subset task htask)
  omega

theorem exists_run_finished (hacyclic : graph.Acyclic) (tasks : Finset ℕ)
    (hlt : ∀ task ∈ tasks, task < graph.size)
    (hclosed : ∀ task ∈ tasks, ∀ other, graph.DependsOn task other → other ∈ tasks) :
    ∃ events current, graph.run events = some current ∧
      (∀ task ∈ current.started, task ∈ tasks) ∧ ∀ task ∈ tasks, task ∈ current.finished := by
  have hruns : ∀ count, ∃ events current, graph.run events = some current ∧
      (∀ task ∈ current.started, task ∈ tasks) ∧
        ((∀ task ∈ tasks, task ∈ current.finished) ∨
          count ≤ current.started.length + current.finished.length) := by
    intro count
    induction count with
    | zero => exact ⟨[], ⟨[], []⟩, rfl, fun _ h => absurd h not_mem_nil, Or.inr (Nat.zero_le _)⟩
    | succ count ih =>
      obtain ⟨events, current, hrun, hstarted, hdone | hcount⟩ := ih
      · exact ⟨events, current, hrun, hstarted, Or.inl hdone⟩
      by_cases hdone : ∀ task ∈ tasks, task ∈ current.finished
      · exact ⟨events, current, hrun, hstarted, Or.inl hdone⟩
      have happend : ∀ event next, graph.step current event = some next →
          graph.run (events ++ [event]) = some next := by
        intro event next hstep
        rw [run, foldlM_append, ← run, hrun]
        exact (bind_some _ _).trans ((foldlM_cons ..).trans (by
          rw [hstep]
          rfl))
      push Not at hdone
      obtain ⟨task, hmem, next, hstart | hfinish⟩ :=
        exists_step hacyclic hlt hclosed hdone
      · refine ⟨_, next, happend _ _ hstart, ?_, Or.inr ?_⟩
        · obtain ⟨-, rfl⟩ := step_start_iff.mp hstart
          intro other hother
          rcases mem_append.mp hother with hold | hsame
          · exact hstarted other hold
          · rwa [mem_singleton.mp hsame]
        · obtain ⟨-, rfl⟩ := step_start_iff.mp hstart
          dsimp only
          rw [length_append, length_singleton]
          omega
      · refine ⟨_, next, happend _ _ hfinish, ?_, Or.inr ?_⟩
        · obtain ⟨-, rfl⟩ := step_finish_iff.mp hfinish
          exact hstarted
        · obtain ⟨-, rfl⟩ := step_finish_iff.mp hfinish
          dsimp only
          rw [length_append, length_singleton]
          omega
  obtain ⟨events, current, hrun, hstarted, hdone | hcount⟩ := hruns (2 * graph.size + 1)
  · exact ⟨events, current, hrun, hstarted, hdone⟩
  · exact absurd (reached_run hrun).length_le (by omega)

end TaskGraph

end QdkEc
