import Harvest.Agent.Names
import Harvest.Lib.Run

/-!
# Saving, retaining and resetting workspaces

Model of `WorkspaceStore::save`, `retain` and `reset` in `workspace.rs`, on one scope. The put,
the list and the delete of the blob store are atomic. Any number of calls run side by side; a
step is one store operation of one call, so a call can stop for any time between two of them.

A blob keeps the call that put it last. No step reads that.

Proved here:
* `blobs_advance`, `next_advance`: what one step can do to the store and to its call.
* `Inv.marked_advance`: after the marker of a reset is put, there always is a marker at least as
  high.
* `snapshots_survive_and_resets_stick`: the three guarantees, over every run.
-/

namespace Harvest.Agent

open Lib

/-- The snapshot of a save. Its digest is the SHA-256 digest of the snapshot in hex. -/
structure Snapshot where
  head : WorkspaceRef
  digest_hex : hexDigits head.digest 64

/-- What `retain` deletes. -/
def retainDooms (keep : WorkspaceRef) (name : Name) : Bool :=
  (decide (name ≠ keep.key) && (keyGeneration name).any (· ≤ keep.generation)) ||
    (scratchGeneration name).any (· ≤ keep.generation)

/-- What `reset` deletes. -/
def resetDooms (below : UInt64) (name : Name) : Bool := (nameGeneration name).all (· < below)

/-- Whether a listing has a reset marker above a generation. -/
def sawReset (generation : UInt64) (names : List Name) : Bool :=
  (names.filterMap markerGeneration).any (generation < ·)

/-- The highest generation of the listed names. -/
def highestGeneration (names : List Name) : UInt64 := (names.filterMap nameGeneration).max?.getD 0

/-- Where a call stands: before its next store operation, or at its end. -/
inductive Phase
  | savePut (snapshot : Snapshot)
  | saveList (snapshot : Snapshot)
  /-- The listing had a reset marker above the generation. -/
  | saveDelete (snapshot : Snapshot) (names : List Name)
  | saved (snapshot : Snapshot)
  | saveFailed (snapshot : Snapshot)
  | retainList (keep : WorkspaceRef)
  | retainDelete (keep : WorkspaceRef) (doomed : List Name) (deleted : Nat)
  | retained (keep : WorkspaceRef) (deleted : Nat)
  | resetPut (below : UInt64)
  | resetList (below : UInt64)
  | resetDelete (below : UInt64) (doomed : List Name) (deleted : Nat)
  | reset (below : UInt64) (deleted : Nat)

/-- The call has returned. -/
def Phase.Ended : Phase → Bool
  | .saved _ | .saveFailed _ | .retained _ _ | .reset _ _ => true
  | _ => false

/-- The reset has listed, and these names are left to delete. -/
inductive Phase.Clearing (below : UInt64) : List Name → Phase → Prop
  | deleting (doomed : List Name) (deleted : Nat) :
      Clearing below doomed (.resetDelete below doomed deleted)
  | done (deleted : Nat) : Clearing below [] (.reset below deleted)

/-- The reset has put its marker. -/
inductive Phase.Marked (below : UInt64) : Phase → Prop
  | list : Marked below (.resetList below)
  | clearing {doomed : List Name} {phase : Phase} (h : Clearing below doomed phase) :
      Marked below phase

/-- The save has put its snapshot, and did not delete it again. -/
inductive Phase.Wrote (snapshot : Snapshot) : Phase → Prop
  | list : Wrote snapshot (.saveList snapshot)
  | delete (names : List Name) : Wrote snapshot (.saveDelete snapshot names)
  | saved : Wrote snapshot (.saved snapshot)

/-- A call deletes only what it may. -/
def Phase.Justified : Phase → Prop
  | .saveDelete snapshot names => sawReset snapshot.head.generation names
  | .retainDelete keep doomed _ => ∀ name ∈ doomed, retainDooms keep name
  | .resetDelete below doomed _ => ∀ name ∈ doomed, resetDooms below name
  | _ => True

/-- The name that the next operation of a call puts. -/
inductive Phase.Puts : Phase → Name → Prop
  | save (snapshot : Snapshot) : Puts (.savePut snapshot) snapshot.head.key
  | reset (below : UInt64) : Puts (.resetPut below) (resetMarker below)

/-- The name that the next operation of a call deletes. -/
inductive Phase.Deletes : Phase → Name → Prop
  | save (snapshot : Snapshot) (names : List Name) :
      Deletes (.saveDelete snapshot names) snapshot.head.key
  | retain (keep : WorkspaceRef) (name : Name) (doomed : List Name) (deleted : Nat) :
      Deletes (.retainDelete keep (name :: doomed) deleted) name
  | reset (below : UInt64) (name : Name) (doomed : List Name) (deleted : Nat) :
      Deletes (.resetDelete below (name :: doomed) deleted) name

/-- How a call goes on after its next operation. -/
inductive Phase.Next (names : List Name) : Phase → Phase → Prop
  | saveList (snapshot : Snapshot) : Next names (.savePut snapshot) (.saveList snapshot)
  | savedUnordered (snapshot : Snapshot) (h : ¬ 0 < snapshot.head.generation) :
      Next names (.savePut snapshot) (.saved snapshot)
  | saveDelete (snapshot : Snapshot) (h : sawReset snapshot.head.generation names) :
      Next names (.saveList snapshot) (.saveDelete snapshot names)
  | saved (snapshot : Snapshot) (h : ¬ sawReset snapshot.head.generation names) :
      Next names (.saveList snapshot) (.saved snapshot)
  | saveFailed (snapshot : Snapshot) (seen : List Name) :
      Next names (.saveDelete snapshot seen) (.saveFailed snapshot)
  | retainList (keep : WorkspaceRef) :
      Next names (.retainList keep) (.retainDelete keep (names.filter (retainDooms keep)) 0)
  | retainDelete (keep : WorkspaceRef) (name : Name) (doomed : List Name) (deleted count : Nat) :
      Next names (.retainDelete keep (name :: doomed) deleted) (.retainDelete keep doomed count)
  | retained (keep : WorkspaceRef) (deleted : Nat) :
      Next names (.retainDelete keep [] deleted) (.retained keep deleted)
  | resetList (below : UInt64) : Next names (.resetPut below) (.resetList below)
  | resetDelete (below : UInt64) :
      Next names (.resetList below) (.resetDelete below (names.filter (resetDooms below)) 0)
  | resetNext (below : UInt64) (name : Name) (doomed : List Name) (deleted count : Nat) :
      Next names (.resetDelete below (name :: doomed) deleted) (.resetDelete below doomed count)
  | reset (below : UInt64) (deleted : Nat) :
      Next names (.resetDelete below [] deleted) (.reset below deleted)
  | ended (phase : Phase) (h : phase.Ended) : Next names phase phase

/-- Which call put a blob, or none for a blob from before. -/
abbrev Writer := Option Nat

structure System where
  blobs : Name → Option Writer
  calls : Nat → Phase

namespace System

def setCall (s : System) (id : Nat) (phase : Phase) : System :=
  { s with calls := Function.update s.calls id phase }

def put (s : System) (name : Name) (id : Nat) : System :=
  { s with blobs := Function.update s.blobs name (some (some id)) }

def delete (s : System) (name : Name) : System :=
  { s with blobs := Function.update s.blobs name none }

/-- The names are a listing of the store, in any order. -/
def Lists (s : System) (names : List Name) : Prop := ∀ name, name ∈ names ↔ (s.blobs name).isSome

/-- The next store operation of a call. A list operation reads `names`. -/
def advance (s : System) (act : Nat × List Name) : System :=
  let (id, names) := act
  match s.calls id with
  | .savePut snapshot =>
    let next := if 0 < snapshot.head.generation then .saveList snapshot else .saved snapshot
    (s.put snapshot.head.key id).setCall id next
  | .saveList snapshot =>
    s.setCall id <|
      if sawReset snapshot.head.generation names then .saveDelete snapshot names
      else .saved snapshot
  | .saveDelete snapshot _ => (s.delete snapshot.head.key).setCall id (.saveFailed snapshot)
  | .retainList keep => s.setCall id (.retainDelete keep (names.filter (retainDooms keep)) 0)
  | .retainDelete keep (name :: doomed) deleted =>
    let deleted := if (s.blobs name).isSome then deleted + 1 else deleted
    (s.delete name).setCall id (.retainDelete keep doomed deleted)
  | .retainDelete keep [] deleted => s.setCall id (.retained keep deleted)
  | .resetPut below => (s.put (resetMarker below) id).setCall id (.resetList below)
  | .resetList below => s.setCall id (.resetDelete below (names.filter (resetDooms below)) 0)
  | .resetDelete below (name :: doomed) deleted =>
    let deleted := if (s.blobs name).isSome then deleted + 1 else deleted
    (s.delete name).setCall id (.resetDelete below doomed deleted)
  | .resetDelete below [] deleted => s.setCall id (.reset below deleted)
  | .saved _ | .saveFailed _ | .retained _ _ | .reset _ _ => s

/-- A list operation reads a listing of the store. -/
def Allowed (s : System) (act : Nat × List Name) : Prop := s.Lists act.2

/-- No call has run yet, and no blob is of a call. -/
structure Fresh (s : System) : Prop where
  calls : ∀ id, (∃ snapshot, s.calls id = .savePut snapshot) ∨
    (∃ keep, s.calls id = .retainList keep) ∨ ∃ below, s.calls id = .resetPut below
  blobs : ∀ name id, s.blobs name ≠ some (some id)

/-- The states of a run. -/
def Reaches (s t : System) : Prop := ∃ acts, Legal advance Allowed s acts ∧ t = exec advance s acts

/-! ## Markers -/

/-- The store has a marker of this bound or a higher one. -/
def HasMarker (s : System) (below : UInt64) : Prop :=
  ∃ bound, below ≤ bound ∧ (s.blobs (resetMarker bound)).isSome

theorem resetMarker_injective {m n : UInt64} (h : resetMarker m = resetMarker n) : m = n := by
  have hm := markerGeneration_resetMarker m
  rw [h, markerGeneration_resetMarker] at hm
  exact (Option.some.inj hm).symm

/-- A listing with a marker at or above a bound shows a reset to every older generation. -/
theorem sawReset_of_mem {names : List Name} {bound generation : UInt64}
    (hmem : resetMarker bound ∈ names) (hlt : generation < bound) : sawReset generation names := by
  unfold sawReset
  rw [List.any_eq_true]
  exact ⟨bound, List.mem_filterMap.mpr ⟨_, hmem, markerGeneration_resetMarker bound⟩,
    decide_eq_true hlt⟩

/-- `retain` deletes no marker. -/
theorem not_retainDooms_resetMarker (keep : WorkspaceRef) (bound : UInt64) :
    ¬ retainDooms keep (resetMarker bound) := by
  unfold retainDooms
  rw [keyGeneration_resetMarker, scratchGeneration_resetMarker]
  simp

theorem lt_of_resetDooms_resetMarker {below bound : UInt64}
    (h : resetDooms below (resetMarker bound)) : bound < below := by
  unfold resetDooms at h
  rw [nameGeneration_resetMarker] at h
  simpa using h

/-! ## The invariant -/

/-- What holds in every state of a run. -/
structure Inv (s : System) : Prop where
  justified : ∀ id, (s.calls id).Justified
  marked : ∀ id below, (s.calls id).Marked below → s.HasMarker below
  written : ∀ name id, s.blobs name = some (some id) →
    (∃ snapshot : Snapshot, name = snapshot.head.key ∧ (s.calls id).Wrote snapshot) ∨
      ∃ bound, name = resetMarker bound ∧ (s.calls id).Marked bound
  cleared : ∀ id below doomed, (s.calls id).Clearing below doomed →
    ∀ saver (snapshot : Snapshot), snapshot.head.generation < below →
      0 < snapshot.head.generation → s.calls saver = .saved snapshot →
        s.blobs snapshot.head.key = some (some saver) → snapshot.head.key ∈ doomed

theorem Fresh.inv {s : System} (h : s.Fresh) : s.Inv where
  justified id := by
    rcases h.calls id with ⟨_, hid⟩ | ⟨_, hid⟩ | ⟨_, hid⟩ <;> rw [hid] <;> trivial
  marked id below hmarked := by
    rcases h.calls id with ⟨_, hid⟩ | ⟨_, hid⟩ | ⟨_, hid⟩ <;> rw [hid] at hmarked <;>
      cases hmarked <;> rename_i hclearing <;> cases hclearing
  written name id hblob := absurd hblob (h.blobs name id)
  cleared id below doomed hclearing := by
    rcases h.calls id with ⟨_, hid⟩ | ⟨_, hid⟩ | ⟨_, hid⟩ <;> rw [hid] at hclearing <;>
      cases hclearing

/-! ## One step -/

variable {s : System} {id : Nat} {names : List Name}

/-- What a step does to the store. -/
theorem blobs_advance (s : System) (id : Nat) (names : List Name) :
    (s.advance (id, names)).blobs = s.blobs ∨
      (∃ name, (s.calls id).Puts name ∧
        (s.advance (id, names)).blobs = Function.update s.blobs name (some (some id))) ∨
      ∃ name, (s.calls id).Deletes name ∧
        (s.advance (id, names)).blobs = Function.update s.blobs name none := by
  unfold advance
  dsimp only
  cases s.calls id with
  | savePut snapshot => exact Or.inr (Or.inl ⟨_, .save snapshot, rfl⟩)
  | resetPut below => exact Or.inr (Or.inl ⟨_, .reset below, rfl⟩)
  | saveDelete snapshot names => exact Or.inr (Or.inr ⟨_, .save snapshot names, rfl⟩)
  | retainDelete keep doomed deleted =>
    cases doomed with
    | nil => exact Or.inl rfl
    | cons name doomed => exact Or.inr (Or.inr ⟨_, .retain keep name doomed deleted, rfl⟩)
  | resetDelete below doomed deleted =>
    cases doomed with
    | nil => exact Or.inl rfl
    | cons name doomed => exact Or.inr (Or.inr ⟨_, .reset below name doomed deleted, rfl⟩)
  | _ => exact Or.inl rfl

theorem blobs_of_deletes {name : Name} (h : (s.calls id).Deletes name) :
    (s.advance (id, names)).blobs name = none := by
  generalize hphase : s.calls id = phase at h
  cases h with
  | save snapshot seen => simp [advance, hphase, delete, setCall]
  | retain keep name doomed deleted => simp [advance, hphase, delete, setCall]
  | reset below name doomed deleted => simp [advance, hphase, delete, setCall]

/-- A blob that its writer did not put in this step was there before. -/
theorem blobs_before {name : Name} {writer : Nat}
    (hblob : (s.advance (id, names)).blobs name = some (some writer))
    (hputs : writer = id → ∀ name, ¬ (s.calls id).Puts name) :
    s.blobs name = some (some writer) := by
  rcases blobs_advance s id names with hsame | ⟨put, hput, hblobs⟩ | ⟨gone, -, hblobs⟩
  · exact hsame ▸ hblob
  · by_cases hname : name = put
    · rw [hblobs, hname, Function.update_self] at hblob
      have hwriter : id = writer := Option.some.inj (Option.some.inj hblob)
      exact absurd hput (hputs hwriter.symm put)
    · rwa [hblobs, Function.update_of_ne hname] at hblob
  · by_cases hname : name = gone
    · rw [hblobs, hname, Function.update_self] at hblob
      cases hblob
    · rwa [hblobs, Function.update_of_ne hname] at hblob

/-- The other calls stand where they stood. -/
theorem calls_advance_of_ne {other : Nat} (h : other ≠ id) :
    (s.advance (id, names)).calls other = s.calls other := by
  unfold advance
  dsimp only
  cases s.calls id with
  | retainDelete keep doomed deleted =>
    cases doomed with
    | nil => exact Function.update_of_ne h _ _
    | cons name doomed => exact Function.update_of_ne h _ _
  | resetDelete below doomed deleted =>
    cases doomed with
    | nil => exact Function.update_of_ne h _ _
    | cons name doomed => exact Function.update_of_ne h _ _
  | saved snapshot => rfl
  | saveFailed snapshot => rfl
  | retained keep deleted => rfl
  | reset below deleted => rfl
  | _ => exact Function.update_of_ne h _ _

/-- **Markers only rise**: a step that deletes one leaves a higher one. -/
theorem Inv.hasMarker_advance (h : s.Inv) {below : UInt64} (hmarker : s.HasMarker below)
    (id : Nat) (names : List Name) : (s.advance (id, names)).HasMarker below := by
  obtain ⟨bound, hle, hblob⟩ := hmarker
  rcases blobs_advance s id names with hsame | ⟨name, -, hput⟩ | ⟨name, hdelete, hblobs⟩
  · exact ⟨bound, hle, hsame ▸ hblob⟩
  · refine ⟨bound, hle, ?_⟩
    rw [hput, Function.update_apply]
    split_ifs
    · rfl
    · exact hblob
  · by_cases hname : resetMarker bound = name
    · have hjustified := h.justified id
      have hmarked := h.marked id
      generalize s.calls id = phase at hdelete hjustified hmarked
      cases hdelete with
      | save snapshot names => exact absurd hname.symm (key_ne_resetMarker snapshot.digest_hex _)
      | retain keep name doomed deleted =>
        have := hjustified name List.mem_cons_self
        rw [← hname] at this
        exact absurd this (not_retainDooms_resetMarker keep bound)
      | reset below' name doomed deleted =>
        have hdooms := hjustified name List.mem_cons_self
        rw [← hname] at hdooms
        have hlt := lt_of_resetDooms_resetMarker hdooms
        obtain ⟨higher, hhigher, hthere⟩ := hmarked below' (.clearing (.deleting _ _))
        rw [UInt64.lt_iff_toNat_lt] at hlt
        rw [UInt64.le_iff_toNat_le] at hhigher hle
        refine ⟨higher, UInt64.le_iff_toNat_le.mpr (by omega), ?_⟩
        have hne : resetMarker higher ≠ name := by
          rw [← hname]
          intro heq
          have := resetMarker_injective heq
          subst this
          omega
        rw [hblobs, Function.update_of_ne hne]
        exact hthere
    · refine ⟨bound, hle, ?_⟩
      rw [hblobs, Function.update_of_ne hname]
      exact hblob

theorem next_advance (s : System) (id : Nat) (names : List Name) :
    Phase.Next names (s.calls id) ((s.advance (id, names)).calls id) := by
  have hset (s' : System) (phase : Phase) : (s'.setCall id phase).calls id = phase := by
    simp [setCall]
  unfold advance
  dsimp only
  cases hphase : s.calls id with
  | savePut snapshot =>
    dsimp only
    rw [hset]
    split_ifs with hpos
    · exact .saveList snapshot
    · exact .savedUnordered snapshot hpos
  | saveList snapshot =>
    dsimp only
    rw [hset]
    split_ifs with hsaw
    · exact .saveDelete snapshot hsaw
    · exact .saved snapshot hsaw
  | saveDelete snapshot seen =>
    dsimp only
    rw [hset]
    exact .saveFailed snapshot seen
  | retainList keep =>
    dsimp only
    rw [hset]
    exact .retainList keep
  | retainDelete keep doomed deleted =>
    cases doomed with
    | nil =>
      dsimp only
      rw [hset]
      exact .retained keep deleted
    | cons name doomed =>
      dsimp only
      rw [hset]
      exact .retainDelete keep name doomed deleted _
  | resetPut below =>
    dsimp only
    rw [hset]
    exact .resetList below
  | resetList below =>
    dsimp only
    rw [hset]
    exact .resetDelete below
  | resetDelete below doomed deleted =>
    cases doomed with
    | nil =>
      dsimp only
      rw [hset]
      exact .reset below deleted
    | cons name doomed =>
      dsimp only
      rw [hset]
      exact .resetNext below name doomed deleted _
  | saved snapshot =>
    dsimp only
    rw [hphase]
    exact .ended _ rfl
  | saveFailed snapshot =>
    dsimp only
    rw [hphase]
    exact .ended _ rfl
  | retained keep deleted =>
    dsimp only
    rw [hphase]
    exact .ended _ rfl
  | reset below deleted =>
    dsimp only
    rw [hphase]
    exact .ended _ rfl

/-- A reset that has put its marker keeps having put it. -/
theorem stays_marked {resetter : Nat} {below : UInt64} (h : (s.calls resetter).Marked below)
    (id : Nat) (names : List Name) : ((s.advance (id, names)).calls resetter).Marked below := by
  by_cases hresetter : resetter = id
  · subst hresetter
    have hnext := next_advance s resetter names
    generalize s.calls resetter = phase at h hnext
    generalize (s.advance (resetter, names)).calls resetter = phase' at hnext
    cases h with
    | list =>
      cases hnext with
      | resetDelete _ => exact .clearing (.deleting _ _)
      | ended _ hended => exact .list
    | clearing hclearing =>
      cases hclearing with
      | deleting doomed deleted =>
        cases hnext with
        | resetNext _ _ _ _ _ => exact .clearing (.deleting _ _)
        | reset _ _ => exact .clearing (.done _)
        | ended _ hended => exact .clearing (.deleting _ _)
      | done deleted =>
        cases hnext with
        | ended _ hended => exact .clearing (.done _)
  · rwa [calls_advance_of_ne hresetter]

theorem Inv.justified_advance (h : s.Inv) (id : Nat) (names : List Name) (other : Nat) :
    ((s.advance (id, names)).calls other).Justified := by
  by_cases hother : other = id
  · subst hother
    have hold := h.justified other
    have hnext := next_advance s other names
    generalize s.calls other = phase at hold hnext
    generalize (s.advance (other, names)).calls other = phase' at hnext
    cases hnext with
    | saveDelete snapshot hsaw => exact hsaw
    | retainList keep => exact fun name hname => (List.mem_filter.mp hname).2
    | retainDelete keep name doomed deleted count =>
      exact fun name' hname' => hold name' (List.mem_cons_of_mem _ hname')
    | resetDelete below => exact fun name hname => (List.mem_filter.mp hname).2
    | resetNext below name doomed deleted count =>
      exact fun name' hname' => hold name' (List.mem_cons_of_mem _ hname')
    | ended _ hended => exact hold
    | _ => trivial
  · rw [calls_advance_of_ne hother]
    exact h.justified other

theorem Inv.marked_advance (h : s.Inv) (id : Nat) (names : List Name) (other : Nat)
    (below : UInt64) (hmarked : ((s.advance (id, names)).calls other).Marked below) :
    (s.advance (id, names)).HasMarker below := by
  have hkeep (hold : (s.calls other).Marked below) : (s.advance (id, names)).HasMarker below :=
    h.hasMarker_advance (h.marked other below hold) id names
  by_cases hother : other = id
  · subst hother
    have hnext := next_advance s other names
    generalize hphase : s.calls other = phase at hnext hkeep
    generalize (s.advance (other, names)).calls other = phase' at hnext hmarked
    cases hnext with
    | resetList bound =>
      obtain rfl : bound = below := by
        cases hmarked with
        | list => rfl
        | clearing hclearing => cases hclearing
      -- the marker was put in this step
      have hput : (s.advance (other, names)).blobs (resetMarker bound) = some (some other) := by
        simp [advance, hphase, put, setCall]
      exact ⟨bound, UInt64.le_rfl, by rw [hput]; rfl⟩
    | resetDelete bound =>
      cases hmarked with
      | clearing hclearing =>
        cases hclearing
        exact hkeep .list
    | resetNext bound name doomed deleted count =>
      cases hmarked with
      | clearing hclearing =>
        cases hclearing
        exact hkeep (.clearing (.deleting _ _))
    | reset bound deleted =>
      cases hmarked with
      | clearing hclearing =>
        cases hclearing
        exact hkeep (.clearing (.deleting _ _))
    | ended _ hended => exact hkeep hmarked
    | _ =>
      cases hmarked
      rename_i hclearing
      cases hclearing
  · rw [calls_advance_of_ne hother] at hmarked
    exact hkeep hmarked

theorem Inv.written_advance (h : s.Inv) (id : Nat) (names : List Name) (name : Name)
    (writer : Nat) (hblob : (s.advance (id, names)).blobs name = some (some writer)) :
    (∃ snapshot : Snapshot, name = snapshot.head.key ∧
        ((s.advance (id, names)).calls writer).Wrote snapshot) ∨
      ∃ bound, name = resetMarker bound ∧
        ((s.advance (id, names)).calls writer).Marked bound := by
  have hdelete : ¬ (s.calls id).Deletes name := by
    intro hdelete
    rw [blobs_of_deletes hdelete] at hblob
    cases hblob
  -- a blob from before: its writer has moved on at most, and did not delete it
  have hkeep (hold : s.blobs name = some (some writer)) :
      (∃ snapshot : Snapshot, name = snapshot.head.key ∧
          ((s.advance (id, names)).calls writer).Wrote snapshot) ∨
        ∃ bound, name = resetMarker bound ∧
          ((s.advance (id, names)).calls writer).Marked bound := by
    refine (h.written name writer hold).imp ?_ fun ⟨bound, hname, hmarked⟩ =>
      ⟨bound, hname, stays_marked hmarked id names⟩
    rintro ⟨snapshot, rfl, hwrote⟩
    refine ⟨snapshot, rfl, ?_⟩
    by_cases hwriter : writer = id
    · subst hwriter
      have hnext := next_advance s writer names
      generalize s.calls writer = phase at hnext hwrote hdelete
      generalize (s.advance (writer, names)).calls writer = phase' at hnext
      cases hnext with
      | saveDelete snapshot' hsaw =>
        cases hwrote
        exact .delete names
      | saved snapshot' hsaw =>
        cases hwrote
        exact .saved
      | saveFailed snapshot' seen =>
        cases hwrote
        exact absurd (.save snapshot seen) hdelete
      | ended _ hended => exact hwrote
      | _ => cases hwrote
    · rw [calls_advance_of_ne hwriter]
      exact hwrote
  rcases blobs_advance s id names with hsame | ⟨put, hput, hblobs⟩ | ⟨gone, hgone, hblobs⟩
  · exact hkeep (hsame ▸ hblob)
  · by_cases hname : name = put
    · subst hname
      rw [hblobs, Function.update_self] at hblob
      obtain rfl : id = writer := Option.some.inj (Option.some.inj hblob)
      have hnext := next_advance s id names
      generalize s.calls id = phase at hput hnext
      generalize (s.advance (id, names)).calls id = phase' at hnext
      cases hput with
      | reset below =>
        refine Or.inr ⟨below, rfl, ?_⟩
        cases hnext with
        | resetList _ => exact .list
        | ended _ hended => cases hended
      | save snapshot =>
        refine Or.inl ⟨snapshot, rfl, ?_⟩
        cases hnext with
        | saveList snapshot => exact .list
        | savedUnordered snapshot hzero => exact .saved
        | ended _ hended => cases hended
    · rw [hblobs, Function.update_of_ne hname] at hblob
      exact hkeep hblob
  · by_cases hname : name = gone
    · subst hname
      exact absurd hgone hdelete
    · rw [hblobs, Function.update_of_ne hname] at hblob
      exact hkeep hblob

/-- A listing shows the marker of a reset to a save of an older generation. -/
theorem sawReset_of_hasMarker (hlist : s.Lists names) {below : UInt64}
    (hmarker : s.HasMarker below) {snapshot : Snapshot} (hlt : snapshot.head.generation < below) :
    sawReset snapshot.head.generation names := by
  obtain ⟨bound, hle, hblob⟩ := hmarker
  exact sawReset_of_mem ((hlist _).mpr hblob) (UInt64.lt_of_lt_of_le hlt hle)

theorem resetDooms_key {snapshot : Snapshot} {below : UInt64}
    (h : snapshot.head.generation < below) : resetDooms below snapshot.head.key := by
  unfold resetDooms
  rw [nameGeneration_key snapshot.digest_hex]
  simpa using h

theorem Inv.cleared_advance (h : s.Inv) (hlist : s.Lists names) (id : Nat) (resetter : Nat)
    (below : UInt64) (doomed : List Name)
    (hclearing : ((s.advance (id, names)).calls resetter).Clearing below doomed) (saver : Nat)
    (snapshot : Snapshot) (hlt : snapshot.head.generation < below)
    (hpos : 0 < snapshot.head.generation)
    (hsaved : (s.advance (id, names)).calls saver = .saved snapshot)
    (hblob : (s.advance (id, names)).blobs snapshot.head.key = some (some saver)) :
    snapshot.head.key ∈ doomed := by
  by_cases hsaver : saver = id
  · subst hsaver
    have hnext := next_advance s saver names
    have hold (hputs : ∀ name, ¬ (s.calls saver).Puts name) := blobs_before hblob fun _ => hputs
    rw [hsaved] at hnext
    have hother : resetter ≠ saver := by
      rintro rfl
      rw [hsaved] at hclearing
      cases hclearing
    rw [calls_advance_of_ne hother] at hclearing
    generalize hphase : s.calls saver = phase at hnext hold
    cases hnext with
    | savedUnordered _ hzero => exact absurd hpos hzero
    | saved _ hsaw =>
      have hmarker := h.marked resetter below (.clearing hclearing)
      exact absurd (sawReset_of_hasMarker hlist hmarker hlt) hsaw
    | ended _ hended =>
      refine h.cleared resetter below doomed hclearing saver snapshot hlt hpos hphase (hold ?_)
      rintro name ⟨⟩
  · have hold := blobs_before hblob fun heq => absurd heq hsaver
    rw [calls_advance_of_ne hsaver] at hsaved
    have hthere : snapshot.head.key ∈ names := (hlist _).mpr (by rw [hold]; rfl)
    have hbefore (left : List Name) (hclear : (s.calls resetter).Clearing below left) :
        snapshot.head.key ∈ left :=
      h.cleared resetter below left hclear saver snapshot hlt hpos hsaved hold
    by_cases hresetter : resetter = id
    · subst hresetter
      have hnext := next_advance s resetter names
      have hdelete : ¬ (s.calls resetter).Deletes snapshot.head.key := by
        intro hdelete
        rw [blobs_of_deletes hdelete] at hblob
        cases hblob
      generalize s.calls resetter = phase at hnext hdelete hbefore
      generalize (s.advance (resetter, names)).calls resetter = phase' at hnext hclearing
      cases hclearing with
      | deleting doomed deleted =>
        cases hnext with
        | resetDelete _ => exact List.mem_filter.mpr ⟨hthere, resetDooms_key hlt⟩
        | resetNext _ name _ count _ =>
          rcases List.mem_cons.mp (hbefore _ (.deleting _ _)) with heq | hmem
          · rw [heq] at hdelete
            exact absurd (.reset below name doomed count) hdelete
          · exact hmem
        | ended _ hended => cases hended
      | done deleted =>
        cases hnext with
        | reset _ _ => exact hbefore [] (.deleting _ _)
        | ended _ hended => exact hbefore [] (.done deleted)
    · rw [calls_advance_of_ne hresetter] at hclearing
      exact hbefore doomed hclearing

/-- **Every step keeps the invariant.** -/
theorem Inv.advance (h : s.Inv) {act : Nat × List Name} (hact : s.Allowed act) :
    (s.advance act).Inv :=
  ⟨h.justified_advance act.1 act.2, h.marked_advance act.1 act.2, h.written_advance act.1 act.2,
    h.cleared_advance hact act.1⟩

/-! ## Runs -/

theorem Inv.reaches {t : System} (h : s.Inv) (hrun : s.Reaches t) : t.Inv := by
  obtain ⟨acts, hlegal, rfl⟩ := hrun
  exact invariant (fun _ _ hinv hact => hinv.advance hact) h hlegal

/-- The save has not returned its snapshot, or has failed. -/
inductive Phase.Stale (snapshot : Snapshot) : Phase → Prop
  | put : Stale snapshot (.savePut snapshot)
  | list : Stale snapshot (.saveList snapshot)
  | delete (names : List Name) : Stale snapshot (.saveDelete snapshot names)
  | failed : Stale snapshot (.saveFailed snapshot)

/-- A save that a marker above it awaits never returns its snapshot. -/
theorem Inv.stale_advance (h : s.Inv) {resetter saver : Nat} {below : UInt64} {snapshot : Snapshot}
    (hmarked : (s.calls resetter).Marked below) (hlt : snapshot.head.generation < below)
    (hpos : 0 < snapshot.head.generation) (hstale : Phase.Stale snapshot (s.calls saver))
    {act : Nat × List Name} (hact : s.Allowed act) :
    Phase.Stale snapshot ((s.advance act).calls saver) := by
  obtain ⟨id, names⟩ := act
  by_cases hsaver : saver = id
  · subst hsaver
    have hsaw := sawReset_of_hasMarker hact (h.marked resetter below hmarked) hlt
    have hnext := next_advance s saver names
    generalize s.calls saver = phase at hstale hnext
    generalize (s.advance (saver, names)).calls saver = phase' at hnext
    cases hstale with
    | put =>
      cases hnext with
      | saveList _ => exact .list
      | savedUnordered _ hzero => exact absurd hpos hzero
      | ended _ hended => exact .put
    | list =>
      cases hnext with
      | saveDelete _ _ => exact .delete _
      | saved _ hnot => exact absurd hsaw hnot
      | ended _ hended => exact .list
    | delete seen =>
      cases hnext with
      | saveFailed _ _ => exact .failed
      | ended _ hended => exact .delete _
    | failed =>
      cases hnext with
      | ended _ hended => exact .failed
  · rwa [calls_advance_of_ne hsaver]

theorem marked_reaches {t : System} {resetter : Nat} {below : UInt64}
    (h : (s.calls resetter).Marked below) (hrun : s.Reaches t) :
    (t.calls resetter).Marked below := by
  obtain ⟨acts, hlegal, rfl⟩ := hrun
  exact @invariant System (Nat × List Name) System.advance Allowed
    (fun s => (s.calls resetter).Marked below)
    (fun s act hmarked _ => stays_marked hmarked act.1 act.2) s acts h hlegal

theorem Inv.stale_reaches {t : System} (h : s.Inv) {resetter saver : Nat} {below : UInt64}
    {snapshot : Snapshot} (hmarked : (s.calls resetter).Marked below)
    (hlt : snapshot.head.generation < below) (hpos : 0 < snapshot.head.generation)
    (hstale : Phase.Stale snapshot (s.calls saver)) (hrun : s.Reaches t) :
    Phase.Stale snapshot (t.calls saver) := by
  obtain ⟨acts, hlegal, rfl⟩ := hrun
  have hall := @invariant System (Nat × List Name) System.advance Allowed
    (fun s => s.Inv ∧ (s.calls resetter).Marked below ∧ Phase.Stale snapshot (s.calls saver))
    (fun s act ⟨hinv, hmarked, hstale⟩ hact =>
      ⟨hinv.advance hact, stays_marked hmarked act.1 act.2,
        hinv.stale_advance hmarked hlt hpos hstale hact⟩)
    s acts ⟨h, hmarked, hstale⟩ hlegal
  exact hall.2.2

/-- The step that deletes the blob is of a call that may delete it. -/
def DeletedBy (phase : Phase) (snapshot : Snapshot) : Prop :=
  (∃ below doomed deleted, phase = .resetDelete below doomed deleted ∧
      snapshot.head.generation < below) ∨
    (∃ (other : Snapshot) (names : List Name), phase = .saveDelete other names ∧
      other.head.key = snapshot.head.key ∧ sawReset snapshot.head.generation names) ∨
    ∃ keep doomed deleted, phase = .retainDelete keep doomed deleted ∧
      keep.key ≠ snapshot.head.key ∧ snapshot.head.generation ≤ keep.generation

theorem Inv.deletedBy (h : s.Inv) {snapshot : Snapshot}
    (hthere : (s.blobs snapshot.head.key).isSome)
    (hgone : (s.advance (id, names)).blobs snapshot.head.key = none) :
    DeletedBy (s.calls id) snapshot := by
  have hdelete : (s.calls id).Deletes snapshot.head.key := by
    rcases blobs_advance s id names with hsame | ⟨put, hput, hblobs⟩ | ⟨gone, hdelete, hblobs⟩
    · rw [hsame] at hgone
      rw [hgone] at hthere
      cases hthere
    · rw [hblobs, Function.update_apply] at hgone
      split_ifs at hgone
      rw [hgone] at hthere
      cases hthere
    · by_cases hname : snapshot.head.key = gone
      · exact hname ▸ hdelete
      · rw [hblobs, Function.update_of_ne hname] at hgone
        rw [hgone] at hthere
        cases hthere
  have hjustified := h.justified id
  generalize s.calls id = phase at hdelete hjustified
  generalize hkey : snapshot.head.key = key at hdelete
  cases hdelete with
  | save other seen =>
    have hgeneration : other.head.generation = snapshot.head.generation := by
      have hother := keyGeneration_key other.digest_hex
      rw [← hkey, keyGeneration_key snapshot.digest_hex] at hother
      exact (Option.some.inj hother).symm
    exact Or.inr (Or.inl ⟨other, seen, rfl, hkey.symm, hgeneration ▸ hjustified⟩)
  | retain keep name doomed deleted =>
    have hdooms := hjustified key List.mem_cons_self
    rw [← hkey] at hdooms
    unfold retainDooms at hdooms
    rw [keyGeneration_key snapshot.digest_hex, scratchGeneration_key snapshot.digest_hex] at hdooms
    have hdooms : snapshot.head.key ≠ keep.key ∧ snapshot.head.generation ≤ keep.generation := by
      simpa using hdooms
    exact Or.inr (Or.inr ⟨keep, _, _, rfl, hdooms.1.symm, hdooms.2⟩)
  | reset below name doomed deleted =>
    have hdooms := hjustified key List.mem_cons_self
    rw [← hkey] at hdooms
    unfold resetDooms at hdooms
    rw [nameGeneration_key snapshot.digest_hex] at hdooms
    exact Or.inl ⟨below, _, _, rfl, by simpa using hdooms⟩

theorem le_foldl_max (first : UInt64) (rest : List UInt64) :
    first ≤ rest.foldl max first ∧ ∀ a ∈ rest, a ≤ rest.foldl max first := by
  have hmax (a b : UInt64) : a ≤ max a b ∧ b ≤ max a b := by
    show a ≤ (if a ≤ b then b else a) ∧ b ≤ if a ≤ b then b else a
    split_ifs with h
    · exact ⟨h, UInt64.le_rfl⟩
    · exact ⟨UInt64.le_rfl, (UInt64.le_total a b).resolve_left h⟩
  induction rest generalizing first with
  | nil => exact ⟨UInt64.le_rfl, fun _ h => absurd h List.not_mem_nil⟩
  | cons next rest ih =>
    obtain ⟨hfirst, hrest⟩ := ih (max first next)
    refine ⟨UInt64.le_trans (hmax first next).1 hfirst, fun a ha => ?_⟩
    rcases List.mem_cons.mp ha with rfl | ha
    · exact UInt64.le_trans (hmax first a).2 hfirst
    · exact hrest a ha

/-- The highest generation is at least that of every listed marker. -/
theorem le_highestGeneration {bound : UInt64} (h : resetMarker bound ∈ names) :
    bound ≤ highestGeneration names := by
  have hmem : bound ∈ names.filterMap nameGeneration :=
    List.mem_filterMap.mpr ⟨_, h, nameGeneration_resetMarker bound⟩
  unfold highestGeneration
  cases hall : names.filterMap nameGeneration with
  | nil =>
    rw [hall] at hmem
    cases hmem
  | cons first rest =>
    rw [hall] at hmem
    obtain ⟨hfirst, hrest⟩ := le_foldl_max first rest
    rw [List.max?_cons', Option.getD_some]
    rcases List.mem_cons.mp hmem with rfl | hmem
    · exact hfirst
    · exact hrest bound hmem

/-- **Snapshots survive stale attempts and resets stick**, over every run of saves, retains and
resets:
* after a reset and an older save have both ended, no blob of that save is left, and a save that
  puts after the listing of the reset ends in an error;
* a returned snapshot is deleted by a reset above it, by a save of its key that saw a reset, or by
  a retain of another head that is not older;
* after a reset has ended, the highest generation stays at its bound or above. -/
theorem snapshots_survive_and_resets_stick (s₀ s : System) (hfresh : s₀.Fresh)
    (hrun : s₀.Reaches s) :
    (∀ resetter below deleted saver (snapshot : Snapshot),
      s.calls resetter = .reset below deleted → snapshot.head.generation < below →
      0 < snapshot.head.generation →
      (s.calls saver = .saved snapshot ∨ s.calls saver = .saveFailed snapshot) →
        ∀ name, s.blobs name ≠ some (some saver)) ∧
    (∀ resetter below doomed saver (snapshot : Snapshot),
      (s.calls resetter).Clearing below doomed → snapshot.head.generation < below →
      0 < snapshot.head.generation → s.calls saver = .savePut snapshot →
        ∀ t, s.Reaches t → (t.calls saver).Ended → t.calls saver = .saveFailed snapshot) ∧
    (∀ saver (snapshot : Snapshot) id names,
      s.calls saver = .saved snapshot → (s.blobs snapshot.head.key).isSome → s.Lists names →
      (s.advance (id, names)).blobs snapshot.head.key = none →
        DeletedBy (s.calls id) snapshot) ∧
    (∀ resetter below deleted, s.calls resetter = .reset below deleted →
      ∀ t, s.Reaches t → ∀ names, t.Lists names → below ≤ highestGeneration names) := by
  have hinv := hfresh.inv.reaches hrun
  refine ⟨?_, ?_, ?_, ?_⟩
  · intro resetter below deleted saver snapshot hreset hlt hpos hended name hblob
    have hclear := hinv.cleared resetter below [] (hreset ▸ .done deleted) saver
    rcases hinv.written name saver hblob with ⟨other, rfl, hwrote⟩ | ⟨bound, rfl, hmarked⟩
    · rcases hended with hended | hended
      · rw [hended] at hwrote
        cases hwrote
        exact absurd (hclear snapshot hlt hpos hended hblob) List.not_mem_nil
      · rw [hended] at hwrote
        cases hwrote
    · -- a marker is of a reset, and the call is a save
      rcases hended with hended | hended <;> rw [hended] at hmarked <;> cases hmarked <;>
        rename_i hclearing <;> cases hclearing
  · intro resetter below doomed saver snapshot hclearing hlt hpos hput t hreach hended
    have hstart : Phase.Stale snapshot (s.calls saver) := by
      rw [hput]
      exact .put
    have hstale := hinv.stale_reaches (.clearing hclearing) hlt hpos hstart hreach
    generalize t.calls saver = phase at hstale hended
    cases hstale with
    | failed => rfl
    | _ => cases hended
  · intro saver snapshot id names _ hthere _ hgone
    exact hinv.deletedBy hthere hgone
  · intro resetter below deleted hreset t hreach names hlist
    have hmarked : (s.calls resetter).Marked below := hreset ▸ .clearing (.done deleted)
    obtain ⟨bound, hle, hblob⟩ :=
      (hinv.reaches hreach).marked resetter below (marked_reaches hmarked hreach)
    exact UInt64.le_trans hle (le_highestGeneration ((hlist _).mpr hblob))

/-- A snapshot of generation 1. -/
def staleSnapshot : Snapshot where
  head := ⟨List.replicate 64 'a', 0, 0, 1⟩
  digest_hex := by decide

/-- A save at generation 1 and a reset below 2, on an empty store. -/
def saveAgainstReset : System where
  blobs _ := none
  calls id := if id = 0 then .savePut staleSnapshot else .resetPut 2

/-- The reset puts its marker, lists and ends; then the save runs. -/
def resetThenSave : List (Nat × List Name) :=
  [(1, []), (1, [resetMarker 2]), (1, [resetMarker 2]), (0, [resetMarker 2]),
    (0, [staleSnapshot.head.key, resetMarker 2]), (0, [staleSnapshot.head.key, resetMarker 2])]

theorem snapshots_survive_and_resets_stick_late_save :
    let s := exec advance saveAgainstReset resetThenSave
    s.calls 0 = .saveFailed staleSnapshot ∧ s.calls 1 = .reset 2 0 ∧
      ∀ name, s.blobs name ≠ some (some 0) := by
  have hkeep : resetDooms 2 (resetMarker 2) = false := by
    unfold resetDooms
    rw [nameGeneration_resetMarker]
    decide
  have hsaw : sawReset staleSnapshot.head.generation [staleSnapshot.head.key, resetMarker 2] :=
    @sawReset_of_mem _ 2 _ (by simp) (by decide)
  have hpos : 0 < staleSnapshot.head.generation := by decide
  have hfresh : saveAgainstReset.Fresh := by
    refine ⟨fun id => ?_, fun _ _ h => by cases h⟩
    by_cases hid : id = 0
    · exact Or.inl ⟨staleSnapshot, if_pos hid⟩
    · exact Or.inr (Or.inr ⟨2, if_neg hid⟩)
  have hfinal : (exec advance saveAgainstReset resetThenSave).calls 0 = .saveFailed staleSnapshot ∧
      (exec advance saveAgainstReset resetThenSave).calls 1 = .reset 2 0 := by
    simp [exec, resetThenSave, saveAgainstReset, advance, setCall, put, delete, hkeep, hsaw, hpos]
  have hlegal : Legal advance Allowed saveAgainstReset resetThenSave := by
    simp [Legal, resetThenSave, saveAgainstReset, advance, setCall, put, hkeep, hsaw, hpos, Allowed,
      Lists, Function.update_apply]
    intro name
    by_cases hkey : name = staleSnapshot.head.key
    · simp [hkey]
    · rw [if_neg hkey]
      by_cases hmarker : name = resetMarker 2
      · simp [hmarker]
      · simp [hkey, hmarker]
  refine ⟨hfinal.1, hfinal.2, ?_⟩
  exact (snapshots_survive_and_resets_stick saveAgainstReset _ hfresh ⟨_, hlegal, rfl⟩).1 1 2 0 0
    staleSnapshot hfinal.2 (by decide) (by decide) (Or.inr hfinal.1)

end System

end Harvest.Agent
