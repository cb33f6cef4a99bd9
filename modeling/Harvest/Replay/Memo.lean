import Harvest.Lib.Settle
import Harvest.Replay.Refine

/-!
# The memo of the external scan

The scan for external terminals skips what an earlier scan left unmatched. The memo says where that
is: in the covered range, only a terminal of a new key can match.

Proved here:
* `Terminal.comm`: terminals of different keys do not touch the same entry.
* `Covered.scanAhead`: the scan leaves what resolving every terminal from the cursor on leaves, and
  keeps the rule of the memo.
* `Covered.touch`: everything else that a method does to the external calls keeps it too.
-/

namespace Harvest.Replay

open HistoryMatcher Lib

/-! ## Entries of different ids -/

namespace ExternalStash

variable {ι T : Type*} [DecidableEq ι] {key : T → ι} {stash : ExternalStash ι T}

/-- A change that a search does not see. -/
theorem findIdx?_modify {α : Type*} {p : α → Bool} {f : α → α} {at' : Nat} {l : List α}
    (h : ∀ a, l[at']? = some a → p (f a) = p a) : (l.modify at' f).findIdx? p = l.findIdx? p := by
  induction l generalizing at' with
  | nil => simp
  | cons a l ih =>
    cases at' with
    | zero =>
      have hhead := h a rfl
      simp [List.findIdx?_cons, hhead]
    | succ at' =>
      simp only [List.modify_succ_cons, List.findIdx?_cons]
      rw [ih fun b hb => h b hb]

theorem modify_comm {α : Type*} {f g : α → α} {i j : Nat} (hne : i ≠ j) (l : List α) :
    (l.modify i f).modify j g = (l.modify j g).modify i f := by
  refine List.ext_getElem? fun k => ?_
  simp only [List.getElem?_modify]
  cases l[k]? with
  | none => rfl
  | some a =>
    by_cases hi : i = k
    · have hj : j ≠ k := fun hj => hne (hi.trans hj.symm)
      simp [hi, hj]
    · simp [hi]

theorem WellFormed.firstAt_some (h : stash.WellFormed key) {id : ι} {accept : T → Bool}
    {at' : Nat} (hat : stash.firstAt key id accept = some at') :
    ∃ entry, stash.entries[at']? = some entry ∧ key entry.2 = id ∧ accept entry.2 := by
  rw [h.firstAt_eq] at hat
  obtain ⟨hlt, htakes, -⟩ := List.findIdx?_eq_some_iff_getElem.mp hat
  rw [Bool.and_eq_true, decide_eq_true_eq] at htakes
  exact ⟨_, List.getElem?_eq_getElem hlt, htakes⟩

/-- Whether an entry with the id is there that is accepted. -/
theorem WellFormed.firstAt_isSome (h : stash.WellFormed key) {id : ι} {accept : T → Bool} :
    (stash.firstAt key id accept).isSome ↔
      ∃ call ∈ stash.calls, key call = id ∧ accept call := by
  rw [h.firstAt_eq, List.findIdx?_isSome, List.any_eq_true]
  simp only [Bool.and_eq_true, decide_eq_true_eq, calls, List.mem_map]
  constructor
  · rintro ⟨entry, hmem, htakes⟩
    exact ⟨entry.2, ⟨entry, hmem, rfl⟩, htakes⟩
  · rintro ⟨_, ⟨entry, hmem, rfl⟩, htakes⟩
    exact ⟨entry, hmem, htakes⟩

/-- The stash after the first entry with the id that is accepted has changed. -/
def changed (key : T → ι) (stash : ExternalStash ι T) (id : ι) (accept : T → Bool) (f : T → T) :
    ExternalStash ι T :=
  (stash.firstMut key id accept f).getD stash

theorem changed_eq (id : ι) (accept : T → Bool) (f : T → T) :
    changed key stash id accept f = match stash.firstAt key id accept with
      | some at' => { stash with
          entries := stash.entries.modify at' fun entry => (entry.1, f entry.2) }
      | none => stash := by
  unfold changed firstMut
  cases stash.firstAt key id accept <;> rfl

theorem WellFormed.of_changed (h : stash.WellFormed key) {id : ι} {accept : T → Bool} {f : T → T}
    (hf : ∀ call, key (f call) = key call) :
    (changed key stash id accept f).WellFormed key := by
  unfold ExternalStash.changed
  cases hmut : stash.firstMut key id accept f with
  | none => exact h
  | some other => exact h.of_firstMut hf hmut

/-- A change at one id is not seen at another. -/
theorem WellFormed.firstAt_changed (h : stash.WellFormed key) {id other : ι} (hne : id ≠ other)
    {accept accept' : T → Bool} {f : T → T} (hf : ∀ call, key (f call) = key call) :
    (changed key stash id accept f).firstAt key other accept' =
      stash.firstAt key other accept' := by
  have hchanged := @WellFormed.of_changed _ _ _ _ _ h id accept f hf
  rw [hchanged.firstAt_eq, h.firstAt_eq, changed_eq]
  cases hat : stash.firstAt key id accept with
  | none => rfl
  | some at' =>
    obtain ⟨entry, hentry, hkey, -⟩ := h.firstAt_some hat
    refine findIdx?_modify fun a ha => ?_
    obtain rfl : entry = a := Option.some.inj (hentry.symm.trans ha)
    simp [hf, hkey, hne]

/-- **Changes at two ids commute.** -/
theorem WellFormed.changed_comm (h : stash.WellFormed key) {id other : ι} (hne : id ≠ other)
    {accept accept' : T → Bool} {f f' : T → T} (hf : ∀ call, key (f call) = key call)
    (hf' : ∀ call, key (f' call) = key call) :
    ExternalStash.changed key (ExternalStash.changed key stash id accept f) other accept' f' =
      ExternalStash.changed key (ExternalStash.changed key stash other accept' f') id accept f := by
  have houter := @changed_eq _ _ _ key (ExternalStash.changed key stash id accept f) other accept' f'
  have hinner := @changed_eq _ _ _ key (ExternalStash.changed key stash other accept' f') id accept f
  rw [h.firstAt_changed hne hf] at houter
  rw [h.firstAt_changed hne.symm hf'] at hinner
  rw [houter, hinner, changed_eq id, changed_eq other]
  cases hid : stash.firstAt key id accept with
  | none =>
    cases hother : stash.firstAt key other accept' with
    | none => rfl
    | some j => rfl
  | some i =>
    cases hother : stash.firstAt key other accept' with
    | none => rfl
    | some j =>
      have hij : i ≠ j := by
        rintro rfl
        obtain ⟨entry, hentry, hkey, -⟩ := h.firstAt_some hid
        obtain ⟨entry', hentry', hkey', -⟩ := h.firstAt_some hother
        obtain rfl := Option.some.inj (hentry.symm.trans hentry')
        exact hne (hkey.symm.trans hkey')
      dsimp only
      rw [modify_comm hij]

/-- What is open after a change was open before, if the change only closes. -/
theorem WellFormed.isSome_of_changed (h : stash.WellFormed key) {id other : ι}
    {accept accept' : T → Bool} {f : T → T} (hf : ∀ call, key (f call) = key call)
    (hcloses : ∀ call, accept' (f call) → accept' call)
    (hsome : ((ExternalStash.changed key stash id accept f).firstAt key other accept').isSome) :
    (stash.firstAt key other accept').isSome := by
  have hchanged := @WellFormed.of_changed _ _ _ _ _ h id accept f hf
  rw [hchanged.firstAt_eq, List.findIdx?_isSome, List.any_eq_true] at hsome
  rw [h.firstAt_eq, List.findIdx?_isSome, List.any_eq_true]
  obtain ⟨entry, hmem, htakes⟩ := hsome
  rw [changed_eq] at hmem
  cases hat : stash.firstAt key id accept with
  | none =>
    rw [hat] at hmem
    exact ⟨entry, hmem, htakes⟩
  | some at' =>
    rw [hat] at hmem
    obtain ⟨k, hk⟩ := List.mem_iff_getElem?.mp hmem
    rw [List.getElem?_modify] at hk
    cases hold : stash.entries[k]? with
    | none =>
      rw [hold] at hk
      cases hk
    | some old =>
      rw [hold] at hk
      refine ⟨old, List.mem_of_getElem? hold, ?_⟩
      by_cases hk' : at' = k
      · simp only [hk', if_true, Option.map_eq_map, Option.map_some, Option.some.injEq] at hk
        subst hk
        rw [Bool.and_eq_true, decide_eq_true_eq] at htakes ⊢
        exact ⟨(hf old.2).symm.trans htakes.1, hcloses _ htakes.2⟩
      · simp only [hk', if_false, Option.map_eq_map, Option.map_some, Option.some.injEq] at hk
        exact hk ▸ htakes

end ExternalStash

/-! ## Terminals -/

/-- What an external terminal event says. -/
inductive Terminal
  | signal (id : ExternalSignalId) (terminal : StashedSignalTerminal)
  | cancel (id : ExternalCancelId) (terminal : StashedCancelTerminal)
  | await (id : ExternalAwaitId) (terminal : StashedAwaitTerminal)

def terminalOf : WorkflowEvent → Option Terminal
  | .externalSignalDelivered id => some (.signal id .delivered)
  | .externalSignalFailed id reasonCode => some (.signal id (.failed reasonCode))
  | .externalCancelDelivered id => some (.cancel id .delivered)
  | .externalCancelFailed id reasonCode => some (.cancel id (.failed reasonCode))
  | .externalAwaitResolved id output => some (.await id (.resolved output))
  | .externalAwaitFailed id reasonCode message errorType details nonRetryable =>
    some (.await id (.failed reasonCode message errorType details nonRetryable))
  | _ => none

def Terminal.key : Terminal → ExternalKey
  | .signal id _ => .signal id
  | .cancel id _ => .cancel id
  | .await id _ => .await id

theorem key_terminalOf (event : WorkflowEvent) :
    (terminalOf event).map Terminal.key = ExternalKey.ofTerminal event := by
  cases event <;> rfl

namespace ExternalCalls

structure WellFormed (x : ExternalCalls) : Prop where
  signals : x.signals.WellFormed StashedExternalSignal.signalId
  cancels : x.cancels.WellFormed StashedExternalCancel.cancelId
  awaits : x.awaits.WellFormed StashedExternalAwait.awaitId

/-- Whether a terminal of the key has an entry to resolve. -/
def isOpen (x : ExternalCalls) : ExternalKey → Bool
  | .signal id => (x.signals.firstAt StashedExternalSignal.signalId id fun _ => true).isSome
  | .cancel id => (x.cancels.firstAt StashedExternalCancel.cancelId id fun _ => true).isSome
  | .await id =>
    (x.awaits.firstAt StashedExternalAwait.awaitId id fun call => call.terminal.isNone).isSome

end ExternalCalls

namespace Terminal

open ExternalCalls

/-- The calls after the terminal is set. -/
def settled : Terminal → ExternalCalls → ExternalCalls
  | .signal id terminal, x => { x with
      signals := ExternalStash.changed StashedExternalSignal.signalId x.signals id (fun _ => true)
        fun pending => { pending with terminal := some terminal } }
  | .cancel id terminal, x => { x with
      cancels := ExternalStash.changed StashedExternalCancel.cancelId x.cancels id (fun _ => true)
        fun pending => { pending with terminal := some terminal } }
  | .await id terminal, x => { x with
      awaits := ExternalStash.changed StashedExternalAwait.awaitId x.awaits id
        (fun pending => pending.terminal.isNone)
        fun pending => { pending with terminal := some terminal } }

variable {x : ExternalCalls} {s t : Terminal}

theorem wellFormed (h : x.WellFormed) (t : Terminal) : (t.settled x).WellFormed := by
  cases t with
  | signal id terminal => exact ⟨h.signals.of_changed fun _ => rfl, h.cancels, h.awaits⟩
  | cancel id terminal => exact ⟨h.signals, h.cancels.of_changed fun _ => rfl, h.awaits⟩
  | await id terminal => exact ⟨h.signals, h.cancels, h.awaits.of_changed fun _ => rfl⟩

/-- A terminal only closes. -/
theorem isOpen_of_settled (h : x.WellFormed) (t : Terminal) {key : ExternalKey}
    (hopen : (t.settled x).isOpen key) : x.isOpen key := by
  cases t with
  | signal id terminal =>
    cases key with
    | signal other =>
      refine h.signals.isSome_of_changed ?_ ?_ hopen
      · exact fun _ => rfl
      · exact fun _ h => h
    | cancel other => exact hopen
    | await other => exact hopen
  | cancel id terminal =>
    cases key with
    | signal other => exact hopen
    | cancel other =>
      refine h.cancels.isSome_of_changed ?_ ?_ hopen
      · exact fun _ => rfl
      · exact fun _ h => h
    | await other => exact hopen
  | await id terminal =>
    cases key with
    | signal other => exact hopen
    | cancel other => exact hopen
    | await other =>
      refine h.awaits.isSome_of_changed ?_ ?_ hopen
      · exact fun _ => rfl
      · exact fun _ hnone => absurd hnone Bool.false_ne_true

/-- A terminal of one key is not seen at another. -/
theorem isOpen_settled_of_ne (h : x.WellFormed) {key : ExternalKey} (hne : t.key ≠ key) :
    (t.settled x).isOpen key = x.isOpen key := by
  cases t with
  | signal id terminal =>
    cases key with
    | signal other =>
      have hid : id ≠ other := fun heq => hne (congrArg ExternalKey.signal heq)
      exact congrArg Option.isSome (h.signals.firstAt_changed hid fun _ => rfl)
    | cancel other => rfl
    | await other => rfl
  | cancel id terminal =>
    cases key with
    | signal other => rfl
    | cancel other =>
      have hid : id ≠ other := fun heq => hne (congrArg ExternalKey.cancel heq)
      exact congrArg Option.isSome (h.cancels.firstAt_changed hid fun _ => rfl)
    | await other => rfl
  | await id terminal =>
    cases key with
    | signal other => rfl
    | cancel other => rfl
    | await other =>
      have hid : id ≠ other := fun heq => hne (congrArg ExternalKey.await heq)
      exact congrArg Option.isSome (h.awaits.firstAt_changed hid fun _ => rfl)

/-- **Terminals of different keys commute.** -/
theorem comm (h : x.WellFormed) (hne : s.key ≠ t.key) :
    t.settled (s.settled x) = s.settled (t.settled x) := by
  cases s with
  | signal id terminal =>
    cases t with
    | signal other terminal' =>
      have hid : id ≠ other := fun heq => hne (congrArg ExternalKey.signal heq)
      refine congrArg (fun signals => { x with signals := signals }) (h.signals.changed_comm hid ?_ ?_)
      · exact fun _ => rfl
      · exact fun _ => rfl
    | cancel other terminal' => rfl
    | await other terminal' => rfl
  | cancel id terminal =>
    cases t with
    | signal other terminal' => rfl
    | cancel other terminal' =>
      have hid : id ≠ other := fun heq => hne (congrArg ExternalKey.cancel heq)
      refine congrArg (fun cancels => { x with cancels := cancels }) (h.cancels.changed_comm hid ?_ ?_)
      · exact fun _ => rfl
      · exact fun _ => rfl
    | await other terminal' => rfl
  | await id terminal =>
    cases t with
    | signal other terminal' => rfl
    | cancel other terminal' => rfl
    | await other terminal' =>
      have hid : id ≠ other := fun heq => hne (congrArg ExternalKey.await heq)
      refine congrArg (fun awaits => { x with awaits := awaits }) (h.awaits.changed_comm hid ?_ ?_)
      · exact fun _ => rfl
      · exact fun _ => rfl

end Terminal

/-! ## Resolving at a position -/

/-- The key of the external terminal at a position. -/
def keyAt (events : List WorkflowEvent) (i : Nat) : Option ExternalKey :=
  (events[i]?).bind ExternalKey.ofTerminal

namespace HistoryMatcher

/-- Resolves the event at a position, if it is unconsumed. -/
def resolveAt (m : HistoryMatcher) (i : Nat) : HistoryMatcher :=
  if m.isConsumed i then m else m.resolveStashedTerminal i

/-- The matcher after the terminal at a position is set. -/
def resolved (m : HistoryMatcher) (terminal : Terminal) (i : Nat) : HistoryMatcher :=
  { m with
    external := terminal.settled m.external
    consumedSignalEvents := insert i m.consumedSignalEvents }

/-- The matcher with another memo and index of the external scan. -/
def withScan (m : HistoryMatcher) (memo : ExternalScanMemo) (index : ExternalTerminalIndex) :
    HistoryMatcher :=
  { m with external := { m.external with memo := memo, index := index } }

variable {m : HistoryMatcher} {i : Nat}

theorem setSignalTerminal_eq (x : ExternalCalls) (id : ExternalSignalId)
    (terminal : StashedSignalTerminal) : setSignalTerminal x id terminal =
      if x.isOpen (.signal id) then some ((Terminal.signal id terminal).settled x) else none := by
  unfold setSignalTerminal ExternalCalls.isOpen Terminal.settled ExternalStash.changed
    ExternalStash.firstMut
  cases hat : x.signals.firstAt StashedExternalSignal.signalId id fun _ => true with
  | none => simp [hat]
  | some at' => simp [hat]

theorem setCancelTerminal_eq (x : ExternalCalls) (id : ExternalCancelId)
    (terminal : StashedCancelTerminal) : setCancelTerminal x id terminal =
      if x.isOpen (.cancel id) then some ((Terminal.cancel id terminal).settled x) else none := by
  unfold setCancelTerminal ExternalCalls.isOpen Terminal.settled ExternalStash.changed
    ExternalStash.firstMut
  cases hat : x.cancels.firstAt StashedExternalCancel.cancelId id fun _ => true with
  | none => simp [hat]
  | some at' => simp [hat]

theorem setAwaitTerminal_eq (x : ExternalCalls) (id : ExternalAwaitId)
    (terminal : StashedAwaitTerminal) :
    setAwaitTerminal x id (fun pending => pending.terminal.isNone) terminal =
      if x.isOpen (.await id) then some ((Terminal.await id terminal).settled x) else none := by
  unfold setAwaitTerminal ExternalCalls.isOpen Terminal.settled ExternalStash.changed
    ExternalStash.firstMut
  cases hat : x.awaits.firstAt StashedExternalAwait.awaitId id fun call => call.terminal.isNone with
  | none => simp [hat]
  | some at' => simp [hat]

theorem resolveStashedTerminal_eq (m : HistoryMatcher) (i : Nat) :
    m.resolveStashedTerminal i = match (m.events[i]?).bind terminalOf with
      | some terminal =>
        if m.external.isOpen terminal.key then m.resolved terminal i else m
      | none => m := by
  unfold resolveStashedTerminal
  cases m.events[i]? with
  | none => rfl
  | some event =>
    cases event
    case externalSignalDelivered id =>
      cases hopen : m.external.isOpen (.signal id) with
      | false => simp [setSignalTerminal_eq, hopen, terminalOf, Terminal.key]
      | true => simp [setSignalTerminal_eq, hopen, terminalOf, Terminal.key, resolved]
    case externalSignalFailed id reasonCode =>
      cases hopen : m.external.isOpen (.signal id) with
      | false => simp [setSignalTerminal_eq, hopen, terminalOf, Terminal.key]
      | true => simp [setSignalTerminal_eq, hopen, terminalOf, Terminal.key, resolved]
    case externalCancelDelivered id =>
      cases hopen : m.external.isOpen (.cancel id) with
      | false => simp [setCancelTerminal_eq, hopen, terminalOf, Terminal.key]
      | true => simp [setCancelTerminal_eq, hopen, terminalOf, Terminal.key, resolved]
    case externalCancelFailed id reasonCode =>
      cases hopen : m.external.isOpen (.cancel id) with
      | false => simp [setCancelTerminal_eq, hopen, terminalOf, Terminal.key]
      | true => simp [setCancelTerminal_eq, hopen, terminalOf, Terminal.key, resolved]
    case externalAwaitResolved id output =>
      cases hopen : m.external.isOpen (.await id) with
      | false => simp [setAwaitTerminal_eq, hopen, terminalOf, Terminal.key]
      | true => simp [setAwaitTerminal_eq, hopen, terminalOf, Terminal.key, resolved]
    case externalAwaitFailed id reasonCode message errorType details nonRetryable =>
      cases hopen : m.external.isOpen (.await id) with
      | false => simp [setAwaitTerminal_eq, hopen, terminalOf, Terminal.key]
      | true => simp [setAwaitTerminal_eq, hopen, terminalOf, Terminal.key, resolved]
    all_goals rfl

theorem keyAt_eq_some {events : List WorkflowEvent} {key : ExternalKey} :
    keyAt events i = some key ↔
      ∃ terminal, (events[i]?).bind terminalOf = some terminal ∧ terminal.key = key := by
  unfold keyAt
  cases events[i]? with
  | none => simp
  | some event =>
    rw [Option.bind_some, Option.bind_some, ← key_terminalOf, Option.map_eq_some_iff]

/-- Nothing is left to resolve at a position. -/
def SettledAt (m : HistoryMatcher) (i : Nat) : Prop :=
  m.isConsumed i ∨ ∀ key, keyAt m.events i = some key → ¬ m.external.isOpen key

theorem resolveAt_of_settled (h : m.SettledAt i) : m.resolveAt i = m := by
  unfold resolveAt
  split_ifs with hconsumed
  · rfl
  · rw [resolveStashedTerminal_eq]
    cases hterminal : (m.events[i]?).bind terminalOf with
    | none => rfl
    | some terminal =>
      have hopen := h.resolve_left hconsumed terminal.key
        (keyAt_eq_some.mpr ⟨terminal, hterminal, rfl⟩)
      dsimp only
      rw [if_neg hopen]

/-- What resolving does where something is left. -/
theorem resolveAt_of_open {terminal : Terminal} (hnew : ¬ m.isConsumed i)
    (hterminal : (m.events[i]?).bind terminalOf = some terminal)
    (hopen : m.external.isOpen terminal.key) : m.resolveAt i = m.resolved terminal i := by
  unfold resolveAt
  rw [if_neg hnew, resolveStashedTerminal_eq, hterminal]
  dsimp only
  rw [if_pos hopen]

/-- A position is settled, or resolving consumes it and closes entries of its key. -/
theorem resolveAt_cases (m : HistoryMatcher) (i : Nat) :
    m.SettledAt i ∨ ∃ terminal, ¬ m.isConsumed i ∧
      (m.events[i]?).bind terminalOf = some terminal ∧ m.external.isOpen terminal.key := by
  by_cases hsettled : m.SettledAt i
  · exact Or.inl hsettled
  · right
    obtain ⟨hnew, hopen⟩ := not_or.mp hsettled
    simp only [not_forall, not_not] at hopen
    obtain ⟨key, hkey, hopen⟩ := hopen
    obtain ⟨terminal, hterminal, rfl⟩ := keyAt_eq_some.mp hkey
    exact ⟨terminal, hnew, hterminal, hopen⟩

theorem isConsumed_resolved {terminal : Terminal} {j : Nat} :
    (m.resolved terminal i).isConsumed j ↔ j = i ∨ m.isConsumed j := by
  rw [isConsumed_iff, isConsumed_iff, resolved, Finset.mem_insert]
  tauto

theorem SettledAt.resolved (h : m.SettledAt i) (hwf : m.external.WellFormed) (terminal : Terminal)
    (j : Nat) : (m.resolved terminal j).SettledAt i :=
  h.imp (fun hdone => isConsumed_resolved.mpr (Or.inr hdone)) fun hclosed key hkey hopen =>
    hclosed key hkey (terminal.isOpen_of_settled hwf hopen)

/-- Resolving at two positions of different keys. -/
theorem resolved_comm (hwf : m.external.WellFormed) {s t : Terminal} (hne : s.key ≠ t.key)
    (i j : Nat) : (m.resolved s i).resolved t j = (m.resolved t j).resolved s i := by
  unfold HistoryMatcher.resolved
  dsimp only
  rw [Terminal.comm hwf hne, Finset.insert_comm]

/-- **Resolving settles by key.** -/
theorem settling (events : List WorkflowEvent) :
    Settling resolveAt (keyAt events)
      (fun m => m.events = events ∧ m.external.WellFormed) SettledAt where
  inv m i hinv := by
    rcases m.resolveAt_cases i with hsettled | ⟨terminal, hnew, hterminal, hopen⟩
    · rw [resolveAt_of_settled hsettled]
      exact hinv
    · rw [resolveAt_of_open hnew hterminal hopen]
      exact ⟨hinv.1, terminal.wellFormed hinv.2⟩
  comm m i j hinv hne := by
    obtain ⟨rfl, hwf⟩ := hinv
    have hij : i ≠ j := fun heq => hne (congrArg (keyAt m.events) heq)
    rcases m.resolveAt_cases i with hi | ⟨s, hnewi, hs, hopens⟩
    · rcases m.resolveAt_cases j with hj | ⟨t, hnewj, ht, hopent⟩
      · rw [resolveAt_of_settled hi, resolveAt_of_settled hj, resolveAt_of_settled hi]
      · rw [resolveAt_of_settled hi, resolveAt_of_open hnewj ht hopent,
          resolveAt_of_settled (hi.resolved hwf t j)]
    · rcases m.resolveAt_cases j with hj | ⟨t, hnewj, ht, hopent⟩
      · rw [resolveAt_of_settled hj, resolveAt_of_open hnewi hs hopens,
          resolveAt_of_settled (hj.resolved hwf s i)]
      · have hkeys : s.key ≠ t.key := by
          intro heq
          rw [keyAt_eq_some.mpr ⟨s, hs, heq⟩, keyAt_eq_some.mpr ⟨t, ht, rfl⟩] at hne
          exact hne rfl
        have hnewj' : ¬ (m.resolved s i).isConsumed j :=
          mt isConsumed_resolved.mp (not_or.mpr ⟨hij.symm, hnewj⟩)
        have hnewi' : ¬ (m.resolved t j).isConsumed i :=
          mt isConsumed_resolved.mp (not_or.mpr ⟨hij, hnewi⟩)
        rw [resolveAt_of_open hnewi hs hopens, resolveAt_of_open hnewj ht hopent,
          @resolveAt_of_open (m.resolved s i) j t hnewj' ht
            ((Terminal.isOpen_settled_of_ne hwf hkeys).trans hopent),
          @resolveAt_of_open (m.resolved t j) i s hnewi' hs
            ((Terminal.isOpen_settled_of_ne hwf hkeys.symm).trans hopens)]
        exact resolved_comm hwf hkeys i j
  idle m i _ hsettled := resolveAt_of_settled hsettled
  stays m i j hinv hsettled := by
    rcases m.resolveAt_cases j with hother | ⟨terminal, hnew, hterminal, hopen⟩
    · rw [resolveAt_of_settled hother]
      exact hsettled
    · rw [resolveAt_of_open hnew hterminal hopen]
      exact hsettled.resolved hinv.2 terminal j
  settles m i _ := by
    rcases m.resolveAt_cases i with hsettled | ⟨terminal, hnew, hterminal, hopen⟩
    · rw [resolveAt_of_settled hsettled]
      exact hsettled
    · rw [resolveAt_of_open hnew hterminal hopen]
      exact Or.inl (isConsumed_resolved.mpr (Or.inl rfl))

/-! ## Passes -/

theorem settled_withScan (terminal : Terminal) (x : ExternalCalls) (memo : ExternalScanMemo)
    (index : ExternalTerminalIndex) : terminal.settled { x with memo := memo, index := index } =
      { terminal.settled x with memo := memo, index := index } := by
  cases terminal <;> rfl

theorem isOpen_withScan (x : ExternalCalls) (memo : ExternalScanMemo)
    (index : ExternalTerminalIndex) (key : ExternalKey) :
    ExternalCalls.isOpen { x with memo := memo, index := index } key = x.isOpen key := by
  cases key <;> rfl

theorem resolveAt_withScan (m : HistoryMatcher) (memo : ExternalScanMemo)
    (index : ExternalTerminalIndex) (i : Nat) :
    (m.withScan memo index).resolveAt i = (m.resolveAt i).withScan memo index := by
  have hconsumed : (m.withScan memo index).isConsumed i = m.isConsumed i := rfl
  rcases m.resolveAt_cases i with hsettled | ⟨terminal, hnew, hterminal, hopen⟩
  · rw [resolveAt_of_settled hsettled, resolveAt_of_settled]
    refine hsettled.imp id fun h key hkey hopen => h key hkey ?_
    rwa [withScan, isOpen_withScan] at hopen
  · have hopen' : (m.withScan memo index).external.isOpen terminal.key := by
      rw [withScan, isOpen_withScan]
      exact hopen
    rw [resolveAt_of_open hnew hterminal hopen,
      @resolveAt_of_open (m.withScan memo index) i terminal hnew hterminal hopen']
    unfold resolved withScan
    dsimp only
    rw [settled_withScan]

theorem foldl_resolveAt_withScan (m : HistoryMatcher) (memo : ExternalScanMemo)
    (index : ExternalTerminalIndex) (l : List Nat) :
    l.foldl resolveAt (m.withScan memo index) = (l.foldl resolveAt m).withScan memo index := by
  induction l generalizing m with
  | nil => rfl
  | cons i l ih => rw [List.foldl_cons, resolveAt_withScan, ih, List.foldl_cons]

theorem foldl_resolveAt_keeps (m : HistoryMatcher) (l : List Nat) :
    (l.foldl resolveAt m).events = m.events ∧
      (l.foldl resolveAt m).external.memo = m.external.memo ∧
      (l.foldl resolveAt m).external.index = m.external.index ∧
      ∀ i, m.isConsumed i → (l.foldl resolveAt m).isConsumed i := by
  induction l generalizing m with
  | nil => exact ⟨rfl, rfl, rfl, fun _ => id⟩
  | cons i l ih =>
    obtain ⟨hevents, hmemo, hindex, hconsumed⟩ := ih (m.resolveAt i)
    rw [List.foldl_cons]
    rcases m.resolveAt_cases i with hsettled | ⟨terminal, hnew, hterminal, hopen⟩
    · rw [resolveAt_of_settled hsettled] at hevents hmemo hindex hconsumed ⊢
      exact ⟨hevents, hmemo, hindex, hconsumed⟩
    · rw [resolveAt_of_open hnew hterminal hopen] at hevents hmemo hindex hconsumed ⊢
      refine ⟨hevents, hmemo.trans ?_, hindex.trans ?_,
        fun j hj => hconsumed j (isConsumed_resolved.mpr (Or.inr hj))⟩
      · cases terminal <;> rfl
      · cases terminal <;> rfl

/-- The terminals that a pass reads. -/
def reads : Option ExternalKey → Option ExternalKey → Bool
  | none, found => found.isSome
  | some key, found => found = some key

theorem nextExternalTerminal_eq {keys : List (Option ExternalKey)}
    (hindex : TerminalsIndexed keys m.isConsumed m.external.index) (key : Option ExternalKey)
    (next : Nat) : ∃ index, TerminalsIndexed keys m.isConsumed index ∧
      index.indexed = m.external.index.indexed ∧ m.nextExternalTerminal key next =
        (firstRole keys m.isConsumed m.external.index.indexed next (reads key),
          m.withScan m.external.memo index) := by
  cases key with
  | none =>
    obtain ⟨hfound, hindexed, hkeep⟩ := hindex.first next
    refine ⟨_, hkeep, hindexed, ?_⟩
    exact Prod.ext hfound rfl
  | some key =>
    refine ⟨_, hindex, rfl, ?_⟩
    exact Prod.ext (hindex.firstOf key next) rfl

theorem any_reads {keys : List (Option ExternalKey)}
    (hvisible : m.events.map ExternalKey.ofTerminal = keys.take m.events.length)
    (hi : i < m.events.length) (key : Option ExternalKey) :
    (keys[i]?).any (reads key) = reads key (keyAt m.events i) := by
  have hat := congrArg (fun found : List (Option ExternalKey) => found[i]?) hvisible
  simp only [List.getElem?_map, List.getElem?_take, if_pos hi] at hat
  rw [← hat, keyAt, List.getElem?_eq_getElem hi]
  rfl

/-- The positions before the first terminal that a pass reads are settled. -/
theorem foldl_before {keys : List (Option ExternalKey)} {key : Option ExternalKey}
    {next bound : Nat} (hwf : m.external.WellFormed)
    (hvisible : m.events.map ExternalKey.ofTerminal = keys.take m.events.length)
    (hbound : bound ≤ m.events.length)
    (hnone : ∀ i < bound, next ≤ i → ! m.isConsumed i → ¬ (keys[i]?).any (reads key)) :
    ((List.range' next (bound - next)).filter fun i => reads key (keyAt m.events i)).foldl
      resolveAt m = m := by
  refine (settling m.events).foldl_idle ⟨rfl, hwf⟩ fun i hi => Or.inl ?_
  obtain ⟨hrange, hreads⟩ := List.mem_filter.mp hi
  obtain ⟨hle, hlt⟩ := List.mem_range'_1.mp hrange
  by_contra hnew
  refine hnone i (by omega) hle (by simpa using hnew) ?_
  rw [any_reads hvisible (by omega)]
  exact hreads

theorem range'_split {next at' stop : Nat} (hle : next ≤ at') (hlt : at' < stop) :
    List.range' next (stop - next) =
      List.range' next (at' - next) ++ at' :: List.range' (at' + 1) (stop - (at' + 1)) := by
  have hat : next + (at' - next) = at' := by omega
  have hrest : at' :: List.range' (at' + 1) (stop - (at' + 1)) =
      List.range' (next + (at' - next)) (stop - at') := by
    rw [hat, show stop - at' = stop - (at' + 1) + 1 by omega, List.range'_succ]
  rw [hrest, List.range'_append_1]
  congr 1
  omega

/-- **A pass is a fold** over the positions that it reads. -/
theorem resolveExternalTerminals_eq {keys : List (Option ExternalKey)} {stop : Nat}
    (key : Option ExternalKey) (fuel next : Nat) (m : HistoryMatcher)
    (hwf : m.external.WellFormed)
    (hvisible : m.events.map ExternalKey.ofTerminal = keys.take m.events.length)
    (hindex : TerminalsIndexed keys m.isConsumed m.external.index)
    (hstop : stop ≤ m.events.length) (hindexed : m.events.length ≤ m.external.index.indexed)
    (hfuel : stop ≤ next + fuel) :
    let read := (List.range' next (stop - next)).filter fun i => reads key (keyAt m.events i)
    ∃ index, resolveExternalTerminals key stop fuel m next =
        (read.foldl resolveAt m).withScan m.external.memo index ∧
      TerminalsIndexed keys (read.foldl resolveAt m).isConsumed index ∧
      index.indexed = m.external.index.indexed := by
  induction fuel generalizing next m with
  | zero =>
    intro read
    have hread : read = [] := by
      simp only [read, Nat.sub_eq_zero_of_le (show stop ≤ next from hfuel), List.range'_zero,
        List.filter_nil]
    rw [hread]
    exact ⟨m.external.index, rfl, hindex, rfl⟩
  | succ fuel ih =>
    intro read
    unfold resolveExternalTerminals
    by_cases hlt : next < stop
    · obtain ⟨index, hkeep, hsame, hnext⟩ := nextExternalTerminal_eq hindex key next
      rw [if_pos hlt, hnext]
      dsimp only
      cases hfound : (firstRole keys m.isConsumed m.external.index.indexed next
          (reads key)).filter (· < stop) with
      | none =>
        -- nothing is left to read
        have hread : read.foldl resolveAt m = m := by
          refine foldl_before hwf hvisible hstop fun i hi hle hnew => ?_
          cases hfirst : firstRole keys m.isConsumed m.external.index.indexed next
              (reads key) with
          | none => exact firstRole_eq_none.mp hfirst i (by omega) hle hnew
          | some j =>
            rw [hfirst, Option.filter_eq_none_iff] at hfound
            have hge : ¬ j < stop := fun h => hfound j rfl (decide_eq_true h)
            exact (firstRole_eq_some.mp hfirst).2.2.2.2 i (by omega) hle hnew
        rw [hread]
        exact ⟨index, rfl, hkeep, hsame⟩
      | some at' =>
        obtain ⟨hfirst, hbefore⟩ := Option.filter_eq_some_iff.mp hfound
        have hat : at' < stop := of_decide_eq_true hbefore
        obtain ⟨-, hle, hnew, hreads, hskipped⟩ := firstRole_eq_some.mp hfirst
        have hnew' : ¬ m.isConsumed at' := by simpa using hnew
        -- the terminal is resolved, and the pass goes on behind it
        have hresolve : (m.withScan m.external.memo index).resolveStashedTerminal at' =
            (m.resolveAt at').withScan m.external.memo index := by
          have hnew₁ : ¬ (m.withScan m.external.memo index).isConsumed at' := hnew'
          rw [← resolveAt_withScan, resolveAt, if_neg hnew₁]
        obtain ⟨hevents, -, -, hgrows⟩ := foldl_resolveAt_keeps m [at']
        rw [List.foldl_cons, List.foldl_nil] at hevents hgrows
        have hwf₁ := ((settling m.events).inv m at' ⟨rfl, hwf⟩).2
        have hevents₁ : ((m.resolveAt at').withScan m.external.memo index).events = m.events :=
          hevents
        obtain ⟨index', hloop, hindex', hsame'⟩ := ih (at' + 1)
          ((m.resolveAt at').withScan m.external.memo index)
          ⟨hwf₁.signals, hwf₁.cancels, hwf₁.awaits⟩ (by rw [hevents₁]; exact hvisible)
          (hkeep.mono hgrows) (by rw [hevents₁]; exact hstop)
          (by rw [hevents₁]; exact hindexed.trans_eq hsame.symm) (by omega)
        have hread : read.foldl resolveAt m = ((List.range' (at' + 1) (stop - (at' + 1))).filter
            fun i => reads key (keyAt m.events i)).foldl resolveAt (m.resolveAt at') := by
          have hreads' : reads key (keyAt m.events at') := by
            rw [← any_reads hvisible (by omega)]
            exact hreads
          simp only [read]
          rw [range'_split hle hat, List.filter_append, List.foldl_append,
            foldl_before hwf hvisible (by omega) hskipped, List.filter_cons, if_pos hreads',
            List.foldl_cons]
        dsimp only
        rw [hresolve, hloop, hevents₁, foldl_resolveAt_withScan, hread]
        refine ⟨index', rfl, ?_, hsame'.trans hsame⟩
        rw [hevents₁, foldl_resolveAt_withScan] at hindex'
        exact hindex'
    · rw [if_neg hlt]
      have hread : read = [] := by
        simp only [read, Nat.sub_eq_zero_of_le (Nat.not_lt.mp hlt), List.range'_zero,
          List.filter_nil]
      rw [hread]
      exact ⟨m.external.index, rfl, hindex, rfl⟩

/-! ## The scan -/

/-- Resolves every unconsumed external terminal from the cursor to the visible end, in history
order. -/
def resolveAll (m : HistoryMatcher) : HistoryMatcher :=
  (List.range' m.cursor (m.events.length - m.cursor)).foldl resolveAt m

/-- A matcher whose index holds all that is visible. -/
structure Ready (keys : List (Option ExternalKey)) (m : HistoryMatcher) : Prop where
  wellFormed : m.external.WellFormed
  visible : m.events.map ExternalKey.ofTerminal = keys.take m.events.length
  index : TerminalsIndexed keys m.isConsumed m.external.index
  indexed : m.events.length ≤ m.external.index.indexed

variable {keys : List (Option ExternalKey)}

theorem Ready.pass (h : Ready keys m) (key : Option ExternalKey) {next stop : Nat}
    (hstop : stop ≤ m.events.length) :
    let read := (List.range' next (stop - next)).filter fun i => reads key (keyAt m.events i)
    ∃ index, resolveExternalTerminals key stop m.events.length m next =
        (read.foldl resolveAt m).withScan m.external.memo index ∧
      Ready keys ((read.foldl resolveAt m).withScan m.external.memo index) := by
  intro read
  obtain ⟨index, hloop, hindex, hindexed⟩ := resolveExternalTerminals_eq key m.events.length next m
    h.wellFormed h.visible h.index hstop h.indexed (by omega)
  obtain ⟨hevents, -, -, -⟩ := foldl_resolveAt_keeps m read
  have hwf := ((settling m.events).foldl_inv read ⟨rfl, h.wellFormed⟩).2
  have hevents' : ((read.foldl resolveAt m).withScan m.external.memo index).events = m.events :=
    hevents
  refine ⟨index, hloop, ⟨hwf.signals, hwf.cancels, hwf.awaits⟩, ?_, hindex, ?_⟩
  · rw [hevents']
    exact h.visible
  · rw [hevents']
    exact h.indexed.trans_eq hindexed.symm

/-- A pass over the terminals is a pass over all positions. -/
theorem foldl_terminals (m : HistoryMatcher) (l : List Nat) :
    (l.filter fun i => reads none (keyAt m.events i)).foldl resolveAt m = l.foldl resolveAt m := by
  induction l generalizing m with
  | nil => rfl
  | cons i l ih =>
    rw [List.filter_cons]
    split_ifs with hreads
    · have hevents : (m.resolveAt i).events = m.events := (foldl_resolveAt_keeps m [i]).1
      rw [List.foldl_cons, List.foldl_cons, ← hevents]
      exact ih (m.resolveAt i)
    · have hsettled : m.SettledAt i := by
        refine Or.inr fun key hkey => ?_
        rw [hkey] at hreads
        exact absurd rfl hreads
      rw [List.foldl_cons, resolveAt_of_settled hsettled]
      exact ih m

/-- A pass over every terminal from `next` to before `stop`. -/
theorem Ready.passAll {memo : ExternalScanMemo} {index : ExternalTerminalIndex}
    (h : Ready keys (m.withScan memo index)) {next stop : Nat} (hstop : stop ≤ m.events.length) :
    ∃ index', resolveExternalTerminals none stop m.events.length (m.withScan memo index) next =
        ((List.range' next (stop - next)).foldl resolveAt m).withScan memo index' ∧
      Ready keys (((List.range' next (stop - next)).foldl resolveAt m).withScan memo index') := by
  obtain ⟨index', hpass, hready⟩ := @Ready.pass _ keys h none next stop hstop
  rw [foldl_terminals, foldl_resolveAt_withScan] at hpass hready
  exact ⟨index', hpass, hready⟩

/-- The passes over the new keys. -/
theorem Ready.passKeys {memo : ExternalScanMemo} {index : ExternalTerminalIndex}
    (h : Ready keys (m.withScan memo index)) (newKeys : List ExternalKey) {next stop : Nat}
    (hstop : stop ≤ m.events.length) :
    let read := fun (m' : HistoryMatcher) (key : ExternalKey) =>
      ((List.range' next (stop - next)).filter fun i =>
        keyAt m.events i = some key).foldl resolveAt m'
    ∃ index', newKeys.foldl
        (fun m' key => resolveExternalTerminals (some key) stop m.events.length m' next)
        (m.withScan memo index) = (newKeys.foldl read m).withScan memo index' ∧
      Ready keys ((newKeys.foldl read m).withScan memo index') := by
  intro read
  suffices hall : ∀ (m' : HistoryMatcher) (index : ExternalTerminalIndex),
      Ready keys (m'.withScan memo index) → m'.events = m.events → ∃ index', newKeys.foldl
          (fun m' key => resolveExternalTerminals (some key) stop m.events.length m' next)
          (m'.withScan memo index) = (newKeys.foldl read m').withScan memo index' ∧
        Ready keys ((newKeys.foldl read m').withScan memo index') from hall m index h rfl
  induction newKeys with
  | nil => exact fun m' index h' _ => ⟨index, rfl, h'⟩
  | cons key newKeys ih =>
    intro m' index h' hevents
    obtain ⟨index₁, hpass, hready⟩ := @Ready.pass _ keys h' (some key) next stop
      (by rw [show (m'.withScan memo index).events = m.events from hevents]; exact hstop)
    have hread : ((List.range' next (stop - next)).filter fun i =>
        reads (some key) (keyAt (m'.withScan memo index).events i)).foldl resolveAt
          (m'.withScan memo index) = (read m' key).withScan memo index := by
      rw [foldl_resolveAt_withScan, show (m'.withScan memo index).events = m.events from hevents]
      rfl
    rw [hread, show (m'.withScan memo index).events = m.events from hevents] at hpass
    rw [hread] at hready
    obtain ⟨index₂, hpasses, hready'⟩ := ih (read m' key) index₁ hready
      ((foldl_resolveAt_keeps m' _).1.trans hevents)
    rw [List.foldl_cons, List.foldl_cons, hpass]
    exact ⟨index₂, hpasses, hready'⟩

end HistoryMatcher

/-- **The rule of the memo.** In the covered range, only an unconsumed terminal of a new key can
match. -/
structure Covered (keys : List (Option ExternalKey)) (m : HistoryMatcher) : Prop where
  wellFormed : m.external.WellFormed
  visible : m.events.map ExternalKey.ofTerminal = keys.take m.events.length
  index : TerminalsIndexed keys m.isConsumed m.external.index
  covered : ∀ i key, m.external.memo.coveredStart ≤ i →
    (∀ stop, m.external.memo.coveredEnd = some stop → i < stop) → ¬ m.isConsumed i →
    keys[i]? = some (some key) → key ∉ m.external.memo.newKeys → ¬ m.external.isOpen key

namespace Covered

variable {keys : List (Option ExternalKey)} {m : HistoryMatcher} {i : Nat}

theorem key_at (h : Covered keys m) (hi : i < m.events.length) :
    keys[i]? = some (keyAt m.events i) := by
  have hat := congrArg (fun found : List (Option ExternalKey) => found[i]?) h.visible
  simp only [List.getElem?_map, List.getElem?_take, if_pos hi] at hat
  rw [← hat, keyAt, List.getElem?_eq_getElem hi]
  rfl

/-- A covered position is settled, if its key is not new. -/
theorem settledAt (h : Covered keys m) (hi : i < m.events.length)
    (hstart : m.external.memo.coveredStart ≤ i)
    (hend : ∀ stop, m.external.memo.coveredEnd = some stop → i < stop)
    (hnew : ∀ key ∈ m.external.memo.newKeys, keyAt m.events i ≠ some key) : m.SettledAt i := by
  by_cases hdone : m.isConsumed i
  · exact Or.inl hdone
  · refine Or.inr fun key hkey => h.covered i key hstart hend hdone ?_ fun hmem => hnew key hmem hkey
    rw [h.key_at hi, hkey]

/-- Nothing is open in empty stashes. -/
theorem closed_of_isEmpty (hwf : m.external.WellFormed) (hempty : m.external.isEmpty)
    (key : ExternalKey) : ¬ m.external.isOpen key := by
  unfold ExternalCalls.isEmpty at hempty
  rw [Bool.and_eq_true, Bool.and_eq_true] at hempty
  obtain ⟨⟨hsignals, hcancels⟩, hawaits⟩ := hempty
  have hnone {ι T : Type} [DecidableEq ι] {idOf : T → ι} {stash : ExternalStash ι T}
      (hstash : stash.isEmpty) (hwf : stash.WellFormed idOf) (id : ι) (accept : T → Bool) :
      ¬ (stash.firstAt idOf id accept).isSome := by
    rw [hwf.firstAt_isSome]
    rintro ⟨call, hmem, -⟩
    rw [ExternalStash.calls, List.isEmpty_iff.mp hstash] at hmem
    cases hmem
  cases key with
  | signal id => exact hnone hsignals hwf.signals id _
  | cancel id => exact hnone hcancels hwf.cancels id _
  | await id => exact hnone hawaits hwf.awaits id _

/-- The two ends of the covered part of what is read. -/
theorem clamp_bounds {cursor len start lo hi coveredStart : Nat} {coveredEnd : Option Nat}
    (hstart : start = min cursor len) (hlo : lo = min (max coveredStart start) len)
    (hhi : hi = min (max (coveredEnd.getD len) lo) len) :
    start ≤ lo ∧ lo ≤ hi ∧ hi ≤ len ∧ ∀ i, lo ≤ i → i < hi →
      coveredStart ≤ i ∧ ∀ stop, coveredEnd = some stop → i < stop := by
  refine ⟨by omega, by omega, by omega, fun i hle hlt => ⟨by omega, ?_⟩⟩
  rintro stop rfl
  rw [Option.getD_some] at hhi
  omega

theorem range'_append_of_le {a b c : Nat} (hab : a ≤ b) (hbc : b ≤ c) :
    List.range' a (b - a) ++ List.range' b (c - b) = List.range' a (c - a) := by
  have hb : a + (b - a) = b := by omega
  have happend := @List.range'_append_1 a (b - a) (c - b)
  rw [hb] at happend
  rw [happend]
  congr 1
  omega

theorem foldl_keys_events (newKeys : List ExternalKey) (positions : ExternalKey → List Nat)
    (m : HistoryMatcher) :
    (newKeys.foldl (fun m' key => (positions key).foldl resolveAt m') m).events = m.events := by
  induction newKeys generalizing m with
  | nil => rfl
  | cons key newKeys ih => exact (ih _).trans (foldl_resolveAt_keeps m (positions key)).1

/-- **What the passes leave** is what resolving every terminal leaves. -/
theorem passes_eq (h : Covered keys m) {start lo hi : Nat}
    (hstart : start = min m.cursor m.events.length)
    (hlo : lo = min (max m.external.memo.coveredStart start) m.events.length)
    (hhi : hi = min (max (m.external.memo.coveredEnd.getD m.events.length) lo) m.events.length) :
    let read := fun (m' : HistoryMatcher) (key : ExternalKey) =>
      ((List.range' lo (hi - lo)).filter fun i => keyAt m.events i = some key).foldl resolveAt m'
    (List.range' hi (m.events.length - hi)).foldl resolveAt
      (m.external.memo.newKeys.foldl read
        ((List.range' start (lo - start)).foldl resolveAt m)) = m.resolveAll := by
  intro read
  obtain ⟨hle₁, hle₂, hle₃, hcovered⟩ := clamp_bounds hstart hlo hhi
  have hsettling := settling m.events
  have hinv : m.events = m.events ∧ m.external.WellFormed := ⟨rfl, h.wellFormed⟩
  -- in the covered range, the new keys are all that is left
  have hkeys := hsettling.foldl_by_keys (List.range' lo (hi - lo))
    (m.external.memo.newKeys.map some) (hsettling.foldl_inv (List.range' start (lo - start)) hinv)
    fun i hi' hkey => by
      obtain ⟨hlei, hlti⟩ := List.mem_range'_1.mp hi'
      obtain ⟨hfrom, hto⟩ := hcovered i hlei (by omega)
      refine hsettling.foldl_stays _ hinv (h.settledAt (by omega) hfrom hto fun key hmem heq => ?_)
      exact hkey (List.mem_map.mpr ⟨key, hmem, heq.symm⟩)
  rw [List.foldl_map] at hkeys
  have hread : m.external.memo.newKeys.foldl read
      ((List.range' start (lo - start)).foldl resolveAt m) =
        (List.range' lo (hi - lo)).foldl resolveAt
          ((List.range' start (lo - start)).foldl resolveAt m) := hkeys.symm
  have hspans : List.range' m.cursor (m.events.length - m.cursor) =
      List.range' start (lo - start) ++ List.range' lo (hi - lo) ++
        List.range' hi (m.events.length - hi) := by
    rw [range'_append_of_le hle₁ hle₂, range'_append_of_le (hle₁.trans hle₂) hle₃]
    by_cases hvisible : m.cursor ≤ m.events.length
    · rw [hstart, Nat.min_eq_left hvisible]
    · rw [Nat.sub_eq_zero_of_le (by omega), show m.events.length - start = 0 by omega]
      rfl
  rw [hread, resolveAll, hspans, List.foldl_append, List.foldl_append]

/-- **The three passes** of the scan. -/
theorem passes (h : Covered keys m) {start lo hi : Nat}
    (hstart : start = min m.cursor m.events.length)
    (hlo : lo = min (max m.external.memo.coveredStart start) m.events.length)
    (hhi : hi = min (max (m.external.memo.coveredEnd.getD m.events.length) lo) m.events.length) :
    let len := m.events.length
    let memo := { m.external.memo with coveredStart := start, coveredEnd := some len }
    let below := resolveExternalTerminals none lo len
      (m.withScan memo (m.external.index.extend m.events)) start
    let inside := m.external.memo.newKeys.foldl
      (fun m' key => resolveExternalTerminals (some key) hi len m' lo) below
    let cleared := { inside with external := { inside.external with
      memo := { inside.external.memo with newKeys := [] } } }
    ∃ index, resolveExternalTerminals none len len cleared hi =
        m.resolveAll.withScan ⟨start, some len, []⟩ index ∧
      Ready keys (m.resolveAll.withScan ⟨start, some len, []⟩ index) := by
  intro len memo below inside cleared
  obtain ⟨hle₁, hle₂, hle₃, -⟩ := clamp_bounds hstart hlo hhi
  have hready : Ready keys (m.withScan memo (m.external.index.extend m.events)) :=
    ⟨⟨h.wellFormed.signals, h.wellFormed.cancels, h.wellFormed.awaits⟩, h.visible,
      h.index.extend h.visible, Nat.le_max_right _ _⟩
  obtain ⟨index₁, hbelow, hready₁⟩ := @Ready.passAll m keys memo _ hready start lo (by omega)
  have hevents₁ : ((List.range' start (lo - start)).foldl resolveAt m).events = m.events :=
    (foldl_resolveAt_keeps m _).1
  obtain ⟨index₂, hinside, hready₂⟩ := @Ready.passKeys
    ((List.range' start (lo - start)).foldl resolveAt m) keys memo index₁ hready₁
    m.external.memo.newKeys lo hi (by rw [hevents₁]; exact hle₃)
  rw [hevents₁, ← hbelow] at hinside
  rw [hevents₁] at hready₂
  have hpasses := h.passes_eq hstart hlo hhi
  dsimp only at hpasses
  have hevents₂ := foldl_keys_events m.external.memo.newKeys (fun key =>
    (List.range' lo (hi - lo)).filter fun i => keyAt m.events i = some key)
    ((List.range' start (lo - start)).foldl resolveAt m)
  rw [hevents₁] at hevents₂
  generalize m.external.memo.newKeys.foldl (fun m' key =>
    ((List.range' lo (hi - lo)).filter fun i => keyAt m.events i = some key).foldl resolveAt m')
      ((List.range' start (lo - start)).foldl resolveAt m) = between
    at hinside hready₂ hpasses hevents₂
  have hcleared : cleared = between.withScan ⟨start, some len, []⟩ index₂ := by
    simp only [cleared]
    rw [show inside = between.withScan memo index₂ from hinside]
    rfl
  obtain ⟨index₃, habove, hready₃⟩ := @Ready.passAll between keys ⟨start, some len, []⟩ index₂
    ⟨⟨hready₂.wellFormed.signals, hready₂.wellFormed.cancels, hready₂.wellFormed.awaits⟩,
      hready₂.visible, hready₂.index, hready₂.indexed⟩ hi len (by rw [hevents₂])
  rw [hevents₂, ← hcleared] at habove
  rw [hpasses] at habove hready₃
  exact ⟨index₃, habove, hready₃⟩

/-- Resolving every terminal leaves nothing to resolve. -/
theorem resolveAll_settled (h : Covered keys m) (hle : m.cursor ≤ i) (hlt : i < m.events.length) :
    m.resolveAll.SettledAt i :=
  (settling m.events).foldl_settled _ ⟨rfl, h.wellFormed⟩ i
    (List.mem_range'_1.mpr ⟨hle, by omega⟩)

/-- **The memoized scan refines the full scan**, and keeps the rule of the memo. -/
theorem scanAhead (h : Covered keys m) :
    let scanned := m.scanAheadForExternalSignalTerminals
    scanned = m.resolveAll.withScan scanned.external.memo scanned.external.index ∧
      Covered keys scanned := by
  -- where every position from the cursor on is settled, the full scan does nothing
  have hidle (hall : ∀ i, m.cursor ≤ i → i < m.events.length → m.SettledAt i) :
      m.resolveAll = m := by
    refine (settling m.events).foldl_idle ⟨rfl, h.wellFormed⟩ fun i hi => ?_
    obtain ⟨hle, hlt⟩ := List.mem_range'_1.mp hi
    exact hall i hle (by omega)
  intro scanned
  have hscanned : m.scanAheadForExternalSignalTerminals = scanned := rfl
  clear_value scanned
  unfold scanAheadForExternalSignalTerminals at hscanned
  by_cases hempty : m.external.isEmpty
  · rw [if_pos hempty] at hscanned
    subst hscanned
    have hclosed := closed_of_isEmpty h.wellFormed hempty
    refine ⟨?_, ⟨h.wellFormed.signals, h.wellFormed.cancels, h.wellFormed.awaits⟩, h.visible,
      h.index, ?_⟩
    · rw [hidle fun i _ _ => Or.inr fun key _ => hclosed key]
      rfl
    · intro i key _ _ _ _ _ hopen
      rw [isOpen_withScan m.external .new m.external.index key] at hopen
      exact hclosed key hopen
  · rw [if_neg hempty] at hscanned
    dsimp only at hscanned
    generalize hstart : min m.cursor m.events.length = start at hscanned
    generalize hlo : min (max m.external.memo.coveredStart start) m.events.length = lo at hscanned
    generalize hhi : min (max (m.external.memo.coveredEnd.getD m.events.length) lo)
      m.events.length = hi at hscanned
    obtain ⟨hle₁, hle₂, hle₃, hcovered⟩ := clamp_bounds hstart.symm hlo.symm hhi.symm
    by_cases hdone : lo = start ∧ hi = m.events.length ∧ m.external.memo.newKeys = []
    · rw [if_pos hdone] at hscanned
      subst hscanned
      obtain ⟨hlo', hhi', hnew⟩ := hdone
      refine ⟨?_, h⟩
      rw [hidle fun i hle hlt => ?_]
      · rfl
      · obtain ⟨hfrom, hto⟩ := hcovered i (by omega) (by omega)
        refine h.settledAt hlt hfrom hto fun key hmem => ?_
        rw [hnew] at hmem
        cases hmem
    · rw [if_neg hdone] at hscanned
      obtain ⟨index, hresult, hready⟩ := h.passes hstart.symm hlo.symm hhi.symm
      have heq : scanned = m.resolveAll.withScan ⟨start, some m.events.length, []⟩ index :=
        hscanned.symm.trans hresult
      subst heq
      refine ⟨rfl, hready.wellFormed, hready.visible, hready.index, ?_⟩
      intro i key hfrom hto hnew hkey _ hopen
      have hlt := hto m.events.length rfl
      have hle : start ≤ i := hfrom
      have hsettled := h.resolveAll_settled (show m.cursor ≤ i by omega) hlt
      have hevents : m.resolveAll.events = m.events := (foldl_resolveAt_keeps m _).1
      rw [h.key_at hlt, Option.some.injEq] at hkey
      rw [← hevents] at hkey
      exact hsettled.resolve_left hnew key hkey
        (by rwa [withScan, isOpen_withScan] at hopen)

end Covered

/-! ## What a method does to the external calls -/

/-- What a method of the matcher can do to what the scan reads. A method that does anything else
keeps the external calls, the keys of the terminals, and what is consumed. -/
inductive Touch : HistoryMatcher → HistoryMatcher → Prop
  | keep {m m' : HistoryMatcher} (hexternal : m'.external = m.external)
      (hkeys : m'.events.map ExternalKey.ofTerminal = m.events.map ExternalKey.ofTerminal)
      (hconsumed : ∀ i, m.isConsumed i → m'.isConsumed i) : Touch m m'
  | stash (m : HistoryMatcher) (at' : Nat) : Touch m (m.stashTransparentExternalEvent at')
  | scan (m : HistoryMatcher) : Touch m m.scanAheadForExternalSignalTerminals
  | removeSignal {m : HistoryMatcher} {accept : StashedExternalSignal → Bool}
      {call : StashedExternalSignal} {rest : ExternalStash ExternalSignalId StashedExternalSignal}
      (h : m.external.signals.removeFirst StashedExternalSignal.signalId accept =
        some (call, rest)) : Touch m { m with external := { m.external with signals := rest } }
  | removeCancel {m : HistoryMatcher} {accept : StashedExternalCancel → Bool}
      {call : StashedExternalCancel} {rest : ExternalStash ExternalCancelId StashedExternalCancel}
      (h : m.external.cancels.removeFirst StashedExternalCancel.cancelId accept =
        some (call, rest)) : Touch m { m with external := { m.external with cancels := rest } }
  | removeAwait {m : HistoryMatcher} {accept : StashedExternalAwait → Bool}
      {call : StashedExternalAwait} {rest : ExternalStash ExternalAwaitId StashedExternalAwait}
      (h : m.external.awaits.removeFirst StashedExternalAwait.awaitId accept =
        some (call, rest)) : Touch m { m with external := { m.external with awaits := rest } }

namespace ExternalStash

variable {ι T : Type*} [DecidableEq ι] {key : T → ι} {stash : ExternalStash ι T}

/-- What is open after a push was open before, or is the new entry. -/
theorem WellFormed.isSome_of_pushBack (h : stash.WellFormed key) {call : T} {id : ι}
    {accept : T → Bool} (hne : key call ≠ id)
    (hsome : ((stash.pushBack key call).firstAt key id accept).isSome) :
    (stash.firstAt key id accept).isSome := by
  rw [(h.pushBack call).firstAt_isSome] at hsome
  rw [h.firstAt_isSome]
  obtain ⟨other, hmem, hid, haccept⟩ := hsome
  simp only [calls, ExternalStash.pushBack, List.map_append, List.map_cons, List.map_nil,
    List.mem_append, List.mem_singleton] at hmem
  rcases hmem with hmem | rfl
  · exact ⟨other, hmem, hid, haccept⟩
  · exact absurd hid hne

/-- What is open after a removal was open before. -/
theorem WellFormed.isSome_of_removeFirst (h : stash.WellFormed key) {taken : T → Bool} {call : T}
    {rest : ExternalStash ι T} (hremoved : stash.removeFirst key taken = some (call, rest))
    {id : ι} {accept : T → Bool} (hsome : (rest.firstAt key id accept).isSome) :
    (stash.firstAt key id accept).isSome := by
  rw [(h.of_removeFirst hremoved).firstAt_isSome] at hsome
  rw [h.firstAt_isSome]
  obtain ⟨other, hmem, htakes⟩ := hsome
  rw [(removeFirst_calls hremoved).1] at hmem
  exact ⟨other, List.mem_of_mem_eraseP hmem, htakes⟩

end ExternalStash

namespace Covered

variable {keys : List (Option ExternalKey)} {m m' : HistoryMatcher} {i : Nat}

/-- A change that opens only what it notes keeps the rule of the memo. -/
theorem of_opens (h : Covered keys m) (hwf : m'.external.WellFormed)
    (hvisible : m'.events.map ExternalKey.ofTerminal = m.events.map ExternalKey.ofTerminal)
    (hconsumed : ∀ i, m.isConsumed i → m'.isConsumed i)
    (hindex : m'.external.index = m.external.index)
    (hstart : m'.external.memo.coveredStart = m.external.memo.coveredStart)
    (hend : m'.external.memo.coveredEnd = m.external.memo.coveredEnd)
    (hnoted : ∀ key ∈ m.external.memo.newKeys, key ∈ m'.external.memo.newKeys)
    (hopens : ∀ key, m'.external.isOpen key → m.external.isOpen key ∨
      key ∈ m'.external.memo.newKeys) : Covered keys m' := by
  have hlength : m'.events.length = m.events.length := by
    have hlengths := congrArg List.length hvisible
    rwa [List.length_map, List.length_map] at hlengths
  refine ⟨hwf, ?_, ?_, ?_⟩
  · rw [hvisible, hlength]
    exact h.visible
  · rw [hindex]
    exact h.index.mono hconsumed
  · intro i key hfrom hto hnew hkey hold hopen
    rw [hstart] at hfrom
    rw [hend] at hto
    rcases hopens key hopen with hopen | hmem
    · exact h.covered i key hfrom hto (fun hdone => hnew (hconsumed i hdone)) hkey
        (fun hmem => hold (hnoted key hmem)) hopen
    · exact hold hmem

theorem stashTerminal (h : Covered keys m) (at' : Nat) (external : Option ExternalCalls)
    (hwf : ∀ x, external = some x → x.WellFormed)
    (hkeeps : ∀ x, external = some x → x.memo = m.external.memo ∧ x.index = m.external.index)
    (hcloses : ∀ x, external = some x → ∀ key, x.isOpen key → m.external.isOpen key) :
    Covered keys (m.stashTerminal at' external) := by
  have hconsumed : ∀ i, m.isConsumed i → (m.stashTerminal at' external).isConsumed i := by
    intro i hdone
    rw [isConsumed_iff] at hdone ⊢
    exact hdone.imp_right (Or.imp_left fun hmem => Finset.mem_insert_of_mem hmem)
  cases hexternal : external with
  | none =>
    rw [hexternal] at hconsumed
    exact h.of_opens h.wellFormed rfl hconsumed rfl rfl rfl (fun _ => id) fun _ => Or.inl
  | some x =>
    rw [hexternal] at hconsumed
    obtain ⟨hmemo, hindex⟩ := hkeeps x hexternal
    refine h.of_opens (hwf x hexternal) rfl hconsumed hindex ?_ ?_ ?_ fun key hopen =>
      Or.inl (hcloses x hexternal key hopen)
    · exact congrArg ExternalScanMemo.coveredStart hmemo
    · exact congrArg ExternalScanMemo.coveredEnd hmemo
    · intro key hmem
      show key ∈ x.memo.newKeys
      rw [hmemo]
      exact hmem

/-- A terminal that is set on one of the stashes. -/
theorem stash_signal_terminal (h : Covered keys m) (at' : Nat) (id : ExternalSignalId)
    (terminal : StashedSignalTerminal) :
    Covered keys (m.stashTerminal at' (setSignalTerminal m.external id terminal)) := by
  refine h.stashTerminal at' _ ?_ ?_ ?_
  all_goals
    intro x hx
    rw [setSignalTerminal_eq, Option.ite_none_right_eq_some] at hx
    obtain ⟨-, ⟨rfl⟩⟩ := hx
  · exact Terminal.wellFormed h.wellFormed _
  · exact ⟨rfl, rfl⟩
  · exact fun key => Terminal.isOpen_of_settled h.wellFormed _

theorem stash_cancel_terminal (h : Covered keys m) (at' : Nat) (id : ExternalCancelId)
    (terminal : StashedCancelTerminal) :
    Covered keys (m.stashTerminal at' (setCancelTerminal m.external id terminal)) := by
  refine h.stashTerminal at' _ ?_ ?_ ?_
  all_goals
    intro x hx
    rw [setCancelTerminal_eq, Option.ite_none_right_eq_some] at hx
    obtain ⟨-, ⟨rfl⟩⟩ := hx
  · exact Terminal.wellFormed h.wellFormed _
  · exact ⟨rfl, rfl⟩
  · exact fun key => Terminal.isOpen_of_settled h.wellFormed _

/-- The terminal of an await goes to the first entry with its id, open or not. -/
theorem stash_await_terminal (h : Covered keys m) (at' : Nat) (id : ExternalAwaitId)
    (terminal : StashedAwaitTerminal) :
    Covered keys (m.stashTerminal at' (setAwaitTerminal m.external id (fun _ => true) terminal)) := by
  have hset (x : ExternalCalls)
      (hx : setAwaitTerminal m.external id (fun _ => true) terminal = some x) :
      x = { m.external with
        awaits := (ExternalStash.changed StashedExternalAwait.awaitId m.external.awaits id
          (fun _ => true) fun pending => { pending with terminal := some terminal }) } := by
    obtain ⟨awaits, hmut, rfl⟩ := Option.map_eq_some_iff.mp hx
    unfold ExternalStash.changed
    rw [hmut]
    rfl
  refine h.stashTerminal at' _ ?_ ?_ ?_
  all_goals
    intro x hx
    obtain rfl := hset x hx
  · exact ⟨h.wellFormed.signals, h.wellFormed.cancels, h.wellFormed.awaits.of_changed fun _ => rfl⟩
  · exact ⟨rfl, rfl⟩
  · intro key hopen
    cases key with
    | signal other => exact hopen
    | cancel other => exact hopen
    | await other =>
      refine h.wellFormed.awaits.isSome_of_changed ?_ ?_ hopen
      · exact fun _ => rfl
      · exact fun _ hnone => absurd hnone Bool.false_ne_true

theorem keep (h : Covered keys m) (hexternal : m'.external = m.external)
    (hkeys : m'.events.map ExternalKey.ofTerminal = m.events.map ExternalKey.ofTerminal)
    (hconsumed : ∀ i, m.isConsumed i → m'.isConsumed i) : Covered keys m' := by
  refine h.of_opens ?_ hkeys hconsumed ?_ ?_ ?_ ?_ ?_
  all_goals rw [hexternal]
  · exact h.wellFormed
  · exact fun _ => id
  · exact fun _ => Or.inl

/-- A request notes its key. -/
theorem request (h : Covered keys m) (at' : Nat) (x : ExternalCalls) (key : ExternalKey)
    (hwf : x.WellFormed) (hmemo : x.memo = m.external.memo) (hindex : x.index = m.external.index)
    (hopens : ∀ other, key ≠ other → x.isOpen other → m.external.isOpen other) :
    Covered keys { m with
      external := noteKey x key
      consumedSignalEvents := insert at' m.consumedSignalEvents } := by
  refine h.of_opens ⟨hwf.signals, hwf.cancels, hwf.awaits⟩ rfl (fun i hdone => ?_) hindex ?_ ?_
    (fun other hmem => ?_) fun other hopen => ?_
  · rw [isConsumed_iff] at hdone ⊢
    exact hdone.imp_right (Or.imp_left fun hmem => Finset.mem_insert_of_mem hmem)
  · show x.memo.coveredStart = _
    rw [hmemo]
  · show x.memo.coveredEnd = _
    rw [hmemo]
  · show other ∈ x.memo.newKeys ++ [key]
    rw [hmemo]
    exact List.mem_append_left _ hmem
  · by_cases hkey : key = other
    · exact Or.inr (List.mem_append_right _ (List.mem_singleton.mpr hkey.symm))
    · have hsame : (noteKey x key).isOpen other = x.isOpen other :=
        isOpen_withScan x _ x.index other
      rw [hsame] at hopen
      exact Or.inl (hopens other hkey hopen)

/-- **Stashing keeps the rule of the memo.** -/
theorem stash (h : Covered keys m) (at' : Nat) :
    Covered keys (m.stashTransparentExternalEvent at') := by
  have hwf := h.wellFormed
  unfold stashTransparentExternalEvent
  cases hevent : m.events[at']? with
  | none => exact h
  | some event =>
    cases event
    case signalReceived name payload =>
      refine h.keep rfl rfl fun i hdone => ?_
      rw [isConsumed_iff] at hdone ⊢
      exact hdone.imp_right (Or.imp_left fun hmem => Finset.mem_insert_of_mem hmem)
    case externalSignalRequested id target name payload idempotencyKey =>
      refine h.request at' _ _ ⟨hwf.signals.pushBack _, hwf.cancels, hwf.awaits⟩ rfl rfl
        fun other hne hopen => ?_
      cases other with
      | signal other =>
        exact hwf.signals.isSome_of_pushBack (fun heq => hne (congrArg ExternalKey.signal heq)) hopen
      | cancel other => exact hopen
      | await other => exact hopen
    case externalCancelRequested id target =>
      refine h.request at' _ _ ⟨hwf.signals, hwf.cancels.pushBack _, hwf.awaits⟩ rfl rfl
        fun other hne hopen => ?_
      cases other with
      | signal other => exact hopen
      | cancel other =>
        exact hwf.cancels.isSome_of_pushBack (fun heq => hne (congrArg ExternalKey.cancel heq)) hopen
      | await other => exact hopen
    case externalAwaitRequested id target =>
      refine h.request at' _ _ ⟨hwf.signals, hwf.cancels, hwf.awaits.pushBack _⟩ rfl rfl
        fun other hne hopen => ?_
      cases other with
      | signal other => exact hopen
      | cancel other => exact hopen
      | await other =>
        exact hwf.awaits.isSome_of_pushBack (fun heq => hne (congrArg ExternalKey.await heq)) hopen
    case externalSignalDelivered id => exact h.stash_signal_terminal at' id _
    case externalSignalFailed id reasonCode => exact h.stash_signal_terminal at' id _
    case externalCancelDelivered id => exact h.stash_cancel_terminal at' id _
    case externalCancelFailed id reasonCode => exact h.stash_cancel_terminal at' id _
    case externalAwaitResolved id output => exact h.stash_await_terminal at' id _
    case externalAwaitFailed id reasonCode message errorType details nonRetryable =>
      exact h.stash_await_terminal at' id _
    all_goals exact h

/-- **A method keeps the rule of the memo.** -/
theorem touch (h : Covered keys m) (htouch : Touch m m') : Covered keys m' := by
  have hwf := h.wellFormed
  cases htouch with
  | keep hexternal hkeys hconsumed => exact h.keep hexternal hkeys hconsumed
  | stash at' => exact h.stash at'
  | scan => exact h.scanAhead.2
  | removeSignal hremoved =>
    refine h.of_opens ⟨hwf.signals.of_removeFirst hremoved, hwf.cancels, hwf.awaits⟩ rfl
      (fun _ => id) rfl rfl rfl (fun _ => id) fun key hopen => Or.inl ?_
    cases key with
    | signal other => exact hwf.signals.isSome_of_removeFirst hremoved hopen
    | cancel other => exact hopen
    | await other => exact hopen
  | removeCancel hremoved =>
    refine h.of_opens ⟨hwf.signals, hwf.cancels.of_removeFirst hremoved, hwf.awaits⟩ rfl
      (fun _ => id) rfl rfl rfl (fun _ => id) fun key hopen => Or.inl ?_
    cases key with
    | signal other => exact hopen
    | cancel other => exact hwf.cancels.isSome_of_removeFirst hremoved hopen
    | await other => exact hopen
  | removeAwait hremoved =>
    refine h.of_opens ⟨hwf.signals, hwf.cancels, hwf.awaits.of_removeFirst hremoved⟩ rfl
      (fun _ => id) rfl rfl rfl (fun _ => id) fun key hopen => Or.inl ?_
    cases key with
    | signal other => exact hopen
    | cancel other => exact hopen
    | await other => exact hwf.awaits.isSome_of_removeFirst hremoved hopen

end Covered

end Harvest.Replay
