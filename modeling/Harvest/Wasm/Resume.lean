import Mathlib.Data.List.Basic
import Mathlib.Tactic.Push
import Harvest.Lib.Run
import Harvest.Wasm.Journal

/-!
# Resuming a journaled run

A run that resumes from a journal should continue the run that wrote it. What a
journal stands for is `retrace`: the answers of a run that finds its journal empty
and gets the recorded outcome at each call.

A call over the byte budget is answered and not journaled, and a call made while
entries are left is never over the budget. The two disagree on a call that was
refused and then followed by a smaller one; `RoomForReplay` says that a step is not
such a call.

Proved here:
* `hostCall_follows`: one host call keeps to the retraced run.
* `drive_follows`: so does a whole attempt.
* `resumed_run_continues`: so does every sequence of attempts.
* `refused_call_diverges`: without `RoomForReplay` an attempt can diverge.
-/

namespace Harvest.Wasm

open Harvest.Lib

section Retrace

variable (serde : SerdeJson) (grants : List String) (g : Guest)

/-- What the host decides of a call before it looks at the journal. -/
inductive Screen
  | refuse (answer : Answer)
  | ask (name request : String)
  deriving DecidableEq

def screen (admitted : Bool) (c : GuestCall) : Screen :=
  if c.nameLen < 0 ∨ c.reqLen < 0 then .refuse hostCallInvalid
  else if c.nameLen.toNat > maxHostCallNameBytes ∨ c.reqLen.toNat > maxHostCallBytes then
    .refuse hostCallInvalid
  else if !admitted then .refuse hostCallLimit
  else
    match readCall serde c with
    | none => .refuse hostCallInvalid
    | some (name, request) => .ask name request

/-- Whether the lengths of a call are within the bounds of one call. -/
def lengthsOk (c : GuestCall) : Prop :=
  0 ≤ c.nameLen ∧ 0 ≤ c.reqLen ∧
    c.nameLen.toNat ≤ maxHostCallNameBytes ∧ c.reqLen.toNat ≤ maxHostCallBytes

/-- The byte budget has room for the call after the entries `served`. -/
def hasRoom (served : HostCallJournal) (c : GuestCall) : Prop :=
  journalByteSize served + reserve c.nameLen.toNat c.reqLen.toNat ≤ maxJournalBytes

instance (served : HostCallJournal) (c : GuestCall) : Decidable (hasRoom served c) :=
  inferInstanceAs (Decidable (_ ≤ _))

/-- The budgets of a live run that has journaled `served`. -/
def liveAdmits (served : HostCallJournal) (c : GuestCall) : Bool :=
  served.length < maxHostCalls && hasRoom served c

theorem liveAdmits_iff (served : HostCallJournal) (c : GuestCall) :
    liveAdmits served c = true ↔ served.length < maxHostCalls ∧ hasRoom served c := by
  simp [liveAdmits]

/-- One step of the run that a journal stands for: the answers so far, and how many
entries they took. -/
def retraceStep (journal : HostCallJournal) (pos : List Answer × Nat) :
    Option (List Answer × Nat) :=
  match g.next pos.1 with
  | .done _ => none
  | .call c =>
    match screen serde (liveAdmits (journal.take pos.2) c) c with
    | .refuse answer => some (pos.1 ++ [answer], pos.2)
    | .ask name request =>
      match journal[pos.2]? with
      | none => none
      | some entry =>
        if entry.name = name ∧ entry.request = request then
          some (pos.1 ++ [answerOf serde entry.outcome], pos.2 + 1)
        else none

def retrace (journal : HostCallJournal) : Nat → Option (List Answer × Nat)
  | 0 => some ([], 0)
  | n + 1 => (retrace journal n).bind (retraceStep serde g journal)

/-- A call made while recorded entries are left is one that the byte budget admits after
the entries before it. -/
def RoomForReplay (s : Session) (c : GuestCall) : Prop :=
  s.cursor < s.entries.length → lengthsOk c → hasRoom (s.entries.take s.cursor) c

/-- The host calls of an attempt, each with the session it finds. -/
def callsMade (a : Attempt) : Nat → Session → List Answer → List (Session × GuestCall)
  | 0, _, _ => []
  | n + 1, s, answers =>
    match g.next answers with
    | .done _ => []
    | .call c =>
      (s, c) ::
        match hostCall serde grants a s c with
        | (s, some answer) => callsMade a n s (answers ++ [answer])
        | (_, none) => []

end Retrace

/-! ## Retraced runs -/

section Retracing

variable {serde : SerdeJson} {g : Guest} {journal : HostCallJournal}
variable {answers : List Answer} {k n m : Nat}

theorem retrace_succ_eq_some {p : List Answer × Nat} (h : retrace serde g journal (n + 1) = some p) :
    ∃ q, retrace serde g journal n = some q ∧ retraceStep serde g journal q = some p :=
  Option.bind_eq_some_iff.mp h

/-- What a step does: it refuses the call, or serves the next entry. -/
theorem retraceStep_eq_some {p q : List Answer × Nat} :
    retraceStep serde g journal q = some p ↔
      ∃ c, g.next q.1 = .call c ∧
        ((∃ answer, screen serde (liveAdmits (journal.take q.2) c) c = .refuse answer ∧
            p = (q.1 ++ [answer], q.2)) ∨
          ∃ entry, screen serde (liveAdmits (journal.take q.2) c) c =
              .ask entry.name entry.request ∧ journal[q.2]? = some entry ∧
            p = (q.1 ++ [answerOf serde entry.outcome], q.2 + 1)) := by
  unfold retraceStep
  cases hnext : g.next q.1 with
  | done result => simp
  | call c =>
    cases hscreen : screen serde (liveAdmits (journal.take q.2) c) c with
    | refuse answer => simp [hscreen, eq_comm]
    | ask name request =>
      cases hget : journal[q.2]? with
      | none => simp [hscreen]
      | some entry =>
        by_cases hsame : entry.name = name ∧ entry.request = request
        · obtain ⟨rfl, rfl⟩ := hsame
          simp [hscreen, eq_comm]
        · simp only [hscreen, hsame, if_false]
          constructor
          · intro h
            cases h
          · rintro ⟨c', hc', ⟨answer, ha, -⟩ | ⟨entry', ha, he, -⟩⟩
            · cases hc'
              rw [hscreen] at ha
              cases ha
            · cases hc'
              cases he
              rw [hscreen] at ha
              injection ha with h1 h2
              exact absurd ⟨h1.symm, h2.symm⟩ hsame

theorem retraceStep_cursor {p q : List Answer × Nat} (h : retraceStep serde g journal q = some p) :
    p.2 = q.2 ∨ (p.2 = q.2 + 1 ∧ q.2 < journal.length) := by
  obtain ⟨c, -, ⟨answer, -, rfl⟩ | ⟨entry, -, hget, rfl⟩⟩ := retraceStep_eq_some.mp h
  · exact .inl rfl
  · exact .inr ⟨rfl, (List.getElem?_eq_some_iff.mp hget).1⟩

theorem retrace_cursor_le {p : List Answer × Nat} (h : retrace serde g journal n = some p) :
    p.2 ≤ journal.length := by
  induction n generalizing p with
  | zero =>
    injection h with h
    subst h
    exact Nat.zero_le _
  | succ n ih =>
    obtain ⟨q, hq, hstep⟩ := retrace_succ_eq_some h
    have hle := ih hq
    rcases retraceStep_cursor hstep with hp | ⟨hp, hlt⟩ <;> omega

theorem retrace_of_le {p : List Answer × Nat} (h : retrace serde g journal m = some p)
    (hnm : n ≤ m) : ∃ q, retrace serde g journal n = some q ∧ q.2 ≤ p.2 := by
  induction m generalizing p with
  | zero =>
    obtain rfl : n = 0 := by omega
    exact ⟨p, h, Nat.le_refl _⟩
  | succ m ih =>
    rcases Nat.lt_or_eq_of_le hnm with hlt | rfl
    · obtain ⟨r, hr, hstep⟩ := retrace_succ_eq_some h
      obtain ⟨q, hq, hle⟩ := ih hr (by omega)
      refine ⟨q, hq, ?_⟩
      rcases retraceStep_cursor hstep with hp | ⟨hp, -⟩ <;> omega
    · exact ⟨p, h, Nat.le_refl _⟩

/-- A run that is behind another run of the same journal has a next step. -/
theorem retraceStep_of_behind {p q : List Answer × Nat}
    (hq : retrace serde g journal n = some q) (hp : retrace serde g journal m = some p)
    (hlt : q.2 < p.2) : ∃ r, retraceStep serde g journal q = some r := by
  have hnm : n < m := by
    by_contra hle
    obtain ⟨p', hp', hback⟩ := retrace_of_le hq (Nat.le_of_not_lt hle)
    rw [hp] at hp'
    injection hp' with hp'
    subst hp'
    omega
  obtain ⟨r, hr, -⟩ := retrace_of_le hp (Nat.succ_le_of_lt hnm)
  obtain ⟨q', hq', hstep⟩ := retrace_succ_eq_some hr
  rw [hq] at hq'
  injection hq' with hq'
  subst hq'
  exact ⟨r, hstep⟩

/-- Entries appended later do not change a step. -/
theorem retraceStep_append (more : HostCallJournal) {p q : List Answer × Nat}
    (h : retraceStep serde g journal q = some p) (hle : q.2 ≤ journal.length) :
    retraceStep serde g (journal ++ more) q = some p := by
  have htake : (journal ++ more).take q.2 = journal.take q.2 := List.take_append_of_le_length hle
  rw [retraceStep_eq_some] at h ⊢
  rw [htake]
  obtain ⟨c, hc, hrefuse | ⟨entry, hscreen, hget, hp⟩⟩ := h
  · exact ⟨c, hc, .inl hrefuse⟩
  · obtain ⟨hlt, -⟩ := List.getElem?_eq_some_iff.mp hget
    refine ⟨c, hc, .inr ⟨entry, hscreen, ?_, hp⟩⟩
    rw [List.getElem?_append_left hlt, hget]

theorem retrace_append (more : HostCallJournal) {p : List Answer × Nat}
    (h : retrace serde g journal n = some p) :
    retrace serde g (journal ++ more) n = some p := by
  induction n generalizing p with
  | zero => exact h
  | succ n ih =>
    obtain ⟨q, hq, hstep⟩ := retrace_succ_eq_some h
    simp only [retrace, ih hq, Option.bind_some]
    exact retraceStep_append more hstep (retrace_cursor_le hq)

end Retracing

/-! ## What a live run writes -/

section Written

variable (serde : SerdeJson) (grants : List String) (g : Guest)

/-- What a live run can write: within the budgets, numbered in order, and each outcome one
that a live call ends with. -/
structure Written (journal : HostCallJournal) : Prop where
  calls : journal.length ≤ maxHostCalls
  bytes : journalByteSize journal ≤ maxJournalBytes
  entry : ∀ i e, journal[i]? = some e → e.seq = i ∧ entryFits serde e = true ∧
    ∃ a, liveOutcome serde grants a i e.name e.request = .ok e.outcome

/-- A journal that a run of the guest wrote, and so can resume from. -/
structure Resumable (journal : HostCallJournal) : Prop where
  written : Written serde grants journal
  whole : ∃ m answers, retrace serde g journal m = some (answers, journal.length)
  granted : journal ≠ [] → grants ≠ []

variable {serde grants g}

theorem written_nil : Written serde grants [] where
  calls := by simp
  bytes := by decide
  entry := by simp

theorem resumable_nil : Resumable serde grants g [] where
  written := written_nil
  whole := ⟨0, [], rfl⟩
  granted := fun h => absurd rfl h

theorem Written.sound {journal : HostCallJournal} (h : Written serde grants journal) :
    Sound serde journal where
  calls := h.calls
  bytes := h.bytes
  entry := fun i e he => ⟨(h.entry i e he).1, (h.entry i e he).2.1⟩

theorem Written.concat {journal : HostCallJournal} (h : Written serde grants journal)
    {e : HostCallEntry} (hseq : e.seq = journal.length) (hfits : entryFits serde e = true)
    (hout : ∃ a, liveOutcome serde grants a e.seq e.name e.request = .ok e.outcome)
    (hcalls : journal.length < maxHostCalls)
    (hbytes : journalByteSize journal +
      reserve e.name.utf8ByteSize e.request.utf8ByteSize ≤ maxJournalBytes) :
    Written serde grants (journal ++ [e]) where
  calls := (h.sound.concat hseq hfits hcalls hbytes).calls
  bytes := (h.sound.concat hseq hfits hcalls hbytes).bytes
  entry := by
    intro i x hx
    obtain hx | ⟨rfl, rfl⟩ := getElem?_concat_eq_some.mp hx
    · exact h.entry i x hx
    · exact ⟨hseq, hfits, hseq ▸ hout⟩

/-- **A live run writes only journals that pass the check** of the next attempt. -/
theorem journalDefect_of_written {journal : HostCallJournal} (h : Written serde grants journal) :
    journalDefect serde journal = none := journalDefect_eq_none_iff.mpr h.sound

end Written

/-! ## One host call -/

section Step

variable {serde : SerdeJson} {grants : List String} {g : Guest} {a : Attempt}

theorem hostCall_eq (s : Session) (c : GuestCall) :
    hostCall serde grants a s c =
      match screen serde (s.admits c.nameLen.toNat c.reqLen.toNat) c with
      | .refuse answer => (s, some answer)
      | .ask name request =>
        match nextOutcome serde grants a s name request with
        | (s, .ok outcome) => (s, some (answerOf serde outcome))
        | (s, .error failure) => (s.aborted failure, none) := by
  unfold hostCall screen
  split
  · rfl
  · split
    · rfl
    · split
      · rfl
      · cases readCall serde c <;> rfl

/-- What a call that is let through looks like. -/
theorem screen_eq_ask {admitted : Bool} {c : GuestCall} {name request : String}
    (h : screen serde admitted c = .ask name request) :
    admitted = true ∧ lengthsOk c ∧ serde.isJson request = true ∧
      name.utf8ByteSize = c.nameLen.toNat ∧ request.utf8ByteSize = c.reqLen.toNat := by
  unfold screen at h
  split at h
  · cases h
  · next hneg =>
    split at h
    · cases h
    · next hlong =>
      split at h
      · cases h
      · next hadmitted =>
        cases hread : readCall serde c with
        | none => simp [hread] at h
        | some p =>
          obtain ⟨n, r⟩ := p
          simp only [hread] at h
          injection h with hn hr
          subst hn hr
          obtain ⟨htext, hjson⟩ := Option.filter_eq_some_iff.mp hread
          obtain ⟨hname, hreq⟩ := c.text_len n r htext
          have hlengths : lengthsOk c := by
            unfold lengthsOk
            omega
          exact ⟨by simpa using hadmitted, hlengths, hjson, by omega, by omega⟩

/-- Only a call with lengths in bounds looks at the budgets. -/
theorem screen_congr {x y : Bool} {c : GuestCall} (h : lengthsOk c → x = y) :
    screen serde x c = screen serde y c := by
  by_cases hok : lengthsOk c
  · rw [h hok]
  · unfold screen
    unfold lengthsOk at hok
    split
    · rfl
    · split
      · rfl
      · omega

@[simp] theorem afterHandler_entries (s : Session) (seq : Nat) (name request : String) :
    (afterHandler serde grants a s seq name request).entries = s.entries := by
  unfold afterHandler
  split <;> rfl

@[simp] theorem afterHandler_bytes (s : Session) (seq : Nat) (name request : String) :
    (afterHandler serde grants a s seq name request).bytes = s.bytes := by
  unfold afterHandler
  split <;> rfl

@[simp] theorem afterHandler_cursor (s : Session) (seq : Nat) (name request : String) :
    (afterHandler serde grants a s seq name request).cursor = s.cursor := by
  unfold afterHandler
  split <;> rfl

@[simp] theorem afterHandler_abort (s : Session) (seq : Nat) (name request : String) :
    (afterHandler serde grants a s seq name request).abort = s.abort := by
  unfold afterHandler
  split <;> rfl

/-- With no entry left the call runs live. -/
theorem nextOutcome_live {s : Session} (hcursor : s.cursor < 2 ^ 32)
    (hend : s.cursor = s.entries.length) (name request : String) :
    nextOutcome serde grants a s name request =
      match liveOutcome serde grants a s.cursor name request with
      | .error failure => (afterHandler serde grants a s s.cursor name request, .error failure)
      | .ok outcome =>
        ((afterHandler serde grants a s s.cursor name request).record
          ⟨s.cursor, name, request, outcome⟩, .ok outcome) := by
  have hnot : ¬ s.cursor ≥ 2 ^ 32 := Nat.not_le.mpr hcursor
  have hget : s.entries[s.cursor]? = none := List.getElem?_eq_none (by omega)
  have hlive : s.next grants name request = (s, .live s.cursor) := by
    simp only [Session.next, hnot, hget, if_false]
  cases hout : liveOutcome serde grants a s.cursor name request <;>
    simp only [nextOutcome, hlive, hout]

/-- A journal with the entry of the run's next live call. -/
theorem Resumable.concat {journal : HostCallJournal} (h : Resumable serde grants g journal)
    {j : Nat} {answers : List Answer} {c : GuestCall} {name request : String}
    {outcome : HostCallOutcome}
    (hhere : retrace serde g journal j = some (answers, journal.length))
    (hnext : g.next answers = .call c)
    (hscreen : screen serde (liveAdmits journal c) c = .ask name request)
    (hlive : liveOutcome serde grants a journal.length name request = .ok outcome)
    (hgrants : grants ≠ []) :
    Resumable serde grants g (journal ++ [⟨journal.length, name, request, outcome⟩]) ∧
      retrace serde g (journal ++ [⟨journal.length, name, request, outcome⟩]) (j + 1) =
        some (answers ++ [answerOf serde outcome], journal.length + 1) := by
  obtain ⟨hadmitted, hlengths, hjson, hname, hrequest⟩ := screen_eq_ask hscreen
  obtain ⟨hcalls, hroom⟩ := (liveAdmits_iff _ _).mp hadmitted
  obtain ⟨-, -, hnameLen, hreqLen⟩ := hlengths
  generalize hentry : (⟨journal.length, name, request, outcome⟩ : HostCallEntry) = entry
  have hstep : retrace serde g (journal ++ [entry]) (j + 1) =
      some (answers ++ [answerOf serde outcome], journal.length + 1) := by
    simp only [retrace, retrace_append [entry] hhere, Option.bind_some]
    refine retraceStep_eq_some.mpr ⟨c, hnext, .inr ⟨entry, ?_, by simp, ?_⟩⟩
    · simpa [← hentry] using hscreen
    · rw [← hentry]
  refine ⟨⟨?_, ⟨j + 1, answers ++ [answerOf serde outcome], by simpa using hstep⟩,
    fun _ => hgrants⟩, hstep⟩
  have hfits : entryFits serde entry = true := by
    subst hentry
    simp only [entryFits, Bool.and_eq_true, decide_eq_true_eq]
    exact ⟨⟨⟨by omega, by omega⟩, hjson⟩, (liveOutcome_eq_ok hlive).1⟩
  refine h.written.concat ?_ hfits ⟨a, ?_⟩ hcalls ?_
  · rw [← hentry]
  · subst hentry
    exact hlive
  · subst hentry
    rw [hname, hrequest]
    exact hroom

variable (serde grants g) in
/-- An attempt on the journal `prior` that has got `answers` after `j` steps keeps to the
run its journal stands for. Only the entries of `prior` are ever ahead of it. -/
structure Follows (prior : HostCallJournal) (j : Nat) (s : Session) (answers : List Answer) :
    Prop where
  resumable : Resumable serde grants g s.entries
  here : retrace serde g s.entries j = some (answers, s.cursor)
  bytes : s.bytes = journalByteSize s.entries
  extends_prior : prior <+: s.entries
  replaying : s.cursor < s.entries.length → s.entries = prior
  handled : ∀ i ∈ s.handled, prior.length ≤ i ∧ i < s.cursor
  handled_once : s.handled.Nodup
  abort : s.abort = none
  linked : g.importsHostCall = true → grants ≠ []

variable (serde grants g) in
/-- An attempt on `prior` that a host call stopped. -/
structure Stopped (prior : HostCallJournal) (s : Session) : Prop where
  resumable : Resumable serde grants g s.entries
  extends_prior : prior <+: s.entries
  handled : ∀ i ∈ s.handled, prior.length ≤ i
  handled_once : s.handled.Nodup
  abort : ∃ failure, s.abort = some failure ∧ failure.diverged = false

section Invariant

variable {prior : HostCallJournal} {j : Nat} {s : Session} {answers : List Answer} {c : GuestCall}

theorem Follows.cursor_le (h : Follows serde grants g prior j s answers) :
    s.cursor ≤ s.entries.length :=
  retrace_cursor_le h.here

/-- With room for the call, the session screens it as the retraced run does. -/
theorem Follows.screen_eq (h : Follows serde grants g prior j s answers)
    (hroom : RoomForReplay s c) :
    screen serde (s.admits c.nameLen.toNat c.reqLen.toNat) c =
      screen serde (liveAdmits (s.entries.take s.cursor) c) c := by
  apply screen_congr
  intro hok
  have hle := h.cursor_le
  have hlen : (s.entries.take s.cursor).length = s.cursor := by
    rw [List.length_take]
    omega
  rw [Bool.eq_iff_iff, Session.admits_iff, liveAdmits_iff, hlen]
  rcases Nat.lt_or_eq_of_le hle with hlt | heq
  · -- entries are left: the session admits by position alone
    exact and_congr_right fun _ => ⟨fun _ => hroom hlt hok, fun _ => .inl hlt⟩
  · have htake : s.entries.take s.cursor = s.entries := by
      rw [heq]
      exact List.take_length
    have hnot : ¬ s.cursor < s.entries.length := by omega
    rw [htake, h.bytes]
    exact and_congr_right fun _ => or_iff_right hnot

theorem Follows.cursor_lt (h : Follows serde grants g prior j s answers) :
    s.cursor < 2 ^ 32 := by
  have hle := h.cursor_le
  have hcalls := h.resumable.written.calls
  have hmax : maxHostCalls < 2 ^ 32 := by decide
  omega

/-- A refused call changes nothing. -/
theorem Follows.refuse (h : Follows serde grants g prior j s answers)
    (hnext : g.next answers = .call c) {answer : Answer}
    (hscreen : screen serde (liveAdmits (s.entries.take s.cursor) c) c = .refuse answer) :
    Follows serde grants g prior (j + 1) s (answers ++ [answer]) := by
  refine { h with here := ?_ }
  simp only [retrace, h.here, Option.bind_some]
  exact retraceStep_eq_some.mpr ⟨c, hnext, .inl ⟨answer, hscreen, rfl⟩⟩

/-- While entries are left, the next one is the call's own. -/
theorem Follows.entry (h : Follows serde grants g prior j s answers)
    (hnext : g.next answers = .call c) {name request : String}
    (hscreen : screen serde (liveAdmits (s.entries.take s.cursor) c) c = .ask name request)
    (hlt : s.cursor < s.entries.length) :
    ∃ entry, s.entries[s.cursor]? = some entry ∧ entry.name = name ∧ entry.request = request ∧
      (entry.outcome = .denied ∨ name ∈ grants) ∧
      retrace serde g s.entries (j + 1) =
        some (answers ++ [answerOf serde entry.outcome], s.cursor + 1) := by
  obtain ⟨m, last, hlast⟩ := h.resumable.whole
  obtain ⟨r, hr⟩ := retraceStep_of_behind h.here hlast hlt
  obtain ⟨c', hc', ⟨answer, hrefuse, -⟩ | ⟨entry, hask, hget, rfl⟩⟩ := retraceStep_eq_some.mp hr
  · rw [hnext] at hc'
    cases hc'
    rw [hscreen] at hrefuse
    cases hrefuse
  · rw [hnext] at hc'
    cases hc'
    rw [hscreen] at hask
    injection hask with hname hrequest
    obtain ⟨-, -, a', hout⟩ := h.resumable.written.entry _ _ hget
    have hdenied := (liveOutcome_eq_ok hout).2
    refine ⟨entry, hget, hname.symm, hrequest.symm, ?_, ?_⟩
    · by_cases hg : name ∈ grants
      · exact .inr hg
      · exact .inl (hdenied.mpr (hname ▸ hg))
    · simp only [retrace, h.here, Option.bind_some]
      exact hr

/-- A replayed call is answered from the journal. -/
theorem Follows.replay (h : Follows serde grants g prior j s answers)
    (hnext : g.next answers = .call c) {name request : String}
    (hscreen : screen serde (liveAdmits (s.entries.take s.cursor) c) c = .ask name request)
    (hlt : s.cursor < s.entries.length) :
    ∃ outcome, nextOutcome serde grants a s name request = (s.serve, .ok outcome) ∧
      Follows serde grants g prior (j + 1) s.serve (answers ++ [answerOf serde outcome]) := by
  obtain ⟨entry, hget, rfl, rfl, hgrant, hhere⟩ := h.entry hnext hscreen hlt
  refine ⟨entry.outcome, ?_, ?_⟩
  · have hcursor : ¬ s.cursor ≥ 2 ^ 32 := Nat.not_le.mpr h.cursor_lt
    have hkept : ¬ (entry.outcome ≠ .denied ∧ entry.name ∉ grants) := by tauto
    simp only [nextOutcome, Session.next, hcursor, hget, hkept, ne_eq, not_true_eq_false, or_self,
      if_false]
  · exact {
      resumable := h.resumable
      here := hhere
      bytes := h.bytes
      extends_prior := h.extends_prior
      replaying := fun _ => h.replaying hlt
      handled := fun i hi => ⟨(h.handled i hi).1, Nat.lt_succ_of_lt (h.handled i hi).2⟩
      handled_once := h.handled_once
      abort := h.abort
      linked := h.linked }

/-- A handler runs for the call at the cursor, and no entry of the prior journal is left. -/
theorem Follows.handler (h : Follows serde grants g prior j s answers)
    (heq : s.cursor = s.entries.length) {n r : String} :
    (∀ i ∈ (afterHandler serde grants a s s.cursor n r).handled,
        prior.length ≤ i ∧ i ≤ s.cursor) ∧
      (afterHandler serde grants a s s.cursor n r).handled.Nodup := by
  have hprior := h.extends_prior.length_le
  have hold : ∀ i ∈ s.handled, prior.length ≤ i ∧ i ≤ s.cursor :=
    fun i hi => ⟨(h.handled i hi).1, (h.handled i hi).2.le⟩
  unfold afterHandler
  split
  · constructor
    · intro i hi
      rcases List.mem_append.mp hi with hi | hi
      · exact hold i hi
      · obtain rfl := List.mem_singleton.mp hi
        exact ⟨by omega, Nat.le_refl _⟩
    · have hnew : s.cursor ∉ s.handled := fun hmem => Nat.lt_irrefl _ (h.handled _ hmem).2
      simpa [Session.noteHandler, List.nodup_append, h.handled_once] using
        fun i hi (heq : i = s.cursor) => hnew (heq ▸ hi)
  · exact ⟨hold, h.handled_once⟩

/-- A live call with an outcome journals it. -/
theorem Follows.journaled (h : Follows serde grants g prior j s answers)
    (hnext : g.next answers = .call c) {name request : String}
    (hscreen : screen serde (liveAdmits (s.entries.take s.cursor) c) c = .ask name request)
    (heq : s.cursor = s.entries.length) {outcome : HostCallOutcome}
    (hlive : liveOutcome serde grants a s.cursor name request = .ok outcome) :
    Follows serde grants g prior (j + 1)
      ((afterHandler serde grants a s s.cursor name request).record
        ⟨s.cursor, name, request, outcome⟩)
      (answers ++ [answerOf serde outcome]) := by
  have htake : s.entries.take s.cursor = s.entries := by
    rw [heq]
    exact List.take_length
  obtain ⟨hhandled, honce⟩ := h.handler (a := a) (n := name) (r := request) heq
  have hstep := h.resumable.concat (heq ▸ h.here) hnext (htake ▸ hscreen) (heq ▸ hlive)
    (h.linked (g.calls_import _ _ hnext))
  exact {
    resumable := by simpa [heq] using hstep.1
    here := by simpa [heq] using hstep.2
    bytes := by simp [h.bytes, journalByteSize_concat]
    extends_prior := by simpa using h.extends_prior.trans (List.prefix_append _ _)
    replaying := by simp [heq]
    handled := by simpa [Nat.lt_succ_iff] using hhandled
    handled_once := by simpa using honce
    abort := by simpa using h.abort
    linked := h.linked }

/-- A live call without an outcome stops the run and journals nothing. -/
theorem Follows.stopped (h : Follows serde grants g prior j s answers) {name request : String}
    (heq : s.cursor = s.entries.length) {failure : ActivityFailure}
    (hlive : liveOutcome serde grants a s.cursor name request = .error failure) :
    Stopped serde grants g prior
      ((afterHandler serde grants a s s.cursor name request).aborted failure) := by
  obtain ⟨hhandled, honce⟩ := h.handler (a := a) (n := name) (r := request) heq
  exact {
    resumable := by simpa using h.resumable
    extends_prior := by simpa using h.extends_prior
    handled := fun i hi => (hhandled i hi).1
    handled_once := honce
    abort := ⟨failure, rfl, liveOutcome_eq_error hlive⟩ }

/-- **One host call keeps to the retraced run**, or stops with an error of its own. -/
theorem hostCall_follows (h : Follows serde grants g prior j s answers)
    (hnext : g.next answers = .call c) (hroom : RoomForReplay s c) :
    (∃ s' answer, hostCall serde grants a s c = (s', some answer) ∧
        Follows serde grants g prior (j + 1) s' (answers ++ [answer])) ∨
      ∃ s', hostCall serde grants a s c = (s', none) ∧ Stopped serde grants g prior s' := by
  rw [hostCall_eq, h.screen_eq hroom]
  cases hscreen : screen serde (liveAdmits (s.entries.take s.cursor) c) c with
  | refuse answer => exact .inl ⟨s, answer, rfl, h.refuse hnext hscreen⟩
  | ask name request =>
    rcases Nat.lt_or_eq_of_le h.cursor_le with hlt | heq
    · obtain ⟨outcome, hout, hf⟩ := h.replay (a := a) hnext hscreen hlt
      exact .inl ⟨_, _, by simp only [hout], hf⟩
    · simp only [nextOutcome_live h.cursor_lt heq]
      cases hlive : liveOutcome serde grants a s.cursor name request with
      | ok outcome => exact .inl ⟨_, _, rfl, h.journaled hnext hscreen heq hlive⟩
      | error failure => exact .inr ⟨_, rfl, h.stopped heq hlive⟩

end Invariant
end Step

/-! ## One attempt -/

section Attempt

variable {serde : SerdeJson} {grants : List String} {g : Guest} {a : Attempt}
variable {prior : HostCallJournal}

variable (serde grants g) in
/-- How an attempt on `prior` of fewer than `bound` steps ends. -/
structure Ended (prior : HostCallJournal) (bound : Nat) (s : Session)
    (result : Except SandboxFailure Json) : Prop where
  resumable : Resumable serde grants g s.entries
  extends_prior : prior <+: s.entries
  handled : ∀ i ∈ s.handled, prior.length ≤ i
  handled_once : s.handled.Nodup
  abort : ∀ failure, s.abort = some failure → failure.diverged = false
  finished : s.abort = none → ∀ output, result = .ok output →
    s.cursor = s.entries.length ∧ ∃ j answers, j < bound ∧
      retrace serde g s.entries j = some (answers, s.entries.length) ∧
      g.next answers = .done (.ok output)

theorem Follows.ended {j bound : Nat} {s : Session} {answers : List Answer}
    {result : Except SandboxFailure Json} (h : Follows serde grants g prior j s answers)
    (hresult : ∀ output, result = .ok output → j < bound ∧ g.next answers = .done (.ok output)) :
    Ended serde grants g prior bound s result where
  resumable := h.resumable
  extends_prior := h.extends_prior
  handled := fun i hi => (h.handled i hi).1
  handled_once := h.handled_once
  abort := by simp [h.abort]
  finished := by
    intro _ output hok
    obtain ⟨hj, hdone⟩ := hresult output hok
    -- a run that has ended has served its whole journal
    have hend : s.cursor = s.entries.length := by
      by_contra hne
      have hle := h.cursor_le
      obtain ⟨m, last, hlast⟩ := h.resumable.whole
      obtain ⟨r, hr⟩ := retraceStep_of_behind h.here hlast (by simp only; omega)
      obtain ⟨c, hc, -⟩ := retraceStep_eq_some.mp hr
      rw [hdone] at hc
      cases hc
    exact ⟨hend, j, answers, hj, hend ▸ h.here, hdone⟩

/-- **An attempt keeps to the retraced run.** -/
theorem drive_follows {n j : Nat} {s : Session} {answers : List Answer}
    (h : Follows serde grants g prior j s answers)
    (hroom : ∀ p ∈ callsMade serde grants g a n s answers, RoomForReplay p.1 p.2) :
    Ended serde grants g prior (j + n) (drive serde grants g a n s answers).1
      (drive serde grants g a n s answers).2 := by
  induction n generalizing j s answers with
  | zero => exact h.ended (by simp [drive])
  | succ n ih =>
    cases hnext : g.next answers with
    | done result =>
      simp only [drive, hnext]
      refine h.ended fun output hok => ⟨by omega, ?_⟩
      rw [← hok]
      exact hnext
    | call c =>
      simp only [callsMade, hnext, List.mem_cons, forall_eq_or_imp] at hroom
      rcases hostCall_follows (a := a) h hnext hroom.1 with
        ⟨s', answer, hcall, hf⟩ | ⟨s', hcall, hstop⟩
      · simp only [drive, hnext, hcall]
        have hrest := ih hf (by simpa only [hcall] using hroom.2)
        rwa [Nat.add_right_comm] at hrest
      · simp only [drive, hnext, hcall]
        obtain ⟨failure, habort, hkind⟩ := hstop.abort
        exact {
          resumable := hstop.resumable
          extends_prior := hstop.extends_prior
          handled := hstop.handled
          handled_once := hstop.handled_once
          abort := by
            intro f hf
            rw [habort] at hf
            cases hf
            exact hkind
          finished := by simp [habort] }

theorem follows_start (h : Resumable serde grants g prior)
    (hlinked : g.importsHostCall = true → grants ≠ []) :
    Follows serde grants g prior 0 (Session.start prior) [] where
  resumable := h
  here := rfl
  bytes := rfl
  extends_prior := List.prefix_refl _
  replaying := fun _ => rfl
  handled := by simp [Session.start]
  handled_once := List.nodup_nil
  abort := rfl
  linked := hlinked

variable (serde grants g) in
/-- Every host call of the attempt has room for its replay. -/
def RoomThroughout (a : Attempt) (prior : HostCallJournal) : Prop :=
  ∀ p ∈ callsMade serde grants g a a.steps (Session.start prior) [], RoomForReplay p.1 p.2

/-- An attempt either is denied its import, or ends as `Ended` says. -/
theorem runGuest_ended (h : Resumable serde grants g prior)
    (hroom : RoomThroughout serde grants g a prior) :
    Ended serde grants g prior a.steps (runGuest serde grants g a prior).1
      (runGuest serde grants g a prior).2 ∧
      (∀ output, (runGuest serde grants g a prior).2 = .ok output →
        g.importsHostCall = true → grants ≠ []) := by
  unfold runGuest
  split
  · refine ⟨⟨h, List.prefix_refl _, by simp [Session.start], List.nodup_nil,
      by simp [Session.start], by simp⟩, ?_⟩
    simp
  · next hlink =>
    have hlinked : g.importsHostCall = true → grants ≠ [] := by
      intro himport hempty
      by_cases hprior : prior = []
      · simp [hempty, hprior, himport] at hlink
      · exact h.granted hprior hempty
    refine ⟨?_, fun _ _ => hlinked⟩
    have hend := drive_follows (follows_start h hlinked) hroom
    rwa [Nat.zero_add] at hend

end Attempt

/-! ## The uninterrupted run -/

section Whole

variable {serde : SerdeJson} {grants : List String} {g : Guest} {whole : Attempt}
variable {journal : HostCallJournal}

variable (serde grants) in
/-- An attempt of at least `steps` steps that nothing cancels, and whose handlers give the
answers that the journal records. -/
structure Uninterrupted (whole : Attempt) (steps : Nat) (journal : HostCallJournal) : Prop where
  not_cancelled : ∀ i, whole.cancelled i = false
  steps_le : steps ≤ whole.steps
  recorded : ∀ i e, journal[i]? = some e →
    liveOutcome serde grants whole i e.name e.request = .ok e.outcome

/-- A live call that gets an outcome gets it again from the same handler. -/
theorem liveOutcome_congr {a b : Attempt} {seq : Nat} {name request : String}
    {outcome : HostCallOutcome} (h : liveOutcome serde grants a seq name request = .ok outcome)
    (hcancel : b.cancelled seq = false) (hhandle : b.handle seq = a.handle seq) :
    liveOutcome serde grants b seq name request = .ok outcome := by
  unfold liveOutcome at h ⊢
  split at h
  · next hname => rwa [if_pos hname]
  · next hname =>
    split at h
    · cases h
    · simp only [hname, hcancel, if_false, hhandle, Bool.false_eq_true]
      exact h

/-- What a live run wrote can be given again by one run that nothing stops. -/
theorem exists_uninterrupted (h : Written serde grants journal) (steps : Nat)
    (stop : SandboxFailure) : ∃ whole, Uninterrupted serde grants whole steps journal := by
  have hentry : ∀ i, ∃ a : Attempt, ∀ e, journal[i]? = some e →
      liveOutcome serde grants a i e.name e.request = .ok e.outcome := by
    intro i
    cases hget : journal[i]? with
    | none => exact ⟨⟨fun _ _ v => .ok v, fun _ => false, 0, stop⟩, by simp⟩
    | some e =>
      obtain ⟨-, -, a, ha⟩ := h.entry i e hget
      refine ⟨a, fun x hx => ?_⟩
      cases hx
      exact ha
  choose pick hpick using hentry
  refine ⟨⟨fun i => (pick i).handle i, fun _ => false, steps, stop⟩, fun _ => rfl,
    Nat.le_refl _, fun i e he => ?_⟩
  exact liveOutcome_congr (hpick i e he) rfl rfl

/-- One host call of the uninterrupted run takes the retraced step. -/
theorem hostCall_whole {steps : Nat} (hw : Uninterrupted serde grants whole steps journal)
    (hwritten : Written serde grants journal) {j : Nat} {s : Session} {answers : List Answer}
    (hf : Follows serde grants g [] j s answers) (hpre : s.entries <+: journal)
    (hend : s.cursor = s.entries.length) {r : List Answer × Nat}
    (hr : retraceStep serde g journal (answers, s.cursor) = some r) :
    ∃ c s' answer, g.next answers = .call c ∧
      hostCall serde grants whole s c = (s', some answer) ∧ r = (answers ++ [answer], s'.cursor) ∧
      Follows serde grants g [] (j + 1) s' r.1 ∧ s'.entries <+: journal ∧
      s'.cursor = s'.entries.length := by
  obtain ⟨c, hnext, hcase⟩ := retraceStep_eq_some.mp hr
  simp only at hnext hcase
  have htake : journal.take s.cursor = s.entries := by
    rw [hend]
    exact (List.prefix_iff_eq_take.mp hpre).symm
  have htake' : s.entries.take s.cursor = s.entries := by
    rw [hend]
    exact List.take_length
  have hroom : RoomForReplay s c := fun hlt => absurd hlt (by omega)
  have hscreen := hf.screen_eq hroom
  rw [htake] at hcase
  rw [htake'] at hscreen
  rcases hcase with ⟨answer, hrefuse, rfl⟩ | ⟨entry, hask, hget, rfl⟩
  · refine ⟨c, s, answer, hnext, ?_, rfl, ?_, hpre, hend⟩
    · rw [hostCall_eq, hscreen, hrefuse]
    · exact hf.refuse hnext (by rw [htake', hrefuse])
  · obtain ⟨hseq, -, -⟩ := hwritten.entry _ _ hget
    have hlive := hw.recorded _ _ hget
    have hentry : (⟨s.cursor, entry.name, entry.request, entry.outcome⟩ : HostCallEntry) = entry := by
      rw [← hseq]
    have hfollows := hf.journaled hnext (by rw [htake', hask]) hend hlive
    rw [hentry] at hfollows
    refine ⟨c, _, answerOf serde entry.outcome, hnext, ?_, ?_, hfollows, ?_, ?_⟩
    · rw [hostCall_eq, hscreen, hask]
      simp only [nextOutcome_live hf.cursor_lt hend, hlive, hentry]
    · simp
    · have hnextTake : journal.take (s.cursor + 1) = s.entries ++ [entry] := by
        rw [List.take_add_one, htake, hget]
        rfl
      simp only [Session.record_entries, afterHandler_entries, ← hnextTake]
      exact List.take_prefix _ _
    · simp [hend]

/-- The uninterrupted run makes the retraced run to its end. -/
theorem drive_whole {steps : Nat} (hw : Uninterrupted serde grants whole steps journal)
    (hwritten : Written serde grants journal) {output : Json} {last : List Answer} {m : Nat}
    (hlast : retrace serde g journal m = some (last, journal.length))
    (hdone : g.next last = .done (.ok output)) {n j : Nat} {s : Session} {answers : List Answer}
    (hf : Follows serde grants g [] j s answers) (hpre : s.entries <+: journal)
    (hend : s.cursor = s.entries.length) (hj : j ≤ m) (hn : m - j < n) :
    ∃ s', drive serde grants g whole n s answers = (s', .ok output) ∧ s'.entries = journal ∧
      s'.abort = none := by
  induction n generalizing j s answers with
  | zero => omega
  | succ n ih =>
    have hhere : retrace serde g journal j = some (answers, s.cursor) := by
      obtain ⟨more, rfl⟩ := hpre
      exact retrace_append more hf.here
    rcases Nat.lt_or_eq_of_le hj with hlt | rfl
    · obtain ⟨r, hr, -⟩ := retrace_of_le hlast (Nat.succ_le_of_lt hlt)
      obtain ⟨q, hq, hstep⟩ := retrace_succ_eq_some hr
      rw [hhere] at hq
      cases hq
      obtain ⟨c, s', answer, hnext, hcall, rfl, hf', hpre', hend'⟩ :=
        hostCall_whole hw hwritten hf hpre hend hstep
      simp only [drive, hnext, hcall]
      exact ih hf' hpre' hend' (by omega) (by omega)
    · rw [hlast] at hhere
      injection hhere with hhere
      injection hhere with hlast' hcursor
      subst hlast'
      have hall : s.entries = journal := by
        rw [List.prefix_iff_eq_take.mp hpre, ← hend, ← hcursor]
        exact List.take_length
      exact ⟨s, by simp only [drive, hdone], hall, hf.abort⟩

end Whole

/-! ## Sequences of attempts -/

section Sequence

variable (serde : SerdeJson) (grants : List String) (g : Guest)

/-- The journal that an attempt on `prior` leaves to the next one. -/
def resume (prior : HostCallJournal) (a : Attempt) : HostCallJournal :=
  (invokeJournaled serde grants g a prior).journal

variable {serde grants g}

/-- A session at the end of its journal stays there. -/
theorem nextOutcome_at_end (a : Attempt) (s : Session) (name request : String)
    (hend : s.entries.length ≤ s.cursor) :
    (nextOutcome serde grants a s name request).1.entries.length ≤
      (nextOutcome serde grants a s name request).1.cursor := by
  have hget : s.entries[s.cursor]? = none := List.getElem?_eq_none hend
  unfold nextOutcome Session.next
  split_ifs
  · exact hend
  · simp only [hget]
    cases liveOutcome serde grants a s.cursor name request with
    | error failure => simpa using hend
    | ok outcome => simpa using hend

theorem hostCall_at_end (a : Attempt) (s : Session) (c : GuestCall)
    (hend : s.entries.length ≤ s.cursor) :
    (hostCall serde grants a s c).1.entries.length ≤ (hostCall serde grants a s c).1.cursor := by
  rw [hostCall_eq]
  cases screen serde (s.admits c.nameLen.toNat c.reqLen.toNat) c with
  | refuse answer => exact hend
  | ask name request =>
    have hnext : _ ≤ (nextOutcome serde grants a s name request).1.cursor :=
      nextOutcome_at_end a s name request hend
    cases hout : nextOutcome serde grants a s name request with
    | mk s' result =>
      simp only [hout] at hnext ⊢
      cases result <;> exact hnext

/-- Nothing is replayed from the empty journal, so every call of a first attempt has room. -/
theorem callsMade_live {a : Attempt} {n : Nat} {s : Session} {answers : List Answer}
    (hend : s.entries.length ≤ s.cursor) :
    ∀ p ∈ callsMade serde grants g a n s answers, RoomForReplay p.1 p.2 := by
  induction n generalizing s answers with
  | zero => simp [callsMade]
  | succ n ih =>
    unfold callsMade
    cases g.next answers with
    | done result => simp
    | call c =>
      have hroom : RoomForReplay s c := fun hlt => absurd hlt (Nat.not_lt.mpr hend)
      have hstep : (hostCall serde grants a s c).1.entries.length ≤
          (hostCall serde grants a s c).1.cursor := hostCall_at_end a s c hend
      intro p hp
      rcases List.mem_cons.mp hp with rfl | hp
      · exact hroom
      · cases hcall : hostCall serde grants a s c with
        | mk s' answer =>
          rw [hcall] at hp hstep
          cases answer with
          | none => simp at hp
          | some answer => exact ih hstep p hp

theorem roomThroughout_nil (a : Attempt) : RoomThroughout serde grants g a [] :=
  callsMade_live (Nat.zero_le _)

/-- What an attempt on a resumable journal reports. -/
theorem invokeJournaled_eq {prior : HostCallJournal} (h : Resumable serde grants g prior)
    (a : Attempt) :
    invokeJournaled serde grants g a prior =
      ⟨finalResult prior.length (runGuest serde grants g a prior).1
          (runGuest serde grants g a prior).2,
        (runGuest serde grants g a prior).1.entries, (runGuest serde grants g a prior).1.replayed,
        (runGuest serde grants g a prior).1.live, (runGuest serde grants g a prior).1.handled⟩ := by
  simp only [invokeJournaled, journalDefect_of_written h.written]

theorem invokeJournaled_of_run {prior : HostCallJournal} (h : Resumable serde grants g prior)
    {a : Attempt} {s : Session} {result : Except SandboxFailure Json}
    (hrun : runGuest serde grants g a prior = (s, result)) :
    (invokeJournaled serde grants g a prior).result = finalResult prior.length s result ∧
      resume serde grants g prior a = s.entries := by
  unfold resume
  rw [invokeJournaled_eq h, hrun]
  exact ⟨rfl, rfl⟩

theorem Ended.not_diverged {prior : HostCallJournal} {bound : Nat} {s : Session}
    {result : Except SandboxFailure Json} (h : Ended serde grants g prior bound s result)
    {failure : ActivityFailure} (hfail : finalResult prior.length s result = .error failure) :
    failure.diverged = false := by
  unfold finalResult at hfail
  cases habort : s.abort with
  | some abort =>
    simp only [habort, Except.error.injEq] at hfail
    exact hfail ▸ h.abort _ habort
  | none =>
    cases result with
    | error f =>
      simp only [habort, Except.error.injEq] at hfail
      exact hfail ▸ f.not_diverged
    | ok output =>
      obtain ⟨hend, -⟩ := h.finished habort output rfl
      have hprior := h.extends_prior.length_le
      have hall : ¬ s.cursor < prior.length := by omega
      simp [habort, hall] at hfail

theorem Ended.ok {prior : HostCallJournal} {bound : Nat} {s : Session}
    {result : Except SandboxFailure Json} (h : Ended serde grants g prior bound s result)
    {output : Json} (hok : finalResult prior.length s result = .ok output) :
    result = .ok output ∧ ∃ j answers, j < bound ∧
      retrace serde g s.entries j = some (answers, s.entries.length) ∧
      g.next answers = .done (.ok output) := by
  unfold finalResult at hok
  cases habort : s.abort with
  | some abort => simp [habort] at hok
  | none =>
    cases result with
    | error f => simp [habort] at hok
    | ok output' =>
      simp only [habort] at hok
      split at hok
      · cases hok
      · cases hok
        exact ⟨rfl, (h.finished habort output rfl).2⟩

theorem resume_resumable {prior : HostCallJournal} (h : Resumable serde grants g prior)
    {a : Attempt} (hroom : RoomThroughout serde grants g a prior) :
    Resumable serde grants g (resume serde grants g prior a) := by
  unfold resume
  rw [invokeJournaled_eq h]
  exact (runGuest_ended h hroom).1.resumable

/-- The uninterrupted run from the empty journal ends with the resumed run's output. -/
theorem invokeJournaled_whole {whole : Attempt} {steps m : Nat} {journal : HostCallJournal}
    (hw : Uninterrupted serde grants whole steps journal)
    (hres : Resumable serde grants g journal) {last : List Answer} {output : Json} (hm : m < steps)
    (hlast : retrace serde g journal m = some (last, journal.length))
    (hdone : g.next last = .done (.ok output))
    (hlinked : g.importsHostCall = true → grants ≠ []) :
    (invokeJournaled serde grants g whole []).result = .ok output ∧
      (invokeJournaled serde grants g whole []).journal = journal := by
  have hrun : runGuest serde grants g whole [] =
      drive serde grants g whole whole.steps (Session.start []) [] := by
    unfold runGuest
    rw [if_neg]
    simpa using fun hempty himport => hlinked himport hempty
  have hsteps := hw.steps_le
  obtain ⟨s', hdrive, hentries, habort⟩ := drive_whole (n := whole.steps) hw hres.written hlast hdone
    (follows_start resumable_nil hlinked) List.nil_prefix rfl (Nat.zero_le m) (by omega)
  rw [invokeJournaled_eq resumable_nil, hrun, hdrive]
  exact ⟨by simp [finalResult, habort], hentries⟩

/-- **A resumed run continues the run it resumes.** Attempts start from the empty journal and
each gets the journal of the one before. When every host call of every attempt has room for its
replay, no attempt diverges, a handler runs once for a call and never for one of the prior
journal, the journal only grows, and an attempt that succeeds ends as one uninterrupted run
whose handlers give the recorded answers. -/
theorem resumed_run_continues (before : List Attempt) (a : Attempt)
    (hroom : Legal (resume serde grants g)
      (fun journal a => RoomThroughout serde grants g a journal) [] (before ++ [a])) :
    let prior := exec (resume serde grants g) [] before
    let run := invokeJournaled serde grants g a prior
    (∀ failure, run.result = .error failure → failure.diverged = false) ∧
      (run.handled.Nodup ∧ ∀ i ∈ run.handled, prior.length ≤ i) ∧
      prior <+: run.journal ∧
      ∀ output, run.result = .ok output →
        (∃ whole, Uninterrupted serde grants whole a.steps run.journal) ∧
          ∀ whole, Uninterrupted serde grants whole a.steps run.journal →
            (invokeJournaled serde grants g whole []).result = .ok output := by
  intro prior run
  obtain ⟨hbefore, hlast⟩ := (legal_concat _ _ _ _ _).mp hroom
  have hres : Resumable serde grants g prior :=
    invariant (P := Resumable serde grants g) (fun _ _ hj hr => resume_resumable hj hr)
      resumable_nil hbefore
  have hrun : run = _ := invokeJournaled_eq hres a
  obtain ⟨hend, hlinked⟩ := runGuest_ended hres hlast
  generalize runGuest serde grants g a prior = p at hrun hend hlinked
  rw [hrun]
  refine ⟨fun failure hfail => hend.not_diverged hfail, ⟨hend.handled_once, hend.handled⟩,
    hend.extends_prior, fun output hok => ?_⟩
  obtain ⟨hresult, m, answers, hm, htrace, hdone⟩ := hend.ok hok
  refine ⟨exists_uninterrupted hend.resumable.written _ a.stop, fun whole hw => ?_⟩
  exact (invokeJournaled_whole hw hend.resumable hm htrace hdone (hlinked output hresult)).1

end Sequence

/-! ## Runs of two guests -/

namespace Refused

def quotes : String := String.singleton (Char.ofNat 0x22)

/-- A word of `n` letters. -/
def word (n : Nat) : String := String.ofList (List.replicate n 'a')

/-- The same word as JSON text. -/
def letters (n : Nat) : String :=
  String.ofList (Char.ofNat 0x22 :: (List.replicate n 'a' ++ [Char.ofNat 0x22]))

/-- The letters up to the closing quote. -/
def quoted : List Char → Option (List Char)
  | [] => none
  | c :: rest =>
    if c.toNat = 0x22 then (if rest.isEmpty then some [] else none)
    else if 'a' ≤ c ∧ c ≤ 'z' then (quoted rest).map (c :: ·)
    else none

def readLetters (text : String) : Option String :=
  match text.toList with
  | c :: rest => if c.toNat = 0x22 then (quoted rest).map String.ofList else none
  | [] => none

/-- A reader and writer for zero and for strings of small letters. -/
def fromStr (text : String) : Except String Json :=
  match readLetters text with
  | some word => .ok (.str word)
  | none => if text = "0" then .ok (.ofNat 0) else .error "expected value"

def pieces : Json → List String
  | .str word =>
    if (readLetters (quotes ++ word ++ quotes)).isSome then [quotes, word, quotes] else ["0"]
  | _ => ["0"]

theorem quoted_printable {cs word : List Char} (h : quoted cs = some word) :
    ∀ c ∈ cs, 0x1f < c.toNat := by
  induction cs generalizing word with
  | nil => simp
  | cons c rest ih =>
    unfold quoted at h
    split at h
    · next hquote =>
      split at h
      · next hrest =>
        simp only [List.isEmpty_iff] at hrest
        subst hrest
        simp [hquote]
      · cases h
    · split at h
      · next hletter =>
        obtain ⟨word', hword', -⟩ := Option.map_eq_some_iff.mp h
        have hc : 'a'.toNat ≤ c.toNat := hletter.1
        have ha : 'a'.toNat = 97 := rfl
        intro x hx
        rcases List.mem_cons.mp hx with rfl | hx
        · omega
        · exact ih hword' x hx
      · cases h

theorem readLetters_printable {text : String} (h : (readLetters text).isSome = true) :
    ∀ c ∈ text.toList, 0x1f < c.toNat := by
  unfold readLetters at h
  split at h
  · next c rest hlist =>
    rw [hlist]
    split at h
    · next hquote =>
      rw [Option.isSome_map] at h
      obtain ⟨word, hword⟩ := Option.isSome_iff_exists.mp h
      intro x hx
      rcases List.mem_cons.mp hx with rfl | hx
      · omega
      · exact quoted_printable hword x hx
    · cases h
  · cases h

def serde : SerdeJson where
  isJson text := (readLetters text).isSome || text == "0"
  fromStr := fromStr
  pieces := pieces
  isJson_pieces := by
    intro v
    unfold pieces
    split
    · split
      · next h => simp [h]
      · simp
    · simp
  isJson_printable := by
    intro text h c hc
    simp only [Bool.or_eq_true, beq_iff_eq] at h
    rcases h with h | rfl
    · exact .inl (readLetters_printable h c hc)
    · simp only [show "0".toList = ['0'] from rfl, List.mem_singleton] at hc
      subst hc
      exact .inl (by decide)

def smallCall : GuestCall where
  nameLen := 1
  reqLen := 1
  text := some ("k", "0")
  text_len := by
    rintro name request h
    cases h
    exact ⟨by decide, by decide⟩

/-- One small call, then the end. -/
def asker : Guest where
  importsHostCall := true
  next answers := if answers.isEmpty then .call smallCall else .done (.ok .null)
  calls_import := fun _ _ _ => rfl

def asked (steps : Nat) : Attempt where
  handle _ _ _ := .ok (.ofNat 0)
  cancelled _ := false
  steps := steps
  stop := ⟨.resourceExhausted "fuel", rfl⟩

theorem roomThroughout_asker (a : Attempt) (prior : HostCallJournal) :
    RoomThroughout serde ["k"] asker a prior := by
  have hroom : RoomForReplay (Session.start prior) smallCall := fun _ _ => by
    show hasRoom (List.take 0 prior) smallCall
    rw [List.take_zero]
    decide
  have hdone : ∀ n s answer, callsMade serde ["k"] asker a n s [answer] = [] := by
    intro n s answer
    cases n <;> rfl
  intro p hp
  cases hsteps : a.steps with
  | zero => simp [hsteps, callsMade] at hp
  | succ n =>
    have hnext : asker.next [] = .call smallCall := rfl
    simp only [hsteps, callsMade, hnext, List.nil_append, hdone] at hp
    rcases List.mem_cons.mp hp with rfl | hp
    · exact hroom
    · split at hp <;> cases hp

/-- The first attempt is cut after its call, the second one ends. -/
theorem resumed_run_continues_asker :
    (invokeJournaled serde ["k"] asker (asked 5)
        (exec (resume serde ["k"] asker) [] [asked 1])).handled.Nodup ∧
      exec (resume serde ["k"] asker) [] [asked 1] <+:
        (invokeJournaled serde ["k"] asker (asked 5)
          (exec (resume serde ["k"] asker) [] [asked 1])).journal := by
  obtain ⟨-, ⟨honce, -⟩, hextends, -⟩ := resumed_run_continues [asked 1] (asked 5)
    ⟨roomThroughout_asker _ _, roomThroughout_asker _ _, trivial⟩
  exact ⟨honce, hextends⟩

theorem quoted_replicate (n : Nat) :
    quoted (List.replicate n 'a' ++ [Char.ofNat 0x22]) = some (List.replicate n 'a') := by
  induction n with
  | zero => decide
  | succ n ih =>
    rw [List.replicate_succ, List.cons_append]
    unfold quoted
    rw [if_neg (by decide), if_pos (by decide), ih]
    rfl

theorem readLetters_letters (n : Nat) :
    readLetters (letters n) = some (word n) := by
  unfold readLetters letters
  simp only [String.toList_ofList, quoted_replicate]
  rw [if_pos (by decide)]
  rfl

theorem utf8ByteSize_letters (n : Nat) : (letters n).utf8ByteSize = n + 2 := by
  have ha : 'a'.utf8Size = 1 := by decide
  have hq : (Char.ofNat 0x22).utf8Size = 1 := by decide
  unfold letters
  rw [utf8ByteSize_ofList]
  simp only [List.map_cons, List.map_append, List.map_replicate, List.map_nil, List.sum_cons,
    List.sum_append, List.sum_replicate_nat, List.sum_nil, ha, hq]
  omega

theorem escapedLen_letters (n : Nat) : escapedLen (letters n) = n + 6 := by
  have ha : escapes 'a' = 0 := by decide
  have hq : escapes (Char.ofNat 0x22) = 1 := by decide
  unfold escapedLen
  rw [utf8ByteSize_letters]
  unfold letters
  simp only [String.toList_ofList, List.map_cons, List.map_append, List.map_replicate, List.map_nil,
    List.sum_cons, List.sum_append, List.sum_replicate_nat, List.sum_nil, ha, hq]
  omega

theorem isJson_letters (n : Nat) : serde.isJson (letters n) = true := by
  have h : serde.isJson (letters n) = ((readLetters (letters n)).isSome || letters n == "0") := rfl
  rw [h, readLetters_letters, Option.isSome_some, Bool.true_or]

/-- The letters of a request of the largest size. -/
@[irreducible] def bigLetters : Nat := 65534

theorem bigLetters_eq : bigLetters = 65534 := by
  unfold bigLetters
  rfl

def big : String := letters bigLetters

theorem utf8ByteSize_big : big.utf8ByteSize = 65536 := by
  have h := utf8ByteSize_letters bigLetters
  have hn := bigLetters_eq
  unfold big
  omega

theorem escapedLen_big : escapedLen big = 65540 := by
  have h := escapedLen_letters bigLetters
  have hn := bigLetters_eq
  unfold big
  omega

theorem isJson_big : serde.isJson big = true := isJson_letters bigLetters

theorem big_ne_zero : big ≠ "0" := by
  intro h
  have hlen := utf8ByteSize_big
  rw [h] at hlen
  revert hlen
  decide

def bigCall : GuestCall where
  nameLen := 1
  reqLen := 65536
  text := some ("k", big)
  text_len := by
    rintro name request h
    cases h
    exact ⟨by decide, by rw [utf8ByteSize_big]; rfl⟩

/-- Seven large calls, a small one, then a trap. -/
def guest : Guest where
  importsHostCall := true
  next answers :=
    if answers.length < 7 then .call bigCall
    else if answers.length < 8 then .call smallCall
    else .done (.error ⟨.wasmTrap "unreachable", rfl⟩)
  calls_import := fun _ _ _ => rfl

/-- The handler answers every call with the same large string. -/
def attempt : Attempt where
  handle _ _ _ := .ok (.str (word bigLetters))
  cancelled _ := false
  steps := 10
  stop := ⟨.resourceExhausted "fuel", rfl⟩

def bigEntry (i : Nat) : HostCallEntry := ⟨i, "k", big, .ok big⟩
def smallEntry (i : Nat) : HostCallEntry := ⟨i, "k", "0", .ok big⟩

theorem byteSize_bigEntry (i : Nat) : (bigEntry i).byteSize = 131179 := by
  have hk : escapedLen "k" = 3 := by decide
  simp only [bigEntry, HostCallEntry.byteSize, HostCallOutcome.byteSize, escapedLen_big, hk,
    entryFramingBytes]

theorem letters_eq (n : Nat) : letters n = quotes ++ word n ++ quotes := by
  unfold letters quotes word
  rw [String.ofList_cons, String.ofList_append, ← String.append_assoc]
  rfl

/-- A string of letters up to the largest size is written whole. -/
theorem boundedResponse_word {n : Nat} (hn : n ≤ 65534) :
    boundedResponse serde (.str (word n)) = .ok (letters n) := by
  have hpieces : serde.pieces (.str (word n)) = [quotes, word n, quotes] := by
    have h : serde.pieces (.str (word n)) =
        if (readLetters (quotes ++ word n ++ quotes)).isSome then [quotes, word n, quotes]
        else ["0"] := rfl
    rw [h, ← letters_eq, readLetters_letters, Option.isSome_some, if_pos rfl]
  have hq : quotes.utf8ByteSize = 1 := by decide
  have hword : (word n).utf8ByteSize = n := by
    have hlen := utf8ByteSize_letters n
    rw [letters_eq, String.utf8ByteSize_append, String.utf8ByteSize_append, hq] at hlen
    omega
  have hwrite : cappedWrite "" [quotes, word n, quotes] = some (letters n) := by
    simp only [cappedWrite, String.utf8ByteSize_append, hq, hword, String.utf8ByteSize_empty,
      maxHostCallBytes]
    rw [if_neg (by omega), if_neg (by omega), if_neg (by omega), letters_eq, String.empty_append]
  simp only [boundedResponse, hpieces, hwrite]

theorem fromStr_isOk {request : String} (h : serde.isJson request = true) :
    ∃ v, serde.fromStr request = .ok v := by
  show ∃ v, fromStr request = .ok v
  have h' : ((readLetters request).isSome || request == "0") = true := h
  unfold fromStr
  cases hread : readLetters request with
  | some word => exact ⟨_, rfl⟩
  | none => exact ⟨.ofNat 0, by simpa [hread] using h'⟩

theorem liveOutcome_attempt (i : Nat) {request : String} (h : serde.isJson request = true) :
    liveOutcome serde ["k"] attempt i "k" request = .ok (.ok big) := by
  obtain ⟨v, hv⟩ := fromStr_isOk h
  have hsettle : settle serde "k" (attempt.handle i "k" v) = .ok (.ok big) := by
    have h : attempt.handle i "k" v = .ok (.str (word bigLetters)) := rfl
    rw [h, settle, boundedResponse_word (Nat.le_of_eq bigLetters_eq), big]
  have hcancel : ¬ attempt.cancelled i = true := by simp [attempt]
  unfold liveOutcome
  rw [if_neg (by simp), if_neg hcancel, hv]
  exact hsettle

theorem runsHandler_attempt (i : Nat) {request : String} (h : serde.isJson request = true) :
    runsHandler serde ["k"] attempt i "k" request = true := by
  obtain ⟨v, hv⟩ := fromStr_isOk h
  simp [runsHandler, hv, attempt, Except.isOk, Except.toBool]

theorem screen_bigCall (admitted : Bool) :
    screen serde admitted bigCall = if admitted then .ask "k" big else .refuse hostCallLimit := by
  have hread : readCall serde bigCall = some ("k", big) := by
    simp [readCall, bigCall, isJson_big]
  have hneg : ¬ (bigCall.nameLen < 0 ∨ bigCall.reqLen < 0) := by simp [bigCall]
  have hlong : ¬ (bigCall.nameLen.toNat > maxHostCallNameBytes ∨
      bigCall.reqLen.toNat > maxHostCallBytes) := by
    simp [bigCall, maxHostCallNameBytes, maxHostCallBytes]
  unfold screen
  rw [if_neg hneg, if_neg hlong, hread]
  cases admitted <;> rfl

theorem screen_smallCall : screen serde true smallCall = .ask "k" "0" := by decide

/-- The first attempt after `n` of its large calls. -/
def liveSession (n : Nat) : Session :=
  { entries := (List.range n).map bigEntry, bytes := 16 + 131179 * n, cursor := n, replayed := 0,
    live := n, abort := none, handled := List.range n }

def bigAnswer : Answer := answerOf serde (.ok big)

/-- A call of the first attempt that is let through. -/
theorem hostCall_live {s : Session} {c : GuestCall} {request : String}
    (hjson : serde.isJson request = true) (hcursor : s.cursor < 2 ^ 32)
    (hend : s.cursor = s.entries.length)
    (hscreen : screen serde (s.admits c.nameLen.toNat c.reqLen.toNat) c = .ask "k" request) :
    hostCall serde ["k"] attempt s c =
      ((s.noteHandler s.cursor).record ⟨s.cursor, "k", request, .ok big⟩, some bigAnswer) := by
  have hhandler : afterHandler serde ["k"] attempt s s.cursor "k" request =
      s.noteHandler s.cursor := by
    simp only [afterHandler, runsHandler_attempt _ hjson, if_true]
  rw [hostCall_eq, hscreen]
  simp only [nextOutcome_live hcursor hend, liveOutcome_attempt _ hjson, hhandler]
  rfl

theorem admits_liveSession (n : Nat) (nameLen reqLen : Nat) (hn : n < 256) :
    (liveSession n).admits nameLen reqLen =
      decide (16 + 131179 * n + reserve nameLen reqLen ≤ maxJournalBytes) := by
  rw [Bool.eq_iff_iff, Session.admits_iff]
  simp [liveSession, maxHostCalls, hn]

theorem hostCall_big_live {n : Nat} (hn : n < 6) :
    hostCall serde ["k"] attempt (liveSession n) bigCall =
      (liveSession (n + 1), some bigAnswer) := by
  have hadmits : (liveSession n).admits bigCall.nameLen.toNat bigCall.reqLen.toNat = true := by
    rw [admits_liveSession _ _ _ (by omega), decide_eq_true_eq]
    simp only [bigCall, reserve, entryFramingBytes, maxHostCallBytes, maxJournalBytes]
    omega
  rw [hostCall_live isJson_big (show n < 2 ^ 32 by omega) (by simp [liveSession])
    (by rw [screen_bigCall, hadmits]; rfl)]
  have hbytes := byteSize_bigEntry n
  simp only [bigEntry] at hbytes
  simp only [liveSession, Session.noteHandler, Session.record, hbytes, List.range_succ,
    List.map_append, List.map_singleton, bigEntry, Nat.mul_add, Nat.mul_one, Nat.add_assoc]

theorem next_lt_seven {answers : List Answer} (h : answers.length < 7) :
    guest.next answers = .call bigCall := by
  show (if _ then _ else _) = _
  rw [if_pos h]

theorem next_seven {answers : List Answer} (h : answers.length = 7) :
    guest.next answers = .call smallCall := by
  show (if _ then _ else if _ then _ else _) = _
  rw [if_neg (by omega), if_pos (by omega)]

theorem next_eight {answers : List Answer} (h : answers.length = 8) :
    guest.next answers = .done (.error ⟨.wasmTrap "unreachable", rfl⟩) := by
  show (if _ then _ else if _ then _ else _) = _
  rw [if_neg (by omega), if_neg (by omega)]

/-- Six large calls, made from a session that answers each of them. -/
theorem drive_big (session : Nat → Session)
    (hcall : ∀ n < 6, hostCall serde ["k"] attempt (session n) bigCall =
      (session (n + 1), some bigAnswer)) (k : Nat) (hk : k ≤ 6) :
    drive serde ["k"] guest attempt 10 (session 0) [] =
      drive serde ["k"] guest attempt (10 - k) (session k) (List.replicate k bigAnswer) := by
  induction k with
  | zero => rfl
  | succ k ih =>
    have hfuel : 10 - k = 10 - (k + 1) + 1 := by omega
    have hnext : guest.next (List.replicate k bigAnswer) = .call bigCall :=
      next_lt_seven (by rw [List.length_replicate]; omega)
    rw [ih (by omega), hfuel]
    simp only [drive, hnext, hcall k (by omega), List.replicate_succ']

/-- What the first attempt leaves: the seventh large call is refused, the small one is not. -/
def journal : HostCallJournal := (List.range 6).map bigEntry ++ [smallEntry 6]

def crashed : Session :=
  ((liveSession 6).noteHandler 6).record (smallEntry 6)

theorem hostCall_big_refused :
    hostCall serde ["k"] attempt (liveSession 6) bigCall = (liveSession 6, some hostCallLimit) := by
  have hadmits : (liveSession 6).admits bigCall.nameLen.toNat bigCall.reqLen.toNat = false := by
    rw [admits_liveSession _ _ _ (by omega), decide_eq_false_iff_not]
    decide
  rw [hostCall_eq, screen_bigCall, hadmits]
  rfl

theorem hostCall_small_live :
    hostCall serde ["k"] attempt (liveSession 6) smallCall = (crashed, some bigAnswer) := by
  have hadmits : (liveSession 6).admits smallCall.nameLen.toNat smallCall.reqLen.toNat = true := by
    rw [admits_liveSession _ _ _ (by omega), decide_eq_true_eq]
    decide
  exact hostCall_live (by decide) (show 6 < 2 ^ 32 by decide) (by simp [liveSession])
    (by rw [hadmits, screen_smallCall])

theorem runGuest_eq (prior : HostCallJournal) :
    runGuest serde ["k"] guest attempt prior =
      drive serde ["k"] guest attempt 10 (Session.start prior) [] := by
  unfold runGuest
  rw [if_neg (by simp)]
  rfl

section Steps

variable {n : Nat} {s s' : Session} {answers : List Answer} {c : GuestCall} {answer : Answer}

theorem drive_answered (hnext : guest.next answers = .call c)
    (hcall : hostCall serde ["k"] attempt s c = (s', some answer)) :
    drive serde ["k"] guest attempt (n + 1) s answers =
      drive serde ["k"] guest attempt n s' (answers ++ [answer]) := by
  simp only [drive, hnext, hcall]

theorem drive_stopped (hnext : guest.next answers = .call c)
    (hcall : hostCall serde ["k"] attempt s c = (s', none)) :
    drive serde ["k"] guest attempt (n + 1) s answers = (s', .error hostCallStopped) := by
  simp only [drive, hnext, hcall]

theorem drive_done {result : Except SandboxFailure Json} (hnext : guest.next answers = .done result) :
    drive serde ["k"] guest attempt (n + 1) s answers = (s, result) := by
  simp only [drive, hnext]

/-- A call that is not the next entry diverges. -/
theorem hostCall_diverges {entry : HostCallEntry} {request : String}
    (hscreen : screen serde (s.admits c.nameLen.toNat c.reqLen.toNat) c = .ask "k" request)
    (hcursor : s.cursor < 2 ^ 32) (hget : s.entries[s.cursor]? = some entry)
    (hne : entry.request ≠ request) :
    ∃ detail, hostCall serde ["k"] attempt s c =
      (s.aborted (.wasmJournalDivergence detail), none) := by
  have hnot : ¬ s.cursor ≥ 2 ^ 32 := Nat.not_le.mpr hcursor
  rw [hostCall_eq, hscreen]
  simp only [nextOutcome, Session.next, hnot, if_false, hget, ne_eq, hne, not_false_eq_true,
    or_true, if_true]
  exact ⟨_, rfl⟩

end Steps

theorem drive_first :
    drive serde ["k"] guest attempt 10 (liveSession 0) [] =
      (crashed, .error ⟨.wasmTrap "unreachable", rfl⟩) := by
  calc drive serde ["k"] guest attempt 10 (liveSession 0) []
      = drive serde ["k"] guest attempt 4 (liveSession 6) (List.replicate 6 bigAnswer) :=
        drive_big liveSession (fun n hn => hostCall_big_live hn) 6 (Nat.le_refl _)
    _ = drive serde ["k"] guest attempt 3 (liveSession 6)
          (List.replicate 6 bigAnswer ++ [hostCallLimit]) :=
        drive_answered (next_lt_seven (by decide)) hostCall_big_refused
    _ = drive serde ["k"] guest attempt 2 crashed
          (List.replicate 6 bigAnswer ++ [hostCallLimit] ++ [bigAnswer]) :=
        drive_answered (next_seven rfl) hostCall_small_live
    _ = (crashed, .error ⟨.wasmTrap "unreachable", rfl⟩) := drive_done (next_eight rfl)

theorem runGuest_first :
    runGuest serde ["k"] guest attempt [] =
      (crashed, .error ⟨.wasmTrap "unreachable", rfl⟩) := by
  have hstart : Session.start [] = liveSession 0 := rfl
  rw [runGuest_eq, hstart, drive_first]

theorem entries_crashed : crashed.entries = journal := rfl

theorem resume_first : resume serde ["k"] guest [] attempt = journal := by
  rw [(invokeJournaled_of_run resumable_nil runGuest_first).2, entries_crashed]

/-- The second attempt after `n` replayed calls. -/
def replaySession (n : Nat) : Session :=
  { Session.start journal with cursor := n, replayed := n }

theorem hostCall_big_replayed {n : Nat} (hn : n < 6) :
    hostCall serde ["k"] attempt (replaySession n) bigCall =
      (replaySession (n + 1), some bigAnswer) := by
  have hadmits : (replaySession n).admits bigCall.nameLen.toNat bigCall.reqLen.toNat = true := by
    rw [Session.admits_iff]
    refine ⟨?_, .inl ?_⟩
    · simp only [replaySession, maxHostCalls]
      omega
    · simp only [replaySession, Session.start, journal, List.length_append, List.length_map,
        List.length_range, List.length_singleton]
      omega
  have hget : journal[n]? = some (bigEntry n) := by
    rw [journal, List.getElem?_append_left (by simpa using hn), List.getElem?_map,
      List.getElem?_range hn]
    rfl
  have hnot : ¬ n ≥ 2 ^ 32 := by omega
  rw [hostCall_eq, screen_bigCall, hadmits]
  simp only [if_true, nextOutcome, Session.next, replaySession, Session.start, hnot, hget, bigEntry]
  simp [Session.serve, bigAnswer]

theorem entries_replaySession (n : Nat) : (replaySession n).entries = journal := rfl
theorem cursor_replaySession (n : Nat) : (replaySession n).cursor = n := rfl

theorem hostCall_big_diverges :
    ∃ detail, hostCall serde ["k"] attempt (replaySession 6) bigCall =
      ((replaySession 6).aborted (.wasmJournalDivergence detail), none) := by
  have hlen : journal.length = 7 := rfl
  have hget : journal[6]? = some (smallEntry 6) := rfl
  have hadmits : (replaySession 6).admits bigCall.nameLen.toNat bigCall.reqLen.toNat = true := by
    rw [Session.admits_iff, entries_replaySession, cursor_replaySession, hlen]
    exact ⟨by decide, .inl (by decide)⟩
  have hscreen : screen serde ((replaySession 6).admits bigCall.nameLen.toNat bigCall.reqLen.toNat)
      bigCall = .ask "k" big := by
    rw [screen_bigCall, hadmits, if_pos rfl]
  have hcursor : (replaySession 6).cursor < 2 ^ 32 := by
    rw [cursor_replaySession]
    decide
  have hentry : (replaySession 6).entries[(replaySession 6).cursor]? = some (smallEntry 6) := by
    rw [entries_replaySession, cursor_replaySession, hget]
  exact hostCall_diverges hscreen hcursor hentry big_ne_zero.symm

theorem drive_second :
    ∃ detail, drive serde ["k"] guest attempt 10 (replaySession 0) [] =
      ((replaySession 6).aborted (.wasmJournalDivergence detail), .error hostCallStopped) := by
  obtain ⟨detail, hcall⟩ := hostCall_big_diverges
  refine ⟨detail, ?_⟩
  calc drive serde ["k"] guest attempt 10 (replaySession 0) []
      = drive serde ["k"] guest attempt 4 (replaySession 6) (List.replicate 6 bigAnswer) :=
        drive_big replaySession (fun n hn => hostCall_big_replayed hn) 6 (Nat.le_refl _)
    _ = _ := drive_stopped (next_lt_seven (by decide)) hcall

theorem resumable_journal : Resumable serde ["k"] guest journal := by
  rw [← resume_first]
  exact resume_resumable resumable_nil (roomThroughout_nil attempt)

/-- **A refused call can make the next attempt diverge.** The first attempt traps; its seventh
large call was over the byte budget and the small call after it was journaled. The second attempt
makes the seventh large call while that entry is left. -/
theorem refused_call_diverges :
    (invokeJournaled serde ["k"] guest attempt []).result = .error (.wasmTrap "unreachable") ∧
      ∃ failure, failure.diverged = true ∧
        (invokeJournaled serde ["k"] guest attempt (resume serde ["k"] guest [] attempt)).result =
          .error failure := by
  constructor
  · rw [(invokeJournaled_of_run resumable_nil runGuest_first).1]
    rfl
  · obtain ⟨detail, hdrive⟩ := drive_second
    have hstart : Session.start journal = replaySession 0 := rfl
    have hrun : runGuest serde ["k"] guest attempt journal = _ :=
      (runGuest_eq journal).trans (hstart ▸ hdrive)
    refine ⟨.wasmJournalDivergence detail, rfl, ?_⟩
    rw [resume_first, (invokeJournaled_of_run resumable_journal hrun).1]
    rfl

end Refused
end Harvest.Wasm
