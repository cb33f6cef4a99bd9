import Mathlib.Data.List.Induction
import Harvest.Lib.Run
import Harvest.Breaker.Fence
import Harvest.Breaker.Phases

/-!
# Accounting of a claim against the timeout enforcers

Workers register a claim, report on it and end it; enforcers mark it and then
confirm the timeout or roll back. All calls interleave freely on one breaker,
with each other and with calls that hold no claim.

Proved here:
* `Matches`: the entry of a claim is determined by the calls made for it so far.
* `claim_accounting`: at most one call of a claim moves the breaker for it, the
  confirm if there is one, else the settlement of the report.
* `late_mark_counts_twice`: the proviso on marks after the report is needed.
-/

namespace Harvest.Breaker

open Harvest.Lib

/-! ## Calls and the account of a claim -/

/-- How a worker reports: a result, a loss to a timeout, or no result. -/
inductive Report
  | result (outcome : AttemptOutcome)
  | lost
  | ended
deriving DecidableEq, Repr

inductive Call
  | other (op : Op)
  | register (claim : ClaimKey) (token : DispatchToken)
  | report (claim : ClaimKey) (token : DispatchToken) (report : Report) (now : Now)
  | finish (claim : ClaimKey)
  | mark (claim : ClaimKey)
  | confirm (claim : ClaimKey) (counted : Bool) (now : Now)
  | unmark (claim : ClaimKey) (now : Now)
deriving DecidableEq, Repr

/-- The calls made for one claim: its dispatch token once it began, its report once
it reported, how many enforcers still decide, whether one marked it and whether one
confirmed. -/
structure Account where
  token : Option DispatchToken
  report : Option Report
  deciding : Nat
  marked : Bool
  confirmed : Bool
deriving DecidableEq, Repr

def Account.new : Account := ⟨none, none, 0, false, false⟩

namespace Call

def claim : Call → Option ClaimKey
  | other _ => none
  | register claim _ | report claim _ _ _ | finish claim | mark claim | confirm claim _ _
  | unmark claim _ => some claim

def apply (policy : CircuitBreakerPolicy) (st : BreakerState) : Call → BreakerState
  | other op => op.apply policy st
  | register claim token => st.beginClaim claim token
  | report claim token (.result outcome) now =>
    (st.onClaimResult policy outcome token claim now).1
  | report claim token .lost now => (st.onClaimLost policy token claim true now).1
  | report claim _ .ended _ => st.endClaim claim
  | finish claim => st.endClaim claim
  | mark claim => st.markClaimTimedOut claim
  | confirm claim counted now => (st.confirmClaimTimedOut policy claim counted now).1
  | unmark claim now => (st.unmarkClaimTimedOut policy claim now).1

/-- What the call adds to the account of its claim. -/
def enter (a : Account) : Call → Account
  | other _ | finish _ => a
  | register _ token => { a with token := some token }
  | report _ _ r _ => { a with report := some r }
  | mark _ => { a with deciding := a.deciding + 1, marked := true }
  | confirm _ _ _ => { a with deciding := a.deciding - 1, confirmed := true }
  | unmark _ _ => { a with deciding := a.deciding - 1 }

/-- The report of a claim, or a rollback by one of its enforcers. -/
def reportsOrRollsBack (claim : ClaimKey) : Call → Bool
  | report c _ _ _ | unmark c _ => c = claim
  | _ => false

end Call

/-- One breaker with the tokens it issued, its generation bumps and the accounts. -/
structure Desk where
  st : BreakerState
  issued : List DispatchToken
  transitions : Nat
  account : ClaimKey → Account

namespace Desk

def start : Desk := ⟨.default, [], 0, fun _ => .new⟩

def issuedAfter (policy : CircuitBreakerPolicy) (d : Desk) : Call → List DispatchToken
  | .other (.dispatch now) => match (d.st.onDispatch policy now).2 with
    | .allow token => d.issued ++ [token]
    | .shortCircuit _ _ => d.issued
  | _ => d.issued

def accountAfter (d : Desk) (call : Call) : ClaimKey → Account :=
  match call.claim with
  | some claim => Function.update d.account claim (call.enter (d.account claim))
  | none => d.account

def step (policy : CircuitBreakerPolicy) (d : Desk) (call : Call) : Desk where
  st := call.apply policy d.st
  issued := d.issuedAfter policy call
  transitions :=
    d.transitions + if (call.apply policy d.st).generation = d.st.generation then 0 else 1
  account := d.accountAfter call

/-- The discipline of the callers. A claim begins once, reports once after that with
its own token, and may end again; an enforcer decides once after its mark; at most
one confirms, after the claim began. `markable` says when a mark may come. -/
def Allowed (markable : Account → Prop) (d : Desk) : Call → Prop
  | .other op => ∀ token ∈ op.reported, token ∈ d.issued
  | .register claim token => token ∈ d.issued ∧ (d.account claim).token = none
  | .report claim token _ _ =>
    (d.account claim).token = some token ∧ (d.account claim).report = none
  | .finish claim => (d.account claim).report ≠ none
  | .mark claim => markable (d.account claim) ∧ (d.account claim).deciding < u32Max
  | .confirm claim _ _ => (d.account claim).token ≠ none ∧ 0 < (d.account claim).deciding ∧
      (d.account claim).confirmed = false
  | .unmark claim _ => 0 < (d.account claim).deciding

/-- Only the first mark must come before the report. -/
def firstMark (a : Account) : Prop := a.marked = true ∨ a.report = none

/-- A mark comes before the report, or while an enforcer still decides, or after the
timeout was confirmed. -/
def openMark (a : Account) : Prop := a.report = none ∨ 0 < a.deciding ∨ a.confirmed = true

instance (markable : Account → Prop) [DecidablePred markable] (d : Desk) :
    (call : Call) → Decidable (d.Allowed markable call)
  | .other op => inferInstanceAs (Decidable (∀ token ∈ op.reported, token ∈ d.issued))
  | .register _ _ | .report _ _ _ _ | .mark _ | .confirm _ _ _ =>
    inferInstanceAs (Decidable (_ ∧ _))
  | .finish claim => inferInstanceAs (Decidable ((d.account claim).report ≠ none))
  | .unmark claim _ => inferInstanceAs (Decidable (0 < (d.account claim).deciding))

instance : DecidablePred firstMark := fun _ => inferInstanceAs (Decidable (_ ∨ _))

instance : DecidablePred openMark := fun _ => inferInstanceAs (Decidable (_ ∨ _))

/-- The desk before call `i` of a run. -/
def before (policy : CircuitBreakerPolicy) (calls : List Call) (i : Nat) : Desk :=
  exec (step policy) start (calls.take i)

end Desk

/-! ## The entry of a claim -/

/-- How a report waits for `deciding` enforcers. -/
def Report.pending (token : DispatchToken) (deciding : Nat) : Report → ClaimState
  | .result outcome => .held outcome token deciding
  | .lost => .lostPending deciding
  | .ended => .ended deciding

/-- What a report does to the breaker when nothing waits for it any more. -/
def Report.settle (policy : CircuitBreakerPolicy) (st : BreakerState) (token : DispatchToken)
    (now : Now) : Report → BreakerState
  | .result outcome => (st.applyResult policy outcome token now).1
  | .lost => (st.countRemoteTimeout policy token now).1
  | .ended => st

/-- The entry that the calls of an account leave in the in-flight map. -/
inductive Matches : Account → Option InFlightClaim → Prop
  | idle (marked : Bool) : Matches ⟨none, none, 0, marked, false⟩ none
  | waiting (n g : Nat) (marked : Bool) :
      Matches ⟨none, none, n + 1, marked, false⟩ (some ⟨none, g, .provisional (n + 1)⟩)
  | running (token : DispatchToken) (g : Nat) (marked : Bool) :
      Matches ⟨some token, none, 0, marked, false⟩ (some ⟨some token, g, .running⟩)
  | provisional (token : DispatchToken) (n g : Nat) (marked : Bool) :
      Matches ⟨some token, none, n + 1, marked, false⟩
        (some ⟨some token, g, .provisional (n + 1)⟩)
  | pending (token : DispatchToken) (report : Report) (n g : Nat) (marked : Bool) :
      Matches ⟨some token, some report, n + 1, marked, false⟩
        (some ⟨some token, g, report.pending token (n + 1)⟩)
  | settled (token : DispatchToken) (report : Report) (marked : Bool) :
      Matches ⟨some token, some report, 0, marked, false⟩ none
  | timedOut (token : DispatchToken) (n g : Nat) (marked : Bool) :
      Matches ⟨some token, none, n, marked, true⟩ (some ⟨some token, g, .timedOut⟩)
  | gone (token : DispatchToken) (report : Report) (n : Nat) (marked : Bool) :
      Matches ⟨some token, some report, n, marked, true⟩ none
  -- A mark that came after the confirm removed the entry: it holds no token.
  | late (token : DispatchToken) (report : Report) (n m g : Nat) (marked : Bool)
      (state : ClaimState) (hpos : 0 < m) (hle : m ≤ n)
      (hstate : state = .provisional m ∨ state = .ended m) :
      Matches ⟨some token, some report, n, marked, true⟩ (some ⟨none, g, state⟩)

/-! ## What each call does to the entry and to the breaker -/

/-- A token that releases no probe: it is no probe, or its generation is over. -/
def BreakerState.Spent (st : BreakerState) (token : DispatchToken) : Prop :=
  token.isProbe = true → token.generation ≠ st.generation

theorem applyCancelled_spent (st : BreakerState) (token : DispatchToken) (now : Now)
    (h : st.Spent token) : (st.applyCancelled token now).1 = st := by
  unfold BreakerState.applyCancelled
  split
  · rfl
  · rename_i hfence
    have hgen : token.generation = st.generation := by simp at hfence; exact hfence.2
    split
    · rename_i hprobe
      simp only [Bool.and_eq_true] at hprobe
      exact absurd hgen (h hprobe.1.1)
    · rfl

section Entry

variable {policy : CircuitBreakerPolicy} {st : BreakerState} {claim : ClaimKey} {a : Account}

theorem register_matches (token : DispatchToken) (h : Matches a (st.inFlightClaims claim))
    (hnew : a.token = none) :
    Matches { a with token := some token } ((st.beginClaim claim token).inFlightClaims claim) ∧
      (st.beginClaim claim token).core = st.core := by
  unfold BreakerState.beginClaim
  generalize st.inFlightClaims claim = entry at h
  cases h with
  | idle marked => exact ⟨by simpa using .running token _ marked, rfl⟩
  | waiting n g marked => exact ⟨by simpa using .provisional token n g marked, rfl⟩
  | running => cases hnew
  | provisional => cases hnew
  | pending => cases hnew
  | settled => cases hnew
  | timedOut => cases hnew
  | gone => cases hnew
  | late => cases hnew

theorem saturatingSucc_eq {n : Nat} (h : n < u32Max) : saturatingSucc n = n + 1 :=
  Nat.min_eq_left h

theorem mark_matches (h : Matches a (st.inFlightClaims claim)) (hmark : Desk.openMark a)
    (hfew : a.deciding < u32Max) :
    Matches { a with deciding := a.deciding + 1, marked := true }
      ((st.markClaimTimedOut claim).inFlightClaims claim) := by
  simp only [BreakerState.markClaimTimedOut, BreakerState.setClaim_claims, Function.update_self]
  generalize st.inFlightClaims claim = entry at h
  cases h with
  | idle marked => exact .waiting 0 st.generation true
  | waiting n g marked =>
    simpa [ClaimState.mark, saturatingSucc_eq hfew] using .waiting (n + 1) g true
  | running token g marked => exact .provisional token 0 g true
  | provisional token n g marked =>
    simpa [ClaimState.mark, saturatingSucc_eq hfew] using .provisional token (n + 1) g true
  | pending token report n g marked =>
    have hstate : (report.pending token (n + 1)).mark = report.pending token (n + 2) := by
      cases report <;> simp [Report.pending, ClaimState.mark, saturatingSucc_eq hfew]
    simpa [hstate] using .pending token report (n + 1) g true
  | settled token report marked => simp [Desk.openMark] at hmark
  | timedOut token n g marked => exact .timedOut token (n + 1) g true
  | gone token report n marked =>
    exact .late token report (n + 1) 1 st.generation true _ Nat.one_pos (by omega) (.inl rfl)
  | late token report n m g marked state hpos hle hstate =>
    have hm : 0 < saturatingSucc m ∧ saturatingSucc m ≤ n + 1 := by
      simp only [saturatingSucc, u32Max]
      omega
    refine .late token report (n + 1) (saturatingSucc m) g true _ hm.1 hm.2 ?_
    rcases hstate with rfl | rfl
    · exact .inl rfl
    · exact .inr rfl

theorem finish_matches (h : Matches a (st.inFlightClaims claim)) (hdone : a.report ≠ none) :
    Matches a ((st.endClaim claim).inFlightClaims claim) ∧ (st.endClaim claim).core = st.core := by
  unfold BreakerState.endClaim
  generalize hentry : st.inFlightClaims claim = entry at h
  cases h with
  | pending token report n g marked =>
    have hmatch := Matches.pending token report n g marked
    cases report <;> exact ⟨by simpa [Report.pending, hentry] using hmatch, rfl⟩
  | settled token report marked => exact ⟨by simpa [hentry] using .settled token report marked, rfl⟩
  | gone token report n marked => exact ⟨by simpa [hentry] using .gone token report n marked, rfl⟩
  | late token report n m g marked state hpos hle hstate =>
    rcases hstate with rfl | rfl
    · exact ⟨by simpa using .late token report n m g marked _ hpos hle (.inr rfl), rfl⟩
    · exact ⟨by simpa [hentry] using .late token report n m g marked _ hpos hle (.inr rfl), rfl⟩
  | idle => exact absurd rfl hdone
  | waiting => exact absurd rfl hdone
  | running => exact absurd rfl hdone
  | provisional => exact absurd rfl hdone
  | timedOut => exact absurd rfl hdone

/-- The report settles at once when no enforcer decides, waits when one does, and is
dropped when the timeout was confirmed. -/
theorem report_matches (token : DispatchToken) (report : Report) (now : Now)
    (h : Matches a (st.inFlightClaims claim)) (htoken : a.token = some token)
    (hnew : a.report = none) (hspent : a.confirmed = true → st.Spent token) :
    Matches { a with report := some report }
        (((Call.report claim token report now).apply policy st).inFlightClaims claim) ∧
      (a.deciding = 0 → a.confirmed = false →
        ((Call.report claim token report now).apply policy st).core =
          report.settle policy st.core token now) ∧
      (0 < a.deciding ∨ a.confirmed = true →
        ((Call.report claim token report now).apply policy st).core = st.core) := by
  generalize hentry : st.inFlightClaims claim = entry at h
  cases h with
  | running token' g marked =>
    obtain rfl : token' = token := by simpa using htoken
    cases report with
    | result outcome =>
      refine ⟨?_, fun _ _ => ?_, by simp⟩
      · simpa [Call.apply, BreakerState.onClaimResult, hentry, BreakerState.applyResult_claims]
          using .settled token' _ marked
      · simp only [Call.apply, BreakerState.onClaimResult, hentry, Report.settle]
        rw [BreakerState.core_applyResult, BreakerState.core_removeClaim]
    | lost =>
      refine ⟨?_, fun _ _ => ?_, by simp⟩
      · simpa [Call.apply, BreakerState.onClaimLost, hentry,
          BreakerState.countRemoteTimeout_claims] using .settled token' _ marked
      · simp only [Call.apply, BreakerState.onClaimLost, hentry, Report.settle, if_true]
        rw [BreakerState.core_countRemoteTimeout, BreakerState.core_removeClaim]
    | ended =>
      exact ⟨by simpa [Call.apply, BreakerState.endClaim, hentry] using .settled token' _ marked,
        fun _ _ => by simp [Call.apply, BreakerState.endClaim, hentry, Report.settle], by simp⟩
  | provisional token' n g marked =>
    obtain rfl : token' = token := by simpa using htoken
    cases report with
    | result outcome =>
      exact ⟨by simpa [Call.apply, BreakerState.onClaimResult, hentry]
          using .pending token' (.result outcome) n g marked,
        by simp, fun _ => by simp [Call.apply, BreakerState.onClaimResult, hentry]⟩
    | lost =>
      exact ⟨by simpa [Call.apply, BreakerState.onClaimLost, hentry]
          using .pending token' .lost n g marked,
        by simp, fun _ => by simp [Call.apply, BreakerState.onClaimLost, hentry]⟩
    | ended =>
      exact ⟨by simpa [Call.apply, BreakerState.endClaim, hentry]
          using .pending token' .ended n g marked,
        by simp, fun _ => by simp [Call.apply, BreakerState.endClaim, hentry]⟩
  | timedOut token' n g marked =>
    obtain rfl : token' = token := by simpa using htoken
    have hkept : ((st.removeClaim claim).applyCancelled token' now).1 = st.removeClaim claim :=
      applyCancelled_spent _ token' now (hspent rfl)
    have hgone : Matches ⟨some token', some report, n, marked, true⟩ none := .gone token' _ n marked
    cases report with
    | result outcome =>
      simp only [Call.apply, BreakerState.onClaimResult, hentry, hkept]
      exact ⟨by simpa using hgone, by simp, fun _ => rfl⟩
    | lost =>
      simp only [Call.apply, BreakerState.onClaimLost, hentry, hkept]
      exact ⟨by simpa using hgone, by simp, fun _ => rfl⟩
    | ended =>
      simp only [Call.apply, BreakerState.endClaim, hentry]
      exact ⟨by simpa using hgone, by simp, fun _ => rfl⟩
  | idle => cases htoken
  | waiting => cases htoken
  | pending => cases hnew
  | settled => cases hnew
  | gone => cases hnew
  | late => cases hnew

/-- A rollback settles the report when it is the last one and no enforcer confirmed. -/
theorem unmark_matches (now : Now) (h : Matches a (st.inFlightClaims claim))
    (hdeciding : 0 < a.deciding) :
    Matches { a with deciding := a.deciding - 1 }
        ((st.unmarkClaimTimedOut policy claim now).1.inFlightClaims claim) ∧
      (∀ token report, a.token = some token → a.report = some report → a.deciding = 1 →
        a.confirmed = false → (st.unmarkClaimTimedOut policy claim now).1.core =
          report.settle policy st.core token now) ∧
      (a.report = none ∨ a.deciding ≠ 1 ∨ a.confirmed = true →
        (st.unmarkClaimTimedOut policy claim now).1.core = st.core) := by
  unfold BreakerState.unmarkClaimTimedOut
  generalize hentry : st.inFlightClaims claim = entry at h
  cases h with
  | waiting n g marked =>
    cases n with
    | zero => exact ⟨by simpa using .idle marked, by simp, fun _ => rfl⟩
    | succ n => exact ⟨by simpa using .waiting n g marked, by simp, fun _ => by simp⟩
  | provisional token n g marked =>
    cases n with
    | zero => exact ⟨by simpa using .running token g marked, by simp, fun _ => rfl⟩
    | succ n => exact ⟨by simpa using .provisional token n g marked, by simp, fun _ => by simp⟩
  | pending token report n g marked =>
    cases n with
    | zero =>
      have hsettled := Matches.settled token report marked
      refine ⟨?_, ?_, by simp⟩
      · cases report <;> simpa [Report.pending, BreakerState.applyResult_claims,
          BreakerState.countRemoteTimeout_claims] using hsettled
      · rintro _ _ ⟨⟩ ⟨⟩ - -
        cases report <;> simp [Report.pending, Report.settle, BreakerState.core_applyResult,
          BreakerState.core_countRemoteTimeout]
    | succ n =>
      have hpending := Matches.pending token report n g marked
      refine ⟨?_, by simp, fun _ => ?_⟩
      · cases report <;> simpa [Report.pending] using hpending
      · cases report <;> simp [Report.pending]
  | timedOut token n g marked =>
    exact ⟨by simpa [hentry] using .timedOut token (n - 1) g marked, by simp, fun _ => rfl⟩
  | gone token report n marked =>
    exact ⟨by simpa [hentry] using .gone token report (n - 1) marked, by simp, fun _ => rfl⟩
  | late token report n m g marked state hpos hle hstate =>
    have hgone := Matches.gone token report (n - 1) marked
    by_cases hm : m > 1
    · have hlate (state : ClaimState) (h : state = .provisional (m - 1) ∨ state = .ended (m - 1)) :=
        Matches.late token report (n - 1) (m - 1) g marked state (by omega) (by omega) h
      rcases hstate with rfl | rfl
      · exact ⟨by simpa [hm] using hlate _ (.inl rfl), by simp, fun _ => by simp [hm]⟩
      · exact ⟨by simpa [hm] using hlate _ (.inr rfl), by simp, fun _ => by simp [hm]⟩
    · rcases hstate with rfl | rfl
      · exact ⟨by simpa [hm] using hgone, by simp, fun _ => by simp [hm]⟩
      · exact ⟨by simpa [hm] using hgone, by simp, fun _ => by simp [hm]⟩
  | idle => cases hdeciding
  | running => cases hdeciding
  | settled => cases hdeciding

/-- The breaker part of a confirm, on the state whose entry was updated already. -/
def BreakerState.confirmCount (st : BreakerState) (policy : CircuitBreakerPolicy)
    (token : DispatchToken) (counted : Bool) (now : Now) : BreakerState :=
  if (st.applyCancelled token now).2 then (st.applyCancelled token now).1
  else if !counted || token.generation ≠ st.generation then st
  else (st.applyExternalFailure policy now).1

theorem confirm_eq (counted : Bool) (now : Now) (token : DispatchToken) (g : Nat)
    (state : ClaimState) (hentry : st.inFlightClaims claim = some ⟨some token, g, state⟩)
    (hstate : state ≠ .timedOut) :
    (st.confirmClaimTimedOut policy claim counted now).1 =
      (st.confirmEntry claim ⟨some token, g, state⟩).confirmCount policy token counted now := by
  simp only [BreakerState.confirmClaimTimedOut, hentry, if_neg hstate, BreakerState.confirmCount]
  cases h : ((st.confirmEntry claim ⟨some token, g, state⟩).applyCancelled token now).2 with
  | true => simp
  | false =>
    rw [BreakerState.applyCancelled_kept _ token now h]
    simp only [Bool.false_eq_true, if_false, Option.map_some, Option.getD_some]
    split <;> rfl

theorem confirmCount_claims (token : DispatchToken) (counted : Bool) (now : Now) :
    (st.confirmCount policy token counted now).inFlightClaims = st.inFlightClaims := by
  unfold BreakerState.confirmCount
  split
  · exact BreakerState.applyCancelled_claims st token now
  split
  · rfl
  · exact BreakerState.applyExternalFailure_claims st policy now

theorem confirm_matches (counted : Bool) (now : Now) (h : Matches a (st.inFlightClaims claim))
    (htoken : a.token ≠ none) (hdeciding : 0 < a.deciding) (hnew : a.confirmed = false) :
    Matches { a with deciding := a.deciding - 1, confirmed := true }
      ((st.confirmClaimTimedOut policy claim counted now).1.inFlightClaims claim) := by
  generalize hentry : st.inFlightClaims claim = entry at h
  cases h with
  | provisional token n g marked =>
    rw [confirm_eq counted now token g _ hentry (by simp), confirmCount_claims]
    simpa [BreakerState.confirmEntry] using .timedOut token n g marked
  | pending token report n g marked =>
    have hgone := Matches.gone token report n marked
    have hstate : report.pending token (n + 1) ≠ .timedOut := by
      cases report <;> simp [Report.pending]
    rw [confirm_eq counted now token g _ hentry hstate, confirmCount_claims]
    cases report <;> simpa [BreakerState.confirmEntry, Report.pending] using hgone
  | idle => exact absurd rfl htoken
  | waiting => exact absurd rfl htoken
  | running => cases hdeciding
  | settled => cases hdeciding
  | timedOut => cases hnew
  | gone => cases hnew
  | late => cases hnew

end Entry

/-! ## Frame and fence of every call -/

/-- `st` moved to `st'` by a call for `claim`: other entries stay, and the fenced
fields are kept or the generation is bumped. -/
def Local (claim : ClaimKey) (st st' : BreakerState) : Prop :=
  (∀ other, other ≠ claim → st'.inFlightClaims other = st.inFlightClaims other) ∧
    BreakerState.Settles st st'

section Local

variable {policy : CircuitBreakerPolicy} {st : BreakerState} {claim : ClaimKey}

theorem Local.refl (claim : ClaimKey) (st : BreakerState) : Local claim st st :=
  ⟨fun _ _ => rfl, .refl st⟩

theorem Local.set (entry : InFlightClaim) : Local claim st (st.setClaim claim entry) :=
  ⟨fun _ h => by simp [Function.update_of_ne h], .refl st⟩

theorem Local.remove : Local claim st (st.removeClaim claim) :=
  ⟨fun _ h => by simp [Function.update_of_ne h], .refl st⟩

/-- An entry is updated first, the breaker moves after that. -/
theorem Local.after {st₁ st₂ : BreakerState} (h : Local claim st st₁) (hcore : st₁.core = st.core)
    (hclaims : st₂.inFlightClaims = st₁.inFlightClaims) (hsettles : BreakerState.Settles st₁ st₂) :
    Local claim st st₂ := by
  refine ⟨fun other hother => by rw [hclaims, h.1 other hother], ?_⟩
  have hgen : st₁.generation = st.generation := by
    simpa using congrArg BreakerState.generation hcore
  have hphase : st₁.phase = st.phase := by
    simpa using congrArg BreakerState.phase hcore
  have hslot : st₁.probeInFlight = st.probeInFlight := by
    simpa using congrArg BreakerState.probeInFlight hcore
  have hforced : st₁.forcedOpen = st.forcedOpen := by
    simpa using congrArg BreakerState.forcedOpen hcore
  simpa [BreakerState.Settles, BreakerState.nextGeneration, hgen, hphase, hslot, hforced]
    using hsettles

theorem Local.removeResult (outcome : AttemptOutcome) (token : DispatchToken) (now : Now) :
    Local claim st ((st.removeClaim claim).applyResult policy outcome token now).1 :=
  Local.remove.after rfl (BreakerState.applyResult_claims ..) (BreakerState.settles_applyResult ..)

theorem Local.removeCancelled (token : DispatchToken) (now : Now) :
    Local claim st ((st.removeClaim claim).applyCancelled token now).1 :=
  Local.remove.after rfl (BreakerState.applyCancelled_claims ..)
    (BreakerState.settles_applyCancelled ..)

theorem Local.removeTimeout (token : DispatchToken) (now : Now) :
    Local claim st ((st.removeClaim claim).countRemoteTimeout policy token now).1 :=
  Local.remove.after rfl (BreakerState.countRemoteTimeout_claims ..)
    (BreakerState.settles_countRemoteTimeout ..)

theorem local_onClaimResult (outcome : AttemptOutcome) (token : DispatchToken) (now : Now) :
    Local claim st (st.onClaimResult policy outcome token claim now).1 := by
  unfold BreakerState.onClaimResult
  split
  · exact .set _
  · exact .removeCancelled token now
  · exact .removeResult outcome token now

theorem local_onClaimLost (token : DispatchToken) (now : Now) :
    Local claim st (st.onClaimLost policy token claim true now).1 := by
  unfold BreakerState.onClaimLost
  simp only [if_true]
  split
  · exact .set _
  · exact .set _
  · exact .removeCancelled token now
  · exact .removeTimeout token now

theorem local_beginClaim (token : DispatchToken) : Local claim st (st.beginClaim claim token) := by
  unfold BreakerState.beginClaim
  split
  · exact .set _
  · exact .set _

theorem local_endClaim : Local claim st (st.endClaim claim) := by
  unfold BreakerState.endClaim
  split <;> first | exact .refl claim st | exact .set _ | exact .remove

theorem local_confirmEntry (entry : InFlightClaim) :
    Local claim st (st.confirmEntry claim entry) := by
  unfold BreakerState.confirmEntry
  split <;> first | exact .set _ | exact .remove

theorem core_confirmEntry (entry : InFlightClaim) :
    (st.confirmEntry claim entry).core = st.core := by
  unfold BreakerState.confirmEntry
  split <;> rfl

theorem local_confirm (counted : Bool) (now : Now) :
    Local claim st (st.confirmClaimTimedOut policy claim counted now).1 := by
  unfold BreakerState.confirmClaimTimedOut
  split
  · exact .refl claim st
  · rename_i entry _
    split
    · exact .refl claim st
    · have hbase : Local claim st (st.confirmEntry claim entry) := local_confirmEntry entry
      have hafter {st₂ : BreakerState}
          (hclaims : st₂.inFlightClaims = (st.confirmEntry claim entry).inFlightClaims)
          (hsettles : BreakerState.Settles (st.confirmEntry claim entry) st₂) :
          Local claim st st₂ := hbase.after (core_confirmEntry entry) hclaims hsettles
      cases htoken : entry.token with
      | none =>
        simp only [Bool.false_eq_true, if_false]
        split
        · exact hbase
        · exact hafter (BreakerState.applyExternalFailure_claims ..)
            (BreakerState.settles_applyExternalFailure ..)
      | some token =>
        cases hreleased : ((st.confirmEntry claim entry).applyCancelled token now).2 with
        | true =>
          simp only [hreleased, if_true]
          exact hafter (BreakerState.applyCancelled_claims ..)
            (BreakerState.settles_applyCancelled ..)
        | false =>
          simp only [hreleased, Bool.false_eq_true, if_false,
            BreakerState.applyCancelled_kept _ token now hreleased]
          split
          · exact hbase
          · exact hafter (BreakerState.applyExternalFailure_claims ..)
              (BreakerState.settles_applyExternalFailure ..)

theorem local_unmark (now : Now) :
    Local claim st (st.unmarkClaimTimedOut policy claim now).1 := by
  unfold BreakerState.unmarkClaimTimedOut
  split
  · exact .refl claim st
  split
  · split
    · exact .set _
    · exact .removeResult _ _ now
  · split
    · exact .set _
    · split
      · exact .remove
      · exact .set _
  · split
    · exact .set _
    · split
      · exact .removeTimeout _ now
      · exact .remove
  · split
    · exact .set _
    · exact .remove
  · exact .refl claim st
  · exact .refl claim st

/-- Every call for a claim is local to it. -/
theorem apply_local (call : Call) (h : call.claim = some claim) :
    Local claim st (call.apply policy st) := by
  cases call with
  | other op => cases h
  | register c token => cases h; exact local_beginClaim token
  | report c token report now =>
    cases h
    cases report with
    | result outcome => exact local_onClaimResult outcome token now
    | lost => exact local_onClaimLost token now
    | ended => exact local_endClaim
  | finish c => cases h; exact local_endClaim
  | mark c => cases h; exact .set _
  | confirm c counted now => cases h; exact local_confirm counted now
  | unmark c now => cases h; exact local_unmark now

end Local

/-- A call without a claim keeps every entry. -/
theorem other_claims (policy : CircuitBreakerPolicy) (st : BreakerState) (op : Op) :
    (op.apply policy st).inFlightClaims = st.inFlightClaims := by
  cases op with
  | dispatch now =>
    simp only [Op.apply, BreakerState.onDispatch]
    split
    · rfl
    · split
      · rfl
      · split <;> rfl
      · split <;> rfl
  | result outcome token now => exact BreakerState.applyResult_claims ..
  | cancelled token now => exact BreakerState.applyCancelled_claims ..
  | externalFailure now => exact BreakerState.applyExternalFailure_claims ..
  | forceOpen now => rfl
  | forceClose =>
    simp only [Op.apply, BreakerState.forceClose]
    split <;> rfl

/-- A call without a claim that is no dispatch passes the fence. -/
theorem other_settles (policy : CircuitBreakerPolicy) (st : BreakerState) (op : Op)
    (h : ∀ now, op ≠ .dispatch now) : BreakerState.Settles st (op.apply policy st) := by
  cases op with
  | dispatch now => exact absurd rfl (h now)
  | result outcome token now => exact BreakerState.settles_applyResult ..
  | cancelled token now => exact BreakerState.settles_applyCancelled ..
  | externalFailure now => exact BreakerState.settles_applyExternalFailure ..
  | forceOpen now => exact BreakerState.settles_forceOpen ..
  | forceClose => exact BreakerState.settles_forceClose ..

theorem apply_claims_other (policy : CircuitBreakerPolicy) (st : BreakerState) (call : Call)
    (claim : ClaimKey) (h : call.claim ≠ some claim) :
    (call.apply policy st).inFlightClaims claim = st.inFlightClaims claim := by
  cases hclaim : call.claim with
  | none =>
    cases call with
    | other op => exact congrFun (other_claims policy st op) claim
    | _ => cases hclaim
  | some owner =>
    refine (apply_local call hclaim).1 claim fun heq => h ?_
    rw [hclaim, heq]

/-! ## The invariant of a desk -/

/-- Holds of every desk that a disciplined run reaches with fewer than `2 ^ 64`
transitions. A probe token of the current generation is in flight. -/
structure Desk.Inv (d : Desk) : Prop where
  generation : d.st.generation = d.transitions
  tokens : ∀ token ∈ d.issued, token.generation ≤ d.st.generation
  live : ∀ token ∈ d.issued, token.isProbe = true → token.generation = d.st.generation →
    d.st.phase = .halfOpen ∧ d.st.probeInFlight = true ∧ d.st.forcedOpen = false
  entries : ∀ claim, Matches (d.account claim) (d.st.inFlightClaims claim)
  begun : ∀ claim token, (d.account claim).token = some token → token ∈ d.issued
  spent : ∀ claim token, (d.account claim).token = some token →
    (d.account claim).confirmed = true → d.st.Spent token

theorem Desk.Inv.start : Desk.start.Inv where
  generation := rfl
  tokens := by simp [Desk.start]
  live := by simp [Desk.start]
  entries _ := .idle false
  begun := by simp [Desk.start, Account.new]
  spent := by simp [Desk.start, Account.new]

/-- A call that settles keeps the tokens behind the fence. -/
theorem Desk.Inv.fence {policy : CircuitBreakerPolicy} {d : Desk} {call : Call} (hinv : d.Inv)
    (hsettles : BreakerState.Settles d.st (call.apply policy d.st))
    (hbound : (d.step policy call).transitions < u64Size) :
    (call.apply policy d.st).generation = (d.step policy call).transitions ∧
      (∀ token ∈ d.issued, token.generation ≤ (call.apply policy d.st).generation) ∧
      (∀ token ∈ d.issued, token.isProbe = true →
        token.generation = (call.apply policy d.st).generation →
        (call.apply policy d.st).phase = .halfOpen ∧
          (call.apply policy d.st).probeInFlight = true ∧
          (call.apply policy d.st).forcedOpen = false) ∧
      (∀ token ∈ d.issued, d.st.Spent token → (call.apply policy d.st).Spent token) := by
  rcases hsettles with ⟨hgen, hphase, hslot, hforced⟩ | hbump
  · simp only [Desk.step, hgen, hphase, hslot, hforced, if_true, BreakerState.Spent]
    exact ⟨hinv.generation, hinv.tokens, hinv.live, fun _ _ h => h⟩
  · have hsucc := BreakerState.bump_eq_succ hbump (by
      simpa [Desk.step, hinv.generation] using hbound)
    refine ⟨by simp [Desk.step, hsucc, hinv.generation], fun token htoken => ?_,
      fun token htoken _ hcurrent => ?_, fun token htoken _ _ => ?_⟩ <;>
    · have := hinv.tokens token htoken
      omega

theorem step_account (policy : CircuitBreakerPolicy) (d : Desk) (call : Call) (claim : ClaimKey) :
    (d.step policy call).account claim =
      if call.claim = some claim then call.enter (d.account claim) else d.account claim := by
  simp only [Desk.step, Desk.accountAfter]
  cases h : call.claim with
  | none => simp
  | some owner =>
    by_cases heq : owner = claim
    · subst heq
      simp
    · simp [heq, Function.update_of_ne (Ne.symm heq)]

theorem Desk.Inv.dispatch {policy : CircuitBreakerPolicy} {d : Desk} {now : Now} (hinv : d.Inv) :
    (d.step policy (.other (.dispatch now))).Inv := by
  rcases d.st.onDispatch_cases policy now with
    ⟨_, _, heq⟩ | ⟨hpin, hphase, heq⟩ | ⟨hpin, heq, hcase⟩
  · have hsame : d.step policy (.other (.dispatch now)) = d := by
      simp [Desk.step, Call.apply, Op.apply, Desk.issuedAfter, Desk.accountAfter, Call.claim, heq]
    rw [hsame]
    exact hinv
  · have hstep : d.step policy (.other (.dispatch now)) =
        { d with issued := d.issued ++ [⟨d.st.generation, false⟩] } := by
      simp [Desk.step, Call.apply, Op.apply, Desk.issuedAfter, Desk.accountAfter, Call.claim, heq]
    rw [hstep]
    refine ⟨hinv.generation, fun token htoken => ?_, fun token htoken hprobe => ?_, hinv.entries,
      fun claim token h => List.mem_append_left _ (hinv.begun claim token h), hinv.spent⟩
    · rcases List.mem_append.mp htoken with h | h
      · exact hinv.tokens token h
      · simp at h
        simp [h]
    · rcases List.mem_append.mp htoken with h | h
      · exact hinv.live token h hprobe
      · simp at h
        simp [h] at hprobe
  · have hstep : d.step policy (.other (.dispatch now)) =
        { d with st := d.st.probing, issued := d.issued ++ [⟨d.st.generation, true⟩] } := by
      simp [Desk.step, Call.apply, Op.apply, Desk.issuedAfter, Desk.accountAfter, Call.claim, heq,
        BreakerState.probing]
    rw [hstep]
    refine ⟨hinv.generation, fun token htoken => ?_, fun token htoken _ _ => ⟨rfl, rfl, hpin⟩,
      hinv.entries, fun claim token h => List.mem_append_left _ (hinv.begun claim token h),
      hinv.spent⟩
    rcases List.mem_append.mp htoken with h | h
    · exact hinv.tokens token h
    · simp at h
      simp [h, BreakerState.probing]

/-! ## The three kinds of a claim's calls -/

/-- The claim reported and no enforcer decides any more. -/
def Account.Settled (a : Account) : Prop := a.report ≠ none ∧ a.deciding = 0

/-- A claim's call leaves the breaker as it is, confirms the timeout, or settles the
report. -/
inductive Kind (policy : CircuitBreakerPolicy) (st st' : BreakerState) (a : Account)
    (claim : ClaimKey) (call : Call) : Prop
  | quiet (hcore : st'.core = st.core) (hconfirmed : (call.enter a).confirmed = a.confirmed)
      (hcall : ∀ counted now, call ≠ .confirm claim counted now)
      (hsettled : a.confirmed = false → (call.enter a).Settled → a.Settled)
      (hstays : a.confirmed = false → a.Settled →
        call.enter a = a ∧ call.reportsOrRollsBack claim = false)
  | confirm (counted : Bool) (now : Now) (hcall : call = .confirm claim counted now)
      (hopen : a.confirmed = false) (hdeciding : 0 < a.deciding)
  | settle (token : DispatchToken) (report : Report) (now : Now)
      (hcall : call = .report claim token report now ∨ call = .unmark claim now)
      (hopen : a.confirmed = false) (hunsettled : ¬ a.Settled) (hafter : (call.enter a).Settled)
      (hreport : (call.enter a).report = some report)
      (htoken : (call.enter a).token = some token)
      (hcore : st'.core = report.settle policy st.core token now)

section Kind

variable {policy : CircuitBreakerPolicy} {st : BreakerState} {claim : ClaimKey} {a : Account}

theorem Matches.unreported (h : Matches a (st.inFlightClaims claim)) (hnew : a.token = none) :
    a.report = none ∧ a.confirmed = false := by
  generalize st.inFlightClaims claim = entry at h
  cases h <;> first | exact ⟨rfl, rfl⟩ | cases hnew

/-- An enforcer that may confirm finds the entry with its token and not timed out. -/
theorem Matches.confirmable (h : Matches a (st.inFlightClaims claim)) {token : DispatchToken}
    (htoken : a.token = some token) (hdeciding : 0 < a.deciding) (hopen : a.confirmed = false) :
    ∃ g state, st.inFlightClaims claim = some ⟨some token, g, state⟩ ∧ state ≠ .timedOut := by
  generalize st.inFlightClaims claim = entry at h
  cases h with
  | provisional t n g marked => cases htoken; exact ⟨g, _, rfl, by simp⟩
  | pending t report n g marked =>
    cases htoken
    exact ⟨g, _, rfl, by cases report <;> simp [Report.pending]⟩
  | idle => cases htoken
  | waiting => cases htoken
  | running => cases hdeciding
  | settled => cases hdeciding
  | timedOut => cases hopen
  | gone => cases hopen
  | late => cases hopen

theorem register_kind (token : DispatchToken) (h : Matches a (st.inFlightClaims claim))
    (hnew : a.token = none) :
    Kind policy st (st.beginClaim claim token) a claim (.register claim token) := by
  refine .quiet (register_matches token h hnew).2 rfl (by simp) (fun _ h => h) ?_
  intro _ hsettled
  exact absurd (h.unreported hnew).1 hsettled.1

theorem mark_kind (hmark : Desk.openMark a) :
    Kind policy st (st.markClaimTimedOut claim) a claim (.mark claim) := by
  refine .quiet rfl rfl (by simp) (fun _ h => absurd h.2 (by simp [Call.enter])) ?_
  intro hopen hsettled
  rcases hmark with h | h | h
  · exact absurd h hsettled.1
  · exact absurd hsettled.2 (by omega)
  · rw [hopen] at h
    cases h

theorem finish_kind (h : Matches a (st.inFlightClaims claim)) (hdone : a.report ≠ none) :
    Kind policy st (st.endClaim claim) a claim (.finish claim) :=
  .quiet (finish_matches h hdone).2 rfl (by simp) (fun _ h => h) fun _ _ => ⟨rfl, rfl⟩

theorem report_kind (token : DispatchToken) (report : Report) (now : Now)
    (h : Matches a (st.inFlightClaims claim)) (htoken : a.token = some token)
    (hnew : a.report = none) (hspent : a.confirmed = true → st.Spent token) :
    Kind policy st ((Call.report claim token report now).apply policy st) a claim
      (.report claim token report now) := by
  obtain ⟨_, hsettle, hquiet⟩ :=
    @report_matches policy st claim a token report now h htoken hnew hspent
  have hunsettled : ¬ a.Settled := fun h => h.1 hnew
  cases hconfirmed : a.confirmed with
  | true =>
    exact .quiet (hquiet (.inr hconfirmed)) rfl (by simp) (by simp [hconfirmed])
      (by simp [hconfirmed])
  | false =>
    by_cases hdeciding : a.deciding = 0
    · exact .settle token report now (.inl rfl) hconfirmed hunsettled
        ⟨by simp [Call.enter], hdeciding⟩ rfl htoken (hsettle hdeciding hconfirmed)
    · exact .quiet (hquiet (.inl (by omega))) rfl (by simp) (fun _ h => absurd h.2 hdeciding)
        fun _ h => absurd h hunsettled

theorem unmark_kind (now : Now) (h : Matches a (st.inFlightClaims claim))
    (hdeciding : 0 < a.deciding) :
    Kind policy st (st.unmarkClaimTimedOut policy claim now).1 a claim (.unmark claim now) := by
  obtain ⟨_, hsettle, hquiet⟩ := @unmark_matches policy st claim a now h hdeciding
  have hunsettled : ¬ a.Settled := fun h => absurd h.2 (by omega)
  cases hconfirmed : a.confirmed with
  | true =>
    exact .quiet (hquiet (.inr (.inr hconfirmed))) rfl (by simp) (by simp [hconfirmed])
      (by simp [hconfirmed])
  | false =>
    cases hreport : a.report with
    | none =>
      exact .quiet (hquiet (.inl hreport)) rfl (by simp) (fun _ h => absurd hreport h.1)
        fun _ h => absurd h hunsettled
    | some report =>
      by_cases hone : a.deciding = 1
      · cases htoken : a.token with
        | none => simp [(h.unreported htoken).1] at hreport
        | some token =>
          exact .settle token report now (.inr rfl) hconfirmed hunsettled
            ⟨by simp [Call.enter, hreport], by simp [Call.enter, hone]⟩ hreport htoken
            (hsettle token report htoken hreport hone hconfirmed)
      · refine .quiet (hquiet (.inr (.inl hone))) rfl (by simp) (fun _ h => ?_)
          fun _ h => absurd h hunsettled
        have := h.2
        simp only [Call.enter] at this
        omega

end Kind

theorem Desk.Inv.kind {policy : CircuitBreakerPolicy} {d : Desk} {call : Call} {claim : ClaimKey}
    (hinv : d.Inv) (hcall : d.Allowed Desk.openMark call) (hclaim : call.claim = some claim) :
    Kind policy d.st (call.apply policy d.st) (d.account claim) claim call := by
  have hentry := hinv.entries claim
  cases call with
  | other op => cases hclaim
  | register c token => cases hclaim; exact register_kind token hentry hcall.2
  | report c token report now =>
    cases hclaim
    exact report_kind token report now hentry hcall.1 hcall.2 (hinv.spent claim token hcall.1)
  | finish c => cases hclaim; exact finish_kind hentry hcall
  | mark c => cases hclaim; exact mark_kind hcall.1
  | confirm c counted now => cases hclaim; exact .confirm counted now rfl hcall.2.2 hcall.2.1
  | unmark c now => cases hclaim; exact unmark_kind now hentry hcall

theorem Desk.Inv.entry_after {policy : CircuitBreakerPolicy} {d : Desk} {call : Call}
    {claim : ClaimKey} (hinv : d.Inv) (hcall : d.Allowed Desk.openMark call)
    (hclaim : call.claim = some claim) :
    Matches (call.enter (d.account claim)) ((call.apply policy d.st).inFlightClaims claim) := by
  have hentry := hinv.entries claim
  cases call with
  | other op => cases hclaim
  | register c token => cases hclaim; exact (register_matches token hentry hcall.2).1
  | report c token report now =>
    cases hclaim
    exact (report_matches token report now hentry hcall.1 hcall.2
      (hinv.spent claim token hcall.1)).1
  | finish c => cases hclaim; exact (finish_matches hentry hcall).1
  | mark c => cases hclaim; exact mark_matches hentry hcall.1 hcall.2
  | confirm c counted now =>
    cases hclaim
    exact confirm_matches counted now hentry hcall.1 hcall.2.1 hcall.2.2
  | unmark c now => cases hclaim; exact (unmark_matches now hentry hcall).1

/-- The confirm of a probe in flight re-opens the breaker. -/
theorem confirm_probe_bumps (policy : CircuitBreakerPolicy) (st : BreakerState) (claim : ClaimKey)
    (token : DispatchToken) (counted : Bool) (now : Now) (g : Nat) (state : ClaimState)
    (hentry : st.inFlightClaims claim = some ⟨some token, g, state⟩) (hstate : state ≠ .timedOut)
    (hprobe : token.isProbe = true) (hcurrent : token.generation = st.generation)
    (hlive : st.phase = .halfOpen ∧ st.probeInFlight = true ∧ st.forcedOpen = false) :
    (st.confirmClaimTimedOut policy claim counted now).1.generation = st.nextGeneration := by
  obtain ⟨claims, hclaims⟩ : ∃ claims, st.confirmEntry claim ⟨some token, g, state⟩ =
      { st with inFlightClaims := claims } := by
    unfold BreakerState.confirmEntry
    split <;> exact ⟨_, rfl⟩
  obtain ⟨hphase, hslot, hforced⟩ := hlive
  rw [confirm_eq counted now token g state hentry hstate, hclaims]
  simp [BreakerState.confirmCount, BreakerState.applyCancelled, hprobe, hcurrent, hphase, hslot,
    hforced, BreakerState.trip, BreakerState.bumpGeneration, BreakerState.nextGeneration]

/-- A confirm spends the token of its claim. -/
theorem Desk.Inv.confirm_spends {policy : CircuitBreakerPolicy} {d : Desk} {claim : ClaimKey}
    {token : DispatchToken} {counted : Bool} {now : Now} (hinv : d.Inv)
    (hcall : d.Allowed Desk.openMark (.confirm claim counted now))
    (htoken : (d.account claim).token = some token)
    (hbound : (d.step policy (.confirm claim counted now)).transitions < u64Size) :
    ((Call.confirm claim counted now).apply policy d.st).Spent token := by
  intro hprobe
  have hissued := hinv.begun claim token htoken
  have hle := hinv.tokens token hissued
  by_cases hcurrent : token.generation = d.st.generation
  · obtain ⟨g, state, hentry, hstate⟩ :=
      (hinv.entries claim).confirmable htoken hcall.2.1 hcall.2.2
    have hbump := confirm_probe_bumps policy d.st claim token counted now g state hentry hstate
      hprobe hcurrent (hinv.live token hissued hprobe hcurrent)
    have hsucc := @BreakerState.bump_eq_succ d.st
      ((Call.confirm claim counted now).apply policy d.st) hbump (by
        simpa [Desk.step, hinv.generation] using hbound)
    omega
  · have hspent := (hinv.fence (apply_local _ rfl).2 hbound).2.2.2 token hissued
    exact hspent (fun _ => hcurrent) hprobe

/-- **Step lemma.** Every disciplined call keeps the invariant. -/
theorem Desk.Inv.step {policy : CircuitBreakerPolicy} {d : Desk} {call : Call} (hinv : d.Inv)
    (hcall : d.Allowed Desk.openMark call)
    (hbound : (d.step policy call).transitions < u64Size) : (d.step policy call).Inv := by
  by_cases hdispatch : ∃ now, call = .other (.dispatch now)
  · obtain ⟨now, rfl⟩ := hdispatch
    exact hinv.dispatch
  have hissued : (d.step policy call).issued = d.issued := by
    simp only [Desk.step, Desk.issuedAfter]
    split
    · exact absurd ⟨_, rfl⟩ hdispatch
    · rfl
  have hsettles : BreakerState.Settles d.st (call.apply policy d.st) := by
    cases hclaim : call.claim with
    | some claim => exact (apply_local call hclaim).2
    | none =>
      cases call with
      | other op => exact other_settles policy d.st op fun now h => hdispatch ⟨now, by rw [h]⟩
      | _ => cases hclaim
  obtain ⟨hgen, htokens, hlive, hspent⟩ := hinv.fence hsettles hbound
  refine ⟨hgen, by rw [hissued]; exact htokens, by rw [hissued]; exact hlive, fun claim => ?_,
    fun claim token => ?_, fun claim token => ?_⟩
  · rw [step_account]
    split
    · rename_i hclaim
      exact hinv.entry_after hcall hclaim
    · rename_i hclaim
      simp only [Desk.step, apply_claims_other policy d.st call claim hclaim]
      exact hinv.entries claim
  · rw [step_account, hissued]
    split
    · rename_i hclaim
      cases call with
      | register c t =>
        rintro ⟨⟩
        exact hcall.1
      | _ => exact hinv.begun claim token
    · exact hinv.begun claim token
  · rw [step_account]
    split
    · rename_i hclaim
      intro htoken hconfirmed
      cases call with
      | other op => cases hclaim
      | register c t =>
        cases hclaim
        have := ((hinv.entries claim).unreported hcall.2).2
        simp [Call.enter, this] at hconfirmed
      | confirm c counted now => cases hclaim; exact hinv.confirm_spends hcall htoken hbound
      | _ =>
        exact hspent token (hinv.begun claim token htoken) (hinv.spent claim token htoken hconfirmed)
    · intro htoken hconfirmed
      exact hspent token (hinv.begun claim token htoken) (hinv.spent claim token htoken hconfirmed)

/-- **Run lemma.** -/
theorem Desk.inv_of_legal {policy : CircuitBreakerPolicy} {calls : List Call}
    (hlegal : Legal (Desk.step policy) (Desk.Allowed Desk.openMark) Desk.start calls)
    (hbound : (exec (Desk.step policy) Desk.start calls).transitions < u64Size) :
    (exec (Desk.step policy) Desk.start calls).Inv := by
  refine invariant (P := fun d => d.transitions < u64Size → d.Inv)
    (fun d call hinv hcall hbound => ?_) (fun _ => Desk.Inv.start) hlegal hbound
  have hle : d.transitions ≤ (d.step policy call).transitions := Nat.le_add_right _ _
  exact (hinv (by omega)).step hcall hbound

/-! ## Positions of a run -/

namespace Desk

/-- Call `i` of the run left the breaker as it was. -/
def QuietAt (policy : CircuitBreakerPolicy) (calls : List Call) (i : Nat) : Prop :=
  (before policy calls (i + 1)).st.core = (before policy calls i).st.core

/-- Every call of `claim` except call `i` left the breaker as it was. -/
def QuietExcept (policy : CircuitBreakerPolicy) (calls : List Call) (claim : ClaimKey)
    (i : Nat) : Prop :=
  ∀ j call, calls[j]? = some call → call.claim = some claim → j ≠ i → QuietAt policy calls j

/-- Call `i` of the run is one of `claim`'s and changed the failure window or the phase. -/
def Moves (policy : CircuitBreakerPolicy) (calls : List Call) (claim : ClaimKey) (i : Nat) : Prop :=
  ∃ call, calls[i]? = some call ∧ call.claim = some claim ∧
    ((before policy calls (i + 1)).st.failures ≠ (before policy calls i).st.failures ∨
      (before policy calls (i + 1)).st.phase ≠ (before policy calls i).st.phase)

theorem before_append (policy : CircuitBreakerPolicy) (calls : List Call) (call : Call) {i : Nat}
    (hi : i ≤ calls.length) : before policy (calls ++ [call]) i = before policy calls i := by
  simp [before, List.take_append_of_le_length hi]

theorem before_length (policy : CircuitBreakerPolicy) (calls : List Call) :
    before policy calls calls.length = exec (step policy) start calls := by
  simp [before]

theorem before_last (policy : CircuitBreakerPolicy) (calls : List Call) (call : Call) :
    before policy (calls ++ [call]) (calls.length + 1) =
      (before policy calls calls.length).step policy call := by
  have htake : (calls ++ [call]).take (calls.length + 1) = calls ++ [call] :=
    List.take_of_length_le (by simp)
  rw [before_length, before, htake, exec_append]
  rfl

theorem quietAt_append (policy : CircuitBreakerPolicy) (calls : List Call) (call : Call) {i : Nat}
    (hi : i < calls.length) :
    QuietAt policy (calls ++ [call]) i ↔ QuietAt policy calls i := by
  simp only [QuietAt, before_append policy calls call (Nat.le_of_lt hi),
    before_append policy calls call hi]

theorem getElem?_append_cases {calls : List Call} {call call' : Call} {j : Nat}
    (h : (calls ++ [call])[j]? = some call') :
    (j < calls.length ∧ calls[j]? = some call') ∨ (j = calls.length ∧ call' = call) := by
  rcases Nat.lt_or_ge j calls.length with hj | hj
  · exact .inl ⟨hj, by rwa [List.getElem?_append_left hj] at h⟩
  · rw [List.getElem?_append_right hj] at h
    have : j - calls.length = 0 := by
      by_contra hne
      rw [List.getElem?_eq_none (by simp; omega)] at h
      cases h
    rw [this] at h
    exact .inr ⟨by omega, by simpa using h.symm⟩

/-- A quiet last call extends the quiet positions. -/
theorem quietExcept_append {policy : CircuitBreakerPolicy} {calls : List Call} {call : Call}
    {claim : ClaimKey} {i : Nat} (h : QuietExcept policy calls claim i)
    (hlast : call.claim = some claim → calls.length ≠ i →
      ((before policy calls calls.length).step policy call).st.core =
        (before policy calls calls.length).st.core) :
    QuietExcept policy (calls ++ [call]) claim i := by
  intro j call' hj hclaim hne
  rcases getElem?_append_cases hj with ⟨hlt, hj⟩ | ⟨rfl, rfl⟩
  · exact (quietAt_append policy calls call hlt).mpr (h j call' hj hclaim hne)
  · rw [QuietAt, before_last, before_append policy calls call' (Nat.le_refl _)]
    exact hlast hclaim hne

end Desk

/-- What a run did for one claim. -/
structure Tally (policy : CircuitBreakerPolicy) (calls : List Call) (claim : ClaimKey)
    (a : Account) : Prop where
  /-- While no enforcer confirmed, no confirm is in the run. -/
  unconfirmed : a.confirmed = false →
    ∀ (i : Nat) counted now, calls[i]? ≠ some (Call.confirm claim counted now)
  /-- Neither confirmed nor settled: every call was quiet. -/
  pending : a.confirmed = false → ¬ a.Settled →
    ∀ j call, calls[j]? = some call → call.claim = some claim → Desk.QuietAt policy calls j
  /-- Settled: the last report or rollback applied the report, every other call was quiet. -/
  settled : a.confirmed = false → a.Settled → ∃ i call token report now, calls[i]? = some call ∧
    (call = .report claim token report now ∨ call = .unmark claim now) ∧
    (∀ j call', i < j → calls[j]? = some call' → call'.reportsOrRollsBack claim = false) ∧
    a.token = some token ∧ a.report = some report ∧
    (Desk.before policy calls (i + 1)).st.core =
      report.settle policy (Desk.before policy calls i).st.core token now ∧
    Desk.QuietExcept policy calls claim i
  /-- Confirmed: every call but the one confirm was quiet. -/
  confirmed : a.confirmed = true → ∃ i, Desk.QuietExcept policy calls claim i ∧
    (∃ counted now, calls[i]? = some (Call.confirm claim counted now)) ∧
    ∀ (j : Nat) counted now, calls[j]? = some (Call.confirm claim counted now) → j = i

section Tally

variable {policy : CircuitBreakerPolicy} {calls : List Call} {call : Call} {claim : ClaimKey}
  {a a' : Account}

theorem Tally.nil (claim : ClaimKey) : Tally policy [] claim .new where
  unconfirmed := by simp
  pending := by simp
  settled _ h := absurd rfl h.1
  confirmed h := by cases h

/-- A call that is quiet for the claim keeps the tally. -/
theorem Tally.calm (h : Tally policy calls claim a)
    (hquiet : call.claim = some claim →
      ((Desk.before policy calls calls.length).step policy call).st.core =
        (Desk.before policy calls calls.length).st.core)
    (hcall : ∀ counted now, call ≠ .confirm claim counted now)
    (hconfirmed : a'.confirmed = a.confirmed)
    (hsettled : a.confirmed = false → a'.Settled → a.Settled)
    (hstays : a.confirmed = false → a.Settled →
      a' = a ∧ call.reportsOrRollsBack claim = false) :
    Tally policy (calls ++ [call]) claim a' := by
  refine ⟨fun hopen i counted now hi => ?_, fun hopen hun => ?_, fun hopen hset => ?_,
    fun hconf => ?_⟩
  · rcases Desk.getElem?_append_cases hi with ⟨_, hi⟩ | ⟨_, heq⟩
    · exact h.unconfirmed (hconfirmed ▸ hopen) i counted now hi
    · exact hcall counted now heq.symm
  · have hopen : a.confirmed = false := hconfirmed ▸ hopen
    have hunsettled : ¬ a.Settled := fun hset => hun ((hstays hopen hset).1 ▸ hset)
    intro j call' hj hclaim
    rcases Desk.getElem?_append_cases hj with ⟨hlt, hj⟩ | ⟨rfl, rfl⟩
    · exact (Desk.quietAt_append policy calls call hlt).mpr
        (h.pending hopen hunsettled j call' hj hclaim)
    · rw [Desk.QuietAt, Desk.before_last, Desk.before_append policy calls call' (Nat.le_refl _)]
      exact hquiet hclaim
  · have hopen : a.confirmed = false := hconfirmed ▸ hopen
    have hset : a.Settled := hsettled hopen hset
    obtain ⟨rfl, hnot⟩ := hstays hopen hset
    obtain ⟨i, applied, token, report, now, hi, happlied, hlast, htoken, hreport, hcore, hothers⟩ :=
      h.settled hopen hset
    have hlt : i < calls.length := (List.getElem?_eq_some_iff.mp hi).1
    refine ⟨i, applied, token, report, now, by rwa [List.getElem?_append_left hlt], happlied, ?_,
      htoken, hreport, ?_, Desk.quietExcept_append hothers fun hclaim _ => hquiet hclaim⟩
    · intro j call' hij hj
      rcases Desk.getElem?_append_cases hj with ⟨_, hj⟩ | ⟨_, rfl⟩
      · exact hlast j call' hij hj
      · exact hnot
    · rw [Desk.before_append policy calls call hlt,
        Desk.before_append policy calls call (Nat.le_of_lt hlt)]
      exact hcore
  · obtain ⟨i, hothers, ⟨counted, now, hi⟩, hone⟩ := h.confirmed (hconfirmed ▸ hconf)
    have hlt : i < calls.length := (List.getElem?_eq_some_iff.mp hi).1
    refine ⟨i, Desk.quietExcept_append hothers fun hclaim _ => hquiet hclaim,
      ⟨counted, now, by rwa [List.getElem?_append_left hlt]⟩, ?_⟩
    intro j counted now hj
    rcases Desk.getElem?_append_cases hj with ⟨_, hj⟩ | ⟨_, heq⟩
    · exact hone j counted now hj
    · exact absurd heq.symm (hcall counted now)

/-- Until then every call was quiet. -/
theorem Tally.quietExcept_length (h : Tally policy calls claim a) (hopen : a.confirmed = false)
    (hunsettled : ¬ a.Settled) :
    Desk.QuietExcept policy (calls ++ [call]) claim calls.length :=
  Desk.quietExcept_append (fun j call' hj hclaim _ => h.pending hopen hunsettled j call' hj hclaim)
    fun _ hne => absurd rfl hne

theorem Tally.step (h : Tally policy calls claim ((Desk.before policy calls calls.length).account claim))
    (hinv : (Desk.before policy calls calls.length).Inv)
    (hallowed : (Desk.before policy calls calls.length).Allowed Desk.openMark call) :
    Tally policy (calls ++ [call]) claim
      (((Desk.before policy calls calls.length).step policy call).account claim) := by
  rw [step_account]
  split
  · rename_i hclaim
    have hkind : Kind policy _ _ _ claim call := hinv.kind hallowed hclaim
    cases hkind with
    | quiet hcore hconfirmed hcall hsettled hstays =>
      exact h.calm (fun _ => hcore) hcall hconfirmed hsettled hstays
    | confirm counted now hcall hopen hdeciding =>
      subst hcall
      refine ⟨by simp [Call.enter], by simp [Call.enter], by simp [Call.enter], fun _ => ?_⟩
      refine ⟨calls.length, h.quietExcept_length hopen fun hset => by have := hset.2; omega,
        ⟨counted, now, by simp⟩, ?_⟩
      intro j counted' now' hj
      rcases Desk.getElem?_append_cases hj with ⟨_, hj⟩ | ⟨rfl, _⟩
      · exact absurd hj (h.unconfirmed hopen j counted' now')
      · rfl
    | settle token report now hcall hopen hunsettled hafter hreport htoken hcore =>
      have hconfirmed : (call.enter ((Desk.before policy calls calls.length).account claim)).confirmed
          = false := by
        rcases hcall with rfl | rfl <;> exact hopen
      refine ⟨fun _ i counted now' hi => ?_, fun _ hun => absurd hafter hun, fun _ _ => ?_,
        fun hconf => by rw [hconfirmed] at hconf; cases hconf⟩
      · rcases Desk.getElem?_append_cases hi with ⟨_, hi⟩ | ⟨_, heq⟩
        · exact h.unconfirmed hopen i counted now' hi
        · rcases hcall with rfl | rfl <;> cases heq
      · refine ⟨calls.length, call, token, report, now, by simp, hcall, ?_, htoken, hreport, ?_,
          h.quietExcept_length hopen hunsettled⟩
        · intro j call' hlt hj
          rcases Desk.getElem?_append_cases hj with ⟨hj, _⟩ | ⟨rfl, _⟩ <;> omega
        · rw [Desk.before_last, Desk.before_append policy calls call (Nat.le_refl _)]
          exact hcore
  · rename_i hclaim
    refine h.calm (fun hc => absurd hc hclaim) (fun counted now heq => hclaim (by rw [heq]; rfl)) rfl
      (fun _ hset => hset) fun _ _ => ⟨rfl, ?_⟩
    cases call with
    | report c token report now =>
      simpa [Call.reportsOrRollsBack, Call.claim] using hclaim
    | unmark c now => simpa [Call.reportsOrRollsBack, Call.claim] using hclaim
    | _ => rfl

/-- **Run lemma.** -/
theorem tally_of_legal (claim : ClaimKey)
    (hlegal : Legal (Desk.step policy) (Desk.Allowed Desk.openMark) Desk.start calls)
    (hbound : (exec (Desk.step policy) Desk.start calls).transitions < u64Size) :
    Tally policy calls claim ((exec (Desk.step policy) Desk.start calls).account claim) := by
  induction calls using List.reverseRecOn with
  | nil => exact Tally.nil claim
  | append_singleton calls call ih =>
    obtain ⟨hlegal, hallowed⟩ := (legal_concat _ _ _ calls call).mp hlegal
    rw [exec_append] at hbound ⊢
    have hle : (exec (Desk.step policy) Desk.start calls).transitions ≤
        ((exec (Desk.step policy) Desk.start calls).step policy call).transitions :=
      Nat.le_add_right _ _
    have hbound' : (exec (Desk.step policy) Desk.start calls).transitions < u64Size :=
      Nat.lt_of_le_of_lt hle hbound
    have hinv := Desk.inv_of_legal hlegal hbound'
    have htally := ih hlegal hbound'
    rw [← Desk.before_length] at hinv htally hallowed
    have hstep := htally.step hinv hallowed
    rwa [Desk.before_length] at hstep

end Tally

/-! ## Accounting -/

theorem quietAt_not_moves {policy : CircuitBreakerPolicy} {calls : List Call} {claim : ClaimKey}
    {i : Nat} (hquiet : Desk.QuietAt policy calls i) : ¬ Desk.Moves policy calls claim i := by
  rintro ⟨_, _, _, hfailures | hphase⟩
  · exact hfailures (by simpa using congrArg BreakerState.failures hquiet)
  · exact hphase (by simpa using congrArg BreakerState.phase hquiet)

theorem Desk.QuietExcept.moves_eq {policy : CircuitBreakerPolicy} {calls : List Call}
    {claim : ClaimKey} {i j : Nat} (h : Desk.QuietExcept policy calls claim i)
    (hj : Desk.Moves policy calls claim j) : j = i := by
  by_contra hne
  obtain ⟨call, hcall, hclaim, _⟩ := id hj
  exact quietAt_not_moves (h j call hcall hclaim hne) hj

/-- **Accounting of one claim.** In every run in which each mark comes before the
report, while another enforcer still decides, or after the confirm: at most one of the
claim's calls changes the failure window or the phase; if an enforcer confirms, every
other call of the claim leaves the breaker as it is; if none does, the report is applied
once, at the later of the report and the last rollback; and no entry remains. -/
theorem claim_accounting (policy : CircuitBreakerPolicy) (calls : List Call) (claim : ClaimKey)
    (hlegal : Legal (Desk.step policy) (Desk.Allowed Desk.openMark) Desk.start calls)
    (hbound : (exec (Desk.step policy) Desk.start calls).transitions < u64Size) :
    (∀ i j, Desk.Moves policy calls claim i → Desk.Moves policy calls claim j → i = j) ∧
    (∀ (i : Nat) counted now, calls[i]? = some (Call.confirm claim counted now) →
      Desk.QuietExcept policy calls claim i) ∧
    ((∀ (i : Nat) counted now, calls[i]? ≠ some (Call.confirm claim counted now)) →
      ∀ report, ((exec (Desk.step policy) Desk.start calls).account claim).report = some report →
      ((exec (Desk.step policy) Desk.start calls).account claim).deciding = 0 →
      ∃ i call token now, calls[i]? = some call ∧
        (call = .report claim token report now ∨ call = .unmark claim now) ∧
        (∀ j call', i < j → calls[j]? = some call' → call'.reportsOrRollsBack claim = false) ∧
        ((exec (Desk.step policy) Desk.start calls).account claim).token = some token ∧
        (Desk.before policy calls (i + 1)).st.core =
          report.settle policy (Desk.before policy calls i).st.core token now ∧
        Desk.QuietExcept policy calls claim i) ∧
    (((exec (Desk.step policy) Desk.start calls).account claim).token = none ∨
        ((exec (Desk.step policy) Desk.start calls).account claim).report ≠ none →
      ((exec (Desk.step policy) Desk.start calls).account claim).deciding = 0 →
      (exec (Desk.step policy) Desk.start calls).st.inFlightClaims claim = none) := by
  have htally := tally_of_legal claim hlegal hbound
  have hentry := (Desk.inv_of_legal hlegal hbound).entries claim
  generalize (exec (Desk.step policy) Desk.start calls).account claim = a at htally hentry ⊢
  generalize (exec (Desk.step policy) Desk.start calls).st.inFlightClaims claim = entry at hentry ⊢
  refine ⟨fun i j hi hj => ?_, fun i counted now hi => ?_, fun hnone report hreport hdeciding => ?_,
    fun hdone hdeciding => ?_⟩
  · cases hconfirmed : a.confirmed with
    | true =>
      obtain ⟨k, hothers, _, _⟩ := htally.confirmed hconfirmed
      rw [hothers.moves_eq hi, hothers.moves_eq hj]
    | false =>
      by_cases hsettled : a.Settled
      · obtain ⟨k, _, _, _, _, _, _, _, _, _, _, hothers⟩ := htally.settled hconfirmed hsettled
        rw [hothers.moves_eq hi, hothers.moves_eq hj]
      · obtain ⟨call, hcall, hclaim, _⟩ := id hi
        exact absurd hi
          (quietAt_not_moves (htally.pending hconfirmed hsettled i call hcall hclaim))
  · cases hconfirmed : a.confirmed with
    | true =>
      obtain ⟨k, hothers, _, hone⟩ := htally.confirmed hconfirmed
      rw [hone i counted now hi]
      exact hothers
    | false => exact absurd hi (htally.unconfirmed hconfirmed i counted now)
  · have hsettled : a.Settled := ⟨by simp [hreport], hdeciding⟩
    cases hconfirmed : a.confirmed with
    | true =>
      obtain ⟨k, _, ⟨counted, now, hk⟩, _⟩ := htally.confirmed hconfirmed
      exact absurd hk (hnone k counted now)
    | false =>
      obtain ⟨i, call, token, report', now, hi, hcall, hlast, htoken, hreport', hcore, hothers⟩ :=
        htally.settled hconfirmed hsettled
      obtain rfl : report' = report := by simpa [hreport] using hreport'.symm
      exact ⟨i, call, token, now, hi, hcall, hlast, htoken, hcore, hothers⟩
  · cases hentry with
    | late token report n m g marked state hpos hle =>
      simp only at hdeciding
      omega
    | idle => rfl
    | settled => rfl
    | gone => rfl
    | running => simp at hdone
    | timedOut => simp at hdone
    | waiting => cases hdeciding
    | provisional => cases hdeciding
    | pending => cases hdeciding

/-- Two enforcers race on a claim whose failure is held: one rolls back, the other
confirms. Only the confirm moves the breaker, and the entry is gone. -/
theorem claim_accounting_racing :
    let policy : CircuitBreakerPolicy := ⟨3, 30, 60⟩
    let claim : ClaimKey := ⟨1809, 1, none⟩
    let calls : List Call := [.other (.dispatch ⟨0, 0⟩), .register claim ⟨0, false⟩, .mark claim,
      .mark claim, .report claim ⟨0, false⟩ (.result .retryableFailure) ⟨1, 1⟩,
      .unmark claim ⟨2, 2⟩, .confirm claim true ⟨3, 3⟩]
    Desk.Moves policy calls claim 6 ∧ Desk.QuietExcept policy calls claim 6 ∧
      (exec (Desk.step policy) Desk.start calls).st.inFlightClaims claim = none := by
  intro policy claim calls
  have hlegal : Legal (Desk.step policy) (Desk.Allowed Desk.openMark) Desk.start calls := by
    decide
  obtain ⟨_, hconfirm, _, hentry⟩ := claim_accounting policy calls claim hlegal (by decide)
  exact ⟨⟨_, rfl, rfl, .inl (by decide)⟩, hconfirm 6 true ⟨3, 3⟩ rfl,
    hentry (.inr (by decide)) (by decide)⟩

/-- The proviso on marks is needed: an enforcer marks and rolls back before the report,
the failure is applied, and a second enforcer marks after that. Its confirm finds no
trace of the report, so the claim counts twice. -/
theorem late_mark_counts_twice :
    let policy : CircuitBreakerPolicy := ⟨3, 30, 60⟩
    let claim : ClaimKey := ⟨1809, 1, none⟩
    let calls : List Call := [.other (.dispatch ⟨0, 0⟩), .register claim ⟨0, false⟩, .mark claim,
      .unmark claim ⟨1, 1⟩, .report claim ⟨0, false⟩ (.result .retryableFailure) ⟨2, 2⟩,
      .mark claim, .confirm claim true ⟨3, 3⟩]
    Legal (Desk.step policy) (Desk.Allowed Desk.firstMark) Desk.start calls ∧
      (exec (Desk.step policy) Desk.start calls).transitions = 0 ∧
      Desk.Moves policy calls claim 4 ∧ Desk.Moves policy calls claim 6 := by
  intro policy claim calls
  exact ⟨by decide, by decide, ⟨_, rfl, rfl, .inl (by decide)⟩, ⟨_, rfl, rfl, .inl (by decide)⟩⟩

end Harvest.Breaker
