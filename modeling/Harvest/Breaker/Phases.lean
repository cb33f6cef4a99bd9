import Mathlib.Data.List.Count
import Mathlib.Data.List.Induction
import Harvest.Lib.Run
import Harvest.Breaker.Fence

/-!
# Breaker phases over whole runs

Runs of dispatches, reports, out-of-band failures and operator actions on one
breaker, with the tokens that were issued and not reported yet, and the failures
and successes that were observed, kept beside the breaker.

Proved here:
* `apply_effect`: what one call can do to a breaker.
* `Inv.step`, `reachable_inv`: the invariant that ties phase, generation, window
  and outstanding tokens together.
* `phases_over_runs`: half-open means one outstanding probe, stale reports are
  fenced, the breaker opens exactly at the threshold, and it re-admits with a probe
  after the cooldown.
-/

namespace Harvest.Breaker

open Harvest.Lib

/-! ## Calls, tokens and observations -/

/-- The calls of a run. -/
inductive Op
  | dispatch (now : Now)
  | result (outcome : AttemptOutcome) (token : DispatchToken) (now : Now)
  | cancelled (token : DispatchToken) (now : Now)
  | externalFailure (now : Now)
  | forceOpen (now : Now)
  | forceClose
deriving DecidableEq, Repr

namespace Op

def apply (policy : CircuitBreakerPolicy) (st : BreakerState) : Op → BreakerState
  | dispatch now => (st.onDispatch policy now).1
  | result outcome token now => (st.onResult policy outcome token now).1
  | cancelled token now => st.onCancelled token now
  | externalFailure now => (st.onExternalFailure policy now).1
  | forceOpen now => st.forceOpen now
  | forceClose => st.forceClose

def instant : Op → Option Nat
  | dispatch now | result _ _ now | cancelled _ now | externalFailure now | forceOpen now =>
    some now.instant
  | forceClose => none

/-- The token that the call reports on. -/
def reported : Op → Option DispatchToken
  | result _ token _ | cancelled token _ => some token
  | _ => none

end Op

/-- A retryable or out-of-band failure, or a success, with its generation. -/
inductive Observation
  | failure (generation instant : Nat)
  | success (generation : Nat)
deriving DecidableEq, Repr

def Observation.generation : Observation → Nat
  | failure generation _ => generation
  | success generation => generation

/-- A result belongs to the generation of its token, an out-of-band failure to the
generation that it finds. -/
def Op.observed (st : BreakerState) : Op → Option Observation
  | .result .success token _ => some (.success token.generation)
  | .result .retryableFailure token now => some (.failure token.generation now.instant)
  | .externalFailure now => some (.failure st.generation now.instant)
  | _ => none

/-- The failures of `generation` since its last success, oldest first. -/
def failureRun (generation : Nat) (log : List Observation) : List Nat :=
  log.foldl (fun run seen => match seen with
    | .failure g t => if g = generation then run ++ [t] else run
    | .success g => if g = generation then [] else run) []

/-- Those of them that lie within `window` before `now`. -/
def failuresWithin (window now generation : Nat) (log : List Observation) : List Nat :=
  (failureRun generation log).filter fun t => now - t ≤ window

/-- A breaker with its outstanding tokens, the log of its observations, the time of
the last call and the number of generation bumps so far. -/
structure World where
  st : BreakerState
  outstanding : List DispatchToken
  log : List Observation
  clock : Nat
  transitions : Nat

namespace World

def start : World := ⟨.default, [], [], 0, 0⟩

def outstandingAfter (policy : CircuitBreakerPolicy) (w : World) : Op → List DispatchToken
  | .dispatch now => match (w.st.onDispatch policy now).2 with
    | .allow token => w.outstanding ++ [token]
    | .shortCircuit _ _ => w.outstanding
  | .result _ token _ | .cancelled token _ => w.outstanding.erase token
  | _ => w.outstanding

def step (policy : CircuitBreakerPolicy) (w : World) (op : Op) : World where
  st := op.apply policy w.st
  outstanding := w.outstandingAfter policy op
  log := w.log ++ (op.observed w.st).toList
  clock := op.instant.getD w.clock
  transitions := w.transitions + if (op.apply policy w.st).generation = w.st.generation then 0 else 1

/-- Time does not go back, and a report uses up an outstanding token. -/
def Allowed (w : World) (op : Op) : Prop :=
  (∀ t ∈ op.instant, w.clock ≤ t) ∧ ∀ token ∈ op.reported, token ∈ w.outstanding

instance (w : World) (op : Op) : Decidable (w.Allowed op) :=
  inferInstanceAs (Decidable (_ ∧ _))

/-- `w` is what some run from the new breaker reaches. -/
def Reachable (policy : CircuitBreakerPolicy) (w : World) : Prop :=
  ∃ ops, Legal (step policy) Allowed start ops ∧ exec (step policy) start ops = w

/-- The dispatch calls of the run were all short-circuited. -/
def NoneAdmitted (policy : CircuitBreakerPolicy) : World → List Op → Prop
  | _, [] => True
  | w, op :: rest =>
    (∀ now token, op = .dispatch now → (w.st.onDispatch policy now).2 ≠ .allow token) ∧
      NoneAdmitted policy (w.step policy op) rest

end World

/-! ## What one call can do -/

/-- The failure window after a failure at `now` was pushed and pruned. -/
def BreakerState.recent (st : BreakerState) (policy : CircuitBreakerPolicy) (now : Now) :
    List Nat :=
  pruneFailures now.instant policy.window (st.failures ++ [now.instant])

/-- The effect of a call on a breaker whose probe slot and pin agree with its
phase. -/
inductive Effect (policy : CircuitBreakerPolicy) (st : BreakerState) : Op → BreakerState → Prop
  | same (op : Op)
      (hprobe : st.phase = .halfOpen → ∀ token, op.reported = some token →
        token.isProbe = true → token.generation ≠ st.generation)
      (hseen : st.phase = .closed → ∀ seen, op.observed st = some seen →
        seen.generation ≠ st.generation)
      (hpin : ∀ now, op ≠ .forceOpen now) : Effect policy st op st
  | probe (now : Now) (hphase : st.phase = .opened) (hpin : st.forcedOpen = false)
      (hwait : policy.cooldown ≤ now.instant - st.openedAt.getD now.instant) :
      Effect policy st (.dispatch now) st.probing
  | clear (token : DispatchToken) (now : Now) (hphase : st.phase = .closed)
      (hgen : token.generation = st.generation) :
      Effect policy st (.result .success token now) { st with failures := [] }
  | count (op : Op) (now : Now) (hphase : st.phase = .closed)
      (htime : op.instant = some now.instant)
      (hseen : op.observed st = some (.failure st.generation now.instant))
      (hfew : (st.recent policy now).length < policy.failureThreshold) :
      Effect policy st op { st with failures := st.recent policy now }
  | full (op : Op) (now : Now) (hphase : st.phase = .closed)
      (htime : op.instant = some now.instant)
      (hseen : op.observed st = some (.failure st.generation now.instant))
      (hmany : policy.failureThreshold ≤ (st.recent policy now).length) :
      Effect policy st op (st.trip now)
  | probeDown (op : Op) (token : DispatchToken) (now : Now) (hphase : st.phase = .halfOpen)
      (htoken : op.reported = some token) (htime : op.instant = some now.instant) :
      Effect policy st op (st.trip now)
  | probeUp (token : DispatchToken) (now : Now) (hphase : st.phase = .halfOpen) :
      Effect policy st (.result .success token now) st.close
  | pin (now : Now) : Effect policy st (.forceOpen now) (st.forceOpen now)
  | unpin (h : st.phase = .closed → st.forcedOpen = true) :
      Effect policy st .forceClose { st with forcedOpen := false }.close

theorem countFailure_effect (policy : CircuitBreakerPolicy) (st : BreakerState) (op : Op)
    (now : Now) (hphase : st.phase = .closed) (htime : op.instant = some now.instant)
    (hseen : op.observed st = some (.failure st.generation now.instant)) :
    Effect policy st op (st.countFailure policy now).1 := by
  unfold BreakerState.countFailure
  dsimp only
  split
  · rename_i h
    exact .full op now hphase htime hseen h
  · rename_i h
    exact .count op now hphase htime hseen (Nat.lt_of_not_ge h)

theorem dispatch_effect (policy : CircuitBreakerPolicy) (st : BreakerState) (now : Now)
    (hslot : st.phase = .halfOpen → st.probeInFlight = true) :
    Effect policy st (.dispatch now) (st.onDispatch policy now).1 := by
  have hsame : Effect policy st (.dispatch now) st :=
    .same _ (by simp [Op.reported]) (by simp [Op.observed]) (by simp)
  rcases st.onDispatch_cases policy now with ⟨_, _, h⟩ | ⟨_, _, h⟩ | ⟨hpin, h, hcase⟩ <;> rw [h]
  · exact hsame
  · exact hsame
  · rcases hcase with ⟨hphase, hwait⟩ | ⟨hphase, hfree⟩
    · exact .probe now hphase hpin hwait
    · simp [hslot hphase] at hfree

theorem result_effect (policy : CircuitBreakerPolicy) (st : BreakerState)
    (outcome : AttemptOutcome) (token : DispatchToken) (now : Now)
    (hforced : st.forcedOpen = true → st.phase = .opened) :
    Effect policy st (.result outcome token now) (st.onResult policy outcome token now).1 := by
  -- A report that finds no current probe and is not observed in this generation.
  have hsame (h : st.phase = .opened ∨ token.generation ≠ st.generation ∨
      (st.phase = .halfOpen ∧ token.isProbe = false) ∨ outcome = .nonRetryableFailure ∧
        st.phase = .closed) :
      Effect policy st (.result outcome token now) st := by
    refine .same _ ?_ ?_ (by simp)
    · intro hphase tok htok hprobe
      obtain rfl : token = tok := by simpa [Op.reported] using htok
      simp [hphase, hprobe] at h
      exact h
    · intro hphase seen hseen
      cases outcome <;> simp [Op.observed] at hseen <;> subst hseen <;>
        simpa [hphase, Observation.generation] using h
  unfold BreakerState.onResult BreakerState.applyResult
  split
  · exact hsame (.inl (hforced ‹_›))
  split
  · exact hsame (.inr (.inl ‹_›))
  rename_i hgen
  have hgen : token.generation = st.generation := by simpa using hgen
  split
  · rename_i hphase
    cases outcome with
    | success => exact .clear token now hphase hgen
    | retryableFailure =>
      exact countFailure_effect policy st _ now hphase rfl (by simp [Op.observed, hgen])
    | nonRetryableFailure => exact hsame (.inr (.inr (.inr ⟨rfl, hphase⟩)))
  · rename_i hphase
    split
    · exact hsame (.inr (.inr (.inl ⟨hphase, by simpa using ‹(!token.isProbe) = true›⟩)))
    · cases outcome with
      | success => exact .probeUp token now hphase
      | retryableFailure => exact .probeDown _ token now hphase rfl rfl
      | nonRetryableFailure => exact .probeDown _ token now hphase rfl rfl
  · exact hsame (.inl ‹_›)

theorem cancelled_effect (policy : CircuitBreakerPolicy) (st : BreakerState)
    (token : DispatchToken) (now : Now) (hslot : st.phase = .halfOpen → st.probeInFlight = true)
    (hforced : st.forcedOpen = true → st.phase = .opened) :
    Effect policy st (.cancelled token now) (st.onCancelled token now) := by
  have hsame (h : st.phase = .halfOpen → token.isProbe = true →
      token.generation ≠ st.generation) : Effect policy st (.cancelled token now) st := by
    refine .same _ ?_ (by simp [Op.observed]) (by simp)
    intro hphase tok htok hprobe
    obtain rfl : token = tok := by simpa [Op.reported] using htok
    exact h hphase hprobe
  unfold BreakerState.onCancelled BreakerState.applyCancelled
  split
  · rename_i h
    refine hsame fun hphase _ => ?_
    rcases (by simpa using h : st.forcedOpen = true ∨ token.generation ≠ st.generation) with h | h
    · simp [hforced h] at hphase
    · exact h
  · split
    · rename_i h
      have hphase : st.phase = .halfOpen := by simp at h; exact h.1.2
      exact .probeDown _ token now hphase rfl rfl
    · rename_i h
      refine hsame fun hphase hprobe => ?_
      simp [hphase, hprobe, hslot hphase] at h

theorem externalFailure_effect (policy : CircuitBreakerPolicy) (st : BreakerState) (now : Now)
    (hforced : st.forcedOpen = true → st.phase = .opened) :
    Effect policy st (.externalFailure now) (st.onExternalFailure policy now).1 := by
  unfold BreakerState.onExternalFailure BreakerState.applyExternalFailure
  split
  · rename_i h
    refine .same _ (by simp [Op.reported]) (fun hphase => ?_) (by simp)
    simp [hphase] at h
    simp [hforced h] at hphase
  · rename_i h
    exact countFailure_effect policy st _ now (by simp at h; exact h.2) rfl rfl

theorem forceClose_effect (policy : CircuitBreakerPolicy) (st : BreakerState) :
    Effect policy st .forceClose st.forceClose := by
  unfold BreakerState.forceClose
  split
  · exact .same _ (by simp [Op.reported]) (by simp [Op.observed]) (by simp)
  · rename_i h
    exact .unpin fun hphase => by simpa [hphase] using h

/-- **Inversion.** Every call has one of the listed effects. -/
theorem apply_effect (policy : CircuitBreakerPolicy) (st : BreakerState) (op : Op)
    (hslot : st.phase = .halfOpen → st.probeInFlight = true)
    (hforced : st.forcedOpen = true → st.phase = .opened) :
    Effect policy st op (op.apply policy st) := by
  cases op with
  | dispatch now => exact dispatch_effect policy st now hslot
  | result outcome token now => exact result_effect policy st outcome token now hforced
  | cancelled token now => exact cancelled_effect policy st token now hslot hforced
  | externalFailure now => exact externalFailure_effect policy st now hforced
  | forceOpen now => exact .pin now
  | forceClose => exact forceClose_effect policy st

/-- A dispatch is admitted from a closed breaker as it is, or from an open one as
its probe after the cooldown. -/
theorem onDispatch_allow (policy : CircuitBreakerPolicy) (st : BreakerState) (now : Now)
    (token : DispatchToken) (hslot : st.phase = .halfOpen → st.probeInFlight = true)
    (h : (st.onDispatch policy now).2 = .allow token) :
    st.forcedOpen = false ∧
      ((st.phase = .closed ∧ token = ⟨st.generation, false⟩) ∨
        (st.phase = .opened ∧ policy.cooldown ≤ now.instant - st.openedAt.getD now.instant ∧
          token = ⟨st.generation, true⟩)) := by
  rcases st.onDispatch_cases policy now with
    ⟨_, _, heq⟩ | ⟨hpin, hphase, heq⟩ | ⟨hpin, heq, hcase⟩ <;> rw [heq] at h
  · cases h
  · exact ⟨hpin, .inl ⟨hphase, by simpa using h.symm⟩⟩
  · rcases hcase with ⟨hphase, hwait⟩ | ⟨hphase, hfree⟩
    · exact ⟨hpin, .inr ⟨hphase, hwait, by simpa using h.symm⟩⟩
    · simp [hslot hphase] at hfree

/-! ## The failure window and the log -/

theorem failureRun_concat (generation : Nat) (log : List Observation) (seen : Observation) :
    failureRun generation (log ++ [seen]) = match seen with
      | .failure g t => if g = generation then failureRun generation log ++ [t]
        else failureRun generation log
      | .success g => if g = generation then [] else failureRun generation log := by
  simp [failureRun, List.foldl_append]

theorem failureRun_other (generation : Nat) (log : List Observation) (seen : Observation)
    (h : seen.generation ≠ generation) :
    failureRun generation (log ++ [seen]) = failureRun generation log := by
  rw [failureRun_concat]
  cases seen with
  | failure g t => exact if_neg h
  | success g => exact if_neg h

theorem failureRun_fresh (generation : Nat) (log : List Observation)
    (h : ∀ seen ∈ log, seen.generation ≠ generation) : failureRun generation log = [] := by
  induction log using List.reverseRecOn with
  | nil => rfl
  | append_singleton log seen ih =>
    rw [failureRun_other generation log seen (h seen (by simp))]
    exact ih fun o ho => h o (by simp [ho])

theorem pruneFailures_eq_filter (now window : Nat) (failures : List Nat)
    (hsorted : failures.Pairwise (· ≤ ·)) :
    BreakerState.pruneFailures now window failures = failures.filter (now - · ≤ window) := by
  induction failures with
  | nil => rfl
  | cons front rest ih =>
    obtain ⟨hfront, hrest⟩ := List.pairwise_cons.mp hsorted
    rw [BreakerState.pruneFailures]
    split
    · rename_i hold
      rw [List.filter_cons_of_neg (by simp; omega), ih hrest]
    · rename_i hnew
      have hwithin : ∀ t ∈ front :: rest, decide (now - t ≤ window) = true := by
        intro t ht
        rcases List.mem_cons.mp ht with rfl | ht
        · simp
          omega
        · have := hfront t ht
          simp
          omega
      rw [List.filter_eq_self.mpr hwithin]

/-- Pruning a sorted deque drops a front part that is older than the window. -/
theorem pruneFailures_append (now window : Nat) (failures : List Nat)
    (hsorted : failures.Pairwise (· ≤ ·)) :
    ∃ dropped, failures = dropped ++ failures.filter (now - · ≤ window) ∧
      ∀ t ∈ dropped, window < now - t := by
  rw [← pruneFailures_eq_filter now window failures hsorted]
  clear hsorted
  induction failures with
  | nil => exact ⟨[], rfl, by simp⟩
  | cons front rest ih =>
    rw [BreakerState.pruneFailures]
    split
    · rename_i hold
      obtain ⟨dropped, heq, hdropped⟩ := ih
      exact ⟨front :: dropped, by rw [List.cons_append, ← heq], by
        simpa using ⟨hold, hdropped⟩⟩
    · exact ⟨[], rfl, by simp⟩

/-- The deque is what pruning left of the generation's failures since its last
success. -/
structure Window (policy : CircuitBreakerPolicy) (w : World) : Prop where
  kept : ∃ dropped, failureRun w.st.generation w.log = dropped ++ w.st.failures ∧
    ∀ t ∈ dropped, policy.window < w.clock - t
  sorted : (failureRun w.st.generation w.log).Pairwise (· ≤ ·)
  past : ∀ t ∈ failureRun w.st.generation w.log, t ≤ w.clock

theorem Window.sorted_concat {policy : CircuitBreakerPolicy} {w : World} (hw : Window policy w)
    {now : Nat} (hnow : w.clock ≤ now) :
    (failureRun w.st.generation w.log ++ [now]).Pairwise (· ≤ ·) := by
  rw [List.pairwise_append]
  refine ⟨hw.sorted, List.pairwise_singleton _ _, fun t ht t' ht' => ?_⟩
  obtain rfl : t' = now := by simpa using ht'
  exact Nat.le_trans (hw.past t ht) hnow

/-- After a failure at `now`, the deque holds the failures within the window. -/
theorem Window.recent_eq {policy : CircuitBreakerPolicy} {w : World} (hw : Window policy w)
    {now : Now} (hnow : w.clock ≤ now.instant) :
    w.st.recent policy now = failuresWithin policy.window now.instant w.st.generation
      (w.log ++ [.failure w.st.generation now.instant]) := by
  obtain ⟨dropped, hkept, hdropped⟩ := hw.kept
  have hsorted := hw.sorted_concat hnow
  rw [hkept, List.append_assoc] at hsorted
  have hgone : dropped.filter (now.instant - · ≤ policy.window) = [] := by
    rw [List.filter_eq_nil_iff]
    intro t ht
    have := hdropped t ht
    simp
    omega
  rw [BreakerState.recent, pruneFailures_eq_filter _ _ _ (List.pairwise_append.mp hsorted).2.1,
    failuresWithin, failureRun_concat]
  simp only [if_true, hkept]
  rw [List.append_assoc, List.filter_append dropped, hgone, List.nil_append]

/-! ## The invariant of a run -/

/-- A probe token of the breaker's current generation. -/
def BreakerState.currentProbe (st : BreakerState) (token : DispatchToken) : Bool :=
  token.isProbe && token.generation == st.generation

/-- Holds of every reachable world with fewer than `2 ^ 64` transitions. -/
structure Inv (policy : CircuitBreakerPolicy) (w : World) : Prop where
  generation : w.st.generation = w.transitions
  tokens : ∀ token ∈ w.outstanding, token.generation ≤ w.st.generation
  probes : w.outstanding.countP w.st.currentProbe = if w.st.phase = .halfOpen then 1 else 0
  slot : w.st.phase = .halfOpen → w.st.probeInFlight = true
  forced : w.st.forcedOpen = true → w.st.phase = .opened
  observed : ∀ seen ∈ w.log, seen.generation ≤ w.st.generation
  window : w.st.phase = .closed → Window policy w

theorem Inv.start (policy : CircuitBreakerPolicy) : Inv policy .start where
  generation := rfl
  tokens := by simp [World.start]
  probes := rfl
  slot := by simp [World.start, BreakerState.default]
  forced := by simp [World.start, BreakerState.default]
  observed := by simp [World.start]
  window _ := ⟨⟨[], rfl, by simp⟩, List.Pairwise.nil, by simp [World.start, failureRun]⟩

theorem Inv.token_after {policy : CircuitBreakerPolicy} {w : World} (hinv : Inv policy w)
    (op : Op) : ∀ token ∈ w.outstandingAfter policy op, token.generation ≤ w.st.generation := by
  intro token htoken
  cases op with
  | dispatch now =>
    simp only [World.outstandingAfter] at htoken
    split at htoken
    · rename_i issued hissued
      rcases List.mem_append.mp htoken with h | h
      · exact hinv.tokens token h
      · obtain rfl : token = issued := by simpa using h
        rcases (onDispatch_allow policy w.st now token hinv.slot hissued).2 with h | h
        · simp [h.2]
        · simp [h.2.2]
    · exact hinv.tokens token htoken
  | result outcome reported now => exact hinv.tokens token (List.mem_of_mem_erase htoken)
  | cancelled reported now => exact hinv.tokens token (List.mem_of_mem_erase htoken)
  | externalFailure now => exact hinv.tokens token htoken
  | forceOpen now => exact hinv.tokens token htoken
  | forceClose => exact hinv.tokens token htoken

theorem Inv.observed_after {policy : CircuitBreakerPolicy} {w : World} (hinv : Inv policy w)
    {op : Op} (hop : w.Allowed op) :
    ∀ seen ∈ w.log ++ (op.observed w.st).toList, seen.generation ≤ w.st.generation := by
  intro seen hseen
  rcases List.mem_append.mp hseen with h | h
  · exact hinv.observed seen h
  · cases op with
    | result outcome token now =>
      have htoken := hinv.tokens token (hop.2 token rfl)
      cases outcome <;> simp [Op.observed] at h <;> subst h <;> exact htoken
    | externalFailure now =>
      obtain rfl : seen = .failure w.st.generation now.instant := by simpa [Op.observed] using h
      exact Nat.le_refl _
    | dispatch now => simp [Op.observed] at h
    | cancelled token now => simp [Op.observed] at h
    | forceOpen now => simp [Op.observed] at h
    | forceClose => simp [Op.observed] at h

theorem bumped_generation {policy : CircuitBreakerPolicy} {w : World} {op : Op}
    (hinv : Inv policy w) (hbump : (op.apply policy w.st).generation = w.st.nextGeneration)
    (hbound : (w.step policy op).transitions < u64Size) :
    (op.apply policy w.st).generation = w.st.generation + 1 ∧
      (w.step policy op).transitions = w.transitions + 1 := by
  have hsucc := BreakerState.bump_eq_succ hbump (by simpa [World.step, hinv.generation] using hbound)
  exact ⟨hsucc, by simp [World.step, hsucc]⟩

/-- A call that bumped the generation left every token and observation behind. -/
theorem Inv.reset {policy : CircuitBreakerPolicy} {w : World} {op : Op} (hinv : Inv policy w)
    (hop : w.Allowed op) (hbound : (w.step policy op).transitions < u64Size)
    (hbump : (op.apply policy w.st).generation = w.st.nextGeneration)
    (hphase : (op.apply policy w.st).phase ≠ .halfOpen)
    (hforced : (op.apply policy w.st).forcedOpen = true → (op.apply policy w.st).phase = .opened)
    (hempty : (op.apply policy w.st).failures = [] ∨ (op.apply policy w.st).phase = .opened) :
    Inv policy (w.step policy op) := by
  obtain ⟨hgen, htrans⟩ := bumped_generation hinv hbump hbound
  have htokens := hinv.token_after op
  have hlog := hinv.observed_after hop
  have hfresh : failureRun (w.step policy op).st.generation (w.step policy op).log = [] := by
    refine failureRun_fresh _ _ fun seen hseen => ?_
    have := hlog seen hseen
    simp only [World.step, hgen]
    omega
  have hphase' : (w.step policy op).st.phase ≠ .halfOpen := hphase
  refine ⟨?_, ?_, ?_, fun h => absurd h hphase, hforced, ?_, fun hclosed => ?_⟩
  · rw [htrans, ← hinv.generation]
    exact hgen
  · intro token htoken
    have := htokens token htoken
    simp only [World.step, hgen]
    omega
  · rw [if_neg hphase', List.countP_eq_zero]
    intro token htoken hprobe
    have := htokens token htoken
    simp only [BreakerState.currentProbe, World.step, hgen, Bool.and_eq_true, beq_iff_eq] at hprobe
    omega
  · intro seen hseen
    have := hlog seen hseen
    simp only [World.step, hgen]
    omega
  · have hnil : (w.step policy op).st.failures = [] := by
      rcases hempty with h | h
      · exact h
      · rw [World.step, h] at hclosed
        cases hclosed
    exact ⟨⟨[], by simp [hfresh, hnil], by simp⟩, by simp [hfresh], by simp [hfresh]⟩

theorem clock_le_step {policy : CircuitBreakerPolicy} {w : World} {op : Op}
    (hop : w.Allowed op) : w.clock ≤ (w.step policy op).clock := by
  cases h : op.instant with
  | none => simp [World.step, h]
  | some t => simpa [World.step, h] using hop.1 t h

/-- A call that keeps the phase and reports no current probe keeps the number of
outstanding current probes. -/
theorem Inv.countP_kept {policy : CircuitBreakerPolicy} {w : World} {op : Op}
    (hinv : Inv policy w) (hphase : (op.apply policy w.st).phase = w.st.phase)
    (hprobe : w.st.phase = .halfOpen → ∀ token, op.reported = some token →
      token.isProbe = true → token.generation ≠ w.st.generation) :
    (w.outstandingAfter policy op).countP w.st.currentProbe =
      w.outstanding.countP w.st.currentProbe := by
  have herase (token : DispatchToken) (hreported : op.reported = some token) :
      (w.outstanding.erase token).countP w.st.currentProbe =
        w.outstanding.countP w.st.currentProbe := by
    rw [List.countP_erase]
    by_cases hhalf : w.st.phase = .halfOpen
    · have hno : w.st.currentProbe token = false := by
        have := hprobe hhalf token hreported
        simp only [BreakerState.currentProbe, Bool.and_eq_false_iff, beq_eq_false_iff_ne]
        by_cases h : token.isProbe = true
        · exact .inr (this h)
        · exact .inl (by simpa using h)
      simp [hno]
    · have := hinv.probes
      rw [if_neg hhalf] at this
      omega
  cases op with
  | dispatch now =>
    simp only [World.outstandingAfter]
    split
    · rename_i issued hissued
      obtain ⟨hpin, ⟨hclosed, rfl⟩ | ⟨hopen, hwait, rfl⟩⟩ :=
        onDispatch_allow policy w.st now issued hinv.slot hissued
      · simp [List.countP_append, BreakerState.currentProbe]
      · simp [Op.apply, BreakerState.onDispatch, hpin, hopen, hwait] at hphase
    · rfl
  | result outcome token now => exact herase token rfl
  | cancelled token now => exact herase token rfl
  | externalFailure now => rfl
  | forceOpen now => rfl
  | forceClose => rfl

/-- A call that kept the fenced fields. -/
theorem Inv.kept {policy : CircuitBreakerPolicy} {w : World} {op : Op} (hinv : Inv policy w)
    (hop : w.Allowed op) (hgen : (op.apply policy w.st).generation = w.st.generation)
    (hphase : (op.apply policy w.st).phase = w.st.phase)
    (hslot : (op.apply policy w.st).probeInFlight = w.st.probeInFlight)
    (hforced : (op.apply policy w.st).forcedOpen = w.st.forcedOpen)
    (hprobe : w.st.phase = .halfOpen → ∀ token, op.reported = some token →
      token.isProbe = true → token.generation ≠ w.st.generation)
    (hwindow : w.st.phase = .closed → Window policy (w.step policy op)) :
    Inv policy (w.step policy op) where
  generation := by simp [World.step, hgen, hinv.generation]
  tokens token htoken := by
    simpa [World.step, hgen] using hinv.token_after op token htoken
  probes := by
    have hsame : (op.apply policy w.st).currentProbe = w.st.currentProbe := by
      funext token
      simp [BreakerState.currentProbe, hgen]
    simp only [World.step, hsame, hphase]
    rw [hinv.countP_kept hphase hprobe, hinv.probes]
  slot h := by
    simp only [World.step, hphase, hslot] at h ⊢
    exact hinv.slot h
  forced h := by
    simp only [World.step, hphase, hforced] at h ⊢
    exact hinv.forced h
  observed seen hseen := by
    simpa [World.step, hgen] using hinv.observed_after hop seen hseen
  window h := hwindow (by simpa [World.step, hphase] using h)

/-- Time passes, and neither the window nor the failure run changes. -/
theorem Window.mono {policy : CircuitBreakerPolicy} {w w' : World} (hw : Window policy w)
    (hclock : w.clock ≤ w'.clock) (hfailures : w'.st.failures = w.st.failures)
    (hrun : failureRun w'.st.generation w'.log = failureRun w.st.generation w.log) :
    Window policy w' := by
  obtain ⟨dropped, hkept, hdropped⟩ := hw.kept
  refine ⟨⟨dropped, by rw [hrun, hkept, hfailures], fun t ht => ?_⟩, by rw [hrun]; exact hw.sorted,
    fun t ht => ?_⟩
  · have := hdropped t ht
    omega
  · rw [hrun] at ht
    exact Nat.le_trans (hw.past t ht) hclock

/-- A failure below the threshold joins the window. -/
theorem Window.count {policy : CircuitBreakerPolicy} {w : World} {op : Op} {now : Now}
    (hw : Window policy w) (hop : w.Allowed op) (htime : op.instant = some now.instant)
    (hseen : op.observed w.st = some (.failure w.st.generation now.instant))
    (hst : op.apply policy w.st = { w.st with failures := w.st.recent policy now }) :
    Window policy (w.step policy op) := by
  have hnow : w.clock ≤ now.instant := hop.1 _ htime
  have hrun : failureRun (w.step policy op).st.generation (w.step policy op).log =
      failureRun w.st.generation w.log ++ [now.instant] := by
    simp [World.step, hst, hseen, failureRun_concat]
  have hclock : (w.step policy op).clock = now.instant := by simp [World.step, htime]
  have hfailures : (w.step policy op).st.failures =
      (failureRun w.st.generation w.log ++ [now.instant]).filter
        (now.instant - · ≤ policy.window) := by
    have hfst : (w.step policy op).st.failures = w.st.recent policy now := by
      simp [World.step, hst]
    rw [hfst, hw.recent_eq hnow, failuresWithin, failureRun_concat]
    simp
  have hsorted := hw.sorted_concat hnow
  have hsplit := pruneFailures_append now.instant policy.window _ hsorted
  refine ⟨?_, by rw [hrun]; exact hsorted, fun t ht => ?_⟩
  · obtain ⟨dropped, heq, hdropped⟩ := hsplit
    exact ⟨dropped, by rw [hrun, hfailures]; exact heq, by rw [hclock]; exact hdropped⟩
  · rw [hrun] at ht
    rw [hclock]
    rcases List.mem_append.mp ht with h | h
    · exact Nat.le_trans (hw.past t h) hnow
    · simp at h
      omega

theorem Inv.same {policy : CircuitBreakerPolicy} {w : World} {op : Op} (hinv : Inv policy w)
    (hop : w.Allowed op) (hst : op.apply policy w.st = w.st)
    (hprobe : w.st.phase = .halfOpen → ∀ token, op.reported = some token →
      token.isProbe = true → token.generation ≠ w.st.generation)
    (hseen : w.st.phase = .closed → ∀ seen, op.observed w.st = some seen →
      seen.generation ≠ w.st.generation) : Inv policy (w.step policy op) := by
  refine hinv.kept hop (by rw [hst]) (by rw [hst]) (by rw [hst]) (by rw [hst]) hprobe
    fun hclosed => ?_
  refine (hinv.window hclosed).mono (clock_le_step hop) (by simp [World.step, hst]) ?_
  simp only [World.step, hst]
  cases h : op.observed w.st with
  | none => simp
  | some seen => exact failureRun_other _ _ _ (hseen hclosed seen h)

theorem Inv.probe {policy : CircuitBreakerPolicy} {w : World} {now : Now} (hinv : Inv policy w)
    (hop : w.Allowed (.dispatch now)) (hphase : w.st.phase = .opened)
    (hpin : w.st.forcedOpen = false)
    (hwait : policy.cooldown ≤ now.instant - w.st.openedAt.getD now.instant) :
    Inv policy (w.step policy (.dispatch now)) := by
  have hdispatch : w.st.onDispatch policy now =
      ({ w.st with phase := .halfOpen, probeInFlight := true }, .allow ⟨w.st.generation, true⟩) := by
    simp [BreakerState.onDispatch, hphase, hpin, hwait]
  have hzero : w.outstanding.countP w.st.currentProbe = 0 := by
    simp [hinv.probes, hphase]
  refine ⟨?_, fun token htoken => ?_, ?_, ?_, ?_, fun seen hseen => ?_, ?_⟩
  · simp [World.step, Op.apply, hdispatch, hinv.generation]
  · simpa [World.step, Op.apply, hdispatch] using hinv.token_after (.dispatch now) token htoken
  · have hsame : ({ w.st with phase := .halfOpen, probeInFlight := true } :
        BreakerState).currentProbe = w.st.currentProbe := rfl
    simp only [World.step, Op.apply, World.outstandingAfter, hdispatch, hsame,
      List.countP_append, hzero]
    simp [BreakerState.currentProbe]
  · simp [World.step, Op.apply, hdispatch]
  · simp [World.step, Op.apply, hdispatch, hpin]
  · simpa [World.step, Op.apply, hdispatch] using hinv.observed_after hop seen hseen
  · simp [World.step, Op.apply, hdispatch]

/-- **Step lemma.** Every allowed call keeps the invariant. -/
theorem Inv.step {policy : CircuitBreakerPolicy} {w : World} {op : Op} (hinv : Inv policy w)
    (hop : w.Allowed op) (hbound : (w.step policy op).transitions < u64Size) :
    Inv policy (w.step policy op) := by
  have heffect := apply_effect policy w.st op hinv.slot hinv.forced
  have hreset := hinv.reset hop hbound
  generalize hst : op.apply policy w.st = st' at heffect
  cases heffect with
  | same _ hprobe hseen _ => exact hinv.same hop hst hprobe hseen
  | probe now hphase hpin hwait => exact hinv.probe hop hphase hpin hwait
  | clear token now hphase hgen =>
    refine hinv.kept hop (by rw [hst]) (by rw [hst]) (by rw [hst]) (by rw [hst])
      (by simp [hphase]) fun _ => ?_
    have hrun : failureRun w.st.generation (w.log ++ [.success token.generation]) = [] := by
      simp [failureRun_concat, hgen]
    refine ⟨⟨[], ?_, by simp⟩, ?_, ?_⟩ <;> simp [World.step, hst, Op.observed, hrun]
  | count _ now hphase htime hseen hfew =>
    exact hinv.kept hop (by rw [hst]) (by rw [hst]) (by rw [hst]) (by rw [hst])
      (by simp [hphase]) fun hclosed => (hinv.window hclosed).count hop htime hseen hst
  | full _ now hphase htime hseen hmany =>
    rw [hst] at hreset
    exact hreset rfl (by simp [BreakerState.trip, BreakerState.bumpGeneration])
      (fun _ => rfl) (.inl rfl)
  | probeDown _ token now hphase htoken htime =>
    rw [hst] at hreset
    exact hreset rfl (by simp [BreakerState.trip, BreakerState.bumpGeneration])
      (fun _ => rfl) (.inl rfl)
  | probeUp token now hphase =>
    rw [hst] at hreset
    refine hreset rfl (by simp [BreakerState.close, BreakerState.bumpGeneration])
      (fun hpin => ?_) (.inl rfl)
    have := hinv.forced hpin
    simp [hphase] at this
  | pin now =>
    rw [hst] at hreset
    exact hreset rfl (by simp [BreakerState.forceOpen, BreakerState.bumpGeneration])
      (fun _ => rfl) (.inr rfl)
  | unpin h =>
    rw [hst] at hreset
    exact hreset rfl (by simp [BreakerState.close, BreakerState.bumpGeneration])
      (by simp [BreakerState.close, BreakerState.bumpGeneration]) (.inl rfl)

/-- **Run lemma.** -/
theorem reachable_inv {policy : CircuitBreakerPolicy} {w : World} (hw : w.Reachable policy)
    (hbound : w.transitions < u64Size) : Inv policy w := by
  obtain ⟨ops, hlegal, rfl⟩ := hw
  -- The bound holds of every earlier world, since no step lowers the count.
  refine invariant (P := fun w => w.transitions < u64Size → Inv policy w)
    (fun w op hinv hop hbound => ?_) (fun _ => Inv.start policy) hlegal hbound
  have hle : w.transitions ≤ (w.step policy op).transitions := Nat.le_add_right _ _
  exact (hinv (by omega)).step hop hbound

/-! ## Opening and re-admission -/

/-- The breaker is open since `since` or later. -/
def OpenSince (since : Nat) (w : World) : Prop :=
  w.st.phase = .opened ∧ since ≤ w.clock ∧ ∃ t, w.st.openedAt = some t ∧ since ≤ t

theorem OpenSince.step {policy : CircuitBreakerPolicy} {w : World} {op : Op} {since : Nat}
    (hopen : OpenSince since w) (hop : w.Allowed op) (hclose : op ≠ .forceClose)
    (hnone : ∀ now token, op = .dispatch now → (w.st.onDispatch policy now).2 ≠ .allow token) :
    OpenSince since (w.step policy op) := by
  obtain ⟨hphase, hclock, t, hopened, ht⟩ := hopen
  have hclock' : since ≤ (w.step policy op).clock := Nat.le_trans hclock (clock_le_step hop)
  have heffect := apply_effect policy w.st op (by simp [hphase]) (fun _ => hphase)
  generalize hst : op.apply policy w.st = st' at heffect
  cases heffect with
  | same => exact ⟨by simp [World.step, hst, hphase], hclock', t, by simp [World.step, hst, hopened], ht⟩
  | probe now _ hpin hwait =>
    exact absurd (by simp [BreakerState.onDispatch, hpin, hphase, hwait])
      (hnone now ⟨w.st.generation, true⟩ rfl)
  | pin now =>
    have hnow : w.clock ≤ now.instant := hop.1 _ rfl
    exact ⟨by rw [World.step, hst]; rfl, hclock', now.instant, by rw [World.step, hst]; rfl, by omega⟩
  | unpin _ => exact absurd rfl hclose
  | clear token now hclosed => simp [hphase] at hclosed
  | count _ now hclosed => simp [hphase] at hclosed
  | full _ now hclosed => simp [hphase] at hclosed
  | probeDown _ token now hhalf => simp [hphase] at hhalf
  | probeUp token now hhalf => simp [hphase] at hhalf

theorem OpenSince.run {policy : CircuitBreakerPolicy} {w : World} {ops : List Op} {since : Nat}
    (hopen : OpenSince since w) (hlegal : Legal (World.step policy) World.Allowed w ops)
    (hclose : .forceClose ∉ ops) (hnone : w.NoneAdmitted policy ops) :
    OpenSince since (exec (World.step policy) w ops) := by
  induction ops generalizing w with
  | nil => exact hopen
  | cons op ops ih =>
    simp only [List.mem_cons, not_or] at hclose
    exact ih (hopen.step hlegal.1 (Ne.symm hclose.1) hnone.1) hlegal.2 hclose.2 hnone.2

/-- A call that opens the breaker opens it at its own time. -/
theorem Inv.opens {policy : CircuitBreakerPolicy} {w : World} {op : Op} {since : Nat}
    (hinv : Inv policy w) (htime : op.instant = some since) (hbefore : w.st.phase ≠ .opened)
    (hafter : (w.step policy op).st.phase = .opened) : OpenSince since (w.step policy op) := by
  refine ⟨hafter, by simp [World.step, htime], ?_⟩
  have heffect := apply_effect policy w.st op hinv.slot hinv.forced
  simp only [World.step] at hafter ⊢
  generalize op.apply policy w.st = st' at heffect hafter
  cases heffect with
  | same => exact absurd hafter hbefore
  | probe => cases hafter
  | clear => exact absurd hafter hbefore
  | count => exact absurd hafter hbefore
  | full _ now _ htime' => exact ⟨now.instant, rfl, by simp_all⟩
  | probeDown _ token now _ _ htime' => exact ⟨now.instant, rfl, by simp_all⟩
  | probeUp => cases hafter
  | pin now =>
    obtain rfl : now.instant = since := by simpa [Op.instant] using htime
    exact ⟨now.instant, rfl, Nat.le_refl _⟩
  | unpin => cases hafter

/-- A closed breaker opens without an operator exactly at the threshold. -/
theorem Inv.opens_iff {policy : CircuitBreakerPolicy} {w : World} {op : Op}
    (hinv : Inv policy w) (hop : w.Allowed op) (hclosed : w.st.phase = .closed)
    (hoperator : ∀ now, op ≠ .forceOpen now) :
    (w.step policy op).st.phase = .opened ↔
      ∃ now, op.observed w.st = some (.failure w.st.generation now) ∧
        policy.failureThreshold ≤
          (failuresWithin policy.window now w.st.generation (w.step policy op).log).length := by
  have heffect := apply_effect policy w.st op hinv.slot hinv.forced
  simp only [World.step]
  generalize op.apply policy w.st = st' at heffect
  have hrecent (now : Now) (htime : op.instant = some now.instant) :=
    (hinv.window hclosed).recent_eq (hop.1 _ htime)
  cases heffect with
  | same _ _ hseen _ =>
    simp only [hclosed, reduceCtorEq, false_iff, not_exists, not_and]
    intro now hnow
    exact absurd rfl (hseen hclosed _ hnow)
  | probe now hphase => simp [hclosed] at hphase
  | clear => simp [hclosed, Op.observed]
  | count _ now _ htime hseen hfew =>
    rw [hrecent now htime] at hfew
    simp only [hclosed, hseen, Option.some.injEq, Observation.failure.injEq, true_and,
      Option.toList_some, reduceCtorEq, false_iff, not_exists, not_and, Nat.not_le]
    rintro _ rfl
    exact hfew
  | full _ now _ htime hseen hmany =>
    rw [hrecent now htime] at hmany
    simp only [BreakerState.trip, BreakerState.bumpGeneration, true_iff]
    exact ⟨now.instant, hseen, by simpa [hseen] using hmany⟩
  | probeDown _ token now hphase => simp [hclosed] at hphase
  | probeUp token now hphase => simp [hclosed] at hphase
  | pin now => exact absurd rfl (hoperator now)
  | unpin => simp [BreakerState.close, BreakerState.bumpGeneration, Op.observed]

theorem OpenSince.admitted {policy : CircuitBreakerPolicy} {w : World} {since : Nat} {now : Now}
    {token : DispatchToken} (hopen : OpenSince since w) (hop : w.Allowed (.dispatch now))
    (hallow : (w.st.onDispatch policy now).2 = .allow token) :
    token.isProbe = true ∧ since + policy.cooldown ≤ now.instant := by
  obtain ⟨hphase, hclock, t, hopened, ht⟩ := hopen
  have hnow : w.clock ≤ now.instant := hop.1 _ rfl
  obtain ⟨_, ⟨hclosed, _⟩ | ⟨_, hwait, rfl⟩⟩ :=
    onDispatch_allow policy w.st now token (by simp [hphase]) hallow
  · simp [hphase] at hclosed
  · rw [hopened, Option.getD_some] at hwait
    exact ⟨rfl, by omega⟩

/-- No dispatch is admitted while a probe runs or an operator pins the breaker. -/
theorem onDispatch_blocked (policy : CircuitBreakerPolicy) (st : BreakerState)
    (hslot : st.phase = .halfOpen → st.probeInFlight = true)
    (h : st.phase = .halfOpen ∨ st.forcedOpen = true) (now : Now) (token : DispatchToken) :
    (st.onDispatch policy now).2 ≠ .allow token := by
  intro hallow
  obtain ⟨hpin, ⟨hphase, _⟩ | ⟨hphase, _⟩⟩ := onDispatch_allow policy st now token hslot hallow <;>
    simp [hphase, hpin] at h

/-- A report whose token is of another generation leaves the breaker as it is. -/
theorem stale_report (policy : CircuitBreakerPolicy) (st : BreakerState) (op : Op)
    (token : DispatchToken) (hreported : op.reported = some token)
    (hstale : token.generation ≠ st.generation) : op.apply policy st = st := by
  cases op with
  | result outcome t now =>
    obtain rfl : t = token := by simpa [Op.reported] using hreported
    simp [Op.apply, BreakerState.onResult, st.applyResult_stale policy outcome t now hstale]
  | cancelled t now =>
    obtain rfl : t = token := by simpa [Op.reported] using hreported
    simp [Op.apply, BreakerState.onCancelled, st.applyCancelled_stale t now hstale]
  | dispatch now => cases hreported
  | externalFailure now => cases hreported
  | forceOpen now => cases hreported
  | forceClose => cases hreported

/-- **Phases over whole runs.** In every world that a run reaches with fewer than
`2 ^ 64` transitions: the breaker is half-open iff exactly one probe token of its
generation is outstanding; it admits nothing while half-open or pinned; a report of
an older generation changes nothing; from closed it opens without an operator iff
this call is a failure of its generation that makes `failure_threshold` of them
within the window since the last success; and once opened, unless an operator closes
it, the first admitted dispatch is a probe no earlier than the cooldown. -/
theorem phases_over_runs (policy : CircuitBreakerPolicy) (w : World)
    (hw : w.Reachable policy) (hbound : w.transitions < u64Size) :
    (w.st.phase = .halfOpen ↔ w.outstanding.countP w.st.currentProbe = 1) ∧
    (w.st.phase = .halfOpen ∨ w.st.forcedOpen = true →
      ∀ now token, (w.st.onDispatch policy now).2 ≠ .allow token) ∧
    (∀ op token, op.reported = some token → token.generation < w.st.generation →
      (w.step policy op).st = w.st) ∧
    (∀ op, w.Allowed op → w.st.phase = .closed → (∀ now, op ≠ .forceOpen now) →
      ((w.step policy op).st.phase = .opened ↔
        ∃ now, op.observed w.st = some (.failure w.st.generation now) ∧
          policy.failureThreshold ≤
            (failuresWithin policy.window now w.st.generation (w.step policy op).log).length)) ∧
    (∀ op since, w.Allowed op → op.instant = some since → w.st.phase ≠ .opened →
      (w.step policy op).st.phase = .opened →
      ∀ ops, Legal (World.step policy) World.Allowed (w.step policy op) ops →
        .forceClose ∉ ops → (w.step policy op).NoneAdmitted policy ops →
        ∀ now token,
          (exec (World.step policy) (w.step policy op) ops).Allowed (.dispatch now) →
          ((exec (World.step policy) (w.step policy op) ops).st.onDispatch policy now).2 =
            .allow token →
          token.isProbe = true ∧ since + policy.cooldown ≤ now.instant) := by
  have hinv := reachable_inv hw hbound
  refine ⟨?_, ?_, ?_, ?_, ?_⟩
  · rw [hinv.probes]
    split <;> simp_all
  · exact onDispatch_blocked policy w.st hinv.slot
  · intro op token hreported hold
    exact stale_report policy w.st op token hreported (Nat.ne_of_lt hold)
  · intro op hop hclosed hoperator
    exact hinv.opens_iff hop hclosed hoperator
  · intro op since hop htime hbefore hafter ops hlegal hclose hnone now token hdispatch hallow
    have hopen := hinv.opens htime hbefore hafter
    exact (hopen.run hlegal hclose hnone).admitted hdispatch hallow

/-- A run that trips at the second failure, waits the cooldown and probes. -/
theorem phases_over_runs_probing :
    let policy : CircuitBreakerPolicy := ⟨2, 10, 5⟩
    let w := exec (World.step policy) World.start
      [.dispatch ⟨0, 0⟩, .result .retryableFailure ⟨0, false⟩ ⟨1, 1⟩, .externalFailure ⟨2, 2⟩,
        .dispatch ⟨7, 7⟩]
    w.st.phase = .halfOpen ∧ w.outstanding.countP w.st.currentProbe = 1 := by
  intro policy w
  have hreach : w.Reachable policy := ⟨_, by decide, rfl⟩
  have hphase : w.st.phase = .halfOpen := by decide
  exact ⟨hphase, (phases_over_runs policy w hreach (by decide)).1.mp hphase⟩

end Harvest.Breaker
