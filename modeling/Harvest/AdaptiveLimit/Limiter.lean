import Mathlib.Algebra.Order.Field.Basic
import Mathlib.Algebra.Order.Floor.Semiring
import Mathlib.Tactic.Linarith

/-!
# The adaptive limit of one activity type

Model of `Limiter` in `adaptive_limit.rs`: a cap on the attempts in flight that follows the latency
and the failures of the attempts. Samples are gathered in windows; a closed window moves the cap, and
from time to time a probe lowers it to measure the latency without load.

Fractions are elements of an ordered field. Times are nanoseconds.

Proved here:
* `InRange.closeWindow`, `InRange.onSample`: the limits stay between the bounds of the policy.
* `onSample_probing`, `onSample_raise`: a probe does not raise the cap before it has an answer.
* `onSample_of_old`: a sample of another epoch moves neither the limits nor the baseline.
-/

namespace Harvest.AdaptiveLimit

/-! ## Policy and state -/

/-- The rules that `sanitized` enforces, as far as the limits depend on them. -/
structure AdaptiveLimitPolicy (K : Type) [Field K] [LinearOrder K] where
  minLimit : ℕ
  maxLimit : ℕ
  tolerance : K
  backoffRatio : K
  errorThreshold : K
  probeInterval : ℕ
  one_le_minLimit : 1 ≤ minLimit
  minLimit_le_maxLimit : minLimit ≤ maxLimit
  ratio_nonneg : 0 ≤ backoffRatio
  ratio_le_one : backoffRatio ≤ 1

inductive SampleOutcome
  | answered
  | overloaded
deriving DecidableEq, Repr

/-- Samples since the cap last moved. -/
structure Window where
  samples : ℕ
  answers : ℕ
  latencySum : ℕ
  maxInFlight : ℕ
  failures : ℕ
  completions : ℕ

/-- `Window::default` -/
def Window.empty : Window := ⟨0, 0, 0, 0, 0, 0⟩

def Window.meanLatency (window : Window) : Option ℕ :=
  if 0 < window.answers then some (window.latencySum / window.answers) else none

/-- `u32::MAX` -/
def maxU32 : ℕ := 2 ^ 32 - 1

/-- `Duration::MAX` -/
def maxDuration : ℕ := 2 ^ 64 * 1000000000 - 1

/-- `PROBE_SAMPLES` -/
def probeSamples : ℕ := 4

section Limiter

variable {K : Type} [Field K] [LinearOrder K]

structure Limiter (K : Type) [Field K] [LinearOrder K] where
  policy : AdaptiveLimitPolicy K
  limit : K
  inFlight : ℕ
  baseline : Option ℕ
  epoch : ℕ
  samples : ℕ
  probing : Bool
  resumeLimit : K
  window : Window

/-- `QUEUE_SIZE` -/
def queueSize : K := 4

/-- `SMOOTHING` -/
def smoothing : K := 1 / 5

/-- `MIN_GRADIENT` -/
def minGradient : K := 1 / 2

/-- `f64::clamp` -/
def clamp (x lo hi : K) : K := max lo (min hi x)

omit [Field K] in
theorem le_clamp (x lo hi : K) : lo ≤ clamp x lo hi := le_max_left _ _

omit [Field K] in
theorem clamp_le {x lo hi y : K} (hlo : lo ≤ y) (h : min hi x ≤ y) : clamp x lo hi ≤ y :=
  max_le hlo h

namespace Limiter

def floor (l : Limiter K) : K := l.policy.minLimit

def ceiling (l : Limiter K) : K := l.policy.maxLimit

/-- Drops the cap and forgets the baseline. -/
def startProbe (l : Limiter K) : Limiter K :=
  { l with
    resumeLimit := l.limit
    limit := clamp (min queueSize l.limit) l.floor l.ceiling
    epoch := l.epoch + 1
    baseline := none
    samples := 0
    probing := true
    window := .empty }

/-- A new limiter starts with a probe. -/
def new (policy : AdaptiveLimitPolicy K) : Limiter K :=
  startProbe
    { policy
      limit := clamp queueSize policy.minLimit policy.maxLimit
      inFlight := 0
      baseline := none
      epoch := 0
      samples := 0
      probing := false
      resumeLimit := 0
      window := .empty }

/-- The baseline with the mean of a window. -/
def noteMean (l : Limiter K) (mean : Option ℕ) : Limiter K :=
  match mean with
  | some mean => { l with baseline := some (l.baseline.elim mean (min · mean)) }
  | none => l

/-- An overloaded probe window cuts the limit that is restored later. -/
def cutResume (l : Limiter K) : Limiter K :=
  { l with
    resumeLimit := max (l.resumeLimit * l.policy.backoffRatio) l.floor
    limit := min l.limit (max (l.resumeLimit * l.policy.backoffRatio) l.floor) }

/-- The gradient of the latency: a zero mean counts as no queueing. -/
def gradient (l : Limiter K) (baseline mean : ℕ) : K :=
  if mean = 0 then 1
  else clamp (l.policy.tolerance * ((baseline : K) / 1000000000) / ((mean : K) / 1000000000))
    minGradient 1

/-- Moves the cap once for a full window. -/
def closeWindow (l : Limiter K) (window : Window) : Limiter K :=
  let mean := window.meanLatency
  let l := l.noteMean mean
  let overloaded := l.policy.errorThreshold * (window.completions : K) < (window.failures : K)
  if l.probing then
    let l := if overloaded then l.cutResume else l
    -- the probe needs one answer
    if mean.isNone then l else { l with probing := false, limit := l.resumeLimit }
  else if overloaded then { l with limit := max (l.limit * l.policy.backoffRatio) l.floor }
  else if l.policy.probeInterval ≤ l.samples then l.startProbe
  else
    match mean, l.baseline with
    | some mean, some baseline =>
      if (window.maxInFlight : K) < l.limit / 2 then l
      else
        let target := l.limit * l.gradient baseline mean + queueSize
        { l with limit := clamp (smoothing * (target - l.limit) + l.limit) l.floor l.ceiling }
    | _, _ => l

theorem closeWindow_keeps (l : Limiter K) (window : Window) :
    (l.closeWindow window).policy = l.policy ∧ (l.closeWindow window).inFlight = l.inFlight := by
  unfold closeWindow noteMean cutResume startProbe
  dsimp only
  cases window.meanLatency <;> (repeat' split) <;> exact ⟨rfl, rfl⟩

section Cap

variable [FloorSemiring K]

/-- The cap on the attempts in flight. -/
def cap (l : Limiter K) : ℕ := max l.policy.minLimit (min l.policy.maxLimit ⌊l.limit⌋₊)

/-- Samples that close a window. -/
def windowSize (l : Limiter K) : ℕ := max l.cap probeSamples

/-- One sample of the current epoch is added, and a full window is closed. -/
def fill (l : Limiter K) (window : Window) (inFlight : ℕ) : Limiter K :=
  let window := { window with
    samples := window.samples + 1
    maxInFlight := max window.maxInFlight inFlight }
  let l := { l with samples := min (l.samples + 1) maxU32 }
  if l.windowSize ≤ window.samples then { l with window := .empty }.closeWindow window
  else { l with window }

/-- A failure of another epoch counts as a failure, but does not fill the window. -/
def onSample (l : Limiter K) (epoch latency inFlight : ℕ) (outcome : SampleOutcome) : Limiter K :=
  let window := { l.window with completions := min (l.window.completions + 1) maxU32 }
  match outcome with
  | .overloaded =>
    let window := { window with failures := window.failures + 1 }
    if epoch ≠ l.epoch then { l with window } else l.fill window inFlight
  | .answered =>
    if epoch = l.epoch then
      l.fill { window with
        answers := window.answers + 1
        latencySum := min (window.latencySum + latency) maxDuration } inFlight
    else { l with window }

def isSaturated (l : Limiter K) : Bool := l.cap ≤ l.inFlight

theorem one_le_cap (l : Limiter K) : 1 ≤ l.cap :=
  l.policy.one_le_minLimit.trans (le_max_left _ _)

/-! ## The cases of a sample -/

/-- A sample of another epoch is only counted. -/
theorem onSample_of_old {l : Limiter K} {epoch : ℕ} (h : epoch ≠ l.epoch) (latency inFlight : ℕ)
    (outcome : SampleOutcome) :
    ∃ window, window.answers = l.window.answers ∧
      l.onSample epoch latency inFlight outcome = { l with window } := by
  unfold onSample
  cases outcome with
  | answered =>
    dsimp only
    rw [if_neg h]
    exact ⟨{ l.window with completions := min (l.window.completions + 1) maxU32 }, rfl, rfl⟩
  | overloaded =>
    dsimp only
    rw [if_pos h]
    exact ⟨{ l.window with
      completions := min (l.window.completions + 1) maxU32
      failures := l.window.failures + 1 }, rfl, rfl⟩

/-- A sample of the current epoch fills the window; a failure is no answer. -/
theorem onSample_of_current (l : Limiter K) (latency inFlight : ℕ) (outcome : SampleOutcome) :
    ∃ window, (outcome = .overloaded → window.answers = l.window.answers) ∧
      l.onSample l.epoch latency inFlight outcome = l.fill window inFlight := by
  unfold onSample
  cases outcome with
  | answered =>
    dsimp only
    rw [if_pos rfl]
    refine ⟨_, ?_, rfl⟩
    intro h
    cases h
  | overloaded =>
    dsimp only
    rw [if_neg (not_not.mpr rfl)]
    exact ⟨{ l.window with
      completions := min (l.window.completions + 1) maxU32
      failures := l.window.failures + 1 }, fun _ => rfl, rfl⟩

/-- A window that is filled stays open or is closed. -/
theorem fill_cases (l : Limiter K) (window : Window) (inFlight : ℕ) :
    ∃ samples window', window'.answers = window.answers ∧
      (l.fill window inFlight = { l with samples, window := window' } ∨
        l.fill window inFlight =
          { l with samples, window := Window.empty }.closeWindow window') := by
  refine ⟨min (l.samples + 1) maxU32, { window with
    samples := window.samples + 1
    maxInFlight := max window.maxInFlight inFlight }, rfl, ?_⟩
  unfold fill
  dsimp only
  split
  · exact .inr rfl
  · exact .inl rfl

/-- What holds of a limiter whatever it counts, and stays when a window is closed, stays for every
sample. -/
theorem onSample_induction {P : Limiter K → Prop} {l : Limiter K} (hl : P l)
    (hcount : ∀ l samples window, P l → P { l with samples, window })
    (hclose : ∀ l window, P l → P (closeWindow l window))
    (epoch latency inFlight : ℕ) (outcome : SampleOutcome) :
    P (l.onSample epoch latency inFlight outcome) := by
  by_cases hepoch : epoch = l.epoch
  · subst hepoch
    obtain ⟨window, -, heq⟩ := onSample_of_current l latency inFlight outcome
    obtain ⟨samples, window', -, hopen | hclosed⟩ := fill_cases l window inFlight
    · rw [heq, hopen]
      exact hcount l samples window' hl
    · rw [heq, hclosed]
      exact hclose _ window' (hcount l samples Window.empty hl)
  · obtain ⟨window, -, heq⟩ := onSample_of_old hepoch latency inFlight outcome
    rw [heq]
    exact hcount l l.samples window hl

theorem onSample_keeps (l : Limiter K) (epoch latency inFlight : ℕ) (outcome : SampleOutcome) :
    (l.onSample epoch latency inFlight outcome).policy = l.policy ∧
      (l.onSample epoch latency inFlight outcome).inFlight = l.inFlight := by
  refine onSample_induction (P := fun l' => l'.policy = l.policy ∧ l'.inFlight = l.inFlight)
    ⟨rfl, rfl⟩ (fun _ _ _ h => h) ?_ epoch latency inFlight outcome
  intro l' window h
  obtain ⟨hpolicy, hflight⟩ := closeWindow_keeps l' window
  exact ⟨hpolicy.trans h.1, hflight.trans h.2⟩

end Cap

/-! ## The limits stay in range -/

/-- The limit and the limit to restore are between the bounds of the policy. -/
structure InRange (l : Limiter K) : Prop where
  floor_le_limit : l.floor ≤ l.limit
  limit_le_ceiling : l.limit ≤ l.ceiling
  floor_le_resume : l.floor ≤ l.resumeLimit
  resume_le_ceiling : l.resumeLimit ≤ l.ceiling

theorem InRange.noteMean {l : Limiter K} (h : InRange l) (mean : Option ℕ) :
    InRange (l.noteMean mean) := by
  cases mean with
  | none => exact h
  | some mean => exact ⟨h.1, h.2, h.3, h.4⟩

/-- A probe does not raise the limit. -/
theorem InRange.startProbe_le {l : Limiter K} (h : InRange l) : l.startProbe.limit ≤ l.limit :=
  clamp_le h.floor_le_limit ((min_le_right _ _).trans (min_le_right _ _))

section Range

variable [IsStrictOrderedRing K]

theorem floor_le_ceiling (l : Limiter K) : l.floor ≤ l.ceiling :=
  Nat.cast_le.mpr l.policy.minLimit_le_maxLimit

/-- Backing off from a limit does not raise it. -/
theorem backoff_le {l : Limiter K} {x : K} (h : l.floor ≤ x) :
    max (x * l.policy.backoffRatio) l.floor ≤ x := by
  have hx : 0 ≤ x := (Nat.cast_nonneg l.policy.minLimit).trans h
  exact max_le (mul_le_of_le_one_right hx l.policy.ratio_le_one) h

theorem InRange.startProbe {l : Limiter K} (h : InRange l) : InRange l.startProbe where
  floor_le_limit := le_clamp _ _ _
  limit_le_ceiling := clamp_le l.floor_le_ceiling (min_le_left _ _)
  floor_le_resume := h.floor_le_limit
  resume_le_ceiling := h.limit_le_ceiling

theorem inRange_new (policy : AdaptiveLimitPolicy K) : InRange (new policy) where
  floor_le_limit := le_clamp _ _ _
  limit_le_ceiling := clamp_le (Nat.cast_le.mpr policy.minLimit_le_maxLimit) (min_le_left _ _)
  floor_le_resume := le_clamp _ _ _
  resume_le_ceiling := clamp_le (Nat.cast_le.mpr policy.minLimit_le_maxLimit) (min_le_left _ _)

theorem InRange.cutResume {l : Limiter K} (h : InRange l) : InRange l.cutResume where
  floor_le_limit := le_min h.floor_le_limit (le_max_right _ _)
  limit_le_ceiling := (min_le_left _ _).trans h.limit_le_ceiling
  floor_le_resume := le_max_right _ _
  resume_le_ceiling := (backoff_le h.floor_le_resume).trans h.resume_le_ceiling

theorem InRange.closeWindow {l : Limiter K} (h : InRange l) (window : Window) :
    InRange (l.closeWindow window) := by
  have hn := h.noteMean window.meanLatency
  unfold Limiter.closeWindow
  dsimp only
  generalize l.noteMean window.meanLatency = n at hn ⊢
  split
  · have hcut : InRange (if n.policy.errorThreshold * (window.completions : K)
        < (window.failures : K) then n.cutResume else n) := by
      split
      · exact hn.cutResume
      · exact hn
    generalize (if n.policy.errorThreshold * (window.completions : K)
      < (window.failures : K) then n.cutResume else n) = m at hcut ⊢
    split
    · exact hcut
    · exact ⟨hcut.floor_le_resume, hcut.resume_le_ceiling, hcut.floor_le_resume,
        hcut.resume_le_ceiling⟩
  · split
    · exact ⟨le_max_right _ _, (backoff_le hn.floor_le_limit).trans hn.limit_le_ceiling,
        hn.floor_le_resume, hn.resume_le_ceiling⟩
    · split
      · exact hn.startProbe
      · split
        · split
          · exact hn
          · exact ⟨le_clamp _ _ _, clamp_le n.floor_le_ceiling (min_le_left _ _),
              hn.floor_le_resume, hn.resume_le_ceiling⟩
        · exact hn

variable [FloorSemiring K]

theorem InRange.onSample {l : Limiter K} (h : InRange l) (epoch latency inFlight : ℕ)
    (outcome : SampleOutcome) : InRange (l.onSample epoch latency inFlight outcome) :=
  onSample_induction h (fun _ _ _ h => ⟨h.1, h.2, h.3, h.4⟩)
    (fun _ window h => h.closeWindow window) epoch latency inFlight outcome

end Range

/-! ## Probes -/

section Probes

variable [FloorSemiring K] [IsStrictOrderedRing K]

theorem cap_mono {l l' : Limiter K} (hpolicy : l'.policy = l.policy) (h : l'.limit ≤ l.limit) :
    l'.cap ≤ l.cap := by
  unfold cap
  rw [hpolicy]
  have hfloor := Nat.floor_mono h
  omega

/-- A probe without an answer. -/
def Unanswered (l : Limiter K) : Prop := l.probing = true ∧ l.window.answers = 0

omit [FloorSemiring K] [IsStrictOrderedRing K] in
theorem unanswered_new (policy : AdaptiveLimitPolicy K) : Unanswered (new policy) := ⟨rfl, rfl⟩

omit [FloorSemiring K] [IsStrictOrderedRing K] in
/-- A window without an answer does not end the probe, and does not raise the limit. -/
theorem closeWindow_of_unanswered {l : Limiter K} {window : Window} (hl : Unanswered l)
    (h : window.answers = 0) : Unanswered (l.closeWindow window) ∧
      (l.closeWindow window).epoch = l.epoch ∧ (l.closeWindow window).limit ≤ l.limit := by
  have hmean : window.meanLatency = none := by
    unfold Window.meanLatency
    rw [h]
    rfl
  unfold closeWindow noteMean
  rw [hmean]
  dsimp only
  rw [if_pos hl.1, if_pos Option.isNone_none]
  split
  · exact ⟨hl, rfl, min_le_left _ _⟩
  · exact ⟨hl, rfl, le_rfl⟩

omit [IsStrictOrderedRing K] in
/-- Without an answer the probe goes on, and the limit is not raised. -/
theorem onSample_of_unanswered {l : Limiter K} (hl : Unanswered l) {epoch : ℕ}
    {outcome : SampleOutcome} (h : epoch = l.epoch → outcome = .overloaded)
    (latency inFlight : ℕ) : Unanswered (l.onSample epoch latency inFlight outcome) ∧
      (l.onSample epoch latency inFlight outcome).epoch = l.epoch ∧
      (l.onSample epoch latency inFlight outcome).limit ≤ l.limit := by
  by_cases hepoch : epoch = l.epoch
  · have hfailed := h hepoch
    subst hepoch
    obtain ⟨window, hanswers, heq⟩ := onSample_of_current l latency inFlight outcome
    obtain ⟨samples, window', hsame, hopen | hclosed⟩ := fill_cases l window inFlight
    · rw [heq, hopen]
      exact ⟨⟨hl.1, hsame.trans ((hanswers hfailed).trans hl.2)⟩, rfl, le_rfl⟩
    · rw [heq, hclosed]
      exact closeWindow_of_unanswered ⟨hl.1, rfl⟩ (hsame.trans ((hanswers hfailed).trans hl.2))
  · obtain ⟨window, hanswers, heq⟩ := onSample_of_old hepoch latency inFlight outcome
    rw [heq]
    exact ⟨⟨hl.1, hanswers.trans hl.2⟩, rfl, le_rfl⟩

/-- A new epoch: a probe starts, and the limit is not raised. -/
structure Probed (l l' : Limiter K) : Prop where
  epoch_eq : l'.epoch = l.epoch + 1
  unanswered : Unanswered l'
  limit_le : l'.limit ≤ l.limit

omit [FloorSemiring K] [IsStrictOrderedRing K] in
/-- A closed window keeps the epoch or starts a probe. -/
theorem InRange.closeWindow_epoch {l : Limiter K} (h : InRange l) (window : Window) :
    (l.closeWindow window).epoch = l.epoch ∨ Probed l (l.closeWindow window) := by
  have hn : InRange (l.noteMean window.meanLatency) := h.noteMean window.meanLatency
  have hsame : (l.noteMean window.meanLatency).epoch = l.epoch ∧
      (l.noteMean window.meanLatency).limit = l.limit := by
    cases window.meanLatency <;> exact ⟨rfl, rfl⟩
  unfold Limiter.closeWindow
  dsimp only
  generalize l.noteMean window.meanLatency = n at hn hsame ⊢
  split
  · left
    rw [← hsame.1]
    split <;> split <;> rfl
  · split
    · exact .inl hsame.1
    · split
      · exact .inr ⟨by rw [← hsame.1]; rfl, ⟨rfl, rfl⟩, hsame.2 ▸ hn.startProbe_le⟩
      · left
        rw [← hsame.1]
        split
        · split <;> rfl
        · rfl

omit [IsStrictOrderedRing K] in
theorem InRange.onSample_epoch {l : Limiter K} (h : InRange l) (epoch latency inFlight : ℕ)
    (outcome : SampleOutcome) : (l.onSample epoch latency inFlight outcome).epoch = l.epoch ∨
      Probed l (l.onSample epoch latency inFlight outcome) := by
  by_cases hepoch : epoch = l.epoch
  · subst hepoch
    obtain ⟨window, -, heq⟩ := onSample_of_current l latency inFlight outcome
    obtain ⟨samples, window', -, hopen | hclosed⟩ := fill_cases l window inFlight
    · rw [heq, hopen]
      exact .inl rfl
    · rw [heq, hclosed]
      have hcounted : InRange { l with samples, window := Window.empty } := ⟨h.1, h.2, h.3, h.4⟩
      obtain hkept | hprobed := hcounted.closeWindow_epoch window'
      · exact .inl hkept
      · exact .inr ⟨hprobed.1, hprobed.2, hprobed.3⟩
  · obtain ⟨window, -, heq⟩ := onSample_of_old hepoch latency inFlight outcome
    rw [heq]
    exact .inl rfl

end Probes

end Limiter

end Limiter

end Harvest.AdaptiveLimit
