import Mathlib.Data.Finset.Sort
import Mathlib.Data.Finset.Union
import Mathlib.Data.String.Basic

/-!
# Flow rules

Model of `flow.rs`. A rule names a set of labels. The call that completes the set in a run trips the
rule, and so does every later call with a label of the set: a person decides about it, or it is
refused. A person's approval can release a rule for the rest of the run. Releases are kept by label
set, so a rule that refuses and a rule that asks can share one.

Proved here:
* `le_severity_decideFrom`: the decision of the loop is the strictest of the tripped rules.
* `Guarded.step`: what one call keeps.
* `flow_rules_hold_over_runs`: what holds in every run.
-/

namespace Harvest.Agent.Flow

/-! ## Rules -/

abbrev Labels := Finset String

/-- The rules that an approval releases, each named by its label set. -/
abbrev Released := Finset Labels

inductive Rule
  | allow
  | ask
  | deny (reason : String)
deriving DecidableEq, Repr

inductive ToolDecision
  | allow
  | requireApproval (reason : String)
  | deny (reason : String)
deriving DecidableEq, Repr

/-- Which calls a rule gates after its label set is complete. -/
inductive Recheck
  | eachCall
  | untilApproved
deriving DecidableEq, Repr

structure FlowRule where
  labels : Labels
  rule : Rule
  recheck : Recheck
deriving DecidableEq

/-- The rule asks or refuses, and names a label. -/
def FlowRule.Gates (rule : FlowRule) : Prop := rule.labels.Nonempty ∧ rule.rule ≠ .allow

/-- The flow rules of a harness. -/
structure FlowRules where
  rules : List FlowRule
  gates : ∀ rule ∈ rules, rule.Gates

namespace FlowRules

def new : FlowRules := ⟨[], nofun⟩

/-- `Rule::Allow` and an empty set add nothing. -/
def forbidWith (self : FlowRules) (labels : Labels) (rule : Rule) (recheck : Recheck) : FlowRules :=
  if h : labels = ∅ ∨ rule = .allow then self
  else
    { rules := self.rules ++ [⟨labels, rule, recheck⟩]
      gates := by
        intro added hadded
        rcases List.mem_append.mp hadded with hold | hnew
        · exact self.gates added hold
        · rw [List.mem_singleton.mp hnew]
          exact ⟨Finset.nonempty_iff_ne_empty.mpr fun hempty => h (.inl hempty),
            fun hallow => h (.inr hallow)⟩ }

def forbid (self : FlowRules) (labels : Labels) (rule : Rule) : FlowRules :=
  self.forbidWith labels rule .eachCall

def withRecheck (self : FlowRules) (recheck : Recheck) : FlowRules where
  rules := self.rules.map fun rule => { rule with recheck := recheck }
  gates := by
    intro rule hrule
    obtain ⟨old, hold, rfl⟩ := List.mem_map.mp hrule
    exact self.gates old hold

end FlowRules

/-! ## Decisions -/

/-- An approval has released the rule. -/
def FlowRule.isReleased (rule : FlowRule) (released : Released) : Bool :=
  rule.recheck = .untilApproved && rule.labels ∈ released

/-- The call carries a label of the rule. -/
def FlowRule.adds (rule : FlowRule) (call : Labels) : Bool := ∃ label ∈ rule.labels, label ∈ call

/-- The set of the rule is complete with the call. -/
def FlowRule.completes (rule : FlowRule) (exercised call : Labels) : Bool :=
  ∀ label ∈ rule.labels, label ∈ exercised ∨ label ∈ call

local instance isTrans_le : IsTrans String (· ≤ ·) := ⟨fun _ _ _ => le_trans⟩

local instance antisymm_le : @Std.Antisymm String (· ≤ ·) := ⟨fun _ _ => le_antisymm⟩

def FlowRule.askReason (rule : FlowRule) : String :=
  "this call completes the flow labels " ++ ", ".intercalate rule.labels.sort

/-- The loop of `decide` over the rules. -/
def decideFrom (exercised : Labels) (released : Released) (call : Labels) :
    List FlowRule → ToolDecision → Released → ToolDecision × Released
  | [], verdict, freed => (verdict, freed)
  | rule :: rest, verdict, freed =>
    if rule.isReleased released then decideFrom exercised released call rest verdict freed
    else if ! (rule.adds call && rule.completes exercised call) then
      decideFrom exercised released call rest verdict freed
    else
      match rule.rule with
      | .deny reason => (.deny reason, ∅)
      | .ask =>
        decideFrom exercised released call rest
          (if verdict = .allow then .requireApproval rule.askReason else verdict)
          (if rule.recheck = .untilApproved then insert rule.labels freed else freed)
      | .allow => decideFrom exercised released call rest verdict freed

/-- The decision, and the rules that an approval of the call releases. -/
def FlowRules.decide (self : FlowRules) (exercised : Labels) (released : Released) (call : Labels) :
    ToolDecision × Released :=
  decideFrom exercised released call self.rules .allow ∅

def FlowRules.check (self : FlowRules) (exercised : Labels) (released : Released) (call : Labels) :
    ToolDecision :=
  (self.decide exercised released call).1

/-! ## What the loop decides -/

def Rule.severity : Rule → ℕ
  | allow => 0
  | ask => 1
  | deny _ => 2

def ToolDecision.severity : ToolDecision → ℕ
  | allow => 0
  | requireApproval _ => 1
  | deny _ => 2

theorem Rule.severity_le (rule : Rule) : rule.severity ≤ 2 := by
  cases rule <;> simp [severity]

theorem ToolDecision.severity_le (decision : ToolDecision) : decision.severity ≤ 2 := by
  cases decision <;> simp [severity]

/-- The rule gates the call. -/
def FlowRule.trips (rule : FlowRule) (exercised : Labels) (released : Released) (call : Labels) :
    Bool :=
  ! rule.isReleased released && (rule.adds call && rule.completes exercised call)

section Decide

variable {exercised more : Labels} {released freed : Released} {call : Labels} {rule : FlowRule}
  {rules : List FlowRule} {verdict : ToolDecision}

theorem trips_iff : rule.trips exercised released call = true ↔
    rule.isReleased released = false ∧ rule.adds call = true ∧
      rule.completes exercised call = true := by
  rw [FlowRule.trips, Bool.and_eq_true, Bool.and_eq_true, Bool.not_eq_true']

/-- A rule that does not trip is passed over. -/
theorem decideFrom_cons_of_not_trips (h : rule.trips exercised released call = false) :
    decideFrom exercised released call (rule :: rules) verdict freed =
      decideFrom exercised released call rules verdict freed := by
  change (if rule.isReleased released then _ else
    if ! (rule.adds call && rule.completes exercised call) then _ else _) = _
  by_cases hreleased : rule.isReleased released = true
  · rw [if_pos hreleased]
  · rw [Bool.not_eq_true] at hreleased
    rw [FlowRule.trips, hreleased, Bool.not_false, Bool.true_and] at h
    rw [hreleased, if_neg Bool.false_ne_true, h, Bool.not_false, if_pos rfl]

theorem decideFrom_cons_of_trips (h : rule.trips exercised released call = true) :
    decideFrom exercised released call (rule :: rules) verdict freed =
      match rule.rule with
      | .deny reason => (.deny reason, ∅)
      | .ask =>
        decideFrom exercised released call rules
          (if verdict = .allow then .requireApproval rule.askReason else verdict)
          (if rule.recheck = .untilApproved then insert rule.labels freed else freed)
      | .allow => decideFrom exercised released call rules verdict freed := by
  obtain ⟨hreleased, hadds, hcompletes⟩ := trips_iff.mp h
  change (if rule.isReleased released then _ else
    if ! (rule.adds call && rule.completes exercised call) then _ else _) = _
  rw [hreleased, if_neg Bool.false_ne_true, hadds, hcompletes]
  rfl

theorem severity_ask (verdict : ToolDecision) (reason : String) :
    (if verdict = .allow then .requireApproval reason else verdict).severity =
      max verdict.severity Rule.ask.severity := by
  cases verdict <;> rfl

/-- **The strictest tripped rule decides.** -/
theorem le_severity_decideFrom {k : ℕ} :
    k ≤ (decideFrom exercised released call rules verdict freed).1.severity ↔
      k ≤ verdict.severity ∨
        ∃ rule ∈ rules, rule.trips exercised released call = true ∧ k ≤ rule.rule.severity := by
  induction rules generalizing verdict freed with
  | nil => exact ⟨.inl, fun h => h.resolve_right (by simp)⟩
  | cons rule rules ih =>
    rw [List.exists_mem_cons_iff]
    cases htrips : rule.trips exercised released call with
    | false =>
      rw [decideFrom_cons_of_not_trips htrips, ih]
      simp
    | true =>
      rw [decideFrom_cons_of_trips htrips]
      cases hrule : rule.rule with
      | allow =>
        have hzero : k ≤ Rule.allow.severity → k ≤ verdict.severity :=
          fun h => h.trans (Nat.zero_le _)
        simp only [ih, true_and]
        tauto
      | ask => simp only [ih, severity_ask, le_max_iff, true_and, or_assoc]
      | deny reason =>
        constructor
        · exact fun h => .inr (.inl ⟨rfl, h⟩)
        · rintro (h | ⟨-, h⟩ | ⟨other, -, -, h⟩)
          · exact h.trans verdict.severity_le
          · exact h
          · exact h.trans other.rule.severity_le

/-- Only a tripped rule that asks until it is approved can be freed. -/
theorem exists_of_mem_freed {labels : Labels}
    (h : labels ∈ (decideFrom exercised released call rules verdict freed).2) :
    labels ∈ freed ∨ ∃ rule ∈ rules, rule.trips exercised released call = true ∧
      rule.rule = .ask ∧ rule.labels = labels := by
  induction rules generalizing verdict freed with
  | nil => exact .inl h
  | cons rule rules ih =>
    rw [List.exists_mem_cons_iff]
    cases htrips : rule.trips exercised released call with
    | false =>
      rw [decideFrom_cons_of_not_trips htrips] at h
      exact (ih h).imp_right .inr
    | true =>
      rw [decideFrom_cons_of_trips htrips] at h
      cases hrule : rule.rule with
      | allow =>
        rw [hrule] at h
        exact (ih h).imp_right .inr
      | ask =>
        rw [hrule] at h
        rcases ih h with hfreed | hlater
        · split_ifs at hfreed
          · rcases Finset.mem_insert.mp hfreed with rfl | hfreed
            · exact .inr (.inl ⟨rfl, rfl, rfl⟩)
            · exact .inl hfreed
          · exact .inl hfreed
        · exact .inr (.inr hlater)
      | deny reason =>
        rw [hrule] at h
        exact absurd h (Finset.notMem_empty _)

/-- More exercised labels trip no fewer rules. -/
theorem trips_mono (hsubset : exercised ⊆ more) (h : rule.trips exercised released call = true) :
    rule.trips more released call = true := by
  obtain ⟨hreleased, hadds, hcompletes⟩ := trips_iff.mp h
  refine trips_iff.mpr ⟨hreleased, hadds, decide_eq_true fun label hlabel => ?_⟩
  exact (of_decide_eq_true hcompletes label hlabel).imp_left fun hmem => hsubset hmem

end Decide

namespace FlowRules

variable {self : FlowRules} {exercised more : Labels} {released : Released} {call : Labels}
  {rule : FlowRule}

/-- A tripped rule bounds the decision. -/
theorem severity_le_check (hrule : rule ∈ self.rules)
    (htrips : rule.trips exercised released call = true) :
    rule.rule.severity ≤ (self.check exercised released call).severity :=
  le_severity_decideFrom.mpr (.inr ⟨rule, hrule, htrips, le_rfl⟩)

/-- **More exercised labels give no more lenient decision.** -/
theorem check_mono (hsubset : exercised ⊆ more) :
    (self.check exercised released call).severity ≤ (self.check more released call).severity := by
  rcases le_severity_decideFrom.mp (le_refl (self.check exercised released call).severity) with
    hnone | ⟨rule, hrule, htrips, hle⟩
  · exact hnone.trans (Nat.zero_le _)
  · exact hle.trans (severity_le_check hrule (trips_mono hsubset htrips))

end FlowRules

/-! ## Runs -/

/-- A call, and whether it runs when the flow rules allow it or ask about it. -/
structure Call where
  labels : Labels
  runs : Bool

/-- What a run tree holds. -/
structure Run where
  exercised : Labels
  released : Released
  /-- Not in the source: the labels of the calls that a person approved. -/
  approved : List Labels

def Run.start : Run := ⟨∅, ∅, []⟩

/-- A call runs when it is allowed, or when it is asked about and approved. -/
def Run.step (rules : FlowRules) (run : Run) (call : Call) : Run :=
  match rules.decide run.exercised run.released call.labels with
  | (.allow, _) =>
    if call.runs then { run with exercised := run.exercised ∪ call.labels } else run
  | (.requireApproval _, freed) =>
    if call.runs then
      ⟨run.exercised ∪ call.labels, run.released ∪ freed, call.labels :: run.approved⟩
    else run
  | (.deny _, _) => run

def Run.after (rules : FlowRules) (calls : List Call) : Run := calls.foldl (Run.step rules) .start

def Rule.isDeny : Rule → Bool
  | deny _ => true
  | _ => false

def ToolDecision.isDeny : ToolDecision → Bool
  | deny _ => true
  | _ => false

theorem ToolDecision.isDeny_of_le {decision : ToolDecision} (h : 2 ≤ decision.severity) :
    decision.isDeny = true := by
  cases decision with
  | deny => rfl
  | allow | requireApproval => simp [severity] at h

theorem Rule.severity_of_isDeny {rule : Rule} (h : rule.isDeny = true) : rule.severity = 2 := by
  cases rule with
  | deny => rfl
  | allow | ask => cases h

/-- What the rules and the releases guarantee between calls. -/
structure Guarded (rules : FlowRules) (run : Run) : Prop where
  refused : ∀ rule ∈ rules.rules, rule.rule.isDeny = true →
    ¬ rule.labels ⊆ run.exercised ∧ rule.labels ∉ run.released
  asked : ∀ rule ∈ rules.rules, rule.rule = .ask → rule.labels ⊆ run.exercised →
    ∃ call ∈ run.approved, rule.adds call = true
  freed : ∀ rule ∈ rules.rules, rule.labels ∈ run.released →
    ∃ call ∈ run.approved, rule.adds call = true

section Runs

variable {rules : FlowRules} {run : Run} {call : Call} {rule : FlowRule}

/-- What one call can do. -/
theorem Run.step_cases (rules : FlowRules) (run : Run) (call : Call) :
    run.step rules call = run ∨
    ((rules.check run.exercised run.released call.labels).severity = 0 ∧
      run.step rules call = { run with exercised := run.exercised ∪ call.labels }) ∨
    ((rules.check run.exercised run.released call.labels).severity = 1 ∧
      run.step rules call = ⟨run.exercised ∪ call.labels,
        run.released ∪ (rules.decide run.exercised run.released call.labels).2,
        call.labels :: run.approved⟩) := by
  unfold Run.step FlowRules.check
  rcases rules.decide run.exercised run.released call.labels with ⟨decision, freed⟩
  cases hruns : call.runs with
  | false => cases decision <;> exact .inl rfl
  | true =>
    cases decision with
    | allow => exact .inr (.inl ⟨rfl, rfl⟩)
    | requireApproval reason => exact .inr (.inr ⟨rfl, rfl⟩)
    | deny reason => exact .inl rfl

/-- A set that a call completes was complete, or the call carries a label of it. -/
theorem subset_or_adds {exercised labels : Labels} (h : rule.labels ⊆ exercised ∪ labels) :
    rule.labels ⊆ exercised ∨
      (rule.adds labels = true ∧ rule.completes exercised labels = true) := by
  by_cases hadds : ∃ label ∈ rule.labels, label ∈ labels
  · refine .inr ⟨decide_eq_true hadds, decide_eq_true fun label hlabel => ?_⟩
    exact Finset.mem_union.mp (h hlabel)
  · refine .inl fun label hlabel => ?_
    exact (Finset.mem_union.mp (h hlabel)).resolve_right fun hmem => hadds ⟨label, hlabel, hmem⟩

theorem Guarded.start (rules : FlowRules) : Guarded rules .start := by
  have hsome (rule : FlowRule) (hrule : rule ∈ rules.rules) : ¬ rule.labels ⊆ ∅ := by
    obtain ⟨label, hlabel⟩ := (rules.gates rule hrule).1
    exact fun h => absurd (h hlabel) (Finset.notMem_empty _)
  exact ⟨fun rule hrule _ => ⟨hsome rule hrule, Finset.notMem_empty _⟩,
    fun rule hrule _ h => absurd h (hsome rule hrule),
    fun rule _ h => absurd h (Finset.notMem_empty _)⟩

/-- A rule that refuses trips at every call that it gates. -/
theorem Guarded.deny_trips (h : Guarded rules run) (hrule : rule ∈ rules.rules)
    (hdeny : rule.rule.isDeny = true) {labels : Labels} (hadds : rule.adds labels = true)
    (hcompletes : rule.completes run.exercised labels = true) :
    2 ≤ (rules.check run.exercised run.released labels).severity := by
  have hkept : rule.isReleased run.released = false := by
    rw [FlowRule.isReleased, decide_eq_false (h.refused rule hrule hdeny).2, Bool.and_false]
  rw [← Rule.severity_of_isDeny hdeny]
  exact FlowRules.severity_le_check hrule (trips_iff.mpr ⟨hkept, hadds, hcompletes⟩)

/-- After a call that ran, no rule that refuses is complete. -/
theorem Guarded.not_complete (h : Guarded rules run) (hrule : rule ∈ rules.rules)
    (hdeny : rule.rule.isDeny = true) {labels : Labels}
    (hran : (rules.check run.exercised run.released labels).severity < 2) :
    ¬ rule.labels ⊆ run.exercised ∪ labels := by
  intro hsubset
  rcases subset_or_adds hsubset with hold | ⟨hadds, hcompletes⟩
  · exact (h.refused rule hrule hdeny).1 hold
  · exact absurd (h.deny_trips hrule hdeny hadds hcompletes) (Nat.not_le.mpr hran)

/-- **One call.** -/
theorem Guarded.step (h : Guarded rules run) (call : Call) : Guarded rules (run.step rules call) := by
  rcases run.step_cases rules call with heq | ⟨hallow, heq⟩ | ⟨hask, heq⟩
  · rw [heq]
    exact h
  · rw [heq]
    refine ⟨fun rule hrule hdeny => ⟨?_, (h.refused rule hrule hdeny).2⟩, ?_, h.freed⟩
    · exact h.not_complete hrule hdeny (by omega)
    · intro rule hrule hrule' hsubset
      rcases subset_or_adds hsubset with hold | ⟨hadds, hcompletes⟩
      · exact h.asked rule hrule hrule' hold
      · -- the call was not asked about, so the rule was released
        cases hreleased : rule.isReleased run.released with
        | true =>
          exact h.freed rule hrule (of_decide_eq_true (Bool.and_eq_true_iff.mp hreleased).2)
        | false =>
          have hle := FlowRules.severity_le_check hrule
            (trips_iff.mpr ⟨hreleased, hadds, hcompletes⟩)
          rw [hrule', hallow] at hle
          exact absurd hle (by decide)
  · rw [heq]
    refine ⟨fun rule hrule hdeny => ⟨h.not_complete hrule hdeny (by omega), ?_⟩, ?_, ?_⟩
    · -- a rule with the same labels would have tripped too
      intro hmem
      rcases Finset.mem_union.mp hmem with hold | hnew
      · exact (h.refused rule hrule hdeny).2 hold
      · rcases exists_of_mem_freed hnew with hnone | ⟨other, -, htrips, -, hlabels⟩
        · exact absurd hnone (Finset.notMem_empty _)
        · obtain ⟨-, hadds, hcompletes⟩ := trips_iff.mp htrips
          rw [FlowRule.adds, hlabels] at hadds
          rw [FlowRule.completes, hlabels] at hcompletes
          have := h.deny_trips hrule hdeny hadds hcompletes
          omega
    · intro rule hrule hrule' hsubset
      rcases subset_or_adds hsubset with hold | ⟨hadds, -⟩
      · obtain ⟨approved, hmem, hadds⟩ := h.asked rule hrule hrule' hold
        exact ⟨approved, List.mem_cons_of_mem _ hmem, hadds⟩
      · exact ⟨call.labels, List.mem_cons_self, hadds⟩
    · intro rule hrule hmem
      rcases Finset.mem_union.mp hmem with hold | hnew
      · obtain ⟨approved, hmem, hadds⟩ := h.freed rule hrule hold
        exact ⟨approved, List.mem_cons_of_mem _ hmem, hadds⟩
      · rcases exists_of_mem_freed hnew with hnone | ⟨other, -, htrips, -, hlabels⟩
        · exact absurd hnone (Finset.notMem_empty _)
        · obtain ⟨-, hadds, -⟩ := trips_iff.mp htrips
          rw [FlowRule.adds, hlabels] at hadds
          exact ⟨call.labels, List.mem_cons_self, hadds⟩

/-- **All calls.** -/
theorem Guarded.after (rules : FlowRules) (calls : List Call) :
    Guarded rules (Run.after rules calls) := by
  have hrun (run : Run) (h : Guarded rules run) : Guarded rules (calls.foldl (Run.step rules) run) := by
    induction calls generalizing run with
    | nil => exact h
    | cons call calls ih => exact ih _ (h.step call)
  exact hrun _ (.start rules)

end Runs

/-- **Flow rules hold over whole runs.** In every run the exercised labels never complete a rule that
refuses, and complete a rule that asks only after a call with one of its labels was approved. More
exercised labels never give a more lenient decision. Whatever was approved, a rule that refuses
refuses every call that it gates, and a rule that asks at each call is never passed over. -/
theorem flow_rules_hold_over_runs (rules : FlowRules) (calls : List Call) :
    let run := Run.after rules calls
    (∀ rule ∈ rules.rules, rule.rule.isDeny = true → ¬ rule.labels ⊆ run.exercised) ∧
    (∀ rule ∈ rules.rules, rule.rule = .ask → rule.labels ⊆ run.exercised →
      ∃ call ∈ run.approved, rule.adds call = true) ∧
    (∀ exercised more released labels, exercised ⊆ more →
      (rules.check exercised released labels).severity ≤ (rules.check more released labels).severity) ∧
    ∀ rule ∈ rules.rules, ∀ labels, rule.adds labels = true →
      rule.completes run.exercised labels = true →
      (rule.rule.isDeny = true → (rules.check run.exercised run.released labels).isDeny = true) ∧
      (rule.rule = .ask → rule.recheck = .eachCall →
        rules.check run.exercised run.released labels ≠ .allow) := by
  intro run
  have h := Guarded.after rules calls
  refine ⟨fun rule hrule hdeny => (h.refused rule hrule hdeny).1, h.asked,
    fun _ _ _ _ hsubset => FlowRules.check_mono hsubset, ?_⟩
  intro rule hrule labels hadds hcompletes
  refine ⟨fun hdeny => ToolDecision.isDeny_of_le (h.deny_trips hrule hdeny hadds hcompletes), ?_⟩
  intro hask heach hallow
  have hkept : rule.isReleased run.released = false := by
    rw [FlowRule.isReleased, heach]
    rfl
  have hle := FlowRules.severity_le_check hrule (trips_iff.mpr ⟨hkept, hadds, hcompletes⟩)
  rw [hask, hallow] at hle
  exact absurd hle (by decide)

end Harvest.Agent.Flow
