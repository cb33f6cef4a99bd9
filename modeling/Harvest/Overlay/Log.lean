import Harvest.Event
import Mathlib.Data.Finset.Basic
import Mathlib.Data.Finset.Lattice.Basic

/-!
# The overlay log

Each agent kind has a log of immutable overlay versions, one pointer to the active version, a log of
the moves of the pointer and a log of the refine policies of the kind. Operators put versions, move
the pointer and set the policy. A refine run can move the pointer without a person, as far as the
policy allows it.

This is the data of the logs and the kernel: the decisions that a store makes from what it reads under
the lock of a kind.
-/

namespace Harvest.Overlay

/-! ## Overlays and policies -/

structure SkillText where
  summary : String
  body : String
deriving DecidableEq, Repr

/-- A change to a profile. The two maps are lists in key order. -/
structure ProfileOverlay where
  system : Option String
  guardrails : Option String
  model : Option String
  maxSteps : Option UInt32
  maxTotalTokens : Option UInt32
  maxOutputTokens : Option UInt32
  readOnly : Option Bool
  toolGuidance : List (String × String)
  skills : List (String × SkillText)
deriving DecidableEq, Repr

def ProfileOverlay.default : ProfileOverlay := ⟨none, none, none, none, none, none, none, [], []⟩

inductive OverlayPart
  | system
  | guardrails
  | toolGuidance
  | skills
  | model
  | bounds
  | readOnly
deriving DecidableEq, Repr

namespace OverlayPart

def all : List OverlayPart :=
  [system, guardrails, toolGuidance, skills, model, bounds, readOnly]

/-- `self as u8`. -/
def index : OverlayPart → Nat
  | system => 0
  | guardrails => 1
  | toolGuidance => 2
  | skills => 3
  | model => 4
  | bounds => 5
  | readOnly => 6

def bit (part : OverlayPart) : BitVec 8 := 1#8 <<< part.index

end OverlayPart

/-- The mask of the parts. A set of parts is read in the order of `all`. -/
def mask (parts : Finset OverlayPart) : BitVec 8 :=
  (OverlayPart.all.filter (· ∈ parts)).foldl (fun mask part => mask ||| part.bit) 0#8

def changedParts (active candidate : ProfileOverlay) : Finset OverlayPart :=
  let bounds := decide ((candidate.maxSteps, candidate.maxTotalTokens, candidate.maxOutputTokens) ≠
    (active.maxSteps, active.maxTotalTokens, active.maxOutputTokens))
  let changes : List (OverlayPart × Bool) :=
    [(.system, decide (candidate.system ≠ active.system)),
      (.guardrails, decide (candidate.guardrails ≠ active.guardrails)),
      (.toolGuidance, decide (candidate.toolGuidance ≠ active.toolGuidance)),
      (.skills, decide (candidate.skills ≠ active.skills)),
      (.model, decide (candidate.model ≠ active.model)),
      (.bounds, bounds),
      (.readOnly, decide (candidate.readOnly ≠ active.readOnly))]
  (changes.filterMap fun change => if change.2 then some change.1 else none).toFinset

def partsAllowed (changed allowed : BitVec 8) : Bool := changed &&& ~~~allowed == 0#8

inductive AdoptDecision
  | adopt
  | unchanged
  | needsApproval
  | capReached
deriving DecidableEq, Repr

def decideAdoption (allowed changed : BitVec 8) (usedToday : UInt32) (cap : Option UInt32) :
    AdoptDecision :=
  if changed = 0#8 then .unchanged
  else if ! partsAllowed changed allowed then .needsApproval
  else
    match cap with
    | some limit => if usedToday < limit then .adopt else .capReached
    | none => .adopt

inductive DailyCap
  | limited (n : UInt32)
  | unlimited
deriving DecidableEq, Repr

namespace DailyCap

def stricter : DailyCap → DailyCap → DailyCap
  | unlimited, cap => cap
  | cap, unlimited => cap
  | limited a, limited b => limited (if a < b then a else b)

def limit : DailyCap → Option UInt32
  | limited n => some n
  | unlimited => none

end DailyCap

structure AutoAdopt where
  parts : Finset OverlayPart
  maxPerDay : DailyCap
deriving DecidableEq

inductive ToolEffect
  | readOnly
  | internal
  | write
  | external
deriving DecidableEq, Repr

structure PolicyCeilings where
  maxSteps : Option UInt32
  maxTotalTokens : Option UInt32
  maxOutputTokens : Option UInt32
  models : Option (Finset String)
deriving DecidableEq

/-- The policy of a kind. The timeout is in milliseconds. The store reads `autoAdopt` only, its
validator can read every field. -/
structure RefinePolicy where
  autoAdopt : AutoAdopt
  approvalTimeout : Nat
  probeEffects : Finset ToolEffect
  ceilings : PolicyCeilings
  proposalAttempts : UInt32
  lessons : UInt32
deriving DecidableEq

def RefinePolicy.default : RefinePolicy where
  autoAdopt := ⟨∅, .limited 1⟩
  approvalTimeout := 7 * 24 * 60 * 60 * 1000
  probeEffects := {.readOnly}
  ceilings := ⟨none, none, none, none⟩
  proposalAttempts := 2
  lessons := 64

/-! ## The rows of the logs -/

/-- The number of a version. The first version is 1. -/
structure OverlayVersion where
  get : Nat
  get_ne_zero : get ≠ 0
deriving DecidableEq, Repr

def OverlayVersion.new (number : Nat) : Option OverlayVersion :=
  if h : number = 0 then none else some ⟨number, h⟩

inductive Provenance
  | operator (id : String)
  | refine (execution : ExecutionId)
  | auto (execution : ExecutionId)
deriving DecidableEq, Repr

abbrev Bytes := List UInt8

structure StoredOverlay where
  kind : String
  version : OverlayVersion
  bytes : Bytes
  overlay : ProfileOverlay
  provenance : Provenance
  createdAt : DateTime
deriving DecidableEq, Repr

/-- A move of the active pointer of a kind. -/
structure Activation where
  kind : String
  seq : Nat
  from' : Option OverlayVersion
  to' : OverlayVersion
  actor : Provenance
  activatedAt : DateTime
deriving DecidableEq, Repr

structure PolicyLogEntry where
  kind : String
  revision : Nat
  old : Option RefinePolicy
  new : Option RefinePolicy
  actor : Provenance
  changedAt : DateTime

structure PolicyState where
  policy : RefinePolicy
  revision : Option Nat
  custom : Bool

def PolicyLogEntry.state (entry : PolicyLogEntry) : PolicyState :=
  ⟨entry.new.getD .default, some entry.revision, entry.new.isSome⟩

def policyState (last : Option PolicyLogEntry) : PolicyState :=
  match last with
  | none => ⟨.default, none, false⟩
  | some entry => entry.state

/-- The log of one kind. -/
structure KindLog where
  versions : List StoredOverlay
  active : Option OverlayVersion
  moves : List Activation
  policies : List PolicyLogEntry

def KindLog.default : KindLog := ⟨[], none, [], []⟩

/-- The logs of all kinds. A kind that the map does not hold has the default log. -/
abbrev Kinds := String → KindLog

inductive OverlayStoreError
  | unknownVersion (version : OverlayVersion)
  | conflict (actual : Option OverlayVersion)
  | overlay (error : String)
  | unknownKind (kind : String)
  | invalidProvenance (reason : String)
  | policyConflict (actual : Option Nat)
  | tooLarge (bytes limit : Nat)
  | full
  | noEarlierActivation
  | corrupt (reason : String)
  | backend (message : String)
deriving DecidableEq, Repr

/-! ## The kernel -/

def u64Max : Nat := 2 ^ 64 - 1

def nextOverlayVersion : Option Nat → Option Nat
  | none => some 1
  | some last => if last < u64Max then some (last + 1) else none

inductive ActivateDecision
  | activate
  | unknownVersion
  | conflict
deriving DecidableEq, Repr

/-- `match (a, b)` of the source: equal options. -/
def same (a b : Option Nat) : Bool :=
  match a, b with
  | none, none => true
  | some want, some have' => want == have'
  | _, _ => false

def decideActivate (known : Bool) (expected actual : Option Nat) : ActivateDecision :=
  if ! known then .unknownVersion
  else if same expected actual then .activate else .conflict

def logsActivation (actual : Option Nat) (version : Nat) : Bool :=
  match actual with
  | some have' => have' != version
  | none => true

structure RollbackPlan where
  target : Nat
  expected : Nat
deriving DecidableEq, Repr

def rollbackTarget (from' : Option Nat) (to' : Nat) : Option RollbackPlan :=
  match from' with
  | some target => some ⟨target, to'⟩
  | none => none

def decideRollback (known : Bool) (expected : Nat) (actual : Option Nat) (readSeq : Nat)
    (lastSeq : Option Nat) : ActivateDecision :=
  match decideActivate known (some expected) actual with
  | .activate =>
    match lastSeq with
    | some seq => if seq = readSeq then .activate else .conflict
    | none => .conflict
  | other => other

def decideGuarded (known : Bool) (expected actual readSeq lastSeq : Option Nat) :
    ActivateDecision :=
  match decideActivate known expected actual with
  | .activate => if same readSeq lastSeq then .activate else .conflict
  | other => other

/-- The log head that a guarded move read. -/
structure ReadHead where
  seq : Option Nat
deriving DecidableEq, Repr

structure MoveRequest where
  version : Nat
  expected : Option Nat
  afterSeq : Option Nat
  head : Option ReadHead
deriving DecidableEq, Repr

/-- A rollback guard with no expected pointer never passes. -/
def MoveRequest.decide (self : MoveRequest) (known : Bool) (actual lastSeq : Option Nat) :
    ActivateDecision :=
  match self.afterSeq, self.expected with
  | some readSeq, some expected => decideRollback known expected actual readSeq lastSeq
  | some _, none =>
    match decideActivate known none actual with
    | .unknownVersion => .unknownVersion
    | _ => .conflict
  | none, _ =>
    match self.head with
    | some read => decideGuarded known self.expected actual read.seq lastSeq
    | none => decideActivate known self.expected actual

/-- The last instant of the calendar. -/
def maxUtc : DateTime := 8210266876799999999999

def dayNanos : Int := 24 * 60 * 60 * 1000000000

/-- The start and the end of the UTC day. -/
def utcDay (at' : DateTime) : DateTime × DateTime :=
  let start := at' - at' % dayNanos
  (start, if start + dayNanos ≤ maxUtc then start + dayNanos else maxUtc)

inductive PolicyExpect
  | any
  | revision (expected : Option Nat)
deriving DecidableEq, Repr

def policyWritePasses (expected : PolicyExpect) (last : Option Nat) : Bool :=
  match expected with
  | .any => true
  | .revision none => last.isNone
  | .revision (some want) =>
    match last with
    | some have' => want == have'
    | none => false

inductive AutoMoveDecision
  | move
  | conflict
  | capReached
deriving DecidableEq, Repr

def decideAutoMove (expected actual : Option Nat) (used : Nat) (cap : Option UInt32) :
    AutoMoveDecision :=
  if ! same expected actual then .conflict
  else
    match cap with
    | some limit => if limit.toNat ≤ used then .capReached else .move
    | none => .move

/-! ## What the kernel decides -/

theorem OverlayPart.index_lt (part : OverlayPart) : part.index < 8 := by
  cases part <;> decide

theorem OverlayPart.index_inj {p q : OverlayPart} : p.index = q.index ↔ p = q := by
  cases p <;> cases q <;> decide

theorem OverlayPart.mem_all (part : OverlayPart) : part ∈ OverlayPart.all := by
  cases part <;> decide

theorem OverlayPart.getLsbD_bit (part : OverlayPart) (i : Nat) :
    part.bit.getLsbD i = decide (i = part.index) := by
  have hlt := part.index_lt
  rw [bit, BitVec.getLsbD_shiftLeft, BitVec.getLsbD_one, Bool.eq_iff_iff]
  simp only [Bool.and_eq_true, decide_eq_true_eq, Bool.not_eq_true', decide_eq_false_iff_not]
  omega

/-- A folded mask has the bits of the parts. -/
theorem getLsbD_foldl_bit (parts : List OverlayPart) (acc : BitVec 8) (i : Nat) :
    (parts.foldl (fun mask part => mask ||| part.bit) acc).getLsbD i =
      (acc.getLsbD i || parts.any fun part => decide (i = part.index)) := by
  induction parts generalizing acc with
  | nil => simp
  | cons part parts ih =>
    rw [List.foldl_cons, ih, BitVec.getLsbD_or, OverlayPart.getLsbD_bit, List.any_cons,
      Bool.or_assoc]

theorem getLsbD_mask (parts : Finset OverlayPart) (part : OverlayPart) :
    (mask parts).getLsbD part.index = decide (part ∈ parts) := by
  rw [mask, getLsbD_foldl_bit, BitVec.getLsbD_zero, Bool.false_or, Bool.eq_iff_iff,
    List.any_eq_true]
  simp only [List.mem_filter, decide_eq_true_eq, OverlayPart.index_inj]
  constructor
  · rintro ⟨other, ⟨-, hmem⟩, rfl⟩
    exact hmem
  · exact fun hmem => ⟨part, ⟨part.mem_all, hmem⟩, rfl⟩

theorem exists_of_getLsbD_mask {parts : Finset OverlayPart} {i : Nat}
    (h : (mask parts).getLsbD i = true) :
    ∃ part ∈ parts, part.index = i := by
  rw [mask, getLsbD_foldl_bit, BitVec.getLsbD_zero, Bool.false_or, List.any_eq_true] at h
  obtain ⟨part, hpart, hi⟩ := h
  exact ⟨part, of_decide_eq_true (List.mem_filter.mp hpart).2, (of_decide_eq_true hi).symm⟩

theorem mask_eq_zero {parts : Finset OverlayPart} : mask parts = 0#8 ↔ parts = ∅ := by
  constructor
  · intro h
    refine Finset.eq_empty_of_forall_notMem fun part hmem => ?_
    have := getLsbD_mask parts part
    rw [h] at this
    simp [hmem] at this
  · rintro rfl
    rfl

theorem partsAllowed_mask {changed allowed : Finset OverlayPart} :
    partsAllowed (mask changed) (mask allowed) = true ↔ changed ⊆ allowed := by
  rw [partsAllowed, beq_iff_eq]
  constructor
  · intro h part hmem
    have hbit := congrArg (BitVec.getLsbD · part.index) h
    simp only [BitVec.getLsbD_and, BitVec.getLsbD_not, getLsbD_mask, hmem] at hbit
    simpa [part.index_lt] using hbit
  · intro hsub
    apply BitVec.eq_of_getLsbD_eq
    intro i hi
    rw [BitVec.getLsbD_and, BitVec.getLsbD_not]
    cases hc : (mask changed).getLsbD i with
    | false => simp
    | true =>
      obtain ⟨part, hmem, rfl⟩ := exists_of_getLsbD_mask hc
      rw [getLsbD_mask]
      simp [hsub hmem]

/-- Without a cap, an overlay is adopted exactly when it changes something and all of it is
allowed. -/
theorem decideAdoption_mask (allowed changed : Finset OverlayPart) (used : UInt32) :
    decideAdoption (mask allowed) (mask changed) used none =
      if changed = ∅ then .unchanged
      else if changed ⊆ allowed then .adopt else .needsApproval := by
  unfold decideAdoption
  by_cases hnone : changed = ∅
  · rw [if_pos (mask_eq_zero.mpr hnone), if_pos hnone]
  · rw [if_neg (mt mask_eq_zero.mp hnone), if_neg hnone]
    by_cases hsub : changed ⊆ allowed
    · rw [partsAllowed_mask.mpr hsub, if_pos hsub]
      rfl
    · rw [Bool.eq_false_iff.mpr (mt partsAllowed_mask.mp hsub), if_neg hsub]
      rfl

theorem same_iff {a b : Option Nat} : same a b = true ↔ a = b := by
  cases a <;> cases b <;> simp [same]

theorem decideActivate_eq_activate {known : Bool} {expected actual : Option Nat} :
    decideActivate known expected actual = .activate ↔ known = true ∧ expected = actual := by
  cases known <;> simp [decideActivate, ← same_iff]

theorem decideRollback_eq_activate {known : Bool} {expected readSeq : Nat}
    {actual lastSeq : Option Nat} :
    decideRollback known expected actual readSeq lastSeq = .activate ↔
      known = true ∧ actual = some expected ∧ lastSeq = some readSeq := by
  unfold decideRollback
  by_cases hactivate : decideActivate known (some expected) actual = .activate
  · obtain ⟨hknown, hactual⟩ := decideActivate_eq_activate.mp hactivate
    rw [hactivate]
    cases lastSeq <;> simp [hknown, ← hactual]
  · have hnot : ¬ (known = true ∧ actual = some expected) := fun h =>
      hactivate (decideActivate_eq_activate.mpr ⟨h.1, h.2.symm⟩)
    cases hdecide : decideActivate known (some expected) actual with
    | activate => exact absurd hdecide hactivate
    | unknownVersion | conflict =>
      simp only [reduceCtorEq, false_iff]
      exact fun h => hnot ⟨h.1, h.2.1⟩

theorem decideRollback_eq_conflict {expected readSeq : Nat} {actual lastSeq : Option Nat}
    (h : lastSeq ≠ some readSeq) :
    decideRollback true expected actual readSeq lastSeq = .conflict := by
  unfold decideRollback decideActivate
  cases hsame : same (some expected) actual with
  | false => rfl
  | true =>
    cases lastSeq with
    | none => rfl
    | some seq =>
      have hne : seq ≠ readSeq := fun heq => h (congrArg some heq)
      simp [hne]

/-- A move passes only over the pointer that it expects, to a known version. -/
theorem MoveRequest.known_of_decide {request : MoveRequest} {known : Bool}
    {actual lastSeq : Option Nat} (h : request.decide known actual lastSeq = .activate) :
    known = true ∧ request.expected = actual := by
  unfold MoveRequest.decide at h
  split at h
  · next readSeq expected _ hexpected =>
    obtain ⟨hknown, hactual, -⟩ := decideRollback_eq_activate.mp h
    exact ⟨hknown, hexpected.trans hactual.symm⟩
  · split at h <;> cases h
  · split at h
    · unfold decideGuarded at h
      cases hdecide : decideActivate known request.expected actual with
      | activate => exact decideActivate_eq_activate.mp hdecide
      | unknownVersion | conflict =>
        rw [hdecide] at h
        cases h
    · exact decideActivate_eq_activate.mp h

theorem decideAutoMove_eq_move {expected actual : Option Nat} {used : Nat} {cap : Option UInt32} :
    decideAutoMove expected actual used cap = .move ↔
      expected = actual ∧ ∀ limit ∈ cap, used < limit.toNat := by
  unfold decideAutoMove
  cases hsame : same expected actual with
  | false =>
    have hne : expected ≠ actual := fun h => by simp [same_iff.mpr h] at hsame
    simp [hne]
  | true =>
    have heq := same_iff.mp hsame
    cases cap with
    | none => simp [heq]
    | some limit =>
      by_cases hused : limit.toNat ≤ used
      · simp [heq, hused]
      · simp [heq, hused, Nat.lt_of_not_le hused]

end Harvest.Overlay
