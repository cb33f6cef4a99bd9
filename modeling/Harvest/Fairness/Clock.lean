import Mathlib
import Harvest.Lib.Select

/-!
# The fair clock of one queue

Model of `FairClock` in `queue_fairness.rs`, over exact rationals. Each key has a
stored pass and the start tag of its last claim; the queue clock `V` is the largest
start tag.

Proved here:
* `lastStart_le_vclock`, `vclock_le`: `V` is the largest start tag, or `0`.
* `pick_startTag_le`: the picked key has the smallest start tag of the rows.
* `vclock_charge`: a charge moves `V` to the start tag of the charged key.
* `vclock_prune`: a prune keeps `V`.
-/

namespace Harvest.Fairness

open Harvest.Lib

/-- The stored state of one fairness key. -/
structure FairPass where
  pass : ℚ
  lastStart : ℚ
deriving DecidableEq, Repr

/-- The start tag of a key: `max(pass, v)`. A key with no state starts at `v`. -/
def fairStart (pass : Option ℚ) (v : ℚ) : ℚ := (pass.map (max · v)).getD v

/-- The lag of a key: its start tag minus `v`. -/
def fairLag (pass : Option ℚ) (v : ℚ) : ℚ := (pass.map fun p => max (p - v) 0).getD 0

/-- The state of a key after one claim. -/
def fairCharge (pass : Option ℚ) (v weight : ℚ) : FairPass :=
  let start := fairStart pass v
  ⟨start + 1 / weight, start⟩

structure FairClock where
  keys : Std.TreeMap String FairPass compare

namespace FairClock

def empty : FairClock := ⟨.empty⟩

/-- The queue clock `V`: the largest `last_start`, or `0` with no state. -/
def vclock (c : FairClock) : ℚ :=
  (c.keys.toList.map fun entry => entry.2.lastStart).foldl max 0

def state (c : FairClock) (key : String) : Option FairPass := c.keys[key]?

def startTag (c : FairClock) (key : String) : ℚ :=
  fairStart (c.keys[key]?.map FairPass.pass) c.vclock

def lag (c : FairClock) (key : String) : ℚ :=
  fairLag (c.keys[key]?.map FairPass.pass) c.vclock

/-- The order of `pick`: lag first, then due time. -/
def rowLe {D : Type} [LinearOrder D] : ℚ × D × String → ℚ × D × String → Bool :=
  lexLe (fun row => row.1) fun row => row.2.1

/-- Pick the key of the next claim from `(key, due)` rows. -/
def pick {D : Type} [LinearOrder D] (c : FairClock) (rows : List (String × D)) : Option String :=
  (minBy rowLe (rows.map fun row => (c.lag row.1, row.2, row.1))).map fun best => best.2.2

/-- Charge one claim to `key` at `weight`. -/
def charge (c : FairClock) (key : String) (weight : ℚ) : FairClock :=
  ⟨c.keys.insert key (fairCharge (c.keys[key]?.map FairPass.pass) c.vclock weight)⟩

/-- The order of the clock key: greatest `(last_start, key)`. -/
def entryLe : String × FairPass → String × FairPass → Bool :=
  lexLe (fun entry => entry.2.lastStart) Prod.fst

def clockKey (c : FairClock) : Option String := (maxBy entryLe c.keys.toList).map Prod.fst

/-- Delete the state of idle keys except the clock key. -/
def prune (c : FairClock) (isActive : String → Bool) : FairClock × Nat :=
  let kept := c.keys.filter fun key _ => isActive key || c.clockKey = some key
  (⟨kept⟩, c.keys.size - kept.size)

/-- Forget every key when the queue has no pending task. -/
def resetIfIdle (c : FairClock) (anyActive : Bool) : FairClock × Nat :=
  if anyActive then (c, 0) else (empty, c.keys.size)

/-! ## The queue clock -/

theorem foldl_max_le (l : List ℚ) (init b : ℚ) (hinit : init ≤ b) (hl : ∀ q ∈ l, q ≤ b) :
    l.foldl max init ≤ b := by
  induction l generalizing init with
  | nil => exact hinit
  | cons q l ih =>
    exact ih (max init q) (max_le hinit (hl q (by simp))) fun r hr => hl r (by simp [hr])

theorem le_foldl_max (l : List ℚ) (init : ℚ) :
    init ≤ l.foldl max init ∧ ∀ q ∈ l, q ≤ l.foldl max init := by
  induction l generalizing init with
  | nil => simp
  | cons q l ih =>
    obtain ⟨hinit, hl⟩ := ih (max init q)
    refine ⟨le_trans (le_max_left init q) hinit, fun r hr => ?_⟩
    rcases List.mem_cons.mp hr with rfl | hr
    · exact le_trans (le_max_right init r) hinit
    · exact hl r hr

variable (c : FairClock)

theorem vclock_nonneg : 0 ≤ c.vclock := (le_foldl_max _ 0).1

theorem lastStart_le_vclock {key : String} {p : FairPass} (h : c.keys[key]? = some p) :
    p.lastStart ≤ c.vclock := by
  refine (le_foldl_max _ 0).2 _ (List.mem_map.mpr ⟨(key, p), ?_, rfl⟩)
  exact Std.TreeMap.mem_toList_iff_getElem?_eq_some.mpr h

theorem vclock_le {b : ℚ} (hb : 0 ≤ b)
    (h : ∀ (key : String) (p : FairPass), c.keys[key]? = some p → p.lastStart ≤ b) :
    c.vclock ≤ b := by
  refine foldl_max_le _ 0 b hb fun q hq => ?_
  obtain ⟨⟨key, p⟩, hmem, rfl⟩ := List.mem_map.mp hq
  exact h key p (Std.TreeMap.mem_toList_iff_getElem?_eq_some.mp hmem)

theorem vclock_le_startTag (key : String) : c.vclock ≤ c.startTag key := by
  unfold startTag fairStart
  cases c.keys[key]? with
  | none => exact le_refl _
  | some p => exact le_max_right _ _

theorem lag_eq (key : String) : c.lag key = c.startTag key - c.vclock := by
  unfold lag startTag fairLag fairStart
  cases c.keys[key]? with
  | none => simp
  | some p => simp [← max_sub_sub_right]

/-! ## Picking -/

/-- The picked key has the smallest start tag of the rows. -/
theorem pick_startTag_le {D : Type} [LinearOrder D] {rows : List (String × D)} {key : String}
    (h : c.pick rows = some key) {other : String} {due : D} (hother : (other, due) ∈ rows) :
    c.startTag key ≤ c.startTag other := by
  obtain ⟨best, hbest, rfl⟩ := Option.map_eq_some_iff.mp h
  obtain ⟨row, _, hrow⟩ := List.mem_map.mp (minBy_mem hbest)
  have hle := minBy_le (lexLe_refl _ _) (lexLe_total _ _) (lexLe_trans _ _) hbest _
    (List.mem_map.mpr ⟨(other, due), hother, rfl⟩)
  have hlag : c.lag best.2.2 ≤ c.lag other := by
    have hfst := lexLe_fst _ _ hle
    rwa [← hrow] at hfst ⊢
  rw [lag_eq, lag_eq] at hlag
  linarith

/-! ## Charging -/

theorem charge_state (key other : String) (weight : ℚ) :
    (c.charge key weight).keys[other]? =
      if key = other then some ⟨c.startTag key + 1 / weight, c.startTag key⟩
      else c.keys[other]? := by
  simp only [charge, Std.TreeMap.getElem?_insert, Std.LawfulEqCmp.compare_eq_iff_eq]
  rfl

/-- A charge moves the clock to the start tag of the charged key. -/
theorem vclock_charge (key : String) (weight : ℚ) :
    (c.charge key weight).vclock = c.startTag key := by
  have hstart : c.vclock ≤ c.startTag key := c.vclock_le_startTag key
  refine le_antisymm (vclock_le _ (le_trans c.vclock_nonneg hstart) fun other p hp => ?_) ?_
  · rw [charge_state] at hp
    split at hp
    · obtain rfl := Option.some.inj hp
      exact le_refl _
    · exact le_trans (c.lastStart_le_vclock hp) hstart
  · have hself := c.charge_state key key weight
    rw [if_pos rfl] at hself
    exact lastStart_le_vclock _ hself

theorem startTag_charge_self (key : String) {weight : ℚ} (hweight : 0 < weight) :
    (c.charge key weight).startTag key = c.startTag key + 1 / weight := by
  have hpos : 0 < 1 / weight := by positivity
  simp only [startTag, vclock_charge, charge_state, if_pos, Option.map_some, fairStart,
    Option.getD_some]
  exact max_eq_left (by linarith)

/-- A key whose start tag was not before that of the charged key keeps it. -/
theorem startTag_charge_other {key other : String} (hne : key ≠ other) (weight : ℚ)
    (hle : c.startTag key ≤ c.startTag other) :
    (c.charge key weight).startTag other = c.startTag other := by
  have hstart := c.vclock_le_startTag key
  rw [startTag, vclock_charge, charge_state, if_neg hne]
  cases hp : c.keys[other]? with
  | none =>
    have htag : c.startTag other = c.vclock := by simp [startTag, hp, fairStart]
    simp only [Option.map_none, fairStart, Option.getD_none]
    linarith
  | some p =>
    have htag : c.startTag other = max p.pass c.vclock := by simp [startTag, hp, fairStart]
    simp only [Option.map_some, fairStart, Option.getD_some]
    rw [htag] at hle ⊢
    rcases le_total p.pass c.vclock with hpv | hpv
    · rw [max_eq_right hpv] at hle ⊢
      rw [max_eq_right (le_trans hpv hstart)]
      linarith
    · rw [max_eq_left hpv] at hle ⊢
      exact max_eq_left hle

/-! ## Pruning -/

theorem prune_state (isActive : String → Bool) (key : String) :
    (c.prune isActive).1.keys[key]? =
      if isActive key = true ∨ c.clockKey = some key then c.keys[key]? else none := by
  simp only [prune, Std.TreeMap.getElem?_filter']
  cases c.keys[key]? with
  | none => simp
  | some p => simp [Option.filter]

/-- The clock key stays, so a prune keeps the clock. -/
theorem vclock_prune (isActive : String → Bool) : (c.prune isActive).1.vclock = c.vclock := by
  refine le_antisymm (vclock_le _ c.vclock_nonneg fun key p hp => ?_)
    (vclock_le _ (vclock_nonneg _) fun key p hp => ?_)
  · rw [prune_state] at hp
    split at hp
    · exact c.lastStart_le_vclock hp
    · cases hp
  · -- The clock key has the largest start tag and survives.
    have hmem : (key, p) ∈ c.keys.toList := Std.TreeMap.mem_toList_iff_getElem?_eq_some.mpr hp
    obtain ⟨best, hbest⟩ : ∃ best, maxBy entryLe c.keys.toList = some best := by
      cases hl : c.keys.toList with
      | nil => simp [hl] at hmem
      | cons a rest => exact ⟨_, rfl⟩
    have hstate : c.keys[best.1]? = some best.2 :=
      Std.TreeMap.mem_toList_iff_getElem?_eq_some.mp (maxBy_mem hbest)
    have hkept : (c.prune isActive).1.keys[best.1]? = some best.2 := by
      rw [prune_state, if_pos (.inr (by simp [clockKey, hbest])), hstate]
    have hle := le_maxBy (lexLe_refl _ _) (lexLe_total _ _) (lexLe_trans _ _) hbest _ hmem
    have hstart : p.lastStart ≤ best.2.lastStart :=
      lexLe_fst (fun entry : String × FairPass => entry.2.lastStart) Prod.fst hle
    exact le_trans hstart (lastStart_le_vclock _ hkept)

/-- An active key keeps its start tag through a prune. -/
theorem startTag_prune {isActive : String → Bool} {key : String} (h : isActive key = true) :
    (c.prune isActive).1.startTag key = c.startTag key := by
  rw [startTag, vclock_prune, prune_state, if_pos (.inl h)]
  rfl

end FairClock
end Harvest.Fairness
