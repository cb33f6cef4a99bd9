import Harvest.Lib.Run
import Harvest.Fairness.Clock

/-!
# Debt and waiting under one clock

Runs of charges, prunes and idle resets of one clock. A key is in debt while its lag is positive.

Proved here:
* `Tagged.act`: a stored pass is one slot after a start tag that `V` has reached.
* `lag_charge_other`: while a key without debt waits, a claim moves no lag but that of its own key.
* `key_without_debt_is_picked`: such a key is picked within one claim for each rival, and one more.
* `prune_forgives_one_claim`: what a prune changes, in every state of a run.
-/

namespace Harvest.Fairness

open Harvest.Lib

inductive ClockAct
  | charge (key : String) (weight : ℚ)
  | prune (isActive : String → Bool)
  | reset (anyActive : Bool)

namespace FairClock

def act (c : FairClock) : ClockAct → FairClock
  | .charge key weight => c.charge key weight
  | .prune isActive => (c.prune isActive).1
  | .reset anyActive => (c.resetIfIdle anyActive).1

/-- The keys that claims over the given rows pick. Each claim has its own weights. -/
def picks {D : Type} [LinearOrder D] :
    FairClock → List (List (String × D) × (String → ℚ)) → List (Option String)
  | _, [] => []
  | c, (rows, weight) :: rest =>
    match c.pick rows with
    | some key => some key :: picks (c.charge key (weight key)) rest
    | none => none :: picks c rest

/-! ## A key without debt -/

section Waiting

variable {D : Type} [LinearOrder D] {c : FairClock} {key other : String}

theorem lag_nonneg (c : FairClock) (key : String) : 0 ≤ c.lag key := by
  rw [lag_eq]
  exact sub_nonneg.mpr (c.vclock_le_startTag key)

theorem pick_lag_le {rows : List (String × D)} {picked : String} (h : c.pick rows = some picked)
    {due : D} (hrow : (key, due) ∈ rows) : c.lag picked ≤ c.lag key := by
  rw [lag_eq, lag_eq]
  exact sub_le_sub_right (c.pick_startTag_le h hrow) _

theorem pick_mem {rows : List (String × D)} {picked : String} (h : c.pick rows = some picked) :
    picked ∈ rows.map Prod.fst := by
  obtain ⟨best, hbest, rfl⟩ := Option.map_eq_some_iff.mp h
  obtain ⟨row, hrow, rfl⟩ := List.mem_map.mp (minBy_mem hbest)
  exact List.mem_map.mpr ⟨row, hrow, rfl⟩

theorem pick_isSome {rows : List (String × D)} (h : key ∈ rows.map Prod.fst) :
    ∃ picked, c.pick rows = some picked := by
  cases rows with
  | nil => cases h
  | cons row rows => exact ⟨_, rfl⟩

/-- A claim of a key without debt does not move the clock. -/
theorem vclock_charge_of_lag (hlag : c.lag key = 0) (weight : ℚ) :
    (c.charge key weight).vclock = c.vclock := by
  rw [vclock_charge]
  rw [lag_eq] at hlag
  linarith

/-- It then leaves the lag of every other key. -/
theorem lag_charge_other (hlag : c.lag key = 0) (weight : ℚ) (hne : key ≠ other) :
    (c.charge key weight).lag other = c.lag other := by
  have hstart : c.startTag key ≤ c.startTag other := by
    rw [lag_eq] at hlag
    have hle := c.vclock_le_startTag other
    linarith
  rw [lag_eq, lag_eq, vclock_charge_of_lag hlag, c.startTag_charge_other hne weight hstart]

/-- The claimed key is in debt. -/
theorem lag_charge_self (hlag : c.lag key = 0) {weight : ℚ} (hweight : 0 < weight) :
    0 < (c.charge key weight).lag key := by
  have hslot : 0 < 1 / weight := one_div_pos.mpr hweight
  rw [lag_eq, vclock_charge_of_lag hlag, c.startTag_charge_self key hweight]
  rw [lag_eq] at hlag
  linarith

/-- **Run lemma.** The rivals without debt bound the claims before the key is picked. -/
theorem picked_within_fresh (rivals : Finset String)
    (claims : List (List (String × D) × (String → ℚ))) (hlag : c.lag key = 0)
    (hrows : ∀ claim ∈ claims, key ∈ claim.1.map Prod.fst ∧
      ∀ row ∈ claim.1, row.1 = key ∨ row.1 ∈ rivals)
    (hweight : ∀ claim ∈ claims, ∀ other, 0 < claim.2 other)
    (hlength : (rivals.filter fun other => c.lag other = 0).card < claims.length) :
    some key ∈ (c.picks claims).take ((rivals.filter fun other => c.lag other = 0).card + 1) := by
  induction claims generalizing c with
  | nil => cases hlength
  | cons claim claims ih =>
    obtain ⟨rows, weight⟩ := claim
    obtain ⟨hkey, hothers⟩ := hrows _ List.mem_cons_self
    obtain ⟨picked, hpick⟩ := @pick_isSome _ _ c key rows hkey
    unfold picks
    rw [hpick]
    by_cases hself : picked = key
    · rw [hself]
      exact List.mem_cons_self
    · -- a rival without debt was picked; it has debt now, and the others are as before
      obtain ⟨⟨_, due⟩, hrow, rfl⟩ := List.mem_map.mp hkey
      have hzero : c.lag picked = 0 :=
        le_antisymm (hlag ▸ pick_lag_le hpick hrow) (c.lag_nonneg picked)
      have hmem : picked ∈ rivals := by
        obtain ⟨row, hrow', rfl⟩ := List.mem_map.mp (pick_mem hpick)
        exact (hothers row hrow').resolve_left hself
      have hfresh : (rivals.filter fun other =>
          (c.charge picked (weight picked)).lag other = 0) =
            (rivals.filter fun other => c.lag other = 0).erase picked := by
        ext other
        rw [Finset.mem_erase, Finset.mem_filter, Finset.mem_filter]
        by_cases hother : other = picked
        · subst hother
          have hdebt := lag_charge_self hzero (hweight _ List.mem_cons_self other)
          constructor
          · exact fun h => absurd h.2 hdebt.ne'
          · exact fun h => absurd rfl h.1
        · rw [lag_charge_other hzero _ (Ne.symm hother)]
          tauto
      have hold : picked ∈ rivals.filter fun other => c.lag other = 0 :=
        Finset.mem_filter.mpr ⟨hmem, hzero⟩
      have hcard := Finset.card_erase_add_one hold
      have hrest := ih (c := c.charge picked (weight picked))
        (by rw [lag_charge_other hzero _ hself]; exact hlag)
        (fun claim hclaim => hrows claim (List.mem_cons_of_mem _ hclaim))
        (fun claim hclaim => hweight claim (List.mem_cons_of_mem _ hclaim))
        (by rw [hfresh]; rw [List.length_cons] at hlength; omega)
      rw [hfresh, hcard] at hrest
      exact List.mem_cons_of_mem _ hrest

end Waiting

/-- **A key without debt is served within `N` claims.** Whatever the clock went through before, a
key with lag 0 that has a row in every claim is among the first `N + 1` keys picked, if the other
rows belong to `N` keys and no prune runs meanwhile. -/
theorem key_without_debt_is_picked {D : Type} [LinearOrder D] (earlier : List ClockAct)
    (key : String) (rivals : Finset String) (claims : List (List (String × D) × (String → ℚ)))
    (hlag : (exec act empty earlier).lag key = 0)
    (hrows : ∀ claim ∈ claims, key ∈ claim.1.map Prod.fst ∧
      ∀ row ∈ claim.1, row.1 = key ∨ row.1 ∈ rivals)
    (hweight : ∀ claim ∈ claims, ∀ other, 0 < claim.2 other)
    (hlength : rivals.card < claims.length) :
    some key ∈ ((exec act empty earlier).picks claims).take (rivals.card + 1) := by
  have hfresh := Finset.card_filter_le rivals fun other => (exec act empty earlier).lag other = 0
  have hpicked := picked_within_fresh rivals claims hlag hrows hweight
    (Nat.lt_of_le_of_lt hfresh hlength)
  exact List.take_subset_take_left _ (Nat.succ_le_succ hfresh) hpicked

/-- A new key waits for two rivals that are due earlier. -/
theorem new_key_is_picked_third :
    let earlier : List ClockAct := [.charge "a" 1, .charge "b" (1 / 2)]
    let claim : List (String × Nat) × (String → ℚ) :=
      ([("a", 0), ("b", 0), ("new", 9)], fun _ => 1)
    (exec act empty earlier).lag "new" = 0 ∧
      some "new" ∈ ((exec act empty earlier).picks [claim, claim, claim]).take 3 := by
  intro earlier claim
  have hlag : (exec act empty earlier).lag "new" = 0 := by decide +kernel
  refine ⟨hlag, ?_⟩
  refine key_without_debt_is_picked earlier "new" {"a", "b"} [claim, claim, claim] hlag ?_ ?_ ?_
  · decide
  · intro other hother key
    simp only [List.mem_cons, List.not_mem_nil, or_false, or_self] at hother
    rw [hother]
    exact one_pos
  · decide

/-! ## Debt -/

section Debt

variable {weight : String → ℚ} {c : FairClock}

/-- Every stored pass is one slot after its start tag, and the clock has reached that tag. -/
def Tagged (weight : String → ℚ) (c : FairClock) : Prop :=
  ∀ key p, c.state key = some p → p.lastStart ≤ c.vclock ∧ p.pass ≤ c.vclock + 1 / weight key

/-- A charge has the fixed weight of its key. -/
def Weighted (weight : String → ℚ) : ClockAct → Prop
  | .charge key w => w = weight key
  | .prune _ | .reset _ => True

/-- `V` falls only by an idle reset. -/
theorem vclock_le_act (c : FairClock) {a : ClockAct} (hact : a ≠ .reset false) :
    c.vclock ≤ (c.act a).vclock := by
  cases a with
  | charge key w =>
    show c.vclock ≤ (c.charge key w).vclock
    rw [vclock_charge]
    exact c.vclock_le_startTag key
  | prune isActive => exact (c.vclock_prune isActive).ge
  | reset anyActive =>
    cases anyActive with
    | true => exact le_refl _
    | false => exact absurd rfl hact

theorem Tagged.startTag_le (h : Tagged weight c) (hweight : ∀ key, 0 < weight key) (key : String) :
    c.startTag key ≤ c.vclock + 1 / weight key := by
  have hslot : 0 < 1 / weight key := one_div_pos.mpr (hweight key)
  unfold startTag fairStart
  cases hp : c.keys[key]? with
  | none =>
    simp only [Option.map_none, Option.getD_none]
    linarith
  | some p =>
    simp only [Option.map_some, Option.getD_some]
    exact max_le (h key p hp).2 (by linarith)

theorem Tagged.act (h : Tagged weight c) {a : ClockAct} (ha : Weighted weight a) :
    Tagged weight (c.act a) := by
  intro key p hp
  cases a with
  | charge charged w =>
    obtain rfl : w = weight charged := ha
    refine ⟨lastStart_le_vclock _ hp, ?_⟩
    show p.pass ≤ (c.charge charged (weight charged)).vclock + _
    have hmoves := c.vclock_le_startTag charged
    rw [vclock_charge]
    unfold state FairClock.act at hp
    rw [charge_state] at hp
    split_ifs at hp with hkey
    · obtain rfl := Option.some.inj hp
      rw [hkey]
    · have hpass := (h key p hp).2
      linarith
  | prune isActive =>
    refine ⟨lastStart_le_vclock _ hp, ?_⟩
    show p.pass ≤ (c.prune isActive).1.vclock + _
    rw [vclock_prune]
    unfold state FairClock.act at hp
    rw [prune_state] at hp
    split_ifs at hp with hkept
    exact (h key p hp).2
  | reset anyActive =>
    cases anyActive with
    | true => exact h key p hp
    | false => exact absurd hp (by simp [FairClock.act, resetIfIdle, empty, state])

theorem tagged_run (acts : List ClockAct) (hacts : ∀ a ∈ acts, Weighted weight a) : Tagged weight (exec act empty acts) := by
  induction acts using List.reverseRecOn with
  | nil =>
    intro key p hp
    simp [exec, empty, state] at hp
  | append_singleton acts a ih =>
    rw [exec_append]
    refine (ih fun other hother => hacts other (List.mem_append_left _ hother)).act ?_
    exact hacts a (List.mem_append_right _ List.mem_cons_self)

theorem mem_toList_prune {isActive : String → Bool} {entry : String × FairPass} :
    entry ∈ (c.prune isActive).1.keys.toList ↔
      entry ∈ c.keys.toList ∧ (isActive entry.1 = true ∨ c.clockKey = some entry.1) := by
  rw [Std.TreeMap.mem_toList_iff_getElem?_eq_some, Std.TreeMap.mem_toList_iff_getElem?_eq_some,
    prune_state]
  split_ifs with hkept
  · exact ⟨fun h => ⟨h, hkept⟩, fun h => h.1⟩
  · exact ⟨nofun, fun h => absurd h.2 hkept⟩

theorem entryLe_antisymm {a b : String × FairPass} (hab : entryLe a b) (hba : entryLe b a) :
    a.1 = b.1 := by
  simp only [entryLe, lexLe, Bool.or_eq_true, Bool.and_eq_true, decide_eq_true_eq] at hab hba
  rcases hab with hlt | ⟨heq, hle⟩
  · rcases hba with hlt' | ⟨heq', -⟩
    · exact absurd hlt' hlt.asymm
    · exact absurd heq' hlt.ne'
  · rcases hba with hlt' | ⟨-, hle'⟩
    · exact absurd heq hlt'.ne'
    · exact le_antisymm hle hle'

/-- **The clock key is still the clock key after a prune**: the greatest entry stays. -/
theorem clockKey_prune (c : FairClock) (isActive : String → Bool) :
    (c.prune isActive).1.clockKey = c.clockKey := by
  cases hbest : maxBy entryLe c.keys.toList with
  | none =>
    have hnil : c.keys.toList = [] := by
      cases hl : c.keys.toList with
      | nil => rfl
      | cons entry rest =>
        rw [hl] at hbest
        cases hbest
    have hnil' : (c.prune isActive).1.keys.toList = [] := by
      rw [List.eq_nil_iff_forall_not_mem]
      intro entry hmem
      have hmem' := (mem_toList_prune.mp hmem).1
      rw [hnil] at hmem'
      cases hmem'
    unfold clockKey
    rw [hnil, hnil']
  | some best =>
    have hkey : c.clockKey = some best.1 := by
      unfold clockKey
      rw [hbest]
      rfl
    have hkept : best ∈ (c.prune isActive).1.keys.toList :=
      mem_toList_prune.mpr ⟨maxBy_mem hbest, Or.inr hkey⟩
    obtain ⟨best', hbest'⟩ : ∃ best', maxBy entryLe (c.prune isActive).1.keys.toList =
        some best' := by
      cases hl : (c.prune isActive).1.keys.toList with
      | nil =>
        rw [hl] at hkept
        cases hkept
      | cons entry rest => exact ⟨_, rfl⟩
    have hle : entryLe best' best := le_maxBy (lexLe_refl _ _) (lexLe_total _ _) (lexLe_trans _ _)
      hbest _ (mem_toList_prune.mp (maxBy_mem hbest')).1
    have hge : entryLe best best' := le_maxBy (lexLe_refl _ _) (lexLe_total _ _) (lexLe_trans _ _)
      hbest' _ hkept
    rw [hkey]
    unfold clockKey
    rw [hbest', Option.map_some, entryLe_antisymm hle hge]

/-- A second prune with the same test removes nothing. -/
theorem prune_prune (c : FairClock) (isActive : String → Bool) :
    ((c.prune isActive).1.prune isActive).2 = 0 ∧
      ∀ key, ((c.prune isActive).1.prune isActive).1.state key = (c.prune isActive).1.state key := by
  have hkept (key : String) (p : FairPass) (hp : (c.prune isActive).1.keys[key]? = some p) :
      isActive key = true ∨ (c.prune isActive).1.clockKey = some key := by
    rw [prune_state] at hp
    split_ifs at hp with hkept
    rw [clockKey_prune]
    exact hkept
  constructor
  · have hsize : ((c.prune isActive).1.keys.filter fun key _ =>
        isActive key || (c.prune isActive).1.clockKey = some key).size =
          (c.prune isActive).1.keys.size := by
      rw [Std.TreeMap.size_filter_eq_size_iff]
      intro key hmem
      rw [Std.TreeMap.getKey_eq, Bool.or_eq_true, decide_eq_true_eq]
      exact hkept key _ (Std.TreeMap.getElem?_eq_some_getElem hmem)
    show (c.prune isActive).1.keys.size - _ = 0
    rw [hsize, Nat.sub_self]
  · intro key
    unfold state
    rw [prune_state (c.prune isActive).1]
    cases hp : (c.prune isActive).1.keys[key]? with
    | none => split_ifs <;> rfl
    | some p => rw [if_pos (hkept key p hp)]

theorem startTag_of_state_none {key : String} (h : c.state key = none) :
    c.startTag key = c.vclock := by
  unfold startTag fairStart
  rw [show c.keys[key]? = none from h]
  rfl

end Debt

/-- **Pruning forgives at most one claim of debt.** In every state of a run of charges, prunes and
idle resets with one positive weight per key: each stored key is within one slot of `V`; a prune
leaves `V`, the start tags of the active keys, and nothing for a second prune to remove, and takes
at most one slot from a key that it deletes; and `V` falls only by an idle reset. -/
theorem prune_forgives_one_claim (weight : String → ℚ) (hweight : ∀ key, 0 < weight key)
    (acts : List ClockAct) (hacts : ∀ a ∈ acts, Weighted weight a) (isActive : String → Bool) :
    let c := exec act empty acts
    let pruned := (c.prune isActive).1
    (∀ key p, c.state key = some p →
      p.lastStart ≤ c.vclock ∧ p.pass ≤ c.vclock + 1 / weight key) ∧
    pruned.vclock = c.vclock ∧
    (∀ key, isActive key = true → pruned.startTag key = c.startTag key) ∧
    (∀ key p, c.state key = some p → pruned.state key = none →
      pruned.startTag key ≤ c.startTag key ∧
      c.startTag key ≤ pruned.startTag key + 1 / weight key) ∧
    (pruned.prune isActive).2 = 0 ∧
    (∀ key, (pruned.prune isActive).1.state key = pruned.state key) ∧
    ∀ a, a ≠ .reset false → c.vclock ≤ (c.act a).vclock := by
  intro c pruned
  have htagged : Tagged weight c := tagged_run acts hacts
  obtain ⟨hcount, hsame⟩ := c.prune_prune isActive
  refine ⟨htagged, c.vclock_prune isActive, fun key => c.startTag_prune, fun key p _ hgone => ?_,
    hcount, hsame, fun a => c.vclock_le_act⟩
  have hstart : pruned.startTag key = c.vclock :=
    (startTag_of_state_none hgone).trans (c.vclock_prune isActive)
  rw [hstart]
  exact ⟨c.vclock_le_startTag key, htagged.startTag_le hweight key⟩

/-- The prune of a key that was charged twice. -/
theorem prune_after_two_charges :
    let weight : String → ℚ := fun key => if key = "a" then 2 else 1
    let acts : List ClockAct := [.charge "a" 2, .charge "a" 2, .charge "b" 1, .prune fun _ => true]
    let c := exec act empty acts
    let pruned := (c.prune fun _ => false).1
    pruned.state "a" = none ∧ c.startTag "a" ≤ pruned.startTag "a" + 1 / weight "a" ∧
      pruned.vclock = c.vclock := by
  intro weight acts c pruned
  have hweight : ∀ key, 0 < weight key := by
    intro key
    simp only [weight]
    split <;> norm_num
  have hacts : ∀ a ∈ acts, Weighted weight a := by
    intro a ha
    simp only [acts, List.mem_cons, List.not_mem_nil, or_false] at ha
    rcases ha with rfl | rfl | rfl | rfl
    · rfl
    · rfl
    · rfl
    · trivial
  obtain ⟨-, hclock, -, hforgiven, -⟩ := prune_forgives_one_claim weight hweight acts hacts
    fun _ => false
  have hgone : pruned.state "a" = none := by decide +kernel
  have hstored : c.state "a" = some ⟨1, 1 / 2⟩ := by decide +kernel
  exact ⟨hgone, (hforgiven "a" _ hstored hgone).2, hclock⟩

end FairClock
end Harvest.Fairness
