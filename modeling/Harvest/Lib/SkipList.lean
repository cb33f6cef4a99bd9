import Mathlib.Data.List.Basic
import Mathlib.Order.Lattice

/-!
# Sorted lists that skip dead entries

A growing sorted list with a link from each entry to itself or to a later one. A query
looks for the first entry from a bound on that is not dead; it follows the links and
shortens the path that it takes. An entry that is dead stays dead.

Proved here:
* `SkipList.firstLive_spec`: a query ends at the first live entry, and keeps the links sound.
* `SkipList.Sound.query`: its answer is the answer of a plain search.
* `SkipList.Sound.push`, `SkipList.Sound.mono`: growth of the list and of the dead set
  keeps the links sound.
-/

namespace Harvest.Lib

/-- The number of leading elements with `p`: where a binary search splits a list in
which these come first. -/
def partitionPoint {α : Type*} (p : α → Bool) (l : List α) : Nat := (l.takeWhile p).length

theorem drop_partitionPoint {α : Type*} (p : α → Bool) (l : List α) :
    l.drop (partitionPoint p l) = l.dropWhile p := by
  induction l with
  | nil => rfl
  | cons a l ih =>
    cases h : p a with
    | true => simpa [partitionPoint, h] using ih
    | false => simp [partitionPoint, h]

/-- In a sorted list, what is not below a bound comes after everything that is. -/
theorem dropWhile_lt_eq_filter {α : Type*} [LinearOrder α] {l : List α}
    (h : l.Pairwise (· < ·)) (bound : α) :
    l.dropWhile (· < bound) = l.filter (bound ≤ ·) := by
  induction l with
  | nil => rfl
  | cons a l ih =>
    obtain ⟨ha, hl⟩ := List.pairwise_cons.mp h
    by_cases hlt : a < bound
    · simp [hlt, ih hl, not_le.mpr hlt]
    · have hall : ∀ x ∈ l, bound ≤ x := fun x hx =>
        le_trans (not_lt.mp hlt) (le_of_lt (ha x hx))
      simpa [hlt, not_lt.mp hlt] using (List.filter_eq_self.mpr (by simpa using hall)).symm

theorem find?_drop_eq {α : Type*} {l : List α} {p : α → Bool} {start entry : Nat} (hle : start ≤ entry)
    (hdead : ∀ m, start ≤ m → m < entry → ∀ a, l[m]? = some a → ¬ p a)
    (hlive : ∀ a, l[entry]? = some a → p a) : (l.drop start).find? p = l[entry]? := by
  obtain ⟨n, rfl⟩ := Nat.exists_eq_add_of_le hle
  induction n generalizing start with
  | zero =>
    rw [Nat.add_zero] at hlive ⊢
    cases ha : l[start]? with
    | none =>
      rw [List.drop_eq_nil_of_le (List.getElem?_eq_none_iff.mp ha)]
      rfl
    | some a =>
      obtain ⟨hlt, rfl⟩ := List.getElem?_eq_some_iff.mp ha
      rw [List.drop_eq_getElem_cons hlt]
      exact List.find?_cons_of_pos (hlive _ ha)
  | succ n ih =>
    have hrec := @ih (start + 1) (by omega)
      (fun m hm hlt => hdead m (by omega) (by omega))
      (by rwa [show start + 1 + n = start + (n + 1) by omega])
    rw [show start + 1 + n = start + (n + 1) by omega] at hrec
    cases ha : l[start]? with
    | none =>
      have hlen := List.getElem?_eq_none_iff.mp ha
      rw [List.drop_eq_nil_of_le hlen, List.getElem?_eq_none (by omega)]
      rfl
    | some a =>
      obtain ⟨hlt, rfl⟩ := List.getElem?_eq_some_iff.mp ha
      rw [List.drop_eq_getElem_cons hlt,
        List.find?_cons_of_neg (hdead start (Nat.le_refl _) (by omega) _ ha), hrec]

theorem partitionPoint_le {α : Type*} (p : α → Bool) (l : List α) : partitionPoint p l ≤ l.length :=
  (List.takeWhile_sublist p).length_le

structure SkipList (α : Type*) where
  positions : List α
  /-- A slot for each entry, and one for the end. It is empty until the first push. -/
  next : List Nat
deriving DecidableEq, Repr

namespace SkipList

variable {α : Type*}

def empty : SkipList α := ⟨[], []⟩

/-- Where the slot `i` links to. -/
def link (next : List Nat) (i : Nat) : Nat := next.getD i i

/-- The first live slot from `i` on. The loop halves the path that it follows, and links a
dead entry to the one after it. Each turn moves on, so `fuel` bounds the turns. -/
def firstLive (dead : Nat → Bool) : Nat → List Nat → Nat → List Nat × Nat
  | 0, next, i => (next, i)
  | fuel + 1, next, i =>
    let up := link next i
    if up ≠ i then
      firstLive dead fuel (next.set i (link next up)) (link next up)
    else if i + 1 = next.length || ! dead i then
      (next, i)
    else
      firstLive dead fuel (next.set i (i + 1)) (i + 1)

/-- The slots in use: the first push makes the slot of the end. -/
def slots (l : SkipList α) : List Nat := if l.next.isEmpty then [0] else l.next

def push (l : SkipList α) (position : α) : SkipList α :=
  { positions := l.positions ++ [position]
    next := l.slots ++ [l.positions.length + 1] }

section Query

variable [LinearOrder α]

/-- Whether the entry in a slot is dead. The end is not. -/
def deadAt (positions : List α) (consumed : α → Bool) (k : Nat) : Bool :=
  (positions[k]?).any consumed

/-- The first position from `bound` on that is not consumed. -/
def firstUnconsumed (l : SkipList α) (bound : α) (consumed : α → Bool) :
    Option α × SkipList α :=
  if l.positions.isEmpty then
    (none, l)
  else
    let start := partitionPoint (· < bound) l.positions
    let (next, entry) := firstLive (deadAt l.positions consumed) l.next.length l.next start
    (l.positions[entry]?, { l with next := next })

end Query

/-! ## Links -/

/-- Every link points at its own slot or a later one, and jumps over dead entries only. -/
structure Links (dead : Nat → Bool) (next : List Nat) : Prop where
  bounds : ∀ k < next.length, k ≤ link next k ∧ link next k < next.length
  skips : ∀ k < next.length, ∀ m, k ≤ m → m < link next k → dead m

section Links

variable {dead : Nat → Bool} {next : List Nat}

theorem link_set {i j k : Nat} (hi : i < next.length) :
    link (next.set i j) k = if k = i then j else link next k := by
  unfold link
  rw [List.getD_eq_getElem?_getD, List.getD_eq_getElem?_getD, List.getElem?_set]
  split_ifs with h₁ h₂
  · rfl
  · exact absurd h₁.symm h₂
  · rename_i h₂
    exact absurd h₂.symm h₁
  · rfl

/-- A longer link is sound if everything it now jumps over is dead. -/
theorem Links.set (h : Links dead next) {i j : Nat} (hi : i < next.length) (hij : i ≤ j)
    (hj : j < next.length) (hdead : ∀ m, i ≤ m → m < j → dead m) : Links dead (next.set i j) := by
  constructor
  · intro k hk
    rw [List.length_set] at hk ⊢
    rw [link_set hi]
    split_ifs with heq
    · exact ⟨heq ▸ hij, hj⟩
    · exact h.bounds k hk
  · intro k hk m hkm hm
    rw [List.length_set] at hk
    rw [link_set hi] at hm
    split_ifs at hm with heq
    · exact hdead m (heq ▸ hkm) hm
    · exact h.skips k hk m hkm hm

theorem firstLive_spec (h : Links dead next) (fuel : Nat) {i : Nat} (hi : i < next.length)
    (hfuel : next.length ≤ i + fuel) :
    Links dead (firstLive dead fuel next i).1 ∧
      (firstLive dead fuel next i).1.length = next.length ∧
      i ≤ (firstLive dead fuel next i).2 ∧
      (firstLive dead fuel next i).2 < next.length ∧
      ((firstLive dead fuel next i).2 + 1 = next.length ∨
        ¬ dead (firstLive dead fuel next i).2) ∧
      ∀ m, i ≤ m → m < (firstLive dead fuel next i).2 → dead m := by
  induction fuel generalizing next i with
  | zero => omega
  | succ fuel ih =>
    obtain ⟨hup, hlt⟩ := h.bounds i hi
    unfold firstLive
    simp only
    split_ifs with hmove hstop
    · -- The path is halved: two links become one.
      obtain ⟨hup', hlt'⟩ := h.bounds _ hlt
      have hdead : ∀ m, i ≤ m → m < link next (link next i) → dead m := fun m him hm => by
        by_cases hfirst : m < link next i
        · exact h.skips i hi m him hfirst
        · exact h.skips _ hlt m (Nat.not_lt.mp hfirst) hm
      have hset := h.set hi (Nat.le_trans hup hup') hlt' hdead
      obtain ⟨hlinks, hlen, hle, hbound, hlive, hskip⟩ :=
        ih hset (i := link next (link next i)) (by simpa using hlt') (by simp; omega)
      rw [List.length_set] at hlen hbound hlive
      refine ⟨hlinks, hlen, by omega, hbound, hlive, fun m him hm => ?_⟩
      by_cases hfirst : m < link next (link next i)
      · exact hdead m him hfirst
      · exact hskip m (Nat.not_lt.mp hfirst) hm
    · refine ⟨h, rfl, Nat.le_refl i, hi, ?_, fun m him hm => absurd him (Nat.not_le.mpr hm)⟩
      simpa using hstop
    · simp only [Bool.or_eq_true, decide_eq_true_eq, not_or, Bool.not_eq_true',
        Bool.not_eq_false] at hstop
      have hdead : ∀ m, i ≤ m → m < i + 1 → dead m := fun m him hm => by
        obtain rfl : m = i := by omega
        exact hstop.2
      have hset := h.set (j := i + 1) hi (by omega) (by omega) hdead
      obtain ⟨hlinks, hlen, hle, hbound, hlive, hskip⟩ :=
        ih hset (i := i + 1) (by simp; omega) (by simp; omega)
      rw [List.length_set] at hlen hbound hlive
      refine ⟨hlinks, hlen, by omega, hbound, hlive, fun m him hm => ?_⟩
      by_cases hfirst : m < i + 1
      · exact hdead m him hfirst
      · exact hskip m (Nat.not_lt.mp hfirst) hm

end Links

/-! ## Soundness of a list -/

section Sound

variable [LinearOrder α] {consumed : α → Bool} {l : SkipList α}

structure Sound (consumed : α → Bool) (l : SkipList α) : Prop where
  sorted : l.positions.Pairwise (· < ·)
  length : l.positions ≠ [] → l.next.length = l.positions.length + 1
  unused : l.positions = [] → l.next = []
  links : Links (deadAt l.positions consumed) l.next

theorem sound_empty : Sound consumed (empty : SkipList α) :=
  ⟨by simp [empty], by simp [empty], fun _ => rfl, ⟨by simp [empty], by simp [empty]⟩⟩

/-- A dead entry never comes back, so a link never goes stale. -/
theorem Sound.mono (h : Sound consumed l) {consumed' : α → Bool}
    (hle : ∀ p, consumed p → consumed' p) : Sound consumed' l := by
  refine ⟨h.sorted, h.length, h.unused, h.links.bounds, fun k hk m hkm hm => ?_⟩
  have hdead := h.links.skips k hk m hkm hm
  unfold deadAt at hdead ⊢
  cases hp : l.positions[m]? with
  | none => simp [hp] at hdead
  | some p =>
    rw [hp] at hdead
    exact hle p hdead

theorem Sound.slots_length (h : Sound consumed l) : l.slots.length = l.positions.length + 1 := by
  unfold slots
  by_cases hempty : l.positions = []
  · simp [h.unused hempty, hempty]
  · have hlen := h.length hempty
    have hne : l.next ≠ [] := by
      intro hnil
      simp [hnil] at hlen
    simpa [List.isEmpty_eq_false_iff.mpr hne] using hlen

theorem Sound.slots_links (h : Sound consumed l) :
    Links (deadAt l.positions consumed) l.slots := by
  unfold slots
  by_cases hnil : l.next = []
  · constructor <;> simp [hnil, link]
  · simpa [List.isEmpty_eq_false_iff.mpr hnil] using h.links

theorem link_concat {next : List Nat} {j k : Nat} (hk : k ≤ next.length) :
    link (next ++ [j]) k = if k = next.length then j else link next k := by
  unfold link
  split_ifs with h
  · simp [h]
  · rw [List.getD_eq_getElem?_getD, List.getD_eq_getElem?_getD,
      List.getElem?_append_left (by omega)]

theorem Sound.push (h : Sound consumed l) {position : α} (hlast : ∀ p ∈ l.positions, p < position) :
    Sound consumed (l.push position) := by
  have hlen := h.slots_length
  have hlinks := h.slots_links
  refine ⟨?_, fun _ => by simp [SkipList.push, hlen], fun hnil => by simp [SkipList.push] at hnil,
    ?_, ?_⟩
  · exact List.pairwise_append.mpr ⟨h.sorted, by simp, by simpa using hlast⟩
  · intro k hk
    simp only [SkipList.push, List.length_append, List.length_singleton] at hk ⊢
    rw [link_concat (by omega)]
    split_ifs with hend
    · omega
    · have := hlinks.bounds k (by omega)
      omega
  · intro k hk m hkm hm
    simp only [SkipList.push, List.length_append, List.length_singleton] at hk hm ⊢
    rw [link_concat (by omega)] at hm
    split_ifs at hm with hend
    · omega
    · have hdead := hlinks.skips k (by omega) m hkm hm
      unfold deadAt at hdead ⊢
      cases hp : l.positions[m]? with
      | none => simp [hp] at hdead
      | some p =>
        obtain ⟨hlt, -⟩ := List.getElem?_eq_some_iff.mp hp
        rw [List.getElem?_append_left hlt, hp]
        simpa [hp] using hdead

/-- **A query answers as a plain search.** It changes no position, and its links are sound. -/
theorem Sound.query (h : Sound consumed l) (bound : α) :
    (l.firstUnconsumed bound consumed).1 =
        l.positions.find? (fun p => decide (bound ≤ p) && ! consumed p) ∧
      (l.firstUnconsumed bound consumed).2.positions = l.positions ∧
      Sound consumed (l.firstUnconsumed bound consumed).2 := by
  unfold firstUnconsumed
  by_cases hempty : l.positions = []
  · simp [hempty, h]
  simp only [List.isEmpty_eq_false_iff.mpr hempty]
  have hlen := h.length hempty
  have hstart := partitionPoint_le (fun p => decide (p < bound)) l.positions
  obtain ⟨hlinks, hlength, hle, -, hlive, hdead⟩ := firstLive_spec h.links
    l.next.length (i := partitionPoint (fun p => decide (p < bound)) l.positions)
    (by omega) (by omega)
  refine ⟨?_, rfl, ⟨h.sorted, fun _ => hlength.trans hlen, fun hnil => absurd hnil hempty, hlinks⟩⟩
  have hfind : l.positions.find? (fun p => decide (bound ≤ p) && ! consumed p) =
      (l.positions.drop (partitionPoint (fun p => decide (p < bound)) l.positions)).find?
        fun p => ! consumed p := by
    rw [drop_partitionPoint, dropWhile_lt_eq_filter h.sorted bound, List.find?_filter]
    simp
  rw [hfind]
  refine (find?_drop_eq hle (fun m hm hlt a ha => ?_) fun a ha => ?_).symm
  · have := hdead m hm hlt
    simpa [deadAt, ha] using this
  · obtain ⟨hlt, -⟩ := List.getElem?_eq_some_iff.mp ha
    rcases hlive with hend | hlive
    · omega
    · simpa [deadAt, ha] using hlive

end Sound
end SkipList
end Harvest.Lib
