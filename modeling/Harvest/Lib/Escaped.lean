import Mathlib.Data.List.Basic

/-!
# Lists joined with escapes

Items are joined with a separator; inside an item, the separator and the escape mark are preceded
by the escape mark.

Proved here:
* `readEscaped_eq_some`: the reader accepts exactly the joined texts and gives their items back.
* `joinEscaped_inj`: a joined text determines its items, unless there are none.
-/

namespace Harvest.Lib

/-- Puts more in front of the first item. -/
def prependItem {α : Type*} (item : List α) : List (List α) → List (List α)
  | [] => []
  | first :: rest => (item ++ first) :: rest

theorem prependItem_cons {α : Type*} (item first : List α) (rest : List (List α)) :
    prependItem item (first :: rest) = (item ++ first) :: rest := rfl

theorem prependItem_nil {α : Type*} (items : List (List α)) : prependItem [] items = items := by
  cases items <;> rfl

theorem prependItem_prependItem {α : Type*} (item : List α) (c : α) (items : List (List α)) :
    prependItem [c] (prependItem item items) = prependItem (c :: item) items := by
  cases items <;> rfl

theorem prependItem_ne_nil {α : Type*} (item : List α) {items : List (List α)} (h : items ≠ []) :
    prependItem item items ≠ [] := by
  cases items with
  | nil => exact h
  | cons first rest => exact List.cons_ne_nil _ _

section Escaped

variable {α : Type*} [DecidableEq α] (mark sep : α)

def escape (item : List α) : List α :=
  item.flatMap fun c => if c = mark ∨ c = sep then [mark, c] else [c]

def joinEscaped (items : List (List α)) : List α := [sep].intercalate (items.map (escape mark sep))

/-- Reads on after a mark, or not after one. A mark stands before another mark or a separator,
nowhere else. -/
def readFrom : Bool → List α → Option (List (List α))
  | false, [] => some [[]]
  | true, [] => none
  | true, c :: text =>
    if c = mark ∨ c = sep then (readFrom false text).map (prependItem [c]) else none
  | false, c :: text =>
    if c = mark then readFrom true text
    else if c = sep then (readFrom false text).map ([] :: ·)
    else (readFrom false text).map (prependItem [c])

def readEscaped (text : List α) : Option (List (List α)) := readFrom mark sep false text

variable {mark sep}

theorem readFrom_marked (c : α) (text : List α) : readFrom mark sep true (c :: text) =
    if c = mark ∨ c = sep then (readFrom mark sep false text).map (prependItem [c]) else none := rfl

theorem readFrom_unmarked (c : α) (text : List α) : readFrom mark sep false (c :: text) =
    if c = mark then readFrom mark sep true text
    else if c = sep then (readFrom mark sep false text).map ([] :: ·)
    else (readFrom mark sep false text).map (prependItem [c]) := rfl

theorem escape_cons (c : α) (item : List α) : escape mark sep (c :: item) =
    (if c = mark ∨ c = sep then [mark, c] else [c]) ++ escape mark sep item := rfl

theorem joinEscaped_singleton (item : List α) :
    joinEscaped mark sep [item] = escape mark sep item := List.intercalate_singleton

theorem joinEscaped_cons_cons (item next : List α) (items : List (List α)) :
    joinEscaped mark sep (item :: next :: items) =
      escape mark sep item ++ sep :: joinEscaped mark sep (next :: items) := by
  rw [joinEscaped, List.map_cons, List.map_cons, List.intercalate_cons_cons, List.append_assoc]
  rfl

theorem mem_escape {c : α} {item : List α} (h : c ∈ escape mark sep item) :
    c = mark ∨ c ∈ item := by
  obtain ⟨d, hd, hc⟩ := List.mem_flatMap.mp h
  split_ifs at hc with hescaped
  · rcases List.mem_cons.mp hc with rfl | hc
    · exact Or.inl rfl
    · exact Or.inr (List.mem_singleton.mp hc ▸ hd)
  · exact Or.inr (List.mem_singleton.mp hc ▸ hd)

theorem mem_joinEscaped {c : α} {items : List (List α)} (h : c ∈ joinEscaped mark sep items) :
    c = mark ∨ c = sep ∨ ∃ item ∈ items, c ∈ item := by
  induction items with
  | nil => cases h
  | cons item items ih =>
    have hfirst : c ∈ escape mark sep item → c = mark ∨ c = sep ∨ ∃ other ∈ item :: items, c ∈ other :=
      fun hc => (mem_escape hc).imp_right fun hin => Or.inr ⟨item, List.mem_cons_self, hin⟩
    cases items with
    | nil =>
      rw [joinEscaped_singleton] at h
      exact hfirst h
    | cons next items =>
      rw [joinEscaped_cons_cons, List.mem_append, List.mem_cons] at h
      rcases h with h | h | h
      · exact hfirst h
      · exact Or.inr (Or.inl h)
      · refine (ih h).imp_right (Or.imp_right ?_)
        rintro ⟨other, hother, hc⟩
        exact ⟨other, List.mem_cons_of_mem _ hother, hc⟩

theorem joinEscaped_prependItem (c : α) {items : List (List α)} (h : items ≠ []) :
    joinEscaped mark sep (prependItem [c] items) =
      (if c = mark ∨ c = sep then [mark, c] else [c]) ++ joinEscaped mark sep items := by
  cases items with
  | nil => exact absurd rfl h
  | cons first rest =>
    cases rest with
    | nil => rw [prependItem_cons, joinEscaped_singleton, joinEscaped_singleton, List.singleton_append,
        escape_cons]
    | cons next rest => rw [prependItem_cons, joinEscaped_cons_cons, joinEscaped_cons_cons,
        List.singleton_append, escape_cons, List.append_assoc]

/-! ## What the reader does in front of a text -/

theorem readEscaped_sep (hne : mark ≠ sep) (text : List α) :
    readEscaped mark sep (sep :: text) = (readEscaped mark sep text).map ([] :: ·) := by
  rw [readEscaped, readFrom_unmarked, if_neg hne.symm, if_pos rfl]
  rfl

theorem readEscaped_mark {c : α} (hc : c = mark ∨ c = sep) (text : List α) :
    readEscaped mark sep (mark :: c :: text) =
      (readEscaped mark sep text).map (prependItem [c]) := by
  rw [readEscaped, readFrom_unmarked, if_pos rfl, readFrom_marked, if_pos hc]
  rfl

theorem readEscaped_plain {c : α} (hc : ¬ (c = mark ∨ c = sep)) (text : List α) :
    readEscaped mark sep (c :: text) = (readEscaped mark sep text).map (prependItem [c]) := by
  obtain ⟨hmark, hsep⟩ := not_or.mp hc
  rw [readEscaped, readFrom_unmarked, if_neg hmark, if_neg hsep]
  rfl

theorem readEscaped_escape (item text : List α) :
    readEscaped mark sep (escape mark sep item ++ text) =
      (readEscaped mark sep text).map (prependItem item) := by
  induction item with
  | nil =>
    rw [funext prependItem_nil, Option.map_id']
    rfl
  | cons c item ih =>
    have hcompose : (prependItem [c] ∘ prependItem item) = prependItem (c :: item) :=
      funext (prependItem_prependItem item c)
    rw [escape_cons, List.append_assoc]
    by_cases hc : c = mark ∨ c = sep
    · rw [if_pos hc, List.cons_append, List.singleton_append, readEscaped_mark hc, ih,
        Option.map_map, hcompose]
    · rw [if_neg hc, List.singleton_append, readEscaped_plain hc, ih, Option.map_map, hcompose]

/-! ## Reading and joining -/

theorem readEscaped_joinEscaped (hne : mark ≠ sep) {items : List (List α)} (h : items ≠ []) :
    readEscaped mark sep (joinEscaped mark sep items) = some items := by
  induction items with
  | nil => exact absurd rfl h
  | cons item items ih =>
    cases items with
    | nil =>
      rw [joinEscaped_singleton, ← List.append_nil (escape mark sep item), readEscaped_escape,
        readEscaped, readFrom, Option.map_some, prependItem_cons, List.append_nil]
    | cons next items =>
      rw [joinEscaped_cons_cons, readEscaped_escape, readEscaped_sep hne,
        ih (List.cons_ne_nil _ _), Option.map_some, Option.map_some, prependItem_cons,
        List.append_nil]

/-- What is read joins to the text that was read. After a mark, the mark is in front of it. -/
theorem joinEscaped_of_readFrom {text : List α} : ∀ {marked : Bool} {items : List (List α)},
    readFrom mark sep marked text = some items → items ≠ [] ∧
      joinEscaped mark sep items = if marked then mark :: text else text := by
  induction text with
  | nil =>
    intro marked items h
    cases marked with
    | false =>
      rw [readFrom, Option.some.injEq] at h
      subst h
      exact ⟨List.cons_ne_nil _ _, rfl⟩
    | true => cases h
  | cons c text ih =>
    intro marked items h
    cases marked with
    | true =>
      rw [readFrom_marked, Option.ite_none_right_eq_some, Option.map_eq_some_iff] at h
      obtain ⟨hc, rest, hrest, rfl⟩ := h
      obtain ⟨hne, hjoin⟩ := ih hrest
      refine ⟨prependItem_ne_nil _ hne, ?_⟩
      rw [joinEscaped_prependItem c hne, hjoin, if_pos hc]
      rfl
    | false =>
      rw [readFrom_unmarked] at h
      by_cases hmark : c = mark
      · rw [if_pos hmark] at h
        subst hmark
        exact ih h
      · rw [if_neg hmark] at h
        by_cases hsep : c = sep
        · rw [if_pos hsep, Option.map_eq_some_iff] at h
          obtain ⟨rest, hrest, rfl⟩ := h
          obtain ⟨hne, hjoin⟩ := ih hrest
          refine ⟨List.cons_ne_nil _ _, ?_⟩
          obtain ⟨next, rest, rfl⟩ := List.exists_cons_of_ne_nil hne
          rw [joinEscaped_cons_cons, hjoin, hsep]
          rfl
        · rw [if_neg hsep, Option.map_eq_some_iff] at h
          obtain ⟨rest, hrest, rfl⟩ := h
          obtain ⟨hne, hjoin⟩ := ih hrest
          refine ⟨prependItem_ne_nil _ hne, ?_⟩
          rw [joinEscaped_prependItem c hne, hjoin, if_neg (not_or.mpr ⟨hmark, hsep⟩)]
          rfl

/-- **The reader accepts exactly the joined texts.** -/
theorem readEscaped_eq_some (hne : mark ≠ sep) {text : List α} {items : List (List α)} :
    readEscaped mark sep text = some items ↔
      items ≠ [] ∧ text = joinEscaped mark sep items := by
  constructor
  · intro h
    obtain ⟨hitems, hjoin⟩ := joinEscaped_of_readFrom h
    exact ⟨hitems, hjoin.symm⟩
  · rintro ⟨hitems, rfl⟩
    exact readEscaped_joinEscaped hne hitems

theorem joinEscaped_inj (hne : mark ≠ sep) {items items' : List (List α)} (h : items ≠ [])
    (h' : items' ≠ []) (heq : joinEscaped mark sep items = joinEscaped mark sep items') :
    items = items' := by
  have hread := readEscaped_joinEscaped hne h
  rw [heq, readEscaped_joinEscaped hne h', Option.some.injEq] at hread
  exact hread.symm

end Escaped

end Harvest.Lib
