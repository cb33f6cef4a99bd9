import Mathlib.Data.List.Basic

/-!
# A list with elements inserted

A list in which elements with a property were inserted at any positions of another.

Proved here:
* `Inserted.cons_inv`, `Inserted.split_map`: what stands before an element of the original comes
  before it there, or was inserted.
* `Inserted.filterMap`, `Inserted.mem`: what the inserted elements do not contribute to comes from
  the original.
-/

namespace Harvest.Lib

variable {α β : Type*}

/-- Elements with `p` were inserted into the first list. -/
inductive Inserted (p : α → Prop) : List α → List α → Prop
  | nil : Inserted p [] []
  | insert {a : α} {l l' : List α} (ha : p a) (h : Inserted p l l') : Inserted p l (a :: l')
  | keep (a : α) {l l' : List α} (h : Inserted p l l') : Inserted p (a :: l) (a :: l')

namespace Inserted

variable {p : α → Prop} {l l' more : List α} {a : α}

theorem refl (l : List α) : Inserted p l l := by
  induction l with
  | nil => exact .nil
  | cons a l ih => exact .keep a ih

/-- Nothing but insertions. -/
theorem nil_inv (h : Inserted p [] l) : ∀ x ∈ l, p x := by
  generalize horiginal : ([] : List α) = original at h
  induction h with
  | nil => exact nofun
  | insert ha _ ih =>
    intro x hx
    rcases List.mem_cons.mp hx with rfl | hx
    · exact ha
    · exact ih horiginal x hx
  | keep => cases horiginal

/-- What stands before the first element of the original was inserted. -/
theorem cons_inv (h : Inserted p (a :: l) l') :
    ∃ front rest, l' = front ++ a :: rest ∧ (∀ x ∈ front, p x) ∧ Inserted p l rest := by
  generalize horiginal : a :: l = original at h
  induction h with
  | nil => cases horiginal
  | @insert b _ _ hb _ ih =>
    obtain ⟨front, rest, rfl, hfront, hrest⟩ := ih horiginal
    refine ⟨b :: front, rest, rfl, fun x hx => ?_, hrest⟩
    rcases List.mem_cons.mp hx with rfl | hx
    · exact hb
    · exact hfront x hx
  | @keep b original rest hrest =>
    obtain ⟨rfl, rfl⟩ := List.cons.inj horiginal
    exact ⟨[], rest, rfl, nofun, hrest⟩

/-- More insertions in front. -/
theorem prepend {front : List α} (hfront : ∀ x ∈ front, p x) (h : Inserted p l l') :
    Inserted p l (front ++ l') := by
  induction front with
  | nil => exact h
  | cons b front ih =>
    exact .insert (hfront b List.mem_cons_self)
      (ih fun x hx => hfront x (List.mem_cons_of_mem b hx))

/-- What stands before an element of the original comes before it there, or was inserted. -/
theorem split_map {f : β → α} {images : List β} (h : Inserted p (l ++ a :: more) (images.map f)) :
    ∃ passed b rest, images = passed ++ b :: rest ∧ f b = a ∧
      (∀ x ∈ passed, f x ∈ l ∨ p (f x)) ∧ Inserted p more (rest.map f) := by
  induction l generalizing images with
  | nil =>
    obtain ⟨front, after, heq, hfront, hafter⟩ := cons_inv h
    obtain ⟨passed, others, rfl, rfl, hothers⟩ := List.map_eq_append_iff.mp heq
    obtain ⟨b, rest, rfl, hb, rfl⟩ := List.map_eq_cons_iff.mp hothers
    exact ⟨passed, b, rest, rfl, hb, fun x hx => .inr (hfront _ (List.mem_map_of_mem hx)), hafter⟩
  | cons first l ih =>
    obtain ⟨front, after, heq, hfront, hafter⟩ := cons_inv h
    obtain ⟨inserted, others, rfl, rfl, hothers⟩ := List.map_eq_append_iff.mp heq
    obtain ⟨c, others, rfl, rfl, rfl⟩ := List.map_eq_cons_iff.mp hothers
    obtain ⟨passed, b, rest, rfl, hb, hpassed, hrest⟩ := ih hafter
    refine ⟨inserted ++ c :: passed, b, rest, by simp, hb, fun x hx => ?_, hrest⟩
    rcases List.mem_append.mp hx with hx | hx
    · exact .inr (hfront _ (List.mem_map_of_mem hx))
    · rcases List.mem_cons.mp hx with rfl | hx
      · exact .inl List.mem_cons_self
      · exact (hpassed x hx).imp_left (List.mem_cons_of_mem _)

theorem mem (h : Inserted p l l') (ha : a ∈ l') : a ∈ l ∨ p a := by
  induction h with
  | nil => cases ha
  | insert hb _ ih =>
    rcases List.mem_cons.mp ha with rfl | ha
    · exact .inr hb
    · exact ih ha
  | keep b _ ih =>
    rcases List.mem_cons.mp ha with rfl | ha
    · exact .inl List.mem_cons_self
    · exact (ih ha).imp_left (List.mem_cons_of_mem b)

theorem filterMap {f : α → Option β} (hf : ∀ x, p x → f x = none) (h : Inserted p l l') :
    l'.filterMap f = l.filterMap f := by
  induction h with
  | nil => rfl
  | insert ha _ ih => rw [List.filterMap_cons_none (hf _ ha), ih]
  | keep a _ ih => rw [List.filterMap_cons, List.filterMap_cons, ih]

end Inserted

end Harvest.Lib
