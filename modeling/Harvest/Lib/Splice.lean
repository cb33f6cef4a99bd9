import Mathlib.Data.List.Infix

/-!
# Texts with marks

Parts of a text are replaced by a mark. A name that has no part in common with the mark stands in
the new text only where it stood in the old one, but what is next to it can be a mark now.

Proved here:
* `standsIn_marked`: a mark between two texts separates them.
* `standsIn_splice`: where a name stands after parts of equal length were replaced.
-/

namespace Harvest.Lib

variable {α : Type*}

/-- The name has a part in common with the mark: one holds the other, or they overlap. -/
def Clashes (mark name : List α) : Prop :=
  mark <:+: name ∨ name <:+: mark ∨ (∃ s ∈ mark.tails, s ≠ [] ∧ s <+: name) ∨
    ∃ s ∈ mark.inits, s ≠ [] ∧ s <:+ name

instance [DecidableEq α] (mark name : List α) : Decidable (Clashes mark name) :=
  inferInstanceAs (Decidable (_ ∨ _ ∨ _ ∨ _))

/-- The name stands in the text with no letter next to it. -/
def StandsIn (letter : α → Bool) (name text : List α) : Prop :=
  ∃ pre post, text = pre ++ (name ++ post) ∧ pre.getLast?.any letter = false ∧
    post.head?.any letter = false

section Marks

variable {letter : α → Bool} {mark name : List α}

/-- A name in a text with a mark is before the mark or after it. -/
theorem split_marked (hclash : ¬ Clashes mark name) {a b pre post : List α}
    (h : a ++ (mark ++ b) = pre ++ (name ++ post)) :
    (∃ rest, a = pre ++ (name ++ rest) ∧ post = rest ++ (mark ++ b)) ∨
      ∃ front, b = front ++ (name ++ post) ∧ pre = a ++ (mark ++ front) := by
  unfold Clashes at hclash
  push Not at hclash
  obtain ⟨hholds, hinside, hleft, hright⟩ := hclash
  rcases List.append_eq_append_iff.mp h with ⟨c, rfl, hc⟩ | ⟨c, rfl, hc⟩
  · rcases List.append_eq_append_iff.mp hc with ⟨d, rfl, rfl⟩ | ⟨d, rfl, hd⟩
    · exact .inr ⟨d, rfl, rfl⟩
    · -- the name starts inside the mark, unless at its very end
      rcases List.append_eq_append_iff.mp hd with ⟨e, rfl, -⟩ | ⟨e, hname, rfl⟩
      · exact absurd ⟨c, e, List.append_assoc ..⟩ hinside
      · by_cases hempty : d = []
        · subst hempty
          exact .inr ⟨[], hd.symm, by simp⟩
        · exact absurd ⟨e, hname.symm⟩ (hleft d (List.mem_tails _ _ |>.mpr ⟨c, rfl⟩) hempty)
  · rcases List.append_eq_append_iff.mp hc with ⟨d, rfl, rfl⟩ | ⟨d, rfl, hd⟩
    · exact .inl ⟨d, rfl, rfl⟩
    · -- the name ends inside the mark, unless at its very start
      rcases List.append_eq_append_iff.mp hd with ⟨e, rfl, -⟩ | ⟨e, hmark, rfl⟩
      · exact absurd ⟨c, e, List.append_assoc ..⟩ hholds
      · by_cases hempty : d = []
        · subst hempty
          exact .inl ⟨[], by simp, by simpa using hd.symm⟩
        · exact absurd ⟨c, rfl⟩ (hright d ((List.mem_inits _ _).mpr ⟨e, hmark.symm⟩) hempty)

/-- **A mark between two texts** separates them. -/
theorem standsIn_marked (hclash : ¬ Clashes mark name) (hne : mark ≠ [])
    (hfirst : mark.head?.any letter = false) (hlast : mark.getLast?.any letter = false)
    (a b : List α) :
    StandsIn letter name (a ++ (mark ++ b)) ↔ StandsIn letter name a ∨ StandsIn letter name b := by
  obtain ⟨m, ms, hmark⟩ := List.exists_cons_of_ne_nil hne
  constructor
  · rintro ⟨pre, post, htext, hpre, hpost⟩
    rcases split_marked hclash htext with ⟨rest, rfl, rfl⟩ | ⟨front, rfl, rfl⟩
    · refine .inl ⟨pre, rest, rfl, hpre, ?_⟩
      cases rest with
      | nil => rfl
      | cons x rest => exact hpost
    · refine .inr ⟨front, post, rfl, ?_, hpost⟩
      rcases List.eq_nil_or_concat' front with rfl | ⟨front, x, rfl⟩
      · rfl
      · rw [← List.append_assoc, ← List.append_assoc, List.getLast?_concat] at hpre
        rwa [List.getLast?_concat]
  · rintro (⟨pre, post, rfl, hpre, hpost⟩ | ⟨pre, post, rfl, hpre, hpost⟩)
    · refine ⟨pre, post ++ (mark ++ b), by simp, hpre, ?_⟩
      cases post with
      | nil =>
        rw [hmark] at hfirst ⊢
        exact hfirst
      | cons x post => exact hpost
    · refine ⟨a ++ (mark ++ pre), post, by simp, ?_, hpost⟩
      rcases List.eq_nil_or_concat' pre with rfl | ⟨pre, x, rfl⟩
      · rw [List.append_nil, List.getLast?_append_of_ne_nil _ hne]
        exact hlast
      · rw [← List.append_assoc, ← List.append_assoc, List.getLast?_concat]
        rwa [List.getLast?_concat] at hpre

end Marks

/-! ## Replaced parts -/

/-- The text from `start` on, with the parts of that length at the cuts replaced. -/
def splice (mark text : List α) (len : ℕ) : ℕ → List ℕ → List α
  | start, [] => text.drop start
  | start, cut :: cuts =>
    (text.drop start).take (cut - start) ++ (mark ++ splice mark text len (cut + len) cuts)

/-- The parts at the cuts are in order and do not overlap. -/
def Ordered (len total : ℕ) : ℕ → List ℕ → Prop
  | start, [] => start ≤ total
  | start, cut :: cuts => start ≤ cut ∧ cut ≤ total ∧ Ordered len total (cut + len) cuts

section Splice

variable {letter : α → Bool} {mark name text : List α} {len start : ℕ} {cuts : List ℕ}

/-- The text around a name in a piece of it. -/
theorem piece_at {pre post rest : List α} (htext : text.drop start = (pre ++ (name ++ post)) ++ rest) :
    text.take (start + pre.length) = text.take start ++ pre ∧
      text.drop (start + pre.length) = name ++ (post ++ rest) ∧
      text.drop (start + pre.length + name.length) = post ++ rest := by
  have hdrop : text.drop (start + pre.length) = name ++ (post ++ rest) := by
    rw [← List.drop_drop, htext, List.append_assoc, List.drop_left, List.append_assoc]
  refine ⟨?_, hdrop, ?_⟩
  · rw [List.take_add, htext, List.append_assoc, List.take_left]
  · rw [← List.drop_drop, hdrop, List.drop_left]

/-- A name that stands in a piece of the text. -/
theorem standsIn_piece {a rest : List α} (htext : text.drop start = a ++ rest) :
    StandsIn letter name a ↔ ∃ q, start ≤ q ∧ q + name.length ≤ start + a.length ∧
      name <+: text.drop q ∧ (q = start ∨ (text.take q).getLast?.any letter = false) ∧
      (q + name.length = start + a.length ∨
        (text.drop (q + name.length)).head?.any letter = false) := by
  constructor
  · rintro ⟨pre, post, rfl, hpre, hpost⟩
    obtain ⟨htake, hdrop, hafter⟩ := piece_at htext
    refine ⟨start + pre.length, Nat.le_add_right .., ?_, ?_, ?_, ?_⟩
    · simp only [List.length_append]
      omega
    · rw [hdrop]
      exact List.prefix_append ..
    · rcases List.eq_nil_or_concat' pre with rfl | ⟨pre, x, rfl⟩
      · exact .inl rfl
      · rw [htake, ← List.append_assoc, List.getLast?_concat]
        rw [List.getLast?_concat] at hpre
        exact .inr hpre
    · cases post with
      | nil => exact .inl (by simp [Nat.add_assoc])
      | cons x post =>
        rw [hafter]
        exact .inr hpost
  · rintro ⟨q, hle, hfits, hname, hleft, hright⟩
    obtain ⟨n, rfl⟩ := Nat.exists_eq_add_of_le hle
    have hn : n ≤ a.length := by omega
    have hshort : name.length ≤ (a.drop n).length := by
      rw [List.length_drop]
      omega
    -- the name is in the piece, since the piece is long enough
    have hpiece : name <+: a.drop n := by
      rw [← List.drop_drop, htext, List.drop_append_of_le_length hn] at hname
      exact List.prefix_of_prefix_length_le hname (List.prefix_append ..) hshort
    obtain ⟨post, hpost⟩ := hpiece
    have ha : a = a.take n ++ (name ++ post) := by rw [hpost, List.take_append_drop]
    have hlen : (a.take n).length = n := List.length_take_of_le hn
    rw [ha] at htext hright
    obtain ⟨htake, -, hafter⟩ := piece_at htext
    rw [hlen] at htake hafter
    refine ⟨a.take n, post, ha, ?_, ?_⟩
    · rcases List.eq_nil_or_concat' (a.take n) with hnil | ⟨pre, x, hconcat⟩
      · rw [hnil]
        rfl
      · rw [htake, hconcat, ← List.append_assoc, List.getLast?_concat] at hleft
        rw [hconcat, List.getLast?_concat]
        refine hleft.resolve_left fun heq => ?_
        have hlength := congrArg List.length hconcat
        rw [hlen, List.length_append, List.length_singleton] at hlength
        omega
    · cases post with
      | nil => rfl
      | cons x post =>
        rw [hafter] at hright
        refine hright.resolve_left fun heq => ?_
        simp only [List.length_append, List.length_cons, hlen] at heq
        omega

theorem Ordered.mono {total start' : ℕ} (hle : start' ≤ start) (h : Ordered len total start cuts) :
    Ordered len total start' cuts := by
  cases cuts with
  | nil => exact hle.trans h
  | cons cut cuts => exact ⟨hle.trans h.1, h.2⟩

theorem Ordered.filter {total : ℕ} (keep : ℕ → Bool) (h : Ordered len total start cuts) :
    Ordered len total start (cuts.filter keep) := by
  induction cuts generalizing start with
  | nil => exact h
  | cons cut cuts ih =>
    obtain ⟨hstart, hcut, hrest⟩ := h
    rw [List.filter_cons]
    split_ifs
    · exact ⟨hstart, hcut, ih hrest⟩
    · exact (ih hrest).mono (hstart.trans (Nat.le_add_right ..))

theorem Ordered.le {total : ℕ} (h : Ordered len total start cuts) : ∀ cut ∈ cuts, start ≤ cut := by
  induction cuts generalizing start with
  | nil => nofun
  | cons first cuts ih =>
    obtain ⟨hstart, -, hrest⟩ := h
    intro cut hcut
    rcases List.mem_cons.mp hcut with rfl | hcut
    · exact hstart
    · exact hstart.trans ((Nat.le_add_right ..).trans (ih hrest cut hcut))

/-- **Where a name stands after parts of the text were replaced**: where it stood clear of them, when
each letter next to it was in a part that was replaced. -/
theorem standsIn_splice (hclash : ¬ Clashes mark name) (hne : mark ≠ [])
    (hfirst : mark.head?.any letter = false) (hlast : mark.getLast?.any letter = false)
    (hordered : Ordered len text.length start cuts) :
    StandsIn letter name (splice mark text len start cuts) ↔ ∃ q, start ≤ q ∧
      name <+: text.drop q ∧ (∀ cut ∈ cuts, q + name.length ≤ cut ∨ cut + len ≤ q) ∧
      (q = start ∨ (∃ cut ∈ cuts, cut + len = q) ∨ (text.take q).getLast?.any letter = false) ∧
      ((∃ cut ∈ cuts, q + name.length = cut) ∨
        (text.drop (q + name.length)).head?.any letter = false) := by
  have hpos : 0 < name.length := by
    refine List.length_pos_of_ne_nil fun hnil => hclash (.inr (.inl ?_))
    rw [hnil]
    exact List.nil_infix
  have hbound : ∀ q, name <+: text.drop q → q + name.length ≤ text.length := by
    intro q hname
    have hlength := hname.length_le
    rw [List.length_drop] at hlength
    omega
  induction cuts generalizing start with
  | nil =>
    have hstart : start ≤ text.length := hordered
    have hlength : start + (text.drop start).length = text.length := by
      rw [List.length_drop]
      omega
    change StandsIn letter name (text.drop start) ↔ _
    rw [standsIn_piece (List.append_nil _).symm, hlength]
    constructor
    · rintro ⟨q, hle, hfits, hname, hleft, hright⟩
      refine ⟨q, hle, hname, nofun, hleft.imp_right .inr, .inr ?_⟩
      rcases hright with heq | hfree
      · rw [heq, List.drop_length]
        rfl
      · exact hfree
    · rintro ⟨q, hle, hname, -, hleft, hright⟩
      refine ⟨q, hle, hbound q hname, hname, hleft.imp_right ?_, .inr ?_⟩
      · rintro (⟨_, hcut, _⟩ | hfree)
        · cases hcut
        · exact hfree
      · rcases hright with ⟨_, hcut, _⟩ | hfree
        · cases hcut
        · exact hfree
  | cons cut cuts ih =>
    obtain ⟨hstart, hcut, hrest⟩ := hordered
    have hlater := hrest.le
    have htext : text.drop start = (text.drop start).take (cut - start) ++ text.drop cut := by
      have hdrop : text.drop cut = (text.drop start).drop (cut - start) := by
        rw [List.drop_drop, Nat.add_sub_cancel' hstart]
      rw [hdrop, List.take_append_drop]
    have hlength : start + ((text.drop start).take (cut - start)).length = cut := by
      rw [List.length_take, List.length_drop]
      omega
    rw [splice, standsIn_marked hclash hne hfirst hlast, standsIn_piece htext, hlength]
    refine (or_congr_right (ih hrest)).trans ?_
    constructor
    · rintro (⟨q, hle, hfits, hname, hleft, hright⟩ | ⟨q, hle, hname, hclear, hleft, hright⟩)
      · refine ⟨q, hle, hname, fun c hc => .inl ?_, hleft.imp_right .inr, ?_⟩
        · rcases List.mem_cons.mp hc with rfl | hc
          · exact hfits
          · have := hlater c hc
            omega
        · exact hright.imp_left fun heq => ⟨cut, List.mem_cons_self, heq⟩
      · refine ⟨q, by omega, hname, fun c hc => ?_, .inr ?_, ?_⟩
        · rcases List.mem_cons.mp hc with rfl | hc
          · exact .inr hle
          · exact hclear c hc
        · rcases hleft with rfl | ⟨c, hc, heq⟩ | hfree
          · exact .inl ⟨cut, List.mem_cons_self, rfl⟩
          · exact .inl ⟨c, List.mem_cons_of_mem _ hc, heq⟩
          · exact .inr hfree
        · exact hright.imp_left fun ⟨c, hc, heq⟩ => ⟨c, List.mem_cons_of_mem _ hc, heq⟩
    · rintro ⟨q, hle, hname, hclear, hleft, hright⟩
      rcases hclear cut List.mem_cons_self with hbefore | hafter
      · -- before the first cut
        refine .inl ⟨q, hle, hbefore, hname, hleft.imp_right ?_, ?_⟩
        · rintro (⟨c, hc, heq⟩ | hfree)
          · rcases List.mem_cons.mp hc with rfl | hc
            · omega
            · have := hlater c hc
              omega
          · exact hfree
        · rcases hright with ⟨c, hc, heq⟩ | hfree
          · rcases List.mem_cons.mp hc with rfl | hc
            · exact .inl heq
            · have := hlater c hc
              exact .inl (by omega)
          · exact .inr hfree
      · refine .inr ⟨q, hafter, hname, fun c hc => hclear c (List.mem_cons_of_mem _ hc), ?_, ?_⟩
        · rcases hleft with heq | ⟨c, hc, heq⟩ | hfree
          · exact .inl (by omega)
          · rcases List.mem_cons.mp hc with rfl | hc
            · exact .inl heq.symm
            · exact .inr (.inl ⟨c, hc, heq⟩)
          · exact .inr (.inr hfree)
        · rcases hright with ⟨c, hc, heq⟩ | hfree
          · rcases List.mem_cons.mp hc with rfl | hc
            · omega
            · exact .inl ⟨c, hc, heq⟩
          · exact .inr hfree

end Splice

end Harvest.Lib
