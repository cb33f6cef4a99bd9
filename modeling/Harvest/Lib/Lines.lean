import Mathlib.Data.List.Basic

/-!
# Lines of a text

A text is cut into lines at a terminator; a text that ends with the terminator has no empty line
behind it.

When every line is a document of a kind that cannot go on, except by blanks, the cuts of a text into
chunks do not matter: chunks whose lines are all documents have the lines of the whole.

Proved here:
* `splitTerminator_joinTerminated`: the lines of terminated lines.
* `flatMap_splitTerminator`: the lines of chunks are those of the text.
-/

namespace Harvest.Lib

section Lines

variable {α : Type*} (sep : α)

/-- Each line with its terminator. -/
def joinTerminated (rows : List (List α)) : List α := rows.flatMap (· ++ [sep])

@[simp] theorem joinTerminated_nil : joinTerminated sep [] = [] := rfl

@[simp] theorem joinTerminated_cons (row : List α) (rows : List (List α)) :
    joinTerminated sep (row :: rows) = row ++ sep :: joinTerminated sep rows := by
  simp [joinTerminated]

variable [DecidableEq α]

/-- The lines of the text. -/
def splitTerminator : List α → List (List α)
  | [] => []
  | c :: text =>
    if c = sep then [] :: splitTerminator text
    else
      match splitTerminator text with
      | [] => [[c]]
      | line :: rest => (c :: line) :: rest

variable {sep}

/-- A terminated line comes first. -/
theorem splitTerminator_append {line : List α} (h : sep ∉ line) (text : List α) :
    splitTerminator sep (line ++ sep :: text) = line :: splitTerminator sep text := by
  induction line with
  | nil => rw [List.nil_append, splitTerminator, if_pos rfl]
  | cons c line ih =>
    obtain ⟨hc, hline⟩ := not_or.mp (mt List.mem_cons.mpr h)
    rw [List.cons_append, splitTerminator, if_neg (Ne.symm hc), ih hline]

theorem splitTerminator_of_notMem {line : List α} (h : sep ∉ line) (hne : line ≠ []) :
    splitTerminator sep line = [line] := by
  induction line with
  | nil => exact absurd rfl hne
  | cons c line ih =>
    obtain ⟨hc, hline⟩ := not_or.mp (mt List.mem_cons.mpr h)
    rw [splitTerminator, if_neg (Ne.symm hc)]
    cases line with
    | nil => rfl
    | cons d line => rw [ih hline (List.cons_ne_nil d line)]

theorem splitTerminator_joinTerminated_append {rows : List (List α)} (h : ∀ row ∈ rows, sep ∉ row)
    (text : List α) : splitTerminator sep (joinTerminated sep rows ++ text) =
      rows ++ splitTerminator sep text := by
  induction rows with
  | nil => rfl
  | cons row rows ih =>
    obtain ⟨hrow, hrows⟩ := List.forall_mem_cons.mp h
    rw [joinTerminated_cons, List.append_assoc, List.cons_append, splitTerminator_append hrow,
      ih hrows, List.cons_append]

/-- **The lines of terminated lines.** -/
theorem splitTerminator_joinTerminated {rows : List (List α)} (h : ∀ row ∈ rows, sep ∉ row) :
    splitTerminator sep (joinTerminated sep rows) = rows := by
  have hlines := splitTerminator_joinTerminated_append h []
  rw [List.append_nil] at hlines
  rw [hlines]
  exact List.append_nil rows

/-! ## Chunks -/

omit [DecidableEq α] in
/-- A cut of terminated lines is between two of them, or inside of one. -/
theorem joinTerminated_eq_append {rows : List (List α)} {chunk rest : List α}
    (h : joinTerminated sep rows = chunk ++ rest) :
    (∃ done left, rows = done ++ left ∧ chunk = joinTerminated sep done ∧
        rest = joinTerminated sep left) ∨
      ∃ done x y left, rows = done ++ (x ++ y) :: left ∧ x ≠ [] ∧
        chunk = joinTerminated sep done ++ x ∧ rest = y ++ sep :: joinTerminated sep left := by
  induction rows generalizing chunk with
  | nil =>
    obtain ⟨rfl, rfl⟩ := List.append_eq_nil_iff.mp h.symm
    exact .inl ⟨[], [], rfl, rfl, rfl⟩
  | cons row rows ih =>
    rw [joinTerminated_cons, List.append_cons] at h
    rcases List.append_eq_append_iff.mp h with ⟨more, hchunk, hrest⟩ | ⟨tail, hrow, hrest⟩
    · -- the line is in the chunk
      obtain ⟨done, left, rfl, rfl, rfl⟩ | ⟨done, x, y, left, rfl, hx, rfl, rfl⟩ := ih hrest
      · exact .inl ⟨row :: done, left, rfl, by simp [hchunk], rfl⟩
      · exact .inr ⟨row :: done, x, y, left, rfl, hx, by simp [hchunk], rfl⟩
    · -- the chunk ends in the line, or with its terminator
      rcases List.eq_nil_or_concat tail with rfl | ⟨y, c, rfl⟩
      · refine .inl ⟨[row], rows, rfl, ?_, hrest⟩
        rw [List.append_nil] at hrow
        rw [← hrow, joinTerminated_cons, joinTerminated_nil]
      · rw [List.concat_eq_append, ← List.append_assoc] at hrow
        obtain ⟨rfl, hc⟩ := List.append_inj' hrow rfl
        obtain rfl : sep = c := by simpa using hc
        rw [List.concat_eq_append, List.append_assoc, List.singleton_append] at hrest
        cases chunk with
        | nil => exact .inl ⟨[], _ :: rows, rfl, rfl, by rw [hrest, joinTerminated_cons]; rfl⟩
        | cons d chunk =>
          exact .inr ⟨[], d :: chunk, y, rows, rfl, List.cons_ne_nil d chunk, rfl, hrest⟩

section Documents

variable {P : List α → Prop} {blank : α → Prop}

/-- Chunks of documents do not start with the rest of a line that is blank. -/
theorem false_of_blank (hsolid : ∀ a, P a → ∃ c ∈ a, ¬ blank c) {chunks : List (List α)}
    (hlines : ∀ chunk ∈ chunks, ∀ line ∈ splitTerminator sep chunk, P line) {y rest : List α}
    (hy : ∀ c ∈ y, blank c) (hsep : sep ∉ y) (h : chunks.flatten = y ++ sep :: rest) : False := by
  induction chunks with
  | nil => exact absurd h.symm (by simp)
  | cons chunk chunks ih =>
    obtain ⟨hfirst, hothers⟩ := List.forall_mem_cons.mp hlines
    -- a blank line at the start of the chunk
    have hnot : ∀ line, (∀ c ∈ line, blank c) → line ∉ splitTerminator sep chunk := by
      intro line hblank hmem
      obtain ⟨c, hc, hne⟩ := hsolid line (hfirst line hmem)
      exact hne (hblank c hc)
    rw [List.flatten_cons] at h
    by_cases hempty : chunk = []
    · exact ih hothers (by rwa [hempty, List.nil_append] at h)
    · have hopen : (∀ c ∈ chunk, c ∈ y) → False := by
        intro hin
        have hline := splitTerminator_of_notMem (fun hmem => hsep (hin sep hmem)) hempty
        exact hnot chunk (fun c hc => hy c (hin c hc)) (by rw [hline]; exact List.mem_cons_self)
      rcases List.append_eq_append_iff.mp h with ⟨more, hmore, -⟩ | ⟨more, hmore, hrest⟩
      · exact hopen fun c hc => hmore ▸ List.mem_append_left more hc
      · cases more with
        | nil => exact hopen fun c hc => by rwa [hmore, List.append_nil] at hc
        | cons d more =>
          obtain ⟨rfl, -⟩ := List.cons.inj hrest
          have hline := splitTerminator_append hsep more
          exact hnot y hy (by rw [hmore, hline]; exact List.mem_cons_self)

/-- **The lines of chunks.** Every row is a document, a document with more behind it is one only when
that is blank, and no document is blank: then chunks of the rows with documents as lines have the
rows as lines. -/
theorem flatMap_splitTerminator (hends : ∀ a b, P a → P (a ++ b) → ∀ c ∈ b, blank c)
    (hsolid : ∀ a, P a → ∃ c ∈ a, ¬ blank c) {rows : List (List α)}
    (hrows : ∀ row ∈ rows, P row ∧ sep ∉ row) {chunks : List (List α)}
    (hlines : ∀ chunk ∈ chunks, ∀ line ∈ splitTerminator sep chunk, P line)
    (h : chunks.flatten = joinTerminated sep rows) :
    chunks.flatMap (splitTerminator sep) = rows := by
  induction chunks generalizing rows with
  | nil =>
    cases rows with
    | nil => rfl
    | cons row rows => exact absurd h (by simp)
  | cons chunk chunks ih =>
    obtain ⟨hfirst, hothers⟩ := List.forall_mem_cons.mp hlines
    rw [List.flatten_cons] at h
    rw [List.flatMap_cons]
    obtain ⟨done, left, rfl, rfl, hrest⟩ | ⟨done, x, y, left, rfl, hx, rfl, hrest⟩ :=
      joinTerminated_eq_append h.symm
    · obtain ⟨hdone, hleft⟩ := List.forall_mem_append.mp hrows
      rw [splitTerminator_joinTerminated fun row hrow => (hdone row hrow).2, ih hleft hothers hrest]
    · -- the line that the chunk breaks is a document, so the rest of it is blank
      exfalso
      obtain ⟨hdone, hleft⟩ := List.forall_mem_append.mp hrows
      obtain ⟨hdoc, hsep⟩ := hleft (x ++ y) List.mem_cons_self
      have hsepx : sep ∉ x := fun hmem => hsep (List.mem_append_left y hmem)
      have hsepy : sep ∉ y := fun hmem => hsep (List.mem_append_right x hmem)
      have hmem : x ∈ splitTerminator sep (joinTerminated sep done ++ x) := by
        rw [splitTerminator_joinTerminated_append fun row hrow => (hdone row hrow).2,
          splitTerminator_of_notMem hsepx hx]
        exact List.mem_append_right done List.mem_cons_self
      exact false_of_blank hsolid hothers (hends x y (hfirst x hmem) hdoc) hsepy hrest

end Documents

end Lines

end Harvest.Lib
