import Harvest.Audit.Exporter

/-!
# Reading the rows page by page

`verify_shard_chain_with` pages the rows through the verifier, 1,000 at a time. A page
starts after the last number of the page before it, so a row that shares its number with
the last row of a full page is never read.

Proved here:
* `read_perm`: the rows of a range are those that are read and those left behind.
* `readRows_of_last`, `leftBehind_of_last`: a page that ends at the bound is the last one.
-/

namespace Harvest.Audit

/-- `VERIFY_PAGE_ROWS` -/
def verifyPageRows : Nat := 1000

namespace Database

/-- One page of the verifier's query. -/
def page (db : Database) (after bound : Int) : List AuditExportRow :=
  (db.sequenced after bound).take verifyPageRows

theorem sequenced_sorted (db : Database) (after bound : Int) :
    (db.sequenced after bound).Pairwise AuditExportRow.SeqLe :=
  db.ordered.filter _

theorem mem_sequenced {db : Database} {after bound : Int} {row : AuditExportRow} :
    row ∈ db.sequenced after bound ↔ row ∈ db.log ∧
      ∃ seq, row.exportSeq = some seq ∧ after < seq.toInt ∧ seq.toInt ≤ bound := by
  unfold sequenced
  rw [List.mem_filter, inRange_iff]

theorem last_mem_page {db : Database} {after bound : Int} {last : Int64}
    (h : ((db.page after bound).getLast?.bind AuditExportRow.exportSeq) = some last) :
    ∃ row ∈ db.page after bound, row.exportSeq = some last := by
  obtain ⟨row, hrow, hseq⟩ := Option.bind_eq_some_iff.mp h
  exact ⟨row, List.mem_of_getLast? hrow, hseq⟩

theorem page_le_last {db : Database} {after bound : Int} {last : Int64}
    (h : ((db.page after bound).getLast?.bind AuditExportRow.exportSeq) = some last) :
    ∀ row ∈ db.page after bound, ∀ seq ∈ row.exportSeq, seq.toInt ≤ last.toInt := by
  obtain ⟨lastRow, hrow, hseq⟩ := Option.bind_eq_some_iff.mp h
  obtain ⟨front, hfront⟩ := List.getLast?_eq_some_iff.mp hrow
  have hsorted := (db.sequenced_sorted after bound).sublist (List.take_sublist verifyPageRows _)
  change (db.page after bound).Pairwise _ at hsorted
  rw [hfront] at hsorted ⊢
  intro row hmem seq hrowSeq
  rcases List.mem_append.mp hmem with hmem | hmem
  · exact (List.pairwise_append.mp hsorted).2.2 row hmem lastRow (List.mem_singleton.mpr rfl)
      seq hrowSeq last hseq
  · obtain rfl := List.mem_singleton.mp hmem
    rw [hseq, Option.mem_some_iff] at hrowSeq
    rw [hrowSeq]

/-- What the query after a page can still see. -/
theorem sequenced_last {db : Database} {after bound : Int} {last : Int64}
    (h : ((db.page after bound).getLast?.bind AuditExportRow.exportSeq) = some last) :
    db.sequenced last.toInt bound =
      ((db.sequenced after bound).drop verifyPageRows).filter (inRange last.toInt bound) := by
  obtain ⟨lastRow, hmem, hseq⟩ := last_mem_page h
  obtain ⟨_, seq, hseq', hlow, _⟩ := mem_sequenced.mp (List.mem_of_mem_take hmem)
  rw [hseq, Option.some.injEq] at hseq'
  subst hseq'
  have hnarrow : db.sequenced last.toInt bound =
      (db.sequenced after bound).filter (inRange last.toInt bound) := by
    unfold sequenced
    rw [List.filter_filter]
    refine List.filter_congr fun row _ => ?_
    rw [Bool.eq_iff_iff, Bool.and_eq_true]
    constructor
    · intro hin
      obtain ⟨seq, hrow, hgt, hle⟩ := inRange_iff.mp hin
      exact ⟨hin, inRange_iff.mpr ⟨seq, hrow, by omega, hle⟩⟩
    · exact And.left
  have hpage : (db.page after bound).filter (inRange last.toInt bound) = [] := by
    rw [List.filter_eq_nil_iff]
    intro row hrow hin
    obtain ⟨seq, hseq, hgt, _⟩ := inRange_iff.mp hin
    have := page_le_last h row hrow seq hseq
    omega
  rw [hnarrow]
  conv_lhs => rw [← List.take_append_drop verifyPageRows (db.sequenced after bound)]
  rw [List.filter_append]
  exact (congrArg (· ++ _) hpage).trans (List.nil_append _)

theorem sequenced_last_lt {db : Database} {after bound : Int} {last : Int64}
    (h : ((db.page after bound).getLast?.bind AuditExportRow.exportSeq) = some last) :
    (db.sequenced last.toInt bound).length < (db.sequenced after bound).length := by
  obtain ⟨_, hmem, _⟩ := last_mem_page h
  have hpos : 0 < (db.page after bound).length := List.length_pos_of_mem hmem
  rw [sequenced_last h]
  have hfilter := List.length_filter_le (inRange last.toInt bound)
    ((db.sequenced after bound).drop verifyPageRows)
  rw [page, List.length_take] at hpos
  rw [List.length_drop] at hfilter
  unfold verifyPageRows at *
  omega

/-- The rows that the loop of `verify_shard_chain_with` pushes, in order. -/
def readRows (db : Database) (bound after : Int) : List AuditExportRow :=
  match _h : (db.page after bound).getLast?.bind AuditExportRow.exportSeq with
  | none => []
  | some last => db.page after bound ++ readRows db bound last.toInt
termination_by (db.sequenced after bound).length
decreasing_by exact sequenced_last_lt ‹_›

/-- The rows that the loop steps over: those behind a full page that carry the number of
its last row. -/
def leftBehind (db : Database) (bound after : Int) : List AuditExportRow :=
  match _h : (db.page after bound).getLast?.bind AuditExportRow.exportSeq with
  | none => []
  | some last =>
    ((db.sequenced after bound).drop verifyPageRows).filter
        (fun row => row.exportSeq = some last) ++
      leftBehind db bound last.toInt
termination_by (db.sequenced after bound).length
decreasing_by exact sequenced_last_lt ‹_›

theorem page_end {db : Database} {after bound : Int}
    (h : ((db.page after bound).getLast?.bind AuditExportRow.exportSeq) = none) :
    db.sequenced after bound = [] := by
  cases hlast : (db.page after bound).getLast? with
  | none =>
    rw [List.getLast?_eq_none_iff, page, List.take_eq_nil_iff] at hlast
    exact hlast.resolve_left (by decide)
  | some row =>
    have hmem := List.mem_of_mem_take (List.mem_of_getLast? hlast)
    obtain ⟨_, seq, hseq, _⟩ := mem_sequenced.mp hmem
    simp [hlast, hseq] at h

theorem readRows_sublist (db : Database) (bound after : Int) :
    (db.readRows bound after).Sublist (db.sequenced after bound) := by
  fun_induction readRows db bound after with
  | case1 after h => exact List.nil_sublist _
  | case2 after last h ih =>
    conv_rhs => rw [← List.take_append_drop verifyPageRows (db.sequenced after bound)]
    refine List.Sublist.append (List.Sublist.refl _) (ih.trans ?_)
    rw [sequenced_last h]
    exact List.filter_sublist

/-- The rows behind a page carry its last number or are seen by the next query. -/
theorem drop_perm {db : Database} {after bound : Int} {last : Int64}
    (h : ((db.page after bound).getLast?.bind AuditExportRow.exportSeq) = some last) :
    (((db.sequenced after bound).drop verifyPageRows).filter
        (fun row => row.exportSeq = some last) ++ db.sequenced last.toInt bound).Perm
      ((db.sequenced after bound).drop verifyPageRows) := by
  obtain ⟨lastRow, hmem, hlast⟩ := last_mem_page h
  have hsorted := db.sequenced_sorted after bound
  rw [← List.take_append_drop verifyPageRows (db.sequenced after bound),
    List.pairwise_append] at hsorted
  rw [sequenced_last h]
  refine List.Perm.trans (List.Perm.of_eq ?_)
    (List.filter_append_perm (fun row => !inRange last.toInt bound row) _)
  congr 1
  · refine List.filter_congr fun row hrow => ?_
    obtain ⟨_, seq, hseq, _, hle⟩ := mem_sequenced.mp (List.mem_of_mem_drop hrow)
    have hge := hsorted.2.2 lastRow hmem row hrow last hlast seq hseq
    rw [Bool.eq_iff_iff, decide_eq_true_eq, Bool.not_eq_true', ← Bool.not_eq_true, inRange_iff,
      hseq, Option.some.injEq]
    constructor
    · rintro rfl ⟨seq', hseq', hlt, _⟩
      rw [Option.some.injEq] at hseq'
      subst hseq'
      omega
    · intro hnot
      refine Int64.toInt_inj.mp ?_
      by_contra hne
      exact hnot ⟨seq, rfl, by omega, hle⟩
  · simp

/-- **The rows of a range are those that are read and those left behind.** -/
theorem read_perm (db : Database) (bound after : Int) :
    (db.readRows bound after ++ db.leftBehind bound after).Perm (db.sequenced after bound) := by
  fun_induction readRows db bound after with
  | case1 after h =>
    unfold leftBehind
    split
    · rw [page_end h]
      exact List.Perm.refl _
    · next last h' => rw [h] at h'; cases h'
  | case2 after last h ih =>
    unfold leftBehind
    split
    · next h' => rw [h] at h'; cases h'
    · next last' h' =>
      rw [h, Option.some.injEq] at h'
      subst h'
      calc (db.page after bound ++ db.readRows bound last.toInt) ++
            (_ ++ db.leftBehind bound last.toInt)
          _ = db.page after bound ++ (db.readRows bound last.toInt ++
            (_ ++ db.leftBehind bound last.toInt)) := List.append_assoc _ _ _
          _ |>.Perm (db.page after bound ++ (_ ++ (db.readRows bound last.toInt ++
            db.leftBehind bound last.toInt))) :=
            (List.perm_append_comm_assoc _ _ _).append_left _
          _ |>.Perm (db.page after bound ++ (_ ++ db.sequenced last.toInt bound)) :=
            (ih.append_left _).append_left _
          _ |>.Perm (db.page after bound ++ (db.sequenced after bound).drop verifyPageRows) :=
            (drop_perm h).append_left _
          _ = db.sequenced after bound := List.take_append_drop _ _

theorem sequenced_self (db : Database) (bound : Int) : db.sequenced bound bound = [] := by
  rw [sequenced, List.filter_eq_nil_iff]
  intro row _ hin
  obtain ⟨_, _, hlow, hhigh⟩ := inRange_iff.mp hin
  omega

/-- No row carries a number past the bound, so a page that ends at it is the last. -/
theorem readRows_of_last {db : Database} {after bound : Int} {last : Int64}
    (h : ((db.page after bound).getLast?.bind AuditExportRow.exportSeq) = some last)
    (hbound : last.toInt = bound) : db.readRows bound after = db.page after bound := by
  have hend : db.readRows bound bound = [] :=
    List.sublist_nil.mp (db.sequenced_self bound ▸ db.readRows_sublist bound bound)
  unfold readRows
  split
  · next h' => rw [h] at h'; cases h'
  · next last' h' =>
    rw [h, Option.some.injEq] at h'
    rw [← h', hbound, hend, List.append_nil]

theorem leftBehind_of_last {db : Database} {after bound : Int} {last : Int64}
    (h : ((db.page after bound).getLast?.bind AuditExportRow.exportSeq) = some last)
    (hbound : last.toInt = bound) :
    (db.leftBehind bound after).Perm ((db.sequenced after bound).drop verifyPageRows) := by
  have hperm := db.read_perm bound after
  rw [readRows_of_last h hbound] at hperm
  conv_rhs at hperm => rw [← List.take_append_drop verifyPageRows (db.sequenced after bound)]
  exact (List.perm_append_left_iff _).mp hperm

end Database

end Harvest.Audit
