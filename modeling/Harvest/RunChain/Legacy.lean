import Harvest.RunChain.Assemble

/-!
# Chains without back-links

Model of `reconstruct_legacy_chain_order` in `run_chain.rs`: the order of a chain is found from the
events that link a run to the next one, backward to the origin and forward to the tail.

Proved here:
* `follow_eq`: a walk along a path reaches its end.
* `a_run_chain_resolves_the_same_from_every_member`: what a chain and a legacy chain resolve to.
-/

namespace Harvest.RunChain

/-! ## The two walks -/

/-- The predecessor of a run. Of two links to one run the last counts. -/
def predOf (links : List (Uuid × Uuid)) (id : Uuid) : Option Uuid :=
  (links.reverse.find? fun link => link.1 = id).map Prod.snd

/-- The successor of a run. Of two links from one run the first counts. -/
def succOf (links : List (Uuid × Uuid)) (id : Uuid) : Option Uuid :=
  (links.find? fun link => link.2 = id).map Prod.fst

/-- The runs that a walk of at most so many hops visits, and what was seen then. -/
def follow (next : Uuid → Option Uuid) : ℕ → List Uuid → Uuid → List Uuid × List Uuid
  | 0, seen, _ => ([], seen)
  | hops + 1, seen, current =>
    match next current with
    | some id =>
      if id ∈ seen then ([], seen)
      else
        let (visited, seen) := follow next hops (id :: seen) id
        (id :: visited, seen)
    | none => ([], seen)

def reconstructLegacyChainOrder (queried : Uuid) (links : List (Uuid × Uuid)) (maxHops : ℕ) :
    List Uuid :=
  let (back, seen) := follow (predOf links) maxHops [queried] queried
  let (fwd, _) := follow (succOf links) maxHops seen queried
  back.reverse ++ [queried] ++ fwd

/-- **A walk along a path** reaches its end, when the path was not seen before. -/
theorem follow_eq {next : Uuid → Option Uuid} {hops : ℕ} {seen path : List Uuid} {current : Uuid}
    (hpath : (current :: path).IsChain fun a b => next a = some b)
    (hend : ∀ last ∈ (current :: path).getLast?, next last = none)
    (hnew : ∀ id ∈ path, id ∉ seen) (hnodup : path.Nodup) (hhops : path.length ≤ hops) :
    follow next hops seen current = (path, path.reverse ++ seen) := by
  induction path generalizing hops seen current with
  | nil =>
    cases hops with
    | zero => rfl
    | succ hops =>
      rw [follow, hend current rfl]
      rfl
  | cons id path ih =>
    cases hops with
    | zero => cases hhops
    | succ hops =>
      obtain ⟨hlink, hrest⟩ := List.isChain_cons_cons.mp hpath
      obtain ⟨hid, hpaths⟩ := List.nodup_cons.mp hnodup
      have hlater : ∀ other ∈ path, other ∉ id :: seen := by
        intro other hother hmem
        rcases List.mem_cons.mp hmem with rfl | hold
        · exact hid hother
        · exact hnew other (List.mem_cons_of_mem _ hother) hold
      rw [List.getLast?_cons_cons] at hend
      have hnext := ih hrest hend hlater hpaths (Nat.le_of_succ_le_succ hhops)
      rw [follow, hlink]
      dsimp only
      rw [if_neg (hnew id List.mem_cons_self), hnext, List.reverse_cons, List.append_assoc]
      rfl

/-! ## Links that form paths -/

/-- The links are those of paths that share no run. -/
structure FormPaths (links : List (Uuid × Uuid)) (paths : List (List Uuid)) : Prop where
  disjoint : paths.flatten.Nodup
  links : ∀ link, link ∈ links ↔ ∃ path ∈ paths, link ∈ path.tail.zip path

theorem mem_tail_zip {path : List Uuid} {a b : Uuid} :
    (b, a) ∈ path.tail.zip path ↔ ∃ i, path[i + 1]? = some b ∧ path[i]? = some a := by
  rw [List.mem_iff_getElem?]
  refine exists_congr fun i => ?_
  rw [List.getElem?_zip_eq_some, List.getElem?_tail]

namespace FormPaths

variable {links : List (Uuid × Uuid)} {paths : List (List Uuid)} {path : List Uuid}

/-- A run is at one place of one path. -/
theorem place_eq (h : FormPaths links paths) {path' : List Uuid} (hpath : path ∈ paths)
    (hpath' : path' ∈ paths) {i j : ℕ} {id : Uuid} (hi : path[i]? = some id)
    (hj : path'[j]? = some id) : path = path' ∧ i = j := by
  obtain ⟨hnodup, hpairs⟩ := List.nodup_flatten.mp h.disjoint
  have hsame : path = path' := by
    by_contra hne
    have hsymm : Std.Symm (@List.Disjoint Uuid) := ⟨fun _ _ hab _ hb ha => hab ha hb⟩
    have hdisjoint : List.Disjoint path path' := hpairs.forall hpath hpath' hne
    exact hdisjoint (List.mem_of_getElem? hi) (List.mem_of_getElem? hj)
  subst hsame
  obtain ⟨hilt, rfl⟩ := List.getElem?_eq_some_iff.mp hi
  obtain ⟨hjlt, heq⟩ := List.getElem?_eq_some_iff.mp hj
  exact ⟨rfl, (hnodup path hpath).getElem_inj_iff.mp heq.symm⟩

/-- The successor is the next run of the path. -/
theorem succOf_eq (h : FormPaths links paths) (hpath : path ∈ paths) {i : ℕ} {id : Uuid}
    (hi : path[i]? = some id) : succOf links id = path[i + 1]? := by
  unfold succOf
  cases hfind : links.find? fun link => link.2 = id with
  | none =>
    cases hnext : path[i + 1]? with
    | none => rfl
    | some next =>
      have hmem : (next, id) ∈ links := (h.links _).mpr ⟨path, hpath, mem_tail_zip.mpr ⟨i, hnext, hi⟩⟩
      exact absurd (decide_eq_true rfl) (List.find?_eq_none.mp hfind _ hmem)
  | some link =>
    obtain ⟨next, pred⟩ := link
    have hpred := List.find?_some hfind
    obtain rfl : pred = id := of_decide_eq_true hpred
    obtain ⟨path', hpath', hzip⟩ := (h.links _).mp (List.mem_of_find?_eq_some hfind)
    obtain ⟨j, hnext, hj⟩ := mem_tail_zip.mp hzip
    obtain ⟨rfl, rfl⟩ := h.place_eq hpath hpath' hi hj
    exact hnext.symm

/-- The predecessor is the run before, and the first run has none. -/
theorem predOf_eq (h : FormPaths links paths) (hpath : path ∈ paths) {i : ℕ} {id : Uuid}
    (hi : path[i]? = some id) :
    predOf links id = if i = 0 then none else path[i - 1]? := by
  unfold predOf
  cases hfind : links.reverse.find? fun link => link.1 = id with
  | none =>
    cases i with
    | zero => rfl
    | succ i =>
      obtain ⟨hlt, -⟩ := List.getElem?_eq_some_iff.mp hi
      have hpred : path[i]? = some path[i] := List.getElem?_eq_getElem (by omega)
      have hmem : (id, path[i]) ∈ links.reverse :=
        List.mem_reverse.mpr ((h.links _).mpr ⟨path, hpath, mem_tail_zip.mpr ⟨i, hi, hpred⟩⟩)
      exact absurd (decide_eq_true rfl) (List.find?_eq_none.mp hfind _ hmem)
  | some link =>
    obtain ⟨next, pred⟩ := link
    have hnext := List.find?_some hfind
    obtain rfl : next = id := of_decide_eq_true hnext
    have hmem := List.mem_reverse.mp (List.mem_of_find?_eq_some hfind)
    obtain ⟨path', hpath', hzip⟩ := (h.links _).mp hmem
    obtain ⟨j, hj, hpred⟩ := mem_tail_zip.mp hzip
    obtain ⟨rfl, rfl⟩ := h.place_eq hpath hpath' hi hj
    exact hpred.symm

/-- **The walk back** from a run of a path. -/
theorem follow_back (h : FormPaths links paths) (hpath : path ∈ paths) {i hops : ℕ} {id : Uuid}
    (hi : path[i]? = some id) (hhops : path.length ≤ hops + 1) :
    follow (predOf links) hops [id] id = ((path.take i).reverse, path.take i ++ [id]) := by
  obtain ⟨hlt, hid⟩ := List.getElem?_eq_some_iff.mp hi
  have hnodup := (List.nodup_flatten.mp h.disjoint).1 path hpath
  have hsplit : path.take (i + 1) = path.take i ++ [id] := by
    rw [List.take_add_one, hi]
    rfl
  have hreverse : id :: (path.take i).reverse = (path.take (i + 1)).reverse := by
    rw [hsplit, List.reverse_append]
    rfl
  have hseen : ∀ other ∈ (path.take i).reverse, other ∉ [id] := by
    intro other hother hmem
    have hnodup' := hnodup.sublist (List.take_sublist (i + 1) path)
    rw [hsplit] at hnodup'
    exact (List.nodup_append.mp hnodup').2.2 other (List.mem_reverse.mp hother) other hmem rfl
  have hwalk := @follow_eq (predOf links) hops [id] (path.take i).reverse id ?_ ?_ hseen
    (List.nodup_reverse.mpr (hnodup.sublist (List.take_sublist i path))) ?_
  · rw [hwalk, List.reverse_reverse]
  · rw [hreverse, List.isChain_reverse, List.isChain_iff_getElem]
    intro j hj
    rw [List.length_take] at hj
    have hat : path[j + 1]? = some path[j + 1] := List.getElem?_eq_getElem (by omega)
    change predOf links (path.take (i + 1))[j + 1] = some (path.take (i + 1))[j]
    rw [List.getElem_take, List.getElem_take, h.predOf_eq hpath hat, if_neg (Nat.succ_ne_zero j)]
    exact List.getElem?_eq_getElem _
  · rw [hreverse, List.getLast?_reverse]
    intro first hfirst
    rw [List.head?_take, if_neg (Nat.succ_ne_zero i), List.head?_eq_getElem?] at hfirst
    rw [h.predOf_eq hpath hfirst, if_pos rfl]
  · rw [List.length_reverse, List.length_take]
    omega

/-- **The walk forward** from a run of a path. -/
theorem follow_forward (h : FormPaths links paths) (hpath : path ∈ paths) {i hops : ℕ} {id : Uuid}
    (hi : path[i]? = some id) (hhops : path.length ≤ hops + 1) :
    (follow (succOf links) hops (path.take i ++ [id]) id).1 = path.drop (i + 1) := by
  obtain ⟨hlt, hid⟩ := List.getElem?_eq_some_iff.mp hi
  have hnodup := (List.nodup_flatten.mp h.disjoint).1 path hpath
  have hsplit : path.take (i + 1) = path.take i ++ [id] := by
    rw [List.take_add_one, hi]
    rfl
  have hdrop : id :: path.drop (i + 1) = path.drop i := by
    rw [List.drop_eq_getElem_cons hlt, hid]
  have hseen : ∀ other ∈ path.drop (i + 1), other ∉ path.take i ++ [id] := by
    intro other hother hmem
    rw [← List.take_append_drop (i + 1) path] at hnodup
    rw [← hsplit] at hmem
    exact (List.nodup_append.mp hnodup).2.2 other hmem other hother rfl
  have hwalk := @follow_eq (succOf links) hops (path.take i ++ [id]) (path.drop (i + 1)) id ?_ ?_
    hseen (hnodup.sublist (List.drop_sublist (i + 1) path)) ?_
  · rw [hwalk]
  · rw [hdrop, List.isChain_iff_getElem]
    intro j hj
    rw [List.length_drop] at hj
    have hat : path[i + j]? = some path[i + j] := List.getElem?_eq_getElem (by omega)
    rw [List.getElem_drop, List.getElem_drop, h.succOf_eq hpath hat]
    exact List.getElem?_eq_getElem _
  · rw [hdrop, List.getLast?_drop, if_neg (by omega), List.getLast?_eq_getElem?]
    intro last hlast
    rw [h.succOf_eq hpath hlast, List.getElem?_eq_none_iff]
    omega
  · rw [List.length_drop]
    omega

/-- **A legacy chain** resolves to its whole path. -/
theorem reconstruct_eq (h : FormPaths links paths) (hpath : path ∈ paths) {queried : Uuid}
    (hqueried : queried ∈ path) {maxHops : ℕ} (hhops : path.length ≤ maxHops + 1) :
    reconstructLegacyChainOrder queried links maxHops = path := by
  obtain ⟨i, hi⟩ := List.mem_iff_getElem?.mp hqueried
  obtain ⟨hlt, hid⟩ := List.getElem?_eq_some_iff.mp hi
  unfold reconstructLegacyChainOrder
  rw [h.follow_back hpath hi hhops]
  dsimp only
  rw [h.follow_forward hpath hi hhops, List.reverse_reverse, List.append_assoc]
  have hdrop : [queried] ++ path.drop (i + 1) = path.drop i := by
    rw [List.drop_eq_getElem_cons hlt, hid]
    rfl
  rw [hdrop, List.take_append_drop]

end FormPaths

/-- **A run chain resolves the same from every member.** For rows with distinct ids in any order: each
is listed once; one chain of back-links from the head is listed along its links; a record names a
continuation only over a link or to a run that names none; and a known head has every predecessor
that is named. For links that form disjoint paths: each member of a path resolves to that path. -/
theorem a_run_chain_resolves_the_same_from_every_member :
    (∀ (rows : List RunChainRow) (headExecId : Uuid), (rows.map RunChainRow.execId).Nodup →
      ((assembleRunChain rows headExecId).runs.map RunChainRecord.execId).Perm
          (rows.map RunChainRow.execId) ∧
        (∀ chain : List RunChainRow, chain.Perm rows → BackLinked chain headExecId →
          (assembleRunChain rows headExecId).runs.map RunChainRecord.execId =
            chain.map RunChainRow.execId) ∧
        (∀ (k : ℕ) (shown : RunChainRecord) (next : Uuid),
          (assembleRunChain rows headExecId).runs[k]? = some shown →
          shown.continuedToExecId = some next →
          ((assembleRunChain rows headExecId).runs[k + 1]?).map RunChainRecord.execId = some next ∧
            ∃ row ∈ rows, row.execId = next ∧
              (row.continuedFromExecId = some shown.execId ∨ row.continuedFromExecId = none)) ∧
        ((assembleRunChain rows headExecId).headUnknown = false →
          ∀ row ∈ rows, ∀ pred, row.continuedFromExecId = some pred →
            pred ∈ rows.map RunChainRow.execId)) ∧
    (∀ (links : List (Uuid × Uuid)) (paths : List (List Uuid)), FormPaths links paths →
      ∀ path ∈ paths, ∀ maxHops, path.length ≤ maxHops + 1 →
        ∀ queried ∈ path, reconstructLegacyChainOrder queried links maxHops = path) := by
  refine ⟨fun rows headExecId _ => ⟨?_, fun chain hperm hchain => ?_, fun k shown next hk hnext => ?_,
    fun hknown row hrow pred hpred => predecessors_of_headKnown hknown hrow hpred⟩,
    fun links paths h path hpath maxHops hhops queried hqueried =>
      h.reconstruct_eq hpath hqueried hhops⟩
  · rw [assembleRunChain_runs, map_execId_records]
    exact (orderedRows_perm rows headExecId).map _
  · rw [assembleRunChain_runs, map_execId_records, orderRows_of_chain hchain hperm]
  · rw [assembleRunChain_runs] at hk ⊢
    obtain ⟨row, hrow, hid, hlink⟩ := continuedTo_of_records hk hnext
    refine ⟨?_, row, (orderedRows_perm rows headExecId).mem_iff.mp (List.mem_of_getElem? hrow), hid,
      hlink⟩
    rw [← List.getElem?_map, map_execId_records, List.getElem?_map, hrow]
    exact congrArg some hid

/-- A run of a chain, with the run before it. -/
def chainRow (id : Uuid) (pred : Option Uuid) : RunChainRow where
  execId := id
  runId := id
  workflowId := "orders"
  state := "CONTINUED_AS_NEW"
  startedAt := 0
  completedAt := none
  continuedFromExecId := pred
  firstExecId := pred.map fun _ => 7

/-- Three runs that are given in another order, and the links of two legacy chains. -/
theorem three_runs_resolve_in_order :
    (assembleRunChain [chainRow 3 (some 5), chainRow 5 (some 7), chainRow 7 none] 7).runs.map
        RunChainRecord.execId = [7, 5, 3] ∧
      reconstructLegacyChainOrder 5 [(3, 5), (2, 9), (5, 7)] 2 = [7, 5, 3] := by
  obtain ⟨hrows, hlinks⟩ := a_run_chain_resolves_the_same_from_every_member
  constructor
  · have hchain : BackLinked [chainRow 7 none, chainRow 5 (some 7), chainRow 3 (some 5)] 7 := by
      refine ⟨by decide, ?_, ?_⟩
      · exact .cons_cons rfl (.cons_cons rfl (.singleton _))
      · rintro row ⟨⟩
        exact ⟨rfl, nofun⟩
    refine (hrows _ 7 (by decide)).2.1 _ ?_ hchain
    exact List.reverse_perm [chainRow 3 (some 5), chainRow 5 (some 7), chainRow 7 none]
  · have hpaths : FormPaths [(3, 5), (2, 9), (5, 7)] [[7, 5, 3], [9, 2]] := by
      refine ⟨by decide, fun link => ?_⟩
      simp
      tauto
    exact hlinks _ _ hpaths [7, 5, 3] List.mem_cons_self 2 (by decide) 5 (by decide)

end Harvest.RunChain
