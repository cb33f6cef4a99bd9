import Harvest.Overlay.Clients

/-!
# Runs of the overlay store

What holds for every choice of calls and every order of their steps.

Proved here:
* `overlay_logs_grow_in_order`: the logs only grow, versions and moves are numbered without gaps,
  and the moves lead from one active version to the next, up to the pointer.
* `rollback_reverses_the_last_move`: a rollback goes through exactly when the move that it read is
  still the last one, and it then leads back to where that move started.
* `auto_adoptions_obey_the_policy`: a version goes live without a person only as the policy of that
  very moment allows it.
-/

namespace Harvest.Overlay

/-! ## A store with one overlay -/

/-- An overlay and its JSON. -/
def brief : ProfileOverlay := { ProfileOverlay.default with system := some "Be brief." }

def briefJson : Bytes :=
  "\x7b\"system\":\"Be brief.\"\x7d".toList.map fun c => .ofNat c.toNat

def nilText : String := "00000000-0000-0000-0000-000000000000"

/-- A store that takes every overlay that it can write, which is this one. -/
def briefStore : Outside where
  validate _ _ _ := .ok ()
  encode overlay := if overlay = brief then .ok briefJson else .error "not written"
  decode bytes := if bytes = briefJson then some brief else none
  showId id := if id.uuid = 0 then nilText else .ofList (List.replicate id.uuid.toNat 'x')
  parseId text := if text = nilText then some ⟨0⟩ else some ⟨.ofNat 128 text.toList.length⟩

theorem briefStore_faithful : briefStore.Faithful where
  decode_encode overlay bytes h := by
    simp only [briefStore] at h ⊢
    split_ifs at h with hbrief
    cases h
    simp [hbrief]
  parse_show id := by
    simp only [briefStore]
    by_cases hnil : id.uuid = 0
    · rw [if_pos hnil, if_pos rfl, ← hnil]
    · have hne : String.ofList (List.replicate id.uuid.toNat 'x') ≠ nilText := fun heq => by
        have hzero : '0' ∈ (String.ofList (List.replicate id.uuid.toNat 'x')).toList := by
          rw [heq]
          decide
        rw [String.toList_ofList] at hzero
        exact absurd (List.eq_of_mem_replicate hzero) (by decide)
      rw [if_neg hnil, if_neg hne]
      simp

/-- Both put, both activated in order, then the last move is rolled back. -/
def rollbackCalls : List Client :=
  let operator := Provenance.operator "ada"
  [.put "scribe" brief operator, .put "scribe" brief operator,
    .activate ⟨"scribe", ⟨1, by decide⟩, none, none, operator⟩,
    .activate ⟨"scribe", ⟨2, by decide⟩, some ⟨1, by decide⟩, none, operator⟩,
    .rollback "scribe" operator]

def rollbackActs : List (ℕ × DateTime) :=
  [(0, 0), (0, 0), (1, 0), (1, 0), (2, 1), (2, 1), (2, 1), (3, 2), (3, 2), (3, 2), (4, 3), (4, 3),
    (4, 3)]

def briefPolicy : RefinePolicy :=
  { RefinePolicy.default with autoAdopt := ⟨{.system}, .limited 1⟩ }

def adoptCalls : List Client :=
  [.setPolicy "scribe" briefPolicy none (.operator "ada"),
    .autoAdopt ⟨"scribe", brief, ⟨0⟩, none, briefPolicy⟩ autoGateTries none]

variable {o : Outside} {w : World} {calls : List Client}

/-! ## The logs -/

/-- **Logs grow in order.** -/
theorem overlay_logs_grow_in_order (o : Outside) (calls : List Client)
    (hcalls : ∀ call ∈ calls, call.isCall = true) (acts more : List (ℕ × DateTime))
    (kind : String) :
    let log := (World.after o calls acts).kinds kind
    let later := (World.after o calls (acts ++ more)).kinds kind
    log.versions <+: later.versions ∧ log.moves <+: later.moves ∧ log.policies <+: later.policies ∧
    (∀ i stored, log.versions[i]? = some stored →
      stored.version.get = i + 1 ∧
      (stored.provenance.isAuto = true →
        ∃ move ∈ log.moves, move.to' = stored.version ∧ move.actor.isAuto = true)) ∧
    (∀ i move, log.moves[i]? = some move →
      move.seq = i + 1 ∧ move.from' = (log.moves.take i).getLast?.map (·.to') ∧
      move.from' ≠ some move.to' ∧ ∃ stored ∈ log.versions, stored.version = move.to') ∧
    (∀ i entry, log.policies[i]? = some entry →
      entry.revision = i + 1 ∧ entry.old = (log.policies.take i).getLast?.bind (·.new) ∧
      ∃ id, entry.actor = .operator id) ∧
    log.active = log.moves.getLast?.map (·.to') := by
  intro log later
  have hinv := World.inv_after (o := o) hcalls acts
  have hsound : Sound o log := hinv.sound kind
  have hgrows : Grows (World.after o calls acts).kinds
      (World.after o calls (acts ++ more)).kinds := by
    have happend : World.after o calls (acts ++ more) =
        Lib.exec (World.step o) (World.after o calls acts) more := Lib.exec_append ..
    rw [happend]
    exact World.grows_exec hinv more
  refine ⟨(hgrows kind).1, (hgrows kind).2.1, (hgrows kind).2.2, ?_, ?_, ?_, hsound.active⟩
  · exact fun i stored hstored => ⟨hsound.number_at hstored,
      hsound.autos stored (List.mem_of_getElem? hstored)⟩
  · intro i move hmove
    have hafter := hsound.moves.next_at hmove
    obtain ⟨stored, hmem, hto, -⟩ := hsound.known move (List.mem_of_getElem? hmove)
    exact ⟨hsound.moves.number_at (fun _ _ h => h.seq) hmove, hafter.from', hafter.moves, stored,
      hmem, hto⟩
  · intro i entry hentry
    have hafter := hsound.policies.next_at hentry
    exact ⟨hsound.policies.number_at (fun _ _ h => h.revision) hentry, hafter.old, hafter.operator⟩

theorem overlay_logs_grow_in_order_scribe :
    ((World.after briefStore rollbackCalls rollbackActs).kinds "scribe").moves <+:
      ((World.after briefStore rollbackCalls (rollbackActs ++ [(4, 4)])).kinds "scribe").moves ∧
    ∀ i stored, ((World.after briefStore rollbackCalls rollbackActs).kinds "scribe").versions[i]? =
      some stored → stored.version.get = i + 1 :=
  have h := overlay_logs_grow_in_order briefStore rollbackCalls (by decide) rollbackActs [(4, 4)]
    "scribe"
  ⟨h.2.1, fun i stored hstored => (h.2.2.2.1 i stored hstored).1⟩

/-! ## Rollbacks -/

/-- Where a move started is a stored version. -/
theorem Sound.known_from {log : KindLog} (h : Sound o log) {move : Activation}
    (hmem : move ∈ log.moves) {version : OverlayVersion} (hfrom : move.from' = some version) :
    ∃ stored ∈ log.versions, stored.version = version := by
  obtain ⟨i, hi⟩ := List.getElem?_of_mem hmem
  rw [(h.moves.next_at hi).from'] at hfrom
  obtain ⟨before, hbefore, rfl⟩ := Option.map_eq_some_iff.mp hfrom
  obtain ⟨stored, hstored, hto, -⟩ :=
    h.known before (List.mem_of_mem_take (List.mem_of_getLast? hbefore))
  exact ⟨stored, hstored, hto⟩

/-- The guard of a rollback passes exactly over the move that was read. -/
theorem Sound.last_iff {log : KindLog} (h : Sound o log) {last : Activation}
    (hmem : last ∈ log.moves) :
    log.moves.getLast?.map (·.seq) = some last.seq ↔ log.moves.getLast? = some last := by
  constructor
  · intro hseq
    obtain ⟨found, hfound, heq⟩ := Option.map_eq_some_iff.mp hseq
    rw [hfound, h.moves.number_inj (fun _ _ hafter => hafter.seq) (List.mem_of_getLast? hfound)
      hmem heq]
  · intro hlast
    rw [hlast]
    rfl

theorem swapNow_rollback {kinds : Kinds} {kind : String} (h : Sound o (kinds kind))
    {last : Activation} {to' : OverlayVersion} (hmem : last ∈ (kinds kind).moves)
    (hfrom : last.from' = some to') (now : DateTime) (actor : Provenance) :
    swapNow now kind (moveRequest to' (some last.to') (some last.seq) none) actor kinds =
      if (kinds kind).moves.getLast? = some last then
        (.activated,
          kinds.set kind
            { kinds kind with
              active := some to'
              moves := (kinds kind).moves ++ [⟨kind, last.seq + 1, some last.to', to', actor, now⟩] })
      else (.conflict ((kinds kind).active.map (·.get)), kinds) := by
  have hknown : ((kinds kind).versions.any (·.version = to')) = true := by
    obtain ⟨stored, hstored, hversion⟩ := h.known_from hmem hfrom
    exact List.any_eq_true.mpr ⟨stored, hstored, decide_eq_true hversion⟩
  have hnew : OverlayVersion.new (moveRequest to' (some last.to') (some last.seq) none).version =
      some to' := OverlayVersion.new_eq_some.mpr rfl
  have hdecide : ∀ actual lastSeq,
      (moveRequest to' (some last.to') (some last.seq) none).decide true actual lastSeq =
        decideRollback true last.to'.get actual last.seq lastSeq := fun _ _ => rfl
  unfold swapNow
  simp only [hnew, hknown, hdecide]
  by_cases hlast : (kinds kind).moves.getLast? = some last
  · have hactive : (kinds kind).active = some last.to' := by
      rw [h.active, hlast]
      rfl
    have hpass : decideRollback true last.to'.get ((kinds kind).active.map (·.get)) last.seq
        ((kinds kind).moves.getLast?.map (·.seq)) = .activate :=
      decideRollback_eq_activate.mpr
        ⟨rfl, by rw [hactive]; rfl, (h.last_iff hmem).mpr hlast⟩
    have hlogs : logsActivation ((kinds kind).active.map (·.get)) to'.get = true := by
      obtain ⟨i, hi⟩ := List.getElem?_of_mem hmem
      have hne := (h.moves.next_at hi).moves
      rw [hfrom] at hne
      rw [hactive, Option.map_some, logsActivation, bne_iff_ne]
      exact fun heq => hne (congrArg some (OverlayVersion.get_inj.mp heq.symm))
    have hseq : nextSeq (kinds kind) = last.seq + 1 := by
      rw [nextSeq, hlast]
      rfl
    rw [if_pos hlast, hpass]
    simp only [hlogs, if_true, hseq]
    rw [hactive]
  · rw [if_neg hlast, decideRollback_eq_conflict (mt (h.last_iff hmem).mp hlast)]

/-- **Rollbacks.** -/
theorem rollback_reverses_the_last_move (o : Outside) (calls : List Client)
    (hcalls : ∀ call ∈ calls, call.isCall = true) (acts : List (ℕ × DateTime)) (i : ℕ)
    (now : DateTime) (kind : String) (actor : Provenance) (last : Activation)
    (to' : OverlayVersion)
    (hclient : (World.after o calls acts).clients[i]? = some (.rollbackSwap kind actor last to')) :
    let w := World.after o calls acts
    let w' := World.after o calls (acts ++ [(i, now)])
    ((w.kinds kind).moves.getLast? = some last →
      w'.clients[i]? = some (.done (.ok (.rolledBack ⟨last.to', to'⟩))) ∧
      w'.kinds = w.kinds.set kind
        { w.kinds kind with
          active := last.from'
          moves := (w.kinds kind).moves ++ [⟨kind, last.seq + 1, some last.to', to', actor, now⟩] }) ∧
    ((w.kinds kind).moves.getLast? ≠ some last →
      w'.clients[i]? = some (.done (.error (.conflict (w.kinds kind).active))) ∧
      w'.kinds = w.kinds) := by
  intro w w'
  have hinv : World.Inv o w := World.inv_after hcalls acts
  obtain ⟨-, hmem, hfrom⟩ := hinv.holds _ (List.mem_of_getElem? hclient)
  have hi : i < w.clients.length := (List.getElem?_eq_some_iff.mp hclient).1
  have hswap := swapNow_rollback (hinv.sound kind) hmem hfrom now actor
  have hstep : w' = w.step o (i, now) := Lib.exec_append ..
  have hw' : w' = ⟨(Client.step o now w.kinds (.rollbackSwap kind actor last to')).2,
      w.clients.set i (Client.step o now w.kinds (.rollbackSwap kind actor last to')).1⟩ := by
    rw [hstep, World.step, hclient]
  simp only [hw', Client.step, List.getElem?_set_self hi]
  constructor
  · intro hlast
    rw [hswap, if_pos hlast]
    exact ⟨rfl, by rw [hfrom]⟩
  · intro hlast
    rw [hswap, if_neg hlast]
    refine ⟨?_, rfl⟩
    cases hactive : (w.kinds kind).active with
    | none => rfl
    | some version =>
      have hnew : OverlayVersion.new version.get = some version :=
        OverlayVersion.new_eq_some.mpr rfl
      simp [activated, hnew, Except.map]

theorem rollback_reverses_the_last_move_scribe :
    (World.after briefStore rollbackCalls (rollbackActs ++ [(4, 4)])).clients[4]? =
      some (.done (.ok (.rolledBack ⟨⟨2, by decide⟩, ⟨1, by decide⟩⟩))) :=
  ((rollback_reverses_the_last_move briefStore rollbackCalls (by decide) rollbackActs 4 4 "scribe"
    (.operator "ada") ⟨"scribe", 2, some ⟨1, by decide⟩, ⟨2, by decide⟩, .operator "ada", 2⟩
    ⟨1, by decide⟩ rfl).1 (by decide +kernel)).1

/-! ## Auto adoptions -/

/-- The adoption that a client is making. -/
def Client.adoption : Client → Option Adoption
  | .autoAdopt call _ _ | .autoPolicy call _ _ _ | .autoCommit call _ _ _ _ => some call
  | _ => none

/-- A client goes on with its own adoption. -/
theorem Client.adoption_step {kinds : Kinds} {client : Client} {now : DateTime} {call : Adoption}
    (h : (client.step o now kinds).1.adoption = some call) : client.adoption = some call := by
  cases client with
  | put | putUnder | activateSwap | rollbackSwap | setPolicy | resetPolicy | done => cases h
  | activate | activateStored | rollbackRead | rollbackStored =>
    simp only [Client.step] at h
    repeat' split at h
    all_goals cases h
  | rollback kind actor =>
    simp only [Client.step, Client.rollbackPlanned] at h
    repeat' split at h
    all_goals cases h
  | autoAdopt found tries moved =>
    cases tries with
    | zero => cases h
    | succ tries => exact h
  | autoPolicy found tries moved state =>
    simp only [Client.step, Client.autoGated] at h
    repeat' split at h
    all_goals first | exact h | cases h
  | autoCommit found tries bytes cap revision =>
    simp only [Client.step, Client.autoCommitted] at h
    split at h
    · cases h
    · exact h
    · cases h

theorem World.adoption_exec {acts : List (ℕ × DateTime)} {i : ℕ} {client : Client}
    {call : Adoption} (hclient : (Lib.exec (World.step o) w acts).clients[i]? = some client)
    (hcall : client.adoption = some call) :
    ∃ first, w.clients[i]? = some first ∧ first.adoption = some call := by
  induction acts generalizing w with
  | nil => exact ⟨client, hclient, hcall⟩
  | cons act acts ih =>
    obtain ⟨between, hbetween, hadopts⟩ := ih hclient
    rcases World.step_cases o w act with hsame | ⟨stepped, hstepped, hstep⟩
    · rw [hsame] at hbetween
      exact ⟨between, hbetween, hadopts⟩
    · rw [hstep] at hbetween
      by_cases hi : act.1 = i
      · subst hi
        rw [List.getElem?_set_self (List.getElem?_eq_some_iff.mp hstepped).1] at hbetween
        cases hbetween
        exact ⟨stepped, hstepped, Client.adoption_step hadopts⟩
      · rw [List.getElem?_set_ne hi] at hbetween
        exact ⟨between, hbetween, hadopts⟩

theorem Client.adoption_of_isCall {client : Client} {call : Adoption} (h : client.isCall = true)
    (hcall : client.adoption = some call) : client = .autoAdopt call autoGateTries none := by
  cases client with
  | autoAdopt found tries moved =>
    cases hcall
    simp only [Client.isCall, Bool.and_eq_true, beq_iff_eq, Option.isNone_iff_eq_none] at h
    rw [h.1, h.2]
  | autoPolicy | autoCommit => cases h
  | _ => cases hcall

/-- The policy that a client read is the current one, when its revision is. -/
theorem Sound.policy_current {kinds : Kinds} {kind : String} (h : Sound o (kinds kind))
    {state : PolicyState} (hread : ReadPolicy (kinds kind).policies state)
    (hrevision : (kinds kind).policies.getLast?.map (·.revision) = state.revision) :
    state = kinds.policy kind := by
  rw [Kinds.policy]
  rcases hread with rfl | ⟨entry, hmem, rfl⟩
  · rw [Option.map_eq_none_iff.mp hrevision]
  · obtain ⟨last, hlast, heq⟩ := Option.map_eq_some_iff.mp hrevision
    rw [hlast, h.policies.number_inj (fun _ _ hafter => hafter.revision)
      (List.mem_of_getLast? hlast) hmem heq]
    rfl

theorem DailyCap.stricter_comm (a b : DailyCap) : a.stricter b = b.stricter a := by
  cases a <;> cases b <;> simp only [stricter]
  congr 1
  split_ifs <;> grind

/-- The stricter cap leaves no more room than either cap. -/
theorem DailyCap.stricter_le {a b : DailyCap} {limit : UInt32} (h : limit ∈ a.limit) :
    ∃ strict ∈ (a.stricter b).limit, strict.toNat ≤ limit.toNat := by
  cases a with
  | unlimited => cases h
  | limited n =>
    cases h
    cases b with
    | unlimited => exact ⟨_, rfl, le_rfl⟩
    | limited m =>
      refine ⟨_, rfl, ?_⟩
      split_ifs with hlt
      · exact le_rfl
      · exact Nat.le_of_not_lt hlt

theorem putNow_moves (o : Outside) (now : DateTime) (kind : String) (overlay : ProfileOverlay)
    (provenance : Provenance) (policy : RefinePolicy) (kinds : Kinds) (other : String) :
    ((putNow o now kind overlay provenance policy kinds).2 other).moves = (kinds other).moves := by
  unfold putNow
  repeat' split
  · rfl
  · rfl
  · rfl
  · by_cases hkind : other = kind
    · subst hkind
      simp only [Kinds.set_self]
    · simp only [Kinds.set_of_ne hkind]

theorem writePolicy_moves (now : DateTime) (kind : String) (policy : Option RefinePolicy)
    (expected : PolicyExpect) (actor : Provenance) (kinds : Kinds) (other : String) :
    ((writePolicy now kind policy expected actor kinds).2 other).moves = (kinds other).moves := by
  unfold writePolicy
  dsimp only
  repeat' split
  · rfl
  · by_cases hkind : other = kind
    · subst hkind
      simp only [Kinds.set_self]
    · simp only [Kinds.set_of_ne hkind]
  · rfl

theorem ne_concat {α : Type*} (log : List α) (entry : α) : log ≠ log ++ [entry] := by
  simp

theorem swapNow_moves {now : DateTime} {kind : String} {request : MoveRequest} {actor : Provenance}
    {kinds : Kinds} {other : String} {move : Activation} (hmanual : actor.isAuto = false)
    (hauto : move.actor.isAuto = true) :
    ((swapNow now kind request actor kinds).2 other).moves ≠ (kinds other).moves ++ [move] := by
  rcases swapNow_cases now kind request actor kinds with hsame | ⟨version, -, -, -, -, hswap⟩
  · rw [hsame]
    exact ne_concat _ _
  · rw [hswap]
    dsimp only
    by_cases hkind : other = kind
    · subst hkind
      rw [Kinds.set_self]
      intro happend
      obtain rfl := List.singleton_inj.mp (List.append_cancel_left happend)
      rw [nextMove, hmanual] at hauto
      cases hauto
    · rw [Kinds.set_of_ne hkind]
      exact ne_concat _ _

/-- Only the transaction of an adoption moves the pointer without a person. -/
theorem Client.autoCommit_of_move {kinds : Kinds} {client : Client} {now : DateTime}
    {kind : String} {move : Activation} (hholds : client.Holds o kinds)
    (hmove : ((client.step o now kinds).2 kind).moves = (kinds kind).moves ++ [move])
    (hauto : move.actor.isAuto = true) :
    ∃ call tries bytes cap revision, client = .autoCommit call tries bytes cap revision := by
  have hsame : ∀ kinds' : Kinds, (kinds' kind).moves = (kinds kind).moves →
      (kinds' kind).moves ≠ (kinds kind).moves ++ [move] := fun kinds' heq => by
    rw [heq]
    exact ne_concat _ _
  cases client with
  | autoCommit call tries bytes cap revision => exact ⟨call, tries, bytes, cap, revision, rfl⟩
  | putUnder => exact absurd hmove (hsame _ (putNow_moves ..))
  | setPolicy | resetPolicy => exact absurd hmove (hsame _ (writePolicy_moves ..))
  | activateSwap => exact absurd hmove (swapNow_moves hholds hauto)
  | rollbackSwap => exact absurd hmove (swapNow_moves hholds.1 hauto)
  | put | done | autoPolicy => exact absurd hmove (hsame _ rfl)
  | autoAdopt call tries moved =>
    cases tries <;> exact absurd hmove (hsame _ rfl)
  | activate | activateStored | rollback | rollbackRead | rollbackStored =>
    simp only [Client.step] at hmove
    repeat' split at hmove
    all_goals exact absurd hmove (hsame _ rfl)

theorem usedOn_concat_le {log log' : KindLog} {move : Activation} (day : DateTime × DateTime)
    (h : log'.moves = log.moves ++ [move]) : usedOn log' day ≤ usedOn log day + 1 := by
  rw [usedOn, usedOn, h, List.countP_append]
  exact Nat.add_le_add_left (List.countP_le_length.trans (by simp)) _

/-- The overlay of a call went live as the policy allows it, over the overlay that was live. -/
structure Adopted (o : Outside) (call : Adoption) (now : DateTime) (current : RefinePolicy)
    (log log' : KindLog) (move : Activation) (base : ProfileOverlay) (stored : StoredOverlay) :
    Prop where
  live : ReadBase log.versions log.active base
  changed : changedParts base call.overlay ≠ ∅
  allowed : changedParts base call.overlay ⊆
    call.runPolicy.autoAdopt.parts ∩ current.autoAdopt.parts
  valid : o.validate call.kind call.overlay current = .ok ()
  overlay : stored.overlay = call.overlay
  author : stored.provenance = .auto call.run
  versions : log'.versions = log.versions ++ [stored]
  active : log'.active = some stored.version
  move : move = ⟨call.kind, log.moves.length + 1, log.active, stored.version, .auto call.run, now⟩
  cap : ∀ limit, limit ∈ call.runPolicy.autoAdopt.maxPerDay.limit ∨
    limit ∈ current.autoAdopt.maxPerDay.limit → usedOn log' (utcDay now) ≤ limit.toNat

theorem Client.adopted_of_autoCommit {kinds : Kinds} {call : Adoption} {tries : Nat} {bytes : Bytes}
    {cap : DailyCap} {revision : Option Nat} {now : DateTime} {kind : String} {move : Activation}
    (ho : o.Faithful) (hsound : ∀ kind, Sound o (kinds kind))
    (hholds : (Client.autoCommit call tries bytes cap revision).Holds o kinds)
    (hmove : (((Client.autoCommit call tries bytes cap revision).step o now kinds).2 kind).moves =
      (kinds kind).moves ++ [move]) :
    call.kind = kind ∧ ∃ base stored, Adopted o call now (kinds.policy kind).policy (kinds kind)
      (((Client.autoCommit call tries bytes cap revision).step o now kinds).2 kind) move base
      stored := by
  obtain ⟨state, base, hread, hrevision, hbase, hgated⟩ := hholds
  simp only [Client.step] at hmove ⊢
  rcases autoAdoptNow_cases o now call.kind bytes (.auto call.run) call.expected cap revision kinds
    with hkept | ⟨stored, hpolicy, hactive, hroom, hnext, hbytes, hprovenance, hkinds⟩
  · rw [hkept] at hmove
    exact absurd hmove (ne_concat _ _)
  · rw [hkinds] at hmove ⊢
    by_cases hkind : kind = call.kind
    · subst hkind
      rw [Kinds.set_self] at hmove ⊢
      obtain rfl := List.singleton_inj.mp (List.append_cancel_left hmove)
      have hcurrent := (hsound call.kind).policy_current hread (hpolicy.trans hrevision.symm)
      rw [hcurrent] at hgated
      have hoverlay : stored.overlay = call.overlay := by
        have hreads := hnext.reads
        rw [hbytes, ho.decode_encode _ _ hgated.encoded] at hreads
        exact (Option.some.inj hreads).symm
      have hseq := ((hsound call.kind).moveAfter
        ⟨rfl, rfl, (hsound call.kind).active_ne hnext⟩ :
        MoveAfter _ (nextMove now call.kind (kinds call.kind) stored.version (.auto call.run))).seq
      refine ⟨rfl, base, stored, ⟨hactive ▸ hbase, hgated.changed, hgated.allowed, hgated.valid,
        hoverlay, ?_, rfl, rfl, ?_, ?_⟩⟩
      · exact (Except.ok.inj ((ho.decodeProvenance _).symm.trans hprovenance)).symm
      · rw [← hseq]
        rfl
      · intro limit hlimit
        obtain ⟨strict, hstrict, hle⟩ : ∃ strict ∈ cap.limit, strict.toNat ≤ limit.toNat := by
          rw [hgated.cap]
          rcases hlimit with hrun | hnow
          · exact DailyCap.stricter_le hrun
          · rw [DailyCap.stricter_comm]
            exact DailyCap.stricter_le hnow
        calc usedOn _ (utcDay now) ≤ usedOn (kinds call.kind) (utcDay now) + 1 :=
              usedOn_concat_le (utcDay now) rfl
          _ ≤ strict.toNat := hroom strict hstrict
          _ ≤ limit.toNat := hle
    · rw [Kinds.set_of_ne hkind] at hmove
      exact absurd hmove (ne_concat _ _)

/-- **Adoptions without a person.** -/
theorem auto_adoptions_obey_the_policy (o : Outside) (ho : o.Faithful) (calls : List Client)
    (hcalls : ∀ call ∈ calls, call.isCall = true) (acts : List (ℕ × DateTime)) (i : ℕ)
    (now : DateTime) (kind : String) (move : Activation)
    (hmove : ((World.after o calls (acts ++ [(i, now)])).kinds kind).moves =
      ((World.after o calls acts).kinds kind).moves ++ [move])
    (hauto : move.actor.isAuto = true) :
    ∃ call base stored,
      calls[i]? = some (.autoAdopt call autoGateTries none) ∧ call.kind = kind ∧
      Adopted o call now ((World.after o calls acts).kinds.policy kind).policy
        ((World.after o calls acts).kinds kind)
        ((World.after o calls (acts ++ [(i, now)])).kinds kind) move base stored := by
  have hinv := World.inv_after (o := o) hcalls acts
  have hstep : World.after o calls (acts ++ [(i, now)]) =
      (World.after o calls acts).step o (i, now) := Lib.exec_append ..
  rw [hstep] at hmove ⊢
  rcases World.step_cases o (World.after o calls acts) (i, now) with
    hsame | ⟨client, hclient, hclientStep⟩
  · rw [hsame] at hmove
    exact absurd hmove (ne_concat _ _)
  · have hholds := hinv.holds client (List.mem_of_getElem? hclient)
    rw [hclientStep] at hmove ⊢
    obtain ⟨call, tries, bytes, cap, revision, rfl⟩ := Client.autoCommit_of_move hholds hmove hauto
    obtain ⟨hkind, base, stored, hadopted⟩ :=
      Client.adopted_of_autoCommit ho hinv.sound hholds hmove
    obtain ⟨first, hfirst, hcall⟩ := World.adoption_exec hclient rfl
    have hfirst' : first = .autoAdopt call autoGateTries none :=
      Client.adoption_of_isCall (hcalls first (List.mem_of_getElem? hfirst)) hcall
    exact ⟨call, base, stored, hfirst' ▸ hfirst, hkind, hadopted⟩

theorem auto_adoptions_obey_the_policy_scribe :
    ∃ call base stored, adoptCalls[1]? = some (.autoAdopt call autoGateTries none) ∧
      call.kind = "scribe" ∧
      Adopted briefStore call 1
        ((World.after briefStore adoptCalls [(0, 0), (1, 1), (1, 1)]).kinds.policy "scribe").policy
        ((World.after briefStore adoptCalls [(0, 0), (1, 1), (1, 1)]).kinds "scribe")
        ((World.after briefStore adoptCalls ([(0, 0), (1, 1), (1, 1)] ++ [(1, 1)])).kinds "scribe")
        ⟨"scribe", 1, none, ⟨1, by decide⟩, .auto ⟨0⟩, 1⟩ base stored :=
  auto_adoptions_obey_the_policy briefStore briefStore_faithful adoptCalls (by decide)
    [(0, 0), (1, 1), (1, 1)] 1 1 "scribe" _ (by decide +kernel) rfl

end Harvest.Overlay
