import Harvest.Lib.Run
import Harvest.Overlay.Store

/-!
# Clients of the overlay store

Any number of clients call the store at once. A call takes the lock once for each thing it reads and
once for its write, so the steps of other clients come between what a call reads and what it writes.

Proved here:
* `Client.step_changes`: a step of a client changes the logs as one of the atomic functions does.
* `Client.Holds.mono`: what a client has read stays true, whatever the others write.
* `World.inv_after`: in every reachable world, every log is sound and every client knows what it read.
-/

namespace Harvest.Overlay

/-! ## Calls -/

structure Activate where
  kind : String
  version : OverlayVersion
  expected : Option OverlayVersion
  /-- The log head of `activate_guarded`. -/
  head : Option ReadHead
  actor : Provenance
deriving DecidableEq, Repr

structure Adoption where
  kind : String
  overlay : ProfileOverlay
  run : ExecutionId
  expected : Option OverlayVersion
  runPolicy : RefinePolicy

inductive AutoAdoptOutcome
  | adopted (version : OverlayVersion)
  | unchanged
  | needsApproval (parts : Finset OverlayPart)
  | capReached (cap : UInt32) (used : Nat)
deriving DecidableEq

structure Rollback where
  from' : OverlayVersion
  to' : OverlayVersion
deriving DecidableEq, Repr

inductive Answer
  | version (version : OverlayVersion)
  | activated
  | rolledBack (rollback : Rollback)
  | policy (entry : PolicyLogEntry)
  | auto (outcome : AutoAdoptOutcome)

def moveRequest (version : OverlayVersion) (expected : Option OverlayVersion)
    (afterSeq : Option Nat) (head : Option ReadHead) : MoveRequest :=
  ⟨version.get, expected.map (·.get), afterSeq, head⟩

def activated (version : OverlayVersion) : ActivateOutcome → Except OverlayStoreError Unit
  | .activated => .ok ()
  | .unknownVersion => .error (.unknownVersion version)
  | .conflict none => .error (.conflict none)
  | .conflict (some actual) =>
    match OverlayVersion.new actual with
    | some actual => .error (.conflict (some actual))
    | none => .error (.corrupt "a stored pointer is 0")

inductive AutoGate
  | done (outcome : AutoAdoptOutcome)
  | go (bytes : Bytes) (cap : DailyCap) (revision : Option Nat)
deriving DecidableEq

/-- The gate after its reads: the policy of the kind and the overlay of the expected version. -/
def autoGate (o : Outside) (call : Adoption) (state : PolicyState) (base : ProfileOverlay) :
    Except OverlayStoreError AutoGate :=
  let current := state.policy
  let allowed := call.runPolicy.autoAdopt.parts ∩ current.autoAdopt.parts
  let changed := changedParts base call.overlay
  match decideAdoption (mask allowed) (mask changed) 0 none with
  | .unchanged => .ok (.done .unchanged)
  | .needsApproval => .ok (.done (.needsApproval (changed \ allowed)))
  | .adopt | .capReached =>
    match o.encodeValid call.kind call.overlay current with
    | .error error => .error error
    | .ok bytes =>
      .ok (.go bytes (call.runPolicy.autoAdopt.maxPerDay.stricter current.autoAdopt.maxPerDay)
        state.revision)

def u32Max : Nat := 2 ^ 32 - 1

def autoAdopted (cap : DailyCap) : AutoAdoptRaw → Except OverlayStoreError AutoAdoptOutcome
  | .adopted row =>
    match OverlayVersion.new row.version with
    | some version => .ok (.adopted version)
    | none => .error (.corrupt "a stored version is 0")
  | .capReached used => .ok (.capReached (cap.limit.getD (.ofNat u32Max)) (min used u32Max))
  | .conflict none => .error (.conflict none)
  | .conflict (some actual) =>
    match OverlayVersion.new actual with
    | some actual => .error (.conflict (some actual))
    | none => .error (.corrupt "a stored pointer is 0")
  | .full => .error .full
  | .policyMoved actual => .error (.policyConflict actual)

def autoGateTries : Nat := 4

/-! ## Where a client is -/

/-- A call before its first step, between two of its steps, or with its answer. -/
inductive Client
  | put (kind : String) (overlay : ProfileOverlay) (provenance : Provenance)
  | putUnder (kind : String) (overlay : ProfileOverlay) (provenance : Provenance)
      (policy : RefinePolicy)
  | activate (call : Activate)
  | activateStored (call : Activate) (stored : StoredOverlay)
  | activateSwap (call : Activate)
  | rollback (kind : String) (actor : Provenance)
  | rollbackRead (kind : String) (actor : Provenance) (last : Activation) (to' : OverlayVersion)
  | rollbackStored (kind : String) (actor : Provenance) (last : Activation) (to' : OverlayVersion)
      (stored : StoredOverlay)
  | rollbackSwap (kind : String) (actor : Provenance) (last : Activation) (to' : OverlayVersion)
  | setPolicy (kind : String) (policy : RefinePolicy) (expected : Option Nat) (actor : Provenance)
  | resetPolicy (kind : String) (actor : Provenance)
  | autoAdopt (call : Adoption) (tries : Nat) (moved : Option Nat)
  | autoPolicy (call : Adoption) (tries : Nat) (moved : Option Nat) (state : PolicyState)
  | autoCommit (call : Adoption) (tries : Nat) (bytes : Bytes) (cap : DailyCap)
      (revision : Option Nat)
  | done (answer : Except OverlayStoreError Answer)

/-- The base of an adoption: the overlay of the version that it expects to be active. -/
def Kinds.base (kinds : Kinds) (kind : String) (expected : Option OverlayVersion) :
    Except OverlayStoreError ProfileOverlay :=
  match expected with
  | none => .ok .default
  | some version =>
    match kinds.get kind version with
    | some stored => .ok stored.overlay
    | none => .error (.unknownVersion version)

namespace Client

/-- A call that has not begun. -/
def isCall : Client → Bool
  | put .. | activate _ | rollback .. | setPolicy .. | resetPolicy .. => true
  | autoAdopt _ tries moved => tries == autoGateTries && moved.isNone
  | _ => false

/-- What a rollback makes of the last move. -/
def rollbackPlanned (kind : String) (actor : Provenance) : Option Activation → Client
  | none => done (.error .noEarlierActivation)
  | some last =>
    match rollbackTarget (last.from'.map (·.get)) last.to'.get with
    | none => done (.error .noEarlierActivation)
    | some plan =>
      match OverlayVersion.new plan.target with
      | none => done (.error (.corrupt "a logged version is 0"))
      | some to' => rollbackRead kind actor last to'

/-- What an adoption makes of its base. -/
def autoGated (o : Outside) (call : Adoption) (tries : Nat) (state : PolicyState) :
    Except OverlayStoreError ProfileOverlay → Client
  | .error error => done (.error error)
  | .ok base =>
    match autoGate o call state base with
    | .error error => done (.error error)
    | .ok (.done outcome) => done (.ok (.auto outcome))
    | .ok (.go bytes cap revision) => autoCommit call tries bytes cap revision

/-- What an adoption makes of the answer of its transaction. -/
def autoCommitted (call : Adoption) (tries : Nat) (cap : DailyCap) :
    Except OverlayStoreError AutoAdoptRaw → Client
  | .error error => done (.error error)
  | .ok (.policyMoved actual) => autoAdopt call tries actual
  | .ok raw => done ((autoAdopted cap raw).map .auto)

/-- One step: everything up to the next release of the lock. -/
def step (o : Outside) (now : DateTime) (kinds : Kinds) : Client → Client × Kinds
  | put kind overlay provenance =>
    (putUnder kind overlay provenance (kinds.policy kind).policy, kinds)
  | putUnder kind overlay provenance policy =>
    let (answer, kinds) := putNow o now kind overlay provenance policy kinds
    (done (answer.map .version), kinds)
  | activate call =>
    match call.actor.checkManual with
    | .error error => (done (.error error), kinds)
    | .ok () =>
      match kinds.get call.kind call.version with
      | none => (done (.error (.unknownVersion call.version)), kinds)
      | some stored => (activateStored call stored, kinds)
  | activateStored call stored =>
    match o.validate call.kind stored.overlay (kinds.policy call.kind).policy with
    | .error error => (done (.error error), kinds)
    | .ok () => (activateSwap call, kinds)
  | activateSwap call =>
    let (outcome, kinds) := swapNow now call.kind
      (moveRequest call.version call.expected none call.head) call.actor kinds
    (done ((activated call.version outcome).map fun _ => .activated), kinds)
  | rollback kind actor =>
    match actor.checkManual with
    | .error error => (done (.error error), kinds)
    | .ok () => (rollbackPlanned kind actor (kinds.lastActivation kind), kinds)
  | rollbackRead kind actor last to' =>
    match kinds.get kind to' with
    | none => (done (.error (.unknownVersion to')), kinds)
    | some stored => (rollbackStored kind actor last to' stored, kinds)
  | rollbackStored kind actor last to' stored =>
    match o.validate kind stored.overlay (kinds.policy kind).policy with
    | .error error => (done (.error error), kinds)
    | .ok () => (rollbackSwap kind actor last to', kinds)
  | rollbackSwap kind actor last to' =>
    let (outcome, kinds) := swapNow now kind
      (moveRequest to' (some last.to') (some last.seq) none) actor kinds
    (done ((activated to' outcome).map fun _ => .rolledBack ⟨last.to', to'⟩), kinds)
  | setPolicy kind policy expected actor =>
    let (answer, kinds) := writePolicy now kind (some policy) (.revision expected) actor kinds
    (done (answer.map .policy), kinds)
  | resetPolicy kind actor =>
    let (answer, kinds) := writePolicy now kind none .any actor kinds
    (done (answer.map .policy), kinds)
  | autoAdopt call tries moved =>
    match tries with
    | 0 => (done (.error (.policyConflict moved)), kinds)
    | tries + 1 => (autoPolicy call tries moved (kinds.policy call.kind), kinds)
  | autoPolicy call tries _ state =>
    (autoGated o call tries state (kinds.base call.kind call.expected), kinds)
  | autoCommit call tries bytes cap revision =>
    let (raw, kinds) := autoAdoptNow o now call.kind bytes (.auto call.run) call.expected cap
      revision kinds
    (autoCommitted call tries cap raw, kinds)
  | done answer => (done answer, kinds)

end Client

/-! ## Runs -/

structure World where
  kinds : Kinds
  clients : List Client

namespace World

/-- The empty store and the calls that will be made. -/
def start (calls : List Client) : World := ⟨fun _ => .default, calls⟩

/-- A step of the client with this number, at a time that the clock gives. -/
def step (o : Outside) (w : World) (act : ℕ × DateTime) : World :=
  match w.clients[act.1]? with
  | none => w
  | some client =>
    let (client, kinds) := client.step o act.2 w.kinds
    ⟨kinds, w.clients.set act.1 client⟩

def after (o : Outside) (calls : List Client) (acts : List (ℕ × DateTime)) : World :=
  Lib.exec (step o) (start calls) acts

end World

/-! ## The logs only grow -/

theorem Change.grows {o : Outside} {log log' : KindLog} (h : Change o log log') :
    log.versions <+: log'.versions ∧ log.moves <+: log'.moves ∧ log.policies <+: log'.policies := by
  cases h with
  | put => exact ⟨List.prefix_append _ _, List.prefix_rfl, List.prefix_rfl⟩
  | policy => exact ⟨List.prefix_rfl, List.prefix_rfl, List.prefix_append _ _⟩
  | move => exact ⟨List.prefix_rfl, List.prefix_append _ _, List.prefix_rfl⟩
  | adopt => exact ⟨List.prefix_append _ _, List.prefix_append _ _, List.prefix_rfl⟩

/-- Every log of the second store continues its log in the first one. -/
def Grows (kinds kinds' : Kinds) : Prop :=
  ∀ kind, (kinds kind).versions <+: (kinds' kind).versions ∧
    (kinds kind).moves <+: (kinds' kind).moves ∧ (kinds kind).policies <+: (kinds' kind).policies

theorem Grows.refl (kinds : Kinds) : Grows kinds kinds :=
  fun _ => ⟨List.prefix_rfl, List.prefix_rfl, List.prefix_rfl⟩

theorem Grows.trans {a b c : Kinds} (hab : Grows a b) (hbc : Grows b c) : Grows a c :=
  fun kind => ⟨(hab kind).1.trans (hbc kind).1, (hab kind).2.1.trans (hbc kind).2.1,
    (hab kind).2.2.trans (hbc kind).2.2⟩

theorem Changes.grows {o : Outside} {kinds kinds' : Kinds} (h : Changes o kinds kinds') :
    Grows kinds kinds' := by
  rcases h with rfl | ⟨kind, log, hchange, rfl⟩
  · exact Grows.refl _
  · intro other
    by_cases hkind : other = kind
    · subst hkind
      rw [Kinds.set_self]
      exact hchange.grows
    · rw [Kinds.set_of_ne hkind]
      exact Grows.refl kinds other

theorem Changes.sound {o : Outside} {kinds kinds' : Kinds} (h : Changes o kinds kinds')
    (hsound : ∀ kind, Sound o (kinds kind)) (kind : String) : Sound o (kinds' kind) := by
  rcases h with rfl | ⟨changed, log, hchange, rfl⟩
  · exact hsound kind
  · by_cases hkind : kind = changed
    · subst hkind
      rw [Kinds.set_self]
      exact hchange.sound (hsound kind)
    · rw [Kinds.set_of_ne hkind]
      exact hsound kind

/-! ## What a client knows between two of its steps -/

/-- The policy that a client read. -/
def ReadPolicy (policies : List PolicyLogEntry) (state : PolicyState) : Prop :=
  state = policyState none ∨ ∃ entry ∈ policies, state = entry.state

/-- The base that an adoption read. -/
def ReadBase (versions : List StoredOverlay) (expected : Option OverlayVersion)
    (base : ProfileOverlay) : Prop :=
  match expected with
  | none => base = .default
  | some version => ∃ stored ∈ versions, stored.version = version ∧ stored.overlay = base

/-- What the gate of an adoption has checked under the policy. -/
structure Gated (o : Outside) (call : Adoption) (current : RefinePolicy) (base : ProfileOverlay)
    (bytes : Bytes) (cap : DailyCap) : Prop where
  changed : changedParts base call.overlay ≠ ∅
  allowed : changedParts base call.overlay ⊆
    call.runPolicy.autoAdopt.parts ∩ current.autoAdopt.parts
  valid : o.validate call.kind call.overlay current = .ok ()
  encoded : o.encode call.overlay = .ok bytes
  cap : cap = call.runPolicy.autoAdopt.maxPerDay.stricter current.autoAdopt.maxPerDay

/-- What a client has read and checked so far still holds. -/
def Client.Holds (o : Outside) (kinds : Kinds) : Client → Prop
  | .activateStored call _ => call.actor.isAuto = false
  | .activateSwap call => call.actor.isAuto = false
  | .rollbackRead kind actor last to' | .rollbackStored kind actor last to' _ |
    .rollbackSwap kind actor last to' =>
    actor.isAuto = false ∧ last ∈ (kinds kind).moves ∧ last.from' = some to'
  | .autoPolicy call _ _ state => ReadPolicy (kinds call.kind).policies state
  | .autoCommit call _ bytes cap revision =>
    ∃ state base, ReadPolicy (kinds call.kind).policies state ∧ state.revision = revision ∧
      ReadBase (kinds call.kind).versions call.expected base ∧
      Gated o call state.policy base bytes cap
  | _ => True

theorem ReadPolicy.mono {policies policies' : List PolicyLogEntry} {state : PolicyState}
    (h : ReadPolicy policies state) (hgrows : policies <+: policies') :
    ReadPolicy policies' state :=
  h.imp_right fun ⟨entry, hmem, hstate⟩ => ⟨entry, hgrows.subset hmem, hstate⟩

theorem ReadBase.mono {versions versions' : List StoredOverlay} {expected : Option OverlayVersion}
    {base : ProfileOverlay} (h : ReadBase versions expected base) (hgrows : versions <+: versions') :
    ReadBase versions' expected base := by
  cases expected with
  | none => exact h
  | some version =>
    obtain ⟨stored, hmem, hstored⟩ := h
    exact ⟨stored, hgrows.subset hmem, hstored⟩

/-- What other clients write does not take away what a client knows. -/
theorem Client.Holds.mono {o : Outside} {kinds kinds' : Kinds} {client : Client}
    (h : client.Holds o kinds) (hgrows : Grows kinds kinds') : client.Holds o kinds' := by
  cases client with
  | rollbackRead kind _ _ _ => exact ⟨h.1, (hgrows kind).2.1.subset h.2.1, h.2.2⟩
  | rollbackStored kind _ _ _ _ => exact ⟨h.1, (hgrows kind).2.1.subset h.2.1, h.2.2⟩
  | rollbackSwap kind _ _ _ => exact ⟨h.1, (hgrows kind).2.1.subset h.2.1, h.2.2⟩
  | autoPolicy call tries moved state => exact ReadPolicy.mono h (hgrows call.kind).2.2
  | autoCommit call tries bytes cap revision =>
    obtain ⟨state, base, hpolicy, hrevision, hbase, hgated⟩ := h
    exact ⟨state, base, hpolicy.mono (hgrows call.kind).2.2, hrevision,
      hbase.mono (hgrows call.kind).1, hgated⟩
  | activateStored call stored => exact h
  | activateSwap call => exact h
  | _ => trivial

theorem readPolicy_policy (kinds : Kinds) (kind : String) :
    ReadPolicy (kinds kind).policies (kinds.policy kind) := by
  unfold Kinds.policy
  cases hlast : (kinds kind).policies.getLast? with
  | none => exact .inl rfl
  | some entry => exact .inr ⟨entry, List.mem_of_getLast? hlast, rfl⟩

theorem readBase_of_base {kinds : Kinds} {kind : String} {expected : Option OverlayVersion}
    {base : ProfileOverlay} (h : kinds.base kind expected = .ok base) :
    ReadBase (kinds kind).versions expected base := by
  cases expected with
  | none =>
    cases h
    rfl
  | some version =>
    simp only [Kinds.base, Kinds.get] at h
    split at h
    · next stored hfind =>
      cases h
      have hversion := List.find?_some hfind
      exact ⟨stored, List.mem_of_find?_eq_some hfind, of_decide_eq_true hversion, rfl⟩
    · cases h

/-- The gate lets an adoption go on only when it has checked it. -/
theorem gated_of_autoGate {o : Outside} {call : Adoption} {state : PolicyState}
    {base : ProfileOverlay} {bytes : Bytes} {cap : DailyCap} {revision : Option Nat}
    (h : autoGate o call state base = .ok (.go bytes cap revision)) :
    Gated o call state.policy base bytes cap ∧ state.revision = revision := by
  simp only [autoGate, decideAdoption_mask] at h
  by_cases hnone : changedParts base call.overlay = ∅
  · simp [hnone] at h
  · by_cases hsub : changedParts base call.overlay ⊆
        call.runPolicy.autoAdopt.parts ∩ state.policy.autoAdopt.parts
    · rw [if_neg hnone, if_pos hsub] at h
      dsimp only at h
      split at h
      · cases h
      · next encoded hencoded =>
        cases h
        obtain ⟨hvalid, hencode, -⟩ := Outside.of_encodeValid hencoded
        exact ⟨⟨hnone, hsub, hvalid, hencode, rfl⟩, rfl⟩
    · rw [if_neg hnone, if_neg hsub] at h
      cases h

/-- A planned rollback leads back to where the last move started. -/
theorem holds_rollbackPlanned {o : Outside} {kinds : Kinds} {kind : String} {actor : Provenance}
    (hmanual : actor.isAuto = false) :
    (Client.rollbackPlanned kind actor (kinds.lastActivation kind)).Holds o kinds := by
  unfold Client.rollbackPlanned
  split
  · trivial
  · next last hlast =>
    cases hfrom : last.from' with
    | none => trivial
    | some to' =>
      have hnew : OverlayVersion.new to'.get = some to' := OverlayVersion.new_eq_some.mpr rfl
      simp only [Option.map_some, rollbackTarget, hnew]
      exact ⟨hmanual, List.mem_of_getLast? hlast, hfrom⟩

theorem holds_autoGated {o : Outside} {kinds : Kinds} {call : Adoption} {tries : Nat}
    {state : PolicyState} (hpolicy : ReadPolicy (kinds call.kind).policies state) :
    (Client.autoGated o call tries state (kinds.base call.kind call.expected)).Holds o kinds := by
  unfold Client.autoGated
  split
  · trivial
  · next base hbase =>
    split
    · trivial
    · trivial
    · next bytes cap revision hgate =>
      obtain ⟨hgated, hrevision⟩ := gated_of_autoGate hgate
      exact ⟨state, base, hpolicy, hrevision, readBase_of_base hbase, hgated⟩

theorem holds_autoCommitted {o : Outside} {kinds : Kinds} (call : Adoption) (tries : Nat)
    (cap : DailyCap) (raw : Except OverlayStoreError AutoAdoptRaw) :
    (Client.autoCommitted call tries cap raw).Holds o kinds := by
  unfold Client.autoCommitted
  split <;> trivial

/-! ## Steps and runs -/

/-- A step changes the logs as one of the atomic functions does. -/
theorem Client.step_changes {o : Outside} {kinds : Kinds} {client : Client} (now : DateTime)
    (hsound : ∀ kind, Sound o (kinds kind)) (hholds : client.Holds o kinds) :
    Changes o kinds (client.step o now kinds).2 := by
  cases client with
  | putUnder kind overlay provenance policy => exact putNow_change ..
  | activateSwap call => exact swapNow_change hholds
  | rollbackSwap kind actor last to' => exact swapNow_change hholds.1
  | setPolicy kind policy expected actor => exact writePolicy_change ..
  | resetPolicy kind actor => exact writePolicy_change ..
  | autoCommit call tries bytes cap revision =>
    exact autoAdoptNow_change rfl fun stored hnext => (hsound call.kind).active_ne hnext
  | put | done | autoPolicy => exact .inl rfl
  | activate call =>
    refine .inl ?_
    simp only [Client.step]
    split
    · rfl
    · split <;> rfl
  | activateStored call stored =>
    refine .inl ?_
    simp only [Client.step]
    split <;> rfl
  | rollback kind actor =>
    refine .inl ?_
    simp only [Client.step]
    split <;> rfl
  | rollbackRead kind actor last to' =>
    refine .inl ?_
    simp only [Client.step]
    split <;> rfl
  | rollbackStored kind actor last to' stored =>
    refine .inl ?_
    simp only [Client.step]
    split <;> rfl
  | autoAdopt call tries moved => cases tries <;> exact .inl rfl

/-- After its step, a client knows what it has read and checked. -/
theorem Client.step_holds {o : Outside} {kinds : Kinds} {client : Client} (now : DateTime)
    (hholds : client.Holds o kinds) : (client.step o now kinds).1.Holds o kinds := by
  cases client with
  | put | putUnder | activateSwap | rollbackSwap | setPolicy | resetPolicy | done => trivial
  | activate call =>
    simp only [Client.step]
    split
    · trivial
    · next hmanual =>
      split
      · trivial
      · exact isAuto_of_checkManual hmanual
  | activateStored call stored =>
    simp only [Client.step]
    split
    · trivial
    · exact hholds
  | rollback kind actor =>
    simp only [Client.step]
    split
    · trivial
    · next hmanual => exact holds_rollbackPlanned (isAuto_of_checkManual hmanual)
  | rollbackRead kind actor last to' =>
    simp only [Client.step]
    split
    · trivial
    · exact hholds
  | rollbackStored kind actor last to' stored =>
    simp only [Client.step]
    split
    · trivial
    · exact hholds
  | autoAdopt call tries moved =>
    cases tries with
    | zero => trivial
    | succ tries => exact readPolicy_policy kinds call.kind
  | autoPolicy call tries moved state => exact holds_autoGated hholds
  | autoCommit call tries bytes cap revision => exact holds_autoCommitted ..

theorem Client.holds_of_isCall {o : Outside} {kinds : Kinds} {client : Client}
    (h : client.isCall = true) : client.Holds o kinds := by
  cases client <;> trivial

/-- What every reachable world keeps. -/
structure World.Inv (o : Outside) (w : World) : Prop where
  sound : ∀ kind, Sound o (w.kinds kind)
  holds : ∀ client ∈ w.clients, client.Holds o w.kinds

namespace World

variable {o : Outside} {w : World} {calls : List Client}

theorem inv_start (hcalls : ∀ call ∈ calls, call.isCall = true) : Inv o (start calls) :=
  ⟨fun _ => Sound.default o, fun client hmem => Client.holds_of_isCall (hcalls client hmem)⟩

/-- A step of a world is a step of one of its clients. -/
theorem step_cases (o : Outside) (w : World) (act : ℕ × DateTime) :
    w.step o act = w ∨ ∃ client, w.clients[act.1]? = some client ∧
      w.step o act = ⟨(client.step o act.2 w.kinds).2,
        w.clients.set act.1 (client.step o act.2 w.kinds).1⟩ := by
  unfold step
  cases hclient : w.clients[act.1]? with
  | none => exact .inl rfl
  | some client => exact .inr ⟨client, rfl, rfl⟩

theorem step_changes (h : Inv o w) (act : ℕ × DateTime) :
    Changes o w.kinds (w.step o act).kinds := by
  rcases step_cases o w act with hsame | ⟨client, hclient, hstep⟩
  · exact .inl (congrArg kinds hsame)
  · rw [hstep]
    exact Client.step_changes act.2 h.sound (h.holds client (List.mem_of_getElem? hclient))

theorem inv_step (h : Inv o w) (act : ℕ × DateTime) : Inv o (w.step o act) := by
  have hchanges := step_changes h act
  refine ⟨hchanges.sound h.sound, fun client hmem => ?_⟩
  refine Client.Holds.mono ?_ hchanges.grows
  rcases step_cases o w act with hsame | ⟨stepped, hstepped, hstep⟩
  · rw [hsame] at hmem
    exact h.holds client hmem
  · rw [hstep] at hmem
    rcases List.mem_or_eq_of_mem_set hmem with hold | rfl
    · exact h.holds client hold
    · exact Client.step_holds act.2 (h.holds stepped (List.mem_of_getElem? hstepped))

theorem inv_exec (h : Inv o w) (acts : List (ℕ × DateTime)) : Inv o (Lib.exec (step o) w acts) := by
  induction acts generalizing w with
  | nil => exact h
  | cons act acts ih => exact ih (inv_step h act)

theorem grows_exec (h : Inv o w) (acts : List (ℕ × DateTime)) :
    Grows w.kinds (Lib.exec (step o) w acts).kinds := by
  induction acts generalizing w with
  | nil => exact Grows.refl _
  | cons act acts ih => exact (step_changes h act).grows.trans (ih (inv_step h act))

theorem inv_after (hcalls : ∀ call ∈ calls, call.isCall = true) (acts : List (ℕ × DateTime)) :
    Inv o (after o calls acts) :=
  inv_exec (inv_start hcalls) acts

end World

end Harvest.Overlay
