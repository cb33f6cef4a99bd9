import Harvest.Lib.Grown
import Harvest.Overlay.Log

/-!
# The overlay store

The functions that hold the lock of the store, each an atomic step. A step leaves the logs as they
are, or it appends to the log of one kind: a version, a policy change, a move of the pointer, or a
version with the move to it.

Proved here:
* `putNow_change`, `writePolicy_change`, `autoAdoptNow_change`, `swapNow_change`: what each step
  can do to a log.
* `Change.sound`: every change keeps a log sound.
-/

namespace Harvest.Overlay

open Lib (Grown)

/-! ## Checks of the actor -/

/-- `char::is_whitespace`. -/
def isWhitespace (c : Char) : Bool :=
  let n := c.toNat
  (9 ≤ n && n ≤ 13) || n == 0x20 || n == 0x85 || n == 0xA0 || n == 0x1680 ||
    (0x2000 ≤ n && n ≤ 0x200A) || n == 0x2028 || n == 0x2029 || n == 0x202F || n == 0x205F ||
    n == 0x3000

/-- `str::trim`, on the characters. -/
def trim (text : List Char) : List Char :=
  ((text.dropWhile isWhitespace).reverse.dropWhile isWhitespace).reverse

def isControl (c : Char) : Bool := c.toNat < 0x20 || (0x7F ≤ c.toNat && c.toNat ≤ 0x9F)

def isInvisible (c : Char) : Bool :=
  let n := c.toNat
  n == 0x00AD || n == 0x061C || n == 0x180E || (0x200B ≤ n && n ≤ 0x200F) ||
    (0x202A ≤ n && n ≤ 0x202E) || (0x2060 ≤ n && n ≤ 0x2064) || (0x2066 ≤ n && n ≤ 0x206F) ||
    n == 0xFEFF

def maxAuthorLen : Nat := 256

def checkOperatorId (id : String) : Except String Unit :=
  if trim id.toList = [] then .error "the operator id is empty"
  else if maxAuthorLen < id.toList.length then .error "the operator id is too long"
  else if trim id.toList ≠ id.toList then
    .error "the operator id starts or ends with white space"
  else if id.toList.any fun c => isControl c || isInvisible c then
    .error "the operator id holds a control or invisible character"
  else .ok ()

namespace Provenance

def authorKind : Provenance → String
  | operator _ => "operator"
  | refine _ => "refine"
  | auto _ => "auto"

def isAuto : Provenance → Bool
  | auto _ => true
  | _ => false

def check : Provenance → Except OverlayStoreError Unit
  | operator id =>
    match checkOperatorId id with
    | .error reason => .error (.invalidProvenance reason)
    | .ok () => .ok ()
  | _ => .ok ()

/-- Only an auto adoption records an `auto` actor. -/
def checkManual : Provenance → Except OverlayStoreError Unit
  | auto _ => .error (.invalidProvenance "only an auto adoption records an auto actor")
  | actor => actor.check

def checkOperator : Provenance → Except OverlayStoreError Unit
  | operator id => (operator id).check
  | _ => .error (.invalidProvenance "only an operator sets the refine policy")

end Provenance

/-! ## The store -/

/-- What the store calls: the validator it was made with, the JSON of an overlay and the text of an
execution id. -/
structure Outside where
  validate : String → ProfileOverlay → RefinePolicy → Except OverlayStoreError Unit
  encode : ProfileOverlay → Except String Bytes
  decode : Bytes → Option ProfileOverlay
  showId : ExecutionId → String
  parseId : String → Option ExecutionId

/-- What is written reads back. -/
structure Outside.Faithful (o : Outside) : Prop where
  decode_encode : ∀ overlay bytes, o.encode overlay = .ok bytes → o.decode bytes = some overlay
  parse_show : ∀ id, o.parseId (o.showId id) = some id

def maxOverlayBytes : Nat := 64 * 1024

namespace Outside

variable (o : Outside)

def author : Provenance → String
  | .operator id => id
  | .refine execution => o.showId execution
  | .auto execution => o.showId execution

def decodeProvenance (authorKind author : String) : Except OverlayStoreError Provenance :=
  if authorKind = "operator" then .ok (.operator author)
  else if authorKind = "refine" then
    match o.parseId author with
    | some id => .ok (.refine id)
    | none => .error (.corrupt "a refine author is not an execution id")
  else if authorKind = "auto" then
    match o.parseId author with
    | some id => .ok (.auto id)
    | none => .error (.corrupt "an auto author is not an execution id")
  else .error (.corrupt "the author kind is unknown")

def encodeValid (kind : String) (overlay : ProfileOverlay) (policy : RefinePolicy) :
    Except OverlayStoreError Bytes := do
  o.validate kind overlay policy
  let bytes ← (o.encode overlay).mapError .backend
  if maxOverlayBytes < bytes.length then throw (.tooLarge bytes.length maxOverlayBytes)
  return bytes

def encodeChecked (kind : String) (overlay : ProfileOverlay) (provenance : Provenance)
    (policy : RefinePolicy) : Except OverlayStoreError Bytes := do
  provenance.checkManual
  o.encodeValid kind overlay policy

end Outside

structure OverlayRow where
  version : Nat
  body : Bytes
  authorKind : String
  author : String
  createdAt : DateTime
deriving DecidableEq, Repr

def StoredOverlay.fromRow (o : Outside) (kind : String) (row : OverlayRow) :
    Except OverlayStoreError StoredOverlay := do
  let version ← (OverlayVersion.new row.version).elim
    (.error (.corrupt "a stored version is 0")) .ok
  let overlay ← (o.decode row.body).elim
    (.error (.corrupt "a stored overlay does not decode")) .ok
  let provenance ← o.decodeProvenance row.authorKind row.author
  return ⟨kind, version, row.body, overlay, provenance, row.createdAt⟩

namespace Kinds

def set (kinds : Kinds) (kind : String) (log : KindLog) : Kinds := Function.update kinds kind log

@[simp] theorem set_self (kinds : Kinds) (kind : String) (log : KindLog) :
    kinds.set kind log kind = log := Function.update_self ..

theorem set_of_ne {kind other : String} (h : other ≠ kind) (kinds : Kinds) (log : KindLog) :
    kinds.set kind log other = kinds other := Function.update_of_ne h ..

def lastActivation (kinds : Kinds) (kind : String) : Option Activation :=
  (kinds kind).moves.getLast?

def get (kinds : Kinds) (kind : String) (version : OverlayVersion) : Option StoredOverlay :=
  (kinds kind).versions.find? (·.version = version)

def policy (kinds : Kinds) (kind : String) : PolicyState :=
  policyState (kinds kind).policies.getLast?

end Kinds

/-- The row of a version that follows the last one. -/
def nextRow (o : Outside) (log : KindLog) (bytes : Bytes) (provenance : Provenance)
    (now : DateTime) : Option OverlayRow :=
  (nextOverlayVersion (log.versions.getLast?.map (·.version.get))).map fun version =>
    ⟨version, bytes, provenance.authorKind, o.author provenance, now⟩

def nextSeq (log : KindLog) : Nat := (log.moves.getLast?.map (·.seq + 1)).getD 1

/-- Validates and appends one version. -/
def putNow (o : Outside) (now : DateTime) (kind : String) (overlay : ProfileOverlay)
    (provenance : Provenance) (policy : RefinePolicy) (kinds : Kinds) :
    Except OverlayStoreError OverlayVersion × Kinds :=
  match o.encodeChecked kind overlay provenance policy with
  | .error error => (.error error, kinds)
  | .ok bytes =>
    match nextRow o (kinds kind) bytes provenance now with
    | none => (.error .full, kinds)
    | some row =>
      match StoredOverlay.fromRow o kind row with
      | .error error => (.error error, kinds)
      | .ok stored =>
        (.ok stored.version,
          kinds.set kind { kinds kind with versions := (kinds kind).versions ++ [stored] })

/-- Appends one policy change. `none` is a reset. -/
def writePolicy (now : DateTime) (kind : String) (policy : Option RefinePolicy)
    (expected : PolicyExpect) (actor : Provenance) (kinds : Kinds) :
    Except OverlayStoreError PolicyLogEntry × Kinds :=
  match actor.checkOperator with
  | .error error => (.error error, kinds)
  | .ok () =>
    let last := (kinds kind).policies.getLast?
    let actual := last.map (·.revision)
    if policyWritePasses expected actual then
      let entry : PolicyLogEntry :=
        ⟨kind, (actual.map (· + 1)).getD 1, last.bind (·.new), policy, actor, now⟩
      (.ok entry, kinds.set kind { kinds kind with policies := (kinds kind).policies ++ [entry] })
    else (.error (.policyConflict actual), kinds)

inductive AutoAdoptRaw
  | adopted (row : OverlayRow)
  | capReached (used : Nat)
  | conflict (actual : Option Nat)
  | full
  | policyMoved (actual : Option Nat)
deriving DecidableEq, Repr

/-- The auto moves of the UTC day. -/
def usedOn (log : KindLog) (day : DateTime × DateTime) : Nat :=
  log.moves.countP fun done =>
    done.actor.isAuto && decide (day.1 ≤ done.activatedAt ∧ done.activatedAt < day.2)

/-- Puts and activates one version, as the database stores do in one transaction. -/
def autoAdoptNow (o : Outside) (now : DateTime) (kind : String) (bytes : Bytes)
    (provenance : Provenance) (expected : Option OverlayVersion) (cap : DailyCap)
    (policyRevision : Option Nat) (kinds : Kinds) :
    Except OverlayStoreError AutoAdoptRaw × Kinds :=
  let log := kinds kind
  let revision := log.policies.getLast?.map (·.revision)
  if revision ≠ policyRevision then (.ok (.policyMoved revision), kinds)
  else
    let used := usedOn log (utcDay now)
    let actual := log.active.map (·.get)
    match decideAutoMove (expected.map (·.get)) actual used cap.limit with
    | .conflict => (.ok (.conflict actual), kinds)
    | .capReached => (.ok (.capReached used), kinds)
    | .move =>
      match nextRow o log bytes provenance now with
      | none => (.ok .full, kinds)
      | some row =>
        match StoredOverlay.fromRow o kind row with
        | .error error => (.error error, kinds)
        | .ok stored =>
          (.ok (.adopted row),
            kinds.set kind
              { log with
                versions := log.versions ++ [stored]
                active := some stored.version
                moves := log.moves ++
                  [⟨kind, nextSeq log, log.active, stored.version, provenance, now⟩] })

inductive ActivateOutcome
  | activated
  | unknownVersion
  | conflict (actual : Option Nat)
deriving DecidableEq, Repr

/-- Swaps the pointer and logs the move. A swap to the active version moves nothing. -/
def swapNow (now : DateTime) (kind : String) (request : MoveRequest) (actor : Provenance)
    (kinds : Kinds) : ActivateOutcome × Kinds :=
  match OverlayVersion.new request.version with
  | none => (.unknownVersion, kinds)
  | some version =>
    let log := kinds kind
    let known := log.versions.any (·.version = version)
    let actual := log.active.map (·.get)
    match request.decide known actual (log.moves.getLast?.map (·.seq)) with
    | .unknownVersion => (.unknownVersion, kinds)
    | .conflict => (.conflict actual, kinds)
    | .activate =>
      if logsActivation actual version.get then
        (.activated,
          kinds.set kind
            { log with
              active := some version
              moves := log.moves ++ [⟨kind, nextSeq log, log.active, version, actor, now⟩] })
      else (.activated, kinds)

/-! ## Rows that are written and read back -/

theorem OverlayVersion.get_inj {a b : OverlayVersion} : a.get = b.get ↔ a = b := by
  cases a
  cases b
  simp

theorem OverlayVersion.map_get_inj {a b : Option OverlayVersion} :
    a.map (·.get) = b.map (·.get) ↔ a = b := by
  cases a <;> cases b <;> simp [OverlayVersion.get_inj]

theorem OverlayVersion.new_eq_some {number : Nat} {version : OverlayVersion} :
    OverlayVersion.new number = some version ↔ version.get = number := by
  unfold OverlayVersion.new
  split
  · next hzero => simp [hzero, version.get_ne_zero]
  · simp [← OverlayVersion.get_inj, eq_comm]

/-- What a decoded row holds. -/
theorem StoredOverlay.of_fromRow {o : Outside} {kind : String} {row : OverlayRow}
    {stored : StoredOverlay} (h : StoredOverlay.fromRow o kind row = .ok stored) :
    stored.kind = kind ∧ stored.version.get = row.version ∧ stored.bytes = row.body ∧
      o.decode stored.bytes = some stored.overlay ∧
      o.decodeProvenance row.authorKind row.author = .ok stored.provenance := by
  unfold StoredOverlay.fromRow at h
  cases hversion : OverlayVersion.new row.version with
  | none => simp [hversion, bind, Except.bind] at h
  | some version =>
    cases hoverlay : o.decode row.body with
    | none => simp [hversion, hoverlay, bind, Except.bind] at h
    | some overlay =>
      cases hprovenance : o.decodeProvenance row.authorKind row.author with
      | error error => simp [hversion, hoverlay, hprovenance, bind, Except.bind] at h
      | ok provenance =>
        simp only [hversion, hoverlay, hprovenance, bind, Except.bind, Option.elim, pure,
          Except.pure, Except.ok.injEq] at h
        subst h
        exact ⟨rfl, OverlayVersion.new_eq_some.mp hversion, rfl, hoverlay, rfl⟩

/-- The kind of author reads back. -/
theorem isAuto_of_decodeProvenance {o : Outside} {provenance read : Provenance} {author : String}
    (h : o.decodeProvenance provenance.authorKind author = .ok read) :
    read.isAuto = provenance.isAuto := by
  cases provenance with
  | operator id =>
    simp only [Outside.decodeProvenance, Provenance.authorKind, if_true, Except.ok.injEq] at h
    subst h
    rfl
  | refine execution =>
    simp only [Outside.decodeProvenance, Provenance.authorKind, String.reduceEq, if_false,
      if_true] at h
    split at h
    · cases h
      rfl
    · cases h
  | auto execution =>
    simp only [Outside.decodeProvenance, Provenance.authorKind, String.reduceEq, if_false,
      if_true] at h
    split at h
    · cases h
      rfl
    · cases h

theorem Outside.Faithful.decodeProvenance {o : Outside} (ho : o.Faithful) (provenance : Provenance) :
    o.decodeProvenance provenance.authorKind (o.author provenance) = .ok provenance := by
  cases provenance <;>
    simp [Outside.decodeProvenance, Provenance.authorKind, Outside.author, ho.parse_show]

theorem isAuto_of_checkManual {actor : Provenance} (h : actor.checkManual = .ok ()) :
    actor.isAuto = false := by
  cases actor with
  | operator | refine => rfl
  | auto => cases h

theorem operator_of_checkOperator {actor : Provenance} (h : actor.checkOperator = .ok ()) :
    ∃ id, actor = .operator id := by
  cases actor with
  | operator id => exact ⟨id, rfl⟩
  | refine | auto => cases h

theorem Outside.of_encodeValid {o : Outside} {kind : String} {overlay : ProfileOverlay}
    {policy : RefinePolicy} {bytes : Bytes} (h : o.encodeValid kind overlay policy = .ok bytes) :
    o.validate kind overlay policy = .ok () ∧ o.encode overlay = .ok bytes ∧
      bytes.length ≤ maxOverlayBytes := by
  unfold Outside.encodeValid at h
  cases hvalid : o.validate kind overlay policy with
  | error error => simp [hvalid, bind, Except.bind] at h
  | ok _ =>
    cases hencode : o.encode overlay with
    | error error => simp [hvalid, hencode, bind, Except.bind, Except.mapError] at h
    | ok encoded =>
      simp only [hvalid, hencode, bind, Except.bind, Except.mapError] at h
      split_ifs at h with hlong
      cases h
      exact ⟨rfl, rfl, Nat.le_of_not_lt hlong⟩

theorem Outside.of_encodeChecked {o : Outside} {kind : String} {overlay : ProfileOverlay}
    {provenance : Provenance} {policy : RefinePolicy} {bytes : Bytes}
    (h : o.encodeChecked kind overlay provenance policy = .ok bytes) :
    provenance.isAuto = false ∧ o.encodeValid kind overlay policy = .ok bytes := by
  unfold Outside.encodeChecked at h
  cases hmanual : provenance.checkManual with
  | error error => simp [hmanual, bind, Except.bind] at h
  | ok _ =>
    simp only [hmanual, bind, Except.bind] at h
    exact ⟨isAuto_of_checkManual hmanual, h⟩

/-! ## What a step can do to a log -/

/-- The row of a new version: the next number, and a body that reads as the overlay. -/
structure NextVersion (o : Outside) (log : KindLog) (stored : StoredOverlay) : Prop where
  number : nextOverlayVersion (log.versions.getLast?.map (·.version.get)) =
    some stored.version.get
  reads : o.decode stored.bytes = some stored.overlay

/-- A move of the pointer away from where it is. -/
structure NextMove (log : KindLog) (move : Activation) : Prop where
  seq : move.seq = nextSeq log
  from' : move.from' = log.active
  moves : move.from' ≠ some move.to'

/-- One step on the log of a kind. -/
inductive Change (o : Outside) (log : KindLog) : KindLog → Prop
  | put {stored : StoredOverlay} (next : NextVersion o log stored)
      (manual : stored.provenance.isAuto = false) :
      Change o log { log with versions := log.versions ++ [stored] }
  | policy {entry : PolicyLogEntry}
      (revision : entry.revision = ((log.policies.getLast?.map (·.revision)).map (· + 1)).getD 1)
      (old : entry.old = log.policies.getLast?.bind (·.new))
      (operator : ∃ id, entry.actor = .operator id) :
      Change o log { log with policies := log.policies ++ [entry] }
  | move {move : Activation} (next : NextMove log move)
      (known : ∃ stored ∈ log.versions, stored.version = move.to')
      (manual : move.actor.isAuto = false) :
      Change o log { log with active := some move.to', moves := log.moves ++ [move] }
  | adopt {stored : StoredOverlay} {move : Activation} (next : NextVersion o log stored)
      (nextMove : NextMove log move) (to' : move.to' = stored.version)
      (author : stored.provenance.isAuto = true) (actor : move.actor.isAuto = true) :
      Change o log
        { log with
          versions := log.versions ++ [stored]
          active := some move.to'
          moves := log.moves ++ [move] }

/-- The logs stay as they are, or one of them changes. -/
def Changes (o : Outside) (kinds kinds' : Kinds) : Prop :=
  kinds' = kinds ∨ ∃ kind log, Change o (kinds kind) log ∧ kinds' = kinds.set kind log

theorem nextVersion_of_row {o : Outside} {log : KindLog} {bytes : Bytes} {provenance : Provenance}
    {now : DateTime} {row : OverlayRow} {kind : String} {stored : StoredOverlay}
    (hrow : nextRow o log bytes provenance now = some row)
    (hstored : StoredOverlay.fromRow o kind row = .ok stored) :
    NextVersion o log stored ∧ stored.bytes = bytes ∧
      o.decodeProvenance provenance.authorKind (o.author provenance) = .ok stored.provenance := by
  obtain ⟨version, hnext, rfl⟩ := Option.map_eq_some_iff.mp hrow
  obtain ⟨-, hversion, hbytes, hreads, hprovenance⟩ := StoredOverlay.of_fromRow hstored
  exact ⟨⟨hnext.trans (congrArg some hversion.symm), hreads⟩, hbytes, hprovenance⟩

theorem putNow_change (o : Outside) (now : DateTime) (kind : String) (overlay : ProfileOverlay)
    (provenance : Provenance) (policy : RefinePolicy) (kinds : Kinds) :
    Changes o kinds (putNow o now kind overlay provenance policy kinds).2 := by
  unfold putNow
  split
  · exact .inl rfl
  · next bytes hbytes =>
    split
    · exact .inl rfl
    · next row hrow =>
      split
      · exact .inl rfl
      · next stored hstored =>
        obtain ⟨hnext, -, hprovenance⟩ := nextVersion_of_row hrow hstored
        refine .inr ⟨kind, _, .put hnext ?_, rfl⟩
        rw [isAuto_of_decodeProvenance hprovenance]
        exact (Outside.of_encodeChecked hbytes).1

theorem writePolicy_change (o : Outside) (now : DateTime) (kind : String)
    (policy : Option RefinePolicy) (expected : PolicyExpect) (actor : Provenance) (kinds : Kinds) :
    Changes o kinds (writePolicy now kind policy expected actor kinds).2 := by
  unfold writePolicy
  split
  · exact .inl rfl
  · next hoperator =>
    dsimp only
    split
    · exact .inr ⟨kind, _, .policy rfl rfl (operator_of_checkOperator hoperator), rfl⟩
    · exact .inl rfl

/-- The move of the pointer to the version. -/
def nextMove (now : DateTime) (kind : String) (log : KindLog) (version : OverlayVersion)
    (actor : Provenance) : Activation :=
  ⟨kind, nextSeq log, log.active, version, actor, now⟩

/-- An adoption that changes the log: the policy and the pointer are the ones that it expects, and
the cap leaves room. -/
theorem autoAdoptNow_cases (o : Outside) (now : DateTime) (kind : String) (bytes : Bytes)
    (provenance : Provenance) (expected : Option OverlayVersion) (cap : DailyCap)
    (policyRevision : Option Nat) (kinds : Kinds) :
    (autoAdoptNow o now kind bytes provenance expected cap policyRevision kinds).2 = kinds ∨
    ∃ stored, (kinds kind).policies.getLast?.map (·.revision) = policyRevision ∧
      (kinds kind).active = expected ∧
      (∀ limit ∈ cap.limit, usedOn (kinds kind) (utcDay now) < limit.toNat) ∧
      NextVersion o (kinds kind) stored ∧ stored.bytes = bytes ∧
      o.decodeProvenance provenance.authorKind (o.author provenance) = .ok stored.provenance ∧
      (autoAdoptNow o now kind bytes provenance expected cap policyRevision kinds).2 =
        kinds.set kind
          { kinds kind with
            versions := (kinds kind).versions ++ [stored]
            active := some stored.version
            moves := (kinds kind).moves ++
              [nextMove now kind (kinds kind) stored.version provenance] } := by
  unfold autoAdoptNow
  dsimp only
  split_ifs with hrevision
  · exact .inl rfl
  · split
    · exact .inl rfl
    · exact .inl rfl
    · next hmove =>
      obtain ⟨hactive, hroom⟩ := decideAutoMove_eq_move.mp hmove
      split
      · exact .inl rfl
      · next row hrow =>
        split
        · exact .inl rfl
        · next stored hstored =>
          obtain ⟨hnext, hbytes, hprovenance⟩ := nextVersion_of_row hrow hstored
          exact .inr ⟨stored, not_not.mp hrevision, OverlayVersion.map_get_inj.mp hactive.symm,
            hroom, hnext, hbytes, hprovenance, rfl⟩

/-- A swap that changes the log. -/
theorem swapNow_cases (now : DateTime) (kind : String) (request : MoveRequest) (actor : Provenance)
    (kinds : Kinds) :
    (swapNow now kind request actor kinds).2 = kinds ∨
    ∃ version, version.get = request.version ∧
      request.decide true ((kinds kind).active.map (·.get))
        ((kinds kind).moves.getLast?.map (·.seq)) = .activate ∧
      (∃ stored ∈ (kinds kind).versions, stored.version = version) ∧
      (kinds kind).active ≠ some version ∧
      swapNow now kind request actor kinds =
        (.activated,
          kinds.set kind
            { kinds kind with
              active := some version
              moves := (kinds kind).moves ++ [nextMove now kind (kinds kind) version actor] }) := by
  unfold swapNow
  cases hversion : OverlayVersion.new request.version with
  | none => exact .inl rfl
  | some version =>
    dsimp only
    cases hdecide : request.decide ((kinds kind).versions.any (·.version = version))
        ((kinds kind).active.map (·.get)) ((kinds kind).moves.getLast?.map (·.seq)) with
    | unknownVersion | conflict => exact .inl rfl
    | activate =>
      dsimp only
      split_ifs with hlogs
      · have hknown := (MoveRequest.known_of_decide hdecide).1
        rw [hknown] at hdecide
        refine .inr ⟨version, OverlayVersion.new_eq_some.mp hversion, hdecide, ?_, ?_, rfl⟩
        · obtain ⟨stored, hmem, heq⟩ := List.any_eq_true.mp hknown
          exact ⟨stored, hmem, of_decide_eq_true heq⟩
        · intro hactive
          rw [hactive, Option.map_some, logsActivation, bne_self_eq_false] at hlogs
          cases hlogs
      · exact .inl rfl

theorem autoAdoptNow_change {o : Outside} {now : DateTime} {kind : String} {bytes : Bytes}
    {provenance : Provenance} {expected : Option OverlayVersion} {cap : DailyCap}
    {policyRevision : Option Nat} {kinds : Kinds} (hauto : provenance.isAuto = true)
    (hsound : ∀ stored, NextVersion o (kinds kind) stored →
      (kinds kind).active ≠ some stored.version) :
    Changes o kinds
      (autoAdoptNow o now kind bytes provenance expected cap policyRevision kinds).2 := by
  rcases autoAdoptNow_cases o now kind bytes provenance expected cap policyRevision kinds with
    hsame | ⟨stored, -, -, -, hnext, -, hprovenance, hkinds⟩
  · exact .inl hsame
  · have hauthor : stored.provenance.isAuto = true :=
      (isAuto_of_decodeProvenance hprovenance).trans hauto
    exact .inr ⟨kind, _, @Change.adopt o (kinds kind) stored
      (nextMove now kind (kinds kind) stored.version provenance) hnext
      ⟨rfl, rfl, hsound stored hnext⟩ rfl hauthor hauto, hkinds⟩

theorem swapNow_change {o : Outside} {now : DateTime} {kind : String} {request : MoveRequest}
    {actor : Provenance} {kinds : Kinds} (hmanual : actor.isAuto = false) :
    Changes o kinds (swapNow now kind request actor kinds).2 := by
  rcases swapNow_cases now kind request actor kinds with
    hsame | ⟨version, -, -, hknown, hactive, hswap⟩
  · exact .inl hsame
  · exact .inr ⟨kind, _, @Change.move o (kinds kind) (nextMove now kind (kinds kind) version actor)
      ⟨rfl, rfl, hactive⟩ hknown hmanual, congrArg Prod.snd hswap⟩

/-! ## Sound logs -/

/-- The check of a version against the versions in front of it. -/
structure VersionAfter (o : Outside) (versions : List StoredOverlay) (stored : StoredOverlay) :
    Prop where
  number : stored.version.get = versions.length + 1
  bound : stored.version.get ≤ u64Max
  reads : o.decode stored.bytes = some stored.overlay

/-- The check of a move against the moves in front of it. -/
structure MoveAfter (moves : List Activation) (move : Activation) : Prop where
  seq : move.seq = moves.length + 1
  from' : move.from' = moves.getLast?.map (·.to')
  moves : move.from' ≠ some move.to'

/-- The check of a policy change against the changes in front of it. -/
structure PolicyAfter (policies : List PolicyLogEntry) (entry : PolicyLogEntry) : Prop where
  revision : entry.revision = policies.length + 1
  old : entry.old = policies.getLast?.bind (·.new)
  operator : ∃ id, entry.actor = .operator id

/-- The log of a kind as the steps of the store build it. -/
structure Sound (o : Outside) (log : KindLog) : Prop where
  versions : Grown (VersionAfter o) log.versions
  moves : Grown MoveAfter log.moves
  policies : Grown PolicyAfter log.policies
  active : log.active = log.moves.getLast?.map (·.to')
  known : ∀ move ∈ log.moves, ∃ stored ∈ log.versions, stored.version = move.to' ∧
    (move.actor.isAuto = true → stored.provenance.isAuto = true)
  autos : ∀ stored ∈ log.versions, stored.provenance.isAuto = true →
    ∃ move ∈ log.moves, move.to' = stored.version ∧ move.actor.isAuto = true

theorem Sound.default (o : Outside) : Sound o .default where
  versions := .nil
  moves := .nil
  policies := .nil
  active := rfl
  known := fun _ hmem => absurd hmem List.not_mem_nil
  autos := fun _ hmem => absurd hmem List.not_mem_nil

namespace Sound

variable {o : Outside} {log : KindLog} {stored : StoredOverlay} {move : Activation}

theorem versionAfter (h : Sound o log) (hnext : NextVersion o log stored) :
    VersionAfter o log.versions stored := by
  have hlast := @Grown.number_getLast? _ _ (fun stored : StoredOverlay => stored.version.get) _
    h.versions fun _ _ hafter => hafter.number
  have hnumber := hnext.number
  rw [hlast] at hnumber
  by_cases hnil : log.versions = []
  · simp only [hnil, if_true, nextOverlayVersion, Option.some.injEq] at hnumber
    exact ⟨by rw [hnil, ← hnumber]; rfl, by rw [← hnumber]; decide, hnext.reads⟩
  · simp only [hnil, if_false, nextOverlayVersion, Option.ite_none_right_eq_some,
      Option.some.injEq] at hnumber
    exact ⟨hnumber.2.symm, by omega, hnext.reads⟩

theorem moveAfter (h : Sound o log) (hnext : NextMove log move) : MoveAfter log.moves move := by
  refine ⟨?_, hnext.from'.trans h.active, hnext.moves⟩
  have hlast := @Grown.number_getLast? _ _ Activation.seq _ h.moves fun _ _ hafter => hafter.seq
  rw [hnext.seq, nextSeq]
  have hmap : log.moves.getLast?.map (·.seq + 1) =
      (log.moves.getLast?.map Activation.seq).map (· + 1) := by
    rw [Option.map_map]
    rfl
  rw [hmap, hlast]
  by_cases hnil : log.moves = [] <;> simp [hnil]

theorem length_policies (h : Sound o log) :
    log.policies.getLast?.map (·.revision) =
      if log.policies = [] then none else some log.policies.length :=
  h.policies.number_getLast? fun _ _ hafter => hafter.revision

theorem number_at (h : Sound o log) {i : ℕ} (hstored : log.versions[i]? = some stored) :
    stored.version.get = i + 1 :=
  @Grown.number_at _ _ (fun stored : StoredOverlay => stored.version.get) _ _ _ h.versions
    (fun _ _ hafter => hafter.number) hstored

theorem number_le (h : Sound o log) (hmem : stored ∈ log.versions) :
    stored.version.get ≤ log.versions.length := by
  obtain ⟨i, hi⟩ := List.getElem?_of_mem hmem
  have hlt := (List.getElem?_eq_some_iff.mp hi).1
  rw [h.number_at hi]
  exact hlt

/-- A new version is not the active one. -/
theorem active_ne (h : Sound o log) (hnext : NextVersion o log stored) :
    log.active ≠ some stored.version := by
  intro hactive
  rw [h.active] at hactive
  obtain ⟨move, hmove, hto⟩ := Option.map_eq_some_iff.mp hactive
  obtain ⟨known, hmem, hversion, -⟩ := h.known move (List.mem_of_getLast? hmove)
  have hle := h.number_le hmem
  rw [hversion, hto, (h.versionAfter hnext).number] at hle
  omega

end Sound

/-- **Every change keeps a log sound.** -/
theorem Change.sound {o : Outside} {log log' : KindLog} (h : Change o log log')
    (hsound : Sound o log) : Sound o log' := by
  cases h with
  | @put stored next manual =>
    refine { hsound with
      versions := .concat hsound.versions (hsound.versionAfter next)
      known := fun move hmem => ?_
      autos := fun other hmem hauto => ?_ }
    · obtain ⟨known, hknown, hto⟩ := hsound.known move hmem
      exact ⟨known, List.mem_append_left _ hknown, hto⟩
    · rcases List.mem_append.mp hmem with hold | hnew
      · exact hsound.autos other hold hauto
      · rw [List.mem_singleton.mp hnew, manual] at hauto
        cases hauto
  | @policy entry revision old operator =>
    refine { hsound with policies := .concat hsound.policies ⟨?_, old, operator⟩ }
    rw [revision, hsound.length_policies]
    by_cases hnil : log.policies = [] <;> simp [hnil]
  | @move move next known manual =>
    refine { hsound with
      moves := .concat hsound.moves (hsound.moveAfter next)
      active := by simp
      known := fun other hmem => ?_
      autos := fun stored hmem hauto => ?_ }
    · rcases List.mem_append.mp hmem with hold | hnew
      · exact hsound.known other hold
      · obtain rfl := List.mem_singleton.mp hnew
        obtain ⟨stored, hstored, hto⟩ := known
        exact ⟨stored, hstored, hto, fun hauto => by rw [manual] at hauto; cases hauto⟩
    · obtain ⟨other, hother, hto⟩ := hsound.autos stored hmem hauto
      exact ⟨other, List.mem_append_left _ hother, hto⟩
  | @adopt stored move next nextMove to' author actor =>
    refine { hsound with
      versions := .concat hsound.versions (hsound.versionAfter next)
      moves := .concat hsound.moves (hsound.moveAfter nextMove)
      active := by simp
      known := fun other hmem => ?_
      autos := fun other hmem hauto => ?_ }
    · rcases List.mem_append.mp hmem with hold | hnew
      · obtain ⟨known, hknown, hto⟩ := hsound.known other hold
        exact ⟨known, List.mem_append_left _ hknown, hto⟩
      · obtain rfl := List.mem_singleton.mp hnew
        exact ⟨stored, List.mem_append_right _ (List.mem_singleton_self _), to'.symm,
          fun _ => author⟩
    · rcases List.mem_append.mp hmem with hold | hnew
      · obtain ⟨done, hdone, hto⟩ := hsound.autos other hold hauto
        exact ⟨done, List.mem_append_left _ hdone, hto⟩
      · obtain rfl := List.mem_singleton.mp hnew
        exact ⟨move, List.mem_append_right _ (List.mem_singleton_self _), to', actor⟩

end Harvest.Overlay
