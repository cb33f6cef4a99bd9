import Mathlib.Data.String.Basic
import Mathlib.Algebra.BigOperators.Group.List.Basic
import Mathlib.Algebra.GroupWithZero.Nat
import Harvest.Json
import Harvest.Lib.Ledger

/-!
# Host calls of a WASM guest and their journal

A guest reaches its host through one import. The host journals each call, and a
later attempt serves the journal before it runs a handler again.

The JSON reader and writer are not part of the engine: `SerdeJson` is what the
engine relies on. The guest is a function of the answers it got so far, and what
an attempt meets from outside (its handlers, a cancellation, the fuel or the
clock that cuts it) is an `Attempt`.

Proved here:
* `escapedLen_boundedMessage`: a cut message fits, escapes included.
* `escapedLen_le_of_isJson`: escaping at most doubles JSON text.
* `boundedResponse_fits`: what a response becomes is within its bound.
* `journalDefect_eq_none_iff`: what a journal without a defect is.
-/

namespace Harvest.Wasm

/-! ## Bounds -/

/-- Largest request, response or error message of one call. -/
def maxHostCallBytes : Nat := 64 * 1024

/-- Longest capability name. -/
def maxHostCallNameBytes : Nat := 128

/-- Most host calls that one run can make, replayed calls included. -/
def maxHostCalls : Nat := 256

/-- Largest journal, in bytes of its JSON form. -/
def maxJournalBytes : Nat := 1024 * 1024

def entryFramingBytes : Nat := 96
def journalFramingBytes : Nat := 16

/-- The bytes that escaping adds to a character: none outside ASCII, where every
byte is at least `0x80`. -/
def escapes (c : Char) : Nat :=
  if c.toNat ∈ [0x22, 0x5c, 0x08, 0x0c, 0x0a, 0x0d, 0x09] then 1
  else if c.toNat ≤ 0x1f then 5
  else 0

/-- The length of `text` as a JSON string, quotes and escapes included. -/
def escapedLen (text : String) : Nat :=
  text.utf8ByteSize + (text.toList.map escapes).sum + 2

/-! ## Failures -/

inductive ErrorType
  | resourceExhausted | wasmTrap | sandboxDenied | wasmOutputTooLarge
  | wasmJournalDivergence | hostCallFailed
  deriving DecidableEq, Repr

structure ActivityFailure where
  errorType : ErrorType
  message : String
  nonRetryable : Bool
  deriving DecidableEq, Repr

namespace ActivityFailure

def resourceExhausted (detail : String) : ActivityFailure := ⟨.resourceExhausted, detail, false⟩
def wasmTrap (detail : String) : ActivityFailure := ⟨.wasmTrap, detail, false⟩
def sandboxDenied (detail : String) : ActivityFailure := ⟨.sandboxDenied, detail, true⟩
def hostCallFailed (detail : String) : ActivityFailure := ⟨.hostCallFailed, detail, false⟩
def wasmJournalDivergence (detail : String) : ActivityFailure :=
  ⟨.wasmJournalDivergence, detail, true⟩

/-- Whether the failure reports a journal divergence. -/
def diverged (f : ActivityFailure) : Bool := f.errorType = .wasmJournalDivergence

end ActivityFailure

/-- A failure of the sandbox itself. Only the journal reports a divergence. -/
structure SandboxFailure extends ActivityFailure where
  not_diverged : toActivityFailure.diverged = false

/-! ## The JSON library -/

/-- `serde_json`, as far as the journal relies on it. -/
structure SerdeJson where
  /-- `from_slice::<IgnoredAny>` accepts the text. -/
  isJson : String → Bool
  /-- `from_str::<Value>`; a text `isJson` accepts can still fail here, on a number
  no `Value` holds. -/
  fromStr : String → Except String Json
  /-- The pieces `to_writer` writes, in order. -/
  pieces : Json → List String
  isJson_pieces : ∀ v, isJson ((pieces v).foldl (· ++ ·) "") = true
  /-- JSON text holds no raw control character beyond its white space. -/
  isJson_printable : ∀ t, isJson t = true →
    ∀ c ∈ t.toList, 0x1f < c.toNat ∨ c.toNat ∈ [0x09, 0x0a, 0x0d]

/-! ## Entries -/

/-- The recorded outcome of one host call. -/
inductive HostCallOutcome
  | ok (response : String)
  | err (message : String)
  | denied
  deriving DecidableEq, Repr

/-- One journal entry. -/
structure HostCallEntry where
  seq : Nat
  name : String
  request : String
  outcome : HostCallOutcome
  deriving DecidableEq, Repr

def HostCallOutcome.byteSize : HostCallOutcome → Nat
  | .ok response => escapedLen response
  | .err message => escapedLen message
  | .denied => 0

/-- The bytes that this entry counts against `maxJournalBytes`. -/
def HostCallEntry.byteSize (e : HostCallEntry) : Nat :=
  entryFramingBytes + escapedLen e.name + escapedLen e.request + e.outcome.byteSize

/-- The host-call journal of one activity, in call order. -/
abbrev HostCallJournal := List HostCallEntry

def journalByteSize (journal : HostCallJournal) : Nat :=
  journalFramingBytes + (journal.map HostCallEntry.byteSize).sum

@[simp] theorem journalByteSize_nil : journalByteSize [] = journalFramingBytes := rfl

theorem journalByteSize_concat (journal : HostCallJournal) (e : HostCallEntry) :
    journalByteSize (journal ++ [e]) = journalByteSize journal + e.byteSize := by
  simp [journalByteSize, Nat.add_assoc]

section Defects

variable (serde : SerdeJson)

def outcomeOk : HostCallOutcome → Bool
  | .ok response => response.utf8ByteSize ≤ maxHostCallBytes && serde.isJson response
  | .err message =>
    message.utf8ByteSize ≤ maxHostCallBytes && escapedLen message ≤ maxHostCallBytes
  | .denied => true

def entryFits (entry : HostCallEntry) : Bool :=
  entry.name.utf8ByteSize ≤ maxHostCallNameBytes &&
    entry.request.utf8ByteSize ≤ maxHostCallBytes &&
    serde.isJson entry.request && outcomeOk serde entry.outcome

/-- A defect of one recorded entry at `index`, or `none`. -/
def entryDefect (index : Nat) (entry : HostCallEntry) : Option String :=
  if entry.seq ≠ index then
    some s!"journal entry {index} has seq {entry.seq}"
  else if entryFits serde entry then none
  else some s!"journal entry {index} breaks a size bound or is not JSON"

/-- A defect of an earlier journal, or `none`. -/
def journalDefect (journal : HostCallJournal) : Option String :=
  if journal.length > maxHostCalls then
    some s!"the journal holds {journal.length} entries, over the {maxHostCalls}-call budget"
  else
    match journal.zipIdx.findSome? fun p => entryDefect serde p.2 p.1 with
    | some defect => some defect
    | none =>
      if journalByteSize journal > maxJournalBytes then
        some s!"the journal holds {journalByteSize journal} bytes, over the {maxJournalBytes}-byte budget"
      else none

end Defects

/-! ## Answers of a handler -/

/-- The longest prefix of the characters that holds at most `n` bytes. -/
def cutTo : Nat → List Char → List Char
  | _, [] => []
  | n, c :: cs => if c.utf8Size ≤ n then c :: cutTo (n - c.utf8Size) cs else []

/-- One round of `bounded_message`: cut to half, on a character boundary. -/
def halve (message : String) : String :=
  String.ofList (cutTo (min message.utf8ByteSize maxHostCallBytes / 2) message.toList)

def boundedMessageLoop : Nat → String → String
  | 0, message => message
  | fuel + 1, message =>
    if escapedLen message > maxHostCallBytes then boundedMessageLoop fuel (halve message)
    else message

/-- Cut a message until its JSON form fits `maxHostCallBytes`. A round cuts at least
one byte, so the length bounds the rounds. -/
def boundedMessage (message : String) : String :=
  boundedMessageLoop message.utf8ByteSize message

/-- `CappedWriter`: a buffer that refuses a write past `maxHostCallBytes`. -/
def cappedWrite : String → List String → Option String
  | buffer, [] => some buffer
  | buffer, piece :: pieces =>
    if buffer.utf8ByteSize + piece.utf8ByteSize > maxHostCallBytes then none
    else cappedWrite (buffer ++ piece) pieces

/-- Keep a response within `maxHostCallBytes`, or turn it into an error. -/
def boundedResponse (serde : SerdeJson) (response : Json) : HostCallOutcome :=
  match cappedWrite "" (serde.pieces response) with
  | some text => .ok text
  | none => .err s!"host call response exceeds the {maxHostCallBytes}-byte limit"

/-- A handler failure. -/
inductive HostCallError
  | fatal (message : String)
  | transient (message : String)
  deriving DecidableEq, Repr

/-- What the host makes of a handler's answer. An error stops the run. -/
def settle (serde : SerdeJson) (name : String) :
    Except HostCallError Json → Except ActivityFailure HostCallOutcome
  | .ok response => .ok (boundedResponse serde response)
  | .error (.fatal message) => .ok (.err (boundedMessage message))
  | .error (.transient message) =>
    let cut := boundedMessage message
    .error (.hostCallFailed s!"host call '{name}' failed: {cut}")

/-! ## The session of one run -/

/-- The journal state of one run. -/
structure Session where
  entries : HostCallJournal
  bytes : Nat
  cursor : Nat
  replayed : Nat
  live : Nat
  abort : Option ActivityFailure
  /-- The calls a handler ran for, by `seq`. -/
  handled : List Nat

/-- The room that a live call reserves for its largest entry. -/
def reserve (nameLen reqLen : Nat) : Nat :=
  entryFramingBytes + (6 * nameLen + 2) + (2 * reqLen + 2) + (2 * maxHostCallBytes + 2)

/-- The next step of a call, as the session sees it. -/
inductive Next
  | replay (outcome : Except ActivityFailure HostCallOutcome)
  | live (seq : Nat)

/-- One `host_call` of the guest. `text` is what its two slices hold, if both lie in
guest memory and are UTF-8. -/
structure GuestCall where
  nameLen : Int
  reqLen : Int
  text : Option (String × String)
  text_len : ∀ name request, text = some (name, request) →
    (name.utf8ByteSize : Int) = nameLen ∧ (request.utf8ByteSize : Int) = reqLen

/-- What the guest gets back: a negative code, or the response it can read. -/
inductive Answer
  | code (n : Int)
  | response (envelope : String)
  deriving DecidableEq, Repr

def hostCallDenied : Answer := .code (-1)
def hostCallInvalid : Answer := .code (-2)
def hostCallLimit : Answer := .code (-3)

/-- What one attempt meets from outside. A `seq` runs live at most once in an attempt, so
a handler that keeps state is a function of it too. -/
structure Attempt where
  handle : Nat → String → Json → Except HostCallError Json
  cancelled : Nat → Bool
  /-- The guest stops after this many steps: no fuel, no time, a cancelled run. -/
  steps : Nat
  stop : SandboxFailure

/-- What a guest does next. -/
inductive GuestStep
  | call (c : GuestCall)
  | done (result : Except SandboxFailure Json)

/-- A deterministic guest on one input: its next step is a function of the answers it got.
Its own traps, also of its `alloc`, are ends of it. -/
structure Guest where
  importsHostCall : Bool
  next : List Answer → GuestStep
  calls_import : ∀ answers c, next answers = .call c → importsHostCall = true

namespace Session

def start (prior : HostCallJournal) : Session :=
  { entries := prior, bytes := journalByteSize prior, cursor := 0, replayed := 0, live := 0,
    abort := none, handled := [] }

/-- Whether a call with these lengths stays within the run budgets. -/
def admits (s : Session) (nameLen reqLen : Nat) : Bool :=
  if s.cursor ≥ maxHostCalls then false
  else s.cursor < s.entries.length || s.bytes + reserve nameLen reqLen ≤ maxJournalBytes

/-- Serve the entry at the cursor. -/
def serve (s : Session) : Session :=
  { s with cursor := s.cursor + 1, replayed := s.replayed + 1 }

/-- Append a live entry. -/
def record (s : Session) (entry : HostCallEntry) : Session :=
  { s with
    bytes := s.bytes + entry.byteSize, entries := s.entries ++ [entry],
    cursor := s.cursor + 1, live := s.live + 1 }

def noteHandler (s : Session) (seq : Nat) : Session :=
  { s with handled := s.handled ++ [seq] }

def aborted (s : Session) (failure : ActivityFailure) : Session :=
  { s with abort := some failure }

/-- Decide the next step of a call to `name` with `request`. -/
def next (grants : List String) (s : Session) (name request : String) : Session × Next :=
  if s.cursor ≥ 2 ^ 32 then
    (s, .replay (.error (.wasmJournalDivergence "the host-call cursor exceeds u32")))
  else
    match s.entries[s.cursor]? with
    | none => (s, .live s.cursor)
    | some entry =>
      if entry.name ≠ name ∨ entry.request ≠ request then
        (s, .replay (.error (.wasmJournalDivergence
          s!"host call {s.cursor} is '{name}', but the journal holds '{entry.name}' or another request")))
      else if entry.outcome ≠ .denied ∧ name ∉ grants then
        (s, .replay (.error (.wasmJournalDivergence
          s!"host call {s.cursor} replays '{name}', which is no longer granted")))
      else (s.serve, .replay (.ok entry.outcome))

end Session

section Fields

variable (s : Session) (entry : HostCallEntry) (failure : ActivityFailure)

@[simp] theorem Session.record_entries : (s.record entry).entries = s.entries ++ [entry] := rfl
@[simp] theorem Session.record_bytes : (s.record entry).bytes = s.bytes + entry.byteSize := rfl
@[simp] theorem Session.record_cursor : (s.record entry).cursor = s.cursor + 1 := rfl
@[simp] theorem Session.record_handled : (s.record entry).handled = s.handled := rfl
@[simp] theorem Session.record_abort : (s.record entry).abort = s.abort := rfl
@[simp] theorem Session.aborted_entries : (s.aborted failure).entries = s.entries := rfl
@[simp] theorem Session.aborted_handled : (s.aborted failure).handled = s.handled := rfl

end Fields

theorem Session.admits_iff (s : Session) (nameLen reqLen : Nat) :
    s.admits nameLen reqLen = true ↔
      s.cursor < maxHostCalls ∧
        (s.cursor < s.entries.length ∨ s.bytes + reserve nameLen reqLen ≤ maxJournalBytes) := by
  unfold Session.admits
  split
  · simp
    omega
  · simp
    omega

/-! ## One attempt -/

section Attempts

variable (serde : SerdeJson) (grants : List String)

/-- Whether a live call gets as far as its handler. -/
def runsHandler (a : Attempt) (seq : Nat) (name request : String) : Bool :=
  name ∈ grants && !a.cancelled seq && (serde.fromStr request).isOk

/-- The outcome of a call that runs live. An error stops the run. -/
def liveOutcome (a : Attempt) (seq : Nat) (name request : String) :
    Except ActivityFailure HostCallOutcome :=
  if name ∉ grants then .ok .denied
  else if a.cancelled seq then
    .error (.resourceExhausted "wasm activity cancelled before completion")
  else
    match serde.fromStr request with
    | .error e => .ok (.err (boundedMessage s!"host call request is not JSON: {e}"))
    | .ok decoded => settle serde name (a.handle seq name decoded)

/-- The session once a live call reached its handler, or did not. -/
def afterHandler (a : Attempt) (s : Session) (seq : Nat) (name request : String) : Session :=
  if runsHandler serde grants a seq name request then s.noteHandler seq else s

/-- Replay the next entry, or run the call live and journal it. -/
def nextOutcome (a : Attempt) (s : Session) (name request : String) :
    Session × Except ActivityFailure HostCallOutcome :=
  match s.next grants name request with
  | (s, .replay outcome) => (s, outcome)
  | (s, .live seq) =>
    match liveOutcome serde grants a seq name request with
    | .error failure => (afterHandler serde grants a s seq name request, .error failure)
    | .ok outcome =>
      ((afterHandler serde grants a s seq name request).record ⟨seq, name, request, outcome⟩,
        .ok outcome)

/-- The name and the raw request text of one call. -/
def readCall (c : GuestCall) : Option (String × String) :=
  c.text.filter fun p => serde.isJson p.2

/-- What an outcome is in guest memory. -/
def answerOf : HostCallOutcome → Answer
  | .denied => hostCallDenied
  | .ok response => .response ("\x7b\"ok\":" ++ response ++ "\x7d")
  | .err message =>
    .response ((serde.pieces (.obj [("err", .str message)])).foldl (· ++ ·) "")

/-- The body of `harvest::host_call`. No answer means that the run is stopped. -/
def hostCall (a : Attempt) (s : Session) (c : GuestCall) : Session × Option Answer :=
  if c.nameLen < 0 ∨ c.reqLen < 0 then (s, some hostCallInvalid)
  else if c.nameLen.toNat > maxHostCallNameBytes ∨ c.reqLen.toNat > maxHostCallBytes then
    (s, some hostCallInvalid)
  else if !s.admits c.nameLen.toNat c.reqLen.toNat then (s, some hostCallLimit)
  else
    match readCall serde c with
    | none => (s, some hostCallInvalid)
    | some (name, request) =>
      match nextOutcome serde grants a s name request with
      | (s, .ok outcome) => (s, some (answerOf serde outcome))
      | (s, .error failure) => (s.aborted failure, none)

/-- What the engine reports of a host call that stopped the run. The session's `abort`
takes its place. -/
def hostCallStopped : SandboxFailure :=
  ⟨.wasmTrap "a journaled host call stopped the run", rfl⟩

/-- Run the guest for at most `n` steps after `answers`. -/
def drive (g : Guest) (a : Attempt) :
    Nat → Session → List Answer → Session × Except SandboxFailure Json
  | 0, s, _ => (s, .error a.stop)
  | n + 1, s, answers =>
    match g.next answers with
    | .done result => (s, result)
    | .call c =>
      match hostCall serde grants a s c with
      | (s, some answer) => drive g a n s (answers ++ [answer])
      | (s, none) => (s, .error hostCallStopped)

/-- The result of one journaled run. -/
structure JournaledRun where
  result : Except ActivityFailure Json
  journal : HostCallJournal
  replayed : Nat
  live : Nat
  handled : List Nat

/-- The instantiation of a module whose import is not linked. -/
def importDenied : SandboxFailure :=
  ⟨.sandboxDenied "wasm instantiation denied: unknown import: harvest::host_call", rfl⟩

/-- Run the guest in a linked or an unlinked instance. -/
def runGuest (g : Guest) (a : Attempt) (prior : HostCallJournal) :
    Session × Except SandboxFailure Json :=
  if grants.isEmpty && prior.isEmpty && g.importsHostCall then
    (Session.start prior, .error importDenied)
  else drive serde grants g a a.steps (Session.start prior) []

/-- The result of a run: the failure of a host call first, then a guest that finished with
entries left. -/
def finalResult (priorLen : Nat) (s : Session) (result : Except SandboxFailure Json) :
    Except ActivityFailure Json :=
  match s.abort, result with
  | some abort, _ => .error abort
  | none, .ok output =>
    if s.cursor < priorLen then
      .error (.wasmJournalDivergence
        s!"the guest finished after {s.cursor} of {priorLen} journaled host calls")
    else .ok output
  | none, .error failure => .error failure.toActivityFailure

/-- Run a WASM activity with journaled host calls. -/
def invokeJournaled (g : Guest) (a : Attempt) (prior : HostCallJournal) : JournaledRun :=
  match journalDefect serde prior with
  | some defect => ⟨.error (.wasmJournalDivergence defect), prior, 0, 0, []⟩
  | none =>
    match runGuest serde grants g a prior with
    | (s, result) =>
      ⟨finalResult prior.length s result, s.entries, s.replayed, s.live, s.handled⟩

end Attempts

/-! ## Lengths of text -/

theorem utf8ByteSize_ofList (cs : List Char) :
    (String.ofList cs).utf8ByteSize = (cs.map Char.utf8Size).sum := by
  induction cs with
  | nil => simp
  | cons c cs ih =>
    rw [String.ofList_cons, String.utf8ByteSize_append, ih]
    simp

theorem utf8ByteSize_eq_sum (text : String) :
    text.utf8ByteSize = (text.toList.map Char.utf8Size).sum := by
  rw [← utf8ByteSize_ofList, String.ofList_toList]

/-- A text of characters of one byte has as many bytes as characters. -/
theorem utf8ByteSize_of_ascii {cs : List Char} (h : ∀ c ∈ cs, c.utf8Size = 1) :
    (String.ofList cs).utf8ByteSize = cs.length := by
  rw [utf8ByteSize_ofList, List.map_congr_left h]
  simp

theorem utf8ByteSize_lt_escapedLen (text : String) :
    text.utf8ByteSize < escapedLen text := by
  unfold escapedLen
  omega

theorem sum_escapes_le (k : Nat) (cs : List Char) (h : ∀ c ∈ cs, escapes c ≤ k) :
    (cs.map escapes).sum ≤ k * (cs.map Char.utf8Size).sum := by
  induction cs with
  | nil => simp
  | cons c cs ih =>
    simp only [List.mem_cons, forall_eq_or_imp] at h
    have hrest := ih h.2
    have hsize : k * 1 ≤ k * c.utf8Size := Nat.mul_le_mul_left k c.utf8Size_pos
    simp only [List.map_cons, List.sum_cons, Nat.mul_add]
    omega

/-- Escaping adds at most `k` bytes for each byte. -/
theorem escapedLen_le (k : Nat) (text : String) (h : ∀ c ∈ text.toList, escapes c ≤ k) :
    escapedLen text ≤ (k + 1) * text.utf8ByteSize + 2 := by
  have hsum := sum_escapes_le k text.toList h
  rw [← utf8ByteSize_eq_sum] at hsum
  unfold escapedLen
  rw [Nat.add_mul]
  omega

theorem escapes_le_five (c : Char) : escapes c ≤ 5 := by
  unfold escapes
  split
  · omega
  · split <;> omega

theorem escapedLen_le_six (text : String) : escapedLen text ≤ 6 * text.utf8ByteSize + 2 :=
  escapedLen_le 5 text fun c _ => escapes_le_five c

/-- **Escaping at most doubles JSON text.** -/
theorem escapedLen_le_of_isJson (serde : SerdeJson) (text : String)
    (h : serde.isJson text = true) : escapedLen text ≤ 2 * text.utf8ByteSize + 2 := by
  apply escapedLen_le 1
  intro c hc
  have hplain := serde.isJson_printable text h c hc
  unfold escapes
  split
  · omega
  · split
    · rename_i hother hcontrol
      -- the control characters that stay are white space, and these count one
      rcases hplain with hp | hp
      · omega
      · simp only [List.mem_cons, List.not_mem_nil, or_false] at hp hother
        omega
    · omega

/-! ## Bounded messages and responses -/

theorem sum_cutTo_le (n : Nat) (cs : List Char) :
    ((cutTo n cs).map Char.utf8Size).sum ≤ n := by
  induction cs generalizing n with
  | nil => simp [cutTo]
  | cons c cs ih =>
    unfold cutTo
    split
    · have hrest := ih (n - c.utf8Size)
      simp only [List.map_cons, List.sum_cons]
      omega
    · simp

theorem utf8ByteSize_halve_le (message : String) :
    (halve message).utf8ByteSize ≤ message.utf8ByteSize / 2 := by
  unfold halve
  rw [utf8ByteSize_ofList]
  have hcut := sum_cutTo_le (min message.utf8ByteSize maxHostCallBytes / 2) message.toList
  omega

theorem escapedLen_boundedMessageLoop (fuel : Nat) (message : String)
    (h : message.utf8ByteSize ≤ fuel) :
    escapedLen (boundedMessageLoop fuel message) ≤ maxHostCallBytes := by
  induction fuel generalizing message with
  | zero =>
    have hlen := escapedLen_le_six message
    simp only [boundedMessageLoop, maxHostCallBytes]
    omega
  | succ fuel ih =>
    unfold boundedMessageLoop
    split
    · apply ih
      have hhalf := utf8ByteSize_halve_le message
      omega
    · omega

/-- **A bounded message fits**, escapes included. -/
theorem escapedLen_boundedMessage (message : String) :
    escapedLen (boundedMessage message) ≤ maxHostCallBytes :=
  escapedLen_boundedMessageLoop _ message (Nat.le_refl _)

theorem cappedWrite_eq_some {buffer text : String} {pieces : List String}
    (h : cappedWrite buffer pieces = some text) (hbuf : buffer.utf8ByteSize ≤ maxHostCallBytes) :
    text = pieces.foldl (· ++ ·) buffer ∧ text.utf8ByteSize ≤ maxHostCallBytes := by
  induction pieces generalizing buffer with
  | nil =>
    obtain rfl : buffer = text := by simpa [cappedWrite] using h
    exact ⟨rfl, hbuf⟩
  | cons piece pieces ih =>
    unfold cappedWrite at h
    split at h
    · cases h
    · apply ih h
      rw [String.utf8ByteSize_append]
      omega

/-- **What a response becomes is within its bound.** -/
theorem boundedResponse_fits (serde : SerdeJson) (response : Json) :
    outcomeOk serde (boundedResponse serde response) = true := by
  unfold boundedResponse
  split
  · next text h =>
    obtain ⟨rfl, hlen⟩ := cappedWrite_eq_some h (by simp)
    simp [outcomeOk, hlen, serde.isJson_pieces]
  · simp [outcomeOk]
    decide

/-! ## Outcomes of live calls -/

section Live

variable {serde : SerdeJson} {grants : List String} {a : Attempt}
variable {seq : Nat} {name request : String} {outcome : HostCallOutcome}

theorem outcomeOk_boundedMessage (message : String) :
    outcomeOk serde (.err (boundedMessage message)) = true := by
  have hesc := escapedLen_boundedMessage message
  have hlen := utf8ByteSize_lt_escapedLen (boundedMessage message)
  simp only [outcomeOk, Bool.and_eq_true, decide_eq_true_eq]
  omega

theorem settle_eq_ok {answer : Except HostCallError Json}
    (h : settle serde name answer = .ok outcome) :
    outcomeOk serde outcome = true ∧ outcome ≠ .denied := by
  unfold settle at h
  split at h
  · injection h with h
    subst h
    refine ⟨boundedResponse_fits serde _, ?_⟩
    unfold boundedResponse
    split <;> simp
  · injection h with h
    subst h
    exact ⟨outcomeOk_boundedMessage _, by simp⟩
  · cases h

/-- What a live call records is within its bounds, and a denial exactly when the name is
not granted. -/
theorem liveOutcome_eq_ok (h : liveOutcome serde grants a seq name request = .ok outcome) :
    outcomeOk serde outcome = true ∧ (outcome = .denied ↔ name ∉ grants) := by
  unfold liveOutcome at h
  split at h
  · next hname =>
    injection h with h
    subst h
    simp [outcomeOk, hname]
  · next hname =>
    have hmem : name ∈ grants := not_not.mp hname
    split at h
    · cases h
    · split at h
      · injection h with h
        subst h
        simp [outcomeOk_boundedMessage, hmem]
      · obtain ⟨hfits, hne⟩ := settle_eq_ok h
        simp [hfits, hne, hmem]

/-- A live call that stops the run reports no divergence. -/
theorem liveOutcome_eq_error {failure : ActivityFailure}
    (h : liveOutcome serde grants a seq name request = .error failure) :
    failure.diverged = false := by
  unfold liveOutcome at h
  split at h
  · cases h
  · split at h
    · injection h with h
      subst h
      rfl
    · split at h
      · cases h
      · unfold settle at h
        split at h
        · cases h
        · cases h
        · injection h with h
          subst h
          rfl

/-- An entry that fits is within the room its call reserved. -/
theorem byteSize_le_reserve {e : HostCallEntry} (h : entryFits serde e = true) :
    e.byteSize ≤ reserve e.name.utf8ByteSize e.request.utf8ByteSize := by
  simp only [entryFits, Bool.and_eq_true, decide_eq_true_eq] at h
  obtain ⟨⟨⟨-, -⟩, hreq⟩, hout⟩ := h
  have hname := escapedLen_le_six e.name
  have hrequest := escapedLen_le_of_isJson serde e.request hreq
  have houtcome : e.outcome.byteSize ≤ 2 * maxHostCallBytes + 2 := by
    cases ho : e.outcome with
    | ok response =>
      simp only [outcomeOk, ho, Bool.and_eq_true, decide_eq_true_eq] at hout
      have hresp := escapedLen_le_of_isJson serde response hout.2
      simp only [HostCallOutcome.byteSize]
      omega
    | err message =>
      simp only [outcomeOk, ho, Bool.and_eq_true, decide_eq_true_eq] at hout
      simp only [HostCallOutcome.byteSize]
      omega
    | denied => simp [HostCallOutcome.byteSize]
  unfold HostCallEntry.byteSize reserve
  omega

end Live

/-! ## Journals without a defect -/

section Sound

variable (serde : SerdeJson)

/-- Within the budgets, numbered in order, and each entry within its bounds. -/
structure Sound (journal : HostCallJournal) : Prop where
  calls : journal.length ≤ maxHostCalls
  bytes : journalByteSize journal ≤ maxJournalBytes
  entry : ∀ i e, journal[i]? = some e → e.seq = i ∧ entryFits serde e = true

variable {serde}

theorem entryDefect_eq_none_iff {i : ℕ} {e : HostCallEntry} :
    entryDefect serde i e = none ↔ e.seq = i ∧ entryFits serde e = true := by
  unfold entryDefect
  split
  · next hseq => simp [hseq]
  · next hseq =>
    rw [not_not] at hseq
    split
    · next hfits => simp [hseq, hfits]
    · next hfits => simp [hfits]

theorem entriesDefect_eq_none_iff {journal : HostCallJournal} :
    (journal.zipIdx.findSome? fun p => entryDefect serde p.2 p.1) = none ↔
      ∀ i e, journal[i]? = some e → e.seq = i ∧ entryFits serde e = true := by
  rw [List.findSome?_eq_none_iff]
  constructor
  · intro h i e he
    exact entryDefect_eq_none_iff.mp (h (e, i) (List.mem_zipIdx_iff_getElem?.mpr he))
  · rintro h ⟨e, i⟩ hmem
    exact entryDefect_eq_none_iff.mpr (h i e (List.mem_zipIdx_iff_getElem?.mp hmem))

theorem journalDefect_eq_none_iff {journal : HostCallJournal} :
    journalDefect serde journal = none ↔ Sound serde journal := by
  constructor
  · intro h
    unfold journalDefect at h
    split at h
    · cases h
    · next hcalls =>
      split at h
      · cases h
      · next hentries =>
        split at h
        · cases h
        · next hbytes =>
          exact ⟨Nat.le_of_not_gt hcalls, Nat.le_of_not_gt hbytes,
            entriesDefect_eq_none_iff.mp hentries⟩
  · intro h
    have hentries := entriesDefect_eq_none_iff.mpr h.entry
    unfold journalDefect
    rw [if_neg (Nat.not_lt.mpr h.calls), hentries]
    simp only
    rw [if_neg (Nat.not_lt.mpr h.bytes)]

theorem Sound.seq_lt {journal : HostCallJournal} (h : Sound serde journal) :
    ∀ e ∈ journal, e.seq < 2 ^ 32 := by
  intro e he
  obtain ⟨i, hi, hget⟩ := List.getElem_of_mem he
  obtain ⟨hseq, -⟩ := h.entry i e (by rw [List.getElem?_eq_getElem hi, hget])
  have hcalls := h.calls
  have hmax : maxHostCalls < 2 ^ 32 := by decide
  omega

/-- The entry of a call that found room keeps the journal without a defect. -/
theorem Sound.concat {journal : HostCallJournal} (h : Sound serde journal) {e : HostCallEntry}
    (hseq : e.seq = journal.length) (hfits : entryFits serde e = true)
    (hcalls : journal.length < maxHostCalls)
    (hbytes : journalByteSize journal +
      reserve e.name.utf8ByteSize e.request.utf8ByteSize ≤ maxJournalBytes) :
    Sound serde (journal ++ [e]) where
  calls := by
    rw [List.length_append, List.length_singleton]
    omega
  bytes := by
    have hsize := byteSize_le_reserve hfits
    rw [journalByteSize_concat]
    omega
  entry := by
    intro i x hx
    obtain hx | ⟨rfl, rfl⟩ := Lib.getElem?_concat_eq_some.mp hx
    · exact h.entry i x hx
    · exact ⟨hseq, hfits⟩

end Sound

end Harvest.Wasm
