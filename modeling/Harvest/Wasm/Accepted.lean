import Mathlib.Algebra.Order.BigOperators.Group.List
import Harvest.Lib.JsonGrammar
import Harvest.Wasm.Resume

/-!
# Journals that the next attempt accepts

A live call reserves room for its largest entry before it runs. The reserve covers what the call
can write, so a run that starts from a journal without a defect writes a journal without a defect.

The journal is persisted as JSON text. Its size is counted with the escapes of each string and with
a bound on the rest, so it is not smaller than the text.

Proved here:
* `JsonLibrary.toSerdeJson`: a reader that accepts only JSON texts is one that the journal can rely
  on.
* `utf8ByteSize_journalJson_le`: the size of a journal bounds its JSON text.
* `drive_accepted`: a run keeps to the budgets of the journal.
-/

namespace Harvest.Wasm

open Harvest.Lib

/-! ## The JSON library by its grammar -/

/-- `serde_json`: it accepts only JSON texts, and it accepts what it writes. -/
structure JsonLibrary where
  isJson : String → Bool
  fromStr : String → Except String Json
  pieces : Json → List String
  isJson_sound : ∀ text, isJson text = true → JsonText.IsJson text.toList
  isJson_pieces : ∀ v, isJson ((pieces v).foldl (· ++ ·) "") = true

def JsonLibrary.toSerdeJson (lib : JsonLibrary) : SerdeJson where
  isJson := lib.isJson
  fromStr := lib.fromStr
  pieces := lib.pieces
  isJson_pieces := lib.isJson_pieces
  isJson_printable := fun text h => (lib.isJson_sound text h).printable

/-! ## The JSON text of a journal -/

/-- The letter behind the backslash of a short escape. -/
def shortEscape (code : ℕ) : Option Char :=
  if code = 0x22 then some (Char.ofNat 0x22)
  else if code = 0x5c then some (Char.ofNat 0x5c)
  else if code = 0x08 then some 'b'
  else if code = 0x0c then some 'f'
  else if code = 0x0a then some 'n'
  else if code = 0x0d then some 'r'
  else if code = 0x09 then some 't'
  else none

/-- A character inside a JSON string, as `serde_json` writes it. -/
def writeChar (c : Char) : List Char :=
  match shortEscape c.toNat with
  | some letter => [Char.ofNat 0x5c, letter]
  | none =>
    if c.toNat ≤ 0x1f then
      [Char.ofNat 0x5c, 'u', '0', '0', Nat.digitChar (c.toNat / 16), Nat.digitChar (c.toNat % 16)]
    else [c]

def writeString (text : String) : String :=
  "\"" ++ String.ofList (text.toList.flatMap writeChar) ++ "\""

/-- The outcome is tagged with its kind. -/
def HostCallOutcome.json : HostCallOutcome → String
  | .ok response => "\x7b\"kind\":\"ok\",\"response\":" ++ writeString response ++ "\x7d"
  | .err message => "\x7b\"kind\":\"err\",\"message\":" ++ writeString message ++ "\x7d"
  | .denied => "\x7b\"kind\":\"denied\"\x7d"

def HostCallEntry.json (e : HostCallEntry) : String :=
  "\x7b\"seq\":" ++ e.seq.repr ++ ",\"name\":" ++ writeString e.name ++
    ",\"request\":" ++ writeString e.request ++ ",\"outcome\":" ++ e.outcome.json ++ "\x7d"

def commaSeparated : List String → String
  | [] => ""
  | [text] => text
  | text :: next :: rest => text ++ "," ++ commaSeparated (next :: rest)

/-- `serde_json::to_string` of the journal. -/
def journalJson (journal : HostCallJournal) : String :=
  "\x7b\"entries\":[" ++ commaSeparated (journal.map HostCallEntry.json) ++ "]\x7d"

/-! ## Lengths of the text -/

theorem utf8Size_of_ascii {c : Char} (h : c.toNat ≤ 0x7f) : c.utf8Size = 1 :=
  Char.utf8Size_eq_one_iff.mpr (UInt32.le_iff_toNat_le.mpr h)

theorem shortEscape_eq_some {code : ℕ} {letter : Char} (h : shortEscape code = some letter) :
    code ∈ [0x22, 0x5c, 0x08, 0x0c, 0x0a, 0x0d, 0x09] ∧ letter.utf8Size = 1 := by
  unfold shortEscape at h
  repeat' split at h
  all_goals first
    | cases h; subst_vars; exact ⟨by decide, by decide⟩
    | cases h

theorem shortEscape_eq_none {code : ℕ} (h : shortEscape code = none) :
    code ∉ [0x22, 0x5c, 0x08, 0x0c, 0x0a, 0x0d, 0x09] := by
  intro hmem
  simp only [List.mem_cons, List.not_mem_nil, or_false] at hmem
  rcases hmem with rfl | rfl | rfl | rfl | rfl | rfl | rfl <;> cases h

/-- A character is written with the bytes that its escape adds. -/
theorem sum_writeChar (c : Char) : ((writeChar c).map Char.utf8Size).sum = c.utf8Size + escapes c := by
  have hback : (Char.ofNat 0x5c).utf8Size = 1 := by decide
  unfold writeChar
  cases hshort : shortEscape c.toNat with
  | some letter =>
    obtain ⟨hmem, hletter⟩ := shortEscape_eq_some hshort
    have hsmall : ∀ code ∈ [0x22, 0x5c, 0x08, 0x0c, 0x0a, 0x0d, 0x09], code ≤ 0x7f := by decide
    simp [escapes, hmem, hback, hletter, utf8Size_of_ascii (hsmall _ hmem)]
  | none =>
    have hmem := shortEscape_eq_none hshort
    by_cases hcontrol : c.toNat ≤ 0x1f
    · have hhigh : (Nat.digitChar (c.toNat / 16)).utf8Size = 1 :=
        JsonText.utf8Size_digitChar (by omega)
      have hlow : (Nat.digitChar (c.toNat % 16)).utf8Size = 1 :=
        JsonText.utf8Size_digitChar (by omega)
      have hletter : 'u'.utf8Size = 1 ∧ '0'.utf8Size = 1 := by decide
      have hsize : c.utf8Size = 1 := utf8Size_of_ascii (by omega)
      simp [escapes, hmem, hcontrol, hback, hhigh, hlow, hletter, hsize]
    · simp [escapes, hmem, hcontrol]

/-- **A written string has the length that is counted for it.** -/
theorem utf8ByteSize_writeString (text : String) :
    (writeString text).utf8ByteSize = escapedLen text := by
  have hchars : ∀ cs : List Char, ((cs.flatMap writeChar).map Char.utf8Size).sum =
      (cs.map Char.utf8Size).sum + (cs.map escapes).sum := by
    intro cs
    induction cs with
    | nil => rfl
    | cons c cs ih =>
      simp only [List.flatMap_cons, List.map_append, List.sum_append, ih, sum_writeChar,
        List.map_cons, List.sum_cons]
      omega
  have hquote : "\"".utf8ByteSize = 1 := by decide
  unfold writeString escapedLen
  rw [String.utf8ByteSize_append, String.utf8ByteSize_append, hquote,
    utf8ByteSize_ofList (text.toList.flatMap writeChar), hchars, ← utf8ByteSize_eq_sum]
  omega

/-- A number is written in ASCII. -/
theorem utf8ByteSize_repr_eq_length (n : ℕ) :
    n.repr.utf8ByteSize = (Nat.toDigits 10 n).length := by
  have hsize : ∀ c ∈ Nat.toDigits 10 n, c.utf8Size = 1 := by
    intro c hc
    have hdigit := Nat.isDigit_of_mem_toDigits (by decide) (by decide) hc
    simp only [Char.isDigit, Bool.and_eq_true, decide_eq_true_eq] at hdigit
    have hle : c.toNat ≤ 57 := UInt32.le_iff_toNat_le.mp hdigit.2
    exact utf8Size_of_ascii (by omega)
  rw [Nat.repr_eq_ofList_toDigits, utf8ByteSize_of_ascii hsize]

/-- A `u32` has at most ten digits. -/
theorem utf8ByteSize_repr_le {n : ℕ} (h : n < 2 ^ 32) : n.repr.utf8ByteSize ≤ 10 := by
  rw [utf8ByteSize_repr_eq_length]
  exact (Nat.length_toDigits_le_iff (by decide) (by decide)).mpr (by omega)

theorem utf8ByteSize_outcomeJson_le (outcome : HostCallOutcome) :
    outcome.json.utf8ByteSize ≤ 25 + outcome.byteSize := by
  have hclose : "\x7d".utf8ByteSize = 1 := by decide
  cases outcome with
  | ok response =>
    have hopen : "\x7b\"kind\":\"ok\",\"response\":".utf8ByteSize = 24 := by decide
    show ("\x7b\"kind\":\"ok\",\"response\":" ++ writeString response ++ "\x7d").utf8ByteSize ≤
      25 + escapedLen response
    rw [String.utf8ByteSize_append, String.utf8ByteSize_append, hopen, hclose,
      utf8ByteSize_writeString, Nat.add_right_comm]
  | err message =>
    have hopen : "\x7b\"kind\":\"err\",\"message\":".utf8ByteSize = 24 := by decide
    show ("\x7b\"kind\":\"err\",\"message\":" ++ writeString message ++ "\x7d").utf8ByteSize ≤
      25 + escapedLen message
    rw [String.utf8ByteSize_append, String.utf8ByteSize_append, hopen, hclose,
      utf8ByteSize_writeString, Nat.add_right_comm]
  | denied =>
    have hsize : "\x7b\"kind\":\"denied\"\x7d".utf8ByteSize = 17 := by decide
    show "\x7b\"kind\":\"denied\"\x7d".utf8ByteSize ≤ 25 + 0
    rw [hsize]
    decide

/-- The framing that is counted for an entry has room for the comma behind it. -/
theorem utf8ByteSize_entryJson_lt {e : HostCallEntry} (h : e.seq < 2 ^ 32) :
    e.json.utf8ByteSize + 1 ≤ e.byteSize := by
  have hseq : "\x7b\"seq\":".utf8ByteSize = 7 := by decide
  have hname : ",\"name\":".utf8ByteSize = 8 := by decide
  have hrequest : ",\"request\":".utf8ByteSize = 11 := by decide
  have houtcome : ",\"outcome\":".utf8ByteSize = 11 := by decide
  have hclose : "\x7d".utf8ByteSize = 1 := by decide
  have hdigits := utf8ByteSize_repr_le h
  have hinner := utf8ByteSize_outcomeJson_le e.outcome
  show ("\x7b\"seq\":" ++ e.seq.repr ++ ",\"name\":" ++ writeString e.name ++
    ",\"request\":" ++ writeString e.request ++ ",\"outcome\":" ++ e.outcome.json ++
    "\x7d").utf8ByteSize + 1 ≤ 96 + escapedLen e.name + escapedLen e.request + e.outcome.byteSize
  repeat rw [String.utf8ByteSize_append]
  rw [hseq, hname, hrequest, houtcome, hclose, utf8ByteSize_writeString, utf8ByteSize_writeString]
  clear hseq hname hrequest houtcome hclose
  omega

theorem utf8ByteSize_commaSeparated_le (texts : List String) :
    (commaSeparated texts).utf8ByteSize ≤ (texts.map fun text => text.utf8ByteSize + 1).sum := by
  have hcomma : ",".utf8ByteSize = 1 := by decide
  induction texts with
  | nil => simp [commaSeparated]
  | cons text texts ih =>
    cases texts with
    | nil => simp [commaSeparated]
    | cons next rest =>
      simp only [commaSeparated, String.utf8ByteSize_append, hcomma, List.map_cons,
        List.sum_cons] at ih ⊢
      omega

/-- **The size of a journal bounds its JSON text.** -/
theorem utf8ByteSize_journalJson_le {journal : HostCallJournal}
    (h : ∀ e ∈ journal, e.seq < 2 ^ 32) :
    (journalJson journal).utf8ByteSize ≤ journalByteSize journal := by
  have hopen : "\x7b\"entries\":[".utf8ByteSize = 12 := by decide
  have hclose : "]\x7d".utf8ByteSize = 2 := by decide
  have hcommas := utf8ByteSize_commaSeparated_le (journal.map HostCallEntry.json)
  have hentries : ((journal.map HostCallEntry.json).map fun text => text.utf8ByteSize + 1).sum ≤
      (journal.map HostCallEntry.byteSize).sum := by
    rw [List.map_map]
    exact List.sum_le_sum fun e he => utf8ByteSize_entryJson_lt (h e he)
  show ("\x7b\"entries\":[" ++ commaSeparated (journal.map HostCallEntry.json) ++
    "]\x7d").utf8ByteSize ≤ 16 + (journal.map HostCallEntry.byteSize).sum
  rw [String.utf8ByteSize_append, String.utf8ByteSize_append, hopen, hclose]
  clear hopen hclose
  omega

/-! ## Runs -/

section Runs

variable {serde : SerdeJson} {grants : List String} {g : Guest} {a : Attempt}

variable (serde) in
/-- The session holds a journal without a defect, and counts its bytes. -/
structure Accepted (s : Session) : Prop where
  sound : Sound serde s.entries
  bytes : s.bytes = journalByteSize s.entries
  cursor_le : s.cursor ≤ s.entries.length

theorem accepted_start {prior : HostCallJournal} (h : Sound serde prior) :
    Accepted serde (Session.start prior) := ⟨h, rfl, Nat.zero_le _⟩

/-- While entries are left, a call is replayed or diverges. -/
theorem next_of_lt {s : Session} (grants : List String) (name request : String)
    (hlt : s.cursor < s.entries.length) :
    ∃ next outcome, s.next grants name request = (next, .replay outcome) ∧
      (next = s ∨ next = s.serve) := by
  unfold Session.next
  rw [List.getElem?_eq_getElem hlt]
  dsimp only
  split
  · exact ⟨s, _, rfl, .inl rfl⟩
  · split
    · exact ⟨s, _, rfl, .inl rfl⟩
    · split
      · exact ⟨s, _, rfl, .inl rfl⟩
      · exact ⟨s.serve, _, rfl, .inr rfl⟩

/-- A call that is let through, replayed or live, keeps to the budgets. -/
theorem Accepted.nextOutcome {s : Session} (h : Accepted serde s) {name request : String}
    (hname : name.utf8ByteSize ≤ maxHostCallNameBytes)
    (hrequest : request.utf8ByteSize ≤ maxHostCallBytes) (hjson : serde.isJson request = true)
    (hadmits : s.admits name.utf8ByteSize request.utf8ByteSize = true) :
    Accepted serde (nextOutcome serde grants a s name request).1 := by
  obtain ⟨hcalls, hroom⟩ := (s.admits_iff _ _).mp hadmits
  by_cases hend : s.cursor = s.entries.length
  · -- no entry is left: the call runs live, and its reserve was checked
    have hmax : maxHostCalls < 2 ^ 32 := by decide
    rw [nextOutcome_live (by omega) hend]
    cases hout : liveOutcome serde grants a s.cursor name request with
    | error failure =>
      exact ⟨by simpa using h.sound, by simpa using h.bytes, by simpa using h.cursor_le⟩
    | ok outcome =>
      have hfits : entryFits serde ⟨s.cursor, name, request, outcome⟩ = true := by
        simp only [entryFits, Bool.and_eq_true, decide_eq_true_eq]
        exact ⟨⟨⟨hname, hrequest⟩, hjson⟩, (liveOutcome_eq_ok hout).1⟩
      have hbytes := hroom.resolve_left (by omega)
      rw [h.bytes] at hbytes
      have hsound := h.sound.concat (e := ⟨s.cursor, name, request, outcome⟩) hend hfits
        (by omega) hbytes
      refine ⟨by simpa using hsound, ?_, ?_⟩
      · simp only [Session.record_bytes, Session.record_entries, afterHandler_bytes,
          afterHandler_entries, journalByteSize_concat, h.bytes]
      · simp only [Session.record_cursor, Session.record_entries, afterHandler_cursor,
          afterHandler_entries, List.length_append, List.length_singleton]
        omega
  · have hlt : s.cursor < s.entries.length := Nat.lt_of_le_of_ne h.cursor_le hend
    obtain ⟨next, outcome, hnext, hsame | hserved⟩ := next_of_lt grants name request hlt
    · rw [Wasm.nextOutcome, hnext, hsame]
      exact h
    · rw [Wasm.nextOutcome, hnext, hserved]
      exact ⟨h.sound, h.bytes, hlt⟩

theorem Accepted.hostCall {s : Session} (h : Accepted serde s) (c : GuestCall) :
    Accepted serde (hostCall serde grants a s c).1 := by
  rw [hostCall_eq]
  cases hscreen : screen serde (s.admits c.nameLen.toNat c.reqLen.toNat) c with
  | refuse answer => exact h
  | ask name request =>
    obtain ⟨hadmits, hok, hjson, hname, hrequest⟩ := screen_eq_ask hscreen
    rw [← hname, ← hrequest] at hadmits
    have hnext : Accepted serde (Wasm.nextOutcome serde grants a s name request).1 :=
      h.nextOutcome (hname ▸ hok.2.2.1) (hrequest ▸ hok.2.2.2) hjson hadmits
    simp only
    cases houtcome : Wasm.nextOutcome serde grants a s name request with
    | mk next outcome =>
      rw [houtcome] at hnext
      cases outcome with
      | ok outcome => exact hnext
      | error failure => exact ⟨hnext.sound, hnext.bytes, hnext.cursor_le⟩

/-- **A run keeps to the budgets of the journal.** -/
theorem drive_accepted {n : ℕ} {s : Session} {answers : List Answer} (h : Accepted serde s) :
    Accepted serde (drive serde grants g a n s answers).1 := by
  induction n generalizing s answers with
  | zero => exact h
  | succ n ih =>
    unfold drive
    cases g.next answers with
    | done result => exact h
    | call c =>
      have hcall : Accepted serde (Wasm.hostCall serde grants a s c).1 := h.hostCall c
      simp only
      cases hanswer : Wasm.hostCall serde grants a s c with
      | mk next answer =>
        rw [hanswer] at hcall
        cases answer with
        | some answer => exact ih hcall
        | none => exact hcall

theorem runGuest_accepted {prior : HostCallJournal} (h : Sound serde prior) :
    Accepted serde (runGuest serde grants g a prior).1 := by
  unfold runGuest
  split
  · exact accepted_start h
  · exact drive_accepted (accepted_start h)

theorem invokeJournaled_journal {prior : HostCallJournal} (h : journalDefect serde prior = none) :
    (invokeJournaled serde grants g a prior).journal =
      (runGuest serde grants g a prior).1.entries := by
  unfold invokeJournaled
  rw [h]

end Runs

/-- **A live run writes only journals that the next attempt accepts**: from a prior journal without
a defect, for every guest and every answer of its handlers, the journal of the run has no defect. The
size of a journal is at least the length of its JSON text, so the text of the run's journal is within
the limit. -/
theorem a_run_writes_an_accepted_journal (lib : JsonLibrary) (grants : List String) (g : Guest)
    (a : Attempt) (prior : HostCallJournal) (h : journalDefect lib.toSerdeJson prior = none) :
    let journal := (invokeJournaled lib.toSerdeJson grants g a prior).journal
    journalDefect lib.toSerdeJson journal = none ∧
      (∀ any : HostCallJournal, (∀ e ∈ any, e.seq < 2 ^ 32) →
        (journalJson any).utf8ByteSize ≤ journalByteSize any) ∧
      (journalJson journal).utf8ByteSize ≤ maxJournalBytes := by
  have hsound : Sound lib.toSerdeJson (invokeJournaled lib.toSerdeJson grants g a prior).journal := by
    rw [invokeJournaled_journal h]
    exact (runGuest_accepted (journalDefect_eq_none_iff.mp h)).sound
  refine ⟨journalDefect_eq_none_iff.mpr hsound, fun any => utf8ByteSize_journalJson_le, ?_⟩
  exact (utf8ByteSize_journalJson_le hsound.seq_lt).trans hsound.bytes

/-- A reader and writer that knows the text of zero. -/
def zeroLibrary : JsonLibrary where
  isJson text := text == "0"
  fromStr text := if text = "0" then .ok (.ofNat 0) else .error "expected value"
  pieces _ := ["0"]
  isJson_sound := by
    intro text h
    rw [beq_iff_eq] at h
    subst h
    have hdigits : JsonText.IsDigits ['0'] :=
      ⟨List.cons_ne_nil _ _, JsonText.forall_mem_of_all (by decide)⟩
    have hnumber : JsonText.IsNumber ['0'] :=
      ⟨[], ['0'], [], [], rfl, .inl rfl, hdigits, fun _ => rfl, .inl rfl, .inl rfl⟩
    have hnone : JsonText.Blank [] := fun _ hc => absurd hc List.not_mem_nil
    exact .padded hnone (.number hnumber) hnone
  isJson_pieces := fun _ => by decide

/-- One call of a guest on an empty journal. -/
theorem a_run_of_one_call_is_accepted :
    journalDefect zeroLibrary.toSerdeJson [] = none ∧
      (journalJson (invokeJournaled zeroLibrary.toSerdeJson ["k"] Refused.asker
        (Refused.asked 5) []).journal).utf8ByteSize ≤ maxJournalBytes := by
  have hnone : journalDefect zeroLibrary.toSerdeJson [] = none := by decide
  exact ⟨hnone, (a_run_writes_an_accepted_journal zeroLibrary ["k"] Refused.asker
    (Refused.asked 5) [] hnone).2.2⟩

end Harvest.Wasm
