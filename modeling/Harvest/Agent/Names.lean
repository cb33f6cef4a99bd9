import Mathlib.Data.List.Basic
import Mathlib.Tactic.Ring

/-!
# Names in the workspace store

Model of the names of `workspace.rs`: snapshot keys, reset markers and scratch names, each with a
generation. A name is the list of its characters.

Proved here:
* `keyGeneration_key`, `markerGeneration_resetMarker`: a key and a marker carry their generation.
* `nameGeneration_key`, `nameGeneration_resetMarker`, `scratchGeneration_key`,
  `scratchGeneration_resetMarker`: no name has two forms.
-/

namespace Harvest.Agent

abbrev Name := List Char

/-! ## Hexadecimal -/

def hexDigit (n : Nat) : Char :=
  match n with
  | 0 => '0' | 1 => '1' | 2 => '2' | 3 => '3' | 4 => '4' | 5 => '5' | 6 => '6' | 7 => '7'
  | 8 => '8' | 9 => '9' | 10 => 'a' | 11 => 'b' | 12 => 'c' | 13 => 'd' | 14 => 'e' | _ => 'f'

def hexValue (c : Char) : Nat :=
  match c with
  | '0' => 0 | '1' => 1 | '2' => 2 | '3' => 3 | '4' => 4 | '5' => 5 | '6' => 6 | '7' => 7
  | '8' => 8 | '9' => 9 | 'a' => 10 | 'b' => 11 | 'c' => 12 | 'd' => 13 | 'e' => 14 | 'f' => 15
  | _ => 0

/-- A lowercase hex digit. -/
def isHex (c : Char) : Bool := ('0' ≤ c && c ≤ '9') || ('a' ≤ c && c ≤ 'f')

/-- The text is `len` lowercase hex digits. -/
def hexDigits (text : Name) (len : Nat) : Bool := text.length = len && text.all isHex

/-- The lowest `width` hex digits of a number, with leading zeros. -/
def hexPad : Nat → Nat → Name
  | 0, _ => []
  | width + 1, n => hexPad width (n / 16) ++ [hexDigit (n % 16)]

/-- `u64::from_str_radix` with radix 16, on hex digits. -/
def fromHex (text : Name) : Nat := text.foldl (fun n c => n * 16 + hexValue c) 0

theorem isHex_hexDigit {n : Nat} (h : n < 16) : isHex (hexDigit n) = true := by
  revert n
  decide

theorem hexValue_hexDigit {n : Nat} (h : n < 16) : hexValue (hexDigit n) = n := by
  revert n
  decide

theorem length_hexPad (width n : Nat) : (hexPad width n).length = width := by
  induction width generalizing n with
  | zero => rfl
  | succ width ih => simp [hexPad, ih]

theorem all_isHex_hexPad (width n : Nat) : (hexPad width n).all isHex := by
  induction width generalizing n with
  | zero => rfl
  | succ width ih =>
    have hlast := isHex_hexDigit (Nat.mod_lt n (by decide : 0 < 16))
    simp only [hexPad, List.all_append, ih, List.all_cons, List.all_nil, hlast, Bool.and_self]

theorem hexDigits_hexPad (width n : Nat) : hexDigits (hexPad width n) width := by
  simp only [hexDigits, length_hexPad, all_isHex_hexPad, decide_true, Bool.and_self]

theorem fromHex_hexPad {width n : Nat} (h : n < 16 ^ width) : fromHex (hexPad width n) = n := by
  induction width generalizing n with
  | zero =>
    have : n = 0 := by simpa using h
    rw [this]
    rfl
  | succ width ih =>
    have hquot : n / 16 < 16 ^ width := by
      rw [Nat.div_lt_iff_lt_mul (by decide)]
      rwa [pow_succ] at h
    have hrest := ih hquot
    unfold fromHex at hrest ⊢
    rw [hexPad, List.foldl_append, hrest, List.foldl_cons, List.foldl_nil,
      hexValue_hexDigit (Nat.mod_lt n (by decide))]
    omega

/-! ## Splitting -/

/-- `split_once` at a character. -/
def splitOnceChar (c : Char) : Name → Option (Name × Name)
  | [] => none
  | a :: rest =>
    if a = c then some ([], rest) else (splitOnceChar c rest).map fun (l, r) => (a :: l, r)

/-- `split_once` at a text. -/
def splitOnce (pat : Name) : Name → Option (Name × Name)
  | [] => if pat = [] then some ([], []) else none
  | a :: rest =>
    if pat.isPrefixOf (a :: rest) then some ([], (a :: rest).drop pat.length)
    else (splitOnce pat rest).map fun (l, r) => (a :: l, r)

theorem splitOnceChar_append {c : Char} {l : Name} (h : c ∉ l) (r : Name) :
    splitOnceChar c (l ++ c :: r) = some (l, r) := by
  induction l with
  | nil => simp [splitOnceChar]
  | cons a l ih =>
    rw [List.mem_cons, not_or] at h
    simp [splitOnceChar, Ne.symm h.1, ih h.2]

/-- A text without the first character of another is not split by it. -/
theorem splitOnce_eq_none {c : Char} {pat text : Name} (h : c ∉ text) :
    splitOnce (c :: pat) text = none := by
  induction text with
  | nil => simp [splitOnce]
  | cons a text ih =>
    rw [List.mem_cons, not_or] at h
    simp [splitOnce, List.isPrefixOf, h.1, ih h.2]

/-! ## Forms of names -/

/-- The reference of a snapshot. -/
structure WorkspaceRef where
  digest : Name
  bytes : UInt64
  files : UInt32
  generation : UInt64
deriving DecidableEq, Repr

/-- The generation as 16 hex digits, a dash and the digest. -/
def WorkspaceRef.key (head : WorkspaceRef) : Name :=
  hexPad 16 head.generation.toNat ++ '-' :: head.digest

/-- The generation in 16 hex digits. -/
def readGeneration (text : Name) : UInt64 := UInt64.ofNat (fromHex text)

/-- The generation of a snapshot key. -/
def keyGeneration (key : Name) : Option UInt64 :=
  (splitOnceChar '-' key).bind fun (generation, digest) =>
    if ! hexDigits generation 16 || ! hexDigits digest 64 then none
    else some (readGeneration generation)

def resetTag : Name := ['r', 'e', 's', 'e', 't']

/-- The key of the marker that a reset leaves. -/
def resetMarker (below : UInt64) : Name := hexPad 16 below.toNat ++ '-' :: resetTag

/-- The bound in a reset marker. -/
def markerGeneration (key : Name) : Option UInt64 :=
  (splitOnceChar '-' key).bind fun (generation, tag) =>
    if tag ≠ resetTag || ! hexDigits generation 16 then none else some (readGeneration generation)

def scratchInfix : Name := ['.', 't', 'm', 'p', '-']

/-- The key that a scratch name belongs to. -/
def scratchOwner (name : Name) : Option Name :=
  (splitOnce scratchInfix name).bind fun (owner, tag) =>
    let known := (keyGeneration owner).isSome || (markerGeneration owner).isSome
    if known && hexDigits tag 32 then some owner else none

def scratchGeneration (name : Name) : Option UInt64 :=
  (scratchOwner name).bind fun owner => keyGeneration owner <|> markerGeneration owner

/-- The generation of a snapshot key, a reset marker or a scratch name. -/
def nameGeneration (name : Name) : Option UInt64 :=
  keyGeneration name <|> markerGeneration name <|> scratchGeneration name

/-! ## No name has two forms -/

theorem notMem_of_all_isHex {text : Name} {c : Char} (h : text.all isHex) (hc : isHex c = false) :
    c ∉ text := by
  intro hmem
  have := List.all_eq_true.mp h c hmem
  rw [hc] at this
  cases this

theorem splitOnceChar_hexPad (n : Nat) (rest : Name) :
    splitOnceChar '-' (hexPad 16 n ++ '-' :: rest) = some (hexPad 16 n, rest) :=
  splitOnceChar_append (notMem_of_all_isHex (all_isHex_hexPad 16 n) (by decide)) rest

theorem readGeneration_hexPad (generation : UInt64) :
    readGeneration (hexPad 16 generation.toNat) = generation := by
  have hlt : generation.toNat < 16 ^ 16 := generation.toNat_lt
  unfold readGeneration
  rw [fromHex_hexPad hlt, UInt64.ofNat_toNat]

theorem keyGeneration_key {head : WorkspaceRef} (h : hexDigits head.digest 64) :
    keyGeneration head.key = some head.generation := by
  unfold keyGeneration WorkspaceRef.key
  rw [splitOnceChar_hexPad]
  simp only [Option.bind_some, hexDigits_hexPad, h, Bool.not_true, Bool.or_self,
    Bool.false_eq_true, if_false, readGeneration_hexPad]

theorem markerGeneration_resetMarker (below : UInt64) :
    markerGeneration (resetMarker below) = some below := by
  unfold markerGeneration resetMarker
  rw [splitOnceChar_hexPad]
  simp only [Option.bind_some, hexDigits_hexPad, Bool.not_true, ne_eq, not_true_eq_false,
    decide_false, Bool.or_self, Bool.false_eq_true, if_false, readGeneration_hexPad]

theorem keyGeneration_resetMarker (below : UInt64) : keyGeneration (resetMarker below) = none := by
  unfold keyGeneration resetMarker
  rw [splitOnceChar_hexPad]
  have htag : hexDigits resetTag 64 = false := by decide
  simp [htag]

/-- Scratch names have a dot; keys and markers have none. -/
theorem scratchGeneration_of_hexPad (n : Nat) {tail : Name} (h : '.' ∉ tail) :
    scratchGeneration (hexPad 16 n ++ '-' :: tail) = none := by
  have hdot : '.' ∉ hexPad 16 n ++ '-' :: tail := by
    rw [List.mem_append, List.mem_cons]
    rintro (hmem | hmem | hmem)
    · exact notMem_of_all_isHex (all_isHex_hexPad 16 n) (by decide) hmem
    · exact absurd hmem (by decide)
    · exact h hmem
  unfold scratchGeneration scratchOwner scratchInfix
  rw [splitOnce_eq_none hdot]
  rfl

theorem scratchGeneration_key {head : WorkspaceRef} (h : hexDigits head.digest 64) :
    scratchGeneration head.key = none := by
  refine scratchGeneration_of_hexPad _ (notMem_of_all_isHex ?_ (by decide))
  exact ((Bool.and_eq_true _ _).mp h).2

theorem scratchGeneration_resetMarker (below : UInt64) :
    scratchGeneration (resetMarker below) = none :=
  scratchGeneration_of_hexPad _ (by decide)

theorem nameGeneration_key {head : WorkspaceRef} (h : hexDigits head.digest 64) :
    nameGeneration head.key = some head.generation := by
  unfold nameGeneration
  rw [keyGeneration_key h]
  rfl

theorem nameGeneration_resetMarker (below : UInt64) :
    nameGeneration (resetMarker below) = some below := by
  unfold nameGeneration
  rw [keyGeneration_resetMarker, markerGeneration_resetMarker]
  rfl

/-- A key is not a marker. -/
theorem key_ne_resetMarker {head : WorkspaceRef} (h : hexDigits head.digest 64) (below : UInt64) :
    head.key ≠ resetMarker below := by
  intro heq
  have hkey := keyGeneration_key h
  rw [heq, keyGeneration_resetMarker] at hkey
  cases hkey

-- Proofs about calls use the lemmas above, and compare no characters.
attribute [irreducible] WorkspaceRef.key resetMarker

end Harvest.Agent
