import Harvest.Lib.Decimal
import Harvest.Lib.JsonGrammar
import Harvest.Wasm.Accepted

/-!
# Vote keys of numbers

Model of `fit_key`, `last_number`, `canonical_decimal` and `number_text` in `sampling/vote.rs`.
Answers are compared by their keys, and the key of a number is its exact value in plain decimals.
`number_text` reads the text of a JSON number, `last_number` reads the last number of any answer.

Texts are lists of characters. The bytes that the source compares are ASCII, so it is the same to
compare characters. `char::is_alphanumeric` is a parameter.

Proved here:
* `isNumber_iff`: the numbers of the model are the numbers of the JSON grammar.
* `numberText_spec`: the key of a JSON number is the shortest plain decimal of its value, or there
  is none because that is too long.
* `lastNumber_eq`: what `last_number` finds in a JSON number without an exponent.
* `vote_keys_of_numbers_are_canonical`: keys tell numbers apart by their values alone.
-/

namespace Harvest.Agent.Vote

open Harvest.Lib Harvest.Lib.Decimal

/-! ## Keys -/

def maxKeyBytes : ℕ := 1024

/-- The key, unless it is empty or too long as JSON text. -/
def fitKey (key : String) : Option String :=
  let fits := (Wasm.writeString key).utf8ByteSize ≤ maxKeyBytes + 2
  if key ≠ "" ∧ fits then some key else none

/-- No leading zeros, no trailing fraction zeros and no `-0`. -/
def canonicalDecimal (negative : Bool) (whole fraction : List Char) : String :=
  let whole := trimStart whole
  let fraction := trimEnd fraction
  let sign := if negative && !(whole == [] && fraction == []) then ['-'] else []
  let point := if fraction = [] then [] else '.' :: fraction
  String.ofList (sign ++ ((if whole = [] then ['0'] else whole) ++ point))

/-! ## The last number of an answer -/

/-- Whether a comma and exactly three digits follow. -/
def isGroup : List Char → Bool
  | ',' :: a :: b :: c :: rest =>
    a.isDigit && b.isDigit && c.isDigit && !rest.head?.any Char.isDigit
  | _ => false

theorem length_tail_of_isGroup {text : List Char} (h : isGroup text = true) :
    text.tail.length < text.length := by
  cases text with
  | nil => exact absurd h Bool.false_ne_true
  | cons c rest => exact Nat.lt_succ_self _

theorem length_dropWhile_isDigit_le (text : List Char) :
    (text.dropWhile Char.isDigit).length ≤ text.length :=
  (List.dropWhile_suffix _).length_le

/-- The digits of the groups from here on, and what follows them. -/
def groups (text : List Char) : List Char × List Char :=
  if _hgroup : isGroup (text.dropWhile Char.isDigit) = true then
    let next := groups (text.dropWhile Char.isDigit).tail
    (text.takeWhile Char.isDigit ++ next.1, next.2)
  else (text.takeWhile Char.isDigit, text.dropWhile Char.isDigit)
termination_by text.length
decreasing_by exact (length_tail_of_isGroup _hgroup).trans_le (length_dropWhile_isDigit_le text)

/-- A number of an answer, and what follows it. -/
structure Reading where
  negative : Bool
  whole : List Char
  fraction : List Char
  rest : List Char

section LastNumber

variable (isAlphanumeric : Char → Bool)

/-- The number that begins with the first digit of `text`. What stands before it is given last
character first. -/
def readNumber (before text : List Char) : Reading :=
  let (whole, rest) := groups text
  let negative := fun before : List Char =>
    before.head? == some '-' && !before.tail.head?.any isAlphanumeric
  if before.head? = some '.' ∧ before.tail.head?.any Char.isDigit = false then
    ⟨negative before.tail, [], whole, rest⟩
  else if rest.head? = some '.' ∧ rest.tail.head?.any Char.isDigit = true then
    ⟨negative before, whole, rest.tail.takeWhile Char.isDigit, rest.tail.dropWhile Char.isDigit⟩
  else ⟨negative before, whole, [], rest⟩

theorem length_groups_le (text : List Char) :
    (groups text).2.length ≤ (text.dropWhile Char.isDigit).length := by
  induction text using groups.induct with
  | case1 text h ih =>
    rw [groups, dif_pos h]
    exact ih.trans ((length_dropWhile_isDigit_le _).trans (length_tail_of_isGroup h).le)
  | case2 text h =>
    rw [groups, dif_neg h]

theorem length_readNumber_lt (before : List Char) {c : Char} (hc : c.isDigit = true)
    (text : List Char) :
    (readNumber isAlphanumeric before (c :: text)).rest.length < (c :: text).length := by
  have hgroups : (groups (c :: text)).2.length ≤ text.length := by
    refine (length_groups_le (c :: text)).trans ?_
    rw [List.dropWhile_cons_of_pos hc]
    exact length_dropWhile_isDigit_le text
  have hfraction := length_dropWhile_isDigit_le (groups (c :: text)).2.tail
  rw [List.length_tail] at hfraction
  rw [List.length_cons]
  simp only [readNumber]
  split_ifs
  · exact Nat.lt_succ_of_le hgroups
  · show ((groups (c :: text)).2.tail.dropWhile Char.isDigit).length < text.length + 1
    omega
  · exact Nat.lt_succ_of_le hgroups

/-- The loop over an answer: the last number read so far, or the last of what follows. -/
def scanNumbers (before : List Char) (last : Option Reading) : List Char → Option Reading
  | [] => last
  | c :: text =>
    if _hdigit : c.isDigit = true then
      let number := readNumber isAlphanumeric before (c :: text)
      let read := (c :: text).take ((c :: text).length - number.rest.length)
      scanNumbers (read.reverse ++ before) (some number) number.rest
    else scanNumbers (c :: before) last text
termination_by text => text.length
decreasing_by
  · exact length_readNumber_lt isAlphanumeric before _hdigit text
  · exact Nat.lt_succ_self _

/-- The last decimal number of an answer, in canonical form. -/
def lastNumber (answer : String) : Option String :=
  (scanNumbers isAlphanumeric [] none answer.toList).map fun number =>
    canonicalDecimal number.negative number.whole number.fraction

end LastNumber

/-! ## The text of a JSON number -/

/-- An `i64`, if the number is one. -/
def checked (n : ℤ) : Option ℤ := if -2 ^ 63 ≤ n ∧ n < 2 ^ 63 then some n else none

def stripSign : List Char → Bool × List Char
  | '+' :: ds => (false, ds)
  | '-' :: ds => (true, ds)
  | ds => (false, ds)

/-- `str::parse::<i64>` -/
def parseI64 (text : List Char) : Option ℤ :=
  let (negative, ds) := stripSign text
  if ds ≠ [] ∧ ds.all Char.isDigit = true then
    checked (if negative then -(natValue ds : ℤ) else natValue ds)
  else none

def isMark (c : Char) : Bool := c == 'e' || c == 'E'

/-- The mantissa and the exponent. -/
def splitExponent (text : List Char) : Option (List Char × ℤ) :=
  match text.dropWhile (!isMark ·) with
  | [] => some (text, 0)
  | _ :: exponent => (parseI64 exponent).map fun n => (text.takeWhile (!isMark ·), n)

/-- `split_once('.')`, or everything before the point. -/
def splitPoint (mantissa : List Char) : List Char × List Char :=
  (mantissa.takeWhile (· != '.'), (mantissa.dropWhile (· != '.')).tail)

/-- The digits with the point `point` digits after the first. -/
def placePoint (digits : List Char) (point : ℤ) : List Char × List Char :=
  if point ≤ 0 then ([], zeros (-point).toNat ++ digits)
  else if digits.length ≤ point then (digits ++ zeros (point - digits.length).toNat, [])
  else (digits.take point.toNat, digits.drop point.toNat)

/-- The decimal form of the parts of a number. -/
def partsText (negative : Bool) (whole fraction : List Char) (exponent : ℤ) : Option String := do
  let digits := trimStart (whole ++ fraction)
  if digits = [] then return "0"
  let skipped ← checked ((whole ++ fraction).length - digits.length : ℕ)
  let wholeLen ← checked whole.length
  let shifted ← checked (wholeLen + exponent)
  let point ← checked (shifted - skipped)
  let _count ← checked digits.length
  if (maxKeyBytes : ℤ) < point ∨ point < -maxKeyBytes then none
  let (whole, fraction) := placePoint digits point
  return canonicalDecimal negative whole fraction

def stripMinus : List Char → Bool × List Char
  | '-' :: rest => (true, rest)
  | rest => (false, rest)

def numberText (text : String) : Option String := do
  let (negative, rest) := stripMinus text.toList
  let (mantissa, exponent) ← splitExponent rest
  let (whole, fraction) := splitPoint mantissa
  partsText negative whole fraction exponent

/-! ## JSON numbers -/

/-- An exponent as it is written. -/
structure Exponent where
  mark : Char
  sign : List Char
  digits : List Char
  isMark_mark : mark = 'e' ∨ mark = 'E'
  sign_cases : sign = [] ∨ sign = ['+'] ∨ sign = ['-']
  digits_ne_nil : digits ≠ []
  digits_digits : Digits digits

def Exponent.text (e : Exponent) : List Char := e.mark :: (e.sign ++ e.digits)

def Exponent.value (e : Exponent) : ℤ :=
  if e.sign = ['-'] then -(natValue e.digits : ℤ) else natValue e.digits

/-- The text of a JSON number, in parts. -/
structure JsonNumber where
  negative : Bool
  whole : List Char
  fraction : List Char
  exponent : Option Exponent
  whole_ne_nil : whole ≠ []
  whole_digits : Digits whole
  no_leading_zero : whole.head? = some '0' → whole = ['0']
  fraction_digits : Digits fraction

namespace JsonNumber

def exponentText (n : JsonNumber) : List Char := n.exponent.elim [] Exponent.text

def exponentValue (n : JsonNumber) : ℤ := n.exponent.elim 0 Exponent.value

def text (n : JsonNumber) : List Char :=
  sign n.negative ++ n.whole ++ pointed n.fraction ++ n.exponentText

/-- The exact value. -/
def value (n : JsonNumber) : ℚ :=
  signed n.negative (Decimal.value n.whole n.fraction * (10 : ℚ) ^ n.exponentValue)

/-- The text is shorter than `2^31` bytes, and the exponent fits `i64`. -/
structure InRange (n : JsonNumber) : Prop where
  bytes_lt : (String.ofList n.text).utf8ByteSize < 2 ^ 31
  exponent_ge : -2 ^ 63 ≤ n.exponentValue
  exponent_lt : n.exponentValue < 2 ^ 63

end JsonNumber

theorem mem_digits_iff (c : Char) : c ∈ JsonText.digits ↔ c.isDigit = true := by
  constructor
  · exact JsonText.forall_mem_of_all (p := fun c => c.isDigit = true) (by decide) c
  · intro h
    obtain ⟨hlow, hhigh⟩ := toNat_of_isDigit h
    have hofNat : ∀ n < 10, Char.ofNat (48 + n) ∈ JsonText.digits := by decide
    have hmem := hofNat (c.toNat - 48) (by omega)
    rwa [Nat.add_sub_cancel' hlow, Char.ofNat_toNat] at hmem

theorem isDigits_iff (text : List Char) : JsonText.IsDigits text ↔ text ≠ [] ∧ Digits text :=
  and_congr_right fun _ => forall₂_congr fun c _ => mem_digits_iff c

/-- The numbers of the grammar, in parts. -/
theorem isNumber_iff (text : List Char) :
    JsonText.IsNumber text ↔ ∃ n : JsonNumber, n.text = text := by
  constructor
  · rintro ⟨sign, whole, fraction, exponent, rfl, hsign, hwhole, hzero, hfraction, hexponent⟩
    obtain ⟨hne, hdigits⟩ := (isDigits_iff whole).mp hwhole
    obtain ⟨negative, rfl⟩ : ∃ negative, Decimal.sign negative = sign := by
      rcases hsign with rfl | rfl
      · exact ⟨false, rfl⟩
      · exact ⟨true, rfl⟩
    obtain ⟨ds, hds, rfl⟩ : ∃ ds, Digits ds ∧ pointed ds = fraction := by
      rcases hfraction with rfl | ⟨ds, hds, rfl⟩
      · exact ⟨[], fun _ hc => absurd hc List.not_mem_nil, rfl⟩
      · obtain ⟨hds, hdigits⟩ := (isDigits_iff ds).mp hds
        exact ⟨ds, hdigits, if_neg hds⟩
    obtain ⟨e, rfl⟩ : ∃ e : Option Exponent, e.elim [] Exponent.text = exponent := by
      rcases hexponent with rfl | ⟨mark, esign, eds, hmark, hesign, heds, rfl⟩
      · exact ⟨none, rfl⟩
      · obtain ⟨hne, hdigits⟩ := (isDigits_iff eds).mp heds
        exact ⟨some ⟨mark, esign, eds, hmark, hesign, hne, hdigits⟩, rfl⟩
    exact ⟨⟨negative, whole, ds, e, hne, hdigits, hzero, hds⟩, rfl⟩
  · rintro ⟨n, rfl⟩
    refine ⟨sign n.negative, n.whole, pointed n.fraction, n.exponentText, rfl, ?_,
      (isDigits_iff _).mpr ⟨n.whole_ne_nil, n.whole_digits⟩, n.no_leading_zero, ?_, ?_⟩
    · cases n.negative with
      | false => exact .inl rfl
      | true => exact .inr rfl
    · unfold pointed
      split_ifs with h
      · exact .inl rfl
      · exact .inr ⟨n.fraction, (isDigits_iff _).mpr ⟨h, n.fraction_digits⟩, rfl⟩
    · unfold JsonNumber.exponentText
      cases n.exponent with
      | none => exact .inl rfl
      | some e =>
        exact .inr ⟨e.mark, e.sign, e.digits, e.isMark_mark, e.sign_cases,
          (isDigits_iff _).mpr ⟨e.digits_ne_nil, e.digits_digits⟩, rfl⟩

/-! ## Keys of plain decimals -/

theorem canonicalDecimal_eq {negative : Bool} {whole fraction : List Char} (hw : Digits whole)
    (hf : Digits fraction) :
    canonicalDecimal negative whole fraction =
      String.ofList (Plain.canonical negative whole fraction hw hf).text :=
  rfl

/-- The characters of a plain decimal are written as they are, in one byte each. -/
theorem plain_char {c : Char} (h : c = '-' ∨ c = '.' ∨ c.isDigit = true) :
    Wasm.escapes c = 0 ∧ c.utf8Size = 1 := by
  have hcode : c.toNat = 45 ∨ c.toNat = 46 ∨ 48 ≤ c.toNat ∧ c.toNat ≤ 57 := by
    rcases h with rfl | rfl | h
    · exact .inl rfl
    · exact .inr (.inl rfl)
    · exact .inr (.inr (toNat_of_isDigit h))
  refine ⟨?_, Wasm.utf8Size_of_ascii (by omega)⟩
  unfold Wasm.escapes
  rw [if_neg, if_neg (by omega)]
  simp only [List.mem_cons, List.not_mem_nil, or_false]
  omega

theorem mem_plain_text (p : Plain) : ∀ c ∈ p.text, c = '-' ∨ c = '.' ∨ c.isDigit = true := by
  intro c hc
  rcases List.mem_append.mp hc with hsign | hrest
  · unfold sign at hsign
    split_ifs at hsign
    · exact .inl (List.mem_singleton.mp hsign)
    · exact absurd hsign List.not_mem_nil
  · rcases List.mem_append.mp hrest with hwhole | hpointed
    · exact .inr (.inr (p.whole_digits c hwhole))
    · unfold pointed at hpointed
      split_ifs at hpointed
      · exact absurd hpointed List.not_mem_nil
      · rcases List.mem_cons.mp hpointed with rfl | hfraction
        · exact .inr (.inl rfl)
        · exact .inr (.inr (p.fraction_digits c hfraction))

theorem utf8ByteSize_plain (p : Plain) : (String.ofList p.text).utf8ByteSize = p.text.length :=
  Wasm.utf8ByteSize_of_ascii fun c hc => (plain_char (mem_plain_text p c hc)).2

/-- The key of a plain decimal is the decimal, unless it is too long. -/
theorem fitKey_plain (p : Plain) :
    fitKey (String.ofList p.text) =
      if p.text.length ≤ maxKeyBytes then some (String.ofList p.text) else none := by
  have hne : String.ofList p.text ≠ "" := by
    intro h
    have hnil := congrArg String.toList h
    rw [String.toList_ofList] at hnil
    exact p.whole_ne_nil (List.append_eq_nil_iff.mp (List.append_eq_nil_iff.mp hnil).2).1
  have hescapes : (p.text.map Wasm.escapes).sum = 0 := by
    have hzero : ∀ c ∈ p.text, Wasm.escapes c = 0 := fun c hc =>
      (plain_char (mem_plain_text p c hc)).1
    rw [List.map_congr_left hzero, List.map_const', List.sum_replicate_nat, Nat.mul_zero]
  have hlength : (Wasm.writeString (String.ofList p.text)).utf8ByteSize = p.text.length + 2 := by
    rw [Wasm.utf8ByteSize_writeString, Wasm.escapedLen, utf8ByteSize_plain, String.toList_ofList,
      hescapes]
  unfold fitKey
  simp only [hlength, hne, ne_eq, not_false_eq_true, true_and, Nat.add_le_add_iff_right]

/-! ## The point -/

section Point

variable {digits : List Char} (hdigits : Digits digits) (point : ℤ)
include hdigits

theorem digits_placePoint :
    Digits (placePoint digits point).1 ∧ Digits (placePoint digits point).2 := by
  have hnone : Digits [] := fun _ hc => absurd hc List.not_mem_nil
  unfold placePoint
  split_ifs
  · exact ⟨hnone, (digits_zeros _).append hdigits⟩
  · exact ⟨hdigits.append (digits_zeros _), hnone⟩
  · exact ⟨fun c hc => hdigits c (List.mem_of_mem_take hc),
      fun c hc => hdigits c (List.mem_of_mem_drop hc)⟩

omit hdigits in
/-- The digits keep their number, and the point its place. -/
theorem value_placePoint :
    Decimal.value (placePoint digits point).1 (placePoint digits point).2 =
      natValue digits * (10 : ℚ) ^ (point - digits.length) := by
  have hdiv : ∀ k : ℕ, (natValue digits : ℚ) / 10 ^ k = natValue digits * (10 : ℚ) ^ (-(k : ℤ)) := by
    intro k
    rw [zpow_neg, zpow_natCast, div_eq_mul_inv]
  unfold placePoint Decimal.value
  split_ifs with hleft hright
  · rw [List.nil_append, natValue_append, natValue_zeros, Nat.zero_mul, Nat.zero_add, hdiv]
    congr 2
    rw [List.length_append, zeros, List.length_replicate]
    omega
  · rw [List.append_nil, natValue_append, natValue_zeros, Nat.add_zero, zeros,
      List.length_replicate, List.length_nil, pow_zero, div_one, Nat.cast_mul, Nat.cast_pow,
      Nat.cast_ofNat, ← zpow_natCast]
    congr 2
    omega
  · rw [List.take_append_drop, hdiv, List.length_drop]
    congr 2
    omega

end Point

/-- Digits that begin with another digit than zero. -/
def Significant (digits : List Char) : Prop := ∃ c rest, c ≠ '0' ∧ digits = c :: rest

theorem significant_trimStart {ds : List Char} (h : trimStart ds ≠ []) :
    Significant (trimStart ds) := by
  have hhead : ((trimStart ds).head h == '0') = false := List.head_dropWhile_not (· == '0') h
  exact ⟨_, _, by simpa using hhead, (List.cons_head_tail h).symm⟩

namespace Significant

variable {digits : List Char} (h : Significant digits)
include h

theorem trimStart_append (rest : List Char) : trimStart (digits ++ rest) = digits ++ rest := by
  obtain ⟨c, ds, hc, rfl⟩ := h
  simp [trimStart, hc]

theorem trimEnd_ne_nil : trimEnd digits ≠ [] := by
  obtain ⟨c, ds, hc, rfl⟩ := h
  intro hnil
  have hzero := List.rdropWhile_eq_nil_iff.mp hnil c List.mem_cons_self
  exact hc (by simpa using hzero)

theorem take {k : ℕ} (hk : 0 < k) : Significant (digits.take k) := by
  obtain ⟨c, ds, hc, rfl⟩ := h
  obtain ⟨k, rfl⟩ := Nat.exists_eq_succ_of_ne_zero hk.ne'
  exact ⟨c, ds.take k, hc, rfl⟩

/-- Zeros in front of significant digits of a fraction are not trimmed. -/
theorem length_trimEnd_zeros_append (k : ℕ) : k < (trimEnd (zeros k ++ digits)).length := by
  obtain ⟨n, hn⟩ := exists_append_zeros digits
  have hkept : trimEnd (zeros k ++ trimEnd digits) = zeros k ++ trimEnd digits := by
    refine List.rdropWhile_eq_self_iff.mpr fun _ => ?_
    rw [List.getLast_append_of_ne_nil _ h.trimEnd_ne_nil]
    exact List.rdropWhile_last_not _ _ h.trimEnd_ne_nil
  have hsame : trimEnd (zeros k ++ digits) = zeros k ++ trimEnd digits := by
    conv_lhs => rw [hn, ← List.append_assoc, trimEnd_append_zeros, hkept]
  have hpos := List.length_pos_iff.mpr h.trimEnd_ne_nil
  rw [hsame, List.length_append, zeros, List.length_replicate]
  omega

end Significant

theorem length_pointed (fraction : List Char) : fraction.length ≤ (pointed fraction).length := by
  unfold pointed
  split_ifs with h
  · simp [h]
  · exact Nat.le_succ _

/-- A canonical text is as long as its trimmed parts. -/
theorem length_canonical {negative : Bool} {whole fraction : List Char} (hw : Digits whole)
    (hf : Digits fraction) :
    (trimStart whole).length + (trimEnd fraction).length ≤
      (Plain.canonical negative whole fraction hw hf).text.length := by
  have hwhole : (trimStart whole).length ≤
      (if trimStart whole = [] then ['0'] else trimStart whole).length := by
    split_ifs with h
    · simp [h]
    · exact le_rfl
  have hfraction := length_pointed (trimEnd fraction)
  unfold Plain.text Plain.canonical
  rw [List.length_append, List.length_append]
  dsimp only
  omega

/-- A point far from the digits makes a long text. -/
theorem Significant.length_placePoint {digits : List Char} (h : Significant digits)
    (hdigits : Digits digits) (negative : Bool) (point : ℤ) :
    point.natAbs ≤ (Plain.canonical negative (placePoint digits point).1 (placePoint digits point).2
      (digits_placePoint hdigits point).1 (digits_placePoint hdigits point).2).text.length := by
  refine le_trans ?_ (length_canonical _ _)
  unfold placePoint
  split_ifs with hleft hright
  · have hlong := h.length_trimEnd_zeros_append (-point).toNat
    dsimp only
    omega
  · rw [h.trimStart_append, List.length_append, zeros, List.length_replicate]
    omega
  · have hkept := (h.take (k := point.toNat) (by omega)).trimStart_append []
    rw [List.append_nil] at hkept
    rw [hkept, List.length_take]
    omega

/-! ## The text of a number -/

theorem checked_of_fits {n : ℤ} (hlow : -2 ^ 63 ≤ n) (hhigh : n < 2 ^ 63) : checked n = some n :=
  if_pos ⟨hlow, hhigh⟩

theorem checked_eq_some {n m : ℤ} (h : checked n = some m) : m = n := by
  unfold checked at h
  split_ifs at h
  exact (Option.some.inj h).symm

/-- How many digits stand before the point, counted from the first significant digit. -/
def pointOf (whole fraction : List Char) (exponent : ℤ) : ℤ :=
  whole.length + exponent -
    ((whole ++ fraction).length - (trimStart (whole ++ fraction)).length : ℕ)

section Parts

variable {whole fraction : List Char} (negative : Bool) {exponent : ℤ}

/-- No overflow is missed: a sum that does not fit puts the point out of reach. -/
theorem partsText_eq (hsignificant : trimStart (whole ++ fraction) ≠ [])
    (hlength : whole.length + fraction.length < 2 ^ 31)
    (hlow : -2 ^ 63 ≤ exponent) (hhigh : exponent < 2 ^ 63) :
    partsText negative whole fraction exponent =
      if maxKeyBytes < (pointOf whole fraction exponent).natAbs then none
      else
        let parts := placePoint (trimStart (whole ++ fraction)) (pointOf whole fraction exponent)
        some (canonicalDecimal negative parts.1 parts.2) := by
  have htrim : (trimStart (whole ++ fraction)).length ≤ whole.length + fraction.length := by
    rw [← List.length_append]
    exact (List.dropWhile_suffix _).length_le
  have hskipped := checked_of_fits
    (n := ((whole ++ fraction).length - (trimStart (whole ++ fraction)).length : ℕ))
    (by omega) (by rw [List.length_append]; omega)
  have hwhole := checked_of_fits (n := (whole.length : ℤ)) (by omega) (by omega)
  have hcount := checked_of_fits (n := ((trimStart (whole ++ fraction)).length : ℤ)) (by omega)
    (by omega)
  have hlimits : maxKeyBytes < (pointOf whole fraction exponent).natAbs ↔
      (maxKeyBytes : ℤ) < pointOf whole fraction exponent ∨
        pointOf whole fraction exponent < -maxKeyBytes := by
    omega
  unfold partsText
  simp only [hsignificant, if_false, hskipped, hwhole, hcount, Option.bind_eq_bind,
    Option.bind_some]
  by_cases hfar : maxKeyBytes < (pointOf whole fraction exponent).natAbs
  · rw [if_pos hfar]
    cases hshifted : checked (whole.length + exponent) with
    | none => rfl
    | some shifted =>
      rw [Option.bind_some, checked_eq_some hshifted]
      cases hpoint : checked (whole.length + exponent -
          ((whole ++ fraction).length - (trimStart (whole ++ fraction)).length : ℕ)) with
      | none => rfl
      | some point =>
        rw [Option.bind_some, checked_eq_some hpoint]
        exact if_pos (hlimits.mp hfar)
  · have hnear : (pointOf whole fraction exponent).natAbs ≤ 1024 := Nat.not_lt.mp hfar
    have hshifted := checked_of_fits (n := whole.length + exponent)
      (by unfold pointOf at hnear; omega)
      (by unfold pointOf at hnear; rw [List.length_append] at hnear; omega)
    have hpoint := checked_of_fits (n := pointOf whole fraction exponent) (by omega) (by omega)
    rw [if_neg hfar, hshifted, Option.bind_some, ← pointOf, hpoint, Option.bind_some,
      if_neg (fun h => hfar (hlimits.mpr h))]
    rfl

/-- The digits without the leading zeros, at their place. -/
theorem value_parts :
    Decimal.value whole fraction * (10 : ℚ) ^ exponent =
      Decimal.value
        (placePoint (trimStart (whole ++ fraction)) (pointOf whole fraction exponent)).1
        (placePoint (trimStart (whole ++ fraction)) (pointOf whole fraction exponent)).2 := by
  have hnumber : natValue (whole ++ fraction) = natValue (trimStart (whole ++ fraction)) := by
    obtain ⟨n, hn⟩ := exists_zeros_append (whole ++ fraction)
    conv_lhs => rw [hn, natValue_append, natValue_zeros, Nat.zero_mul, Nat.zero_add]
  have htrim : (trimStart (whole ++ fraction)).length ≤ (whole ++ fraction).length :=
    (List.dropWhile_suffix _).length_le
  have hplace : pointOf whole fraction exponent - (trimStart (whole ++ fraction)).length =
      -(fraction.length : ℤ) + exponent := by
    unfold pointOf
    rw [List.length_append] at htrim ⊢
    omega
  rw [value_placePoint, hplace, Decimal.value, hnumber, zpow_add₀ (by decide), zpow_neg,
    zpow_natCast]
  ring

theorem canonicalDecimal_placePoint_nil (point : ℤ) :
    canonicalDecimal negative (placePoint [] point).1 (placePoint [] point).2 = "0" := by
  have hzeros : ∀ j k, canonicalDecimal negative (zeros j) (zeros k) = "0" := by
    intro j k
    have hstart : trimStart (zeros j) = [] := by
      rw [← List.append_nil (zeros j), trimStart_zeros_append]
      rfl
    have hend : trimEnd (zeros k) = [] := trimEnd_append_zeros [] k
    unfold canonicalDecimal
    rw [hstart, hend]
    cases negative <;> rfl
  unfold placePoint
  split_ifs with hleft hright
  · rw [List.append_nil]
    exact hzeros 0 _
  · exact hzeros _ 0
  · exact absurd (Int.le_of_lt (Int.not_le.mp hleft)) hright

/-- The key of the parts of a number is the shortest form of its value. -/
theorem partsText_spec (hw : Digits whole) (hf : Digits fraction)
    (hlength : whole.length + fraction.length < 2 ^ 31)
    (hlow : -2 ^ 63 ≤ exponent) (hhigh : exponent < 2 ^ 63) :
    ∃ form, Plain.IsShortest
        (signed negative (Decimal.value whole fraction * (10 : ℚ) ^ exponent)) form ∧
      (partsText negative whole fraction exponent).bind fitKey =
        if (String.ofList form).utf8ByteSize ≤ maxKeyBytes then some (String.ofList form)
        else none := by
  have hdigits : Digits (trimStart (whole ++ fraction)) := (hw.append hf).trimStart
  have hparts := digits_placePoint hdigits (pointOf whole fraction exponent)
  have hshortest := @Plain.isShortest_canonical negative _ _ hparts.1 hparts.2
  rw [← value_parts] at hshortest
  refine ⟨_, hshortest, ?_⟩
  rw [utf8ByteSize_plain, ← fitKey_plain, ← canonicalDecimal_eq]
  by_cases hzero : trimStart (whole ++ fraction) = []
  · have hsmall : partsText negative whole fraction exponent = some "0" := by
      unfold partsText
      simp only [hzero, if_true]
      rfl
    rw [hsmall, Option.bind_some, hzero, canonicalDecimal_placePoint_nil]
  · rw [partsText_eq negative hzero hlength hlow hhigh]
    split_ifs with hfar
    · have hlong := (significant_trimStart hzero).length_placePoint hdigits negative
        (pointOf whole fraction exponent)
      rw [canonicalDecimal_eq hparts.1 hparts.2, fitKey_plain, if_neg (by omega)]
      rfl
    · rfl

end Parts

/-! ## Reading a JSON number -/

theorem stripSign_of_digits {ds : List Char} (h : Digits ds) : stripSign ds = (false, ds) := by
  unfold stripSign
  split
  · exact absurd (h '+' List.mem_cons_self) (by decide)
  · exact absurd (h '-' List.mem_cons_self) (by decide)
  · rfl

theorem parseI64_exponent (e : Exponent) (hlow : -2 ^ 63 ≤ e.value) (hhigh : e.value < 2 ^ 63) :
    parseI64 (e.sign ++ e.digits) = some e.value := by
  have hall : e.digits ≠ [] ∧ e.digits.all Char.isDigit = true :=
    ⟨e.digits_ne_nil, List.all_eq_true.mpr e.digits_digits⟩
  have hstrip : stripSign (e.sign ++ e.digits) = (decide (e.sign = ['-']), e.digits) := by
    rcases e.sign_cases with hsign | hsign | hsign <;> rw [hsign]
    · exact stripSign_of_digits e.digits_digits
    · rfl
    · rfl
  have hvalue : (if decide (e.sign = ['-']) = true then -(natValue e.digits : ℤ)
      else natValue e.digits) = e.value := by
    simp only [decide_eq_true_eq, Exponent.value]
  simp only [parseI64, hstrip, if_pos hall, hvalue]
  exact checked_of_fits hlow hhigh

theorem stripMinus_sign (negative : Bool) {whole : List Char} (hne : whole ≠ [])
    (hw : Digits whole) (rest : List Char) :
    stripMinus (sign negative ++ (whole ++ rest)) = (negative, whole ++ rest) := by
  cases negative with
  | true => rfl
  | false =>
    show stripMinus (whole ++ rest) = (false, whole ++ rest)
    have hhead := @Plain.head_digits_ne_minus whole rest hne hw
    unfold stripMinus
    split
    · rename_i hcons
      exact absurd (congrArg List.head? hcons) hhead
    · rfl

/-- The characters of a mantissa are no exponent marks. -/
theorem not_isMark_mantissa {whole fraction : List Char} (hw : Digits whole) (hf : Digits fraction) :
    ∀ c ∈ whole ++ pointed fraction, (!isMark c) = true := by
  have hdigit : ∀ c : Char, c.isDigit = true → (!isMark c) = true := by
    intro c hc
    have he : c ≠ 'e' := by
      rintro rfl
      exact absurd hc (by decide)
    have hE : c ≠ 'E' := by
      rintro rfl
      exact absurd hc (by decide)
    simp [isMark, he, hE]
  intro c hc
  rcases List.mem_append.mp hc with hwhole | hpointed
  · exact hdigit c (hw c hwhole)
  · unfold pointed at hpointed
    split_ifs at hpointed
    · exact absurd hpointed List.not_mem_nil
    · rcases List.mem_cons.mp hpointed with rfl | hfraction
      · rfl
      · exact hdigit c (hf c hfraction)

theorem splitExponent_mantissa (n : JsonNumber) (hlow : -2 ^ 63 ≤ n.exponentValue)
    (hhigh : n.exponentValue < 2 ^ 63) :
    splitExponent (n.whole ++ pointed n.fraction ++ n.exponentText) =
      some (n.whole ++ pointed n.fraction, n.exponentValue) := by
  have hmantissa := not_isMark_mantissa n.whole_digits n.fraction_digits
  unfold splitExponent
  cases hexponent : n.exponent with
  | none =>
    have htext : n.exponentText = [] := by rw [JsonNumber.exponentText, hexponent]; rfl
    have hvalue : n.exponentValue = 0 := by rw [JsonNumber.exponentValue, hexponent]; rfl
    obtain ⟨-, hdrop⟩ := @Plain.span_of_forall _ _ [] hmantissa (by simp)
    rw [htext, hdrop, List.append_nil, hvalue]
  | some e =>
    have htext : n.exponentText = e.mark :: (e.sign ++ e.digits) := by
      rw [JsonNumber.exponentText, hexponent]; rfl
    have hvalue : n.exponentValue = e.value := by rw [JsonNumber.exponentValue, hexponent]; rfl
    have hmark : ∀ c ∈ (e.mark :: (e.sign ++ e.digits)).head?, (!isMark c) = false := by
      intro c hc
      rw [← Option.some.inj hc]
      rcases e.isMark_mark with h | h <;> rw [h] <;> rfl
    obtain ⟨htake, hdrop⟩ := Plain.span_of_forall hmantissa hmark
    rw [hvalue] at hlow hhigh
    rw [htext, htake, hdrop, hvalue]
    simp only [parseI64_exponent e hlow hhigh, Option.map_some]

theorem splitPoint_mantissa {whole fraction : List Char} (hw : Digits whole) :
    splitPoint (whole ++ pointed fraction) = (whole, fraction) := by
  have hnoPoint : ∀ c ∈ whole, (c != '.') = true := by
    intro c hc
    have hdigit := hw c hc
    refine bne_iff_ne.mpr ?_
    rintro rfl
    exact absurd hdigit (by decide)
  have hpoint : ∀ c ∈ (pointed fraction).head?, (c != '.') = false := by
    unfold pointed
    split_ifs
    · exact fun c hc => absurd hc (by simp)
    · intro c hc
      rw [← Option.some.inj hc]
      rfl
  obtain ⟨htake, hdrop⟩ := Plain.span_of_forall hnoPoint hpoint
  unfold splitPoint
  rw [htake, hdrop]
  unfold pointed
  split_ifs with h
  · rw [h]
    rfl
  · rfl

/-- A JSON number is read in its parts. -/
theorem numberText_eq (n : JsonNumber) (hrange : n.InRange) :
    numberText (String.ofList n.text) =
      partsText n.negative n.whole n.fraction n.exponentValue := by
  have hstrip : stripMinus n.text =
      (n.negative, n.whole ++ pointed n.fraction ++ n.exponentText) := by
    have hsplit : n.text = sign n.negative ++ (n.whole ++ (pointed n.fraction ++ n.exponentText)) := by
      simp only [JsonNumber.text, List.append_assoc]
    rw [hsplit, stripMinus_sign _ n.whole_ne_nil n.whole_digits, List.append_assoc]
  unfold numberText
  simp only [String.toList_ofList, hstrip,
    splitExponent_mantissa n hrange.exponent_ge hrange.exponent_lt, Option.bind_eq_bind,
    Option.bind_some, splitPoint_mantissa n.whole_digits]

theorem JsonNumber.InRange.length_lt {n : JsonNumber} (h : n.InRange) :
    n.whole.length + n.fraction.length < 2 ^ 31 := by
  have hbytes : n.text.length ≤ (String.ofList n.text).utf8ByteSize := by
    rw [Wasm.utf8ByteSize_ofList, ← List.length_map (f := Char.utf8Size)]
    refine List.length_le_sum_of_one_le _ fun size hsize => ?_
    obtain ⟨c, -, rfl⟩ := List.mem_map.mp hsize
    exact c.utf8Size_pos
  have hpointed : n.fraction.length ≤ (pointed n.fraction).length := length_pointed n.fraction
  have hlt := hbytes.trans_lt h.bytes_lt
  simp only [JsonNumber.text, List.length_append] at hlt
  omega

/-- The key of a JSON number is the shortest form of its value, unless that is too long. -/
theorem numberText_spec (n : JsonNumber) (hrange : n.InRange) :
    ∃ form, Plain.IsShortest n.value form ∧
      (numberText (String.ofList n.text)).bind fitKey =
        if (String.ofList form).utf8ByteSize ≤ maxKeyBytes then some (String.ofList form)
        else none := by
  rw [numberText_eq n hrange]
  exact partsText_spec n.negative n.whole_digits n.fraction_digits hrange.length_lt
    hrange.exponent_ge hrange.exponent_lt

/-! ## The last number of a JSON number -/

section Last

variable (isAlphanumeric : Char → Bool)

theorem groups_mantissa {whole fraction : List Char} (hw : Digits whole) :
    groups (whole ++ pointed fraction) = (whole, pointed fraction) := by
  obtain ⟨htake, hdrop⟩ := Plain.span_of_forall hw (Plain.not_isDigit_pointed fraction)
  have hgroup : ¬isGroup (pointed fraction) = true := by
    unfold pointed
    split_ifs
    · exact Bool.false_ne_true
    · exact Bool.false_ne_true
  rw [groups, htake, hdrop, dif_neg hgroup]

theorem readNumber_mantissa (negative : Bool) {whole fraction : List Char} (hw : Digits whole)
    (hf : Digits fraction) :
    readNumber isAlphanumeric (sign negative) (whole ++ pointed fraction) =
      ⟨negative, whole, fraction, []⟩ := by
  have hnegative : ((sign negative).head? == some '-' &&
      !(sign negative).tail.head?.any isAlphanumeric) = negative := by
    cases negative <;> rfl
  have hbefore : ¬((sign negative).head? = some '.' ∧
      (sign negative).tail.head?.any Char.isDigit = false) := by
    cases negative <;> simp [sign]
  simp only [readNumber, groups_mantissa hw, hnegative, if_neg hbefore]
  unfold pointed
  cases fraction with
  | nil => rfl
  | cons c fraction =>
    obtain ⟨hc, -⟩ := List.forall_mem_cons.mp hf
    obtain ⟨htake, hdrop⟩ := @Plain.span_of_forall _ _ [] hf (by simp)
    rw [List.append_nil] at htake hdrop
    have hpoint : (('.' :: c :: fraction).head? = some '.' ∧
        ('.' :: c :: fraction).tail.head?.any Char.isDigit = true) := ⟨rfl, hc⟩
    rw [if_neg (List.cons_ne_nil c fraction), if_pos hpoint, List.tail_cons, htake, hdrop]

/-- A JSON number without an exponent is one number, the last. -/
theorem lastNumber_eq (n : JsonNumber) (hexponent : n.exponent = none) :
    lastNumber isAlphanumeric (String.ofList n.text) =
      some (canonicalDecimal n.negative n.whole n.fraction) := by
  have htext : n.text = sign n.negative ++ (n.whole ++ pointed n.fraction) := by
    rw [JsonNumber.text, JsonNumber.exponentText, hexponent, Option.elim_none, List.append_nil,
      List.append_assoc]
  have hread := readNumber_mantissa isAlphanumeric n.negative n.whole_digits n.fraction_digits
  have hwhole : scanNumbers isAlphanumeric (sign n.negative) none
      (n.whole ++ pointed n.fraction) = some ⟨n.negative, n.whole, n.fraction, []⟩ := by
    obtain ⟨c, ds, hcons⟩ := List.exists_cons_of_ne_nil n.whole_ne_nil
    have hc : c.isDigit = true := n.whole_digits c (by rw [hcons]; exact List.mem_cons_self)
    rw [hcons, List.cons_append] at hread ⊢
    rw [scanNumbers, dif_pos hc, hread, scanNumbers]
  have hscan : scanNumbers isAlphanumeric [] none n.text =
      some ⟨n.negative, n.whole, n.fraction, []⟩ := by
    rw [htext]
    cases hnegative : n.negative with
    | false =>
      rw [hnegative] at hwhole
      exact hwhole
    | true =>
      rw [hnegative] at hwhole
      show scanNumbers isAlphanumeric [] none ('-' :: (n.whole ++ pointed n.fraction)) = _
      rw [scanNumbers, dif_neg (by decide)]
      exact hwhole
  rw [lastNumber, String.toList_ofList, hscan]
  rfl

/-- Both readers give a number without an exponent the same key. -/
theorem lastNumber_key_eq (n : JsonNumber) (hrange : n.InRange) (hexponent : n.exponent = none) :
    (lastNumber isAlphanumeric (String.ofList n.text)).bind fitKey =
      (numberText (String.ofList n.text)).bind fitKey := by
  obtain ⟨form, hform, hkey⟩ := numberText_spec n hrange
  have hvalue : n.value = signed n.negative (Decimal.value n.whole n.fraction) := by
    rw [JsonNumber.value, JsonNumber.exponentValue, hexponent, Option.elim_none, zpow_zero, mul_one]
  have hcanonical := @Plain.isShortest_canonical n.negative _ _ n.whole_digits n.fraction_digits
  rw [← hvalue] at hcanonical
  rw [hkey, Plain.isShortest_unique hform hcanonical, utf8ByteSize_plain,
    lastNumber_eq isAlphanumeric n hexponent, Option.bind_some,
    canonicalDecimal_eq n.whole_digits n.fraction_digits, fitKey_plain]

end Last

/-- The key of a JSON number. -/
def numberKey (n : JsonNumber) : Option String := (numberText (String.ofList n.text)).bind fitKey

/-- Keys of JSON numbers are the shortest plain decimals of their values, and tell numbers apart by
their values alone; the last number of an answer that is a number without an exponent has the same
key. -/
theorem vote_keys_of_numbers_are_canonical (isAlphanumeric : Char → Bool) :
    (∀ n : JsonNumber, n.InRange → ∃ form, Plain.IsShortest n.value form ∧
      numberKey n = if (String.ofList form).utf8ByteSize ≤ maxKeyBytes then
        some (String.ofList form) else none) ∧
    (∀ m n : JsonNumber, m.InRange → n.InRange → numberKey m ≠ none ∨ numberKey n ≠ none →
      (numberKey m = numberKey n ↔ m.value = n.value)) ∧
    ∀ n : JsonNumber, n.InRange → n.exponent = none →
      (lastNumber isAlphanumeric (String.ofList n.text)).bind fitKey = numberKey n := by
  refine ⟨numberText_spec, ?_, lastNumber_key_eq isAlphanumeric⟩
  intro m n hm hn hsome
  obtain ⟨form, hform, hkey⟩ := numberText_spec m hm
  obtain ⟨form', hform', hkey'⟩ := numberText_spec n hn
  unfold numberKey at hsome ⊢
  rw [hkey, hkey'] at hsome ⊢
  constructor
  · intro hsame
    have hforms : form = form' := by
      split_ifs at hsame hsome with hshort hshort' hshort'
      · exact String.ofList_injective (Option.some.inj hsame)
      · exact absurd rfl (hsome.elim id id)
    rw [← hforms] at hform'
    exact Plain.value_eq_of_isShortest hform hform'
  · intro hvalue
    rw [hvalue] at hform
    rw [Plain.isShortest_unique hform hform']

/-- `15` -/
def fifteen : JsonNumber :=
  ⟨false, ['1', '5'], [], none, by decide, by decide, by decide, by decide⟩

/-- `1.50e1` -/
def scaledFifteen : JsonNumber :=
  ⟨false, ['1'], ['5', '0'],
    some ⟨'e', [], ['1'], .inl rfl, .inl rfl, by decide, by decide⟩,
    by decide, by decide, by decide, by decide⟩

theorem fifteen_has_one_key :
    (∃ form, Plain.IsShortest scaledFifteen.value form ∧
      numberKey scaledFifteen = if (String.ofList form).utf8ByteSize ≤ maxKeyBytes then
        some (String.ofList form) else none) ∧
    (numberKey scaledFifteen = numberKey fifteen ↔ scaledFifteen.value = fifteen.value) ∧
    (lastNumber Char.isAlphanum (String.ofList fifteen.text)).bind fitKey = numberKey fifteen := by
  have hfifteen : fifteen.InRange := ⟨by decide, by decide, by decide⟩
  have hscaled : scaledFifteen.InRange := ⟨by decide, by decide, by decide⟩
  have hkey : numberKey fifteen ≠ none := by decide +kernel
  obtain ⟨hshortest, hsame, hlast⟩ := vote_keys_of_numbers_are_canonical Char.isAlphanum
  exact ⟨hshortest scaledFifteen hscaled, hsame scaledFifteen fifteen hscaled hfifteen (.inr hkey),
    hlast fifteen hfifteen rfl⟩

end Harvest.Agent.Vote
