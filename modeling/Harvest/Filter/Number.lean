import Harvest.Lib.Decimal
import Harvest.Lib.JsonGrammar

/-!
# Numbers of a filter

A filter compares an attribute with a number, and the number goes to the database as JSON text, so
that no digit is lost. The text is checked with `f64` first. `f64` reads more than JSON writes: a
plus sign, leading zeros, no digits on one side of the point.

Proved here:
* `numberJson_exact`: the JSON text is a JSON number with exactly the value of the text, and which
  texts give none.
-/

namespace Harvest.Filter

open Lib.Decimal (Digits natValue value trimStart trimEnd sign signed)
open Lib.JsonText (IsNumber IsDigits)

abbrev Text := List Char

/-- The length of a text in bytes. -/
def byteLen (text : Text) : Nat := (text.map Char.utf8Size).sum

/-! ## What `f64` reads -/

/-- `str::split_once`. -/
def splitOnce (p : Char → Bool) (text : Text) : Option (Text × Text) :=
  match text.dropWhile (! p ·) with
  | [] => none
  | _ :: after => some (text.takeWhile (! p ·), after)

def isExponentMark (c : Char) : Bool := c == 'e' || c == 'E'

def mantissaExponent (unsigned : Text) : Text × Option Text :=
  match splitOnce isExponentMark unsigned with
  | some (mantissa, exponent) => (mantissa, some exponent)
  | none => (unsigned, none)

def wholeFraction (mantissa : Text) : Text × Text :=
  (splitOnce (· == '.') mantissa).getD (mantissa, [])

def readExponent : Text → Option ℤ
  | '-' :: ds => if ds ≠ [] ∧ Digits ds then some (-natValue ds) else none
  | '+' :: ds => if ds ≠ [] ∧ Digits ds then some (natValue ds) else none
  | ds => if ds ≠ [] ∧ Digits ds then some (natValue ds) else none

/-- The number of digits with a point and an exponent. -/
def scaled (whole fraction : Text) : Option Text → Option ℚ
  | none => some (value whole fraction)
  | some exponent => (readExponent exponent).map fun n => value whole fraction * 10 ^ n

def readUnsigned (unsigned : Text) : Option ℚ :=
  let (mantissa, exponent) := mantissaExponent unsigned
  let (whole, fraction) := wholeFraction mantissa
  if Digits whole ∧ Digits fraction ∧ whole ++ fraction ≠ [] then scaled whole fraction exponent
  else none

/-- The exact number of a text that `f64` reads as a number. -/
def readNumber : Text → Option ℚ
  | '-' :: unsigned => (readUnsigned unsigned).map (-·)
  | '+' :: unsigned => readUnsigned unsigned
  | unsigned => readUnsigned unsigned

/-- From half a step above the greatest `f64` on, a number is read as infinite. -/
def roundsToInfinity (n : ℚ) : Prop := 2 ^ 1024 - 2 ^ 970 ≤ |n|

/-- Up to half of the least `f64` above zero, a number is read as zero. -/
def roundsToZero (n : ℚ) : Prop := |n| * 2 ^ 1075 ≤ 1

instance (n : ℚ) : Decidable (roundsToInfinity n) :=
  inferInstanceAs (Decidable (2 ^ 1024 - 2 ^ 970 ≤ |n|))

instance (n : ℚ) : Decidable (roundsToZero n) := inferInstanceAs (Decidable (|n| * 2 ^ 1075 ≤ 1))

/-! ## JSON numbers -/

/-- A JSON scalar kept as text. -/
abbrev JsonText := Text

def maxNumberLen : Nat := 1024

def isNonzeroDigit (c : Char) : Bool := '1' ≤ c && c ≤ '9'

def stripMinus : Text → Text × Text
  | '-' :: unsigned => (['-'], unsigned)
  | unsigned => ([], unsigned)

def numberJson (text : Text) : Option JsonText :=
  if maxNumberLen < byteLen text then none
  else
    match readNumber text with
    | none => none
    | some n =>
      if roundsToInfinity n then none
      else
        let (sign, unsigned) := stripMinus text
        let (mantissa, exponent) := mantissaExponent unsigned
        let nonzero := mantissa.any isNonzeroDigit
        if roundsToZero n ∧ nonzero then none
        else
          let (whole, fraction) := wholeFraction mantissa
          -- `f64` also reads a plus sign.
          if ¬ (Digits whole ∧ Digits fraction) then none
          else
            let whole := trimStart whole
            some (sign ++ (if whole = [] then ['0'] else whole) ++
              (if fraction = [] then [] else '.' :: fraction) ++
              match exponent.filter fun _ => nonzero with
              | some exponent => 'e' :: exponent
              | none => [])

/-! ## Parts of a number -/

theorem splitOnce_of_forall {p : Char → Bool} {text : Text} (h : ∀ c ∈ text, p c = false) :
    splitOnce p text = none := by
  have hdrop : text.dropWhile (! p ·) = [] := by
    rw [List.dropWhile_eq_nil_iff]
    intro c hc
    rw [h c hc]
    rfl
  rw [splitOnce, hdrop]

theorem splitOnce_append {p : Char → Bool} {before after : Text} {c : Char}
    (h : ∀ c ∈ before, p c = false) (hc : p c = true) :
    splitOnce p (before ++ c :: after) = some (before, after) := by
  have hall : ∀ c ∈ before, (! p c) = true := fun c hc => by rw [h c hc]; rfl
  have hdrop : (before ++ c :: after).dropWhile (! p ·) = c :: after := by
    rw [List.dropWhile_append_of_pos hall, List.dropWhile_cons_of_neg (by simp [hc])]
  have htake : (before ++ c :: after).takeWhile (! p ·) = before := by
    rw [List.takeWhile_append_of_pos hall, List.takeWhile_cons_of_neg (by simp [hc]),
      List.append_nil]
  rw [splitOnce, hdrop]
  simp only [htake]

theorem Digits.not_mark {ds : Text} (h : Digits ds) : ∀ c ∈ ds, isExponentMark c = false := by
  intro c hc
  cases hmark : isExponentMark c with
  | false => rfl
  | true =>
    have hdigit := h c hc
    simp only [isExponentMark, Bool.or_eq_true, beq_iff_eq] at hmark
    rcases hmark with rfl | rfl <;> cases hdigit

theorem Digits.not_point {ds : Text} (h : Digits ds) : ∀ c ∈ ds, (c == '.') = false := by
  intro c hc
  have hdigit := h c hc
  rw [beq_eq_false_iff_ne]
  rintro rfl
  cases hdigit

/-- The point and the digits behind it. -/
def pointed (fraction : Text) : Text := if fraction = [] then [] else '.' :: fraction

theorem wholeFraction_pointed {whole : Text} (hw : Digits whole) (fraction : Text) :
    wholeFraction (whole ++ pointed fraction) = (whole, fraction) := by
  unfold wholeFraction pointed
  split_ifs with hnone
  · rw [List.append_nil, splitOnce_of_forall (Digits.not_point hw), hnone]
    rfl
  · rw [splitOnce_append (Digits.not_point hw) rfl]
    rfl

def marked : Option Text → Text
  | none => []
  | some exponent => 'e' :: exponent

theorem mantissaExponent_marked {whole fraction : Text} (hw : Digits whole) (hf : Digits fraction)
    (exponent : Option Text) :
    mantissaExponent (whole ++ pointed fraction ++ marked exponent) =
      (whole ++ pointed fraction, exponent) := by
  have hmark : ∀ c ∈ whole ++ pointed fraction, isExponentMark c = false := by
    intro c hc
    rcases List.mem_append.mp hc with hc | hc
    · exact Digits.not_mark hw c hc
    · unfold pointed at hc
      split_ifs at hc
      · cases hc
      · rcases List.mem_cons.mp hc with rfl | hc
        · rfl
        · exact Digits.not_mark hf c hc
  unfold mantissaExponent marked
  cases exponent with
  | none => rw [List.append_nil, splitOnce_of_forall hmark]
  | some exponent => rw [splitOnce_append hmark rfl]

/-- What is read of digits, a point and an exponent. -/
theorem readUnsigned_marked {whole fraction : Text} (hw : Digits whole) (hf : Digits fraction)
    (hne : whole ++ fraction ≠ []) (exponent : Option Text) :
    readUnsigned (whole ++ pointed fraction ++ marked exponent) = scaled whole fraction exponent := by
  unfold readUnsigned
  simp only [mantissaExponent_marked hw hf, wholeFraction_pointed hw]
  rw [if_pos ⟨hw, hf, hne⟩]

/-! ## Zeros -/

/-- The whole part of a JSON number. -/
def jsonWhole (whole : Text) : Text := if trimStart whole = [] then ['0'] else trimStart whole

theorem digits_jsonWhole {whole : Text} (h : Digits whole) : Digits (jsonWhole whole) := by
  unfold jsonWhole
  split_ifs
  · exact fun c hc => by rw [List.mem_singleton.mp hc]; rfl
  · exact h.trimStart

theorem jsonWhole_ne_nil (whole : Text) : jsonWhole whole ≠ [] := by
  unfold jsonWhole
  split_ifs with h
  · exact List.cons_ne_nil _ _
  · exact h

/-- No leading zero. -/
theorem jsonWhole_head {whole : Text} (h : (jsonWhole whole).head? = some '0') :
    jsonWhole whole = ['0'] := by
  unfold jsonWhole at h ⊢
  split_ifs at h ⊢ with hnone
  · rfl
  · have hhead := List.head_dropWhile_not (· == '0') hnone
    have hzero : (whole.dropWhile (· == '0')).head hnone = '0' :=
      Option.some.inj ((List.head?_eq_some_head hnone).symm.trans h)
    rw [hzero] at hhead
    cases hhead

/-- Leading zeros have no value. -/
theorem value_jsonWhole (whole fraction : Text) :
    value (jsonWhole whole) fraction = value whole fraction := by
  obtain ⟨lead, hlead⟩ := Lib.Decimal.exists_zeros_append whole
  have hnumber : ∀ (n : ℕ) (ds : Text),
      natValue (Lib.Decimal.zeros n ++ ds) = natValue ds := fun n ds => by
    rw [Lib.Decimal.natValue_append, Lib.Decimal.natValue_zeros, Nat.zero_mul, Nat.zero_add]
  have hwhole : natValue (whole ++ fraction) = natValue (trimStart whole ++ fraction) := by
    conv_lhs => rw [hlead, List.append_assoc]
    exact hnumber lead _
  unfold value jsonWhole
  rw [hwhole]
  split_ifs with hnone
  · rw [hnone, List.nil_append]
    exact congrArg (fun n : ℕ => (n : ℚ) / 10 ^ fraction.length) (hnumber 1 fraction)
  · rfl

/-- Digits without a digit from 1 to 9 are zeros. -/
theorem any_isNonzeroDigit {ds : Text} (h : Digits ds) :
    ds.any isNonzeroDigit = false ↔ ∀ c ∈ ds, c = '0' := by
  rw [List.any_eq_false]
  refine forall₂_congr fun c hc => ?_
  have hdigit := Lib.Decimal.toNat_of_isDigit (h c hc)
  simp only [isNonzeroDigit, Bool.and_eq_true, decide_eq_true_eq, Char.le_def,
    UInt32.le_iff_toNat_le, ← Char.toNat_inj]
  show ¬ (49 ≤ c.toNat ∧ c.toNat ≤ 57) ↔ c.toNat = 48
  omega

theorem value_eq_zero_iff_any {whole fraction : Text} (hw : Digits whole) (hf : Digits fraction) :
    value whole fraction = 0 ↔
      (whole.any isNonzeroDigit || fraction.any isNonzeroDigit) = false := by
  rw [Bool.or_eq_false_iff, any_isNonzeroDigit hw, any_isNonzeroDigit hf,
    Lib.Decimal.value_eq_zero_iff hw hf]
  simp [trimStart, trimEnd, List.dropWhile_eq_nil_iff, List.rdropWhile_eq_nil_iff]

/-! ## The JSON text -/

theorem splitOnce_eq_some {p : Char → Bool} {text before after : Text}
    (h : splitOnce p text = some (before, after)) :
    ∃ c, p c = true ∧ text = before ++ c :: after := by
  unfold splitOnce at h
  cases hdrop : text.dropWhile (! p ·) with
  | nil =>
    rw [hdrop] at h
    cases h
  | cons c rest =>
    rw [hdrop] at h
    simp only [Option.some.injEq, Prod.mk.injEq] at h
    obtain ⟨rfl, rfl⟩ := h
    have hne : text.dropWhile (! p ·) ≠ [] := by simp [hdrop]
    have hhead := List.head_dropWhile_not (! p ·) hne
    simp only [hdrop, List.head_cons] at hhead
    refine ⟨c, by simpa using hhead, ?_⟩
    rw [← hdrop]
    exact List.takeWhile_append_dropWhile.symm

theorem any_wholeFraction (mantissa : Text) :
    mantissa.any isNonzeroDigit = ((wholeFraction mantissa).1.any isNonzeroDigit ||
      (wholeFraction mantissa).2.any isNonzeroDigit) := by
  unfold wholeFraction
  cases hsplit : splitOnce (· == '.') mantissa with
  | none => simp
  | some parts =>
    obtain ⟨c, hc, hmantissa⟩ := splitOnce_eq_some hsplit
    rw [beq_iff_eq] at hc
    subst hc
    rw [Option.getD_some]
    conv_lhs => rw [hmantissa]
    rw [List.any_append, List.any_cons]
    rfl

/-- A text that is read has its parts. -/
theorem parts_of_readUnsigned {unsigned : Text} {n : ℚ} (h : readUnsigned unsigned = some n) :
    ∃ mantissa whole fraction exponent, mantissaExponent unsigned = (mantissa, exponent) ∧
      wholeFraction mantissa = (whole, fraction) ∧ Digits whole ∧ Digits fraction ∧
      scaled whole fraction exponent = some n := by
  unfold readUnsigned at h
  rcases hmantissa : mantissaExponent unsigned with ⟨mantissa, exponent⟩
  rcases hwhole : wholeFraction mantissa with ⟨whole, fraction⟩
  simp only [hmantissa, hwhole] at h
  split_ifs at h with hparts
  exact ⟨mantissa, whole, fraction, exponent, rfl, hwhole, hparts.1, hparts.2.1, h⟩

/-- What the JSON text is made of. -/
def jsonUnsigned (whole fraction : Text) (exponent : Option Text) : Text :=
  jsonWhole whole ++ pointed fraction ++
    marked (exponent.filter fun _ => whole.any isNonzeroDigit || fraction.any isNonzeroDigit)

/-- The JSON text has the value of the digits, the point and the exponent. -/
theorem readUnsigned_jsonUnsigned {whole fraction : Text} (hw : Digits whole) (hf : Digits fraction)
    {exponent : Option Text} {n : ℚ} (h : scaled whole fraction exponent = some n) :
    readUnsigned (jsonUnsigned whole fraction exponent) = some n ∧
      (n = 0 ↔ (whole.any isNonzeroDigit || fraction.any isNonzeroDigit) = false) := by
  have hne : jsonWhole whole ++ fraction ≠ [] :=
    List.append_ne_nil_of_left_ne_nil (jsonWhole_ne_nil whole) _
  rw [jsonUnsigned, readUnsigned_marked (digits_jsonWhole hw) hf hne]
  cases hexponent : exponent with
  | none =>
    rw [hexponent, scaled, Option.some.injEq] at h
    rw [Option.filter_none, scaled, value_jsonWhole, h, ← value_eq_zero_iff_any hw hf, h]
    exact ⟨rfl, Iff.rfl⟩
  | some text =>
    rw [hexponent, scaled, Option.map_eq_some_iff] at h
    obtain ⟨e, he, rfl⟩ := h
    have hpower : (10 : ℚ) ^ e ≠ 0 := zpow_ne_zero e (by decide)
    rw [mul_eq_zero_iff_right hpower, ← value_eq_zero_iff_any hw hf]
    refine ⟨?_, Iff.rfl⟩
    by_cases hzero : value whole fraction = 0
    · rw [Option.filter_some, (value_eq_zero_iff_any hw hf).mp hzero]
      simp [scaled, value_jsonWhole, hzero]
    · have hany := mt (value_eq_zero_iff_any hw hf).mpr hzero
      rw [Bool.not_eq_false] at hany
      rw [Option.filter_some, hany]
      simp [scaled, value_jsonWhole, he]

theorem isDigits_of_digits {ds : Text} (h : Digits ds) (hne : ds ≠ []) : IsDigits ds := by
  refine ⟨hne, fun c hc => ?_⟩
  obtain ⟨hlow, hhigh⟩ := Lib.Decimal.toNat_of_isDigit (h c hc)
  have hall : ∀ n < 10, Char.ofNat (48 + n) ∈ Lib.JsonText.digits := by decide
  have hmem := hall (c.toNat - 48) (by omega)
  rwa [show 48 + (c.toNat - 48) = c.toNat by omega, Char.ofNat_toNat] at hmem

/-- An exponent that is read is one that JSON writes. -/
theorem isDigits_of_readExponent {exponent : Text} {n : ℤ} (h : readExponent exponent = some n) :
    ∃ sign ds, (sign = [] ∨ sign = ['+'] ∨ sign = ['-']) ∧ IsDigits ds ∧ exponent = sign ++ ds := by
  unfold readExponent at h
  split at h <;> split_ifs at h with hds
  · exact ⟨['-'], _, .inr (.inr rfl), isDigits_of_digits hds.2 hds.1, rfl⟩
  · exact ⟨['+'], _, .inr (.inl rfl), isDigits_of_digits hds.2 hds.1, rfl⟩
  · exact ⟨[], _, .inl rfl, isDigits_of_digits hds.2 hds.1, rfl⟩

theorem isNumber_jsonUnsigned {whole fraction sign : Text} (hw : Digits whole)
    (hf : Digits fraction) (hsign : sign = [] ∨ sign = ['-']) {exponent : Option Text} {n : ℚ}
    (h : scaled whole fraction exponent = some n) :
    IsNumber (sign ++ jsonUnsigned whole fraction exponent) := by
  refine ⟨sign, jsonWhole whole, pointed fraction, marked (exponent.filter fun _ =>
    whole.any isNonzeroDigit || fraction.any isNonzeroDigit), ?_, hsign,
    isDigits_of_digits (digits_jsonWhole hw) (jsonWhole_ne_nil whole), jsonWhole_head, ?_, ?_⟩
  · rw [jsonUnsigned, List.append_assoc, List.append_assoc, List.append_assoc]
  · unfold pointed
    split_ifs with hnone
    · exact .inl rfl
    · exact .inr ⟨fraction, isDigits_of_digits hf hnone, rfl⟩
  · cases exponent with
    | none => exact .inl rfl
    | some exponent =>
      rw [Option.filter_some]
      split
      · obtain ⟨e, he, -⟩ := Option.map_eq_some_iff.mp h
        obtain ⟨esign, ds, hesign, hds, rfl⟩ := isDigits_of_readExponent he
        exact .inr ⟨'e', esign, ds, .inl rfl, hesign, hds, rfl⟩
      · exact .inl rfl

/-- The JSON text of a text in range, by its parts. -/
theorem numberJson_of_readNumber {text sign unsigned mantissa whole fraction : Text}
    {exponent : Option Text} {n : ℚ} (hlength : byteLen text ≤ maxNumberLen)
    (hread : readNumber text = some n) (hfinite : ¬ roundsToInfinity n)
    (hsign : stripMinus text = (sign, unsigned))
    (hmantissa : mantissaExponent unsigned = (mantissa, exponent))
    (hwhole : wholeFraction mantissa = (whole, fraction)) :
    numberJson text =
      if roundsToZero n ∧ (whole.any isNonzeroDigit || fraction.any isNonzeroDigit) = true then none
      else if Digits whole ∧ Digits fraction then
        some (sign ++ jsonUnsigned whole fraction exponent)
      else none := by
  have hany := any_wholeFraction mantissa
  rw [hwhole] at hany
  unfold numberJson
  simp only [if_neg (Nat.not_lt.mpr hlength), hread, if_neg hfinite, hsign, hmantissa, hwhole, hany,
    ite_not]
  refine if_congr Iff.rfl rfl (if_congr Iff.rfl ?_ rfl)
  rw [jsonUnsigned, ← List.append_assoc, ← List.append_assoc]
  cases exponent.filter fun _ => whole.any isNonzeroDigit || fraction.any isNonzeroDigit <;> rfl

/-! ## Signs -/

/-- No sign stands in front. -/
def Unsigned (text : Text) : Prop := text.head? ≠ some '-' ∧ text.head? ≠ some '+'

theorem sign_cases (text : Text) :
    (∃ rest, text = '+' :: rest) ∨
    ∃ negative unsigned, text = sign negative ++ unsigned ∧ (negative = true ∨ Unsigned unsigned) := by
  cases text with
  | nil => exact .inr ⟨false, [], rfl, .inr ⟨by simp, by simp⟩⟩
  | cons c rest =>
    by_cases hplus : c = '+'
    · exact .inl ⟨rest, by rw [hplus]⟩
    · by_cases hminus : c = '-'
      · exact .inr ⟨true, rest, by rw [hminus]; rfl, .inl rfl⟩
      · exact .inr ⟨false, c :: rest, rfl, .inr ⟨by simpa using hminus, by simpa using hplus⟩⟩

theorem head_sign_ne {negative : Bool} {unsigned : Text} (h : negative = true ∨ Unsigned unsigned) :
    (sign negative ++ unsigned).head? ≠ some '+' := by
  cases negative with
  | true =>
    show some '-' ≠ some '+'
    decide
  | false => exact (h.resolve_left Bool.false_ne_true).2

theorem stripMinus_sign {negative : Bool} {unsigned : Text}
    (h : negative = true ∨ Unsigned unsigned) :
    stripMinus (sign negative ++ unsigned) = (sign negative, unsigned) := by
  cases negative with
  | true => rfl
  | false =>
    have hhead := h.resolve_left Bool.false_ne_true
    show stripMinus unsigned = ([], unsigned)
    unfold stripMinus
    split
    · exact absurd rfl hhead.1
    · rfl

theorem readNumber_sign {negative : Bool} {unsigned : Text}
    (h : negative = true ∨ Unsigned unsigned) :
    readNumber (sign negative ++ unsigned) = (readUnsigned unsigned).map (signed negative) := by
  cases negative with
  | true => rfl
  | false =>
    have hhead := h.resolve_left Bool.false_ne_true
    have hid : signed false = id := rfl
    rw [hid, Option.map_id]
    show readNumber unsigned = readUnsigned unsigned
    unfold readNumber
    split
    · exact absurd rfl hhead.1
    · exact absurd rfl hhead.2
    · rfl

theorem unsigned_jsonUnsigned {whole : Text} (hw : Digits whole) (fraction : Text)
    (exponent : Option Text) : Unsigned (jsonUnsigned whole fraction exponent) := by
  have hdigit : ∀ c ∈ (jsonUnsigned whole fraction exponent).head?, c.isDigit = true := by
    intro c hc
    cases hjson : jsonWhole whole with
    | nil => exact absurd hjson (jsonWhole_ne_nil whole)
    | cons d rest =>
      rw [jsonUnsigned, hjson] at hc
      cases hc
      exact digits_jsonWhole hw c (by simp [hjson])
  have hnot : ∀ c, c.isDigit = false → (jsonUnsigned whole fraction exponent).head? ≠ some c :=
    fun c hc hhead => Bool.false_ne_true (hc.symm.trans (hdigit c hhead))
  exact ⟨hnot '-' rfl, hnot '+' rfl⟩

theorem head_takeWhile_plus {p : Char → Bool} (hp : p '+' = false) (rest : Text) :
    (('+' :: rest).takeWhile (! p ·)) = '+' :: rest.takeWhile (! p ·) :=
  List.takeWhile_cons_of_pos (by simp [hp])

/-- A text in front of a split starts as the whole text does. -/
theorem exists_splitOnce_plus {p : Char → Bool} (hp : p '+' = false) (rest : Text) :
    ∃ tail, ((splitOnce p ('+' :: rest)).map (·.1)).getD ('+' :: rest) = '+' :: tail := by
  unfold splitOnce
  split
  · exact ⟨rest, rfl⟩
  · exact ⟨_, head_takeWhile_plus hp rest⟩

theorem plus_mem_whole (rest : Text) :
    '+' ∈ (wholeFraction (mantissaExponent ('+' :: rest)).1).1 := by
  obtain ⟨tail, htail⟩ : ∃ tail, (mantissaExponent ('+' :: rest)).1 = '+' :: tail := by
    obtain ⟨tail, htail⟩ := @exists_splitOnce_plus isExponentMark rfl rest
    refine ⟨tail, ?_⟩
    rw [← htail, mantissaExponent]
    cases splitOnce isExponentMark ('+' :: rest) <;> rfl
  obtain ⟨whole, hwhole⟩ := @exists_splitOnce_plus (· == '.') rfl tail
  have hfirst : (wholeFraction ('+' :: tail)).1 = '+' :: whole := by
    rw [← hwhole, wholeFraction]
    cases splitOnce (· == '.') ('+' :: tail) <;> rfl
  rw [htail, hfirst]
  exact List.mem_cons_self

/-- A plus sign is not written in JSON. -/
theorem numberJson_plus (rest : Text) : numberJson ('+' :: rest) = none := by
  by_cases hlength : maxNumberLen < byteLen ('+' :: rest)
  · rw [numberJson, if_pos hlength]
  · cases hread : readNumber ('+' :: rest) with
    | none => simp [numberJson, hlength, hread]
    | some n =>
      by_cases hfinite : roundsToInfinity n
      · simp [numberJson, hlength, hread, hfinite]
      · have hplus : ¬ Digits (wholeFraction (mantissaExponent ('+' :: rest)).1).1 := fun h =>
          Bool.false_ne_true (h '+' (plus_mem_whole rest))
        rw [numberJson_of_readNumber (Nat.not_lt.mp hlength) hread hfinite rfl rfl rfl]
        split_ifs
        · rfl
        · next hdigits => exact absurd hdigits.1 hplus
        · rfl

/-- The JSON text of a text without a plus sign. -/
theorem numberJson_sign {negative : Bool} {unsigned : Text} {m : ℚ}
    (hform : negative = true ∨ Unsigned unsigned)
    (hlength : byteLen (sign negative ++ unsigned) ≤ maxNumberLen)
    (hread : readUnsigned unsigned = some m) (hfinite : ¬ roundsToInfinity (signed negative m)) :
    (roundsToZero (signed negative m) ∧ signed negative m ≠ 0 ∧
      numberJson (sign negative ++ unsigned) = none) ∨
    ((roundsToZero (signed negative m) → signed negative m = 0) ∧
      ∃ json, numberJson (sign negative ++ unsigned) = some json ∧ IsNumber json ∧
        readNumber json = some (signed negative m)) := by
  have hnumber : readNumber (sign negative ++ unsigned) = some (signed negative m) := by
    rw [readNumber_sign hform, hread]
    rfl
  obtain ⟨mantissa, whole, fraction, exponent, hmantissa, hwhole, hw, hf, hscaled⟩ :=
    parts_of_readUnsigned hread
  obtain ⟨hback, hzero⟩ := readUnsigned_jsonUnsigned hw hf hscaled
  rw [numberJson_of_readNumber hlength hnumber hfinite (stripMinus_sign hform) hmantissa hwhole,
    ne_eq, Lib.Decimal.signed_eq_zero_iff, hzero, Bool.not_eq_false]
  by_cases hlost : roundsToZero (signed negative m) ∧
      (whole.any isNonzeroDigit || fraction.any isNonzeroDigit) = true
  · exact .inl ⟨hlost.1, hlost.2, if_pos hlost⟩
  · refine .inr ⟨fun htiny => ?_, sign negative ++ jsonUnsigned whole fraction exponent, ?_,
      isNumber_jsonUnsigned hw hf ?_ hscaled, ?_⟩
    · exact Bool.eq_false_iff.mpr fun hany => hlost ⟨htiny, hany⟩
    · rw [if_neg hlost, if_pos ⟨hw, hf⟩]
    · cases negative
      · exact .inl rfl
      · exact .inr rfl
    · rw [readNumber_sign (.inr (unsigned_jsonUnsigned hw _ _)), hback]
      rfl

/-- **Numbers.** -/
theorem numberJson_exact (text : Text) :
    (∀ json, numberJson text = some json → IsNumber json ∧
      ∃ n, readNumber text = some n ∧ readNumber json = some n ∧ ¬ roundsToInfinity n ∧
        (roundsToZero n → n = 0)) ∧
    (numberJson text = none ↔ maxNumberLen < byteLen text ∨ text.head? = some '+' ∨
      ∀ n, readNumber text = some n → roundsToInfinity n ∨ (roundsToZero n ∧ n ≠ 0)) := by
  have hrefused : ∀ {p : Prop}, numberJson text = none → p →
      (∀ json, numberJson text = some json → IsNumber json ∧
        ∃ n, readNumber text = some n ∧ readNumber json = some n ∧ ¬ roundsToInfinity n ∧
          (roundsToZero n → n = 0)) ∧ (numberJson text = none ↔ p) := fun hnone hp =>
    ⟨fun _ hjson => absurd (hnone.symm.trans hjson) (Option.some_ne_none _).symm, fun _ => hp,
      fun _ => hnone⟩
  rcases sign_cases text with ⟨rest, rfl⟩ | ⟨negative, unsigned, rfl, hform⟩
  · exact hrefused (numberJson_plus rest) (.inr (.inl rfl))
  · by_cases hlength : maxNumberLen < byteLen (sign negative ++ unsigned)
    · exact hrefused (if_pos hlength) (.inl hlength)
    · have hnumber := readNumber_sign hform
      cases hread : readUnsigned unsigned with
      | none =>
        rw [hread, Option.map_none] at hnumber
        refine hrefused ?_ (.inr (.inr fun n hn => ?_))
        · rw [numberJson, if_neg hlength, hnumber]
        · rw [hnumber] at hn
          cases hn
      | some m =>
        rw [hread, Option.map_some] at hnumber
        by_cases hfinite : roundsToInfinity (signed negative m)
        · refine hrefused ?_ (.inr (.inr fun n hn => ?_))
          · rw [numberJson, if_neg hlength, hnumber]
            exact if_pos hfinite
          · rw [hnumber, Option.some.injEq] at hn
            exact .inl (hn ▸ hfinite)
        · rcases numberJson_sign hform (Nat.not_lt.mp hlength) hread hfinite with
            ⟨htiny, hne, hnone⟩ | ⟨hkept, json, hjson, hform', hback⟩
          · refine hrefused hnone (.inr (.inr fun n hn => ?_))
            rw [hnumber, Option.some.injEq] at hn
            exact .inr (hn ▸ ⟨htiny, hne⟩)
          · rw [hjson, hnumber]
            refine ⟨fun other hother => ?_, fun h => (Option.some_ne_none _ h).elim, fun h => ?_⟩
            · cases hother
              exact ⟨hform', _, rfl, hback, hfinite, hkept⟩
            · rcases h with hlong | hplus | hlost
              · exact absurd hlong hlength
              · exact absurd hplus (head_sign_ne hform)
              · rcases hlost _ rfl with hinfinite | ⟨htiny, hne⟩
                · exact absurd hinfinite hfinite
                · exact absurd (hkept htiny) hne

end Harvest.Filter
