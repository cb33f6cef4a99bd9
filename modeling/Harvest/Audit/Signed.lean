import Harvest.Lib.Civil
import Harvest.Audit.Record

/-!
# What the MACed bytes determine

The RFC 3339 text that `chrono` gives a time, and with it the bytes of links and checkpoints
without a parameter.

Proved here:
* `yearChars_inj`: the year, with a sign outside of four digits, is read back from its text.
* `timeChars_inj`: two times have different texts.
* `macBytes_determine_what_is_signed`: the bytes of a link or a checkpoint determine its fields,
  and the two kinds never coincide.
-/

namespace Harvest.Audit

open Harvest.Lib

/-! ## Decimal digits -/

/-- `width` decimal digits. -/
def digits (width n : Nat) : List Char := fixedWidth 10 Nat.digitChar width n

theorem length_digits (width n : Nat) : (digits width n).length = width := length_fixedWidth ..

theorem digits_inj {width m n : Nat} (hm : m < 10 ^ width) (hn : n < 10 ^ width)
    (h : digits width m = digits width n) : m = n := by
  refine fixedWidth_inj (by omega) ?_ hm hn h
  have hdigit : ∀ i j : Fin 10, Nat.digitChar i = Nat.digitChar j → i = j := by decide
  intro i hi j hj heq
  exact congrArg Fin.val (hdigit ⟨i, hi⟩ ⟨j, hj⟩ heq)

theorem not_sign_mem_digits {width n : Nat} {c : Char} (h : c ∈ digits width n) :
    c ≠ '+' ∧ c ≠ '-' := by
  have hdigit : ∀ i : Fin 10, Nat.digitChar i ≠ '+' ∧ Nat.digitChar i ≠ '-' := by decide
  unfold digits at h
  induction width generalizing n with
  | zero => cases h
  | succ width ih =>
    rw [fixedWidth] at h
    rcases List.mem_append.mp h with h | h
    · exact ih h
    · rw [List.mem_singleton.mp h]
      exact hdigit ⟨n % 10, Nat.mod_lt n (by omega)⟩

/-! ## The text of a time -/

/-- At least four digits. -/
def yearWidth (year : Int) : Nat := max 4 (Nat.log 10 year.natAbs + 1)

/-- A year outside of 0 to 9999 has a sign. -/
def yearSign (year : Int) : List Char :=
  if 0 ≤ year ∧ year ≤ 9999 then [] else if 0 ≤ year then ['+'] else ['-']

def yearChars (year : Int) : List Char := yearSign year ++ digits (yearWidth year) year.natAbs

theorem natAbs_lt_yearWidth (year : Int) : year.natAbs < 10 ^ yearWidth year :=
  (Nat.lt_pow_succ_log_self (by omega) year.natAbs).trans_le
    (Nat.pow_le_pow_right (by omega) (le_max_right _ _))

/-- **The year is read back from its text.** -/
theorem yearChars_inj {a b : Int} (h : yearChars a = yearChars b) : a = b := by
  have hdigits {width width' m n : Nat} (hm : m < 10 ^ width) (hn : n < 10 ^ width')
      (heq : digits width m = digits width' n) : m = n := by
    have hwidth := congrArg List.length heq
    rw [length_digits, length_digits] at hwidth
    subst hwidth
    exact digits_inj hm hn heq
  have hsign (year other : Int) (c : Char) (hc : c = '+' ∨ c = '-') (rest : List Char)
      (heq : digits (yearWidth year) other.natAbs = c :: rest) : False := by
    have hnot := @not_sign_mem_digits (yearWidth year) other.natAbs c (heq ▸ List.mem_cons_self)
    rcases hc with rfl | rfl
    · exact hnot.1 rfl
    · exact hnot.2 rfl
  have ha := natAbs_lt_yearWidth a
  have hb := natAbs_lt_yearWidth b
  unfold yearChars yearSign at h
  split_ifs at h with hsmall hsmall' hpos hpos' hsmall' hpos' hsmall' hpos'
  · have habs := hdigits ha hb h
    omega
  · exact (hsign a a _ (Or.inl rfl) _ h).elim
  · exact (hsign a a _ (Or.inr rfl) _ h).elim
  · exact (hsign b b _ (Or.inl rfl) _ h.symm).elim
  · have habs := hdigits ha hb (List.cons.inj h).2
    omega
  · exact absurd (List.cons.inj h).1 (by decide)
  · exact (hsign b b _ (Or.inr rfl) _ h.symm).elim
  · exact absurd (List.cons.inj h).1 (by decide)
  · have habs := hdigits ha hb (List.cons.inj h).2
    omega

def dayMicros : Int := 86400000000

/-- The microsecond of its day. -/
def microOfDay (at_ : Int64) : Nat := (at_.toInt % dayMicros).toNat

/-- What follows the year, always 23 characters. -/
def afterYear (date : CivilDate) (micro : Nat) : List Char :=
  '-' :: (digits 2 date.month ++ '-' :: (digits 2 date.day ++
    'T' :: (digits 2 (micro / 3600000000) ++ ':' :: (digits 2 (micro / 60000000 % 60) ++
      ':' :: (digits 2 (micro / 1000000 % 60) ++ '.' :: (digits 6 (micro % 1000000) ++ ['Z']))))))

/-- `to_rfc3339_opts(Micros, true)` -/
def timeChars (at_ : Int64) : List Char :=
  let date := civilFromDays (at_.toInt / dayMicros)
  yearChars date.year ++ afterYear date (microOfDay at_)

example : String.ofList (timeChars 0) = "1970-01-01T00:00:00.000000Z" := by decide +kernel
example : String.ofList (timeChars 1709210096000007) = "2024-02-29T12:34:56.000007Z" := by
  decide +kernel

theorem length_afterYear (date : CivilDate) (micro : Nat) : (afterYear date micro).length = 23 := by
  simp [afterYear, length_digits]

theorem afterYear_inj {a b : CivilDate} {m n : Nat} (ha : a.month ≤ 12 ∧ a.day ≤ 31)
    (hb : b.month ≤ 12 ∧ b.day ≤ 31) (hm : m < 86400000000) (hn : n < 86400000000)
    (h : afterYear a m = afterYear b n) : a.month = b.month ∧ a.day = b.day ∧ m = n := by
  have hlength (width i j : Nat) : (digits width i).length = (digits width j).length := by
    rw [length_digits, length_digits]
  obtain ⟨hmonth, h⟩ := List.append_inj (List.cons.inj h).2 (hlength _ _ _)
  obtain ⟨hday, h⟩ := List.append_inj (List.cons.inj h).2 (hlength _ _ _)
  obtain ⟨hhour, h⟩ := List.append_inj (List.cons.inj h).2 (hlength _ _ _)
  obtain ⟨hminute, h⟩ := List.append_inj (List.cons.inj h).2 (hlength _ _ _)
  obtain ⟨hsecond, h⟩ := List.append_inj (List.cons.inj h).2 (hlength _ _ _)
  obtain ⟨hmicro, -⟩ := List.append_inj (List.cons.inj h).2 (hlength _ _ _)
  have hmonth := digits_inj (by omega) (by omega) hmonth
  have hday := digits_inj (by omega) (by omega) hday
  have hhour := digits_inj (by omega) (by omega) hhour
  have hminute := digits_inj (by omega) (by omega) hminute
  have hsecond := digits_inj (by omega) (by omega) hsecond
  have hmicro := digits_inj (by omega) (by omega) hmicro
  exact ⟨hmonth, hday, by omega⟩

/-- **Two times have different texts.** -/
theorem timeChars_inj {a b : Int64} (h : timeChars a = timeChars b) : a = b := by
  obtain ⟨hyear, hrest⟩ := List.append_inj' h (by rw [length_afterYear, length_afterYear])
  have hyear := yearChars_inj hyear
  obtain ⟨-, hmontha, -, hdaya⟩ := civilFromDays_bounds (a.toInt / dayMicros)
  obtain ⟨-, hmonthb, -, hdayb⟩ := civilFromDays_bounds (b.toInt / dayMicros)
  have hmicro (at_ : Int64) : microOfDay at_ < 86400000000 := by
    unfold microOfDay dayMicros
    omega
  obtain ⟨hmonth, hday, hsame⟩ := afterYear_inj ⟨hmontha, hdaya⟩ ⟨hmonthb, hdayb⟩ (hmicro a)
    (hmicro b) hrest
  have hdate : a.toInt / dayMicros = b.toInt / dayMicros := by
    refine civilFromDays_inj ?_
    generalize civilFromDays (a.toInt / dayMicros) = x at hyear hmonth hday
    generalize civilFromDays (b.toInt / dayMicros) = y at hyear hmonth hday
    cases x
    cases y
    simp only at hyear hmonth hday
    rw [hyear, hmonth, hday]
  refine Int64.toInt_inj.mp ?_
  unfold microOfDay dayMicros at *
  omega

theorem length_timeChars_le (at_ : Int64) : (timeChars at_).length ≤ 60 := by
  have hyear := natAbs_year_le (at_.toInt / dayMicros)
  have hlow := at_.le_toInt
  have hhigh := at_.toInt_lt
  have hdays : (civilFromDays (at_.toInt / dayMicros)).year.natAbs < 10 ^ 20 := by
    unfold dayMicros at *
    omega
  have hlog : Nat.log 10 (civilFromDays (at_.toInt / dayMicros)).year.natAbs < 20 :=
    Nat.log_lt_of_lt_pow' (by omega) hdays
  have hsign (year : Int) : (yearSign year).length ≤ 1 := by
    unfold yearSign
    split_ifs <;> decide
  have hsigned := hsign (civilFromDays (at_.toInt / dayMicros)).year
  unfold timeChars yearChars
  rw [List.length_append, List.length_append, length_digits, length_afterYear, yearWidth]
  omega

/-- The texts of times as `chrono` writes them. -/
def rfc3339 : TimeText where
  canonicalTime at_ := ⟨String.ofList (timeChars at_), by
    have hsize := utf8ByteSize_le (String.ofList (timeChars at_))
    have hlength := length_timeChars_le at_
    rw [String.length_ofList] at hsize
    unfold absent
    omega⟩
  injective _ _ h := timeChars_inj (String.ofList_injective (congrArg Subtype.val h))

/-- **The MACed bytes determine what is signed.** Two links have the same bytes only if the previous
link, the newest time and all fields of the record are the same, two checkpoints only if shard,
start, head and newest time are, and no link has the bytes of a checkpoint. -/
theorem macBytes_determine_what_is_signed :
    (∀ (prev prev' : ChainHash) (newest newest' : Option Int64) (record record' : AuditExportRecord),
      linkBytes rfc3339 prev newest record = linkBytes rfc3339 prev' newest' record' →
      prev = prev' ∧ newest = newest' ∧ record = record') ∧
    (∀ (shard shard' : Int32) (checkpoint checkpoint' : ChainCheckpoint),
      checkpointBytes shard checkpoint = checkpointBytes shard' checkpoint' →
      shard = shard' ∧ checkpoint = checkpoint') ∧
    ∀ (prev : ChainHash) (newest : Option Int64) (record : AuditExportRecord) (shard : Int32)
      (checkpoint : ChainCheckpoint),
      linkBytes rfc3339 prev newest record ≠ checkpointBytes shard checkpoint := by
  refine ⟨?_, ?_, ?_⟩
  · intro prev prev' newest newest' record record' h
    exact linkBytes_inj rfc3339 h
  · intro shard shard' checkpoint checkpoint' h
    exact checkpointBytes_inj h
  · exact linkBytes_ne_checkpointBytes rfc3339

end Harvest.Audit
