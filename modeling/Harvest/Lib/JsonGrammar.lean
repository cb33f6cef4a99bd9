import Mathlib.Data.List.Basic
import Mathlib.Data.List.Infix

/-!
# The grammar of JSON texts

Texts are lists of characters. A text is white space, a value and white space; the grammar says what
a value is.

A scanner follows the nesting of brackets outside of strings. It comes back to no nesting at the end
of an object and not before, so an object text with more behind it is an object text only when what
is behind it is white space.

Proved here:
* `Grammar.printable`: a JSON text has no control character but its white space.
* `Grammar.scan`: the scanner leaves a value at the nesting at which it entered.
* `IsObject.blank_of_append`: what can follow an object text.
-/

namespace Harvest.Lib.JsonText

/-! ## Characters -/

def quote : Char := Char.ofNat 0x22
def backslash : Char := Char.ofNat 0x5c
def leftBracket : Char := Char.ofNat 0x5b
def rightBracket : Char := Char.ofNat 0x5d
def leftBrace : Char := Char.ofNat 0x7b
def rightBrace : Char := Char.ofNat 0x7d

/-- Space, tab, line feed and carriage return. -/
def blanks : List Char := [Char.ofNat 0x20, Char.ofNat 0x09, Char.ofNat 0x0a, Char.ofNat 0x0d]

def Blank (text : List Char) : Prop := ∀ c ∈ text, c ∈ blanks

def digits : List Char := ['0', '1', '2', '3', '4', '5', '6', '7', '8', '9']

def hexDigits : List Char :=
  digits ++ ['a', 'b', 'c', 'd', 'e', 'f', 'A', 'B', 'C', 'D', 'E', 'F']

/-- What stands behind a backslash, except for a code unit. -/
def shortEscapes : List Char := [quote, backslash, '/', 'b', 'f', 'n', 'r', 't']

/-- A hexadecimal digit is one byte. -/
theorem utf8Size_digitChar {n : ℕ} (h : n < 16) : (Nat.digitChar n).utf8Size = 1 := by
  have hdigits : ∀ n < 16, (Nat.digitChar n).utf8Size = 1 := by decide
  exact hdigits n h

/-- What is tested of each character of a list. -/
theorem forall_mem_of_all {p : Char → Prop} [DecidablePred p] {text : List Char}
    (h : (text.all fun c => p c) = true) : ∀ c ∈ text, p c :=
  fun c hc => of_decide_eq_true (List.all_eq_true.mp h c hc)

/-! ## Grammar -/

/-- The characters of a string, between its quotes. -/
inductive IsChars : List Char → Prop
  | nil : IsChars []
  | plain {c : Char} {rest : List Char} (hcontrol : 0x1f < c.toNat) (hquote : c ≠ quote)
      (hback : c ≠ backslash) (hrest : IsChars rest) : IsChars (c :: rest)
  | short {c : Char} {rest : List Char} (hc : c ∈ shortEscapes) (hrest : IsChars rest) :
      IsChars (backslash :: c :: rest)
  | unit {code rest : List Char} (hlength : code.length = 4) (hcode : ∀ c ∈ code, c ∈ hexDigits)
      (hrest : IsChars rest) : IsChars (backslash :: 'u' :: (code ++ rest))

def IsString (text : List Char) : Prop :=
  ∃ chars, IsChars chars ∧ text = quote :: (chars ++ [quote])

def IsDigits (text : List Char) : Prop := text ≠ [] ∧ ∀ c ∈ text, c ∈ digits

/-- An optional sign, digits without a leading zero, an optional fraction and an optional
exponent. -/
def IsNumber (text : List Char) : Prop :=
  ∃ sign whole fraction exponent, text = sign ++ whole ++ fraction ++ exponent ∧
    (sign = [] ∨ sign = ['-']) ∧
    IsDigits whole ∧ (whole.head? = some '0' → whole = ['0']) ∧
    (fraction = [] ∨ ∃ ds, IsDigits ds ∧ fraction = '.' :: ds) ∧
    (exponent = [] ∨ ∃ e esign ds, (e = 'e' ∨ e = 'E') ∧
      (esign = [] ∨ esign = ['+'] ∨ esign = ['-']) ∧ IsDigits ds ∧ exponent = e :: (esign ++ ds))

def literals : List (List Char) :=
  [['n', 'u', 'l', 'l'], ['t', 'r', 'u', 'e'], ['f', 'a', 'l', 's', 'e']]

/-- The parts of a text. -/
inductive Part
  | value
  /-- A value with white space around it. -/
  | padded
  /-- What stands between the brackets of an array. -/
  | elements
  | member
  /-- What stands between the braces of an object. -/
  | members

inductive Grammar : Part → List Char → Prop
  | literal {text : List Char} (h : text ∈ literals) : Grammar .value text
  | number {text : List Char} (h : IsNumber text) : Grammar .value text
  | string {text : List Char} (h : IsString text) : Grammar .value text
  | emptyArray {ws : List Char} (h : Blank ws) :
      Grammar .value (leftBracket :: (ws ++ [rightBracket]))
  | array {inner : List Char} (h : Grammar .elements inner) :
      Grammar .value (leftBracket :: (inner ++ [rightBracket]))
  | emptyObject {ws : List Char} (h : Blank ws) : Grammar .value (leftBrace :: (ws ++ [rightBrace]))
  | object {inner : List Char} (h : Grammar .members inner) :
      Grammar .value (leftBrace :: (inner ++ [rightBrace]))
  | padded {ws value ws' : List Char} (hws : Blank ws) (hvalue : Grammar .value value)
      (hws' : Blank ws') : Grammar .padded (ws ++ (value ++ ws'))
  | element {value : List Char} (h : Grammar .padded value) : Grammar .elements value
  | elements {first rest : List Char} (hfirst : Grammar .padded first)
      (hrest : Grammar .elements rest) : Grammar .elements (first ++ ',' :: rest)
  | member {ws key ws' value : List Char} (hws : Blank ws) (hkey : IsString key)
      (hws' : Blank ws') (hvalue : Grammar .padded value) :
      Grammar .member (ws ++ (key ++ (ws' ++ ':' :: value)))
  | lastMember {member : List Char} (h : Grammar .member member) : Grammar .members member
  | members {first rest : List Char} (hfirst : Grammar .member first)
      (hrest : Grammar .members rest) : Grammar .members (first ++ ',' :: rest)

/-- A JSON text. -/
def IsJson (text : List Char) : Prop := Grammar .padded text

/-- A JSON text that holds an object. -/
def IsObject (text : List Char) : Prop :=
  ∃ ws core ws', Blank ws ∧ Grammar .value core ∧ core.head? = some leftBrace ∧ Blank ws' ∧
    text = ws ++ (core ++ ws')

theorem IsObject.isJson {text : List Char} (h : IsObject text) : IsJson text := by
  obtain ⟨ws, core, ws', hws, hcore, -, hws', rfl⟩ := h
  exact .padded hws hcore hws'

/-! ## Control characters -/

/-- Only the control characters that are white space. -/
def Printable (text : List Char) : Prop :=
  ∀ c ∈ text, 0x1f < c.toNat ∨ c.toNat ∈ [0x09, 0x0a, 0x0d]

theorem printable_append {a b : List Char} (ha : Printable a) (hb : Printable b) :
    Printable (a ++ b) := by
  intro c hc
  rcases List.mem_append.mp hc with hc | hc
  · exact ha c hc
  · exact hb c hc

theorem printable_cons {c : Char} {text : List Char} (hc : 0x1f < c.toNat) (h : Printable text) :
    Printable (c :: text) := by
  intro d hd
  rcases List.mem_cons.mp hd with rfl | hd
  · exact .inl hc
  · exact h d hd

theorem printable_nil : Printable [] := fun _ h => absurd h List.not_mem_nil

/-- Characters that are all from a list of printable ones. -/
theorem printable_of_forall_mem {allowed text : List Char} (hallowed : Printable allowed)
    (h : ∀ c ∈ text, c ∈ allowed) : Printable text := fun c hc => hallowed c (h c hc)

theorem Blank.printable {text : List Char} (h : Blank text) : Printable text :=
  printable_of_forall_mem (forall_mem_of_all (by decide)) h

theorem IsChars.printable {text : List Char} (h : IsChars text) : Printable text := by
  induction h with
  | nil => exact printable_nil
  | plain hcontrol _ _ _ ih => exact printable_cons hcontrol ih
  | short hc _ ih =>
    have hescapes : ∀ c ∈ shortEscapes, 0x1f < c.toNat := forall_mem_of_all (by decide)
    exact printable_cons (by decide) (printable_cons (hescapes _ hc) ih)
  | unit _ hcode _ ih =>
    have hdigits : Printable hexDigits := forall_mem_of_all (by decide)
    exact printable_cons (by decide)
      (printable_cons (by decide) (printable_append (printable_of_forall_mem hdigits hcode) ih))

theorem IsString.printable {text : List Char} (h : IsString text) : Printable text := by
  obtain ⟨chars, hchars, rfl⟩ := h
  exact printable_cons (by decide)
    (printable_append hchars.printable (printable_cons (by decide) printable_nil))

def numberChars : List Char := digits ++ ['-', '+', '.', 'e', 'E']

theorem IsNumber.mem {text : List Char} (h : IsNumber text) : ∀ c ∈ text, c ∈ numberChars := by
  have hdigit : ∀ {ds : List Char}, IsDigits ds → ∀ c ∈ ds, c ∈ numberChars :=
    fun hds c hc => List.mem_append_left _ (hds.2 c hc)
  obtain ⟨sign, whole, fraction, exponent, rfl, hsign, hwhole, -, hfraction, hexponent⟩ := h
  have hs : ∀ c ∈ sign, c ∈ numberChars := by
    rcases hsign with rfl | rfl <;> exact forall_mem_of_all (by decide)
  have hf : ∀ c ∈ fraction, c ∈ numberChars := by
    rcases hfraction with rfl | ⟨ds, hds, rfl⟩
    · exact forall_mem_of_all (by decide)
    · exact List.forall_mem_cons.mpr ⟨by decide, hdigit hds⟩
  have he : ∀ c ∈ exponent, c ∈ numberChars := by
    rcases hexponent with rfl | ⟨e, esign, ds, he, hesign, hds, rfl⟩
    · exact forall_mem_of_all (by decide)
    · have hmark : e ∈ numberChars := by rcases he with rfl | rfl <;> decide
      have hesign' : ∀ c ∈ esign, c ∈ numberChars := by
        rcases hesign with rfl | rfl | rfl <;> exact forall_mem_of_all (by decide)
      exact List.forall_mem_cons.mpr ⟨hmark, List.forall_mem_append.mpr ⟨hesign', hdigit hds⟩⟩
  simp only [List.forall_mem_append]
  exact ⟨⟨⟨hs, hdigit hwhole⟩, hf⟩, he⟩

theorem IsNumber.printable {text : List Char} (h : IsNumber text) : Printable text :=
  printable_of_forall_mem (forall_mem_of_all (by decide)) h.mem

/-- **No control character but white space** is in a JSON text. -/
theorem Grammar.printable {part : Part} {text : List Char} (h : Grammar part text) :
    Printable text := by
  have hclose : ∀ c : Char, 0x1f < c.toNat → Printable [c] :=
    fun c hc => printable_cons hc printable_nil
  induction h with
  | literal h =>
    have hliterals : literals.all (fun text => text.all fun c => 0x1f < c.toNat) = true := by decide
    exact fun c hc => .inl (forall_mem_of_all (List.all_eq_true.mp hliterals _ h) c hc)
  | number h => exact h.printable
  | string h => exact h.printable
  | emptyArray h =>
    exact printable_cons (by decide) (printable_append h.printable (hclose _ (by decide)))
  | array _ ih => exact printable_cons (by decide) (printable_append ih (hclose _ (by decide)))
  | emptyObject h =>
    exact printable_cons (by decide) (printable_append h.printable (hclose _ (by decide)))
  | object _ ih => exact printable_cons (by decide) (printable_append ih (hclose _ (by decide)))
  | padded hws _ hws' ih =>
    exact printable_append hws.printable (printable_append ih hws'.printable)
  | element _ ih => exact ih
  | elements _ _ ihfirst ihrest =>
    exact printable_append ihfirst (printable_cons (by decide) ihrest)
  | member hws hkey hws' _ ih =>
    exact printable_append hws.printable (printable_append hkey.printable
      (printable_append hws'.printable (printable_cons (by decide) ih)))
  | lastMember _ ih => exact ih
  | members _ _ ihfirst ihrest =>
    exact printable_append ihfirst (printable_cons (by decide) ihrest)

/-! ## The scanner -/

inductive Mode
  | plain
  | text
  | escaped

/-- The nesting of brackets, and where the scanner is in a string. -/
structure Scan where
  depth : ℕ
  mode : Mode

def Scan.step (s : Scan) (c : Char) : Scan :=
  match s.mode with
  | .plain =>
    if c = quote then ⟨s.depth, .text⟩
    else if c = leftBracket ∨ c = leftBrace then ⟨s.depth + 1, .plain⟩
    else if c = rightBracket ∨ c = rightBrace then ⟨s.depth - 1, .plain⟩
    else s
  | .text =>
    if c = backslash then ⟨s.depth, .escaped⟩
    else if c = quote then ⟨s.depth, .plain⟩
    else s
  | .escaped => ⟨s.depth, .text⟩

def Scan.run (s : Scan) (text : List Char) : Scan := text.foldl Scan.step s

/-- The nesting stays at that depth or above it. -/
def Above (d : ℕ) : Scan → List Char → Prop
  | s, [] => d ≤ s.depth
  | s, c :: text => d ≤ s.depth ∧ Above d (s.step c) text

@[simp] theorem run_cons (s : Scan) (c : Char) (text : List Char) :
    s.run (c :: text) = (s.step c).run text := rfl

theorem run_append (s : Scan) (a b : List Char) : s.run (a ++ b) = (s.run a).run b :=
  List.foldl_append

theorem Above.depth_le {d : ℕ} {s : Scan} {text : List Char} (h : Above d s text) :
    d ≤ s.depth := by
  cases text with
  | nil => exact h
  | cons c text => exact h.1

theorem above_append {d : ℕ} {s : Scan} {a b : List Char} (ha : Above d s a)
    (hb : Above d (s.run a) b) : Above d s (a ++ b) := by
  induction a generalizing s with
  | nil => exact hb
  | cons c a ih => exact ⟨ha.1, ih ha.2 hb⟩

theorem Above.depth_run {d : ℕ} {s : Scan} {a b : List Char} (h : Above d s (a ++ b)) :
    d ≤ (s.run a).depth := by
  induction a generalizing s with
  | nil => exact h.depth_le
  | cons c a ih => exact ih h.2

theorem Above.mono {d d' : ℕ} (hle : d ≤ d') {s : Scan} {text : List Char}
    (h : Above d' s text) : Above d s text := by
  induction text generalizing s with
  | nil => exact hle.trans h
  | cons c text ih => exact ⟨hle.trans h.1, ih h.2⟩

/-- The scanner leaves the text as it entered, and does not go below. -/
def Balanced (text : List Char) : Prop :=
  ∀ d, (Scan.mk d .plain).run text = ⟨d, .plain⟩ ∧ Above d ⟨d, .plain⟩ text

theorem balanced_nil : Balanced [] := fun _ => ⟨rfl, le_rfl⟩

theorem Balanced.append {a b : List Char} (ha : Balanced a) (hb : Balanced b) :
    Balanced (a ++ b) := by
  intro d
  obtain ⟨hrun, habove⟩ := ha d
  refine ⟨?_, above_append habove ?_⟩
  · rw [run_append, hrun]
    exact (hb d).1
  · rw [hrun]
    exact (hb d).2

/-- The characters that mean something to the scanner. -/
def marks : List Char := [quote, leftBracket, leftBrace, rightBracket, rightBrace]

theorem step_plain {c : Char} (h : c ∉ marks) (d : ℕ) :
    Scan.step ⟨d, .plain⟩ c = ⟨d, .plain⟩ := by
  simp only [marks, List.mem_cons, List.not_mem_nil, or_false, not_or] at h
  simp [Scan.step, h]

theorem balanced_cons {c : Char} (hc : c ∉ marks) {text : List Char} (h : Balanced text) :
    Balanced (c :: text) := by
  intro d
  rw [run_cons, step_plain hc]
  exact ⟨(h d).1, le_rfl, by rw [step_plain hc]; exact (h d).2⟩

theorem balanced_of_plain {text : List Char} (h : ∀ c ∈ text, c ∉ marks) : Balanced text := by
  induction text with
  | nil => exact balanced_nil
  | cons c text ih =>
    exact balanced_cons (h c List.mem_cons_self) (ih fun d hd => h d (List.mem_cons_of_mem c hd))

theorem balanced_of_forall_mem {allowed text : List Char} (hallowed : ∀ c ∈ allowed, c ∉ marks)
    (h : ∀ c ∈ text, c ∈ allowed) : Balanced text :=
  balanced_of_plain fun c hc => hallowed c (h c hc)

theorem Blank.balanced {text : List Char} (h : Blank text) : Balanced text :=
  balanced_of_forall_mem (forall_mem_of_all (by decide)) h

/-- Inside a string the depth stays. -/
theorem run_text_of_plain {text : List Char} (h : ∀ c ∈ text, c ≠ quote ∧ c ≠ backslash) (d : ℕ) :
    (Scan.mk d .text).run text = ⟨d, .text⟩ ∧ Above d ⟨d, .text⟩ text := by
  induction text with
  | nil => exact ⟨rfl, le_rfl⟩
  | cons c text ih =>
    obtain ⟨hquote, hback⟩ := h c List.mem_cons_self
    have hstep : Scan.step ⟨d, .text⟩ c = ⟨d, .text⟩ := by simp [Scan.step, hquote, hback]
    obtain ⟨hrun, habove⟩ := ih fun e he => h e (List.mem_cons_of_mem c he)
    rw [run_cons, hstep]
    exact ⟨hrun, le_rfl, by rw [hstep]; exact habove⟩

theorem IsChars.run {text : List Char} (h : IsChars text) (d : ℕ) :
    (Scan.mk d .text).run text = ⟨d, .text⟩ ∧ Above d ⟨d, .text⟩ text := by
  induction h with
  | nil => exact ⟨rfl, le_rfl⟩
  | @plain c rest _ hquote hback _ ih =>
    have hstep : Scan.step ⟨d, .text⟩ c = ⟨d, .text⟩ := by simp [Scan.step, hquote, hback]
    rw [run_cons, hstep]
    exact ⟨ih.1, le_rfl, by rw [hstep]; exact ih.2⟩
  | short _ _ ih => exact ⟨ih.1, le_rfl, le_rfl, ih.2⟩
  | @unit code rest _ hcode _ ih =>
    have hplain : ∀ c ∈ hexDigits, c ≠ quote ∧ c ≠ backslash := forall_mem_of_all (by decide)
    obtain ⟨hrun, habove⟩ := run_text_of_plain (fun c hc => hplain c (hcode c hc)) d
    refine ⟨?_, le_rfl, le_rfl, above_append habove ?_⟩
    · have hbehind : (Scan.mk d .text).run (code ++ rest) = ⟨d, .text⟩ := by
        rw [run_append, hrun, ih.1]
      exact hbehind
    · have hrest : Above d ((Scan.mk d .text).run code) rest := by
        rw [hrun]
        exact ih.2
      exact hrest

theorem IsString.balanced {text : List Char} (h : IsString text) : Balanced text := by
  obtain ⟨chars, hchars, rfl⟩ := h
  intro d
  obtain ⟨hrun, habove⟩ := hchars.run d
  refine ⟨?_, le_rfl, above_append habove ?_⟩
  · have hinside : (Scan.mk d .text).run (chars ++ [quote]) = ⟨d, .plain⟩ := by
      rw [run_append, hrun]
      rfl
    exact hinside
  · have hend : Above d ((Scan.mk d .text).run chars) [quote] := by
      rw [hrun]
      exact ⟨le_rfl, le_rfl⟩
    exact hend

theorem IsNumber.balanced {text : List Char} (h : IsNumber text) : Balanced text :=
  balanced_of_forall_mem (forall_mem_of_all (by decide)) h.mem

/-- Brackets around a balanced text. -/
theorem Balanced.enclosed {inner : List Char} (h : Balanced inner) {left right : Char}
    (hleft : left = leftBracket ∨ left = leftBrace)
    (hright : right = rightBracket ∨ right = rightBrace) :
    Balanced (left :: (inner ++ [right])) := by
  intro d
  have hopen : Scan.step ⟨d, .plain⟩ left = ⟨d + 1, .plain⟩ := by
    rcases hleft with rfl | rfl <;> rfl
  have hclose : Scan.step ⟨d + 1, .plain⟩ right = ⟨d, .plain⟩ := by
    rcases hright with rfl | rfl <;> rfl
  obtain ⟨hrun, habove⟩ := h (d + 1)
  refine ⟨?_, le_rfl, ?_⟩
  · rw [run_cons, hopen, run_append, hrun, run_cons, hclose]
    rfl
  · rw [hopen]
    refine above_append (habove.mono (Nat.le_succ d)) ?_
    rw [hrun]
    exact ⟨Nat.le_succ d, by rw [hclose]; exact le_rfl⟩

/-- **A part of a JSON text is balanced.** -/
theorem Grammar.balanced {part : Part} {text : List Char} (h : Grammar part text) :
    Balanced text := by
  induction h with
  | literal h =>
    have hliterals : literals.all (fun text => text.all fun c => c ∉ marks) = true := by decide
    exact balanced_of_plain (forall_mem_of_all (List.all_eq_true.mp hliterals _ h))
  | number h => exact h.balanced
  | string h => exact h.balanced
  | emptyArray h => exact h.balanced.enclosed (.inl rfl) (.inl rfl)
  | array _ ih => exact ih.enclosed (.inl rfl) (.inl rfl)
  | emptyObject h => exact h.balanced.enclosed (.inr rfl) (.inr rfl)
  | object _ ih => exact ih.enclosed (.inr rfl) (.inr rfl)
  | padded hws _ hws' ih => exact hws.balanced.append (ih.append hws'.balanced)
  | element _ ih => exact ih
  | elements _ _ ihfirst ihrest => exact ihfirst.append (balanced_cons (by decide) ihrest)
  | member hws hkey hws' _ ih =>
    exact hws.balanced.append
      (hkey.balanced.append (hws'.balanced.append (balanced_cons (by decide) ih)))
  | lastMember _ ih => exact ih
  | members _ _ ihfirst ihrest => exact ihfirst.append (balanced_cons (by decide) ihrest)

/-! ## Objects -/

/-- A value that starts with a brace encloses a balanced text. -/
theorem Grammar.exists_inner {core : List Char} (h : Grammar .value core)
    (hhead : core.head? = some leftBrace) :
    ∃ inner, Balanced inner ∧ core = leftBrace :: (inner ++ [rightBrace]) := by
  cases h with
  | literal h =>
    have hliterals : ∀ text ∈ literals, text.head? ≠ some leftBrace := by decide
    exact absurd hhead (hliterals _ h)
  | number h =>
    have hbrace : leftBrace ∈ numberChars := h.mem _ (List.mem_of_mem_head? hhead)
    exact absurd hbrace (by decide)
  | string h =>
    obtain ⟨chars, -, rfl⟩ := h
    cases hhead
  | emptyArray h => cases hhead
  | array h => cases hhead
  | @emptyObject ws h => exact ⟨ws, h.balanced, rfl⟩
  | @object inner h => exact ⟨inner, h.balanced, rfl⟩

/-- The nesting is not over before the last brace. -/
theorem eq_nil_of_enclosed {inner a b : List Char} (hinner : Balanced inner)
    (ha : Balanced a) (hne : a ≠ []) (h : leftBrace :: (inner ++ [rightBrace]) = a ++ b) :
    b = [] := by
  by_contra hb
  obtain ⟨c, a, rfl⟩ := List.exists_cons_of_ne_nil hne
  rw [List.cons_append, List.cons.injEq] at h
  obtain ⟨rfl, h⟩ := h
  obtain ⟨b, d, rfl⟩ := (List.eq_nil_or_concat b).resolve_left hb
  rw [List.concat_eq_append, ← List.append_assoc] at h
  obtain ⟨rfl, -⟩ := List.append_inj' h rfl
  have habove : Above 1 ⟨1, .plain⟩ (a ++ b) := (hinner 1).2
  have hdepth : (Scan.mk 1 .plain).run a = ⟨0, .plain⟩ := (ha 0).1
  have hlow := habove.depth_run
  rw [hdepth] at hlow
  exact absurd hlow (by decide)

theorem eq_of_enclosed {core core' b b' : List Char} (hcore : Grammar .value core)
    (hhead : core.head? = some leftBrace) (hcore' : Grammar .value core')
    (hhead' : core'.head? = some leftBrace) (h : core ++ b = core' ++ b') : b = b' := by
  obtain ⟨inner, hinner, hinnerEq⟩ := hcore.exists_inner hhead
  obtain ⟨inner', hinner', hinnerEq'⟩ := hcore'.exists_inner hhead'
  have hne : core ≠ [] := by
    rw [hinnerEq]
    exact List.cons_ne_nil _ _
  have hne' : core' ≠ [] := by
    rw [hinnerEq']
    exact List.cons_ne_nil _ _
  rcases List.append_eq_append_iff.mp h with ⟨more, hmore, hb⟩ | ⟨more, hmore, hb⟩
  · have hnil := eq_nil_of_enclosed hinner' hcore.balanced hne (hinnerEq'.symm.trans hmore)
    rw [hb, hnil, List.nil_append]
  · have hnil := eq_nil_of_enclosed hinner hcore'.balanced hne' (hinnerEq.symm.trans hmore)
    rw [hb, hnil, List.nil_append]

/-- White space before a brace is determined by the text. -/
theorem eq_of_blank {ws ws' a b : List Char} (hws : Blank ws) (hws' : Blank ws')
    (ha : a.head? = some leftBrace) (hb : b.head? = some leftBrace)
    (h : ws ++ a = ws' ++ b) : a = b := by
  have hbrace : leftBrace ∉ blanks := by decide
  induction ws generalizing ws' with
  | nil =>
    cases ws' with
    | nil => exact h
    | cons c ws' =>
      rw [List.nil_append] at h
      rw [h, List.cons_append, List.head?_cons, Option.some.injEq] at ha
      exact absurd (ha ▸ hws' c List.mem_cons_self) hbrace
  | cons c ws ih =>
    cases ws' with
    | nil =>
      rw [List.nil_append] at h
      rw [← h, List.cons_append, List.head?_cons, Option.some.injEq] at hb
      exact absurd (hb ▸ hws c List.mem_cons_self) hbrace
    | cons c' ws' =>
      rw [List.cons_append, List.cons_append, List.cons.injEq] at h
      exact ih (fun d hd => hws d (List.mem_cons_of_mem c hd))
        (fun d hd => hws' d (List.mem_cons_of_mem c' hd)) h.2

theorem head?_append_of_some {a b : List Char} {c : Char} (h : a.head? = some c) :
    (a ++ b).head? = some c := by
  rw [List.head?_append, h, Option.some_or]

/-- **What can follow an object** in an object text is white space. -/
theorem IsObject.blank_of_append {a b : List Char} (ha : IsObject a) (hab : IsObject (a ++ b)) :
    Blank b := by
  obtain ⟨ws, core, after, hws, hcore, hhead, hafter, rfl⟩ := ha
  obtain ⟨ws', core', after', hws', hcore', hhead', hafter', h⟩ := hab
  rw [List.append_assoc, List.append_assoc] at h
  have hsame := eq_of_blank hws hws' (head?_append_of_some hhead) (head?_append_of_some hhead') h
  have hrest := eq_of_enclosed hcore hhead hcore' hhead' hsame
  intro c hc
  exact hafter' c (hrest ▸ List.mem_append_right after hc)

/-- An object text is not only white space. -/
theorem IsObject.not_blank {text : List Char} (h : IsObject text) : ¬ Blank text := by
  obtain ⟨ws, core, ws', -, -, hhead, -, rfl⟩ := h
  intro hblank
  have hmem : leftBrace ∈ ws ++ (core ++ ws') :=
    List.mem_append_right ws (List.mem_append_left ws' (List.mem_of_mem_head? hhead))
  exact absurd (hblank _ hmem) (by decide)

end Harvest.Lib.JsonText
