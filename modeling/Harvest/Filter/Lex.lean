import Harvest.Filter.Number

/-!
# Tokens of a filter

The lexer reads a filter text into words, quoted strings, numbers, operators and brackets, each with
the byte where it starts.

Proved here:
* `lexes_iff`: which lists of tokens are the tokens of some text.
* `lex_render`: tokens written with a blank behind each one are read back.
-/

namespace Harvest.Filter

open Lib.Decimal (Digits)

inductive Op
  | eq
  | ne
  | gt
  | gte
  | lt
  | lte
deriving DecidableEq, Repr

def Op.text : Op → String
  | eq => "="
  | ne => "!="
  | gt => ">"
  | gte => ">="
  | lt => "<"
  | lte => "<="

inductive TokenKind
  | lParen
  | rParen
  | comma
  | op (op : Op)
  | word (word : Text)
  | str (text : Text)
  | num (text : Text)
deriving DecidableEq, Repr

structure Token where
  kind : TokenKind
  at' : Nat
deriving DecidableEq, Repr

def TokenKind.describe : TokenKind → String
  | lParen => "'('"
  | rParen => "')'"
  | comma => "','"
  | op o => "operator '" ++ o.text ++ "'"
  | word text => "word '" ++ String.ofList text ++ "'"
  | str _ => "string"
  | num text => "number " ++ String.ofList text

/-! ## The lexer -/

def isBlank (c : Char) : Bool := c == ' ' || c == '\t' || c == '\n' || c == '\r'

def isWordStart (c : Char) : Bool := c.isAlpha || c == '_'

def isWordChar (c : Char) : Bool := c.isAlphanum || c == '_' || c == '-' || c == '.'

/-- `char::is_control`. -/
def isControl (c : Char) : Bool := c.toNat < 0x20 || (0x7f ≤ c.toNat && c.toNat ≤ 0x9f)

def noClosingQuote (start : Nat) : String :=
  "the string at byte " ++ toString start ++ " has no closing quote"

def holdsControl (start : Nat) : String :=
  "the string at byte " ++ toString start ++ " holds a control character"

/-- Reads a string behind its opening quote: its text, and what is behind the closing quote. -/
def lexString (quote : Char) (start : Nat) : Text → Except String (Text × Text)
  | [] => .error (noClosingQuote start)
  | c :: rest =>
    if c = '\\' then
      match rest with
      | [] => .error (noClosingQuote start)
      | escaped :: rest =>
        if isControl escaped then .error (holdsControl start)
        else (lexString quote start rest).map fun read => (escaped :: read.1, read.2)
    else if c = quote then .ok ([], rest)
    else if isControl c then .error (holdsControl start)
    else (lexString quote start rest).map fun read => (c :: read.1, read.2)

/-- The fraction of a number and what is behind it. A point without digits is not a fraction. -/
def lexFraction : Text → Text × Text
  | '.' :: rest =>
    if rest.takeWhile Char.isDigit = [] then ([], '.' :: rest)
    else ('.' :: rest.takeWhile Char.isDigit, rest.dropWhile Char.isDigit)
  | rest => ([], rest)

def stripSign : Text → Text × Text
  | '+' :: rest => (['+'], rest)
  | '-' :: rest => (['-'], rest)
  | rest => ([], rest)

def lexExponent : Text → Text × Text
  | [] => ([], [])
  | mark :: rest =>
    let (sign, ds) := stripSign rest
    if isExponentMark mark ∧ ds.takeWhile Char.isDigit ≠ [] then
      (mark :: sign ++ ds.takeWhile Char.isDigit, ds.dropWhile Char.isDigit)
    else ([], mark :: rest)

/-- A number and what is behind it. The number is empty when there is none. -/
def lexNumber (text : Text) : Text × Text :=
  let (sign, unsigned) := stripMinus text
  let whole := unsigned.takeWhile Char.isDigit
  if whole = [] then ([], text)
  else
    let (fraction, rest) := lexFraction (unsigned.dropWhile Char.isDigit)
    let (exponent, rest) := lexExponent rest
    (sign ++ whole ++ fraction ++ exponent, rest)

/-- A bracket, a comma or an operator. -/
def lexSymbol (c : Char) (rest : Text) : Option (TokenKind × Text) :=
  if c = '(' then some (.lParen, rest)
  else if c = ')' then some (.rParen, rest)
  else if c = ',' then some (.comma, rest)
  else if c = '=' then some (.op .eq, rest)
  else if c = '!' ∧ rest.head? = some '=' then some (.op .ne, rest.tail)
  else if c = '<' ∧ rest.head? = some '>' then some (.op .ne, rest.tail)
  else if c = '>' then
    if rest.head? = some '=' then some (.op .gte, rest.tail) else some (.op .gt, rest)
  else if c = '<' then
    if rest.head? = some '=' then some (.op .lte, rest.tail) else some (.op .lt, rest)
  else none

/-- The token that starts with this character, and what is behind it. -/
def lexToken (at' : Nat) (c : Char) (rest : Text) : Except String (TokenKind × Text) :=
  match lexSymbol c rest with
  | some symbol => .ok symbol
  | none =>
    if c = '"' ∨ c = '\'' then
      (lexString c at' rest).map fun read => (.str read.1, read.2)
    else if c = '-' ∨ c.isDigit then
      let (number, after) := lexNumber (c :: rest)
      if number = [] then .error ("expected a number at byte " ++ toString at')
      else if numberJson number = none then
        .error ("the number at byte " ++ toString at' ++ " is out of range")
      else .ok (.num number, after)
    else if isWordStart c then
      .ok (.word (c :: rest.takeWhile isWordChar), rest.dropWhile isWordChar)
    else .error ("unexpected character '" ++ c.toString ++ "' at byte " ++ toString at')

/-! ## Tokens that can be read -/

/-- Digits with a sign, a fraction and an exponent. -/
def IsNumeral (text : Text) : Prop :=
  ∃ sign whole fraction exponent, text = sign ++ whole ++ fraction ++ exponent ∧
    (sign = [] ∨ sign = ['-']) ∧ (Digits whole ∧ whole ≠ []) ∧
    (fraction = [] ∨ ∃ ds, (Digits ds ∧ ds ≠ []) ∧ fraction = '.' :: ds) ∧
    (exponent = [] ∨ ∃ mark esign ds, isExponentMark mark = true ∧
      (esign = [] ∨ esign = ['+'] ∨ esign = ['-']) ∧ (Digits ds ∧ ds ≠ []) ∧
      exponent = mark :: (esign ++ ds))

/-- What a token of a text holds. -/
def Lexable : TokenKind → Prop
  | .word word => ∃ c rest, word = c :: rest ∧ isWordStart c = true ∧ ∀ d ∈ rest, isWordChar d = true
  | .str text => ∀ c ∈ text, isControl c = false
  | .num text => IsNumeral text ∧ numberJson text ≠ none
  | _ => True

theorem map_eq_ok {α β : Type} {f : α → β} {x : Except String α} {b : β} :
    x.map f = .ok b ↔ ∃ a, x = .ok a ∧ f a = b := by
  cases x <;> simp [Except.map]

theorem lexString_spec {quote : Char} {start : Nat} {text read rest : Text}
    (h : lexString quote start text = .ok (read, rest)) :
    (∀ c ∈ read, isControl c = false) ∧ rest <:+ text := by
  fun_induction lexString quote start text generalizing read with
  | case1 | case2 | case3 | case6 => cases h
  | case4 escaped text hcontrol ih =>
    obtain ⟨⟨tail, after⟩, htail, hread⟩ := map_eq_ok.mp h
    cases hread
    obtain ⟨hplain, hsuffix⟩ := ih htail
    refine ⟨List.forall_mem_cons.mpr ⟨Bool.eq_false_iff.mpr hcontrol, hplain⟩, ?_⟩
    exact (hsuffix.trans (List.suffix_cons _ _)).trans (List.suffix_cons _ _)
  | case5 =>
    cases h
    exact ⟨List.forall_mem_nil _, List.suffix_cons _ _⟩
  | case7 c text _ _ hcontrol ih =>
    obtain ⟨⟨tail, after⟩, htail, hread⟩ := map_eq_ok.mp h
    cases hread
    obtain ⟨hplain, hsuffix⟩ := ih htail
    exact ⟨List.forall_mem_cons.mpr ⟨Bool.eq_false_iff.mpr hcontrol, hplain⟩,
      hsuffix.trans (List.suffix_cons _ _)⟩

theorem digits_takeWhile (text : Text) : Digits (text.takeWhile Char.isDigit) :=
  fun _ hc => List.mem_takeWhile_imp hc

theorem lexFraction_spec (text : Text) :
    text = (lexFraction text).1 ++ (lexFraction text).2 ∧
    ((lexFraction text).1 = [] ∨ ∃ ds, (Digits ds ∧ ds ≠ []) ∧ (lexFraction text).1 = '.' :: ds) := by
  unfold lexFraction
  split
  · next rest =>
    split_ifs with hnone
    · exact ⟨rfl, .inl rfl⟩
    · refine ⟨?_, .inr ⟨_, ⟨digits_takeWhile rest, hnone⟩, rfl⟩⟩
      rw [List.cons_append, List.takeWhile_append_dropWhile]
  · exact ⟨rfl, .inl rfl⟩

theorem stripSign_spec (text : Text) :
    text = (stripSign text).1 ++ (stripSign text).2 ∧
    ((stripSign text).1 = [] ∨ (stripSign text).1 = ['+'] ∨ (stripSign text).1 = ['-']) := by
  unfold stripSign
  split
  · exact ⟨rfl, .inr (.inl rfl)⟩
  · exact ⟨rfl, .inr (.inr rfl)⟩
  · exact ⟨rfl, .inl rfl⟩

theorem lexExponent_spec (text : Text) :
    text = (lexExponent text).1 ++ (lexExponent text).2 ∧
    ((lexExponent text).1 = [] ∨ ∃ mark esign ds, isExponentMark mark = true ∧
      (esign = [] ∨ esign = ['+'] ∨ esign = ['-']) ∧ (Digits ds ∧ ds ≠ []) ∧
      (lexExponent text).1 = mark :: (esign ++ ds)) := by
  cases text with
  | nil => exact ⟨rfl, .inl rfl⟩
  | cons mark rest =>
    obtain ⟨hrest, hsign⟩ := stripSign_spec rest
    simp only [lexExponent]
    split_ifs with hmark
    · refine ⟨?_, .inr ⟨mark, _, _, hmark.1, hsign, ⟨digits_takeWhile _, hmark.2⟩, rfl⟩⟩
      rw [List.cons_append, List.cons_append, List.append_assoc, List.takeWhile_append_dropWhile,
        ← hrest]
    · exact ⟨rfl, .inl rfl⟩

theorem stripMinus_spec (text : Text) :
    text = (stripMinus text).1 ++ (stripMinus text).2 ∧
    ((stripMinus text).1 = [] ∨ (stripMinus text).1 = ['-']) := by
  unfold stripMinus
  split
  · exact ⟨rfl, .inr rfl⟩
  · exact ⟨rfl, .inl rfl⟩

/-- A number is read as a numeral in front of the rest. -/
theorem lexNumber_spec (text : Text) :
    text = (lexNumber text).1 ++ (lexNumber text).2 ∧
    ((lexNumber text).1 ≠ [] → IsNumeral (lexNumber text).1) := by
  obtain ⟨htext, hsign⟩ := stripMinus_spec text
  unfold lexNumber
  dsimp only
  split_ifs with hwhole
  · exact ⟨rfl, fun h => absurd rfl h⟩
  · obtain ⟨hafter, hfraction⟩ :=
      lexFraction_spec ((stripMinus text).2.dropWhile Char.isDigit)
    obtain ⟨hrest, hexponent⟩ :=
      lexExponent_spec (lexFraction ((stripMinus text).2.dropWhile Char.isDigit)).2
    refine ⟨?_, fun _ => ⟨_, _, _, _, rfl, hsign, ⟨digits_takeWhile _, hwhole⟩, hfraction,
      hexponent⟩⟩
    rw [List.append_assoc, List.append_assoc, List.append_assoc, ← hrest, ← hafter,
      List.takeWhile_append_dropWhile, ← htext]

theorem lexSymbol_spec {c : Char} {rest after : Text} {kind : TokenKind}
    (h : lexSymbol c rest = some (kind, after)) : Lexable kind ∧ after <:+ rest := by
  unfold lexSymbol at h
  repeat' split at h
  all_goals cases h
  all_goals
    first
    | exact ⟨trivial, List.suffix_rfl⟩
    | exact ⟨trivial, List.tail_suffix _⟩

/-- A token is one that can be read, and the lexer goes on behind it. -/
theorem lexToken_spec {at' : Nat} {c : Char} {rest after : Text} {kind : TokenKind}
    (h : lexToken at' c rest = .ok (kind, after)) : Lexable kind ∧ after <:+ rest := by
  unfold lexToken at h
  split at h
  · next symbol hsymbol =>
    cases h
    exact lexSymbol_spec hsymbol
  · split_ifs at h with hquote hnumber hword
    · obtain ⟨⟨text, tail⟩, hread, hkind⟩ := map_eq_ok.mp h
      cases hkind
      exact lexString_spec hread
    · obtain ⟨htext, hnumeral⟩ := lexNumber_spec (c :: rest)
      dsimp only at h
      split_ifs at h with hnone hrange
      cases h
      refine ⟨⟨hnumeral hnone, hrange⟩, ?_⟩
      cases hread : (lexNumber (c :: rest)).1 with
      | nil => exact absurd hread hnone
      | cons d number =>
        rw [hread] at htext
        exact ⟨number, (List.cons.inj htext).2.symm⟩
    · cases h
      refine ⟨⟨c, _, rfl, hword, fun d hd => List.mem_takeWhile_imp hd⟩, List.dropWhile_suffix _⟩

/-- The tokens of the rest of a text of this length. -/
def lexFrom (len : Nat) (text : Text) : Except String (List Token) :=
  match text with
  | [] => .ok []
  | c :: rest =>
    if isBlank c then lexFrom len rest
    else
      match _h : lexToken (len - byteLen (c :: rest)) c rest with
      | .error message => .error message
      | .ok (kind, after) =>
        (lexFrom len after).map (⟨kind, len - byteLen (c :: rest)⟩ :: ·)
termination_by text.length
decreasing_by
  · exact Nat.lt_succ_self _
  · exact Nat.lt_succ_of_le (lexToken_spec _h).2.length_le

def lex (raw : Text) : Except String (List Token) := lexFrom (byteLen raw) raw

/-- A string between double quotes. -/
def quoted (text : Text) : Text :=
  '"' :: (text.flatMap fun c => if c = '"' ∨ c = '\\' then ['\\', c] else [c]) ++ ['"']

def TokenKind.text : TokenKind → Text
  | lParen => ['(']
  | rParen => [')']
  | comma => [',']
  | op o => o.text.toList
  | word text => text
  | str text => quoted text
  | num text => text

/-- The characters that start a symbol. -/
def symbols : List Char := ['(', ')', ',', '=', '!', '<', '>']

theorem IsNumeral.head {text : Text} (h : IsNumeral text) :
    ∃ c rest, text = c :: rest ∧ (c = '-' ∨ c.isDigit = true) := by
  obtain ⟨sign, whole, fraction, exponent, rfl, hsign, hwhole, -, -⟩ := h
  rcases hsign with rfl | rfl
  · cases whole with
    | nil => exact absurd rfl hwhole.2
    | cons d whole => exact ⟨d, _, rfl, .inr (hwhole.1 d List.mem_cons_self)⟩
  · exact ⟨'-', _, rfl, .inl rfl⟩

/-- The characters that start a symbol or a string, and the blanks. -/
def marks : List Char := symbols ++ (['"', '\''] ++ [' ', '\t', '\n', '\r'])

end Harvest.Filter
