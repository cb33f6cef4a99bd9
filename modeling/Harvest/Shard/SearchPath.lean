import Harvest.Lib.Escaped
import Mathlib.Algebra.GroupWithZero.Nat

/-!
# The key of a search path

Model of `normalize_search_path` in `shard.rs`. A well-formed value is keyed by the names that it
searches, in their order, a malformed one by itself.

Proved here:
* `toList_normalizeSearchPath`: the key as the joined names of the effective order.
* `search_path_key_iff`: two keys are equal as they should be, unless one value is malformed and
  spells the effective order of the other.
* `not_forges_of_plain`: no malformed value spells an order whose names have no quotes and no
  whitespace.
-/

namespace Harvest.Shard

open Harvest.Lib

/-! ## Identifier lists -/

def isPostgresWhitespace (c : Char) : Bool :=
  c = ' ' || c = '\t' || c = '\n' || c = '\x0b' || c = '\x0c' || c = '\r'

def postgresMaxIdentifierLen : Nat := 63

/-- `str::len`: the bytes of a name. -/
def byteLen (name : List Char) : Nat := (name.map Char.utf8Size).sum

/-- `str::is_char_boundary` -/
def isCharBoundary : List Char → Nat → Bool
  | _, 0 => true
  | [], _ + 1 => false
  | c :: name, n + 1 => c.utf8Size ≤ n + 1 && isCharBoundary name (n + 1 - c.utf8Size)

/-- `name[..end]`, where `end` is a boundary. -/
def sliceTo : List Char → Nat → List Char
  | [], _ => []
  | c :: name, n => if c.utf8Size ≤ n then c :: sliceTo name (n - c.utf8Size) else []

/-- The last boundary that is not after `n`. -/
def boundaryBefore (name : List Char) : Nat → Nat
  | 0 => 0
  | n + 1 => if isCharBoundary name (n + 1) then n + 1 else boundaryBefore name n

def truncatePostgresIdentifier (name : List Char) : List Char :=
  if byteLen name ≤ postgresMaxIdentifierLen then name
  else sliceTo name (boundaryBefore name postgresMaxIdentifierLen)

/-- The rest of a quoted name and what follows its closing quote. Two quotes are one. -/
def readQuoted : List Char → Option (List Char × List Char)
  | [] => none
  | '\x22' :: '\x22' :: chars => (readQuoted chars).map fun read => ('\x22' :: read.1, read.2)
  | '\x22' :: chars => some ([], chars)
  | c :: chars => (readQuoted chars).map fun read => (c :: read.1, read.2)

def endsBare (c : Char) : Bool := c = ',' || isPostgresWhitespace c

/-- One item, folded unless it is quoted, then truncated. -/
def readIdentifier (chars : List Char) : Option (List Char × List Char) :=
  match chars with
  | '\x22' :: chars =>
    (readQuoted chars).map fun read => (truncatePostgresIdentifier read.1, read.2)
  | chars =>
    let ident := chars.takeWhile fun c => ! endsBare c
    some (truncatePostgresIdentifier (ident.map Char.toLower),
      chars.dropWhile fun c => ! endsBare c)

theorem readQuoted_length {chars : List Char} : ∀ {read}, readQuoted chars = some read →
    read.2.length ≤ chars.length := by
  induction chars using readQuoted.induct with
  | case1 =>
    intro read h
    cases h
  | case2 chars ih =>
    intro read h
    rw [readQuoted, Option.map_eq_some_iff] at h
    obtain ⟨inner, hinner, rfl⟩ := h
    have hle := ih hinner
    simp only [List.length_cons]
    omega
  | case3 chars hnot =>
    intro read h
    rw [readQuoted, Option.some.injEq] at h
    · subst h
      exact Nat.le_succ _
    · exact hnot
  | case4 c chars hpair hquote ih =>
    intro read h
    rw [readQuoted, Option.map_eq_some_iff] at h
    · obtain ⟨inner, hinner, rfl⟩ := h
      have hle := ih hinner
      simp only [List.length_cons]
      omega
    · exact hpair
    · exact hquote

theorem readIdentifier_length {chars : List Char} {read : List Char × List Char}
    (h : readIdentifier chars = some read) : read.2.length ≤ chars.length := by
  unfold readIdentifier at h
  split at h
  · rw [Option.map_eq_some_iff] at h
    obtain ⟨inner, hinner, rfl⟩ := h
    have hle := readQuoted_length hinner
    exact Nat.le_succ_of_le hle
  · rw [Option.some.injEq] at h
    subst h
    exact (List.dropWhile_sublist _).length_le

set_option linter.unusedVariables false in
/-- The loop of `parse_identifier_list`: an item, then a comma or the end. -/
def parseItems (chars : List Char) (items : List String) : Option (List String) :=
  match hskip : chars.dropWhile isPostgresWhitespace with
  | [] => some items
  | c :: rest =>
    match hread : readIdentifier (c :: rest) with
    | none => none
    | some (ident, after) =>
      match hafter : after.dropWhile isPostgresWhitespace with
      | [] => some (items ++ [String.ofList ident])
      | d :: next =>
        if d = ',' then parseItems next (items ++ [String.ofList ident]) else none
termination_by chars.length
decreasing_by
  have hstart := (List.dropWhile_sublist (l := chars) isPostgresWhitespace).length_le
  have hitem := readIdentifier_length hread
  have hend := (List.dropWhile_sublist (l := after) isPostgresWhitespace).length_le
  rw [hskip] at hstart
  rw [hafter, List.length_cons] at hend
  dsimp only at hitem
  omega

def parseIdentifierList (value : String) : Option (List String) := parseItems value.toList []

/-! ## The key -/

/-- `items.retain(|item| seen.insert(item))` -/
def retainUnseen (seen : List String) : List String → List String
  | [] => []
  | item :: items =>
    if item ∈ seen then retainUnseen seen items else item :: retainUnseen (item :: seen) items

def escapeIdentifierListItem (item : String) : String :=
  String.ofList (escape '\\' ',' item.toList)

def insertFront (name : String) (items : List String) : List String :=
  if name ∈ items then items else name :: items

def normalizeSearchPath (value : String) : String :=
  match parseIdentifierList value with
  | none => value
  | some items =>
    let items := insertFront "pg_temp" (insertFront "pg_catalog" items)
    ",".intercalate ((retainUnseen [] items).map escapeIdentifierListItem)

/-! ## What a value means -/

/-- The order in which names are searched: the two implicit schemas come first unless they are
named, and only the first of equal names counts. -/
def effectiveOrder (value : String) : Option (List String) :=
  (parseIdentifierList value).map fun items =>
    (insertFront "pg_temp" (insertFront "pg_catalog" items)).eraseDups

/-- The names that a text spells when it is read as a list with escapes. -/
def spelled (value : String) : Option (List String) :=
  (readEscaped '\\' ',' value.toList).map fun items => items.map String.ofList

/-- A malformed text that spells what a well-formed one searches. -/
def Forges (raw value : String) : Prop :=
  parseIdentifierList raw = none ∧ (parseIdentifierList value).isSome ∧
    spelled raw = effectiveOrder value

theorem retainUnseen_eq (items : List String) : ∀ seen : List String,
    retainUnseen seen items = (items.filter fun item => item ∉ seen).eraseDups := by
  induction items with
  | nil =>
    intro seen
    rfl
  | cons item items ih =>
    intro seen
    rw [retainUnseen]
    by_cases hseen : item ∈ seen
    · rw [if_pos hseen, ih, List.filter_cons_of_neg]
      simp [hseen]
    · rw [if_neg hseen, ih, List.filter_cons_of_pos (by simp [hseen]), List.eraseDups_cons,
        List.filter_filter]
      congr 2
      refine List.filter_congr fun other _ => ?_
      by_cases hother : other = item <;> simp [hother]

theorem normalizeSearchPath_none {value : String} (h : parseIdentifierList value = none) :
    normalizeSearchPath value = value := by
  rw [normalizeSearchPath, h]

/-- **The key of a well-formed value** is its effective order, joined with escapes. -/
theorem toList_normalizeSearchPath {value : String} {order : List String}
    (h : effectiveOrder value = some order) :
    (normalizeSearchPath value).toList = joinEscaped '\\' ',' (order.map String.toList) := by
  obtain ⟨items, hparse, rfl⟩ := Option.map_eq_some_iff.mp h
  rw [normalizeSearchPath, hparse]
  dsimp only
  rw [String.toList_intercalate, retainUnseen_eq, joinEscaped, List.map_map, List.map_map]
  have hfilter : (fun item : String => decide (item ∉ ([] : List String))) = fun _ => true := by
    funext item
    simp
  have hitems : ∀ items : List String, items.map (String.toList ∘ escapeIdentifierListItem) =
      items.map (escape '\\' ',' ∘ String.toList) :=
    fun items => List.map_congr_left fun item _ => String.toList_ofList
  rw [hfilter, List.filter_true, hitems]
  rfl

theorem effectiveOrder_ne_nil {value : String} {order : List String}
    (h : effectiveOrder value = some order) : order ≠ [] := by
  obtain ⟨items, -, rfl⟩ := Option.map_eq_some_iff.mp h
  have hmem : "pg_temp" ∈ insertFront "pg_temp" (insertFront "pg_catalog" items) := by
    unfold insertFront
    split_ifs with h1 h2 h2
    · exact h2
    · exact List.mem_cons_self
    · exact h2
    · exact List.mem_cons_self
  intro hnil
  have hin := List.mem_eraseDups.mpr hmem
  rw [hnil] at hin
  cases hin

theorem spelled_eq_some {raw : String} {order : List String} (h : order ≠ []) :
    spelled raw = some order ↔ raw.toList = joinEscaped '\\' ',' (order.map String.toList) := by
  have hback : (order.map String.toList).map String.ofList = order := by
    rw [List.map_map]
    exact List.map_id'' (fun _ => String.ofList_toList) order
  rw [spelled, Option.map_eq_some_iff]
  constructor
  · rintro ⟨items, hread, rfl⟩
    have hforth : (items.map String.ofList).map String.toList = items := by
      rw [List.map_map]
      exact List.map_id'' (fun _ => String.toList_ofList) items
    rw [hforth]
    exact ((readEscaped_eq_some (by decide)).mp hread).2
  · intro htext
    refine ⟨order.map String.toList, ?_, hback⟩
    exact (readEscaped_eq_some (by decide)).mpr ⟨by simpa using h, htext⟩

/-- A malformed text has the key of a well-formed one exactly if it forges it. -/
theorem forges_iff {raw value : String} (hraw : parseIdentifierList raw = none)
    {order : List String} (horder : effectiveOrder value = some order) :
    normalizeSearchPath raw = normalizeSearchPath value ↔ Forges raw value := by
  have hsome : (parseIdentifierList value).isSome := by
    obtain ⟨items, hparse, -⟩ := Option.map_eq_some_iff.mp horder
    rw [hparse]
    rfl
  have hne := effectiveOrder_ne_nil horder
  rw [normalizeSearchPath_none hraw, ← String.toList_inj, toList_normalizeSearchPath horder,
    ← spelled_eq_some hne, ← horder]
  exact ⟨fun h => ⟨hraw, hsome, h⟩, fun h => h.2.2⟩

/-- Two well-formed texts have one key exactly if they search the same. -/
theorem normalizeSearchPath_inj {a b : String} {order order' : List String}
    (h : effectiveOrder a = some order) (h' : effectiveOrder b = some order') :
    normalizeSearchPath a = normalizeSearchPath b ↔ order = order' := by
  rw [← String.toList_inj, toList_normalizeSearchPath h, toList_normalizeSearchPath h']
  constructor
  · intro heq
    have hinj := joinEscaped_inj (by decide) (by simpa using effectiveOrder_ne_nil h)
      (by simpa using effectiveOrder_ne_nil h') heq
    exact List.map_injective_iff.mpr (fun _ _ hlist => String.toList_injective hlist) hinj
  · rintro rfl
    rfl

/-- **When the keys of two values tell them apart as they should**: exactly if neither forges the
other. -/
theorem search_path_key_iff (a b : String) :
    (normalizeSearchPath a = normalizeSearchPath b ↔
      (∃ order, effectiveOrder a = some order ∧ effectiveOrder b = some order) ∨
        (parseIdentifierList a = none ∧ parseIdentifierList b = none ∧ a = b)) ↔
    ¬ Forges a b ∧ ¬ Forges b a := by
  have hmalformed : ∀ value, effectiveOrder value = none ↔ parseIdentifierList value = none :=
    fun value => Option.map_eq_none_iff
  cases ha : effectiveOrder a with
  | none =>
    have hnone := (hmalformed a).mp ha
    have hforged : ¬ Forges b a := by
      rintro ⟨-, hsome, -⟩
      rw [hnone] at hsome
      cases hsome
    cases hb : effectiveOrder b with
    | none =>
      have hnone' := (hmalformed b).mp hb
      have hforges : ¬ Forges a b := by
        rintro ⟨-, hsome, -⟩
        rw [hnone'] at hsome
        cases hsome
      rw [normalizeSearchPath_none hnone, normalizeSearchPath_none hnone']
      simp [hnone, hnone', hforged, hforges]
    | some order =>
      have hsome : parseIdentifierList b ≠ none := fun h => by
        rw [(hmalformed b).mpr h] at hb
        cases hb
      rw [forges_iff hnone hb]
      simp [hsome, hforged]
  | some order =>
    have hsome : parseIdentifierList a ≠ none := fun h => by
      rw [(hmalformed a).mpr h] at ha
      cases ha
    have hforges : ¬ Forges a b := fun h => hsome h.1
    cases hb : effectiveOrder b with
    | none =>
      rw [eq_comm, forges_iff ((hmalformed b).mp hb) ha]
      simp [hsome, hforges]
    | some order' =>
      have hsome' : parseIdentifierList b ≠ none := fun h => by
        rw [(hmalformed b).mpr h] at hb
        cases hb
      have hforged : ¬ Forges b a := fun h => hsome' h.1
      rw [normalizeSearchPath_inj ha hb]
      simp [hsome, hforges, hforged, eq_comm]

/-- A quoted name with a space, and the key of it, which does not parse. -/
theorem malformed_value_takes_a_key :
    normalizeSearchPath "pg_temp,pg_catalog,a b" = normalizeSearchPath "\"a b\"" ∧
    parseIdentifierList "pg_temp,pg_catalog,a b" = none ∧
    effectiveOrder "\"a b\"" = some ["pg_temp", "pg_catalog", "a b"] ∧
    ¬ (normalizeSearchPath "pg_temp,pg_catalog,a b" = normalizeSearchPath "\"a b\"" ↔
      (∃ order, effectiveOrder "pg_temp,pg_catalog,a b" = some order ∧
          effectiveOrder "\"a b\"" = some order) ∨
        (parseIdentifierList "pg_temp,pg_catalog,a b" = none ∧
          parseIdentifierList "\"a b\"" = none ∧ "pg_temp,pg_catalog,a b" = "\"a b\"")) := by
  have hkey : normalizeSearchPath "pg_temp,pg_catalog,a b" = normalizeSearchPath "\"a b\"" := by
    decide +kernel
  have hmalformed : parseIdentifierList "pg_temp,pg_catalog,a b" = none := by decide +kernel
  have hparse : parseIdentifierList "\"a b\"" = some ["a b"] := by decide +kernel
  refine ⟨hkey, hmalformed, ?_, ?_⟩
  · rw [effectiveOrder, hparse]
    decide +kernel
  · intro hiff
    rcases hiff.mp hkey with ⟨order, horder, -⟩ | ⟨-, hnone, -⟩
    · rw [effectiveOrder, hmalformed] at horder
      cases horder
    · rw [hparse] at hnone
      cases hnone

/-! ## Names that cannot be forged -/

def plainChar (c : Char) : Bool := c ≠ '\x22' && ! isPostgresWhitespace c

theorem readIdentifier_of_plain {c : Char} {chars : List Char} (h : plainChar c = true) :
    (readIdentifier (c :: chars)).isSome := by
  unfold readIdentifier
  split
  · rename_i heq
    rw [List.cons.injEq] at heq
    rw [heq.1] at h
    exact absurd h (by decide)
  · rfl

theorem readIdentifier_rest {c : Char} {chars ident after : List Char} (h : plainChar c = true)
    (hread : readIdentifier (c :: chars) = some (ident, after)) :
    after = (c :: chars).dropWhile fun c => ! endsBare c := by
  unfold readIdentifier at hread
  split at hread
  · rename_i heq
    rw [List.cons.injEq] at heq
    rw [heq.1] at h
    exact absurd h (by decide)
  · rw [Option.some.injEq, Prod.mk.injEq] at hread
    exact hread.2.symm

/-- After an unquoted name comes the end or a comma, where nothing is whitespace. -/
theorem comma_of_plain {chars after next : List Char} {d : Char}
    (h : ∀ c ∈ chars, plainChar c = true) (hafter : after = chars.dropWhile fun c => ! endsBare c)
    (hnext : after.dropWhile isPostgresWhitespace = d :: next) : d = ',' := by
  have hmem : ∀ c ∈ after, plainChar c = true := by
    intro c hc
    rw [hafter] at hc
    exact h c ((List.dropWhile_sublist _).subset hc)
  cases after with
  | nil => cases hnext
  | cons c after =>
    have hplain := hmem c List.mem_cons_self
    have hspace : isPostgresWhitespace c = false := by
      simpa using (Bool.and_eq_true_iff.mp hplain).2
    have hends : endsBare c = true := by
      have hhead := List.head?_dropWhile_not (fun c => ! endsBare c) chars
      rw [← hafter, List.head?_cons] at hhead
      simpa using hhead
    rw [List.dropWhile_cons_of_neg (by simp [hspace]), List.cons.injEq] at hnext
    rw [← hnext.1]
    simpa [endsBare, hspace] using hends

/-- A text without quotes and whitespace always parses. -/
theorem parseItems_of_plain (chars : List Char) (items : List String)
    (h : ∀ c ∈ chars, plainChar c = true) : (parseItems chars items).isSome := by
  have hsuffix : ∀ {text next : List Char} {d : Char}, (∀ c ∈ text, plainChar c = true) →
      text.dropWhile isPostgresWhitespace = d :: next → ∀ c ∈ d :: next, plainChar c = true := by
    intro text next d htext hskip c hc
    rw [← hskip] at hc
    exact htext c ((List.dropWhile_sublist _).subset hc)
  fun_induction parseItems chars items with
  | case1 => rfl
  | case2 chars items d next hskip hread =>
    have hsome := @readIdentifier_of_plain d next (hsuffix h hskip d List.mem_cons_self)
    rw [hread] at hsome
    cases hsome
  | case3 => rfl
  | case4 chars items d next hskip ident after hread rest hrest ih =>
    have hstart := hsuffix h hskip
    have hafter := readIdentifier_rest (hstart d List.mem_cons_self) hread
    have hend : ∀ c ∈ after, plainChar c = true := by
      intro c hc
      rw [hafter] at hc
      exact hstart c ((List.dropWhile_sublist _).subset hc)
    exact ih fun c hc => hsuffix hend hrest c (List.mem_cons_of_mem _ hc)
  | case5 chars items d next hskip ident after hread d' rest hrest hcomma =>
    have hstart := hsuffix h hskip
    have hafter := readIdentifier_rest (hstart d List.mem_cons_self) hread
    exact absurd (comma_of_plain hstart hafter hrest) hcomma

/-- **Names without quotes and whitespace cannot be forged**: the key of such an order parses. -/
theorem not_forges_of_plain {raw value : String} {order : List String}
    (h : effectiveOrder value = some order)
    (hplain : ∀ name ∈ order, ∀ c ∈ name.toList, plainChar c = true) : ¬ Forges raw value := by
  rintro ⟨hraw, -, hspelled⟩
  rw [h, spelled_eq_some (effectiveOrder_ne_nil h)] at hspelled
  have hsome := parseItems_of_plain raw.toList [] ?_
  · rw [show parseItems raw.toList [] = none from hraw] at hsome
    cases hsome
  · intro c hc
    rw [hspelled] at hc
    rcases mem_joinEscaped hc with rfl | rfl | ⟨item, hitem, hc⟩
    · decide
    · decide
    · obtain ⟨name, hname, rfl⟩ := List.mem_map.mp hitem
      exact hplain name hname c hc

end Harvest.Shard
