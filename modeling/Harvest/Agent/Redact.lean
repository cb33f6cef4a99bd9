import Harvest.Agent.Names
import Harvest.Lib.Splice

/-!
# Redaction of identities

Model of `identities`, `redact` and `redact_one` of `eval/anonymise.rs`. A text is the list of its
characters, and which characters are alphanumeric is a parameter.

A pass looks for matches from left to right and without overlap, and it looks at the letters of the
text before the pass. So a whole occurrence can hide behind a match that is not whole, and an
occurrence can become whole when its neighbour is replaced.

Proved here:
* `redactOne_eq_splice`: one pass replaces the whole matches.
* `standsIn_redactOne`: what stands after one pass.
* `redaction_is_complete_iff`: when redaction leaves no identity behind.
-/

namespace Harvest.Agent

open Lib (Clashes StandsIn splice Ordered)

/-- `REDACTED` -/
def redacted : Name := ['[', 'r', 'e', 'd', 'a', 'c', 't', 'e', 'd', ']']

/-! ## Identities -/

/-- `str::len`: the bytes of the name. -/
def byteLen (name : Name) : ℕ := (name.map Char.utf8Size).sum

/-- Longer names come first, names of one length in their order. -/
def comesFirst (a b : Name) : Bool := byteLen b < byteLen a || (byteLen a = byteLen b && ! b.lex a)

/-- The names of all candidates, longest first, each once. -/
def identities (found : List (List Name)) : List Name :=
  ((found.flatten.filter (· ≠ [])).mergeSort comesFirst).eraseReps

section Redact

variable (isAlphanumeric : Char → Bool)

def isNameChar (c : Char) : Bool := isAlphanumeric c || c = '-' || c = '_'

/-- The matches of a name from a position on. The first `skip` characters are of the last match. -/
def scanMatches (name : Name) : ℕ → ℕ → Name → List ℕ
  | _, _, [] => []
  | skip + 1, pos, _ :: rest => scanMatches name skip (pos + 1) rest
  | 0, pos, c :: rest =>
    if name.isPrefixOf (c :: rest) then pos :: scanMatches name (name.length - 1) (pos + 1) rest
    else scanMatches name 0 (pos + 1) rest

/-- `str::match_indices`: the empty name matches around every character. -/
def matchIndices (text name : Name) : List ℕ :=
  if name = [] then List.range (text.length + 1) else scanMatches name 0 0 text

/-- No name character is next to the occurrence. -/
def isWhole (text name : Name) (pos : ℕ) : Bool :=
  ! ((text.take pos).getLast?.any (isNameChar isAlphanumeric) ||
    (text.drop (pos + name.length)).head?.any (isNameChar isAlphanumeric))

/-- The body of the loop of `redact_one`: what was written, and from where the text is copied. -/
def redactMatch (text name : Name) : Name × ℕ → ℕ → Name × ℕ
  | (out, start), pos =>
    if ! isWhole isAlphanumeric text name pos then (out, start)
    else (out ++ (text.drop start).take (pos - start) ++ redacted, pos + name.length)

/-- The text with each whole match of the name replaced. -/
def redactOne (text name : Name) : Name :=
  let (out, start) := (matchIndices text name).foldl (redactMatch isAlphanumeric text name) ([], 0)
  out ++ text.drop start

/-- One pass for each name. -/
def redact (text : Name) (names : List Name) : Name := names.foldl (redactOne isAlphanumeric) text

/-- The matches that a pass replaces. -/
def replaced (text name : Name) : List ℕ :=
  (matchIndices text name).filter (isWhole isAlphanumeric text name)

variable {isAlphanumeric} {text name other : Name}

/-! ## One pass -/

theorem scanMatches_ordered {skip pos : ℕ} {rest : Name} (hname : name ≠ [])
    (hskip : skip ≤ rest.length) :
    Ordered name.length (pos + rest.length) (pos + skip) (scanMatches name skip pos rest) := by
  induction rest generalizing skip pos with
  | nil =>
    obtain rfl : skip = 0 := Nat.le_zero.mp hskip
    exact le_rfl
  | cons c rest ih =>
    have hshift : pos + (c :: rest).length = pos + 1 + rest.length := by
      rw [List.length_cons]
      omega
    rw [hshift]
    cases skip with
    | succ skip =>
      have hnext := @ih skip (pos + 1) (Nat.le_of_succ_le_succ hskip)
      rwa [Nat.add_assoc pos 1 skip, Nat.add_comm 1 skip] at hnext
    | zero =>
      rw [scanMatches]
      split_ifs with hprefix
      · -- the rest of the match is skipped
        have hlen := (List.isPrefixOf_iff_prefix.mp hprefix).length_le
        have hpos := List.length_pos_of_ne_nil hname
        rw [List.length_cons] at hlen
        have hnext := @ih (name.length - 1) (pos + 1) (by omega)
        have hend : pos + 1 + (name.length - 1) = pos + name.length := by omega
        rw [hend] at hnext
        exact ⟨le_rfl, by omega, hnext⟩
      · exact (@ih 0 (pos + 1) (Nat.zero_le _)).mono (Nat.le_succ _)

theorem replaced_ordered (hname : name ≠ []) :
    Ordered name.length text.length 0 (replaced isAlphanumeric text name) := by
  unfold replaced matchIndices
  rw [if_neg hname]
  have hscan := @scanMatches_ordered name 0 0 text hname (Nat.zero_le _)
  rw [Nat.zero_add] at hscan
  exact hscan.filter _

/-- **One pass** replaces the whole matches. -/
theorem redactOne_eq_splice (text name : Name) :
    redactOne isAlphanumeric text name =
      splice redacted text name.length 0 (replaced isAlphanumeric text name) := by
  suffices hfold : ∀ (matched : List ℕ) (out : Name) (start : ℕ),
      (matched.foldl (redactMatch isAlphanumeric text name) (out, start)).1 ++
        text.drop (matched.foldl (redactMatch isAlphanumeric text name) (out, start)).2 =
      out ++ splice redacted text name.length start
        (matched.filter (isWhole isAlphanumeric text name)) from hfold _ [] 0
  intro matched
  induction matched with
  | nil => exact fun _ _ => rfl
  | cons pos matched ih =>
    intro out start
    rw [List.foldl_cons, List.filter_cons, redactMatch]
    cases hwhole : isWhole isAlphanumeric text name pos with
    | false => exact ih out start
    | true =>
      rw [if_pos rfl, splice]
      refine (ih _ _).trans ?_
      simp only [List.append_assoc]

/-- The occurrence is left standing by the pass. -/
def LeftAt (isAlphanumeric : Char → Bool) (text name other : Name) (q : ℕ) : Prop :=
  other <+: text.drop q ∧
    ∀ pos ∈ replaced isAlphanumeric text name, q + other.length ≤ pos ∨ pos + name.length ≤ q

/-- Nothing of the names stands in the text. -/
def Clean (isAlphanumeric : Char → Bool) (names : List Name) (text : Name) : Prop :=
  ∀ name ∈ names, ¬ StandsIn (isNameChar isAlphanumeric) name text

/-- The pass of a name over a text, after the passes of the earlier names. -/
structure PassFits (isAlphanumeric : Char → Bool) (earlier : List Name) (name text : Name) :
    Prop where
  /-- No whole occurrence hides behind a match that is not whole: each has a replaced part. -/
  unhidden : ∀ q, name <+: text.drop q → isWhole isAlphanumeric text name q = true →
    ∃ pos ∈ replaced isAlphanumeric text name, q < pos + name.length ∧ pos < q + name.length
  /-- No occurrence, of this name or an earlier one, that is not whole and is left standing loses
  each name character next to it. -/
  shielded : ∀ other ∈ earlier ++ [name], ∀ q, LeftAt isAlphanumeric text name other q →
    isWhole isAlphanumeric text other q = false →
    ((text.take q).getLast?.any (isNameChar isAlphanumeric) = true ∧
      ∀ pos ∈ replaced isAlphanumeric text name, pos + name.length ≠ q) ∨
    ((text.drop (q + other.length)).head?.any (isNameChar isAlphanumeric) = true ∧
      ∀ pos ∈ replaced isAlphanumeric text name, q + other.length ≠ pos)

theorem isWhole_iff {q : ℕ} : isWhole isAlphanumeric text name q = true ↔
    (text.take q).getLast?.any (isNameChar isAlphanumeric) = false ∧
      (text.drop (q + name.length)).head?.any (isNameChar isAlphanumeric) = false := by
  unfold isWhole
  rw [Bool.not_eq_true', Bool.or_eq_false_iff]

theorem standsIn_of_isWhole {q : ℕ} (hat : name <+: text.drop q)
    (hwhole : isWhole isAlphanumeric text name q = true) :
    StandsIn (isNameChar isAlphanumeric) name text := by
  obtain ⟨hleft, hright⟩ := isWhole_iff.mp hwhole
  obtain ⟨post, hpost⟩ := hat
  refine ⟨text.take q, post, ?_, hleft, ?_⟩
  · rw [hpost, List.take_append_drop]
  · rwa [← List.drop_drop, ← hpost, List.drop_left] at hright

theorem redact_concat (text : Name) (names : List Name) (name : Name) :
    redact isAlphanumeric text (names ++ [name]) =
      redactOne isAlphanumeric (redact isAlphanumeric text names) name := by
  unfold redact
  rw [List.foldl_append]
  rfl

variable (hopen : isAlphanumeric '[' = false) (hclose : isAlphanumeric ']' = false)
include hopen hclose

/-- **What stands after one pass**: what it left standing, when each name character next to it was
replaced. -/
theorem standsIn_redactOne (hname : name ≠ []) (hclash : ¬ Clashes redacted other) :
    StandsIn (isNameChar isAlphanumeric) other (redactOne isAlphanumeric text name) ↔
      ∃ q, LeftAt isAlphanumeric text name other q ∧
        ((text.take q).getLast?.any (isNameChar isAlphanumeric) = false ∨
          ∃ pos ∈ replaced isAlphanumeric text name, pos + name.length = q) ∧
        ((text.drop (q + other.length)).head?.any (isNameChar isAlphanumeric) = false ∨
          ∃ pos ∈ replaced isAlphanumeric text name, q + other.length = pos) := by
  have hfirst : redacted.head?.any (isNameChar isAlphanumeric) = false := by
    simp [redacted, isNameChar, hopen]
  have hlast : redacted.getLast?.any (isNameChar isAlphanumeric) = false := by
    simp [redacted, isNameChar, hclose]
  rw [redactOne_eq_splice,
    Lib.standsIn_splice hclash (by decide) hfirst hlast (replaced_ordered hname)]
  refine exists_congr fun q => ?_
  unfold LeftAt
  constructor
  · rintro ⟨-, hat, hclear, hleft, hright⟩
    refine ⟨⟨hat, hclear⟩, ?_, hright.symm⟩
    rcases hleft with rfl | hcut | hfree
    · exact .inl rfl
    · exact .inr hcut
    · exact .inl hfree
  · rintro ⟨⟨hat, hclear⟩, hleft, hright⟩
    exact ⟨Nat.zero_le _, hat, hclear, .inr hleft.symm, hright.symm⟩

/-- **One more pass** over a clean text. -/
theorem clean_redactOne_iff {earlier : List Name} (hearlier : Clean isAlphanumeric earlier text)
    (hclash : ∀ other ∈ earlier ++ [name], ¬ Clashes redacted other) :
    Clean isAlphanumeric (earlier ++ [name]) (redactOne isAlphanumeric text name) ↔
      PassFits isAlphanumeric earlier name text := by
  have hlast : name ∈ earlier ++ [name] := List.mem_append_right _ (List.mem_singleton.mpr rfl)
  have hname : name ≠ [] := by
    rintro rfl
    exact hclash [] hlast (.inr (.inl List.nil_infix))
  constructor
  · intro hclean
    refine ⟨fun q hat hwhole => ?_, fun other hother q hleft hnot => ?_⟩
    · by_contra hhidden
      push Not at hhidden
      obtain ⟨hbefore, hafter⟩ := isWhole_iff.mp hwhole
      refine hclean name hlast ((standsIn_redactOne hopen hclose hname (hclash name hlast)).mpr
        ⟨q, ⟨hat, fun pos hpos => ?_⟩, .inl hbefore, .inl hafter⟩)
      have := hhidden pos hpos
      omega
    · by_contra hlost
      push Not at hlost
      obtain ⟨hbefore, hafter⟩ := hlost
      refine hclean other hother ((standsIn_redactOne hopen hclose hname (hclash other hother)).mpr
        ⟨q, hleft, ?_, ?_⟩)
      · exact or_iff_not_imp_left.mpr fun h => hbefore (Bool.eq_true_of_not_eq_false h)
      · exact or_iff_not_imp_left.mpr fun h => hafter (Bool.eq_true_of_not_eq_false h)
  · rintro ⟨hunhidden, hshielded⟩ other hother hstands
    obtain ⟨q, hleft, hbefore, hafter⟩ :=
      (standsIn_redactOne hopen hclose hname (hclash other hother)).mp hstands
    cases hwhole : isWhole isAlphanumeric text other q with
    | true =>
      -- it was whole before the pass: an earlier name, or one that the scan missed
      rcases List.mem_append.mp hother with hold | hnew
      · exact hearlier other hold (standsIn_of_isWhole hleft.1 hwhole)
      · obtain rfl := List.mem_singleton.mp hnew
        obtain ⟨pos, hpos, hlt, hgt⟩ := hunhidden q hleft.1 hwhole
        have := hleft.2 pos hpos
        omega
    | false =>
      rcases hshielded other hother q hleft hwhole with ⟨hletter, hkept⟩ | ⟨hletter, hkept⟩
      · rcases hbefore with hfree | ⟨pos, hpos, heq⟩
        · exact Bool.false_ne_true (hfree.symm.trans hletter)
        · exact hkept pos hpos heq
      · rcases hafter with hfree | ⟨pos, hpos, heq⟩
        · exact Bool.false_ne_true (hfree.symm.trans hletter)
        · exact hkept pos hpos heq

/-- **When redaction leaves no identity behind.** For every text and the identities of any
candidates, none of which clashes with the mark: after each pass no whole occurrence of the names so
far is left exactly when each pass fits. With all names done this is the redacted text. -/
theorem redaction_is_complete_iff (found : List (List Name)) (text : Name)
    (hmark : ∀ name ∈ identities found, ¬ Clashes redacted name) :
    (∀ done rest, identities found = done ++ rest →
        Clean isAlphanumeric done (redact isAlphanumeric text done)) ↔
      ∀ done name rest, identities found = done ++ name :: rest →
        PassFits isAlphanumeric done name (redact isAlphanumeric text done) := by
  have hclash : ∀ done name rest, identities found = done ++ name :: rest →
      ∀ other ∈ done ++ [name], ¬ Clashes redacted other := by
    intro done name rest hsplit other hother
    refine hmark other ?_
    rw [hsplit, List.append_cons]
    exact List.mem_append_left _ hother
  constructor
  · intro hclean done name rest hsplit
    rw [← clean_redactOne_iff hopen hclose (hclean done (name :: rest) hsplit)
      (hclash done name rest hsplit), ← redact_concat]
    exact hclean (done ++ [name]) rest (by rw [hsplit, List.append_cons])
  · intro hfits done
    induction done using List.reverseRecOn with
    | nil => exact fun _ _ => nofun
    | append_singleton done name ih =>
      intro rest hsplit
      rw [← List.append_cons] at hsplit
      rw [redact_concat, clean_redactOne_iff hopen hclose (ih (name :: rest) hsplit)
        (hclash done name rest hsplit)]
      exact hfits done name rest hsplit

end Redact

/-- A model name, and the text of a failure with it. -/
def gptX : Name := "gpt-x".toList

def noModel : Name := "no gpt-x; gpt-x2 ok".toList

theorem identities_singleton {name : Name} (hname : name ≠ []) : identities [[name]] = [name] := by
  simp [identities, hname, List.eraseReps, List.eraseRepsBy, List.eraseRepsBy.loop]

/-- Redaction of a name: it is replaced, and a longer name that starts with it is not. -/
theorem a_model_name_is_redacted :
    redact Char.isAlphanum noModel (identities [[gptX]]) = "no [redacted]; gpt-x2 ok".toList ∧
    Clean Char.isAlphanum (identities [[gptX]])
      (redact Char.isAlphanum noModel (identities [[gptX]])) := by
  have hnames : identities [[gptX]] = [gptX] := identities_singleton (by decide)
  have hclash : ∀ name ∈ identities [[gptX]], ¬ Clashes redacted name := by
    rw [hnames]
    decide +kernel
  have hfits : PassFits Char.isAlphanum [] gptX noModel := by
    have hwhole : ∀ q < 19, gptX <+: noModel.drop q → isWhole Char.isAlphanum noModel gptX q = true →
        ∃ pos ∈ replaced Char.isAlphanum noModel gptX, q < pos + 5 ∧ pos < q + 5 := by
      decide +kernel
    have hword : ∀ q < 19, gptX <+: noModel.drop q → isWhole Char.isAlphanum noModel gptX q = false →
        (noModel.drop (q + 5)).head?.any (isNameChar Char.isAlphanum) = true ∧
          ∀ pos ∈ replaced Char.isAlphanum noModel gptX, q + 5 ≠ pos := by
      decide +kernel
    have hbound : ∀ q, gptX <+: noModel.drop q → q < 19 := by
      intro q hat
      have hlength := hat.length_le
      have htotal : noModel.length = 19 := by decide
      have hlen : gptX.length = 5 := by decide
      rw [List.length_drop, htotal, hlen] at hlength
      omega
    refine ⟨fun q hat => hwhole q (hbound q hat) hat, fun other hother q hleft hnot => ?_⟩
    obtain rfl := List.mem_singleton.mp hother
    exact .inr (hword q (hbound q hleft.1) hleft.1 hnot)
  refine ⟨by rw [hnames]; decide +kernel, ?_⟩
  refine (redaction_is_complete_iff (by decide) (by decide) [[gptX]] noModel hclash).mpr ?_ _ []
    (List.append_nil _).symm
  intro done name rest hsplit
  rw [hnames] at hsplit
  cases done with
  | nil =>
    obtain ⟨rfl, -⟩ := List.cons.inj hsplit
    exact hfits
  | cons first done =>
    have hlength := congrArg List.length hsplit
    simp at hlength

/-- **A whole occurrence that hides behind another match.** The match after `x` is not whole, and the
scan goes on after it. -/
theorem a_hidden_identity_is_left :
    (∀ name ∈ identities [["a.a".toList]], ¬ Clashes redacted name) ∧
    "a.a".toList ∈ identities [["a.a".toList]] ∧
    StandsIn (isNameChar Char.isAlphanum) "a.a".toList
      (redact Char.isAlphanum "xa.a.a".toList (identities [["a.a".toList]])) := by
  rw [identities_singleton (by decide)]
  refine ⟨by decide +kernel, List.mem_singleton.mpr rfl, "xa.".toList, [], ?_⟩
  decide +kernel

/-- A name that touches its own match: the first is replaced, and the second loses its letter. -/
example : redact Char.isAlphanum ".b.b".toList [".b".toList] = "[redacted].b".toList := by
  decide +kernel

end Harvest.Agent
