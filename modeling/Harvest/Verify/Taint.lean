import Harvest.Verify.Mir

/-!
# The taint lattice

Facts, sets of facts that are deduplicated and bounded, and the state of one body: what each
place holds, which local names another place, and which kinds a sanitizer has cleared where.

Proved here:
* `has_absorb`: the bound on a set never loses a kind.
* `has_read`: a read sees what the place, its ancestors and its descendants hold.
* `add_keeps`, `add_stores`: writing keeps what is stored, and stores every kind it is given.
-/

namespace Harvest.Verify

/-- `TaintKind` -/
inductive TaintKind where
  | value
  | order
  | control
  deriving DecidableEq

/-- `Site`, without the source hint that only a report prints. -/
structure Site where
  function : String
  block : String
  what : String
  deriving DecidableEq

/-- `Hop` -/
structure Hop where
  function : String
  step : String
  deriving DecidableEq

/-- `Fact`: one reason a place is not deterministic. -/
structure Fact where
  kind : TaintKind
  source : Site
  hops : List Hop
  deriving DecidableEq

/-- `MAX_FACTS`: how many facts of one kind a set keeps. -/
def maxFacts : Nat := 6

/-- `MAX_HOPS` -/
def maxHops : Nat := 48

namespace Fact

/-- `key`: the identity a fact is deduplicated on. -/
def key (fact : Fact) : TaintKind × String × String :=
  (fact.kind, fact.source.function, fact.source.what)

/-- `with_hop` -/
def withHop (fact : Fact) (hop : Hop) : Fact :=
  if fact.hops.getLast? = some hop then fact
  else
    -- A long chain loses its middle.
    let hops := if maxHops ≤ fact.hops.length then fact.hops.eraseIdx (fact.hops.length / 2)
      else fact.hops
    { fact with hops := hops ++ [hop] }

/-- `as_kind` -/
def asKind (fact : Fact) (kind : TaintKind) : Fact := { fact with kind }

end Fact

/-- `TaintSet`, in the order of insertion. -/
abbrev TaintSet := List Fact

namespace TaintSet

/-- `has` -/
def has (set : TaintSet) (kind : TaintKind) : Bool := set.any fun fact => fact.kind = kind

/-- `insert`: the set, and whether the fact is new in it. -/
def insert (set : TaintSet) (fact : Fact) : TaintSet × Bool :=
  if set.any fun f => f.key = fact.key then (set, false)
  else if maxFacts ≤ (set.filter fun f => f.kind = fact.kind).length then (set, false)
  else (set ++ [fact], true)

/-- `absorb` -/
def absorb (set other : TaintSet) : TaintSet × Bool :=
  other.foldl (fun (set, changed) fact =>
    let (set', new) := set.insert fact
    (set', changed || new)) (set, false)

/-- `with_hop` -/
def withHop (set : TaintSet) (hop : Hop) : TaintSet := set.map fun fact => fact.withHop hop

/-- `without` -/
def without (set : TaintSet) (kinds : List TaintKind) : TaintSet :=
  set.filter fun fact => fact.kind ∉ kinds

/-- `as_kind` -/
def asKind (set : TaintSet) (kind : TaintKind) : TaintSet :=
  set.foldl (fun out fact => (TaintSet.insert out (fact.asKind kind)).1) []

/-- `union_of` -/
def unionOf (sets : List TaintSet) : TaintSet := sets.foldl (fun out set => (out.absorb set).1) []

/-! ## Kinds survive the bound -/

theorem has_iff {set : TaintSet} {kind : TaintKind} :
    set.has kind = true ↔ ∃ fact ∈ set, fact.kind = kind := by
  simp [has]

theorem has_nil (kind : TaintKind) : has [] kind = false := rfl

theorem has_without {set : TaintSet} {kinds : List TaintKind} {kind : TaintKind} :
    (set.without kinds).has kind = true ↔ set.has kind = true ∧ kind ∉ kinds := by
  rw [has_iff, has_iff]
  constructor
  · rintro ⟨fact, hfact, rfl⟩
    obtain ⟨hmem, hkind⟩ := List.mem_filter.mp hfact
    exact ⟨⟨fact, hmem, rfl⟩, by simpa using hkind⟩
  · rintro ⟨⟨fact, hmem, rfl⟩, hkind⟩
    exact ⟨fact, List.mem_filter.mpr ⟨hmem, by simpa using hkind⟩, rfl⟩

/-- A fact that is not inserted is of a kind the set holds already. -/
theorem insert_unchanged {set : TaintSet} {fact : Fact} (h : (set.insert fact).2 = false) :
    (set.insert fact).1 = set ∧ set.has fact.kind = true := by
  unfold insert at h ⊢
  split_ifs at h ⊢ with hkey hfull
  · refine ⟨rfl, has_iff.mpr ?_⟩
    obtain ⟨f, hf, heq⟩ := List.any_eq_true.mp hkey
    exact ⟨f, hf, congrArg Prod.fst (of_decide_eq_true heq)⟩
  · refine ⟨rfl, has_iff.mpr ?_⟩
    have hpos : 0 < (set.filter fun f => f.kind = fact.kind).length := Nat.lt_of_lt_of_le (by decide) hfull
    obtain ⟨f, hf⟩ := List.exists_mem_of_length_pos hpos
    obtain ⟨hmem, hkind⟩ := List.mem_filter.mp hf
    exact ⟨f, hmem, of_decide_eq_true hkind⟩

theorem has_insert {set : TaintSet} {fact : Fact} {kind : TaintKind} :
    (set.insert fact).1.has kind = true ↔ set.has kind = true ∨ fact.kind = kind := by
  cases hnew : (set.insert fact).2 with
  | false =>
    obtain ⟨hsame, hhas⟩ := insert_unchanged hnew
    rw [hsame]
    constructor
    · exact .inl
    · rintro (h | rfl)
      · exact h
      · exact hhas
  | true =>
    unfold insert at hnew ⊢
    split_ifs at hnew ⊢ with hkey hfull
    simp [has_iff]

theorem foldl_absorb (other : TaintSet) :
    ∀ (set : TaintSet) (changed : Bool),
      let result := other.foldl (fun (set, changed) fact =>
        let (set', new) := TaintSet.insert set fact
        (set', changed || new)) (set, changed)
      (∀ kind, result.1.has kind = true ↔ set.has kind = true ∨ other.has kind = true) ∧
        (result.2 = false → changed = false ∧ result.1 = set) := by
  induction other with
  | nil =>
    intro set changed
    exact ⟨fun kind => by simp [has_nil], fun h => ⟨h, rfl⟩⟩
  | cons fact other ih =>
    intro set changed
    obtain ⟨hkinds, hsame⟩ := ih (set.insert fact).1 (changed || (set.insert fact).2)
    refine ⟨fun kind => ?_, fun h => ?_⟩
    · refine (hkinds kind).trans ?_
      rw [has_insert, or_assoc]
      refine or_congr_right ?_
      simp [has]
    · obtain ⟨hor, heq⟩ := hsame h
      rw [Bool.or_eq_false_iff] at hor
      exact ⟨hor.1, heq.trans (insert_unchanged hor.2).1⟩

/-- **Absorbing keeps every kind of both sets**, whatever facts the bound drops. -/
theorem has_absorb {set other : TaintSet} {kind : TaintKind} :
    (set.absorb other).1.has kind = true ↔ set.has kind = true ∨ other.has kind = true :=
  (foldl_absorb other set false).1 kind

theorem absorb_unchanged {set other : TaintSet} (h : (set.absorb other).2 = false) :
    (set.absorb other).1 = set :=
  ((foldl_absorb other set false).2 h).2

theorem has_foldl_absorb {sets : List TaintSet} {kind : TaintKind} :
    ∀ {set : TaintSet}, (sets.foldl (fun out set => (TaintSet.absorb out set).1) set).has kind = true ↔
      set.has kind = true ∨ ∃ s ∈ sets, TaintSet.has s kind = true := by
  induction sets with
  | nil => simp
  | cons s sets ih =>
    intro set
    rw [List.foldl_cons, ih, has_absorb]
    simp [or_assoc]

theorem has_unionOf {sets : List TaintSet} {kind : TaintKind} :
    (unionOf sets).has kind = true ↔ ∃ s ∈ sets, TaintSet.has s kind = true := by
  unfold unionOf
  rw [has_foldl_absorb]
  simp [has_nil]

end TaintSet

/-! ## The state of a body -/

/-- `is_prefix` -/
def isPrefix (short long : List Projection) : Bool := short.isPrefixOf long

/-- `covers`: the outer place is the inner one or an ancestor of it. -/
def Place.covers (outer inner : Place) : Bool :=
  outer.root == inner.root && isPrefix outer.projections inner.projections

/-- What the facts of `held` say about a read of `place`: `held` is an ancestor of it, or a
descendant, which a discriminant read does not see. -/
def Place.seenBy (held place : Place) (discriminantOnly : Bool) : Bool :=
  held.root == place.root && (isPrefix held.projections place.projections ||
    (isPrefix place.projections held.projections && !discriminantOnly))

/-- A sanitizer kill: the place lost the kind at the call in the block. -/
structure Kill where
  place : Place
  kind : TaintKind
  block : String
  deriving DecidableEq

/-- `TaintState`. The places stand in the order in which they got their first fact. -/
structure TaintState where
  places : List (Place × TaintSet) := []
  /-- The last place that each local was made a name of. -/
  aliases : List (Nat × Place) := []
  kills : List Kill := []
  deriving DecidableEq

namespace TaintState

/-- `canonical`, with the links left to follow. -/
def follow (state : TaintState) : Nat → Place → Place
  | 0, place => place
  | links + 1, place =>
    match state.aliases.lookup place.root with
    | none => place
    | some target =>
      let tail := match place.projections with
        | .deref :: rest => rest
        | projections => projections
      let next : Place := ⟨target.root, target.projections ++ tail⟩
      if next = place then place else state.follow links next

/-- `canonical` -/
def canonical (state : TaintState) (place : Place) : Place := state.follow 8 place

/-- `alias` -/
def addAlias (state : TaintState) (root : Nat) (target : Place) : TaintState :=
  let canonical := state.canonical target
  if canonical.root = root then state
  else { state with aliases := (root, canonical) :: state.aliases.filter fun a => a.1 ≠ root }

/-- `kill` -/
def kill (state : TaintState) (place : Place) (kind : TaintKind) (block : String) : TaintState :=
  let kill : Kill := ⟨state.canonical place, kind, block⟩
  if kill ∈ state.kills then state else { state with kills := state.kills ++ [kill] }

/-- `killed_kinds_at`: a kill counts where its block strictly dominates the read. -/
def killedKindsAt (state : TaintState) (body : Body) (place : Place) (at_ : Nat) : List TaintKind :=
  (state.kills.filter fun kill => kill.place.covers place &&
    (body.indexOf kill.block).any fun killAt => killAt != at_ && body.dominates killAt at_).map
      Kill.kind

/-- `read` -/
def read (state : TaintState) (place : Place) (discriminantOnly : Bool) : TaintSet :=
  let place := state.canonical place
  state.places.foldl (fun out (held, set) =>
    if held.seenBy place discriminantOnly then (TaintSet.absorb out set).1 else out) []

/-- `read_at` -/
def readAt (state : TaintState) (body : Body) (place : Place) (discriminantOnly : Bool)
    (atBlock : String) : TaintSet :=
  let raw := state.read place discriminantOnly
  if state.kills.isEmpty || raw.isEmpty then raw
  else match body.indexOf atBlock with
    | none => raw
    | some at_ => raw.without (state.killedKindsAt body (state.canonical place) at_)

/-- The places with `set` absorbed where `place` has an entry. -/
def absorbAt (place : Place) (set : TaintSet) :
    List (Place × TaintSet) → Option (List (Place × TaintSet) × Bool)
  | [] => none
  | (held, existing) :: rest =>
    if held = place then
      let (absorbed, changed) := existing.absorb set
      some ((held, absorbed) :: rest, changed)
    else (absorbAt place set rest).map fun (places, changed) => ((held, existing) :: places, changed)

/-- `add`: the state, and whether anything new has landed. -/
def add (state : TaintState) (place : Place) (set : TaintSet) : TaintState × Bool :=
  if set.isEmpty then (state, false)
  else
    let place := state.canonical place
    match absorbAt place set state.places with
    | some (places, changed) => ({ state with places }, changed)
    | none => ({ state with places := state.places ++ [(place, set)] }, true)

/-! ### What is stored -/

/-- The place itself holds a fact of the kind. -/
def Stores (state : TaintState) (place : Place) (kind : TaintKind) : Prop :=
  ∃ set, (place, set) ∈ state.places ∧ set.has kind = true

section NoAlias

variable {state : TaintState} {place : Place} {kind : TaintKind} {set : TaintSet}

theorem canonical_of_nil (h : state.aliases = []) (place : Place) : state.canonical place = place := by
  simp [canonical, follow, h]

theorem has_foldl_read {held : List (Place × TaintSet)} {discriminantOnly : Bool} :
    ∀ {out : TaintSet}, TaintSet.has (held.foldl (fun out (held, set) =>
        if held.seenBy place discriminantOnly then (TaintSet.absorb out set).1 else out) out) kind = true ↔
      out.has kind = true ∨
        ∃ entry ∈ held, entry.1.seenBy place discriminantOnly = true ∧ entry.2.has kind = true := by
  induction held with
  | nil => simp
  | cons entry held ih =>
    intro out
    obtain ⟨heldPlace, heldSet⟩ := entry
    rw [List.foldl_cons, ih]
    cases hseen : heldPlace.seenBy place discriminantOnly with
    | false => simp [hseen]
    | true => simp [hseen, TaintSet.has_absorb, or_assoc]

/-- **What a read sees**: every kind that the place, an ancestor or a descendant holds. -/
theorem has_read (h : state.aliases = []) {discriminantOnly : Bool} :
    (state.read place discriminantOnly).has kind = true ↔
      ∃ held, held.seenBy place discriminantOnly = true ∧ state.Stores held kind := by
  unfold read
  rw [canonical_of_nil h, has_foldl_read]
  simp only [TaintSet.has_nil, Bool.false_eq_true, false_or]
  constructor
  · rintro ⟨⟨held, set⟩, hmem, hseen, hhas⟩
    exact ⟨held, hseen, set, hmem, hhas⟩
  · rintro ⟨held, hseen, set, hmem, hhas⟩
    exact ⟨(held, set), hmem, hseen, hhas⟩

theorem mem_killedKindsAt {body : Body} {at_ : Nat} :
    kind ∈ state.killedKindsAt body place at_ ↔ ∃ kill ∈ state.kills, kill.kind = kind ∧
      kill.place.covers place = true ∧ ∃ killAt, body.indexOf kill.block = some killAt ∧
        killAt ≠ at_ ∧ body.dominates killAt at_ = true := by
  unfold killedKindsAt
  simp only [List.mem_map, List.mem_filter, Bool.and_eq_true, Option.any_eq_true, bne_iff_ne]
  constructor
  · rintro ⟨kill, ⟨hmem, hcovers, killAt, hat, hne, hdom⟩, rfl⟩
    exact ⟨kill, hmem, rfl, hcovers, killAt, hat, hne, hdom⟩
  · rintro ⟨kill, hmem, rfl, hcovers, killAt, hat, hne, hdom⟩
    exact ⟨kill, ⟨hmem, hcovers, killAt, hat, hne, hdom⟩, rfl⟩

/-- A read in a block, less the kinds killed there. -/
theorem has_readAt (h : state.aliases = []) {body : Body} {label : String} {at_ : Nat}
    (hat : body.indexOf label = some at_) {discriminantOnly : Bool} :
    (state.readAt body place discriminantOnly label).has kind = true ↔
      (state.read place discriminantOnly).has kind = true ∧
        kind ∉ state.killedKindsAt body place at_ := by
  unfold readAt
  simp only [hat, canonical_of_nil h]
  split_ifs with hempty
  · rw [Bool.or_eq_true, List.isEmpty_iff, List.isEmpty_iff] at hempty
    rcases hempty with hkills | hraw
    · simp [killedKindsAt, hkills]
    · simp [hraw, TaintSet.has_nil]
  · exact TaintSet.has_without

/-! ### Writing -/

/-- The entry of the place has absorbed the set, the others are as they were. -/
theorem absorbAt_some {places : List (Place × TaintSet)} :
    ∀ {places' : List (Place × TaintSet)} {changed : Bool},
      absorbAt place set places = some (places', changed) →
      ∃ front existing rest, places = front ++ (place, existing) :: rest ∧
        places' = front ++ (place, (existing.absorb set).1) :: rest ∧
        changed = (existing.absorb set).2 := by
  induction places with
  | nil =>
    intro places' changed h
    cases h
  | cons entry places ih =>
    intro places' changed h
    obtain ⟨held, existing⟩ := entry
    unfold absorbAt at h
    split_ifs at h with heq
    · subst heq
      simp only [Option.some.injEq, Prod.mk.injEq] at h
      exact ⟨[], existing, places, rfl, h.1.symm, h.2.symm⟩
    · obtain ⟨⟨inner, changed'⟩, hinner, heq⟩ := Option.map_eq_some_iff.mp h
      simp only [Prod.mk.injEq] at heq
      obtain ⟨front, existing', rest, hplaces, hplaces', hchanged⟩ := ih hinner
      refine ⟨(held, existing) :: front, existing', rest, ?_, ?_, heq.2 ▸ hchanged⟩
      · rw [hplaces, List.cons_append]
      · rw [← heq.1, hplaces', List.cons_append]

/-- Writing keeps every kind that a place holds. -/
theorem add_keeps (h : state.aliases = []) (hstores : state.Stores place kind) (dest : Place)
    (set : TaintSet) : (state.add dest set).1.Stores place kind := by
  obtain ⟨s, hmem, hhas⟩ := hstores
  unfold add
  split_ifs with hempty
  · exact ⟨s, hmem, hhas⟩
  · rw [canonical_of_nil h]
    cases habsorb : absorbAt dest set state.places with
    | none =>
      simp only [habsorb]
      exact ⟨s, List.mem_append_left _ hmem, hhas⟩
    | some result =>
      obtain ⟨places', changed⟩ := result
      simp only [habsorb]
      obtain ⟨front, existing, rest, hplaces, rfl, -⟩ := absorbAt_some habsorb
      rw [hplaces, List.mem_append, List.mem_cons, Prod.mk.injEq] at hmem
      rcases hmem with hmem | ⟨rfl, rfl⟩ | hmem
      · exact ⟨s, List.mem_append_left _ hmem, hhas⟩
      · exact ⟨_, List.mem_append_right _ List.mem_cons_self, TaintSet.has_absorb.mpr (.inl hhas)⟩
      · exact ⟨s, List.mem_append_right _ (List.mem_cons_of_mem _ hmem), hhas⟩

/-- Writing stores every kind of the set. -/
theorem add_stores (h : state.aliases = []) (place : Place) (hset : set.has kind = true) :
    (state.add place set).1.Stores place kind := by
  unfold add
  split_ifs with hempty
  · rw [List.isEmpty_iff.mp hempty] at hset
    cases hset
  · rw [canonical_of_nil h]
    cases habsorb : absorbAt place set state.places with
    | none =>
      simp only [habsorb]
      exact ⟨set, List.mem_append_right _ List.mem_cons_self, hset⟩
    | some result =>
      obtain ⟨places', changed⟩ := result
      simp only [habsorb]
      obtain ⟨front, existing, rest, hplaces, rfl, -⟩ := absorbAt_some habsorb
      exact ⟨_, List.mem_append_right _ List.mem_cons_self, TaintSet.has_absorb.mpr (.inr hset)⟩

/-- A write that reports nothing new leaves the state as it is. -/
theorem add_unchanged (hnew : (state.add place set).2 = false) : (state.add place set).1 = state := by
  unfold add at hnew ⊢
  split_ifs at hnew ⊢ with hempty
  · rfl
  · cases habsorb : absorbAt (state.canonical place) set state.places with
    | none => simp [habsorb] at hnew
    | some result =>
      obtain ⟨places', changed⟩ := result
      simp only [habsorb] at hnew ⊢
      obtain ⟨front, existing, rest, hplaces, rfl, rfl⟩ := absorbAt_some habsorb
      rw [TaintSet.absorb_unchanged hnew, ← hplaces]

@[simp] theorem add_aliases (state : TaintState) (place : Place) (set : TaintSet) :
    (state.add place set).1.aliases = state.aliases := by
  unfold add
  split_ifs
  · rfl
  · dsimp only
    split <;> rfl

@[simp] theorem add_kills (state : TaintState) (place : Place) (set : TaintSet) :
    (state.add place set).1.kills = state.kills := by
  unfold add
  split_ifs
  · rfl
  · dsimp only
    split <;> rfl

@[simp] theorem kill_aliases (state : TaintState) (place : Place) (kind : TaintKind)
    (block : String) : (state.kill place kind block).aliases = state.aliases := by
  unfold kill
  dsimp only
  split_ifs <;> rfl

@[simp] theorem kill_places (state : TaintState) (place : Place) (kind : TaintKind)
    (block : String) : (state.kill place kind block).places = state.places := by
  unfold kill
  dsimp only
  split_ifs <;> rfl

theorem mem_kill {k : Kill} {block : String} (h : state.aliases = [])
    (hk : k ∈ (state.kill place kind block).kills) : k ∈ state.kills ∨ k = ⟨place, kind, block⟩ := by
  unfold kill at hk
  dsimp only at hk
  rw [canonical_of_nil h] at hk
  split_ifs at hk
  · exact .inl hk
  · rcases List.mem_append.mp hk with hk | hk
    · exact .inl hk
    · exact .inr (List.mem_singleton.mp hk)

end NoAlias

end TaintState

end Harvest.Verify
