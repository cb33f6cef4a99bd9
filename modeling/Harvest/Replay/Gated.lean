import Harvest.Replay.Front

/-!
# The gates answer the same in every cycle

A cycle and a later one on the same history with more behind it. The later cycle goes in step with
the earlier one, call by call, up to where the earlier one was parked.

Proved here:
* `Takes.behind`: one call, with more behind.
* `Played.extended`: one cycle, with its own records and later arrivals behind its history.
* `gates_answer_as_first`: every cycle of every run.
-/

namespace Harvest.Replay

open HistoryMatcher

/-! ## Arrivals -/

section Arrivals

variable {id : ActivityExecId} {event : WorkflowEvent} {arrivals : List WorkflowEvent}
  {awaited awaited' : Option ActivityExecId}

theorem arrive_none (h : arrive none event = some awaited) : isSignal event ∧ awaited = none := by
  unfold arrive at h
  split_ifs at h with hsignal
  exact ⟨hsignal, (Option.some.inj h).symm⟩

theorem arrive_some (h : arrive (some id) event = some awaited) :
    (passesOver id event ∧ awaited = some id) ∨
      (activityScanRole event = .terminal id ∧ awaited = none) := by
  unfold arrive at h
  dsimp only at h
  rw [passesOver]
  split_ifs at h with hsignal hprogress hterminal
  · rw [hsignal]
    exact .inl ⟨Bool.true_or _, (Option.some.inj h).symm⟩
  · rw [decide_eq_true hprogress]
    exact .inl ⟨Bool.or_true _, (Option.some.inj h).symm⟩
  · exact .inr ⟨hterminal, (Option.some.inj h).symm⟩

/-- While no activity is waited for, only signals arrive. -/
theorem signals_of_arrivals (h : arrivals.foldlM arrive none = some awaited) :
    (∀ event ∈ arrivals, isSignal event) ∧ awaited = none := by
  induction arrivals with
  | nil =>
    cases h
    exact ⟨fun event hevent => absurd hevent List.not_mem_nil, rfl⟩
  | cons event arrivals ih =>
    rw [List.foldlM_cons, Option.bind_eq_bind, Option.bind_eq_some_iff] at h
    obtain ⟨next, hnext, hrest⟩ := h
    obtain ⟨hsignal, rfl⟩ := arrive_none hnext
    obtain ⟨hsignals, hawaited⟩ := ih hrest
    exact ⟨List.forall_mem_cons.mpr ⟨hsignal, hsignals⟩, hawaited⟩

/-- While an activity is waited for, its progress arrives, and at last its terminal event. -/
theorem activity_of_arrivals (h : arrivals.foldlM arrive (some id) = some awaited) :
    (∀ event ∈ arrivals, passesOver id event) ∨ ∃ passed stop rest,
      arrivals = passed ++ stop :: rest ∧ (∀ event ∈ passed, passesOver id event) ∧
        activityScanRole stop = .terminal id ∧ ∀ event ∈ rest, isSignal event := by
  induction arrivals with
  | nil => exact .inl fun event hevent => absurd hevent List.not_mem_nil
  | cons event arrivals ih =>
    rw [List.foldlM_cons, Option.bind_eq_bind, Option.bind_eq_some_iff] at h
    obtain ⟨next, hnext, hrest⟩ := h
    rcases arrive_some hnext with ⟨hover, rfl⟩ | ⟨hterminal, rfl⟩
    · rcases ih hrest with hall | ⟨passed, stop, rest, rfl, hpassed, hstop, hsignals⟩
      · exact .inl (List.forall_mem_cons.mpr ⟨hover, hall⟩)
      · exact .inr ⟨event :: passed, stop, rest, rfl, List.forall_mem_cons.mpr ⟨hover, hpassed⟩,
          hstop, hsignals⟩
    · exact .inr ⟨[], event, arrivals, rfl, fun event hevent => absurd hevent List.not_mem_nil,
        hterminal, (signals_of_arrivals hrest).1⟩

theorem isLogged_of_arrive (h : arrive awaited event = some awaited') : isLogged event = true := by
  cases event with
  | signalReceived | activityStarted | activityHeartbeat | activityCompleted | activityFailed
  | activityTimedOut => rfl
  | _ =>
    cases awaited with
    | none => cases h
    | some id => cases h

/-- No marker arrives between cycles. -/
theorem not_marker_of_arrivals (h : arrivals.foldlM arrive awaited = some awaited') {name : String}
    {details : Json} : WorkflowEvent.markerRecorded name details ∉ arrivals := by
  induction arrivals generalizing awaited with
  | nil => exact List.not_mem_nil
  | cons event arrivals ih =>
    rw [List.foldlM_cons, Option.bind_eq_bind, Option.bind_eq_some_iff] at h
    obtain ⟨next, hnext, hrest⟩ := h
    rintro (_ | ⟨_, hmem⟩)
    · cases awaited <;> cases hnext
    · exact ih hrest hmem

end Arrivals

/-! ## Markers -/

namespace Gate

theorem looksFor_markerName (gate : Gate) : gate.looksFor gate.markerName = true := by
  cases gate with
  | patched patchId => exact decide_eq_true (.inl rfl)
  | version changeId min max => exact decide_eq_true rfl

/-- A gate reads from its own marker the answer that it gave when it recorded it. -/
theorem marker_event (gate : Gate) :
    ∃ details, gate.marker.event = some (.markerRecorded gate.markerName details) ∧
      gate.read details = gate.new := by
  cases gate with
  | patched patchId => exact ⟨_, rfl, rfl⟩
  | version changeId min max =>
    refine ⟨_, rfl, ?_⟩
    rw [read, asU32_toUInt64]
    rfl

end Gate

/-! ## More behind -/

/-- The second front has the tail behind the first one. At the end of the first one, signals at the
start of the tail may be stashed. -/
def Behind (f g : Front) (tail : List WorkflowEvent) : Prop :=
  ∃ stashed rest, tail = stashed ++ rest ∧ (∀ event ∈ stashed, isSignal event) ∧
    (stashed ≠ [] → f.ahead = []) ∧
    g = ⟨f.stash ++ stashed.filterMap signalOf, f.ahead ++ rest⟩

/-- The gate takes no marker that comes first in the tail, past signals. -/
def Unclaimed (gate : Gate) (tail : List WorkflowEvent) : Prop :=
  ∀ name details rest, tail.dropWhile isSignal = .markerRecorded name details :: rest →
    ¬ gate.looksFor name

namespace Behind

variable {f g : Front} {tail : List WorkflowEvent}

theorem of_append (f : Front) (tail : List WorkflowEvent) :
    Behind f ⟨f.stash, f.ahead ++ tail⟩ tail := by
  refine ⟨[], tail, rfl, fun event hevent => absurd hevent List.not_mem_nil,
    fun hne => absurd rfl hne, ?_⟩
  rw [List.filterMap_nil, List.append_nil]

/-- Before the end of the first front nothing of the tail is stashed. -/
theorem eq_append (h : Behind f g tail) (hstash : f.ahead ≠ [] ∨
    ∃ event rest, tail = event :: rest ∧ ¬ isSignal event) :
    g = ⟨f.stash, f.ahead ++ tail⟩ := by
  obtain ⟨stashed, rest, rfl, hsignals, hend, rfl⟩ := h
  cases stashed with
  | nil => rw [List.filterMap_nil, List.append_nil, List.nil_append]
  | cons signal stashed =>
    rcases hstash with hahead | ⟨event, later, htail, hstays⟩
    · exact absurd (hend (List.cons_ne_nil _ _)) hahead
    · obtain ⟨rfl, -⟩ := List.cons.inj htail
      exact absurd (hsignals signal List.mem_cons_self) hstays

theorem signals (h : Behind f g tail) (hahead : ∀ event ∈ f.ahead, isSignal event)
    (htail : ∀ event ∈ tail, isSignal event) : ∀ event ∈ g.ahead, isSignal event := by
  obtain ⟨stashed, rest, rfl, -, -, rfl⟩ := h
  exact List.forall_mem_append.mpr ⟨hahead, fun event hevent =>
    htail event (List.mem_append_right _ hevent)⟩

end Behind

section Step

variable {fresh : ActivityExecId} {f f' g : Front} {call : WorkflowCall} {answer : Answer}
  {pushed : Option Command} {tail : List WorkflowEvent}

theorem Front.past_append (f : Front) (passed rest tail : List WorkflowEvent) :
    Behind (f.past passed rest) (Front.past ⟨f.stash, f.ahead ++ tail⟩ passed (rest ++ tail)) tail :=
  Behind.of_append (f.past passed rest) tail

/-- A gate over signals that are the last events, with more behind them. -/
theorem behind_drained {gate : Gate} (fresh' : ActivityExecId) (hleft : f.ahead ≠ [])
    (hsignals : ∀ event ∈ f.ahead, isSignal event) (hold : gate.old ≠ gate.new)
    (hunclaimed : Unclaimed gate tail) :
    ∃ g', Takes fresh' ⟨f.stash, f.ahead ++ tail⟩ (.gate gate) (.answered gate.old none) g' ∧
      Behind (f.past f.ahead []) g' tail := by
  cases hdrop : tail.dropWhile isSignal with
  | nil =>
    have htail := List.dropWhile_eq_nil_iff.mp hdrop
    have htakes := @Takes.drained fresh' ⟨f.stash, f.ahead ++ tail⟩ gate
      (fun hnil => hleft (List.append_eq_nil_iff.mp hnil).1)
      (List.forall_mem_append.mpr ⟨hsignals, htail⟩)
    rw [if_neg hold] at htakes
    refine ⟨_, htakes, tail, [], (List.append_nil _).symm, htail, fun _ => rfl, ?_⟩
    rw [Front.past, Front.past, List.filterMap_append, List.append_assoc]
    rfl
  | cons event rest =>
    have hsplit : tail = tail.takeWhile isSignal ++ event :: rest := by
      rw [← hdrop, List.takeWhile_append_dropWhile]
    have hstays : ¬ isSignal event := by
      have hnot := @List.head_dropWhile_not _ isSignal tail (by rw [hdrop]; exact List.cons_ne_nil _ _)
      simpa [hdrop] using hnot
    have hfront : ∀ event ∈ f.ahead ++ tail.takeWhile isSignal, isSignal event :=
      List.forall_mem_append.mpr ⟨hsignals, fun event => List.mem_takeWhile_imp⟩
    have hahead : f.ahead ++ tail = f.ahead ++ tail.takeWhile isSignal ++ event :: rest := by
      rw [List.append_assoc, ← hsplit]
    have htakes := @Takes.absent fresh' ⟨f.stash, f.ahead ++ tail⟩ gate event _ rest hahead hfront
      hstays fun name details hevent => hunclaimed name details rest (hevent ▸ hdrop)
    refine ⟨_, htakes, tail.takeWhile isSignal, event :: rest, hsplit,
      fun event => List.mem_takeWhile_imp, fun _ => rfl, ?_⟩
    rw [Front.past, Front.past, List.filterMap_append, List.append_assoc]
    rfl

/-- A gate at its own marker. -/
theorem behind_marker (fresh' : ActivityExecId) (gate : Gate)
    (hsignals : ∀ event ∈ f.ahead, isSignal event) :
    ∃ pushed' g', Takes fresh' ⟨f.stash, f.ahead ++ (gate.marker.event.toList ++ tail)⟩ (.gate gate)
        (.answered gate.new pushed') g' ∧
      Behind (f.past f.ahead []) g' tail ∧
      (gate.recordsAgain (f.ahead ++ (gate.marker.event.toList ++ tail)) = false →
        pushed' = none) := by
  obtain ⟨details, hevent, hread⟩ := gate.marker_event
  rw [hevent, ← hread]
  refine ⟨_, _, @Takes.taken fresh' ⟨f.stash, _⟩ gate gate.markerName details f.ahead tail rfl
    hsignals gate.looksFor_markerName, Behind.of_append (f.past f.ahead []) tail, fun honce => ?_⟩
  exact if_neg (Bool.eq_false_iff.mp honce)

/-- **One call**, with the event that it recorded and more behind: it is answered the same, and
records nothing again. -/
theorem Takes.behind (htakes : Takes fresh f call (.answered answer pushed) f')
    (fresh' : ActivityExecId) (hbehind : Behind f g ((pushed.bind Command.event).toList ++ tail))
    (honce : ∀ gate ∈ call.gate?, gate.recordsAgain f.ahead = false)
    (hunclaimed : ∀ gate ∈ call.gate?, gate.overSignals f.ahead → Unclaimed gate tail) :
    ∃ pushed' g', Takes fresh' g call (.answered answer pushed') g' ∧ Behind f' g' tail ∧
      ((∀ gate ∈ call.gate?, gate.recordsAgain g.ahead = false) → pushed' = none) := by
  cases htakes with
  | @completed id name input recorded queue recordedQueue front passed rest stop ended ahead signals
      skips ends result =>
    obtain rfl := hbehind.eq_append (.inl (by simp [ahead]))
    refine ⟨none, _, @Takes.completed fresh' ⟨f.stash, f.ahead ++ tail⟩ id name input recorded queue
      recordedQueue front passed (rest ++ tail) stop ended ?_ signals skips ends result,
      f.past_append _ _ _, fun _ => rfl⟩
    simp [ahead]
  | @claimed name payload before after stash others =>
    obtain ⟨stashed, rest, htail, hsignals, hend, rfl⟩ := hbehind
    refine ⟨none, _, @Takes.claimed fresh' _ name payload before
      (after ++ stashed.filterMap signalOf) ?_ others, ⟨stashed, rest, htail, hsignals, hend, ?_⟩,
      fun _ => rfl⟩
    · simp [stash]
    · simp
  | @found name payload passed rest stash ahead others =>
    obtain rfl := hbehind.eq_append (.inl (by simp [ahead]))
    refine ⟨none, _, @Takes.found fresh' ⟨f.stash, f.ahead ++ tail⟩ name payload passed
      (rest ++ tail) stash ?_ others, f.past_append _ _ _, fun _ => rfl⟩
    simp [ahead]
  | @live gate ahead =>
    obtain ⟨details, hevent, -⟩ := gate.marker_event
    have hmarker : (Option.bind (some gate.marker) Command.event).toList ++ tail =
        .markerRecorded gate.markerName details :: tail := by
      rw [Option.bind_some, hevent]
      rfl
    obtain rfl := hbehind.eq_append (.inr ⟨_, tail, hmarker, Bool.false_ne_true⟩)
    obtain ⟨pushed', g', htakes', hbehind', hpushed⟩ := @behind_marker f tail fresh' gate
      (by rw [ahead]; exact fun event hevent => absurd hevent List.not_mem_nil)
    have hsame : f.past f.ahead [] = f := by
      obtain ⟨stash, left⟩ := f
      cases ahead
      exact congrArg (Front.mk · []) (List.append_nil stash)
    rw [hsame] at hbehind'
    exact ⟨pushed', g', htakes', hbehind', fun honce' => hpushed (honce' gate rfl)⟩
  | @drained gate left signals =>
    by_cases hold : gate.old = gate.new
    · rw [if_pos hold] at hbehind
      obtain rfl := hbehind.eq_append (.inl left)
      obtain ⟨pushed', g', htakes', hbehind', hpushed⟩ := @behind_marker f tail fresh' gate signals
      rw [hold]
      exact ⟨pushed', g', htakes', hbehind', fun honce' => hpushed (honce' gate rfl)⟩
    · rw [if_neg hold] at hbehind
      obtain rfl := hbehind.eq_append (.inl left)
      have hanswers : gate.overSignals f.ahead = true := by
        rw [Gate.overSignals, List.isEmpty_eq_false_iff.mpr left, List.all_eq_true.mpr signals,
          decide_eq_true hold]
        rfl
      obtain ⟨g', htakes', hbehind'⟩ :=
        behind_drained fresh' left signals hold (hunclaimed gate rfl hanswers)
      exact ⟨none, g', htakes', hbehind', fun _ => rfl⟩
  | @taken gate name details front rest ahead signals looks =>
    rw [if_neg (Bool.eq_false_iff.mp (honce gate rfl))] at hbehind
    obtain rfl := hbehind.eq_append (.inl (by simp [ahead]))
    refine ⟨_, _, @Takes.taken fresh' ⟨f.stash, f.ahead ++ tail⟩ gate name details front
      (rest ++ tail) ?_ signals looks, f.past_append _ _ _, fun honce' => ?_⟩
    · simp [ahead]
    · exact if_neg (Bool.eq_false_iff.mp (honce' gate rfl))
  | @absent gate event front rest ahead signals stays other =>
    obtain rfl := hbehind.eq_append (.inl (by simp [ahead]))
    refine ⟨none, _, @Takes.absent fresh' ⟨f.stash, f.ahead ++ tail⟩ gate event front
      (rest ++ tail) ?_ signals stays other, f.past_append _ _ _, fun _ => rfl⟩
    simp [ahead]

end Step

/-! ## New calls -/

/-- Where only signals are left, every call has its turn, and leaves only signals. -/
theorem takes_of_signals (fresh : ActivityExecId) {f : Front}
    (hsignals : ∀ event ∈ f.ahead, isSignal event) (call : WorkflowCall) :
    ∃ turn f', Takes fresh f call turn f' ∧ ∀ event ∈ f'.ahead, isSignal event := by
  have hnone : ∀ event ∈ ([] : List WorkflowEvent), isSignal event :=
    fun event hevent => absurd hevent List.not_mem_nil
  cases call with
  | activity name input queue => exact ⟨_, _, .scheduled hsignals, hnone⟩
  | gate gate =>
    by_cases hleft : f.ahead = []
    · exact ⟨_, _, .live hleft, hsignals⟩
    · exact ⟨_, _, .drained hleft hsignals, hnone⟩
  | signal name =>
    cases hstash : f.stash.find? fun signal => signal.1 = name with
    | some signal =>
      obtain ⟨hname, before, after, hsplit, hbefore⟩ := List.find?_eq_some_iff_append.mp hstash
      obtain ⟨sent, payload⟩ := signal
      obtain rfl : sent = name := of_decide_eq_true hname
      refine ⟨_, _, .claimed hsplit fun signal hsignal => ?_, hsignals⟩
      simpa using hbefore signal hsignal
    | none =>
      have hothers : ∀ signal ∈ f.stash, signal.1 ≠ name := by
        simpa using List.find?_eq_none.mp hstash
      cases hahead : f.ahead.find? fun event => ! isOther name event with
      | none =>
        refine ⟨_, _, .unsent hothers ?_, hnone⟩
        simpa using List.find?_eq_none.mp hahead
      | some event =>
        obtain ⟨hname, before, after, hsplit, hbefore⟩ := List.find?_eq_some_iff_append.mp hahead
        rw [hsplit] at hsignals
        obtain ⟨-, hlater⟩ := List.forall_mem_append.mp hsignals
        obtain ⟨hevent, hafter⟩ := List.forall_mem_cons.mp hlater
        cases event with
        | signalReceived sent payload =>
          obtain rfl : sent = name := by simpa [isOther, signalOf] using hname
          refine ⟨_, _, .found hothers hsplit fun event hevent => ?_, hafter⟩
          simpa using hbefore event hevent
        | _ => cases hevent

theorem activityResult_of_terminal {id : ActivityExecId} {stop : WorkflowEvent}
    (h : activityScanRole stop = .terminal id) : ∃ ended, activityResult stop = some ended := by
  cases stop with
  | activityCompleted | activityFailed | activityTimedOut => exact ⟨_, rfl⟩
  | _ => cases h

/-- An activity that was scheduled, and what has arrived since. -/
theorem takes_awaited (fresh : ActivityExecId) {f : Front} {id : ActivityExecId} {name : String}
    {input recorded : Json} {queue recordedQueue : String}
    {front passed arrivals : List WorkflowEvent} {awaited : Option ActivityExecId}
    (hahead : f.ahead =
      front ++ .activityScheduled id name recorded recordedQueue :: (passed ++ arrivals))
    (hsignals : ∀ event ∈ front, isSignal event) (hover : ∀ event ∈ passed, passesOver id event)
    (harrivals : arrivals.foldlM arrive (some id) = some awaited) :
    ∃ turn f', Takes fresh f (.activity name input queue) turn f' ∧
      ∀ event ∈ f'.ahead, isSignal event := by
  rcases activity_of_arrivals harrivals with hall | ⟨more, stop, rest, rfl, hmore, hstop, hrest⟩
  · exact ⟨_, _, .inProgress hahead hsignals (List.forall_mem_append.mpr ⟨hover, hall⟩),
      fun event hevent => absurd hevent List.not_mem_nil⟩
  · obtain ⟨ended, hended⟩ := activityResult_of_terminal hstop
    rw [← List.append_assoc] at hahead
    exact ⟨_, _, .completed hahead hsignals (List.forall_mem_append.mpr ⟨hover, hmore⟩) hstop hended,
      hrest⟩

/-- **The call that a cycle was parked at**, in a later cycle. -/
theorem Takes.resumed {fresh : ActivityExecId} {f f' g : Front} {call : WorkflowCall}
    {pushed : Command} {arrivals : List WorkflowEvent} {awaited : Option ActivityExecId}
    (htakes : Takes fresh f call (.parked pushed) f') (fresh' : ActivityExecId)
    (hbehind : Behind f g (pushed.event.toList ++ arrivals))
    (harrivals : arrivals.foldlM arrive pushed.awaits = some awaited) :
    ∃ turn g', Takes fresh' g call turn g' ∧ ∀ event ∈ g'.ahead, isSignal event := by
  cases htakes with
  | @scheduled name input queue signals =>
    obtain rfl := hbehind.eq_append (.inr ⟨_, _, rfl, Bool.false_ne_true⟩)
    exact takes_awaited fresh' rfl signals
      (fun event (hevent : event ∈ []) => absurd hevent List.not_mem_nil) harrivals
  | @inProgress id name input recorded queue recordedQueue front passed ahead signals skips =>
    obtain rfl := hbehind.eq_append (.inl (by simp [ahead]))
    have hahead : f.ahead ++ arrivals =
        front ++ .activityScheduled id name recorded recordedQueue :: (passed ++ arrivals) := by
      rw [ahead, List.append_assoc, List.cons_append]
    exact takes_awaited fresh' hahead signals skips harrivals
  | @unsent name stash others =>
    refine takes_of_signals fresh' (hbehind.signals (fun event hevent => ?_)
      (signals_of_arrivals harrivals).1) _
    have hother := others event hevent
    cases event with
    | signalReceived => rfl
    | _ => cases hother

/-! ## Cycles -/

/-- A cycle that went to its end, and the fronts that its calls found. -/
inductive Played (w : Workflow) (fresh : ActivityExecId) :
    List Answer → Front → List Asked → Prop
  | returned {answers : List Answer} {f : Front} (next : w.next answers = none)
      (signals : ∀ event ∈ f.ahead, isSignal event) : Played w fresh answers f []
  | parked {answers : List Answer} {f f' : Front} {m : HistoryMatcher} {call : WorkflowCall}
      {pushed : Command} (next : w.next answers = some call) (shows' : Shows m f)
      (takes : Takes fresh f call (.parked pushed) f') :
      Played w fresh answers f [⟨m, call, .parked pushed⟩]
  | answered {answers : List Answer} {f f' : Front} {m : HistoryMatcher} {call : WorkflowCall}
      {answer : Answer} {pushed : Option Command} {rest : List Asked}
      (next : w.next answers = some call) (shows' : Shows m f)
      (takes : Takes fresh f call (.answered answer pushed) f')
      (played : Played w fresh (answers ++ [answer]) f' rest) :
      Played w fresh answers f (⟨m, call, .answered answer pushed⟩ :: rest)

/-- The second cycle answers every call that the first one answered, the same and without a record.
It may be cut off. -/
inductive Extends (cut : Prop) : List Asked → List Asked → Prop
  | cut (h : cut) (old : List Asked) : Extends cut old []
  | returned (now : List Asked) : Extends cut [] now
  | parked {asked : Asked} (gate : asked.gate? = none) (waits : asked.turn.answer = none)
      (now : List Asked) : Extends cut [asked] now
  | answered {first later : Asked} {old now : List Asked} (call : later.call = first.call)
      (same : later.turn.answer = first.turn.answer) (isSome : first.turn.answer.isSome)
      (pushed : later.turn.pushed = none) (h : Extends cut old now) :
      Extends cut (first :: old) (later :: now)

section Cycles

variable {w : Workflow} {fresh fresh' : ActivityExecId} {answers : List Answer} {f : Front}
  {m : HistoryMatcher}

theorem cycle_returned (hnext : w.next answers = none) (n : Nat) :
    w.cycle fresh n answers m = [] := by
  cases n with
  | zero => rfl
  | succ n => rw [Workflow.cycle, hnext]

theorem cycle_parked {call : WorkflowCall} {pushed : Command} (hnext : w.next answers = some call)
    (hturn : (call.exec fresh m).1 = .parked pushed) (n : Nat) :
    w.cycle fresh (n + 1) answers m = [⟨m, call, .parked pushed⟩] := by
  have hexec : call.exec fresh m = (.parked pushed, (call.exec fresh m).2) := Prod.ext hturn rfl
  rw [Workflow.cycle, hnext]
  dsimp only
  rw [hexec]

theorem cycle_answered {call : WorkflowCall} {answer : Answer} {pushed : Option Command}
    (hnext : w.next answers = some call)
    (hturn : (call.exec fresh m).1 = .answered answer pushed) (n : Nat) :
    w.cycle fresh (n + 1) answers m = ⟨m, call, .answered answer pushed⟩ ::
      w.cycle fresh n (answers ++ [answer]) (call.exec fresh m).2 := by
  have hexec : call.exec fresh m = (.answered answer pushed, (call.exec fresh m).2) :=
    Prod.ext hturn rfl
  rw [Workflow.cycle, hnext]
  dsimp only
  rw [hexec]

/-- **A cycle on signals only** goes to its end by the rules of the front. -/
theorem played_of_signals (n : Nat) (hshows : Shows m f)
    (hsignals : ∀ event ∈ f.ahead, isSignal event)
    (hends : (w.cycle fresh n answers m).length < n) :
    Played w fresh answers f (w.cycle fresh n answers m) := by
  induction n generalizing answers m f with
  | zero => exact absurd hends (Nat.not_lt_zero _)
  | succ n ih =>
    cases hnext : w.next answers with
    | none =>
      rw [cycle_returned hnext]
      exact .returned hnext hsignals
    | some call =>
      obtain ⟨turn, f', htakes, hlater⟩ := takes_of_signals fresh hsignals call
      obtain ⟨hturn, hshows'⟩ := exec_of_takes hshows htakes
      cases turn with
      | parked pushed =>
        rw [cycle_parked hnext hturn]
        exact .parked hnext hshows htakes
      | answered answer pushed =>
        rw [cycle_answered hnext hturn] at hends ⊢
        exact .answered hnext hshows htakes
          (ih (hshows' rfl) hlater (Nat.lt_of_succ_lt_succ hends))

theorem awaitedBy_answered {call : WorkflowCall} {answer : Answer} {pushed : Option Command}
    {f' : Front} {rest : List Asked} (htakes : Takes fresh f call (.answered answer pushed) f') :
    awaitedBy (⟨m, call, .answered answer pushed⟩ :: rest) = awaitedBy rest := by
  cases rest with
  | nil =>
    have hmarker (gate : Gate) : gate.marker.awaits = none := by cases gate <;> rfl
    have hnone (gate : Gate) (p : Prop) [Decidable p] :
        (if p then some gate.marker else none).bind Command.awaits = none := by
      split_ifs
      · exact hmarker gate
      · rfl
    cases htakes with
    | live ahead => exact hmarker _
    | drained left signals => exact hnone _ _
    | taken ahead signals looks => exact hnone _ _
    | _ => rfl
  | cons next rest => rw [awaitedBy, awaitedBy, List.getLast?_cons_cons]

theorem records_cons (asked : Asked) (rest : List Asked) :
    records (asked :: rest) = asked.turn.event.toList ++ records rest := by
  rw [records, records, List.filterMap_cons]
  cases asked.turn.event <;> rfl

theorem gates_cons_of_gate {asked : Asked} {gate : Gate} (h : asked.gate? = some gate)
    (rest : List Asked) : gates (asked :: rest) = asked :: gates rest :=
  List.filter_cons_of_pos (by rw [h]; rfl)

theorem gates_cons_of_none {asked : Asked} (h : asked.gate? = none) (rest : List Asked) :
    gates (asked :: rest) = gates rest :=
  List.filter_cons_of_neg (by rw [h]; exact Bool.false_ne_true)

/-- A cycle appends no signal. -/
theorem not_signal_of_records {cycle : List Asked} {event : WorkflowEvent}
    (h : event ∈ records cycle) : ¬ isSignal event := by
  obtain ⟨asked, -, hevent⟩ := List.mem_filterMap.mp h
  obtain ⟨pushed, -, hpushed⟩ := Option.bind_eq_some_iff.mp hevent
  cases pushed <;> cases hpushed <;> exact Bool.false_ne_true

/-- **At the end of the history** the first marker that a cycle records is that of its first
gate. -/
theorem Played.first_record {cycle : List Asked} (h : Played w fresh answers f cycle)
    (hahead : f.ahead = []) {name : String} {details : Json} {later : List WorkflowEvent}
    (hrecords : records cycle = .markerRecorded name details :: later) :
    ∃ asked gate, (gates cycle).head? = some asked ∧ asked.gate? = some gate ∧
      gate.markerName = name := by
  induction h with
  | returned next signals => cases hrecords
  | parked next shows' takes =>
    rw [records_cons] at hrecords
    cases takes <;> cases hrecords
  | @answered answers f f' m call answer pushed rest next shows' takes played ih =>
    rw [records_cons] at hrecords
    cases takes with
    | claimed stash others =>
      obtain ⟨asked, gate, hhead, hgate, hname⟩ := ih hahead hrecords
      exact ⟨asked, gate, (congrArg List.head? (gates_cons_of_none rfl rest)).trans hhead, hgate,
        hname⟩
    | @live gate ahead =>
      obtain ⟨recorded, hevent, -⟩ := gate.marker_event
      change gate.marker.event.toList ++ records rest = _ at hrecords
      rw [hevent] at hrecords
      cases hrecords
      exact ⟨_, gate, congrArg List.head? (gates_cons_of_gate rfl rest), rfl, rfl⟩
    | drained left signals => exact absurd hahead left
    | completed ahead signals skips ends result => simp [hahead] at ahead
    | found stash ahead others => simp [hahead] at ahead
    | taken ahead signals looks => simp [hahead] at ahead
    | absent ahead signals stays other => simp [hahead] at ahead

theorem Meets.tail {asked : Asked} {rest : List Asked} (h : Meets (asked :: rest)) : Meets rest := by
  refine ⟨fun other hother => h.once other (List.mem_cons_of_mem _ hother), ?_⟩
  have hapart := h.apart
  cases hgate : asked.gate? with
  | none => rwa [gates_cons_of_none hgate] at hapart
  | some gate =>
    rw [gates_cons_of_gate hgate] at hapart
    exact hapart.tail

/-- A gate that gave the old answer over signals does not take the first marker after them. -/
theorem unclaimed_of_meets {asked : Asked} {gate : Gate} {rest : List Asked}
    {arrivals : List WorkflowEvent} {awaited awaited' : Option ActivityExecId}
    (hmeets : Meets (asked :: rest)) (hgate : asked.gate? = some gate)
    (hold : gate.overSignals asked.before.left) (hplayed : Played w fresh answers f rest)
    (hahead : f.ahead = []) (harrivals : arrivals.foldlM arrive awaited = some awaited') :
    Unclaimed gate (records rest ++ arrivals) := by
  intro name details later hdrop hlooks
  cases hrecords : records rest with
  | nil =>
    rw [hrecords, List.nil_append] at hdrop
    have hmem : .markerRecorded name details ∈ arrivals.dropWhile isSignal := by
      rw [hdrop]
      exact List.mem_cons_self
    exact not_marker_of_arrivals harrivals ((List.dropWhile_suffix isSignal).mem hmem)
  | cons event more =>
    have hstays : ¬ isSignal event :=
      not_signal_of_records (hrecords.symm ▸ List.mem_cons_self)
    rw [hrecords, List.cons_append, List.dropWhile_cons_of_neg hstays] at hdrop
    obtain ⟨rfl, -⟩ := List.cons.inj hdrop
    obtain ⟨next, later, hhead, hnext, rfl⟩ := hplayed.first_record hahead hrecords
    have hapart := hmeets.apart
    rw [gates_cons_of_gate hgate] at hapart
    obtain ⟨gates', hgates⟩ := List.head?_eq_some_iff.mp hhead
    rw [hgates, List.isChain_cons_cons] at hapart
    have hlooksFor : asked.looksForNext next = true := by
      rw [Asked.looksForNext, hgate, Option.any_some, hold, hnext, Option.any_some, hlooks]
      rfl
    rw [hapart.1] at hlooksFor
    cases hlooksFor

/-- A gate over signals drains them all. -/
theorem Takes.ahead_of_overSignals {gate : Gate} {turn : Turn} {f' : Front}
    (htakes : Takes fresh f (.gate gate) turn f') (hold : gate.overSignals f.ahead) :
    f'.ahead = [] := by
  simp only [Gate.overSignals, Bool.and_eq_true, List.all_eq_true] at hold
  obtain ⟨⟨-, hsignals⟩, -⟩ := hold
  cases htakes with
  | live ahead => exact ahead
  | drained left signals => rfl
  | taken ahead signals looks =>
    cases hsignals _ (ahead ▸ List.mem_append_right _ List.mem_cons_self)
  | absent ahead signals stays other =>
    exact absurd (hsignals _ (ahead ▸ List.mem_append_right _ List.mem_cons_self)) stays

theorem Extends.mono {cut cut' : Prop} {old now : List Asked} (h : Extends cut old now)
    (hcut : cut → cut') : Extends cut' old now := by
  induction h with
  | cut h old => exact .cut (hcut h) old
  | returned now => exact .returned now
  | parked gate waits now => exact .parked gate waits now
  | answered call same isSome pushed h ih => exact .answered call same isSome pushed ih

/-- **A later cycle goes in step.** Behind the history of a cycle stand its own records, and what
arrived since. A cycle on all this answers the calls that the first one answered, and goes to its
end by the rules of the front. -/
theorem Played.extended {old : List Asked} (h : Played w fresh answers f old) (hmeets : Meets old)
    {arrivals : List WorkflowEvent} {awaited : Option ActivityExecId}
    (harrivals : arrivals.foldlM arrive (awaitedBy old) = some awaited) {g : Front}
    (hbehind : Behind f g (records old ++ arrivals)) (hshows : Shows m g) (n : Nat)
    (hnow : Meets (w.cycle fresh' n answers m)) :
    Extends (n ≤ (w.cycle fresh' n answers m).length) old (w.cycle fresh' n answers m) ∧
      ((w.cycle fresh' n answers m).length < n →
        Played w fresh' answers g (w.cycle fresh' n answers m)) := by
  induction h generalizing g m n with
  | returned next signals =>
    rw [cycle_returned next]
    refine ⟨.returned _, fun _ => .returned next ?_⟩
    exact hbehind.signals signals (signals_of_arrivals harrivals).1
  | @parked answers f f' before call pushed next shows' takes =>
    have hgate : call.gate? = none := by cases takes <;> rfl
    refine ⟨@Extends.parked _ ⟨before, call, .parked pushed⟩ hgate rfl _, fun hends => ?_⟩
    obtain ⟨turn, g', htakes, hsignals⟩ := takes.resumed fresh' hbehind harrivals
    obtain ⟨hturn, hshows'⟩ := exec_of_takes hshows htakes
    cases n with
    | zero => exact absurd hends (Nat.not_lt_zero _)
    | succ n =>
      cases turn with
      | parked pushed =>
        rw [cycle_parked next hturn]
        exact .parked next hshows htakes
      | answered answer pushed =>
        rw [cycle_answered next hturn] at hends ⊢
        exact .answered next hshows htakes
          (played_of_signals n (hshows' rfl) hsignals (Nat.lt_of_succ_lt_succ hends))
  | @answered answers f f' before call answer pushed rest next shows' takes played ih =>
    cases n with
    | zero => exact ⟨.cut (Nat.zero_le _) _, fun hends => absurd hends (Nat.not_lt_zero _)⟩
    | succ n =>
      rw [awaitedBy_answered takes] at harrivals
      rw [records_cons, List.append_assoc] at hbehind
      have honce : ∀ gate ∈ call.gate?, gate.recordsAgain f.ahead = false := by
        intro gate hgate
        have honce := hmeets.once _ List.mem_cons_self
        rw [Asked.recordsAgain, Asked.gate?, hgate, Option.any_some, shows'.left] at honce
        exact honce
      have hunclaimed : ∀ gate ∈ call.gate?, gate.overSignals f.ahead →
          Unclaimed gate (records rest ++ arrivals) := by
        intro gate hgate hold
        cases call with
        | gate asked =>
          obtain rfl := Option.some.inj hgate
          exact unclaimed_of_meets hmeets rfl (by rwa [shows'.left]) played
            (takes.ahead_of_overSignals hold) harrivals
        | _ => cases hgate
      obtain ⟨pushed', g', htakes, hbehind', hpushed⟩ :=
        takes.behind fresh' hbehind honce hunclaimed
      obtain ⟨hturn, hshows'⟩ := exec_of_takes hshows htakes
      rw [cycle_answered next hturn] at hnow ⊢
      have hnone : pushed' = none := by
        refine hpushed fun gate hgate => ?_
        have honce := hnow.once _ List.mem_cons_self
        rw [Asked.recordsAgain, Asked.gate?, hgate, Option.any_some, hshows.left] at honce
        exact honce
      obtain ⟨hextends, hplayed⟩ :=
        ih hmeets.tail harrivals hbehind' (hshows' rfl) n hnow.tail
      refine ⟨.answered rfl rfl rfl hnone (hextends.mono Nat.succ_le_succ), fun hends => ?_⟩
      exact .answered next hshows htakes (hplayed (Nat.lt_of_succ_lt_succ hends))

end Cycles

/-! ## Runs -/

namespace Extends

theorem trans {cut : Prop} {old mid now : List Asked} (h : Extends False old mid)
    (hmid : Extends cut mid now) : Extends cut old now := by
  induction h generalizing now with
  | cut h old => exact h.elim
  | returned mid => exact .returned now
  | parked gate waits mid => exact .parked gate waits now
  | @answered first later old mid call same isSome pushed h ih =>
    cases hmid with
    | cut h mid => exact .cut h _
    | parked gate waits now =>
      rw [← same, waits] at isSome
      cases isSome
    | answered call' same' isSome' pushed' h' =>
      exact .answered (call'.trans call) (same'.trans same) isSome pushed' (ih h')

/-- The gate calls of the two cycles, one by one. -/
theorem gates {cut : Prop} {old now : List Asked} (h : Extends cut old now) {k : Nat}
    {first later : Asked} (hfirst : (Replay.gates old)[k]? = some first)
    (hlater : (Replay.gates now)[k]? = some later) :
    later.call = first.call ∧ later.turn.answer = first.turn.answer ∧ later.turn.pushed = none := by
  induction h generalizing k with
  | cut h old => cases hlater
  | returned now => cases hfirst
  | parked gate waits now =>
    rw [gates_cons_of_none gate] at hfirst
    cases hfirst
  | @answered asked asked' old now call same isSome pushed h ih =>
    have hsame : asked'.gate? = asked.gate? := congrArg WorkflowCall.gate? call
    cases hgate : asked.gate? with
    | none =>
      rw [gates_cons_of_none hgate] at hfirst
      rw [gates_cons_of_none (hsame.trans hgate)] at hlater
      exact ih hfirst hlater
    | some gate =>
      rw [gates_cons_of_gate hgate] at hfirst
      rw [gates_cons_of_gate (hsame.trans hgate)] at hlater
      cases k with
      | zero =>
        obtain rfl := Option.some.inj hfirst
        obtain rfl := Option.some.inj hlater
        exact ⟨call, same, pushed⟩
      | succ k => exact ih hfirst hlater

end Extends

theorem isPlain_of_logged {event : WorkflowEvent} (h : isLogged event) : isPlain event = true := by
  cases event with
  | activityScheduled => exact h
  | signalReceived | markerRecorded | activityStarted | activityHeartbeat | activityCompleted
  | activityFailed | activityTimedOut => rfl
  | _ => cases h

/-- The front that a cycle opens with. -/
theorem shows_cycleMatcher {started : WorkflowEvent} (hstarted : isWorkflowStarted started)
    {history : List WorkflowEvent} (hlogged : ∀ event ∈ history, isLogged event) :
    Shows (cycleMatcher (started :: history)) ⟨[], history⟩ := by
  have hplain : isPlain started = true := by
    cases started with
    | workflowStarted => rfl
    | _ => cases hstarted
  have hfresh := @new_isConsumed (started :: history) (List.forall_mem_cons.mpr
    ⟨hplain, fun event hevent => isPlain_of_logged (hlogged event hevent)⟩)
  have hadvance : (HistoryMatcher.new (started :: history)).advance =
      { HistoryMatcher.new (started :: history) with cursor := 1 }.advanceToNextUnconsumedEvent :=
    if_pos (Nat.succ_pos _)
  rw [cycleMatcher, hadvance]
  refine Shows.advance ⟨?_, rfl, rfl, rfl, hlogged⟩
  exact unconsumed_map_fst hfresh history 1

theorem Played.logged {w : Workflow} {fresh : ActivityExecId} {answers : List Answer} {f : Front}
    {cycle : List Asked} (h : Played w fresh answers f cycle) :
    ∀ event ∈ records cycle, isLogged event := by
  have hmarker (gate : Gate) : ∀ event ∈ gate.marker.event, isLogged event := by
    cases gate <;> exact fun event hevent => Option.some.inj hevent ▸ rfl
  have hnone (gate : Gate) (p : Prop) [Decidable p] :
      ∀ event ∈ (if p then some gate.marker else none).bind Command.event, isLogged event := by
    split_ifs
    · exact hmarker gate
    · exact fun event hevent => by cases hevent
  induction h with
  | returned next signals => exact fun event hevent => absurd hevent List.not_mem_nil
  | parked next shows' takes =>
    rw [records_cons]
    cases takes with
    | scheduled signals =>
      intro event hevent
      obtain rfl := List.mem_singleton.mp hevent
      exact w.proper _ _ next
    | _ => exact fun event hevent => absurd hevent List.not_mem_nil
  | @answered answers f f' m call answer pushed rest next shows' takes played ih =>
    rw [records_cons]
    refine List.forall_mem_append.mpr ⟨fun event hmem => ?_, ih⟩
    have hevent : event ∈ pushed.bind Command.event := Option.mem_toList.mp hmem
    clear hmem
    cases takes with
    | live ahead => exact hmarker _ event hevent
    | drained left signals => exact hnone _ _ event hevent
    | taken ahead signals looks => exact hnone _ _ event hevent
    | _ => cases hevent

/-- Where a run stands: the history of its last cycle, the records of that cycle, and what arrived
since. The last cycle extends the others. -/
inductive Standing (w : Workflow) (started : WorkflowEvent) : List (List Asked) → RunState → Prop
  | start {arrivals : List WorkflowEvent} {awaited : Option ActivityExecId}
      (arrives : arrivals.foldlM arrive none = some awaited) :
      Standing w started [] ⟨started :: arrivals, awaited⟩
  | after {cycles : List (List Asked)} {last : List Asked} {fresh : ActivityExecId}
      {history arrivals : List WorkflowEvent} {awaited : Option ActivityExecId}
      (logged : ∀ event ∈ history ++ (records last ++ arrivals), isLogged event)
      (played : Played w fresh [] ⟨[], history⟩ last) (mem : last ∈ cycles)
      (arrives : arrivals.foldlM arrive (awaitedBy last) = some awaited)
      (extends' : ∀ cycle ∈ cycles, cycle = last ∨ Extends False cycle last) :
      Standing w started cycles ⟨started :: (history ++ (records last ++ arrivals)), awaited⟩

section Runs

variable {w : Workflow} {started : WorkflowEvent} {cycles : List (List Asked)} {s : RunState}

theorem isLogged_of_signal {event : WorkflowEvent} (h : isSignal event) : isLogged event = true := by
  cases event with
  | signalReceived => rfl
  | _ => cases h

theorem foldlM_snoc {arrivals : List WorkflowEvent} {event : WorkflowEvent}
    {awaited awaited' awaited'' : Option ActivityExecId}
    (h : arrivals.foldlM arrive awaited = some awaited')
    (hevent : arrive awaited' event = some awaited'') :
    (arrivals ++ [event]).foldlM arrive awaited = some awaited'' := by
  rw [List.foldlM_append, h, Option.bind_eq_bind, Option.bind_some, List.foldlM_cons, hevent]
  rfl

theorem Standing.append (h : Standing w started cycles s) {event : WorkflowEvent}
    {awaited : Option ActivityExecId} (hevent : arrive s.awaited event = some awaited) :
    Standing w started cycles ⟨s.history ++ [event], awaited⟩ := by
  cases h with
  | start arrives => exact .start (foldlM_snoc arrives hevent)
  | @after _ last fresh history arrivals awaited' logged played mem arrives extends' =>
    have hhistory : started :: (history ++ (records last ++ arrivals)) ++ [event] =
        started :: (history ++ (records last ++ (arrivals ++ [event]))) := by
      simp
    rw [hhistory]
    refine .after ?_ played mem (foldlM_snoc arrives hevent) extends'
    rw [← List.append_assoc, ← List.append_assoc, List.append_assoc history]
    exact List.forall_mem_append.mpr ⟨logged,
      List.forall_mem_singleton.mpr (isLogged_of_arrive hevent)⟩

/-- **The next cycle of a run** extends every cycle before it. -/
theorem Standing.next (h : Standing w started cycles s) (hstarted : isWorkflowStarted started)
    (hmeets : ∀ cycle ∈ cycles, Meets cycle) (fresh : ActivityExecId) (n : Nat)
    (hnow : Meets (w.cycle fresh n [] (cycleMatcher s.history))) :
    (∀ cycle ∈ cycles, Extends (n ≤ (w.cycle fresh n [] (cycleMatcher s.history)).length) cycle
      (w.cycle fresh n [] (cycleMatcher s.history))) ∧
    ((w.cycle fresh n [] (cycleMatcher s.history)).length < n →
      Standing w started (cycles ++ [w.cycle fresh n [] (cycleMatcher s.history)])
        (s.commit (w.cycle fresh n [] (cycleMatcher s.history)))) := by
  have hcommit {history : List WorkflowEvent} (hlogged : ∀ event ∈ history, isLogged event)
      {now : List Asked} (hplayed : Played w fresh [] ⟨[], history⟩ now)
      (hextends : ∀ cycle ∈ cycles, Extends False cycle now) {awaited : Option ActivityExecId} :
      Standing w started (cycles ++ [now])
        (RunState.commit ⟨started :: history, awaited⟩ now) := by
    have hhistory : started :: history ++ records now =
        started :: (history ++ (records now ++ [])) := by
      simp
    rw [RunState.commit, hhistory]
    refine .after ?_ hplayed (List.mem_append_right _ List.mem_cons_self) rfl ?_
    · rw [List.append_nil]
      exact List.forall_mem_append.mpr ⟨hlogged, hplayed.logged⟩
    · exact List.forall_mem_append.mpr ⟨fun cycle hcycle => .inr (hextends cycle hcycle),
        List.forall_mem_singleton.mpr (.inl rfl)⟩
  cases h with
  | @start arrivals awaited arrives =>
    obtain ⟨hsignals, -⟩ := signals_of_arrivals arrives
    have hlogged := fun event hevent => isLogged_of_signal (hsignals event hevent)
    refine ⟨fun cycle hcycle => absurd hcycle List.not_mem_nil, fun hends => ?_⟩
    exact hcommit hlogged (played_of_signals n (shows_cycleMatcher hstarted hlogged) hsignals hends)
      fun cycle hcycle => absurd hcycle List.not_mem_nil
  | @after _ last fresh' history arrivals awaited logged played mem arrives extends' =>
    obtain ⟨hextends, hplayed⟩ := played.extended (hmeets last mem) arrives
      (Behind.of_append ⟨[], history⟩ (records last ++ arrivals))
      (shows_cycleMatcher hstarted logged) n hnow
    have hall {cut : Prop} {now : List Asked} (hlast : Extends cut last now) :
        ∀ cycle ∈ cycles, Extends cut cycle now := by
      intro cycle hcycle
      rcases extends' cycle hcycle with rfl | hcycle
      · exact hlast
      · exact hcycle.trans hlast
    refine ⟨hall hextends, fun hends => hcommit logged (hplayed hends) (hall ?_)⟩
    exact hextends.mono (Nat.not_le_of_lt hends)

theorem Run.standing (h : Run w started cycles s) (hstarted : isWorkflowStarted started)
    (hmeets : ∀ cycle ∈ cycles, Meets cycle) : Standing w started cycles s := by
  induction h with
  | start => exact .start rfl
  | append run arrives ih => exact (ih hmeets).append arrives
  | cycle fresh n run ends ih =>
    obtain ⟨hbefore, hnow⟩ := List.forall_mem_append.mp hmeets
    exact ((ih hbefore).next hstarted hbefore fresh n (hnow _ List.mem_cons_self)).2 ends

end Runs

/-- **A gate answers the same in every replay.** In a run of which no cycle reaches a defect, the
`k`-th gate call is the same call in every later cycle, is answered as in the first cycle that
reached it, and records its marker once. -/
theorem gates_answer_as_first (w : Workflow) (started : WorkflowEvent)
    (hstarted : isWorkflowStarted started) (cycles : List (List Asked)) (s : RunState)
    (hrun : Run w started cycles s) (hmeets : ∀ cycle ∈ cycles, Meets cycle)
    (fresh : ActivityExecId) (n : Nat)
    (hnow : Meets (w.cycle fresh n [] (cycleMatcher s.history))) :
    ∀ cycle ∈ cycles, ∀ (k : Nat) (first later : Asked), (gates cycle)[k]? = some first →
      (gates (w.cycle fresh n [] (cycleMatcher s.history)))[k]? = some later →
      later.call = first.call ∧ later.turn.answer = first.turn.answer ∧
        (first.turn.pushed.isSome → later.turn.pushed = none) := by
  intro cycle hcycle k first later hfirst hlater
  have hstanding := hrun.standing hstarted hmeets
  have hextends := (hstanding.next hstarted hmeets fresh n hnow).1 cycle hcycle
  obtain ⟨hcall, hanswer, hpushed⟩ := hextends.gates hfirst hlater
  exact ⟨hcall, hanswer, fun _ => hpushed⟩

/-! ## The defects -/

/-- A start without any input. -/
def bareStart : WorkflowEvent := .workflowStarted .null 0 none none none

/-- The same gate twice, then an activity. -/
def twicePatched : Workflow where
  next answers :=
    match answers.length with
    | 0 | 1 => some (.gate (.patched "a"))
    | 2 => some (.activity "ship" .null "default")
    | _ => none
  proper answers call h := by
    split at h <;> cases h <;> decide

/-- A version gate, then a wait. -/
def versionThenWait : Workflow where
  next answers :=
    match answers.length with
    | 0 => some (.gate (.version "v" 0 1))
    | 1 => some (.signal "go")
    | _ => none
  proper answers call h := by
    split at h <;> cases h <;> decide

/-- A signal came before the first cycle. -/
def greeted : RunState := ⟨[bareStart, .signalReceived "hello" .null], none⟩

def greetedCycle : List Asked := twicePatched.cycle ⟨1⟩ 4 [] (cycleMatcher greeted.history)

def waitingCycle : List Asked := versionThenWait.cycle ⟨1⟩ 4 [] (cycleMatcher [bareStart])

/-- The first gate drains the signal and answers the old branch, the second one records a marker,
and in the next cycle the first gate takes it. A version gate that takes the last event of the
history records its marker again. -/
theorem a_gate_changes_and_a_marker_repeats :
    (Run twicePatched bareStart [greetedCycle] (greeted.commit greetedCycle) ∧
      (gates greetedCycle).map (fun asked => asked.turn.answer) =
        [some (.patched false), some (.patched true)] ∧
      (gates (twicePatched.cycle ⟨2⟩ 4 []
        (cycleMatcher (greeted.commit greetedCycle).history))).map (fun asked => asked.turn.answer) =
        [some (.patched true), some (.patched false)]) ∧
    (Run versionThenWait bareStart [waitingCycle] (RunState.commit ⟨[bareStart], none⟩ waitingCycle) ∧
      (gates waitingCycle).map (fun asked => asked.turn.pushed.isSome) = [true] ∧
      (gates (versionThenWait.cycle ⟨2⟩ 4 [] (cycleMatcher
        (RunState.commit ⟨[bareStart], none⟩ waitingCycle).history))).map
          (fun asked => asked.turn.pushed.isSome) = [true]) := by
  refine ⟨⟨?_, by decide +kernel, by decide +kernel⟩, ⟨?_, by decide +kernel, by decide +kernel⟩⟩
  · exact .cycle ⟨1⟩ 4 (.append .start rfl) (by decide +kernel)
  · exact .cycle ⟨1⟩ 4 .start (by decide +kernel)

/-- Two gates, a wait, one of the gates again, and an activity. -/
def gatedOrder : Workflow where
  next answers :=
    match answers.length with
    | 0 | 3 => some (.gate (.patched "a"))
    | 1 => some (.gate (.version "v" 0 1))
    | 2 => some (.signal "go")
    | 4 => some (.activity "ship" .null "default")
    | _ => none
  proper answers call h := by
    split at h <;> cases h <;> decide

def openingCycle : List Asked := gatedOrder.cycle ⟨1⟩ 6 [] (cycleMatcher [bareStart])

/-- After the first cycle two signals have come. -/
def resumed : RunState :=
  ⟨(RunState.commit ⟨[bareStart], none⟩ openingCycle).history ++ [.signalReceived "hello" .null] ++
    [.signalReceived "go" (.bool true)], none⟩

/-- The second cycle answers the two gates of the first one as it did. -/
theorem the_order_is_gated_as_before :
    (gates openingCycle).map (fun asked => asked.turn.answer) =
      [some (.patched true), some (.version 1)] ∧
    ∀ (k : Nat) (first later : Asked), (gates openingCycle)[k]? = some first →
      (gates (gatedOrder.cycle ⟨2⟩ 6 [] (cycleMatcher resumed.history)))[k]? = some later →
      later.call = first.call ∧ later.turn.answer = first.turn.answer ∧
        (first.turn.pushed.isSome → later.turn.pushed = none) := by
  refine ⟨by decide +kernel, gates_answer_as_first gatedOrder bareStart rfl [openingCycle] resumed ?_
    (List.forall_mem_singleton.mpr ⟨by decide +kernel, by decide +kernel⟩) ⟨2⟩ 6
    ⟨by decide +kernel, by decide +kernel⟩ openingCycle List.mem_cons_self⟩
  exact .append (.append (.cycle ⟨1⟩ 6 .start (by decide +kernel)) rfl) rfl

end Harvest.Replay
