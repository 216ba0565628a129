import Lineation.Session

/-!
What a step answers and what it asks.

A lookup reads a view of its state when the view alone determines the answer and the lookup leaves
the view as it is (`Lookup.Reads`). Such lookups compose: what follows a lookup finds the view
unchanged. Looking up an offset reads the line table, whatever the index remembers, and so do all
operations made from it and the steps of a session, as far as they are not about the memory itself
(`exists_reads_perform`). No step changes a line table, so caching cannot be seen in the answers.

Apart from its answer, a step does to a session what its requests do one after the other
(`asks_perform`): it leaves the same indexes and reports the same events. Where a step stops early,
so do its requests. What holds of a run of steps can therefore be proved of a run of requests, which
are of two kinds only.
-/

set_option autoImplicit false
set_option relaxedAutoImplicit false

namespace Lineation

namespace Lookup

variable {σ τ α β : Type}

/-- The lookup answers what `answer` computes from a view of the state, and leaves the view as it
is. -/
structure Reads (view : σ → τ) (lookup : Lookup σ α) (answer : τ → Except OutOfRange α) :
    Prop where
  result : ∀ state, (lookup.run state).result = answer (view state)
  kept : ∀ state, view (lookup.run state).state = view state

namespace Reads

variable {view : σ → τ}

theorem pure (value : α) : Reads view (pure value) fun _ => .ok value :=
  ⟨fun _ => rfl, fun _ => rfl⟩

theorem ofResult (result : Except OutOfRange α) :
    Reads view (Lookup.ofResult result) fun _ => result :=
  ⟨fun _ => by rw [run_ofResult], fun _ => by rw [run_ofResult]⟩

theorem bind {first : Lookup σ α} {next : α → Lookup σ β} {answer : τ → Except OutOfRange α}
    {answers : α → τ → Except OutOfRange β} (reads : Reads view first answer)
    (later : ∀ value, Reads view (next value) (answers value)) :
    Reads view (first >>= next) fun seen => answer seen >>= fun value => answers value seen := by
  constructor
  · intro state
    have result := reads.result state
    have kept := reads.kept state
    rw [run_bind]
    rcases ran : first.run state with ⟨failure | value, middle, events⟩
    · rw [ran] at result
      rw [← result]
      rfl
    · rw [ran] at result kept
      rw [← result, ← kept]
      exact (later value).result middle
  · intro state
    have kept := reads.kept state
    rw [run_bind]
    rcases ran : first.run state with ⟨failure | value, middle, events⟩
    · rw [ran] at kept
      exact kept
    · rw [ran] at kept
      exact ((later value).kept middle).trans kept

theorem map {lookup : Lookup σ α} {answer : τ → Except OutOfRange α}
    (reads : Reads view lookup answer) (f : α → β) :
    Reads view (f <$> lookup) fun seen => (answer seen).map f := by
  constructor
  · intro state
    rw [run_map, reads.result state]
  · intro state
    rw [run_map]
    exact reads.kept state

theorem attempt {lookup : Lookup σ α} {answer : τ → Except OutOfRange α}
    (reads : Reads view lookup answer) : Reads view lookup.attempt fun seen => .ok (answer seen) :=
  ⟨fun state => congrArg Except.ok (reads.result state), fun state => reads.kept state⟩

theorem mapM {γ : Type} {f : γ → Lookup σ α} {answers : γ → τ → Except OutOfRange α}
    (each : ∀ item, Reads view (f item) (answers item)) (items : List γ) :
    Reads view (items.mapM f) fun seen => items.mapM fun item => answers item seen := by
  induction items with
  | nil => exact pure []
  | cons item rest ih =>
    simp only [List.mapM_cons]
    exact (each item).bind fun value => ih.bind fun values => pure (value :: values)

theorem focus {n : Nat} {lookup : Lookup σ α} {answer : τ → Except OutOfRange α}
    (reads : Reads view lookup answer) (i : Fin n) :
    Reads (fun (states : Vector σ n) (j : Fin n) => view (states.get j)) (lookup.focus i)
      fun seen => answer (seen i) := by
  constructor
  · intro states
    exact reads.result (states.get i)
  · intro states
    funext j
    rw [get_state_focus]
    split
    · exact reads.kept (states.get j)
    · rfl

end Reads
end Lookup

theorem exists_of_bind_eq_ok {ε α β : Type} {first : Except ε α} {next : α → Except ε β}
    {value : β} (returned : first >>= next = .ok value) :
    ∃ middle, first = .ok middle ∧ next middle = .ok value := by
  cases first with
  | error failure => cases returned
  | ok middle => exact ⟨middle, rfl, returned⟩

theorem error_or_of_bind_eq_error {ε α β : Type} {first : Except ε α} {next : α → Except ε β}
    {failure : ε} (failed : first >>= next = .error failure) :
    first = .error failure ∨ ∃ middle, first = .ok middle ∧ next middle = .error failure := by
  cases first with
  | error other => exact Or.inl (congrArg Except.error (Except.error.inj failed))
  | ok middle => exact Or.inr ⟨middle, rfl, failed⟩

namespace LineTable

/-- The answer to a lookup, read off the table. -/
def locate (table : LineTable) (offset : Nat) : Except OutOfRange Location :=
  if offset ≤ table.length then .ok (table.place offset)
  else .error (.ofOffset offset table.length)

def locateSigned (table : LineTable) (offset : Int) : Except OutOfRange Location :=
  if offset < 0 then .error ⟨offset, table.length⟩ else table.locate offset.toNat

def locateSpan (table : LineTable) (span : Span) : Except OutOfRange SpanLocation := do
  let start ← table.locate span.base
  match span.stop? with
  | some stop =>
    let stop ← table.locate stop
    return { start, stop }
  | none => .error ⟨maxSigned, table.length⟩

theorem locate_eq_ok_iff (table : LineTable) (offset : Nat) (location : Location) :
    table.locate offset = .ok location ↔
      offset ≤ table.length ∧ table.place offset = location := by
  unfold locate
  by_cases inside : offset ≤ table.length
  · simp [inside]
  · simp [inside]

theorem locateSpan_eq_ok {table : LineTable} {span : Span} {found : SpanLocation}
    (located : table.locateSpan span = .ok found) :
    found.start = table.place span.base ∧
      found.stop = table.place (span.base + span.length) := by
  obtain ⟨start, first, rest⟩ := exists_of_bind_eq_ok located
  obtain ⟨_, rfl⟩ := (table.locate_eq_ok_iff span.base start).mp first
  cases stops : span.stop? with
  | none =>
    rw [stops] at rest
    cases rest
  | some stop =>
    rw [stops] at rest
    obtain ⟨last, second, made⟩ := exists_of_bind_eq_ok rest
    obtain ⟨_, rfl⟩ := (table.locate_eq_ok_iff stop last).mp second
    obtain ⟨sum, _⟩ := (span.stop?_eq_some_iff stop).mp stops
    obtain rfl := Except.ok.inj made
    rw [sum]
    exact ⟨rfl, rfl⟩

end LineTable

namespace Index

theorem reads_locate (offset : Nat) :
    (locate offset).Reads Index.table fun table => table.locate offset :=
  ⟨fun index => result_locate index offset, fun index => table_locate index offset⟩

theorem reads_locateSigned (offset : Int) :
    (locateSigned offset).Reads Index.table fun table => table.locateSigned offset := by
  unfold locateSigned LineTable.locateSigned
  by_cases negative : offset < 0
  · simp only [negative, if_true]
    exact ⟨fun _ => rfl, fun _ => rfl⟩
  · simp only [negative, if_false]
    exact reads_locate offset.toNat

theorem reads_locateSpan (span : Span) :
    (locateSpan span).Reads Index.table fun table => table.locateSpan span := by
  unfold locateSpan LineTable.locateSpan
  apply (reads_locate span.base).bind
  intro start
  cases span.stop? with
  | none => exact ⟨fun _ => rfl, fun _ => rfl⟩
  | some stop =>
    apply (reads_locate stop).bind
    intro stop
    exact .pure (SpanLocation.mk start stop)

theorem reads_locateEach (offsets : List Nat) :
    (locateEach offsets).Reads Index.table fun table => .ok (offsets.map table.locate) := by
  have each := Lookup.Reads.mapM (fun offset => (reads_locate offset).attempt) offsets
  have collected (table : LineTable) :
      (offsets.mapM fun offset => Except.ok (ε := OutOfRange) (table.locate offset)) =
        .ok (offsets.map table.locate) := List.mapM_pure
  simp only [collected] at each
  exact each

theorem reads_locateAll (offsets : List Nat) :
    (locateAll offsets).Reads Index.table fun table => offsets.mapM table.locate :=
  .mapM reads_locate offsets

end Index

namespace Session

variable {n : Nat}

def tables (session : Session n) (i : Fin n) : LineTable := (session.get i).table

theorem reads_locateBoth (i : Fin n) (a : Nat) (j : Fin n) (b : Nat) :
    (locateBoth i a j b).Reads tables fun tables => do
      let first ← (tables i).locate a
      let second ← (tables j).locate b
      return (first, second) := by
  have first := ((Index.reads_locate a).focus i).attempt
  have second := ((Index.reads_locate b).focus j).attempt
  exact first.bind fun first => second.bind fun second => .ofResult _

private theorem reads_consult {α : Type} (i : Fin n) (question : Index → α) (form : α → Answer)
    (answer : LineTable → Answer)
    (agrees : ∀ index, (form (question index)).content = answer index.table) :
    (Answer.content <$> form <$> (Index.consult question).focus i).Reads tables
      fun tables => .ok (answer (tables i)) := by
  have asked : (Answer.content <$> form <$> Index.consult question).Reads Index.table
      fun table => .ok (answer table) := by
    constructor
    · intro index
      rw [← agrees index]
      rfl
    · intro index
      rfl
  have focused := asked.focus i
  rw [Lookup.focus_map, Lookup.focus_map] at focused
  exact focused

/-- Apart from what it says about memories, a step answers what the line tables determine. -/
theorem exists_reads_perform (step : Step n) :
    ∃ answer, (Answer.content <$> perform step).Reads tables answer := by
  cases step with
  | locate i offset => exact ⟨_, (((Index.reads_locate offset).focus i).map _).map _⟩
  | locateSigned i offset => exact ⟨_, (((Index.reads_locateSigned offset).focus i).map _).map _⟩
  | locateSpan i span => exact ⟨_, (((Index.reads_locateSpan span).focus i).map _).map _⟩
  | scan i first last => exact ⟨_, (((Index.reads_locateEach _).focus i).map _).map _⟩
  | compare i a j b => exact ⟨_, ((reads_locateBoth i a j b).map _).map _⟩
  | sort i offsets => exact ⟨_, (((Index.reads_locateAll offsets).focus i).map _).map _⟩
  | summarize i =>
    exact ⟨_, reads_consult i _ _ (fun table => .summary
      ⟨table.length, table.isEmpty, table.lineCount, false, .plain⟩) fun _ => rfl⟩
  | lineStarts i =>
    exact ⟨_, reads_consult i _ _ (fun table => .lineStarts table.starts.toList) fun _ => rfl⟩
  | lineStart i line =>
    exact ⟨_, reads_consult i _ _ (fun table => .lineStart (table.lineStart? line)) fun _ => rfl⟩
  | lineExtent i line =>
    exact ⟨_, reads_consult i _ _ (fun table => .lineExtent (table.lineExtent? line)) fun _ => rfl⟩
  | lineExtents i first last =>
    exact ⟨_, reads_consult i _ _
      (fun table => .lineExtents ((interval first last).map table.lineExtent?)) fun _ => rfl⟩
  | inspect i listing => exact ⟨_, reads_consult i _ _ (fun _ => .text "") fun _ => rfl⟩

end Session

/-! ## Steps are sequences of requests -/

variable {n : Nat}

namespace Session

@[simp] theorem serve_nil (session : Session n) : session.serve [] = ([], session) := rfl

theorem serve_append (session : Session n) (first second : List (Request n)) :
    session.serve (first ++ second) =
      ((session.serve first).1 ++ ((session.serve first).2.serve second).1,
        ((session.serve first).2.serve second).2) := by
  induction first generalizing session with
  | nil => rfl
  | cons request rest ih => simp only [List.cons_append, serve, ih]

def eventsServing (session : Session n) (requests : List (Request n)) : List Event :=
  (session.serve requests).1.flatMap Prod.snd

theorem eventsServing_append (session : Session n) (first second : List (Request n)) :
    session.eventsServing (first ++ second) =
      session.eventsServing first ++ (session.serve first).2.eventsServing second := by
  simp [eventsServing, serve_append]

end Session

/-- Apart from its answer, the lookup does to this session what these requests do. -/
structure Asks {α : Type} (lookup : Lookup (Session n) α) (session : Session n)
    (requests : List (Request n)) : Prop where
  state : (lookup.run session).state = (session.serve requests).2
  events : (lookup.run session).events = session.eventsServing requests

namespace Asks

variable {α β : Type} {lookup : Lookup (Session n) α} {session : Session n}
  {requests : List (Request n)}

theorem request (request : Request n) (session : Session n) :
    Asks request.perform session [request] :=
  ⟨rfl, by simp [Session.eventsServing, Session.serve]⟩

theorem pure (value : α) (session : Session n) : Asks (pure value) session [] :=
  ⟨rfl, rfl⟩

theorem ofResult (result : Except OutOfRange α) (session : Session n) :
    Asks (.ofResult result) session [] := by
  constructor <;> rw [Lookup.run_ofResult] <;> rfl

theorem attempt (asks : Asks lookup session requests) : Asks lookup.attempt session requests :=
  ⟨asks.state, asks.events⟩

theorem map (asks : Asks lookup session requests) (f : α → β) :
    Asks (f <$> lookup) session requests := by
  constructor
  · rw [Lookup.run_map]
    exact asks.state
  · rw [Lookup.run_map]
    exact asks.events

theorem bind_of_ok {next : α → Lookup (Session n) β} {value : α} {more : List (Request n)}
    (asks : Asks lookup session requests) (returned : (lookup.run session).result = .ok value)
    (later : Asks (next value) (session.serve requests).2 more) :
    Asks (lookup >>= next) session (requests ++ more) := by
  have state := asks.state
  have events := asks.events
  rcases ran : lookup.run session with ⟨result, middle, reported⟩
  rw [ran] at returned state events
  dsimp only at returned state events
  subst returned state
  have together := Lookup.run_bind_of_ok ran next
  constructor
  · rw [together, Session.serve_append]
    exact later.state
  · rw [together, Session.eventsServing_append, ← events, ← later.events]

theorem bind_of_error {next : α → Lookup (Session n) β} {failure : OutOfRange}
    (asks : Asks lookup session requests)
    (failed : (lookup.run session).result = .error failure) :
    Asks (lookup >>= next) session requests := by
  have state := asks.state
  have events := asks.events
  rcases ran : lookup.run session with ⟨result, middle, reported⟩
  rw [ran] at failed state events
  dsimp only at failed
  subst failed
  have alone := Lookup.run_bind_of_error ran next
  constructor
  · rw [alone]
    exact state
  · rw [alone]
    exact events

end Asks

namespace Session

theorem get_state_perform_locate (session : Session n) (i j : Fin n) (offset : Nat) :
    ((Request.locate i offset).perform.run session).state.get j =
      if i = j then ((Index.locate offset).run (session.get j)).state else session.get j :=
  Lookup.get_state_focus i j (Index.locate offset) session

@[simp] theorem state_perform_reject (session : Session n) (i : Fin n) (offset : Int) :
    ((Request.reject i offset).perform.run session).state = session :=
  Vector.set_getElem_self i.isLt

theorem tables_perform (request : Request n) (session : Session n) :
    tables (request.perform.run session).state = session.tables := by
  cases request with
  | locate i offset => exact ((Index.reads_locate offset).focus i).kept session
  | reject i offset => rw [state_perform_reject]

theorem tables_serve (session : Session n) (requests : List (Request n)) :
    (session.serve requests).2.tables = session.tables := by
  induction requests generalizing session with
  | nil => rfl
  | cons request rest ih => exact (ih _).trans (tables_perform request session)

theorem lengths_of_tables {first second : Session n} (same : first.tables = second.tables) :
    first.lengths = second.lengths := by
  funext i
  exact congrArg LineTable.length (congrFun same i)

theorem lengths_serve (session : Session n) (requests : List (Request n)) :
    (session.serve requests).2.lengths = session.lengths :=
  lengths_of_tables (session.tables_serve requests)

theorem result_locate_of_le {session : Session n} {i : Fin n} {offset : Nat}
    (inside : offset ≤ session.lengths i) :
    (((Index.locate offset).focus i).run session).result =
      .ok ((session.get i).table.place offset) := by
  rw [((Index.reads_locate offset).focus i).result session]
  exact if_pos inside

theorem result_locate_of_lt {session : Session n} {i : Fin n} {offset : Nat}
    (outside : session.lengths i < offset) :
    (((Index.locate offset).focus i).run session).result =
      .error (.ofOffset offset (session.lengths i)) := by
  rw [((Index.reads_locate offset).focus i).result session]
  exact if_neg (Nat.not_le_of_lt outside)

private theorem asks_locateSpan (session : Session n) (i : Fin n) (span : Span) :
    Asks ((Index.locateSpan span).focus i) session
      (Step.requests session.lengths (.locateSpan i span)) := by
  have first := Asks.request (.locate i span.base) session
  unfold Index.locateSpan
  rw [Lookup.focus_bind]
  by_cases inside : span.base ≤ session.lengths i
  · have returned := result_locate_of_le inside
    cases stops : span.stop? with
    | none =>
      have tooGreat := (span.stop?_eq_none_iff).mp stops
      have requests : Step.requests session.lengths (.locateSpan i span) =
          [.locate i span.base] ++ [] := by
        simp only [Step.requests, List.append_nil]
        rw [if_neg (by omega)]
      rw [requests]
      exact first.bind_of_ok returned ⟨Vector.set_getElem_self i.isLt, rfl⟩
    | some stop =>
      obtain ⟨sum, fits⟩ := (span.stop?_eq_some_iff stop).mp stops
      have requests : Step.requests session.lengths (.locateSpan i span) =
          [.locate i span.base] ++ [.locate i stop] := by
        simp only [Step.requests, List.cons_append, List.nil_append]
        rw [if_pos ⟨inside, by omega⟩, sum]
      rw [requests]
      refine first.bind_of_ok returned ?_
      simp only [bind_pure_comp]
      rw [Lookup.focus_map]
      exact (Asks.request (.locate i stop) _).map _
  · have failed := result_locate_of_lt (Nat.lt_of_not_le inside)
    have requests : Step.requests session.lengths (.locateSpan i span) =
        [.locate i span.base] := by
      simp only [Step.requests]
      rw [if_neg (fun both => inside both.1)]
    rw [requests]
    exact first.bind_of_error failed

private theorem asks_locateEach (session : Session n) (i : Fin n) (offsets : List Nat) :
    Asks ((Index.locateEach offsets).focus i) session (offsets.map (.locate i)) := by
  unfold Index.locateEach
  rw [Lookup.focus_mapM]
  simp only [Lookup.focus_attempt]
  induction offsets generalizing session with
  | nil => exact .pure [] session
  | cons offset rest ih =>
    have first := (Asks.request (.locate i offset) session).attempt
    simp only [List.mapM_cons, bind_pure_comp, List.map_cons]
    exact first.bind_of_ok rfl ((ih _).map _)

private theorem asks_locateAll (session : Session n) (i : Fin n) (offsets : List Nat) :
    Asks ((Index.locateAll offsets).focus i) session
      ((throughFirstBeyond (session.lengths i) offsets).map (.locate i)) := by
  unfold Index.locateAll
  rw [Lookup.focus_mapM]
  induction offsets generalizing session with
  | nil => exact .pure [] session
  | cons offset rest ih =>
    have first := Asks.request (.locate i offset) session
    simp only [List.mapM_cons, bind_pure_comp, throughFirstBeyond]
    by_cases inside : offset ≤ session.lengths i
    · -- The length is the same after the first lookup, so the rest stops where it would have.
      have later := ih (session.serve [.locate i offset]).2
      rw [lengths_serve] at later
      rw [if_pos inside, List.map_cons]
      exact first.bind_of_ok (result_locate_of_le inside) (later.map _)
    · rw [if_neg inside]
      exact first.bind_of_error (result_locate_of_lt (Nat.lt_of_not_le inside))

private theorem asks_locateBoth (session : Session n) (i : Fin n) (a : Nat) (j : Fin n) (b : Nat) :
    Asks (locateBoth i a j b) session [.locate i a, .locate j b] := by
  have first := (Asks.request (.locate i a) session).attempt
  have second := (Asks.request (.locate j b) (session.serve [.locate i a]).2).attempt
  exact first.bind_of_ok rfl (second.bind_of_ok rfl (.ofResult _ _))

theorem run_consult {α : Type} (session : Session n) (i : Fin n) (question : Index → α) :
    ((Index.consult question).focus i).run session =
      ⟨.ok (question (session.get i)), session, []⟩ := by
  have unchanged : session.set i (session.get i) = session := Vector.set_getElem_self i.isLt
  have consulted : (Index.consult question).run (session.get i) =
      ⟨.ok (question (session.get i)), session.get i, []⟩ := rfl
  rw [Lookup.run_focus, consulted, unchanged]

private theorem asks_consult {α : Type} (session : Session n) (i : Fin n) (question : Index → α) :
    Asks ((Index.consult question).focus i) session [] := by
  constructor <;> rw [run_consult] <;> rfl

theorem asks_perform (session : Session n) (step : Step n) :
    Asks (perform step) session (step.requests session.lengths) := by
  cases step with
  | locate i offset => exact (Asks.request (.locate i offset) session).map _
  | locateSigned i offset =>
    simp only [perform, Index.locateSigned, Step.requests]
    by_cases negative : offset < 0
    · simp only [negative, if_true]
      exact (Asks.request (.reject i offset) session).map _
    · simp only [negative, if_false]
      exact (Asks.request (.locate i offset.toNat) session).map _
  | locateSpan i span => exact (session.asks_locateSpan i span).map _
  | scan i first last => exact (session.asks_locateEach i (interval first last)).map _
  | compare i a j b => exact (session.asks_locateBoth i a j b).map _
  | sort i offsets => exact (session.asks_locateAll i offsets).map _
  | summarize i => exact (session.asks_consult i _).map _
  | lineStarts i => exact (session.asks_consult i _).map _
  | lineStart i line => exact (session.asks_consult i _).map _
  | lineExtent i line => exact (session.asks_consult i _).map _
  | lineExtents i first last => exact (session.asks_consult i _).map _
  | inspect i listing => exact (session.asks_consult i _).map _

theorem after_cons (session : Session n) (step : Step n) (rest : List (Step n)) :
    session.after (step :: rest) = ((perform step).run session).state.after rest := rfl

theorem reports_cons (session : Session n) (step : Step n) (rest : List (Step n)) :
    session.reports (step :: rest) =
      ⟨((perform step).run session).result, ((perform step).run session).events⟩ ::
        ((perform step).run session).state.reports rest := rfl

theorem after_eq_serve (session : Session n) (steps : List (Step n)) :
    session.after steps = (session.serve (steps.flatMap (Step.requests session.lengths))).2 := by
  induction steps generalizing session with
  | nil => rfl
  | cons step rest ih =>
    rw [after_cons, (session.asks_perform step).state, ih, lengths_serve, List.flatMap_cons,
      serve_append]

theorem tables_after (session : Session n) (steps : List (Step n)) :
    (session.after steps).tables = session.tables := by
  rw [after_eq_serve, tables_serve]

theorem lengths_after (session : Session n) (steps : List (Step n)) :
    (session.after steps).lengths = session.lengths :=
  lengths_of_tables (session.tables_after steps)

theorem get_build (sources : Vector Source n) (i : Fin n) :
    (build sources).get i = .build (sources.get i).settings (sources.get i).text :=
  Vector.getElem_map _ i.isLt

theorem get_uncached (sources : Vector Source n) (i : Fin n) :
    (sources.map Source.uncached).get i = (sources.get i).uncached :=
  Vector.getElem_map _ i.isLt

theorem tables_build (sources : Vector Source n) (i : Fin n) :
    (build sources).tables i = .ofString (sources.get i).text := by
  rw [tables, get_build, Index.table_build]

/-- Whatever has been asked, the line table of an index is that of its text. -/
theorem table_after_build (sources : Vector Source n) (steps : List (Step n)) (i : Fin n) :
    (((build sources).after steps).get i).table = .ofString (sources.get i).text :=
  (congrFun ((build sources).tables_after steps) i).trans (tables_build sources i)

theorem lengths_build (sources : Vector Source n) :
    (build sources).lengths = fun i => (sources.get i).text.length := by
  funext i
  change ((build sources).tables i).length = _
  rw [tables_build, LineTable.length_ofString]

/-! ## Caching cannot be seen in the answers -/

theorem content_perform_congr {first second : Session n} (same : first.tables = second.tables)
    (step : Step n) :
    ((perform step).run first).result.map Answer.content =
      ((perform step).run second).result.map Answer.content := by
  obtain ⟨answer, reads⟩ := exists_reads_perform step
  have one := reads.result first
  have two := reads.result second
  rw [Lookup.run_map] at one two
  exact one.trans ((congrArg answer same).trans two.symm)

theorem tables_state_perform (session : Session n) (step : Step n) :
    tables ((perform step).run session).state = session.tables := by
  rw [(session.asks_perform step).state, tables_serve]

theorem contents_reports_congr {first second : Session n} (same : first.tables = second.tables)
    (steps : List (Step n)) :
    (first.reports steps).map Report.content = (second.reports steps).map Report.content := by
  induction steps generalizing first second with
  | nil => rfl
  | cons step rest ih =>
    have here := content_perform_congr same step
    -- What the two sessions remember may differ from here on; their tables do not.
    have kept : tables ((perform step).run first).state =
        tables ((perform step).run second).state := by
      rw [tables_state_perform, tables_state_perform, same]
    simp only [reports_cons, List.map_cons, Report.content]
    rw [here, ih kept]

theorem contents_reports (session : Session n) (steps : List (Step n)) :
    (session.reports steps).map Report.content =
      steps.map fun step => ((perform step).run session).result.map Answer.content := by
  induction steps with
  | nil => rfl
  | cons step rest ih =>
    have later : (reports ((perform step).run session).state rest).map Report.content =
        (session.reports rest).map Report.content :=
      contents_reports_congr (tables_state_perform session step) rest
    simp only [reports_cons, List.map_cons, Report.content]
    rw [later, ih]

/-- The answers of a session are those of the session over the same texts that remembers nothing,
and those of its steps each taken alone on indexes just built. -/
theorem contents_reports_build (sources : Vector Source n) (steps : List (Step n)) :
    let uncached := sources.map Source.uncached
    ((build sources).reports steps).map Report.content =
        ((build uncached).reports steps).map Report.content ∧
      ((build sources).reports steps).map Report.content =
        steps.map fun step => ((perform step).run (build sources)).result.map Answer.content := by
  intro uncached
  have same : (build sources).tables = (build uncached).tables := by
    funext i
    rw [tables_build, tables_build, get_uncached]
    rfl
  exact ⟨contents_reports_congr same steps, contents_reports (build sources) steps⟩

end Session
end Lineation
