import Lineation.Proofs.Memory

/-!
The events of a session are determined by its history.

Building reports each index once. What is reported for a request depends on the requests before it,
and these depend on the steps and on the lengths of the texts. An index that remembers nothing is
asked the same and never answers from memory, so its events are those that remain when the answers
from memory are struck out (`Step.uncached_eventsOfAll`).

A lookup that succeeds is either answered from memory or adds one location to it, so on an index
that remembers locations the successful lookups are as many as the answers from memory and the
remembered locations together.
-/

set_option autoImplicit false
set_option relaxedAutoImplicit false

namespace Lineation

/-! ## How often an index answers from memory -/

namespace Index

def memorySize (index : Index) : Nat := index.memo.elim 0 fun cells => cells.size

private theorem memorySize_remember {index : Index} {offset : Nat}
    (caching : index.settings.caching = true) (fresh : index.remembered? offset = none)
    (inside : offset ≤ index.table.length) :
    (index.remember offset inside).memorySize = index.memorySize + 1 := by
  obtain ⟨cells, isMemo⟩ := exists_memo caching
  have absent : cells.contains offset = false := by
    rw [remembered?, isMemo, Option.bind_some] at fresh
    rw [Std.ExtTreeMap.contains_eq_isSome_getElem?, fresh, Option.isSome_none]
  simp only [memorySize, remember, isMemo, Option.map_some, Option.elim_some,
    Std.ExtTreeMap.size_insert, absent, Bool.false_eq_true, if_false]

private theorem countP_isHit_locate {index : Index} (caching : index.settings.caching = true)
    (offset : Nat) :
    ((locate offset).run index).events.countP Event.isHit
        + ((locate offset).run index).state.memorySize =
      (if offset ≤ index.table.length then 1 else 0) + index.memorySize := by
  rcases index.run_locate_cases offset with
    ⟨location, known, ran⟩ | ⟨inside, fresh, ran⟩ | ⟨outside, _, ran⟩
  · have inside := (index.remembered?_sound known).1
    rw [ran, if_pos inside]
    rfl
  · rw [ran, if_pos inside]
    have grown := memorySize_remember caching fresh inside
    simp only [List.countP_nil, grown]
    omega
  · rw [ran, if_neg (Nat.not_le_of_lt outside)]
    rfl

end Index

variable {n : Nat}

def Request.successes (lengths : Fin n → Nat) (i : Fin n) (requests : List (Request n)) : Nat :=
  requests.countP fun request => request.index = i ∧ request.Succeeds lengths

namespace Session

/-- How many answers of this index from memory are logged. -/
def hits (i : Fin n) (log : List (Request n × List Event)) : Nat :=
  ((log.filter fun entry => entry.1.index = i).flatMap Prod.snd).countP Event.isHit

private theorem hits_cons (i : Fin n) (request : Request n) (events : List Event)
    (log : List (Request n × List Event)) :
    hits i ((request, events) :: log) =
      (if request.index = i then events.countP Event.isHit else 0) + hits i log := by
  unfold hits
  by_cases same : request.index = i
  · simp [same]
  · simp [same]

private theorem successes_cons (lengths : Fin n → Nat) (i : Fin n) (request : Request n)
    (requests : List (Request n)) :
    Request.successes lengths i (request :: requests) =
      (if request.index = i ∧ request.Succeeds lengths then 1 else 0)
        + Request.successes lengths i requests := by
  simp only [Request.successes, List.countP_cons, decide_eq_true_eq]
  exact Nat.add_comm _ _

private theorem countP_isHit_perform {session : Session n} {i : Fin n}
    (caching : session.caching i = true) (request : Request n) :
    (if request.index = i then (request.perform.run session).events.countP Event.isHit else 0)
        + ((request.perform.run session).state.get i).memorySize =
      (if request.index = i ∧ request.Succeeds session.lengths then 1 else 0)
        + (session.get i).memorySize := by
  cases request with
  | reject j offset =>
    rw [state_perform_reject]
    simp only [Request.Succeeds, and_false, if_false]
    split
    · rfl
    · rfl
  | locate j offset =>
    rw [get_state_perform_locate]
    by_cases same : j = i
    · subst same
      have counted := Index.countP_isHit_locate caching offset
      simp only [Request.index, Request.Succeeds, true_and, if_true]
      exact counted
    · simp only [Request.index, same, false_and, if_false]

theorem hits_serve_add_memorySize {session : Session n} {i : Fin n}
    (caching : session.caching i = true) (requests : List (Request n)) :
    hits i (session.serve requests).1 + ((session.serve requests).2.get i).memorySize =
      Request.successes session.lengths i requests + (session.get i).memorySize := by
  induction requests generalizing session with
  | nil => rfl
  | cons request rest ih =>
    have first := countP_isHit_perform caching request
    have later := ih ((congrFun (caching_perform request session) i).trans caching)
    rw [lengths_of_tables (tables_perform request session)] at later
    rw [successes_cons]
    simp only [serve, hits_cons]
    omega

private theorem memorySize_build (sources : Vector Source n) (i : Fin n) :
    ((build sources).get i).memorySize = 0 := by
  rw [get_build, Index.memorySize, Index.memo_build]
  split
  · rfl
  · rfl

end Session

/-! ## What is reported in the order of the history -/

private theorem Lookup.run_mapM_of_ok {σ γ α : Type} {f : γ → Lookup σ α} {value : γ → α}
    {event : γ → Event} {state : σ}
    (each : ∀ item, (f item).run state = ⟨.ok (value item), state, [event item]⟩)
    (items : List γ) :
    (items.mapM f).run state = ⟨.ok (items.map value), state, items.map event⟩ := by
  induction items with
  | nil => rfl
  | cons item rest ih =>
    rw [List.mapM_cons, run_bind_of_ok (each item), run_bind_of_ok ih]
    simp

private theorem Event.uncached_append (first second : List Event) :
    uncached (first ++ second) = uncached first ++ uncached second := by
  simp [uncached]

private theorem Event.uncached_flatten (parts : List (List Event)) :
    uncached parts.flatten = (parts.map uncached).flatten := by
  induction parts with
  | nil => rfl
  | cons part rest ih =>
    simp only [List.flatten_cons, List.map_cons]
    rw [uncached_append, ih]

private theorem Request.uncached_events (lengths : Fin n → Nat) (caching : Fin n → Bool)
    (before : List (Request n)) (request : Request n) :
    Event.uncached (request.events lengths caching before) =
      request.events lengths (fun _ => false) before := by
  cases request with
  | reject i offset => rfl
  | locate i offset =>
    simp only [events, Bool.false_eq_true, false_and, if_false]
    by_cases outside : lengths i < offset
    · rw [if_pos outside, if_pos outside]
      rfl
    · rw [if_neg outside, if_neg outside]
      split
      · rfl
      · rfl

private theorem Request.uncached_eventsOfAll (lengths : Fin n → Nat) (caching : Fin n → Bool)
    (before requests : List (Request n)) :
    Event.uncached (eventsOfAll lengths caching before requests) =
      eventsOfAll lengths (fun _ => false) before requests := by
  induction requests generalizing before with
  | nil => rfl
  | cons request rest ih =>
    simp only [eventsOfAll]
    rw [Event.uncached_append, uncached_events, ih]

theorem Step.uncached_eventsOfAll (lengths : Fin n → Nat) (caching : Fin n → Bool)
    (before : List (Request n)) (steps : List (Step n)) :
    (eventsOfAll lengths caching before steps).map Event.uncached =
      eventsOfAll lengths (fun _ => false) before steps := by
  induction steps generalizing before with
  | nil => rfl
  | cons step rest ih =>
    simp only [eventsOfAll, List.map_cons]
    rw [Request.uncached_eventsOfAll, ih]

namespace Session

theorem Recalls.events_reports {session : Session n} {before : List (Request n)}
    (recalls : session.Recalls before) (steps : List (Step n)) :
    (session.reports steps).map Report.events =
      Step.eventsOfAll session.lengths session.caching before steps := by
  induction steps generalizing session before with
  | nil => rfl
  | cons step rest ih =>
    have asks := session.asks_perform step
    have here := recalls.events_serve (step.requests session.lengths)
    have later := ih (recalls.serve (step.requests session.lengths))
    rw [lengths_serve, caching_serve] at later
    simp only [reports_cons, List.map_cons, Step.eventsOfAll]
    rw [asks.events, asks.state, here, later]

theorem flatMap_events_reports (session : Session n) (steps : List (Step n)) :
    (session.reports steps).flatMap Report.events =
      session.eventsServing (steps.flatMap (Step.requests session.lengths)) := by
  induction steps generalizing session with
  | nil => rfl
  | cons step rest ih =>
    have asks := session.asks_perform step
    have later := ih (session.serve (step.requests session.lengths)).2
    rw [lengths_serve] at later
    rw [reports_cons, List.flatMap_cons, List.flatMap_cons, eventsServing_append, ← later,
      ← asks.events, ← asks.state]

private theorem map_fst_serve (session : Session n) (requests : List (Request n)) :
    (session.serve requests).1.map Prod.fst = requests := by
  induction requests generalizing session with
  | nil => rfl
  | cons request rest ih =>
    simp only [serve, List.map_cons]
    rw [ih]

theorem run_construct (sources : Vector Source n) :
    (construct sources).run () = ⟨.ok (build sources), (), (build sources).builtEvents⟩ := by
  -- What is known of each source holds of their list, and a vector is built as its list is.
  have each := Lookup.run_mapM_of_ok
    (fun source : Source => Index.run_construct source.settings source.text) sources.toList
  have listed : sources.toList.map (fun source => Index.build source.settings source.text) =
      (build sources).toList := Vector.toList_map.symm
  have reported : sources.toList.map (fun source =>
      (Index.build source.settings source.text).builtEvent) = (build sources).builtEvents := by
    rw [builtEvents, ← listed, List.map_map]
    rfl
  have known : construct sources =
      ⟨fun _ => ⟨.ok (build sources), (), (build sources).builtEvents⟩⟩ := by
    apply Vector.map_toArray_inj.mp
    rw [construct, Vector.toArray_mapM, Array.mapM_eq_mapM_toList]
    ext
    rw [Lookup.run_map, Lookup.run_map, ← Vector.toList, each, listed, reported]
    rfl
  rw [known]

theorem builtEvents_build (sources : Vector Source n) :
    (build sources).builtEvents = sources.toList.map fun source =>
      .built source.text.length (LineTable.ofString source.text).lineCount
        source.settings.caching := by
  simp only [builtEvents, build, Vector.toList_map, List.map_map]
  apply List.map_congr_left
  intro source _
  change Event.built (LineTable.ofString source.text).length _ _ = _
  rw [LineTable.length_ofString]
  rfl

/-- A session's events in order: the building of its indexes, then what its steps report. -/
def trace (sources : Vector Source n) (steps : List (Step n)) : List Event :=
  ((construct sources).run ()).events ++ ((build sources).reports steps).flatMap Report.events

theorem trace_eq (sources : Vector Source n) (steps : List (Step n)) :
    trace sources steps = (build sources).builtEvents ++
      (Step.eventsOfAll (fun i => (sources.get i).text.length)
        (fun i => (sources.get i).settings.caching) [] steps).flatten := by
  have recalled := (Recalls.build sources).events_reports steps
  rw [lengths_build, caching_build] at recalled
  rw [trace, run_construct, ← recalled]
  rfl

theorem uncached_trace (sources : Vector Source n) (steps : List (Step n)) :
    Event.uncached (trace sources steps) = trace (sources.map Source.uncached) steps := by
  have built : Event.uncached (build sources).builtEvents =
      (build (sources.map Source.uncached)).builtEvents := by
    rw [builtEvents_build, builtEvents_build, Vector.toList_map]
    induction sources.toList with
    | nil => rfl
    | cons source rest ih => exact congrArg _ ih
  have texts : (fun i : Fin n => ((sources.map Source.uncached).get i).text.length) =
      fun i : Fin n => (sources.get i).text.length := by
    funext i
    rw [get_uncached]
    rfl
  have silent : (fun i : Fin n => ((sources.map Source.uncached).get i).settings.caching) =
      fun _ => false := by
    funext i
    rw [get_uncached]
    rfl
  rw [trace_eq, trace_eq, Event.uncached_append, Event.uncached_flatten,
    Step.uncached_eventsOfAll, built, texts, silent]

theorem events_locateSpan_of_none (session : Session n) (i : Fin n) {span : Span}
    (unending : span.stop? = none) :
    ((perform (.locateSpan i span)).run session).events =
      ((perform (.locate i span.base)).run session).events := by
  have tooGreat := (span.stop?_eq_none_iff).mp unending
  have requests : Step.requests session.lengths (.locateSpan i span) =
      Step.requests session.lengths (.locate i span.base) := by
    simp only [Step.requests]
    rw [if_neg (by omega)]
  rw [(session.asks_perform _).events, (session.asks_perform _).events, requests]

theorem run_locateSigned_of_neg (session : Session n) (i : Fin n) {offset : Int}
    (negative : offset < 0) :
    ((perform (.locateSigned i offset)).run session).events =
        [.negative offset (session.lengths i)] ∧
      ((perform (.locateSigned i offset)).run session).state = session := by
  simp only [perform, Index.locateSigned, negative, if_true, Lookup.run_map]
  exact ⟨rfl, session.state_perform_reject i offset⟩

/-- Building reports each index once, and what the steps report after that is determined by their
history. The events do without the answers from memory when nothing is remembered, and where an
index does remember, these answers and the remembered locations together are as many as the lookups
that succeeded. -/
theorem events_of_history (sources : Vector Source n) (steps : List (Step n)) :
    let lengths := fun i : Fin n => (sources.get i).text.length
    let caching := fun i : Fin n => (sources.get i).settings.caching
    let requests := steps.flatMap (Step.requests lengths)
    let log := ((build sources).serve requests).1
    let session := (build sources).after steps
    (construct sources).run () = ⟨.ok (build sources), (), (build sources).builtEvents⟩ ∧
      (build sources).builtEvents = sources.toList.map (fun source =>
        .built source.text.length (LineTable.ofString source.text).lineCount
          source.settings.caching) ∧
      ((build sources).reports steps).map Report.events =
        Step.eventsOfAll lengths caching [] steps ∧
      trace sources steps = (build sources).builtEvents ++
        (Step.eventsOfAll lengths caching [] steps).flatten ∧
      (∀ (i : Fin n) (offset : Int), offset < 0 →
        ((perform (.locateSigned i offset)).run session).events = [.negative offset (lengths i)] ∧
          ((perform (.locateSigned i offset)).run session).state = session) ∧
      (∀ (i : Fin n) (span : Span), span.stop? = none →
        ((perform (.locateSpan i span)).run session).events =
          ((perform (.locate i span.base)).run session).events) ∧
      Event.uncached (trace sources steps) = trace (sources.map Source.uncached) steps ∧
      log.map Prod.fst = requests ∧
      log.flatMap Prod.snd = ((build sources).reports steps).flatMap Report.events ∧
      ∀ i : Fin n, caching i = true → ∃ cells, (session.get i).memo = some cells ∧
        Request.successes lengths i requests = hits i log + cells.size := by
  intro lengths caching requests log session
  have texts : (build sources).lengths = lengths := lengths_build sources
  have choices : (build sources).caching = caching := caching_build sources
  have served : session = ((build sources).serve requests).2 := by
    change (build sources).after steps = _
    rw [after_eq_serve, texts]
  have reported := (Recalls.build sources).events_reports steps
  rw [texts, choices] at reported
  refine ⟨run_construct sources, builtEvents_build sources, reported, trace_eq sources steps, ?_,
    ?_, uncached_trace sources steps, map_fst_serve _ _, ?_, ?_⟩
  · intro i offset negative
    have rejected := session.run_locateSigned_of_neg i negative
    rw [(build sources).lengths_after steps, texts] at rejected
    exact rejected
  · intro i span unending
    exact session.events_locateSpan_of_none i unending
  · rw [flatMap_events_reports, texts]
    rfl
  · intro i remembers
    have chosen : (build sources).caching i = true := (congrFun choices i).trans remembers
    have kept : session.caching i = true := by
      rw [served, caching_serve]
      exact chosen
    obtain ⟨cells, isMemo⟩ := Index.exists_memo kept
    have size : (session.get i).memorySize = cells.size := by
      rw [Index.memorySize, isMemo, Option.elim_some]
    have counted := hits_serve_add_memorySize chosen requests
    rw [texts, memorySize_build, ← served, size] at counted
    exact ⟨cells, isMemo, counted.symm⟩

end Session
end Lineation
