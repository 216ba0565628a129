import Lineation.Proofs.Trace

/-!
The order of steps does not matter.

What an index remembers is determined by which requests were made, not by their order
(`Recalls.eq_of_mem_iff`), and no answer depends on it, unless it shows the memory itself. What is
reported for one request does depend on those before it: of two equal lookups the second may be
answered from memory. But equal requests can change places unseen, and a request reports the same
whether a different one is made before or after it, so the events of a run are only moved
(`Request.eventsOfAll_perm`).
-/

set_option autoImplicit false
set_option relaxedAutoImplicit false

namespace Lineation

namespace Index

variable {first second : Index}

private theorem remembered?_eq_ite (index : Index) (key : Nat) :
    index.remembered? key =
      if (index.remembered? key).isSome = true then some (index.table.place key) else none := by
  cases known : index.remembered? key with
  | none => rfl
  | some location =>
    obtain ⟨_, rfl⟩ := index.remembered?_sound known
    rfl

private theorem memo_congr (settings : first.settings = second.settings)
    (same : ∀ key, first.remembered? key = second.remembered? key) : first.memo = second.memo := by
  cases caching : first.settings.caching with
  | false => rw [memo_eq_none caching, memo_eq_none (settings ▸ caching)]
  | true =>
    have other : second.settings.caching = true := settings ▸ caching
    obtain ⟨cells, isMemo⟩ := exists_memo caching
    obtain ⟨others, isOther⟩ := exists_memo other
    simp only [remembered?, isMemo, isOther, Option.bind_some] at same
    rw [isMemo, isOther, Std.ExtTreeMap.ext_getElem? same]

theorem eq_of_isSome_remembered? (table : first.table = second.table)
    (settings : first.settings = second.settings)
    (known : ∀ key, (first.remembered? key).isSome = true ↔
      (second.remembered? key).isSome = true) : first = second := by
  have memo : first.memo = second.memo := by
    apply memo_congr settings
    intro key
    rw [first.remembered?_eq_ite, second.remembered?_eq_ite, table]
    simp only [known key]
  cases first
  cases second
  simp only at table settings memo
  subst table settings memo
  rfl

end Index

variable {n : Nat}

namespace Session

private theorem ext_get {first second : Session n}
    (same : ∀ i : Fin n, first.get i = second.get i) :
    first = second :=
  Vector.ext fun i bound => same ⟨i, bound⟩

/-- Two sessions over the same texts that recall the same requests are the same. -/
theorem Recalls.eq_of_mem_iff {first second : Session n} {before other : List (Request n)}
    (one : first.Recalls before) (two : second.Recalls other)
    (tables : first.tables = second.tables)
    (settings : ∀ i : Fin n, (first.get i).settings = (second.get i).settings)
    (same : ∀ request, request ∈ before ↔ request ∈ other) : first = second := by
  apply ext_get
  intro i
  apply Index.eq_of_isSome_remembered? (congrFun tables i) (settings i)
  intro key
  have caching : first.caching i = second.caching i := congrArg Settings.caching (settings i)
  rw [one i key, two i key, caching, same, lengths_of_tables tables]

end Session

namespace Request

variable (lengths : Fin n → Nat) (caching : Fin n → Bool)

private theorem events_congr {before other : List (Request n)} (request : Request n)
    (same : request ∈ before ↔ request ∈ other) :
    request.events lengths caching before = request.events lengths caching other := by
  cases request with
  | reject i offset => rfl
  | locate i offset => simp only [events, same]

private theorem eventsOfAll_congr {before other : List (Request n)} (requests : List (Request n))
    (same : ∀ request, request ∈ before ↔ request ∈ other) :
    eventsOfAll lengths caching before requests = eventsOfAll lengths caching other requests := by
  induction requests generalizing before other with
  | nil => rfl
  | cons request rest ih =>
    have later : ∀ asked, asked ∈ before ++ [request] ↔ asked ∈ other ++ [request] := by
      intro asked
      rw [List.mem_append, List.mem_append, same]
    simp only [eventsOfAll]
    rw [events_congr lengths caching request (same request), ih later]

private theorem events_concat_of_ne (before : List (Request n)) {request other : Request n}
    (different : request ≠ other) :
    request.events lengths caching (before ++ [other]) =
      request.events lengths caching before := by
  apply events_congr
  simp [different]

theorem eventsOfAll_perm (before : List (Request n)) {first second : List (Request n)}
    (same : first.Perm second) :
    (eventsOfAll lengths caching before first).Perm
      (eventsOfAll lengths caching before second) := by
  induction same generalizing before with
  | nil => exact .nil
  | cons request _ ih => exact (ih (before ++ [request])).append_left _
  | swap one other rest =>
    simp only [eventsOfAll]
    -- Of two equal requests the later one may be a hit, whichever of them it is.
    by_cases equal : one = other
    · rw [equal]
    · have swapped : eventsOfAll lengths caching (before ++ [other] ++ [one]) rest =
          eventsOfAll lengths caching (before ++ [one] ++ [other]) rest := by
        apply eventsOfAll_congr
        simp [or_comm]
      rw [events_concat_of_ne lengths caching before equal,
        events_concat_of_ne lengths caching before (Ne.symm equal), swapped]
      exact List.perm_append_comm_assoc _ _ _
  | trans _ _ earlier later => exact (earlier before).trans (later before)

end Request

private theorem Index.summary_congr {first second : Index} (table : first.table = second.table)
    (settings : first.settings = second.settings) : first.summary = second.summary := by
  have isCaching : first.isCaching = second.isCaching := by
    rw [isCaching, isCaching, first.memo_isSome, second.memo_isSome, settings]
  rw [summary, summary, table, settings, isCaching]

namespace Session

private theorem map_content_map {α : Type} {form : α → Answer}
    (plain : ∀ value, (form value).content = form value) (lookup : Lookup (Session n) α)
    (session : Session n) :
    ((form <$> lookup).run session).result.map Answer.content =
      ((form <$> lookup).run session).result := by
  rw [Lookup.run_map]
  show ((lookup.run session).result.map form).map Answer.content =
    (lookup.run session).result.map form
  cases (lookup.run session).result with
  | error failure => rfl
  | ok value => exact congrArg Except.ok (plain value)

private theorem map_content_perform (session : Session n) {step : Step n}
    (told : ∀ i, step ≠ .summarize i) (shown : ∀ i listing, step ≠ .inspect i listing) :
    ((perform step).run session).result.map Answer.content =
      ((perform step).run session).result := by
  cases step with
  | summarize i => exact absurd rfl (told i)
  | inspect i listing => exact absurd rfl (shown i listing)
  | _ => exact map_content_map (fun _ => rfl) _ session

theorem result_perform_congr {first second : Session n} (tables : first.tables = second.tables)
    (settings : ∀ i : Fin n, (first.get i).settings = (second.get i).settings) {step : Step n}
    (shown : ∀ i listing, step ≠ .inspect i listing) :
    ((perform step).run first).result = ((perform step).run second).result := by
  by_cases told : ∃ i, step = .summarize i
  · obtain ⟨i, rfl⟩ := told
    have same := Index.summary_congr (congrFun tables i) (settings i)
    exact congrArg (fun summary => Except.ok (Answer.summary summary)) same
  · have untold : ∀ i, step ≠ .summarize i := fun i isSummary => told ⟨i, isSummary⟩
    have content := content_perform_congr tables step
    rwa [first.map_content_perform untold shown, second.map_content_perform untold shown] at content

theorem result_reports (session : Session n) {steps : List (Step n)} {position : Nat}
    {step : Step n} (here : steps[position]? = some step)
    (shown : ∀ i listing, step ≠ .inspect i listing) :
    (session.reports steps)[position]?.map Report.result =
      some ((perform step).run session).result := by
  induction steps generalizing session position with
  | nil => cases here
  | cons first rest ih =>
    rw [reports_cons]
    cases position with
    | zero =>
      obtain rfl : first = step := Option.some.inj here
      rfl
    | succ position =>
      have later := ih ((perform first).run session).state here
      have same := result_perform_congr (tables_state_perform session first)
        (session.settings_state_perform first) shown
      rw [same] at later
      exact later

end Session

/-- From whatever has been asked before, steps in another order give each step the same answer,
unless it shows what an index remembers; they leave the same indexes and report the same events,
though not each of the same step. -/
theorem Session.run_perm {n : Nat} (sources : Vector Source n) (earlier : List (Step n))
    {first second : List (Step n)} (same : first.Perm second) :
    let session := (build sources).after earlier
    (∀ (a b : Nat) (step : Step n), first[a]? = some step → second[b]? = some step →
      (∀ i listing, step ≠ .inspect i listing) →
        ∃ result, (session.reports first)[a]?.map Report.result = some result ∧
          (session.reports second)[b]?.map Report.result = some result) ∧
    session.after first = session.after second ∧
    ((session.reports first).flatMap Report.events).Perm
      ((session.reports second).flatMap Report.events) := by
  intro session
  have recalls := recalls_after sources earlier
  have asked : (first.flatMap (Step.requests session.lengths)).Perm
      (second.flatMap (Step.requests session.lengths)) := same.flatMap_right _
  refine ⟨?_, ?_, ?_⟩
  · intro a b step atFirst atSecond shown
    exact ⟨_, session.result_reports atFirst shown, session.result_reports atSecond shown⟩
  · rw [after_eq_serve, after_eq_serve]
    apply (recalls.serve _).eq_of_mem_iff (recalls.serve _)
    · rw [tables_serve, tables_serve]
    · intro i
      rw [settings_serve, settings_serve]
    · intro request
      rw [List.mem_append, List.mem_append, asked.mem_iff]
  · rw [flatMap_events_reports, flatMap_events_reports, recalls.events_serve, recalls.events_serve]
    exact Request.eventsOfAll_perm _ _ _ asked

/-- Steps of five kinds on two indexes, and the same steps backwards: the lookup that comes first is
answered from memory when it comes last. -/
theorem Session.run_perm_reverse :
    let sources : Vector Source 2 := #v[⟨.cached, "a\nbc"⟩, ⟨.plain, "x\r\n"⟩]
    let session := (build sources).after [.scan 0 0 0]
    let steps : List (Step 2) := [.locate 0 1, .locateSpan 0 ⟨1, 2⟩, .compare 0 3 1 9,
      .sort 1 [2, 7, 1], .locateSigned 0 (-1)]
    steps.Perm steps.reverse ∧
      (∃ result, (session.reports steps)[0]?.map Report.result = some result ∧
        (session.reports steps.reverse)[4]?.map Report.result = some result) ∧
      session.after steps = session.after steps.reverse ∧
      ((session.reports steps).flatMap Report.events).Perm
        ((session.reports steps.reverse).flatMap Report.events) ∧
      ((session.reports steps).map Report.events)[0]? = some [] ∧
      ((session.reports steps.reverse).map Report.events)[4]? = some [.hit 1] := by
  intro sources session steps
  have same : steps.Perm steps.reverse := (List.reverse_perm steps).symm
  obtain ⟨answers, state, events⟩ := run_perm sources [.scan 0 0 0] same
  have recalls := recalls_after sources [.scan 0 0 0]
  have lengths := (lengths_after (build sources) [.scan 0 0 0]).trans (lengths_build sources)
  have caching := (caching_after (build sources) [.scan 0 0 0]).trans (caching_build sources)
  refine ⟨same, answers 0 4 (.locate 0 1) rfl rfl nofun, state, events, ?_, ?_⟩
  · rw [recalls.events_reports steps, lengths, caching, lengths_build]
    decide +kernel
  · rw [recalls.events_reports steps.reverse, lengths, caching, lengths_build]
    decide +kernel

end Lineation
