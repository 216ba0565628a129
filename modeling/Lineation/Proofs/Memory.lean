import Lineation.Proofs.Answers

/-!
What the indexes of a session remember.

A session recalls some requests when each index, if it remembers locations at all, remembers just
the offsets that one of these requests located on it (`Session.Recalls`). Indexes that were just
built recall no requests, and one more request is recalled together with those before
(`Recalls.perform`). So the history decides how a request is answered, and with it what is reported
(`Recalls.events_perform`).

A request to locate an offset, made by a step, is answered with a location just when the step
locates the offset (`Step.locates_iff`), so the steps taken so far determine which offsets an index
remembers. What it remembers of them is what a search in the text finds
(`Session.Remembers.after`).
-/

set_option autoImplicit false
set_option relaxedAutoImplicit false

namespace Lineation

namespace Index

private theorem remembered?_remember (index : Index) (offset : Nat)
    (inside : offset ≤ index.table.length) (key : Nat) :
    (index.remember offset inside).remembered? key =
      if index.settings.caching = true ∧ offset = key then some (index.table.place offset)
      else index.remembered? key := by
  cases caching : index.settings.caching with
  | false =>
    have nothing := memo_eq_none caching
    simp [remembered?, remember, nothing]
  | true =>
    obtain ⟨cells, isMemo⟩ := exists_memo caching
    simp only [remembered?, remember, isMemo, Option.map_some, Option.bind_some,
      Std.ExtTreeMap.getElem?_insert, Std.LawfulEqCmp.compare_eq_iff_eq, true_and]

private theorem isSome_remembered?_locate (index : Index) (offset key : Nat) :
    (((locate offset).run index).state.remembered? key).isSome = true ↔
      (index.remembered? key).isSome = true ∨
        index.settings.caching = true ∧ offset = key ∧ key ≤ index.table.length := by
  rcases index.run_locate_cases offset with
    ⟨location, known, ran⟩ | ⟨inside, _, ran⟩ | ⟨outside, _, ran⟩
  · rw [ran]
    constructor
    · exact Or.inl
    · rintro (before | ⟨_, rfl, _⟩)
      · exact before
      · exact Option.isSome_of_eq_some known
  · rw [ran, remembered?_remember]
    by_cases new : index.settings.caching = true ∧ offset = key
    · rw [if_pos new]
      simp only [Option.isSome_some, true_iff]
      exact Or.inr ⟨new.1, new.2, new.2 ▸ inside⟩
    · rw [if_neg new]
      constructor
      · exact Or.inl
      · rintro (before | ⟨caching, same, _⟩)
        · exact before
        · exact absurd ⟨caching, same⟩ new
  · rw [ran]
    constructor
    · exact Or.inl
    · rintro (before | ⟨_, rfl, inside⟩)
      · exact before
      · omega

end Index

variable {n : Nat}

private theorem Request.locate_eq_iff (i j : Fin n) (offset asked : Nat) :
    Request.locate i offset = .locate j asked ↔ j = i ∧ asked = offset := by
  rw [Request.locate.injEq, eq_comm, @eq_comm _ offset]

namespace Session

private theorem settings_perform (request : Request n) (session : Session n) (j : Fin n) :
    ((request.perform.run session).state.get j).settings = (session.get j).settings := by
  cases request with
  | locate i offset =>
    rw [get_state_perform_locate]
    split
    · exact Index.settings_locate (session.get j) offset
    · rfl
  | reject i offset => rw [state_perform_reject]

theorem caching_perform (request : Request n) (session : Session n) :
    caching (request.perform.run session).state = session.caching := by
  funext j
  exact congrArg Settings.caching (settings_perform request session j)

theorem settings_serve (session : Session n) (requests : List (Request n)) (j : Fin n) :
    ((session.serve requests).2.get j).settings = (session.get j).settings := by
  induction requests generalizing session with
  | nil => rfl
  | cons request rest ih => exact (ih _).trans (settings_perform request session j)

theorem settings_state_perform (session : Session n) (step : Step n) (i : Fin n) :
    (((perform step).run session).state.get i).settings = (session.get i).settings := by
  rw [(session.asks_perform step).state, settings_serve]

theorem caching_serve (session : Session n) (requests : List (Request n)) :
    (session.serve requests).2.caching = session.caching := by
  funext j
  exact congrArg Settings.caching (session.settings_serve requests j)

theorem caching_after (session : Session n) (steps : List (Step n)) :
    (session.after steps).caching = session.caching := by
  rw [after_eq_serve, caching_serve]

theorem settings_build (sources : Vector Source n) (i : Fin n) :
    ((build sources).get i).settings = (sources.get i).settings := by
  rw [get_build]
  rfl

theorem caching_build (sources : Vector Source n) :
    (build sources).caching = fun i => (sources.get i).settings.caching := by
  funext i
  exact congrArg Settings.caching (settings_build sources i)

/-- Each index that remembers locations remembers just the offsets that these requests located. -/
def Recalls (session : Session n) (before : List (Request n)) : Prop :=
  ∀ (i : Fin n) (offset : Nat), ((session.get i).remembered? offset).isSome = true ↔
    session.caching i = true ∧ .locate i offset ∈ before ∧ offset ≤ session.lengths i

namespace Recalls

variable {session : Session n} {before : List (Request n)}

theorem build (sources : Vector Source n) : (build sources).Recalls [] := by
  intro i offset
  have fresh : ((Session.build sources).get i).remembered? offset = none := by
    rw [get_build, Index.remembered?, Index.memo_build]
    split
    · simp
    · rfl
  rw [fresh]
  simp

theorem perform (recalls : session.Recalls before) (request : Request n) :
    Recalls (request.perform.run session).state (before ++ [request]) := by
  intro j key
  have old := recalls j key
  have lengths := lengths_of_tables (tables_perform request session)
  rw [lengths, caching_perform, List.mem_append, List.mem_singleton]
  cases request with
  | locate i offset =>
    rw [get_state_perform_locate, Request.locate_eq_iff]
    -- Only the index that is asked can come to remember more.
    by_cases same : i = j
    · subst same
      rw [if_pos rfl, Index.isSome_remembered?_locate, old]
      change _ ∨ session.caching i = true ∧ offset = key ∧ key ≤ session.lengths i ↔ _
      constructor
      · rintro (⟨caching, member, inside⟩ | ⟨caching, rfl, inside⟩)
        · exact ⟨caching, Or.inl member, inside⟩
        · exact ⟨caching, Or.inr ⟨rfl, rfl⟩, inside⟩
      · rintro ⟨caching, member | ⟨_, rfl⟩, inside⟩
        · exact Or.inl ⟨caching, member, inside⟩
        · exact Or.inr ⟨caching, rfl, inside⟩
    · rw [if_neg same, old]
      simp only [same, false_and, or_false]
  | reject i offset =>
    rw [state_perform_reject, old]
    simp only [reduceCtorEq, or_false]

theorem serve (recalls : session.Recalls before) (requests : List (Request n)) :
    (session.serve requests).2.Recalls (before ++ requests) := by
  induction requests generalizing session before with
  | nil => simpa using recalls
  | cons request rest ih =>
    have later := ih (recalls.perform request)
    rw [List.append_assoc] at later
    exact later

theorem events_perform (recalls : session.Recalls before) (request : Request n) :
    (request.perform.run session).events =
      request.events session.lengths session.caching before := by
  cases request with
  | reject i offset => rfl
  | locate i offset =>
    have known := recalls i offset
    change ((Index.locate offset).run (session.get i)).events =
      if (session.get i).table.length < offset then [.beyond offset (session.get i).table.length]
      else if session.caching i = true ∧ .locate i offset ∈ before then [.hit offset] else []
    rcases (session.get i).run_locate_cases offset with
      ⟨location, remembered, ran⟩ | ⟨inside, fresh, ran⟩ | ⟨outside, _, ran⟩
    · obtain ⟨caching, member, _⟩ := known.mp (Option.isSome_of_eq_some remembered)
      have inside := ((session.get i).remembered?_sound remembered).1
      rw [ran, if_neg (Nat.not_lt_of_le inside), if_pos ⟨caching, member⟩]
    · -- Had it been located before, it would be remembered now.
      have forgotten : ¬ (session.caching i = true ∧ .locate i offset ∈ before) := by
        rintro ⟨caching, member⟩
        have isSome := known.mpr ⟨caching, member, inside⟩
        rw [fresh] at isSome
        cases isSome
      rw [ran, if_neg (Nat.not_lt_of_le inside), if_neg forgotten]
    · rw [ran, if_pos outside]

theorem events_serve (recalls : session.Recalls before) (requests : List (Request n)) :
    session.eventsServing requests =
      Request.eventsOfAll session.lengths session.caching before requests := by
  induction requests generalizing session before with
  | nil => rfl
  | cons request rest ih =>
    have first := recalls.events_perform request
    have later := ih (recalls.perform request)
    have lengths := lengths_of_tables (tables_perform request session)
    rw [lengths, caching_perform] at later
    have split : session.eventsServing (request :: rest) =
        (request.perform.run session).events ++
          eventsServing (request.perform.run session).state rest := rfl
    rw [split, first, later]
    rfl

end Recalls
end Session

/-! ## From the steps taken to the offsets remembered -/

private theorem mem_throughFirstBeyond (length : Nat) (offsets : List Nat) (offset : Nat) :
    offset ∈ throughFirstBeyond length offsets ∧ offset ≤ length ↔
      offset ∈ offsets.takeWhile fun asked => asked ≤ length := by
  induction offsets with
  | nil => simp [throughFirstBeyond]
  | cons first rest ih =>
    simp only [throughFirstBeyond, List.takeWhile_cons, decide_eq_true_eq]
    by_cases inside : first ≤ length
    · rw [if_pos inside, if_pos inside, List.mem_cons, List.mem_cons, ← ih]
      constructor
      · rintro ⟨rfl | later, fits⟩
        · exact Or.inl rfl
        · exact Or.inr ⟨later, fits⟩
      · rintro (rfl | ⟨later, fits⟩)
        · exact ⟨Or.inl rfl, inside⟩
        · exact ⟨Or.inr later, fits⟩
    · rw [if_neg inside, if_neg inside, List.mem_singleton]
      constructor
      · rintro ⟨rfl, fits⟩
        exact absurd fits inside
      · intro member
        cases member

example : throughFirstBeyond 3 [1, 5, 2] = [1, 5] := by decide

theorem mem_interval (first last offset : Nat) :
    offset ∈ interval first last ↔ first ≤ offset ∧ offset ≤ last := by
  rw [interval, List.mem_range'_1]
  omega

private theorem Request.locate_mem_map (i j : Fin n) (offset : Nat) (offsets : List Nat) :
    Request.locate i offset ∈ offsets.map (Request.locate j) ↔ j = i ∧ offset ∈ offsets := by
  rw [List.mem_map]
  constructor
  · rintro ⟨asked, member, same⟩
    obtain ⟨rfl, rfl⟩ := Request.locate.inj same
    exact ⟨rfl, member⟩
  · rintro ⟨rfl, member⟩
    exact ⟨offset, member, rfl⟩

theorem Step.locates_iff (lengths : Fin n → Nat) (i : Fin n) (offset : Nat) (step : Step n) :
    step.Locates lengths i offset ↔
      .locate i offset ∈ step.requests lengths ∧ offset ≤ lengths i := by
  cases step with
  | locate j asked =>
    simp only [Locates, requests, List.mem_singleton, Request.locate_eq_iff, and_assoc]
  | locateSigned j asked =>
    simp only [Locates, requests]
    by_cases negative : asked < 0
    · rw [if_pos negative, List.mem_singleton]
      constructor
      · rintro ⟨_, rfl, _⟩
        exact absurd negative (Int.not_lt.mpr (Int.natCast_nonneg offset))
      · rintro ⟨same, _⟩
        cases same
    · have isOffset : asked.toNat = offset ↔ asked = offset := by omega
      rw [if_neg negative, List.mem_singleton, Request.locate_eq_iff, isOffset, and_assoc]
  | locateSpan j span =>
    have stops := span.stop?_eq_some_iff offset
    simp only [Locates, requests, stops]
    -- The stop is asked for when the start is in the text and the sum is an offset.
    by_cases both : span.base ≤ lengths j ∧ span.base + span.length ≤ maxOffset
    · simp only [if_pos both, List.mem_cons, List.not_mem_nil, or_false, Request.locate_eq_iff]
      constructor
      · rintro ⟨rfl, _, inside, based | ⟨stopped, _⟩⟩
        · exact ⟨Or.inl ⟨rfl, based⟩, inside⟩
        · exact ⟨Or.inr ⟨rfl, stopped⟩, inside⟩
      · rintro ⟨⟨rfl, based⟩ | ⟨rfl, stopped⟩, inside⟩
        · exact ⟨rfl, both.1, inside, Or.inl based⟩
        · exact ⟨rfl, both.1, inside, Or.inr ⟨stopped, stopped ▸ both.2⟩⟩
    · rw [if_neg both, List.mem_singleton, Request.locate_eq_iff]
      constructor
      · rintro ⟨rfl, started, inside, based | ⟨rfl, fits⟩⟩
        · exact ⟨⟨rfl, based⟩, inside⟩
        · exact absurd ⟨started, fits⟩ both
      · rintro ⟨⟨rfl, rfl⟩, inside⟩
        exact ⟨rfl, inside, inside, Or.inl rfl⟩
  | scan j first last =>
    simp only [Locates, requests, Request.locate_mem_map, mem_interval, and_assoc]
  | compare j a k b =>
    simp only [Locates, requests, List.mem_cons, List.not_mem_nil, or_false,
      Request.locate_eq_iff]
  | sort j offsets =>
    simp only [Locates, requests, Request.locate_mem_map, ← mem_throughFirstBeyond, and_assoc]
    constructor
    · rintro ⟨rfl, located⟩
      exact ⟨rfl, located⟩
    · rintro ⟨rfl, located⟩
      exact ⟨rfl, located⟩
  | summarize j => simp [Locates, requests]
  | lineStarts j => simp [Locates, requests]
  | lineStart j line => simp [Locates, requests]
  | lineExtent j line => simp [Locates, requests]
  | lineExtents j first last => simp [Locates, requests]
  | inspect j listing => simp [Locates, requests]

private theorem Step.exists_locates_iff (lengths : Fin n → Nat) (i : Fin n) (offset : Nat)
    (steps : List (Step n)) :
    (∃ step ∈ steps, step.Locates lengths i offset) ↔
      .locate i offset ∈ steps.flatMap (requests lengths) ∧ offset ≤ lengths i := by
  simp only [locates_iff, List.mem_flatMap]
  constructor
  · rintro ⟨step, member, asked, inside⟩
    exact ⟨⟨step, member, asked⟩, inside⟩
  · rintro ⟨⟨step, member, asked⟩, inside⟩
    exact ⟨step, member, asked, inside⟩

private theorem Index.remembered?_locate {index : Index} {key : Nat} {location : Location}
    (known : index.remembered? key = some location) (offset : Nat) :
    ((locate offset).run index).state.remembered? key = some location := by
  rcases index.run_locate_cases offset with ⟨_, _, ran⟩ | ⟨inside, fresh, ran⟩ | ⟨_, _, ran⟩
  · rw [ran]
    exact known
  · have apart : ¬ (index.settings.caching = true ∧ offset = key) := by
      rintro ⟨_, rfl⟩
      rw [fresh] at known
      cases known
    rw [ran, remembered?_remember, if_neg apart]
    exact known
  · rw [ran]
    exact known

namespace Session

private theorem remembered?_perform {session : Session n} {i : Fin n} {key : Nat}
    {location : Location}
    (known : (session.get i).remembered? key = some location) (request : Request n) :
    ((request.perform.run session).state.get i).remembered? key = some location := by
  cases request with
  | locate j offset =>
    rw [get_state_perform_locate]
    split
    · exact Index.remembered?_locate known offset
    · exact known
  | reject j offset =>
    rw [state_perform_reject]
    exact known

private theorem remembered?_serve {session : Session n} {i : Fin n} {key : Nat}
    {location : Location}
    (known : (session.get i).remembered? key = some location) (requests : List (Request n)) :
    ((session.serve requests).2.get i).remembered? key = some location := by
  induction requests generalizing session with
  | nil => exact known
  | cons request rest ih => exact ih (remembered?_perform known request)

private theorem state_perform_of_error {session : Session n} {request : Request n}
    {failure : OutOfRange} (failed : (request.perform.run session).result = .error failure) :
    (request.perform.run session).state = session := by
  cases request with
  | reject i offset => exact session.state_perform_reject i offset
  | locate i offset =>
    change ((Index.locate offset).run (session.get i)).result = .error failure at failed
    change session.set i ((Index.locate offset).run (session.get i)).state = session
    rcases (session.get i).run_locate_cases offset with ⟨_, _, ran⟩ | ⟨_, _, ran⟩ | ⟨_, _, ran⟩
    · rw [ran] at failed
      cases failed
    · rw [ran] at failed
      cases failed
    · rw [ran]
      exact Vector.set_getElem_self i.isLt

private theorem state_perform_of_map_error {session : Session n} (request : Request n)
    {failure : OutOfRange}
    (failed : ((Answer.location <$> request.perform).run session).result = .error failure) :
    ((Answer.location <$> request.perform).run session).state = session := by
  rw [Lookup.result_map_eq_error_iff] at failed
  rw [Lookup.run_map]
  exact state_perform_of_error failed

theorem recalls_after (sources : Vector Source n) (steps : List (Step n)) :
    ((build sources).after steps).Recalls
      (steps.flatMap (Step.requests (build sources).lengths)) := by
  rw [after_eq_serve]
  exact (Recalls.build sources).serve _

/-- What is remembered after a step: what was before, and the offsets that it locates. -/
theorem Recalls.isSome_remembered?_perform {session : Session n} {before : List (Request n)}
    (recalls : session.Recalls before) (step : Step n) (i : Fin n) (key : Nat) :
    ((((Session.perform step).run session).state.get i).remembered? key).isSome = true ↔
      ((session.get i).remembered? key).isSome = true ∨
        session.caching i = true ∧ step.Locates session.lengths i key := by
  have later := recalls.serve (step.requests session.lengths) i key
  rw [lengths_serve, caching_serve, List.mem_append] at later
  rw [(session.asks_perform step).state, later, recalls i key, Step.locates_iff]
  constructor
  · rintro ⟨caching, old | new, inside⟩
    · exact Or.inl ⟨caching, old, inside⟩
    · exact Or.inr ⟨caching, new, inside⟩
  · rintro (⟨caching, old, inside⟩ | ⟨caching, new, inside⟩)
    · exact ⟨caching, Or.inl old, inside⟩
    · exact ⟨caching, Or.inr new, inside⟩

/-- The indexes are those of the sources, and what each remembers is just the locations of the
offsets that these steps located on it. -/
structure Remembers (session : Session n) (sources : Vector Source n) (steps : List (Step n)) :
    Prop where
  table : ∀ i : Fin n, (session.get i).table = .ofString (sources.get i).text
  settings : ∀ i : Fin n, (session.get i).settings = (sources.get i).settings
  isCaching : ∀ i : Fin n, (session.get i).isCaching = (session.get i).settings.caching
  forgetful : ∀ i : Fin n, (session.get i).settings.caching = false → (session.get i).memo = none
  keys : ∀ i : Fin n, (session.get i).settings.caching = true →
    ∃ cells, (session.get i).memo = some cells ∧ ∀ offset, offset ∈ cells ↔
      ∃ step ∈ steps, step.Locates (fun j => (sources.get j).text.length) i offset
  sound : ∀ (i : Fin n) (cells : Memo), (session.get i).memo = some cells →
    ∀ (offset : Nat) (location : Location), cells[offset]? = some location →
      location.offset = offset ∧
        ((Index.locate offset).run (.plain (sources.get i).text)).result = .ok location

theorem Remembers.after (sources : Vector Source n) (steps : List (Step n)) :
    ((build sources).after steps).Remembers sources steps := by
  have recalls := recalls_after sources steps
  have lengths := (build sources).lengths_after steps
  rw [lengths_build] at recalls lengths
  constructor
  case table => exact table_after_build sources steps
  case settings =>
    intro i
    rw [after_eq_serve, settings_serve, settings_build]
  case isCaching =>
    intro i
    exact (((build sources).after steps).get i).memo_isSome
  case forgetful =>
    intro i plain
    exact Index.memo_eq_none plain
  case keys =>
    intro i caching
    obtain ⟨cells, isMemo⟩ := Index.exists_memo caching
    refine ⟨cells, isMemo, ?_⟩
    intro offset
    have known := recalls i offset
    rw [Index.remembered?, isMemo, Option.bind_some, lengths,
      ← Std.ExtTreeMap.mem_iff_isSome_getElem?] at known
    rw [Step.exists_locates_iff, known]
    exact and_iff_right caching
  case sound =>
    intro i cells isMemo offset location found
    obtain ⟨inside, rfl⟩ :=
      (((build sources).after steps).get i).memo_sound cells isMemo offset location found
    rw [table_after_build] at inside ⊢
    refine ⟨rfl, ?_⟩
    rw [Index.result_locate]
    exact if_pos inside

/-- Whatever has been asked, an index remembers just what was located on it, with the locations that
a search finds. Nothing is forgotten or replaced later, and a failed request changes nothing. -/
theorem memory_after_steps (sources : Vector Source n) (steps : List (Step n)) :
    let session := (build sources).after steps
    session.Remembers sources steps ∧
      (∀ (more : List (Step n)) (i : Fin n) (offset : Nat) (location : Location),
        (session.get i).remembered? offset = some location →
          ((session.after more).get i).remembered? offset = some location) ∧
      (∀ (requests : List (Request n)) (request : Request n) (failure : OutOfRange),
        let middle := (session.serve requests).2
        (request.perform.run middle).result = .error failure →
          (request.perform.run middle).state = middle) ∧
      (∀ (i : Fin n) (offset : Nat) (failure : OutOfRange),
        ((perform (.locate i offset)).run session).result = .error failure →
          ((perform (.locate i offset)).run session).state = session) ∧
      ∀ (i : Fin n) (offset : Int) (failure : OutOfRange),
        ((perform (.locateSigned i offset)).run session).result = .error failure →
          ((perform (.locateSigned i offset)).run session).state = session := by
  intro session
  refine ⟨.after sources steps, ?_, ?_, ?_, ?_⟩
  · intro more i offset location known
    rw [after_eq_serve session more]
    exact remembered?_serve known _
  · intro requests request failure middle failed
    exact state_perform_of_error failed
  · intro i offset failure failed
    exact state_perform_of_map_error (.locate i offset) failed
  · intro i offset failure failed
    unfold perform Index.locateSigned at failed ⊢
    by_cases negative : offset < 0
    · simp only [negative, if_true] at failed ⊢
      exact state_perform_of_map_error (.reject i offset) failed
    · simp only [negative, if_false] at failed ⊢
      exact state_perform_of_map_error (.locate i offset.toNat) failed

end Session
end Lineation
