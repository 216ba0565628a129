import Lineation.Span

/-!
Computations that look things up, and what they report about their own work.

A lookup reads and changes a state, reports events, and either returns a value or fails because an
offset is out of range. A failure ends the lookup but undoes nothing: the state reached and the
events reported by then stay. The events of two lookups in sequence are those of the first followed
by those of the second.

Building an index is reported once. Locating an offset is reported when it was answered from memory
and when it was rejected; one that was answered by a search is not. An event keeps the offset that
was asked for, also where the failure returned to the caller has it clamped.
-/

set_option autoImplicit false
set_option relaxedAutoImplicit false

namespace Lineation

inductive Level where
  | debug
  | trace
  deriving DecidableEq

def Level.text : Level → String
  | .debug => "DEBUG"
  | .trace => "TRACE"

inductive Event where
  | built (length lines : Nat) (caching : Bool)
  | hit (offset : Nat)
  | beyond (offset length : Nat)
  | negative (offset : Int) (length : Nat)
  deriving DecidableEq

namespace Event

def level : Event → Level
  | .hit _ => .trace
  | _ => .debug

def message : Event → String
  | .built .. => "built location index"
  | .hit _ => "location cache hit"
  | .beyond .. => "offset out of range"
  | .negative .. => "negative offset rejected"

def isHit : Event → Bool
  | .hit _ => true
  | _ => false

def unflagged : Event → Event
  | .built length lines _ => .built length lines false
  | event => event

/-- What would be reported in the place of some events if nothing were remembered. -/
def uncached (events : List Event) : List Event :=
  (events.filter fun event => !event.isHit).map unflagged

end Event

/-! ## Lookups -/

structure Outcome (σ α : Type) where
  result : Except OutOfRange α
  state : σ
  events : List Event

structure Lookup (σ α : Type) where
  run : σ → Outcome σ α

namespace Lookup

variable {σ α β γ : Type}

@[ext]
theorem ext_run {first second : Lookup σ α} (run : ∀ state, first.run state = second.run state) :
    first = second := by
  cases first
  cases second
  exact congrArg Lookup.mk (funext run)

protected def pure (value : α) : Lookup σ α := ⟨fun state => ⟨.ok value, state, []⟩⟩

protected def bind (first : Lookup σ α) (next : α → Lookup σ β) : Lookup σ β :=
  ⟨fun state =>
    match first.run state with
    | ⟨.error failure, state, events⟩ => ⟨.error failure, state, events⟩
    | ⟨.ok value, state, events⟩ =>
      let second := (next value).run state
      ⟨second.result, second.state, events ++ second.events⟩⟩

instance : Monad (Lookup σ) where
  pure := Lookup.pure
  bind := Lookup.bind

instance : MonadStateOf σ (Lookup σ) where
  get := ⟨fun state => ⟨.ok state, state, []⟩⟩
  set next := ⟨fun _ => ⟨.ok (), next, []⟩⟩
  modifyGet change := ⟨fun state => ⟨.ok (change state).1, (change state).2, []⟩⟩

def fail (failure : OutOfRange) : Lookup σ α := ⟨fun state => ⟨.error failure, state, []⟩⟩

def ofResult : Except OutOfRange α → Lookup σ α
  | .ok value => pure value
  | .error failure => fail failure

def report (event : Event) : Lookup σ Unit := ⟨fun state => ⟨.ok (), state, [event]⟩⟩

/-- Return the answer of a lookup as a value, so that its failure ends nothing else. -/
def attempt (lookup : Lookup σ α) : Lookup σ (Except OutOfRange α) :=
  ⟨fun state =>
    let outcome := lookup.run state
    ⟨.ok outcome.result, outcome.state, outcome.events⟩⟩

def focus {n : Nat} (i : Fin n) (lookup : Lookup σ α) : Lookup (Vector σ n) α :=
  ⟨fun states =>
    let outcome := lookup.run (states.get i)
    ⟨outcome.result, states.set i outcome.state, outcome.events⟩⟩

@[simp] theorem run_pure (value : α) (state : σ) :
    (pure value : Lookup σ α).run state = ⟨.ok value, state, []⟩ := rfl

theorem run_bind (first : Lookup σ α) (next : α → Lookup σ β) (state : σ) :
    (first >>= next).run state =
      match first.run state with
      | ⟨.error failure, state, events⟩ => ⟨.error failure, state, events⟩
      | ⟨.ok value, state, events⟩ =>
        ⟨((next value).run state).result, ((next value).run state).state,
          events ++ ((next value).run state).events⟩ := rfl

theorem run_bind_of_ok {first : Lookup σ α} {state middle : σ} {value : α} {events : List Event}
    (ran : first.run state = ⟨.ok value, middle, events⟩) (next : α → Lookup σ β) :
    (first >>= next).run state =
      ⟨((next value).run middle).result, ((next value).run middle).state,
        events ++ ((next value).run middle).events⟩ := by
  rw [run_bind, ran]

theorem run_bind_of_error {first : Lookup σ α} {state middle : σ} {failure : OutOfRange}
    {events : List Event} (ran : first.run state = ⟨.error failure, middle, events⟩)
    (next : α → Lookup σ β) :
    (first >>= next).run state = ⟨.error failure, middle, events⟩ := by
  rw [run_bind, ran]

@[simp] theorem run_map (f : α → β) (lookup : Lookup σ α) (state : σ) :
    (f <$> lookup).run state =
      ⟨(lookup.run state).result.map f, (lookup.run state).state, (lookup.run state).events⟩ := by
  change (lookup >>= fun value => pure (f value)).run state = _
  rw [run_bind]
  rcases lookup.run state with ⟨failure | value, middle, events⟩
  · rfl
  · simp [Except.map]

theorem result_map_eq_error_iff (f : α → β) (lookup : Lookup σ α) (state : σ)
    (failure : OutOfRange) :
    ((f <$> lookup).run state).result = .error failure ↔
      (lookup.run state).result = .error failure := by
  rw [run_map]
  cases (lookup.run state).result with
  | error other => simp only [Except.map, Except.error.injEq]
  | ok value => simp only [Except.map, reduceCtorEq]

@[simp] theorem run_get (state : σ) : (get : Lookup σ σ).run state = ⟨.ok state, state, []⟩ := rfl

@[simp] theorem run_set (next state : σ) :
    (set next : Lookup σ PUnit).run state = ⟨.ok (), next, []⟩ := rfl

@[simp] theorem run_fail (failure : OutOfRange) (state : σ) :
    (fail failure : Lookup σ α).run state = ⟨.error failure, state, []⟩ := rfl

@[simp] theorem run_ofResult (result : Except OutOfRange α) (state : σ) :
    (ofResult result : Lookup σ α).run state = ⟨result, state, []⟩ := by
  cases result <;> rfl

@[simp] theorem run_report (event : Event) (state : σ) :
    (report event : Lookup σ Unit).run state = ⟨.ok (), state, [event]⟩ := rfl

@[simp] theorem run_attempt (lookup : Lookup σ α) (state : σ) :
    lookup.attempt.run state =
      ⟨.ok (lookup.run state).result, (lookup.run state).state, (lookup.run state).events⟩ := rfl

@[simp] theorem run_focus {n : Nat} (i : Fin n) (lookup : Lookup σ α) (states : Vector σ n) :
    (lookup.focus i).run states =
      ⟨(lookup.run (states.get i)).result, states.set i (lookup.run (states.get i)).state,
        (lookup.run (states.get i)).events⟩ := rfl

instance : LawfulMonad (Lookup σ) := LawfulMonad.mk' _
  (by
    intro α lookup
    ext state
    rw [run_map]
    rcases lookup.run state with ⟨failure | value, middle, events⟩ <;> rfl)
  (by
    intro α β value next
    ext state
    simp [run_bind])
  (by
    intro α β γ first second third
    ext state
    simp only [run_bind]
    rcases first.run state with ⟨failure | value, middle, events⟩
    · rfl
    · dsimp only
      rcases (second value).run middle with ⟨failure | value, last, more⟩ <;>
        simp [List.append_assoc])

theorem get_state_focus {n : Nat} (i j : Fin n) (lookup : Lookup σ α) (states : Vector σ n) :
    ((lookup.focus i).run states).state.get j =
      if i = j then (lookup.run (states.get j)).state else states.get j := by
  change (states.set i (lookup.run (states.get i)).state)[j.val] = _
  rw [Vector.getElem_set]
  by_cases same : i = j
  · subst same
    rw [if_pos rfl, if_pos rfl]
  · rw [if_neg (Fin.val_ne_of_ne same), if_neg same]
    rfl

/-! Working on one entry keeps the structure of a lookup. -/

@[simp] theorem focus_pure {n : Nat} (i : Fin n) (value : α) :
    (pure value : Lookup σ α).focus i = pure value := by
  ext states
  have unchanged : states.set i (states.get i) = states := Vector.set_getElem_self i.isLt
  rw [run_focus, run_pure, run_pure, unchanged]

theorem focus_attempt {n : Nat} (i : Fin n) (lookup : Lookup σ α) :
    lookup.attempt.focus i = (lookup.focus i).attempt := rfl

theorem focus_bind {n : Nat} (i : Fin n) (first : Lookup σ α) (next : α → Lookup σ β) :
    (first >>= next).focus i = first.focus i >>= fun value => (next value).focus i := by
  ext states
  simp only [run_focus, run_bind]
  rcases first.run (states.get i) with ⟨failure | value, middle, events⟩
  · rfl
  · have left : (states.set i middle).get i = middle := Vector.getElem_set_self i.isLt
    simp only [left, Vector.set_set]

theorem focus_map {n : Nat} (i : Fin n) (f : α → β) (lookup : Lookup σ α) :
    (f <$> lookup).focus i = f <$> lookup.focus i := by
  ext states
  simp

theorem focus_mapM {n : Nat} (i : Fin n) (f : γ → Lookup σ α) (items : List γ) :
    (items.mapM f).focus i = items.mapM fun item => (f item).focus i := by
  induction items with
  | nil => simp
  | cons item rest ih => simp only [List.mapM_cons, focus_bind, focus_pure, ih]

end Lookup
end Lineation
