import Lineation.Index

/-!
Sessions: several indexes and the steps taken on them.

A step asks one of several indexes something, or compares what two of them say. `perform` says what
it does to the indexes and what it answers; `run` takes steps in order and keeps for each its answer
and its events.

A step may look up several offsets. What is looked up, and in which order, is part of a step's
meaning, because the indexes remember it and report it, and it is determined by the lengths of the
texts alone: where a step stops early, it does so because an offset lies beyond an end.
`Step.requests` lists what a step asks, and `Request.events` says what is reported for a request,
given all requests made before it. `Session.serve` makes requests one after the other and logs what
is reported for each. `Step.Locates` says directly which offsets a step locates, without listing
what it asks.
-/

set_option autoImplicit false
set_option relaxedAutoImplicit false

namespace Lineation

inductive Step (n : Nat) where
  | locate (i : Fin n) (offset : Nat)
  | locateSigned (i : Fin n) (offset : Int)
  | locateSpan (i : Fin n) (span : Span)
  /-- Locate every offset between two, both included, whether or not others are out of range. -/
  | scan (i : Fin n) (first last : Nat)
  | summarize (i : Fin n)
  | lineStarts (i : Fin n)
  | lineStart (i : Fin n) (line : Nat)
  | lineExtent (i : Fin n) (line : Nat)
  | lineExtents (i : Fin n) (first last : Nat)
  /-- Locate one offset in each of two indexes and set the locations against each other. -/
  | compare (i : Fin n) (a : Nat) (j : Fin n) (b : Nat)
  /-- Locate offsets in order, up to the first that is out of range, and sort the locations. -/
  | sort (i : Fin n) (offsets : List Nat)
  /-- Show the structure of an index, its memory in this order. -/
  | inspect (i : Fin n) (listing : Listing := .ascending)

inductive Answer where
  | location (location : Location)
  | span (span : SpanLocation)
  | scan (results : List (Except OutOfRange Location))
  | summary (summary : Summary)
  | lineStarts (starts : List Nat)
  | lineStart (start : Option Nat)
  | lineExtent (extent : Option Extent)
  | lineExtents (extents : List (Option Extent))
  | comparison (a b : Location)
  | sorted (locations : List Location)
  | text (text : String)

structure Report where
  result : Except OutOfRange Answer
  events : List Event

/-! ## Sessions -/

structure Source where
  settings : Settings
  text : String

abbrev Session (n : Nat) := Vector Index n

namespace Session

variable {n : Nat}

def build (sources : Vector Source n) : Session n :=
  sources.map fun source => .build source.settings source.text

def construct (sources : Vector Source n) : Lookup Unit (Session n) :=
  sources.mapM fun source => Index.construct source.settings source.text

def builtEvents (session : Session n) : List Event := session.toList.map Index.builtEvent

/-- Both locations are looked up even when the first offset is out of range, and of two failures the
first is reported. -/
def locateBoth (i : Fin n) (a : Nat) (j : Fin n) (b : Nat) :
    Lookup (Session n) (Location × Location) := do
  let first ← ((Index.locate a).focus i).attempt
  let second ← ((Index.locate b).focus j).attempt
  .ofResult do return (← first, ← second)

def perform : Step n → Lookup (Session n) Answer
  | .locate i offset => .location <$> (Index.locate offset).focus i
  | .locateSigned i offset => .location <$> (Index.locateSigned offset).focus i
  | .locateSpan i span => .span <$> (Index.locateSpan span).focus i
  | .scan i first last => .scan <$> (Index.locateEach (interval first last)).focus i
  | .summarize i => .summary <$> (Index.consult Index.summary).focus i
  | .lineStarts i => .lineStarts <$> (Index.consult (·.table.starts.toList)).focus i
  | .lineStart i line => .lineStart <$> (Index.consult (·.table.lineStart? line)).focus i
  | .lineExtent i line => .lineExtent <$> (Index.consult (·.table.lineExtent? line)).focus i
  | .lineExtents i first last =>
    .lineExtents <$> (Index.consult fun index =>
      (interval first last).map index.table.lineExtent?).focus i
  | .compare i a j b => (fun both => .comparison both.1 both.2) <$> locateBoth i a j b
  | .sort i offsets =>
    (fun found => .sorted (Location.sort found)) <$> (Index.locateAll offsets).focus i
  | .inspect i listing => .text <$> (Index.consult (·.inspect listing)).focus i

def run (session : Session n) : List (Step n) → List Report × Session n
  | [] => ([], session)
  | step :: rest =>
    let outcome := (perform step).run session
    let later := run outcome.state rest
    (⟨outcome.result, outcome.events⟩ :: later.1, later.2)

def reports (session : Session n) (steps : List (Step n)) : List Report := (session.run steps).1

def after (session : Session n) (steps : List (Step n)) : Session n := (session.run steps).2

end Session

/-! ## What of a session is about its texts and not about the memory of its indexes -/

def Source.uncached (source : Source) : Source := { source with settings := .plain }

/-- An answer without what it says about the memory of an index: a summary keeps no choices, and the
shown structure of an index is dropped. -/
def Answer.content : Answer → Answer
  | .summary said => .summary { said with isCaching := false, settings := .plain }
  | .text _ => .text ""
  | answer => answer

def Report.content (report : Report) : Except OutOfRange Answer :=
  report.result.map Answer.content

/-- The same step, but that it may show a memory in another order. -/
inductive Step.Alike {n : Nat} : Step n → Step n → Prop
  | same (step : Step n) : Alike step step
  | relisted (i : Fin n) (one other : Listing) : Alike (.inspect i one) (.inspect i other)

/-- The same report, but that it may show the same memory in another order. -/
inductive Report.Alike : Report → Report → Prop
  | same (report : Report) : Alike report report
  | relisted (index : Index) (one other : Listing) :
    Alike ⟨.ok (.text (index.inspect one)), []⟩ ⟨.ok (.text (index.inspect other)), []⟩

/-! ## What a step asks of the indexes -/

inductive Request (n : Nat) where
  | locate (i : Fin n) (offset : Nat)
  | reject (i : Fin n) (offset : Int)
  deriving DecidableEq

/-- The offsets up to the first that exceeds a length, and that one. -/
def throughFirstBeyond (length : Nat) : List Nat → List Nat
  | [] => []
  | offset :: rest =>
    if offset ≤ length then offset :: throughFirstBeyond length rest else [offset]

def Step.requests {n : Nat} (lengths : Fin n → Nat) : Step n → List (Request n)
  | .locate i offset => [.locate i offset]
  | .locateSigned i offset =>
    if offset < 0 then [.reject i offset] else [.locate i offset.toNat]
  | .locateSpan i span =>
    if span.base ≤ lengths i ∧ span.base + span.length ≤ maxOffset then
      [.locate i span.base, .locate i (span.base + span.length)]
    else
      [.locate i span.base]
  | .scan i first last => (interval first last).map (.locate i)
  | .compare i a j b => [.locate i a, .locate j b]
  | .sort i offsets => (throughFirstBeyond (lengths i) offsets).map (.locate i)
  | .summarize _ | .lineStarts _ | .lineStart .. | .lineExtent .. | .lineExtents ..
  | .inspect .. => []

namespace Request

variable {n : Nat}

def index : Request n → Fin n
  | .locate i _ => i
  | .reject i _ => i

def ask : Request n → Lookup Index Location
  | .locate _ offset => Index.locate offset
  | .reject _ offset => Index.reject offset

def perform (request : Request n) : Lookup (Session n) Location := request.ask.focus request.index

def Succeeds (lengths : Fin n → Nat) : Request n → Prop
  | .locate i offset => offset ≤ lengths i
  | .reject .. => False

instance (lengths : Fin n → Nat) : DecidablePred (Succeeds lengths)
  | .locate i offset => inferInstanceAs (Decidable (offset ≤ lengths i))
  | .reject .. => inferInstanceAs (Decidable False)

/-- What is reported for a request when some requests have been made before. -/
def events (lengths : Fin n → Nat) (caching : Fin n → Bool) (before : List (Request n)) :
    Request n → List Event
  | .reject i offset => [.negative offset (lengths i)]
  | .locate i offset =>
    if lengths i < offset then [.beyond offset (lengths i)]
    else if caching i ∧ .locate i offset ∈ before then [.hit offset]
    else []

def eventsOfAll (lengths : Fin n → Nat) (caching : Fin n → Bool) (before : List (Request n)) :
    List (Request n) → List Event
  | [] => []
  | request :: rest =>
    request.events lengths caching before
      ++ eventsOfAll lengths caching (before ++ [request]) rest

end Request

def Step.eventsOfAll {n : Nat} (lengths : Fin n → Nat) (caching : Fin n → Bool)
    (before : List (Request n)) : List (Step n) → List (List Event)
  | [] => []
  | step :: rest =>
    Request.eventsOfAll lengths caching before (step.requests lengths)
      :: eventsOfAll lengths caching (before ++ step.requests lengths) rest

/-- Whether a step locates this offset in the text of this index, given the lengths of the texts. A
span's start is located also when its stop is not, and sorting locates what comes before the first
offset beyond the end. -/
def Step.Locates {n : Nat} (lengths : Fin n → Nat) (i : Fin n) (offset : Nat) : Step n → Prop
  | .locate j asked => j = i ∧ asked = offset ∧ offset ≤ lengths i
  | .locateSigned j asked => j = i ∧ asked = offset ∧ offset ≤ lengths i
  | .locateSpan j span =>
    j = i ∧ span.base ≤ lengths i ∧ offset ≤ lengths i
      ∧ (span.base = offset ∨ span.stop? = some offset)
  | .scan j first last => j = i ∧ first ≤ offset ∧ offset ≤ last ∧ offset ≤ lengths i
  | .compare j a k b => (j = i ∧ a = offset ∨ k = i ∧ b = offset) ∧ offset ≤ lengths i
  | .sort j offsets => j = i ∧ offset ∈ offsets.takeWhile fun asked => asked ≤ lengths i
  | .summarize _ | .lineStarts _ | .lineStart .. | .lineExtent .. | .lineExtents ..
  | .inspect .. => False

namespace Session

variable {n : Nat}

def lengths (session : Session n) (i : Fin n) : Nat := (session.get i).table.length

def caching (session : Session n) (i : Fin n) : Bool := (session.get i).settings.caching

def serve (session : Session n) : List (Request n) → List (Request n × List Event) × Session n
  | [] => ([], session)
  | request :: rest =>
    let outcome := request.perform.run session
    let later := serve outcome.state rest
    ((request, outcome.events) :: later.1, later.2)

end Session
end Lineation
