import Lineation.LineTable
import Lineation.Lookup
import Std.Data.ExtTreeMap

/-!
The index of a text: its line table, the choices it was built with, and, when caching, the locations
it has given out so far.

Whatever an index remembers is what a search would find again, so answers never depend on its
memory; the type keeps this fact, and that memory is there just when caching was chosen. Looking up
an offset consults the memory first, then searches, and remembers what it found. A rejected offset
is not remembered. Of several offsets looked up one after the other, `locateEach` notes those that
are out of range and goes on, and `locateAll` stops at the first.

An index describes itself in numbers and by showing its structure. Both descriptions tell whether
it has a memory, and the second shows just which offsets are remembered, in an order of the memory's
own (`Listing`). Nothing else that an index says depends on its memory.
-/

set_option autoImplicit false
set_option relaxedAutoImplicit false

namespace Lineation

structure Settings where
  caching : Bool
  deriving DecidableEq

namespace Settings

def plain : Settings := ⟨false⟩

def cached : Settings := ⟨true⟩

instance : Inhabited Settings := ⟨plain⟩

def withCaching (settings : Settings) (caching : Bool) : Settings := { settings with caching }

def inspect (settings : Settings) : String :=
  Inspection.record "Options" [("caching", Inspection.truth settings.caching)]

end Settings

/-! ## The index of a text -/

abbrev Memo := Std.ExtTreeMap Nat Location

structure Index where
  table : LineTable
  settings : Settings
  memo : Option Memo
  memo_isSome : memo.isSome = settings.caching
  memo_sound : ∀ cells, memo = some cells → ∀ (offset : Nat) (location : Location),
    cells[offset]? = some location → offset ≤ table.length ∧ location = table.place offset

namespace Index

def ofTable (settings : Settings) (table : LineTable) : Index where
  table := table
  settings := settings
  memo := if settings.caching then some ∅ else none
  memo_isSome := by cases settings.caching <;> rfl
  memo_sound cells isMemo offset location found := by
    split at isMemo
    · obtain rfl := Option.some.inj isMemo
      simp at found
    · cases isMemo

def build (settings : Settings) (text : String) : Index := ofTable settings (.ofString text)

def plain (text : String) : Index := build .plain text

def cached (text : String) : Index := build .cached text

/-- Build the index of a text and report it. -/
def construct (settings : Settings) (text : String) : Lookup Unit Index := do
  let table := LineTable.ofString text
  .report (.built table.length table.lineCount settings.caching)
  return ofTable settings table

def builtEvent (index : Index) : Event :=
  .built index.table.length index.table.lineCount index.settings.caching

def remembered? (index : Index) (offset : Nat) : Option Location :=
  index.memo.bind fun cells => cells[offset]?

def remember (index : Index) (offset : Nat) (inside : offset ≤ index.table.length) : Index where
  table := index.table
  settings := index.settings
  memo := index.memo.map fun cells => cells.insert offset (index.table.place offset)
  memo_isSome := by rw [Option.isSome_map, index.memo_isSome]
  memo_sound cells isMemo key location found := by
    obtain ⟨before, isBefore, rfl⟩ := Option.map_eq_some_iff.mp isMemo
    rw [Std.ExtTreeMap.getElem?_insert] at found
    split at found
    · next same =>
      obtain rfl : offset = key := Std.LawfulEqCmp.eq_of_compare same
      exact ⟨inside, (Option.some.inj found).symm⟩
    · exact index.memo_sound before isBefore key location found

/-- The location of an offset. The offset just past the last character has one too. -/
def locate (offset : Nat) : Lookup Index Location := do
  let index ← get
  match index.remembered? offset with
  | some location =>
    .report (.hit offset)
    return location
  | none =>
    if inside : offset ≤ index.table.length then
      set (index.remember offset inside)
      return index.table.place offset
    else
      .report (.beyond offset index.table.length)
      .fail (.ofOffset offset index.table.length)

def reject (offset : Int) : Lookup Index Location := do
  let index ← get
  .report (.negative offset index.table.length)
  .fail ⟨offset, index.table.length⟩

def locateSigned (offset : Int) : Lookup Index Location :=
  if offset < 0 then reject offset else locate offset.toNat

/-- The locations of the start and the stop of a span. The start is looked up before it is known
whether the span has a stop; one without is rejected with the greatest signed offset. -/
def locateSpan (span : Span) : Lookup Index SpanLocation := do
  let start ← locate span.base
  match span.stop? with
  | some stop =>
    let stop ← locate stop
    return { start, stop }
  | none =>
    let index ← get
    .fail ⟨maxSigned, index.table.length⟩

def isCaching (index : Index) : Bool := index.memo.isSome

theorem exists_memo {index : Index} (caching : index.settings.caching = true) :
    ∃ cells, index.memo = some cells :=
  Option.isSome_iff_exists.mp (index.memo_isSome.trans caching)

theorem memo_eq_none {index : Index} (plain : index.settings.caching = false) :
    index.memo = none := by
  have absent : index.memo.isSome = false := index.memo_isSome.trans plain
  rwa [Option.isSome_eq_false_iff, Option.isNone_iff_eq_none] at absent

theorem remembered?_sound (index : Index) {offset : Nat} {location : Location}
    (known : index.remembered? offset = some location) :
    offset ≤ index.table.length ∧ location = index.table.place offset := by
  obtain ⟨cells, isMemo, found⟩ := Option.bind_eq_some_iff.mp known
  exact index.memo_sound cells isMemo offset location found

theorem run_construct (settings : Settings) (text : String) :
    (construct settings text).run () =
      ⟨.ok (build settings text), (), [(build settings text).builtEvent]⟩ := rfl

@[simp] theorem table_build (settings : Settings) (text : String) :
    (build settings text).table = .ofString text := rfl

theorem memo_build (settings : Settings) (text : String) :
    (build settings text).memo = if settings.caching then some ∅ else none := rfl

@[simp] theorem table_remember (index : Index) (offset : Nat)
    (inside : offset ≤ index.table.length) :
    (index.remember offset inside).table = index.table := rfl

@[simp] theorem settings_remember (index : Index) (offset : Nat)
    (inside : offset ≤ index.table.length) :
    (index.remember offset inside).settings = index.settings := rfl

private theorem run_locate_of_remembered {index : Index} {offset : Nat} {location : Location}
    (known : index.remembered? offset = some location) :
    (locate offset).run index = ⟨.ok location, index, [.hit offset]⟩ := by
  simp [locate, Lookup.run_bind, known, Except.map]

private theorem run_locate_of_le {index : Index} {offset : Nat}
    (fresh : index.remembered? offset = none) (inside : offset ≤ index.table.length) :
    (locate offset).run index =
      ⟨.ok (index.table.place offset), index.remember offset inside, []⟩ := by
  simp [locate, Lookup.run_bind, fresh, inside, Except.map]

private theorem run_locate_of_lt {index : Index} {offset : Nat}
    (outside : index.table.length < offset) :
    (locate offset).run index =
      ⟨.error (.ofOffset offset index.table.length), index,
        [.beyond offset index.table.length]⟩ := by
  have fresh : index.remembered? offset = none := by
    cases known : index.remembered? offset with
    | none => rfl
    | some location =>
      have inside := (index.remembered?_sound known).1
      omega
  simp [locate, Lookup.run_bind, fresh, Nat.not_le.mpr outside]

@[simp] theorem run_reject (index : Index) (offset : Int) :
    (reject offset).run index =
      ⟨.error ⟨offset, index.table.length⟩, index, [.negative offset index.table.length]⟩ := rfl

theorem run_locate_cases (index : Index) (offset : Nat) :
    (∃ location, index.remembered? offset = some location ∧
      (locate offset).run index = ⟨.ok location, index, [.hit offset]⟩) ∨
    (∃ inside : offset ≤ index.table.length, index.remembered? offset = none ∧
      (locate offset).run index =
        ⟨.ok (index.table.place offset), index.remember offset inside, []⟩) ∨
    (index.table.length < offset ∧ index.remembered? offset = none ∧
      (locate offset).run index =
        ⟨.error (.ofOffset offset index.table.length), index,
          [.beyond offset index.table.length]⟩) := by
  cases known : index.remembered? offset with
  | some location => exact Or.inl ⟨location, rfl, run_locate_of_remembered known⟩
  | none =>
    rcases Nat.lt_or_ge index.table.length offset with outside | inside
    · exact Or.inr (Or.inr ⟨outside, rfl, run_locate_of_lt outside⟩)
    · exact Or.inr (Or.inl ⟨inside, rfl, run_locate_of_le known inside⟩)

theorem result_locate (index : Index) (offset : Nat) :
    ((locate offset).run index).result =
      if offset ≤ index.table.length then .ok (index.table.place offset)
      else .error (.ofOffset offset index.table.length) := by
  rcases index.run_locate_cases offset with
    ⟨location, known, ran⟩ | ⟨inside, _, ran⟩ | ⟨outside, _, ran⟩
  · obtain ⟨inside, rfl⟩ := index.remembered?_sound known
    rw [ran, if_pos inside]
  · rw [ran, if_pos inside]
  · rw [ran, if_neg (Nat.not_le_of_lt outside)]

theorem table_locate (index : Index) (offset : Nat) :
    ((locate offset).run index).state.table = index.table := by
  rcases index.run_locate_cases offset with ⟨_, _, ran⟩ | ⟨inside, _, ran⟩ | ⟨_, _, ran⟩
  · rw [ran]
  · rw [ran, table_remember]
  · rw [ran]

theorem settings_locate (index : Index) (offset : Nat) :
    ((locate offset).run index).state.settings = index.settings := by
  rcases index.run_locate_cases offset with ⟨_, _, ran⟩ | ⟨inside, _, ran⟩ | ⟨_, _, ran⟩
  · rw [ran]
  · rw [ran, settings_remember]
  · rw [ran]

end Index

/-! ## Several offsets -/

/-- The numbers from `first` to `last`, both included. -/
def interval (first last : Nat) : List Nat := List.range' first (last + 1 - first)

namespace Index

def locateEach (offsets : List Nat) : Lookup Index (List (Except OutOfRange Location)) :=
  offsets.mapM fun offset => (locate offset).attempt

def locateAll (offsets : List Nat) : Lookup Index (List Location) := offsets.mapM locate

def consult {α : Type} (question : Index → α) : Lookup Index α := do
  return question (← get)

end Index

/-! ## Descriptions -/

/-- A way to list what is remembered: each entry once, in any order. A hash map has an order of its
own, which also another map with the same entries need not have. -/
structure Listing where
  entries : Memo → List (Nat × Location)
  perm : ∀ cells, (entries cells).Perm cells.toList

namespace Listing

def ascending : Listing where
  entries cells := cells.toList
  perm _ := .refl _

end Listing

structure Summary where
  length : Nat
  isEmpty : Bool
  lineCount : Nat
  isCaching : Bool
  settings : Settings
  deriving DecidableEq

namespace Index

def summary (index : Index) : Summary where
  length := index.table.length
  isEmpty := index.table.isEmpty
  lineCount := index.table.lineCount
  isCaching := index.isCaching
  settings := index.settings

def inspectMemo (listing : Listing) : Option Memo → String
  | none => "None"
  | some cells =>
    let entries := (listing.entries cells).map fun cell => (toString cell.1, cell.2.inspect)
    Inspection.wrapped "Some" (Inspection.record "Mutex" [("data", Inspection.mapping entries)])

def inspect (index : Index) (listing : Listing) : String :=
  Inspection.record "LocationIndex"
    [("len", toString index.table.length),
      ("line_starts", Inspection.sequence (index.table.starts.toList.map toString)),
      ("options", index.settings.inspect), ("cache", inspectMemo listing index.memo)]

end Index
end Lineation
