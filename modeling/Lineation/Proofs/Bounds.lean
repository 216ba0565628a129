import Lineation.Proofs.LineStarts

/-!
The work of an index, done with numbers that can run out.

In `Checked`, the same reading and the same lookups are carried out in steps that each have to
succeed: a sum has to stay below the greatest number, a difference must not fall below zero, an
entry of the line starts has to exist, and a location needs a line and a column of at least one.
Where any step fails, there is no result. That is something else than the rejection of an offset,
which is a result: a lookup of which a step fails returns `none`, and one that rejects its offset
fails with `OutOfRange`.

A text whose characters can be counted with signed numbers leaves room to spare: a line starts no
earlier than its number says (`le_start_of_getElem?`), so lines and columns are bounded by the
length of the text, and none of the steps fails. The checked work then has the results of the work
done with exact numbers (`Checked.Completes`).
-/

set_option autoImplicit false
set_option relaxedAutoImplicit false

namespace Lineation

/-! ## The checked work -/

namespace Checked

def subtract? (a b : Nat) : Option Nat := if b ≤ a then some (a - b) else none

/-- Read one character, if there is a number for the length after it. -/
def read? (reading : Reading) (c : Char) : Option Reading :=
  (addOffsets? reading.table.length 1).map fun _ => reading.read c

def table? (text : List Char) : Option LineTable :=
  (text.foldlM read? Reading.initial).map Reading.table

def line? {entries : Array Nat} {target : Nat} : Probe entries target → Option Nat
  | .hit index _ => some index
  | .gap index .. => subtract? index 1

def place? (table : LineTable) (offset : Nat) (probe : Probe table.starts offset) :
    Option Location := do
  let index ← line? probe
  let start ← table.starts[index]?
  let distance ← subtract? offset start
  let line ← addOffsets? index 1
  let column ← addOffsets? distance 1
  (Location.ofParts offset line column).toOption

/-- The start of a line, counted from one; a line without a start is an answer too. -/
def lineStart? (table : LineTable) (line : Nat) : Option (Option Nat) :=
  if line = 0 then some none else (subtract? line 1).map fun index => table.starts[index]?

def lineExtent? (table : LineTable) (line : Nat) : Option (Option Extent) :=
  (lineStart? table line).map fun found =>
    found.map fun start => ⟨start, table.starts[line]?.getD table.length⟩

def build? (settings : Settings) (text : String) : Option Index :=
  (table? text.toList).map (Index.ofTable settings)

/-- The location of an offset. Only a search has steps that can fail; what is remembered is returned
as it is. -/
def locate (offset : Nat) : OptionT (Lookup Index) Location := do
  let index ← OptionT.lift get
  match index.remembered? offset with
  | some location =>
    OptionT.lift (.report (.hit offset))
    return location
  | none =>
    if inside : offset ≤ index.table.length then
      let location ← OptionT.mk (pure (place? index.table offset (index.table.search offset)))
      OptionT.lift (set (index.remember offset inside))
      return location
    else
      OptionT.lift (.report (.beyond offset index.table.length))
      OptionT.lift (.fail (.ofOffset offset index.table.length))

def locateSigned (offset : Int) : OptionT (Lookup Index) Location :=
  if offset < 0 then OptionT.lift (Index.reject offset) else locate offset.toNat

def locateSpan (span : Span) : OptionT (Lookup Index) SpanLocation := do
  let start ← locate span.base
  match span.stop? with
  | some stop =>
    let stop ← locate stop
    return { start, stop }
  | none =>
    let index ← OptionT.lift get
    OptionT.lift (.fail ⟨maxSigned, index.table.length⟩)

end Checked

/-! ## The checked work completes -/

namespace LineTable

/-- The lines and the columns before a place are no more than the characters before it. -/
theorem line_add_column_place_le (table : LineTable) (offset : Nat) :
    ((table.place offset).line - 1) + ((table.place offset).column - 1) ≤ offset := by
  obtain ⟨index, start, here⟩ := table.exists_onLine offset
  have reached := here.start_le
  have counted := le_start_of_getElem? here.entry
  rw [place_eq_of_onLine here]
  dsimp only
  omega

end LineTable

namespace Checked

private theorem subtract?_of_le {a b : Nat} (ordered : b ≤ a) : subtract? a b = some (a - b) :=
  if_pos ordered

private theorem foldlM_read? {reading : Reading} {text : List Char}
    (fits : reading.table.length + text.length ≤ maxOffset) :
    text.foldlM read? reading = some (reading.readAll text) := by
  induction text generalizing reading with
  | nil => rfl
  | cons c rest ih =>
    rw [List.length_cons] at fits
    have room : reading.table.length + 1 ≤ maxOffset := by omega
    have first : read? reading c = some (reading.read c) := by
      rw [read?, addOffsets?_of_le room, Option.map_some]
    have later : (reading.read c).table.length + rest.length ≤ maxOffset := by
      rw [Reading.length_read]
      omega
    rw [List.foldlM_cons, first, Reading.readAll_cons]
    exact ih later

private theorem table?_eq_some {text : List Char} (fits : text.length ≤ maxOffset) :
    table? text = some (.ofChars text) := by
  have counted : Reading.initial.table.length + text.length ≤ maxOffset := by
    change 0 + text.length ≤ maxOffset
    omega
  rw [table?, foldlM_read? counted]
  rfl

private theorem line?_eq_some (table : LineTable) {offset : Nat}
    (probe : Probe table.starts offset) :
    line? probe = some (table.lineOf probe).val := by
  cases probe with
  | hit index found => rfl
  | gap index absent inside below above =>
    obtain ⟨bound, first⟩ := Array.getElem?_eq_some_iff.mp table.starts_zero
    have positive : 1 ≤ index := by
      rcases Nat.eq_zero_or_pos index with rfl | positive
      · have beyond := above 0 bound (Nat.le_refl _)
        omega
      · exact positive
    exact subtract?_of_le positive

private theorem place?_eq_some {table : LineTable} (short : table.length < maxOffset) {offset : Nat}
    (inside : offset ≤ table.length) (probe : Probe table.starts offset) :
    place? table offset probe = some (table.placeOf offset probe) := by
  have entry := Array.getElem?_eq_getElem (table.lineOf probe).isLt
  have here := table.onLine_lineOf probe entry
  have reached := here.start_le
  have counted := LineTable.le_start_of_getElem? here.entry
  have line : addOffsets? (table.lineOf probe).val 1 = some ((table.lineOf probe).val + 1) :=
    addOffsets?_of_le (by omega)
  have column := addOffsets?_of_le (a := offset - table.starts[(table.lineOf probe).val]) (b := 1)
    (by omega)
  have made := (Location.ofParts_eq_ok_iff _ _ _ (table.placeOf offset probe)).mpr ⟨rfl, rfl, rfl⟩
  simp only [place?, line?_eq_some, entry, subtract?_of_le reached, line, column,
    Option.bind_eq_bind, Option.bind_some]
  exact congrArg Except.toOption made

private theorem lineStart?_eq_some (table : LineTable) (line : Nat) :
    lineStart? table line = some (table.lineStart? line) := by
  cases line with
  | zero => rfl
  | succ index =>
    rw [lineStart?, if_neg (Nat.succ_ne_zero index), subtract?_of_le (Nat.succ_pos index)]
    rfl

private theorem lineExtent?_eq_some (table : LineTable) (line : Nat) :
    lineExtent? table line = some (table.lineExtent? line) := by
  rw [lineExtent?, lineStart?_eq_some]
  rfl

variable {α β : Type}

/-- The checked lookup completes, and does what the lookup does, whenever the index is over a text
whose length has a successor. -/
structure Completes (checked : OptionT (Lookup Index) α) (lookup : Lookup Index α) : Prop where
  run : ∀ index : Index, index.table.length < maxOffset →
    checked.run.run index = (some <$> lookup).run index

namespace Completes

theorem lift (lookup : Lookup Index α) : Completes (OptionT.lift lookup) lookup := by
  constructor
  intro index _
  rw [OptionT.run_lift]
  rfl

theorem pure (value : α) : Completes (Pure.pure value) (Pure.pure value) :=
  ⟨fun _ _ => rfl⟩

theorem bind {checked : OptionT (Lookup Index) α} {lookup : Lookup Index α}
    {next : α → OptionT (Lookup Index) β} {following : α → Lookup Index β}
    (completes : Completes checked lookup)
    (kept : ∀ index, (lookup.run index).state.table = index.table)
    (later : ∀ value, Completes (next value) (following value)) :
    Completes (checked >>= next) (lookup >>= following) := by
  constructor
  intro index short
  have first := completes.run index short
  have same := kept index
  rw [Lookup.run_map] at first ⊢
  rw [OptionT.run_bind, Option.elimM, Lookup.run_bind, first, Lookup.run_bind]
  rcases ran : lookup.run index with ⟨failure | value, middle, events⟩
  · rfl
  · rw [ran] at same
    have second := (later value).run middle (same ▸ short)
    rw [Lookup.run_map] at second
    simp only [Except.map, Option.elim_some]
    rw [second]
    rfl

theorem locate (offset : Nat) : Completes (Checked.locate offset) (Index.locate offset) := by
  constructor
  intro index short
  rw [Lookup.run_map]
  rcases index.run_locate_cases offset with
    ⟨location, known, ran⟩ | ⟨inside, fresh, ran⟩ | ⟨outside, fresh, ran⟩
  · rw [ran]
    simp [Checked.locate, known, Lookup.run_bind, Option.elimM, Except.map]
  · have placed := place?_eq_some short inside (index.table.search offset)
    rw [ran]
    simp [Checked.locate, fresh, inside, placed, LineTable.place, Lookup.run_bind, Option.elimM,
      Except.map]
  · rw [ran]
    simp [Checked.locate, fresh, Nat.not_le_of_lt outside, Lookup.run_bind, Option.elimM,
      Except.map]

theorem locateSigned (offset : Int) :
    Completes (Checked.locateSigned offset) (Index.locateSigned offset) := by
  unfold Checked.locateSigned Index.locateSigned
  by_cases negative : offset < 0
  · rw [if_pos negative, if_pos negative]
    exact lift (Index.reject offset)
  · rw [if_neg negative, if_neg negative]
    exact locate offset.toNat

theorem locateSpan (span : Span) :
    Completes (Checked.locateSpan span) (Index.locateSpan span) := by
  unfold Checked.locateSpan Index.locateSpan
  apply (locate span.base).bind fun index => index.table_locate span.base
  intro start
  cases span.stop? with
  | none =>
    apply (lift get).bind fun _ => rfl
    intro index
    exact lift _
  | some stop =>
    apply (locate stop).bind fun index => index.table_locate stop
    intro stop
    exact pure (SpanLocation.mk start stop)

end Completes
end Checked

theorem Index.line_add_column_le {index : Index} {offset : Nat} {location : Location}
    (located : ((locate offset).run index).result = .ok location) :
    (location.line - 1) + (location.column - 1) ≤ offset := by
  rw [(reads_locate offset).result index] at located
  obtain ⟨_, rfl⟩ := (index.table.locate_eq_ok_iff offset location).mp located
  exact index.table.line_add_column_place_le offset

/-- Over a text whose characters can be counted with signed numbers, whatever has been asked, no
step of building an index or of asking it anything fails: the checked work has the results of the
work with exact numbers. -/
theorem Session.checked_work_completes {n : Nat} (sources : Vector Source n)
    (steps : List (Step n)) (i : Fin n) (short : (sources.get i).text.length ≤ maxSigned) :
    let source := sources.get i
    let index := ((build sources).after steps).get i
    Checked.build? source.settings source.text = some (.build source.settings source.text) ∧
      (∀ (offset : Nat) (probe : Probe index.table.starts offset), offset ≤ index.table.length →
        Checked.place? index.table offset probe = some (index.table.placeOf offset probe)) ∧
      (∀ offset : Nat, (Checked.locate offset).run.run index =
        (some <$> Index.locate offset).run index) ∧
      (∀ offset : Int, (Checked.locateSigned offset).run.run index =
        (some <$> Index.locateSigned offset).run index) ∧
      (∀ span : Span, (Checked.locateSpan span).run.run index =
        (some <$> Index.locateSpan span).run index) ∧
      (∀ line, Checked.lineStart? index.table line = some (index.table.lineStart? line)) ∧
      (∀ line, Checked.lineExtent? index.table line = some (index.table.lineExtent? line)) ∧
      (∀ (offset : Nat) (location : Location),
        ((Index.locate offset).run index).result = .ok location →
          (location.line - 1) + (location.column - 1) ≤ offset) ∧
      (∀ (offset : Int) (location : Location),
        ((Index.locateSigned offset).run index).result = .ok location →
          (location.line - 1) + (location.column - 1) ≤ offset.toNat) ∧
      ∀ (span : Span) (found : SpanLocation),
        ((Index.locateSpan span).run index).result = .ok found →
          (found.start.line - 1) + (found.start.column - 1) ≤ span.base ∧
            (found.stop.line - 1) + (found.stop.column - 1) ≤ span.base + span.length := by
  intro source index
  have isTable : index.table = .ofString source.text := table_after_build sources steps i
  have counted : source.text.length < maxOffset := Nat.lt_of_le_of_lt short maxSigned_lt_maxOffset
  have room : index.table.length < maxOffset := by
    rw [isTable, LineTable.length_ofString]
    exact counted
  refine ⟨?_, ?_, ?_, ?_, ?_, ?_, ?_, ?_, ?_, ?_⟩
  · have fits : source.text.toList.length ≤ maxOffset := Nat.le_of_lt counted
    rw [Checked.build?, Checked.table?_eq_some fits]
    rfl
  · intro offset probe inside
    exact Checked.place?_eq_some room inside probe
  · intro offset
    exact (Checked.Completes.locate offset).run index room
  · intro offset
    exact (Checked.Completes.locateSigned offset).run index room
  · intro span
    exact (Checked.Completes.locateSpan span).run index room
  · intro line
    exact Checked.lineStart?_eq_some index.table line
  · intro line
    exact Checked.lineExtent?_eq_some index.table line
  · intro offset location located
    exact Index.line_add_column_le located
  · intro offset location located
    unfold Index.locateSigned at located
    by_cases negative : offset < 0
    · rw [if_pos negative] at located
      cases located
    · rw [if_neg negative] at located
      exact Index.line_add_column_le located
  · intro span found located
    rw [(Index.reads_locateSpan span).result index] at located
    obtain ⟨isStart, isStop⟩ := LineTable.locateSpan_eq_ok located
    rw [isStart, isStop]
    exact ⟨index.table.line_add_column_place_le _, index.table.line_add_column_place_le _⟩

/-- Two line breaks of different kinds, offsets and lines at the limits, and a span that has no
stop. -/
theorem Session.checked_work_completes_mixed_breaks :
    let sources : Vector Source 1 := #v[⟨.cached, "a\r\nb\r"⟩]
    let index := ((build sources).after [.locate 0 3, .locateSpan 0 ⟨2, maxOffset⟩]).get 0
    (sources.get 0).text.length ≤ maxSigned ∧
      Checked.build? .cached "a\r\nb\r" = some (.build .cached "a\r\nb\r") ∧
      (Checked.locate maxOffset).run.run index = (some <$> Index.locate maxOffset).run index ∧
      (Checked.locateSigned (-maxSigned - 1)).run.run index =
        (some <$> Index.locateSigned (-maxSigned - 1)).run index ∧
      (Checked.locateSpan ⟨1, maxOffset⟩).run.run index =
        (some <$> Index.locateSpan ⟨1, maxOffset⟩).run index ∧
      Checked.lineExtent? index.table maxOffset = some none := by
  intro sources index
  have short : (sources.get 0).text.length ≤ maxSigned := by decide
  obtain ⟨built, _, located, signed, spanned, _, lines, _⟩ :=
    checked_work_completes sources [.locate 0 3, .locateSpan 0 ⟨2, maxOffset⟩] 0 short
  have isTable : index.table = .ofString "a\r\nb\r" := table_after_build sources _ 0
  have absent : (LineTable.ofString "a\r\nb\r").lineExtent? maxOffset = none := by decide +kernel
  rw [← isTable] at absent
  exact ⟨short, built, located _, signed _, spanned _, (lines _).trans (congrArg some absent)⟩

end Lineation
