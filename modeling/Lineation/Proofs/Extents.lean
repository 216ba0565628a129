import Lineation.Proofs.LineStarts
import Mathlib.Data.List.Basic

/-!
Which offsets a line holds, and which characters.

The extents of the lines tile the text: the first starts at zero, each other one starts where the
one before stops, and the last stops at the end (`tiles_extents`). An offset therefore lies in the
extent of one line, unless it is the end of the text, which belongs to the last line although no
extent holds it. That line is the one on which a search finds the offset (`OnLine.mem_extent_or`,
`onLine_of_lineExtent?`), so looking up an offset and reading the line table undo each other.

A text has one division into lines. Where its first line ends is determined by the text: the content
reaches to the first break, and a carriage return takes the line feed after it into its terminator,
since otherwise the next line would start with it (`IsDivision.cases`, `IsDivision.unique`). The
extents of the line table cut the text just there, because between two neighbouring line starts no
other line ends (`isDivision_lines`).
-/

set_option autoImplicit false
set_option relaxedAutoImplicit false

namespace Lineation

private theorem getElem?_filterMap_of_isSome {α β : Type} {f : α → Option β} {items : List α}
    (all : ∀ item ∈ items, (f item).isSome = true) (i : Nat) :
    (items.filterMap f)[i]? = items[i]?.bind f := by
  induction items generalizing i with
  | nil => rfl
  | cons item rest ih =>
    obtain ⟨value, isValue⟩ := Option.isSome_iff_exists.mp (all item List.mem_cons_self)
    have later := ih fun other member => all other (List.mem_cons_of_mem item member)
    rw [List.filterMap_cons_some isValue]
    cases i with
    | zero => simp [isValue]
    | succ i => simpa using later i

namespace Extent

instance : Membership Nat Extent :=
  ⟨fun extent offset => extent.start ≤ offset ∧ offset < extent.stop⟩

/-- The extents follow one another without a gap or an overlap, from one offset to another. -/
def Tiles : Nat → List Extent → Nat → Prop
  | first, [], last => first = last
  | first, extent :: rest, last =>
    extent.start = first ∧ extent.start ≤ extent.stop ∧ Tiles extent.stop rest last

theorem Tiles.le {first last : Nat} {extents : List Extent} (tiles : Tiles first extents last) :
    first ≤ last := by
  induction extents generalizing first with
  | nil => exact Nat.le_of_eq tiles
  | cons extent rest ih =>
    obtain ⟨rfl, ordered, later⟩ := tiles
    exact Nat.le_trans ordered (ih later)

private theorem extract_append_extract (text : List Char) {a b c : Nat} (first : a ≤ b)
    (second : b ≤ c) :
    text.extract a b ++ text.extract b c = text.extract a c := by
  have whole : c - a = (b - a) + (c - b) := by omega
  have middle : a + (b - a) = b := by omega
  rw [List.extract_eq_take_drop, List.extract_eq_take_drop, List.extract_eq_take_drop, whole,
    List.take_add, List.drop_drop, middle]

theorem Tiles.flatten_slices {first last : Nat} {extents : List Extent}
    (tiles : Tiles first extents last) (text : List Char) :
    (extents.map (slice · text)).flatten = text.extract first last := by
  induction extents generalizing first with
  | nil =>
    obtain rfl : first = last := tiles
    simp
  | cons extent rest ih =>
    obtain ⟨rfl, ordered, later⟩ := tiles
    rw [List.map_cons, List.flatten_cons, ih later]
    exact extract_append_extract text ordered later.le

end Extent

namespace LineTable

variable {table : LineTable} {offset index start : Nat}

private theorem lineExtent?_of_getElem? (entry : table.starts[index]? = some start) :
    table.lineExtent? (index + 1) =
      some ⟨start, table.starts[index + 1]?.getD table.length⟩ := by
  simp only [lineExtent?, lineStart?, entry, Option.map_some]

theorem lineExtent?_eq_some_iff (table : LineTable) (line : Nat) (extent : Extent) :
    table.lineExtent? line = some extent ↔
      table.lineStart? line = some extent.start ∧
        extent.stop = table.starts[line]?.getD table.length := by
  obtain ⟨start, stop⟩ := extent
  simp only [lineExtent?, Option.map_eq_some_iff, Extent.mk.injEq]
  constructor
  · rintro ⟨_, entry, rfl, rfl⟩
    exact ⟨entry, rfl⟩
  · rintro ⟨entry, rfl⟩
    exact ⟨start, entry, rfl, rfl⟩

private theorem lineStart?_of_lineExtent? {line : Nat} {extent : Extent}
    (isExtent : table.lineExtent? line = some extent) :
    table.lineStart? line = some extent.start :=
  ((table.lineExtent?_eq_some_iff line extent).mp isExtent).1

private theorem stop_of_lineExtent? {line : Nat} {extent : Extent}
    (isExtent : table.lineExtent? line = some extent) :
    extent.stop = table.starts[line]?.getD table.length :=
  ((table.lineExtent?_eq_some_iff line extent).mp isExtent).2

theorem isSome_lineExtent?_iff (table : LineTable) (line : Nat) :
    (table.lineExtent? line).isSome = true ↔ 1 ≤ line ∧ line ≤ table.lineCount := by
  cases line with
  | zero => simp [lineExtent?, lineStart?]
  | succ index =>
    simp only [lineExtent?, lineStart?, lineCount, Option.isSome_map, isSome_getElem?]
    omega

def extents (table : LineTable) : List Extent :=
  (List.range' 1 table.lineCount).filterMap table.lineExtent?

private theorem isSome_lineExtent?_of_mem (table : LineTable) :
    ∀ line ∈ List.range' 1 table.lineCount, (table.lineExtent? line).isSome = true := by
  intro line member
  rw [List.mem_range'_1] at member
  rw [isSome_lineExtent?_iff]
  omega

@[simp] theorem length_extents (table : LineTable) : table.extents.length = table.lineCount := by
  rw [extents, List.length_filterMap_eq_countP,
    List.countP_eq_length.mpr table.isSome_lineExtent?_of_mem, List.length_range']

theorem getElem?_extents (table : LineTable) (index : Nat) :
    table.extents[index]? = table.lineExtent? (index + 1) := by
  rw [extents, getElem?_filterMap_of_isSome table.isSome_lineExtent?_of_mem]
  by_cases bound : index < table.lineCount
  · rw [List.getElem?_range' bound, Option.bind_some, Nat.one_mul, Nat.add_comm]
  · have beyond : ¬ (table.lineExtent? (index + 1)).isSome = true := by
      rw [isSome_lineExtent?_iff]
      omega
    rw [List.getElem?_eq_none (by simpa using bound), Option.bind_none]
    exact (Option.not_isSome_iff_eq_none.mp beyond).symm

private theorem drop_extents (entry : table.starts[index]? = some start) :
    table.extents.drop index =
      ⟨start, table.starts[index + 1]?.getD table.length⟩ :: table.extents.drop (index + 1) := by
  rw [List.drop_eq_getElem?_toList_append, getElem?_extents, lineExtent?_of_getElem? entry]
  rfl

private theorem le_length_of_getElem? (entry : table.starts[index]? = some start) :
    start ≤ table.length :=
  table.starts_le start ((table.mem_starts_iff_getElem? start).mpr ⟨index, entry⟩)

private theorem stop_le_length {line : Nat} {extent : Extent}
    (isExtent : table.lineExtent? line = some extent) : extent.stop ≤ table.length := by
  rw [stop_of_lineExtent? isExtent]
  cases next : table.starts[line]? with
  | none => exact Nat.le_refl _
  | some stop => exact le_length_of_getElem? next

private theorem getElem?_starts_of_lt {extent : Extent}
    (isExtent : table.lineExtent? (index + 1) = some extent)
    (followed : index + 1 < table.lineCount) :
    table.starts[index + 1]? = some extent.stop := by
  have stops := stop_of_lineExtent? isExtent
  have next := Array.getElem?_eq_getElem followed
  rw [next, Option.getD_some] at stops
  rw [next, stops]

private theorem stop_of_last {extent : Extent}
    (isExtent : table.lineExtent? (index + 1) = some extent)
    (isLast : index + 1 = table.lineCount) : extent.stop = table.length := by
  have stops := stop_of_lineExtent? isExtent
  have beyond : table.starts[index + 1]? = none :=
    Array.getElem?_eq_none_iff.mpr (Nat.le_of_eq isLast.symm)
  rw [stops, beyond, Option.getD_none]

private theorem tiles_drop_extents (entry : table.starts[index]? = some start) :
    Extent.Tiles start (table.extents.drop index) table.length := by
  induction remaining : table.extents.drop index generalizing index start with
  | nil =>
    rw [drop_extents entry] at remaining
    cases remaining
  | cons extent rest ih =>
    rw [drop_extents entry] at remaining
    obtain ⟨rfl, later⟩ := List.cons.inj remaining
    cases next : table.starts[index + 1]? with
    | some stop =>
      have ordered := start_lt_start_of_getElem? entry next (Nat.lt_succ_self index)
      exact ⟨rfl, Nat.le_of_lt ordered, ih next later⟩
    | none =>
      -- No line follows, so the extent reaches to the end and nothing remains.
      have empty : rest = [] := by
        rw [← later]
        exact List.drop_eq_nil_of_le (table.length_extents ▸ Array.getElem?_eq_none_iff.mp next)
      subst empty
      exact ⟨rfl, le_length_of_getElem? entry, rfl⟩

theorem tiles_extents (table : LineTable) : Extent.Tiles 0 table.extents table.length :=
  tiles_drop_extents table.starts_zero

/-! ## An offset lies in the extent of its line -/

private theorem OnLine.next_or_last (here : table.OnLine offset index start) :
    (∃ next, table.starts[index + 1]? = some next ∧ offset < next) ∨
      table.starts[index + 1]? = none ∧ index + 1 = table.lineCount := by
  cases next : table.starts[index + 1]? with
  | some stop => exact Or.inl ⟨stop, rfl, here.lt_next stop next⟩
  | none =>
    have bound := (Array.getElem?_eq_some_iff.mp here.entry).1
    have beyond := Array.getElem?_eq_none_iff.mp next
    exact Or.inr ⟨rfl, Nat.le_antisymm bound beyond⟩

private theorem OnLine.mem_extent_or (here : table.OnLine offset index start)
    (inside : offset ≤ table.length) :
    offset ∈ (⟨start, table.starts[index + 1]?.getD table.length⟩ : Extent) ∨
      offset = table.length ∧ index + 1 = table.lineCount := by
  have reached := here.start_le
  rcases here.next_or_last with ⟨next, entry, before⟩ | ⟨none, isLast⟩
  · rw [entry]
    exact Or.inl ⟨reached, before⟩
  · rw [none]
    rcases Nat.lt_or_eq_of_le inside with before | atEnd
    · exact Or.inl ⟨reached, before⟩
    · exact Or.inr ⟨atEnd, isLast⟩

/-- What lies in the extent of a line is on it, and so is all that follows the last line's start. -/
private theorem onLine_of_lineExtent? {extent : Extent}
    (isExtent : table.lineExtent? (index + 1) = some extent)
    (held : offset ∈ extent ∨ index + 1 = table.lineCount ∧ extent.start ≤ offset) :
    table.OnLine offset index extent.start := by
  refine ⟨lineStart?_of_lineExtent? isExtent, ?_, ?_⟩
  · rcases held with ⟨reached, _⟩ | ⟨_, reached⟩
    · exact reached
    · exact reached
  · intro next nextEntry
    rcases held with ⟨_, before⟩ | ⟨isLast, _⟩
    · have stops := stop_of_lineExtent? isExtent
      rw [nextEntry, Option.getD_some] at stops
      omega
    · have bound := (Array.getElem?_eq_some_iff.mp nextEntry).1
      rw [isLast] at bound
      exact absurd bound (Nat.lt_irrefl _)

theorem exists_extent_of_place (inside : offset ≤ table.length) :
    ∃ extent, table.lineStart? (table.place offset).line = some extent.start ∧
      table.lineExtent? (table.place offset).line = some extent ∧
      extent.start + (table.place offset).column - 1 = offset ∧
      (offset ∈ extent ∨
        offset = table.length ∧ (table.place offset).line = table.lineCount) := by
  obtain ⟨index, start, here⟩ := table.exists_onLine offset
  have reached := here.start_le
  rw [place_eq_of_onLine here]
  refine ⟨⟨start, _⟩, here.entry, lineExtent?_of_getElem? here.entry, ?_,
    here.mem_extent_or inside⟩
  dsimp only
  omega

theorem place_of_lineExtent? {line column : Nat} {extent : Extent}
    (isExtent : table.lineExtent? line = some extent) (column_pos : 1 ≤ column)
    (leads : offset = extent.start + column - 1)
    (held : offset ∈ extent ∨ line = table.lineCount ∧ offset ≤ table.length) :
    (table.place offset).line = line ∧ (table.place offset).column = column := by
  cases line with
  | zero => cases isExtent
  | succ index =>
    have here : table.OnLine offset index extent.start := by
      apply onLine_of_lineExtent? isExtent
      rcases held with within | ⟨isLast, _⟩
      · exact Or.inl within
      · exact Or.inr ⟨isLast, by omega⟩
    rw [place_eq_of_onLine here]
    refine ⟨rfl, ?_⟩
    dsimp only
    omega

theorem column_place_eq_one_iff (table : LineTable) (offset : Nat) :
    (table.place offset).column = 1 ↔ offset ∈ table.starts.toList := by
  obtain ⟨index, start, here⟩ := table.exists_onLine offset
  have reached := here.start_le
  rw [here.mem_starts_iff, place_eq_of_onLine here]
  dsimp only
  omega

private theorem line_place_le (table : LineTable) (offset : Nat) :
    (table.place offset).line ≤ table.lineCount := by
  obtain ⟨index, start, here⟩ := table.exists_onLine offset
  rw [place_eq_of_onLine here]
  exact (Array.getElem?_eq_some_iff.mp here.entry).1

theorem line_place_length (table : LineTable) :
    (table.place table.length).line = table.lineCount := by
  obtain ⟨index, start, here⟩ := table.exists_onLine table.length
  rw [place_eq_of_onLine here]
  rcases here.next_or_last with ⟨next, entry, beyond⟩ | ⟨_, isLast⟩
  · have inside := le_length_of_getElem? entry
    omega
  · exact isLast

end LineTable

theorem Index.result_locate_of_le {index : Index} {offset : Nat}
    (inside : offset ≤ index.table.length) :
    ((locate offset).run index).result = .ok (index.table.place offset) :=
  (index.result_locate offset).trans (if_pos inside)

/-- Whatever has been asked, looking up an offset and reading the line table undo each other: an
offset is as many columns into its line as its location says, and each line and column within a line
are those that its offset is located at. -/
theorem Session.locate_inverse_of_lines {n : Nat} (sources : Vector Source n)
    (steps : List (Step n)) (i : Fin n) :
    let index := ((build sources).after steps).get i
    let table := index.table
    (∀ offset ≤ table.length, ∃ (location : Location) (extent : Extent),
      ((Index.locate offset).run index).result = .ok location ∧ location.offset = offset ∧
        1 ≤ location.line ∧ location.line ≤ table.lineCount ∧ 1 ≤ location.column ∧
        table.lineStart? location.line = some extent.start ∧
        table.lineExtent? location.line = some extent ∧
        extent.start + location.column - 1 = offset ∧
        (offset ∈ extent ∨ offset = table.length ∧ location.line = table.lineCount)) ∧
    (∀ line, 1 ≤ line → line ≤ table.lineCount → ∃ extent : Extent,
      table.lineStart? line = some extent.start ∧ table.lineExtent? line = some extent ∧
        ∀ offset column, 1 ≤ column → offset = extent.start + column - 1 →
          (offset ∈ extent ∨ line = table.lineCount ∧ offset ≤ table.length) →
            ∃ location : Location, ((Index.locate offset).run index).result = .ok location ∧
              location.offset = offset ∧ location.line = line ∧ location.column = column) ∧
    (∀ offset ≤ table.length, offset ∈ table.starts.toList ↔
      ∃ location : Location, ((Index.locate offset).run index).result = .ok location ∧
        location.column = 1) ∧
    ∃ location : Location, ((Index.locate table.length).run index).result = .ok location ∧
      location.line = table.lineCount := by
  intro index table
  refine ⟨?_, ?_, ?_, ?_⟩
  · intro offset inside
    obtain ⟨extent, starts, isExtent, leads, held⟩ := LineTable.exists_extent_of_place inside
    refine ⟨table.place offset, extent, Index.result_locate_of_le inside, rfl,
      Location.line_pos _, table.line_place_le offset, Location.column_pos _, starts, isExtent,
      leads, held⟩
  · intro line line_pos line_le
    obtain ⟨extent, isExtent⟩ := Option.isSome_iff_exists.mp
      ((table.isSome_lineExtent?_iff line).mpr ⟨line_pos, line_le⟩)
    refine ⟨extent, LineTable.lineStart?_of_lineExtent? isExtent, isExtent, ?_⟩
    intro offset column column_pos leads held
    have inside : offset ≤ table.length := by
      rcases held with ⟨_, before⟩ | ⟨_, inside⟩
      · exact Nat.le_trans (Nat.le_of_lt before) (LineTable.stop_le_length isExtent)
      · exact inside
    have placed := LineTable.place_of_lineExtent? isExtent column_pos leads held
    exact ⟨table.place offset, Index.result_locate_of_le inside, rfl, placed⟩
  · intro offset inside
    rw [← table.column_place_eq_one_iff]
    constructor
    · intro first
      exact ⟨table.place offset, Index.result_locate_of_le inside, first⟩
    · rintro ⟨location, located, first⟩
      have same := Except.ok.inj (located.symm.trans (Index.result_locate_of_le inside))
      rw [same] at first
      exact first
  · exact ⟨table.place table.length, Index.result_locate_of_le (Nat.le_refl _),
      table.line_place_length⟩

/-! ## The lines that a table cuts a text into are its lines -/

private theorem Terminator.chars_ne_nil (terminator : Terminator) : terminator.chars ≠ [] := by
  cases terminator <;> exact List.cons_ne_nil _ _

private theorem IsTerminated.ne_nil {line : List Char} (terminated : IsTerminated line) :
    line ≠ [] := by
  obtain ⟨content, terminator, _, rfl⟩ := terminated
  exact List.append_ne_nil_of_right_ne_nil content terminator.chars_ne_nil

private theorem lineContent_append {content : List Char} (unbroken : Unbroken content)
    (terminator : Terminator) (after : List Char) :
    lineContent (content ++ (terminator.chars ++ after)) = content := by
  have inside : ∀ c ∈ content, decide (c ≠ '\r' ∧ c ≠ '\n') = true := by
    intro c member
    apply decide_eq_true
    exact ⟨fun ret => unbroken.1 (ret ▸ member), fun feed => unbroken.2 (feed ▸ member)⟩
  rw [lineContent, List.takeWhile_append_of_pos inside]
  cases terminator <;> simp [Terminator.chars]

theorem lineContent_terminated {content : List Char} (unbroken : Unbroken content)
    (terminator : Terminator) : lineContent (content ++ terminator.chars) = content := by
  have alone := lineContent_append unbroken terminator []
  rwa [List.append_nil] at alone

private theorem not_unbroken_append (content : List Char) (terminator : Terminator)
    (after : List Char) : ¬ Unbroken (content ++ (terminator.chars ++ after)) := by
  rintro ⟨noReturn, noFeed⟩
  cases terminator with
  | carriageReturn => exact noReturn (by simp [Terminator.chars])
  | lineFeed => exact noFeed (by simp [Terminator.chars])
  | returnFeed => exact noReturn (by simp [Terminator.chars])

/-- The terminator at the front of a text and what follows it. A carriage return takes a line feed
with it. -/
def Terminator.take? : List Char → Option (Terminator × List Char)
  | '\r' :: '\n' :: after => some (.returnFeed, after)
  | '\r' :: after => some (.carriageReturn, after)
  | '\n' :: after => some (.lineFeed, after)
  | _ => none

private theorem Terminator.take?_chars_append {terminator : Terminator} {after : List Char}
    (whole : terminator = .carriageReturn → after.head? ≠ some '\n') :
    take? (terminator.chars ++ after) = some (terminator, after) := by
  cases terminator with
  | carriageReturn =>
    have apart := whole rfl
    cases after with
    | nil => rfl
    | cons c rest =>
      have other : c ≠ '\n' := fun feed => apart (congrArg some feed)
      simp [chars, take?, other]
  | lineFeed => rfl
  | returnFeed => rfl

/-- A division of a text is the text itself when no line ends in it, and otherwise a first line and
a division of what follows. -/
theorem IsDivision.cases {text : List Char} {lines : List (List Char)}
    (division : IsDivision text lines) :
    (Unbroken text ∧ lines = [text]) ∨
      ∃ (content : List Char) (terminator : Terminator) (after : List Char)
        (rest : List (List Char)),
        Unbroken content ∧ text = content ++ (terminator.chars ++ after) ∧
          (terminator = .carriageReturn → after.head? ≠ some '\n') ∧
          lines = (content ++ terminator.chars) :: rest ∧ IsDivision after rest := by
  obtain ⟨rfl, terminated, ⟨last, isLast, unbroken⟩, whole⟩ := division
  rcases lines with _ | ⟨line, _ | ⟨next, others⟩⟩
  · cases isLast
  · obtain rfl : line = last := by simpa using isLast
    exact Or.inl ⟨by simpa using unbroken, by simp⟩
  · right
    obtain ⟨content, terminator, clear, rfl⟩ := terminated line (by simp)
    have later : ∀ other ∈ (next :: others).dropLast, IsTerminated other := by
      intro other member
      exact terminated other (List.mem_cons_of_mem _ member)
    refine ⟨content, terminator, (next :: others).flatten, next :: others, clear, ?_, ?_, rfl,
      ⟨rfl, later, ⟨last, isLast, unbroken⟩, ?_⟩⟩
    · rw [List.flatten_cons, List.append_assoc]
    · rintro rfl feed
      -- The line feed that follows is the first character of the next line.
      have opens : next.head? = some '\n' := by
        rcases others with _ | ⟨other, more⟩
        · simpa using feed
        · have nonempty := (later next (by simp)).ne_nil
          rwa [List.flatten_cons, List.head?_append_of_ne_nil _ nonempty] at feed
      exact whole 0 _ next rfl rfl (by simp [Terminator.chars]) opens
    · intro i first second
      exact whole (i + 1) first second

theorem IsDivision.exists_rest {content after : List Char} {terminator : Terminator}
    {lines : List (List Char)} (clear : Unbroken content)
    (whole : terminator = .carriageReturn → after.head? ≠ some '\n')
    (division : IsDivision (content ++ (terminator.chars ++ after)) lines) :
    ∃ rest, lines = (content ++ terminator.chars) :: rest ∧ IsDivision after rest := by
  rcases division.cases with
    ⟨unbroken, _⟩ | ⟨content', terminator', after', rest, clear', same, whole', rfl, later⟩
  · exact absurd unbroken (not_unbroken_append content terminator after)
  · have sameContent : content = content' := by
      rw [← lineContent_append clear terminator after, same,
        lineContent_append clear' terminator' after']
    subst sameContent
    have taken := Terminator.take?_chars_append whole
    rw [List.append_cancel_left same, Terminator.take?_chars_append whole'] at taken
    obtain ⟨rfl, rfl⟩ := Prod.mk.inj (Option.some.inj taken)
    exact ⟨rest, rfl, later⟩

/-- A text has at most one division. -/
theorem IsDivision.unique {text : List Char} {first second : List (List Char)}
    (one : IsDivision text first) (two : IsDivision text second) : first = second := by
  induction first generalizing text second with
  | nil =>
    obtain ⟨_, isLast, _⟩ := one.last
    cases isLast
  | cons line rest ih =>
    rcases one.cases with
      ⟨unbroken, single⟩ | ⟨content, terminator, after, _, clear, rfl, whole, split, later⟩
    · rcases two.cases with ⟨_, other⟩ | ⟨content, terminator, after, _, _, rfl, _⟩
      · rw [single, other]
      · exact absurd unbroken (not_unbroken_append content terminator after)
    · obtain ⟨rfl, rfl⟩ := List.cons.inj split
      obtain ⟨others, rfl, following⟩ := two.exists_rest clear whole
      rw [ih later following]

/-! ### A part of a text in which no line ends before its last character -/

private theorem not_isPairedFeed_of_return {text : List Char} {p : Nat}
    (ret : text[p]? = some '\r') : ¬ IsPairedFeed text p := by
  cases p with
  | zero => exact id
  | succ before =>
    rintro ⟨_, feed⟩
    rw [ret] at feed
    cases feed

theorem LineEndsAt.not_isPairedFeed {text : List Char} {p : Nat} (ends : LineEndsAt text p) :
    ¬ IsPairedFeed text p := by
  cases p with
  | zero => exact id
  | succ before =>
    rintro ⟨ret, feed⟩
    rcases ends with other | ⟨_, apart⟩
    · rw [ret] at other
      cases other
    · exact apart feed

private theorem extract_succ {text : List Char} {start p : Nat} {c : Char} (ordered : start ≤ p)
    (here : text[p]? = some c) : text.extract start (p + 1) = text.extract start p ++ [c] := by
  have single : text.extract p (p + 1) = [c] := by
    rw [List.extract_eq_take_drop, List.drop_eq_getElem?_toList_append, here]
    simp
  rw [← Extent.extract_append_extract text ordered (Nat.le_succ p), single]

private theorem exists_of_mem_extract {text : List Char} {start stop : Nat} {c : Char}
    (member : c ∈ text.extract start stop) :
    ∃ p, start ≤ p ∧ p < stop ∧ text[p]? = some c := by
  obtain ⟨i, found⟩ := List.mem_iff_getElem?.mp member
  rw [List.extract_eq_take_drop, List.getElem?_take, List.getElem?_drop] at found
  split at found
  · exact ⟨start + i, by omega, by omega, found⟩
  · cases found

private theorem unbroken_extract {text : List Char} {start stop : Nat}
    (quiet : ∀ p, start < p → p ≤ stop → ¬ LineEndsAt text p)
    (whole : ¬ IsPairedFeed text stop) : Unbroken (text.extract start stop) := by
  constructor
  · intro member
    obtain ⟨p, reached, before, ret⟩ := exists_of_mem_extract member
    by_cases feed : text[p + 1]? = some '\n'
    · -- The pair would end a line, unless the part stops inside it.
      rcases Nat.lt_or_eq_of_le (Nat.succ_le_of_lt before) with inside | same
      · exact quiet (p + 2) (by omega) inside (Or.inl feed)
      · exact whole (same ▸ ⟨ret, feed⟩)
    · exact quiet (p + 1) (by omega) before (Or.inr ⟨ret, feed⟩)
  · intro member
    obtain ⟨p, reached, before, feed⟩ := exists_of_mem_extract member
    exact quiet (p + 1) (by omega) before (Or.inl feed)

private theorem isTerminated_extract {text : List Char} {start p : Nat} (ordered : start ≤ p)
    (opens : ¬ IsPairedFeed text start) (ends : LineEndsAt text (p + 1))
    (quiet : ∀ q, start < q → q ≤ p → ¬ LineEndsAt text q) :
    IsTerminated (text.extract start (p + 1)) := by
  rcases ends with feed | ⟨ret, _⟩
  · by_cases paired : IsPairedFeed text p
    · cases p with
      | zero => exact absurd paired id
      | succ before =>
        have other : start ≠ before + 1 := by
          rintro rfl
          exact opens paired
        have earlier : start ≤ before := by omega
        have clear : Unbroken (text.extract start before) := by
          apply unbroken_extract _ (not_isPairedFeed_of_return paired.1)
          intro q after inside
          exact quiet q after (Nat.le_succ_of_le inside)
        refine ⟨text.extract start before, .returnFeed, clear, ?_⟩
        rw [extract_succ ordered feed, extract_succ earlier paired.1, List.append_assoc]
        rfl
    · exact ⟨text.extract start p, .lineFeed, unbroken_extract quiet paired,
        extract_succ ordered feed⟩
  · have clear := unbroken_extract quiet (not_isPairedFeed_of_return ret)
    exact ⟨text.extract start p, .carriageReturn, clear, extract_succ ordered ret⟩

namespace LineTable

variable {text : List Char} {index start stop : Nat}

private theorem lines_eq_map_slice (table : LineTable) (text : List Char) :
    table.lines text = table.extents.map (Extent.slice · text) :=
  List.map_filterMap.symm

theorem flatten_lines (text : List Char) : ((ofChars text).lines text).flatten = text := by
  have tiles := (ofChars text).tiles_extents
  rw [length_ofChars] at tiles
  rw [lines_eq_map_slice, tiles.flatten_slices]
  simp

theorem getElem?_lines (table : LineTable) (text : List Char) (index : Nat) :
    (table.lines text)[index]? = (table.lineExtent? (index + 1)).map (Extent.slice · text) := by
  rw [lines_eq_map_slice, List.getElem?_map, getElem?_extents]

@[simp] theorem length_lines (table : LineTable) (text : List Char) :
    (table.lines text).length = table.lineCount := by
  rw [lines_eq_map_slice, List.length_map, length_extents]

private theorem not_isPairedFeed_start (entry : (ofChars text).starts[index]? = some start) :
    ¬ IsPairedFeed text start := by
  have member := ((ofChars text).mem_starts_iff_getElem? start).mpr ⟨index, entry⟩
  rcases (mem_starts_ofChars text start).mp member with rfl | ends
  · exact id
  · exact ends.not_isPairedFeed

private theorem lineEndsAt_next (entry : (ofChars text).starts[index + 1]? = some stop) :
    LineEndsAt text stop := by
  have member := ((ofChars text).mem_starts_iff_getElem? stop).mpr ⟨index + 1, entry⟩
  rcases (mem_starts_ofChars text stop).mp member with rfl | ends
  · have positive := le_start_of_getElem? entry
    omega
  · exact ends

private theorem OnLine.not_lineEndsAt {offset : Nat}
    (here : (ofChars text).OnLine offset index start)
    (later : start < offset) : ¬ LineEndsAt text offset := by
  intro ends
  have member := (mem_starts_ofChars text offset).mpr (Or.inr ends)
  have same := here.mem_starts_iff.mp member
  omega

private theorem isTerminated_slice {extent : Extent}
    (isExtent : (ofChars text).lineExtent? (index + 1) = some extent)
    (followed : index + 1 < (ofChars text).lineCount) : IsTerminated (extent.slice text) := by
  have entry := lineStart?_of_lineExtent? isExtent
  have next := getElem?_starts_of_lt isExtent followed
  have less := start_lt_start_of_getElem? entry next (Nat.lt_succ_self index)
  obtain ⟨p, stops⟩ : ∃ p, extent.stop = p + 1 := ⟨extent.stop - 1, by omega⟩
  have ends := lineEndsAt_next next
  rw [stops] at ends
  rw [Extent.slice, stops]
  apply isTerminated_extract (by omega) (not_isPairedFeed_start entry) ends
  intro q later inside
  have here := onLine_of_lineExtent? isExtent (Or.inl ⟨Nat.le_of_lt later, by omega⟩)
  exact here.not_lineEndsAt later

private theorem unbroken_slice {extent : Extent}
    (isExtent : (ofChars text).lineExtent? (index + 1) = some extent)
    (isLast : index + 1 = (ofChars text).lineCount) : Unbroken (extent.slice text) := by
  have stops : extent.stop = text.length :=
    (stop_of_last isExtent isLast).trans (length_ofChars text)
  have whole : ¬ IsPairedFeed text extent.stop := by
    rw [stops]
    cases text with
    | nil => exact id
    | cons c rest =>
      rintro ⟨_, feed⟩
      simp at feed
  apply unbroken_extract _ whole
  intro q later _
  have here := onLine_of_lineExtent? isExtent (Or.inr ⟨isLast, Nat.le_of_lt later⟩)
  exact here.not_lineEndsAt later

private theorem head?_slice_ne {extent other : Extent}
    (isExtent : (ofChars text).lineExtent? (index + 1) = some extent)
    (isNext : (ofChars text).lineExtent? (index + 2) = some other)
    (ret : (extent.slice text).getLast? = some '\r') :
    (other.slice text).head? ≠ some '\n' := by
  intro feed
  have entry := lineStart?_of_lineExtent? isExtent
  have next : (ofChars text).starts[index + 1]? = some other.start :=
    lineStart?_of_lineExtent? isNext
  have bound := (Array.getElem?_eq_some_iff.mp next).1
  have adjacent : extent.stop = other.start :=
    Option.some.inj ((getElem?_starts_of_lt isExtent bound).symm.trans next)
  have less := start_lt_start_of_getElem? entry next (Nat.lt_succ_self index)
  have inside := le_length_of_getElem? next
  rw [length_ofChars] at inside
  obtain ⟨p, isStart⟩ : ∃ p, other.start = p + 1 := ⟨other.start - 1, by omega⟩
  have before : p < text.length := by omega
  have last : text[p]? = some '\r' := by
    rw [Extent.slice, adjacent, isStart,
      extract_succ (by omega) (List.getElem?_eq_getElem before), List.getLast?_concat] at ret
    rw [List.getElem?_eq_getElem before, ret]
  have first : text[p + 1]? = some '\n' := by
    rw [Extent.slice, List.extract_eq_take_drop, List.head?_take, List.head?_drop, isStart] at feed
    split at feed
    · cases feed
    · exact feed
  exact not_isPairedFeed_start next (isStart ▸ ⟨last, first⟩)

theorem isDivision_lines (text : List Char) : IsDivision text ((ofChars text).lines text) := by
  constructor
  case flatten => exact flatten_lines text
  case terminated =>
    intro line member
    obtain ⟨index, found⟩ := List.mem_iff_getElem?.mp member
    rw [List.getElem?_dropLast, length_lines, getElem?_lines] at found
    split at found
    · next bound =>
      obtain ⟨extent, isExtent, rfl⟩ := Option.map_eq_some_iff.mp found
      exact isTerminated_slice isExtent (Nat.add_lt_of_lt_sub bound)
    · cases found
  case last =>
    obtain ⟨index, isLast⟩ : ∃ index, index + 1 = (ofChars text).lineCount :=
      ⟨_, Nat.sub_add_cancel (ofChars text).starts_size_pos⟩
    obtain ⟨extent, isExtent⟩ := Option.isSome_iff_exists.mp
      (((ofChars text).isSome_lineExtent?_iff (index + 1)).mpr (by omega))
    refine ⟨extent.slice text, ?_, unbroken_slice isExtent isLast⟩
    rw [List.getLast?_eq_getElem?, length_lines, ← isLast, Nat.add_sub_cancel, getElem?_lines,
      isExtent, Option.map_some]
  case whole =>
    intro index line next first second ret
    rw [getElem?_lines] at first second
    obtain ⟨extent, isExtent, rfl⟩ := Option.map_eq_some_iff.mp first
    obtain ⟨other, isNext, rfl⟩ := Option.map_eq_some_iff.mp second
    exact head?_slice_ne isExtent isNext ret

example : (ofChars "a\r\n\rb".toList).lines "a\r\n\rb".toList =
    ["a\r\n".toList, "\r".toList, "b".toList] := by decide

end LineTable

/-- Whatever has been asked, an index has an extent for each of its lines and for no other number,
the extents tile the text, and the parts that they cut out are the lines of the text: they divide
it, and nothing else does. -/
theorem Session.lines_divide {n : Nat} (sources : Vector Source n) (steps : List (Step n))
    (i : Fin n) :
    let text := (sources.get i).text.toList
    let table := (((build sources).after steps).get i).table
    (∀ line, (table.lineExtent? line).isSome = true ↔ 1 ≤ line ∧ line ≤ table.lineCount) ∧
      Extent.Tiles 0 ((List.range' 1 table.lineCount).filterMap table.lineExtent?) text.length ∧
      IsDivision text (table.lines text) ∧
      ∀ lines, IsDivision text lines → lines = table.lines text := by
  intro text table
  have isTable : table = .ofChars text := table_after_build sources steps i
  have tiles := table.tiles_extents
  have division := LineTable.isDivision_lines text
  rw [← isTable] at division
  refine ⟨table.isSome_lineExtent?_iff, ?_, division, ?_⟩
  · rw [isTable, LineTable.length_ofChars, ← isTable] at tiles
    exact tiles
  · intro lines other
    exact other.unique division

end Lineation
