import Lineation.Proofs.Answers
import Lineation.Text
import Mathlib.Data.List.Induction

/-!
The line of an offset, and where a cursor arrives that walks up to it.

An offset lies on a line when the line starts at or before it and the next line, if there is one,
starts beyond it. There is one such line (`OnLine.unique`), any search finds it (`onLine_lineOf`),
and so the location of an offset can be computed from it (`placeOf_eq_of_onLine`). Of the offsets on
a line only the first is a line start (`OnLine.mem_starts_iff`). Going one character further either
stays on the line or opens the next one.

A reader that has passed a text remembers of it just whether it ended with a carriage return
(`Reading.afterReturn_readAll`). From this one bit the table stays right under one more character: a
line feed moves the last start when it completes a pair, and every other character leaves the
earlier starts where they are. So the starts are zero and the places where a line ends
(`mem_starts_ofChars`).

A cursor looks one character ahead where the table has looked one character back. Both see a line
end at the same offsets (`Cursor.pass_getElem`), so the line on which the cursor stands is the line
of the offset it has reached (`onLine_walk`).
-/

set_option autoImplicit false
set_option relaxedAutoImplicit false

namespace Lineation

/-! ## The line of an offset -/

namespace LineTable

/-- The offset lies on the line with this index, counted from zero, and the line starts there. -/
structure OnLine (table : LineTable) (offset index start : Nat) : Prop where
  entry : table.starts[index]? = some start
  start_le : start ≤ offset
  lt_next : ∀ next, table.starts[index + 1]? = some next → offset < next

variable {table : LineTable} {offset index start : Nat}

theorem start_lt_start_of_getElem? {i j s t : Nat} (first : table.starts[i]? = some s)
    (second : table.starts[j]? = some t) (earlier : i < j) : s < t := by
  obtain ⟨_, rfl⟩ := Array.getElem?_eq_some_iff.mp first
  obtain ⟨bound, rfl⟩ := Array.getElem?_eq_some_iff.mp second
  exact table.start_lt_start earlier bound

private theorem lt_of_start_lt_start {i j s t : Nat} (first : table.starts[i]? = some s)
    (second : table.starts[j]? = some t) (less : s < t) : i < j := by
  rcases Nat.lt_trichotomy i j with earlier | rfl | later
  · exact earlier
  · have same := Option.some.inj (first.symm.trans second)
    omega
  · have reversed := start_lt_start_of_getElem? second first later
    omega

private theorem exists_next {i s : Nat} (entry : table.starts[i]? = some s) (later : index < i) :
    ∃ next, table.starts[index + 1]? = some next := by
  obtain ⟨bound, _⟩ := Array.getElem?_eq_some_iff.mp entry
  exact ⟨_, Array.getElem?_eq_getElem (Nat.lt_of_le_of_lt (Nat.succ_le_of_lt later) bound)⟩

theorem OnLine.lt_of_later (here : table.OnLine offset index start) {i s : Nat}
    (later : index < i) (entry : table.starts[i]? = some s) : offset < s := by
  obtain ⟨next, nextEntry⟩ := exists_next entry later
  have beyond := here.lt_next next nextEntry
  rcases Nat.lt_or_eq_of_le (Nat.succ_le_of_lt later) with more | same
  · have ordered := start_lt_start_of_getElem? nextEntry entry more
    omega
  · subst same
    exact here.lt_next s entry

theorem OnLine.unique (here : table.OnLine offset index start) {i s : Nat}
    (there : table.OnLine offset i s) : i = index ∧ s = start := by
  rcases Nat.lt_trichotomy i index with less | same | greater
  · have beyond := there.lt_of_later less here.entry
    have reached := here.start_le
    omega
  · subst same
    exact ⟨rfl, Option.some.inj (there.entry.symm.trans here.entry)⟩
  · have beyond := here.lt_of_later greater there.entry
    have reached := there.start_le
    omega

theorem onLine_lineOf (table : LineTable) {offset start : Nat} (probe : Probe table.starts offset)
    (entry : table.starts[(table.lineOf probe).val]? = some start) :
    table.OnLine offset (table.lineOf probe) start where
  entry := entry
  start_le := by
    obtain ⟨bound, rfl⟩ := Array.getElem?_eq_some_iff.mp entry
    exact table.start_lineOf_le probe
  lt_next next entry := by
    obtain ⟨bound, rfl⟩ := Array.getElem?_eq_some_iff.mp entry
    exact table.lt_start_of_lineOf_lt probe (Nat.lt_succ_self _) bound

theorem exists_onLine (table : LineTable) (offset : Nat) :
    ∃ index start, table.OnLine offset index start := by
  have probe := table.search offset
  have entry := Array.getElem?_eq_getElem (table.lineOf probe).isLt
  exact ⟨_, _, table.onLine_lineOf probe entry⟩

theorem placeOf_eq_of_onLine (here : table.OnLine offset index start)
    (probe : Probe table.starts offset) :
    table.placeOf offset probe =
      { offset := offset, line := index + 1, column := offset - start + 1 } := by
  have entry := Array.getElem?_eq_getElem (table.lineOf probe).isLt
  obtain ⟨sameIndex, sameStart⟩ := here.unique (table.onLine_lineOf probe entry)
  apply Location.ext
  · rfl
  · change (table.lineOf probe : Nat) + 1 = index + 1
    rw [sameIndex]
  · change offset - table.starts[(table.lineOf probe).val] + 1 = offset - start + 1
    rw [sameStart]

theorem place_eq_of_onLine (here : table.OnLine offset index start) :
    table.place offset =
      { offset := offset, line := index + 1, column := offset - start + 1 } :=
  placeOf_eq_of_onLine here (table.search offset)

private theorem onLine_start (entry : table.starts[index]? = some start) :
    table.OnLine start index start where
  entry := entry
  start_le := Nat.le_refl _
  lt_next _ nextEntry := start_lt_start_of_getElem? entry nextEntry (Nat.lt_succ_self _)

theorem onLine_zero (table : LineTable) : table.OnLine 0 0 0 :=
  onLine_start table.starts_zero

theorem mem_starts_iff_getElem? (table : LineTable) (p : Nat) :
    p ∈ table.starts.toList ↔ ∃ i : Nat, table.starts[i]? = some p := by
  rw [Array.mem_toList_iff, Array.mem_iff_getElem?]

theorem OnLine.mem_starts_iff (here : table.OnLine offset index start) :
    offset ∈ table.starts.toList ↔ offset = start := by
  rw [mem_starts_iff_getElem?]
  constructor
  · rintro ⟨i, entry⟩
    exact (here.unique (onLine_start entry)).2
  · rintro rfl
    exact ⟨index, here.entry⟩

theorem le_start_of_getElem? (entry : table.starts[index]? = some start) : index ≤ start := by
  induction index generalizing start with
  | zero => exact Nat.zero_le start
  | succ index ih =>
    obtain ⟨bound, _⟩ := Array.getElem?_eq_some_iff.mp entry
    have before := Array.getElem?_eq_getElem (Nat.lt_of_succ_lt bound)
    have reached := ih before
    have grows := start_lt_start_of_getElem? before entry (Nat.lt_succ_self index)
    omega

private theorem OnLine.succ_of_mem (here : table.OnLine offset index start)
    (opens : offset + 1 ∈ table.starts.toList) :
    table.OnLine (offset + 1) (index + 1) (offset + 1) := by
  obtain ⟨i, entry⟩ := (table.mem_starts_iff_getElem? _).mp opens
  have later : index < i :=
    lt_of_start_lt_start here.entry entry (Nat.lt_succ_of_le here.start_le)
  -- Between the two lines there is room for no third one.
  have isNext : i = index + 1 := by
    rcases Nat.lt_or_eq_of_le (Nat.succ_le_of_lt later) with more | same
    · obtain ⟨next, between⟩ := exists_next entry later
      have beyond := here.lt_next next between
      have before := start_lt_start_of_getElem? between entry more
      omega
    · exact same.symm
  subst isNext
  exact onLine_start entry

private theorem OnLine.succ_of_not_mem (here : table.OnLine offset index start)
    (stays : offset + 1 ∉ table.starts.toList) : table.OnLine (offset + 1) index start := by
  refine ⟨here.entry, Nat.le_succ_of_le here.start_le, ?_⟩
  intro next entry
  have beyond := here.lt_next next entry
  have member : next ∈ table.starts.toList :=
    (table.mem_starts_iff_getElem? next).mpr ⟨_, entry⟩
  have other : next ≠ offset + 1 := by
    rintro rfl
    exact stays member
  omega

end LineTable

/-! ## The line starts of a text -/

theorem Reading.readAll_concat (reading : Reading) (text : List Char) (c : Char) :
    reading.readAll (text ++ [c]) = (reading.readAll text).read c :=
  reading.readAll_append text [c]

theorem Reading.afterReturn_readAll (text : List Char) :
    (Reading.initial.readAll text).afterReturn = true ↔ text.getLast? = some '\r' := by
  induction text using List.reverseRecOn with
  | nil => simp [Reading.initial, Reading.settled]
  | append_singleton text c _ => simp [Reading.readAll_concat]

theorem lineEndsAt_length_iff (text : List Char) :
    LineEndsAt text text.length ↔ text.getLast? = some '\n' ∨ text.getLast? = some '\r' := by
  induction text using List.reverseRecOn with
  | nil => simp [LineEndsAt]
  | append_singleton text c _ => simp [LineEndsAt]

theorem lineEndsAt_append_of_lt (text more : List Char) {p : Nat} (inside : p < text.length) :
    LineEndsAt (text ++ more) p ↔ LineEndsAt text p := by
  cases p with
  | zero => exact Iff.rfl
  | succ before =>
    have kept : (text ++ more)[before]? = text[before]? :=
      List.getElem?_append_left (Nat.lt_of_succ_lt inside)
    have next : (text ++ more)[before + 1]? = text[before + 1]? := List.getElem?_append_left inside
    simp only [LineEndsAt, kept, next]

/-- At the end of a text what follows decides whether a carriage return ends a line. -/
theorem lineEndsAt_append_length (text more : List Char) :
    LineEndsAt (text ++ more) text.length ↔
      LineEndsAt text text.length ∧
        ¬ (text.getLast? = some '\r' ∧ more.head? = some '\n') := by
  rw [lineEndsAt_length_iff]
  induction text using List.reverseRecOn with
  | nil => simp [LineEndsAt]
  | append_singleton text c _ =>
    have here : (text ++ [c] ++ more)[text.length]? = some c := by simp
    have next : (text ++ [c] ++ more)[text.length + 1]? = more.head? := by
      rw [List.getElem?_append_right (by simp)]
      simp [List.head?_eq_getElem?]
    simp only [List.length_append, List.length_singleton, LineEndsAt, here, next,
      List.getLast?_concat, Option.some.injEq]
    by_cases feed : c = '\n'
    · subst feed
      simp
    · simp only [feed, false_or]
      tauto

theorem lineEndsAt_append_right (text more : List Char) {p : Nat} (positive : 0 < p) :
    LineEndsAt (text ++ more) (text.length + p) ↔ LineEndsAt more p := by
  obtain ⟨before, rfl⟩ : ∃ before, p = before + 1 := ⟨p - 1, by omega⟩
  have here : (text ++ more)[text.length + before]? = more[before]? := by
    rw [List.getElem?_append_right (Nat.le_add_right _ _), Nat.add_sub_cancel_left]
  have next : (text ++ more)[text.length + before + 1]? = more[before + 1]? := by
    rw [Nat.add_assoc, List.getElem?_append_right (Nat.le_add_right _ _), Nat.add_sub_cancel_left]
  change LineEndsAt (text ++ more) (text.length + before + 1) ↔ LineEndsAt more (before + 1)
  simp only [LineEndsAt, here, next]

/-- One more character can end a line after itself, and a line feed takes back the line end that a
carriage return just before it had made. -/
private theorem lineEndsAt_concat (text : List Char) (c : Char) (p : Nat) :
    LineEndsAt (text ++ [c]) p ↔
      (p = text.length + 1 ∧ (c = '\n' ∨ c = '\r')) ∨
        (LineEndsAt text p ∧ ¬ (p = text.length ∧ text.getLast? = some '\r' ∧ c = '\n')) := by
  rcases Nat.lt_trichotomy p text.length with inside | rfl | beyond
  · rw [lineEndsAt_append_of_lt text [c] inside]
    simp [Nat.ne_of_lt inside, Nat.ne_of_lt (Nat.lt_succ_of_lt inside)]
  · rw [lineEndsAt_append_length]
    simp
  · obtain ⟨q, rfl⟩ := Nat.exists_eq_add_of_lt beyond
    rw [Nat.add_assoc, lineEndsAt_append_right text [c] (Nat.succ_pos q)]
    cases q with
    | zero => simp [LineEndsAt]
    | succ q => simp [LineEndsAt]

namespace LineTable

private theorem mem_dropLast_starts (table : LineTable)
    (reached : table.length ∈ table.starts.toList) (p : Nat) :
    p ∈ table.starts.toList.dropLast ↔ p ∈ table.starts.toList ∧ p ≠ table.length := by
  have nonempty : table.starts.toList ≠ [] := List.ne_nil_of_mem reached
  obtain ⟨earlier, last, split⟩ : ∃ earlier last, table.starts.toList = earlier ++ [last] :=
    ⟨_, _, (List.dropLast_concat_getLast nonempty).symm⟩
  have ascending := table.ascending
  have bounded := table.starts_le
  rw [split] at reached ascending bounded ⊢
  have less : ∀ q ∈ earlier, q < last := by
    intro q member
    exact (List.pairwise_append.mp ascending).2.2 q member last (List.mem_singleton_self last)
  have isLast : last = table.length := by
    have upper := bounded last (by simp)
    rcases List.mem_append.mp reached with old | new
    · have lower := less _ old
      omega
    · exact (List.mem_singleton.mp new).symm
  simp only [List.dropLast_concat, List.mem_append, List.mem_singleton, isLast]
  constructor
  · intro member
    have lower := less p member
    exact ⟨Or.inl member, by omega⟩
  · rintro ⟨old | new, other⟩
    · exact old
    · exact absurd new other

end LineTable

/-- What reading one character does to the line starts, provided that a carriage return just before
it has made the end a start. -/
private theorem Reading.mem_starts_read (reading : Reading) (c : Char)
    (reached : reading.afterReturn = true → reading.table.length ∈ reading.table.starts.toList)
    (p : Nat) :
    p ∈ (reading.read c).table.starts.toList ↔
      (p = reading.table.length + 1 ∧ (c = '\n' ∨ c = '\r')) ∨
        (p ∈ reading.table.starts.toList ∧
          ¬ (p = reading.table.length ∧ reading.afterReturn = true ∧ c = '\n')) := by
  unfold read
  by_cases ret : c = '\r'
  · subst ret
    simp [or_comm]
  · by_cases feed : c = '\n'
    · subst feed
      by_cases returned : reading.afterReturn = true
      · have earlier := reading.table.mem_dropLast_starts (reached returned) p
        simp [settled, returned, earlier, or_comm]
      · simp [settled, returned, or_comm]
    · simp [settled, ret, feed]

theorem LineTable.mem_starts_ofChars (text : List Char) (p : Nat) :
    p ∈ (ofChars text).starts.toList ↔ p = 0 ∨ LineEndsAt text p := by
  -- The induction is on the last character: the reader has passed the text before it.
  induction text using List.reverseRecOn generalizing p with
  | nil => cases p <;> simp [ofChars, Reading.initial, Reading.settled, LineEndsAt]
  | append_singleton text c ih =>
    have remembered := Reading.afterReturn_readAll text
    have length : (Reading.initial.readAll text).table.length = text.length := length_ofChars text
    have reached : (Reading.initial.readAll text).afterReturn = true →
        (Reading.initial.readAll text).table.length ∈
          (Reading.initial.readAll text).table.starts.toList := by
      intro returned
      have ends := (lineEndsAt_length_iff text).mpr (Or.inr (remembered.mp returned))
      exact (ih _).mpr (Or.inr (length ▸ ends))
    have step := Reading.mem_starts_read _ c reached p
    rw [ofChars, Reading.readAll_concat, step, lineEndsAt_concat, length, remembered]
    change _ ∨ (p ∈ (ofChars text).starts.toList ∧ _) ↔ _
    rw [ih]
    by_cases zero : p = 0
    · -- Zero stays a start: no text is empty and ends with a carriage return.
      have nonempty : text.getLast? = some '\r' → text.length ≠ 0 := by
        rintro last empty
        rw [List.eq_nil_of_length_eq_zero empty] at last
        cases last
      simp only [zero, true_or, true_and, iff_true]
      exact Or.inr fun taken => nonempty taken.2.1 taken.1.symm
    · simp [zero]

/-! ## Walking and looking up -/

namespace Cursor

theorem walk_zero (cursor : Cursor) (text : List Char) : cursor.walk text 0 = cursor := by
  cases text <;> rfl

theorem walk_nil (cursor : Cursor) (count : Nat) : cursor.walk [] count = cursor := by
  cases count <;> rfl

theorem walk_succ (cursor : Cursor) (text : List Char) {count : Nat}
    (inside : count < text.length) :
    cursor.walk text (count + 1) =
      (cursor.walk text count).pass text[count] text[count + 1]? := by
  induction text generalizing cursor count with
  | nil => cases inside
  | cons c rest ih =>
    cases count with
    | zero => simp [walk, List.head?_eq_getElem?]
    | succ count => exact ih (cursor.pass c rest.head?) (Nat.lt_of_succ_lt_succ inside)

theorem pass_getElem (cursor : Cursor) (text : List Char) {count : Nat}
    (inside : count < text.length) :
    cursor.pass text[count] text[count + 1]? =
      if LineEndsAt text (count + 1) then ⟨cursor.line + 1, 1⟩
      else ⟨cursor.line, cursor.column + 1⟩ := by
  have here : text[count]? = some text[count] := List.getElem?_eq_getElem inside
  simp only [pass, LineEndsAt, here, Option.some.injEq]

example : Cursor.origin.walk "a\r\nb\rc".toList 5 = ⟨3, 1⟩ := by decide

end Cursor

namespace LineTable

variable {text : List Char} {offset index start : Nat}

theorem OnLine.succ_of_end (here : (ofChars text).OnLine offset index start)
    (ends : LineEndsAt text (offset + 1)) :
    (ofChars text).OnLine (offset + 1) (index + 1) (offset + 1) :=
  here.succ_of_mem ((mem_starts_ofChars text _).mpr (Or.inr ends))

theorem OnLine.succ_of_not_end (here : (ofChars text).OnLine offset index start)
    (stays : ¬ LineEndsAt text (offset + 1)) :
    (ofChars text).OnLine (offset + 1) index start := by
  apply here.succ_of_not_mem
  rw [mem_starts_ofChars]
  exact not_or.mpr ⟨Nat.succ_ne_zero offset, stays⟩

end LineTable

/-- A cursor that has walked over the characters before an offset stands on the line of that offset,
as many columns after the first as the offset lies beyond the line's start. -/
theorem LineTable.onLine_walk (text : List Char) {offset : Nat} (inside : offset ≤ text.length) :
    ∃ index start, (ofChars text).OnLine offset index start ∧
      Cursor.origin.walk text offset = ⟨index + 1, offset - start + 1⟩ := by
  -- The induction is on the offset: the cursor has walked up to the one before.
  induction offset with
  | zero =>
    exact ⟨0, 0, onLine_zero _, Cursor.walk_zero .origin text⟩
  | succ offset ih =>
    obtain ⟨index, start, here, walked⟩ := ih (Nat.le_of_succ_le inside)
    rw [Cursor.walk_succ _ _ inside, Cursor.pass_getElem _ _ inside, walked]
    by_cases ends : LineEndsAt text (offset + 1)
    · refine ⟨index + 1, offset + 1, here.succ_of_end ends, ?_⟩
      rw [if_pos ends, Nat.sub_self]
    · refine ⟨index, start, here.succ_of_not_end ends, ?_⟩
      have reached := here.start_le
      rw [if_neg ends, Nat.succ_sub reached]

def Location.cursor (location : Location) : Cursor := ⟨location.line, location.column⟩

theorem LineTable.cursor_place_ofChars (text : List Char) {offset : Nat}
    (inside : offset ≤ text.length) :
    ((ofChars text).place offset).cursor = Cursor.origin.walk text offset := by
  obtain ⟨index, start, here, walked⟩ := onLine_walk text inside
  rw [walked, place_eq_of_onLine here]
  rfl

/-- The two short ways to index a text are among the sources of a session. -/
theorem Session.build_plain_cached (text : String) :
    build #v[⟨.plain, text⟩, ⟨.cached, text⟩] = #v[.plain text, .cached text] := by
  simp [build, Index.plain, Index.cached]

/-- Whatever has been asked of the indexes before, an index has the length of its text, its table is
the one that a reader looking one character ahead makes, and it locates an offset where a cursor
arrives that walks up to it; beyond the end it locates nothing. -/
theorem Session.locate_eq_walk {n : Nat} (sources : Vector Source n) (steps : List (Step n))
    (i : Fin n) (offset : Nat) :
    let text := (sources.get i).text.toList
    let index := ((build sources).after steps).get i
    index.table.length = text.length ∧
      LineTable.scan text = (index.table.length, index.table.starts) ∧
      ((Index.locate offset).run index).result.map
          (fun location => (location.offset, location.cursor)) =
        if offset ≤ text.length then .ok (offset, Cursor.origin.walk text offset)
        else .error (.ofOffset offset text.length) := by
  intro text index
  have table : index.table = .ofChars text := table_after_build sources steps i
  have length : index.table.length = text.length := by rw [table, LineTable.length_ofChars]
  refine ⟨length, ?_, ?_⟩
  · rw [table, LineTable.scan_eq_ofChars]
  · rw [Index.result_locate, length, table]
    by_cases inside : offset ≤ text.length
    · rw [if_pos inside, if_pos inside, ← LineTable.cursor_place_ofChars text inside]
      rfl
    · rw [if_neg inside, if_neg inside]
      rfl

end Lineation
