import Lineation.Proofs.Extents
import Mathlib.Data.List.Sort

/-!
A text that is put together from two.

A cursor that walks over the first part and then over the second arrives where the walk over the
second part alone leads, seen from the end of the first (`Cursor.follow`). The parts are walked over
as they would be alone, except that a carriage return at the end of the first does not end a line
when the second starts with a line feed: the two meet in one line break, and the end of the first
part stays on the line of its carriage return.

The starts of a text are zero and the offsets at which its lines end, in ascending order
(`LineTable.starts_ofChars`), so they are known once the line ends are. Those of a text put together
from two are the line ends of the first part and then those of the second, moved by the length of
the first (`lineEndsThrough_append`); only the end of the first part is seen differently from there,
when a carriage return before it and a line feed after it meet in one line break.
-/

set_option autoImplicit false
set_option relaxedAutoImplicit false

namespace Lineation

/-- The first text ends with a carriage return and the second starts with a line feed, so that they
meet in one line break. -/
def Joined (first second : List Char) : Prop :=
  first.getLast? = some '\r' ∧ second.head? = some '\n'

private theorem lineEndsAt_append_length_of_not_joined {first second : List Char}
    (apart : ¬ Joined first second) :
    LineEndsAt (first ++ second) first.length ↔ LineEndsAt first first.length :=
  (lineEndsAt_append_length first second).trans (and_iff_left apart)

private theorem Joined.lineEndsAt_length {first second : List Char} (joined : Joined first second) :
    LineEndsAt first first.length :=
  (lineEndsAt_length_iff first).mpr (Or.inr joined.1)

private theorem Joined.not_lineEndsAt_append {first second : List Char}
    (joined : Joined first second) :
    ¬ LineEndsAt (first ++ second) first.length := by
  intro ends
  exact ((lineEndsAt_append_length first second).mp ends).2 joined

namespace Cursor

/-- Where a cursor comes to stand that goes on from one place as another says of a walk from the
origin: a walk that stays on its line adds to the column, and one that leaves it sets the column. -/
def follow (first second : Cursor) : Cursor :=
  if second.line = 1 then ⟨first.line, first.column + second.column - 1⟩
  else ⟨first.line + second.line - 1, second.column⟩

theorem pass_of_break (cursor : Cursor) {c : Char} {next : Option Char}
    (ends : c = '\n' ∨ c = '\r' ∧ next ≠ some '\n') :
    cursor.pass c next = ⟨cursor.line + 1, 1⟩ :=
  if_pos ends

theorem pass_of_not_break (cursor : Cursor) {c : Char} {next : Option Char}
    (stays : ¬ (c = '\n' ∨ c = '\r' ∧ next ≠ some '\n')) :
    cursor.pass c next = ⟨cursor.line, cursor.column + 1⟩ :=
  if_neg stays

structure Counted (cursor : Cursor) : Prop where
  line_pos : 1 ≤ cursor.line
  column_pos : 1 ≤ cursor.column

theorem Counted.origin : Cursor.origin.Counted := ⟨Nat.le_refl 1, Nat.le_refl 1⟩

theorem Counted.pass {cursor : Cursor} (counted : cursor.Counted) (c : Char)
    (next : Option Char) : (cursor.pass c next).Counted := by
  by_cases ends : c = '\n' ∨ c = '\r' ∧ next ≠ some '\n'
  · rw [cursor.pass_of_break ends]
    exact ⟨Nat.le_add_left 1 cursor.line, Nat.le_refl 1⟩
  · rw [cursor.pass_of_not_break ends]
    exact ⟨counted.line_pos, Nat.le_add_left 1 cursor.column⟩

private theorem follow_of_line_eq_one (first second : Cursor) (same : second.line = 1) :
    first.follow second = ⟨first.line, first.column + second.column - 1⟩ :=
  if_pos same

private theorem follow_of_line_ne_one (first second : Cursor) (later : second.line ≠ 1) :
    first.follow second = ⟨first.line + second.line - 1, second.column⟩ :=
  if_neg later

private theorem follow_pass (first : Cursor) {second : Cursor} (counted : second.Counted) (c : Char)
    (next : Option Char) :
    (first.follow second).pass c next = first.follow (second.pass c next) := by
  obtain ⟨line, column⟩ := second
  obtain ⟨line_pos, column_pos⟩ := counted
  dsimp only at line_pos column_pos
  by_cases ends : c = '\n' ∨ c = '\r' ∧ next ≠ some '\n'
  · have later : line + 1 ≠ 1 := by omega
    rw [pass_of_break _ ends, pass_of_break _ ends, first.follow_of_line_ne_one ⟨line + 1, 1⟩ later]
    by_cases same : line = 1
    · rw [first.follow_of_line_eq_one ⟨line, column⟩ same, same]
      rfl
    · rw [first.follow_of_line_ne_one ⟨line, column⟩ same, mk.injEq]
      dsimp only
      omega
  · rw [pass_of_not_break _ ends, pass_of_not_break _ ends]
    by_cases same : line = 1
    · rw [first.follow_of_line_eq_one ⟨line, column⟩ same,
        first.follow_of_line_eq_one ⟨line, column + 1⟩ same, mk.injEq]
      dsimp only
      omega
    · rw [first.follow_of_line_ne_one ⟨line, column⟩ same,
        first.follow_of_line_ne_one ⟨line, column + 1⟩ same]

private theorem follow_walk (first : Cursor) {second : Cursor} (counted : second.Counted)
    (text : List Char) (count : Nat) :
    (first.follow second).walk text count = first.follow (second.walk text count) := by
  induction text generalizing second count with
  | nil => rw [walk_nil, walk_nil]
  | cons c rest ih =>
    cases count with
    | zero => rfl
    | succ count =>
      simp only [walk]
      rw [first.follow_pass counted]
      exact ih (counted.pass c rest.head?) count

/-- A walk from anywhere is the walk from the origin, seen from there. -/
theorem walk_eq_follow (cursor : Cursor) (text : List Char) (count : Nat) :
    cursor.walk text count = cursor.follow (origin.walk text count) :=
  cursor.follow_walk .origin text count

/-! ## Walks over a text that is put together from two -/

theorem walk_succ_eq_ite (cursor : Cursor) (text : List Char) {count : Nat}
    (inside : count < text.length) :
    cursor.walk text (count + 1) =
      if LineEndsAt text (count + 1) then ⟨(cursor.walk text count).line + 1, 1⟩
      else ⟨(cursor.walk text count).line, (cursor.walk text count).column + 1⟩ := by
  rw [walk_succ cursor text inside, pass_getElem]

private theorem walk_append_of_lt (cursor : Cursor) (first second : List Char) {count : Nat}
    (inside : count < first.length) :
    cursor.walk (first ++ second) count = cursor.walk first count := by
  induction first generalizing cursor count with
  | nil => cases inside
  | cons c rest ih =>
    cases count with
    | zero => rfl
    | succ count =>
      have before : count < rest.length := Nat.lt_of_succ_lt_succ inside
      have nonempty : rest ≠ [] := List.ne_nil_of_length_pos (Nat.zero_lt_of_lt before)
      simp only [List.cons_append, walk]
      rw [List.head?_append_of_ne_nil rest nonempty]
      exact ih (cursor.pass c rest.head?) before

private theorem walk_append_add (cursor : Cursor) (first second : List Char) (count : Nat) :
    cursor.walk (first ++ second) (first.length + count) =
      (cursor.walk (first ++ second) first.length).walk second count := by
  induction first generalizing cursor with
  | nil => rw [List.nil_append, List.length_nil, Nat.zero_add, walk_zero]
  | cons c rest ih =>
    rw [List.length_cons, Nat.add_right_comm]
    exact ih (cursor.pass c (rest ++ second).head?)

private theorem walk_append_length (cursor : Cursor) {first second : List Char}
    (apart : ¬ Joined first second) :
    cursor.walk (first ++ second) first.length = cursor.walk first first.length := by
  have ends := lineEndsAt_append_length_of_not_joined apart
  have inside := (List.prefix_append first second).length_le
  cases length : first.length with
  | zero => rw [walk_zero, walk_zero]
  | succ count =>
    rw [length] at ends inside
    rw [walk_succ_eq_ite cursor (first ++ second) inside,
      walk_succ_eq_ite cursor first (Nat.le_of_eq length.symm),
      walk_append_of_lt cursor first second (Nat.le_of_eq length.symm)]
    simp only [ends]

/-- Where the parts meet in one break, the end of the first stays on the line of its carriage
return, which alone would have ended there. -/
private theorem walk_append_length_of_joined (cursor : Cursor) {first second : List Char}
    (joined : Joined first second) :
    let before := cursor.walk first (first.length - 1)
    cursor.walk (first ++ second) first.length = ⟨before.line, before.column + 1⟩ ∧
      cursor.walk first first.length = ⟨before.line + 1, 1⟩ := by
  intro before
  have alone := joined.lineEndsAt_length
  have together := joined.not_lineEndsAt_append
  have inside := (List.prefix_append first second).length_le
  obtain ⟨count, length⟩ : ∃ count, first.length = count + 1 := by
    cases first with
    | nil => cases joined.1
    | cons c rest => exact ⟨rest.length, rfl⟩
  have isBefore : before = cursor.walk first count := by
    change cursor.walk first (first.length - 1) = _
    rw [length, Nat.add_sub_cancel]
  rw [length] at alone together inside ⊢
  rw [isBefore, walk_succ_eq_ite cursor (first ++ second) inside, if_neg together,
    walk_append_of_lt cursor first second (Nat.le_of_eq length.symm),
    walk_succ_eq_ite cursor first (Nat.le_of_eq length.symm), if_pos alone]
  exact ⟨rfl, rfl⟩

example : origin.walk "a\r".toList 2 = ⟨2, 1⟩ ∧ origin.walk "a\r\nb".toList 2 = ⟨1, 3⟩ := by decide

theorem walk_append (first second : List Char) (apart : ¬ Joined first second) (count : Nat) :
    origin.walk (first ++ second) (first.length + count) =
      (origin.walk first first.length).follow (origin.walk second count) := by
  rw [walk_append_add, walk_append_length origin apart, walk_eq_follow]

private theorem line_le_pass (cursor : Cursor) (c : Char) (next : Option Char) :
    cursor.line ≤ (cursor.pass c next).line := by
  by_cases ends : c = '\n' ∨ c = '\r' ∧ next ≠ some '\n'
  · rw [cursor.pass_of_break ends]
    exact Nat.le_succ _
  · have passed := cursor.pass_of_not_break ends
    exact Nat.le_of_eq (congrArg line passed).symm

private theorem line_le_walk (cursor : Cursor) (text : List Char) (count : Nat) :
    cursor.line ≤ (cursor.walk text count).line := by
  induction text generalizing cursor count with
  | nil => exact Nat.le_of_eq (congrArg line (cursor.walk_nil count)).symm
  | cons c rest ih =>
    cases count with
    | zero => exact Nat.le_refl _
    | succ count =>
      have here := cursor.line_le_pass c rest.head?
      have later := ih (cursor.pass c rest.head?) count
      exact Nat.le_trans here later

theorem walk_append_of_joined {first second : List Char} (joined : Joined first second)
    {count : Nat} (positive : 1 ≤ count) :
    origin.walk (first ++ second) (first.length + count) =
      ⟨(origin.walk first first.length).line + (origin.walk second count).line - 2,
        (origin.walk second count).column⟩ := by
  obtain ⟨seam, alone⟩ := walk_append_length_of_joined origin joined
  have broken : 2 ≤ (origin.walk second count).line := by
    obtain ⟨rest, rfl⟩ : ∃ rest, second = '\n' :: rest := List.head?_eq_some_iff.mp joined.2
    obtain ⟨passed, rfl⟩ : ∃ passed, count = passed + 1 := ⟨count - 1, by omega⟩
    exact line_le_walk (origin.pass '\n' rest.head?) rest passed
  have later : (origin.walk second count).line ≠ 1 := by omega
  rw [walk_append_add, walk_eq_follow, seam, alone, follow_of_line_ne_one _ _ later, mk.injEq]
  dsimp only
  omega

end Cursor

namespace Index

variable {first second both : Index} {s t : String}

theorem exists_locate {index : Index} {text : String} (isTable : index.table = .ofString text)
    {offset : Nat} (inside : offset ≤ text.length) :
    ∃ location : Location, ((locate offset).run index).result = .ok location ∧
      location.offset = offset ∧ location.cursor = Cursor.origin.walk text.toList offset := by
  have within : offset ≤ index.table.length := by
    rw [isTable, LineTable.length_ofString]
    exact inside
  refine ⟨index.table.place offset, result_locate_of_le within, rfl, ?_⟩
  rw [isTable]
  exact LineTable.cursor_place_ofChars text.toList inside

private theorem exists_locate_append (isBoth : both.table = .ofString (s ++ t)) {offset : Nat}
    (inside : offset ≤ s.length + t.length) :
    ∃ location : Location, ((locate offset).run both).result = .ok location ∧
      location.offset = offset ∧
        location.cursor = Cursor.origin.walk (s.toList ++ t.toList) offset := by
  rw [← String.toList_append]
  apply exists_locate isBoth
  rw [String.length_append]
  exact inside

private theorem result_locate_append_of_lt (isFirst : first.table = .ofString s)
    (isBoth : both.table = .ofString (s ++ t)) {offset : Nat} (before : offset < s.length) :
    ((locate offset).run both).result = ((locate offset).run first).result := by
  obtain ⟨alone, located, isOffset, walked⟩ := exists_locate isFirst (Nat.le_of_lt before)
  obtain ⟨location, locatedBoth, isOffsetBoth, walkedBoth⟩ :=
    exists_locate_append isBoth (Nat.le_add_right_of_le (Nat.le_of_lt before))
  rw [Cursor.walk_append_of_lt _ _ _ before, ← walked] at walkedBoth
  obtain ⟨line, column⟩ := Cursor.mk.inj walkedBoth
  have same : location = alone := by
    apply Location.ext _ line column
    rw [isOffsetBoth, isOffset]
  rw [located, locatedBoth, same]

private theorem exists_locate_beyond (isFirst : first.table = .ofString s)
    (isSecond : second.table = .ofString t) (isBoth : both.table = .ofString (s ++ t)) {k : Nat}
    (inside : k ≤ t.length) :
    ∃ seam later location : Location,
      ((locate s.length).run first).result = .ok seam ∧
        ((locate k).run second).result = .ok later ∧
        ((locate (s.length + k)).run both).result = .ok location ∧
        location.offset = s.length + k ∧
        seam.cursor = Cursor.origin.walk s.toList s.toList.length ∧
        later.cursor = Cursor.origin.walk t.toList k ∧
        location.cursor = Cursor.origin.walk (s.toList ++ t.toList) (s.toList.length + k) := by
  obtain ⟨seam, located, _, walked⟩ := exists_locate isFirst (Nat.le_refl s.length)
  obtain ⟨later, locatedLater, _, walkedLater⟩ := exists_locate isSecond inside
  obtain ⟨location, locatedBoth, isOffset, walkedBoth⟩ :=
    exists_locate_append isBoth (Nat.add_le_add_left inside s.length)
  exact ⟨seam, later, location, located, locatedLater, locatedBoth, isOffset, walked, walkedLater,
    walkedBoth⟩

end Index

/-- Whatever has been asked of the indexes of two texts and of the text put together from them, the
locations in the first text stay what they are. From its end on, a location is that of the second
text seen from there, unless the texts meet in one line break: then the end of the first stays on
the line of its carriage return, and the second text counts one line less. -/
theorem Session.locate_concatenation (a b c : Settings) (s t : String) (steps : List (Step 3)) :
    let session := (build #v[⟨a, s⟩, ⟨b, t⟩, ⟨c, s ++ t⟩]).after steps
    let locate := fun (i : Fin 3) (offset : Nat) =>
      ((Index.locate offset).run (session.get i)).result
    (∀ offset < s.length, locate 2 offset = locate 0 offset) ∧
    (¬ Joined s.toList t.toList → ∀ k ≤ t.length, ∃ first second both : Location,
      locate 0 s.length = .ok first ∧ locate 1 k = .ok second ∧
        locate 2 (s.length + k) = .ok both ∧ both.offset = s.length + k ∧
        both.cursor = if second.line = 1 then ⟨first.line, first.column + second.column - 1⟩
          else ⟨first.line + second.line - 1, second.column⟩) ∧
    (Joined s.toList t.toList →
      (∃ before both : Location, locate 0 (s.length - 1) = .ok before ∧
        locate 2 s.length = .ok both ∧ both.offset = s.length ∧
        both.cursor = ⟨before.line, before.column + 1⟩) ∧
      ∀ k, 1 ≤ k → k ≤ t.length → ∃ first second both : Location,
        locate 0 s.length = .ok first ∧ locate 1 k = .ok second ∧
          locate 2 (s.length + k) = .ok both ∧ both.offset = s.length + k ∧
          both.cursor = ⟨first.line + second.line - 2, second.column⟩) := by
  intro session locate
  have isFirst : (session.get 0).table = .ofString s := table_after_build _ steps 0
  have isSecond : (session.get 1).table = .ofString t := table_after_build _ steps 1
  have isBoth : (session.get 2).table = .ofString (s ++ t) := table_after_build _ steps 2
  refine ⟨?_, ?_, fun joined => ⟨?_, ?_⟩⟩
  · intro offset before
    exact Index.result_locate_append_of_lt isFirst isBoth before
  · intro apart k inside
    obtain ⟨first, second, both, located, locatedSecond, locatedBoth, isOffset, walked,
      walkedSecond, walkedBoth⟩ := Index.exists_locate_beyond isFirst isSecond isBoth inside
    refine ⟨first, second, both, located, locatedSecond, locatedBoth, isOffset, ?_⟩
    rw [walkedBoth, Cursor.walk_append _ _ apart, ← walked, ← walkedSecond]
    rfl
  · obtain ⟨before, located, _, walked⟩ := Index.exists_locate isFirst (Nat.sub_le s.length 1)
    obtain ⟨both, locatedBoth, isOffset, walkedBoth⟩ :=
      Index.exists_locate_append isBoth (Nat.le_add_right s.length t.length)
    refine ⟨before, both, located, locatedBoth, isOffset, ?_⟩
    have seam := (Cursor.walk_append_length_of_joined .origin joined).1
    rw [String.length_toList, ← walkedBoth, ← walked] at seam
    exact seam
  · intro k positive inside
    obtain ⟨first, second, both, located, locatedSecond, locatedBoth, isOffset, walked,
      walkedSecond, walkedBoth⟩ := Index.exists_locate_beyond isFirst isSecond isBoth inside
    refine ⟨first, second, both, located, locatedSecond, locatedBoth, isOffset, ?_⟩
    rw [walkedBoth, Cursor.walk_append_of_joined joined positive, ← walked, ← walkedSecond]
    rfl

/-! ## The list of line starts -/

theorem LineTable.starts_ofChars (text : List Char) :
    (ofChars text).starts.toList = 0 :: lineEndsThrough text text.length := by
  have ascending : (0 :: lineEndsThrough text text.length).Pairwise (· < ·) := by
    rw [List.pairwise_cons]
    refine ⟨fun p member => ?_, pairwise_lineEndsThrough text text.length⟩
    exact ((mem_lineEndsThrough text _ p).mp member).2.pos
  -- Two ascending lists with the same entries are one list.
  apply (ofChars text).ascending.eq_of_mem_iff ascending
  intro p
  rw [mem_starts_ofChars, List.mem_cons, mem_lineEndsThrough,
    and_iff_right_of_imp LineEndsAt.le_length]

/-! ### Line ends of a text that is put together from two -/

private theorem lineEndsThrough_append_of_lt (first second : List Char) {count : Nat}
    (inside : count < first.length) :
    lineEndsThrough (first ++ second) count = lineEndsThrough first count := by
  apply List.filter_congr
  intro p member
  have upto := (List.mem_range'_1.mp member).2
  have before : p < first.length := by omega
  simp only [lineEndsAt_append_of_lt first second before]

private theorem lineEndsThrough_append (first second : List Char) (count : Nat) :
    lineEndsThrough (first ++ second) (first.length + count) =
      lineEndsThrough (first ++ second) first.length
        ++ (lineEndsThrough second count).map (first.length + ·) := by
  have beyond : List.range' (1 + first.length) count =
      (List.range' 1 count).map (first.length + ·) := by
    rw [List.map_add_range', Nat.add_comm]
  simp only [lineEndsThrough]
  rw [← List.range'_append_1, List.filter_append, beyond, List.filter_map]
  congr 2
  apply List.filter_congr
  intro p member
  have positive : 0 < p := (List.mem_range'_1.mp member).1
  simp only [Function.comp, lineEndsAt_append_right first second positive]

private theorem lineEndsThrough_append_length {first second : List Char}
    (apart : ¬ Joined first second) :
    lineEndsThrough (first ++ second) first.length = lineEndsThrough first first.length := by
  have ends := lineEndsAt_append_length_of_not_joined apart
  cases length : first.length with
  | zero => rfl
  | succ count =>
    have earlier := lineEndsThrough_append_of_lt first second (Nat.le_of_eq length.symm)
    rw [length] at ends
    by_cases alone : LineEndsAt first (count + 1)
    · rw [lineEndsThrough_succ_of_end alone, lineEndsThrough_succ_of_end (ends.mpr alone), earlier]
    · rw [lineEndsThrough_succ_of_not_end alone,
        lineEndsThrough_succ_of_not_end (mt ends.mp alone), earlier]

/-- Where the parts meet in one line break, the line end that the carriage return made is taken
back. -/
private theorem lineEndsThrough_append_length_of_joined {first second : List Char}
    (joined : Joined first second) :
    lineEndsThrough first first.length =
      lineEndsThrough (first ++ second) first.length ++ [first.length] := by
  have alone := joined.lineEndsAt_length
  have together := joined.not_lineEndsAt_append
  cases length : first.length with
  | zero =>
    rw [length] at alone
    exact absurd alone.pos (Nat.lt_irrefl 0)
  | succ count =>
    have earlier := lineEndsThrough_append_of_lt first second (Nat.le_of_eq length.symm)
    rw [length] at alone together
    rw [lineEndsThrough_succ_of_end alone, lineEndsThrough_succ_of_not_end together, earlier]

namespace LineTable

theorem starts_append {first second : List Char} (apart : ¬ Joined first second) :
    (ofChars (first ++ second)).starts.toList =
      (ofChars first).starts.toList
        ++ (ofChars second).starts.toList.tail.map (first.length + ·) := by
  rw [starts_ofChars, starts_ofChars, starts_ofChars, List.length_append, lineEndsThrough_append,
    lineEndsThrough_append_length apart, List.tail_cons, List.cons_append]

theorem starts_append_of_joined {first second : List Char} (joined : Joined first second) :
    (ofChars (first ++ second)).starts.toList =
      (ofChars first).starts.toList.dropLast
        ++ (ofChars second).starts.toList.tail.map (first.length + ·) := by
  rw [starts_ofChars, starts_ofChars, starts_ofChars, List.length_append, lineEndsThrough_append,
    lineEndsThrough_append_length_of_joined joined, List.tail_cons, ← List.cons_append,
    ← List.cons_append, List.dropLast_concat]

example : (ofChars "a\r".toList).starts = #[0, 2] ∧ (ofChars "\nb".toList).starts = #[0, 1] ∧
    (ofChars "a\r\nb".toList).starts = #[0, 3] := by decide

end LineTable

/-! ### How many lines there are -/

private theorem length_lineEndsThrough_cons (c : Char) (rest : List Char) :
    (lineEndsThrough (c :: rest) (rest.length + 1)).length =
      (if LineEndsAt (c :: rest) 1 then 1 else 0) + (lineEndsThrough rest rest.length).length := by
  have split := lineEndsThrough_append [c] rest rest.length
  rw [List.singleton_append, List.length_singleton, Nat.add_comm 1] at split
  rw [split, List.length_append, List.length_map]
  by_cases ends : LineEndsAt (c :: rest) (0 + 1)
  · rw [lineEndsThrough_succ_of_end ends, if_pos ends]
    rfl
  · rw [lineEndsThrough_succ_of_not_end ends, if_neg ends]
    rfl

/-- A line ends after each line feed and after each carriage return that none follows. -/
theorem length_lineEndsThrough (text : List Char) :
    (lineEndsThrough text text.length).length = text.count '\n' + loneReturns text := by
  induction text with
  | nil => rfl
  | cons c rest ih =>
    rw [List.length_cons, length_lineEndsThrough_cons, ih, List.count_cons, loneReturns]
    have first : LineEndsAt (c :: rest) 1 ↔ c = '\n' ∨ c = '\r' ∧ rest.head? ≠ some '\n' := by
      simp [LineEndsAt, List.head?_eq_getElem?]
    simp only [first]
    by_cases feed : c = '\n'
    · subst feed
      simp only [Char.reduceEq, false_and, or_false, if_true, if_false, BEq.rfl]
      omega
    · simp only [feed, false_or, beq_iff_eq, if_false]
      omega

theorem LineTable.lineCount_ofChars (text : List Char) :
    (ofChars text).lineCount = 1 + text.count '\n' + loneReturns text := by
  rw [lineCount, ← Array.length_toList, starts_ofChars, List.length_cons, length_lineEndsThrough]
  omega

namespace Session

/-- Whatever the settings are and whatever has been asked, the line starts of an index ascend from
zero within its text, and they are zero and the offsets at which a line ends; so there is one line
more than there are line feeds and carriage returns that none follows. -/
theorem starts_of_text {n : Nat} (sources : Vector Source n) (steps : List (Step n))
    (i : Fin n) :
    let text := (sources.get i).text.toList
    let table := (((build sources).after steps).get i).table
    table.length = text.length ∧
      table.starts.toList.Pairwise (· < ·) ∧
      table.starts[0]? = some 0 ∧
      (∀ start ∈ table.starts.toList, start ≤ table.length) ∧
      (∀ p, p ∈ table.starts.toList ↔
        p = 0 ∨ 0 < p ∧ p ≤ table.length ∧ LineEndsAt text p) ∧
      table.lineCount = 1 + text.count '\n' + loneReturns text := by
  intro text table
  have isTable : table = .ofChars text := table_after_build sources steps i
  have length : table.length = text.length := by rw [isTable, LineTable.length_ofChars]
  refine ⟨length, table.ascending, table.starts_zero, table.starts_le, ?_, ?_⟩
  · intro p
    rw [length, isTable, LineTable.mem_starts_ofChars]
    constructor
    · rintro (zero | ends)
      · exact Or.inl zero
      · exact Or.inr ⟨ends.pos, ends.le_length, ends⟩
    · rintro (zero | ⟨_, _, ends⟩)
      · exact Or.inl zero
      · exact Or.inr ends
  · rw [isTable]
    exact LineTable.lineCount_ofChars text

/-- Whatever has been asked of the indexes of two texts and of the text put together from them, the
lengths add up, and the line starts are those of the first text and then those of the second, moved
and without their zero; where the texts meet in one line break, without the last of the first. -/
theorem starts_concatenation (a b c : Settings) (s t : String) (steps : List (Step 3)) :
    let session := (build #v[⟨a, s⟩, ⟨b, t⟩, ⟨c, s ++ t⟩]).after steps
    let table := fun i : Fin 3 => (session.get i).table
    let starts := fun i : Fin 3 => (table i).starts.toList
    (table 2).length = (table 0).length + (table 1).length ∧
    (Joined s.toList t.toList →
      starts 2 = (starts 0).dropLast ++ (starts 1).tail.map ((table 0).length + ·)) ∧
    (¬ Joined s.toList t.toList →
      starts 2 = starts 0 ++ (starts 1).tail.map ((table 0).length + ·)) := by
  intro session table starts
  have isFirst : table 0 = .ofChars s.toList := table_after_build _ steps 0
  have isSecond : table 1 = .ofChars t.toList := table_after_build _ steps 1
  have isBoth : table 2 = .ofChars (s.toList ++ t.toList) := by
    rw [← String.toList_append]
    exact table_after_build _ steps 2
  simp only [starts, isFirst, isSecond, isBoth, LineTable.length_ofChars]
  refine ⟨List.length_append, ?_, ?_⟩
  · intro joined
    exact LineTable.starts_append_of_joined joined
  · intro apart
    exact LineTable.starts_append apart

end Session
end Lineation
