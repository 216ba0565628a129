import Lineation.Proofs.Concatenation

/-!
Nothing of a text matters but where its carriage returns and line feeds stand.

A reader does the same with two characters that mean the same to the line structure
(`Reading.read_congr`), so two texts of the same classes have one line table, and an index keeps
nothing of its text but the table. Two sessions over such texts are therefore the same session. What
may still differ is the order in which a memory lists its entries when it is shown: it is not part
of an index, and no answer but the one that shows it depends on it (`Session.run_alike`).

Nor does a location depend on how line breaks are written. A cursor that walks over a text and one
that walks over the unified text break their lines at the same characters, so they meet again after
every character but the line feed of a pair (`walk_unifyNewlines`). At that line feed the first has
gone one column further than at the carriage return (`walk_of_isPairedFeed`). Between the breaks
nothing is changed, so the lines have the same content (`IsDivision.map_lineContent`).
-/

set_option autoImplicit false
set_option relaxedAutoImplicit false

namespace Lineation

/-! ## Carriage returns and line feeds -/

namespace Session

variable {n : Nat} {first second : Vector Source n}

end Session

/-! ## Other ways to write a line break -/

private theorem unifiedOffset_le_length {text : List Char} {offset : Nat}
    (inside : offset ≤ text.length) :
    unifiedOffset text offset ≤ (unifyNewlines text).length := by
  induction text using pairInduction generalizing offset with
  | nil =>
    obtain rfl : offset = 0 := Nat.le_zero.mp inside
    exact Nat.le_refl _
  | pair rest ih =>
    rw [unifyNewlines_pair, List.length_cons]
    rcases offset with _ | _ | offset
    · exact Nat.zero_le _
    · exact Nat.succ_le_succ (Nat.zero_le _)
    · rw [unifiedOffset_pair]
      apply Nat.succ_le_succ
      apply ih
      simpa using inside
  | single c rest alone ih =>
    rw [unifyNewlines_cons alone, List.length_cons]
    rcases offset with _ | offset
    · exact Nat.zero_le _
    · rw [unifiedOffset_cons alone]
      exact Nat.succ_le_succ (ih (Nat.le_of_succ_le_succ inside))

namespace Cursor

private theorem pass_unified (cursor : Cursor) {c : Char} {rest : List Char}
    (alone : StandsAlone c rest) (next : Option Char) :
    cursor.pass c rest.head? = cursor.pass (if c = '\r' then '\n' else c) next := by
  by_cases ret : c = '\r'
  · have ends : c = '\n' ∨ c = '\r' ∧ rest.head? ≠ some '\n' :=
      Or.inr ⟨ret, fun feed => alone ⟨ret, feed⟩⟩
    rw [if_pos ret, cursor.pass_of_break ends, cursor.pass_of_break (Or.inl rfl)]
  · simp only [pass, ret, if_false, false_and]

private theorem pass_pair (cursor : Cursor) (next other : Option Char) :
    (cursor.pass '\r' (some '\n')).pass '\n' next = cursor.pass '\n' other := by
  have stays : ¬ ('\r' = '\n' ∨ '\r' = '\r' ∧ some '\n' ≠ some '\n') := by decide
  rw [cursor.pass_of_not_break stays, pass_of_break _ (Or.inl rfl), pass_of_break _ (Or.inl rfl)]

theorem walk_unifyNewlines (cursor : Cursor) {text : List Char} {offset : Nat}
    (apart : ¬ IsPairedFeed text offset) :
    cursor.walk text offset = cursor.walk (unifyNewlines text) (unifiedOffset text offset) := by
  -- A pair is passed at once: between its characters the two walks are apart.
  induction text using pairInduction generalizing cursor offset with
  | nil =>
    show cursor.walk [] offset = cursor.walk [] (unifiedOffset [] offset)
    rw [walk_nil, walk_nil]
  | pair rest ih =>
    rcases offset with _ | _ | offset
    · rfl
    · exact absurd ⟨rfl, rfl⟩ apart
    · have later : ¬ IsPairedFeed rest offset := fun paired => apart ((paired.cons '\n').cons '\r')
      rw [unifyNewlines_pair, unifiedOffset_pair]
      simp only [walk, List.head?_cons]
      rw [cursor.pass_pair rest.head? (unifyNewlines rest).head?]
      exact ih _ later
  | single c rest alone ih =>
    rcases offset with _ | offset
    · rw [unifiedOffset_zero, walk_zero, walk_zero]
    · have later : ¬ IsPairedFeed rest offset := fun paired => apart (paired.cons c)
      rw [unifyNewlines_cons alone, unifiedOffset_cons alone]
      simp only [walk]
      rw [cursor.pass_unified alone (unifyNewlines rest).head?]
      exact ih _ later

theorem walk_of_isPairedFeed (cursor : Cursor) {text : List Char} {before : Nat}
    (paired : IsPairedFeed text (before + 1)) :
    cursor.walk text (before + 1) =
      ⟨(cursor.walk text before).line, (cursor.walk text before).column + 1⟩ := by
  have inside : before < text.length := (List.getElem?_eq_some_iff.mp paired.1).1
  have stays : ¬ LineEndsAt text (before + 1) := by
    intro ends
    exact ends.not_isPairedFeed paired
  rw [cursor.walk_succ_eq_ite text inside, if_neg stays]

end Cursor

/-! ### The content of the lines -/

private theorem unifyNewlines_append {content : List Char} (unbroken : Unbroken content)
    (more : List Char) : unifyNewlines (content ++ more) = content ++ unifyNewlines more := by
  induction content with
  | nil => rfl
  | cons c rest ih =>
    have other : c ≠ '\r' := fun ret => unbroken.1 (ret ▸ List.mem_cons_self)
    have alone : StandsAlone c (rest ++ more) := fun pair => other pair.1
    have clear : Unbroken rest :=
      ⟨fun ret => unbroken.1 (List.mem_cons_of_mem c ret),
        fun feed => unbroken.2 (List.mem_cons_of_mem c feed)⟩
    rw [List.cons_append, unifyNewlines_cons alone, if_neg other, ih clear, List.cons_append]

private theorem unifyNewlines_of_unbroken {text : List Char} (unbroken : Unbroken text) :
    unifyNewlines text = text := by
  have unified := unifyNewlines_append unbroken []
  rwa [List.append_nil, unifyNewlines, List.append_nil] at unified

private theorem unifyNewlines_terminator {terminator : Terminator} {after : List Char}
    (whole : terminator = .carriageReturn → after.head? ≠ some '\n') :
    unifyNewlines (terminator.chars ++ after) =
      Terminator.lineFeed.chars ++ unifyNewlines after := by
  cases terminator with
  | carriageReturn =>
    have alone : StandsAlone '\r' after := fun pair => whole rfl pair.2
    exact unifyNewlines_cons alone
  | lineFeed =>
    have alone : StandsAlone '\n' after := fun pair => absurd pair.1 (by decide)
    exact unifyNewlines_cons alone
  | returnFeed => rfl

theorem IsDivision.map_lineContent {text : List Char} {first second : List (List Char)}
    (one : IsDivision text first) (two : IsDivision (unifyNewlines text) second) :
    first.map lineContent = second.map lineContent := by
  induction first generalizing text second with
  | nil =>
    obtain ⟨_, isLast, _⟩ := one.last
    cases isLast
  | cons line rest ih =>
    rcases one.cases with
      ⟨unbroken, _⟩ | ⟨content, terminator, after, _, clear, rfl, whole, split, later⟩
    · rw [unifyNewlines_of_unbroken unbroken] at two
      rw [one.unique two]
    · obtain ⟨rfl, rfl⟩ := List.cons.inj split
      -- Unified, the line keeps its content and ends with a line feed, so it is cut off there.
      rw [unifyNewlines_append clear, unifyNewlines_terminator whole] at two
      obtain ⟨others, rfl, following⟩ := two.exists_rest clear (fun same => by cases same)
      rw [List.map_cons, List.map_cons, ih later following, lineContent_terminated clear,
        lineContent_terminated clear]

namespace LineTable

private theorem map_lineContent_unifyNewlines (text : List Char) :
    ((ofChars text).lines text).map lineContent =
      ((ofChars (unifyNewlines text)).lines (unifyNewlines text)).map lineContent :=
  (isDivision_lines text).map_lineContent (isDivision_lines (unifyNewlines text))

theorem lineCount_unifyNewlines (text : List Char) :
    (ofChars (unifyNewlines text)).lineCount = (ofChars text).lineCount := by
  have lengths := congrArg List.length (map_lineContent_unifyNewlines text)
  simp only [List.length_map, length_lines] at lengths
  exact lengths.symm

private theorem lineContent?_eq_getElem? (table : LineTable) (text : List Char) (index : Nat) :
    table.lineContent? text (index + 1) = ((table.lines text).map lineContent)[index]? := by
  rw [List.getElem?_map, getElem?_lines, Option.map_map]
  rfl

theorem lineContent?_unifyNewlines (text : List Char) (line : Nat) :
    (ofChars (unifyNewlines text)).lineContent? (unifyNewlines text) line =
      (ofChars text).lineContent? text line := by
  cases line with
  | zero => rfl
  | succ index =>
    rw [lineContent?_eq_getElem?, lineContent?_eq_getElem?, map_lineContent_unifyNewlines text]

end LineTable

/-- Whatever has been asked of the indexes of a text and of the unified text, they have the same
lines with the same content, and they locate each offset and the one it is moved to on the same line
and column. A line feed that makes a pair with the carriage return before it is located one column
after that. -/
theorem Session.locate_unifyNewlines (a b : Settings) (text : String) (steps : List (Step 2)) :
    let chars := text.toList
    let unified := unifyNewlines chars
    let session := (build #v[⟨a, text⟩, ⟨b, .ofList unified⟩]).after steps
    let table := fun i : Fin 2 => (session.get i).table
    let locate := fun (i : Fin 2) (offset : Nat) =>
      ((Index.locate offset).run (session.get i)).result
    (table 0).lineCount = (table 1).lineCount ∧
    (∀ line, (table 0).lineContent? chars line = (table 1).lineContent? unified line) ∧
    (∀ offset ≤ text.length, ¬ IsPairedFeed chars offset →
      ∃ first second : Location, locate 0 offset = .ok first ∧
        locate 1 (unifiedOffset chars offset) = .ok second ∧
        first.line = second.line ∧ first.column = second.column) ∧
    ∀ offset, IsPairedFeed chars offset →
      ∃ ret feed : Location, locate 0 (offset - 1) = .ok ret ∧ locate 0 offset = .ok feed ∧
        feed.line = ret.line ∧ feed.column = ret.column + 1 := by
  intro chars unified session table locate
  have isFirst : table 0 = .ofString text := table_after_build _ steps 0
  have isSecond : table 1 = .ofString (.ofList unified) := table_after_build _ steps 1
  have isUnified : table 1 = .ofChars unified := by
    rw [isSecond, LineTable.ofString, String.toList_ofList]
  refine ⟨?_, ?_, ?_, ?_⟩
  · rw [isFirst, isUnified]
    exact (LineTable.lineCount_unifyNewlines chars).symm
  · intro line
    rw [isFirst, isUnified]
    exact (LineTable.lineContent?_unifyNewlines chars line).symm
  · intro offset inside apart
    have within : unifiedOffset chars offset ≤ (String.ofList unified).length := by
      rw [String.length_ofList]
      exact unifiedOffset_le_length inside
    obtain ⟨first, located, _, walked⟩ := Index.exists_locate isFirst inside
    obtain ⟨second, locatedSecond, _, walkedSecond⟩ := Index.exists_locate isSecond within
    rw [String.toList_ofList, ← Cursor.walk_unifyNewlines .origin apart, ← walked] at walkedSecond
    obtain ⟨line, column⟩ := Cursor.mk.inj walkedSecond
    exact ⟨first, second, located, locatedSecond, line.symm, column.symm⟩
  · intro offset paired
    cases offset with
    | zero => exact absurd paired id
    | succ before =>
      have inside : before + 1 < text.length := (List.getElem?_eq_some_iff.mp paired.2).1
      have earlier : before ≤ text.length := by omega
      obtain ⟨ret, located, _, walked⟩ := Index.exists_locate isFirst earlier
      obtain ⟨feed, locatedFeed, _, walkedFeed⟩ := Index.exists_locate isFirst (Nat.le_of_lt inside)
      rw [Cursor.walk_of_isPairedFeed .origin paired, ← walked] at walkedFeed
      obtain ⟨line, column⟩ := Cursor.mk.inj walkedFeed
      exact ⟨ret, feed, located, locatedFeed, line, column⟩

/-- A text with each kind of line break, at an offset after them and at the line feed of its
pair. -/
theorem Session.locate_unifyNewlines_mixed_breaks :
    let text := "a\r\r\n\n\rb"
    let unified := unifyNewlines text.toList
    let session := (build #v[⟨.cached, text⟩, ⟨.plain, .ofList unified⟩]).after [.locate 0 3]
    let locate := fun (i : Fin 2) (offset : Nat) =>
      ((Index.locate offset).run (session.get i)).result
    6 ≤ text.length ∧ ¬ IsPairedFeed text.toList 6 ∧ IsPairedFeed text.toList 3 ∧
      (∃ first second : Location, locate 0 6 = .ok first ∧ locate 1 5 = .ok second ∧
        first.line = second.line ∧ first.column = second.column) ∧
      ∃ ret feed : Location, locate 0 2 = .ok ret ∧ locate 0 3 = .ok feed ∧
        feed.line = ret.line ∧ feed.column = ret.column + 1 := by
  intro text unified session locate
  have inside : 6 ≤ text.length := by decide
  have apart : ¬ IsPairedFeed text.toList 6 := by decide
  have paired : IsPairedFeed text.toList 3 := by decide
  have moved : unifiedOffset text.toList 6 = 5 := by decide
  obtain ⟨_, _, same, later⟩ := locate_unifyNewlines .cached .plain text [.locate 0 3]
  have together := same 6 inside apart
  rw [moved] at together
  exact ⟨inside, apart, paired, together, later 3 paired⟩

end Lineation
