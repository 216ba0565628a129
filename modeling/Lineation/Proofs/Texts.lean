import Lineation.Proofs.Rejections
import Std.Data.String.ToInt

/-!
What a reader can tell from a message.

Messages put decimal numbers beside each other with a character between them that no number has in
it, so there is one way to read the numbers back (`append_cons_inj`), and two messages are the same
just when their numbers are. The message of a location leaves out the offset, but no two places of
one text share both line and column, so it tells that too (`LineTable.text_place_inj`).
-/

set_option autoImplicit false
set_option relaxedAutoImplicit false

namespace Lineation

private theorem append_cons_inj {α : Type} {separator : α} {first second rest others : List α}
    (absent : separator ∉ first) (missing : separator ∉ second) :
    first ++ separator :: rest = second ++ separator :: others ↔
      first = second ∧ rest = others := by
  induction first generalizing second with
  | nil =>
    cases second with
    | nil => simp
    | cons c later =>
      have other : separator ≠ c := List.ne_of_not_mem_cons missing
      simp [other]
  | cons c earlier ih =>
    cases second with
    | nil =>
      have other : separator ≠ c := List.ne_of_not_mem_cons absent
      simp [Ne.symm other]
    | cons d later =>
      have tail := ih (List.not_mem_of_not_mem_cons absent) (List.not_mem_of_not_mem_cons missing)
      simp only [List.cons_append, List.cons.injEq, tail, and_assoc]

/-! ## Numbers -/

private theorem not_mem_toList_toString {c : Char} (other : c.isDigit = false) (number : Nat) :
    c ∉ (toString number).toList := by
  intro member
  rw [Nat.toString_eq_repr, Nat.toList_repr] at member
  rw [Nat.isDigit_of_mem_toDigits (by decide) (by decide) member] at other
  cases other

private theorem not_mem_toList_toString_int {c : Char} (other : c.isDigit = false)
    (noSign : c ≠ '-') (number : Int) : c ∉ (toString number).toList := by
  rw [Int.toString_eq_repr, Int.repr_eq_if]
  split
  · exact not_mem_toList_toString other _
  · rw [String.toList_append, List.mem_append]
    rintro (sign | digit)
    · exact noSign (List.mem_singleton.mp sign)
    · exact not_mem_toList_toString other _ digit

/-! ## Texts -/

private theorem Location.toList_text (location : Location) :
    location.text.toList =
      (toString location.line).toList ++ ':' :: (toString location.column).toList := by
  simp [text]

theorem Location.text_inj {a b : Location} : a.text = b.text ↔ a.cursor = b.cursor := by
  have apart (number : Nat) : ':' ∉ (toString number).toList :=
    not_mem_toList_toString (by decide) number
  rw [← String.toList_inj, toList_text, toList_text, append_cons_inj (apart _) (apart _)]
  simp only [String.toList_inj, Nat.toString_eq_repr, Nat.repr_inj, cursor, Cursor.mk.injEq]

private theorem Location.hyphen_not_mem_text (location : Location) :
    '-' ∉ location.text.toList := by
  have apart (number : Nat) : '-' ∉ (toString number).toList :=
    not_mem_toList_toString (by decide) number
  rw [toList_text, List.mem_append, List.mem_cons]
  rintro (line | colon | column)
  · exact apart _ line
  · exact absurd colon (by decide)
  · exact apart _ column

theorem SpanLocation.text_inj {a b : SpanLocation} :
    a.text = b.text ↔ a.start.cursor = b.start.cursor ∧ a.stop.cursor = b.stop.cursor := by
  have split (span : SpanLocation) :
      span.text.toList = span.start.text.toList ++ '-' :: span.stop.text.toList := by
    simp [text]
  rw [← String.toList_inj, split, split,
    append_cons_inj a.start.hyphen_not_mem_text b.start.hyphen_not_mem_text, String.toList_inj,
    String.toList_inj, Location.text_inj, Location.text_inj]

theorem OutOfRange.message_inj {a b : OutOfRange} :
    a.message = b.message ↔ a.offset = b.offset ∧ a.length = b.length := by
  have split (failure : OutOfRange) :
      failure.message.toList = "offset ".toList ++
        ((toString failure.offset).toList ++
          ' ' :: ("is out of range for a source of length ".toList ++
            (toString failure.length).toList)) := by
    simp [message]
  have apart (number : Int) : ' ' ∉ (toString number).toList :=
    not_mem_toList_toString_int (by decide) (by decide) number
  rw [← String.toList_inj, split, split, List.append_cancel_left_eq,
    append_cons_inj (apart _) (apart _), List.append_cancel_left_eq]
  simp only [String.toList_inj, Int.toString_eq_repr, Int.repr_inj, Nat.toString_eq_repr,
    Nat.repr_inj]

/-! ## What an index has located or rejected -/

namespace LineTable

variable {table : LineTable}

private theorem text_place_inj {a b : Nat} :
    (table.place a).text = (table.place b).text ↔ a = b := by
  rw [Location.text_inj, cursor_place_inj]

private theorem text_locateSpan_inj {a b : Span} {first second : SpanLocation}
    (one : table.locateSpan a = .ok first) (two : table.locateSpan b = .ok second) :
    first.text = second.text ↔ a = b := by
  obtain ⟨startsOne, stopsOne⟩ := locateSpan_eq_ok one
  obtain ⟨startsTwo, stopsTwo⟩ := locateSpan_eq_ok two
  rw [SpanLocation.text_inj, startsOne, stopsOne, startsTwo, stopsTwo, cursor_place_inj,
    cursor_place_inj]
  constructor
  · rintro ⟨base, stop⟩
    cases a
    cases b
    simp only [Span.mk.injEq] at *
    omega
  · rintro rfl
    exact ⟨rfl, rfl⟩

private theorem message_locateSigned_inj {a b : Int} {first second : OutOfRange}
    (fits : a ≤ maxSigned) (fitsToo : b ≤ maxSigned) (one : table.locateSigned a = .error first)
    (two : table.locateSigned b = .error second) : first.message = second.message ↔ a = b := by
  obtain ⟨_, rfl⟩ := (table.locateSigned_eq_error_iff fits first).mp one
  obtain ⟨_, rfl⟩ := (table.locateSigned_eq_error_iff fitsToo second).mp two
  rw [OutOfRange.message_inj]
  exact and_iff_left rfl

end LineTable

/-- The text of a location tells its line and column, that of a located span the lines and columns
of both places, and the message of a rejection its offset and the length. So, whatever has been
asked of an index at one time and at another, the texts of what it located then and now are the same
just when the offsets or the spans are, and the messages of two signed offsets that it rejected just
when these are. -/
theorem Session.texts_tell_apart {n : Nat} (sources : Vector Source n)
    (earlier later : List (Step n)) (i : Fin n) :
    let before := ((build sources).after earlier).get i
    let after := ((build sources).after later).get i
    (∀ a b : Location, a.text = b.text ↔ a.line = b.line ∧ a.column = b.column) ∧
    (∀ a b : SpanLocation, a.text = b.text ↔
      (a.start.line = b.start.line ∧ a.start.column = b.start.column) ∧
        a.stop.line = b.stop.line ∧ a.stop.column = b.stop.column) ∧
    (∀ a b : OutOfRange, a.message = b.message ↔ a.offset = b.offset ∧ a.length = b.length) ∧
    (∀ (a b : Nat) (first second : Location),
      ((Index.locate a).run before).result = .ok first →
      ((Index.locate b).run after).result = .ok second →
        (first.text = second.text ↔ a = b)) ∧
    (∀ (a b : Span) (first second : SpanLocation),
      ((Index.locateSpan a).run before).result = .ok first →
      ((Index.locateSpan b).run after).result = .ok second →
        (first.text = second.text ↔ a = b)) ∧
    ∀ (a b : Int) (first second : OutOfRange), a ≤ maxSigned → b ≤ maxSigned →
      ((Index.locateSigned a).run before).result = .error first →
      ((Index.locateSigned b).run after).result = .error second →
        (first.message = second.message ↔ a = b) := by
  intro before after
  have isTable : before.table = .ofString (sources.get i).text :=
    table_after_build sources earlier i
  have isTableToo : after.table = .ofString (sources.get i).text :=
    table_after_build sources later i
  refine ⟨?_, ?_, fun a b => OutOfRange.message_inj, ?_, ?_, ?_⟩
  · intro a b
    rw [Location.text_inj, Location.cursor, Location.cursor, Cursor.mk.injEq]
  · intro a b
    simp only [SpanLocation.text_inj, Location.cursor, Cursor.mk.injEq]
  · intro a b first second one two
    rw [(Index.reads_locate a).result, LineTable.locate_eq_ok_iff, isTable] at one
    rw [(Index.reads_locate b).result, LineTable.locate_eq_ok_iff, isTableToo] at two
    obtain ⟨_, rfl⟩ := one
    obtain ⟨_, rfl⟩ := two
    exact LineTable.text_place_inj
  · intro a b first second one two
    rw [(Index.reads_locateSpan a).result, isTable] at one
    rw [(Index.reads_locateSpan b).result, isTableToo] at two
    exact LineTable.text_locateSpan_inj one two
  · intro a b first second fits fitsToo one two
    rw [(Index.reads_locateSigned a).result, isTable] at one
    rw [(Index.reads_locateSigned b).result, isTableToo] at two
    exact LineTable.message_locateSigned_inj fits fitsToo one two

/-- Two places on either side of a line end, two spans with one stop, and the least signed offset
beside one beyond the end, asked of the index before and after it has located something. -/
theorem Session.texts_tell_apart_at_line_end :
    let sources : Vector Source 1 := #v[⟨.cached, "a\r\nb"⟩]
    let before := ((build sources).after []).get 0
    let after := ((build sources).after [.locate 0 3]).get 0
    let least : Int := -maxSigned - 1
    (∃ first second, ((Index.locate 2).run before).result = .ok first ∧
      ((Index.locate 3).run after).result = .ok second ∧ first.text ≠ second.text) ∧
    (∃ first second, ((Index.locateSpan ⟨0, 3⟩).run before).result = .ok first ∧
      ((Index.locateSpan ⟨1, 2⟩).run after).result = .ok second ∧ first.text ≠ second.text) ∧
    least ≤ maxSigned ∧ (5 : Int) ≤ maxSigned ∧
    ∃ first second, ((Index.locateSigned least).run before).result = .error first ∧
      ((Index.locateSigned 5).run after).result = .error second ∧
        first.message ≠ second.message := by
  intro sources before after least
  obtain ⟨_, _, _, places, spans, rejections⟩ := texts_tell_apart sources [] [.locate 0 3] 0
  have isTable : before.table = .ofString "a\r\nb" := table_after_build sources [] 0
  have isTableToo : after.table = .ofString "a\r\nb" := table_after_build sources [.locate 0 3] 0
  refine ⟨?_, ?_, by decide, by decide, ?_⟩
  · have one := result_locate_after_build sources [] 0 (by decide : 2 ≤ _)
    have two := result_locate_after_build sources [.locate 0 3] 0 (by decide : 3 ≤ _)
    exact ⟨_, _, one, two, mt (places 2 3 _ _ one two).mp (by decide)⟩
  · have one := (Index.reads_locateSpan ⟨0, 3⟩).result before
    have two := (Index.reads_locateSpan ⟨1, 2⟩).result after
    rw [isTable, LineTable.locateSpan_of_le (by decide) (by decide)] at one
    rw [isTableToo, LineTable.locateSpan_of_le (by decide) (by decide)] at two
    exact ⟨_, _, one, two, mt (spans _ _ _ _ one two).mp (by decide)⟩
  · have one : ((Index.locateSigned least).run before).result = .error ⟨least, 4⟩ := by
      rw [(Index.reads_locateSigned least).result, isTable]
      rfl
    have two : ((Index.locateSigned 5).run after).result = .error ⟨5, 4⟩ := by
      rw [(Index.reads_locateSigned 5).result, isTableToo]
      rfl
    have differ := mt (rejections least 5 _ _ (by decide) (by decide) one two).mp (by decide)
    exact ⟨_, _, one, two, differ⟩

end Lineation
