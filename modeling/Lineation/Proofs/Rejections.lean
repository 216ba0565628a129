import Lineation.Proofs.Ordering

/-!
Which offsets and spans are rejected, and with which failure.

A failure keeps the offset that was asked for, or the greatest signed number where that one is too
great to keep. As long as the text is shorter than that number, the offset kept lies outside the
text too (`OutOfRange.IsOutside`), so asking for it fails in the same way: a failure can be had
again from what it says (`LineTable.locateSigned_of_isOutside`).

Whether a span is located depends only on the exact sum of its base and its length. A span that has
no stop because the sum is too great for an offset reaches beyond every text, so it is rejected for
its stop as any other that reaches too far: the greatest signed offset, which stands for the missing
stop, is what the exact sum would be clamped to. The start goes first: if it lies beyond the end,
the failure names it and not the stop.
-/

set_option autoImplicit false
set_option relaxedAutoImplicit false

namespace Lineation

/-- The failure is about a text of this length and names a signed offset that lies outside it. -/
structure OutOfRange.IsOutside (failure : OutOfRange) (length : Nat) : Prop where
  length_eq : failure.length = length
  outside : failure.offset < 0 ∨ length < failure.offset
  signed : failure.offset ≤ maxSigned

private theorem clampSigned_le (offset : Nat) : clampSigned offset ≤ maxSigned :=
  Int.ofNat_le.mpr (Nat.min_le_right offset maxSigned)

private theorem lt_clampSigned {length offset : Nat} (short : length < maxSigned)
    (beyond : length < offset) : length < clampSigned offset :=
  Int.ofNat_lt.mpr (Nat.lt_min.mpr ⟨beyond, short⟩)

namespace OutOfRange.IsOutside

variable {length : Nat}

theorem ofOffset {offset : Nat} (short : length < maxSigned) (beyond : length < offset) :
    (OutOfRange.ofOffset offset length).IsOutside length :=
  ⟨rfl, Or.inr (lt_clampSigned short beyond), clampSigned_le offset⟩

theorem unending (short : length < maxSigned) : IsOutside ⟨maxSigned, length⟩ length :=
  ⟨rfl, Or.inr (Int.ofNat_lt.mpr short), Int.le_refl _⟩

theorem negative {offset : Int} (negative : offset < 0) : IsOutside ⟨offset, length⟩ length :=
  ⟨rfl, Or.inl negative, Int.le_trans (Int.le_of_lt negative) (Int.natCast_nonneg _)⟩

end OutOfRange.IsOutside

namespace LineTable

variable {table : LineTable} {failure : OutOfRange}

private theorem locate_eq_error_iff (table : LineTable) (offset : Nat) (failure : OutOfRange) :
    table.locate offset = .error failure ↔
      table.length < offset ∧ failure = .ofOffset offset table.length := by
  unfold locate
  by_cases inside : offset ≤ table.length
  · simp only [if_pos inside, reduceCtorEq, false_iff]
    omega
  · rw [if_neg inside, Except.error.injEq, eq_comm]
    exact (and_iff_right (Nat.lt_of_not_le inside)).symm

theorem locateSigned_eq_error_iff (table : LineTable) {offset : Int} (fits : offset ≤ maxSigned)
    (failure : OutOfRange) :
    table.locateSigned offset = .error failure ↔
      (offset < 0 ∨ table.length < offset) ∧ failure = ⟨offset, table.length⟩ := by
  unfold locateSigned
  by_cases negative : offset < 0
  · rw [if_pos negative, Except.error.injEq, eq_comm]
    exact (and_iff_right (Or.inl negative)).symm
  · obtain ⟨unsigned, rfl⟩ := Int.eq_ofNat_of_zero_le (Int.not_lt.mp negative)
    have kept : clampSigned unsigned = unsigned := clampSigned_of_le (Int.ofNat_le.mp fits)
    rw [if_neg negative, Int.toNat_natCast, locate_eq_error_iff, OutOfRange.ofOffset, kept]
    simp only [negative, false_or, Int.ofNat_lt]

private theorem locateSigned_of_isOutside (isOutside : failure.IsOutside table.length) :
    table.locateSigned failure.offset = .error failure := by
  obtain ⟨isLength, outside, signed⟩ := isOutside
  apply (table.locateSigned_eq_error_iff signed failure).mpr
  refine ⟨outside, ?_⟩
  rw [← isLength]

private theorem isOutside_of_locate {offset : Nat} (short : table.length < maxSigned)
    (failed : table.locate offset = .error failure) : failure.IsOutside table.length := by
  obtain ⟨beyond, rfl⟩ := (table.locate_eq_error_iff offset failure).mp failed
  exact .ofOffset short beyond

private theorem isOutside_of_locateSigned {offset : Int} (short : table.length < maxSigned)
    (failed : table.locateSigned offset = .error failure) : failure.IsOutside table.length := by
  unfold locateSigned at failed
  by_cases negative : offset < 0
  · rw [if_pos negative] at failed
    obtain rfl := Except.error.inj failed
    exact .negative negative
  · rw [if_neg negative] at failed
    exact isOutside_of_locate short failed

/-- A span is rejected for its start, for having no stop, or for its stop, in this order. -/
private theorem locateSpan_eq_error {span : Span}
    (failed : table.locateSpan span = .error failure) :
    table.locate span.base = .error failure ∨
      span.stop? = none ∧ failure = ⟨maxSigned, table.length⟩ ∨
      ∃ stop, span.stop? = some stop ∧ table.locate stop = .error failure := by
  rcases error_or_of_bind_eq_error failed with starts | ⟨start, _, rest⟩
  · exact Or.inl starts
  · cases stops : span.stop? with
    | none =>
      rw [stops] at rest
      exact Or.inr (Or.inl ⟨rfl, (Except.error.inj rest).symm⟩)
    | some stop =>
      rw [stops] at rest
      rcases error_or_of_bind_eq_error rest with beyond | ⟨_, _, made⟩
      · exact Or.inr (Or.inr ⟨stop, rfl, beyond⟩)
      · cases made

private theorem isOutside_of_locateSpan {span : Span} (short : table.length < maxSigned)
    (failed : table.locateSpan span = .error failure) : failure.IsOutside table.length := by
  rcases locateSpan_eq_error failed with starts | ⟨_, rfl⟩ | ⟨stop, _, stops⟩
  · exact isOutside_of_locate short starts
  · exact .unending short
  · exact isOutside_of_locate short stops

end LineTable

namespace Session

variable {n : Nat}

/-- Each failure of this step is about the text of the index, names an offset outside it, and comes
back whenever that offset is asked for, whatever is asked between. -/
def Replays (session : Session n) (i : Fin n) (step : Step n) : Prop :=
  ∀ failure, ((perform step).run session).result = .error failure →
    failure.length = session.lengths i ∧
      ¬ (0 ≤ failure.offset ∧ failure.offset ≤ session.lengths i) ∧
      ∀ later, ((perform (.locateSigned i failure.offset)).run (session.after later)).result =
        .error failure

private theorem Replays.of_reads {α : Type} {session : Session n} {i : Fin n} {step : Step n}
    {lookup : Lookup Index α} {form : α → Answer} {answer : LineTable → Except OutOfRange α}
    (isStep : perform step = form <$> lookup.focus i)
    (reads : lookup.Reads Index.table answer)
    (isOutside : ∀ failure, answer (session.tables i) = .error failure →
      failure.IsOutside (session.lengths i)) : session.Replays i step := by
  intro failure failed
  rw [isStep, Lookup.result_map_eq_error_iff, (reads.focus i).result] at failed
  have rejects := isOutside failure failed
  have outside := rejects.outside
  refine ⟨rejects.length_eq, by omega, ?_⟩
  intro later
  have kept : (session.after later).tables i = session.tables i :=
    congrFun (session.tables_after later) i
  apply (Lookup.result_map_eq_error_iff _ _ _ failure).mpr
  rw [((Index.reads_locateSigned failure.offset).focus i).result]
  show ((session.after later).tables i).locateSigned failure.offset = .error failure
  rw [kept]
  exact LineTable.locateSigned_of_isOutside rejects

end Session

/-- Whatever has been asked, an index rejects just the offsets outside its text. A failure names the
length of the text and the offset asked for, clamped if it exceeds the signed numbers; and if the
text is shorter than the greatest of these, whatever offset a failure names is rejected with the
very same failure. -/
theorem Session.failures_replay {n : Nat} (sources : Vector Source n) (steps : List (Step n))
    (i : Fin n) :
    let length := (sources.get i).text.length
    let session := (build sources).after steps
    let index := session.get i
    (∀ (offset : Nat) (failure : OutOfRange),
      ((Index.locate offset).run index).result = .error failure ↔
        length < offset ∧ failure = ⟨(min offset maxSigned : Nat), length⟩) ∧
    (∀ (offset : Int) (failure : OutOfRange), offset ≤ maxSigned →
      (((Index.locateSigned offset).run index).result = .error failure ↔
        (offset < 0 ∨ length < offset) ∧ failure = ⟨offset, length⟩)) ∧
    (∀ offset : Nat, (Index.locateSigned offset).run index = (Index.locate offset).run index) ∧
    (length < maxSigned →
      (∀ offset, session.Replays i (.locate i offset)) ∧
      (∀ offset, session.Replays i (.locateSigned i offset)) ∧
      ∀ span, session.Replays i (.locateSpan i span)) := by
  intro length session index
  have isTable : index.table = .ofString (sources.get i).text := table_after_build sources steps i
  have isLength : index.table.length = length := by rw [isTable, LineTable.length_ofString]
  refine ⟨?_, ?_, ?_, ?_⟩
  · intro offset failure
    rw [(Index.reads_locate offset).result, LineTable.locate_eq_error_iff, isLength]
    exact Iff.rfl
  · intro offset failure fits
    rw [(Index.reads_locateSigned offset).result, LineTable.locateSigned_eq_error_iff _ fits,
      isLength]
  · intro offset
    rw [Index.locateSigned, if_neg (Int.not_lt.mpr (Int.natCast_nonneg offset)), Int.toNat_natCast]
  · intro short
    have room : index.table.length < maxSigned := isLength.symm ▸ short
    refine ⟨?_, ?_, ?_⟩
    · intro offset
      apply Replays.of_reads rfl (Index.reads_locate offset)
      intro failure failed
      exact LineTable.isOutside_of_locate room failed
    · intro offset
      apply Replays.of_reads rfl (Index.reads_locateSigned offset)
      intro failure failed
      exact LineTable.isOutside_of_locateSigned room failed
    · intro span
      apply Replays.of_reads rfl (Index.reads_locateSpan span)
      intro failure failed
      exact LineTable.isOutside_of_locateSpan room failed

/-- The greatest and the least offset that can be asked for, and a span that has no stop. -/
theorem Session.failures_replay_at_limits :
    let sources : Vector Source 1 := #v[⟨.cached, "ab\r\n"⟩]
    let session := (build sources).after [.locate 0 2]
    let unending : Step 1 := .locateSpan 0 ⟨1, maxOffset⟩
    (sources.get 0).text.length < maxSigned ∧
      ((Index.locate maxOffset).run (session.get 0)).result = .error ⟨maxSigned, 4⟩ ∧
      ((Index.locateSigned (-maxSigned - 1)).run (session.get 0)).result =
        .error ⟨-maxSigned - 1, 4⟩ ∧
      ((perform unending).run session).result = .error ⟨maxSigned, 4⟩ ∧
      session.Replays 0 unending := by
  intro sources session unending
  obtain ⟨rejected, signed, _, replays⟩ := failures_replay sources [.locate 0 2] 0
  have short : (sources.get 0).text.length < maxSigned := by decide
  refine ⟨short, ?_, ?_, ?_, (replays short).2.2 _⟩
  · exact (rejected maxOffset _).mpr (by decide)
  · exact (signed (-maxSigned - 1) _ (by decide)).mpr (by decide)
  · have isTable : session.tables 0 = .ofString "ab\r\n" := table_after_build sources _ 0
    apply (Lookup.result_map_eq_error_iff _ _ _ _).mpr
    rw [((Index.reads_locateSpan _).focus 0).result]
    show (session.tables 0).locateSpan ⟨1, maxOffset⟩ = .error ⟨maxSigned, 4⟩
    rw [isTable]
    rfl

/-! ## Spans are located as if offsets had no end -/

/-- The offset for which a span is rejected by a text of this length: its start if that lies beyond
the end, else its exact stop. -/
def Span.rejected (span : Span) (length : Nat) : Nat :=
  if length < span.base then span.base else span.base + span.length

namespace LineTable

variable {table : LineTable} {span : Span}

private theorem locateSpan_of_base_le (starts : span.base ≤ table.length) :
    table.locateSpan span =
      match span.stop? with
      | some stop => (table.locate stop).map (SpanLocation.mk (table.place span.base))
      | none => .error ⟨maxSigned, table.length⟩ := by
  have first : table.locate span.base = .ok (table.place span.base) :=
    (table.locate_eq_ok_iff _ _).mpr ⟨starts, rfl⟩
  simp only [locateSpan, first]
  cases span.stop? with
  | none => rfl
  | some stop => cases table.locate stop <;> rfl

theorem locateSpan_of_le (fits : table.length ≤ maxOffset)
    (inside : span.base + span.length ≤ table.length) :
    table.locateSpan span =
      .ok ⟨table.place span.base, table.place (span.base + span.length)⟩ := by
  have starts : span.base ≤ table.length := Nat.le_trans (Nat.le_add_right _ _) inside
  have stops : span.stop? = some (span.base + span.length) :=
    (span.stop?_eq_some_iff _).mpr ⟨rfl, Nat.le_trans inside fits⟩
  have last : table.locate (span.base + span.length) =
      .ok (table.place (span.base + span.length)) :=
    (table.locate_eq_ok_iff _ _).mpr ⟨inside, rfl⟩
  simp only [locateSpan_of_base_le starts, stops, last, Except.map]

private theorem locateSpan_of_lt (outside : table.length < span.base + span.length) :
    table.locateSpan span = .error (.ofOffset (span.rejected table.length) table.length) := by
  unfold Span.rejected
  rcases Nat.lt_or_ge table.length span.base with beyond | starts
  · have first : table.locate span.base = .error (.ofOffset span.base table.length) :=
      (table.locate_eq_error_iff _ _).mpr ⟨beyond, rfl⟩
    rw [if_pos beyond, locateSpan, first]
    rfl
  · rw [if_neg (Nat.not_lt.mpr starts), locateSpan_of_base_le starts]
    cases stops : span.stop? with
    | none =>
      have great := Nat.le_of_lt (span.stop?_eq_none_iff.mp stops)
      rw [OutOfRange.ofOffset, clampSigned_of_maxOffset_le great]
    | some stop =>
      obtain ⟨rfl, _⟩ := (span.stop?_eq_some_iff stop).mp stops
      have last : table.locate (span.base + span.length) =
          .error (.ofOffset (span.base + span.length) table.length) :=
        (table.locate_eq_error_iff _ _).mpr ⟨outside, rfl⟩
      show (table.locate (span.base + span.length)).map _ = _
      rw [last, Except.map]

theorem locateSpan_eq_ok_iff (fits : table.length ≤ maxOffset) (found : SpanLocation) :
    table.locateSpan span = .ok found ↔
      span.base + span.length ≤ table.length ∧
        found = ⟨table.place span.base, table.place (span.base + span.length)⟩ := by
  by_cases inside : span.base + span.length ≤ table.length
  · rw [locateSpan_of_le fits inside, Except.ok.injEq, eq_comm]
    exact (and_iff_right inside).symm
  · rw [locateSpan_of_lt (Nat.lt_of_not_le inside)]
    simp only [reduceCtorEq, inside, false_and]

end LineTable

namespace Session

/-- Whatever has been asked, an index locates a span just when its exact stop lies in the text. Then
its ends are the locations of its start and its stop, in the order of their lines and columns, and
they are as far apart as the span is long. Otherwise the failure names the start, or, if that lies
in the text, the exact stop, clamped in both cases; that includes a span that has no stop. -/
theorem locateSpan_exact {n : Nat} (sources : Vector Source n) (steps : List (Step n)) (i : Fin n)
    (span : Span) (fits : (sources.get i).text.length ≤ maxOffset) :
    let length := (sources.get i).text.length
    let index := ((build sources).after steps).get i
    let stop := span.base + span.length
    let located := ((Index.locateSpan span).run index).result
    ((∃ found, located = .ok found) ↔ stop ≤ length) ∧
    (∀ found, located = .ok found →
      ((Index.locate span.base).run index).result = .ok found.start ∧
      ((Index.locate stop).run index).result = .ok found.stop ∧
      (compare found.start.cursor found.stop.cursor).isLE = true ∧
      (found.start.cursor = found.stop.cursor ↔ span.length = 0) ∧
      ∃ first last, index.table.lineStart? found.start.line = some first ∧
        index.table.lineStart? found.stop.line = some last ∧
        first + found.start.column + span.length = last + found.stop.column) ∧
    (length < stop → located =
      .error ⟨(min (if length < span.base then span.base else stop) maxSigned : Nat), length⟩) ∧
    (span.base ≤ length → span.stop? = none →
      located = .error ⟨maxSigned, length⟩ ∧ clampSigned (min stop maxOffset) = maxSigned) := by
  intro length index stop located
  have isTable : index.table = .ofString (sources.get i).text := table_after_build sources steps i
  have isLength : index.table.length = length := by rw [isTable, LineTable.length_ofString]
  have room : index.table.length ≤ maxOffset := isLength.symm ▸ fits
  have answers : located = index.table.locateSpan span :=
    (Index.reads_locateSpan span).result index
  have isOk : ∀ found, located = .ok found ↔
      stop ≤ length ∧ found = ⟨index.table.place span.base, index.table.place stop⟩ := by
    intro found
    rw [answers, LineTable.locateSpan_eq_ok_iff room, isLength]
  have rejected : length < stop → located = .error (.ofOffset (span.rejected length) length) := by
    intro outside
    rw [answers, LineTable.locateSpan_of_lt (isLength.symm ▸ outside), isLength]
  refine ⟨⟨?_, ?_⟩, ?_, rejected, ?_⟩
  · rintro ⟨found, isFound⟩
    exact ((isOk found).mp isFound).1
  · intro inside
    exact ⟨_, (isOk _).mpr ⟨inside, rfl⟩⟩
  · intro found isFound
    obtain ⟨inside, rfl⟩ := (isOk found).mp isFound
    have stops : stop ≤ index.table.length := isLength.symm ▸ inside
    have starts : span.base ≤ index.table.length := Nat.le_trans (Nat.le_add_right _ _) stops
    refine ⟨Index.result_locate_of_le starts, Index.result_locate_of_le stops, ?_, ?_, ?_⟩
    · rw [LineTable.compare_cursor_place, Nat.isLE_compare]
      exact Nat.le_add_right _ _
    · rw [LineTable.cursor_place_inj]
      omega
    · obtain ⟨first, isFirst, _, fromFirst, _⟩ := LineTable.exists_extent_of_place starts
      obtain ⟨last, isLast, _, fromLast, _⟩ := LineTable.exists_extent_of_place stops
      have firstColumn := (index.table.place span.base).column_pos
      have lastColumn := (index.table.place stop).column_pos
      refine ⟨first.start, last.start, isFirst, isLast, ?_⟩
      dsimp only
      omega
  · intro starts unending
    have great := span.stop?_eq_none_iff.mp unending
    have outside : length < stop := Nat.lt_of_le_of_lt fits great
    have named : span.rejected length = stop := if_neg (Nat.not_lt.mpr starts)
    rw [rejected outside, OutOfRange.ofOffset, named, Nat.min_eq_right (Nat.le_of_lt great),
      clampSigned_of_maxOffset_le (Nat.le_of_lt great)]
    exact ⟨rfl, clampSigned_of_maxOffset_le (Nat.le_refl _)⟩

/-- A span over a line break, one that has no stop, and one that has no start in the text either. -/
theorem locateSpan_exact_at_limits :
    let sources : Vector Source 1 := #v[⟨.cached, "a\r\nb"⟩]
    let index := ((build sources).after [.locate 0 2]).get 0
    let locateSpan := fun span => ((Index.locateSpan span).run index).result
    (sources.get 0).text.length ≤ maxOffset ∧
      (∃ found, locateSpan ⟨1, 3⟩ = .ok found ∧ found.start.cursor ≠ found.stop.cursor) ∧
      locateSpan ⟨1, maxOffset⟩ = .error ⟨maxSigned, 4⟩ ∧
      locateSpan ⟨5, maxOffset⟩ = .error ⟨5, 4⟩ := by
  intro sources index locateSpan
  have fits : (sources.get 0).text.length ≤ maxOffset := by decide
  have length : (sources.get 0).text.length = 4 := by decide
  refine ⟨fits, ?_, ?_, ?_⟩
  · obtain ⟨accepted, places, _⟩ := locateSpan_exact sources [.locate 0 2] 0 ⟨1, 3⟩ fits
    obtain ⟨found, isFound⟩ := accepted.mpr (by decide)
    obtain ⟨_, _, _, apart, _⟩ := places found isFound
    exact ⟨found, isFound, mt apart.mp (by decide)⟩
  · obtain ⟨_, _, _, unending⟩ := locateSpan_exact sources [.locate 0 2] 0 ⟨1, maxOffset⟩ fits
    rw [length] at unending
    exact (unending (by decide) (by decide)).1
  · obtain ⟨_, _, rejected, _⟩ := locateSpan_exact sources [.locate 0 2] 0 ⟨5, maxOffset⟩ fits
    rw [length] at rejected
    exact rejected (by decide)

end Session
end Lineation
