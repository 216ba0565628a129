import Lineation.Location

/-!
Offsets as callers name them: their finite ranges, the ones that a text does not have, and spans.

Offsets, lengths, lines and columns are natural numbers here, and arithmetic on them is exact. Two
ranges still matter, because a caller can only name a number inside them: unsigned numbers end at
`maxOffset` and signed numbers at `maxSigned`. A sum that leaves the first range has no offset, and
an offset that leaves the second is reported as the greatest signed one.

A lookup fails in one way only: the offset asked for is negative or lies beyond the end. The length
of a text is itself an offset inside it, that of its end. A span is written down as its base and its
length. Where it stops is their sum, and a sum beyond `maxOffset` is no offset, so a span may have
no stop.
-/

set_option autoImplicit false
set_option relaxedAutoImplicit false

namespace Lineation

def maxOffset : Nat := Nat.pow 2 64 - 1

def maxSigned : Nat := Nat.pow 2 63 - 1

def addOffsets? (a b : Nat) : Option Nat :=
  if a + b ≤ maxOffset then some (a + b) else none

/-- An offset as a signed number; the greatest signed number stands for all that lie beyond it. -/
def clampSigned (offset : Nat) : Int := (min offset maxSigned : Nat)

private theorem addOffsets?_eq_some_iff (a b sum : Nat) :
    addOffsets? a b = some sum ↔ a + b = sum ∧ sum ≤ maxOffset := by
  simp only [addOffsets?, Option.ite_none_right_eq_some, Option.some.injEq]
  constructor
  · rintro ⟨fits, rfl⟩
    exact ⟨rfl, fits⟩
  · rintro ⟨rfl, fits⟩
    exact ⟨fits, rfl⟩

theorem addOffsets?_of_le {a b : Nat} (fits : a + b ≤ maxOffset) :
    addOffsets? a b = some (a + b) :=
  (addOffsets?_eq_some_iff a b _).mpr ⟨rfl, fits⟩

private theorem addOffsets?_eq_none_iff (a b : Nat) :
    addOffsets? a b = none ↔ maxOffset < a + b := by
  simp [addOffsets?]

theorem clampSigned_of_le {offset : Nat} (small : offset ≤ maxSigned) :
    clampSigned offset = offset := by
  simp [clampSigned, Nat.min_eq_left small]

theorem clampSigned_of_ge {offset : Nat} (great : maxSigned ≤ offset) :
    clampSigned offset = maxSigned := by
  simp [clampSigned, Nat.min_eq_right great]

theorem maxSigned_lt_maxOffset : maxSigned < maxOffset := by decide

theorem clampSigned_of_maxOffset_le {sum : Nat} (great : maxOffset ≤ sum) :
    clampSigned sum = maxSigned :=
  clampSigned_of_ge (Nat.le_trans (Nat.le_of_lt maxSigned_lt_maxOffset) great)

structure OutOfRange where
  offset : Int
  length : Nat
  deriving DecidableEq

namespace OutOfRange

def ofOffset (offset length : Nat) : OutOfRange := ⟨clampSigned offset, length⟩

def message (failure : OutOfRange) : String :=
  "offset " ++ toString failure.offset ++ " is out of range for a source of length "
    ++ toString failure.length

instance : ToString OutOfRange := ⟨message⟩

def inspect (failure : OutOfRange) : String :=
  Inspection.record "OffsetOutOfRange"
    [("offset", toString failure.offset), ("len", toString failure.length)]

end OutOfRange

/-- A range of characters: the offset of the first one and how many there are. -/
structure Span where
  base : Nat
  length : Nat
  deriving DecidableEq

namespace Span

def empty : Span := ⟨0, 0⟩

instance : Inhabited Span := ⟨empty⟩

def stop? (span : Span) : Option Nat := addOffsets? span.base span.length

def inspect (span : Span) : String :=
  Inspection.record "Span" [("base", toString span.base), ("len", toString span.length)]

theorem stop?_eq_some_iff (span : Span) (stop : Nat) :
    span.stop? = some stop ↔ span.base + span.length = stop ∧ stop ≤ maxOffset :=
  addOffsets?_eq_some_iff span.base span.length stop

theorem stop?_eq_none_iff (span : Span) :
    span.stop? = none ↔ maxOffset < span.base + span.length :=
  addOffsets?_eq_none_iff span.base span.length

end Span

/-- The places of a span's base and of the offset where it stops. -/
structure SpanLocation where
  start : Location
  stop : Location
  deriving DecidableEq

namespace SpanLocation

def text (span : SpanLocation) : String := span.start.text ++ "-" ++ span.stop.text

instance : ToString SpanLocation := ⟨text⟩

def inspect (span : SpanLocation) : String :=
  Inspection.record "SpanLocation"
    [("start", span.start.inspect), ("end", span.stop.inspect)]

end SpanLocation
end Lineation
