import Lineation.LineTable

/-!
What is said of a text alone, without its line table.

A line ends after a line feed and after a carriage return that no line feed follows. All that
matters about a character is therefore which of the two it is, if either: `CharClass` keeps that and
forgets the rest. `lineEndsThrough` lists the line ends up to an offset: how many there are tells
the line of the offset, and the last of them where that line starts.

A cursor finds line and column by walking: it starts on the first column of the first line and
passes the characters of a text one by one. To know whether a carriage return ends a line it looks
at the next character.

Every line but the last is some content and one terminator, and the last is content alone. A
carriage return and the line feed after it are one terminator, so a line never starts with a line
feed when the one before ends with a bare carriage return. `IsDivision` states these rules of a list
of lines; `LineTable.lines` cuts a text at the starts of its table. With every terminator written as
a line feed, a text gets shorter by one character for every pair of a carriage return and a line
feed, so an offset moves back by the number of pairs before it (`unifiedOffset`).
-/

set_option autoImplicit false
set_option relaxedAutoImplicit false

namespace Lineation

/-- Whether a line ends with the character just before this offset. -/
def LineEndsAt (text : List Char) : Nat → Prop
  | 0 => False
  | before + 1 =>
    text[before]? = some '\n' ∨ text[before]? = some '\r' ∧ text[before + 1]? ≠ some '\n'

instance (text : List Char) : DecidablePred (LineEndsAt text)
  | 0 => inferInstanceAs (Decidable False)
  | _ + 1 => inferInstanceAs (Decidable (_ ∨ _ ∧ _))

/-- How many carriage returns have no line feed directly after them. -/
def loneReturns : List Char → Nat
  | [] => 0
  | c :: rest => (if c = '\r' ∧ rest.head? ≠ some '\n' then 1 else 0) + loneReturns rest

/-- The offsets up to this one at which lines end, in ascending order. -/
def lineEndsThrough (text : List Char) (offset : Nat) : List Nat :=
  (List.range' 1 offset).filter fun p => LineEndsAt text p

/-- The last offset up to this one at which a line starts. -/
def lastLineStart (text : List Char) (offset : Nat) : Nat :=
  (lineEndsThrough text offset).getLastD 0

theorem LineEndsAt.pos {text : List Char} {p : Nat} (ends : LineEndsAt text p) : 0 < p := by
  cases p with
  | zero => exact absurd ends id
  | succ before => exact Nat.succ_pos before

theorem LineEndsAt.le_length {text : List Char} {p : Nat} (ends : LineEndsAt text p) :
    p ≤ text.length := by
  cases p with
  | zero => exact absurd ends id
  | succ before =>
    rcases ends with feed | ⟨ret, _⟩
    · exact (List.getElem?_eq_some_iff.mp feed).1
    · exact (List.getElem?_eq_some_iff.mp ret).1

theorem lineEndsThrough_succ_of_end {text : List Char} {offset : Nat}
    (ends : LineEndsAt text (offset + 1)) :
    lineEndsThrough text (offset + 1) = lineEndsThrough text offset ++ [offset + 1] := by
  simp [lineEndsThrough, List.range'_1_concat, Nat.add_comm 1 offset, ends]

theorem lineEndsThrough_succ_of_not_end {text : List Char} {offset : Nat}
    (stays : ¬ LineEndsAt text (offset + 1)) :
    lineEndsThrough text (offset + 1) = lineEndsThrough text offset := by
  simp [lineEndsThrough, List.range'_1_concat, Nat.add_comm 1 offset, stays]

theorem mem_lineEndsThrough (text : List Char) (offset p : Nat) :
    p ∈ lineEndsThrough text offset ↔ p ≤ offset ∧ LineEndsAt text p := by
  simp only [lineEndsThrough, List.mem_filter, List.mem_range'_1, decide_eq_true_eq]
  constructor
  · rintro ⟨⟨_, upto⟩, ends⟩
    exact ⟨by omega, ends⟩
  · rintro ⟨upto, ends⟩
    have positive := ends.pos
    exact ⟨⟨positive, by omega⟩, ends⟩

theorem pairwise_lineEndsThrough (text : List Char) (offset : Nat) :
    (lineEndsThrough text offset).Pairwise (· < ·) :=
  List.Pairwise.filter _ (List.pairwise_lt_range' 1)

/-! ## Line and column by walking -/

structure Cursor where
  line : Nat
  column : Nat
  deriving DecidableEq

namespace Cursor

instance : Ord Cursor := ⟨compareLex (compareOn line) (compareOn column)⟩

def origin : Cursor := ⟨1, 1⟩

def pass (cursor : Cursor) (c : Char) (next : Option Char) : Cursor :=
  if c = '\n' ∨ c = '\r' ∧ next ≠ some '\n' then ⟨cursor.line + 1, 1⟩
  else ⟨cursor.line, cursor.column + 1⟩

/-- Pass the given number of characters of a text, or all of them if there are fewer. -/
def walk (cursor : Cursor) : List Char → Nat → Cursor
  | _, 0 => cursor
  | [], _ + 1 => cursor
  | c :: rest, count + 1 => (cursor.pass c rest.head?).walk rest count

theorem compare_of_line_lt {a b : Cursor} (less : a.line < b.line) : compare a b = .lt := by
  show (compare a.line b.line).then _ = .lt
  rw [Nat.compare_eq_lt.mpr less]
  rfl

theorem compare_of_line_gt {a b : Cursor} (greater : b.line < a.line) : compare a b = .gt := by
  show (compare a.line b.line).then _ = .gt
  rw [Nat.compare_eq_gt.mpr greater]
  rfl

theorem compare_of_line_eq {a b : Cursor} (same : a.line = b.line) :
    compare a b = compare a.column b.column := by
  show (compare a.line b.line).then _ = _
  rw [Nat.compare_eq_eq.mpr same]
  rfl

end Cursor
/-! ## Writing every line break as a line feed -/

def unifyNewlines : List Char → List Char
  | [] => []
  | '\r' :: '\n' :: rest => '\n' :: unifyNewlines rest
  | c :: rest => (if c = '\r' then '\n' else c) :: unifyNewlines rest

def newlinePairs : List Char → Nat
  | [] => 0
  | '\r' :: '\n' :: rest => newlinePairs rest + 1
  | _ :: rest => newlinePairs rest

/-- Whether the character at this offset is the line feed of such a pair. -/
def IsPairedFeed (text : List Char) : Nat → Prop
  | 0 => False
  | before + 1 => text[before]? = some '\r' ∧ text[before + 1]? = some '\n'

instance (text : List Char) : DecidablePred (IsPairedFeed text)
  | 0 => inferInstanceAs (Decidable False)
  | _ + 1 => inferInstanceAs (Decidable (_ ∧ _))

/-- The offset at which the unified text has what the text has at this offset. -/
def unifiedOffset (text : List Char) (offset : Nat) : Nat :=
  offset - newlinePairs (text.take offset)

/-- A character and the text after it that do not make a pair. -/
def StandsAlone (c : Char) (rest : List Char) : Prop := ¬ (c = '\r' ∧ rest.head? = some '\n')

@[elab_as_elim]
theorem pairInduction {motive : List Char → Prop} (nil : motive [])
    (pair : ∀ rest, motive rest → motive ('\r' :: '\n' :: rest))
    (single : ∀ c rest, StandsAlone c rest → motive rest → motive (c :: rest))
    (text : List Char) : motive text := by
  induction text using unifyNewlines.induct with
  | case1 => exact nil
  | case2 rest ih => exact pair rest ih
  | case3 c rest apart ih =>
    refine single c rest ?_ ih
    rintro ⟨ret, feed⟩
    obtain ⟨after, opens⟩ := List.head?_eq_some_iff.mp feed
    exact apart after ret opens

@[simp] theorem unifyNewlines_pair (rest : List Char) :
    unifyNewlines ('\r' :: '\n' :: rest) = '\n' :: unifyNewlines rest := rfl

@[simp] theorem newlinePairs_pair (rest : List Char) :
    newlinePairs ('\r' :: '\n' :: rest) = newlinePairs rest + 1 := rfl

section

variable {c : Char} {rest : List Char}

theorem unifyNewlines_cons (alone : StandsAlone c rest) :
    unifyNewlines (c :: rest) = (if c = '\r' then '\n' else c) :: unifyNewlines rest := by
  rw [unifyNewlines]
  rintro after rfl rfl
  exact alone ⟨rfl, rfl⟩

theorem newlinePairs_cons (alone : StandsAlone c rest) :
    newlinePairs (c :: rest) = newlinePairs rest := by
  rw [newlinePairs]
  rintro after rfl rfl
  exact alone ⟨rfl, rfl⟩

theorem StandsAlone.take (alone : StandsAlone c rest) (count : Nat) :
    StandsAlone c (rest.take count) := by
  rintro ⟨ret, feed⟩
  rw [List.head?_take] at feed
  split at feed
  · cases feed
  · exact alone ⟨ret, feed⟩

private theorem newlinePairs_le_length (text : List Char) : newlinePairs text ≤ text.length := by
  induction text using pairInduction with
  | nil => exact Nat.le_refl _
  | pair rest ih =>
    simp only [newlinePairs_pair, List.length_cons]
    omega
  | single c rest alone ih =>
    rw [newlinePairs_cons alone, List.length_cons]
    exact Nat.le_succ_of_le ih

theorem newlinePairs_take_le (text : List Char) (count : Nat) :
    newlinePairs (text.take count) ≤ count :=
  Nat.le_trans (newlinePairs_le_length _) (List.length_take_le count text)

@[simp] theorem unifiedOffset_zero (text : List Char) : unifiedOffset text 0 = 0 := Nat.zero_sub _

theorem unifiedOffset_pair (rest : List Char) (count : Nat) :
    unifiedOffset ('\r' :: '\n' :: rest) (count + 2) = unifiedOffset rest count + 1 := by
  have bounded := newlinePairs_take_le rest count
  simp only [unifiedOffset, List.take_succ_cons, newlinePairs_pair]
  omega

theorem unifiedOffset_cons (alone : StandsAlone c rest) (count : Nat) :
    unifiedOffset (c :: rest) (count + 1) = unifiedOffset rest count + 1 := by
  have bounded := newlinePairs_take_le rest count
  simp only [unifiedOffset, List.take_succ_cons]
  rw [newlinePairs_cons (alone.take count)]
  omega

theorem IsPairedFeed.cons {before : Nat} (paired : IsPairedFeed rest before) (c : Char) :
    IsPairedFeed (c :: rest) (before + 1) := by
  cases before with
  | zero => exact absurd paired id
  | succ before => exact paired

end

/-! ## Dividing a text into its lines -/

inductive Terminator where
  | carriageReturn
  | lineFeed
  | returnFeed
  deriving DecidableEq

def Terminator.chars : Terminator → List Char
  | .carriageReturn => ['\r']
  | .lineFeed => ['\n']
  | .returnFeed => ['\r', '\n']

def Unbroken (text : List Char) : Prop := '\r' ∉ text ∧ '\n' ∉ text

instance (text : List Char) : Decidable (Unbroken text) :=
  inferInstanceAs (Decidable (_ ∧ _))

def IsTerminated (line : List Char) : Prop :=
  ∃ (content : List Char) (terminator : Terminator),
    Unbroken content ∧ line = content ++ terminator.chars

/-- The lines of a text, each but the last with its terminator. -/
structure IsDivision (text : List Char) (lines : List (List Char)) : Prop where
  flatten : lines.flatten = text
  terminated : ∀ line ∈ lines.dropLast, IsTerminated line
  last : ∃ line, lines.getLast? = some line ∧ Unbroken line
  /-- A carriage return and a line feed side by side are never divided. -/
  whole : ∀ (i : Nat) (line next : List Char), lines[i]? = some line → lines[i + 1]? = some next →
    line.getLast? = some '\r' → next.head? ≠ some '\n'

def lineContent (line : List Char) : List Char := line.takeWhile fun c => c ≠ '\r' ∧ c ≠ '\n'

def LineTable.lines (table : LineTable) (text : List Char) : List (List Char) :=
  (List.range' 1 table.lineCount).filterMap fun line =>
    (table.lineExtent? line).map fun extent => extent.slice text

def LineTable.lineContent? (table : LineTable) (text : List Char) (line : Nat) :
    Option (List Char) :=
  (table.lineExtent? line).map fun extent => lineContent (extent.slice text)

end Lineation
