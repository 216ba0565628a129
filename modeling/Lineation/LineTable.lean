import Lineation.Location

/-!
Line tables: the length of a text and the offsets at which its lines start.

Every text has a first line, which starts at zero; the starts ascend, and none lies beyond the end.
The type keeps these three facts. A table grows with its text, one character at a time, in three
ways: `extend` for a character inside a line, `breakLine` for one that ends a line, and `widenBreak`
for one that belongs to the line break just before it.

A text is read into its table one character at a time. A line feed ends a line, and so does a
carriage return; a line feed directly after a carriage return belongs to the same line break. After
each character the table is the one of the text read so far, so all that has to be remembered beside
it is whether the last character was a carriage return. A reader that looks one character ahead
instead adds a start for each line break and takes none back; it comes to the same table
(`scan_eq_ofChars`).

A search for an offset among the line starts ends in one of two ways: it hits an entry, or it finds
the gap where an entry with that value would stand. `Probe` is the type of such reports, each with
the facts that make it one, so whatever search produced a report, the same line is read off it.
`search` produces one by halving an interval, and `frontScan` does without a report and looks at the
line starts from the front.
-/

set_option autoImplicit false
set_option relaxedAutoImplicit false

namespace Lineation

structure LineTable where
  length : Nat
  starts : Array Nat
  starts_zero : starts[0]? = some 0
  ascending : starts.toList.Pairwise (· < ·)
  starts_le : ∀ start ∈ starts.toList, start ≤ length

structure Extent where
  start : Nat
  /-- The offset one past the last character. -/
  stop : Nat
  deriving DecidableEq

def Extent.slice (extent : Extent) (text : List Char) : List Char :=
  text.extract extent.start extent.stop

namespace LineTable

def empty : LineTable where
  length := 0
  starts := #[0]
  starts_zero := rfl
  ascending := by simp
  starts_le := by simp

def extend (table : LineTable) : LineTable where
  length := table.length + 1
  starts := table.starts
  starts_zero := table.starts_zero
  ascending := table.ascending
  starts_le start member := Nat.le_succ_of_le (table.starts_le start member)

theorem starts_size_pos (table : LineTable) : 0 < table.starts.size :=
  (Array.getElem?_eq_some_iff.mp table.starts_zero).1

def breakLine (table : LineTable) : LineTable where
  length := table.length + 1
  starts := table.starts.push (table.length + 1)
  starts_zero := by
    rw [Array.getElem?_push_lt table.starts_size_pos, ← Array.getElem?_eq_getElem,
      table.starts_zero]
  ascending := by
    rw [Array.toList_push, List.pairwise_append]
    refine ⟨table.ascending, by simp, fun start member last isLast => ?_⟩
    have bounded := table.starts_le start member
    have : last = table.length + 1 := by simpa using isLast
    omega
  starts_le start member := by
    rw [Array.toList_push, List.mem_append, List.mem_singleton] at member
    rcases member with old | rfl
    · exact Nat.le_succ_of_le (table.starts_le start old)
    · exact Nat.le_refl _

def widenBreak (table : LineTable) (opened : 1 < table.starts.size) : LineTable where
  length := table.length + 1
  starts := table.starts.pop.push (table.length + 1)
  starts_zero := by
    have kept : 0 < table.starts.pop.size := by
      rw [Array.size_pop]
      omega
    rw [Array.getElem?_push_lt kept, Array.getElem_pop, ← Array.getElem?_eq_getElem,
      table.starts_zero]
  ascending := by
    rw [Array.toList_push, Array.toList_pop, List.pairwise_append]
    refine ⟨table.ascending.sublist (List.dropLast_sublist _), by simp,
      fun start member last isLast => ?_⟩
    have bounded := table.starts_le start ((List.dropLast_sublist _).subset member)
    have : last = table.length + 1 := by simpa using isLast
    omega
  starts_le start member := by
    rw [Array.toList_push, Array.toList_pop, List.mem_append, List.mem_singleton] at member
    rcases member with old | rfl
    · exact Nat.le_succ_of_le (table.starts_le start ((List.dropLast_sublist _).subset old))
    · exact Nat.le_refl _

def lineCount (table : LineTable) : Nat := table.starts.size

def isEmpty (table : LineTable) : Bool := table.length == 0

/-- The start of a line, counted from one. -/
def lineStart? (table : LineTable) : Nat → Option Nat
  | 0 => none
  | index + 1 => table.starts[index]?

/-- The offsets of a line, counted from one, with its line break. The last line ends with the
text. -/
def lineExtent? (table : LineTable) (line : Nat) : Option Extent :=
  (table.lineStart? line).map fun start => ⟨start, table.starts[line]?.getD table.length⟩

@[simp] theorem length_empty : empty.length = 0 := rfl

@[simp] theorem toList_starts_empty : empty.starts.toList = [0] := rfl

@[simp] theorem length_extend (table : LineTable) : table.extend.length = table.length + 1 := rfl

@[simp] theorem starts_extend (table : LineTable) : table.extend.starts = table.starts := rfl

@[simp] theorem length_breakLine (table : LineTable) :
    table.breakLine.length = table.length + 1 := rfl

@[simp] theorem toList_starts_breakLine (table : LineTable) :
    table.breakLine.starts.toList = table.starts.toList ++ [table.length + 1] :=
  Array.toList_push

theorem one_lt_size_breakLine (table : LineTable) : 1 < table.breakLine.starts.size := by
  have first := table.starts_size_pos
  simp only [breakLine, Array.size_push]
  omega

@[simp] theorem length_widenBreak (table : LineTable) (opened : 1 < table.starts.size) :
    (table.widenBreak opened).length = table.length + 1 := rfl

@[simp] theorem toList_starts_widenBreak (table : LineTable) (opened : 1 < table.starts.size) :
    (table.widenBreak opened).starts.toList =
      table.starts.toList.dropLast ++ [table.length + 1] := by
  simp [widenBreak]

theorem start_lt_start (table : LineTable) {i j : Nat} (earlier : i < j)
    (bound : j < table.starts.size) : table.starts[i] < table.starts[j] :=
  List.pairwise_iff_getElem.mp table.ascending i j (by simpa using Nat.lt_trans earlier bound)
    (by simpa using bound) earlier

end LineTable

/-! ## Reading a text -/

structure Reading where
  table : LineTable
  afterReturn : Bool
  opened : afterReturn = true → 1 < table.starts.size

namespace Reading

def settled (table : LineTable) : Reading where
  table := table
  afterReturn := false
  opened := nofun

def initial : Reading := settled .empty

def read (reading : Reading) (c : Char) : Reading :=
  if c = '\r' then
    { table := reading.table.breakLine
      afterReturn := true
      opened := fun _ => reading.table.one_lt_size_breakLine }
  else if c = '\n' then
    if returned : reading.afterReturn = true then
      settled (reading.table.widenBreak (reading.opened returned))
    else
      settled reading.table.breakLine
  else
    settled reading.table.extend

def readAll (reading : Reading) (text : List Char) : Reading := text.foldl read reading

@[simp] theorem readAll_nil (reading : Reading) : reading.readAll [] = reading := rfl

@[simp] theorem readAll_cons (reading : Reading) (c : Char) (rest : List Char) :
    reading.readAll (c :: rest) = (reading.read c).readAll rest := rfl

theorem readAll_append (reading : Reading) (first second : List Char) :
    reading.readAll (first ++ second) = (reading.readAll first).readAll second :=
  List.foldl_append

@[simp] theorem length_read (reading : Reading) (c : Char) :
    (reading.read c).table.length = reading.table.length + 1 := by
  unfold read
  split
  · rfl
  · split
    · split <;> rfl
    · rfl

@[simp] theorem afterReturn_read (reading : Reading) (c : Char) :
    (reading.read c).afterReturn = (c == '\r') := by
  unfold read
  split
  · simp [*]
  · split
    · split <;> simp [settled, *]
    · simp [settled, *]

end Reading

namespace LineTable

def ofChars (text : List Char) : LineTable := (Reading.initial.readAll text).table

def ofString (text : String) : LineTable := ofChars text.toList

theorem length_readAll (reading : Reading) (text : List Char) :
    (reading.readAll text).table.length = reading.table.length + text.length := by
  induction text generalizing reading with
  | nil => rfl
  | cons c rest ih =>
    rw [Reading.readAll_cons, ih, Reading.length_read, List.length_cons]
    omega

@[simp] theorem length_ofChars (text : List Char) : (ofChars text).length = text.length := by
  simp [ofChars, length_readAll, Reading.initial, Reading.settled]

@[simp] theorem length_ofString (text : String) : (ofString text).length = text.length := by
  simp [ofString, String.length_toList]

/-! ### Reading one character ahead -/

/-- A loop with the length and the line starts so far. Its turn takes one character, or a carriage
return with the line feed after it. -/
def scanFrom : Nat → Array Nat → List Char → Nat × Array Nat
  | length, starts, [] => (length, starts)
  | length, starts, '\r' :: '\n' :: rest => scanFrom (length + 2) (starts.push (length + 2)) rest
  | length, starts, '\r' :: rest => scanFrom (length + 1) (starts.push (length + 1)) rest
  | length, starts, '\n' :: rest => scanFrom (length + 1) (starts.push (length + 1)) rest
  | length, starts, _ :: rest => scanFrom (length + 1) starts rest

def scan (text : List Char) : Nat × Array Nat := scanFrom 0 #[0] text

-- The loop never stands between the two characters of a line break, so the reader it is compared
-- with has not just read a carriage return whose line feed is still to come.
private theorem scanFrom_eq_readAll (reading : Reading) (text : List Char)
    (apart : reading.afterReturn = true → text.head? ≠ some '\n') :
    scanFrom reading.table.length reading.table.starts text =
      ((reading.readAll text).table.length, (reading.readAll text).table.starts) := by
  generalize isLength : reading.table.length = length
  generalize isStarts : reading.table.starts = starts
  induction length, starts, text using scanFrom.induct generalizing reading with
  | case1 length starts => rw [scanFrom, Reading.readAll_nil, isLength, isStarts]
  | case2 length starts rest ih =>
    subst isLength isStarts
    rw [scanFrom, ih ((reading.read '\r').read '\n')]
    · rfl
    · simp
    · rfl
    · simp [Reading.read, Reading.settled, breakLine, widenBreak]
  | case3 length starts rest alone ih =>
    subst isLength isStarts
    rw [scanFrom, ih (reading.read '\r')]
    · rfl
    · rintro - feed
      obtain ⟨after, opens⟩ := List.head?_eq_some_iff.mp feed
      exact alone after opens
    · rfl
    · rfl
    · exact alone
  | case4 length starts rest ih =>
    subst isLength isStarts
    have quiet : reading.afterReturn = false := by simpa using apart
    rw [scanFrom, ih (reading.read '\n')]
    · rfl
    · simp
    · exact reading.length_read '\n'
    · simp [Reading.read, Reading.settled, breakLine, quiet]
  | case5 length starts c rest noPair noReturn noFeed ih =>
    subst isLength isStarts
    have inside : reading.read c = .settled reading.table.extend := by
      rw [Reading.read, if_neg noReturn, if_neg noFeed]
    rw [scanFrom, Reading.readAll_cons, inside, ih (.settled reading.table.extend) nofun rfl rfl]
    · exact noPair
    · exact noReturn
    · exact noFeed

theorem scan_eq_ofChars (text : List Char) :
    scan text = ((ofChars text).length, (ofChars text).starts) :=
  scanFrom_eq_readAll .initial text nofun

end LineTable

/-! ## Finding the line of an offset -/

inductive Probe (entries : Array Nat) (target : Nat) where
  | hit (index : Nat) (found : entries[index]? = some target)
  /-- The target is absent, and just the entries before this index are less than it. -/
  | gap (index : Nat) (absent : target ∉ entries) (inside : index ≤ entries.size)
      (below : ∀ (i : Nat) (bound : i < entries.size), i < index → entries[i] < target)
      (above : ∀ (i : Nat) (bound : i < entries.size), index ≤ i → target < entries[i])

namespace Probe

/-- The index of the line in which the target lies: that of the entry hit, or of the one before the
gap. -/
def line {entries : Array Nat} {target : Nat} : Probe entries target → Nat
  | hit index _ => index
  | gap index .. => index - 1

theorem line_lt {entries : Array Nat} {target : Nat} (probe : Probe entries target)
    (nonempty : 0 < entries.size) : probe.line < entries.size := by
  cases probe with
  | hit index found => exact (Array.getElem?_eq_some_iff.mp found).1
  | gap index absent inside below above =>
    simp only [line]
    omega

/-- The search between two bounds, given that the entries before the first are less than the target
and those from the second on are greater. -/
def between (entries : Array Nat)
    (ascending : ∀ (i j : Nat) (bound : j < entries.size), (earlier : i < j) →
      entries[i] < entries[j])
    (target low high : Nat) (inside : high ≤ entries.size) (ordered : low ≤ high)
    (below : ∀ (i : Nat) (bound : i < entries.size), i < low → entries[i] < target)
    (above : ∀ (i : Nat) (bound : i < entries.size), high ≤ i → target < entries[i]) :
    Probe entries target :=
  if wide : low < high then
    let middle := low + (high - low) / 2
    have bound : middle < entries.size := by omega
    if found : entries[middle] = target then
      hit middle (Array.getElem?_eq_some_iff.mpr ⟨bound, found⟩)
    else if less : entries[middle] < target then
      between entries ascending target (middle + 1) high inside (by omega)
        (fun i iBound before => by
          rcases Nat.lt_or_eq_of_le (Nat.le_of_lt_succ before) with earlier | rfl
          · exact Nat.lt_trans (ascending i middle bound earlier) less
          · exact less)
        above
    else
      between entries ascending target low middle (Nat.le_of_lt bound) (by omega) below
        (fun i iBound after => by
          rcases Nat.lt_or_eq_of_le after with later | rfl
          · exact Nat.lt_of_le_of_lt (Nat.le_of_not_lt less) (ascending middle i iBound later)
          · omega)
  else
    have met : high = low := by omega
    gap low
      (fun member => by
        obtain ⟨i, iBound, isTarget⟩ := Array.mem_iff_getElem.mp member
        rcases Nat.lt_or_ge i low with before | after
        · exact absurd (below i iBound before) (by omega)
        · exact absurd (above i iBound (by omega)) (by omega))
      (by omega) below (fun i iBound after => above i iBound (by omega))
termination_by high - low

end Probe

namespace LineTable

def search (table : LineTable) (offset : Nat) : Probe table.starts offset :=
  .between table.starts (fun _ _ bound earlier => table.start_lt_start earlier bound) offset
    0 table.starts.size (Nat.le_refl _) (Nat.zero_le _) (by omega) (by omega)

def lineOf (table : LineTable) {offset : Nat} (probe : Probe table.starts offset) :
    Fin table.starts.size :=
  ⟨probe.line, probe.line_lt table.starts_size_pos⟩

theorem start_lineOf_le (table : LineTable) {offset : Nat} (probe : Probe table.starts offset) :
    table.starts[table.lineOf probe] ≤ offset := by
  cases probe with
  | hit index found => exact Nat.le_of_eq (Array.getElem?_eq_some_iff.mp found).2
  | gap index absent inside below above =>
    obtain ⟨bound, first⟩ := Array.getElem?_eq_some_iff.mp table.starts_zero
    have positive : index ≠ 0 := by
      rintro rfl
      have beyond := above 0 bound (Nat.le_refl _)
      omega
    exact Nat.le_of_lt (below _ _ (by simp only [lineOf, Probe.line]; omega))

theorem lt_start_of_lineOf_lt (table : LineTable) {offset : Nat}
    (probe : Probe table.starts offset) {i : Nat} (later : table.lineOf probe < i)
    (bound : i < table.starts.size) :
    offset < table.starts[i] := by
  cases probe with
  | hit index found =>
    obtain ⟨inside, isTarget⟩ := Array.getElem?_eq_some_iff.mp found
    have increases := table.start_lt_start (i := index) later bound
    omega
  | gap index absent inside below above =>
    simp only [lineOf, Probe.line] at later
    exact above i bound (by omega)

def placeOf (table : LineTable) (offset : Nat) (probe : Probe table.starts offset) : Location where
  offset := offset
  line := table.lineOf probe + 1
  column := offset - table.starts[table.lineOf probe] + 1

def place (table : LineTable) (offset : Nat) : Location :=
  table.placeOf offset (table.search offset)

/-- The index of the last line start reached before the first that lies beyond the offset. -/
def frontScan (table : LineTable) (offset : Nat) : Nat :=
  (table.starts.toList.takeWhile fun start => start ≤ offset).length - 1

end LineTable
end Lineation
