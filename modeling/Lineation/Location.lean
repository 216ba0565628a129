/-!
Locations: a character offset together with the line and the column a reader would name.

Lines and columns are counted from one, and the type admits nothing else. `ofParts` makes a location
from three numbers of unknown origin and says which of the two counts was zero, the line before the
column. Two locations are equal when all three numbers are, but they compare by offset alone, so two
of them may be order-equal without being equal. Everything that puts locations in order therefore
settles ties. Of two order-equal locations `max` takes the second and `min` the first; sorting keeps
them in the order given; collecting drops a location only beside its equal; the greatest of a list
is the last and the least the first among those that tie.

Values show their structure in written forms that stand first here: a record is its name and its
fields in declaration order, on one line or with a line for every field, and sequences, maps and
wrapped values follow the same bracket style.
-/

set_option autoImplicit false
set_option relaxedAutoImplicit false

namespace Lineation

namespace Inspection

def commaSeparated (items : List String) : String := ", ".intercalate items

def entry (key value : String) : String := key ++ ": " ++ value

/-- A record on one line, such as `Span { base: 0, len: 0 }`. -/
def record (name : String) (fields : List (String × String)) : String :=
  name ++ " \x7b " ++ commaSeparated (fields.map fun field => entry field.1 field.2) ++ " \x7d"

/-- A record with a line for every field, each indented by four blanks and ended by a comma. -/
def block (name : String) (fields : List (String × String)) : String :=
  name ++ " \x7b\n"
    ++ String.join (fields.map fun field => "    " ++ entry field.1 field.2 ++ ",\n") ++ "\x7d"

def sequence (items : List String) : String := "[" ++ commaSeparated items ++ "]"

def mapping (entries : List (String × String)) : String :=
  "\x7b" ++ commaSeparated (entries.map fun cell => entry cell.1 cell.2) ++ "\x7d"

def wrapped (name value : String) : String := name ++ "(" ++ value ++ ")"

def truth : Bool → String
  | true => "true"
  | false => "false"

end Inspection

/-- A place in a text. That line and column are at least one is what a checked construction makes
sure of. An unchecked one would also let through a line or a column of zero; no lookup makes such a
location, and this type leaves them out. -/
@[ext]
structure Location where
  offset : Nat
  line : Nat
  column : Nat
  line_pos : 1 ≤ line := by omega
  column_pos : 1 ≤ column := by omega
  deriving DecidableEq

namespace Location

inductive Fault where
  | zeroLine
  | zeroColumn
  deriving DecidableEq

def Fault.message : Fault → String
  | .zeroLine => "lines are 1-based"
  | .zeroColumn => "columns are 1-based"

/-- The location with these parts; of two faults the line's is reported. -/
def ofParts (offset line column : Nat) : Except Fault Location :=
  if line_pos : 1 ≤ line then
    if column_pos : 1 ≤ column then
      .ok { offset, line, column }
    else
      .error .zeroColumn
  else
    .error .zeroLine

theorem ofParts_eq_ok_iff (offset line column : Nat) (location : Location) :
    ofParts offset line column = .ok location ↔
      location.offset = offset ∧ location.line = line ∧ location.column = column := by
  obtain ⟨o, l, c, line_pos, column_pos⟩ := location
  unfold ofParts
  split
  · split
    · simp only [Except.ok.injEq, mk.injEq]
      omega
    · simp only [reduceCtorEq, false_iff]
      omega
  · simp only [reduceCtorEq, false_iff]
    omega

def text (location : Location) : String :=
  toString location.line ++ ":" ++ toString location.column

instance : ToString Location := ⟨text⟩

def fields (location : Location) : List (String × String) :=
  [("offset", toString location.offset), ("line", toString location.line),
    ("column", toString location.column)]

def inspect (location : Location) : String := Inspection.record "Location" location.fields

def inspectBlock (location : Location) : String := Inspection.block "Location" location.fields

/-! ## Locations in order -/

instance : Ord Location := ⟨fun a b => compare a.offset b.offset⟩

instance : LE Location := ⟨fun a b => a.offset ≤ b.offset⟩

instance : LT Location := ⟨fun a b => a.offset < b.offset⟩

instance (a b : Location) : Decidable (a ≤ b) := inferInstanceAs (Decidable (a.offset ≤ b.offset))

instance (a b : Location) : Decidable (a < b) := inferInstanceAs (Decidable (a.offset < b.offset))

instance : Max Location := maxOfLe

instance : Min Location := minOfLe

theorem le_iff_offset {a b : Location} : a ≤ b ↔ a.offset ≤ b.offset := Iff.rfl

def sort (locations : List Location) : List Location := locations.mergeSort fun a b => a ≤ b

/-- A list without the locations that equal the one just after them. -/
def withoutRepeats : List Location → List Location
  | [] => []
  | [last] => [last]
  | first :: second :: rest =>
    if first = second then withoutRepeats (second :: rest)
    else first :: withoutRepeats (second :: rest)

/-- The locations collected in ascending order. Equal ones that come to stand side by side are kept
once. Those that tie but differ are all kept, and so are equal ones that such a one keeps apart. -/
def collect (locations : List Location) : List Location := withoutRepeats (sort locations)

/-- The last of the greatest locations of a list. -/
def greatest? : List Location → Option Location
  | [] => none
  | first :: rest =>
    match greatest? rest with
    | none => some first
    | some best => some (max first best)

/-- The first of the least locations of a list. -/
def least? : List Location → Option Location
  | [] => none
  | first :: rest =>
    match least? rest with
    | none => some first
    | some best => some (min first best)

theorem sort_perm (locations : List Location) : (sort locations).Perm locations :=
  List.mergeSort_perm locations _

theorem decide_le_trans (a b c : Location) (first : decide (a ≤ b) = true)
    (second : decide (b ≤ c) = true) : decide (a ≤ c) = true := by
  simp only [decide_eq_true_eq, le_iff_offset] at *
  omega

theorem decide_le_total (a b : Location) : (decide (a ≤ b) || decide (b ≤ a)) = true := by
  simp only [Bool.or_eq_true, decide_eq_true_eq, le_iff_offset]
  omega

theorem pairwise_sort (locations : List Location) :
    (sort locations).Pairwise fun a b => a.offset ≤ b.offset := by
  have sorted := List.pairwise_mergeSort decide_le_trans decide_le_total locations
  exact sorted.imp fun ordered => le_iff_offset.mp (of_decide_eq_true ordered)

end Location
end Lineation
