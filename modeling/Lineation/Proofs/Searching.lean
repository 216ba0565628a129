import Lineation.Proofs.LineStarts
import Mathlib.Algebra.Order.BigOperators.Group.List
import Mathlib.Algebra.Order.Group.Nat
import Mathlib.Order.Bounds.Basic

/-!
Every search finds the same line.

A search reports no more than a number, and whether an entry was hit there. `Probe.Promised` says
what such a bare report has to keep: the index holds the target or, if no entry does, the target
could be inserted there. The reports that keep it are just those that a `Probe` stands for
(`Probe.promised_iff`). Which of them a search returns makes no difference: the line read off is the
last that starts at or before the offset (`LineTable.isGreatest_line`), and there a scan from the
front stops too.
-/

set_option autoImplicit false
set_option relaxedAutoImplicit false

namespace Lineation

namespace Probe

variable {entries : Array Nat} {target : Nat}

def answer : Probe entries target → Except Nat Nat
  | hit index _ => .ok index
  | gap index .. => .error index

/-- What a bare report has to keep. The target is the entry at an index reported as hit; otherwise
it is no entry, and inserting it at the index leaves the entries in order. -/
def Promised (entries : Array Nat) (target : Nat) : Except Nat Nat → Prop
  | .ok index => entries[index]? = some target
  | .error index =>
    target ∉ entries ∧ index ≤ entries.size ∧
      (entries.toList.take index ++ target :: entries.toList.drop index).Pairwise (· ≤ ·)

private theorem exists_answer_gap {index : Nat}
    (promised : Promised entries target (.error index)) :
    ∃ probe : Probe entries target, probe.answer = .error index := by
  obtain ⟨absent, inside, ordered⟩ := promised
  rw [List.pairwise_append, List.pairwise_cons] at ordered
  obtain ⟨_, ⟨upper, _⟩, lower⟩ := ordered
  have other (i : Nat) (bound : i < entries.size) : entries[i] ≠ target := by
    rintro rfl
    exact absent (Array.getElem_mem bound)
  refine ⟨gap index absent inside ?_ ?_, rfl⟩
  · intro i bound before
    have taken : entries[i] ∈ entries.toList.take index :=
      List.mem_take_iff_getElem.mpr ⟨i, by simpa using ⟨before, bound⟩, rfl⟩
    exact Nat.lt_of_le_of_ne (lower _ taken _ List.mem_cons_self) (other i bound)
  · intro i bound after
    have dropped : entries[i] ∈ entries.toList.drop index := by
      rw [List.mem_drop_iff_getElem]
      exact ⟨i - index, by simp; omega, by simp [Nat.add_sub_cancel' after]⟩
    exact Nat.lt_of_le_of_ne (upper _ dropped) (Ne.symm (other i bound))

private theorem promised_answer (ascending : entries.toList.Pairwise (· < ·))
    (probe : Probe entries target) : Promised entries target probe.answer := by
  cases probe with
  | hit index found => exact found
  | gap index absent inside below above =>
    have ordered : entries.toList.Pairwise (· ≤ ·) := ascending.imp Nat.le_of_lt
    have lower : ∀ entry ∈ entries.toList.take index, entry < target := by
      intro entry taken
      obtain ⟨i, bound, rfl⟩ := List.mem_take_iff_getElem.mp taken
      obtain ⟨before, within⟩ := Nat.lt_min.mp bound
      exact below i within before
    have upper : ∀ entry ∈ entries.toList.drop index, target < entry := by
      intro entry dropped
      obtain ⟨i, bound, rfl⟩ := List.mem_drop_iff_getElem.mp dropped
      exact above (index + i) (by simpa [Nat.add_comm] using bound) (Nat.le_add_right _ _)
    refine ⟨absent, inside, ?_⟩
    rw [List.pairwise_append, List.pairwise_cons]
    refine ⟨ordered.take, ⟨fun entry later => Nat.le_of_lt (upper entry later), ordered.drop⟩, ?_⟩
    intro entry before value isLater
    rcases List.mem_cons.mp isLater with rfl | later
    · exact Nat.le_of_lt (lower entry before)
    · exact Nat.le_of_lt (Nat.lt_trans (lower entry before) (upper value later))

theorem promised_iff (ascending : entries.toList.Pairwise (· < ·)) (report : Except Nat Nat) :
    Promised entries target report ↔ ∃ probe : Probe entries target, probe.answer = report := by
  constructor
  · intro promised
    cases report with
    | ok index => exact ⟨hit index promised, rfl⟩
    | error index => exact exists_answer_gap promised
  · rintro ⟨probe, rfl⟩
    exact promised_answer ascending probe

end Probe

namespace LineTable

theorem isGreatest_line (table : LineTable) {offset : Nat} (probe : Probe table.starts offset) :
    IsGreatest {i : Nat | ∃ start, table.starts[i]? = some start ∧ start ≤ offset} probe.line := by
  have here := table.onLine_lineOf probe (Array.getElem?_eq_getElem (table.lineOf probe).isLt)
  refine ⟨⟨_, here.entry, here.start_le⟩, ?_⟩
  rintro i ⟨start, entry, reached⟩
  apply Nat.le_of_not_lt
  intro later
  have beyond := here.lt_of_later later entry
  omega

/-- A scan from the front passes the starts up to that of the line and stops at the next one. -/
theorem OnLine.frontScan_eq {table : LineTable} {offset index start : Nat}
    (here : table.OnLine offset index start) : table.frontScan offset = index := by
  obtain ⟨bound, isStart⟩ := Array.getElem?_eq_some_iff.mp here.entry
  have passed : ∀ entry ∈ table.starts.toList.take (index + 1), decide (entry ≤ offset) = true := by
    intro entry taken
    obtain ⟨i, before, rfl⟩ := List.mem_take_iff_getElem.mp taken
    obtain ⟨upto, within⟩ := Nat.lt_min.mp before
    have reached := here.start_le
    rw [decide_eq_true_eq, Array.getElem_toList]
    rcases Nat.lt_or_eq_of_le (Nat.le_of_lt_succ upto) with earlier | rfl
    · have less := table.start_lt_start earlier bound
      omega
    · omega
  have stopped : (table.starts.toList.drop (index + 1)).takeWhile (· ≤ offset) = [] := by
    have head : (table.starts.toList.drop (index + 1)).head? = table.starts.toList[index + 1]? :=
      List.head?_drop
    cases rest : table.starts.toList.drop (index + 1) with
    | nil => rfl
    | cons next later =>
      rw [rest, List.head?_cons, Array.getElem?_toList] at head
      have beyond := here.lt_next next head.symm
      exact List.takeWhile_cons_of_neg (by simpa using beyond)
  have scanned : table.starts.toList.takeWhile (· ≤ offset) =
      table.starts.toList.take (index + 1) := by
    rw [← List.take_append_drop (index + 1) table.starts.toList,
      List.takeWhile_append_of_pos passed, stopped, List.append_nil, List.take_append_drop]
  rw [frontScan, scanned, List.length_take, Array.length_toList, Nat.min_eq_left bound]
  rfl

theorem frontScan_eq_line (table : LineTable) {offset : Nat} (probe : Probe table.starts offset) :
    table.frontScan offset = probe.line :=
  (table.onLine_lineOf probe (Array.getElem?_eq_getElem (table.lineOf probe).isLt)).frontScan_eq

example : (ofChars "ab\rc\n\nd".toList).frontScan 4 = 1 := by decide

theorem placeOf_eq_place (table : LineTable) {offset : Nat} (probe : Probe table.starts offset) :
    table.placeOf offset probe = table.place offset := by
  obtain ⟨index, start, here⟩ := table.exists_onLine offset
  rw [placeOf_eq_of_onLine here, place_eq_of_onLine here]

private theorem exists_of_starts {starts : Array Nat} (zero : starts[0]? = some 0)
    (ascending : starts.toList.Pairwise (· < ·)) (offset : Nat) :
    ∃ table : LineTable, table.starts = starts ∧ offset ≤ table.length := by
  have bounded : ∀ start ∈ starts.toList, start ≤ starts.toList.sum + offset := by
    intro start member
    exact Nat.le_add_right_of_le (List.le_sum_of_mem member)
  exact ⟨⟨starts.toList.sum + offset, starts, zero, ascending, bounded⟩, rfl, Nat.le_add_left _ _⟩

end LineTable

/-- Whichever entries of an ascending list of line starts a search looks at, as long as it reports
what a search has to, the line read off its report is the greatest that starts at or before the
offset, which is where a scan from the front stops. The location read off the report is on that
line, with its columns counted from that start, and every lookup in an index with these line starts
gives it. -/
theorem LineTable.line_of_any_search {starts : Array Nat} (zero : starts[0]? = some 0)
    (ascending : starts.toList.Pairwise (· < ·)) (offset : Nat) :
    (∃ table : LineTable, table.starts = starts ∧ offset ≤ table.length) ∧
    ∀ table : LineTable, table.starts = starts →
      (∀ report, Probe.Promised table.starts offset report ↔
        ∃ probe : Probe table.starts offset, probe.answer = report) ∧
      ∀ probe : Probe table.starts offset,
        (∀ i : Nat, i = probe.line ↔
          IsGreatest {i : Nat | ∃ start, table.starts[i]? = some start ∧ start ≤ offset} i) ∧
        probe.line = table.frontScan offset ∧
        (∃ start, table.starts[probe.line]? = some start ∧ start ≤ offset ∧
          (table.placeOf offset probe).offset = offset ∧
          (table.placeOf offset probe).line = probe.line + 1 ∧
          (table.placeOf offset probe).column = offset - start + 1) ∧
        table.placeOf offset probe = table.place offset ∧
        ∀ index : Index, index.table = table → offset ≤ table.length →
          ((Index.locate offset).run index).result = .ok (table.placeOf offset probe) := by
  refine ⟨exists_of_starts zero ascending offset, ?_⟩
  rintro table rfl
  refine ⟨Probe.promised_iff ascending, ?_⟩
  intro probe
  have greatest := table.isGreatest_line probe
  have same := table.placeOf_eq_place probe
  have entry := Array.getElem?_eq_getElem (table.lineOf probe).isLt
  have reached := table.start_lineOf_le probe
  refine ⟨?_, (table.frontScan_eq_line probe).symm, ⟨_, entry, reached, rfl, rfl, rfl⟩, same, ?_⟩
  · intro i
    constructor
    · rintro rfl
      exact greatest
    · intro other
      exact other.unique greatest
  · rintro index rfl inside
    rw [Index.result_locate, if_pos inside, same]

/-- A search that hits the third of four line starts, and one that ends in the gap after it. -/
theorem LineTable.line_of_any_search_hit_and_gap :
    let starts := #[0, 3, 4, 9]
    starts[0]? = some 0 ∧ starts.toList.Pairwise (· < ·) ∧
      (∃ table : LineTable, table.starts = starts ∧ 4 ≤ table.length ∧
        ∃ probe : Probe table.starts 4, probe.answer = .ok 2 ∧ probe.line = 2 ∧
          table.placeOf 4 probe = table.place 4) ∧
      ∃ table : LineTable, table.starts = starts ∧ 7 ≤ table.length ∧
        ∃ probe : Probe table.starts 7, probe.answer = .error 3 ∧ probe.line = 2 ∧
          table.placeOf 7 probe = table.place 7 := by
  intro starts
  have zero : starts[0]? = some 0 := rfl
  have ascending : starts.toList.Pairwise (· < ·) := by decide
  refine ⟨zero, ascending, ?_, ?_⟩
  · obtain ⟨⟨table, isStarts, long⟩, found⟩ := line_of_any_search zero ascending 4
    obtain ⟨promised, reads⟩ := found table isStarts
    obtain ⟨probe, isReport⟩ := (promised (.ok 2)).mp (by rw [isStarts]; rfl)
    obtain ⟨_, scanned, _, same, _⟩ := reads probe
    refine ⟨table, isStarts, long, probe, isReport, ?_, same⟩
    rw [scanned, frontScan, isStarts]
    rfl
  · obtain ⟨⟨table, isStarts, long⟩, found⟩ := line_of_any_search zero ascending 7
    obtain ⟨promised, reads⟩ := found table isStarts
    obtain ⟨probe, isReport⟩ := (promised (.error 3)).mp (by
      rw [isStarts]
      exact ⟨by simp [starts], by decide, by decide⟩)
    obtain ⟨_, scanned, _, same, _⟩ := reads probe
    refine ⟨table, isStarts, long, probe, isReport, ?_, same⟩
    rw [scanned, frontScan, isStarts]
    rfl

end Lineation
