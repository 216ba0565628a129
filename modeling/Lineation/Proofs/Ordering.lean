import Lineation.Proofs.Extents
import Lineation.Proofs.Memory
import Mathlib.Data.List.Destutter
import Mathlib.Data.List.Sort

/-!
Locations in order.

A later offset is on a later line, or further on the same one, so lines and columns in lexicographic
order are in the order of the offsets (`compare_cursor_place`), and within one text the line and the
column tell an offset from every other. Across texts the order is still that of the offsets, but the
same offset may have two locations: they are equal when the texts have ended as many lines by then,
the last of them at the same offset (`place_eq_place_iff`).

Locations compare by offset, so different ones may tie, and whatever puts locations in order has to
settle ties. All of it follows from where sorting puts one more location that is given first: after
those that are less and before all others (`exists_sort_cons`). So sorting keeps ties in the order
given, the least of a list is the first of the sorted list, and the greatest the last. Collecting is
another matter. It drops a location only beside its equal, so it keeps one location for each offset
just when no two different ones tie (`collect_eq_firstOfEach_iff`).

Locations of one text are ordered like their offsets, so it does not matter whether the offsets are
sorted before they are located or their locations afterwards (`LineTable.sort_map_place`). Offsets
are located in the order given, up to the first that lies beyond the end, if there is one: then the
answer is its failure, but what came before it has been located and is remembered.
-/

set_option autoImplicit false
set_option relaxedAutoImplicit false

namespace Lineation

private theorem compare_columns {a b start : Nat} (first : start ≤ a) (second : start ≤ b) :
    compare (a - start + 1) (b - start + 1) = compare a b := by
  rcases Nat.lt_trichotomy a b with less | rfl | greater
  · rw [Nat.compare_eq_lt.mpr less]
    exact Nat.compare_eq_lt.mpr (by omega)
  · rw [Nat.compare_eq_eq.mpr rfl, Nat.compare_eq_eq.mpr rfl]
  · rw [Nat.compare_eq_gt.mpr greater]
    exact Nat.compare_eq_gt.mpr (by omega)

namespace LineTable

variable {table : LineTable}

private theorem OnLine.lt_of_index_lt {a b i j s t : Nat} (first : table.OnLine a i s)
    (second : table.OnLine b j t) (earlier : i < j) : a < b :=
  Nat.lt_of_lt_of_le (first.lt_of_later earlier second.entry) second.start_le

/-- Lines and columns are ordered like the offsets they belong to. -/
theorem compare_cursor_place (table : LineTable) (a b : Nat) :
    compare (table.place a).cursor (table.place b).cursor = compare a b := by
  obtain ⟨i, s, first⟩ := table.exists_onLine a
  obtain ⟨j, t, second⟩ := table.exists_onLine b
  rw [place_eq_of_onLine first, place_eq_of_onLine second]
  rcases Nat.lt_trichotomy i j with earlier | rfl | later
  · have less : a < b := first.lt_of_index_lt second earlier
    rw [Nat.compare_eq_lt.mpr less]
    exact Cursor.compare_of_line_lt (Nat.succ_lt_succ earlier)
  · obtain rfl : s = t := Option.some.inj (first.entry.symm.trans second.entry)
    rw [← compare_columns first.start_le second.start_le]
    exact Cursor.compare_of_line_eq rfl
  · have greater : b < a := second.lt_of_index_lt first later
    rw [Nat.compare_eq_gt.mpr greater]
    exact Cursor.compare_of_line_gt (Nat.succ_lt_succ later)

theorem cursor_place_inj {a b : Nat} :
    (table.place a).cursor = (table.place b).cursor ↔ a = b := by
  constructor
  · intro same
    have ordered := table.compare_cursor_place a b
    rw [same, Cursor.compare_of_line_eq rfl, Nat.compare_eq_eq.mpr rfl] at ordered
    exact Nat.compare_eq_eq.mp ordered.symm
  · rintro rfl
    rfl

private theorem place_inj {a b : Nat} : table.place a = table.place b ↔ a = b := by
  constructor
  · intro same
    exact congrArg Location.offset same
  · rintro rfl
    rfl

/-! ## One offset in several texts -/

private theorem onLine_lineEndsThrough (text : List Char) (offset : Nat) :
    (ofChars text).OnLine offset (lineEndsThrough text offset).length
      (lastLineStart text offset) := by
  induction offset with
  | zero => exact onLine_zero _
  | succ offset ih =>
    by_cases ends : LineEndsAt text (offset + 1)
    · rw [lastLineStart, lineEndsThrough_succ_of_end ends, List.length_append,
        List.getLastD_concat]
      exact ih.succ_of_end ends
    · rw [lastLineStart, lineEndsThrough_succ_of_not_end ends]
      exact ih.succ_of_not_end ends

/-- An offset has the same place in two texts just when as many lines have ended by then and the
last line starts at the same offset. -/
theorem place_eq_place_iff (first second : List Char) (offset : Nat) :
    (ofChars first).place offset = (ofChars second).place offset ↔
      (lineEndsThrough first offset).length = (lineEndsThrough second offset).length ∧
        lastLineStart first offset = lastLineStart second offset := by
  have one := onLine_lineEndsThrough first offset
  have two := onLine_lineEndsThrough second offset
  have reached := one.start_le
  have reachedToo := two.start_le
  rw [place_eq_of_onLine one, place_eq_of_onLine two, Location.ext_iff]
  dsimp only
  omega

end LineTable

theorem Session.result_locate_after_build {n : Nat} (sources : Vector Source n)
    (steps : List (Step n)) (i : Fin n) {offset : Nat}
    (inside : offset ≤ (sources.get i).text.length) :
    ((Index.locate offset).run (((build sources).after steps).get i)).result =
      .ok ((LineTable.ofString (sources.get i).text).place offset) := by
  have isTable := table_after_build sources steps i
  rw [Index.result_locate_of_le, isTable]
  rw [isTable, LineTable.length_ofString]
  exact inside

/-- Whatever has been asked of the indexes of some texts, two locations that they give out compare
like their offsets. If the texts are the same, so do their lines and columns, and the locations are
equal just when the offsets are. If the texts differ, two locations of one offset are equal just
when both texts have ended as many lines by then and their last lines start at the same offset. -/
theorem Session.compare_located {n : Nat} (sources : Vector Source n) (steps : List (Step n))
    (i j : Fin n) {a b : Nat} (insideFirst : a ≤ (sources.get i).text.length)
    (insideSecond : b ≤ (sources.get j).text.length) :
    let session := (build sources).after steps
    let first := (sources.get i).text.toList
    let second := (sources.get j).text.toList
    ∃ one two : Location,
      ((Index.locate a).run (session.get i)).result = .ok one ∧
      ((Index.locate b).run (session.get j)).result = .ok two ∧
      compare one two = compare a b ∧
      ((sources.get i).text = (sources.get j).text →
        compare one.cursor two.cursor = compare a b ∧ (one = two ↔ a = b)) ∧
      (compare one two = .eq →
        (one = two ↔
          (lineEndsThrough first a).length = (lineEndsThrough second b).length ∧
            lastLineStart first a = lastLineStart second b)) := by
  intro session first second
  refine ⟨_, _, result_locate_after_build sources steps i insideFirst,
    result_locate_after_build sources steps j insideSecond, rfl, ?_, ?_⟩
  · intro same
    rw [same]
    exact ⟨LineTable.compare_cursor_place _ a b, LineTable.place_inj⟩
  · intro tied
    obtain rfl : a = b := Nat.compare_eq_eq.mp tied
    exact LineTable.place_eq_place_iff first second a

/-- Two indexes of one text, at an offset inside a line break and the one after it, and indexes of
two texts that agree at an offset although their lines end in different ways. -/
theorem Session.compare_located_mixed_breaks :
    let sources : Vector Source 3 := #v[⟨.cached, "a\r\nb"⟩, ⟨.plain, "a\r\nb"⟩, ⟨.plain, "bc\n"⟩]
    let session := (build sources).after [.locate 0 2]
    let locate := fun (i : Fin 3) (offset : Nat) =>
      ((Index.locate offset).run (session.get i)).result
    2 ≤ (sources.get 0).text.length ∧ 3 ≤ (sources.get 0).text.length ∧
      3 ≤ (sources.get 1).text.length ∧ 3 ≤ (sources.get 2).text.length ∧
      (∃ one two : Location, locate 0 2 = .ok one ∧ locate 1 3 = .ok two ∧
        compare one two = .lt ∧ compare one.cursor two.cursor = .lt ∧ one ≠ two) ∧
      ∃ location : Location, locate 0 3 = .ok location ∧ locate 2 3 = .ok location := by
  intro sources session locate
  have inside : 2 ≤ (sources.get 0).text.length := by decide
  have atEnd : 3 ≤ (sources.get 0).text.length := by decide
  have insideSecond : 3 ≤ (sources.get 1).text.length := by decide
  have insideThird : 3 ≤ (sources.get 2).text.length := by decide
  refine ⟨inside, atEnd, insideSecond, insideThird, ?_, ?_⟩
  · obtain ⟨one, two, located, locatedToo, ordered, within, _⟩ :=
      compare_located sources [.locate 0 2] 0 1 inside insideSecond
    obtain ⟨places, equal⟩ := within rfl
    exact ⟨one, two, located, locatedToo, ordered, places, mt equal.mp (by decide)⟩
  · obtain ⟨one, two, located, locatedToo, ordered, _, across⟩ :=
      compare_located sources [.locate 0 2] 0 2 atEnd insideThird
    have same : one = two := (across ordered).mpr (by decide)
    exact ⟨one, located, same ▸ locatedToo⟩

/-! ## Locations that tie -/

namespace Location

/-! ### Two locations -/

private theorem min_of_le {a b : Location} (le : a.offset ≤ b.offset) : min a b = a := if_pos le

private theorem min_of_lt {a b : Location} (less : b.offset < a.offset) : min a b = b :=
  if_neg (Nat.not_le_of_lt less)

private theorem max_of_le {a b : Location} (le : a.offset ≤ b.offset) : max a b = b := if_pos le

private theorem max_of_lt {a b : Location} (less : b.offset < a.offset) : max a b = a :=
  if_neg (Nat.not_le_of_lt less)

instance : Std.Associative (α := Location) min where
  assoc a b c := by
    rcases Nat.lt_or_ge b.offset a.offset with less | le
    · rw [min_of_lt less]
      rcases Nat.lt_or_ge c.offset b.offset with lesser | more
      · rw [min_of_lt lesser, min_of_lt (Nat.lt_trans lesser less)]
      · rw [min_of_le more, min_of_lt less]
    · rw [min_of_le le]
      rcases Nat.lt_or_ge c.offset b.offset with less | more
      · rw [min_of_lt less]
      · rw [min_of_le more, min_of_le le, min_of_le (Nat.le_trans le more)]

instance : Std.Associative (α := Location) max where
  assoc a b c := by
    rcases Nat.lt_or_ge b.offset a.offset with less | le
    · rw [max_of_lt less]
      rcases Nat.lt_or_ge c.offset b.offset with lesser | more
      · rw [max_of_lt lesser, max_of_lt less, max_of_lt (Nat.lt_trans lesser less)]
      · rw [max_of_le more]
    · rw [max_of_le le]
      rcases Nat.lt_or_ge c.offset b.offset with less | more
      · rw [max_of_lt less, max_of_le le]
      · rw [max_of_le more, max_of_le (Nat.le_trans le more)]

/-! ### Sorting -/

@[simp] theorem sort_nil : sort [] = [] := List.mergeSort_nil

/-- One more location, given first, is sorted after those that are less and before all others. -/
private theorem exists_sort_cons (location : Location) (locations : List Location) :
    ∃ before after, sort (location :: locations) = before ++ location :: after ∧
      sort locations = before ++ after ∧
      (∀ other ∈ before, other.offset < location.offset) ∧
      ∀ other ∈ after, location.offset ≤ other.offset := by
  obtain ⟨before, after, isSorted, isRest, less⟩ :=
    List.mergeSort_cons decide_le_trans decide_le_total location locations
  have ordered := pairwise_sort (location :: locations)
  rw [sort, isSorted, List.pairwise_append, List.pairwise_cons] at ordered
  refine ⟨before, after, isSorted, isRest, ?_, ordered.2.1.1⟩
  intro other member
  have notLe := less other member
  simp only [Bool.not_eq_true', decide_eq_false_iff_not, le_iff_offset] at notLe
  exact Nat.lt_of_not_le notLe

theorem filter_offset_sort (locations : List Location) (offset : Nat) :
    (sort locations).filter (fun location => location.offset = offset) =
      locations.filter fun location => location.offset = offset := by
  induction locations with
  | nil => rw [sort_nil]
  | cons location rest ih =>
    obtain ⟨before, after, isSorted, isRest, less, _⟩ := exists_sort_cons location rest
    rw [isRest, List.filter_append] at ih
    rw [isSorted, List.filter_append, List.filter_cons, List.filter_cons, ← ih]
    split
    · next same =>
      -- Nothing that is sorted before the location has its offset.
      have none : before.filter (fun other => other.offset = offset) = [] := by
        rw [List.filter_eq_nil_iff]
        intro other member
        have apart := less other member
        simp only [decide_eq_true_eq] at same ⊢
        omega
      rw [none, List.nil_append, List.nil_append]
    · rfl

/-! ### The least and the greatest -/

theorem least?_eq_head?_sort (locations : List Location) :
    least? locations = (sort locations).head? := by
  induction locations with
  | nil => rw [sort_nil, least?, List.head?_nil]
  | cons location rest ih =>
    obtain ⟨before, after, isSorted, isRest, less, notLess⟩ := exists_sort_cons location rest
    rw [least?, ih, isSorted, isRest]
    cases before with
    | cons first others =>
      show some (min location first) = some first
      rw [min_of_lt (less first List.mem_cons_self)]
    | nil =>
      cases after with
      | nil => rfl
      | cons next others =>
        show some (min location next) = some location
        rw [min_of_le (notLess next List.mem_cons_self)]

theorem greatest?_eq_getLast?_sort (locations : List Location) :
    greatest? locations = (sort locations).getLast? := by
  induction locations with
  | nil => rw [sort_nil, greatest?, List.getLast?_nil]
  | cons location rest ih =>
    obtain ⟨before, after, isSorted, isRest, less, notLess⟩ := exists_sort_cons location rest
    rw [greatest?, ih, isSorted, isRest, List.getLast?_append, List.getLast?_append,
      List.getLast?_cons]
    cases last : after.getLast? with
    | some final =>
      have member := List.mem_of_getLast? last
      show some (max location final) = some final
      rw [max_of_le (notLess final member)]
    | none =>
      cases final : before.getLast? with
      | none => rfl
      | some best =>
        have member := List.mem_of_getLast? final
        show some (max location best) = some location
        rw [max_of_lt (less best member)]

private theorem least?_eq_min? (locations : List Location) : least? locations = locations.min? := by
  induction locations with
  | nil => rfl
  | cons location rest ih =>
    rw [least?, ih, List.min?_cons]
    cases rest.min? <;> rfl

private theorem greatest?_eq_max? (locations : List Location) :
    greatest? locations = locations.max? := by
  induction locations with
  | nil => rfl
  | cons location rest ih =>
    rw [greatest?, ih, List.max?_cons]
    cases rest.max? <;> rfl

/-! ### Collecting -/

/-- Of neighbours with the same offset only the first. -/
def firstOfEach (locations : List Location) : List Location :=
  locations.destutter fun a b => a.offset ≠ b.offset

def Untied (locations : List Location) : Prop :=
  ∀ a ∈ locations, ∀ b ∈ locations, a.offset = b.offset → a = b

private theorem withoutRepeats_cons (location : Location) (locations : List Location) :
    withoutRepeats (location :: locations) = locations.destutter' (· ≠ ·) location := by
  induction locations generalizing location with
  | nil => rfl
  | cons next rest ih =>
    rw [withoutRepeats, List.destutter'_cons, ih]
    by_cases same : location = next
    · rw [if_pos same, if_neg (not_not.mpr same), same]
    · rw [if_neg same, if_pos same]

theorem withoutRepeats_eq_destutter (locations : List Location) :
    withoutRepeats locations = locations.destutter (· ≠ ·) := by
  cases locations with
  | nil => rfl
  | cons location rest => exact withoutRepeats_cons location rest

private theorem mem_withoutRepeats (locations : List Location) (location : Location) :
    location ∈ withoutRepeats locations ↔ location ∈ locations := by
  induction locations using withoutRepeats.induct with
  | case1 => exact Iff.rfl
  | case2 last => exact Iff.rfl
  | case3 second rest ih => simp [withoutRepeats, ih]
  | case4 first second rest different ih => simp [withoutRepeats, different, ih]

theorem mem_collect (locations : List Location) (location : Location) :
    location ∈ collect locations ↔ location ∈ locations := by
  rw [collect, mem_withoutRepeats, (sort_perm locations).mem_iff]

private theorem pairwise_lt_of_isChain {locations : List Location}
    (ordered : locations.Pairwise fun a b => a.offset ≤ b.offset)
    (apart : locations.IsChain fun a b => a.offset ≠ b.offset) :
    locations.Pairwise fun a b => a.offset < b.offset := by
  induction locations with
  | nil => exact .nil
  | cons first rest ih =>
    obtain ⟨upper, later⟩ := List.pairwise_cons.mp ordered
    refine List.pairwise_cons.mpr ⟨?_, ih later apart.tail⟩
    intro other member
    cases rest with
    | nil => cases member
    | cons second others =>
      have different := (List.isChain_cons_cons.mp apart).1
      have least := upper second List.mem_cons_self
      rcases List.mem_cons.mp member with rfl | further
      · omega
      · have beyond := (List.pairwise_cons.mp later).1 other further
        omega

theorem pairwise_firstOfEach {locations : List Location}
    (ordered : locations.Pairwise fun a b => a.offset ≤ b.offset) :
    (firstOfEach locations).Pairwise fun a b => a.offset < b.offset :=
  pairwise_lt_of_isChain (ordered.sublist (List.destutter_sublist _ locations))
    (List.isChain_destutter _ locations)

theorem pairwise_collect (locations : List Location) :
    (collect locations).Pairwise fun a b => a.offset ≤ b.offset := by
  rw [collect, withoutRepeats_eq_destutter]
  exact (pairwise_sort locations).sublist (List.destutter_sublist _ _)

private theorem untied_of_pairwise_collect {locations : List Location}
    (ascending : (collect locations).Pairwise fun a b => a.offset < b.offset) :
    Untied locations := by
  intro a first b second tied
  have apart : (collect locations).Pairwise fun a b => a.offset ≠ b.offset :=
    ascending.imp Nat.ne_of_lt
  have symmetric : Std.Symm fun a b : Location => a.offset ≠ b.offset := ⟨fun _ _ => Ne.symm⟩
  by_contra different
  exact apart.forall ((mem_collect locations a).mpr first) ((mem_collect locations b).mpr second)
    different tied

private theorem collect_of_untied {locations : List Location} (untied : Untied locations) :
    collect locations = firstOfEach (sort locations) := by
  have agree : ∀ a ∈ sort locations, ∀ b ∈ sort locations, a ≠ b ↔ a.offset ≠ b.offset := by
    intro a first b second
    refine not_congr ⟨congrArg offset, ?_⟩
    exact untied a (List.mem_mergeSort.mp first) b (List.mem_mergeSort.mp second)
  have same := @List.map_destutter _ _ (· ≠ ·) _ (fun a b : Location => a.offset ≠ b.offset) _ id
    (sort locations) agree
  rw [List.map_id, List.map_id] at same
  rw [collect, withoutRepeats_eq_destutter, firstOfEach, ← same]

theorem collect_eq_firstOfEach_iff (locations : List Location) :
    collect locations = firstOfEach (sort locations) ↔ Untied locations := by
  constructor
  · intro same
    apply untied_of_pairwise_collect
    rw [same]
    exact pairwise_firstOfEach (pairwise_sort locations)
  · exact collect_of_untied

theorem pairwise_lt_collect_iff (locations : List Location) :
    ((collect locations).Pairwise fun a b => a.offset < b.offset) ↔ Untied locations := by
  constructor
  · exact untied_of_pairwise_collect
  · intro untied
    rw [collect_of_untied untied]
    exact pairwise_firstOfEach (pairwise_sort locations)

/-- Sorting a list of locations keeps those that tie in the order given. Collecting leaves out of
the sorted list just those that stand beside their equals; so it ascends strictly, with the first
location of each offset alone, just when no two different ones tie. The least and the greatest are
the first and the last of the sorted list, and what folding the list from the left with `min` and
with `max` gives; of two that tie these give the first and the second, and both are associative. -/
theorem ties_settled (locations : List Location) :
    ((sort locations).Perm locations ∧
      ((sort locations).Pairwise fun a b => a.offset ≤ b.offset) ∧
      ∀ offset, (sort locations).filter (fun location => location.offset = offset) =
        locations.filter fun location => location.offset = offset) ∧
    (collect locations = (sort locations).destutter (· ≠ ·) ∧
      (∀ location, location ∈ collect locations ↔ location ∈ locations) ∧
      ((collect locations).Pairwise fun a b => a.offset ≤ b.offset) ∧
      (collect locations = firstOfEach (sort locations) ↔ Untied locations) ∧
      (((collect locations).Pairwise fun a b => a.offset < b.offset) ↔ Untied locations)) ∧
    (least? locations = (sort locations).head? ∧
      greatest? locations = (sort locations).getLast? ∧
      least? locations = locations.min? ∧ greatest? locations = locations.max?) ∧
    (∀ a b : Location, compare a b = .eq → min a b = a ∧ max a b = b) ∧
    (∀ a b c : Location, min (min a b) c = min a (min b c)) ∧
    ∀ a b c : Location, max (max a b) c = max a (max b c) := by
  refine ⟨⟨sort_perm _, pairwise_sort _, filter_offset_sort _⟩,
    ⟨?_, mem_collect _, pairwise_collect _, collect_eq_firstOfEach_iff _,
      pairwise_lt_collect_iff _⟩,
    ⟨least?_eq_head?_sort _, greatest?_eq_getLast?_sort _, least?_eq_min? _, greatest?_eq_max? _⟩,
    ?_, Std.Associative.assoc, Std.Associative.assoc⟩
  · rw [collect, withoutRepeats_eq_destutter]
  · intro a b tied
    have same : a.offset = b.offset := Nat.compare_eq_eq.mp tied
    exact ⟨min_of_le (Nat.le_of_eq same), max_of_le (Nat.le_of_eq same)⟩

/-- Two different locations of one offset are both collected, so collecting a list does not always
keep just the first location of each offset. -/
theorem collect_keeps_ties :
    let tied : List Location :=
      [{ offset := 0, line := 6, column := 33 }, { offset := 0, line := 7, column := 14 }]
    collect tied = tied ∧
      firstOfEach (sort tied) = [{ offset := 0, line := 6, column := 33 }] ∧
      collect tied ≠ firstOfEach (sort tied) ∧
      ¬ (collect tied).Pairwise fun a b => a.offset < b.offset := by
  intro tied
  have isSorted : sort tied = tied := List.mergeSort_of_pairwise (by decide)
  rw [collect, isSorted]
  decide

end Location

/-! ## Locating offsets and sorting their locations -/

private theorem exists_first_beyond {length : Nat} {offsets : List Nat}
    (outside : ∃ offset ∈ offsets, length < offset) :
    ∃ before beyond after, offsets = before ++ beyond :: after ∧
      (∀ offset ∈ before, offset ≤ length) ∧ length < beyond := by
  induction offsets with
  | nil =>
    obtain ⟨_, member, _⟩ := outside
    cases member
  | cons first rest ih =>
    rcases Nat.lt_or_ge length first with beyond | inside
    · exact ⟨[], first, rest, rfl, nofun, beyond⟩
    · have later : ∃ offset ∈ rest, length < offset := by
        obtain ⟨offset, member, great⟩ := outside
        rcases List.mem_cons.mp member with rfl | further
        · omega
        · exact ⟨offset, further, great⟩
      obtain ⟨before, beyond, after, rfl, within, great⟩ := ih later
      refine ⟨first :: before, beyond, after, rfl, ?_, great⟩
      exact List.forall_mem_cons.mpr ⟨inside, within⟩

private theorem takeWhile_before_beyond {length : Nat} {before after : List Nat} {beyond : Nat}
    (within : ∀ offset ∈ before, offset ≤ length) (great : length < beyond) :
    (before ++ beyond :: after).takeWhile (· ≤ length) = before := by
  rw [List.takeWhile_append_of_pos (by simpa using within),
    List.takeWhile_cons_of_neg (by simpa using great), List.append_nil]

namespace LineTable

variable {table : LineTable}

private theorem mapM_locate_of_le {offsets : List Nat}
    (inside : ∀ offset ∈ offsets, offset ≤ table.length) :
    offsets.mapM table.locate = .ok (offsets.map table.place) := by
  induction offsets with
  | nil => rfl
  | cons offset rest ih =>
    obtain ⟨first, later⟩ := List.forall_mem_cons.mp inside
    have located : table.locate offset = .ok (table.place offset) := if_pos first
    rw [List.mapM_cons, located, ih later]
    rfl

private theorem mapM_locate_of_lt {before after : List Nat} {beyond : Nat}
    (within : ∀ offset ∈ before, offset ≤ table.length) (great : table.length < beyond) :
    (before ++ beyond :: after).mapM table.locate = .error (.ofOffset beyond table.length) := by
  have rejected : table.locate beyond = .error (.ofOffset beyond table.length) :=
    if_neg (Nat.not_le_of_lt great)
  rw [List.mapM_append, mapM_locate_of_le within, List.mapM_cons, rejected]
  rfl

theorem sort_map_place (table : LineTable) (offsets : List Nat) :
    Location.sort (offsets.map table.place) = offsets.mergeSort.map table.place := by
  have places (a b : Nat) : decide (a ≤ b) = decide (table.place a ≤ table.place b) := rfl
  exact (List.map_mergeSort fun a _ b _ => places a b).symm

theorem pairwise_map_place (table : LineTable) {offsets : List Nat}
    (ordered : offsets.Pairwise (· ≤ ·)) :
    (offsets.map table.place).Pairwise fun a b => (compare a.cursor b.cursor).isLE = true := by
  rw [List.pairwise_map]
  apply ordered.imp
  intro a b le
  rw [compare_cursor_place, Nat.isLE_compare]
  exact le

end LineTable

private theorem Session.Recalls.exists_memo_sort {n : Nat} {session : Session n}
    {asked : List (Request n)}
    (recalls : session.Recalls asked) {i : Fin n} (caching : session.caching i = true)
    {before : List Nat} (within : ∀ offset ∈ before, offset ≤ session.lengths i) {beyond : Nat}
    (great : session.lengths i < beyond) (after : List Nat) :
    ∃ cells later, (session.get i).memo = some cells ∧
      (((Session.perform (.sort i (before ++ beyond :: after))).run session).state.get i).memo =
        some later ∧
      ∀ key, key ∈ later ↔ key ∈ cells ∨ key ∈ before := by
  have stillCaching := caching
  rw [Session.caching,
    ← session.settings_state_perform (.sort i (before ++ beyond :: after)) i] at stillCaching
  obtain ⟨cells, isMemo⟩ := Index.exists_memo caching
  obtain ⟨later, isLater⟩ := Index.exists_memo stillCaching
  refine ⟨cells, later, isMemo, isLater, ?_⟩
  intro key
  have known := recalls.isSome_remembered?_perform (.sort i (before ++ beyond :: after)) i key
  simp only [Step.Locates, takeWhile_before_beyond within great, caching, true_and] at known
  simp only [Index.remembered?, isMemo, isLater, Option.bind_some,
    ← Std.ExtTreeMap.mem_iff_isSome_getElem?] at known
  exact known

/-- Whatever has been asked, locating some offsets of a text and sorting the locations gives what
locating gives for the sorted offsets, and their lines and columns ascend. If some offsets lie
beyond the end, the answer is the failure of the first of them, and an index with a memory remembers
afterwards what it did before and the offsets that stand before that one. -/
theorem Session.sort_located {n : Nat} (sources : Vector Source n) (steps : List (Step n))
    (i : Fin n) (offsets : List Nat) :
    let length := (sources.get i).text.length
    let session := (build sources).after steps
    let index := session.get i
    let locate := fun offset => ((Index.locate offset).run index).result
    let outcome := (perform (.sort i offsets)).run session
    ((∀ offset ∈ offsets, offset ≤ length) →
      ∃ found, ((Index.locateAll offsets).run index).result = .ok found ∧
        outcome.result = .ok (.sorted (Location.sort found)) ∧
        (Location.sort found).map Except.ok = offsets.mergeSort.map locate ∧
        (Location.sort found).Pairwise fun a b => (compare a.cursor b.cursor).isLE = true) ∧
    ((∃ offset ∈ offsets, length < offset) →
      ∃ before beyond after failure, offsets = before ++ beyond :: after ∧
        (∀ offset ∈ before, offset ≤ length) ∧ length < beyond ∧
        locate beyond = .error failure ∧ outcome.result = .error failure ∧
        (index.settings.caching = true →
          ∃ cells later, index.memo = some cells ∧
            (outcome.state.get i).memo = some later ∧
            ∀ key, key ∈ later ↔ key ∈ cells ∨ key ∈ before)) := by
  intro length session index locate outcome
  have isTable : index.table = .ofString (sources.get i).text := table_after_build sources steps i
  have isLength : index.table.length = length := by rw [isTable, LineTable.length_ofString]
  have ran : ((Index.locateAll offsets).run index).result = offsets.mapM index.table.locate :=
    (Index.reads_locateAll offsets).result index
  have answered : outcome.result =
      (offsets.mapM index.table.locate).map fun found => .sorted (Location.sort found) := by
    rw [← ran]
    exact congrArg Outcome.result (Lookup.run_map _ _ session)
  have located (offset : Nat) : locate offset = index.table.locate offset :=
    index.result_locate offset
  refine ⟨?_, ?_⟩
  · intro inside
    rw [← isLength] at inside
    rw [LineTable.mapM_locate_of_le inside] at ran answered
    refine ⟨_, ran, answered, ?_, ?_⟩
    · rw [LineTable.sort_map_place, List.map_map]
      apply List.map_congr_left
      intro offset member
      rw [located]
      exact (if_pos (inside offset (List.mem_mergeSort.mp member))).symm
    · rw [LineTable.sort_map_place]
      exact index.table.pairwise_map_place (List.pairwise_mergeSort' (· ≤ ·) offsets)
  · intro outside
    rw [← isLength] at outside
    obtain ⟨before, beyond, after, rfl, within, great⟩ := exists_first_beyond outside
    rw [LineTable.mapM_locate_of_lt within great] at answered
    refine ⟨before, beyond, after, _, rfl, isLength ▸ within, isLength ▸ great, ?_, answered, ?_⟩
    · rw [located]
      exact if_neg (Nat.not_le_of_lt great)
    · intro caching
      exact (recalls_after sources steps).exists_memo_sort caching within great after

/-- Some offsets in no order, one of them twice and one already remembered; and some of which two
lie beyond the end. -/
theorem Session.sort_located_out_of_order :
    let sources : Vector Source 1 := #v[⟨.cached, "a\r\nb"⟩]
    let session := (build sources).after [.locate 0 2]
    let index := session.get 0
    let locate := fun offset => ((Index.locate offset).run index).result
    let stopped := (perform (.sort 0 [3, 9, 1, 7])).run session
    (∃ found, ((Index.locateAll [3, 0, 3, 2]).run index).result = .ok found ∧
      (Location.sort found).map Except.ok = [0, 2, 3, 3].map locate) ∧
    (∃ failure, locate 9 = .error failure ∧ stopped.result = .error failure) ∧
    ∃ cells later, index.memo = some cells ∧ (stopped.state.get 0).memo = some later ∧
      ∀ key, key ∈ later ↔ key ∈ cells ∨ key = 3 := by
  intro sources session index locate stopped
  constructor
  · have isSorted : [3, 0, 3, 2].mergeSort = [0, 2, 3, 3] := by
      simp [List.mergeSort, List.MergeSort.Internal.splitInTwo]
    obtain ⟨found, ran, _, sorted, _⟩ :=
      (sort_located sources [.locate 0 2] 0 [3, 0, 3, 2]).1 (by decide)
    rw [isSorted] at sorted
    exact ⟨found, ran, sorted⟩
  · obtain ⟨before, beyond, after, failure, isList, within, great, rejected, answered, kept⟩ :=
      (sort_located sources [.locate 0 2] 0 [3, 9, 1, 7]).2 (by decide)
    obtain rfl : [3] = before := by
      rw [← takeWhile_before_beyond within great, ← isList]
      decide
    obtain ⟨rfl, rfl⟩ : 9 = beyond ∧ [1, 7] = after := by simpa using isList
    have caching : session.caching 0 = true :=
      congrFun ((caching_after (build sources) [.locate 0 2]).trans (caching_build sources)) 0
    obtain ⟨cells, later, isMemo, isLater, keys⟩ := kept caching
    simp only [List.mem_singleton] at keys
    exact ⟨⟨failure, rejected, answered⟩, cells, later, isMemo, isLater, keys⟩

end Lineation
