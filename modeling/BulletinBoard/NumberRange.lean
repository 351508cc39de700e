import BulletinBoard.Numbering

/- Numbers beyond `int`. The generator prints its numbers as `long int` and reads them back from the file
   with `atoi`, so that a line with a number from 2^31 on does not count as what it is. The number
   given out lies above all the numbers that are read as they are; it is one in use only if it
   is itself beyond `int`, and stands right above the largest, or above the entries of `temp_list`
   that lead on from it. -/
namespace BulletinBoard

/-- The number that comes next for this list and this largest number on file: the one above it, where the
    list does not hold the largest, and otherwise the first above it that the list, but for its
    first entry, does not hold. -/
def NextNumber (L : List Int) (max num : Int) : Prop :=
  max < num ∧ if max ∈ L then (∀ x, max < x → x < num → x ∈ L.tail) ∧ num ∉ L.tail else num = max + 1

theorem NextNumber.unique {L : List Int} {max num num' : Int} (h : NextNumber L max num)
    (h' : NextNumber L max num') : num = num' := by
  obtain ⟨hlt, hnext⟩ := h
  obtain ⟨hlt', hnext'⟩ := h'
  split at hnext
  · next hmem =>
    rw [if_pos hmem] at hnext'
    rcases lt_trichotomy num num' with h | h | h
    · exact absurd (hnext'.1 num hlt h) hnext.2
    · exact h
    · exact absurd (hnext.1 num' hlt' h) hnext'.2
  · next hmem =>
    rw [if_neg hmem] at hnext'
    rw [hnext, hnext']

/-- `generate_number` returns it. -/
theorem generateNumber_next (junk : List Char) (L : List Int) {ls : List CStr} {d d' : Disk}
    (hd : d.bbfile = fileOf ls) (h : ∀ l ∈ ls, Clean l) (ho : d.openFile = (some ⟨d.bbfile, false⟩, d')) :
    ∃ num g, generateNumber junk ⟨L⟩ d = some (num, g, d') ∧ NextNumber L (maxNumber ls) num := by
  obtain ⟨k, hr, hin, hout, hk⟩ := rescan_result L (maxNumber ls)
  refine ⟨_, _, generateNumber_rescan junk hd h ho hr, ?_⟩
  by_cases hmem : maxNumber ls ∈ L
  · have h₀ : k ≠ 0 := fun h₀ => hk.1 h₀ hmem
    rw [if_neg h₀]
    refine ⟨by omega, ?_⟩
    rw [if_pos hmem]
    refine ⟨fun x hlt hx => ?_, hout⟩
    have := hin (x - maxNumber ls).toNat (by omega) (by omega)
    rwa [show maxNumber ls + ((x - maxNumber ls).toNat : Int) = x by omega] at this
  · rw [if_pos (hk.2 hmem)]
    refine ⟨by omega, ?_⟩
    rw [if_neg hmem]

theorem next_of_generate {junk : List Char} {L : List Int} {ls : List CStr} {d d' d'' : Disk} {num : Int} {g : NumGen}
    (hd : d.bbfile = fileOf ls) (h : ∀ l ∈ ls, Clean l) (ho : d.openFile = (some ⟨d.bbfile, false⟩, d'))
    (hgen : generateNumber junk ⟨L⟩ d = some (num, g, d'')) : NextNumber L (maxNumber ls) num := by
  obtain ⟨num', g', hgen', hnext⟩ := generateNumber_next junk L hd h ho
  rw [hgen, Option.some.injEq, Prod.mk.injEq] at hgen'
  rw [hgen'.1]
  exact hnext

/-! The numbers of a board. -/

/-- The numbers of the live lines are positive `long int` values. -/
def Board.LongNumbers (b : Board) : Prop :=
  ∀ l ∈ liveLines b.lines, 0 < numeralValue l.id ∧ (numeralValue l.id : Int) ≤ LONG_MAX

/-- Whatever the opens do, a number that is given out is the number of no live line. -/
def Unused (b : Board) (L : List Int) : Prop :=
  ∀ junk opens num g d, generateNumber junk ⟨L⟩ ⟨b.bytes, opens⟩ = some (num, g, d) →
    ∀ l ∈ liveLines b.lines, (numeralValue l.id : Int) ≠ num

theorem onFile_of_live {b : Board} {l : LiveLine} (hl : l ∈ liveLines b.lines)
    (hint : (numeralValue l.id : Int) ≤ INT_MAX) : OnFile b.texts (numeralValue l.id) := by
  obtain ⟨x, hx, hlive⟩ := List.mem_filterMap.1 hl
  cases x with
  | deleted n pos lt => cases hlive
  | live l' =>
    obtain rfl := Option.some.inj hlive
    refine ⟨l'.text, List.mem_map.2 ⟨.live l', hx, rfl⟩, ?_⟩
    exact atoi_of_carries (Or.inr ⟨l'.ok.firstField.symm ▸ l'.ok.id_numeral, by rw [LiveLine.text, l'.ok.firstField]⟩)
      (by omega) hint

/-- A number that a live line has and that comes next is beyond `int`. -/
theorem int_lt_of_next {b : Board} {L : List Int} {l : LiveLine} (hl : l ∈ liveLines b.lines)
    (h : NextNumber L (maxNumber b.texts) (numeralValue l.id)) : INT_MAX < numeralValue l.id := by
  by_contra hint
  have := le_maxNumber (onFile_of_live hl (by omega))
  have := h.1
  omega

theorem unused_of_not_next {b : Board} {L : List Int} (hpos : b.LongNumbers)
    (hfree : ∀ l ∈ liveLines b.lines, ¬ NextNumber L (maxNumber b.texts) (numeralValue l.id)) : Unused b L := by
  intro junk opens num g d hgen l hl hnum
  rcases opens with _ | ⟨o, os⟩
  · have hnext := next_of_generate (d := ⟨b.bytes, []⟩) rfl b.texts_clean rfl hgen
    exact hfree l hl (hnum.symm ▸ hnext)
  · cases o with
    | ok =>
      have hnext := next_of_generate (d := ⟨b.bytes, .ok :: os⟩) rfl b.texts_clean rfl hgen
      exact hfree l hl (hnum.symm ▸ hnext)
    | fails =>
      -- the answer of a failing open is no number
      have := (hpos l hl).1
      simp only [generateNumber, Disk.openFile, Option.some.injEq, Prod.mk.injEq] at hgen
      omega
    | readFails k =>
      simp only [generateNumber, Disk.openFile, scanMax_fails] at hgen
      cases hgen

theorem not_next_of_unused {b : Board} {L : List Int} (h : Unused b L) :
    ∀ l ∈ liveLines b.lines, ¬ NextNumber L (maxNumber b.texts) (numeralValue l.id) := by
  intro l hl hnext
  obtain ⟨num, g, hgen, hnum⟩ := generateNumber_next [] L (d := diskOf b.bytes) rfl b.texts_clean rfl
  exact h [] [] num g _ hgen l hl (hnext.unique hnum)

/-- **Numbers in use are not given out**, exactly when no live line has a number beyond `int` that comes
    next. -/
theorem generated_unused_iff {b : Board} (hpos : b.LongNumbers) (L : List Int) :
    Unused b L ↔ ∀ l ∈ liveLines b.lines, INT_MAX < numeralValue l.id →
      ¬ NextNumber L (maxNumber b.texts) (numeralValue l.id) := by
  constructor
  · exact fun h l hl _ => not_next_of_unused h l hl
  · exact fun h => unused_of_not_next hpos fun l hl hnext => h l hl (int_lt_of_next hl hnext) hnext

/-- One line, with its number in the list. -/
theorem generated_unused_oneLine : oneLine.LongNumbers ∧ Unused oneLine [1] := by
  have hline : ∀ l ∈ liveLines oneLine.lines, numeralValue l.id = 1 := by
    intro l hl
    obtain rfl := List.mem_singleton.1 hl
    decide
  have hpos : oneLine.LongNumbers := fun l hl => by
    rw [hline l hl]
    decide
  refine ⟨hpos, (generated_unused_iff hpos [1]).2 fun l hl hbeyond => ?_⟩
  rw [hline l hl] at hbeyond
  exact absurd hbeyond (by decide)

theorem maxNumber_le_int (ls : List CStr) : maxNumber ls ≤ INT_MAX := by
  rcases maxNumber_attained ls with ⟨l, -, he⟩ | h₀
  · rw [← he, atoi, toInt]
    have := Int.bmod_lt (x := strtol (firstField l)) (m := 2 ^ 32) (by decide)
    unfold INT_MAX
    omega
  · rw [h₀]
    decide

/-- Every list is good for a board exactly when all its numbers are in `int`. -/
theorem unused_all_iff {b : Board} (hpos : b.LongNumbers) :
    (∀ L, Unused b L) ↔ ∀ l ∈ liveLines b.lines, (numeralValue l.id : Int) ≤ INT_MAX := by
  constructor
  · -- a list of everything from the largest number on file up to the line's
    intro h l hl
    by_contra hbeyond
    have hmax := maxNumber_le_int b.texts
    obtain ⟨n, hn⟩ := Int.eq_ofNat_of_zero_le (a := numeralValue l.id - maxNumber b.texts) (by omega)
    have hmem : ∀ x, x ∈ (List.range n).map (fun i : Nat => maxNumber b.texts + i) ↔
        maxNumber b.texts ≤ x ∧ x < numeralValue l.id := by
      intro x
      rw [List.mem_map]
      constructor
      · rintro ⟨i, hi, rfl⟩
        have := List.mem_range.1 hi
        omega
      · intro hx
        exact ⟨(x - maxNumber b.texts).toNat, List.mem_range.2 (by omega), by omega⟩
    refine not_next_of_unused (h (0 :: (List.range n).map fun i : Nat => maxNumber b.texts + i)) l hl ⟨by omega, ?_⟩
    rw [if_pos (List.mem_cons_of_mem _ ((hmem _).2 (by omega))), List.tail_cons]
    exact ⟨fun x hlt hx => (hmem x).2 (by omega), fun hv => by have := (hmem _).1 hv; omega⟩
  · exact fun hint L => unused_of_not_next hpos fun l hl hnext => by
      have := int_lt_of_next hl hnext
      have := hint l hl
      omega

/-- A board with a number beyond `int`, as a peer can have it written. -/
def beyondIntBoard : Board where
  lines := [
    .live ⟨"2147483647".toList, ['u'], ['m'], ⟨by decide, by decide, ⟨'m', by simp, rfl⟩, by decide, by decide, by decide⟩⟩,
    .live ⟨"2147483648".toList, ['u'], ['m'], ⟨by decide, by decide, ⟨'m', by simp, rfl⟩, by decide, by decide, by decide⟩⟩]
  distinct := by decide

/-- The number above 2147483647 is given out although a line has it. -/
theorem generated_in_use : ∃ b : Board, b.LongNumbers ∧ ¬ Unused b [] := by
  have hmax : maxNumber beyondIntBoard.texts = 2147483647 := by decide
  refine ⟨beyondIntBoard, ?_, fun h => ?_⟩
  · intro l hl
    simp only [beyondIntBoard, liveLines_live, liveLines_nil, List.mem_cons, List.not_mem_nil, or_false] at hl
    rcases hl with rfl | rfl
    · decide
    · decide
  · refine not_next_of_unused h ⟨"2147483648".toList, ['u'], ['m'], _⟩ (List.mem_cons_of_mem _ List.mem_cons_self) ?_
    rw [hmax]
    exact ⟨by decide, by decide⟩

end BulletinBoard
