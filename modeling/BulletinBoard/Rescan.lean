import BulletinBoard.Descriptor
import BulletinBoard.Lib.Loop

/- The loop of `generate_number` over `temp_list`, as a loop that is left from the
   middle. A match takes `max` past an entry and starts the list again, at index 1; every
   other round moves `j` on. So the entries from `max` on, and behind them the
   distance of `j` from the end, go down in every round, and `rescan` has
   rounds enough. Below `j` no entry is `max`, but for the one at index 0 after a match,
   which the loop does not look at again. -/
namespace BulletinBoard

/-- The variables of the loop. -/
structure Rescan where
  j : Nat
  max : Int
  max_changed : Bool

/-- A round: the condition of the `for`, its body and `j++`. The test that breaks is made on the
    index the round began with and on what the body has left in `j`. -/
def rescanRound (temp_list : List Int) (s : Rescan) : Rescan ⊕ (Int × Bool) :=
  if s.j < temp_list.length then
    let jj := s.j
    let s := if s.max = temp_list.getD s.j 0 then ⟨0, s.max + 1, true⟩ else s
    if jj = temp_list.length - 1 ∧ s.j ≠ 0 then .inr (s.max, s.max_changed)
    else .inl { s with j := s.j + 1 }
  else .inr (s.max, s.max_changed)

/-! The entries of the list. -/

theorem mem_tail_iff {L : List Int} {x : Int} :
    x ∈ L.tail ↔ ∃ i, 1 ≤ i ∧ i < L.length ∧ L.getD i 0 = x := by
  rw [List.mem_iff_getElem]
  constructor
  · rintro ⟨i, hi, rfl⟩
    rw [List.length_tail] at hi
    refine ⟨i + 1, by omega, by omega, ?_⟩
    rw [List.getElem_tail]
    exact (List.getElem_eq_getD 0).symm
  · rintro ⟨i, h₁, hi, rfl⟩
    obtain ⟨i, rfl⟩ : ∃ j, i = j + 1 := ⟨i - 1, by omega⟩
    refine ⟨i, by rw [List.length_tail]; omega, ?_⟩
    rw [List.getElem_tail]
    exact List.getElem_eq_getD 0

/-- The entries a match may still move past. -/
def entriesFrom (L : List Int) (max : Int) : Nat := L.countP (fun x => decide (max ≤ x))

theorem entriesFrom_succ (L : List Int) (max : Int) :
    entriesFrom L max = entriesFrom L (max + 1) + L.count max := by
  unfold entriesFrom
  induction L with
  | nil => rfl
  | cons x L ih =>
    simp only [List.countP_cons, List.count_cons, ih, decide_eq_true_eq, beq_iff_eq]
    split_ifs <;> omega

theorem entriesFrom_lt {L : List Int} {max : Int} (h : max ∈ L) :
    entriesFrom L (max + 1) < entriesFrom L max := by
  have := List.count_pos_iff.2 h
  rw [entriesFrom_succ L max]; omega

theorem entriesFrom_le (L : List Int) (max : Int) : entriesFrom L max ≤ L.length :=
  List.countP_le_length

section
variable {L : List Int} {m : Int} {s s' : Rescan} {r : Int × Bool} {k n : Nat}

/-! What a round does. -/

/-- A round that goes on: a match, or the next index. -/
theorem rescanRound_goesOn (h : rescanRound L s = .inl s') : s.j < L.length ∧
    (s.max = L.getD s.j 0 ∧ s' = ⟨1, s.max + 1, true⟩ ∨
      s.max ≠ L.getD s.j 0 ∧ ¬(s.j = L.length - 1 ∧ s.j ≠ 0) ∧ s' = ⟨s.j + 1, s.max, s.max_changed⟩) := by
  unfold rescanRound at h
  by_cases hlt : s.j < L.length
  · refine ⟨hlt, ?_⟩
    by_cases hmax : s.max = L.getD s.j 0
    · left
      simp only [if_pos hlt, if_pos hmax, ne_eq, not_true_eq_false, and_false, if_false, Sum.inl.injEq] at h
      exact ⟨hmax, h.symm⟩
    · right
      by_cases hlast : s.j = L.length - 1 ∧ s.j ≠ 0
      · simp only [if_pos hlt, if_neg hmax, if_pos hlast, reduceCtorEq] at h
      · simp only [if_pos hlt, if_neg hmax, if_neg hlast, Sum.inl.injEq] at h
        exact ⟨hmax, hlast, h.symm⟩
  · simp only [if_neg hlt, reduceCtorEq] at h

/-- A round that leaves: behind the list, or at its last entry without a match. -/
theorem rescanRound_leaves (h : rescanRound L s = .inr r) : r = (s.max, s.max_changed) ∧
    (L.length ≤ s.j ∨ s.j < L.length ∧ s.max ≠ L.getD s.j 0 ∧ s.j = L.length - 1 ∧ s.j ≠ 0) := by
  unfold rescanRound at h
  by_cases hlt : s.j < L.length
  · by_cases hmax : s.max = L.getD s.j 0
    · simp only [if_pos hlt, if_pos hmax, ne_eq, not_true_eq_false, and_false, if_false, reduceCtorEq] at h
    · by_cases hlast : s.j = L.length - 1 ∧ s.j ≠ 0
      · simp only [if_pos hlt, if_neg hmax, if_pos hlast, Sum.inr.injEq] at h
        exact ⟨h.symm, Or.inr ⟨hlt, hmax, hlast⟩⟩
      · simp only [if_pos hlt, if_neg hmax, if_neg hlast, reduceCtorEq] at h
  · simp only [if_neg hlt, Sum.inr.injEq] at h
    exact ⟨h.symm, Or.inl (Nat.le_of_not_lt hlt)⟩

/-! The rounds end. -/

/-- Passes over the list for the entries from `max` on, and what is left of this pass. -/
def rescanMeasure (L : List Int) (s : Rescan) : Nat :=
  entriesFrom L s.max * (L.length + 1) + (L.length - s.j)

theorem rescanMeasure_lt (h : rescanRound L s = .inl s') : rescanMeasure L s' < rescanMeasure L s := by
  obtain ⟨hlt, ⟨hmax, rfl⟩ | ⟨-, -, rfl⟩⟩ := rescanRound_goesOn h
  · -- one pass fewer
    have hmem : s.max ∈ L := by
      rw [hmax, ← List.getElem_eq_getD (h := hlt)]
      exact List.getElem_mem hlt
    show entriesFrom L (s.max + 1) * (L.length + 1) + (L.length - 1) < rescanMeasure L s
    calc entriesFrom L (s.max + 1) * (L.length + 1) + (L.length - 1)
        < (entriesFrom L (s.max + 1) + 1) * (L.length + 1) := by rw [Nat.succ_mul]; omega
      _ ≤ entriesFrom L s.max * (L.length + 1) := Nat.mul_le_mul_right _ (entriesFrom_lt hmem)
      _ ≤ rescanMeasure L s := Nat.le_add_right _ _
  · show entriesFrom L s.max * (L.length + 1) + (L.length - (s.j + 1)) < rescanMeasure L s
    unfold rescanMeasure
    omega

theorem rescanMeasure_lt_rounds (L : List Int) (s : Rescan) : rescanMeasure L s < rescanRounds L := by
  calc rescanMeasure L s
      ≤ L.length * (L.length + 1) + L.length :=
        Nat.add_le_add (Nat.mul_le_mul_right _ (entriesFrom_le L s.max)) (Nat.sub_le _ _)
    _ < rescanRounds L := by rw [rescanRounds, Nat.succ_mul]; omega

/-- The fuel of `rescan` counts the rounds. -/
theorem rescan_of_leaves (h : Loops.Leaves (rescanRound L) s n r) {f : Nat} (hf : n < f) :
    rescan L f s.j s.max s.max_changed = r := by
  induction h generalizing f with
  | leave hr =>
    obtain ⟨f, rfl⟩ : ∃ f', f = f' + 1 := ⟨f - 1, by omega⟩
    obtain ⟨rfl, hend | ⟨hlt, hmax, hlast⟩⟩ := rescanRound_leaves hr
    · rw [rescan, if_neg (by omega)]
    · rw [rescan, if_pos hlt, if_neg hmax, if_pos hlast]
  | goOn hs _ ih =>
    obtain ⟨f, rfl⟩ : ∃ f', f = f' + 1 := ⟨f - 1, by omega⟩
    have hrest := ih (f := f) (by omega)
    obtain ⟨hlt, ⟨hmax, rfl⟩ | ⟨hmax, hlast, rfl⟩⟩ := rescanRound_goesOn hs
    · rw [rescan, if_pos hlt, if_pos hmax]
      exact hrest
    · rw [rescan, if_pos hlt, if_neg hmax, if_neg hlast]
      exact hrest

/-! What the loop ends with. -/

/-- The loop has moved `k` numbers on from `m`, and has looked at the entries below `j` with the
    present `max`; at the one at index 0 only before the first match. -/
structure RescanInv (L : List Int) (m : Int) (k : Nat) (s : Rescan) : Prop where
  max_eq : s.max = m + k
  changed : s.max_changed = decide (0 < k)
  start : s.j = 0 → k = 0
  first : 0 < k → m ∈ L
  passed : ∀ i : Nat, 0 < i → i < k → m + i ∈ L.tail
  looked : ∀ i, i < s.j → (i = 0 → k = 0) → L.getD i 0 ≠ s.max

theorem RescanInv.init (L : List Int) (m : Int) : RescanInv L m 0 ⟨0, m, false⟩ where
  max_eq := by simp
  changed := rfl
  start := fun _ => rfl
  first := fun h => absurd h (Nat.lt_irrefl 0)
  passed := by
    intro i _ hi
    omega
  looked := by
    intro i hi _
    exact absurd hi (Nat.not_lt_zero i)

/-- A match. -/
theorem RescanInv.found (h : RescanInv L m k s) (hlt : s.j < L.length) (hmax : s.max = L.getD s.j 0) :
    RescanInv L m (k + 1) ⟨1, s.max + 1, true⟩ where
  max_eq := by
    show s.max + 1 = m + ((k + 1 : Nat) : Int)
    rw [h.max_eq]; push_cast; ring
  changed := by simp
  start := fun hj => absurd hj Nat.one_ne_zero
  first := by
    intro _
    by_cases hk : k = 0
    · have hm : s.max = m := by rw [h.max_eq, hk]; simp
      rw [← hm, hmax, ← List.getElem_eq_getD (h := hlt)]
      exact List.getElem_mem hlt
    · exact h.first (Nat.pos_of_ne_zero hk)
  passed := by
    intro i h₀ hi
    by_cases hik : i < k
    · exact h.passed i h₀ hik
    · obtain rfl : i = k := by omega
      have hj : 1 ≤ s.j := by
        by_contra hj
        have := h.start (by omega)
        omega
      rw [← h.max_eq]
      exact mem_tail_iff.2 ⟨s.j, hj, hlt, hmax.symm⟩
  looked := by
    intro i hi hk
    have hi : i < 1 := hi
    have := hk (by omega)
    omega

/-- The next index. -/
theorem RescanInv.next (h : RescanInv L m k s) (hmax : s.max ≠ L.getD s.j 0) :
    RescanInv L m k ⟨s.j + 1, s.max, s.max_changed⟩ where
  max_eq := h.max_eq
  changed := h.changed
  start := fun hj => absurd hj (Nat.succ_ne_zero _)
  first := h.first
  passed := h.passed
  looked := by
    intro i hi hk
    have hi : i < s.j + 1 := hi
    by_cases hij : i < s.j
    · exact h.looked i hij hk
    · obtain rfl : i = s.j := by omega
      exact hmax.symm

theorem RescanInv.goesOn (h : RescanInv L m k s) (hs : rescanRound L s = .inl s') :
    ∃ k', RescanInv L m k' s' := by
  obtain ⟨hlt, ⟨hmax, rfl⟩ | ⟨hmax, -, rfl⟩⟩ := rescanRound_goesOn hs
  · exact ⟨k + 1, h.found hlt hmax⟩
  · exact ⟨k, h.next hmax⟩

/-- When the loop leaves, the whole list has been looked at. -/
theorem RescanInv.leaves (h : RescanInv L m k s) (hr : rescanRound L s = .inr r) :
    ∀ i, i < L.length → (i = 0 → k = 0) → L.getD i 0 ≠ s.max := by
  intro i hi hk
  obtain ⟨-, hend | ⟨-, hmax, hlast, -⟩⟩ := rescanRound_leaves hr
  · exact h.looked i (by omega) hk
  · by_cases hij : i < s.j
    · exact h.looked i hij hk
    · obtain rfl : i = s.j := by omega
      exact hmax.symm

/-- What the loop leaves with, from `m` on: it has moved `k` numbers on. -/
structure RescanPost (L : List Int) (m : Int) (k : Nat) (r : Int × Bool) : Prop where
  result : r = (m + k, decide (0 < k))
  passed : ∀ i : Nat, 0 < i → i < k → m + i ∈ L.tail
  beyond : m + k ∉ L.tail
  moved : k = 0 ↔ m ∉ L

theorem RescanInv.post (h : RescanInv L m k s) (hr : rescanRound L s = .inr r) : RescanPost L m k r where
  result := by
    rw [(rescanRound_leaves hr).1, h.max_eq, h.changed]
  passed := h.passed
  beyond := by
    intro hmem
    obtain ⟨i, h₁, hi, he⟩ := mem_tail_iff.1 hmem
    rw [← h.max_eq] at he
    exact h.leaves hr i hi (by omega) he
  moved := by
    constructor
    · intro hk hmem
      obtain ⟨i, hi, he⟩ := List.mem_iff_getElem.1 hmem
      rw [List.getElem_eq_getD 0] at he
      refine h.leaves hr i hi (fun _ => hk) ?_
      rw [he, h.max_eq, hk]
      simp
    · intro hmem
      by_contra hk
      exact hmem (h.first (Nat.pos_of_ne_zero hk))

/-- The numbers moved past are all in the list. -/
theorem RescanPost.mem (h : RescanPost L m k r) : ∀ i : Nat, i < k → m + i ∈ L := by
  intro i hi
  by_cases h₀ : i = 0
  · have hmem : m ∈ L := by
      by_contra hmem
      have := h.moved.2 hmem
      omega
    rw [h₀]
    simpa using hmem
  · exact List.mem_of_mem_tail (h.passed i (Nat.pos_of_ne_zero h₀) hi)

/-- The loop ends, in fewer rounds than `rescan` has. -/
theorem rescan_leaves (L : List Int) (m : Int) : ∃ n r k, n < rescanRounds L ∧
    Loops.Leaves (rescanRound L) ⟨0, m, false⟩ n r ∧ RescanPost L m k r := by
  have hgoes : ∀ s s', (∃ k, RescanInv L m k s) → rescanRound L s = .inl s' → ∃ k, RescanInv L m k s' :=
    fun _ _ ⟨_, hk⟩ hs => hk.goesOn hs
  have hleaves : ∀ s r, (∃ k, RescanInv L m k s) → rescanRound L s = .inr r → ∃ k, RescanPost L m k r :=
    fun _ _ ⟨k, hk⟩ hr => ⟨k, hk.post hr⟩
  obtain ⟨n, r, hn, h, k, hk⟩ := Loops.leaves_post (rescanMeasure L) (fun _ _ => rescanMeasure_lt) hgoes hleaves
    ⟨0, RescanInv.init L m⟩
  exact ⟨n, r, k, lt_of_le_of_lt hn (rescanMeasure_lt_rounds L _), h, hk⟩

end

/-- The whole loop: it moves exactly when the list holds the number it starts with, and then past the
    numbers in the tail of the list. -/
theorem rescan_result (L : List Int) (max : Int) :
    ∃ k : Nat, rescan L (rescanRounds L) 0 max false = (max + k, decide (0 < k)) ∧
      (∀ i : Nat, 0 < i → i < k → max + i ∈ L.tail) ∧ max + k ∉ L.tail ∧ (k = 0 ↔ max ∉ L) := by
  obtain ⟨n, r, k, hn, h, hk⟩ := rescan_leaves L max
  exact ⟨k, (rescan_of_leaves h hn).trans hk.result, hk.passed, hk.beyond, hk.moved⟩

theorem rescan_zero (L : List Int) (max : Int) :
    ∃ k : Nat, rescan L (rescanRounds L) 0 max false = (max + k, decide (0 < k)) ∧
      (∀ i : Nat, i < k → max + i ∈ L) ∧ max + k ∉ L.tail ∧ (k = 0 ↔ max ∉ L) := by
  obtain ⟨n, r, k, hn, h, hk⟩ := rescan_leaves L max
  exact ⟨k, (rescan_of_leaves h hn).trans hk.result, hk.mem, hk.beyond, hk.moved⟩

/-- The matches are different entries of the list. -/
theorem matches_le_length {L : List Int} {max : Int} {k : Nat} (h : ∀ i : Nat, i < k → max + i ∈ L) :
    k ≤ L.length := by
  have hnodup : ((List.range k).map (fun i : Nat => max + (i : Int))).Nodup := by
    refine List.Nodup.map ?_ List.nodup_range
    intro i j hij
    simpa using hij
  have hsub : (List.range k).map (fun i : Nat => max + (i : Int)) ⊆ L := by
    intro x hx
    obtain ⟨i, hi, rfl⟩ := List.mem_map.1 hx
    exact h i (List.mem_range.1 hi)
  simpa using (hnodup.subperm hsub).length_le

/-! The call. -/

/-- What follows the loop: `max` is recorded, and it is returned, or one more where it has not changed. -/
def afterRescan (temp_list : List Int) (r : Int × Bool) : List Int × Int :=
  (temp_list ++ [r.1], if r.2 then r.1 else r.1 + 1)

theorem generateNumber_of_leaves (junk : List Char) {L : List Int} {m : Int} {n : Nat} {r : Int × Bool}
    {d d' : Disk} {fd : Stream} (h : Loops.Leaves (rescanRound L) ⟨0, m, false⟩ n r) (hn : n < rescanRounds L)
    (ho : d.openFile = (some fd, d')) (hscan : scanMax (scanRounds fd) fd junk 0 = some m) :
    generateNumber junk ⟨L⟩ d = some ((afterRescan L r).2, ⟨(afterRescan L r).1⟩, d') := by
  have hr : rescan L (rescanRounds L) 0 m false = r := rescan_of_leaves h hn
  simp only [generateNumber, ho, hscan, hr]
  rfl

/-- What becomes of the list and what is returned: the number itself is recorded where the list does not
    hold it, and otherwise the end of a stretch of entries that begins with it. That end may still
    be the first entry. -/
structure Determined (L : List Int) (m : Int) (temp_list : List Int) (num : Int) : Prop where
  absent : m ∉ L → temp_list = L ++ [m] ∧ num = m + 1
  present : m ∈ L → ∃ k : Nat, 1 ≤ k ∧ (∀ i : Nat, i < k → m + i ∈ L) ∧
    temp_list = L ++ [m + k] ∧ num = m + k ∧ ∀ i (h : i < L.length), i ≠ 0 → L[i] ≠ m + k

theorem RescanPost.determined {L : List Int} {m : Int} {k : Nat} {r : Int × Bool} (h : RescanPost L m k r) :
    Determined L m (afterRescan L r).1 (afterRescan L r).2 where
  absent := by
    intro hmem
    have hk : k = 0 := h.moved.2 hmem
    rw [h.result, hk]
    simp [afterRescan]
  present := by
    intro hmem
    have hk : 0 < k := Nat.pos_of_ne_zero fun hk => h.moved.1 hk hmem
    refine ⟨k, hk, h.mem, ?_, ?_, ?_⟩
    · rw [h.result]; rfl
    · rw [h.result]
      simp [afterRescan, hk]
    · intro i hi h₀ he
      apply h.beyond
      rw [← he, List.getElem_eq_getD 0]
      exact mem_tail_iff.2 ⟨i, Nat.pos_of_ne_zero h₀, hi, rfl⟩

/-- **The loop ends, with one result**, for every list and every number to start with; what is recorded and
    returned is determined by the two, and every `generate_number` that finds the list and reads the
    number from the file does so. -/
theorem generateNumber_determined (L : List Int) (m : Int) :
    (∃! p : Nat × (Int × Bool), Loops.Leaves (rescanRound L) ⟨0, m, false⟩ p.1 p.2) ∧
    ∀ n r, Loops.Leaves (rescanRound L) ⟨0, m, false⟩ n r →
      Determined L m (afterRescan L r).1 (afterRescan L r).2 ∧
      ∀ junk d d' fd, d.openFile = (some fd, d') → scanMax (scanRounds fd) fd junk 0 = some m →
        generateNumber junk ⟨L⟩ d = some ((afterRescan L r).2, ⟨(afterRescan L r).1⟩, d') := by
  obtain ⟨n, r, k, hn, h, hk⟩ := rescan_leaves L m
  constructor
  · refine ⟨(n, r), h, ?_⟩
    intro p hp
    obtain ⟨hn', hr'⟩ := hp.unique h
    exact Prod.ext hn' hr'
  · intro n' r' h'
    obtain ⟨rfl, rfl⟩ := h'.unique h
    refine ⟨hk.determined, ?_⟩
    intro junk d d' fd ho hscan
    exact generateNumber_of_leaves junk h hn ho hscan

/-- A list whose first entry is passed by, and is recorded once more. -/
theorem generateNumber_determined_firstEntry : Determined [2, 0, 1] 0 [2, 0, 1, 2] 2 ∧
    generateNumber [] ⟨[2, 0, 1]⟩ ⟨[], [.ok]⟩ = some (2, ⟨[2, 0, 1, 2]⟩, ⟨[], []⟩) := by
  have h : Loops.Leaves (rescanRound [2, 0, 1]) ⟨0, 0, false⟩ 5 (2, true) :=
    .goOn rfl (.goOn rfl (.goOn rfl (.goOn rfl (.goOn rfl (.leave rfl)))))
  obtain ⟨hdet, hcall⟩ := (generateNumber_determined [2, 0, 1] 0).2 5 (2, true) h
  exact ⟨hdet, hcall [] ⟨[], [.ok]⟩ ⟨[], []⟩ ⟨[], false⟩ rfl rfl⟩

end BulletinBoard
