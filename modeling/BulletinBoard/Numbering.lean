import BulletinBoard.Board
import BulletinBoard.Rescan
import BulletinBoard.Lib.Run

/- Message numbers. A WRITE takes a number from `generate_number` and later appends its
   line or gives the number back. The generator remembers in `temp_list` the largest
   number on file when nothing in the list stands for it, and otherwise the number it
   returns: it can tell the numbers that are held apart, as long as the number above
   the largest on file is not held while the list holds the largest and not that
   number. -/
namespace BulletinBoard

/-! The largest number on file. -/

/-- A line whose first field `atoi` reads as the number. -/
def OnFile (ls : List CStr) (x : Int) : Prop := ∃ l ∈ ls, atoi (firstField l) = x

theorem onFile_append {ls : List CStr} {l : CStr} {x : Int} :
    OnFile (ls ++ [l]) x ↔ OnFile ls x ∨ atoi (firstField l) = x := by
  simp [OnFile, or_and_right, exists_or]

theorem maxNumber_append (ls : List CStr) (l : CStr) :
    maxNumber (ls ++ [l]) = max (maxNumber ls) (atoi (firstField l)) := by
  simp only [maxNumber, List.foldl_append, List.foldl_cons, List.foldl_nil]
  split <;> omega

theorem maxNumber_nonneg (ls : List CStr) : 0 ≤ maxNumber ls := by
  induction ls using List.reverseRecOn with
  | nil => exact le_refl 0
  | append_singleton ls l ih => rw [maxNumber_append]; omega

theorem le_maxNumber {ls : List CStr} {x : Int} (h : OnFile ls x) : x ≤ maxNumber ls := by
  induction ls using List.reverseRecOn with
  | nil => obtain ⟨l, hl, -⟩ := h; cases hl
  | append_singleton ls l ih =>
    rw [maxNumber_append]
    rcases onFile_append.1 h with h | h
    · have := ih h; omega
    · omega

theorem maxNumber_attained (ls : List CStr) : OnFile ls (maxNumber ls) ∨ maxNumber ls = 0 := by
  induction ls using List.reverseRecOn with
  | nil => exact Or.inr rfl
  | append_singleton ls l ih =>
    rw [maxNumber_append, onFile_append]
    rcases le_total (maxNumber ls) (atoi (firstField l)) with h | h
    · exact Or.inl (Or.inr (max_eq_right h).symm)
    · rw [max_eq_left h]
      exact ih.imp_left Or.inl

/-- A line that carries the number: as `sprintf` writes it, or as any numeral for it. -/
def Carries (l : CStr) (num : Int) : Prop :=
  firstField l = showInt num ∨ IsNumeral (firstField l) ∧ (numeralValue (firstField l) : Int) = num

theorem atoi_of_carries {l : CStr} {num : Int} (h : Carries l num) (h₀ : 0 ≤ num) (h₁ : num ≤ INT_MAX) :
    atoi (firstField l) = num := by
  rcases h with h | ⟨hn, hv⟩
  · rw [h, atoi_showInt h₀ h₁]
  · have hlong : num ≤ LONG_MAX := by unfold INT_MAX at h₁; unfold LONG_MAX; omega
    rw [atoi, strtol_numeral hn, hv, min_eq_right hlong, toInt_of_range h₀ h₁]

/-! The state of the generator, the file and the WRITEs. -/

/-- The file, the generator, and the numbers of the WRITEs that have neither appended
    their line nor given their number back. -/
structure Numbering where
  bbfile : List Char
  gen_on_queue : NumGen
  held : List Int

inductive WriteOp where
  | generate (junk : List Char) (o : OpenResult)
  | append (num : Int) (user message : CStr) (opens : List OpenResult)
  | release (num : Int)

/-- One call. The buffers of a session keep a line within what a scan reads at once; a WRITE
    whose append fails still holds its number. -/
inductive NumberStep : Numbering → WriteOp → Numbering → Prop where
  | generate {s : Numbering} {junk : List Char} {o : OpenResult} {num : Int} {g : NumGen} {d : Disk} :
      generateNumber junk s.gen_on_queue ⟨s.bbfile, [o]⟩ = some (num, g, d) →
      NumberStep s (.generate junk o) ⟨d.bbfile, g, num :: s.held⟩
  | append {s : Numbering} {num : Int} {user message : CStr} {opens : List OpenResult} {r : Int} {d : Disk} :
      num ∈ s.held → Clean (mkLine (showInt num) user message) →
      writeDescriptor (showInt num) user message ⟨s.bbfile, opens⟩ = (r, d) →
      NumberStep s (.append num user message opens)
        ⟨d.bbfile, s.gen_on_queue, if r = 0 then s.held.erase num else s.held⟩
  | release {s : Numbering} {num : Int} :
      num ∈ s.held →
      NumberStep s (.release num) ⟨s.bbfile, (releaseNumber num s.gen_on_queue).2, s.held.erase num⟩

/-- The server starts on a board, with an empty `temp_list`. -/
def Numbering.start (b : Board) : Numbering := ⟨b.bytes, ⟨[]⟩, []⟩

/-- When a `generate_number` finds a number of its own. With the file open: the list has
    room, the number is an `int`, and it is not so that the largest number on file is
    recorded, the one above it is not, and that one is held. With the open failing, when the
    number -2 is neither held nor on file. -/
def NumberStep.Apart (s : Numbering) : WriteOp → Prop
  | .generate _ .ok =>
    let max := maxNumber (linesOf s.bbfile)
    s.gen_on_queue.count < MAX_LEN ∧ max + s.gen_on_queue.count < INT_MAX ∧
      ¬(max ∈ s.gen_on_queue.temp_list ∧ max + 1 ∉ s.gen_on_queue.temp_list ∧ max + 1 ∈ s.held)
  | .generate _ .fails => -2 ∉ s.held ∧ ∀ l ∈ linesOf s.bbfile, ¬ Carries l (-2)
  | _ => True

/-! What the generator does. -/

/-- What the loop ends with is recorded, and returned or one more. -/
theorem generateNumber_rescan (junk : List Char) {L : List Int} {ls : List CStr} {d d' : Disk} {k : Nat}
    (hd : d.bbfile = fileOf ls) (h : ∀ l ∈ ls, Clean l) (ho : d.openFile = (some ⟨d.bbfile, false⟩, d'))
    (hr : rescan L (rescanRounds L) 0 (maxNumber ls) false = (maxNumber ls + k, decide (0 < k))) :
    generateNumber junk ⟨L⟩ d =
      some (if k = 0 then maxNumber ls + 1 else maxNumber ls + k, ⟨L ++ [maxNumber ls + k]⟩, d') := by
  have hscan : scanMax (scanRounds ⟨fileOf ls, false⟩) ⟨fileOf ls, false⟩ junk 0 = some (maxNumber ls) :=
    scanMax_eq h (length_lt_scanRounds ls)
  simp only [generateNumber, ho, hd, hscan, hr]
  by_cases h₀ : k = 0
  · simp [h₀]
  · simp [h₀, Nat.pos_of_ne_zero h₀]

theorem generateNumber_lines (junk : List Char) (L : List Int) {ls : List CStr} {d d' : Disk}
    (hd : d.bbfile = fileOf ls) (h : ∀ l ∈ ls, Clean l) (ho : d.openFile = (some ⟨d.bbfile, false⟩, d')) :
    ∃ k : Nat, generateNumber junk ⟨L⟩ d =
        some (if k = 0 then maxNumber ls + 1 else maxNumber ls + k, ⟨L ++ [maxNumber ls + k]⟩, d') ∧
      (∀ i : Nat, i < k → maxNumber ls + i ∈ L) ∧ maxNumber ls + k ∉ L.tail ∧
      (k = 0 ↔ maxNumber ls ∉ L) := by
  obtain ⟨k, hr, hin, hout, hk⟩ := rescan_zero L (maxNumber ls)
  exact ⟨k, generateNumber_rescan junk hd h ho hr, hin, hout, hk⟩

theorem generateNumber_fails (junk : List Char) (g : NumGen) (file : List Char) :
    generateNumber junk g ⟨file, [.fails]⟩ = some (-2, g, ⟨file, []⟩) := rfl

/-- A scan whose reads fail does not end. -/
theorem generateNumber_readFails (junk : List Char) (g : NumGen) (file : List Char) (k : Nat) :
    generateNumber junk g ⟨file, [.readFails k]⟩ = none := by
  simp only [generateNumber, Disk.openFile, scanMax_fails]

/-! The invariant. -/

/-- A held number that the generator gave out as the largest on file and one more. -/
structure JustAbove (ls : List CStr) (L : List Int) (num : Int) : Prop where
  recorded : num - 1 ∈ L
  le : num - 1 ≤ maxNumber ls
  source : OnFile ls (num - 1) ∨ num - 1 = 0

/-- A held number that the generator recorded, counting up from `c`: every number between that
    is on file or held is in the list as well. -/
structure CountedFrom (ls : List CStr) (L H : List Int) (num c : Int) : Prop where
  recorded : num ∈ L.tail
  nonneg : 0 ≤ c
  le : c ≤ maxNumber ls
  lt : c < num
  start : c ∈ L
  source : OnFile ls c ∨ c = 0
  between : ∀ x, c ≤ x → x < num → OnFile ls x ∨ x ∈ H → x ∈ L

structure Reserved (ls : List CStr) (L H : List Int) (num : Int) : Prop where
  pos : 1 ≤ num
  le : num ≤ INT_MAX
  free : ¬ OnFile ls num
  source : JustAbove ls L num ∨ ∃ c, CountedFrom ls L H num c

structure NumberInv (ls : List CStr) (L H : List Int) : Prop where
  clean : ∀ l ∈ ls, Clean l
  nodup : H.Nodup
  nonneg : ∀ x ∈ L, 0 ≤ x
  head_le : ∀ x ∈ L.head?, x ≤ maxNumber ls
  held : ∀ num ∈ H, num = -2 ∨ Reserved ls L H num
  failed : -2 ∈ H → ∀ l ∈ ls, ¬ Carries l (-2)

section
variable {ls : List CStr} {L H : List Int} {num : Int}

theorem NumberInv.start (b : Board) : NumberInv b.texts [] [] where
  clean := b.texts_clean
  nodup := List.nodup_nil
  nonneg := by simp
  head_le := by simp
  held := by simp
  failed := by simp

/-- No line carries a held number. -/
theorem NumberInv.uncarried (h : NumberInv ls L H) (hnum : num ∈ H) : ∀ l ∈ ls, ¬ Carries l num := by
  intro l hl hc
  rcases h.held num hnum with rfl | hr
  · exact h.failed hnum l hl hc
  · have hpos := hr.pos
    exact hr.free ⟨l, hl, atoi_of_carries hc (by omega) hr.le⟩

/-- A number stays reserved when the list keeps it and what it was counted from, and still
    holds what lies between. -/
theorem Reserved.mono {ls' : List CStr} {L' H' : List Int} (h : Reserved ls L H num)
    (hfree : ¬ OnFile ls' num) (hmax : maxNumber ls ≤ maxNumber ls')
    (hfile : ∀ x, OnFile ls x → OnFile ls' x) (hL : ∀ x, OnFile ls x ∨ x = 0 → x ∈ L → x ∈ L')
    (htail : num ∈ L.tail → num ∈ L'.tail)
    (hbetween : ∀ c, CountedFrom ls L H num c → ∀ x, c ≤ x → x < num → OnFile ls' x ∨ x ∈ H' → x ∈ L') :
    Reserved ls' L' H' num where
  pos := h.pos
  le := h.le
  free := hfree
  source := by
    rcases h.source with hj | ⟨c, hc⟩
    · exact Or.inl ⟨hL _ hj.source hj.recorded, le_trans hj.le hmax, hj.source.imp_left (hfile _)⟩
    · exact Or.inr ⟨c, htail hc.recorded, hc.nonneg, le_trans hc.le hmax, hc.lt, hL _ hc.source hc.start,
        hc.source.imp_left (hfile _), hbetween c hc⟩

/-- A failing open leaves the WRITE with -2. -/
theorem NumberInv.generate_fails (h : NumberInv ls L H) (hheld : -2 ∉ H)
    (hfile : ∀ l ∈ ls, ¬ Carries l (-2)) : NumberInv ls L (-2 :: H) where
  clean := h.clean
  nodup := List.nodup_cons.2 ⟨hheld, h.nodup⟩
  nonneg := h.nonneg
  head_le := h.head_le
  held := by
    intro num hnum
    rcases List.mem_cons.1 hnum with rfl | hnum
    · exact Or.inl rfl
    · refine (h.held num hnum).imp_right fun hr =>
        hr.mono hr.free (le_refl _) (fun _ hx => hx) (fun _ _ hx => hx) id ?_
      intro c hc x hcx hx hor
      refine hc.between x hcx hx (hor.imp_right ?_)
      intro hm
      rcases List.mem_cons.1 hm with rfl | hm
      · have := hc.nonneg; omega
      · exact hm
  failed := fun _ => hfile

/-- A number counted up past the largest on file has that one in the list. -/
theorem CountedFrom.max_mem {c : Int} (h : CountedFrom ls L H num c) (hlt : maxNumber ls < num) :
    maxNumber ls ∈ L := by
  rcases maxNumber_attained ls with hf | h₀
  · exact h.between _ h.le hlt (Or.inl hf)
  · have hc : c = maxNumber ls := by
      have := h.nonneg
      have := h.le
      omega
    rw [← hc]; exact h.start

theorem not_onFile_of_lt {x : Int} (h : maxNumber ls < x) : ¬ OnFile ls x := by
  intro hf
  have := le_maxNumber hf
  omega

/-- The held numbers stay reserved when the list records one more entry. -/
theorem NumberInv.held_snoc {x y : Int} (h : NumberInv ls L H) (hnew : num ∈ H)
    (hbetween : ∀ c, CountedFrom ls L H num c → c ≤ y → y < num → y ∈ L ++ [x]) :
    num = -2 ∨ Reserved ls (L ++ [x]) (y :: H) num := by
  refine (h.held num hnew).imp_right fun hr =>
    hr.mono hr.free (le_refl _) (fun _ hx => hx) (fun _ _ hx => List.mem_append_left _ hx) ?_ ?_
  · intro ht
    cases L with
    | nil => cases ht
    | cons a L => exact List.mem_append_left _ ht
  · intro c hc z hcz hz hor
    rcases hor with hf | hm
    · exact List.mem_append_left _ (hc.between z hcz hz (Or.inl hf))
    · rcases List.mem_cons.1 hm with rfl | hm
      · exact hbetween c hc hcz hz
      · exact List.mem_append_left _ (hc.between z hcz hz (Or.inr hm))

theorem NumberInv.nonneg_snoc {x : Int} (h : NumberInv ls L H) (hx : 0 ≤ x) : ∀ y ∈ L ++ [x], 0 ≤ y := by
  intro y hy
  rcases List.mem_append.1 hy with hy | hy
  · exact h.nonneg y hy
  · obtain rfl : y = x := by simpa using hy
    exact hx

/-- The largest on file is not in the list: it is recorded, and the number above it given
    out. -/
theorem NumberInv.generate_above (h : NumberInv ls L H) (hout : maxNumber ls ∉ L)
    (hmax : maxNumber ls < INT_MAX) : NumberInv ls (L ++ [maxNumber ls]) ((maxNumber ls + 1) :: H) where
  clean := h.clean
  nodup := by
    refine List.nodup_cons.2 ⟨?_, h.nodup⟩
    intro hm
    have hnn := maxNumber_nonneg ls
    rcases h.held _ hm with h₂ | hr
    · omega
    · rcases hr.source with hj | ⟨c, hc⟩
      · have hrec := hj.recorded
        rw [add_sub_cancel_right] at hrec
        exact hout hrec
      · exact hout (hc.max_mem (by omega))
  nonneg := h.nonneg_snoc (maxNumber_nonneg ls)
  head_le := by
    cases L with
    | nil => simp
    | cons a L => exact h.head_le
  held := by
    intro num hnum
    rcases List.mem_cons.1 hnum with rfl | hnum
    · have hnn := maxNumber_nonneg ls
      refine Or.inr ⟨by omega, by omega, not_onFile_of_lt (by omega), Or.inl ⟨?_, ?_, ?_⟩⟩
      · simp
      · omega
      · rw [add_sub_cancel_right]; exact maxNumber_attained ls
    · refine h.held_snoc hnum ?_
      intro c hc _ hlt
      exact absurd (hc.max_mem (by omega)) hout
  failed := by
    intro hm
    rcases List.mem_cons.1 hm with h₂ | hm
    · have := maxNumber_nonneg ls; omega
    · exact h.failed hm

/-- The largest on file is in the list: the number counted up to is recorded and given
    out. -/
theorem NumberInv.generate_counted {k : Nat} (h : NumberInv ls L H) (hk : 0 < k)
    (hin : ∀ i : Nat, i < k → maxNumber ls + i ∈ L) (hout : maxNumber ls + k ∉ L.tail)
    (hmax : maxNumber ls + L.length < INT_MAX)
    (hapart : ¬(maxNumber ls ∈ L ∧ maxNumber ls + 1 ∉ L ∧ maxNumber ls + 1 ∈ H)) :
    NumberInv ls (L ++ [maxNumber ls + k]) ((maxNumber ls + k) :: H) := by
  have hmem : maxNumber ls ∈ L := by simpa using hin 0 hk
  have hnn := maxNumber_nonneg ls
  have hlen := matches_le_length hin
  have hL : ∃ a r, L = a :: r := List.exists_cons_of_ne_nil (List.ne_nil_of_mem hmem)
  refine ⟨h.clean, ?_, h.nonneg_snoc (by omega), ?_, ?_, ?_⟩
  · refine List.nodup_cons.2 ⟨?_, h.nodup⟩
    intro hm
    rcases h.held _ hm with h₂ | hr
    · omega
    · rcases hr.source with hj | ⟨c, hc⟩
      · -- the number was given out as the one above the largest on file
        obtain rfl : k = 1 := by have := hj.le; omega
        refine hapart ⟨hmem, ?_, hm⟩
        intro hin₁
        obtain ⟨a, r, rfl⟩ := hL
        rcases List.mem_cons.1 hin₁ with ha | hr
        · have := h.head_le a (by simp); omega
        · exact hout hr
      · exact hout hc.recorded
  · obtain ⟨a, r, rfl⟩ := hL
    exact h.head_le
  · intro num hnum
    rcases List.mem_cons.1 hnum with rfl | hnum
    · refine Or.inr ⟨by omega, by omega, not_onFile_of_lt (by omega), Or.inr ⟨maxNumber ls, ?_⟩⟩
      refine ⟨?_, hnn, le_refl _, by omega, List.mem_append_left _ hmem, maxNumber_attained ls, ?_⟩
      · obtain ⟨a, r, rfl⟩ := hL
        simp
      · intro x hx hlt _
        have := hin (x - maxNumber ls).toNat (by omega)
        rw [show maxNumber ls + ((x - maxNumber ls).toNat : Int) = x by omega] at this
        exact List.mem_append_left _ this
    · refine h.held_snoc hnum ?_
      intro c hc _ _
      simp
  · intro hm
    rcases List.mem_cons.1 hm with h₂ | hm
    · omega
    · exact h.failed hm

/-! Appending a line, and giving a number back. -/

/-- The number of an appended line, read back. -/
theorem NumberInv.atoi_held (h : NumberInv ls L H) (hnum : num ∈ H) (user message : CStr) :
    atoi (firstField (mkLine (showInt num) user message)) = num := by
  rw [firstField_mkLine (showInt_no_slash num)]
  rcases h.held num hnum with rfl | hr
  · decide
  · have hpos := hr.pos
    exact atoi_showInt (by omega) hr.le

theorem NumberInv.append {user message : CStr} (h : NumberInv ls L H) (hnum : num ∈ H)
    (hclean : Clean (mkLine (showInt num) user message)) :
    NumberInv (ls ++ [mkLine (showInt num) user message]) L (H.erase num) := by
  have hatoi := h.atoi_held hnum user message
  have hmem : ∀ x, x ∈ H.erase num ↔ x ≠ num ∧ x ∈ H := fun x => h.nodup.mem_erase_iff
  have hmax : maxNumber ls ≤ maxNumber (ls ++ [mkLine (showInt num) user message]) := by
    rw [maxNumber_append]; exact le_max_left _ _
  refine ⟨?_, h.nodup.erase num, h.nonneg, fun x hx => le_trans (h.head_le x hx) hmax, ?_, ?_⟩
  · exact clean_snoc h.clean hclean
  · intro x hx
    obtain ⟨hne, hx⟩ := (hmem x).1 hx
    refine (h.held x hx).imp_right fun hr =>
      hr.mono ?_ hmax (fun _ hf => onFile_append.2 (Or.inl hf)) (fun _ _ hy => hy) id ?_
    · rw [onFile_append, hatoi]
      rintro (hf | rfl)
      · exact hr.free hf
      · exact hne rfl
    · -- the number that is now on file was held before
      intro c hc y hcy hy hor
      rw [onFile_append, hatoi, hmem] at hor
      rcases hor with (hf | rfl) | hm
      · exact hc.between y hcy hy (Or.inl hf)
      · exact hc.between _ hcy hy (Or.inr hnum)
      · exact hc.between y hcy hy (Or.inr hm.2)
  · intro hm l hl hcar
    obtain ⟨hne, hm⟩ := (hmem _).1 hm
    rcases List.mem_append.1 hl with hl | hl
    · exact h.failed hm l hl hcar
    · obtain rfl : l = _ := by simpa using hl
      rcases h.held num hnum with h₂ | hr
      · exact hne h₂.symm
      · have hpos := hr.pos
        rcases hcar with hc | ⟨-, hv⟩
        · rw [hc] at hatoi
          rw [← hatoi] at hpos
          exact absurd hpos (by decide)
        · omega

theorem mem_set_idxOf {x : Int} (hx : x ∈ L) (hne : x ≠ num) : x ∈ L.set (L.idxOf num) 0 := by
  obtain ⟨i, hi, rfl⟩ := List.mem_iff_getElem.1 hx
  have hni : L.idxOf num ≠ i := by
    intro he
    refine hne ?_
    subst he
    exact List.getElem_idxOf hi
  refine List.mem_iff_getElem.2 ⟨i, by simpa using hi, ?_⟩
  rw [List.getElem_set_ne hni]

theorem mem_tail_set_idxOf {x : Int} (hx : x ∈ L.tail) (hne : x ≠ num) :
    x ∈ (L.set (L.idxOf num) 0).tail := by
  obtain ⟨i, h₁, hi, rfl⟩ := mem_tail_iff.1 hx
  have hni : L.idxOf num ≠ i := by
    intro he
    refine hne ?_
    subst he
    rw [← List.getElem_eq_getD (h := hi)]
    exact List.getElem_idxOf hi
  refine mem_tail_iff.2 ⟨i, h₁, by simpa using hi, ?_⟩
  rw [List.getD_eq_getElem?_getD, List.getD_eq_getElem?_getD, List.getElem?_set_ne hni]

/-- Giving a held number back: its entry, when it has one, is what no other held number needs. -/
theorem NumberInv.release (h : NumberInv ls L H) (hnum : num ∈ H) :
    NumberInv ls (releaseNumber num ⟨L⟩).2.temp_list (H.erase num) := by
  have hmem : ∀ x, x ∈ H.erase num ↔ x ≠ num ∧ x ∈ H := fun x => h.nodup.mem_erase_iff
  have hfailed : -2 ∈ H.erase num → ∀ l ∈ ls, ¬ Carries l (-2) := fun hm => h.failed ((hmem _).1 hm).2
  by_cases hin : num ∈ L
  · have hpos : 1 ≤ num ∧ ¬ OnFile ls num := by
      rcases h.held num hnum with rfl | hr
      · have := h.nonneg _ hin; omega
      · exact ⟨hr.pos, hr.free⟩
    rw [releaseNumber, if_pos hin]
    refine ⟨h.clean, h.nodup.erase num, ?_, ?_, ?_, hfailed⟩
    · intro x hx
      rcases List.mem_or_eq_of_mem_set hx with hx | rfl
      · exact h.nonneg x hx
      · exact le_refl 0
    · intro x hx
      have hnn := maxNumber_nonneg ls
      cases L with
      | nil => cases hin
      | cons a L =>
        cases hi : (a :: L).idxOf num with
        | zero =>
          simp only [hi, List.set_cons_zero, List.head?_cons, Option.mem_some_iff] at hx
          omega
        | succ i =>
          simp only [hi, List.set_cons_succ, List.head?_cons] at hx
          exact h.head_le x hx
    · intro x hx
      obtain ⟨hne, hx⟩ := (hmem x).1 hx
      refine (h.held x hx).imp_right fun hr =>
        hr.mono hr.free (le_refl _) (fun _ hf => hf) ?_ (fun ht => mem_tail_set_idxOf ht hne) ?_
      · rintro y (hf | rfl) hy
        · exact mem_set_idxOf hy (by rintro rfl; exact hpos.2 hf)
        · exact mem_set_idxOf hy (by omega)
      · intro c hc y hcy hy hor
        rw [hmem] at hor
        rcases hor with hf | hm
        · exact mem_set_idxOf (hc.between y hcy hy (Or.inl hf)) (by rintro rfl; exact hpos.2 hf)
        · exact mem_set_idxOf (hc.between y hcy hy (Or.inr hm.2)) hm.1
  · rw [releaseNumber, if_neg hin]
    refine ⟨h.clean, h.nodup.erase num, h.nonneg, h.head_le, ?_, hfailed⟩
    intro x hx
    obtain ⟨hne, hx⟩ := (hmem x).1 hx
    refine (h.held x hx).imp_right fun hr =>
      hr.mono hr.free (le_refl _) (fun _ hf => hf) (fun _ _ hy => hy) id ?_
    intro c hc y hcy hy hor
    exact hc.between y hcy hy (hor.imp_right fun hm => ((hmem y).1 hm).2)

end

/-! Runs. -/

/-- The invariant of a state: over the lines of its file. -/
def Numbering.Inv (s : Numbering) : Prop :=
  ∃ ls, s.bbfile = fileOf ls ∧ NumberInv ls s.gen_on_queue.temp_list s.held

theorem numberStep_inv {s s' : Numbering} {op : WriteOp} (h : s.Inv) (hok : NumberStep.Apart s op)
    (hstep : NumberStep s op s') : s'.Inv := by
  obtain ⟨ls, hfile, hinv⟩ := h
  have hlines : linesOf s.bbfile = ls := by rw [hfile, linesOf_fileOf hinv.clean]
  cases hstep with
  | @generate junk o num g d hgen =>
    rw [hfile] at hgen
    cases o with
    | ok =>
      obtain ⟨k, hr, hin, hout, hk⟩ := generateNumber_lines junk s.gen_on_queue.temp_list
        (d := ⟨fileOf ls, [.ok]⟩) rfl hinv.clean rfl
      rw [hr] at hgen
      simp only [Option.some.injEq, Prod.mk.injEq] at hgen
      obtain ⟨rfl, rfl, rfl⟩ := hgen
      simp only [NumberStep.Apart, hlines, NumGen.count] at hok
      refine ⟨ls, rfl, ?_⟩
      by_cases h₀ : k = 0
      · subst h₀
        have hnew := hinv.generate_above (hk.1 rfl) (by omega)
        simpa using hnew
      · have hnew := hinv.generate_counted (Nat.pos_of_ne_zero h₀) hin hout hok.2.1 hok.2.2
        simpa [h₀] using hnew
    | fails =>
      rw [generateNumber_fails] at hgen
      simp only [Option.some.injEq, Prod.mk.injEq] at hgen
      obtain ⟨rfl, rfl, rfl⟩ := hgen
      rw [NumberStep.Apart, hlines] at hok
      exact ⟨ls, rfl, hinv.generate_fails hok.1 hok.2⟩
    | readFails k =>
      rw [generateNumber_readFails] at hgen
      cases hgen
  | @append num user message opens r d hnum hclean hwrite =>
    have hcases := writeDescriptor_cases (showInt num) user message (d := ⟨s.bbfile, opens⟩) hfile
    rw [hwrite] at hcases
    rcases hcases with ⟨hr, hb⟩ | ⟨hr, hb⟩
    · obtain rfl : r = 0 := hr
      refine ⟨_, hb, ?_⟩
      rw [if_pos rfl]
      exact hinv.append hnum hclean
    · obtain rfl : r = -2 := hr
      refine ⟨ls, hb, ?_⟩
      rw [if_neg (by decide)]
      exact hinv
  | @release num hnum => exact ⟨ls, hfile, hinv.release hnum⟩

theorem Numbering.start_inv (b : Board) : (Numbering.start b).Inv := ⟨b.texts, rfl, NumberInv.start b⟩

/-- **Numbers are not shared**, in every run in which each `generate_number` finds a number of its
    own: the numbers held at the same time are different, and the number of a line that
    is appended is carried by no line of the file. -/
theorem numbers_not_shared (b : Board) {tr : List (Numbering × WriteOp)} {s : Numbering}
    (hrun : Runs.Run NumberStep (Numbering.start b) tr s) (hok : Runs.Guarded NumberStep.Apart tr) :
    s.held.Nodup ∧ ∀ p ∈ tr, ∀ num user message opens, p.2 = .append num user message opens →
      ∀ l ∈ linesOf p.1.bbfile, ¬ Carries l num := by
  have hstep : ∀ s op s', Numbering.Inv s → NumberStep.Apart s op → NumberStep s op s' → s'.Inv :=
    fun _ _ _ h hok hs => numberStep_inv h hok hs
  obtain ⟨ls, -, hinv⟩ := hrun.inv (Numbering.start_inv b) hstep hok
  refine ⟨hinv.nodup, ?_⟩
  intro p hp num user message opens hop
  have hnum : num ∈ p.1.held := by
    obtain ⟨s', hs, -⟩ := hrun.mem_step p hp
    rw [hop] at hs
    cases hs with
    | append hnum _ _ => exact hnum
  obtain ⟨ls, hfile, hinv⟩ := hrun.inv_mem (Numbering.start_inv b) hstep hok p hp
  rw [hfile, linesOf_fileOf hinv.clean]
  exact hinv.uncarried hnum

/-- A number given back, and then two numbers held at once. -/
theorem numbers_not_shared_after_release : ∃ tr s,
    Runs.Run NumberStep (Numbering.start emptyBoard) tr s ∧ s.held = [2, 1] ∧ s.held.Nodup := by
  let s₁ : Numbering := ⟨[], ⟨[0]⟩, [1]⟩
  let s₂ : Numbering := ⟨[], ⟨[0]⟩, []⟩
  let s₃ : Numbering := ⟨[], ⟨[0, 1]⟩, [1]⟩
  let s₄ : Numbering := ⟨[], ⟨[0, 1, 2]⟩, [2, 1]⟩
  have h₁ : NumberStep (Numbering.start emptyBoard) (.generate [] .ok) s₁ := .generate (d := ⟨[], []⟩) rfl
  have h₂ : NumberStep s₁ (.release 1) s₂ := .release (by decide)
  have h₃ : NumberStep s₂ (.generate [] .ok) s₃ := .generate (d := ⟨[], []⟩) rfl
  have h₄ : NumberStep s₃ (.generate [] .ok) s₄ := .generate (d := ⟨[], []⟩) rfl
  have hrun := (((Runs.Run.nil.snoc h₁).snoc h₂).snoc h₃).snoc h₄
  refine ⟨_, s₄, hrun, rfl, (numbers_not_shared emptyBoard hrun ?_).1⟩
  intro p hp
  simp only [List.nil_append, List.cons_append, List.mem_cons, List.not_mem_nil, or_false] at hp
  rcases hp with rfl | rfl | rfl | rfl
  · exact ⟨by decide, by decide, by decide⟩
  · trivial
  · exact ⟨by decide, by decide, by decide⟩
  · exact ⟨by decide, by decide, by decide⟩

/-- Two WRITEs that both ask before either appends hold the same number. -/
theorem numbers_shared : ∃ tr s,
    Runs.Run NumberStep (Numbering.start emptyBoard) tr s ∧ s.held = [1, 1] := by
  have h₁ : NumberStep (Numbering.start emptyBoard) (.generate [] .ok) ⟨[], ⟨[0]⟩, [1]⟩ :=
    .generate (d := ⟨[], []⟩) rfl
  have h₂ : NumberStep ⟨[], ⟨[0]⟩, [1]⟩ (.generate [] .ok) ⟨[], ⟨[0, 1]⟩, [1, 1]⟩ :=
    .generate (d := ⟨[], []⟩) rfl
  exact ⟨_, _, (Runs.Run.nil.snoc h₁).snoc h₂, rfl⟩

end BulletinBoard
