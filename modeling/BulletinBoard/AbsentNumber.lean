import BulletinBoard.ScanEnds
import BulletinBoard.Board

/- Deletes and replacements of a number that is not there. The seek answers 0 for such a
   number, as it does for a line at the start of the file, and `delete_descriptor` does
   not look further: it puts its backspaces over the start of the file, as many as the
   uninitialised length says. Only its own open keeps it from that. -/
namespace BulletinBoard

/-- A call that returns a negative value and leaves the file byte for byte. -/
def FailsUnharmed (file : List Char) (r : Option (Int × Disk)) : Prop :=
  ∃ ret d, r = some (ret, d) ∧ ret < 0 ∧ d.bbfile = file

/-- The descriptor that the backspaces go to is not there. -/
def SecondOpenFails (d : Disk) : Prop := OpenFails d.openFile.2

section
variable {junk : Junk} {id : CStr} {d d' : Disk} {ret : Int}

/-- A delete fails exactly when its own open does, and has then written nothing. -/
theorem deleteDescriptor_cases (h : deleteDescriptor junk id d = some (ret, d')) :
    (SecondOpenFails d ∧ ret = -2 ∧ d'.bbfile = d.bbfile) ∨ (¬ SecondOpenFails d ∧ 0 < ret) := by
  rw [deleteDescriptor] at h
  split at h
  · cases h
  · next r msg_len d₁ hseek =>
    obtain rfl := seekMsgDescriptor_disk hseek
    dsimp only at h
    by_cases ho : SecondOpenFails d
    · have hnone : d.openFile.2.openFile.1.isNone = true := Option.isNone_iff_eq_none.2 ho
      rw [if_pos hnone] at h
      simp only [Option.some.injEq, Prod.mk.injEq] at h
      obtain ⟨rfl, rfl⟩ := h
      exact Or.inl ⟨ho, rfl, by rw [openFile_bbfile, openFile_bbfile]⟩
    · have hsome : ¬ d.openFile.2.openFile.1.isNone = true := fun hc => ho (Option.isNone_iff_eq_none.1 hc)
      rw [if_neg hsome] at h
      simp only [Option.some.injEq, Prod.mk.injEq] at h
      obtain ⟨rfl, -⟩ := h
      refine Or.inr ⟨ho, ?_⟩
      rw [List.length_append, List.length_singleton]
      omega

theorem deleteDescriptor_unharmed_iff : FailsUnharmed d.bbfile (deleteDescriptor junk id d) ↔
    (ReadsSucceed d ∨ FindsNumber junk id d) ∧ SecondOpenFails d := by
  rw [← deleteDescriptor_ends_iff]
  constructor
  · rintro ⟨ret, d', h, hneg, -⟩
    refine ⟨by rw [h]; exact Option.some_ne_none _, ?_⟩
    rcases deleteDescriptor_cases h with ⟨ho, -, -⟩ | ⟨-, hpos⟩
    · exact ho
    · omega
  · rintro ⟨hends, ho⟩
    obtain ⟨⟨ret, d'⟩, h⟩ := Option.ne_none_iff_exists'.1 hends
    rcases deleteDescriptor_cases h with ⟨-, rfl, hfile⟩ | ⟨hno, -⟩
    · exact ⟨-2, d', h, by decide, hfile⟩
    · exact absurd ho hno

/-- With it a replacement fails before it writes. -/
theorem replaceDescriptor_unharmed {user message : CStr} (h : FailsUnharmed d.bbfile (deleteDescriptor junk id d)) :
    FailsUnharmed d.bbfile (replaceDescriptor junk id user message d) := by
  obtain ⟨ret, d', hdelete, hneg, hfile⟩ := h
  refine ⟨-2, d', ?_, by decide, hfile⟩
  simp only [replaceDescriptor, hdelete, if_pos hneg]

/-- **Deleting and replacing a number** fail without damage exactly when the scan ends and the open
    behind it fails, whether the number is there or not. -/
theorem absent_unharmed_iff (junk : Junk) (id user message : CStr) (d : Disk) :
    (FailsUnharmed d.bbfile (deleteDescriptor junk id d) ∧
        FailsUnharmed d.bbfile (replaceDescriptor junk id user message d)) ↔
      (ReadsSucceed d ∨ FindsNumber junk id d) ∧ SecondOpenFails d := by
  constructor
  · rintro ⟨hdelete, -⟩
    exact deleteDescriptor_unharmed_iff.1 hdelete
  · intro h
    have hdelete := deleteDescriptor_unharmed_iff.2 h
    exact ⟨hdelete, replaceDescriptor_unharmed hdelete⟩

end

/-- What a delete of an absent number does to a board instead: it writes over its start. -/
theorem deleteDescriptor_absent (b : Board) {id : CStr} (hid : IsNumeral id) (habsent : id ∉ liveIds b.lines)
    (junk : Junk) : deleteDescriptor junk id (diskOf b.bytes) =
      some (((atoi (cstr junk.msg_len 0)).toNat : Int) + 1,
        diskOf (Lines.overwrite NUL b.bytes 0 (deletedLine (atoi (cstr junk.msg_len 0)).toNat ++ ['\n']))) := by
  have hseek : seekMsgDescriptor junk.line id (diskOf b.bytes) = some ((0, none), diskOf b.bytes) :=
    seekMsgDescriptor_absent rfl (openFile_diskOf _) (without_of_not_mem hid habsent)
  rw [deleteDescriptor, hseek]
  simp only [openFile_diskOf, Option.isNone_some, Bool.false_eq_true, if_false, Option.getD_none,
    List.length_append, List.length_replicate, List.length_singleton, Nat.cast_add, Nat.cast_one]
  rfl

/-- A delete of 2 on a board with the line 1, where the length is left over as 3. -/
theorem absent_delete_damages : ¬ FailsUnharmed (fileOf ["1/u/m".toList])
    (deleteDescriptor ⟨[], "3".toList⟩ "2".toList (diskOf (fileOf ["1/u/m".toList]))) := by
  have hdelete : deleteDescriptor ⟨[], "3".toList⟩ "2".toList (diskOf (fileOf ["1/u/m".toList])) =
      some (4, diskOf (deletedLine 3 ++ "\nm\n".toList)) := by decide +kernel
  rintro ⟨ret, d, h, hneg, -⟩
  rw [hdelete] at h
  obtain rfl : 4 = ret := congrArg Prod.fst (Option.some.inj h)
  omega

end BulletinBoard
