import BulletinBoard.Scan

/- Requests whose opens fail. The opens of a request succeed or fail by a pattern, of which
   each call takes the next outcomes. What a call answers and leaves is said for the
   call whose first open is number `i` of the request. A read-back is followed on any
   file that ends with its last line, since a delete may have left anything before it. -/
namespace BulletinBoard

/-- The outcomes of the opens of a request, `true` for success. -/
def outcomes (pattern : List Bool) : List OpenResult :=
  pattern.map fun ok => if ok then .ok else .fails

/-- The file with the outcomes of the next opens; after those every open succeeds. -/
def diskWith (file : List Char) (pattern : List Bool) : Disk := ⟨file, outcomes pattern⟩

@[simp] theorem diskWith_bbfile (file : List Char) (pattern : List Bool) :
    (diskWith file pattern).bbfile = file := rfl

/-- The open number `i` of the request. -/
theorem openFile_diskWith (file : List Char) (pattern : List Bool) (i : Nat) :
    (diskWith file (pattern.drop i)).openFile =
      (if pattern.getD i true then some ⟨file, false⟩ else none, diskWith file (pattern.drop (i + 1))) := by
  have hget : pattern.getD i true = (pattern.drop i).headD true := by
    rw [List.getD_eq_getElem?_getD, List.headD_eq_head?_getD, List.head?_drop]
  rw [hget, ← List.tail_drop]
  match pattern.drop i with
  | [] => rfl
  | true :: pattern => rfl
  | false :: pattern => rfl

/-! Files that end with a newline. -/

/-- An empty file, or one that ends with a newline. -/
def EndsLine (file : List Char) : Prop := file = [] ∨ ∃ f, file = f ++ ['\n']

theorem EndsLine.fileOf (ls : List CStr) : EndsLine (fileOf ls) := by
  rcases List.eq_nil_or_concat ls with rfl | ⟨ls, l, rfl⟩
  · exact Or.inl rfl
  · exact Or.inr ⟨BulletinBoard.fileOf ls ++ l, by simp⟩

theorem EndsLine.drop {file : List Char} (h : EndsLine file) (n : Nat) : EndsLine (file.drop n) := by
  rcases h with rfl | ⟨f, rfl⟩
  · exact Or.inl (by simp)
  · by_cases hn : n ≤ f.length
    · exact Or.inr ⟨f.drop n, by rw [List.drop_append_of_le_length hn]⟩
    · exact Or.inl (List.drop_eq_nil_of_le (by simp; omega))

theorem EndsLine.append {a b : List Char} (ha : EndsLine a) (hb : EndsLine b) : EndsLine (a ++ b) := by
  rcases hb with rfl | ⟨b, rfl⟩
  · rwa [List.append_nil]
  · exact Or.inr ⟨a ++ b, by simp⟩

/-- A line written over the file ends it, or what is left of the file does. -/
theorem EndsLine.overwrite {file : List Char} (h : EndsLine file) (fill : Char) (pos : Nat) (s : List Char) :
    EndsLine (Lines.overwrite fill file pos (s ++ ['\n'])) := by
  have hline : EndsLine (file.take pos ++ List.replicate (pos - file.length) fill ++ (s ++ ['\n'])) :=
    Or.inr ⟨_, (List.append_assoc _ _ _).symm⟩
  exact hline.append (h.drop _)

/-- A read of a line stops within such a file, at the end of it at the latest. -/
theorem takeLine_endsLine {file : List Char} (h : EndsLine file) (rest : List Char) (fails : Bool)
    (hne : file ≠ []) (max : Nat) : ∃ line file' e, takeLine max (file ++ rest) fails = (line, file' ++ rest, e) ∧
      EndsLine file' ∧ (e = .newline ∨ e = .full) := by
  induction max generalizing file with
  | zero => exact ⟨[], file, .full, by simp [takeLine], h, Or.inr rfl⟩
  | succ max ih =>
    obtain ⟨c, r, rfl⟩ := List.exists_cons_of_ne_nil hne
    have hr : EndsLine r := h.drop 1
    by_cases hc : c = '\n'
    · exact ⟨[], r, .newline, by simp [takeLine, hc], hr, Or.inl rfl⟩
    · have hrne : r ≠ [] := by
        rintro rfl
        rcases h with h | ⟨f, h⟩
        · cases h
        · cases f with
          | nil => exact hc (List.cons.inj h).1
          | cons x f => simp at h
      obtain ⟨line, file', e, htake, hends, he⟩ := ih hr hrne
      exact ⟨c :: line, file', e, by simp [takeLine, hc, htake], hends, he⟩

/-- A scan finds the last line, if no other before it. -/
theorem findLine_last {id l : CStr} (hl : Clean l) (hk : firstField l = id) (f : Nat) :
    ∀ {file : List Char} (buf : List Char), EndsLine file →
      findLine id f ⟨file ++ fileOf [l], false⟩ buf ≠ some none := by
  induction f with
  | zero => simp [findLine]
  | succ f ih =>
    intro file buf h
    by_cases hne : file = []
    · subst hne
      obtain ⟨buf', hfind⟩ := findLine_line id [] buf false f hl
      rw [List.nil_append, fileOf_cons, fileOf_nil, hfind, if_pos hk]
      simp
    · obtain ⟨line, file', e, htake, hends, he⟩ := takeLine_endsLine h (fileOf [l]) false hne BBLINE_LEN
      have hread : ∃ buf', readline buf BBLINE_LEN ⟨file ++ fileOf [l], false⟩ =
          ((line.length : Int), buf', ⟨file' ++ fileOf [l], false⟩) := by
        rcases he with rfl | rfl
        · exact ⟨_, by rw [readline, htake]⟩
        · exact ⟨_, by rw [readline, htake]⟩
      obtain ⟨buf', hread⟩ := hread
      rw [findLine, hread]
      simp only [length_ne_recvNodata, if_false]
      split
      · simp
      · exact ih _ hends

/-- A scan ends: each round but the last reads something. -/
theorem findLine_ends (id : CStr) : ∀ (f : Nat) {fd : Stream} (buf : List Char), fd.fails = false →
    fd.bytes.length < f → findLine id f fd buf ≠ none
  | 0, _, _, _, hf => absurd hf (Nat.not_lt_zero _)
  | f + 1, ⟨[], fails⟩, buf, hfails, _ => by
    obtain rfl : fails = false := hfails
    rw [findLine_eof]
    exact Option.some_ne_none _
  | f + 1, ⟨c :: bytes, fails⟩, buf, hfails, hf => by
    have hrest := @readline_rest buf BBLINE_LEN ⟨c :: bytes, fails⟩ (by decide) (List.cons_ne_nil c bytes)
    have hdesc := readline_descriptor buf BBLINE_LEN ⟨c :: bytes, fails⟩
    rw [findLine]
    dsimp only
    split
    · exact Option.some_ne_none _
    · split
      · exact Option.some_ne_none _
      · apply findLine_ends id f
        · rw [hdesc]
          exact hfails
        · exact lt_of_lt_of_le hrest (Nat.le_of_lt_succ hf)

/-! The calls, from the open number `i` of the request on. -/

section
variable {ls : List CStr} {file : List Char} {pattern : List Bool} {i : Nat}

theorem readDescriptor_fails (file : List Char) (junk : List Char) (id : CStr) (ho : pattern.getD i true = false) :
    readDescriptor junk id (diskWith file (pattern.drop i)) =
      some ((-2, none), diskWith file (pattern.drop (i + 1))) := by
  rw [readDescriptor, openFile_diskWith, ho]
  rfl

theorem readDescriptor_with (junk : List Char) (id : CStr) (hfile : file = fileOf ls)
    (hc : ∀ l ∈ ls, Clean l) (ho : pattern.getD i true = true) :
    readDescriptor junk id (diskWith file (pattern.drop i)) =
      some (readAnswer (lineOf id ls), diskWith file (pattern.drop (i + 1))) := by
  apply readDescriptor_lines junk id hfile hc
  rw [openFile_diskWith, if_pos ho]
  rfl

/-- A read-back finds the line that was written last. -/
theorem readDescriptor_last {id l : CStr} {junk : List Char} {r : Int} {text : Option CStr} {d : Disk}
    (hends : EndsLine file) (hl : Clean l) (hk : firstField l = id) (ho : pattern.getD i true = true)
    (h : readDescriptor junk id (diskWith (file ++ fileOf [l]) (pattern.drop i)) = some ((r, text), d)) :
    0 ≤ r ∧ d = diskWith (file ++ fileOf [l]) (pattern.drop (i + 1)) := by
  have hfind := findLine_last hl hk (scanRounds ⟨file ++ fileOf [l], false⟩) junk hends
  rw [readDescriptor, openFile_diskWith, if_pos ho] at h
  dsimp only at h
  split at h
  · cases h
  · next hnone => exact absurd hnone hfind
  · simp only [Option.some.injEq, Prod.mk.injEq] at h
    obtain ⟨⟨rfl, -⟩, rfl⟩ := h
    exact ⟨Int.natCast_nonneg _, rfl⟩

/-- It ends, and answers no error, when its open does not fail. -/
theorem readDescriptor_last_some {id l : CStr} (junk : List Char) (hends : EndsLine file) (hl : Clean l)
    (hk : firstField l = id) : ∃ r text, 0 ≤ r ∧
      readDescriptor junk id (diskOf (file ++ fileOf [l])) = some ((r, text), diskOf (file ++ fileOf [l])) := by
  have hlast := findLine_last hl hk (scanRounds ⟨file ++ fileOf [l], false⟩) junk hends
  have hstops := @findLine_ends id (scanRounds ⟨file ++ fileOf [l], false⟩) ⟨file ++ fileOf [l], false⟩ junk rfl
    (Nat.lt_add_of_pos_right (by decide))
  rw [readDescriptor, openFile_diskOf]
  dsimp only
  split
  · next hnone => exact absurd hnone hstops
  · next hnone => exact absurd hnone hlast
  · exact ⟨_, _, Int.natCast_nonneg _, rfl⟩

theorem writeDescriptor_with (file : List Char) (id user message : CStr)
    (ho : pattern.getD i true = true ∧ pattern.getD (i + 1) true = true) :
    writeDescriptor id user message (diskWith file (pattern.drop i)) =
      (0, diskWith (file ++ fileOf [mkLine id user message]) (pattern.drop (i + 2))) := by
  rw [writeDescriptor, openFile_diskWith, if_pos ho.1, ← lineBytes_eq]
  simp only [openFile_diskWith, if_pos ho.2, Option.isNone_some, Bool.false_eq_true, if_false]
  rfl

theorem writeDescriptor_fails (file : List Char) (id user message : CStr)
    (ho : ¬(pattern.getD i true = true ∧ pattern.getD (i + 1) true = true)) :
    ∃ j, writeDescriptor id user message (diskWith file (pattern.drop i)) =
      (-2, diskWith file (pattern.drop j)) := by
  by_cases h₀ : pattern.getD i true = true
  · have h₁ : ¬ pattern.getD (i + 1) true = true := fun h₁ => ho ⟨h₀, h₁⟩
    refine ⟨i + 2, ?_⟩
    rw [writeDescriptor, openFile_diskWith, if_pos h₀]
    simp only [openFile_diskWith, if_neg h₁, Option.isNone_some, Bool.false_eq_true, if_false,
      Option.isNone_none, if_true]
  · refine ⟨i + 1, ?_⟩
    rw [writeDescriptor, openFile_diskWith, if_neg h₀]
    rfl

/-- A delete whose own open fails changes nothing; any other puts a line of backspaces
    somewhere. -/
theorem deleteDescriptor_with {junk : Junk} {id : CStr} {ret : Int} {d : Disk}
    (h : deleteDescriptor junk id (diskWith file (pattern.drop i)) = some (ret, d)) :
    (pattern.getD (i + 1) true = false ∧ ret = -2 ∧ d = diskWith file (pattern.drop (i + 2))) ∨
      (pattern.getD (i + 1) true = true ∧ 0 ≤ ret ∧ ∃ pos n, d = diskWith
        (Lines.overwrite NUL file pos (List.replicate n BACKSPACE ++ ['\n'])) (pattern.drop (i + 2))) := by
  rw [deleteDescriptor] at h
  split at h
  · cases h
  · next ret' msg_len d' hs =>
    have hdisk := seekMsgDescriptor_disk hs
    rw [openFile_diskWith] at hdisk
    subst hdisk
    dsimp only at h
    rw [openFile_diskWith] at h
    cases ho : pattern.getD (i + 1) true with
    | false =>
      rw [ho] at h
      simp only [Bool.false_eq_true, if_false, Option.isNone_none, if_true, Option.some.injEq,
        Prod.mk.injEq] at h
      exact Or.inl ⟨rfl, h.1.symm, h.2.symm⟩
    | true =>
      rw [ho] at h
      simp only [if_true, Option.isNone_some, Bool.false_eq_true, if_false, Option.some.injEq,
        Prod.mk.injEq] at h
      obtain ⟨rfl, rfl⟩ := h
      exact Or.inr ⟨rfl, Int.natCast_nonneg _, _, _, rfl⟩

end

end BulletinBoard
