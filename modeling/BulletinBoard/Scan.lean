import BulletinBoard.Bbfile

/- The operations as functions of the list of lines. A scan stops at the first line with
   the number (`lineOf`), a delete changes that line only (`deleteIn`), and a write puts
   its line last. On a file of lines that are read whole, what an operation of
   descriptor.cc answers and leaves is what these functions give; the sessions below are
   reasoned about through them. -/
namespace BulletinBoard

/-- The line at which a scan for the number stops. -/
def lineOf (id : CStr) (ls : List CStr) : Option CStr := ls.find? fun l => decide (firstField l = id)

/-- The lines after a delete that finds the number. -/
def deleteIn (id : CStr) : List CStr → List CStr
  | [] => []
  | l :: ls => if firstField l = id then deletedLine l.length :: ls else l :: deleteIn id ls

/-- The offset at which the first line with the id starts. -/
def lineStart (id : CStr) (file : List Char) : Nat :=
  (fileOf ((linesOf file).takeWhile (fun l => firstField l != id))).length

/-- What a read answers for the line it stops at. -/
def readAnswer : Option CStr → Int × Option CStr
  | none => (-1, none)
  | some l => ((lineText l).length, some (lineText l))

theorem readAnswer_absent {o : Option CStr} : (readAnswer o).1 = -1 ↔ o = none := by
  cases o with
  | none => simp [readAnswer]
  | some l => simp [readAnswer]

/-- The user and the message that `read_tokenized_descriptor` copies, where it copies
    them. -/
def tokenizedText (l : CStr) (msg_user msg_message : CStr) : CStr × CStr :=
  if (tokensOf l).length > 3 then ((tokensOf l).getD 1 [], joinMessage (tokensOf l))
  else if (tokensOf l).length = 3 then ((tokensOf l).getD 1 [], (tokensOf l).getD 2 [])
  else (msg_user, msg_message)

/-- What `read_tokenized_descriptor` answers, with the two buffers after it. -/
def tokenizedAnswer (msg_user msg_message : CStr) : Option CStr → Int × CStr × CStr
  | none => (-1, msg_user, msg_message)
  | some l =>
    let r := tokenizedText l msg_user msg_message
    (r.2.length + r.1.length, r)

variable {id : CStr} {ls : List CStr}

theorem lineOf_eq_none : lineOf id ls = none ↔ ∀ l ∈ ls, firstField l ≠ id := by
  simp [lineOf]

theorem lineOf_some {l : CStr} (h : lineOf id ls = some l) : l ∈ ls ∧ firstField l = id :=
  ⟨List.mem_of_find?_eq_some h, by simpa using List.find?_some h⟩

theorem lineOf_append (ls' : List CStr) : lineOf id (ls ++ ls') = (lineOf id ls).or (lineOf id ls') :=
  List.find?_append

theorem Without.of_lineOf_none (hc : ∀ l ∈ ls, Clean l) (h : lineOf id ls = none) : Without id ls :=
  ⟨hc, lineOf_eq_none.1 h⟩

/-- The lines around the one at which a scan stops. -/
theorem lineOf_split {l : CStr} (hc : ∀ l ∈ ls, Clean l) (h : lineOf id ls = some l) :
    ∃ a c, ls = a ++ l :: c ∧ Without id a ∧ Clean l ∧ firstField l = id := by
  rw [lineOf, List.find?_eq_some_iff_append] at h
  obtain ⟨hl, a, c, rfl, ha⟩ := h
  refine ⟨a, c, rfl, ⟨fun x hx => hc x (by simp [hx]), fun x hx => ?_⟩, hc l (by simp), by simpa using hl⟩
  simpa using ha x hx

theorem deleteIn_append {a c : List CStr} {l : CStr} (ha : Without id a) (hl : firstField l = id) :
    deleteIn id (a ++ l :: c) = a ++ deletedLine l.length :: c := by
  induction a with
  | nil => simp [deleteIn, hl]
  | cons x a ih =>
    have hx : firstField x ≠ id := ha.other x (by simp)
    have ha' : Without id a := ⟨fun y hy => ha.clean y (by simp [hy]), fun y hy => ha.other y (by simp [hy])⟩
    simp [deleteIn, hx, ih ha']

theorem lineStart_append {a c : List CStr} {l : CStr} (ha : Without id a) (hl : Clean l)
    (hc : ∀ x ∈ c, Clean x) (hk : firstField l = id) :
    lineStart id (fileOf (a ++ l :: c)) = (fileOf a).length := by
  have hclean : ∀ x ∈ a ++ l :: c, Clean x := by
    intro x hx
    rcases List.mem_append.1 hx with hx | hx
    · exact ha.clean x hx
    · rcases List.mem_cons.1 hx with rfl | hx
      · exact hl
      · exact hc x hx
  have htake : (a ++ l :: c).takeWhile (fun x => firstField x != id) = a := by
    rw [List.takeWhile_append_of_pos]
    · simp [hk]
    · intro x hx; simpa using ha.other x hx
  rw [lineStart, linesOf_fileOf hclean, htake]

/-! What the operations answer and leave. -/

theorem readDescriptor_lines {d d' : Disk} (junk : List Char) (id : CStr) (hd : d.bbfile = fileOf ls)
    (hc : ∀ l ∈ ls, Clean l) (ho : d.openFile = (some ⟨d.bbfile, false⟩, d')) :
    readDescriptor junk id d = some (readAnswer (lineOf id ls), d') := by
  cases h : lineOf id ls with
  | none => exact readDescriptor_absent hd ho (Without.of_lineOf_none hc h)
  | some l =>
    obtain ⟨a, c, rfl, ha, hl, hk⟩ := lineOf_split hc h
    exact readDescriptor_found hd ho ha hl hk

theorem readTokenizedDescriptor_lines {d d' : Disk} (junk : List Char) (id msg_user msg_message : CStr)
    (hd : d.bbfile = fileOf ls) (hc : ∀ l ∈ ls, Clean l)
    (ho : d.openFile = (some ⟨d.bbfile, false⟩, d')) :
    readTokenizedDescriptor junk id msg_user msg_message d =
      some (tokenizedAnswer msg_user msg_message (lineOf id ls), d') := by
  cases h : lineOf id ls with
  | none =>
    have hf := findLine_absent junk (Without.of_lineOf_none hc h) (length_lt_scanRounds ls)
    simp only [readTokenizedDescriptor, ho, Option.getD_some, hd, hf]
    rfl
  | some l =>
    obtain ⟨a, c, rfl, ha, hl, hk⟩ := lineOf_split hc h
    have hlen : a.length < scanRounds ⟨fileOf (a ++ l :: c), false⟩ := by
      have := length_lt_scanRounds (a ++ l :: c)
      simp only [List.length_append, List.length_cons] at this; omega
    have hf := findLine_found junk c ha hl hk hlen
    simp only [readTokenizedDescriptor, ho, Option.getD_some, hd, hf]
    rfl

/-- A delete that finds its line below 2^31. -/
theorem deleteDescriptor_lines {d d₁ d₂ : Disk} {fd : Stream} {l : CStr} (junk : Junk)
    (hd : d.bbfile = fileOf ls) (hc : ∀ l ∈ ls, Clean l)
    (ho : d.openFile = (some ⟨d.bbfile, false⟩, d₁)) (ho₁ : d₁.openFile = (some fd, d₂))
    (h : lineOf id ls = some l) (hstart : (lineStart id d.bbfile : Int) ≤ INT_MAX) :
    deleteDescriptor junk id d =
      some ((l.length : Int) + 1, { d₂ with bbfile := fileOf (deleteIn id ls) }) := by
  obtain ⟨a, c, rfl, ha, hl, hk⟩ := lineOf_split hc h
  rw [hd, lineStart_append ha hl (fun x hx => hc x (by simp [hx])) hk] at hstart
  rw [deleteDescriptor_found hd ho ho₁ ha hl hk hstart, deleteIn_append ha hk]

/-! The calls where every open succeeds. -/

section
variable {file : List Char}

theorem readDescriptor_diskOf (hfile : file = fileOf ls) (hc : ∀ l ∈ ls, Clean l) (junk : List Char) (id : CStr) :
    readDescriptor junk id (diskOf file) = some (readAnswer (lineOf id ls), diskOf file) :=
  readDescriptor_lines junk id hfile hc (openFile_diskOf _)

theorem readTokenizedDescriptor_diskOf (hfile : file = fileOf ls) (hc : ∀ l ∈ ls, Clean l) (junk : List Char)
    (id msg_user msg_message : CStr) : readTokenizedDescriptor junk id msg_user msg_message (diskOf file) =
      some (tokenizedAnswer msg_user msg_message (lineOf id ls), diskOf file) :=
  readTokenizedDescriptor_lines junk id msg_user msg_message hfile hc (openFile_diskOf _)

theorem deleteDescriptor_diskOf {l : CStr} (hfile : file = fileOf ls) (hc : ∀ l ∈ ls, Clean l) (junk : Junk)
    (h : lineOf id ls = some l) (hstart : (lineStart id file : Int) ≤ INT_MAX) :
    deleteDescriptor junk id (diskOf file) = some ((l.length : Int) + 1, diskOf (fileOf (deleteIn id ls))) :=
  deleteDescriptor_lines junk hfile hc (openFile_diskOf _) (openFile_diskOf _) h hstart

theorem writeDescriptor_diskOf (id user message : CStr) (file : List Char) :
    writeDescriptor id user message (diskOf file) = (0, diskOf (file ++ fileOf [mkLine id user message])) := by
  simp only [writeDescriptor, openFile_diskOf, Option.isNone_some, Bool.false_eq_true, if_false, lineBytes_eq]
  rfl

theorem replaceDescriptor_diskOf {junk : Junk} {file file' : List Char} {n : Int} (user message : CStr)
    (h : deleteDescriptor junk id (diskOf file) = some (n, diskOf file')) (hn : 0 ≤ n) :
    replaceDescriptor junk id user message (diskOf file) = some (0, diskOf (file' ++ fileOf [mkLine id user message])) := by
  have hpos : ¬ n < 0 := not_lt.2 hn
  simp only [replaceDescriptor, h, if_neg hpos, writeDescriptor_diskOf, lt_irrefl, if_false]

theorem writeDescriptor_lines (hfile : file = fileOf ls) (id user message : CStr) :
    writeDescriptor id user message (diskOf file) = (0, diskOf (fileOf (ls ++ [mkLine id user message]))) := by
  rw [writeDescriptor_diskOf, hfile, fileOf_append]

end

/-- A replace that finds its line below 2^31. -/
theorem replaceDescriptor_lines {l : CStr} (junk : Junk) (user message : CStr) (hc : ∀ l ∈ ls, Clean l)
    (h : lineOf id ls = some l) (hstart : (lineStart id (fileOf ls) : Int) ≤ INT_MAX) :
    replaceDescriptor junk id user message (diskOf (fileOf ls)) =
      some (0, diskOf (fileOf (deleteIn id ls ++ [mkLine id user message]))) := by
  have hdel := deleteDescriptor_diskOf rfl hc junk h hstart
  rw [replaceDescriptor_diskOf user message hdel (by omega), fileOf_append]

/-! Lines after a delete. -/

/-- A delete moves no line. -/
theorem fileOf_deleteIn_length (id : CStr) (ls : List CStr) : (fileOf (deleteIn id ls)).length = (fileOf ls).length := by
  induction ls with
  | nil => rfl
  | cons l ls ih =>
    rw [deleteIn]
    split
    · simp [deletedLine]
    · rw [fileOf_cons, fileOf_cons, List.length_append, List.length_append, List.length_cons, List.length_cons, ih]

theorem deleteIn_clean (h : ∀ l ∈ ls, Clean l) : ∀ l ∈ deleteIn id ls, Clean l := by
  induction ls with
  | nil => simp [deleteIn]
  | cons x ls ih =>
    intro l hl
    rw [deleteIn] at hl
    split at hl
    · rcases List.mem_cons.1 hl with rfl | hl
      · exact clean_deletedLine (h x (by simp)).length_lt
      · exact h l (by simp [hl])
    · rcases List.mem_cons.1 hl with rfl | hl
      · exact h l (by simp)
      · exact ih (fun y hy => h y (by simp [hy])) l hl

/-- A delete changes no other number's line, where no deleted line has the number. -/
theorem lineOf_deleteIn_of_ne {x : CStr} (hdel : ∀ n, firstField (deletedLine n) ≠ x) (hne : x ≠ id) (ls : List CStr) :
    lineOf x (deleteIn id ls) = lineOf x ls := by
  induction ls with
  | nil => rfl
  | cons l ls ih =>
    rw [deleteIn]
    split
    · next h =>
      have hl : firstField l ≠ x := fun he => hne (he.symm.trans h)
      simp [lineOf, hl, hdel l.length]
    · simp only [lineOf, List.find?_cons] at ih ⊢
      rw [ih]

/-- A line with another number stays. -/
theorem mem_deleteIn {l : CStr} (h : l ∈ ls) (hne : firstField l ≠ id) : l ∈ deleteIn id ls := by
  induction ls with
  | nil => cases h
  | cons x ls ih =>
    rw [deleteIn]
    rcases List.mem_cons.1 h with rfl | h
    · simp [hne]
    · split
      · simp [h]
      · simp [ih h]

/-- The lines after a delete are lines of before, or the deleted one. -/
theorem mem_of_mem_deleteIn {l : CStr} (h : l ∈ deleteIn id ls) : l ∈ ls ∨ ∃ n, l = deletedLine n := by
  induction ls with
  | nil => cases h
  | cons x ls ih =>
    rw [deleteIn] at h
    split at h
    · rcases List.mem_cons.1 h with rfl | h
      · exact .inr ⟨_, rfl⟩
      · exact .inl (List.mem_cons_of_mem _ h)
    · rcases List.mem_cons.1 h with rfl | h
      · exact .inl List.mem_cons_self
      · exact (ih h).imp_left (List.mem_cons_of_mem _)

/-- How many lines have the number. -/
def copies (id : CStr) (ls : List CStr) : Nat := ls.countP fun l => decide (firstField l = id)

/-- No number has two live lines. -/
def Distinct (ls : List CStr) : Prop := ∀ id, IsNumeral id → copies id ls ≤ 1

theorem copies_append (ls' : List CStr) : copies id (ls ++ ls') = copies id ls + copies id ls' :=
  List.countP_append

theorem copies_eq_zero : copies id ls = 0 ↔ lineOf id ls = none := by
  simp [copies, lineOf_eq_none]

theorem lineOf_ne_none (h : copies id ls ≠ 0) : ∃ l, lineOf id ls = some l :=
  Option.ne_none_iff_exists'.1 fun hn => h (copies_eq_zero.2 hn)

theorem copies_deleteIn (hid : IsNumeral id) :
    copies id (deleteIn id ls) = copies id ls - 1 := by
  induction ls with
  | nil => rfl
  | cons x ls ih =>
    by_cases hx : firstField x = id
    · have hne : firstField (deletedLine x.length) ≠ id := firstField_deleted_ne hid x.length
      simp [deleteIn, copies, hx, hne]
    · simpa [deleteIn, copies, hx] using ih

theorem copies_deleteIn_of_ne {x : CStr} (hx : IsNumeral x) (hne : x ≠ id) :
    copies x (deleteIn id ls) = copies x ls := by
  induction ls with
  | nil => rfl
  | cons y ls ih =>
    by_cases hy : firstField y = id
    · have hdel : firstField (deletedLine y.length) ≠ x := firstField_deleted_ne hx y.length
      simp [deleteIn, copies, hy, hdel, Ne.symm hne]
    · by_cases hyx : firstField y = x
      · simpa [deleteIn, copies, hy, hyx, Ne.symm hne, hne] using ih
      · simpa [deleteIn, copies, hy, hyx] using ih

/-- A delete makes no number live twice. -/
theorem Distinct.delete (h : Distinct ls) (id : CStr) : Distinct (deleteIn id ls) := by
  intro x hx
  by_cases hne : x = id
  · subst hne
    rw [copies_deleteIn hx]
    have := h x hx
    omega
  · rw [copies_deleteIn_of_ne hx hne]
    exact h x hx

/-- Nor does a write of a number that is not live. -/
theorem Distinct.write {l : CStr} (h : Distinct ls) (hl : lineOf (firstField l) ls = none) :
    Distinct (ls ++ [l]) := by
  intro x hx
  rw [copies_append]
  by_cases hne : firstField l = x
  · subst hne
    rw [copies_eq_zero.2 hl, Nat.zero_add]
    exact List.countP_le_length
  · have hone : copies x [l] = 0 := by simp [copies, hne]
    rw [hone]
    exact h x hx

end BulletinBoard
