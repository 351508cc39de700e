import BulletinBoard.Descriptor

/- The bbfile as its lines. On a file of newline-terminated lines that fit a line
   buffer, every operation of descriptor.cc is an operation on the list of lines: a
   scan stops at the first line whose first field is the number, the seek gives the
   offset at which that line starts and its length, a delete turns it into
   backspaces where it stands, and a write puts a new line last. The lemmas take the
   outcome of each open as a hypothesis on `Disk.openFile`. -/
namespace BulletinBoard

/-- The file of the lines. -/
def fileOf (ls : List CStr) : List Char := Lines.unlines '\n' ls

@[simp] theorem fileOf_nil : fileOf [] = [] := rfl

@[simp] theorem fileOf_cons (l : CStr) (ls : List CStr) : fileOf (l :: ls) = l ++ '\n' :: fileOf ls :=
  Lines.unlines_cons

@[simp] theorem fileOf_append (a b : List CStr) : fileOf (a ++ b) = fileOf a ++ fileOf b :=
  Lines.unlines_append

/-- The text up to the first slash. -/
def firstField (line : CStr) : CStr := line.takeWhile (fun c => !isSlash c)

/-- The tokens of a line that is tokenized up to its end. -/
def tokensOf (line : CStr) : List CStr := Cut.cut isSlash isBlank false line

/-- The text `read_descriptor` gives for a line. -/
def lineText (line : CStr) : CStr := assembleLine (tokensOf line)

/-- The line of a number, a user and a message, without its newline. -/
def mkLine (msg_number user message : CStr) : CStr :=
  msg_number ++ '/' :: user ++ '/' :: message

/-- A deleted line. -/
def deletedLine (n : Nat) : CStr := List.replicate n BACKSPACE

/-- A line that a scan reads whole. -/
structure Clean (line : CStr) : Prop where
  no_newline : '\n' ∉ line
  no_nul : NUL ∉ line
  length_lt : line.length < BBLINE_LEN

/-- The lines of `ls` are read whole, and none of them has the number. -/
structure Without (msg_number : CStr) (ls : List CStr) : Prop where
  clean : ∀ l ∈ ls, Clean l
  other : ∀ l ∈ ls, firstField l ≠ msg_number

theorem tokensOf_eq (line : CStr) : ∃ ts, tokensOf line = firstField line :: ts := by
  by_cases h : ∃ c ∈ line, isSlash c = true
  · obtain ⟨w, c, r, rfl, hw, hc⟩ := Cut.exists_first h
    refine ⟨Cut.cut isSlash isBlank true r, ?_⟩
    rw [tokensOf, Cut.cut_false_append hw hc, firstField, List.takeWhile_append_of_pos]
    · simp [hc]
    · intro x hx; simp [hw x hx]
  · have hw : ∀ x ∈ line, isSlash x = false := by
      intro x hx
      by_contra hc
      exact h ⟨x, hx, by simpa using hc⟩
    refine ⟨[], ?_⟩
    rw [tokensOf, Cut.cut_false_of_no_sep hw, firstField, List.takeWhile_eq_self_iff.2]
    intro x hx; simp [hw x hx]

theorem tokensOf_head (line : CStr) : (tokensOf line).getD 0 [] = firstField line := by
  obtain ⟨ts, h⟩ := tokensOf_eq line
  rw [h]; rfl

theorem isSlash_not_blank (c : Char) (h : isSlash c = true) : isBlank c = false := by
  simp only [isSlash, beq_iff_eq] at h
  subst h; decide

/-- Both branches of the assembly join the pieces of the message. -/
theorem assembleLine_eq (t₀ t₁ : CStr) {ts : List CStr} (h : ts ≠ []) :
    assembleLine (t₀ :: t₁ :: ts) = t₁ ++ '/' :: ['/'].intercalate ts := by
  obtain ⟨t, ts, rfl⟩ := List.exists_cons_of_ne_nil h
  cases ts with
  | nil => simp [assembleLine]
  | cons t' ts => simp [assembleLine, joinMessage]

theorem no_slash {s : CStr} (h : '/' ∉ s) : ∀ c ∈ s, isSlash c = false := by
  intro c hc
  rw [isSlash, beq_eq_false_iff_ne]
  rintro rfl
  exact h hc

theorem digit_no_slash {c : Char} (h : c.isDigit = true) : isSlash c = false := by
  rw [isSlash, beq_eq_false_iff_ne]
  exact digit_ne h (by decide)

theorem digit_no_sep {c : Char} (h : c.isDigit = true) : isWordSep c = false := by
  simp only [isWordSep, Bool.or_eq_false_iff, beq_eq_false_iff_ne]
  exact ⟨digit_ne h (by decide), digit_ne h (by decide)⟩

theorem isNumeral_no_slash {id : CStr} (h : IsNumeral id) : ∀ c ∈ id, isSlash c = false :=
  fun c hc => digit_no_slash (h.2 c hc)

theorem showInt_no_slash (n : Int) : ∀ c ∈ showInt n, isSlash c = false := by
  intro c hc
  rcases showInt_chars hc with rfl | hd
  · rfl
  · exact digit_no_slash hd

theorem firstField_mkLine {id user message : CStr} (h : ∀ c ∈ id, isSlash c = false) :
    firstField (mkLine id user message) = id := by
  rw [firstField, mkLine, List.append_assoc, List.cons_append, List.takeWhile_append_of_pos]
  · simp [isSlash]
  · intro c hc; simp [h c hc]

theorem firstField_deletedLine (n : Nat) : firstField (deletedLine n) = deletedLine n := by
  rw [firstField, List.takeWhile_eq_self_iff]
  intro c hc
  obtain rfl := List.eq_of_mem_replicate hc
  decide

/-- A numeral is not the first field of a deleted line. -/
theorem firstField_deleted_ne {id : CStr} (h : IsNumeral id) (n : Nat) :
    firstField (deletedLine n) ≠ id := by
  rw [firstField_deletedLine]
  rintro rfl
  obtain ⟨c, hc⟩ := List.exists_mem_of_ne_nil _ h.1
  have hd := h.2 c hc
  obtain rfl := List.eq_of_mem_replicate hc
  exact absurd hd (by decide)

theorem clean_deletedLine {n : Nat} (h : n < BBLINE_LEN) : Clean (deletedLine n) where
  no_newline := fun hm => absurd (List.eq_of_mem_replicate hm) (by decide)
  no_nul := fun hm => absurd (List.eq_of_mem_replicate hm) (by decide)
  length_lt := by simpa [deletedLine] using h

/-- A clean line after clean lines. -/
theorem clean_snoc {ls : List CStr} {l : CStr} (h : ∀ x ∈ ls, Clean x) (hl : Clean l) :
    ∀ x ∈ ls ++ [l], Clean x := by
  intro x hx
  rcases List.mem_append.1 hx with hx | hx
  · exact h x hx
  · obtain rfl : x = l := by simpa using hx
    exact hl

theorem lineBytes_eq (id user message : CStr) :
    lineBytes id user message = fileOf [mkLine id user message] := by
  simp [lineBytes, mkLine]

/-- The newline-terminated lines of a file. -/
def linesOf (file : List Char) : List CStr := (file.splitOnP (· == '\n')).dropLast

theorem linesOf_fileOf {ls : List CStr} (h : ∀ l ∈ ls, Clean l) : linesOf (fileOf ls) = ls := by
  have hsplit : (fileOf ls).splitOnP (· == '\n') = ls ++ [[]] := by
    induction ls with
    | nil => rfl
    | cons l ls ih =>
      have hl : ∀ c ∈ l, (c == '\n') = false := by
        intro c hc
        simp only [beq_eq_false_iff_ne]
        rintro rfl
        exact (h l (by simp)).no_newline hc
      rw [fileOf_cons, List.splitOnP_append_cons_of_forall_mem hl _ (by decide),
        ih (fun x hx => h x (by simp [hx])), List.cons_append]
  rw [linesOf, hsplit, List.dropLast_concat]

/-! One round of the scans. -/

theorem readline_clean {line rest buf : List Char} {fails : Bool} (h : Clean line) :
    readline buf BBLINE_LEN ⟨line ++ '\n' :: rest, fails⟩ =
      ((line.length : Int), line ++ NUL :: buf.drop (line.length + 1), ⟨rest, fails⟩) :=
  readline_line h.no_newline h.length_lt

theorem readline_end (buf : List Char) :
    readline buf BBLINE_LEN ⟨[], false⟩ = (recvNodata, buf, ⟨[], false⟩) :=
  readline_eof (by decide)

theorem bblineTokenize_line {line rest : List Char} (h : NUL ∉ line) :
    tokenStrings (bblineTokenize (line ++ NUL :: rest) line.length) = tokensOf line := by
  rw [bblineTokenize_tokens h (by simp [cstr]) (le_refl _), Cut.cutAt_of_length_le _ _ _ (le_refl _)]
  rfl

theorem length_ne_recvNodata (line : CStr) : ((line.length : Int) = recvNodata) = False := by
  simp only [recvNodata, eq_iff_iff, iff_false]; omega

theorem findLine_line (id rest buf : List Char) (fails : Bool) (f : Nat) {line : CStr} (h : Clean line) :
    ∃ buf', findLine id (f + 1) ⟨line ++ '\n' :: rest, fails⟩ buf =
      if firstField line = id then some (some ⟨line, tokensOf line, ⟨rest, fails⟩⟩)
      else findLine id f ⟨rest, fails⟩ buf' := by
  refine ⟨(bblineTokenize (line ++ NUL :: buf.drop (line.length + 1)) line.length).1, ?_⟩
  rw [findLine, readline_clean h]
  simp only [length_ne_recvNodata, if_false, cstr_zero_append h.no_nul, bblineTokenize_line h.no_nul,
    tokensOf_head]

theorem findLine_eof {id buf : List Char} {f : Nat} :
    findLine id (f + 1) ⟨[], false⟩ buf = some none := by
  rw [findLine, readline_end]; simp

theorem scanMax_line (rest buf : List Char) (fails : Bool) (f : Nat) (max : Int) {line : CStr} (h : Clean line) :
    ∃ buf', scanMax (f + 1) ⟨line ++ '\n' :: rest, fails⟩ buf max =
      scanMax f ⟨rest, fails⟩ buf' (if atoi (firstField line) > max then atoi (firstField line) else max) := by
  refine ⟨(bblineTokenize (line ++ NUL :: buf.drop (line.length + 1)) line.length).1, ?_⟩
  rw [scanMax, readline_clean h]
  simp only [length_ne_recvNodata, if_false, cstr_zero_append h.no_nul, bblineTokenize_line h.no_nul,
    tokensOf_head]

theorem scanMax_eof {buf : List Char} {f : Nat} {max : Int} :
    scanMax (f + 1) ⟨[], false⟩ buf max = some max := by
  rw [scanMax, readline_end]; simp

/-- A scan for the largest number does not end on a descriptor whose reads fail. -/
theorem scanMax_fails : ∀ (f : Nat) (bytes buf : List Char) (max : Int),
    scanMax f ⟨bytes, true⟩ buf max = none
  | 0, _, _, _ => rfl
  | f + 1, bytes, buf, max => by
    obtain ⟨h₁, h₂⟩ := readline_fails buf BBLINE_LEN bytes
    rcases hr : readline buf BBLINE_LEN ⟨bytes, true⟩ with ⟨rc, line, ⟨rest, fails⟩⟩
    rw [hr] at h₁ h₂
    obtain rfl : fails = true := h₂
    simp only [scanMax, hr, if_neg h₁]
    exact scanMax_fails f rest _ _

/-! Whole scans. -/

theorem findLine_skip {id : CStr} (rest : List Char) (fails : Bool) :
    ∀ {a : List CStr} {f : Nat} (buf : List Char), Without id a → a.length ≤ f →
      ∃ buf', findLine id f ⟨fileOf a ++ rest, fails⟩ buf =
        findLine id (f - a.length) ⟨rest, fails⟩ buf'
  | [], f, buf, _, _ => ⟨buf, by simp⟩
  | _ :: _, 0, _, _, hf => by simp at hf
  | l :: a, f + 1, buf, h, hf => by
    have ha : Without id a :=
      ⟨fun x hx => h.clean x (by simp [hx]), fun x hx => h.other x (by simp [hx])⟩
    obtain ⟨b₁, h₁⟩ := findLine_line id (fileOf a ++ rest) buf fails f (h.clean l (by simp))
    rw [if_neg (h.other l (by simp))] at h₁
    obtain ⟨b₂, h₂⟩ := findLine_skip rest fails b₁ ha (by simpa using hf)
    refine ⟨b₂, ?_⟩
    simp only [fileOf_cons, List.append_assoc, List.cons_append, h₁, h₂, List.length_cons]
    congr 1; omega

theorem findLine_absent {id : CStr} {ls : List CStr} {f : Nat} (buf : List Char) (h : Without id ls)
    (hf : ls.length < f) : findLine id f ⟨fileOf ls, false⟩ buf = some none := by
  obtain ⟨b, hb⟩ := findLine_skip [] false buf h (Nat.le_of_lt hf)
  rw [List.append_nil] at hb
  rw [hb, show f - ls.length = (f - ls.length - 1) + 1 by omega, findLine_eof]

/-- A scan stops at the first line with the number, whatever follows it. -/
theorem findLine_at {id l : CStr} {a : List CStr} {f : Nat} (buf rest : List Char) (h : Without id a) (hl : Clean l)
    (hk : firstField l = id) (hf : a.length < f) :
    findLine id f ⟨fileOf a ++ (l ++ '\n' :: rest), false⟩ buf = some (some ⟨l, tokensOf l, ⟨rest, false⟩⟩) := by
  obtain ⟨b₁, h₁⟩ := findLine_skip (l ++ '\n' :: rest) false buf h (Nat.le_of_lt hf)
  obtain ⟨b₂, h₂⟩ := findLine_line id rest b₁ false (f - a.length - 1) hl
  rw [if_pos hk] at h₂
  rw [h₁, show f - a.length = (f - a.length - 1) + 1 by omega, h₂]

theorem findLine_found {id l : CStr} {a : List CStr} {f : Nat} (buf : List Char) (b : List CStr)
    (h : Without id a) (hl : Clean l) (hk : firstField l = id) (hf : a.length < f) :
    findLine id f ⟨fileOf (a ++ l :: b), false⟩ buf =
      some (some ⟨l, tokensOf l, ⟨fileOf b, false⟩⟩) := by
  rw [fileOf_append, fileOf_cons]
  exact findLine_at buf (fileOf b) h hl hk hf

/-- The largest number on file, as `atoi` reads the first fields; 0 when none is
    larger. -/
def maxNumber (ls : List CStr) : Int :=
  ls.foldl (fun max l => if atoi (firstField l) > max then atoi (firstField l) else max) 0

theorem scanMax_eq : ∀ {ls : List CStr} {f : Nat} {buf : List Char} {max : Int},
    (∀ l ∈ ls, Clean l) → ls.length < f → scanMax f ⟨fileOf ls, false⟩ buf max =
      some (ls.foldl (fun max l => if atoi (firstField l) > max then atoi (firstField l) else max) max)
  | _, 0, _, _, _, hf => by simp at hf
  | [], f + 1, buf, max, _, _ => scanMax_eof
  | l :: ls, f + 1, buf, max, h, hf => by
    obtain ⟨b, hb⟩ := scanMax_line (fileOf ls) buf false f max (h l (by simp))
    rw [fileOf_cons, hb, scanMax_eq (fun x hx => h x (by simp [hx])) (by simpa using hf)]
    rfl

theorem length_lt_scanRounds (ls : List CStr) : ls.length < scanRounds ⟨fileOf ls, false⟩ := by
  have := Lines.unlines_length_le '\n' ls
  simp only [scanRounds, fileOf]; omega

/-! The operations. -/

@[simp] theorem openFile_bbfile (d : Disk) : d.openFile.2.bbfile = d.bbfile := by
  unfold Disk.openFile; split <;> rfl

theorem seekMsgDescriptor_absent {id : CStr} {ls : List CStr} {junk : List Char} {d d' : Disk}
    (hd : d.bbfile = fileOf ls) (ho : d.openFile = (some ⟨d.bbfile, false⟩, d')) (h : Without id ls) :
    seekMsgDescriptor junk id d = some ((0, none), d') := by
  simp only [seekMsgDescriptor, ho, Option.getD_some, hd, findLine_absent _ h (length_lt_scanRounds ls)]

theorem length_lt_scanRounds_append (a : List CStr) (rest : List Char) :
    a.length < scanRounds ⟨fileOf a ++ rest, false⟩ := by
  have := length_lt_scanRounds a
  simp only [scanRounds, List.length_append] at this ⊢
  omega

/-- The seek gives the offset of the line, as an `int`, and its length. -/
theorem seekMsgDescriptor_at {id l : CStr} {a : List CStr} {rest junk : List Char} {d d' : Disk}
    (hd : d.bbfile = fileOf a ++ (l ++ '\n' :: rest)) (ho : d.openFile = (some ⟨d.bbfile, false⟩, d'))
    (h : Without id a) (hl : Clean l) (hk : firstField l = id) :
    seekMsgDescriptor junk id d = some ((toInt (fileOf a).length, some (showInt l.length)), d') := by
  have hfind := findLine_at junk rest h hl hk (length_lt_scanRounds_append a (l ++ '\n' :: rest))
  have hpos : toInt (toInt (((fileOf a ++ (l ++ '\n' :: rest)).length : Int) - rest.length) - l.length - 1) =
      toInt (fileOf a).length := by
    have hx : ((fileOf a ++ (l ++ '\n' :: rest)).length : Int) - rest.length - (l.length + 1) =
        (fileOf a).length := by
      simp; omega
    rw [sub_sub, toInt, toInt, Int.bmod_sub_bmod, hx]; rfl
  simp only [seekMsgDescriptor, ho, Option.getD_some, hd, hfind, hpos]

/-- A delete writes what the seek found over the file, where both calls open it. -/
theorem deleteDescriptor_seek {id : CStr} {junk : Junk} {d d₁ d₂ : Disk} {fd : Stream} {pos : Int} {n : Nat}
    (hseek : seekMsgDescriptor junk.line id d = some ((pos, some (showInt n)), d₁))
    (ho₁ : d₁.openFile = (some fd, d₂)) (hn : n < BBLINE_LEN) :
    deleteDescriptor junk id d = some ((n : Int) + 1, { d₂ with
      bbfile := Lines.overwrite NUL d₂.bbfile pos.toNat (deletedLine n ++ ['\n']) }) := by
  have hlim : atoi (showInt n) = n := by
    refine atoi_showInt (by omega) ?_
    unfold BBLINE_LEN at hn; unfold INT_MAX; omega
  simp only [deleteDescriptor, hseek, ho₁, Option.getD_some, hlim, Option.isNone_some, Bool.false_eq_true, if_false,
    Int.toNat_natCast, deletedLine]
  simp

/-- A delete writes as many backspaces as the line has characters, at the offset of the line
    as an `int`. -/
theorem deleteDescriptor_at {id l : CStr} {a b : List CStr} {junk : Junk} {d d₁ d₂ : Disk} {fd : Stream}
    (hd : d.bbfile = fileOf (a ++ l :: b)) (ho : d.openFile = (some ⟨d.bbfile, false⟩, d₁))
    (ho₁ : d₁.openFile = (some fd, d₂)) (h : Without id a) (hl : Clean l) (hk : firstField l = id) :
    deleteDescriptor junk id d =
      some ((l.length : Int) + 1, { d₂ with bbfile := (Lines.overwrite NUL (fileOf (a ++ l :: b))
        (toInt (fileOf a).length).toNat (deletedLine l.length ++ ['\n'])) }) := by
  have hd₂ : d₂.bbfile = fileOf (a ++ l :: b) := by
    have h₁ := openFile_bbfile d
    have h₂ := openFile_bbfile d₁
    rw [ho] at h₁; rw [ho₁] at h₂
    exact h₂.trans (h₁.trans hd)
  rw [deleteDescriptor_seek (seekMsgDescriptor_at (by rw [hd, fileOf_append, fileOf_cons]) ho h hl hk) ho₁ hl.length_lt,
    hd₂]

/-- Deleting a line that starts below 2^31 turns it into backspaces where it stands. -/
theorem deleteDescriptor_found {id l : CStr} {a b : List CStr} {junk : Junk} {d d₁ d₂ : Disk} {fd : Stream}
    (hd : d.bbfile = fileOf (a ++ l :: b)) (ho : d.openFile = (some ⟨d.bbfile, false⟩, d₁))
    (ho₁ : d₁.openFile = (some fd, d₂)) (h : Without id a) (hl : Clean l) (hk : firstField l = id)
    (hstart : ((fileOf a).length : Int) ≤ INT_MAX) :
    deleteDescriptor junk id d =
      some ((l.length : Int) + 1, { d₂ with bbfile := fileOf (a ++ deletedLine l.length :: b) }) := by
  have hret : (toInt (fileOf a).length).toNat = (fileOf a).length := by
    rw [toInt_of_range (by omega) hstart]; simp
  have hwrite : Lines.overwrite NUL (fileOf (a ++ l :: b)) (fileOf a).length
      (deletedLine l.length ++ ['\n']) = fileOf (a ++ deletedLine l.length :: b) :=
    Lines.overwrite_line (by simp [deletedLine])
  rw [deleteDescriptor_at hd ho ho₁ h hl hk, hret, hwrite]

theorem writeDescriptor_append {id user message : CStr} {ls : List CStr} {d d₁ d₂ : Disk} {fd fd₁ : Stream}
    (hd : d.bbfile = fileOf ls) (ho : d.openFile = (some fd, d₁)) (ho₁ : d₁.openFile = (some fd₁, d₂)) :
    writeDescriptor id user message d =
      (0, { d₂ with bbfile := fileOf (ls ++ [mkLine id user message]) }) := by
  have hd₂ : d₂.bbfile = fileOf ls := by
    have h₁ := openFile_bbfile d
    have h₂ := openFile_bbfile d₁
    rw [ho] at h₁; rw [ho₁] at h₂
    exact h₂.trans (h₁.trans hd)
  simp only [writeDescriptor, ho, ho₁, Option.isNone_some, Bool.false_eq_true, if_false, hd₂,
    lineBytes_eq, fileOf_append]

/-- A write appends its line, or answers -2 and changes nothing. -/
theorem writeDescriptor_cases (id user message : CStr) {ls : List CStr} {d : Disk} (hd : d.bbfile = fileOf ls) :
    ((writeDescriptor id user message d).1 = 0 ∧
        (writeDescriptor id user message d).2.bbfile = fileOf (ls ++ [mkLine id user message])) ∨
      ((writeDescriptor id user message d).1 = -2 ∧
        (writeDescriptor id user message d).2.bbfile = fileOf ls) := by
  rcases ho : d.openFile with ⟨fd, d₁⟩
  have h₁ : d₁.bbfile = fileOf ls := by
    have := openFile_bbfile d
    rw [ho] at this
    exact this.trans hd
  cases fd with
  | none => right; simp [writeDescriptor, ho, h₁]
  | some fd =>
    rcases ho₁ : d₁.openFile with ⟨fd₁, d₂⟩
    have h₂ : d₂.bbfile = fileOf ls := by
      have := openFile_bbfile d₁
      rw [ho₁] at this
      exact this.trans h₁
    cases fd₁ with
    | none => right; simp [writeDescriptor, ho, ho₁, h₂]
    | some fd₁ => left; rw [writeDescriptor_append hd ho ho₁]; exact ⟨rfl, rfl⟩

theorem readDescriptor_absent {id : CStr} {ls : List CStr} {junk : List Char} {d d' : Disk}
    (hd : d.bbfile = fileOf ls) (ho : d.openFile = (some ⟨d.bbfile, false⟩, d')) (h : Without id ls) :
    readDescriptor junk id d = some ((-1, none), d') := by
  simp only [readDescriptor, ho, hd, findLine_absent _ h (length_lt_scanRounds ls)]

theorem readDescriptor_found {id l : CStr} {a b : List CStr} {junk : List Char} {d d' : Disk}
    (hd : d.bbfile = fileOf (a ++ l :: b)) (ho : d.openFile = (some ⟨d.bbfile, false⟩, d'))
    (h : Without id a) (hl : Clean l) (hk : firstField l = id) :
    readDescriptor junk id d = some ((((lineText l).length : Int), some (lineText l)), d') := by
  have hlen : a.length < scanRounds ⟨fileOf (a ++ l :: b), false⟩ := by
    have := length_lt_scanRounds (a ++ l :: b)
    simp only [List.length_append, List.length_cons] at this; omega
  simp only [readDescriptor, ho, hd, findLine_found _ _ h hl hk hlen]
  rfl

/-- A seek takes one open. -/
theorem seekMsgDescriptor_disk {buf : List Char} {id : CStr} {d d' : Disk} {r : Int × Option CStr}
    (h : seekMsgDescriptor buf id d = some (r, d')) : d' = d.openFile.2 := by
  rw [seekMsgDescriptor] at h
  dsimp only at h
  split at h
  · cases h
  · simp only [Option.some.injEq, Prod.mk.injEq] at h
    exact h.2.symm
  · simp only [Option.some.injEq, Prod.mk.injEq] at h
    exact h.2.symm

/-- A read takes one open. -/
theorem readDescriptor_disk {junk : List Char} {id : CStr} {d d' : Disk} {r : Int × Option CStr}
    (h : readDescriptor junk id d = some (r, d')) : d' = d.openFile.2 := by
  rw [readDescriptor] at h
  dsimp only at h
  split at h
  · simp only [Option.some.injEq, Prod.mk.injEq] at h
    exact h.2.symm
  · split at h
    · cases h
    · simp only [Option.some.injEq, Prod.mk.injEq] at h
      exact h.2.symm
    · simp only [Option.some.injEq, Prod.mk.injEq] at h
      exact h.2.symm

/-- A write that answers 0 has put its line last. -/
theorem writeDescriptor_zero {id user message : CStr} {d d' : Disk}
    (h : writeDescriptor id user message d = (0, d')) :
    d'.bbfile = d.bbfile ++ fileOf [mkLine id user message] := by
  have hopen := openFile_bbfile d
  rw [writeDescriptor] at h
  dsimp only at h
  split at h
  · simp at h
  · split at h
    · simp at h
    · obtain rfl := (Prod.mk.inj h).2
      rw [← lineBytes_eq]
      dsimp only
      rw [openFile_bbfile, openFile_bbfile]

/-- The disk with this file on which every open succeeds. -/
def diskOf (file : List Char) : Disk := ⟨file, []⟩

@[simp] theorem diskOf_bbfile (file : List Char) : (diskOf file).bbfile = file := rfl

@[simp] theorem openFile_diskOf (file : List Char) :
    (diskOf file).openFile = (some ⟨file, false⟩, diskOf file) := rfl

end BulletinBoard
