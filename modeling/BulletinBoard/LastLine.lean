import BulletinBoard.AbortedWrite
import BulletinBoard.ReplaceReplication

/- Boards that were not written by the server. `initiate_descriptor` takes any file as it is, and
   its last line may lack the newline. A scan reads such a line like any other, but an append goes
   on in it, and the seek puts its start one byte too low: the newline of the line before is
   overwritten, and the two lines become one. What a change leaves is followed on the list of
   lines; with the newline missing it is safe in a few cases only. -/
namespace BulletinBoard

/-- A file whose lines are those of a board, the last with or without its newline. -/
structure Existing where
  board : Board
  terminated : Bool

def Existing.bytes (e : Existing) : List Char :=
  if e.terminated then e.board.bytes else e.board.bytes.dropLast

/-- The calls after which the number is to be found. -/
def StoreOp.Writes : StoreOp → Prop
  | write _ _ _ | replace _ _ _ => True
  | _ => False

/-- Whatever is in its buffers, the call leaves what a read of any other number gives, and the number
    it writes is found. -/
def StoreOp.Safe (op : StoreOp) (file : List Char) : Prop :=
  ∀ junk, ∃ out file', op.run junk file = some (out, file') ∧
    (∀ id, IsNumeral id → id ≠ op.id → ∀ line, ∃ r d d',
      readDescriptor line id (diskOf file) = some (r, d) ∧ readDescriptor line id (diskOf file') = some (r, d')) ∧
    (op.Writes → ∀ line, ∃ r text d, readDescriptor line op.id (diskOf file') = some ((r, text), d) ∧ 0 ≤ r)

/-- The last line is the live line of the number. -/
def LastIs (id : CStr) (ls : List BoardLine) : Prop := ∃ a l, ls = a ++ [.live l] ∧ l.id = id

/-- No live line stands before the last one. -/
def NoneBeforeLast (ls : List BoardLine) : Prop := ∀ a l x, ls ≠ a ++ [.live l, x]

/-- What makes a change safe on a file that does not end with a newline. -/
def StoreOp.SafeOpen (op : StoreOp) (ls : List BoardLine) : Prop :=
  match op with
  | .write _ _ _ => ls = []
  | .delete id => LastIs id ls → NoneBeforeLast ls
  | .replace id _ _ => LastIs id ls ∧ NoneBeforeLast ls
  | .read _ => True

/-! Reading. -/

/-- Every read of the file answers by these lines. -/
def Shows (file : List Char) (ls : List CStr) : Prop :=
  ∀ junk id, readDescriptor junk id (diskOf file) = some (readAnswer (lineOf id ls), diskOf file)

section
variable {id l : CStr} {a ls : List CStr}

theorem shows_lines (hc : ∀ l ∈ ls, Clean l) : Shows (fileOf ls) ls :=
  fun junk id => readDescriptor_diskOf rfl hc junk id

/-- A last line without its newline is read as if it had one. -/
theorem findLine_open (id buf : List Char) (f : Nat) (hl : Clean l) (hne : l ≠ []) :
    ∃ buf', findLine id (f + 1) ⟨l, false⟩ buf =
      if firstField l = id then some (some ⟨l, tokensOf l, ⟨[], false⟩⟩) else findLine id f ⟨[], false⟩ buf' := by
  have hread : readline buf BBLINE_LEN ⟨l, false⟩ =
      ((l.length : Int), l ++ NUL :: buf.drop (l.length + 1), ⟨[], false⟩) := by
    rw [readline, takeLine_end hl.no_newline hl.length_lt]
    dsimp only
    rw [if_neg hne]
  refine ⟨(bblineTokenize (l ++ NUL :: buf.drop (l.length + 1)) l.length).1, ?_⟩
  rw [findLine, hread]
  simp only [length_ne_recvNodata, if_false, cstr_zero_append hl.no_nul, bblineTokenize_line hl.no_nul,
    tokensOf_head]

theorem findLine_open_skip (buf : List Char) (f : Nat) (ha : Without id a) (hl : Clean l) (hne : l ≠ []) :
    findLine id (a.length + f + 2) ⟨fileOf a ++ l, false⟩ buf =
      if firstField l = id then some (some ⟨l, tokensOf l, ⟨[], false⟩⟩) else some none := by
  obtain ⟨b₁, h₁⟩ := findLine_skip l false buf ha (by omega : a.length ≤ a.length + f + 2)
  obtain ⟨b₂, h₂⟩ := findLine_open id b₁ (f + 1) hl hne
  rw [h₁, show a.length + f + 2 - a.length = f + 1 + 1 by omega, h₂, findLine_eof]

theorem scanRounds_open (a : List CStr) (l : CStr) : ∃ f, scanRounds ⟨fileOf a ++ l, false⟩ = a.length + f + 2 := by
  have := Lines.unlines_length_le '\n' a
  refine ⟨(fileOf a ++ l).length - a.length, ?_⟩
  simp only [scanRounds, fileOf, List.length_append] at this ⊢
  omega

theorem shows_open (hc : ∀ x ∈ a, Clean x) (hl : Clean l) (hne : l ≠ []) : Shows (fileOf a ++ l) (a ++ [l]) := by
  intro junk id
  cases h : lineOf id a with
  | some x =>
    obtain ⟨p, q, rfl, hp, hx, hk⟩ := lineOf_split hc h
    have hfile : fileOf (p ++ x :: q) ++ l = fileOf p ++ (x ++ '\n' :: (fileOf q ++ l)) := by simp
    have hfind := findLine_at junk (fileOf q ++ l) hp hx hk
      (length_lt_scanRounds_append p (x ++ '\n' :: (fileOf q ++ l)))
    rw [hfile, readDescriptor, openFile_diskOf]
    dsimp only
    rw [hfind, lineOf_append, h]
    rfl
  | none =>
    obtain ⟨f, hf⟩ := scanRounds_open a l
    have hfind := findLine_open_skip junk f (Without.of_lineOf_none hc h) hl hne
    rw [readDescriptor, openFile_diskOf]
    dsimp only
    rw [hf, hfind, lineOf_append, h, Option.none_or, lineOf, List.find?_singleton]
    by_cases hk : firstField l = id
    · rw [if_pos hk, decide_eq_true hk]
      rfl
    · rw [if_neg hk, decide_eq_false hk]
      rfl

/-! Writing. -/

/-- A delete of a line that ends with a newline, whatever follows it. -/
theorem deleteDescriptor_line (junk : Junk) (rest : List Char) (ha : Without id a) (hl : Clean l) (hk : firstField l = id)
    (hstart : ((fileOf a).length : Int) ≤ INT_MAX) :
    deleteDescriptor junk id (diskOf (fileOf a ++ (l ++ '\n' :: rest))) =
      some ((l.length : Int) + 1, diskOf (fileOf a ++ (deletedLine l.length ++ '\n' :: rest))) := by
  have hseek : seekMsgDescriptor junk.line id (diskOf (fileOf a ++ (l ++ '\n' :: rest))) =
      some ((toInt (fileOf a).length, some (showInt l.length)), diskOf (fileOf a ++ (l ++ '\n' :: rest))) :=
    seekMsgDescriptor_at rfl (openFile_diskOf _) ha hl hk
  have hlen : (deletedLine l.length ++ ['\n']).length = (l ++ ['\n']).length := by simp [deletedLine]
  have hover := @Lines.overwrite_part _ NUL (fileOf a) _ _ rest hlen
  simp only [List.append_assoc, List.singleton_append] at hover
  rw [deleteDescriptor_seek hseek (openFile_diskOf _) hl.length_lt, toInt_of_range (Int.natCast_nonneg _) hstart,
    Int.toNat_natCast, diskOf_bbfile, hover]
  rfl

/-- A delete of a last line without a newline writes from the byte before it on. -/
theorem deleteDescriptor_open (junk : Junk) (ha : Without id a) (hl : Clean l) (hne : l ≠ []) (hk : firstField l = id) :
    deleteDescriptor junk id (diskOf (fileOf a ++ l)) =
      some ((l.length : Int) + 1, diskOf (Lines.overwrite NUL (fileOf a ++ l)
        (toInt ((fileOf a).length - 1)).toNat (deletedLine l.length ++ ['\n']))) := by
  obtain ⟨f, hf⟩ := scanRounds_open a l
  have hfind := findLine_open_skip junk.line f ha hl hne
  rw [if_pos hk, ← hf] at hfind
  have hpos : toInt (toInt (((fileOf a ++ l).length : Int) - ([] : List Char).length) - l.length - 1) =
      toInt ((fileOf a).length - 1) := by
    have hx : ((fileOf a ++ l).length : Int) - ([] : List Char).length - (l.length + 1) = (fileOf a).length - 1 := by
      simp only [List.length_append, List.length_nil]
      omega
    rw [sub_sub, toInt, toInt, Int.bmod_sub_bmod, hx]
    rfl
  have hseek : seekMsgDescriptor junk.line id (diskOf (fileOf a ++ l)) =
      some ((toInt ((fileOf a).length - 1), some (showInt l.length)), diskOf (fileOf a ++ l)) := by
    simp only [seekMsgDescriptor, openFile_diskOf, Option.getD_some, hfind, hpos]
  rw [deleteDescriptor_seek hseek (openFile_diskOf _) hl.length_lt, diskOf_bbfile]
  rfl

/-- With no line before it, it becomes a deleted line. -/
theorem deleteDescriptor_only (junk : Junk) (hl : Clean l) (hne : l ≠ []) (hk : firstField l = id) :
    deleteDescriptor junk id (diskOf l) = some ((l.length : Int) + 1, diskOf (fileOf [deletedLine l.length])) := by
  have hdelete := deleteDescriptor_open junk (⟨by simp, by simp⟩ : Without id []) hl hne hk
  have hpos : (toInt (((fileOf []).length : Int) - 1)).toNat = 0 := by decide
  have hover := @Lines.overwrite_end _ NUL [] (deletedLine l.length ++ ['\n']) l (by simp [deletedLine])
  simp only [List.nil_append, List.length_nil] at hover
  rw [hpos, fileOf_nil, List.nil_append, hover] at hdelete
  rw [hdelete]
  simp

/-- Else its backspaces are put behind the line before. -/
theorem deleteDescriptor_behind (junk : Junk) {y : CStr} (ha : Without id (a ++ [y])) (hl : Clean l) (hne : l ≠ [])
    (hk : firstField l = id) (hstart : ((fileOf (a ++ [y])).length : Int) ≤ INT_MAX) :
    deleteDescriptor junk id (diskOf (fileOf (a ++ [y]) ++ l)) =
      some ((l.length : Int) + 1, diskOf (fileOf (a ++ [y ++ deletedLine l.length]))) := by
  have hpos : (toInt (((fileOf (a ++ [y])).length : Int) - 1)).toNat = (fileOf a ++ y).length := by
    have hlen : ((fileOf (a ++ [y])).length : Int) - 1 = ((fileOf a ++ y).length : Int) := by
      simp only [fileOf_append, fileOf_cons, fileOf_nil, List.length_append, List.length_cons, List.length_nil]
      omega
    rw [hlen, toInt_of_range (Int.natCast_nonneg _) (by omega), Int.toNat_natCast]
  have hover := @Lines.overwrite_end _ NUL (fileOf a ++ y) (deletedLine l.length ++ ['\n']) ('\n' :: l)
    (by simp [deletedLine])
  have hfile : fileOf (a ++ [y]) ++ l = fileOf a ++ y ++ '\n' :: l := by simp
  rw [deleteDescriptor_open junk ha hl hne hk, hpos, hfile, hover]
  simp

end

/-! A change as it is seen by the reads. -/

/-- Whatever is in its buffers, the call leaves a file that is read by these lines. -/
def StoreOp.Becomes (op : StoreOp) (file : List Char) (ls : List CStr) : Prop :=
  ∃ file', (∀ junk, ∃ out, op.run junk file = some (out, file')) ∧ Shows file' ls

/-- A read of any other number is answered alike. -/
def SameOthers (id : CStr) (ls ls' : List CStr) : Prop :=
  ∀ k, IsNumeral k → k ≠ id → readAnswer (lineOf k ls') = readAnswer (lineOf k ls)

section
variable {op : StoreOp} {file file' : List Char} {id user message l y : CStr} {ls ls' a : List CStr}

theorem readAnswer_nonneg {o : Option CStr} : 0 ≤ (readAnswer o).1 ↔ o ≠ none := by
  cases o with
  | none => exact ⟨fun h => absurd h (by decide), fun h => absurd rfl h⟩
  | some l => exact ⟨fun _ => Option.some_ne_none l, fun _ => Int.natCast_nonneg _⟩

theorem StoreOp.Becomes.safe_iff (hb : op.Becomes file ls') (hs : Shows file ls) :
    op.Safe file ↔ SameOthers op.id ls ls' ∧ (op.Writes → lineOf op.id ls' ≠ none) := by
  obtain ⟨file', hrun, hs'⟩ := hb
  constructor
  · intro h
    obtain ⟨out, file'', hrun', hothers, hfound⟩ := h ⟨[], []⟩
    obtain ⟨out', hrun⟩ := hrun ⟨[], []⟩
    obtain ⟨-, rfl⟩ := Prod.mk.inj (Option.some.inj (hrun.symm.trans hrun'))
    constructor
    · intro k hk hne
      obtain ⟨r, d, d', hr, hr'⟩ := hothers k hk hne []
      rw [hs] at hr
      rw [hs'] at hr'
      rw [(Prod.mk.inj (Option.some.inj hr)).1, (Prod.mk.inj (Option.some.inj hr')).1]
    · intro hw
      obtain ⟨r, text, d, hr, hpos⟩ := hfound hw []
      rw [hs'] at hr
      rw [← readAnswer_nonneg, (Prod.mk.inj (Option.some.inj hr)).1]
      exact hpos
  · rintro ⟨hothers, hfound⟩ junk
    obtain ⟨out, hrun⟩ := hrun junk
    refine ⟨out, file', hrun, ?_, ?_⟩
    · intro k hk hne line
      exact ⟨_, _, _, hs line k, by rw [hs', hothers k hk hne]⟩
    · intro hw line
      exact ⟨_, _, _, hs' line op.id, readAnswer_nonneg.2 (hfound hw)⟩

theorem becomes_write (hs : Shows (file ++ fileOf [mkLine id user message]) ls) :
    (StoreOp.write id user message).Becomes file ls := by
  refine ⟨_, fun junk => ⟨[], ?_⟩, hs⟩
  rw [StoreOp.run, writeDescriptor_diskOf]
  rfl

theorem becomes_delete {n : Nat} (hdelete : ∀ junk, deleteDescriptor junk id (diskOf file) = some ((n : Int) + 1, diskOf file'))
    (hs : Shows file' ls) : (StoreOp.delete id).Becomes file ls := by
  refine ⟨file', fun junk => ⟨[], ?_⟩, hs⟩
  rw [StoreOp.run, hdelete]
  rfl

theorem becomes_replace {n : Nat}
    (hdelete : ∀ junk, deleteDescriptor junk id (diskOf file) = some ((n : Int) + 1, diskOf file'))
    (hs : Shows (file' ++ fileOf [mkLine id user message]) ls) : (StoreOp.replace id user message).Becomes file ls := by
  refine ⟨_, fun junk => ⟨[], ?_⟩, hs⟩
  rw [StoreOp.run, replaceDescriptor_diskOf user message (hdelete junk) (by omega)]
  rfl

theorem SameOthers.of_lineOf (h : ∀ k, IsNumeral k → k ≠ id → lineOf k ls' = lineOf k ls) : SameOthers id ls ls' :=
  fun k hk hne => congrArg readAnswer (h k hk hne)

/-- A new line of the number behind the others. -/
theorem lineOf_snoc_ne {k : CStr} (hl : firstField l = id) (hne : k ≠ id) (ls : List CStr) :
    lineOf k (ls ++ [l]) = lineOf k ls := by
  have hnone : lineOf k [l] = none := by
    rw [lineOf_eq_none]
    intro x hx
    obtain rfl := List.mem_singleton.1 hx
    exact fun he => hne (he.symm.trans hl)
  rw [lineOf_append, hnone, Option.or_none]

theorem lineOf_snoc_self (hl : firstField l = id) (ls : List CStr) : lineOf id (ls ++ [l]) ≠ none := by
  rw [Ne, lineOf_eq_none]
  exact fun h => h l (by simp) hl

theorem sameOthers_snoc (hl : firstField l = id) : SameOthers id ls (ls' ++ [l]) ↔ SameOthers id ls ls' := by
  constructor
  · intro h k hk hne
    rw [← h k hk hne, lineOf_snoc_ne hl hne]
  · intro h k hk hne
    rw [lineOf_snoc_ne hl hne, h k hk hne]

theorem sameOthers_deleteIn (id : CStr) (ls : List CStr) : SameOthers id ls (deleteIn id ls) :=
  .of_lineOf fun _ hk hne => lineOf_deleteIn_of_ne (firstField_deleted_ne hk) hne ls

end

/-! A board whose last line has its newline. -/

/-- Every legal change is safe. -/
theorem safe_terminated {op : StoreOp} {b : Board} (hl : op.Legal b.toMap) (hin : op.InInt b.bytes) :
    op.Safe b.bytes := by
  have hs : Shows b.bytes b.texts := shows_lines b.texts_clean
  have hdelete : ∀ {id : CStr}, b.toMap id ≠ none → (lineStart id b.bytes : Int) ≤ INT_MAX →
      ∃ n : Nat, ∀ junk, deleteDescriptor junk id (diskOf b.bytes) =
        some ((n : Int) + 1, diskOf (fileOf (deleteIn id b.texts))) := by
    intro id hlive hstart
    have hcopies : copies id b.texts ≠ 0 := by
      rw [Board.copies_eq_one (not_not.1 (mt Board.toMap_eq_none.2 hlive))]
      decide
    obtain ⟨l, hline⟩ := lineOf_ne_none hcopies
    exact ⟨l.length, fun junk => deleteDescriptor_diskOf rfl b.texts_clean junk hline hstart⟩
  cases op with
  | write id user message =>
    have hnew := hl.2.clean
    have hfield := hl.2.firstField
    have hs' : Shows (b.bytes ++ fileOf [mkLine id user message]) (b.texts ++ [mkLine id user message]) := by
      rw [Board.bytes, ← fileOf_append]
      exact shows_lines (clean_snoc b.texts_clean hnew)
    rw [(becomes_write hs').safe_iff hs]
    exact ⟨.of_lineOf fun k _ hne => lineOf_snoc_ne hfield hne b.texts, fun _ => lineOf_snoc_self hfield b.texts⟩
  | replace id user message =>
    have hnew := hl.2.clean
    have hfield := hl.2.firstField
    obtain ⟨n, hdel⟩ := hdelete hl.1 hin
    have hs' : Shows (fileOf (deleteIn id b.texts) ++ fileOf [mkLine id user message])
        (deleteIn id b.texts ++ [mkLine id user message]) := by
      rw [← fileOf_append]
      exact shows_lines (clean_snoc (deleteIn_clean b.texts_clean) hnew)
    rw [(becomes_replace hdel hs').safe_iff hs]
    exact ⟨(sameOthers_snoc hfield).2 (sameOthers_deleteIn id b.texts), fun _ => lineOf_snoc_self hfield _⟩
  | delete id =>
    obtain ⟨n, hdel⟩ := hdelete hl hin
    rw [(becomes_delete hdel (shows_lines (deleteIn_clean b.texts_clean))).safe_iff hs]
    exact ⟨sameOthers_deleteIn id b.texts, fun h => h.elim⟩
  | read id =>
    have hb : (StoreOp.read id).Becomes b.bytes b.texts := by
      refine ⟨b.bytes, fun junk => ?_, hs⟩
      rw [StoreOp.run, hs]
      exact ⟨_, rfl⟩
    rw [hb.safe_iff hs]
    exact ⟨fun _ _ _ => rfl, fun h => h.elim⟩

/-! A board whose last line lacks its newline. -/

section
variable {L : List BoardLine} {x : BoardLine} {id user message : CStr}

theorem BoardLine.text_lt (x : BoardLine) : x.text.length < MAX_LEN := by
  cases x with
  | deleted n pos lt => simpa [BoardLine.text, deletedLine] using lt
  | live l => exact l.text_lt

theorem BoardLine.text_ne_nil (x : BoardLine) : x.text ≠ [] := by
  apply List.ne_nil_of_length_pos
  cases x with
  | deleted n pos lt => simpa [BoardLine.text, deletedLine] using pos
  | live l => exact l.text_pos

theorem texts_clean (L : List BoardLine) : ∀ l ∈ L.map BoardLine.text, Clean l := by
  intro l hl
  obtain ⟨x, -, rfl⟩ := List.mem_map.1 hl
  exact x.clean

/-- Two short lines that have become one are still read at once. -/
theorem clean_append {a b : CStr} (ha : Clean a) (hb : Clean b) (hla : a.length < MAX_LEN) (hlb : b.length < MAX_LEN) :
    Clean (a ++ b) where
  no_newline := fun h => (List.mem_append.1 h).elim ha.no_newline hb.no_newline
  no_nul := fun h => (List.mem_append.1 h).elim ha.no_nul hb.no_nul
  length_lt := by
    unfold MAX_LEN at hla hlb
    unfold BBLINE_LEN
    rw [List.length_append]
    omega

theorem LiveLine.text_append (l : LiveLine) (r : CStr) : l.text ++ r = mkLine l.id l.user (l.message ++ r) := by
  simp [LiveLine.text, mkLine]

theorem LiveLine.firstField_append (l : LiveLine) (r : CStr) : BulletinBoard.firstField (l.text ++ r) = l.id := by
  rw [l.text_append, firstField_mkLine (isNumeral_no_slash l.ok.id_numeral)]

/-- What is appended to a last line is not found by its number. -/
theorem firstField_merged (hid : IsNumeral id) (h : id ∉ liveIds [x]) (r : CStr) : firstField (x.text ++ r) ≠ id := by
  cases x with
  | live l =>
    rw [BoardLine.text, l.firstField_append]
    intro he
    exact h (by simp [liveIds_live, he])
  | deleted n pos lt =>
    obtain ⟨n, rfl⟩ := Nat.exists_eq_succ_of_ne_zero (Nat.ne_of_gt pos)
    intro he
    have hmem : BACKSPACE ∈ id := by
      rw [← he, BoardLine.text, deletedLine, List.replicate_succ, List.cons_append, firstField,
        List.takeWhile_cons_of_pos (by decide)]
      exact List.mem_cons_self
    exact absurd (hid.2 BACKSPACE hmem) (by decide)

/-- Backspaces behind a live line are part of its message. -/
theorem LiveLine.lineText_backspaces (l : LiveLine) {n : Nat} (hn : 1 < n) :
    BulletinBoard.lineText (l.text ++ deletedLine n) ≠ BulletinBoard.lineText l.text := by
  have hsolid : solid (l.message ++ deletedLine n) = solid l.message + n := by
    have hall : (deletedLine n).filter (fun c => !isBlank c) = deletedLine n := by
      rw [List.filter_eq_self]
      intro c hc
      obtain rfl := List.eq_of_mem_replicate hc
      decide
    rw [solid_append, solid, solid, hall, deletedLine, List.length_replicate]
  have hne : solid l.message ≠ 0 := by
    intro hzero
    obtain ⟨c, hc, hblank⟩ := l.ok.message_text
    rw [solid_eq_zero.1 hzero c hc] at hblank
    cases hblank
  have hne' : solid (l.message ++ deletedLine n) ≠ 0 := by omega
  have hid := isNumeral_no_slash l.ok.id_numeral
  intro heq
  rw [l.text_append, LiveLine.text, lineText_shown hid _ (shown_ne_nil hne'), lineText_shown hid _ (shown_ne_nil hne)]
    at heq
  have hmessage : messageText (l.message ++ deletedLine n) = messageText l.message :=
    (List.cons.inj (List.append_cancel_left heq)).2
  have h := solid_messageText (shown_ne_nil hne)
  have h' := solid_messageText (shown_ne_nil hne')
  rw [hmessage, hsolid] at h'
  split at h' <;> omega

/-- The lines that a delete of the last one leaves. -/
def behind (n : Nat) (L : List BoardLine) : List CStr :=
  match L.getLast? with
  | none => [deletedLine n]
  | some y => L.dropLast.map BoardLine.text ++ [y.text ++ deletedLine n]

theorem behind_snoc (n : Nat) (L : List BoardLine) (y : BoardLine) :
    behind n (L ++ [y]) = L.map BoardLine.text ++ [y.text ++ deletedLine n] := by
  rw [behind, List.getLast?_concat, List.dropLast_concat]

theorem behind_clean {n : Nat} (hn : n < MAX_LEN) (L : List BoardLine) : ∀ l ∈ behind n L, Clean l := by
  have hdel : Clean (deletedLine n) := clean_deletedLine (Nat.lt_trans hn (by decide))
  have hlen : (deletedLine n).length < MAX_LEN := by simpa [deletedLine] using hn
  rcases List.eq_nil_or_concat L with rfl | ⟨L, y, rfl⟩
  · intro l hl
    obtain rfl := List.mem_singleton.1 hl
    exact hdel
  · rw [List.concat_eq_append, behind_snoc]
    exact clean_snoc (texts_clean L) (clean_append y.clean hdel y.text_lt hlen)

/-- The reads of the other numbers are those of before exactly when no live line is made longer. -/
theorem sameOthers_behind {l : LiveLine} (hd : (liveIds (L ++ [BoardLine.live l])).Nodup) :
    SameOthers l.id (L.map BoardLine.text ++ [l.text]) (behind l.text.length L) ↔
      NoneBeforeLast (L ++ [BoardLine.live l]) := by
  have hbefore : ∀ ls, SameOthers l.id (ls ++ [l.text]) (behind l.text.length L) ↔
      SameOthers l.id ls (behind l.text.length L) := by
    intro ls
    constructor
    · intro h k hk hne
      rw [h k hk hne, lineOf_snoc_ne l.firstField hne]
    · intro h k hk hne
      rw [h k hk hne, lineOf_snoc_ne l.firstField hne]
  rw [hbefore]
  rcases List.eq_nil_or_concat L with rfl | ⟨L, y, rfl⟩
  · refine iff_of_true ?_ ?_
    · refine .of_lineOf fun k hk _ => ?_
      rw [lineOf_eq_none.2, List.map_nil]
      · rfl
      · intro x hx
        obtain rfl := List.mem_singleton.1 hx
        exact firstField_deleted_ne hk _
    · intro a l' x h
      have hlen := congrArg List.length h
      simp at hlen
  · rw [List.concat_eq_append] at hd ⊢
    rw [behind_snoc, List.map_append, List.map_singleton]
    cases y with
    | deleted n pos lt =>
      refine iff_of_true ?_ ?_
      · have hmerged : (BoardLine.deleted n pos lt).text ++ deletedLine l.text.length =
            deletedLine (n + l.text.length) := List.replicate_append_replicate
        have hnone : ∀ (k : CStr) (m : Nat), IsNumeral k → lineOf k [deletedLine m] = none := by
          intro k m hk
          rw [lineOf_eq_none]
          intro x hx
          obtain rfl := List.mem_singleton.1 hx
          exact firstField_deleted_ne hk m
        refine .of_lineOf fun k hk _ => ?_
        rw [hmerged, lineOf_append, lineOf_append, hnone k _ hk, BoardLine.text, hnone k _ hk]
      · intro a l' x h
        rw [List.append_assoc] at h
        have hy := (List.append_inj' h rfl).2
        cases hy
    | live y =>
      have hnot : ¬ NoneBeforeLast (L ++ [BoardLine.live y] ++ [BoardLine.live l]) := fun h => h L y (.live l) (by simp)
      refine iff_of_false ?_ hnot
      intro h
      have hids : liveIds (L ++ [BoardLine.live y] ++ [BoardLine.live l]) = liveIds L ++ [y.id, l.id] := by simp
      rw [hids] at hd
      have hyl : y.id ≠ l.id := by
        have := (List.nodup_append.1 hd).2.1
        simpa using this
      have hyL : y.id ∉ liveIds L := fun hm => (List.nodup_append.1 hd).2.2 _ hm _ (by simp) rfl
      have hnone : lineOf y.id (L.map BoardLine.text) = none := lineOf_texts_none y.ok.id_numeral hyL
      have hone : ∀ t : CStr, firstField t = y.id → lineOf y.id (L.map BoardLine.text ++ [t]) = some t := by
        intro t ht
        rw [lineOf_append, hnone, Option.none_or, lineOf, List.find?_singleton, decide_eq_true ht]
        rfl
      have hread := h y.id y.ok.id_numeral hyl
      rw [BoardLine.text, hone _ (y.firstField_append _), hone _ y.firstField] at hread
      have hpos : 1 < l.text.length := by
        have hne := List.length_pos_of_ne_nil l.ok.id_numeral.1
        simp only [LiveLine.text, mkLine, List.length_append, List.length_cons]
        omega
      exact y.lineText_backspaces hpos (Option.some.inj (Prod.mk.inj hread).2)

theorem existing_open_bytes {e : Existing} (ht : e.terminated = false) (hb : e.board.lines = L ++ [x]) :
    e.bytes = fileOf (L.map BoardLine.text) ++ x.text := by
  have hbytes : e.board.bytes = fileOf (L.map BoardLine.text) ++ x.text ++ ['\n'] := by
    simp [Board.bytes, Board.texts, hb]
  rw [Existing.bytes, ht, if_neg (by decide), hbytes, List.dropLast_concat]

/-- The file as long as its last line is the same. -/
theorem shows_last : Shows (fileOf (L.map BoardLine.text) ++ x.text) (L.map BoardLine.text ++ [x.text]) :=
  shows_open (texts_clean L) x.clean x.text_ne_nil

theorem shows_last_live {l : LiveLine} :
    Shows (fileOf (L.map BoardLine.text) ++ l.text) (L.map BoardLine.text ++ [l.text]) :=
  @shows_last L (.live l)

/-- An append to a last line without its newline. -/
theorem shows_merged {ls : List CStr} (hc : ∀ l ∈ ls, Clean l) (hm : MakesLine id user message) :
    Shows (fileOf ls ++ x.text ++ fileOf [mkLine id user message]) (ls ++ [x.text ++ mkLine id user message]) := by
  have hfile : fileOf ls ++ x.text ++ fileOf [mkLine id user message] =
      fileOf (ls ++ [x.text ++ mkLine id user message]) := by simp
  rw [hfile]
  exact shows_lines (clean_snoc hc (clean_append x.clean hm.clean x.text_lt hm.length_lt))

/-- The number that was appended to it is not found. -/
theorem lineOf_merged (hid : IsNumeral id) (hx : id ∉ liveIds [x]) {ls : List CStr} (hls : lineOf id ls = none)
    (r : CStr) : lineOf id (ls ++ [x.text ++ r]) = none := by
  rw [lineOf_append, hls, Option.none_or, lineOf_eq_none]
  intro t ht
  obtain rfl := List.mem_singleton.1 ht
  exact firstField_merged hid hx r

/-- A delete of a line that is not the last one. -/
theorem delete_before (hid : IsNumeral id) (hlive : id ∈ liveIds L) (hd : (liveIds L).Nodup)
    (hstart : ((fileOf ((L.map BoardLine.text).takeWhile fun l => firstField l != id)).length : Int) ≤ INT_MAX) :
    ∃ n : Nat, ∀ junk, deleteDescriptor junk id (diskOf (fileOf (L.map BoardLine.text) ++ x.text)) =
      some ((n : Int) + 1, diskOf (fileOf (deleteIn id (L.map BoardLine.text)) ++ x.text)) := by
  obtain ⟨a, l, c, rfl, rfl, ha, -⟩ := split_of_mem hd hlive
  have hwithout := without_of_not_mem hid ha
  have hmap : (a ++ .live l :: c).map BoardLine.text = a.map BoardLine.text ++ l.text :: c.map BoardLine.text := by
    simp [BoardLine.text]
  have htake : (a.map BoardLine.text ++ l.text :: c.map BoardLine.text).takeWhile (fun t => firstField t != l.id) =
      a.map BoardLine.text := by
    rw [List.takeWhile_append_of_pos]
    · simp [l.firstField]
    · intro t ht
      simpa using hwithout.other t ht
  rw [hmap, htake] at hstart
  refine ⟨l.text.length, fun junk => ?_⟩
  have hdelete := deleteDescriptor_line junk (fileOf (c.map BoardLine.text) ++ x.text) hwithout l.clean l.firstField hstart
  rw [hmap, deleteIn_append hwithout l.firstField]
  simpa using hdelete

/-- A delete of the last line. -/
theorem delete_last {l : LiveLine} (ha : l.id ∉ liveIds L)
    (hstart : ((fileOf (L.map BoardLine.text)).length : Int) ≤ INT_MAX) (junk : Junk) :
    deleteDescriptor junk l.id (diskOf (fileOf (L.map BoardLine.text) ++ l.text)) =
      some ((l.text.length : Int) + 1, diskOf (fileOf (behind l.text.length L))) := by
  have hwithout := without_of_not_mem l.ok.id_numeral ha
  have hne : l.text ≠ [] := List.ne_nil_of_length_pos l.text_pos
  rcases List.eq_nil_or_concat L with rfl | ⟨L, y, rfl⟩
  · exact deleteDescriptor_only junk l.clean hne l.firstField
  · rw [List.concat_eq_append, List.map_append, List.map_singleton] at hwithout hstart ⊢
    rw [behind_snoc]
    exact deleteDescriptor_behind junk hwithout l.clean hne l.firstField hstart

theorem lastIs_snoc : LastIs id (L ++ [x]) ↔ id ∈ liveIds [x] := by
  constructor
  · rintro ⟨a, l, h, rfl⟩
    obtain rfl := List.head_eq_of_cons_eq (List.append_inj' h rfl).2
    simp
  · intro h
    cases x with
    | deleted n pos lt => cases h
    | live l => exact ⟨L, l, rfl, (List.mem_singleton.1 h).symm⟩

/-- The last line has no number of a line before it. -/
theorem not_mem_last (hd : (liveIds (L ++ [x])).Nodup) (h : id ∈ liveIds L) : id ∉ liveIds [x] := by
  rw [liveIds_append, List.nodup_append] at hd
  exact fun hx => hd.2.2 id h id hx rfl

theorem not_mem_before (hd : (liveIds (L ++ [x])).Nodup) (h : id ∈ liveIds [x]) : id ∉ liveIds L :=
  fun hL => not_mem_last hd hL h

theorem start_before {b : Board} (hb : b.lines = L ++ [x]) (hx : id ∉ liveIds [x]) (hid : IsNumeral id)
    (hstart : (lineStart id b.bytes : Int) ≤ INT_MAX) :
    ((fileOf ((L.map BoardLine.text).takeWhile fun l => firstField l != id)).length : Int) ≤ INT_MAX := by
  have hfield : firstField x.text ≠ id := (without_of_not_mem hid hx).other x.text (by simp)
  have hle := start_insert_le (L.map BoardLine.text) [] hfield
  rw [lineStart_texts, Board.texts, hb, List.map_append, List.map_singleton] at hstart
  rw [List.append_nil] at hle
  exact le_trans (Int.ofNat_le.2 hle) hstart

theorem start_last {b : Board} {l : LiveLine} (hb : b.lines = L ++ [.live l]) (hL : l.id ∉ liveIds L)
    (hstart : (lineStart l.id b.bytes : Int) ≤ INT_MAX) : ((fileOf (L.map BoardLine.text)).length : Int) ≤ INT_MAX := by
  have hfile : b.bytes = fileOf (L.map BoardLine.text ++ [l.text]) := by
    rw [Board.bytes, Board.texts, hb, List.map_append]
    rfl
  rw [hfile, lineStart_append (without_of_not_mem l.ok.id_numeral hL) l.clean (by simp) l.firstField] at hstart
  exact hstart

/-- A delete of a line before the last one is seen by no other number. -/
theorem sameOthers_deleteIn_last (id : CStr) (t : CStr) :
    SameOthers id (L.map BoardLine.text ++ [t]) (deleteIn id (L.map BoardLine.text) ++ [t]) :=
  .of_lineOf fun k hk hne => by
    rw [lineOf_append, lineOf_append, lineOf_deleteIn_of_ne (firstField_deleted_ne hk) hne]

theorem lineOf_deleteIn_map (hid : IsNumeral id) (hd : (liveIds L).Nodup) :
    lineOf id (deleteIn id (L.map BoardLine.text)) = none := by
  have hle : copies id (L.map BoardLine.text) ≤ 1 := Board.texts_distinct ⟨L, hd⟩ id hid
  rw [← copies_eq_zero, copies_deleteIn hid]
  omega

/-! What each change comes to on such a file. -/

theorem write_open_not_safe {b : Board} (hb : b.lines = L ++ [x]) (hnone : b.toMap id = none) (hm : MakesLine id user message) :
    ¬ (StoreOp.write id user message).Safe (fileOf (L.map BoardLine.text) ++ x.text) := by
  have hfree : id ∉ liveIds b.lines := Board.toMap_eq_none.1 hnone
  rw [hb, liveIds_append, List.mem_append, not_or] at hfree
  have hmerged := lineOf_merged hm.id_numeral hfree.2 (lineOf_texts_none hm.id_numeral hfree.1) (mkLine id user message)
  rw [(becomes_write (shows_merged (texts_clean L) hm)).safe_iff shows_last]
  exact fun h => h.2 trivial hmerged

theorem delete_open_iff {b : Board} (hb : b.lines = L ++ [x]) (hlive : b.toMap id ≠ none)
    (hstart : (lineStart id b.bytes : Int) ≤ INT_MAX) :
    (StoreOp.delete id).Safe (fileOf (L.map BoardLine.text) ++ x.text) ↔ (LastIs id b.lines → NoneBeforeLast b.lines) := by
  have hd := b.distinct
  have hmem : id ∈ liveIds b.lines := not_not.1 (mt Board.toMap_eq_none.2 hlive)
  have hid : IsNumeral id := Board.isNumeral_of_mem hmem
  rw [hb] at hd hmem ⊢
  rw [lastIs_snoc]
  by_cases hx : id ∈ liveIds [x]
  · have hL := not_mem_before hd hx
    cases x with
    | deleted n pos lt => cases hx
    | live l =>
      obtain rfl := List.mem_singleton.1 hx
      have hbecomes := becomes_delete (delete_last hL (start_last hb hL hstart)) (shows_lines (behind_clean l.text_lt L))
      rw [BoardLine.text, hbecomes.safe_iff shows_last_live]
      constructor
      · exact fun h _ => (sameOthers_behind hd).1 h.1
      · exact fun h => ⟨(sameOthers_behind hd).2 (h hx), fun hw => hw.elim⟩
  · have hdL := (List.nodup_append.1 (liveIds_append L [x] ▸ hd)).1
    have hL : id ∈ liveIds L := (List.mem_append.1 (liveIds_append L [x] ▸ hmem)).resolve_right hx
    obtain ⟨n, hdelete⟩ := @delete_before L x id hid hL hdL (start_before hb hx hid hstart)
    have hbecomes := becomes_delete hdelete
      (shows_open (deleteIn_clean (texts_clean L)) x.clean x.text_ne_nil)
    rw [hbecomes.safe_iff shows_last]
    exact iff_of_true ⟨sameOthers_deleteIn_last id x.text, fun hw => hw.elim⟩ fun h => absurd h hx

theorem replace_open_iff {b : Board} (hb : b.lines = L ++ [x]) (hlive : b.toMap id ≠ none)
    (hm : MakesLine id user message) (hstart : (lineStart id b.bytes : Int) ≤ INT_MAX) :
    (StoreOp.replace id user message).Safe (fileOf (L.map BoardLine.text) ++ x.text) ↔
      LastIs id b.lines ∧ NoneBeforeLast b.lines := by
  have hd := b.distinct
  have hmem : id ∈ liveIds b.lines := not_not.1 (mt Board.toMap_eq_none.2 hlive)
  rw [hb] at hd hmem ⊢
  rw [lastIs_snoc]
  by_cases hx : id ∈ liveIds [x]
  · have hL := not_mem_before hd hx
    cases x with
    | deleted n pos lt => cases hx
    | live l =>
      obtain rfl := List.mem_singleton.1 hx
      have hshows : Shows (fileOf (behind l.text.length L) ++ fileOf [mkLine l.id user message])
          (behind l.text.length L ++ [mkLine l.id user message]) := by
        rw [← fileOf_append]
        exact shows_lines (clean_snoc (behind_clean l.text_lt L) hm.clean)
      have hbecomes := becomes_replace (delete_last hL (start_last hb hL hstart)) hshows
      rw [BoardLine.text, hbecomes.safe_iff shows_last_live]
      have hothers := (@sameOthers_snoc _ _ (L.map BoardLine.text ++ [l.text]) (behind l.text.length L) hm.firstField).trans
        (sameOthers_behind hd)
      constructor
      · exact fun h => ⟨hx, hothers.1 h.1⟩
      · exact fun h => ⟨hothers.2 h.2, fun _ => lineOf_snoc_self hm.firstField _⟩
  · have hdL := (List.nodup_append.1 (liveIds_append L [x] ▸ hd)).1
    have hL : id ∈ liveIds L := (List.mem_append.1 (liveIds_append L [x] ▸ hmem)).resolve_right hx
    obtain ⟨n, hdelete⟩ := @delete_before L x id hm.id_numeral hL hdL (start_before hb hx hm.id_numeral hstart)
    -- the new line goes on in the last one, whose number is another
    have hmerged := lineOf_merged hm.id_numeral hx (lineOf_deleteIn_map hm.id_numeral hdL) (mkLine id user message)
    have hbecomes := becomes_replace hdelete (shows_merged (deleteIn_clean (texts_clean L)) hm)
    rw [hbecomes.safe_iff shows_last]
    exact iff_of_false (fun h => h.2 trivial hmerged) fun h => hx h.1

theorem safe_open_iff {op : StoreOp} {b : Board} (hb : b.lines = L ++ [x]) (hl : op.Legal b.toMap)
    (hin : op.InInt b.bytes) : op.Safe (fileOf (L.map BoardLine.text) ++ x.text) ↔ op.SafeOpen b.lines := by
  cases op with
  | write id user message =>
    have hne : b.lines ≠ [] := by simp [hb]
    exact iff_of_false (write_open_not_safe hb hl.1 hl.2) hne
  | replace id user message => exact replace_open_iff hb hl.1 hl.2 hin
  | delete id => exact delete_open_iff hb hl hin
  | read id =>
    have hread : (StoreOp.read id).Becomes (fileOf (L.map BoardLine.text) ++ x.text) (L.map BoardLine.text ++ [x.text]) := by
      refine ⟨_, fun junk => ?_, shows_last⟩
      rw [StoreOp.run, shows_last]
      exact ⟨_, rfl⟩
    rw [hread.safe_iff shows_last]
    exact iff_of_true ⟨fun _ _ _ => rfl, fun h => h.elim⟩ trivial

end

/-- **A change to an existing board** is safe exactly when the file ends with a newline or has no line,
    or the change meets the last line only, with no live line before it. -/
theorem existing_safe_iff {op : StoreOp} {e : Existing} (hl : op.Legal e.board.toMap) (hin : op.InInt e.board.bytes) :
    op.Safe e.bytes ↔ e.terminated = true ∨ op.SafeOpen e.board.lines := by
  cases ht : e.terminated with
  | true =>
    rw [Existing.bytes, ht, if_pos rfl]
    exact iff_of_true (safe_terminated hl hin) (.inl rfl)
  | false =>
    rcases List.eq_nil_or_concat e.board.lines with hnil | ⟨L, x, hlines⟩
    · have hbytes : e.bytes = e.board.bytes := by simp [Existing.bytes, Board.bytes, Board.texts, hnil]
      rw [hbytes]
      refine iff_of_true (safe_terminated hl hin) (.inr ?_)
      have hempty : ∀ id, e.board.toMap id = none := by
        intro id
        rw [Board.toMap_eq_none, hnil]
        exact List.not_mem_nil
      cases op with
      | write id user message => exact hnil
      | replace id user message => exact absurd (hempty id) hl.1
      | delete id => exact absurd (hempty id) hl
      | read id => trivial
    · rw [List.concat_eq_append] at hlines
      rw [existing_open_bytes ht hlines, safe_open_iff hlines hl hin]
      simp

/-- `1/u/m` and a last line `2/u/m`, without its newline. -/
def openBoard : Existing where
  board := oneLine.append
    ⟨['2'], ['u'], ['m'], ⟨by decide, by decide, ⟨'m', by simp, rfl⟩, by decide, by decide, by decide⟩⟩ (by decide)
  terminated := false

/-- A delete of 2 makes the message of 1 longer. -/
theorem existing_safe_delete_last : openBoard.bytes = "1/u/m\n2/u/m".toList ∧
    ¬ (StoreOp.delete ['2']).Safe openBoard.bytes := by
  refine ⟨rfl, fun h => ?_⟩
  have hlive : openBoard.board.toMap ['2'] ≠ none := by decide
  have hin : (lineStart ['2'] openBoard.board.bytes : Int) ≤ INT_MAX := by decide
  obtain h | h := (@existing_safe_iff (.delete ['2']) openBoard hlive hin).1 h
  · cases h
  · exact h ⟨[.live lastLine], _, rfl, rfl⟩ [] lastLine _ rfl

/-- After a write of 2 to a last line `1/u/m` without its newline, 2 is not found. -/
theorem write_last_lost : (⟨oneLine, false⟩ : Existing).bytes = "1/u/m".toList ∧
    (StoreOp.write ['2'] ['u'] ['x']).Legal oneLine.toMap ∧
    ¬ (StoreOp.write ['2'] ['u'] ['x']).Safe (⟨oneLine, false⟩ : Existing).bytes := by
  have hfree : oneLine.toMap ['2'] = none := by decide
  have hmakes : MakesLine ['2'] ['u'] ['x'] :=
    ⟨by decide, by decide, ⟨'x', by simp, rfl⟩, by decide, by decide, by decide⟩
  exact ⟨rfl, ⟨hfree, hmakes⟩, @write_open_not_safe [] (.live lastLine) ['2'] ['u'] ['x'] oneLine rfl hfree hmakes⟩

end BulletinBoard
