import BulletinBoard.Board

/- The store refines a finite map. The abstract store is a map from ids to users and
   messages; the operations of descriptor.cc on a well-formed bbfile do what the map
   does, for every finite sequence of calls. `seek_msg_descriptor` keeps the offset of a
   line in an `int`: the refinement holds as long as the lines that are deleted or
   replaced start below 2^31, and fails on a larger file. -/
namespace BulletinBoard

/-- The message as it is read back: cut at the slashes, without the leading blanks of
    each piece, and without an empty last piece. -/
def readMessage (message : CStr) : CStr :=
  ['/'].intercalate (Cut.dropLastNil ((message.splitOnP isSlash).map (List.dropWhile isBlank)))

/-- What a read of a live line gives. -/
def readText (user message : CStr) : CStr :=
  user.dropWhile isBlank ++ '/' :: readMessage message

/-- A finite map from ids to users and messages. -/
abbrev StoreMap := CStr → Option (CStr × CStr)

/-- What `read_descriptor` gives for an entry of the map: -1, or the text and its length. -/
def mapAnswer : Option (CStr × CStr) → Int × Option CStr
  | none => (-1, none)
  | some (user, message) => ((readText user message).length, some (readText user message))

inductive StoreOp where
  | write (id user message : CStr)
  | replace (id user message : CStr)
  | delete (id : CStr)
  | read (id : CStr)

namespace StoreOp

/-- The map after the operation. -/
def onMap : StoreOp → StoreMap → StoreMap
  | write id user message, m => Function.update m id (some (user, message))
  | replace id user message, m => Function.update m id (some (user, message))
  | delete id, m => Function.update m id none
  | read _, m => m

/-- The answer of a read. -/
def answer : StoreOp → StoreMap → List (Int × Option CStr)
  | read id, m => [mapAnswer (m id)]
  | _, _ => []

/-- What the callers see to: a write has an id that is not live, a replace and a delete have one
    that is, and the arguments make a line. -/
def Legal : StoreOp → StoreMap → Prop
  | write id user message, m => m id = none ∧ MakesLine id user message
  | replace id user message, m => m id ≠ none ∧ MakesLine id user message
  | delete id, m => m id ≠ none
  | read id, _ => IsNumeral id

/-- The call, on a disk where every open succeeds. -/
def run (junk : Junk) : StoreOp → List Char → Option (List (Int × Option CStr) × List Char)
  | write id user message, file => some ([], (writeDescriptor id user message (diskOf file)).2.bbfile)
  | replace id user message, file =>
    (replaceDescriptor junk id user message (diskOf file)).map fun r => ([], r.2.bbfile)
  | delete id, file => (deleteDescriptor junk id (diskOf file)).map fun r => ([], r.2.bbfile)
  | read id, file => (readDescriptor junk.line id (diskOf file)).map fun r => ([r.1], r.2.bbfile)

end StoreOp

/-- The line that the operation overwrites starts where an `int` reaches. -/
def StoreOp.InInt : StoreOp → List Char → Prop
  | .replace id _ _, file => (lineStart id file : Int) ≤ INT_MAX
  | .delete id, file => (lineStart id file : Int) ≤ INT_MAX
  | _, _ => True

/-- Calls one after another: the answers of the reads, and the file. Each call has its
    own uninitialised buffers. -/
def runOps : List (Junk × StoreOp) → List Char → Option (List (Int × Option CStr) × List Char)
  | [], file => some ([], file)
  | (junk, op) :: ops, file =>
    match op.run junk file with
    | none => none
    | some (out, file) => (runOps ops file).map fun r => (out ++ r.1, r.2)

def mapOps : List (Junk × StoreOp) → StoreMap → List (Int × Option CStr) × StoreMap
  | [], m => ([], m)
  | (_, op) :: ops, m =>
    let r := mapOps ops (op.onMap m)
    (op.answer m ++ r.1, r.2)

def LegalOps : List (Junk × StoreOp) → StoreMap → Prop
  | [], _ => True
  | (_, op) :: ops, m => op.Legal m ∧ LegalOps ops (op.onMap m)

/-- Every line that the calls overwrite starts where an `int` reaches. -/
def InIntOps : List (Junk × StoreOp) → List Char → Prop
  | [], _ => True
  | (junk, op) :: ops, file =>
    op.InInt file ∧ ∀ out file', op.run junk file = some (out, file') → InIntOps ops file'

/-! Reading a line back. -/

/-- The tokens of a live line. -/
theorem tokensOf_mkLine {id user message : CStr} (hid : ∀ c ∈ id, isSlash c = false)
    (huser : '/' ∉ user) : tokensOf (mkLine id user message) =
      id :: user.dropWhile isBlank :: Cut.cut isSlash isBlank true message := by
  rw [tokensOf, mkLine, List.append_assoc, List.cons_append, Cut.cut_false_append hid (by decide),
    Cut.cut_true_append isSlash_not_blank (no_slash huser) (by decide)]

theorem lineText_mkLine {id user message : CStr} (h : MakesLine id user message) :
    lineText (mkLine id user message) = readText user message := by
  rw [lineText, tokensOf_mkLine (isNumeral_no_slash h.id_numeral) h.user_no_slash,
    assembleLine_eq _ _ (Cut.cut_true_ne_nil h.message_text), Cut.cut_true_eq_split isSlash_not_blank]
  rfl

theorem LiveLine.clean (l : LiveLine) : Clean l.text := l.ok.clean

theorem LiveLine.firstField (l : LiveLine) : BulletinBoard.firstField l.text = l.id :=
  l.ok.firstField

theorem LiveLine.lineText (l : LiveLine) : BulletinBoard.lineText l.text = readText l.user l.message :=
  lineText_mkLine l.ok

/-! The operations on a board. -/

theorem lineStart_texts (b : Board) (id : CStr) :
    lineStart id b.bytes = (fileOf (b.texts.takeWhile (fun l => firstField l != id))).length := by
  rw [lineStart, Board.bytes, linesOf_fileOf b.texts_clean]

theorem lineStart_le (id : CStr) (b : Board) : lineStart id b.bytes ≤ b.bytes.length := by
  rw [lineStart_texts, Board.bytes]
  conv_rhs => rw [← List.takeWhile_append_dropWhile (p := fun l => firstField l != id) (l := b.texts)]
  rw [fileOf_append, List.length_append]
  exact Nat.le_add_right _ _

namespace Board

/-- A live line of the board and its place in the file. -/
theorem split_bytes {b : Board} {id : CStr} (h : b.toMap id ≠ none) :
    ∃ (a : List CStr) (l : LiveLine) (c : List CStr), b.bytes = fileOf (a ++ l.text :: c) ∧
      Without l.id a ∧ (∀ x ∈ c, Clean x) ∧ l.id = id ∧
      (liveLines b.lines).find? (·.id = id) = some l ∧
      (b.erase id).bytes = fileOf (a ++ deletedLine l.text.length :: c) := by
  have hmem : id ∈ liveIds b.lines := by
    by_contra hc
    exact h (toMap_eq_none.2 hc)
  obtain ⟨a, l, c, hls, rfl, ha, hc⟩ := split_of_mem b.distinct hmem
  refine ⟨a.map BoardLine.text, l, c.map BoardLine.text, ?_, ?_, ?_, rfl, find_of_split hls ha, ?_⟩
  · simp [bytes, texts, hls, BoardLine.text]
  · exact without_of_not_mem l.ok.id_numeral ha
  · intro x hx
    obtain ⟨y, -, rfl⟩ := List.mem_map.1 hx
    exact y.clean
  · rw [bytes, texts_erase hls ha hc]

theorem read (b : Board) {id : CStr} (hid : IsNumeral id) (junk : List Char) :
    readDescriptor junk id (diskOf b.bytes) = some (mapAnswer (b.toMap id), diskOf b.bytes) := by
  by_cases h : b.toMap id = none
  · rw [h]
    have hb : (diskOf b.bytes).bbfile = fileOf b.texts := rfl
    exact readDescriptor_absent hb rfl (without_of_not_mem hid (toMap_eq_none.1 h))
  · obtain ⟨a, l, c, hb, ha, -, rfl, hl, -⟩ := split_bytes h
    have hm : b.toMap l.id = some (l.user, l.message) := congrArg (Option.map _) hl
    rw [hm, readDescriptor_found hb rfl ha l.clean l.firstField, l.lineText]
    rfl

theorem delete (b : Board) {id : CStr} (h : b.toMap id ≠ none)
    (hin : (lineStart id b.bytes : Int) ≤ INT_MAX) (junk : Junk) :
    ∃ l, (liveLines b.lines).find? (·.id = id) = some l ∧ deleteDescriptor junk id (diskOf b.bytes) =
      some ((l.text.length : Int) + 1, diskOf (b.erase id).bytes) := by
  obtain ⟨a, l, c, hb, ha, hc, rfl, hl, he⟩ := split_bytes h
  rw [hb, lineStart_append ha l.clean hc l.firstField] at hin
  refine ⟨l, hl, ?_⟩
  rw [deleteDescriptor_found hb rfl rfl ha l.clean l.firstField hin, he]
  rfl

theorem write (b : Board) (l : LiveLine) (h : l.id ∉ liveIds b.lines) :
    writeDescriptor l.id l.user l.message (diskOf b.bytes) = (0, diskOf (b.append l h).bytes) := by
  have happ : (b.append l h).bytes = fileOf (b.texts ++ [mkLine l.id l.user l.message]) :=
    congrArg fileOf (texts_append b l h)
  rw [writeDescriptor_lines (rfl : b.bytes = fileOf b.texts), happ]

end Board

/-! The calls with everything they return. What a call returns is a function of the live
    lines; what it makes of the board is an erase, an append or both. -/

/-- The call with its return value and the text it returns. -/
def StoreOp.call (junk : Junk) : StoreOp → List Char → Option ((Int × Option CStr) × List Char)
  | .write id user message, file =>
    let r := writeDescriptor id user message (diskOf file)
    some ((r.1, none), r.2.bbfile)
  | .replace id user message, file =>
    (replaceDescriptor junk id user message (diskOf file)).map fun r => ((r.1, none), r.2.bbfile)
  | .delete id, file => (deleteDescriptor junk id (diskOf file)).map fun r => ((r.1, none), r.2.bbfile)
  | .read id, file => (readDescriptor junk.line id (diskOf file)).map fun r => (r.1, r.2.bbfile)

/-- The live line with the id. -/
def liveLine (id : CStr) (ls : List LiveLine) : Option LiveLine := ls.find? (·.id = id)

/-- What a call returns on these live lines. -/
def StoreOp.returned : StoreOp → List LiveLine → Int × Option CStr
  | .write _ _ _, _ => (0, none)
  | .replace _ _ _, _ => (0, none)
  | .delete id, ls => ((liveLine id ls).elim 0 (fun l => (l.text.length : Int)) + 1, none)
  | .read id, ls => mapAnswer ((liveLine id ls).map fun l => (l.user, l.message))

/-- What the calls of a run record: the answers of the reads. -/
def StoreOp.recorded : StoreOp → Int × Option CStr → List (Int × Option CStr)
  | .read _, r => [r]
  | _, _ => []

theorem StoreOp.run_eq_call (junk : Junk) (op : StoreOp) (file : List Char) :
    op.run junk file = (op.call junk file).map fun r => (op.recorded r.1, r.2) := by
  cases op with
  | write id user message => rfl
  | replace id user message => simp [run, call, recorded, Function.comp_def]
  | delete id => simp [run, call, recorded, Function.comp_def]
  | read id => simp [run, call, recorded, Function.comp_def]

/-- The board that a call makes. -/
inductive StoreOp.Makes : StoreOp → Board → Board → Prop where
  | write {b : Board} (l : LiveLine) (h : l.id ∉ liveIds b.lines) :
      Makes (.write l.id l.user l.message) b (b.append l h)
  | replace {b : Board} (l : LiveLine) (h : l.id ∉ liveIds (b.erase l.id).lines) :
      Makes (.replace l.id l.user l.message) b ((b.erase l.id).append l h)
  | delete {b : Board} (id : CStr) : Makes (.delete id) b (b.erase id)
  | read {b : Board} (id : CStr) : Makes (.read id) b b

/-- A replace makes room for its own line. -/
theorem Board.not_mem_erase (b : Board) (id : CStr) : id ∉ liveIds (b.erase id).lines := by
  rw [← Board.toMap_eq_none, Board.toMap_erase, if_pos rfl]

/-- Every legal call has a board to make. -/
theorem StoreOp.makes (op : StoreOp) (b : Board) (h : op.Legal b.toMap) : ∃ b', op.Makes b b' := by
  cases op with
  | write id user message =>
    obtain ⟨hnone, hok⟩ := h
    exact ⟨_, .write ⟨id, user, message, hok⟩ (Board.toMap_eq_none.1 hnone)⟩
  | replace id user message => exact ⟨_, .replace ⟨id, user, message, h.2⟩ (b.not_mem_erase id)⟩
  | delete id => exact ⟨_, .delete id⟩
  | read id => exact ⟨_, .read id⟩

/-- What a legal call returns, and the file it leaves. -/
theorem StoreOp.Makes.call {op : StoreOp} {b b' : Board} (h : op.Makes b b') (junk : Junk)
    (hl : op.Legal b.toMap) (hin : op.InInt b.bytes) :
    op.call junk b.bytes = some (op.returned (liveLines b.lines), b'.bytes) := by
  cases h with
  | write l hid =>
    rw [StoreOp.call, b.write l hid]
    rfl
  | replace l hid =>
    obtain ⟨l', -, hdel⟩ := b.delete hl.1 hin junk
    have hret : ¬ (l'.text.length : Int) + 1 < 0 := by omega
    have hwrite := (b.erase l.id).write l hid
    simp only [StoreOp.call, replaceDescriptor, hdel, hret, if_false, hwrite]
    rfl
  | delete id =>
    obtain ⟨l, hfind, hdel⟩ := b.delete hl hin junk
    have hline : liveLine id (liveLines b.lines) = some l := hfind
    simp only [StoreOp.call, hdel, StoreOp.returned, hline]
    rfl
  | read id =>
    rw [StoreOp.call, b.read hl]
    rfl

/-- The map that the made board stands for. -/
theorem StoreOp.Makes.toMap {op : StoreOp} {b b' : Board} (h : op.Makes b b') :
    b'.toMap = op.onMap b.toMap := by
  funext x
  cases h with
  | write l hid =>
    rw [Board.toMap_append]
    simp [onMap, Function.update_apply]
  | replace l hid =>
    rw [Board.toMap_append, Board.toMap_erase]
    by_cases hx : x = l.id <;> simp [onMap, hx]
  | delete id =>
    rw [Board.toMap_erase]
    simp [onMap, Function.update_apply]
  | read id => rfl

/-! Boards with the same live lines. -/

theorem Board.toMap_congr {b b' : Board} (h : liveLines b'.lines = liveLines b.lines) :
    b'.toMap = b.toMap := by
  funext x
  rw [Board.toMap, h, Board.toMap]

theorem liveIds_congr {ls ls' : List BoardLine} (h : liveLines ls' = liveLines ls) :
    liveIds ls' = liveIds ls :=
  congrArg (List.map LiveLine.id) h

/-! Refinement. -/

theorem StoreOp.Makes.run {op : StoreOp} {b b' : Board} (h : op.Makes b b') (junk : Junk)
    (hl : op.Legal b.toMap) (hin : op.InInt b.bytes) :
    op.run junk b.bytes = some (op.answer b.toMap, b'.bytes) := by
  rw [op.run_eq_call, h.call junk hl hin]
  cases op <;> rfl

/-- One call on a board does what the map does. -/
theorem StoreOp.run_board (op : StoreOp) (junk : Junk) (b : Board) (hl : op.Legal b.toMap)
    (hin : op.InInt b.bytes) :
    ∃ b' : Board, op.run junk b.bytes = some (op.answer b.toMap, b'.bytes) ∧
      b'.toMap = op.onMap b.toMap := by
  obtain ⟨b', hmakes⟩ := op.makes b hl
  exact ⟨b', hmakes.run junk hl hin, hmakes.toMap⟩

/-- **The store refines the map**, while the lines it overwrites start where an `int`
    reaches: every sequence of calls leaves a well-formed file, its reads give what the
    map gives, and the file stands for the map after the calls. -/
theorem store_refines_map (ops : List (Junk × StoreOp)) (b : Board) (hl : LegalOps ops b.toMap)
    (hin : InIntOps ops b.bytes) :
    ∃ b' : Board, runOps ops b.bytes = some ((mapOps ops b.toMap).1, b'.bytes) ∧
      b'.toMap = (mapOps ops b.toMap).2 := by
  induction ops generalizing b with
  | nil => exact ⟨b, rfl, rfl⟩
  | cons p ops ih =>
    obtain ⟨junk, op⟩ := p
    obtain ⟨b₁, hrun, hmap⟩ := op.run_board junk b hl.1 hin.1
    have hl₁ : LegalOps ops b₁.toMap := by rw [hmap]; exact hl.2
    obtain ⟨b₂, hrun₂, hmap₂⟩ := ih b₁ hl₁ (hin.2 _ _ hrun)
    refine ⟨b₂, ?_, ?_⟩
    · simp [runOps, hrun, hrun₂, mapOps, hmap]
    · rw [hmap₂, hmap]; rfl

/-- A replace and a read of a board with one line. -/
theorem store_refines_map_replace :
    (∃ b' : Board,
      runOps [(⟨[], []⟩, .replace ['1'] [' ', 'v'] [' ', 'a', '/', ' ', 'b', '/']), (⟨[], []⟩, .read ['1'])]
          oneLine.bytes = some ([(5, some ['v', '/', 'a', '/', 'b'])], b'.bytes)) := by
  obtain ⟨b', hrun, -⟩ := store_refines_map
    [(⟨[], []⟩, .replace ['1'] [' ', 'v'] [' ', 'a', '/', ' ', 'b', '/']), (⟨[], []⟩, .read ['1'])]
    oneLine ⟨⟨by decide, by decide, by decide, ⟨'a', by simp, rfl⟩, by decide, by decide, by decide⟩,
      by change IsNumeral ['1']; decide, trivial⟩
    ⟨by change (lineStart ['1'] oneLine.bytes : Int) ≤ INT_MAX; decide,
      fun _ _ _ => ⟨trivial, fun _ _ _ => trivial⟩⟩
  exact ⟨b', hrun⟩

/-! A file on which the refinement fails: deleted lines of 1024 bytes each, and a live line
    that starts at byte 2^31. -/

theorem liveLines_replicate (k n : Nat) (pos : 0 < n) (lt : n < MAX_LEN) :
    liveLines (List.replicate k (.deleted n pos lt)) = [] := by
  induction k with
  | zero => rfl
  | succ k ih => simpa [List.replicate_succ] using ih

theorem liveIds_replicate (k n : Nat) (pos : 0 < n) (lt : n < MAX_LEN) :
    liveIds (List.replicate k (.deleted n pos lt)) = [] := by
  rw [liveIds, liveLines_replicate, List.map_nil]

theorem largeLine_pos : 0 < 1023 := by decide

theorem largeLine_lt : 1023 < MAX_LEN := by decide

def largeBoard (k : Nat) : Board where
  lines := List.replicate k (.deleted 1023 largeLine_pos largeLine_lt) ++ [.live lastLine]
  distinct := by
    rw [liveIds_append, liveIds_replicate]
    simp

theorem largeBoard_bytes (k : Nat) : (largeBoard k).bytes =
    fileOf (List.replicate k (deletedLine 1023) ++ [lastLine.text]) := by
  simp [Board.bytes, Board.texts, largeBoard, BoardLine.text]

theorem deletedLines_length (k : Nat) :
    (fileOf (List.replicate k (deletedLine 1023))).length = 1024 * k := by
  induction k with
  | zero => rfl
  | succ k ih =>
    simp only [List.replicate_succ, fileOf_cons, List.length_append, List.length_cons, ih]
    simp only [deletedLine, List.length_replicate]
    omega

theorem without_deletedLines {n : Nat} (hn : n < BBLINE_LEN) (k : Nat) :
    Without ['1'] (List.replicate k (deletedLine n)) := by
  refine ⟨fun l hl => ?_, fun l hl => ?_⟩
  · obtain rfl := List.eq_of_mem_replicate hl
    exact clean_deletedLine hn
  · obtain rfl := List.eq_of_mem_replicate hl
    exact firstField_deleted_ne (by decide) n

theorem Without.append {id : CStr} {a b : List CStr} (ha : Without id a) (hb : Without id b) :
    Without id (a ++ b) := by
  refine ⟨fun l hl => ?_, fun l hl => ?_⟩ <;> rcases List.mem_append.1 hl with hl | hl
  · exact ha.clean l hl
  · exact hb.clean l hl
  · exact ha.other l hl
  · exact hb.other l hl

/-- The offset does not fit an `int`: the delete writes its backspaces over the start of the
    file, and the line is still read after it. -/
theorem largeBoard_delete {k : Nat} (hk : 1024 * (k + 1) = 2 ^ 31) (junk : Junk) :
    ∃ ls : List CStr, Without ['1'] ls ∧
      deleteDescriptor junk ['1'] (diskOf (largeBoard (k + 1)).bytes) =
        some (6, diskOf (fileOf (ls ++ [lastLine.text]))) := by
  have hret : (toInt (fileOf (List.replicate (k + 1) (deletedLine 1023))).length).toNat = 0 := by
    rw [deletedLines_length, hk]; decide
  have hwithout := without_deletedLines (by decide : 1023 < BBLINE_LEN) (k + 1)
  have hlen : lastLine.text.length = 5 := by decide
  have hdrop : (deletedLine 1023).drop ((deletedLine 5).length + 1) = deletedLine 1017 := by
    simp only [deletedLine, List.drop_replicate, List.length_replicate]
  refine ⟨[deletedLine 5] ++ [deletedLine 1017] ++ List.replicate k (deletedLine 1023), ?_, ?_⟩
  · exact ((without_deletedLines (by decide) 1).append (without_deletedLines (by decide) 1)).append
      (without_deletedLines (by decide) k)
  · rw [deleteDescriptor_at (largeBoard_bytes (k + 1)) rfl rfl hwithout lastLine.clean
      lastLine.firstField, hret, hlen, List.replicate_succ, List.cons_append, fileOf,
      Lines.overwrite_first (by simp only [deletedLine, List.length_replicate]; decide), hdrop]
    rfl

theorem largeBoard_toMap (k : Nat) : (largeBoard k).toMap ['1'] = some (['u'], ['m']) := by
  have hid : lastLine.id ∉ liveIds (List.replicate k (.deleted 1023 (by decide) (by decide))) := by
    rw [liveIds_replicate]; simp
  exact Board.toMap_of_split rfl hid

theorem runOps_delete_read {junk : Junk} {id : CStr} {file file' : List Char} {n : Int}
    {r : Int × Option CStr} (hdel : deleteDescriptor junk id (diskOf file) = some (n, diskOf file'))
    (hread : readDescriptor junk.line id (diskOf file') = some (r, diskOf file')) :
    runOps [(junk, .delete id), (junk, .read id)] file = some ([r], file') := by
  simp [runOps, StoreOp.run, hdel, hread]

theorem largeBoard_delete_read {k : Nat} (hk : 1024 * (k + 1) = 2 ^ 31) (junk : Junk) :
    ∃ file, deleteDescriptor junk ['1'] (diskOf (largeBoard (k + 1)).bytes) = some (6, diskOf file) ∧
      readDescriptor junk.line ['1'] (diskOf file) = some ((3, some ['u', '/', 'm']), diskOf file) := by
  obtain ⟨ls, hls, hdel⟩ := largeBoard_delete hk junk
  refine ⟨_, hdel, ?_⟩
  have htext : readText lastLine.user lastLine.message = ['u', '/', 'm'] := by decide
  rw [readDescriptor_found (diskOf_bbfile _) (openFile_diskOf _) hls lastLine.clean
    lastLine.firstField, lastLine.lineText, htext]
  rfl

theorem largeBoard_read {k : Nat} (hk : 1024 * (k + 1) = 2 ^ 31) (junk : Junk) :
    (runOps [(junk, .delete ['1']), (junk, .read ['1'])] (largeBoard (k + 1)).bytes).map Prod.fst =
      some [(3, some ['u', '/', 'm'])] := by
  obtain ⟨file, hdel, hread⟩ := largeBoard_delete_read hk junk
  rw [runOps_delete_read hdel hread]
  rfl

/-- A live line that starts at byte 2^31 is still read after it was deleted. -/
theorem store_keeps_deleted_line : ∃ (b : Board) (junk : Junk),
    LegalOps [(junk, .delete ['1']), (junk, .read ['1'])] b.toMap ∧
      (runOps [(junk, .delete ['1']), (junk, .read ['1'])] b.bytes).map Prod.fst =
        some [(3, some ['u', '/', 'm'])] ∧
      (mapOps [(junk, .delete ['1']), (junk, .read ['1'])] b.toMap).1 = [(-1, none)] := by
  refine ⟨largeBoard (2097151 + 1), ⟨[], []⟩, ⟨?_, ?_, trivial⟩, largeBoard_read (by norm_num) _, ?_⟩
  · rw [StoreOp.Legal, largeBoard_toMap]; simp
  · change IsNumeral ['1']; decide
  · simp only [mapOps, StoreOp.answer, StoreOp.onMap, Function.update_self]; rfl

end BulletinBoard
