import BulletinBoard.Store
import BulletinBoard.PeerOperations
import BulletinBoard.Lib.Calls

/- ABORT after COMMIT WRITE. A peer session writes the line of a number that is not live,
   other sessions go on with other numbers, and the session deletes the line again. At
   any time the file with the line is the file without it but for that one line, which
   never moves; the delete finds it when it was written where an `int` reaches. -/
namespace BulletinBoard

/-! The source. -/

/-- The requests of the session, and the line that they make. -/
structure AbortedWrite where
  precommit : CStr
  commit : CStr
  abort : CStr
  nmbr : CStr
  user : CStr
  message : CStr

namespace AbortedWrite

/-- The written line, without its newline. -/
def text (r : AbortedWrite) : CStr := mkLine r.nmbr r.user r.message

/-- What the requests say: PRECOMMIT has a name, COMMIT WRITE a number and a message, and these
    make a line. -/
structure Formed (r : AbortedWrite) : Prop where
  precommit : tolwr ((commandOf r.precommit).getD 0 []) = "precommit".toList
  named : (commandOf r.precommit).length ≥ 2
  user : textFrom 1 (commandOf r.precommit) = r.user
  commit : tolwr ((commandOf r.commit).getD 0 []) = "commit".toList
  kind : (commandOf r.commit).getD 1 [] = "write".toList
  long : (commandOf r.commit).length - 1 > 2
  nmbr : (commandOf r.commit).getD 2 [] = r.nmbr
  message : textFrom 3 (commandOf r.commit) = r.message
  abort : tolwr ((commandOf r.abort).getD 0 []) = "abort".toList
  makes : MakesLine r.nmbr r.user r.message

/-- The session, with the calls of the others between its COMMIT and its ABORT: its answers and
    the file at the end. -/
def run (r : AbortedWrite) (junk₁ junk₂ junk₃ : Junk) (p : Peer) (ops : List (Junk × StoreOp))
    (file : List Char) : Option (List (Option PeerReply) × List Char) :=
  match p.run junk₁ r.precommit (diskOf file) with
  | none => none
  | some (p, reply₁, d) =>
    match p.run junk₂ r.commit d with
    | none => none
    | some (p, reply₂, d) =>
      match runOps ops d.bbfile with
      | none => none
      | some (_, file) =>
        (p.run junk₃ r.abort (diskOf file)).map fun s => ([reply₁, reply₂, s.2.1], s.2.2.bbfile)

/-- The session was answered `positive` twice, and left what the others alone leave, with one
    deleted line of the length of the written one besides. -/
def Undone (r : AbortedWrite) (junk₁ junk₂ junk₃ : Junk) (p : Peer) (ops : List (Junk × StoreOp))
    (file : List Char) : Prop :=
  ∃ (alone left : Board) (before after : List BoardLine),
    (runOps ops file).map Prod.snd = some alone.bytes ∧
    r.run junk₁ junk₂ junk₃ p ops file = some ([some .positive, some .positive, none], left.bytes) ∧
    liveLines left.lines = liveLines alone.lines ∧ alone.lines = before ++ after ∧
    left.texts = before.map BoardLine.text ++ deletedLine r.text.length :: after.map BoardLine.text

end AbortedWrite

/-- The number that a call is about. -/
def StoreOp.id : StoreOp → CStr
  | .write id _ _ | .replace id _ _ | .delete id | .read id => id

/-! The file with the line and the file without it. -/

/-- The board `w` has the line `l` where `a` has nothing, `start` bytes into the file. -/
structure Holding (l : LiveLine) (start : Nat) (before after : List BoardLine) (w a : Board) : Prop where
  with_line : w.lines = before ++ .live l :: after
  without : a.lines = before ++ after
  start : (fileOf (before.map BoardLine.text)).length = start

theorem eraseLine_text_length (id : CStr) (x : BoardLine) : (eraseLine id x).text.length = x.text.length := by
  cases x with
  | deleted n pos lt => rfl
  | live l =>
    rw [eraseLine]
    split
    · exact List.length_replicate
    · rfl

/-- An erase moves no line. -/
theorem fileOf_erase_length (id : CStr) (ls : List BoardLine) :
    (fileOf ((ls.map (eraseLine id)).map BoardLine.text)).length =
      (fileOf (ls.map BoardLine.text)).length := by
  induction ls with
  | nil => rfl
  | cons x ls ih =>
    simp only [List.map_cons, fileOf_cons, List.length_append, List.length_cons, eraseLine_text_length, ih]

theorem start_insert_le {id : CStr} (x y : List CStr) {l : CStr} (hl : firstField l ≠ id) :
    (fileOf ((x ++ y).takeWhile (fun l => firstField l != id))).length ≤
      (fileOf ((x ++ l :: y).takeWhile (fun l => firstField l != id))).length := by
  induction x with
  | nil =>
    have hne : (firstField l != id) = true := by simpa using hl
    rw [List.nil_append, List.nil_append, List.takeWhile_cons, if_pos hne, fileOf_cons, List.length_append,
      List.length_cons]
    omega
  | cons z x ih =>
    rw [List.cons_append, List.cons_append, List.takeWhile_cons, List.takeWhile_cons]
    split
    · simp only [fileOf_cons, List.length_append, List.length_cons]
      omega
    · exact le_refl _

namespace Holding

variable {l : LiveLine} {start : Nat} {before after : List BoardLine} {w a : Board}

theorem not_mem (h : Holding l start before after w a) :
    l.id ∉ liveIds before ∧ l.id ∉ liveIds after := by
  have hd := w.distinct
  rw [h.with_line, liveIds_append, liveIds_live, List.nodup_append, List.nodup_cons] at hd
  exact ⟨fun hm => hd.2.2 _ hm _ (by simp) rfl, hd.2.1.1⟩

/-- Other numbers stand for the same on both. -/
theorem toMap (h : Holding l start before after w a) {id : CStr} (hid : id ≠ l.id) :
    w.toMap id = a.toMap id := by
  have hne : ¬ l.id = id := Ne.symm hid
  simp [Board.toMap, h.with_line, h.without, List.find?_append, hne]

theorem legal (h : Holding l start before after w a) {op : StoreOp} (hid : op.id ≠ l.id)
    (hl : op.Legal a.toMap) : op.Legal w.toMap := by
  have hm := h.toMap hid
  cases op with
  | write id user message => exact ⟨hm.trans hl.1, hl.2⟩
  | replace id user message => exact ⟨fun hn => hl.1 (hm.symm.trans hn), hl.2⟩
  | delete id => exact fun hn => hl (hm.symm.trans hn)
  | read id => exact hl

/-- The file without the line has the other lines nowhere later. -/
theorem inInt (h : Holding l start before after w a) {op : StoreOp} (hid : op.id ≠ l.id)
    (hin : op.InInt w.bytes) : op.InInt a.bytes := by
  have hle : ∀ id, id ≠ l.id → (lineStart id w.bytes : Int) ≤ INT_MAX →
      (lineStart id a.bytes : Int) ≤ INT_MAX := by
    intro id hne hw
    have hfield : firstField l.text ≠ id := by
      rw [l.firstField]
      exact Ne.symm hne
    have hstart := start_insert_le (before.map BoardLine.text) (after.map BoardLine.text) hfield
    rw [lineStart_texts, Board.texts, h.with_line, List.map_append, List.map_cons] at hw
    rw [lineStart_texts, Board.texts, h.without, List.map_append]
    exact le_trans (Int.ofNat_le.2 hstart) hw
  cases op with
  | write id user message => trivial
  | replace id user message => exact hle id hid hin
  | delete id => exact hle id hid hin
  | read id => trivial

theorem erase (h : Holding l start before after w a) {id : CStr} (hid : id ≠ l.id) :
    Holding l start (before.map (eraseLine id)) (after.map (eraseLine id)) (w.erase id) (a.erase id) where
  with_line := by
    have hne : ¬ l.id = id := Ne.symm hid
    simp [Board.erase, h.with_line, eraseLine, hne]
  without := by simp [Board.erase, h.without]
  start := by rw [fileOf_erase_length, h.start]

theorem append (h : Holding l start before after w a) {l' : LiveLine} (hw : l'.id ∉ liveIds w.lines)
    (ha : l'.id ∉ liveIds a.lines) :
    Holding l start before (after ++ [.live l']) (w.append l' hw) (a.append l' ha) where
  with_line := by simp [Board.append, h.with_line]
  without := by simp [Board.append, h.without]
  start := h.start

theorem not_mem_with (h : Holding l start before after w a) {id : CStr} (hid : id ≠ l.id)
    (ha : id ∉ liveIds a.lines) : id ∉ liveIds w.lines := by
  rw [← Board.toMap_eq_none] at ha ⊢
  exact (h.toMap hid).trans ha

/-- A call on another number keeps the one line between the two. -/
theorem makes (h : Holding l start before after w a) {op : StoreOp} {a' : Board} (hid : op.id ≠ l.id)
    (hm : op.Makes a a') : ∃ before' after' w', op.Makes w w' ∧ Holding l start before' after' w' a' := by
  cases hm with
  | write l' ha =>
    have hw := h.not_mem_with hid ha
    exact ⟨_, _, _, .write l' hw, h.append hw ha⟩
  | replace l' ha =>
    have hw := w.not_mem_erase l'.id
    exact ⟨_, _, _, .replace l' hw, (h.erase hid).append hw ha⟩
  | delete id => exact ⟨_, _, _, .delete id, h.erase hid⟩
  | read id => exact ⟨_, _, _, .read id, h⟩

end Holding

/-! The calls of the others, on both files. -/

theorem runOps_eq_run (ops : List (Junk × StoreOp)) (file : List Char) :
    runOps ops file = Calls.run (fun p file => p.2.run p.1 file) ops file := by
  induction ops generalizing file with
  | nil => rfl
  | cons p ops ih =>
    rw [runOps, Calls.run]
    cases p.2.run p.1 file with
    | none => rfl
    | some r => simp only [ih]

/-- The two files, with the calls that are still to come. -/
def BothFiles (l : LiveLine) (start : Nat) (ops : List (Junk × StoreOp)) (file file' : List Char) : Prop :=
  ∃ before after w a, Holding l start before after w a ∧ file = w.bytes ∧ file' = a.bytes ∧
    LegalOps ops a.toMap ∧ InIntOps ops w.bytes ∧ ∀ p ∈ ops, p.2.id ≠ l.id

theorem BothFiles.call {l : LiveLine} {start : Nat} {p : Junk × StoreOp} {ops : List (Junk × StoreOp)}
    {file file' : List Char} (h : BothFiles l start (p :: ops) file file') :
    ∃ out file₁ file₁', p.2.run p.1 file = some (out, file₁) ∧ p.2.run p.1 file' = some (out, file₁') ∧
      BothFiles l start ops file₁ file₁' := by
  obtain ⟨before, after, w, a, hold, rfl, rfl, hl, hin, hid⟩ := h
  obtain ⟨junk, op⟩ := p
  have hop : op.id ≠ l.id := hid _ (List.mem_cons_self ..)
  obtain ⟨a', ha⟩ := op.makes a hl.1
  obtain ⟨before', after', w', hw, hold'⟩ := hold.makes hop ha
  have hrun := hw.run junk (hold.legal hop hl.1) hin.1
  have hrun' := ha.run junk hl.1 (hold.inInt hop hin.1)
  have hanswer : op.answer w.toMap = op.answer a.toMap := by
    cases op with
    | read id => exact congrArg (fun m => [mapAnswer m]) (hold.toMap hop)
    | _ => rfl
  rw [hanswer] at hrun
  refine ⟨_, _, _, hrun, hrun', before', after', w', a', hold', rfl, rfl, ?_, hin.2 _ _ hrun, ?_⟩
  · rw [ha.toMap]
    exact hl.2
  · exact fun q hq => hid q (List.mem_cons_of_mem _ hq)

theorem BothFiles.run {l : LiveLine} {start : Nat} {ops : List (Junk × StoreOp)} {file file' : List Char}
    (h : BothFiles l start ops file file') :
    ∃ out file₁ file₁', runOps ops file = some (out, file₁) ∧ runOps ops file' = some (out, file₁') ∧
      BothFiles l start [] file₁ file₁' := by
  rw [runOps_eq_run, runOps_eq_run]
  exact Calls.run_both (fun _ _ _ _ h => h.call) h

/-! The session. -/

namespace AbortedWrite

variable {r : AbortedWrite} {p : Peer}

theorem Formed.run_precommit (h : r.Formed) (hpc : p.pc = .ready) (junk : Junk) (d : Disk) :
    p.run junk r.precommit d = some ({ p with user := r.user }, some .positive, d) := by
  have hrun := Peer.run_of_precommit junk d h.precommit h.named hpc
  rwa [h.user] at hrun

/-- A COMMIT WRITE of a number that is not live: the check, the line, and the undo. -/
theorem Formed.run_commit (h : r.Formed) (huser : p.user = r.user) (junk : Junk) (b : Board)
    (hfree : r.nmbr ∉ liveIds b.lines) :
    p.run junk r.commit (diskOf b.bytes) =
      some ({ p with pc := .ready, undo_command := "write".toList, undo_nmbr := r.nmbr }, some .positive,
        diskOf (b.append ⟨r.nmbr, r.user, r.message, h.makes⟩ hfree).bytes) := by
  have hcheck : readDescriptor junk.line r.nmbr (diskOf b.bytes) = some ((-1, none), diskOf b.bytes) := by
    rw [b.read h.makes.id_numeral, Board.toMap_eq_none.2 hfree]
    rfl
  have hwrite := b.write ⟨r.nmbr, r.user, r.message, h.makes⟩ hfree
  dsimp only at hwrite
  rw [Peer.run_of_write junk _ h.commit h.kind h.long, h.nmbr, h.message, Peer.finish_writeCheck, hcheck, Option.map_some]
  dsimp only
  rw [if_pos rfl, huser, hwrite, if_pos rfl]

/-- An ABORT after it is a delete. -/
theorem Formed.run_abort (h : r.Formed) (hundo : p.undo_command = "write".toList)
    (hnmbr : p.undo_nmbr = r.nmbr) {junk : Junk} {d d' : Disk} {n : Int}
    (hdel : deleteDescriptor junk r.nmbr d = some (n, d')) :
    p.run junk r.abort d = some ({ p with pc := .closed }, none, d') := by
  rw [← hnmbr] at hdel
  exact Peer.run_of_abort h.abort hundo hdel

/-- The whole session, when the calls of the others and the delete return. -/
theorem Formed.run (h : r.Formed) (hpc : p.pc = .ready) (junk₁ junk₂ : Junk) {junk₃ : Junk} (b : Board)
    (hfree : r.nmbr ∉ liveIds b.lines) {ops : List (Junk × StoreOp)} {out : List (Int × Option CStr)}
    {file : List Char} {d : Disk} {n : Int}
    (hops : runOps ops (b.append ⟨r.nmbr, r.user, r.message, h.makes⟩ hfree).bytes = some (out, file))
    (hdel : deleteDescriptor junk₃ r.nmbr (diskOf file) = some (n, d)) :
    r.run junk₁ junk₂ junk₃ p ops b.bytes = some ([some .positive, some .positive, none], d.bbfile) := by
  rw [AbortedWrite.run, h.run_precommit hpc]
  dsimp only
  rw [h.run_commit rfl junk₂ b hfree]
  dsimp only
  rw [diskOf_bbfile, hops]
  dsimp only
  rw [h.run_abort rfl rfl hdel, Option.map_some]

end AbortedWrite

/-- Erasing the one line leaves what there is without it, and a deleted line. -/
theorem Holding.erase_line {l : LiveLine} {start : Nat} {before after : List BoardLine} {w a : Board}
    (h : Holding l start before after w a) :
    liveLines (w.erase l.id).lines = liveLines a.lines ∧
      (w.erase l.id).texts =
        before.map BoardLine.text ++ deletedLine l.text.length :: after.map BoardLine.text := by
  obtain ⟨hb, ha⟩ := h.not_mem
  refine ⟨?_, Board.texts_erase h.with_line hb ha⟩
  have hlines : (w.erase l.id).lines = before ++ eraseLine l.id (.live l) :: after := by
    calc (w.erase l.id).lines = w.lines.map (eraseLine l.id) := rfl
      _ = before ++ eraseLine l.id (.live l) :: after := by
        rw [h.with_line, List.map_append, List.map_cons, eraseLine_of_not_mem hb, eraseLine_of_not_mem ha]
  rw [hlines, h.without, liveLines_append, liveLines_append, eraseLine, if_pos rfl, liveLines_deleted]

/-- **ABORT undoes COMMIT WRITE**, while the file before the COMMIT has less than 2^31 bytes and
    the others overwrite only lines that start where an `int` reaches. -/
theorem abort_undoes_write {r : AbortedWrite} (hr : r.Formed) (b : Board) {p : Peer} (hpc : p.pc = .ready)
    (junk₁ junk₂ junk₃ : Junk) (ops : List (Junk × StoreOp)) (hfree : b.toMap r.nmbr = none)
    (hl : LegalOps ops b.toMap) (hid : ∀ q ∈ ops, q.2.id ≠ r.nmbr)
    (hstart : (b.bytes.length : Int) ≤ INT_MAX) (hin : InIntOps ops (b.bytes ++ fileOf [r.text])) :
    r.Undone junk₁ junk₂ junk₃ p ops b.bytes := by
  have hnone : r.nmbr ∉ liveIds b.lines := Board.toMap_eq_none.1 hfree
  let l : LiveLine := ⟨r.nmbr, r.user, r.message, hr.makes⟩
  have hbytes : (b.append l hnone).bytes = b.bytes ++ fileOf [r.text] := by
    rw [Board.bytes, Board.texts_append, fileOf_append]
    rfl
  have hboth : BothFiles l b.bytes.length ops (b.append l hnone).bytes b.bytes := by
    refine ⟨b.lines, [], b.append l hnone, b, ⟨rfl, by simp, rfl⟩, rfl, rfl, hl, ?_, hid⟩
    rw [hbytes]
    exact hin
  obtain ⟨out, file₁, file₁', hrun, hrun', before, after, w, a, hold, rfl, rfl, -⟩ := hboth.run
  have hnot := hold.not_mem.1
  have hfind : w.toMap r.nmbr = some (r.user, r.message) := Board.toMap_of_split hold.with_line hnot
  -- the line never moved: it starts where the file ended when it was written
  have hline : lineStart r.nmbr w.bytes = b.bytes.length := by
    have hwithout := without_of_not_mem l.ok.id_numeral hnot
    have hclean : ∀ x ∈ after.map BoardLine.text, Clean x := by
      intro x hx
      obtain ⟨y, -, rfl⟩ := List.mem_map.1 hx
      exact y.clean
    have hw : w.bytes = fileOf (before.map BoardLine.text ++ l.text :: after.map BoardLine.text) := by
      rw [Board.bytes, Board.texts, hold.with_line, List.map_append, List.map_cons]
      rfl
    rw [hw, lineStart_append hwithout l.clean hclean l.firstField, hold.start]
  obtain ⟨_, -, hdel⟩ := w.delete (by rw [hfind]; simp) (by rw [hline]; exact hstart) junk₃
  obtain ⟨hlive, htexts⟩ := hold.erase_line
  refine ⟨a, w.erase r.nmbr, before, after, ?_, ?_, hlive, hold.without, htexts⟩
  · rw [hrun']
    rfl
  · exact hr.run hpc junk₁ junk₂ b hnone hrun hdel

/-! A session that is undone, and one that is not. -/

/-- A session that posts the line `1/u/m`. -/
def lastLineAborted : AbortedWrite :=
  ⟨"precommit u ".toList, "commit write 1 m ".toList, "abort ".toList, ['1'], ['u'], ['m']⟩

theorem lastLineAborted_formed : lastLineAborted.Formed where
  precommit := by decide
  named := by decide
  user := by decide
  commit := by decide
  kind := by decide
  long := by decide
  nmbr := by decide
  message := by decide
  abort := by decide
  makes := lastLine.ok

def freshPeer : Peer := ⟨.ready, [], [], [], [], []⟩

/-- A file with the line `2/v/x` behind a deleted one. -/
def otherBoard : Board where
  lines := [.deleted 5 (by decide) (by decide),
    .live ⟨['2'], ['v'], ['x'], ⟨by decide, by decide, ⟨'x', by simp, rfl⟩, by decide, by decide, by decide⟩⟩]
  distinct := by decide

/-- Before the ABORT another session replaces the line and writes one more. -/
theorem abort_undoes_write_between :
    lastLineAborted.Undone ⟨[], []⟩ ⟨[], []⟩ ⟨[], []⟩ freshPeer
      [(⟨[], []⟩, .replace ['2'] ['w'] ['y']), (⟨[], []⟩, .write ['3'] ['w'] ['z'])] otherBoard.bytes := by
  have hreplace : MakesLine ['2'] ['w'] ['y'] := ⟨by decide, by decide, ⟨'y', by simp, rfl⟩, by decide, by decide, by decide⟩
  have hwrite : MakesLine ['3'] ['w'] ['z'] := ⟨by decide, by decide, ⟨'z', by simp, rfl⟩, by decide, by decide, by decide⟩
  have hlegal : LegalOps [((⟨[], []⟩ : Junk), .replace ['2'] ['w'] ['y']), (⟨[], []⟩, .write ['3'] ['w'] ['z'])]
      otherBoard.toMap := ⟨⟨by decide, hreplace⟩, ⟨by decide, hwrite⟩, trivial⟩
  have hid : ∀ q ∈ [((⟨[], []⟩ : Junk), StoreOp.replace ['2'] ['w'] ['y']), (⟨[], []⟩, .write ['3'] ['w'] ['z'])],
      q.2.id ≠ lastLineAborted.nmbr := by
    intro q hq
    simp only [List.mem_cons, List.not_mem_nil, or_false] at hq
    rcases hq with rfl | rfl <;> decide
  have hin : (lineStart ['2'] (otherBoard.bytes ++ fileOf [lastLineAborted.text]) : Int) ≤ INT_MAX := by decide
  exact abort_undoes_write lastLineAborted_formed otherBoard rfl _ _ _ _ (by decide) hlegal hid (by decide)
    ⟨hin, fun _ _ _ => ⟨trivial, fun _ _ _ => trivial⟩⟩

def deletedBoard (k : Nat) : Board where
  lines := List.replicate k (.deleted 1023 largeLine_pos largeLine_lt)
  distinct := by
    rw [liveIds_replicate]
    exact List.nodup_nil

/-- On a file of 2^31 bytes the line is still read after the ABORT. -/
theorem abort_keeps_line : ∃ (b : Board) (junk : Junk), b.toMap lastLineAborted.nmbr = none ∧
    ¬ lastLineAborted.Undone junk junk junk freshPeer [] b.bytes := by
  obtain ⟨k, hk⟩ : ∃ k, 1024 * (k + 1) = 2 ^ 31 := ⟨2097151, by norm_num⟩
  have hfree : lastLineAborted.nmbr ∉ liveIds (deletedBoard (k + 1)).lines := by
    rw [deletedBoard, liveIds_replicate]
    exact List.not_mem_nil
  refine ⟨deletedBoard (k + 1), ⟨[], []⟩, Board.toMap_eq_none.2 hfree, ?_⟩
  rintro ⟨alone, left, -, -, halone, hrun, hlive, -⟩
  obtain ⟨file, hdel, hread⟩ := largeBoard_delete_read hk ⟨[], []⟩
  have hops : runOps [] ((deletedBoard (k + 1)).append
      ⟨lastLineAborted.nmbr, lastLineAborted.user, lastLineAborted.message, lastLineAborted_formed.makes⟩
      hfree).bytes = some ([], (largeBoard (k + 1)).bytes) := rfl
  rw [lastLineAborted_formed.run (p := freshPeer) rfl ⟨[], []⟩ ⟨[], []⟩ _ hfree hops hdel] at hrun
  have hleft : file = left.bytes := congrArg Prod.snd (Option.some.inj hrun)
  have hbytes : (deletedBoard (k + 1)).bytes = alone.bytes := Option.some.inj halone
  have hone : IsNumeral ['1'] := by decide
  -- the board without the line and the board with it are read alike, but the file is not
  have hnone : mapAnswer (alone.toMap ['1']) = (-1, none) := by
    have h₁ := (deletedBoard (k + 1)).read hone []
    have h₂ := alone.read hone []
    have hmap : (deletedBoard (k + 1)).toMap ['1'] = none := Board.toMap_eq_none.2 hfree
    rw [hmap, hbytes, h₂] at h₁
    exact congrArg Prod.fst (Option.some.inj h₁)
  have hsome : mapAnswer (left.toMap ['1']) = (3, some ['u', '/', 'm']) := by
    have h₃ := left.read hone []
    rw [← hleft, hread] at h₃
    exact (congrArg Prod.fst (Option.some.inj h₃)).symm
  rw [Board.toMap_congr hlive, hnone] at hsome
  exact absurd (congrArg Prod.fst hsome) (by decide)

end BulletinBoard
