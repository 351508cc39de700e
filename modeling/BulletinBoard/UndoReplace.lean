import BulletinBoard.CommitForm
import BulletinBoard.LastLine

/- ABORT after COMMIT REPLACE. The session saves the old line in pieces, as a READ would show them,
   and writes a line of these pieces back behind the one that it deletes. The pieces are cut
   again when that line is read: a slash at the end of the message was dropped when it was
   saved, and another one before it is dropped now. And when the request is so short that
   the peer reads its message beyond the NUL of its buffer, a newline there makes a second
   line, which no ABORT deletes. -/
namespace BulletinBoard

/-! The source. -/

/-- Requests of a session that no other session interrupts: its answers and the disk at the end. -/
def Peer.session : List (Junk × CStr) → Peer → Disk → Option (List (Option PeerReply) × Disk)
  | [], _, d => some ([], d)
  | (junk, line) :: requests, p, d =>
    if p.pc = .closed then some ([], d)
    else
      match p.run junk line d with
      | none => none
      | some (p, reply, d) => (p.session requests d).map fun (replies, d) => (reply :: replies, d)

/-- The requests of the session, with the number and the message of the COMMIT REPLACE as its words are
    put together. -/
structure AbortedReplace where
  precommit : CStr
  commit : CStr
  abort : CStr
  user : CStr
  nmbr : CStr
  text : CStr

namespace AbortedReplace

structure Formed (r : AbortedReplace) : Prop where
  precommit_received : Received r.precommit
  precommit : tolwr ((commandOf r.precommit).getD 0 []) = "precommit".toList
  named : (commandOf r.precommit).length ≥ 2
  user : textFrom 1 (commandOf r.precommit) = r.user
  commit_received : Received r.commit
  kind : (commandOf r.commit).getD 1 [] = "replace".toList
  text : trailWords ((commandOf r.commit).drop 2) = r.nmbr ++ '/' :: r.text
  abort : tolwr ((commandOf r.abort).getD 0 []) = "abort".toList

/-- The session is answered `positive` twice, and then each number is read as before it. -/
def UndoneAt (r : AbortedReplace) (p : Peer) (b : Board) (junk₁ junk₂ junk₃ : Junk) : Prop :=
  ∃ d, p.session [(junk₁, r.precommit), (junk₂, r.commit), (junk₃, r.abort)] (diskOf b.bytes) =
      some ([some .positive, some .positive, none], d) ∧
    ∀ id, IsNumeral id → ∀ line, ∃ s d₁ d₂, readDescriptor line id (diskOf b.bytes) = some (s, d₁) ∧
      readDescriptor line id (diskOf d.bbfile) = some (s, d₂)

/-- So it is whatever its requests find in their buffers. -/
def Undone (r : AbortedReplace) (p : Peer) (b : Board) : Prop :=
  ∀ junk₁ junk₂ junk₃, r.UndoneAt p b junk₁ junk₂ junk₃

/-- Number and message have five characters at least. -/
def Long (r : AbortedReplace) : Prop := 4 ≤ r.nmbr.length + r.text.length

end AbortedReplace

/-- The message ends with a slash, but for blanks, and there is nothing but blanks between it and
    another slash, or the beginning. -/
def LosesSlash (message : CStr) : Prop :=
  ∃ s k, message = s ++ '/' :: List.replicate k ' ' ∧ behindSlash true s = true

/-! What is saved of a line. -/

section
variable {message nmbr user : CStr}

theorem messageText_prefix (message : CStr) : ∃ q, shown message = messageText message ++ q := by
  rw [messageText]
  split
  · obtain ⟨q, hq⟩ := List.dropLast_prefix (shown message)
    exact ⟨q, hq.symm⟩
  · exact ⟨[], (List.append_nil _).symm⟩

/-- The saved message has no blanks that a READ would drop. -/
theorem shown_messageText (message : CStr) : shown (messageText message) = messageText message := by
  obtain ⟨q, hq⟩ := messageText_prefix message
  exact Cut.squeeze_prefix hq

theorem losesSlash_iff (hm : ∃ c ∈ message, isBlank c = false) :
    LosesSlash message ↔ behindSlash true (messageText message) = true := by
  -- what is saved of a message with a slash at its end
  have hsaved : ∀ (s : CStr) (bs : CStr), (∀ c ∈ bs, isBlank c = true) → message = s ++ '/' :: bs →
      behindSlash true message = true ∧ messageText message = shown s := by
    intro s bs hbs heq
    have hslash : Cut.skips isSlash isBlank (behindSlash true s) ['/'] = true := Cut.skips_concat rfl _ []
    have hbehind : behindSlash true message = true := by
      have hsnoc : s ++ '/' :: bs = s ++ ['/'] ++ bs := by simp
      rw [heq, hsnoc, behindSlash, Cut.skips_append_blanks isSlash_not_blank true _ hbs, Cut.skips_append]
      exact hslash
    have hend : Cut.squeeze isSlash isBlank (behindSlash true s) ('/' :: bs) = ['/'] := by
      have hblank : isBlank '/' = false := rfl
      rw [Cut.squeeze, hblank, Bool.and_false, if_neg (by decide)]
      exact congrArg ('/' :: ·) (Cut.squeeze_eq_nil_iff.2 (Cut.cut_true_eq_nil hbs))
    refine ⟨hbehind, ?_⟩
    rw [messageText, if_pos hbehind, heq, shown, Cut.squeeze_append]
    rw [show Cut.squeeze isSlash isBlank (Cut.skips isSlash isBlank true s) ('/' :: bs) = ['/'] from hend]
    exact List.dropLast_concat
  constructor
  · rintro ⟨s, k, heq, hs⟩
    have hbs : ∀ c ∈ List.replicate k ' ', isBlank c = true := by
      intro c hc
      rw [List.eq_of_mem_replicate hc]
      rfl
    rw [(hsaved s _ hbs heq).2]
    exact (@Cut.squeeze_squeeze_append _ isSlash isBlank true s []).2.trans hs
  · intro h
    have hbehind : behindSlash true message = true := by
      by_contra hno
      rw [messageText, if_neg hno] at h
      exact hno ((@Cut.squeeze_squeeze_append _ isSlash isBlank true message []).2.symm.trans h)
    obtain ⟨s, c, bs, heq, hc, hbs⟩ := Cut.exists_last isSlash_not_blank hbehind hm
    obtain rfl := isSlash_eq hc
    rw [(hsaved s bs hbs heq).2] at h
    have hs := (@Cut.squeeze_squeeze_append _ isSlash isBlank true s []).2.symm.trans h
    refine ⟨s, bs.length, ?_, hs⟩
    have hreplicate : bs = List.replicate bs.length ' ' := by
      rw [List.eq_replicate_iff]
      exact ⟨rfl, fun x hx => by simpa [isBlank] using hbs x hx⟩
    rw [← hreplicate]
    exact heq

theorem shown_no_slash (hu : '/' ∉ user) : shown user = user.dropWhile isBlank :=
  (Cut.squeeze_of_no_sep (no_slash hu)).1

/-- The line is saved in the pieces of a READ. -/
theorem LiveLine.tokenizedText (l : LiveLine) (msg_user msg_message : CStr) :
    tokenizedText l.text msg_user msg_message = (shown l.user, messageText l.message) := by
  have htok : tokensOf l.text = l.id :: l.user.dropWhile isBlank :: Cut.cut isSlash isBlank true l.message :=
    tokensOf_mkLine (isNumeral_no_slash l.ok.id_numeral) l.ok.user_no_slash
  have hcut : Cut.cut isSlash isBlank true l.message ≠ [] := Cut.cut_true_ne_nil l.ok.message_text
  have hjoin : ['/'].intercalate (Cut.cut isSlash isBlank true l.message) = messageText l.message :=
    Cut.intercalate_cut (fun _ => isSlash_eq) true l.message
  rw [BulletinBoard.tokenizedText, htok, shown_no_slash l.ok.user_no_slash, ← hjoin]
  obtain ⟨q, qs, hq⟩ := List.exists_cons_of_ne_nil hcut
  rw [hq]
  cases qs with
  | nil => simp
  | cons r rs => simp [joinMessage]

/-- The line of the pieces reads like the line itself, unless another slash is lost. -/
theorem lineText_saved_iff (l : LiveLine) :
    lineText (mkLine l.id (shown l.user) (messageText l.message)) = lineText l.text ↔ ¬ LosesSlash l.message := by
  have hk : ∀ c ∈ l.id, isSlash c = false := isNumeral_no_slash l.ok.id_numeral
  have hshown : shown l.message ≠ [] := fun h => Cut.cut_true_ne_nil l.ok.message_text (Cut.squeeze_eq_nil_iff.1 h)
  have huser : shown (shown l.user) = shown l.user := Cut.squeeze_squeeze true l.user
  have hold : lineText l.text = shown l.user ++ '/' :: messageText l.message := lineText_shown hk l.user hshown
  rw [hold, losesSlash_iff l.ok.message_text]
  by_cases hnil : messageText l.message = []
  · -- the line of the pieces ends behind the name, and nothing of it is shown
    have hblank := @lineText_blank l.id (messageText l.message) hk (shown l.user) (by rw [hnil]; rfl)
    rw [huser] at hblank
    refine iff_of_false (fun h => ?_) (fun h => h (by rw [hnil]; rfl))
    have hlen := congrArg List.length h
    rw [List.length_append, List.length_cons] at hlen
    omega
  · have hsaved : shown (messageText l.message) ≠ [] := by rwa [shown_messageText]
    rw [lineText_shown hk _ hsaved, huser, List.append_cancel_left_eq, List.cons.injEq]
    rw [messageText, shown_messageText]
    split
    · next h =>
      refine iff_of_false (fun heq => ?_) (fun hno => hno h)
      have hlen := congrArg List.length heq.2
      rw [List.length_dropLast] at hlen
      have := List.length_pos_of_ne_nil hnil
      omega
    · next h => exact iff_of_true ⟨rfl, rfl⟩ h

end

/-! The session. -/

/-- The lines after the session: the old line and the new one are deleted, what came behind the new one
    stays, and the line of the pieces is last. -/
def undoneLines (b : Board) (nmbr new : CStr) (rest : List CStr) (l : LiveLine) : List CStr :=
  deleteIn nmbr b.texts ++ deletedLine new.length :: (rest ++ [mkLine nmbr (shown l.user) (messageText l.message)])

section
variable {r : AbortedReplace} {p : Peer} {b : Board} {l : LiveLine} {new message : CStr} {rest : List CStr}

/-- An ABORT that finds the new line in the file. -/
theorem run_abort_replace {ls : List CStr} {line : CStr} (junk : Junk)
    (habort : tolwr ((commandOf line).getD 0 []) = "abort".toList) (hundo : p.undo_command = "replace".toList)
    (hls : Without p.undo_nmbr ls) (hnew : Clean new)
    (hk : firstField new = p.undo_nmbr) (hstart : ((fileOf ls).length : Int) ≤ INT_MAX) :
    p.run junk line (diskOf (fileOf (ls ++ new :: rest))) = some ({ p with pc := .closed }, none,
      diskOf (fileOf (ls ++ deletedLine new.length :: (rest ++ [mkLine p.undo_nmbr p.undo_user p.undo_message])))) := by
  have hfile : fileOf (ls ++ new :: rest) = fileOf ls ++ (new ++ '\n' :: fileOf rest) := by simp
  have hdel := deleteDescriptor_line junk (fileOf rest) hls hnew hk hstart
  have hdeleted : fileOf ls ++ (deletedLine new.length ++ '\n' :: fileOf rest) =
      fileOf (ls ++ deletedLine new.length :: rest) := by simp
  have hwrite := writeDescriptor_diskOf p.undo_nmbr p.undo_user p.undo_message
    (fileOf (ls ++ deletedLine new.length :: rest))
  have hend : fileOf (ls ++ deletedLine new.length :: rest) ++ fileOf [mkLine p.undo_nmbr p.undo_user p.undo_message] =
      fileOf (ls ++ deletedLine new.length :: (rest ++ [mkLine p.undo_nmbr p.undo_user p.undo_message])) := by
    rw [← fileOf_append, List.append_assoc, List.cons_append]
  rw [hdeleted] at hdel
  rw [hend] at hwrite
  rw [hfile]
  exact Peer.run_of_abort_replace habort hundo hdel (by omega) hwrite

/-- The lines before the new one. -/
theorem without_deleteIn (hl : l ∈ liveLines b.lines) : Without l.id (deleteIn l.id b.texts) :=
  .of_lineOf_none (deleteIn_clean b.texts_clean) (lineOf_deleteIn_live (List.mem_map_of_mem hl))

namespace AbortedReplace

/-- The session, by the message that the peer finds. -/
theorem Formed.session (h : r.Formed) (hpc : p.pc = .ready)
    (hcommit : tolwr ((commandOf r.commit).getD 0 []) = "commit".toList) (hl : l ∈ liveLines b.lines)
    (hid : l.id = r.nmbr) (hstart : (b.bytes.length : Int) ≤ INT_MAX) (junk₁ junk₃ : Junk) {junk₂ : Junk}
    (hmessage : replMessage (replTokens ((commandOf r.commit).drop 2) 7 junk₂.line) = some message)
    (hnmbr : (replTokens ((commandOf r.commit).drop 2) 7 junk₂.line).getD 0 [] = r.nmbr)
    (hlines : fileOf [mkLine r.nmbr r.user message] = fileOf (new :: rest)) (hnew : Clean new)
    (hk : firstField new = r.nmbr) :
    p.session [(junk₁, r.precommit), (junk₂, r.commit), (junk₃, r.abort)] (diskOf b.bytes) =
      some ([some .positive, some .positive, none], diskOf (fileOf (undoneLines b r.nmbr new rest l))) := by
  have hne : (commandOf r.commit).drop 2 ≠ [] := by
    intro hnil
    have htext := h.text
    rw [hnil] at htext
    exact absurd htext.symm (List.append_ne_nil_of_right_ne_nil _ (List.cons_ne_nil _ _))
  have hlen : (commandOf r.commit).length > 2 := by
    by_contra hle
    exact hne (List.drop_eq_nil_of_le (by omega))
  have hpre := Peer.run_of_precommit junk₁ (diskOf b.bytes) h.precommit h.named hpc
  rw [h.user] at hpre
  -- the COMMIT
  have hline : lineOf r.nmbr b.texts = some l.text := by rw [← hid, Board.lineOf_live hl]
  have hsmall : (lineStart r.nmbr b.bytes : Int) ≤ INT_MAX := (Int.ofNat_le.2 (lineStart_le r.nmbr b)).trans hstart
  have hcom := @Peer.run_of_replace { p with user := r.user } r.commit junk₂ (diskOf b.bytes) hcommit h.kind hlen
  rw [hmessage] at hcom
  dsimp only at hcom
  rw [hnmbr] at hcom
  have hfinish := @finish_replace r.nmbr message { p with user := r.user } b.texts l.text junk₂ b.texts_clean hline
    hsmall
  rw [← Board.bytes] at hfinish
  rw [hfinish, fileOf_append, hlines, ← fileOf_append] at hcom
  -- the ABORT
  have hwithout := without_deleteIn hl
  rw [hid] at hwithout
  have hbytes : ((fileOf (deleteIn r.nmbr b.texts)).length : Int) ≤ INT_MAX := by
    rw [fileOf_deleteIn_length]
    exact hstart
  have habort := @run_abort_replace (Peer.savedLine { p with user := r.user } r.nmbr l.text) new rest
    (deleteIn r.nmbr b.texts) r.abort junk₃ h.abort rfl hwithout hnew hk hbytes
  have hsaved := l.tokenizedText p.undo_user p.undo_message
  rw [Peer.session, if_neg (by rw [hpc]; decide), hpre]
  dsimp only
  rw [Peer.session, if_neg (by rw [hpc]; decide), hcom]
  dsimp only
  rw [Peer.session, if_neg (by simp [Peer.savedLine]), habort, Peer.savedLine, hsaved]
  rfl

end AbortedReplace

/-! Reading after the session. -/

/-- Every number is read alike. -/
def ReadAlike (ls ls' : List CStr) : Prop :=
  ∀ id, IsNumeral id → readAnswer (lineOf id ls) = readAnswer (lineOf id ls')

/-- The line of the pieces is read whole. -/
theorem clean_saved (l : LiveLine) : Clean (mkLine l.id (shown l.user) (messageText l.message)) := by
  have hline : Unbroken l.text := ⟨l.clean.no_nul, l.clean.no_newline⟩
  have huser : (shown l.user).Sublist l.user := Cut.squeeze_sublist true l.user
  have hmessage : (messageText l.message).Sublist l.message := by
    obtain ⟨q, hq⟩ := messageText_prefix l.message
    have hshown : (shown l.message).Sublist l.message := Cut.squeeze_sublist true l.message
    rw [hq] at hshown
    exact (List.sublist_append_left _ _).trans hshown
  have hlen : l.text.length = l.id.length + l.user.length + l.message.length + 2 := by
    rw [LiveLine.text, mkLine]
    simp only [List.length_append, List.length_cons]
    omega
  have hlt := l.clean.length_lt
  have hule := huser.length_le
  have hmle := hmessage.length_le
  apply clean_mkLine
  · exact hline.of_subset fun c hc => by simp [LiveLine.text, mkLine, hc]
  · exact hline.of_subset fun c hc => by simp [LiveLine.text, mkLine, huser.subset hc]
  · exact hline.of_subset fun c hc => by simp [LiveLine.text, mkLine, hmessage.subset hc]
  · omega

theorem undoneLines_clean (hnew : Clean new) (hrest : ∀ x ∈ rest, Clean x) :
    ∀ x ∈ undoneLines b l.id new rest l, Clean x := by
  intro x hx
  rw [undoneLines, List.mem_append, List.mem_cons] at hx
  rcases hx with hx | rfl | hx
  · exact deleteIn_clean b.texts_clean x hx
  · exact clean_deletedLine hnew.length_lt
  · exact clean_snoc hrest (clean_saved l) x hx

theorem lineOf_deletedLine {id : CStr} (hid : IsNumeral id) (n : Nat) (ls : List CStr) :
    lineOf id (deletedLine n :: ls) = lineOf id ls := by
  rw [lineOf, List.find?_cons, decide_eq_false (firstField_deleted_ne hid n)]
  rfl

/-- What another number is read from. -/
theorem lineOf_undone_ne {id : CStr} (hid : IsNumeral id) (hne : id ≠ l.id) :
    lineOf id (undoneLines b l.id new rest l) = (lineOf id b.texts).or (lineOf id rest) := by
  have hk := isNumeral_no_slash l.ok.id_numeral
  rw [undoneLines, lineOf_append, lineOf_deletedLine hid, lineOf_snoc_ne (firstField_mkLine hk) hne,
    lineOf_deleteIn_of_ne (firstField_deleted_ne hid) hne]

/-- What the number itself is read from, when nothing came behind the new line. -/
theorem lineOf_undone_self (hl : l ∈ liveLines b.lines) : lineOf l.id (undoneLines b l.id new [] l) =
    some (mkLine l.id (shown l.user) (messageText l.message)) := by
  have hk := isNumeral_no_slash l.ok.id_numeral
  rw [undoneLines, lineOf_append, lineOf_deleteIn_live (List.mem_map_of_mem hl), Option.none_or,
    lineOf_deletedLine l.ok.id_numeral, List.nil_append, lineOf, List.find?_singleton,
    decide_eq_true (firstField_mkLine hk)]
  rfl

theorem readAlike_iff (hl : l ∈ liveLines b.lines) :
    ReadAlike b.texts (undoneLines b l.id new [] l) ↔ ¬ LosesSlash l.message := by
  rw [← lineText_saved_iff]
  have hself : readAnswer (lineOf l.id b.texts) = readAnswer (lineOf l.id (undoneLines b l.id new [] l)) ↔
      lineText (mkLine l.id (shown l.user) (messageText l.message)) = lineText l.text := by
    rw [Board.lineOf_live hl, lineOf_undone_self hl, readAnswer, readAnswer, Prod.mk.injEq, Option.some_inj]
    exact ⟨fun h => h.2.symm, fun h => ⟨by rw [h], h.symm⟩⟩
  constructor
  · exact fun h => hself.1 (h l.id l.ok.id_numeral)
  · intro h id hid
    by_cases hne : id = l.id
    · rw [hne]
      exact hself.2 h
    · rw [lineOf_undone_ne hid hne, lineOf, lineOf, List.find?_nil, Option.or_none]

namespace AbortedReplace

theorem undoneAt_iff {junk₁ junk₂ junk₃ : Junk} {ls : List CStr} (hls : ∀ x ∈ ls, Clean x)
    (hrun : p.session [(junk₁, r.precommit), (junk₂, r.commit), (junk₃, r.abort)] (diskOf b.bytes) =
      some ([some .positive, some .positive, none], diskOf (fileOf ls))) :
    r.UndoneAt p b junk₁ junk₂ junk₃ ↔ ReadAlike b.texts ls := by
  have hbefore : Shows b.bytes b.texts := shows_lines b.texts_clean
  have hafter : Shows (fileOf ls) ls := shows_lines hls
  constructor
  · rintro ⟨d, hrun', hreads⟩ id hid
    rw [hrun] at hrun'
    obtain ⟨-, rfl⟩ := Prod.mk.inj (Option.some.inj hrun')
    obtain ⟨s, d₁, d₂, h₁, h₂⟩ := hreads id hid []
    rw [hbefore] at h₁
    rw [diskOf_bbfile, hafter] at h₂
    rw [(Prod.mk.inj (Option.some.inj h₁)).1, (Prod.mk.inj (Option.some.inj h₂)).1]
  · intro h
    refine ⟨_, hrun, fun id hid line => ?_⟩
    have hread := hafter line id
    rw [← h id hid] at hread
    exact ⟨_, _, _, hbefore line id, hread⟩

end AbortedReplace

/-! The message that the peer finds. -/

namespace AbortedReplace

theorem Formed.words (h : r.Formed) : ∀ w ∈ (commandOf r.commit).drop 2, Unbroken w :=
  fun w hw => (h.commit_received.words w (List.mem_of_mem_drop hw)).1

theorem Formed.text_unbroken (h : r.Formed) : Unbroken r.nmbr ∧ Unbroken r.text ∧
    r.nmbr.length + r.text.length + 1 ≤ MAX_LEN := by
  have hall := Unbroken.trailWords h.words
  rw [h.text] at hall
  have hroom := (room_drop_le 2 (commandOf r.commit)).trans h.commit_received.room_le
  have hlen := congrArg List.length h.text
  rw [trailWords_length, ← room, List.length_append, List.length_cons] at hlen
  refine ⟨hall.of_subset fun c hc => List.mem_append_left _ hc,
    hall.of_subset fun c hc => List.mem_append_right _ (List.mem_cons_of_mem _ hc), by omega⟩

theorem Formed.user_unbroken (h : r.Formed) : Unbroken r.user ∧ r.user.length ≤ MAX_LEN := by
  rw [← h.user]
  exact ⟨Unbroken.textFrom (fun w hw => (h.precommit_received.words w hw).1) 1,
    (textFrom_length 1 _).trans h.precommit_received.room_le⟩

/-- A new line of the number, with a message out of the text. -/
theorem Formed.clean_new (h : r.Formed) (hm : Unbroken message) (hlen : message.length ≤ r.text.length + 1) :
    Clean (mkLine r.nmbr r.user message) := by
  obtain ⟨hnmbr, -, hroom⟩ := h.text_unbroken
  obtain ⟨huser, hsize⟩ := h.user_unbroken
  unfold MAX_LEN at hroom hsize
  exact clean_mkLine hnmbr huser hm (by unfold BBLINE_LEN; omega)

/-- A COMMIT that is answered `positive` has a message that begins before the limit. -/
theorem Formed.in_time {junk : Junk} {q : Peer} (h : r.Formed) (hn : ∀ c ∈ r.nmbr, isSlash c = false)
    (hpos : CommitsPositive b q junk r.commit) : r.nmbr.length + 1 + (r.text.takeWhile isBlank).length < 7 := by
  have htakes := (commitsPositive_iff h.commit_received).1 hpos
  rw [takes_iff] at htakes
  obtain ⟨c, n, w, ws, -, -, hwords⟩ | ⟨c, n, rest, words, -, -, htext, hn', -, hlt, hwords⟩ := htakes
  · have hkind := h.kind
    rw [hwords, List.getD_cons_succ, List.getD_cons_zero] at hkind
    exact absurd hkind (by decide)
  · have hsame := h.text
    rw [hwords] at hsame
    obtain ⟨rfl, rfl⟩ := slash_unique hn' hn (htext.symm.trans hsame)
    exact hlt

/-- A longer request is undone, in what it took over the number, up to the slash that is lost. -/
theorem Formed.undoneAt_long {junk : Junk} {q : Peer} (h : r.Formed) (hpc : p.pc = .ready)
    (hl : l ∈ liveLines b.lines) (hid : l.id = r.nmbr) (hpos : CommitsPositive b q junk r.commit) (hstart : (b.bytes.length : Int) ≤ INT_MAX)
    (hlong : r.Long) (junk₁ junk₂ junk₃ : Junk) : r.UndoneAt p b junk₁ junk₂ junk₃ ↔ ¬ LosesSlash l.message := by
  have hn : ∀ c ∈ r.nmbr, isSlash c = false := by
    rw [← hid]
    exact isNumeral_no_slash l.ok.id_numeral
  have htime := h.in_time hn hpos
  have hopen : 6 - r.nmbr.length ≤ r.text.length → shown (r.text.take (6 - r.nmbr.length)) ≠ [] := by
    intro hle
    rw [Ne, Cut.squeeze_take_eq_nil_iff]
    exact (Cut.cutAt_true_ne_nil_iff hle).2 (by omega)
  obtain ⟨hmessage, hnmbr⟩ := @peer_message r.nmbr r.text _ junk₂.line hn h.words h.text (6 - r.nmbr.length)
    (by omega) hlong hopen
  obtain ⟨message, hm⟩ : ∃ message, message = peerMessage (6 - r.nmbr.length) r.text := ⟨_, rfl⟩
  have hsub : message.Sublist r.text := by
    rw [hm]
    exact peerMessage_sublist _ _
  rw [← hm] at hmessage
  have hnew : Clean (mkLine r.nmbr r.user message) :=
    h.clean_new (h.text_unbroken.2.1.of_subset fun c hc => hsub.subset hc) (hsub.length_le.trans (Nat.le_succ _))
  have hrun := h.session hpc hpos.1 hl hid hstart junk₁ junk₃ hmessage hnmbr rfl hnew (firstField_mkLine hn)
  rw [← hid] at hrun hnew
  rw [undoneAt_iff (undoneLines_clean hnew (by simp)) hrun]
  exact readAlike_iff hl

end AbortedReplace

/-! What is behind a short request. -/

/-- A number without a line, of three digits and more. -/
theorem exists_free (b : Board) (hstart : (b.bytes.length : Int) ≤ INT_MAX) :
    ∃ k, IsNumeral ("100".toList ++ k) ∧ "100".toList ++ k ∉ liveIds b.lines ∧ k.length ≤ 20 := by
  have hdigits : ∀ v : Nat, IsNumeral ("100".toList ++ showInt v) := by
    intro v
    have hv := @showInt_isNumeral v (Int.natCast_nonneg v)
    refine ⟨List.append_ne_nil_of_left_ne_nil (by decide) _, fun c hc => ?_⟩
    rcases List.mem_append.1 hc with hc | hc
    · exact (by decide : IsNumeral "100".toList).2 c hc
    · exact hv.2 c hc
  have hcount : (liveIds b.lines).length ≤ b.bytes.length := by
    have hlines : (liveIds b.lines).length ≤ b.lines.length := by
      rw [liveIds, List.length_map]
      exact List.length_filterMap_le _ _
    have hbytes := Lines.unlines_length_le '\n' b.texts
    rw [Board.texts, List.length_map] at hbytes
    exact hlines.trans hbytes
  by_contra hnone
  have hall : ∀ v < (liveIds b.lines).length + 1, "100".toList ++ showInt v ∈ liveIds b.lines := by
    intro v hv
    by_contra hfree
    unfold INT_MAX at hstart
    exact hnone ⟨showInt v, hdigits v, hfree, showInt_length_le (Int.natCast_nonneg v) (by norm_num; omega)⟩
  -- there are more numbers than live lines
  have hinj : Function.Injective fun v : Nat => "100".toList ++ showInt v := by
    intro v w hvw
    have hshow : showInt v = showInt w := List.append_cancel_left hvw
    rw [← numeralValue_showInt v, hshow, numeralValue_showInt]
  have hnodup := (List.nodup_range (n := (liveIds b.lines).length + 1)).map hinj
  have hsub : (List.range ((liveIds b.lines).length + 1)).map (fun v : Nat => "100".toList ++ showInt v) ⊆
      liveIds b.lines := by
    intro x hx
    obtain ⟨v, hv, rfl⟩ := List.mem_map.1 hx
    exact hall v (List.mem_range.1 hv)
  have hle := (hnodup.subperm hsub).length_le
  rw [List.length_map, List.length_range] at hle
  omega

namespace AbortedReplace

/-- Behind a short request there may be a newline, and a line of another number. -/
theorem Formed.not_undone_short (h : r.Formed) (hpc : p.pc = .ready) (hl : l ∈ liveLines b.lines)
    (hid : l.id = r.nmbr) (hcommit : tolwr ((commandOf r.commit).getD 0 []) = "commit".toList)
    (hstart : (b.bytes.length : Int) ≤ INT_MAX) (hshort : ¬ r.Long) : ¬ r.Undone p b := by
  have hn : ∀ c ∈ r.nmbr, isSlash c = false := by
    rw [← hid]
    exact isNumeral_no_slash l.ok.id_numeral
  obtain ⟨k, hk, hfree, hlen⟩ := exists_free b hstart
  have hmakes : MakesLine ("100".toList ++ k) ['u'] ['m'] := by
    refine ⟨hk, by decide, ⟨'m', by simp, rfl⟩, by decide, by decide, ?_⟩
    have hthree : "100".toList.length = 3 := by decide
    rw [mkLine]
    simp only [List.length_append, List.length_cons, List.length_nil, hthree]
    unfold MAX_LEN
    omega
  obtain ⟨other, hother⟩ : ∃ other, other = mkLine ("100".toList ++ k) ['u'] ['m'] := ⟨_, rfl⟩
  have hclean : Clean other := by
    rw [hother]
    exact hmakes.clean
  have hnul : NUL ∉ '\n' :: other := by
    rw [List.mem_cons, not_or]
    exact ⟨by decide, hclean.no_nul⟩
  have htake : ∀ x ∈ other.take 3, isSlash x = false := by
    have hline : other = "100".toList ++ (k ++ "/u/m".toList) := by
      rw [hother, mkLine]
      simp
    rw [hline, List.take_left' (by decide)]
    exact isNumeral_no_slash (by decide)
  obtain ⟨hmessage, hnmbr⟩ := @peer_message_junk r.nmbr r.text _ hn h.words h.text (Nat.lt_of_not_le hshort) '\n'
    other rfl rfl htake hnul
  -- the new line ends behind the slash, and the other one follows it
  have hlines : fileOf [mkLine r.nmbr r.user (shown r.text ++ '/' :: '\n' :: other)] =
      fileOf [mkLine r.nmbr r.user (shown r.text ++ ['/']), other] := by
    simp [mkLine]
  have hsub : (shown r.text).Sublist r.text := Cut.squeeze_sublist true r.text
  have hunbroken : Unbroken (shown r.text ++ ['/']) :=
    (h.text_unbroken.2.1.of_subset fun c hc => hsub.subset hc).append unbroken_slash
  have hnew : Clean (mkLine r.nmbr r.user (shown r.text ++ ['/'])) := by
    apply h.clean_new hunbroken
    rw [List.length_append]
    exact Nat.add_le_add_right hsub.length_le 1
  have hfound : replMessage (replTokens ((commandOf r.commit).drop 2) 7
      (⟨'/' :: '\n' :: other, []⟩ : Junk).line) = some _ := hmessage
  have hrun := h.session hpc hcommit hl hid hstart ⟨[], []⟩ ⟨[], []⟩ hfound hnmbr hlines hnew (firstField_mkLine hn)
  rw [← hid] at hrun hnew
  intro hundone
  have hreads := (undoneAt_iff (undoneLines_clean hnew (by simpa using hclean)) hrun).1 (hundone _ _ _) _ hk
  -- the other number had no line before
  have hne : "100".toList ++ k ≠ l.id := fun heq => hfree (by rw [heq]; exact List.mem_map_of_mem hl)
  have hbefore : lineOf ("100".toList ++ k) b.texts = none := lineOf_texts_none hk hfree
  have hafter : lineOf ("100".toList ++ k) [other] = some other := by
    rw [lineOf, List.find?_singleton, hother, decide_eq_true (firstField_mkLine (isNumeral_no_slash hk))]
    rfl
  rw [lineOf_undone_ne hk hne, hbefore, hafter, Option.none_or] at hreads
  have hanswer := congrArg Prod.fst hreads
  rw [readAnswer, readAnswer] at hanswer
  dsimp only at hanswer
  omega

end AbortedReplace

/-- **ABORT after COMMIT REPLACE**: a request that is answered `positive` is undone, for what the reads
    give, exactly when it has five characters and the old message no slash that is lost. -/
theorem abort_undoes_replace_iff {junk : Junk} (h : r.Formed) (hpc : p.pc = .ready) (hl : l ∈ liveLines b.lines)
    (hid : l.id = r.nmbr) (hpos : CommitsPositive b { p with user := r.user } junk r.commit)
    (hstart : (b.bytes.length : Int) ≤ INT_MAX) : r.Undone p b ↔ r.Long ∧ ¬ LosesSlash l.message := by
  constructor
  · intro hundone
    have hlong : r.Long := by
      by_contra hshort
      exact h.not_undone_short hpc hl hid hpos.1 hstart hshort hundone
    exact ⟨hlong, (h.undoneAt_long hpc hl hid hpos hstart hlong ⟨[], []⟩ ⟨[], []⟩ ⟨[], []⟩).1 (hundone _ _ _)⟩
  · rintro ⟨hlong, hslash⟩ junk₁ junk₂ junk₃
    exact (h.undoneAt_long hpc hl hid hpos hstart hlong junk₁ junk₂ junk₃).2 hslash

end

/-! A session that is undone, and one that is not. -/

/-- A session that replaces the message of line 1. -/
def lastLineReplaced : AbortedReplace :=
  ⟨"precommit u ".toList, "commit replace 1/new ".toList, "abort ".toList, ['u'], ['1'], "new ".toList⟩

theorem lastLineReplaced_formed : lastLineReplaced.Formed where
  precommit_received := ⟨⟨by decide, by decide⟩, by decide⟩
  precommit := by decide
  named := by decide
  user := by decide
  commit_received := ⟨⟨by decide, by decide⟩, by decide⟩
  kind := by decide
  text := by decide
  abort := by decide

theorem lastLineReplaced_positive {b : Board} (h : ['1'] ∈ liveIds b.lines) :
    CommitsPositive b { freshPeer with user := lastLineReplaced.user } ⟨[], []⟩ lastLineReplaced.commit := by
  rw [commitsPositive_iff lastLineReplaced_formed.commit_received]
  have hcommand : commandOf lastLineReplaced.commit =
      ["commit".toList, "replace".toList, "1/new".toList] := by decide
  have hpresent : lineOf ['1'] b.texts ≠ none := by
    obtain ⟨l, hl, hid⟩ := List.mem_map.1 h
    rw [← hid, Board.lineOf_live hl]
    exact Option.some_ne_none _
  rw [hcommand]
  exact @Takes.replace b _ ['1'] "new ".toList ["1/new".toList] (by decide) (by simp) (by decide)
    (isNumeral_no_slash (by decide)) hpresent (by decide)

theorem abort_undoes_replace_one : lastLineReplaced.Undone freshPeer oneLine := by
  have hpos := lastLineReplaced_positive (by decide : ['1'] ∈ liveIds oneLine.lines)
  have hlive : lastLine ∈ liveLines oneLine.lines := by simp [oneLine]
  refine (abort_undoes_replace_iff lastLineReplaced_formed rfl hlive rfl hpos (by decide)).2 ⟨?_, ?_⟩
  · unfold AbortedReplace.Long
    decide
  · rw [losesSlash_iff lastLine.ok.message_text]
    decide

/-- A message with two slashes at its end. -/
def slashLine : LiveLine :=
  ⟨['1'], ['u'], "a//".toList, ⟨by decide, by decide, ⟨'a', by simp, rfl⟩, by decide, by decide, by decide⟩⟩

def slashBoard : Board := ⟨[.live slashLine], by simp⟩

/-- Before the session line 1 reads `u/a/`, and after it `u/a`. -/
theorem abort_loses_slash : lastLineReplaced.Formed ∧ slashLine.id = lastLineReplaced.nmbr ∧
    CommitsPositive slashBoard { freshPeer with user := lastLineReplaced.user } ⟨[], []⟩ lastLineReplaced.commit ∧
    ¬ lastLineReplaced.Undone freshPeer slashBoard := by
  have hpos := lastLineReplaced_positive (by decide : ['1'] ∈ liveIds slashBoard.lines)
  refine ⟨lastLineReplaced_formed, rfl, hpos, fun hundone => ?_⟩
  have hlive : slashLine ∈ liveLines slashBoard.lines := by simp [slashBoard]
  have hlong : lastLineReplaced.Long := by
    unfold AbortedReplace.Long
    decide
  have hslash : LosesSlash slashLine.message := ⟨"a/".toList, 0, by decide, by decide⟩
  have hready : freshPeer.pc = .ready := rfl
  have hiff := lastLineReplaced_formed.undoneAt_long hready hlive rfl hpos (by decide) hlong ⟨[], []⟩ ⟨[], []⟩ ⟨[], []⟩
  exact hiff.1 (hundone _ _ _) hslash

end BulletinBoard
