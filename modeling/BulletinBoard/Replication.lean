import BulletinBoard.Board
import BulletinBoard.Lib.Squeeze
import BulletinBoard.PeerOperations
import BulletinBoard.Requests

/- A WRITE at the coordinator and at its peers. The session joins the words of the WRITE into
   the message, the peer splits the request into words and joins those. An empty word, as
   two separators in a row make it, is a blank more at the coordinator and is lost on the
   way to the peer. A READ drops the blanks behind a slash, so that the two texts read the
   same exactly when every empty word stands there. -/
namespace BulletinBoard

/-- How a session writes words as a text: joined, or a single word as it is. -/
inductive Spells : CStr → List CStr → Prop where
  | joined (words : List CStr) : Spells (joinWords words) words
  | single (word : CStr) : Spells word [word]

/-- No word holds a separator. -/
def Split (words : List CStr) : Prop := ∀ w ∈ words, ∀ c ∈ w, isWordSep c = false

/-- The words that the peer finds. -/
def filled (words : List CStr) : List CStr := words.filter fun w => decide (w ≠ [])

/-- Whether a text that stood behind a slash, or not, does so after the word. -/
abbrev behindSlash (skip : Bool) (word : CStr) : Bool := Cut.skips isSlash isBlank skip word

/-- Every empty word stands behind a slash, or behind nothing but empty words that do. -/
def EmptyUnseen : Bool → List CStr → Prop
  | _, [] => True
  | skip, w :: words => (w = [] → skip = true) ∧ EmptyUnseen (behindSlash skip w) words

instance : ∀ (skip : Bool) (words : List CStr), Decidable (EmptyUnseen skip words)
  | _, [] => isTrue trivial
  | skip, w :: words =>
    have := instDecidableEmptyUnseen (behindSlash skip w) words
    inferInstanceAs (Decidable (_ ∧ _))

/-! The words of a text. -/

section
variable {text : CStr} {words : List CStr} {w : CStr}

theorem isBlank_of_not_sep {c : Char} (h : isWordSep c = false) : isBlank c = false := by
  simp only [isWordSep, Bool.or_eq_false_iff] at h
  exact h.2

theorem cut_word (hw : ∀ c ∈ w, isWordSep c = false) (hne : w ≠ []) (s : CStr) :
    Cut.cut isWordSep isBlank true (w ++ s) = Cut.cut isWordSep isBlank false (w ++ s) := by
  obtain ⟨c, r, rfl⟩ := List.exists_cons_of_ne_nil hne
  have hb : isBlank c = false := isBlank_of_not_sep (hw c (by simp))
  rw [List.cons_append, Cut.cut, Cut.cut, hb]
  rfl

/-- Joined words are found again, but for the empty ones. -/
theorem cut_joinWords (h : Split words) :
    Cut.cut isWordSep isBlank true (joinWords words) = filled words := by
  induction words with
  | nil => rfl
  | cons w words ih =>
    have hw : ∀ c ∈ w, isWordSep c = false := h w (by simp)
    have ih := ih fun v hv => h v (by simp [hv])
    have hjoin : joinWords (w :: words) = ' ' :: (w ++ joinWords words) := rfl
    have hblank : Cut.cut isWordSep isBlank true (' ' :: (w ++ joinWords words)) =
        Cut.cut isWordSep isBlank true (w ++ joinWords words) := by
      rw [Cut.cut]; rfl
    rw [hjoin, hblank]
    by_cases hne : w = []
    · subst hne
      exact ih
    · have hfill : filled (w :: words) = w :: filled words := by simp [filled, hne]
      rw [hfill, cut_word hw hne]
      cases words with
      | nil =>
        have hnil : joinWords ([] : List CStr) = [] := rfl
        rw [hnil, List.append_nil, Cut.cut_false_of_no_sep hw]
        rfl
      | cons v words =>
        have hjoin : joinWords (v :: words) = ' ' :: (v ++ joinWords words) := rfl
        rw [hjoin, Cut.cut] at ih
        rw [hjoin, Cut.cut_false_append hw (by decide)]
        exact congrArg (w :: ·) ih

theorem Spells.cut (h : Spells text words) (hs : Split words) :
    Cut.cut isWordSep isBlank true text = filled words := by
  cases h with
  | joined => exact cut_joinWords hs
  | single =>
    by_cases hne : text = []
    · subst hne; rfl
    · have hw : ∀ c ∈ text, isWordSep c = false := hs text (by simp)
      have hcut := cut_word hw hne []
      rw [List.append_nil, Cut.cut_false_of_no_sep hw] at hcut
      rw [hcut]
      simp [filled, hne]

theorem spells_textFrom {i : Nat} {command : List CStr} (h : i < command.length) :
    Spells (textFrom i command) (command.drop i) := by
  unfold textFrom
  split
  · exact .joined _
  · have hone : command.drop i = [command.getD i []] := by
      rw [List.drop_eq_getElem_cons h, List.drop_eq_nil_of_le (by omega), List.getD_eq_getElem command [] h]
    rw [hone]
    exact .single _

/-! The words of a text behind a slash. -/

theorem squeeze_word_cons (hw : ∀ c ∈ w, isWordSep c = false) (skip : Bool) (words : List CStr) :
    Cut.squeeze isSlash isBlank skip (joinWords (w :: words)) =
      (if skip then [] else [' ']) ++ w ++
        Cut.squeeze isSlash isBlank (behindSlash skip w) (joinWords words) := by
  have hjoin : joinWords (w :: words) = [' '] ++ (w ++ joinWords words) := rfl
  have hw' : ∀ c ∈ w, isBlank c = false := fun c hc => isBlank_of_not_sep (hw c hc)
  have hskip : Cut.skips isSlash isBlank skip [' '] = skip := by cases skip <;> rfl
  have hsqueeze : Cut.squeeze isSlash isBlank skip [' '] = if skip then [] else [' '] := by
    cases skip <;> rfl
  rw [hjoin, Cut.squeeze_append, Cut.squeeze_append, hskip, hsqueeze, Cut.squeeze_word skip hw',
    List.append_assoc]

theorem behindSlash_cons (skip : Bool) (w : CStr) (words : List CStr) :
    behindSlash skip (joinWords (w :: words)) = behindSlash (behindSlash skip w) (joinWords words) := by
  have hjoin : joinWords (w :: words) = [' '] ++ (w ++ joinWords words) := rfl
  have hskip : Cut.skips isSlash isBlank skip [' '] = skip := by cases skip <;> rfl
  rw [behindSlash, hjoin, Cut.skips_append, Cut.skips_append, hskip]

/-- What becomes of a text when its empty words are lost. -/
structure Lost (skip : Bool) (words : List CStr) : Prop where
  behind : behindSlash skip (joinWords (filled words)) = behindSlash skip (joinWords words)
  shorter : (Cut.squeeze isSlash isBlank skip (joinWords (filled words))).length ≤
    (Cut.squeeze isSlash isBlank skip (joinWords words)).length
  unseen : EmptyUnseen skip words → Cut.squeeze isSlash isBlank skip (joinWords (filled words)) =
    Cut.squeeze isSlash isBlank skip (joinWords words)
  seen : (Cut.squeeze isSlash isBlank skip (joinWords (filled words))).length =
    (Cut.squeeze isSlash isBlank skip (joinWords words)).length → EmptyUnseen skip words

theorem lost (h : Split words) (skip : Bool) : Lost skip words := by
  induction words generalizing skip with
  | nil => exact ⟨rfl, le_refl _, fun _ => rfl, fun _ => trivial⟩
  | cons w words ih =>
    have hw : ∀ c ∈ w, isWordSep c = false := h w (by simp)
    have ih := ih (fun v hv => h v (by simp [hv])) (behindSlash skip w)
    have hall := squeeze_word_cons hw skip words
    by_cases hne : w = []
    · subst hne
      have hfill : filled ([] :: words) = filled words := rfl
      have hb : behindSlash skip [] = skip := rfl
      rw [hb] at ih hall
      constructor
      · rw [hfill, behindSlash_cons, hb]
        exact ih.behind
      · rw [hfill, hall, List.length_append]
        exact ih.shorter.trans (Nat.le_add_left _ _)
      · rintro ⟨hskip, hrest⟩
        obtain rfl := hskip rfl
        rw [hfill, hall]
        exact ih.unseen hrest
      · intro hlen
        have hle := ih.shorter
        rw [hfill, hall, List.length_append] at hlen
        cases skip with
        | false =>
          simp only [Bool.false_eq_true, if_false, List.append_nil, List.length_singleton] at hlen
          omega
        | true =>
          simp only [if_true, List.append_nil, List.length_nil, Nat.zero_add] at hlen
          exact ⟨fun _ => rfl, ih.seen hlen⟩
    · have hfill : filled (w :: words) = w :: filled words := by simp [filled, hne]
      have hpart := squeeze_word_cons hw skip (filled words)
      constructor
      · rw [hfill, behindSlash_cons, behindSlash_cons]
        exact ih.behind
      · simp only [hfill, hpart, hall, List.length_append]
        exact Nat.add_le_add_left ih.shorter _
      · intro hrest
        rw [hfill, hpart, hall, ih.unseen hrest.2]
      · intro hlen
        simp only [hfill, hpart, hall, List.length_append] at hlen
        exact ⟨fun h => absurd h hne, ih.seen (Nat.add_left_cancel hlen)⟩

end

/-! The text that a READ gives. -/

section
variable {id user user' message message' text : CStr} {words userWords : List CStr}

theorem Spells.squeeze (h : Spells text words) : Cut.squeeze isSlash isBlank true text =
    Cut.squeeze isSlash isBlank true (joinWords words) := by
  cases h with
  | joined => rfl
  | single =>
    have hjoin : joinWords [text] = ' ' :: (text ++ []) := rfl
    rw [hjoin, List.append_nil]
    rfl

theorem Spells.behindSlash (h : Spells text words) : behindSlash true text = behindSlash true (joinWords words) := by
  cases h with
  | joined => rfl
  | single =>
    have hjoin : joinWords [text] = ' ' :: (text ++ []) := rfl
    rw [hjoin, List.append_nil]
    rfl

/-- A text with a word in it is more than blanks. -/
theorem Spells.cut_ne_nil (h : Spells text words) (hs : Split words) (hne : filled words ≠ []) :
    Cut.cut isSlash isBlank true text ≠ [] := by
  obtain ⟨w, ws, hw⟩ := List.exists_cons_of_ne_nil hne
  have hmem : w ∈ filled words := by rw [hw]; exact List.mem_cons_self
  obtain ⟨hmem, hfill⟩ := List.mem_filter.1 hmem
  obtain ⟨c, hc⟩ := List.exists_mem_of_ne_nil w (by simpa using hfill)
  apply Cut.cut_true_ne_nil
  refine ⟨c, ?_, isBlank_of_not_sep (hs w hmem c hc)⟩
  cases h with
  | joined => exact List.mem_flatMap.2 ⟨w, hmem, List.mem_cons_of_mem ' ' hc⟩
  | single =>
    obtain rfl : w = text := by simpa using hmem
    exact hc

theorem filled_filled (words : List CStr) : filled (filled words) = filled words := by
  simp [filled]

theorem split_filled (h : Split words) : Split (filled words) :=
  fun w hw => h w (List.mem_of_mem_filter hw)

theorem squeeze_slash (user message : CStr) : Cut.squeeze isSlash isBlank true (user ++ '/' :: message) =
    Cut.squeeze isSlash isBlank true user ++ '/' :: Cut.squeeze isSlash isBlank true message := by
  rw [Cut.squeeze_append]
  congr 1
  cases Cut.skips isSlash isBlank true user <;> rfl

theorem skips_slash (user message : CStr) :
    behindSlash true (user ++ '/' :: message) = behindSlash true message := by
  rw [behindSlash, Cut.skips_append]
  cases Cut.skips isSlash isBlank true user <;> rfl

/-- The text of a line: what is behind its first slash, without the blanks behind slashes, and
    without a slash at its end. -/
theorem lineText_squeeze (hid : ∀ c ∈ id, isSlash c = false) (user : CStr)
    (hne : Cut.cut isSlash isBlank true message ≠ []) : lineText (mkLine id user message) =
      if behindSlash true message then
        (Cut.squeeze isSlash isBlank true user ++ '/' :: Cut.squeeze isSlash isBlank true message).dropLast
      else Cut.squeeze isSlash isBlank true user ++ '/' :: Cut.squeeze isSlash isBlank true message := by
  have hsep : ∀ c, isSlash c = true → c = '/' := fun c hc => by simpa [isSlash] using hc
  have hjoin := (Cut.intercalate_cut hsep true (user ++ '/' :: message) : ['/'].intercalate (Cut.cut isSlash isBlank true _) = _)
  have htwo : 2 ≤ (Cut.cut isSlash isBlank true (user ++ '/' :: message)).length :=
    Cut.two_le_length_cut rfl rfl hne true user
  have htok : tokensOf (mkLine id user message) = id :: Cut.cut isSlash isBlank true (user ++ '/' :: message) := by
    rw [tokensOf, mkLine, List.append_assoc, List.cons_append, Cut.cut_false_append hid (by decide)]
  have hskip : Cut.skips isSlash isBlank true (user ++ '/' :: message) = behindSlash true message :=
    skips_slash user message
  rw [hskip, squeeze_slash] at hjoin
  rw [lineText, htok, ← hjoin]
  rcases hcut : Cut.cut isSlash isBlank true (user ++ '/' :: message) with _ | ⟨p, _ | ⟨q, ps⟩⟩
  · rw [hcut] at htwo; simp at htwo
  · rw [hcut] at htwo; simp at htwo
  · rw [assembleLine_eq id p (List.cons_ne_nil q ps), List.intercalate_cons_cons]
    simp

/-- **The two lines read the same** exactly when no lost word is seen. -/
theorem lineText_eq_iff (hid : ∀ c ∈ id, isSlash c = false) (hu : Split userWords) (hm : Split words)
    (huser : Spells user userWords) (huser' : Spells user' (filled userWords))
    (hmessage : Spells message words) (hmessage' : Spells message' (filled words)) (hne : filled words ≠ []) :
    lineText (mkLine id user message) = lineText (mkLine id user' message') ↔
      EmptyUnseen true userWords ∧ EmptyUnseen true words := by
  have lu := lost hu true
  have lm := lost hm true
  have hne' := hmessage'.cut_ne_nil (split_filled hm) (by rwa [filled_filled])
  rw [lineText_squeeze hid user (hmessage.cut_ne_nil hm hne), lineText_squeeze hid user' hne',
    huser.squeeze, huser'.squeeze, hmessage.squeeze, hmessage'.squeeze, hmessage.behindSlash,
    hmessage'.behindSlash, lm.behind]
  constructor
  · intro h
    have hlen : (Cut.squeeze isSlash isBlank true (joinWords userWords)).length +
        (Cut.squeeze isSlash isBlank true (joinWords words)).length =
        (Cut.squeeze isSlash isBlank true (joinWords (filled userWords))).length +
        (Cut.squeeze isSlash isBlank true (joinWords (filled words))).length := by
      have h := congrArg List.length h
      split at h
      · simp only [List.length_dropLast, List.length_append, List.length_cons] at h
        omega
      · simp only [List.length_append, List.length_cons] at h
        omega
    have hle := lu.shorter
    have hle' := lm.shorter
    exact ⟨lu.seen (by omega), lm.seen (by omega)⟩
  · rintro ⟨hu, hm⟩
    rw [lu.unseen hu, lm.unseen hm]

end

/-! The requests at a peer. -/

section
variable {user message nmbr : CStr} {words : List CStr}

theorem commandOf_snoc {s : CStr} (h : NUL ∉ s ++ [' ']) : commandOf (s ++ [' ']) = wordsOf s := by
  rw [commandOf_eq h, List.dropLast_concat]

/-- The words of a PRECOMMIT, whatever the name. -/
theorem commandOf_precommitRequest (hrec : Received (precommitRequest user)) :
    commandOf (precommitRequest user) = "precommit".toList :: Cut.cut isWordSep isBlank true user := by
  have hpre : "precommit ".toList = "precommit".toList ++ [' '] := by decide
  have hline : precommitRequest user = ("precommit".toList ++ ' ' :: user) ++ [' '] := by
    unfold precommitRequest
    rw [hpre]
    generalize "precommit".toList = w
    simp
  have hnul := hrec.no_nul
  rw [hline] at hnul ⊢
  rw [commandOf_snoc hnul, wordsOf, Cut.cut_false_append (no_sep_of_all (by decide)) (by decide)]

theorem commandOf_precommit (hrec : Received (precommitRequest user)) (h : Spells user words)
    (hs : Split words) : commandOf (precommitRequest user) = "precommit".toList :: filled words := by
  rw [commandOf_precommitRequest hrec, h.cut hs]

/-- The words of a COMMIT of a WRITE, whatever the message. -/
theorem commandOf_commitWriteRequest (hrec : Received (commitWriteRequest nmbr message)) (hn : nmbr ≠ [])
    (hsep : ∀ c ∈ nmbr, isWordSep c = false) : commandOf (commitWriteRequest nmbr message) =
      "commit".toList :: "write".toList :: nmbr :: Cut.cut isWordSep isBlank true message := by
  have hpre : "commit write ".toList = "commit".toList ++ ' ' :: ("write".toList ++ [' ']) := by decide
  have hline : commitWriteRequest nmbr message =
      ("commit".toList ++ ' ' :: ("write".toList ++ ' ' :: (nmbr ++ ' ' :: message))) ++ [' '] := by
    unfold commitWriteRequest
    rw [hpre]
    generalize "commit".toList = w
    generalize "write".toList = v
    simp
  have hnul := hrec.no_nul
  rw [hline] at hnul ⊢
  have hcommit : ∀ c ∈ "commit".toList, isWordSep c = false := no_sep_of_all (by decide)
  have hwrite : ∀ c ∈ "write".toList, isWordSep c = false := no_sep_of_all (by decide)
  rw [commandOf_snoc hnul, wordsOf, Cut.cut_false_append hcommit (by decide),
    cut_word hwrite (by decide), Cut.cut_false_append hwrite (by decide), cut_word hsep hn,
    Cut.cut_false_append hsep (by decide)]

theorem commandOf_commit (hrec : Received (commitWriteRequest nmbr message)) (hn : nmbr ≠ [])
    (hsep : ∀ c ∈ nmbr, isWordSep c = false) (h : Spells message words) (hs : Split words) :
    commandOf (commitWriteRequest nmbr message) = "commit".toList :: "write".toList :: nmbr :: filled words := by
  rw [commandOf_commitWriteRequest hrec hn hsep, h.cut hs]

theorem request_precommit {p : Peer} {junk : List Char} {line : CStr} {rest : List CStr}
    (h : commandOf line = "precommit".toList :: rest) : p.request junk line =
      if (commandOf line).length ≥ 2 then ({ p with user := textFrom 1 (commandOf line) }, some .positive)
      else ({ p with pc := .closed }, some .negative) := by
  apply Peer.request_of_precommit
  rw [h, List.getD_cons_zero]
  decide

theorem request_commit {p : Peer} {junk : List Char} {line : CStr} {rest : List CStr}
    (h : commandOf line = "commit".toList :: rest) : p.request junk line = p.commit junk (commandOf line) := by
  apply Peer.request_of_commit
  rw [h, List.getD_cons_zero]
  decide

/-- A PRECOMMIT that is answered `positive` leaves the words of the user at the peer. -/
theorem run_precommit {p p' : Peer} {junk : Junk} {d d' : Disk} (hrec : Received (precommitRequest user))
    (h : Spells user words) (hs : Split words) (hpc : p.pc = .ready)
    (hrun : p.run junk (precommitRequest user) d = some (p', some .positive, d')) :
    p'.pc = .ready ∧ Spells p'.user (filled words) ∧ d' = d := by
  have hcommand := commandOf_precommit hrec h hs
  rw [Peer.run, request_precommit hcommand] at hrun
  by_cases hlen : (commandOf (precommitRequest user)).length ≥ 2
  · have hspell : Spells (textFrom 1 (commandOf (precommitRequest user)))
        ((commandOf (precommitRequest user)).drop 1) := spells_textFrom hlen
    rw [if_pos hlen] at hrun
    dsimp only at hrun
    have hdone : ({ p with user := textFrom 1 (commandOf (precommitRequest user)) } : Peer).pc = .ready := hpc
    rw [Peer.finish_done (Or.inl hdone)] at hrun
    simp only [Option.some.injEq, Prod.mk.injEq] at hrun
    obtain ⟨rfl, -, rfl⟩ := hrun
    refine ⟨hpc, ?_, rfl⟩
    rw [hcommand] at hspell ⊢
    exact hspell
  · rw [if_neg hlen] at hrun
    dsimp only at hrun
    rw [Peer.finish_done (Or.inr rfl)] at hrun
    simp at hrun

/-- The file operations of a COMMIT of a WRITE that is answered `positive`. -/
theorem finish_write {p p' : Peer} {junk : Junk} {d d' : Disk}
    (hrun : Peer.finish junk 4 ({ p with pc := .writeCheck nmbr message }, none, d) = some (p', some .positive, d')) :
    d'.bbfile = d.bbfile ++ fileOf [mkLine nmbr p.user message] := by
  rw [Peer.finish_writeCheck] at hrun
  obtain ⟨⟨⟨read_return, text⟩, d₁⟩, hread, hend⟩ := Option.map_eq_some_iff.1 hrun
  have hd₁ : d₁.bbfile = d.bbfile := by rw [readDescriptor_disk hread, openFile_bbfile]
  rcases hwrite : writeDescriptor nmbr p.user message d₁ with ⟨write_return, d₂⟩
  dsimp only at hend
  rw [hwrite] at hend
  split at hend
  · dsimp only at hend
    split at hend
    · next hw =>
      simp only [Prod.mk.injEq] at hend
      obtain ⟨-, -, rfl⟩ := hend
      subst hw
      rw [writeDescriptor_zero hwrite, hd₁]
    · simp at hend
  · simp at hend

/-- A COMMIT of a WRITE that is answered `positive` has put a line on file. -/
theorem run_commit_write {p p' : Peer} {junk : Junk} {d d' : Disk}
    (hrec : Received (commitWriteRequest nmbr message)) (hn : nmbr ≠ [])
    (hsep : ∀ c ∈ nmbr, isWordSep c = false) (h : Spells message words) (hs : Split words)
    (hrun : p.run junk (commitWriteRequest nmbr message) d = some (p', some .positive, d')) :
    filled words ≠ [] ∧ ∃ message', Spells message' (filled words) ∧
      d'.bbfile = d.bbfile ++ fileOf [mkLine nmbr p.user message'] := by
  have hcommand := commandOf_commit hrec hn hsep h hs
  rw [Peer.run, request_commit hcommand, Peer.commit, hcommand] at hrun
  have hlen : ("commit".toList :: "write".toList :: nmbr :: filled words).length > 1 := by simp
  have hkind : ("commit".toList :: "write".toList :: nmbr :: filled words).getD 1 [] = "write".toList := rfl
  rw [if_pos hlen, hkind, if_pos rfl] at hrun
  by_cases hne : filled words = []
  · rw [hne, if_neg (by simp)] at hrun
    dsimp only at hrun
    rw [Peer.finish_done (Or.inr rfl)] at hrun
    simp at hrun
  · have hpos := List.length_pos_of_ne_nil hne
    refine ⟨hne, textFrom 3 ("commit".toList :: "write".toList :: nmbr :: filled words), ?_, ?_⟩
    · exact spells_textFrom (i := 3) (by simpa using hpos)
    · rw [if_pos (by simpa using hpos)] at hrun
      exact finish_write hrun

end

/-! The coordinator and its peers. -/

/-- A client session with the words of its name: the name it starts with, or what a USER line
    set. -/
inductive Named : Client → List CStr → Prop where
  | nobody : Named Client.start ["nobody".toList]
  | user {line : CStr} {client : Client} : Received line → 1 < (commandOf line).length →
      Named (userCommand (commandOf line) client).1 ((commandOf line).drop 1)

/-- A peer: the session that takes the requests, its board, and its disk. -/
structure Replica where
  junk : Junk
  session : Peer
  board : Board
  disk : Disk
  ready : session.pc = .ready
  file : disk.bbfile = board.bytes

/-- The PRECOMMIT and the COMMIT of a WRITE at a peer: its replies, and its disk after them. -/
def Replica.commitWrite (r : Replica) (poster msg_nmbr message : CStr) :
    Option (Option PeerReply × Option PeerReply × Disk) :=
  (r.session.run r.junk (precommitRequest poster) r.disk).bind fun (session, precommit, d) =>
    (session.run r.junk (commitWriteRequest msg_nmbr message) d).map fun (_, commit, d) => (precommit, commit, d)

/-- A read of the number gives the same on the two files. -/
def SameText (msg_nmbr : CStr) (file file' : List Char) : Prop :=
  ∀ junk, (readDescriptor junk msg_nmbr (diskOf file')).map Prod.fst =
    (readDescriptor junk msg_nmbr (diskOf file)).map Prod.fst

section
variable {client : Client} {userWords : List CStr}

theorem Named.spells (h : Named client userWords) : Spells client.user userWords := by
  cases h with
  | nobody => exact .single _
  | @user line client _ hlen =>
    have huser : (userCommand (commandOf line) client).1.user = joinWords ((commandOf line).drop 1) := by
      rw [userCommand, if_pos hlen]
      dsimp only
      split <;> rfl
    rw [huser]
    exact .joined _

theorem Named.split (h : Named client userWords) : Split userWords := by
  cases h with
  | nobody =>
    intro w hw
    obtain rfl : w = "nobody".toList := by simpa using hw
    exact no_sep_of_all (by decide)
  | user hline _ => exact fun w hw => (hline.words w (List.mem_of_mem_drop hw)).2

/-- The answer to a read of the line that was written last, under a number no other line has. -/
theorem readDescriptor_written {ls : List CStr} {nmbr user message : CStr} (hc : ∀ l ∈ ls, Clean l)
    (hfree : lineOf nmbr ls = none) (hk : ∀ c ∈ nmbr, isSlash c = false) (hl : Clean (mkLine nmbr user message))
    (junk : List Char) :
    (readDescriptor junk nmbr (diskOf (fileOf (ls ++ [mkLine nmbr user message])))).map Prod.fst =
      some (((lineText (mkLine nmbr user message)).length : Int), some (lineText (mkLine nmbr user message))) := by
  have hfirst : firstField (mkLine nmbr user message) = nmbr := firstField_mkLine hk
  have hline : lineOf nmbr (ls ++ [mkLine nmbr user message]) = some (mkLine nmbr user message) := by
    rw [lineOf_append, hfree, Option.none_or]
    simp [lineOf, hfirst]
  have hread := readDescriptor_diskOf rfl (clean_snoc hc hl) junk nmbr
  rw [hread, hline]
  rfl

theorem sameText_iff {ls ls' : List CStr} {nmbr user user' message message' : CStr} (hc : ∀ l ∈ ls, Clean l)
    (hc' : ∀ l ∈ ls', Clean l) (hfree : lineOf nmbr ls = none) (hfree' : lineOf nmbr ls' = none)
    (hk : ∀ c ∈ nmbr, isSlash c = false) (hl : Clean (mkLine nmbr user message))
    (hl' : Clean (mkLine nmbr user' message')) :
    SameText nmbr (fileOf (ls ++ [mkLine nmbr user message])) (fileOf (ls' ++ [mkLine nmbr user' message'])) ↔
      lineText (mkLine nmbr user message) = lineText (mkLine nmbr user' message') := by
  constructor
  · intro h
    have h := h []
    rw [readDescriptor_written hc hfree hk hl, readDescriptor_written hc' hfree' hk hl'] at h
    simp only [Option.some.injEq, Prod.mk.injEq] at h
    exact h.2.symm
  · intro h junk
    rw [readDescriptor_written hc hfree hk hl, readDescriptor_written hc' hfree' hk hl', h]

end

/-! What the texts take. -/

section
variable {text text' : CStr} {words : List CStr}

theorem Spells.unbroken (h : Spells text words) (hw : ∀ w ∈ words, Unbroken w) : Unbroken text := by
  cases h with
  | joined => exact Unbroken.joinWords hw
  | single => exact hw text (by simp)

theorem Spells.words_unbroken (h : Spells text words) (ht : Unbroken text) : ∀ w ∈ words, Unbroken w := by
  intro w hw
  have hmem : ∀ c ∈ w, c ∈ text := by
    intro c hc
    cases h with
    | joined => exact List.mem_flatMap.2 ⟨w, hw, List.mem_cons_of_mem ' ' hc⟩
    | single =>
      obtain rfl : w = text := by simpa using hw
      exact hc
  exact ht.of_subset hmem

theorem Spells.length_le (h : Spells text words) : text.length ≤ room words := by
  cases h with
  | joined => exact (joinWords_length words).le
  | single => simp [room]

theorem Spells.room_le (h : Spells text words) : room words ≤ text.length + 1 := by
  cases h with
  | joined => rw [joinWords_length]; exact Nat.le_succ _
  | single => simp [room]

/-- The peer's text is a text of the line as well, and hardly longer. -/
theorem Spells.peer (h : Spells text words) (h' : Spells text' (filled words)) (ht : Unbroken text) :
    Unbroken text' ∧ text'.length ≤ text.length + 1 := by
  constructor
  · exact h'.unbroken fun w hw => h.words_unbroken ht w (List.mem_of_mem_filter hw)
  · exact (h'.length_le.trans (room_le_of_sublist List.filter_sublist)).trans h.room_le

theorem Received.of_precommit {user : CStr} (h : Received (precommitRequest user)) :
    Unbroken user ∧ user.length + 11 ≤ MAX_LEN := by
  have hlen : (precommitRequest user).length = user.length + 11 := by
    unfold precommitRequest
    generalize hw : "precommit ".toList = w
    have hten : w.length = 10 := by rw [← hw]; decide
    simp only [List.length_append, List.length_singleton, hten]
    omega
  have huser := h.toUnbroken.of_subset fun c (hc : c ∈ user) => List.mem_append_left _ (List.mem_append_right _ hc)
  exact ⟨huser, hlen.symm.le.trans h.length_le⟩

/-- A number and a text in a request, with a blank at its end. -/
theorem Received.of_parts {pre nmbr message : CStr} {c : Char} (h : Received (pre ++ nmbr ++ c :: message ++ [' '])) :
    Unbroken nmbr ∧ Unbroken message ∧ pre.length + nmbr.length + message.length + 2 ≤ MAX_LEN := by
  have hlen := h.length_le
  simp only [List.length_append, List.length_cons, List.length_nil] at hlen
  refine ⟨h.toUnbroken.of_subset fun x hx => ?_, h.toUnbroken.of_subset fun x hx => ?_, by omega⟩
  · exact List.mem_append_left _ (List.mem_append_left _ (List.mem_append_right _ hx))
  · exact List.mem_append_left _ (List.mem_append_right _ (List.mem_cons_of_mem _ hx))

theorem Received.of_commit_write {nmbr message : CStr} (h : Received (commitWriteRequest nmbr message)) :
    Unbroken nmbr ∧ Unbroken message ∧ nmbr.length + message.length + 15 ≤ MAX_LEN := by
  obtain ⟨hnmbr, hmessage, hlen⟩ := Received.of_parts h
  have hthirteen : "commit write ".toList.length = 13 := by decide
  exact ⟨hnmbr, hmessage, by omega⟩

end

/-! The theorem. -/

section
variable {client : Client} {userWords : List CStr} {line : CStr} {num : Int}

theorem showInt_ne_nil (n : Int) : showInt n ≠ [] := by
  unfold showInt
  split
  · exact List.cons_ne_nil _ _
  · exact Nat.toDigits_ne_nil

theorem showInt_no_sep (n : Int) : ∀ c ∈ showInt n, isWordSep c = false := by
  intro c hc
  rcases showInt_chars hc with rfl | hd
  · rfl
  · exact digit_no_sep hd

/-- Positive replies to both requests: the peer's line. -/
theorem Replica.commitWrite_positive {r : Replica} {poster message : CStr} {words : List CStr} {nmbr : CStr}
    {d : Disk} (hpre : Received (precommitRequest poster)) (hcommit : Received (commitWriteRequest nmbr message))
    (hn : nmbr ≠ []) (hsep : ∀ c ∈ nmbr, isWordSep c = false) (hposter : Spells poster userWords)
    (hu : Split userWords) (hmessage : Spells message words) (hm : Split words)
    (h : r.commitWrite poster nmbr message = some (some .positive, some .positive, d)) :
    filled words ≠ [] ∧ ∃ user' message', Spells user' (filled userWords) ∧ Spells message' (filled words) ∧
      d.bbfile = r.board.bytes ++ fileOf [mkLine nmbr user' message'] := by
  obtain ⟨⟨session, precommit, d₁⟩, hrun, h⟩ := Option.bind_eq_some_iff.1 h
  obtain ⟨⟨session', commit, d₂⟩, hrun', hreplies⟩ := Option.map_eq_some_iff.1 h
  simp only [Prod.mk.injEq] at hreplies
  obtain ⟨rfl, rfl, rfl⟩ := hreplies
  obtain ⟨-, huser', rfl⟩ := run_precommit hpre hposter hu r.ready hrun
  obtain ⟨hne, message', hmessage', hfile⟩ := run_commit_write hcommit hn hsep hmessage hm hrun'
  exact ⟨hne, session.user, message', huser', hmessage', by rw [hfile, r.file]⟩

/-- A local write that returns 0 has put its line last. -/
theorem syncWriteAlone_zero {junk : Junk} {nmbr poster message : CStr} {d d' : Disk}
    (h : syncWriteAlone junk nmbr poster message d = some (0, d')) :
    d'.bbfile = d.bbfile ++ fileOf [mkLine nmbr poster message] := by
  rw [syncWriteAlone] at h
  rcases hwrite : writeDescriptor nmbr poster message d with ⟨write_return, d₁⟩
  rw [hwrite] at h
  dsimp only at h
  by_cases hw : write_return < 0
  · rw [if_pos hw] at h
    simp at h
  · rw [if_neg hw] at h
    have hzero : write_return = 0 := by
      have hret := writeDescriptor_return nmbr poster message d
      rw [hwrite] at hret
      exact hret.resolve_right hw
    subst hzero
    split at h
    · cases h
    · next hread =>
      simp only [Option.some.injEq, Prod.mk.injEq] at h
      rw [← h.2, readDescriptor_disk hread, openFile_bbfile, writeDescriptor_zero hwrite]

/-- **A WRITE at the coordinator and its peers.** When every peer has answered `positive` to both
    requests and the local write has returned 0, a read of the number gives the same text on
    all of them if and only if every empty word of the USER and the WRITE line stands
    where a read drops blanks. -/
theorem write_replicated_iff {b : Board} {peers : List Replica} {after : Replica → Disk} {d d' : Disk} {junk : Junk}
    (hclient : Named client userWords) (hline : Received line) (hlen : 1 < (commandOf line).length)
    (hpre : Received (precommitRequest client.user))
    (hcommit : Received (commitWriteRequest (showInt num) (textFrom 1 (commandOf line))))
    (hfree : lineOf (showInt num) b.texts = none)
    (hfree' : ∀ r ∈ peers, lineOf (showInt num) r.board.texts = none) (hd : d.bbfile = b.bytes)
    (hvotes : ∀ r ∈ peers, r.commitWrite client.user (showInt num) (textFrom 1 (commandOf line)) =
      some (some .positive, some .positive, after r))
    (hsync : syncWriteAlone junk (showInt num) client.user (textFrom 1 (commandOf line)) d = some (0, d')) :
    (∀ r ∈ peers, SameText (showInt num) d'.bbfile (after r).bbfile) ↔
      peers = [] ∨ EmptyUnseen true userWords ∧ EmptyUnseen true ((commandOf line).drop 1) := by
  have hu := hclient.split
  have hm : Split ((commandOf line).drop 1) := fun w hw => (hline.words w (List.mem_of_mem_drop hw)).2
  have hmessage := spells_textFrom hlen
  obtain ⟨huser, hulen⟩ := hpre.of_precommit
  obtain ⟨hnmbr, htext, hmlen⟩ := hcommit.of_commit_write
  have hroom : (showInt num).length + client.user.length + (textFrom 1 (commandOf line)).length + 4 < BBLINE_LEN := by
    unfold MAX_LEN at hulen hmlen
    unfold BBLINE_LEN
    omega
  have hclean := clean_mkLine hnmbr huser htext (by omega)
  have hpeer : ∀ r ∈ peers, (SameText (showInt num) d'.bbfile (after r).bbfile ↔
      EmptyUnseen true userWords ∧ EmptyUnseen true ((commandOf line).drop 1)) := by
    intro r hr
    obtain ⟨hne, user', message', huser', hmessage', hfile⟩ := Replica.commitWrite_positive hpre hcommit
      (showInt_ne_nil num) (showInt_no_sep num) hclient.spells hu hmessage hm (hvotes r hr)
    obtain ⟨hu', hulen'⟩ := hclient.spells.peer huser' huser
    obtain ⟨hm', hmlen'⟩ := hmessage.peer hmessage' htext
    have hclean' : Clean (mkLine (showInt num) user' message') := clean_mkLine hnmbr hu' hm' (by omega)
    have hbytes : ∀ (b : Board) (l : CStr), b.bytes ++ fileOf [l] = fileOf (b.texts ++ [l]) :=
      fun b l => (fileOf_append b.texts [l]).symm
    rw [syncWriteAlone_zero hsync, hd, hfile, hbytes, hbytes,
      sameText_iff b.texts_clean r.board.texts_clean hfree (hfree' r hr) (showInt_no_slash num) hclean hclean',
      lineText_eq_iff (showInt_no_slash num) hu hm hclient.spells huser' hmessage hmessage' hne]
  constructor
  · intro h
    by_cases hnil : peers = []
    · exact Or.inl hnil
    · obtain ⟨r, hr⟩ := List.exists_mem_of_ne_nil peers hnil
      exact Or.inr ((hpeer r hr).1 (h r hr))
  · rintro (rfl | h) r hr
    · cases hr
    · exact (hpeer r hr).2 h

end

/-! One peer with a board of one line. -/

def onePeerReplica : Replica where
  junk := ⟨[], []⟩
  session := ⟨.ready, "nobody".toList, [], [], [], []⟩
  board := oneLine
  disk := diskOf oneLine.bytes
  ready := rfl
  file := rfl

/-- The client after `USER al`. -/
def clientAl : Client := ⟨" al".toList, true⟩

theorem clientAl_named : Named clientAl ["al".toList] := by
  have hline : Received "USER al\r".toList := ⟨⟨by decide, by decide⟩, by decide⟩
  have hcommand : commandOf "USER al\r".toList = ["USER".toList, "al".toList] := by decide +kernel
  have h : Named (userCommand (commandOf "USER al\r".toList) Client.start).1
      ((commandOf "USER al\r".toList).drop 1) := Named.user hline (by rw [hcommand]; decide)
  rw [hcommand] at h
  exact h

/-- `WRITE x y` reads the same at both. -/
theorem write_replicated_two_words : ∃ d d',
    onePeerReplica.commitWrite clientAl.user (showInt 2) (textFrom 1 (commandOf "WRITE x y\r".toList)) =
        some (some .positive, some .positive, d) ∧
      syncWriteAlone ⟨[], []⟩ (showInt 2) clientAl.user (textFrom 1 (commandOf "WRITE x y\r".toList))
        (diskOf oneLine.bytes) = some (0, d') ∧ SameText (showInt 2) d'.bbfile d.bbfile := by
  let d := diskOf "1/u/m\n2/al/ x y\n".toList
  have hline : Received "WRITE x y\r".toList := ⟨⟨by decide, by decide⟩, by decide⟩
  have hcommand : commandOf "WRITE x y\r".toList = ["WRITE".toList, ['x'], ['y']] := by decide +kernel
  have hvote : onePeerReplica.commitWrite clientAl.user (showInt 2)
      (textFrom 1 (commandOf "WRITE x y\r".toList)) = some (some .positive, some .positive, d) := by decide +kernel
  have hsync : syncWriteAlone ⟨[], []⟩ (showInt 2) clientAl.user (textFrom 1 (commandOf "WRITE x y\r".toList))
      (diskOf oneLine.bytes) = some (0, diskOf "1/u/m\n2/ al/ x y\n".toList) := by decide +kernel
  have hcommit : Received (commitWriteRequest (showInt 2) (textFrom 1 (commandOf "WRITE x y\r".toList))) := by
    rw [hcommand]
    exact ⟨⟨by decide, by decide⟩, by decide⟩
  have hfree : lineOf (showInt 2) oneLine.texts = none := by decide
  have hone : ∀ r ∈ [onePeerReplica], r = onePeerReplica := by simp
  have hfree' : ∀ r ∈ [onePeerReplica], lineOf (showInt 2) r.board.texts = none := by
    intro r hr
    rw [hone r hr]
    exact hfree
  have hvotes : ∀ r ∈ [onePeerReplica], r.commitWrite clientAl.user (showInt 2)
      (textFrom 1 (commandOf "WRITE x y\r".toList)) = some (some .positive, some .positive, d) := by
    intro r hr
    rw [hone r hr]
    exact hvote
  have hsame := (write_replicated_iff clientAl_named hline (by rw [hcommand]; decide)
    ⟨⟨by decide, by decide⟩, by decide⟩ hcommit hfree hfree' rfl hvotes hsync).2
      (Or.inr ⟨by decide, by rw [hcommand]; decide⟩)
  exact ⟨d, _, hvote, hsync, hsame onePeerReplica (by simp)⟩

/-- `WRITE x==y` has an empty word between the others, which the peer's line has lost. -/
theorem write_not_replicated : ∃ d d',
    onePeerReplica.commitWrite clientAl.user (showInt 2) (textFrom 1 (commandOf "WRITE x==y\r".toList)) =
        some (some .positive, some .positive, d) ∧
      syncWriteAlone ⟨[], []⟩ (showInt 2) clientAl.user (textFrom 1 (commandOf "WRITE x==y\r".toList))
        (diskOf oneLine.bytes) = some (0, d') ∧ ¬ SameText (showInt 2) d'.bbfile d.bbfile := by
  refine ⟨diskOf "1/u/m\n2/al/ x y\n".toList, diskOf "1/u/m\n2/ al/ x  y\n".toList, by decide +kernel,
    by decide +kernel, fun h => ?_⟩
  exact absurd (h []) (by decide +kernel)

end BulletinBoard
