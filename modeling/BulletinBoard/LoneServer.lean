import BulletinBoard.Bulletin
import BulletinBoard.RequestLoop
import BulletinBoard.Housekeeping

/- A server without peers is a bulletin board. Its sessions take turns, each with one round of its
   request loop, from the bytes on its socket to the response; a restart housekeeps the file and
   makes a new generator. The file is a board, the board's posts are those of the bulletin
   board, and what every session gets tells the answer to what its client asked. -/
namespace BulletinBoard

/-! The source. -/

/-- A session between two rounds: its socket, its buffer and its client. -/
structure Session where
  ssock : Stream
  request : List Char
  client : Client

/-- A server without peers. A session that is over is `none`. -/
structure Lone where
  bbfile : List Char
  gen_on_queue : NumGen
  session : Nat → Option Session

/-- A server that starts: a session for each client that comes, with the client's lines before it. -/
def Lone.start (bbfile : List Char) (lines : Nat → Option (List CStr)) : Lone :=
  ⟨bbfile, ⟨[]⟩, fun i => (lines i).map fun ls => ⟨⟨fileOf ls, false⟩, [], Client.start⟩⟩

/-- One round of the request loop of a session, where every open succeeds; `none` when it writes
    outside of its buffer. -/
def Lone.round (junk : Junk) (i : Nat) (s : Lone) : Option (Option CStr × Lone) :=
  match s.session i with
  | none => some (none, s)
  | some session =>
    let (rc, request, ssock) := readline session.request MAX_LEN session.ssock
    if rc = recvNodata then
      some (some ('\n' :: byeResponse), { s with session := Function.update s.session i none })
    else
      let line := cstr request 0
      if line.length = 0 then none
      else
        let request := request.set (line.length - 1) NUL
        let command := strTokenize request (cstr request 0).length
        let quit := tolwr ((tokenStrings command).getD 0 []) = "quit".toList
        match serverOperations junk line session.client s.gen_on_queue (diskOf s.bbfile) with
        | none => none
        | some (response, client, g, d) =>
          some (some response, ⟨d.bbfile, g,
            Function.update s.session i (if quit then none else some ⟨ssock, command.1, client⟩)⟩)

/-- A round, a client that closes its connection or whose session the server shuts down, and a
    restart: housekeeping, a new generator and new sessions. -/
inductive LoneEvent where
  | round (junk : Junk) (i : Nat)
  | hangup (i : Nat)
  | restart (junk : List Char) (lines : Nat → Option (List CStr))

def Lone.event (s : Lone) : LoneEvent → Option (Option CStr × Lone)
  | .round junk i => s.round junk i
  | .hangup i => some (none, { s with
      session := Function.update s.session i ((s.session i).map fun x => { x with ssock := ⟨[], false⟩ }) })
  | .restart junk lines =>
    match housekeepDescriptor junk .succeed ⟨some s.bbfile, none⟩ with
    | none => none
    | some (_, files) => some (none, .start (files.source_file.getD []) lines)

def Lone.run (s : Lone) : List LoneEvent → Option (List (Option CStr) × Lone)
  | [] => some ([], s)
  | e :: es =>
    match s.event e with
    | none => none
    | some (response, s) => (s.run es).map fun r => (response :: r.1, r.2)

/-! What is shown. -/

/-- A client that goes by a name. -/
structure GoesBy (client : Client) (name : List CStr) : Prop where
  spells : Spells client.user name
  split : Split name
  ne_nil : ∀ w ∈ name, w ≠ []
  no_slash : ∀ w ∈ name, '/' ∉ w
  unbroken : ∀ w ∈ name, Unbroken w

/-- The board has the posts, and the generator the numbers. -/
structure Keeps (b : Board) (g : NumGen) (s : Bulletin) : Prop where
  posts : s.posts = b.post
  numbers : SequentialInv b.texts g.temp_list
  largest : maxNumber b.texts = s.largest
  given : g.count = s.given

/-- A session has its client's lines before it, and its client's name. -/
inductive SessionShows : Option Session → Option (List Ask) → List CStr → Prop where
  | ended {name : List CStr} : SessionShows none none name
  | running {lines : List CStr} {asks : List Ask} {request : List Char} {client : Client} {name : List CStr} :
      List.Forall₂ Says lines asks → GoesBy client name →
      SessionShows (some ⟨⟨fileOf lines, false⟩, request, client⟩) (some asks) name

/-- The server shows the board. -/
structure Lone.Shows (b : Board) (x : Lone) (s : Bulletin) : Prop where
  file : x.bbfile = b.bytes
  keeps : Keeps b x.gen_on_queue s
  sessions : ∀ i, SessionShows (x.session i) (s.asks i) (s.names i)

/-- What happens at the server and at the board. -/
inductive Matches : LoneEvent → Happening → Prop where
  | turn {junk : Junk} {i : Nat} : Matches (.round junk i) (.turn i)
  | hangup {i : Nat} : Matches (.hangup i) (.hangup i)
  | restart {junk : List Char} {lines : Nat → Option (List CStr)} {asks : Nat → Option (List Ask)} :
      (∀ i, Option.Rel (List.Forall₂ Says) (lines i) (asks i)) → Matches (.restart junk lines) (.restart asks)

/-- What a session gets, if anything, tells the answer. -/
inductive TellsAny : Option Answer → Option CStr → Prop where
  | none : TellsAny none none
  | some {answer : Answer} {response : CStr} : Tells answer response → TellsAny (some answer) (some response)

/-! Boards and their posts. -/

section
variable {b : Board} {nmbr : CStr}

theorem Board.post_eq_none : b.post nmbr = none ↔ nmbr ∉ liveIds b.lines := by
  rw [Board.post, Option.map_eq_none_iff, Board.toMap_eq_none]

/-- No line has the number of no post. -/
theorem Board.lineOf_of_no_post (h : b.post nmbr = none) (hb : BACKSPACE ∉ nmbr) : lineOf nmbr b.texts = none := by
  by_cases hn : IsNumeral nmbr
  · exact lineOf_texts_none hn (Board.post_eq_none.1 h)
  · exact Board.lineOf_eq_none hb hn

/-- The line of a post. -/
theorem Board.post_eq_some {post : Post} (h : b.post nmbr = some post) : ∃ l ∈ liveLines b.lines, l.id = nmbr ∧
    post = ⟨Words.words isBlank l.user, Words.words isBlank (readMessage l.message)⟩ := by
  have hlive : nmbr ∈ liveIds b.lines := by
    by_contra hc
    rw [Board.post_eq_none.2 hc] at h
    cases h
  obtain ⟨a, l, c, hls, rfl, ha, -⟩ := split_of_mem b.distinct hlive
  refine ⟨l, by simp [hls], rfl, ?_⟩
  rw [Board.post, Board.toMap_of_split hls ha] at h
  exact (Option.some.inj h).symm

theorem Board.post_append (b : Board) (l : LiveLine) (h : l.id ∉ liveIds b.lines) : (b.append l h).post =
    Function.update b.post l.id (some ⟨Words.words isBlank l.user, Words.words isBlank (readMessage l.message)⟩) := by
  funext x
  rw [Board.post, Board.toMap_append, Function.update_apply]
  by_cases hx : x = l.id
  · rw [if_pos hx, if_pos hx]
    rfl
  · rw [if_neg hx, if_neg hx]
    rfl

theorem Board.post_erase (b : Board) (nmbr : CStr) : (b.erase nmbr).post = Function.update b.post nmbr none := by
  funext x
  rw [Board.post, Board.toMap_erase, Function.update_apply]
  by_cases hx : x = nmbr
  · rw [if_pos hx, if_pos hx]
    rfl
  · rw [if_neg hx, if_neg hx]
    rfl

theorem Board.post_congr {b' : Board} (h : liveLines b'.lines = liveLines b.lines) : b'.post = b.post := by
  funext x
  rw [Board.post, Board.toMap_congr h, Board.post]

theorem Board.texts_erase_eq (h : nmbr ∈ liveIds b.lines) : (b.erase nmbr).texts = deleteIn nmbr b.texts := by
  obtain ⟨a, l, c, hls, rfl, ha, hc⟩ := split_of_mem b.distinct h
  have htexts : b.texts = a.map BoardLine.text ++ l.text :: c.map BoardLine.text := by
    rw [Board.texts, hls, List.map_append, List.map_cons]
    rfl
  rw [Board.texts_erase hls ha hc, htexts, deleteIn_append (without_of_not_mem l.ok.id_numeral ha) l.firstField]

end

/-! Names and lines. -/

section
variable {client : Client} {name words : List CStr} {nmbr message : CStr}

theorem GoesBy.nobody : GoesBy Client.start ["nobody".toList] where
  spells := .single _
  split := by
    intro w hw
    obtain rfl := List.mem_singleton.1 hw
    exact no_sep_of_all (by decide)
  ne_nil := by simp
  no_slash := by simp
  unbroken := by
    intro w hw
    obtain rfl := List.mem_singleton.1 hw
    exact ⟨by decide, by decide⟩

theorem GoesBy.words_eq (h : GoesBy client name) : Words.words isBlank client.user = name :=
  h.spells.words_eq h.split h.ne_nil

theorem GoesBy.user_no_slash (h : GoesBy client name) : '/' ∉ client.user := by
  intro hc
  rcases spells_chars h.spells hc with hc | ⟨w, hw, hc⟩
  · exact absurd hc (by decide)
  · exact h.no_slash w hw hc

/-- A message under a name makes a line when both have room in it. -/
theorem GoesBy.makesLine (h : GoesBy client name) (hn : IsNumeral nmbr) (hm : Unbroken message)
    (htext : ∃ c ∈ message, isBlank c = false) (hfits : nmbr.length + room name + message.length + 2 < MAX_LEN) :
    MakesLine nmbr client.user message where
  id_numeral := hn
  user_no_slash := h.user_no_slash
  message_text := htext
  no_nul := ((h.spells.unbroken h.unbroken).append hm).no_nul
  no_newline := ((h.spells.unbroken h.unbroken).append hm).no_newline
  length_lt := by
    have hle := h.spells.length_le
    simp only [mkLine, List.append_assoc, List.cons_append, List.length_append, List.length_cons]
    omega

/-- A text of some words is more than blanks. -/
theorem exists_not_blank (h : Words.words isBlank message = words) (hne : words ≠ []) :
    ∃ c ∈ message, isBlank c = false := by
  obtain ⟨w, hw⟩ := List.exists_mem_of_ne_nil words hne
  rw [← h] at hw
  obtain ⟨c, hc⟩ := List.exists_mem_of_ne_nil w (Words.ne_nil_of_mem_words hw)
  exact ⟨c, Words.mem_words hw hc⟩

end

/-! One request. -/

section
variable {b : Board} {g : NumGen} {s : Bulletin} {i : Nat} {client : Client} {name : List CStr}
  {line command nmbr w : CStr} {words ws : List CStr}

/-- The next number is on no line. -/
theorem Keeps.next_free (h : Keeps b g s) (hroom : (s.largest : Int) < INT_MAX) : s.next ∉ liveIds b.lines := by
  intro hm
  obtain ⟨l, hl, hid⟩ := List.mem_map.1 hm
  have hatoi : atoi (firstField l.text) = s.largest + 1 := by
    rw [l.firstField, hid, Bulletin.next, atoi_showInt (by omega) (by omega)]
  obtain ⟨x, hx, hlive⟩ := List.mem_filterMap.1 hl
  have hmem : l.text ∈ b.texts := by
    cases x with
    | deleted n pos lt => cases hlive
    | live l' =>
      obtain rfl := Option.some.inj hlive
      exact List.mem_map.2 ⟨.live l', hx, rfl⟩
  have hle := le_maxNumber (⟨l.text, hmem, hatoi⟩ : OnFile b.texts (s.largest + 1))
  rw [h.largest] at hle
  omega

theorem Keeps.next_numeral : IsNumeral s.next := showInt_isNumeral (by omega)

/-- READ. -/
theorem Keeps.read (h : Keeps b g s) (hb : BACKSPACE ∉ nmbr) (junk : List Char) (command : CStr) :
    ∃ response, readCommand junk [command, nmbr] (diskOf b.bytes) = some (response, diskOf b.bytes) ∧
      Tells (s.answer i (.read nmbr)).1 response := by
  have htwo : [command, nmbr].length = 2 := rfl
  have hget : [command, nmbr].getD 1 [] = nmbr := rfl
  rw [readCommand, if_pos htwo, hget, Bulletin.answer, h.posts]
  dsimp only
  cases hpost : b.post nmbr with
  | none =>
    have hread := readDescriptor_diskOf rfl b.texts_clean junk nmbr
    rw [Board.lineOf_of_no_post hpost hb] at hread
    exact ⟨notFoundResponse nmbr, by rw [Board.bytes, hread]; rfl, .notFound⟩
  | some post =>
    obtain ⟨l, hl, rfl, rfl⟩ := Board.post_eq_some hpost
    have hread := readDescriptor_diskOf rfl b.texts_clean junk l.id
    rw [Board.lineOf_live hl] at hread
    refine ⟨messageResponse l.id (lineText l.text), ?_, ?_⟩
    · rw [Board.bytes, hread]
      dsimp only [readAnswer]
      rw [if_pos (by omega)]
      rfl
    · rw [l.lineText]
      have hslash : '/' ∉ l.user.dropWhile isBlank := fun hm =>
        l.ok.user_no_slash (List.dropWhile_sublist _ |>.subset hm)
      exact .message hslash (Words.words_dropWhile l.user) rfl

/-- WRITE. -/
theorem Keeps.write (h : Keeps b g s) (hname : GoesBy client (s.names i)) (hs : Split words)
    (hne : ∀ w ∈ words, w ≠ []) (hu : ∀ w ∈ words, Unbroken w) (hwords : words ≠ [])
    (hlast : ∀ w ∈ words, w.getLast? ≠ some '/') (hfits : Ask.Fits s i (.write words)) (junk : Junk) (command : CStr) :
    ∃ b' g', writeCommand junk (command :: words) client g (diskOf b.bytes) =
        some (wroteResponse s.next, g', diskOf b'.bytes) ∧
      Keeps b' g' (s.answer i (.write words)).2 ∧ b'.bytes.length ≤ b.bytes.length + MAX_LEN := by
  obtain ⟨hgiven, hroom, hfits⟩ := hfits
  have hlen : (command :: words).length ≥ 2 := by
    have := List.length_pos_of_ne_nil hwords
    rw [List.length_cons]
    omega
  -- the message
  obtain ⟨message, hmessage⟩ : ∃ m, m = textFrom 1 (command :: words) := ⟨_, rfl⟩
  have hspell : Spells message words := by
    have hspell := spells_textFrom hlen
    rwa [← hmessage] at hspell
  have hmwords := hspell.words_eq hs hne
  have htext := exists_not_blank hmwords hwords
  have hle := hspell.length_le
  have hline := hname.makesLine Keeps.next_numeral (hspell.unbroken hu) htext (by omega : s.next.length + _ + _ + 2 < _)
  obtain ⟨l, hl⟩ : ∃ l : LiveLine, l = ⟨s.next, client.user, message, hline⟩ := ⟨_, rfl⟩
  have hid : l.id = s.next := congrArg LiveLine.id hl
  have huser : l.user = client.user := congrArg LiveLine.user hl
  have hmsg : l.message = message := congrArg LiveLine.message hl
  have hfree : l.id ∉ liveIds b.lines := hid ▸ h.next_free hroom
  -- the number
  obtain ⟨x, hx, hgen⟩ := h.numbers.generate junk.line rfl (openFile_diskOf b.bytes)
  have hnext : showInt (maxNumber b.texts + 1) = s.next := by rw [h.largest, Bulletin.next]
  obtain ⟨hsync, -⟩ := syncWriteAlone_board junk (lineOf_texts_none Keeps.next_numeral (h.next_free hroom))
    (isNumeral_no_slash Keeps.next_numeral) hline.clean
  have hbytes : fileOf (b.texts ++ [mkLine s.next client.user message]) = (b.append l hfree).bytes := by
    rw [Board.bytes, Board.texts_append, LiveLine.text, hid, huser, hmsg]
  rw [hbytes] at hsync
  have hatoi : atoi (firstField l.text) = maxNumber b.texts + 1 := by
    rw [l.firstField, hid, Bulletin.next, atoi_showInt (by omega) (by omega), h.largest]
  refine ⟨b.append l hfree, ⟨g.temp_list ++ [x]⟩, ?_, ?_, ?_⟩
  · rw [writeCommand, if_pos hlen, ← hmessage]
    dsimp only
    rw [hgen]
    dsimp only
    rw [hnext, hsync]
    dsimp only
    rw [if_pos ⟨rfl, by have := maxNumber_nonneg b.texts; omega⟩]
  · refine ⟨?_, ?_, ?_, ?_⟩
    · rw [Board.post_append, hid, huser, hmsg, hname.words_eq, words_readMessage (by rwa [hmwords]) htext, hmwords,
        ← h.posts]
      rfl
    · rw [Board.texts_append]
      have hfield : firstField l.text = showInt (maxNumber b.texts + 1) := by rw [l.firstField, hid, hnext]
      have hint : IsNumeral (firstField l.text) → (numeralValue (firstField l.text) : Int) ≤ INT_MAX := by
        intro _
        have hcast : ((s.largest + 1 : Nat) : Int) = (s.largest : Int) + 1 := rfl
        rw [l.firstField, hid, Bulletin.next, ← hcast, numeralValue_showInt]
        omega
      exact h.numbers.append_number (.above hx) (.inl rfl) l.clean hfield hint
    · rw [Board.texts_append, maxNumber_append, hatoi, h.largest]
      show max (s.largest : Int) (s.largest + 1) = ((s.largest + 1 : Nat) : Int)
      omega
    · show (g.temp_list ++ [x]).length = s.given + 1
      rw [List.length_append, List.length_singleton, ← h.given]
      rfl
  · rw [← hbytes, fileOf_append, List.length_append, ← Board.bytes]
    have hlt := hline.length_lt
    simp only [fileOf_cons, fileOf_nil, List.length_append, List.length_cons, List.length_nil]
    omega

/-- The largest number stays where it is when the line with a number is replaced. -/
theorem maxNumber_replace {ls : List CStr} {l : CStr} (hlive : lineOf (firstField l) ls ≠ none) :
    maxNumber (deleteIn (firstField l) ls ++ [l]) = maxNumber ls := by
  obtain ⟨old, hold⟩ := Option.ne_none_iff_exists'.1 hlive
  obtain ⟨hmem, hfield⟩ := lineOf_some hold
  have hatoi : atoi (firstField l) ≤ maxNumber ls := le_maxNumber ⟨old, hmem, by rw [hfield]⟩
  apply le_antisymm
  · rw [maxNumber_append]
    apply max_le _ hatoi
    rcases maxNumber_attained (deleteIn (firstField l) ls) with ⟨x, hx, hxm⟩ | hzero
    · rw [← hxm]
      rcases mem_of_mem_deleteIn hx with hx | ⟨n, rfl⟩
      · exact le_maxNumber ⟨x, hx, rfl⟩
      · rw [atoi_deletedLine]
        exact maxNumber_nonneg ls
    · rw [hzero]
      exact maxNumber_nonneg ls
  · rcases maxNumber_attained ls with ⟨x, hx, hxm⟩ | hzero
    · rw [← hxm]
      by_cases hk : firstField x = firstField l
      · exact le_maxNumber ⟨l, by simp, by rw [hk]⟩
      · exact le_maxNumber ⟨x, List.mem_append_left _ (mem_deleteIn hx hk), rfl⟩
    · rw [hzero]
      exact maxNumber_nonneg _

/-- A replace, with its read-back, on a board that starts no line beyond an `int`. -/
theorem Keeps.replaceLine (h : Keeps b g s) (hlive : nmbr ∈ liveIds b.lines) {l : LiveLine} (hid : l.id = nmbr)
    (hsize : (b.bytes.length : Int) ≤ INT_MAX) (junk : Junk) :
    ∃ b' : Board, syncReplaceAlone junk nmbr l.user l.message (diskOf b.bytes) = some (0, diskOf b'.bytes) ∧
      b'.post = Function.update b.post nmbr (some ⟨Words.words isBlank l.user, Words.words isBlank (readMessage l.message)⟩) ∧
      SequentialInv b'.texts g.temp_list ∧ maxNumber b'.texts = s.largest ∧
      b'.bytes.length = b.bytes.length + (l.text.length + 1) := by
  subst hid
  have hone := Board.copies_eq_one hlive
  obtain ⟨old, hold⟩ := lineOf_ne_none (by omega : copies l.id b.texts ≠ 0)
  have hstart : (lineStart l.id (fileOf b.texts) : Int) ≤ INT_MAX := by
    have hle := lineStart_le l.id b
    rw [Board.bytes] at hle hsize
    omega
  have hreplace := replaceDescriptor_lines junk l.user l.message b.texts_clean hold hstart
  have hfree := b.not_mem_erase l.id
  have htexts : ((b.erase l.id).append l hfree).texts = deleteIn l.id b.texts ++ [l.text] := by
    rw [Board.texts_append, Board.texts_erase_eq hlive]
  have hfound : lineOf (firstField l.text) b.texts ≠ none := by
    rw [l.firstField, hold]
    simp
  refine ⟨(b.erase l.id).append l hfree, ?_, ?_, ?_, ?_, ?_⟩
  · have hbytes : ((b.erase l.id).append l hfree).bytes = fileOf (deleteIn l.id b.texts ++ [mkLine l.id l.user l.message]) := by
      rw [Board.bytes, htexts, LiveLine.text]
    have hread := ((b.erase l.id).append l hfree).read l.ok.id_numeral junk.line
    rw [Board.toMap_append, if_pos rfl, mapAnswer] at hread
    rw [syncReplaceAlone, Board.bytes, hreplace, ← hbytes]
    dsimp only
    rw [if_neg (by omega), hread]
    dsimp only
    rw [if_neg (by omega)]
  · rw [Board.post_append, Board.post_erase, Function.update_idem]
  · rw [htexts, ← l.firstField]
    exact h.numbers.replace l.clean hfound
  · rw [htexts, ← l.firstField, maxNumber_replace hfound, h.largest]
  · rw [Board.bytes, htexts, fileOf_append, List.length_append, fileOf_deleteIn_length, ← Board.bytes]
    simp only [fileOf_cons, fileOf_nil, List.length_append, List.length_cons, List.length_nil]

/-- REPLACE of a number that is not there. -/
theorem replaceCommand_absent {message : CStr} {command : List CStr} {junk : Junk}
    (hargs : replaceArguments junk.line command = some (nmbr, message)) (hlen : command.length > 1)
    (habsent : lineOf nmbr b.texts = none) :
    replaceCommand junk command client (diskOf b.bytes) = some (unknownResponse nmbr, diskOf b.bytes) := by
  obtain ⟨message', hmessage, hpair⟩ := Option.map_eq_some_iff.1 hargs
  obtain ⟨hnmbr, -⟩ := Prod.mk.inj hpair
  have hread := readDescriptor_diskOf (rfl : b.bytes = _) b.texts_clean junk.line nmbr
  rw [habsent] at hread
  rw [replaceCommand, if_pos hlen]
  dsimp only
  rw [hmessage]
  dsimp only
  rw [hnmbr, hread]
  rfl

/-- REPLACE. -/
theorem Keeps.replace (h : Keeps b g s) (hname : GoesBy client (s.names i))
    (htyped : Typed line command ((nmbr ++ '/' :: w) :: ws)) (hslash : '/' ∉ nmbr) (hw : w ≠ [])
    (hlast : ∀ v ∈ w :: ws, v.getLast? ≠ some '/') (hfits : Ask.Fits s i (.replace nmbr (w :: ws)))
    (hsize : (b.bytes.length : Int) ≤ INT_MAX) (junk : Junk) :
    ∃ response b', replaceCommand junk (commandOf line) client (diskOf b.bytes) = some (response, diskOf b'.bytes) ∧
      Tells (s.answer i (.replace nmbr (w :: ws))).1 response ∧ Keeps b' g (s.answer i (.replace nmbr (w :: ws))).2 ∧
      b'.bytes.length ≤ b.bytes.length + MAX_LEN := by
  have hfirst : nmbr ++ '/' :: w ∈ (nmbr ++ '/' :: w) :: ws := List.mem_cons_self
  have hsep := htyped.split
  have hwsep : ∀ c ∈ w, isWordSep c = false := fun c hc => hsep _ hfirst c (by simp [hc])
  have hargs := replaceArguments_eq (no_slash hslash) (fun c hc => isBlank_of_not_sep (hwsep c hc)) hw
    htyped.unbroken junk.line command
  rw [handedMessage, if_neg (hlast w List.mem_cons_self), ← htyped.commandOf_eq] at hargs
  have hlen : (commandOf line).length > 1 := by
    rw [htyped.commandOf_eq, List.length_cons, List.length_cons]
    omega
  have hback : BACKSPACE ∉ nmbr := fun hm => htyped.no_backspace hfirst (by simp [hm])
  rw [Bulletin.answer, h.posts]
  cases hpost : b.post nmbr with
  | none =>
    exact ⟨_, b, replaceCommand_absent hargs hlen (Board.lineOf_of_no_post hpost hback), .unknown, h, by omega⟩
  | some post =>
    have hlive : nmbr ∈ liveIds b.lines := by
      by_contra hc
      rw [Board.post_eq_none.2 hc] at hpost
      cases hpost
    -- the message
    have hwords : Words.words isBlank (trailWords (w :: ws)) = w :: ws := by
      refine words_trailWords (fun v hv c hc => ?_) fun v hv => ?_
      · rcases List.mem_cons.1 hv with rfl | hv
        · exact isBlank_of_not_sep (hwsep c hc)
        · exact isBlank_of_not_sep (hsep v (List.mem_cons_of_mem _ hv) c hc)
      · rcases List.mem_cons.1 hv with rfl | hv
        · exact hw
        · exact htyped.word_ne_nil (List.mem_cons_of_mem _ hv)
    have hunbroken : Unbroken (trailWords (w :: ws)) := by
      apply Unbroken.trailWords
      intro v hv
      rcases List.mem_cons.1 hv with rfl | hv
      · exact (htyped.unbroken _ hfirst).of_subset fun c hc => by simp [hc]
      · exact htyped.unbroken v (List.mem_cons_of_mem _ hv)
    have htext := exists_not_blank hwords (List.cons_ne_nil w ws)
    have hroom : (trailWords (w :: ws)).length = room (w :: ws) := trailWords_length _
    have hfits : nmbr.length + room (s.names i) + room (w :: ws) + 2 < MAX_LEN := hfits
    have hline := hname.makesLine (Board.isNumeral_of_mem hlive) hunbroken htext (by rw [hroom]; exact hfits)
    obtain ⟨b', hsync, hposts, hnumbers, hlargest, hbytes⟩ :=
      @Keeps.replaceLine b g s nmbr h hlive ⟨nmbr, client.user, trailWords (w :: ws), hline⟩ rfl hsize junk
    have hlt := LiveLine.text_lt ⟨nmbr, client.user, trailWords (w :: ws), hline⟩
    rw [words_readMessage (by rwa [hwords]) htext, hwords, hname.words_eq] at hposts
    refine ⟨_, b', ?_, .wrote, ⟨?_, hnumbers, hlargest, h.given⟩, ?_⟩
    · rw [replaceCommand_live hargs hlen hlive, hsync]
      rfl
    · rw [hposts, ← h.posts]
      rfl
    · rw [hbytes]
      omega

/-! The requests that are refused. -/

theorem userCommand_named_hello (hslash : ∀ v ∈ name, '/' ∉ v) (hne : name ≠ []) (command : CStr) (client : Client) :
    userCommand (command :: name) client = (⟨joinWords name, true⟩, helloResponse (joinWords name)) := by
  have hlen : (command :: name).length > 1 := by
    have := List.length_pos_of_ne_nil hne
    rw [List.length_cons]
    omega
  have hno : '/' ∉ joinWords name := by
    intro hm
    rcases mem_joinWords hm with hc | ⟨v, hv, hc⟩
    · exact absurd hc (by decide)
    · exact hslash v hv hc
  rw [userCommand, if_pos hlen]
  dsimp only
  rw [if_neg (show '/' ∉ joinWords (List.drop 1 (command :: name)) from hno)]
  split <;> rfl

/-- A word is one token when no slash stands before its last character. -/
theorem cutAt_first_word {v : CStr} (h : '/' ∉ v.dropLast) (s : CStr) :
    ∃ token, Cut.cutAt isSlash isBlank v.length false (v ++ s) = [token] := by
  by_cases hv : '/' ∈ v
  · -- the slash is the last character, and the tokens end with it
    obtain ⟨t, c, rfl⟩ := (List.eq_nil_or_concat v).resolve_left (List.ne_nil_of_mem hv)
    rw [List.concat_eq_append] at h hv ⊢
    rw [List.dropLast_concat] at h
    obtain rfl : '/' = c := by simpa [h] using hv
    refine ⟨t, ?_⟩
    have hcut : Cut.cutAt isSlash isBlank (t.length + 1 + 0) false (t ++ '/' :: s) = [t] :=
      Cut.cutAt_append (no_slash h) rfl 0 s
    rw [List.append_assoc, List.length_append]
    exact hcut
  · have htake : ∀ c ∈ (v ++ s).take v.length, isSlash c = false := by
      rw [List.take_left]
      exact no_slash hv
    exact ⟨v ++ s, Cut.cutAt_of_no_sep htake⟩

/-- With no slash before the last character of its first word there is nothing to replace with. -/
theorem replaceCommand_refused (hu : ∀ v ∈ words, Unbroken v) (hslash : '/' ∉ (words.headD []).dropLast) (junk : Junk)
    (command : CStr) (d : Disk) :
    replaceCommand junk (command :: words) client d = some (replaceFormatResponse, d) := by
  cases words with
  | nil => rfl
  | cons v vs =>
    have hlen : (command :: v :: vs).length > 1 := by
      rw [List.length_cons, List.length_cons]
      omega
    have hget : (command :: v :: vs).getD 1 [] = (v :: vs).getD 0 [] := rfl
    have hdrop : (command :: v :: vs).drop 1 = v :: vs := rfl
    obtain ⟨token, htoken⟩ : ∃ token, Cut.cutAt isSlash isBlank v.length false (trailWords (v :: vs)) = [token] := by
      rw [trailWords_cons]
      exact cutAt_first_word hslash _
    rw [replaceCommand, if_pos hlen, hget, hdrop, replTokens_first junk.line hu, List.getD_cons_zero, htoken]
    rfl

/-- A command that is none of the five. -/
theorem serverOperations_invalid (hkind : requestKind line ∉ commands) (junk : Junk) (client : Client) (g : NumGen)
    (d : Disk) : serverOperations junk line client g d = some (invalidResponse ((commandOf line).getD 0 []), client, g, d) := by
  have hquit : tolwr ((commandOf line).getD 0 []) ≠ "quit".toList := by
    intro hq
    apply hkind
    rw [requestKind, hq]
    decide
  have hne : ∀ c ∈ commands, requestKind line ≠ c := by
    intro c hc he
    exact hkind (he ▸ hc)
  rw [serverOperations]
  dsimp only
  rw [if_neg hquit, ← requestKind, if_neg (hne _ (by simp [commands])), if_neg (hne _ (by simp [commands])),
    if_neg (hne _ (by simp [commands])), if_neg (hne _ (by simp [commands]))]

/-- **One request** gets the answer of the board, and leaves what the board then has. -/
theorem Keeps.answer (h : Keeps b g s) (hname : GoesBy client (s.names i)) {ask : Ask} (hsay : Says line ask)
    (hfits : ask.Fits s i) (hsize : (b.bytes.length : Int) ≤ INT_MAX) (junk : Junk) : ∃ response client' g' b',
      serverOperations junk line client g (diskOf b.bytes) = some (response, client', g', diskOf b'.bytes) ∧
      Tells (s.answer i ask).1 response ∧ Keeps b' g' (s.answer i ask).2 ∧
      GoesBy client' ((s.answer i ask).2.names i) ∧ b'.bytes.length ≤ b.bytes.length + MAX_LEN := by
  have hkind : ∀ {command other : CStr} {words : List CStr}, Typed line command words → tolwr command = other →
      requestKind line = other := fun htyped hcommand => htyped.kind.trans hcommand
  cases hsay with
  | @user command name htyped hcommand hne hslash =>
    refine ⟨helloResponse (joinWords name), ⟨joinWords name, true⟩, g, b, ?_, .hello, ⟨h.posts, h.numbers, h.largest, h.given⟩,
      ?_, by omega⟩
    · rw [serverOperations_user (hkind htyped hcommand), htyped.commandOf_eq, userCommand_named_hello hslash hne]
    · have hupdate : (s.answer i (.user name)).2.names i = name := by simp [Bulletin.answer]
      rw [hupdate]
      exact ⟨.joined name, htyped.split, fun w hw => htyped.word_ne_nil hw, hslash, htyped.unbroken⟩
  | @read command nmbr htyped hcommand =>
    have hback := htyped.no_backspace (List.mem_singleton_self nmbr)
    obtain ⟨response, hread, htells⟩ := h.read hback junk.line command
    refine ⟨response, client, g, b, ?_, htells, h, hname, by omega⟩
    rw [serverOperations_read (hkind htyped hcommand), htyped.commandOf_eq, hread]
    rfl
  | @write command text htyped hcommand hne hlast =>
    obtain ⟨b', g', hwrite, hkeeps, hbytes⟩ := h.write hname htyped.split (fun w hw => htyped.word_ne_nil hw)
      htyped.unbroken hne hlast hfits junk command
    refine ⟨_, client, g', b', ?_, .wrote, hkeeps, hname, hbytes⟩
    rw [serverOperations_write (hkind htyped hcommand), htyped.commandOf_eq, hwrite]
    rfl
  | @replace command nmbr w ws htyped hcommand hslash hw hlast =>
    obtain ⟨response, b', hreplace, htells, hkeeps, hbytes⟩ := h.replace hname htyped hslash hw hlast hfits hsize junk
    refine ⟨response, client, g, b', ?_, htells, hkeeps, ?_, hbytes⟩
    · rw [serverOperations_replace (hkind htyped hcommand), hreplace]
      rfl
    · have hnames : (s.answer i (.replace nmbr (w :: ws))).2.names i = s.names i := by
        rw [Bulletin.answer]
        split <;> rfl
      rw [hnames]
      exact hname
  | @quit command words htyped hcommand =>
    refine ⟨byeResponse, client, g, b, ?_, .bye, h, hname, by omega⟩
    rw [serverOperations, htyped.commandOf_eq]
    exact if_pos hcommand
  | @noName command htyped hcommand =>
    refine ⟨noNameResponse, client, g, b, ?_, .refused, h, hname, by omega⟩
    rw [serverOperations_user (hkind htyped hcommand), htyped.commandOf_eq]
    rfl
  | @noNumber command words htyped hcommand hlen =>
    refine ⟨readFormatResponse, client, g, b, ?_, .refused, h, hname, by omega⟩
    have hne : (command :: words).length ≠ 2 := by
      rw [List.length_cons]
      omega
    rw [serverOperations_read (hkind htyped hcommand), htyped.commandOf_eq, readCommand, if_neg hne]
    rfl
  | @noText command htyped hcommand =>
    refine ⟨writeFormatResponse, client, g, b, ?_, .refused, h, hname, by omega⟩
    rw [serverOperations_write (hkind htyped hcommand), htyped.commandOf_eq]
    rfl
  | @noSlash command words htyped hcommand hslash =>
    refine ⟨replaceFormatResponse, client, g, b, ?_, .refused, h, hname, by omega⟩
    rw [serverOperations_replace (hkind htyped hcommand), htyped.commandOf_eq,
      replaceCommand_refused htyped.unbroken hslash]
    rfl
  | @invalid command words htyped hcommand =>
    refine ⟨invalidResponse command, client, g, b, ?_, .refused, h, hname, by omega⟩
    rw [serverOperations_invalid (htyped.kind ▸ hcommand), htyped.commandOf_eq]
    rfl

end

/-! The sessions. -/

section
variable {b : Board} {x : Lone} {s : Bulletin} {i : Nat}

/-- A round with a line before it: the request, and the words of it that are left in the buffer. -/
theorem Lone.round_line {line rest : CStr} {request : List Char} {client client' : Client} {response : CStr}
    {g : NumGen} {d : Disk} {junk : Junk} (hrec : Received line) (hlen : line.length < MAX_LEN) (hne : line ≠ [])
    (hx : x.session i = some ⟨⟨line ++ '\n' :: rest, false⟩, request, client⟩)
    (hserve : serverOperations junk line client x.gen_on_queue (diskOf x.bbfile) = some (response, client', g, d)) :
    ∃ request', x.round junk i = some (some response, ⟨d.bbfile, g, Function.update x.session i
      (if tolwr ((commandOf line).getD 0 []) = "quit".toList then none
        else some ⟨⟨rest, false⟩, request', client'⟩)⟩) := by
  obtain ⟨t, c, rfl⟩ := (List.eq_nil_or_concat line).resolve_left hne
  rw [List.concat_eq_append] at hrec hlen hx hserve ⊢
  have hnul : NUL ∉ t := fun hm => hrec.no_nul (by simp [hm])
  have hrc : ((t ++ [c]).length : Int) ≠ recvNodata := by
    unfold recvNodata
    omega
  have hcstr : cstr ((t ++ [c]) ++ NUL :: request.drop ((t ++ [c]).length + 1)) 0 = t ++ [c] := cstr_zero_append hrec.no_nul
  obtain ⟨more, hset, -⟩ := cut_last hcstr
  rw [hcstr] at hset
  have htext : cstr (t ++ NUL :: more) 0 = t := cstr_zero_append hnul
  have hwords : tokenStrings (strTokenize (t ++ NUL :: more) t.length) = commandOf (t ++ [c]) := by
    rw [strTokenize_tokens hnul (by simp [cstr]) (le_refl _), Cut.cutAt_of_length_le _ _ _ (le_refl _),
      commandOf_eq hrec.no_nul, List.dropLast_concat]
    rfl
  have hpos : (t ++ [c]).length ≠ 0 := by simp
  refine ⟨(strTokenize (t ++ NUL :: more) t.length).1, ?_⟩
  rw [Lone.round, hx]
  dsimp only
  rw [readline_line hrec.no_newline hlen]
  dsimp only
  rw [if_neg hrc, hcstr, if_neg hpos, hset, htext, hwords, hserve]

/-- What the sessions show after a turn of one of them. -/
theorem sessionShows_update {session : Nat → Option Session} {asks : Nat → Option (List Ask)} {names names' : Nat → List CStr}
    {o : Option Session} {a : Option (List Ask)} (h : ∀ j, SessionShows (session j) (asks j) (names j))
    (hnames : ∀ j, j ≠ i → names' j = names j) (hi : SessionShows o a (names' i)) (j : Nat) :
    SessionShows (Function.update session i o j) (Function.update asks i a j) (names' j) := by
  by_cases hj : j = i
  · subst hj
    rw [Function.update_self, Function.update_self]
    exact hi
  · rw [Function.update_of_ne hj, Function.update_of_ne hj, hnames j hj]
    exact h j

/-- **One turn** of a session is the turn of its client. -/
theorem Lone.Shows.turn (h : Lone.Shows b x s) (hfits : Happening.Fits s (.turn i))
    (hsize : (b.bytes.length : Int) ≤ INT_MAX) (junk : Junk) : ∃ response x' b',
      x.round junk i = some (response, x') ∧ TellsAny (s.turn i).1 response ∧ Lone.Shows b' x' (s.turn i).2 ∧
      b'.bytes.length ≤ b.bytes.length + MAX_LEN := by
  have hsession := h.sessions i
  generalize hx : x.session i = o at hsession
  generalize hasks : s.asks i = a at hsession
  cases hsession with
  | ended =>
    refine ⟨none, x, b, ?_, ?_, ?_, by omega⟩
    · rw [Lone.round, hx]
    · rw [Bulletin.turn, hasks]
      exact .none
    · rw [Bulletin.turn, hasks]
      exact h
  | @running lines asks request client _ hlines hname =>
    cases hlines with
    | nil =>
      refine ⟨some ('\n' :: byeResponse), { x with session := Function.update x.session i none }, b, ?_, ?_, ?_, by omega⟩
      · rw [Lone.round, hx, fileOf_nil]
        dsimp only
        rw [readline_eof (by decide)]
        dsimp only
        rw [if_pos rfl]
      · rw [Bulletin.turn, hasks]
        exact .some .left
      · rw [Bulletin.turn, hasks]
        exact ⟨h.file, ⟨h.keeps.posts, h.keeps.numbers, h.keeps.largest, h.keeps.given⟩,
          sessionShows_update h.sessions (fun j _ => rfl) .ended⟩
    | @cons line ask lines asks hsay hlines =>
      obtain ⟨command, words, htyped⟩ := hsay.typed
      obtain ⟨response, client', g', b', hserve, htells, hkeeps, hname', hbytes⟩ :=
        h.keeps.answer hname hsay (hfits ask asks hasks) hsize junk
      rw [← h.file] at hserve
      rw [fileOf_cons] at hx
      obtain ⟨request', hround⟩ := Lone.round_line htyped.received htyped.length_lt htyped.ne_nil hx hserve
      refine ⟨some response, _, b', hround, ?_, ?_, hbytes⟩
      · rw [Bulletin.turn, hasks]
        exact .some htells
      · rw [Bulletin.turn, hasks]
        refine ⟨rfl, ⟨hkeeps.posts, hkeeps.numbers, hkeeps.largest, hkeeps.given⟩, ?_⟩
        apply sessionShows_update h.sessions fun j hj => Bulletin.answer_names_ne hj s ask
        by_cases hquit : ask = .quit
        · rw [if_pos (hsay.quit_iff.2 hquit), hquit]
          exact .ended
        · rw [if_neg fun hq => hquit (hsay.quit_iff.1 hq), Ask.rest_of_ne hquit]
          exact .running hlines hname'

end

/-! Whole runs. -/

section
variable {b : Board} {x : Lone} {s : Bulletin} {lines : Nat → Option (List CStr)} {asks : Nat → Option (List Ask)}

theorem SessionShows.start {o : Option (List CStr)} {a : Option (List Ask)} (h : Option.Rel (List.Forall₂ Says) o a) :
    SessionShows (o.map fun ls => ⟨⟨fileOf ls, false⟩, [], Client.start⟩) a ["nobody".toList] := by
  cases h with
  | none => exact .ended
  | some hlines => exact .running hlines GoesBy.nobody

theorem Lone.Shows.start {posts : CStr → Option Post} {largest : Nat} (hposts : posts = b.post)
    (hlargest : maxNumber b.texts = largest) (hsay : ∀ i, Option.Rel (List.Forall₂ Says) (lines i) (asks i)) :
    Lone.Shows b (Lone.start b.bytes lines) (Bulletin.start posts largest asks) where
  file := rfl
  keeps := ⟨hposts, SequentialInv.start b, hlargest, rfl⟩
  sessions := fun i => .start (hsay i)

theorem Thinned.bytes_le {ls ls' : List BoardLine} (h : Thinned ls' ls) :
    (fileOf (ls'.map BoardLine.text)).length ≤ (fileOf (ls.map BoardLine.text)).length := by
  induction h with
  | nil => exact le_refl _
  | dropped _ ih =>
    simp only [List.map_cons, fileOf_cons, List.length_append, List.length_cons]
    omega
  | kept _ _ ih =>
    simp only [List.map_cons, fileOf_cons, List.length_append, List.length_cons]
    omega

/-- A restart: the posts are still there, and no number is forgotten. -/
theorem Lone.Shows.restart (h : Lone.Shows b x s) (hsay : ∀ i, Option.Rel (List.Forall₂ Says) (lines i) (asks i)) (junk : List Char) :
    ∃ x' b', x.event (.restart junk lines) = some (none, x') ∧
      Lone.Shows b' x' (.start s.posts s.largest asks) ∧ b'.bytes.length ≤ b.bytes.length := by
  have hthin : Thinned b.compact.lines b.lines := (Thinned.refl b.lines).compact
  refine ⟨.start b.compact.bytes lines, b.compact, ?_, ?_, hthin.bytes_le⟩
  · rw [Lone.event, h.file, housekeepDescriptor_board]
    rfl
  · apply Lone.Shows.start _ _ hsay
    · rw [h.keeps.posts, Board.post_congr hthin.liveLines]
    · rw [← h.keeps.largest]
      exact hthin.maxNumber

theorem Lone.Shows.event (h : Lone.Shows b x s) {e : LoneEvent} {happening : Happening} (hmatch : Matches e happening)
    (hfits : happening.Fits s) (hsize : (b.bytes.length : Int) ≤ INT_MAX) : ∃ response x' b',
      x.event e = some (response, x') ∧ TellsAny (s.happen happening).1 response ∧
      Lone.Shows b' x' (s.happen happening).2 ∧ b'.bytes.length ≤ b.bytes.length + MAX_LEN := by
  cases hmatch with
  | @turn junk i => exact h.turn hfits hsize junk
  | @hangup i =>
    refine ⟨none, _, b, rfl, .none, ⟨h.file, ⟨h.keeps.posts, h.keeps.numbers, h.keeps.largest, h.keeps.given⟩, ?_⟩, by omega⟩
    apply sessionShows_update h.sessions fun j _ => rfl
    have hsession := h.sessions i
    generalize x.session i = o at hsession ⊢
    generalize s.asks i = a at hsession ⊢
    cases hsession with
    | ended => exact .ended
    | running _ hname => exact .running .nil hname
  | @restart junk lines asks hsay =>
    obtain ⟨x', b', hevent, hshows, hbytes⟩ := h.restart hsay junk
    exact ⟨none, x', b', hevent, .none, hshows, by omega⟩

theorem Lone.Shows.run {es : List LoneEvent} {hs : List Happening} (hmatch : List.Forall₂ Matches es hs)
    (h : Lone.Shows b x s) (hfits : s.Fits hs) (hsize : ((b.bytes.length + MAX_LEN * es.length : Nat) : Int) ≤ INT_MAX) :
    ∃ responses x' b', x.run es = some (responses, x') ∧ List.Forall₂ TellsAny (s.run hs).1 responses ∧
      Lone.Shows b' x' (s.run hs).2 := by
  induction hmatch generalizing b x s with
  | nil => exact ⟨[], x, b, rfl, .nil, h⟩
  | @cons e happening es hs hone _ ih =>
    obtain ⟨hfit, hfits⟩ := hfits
    rw [List.length_cons, Nat.mul_succ] at hsize
    obtain ⟨response, x₁, b₁, hevent, htells, hshows, hbytes⟩ := h.event hone hfit (by omega)
    obtain ⟨responses, x₂, b₂, hrun, htells', hshows'⟩ := ih hshows hfits (by omega)
    refine ⟨response :: responses, x₂, b₂, ?_, .cons htells htells', hshows'⟩
    rw [Lone.run, hevent]
    dsimp only
    rw [hrun]
    rfl

end

end BulletinBoard
