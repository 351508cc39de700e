import BulletinBoard.WriteRead

/- REPLACE on a server without peers. The words of the request are put together again with a
   blank behind each, and the number is cut from the message at the slashes of the first
   word. When that word ends with a slash, no piece is open where the cut stops, and what
   follows is lost. -/
namespace BulletinBoard

/-- The number and the message that a REPLACE hands to `replace_descriptor`. -/
def replaceArguments (junk : List Char) (command : List CStr) : Option (CStr × CStr) :=
  let repl_tokens := replTokens (command.drop 1) (command.getD 1 []).length junk
  (replMessage repl_tokens).map fun message => (repl_tokens.getD 0 [], message)

/-- The request that replaces the text of a number. -/
def replaceLine (nmbr text : CStr) : CStr := requestLine "REPLACE".toList (nmbr ++ '/' :: text)

/-- Texts that differ in the length of their runs of blanks and in the blanks at their end only. -/
def SameButBlanks (s t : CStr) : Prop :=
  Words.words isBlank s = Words.words isBlank t ∧ s.head?.any isBlank = t.head?.any isBlank

/-- REPLACE is answered `3.0 WROTE`, and `replace_descriptor` has put the text on file. -/
def Replaces (b : Board) (client : Client) (nmbr text : CStr) : Prop :=
  ∀ (junk : Junk) (g : NumGen), ∃ message d,
    replaceArguments junk.line (commandOf (replaceLine nmbr text)) = some (nmbr, message) ∧
      SameButBlanks text message ∧
      replaceDescriptor junk nmbr client.user message (diskOf b.bytes) = some (0, d) ∧
      serverOperations junk (replaceLine nmbr text) client g (diskOf b.bytes) =
        some (wroteResponse nmbr, client, g, d)

/-- The first word of a text that starts with no blank. -/
def firstWord (text : CStr) : CStr := text.takeWhile fun c => !isBlank c

section
variable {nmbr text : CStr}

theorem firstWord_no_blank (text : CStr) : ∀ c ∈ firstWord text, isBlank c = false := by
  intro c hc
  simpa using List.mem_takeWhile_imp hc

theorem firstWord_ne_nil (hne : text ≠ []) (hstart : ∀ c ∈ text.head?, isBlank c = false) : firstWord text ≠ [] := by
  obtain ⟨c, s, rfl⟩ := List.exists_cons_of_ne_nil hne
  have hc : isBlank c = false := hstart c rfl
  rw [firstWord, List.takeWhile_cons_of_pos (by simp [hc])]
  exact List.cons_ne_nil _ _

/-- The words of the text, and of the text behind its number. -/
theorem words_number_text (hn : ∀ c ∈ nmbr, isBlank c = false) (hne : text ≠ [])
    (hstart : ∀ c ∈ text.head?, isBlank c = false) : ∃ ws, Words.words isBlank text = firstWord text :: ws ∧
      Words.words isBlank (nmbr ++ '/' :: text) = (nmbr ++ '/' :: firstWord text) :: ws := by
  obtain ⟨r, hr⟩ : ∃ r, r = text.dropWhile fun c => !isBlank c := ⟨_, rfl⟩
  have htext : text = firstWord text ++ r := by rw [hr, firstWord, List.takeWhile_append_dropWhile]
  have hblank : ∀ c ∈ r.head?, isBlank c = true := by
    intro c hc
    have h := List.head?_dropWhile_not (fun c => !isBlank c) text
    rw [← hr, Option.mem_def.1 hc] at h
    simpa using h
  have hfirst := firstWord_no_blank text
  have hnumber : ∀ c ∈ nmbr ++ '/' :: firstWord text, isBlank c = false := by
    intro c hc
    rcases List.mem_append.1 hc with hc | hc
    · exact hn c hc
    · rcases List.mem_cons.1 hc with rfl | hc
      · rfl
      · exact hfirst c hc
  refine ⟨Words.words isBlank r, ?_, ?_⟩
  · have h := Words.words_word_append hfirst (firstWord_ne_nil hne hstart) hblank
    rwa [← htext] at h
  · have h := Words.words_word_append hnumber (by simp) hblank
    rwa [List.append_assoc, List.cons_append, ← htext] at h

end

/-! The number and the message. -/

/-- The message that comes of its words. -/
def handedMessage (w : CStr) (ws : List CStr) : CStr :=
  if w.getLast? = some '/' then w.dropLast else trailWords (w :: ws)

section
variable {nmbr w : CStr} {ws : List CStr}

theorem trailWords_cons (w : CStr) (ws : List CStr) : trailWords (w :: ws) = w ++ ' ' :: trailWords ws := by
  simp [trailWords]

/-- The pieces of the first word, the last of which takes the other words with it. -/
theorem intercalate_first (hw : ∀ c ∈ w, isBlank c = false) (hne : w ≠ []) (s : CStr) :
    Cut.cutAt isSlash isBlank w.length true (w ++ ' ' :: s) ≠ [] ∧
      ['/'].intercalate (Cut.cutAt isSlash isBlank w.length true (w ++ ' ' :: s)) =
        if w.getLast? = some '/' then w.dropLast else w ++ ' ' :: s := by
  have hsep : ∀ c, isSlash c = true → c = '/' := fun c hc => by simpa [isSlash] using hc
  have htake : (w ++ ' ' :: s).take w.length = w := List.take_left
  have hdrop : (w ++ ' ' :: s).drop w.length = ' ' :: s := List.drop_left
  have hsqueeze : Cut.squeeze isSlash isBlank true w = w := Cut.squeeze_word true hw
  constructor
  · rw [ne_eq, ← Cut.squeeze_take_eq_nil_iff, htake, hsqueeze]
    exact hne
  · rw [Cut.intercalate_cutAt hsep, htake, hdrop, hsqueeze]
    have hlast := behindSlash_last hw hne true
    rw [behindSlash] at hlast
    rw [hlast]
    simp only [decide_eq_true_eq]

/-- **What REPLACE hands on**: the message without its last slash when the first word ends with
    one, and with a blank behind each word otherwise. -/
theorem replaceArguments_eq (hn : ∀ c ∈ nmbr, isSlash c = false) (hw : ∀ c ∈ w, isBlank c = false) (hne : w ≠ [])
    (hu : ∀ v ∈ (nmbr ++ '/' :: w) :: ws, Unbroken v) (junk : List Char) (command : CStr) :
    replaceArguments junk (command :: (nmbr ++ '/' :: w) :: ws) = some (nmbr, handedMessage w ws) := by
  obtain ⟨hcut, hjoin⟩ := intercalate_first hw hne (trailWords ws)
  obtain ⟨q, ps, hq⟩ := List.exists_cons_of_ne_nil hcut
  have htok : replTokens ((nmbr ++ '/' :: w) :: ws) (nmbr ++ '/' :: w).length junk = nmbr :: q :: ps := by
    have hfirst := replTokens_first junk hu
    rw [List.getD_cons_zero] at hfirst
    have hlen : (nmbr ++ '/' :: w).length = nmbr.length + 1 + w.length := by
      simp only [List.length_append, List.length_cons]
      omega
    rw [hfirst, hlen, trailWords_cons, List.append_assoc, List.cons_append, Cut.cutAt_append hn (by decide), hq]
  have hmessage : replMessage (nmbr :: q :: ps) = some (handedMessage w ws) := by
    rw [replMessage_eq_some]
    refine ⟨nmbr, q, ps, rfl, ?_⟩
    rw [← hq, hjoin, handedMessage, trailWords_cons]
  have hdrop : (command :: (nmbr ++ '/' :: w) :: ws).drop 1 = (nmbr ++ '/' :: w) :: ws := rfl
  have hget : (command :: (nmbr ++ '/' :: w) :: ws).getD 1 [] = nmbr ++ '/' :: w := rfl
  rw [replaceArguments, hdrop, hget, htok, hmessage]
  rfl

theorem words_trailWords {words : List CStr} (hw : ∀ w ∈ words, ∀ c ∈ w, isBlank c = false)
    (hne : ∀ w ∈ words, w ≠ []) : Words.words isBlank (trailWords words) = words := by
  induction words with
  | nil => rfl
  | cons w words ih =>
    have ih := ih (fun v hv => hw v (List.mem_cons_of_mem w hv)) fun v hv => hne v (List.mem_cons_of_mem w hv)
    rw [trailWords_cons, Words.words_append rfl, Words.words_word (hw w List.mem_cons_self) (hne w List.mem_cons_self), ih]
    rfl

/-- The message is the text of its words exactly when the first of them does not end with '/'. -/
theorem words_handedMessage_iff (hw : ∀ v ∈ w :: ws, ∀ c ∈ v, isBlank c = false) (hne : ∀ v ∈ w :: ws, v ≠ []) :
    Words.words isBlank (handedMessage w ws) = w :: ws ↔ w.getLast? ≠ some '/' := by
  constructor
  · intro h hlast
    -- the slash is a character less
    rw [handedMessage, if_pos hlast] at h
    have hflat := congrArg List.flatten h
    rw [Words.flatten_words, List.flatten_cons] at hflat
    have hlen := congrArg List.length hflat
    have hle := List.length_filter_le (fun c => !isBlank c) w.dropLast
    have hpos := List.length_pos_of_ne_nil (hne w List.mem_cons_self)
    rw [List.length_append] at hlen
    rw [List.length_dropLast] at hle
    omega
  · intro hlast
    rw [handedMessage, if_neg hlast]
    exact words_trailWords hw hne

end

/-! The session. -/

section
variable {b : Board} {nmbr text : CStr} {client : Client}

/-- A replace of a number on file appends its line and finds it again, wherever the delete has
    put its backspaces. -/
theorem syncReplaceAlone_live {poster message : CStr} (hlive : nmbr ∈ liveIds b.lines)
    (hl : Clean (mkLine nmbr poster message)) (junk : Junk) :
    ∃ d, replaceDescriptor junk nmbr poster message (diskOf b.bytes) = some (0, d) ∧
      syncReplaceAlone junk nmbr poster message (diskOf b.bytes) = some (0, d) := by
  have hnum := Board.isNumeral_of_mem hlive
  have hone := Board.copies_eq_one hlive
  obtain ⟨l, hl₀⟩ := lineOf_ne_none (by omega : copies nmbr b.texts ≠ 0)
  obtain ⟨a, c, htexts, ha, hclean, hk⟩ := lineOf_split b.texts_clean hl₀
  have hbytes : (diskOf b.bytes).bbfile = fileOf (a ++ l :: c) := congrArg fileOf htexts
  have hdel := @deleteDescriptor_at nmbr l a c junk _ _ _ _ hbytes (openFile_diskOf _) (openFile_diskOf _) ha hclean hk
  have hends : EndsLine (fileOf (a ++ l :: c)) := EndsLine.fileOf _
  have hends := hends.overwrite NUL (toInt (fileOf a).length).toNat (deletedLine l.length)
  generalize Lines.overwrite NUL (fileOf (a ++ l :: c)) (toInt (fileOf a).length).toNat
    (deletedLine l.length ++ ['\n']) = file at hdel hends
  have hreplace : replaceDescriptor junk nmbr poster message (diskOf b.bytes) =
      some (0, diskOf (file ++ fileOf [mkLine nmbr poster message])) := by
    rw [replaceDescriptor, hdel]
    dsimp only
    rw [if_neg (by omega), ← lineBytes_eq]
    rfl
  have hfirst : firstField (mkLine nmbr poster message) = nmbr := firstField_mkLine (isNumeral_no_slash hnum)
  obtain ⟨r, text, hr, hread⟩ := readDescriptor_last_some junk.line hends hl hfirst
  refine ⟨_, hreplace, ?_⟩
  rw [syncReplaceAlone, hreplace]
  dsimp only
  rw [if_neg (lt_irrefl 0), hread]
  dsimp only
  rw [if_neg (by omega)]

/-- A REPLACE of a number on file is what `sync_replace` makes of its arguments. -/
theorem replaceCommand_live {message : CStr} {command : List CStr} {junk : Junk}
    (hargs : replaceArguments junk.line command = some (nmbr, message)) (hlen : command.length > 1)
    (hlive : nmbr ∈ liveIds b.lines) : replaceCommand junk command client (diskOf b.bytes) =
      (syncReplaceAlone junk nmbr client.user message (diskOf b.bytes)).map fun (sync_ret, d) =>
        (if sync_ret = 0 then wroteResponse nmbr else syncErrorResponse, d) := by
  obtain ⟨message', hmessage, hpair⟩ := Option.map_eq_some_iff.1 hargs
  obtain ⟨hnmbr, rfl⟩ := Prod.mk.inj hpair
  have hone := Board.copies_eq_one hlive
  obtain ⟨l, hl⟩ := lineOf_ne_none (by omega : copies nmbr b.texts ≠ 0)
  have hread := readDescriptor_diskOf (rfl : b.bytes = _) b.texts_clean junk.line nmbr
  rw [hl] at hread
  rw [replaceCommand, if_pos hlen]
  dsimp only
  rw [hmessage]
  dsimp only
  rw [hnmbr, hread]
  dsimp only [readAnswer]
  rw [if_neg (by omega)]
  cases syncReplaceAlone junk nmbr client.user message' (diskOf b.bytes) <;> rfl

theorem commandOf_replaceLine (hn : IsNumeral nmbr) (hm : '=' ∉ text) (hline : Received (replaceLine nmbr text)) :
    commandOf (replaceLine nmbr text) = "REPLACE".toList :: Words.words isBlank (nmbr ++ '/' :: text) := by
  have heq : '=' ∉ nmbr ++ '/' :: text := by
    intro hc
    rcases List.mem_append.1 hc with hc | hc
    · exact absurd (hn.2 _ hc) (by decide)
    · rcases List.mem_cons.1 hc with hc | hc
      · exact absurd hc (by decide)
      · exact hm hc
  rw [replaceLine, commandOf_requestLine (no_sep_of_all (by decide)) hline.no_nul, wordsBehind_eq heq]

/-- **REPLACE**: it is answered `3.0 WROTE` and hands on the text, up to its blanks, exactly when
    the first word of the text does not end with '/'. -/
theorem replaces_iff (hlive : nmbr ∈ liveIds b.lines) (hm : '=' ∉ text) (hne : text ≠ [])
    (hstart : ∀ c ∈ text.head?, isBlank c = false) (hline : Received (replaceLine nmbr text)) (hclient : client.Fits) :
    Replaces b client nmbr text ↔ (firstWord text).getLast? ≠ some '/' := by
  have hn := Board.isNumeral_of_mem hlive
  have hblank : ∀ c ∈ nmbr, isBlank c = false := by
    intro c hc
    have hd := hn.2 c hc
    rw [isBlank, beq_eq_false_iff_ne]
    rintro rfl
    exact absurd hd (by decide)
  obtain ⟨ws, hwords, hnumber⟩ := words_number_text hblank hne hstart
  have hcommand := commandOf_replaceLine hn hm hline
  rw [hnumber] at hcommand
  have hfirst := firstWord_ne_nil hne hstart
  have hunbroken : ∀ v ∈ (nmbr ++ '/' :: firstWord text) :: ws, Unbroken v := by
    intro v hv
    have h := hline.words v
    rw [hcommand] at h
    exact (h (List.mem_cons_of_mem _ hv)).1
  have hargs := fun junk => replaceArguments_eq (isNumeral_no_slash hn) (firstWord_no_blank text) hfirst hunbroken junk
    "REPLACE".toList
  have hiff : Words.words isBlank (handedMessage (firstWord text) ws) = firstWord text :: ws ↔
      (firstWord text).getLast? ≠ some '/' := by
    apply words_handedMessage_iff
    · intro v hv c hc
      rw [← hwords] at hv
      exact (Words.mem_words hv hc).2
    · intro v hv
      rw [← hwords] at hv
      exact Words.ne_nil_of_mem_words hv
  constructor
  · intro h
    obtain ⟨message, d, hmessage, hsame, -⟩ := h ⟨[], []⟩ ⟨[]⟩
    rw [hcommand, hargs, Option.some.injEq, Prod.mk.injEq] at hmessage
    obtain ⟨-, rfl⟩ := hmessage
    rw [← hiff, ← hwords]
    exact hsame.1.symm
  · intro hlast junk g
    have hkind : requestKind (replaceLine nmbr text) = "replace".toList := by
      rw [requestKind_eq hcommand]
      decide
    have hclean : Clean (mkLine nmbr client.user (handedMessage (firstWord text) ws)) := by
      obtain ⟨message, hmessage, hpair⟩ := Option.map_eq_some_iff.1 (hargs [])
      rw [← hcommand] at hmessage hpair
      have hof := replaceOf hline hkind hmessage
      obtain ⟨hnmbr, rfl⟩ := Prod.mk.inj hpair
      rw [replaceTokens, hnmbr] at hof
      exact replace_line_clean hof hclient
    obtain ⟨d, hreplace, hsync⟩ := syncReplaceAlone_live hlive hclean junk
    have hargs := hargs junk.line
    rw [← hcommand] at hargs
    have hlen : (commandOf (replaceLine nmbr text)).length > 1 := by
      rw [hcommand, List.length_cons, List.length_cons]
      omega
    refine ⟨_, d, hargs, ⟨?_, ?_⟩, hreplace, ?_⟩
    · rw [hwords]
      exact (hiff.2 hlast).symm
    · -- the message starts as the text does
      obtain ⟨c, s, rfl⟩ := List.exists_cons_of_ne_nil hne
      have hc : isBlank c = false := hstart c rfl
      have hword : firstWord (c :: s) = c :: firstWord s := List.takeWhile_cons_of_pos (by simp [hc])
      rw [handedMessage, if_neg hlast, trailWords_cons, hword]
      rfl
    · rw [serverOperations_replace hkind, replaceCommand_live hargs hlen hlive, hsync]
      rfl

end

/-- A slash inside of the first word, and one at the end of another, are no loss. -/
theorem replaces_slashes : Replaces oneLine Client.start ['1'] "a/b c/ d".toList := by
  have hline : Received (replaceLine ['1'] "a/b c/ d".toList) := ⟨⟨by decide, by decide⟩, by decide⟩
  have hhead : ("a/b c/ d".toList).head? = some 'a' := rfl
  have hstart : ∀ c ∈ ("a/b c/ d".toList).head?, isBlank c = false := by
    intro c hc
    rw [hhead] at hc
    obtain rfl := Option.some.inj hc
    rfl
  exact (replaces_iff (by decide) (by decide) (by decide) hstart hline Client.start_fits).2 (by decide)

/-- `REPLACE 1/a/ b` hands on `a` alone, and is answered `3.0 WROTE`. -/
theorem replace_loses_text : ¬ Replaces oneLine Client.start ['1'] "a/ b".toList ∧
    (serverOperations ⟨[], []⟩ (replaceLine ['1'] "a/ b".toList) Client.start ⟨[]⟩ (diskOf oneLine.bytes)).map
        (fun r => (r.1, r.2.2.2.bbfile)) =
      some (wroteResponse ['1'], "\x08\x08\x08\x08\x08\n1/nobody/a\n".toList) := by
  constructor
  · intro h
    obtain ⟨message, d, hargs, hsame, -⟩ := h ⟨[], []⟩ ⟨[]⟩
    have hhanded : replaceArguments [] (commandOf (replaceLine ['1'] "a/ b".toList)) = some (['1'], ['a']) := by
      decide +kernel
    obtain ⟨-, rfl⟩ := Prod.mk.inj (Option.some.inj (hargs.symm.trans hhanded))
    exact absurd hsame.1 (by decide +kernel)
  · decide +kernel

end BulletinBoard
