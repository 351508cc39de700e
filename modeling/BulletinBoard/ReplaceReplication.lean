import BulletinBoard.Replication
import BulletinBoard.ReplaceMessage

/- A REPLACE at the coordinator and at a peer. Both cut the number from the message with the
   same tokenizer, but the coordinator looks for slashes within the client's first word and
   the peer within the first seven characters, as many as the keyword `replace` has. A
   number of six digits leaves no token there, a shorter text is cut beyond its NUL, and a
   slash that stands last before the limit takes the rest of the text with it. -/
namespace BulletinBoard

/-- A text behind a slash, without the blanks that a READ drops. -/
abbrev shown (text : CStr) : CStr := Cut.squeeze isSlash isBlank true text

/-- A READ shows the two names alike. -/
def ShownAlike (user user' : CStr) : Prop := shown user = shown user'

/-- The peer answers the COMMIT with `positive`, and a READ of the number then gives the same on it
    as on the coordinator after `replace_descriptor`; the names are those of a client and
    of the peer's session, which a READ shows alike. -/
def ReplicatesReplace (b b' : Board) (p : Peer) (nmbr message : CStr) : Prop :=
  ∀ (junk junk' : Junk) (client : Client), client.Fits → ShownAlike client.user p.user →
    ∃ p' d d', p.run junk' (commitReplaceRequest nmbr message) (diskOf b'.bytes) = some (p', some .positive, d') ∧
      replaceDescriptor junk nmbr client.user message (diskOf b.bytes) = some (0, d) ∧
      SameText nmbr d.bbfile d'.bbfile

/-- What the peer has behind the number: the words of the message, which the coordinator has of
    `w` and the other words of the client's line. -/
def peerText (w : CStr) (ws : List CStr) : CStr :=
  if w.getLast? = some '/' then w.dropLast ++ [' '] else trailWords (w :: filled ws)

/-- The first `k` characters of the text do not end with a slash, or that slash ends the text
    and a READ drops it. -/
def SlashUnseen (k : Nat) (text : CStr) : Prop :=
  k ≤ text.length → behindSlash true (text.take k) = true →
    (∀ c ∈ text.drop k, isBlank c = true) ∧
      behindSlash true (Cut.squeeze isSlash isBlank true (text.take k)).dropLast = false

/-- No blank is lost or won: a message that has lost its slash at the end has got no blank there, as
    it ends with another; and every empty word stands where a READ drops blanks. -/
def BlanksKept (w : CStr) (ws : List CStr) : Prop :=
  if w.getLast? = some '/' then w.dropLast = [] ∨ w.dropLast.getLast? = some '/' else EmptyUnseen true (w :: ws)

/-- When a REPLACE comes through: of a number of at most five digits, with a text that is not over
    before the limit, no slash before the limit, and no blank lost or won. -/
structure ReplaceKept (nmbr w : CStr) (ws : List CStr) : Prop where
  digits : nmbr.length ≤ 5
  length_le : 4 ≤ nmbr.length + (peerText w ws).length
  slash : SlashUnseen (6 - nmbr.length) (peerText w ws)
  blanks : BlanksKept w ws

/-! What the peer cuts the text into. -/

/-- The message that the peer finds in a text, the limit being `k` characters behind the number. -/
def peerMessage (k : Nat) (text : CStr) : CStr :=
  if text.length < k then Cut.squeeze isSlash isBlank true text
  else if behindSlash true (text.take k) then (Cut.squeeze isSlash isBlank true (text.take k)).dropLast
  else Cut.squeeze isSlash isBlank true (text.take k) ++ text.drop k

section
variable {nmbr text : CStr} {words : List CStr} {junk : List Char}

theorem isSlash_eq {c : Char} (h : isSlash c = true) : c = '/' := by simpa [isSlash] using h

/-- The buffer of `repl_request`, with NULs behind its end. -/
theorem replTokens_buffer (words : List CStr) (junk : List Char) : replTokens words 7 junk =
    (Cut.cutAt isSlash isBlank 7 false (trailWords words ++ NUL :: (junk ++ List.replicate 7 NUL))).map
      fun p => cstr p 0 := by
  have hbuf : trailWords words ++ NUL :: (junk ++ List.replicate 7 NUL) =
      trailWords words ++ NUL :: junk ++ List.replicate 7 NUL := by simp
  rw [hbuf, replTokens, bblineTokenize, ← tokenize_buffer (by simp; omega)]
  exact (tokenize_pad (by decide) _).symm

theorem tokens_of_long_number (hn : ∀ c ∈ nmbr, isSlash c = false) (hw : ∀ w ∈ words, Unbroken w)
    (htext : trailWords words = nmbr ++ '/' :: text) (hlen : 6 ≤ nmbr.length) :
    replMessage (replTokens words 7 junk) = none := by
  have hseven : 7 ≤ (trailWords words).length := by
    rw [htext, List.length_append, List.length_cons]
    omega
  have hone : ∃ p, replTokens words 7 junk = [p] := by
    rw [replTokens_eq junk hw hseven, htext]
    by_cases hsix : nmbr.length = 6
    · have hcut : Cut.cutAt isSlash isBlank (nmbr.length + 1 + 0) false (nmbr ++ '/' :: text) =
          nmbr :: Cut.cutAt isSlash isBlank 0 true text := Cut.cutAt_append hn (by decide) 0 text
      rw [hsix] at hcut
      exact ⟨nmbr, hcut⟩
    · -- the limit is within the number
      by_contra hmore
      obtain ⟨p, ps, hcut⟩ := List.exists_cons_of_ne_nil
        (@Cut.cutAt_false_ne_nil _ isSlash isBlank 7 (nmbr ++ '/' :: text))
      cases ps with
      | nil => exact hmore ⟨p, hcut⟩
      | cons q ps =>
        obtain ⟨c, r, hsplit, -, hc, hlt⟩ := Cut.cutAt_head hcut
        have hget : (nmbr ++ '/' :: text)[p.length]? = some c := by rw [hsplit]; simp
        rw [List.getElem?_append_left (by omega)] at hget
        rw [hn c (List.mem_of_getElem? hget)] at hc
        cases hc
  obtain ⟨p, hp⟩ := hone
  rw [hp]
  rfl

/-- A text that reaches the limit. -/
theorem tokens_of_long_text (hn : ∀ c ∈ nmbr, isSlash c = false) (hw : ∀ w ∈ words, Unbroken w)
    (htext : trailWords words = nmbr ++ '/' :: text) {k : Nat} (hk : nmbr.length + 1 + k = 7) (hlen : k ≤ text.length) :
    replTokens words 7 junk = nmbr :: Cut.cutAt isSlash isBlank k true text := by
  have hseven : 7 ≤ (trailWords words).length := by
    rw [htext, List.length_append, List.length_cons]
    omega
  rw [replTokens_eq junk hw hseven, htext, ← hk, Cut.cutAt_append hn (by decide)]

/-- A text that is over before the limit: the cut goes on behind its NUL. -/
theorem tokens_of_short_text (hn : ∀ c ∈ nmbr, isSlash c = false) (hw : ∀ w ∈ words, Unbroken w)
    (htext : trailWords words = nmbr ++ '/' :: text) {j : Nat} (hj : nmbr.length + 1 + (text.length + 1 + j) = 7) :
    ∃ ps p, replTokens words 7 junk = nmbr :: (ps ++ p ::
        ((Cut.cutAt isSlash isBlank j false (junk ++ List.replicate 7 NUL)).tail.map fun p => cstr p 0)) ∧
      ['/'].intercalate (ps ++ [p]) = Cut.squeeze isSlash isBlank true text := by
  have hnul : NUL ∉ nmbr ++ '/' :: text := by
    rw [← htext]
    exact (Unbroken.trailWords hw).no_nul
  have hnmbr : NUL ∉ nmbr := fun h => hnul (List.mem_append_left _ h)
  have htnul : NUL ∉ text := fun h => hnul (List.mem_append_right _ (List.mem_cons_of_mem _ h))
  obtain ⟨ps, p, q, qs, hcut, hpieces, hjoin, hmem⟩ :=
    @Cut.cutAt_past _ isSlash isBlank '/' (fun _ => isSlash_eq) NUL (by decide) (by decide) j
      (junk ++ List.replicate 7 NUL) true text
  refine ⟨ps, p, ?_, hjoin⟩
  have hbuf : trailWords words ++ NUL :: (junk ++ List.replicate 7 NUL) =
      nmbr ++ '/' :: (text ++ NUL :: (junk ++ List.replicate 7 NUL)) := by
    rw [htext]
    simp
  have hseven : ∀ s : CStr, Cut.cutAt isSlash isBlank 7 false (nmbr ++ '/' :: s) =
      nmbr :: Cut.cutAt isSlash isBlank (text.length + 1 + j) true s := by
    intro s
    rw [← hj]
    exact Cut.cutAt_append hn (by decide) _ s
  have hpiece : ∀ x ∈ ps ++ [p], NUL ∉ x := fun x hx hc => htnul (hmem x hx _ hc)
  have hps : ps.map (fun x => cstr x 0) = ps := by
    rw [List.map_congr_left fun x hx => cstr_zero_of_no_nul (hpiece x (List.mem_append_left _ hx))]
    exact List.map_id ps
  rw [replTokens_buffer, hbuf, hseven, hpieces, List.map_cons, List.map_append, List.map_cons, hps,
    cstr_zero_of_no_nul hnmbr, cstr_zero_append (hpiece p (by simp)), hcut]
  rfl

/-- The message of a text that is cut where it has a piece open, or at its NUL and one character
    behind it at most. -/
theorem peer_message (hn : ∀ c ∈ nmbr, isSlash c = false) (hw : ∀ w ∈ words, Unbroken w)
    (htext : trailWords words = nmbr ++ '/' :: text) {k : Nat} (hk : nmbr.length + 1 + k = 7)
    (henough : 4 ≤ nmbr.length + text.length)
    (hopen : k ≤ text.length → Cut.squeeze isSlash isBlank true (text.take k) ≠ []) :
    replMessage (replTokens words 7 junk) = some (peerMessage k text) ∧
      (replTokens words 7 junk).getD 0 [] = nmbr := by
  have hpieces : ∃ q qs, replTokens words 7 junk = nmbr :: q :: qs ∧
      ['/'].intercalate (q :: qs) = peerMessage k text := by
    by_cases hlen : text.length < k
    · obtain ⟨j, hj⟩ : ∃ j, k = text.length + 1 + j := ⟨k - text.length - 1, by omega⟩
      obtain ⟨ps, p, htok, hjoin⟩ := @tokens_of_short_text nmbr text words junk hn hw htext j (by omega)
      -- one character behind the NUL makes no further token
      have htail : ∀ s : CStr, (Cut.cutAt isSlash isBlank j false s).tail = [] := by
        intro s
        have hone : j = 0 ∨ j = 1 := by omega
        rcases hone with rfl | rfl
        · rfl
        · cases s with
          | nil => rfl
          | cons c s =>
            simp only [Cut.cutAt, Bool.false_and, Bool.false_eq_true, if_false]
            split <;> rfl
      rw [htail, List.map_nil] at htok
      rw [peerMessage, if_pos hlen, ← hjoin]
      cases ps with
      | nil => exact ⟨p, [], htok, rfl⟩
      | cons q ps => exact ⟨q, ps ++ [p], htok, rfl⟩
    · have hle : k ≤ text.length := Nat.le_of_not_lt hlen
      have hne : Cut.cutAt isSlash isBlank k true text ≠ [] := by
        rw [ne_eq, ← Cut.squeeze_take_eq_nil_iff]
        exact hopen hle
      obtain ⟨q, qs, hq⟩ := List.exists_cons_of_ne_nil hne
      refine ⟨q, qs, ?_, ?_⟩
      · rw [tokens_of_long_text hn hw htext hk hle, hq]
      · rw [← hq, Cut.intercalate_cutAt fun _ => isSlash_eq, peerMessage, if_neg hlen]
  obtain ⟨q, qs, htok, hjoin⟩ := hpieces
  constructor
  · rw [replMessage_eq_some]
    exact ⟨nmbr, q, qs, htok, hjoin.symm⟩
  · rw [htok]
    rfl

theorem intercalate_concat (q r : CStr) (qs : List CStr) :
    ['/'].intercalate (q :: (qs ++ [r])) = ['/'].intercalate (q :: qs) ++ '/' :: r := by
  induction qs generalizing q with
  | nil => simp
  | cons p qs ih =>
    rw [List.cons_append, List.intercalate_cons_cons, ih p, List.intercalate_cons_cons]
    simp only [List.append_assoc]

/-- What is behind the NUL of a shorter text may be a piece more, with all that follows it there. -/
theorem peer_message_junk (hn : ∀ c ∈ nmbr, isSlash c = false) (hw : ∀ w ∈ words, Unbroken w)
    (htext : trailWords words = nmbr ++ '/' :: text) (hshort : nmbr.length + text.length < 4) {c : Char} {s : CStr}
    (hc : isSlash c = false) (hblank : isBlank c = false) (hs : ∀ x ∈ s.take 3, isSlash x = false) (hnul : NUL ∉ c :: s) :
    replMessage (replTokens words 7 ('/' :: c :: s)) = some (Cut.squeeze isSlash isBlank true text ++ '/' :: c :: s) ∧
      (replTokens words 7 ('/' :: c :: s)).getD 0 [] = nmbr := by
  obtain ⟨j, hj⟩ : ∃ j, nmbr.length + 1 + (text.length + 1 + (j + 2)) = 7 :=
    ⟨3 - nmbr.length - text.length, by omega⟩
  obtain ⟨ps, p, htok, hjoin⟩ := @tokens_of_short_text nmbr text words ('/' :: c :: s) hn hw htext (j + 2) hj
  have htail : (Cut.cutAt isSlash isBlank (j + 2) false ('/' :: c :: s ++ List.replicate 7 NUL)).tail.map
      (fun p => cstr p 0) = [c :: s] := by
    have hopen : Cut.cutAt isSlash isBlank j false (s ++ List.replicate 7 NUL) = [s ++ List.replicate 7 NUL] := by
      apply Cut.cutAt_of_no_sep
      intro x hx
      rw [List.take_append] at hx
      rcases List.mem_append.1 hx with hx | hx
      · exact hs x (List.take_subset_take_left s (by omega) hx)
      · rw [List.eq_of_mem_replicate (List.mem_of_mem_take hx)]
        rfl
    have hcut : Cut.cutAt isSlash isBlank (j + 2) false ('/' :: c :: s ++ List.replicate 7 NUL) =
        [[], c :: s ++ List.replicate 7 NUL] := by
      have hslash : isSlash '/' = true := rfl
      rw [List.cons_append, Cut.cutAt, Bool.false_and, if_neg (by decide), if_pos hslash, List.cons_append, Cut.cutAt,
        hblank, Bool.and_false, if_neg (by decide), hc, if_neg (by decide), hopen]
      rfl
    rw [hcut]
    exact congrArg (fun p => [p]) (cstr_zero_append hnul)
  rw [htail] at htok
  have hpieces : ∃ q qs, ps ++ [p] = q :: qs := List.exists_cons_of_ne_nil (by simp)
  obtain ⟨q, qs, hq⟩ := hpieces
  have hall : replTokens words 7 ('/' :: c :: s) = nmbr :: q :: (qs ++ [c :: s]) := by
    have happend : ps ++ [p, c :: s] = (ps ++ [p]) ++ [c :: s] := by simp
    rw [htok, happend, hq, List.cons_append]
  constructor
  · rw [replMessage_eq_some]
    refine ⟨nmbr, q, qs ++ [c :: s], hall, ?_⟩
    rw [← hjoin, hq, intercalate_concat]
  · rw [hall]
    rfl

end

/-! The COMMIT at the peer. -/

section
variable {nmbr message : CStr} {w : CStr} {ws : List CStr}

theorem commandOf_commit_replace (hrec : Received (commitReplaceRequest nmbr message)) :
    commandOf (commitReplaceRequest nmbr message) =
      "commit".toList :: "replace".toList :: wordsBehind (nmbr ++ '/' :: message) := by
  have hpre : "commit replace ".toList = "commit".toList ++ ' ' :: ("replace".toList ++ [' ']) := by decide
  have hline : commitReplaceRequest nmbr message =
      ("commit".toList ++ ' ' :: ("replace".toList ++ ' ' :: (nmbr ++ '/' :: message))) ++ [' '] := by
    unfold commitReplaceRequest
    rw [hpre]
    generalize "commit".toList = w
    generalize "replace".toList = v
    simp
  have hnul := hrec.no_nul
  rw [hline] at hnul ⊢
  have hcommit : ∀ c ∈ "commit".toList, isWordSep c = false := no_sep_of_all (by decide)
  have hreplace : ∀ c ∈ "replace".toList, isWordSep c = false := no_sep_of_all (by decide)
  rw [commandOf_snoc hnul, wordsOf, Cut.cut_false_append hcommit (by decide),
    cut_word hreplace (by decide), Cut.cut_false_append hreplace (by decide)]
  rfl

/-- Words with a blank behind each are found again, but for the empty ones. -/
theorem wordsBehind_trailWords {words : List CStr} (hs : Split words) : wordsBehind (trailWords words) = filled words := by
  induction words with
  | nil => rfl
  | cons w words ih =>
    have hw : ∀ c ∈ w, isWordSep c = false := hs w (by simp)
    have ih := ih fun v hv => hs v (by simp [hv])
    rw [trailWords_cons]
    by_cases hne : w = []
    · subst hne
      have hblank : wordsBehind (' ' :: trailWords words) = wordsBehind (trailWords words) := by
        rw [wordsBehind, Cut.cut]
        rfl
      rw [List.nil_append, hblank, ih]
      rfl
    · have hfill : filled (w :: words) = w :: filled words := by simp [filled, hne]
      rw [hfill, ← ih, wordsBehind, cut_word hw hne, Cut.cut_false_append hw (by decide)]
      rfl

/-- The words of the request at the peer: together they are the number and `peerText`. -/
theorem peer_words (hn : ∀ c ∈ nmbr, isWordSep c = false) (hs : Split (w :: ws)) :
    ∃ words, wordsBehind (nmbr ++ '/' :: handedMessage w ws) = words ∧ words ≠ [] ∧
      trailWords words = nmbr ++ '/' :: peerText w ws := by
  have hnumber : ∀ v : CStr, (∀ c ∈ v, isWordSep c = false) → ∀ c ∈ nmbr ++ '/' :: v, isWordSep c = false := by
    intro v hv c hc
    rcases List.mem_append.1 hc with hc | hc
    · exact hn c hc
    · rcases List.mem_cons.1 hc with rfl | hc
      · rfl
      · exact hv c hc
  have hw : ∀ c ∈ w, isWordSep c = false := hs w (by simp)
  rw [handedMessage, peerText]
  split
  · have hlast : ∀ c ∈ nmbr ++ '/' :: w.dropLast, isWordSep c = false :=
      hnumber _ fun c hc => hw c (List.mem_of_mem_dropLast hc)
    refine ⟨[nmbr ++ '/' :: w.dropLast], ?_, by simp, by simp [trailWords]⟩
    have hcut := cut_word hlast (by simp) []
    rwa [List.append_nil, Cut.cut_false_of_no_sep hlast] at hcut
  · have hjoin : nmbr ++ '/' :: trailWords (w :: ws) = trailWords ((nmbr ++ '/' :: w) :: ws) := by
      simp [trailWords_cons]
    have hsplit : Split ((nmbr ++ '/' :: w) :: ws) := by
      intro v hv
      rcases List.mem_cons.1 hv with rfl | hv
      · exact hnumber w hw
      · exact hs v (List.mem_cons_of_mem w hv)
    have hfill : filled ((nmbr ++ '/' :: w) :: ws) = (nmbr ++ '/' :: w) :: filled ws := by simp [filled]
    refine ⟨(nmbr ++ '/' :: w) :: filled ws, ?_, by simp, by simp [trailWords_cons]⟩
    rw [hjoin, wordsBehind_trailWords hsplit, hfill]

/-- The session after a COMMIT of a REPLACE of the line. -/
def Peer.savedLine (p : Peer) (nmbr l : CStr) : Peer :=
  { p with
    pc := .ready, undo_command := "replace".toList, undo_nmbr := nmbr,
    undo_user := (tokenizedText l p.undo_user p.undo_message).1,
    undo_message := (tokenizedText l p.undo_user p.undo_message).2 }

/-- The file operations of a COMMIT of a REPLACE on a file where the number is live below 2^31. -/
theorem finish_replace {p : Peer} {ls : List CStr} {l : CStr} (junk : Junk)
    (hc : ∀ x ∈ ls, Clean x) (hl : lineOf nmbr ls = some l) (hstart : (lineStart nmbr (fileOf ls) : Int) ≤ INT_MAX) :
    Peer.finish junk 4 ({ p with pc := .replaceCheck nmbr message }, none, diskOf (fileOf ls)) =
      some (p.savedLine nmbr l, some .positive, diskOf (fileOf (deleteIn nmbr ls ++ [mkLine nmbr p.user message]))) := by
  have hread := readDescriptor_diskOf rfl hc junk.line nmbr
  rw [hl] at hread
  have hsave := readTokenizedDescriptor_diskOf rfl hc junk.line nmbr p.undo_user p.undo_message
  rw [hl, tokenizedAnswer] at hsave
  have hdel := deleteDescriptor_diskOf rfl hc junk hl hstart
  have hwrite := writeDescriptor_lines (rfl : fileOf (deleteIn nmbr ls) = _) nmbr p.user message
  have hfound : (readAnswer (some l)).1 ≠ -1 := by
    rw [readAnswer]
    omega
  have hpos : ¬ (l.length : Int) + 1 < 0 := by omega
  rw [Peer.finish_replaceCheck, hread, Option.bind_some]
  dsimp only
  rw [if_neg hfound, hsave, Option.bind_some]
  dsimp only
  rw [hdel, Option.map_some]
  dsimp only
  rw [if_neg hpos, hwrite]
  rfl

/-- The COMMIT of a REPLACE, by the message that the peer finds. -/
theorem run_commit_replace {b : Board} {p : Peer} {words : List CStr} (junk : Junk)
    (hrec : Received (commitReplaceRequest nmbr message)) (hwords : wordsBehind (nmbr ++ '/' :: message) = words)
    (hne : words ≠ []) (hlive : nmbr ∈ liveIds b.lines) (hstart : (lineStart nmbr b.bytes : Int) ≤ INT_MAX) :
    (replMessage (replTokens words 7 junk.line) = none →
      ∃ p' d, p.run junk (commitReplaceRequest nmbr message) (diskOf b.bytes) = some (p', some .negative, d)) ∧
    (∀ message', replMessage (replTokens words 7 junk.line) = some message' →
      (replTokens words 7 junk.line).getD 0 [] = nmbr →
      ∃ p', p.run junk (commitReplaceRequest nmbr message) (diskOf b.bytes) =
        some (p', some .positive, diskOf (fileOf (deleteIn nmbr b.texts ++ [mkLine nmbr p.user message'])))) := by
  have hcommand := commandOf_commit_replace hrec
  rw [hwords] at hcommand
  have hlen : (commandOf (commitReplaceRequest nmbr message)).length > 2 := by
    have := List.length_pos_of_ne_nil hne
    rw [hcommand]
    simp only [List.length_cons]
    omega
  have hcommit : tolwr ((commandOf (commitReplaceRequest nmbr message)).getD 0 []) = "commit".toList := by
    rw [hcommand, List.getD_cons_zero]
    decide
  have hkind : (commandOf (commitReplaceRequest nmbr message)).getD 1 [] = "replace".toList := by
    rw [hcommand]
    rfl
  have hdrop : (commandOf (commitReplaceRequest nmbr message)).drop 2 = words := by
    rw [hcommand]
    rfl
  have hrun := @Peer.run_of_replace p _ junk (diskOf b.bytes) hcommit hkind hlen
  rw [hdrop] at hrun
  constructor
  · intro hnone
    rw [hrun, hnone]
    dsimp only
    exact ⟨_, _, Peer.finish_done (Or.inr rfl) 4⟩
  · intro message' hmessage hnmbr
    have hone := Board.copies_eq_one hlive
    obtain ⟨l, hl⟩ := lineOf_ne_none (by omega : copies nmbr b.texts ≠ 0)
    rw [hrun, hmessage]
    dsimp only
    rw [hnmbr]
    exact ⟨_, finish_replace junk b.texts_clean hl hstart⟩

/-- The coordinator's own replace. -/
theorem replaceDescriptor_live {b : Board} (junk : Junk) (poster : CStr) (hlive : nmbr ∈ liveIds b.lines)
    (hstart : (lineStart nmbr b.bytes : Int) ≤ INT_MAX) : replaceDescriptor junk nmbr poster message (diskOf b.bytes) =
      some (0, diskOf (fileOf (deleteIn nmbr b.texts ++ [mkLine nmbr poster message]))) := by
  have hone := Board.copies_eq_one hlive
  obtain ⟨l, hl⟩ := lineOf_ne_none (by omega : copies nmbr b.texts ≠ 0)
  exact replaceDescriptor_lines junk poster message b.texts_clean hl hstart

theorem lineOf_deleteIn_live {b : Board} (hlive : nmbr ∈ liveIds b.lines) : lineOf nmbr (deleteIn nmbr b.texts) = none := by
  rw [← copies_eq_zero, copies_deleteIn (Board.isNumeral_of_mem hlive), Board.copies_eq_one hlive]

end

/-! What a READ shows of a message. -/

/-- The message in the text that a READ gives. -/
def messageText (message : CStr) : CStr :=
  if behindSlash true message then (shown message).dropLast else shown message

/-- The number of characters that are no blanks. -/
def solid (s : CStr) : Nat := (s.filter fun c => !isBlank c).length

section
variable {nmbr user user' message message' : CStr}

theorem solid_append (a b : CStr) : solid (a ++ b) = solid a + solid b := by
  rw [solid, List.filter_append, List.length_append]
  rfl

theorem solid_shown (s : CStr) : solid (shown s) = solid s := congrArg List.length (Cut.filter_squeeze true s)

theorem solid_eq_zero {s : CStr} : solid s = 0 ↔ ∀ c ∈ s, isBlank c = true := by
  simp [solid, List.filter_eq_nil_iff]

theorem shown_ne_nil {s : CStr} (h : solid s ≠ 0) : shown s ≠ [] := by
  intro hnil
  rw [← solid_shown, hnil] at h
  exact h rfl

theorem shown_eq_nil {s : CStr} (h : ∀ c ∈ s, isBlank c = true) : shown s = [] :=
  Cut.squeeze_eq_nil_iff.2 (Cut.cut_true_eq_nil h)

theorem lineText_alike (hk : ∀ c ∈ nmbr, isSlash c = false) (hu : ShownAlike user user')
    (hm : shown message = shown message') : lineText (mkLine nmbr user message) = lineText (mkLine nmbr user' message') := by
  have htok : ∀ u m : CStr, tokensOf (mkLine nmbr u m) =
      nmbr :: Cut.cut isSlash isBlank true (shown u ++ '/' :: shown m) := by
    intro u m
    have hline : mkLine nmbr u m = nmbr ++ '/' :: (u ++ '/' :: m) := by simp [mkLine]
    rw [tokensOf, hline, Cut.cut_false_append hk (by decide), ← squeeze_slash, Cut.cut_squeeze]
  rw [lineText, lineText, htok, htok, hm, show shown user = shown user' from hu]

theorem lineText_shown (hk : ∀ c ∈ nmbr, isSlash c = false) (user : CStr) (hne : shown message ≠ []) :
    lineText (mkLine nmbr user message) = shown user ++ '/' :: messageText message := by
  have hcut : Cut.cut isSlash isBlank true message ≠ [] := fun h => hne (Cut.squeeze_eq_nil_iff.2 h)
  rw [lineText_squeeze hk user hcut, messageText]
  split
  · rw [List.dropLast_append_of_ne_nil (List.cons_ne_nil _ _), List.dropLast_cons_of_ne_nil hne]
  · rfl

/-- A READ shows nothing of a blank message, not even the slash behind the name. -/
theorem lineText_blank (hk : ∀ c ∈ nmbr, isSlash c = false) (user : CStr) (h : shown message = []) :
    (lineText (mkLine nmbr user message)).length ≤ (shown user).length := by
  have halike : lineText (mkLine nmbr user message) = lineText (mkLine nmbr user []) :=
    lineText_alike hk (rfl : shown user = shown user) h
  have hline : mkLine nmbr user [] = nmbr ++ '/' :: (user ++ ['/']) := by simp [mkLine]
  have htok : tokensOf (mkLine nmbr user []) = nmbr :: Cut.cut isSlash isBlank true (user ++ ['/']) := by
    rw [tokensOf, hline, Cut.cut_false_append hk (by decide)]
  have hskips : Cut.skips isSlash isBlank true (user ++ ['/']) = true := Cut.skips_concat rfl true user
  have hjoin : ['/'].intercalate (Cut.cut isSlash isBlank true (user ++ ['/'])) = shown user := by
    have hsqueeze := squeeze_slash user []
    rw [Cut.intercalate_cut fun _ => isSlash_eq, hskips, if_pos rfl, hsqueeze]
    exact List.dropLast_concat
  rw [halike, lineText, htok]
  rcases hcut : Cut.cut isSlash isBlank true (user ++ ['/']) with _ | ⟨p, _ | ⟨q, ps⟩⟩
  · exact Nat.zero_le _
  · exact Nat.zero_le _
  · rw [hcut, List.intercalate_cons_cons] at hjoin
    rw [assembleLine_eq nmbr p (List.cons_ne_nil q ps), ← hjoin]
    simp

/-- The slash that a READ drops. -/
theorem solid_messageText (hne : shown message ≠ []) :
    solid (messageText message) + (if behindSlash true message then 1 else 0) = solid message := by
  rw [messageText]
  split
  · next h =>
    obtain ⟨q, c, hq, hc⟩ := (Cut.squeeze_of_skips h).resolve_left fun hnil => hne hnil.1
    obtain rfl := isSlash_eq hc
    have hq : shown message = q ++ ['/'] := hq
    have hsolid := solid_shown message
    rw [hq, solid_append] at hsolid
    rw [hq, List.dropLast_concat, ← hsolid]
    rfl
  · rw [Nat.add_zero, solid_shown]

end

/-! The coordinator's message against the peer's text. -/

section
variable {w : CStr} {ws : List CStr}

/-- With the blank at the other end. -/
theorem cons_trailWords (words : List CStr) : ' ' :: trailWords words = joinWords words ++ [' '] := by
  induction words with
  | nil => rfl
  | cons w words ih =>
    have hjoin : joinWords (w :: words) = ' ' :: (w ++ joinWords words) := rfl
    rw [trailWords_cons, hjoin, ih]
    simp

/-- A blank at the end is shown unless it stands behind a slash. -/
theorem shown_blank (s : CStr) : shown (s ++ [' ']) = (if behindSlash true s then shown s else shown s ++ [' ']) ∧
    behindSlash true (s ++ [' ']) = behindSlash true s := by
  have hskips : behindSlash true (s ++ [' ']) = Cut.skips isSlash isBlank (behindSlash true s) [' '] :=
    Cut.skips_append true s [' ']
  have hsqueeze : shown (s ++ [' ']) = shown s ++ Cut.squeeze isSlash isBlank (behindSlash true s) [' '] :=
    Cut.squeeze_append true s [' ']
  rw [hskips, hsqueeze]
  cases behindSlash true s with
  | true => exact ⟨List.append_nil _, rfl⟩
  | false => exact ⟨rfl, rfl⟩

theorem shown_trailWords (words : List CStr) : shown (trailWords words) =
      (if behindSlash true (joinWords words) then shown (joinWords words) else shown (joinWords words) ++ [' ']) ∧
    behindSlash true (trailWords words) = behindSlash true (joinWords words) := by
  have hblank : shown (' ' :: trailWords words) = shown (trailWords words) ∧
      behindSlash true (' ' :: trailWords words) = behindSlash true (trailWords words) := ⟨rfl, rfl⟩
  rw [← hblank.1, ← hblank.2, cons_trailWords]
  exact shown_blank _

theorem messageText_trailWords (words : List CStr) : messageText (trailWords words) =
    if behindSlash true (joinWords words) then (shown (joinWords words)).dropLast
    else shown (joinWords words) ++ [' '] := by
  obtain ⟨hshown, hbehind⟩ := shown_trailWords words
  rw [messageText, hbehind, hshown]
  split <;> rfl

theorem solid_trailWords (words : List CStr) : solid (trailWords words) = solid (joinWords words) := by
  have h := congrArg solid (cons_trailWords words)
  rw [solid_append] at h
  exact h

theorem solid_joinWords {words : List CStr} (hs : Split words) : solid (joinWords words) = words.flatten.length := by
  rw [← solid_shown, solid, shown, squeeze_filter hs true]

theorem flatten_filled (words : List CStr) : (filled words).flatten = words.flatten := by
  induction words with
  | nil => rfl
  | cons v words ih =>
    by_cases hv : v = []
    · subst hv
      exact ih
    · have hcons : filled (v :: words) = v :: filled words := by simp [filled, hv]
      rw [hcons, List.flatten_cons, List.flatten_cons, ih]

/-- Both have the same characters, but for blanks, and end alike. -/
theorem handed_solid (hs : Split (w :: ws)) (hne : w ≠ []) : solid (handedMessage w ws) = solid (peerText w ws) ∧
    behindSlash true (handedMessage w ws) = behindSlash true (peerText w ws) := by
  rw [handedMessage, peerText]
  split
  · rw [(shown_blank w.dropLast).2, solid_append]
    exact ⟨rfl, rfl⟩
  · have hfill : w :: filled ws = filled (w :: ws) := by simp [filled, hne]
    rw [hfill, solid_trailWords, solid_trailWords, solid_joinWords hs, solid_joinWords (split_filled hs), flatten_filled,
      (shown_trailWords _).2, (shown_trailWords _).2, (lost hs true).behind]
    exact ⟨rfl, rfl⟩

/-- They read the same when no lost or won blank is seen. -/
theorem handed_read_iff (hs : Split (w :: ws)) (hne : w ≠ []) (hsolid : solid (handedMessage w ws) ≠ 0) :
    messageText (handedMessage w ws) = messageText (peerText w ws) ↔ BlanksKept w ws := by
  rw [handedMessage] at hsolid
  rw [handedMessage, peerText, BlanksKept]
  split
  · next hlast =>
    rw [if_pos hlast] at hsolid
    have hw : ∀ c ∈ w.dropLast, isBlank c = false :=
      fun c hc => isBlank_of_not_sep (hs w (by simp) c (List.mem_of_mem_dropLast hc))
    have hdrop : w.dropLast ≠ [] := by
      intro hnil
      rw [hnil] at hsolid
      exact hsolid rfl
    have hbehind := behindSlash_last hw hdrop true
    obtain ⟨hshown, hend⟩ := shown_blank w.dropLast
    rw [messageText, messageText, hend, hshown, hbehind]
    by_cases hslash : w.dropLast.getLast? = some '/'
    · simp [hslash]
    · simp [hslash, hdrop]
  · have hfill : w :: filled ws = filled (w :: ws) := by simp [filled, hne]
    have hl := lost hs true
    have hsame : messageText (trailWords (w :: ws)) = messageText (trailWords (filled (w :: ws))) ↔
        shown (joinWords (filled (w :: ws))) = shown (joinWords (w :: ws)) := by
      rw [messageText_trailWords, messageText_trailWords, hl.behind]
      cases hb : behindSlash true (joinWords (w :: ws)) with
      | false =>
        simp only [Bool.false_eq_true, if_false, List.append_left_inj]
        exact eq_comm
      | true =>
        -- both end with the slash that is dropped
        have hjoin : solid (joinWords (w :: ws)) ≠ 0 := by
          rw [solid_joinWords hs, List.flatten_cons, List.length_append]
          have := List.length_pos_of_ne_nil hne
          omega
        have hjoin' : solid (joinWords (filled (w :: ws))) ≠ 0 := by
          rwa [solid_joinWords (split_filled hs), flatten_filled, ← solid_joinWords hs]
        obtain ⟨q, c, hq, hc⟩ := (Cut.squeeze_of_skips hb).resolve_left fun h => shown_ne_nil hjoin h.1
        obtain ⟨q', c', hq', hc'⟩ :=
          (Cut.squeeze_of_skips (hl.behind.trans hb)).resolve_left fun h => shown_ne_nil hjoin' h.1
        obtain rfl := isSlash_eq hc
        obtain rfl := isSlash_eq hc'
        rw [if_pos rfl, if_pos rfl, shown, shown, hq, hq', List.dropLast_concat, List.dropLast_concat,
          List.append_left_inj]
        exact eq_comm
    rw [hfill, hsame]
    exact ⟨fun h => hl.seen (congrArg List.length h), hl.unseen⟩

/-- What is cut away of a text is not missed, unless the text is cut behind a slash. -/
theorem shown_peerMessage {k : Nat} {text : CStr} (h : k ≤ text.length → behindSlash true (text.take k) = false) :
    shown (peerMessage k text) = shown text := by
  rw [peerMessage]
  split
  · exact Cut.squeeze_squeeze true text
  · next hlen =>
    have hfalse := h (Nat.le_of_not_lt hlen)
    have hsqueeze := (@Cut.squeeze_squeeze_append _ isSlash isBlank true (text.take k) (text.drop k)).1
    rw [List.take_append_drop] at hsqueeze
    rw [hfalse, if_neg (by decide)]
    exact hsqueeze

/-- A text that is cut behind a slash loses the slash and what follows. -/
theorem peerMessage_cut {k : Nat} {text : CStr} (hk : k ≤ text.length) (h : behindSlash true (text.take k) = true)
    (hopen : shown (text.take k) ≠ []) : ∃ q, shown (text.take k) = q ++ ['/'] ∧ peerMessage k text = q ∧
      shown q = q ∧ solid text = solid q + 1 + solid (text.drop k) := by
  obtain ⟨q, c, hq, hc⟩ := (Cut.squeeze_of_skips h).resolve_left fun hnil => hopen hnil.1
  obtain rfl := isSlash_eq hc
  have hq : shown (text.take k) = q ++ ['/'] := hq
  refine ⟨q, hq, ?_, ?_, ?_⟩
  · have hcut : Cut.squeeze isSlash isBlank true (text.take k) = q ++ ['/'] := hq
    rw [peerMessage, if_neg (by omega), if_pos h, hcut, List.dropLast_concat]
  · have htwice : shown (shown (text.take k)) = shown (text.take k) := Cut.squeeze_squeeze true _
    rw [hq, shown, Cut.squeeze_append] at htwice
    have hslash : Cut.squeeze isSlash isBlank (Cut.skips isSlash isBlank true q) ['/'] = ['/'] := by
      cases Cut.skips isSlash isBlank true q <;> rfl
    rw [hslash] at htwice
    exact List.append_cancel_right htwice
  · have hsolid := solid_shown (text.take k)
    rw [hq, solid_append] at hsolid
    have hall := solid_append (text.take k) (text.drop k)
    rw [List.take_append_drop] at hall
    rw [hall, ← hsolid]
    rfl

/-- A text of which nothing but its last slash is cut away. -/
theorem messageText_of_cut {k : Nat} {text q : CStr} (hq : shown (text.take k) = q ++ ['/'])
    (h : behindSlash true (text.take k) = true) (hdrop : ∀ c ∈ text.drop k, isBlank c = true) : messageText text = q := by
  have hnil : shown (text.drop k) = [] := shown_eq_nil hdrop
  have hsqueeze := @Cut.squeeze_append _ isSlash isBlank true (text.take k) (text.drop k)
  have hskips := @Cut.skips_append _ isSlash isBlank true (text.take k) (text.drop k)
  have htake : Cut.skips isSlash isBlank true (text.take k) = true := h
  have hend : behindSlash true text = true := by
    rw [List.take_append_drop, htake, Cut.skips_of_squeeze_eq_nil hnil] at hskips
    exact hskips
  have hshown : shown text = q ++ ['/'] := by
    rw [List.take_append_drop, htake] at hsqueeze
    rw [shown, hsqueeze, ← hq, ← List.append_nil (shown (text.take k)), ← hnil]
  rw [messageText, if_pos hend, hshown, List.dropLast_concat]

/-- A piece more is seen. -/
theorem lineText_junk_ne {nmbr message text : CStr} (hk : ∀ c ∈ nmbr, isSlash c = false) (user : CStr)
    (hsolid : solid message = solid text) :
    lineText (mkLine nmbr user message) ≠ lineText (mkLine nmbr user (shown text ++ ['/', 'x'])) := by
  intro h
  obtain ⟨message', hmessage'⟩ : ∃ m, m = shown text ++ ['/', 'x'] := ⟨_, rfl⟩
  have hcount : solid message' = solid text + 2 := by
    rw [hmessage', solid_append, solid_shown]
    rfl
  have hend : behindSlash true message' = false := by
    have hlast : message' = (shown text ++ ['/']) ++ ['x'] := by rw [hmessage']; simp
    rw [hlast]
    exact Cut.skips_concat rfl true _
  have hne : shown message' ≠ [] := shown_ne_nil (by omega)
  have hread := solid_messageText hne
  rw [hend, if_neg (by decide)] at hread
  rw [← hmessage', lineText_shown hk user hne] at h
  by_cases hblank : shown message = []
  · have hle := lineText_blank hk user hblank
    rw [h, List.length_append, List.length_cons] at hle
    omega
  · rw [lineText_shown hk user hblank] at h
    have hsame := (List.cons.inj (List.append_cancel_left h)).2
    have hcount' := solid_messageText hblank
    rw [hsame] at hcount'
    omega

/-- A blank message is that of a word `/`. -/
theorem handed_blank (hs : Split (w :: ws)) (hne : w ≠ []) (h : solid (handedMessage w ws) = 0) :
    w.getLast? = some '/' ∧ w.dropLast = [] := by
  have hw : ∀ c ∈ w, isBlank c = false := fun c hc => isBlank_of_not_sep (hs w (by simp) c hc)
  rw [handedMessage] at h
  split at h
  · next hlast =>
    refine ⟨hlast, ?_⟩
    by_contra hdrop
    obtain ⟨c, hc⟩ := List.exists_mem_of_ne_nil _ hdrop
    have hblank := solid_eq_zero.1 h c hc
    rw [hw c (List.mem_of_mem_dropLast hc)] at hblank
    cases hblank
  · obtain ⟨c, hc⟩ := List.exists_mem_of_ne_nil _ hne
    have hblank := solid_eq_zero.1 h c (by rw [trailWords_cons]; exact List.mem_append_left _ hc)
    rw [hw c hc] at hblank
    cases hblank

section
variable {nmbr user user' : CStr} {k : Nat}

/-- A text that is cut behind a slash: that slash must be the one that a READ drops. -/
theorem lineText_cut_iff (hk : ∀ c ∈ nmbr, isSlash c = false) (hu : ShownAlike user user') (hs : Split (w :: ws))
    (hne : w ≠ []) (hle : k ≤ (peerText w ws).length) (hcut : behindSlash true ((peerText w ws).take k) = true)
    (hopen : shown ((peerText w ws).take k) ≠ []) :
    lineText (mkLine nmbr user (handedMessage w ws)) = lineText (mkLine nmbr user' (peerMessage k (peerText w ws))) ↔
      SlashUnseen k (peerText w ws) ∧ messageText (handedMessage w ws) = messageText (peerText w ws) := by
  obtain ⟨q, hq, hmessage, hshown, hcount⟩ := peerMessage_cut hle hcut hopen
  have hsolid := (handed_solid hs hne).1
  have hM : solid (handedMessage w ws) ≠ 0 := by omega
  have hdropped : (Cut.squeeze isSlash isBlank true ((peerText w ws).take k)).dropLast = q := by
    have hq : Cut.squeeze isSlash isBlank true ((peerText w ws).take k) = q ++ ['/'] := hq
    rw [hq, List.dropLast_concat]
  have hqread : behindSlash true q = false → messageText q = q := by
    intro hqend
    rw [messageText, hqend, if_neg (by decide), hshown]
  have hlen : (shown user).length = (shown user').length := congrArg List.length hu
  have hu : shown user = shown user' := hu
  rw [hmessage, lineText_shown hk user (shown_ne_nil hM)]
  constructor
  · intro h
    have hqne : shown q ≠ [] := by
      intro hnil
      have hblank := lineText_blank hk user' hnil
      rw [← h, List.length_append, List.length_cons] at hblank
      omega
    rw [lineText_shown hk user' hqne, hu] at h
    have hsame := (List.cons.inj (List.append_cancel_left h)).2
    -- one slash is cut away at least, and a READ drops one at most
    have hcount₁ := solid_messageText (shown_ne_nil hM)
    have hcount₂ := solid_messageText hqne
    rw [hsame] at hcount₁
    have hone : (if behindSlash true (handedMessage w ws) then 1 else 0) ≤ 1 := by split <;> omega
    have hnone : solid ((peerText w ws).drop k) = 0 ∧ (if behindSlash true q then 1 else 0) = 0 := by omega
    have hqend : behindSlash true q = false := by
      cases hb : behindSlash true q with
      | false => rfl
      | true =>
        rw [hb] at hnone
        exact absurd hnone.2 (by decide)
    have hdrop := solid_eq_zero.1 hnone.1
    refine ⟨fun _ _ => ⟨hdrop, by rw [hdropped, hqend]⟩, ?_⟩
    rw [hsame, hqread hqend, messageText_of_cut hq hcut hdrop]
  · rintro ⟨hunseen, hread⟩
    obtain ⟨hdrop, hqend⟩ := hunseen hle hcut
    rw [hdropped] at hqend
    have hqne : shown q ≠ [] := by
      rw [hshown]
      rintro rfl
      cases hqend
    rw [lineText_shown hk user' hqne, hu, hread, messageText_of_cut hq hcut hdrop, hqread hqend]

/-- Any other text reads as it is. -/
theorem lineText_whole_iff (hk : ∀ c ∈ nmbr, isSlash c = false) (hu : ShownAlike user user') (hs : Split (w :: ws))
    (hne : w ≠ []) (hwhole : k ≤ (peerText w ws).length → behindSlash true ((peerText w ws).take k) = false) :
    lineText (mkLine nmbr user (handedMessage w ws)) = lineText (mkLine nmbr user' (peerMessage k (peerText w ws))) ↔
      BlanksKept w ws := by
  have hsolid := (handed_solid hs hne).1
  have halike : lineText (mkLine nmbr user' (peerMessage k (peerText w ws))) = lineText (mkLine nmbr user (peerText w ws)) :=
    lineText_alike hk hu.symm (shown_peerMessage hwhole)
  rw [halike]
  by_cases hM : solid (handedMessage w ws) = 0
  · obtain ⟨hlast, hdrop⟩ := handed_blank hs hne hM
    have hnil := shown_eq_nil (solid_eq_zero.1 hM)
    have hnil' := shown_eq_nil (solid_eq_zero.1 (hsolid ▸ hM))
    have hkept : BlanksKept w ws := by
      rw [BlanksKept, if_pos hlast]
      exact Or.inl hdrop
    exact iff_of_true (lineText_alike hk (rfl : shown user = shown user) (hnil.trans hnil'.symm)) hkept
  · rw [lineText_shown hk user (shown_ne_nil hM), lineText_shown hk user (shown_ne_nil (hsolid ▸ hM)),
      ← handed_read_iff hs hne hM]
    constructor
    · intro h
      exact (List.cons.inj (List.append_cancel_left h)).2
    · intro h
      rw [h]

/-- **The two lines read the same** exactly when no slash is cut away that is seen, and no blank is
    lost or won. -/
theorem lineText_handed_iff (hk : ∀ c ∈ nmbr, isSlash c = false) (hu : ShownAlike user user') (hs : Split (w :: ws))
    (hne : w ≠ []) (hopen : k ≤ (peerText w ws).length → shown ((peerText w ws).take k) ≠ []) :
    lineText (mkLine nmbr user (handedMessage w ws)) = lineText (mkLine nmbr user' (peerMessage k (peerText w ws))) ↔
      SlashUnseen k (peerText w ws) ∧ BlanksKept w ws := by
  by_cases hcut : k ≤ (peerText w ws).length ∧ behindSlash true ((peerText w ws).take k) = true
  · have hM : solid (handedMessage w ws) ≠ 0 := by
      obtain ⟨q, -, -, -, hcount⟩ := peerMessage_cut hcut.1 hcut.2 (hopen hcut.1)
      have hsolid := (handed_solid hs hne).1
      omega
    rw [lineText_cut_iff hk hu hs hne hcut.1 hcut.2 (hopen hcut.1), handed_read_iff hs hne hM]
  · have hunseen : SlashUnseen k (peerText w ws) := fun hle h => absurd ⟨hle, h⟩ hcut
    rw [lineText_whole_iff hk hu hs hne fun hle => Bool.eq_false_iff.2 fun h => hcut ⟨hle, h⟩]
    exact (and_iff_right hunseen).symm

end

end

/-! The theorem. -/

section
variable {line nmbr message : CStr} {w : CStr} {ws : List CStr}

/-- A REPLACE with a number and a message has both in its first word. -/
theorem replaceArguments_form {junk : List Char} (hline : Received line)
    (h : replaceArguments junk (commandOf line) = some (nmbr, message)) :
    ∃ command w ws, commandOf line = command :: (nmbr ++ '/' :: w) :: ws ∧ w ≠ [] ∧
      (∀ c ∈ nmbr, isSlash c = false) ∧ message = handedMessage w ws := by
  obtain ⟨message', hmessage, hpair⟩ := Option.map_eq_some_iff.1 h
  obtain ⟨hnmbr, rfl⟩ := Prod.mk.inj hpair
  obtain ⟨p, q, ps, htok, -⟩ := replMessage_eq_some.1 hmessage
  rw [htok, List.getD_cons_zero] at hnmbr
  subst hnmbr
  match hcommand : commandOf line with
  | [] =>
    rw [hcommand] at htok
    cases htok
  | [command] =>
    rw [hcommand] at htok
    cases htok
  | command :: x :: ws =>
    have hu : ∀ v ∈ x :: ws, Unbroken v := by
      intro v hv
      have h := hline.words v
      rw [hcommand] at h
      exact (h (List.mem_cons_of_mem _ hv)).1
    have hfirst := replTokens_first junk hu
    rw [hcommand] at htok
    have htok : replTokens (x :: ws) x.length junk = p :: q :: ps := htok
    rw [List.getD_cons_zero, htok] at hfirst
    obtain ⟨c, r, hsplit, hn, hc, hlt⟩ := Cut.cutAt_head hfirst.symm
    obtain rfl := isSlash_eq hc
    rw [trailWords_cons] at hsplit
    -- the slash is within the word
    obtain ⟨w, hx⟩ : ∃ w, x = p ++ '/' :: w := by
      rcases List.append_eq_append_iff.1 hsplit with ⟨s, hp, -⟩ | ⟨s, hx, hs⟩
      · rw [hp, List.length_append] at hlt
        omega
      · cases s with
        | nil =>
          rw [hx, List.append_nil] at hlt
          omega
        | cons d s =>
          obtain ⟨rfl, -⟩ := List.cons.inj hs
          exact ⟨s, hx⟩
    subst hx
    have hne : w ≠ [] := by
      rintro rfl
      have hcut : Cut.cutAt isSlash isBlank (p.length + 1 + 0) false (p ++ '/' :: ' ' :: trailWords ws) =
          p :: Cut.cutAt isSlash isBlank 0 true (' ' :: trailWords ws) := Cut.cutAt_append hn (by decide) 0 _
      have hlen : (p ++ ['/']).length = p.length + 1 + 0 := by simp
      rw [trailWords_cons, hlen, List.append_assoc, List.singleton_append, hcut] at hfirst
      cases hfirst
    refine ⟨command, w, ws, rfl, hne, hn, ?_⟩
    have hw : ∀ c ∈ w, isBlank c = false := by
      intro c hc
      have h := hline.words (p ++ '/' :: w)
      rw [hcommand] at h
      exact isBlank_of_not_sep ((h (by simp)).2 c (by simp [hc]))
    have hargs := replaceArguments_eq hn hw hne hu junk command
    rw [hcommand, hargs] at h
    exact (Prod.mk.inj (Option.some.inj h)).2.symm

theorem Received.of_commit_replace (h : Received (commitReplaceRequest nmbr message)) :
    Unbroken nmbr ∧ Unbroken message ∧ nmbr.length + message.length + 17 ≤ MAX_LEN := by
  obtain ⟨hnmbr, hmessage, hlen⟩ := Received.of_parts h
  have hfifteen : "commit replace ".toList.length = 15 := by decide
  exact ⟨hnmbr, hmessage, by omega⟩

/-- The peer's message is part of its text. -/
theorem peerMessage_sublist (k : Nat) (text : CStr) : (peerMessage k text).Sublist text := by
  rw [peerMessage]
  split
  · exact Cut.squeeze_sublist true text
  · split
    · exact (List.dropLast_sublist _).trans ((Cut.squeeze_sublist true _).trans (List.take_sublist k text))
    · have htake := @Cut.squeeze_sublist _ isSlash isBlank true (text.take k)
      have h := htake.append (List.Sublist.refl (text.drop k))
      rwa [List.take_append_drop] at h

/-- The words of the request at the peer, with what a line of theirs takes. -/
structure PeerWords (nmbr message text : CStr) (words : List CStr) : Prop where
  split : wordsBehind (nmbr ++ '/' :: message) = words
  ne_nil : words ≠ []
  unbroken : ∀ w ∈ words, Unbroken w
  trail : trailWords words = nmbr ++ '/' :: text
  text_unbroken : Unbroken text
  text_le : text.length ≤ message.length + 1

theorem peerWords (hrec : Received (commitReplaceRequest nmbr (handedMessage w ws)))
    (hn : ∀ c ∈ nmbr, isWordSep c = false) (hs : Split (w :: ws)) :
    ∃ words, PeerWords nmbr (handedMessage w ws) (peerText w ws) words := by
  obtain ⟨words, hwords, hne, htrail⟩ := peer_words hn hs
  obtain ⟨hnmbr, hmessage, -⟩ := hrec.of_commit_replace
  have hline : Unbroken (nmbr ++ '/' :: handedMessage w ws) := hnmbr.append (unbroken_slash.append hmessage)
  have hu : ∀ v ∈ words, Unbroken v := by
    intro v hv
    rw [← hwords] at hv
    exact hline.of_subset fun c hc => Cut.mem_of_mem_cut hv c hc
  refine ⟨words, hwords, hne, hu, htrail, ?_, ?_⟩
  · have htext := Unbroken.trailWords hu
    rw [htrail] at htext
    exact htext.of_subset fun c hc => List.mem_append_right _ (List.mem_cons_of_mem _ hc)
  · have hlen : room words ≤ (nmbr ++ '/' :: handedMessage w ws).length + 1 := by
      rw [← hwords]
      exact Cut.cut_length true _
    have htrailLen := congrArg List.length htrail
    rw [trailWords_length, ← room] at htrailLen
    simp only [List.length_append, List.length_cons] at hlen htrailLen
    omega

/-- The line that either side writes, read: the coordinator's message against the one that the peer
    has found. -/
theorem committed_iff {b b' : Board} {p : Peer} {words : List CStr} {text message' : CStr} {junk junk' : Junk}
    {client : Client} (hrec : Received (commitReplaceRequest nmbr message)) (hw : PeerWords nmbr message text words)
    (hpeer : (⟨p.user, true⟩ : Client).Fits) (hclient : client.Fits) (hlive : nmbr ∈ liveIds b.lines)
    (hlive' : nmbr ∈ liveIds b'.lines) (hstart : (lineStart nmbr b.bytes : Int) ≤ INT_MAX)
    (hstart' : (lineStart nmbr b'.bytes : Int) ≤ INT_MAX) (hm : Unbroken message')
    (hlen : message'.length ≤ message.length + 4)
    (hfound : replMessage (replTokens words 7 junk'.line) = some message' ∧
      (replTokens words 7 junk'.line).getD 0 [] = nmbr) :
    (∃ p' d d', p.run junk' (commitReplaceRequest nmbr message) (diskOf b'.bytes) = some (p', some .positive, d') ∧
      replaceDescriptor junk nmbr client.user message (diskOf b.bytes) = some (0, d) ∧
      SameText nmbr d.bbfile d'.bbfile) ↔
        lineText (mkLine nmbr client.user message) = lineText (mkLine nmbr p.user message') := by
  obtain ⟨hnmbr, hmessage, hroom⟩ := hrec.of_commit_replace
  have hsize := hclient.length_le
  have hsize' : p.user.length ≤ MAX_LEN := hpeer.length_le
  unfold MAX_LEN at hsize hsize' hroom
  have hclean : Clean (mkLine nmbr client.user message) :=
    clean_mkLine hnmbr hclient.user hmessage (by unfold BBLINE_LEN; omega)
  have hclean' : Clean (mkLine nmbr p.user message') :=
    clean_mkLine hnmbr hpeer.user hm (by unfold BBLINE_LEN; omega)
  obtain ⟨p', hrun⟩ := (run_commit_replace junk' hrec hw.split hw.ne_nil hlive' hstart').2 message' hfound.1 hfound.2
  have hreplace := @replaceDescriptor_live nmbr message b junk client.user hlive hstart
  rw [hrun, hreplace]
  have hsame := sameText_iff (deleteIn_clean b.texts_clean) (deleteIn_clean b'.texts_clean) (lineOf_deleteIn_live hlive)
    (lineOf_deleteIn_live hlive') (isNumeral_no_slash (Board.isNumeral_of_mem hlive)) hclean hclean'
  rw [← hsame]
  constructor
  · rintro ⟨p', d, d', hrun, hreplace, htext⟩
    simp only [Option.some.injEq, Prod.mk.injEq, true_and] at hrun hreplace
    rwa [← hrun.2, ← hreplace] at htext
  · intro htext
    exact ⟨_, _, _, rfl, rfl, htext⟩

/-- **A REPLACE at the coordinator and at a peer.** The peer answers `positive` and then reads the
    same as the coordinator, if and only if the number, the slashes and the blanks of the
    message come through. -/
theorem replace_replicated_iff {b b' : Board} {p : Peer} {junk : List Char} (hline : Received line)
    (hargs : replaceArguments junk (commandOf line) = some (nmbr, message))
    (hrec : Received (commitReplaceRequest nmbr message)) (hpeer : (⟨p.user, true⟩ : Client).Fits)
    (hlive : nmbr ∈ liveIds b.lines) (hlive' : nmbr ∈ liveIds b'.lines)
    (hstart : (lineStart nmbr b.bytes : Int) ≤ INT_MAX) (hstart' : (lineStart nmbr b'.bytes : Int) ≤ INT_MAX) :
    ReplicatesReplace b b' p nmbr message ↔
      ReplaceKept nmbr (((commandOf line).getD 1 []).drop (nmbr.length + 1)) ((commandOf line).drop 2) := by
  obtain ⟨command, w, ws, hcommand, hne, hn, rfl⟩ := replaceArguments_form hline hargs
  have hrest : ((commandOf line).getD 1 []).drop (nmbr.length + 1) = w := by
    rw [hcommand, List.getD_cons_succ, List.getD_cons_zero]
    simp
  have hdrop : (commandOf line).drop 2 = ws := by rw [hcommand]; rfl
  rw [hrest, hdrop]
  have hwords : ∀ v ∈ (nmbr ++ '/' :: w) :: ws, ∀ c ∈ v, isWordSep c = false := by
    intro v hv
    have h := hline.words v
    rw [hcommand] at h
    exact (h (List.mem_cons_of_mem _ hv)).2
  have hsep : ∀ c ∈ nmbr, isWordSep c = false := fun c hc => hwords _ List.mem_cons_self c (by simp [hc])
  have hs : Split (w :: ws) := by
    intro v hv c hc
    rcases List.mem_cons.1 hv with rfl | hv
    · exact hwords _ List.mem_cons_self c (by simp [hc])
    · exact hwords v (List.mem_cons_of_mem _ hv) c hc
  obtain ⟨words, hw⟩ := peerWords hrec hsep hs
  obtain ⟨text, htext⟩ : ∃ text, text = peerText w ws := ⟨_, rfl⟩
  rw [← htext] at hw
  have hsub : ∀ k, Unbroken (peerMessage k text) ∧ (peerMessage k text).length ≤ (handedMessage w ws).length + 4 := by
    intro k
    have hsub := peerMessage_sublist k text
    have hle := hsub.length_le
    have htle := hw.text_le
    exact ⟨hw.text_unbroken.of_subset fun c hc => hsub.subset hc, by omega⟩
  constructor
  · intro h
    -- no reply is negative
    have hreply : ∀ junk' : List Char, replMessage (replTokens words 7 junk') ≠ none := by
      intro junk' hnone
      obtain ⟨p', d, d', hrun, -⟩ := h ⟨[], []⟩ ⟨junk', []⟩ ⟨p.user, true⟩ hpeer rfl
      obtain ⟨p'', d'', hneg⟩ := (run_commit_replace ⟨junk', []⟩ hrec hw.split hw.ne_nil hlive' hstart').1 hnone
      rw [hneg] at hrun
      simp at hrun
    have hsame : ∀ (junk' : Junk) (message' : CStr), Unbroken message' →
        message'.length ≤ (handedMessage w ws).length + 4 →
        (replMessage (replTokens words 7 junk'.line) = some message' ∧ (replTokens words 7 junk'.line).getD 0 [] = nmbr) →
        lineText (mkLine nmbr p.user (handedMessage w ws)) = lineText (mkLine nmbr p.user message') := by
      intro junk' message' hm hle hfound
      have hcommitted := h ⟨[], []⟩ junk' ⟨p.user, true⟩ hpeer rfl
      rwa [committed_iff hrec hw hpeer hpeer hlive hlive' hstart hstart' hm hle hfound] at hcommitted
    have hdigits : nmbr.length ≤ 5 := by
      by_contra hlong
      exact hreply [] (tokens_of_long_number hn hw.unbroken hw.trail (by omega))
    have hlen : 4 ≤ nmbr.length + text.length := by
      by_contra hshort
      have hfound := @peer_message_junk nmbr text words hn hw.unbroken hw.trail (Nat.lt_of_not_le hshort) 'x' []
        rfl rfl (by simp) (by decide)
      have hsub : (shown text).Sublist text := Cut.squeeze_sublist true text
      have hunbroken : Unbroken (shown text ++ ['/', 'x']) :=
        (hw.text_unbroken.of_subset fun c hc => hsub.subset hc).append ⟨by decide, by decide⟩
      have hle : (shown text ++ ['/', 'x']).length ≤ (handedMessage w ws).length + 4 := by
        have hshown := hsub.length_le
        have htle := hw.text_le
        rw [List.length_append]
        simp only [List.length_cons, List.length_nil]
        omega
      have hjunk := hsame ⟨['/', 'x'], []⟩ _ hunbroken hle hfound
      refine lineText_junk_ne hn p.user ?_ hjunk
      rw [htext]
      exact (handed_solid hs hne).1
    have hopen : 6 - nmbr.length ≤ text.length → shown (text.take (6 - nmbr.length)) ≠ [] := by
      intro hle hnil
      apply hreply []
      rw [tokens_of_long_text hn hw.unbroken hw.trail (by omega) hle, (Cut.squeeze_take_eq_nil_iff _ _).1 hnil]
      rfl
    have hfound := @peer_message nmbr text words [] hn hw.unbroken hw.trail (6 - nmbr.length) (by omega) hlen hopen
    have hread := hsame ⟨[], []⟩ _ (hsub _).1 (hsub _).2 hfound
    rw [htext] at hlen hopen hread
    obtain ⟨hslash, hblanks⟩ := (lineText_handed_iff hn rfl hs hne hopen).1 hread
    exact ⟨hdigits, hlen, hslash, hblanks⟩
  · intro h junk junk' client hclient halike
    have hopen : 6 - nmbr.length ≤ text.length → shown (text.take (6 - nmbr.length)) ≠ [] := by
      intro hle hnil
      have hslash := h.slash
      rw [← htext] at hslash
      have hend := (hslash hle (Cut.skips_of_squeeze_eq_nil hnil)).2
      rw [show Cut.squeeze isSlash isBlank true (text.take (6 - nmbr.length)) = [] from hnil] at hend
      cases hend
    have hlen := h.length_le
    rw [← htext] at hlen
    have hdigits := h.digits
    have hfound := @peer_message nmbr text words junk'.line hn hw.unbroken hw.trail (6 - nmbr.length) (by omega) hlen hopen
    rw [committed_iff hrec hw hpeer hclient hlive hlive' hstart hstart' (hsub _).1 (hsub _).2 hfound]
    rw [htext] at hopen ⊢
    exact (lineText_handed_iff hn halike hs hne hopen).2 ⟨h.slash, h.blanks⟩

end

/-- `REPLACE 1/x/y z` comes through. -/
theorem replace_replicated_slash : ReplicatesReplace oneLine oneLine onePeerReplica.session ['1'] "x/y z ".toList := by
  have hline : Received "REPLACE 1/x/y z\r".toList := ⟨⟨by decide, by decide⟩, by decide⟩
  have hargs : replaceArguments [] (commandOf "REPLACE 1/x/y z\r".toList) = some (['1'], "x/y z ".toList) := by
    decide +kernel
  have hrec : Received (commitReplaceRequest ['1'] "x/y z ".toList) := ⟨⟨by decide, by decide⟩, by decide⟩
  have hpeer : (⟨onePeerReplica.session.user, true⟩ : Client).Fits := ⟨⟨by decide, by decide⟩, by decide⟩
  have hstart : (lineStart ['1'] oneLine.bytes : Int) ≤ INT_MAX := by decide
  have hw : ((commandOf "REPLACE 1/x/y z\r".toList).getD 1 []).drop (['1'].length + 1) = "x/y".toList := by
    decide +kernel
  have hws : (commandOf "REPLACE 1/x/y z\r".toList).drop 2 = [['z']] := by decide +kernel
  refine (replace_replicated_iff hline hargs hrec hpeer (by decide) (by decide) hstart hstart).2 ?_
  rw [hw, hws]
  have hblanks : BlanksKept "x/y".toList [['z']] := by
    rw [BlanksKept, if_neg (by decide)]
    decide
  exact ⟨by decide, by decide, fun _ h => absurd h (by decide), hblanks⟩

/-- `REPLACE 1/ab c/ d` hands `ab c/ d` to the coordinator's file, and the peer writes `ab c`. -/
theorem replace_not_replicated :
    replaceArguments [] (commandOf "REPLACE 1/ab c/ d\r".toList) = some (['1'], "ab c/ d ".toList) ∧
      ¬ ReplicatesReplace oneLine oneLine onePeerReplica.session ['1'] "ab c/ d ".toList := by
  refine ⟨by decide +kernel, fun h => ?_⟩
  have hpeer : (⟨onePeerReplica.session.user, true⟩ : Client).Fits := ⟨⟨by decide, by decide⟩, by decide⟩
  obtain ⟨p', d, d', hrun, hreplace, htext⟩ := h ⟨[], []⟩ ⟨[], []⟩ _ hpeer rfl
  have hd : (replaceDescriptor ⟨[], []⟩ ['1'] "nobody".toList "ab c/ d ".toList (diskOf oneLine.bytes)).map Prod.snd =
      some (diskOf "\x08\x08\x08\x08\x08\n1/nobody/ab c/ d \n".toList) := by decide +kernel
  have hd' : (onePeerReplica.session.run ⟨[], []⟩ (commitReplaceRequest ['1'] "ab c/ d ".toList)
      (diskOf oneLine.bytes)).map (fun r => r.2.2) =
        some (diskOf "\x08\x08\x08\x08\x08\n1/nobody/ab c\n".toList) := by decide +kernel
  rw [hrun] at hd'
  have hreplace : replaceDescriptor ⟨[], []⟩ ['1'] "nobody".toList "ab c/ d ".toList (diskOf oneLine.bytes) =
      some (0, d) := hreplace
  rw [hreplace] at hd
  obtain rfl := Option.some.inj hd
  obtain rfl := Option.some.inj hd'
  exact absurd (htext []) (by decide +kernel)

end BulletinBoard
