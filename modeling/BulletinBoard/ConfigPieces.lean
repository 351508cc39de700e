import BulletinBoard.Config
import BulletinBoard.Requests

/- The loops over the configuration file as runs over the pieces that `readline` delivers. What a
   round reads does not depend on the settings, and the NULs that `strtok` leaves in the buffer
   stand where there was a colon: `atol` of a token of an earlier line stops at both. -/
namespace BulletinBoard

/-! What is read behind a colon does not count. -/

/-- A colon read as the NUL that `strtok` may have put there. -/
def colonAsNul (c : Char) : Char := if c = ':' then NUL else c

/-- Up to the first colon. -/
def beforeColon (s : CStr) : CStr := s.takeWhile (· != ':')

theorem beforeColon_cons {c : Char} (hc : c ≠ ':') (s : CStr) : beforeColon (c :: s) = c :: beforeColon s :=
  List.takeWhile_cons_of_pos (by simpa using hc)

theorem cstr_colonAsNul (buf : List Char) (i : Nat) : cstr (buf.map colonAsNul) i = beforeColon (cstr buf i) := by
  unfold cstr
  rw [← List.map_drop]
  generalize buf.drop i = b
  induction b with
  | nil => rfl
  | cons c b ih =>
    by_cases hc : c = ':'
    · subst hc
      rfl
    · by_cases hn : c = NUL
      · subst hn
        rfl
      · have hsame : colonAsNul c = c := if_neg hc
        have hne : ∀ s : List Char, (c :: s).takeWhile (· != NUL) = c :: s.takeWhile (· != NUL) :=
          fun s => List.takeWhile_cons_of_pos (by simpa using hn)
        rw [List.map_cons, hsame, hne, hne, beforeColon_cons hc, ih]

theorem digits_beforeColon (s : CStr) : (beforeColon s).takeWhile Char.isDigit = s.takeWhile Char.isDigit := by
  induction s with
  | nil => rfl
  | cons c s ih =>
    by_cases hc : c = ':'
    · subst hc
      rfl
    · rw [beforeColon_cons hc, List.takeWhile_cons, List.takeWhile_cons, ih]

theorem dropWhile_beforeColon (s : CStr) :
    (beforeColon s).dropWhile isSpace = beforeColon (s.dropWhile isSpace) := by
  induction s with
  | nil => rfl
  | cons c s ih =>
    by_cases hc : c = ':'
    · subst hc
      rfl
    · rw [beforeColon_cons hc, List.dropWhile_cons, List.dropWhile_cons]
      split
      · exact ih
      · exact (beforeColon_cons hc s).symm

theorem strtol_beforeColon (s : CStr) : strtol (beforeColon s) = strtol s := by
  unfold strtol
  rw [dropWhile_beforeColon]
  cases s.dropWhile isSpace with
  | nil => rfl
  | cons c r =>
    by_cases hc : c = ':'
    · subst hc
      rfl
    · have hdigits := digits_beforeColon (c :: r)
      rw [beforeColon_cons hc] at hdigits ⊢
      split
      · next h =>
        obtain ⟨rfl, rfl⟩ := List.cons.inj h
        rw [digits_beforeColon]
        rfl
      · next h =>
        obtain ⟨rfl, rfl⟩ := List.cons.inj h
        rw [digits_beforeColon]
        rfl
      · next hm hp =>
        rw [hdigits]
        split
        · next h =>
          obtain ⟨rfl, rfl⟩ := List.cons.inj h
          exact absurd rfl (hm _)
        · next h =>
          obtain ⟨rfl, rfl⟩ := List.cons.inj h
          exact absurd rfl (hp _)
        · rfl

/-! Buffers that differ in such NULs only. -/

/-- The same but for NULs in the place of colons. -/
structure Tokens.Like (t t' : Tokens) : Prop where
  command : t.command.map colonAsNul = t'.command.map colonAsNul
  com_tok : t.com_tok = t'.com_tok
  num_tok : t.num_tok = t'.num_tok

theorem Tokens.Like.refl (t : Tokens) : t.Like t := ⟨rfl, rfl, rfl⟩

theorem strtol_like {t t' : Tokens} (h : t.Like t') (i : Nat) :
    strtol (cstr t.command i) = strtol (cstr t'.command i) := by
  rw [← strtol_beforeColon, ← strtol_beforeColon (cstr t'.command i), ← cstr_colonAsNul, ← cstr_colonAsNul, h.command]

theorem strtokMarks_map (n : Nat) (s : CStr) : (strtokMarks n s).map colonAsNul = s.map colonAsNul := by
  induction n generalizing s with
  | zero => rfl
  | succ n ih =>
    rw [strtokMarks]
    split
    · rfl
    · next c r hr =>
      have hc : c = ':' := by
        have h := List.head?_dropWhile_not (· != ':') (s.dropWhile (· == ':'))
        rw [hr] at h
        simpa using h
      subst hc
      have hcolon : colonAsNul NUL = colonAsNul ':' := rfl
      have hs : s.takeWhile (· == ':') ++ ((s.dropWhile (· == ':')).takeWhile (· != ':') ++ ':' :: r) = s := by
        rw [← hr, List.takeWhile_append_dropWhile, List.takeWhile_append_dropWhile]
      rw [List.append_assoc, List.map_append, List.map_append, List.map_cons, ih, hcolon, ← List.map_cons, ← List.map_append,
        ← List.map_append, hs]

theorem markWord_map (command : List Char) (i : Nat) :
    (markWord command i).map colonAsNul = command.map colonAsNul := by
  have hword : cstr command i ++ (command.drop i).dropWhile (· != NUL) = command.drop i :=
    List.takeWhile_append_dropWhile
  rw [markWord, List.append_assoc, List.map_append, List.map_append, strtokMarks_map, ← List.map_append, hword,
    ← List.map_append, List.take_append_drop]

theorem Tokens.mark_like (t : Tokens) : t.mark.Like t := by
  refine ⟨?_, rfl, rfl⟩
  show (((t.com_tok.take t.num_tok).drop 1).foldl markWord t.command).map colonAsNul = t.command.map colonAsNul
  generalize (t.com_tok.take t.num_tok).drop 1 = toks
  generalize t.command = command
  induction toks generalizing command with
  | nil => rfl
  | cons i toks ih => rw [List.foldl_cons, ih, markWord_map]

theorem Tokens.Like.trans {t t' t'' : Tokens} (h : t.Like t') (h' : t'.Like t'') : t.Like t'' :=
  ⟨h.command.trans h'.command, h.com_tok.trans h'.com_tok, h.num_tok.trans h'.num_tok⟩

/-! A round. -/

/-- The tokenizer leaves what is behind its limit. -/
theorem tokenizeLoop_append {sep : Char → Bool} {n : Nat} (tail : List Char) :
    ∀ (f i : Nat) (str : List Char) (tokens : List Nat), str.length = n →
      tokenizeLoop sep n f i (str ++ tail) tokens =
        ((tokenizeLoop sep n f i str tokens).1 ++ tail, (tokenizeLoop sep n f i str tokens).2)
  | 0, _, _, _, _ => rfl
  | f + 1, i, str, tokens, hn => by
    have hskip : ∀ (str : List Char), str.length = n → ∀ g j, skipBlanks (str ++ tail) n g j = skipBlanks str n g j := by
      intro str hn g
      induction g with
      | zero => intro j; rfl
      | succ g ih =>
        intro j
        rw [skipBlanks, skipBlanks, ih]
        by_cases hj : j < n
        · rw [List.getD_append _ _ _ _ (by omega)]
        · rw [if_neg fun h => hj h.1, if_neg fun h => hj h.1]
    rw [tokenizeLoop, tokenizeLoop]
    by_cases hi : i < n
    · have hset : (str ++ tail).set i NUL = str.set i NUL ++ tail := List.set_append_left i NUL (by omega)
      have hlen : (str.set i NUL).length = n := by rw [List.length_set, hn]
      rw [if_pos hi, if_pos hi, List.getD_append _ _ _ _ (by omega)]
      split
      · dsimp only
        rw [hset, hskip _ hlen]
        split
        · exact tokenizeLoop_append tail f _ _ _ hlen
        · exact tokenizeLoop_append tail f _ _ _ hlen
      · exact tokenizeLoop_append tail f _ _ _ hn
    · rw [if_neg hi, if_neg hi]

/-- The text that `readline` delivers, and the descriptor behind it. -/
def readPiece (confd : Stream) : Option (CStr × Stream) :=
  match takeLine 512 confd.bytes confd.fails with
  | (_, _, .error) => none
  | (line, rest, .eof) => if line = [] then none else some (cstr line 0, ⟨rest, confd.fails⟩)
  | (line, rest, _) => some (cstr line 0, ⟨rest, confd.fails⟩)

theorem cstr_no_nul (s : List Char) : NUL ∉ cstr s 0 := by
  intro hm
  have h := List.mem_takeWhile_imp hm
  simp at h

/-- A line and its NUL are the text, a NUL and what was behind that NUL in the line. -/
theorem cstr_split (line : List Char) : ∃ m, ∀ tail, line ++ NUL :: tail = cstr line 0 ++ NUL :: (m ++ tail) := by
  have hsplit : cstr line 0 ++ line.dropWhile (· != NUL) = line := List.takeWhile_append_dropWhile
  cases hd : line.dropWhile (· != NUL) with
  | nil =>
    rw [hd, List.append_nil] at hsplit
    exact ⟨[], fun tail => by rw [hsplit, List.nil_append]⟩
  | cons c r =>
    have hc : c = NUL := by
      have h := List.head?_dropWhile_not (· != NUL) line
      rw [hd] at h
      simpa using h
    refine ⟨r ++ [NUL], fun tail => ?_⟩
    rw [hd, hc] at hsplit
    conv_lhs => rw [← hsplit]
    simp only [List.append_assoc, List.cons_append, List.nil_append]

theorem readline_readPiece {confd confd' : Stream} {text : CStr} (h : readPiece confd = some (text, confd')) :
    NUL ∉ text ∧ ∃ (n : Int) (m : List Char) (k : Nat), 0 ≤ n ∧
      ∀ buf, readline buf 512 confd = (n, text ++ NUL :: (m ++ buf.drop k), confd') := by
  obtain ⟨⟨line, rest, e⟩, he⟩ : ∃ r, takeLine 512 confd.bytes confd.fails = r := ⟨_, rfl⟩
  obtain ⟨m, hm⟩ := cstr_split line
  have hread : ∀ buf : List Char, line ++ NUL :: buf.drop (line.length + 1) =
      cstr line 0 ++ NUL :: (m ++ buf.drop (line.length + 1)) := fun buf => hm _
  rw [readPiece, he] at h
  cases e with
  | error => cases h
  | eof =>
    dsimp only at h
    by_cases hline : line = []
    · rw [if_pos hline] at h
      cases h
    · rw [if_neg hline] at h
      obtain ⟨rfl, rfl⟩ := Prod.mk.inj (Option.some.inj h)
      refine ⟨cstr_no_nul line, line.length, m, line.length + 1, by omega, fun buf => ?_⟩
      rw [readline, he]
      dsimp only
      rw [if_neg hline, hread]
  | newline =>
    obtain ⟨rfl, rfl⟩ := Prod.mk.inj (Option.some.inj h)
    refine ⟨cstr_no_nul line, line.length, m, line.length + 1, by omega, fun buf => ?_⟩
    rw [readline, he]
    dsimp only
    rw [hread]
  | full =>
    obtain ⟨rfl, rfl⟩ := Prod.mk.inj (Option.some.inj h)
    refine ⟨cstr_no_nul line, line.length, m, line.length + 1, by omega, fun buf => ?_⟩
    rw [readline, he]
    dsimp only
    rw [hread]

theorem readline_none {confd : Stream} (h : readPiece confd = none) (buf : List Char) :
    (readline buf 512 confd).1 < 0 := by
  obtain ⟨⟨line, rest, e⟩, he⟩ : ∃ r, takeLine 512 confd.bytes confd.fails = r := ⟨_, rfl⟩
  rw [readPiece, he] at h
  rw [readline, he]
  cases e with
  | error => exact (by decide : (-1 : Int) < 0)
  | eof =>
    dsimp only at h ⊢
    by_cases hline : line = []
    · rw [if_pos hline]
      exact (by decide : recvNodata < 0)
    · rw [if_neg hline] at h
      cases h
  | newline => cases h
  | full => cases h

/-- The buffers after a text was read and cut. -/
def Tokens.load (t : Tokens) (text : CStr) (m : List Char) (k : Nat) : Tokens :=
  ⟨(strTokenize text text.length).1 ++ NUL :: (m ++ t.command.drop k),
    (strTokenize text text.length).2 ++ t.com_tok.drop (strTokenize text text.length).2.length,
    (strTokenize text text.length).2.length⟩

theorem Tokens.next_none {confd : Stream} (h : readPiece confd = none) (t : Tokens) : t.next confd = none := by
  have hneg := readline_none h t.command
  obtain ⟨⟨n, command, confd'⟩, hr⟩ : ∃ r, readline t.command 512 confd = r := ⟨_, rfl⟩
  rw [hr] at hneg
  rw [Tokens.next, hr]
  dsimp only at hneg ⊢
  split
  · rfl
  · rfl

theorem Tokens.next_some {confd confd' : Stream} {text : CStr} (h : readPiece confd = some (text, confd')) :
    NUL ∉ text ∧ ∃ m k, ∀ t : Tokens, t.next confd = some (t.load text m k, confd') := by
  obtain ⟨hnul, n, m, k, hn, hread⟩ := readline_readPiece h
  refine ⟨hnul, m, k, fun t => ?_⟩
  have hne : n ≠ recvNodata := by
    intro he
    rw [he] at hn
    exact absurd hn (by decide)
  rw [Tokens.next, hread]
  dsimp only
  rw [if_neg hne, if_neg (by omega), cstr_zero_append hnul, strTokenize, tokenizeLoop_append _ _ _ _ _ rfl]
  rfl

section
variable {text : CStr} {m : List Char} {k : Nat}

theorem load_like {t t' : Tokens} (h : t.Like t') : (t.load text m k).Like (t'.load text m k) := by
  refine ⟨?_, ?_, rfl⟩
  · show (_ ++ NUL :: (m ++ t.command.drop k)).map colonAsNul = (_ ++ NUL :: (m ++ t'.command.drop k)).map colonAsNul
    rw [List.map_append, List.map_cons, List.map_append, List.map_drop, h.command, ← List.map_drop, ← List.map_append,
      ← List.map_cons, ← List.map_append]
  · show _ ++ t.com_tok.drop _ = _ ++ t'.com_tok.drop _
    rw [h.com_tok]

/-- The tokens are the words of the text. -/
theorem load_words (hnul : NUL ∉ text) (t : Tokens) : (t.load text m k).piece.words = wordsOf text := by
  have htail : cstr (NUL :: (m ++ t.command.drop k)) 0 = [] := rfl
  have htok := @strTokenize_tokens text.length text _ hnul htail (le_refl _)
  rw [Cut.cutAt_of_length_le _ _ _ (le_refl _)] at htok
  rw [strTokenize, tokenizeLoop_append _ _ _ _ _ rfl] at htok
  have htake : (t.load text m k).com_tok.take (t.load text m k).num_tok = (strTokenize text text.length).2 :=
    List.take_left
  show ((t.load text m k).com_tok.take (t.load text m k).num_tok).map (cstr (t.load text m k).command) = _
  rw [htake]
  exact htok

theorem load_piece {t t' : Tokens} (hnul : NUL ∉ text) (h : t.Like t') :
    (t.load text m k).piece = (t'.load text m k).piece := by
  have hwords : (t.load text m k).piece.words = (t'.load text m k).piece.words := by
    rw [load_words hnul, load_words hnul]
  have hlike := @load_like text m k t t' h
  have hvalue : (t.load text m k).piece.value = (t'.load text m k).piece.value := by
    show (t.load text m k).com_tok[1]?.map _ = (t'.load text m k).com_tok[1]?.map _
    rw [hlike.com_tok]
    congr 1
    funext i
    exact strtol_like hlike i
  exact congrArg₂ Piece.mk hwords hvalue

/-- With a second word, its number is the value. -/
theorem load_value (hnul : NUL ∉ text) (t : Tokens) (h : 1 < (wordsOf text).length) :
    (t.load text m k).piece.value = some (strtol ((wordsOf text).getD 1 [])) := by
  have hwords := @load_words text m k hnul t
  have htake : (t.load text m k).com_tok.take (t.load text m k).num_tok = (strTokenize text text.length).2 :=
    List.take_left
  have hmap : (strTokenize text text.length).2.map (cstr (t.load text m k).command) = wordsOf text := by
    rw [← hwords, ← htake]
    rfl
  have hlen : 1 < (strTokenize text text.length).2.length := by
    rw [← hmap, List.length_map] at h
    exact h
  have hget : (t.load text m k).com_tok[1]? = some (strTokenize text text.length).2[1] := by
    show (_ ++ _)[1]? = _
    rw [List.getElem?_append_left hlen, List.getElem?_eq_getElem hlen]
  have hword : (wordsOf text).getD 1 [] = cstr (t.load text m k).command (strTokenize text text.length).2[1] := by
    rw [List.getD_eq_getElem _ _ h]
    simp only [← hmap, List.getElem_map]
  show (t.load text m k).com_tok[1]?.map _ = _
  rw [hget, hword]
  rfl

end

/-! The runs. -/

/-- The pieces of the file. -/
def confPieces : Nat → Stream → Tokens → List Piece
  | 0, _, _ => []
  | f + 1, confd, t =>
    match t.next confd with
    | none => []
    | some (t, confd) => t.piece :: confPieces f confd t

def piecesOf (file : Option (List Char)) : List Piece :=
  confPieces (configRounds (openConf file)) (openConf file) ⟨[], [], 0⟩

/-- The loop over the pieces. -/
def runPieces (body : Piece → Inds → Sconf → Option RoundEnd) : List Piece → Inds → Sconf → Option Sconf
  | [], _, s => some s
  | p :: ps, ind, s =>
    if ind.all then some s
    else
      match body p ind s with
      | none => none
      | some r => runPieces body ps r.ind r.conf

theorem readPiece_rest {confd confd' : Stream} {text : CStr} (h : readPiece confd = some (text, confd')) :
    confd'.bytes.length < confd.bytes.length := by
  have hne : confd.bytes ≠ [] := by
    intro hnil
    rw [readPiece, hnil] at h
    cases hf : confd.fails with
    | true =>
      rw [hf] at h
      cases h
    | false =>
      rw [hf] at h
      cases h
  obtain ⟨-, n, m, k, -, hread⟩ := readline_readPiece h
  have hrest := @readline_rest [] 512 confd (by omega) hne
  rw [hread] at hrest
  exact hrest

/-- **A loop is a run over the pieces of the file**, with rounds enough. -/
theorem configLoop_eq (body : Piece → Inds → Sconf → Option RoundEnd) :
    ∀ (f : Nat) (confd : Stream) (t t' : Tokens) (ind : Inds) (s : Sconf), t.Like t' → confd.bytes.length < f →
      configLoop body f confd t ind s = runPieces body (confPieces f confd t') ind s
  | 0, _, _, _, _, _, _, hf => absurd hf (Nat.not_lt_zero _)
  | f + 1, confd, t, t', ind, s, hlike, hf => by
    rw [configLoop, confPieces]
    cases htext : readPiece confd with
    | none =>
      rw [Tokens.next_none htext, Tokens.next_none htext, runPieces]
      split
      · rfl
      · rfl
    | some r =>
      obtain ⟨text, confd'⟩ := r
      -- the same text is loaded into two buffers that differ in NULs of earlier lines only
      obtain ⟨hnul, m, k, hnext⟩ := Tokens.next_some htext
      have hrest := readPiece_rest htext
      rw [hnext, hnext]
      dsimp only
      rw [load_piece hnul hlike, runPieces]
      split
      · rfl
      · cases body (t'.load text m k).piece ind s with
        | none => rfl
        | some r =>
          dsimp only
          apply configLoop_eq body f
          · split
            · exact (Tokens.mark_like _).trans (load_like hlike)
            · exact load_like hlike
          · omega

theorem fetchConfig_eq (file : Option (List Char)) (s : Sconf) :
    fetchConfig file s = runPieces fetchRound (piecesOf file) Inds.clear s :=
  configLoop_eq fetchRound _ _ _ _ _ _ (Tokens.Like.refl _) (Nat.lt_succ_self _)

theorem forceFetchConfig_eq (file : Option (List Char)) (s : Sconf) :
    forceFetchConfig file s = runPieces forceRound (piecesOf file) Inds.clear s :=
  configLoop_eq forceRound _ _ _ _ _ _ (Tokens.Like.refl _) (Nat.lt_succ_self _)

/-! A file that is cut between lines. -/

/-- How a line ends is the same when more bytes follow, but for the end of the file. -/
theorem takeLine_append (bytes : List Char) : ∀ (max : Nat) (more : List Char),
    match takeLine max bytes false with
    | (line, rest, .eof) => rest = [] ∧ line = bytes ∧ '\n' ∉ bytes ∧
        takeLine max (bytes ++ '\n' :: more) false = (line, more, .newline)
    | (line, rest, e) => rest <:+ bytes ∧ takeLine max (bytes ++ more) false = (line, rest ++ more, e) := by
  induction bytes with
  | nil =>
    intro max more
    cases max with
    | zero => exact ⟨List.suffix_refl _, rfl⟩
    | succ max => exact ⟨rfl, rfl, List.not_mem_nil, rfl⟩
  | cons c bytes ih =>
    intro max more
    cases max with
    | zero => exact ⟨List.suffix_refl _, rfl⟩
    | succ max =>
      by_cases hc : c = '\n'
      · subst hc
        exact ⟨List.suffix_cons _ _, rfl⟩
      · have hcons : ∀ b : List Char, takeLine (max + 1) (c :: b) false =
            (c :: (takeLine max b false).1, (takeLine max b false).2) := fun b => by rw [takeLine, if_neg hc]
        have ih := ih max more
        rw [List.cons_append, hcons, hcons]
        obtain ⟨⟨line, rest, e⟩, he⟩ : ∃ r, takeLine max bytes false = r := ⟨_, rfl⟩
        rw [he] at ih ⊢
        cases e with
        | eof =>
          obtain ⟨hrest, hline, hnone, hread⟩ := ih
          refine ⟨hrest, by rw [hline], ?_, ?_⟩
          · rw [List.mem_cons, not_or]
            exact ⟨fun h => hc h.symm, hnone⟩
          · rw [hread]
        | newline => exact ⟨ih.1.trans (List.suffix_cons _ _), by rw [List.cons_append, hcons, ih.2]⟩
        | error => exact ⟨ih.1.trans (List.suffix_cons _ _), by rw [List.cons_append, hcons, ih.2]⟩
        | full => exact ⟨ih.1.trans (List.suffix_cons _ _), by rw [List.cons_append, hcons, ih.2]⟩

/-- A place between two lines, before or behind the newline. -/
def Boundary (bytes more : List Char) : Prop :=
  bytes = [] ∨ bytes.getLast? = some '\n' ∨ more = [] ∨ more.head? = some '\n'

theorem Boundary.suffix {bytes more rest : List Char} (h : Boundary bytes more) (hrest : rest <:+ bytes) :
    Boundary rest more := by
  obtain ⟨a, rfl⟩ := hrest
  by_cases hnil : rest = []
  · exact Or.inl hnil
  · rcases h with h | h | h
    · exact absurd (List.append_eq_nil_iff.1 h).2 hnil
    · rw [List.getLast?_append_of_ne_nil _ hnil] at h
      exact Or.inr (Or.inl h)
    · exact Or.inr (Or.inr h)

/-- A line is read as it is from the file that is cut behind it. -/
theorem readline_append {bytes more : List Char} (h : Boundary bytes more) (hne : bytes ≠ []) (buf : List Char) :
    ∃ n command rest more', readline buf 512 ⟨bytes, false⟩ = (n, command, ⟨rest, false⟩) ∧
      readline buf 512 ⟨bytes ++ more, false⟩ = (n, command, ⟨rest ++ more', false⟩) ∧ Boundary rest more' := by
  have htake := takeLine_append bytes 512
  obtain ⟨⟨line, rest, e⟩, he⟩ : ∃ r, takeLine 512 bytes false = r := ⟨_, rfl⟩
  rw [he] at htake
  cases e with
  | eof =>
    -- behind the last line there is nothing, or a newline
    obtain ⟨hrest, hline, hnone, -⟩ := htake []
    have hne' : line ≠ [] := by rwa [hline]
    obtain ⟨more', hmore⟩ : ∃ more', more = [] ∨ more = '\n' :: more' := by
      rcases h with h | h | h | h
      · exact absurd h hne
      · exact absurd (List.mem_of_getLast? h) hnone
      · exact ⟨[], Or.inl h⟩
      · cases more with
        | nil => exact ⟨[], Or.inl rfl⟩
        | cons c more =>
          obtain rfl := Option.some.inj h
          exact ⟨more, Or.inr rfl⟩
    have hread : readline buf 512 ⟨bytes, false⟩ =
        ((line.length : Int), line ++ NUL :: buf.drop (line.length + 1), (⟨[], false⟩ : Stream)) := by
      rw [readline, he]
      dsimp only
      rw [if_neg hne', hrest]
    rcases hmore with rfl | rfl
    · refine ⟨_, _, [], [], hread, ?_, Or.inl rfl⟩
      rw [List.append_nil, hread]
      rfl
    · refine ⟨_, _, [], more', hread, ?_, Or.inl rfl⟩
      rw [readline, (htake more').2.2.2]
      rfl
  | newline =>
    obtain ⟨hsuffix, hread⟩ := htake more
    refine ⟨line.length, line ++ NUL :: buf.drop (line.length + 1), rest, more, ?_, ?_, h.suffix hsuffix⟩
    · rw [readline, he]
    · rw [readline, hread]
  | error =>
    obtain ⟨hsuffix, hread⟩ := htake more
    refine ⟨-1, line ++ buf.drop line.length, rest, more, ?_, ?_, h.suffix hsuffix⟩
    · rw [readline, he]
    · rw [readline, hread]
  | full =>
    obtain ⟨hsuffix, hread⟩ := htake more
    refine ⟨line.length, line ++ NUL :: buf.drop (line.length + 1), rest, more, ?_, ?_, h.suffix hsuffix⟩
    · rw [readline, he]
    · rw [readline, hread]

/-- The pieces of a file begin with those of the file that is cut between two of its lines. -/
theorem confPieces_initial : ∀ (f f' : Nat) (bytes more : List Char) (t : Tokens), Boundary bytes more →
    bytes.length < f → (bytes ++ more).length < f' →
      confPieces f ⟨bytes, false⟩ t <+: confPieces f' ⟨bytes ++ more, false⟩ t
  | 0, _, _, _, _, _, hf, _ => absurd hf (Nat.not_lt_zero _)
  | _, 0, _, _, _, _, _, hf => absurd hf (Nat.not_lt_zero _)
  | f + 1, f' + 1, bytes, more, t, h, hf, hf' => by
    by_cases hne : bytes = []
    · subst hne
      have hnil : confPieces (f + 1) ⟨[], false⟩ t = [] := rfl
      rw [hnil]
      exact List.nil_prefix
    · obtain ⟨n, command, rest, more', hread, hread', hrest⟩ := readline_append h hne t.command
      -- both files give the same line here, so the buffers stay the same
      have hlt := @readline_rest t.command 512 ⟨bytes, false⟩ (by omega) hne
      have hlt' := @readline_rest t.command 512 ⟨bytes ++ more, false⟩ (by omega) (by simp [hne])
      rw [hread] at hlt
      rw [hread'] at hlt'
      rw [confPieces, confPieces, Tokens.next, Tokens.next, hread, hread']
      dsimp only at hlt hlt' ⊢
      split
      · next hnone =>
        split at hnone
        · next hn => simp [hn]
        · split at hnone
          · next hn hneg => simp [hn, hneg]
          · cases hnone
      · next t₁ confd₁ hsome =>
        split at hsome
        · cases hsome
        · split at hsome
          · cases hsome
          · next hn hneg =>
            obtain ⟨rfl, rfl⟩ := Prod.mk.inj (Option.some.inj hsome)
            rw [if_neg hn, if_neg hneg]
            dsimp only
            rw [List.prefix_cons_inj]
            exact confPieces_initial f f' rest more' _ hrest (by omega) (by omega)

theorem piecesOf_initial {bytes more : List Char} (h : Boundary bytes more) :
    piecesOf (some bytes) <+: piecesOf (some (bytes ++ more)) :=
  confPieces_initial _ _ bytes more _ h (Nat.lt_succ_self _) (Nat.lt_succ_self _)

end BulletinBoard
