import BulletinBoard.Bbfile
import BulletinBoard.ServerOperations
import Mathlib.Data.List.GetD

/- What the sessions make of a request line, as cuts of the line: the words of a request, the
   texts that are put together from them, and the tokens of a REPLACE. The texts hold
   nothing but characters of the line and blanks, and are hardly longer than it. -/
namespace BulletinBoard

/-- A text within one line. -/
structure Unbroken (s : CStr) : Prop where
  no_nul : NUL ∉ s
  no_newline : '\n' ∉ s

theorem Unbroken.of_subset {s t : CStr} (h : Unbroken t) (hsub : ∀ c ∈ s, c ∈ t) : Unbroken s :=
  ⟨fun hc => h.no_nul (hsub _ hc), fun hc => h.no_newline (hsub _ hc)⟩

theorem Unbroken.append {s t : CStr} (hs : Unbroken s) (ht : Unbroken t) : Unbroken (s ++ t) := by
  constructor
  · rw [List.mem_append, not_or]
    exact ⟨hs.no_nul, ht.no_nul⟩
  · rw [List.mem_append, not_or]
    exact ⟨hs.no_newline, ht.no_newline⟩

theorem unbroken_slash : Unbroken ['/'] := ⟨by decide, by decide⟩

/-- A request line as `readline` delivers it. -/
structure Received (line : CStr) : Prop extends Unbroken line where
  length_le : line.length ≤ MAX_LEN

/-- The words of a text. -/
def wordsOf (s : CStr) : List CStr := Cut.cut isWordSep isBlank false s

theorem no_sep_of_all {w : CStr} (h : (w.all fun c => !isWordSep c) = true) :
    ∀ c ∈ w, isWordSep c = false := by
  simpa using h

theorem commandOf_eq {line : CStr} (h : NUL ∉ line) : commandOf line = wordsOf line.dropLast := by
  have hnul : NUL ∉ line.dropLast := fun hm => h (List.mem_of_mem_dropLast hm)
  have htok : tokenStrings (strTokenize (line.dropLast ++ []) line.dropLast.length) =
      Cut.cutAt isWordSep isBlank line.dropLast.length false line.dropLast :=
    strTokenize_tokens hnul (by simp [cstr]) (le_refl _)
  rw [List.append_nil] at htok
  rw [commandOf, htok, Cut.cutAt_of_length_le _ _ _ (le_refl _)]
  rfl

def readWord : CStr := ['R', 'E', 'A', 'D']

/-- The request that reads a number. -/
def readLine (nmbr : CStr) : CStr := readWord ++ (' ' :: (nmbr ++ ['\r']))

theorem readLine_no_nul {nmbr : CStr} (h : NUL ∉ nmbr) : NUL ∉ readLine nmbr := by
  simp only [readLine, List.mem_append, List.mem_cons, not_or]
  exact ⟨by decide, by decide, h, by decide⟩

theorem commandOf_readLine {nmbr : CStr} (hne : nmbr ≠ []) (hnul : NUL ∉ nmbr)
    (hsep : ∀ c ∈ nmbr, isWordSep c = false) : commandOf (readLine nmbr) = [readWord, nmbr] := by
  have hcut : (readLine nmbr).dropLast = readWord ++ ' ' :: nmbr := by
    have hsnoc : readLine nmbr = (readWord ++ ' ' :: nmbr) ++ ['\r'] := by simp [readLine]
    rw [hsnoc, List.dropLast_concat]
  have hdrop : nmbr.dropWhile isBlank = nmbr := by
    obtain ⟨c, r, rfl⟩ := List.exists_cons_of_ne_nil hne
    have hc : isWordSep c = false := hsep c (by simp)
    have hb : isBlank c = false := by
      simp only [isWordSep, Bool.or_eq_false_iff] at hc
      exact hc.2
    rw [List.dropWhile_cons, hb]; rfl
  have hone : Cut.cut isWordSep isBlank true nmbr = [nmbr] := by
    have h : Cut.cut isWordSep isBlank true nmbr = [nmbr.dropWhile isBlank] :=
      Cut.cut_true_of_no_sep hsep (by rw [hdrop]; exact hne)
    rwa [hdrop] at h
  rw [commandOf_eq (readLine_no_nul hnul), hcut, wordsOf, Cut.cut_false_append (no_sep_of_all (by decide)) (by decide), hone]

/-! Texts put together from words. -/

theorem mem_joinWords {words : List CStr} {c : Char} (h : c ∈ joinWords words) :
    c = ' ' ∨ ∃ w ∈ words, c ∈ w := by
  obtain ⟨w, hw, hc⟩ := List.mem_flatMap.1 h
  rcases List.mem_cons.1 hc with rfl | hc
  · exact Or.inl rfl
  · exact Or.inr ⟨w, hw, hc⟩

theorem mem_trailWords {words : List CStr} {c : Char} (h : c ∈ trailWords words) :
    c = ' ' ∨ ∃ w ∈ words, c ∈ w := by
  obtain ⟨w, hw, hc⟩ := List.mem_flatMap.1 h
  rcases List.mem_append.1 hc with hc | hc
  · exact Or.inr ⟨w, hw, hc⟩
  · exact Or.inl (by simpa using hc)

theorem joinWords_length (words : List CStr) :
    (joinWords words).length = (words.map fun w => w.length + 1).sum := by
  simp [joinWords, List.length_flatMap]

theorem trailWords_length (words : List CStr) :
    (trailWords words).length = (words.map fun w => w.length + 1).sum := by
  simp [trailWords, List.length_flatMap]

/-- The room that words take, with the blank beside each. -/
def room (words : List CStr) : Nat := (words.map fun w => w.length + 1).sum

theorem room_le_of_sublist {ws words : List CStr} (h : ws.Sublist words) : room ws ≤ room words :=
  (h.map _).sum_le_sum (fun _ _ => Nat.zero_le _)

theorem room_drop_le (i : Nat) (words : List CStr) : room (words.drop i) ≤ room words :=
  room_le_of_sublist (List.drop_sublist i words)

theorem length_lt_room {words : List CStr} {w : CStr} (h : w ∈ words) : w.length < room words := by
  have hle : w.length + 1 ≤ room words :=
    List.single_le_sum (fun _ _ => Nat.zero_le _) _ (List.mem_map.2 ⟨w, h, rfl⟩)
  omega

theorem Unbroken.joinWords {words : List CStr} (h : ∀ w ∈ words, Unbroken w) :
    Unbroken (joinWords words) := by
  constructor
  · intro hm
    rcases mem_joinWords hm with hc | ⟨w, hw, hc⟩
    · exact absurd hc (by decide)
    · exact (h w hw).no_nul hc
  · intro hm
    rcases mem_joinWords hm with hc | ⟨w, hw, hc⟩
    · exact absurd hc (by decide)
    · exact (h w hw).no_newline hc

theorem Unbroken.trailWords {words : List CStr} (h : ∀ w ∈ words, Unbroken w) :
    Unbroken (trailWords words) := by
  constructor
  · intro hm
    rcases mem_trailWords hm with hc | ⟨w, hw, hc⟩
    · exact absurd hc (by decide)
    · exact (h w hw).no_nul hc
  · intro hm
    rcases mem_trailWords hm with hc | ⟨w, hw, hc⟩
    · exact absurd hc (by decide)
    · exact (h w hw).no_newline hc

theorem getD_mem_or_nil (command : List CStr) (i : Nat) :
    command.getD i [] ∈ command ∨ command.getD i [] = [] := by
  by_cases hi : i < command.length
  · rw [List.getD_eq_getElem command [] hi]
    exact Or.inl (List.getElem_mem hi)
  · exact Or.inr (List.getD_eq_default command [] (by omega))

theorem Unbroken.textFrom {command : List CStr} (h : ∀ w ∈ command, Unbroken w) (i : Nat) :
    Unbroken (textFrom i command) := by
  unfold BulletinBoard.textFrom
  split
  · exact Unbroken.joinWords fun w hw => h w (List.mem_of_mem_drop hw)
  · rcases getD_mem_or_nil command i with hm | hm
    · exact h _ hm
    · rw [hm]; exact ⟨by simp, by simp⟩

theorem textFrom_length (i : Nat) (command : List CStr) : (textFrom i command).length ≤ room command := by
  unfold textFrom
  split
  · rw [joinWords_length]
    exact room_drop_le i command
  · rcases getD_mem_or_nil command i with hm | hm
    · exact Nat.le_of_lt (length_lt_room hm)
    · rw [hm]; exact Nat.zero_le _

theorem clean_mkLine {id user message : CStr} (hid : Unbroken id) (huser : Unbroken user)
    (hmessage : Unbroken message)
    (hlen : id.length + user.length + message.length + 2 < BBLINE_LEN) : Clean (mkLine id user message) := by
  have hline : Unbroken (mkLine id user message) :=
    (hid.append (unbroken_slash.append huser)).append (unbroken_slash.append hmessage)
  refine ⟨hline.no_newline, hline.no_nul, ?_⟩
  simp only [mkLine, List.append_assoc, List.cons_append, List.length_append, List.length_cons]
  omega

/-! The words of a received line. -/

section
variable {line : CStr}

theorem Received.words (h : Received line) : ∀ w ∈ commandOf line,
    Unbroken w ∧ ∀ c ∈ w, isWordSep c = false := by
  intro w hw
  rw [commandOf_eq h.no_nul] at hw
  have hmem : ∀ c ∈ w, c ∈ line := fun c hc => List.mem_of_mem_dropLast (Cut.mem_of_mem_cut hw c hc)
  exact ⟨h.toUnbroken.of_subset hmem, Cut.not_sep_of_mem_cut hw⟩

theorem Received.room_le (h : Received line) : room (commandOf line) ≤ MAX_LEN := by
  have hcut : room (commandOf line) ≤ line.dropLast.length + 1 := by
    rw [commandOf_eq h.no_nul]
    exact Cut.cut_length false line.dropLast
  have hlen := h.length_le
  rw [List.length_dropLast] at hcut
  unfold MAX_LEN at hlen ⊢
  omega

end

/-- A session whose name fits its buffer. -/
structure Client.Fits (client : Client) : Prop where
  user : Unbroken client.user
  length_le : client.user.length ≤ MAX_LEN

theorem Client.start_fits : Client.start.Fits := ⟨⟨by decide, by decide⟩, by decide⟩

theorem userCommand_fits {line : CStr} {client : Client} (h : Received line) (hfits : client.Fits) :
    (userCommand (commandOf line) client).1.Fits := by
  have hjoin : (Client.mk (joinWords ((commandOf line).drop 1)) true).Fits := by
    constructor
    · exact Unbroken.joinWords fun w hw => (h.words w (List.mem_of_mem_drop hw)).1
    · show (joinWords ((commandOf line).drop 1)).length ≤ MAX_LEN
      rw [joinWords_length]
      exact (room_drop_le 1 _).trans h.room_le
  unfold userCommand
  split
  · dsimp only
    split
    · exact hjoin
    · exact hjoin
  · exact hfits

/-! The tokens of a REPLACE. -/

theorem replTokens_eq {words : List CStr} {n : Nat} (junk : List Char) (h : ∀ w ∈ words, Unbroken w)
    (hn : n ≤ (trailWords words).length) :
    replTokens words n junk = Cut.cutAt isSlash isBlank n false (trailWords words) :=
  bblineTokenize_tokens (Unbroken.trailWords h).no_nul (by simp [cstr]) hn

/-- Cut up to the length of the first word, the text does not reach what is behind its NUL. -/
theorem replTokens_first {words : List CStr} (junk : List Char) (h : ∀ w ∈ words, Unbroken w) :
    replTokens words (words.getD 0 []).length junk =
      Cut.cutAt isSlash isBlank (words.getD 0 []).length false (trailWords words) := by
  apply replTokens_eq junk h
  cases words with
  | nil => exact Nat.zero_le _
  | cons w ws => simp [trailWords]

/-- A message is there as soon as there are two tokens. -/
theorem replMessage_eq_some {repl_tokens : List CStr} {message : CStr} :
    replMessage repl_tokens = some message ↔
      ∃ p q ps, repl_tokens = p :: q :: ps ∧ message = ['/'].intercalate (q :: ps) := by
  match repl_tokens with
  | [] => simp [replMessage]
  | [p] => simp [replMessage]
  | [p, q] => simp [replMessage, eq_comm]
  | p :: q :: r :: ps => simp [replMessage, eq_comm]

theorem intercalate_length (q : CStr) (ps : List CStr) :
    (['/'].intercalate (q :: ps)).length + 1 = room (q :: ps) := by
  induction ps generalizing q with
  | nil => simp [room]
  | cons r ps ih =>
    have h := ih r
    rw [List.intercalate_cons_cons, List.length_append, List.length_append]
    simp only [room, List.map_cons, List.sum_cons, List.length_singleton] at h ⊢
    omega

theorem mem_intercalate {c : Char} {ps : List CStr} (h : c ∈ ['/'].intercalate ps) :
    c = '/' ∨ ∃ p ∈ ps, c ∈ p := by
  match ps with
  | [] => simp at h
  | [p] => exact Or.inr ⟨p, by simp, by simpa using h⟩
  | p :: q :: ps =>
    rw [List.intercalate_cons_cons, List.append_assoc] at h
    rcases List.mem_append.1 h with h | h
    · exact Or.inr ⟨p, by simp, h⟩
    · rcases List.mem_append.1 h with h | h
      · exact Or.inl (by simpa using h)
      · rcases mem_intercalate h with h | ⟨r, hr, hc⟩
        · exact Or.inl h
        · exact Or.inr ⟨r, by simp [hr], hc⟩

/-- The number and the message of a REPLACE line. -/
structure ReplParts (command : List CStr) (nmbr message : CStr) : Prop where
  no_slash : ∀ c ∈ nmbr, isSlash c = false
  word : ∃ w ∈ command, ∀ c ∈ nmbr, c ∈ w
  chars : ∀ c ∈ message, c = '/' ∨ c = ' ' ∨ ∃ w ∈ command, c ∈ w
  length_le : nmbr.length + message.length + 1 ≤ room command

theorem replParts {command repl_tokens : List CStr} {message : CStr} {junk : List Char}
    (h : ∀ w ∈ command, Unbroken w) (hne : command ≠ [])
    (htok : repl_tokens = replTokens command (command.getD 0 []).length junk)
    (hmsg : replMessage repl_tokens = some message) :
    ReplParts command (repl_tokens.getD 0 []) message := by
  rw [replTokens_first junk h] at htok
  obtain ⟨w, ws, rfl⟩ := List.exists_cons_of_ne_nil hne
  have hfirst : trailWords (w :: ws) = w ++ ' ' :: trailWords ws := by
    simp [trailWords]
  rw [List.getD_cons_zero] at htok
  obtain ⟨p, q, ps, hcut, rfl⟩ := replMessage_eq_some.1 hmsg
  rw [htok] at hcut
  obtain ⟨c, r, hsplit, hns, -, hlt⟩ := Cut.cutAt_head hcut
  rw [htok, hcut, List.getD_cons_zero]
  refine ⟨hns, ⟨w, by simp, ?_⟩, ?_, ?_⟩
  · have htake : p = w.take p.length := by
      have hp : (trailWords (w :: ws)).take p.length = p := by
        rw [hsplit, List.take_left]
      rw [hfirst, List.take_append_of_le_length (Nat.le_of_lt hlt)] at hp
      exact hp.symm
    intro x hx
    rw [htake] at hx
    exact List.mem_of_mem_take hx
  · intro x hx
    rcases mem_intercalate hx with hx | ⟨t, ht, hx⟩
    · exact Or.inl hx
    · have hmem : t ∈ Cut.cutAt isSlash isBlank w.length false (trailWords (w :: ws)) := by
        rw [hcut]
        exact List.mem_cons_of_mem p ht
      exact Or.inr (mem_trailWords (Cut.mem_of_mem_cutAt hmem x hx))
  · have hroom : room (p :: q :: ps) ≤ (trailWords (w :: ws)).length + 1 := by
      rw [← hcut]
      exact Cut.cutAt_length w.length false (trailWords (w :: ws))
    rw [trailWords_length] at hroom
    have hint := intercalate_length q ps
    simp only [room, List.map_cons, List.sum_cons] at hroom hint ⊢
    omega

end BulletinBoard
