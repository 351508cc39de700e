import BulletinBoard.ErrorAnswers
import BulletinBoard.WriteRead
import BulletinBoard.ReplyPieces

/- The buffers on the way of an accepted request. `send_precommit` and `send_commit` print the
   request for a peer into `req[ALEN]`, `seek_msg_descriptor` and `read_descriptor` read the
   stored line into `line[1024]` and `line[BBLINE_LEN]`, and `read_descriptor` puts its text
   together in `message[MAX_LEN]` from `tokens[MAX_LEN]`. The session takes a name and a text that
   fill its own buffer of MAX_LEN each, and checks neither against those that follow. -/
namespace BulletinBoard

/-- The length of `line` in `seek_msg_descriptor`. -/
def SEEK_LEN : Nat := 1024

/-- The texts of a request fit, each with its NUL. -/
structure FitsBuffers (precommit commit line : CStr) : Prop where
  precommit_fits : precommit.length + 1 ≤ ALEN
  commit_fits : commit.length + 1 ≤ ALEN
  seek_fits : line.length + 1 ≤ SEEK_LEN
  read_fits : line.length + 1 ≤ BBLINE_LEN
  text_fits : (lineText line).length + 1 ≤ MAX_LEN
  tokens_fit : (tokensOf line).length ≤ MAX_LEN

/-! The requests. -/

/-- A USER line of fewer than `MAX_LEN` bytes that sets a name. -/
structure UserLine where
  line : CStr
  received : Received line
  short : line.length < MAX_LEN
  kind : requestKind line = "user".toList
  named : 1 < (commandOf line).length

/-- The name that it sets. -/
def UserLine.user (u : UserLine) : CStr := (userCommand (commandOf u.line) Client.start).1.user

/-- A WRITE line of fewer than `MAX_LEN` bytes that is accepted, with a number that
    `generate_number` returned. -/
structure WriteLine where
  line : CStr
  received : Received line
  short : line.length < MAX_LEN
  kind : requestKind line = "write".toList
  accepted : 2 ≤ (commandOf line).length
  gen_num : Int
  generated : ∃ junk g d r, generateNumber junk g d = some (gen_num, r)

def WriteLine.msg_nmbr (w : WriteLine) : CStr := showInt w.gen_num

def WriteLine.message (w : WriteLine) : CStr := textFrom 1 (commandOf w.line)

/-- A REPLACE line of fewer than `MAX_LEN` bytes that is accepted: it has a message, and its number
    was found by the check. -/
structure ReplaceLine where
  line : CStr
  received : Received line
  short : line.length < MAX_LEN
  kind : requestKind line = "replace".toList
  message : CStr
  message_eq : replMessage (replaceTokens (commandOf line)) = some message
  found : ∃ junk d r, readDescriptor junk ((replaceTokens (commandOf line)).getD 0 []) d = some r ∧ r.1.1 ≠ -1

def ReplaceLine.msg_nmbr (r : ReplaceLine) : CStr := (replaceTokens (commandOf r.line)).getD 0 []

/-- The buffers hold what a WRITE of a user sends and stores. -/
def WriteFits (u : UserLine) (w : WriteLine) : Prop :=
  FitsBuffers (precommitRequest u.user) (commitWriteRequest w.msg_nmbr w.message)
    (mkLine w.msg_nmbr u.user w.message)

/-- The buffers hold what a REPLACE of a user sends and stores. -/
def ReplaceFits (u : UserLine) (r : ReplaceLine) : Prop :=
  FitsBuffers (precommitRequest u.user) (commitReplaceRequest r.msg_nmbr r.message)
    (mkLine r.msg_nmbr u.user r.message)

/-- Whoever sends the USER line. -/
theorem UserLine.user_eq (u : UserLine) (client : Client) :
    (userCommand (commandOf u.line) client).1.user = u.user := by
  have hset : ∀ c : Client, (userCommand (commandOf u.line) c).1.user = joinWords ((commandOf u.line).drop 1) := by
    intro c
    rw [userCommand, if_pos u.named]
    dsimp only
    split
    · rfl
    · rfl
  rw [hset, UserLine.user, hset]

/-! Lengths. -/

section
variable (user msg_nmbr message line : CStr)

theorem precommitRequest_length : (precommitRequest user).length = user.length + 11 := by
  have hword : "precommit ".toList.length = 10 := by decide
  unfold precommitRequest
  rw [List.length_append, List.length_append, hword, List.length_singleton]
  omega

theorem commitWriteRequest_length :
    (commitWriteRequest msg_nmbr message).length = msg_nmbr.length + message.length + 15 := by
  have hword : "commit write ".toList.length = 13 := by decide
  unfold commitWriteRequest
  rw [List.length_append, List.length_append, List.length_append, hword, List.length_cons, List.length_singleton]
  omega

theorem commitReplaceRequest_length :
    (commitReplaceRequest msg_nmbr message).length = msg_nmbr.length + message.length + 17 := by
  have hword : "commit replace ".toList.length = 15 := by decide
  unfold commitReplaceRequest
  rw [List.length_append, List.length_append, List.length_append, hword, List.length_cons, List.length_singleton]
  omega

theorem mkLine_length :
    (mkLine msg_nmbr user message).length = msg_nmbr.length + user.length + message.length + 2 := by
  rw [mkLine, List.length_append, List.length_append, List.length_cons, List.length_cons]
  omega

/-- Each token takes the place of a character, but for the first. -/
theorem tokensOf_room : room (tokensOf line) ≤ line.length + 1 := Cut.cut_length false line

theorem length_le_room (words : List CStr) : words.length ≤ room words := by
  induction words with
  | nil => exact Nat.zero_le _
  | cons w words ih =>
    simp only [room, List.map_cons, List.sum_cons, List.length_cons] at ih ⊢
    omega

theorem tokensOf_length_le : (tokensOf line).length ≤ line.length + 1 :=
  (length_le_room _).trans (tokensOf_room line)

/-- The text is put together from the tokens behind the first, with the slashes between them. -/
theorem assembleLine_length_le (t : CStr) (ts : List CStr) : (assembleLine (t :: ts)).length ≤ room ts := by
  match ts with
  | [] => exact Nat.zero_le _
  | [u] => exact Nat.zero_le _
  | [u, v] =>
    have htext : assembleLine [t, u, v] = u ++ '/' :: v := rfl
    rw [htext, List.length_append, List.length_cons]
    simp only [room, List.map_cons, List.map_nil, List.sum_cons, List.sum_nil]
    omega
  | u :: v :: w :: ts =>
    have htext : assembleLine (t :: u :: v :: w :: ts) = u ++ '/' :: ['/'].intercalate (v :: w :: ts) := by
      rw [assembleLine, if_pos (by simp)]
      rfl
    have hmessage := intercalate_length v (w :: ts)
    have hroom : room (u :: v :: w :: ts) = u.length + 1 + room (v :: w :: ts) := rfl
    rw [htext, hroom, List.length_append, List.length_cons]
    omega

theorem lineText_length_le : (lineText line).length ≤ line.length := by
  have hroom := tokensOf_room line
  rw [lineText]
  cases htokens : tokensOf line with
  | nil => exact Nat.zero_le _
  | cons t ts =>
    have hle := assembleLine_length_le t ts
    have hcons : room (t :: ts) = t.length + 1 + room ts := rfl
    rw [htokens, hcons] at hroom
    omega

end

/-- The line decides for the buffers of descriptor.cc: the one that `seek_msg_descriptor` reads it
    into is the smallest. -/
theorem fitsBuffers_iff {precommit commit line : CStr} : FitsBuffers precommit commit line ↔
    precommit.length < ALEN ∧ commit.length < ALEN ∧ line.length < SEEK_LEN := by
  constructor
  · intro h
    exact ⟨h.precommit_fits, h.commit_fits, h.seek_fits⟩
  · rintro ⟨hprecommit, hcommit, hline⟩
    -- the text and the tokens of a line that fits `seek_msg_descriptor` fit as well
    have htext := lineText_length_le line
    have htokens := tokensOf_length_le line
    unfold SEEK_LEN at hline
    refine ⟨hprecommit, hcommit, hline, ?_, ?_, ?_⟩
    · unfold BBLINE_LEN
      omega
    · unfold MAX_LEN
      omega
    · unfold MAX_LEN
      omega

theorem writeFits_iff (u : UserLine) (w : WriteLine) : WriteFits u w ↔ u.user.length ≤ 1012 ∧
    w.msg_nmbr.length + w.message.length ≤ 1008 ∧
      w.msg_nmbr.length + u.user.length + w.message.length ≤ 1021 := by
  rw [WriteFits, fitsBuffers_iff, precommitRequest_length, commitWriteRequest_length, mkLine_length]
  unfold ALEN SEEK_LEN
  omega

theorem replaceFits_iff (u : UserLine) (r : ReplaceLine) : ReplaceFits u r ↔ u.user.length ≤ 1012 ∧
    r.msg_nmbr.length + r.message.length ≤ 1006 ∧
      r.msg_nmbr.length + u.user.length + r.message.length ≤ 1021 := by
  rw [ReplaceFits, fitsBuffers_iff, precommitRequest_length, commitReplaceRequest_length, mkLine_length]
  unfold ALEN SEEK_LEN
  omega

/-- **What fits**: an accepted WRITE or REPLACE fits every buffer exactly when the name is at most 1012
    characters long, number and text together are at most 1008 for a WRITE and 1006 for a REPLACE,
    and number, name and text together are at most 1021. -/
theorem accepted_fits_iff (u : UserLine) (w : WriteLine) (r : ReplaceLine) :
    (WriteFits u w ↔ u.user.length ≤ 1012 ∧ w.msg_nmbr.length + w.message.length ≤ 1008 ∧
      w.msg_nmbr.length + u.user.length + w.message.length ≤ 1021) ∧
    (ReplaceFits u r ↔ u.user.length ≤ 1012 ∧ r.msg_nmbr.length + r.message.length ≤ 1006 ∧
      r.msg_nmbr.length + u.user.length + r.message.length ≤ 1021) :=
  ⟨writeFits_iff u w, replaceFits_iff u r⟩

/-! A text of one long word. -/

theorem wordsBehind_replicate (n : Nat) : wordsBehind (List.replicate (n + 1) 'x') = [List.replicate (n + 1) 'x'] := by
  have hchars : ∀ c ∈ List.replicate (n + 1) 'x', c = 'x' := fun c hc => List.eq_of_mem_replicate hc
  have heq : '=' ∉ List.replicate (n + 1) 'x' := by
    intro hm
    exact absurd (hchars _ hm) (by decide)
  have hblank : ∀ c ∈ List.replicate (n + 1) 'x', isBlank c = false := by
    intro c hc
    rw [hchars c hc]
    rfl
  rw [wordsBehind_eq heq]
  exact Words.words_word hblank (by simp)

theorem received_longLine (n : Nat) (hn : n ≤ 1010) : Received (requestLine "WRITE".toList (List.replicate n 'x')) := by
  have hword : Unbroken (List.replicate n 'x') := by
    constructor
    · intro hm
      exact absurd (List.eq_of_mem_replicate hm) (by decide)
    · intro hm
      exact absurd (List.eq_of_mem_replicate hm) (by decide)
  have hcommand : Unbroken "WRITE".toList := ⟨by decide, by decide⟩
  have hblank : Unbroken [' '] := ⟨by decide, by decide⟩
  have hreturn : Unbroken ['\r'] := ⟨by decide, by decide⟩
  refine ⟨hcommand.append (hblank.append (hword.append hreturn)), ?_⟩
  have hlen : "WRITE".toList.length = 5 := by decide
  rw [requestLine, List.length_append, hlen, List.length_cons, List.length_append, List.length_replicate,
    List.length_singleton]
  unfold MAX_LEN
  omega

theorem long_received : Received (requestLine "WRITE".toList (List.replicate 1010 'x')) :=
  received_longLine 1010 (le_refl _)

theorem long_short : (requestLine "WRITE".toList (List.replicate 1010 'x')).length < MAX_LEN := by
  have hlen : "WRITE".toList.length = 5 := by decide
  rw [requestLine, List.length_append, hlen, List.length_cons, List.length_append, List.length_replicate,
    List.length_singleton]
  unfold MAX_LEN
  omega

theorem long_command : commandOf (requestLine "WRITE".toList (List.replicate 1010 'x')) =
    "WRITE".toList :: wordsBehind (List.replicate 1010 'x') :=
  commandOf_requestLine (no_sep_of_all (by decide)) long_received.no_nul

theorem long_kind : requestKind (requestLine "WRITE".toList (List.replicate 1010 'x')) = "write".toList := by
  rw [requestKind_eq long_command]
  decide

theorem long_accepted : 2 ≤ (commandOf (requestLine "WRITE".toList (List.replicate 1010 'x'))).length := by
  rw [long_command, wordsBehind_replicate]
  exact le_refl 2

theorem long_generated : ∃ junk g d r, generateNumber junk g d = some ((2 : Int), r) :=
  ⟨[], ⟨[]⟩, diskOf oneLine.bytes, (⟨[1]⟩, diskOf oneLine.bytes), by decide +kernel⟩

/-- `WRITE` and a word of 1010 characters, when 2 is the next number. -/
def longWrite : WriteLine where
  line := requestLine "WRITE".toList (List.replicate 1010 'x')
  received := long_received
  short := long_short
  kind := long_kind
  accepted := long_accepted
  gen_num := 2
  generated := long_generated

def userU : UserLine where
  line := requestLine "USER".toList ['u']
  received := ⟨⟨by decide, by decide⟩, by decide⟩
  short := by decide
  kind := by decide +kernel
  named := by decide +kernel

def replaceOne : ReplaceLine where
  line := requestLine "REPLACE".toList "1/x".toList
  received := ⟨⟨by decide, by decide⟩, by decide⟩
  short := by decide
  kind := by decide +kernel
  message := "x ".toList
  message_eq := by decide +kernel
  found := ⟨[], diskOf oneLine.bytes, ((3, some "u/m".toList), diskOf oneLine.bytes), by decide +kernel⟩

example : ReplaceFits userU replaceOne := (replaceFits_iff _ _).2 (by decide +kernel)

/-- `commit write 2 xx..x ` and its NUL are 1027 bytes. -/
theorem long_text_overflows : ¬ WriteFits userU longWrite := by
  have hmessage : longWrite.message = List.replicate 1010 'x' := by
    rw [WriteLine.message]
    show textFrom 1 (commandOf (requestLine "WRITE".toList (List.replicate 1010 'x'))) = _
    rw [long_command, wordsBehind_replicate]
    rfl
  have hnmbr : longWrite.msg_nmbr.length = 1 := by decide
  intro h
  have hcommit := h.commit_fits
  rw [commitWriteRequest_length, hnmbr, hmessage, List.length_replicate] at hcommit
  unfold ALEN at hcommit
  omega

end BulletinBoard
