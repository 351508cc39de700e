import BulletinBoard.ReplaceMessage
import BulletinBoard.SequentialNumbers

/- What a bulletin board is for, without files, tokens and buffers: posts under numbers, of which
   each is the largest so far and one more, and clients that ask one after another. `Says` ties
   the asks to the lines that clients type, `Tells` ties the answers to the bytes that they get;
   what stands between words does not count. -/
namespace BulletinBoard

/-! The board. -/

/-- A message, by its words. -/
structure Post where
  poster : List CStr
  text : List CStr

inductive Ask where
  | user (name : List CStr)
  | read (nmbr : CStr)
  | write (text : List CStr)
  | replace (nmbr : CStr) (text : List CStr)
  | refused (response : CStr)
  | quit

/-- What is still to ask behind an ask. -/
def Ask.rest (asks : List Ask) : Ask → Option (List Ask)
  | .quit => none
  | _ => some asks

inductive Answer where
  | hello (name : List CStr)
  | message (nmbr : CStr) (post : Post)
  | notFound (nmbr : CStr)
  | wrote (nmbr : CStr)
  | unknown (nmbr : CStr)
  | refused (response : CStr)
  | bye
  | left

/-- The posts, the largest number of one, how many numbers were given out, and for each client its
    name and what it has still to ask, `none` when it is gone or never came. -/
structure Bulletin where
  posts : CStr → Option Post
  largest : Nat
  given : Nat
  names : Nat → List CStr
  asks : Nat → Option (List Ask)

namespace Bulletin

/-- The number of the next post. -/
def next (s : Bulletin) : CStr := showInt ((s.largest : Int) + 1)

/-- The board after a post by a client. -/
def put (s : Bulletin) (i : Nat) (nmbr : CStr) (text : List CStr) : Bulletin :=
  { s with posts := Function.update s.posts nmbr (some ⟨s.names i, text⟩) }

/-- The answer to what a client asks, and the board after it. -/
def answer (s : Bulletin) (i : Nat) : Ask → Answer × Bulletin
  | .user name => (.hello name, { s with names := Function.update s.names i name })
  | .read nmbr => ((s.posts nmbr).elim (.notFound nmbr) (.message nmbr), s)
  | .write text => (.wrote s.next, { s.put i s.next text with largest := s.largest + 1, given := s.given + 1 })
  | .replace nmbr text => if (s.posts nmbr).isSome then (.wrote nmbr, s.put i nmbr text) else (.unknown nmbr, s)
  | .refused response => (.refused response, s)
  | .quit => (.bye, s)

/-- A client's next ask. It is gone after a QUIT, or when it has asked everything. -/
def turn (s : Bulletin) (i : Nat) : Option Answer × Bulletin :=
  match s.asks i with
  | none => (none, s)
  | some [] => (some .left, { s with asks := Function.update s.asks i none })
  | some (ask :: asks) =>
    let r := s.answer i ask
    (some r.1, { r.2 with asks := Function.update s.asks i (ask.rest asks) })

/-- The board when the server starts: the clients that come have no name, and no number is given out. -/
def start (posts : CStr → Option Post) (largest : Nat) (asks : Nat → Option (List Ask)) : Bulletin :=
  ⟨posts, largest, 0, fun _ => ["nobody".toList], asks⟩

end Bulletin

/-- What happens: a client has its turn, it hangs up early, or the server is started again with
    other clients. -/
inductive Happening where
  | turn (i : Nat)
  | hangup (i : Nat)
  | restart (asks : Nat → Option (List Ask))

def Bulletin.happen (s : Bulletin) : Happening → Option Answer × Bulletin
  | .turn i => s.turn i
  | .hangup i => (none, { s with asks := Function.update s.asks i ((s.asks i).map fun _ => []) })
  | .restart asks => (none, .start s.posts s.largest asks)

def Bulletin.run (s : Bulletin) : List Happening → List (Option Answer) × Bulletin
  | [] => ([], s)
  | h :: hs =>
    let r := (s.happen h).2.run hs
    ((s.happen h).1 :: r.1, r.2)

/-- A post has room in a line, and a number of its own is an `int` and has room in the list of
    numbers. -/
def Ask.Fits (s : Bulletin) (i : Nat) : Ask → Prop
  | .write text => s.given < MAX_LEN ∧ (s.largest : Int) < INT_MAX ∧
      s.next.length + room (s.names i) + room text + 2 < MAX_LEN
  | .replace nmbr text => nmbr.length + room (s.names i) + room text + 2 < MAX_LEN
  | _ => True

/-- What is asked fits, and the server is started again only when the clients that came are gone. -/
def Happening.Fits (s : Bulletin) : Happening → Prop
  | .turn i => ∀ ask asks, s.asks i = some (ask :: asks) → ask.Fits s i
  | .hangup _ => True
  | .restart _ => ∀ i, s.asks i = none

def Bulletin.Fits (s : Bulletin) : List Happening → Prop
  | [] => True
  | h :: hs => h.Fits s ∧ (s.happen h).2.Fits hs

/-! Lines and responses. -/

/-- A line as a telnet client sends it: a command, words behind it, and "\r". -/
structure Typed (line command : CStr) (words : List CStr) : Prop where
  text : ∃ text, line = command ++ text ++ ['\r'] ∧ (∀ c ∈ text.head?, isBlank c = true) ∧
    Words.words isBlank text = words
  command_no_blank : ∀ c ∈ command, isBlank c = false
  printable : ∀ c ∈ line.dropLast, ' ' ≤ c ∧ c ≤ '~' ∧ c ≠ '='
  length_lt : line.length < MAX_LEN

def commands : List CStr := ["quit".toList, "user".toList, "read".toList, "write".toList, "replace".toList]

/-- What a line asks. A word that ends with '/' does not come back from a READ, and takes with it what
    follows the number of a REPLACE: behind "5/" there is nothing to replace with. -/
inductive Says (line : CStr) : Ask → Prop where
  | user {command : CStr} {name : List CStr} : Typed line command name → tolwr command = "user".toList →
      name ≠ [] → (∀ w ∈ name, '/' ∉ w) → Says line (.user name)
  | read {command nmbr : CStr} : Typed line command [nmbr] → tolwr command = "read".toList → Says line (.read nmbr)
  | write {command : CStr} {text : List CStr} : Typed line command text → tolwr command = "write".toList →
      text ≠ [] → (∀ w ∈ text, w.getLast? ≠ some '/') → Says line (.write text)
  | replace {command nmbr w : CStr} {ws : List CStr} : Typed line command ((nmbr ++ '/' :: w) :: ws) →
      tolwr command = "replace".toList → '/' ∉ nmbr → w ≠ [] → (∀ v ∈ w :: ws, v.getLast? ≠ some '/') →
      Says line (.replace nmbr (w :: ws))
  | quit {command : CStr} {words : List CStr} : Typed line command words → tolwr command = "quit".toList →
      Says line .quit
  | noName {command : CStr} : Typed line command [] → tolwr command = "user".toList → Says line (.refused noNameResponse)
  | noNumber {command : CStr} {words : List CStr} : Typed line command words → tolwr command = "read".toList →
      words.length ≠ 1 → Says line (.refused readFormatResponse)
  | noText {command : CStr} : Typed line command [] → tolwr command = "write".toList →
      Says line (.refused writeFormatResponse)
  | noSlash {command : CStr} {words : List CStr} : Typed line command words → tolwr command = "replace".toList →
      '/' ∉ (words.headD []).dropLast → Says line (.refused replaceFormatResponse)
  | invalid {command : CStr} {words : List CStr} : Typed line command words → tolwr command ∉ commands →
      Says line (.refused (invalidResponse command))

/-- What a response tells. -/
inductive Tells : Answer → CStr → Prop where
  | hello {name : List CStr} : Tells (.hello name) (helloResponse (joinWords name))
  | message {nmbr u t : CStr} {post : Post} : '/' ∉ u → Words.words isBlank u = post.poster →
      Words.words isBlank t = post.text → Tells (.message nmbr post) (messageResponse nmbr (u ++ '/' :: t))
  | notFound {nmbr : CStr} : Tells (.notFound nmbr) (notFoundResponse nmbr)
  | wrote {nmbr : CStr} : Tells (.wrote nmbr) (wroteResponse nmbr)
  | unknown {nmbr : CStr} : Tells (.unknown nmbr) (unknownResponse nmbr)
  | refused {response : CStr} : Tells (.refused response) response
  | bye : Tells .bye byeResponse
  | left : Tells .left ('\n' :: byeResponse)

/-! The board in one turn. -/

theorem Ask.rest_of_ne {ask : Ask} (h : ask ≠ .quit) (asks : List Ask) : ask.rest asks = some asks := by
  cases ask with
  | quit => exact absurd rfl h
  | _ => rfl

theorem Bulletin.answer_names_ne {i j : Nat} (h : j ≠ i) (s : Bulletin) (ask : Ask) :
    (s.answer i ask).2.names j = s.names j := by
  cases ask with
  | user name => exact Function.update_of_ne h name s.names
  | replace nmbr text =>
    rw [Bulletin.answer]
    split <;> rfl
  | _ => rfl

/-! Typed lines. -/

section
variable {line command w : CStr} {words : List CStr}

/-- No printable character, and no "\r", is one that ends a string or a line. -/
theorem Typed.char_ne (h : Typed line command words) {x : Char} (hx : (x < ' ' ∨ '~' < x ∨ x = '=') ∧ x ≠ '\r') :
    x ∉ line := by
  obtain ⟨text, hline, -, -⟩ := h.text
  intro hm
  have hdrop : line.dropLast = command ++ text := by rw [hline, List.dropLast_concat]
  have hp := h.printable x
  rw [hdrop] at hp
  rw [hline] at hm
  rcases List.mem_append.1 hm with hm | hm
  · obtain ⟨hlow, hhigh, heq⟩ := hp hm
    rcases hx.1 with hlt | hlt | rfl
    · exact absurd hlow (Char.not_le.2 hlt)
    · exact absurd hhigh (Char.not_le.2 hlt)
    · exact heq rfl
  · exact hx.2 (List.mem_singleton.1 hm)

theorem Typed.received (h : Typed line command words) : Received line where
  no_nul := h.char_ne (by decide)
  no_newline := h.char_ne (by decide)
  length_le := Nat.le_of_lt h.length_lt

theorem Typed.no_equals (h : Typed line command words) : '=' ∉ line := h.char_ne (by decide)

theorem Typed.ne_nil (h : Typed line command words) : line ≠ [] := by
  obtain ⟨text, hline, -, -⟩ := h.text
  rw [hline]
  simp

/-- The tokens of a typed line are its command and its words. -/
theorem Typed.commandOf_eq (h : Typed line command words) : commandOf line = command :: words := by
  have heq := h.no_equals
  have hnul := h.received.no_nul
  obtain ⟨text, hline, hblank, hwords⟩ := h.text
  have hdrop : line.dropLast = command ++ text := by rw [hline, List.dropLast_concat]
  have hsep : ∀ c, c ∈ line → isWordSep c = isBlank c := by
    intro c hc
    have hne : (c == '=') = false := by
      rw [beq_eq_false_iff_ne]
      intro he
      exact heq (he ▸ hc)
    rw [isWordSep, hne, Bool.false_or]
    rfl
  have hcommand : ∀ c ∈ command, isWordSep c = false := by
    intro c hc
    rw [hsep c (by simp [hline, hc])]
    exact h.command_no_blank c hc
  rw [BulletinBoard.commandOf_eq hnul, hdrop, wordsOf]
  cases text with
  | nil =>
    rw [List.append_nil, Cut.cut_false_of_no_sep hcommand, ← hwords]
    rfl
  | cons c text =>
    have hc : isBlank c = true := hblank c rfl
    have hcut : Cut.cut isWordSep isBlank true text = words := by
      rw [Words.cut_eq_words fun x hx => hsep x (by simp [hline, hx]), ← hwords, Words.words_cons_blank hc]
    rw [Cut.cut_false_append hcommand (by rw [hsep c (by simp [hline]), hc]), hcut]

theorem Typed.mem_line (h : Typed line command words) (hw : w ∈ words) {c : Char} (hc : c ∈ w) : c ∈ line := by
  obtain ⟨text, hline, -, hwords⟩ := h.text
  rw [← hwords] at hw
  rw [hline]
  simp [(Words.mem_words hw hc).1]

theorem Typed.word_ne_nil (h : Typed line command words) (hw : w ∈ words) : w ≠ [] := by
  obtain ⟨text, -, -, hwords⟩ := h.text
  rw [← hwords] at hw
  exact Words.ne_nil_of_mem_words hw

theorem Typed.no_backspace (h : Typed line command words) (hw : w ∈ words) : BACKSPACE ∉ w :=
  fun hm => h.char_ne (by decide) (h.mem_line hw hm)

theorem Typed.unbroken (h : Typed line command words) : ∀ v ∈ words, Unbroken v := by
  intro v hv
  exact h.received.toUnbroken.of_subset fun c hc => h.mem_line hv hc

theorem Typed.split (h : Typed line command words) : Split words := by
  intro v hv
  have hall := h.received.words v
  rw [h.commandOf_eq] at hall
  exact (hall (List.mem_cons_of_mem command hv)).2

theorem toLower_toLower (c : Char) : c.toLower.toLower = c.toLower := by
  have hA : 'A'.val = 65 := rfl
  have hZ : 'Z'.val = 90 := rfl
  by_cases h : c.val ≥ 'A'.val ∧ c.val ≤ 'Z'.val
  · have hlow : c.toLower.val = c.val + 32 := congrArg Char.val (dif_pos h)
    -- the small letters are behind the capital ones
    have hnot : ¬(c.toLower.val ≥ 'A'.val ∧ c.toLower.val ≤ 'Z'.val) := by
      rw [hlow, hA, hZ]
      rw [hA, hZ] at h
      grind
    exact dif_neg hnot
  · have hlow : c.toLower = c := dif_neg h
    rw [hlow, hlow]

/-- What kind of request a line is. -/
theorem Typed.kind (h : Typed line command words) : requestKind line = tolwr command := by
  rw [requestKind, h.commandOf_eq, List.getD_cons_zero, tolwr, tolwr, List.map_map]
  apply List.map_congr_left
  intro c _
  exact toLower_toLower c

end

/-- A client that asks to QUIT is one whose command is that. -/
theorem Says.quit_iff {line : CStr} {ask : Ask} (h : Says line ask) :
    tolwr ((commandOf line).getD 0 []) = "quit".toList ↔ ask = .quit := by
  have hno : ∀ {command other : CStr} {words : List CStr} {a : Ask}, Typed line command words → a ≠ .quit →
      tolwr command = other → other ≠ "quit".toList → (tolwr ((commandOf line).getD 0 []) = "quit".toList ↔ a = .quit) := by
    intro command other words a htyped ha hcommand hother
    rw [htyped.commandOf_eq, List.getD_cons_zero, hcommand]
    exact ⟨fun he => absurd he hother, fun he => absurd he ha⟩
  cases h with
  | user htyped hcommand => exact hno htyped (by simp) hcommand (by decide)
  | read htyped hcommand => exact hno htyped (by simp) hcommand (by decide)
  | write htyped hcommand => exact hno htyped (by simp) hcommand (by decide)
  | replace htyped hcommand => exact hno htyped (by simp) hcommand (by decide)
  | quit htyped hcommand =>
    rw [htyped.commandOf_eq, List.getD_cons_zero, hcommand]
    exact ⟨fun _ => rfl, fun _ => rfl⟩
  | noName htyped hcommand => exact hno htyped (by simp) hcommand (by decide)
  | noNumber htyped hcommand => exact hno htyped (by simp) hcommand (by decide)
  | noText htyped hcommand => exact hno htyped (by simp) hcommand (by decide)
  | noSlash htyped hcommand => exact hno htyped (by simp) hcommand (by decide)
  | invalid htyped hcommand =>
    have hne : tolwr _ ≠ "quit".toList := fun he => hcommand (he ▸ List.mem_cons_self)
    exact hno htyped (by simp) rfl hne

theorem Says.typed {line : CStr} {ask : Ask} (h : Says line ask) : ∃ command words, Typed line command words := by
  cases h with
  | user htyped => exact ⟨_, _, htyped⟩
  | read htyped => exact ⟨_, _, htyped⟩
  | write htyped => exact ⟨_, _, htyped⟩
  | replace htyped => exact ⟨_, _, htyped⟩
  | quit htyped => exact ⟨_, _, htyped⟩
  | noName htyped => exact ⟨_, _, htyped⟩
  | noNumber htyped => exact ⟨_, _, htyped⟩
  | noText htyped => exact ⟨_, _, htyped⟩
  | noSlash htyped => exact ⟨_, _, htyped⟩
  | invalid htyped => exact ⟨_, _, htyped⟩

/-! The words of a post. -/

section
variable {text : CStr} {words : List CStr}

theorem Spells.words_eq (h : Spells text words) (hs : Split words) (hne : ∀ w ∈ words, w ≠ []) :
    Words.words isBlank text = words := by
  cases h with
  | joined => exact words_joinWords hs hne
  | single =>
    have hword : text ∈ [text] := List.mem_singleton_self text
    exact Words.words_word (fun c hc => isBlank_of_not_sep (hs text hword c hc)) (hne text hword)

/-- A READ gives the words of a message back when none of them ends with '/'. -/
theorem words_readMessage (hlast : ∀ w ∈ Words.words isBlank text, w.getLast? ≠ some '/')
    (htext : ∃ c ∈ text, isBlank c = false) : Words.words isBlank (readMessage text) = Words.words isBlank text := by
  have hsep : ∀ c, isSlash c = true → c = '/' := fun c hc => by simpa [isSlash] using hc
  have hwords : ∀ w ∈ Words.words isBlank text, ∀ c ∈ w.getLast?, isSlash c = false := by
    intro w hw c hc
    rw [isSlash, beq_eq_false_iff_ne]
    intro he
    exact hlast w hw (he ▸ hc)
  obtain ⟨hsqueeze, hskips⟩ := Words.squeeze_words_true isSlash_not_blank hwords htext
  have hread : readMessage text = ['/'].intercalate (Cut.cut isSlash isBlank true text) := by
    rw [readMessage, Cut.cut_true_eq_split isSlash_not_blank]
  rw [hread, Cut.intercalate_cut hsep, hskips, if_neg (by decide), hsqueeze, Words.words_dropWhile]

/-- The post that stands for a live line. -/
def Board.post (b : Board) (nmbr : CStr) : Option Post :=
  (b.toMap nmbr).map fun (user, message) => ⟨Words.words isBlank user, Words.words isBlank (readMessage message)⟩

end

end BulletinBoard
