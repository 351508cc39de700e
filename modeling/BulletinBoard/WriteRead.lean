import BulletinBoard.Replication
import BulletinBoard.ErrorAnswers
import BulletinBoard.Lib.Words

/- WRITE and then READ. The words of the text are cut at blanks and at '=', joined and
   stored behind the name; a READ cuts the line at '/', drops the blanks behind a '/' and
   an empty last piece. Up to its blanks the text comes back exactly when there is no '='
   in it or in the name, and no word of it ends with '/'. -/
namespace BulletinBoard

/-- A request as a telnet client sends it. -/
def requestLine (command text : CStr) : CStr := command ++ ' ' :: (text ++ ['\r'])

/-- The reply to READ `nmbr` has this name and this text, up to blanks. -/
def RepliesWith (nmbr name text response : CStr) : Prop :=
  ∃ u t, response = messageResponse nmbr (u ++ '/' :: t) ∧ '/' ∉ u ∧
    Words.words isBlank u = Words.words isBlank name ∧ Words.words isBlank t = Words.words isBlank text

/-- After USER, a WRITE that is answered `3.0 WROTE` and a READ of its number, the reply carries the
    name and the text. -/
def GivesBack (b : Board) (client : Client) (g : NumGen) (name text : CStr) : Prop :=
  ∀ (junk₁ junk₂ junk₃ : Junk) (r response nmbr : CStr) (client₁ client₂ client₃ : Client)
    (g₁ g₂ g₃ : NumGen) (d₁ d₂ d₃ : Disk),
    serverOperations junk₁ (requestLine "USER".toList name) client g (diskOf b.bytes) =
      some (r, client₁, g₁, d₁) →
    serverOperations junk₂ (requestLine "WRITE".toList text) client₁ g₁ d₁ =
      some (wroteResponse nmbr, client₂, g₂, d₂) →
    serverOperations junk₃ (readLine nmbr) client₂ g₂ d₂ = some (response, client₃, g₃, d₃) →
    RepliesWith nmbr name text response

/-- The words of a text without '=' at which READ loses nothing. -/
def Kept (name text : CStr) : Prop :=
  '=' ∉ name ∧ '=' ∉ text ∧ ∀ w ∈ Words.words isBlank text, w.getLast? ≠ some '/'

/-! The requests. -/

/-- The words of a text behind a command. -/
def wordsBehind (text : CStr) : List CStr := Cut.cut isWordSep isBlank true text

theorem commandOf_requestLine {command text : CStr} (hc : ∀ c ∈ command, isWordSep c = false)
    (hnul : NUL ∉ requestLine command text) : commandOf (requestLine command text) = command :: wordsBehind text := by
  have hcut : (requestLine command text).dropLast = command ++ ' ' :: text := by
    have hsnoc : requestLine command text = (command ++ ' ' :: text) ++ ['\r'] := by simp [requestLine]
    rw [hsnoc, List.dropLast_concat]
  rw [commandOf_eq hnul, hcut, wordsOf, Cut.cut_false_append hc (by decide)]
  rfl

theorem split_wordsBehind (text : CStr) : Split (wordsBehind text) := fun _ hw => Cut.not_sep_of_mem_cut hw

theorem wordsBehind_ne_nil {text : CStr} (h : ∃ c ∈ text, isBlank c = false) : wordsBehind text ≠ [] :=
  Cut.cut_true_ne_nil h

/-- Without '=' the words are those between blanks. -/
theorem wordsBehind_eq {text : CStr} (h : '=' ∉ text) : wordsBehind text = Words.words isBlank text := by
  apply Words.cut_eq_words
  intro c hc
  have hne : (c == '=') = false := by
    rw [beq_eq_false_iff_ne]
    rintro rfl
    exact h hc
  rw [isWordSep, hne, Bool.false_or]
  rfl

/-- The kind of a request line is its command in lower case. -/
theorem requestKind_eq {line command : CStr} {words : List CStr} (h : commandOf line = command :: words) :
    requestKind line = tolwr (tolwr command) := by
  rw [requestKind, h, List.getD_cons_zero]

/-! Texts behind a slash. -/

section
variable {words : List CStr} {w : CStr}

/-- Whether a READ glues what follows a word to it. -/
theorem behindSlash_last (hw : ∀ c ∈ w, isBlank c = false) (hne : w ≠ []) (skip : Bool) :
    behindSlash skip w = decide (w.getLast? = some '/') := by
  obtain ⟨t, c, rfl⟩ := (List.eq_nil_or_concat w).resolve_left hne
  rw [List.concat_eq_append] at hw ⊢
  rw [behindSlash, Cut.skips_concat (hw c (by simp)), List.getLast?_concat]
  simp only [isSlash, Option.some.injEq]
  exact Bool.beq_eq_decide_eq c '/'

theorem behindSlash_word (hw : ∀ c ∈ w, isWordSep c = false) (hne : w ≠ []) (skip : Bool) :
    behindSlash skip w = decide (w.getLast? = some '/') :=
  behindSlash_last (fun c hc => isBlank_of_not_sep (hw c hc)) hne skip

/-- A text of words that do not end with '/' is read as it is. -/
theorem squeeze_kept (hs : Split words) (hne : ∀ w ∈ words, w ≠ []) (hw : ∀ w ∈ words, w.getLast? ≠ some '/') :
    Cut.squeeze isSlash isBlank false (joinWords words) = joinWords words ∧
      behindSlash false (joinWords words) = false := by
  induction words with
  | nil => exact ⟨rfl, rfl⟩
  | cons w words ih =>
    have hword : behindSlash false w = false := by
      rw [behindSlash_word (hs w (by simp)) (hne w (by simp))]
      simpa using hw w (by simp)
    obtain ⟨hsqueeze, hbehind⟩ := ih (fun v hv => hs v (by simp [hv])) (fun v hv => hne v (by simp [hv]))
      fun v hv => hw v (by simp [hv])
    refine ⟨?_, ?_⟩
    · rw [squeeze_word_cons (hs w (by simp)), hword, hsqueeze]
      simp [joinWords]
    · rw [behindSlash_cons, hword]
      exact hbehind

/-- A READ drops no character but blanks. -/
theorem squeeze_filter (hs : Split words) (skip : Bool) :
    (Cut.squeeze isSlash isBlank skip (joinWords words)).filter (fun c => !isBlank c) = words.flatten := by
  rw [Cut.filter_squeeze]
  induction words with
  | nil => rfl
  | cons w words ih =>
    have hw : w.filter (fun c => !isBlank c) = w := by
      rw [List.filter_eq_self]
      intro c hc
      simp [isBlank_of_not_sep (hs w (by simp) c hc)]
    have hjoin : joinWords (w :: words) = ' ' :: (w ++ joinWords words) := rfl
    rw [hjoin, List.filter_cons_of_neg (by decide), List.filter_append, hw, ih fun v hv => hs v (by simp [hv])]
    rfl

theorem countP_blank_cons (hw : ∀ c ∈ w, isWordSep c = false) (skip : Bool) (words : List CStr) :
    (Cut.squeeze isSlash isBlank skip (joinWords (w :: words))).countP isBlank =
      (if skip then 0 else 1) +
        (Cut.squeeze isSlash isBlank (behindSlash skip w) (joinWords words)).countP isBlank := by
  have hnone : w.countP isBlank = 0 := by
    rw [List.countP_eq_zero]
    intro c hc
    simp [isBlank_of_not_sep (hw c hc)]
  rw [squeeze_word_cons hw, List.countP_append, List.countP_append, hnone]
  cases skip <;> rfl

theorem countP_blank_le (hs : Split words) (skip : Bool) :
    (Cut.squeeze isSlash isBlank skip (joinWords words)).countP isBlank ≤ words.length := by
  induction words generalizing skip with
  | nil => exact Nat.zero_le _
  | cons w words ih =>
    have hle := ih (fun v hv => hs v (by simp [hv])) (behindSlash skip w)
    rw [countP_blank_cons (hs w (by simp)), List.length_cons]
    split <;> omega

/-- What a READ gives of some words ends with a character of the last. -/
theorem squeeze_last (hs : Split words) (hne : ∀ w ∈ words, w ≠ []) (hwords : words ≠ []) (skip : Bool) :
    ∃ t c, Cut.squeeze isSlash isBlank skip (joinWords words) = t ++ [c] ∧ isBlank c = false := by
  induction words generalizing skip with
  | nil => exact absurd rfl hwords
  | cons w words ih =>
    rw [squeeze_word_cons (hs w (by simp))]
    cases words with
    | nil =>
      obtain ⟨t, c, hw⟩ := (List.eq_nil_or_concat w).resolve_left (hne w (by simp))
      rw [List.concat_eq_append] at hw
      have hc : isBlank c = false := isBlank_of_not_sep (hs w (by simp) c (by simp [hw]))
      refine ⟨(if skip then [] else [' ']) ++ t, c, ?_, hc⟩
      have hnil : Cut.squeeze isSlash isBlank (behindSlash skip w) (joinWords []) = [] := rfl
      rw [hnil, hw, List.append_nil, List.append_assoc]
    | cons v words =>
      obtain ⟨t, c, hsqueeze, hc⟩ := ih (fun x hx => hs x (by simp [hx])) (fun x hx => hne x (by simp [hx]))
        (List.cons_ne_nil v words) (behindSlash skip w)
      exact ⟨(if skip then [] else [' ']) ++ w ++ t, c, by rw [hsqueeze, List.append_assoc _ t], hc⟩

/-- Joined words are the words between the blanks. -/
theorem words_joinWords (hs : Split words) (hne : ∀ w ∈ words, w ≠ []) :
    Words.words isBlank (joinWords words) = words := by
  have hsep : ∀ c ∈ joinWords words, isWordSep c = isBlank c := by
    intro c hc
    rcases mem_joinWords hc with rfl | ⟨w, hw, hc⟩
    · rfl
    · rw [hs w hw c hc, isBlank_of_not_sep (hs w hw c hc)]
  have hfill : filled words = words := by
    rw [filled, List.filter_eq_self]
    intro w hw
    simpa using hne w hw
  rw [← Words.cut_eq_words hsep, cut_joinWords hs, hfill]

/-- Words that do not end with '/' come back. -/
theorem words_squeeze (hs : Split words) (hne : ∀ w ∈ words, w ≠ []) (hw : ∀ w ∈ words, w.getLast? ≠ some '/') :
    Words.words isBlank (Cut.squeeze isSlash isBlank true (joinWords words)) = words ∧
      (words ≠ [] → behindSlash true (joinWords words) = false) := by
  cases words with
  | nil => exact ⟨rfl, fun h => absurd rfl h⟩
  | cons w words =>
    have hword : behindSlash true w = false := by
      rw [behindSlash_word (hs w (by simp)) (hne w (by simp))]
      simpa using hw w (by simp)
    obtain ⟨hsqueeze, hbehind⟩ := squeeze_kept (fun v hv => hs v (List.mem_cons_of_mem w hv))
      (fun v hv => hne v (List.mem_cons_of_mem w hv)) fun v hv => hw v (List.mem_cons_of_mem w hv)
    refine ⟨?_, fun _ => ?_⟩
    · have hjoin := words_joinWords hs hne
      have hcons : joinWords (w :: words) = ' ' :: (w ++ joinWords words) := rfl
      rw [hcons, Words.words_cons_blank rfl] at hjoin
      rw [squeeze_word_cons (hs w (by simp)), hword, hsqueeze]
      exact hjoin
    · rw [behindSlash_cons, hword]
      exact hbehind

/-- When no blank before a word is dropped and the text does not end behind a '/', no word ends
    with '/'. -/
theorem kept_of_blanks (hs : Split words) (hne : ∀ w ∈ words, w ≠ []) {skip : Bool}
    (hcount : words.length ≤ (Cut.squeeze isSlash isBlank skip (joinWords words)).countP isBlank)
    (hend : behindSlash skip (joinWords words) = false) :
    skip = false ∧ ∀ w ∈ words, w.getLast? ≠ some '/' := by
  induction words generalizing skip with
  | nil => exact ⟨hend, by simp⟩
  | cons w words ih =>
    have hsplit : Split words := fun v hv => hs v (by simp [hv])
    have hle := countP_blank_le hsplit (behindSlash skip w)
    rw [countP_blank_cons (hs w (by simp)), List.length_cons] at hcount
    rw [behindSlash_cons] at hend
    have hskip : skip = false := by
      cases skip with
      | false => rfl
      | true =>
        rw [if_pos rfl] at hcount
        omega
    rw [hskip, if_neg (by simp)] at hcount
    rw [hskip] at hend hle
    obtain ⟨hword, hrest⟩ := ih hsplit (fun v hv => hne v (by simp [hv])) (by omega) hend
    rw [behindSlash_word (hs w (by simp)) (hne w (by simp))] at hword
    refine ⟨hskip, fun v hv => ?_⟩
    rcases List.mem_cons.1 hv with rfl | hv
    · simpa using hword
    · exact hrest v hv

/-- What a READ gives of some words: without a '/' at the end. -/
def readBack (words : List CStr) : CStr :=
  if behindSlash true (joinWords words) then (Cut.squeeze isSlash isBlank true (joinWords words)).dropLast
  else Cut.squeeze isSlash isBlank true (joinWords words)

/-- **Words come back** from a READ exactly when none of them ends with '/'. -/
theorem words_readBack_iff (hs : Split words) (hne : ∀ w ∈ words, w ≠ []) (hwords : words ≠ []) :
    Words.words isBlank (readBack words) = words ↔ ∀ w ∈ words, w.getLast? ≠ some '/' := by
  constructor
  · intro h
    rw [readBack] at h
    cases hend : behindSlash true (joinWords words) with
    | true =>
      -- the '/' at the end of the last word is gone
      obtain ⟨t, c, ht, hc⟩ := squeeze_last hs hne hwords true
      rw [hend, if_pos rfl, ht, List.dropLast_concat] at h
      have hflat := congrArg List.flatten h
      rw [Words.flatten_words, ← squeeze_filter hs true, ht, List.filter_append,
        List.filter_cons_of_pos (by simp [hc])] at hflat
      have hlen := congrArg List.length hflat
      rw [List.length_append, List.length_cons] at hlen
      omega
    | false =>
      rw [hend, if_neg (by simp)] at h
      have hle := @Words.length_words_le _ isBlank (Cut.squeeze isSlash isBlank true (joinWords words))
      rw [h] at hle
      obtain ⟨w, ws, rfl⟩ := List.exists_cons_of_ne_nil hwords
      rw [countP_blank_cons (hs w (by simp)), if_pos rfl, Nat.zero_add, List.length_cons] at hle
      rw [behindSlash_cons] at hend
      obtain ⟨hword, hrest⟩ := kept_of_blanks (fun v hv => hs v (List.mem_cons_of_mem w hv))
        (fun v hv => hne v (List.mem_cons_of_mem w hv)) (Nat.le_of_succ_le_succ hle) hend
      rw [behindSlash_word (hs w (by simp)) (hne w (by simp))] at hword
      intro v hv
      rcases List.mem_cons.1 hv with rfl | hv
      · simpa using hword
      · exact hrest v hv
  · intro h
    obtain ⟨hsqueeze, hend⟩ := words_squeeze hs hne h
    rw [readBack, hend hwords, if_neg (by simp)]
    exact hsqueeze

/-- The text of a line with a message of some words. -/
theorem lineText_words {id user message : CStr} (hid : ∀ c ∈ id, isSlash c = false) (hs : Split words)
    (hne : ∀ w ∈ words, w ≠ []) (hwords : words ≠ []) (hm : Spells message words) :
    lineText (mkLine id user message) = Cut.squeeze isSlash isBlank true user ++ '/' :: readBack words := by
  have hfill : filled words ≠ [] := by
    have hall : filled words = words := List.filter_eq_self.2 fun w hw => by simpa using hne w hw
    rw [hall]
    exact hwords
  have hsqueeze : Cut.squeeze isSlash isBlank true (joinWords words) ≠ [] := by
    obtain ⟨t, c, ht, -⟩ := squeeze_last hs hne hwords true
    rw [ht]
    simp
  rw [lineText_squeeze hid _ (hm.cut_ne_nil hs hfill), hm.squeeze, hm.behindSlash, readBack]
  split
  · rw [List.dropLast_append_of_ne_nil (List.cons_ne_nil _ _), List.dropLast_cons_of_ne_nil hsqueeze]
  · rfl

end

/-! The line that was written. -/

section
variable {nmbr name text message : CStr}

/-- The text at the first slash. -/
theorem append_slash_inj {u u' t t' : CStr} (hu : '/' ∉ u) (hu' : '/' ∉ u')
    (h : u ++ '/' :: t = u' ++ '/' :: t') : u = u' ∧ t = t' := by
  induction u generalizing u' with
  | nil =>
    cases u' with
    | nil => exact ⟨rfl, (List.cons.inj h).2⟩
    | cons c u' => exact absurd (List.mem_cons.2 (Or.inl (List.cons.inj h).1)) hu'
  | cons c u ih =>
    cases u' with
    | nil => exact absurd (List.mem_cons.2 (Or.inl (List.cons.inj h).1.symm)) hu
    | cons c' u' =>
      obtain ⟨rfl, htail⟩ := List.cons.inj h
      have hrest : '/' ∉ u := fun hm => hu (List.mem_cons_of_mem c hm)
      have hrest' : '/' ∉ u' := fun hm => hu' (List.mem_cons_of_mem c hm)
      obtain ⟨rfl, rfl⟩ := ih hrest hrest' htail
      exact ⟨rfl, rfl⟩

theorem messageResponse_inj {a b : CStr} (h : messageResponse nmbr a = messageResponse nmbr b) : a = b := by
  have h := List.append_cancel_right h
  have h := List.append_cancel_left h
  exact (List.cons.inj h).2

theorem wroteResponse_inj {a b : CStr} (h : wroteResponse a = wroteResponse b) : a = b :=
  List.append_cancel_left (List.append_cancel_right h)

/-- A reply of a name and a text has the words of both when each has its own. -/
theorem repliesWith_iff {u t : CStr} (hu : '/' ∉ u) :
    RepliesWith nmbr name text (messageResponse nmbr (u ++ '/' :: t)) ↔
      Words.words isBlank u = Words.words isBlank name ∧ Words.words isBlank t = Words.words isBlank text := by
  constructor
  · intro ⟨u', t', hresponse, hu', hname, htext⟩
    obtain ⟨rfl, rfl⟩ := append_slash_inj hu hu' (messageResponse_inj hresponse)
    exact ⟨hname, htext⟩
  · intro ⟨hname, htext⟩
    exact ⟨u, t, rfl, hu, hname, htext⟩

/-- A READ gives characters of the line, and slashes. -/
theorem mem_lineText {line : CStr} {c : Char} (h : c ∈ lineText line) : c = '/' ∨ c ∈ line := by
  have htoken : ∀ t ∈ tokensOf line, c ∈ t → c ∈ line := fun t ht hc => Cut.mem_of_mem_cut ht c hc
  have hget : ∀ i, c ∈ (tokensOf line).getD i [] → c ∈ line := by
    intro i hc
    rcases getD_mem_or_nil (tokensOf line) i with hm | hm
    · exact htoken _ hm hc
    · rw [hm] at hc
      cases hc
  have hjoin : c ∈ joinMessage (tokensOf line) → c = '/' ∨ c ∈ line := by
    intro hc
    rcases mem_intercalate hc with hc | ⟨t, ht, hc⟩
    · exact Or.inl hc
    · exact Or.inr (htoken t (List.mem_of_mem_drop ht) hc)
  rw [lineText, assembleLine] at h
  split at h
  · rcases List.mem_append.1 h with h | h
    · exact Or.inr (hget 1 h)
    · rcases List.mem_cons.1 h with h | h
      · exact Or.inl h
      · exact hjoin h
  · split at h
    · rcases List.mem_append.1 h with h | h
      · exact Or.inr (hget 1 h)
      · rcases List.mem_cons.1 h with h | h
        · exact Or.inl h
        · exact Or.inr (hget 2 h)
    · cases h

/-- A reply that has the words of a text has all its characters but blanks. -/
theorem mem_of_words_eq {s t : CStr} {c : Char} (h : Words.words isBlank s = Words.words isBlank t) (hc : c ∈ t)
    (hb : isBlank c = false) : c ∈ s := by
  obtain ⟨w, hw, hcw⟩ := Words.exists_word hc hb
  rw [← h] at hw
  exact (Words.mem_words hw hcw).1

theorem spells_chars {words : List CStr} (h : Spells text words) {c : Char} (hc : c ∈ text) :
    c = ' ' ∨ ∃ w ∈ words, c ∈ w := by
  cases h with
  | joined => exact mem_joinWords hc
  | single => exact Or.inr ⟨text, by simp, hc⟩

/-- No '=' comes back. -/
theorem not_repliesWith (hn : '=' ∉ nmbr) (hm : Spells message (wordsBehind text))
    (h : '=' ∈ name ∨ '=' ∈ text) : ¬ RepliesWith nmbr name text
      (messageResponse nmbr (lineText (mkLine nmbr (joinWords (wordsBehind name)) message))) := by
  have hword : ∀ {s t : CStr}, Spells s (wordsBehind t) → '=' ∉ s := by
    intro s t hs hc
    rcases spells_chars hs hc with hc | ⟨w, hw, hc⟩
    · exact absurd hc (by decide)
    · exact absurd (split_wordsBehind t w hw _ hc) (by decide)
  have hline : '=' ∉ lineText (mkLine nmbr (joinWords (wordsBehind name)) message) := by
    intro hc
    rcases mem_lineText hc with hc | hc
    · exact absurd hc (by decide)
    · simp only [mkLine, List.append_assoc, List.cons_append, List.mem_append, List.mem_cons] at hc
      rcases hc with hc | hc | hc | hc | hc
      · exact hn hc
      · exact absurd hc (by decide)
      · exact hword (.joined (wordsBehind name)) hc
      · exact absurd hc (by decide)
      · exact hword hm hc
  rintro ⟨u, t, hresponse, -, hname, htext⟩
  rw [messageResponse_inj hresponse] at hline
  apply hline
  rcases h with h | h
  · exact List.mem_append_left _ (mem_of_words_eq hname h (by decide))
  · exact List.mem_append_right _ (List.mem_cons_of_mem _ (mem_of_words_eq htext h (by decide)))

/-- **The line of a WRITE**, read: the name and the text come back exactly when they are kept. -/
theorem repliesWith_written_iff (hslash : '/' ∉ name) (htext : ∃ c ∈ text, isBlank c = false)
    (hn : ∀ c ∈ nmbr, isSlash c = false) (hn' : '=' ∉ nmbr) (hm : Spells message (wordsBehind text)) :
    RepliesWith nmbr name text (messageResponse nmbr
      (lineText (mkLine nmbr (joinWords (wordsBehind name)) message))) ↔ Kept name text := by
  by_cases heq : '=' ∈ name ∨ '=' ∈ text
  · constructor
    · intro h
      exact absurd h (not_repliesWith hn' hm heq)
    · intro h
      exact absurd heq (not_or.2 ⟨h.1, h.2.1⟩)
  · obtain ⟨hname, htext'⟩ := not_or.1 heq
    have hs : Split (wordsBehind text) := split_wordsBehind text
    have hsn : Split (wordsBehind name) := split_wordsBehind name
    rw [wordsBehind_eq htext'] at hm hs
    rw [wordsBehind_eq hname] at hsn ⊢
    have hne : ∀ w ∈ Words.words isBlank text, w ≠ [] := fun w hw => Words.ne_nil_of_mem_words hw
    have hnn : ∀ w ∈ Words.words isBlank name, w ≠ [] := fun w hw => Words.ne_nil_of_mem_words hw
    have hwords : Words.words isBlank text ≠ [] := by
      obtain ⟨c, hc, hb⟩ := htext
      obtain ⟨w, hw, -⟩ := Words.exists_word hc hb
      exact List.ne_nil_of_mem hw
    -- the name comes back: there is no slash in it
    have hnslash : ∀ w ∈ Words.words isBlank name, w.getLast? ≠ some '/' := by
      intro w hw hlast
      exact hslash (Words.mem_words hw (List.mem_of_getLast? hlast)).1
    have huser := (words_squeeze hsn hnn hnslash).1
    have hu : '/' ∉ Cut.squeeze isSlash isBlank true (joinWords (Words.words isBlank name)) := fun hc =>
      hslash (mem_of_words_eq huser.symm hc (by decide))
    rw [lineText_words hn hs hne hwords hm, repliesWith_iff hu, words_readBack_iff hs hne hwords]
    constructor
    · intro h
      exact ⟨hname, htext', h.2⟩
    · intro h
      exact ⟨huser, h.2.2⟩

end

/-! The session. -/

section
variable {b : Board} {g : NumGen} {name text : CStr}

/-- USER sets the name, whatever it answers. -/
theorem userCommand_named {command : CStr} {words : List CStr} (hne : words ≠ []) (client : Client) :
    (userCommand (command :: words) client).1 = ⟨joinWords words, true⟩ := by
  have hlen : (command :: words).length > 1 := by
    have := List.length_pos_of_ne_nil hne
    simp only [List.length_cons]
    omega
  rw [userCommand, if_pos hlen]
  dsimp only
  split <;> rfl

/-- A write with its read-back on a server without peers, of a number that is not on file. -/
theorem syncWriteAlone_board {nmbr poster message : CStr} (junk : Junk) (hfree : lineOf nmbr b.texts = none)
    (hn : ∀ c ∈ nmbr, isSlash c = false) (hl : Clean (mkLine nmbr poster message)) :
    syncWriteAlone junk nmbr poster message (diskOf b.bytes) =
        some (0, diskOf (fileOf (b.texts ++ [mkLine nmbr poster message]))) ∧
      lineOf nmbr (b.texts ++ [mkLine nmbr poster message]) = some (mkLine nmbr poster message) := by
  have hline : lineOf nmbr (b.texts ++ [mkLine nmbr poster message]) = some (mkLine nmbr poster message) := by
    rw [lineOf_append, hfree, Option.none_or, lineOf, List.find?_cons_of_pos]
    simpa using firstField_mkLine hn
  have hwrite : writeDescriptor nmbr poster message (diskOf b.bytes) =
      (0, diskOf (fileOf (b.texts ++ [mkLine nmbr poster message]))) := writeDescriptor_lines rfl nmbr poster message
  have hread := readDescriptor_diskOf rfl (clean_snoc b.texts_clean hl) junk.line nmbr
  rw [hline] at hread
  refine ⟨?_, hline⟩
  rw [syncWriteAlone, hwrite]
  dsimp only
  rw [if_neg (by decide), hread]
  dsimp only [readAnswer]
  rw [if_neg (by omega)]

/-- The three requests one after another. -/
theorem write_read_run (hname : ∃ c ∈ name, isBlank c = false) (htext : ∃ c ∈ text, isBlank c = false)
    (huser : Received (requestLine "USER".toList name)) (hwrite : Received (requestLine "WRITE".toList text))
    (hg : g.count < MAX_LEN) (hroom : maxNumber b.texts + g.count < INT_MAX) (client : Client)
    (junk₁ junk₂ junk₃ : Junk) :
    ∃ num message r client₁ g₂ d₂, 0 ≤ num ∧ Spells message (wordsBehind text) ∧
      serverOperations junk₁ (requestLine "USER".toList name) client g (diskOf b.bytes) =
        some (r, client₁, g, diskOf b.bytes) ∧
      serverOperations junk₂ (requestLine "WRITE".toList text) client₁ g (diskOf b.bytes) =
        some (wroteResponse (showInt num), client₁, g₂, d₂) ∧
      serverOperations junk₃ (readLine (showInt num)) client₁ g₂ d₂ =
        some (messageResponse (showInt num)
          (lineText (mkLine (showInt num) (joinWords (wordsBehind name)) message)), client₁, g₂, d₂) := by
  have hsep : ∀ {s : CStr}, (s.all fun c => !isWordSep c) = true → ∀ c ∈ s, isWordSep c = false := no_sep_of_all
  have hcommand := commandOf_requestLine (hsep (by decide)) huser.no_nul
  have hcommand' := commandOf_requestLine (hsep (by decide)) hwrite.no_nul
  have hlen : (commandOf (requestLine "WRITE".toList text)).length ≥ 2 := by
    have := List.length_pos_of_ne_nil (wordsBehind_ne_nil htext)
    rw [hcommand', List.length_cons]
    omega
  -- the generator
  obtain ⟨num, g₂, hgen, h₀, hnum⟩ := @generateNumber_with b junk₂.line g [] hg rfl
  have hgen : generateNumber junk₂.line g (diskOf b.bytes) = some (num, g₂, diskOf b.bytes) := hgen
  have hslash : ∀ c ∈ showInt num, isSlash c = false := isNumeral_no_slash (showInt_isNumeral h₀)
  -- the line
  obtain ⟨message, hmessage⟩ : ∃ m, m = textFrom 1 (commandOf (requestLine "WRITE".toList text)) := ⟨_, rfl⟩
  have hspell : Spells message (wordsBehind text) := by
    have h := spells_textFrom hlen
    rw [← hmessage, hcommand'] at h
    exact h
  have hclient : (⟨joinWords (wordsBehind name), true⟩ : Client).Fits := by
    have h := userCommand_fits huser Client.start_fits
    rwa [hcommand, userCommand_named (wordsBehind_ne_nil hname)] at h
  have hline := write_line_clean hwrite hclient hnum.name.toUnbroken hnum.length_le
  dsimp only at hline
  rw [← hmessage] at hline
  obtain ⟨hsync, hfound⟩ := syncWriteAlone_board junk₂ (hnum.free hroom) hslash hline
  refine ⟨num, message, (userCommand (commandOf (requestLine "USER".toList name)) client).2,
    ⟨joinWords (wordsBehind name), true⟩, g₂,
    diskOf (fileOf (b.texts ++ [mkLine (showInt num) (joinWords (wordsBehind name)) message])),
    h₀, hspell, ?_, ?_, ?_⟩
  · have hkind : requestKind (requestLine "USER".toList name) = "user".toList := by
      rw [requestKind_eq hcommand]
      decide
    rw [serverOperations_user hkind, hcommand, userCommand_named (wordsBehind_ne_nil hname)]
  · have hkind : requestKind (requestLine "WRITE".toList text) = "write".toList := by
      rw [requestKind_eq hcommand']
      decide
    rw [serverOperations_write hkind, writeCommand, if_pos hlen, ← hmessage]
    dsimp only
    rw [hgen]
    dsimp only
    rw [hsync]
    dsimp only
    rw [if_pos ⟨rfl, h₀⟩]
    rfl
  · have hkind : requestKind (readLine (showInt num)) = "read".toList := by
      rw [requestKind_eq hnum.name.command]
      decide
    have hread := readDescriptor_diskOf rfl (clean_snoc b.texts_clean hline) junk₃.line (showInt num)
    rw [hfound] at hread
    have htwo : [readWord, showInt num].length = 2 := rfl
    have hget : [readWord, showInt num].getD 1 [] = showInt num := rfl
    rw [serverOperations_read hkind, hnum.name.command, readCommand, if_pos htwo, hget]
    dsimp only
    rw [hread]
    dsimp only [readAnswer]
    rw [if_pos (by omega)]
    rfl

/-- The reply to the READ of a number is right exactly when the text is kept. -/
theorem repliesWith_number_iff {num : Int} {message : CStr} (h₀ : 0 ≤ num) (hslash : '/' ∉ name)
    (htext : ∃ c ∈ text, isBlank c = false) (hm : Spells message (wordsBehind text)) :
    RepliesWith (showInt num) name text (messageResponse (showInt num)
      (lineText (mkLine (showInt num) (joinWords (wordsBehind name)) message))) ↔ Kept name text := by
  have heq : '=' ∉ showInt num := by
    intro hc
    exact absurd ((showInt_isNumeral h₀).2 _ hc) (by decide)
  exact repliesWith_written_iff hslash htext (isNumeral_no_slash (showInt_isNumeral h₀)) heq hm

/-- A text that is given back is kept: the session runs from any board. -/
theorem GivesBack.kept {client : Client} (h : GivesBack b client g name text) (hslash : '/' ∉ name)
    (hname : ∃ c ∈ name, isBlank c = false) (htext : ∃ c ∈ text, isBlank c = false)
    (huser : Received (requestLine "USER".toList name)) (hwrite : Received (requestLine "WRITE".toList text))
    (hg : g.count < MAX_LEN) (hroom : maxNumber b.texts + g.count < INT_MAX) : Kept name text := by
  obtain ⟨num, message, r, client₁, g₂, d₂, h₀, hm, hrun₁, hrun₂, hrun₃⟩ :=
    write_read_run hname htext huser hwrite hg hroom client ⟨[], []⟩ ⟨[], []⟩ ⟨[], []⟩
  rw [← repliesWith_number_iff h₀ hslash htext hm]
  exact h _ _ _ _ _ _ _ _ _ _ _ _ _ _ _ hrun₁ hrun₂ hrun₃

/-- **WRITE then READ**: the name and the text come back exactly when neither holds a '=' and no
    word of the text ends with '/'. -/
theorem write_read_iff (hslash : '/' ∉ name) (hname : ∃ c ∈ name, isBlank c = false)
    (htext : ∃ c ∈ text, isBlank c = false) (huser : Received (requestLine "USER".toList name))
    (hwrite : Received (requestLine "WRITE".toList text)) (hg : g.count < MAX_LEN)
    (hroom : maxNumber b.texts + g.count < INT_MAX) (client : Client) :
    GivesBack b client g name text ↔ Kept name text := by
  constructor
  · intro h
    exact h.kept hslash hname htext huser hwrite hg hroom
  · intro hkept junk₁ junk₂ junk₃ r response nmbr client₁ client₂ client₃ g₁ g₂ g₃ d₁ d₂ d₃ hrun₁ hrun₂ hrun₃
    obtain ⟨num, message, r', client₁', g₂', d₂', h₀, hm, hrun₁', hrun₂', hrun₃'⟩ :=
      write_read_run hname htext huser hwrite hg hroom client junk₁ junk₂ junk₃
    -- the three answers are those of the run
    rw [hrun₁'] at hrun₁
    simp only [Option.some.injEq, Prod.mk.injEq] at hrun₁
    obtain ⟨-, rfl, rfl, rfl⟩ := hrun₁
    rw [hrun₂'] at hrun₂
    simp only [Option.some.injEq, Prod.mk.injEq] at hrun₂
    obtain ⟨hnmbr, rfl, rfl, rfl⟩ := hrun₂
    obtain rfl := wroteResponse_inj hnmbr
    rw [hrun₃'] at hrun₃
    simp only [Option.some.injEq, Prod.mk.injEq] at hrun₃
    rw [← hrun₃.1]
    exact (repliesWith_number_iff h₀ hslash htext hm).2 hkept

end

/-- A blank before a '/' and one inside of a word are no loss. -/
theorem write_read_slashes : GivesBack emptyBoard Client.start ⟨[]⟩ "al".toList "a /b c/d".toList := by
  have huser : Received (requestLine "USER".toList "al".toList) := ⟨⟨by decide, by decide⟩, by decide⟩
  have hwrite : Received (requestLine "WRITE".toList "a /b c/d".toList) := ⟨⟨by decide, by decide⟩, by decide⟩
  exact (write_read_iff (by decide) ⟨'a', by decide, rfl⟩ ⟨'a', by decide, rfl⟩ huser hwrite (by decide) (by decide)
    Client.start).2 ⟨by decide, by decide, by decide⟩

/-- A '=' comes back as a blank, and a blank behind a '/' does not come back. -/
theorem write_read_loses : ¬ GivesBack emptyBoard Client.start ⟨[]⟩ "al".toList "a=b".toList ∧
    ¬ GivesBack emptyBoard Client.start ⟨[]⟩ "al".toList "a/ b".toList := by
  have huser : Received (requestLine "USER".toList "al".toList) := ⟨⟨by decide, by decide⟩, by decide⟩
  have hwrite : Received (requestLine "WRITE".toList "a=b".toList) := ⟨⟨by decide, by decide⟩, by decide⟩
  have hwrite' : Received (requestLine "WRITE".toList "a/ b".toList) := ⟨⟨by decide, by decide⟩, by decide⟩
  constructor
  · intro h
    obtain ⟨-, heq, -⟩ := h.kept (by decide) ⟨'a', by decide, rfl⟩ ⟨'a', by decide, rfl⟩ huser hwrite (by decide) (by decide)
    exact heq (by decide)
  · intro h
    obtain ⟨-, -, hlast⟩ := h.kept (by decide) ⟨'a', by decide, rfl⟩ ⟨'a', by decide, rfl⟩ huser hwrite' (by decide) (by decide)
    exact hlast ['a', '/'] (by decide) rfl

end BulletinBoard
