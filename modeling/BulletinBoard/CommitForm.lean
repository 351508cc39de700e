import BulletinBoard.ReplaceReplication
import BulletinBoard.Store

/- The COMMIT lines that a peer takes. protocol2pc.txt gives two forms; the code asks less of
   a line in some ways and more in others: it compares the second keyword in lower case only,
   takes `=` for a blank, looks for no number, and finds the slash of a REPLACE, and a
   character behind it, only among the first seven characters. What is taken is put beside
   the forms, line by line. -/
namespace BulletinBoard

/-! The forms. -/

/-- The word stands first, behind it the separator and any blanks. -/
def Word (w : CStr) (c : Char) (rest text : CStr) : Prop := ∃ k, text = w ++ c :: (List.replicate k ' ' ++ rest)

/-- A keyword, in upper case as protocol2pc.txt has it or in lower case as `send_commit` has it. -/
def spelled (upper : Bool) (w : CStr) : CStr := if upper then w.map Char.toUpper else w

/-- `COMMIT WRITE msg_nmbr message`. -/
structure WriteForm (b : Board) (upper : Bool) (nmbr message text : CStr) : Prop where
  words : ∃ t₁ t₂, Word (spelled upper "commit".toList) ' ' t₁ text ∧
    Word (spelled upper "write".toList) ' ' t₂ t₁ ∧ Word nmbr ' ' message t₂
  numeral : IsNumeral nmbr
  free : nmbr ∉ liveIds b.lines
  message_text : ∃ c ∈ message, isBlank c = false

/-- `COMMIT REPLACE msg_nmbr/message`. -/
structure ReplaceForm (b : Board) (upper : Bool) (nmbr message text : CStr) : Prop where
  words : ∃ t₁, Word (spelled upper "commit".toList) ' ' t₁ text ∧
    Word (spelled upper "replace".toList) ' ' (nmbr ++ '/' :: message) t₁
  numeral : IsNumeral nmbr
  live : nmbr ∈ liveIds b.lines
  message_text : ∃ c ∈ message, isBlank c = false

def Documented (b : Board) (text : CStr) : Prop :=
  ∃ upper nmbr message, WriteForm b upper nmbr message text ∨ ReplaceForm b upper nmbr message text

/-- The request is a COMMIT, and the peer answers `positive`. -/
def CommitsPositive (b : Board) (p : Peer) (junk : Junk) (line : CStr) : Prop :=
  tolwr ((commandOf line).getD 0 []) = "commit".toList ∧
    ∃ p' d, p.run junk line (diskOf b.bytes) = some (p', some .positive, d)

/-! What the peer takes. -/

/-- The blanks before the message, as the words of the line are put together again: one for every `=`
    before it, and one for blanks that it begins with, or that are put behind an empty one. -/
def lead (message : CStr) : Nat :=
  (if message.headD ' ' = ' ' then 1 else 0) + (message.takeWhile isWordSep).count '='

/-- Two words and a number, with any separators between. -/
structure WriteTaken (b : Board) (commit : CStr) (s₀ s₁ s₂ : Char) (nmbr message text : CStr) : Prop where
  words : ∃ t₁ t₂, Word commit s₀ t₁ text ∧ Word "write".toList s₁ t₂ t₁ ∧ Word nmbr s₂ message t₂
  commit : tolwr commit = "commit".toList
  seps : isWordSep s₀ = true ∧ isWordSep s₁ = true ∧ isWordSep s₂ = true
  nmbr_word : ∀ c ∈ nmbr, isWordSep c = false
  nmbr_empty : nmbr = [] → s₂ = '='
  absent : lineOf nmbr b.texts = none
  message_text : ∃ c ∈ message, isBlank c = false

/-- Two words and the number of a line, live or deleted, whose message begins in time. -/
structure ReplaceTaken (b : Board) (commit : CStr) (s₀ s₁ : Char) (nmbr message text : CStr) : Prop where
  words : ∃ t₁, Word commit s₀ t₁ text ∧ Word "replace".toList s₁ (nmbr ++ '/' :: message) t₁
  commit : tolwr commit = "commit".toList
  seps : isWordSep s₀ = true ∧ isWordSep s₁ = true
  nmbr_word : ∀ c ∈ nmbr, isWordSep c = false ∧ isSlash c = false
  present : lineOf nmbr b.texts ≠ none
  in_time : nmbr.length + lead message < 6

/-! Where the two part. -/

/-- A line of the documented form that is refused: its keywords are in upper case, or the number of
    its REPLACE is so long that the message begins behind the seventh character. -/
def Refused (b : Board) (text : CStr) : Prop :=
  ∃ nmbr message, WriteForm b true nmbr message text ∨ ReplaceForm b true nmbr message text ∨
    ReplaceForm b false nmbr message text ∧ 6 ≤ nmbr.length + lead message

/-- A line of another form that is taken: the first keyword is not in lower case, or a `=` stands
    for a blank, or the number is none, or the message of a REPLACE is blank. -/
def Tolerated (b : Board) (text : CStr) : Prop :=
  (∃ commit s₀ s₁ s₂ nmbr message, WriteTaken b commit s₀ s₁ s₂ nmbr message text ∧
    (commit ≠ "commit".toList ∨ s₀ = '=' ∨ s₁ = '=' ∨ s₂ = '=' ∨ ¬ IsNumeral nmbr)) ∨
  ∃ commit s₀ s₁ nmbr message, ReplaceTaken b commit s₀ s₁ nmbr message text ∧
    (commit ≠ "commit".toList ∨ s₀ = '=' ∨ s₁ = '=' ∨ ¬ IsNumeral nmbr ∨ ∀ c ∈ message, isBlank c = true)

/-! Words of a text. -/

section
variable {w w' text rest rest' : CStr} {c c' : Char}

/-- The text begins with something else than a blank. -/
def Starts (text : CStr) : Prop := ∃ c r, text = c :: r ∧ isBlank c = false

theorem replicate_dropWhile (k : Nat) (rest : CStr) :
    (List.replicate k ' ' ++ rest).dropWhile isBlank = rest.dropWhile isBlank := by
  rw [List.dropWhile_append_of_pos]
  intro x hx
  obtain rfl := List.eq_of_mem_replicate hx
  rfl

theorem Starts.dropWhile (h : Starts text) : text.dropWhile isBlank = text := by
  obtain ⟨c, r, rfl, hc⟩ := h
  rw [List.dropWhile_cons, hc]
  rfl

theorem starts_append (hw : ∀ x ∈ w, isWordSep x = false) (hne : w ≠ []) (rest : CStr) : Starts (w ++ rest) := by
  obtain ⟨x, r, rfl⟩ := List.exists_cons_of_ne_nil hne
  exact ⟨x, r ++ rest, rfl, isBlank_of_not_sep (hw x (by simp))⟩

theorem Starts.wordsBehind (h : Starts text) : wordsBehind text = wordsOf text := by
  have hne : text ≠ [] := by
    obtain ⟨c, r, rfl, -⟩ := h
    simp
  rw [BulletinBoard.wordsBehind, Cut.cut_true_eq, h.dropWhile, if_neg hne]
  rfl

theorem Word.wordsOf (h : Word w c rest text) (hw : ∀ x ∈ w, isWordSep x = false) (hc : isWordSep c = true) :
    wordsOf text = w :: wordsBehind rest := by
  obtain ⟨k, rfl⟩ := h
  rw [BulletinBoard.wordsOf, Cut.cut_false_append hw hc, Cut.cut_true_eq, replicate_dropWhile, ← Cut.cut_true_eq]
  rfl

/-- A word with another behind it. -/
theorem word_of_wordsOf {q : CStr} {ps : List CStr} (h : wordsOf text = w :: q :: ps) :
    ∃ c rest, Word w c rest text ∧ isWordSep c = true ∧ (∀ x ∈ w, isWordSep x = false) ∧ Starts rest ∧
      wordsOf rest = q :: ps := by
  have hsep : ∃ x ∈ text, isWordSep x = true := by
    by_contra hno
    have hno' : ∀ x ∈ text, isWordSep x = false := fun x hx => by simpa using fun hs => hno ⟨x, hx, hs⟩
    rw [BulletinBoard.wordsOf, Cut.cut_false_of_no_sep hno'] at h
    simp at h
  obtain ⟨v, c, t, rfl, hv, hc⟩ := Cut.exists_first hsep
  rw [BulletinBoard.wordsOf, Cut.cut_false_append hv hc, Cut.cut_true_eq] at h
  obtain ⟨rfl, hrest⟩ := List.cons.inj h
  clear h
  split at hrest
  · cases hrest
  · next hne =>
    have hstarts : Starts (t.dropWhile isBlank) := by
      obtain ⟨x, r, hx⟩ := List.exists_cons_of_ne_nil hne
      refine ⟨x, r, hx, ?_⟩
      have hhead := List.head_dropWhile_not isBlank hne
      simpa [hx] using hhead
    have hblanks : t.takeWhile isBlank = List.replicate (t.takeWhile isBlank).length ' ' := by
      rw [List.eq_replicate_iff]
      exact ⟨rfl, fun x hx => by simpa [isBlank] using List.mem_takeWhile_imp hx⟩
    refine ⟨c, t.dropWhile isBlank, ⟨(t.takeWhile isBlank).length, ?_⟩, hc, hv, hstarts, hrest⟩
    rw [← hblanks, List.takeWhile_append_dropWhile]

theorem word_unique (h : Word w c rest text) (h' : Word w' c' rest' text) (hw : ∀ x ∈ w, isWordSep x = false)
    (hw' : ∀ x ∈ w', isWordSep x = false) (hc : isWordSep c = true) (hc' : isWordSep c' = true) :
    w = w' ∧ c = c' ∧ (Starts rest → Starts rest' → rest = rest') := by
  obtain ⟨k, rfl⟩ := h
  obtain ⟨k', h'⟩ := h'
  have hfirst : ∀ {v : CStr} {x : Char} {r : CStr}, (∀ y ∈ v, isWordSep y = false) → isWordSep x = true →
      (v ++ x :: r).takeWhile (fun y => !isWordSep y) = v := by
    intro v x r hv hx
    rw [List.takeWhile_append_of_pos fun y hy => by simp [hv y hy]]
    simp [hx]
  have hww : w = w' := by
    rw [← hfirst hw hc, h', hfirst hw' hc']
  subst hww
  obtain ⟨rfl, hrest⟩ := List.cons.inj (List.append_cancel_left h')
  refine ⟨rfl, rfl, fun hs hs' => ?_⟩
  rw [← hs.dropWhile, ← hs'.dropWhile, ← replicate_dropWhile k rest, hrest, replicate_dropWhile]

/-- The blanks before the message of a REPLACE, in the words put together again. -/
theorem takeWhile_trailWords (text : CStr) :
    ((trailWords (wordsBehind text)).takeWhile isBlank).length = (text.takeWhile isWordSep).count '=' := by
  induction text with
  | nil => rfl
  | cons c text ih =>
    by_cases hblank : c = ' '
    · subst hblank
      have hskip : wordsBehind (' ' :: text) = wordsBehind text := by
        rw [BulletinBoard.wordsBehind, Cut.cut]
        rfl
      have hsep : (' ' :: text).takeWhile isWordSep = ' ' :: text.takeWhile isWordSep := rfl
      rw [hskip, ih, hsep, List.count_cons_of_ne (by decide)]
    · have hb : isBlank c = false := by simpa [isBlank] using hblank
      by_cases heq : c = '='
      · subst heq
        have hempty : wordsBehind ('=' :: text) = [] :: wordsBehind text := by
          rw [BulletinBoard.wordsBehind, Cut.cut]
          rfl
        have hsep : ('=' :: text).takeWhile isWordSep = '=' :: text.takeWhile isWordSep := rfl
        have htrail : trailWords ([] :: wordsBehind text) = ' ' :: trailWords (wordsBehind text) := rfl
        have hlen : ((' ' :: trailWords (wordsBehind text)).takeWhile isBlank).length =
            ((trailWords (wordsBehind text)).takeWhile isBlank).length + 1 := rfl
        rw [hempty, htrail, hsep, List.count_cons_self, hlen, ih]
      · have hsep : isWordSep c = false := by simp [isWordSep, heq, hblank]
        have hword : ∃ v vs, wordsBehind (c :: text) = (c :: v) :: vs := by
          have hne : Cut.cut isWordSep isBlank false text ≠ [] := Cut.cut_false_ne_nil text
          obtain ⟨v, vs, hv⟩ := List.exists_cons_of_ne_nil hne
          refine ⟨v, vs, ?_⟩
          simp [BulletinBoard.wordsBehind, Cut.cut, hb, hsep, hv, Cut.push]
        obtain ⟨v, vs, hv⟩ := hword
        have htrail : trailWords ((c :: v) :: vs) = c :: (v ++ ' ' :: trailWords vs) := by simp [trailWords]
        rw [hv, htrail, List.takeWhile_cons, hb, List.takeWhile_cons, hsep]
        rfl

end

/-! The tokens of a REPLACE. -/

section
variable {words : List CStr} {junk : List Char} {nmbr rest : CStr} {b : Board}

/-- The first field of a line of a board is neither empty nor has it a separator. -/
theorem lineOf_word (h : lineOf nmbr b.texts ≠ none) : nmbr ≠ [] ∧ ∀ c ∈ nmbr, isWordSep c = false := by
  obtain ⟨l, hl⟩ := Option.ne_none_iff_exists'.1 h
  obtain ⟨hmem, rfl⟩ := lineOf_some hl
  obtain ⟨x, -, rfl⟩ := List.mem_map.1 hmem
  cases x with
  | live l =>
    rw [BoardLine.text, l.firstField]
    exact ⟨l.ok.id_numeral.1, fun c hc => digit_no_sep (l.ok.id_numeral.2 c hc)⟩
  | deleted n pos lt =>
    rw [BoardLine.text, firstField_deletedLine]
    refine ⟨?_, fun c hc => ?_⟩
    · rw [deletedLine, ne_eq, List.replicate_eq_nil_iff]
      omega
    · obtain rfl := List.eq_of_mem_replicate hc
      decide

theorem trailWords_last (hne : words ≠ []) : ∃ s, trailWords words = s ++ [' '] := by
  obtain ⟨init, w, rfl⟩ := List.eq_nil_or_concat words |>.resolve_left hne
  exact ⟨trailWords init ++ w, by simp [trailWords]⟩

theorem takeWhile_nul (rest r : CStr) : (rest ++ NUL :: r).takeWhile isBlank = rest.takeWhile isBlank := by
  induction rest with
  | nil => rfl
  | cons c rest ih =>
    rw [List.cons_append, List.takeWhile_cons, List.takeWhile_cons, ih]

/-- The pieces behind a slash that is reached. -/
theorem cutAt_buffer {r : CStr} (hn : ∀ c ∈ nmbr, isSlash c = false) (hlt : nmbr.length < 7) (hr : 7 ≤ r.length) :
    Cut.cutAt isSlash isBlank 7 false (nmbr ++ '/' :: (rest ++ NUL :: r)) =
        nmbr :: Cut.cutAt isSlash isBlank (6 - nmbr.length) true (rest ++ NUL :: r) ∧
      (Cut.cutAt isSlash isBlank (6 - nmbr.length) true (rest ++ NUL :: r) ≠ [] ↔
        nmbr.length + 1 + (rest.takeWhile isBlank).length < 7) := by
  have hlen : 6 - nmbr.length ≤ (rest ++ NUL :: r).length := by
    rw [List.length_append, List.length_cons]
    omega
  have hseven : nmbr.length + 1 + (6 - nmbr.length) = 7 := by omega
  constructor
  · have hcut := @Cut.cutAt_append _ isSlash isBlank _ '/' hn (by decide) (6 - nmbr.length) (rest ++ NUL :: r)
    rwa [hseven] at hcut
  · rw [Cut.cutAt_true_ne_nil_iff hlen, takeWhile_nul]
    omega

/-- There are two tokens, the first of them on file, exactly when the text has a slash behind it and
    something else than a blank, be it the NUL, before the limit. -/
theorem replTokens_found (hw : ∀ w ∈ words, Unbroken w) (hne : words ≠ []) :
    (replMessage (replTokens words 7 junk) ≠ none ∧ lineOf ((replTokens words 7 junk).getD 0 []) b.texts ≠ none) ↔
      ∃ nmbr rest, trailWords words = nmbr ++ '/' :: rest ∧ (∀ c ∈ nmbr, isSlash c = false) ∧
        lineOf nmbr b.texts ≠ none ∧ nmbr.length + 1 + (rest.takeWhile isBlank).length < 7 := by
  have hnul : NUL ∉ trailWords words := (Unbroken.trailWords hw).no_nul
  have hr : 7 ≤ (junk ++ List.replicate 7 NUL).length := by simp
  obtain ⟨r, hrdef⟩ : ∃ r, r = junk ++ List.replicate 7 NUL := ⟨_, rfl⟩
  rw [replTokens_buffer, ← hrdef]
  rw [← hrdef] at hr
  constructor
  · rintro ⟨hmsg, hlive⟩
    obtain ⟨message, hmsg⟩ := Option.ne_none_iff_exists'.1 hmsg
    obtain ⟨p', q', ps', htok, -⟩ := replMessage_eq_some.1 hmsg
    rw [htok, List.getD_cons_zero] at hlive
    obtain ⟨p, t, hcut, rfl, ht⟩ := List.map_eq_cons_iff.1 htok
    obtain ⟨q, ps, rfl, -, -⟩ := List.map_eq_cons_iff.1 ht
    obtain ⟨c, u, hsplit, hp, hc, hlt⟩ := Cut.cutAt_head hcut
    obtain rfl : c = '/' := isSlash_eq hc
    rcases List.append_eq_append_iff.1 hsplit with ⟨a, hpa, ha⟩ | ⟨a, hta, ha⟩
    · -- the slash is behind the NUL: the first token is the whole text, which ends with a blank
      cases a with
      | nil => exact absurd (List.cons.inj ha).1 (by decide)
      | cons x a =>
        obtain rfl := (List.cons.inj ha).1
        rw [hpa, cstr_zero_append hnul] at hlive
        obtain ⟨s, hs⟩ := trailWords_last hne
        have hblank := (lineOf_word hlive).2 ' ' (by rw [hs]; simp)
        exact absurd hblank (by decide)
    · cases a with
      | nil => exact absurd (List.cons.inj ha).1 (by decide)
      | cons x rest =>
        obtain ⟨rfl, hrest⟩ := List.cons.inj ha
        have hu : u = rest ++ NUL :: r := hrest
        have hpnul : NUL ∉ p := fun h => hnul (by rw [hta]; exact List.mem_append_left _ h)
        rw [cstr_zero_of_no_nul hpnul] at hlive
        refine ⟨p, rest, hta, hp, hlive, ?_⟩
        obtain ⟨hpieces, hiff⟩ := @cutAt_buffer p rest r hp hlt hr
        apply hiff.1
        rw [hsplit, hu, hpieces] at hcut
        rw [(List.cons.inj hcut).2]
        exact List.cons_ne_nil q ps
  · rintro ⟨nmbr, rest, htext, hn, hlive, hlt⟩
    have hbuf : trailWords words ++ NUL :: r = nmbr ++ '/' :: (rest ++ NUL :: r) := by
      rw [htext]
      simp
    obtain ⟨hpieces, hiff⟩ := @cutAt_buffer nmbr rest r hn (by omega) hr
    obtain ⟨q, qs, hq⟩ := List.exists_cons_of_ne_nil (hiff.2 hlt)
    have hnnul : NUL ∉ nmbr := fun h => hnul (by rw [htext]; exact List.mem_append_left _ h)
    rw [hbuf, hpieces, hq, List.map_cons, List.map_cons, List.getD_cons_zero, cstr_zero_of_no_nul hnnul]
    refine ⟨?_, hlive⟩
    obtain ⟨message, hmsg⟩ : ∃ message, replMessage (nmbr :: cstr q 0 :: qs.map fun p => cstr p 0) = some message :=
      ⟨_, replMessage_eq_some.2 ⟨_, _, _, rfl, rfl⟩⟩
    rw [hmsg]
    exact Option.some_ne_none message

end

/-! What a COMMIT comes to, by its words. -/

/-- The words of a COMMIT that is answered `positive`. -/
@[mk_iff]
inductive Takes (b : Board) : List CStr → Prop
  | write {commit nmbr w : CStr} {ws : List CStr} : tolwr commit = "commit".toList → lineOf nmbr b.texts = none →
      Takes b (commit :: "write".toList :: nmbr :: w :: ws)
  | replace {commit nmbr rest : CStr} {words : List CStr} : tolwr commit = "commit".toList → words ≠ [] →
      trailWords words = nmbr ++ '/' :: rest → (∀ c ∈ nmbr, isSlash c = false) → lineOf nmbr b.texts ≠ none →
      nmbr.length + 1 + (rest.takeWhile isBlank).length < 7 → Takes b (commit :: "replace".toList :: words)

section
variable {b : Board} {p : Peer} {junk : Junk} {nmbr message : CStr}

/-- The file operations that are still to come end with `positive`. -/
def EndsPositive (b : Board) (junk : Junk) (p : Peer) : Prop :=
  ∃ p' d, Peer.finish junk 4 (p, none, diskOf b.bytes) = some (p', some .positive, d)

theorem endsPositive_write : EndsPositive b junk { p with pc := .writeCheck nmbr message } ↔ lineOf nmbr b.texts = none := by
  have hread := readDescriptor_diskOf (rfl : b.bytes = _) b.texts_clean junk.line nmbr
  rw [EndsPositive, Peer.finish_writeCheck, hread, Option.map_some]
  cases h : lineOf nmbr b.texts with
  | none =>
    rw [readAnswer]
    dsimp only
    rw [if_pos rfl, writeDescriptor_diskOf, if_pos rfl]
    exact iff_of_true ⟨_, _, rfl⟩ rfl
  | some l =>
    have hfound : ¬ (readAnswer (some l)).1 = -1 := by
      rw [readAnswer]
      omega
    dsimp only
    rw [if_neg hfound]
    refine iff_of_false ?_ (Option.some_ne_none l)
    rintro ⟨p', d, h⟩
    simp at h

/-- The delete and the write are looked at by nobody. -/
theorem endsPositive_replace :
    EndsPositive b junk { p with pc := .replaceCheck nmbr message } ↔ lineOf nmbr b.texts ≠ none := by
  have hread := readDescriptor_diskOf (rfl : b.bytes = _) b.texts_clean junk.line nmbr
  rw [EndsPositive, Peer.finish_replaceCheck, hread, Option.bind_some]
  cases h : lineOf nmbr b.texts with
  | none =>
    rw [readAnswer]
    dsimp only
    rw [if_pos rfl]
    refine iff_of_false ?_ fun hn => hn rfl
    rintro ⟨p', d, h⟩
    simp at h
  | some l =>
    have hfound : ¬ (readAnswer (some l)).1 = -1 := by
      rw [readAnswer]
      omega
    have hsave := readTokenizedDescriptor_diskOf (rfl : b.bytes = _) b.texts_clean junk.line nmbr p.undo_user p.undo_message
    have hdelete : ∃ file, deleteDescriptor junk nmbr (diskOf b.bytes) = some ((l.length : Int) + 1, diskOf file) := by
      obtain ⟨x, y, hsplit, hx, hl, hk⟩ := lineOf_split b.texts_clean h
      have hfile : (diskOf b.bytes).bbfile = fileOf (x ++ l :: y) := by rw [← hsplit]; rfl
      exact ⟨_, deleteDescriptor_at hfile (openFile_diskOf _) (openFile_diskOf _) hx hl hk⟩
    obtain ⟨file, hdelete⟩ := hdelete
    dsimp only
    rw [if_neg hfound, hsave, Option.bind_some]
    dsimp only
    rw [hdelete, Option.map_some]
    exact iff_of_true ⟨_, _, rfl⟩ (Option.some_ne_none l)

theorem not_endsPositive_closed {reply : PeerReply} (hpc : p.pc = .closed) (hreply : reply ≠ .positive) (d : Disk) :
    ¬ ∃ p' d', Peer.finish junk 4 (p, some reply, d) = some (p', some .positive, d') := by
  rw [Peer.finish_done (Or.inr hpc)]
  rintro ⟨p', d', h⟩
  simp only [Option.some.injEq, Prod.mk.injEq] at h
  exact hreply h.2.1

/-! The commands that are taken, kind by kind. -/

theorem takes_write_iff {commit : CStr} {words : List CStr} (hcommit : tolwr commit = "commit".toList) :
    Takes b (commit :: "write".toList :: words) ↔
      ∃ nmbr w ws, words = nmbr :: w :: ws ∧ lineOf nmbr b.texts = none := by
  rw [takes_iff]
  constructor
  · intro h
    obtain ⟨c, nmbr, w, ws, -, hfree, heq⟩ | ⟨c, nmbr, rest, words', -, -, -, -, -, -, heq⟩ := h
    · exact ⟨nmbr, w, ws, (List.cons.inj (List.cons.inj heq).2).2, hfree⟩
    · exact absurd (List.cons.inj (List.cons.inj heq).2).1 (by decide)
  · intro h
    obtain ⟨nmbr, w, ws, rfl, hfree⟩ := h
    exact Or.inl ⟨commit, nmbr, w, ws, hcommit, hfree, rfl⟩

theorem takes_replace_iff {commit : CStr} {words : List CStr} (hcommit : tolwr commit = "commit".toList) :
    Takes b (commit :: "replace".toList :: words) ↔ words ≠ [] ∧
      ∃ nmbr rest, trailWords words = nmbr ++ '/' :: rest ∧ (∀ c ∈ nmbr, isSlash c = false) ∧
        lineOf nmbr b.texts ≠ none ∧ nmbr.length + 1 + (rest.takeWhile isBlank).length < 7 := by
  constructor
  · intro h
    rw [takes_iff] at h
    obtain ⟨c, nmbr, w, ws, -, -, heq⟩ | ⟨c, nmbr, rest, words', -, hne, htext, hn, hlive, hlt, heq⟩ := h
    · exact absurd (List.cons.inj (List.cons.inj heq).2).1 (by decide)
    · obtain rfl := (List.cons.inj (List.cons.inj heq).2).2
      exact ⟨hne, nmbr, rest, htext, hn, hlive, hlt⟩
  · intro h
    obtain ⟨hne, nmbr, rest, htext, hn, hlive, hlt⟩ := h
    exact .replace hcommit hne htext hn hlive hlt

theorem Takes.kind {commit kind : CStr} {words : List CStr} (h : Takes b (commit :: kind :: words)) :
    kind = "write".toList ∨ kind = "replace".toList := by
  rw [takes_iff] at h
  obtain ⟨c, nmbr, w, ws, -, -, heq⟩ | ⟨c, nmbr, rest, words', -, -, -, -, -, -, heq⟩ := h
  · exact Or.inl (List.cons.inj (List.cons.inj heq).2).1
  · exact Or.inr (List.cons.inj (List.cons.inj heq).2).1

theorem Takes.two_le {command : List CStr} (h : Takes b command) : 2 ≤ command.length := by
  cases h with
  | write _ _ => simp
  | replace _ _ _ _ _ _ => simp

/-! What a COMMIT does, kind by kind. -/

theorem Peer.commit_write (p : Peer) (line : List Char) (c nmbr w : CStr) (ws : List CStr) :
    p.commit line (c :: "write".toList :: nmbr :: w :: ws) =
      ({ p with pc := .writeCheck nmbr (textFrom 3 (c :: "write".toList :: nmbr :: w :: ws)) }, none) := by
  have hlen : (c :: "write".toList :: nmbr :: w :: ws).length > 1 := by simp
  have hkind : (c :: "write".toList :: nmbr :: w :: ws).getD 1 [] = "write".toList := rfl
  rw [Peer.commit, if_pos hlen, hkind, if_pos rfl, if_pos (by simp)]
  rfl

/-- The message of a REPLACE, where `strtok` finds one, is what is checked. -/
theorem Peer.commit_replace (p : Peer) (line : List Char) (c w : CStr) (ws : List CStr) :
    p.commit line (c :: "replace".toList :: w :: ws) =
      match replMessage (replTokens (w :: ws) 7 line) with
      | some message => ({ p with pc := .replaceCheck ((replTokens (w :: ws) 7 line).getD 0 []) message }, none)
      | none => ({ p with pc := .closed }, some .negative) := by
  have hlen : (c :: "replace".toList :: w :: ws).length > 1 := by simp
  have hkind : (c :: "replace".toList :: w :: ws).getD 1 [] = "replace".toList := rfl
  have hseven : "replace".toList.length = 7 := by decide
  rw [Peer.commit, if_pos hlen, hkind, if_neg (by decide), if_pos rfl, if_pos (by simp), hseven]
  rfl

theorem Peer.commit_other (p : Peer) (line : List Char) (c : CStr) {kind : CStr} (words : List CStr)
    (hwrite : kind ≠ "write".toList) (hreplace : kind ≠ "replace".toList) :
    p.commit line (c :: kind :: words) = ({ p with pc := .closed }, some .negative) := by
  have hlen : (c :: kind :: words).length > 1 := by simp
  have hkind : (c :: kind :: words).getD 1 [] = kind := rfl
  rw [Peer.commit, if_pos hlen, hkind, if_neg hwrite, if_neg hreplace]

/-- Where a COMMIT goes on to its check, and where it is refused at once. -/
theorem commit_positive_iff {command : List CStr} (hw : ∀ w ∈ command, Unbroken w)
    (hcommit : tolwr (command.getD 0 []) = "commit".toList) :
    (∃ p' d, Peer.finish junk 4 ((p.commit junk.line command).1, (p.commit junk.line command).2, diskOf b.bytes) =
      some (p', some .positive, d)) ↔ Takes b command := by
  have hrefused : ∀ command, p.commit junk.line command = ({ p with pc := .closed }, some .negative) →
      ¬ ∃ p' d, Peer.finish junk 4 ((p.commit junk.line command).1, (p.commit junk.line command).2, diskOf b.bytes) =
        some (p', some .positive, d) := by
    intro command h
    rw [h]
    exact not_endsPositive_closed rfl (by decide) _
  rcases command with _ | ⟨c, _ | ⟨kind, words⟩⟩
  · exact iff_of_false (hrefused _ rfl) fun h => absurd h.two_le (by simp)
  · exact iff_of_false (hrefused _ rfl) fun h => absurd h.two_le (by simp)
  · rw [List.getD_cons_zero] at hcommit
    by_cases hwrite : kind = "write".toList
    · subst hwrite
      rw [takes_write_iff hcommit]
      rcases words with _ | ⟨nmbr, _ | ⟨w, ws⟩⟩
      · exact iff_of_false (hrefused _ rfl) (by simp)
      · exact iff_of_false (hrefused _ rfl) (by simp)
      · rw [p.commit_write]
        refine endsPositive_write.trans ?_
        simp
    · by_cases hreplace : kind = "replace".toList
      · subst hreplace
        rw [takes_replace_iff hcommit]
        cases words with
        | nil => exact iff_of_false (hrefused _ rfl) fun h => h.1 rfl
        | cons w ws =>
          have hwords : ∀ x ∈ w :: ws, Unbroken x :=
            fun x hx => hw x (List.mem_cons_of_mem _ (List.mem_cons_of_mem _ hx))
          have hrun := p.commit_replace junk.line c w ws
          rw [and_iff_right (List.cons_ne_nil w ws), ← @replTokens_found _ junk.line b hwords (by simp)]
          cases hmsg : replMessage (replTokens (w :: ws) 7 junk.line) with
          | none =>
            rw [hmsg] at hrun
            exact iff_of_false (hrefused _ hrun) fun h => h.1 rfl
          | some message =>
            rw [hmsg] at hrun
            rw [hrun]
            refine endsPositive_replace.trans ?_
            exact ⟨fun h => ⟨Option.some_ne_none _, h⟩, fun h => h.2⟩
      · refine iff_of_false (hrefused _ (p.commit_other _ c words hwrite hreplace)) fun h => ?_
        cases h.kind with
        | inl hkind => exact hwrite hkind
        | inr hkind => exact hreplace hkind

theorem commitsPositive_iff {line : CStr} (hline : Received line) :
    CommitsPositive b p junk line ↔ Takes b (commandOf line) := by
  have hw : ∀ w ∈ commandOf line, Unbroken w := fun w hw => (hline.words w hw).1
  constructor
  · rintro ⟨hcommit, p', d, hrun⟩
    rw [Peer.run, Peer.request_of_commit _ hcommit] at hrun
    exact (commit_positive_iff hw hcommit).1 ⟨p', d, hrun⟩
  · intro h
    have hcommit : tolwr ((commandOf line).getD 0 []) = "commit".toList := by
      rw [takes_iff] at h
      obtain ⟨c', n', w', ws', hc, -, heq⟩ | ⟨c', n', r', ws', hc, -, -, -, -, -, heq⟩ := h
      · rw [heq]
        exact hc
      · rw [heq]
        exact hc
    obtain ⟨p', d, hrun⟩ := (@commit_positive_iff b p junk _ hw hcommit).2 h
    refine ⟨hcommit, p', d, ?_⟩
    rw [Peer.run, Peer.request_of_commit _ hcommit]
    exact hrun

end

/-! The words of a text that is taken. -/

section
variable {b : Board} {text commit nmbr message t : CStr}

theorem commit_word (h : tolwr commit = "commit".toList) : ∀ c ∈ commit, isWordSep c = false := by
  intro c hc
  have hmem : c.toLower ∈ "commit".toList := by
    rw [← h]
    exact List.mem_map_of_mem hc
  cases hs : isWordSep c with
  | false => rfl
  | true =>
    have hcase : c = '=' ∨ c = ' ' := by simpa [isWordSep] using hs
    rcases hcase with rfl | rfl
    · exact absurd hmem (by decide)
    · exact absurd hmem (by decide)

theorem write_word : ∀ c ∈ "write".toList, isWordSep c = false := no_sep_of_all (by decide)

theorem replace_word : ∀ c ∈ "replace".toList, isWordSep c = false := no_sep_of_all (by decide)

theorem Word.starts {w : CStr} {c : Char} {rest text : CStr} (h : Word w c rest text)
    (hw : ∀ x ∈ w, isWordSep x = false) (hne : w = [] → isBlank c = false) : Starts text := by
  obtain ⟨k, rfl⟩ := h
  cases w with
  | nil => exact ⟨c, _, rfl, hne rfl⟩
  | cons x w => exact starts_append hw (by simp) _

theorem starts_number (hn : ∀ c ∈ nmbr, isWordSep c = false) (message : CStr) : Starts (nmbr ++ '/' :: message) := by
  cases nmbr with
  | nil => exact ⟨'/', message, rfl, rfl⟩
  | cons x w => exact starts_append hn (by simp) _

theorem writeTaken_iff : (∃ commit s₀ s₁ s₂ nmbr message, WriteTaken b commit s₀ s₁ s₂ nmbr message text) ↔
    ∃ commit nmbr w ws, wordsOf text = commit :: "write".toList :: nmbr :: w :: ws ∧
      tolwr commit = "commit".toList ∧ lineOf nmbr b.texts = none := by
  constructor
  · rintro ⟨commit, s₀, s₁, s₂, nmbr, message, h⟩
    obtain ⟨t₁, t₂, h₀, h₁, h₂⟩ := h.words
    have hs₁ : Starts t₁ := h₁.starts write_word fun hnil => absurd hnil (by decide)
    have hs₂ : Starts t₂ := h₂.starts h.nmbr_word fun hnil => by rw [h.nmbr_empty hnil]; rfl
    obtain ⟨w, ws, hw⟩ := List.exists_cons_of_ne_nil (wordsBehind_ne_nil h.message_text)
    refine ⟨commit, nmbr, w, ws, ?_, h.commit, h.absent⟩
    rw [h₀.wordsOf (commit_word h.commit) h.seps.1, hs₁.wordsBehind, h₁.wordsOf write_word h.seps.2.1, hs₂.wordsBehind,
      h₂.wordsOf h.nmbr_word h.seps.2.2, hw]
  · rintro ⟨commit, nmbr, w, ws, hwords, hcommit, habsent⟩
    obtain ⟨s₀, t₁, h₀, hs₀, -, -, hwords⟩ := word_of_wordsOf hwords
    obtain ⟨s₁, t₂, h₁, hs₁, -, hstarts, hwords⟩ := word_of_wordsOf hwords
    obtain ⟨s₂, message, h₂, hs₂, hnmbr, ⟨x, r, rfl, hx⟩, -⟩ := word_of_wordsOf hwords
    refine ⟨commit, s₀, s₁, s₂, nmbr, x :: r, ⟨t₁, t₂, h₀, h₁, h₂⟩, hcommit, ⟨hs₀, hs₁, hs₂⟩, hnmbr, ?_, habsent,
      ⟨x, by simp, hx⟩⟩
    rintro rfl
    obtain ⟨k, rfl⟩ := h₂
    obtain ⟨c, r', heq, hc⟩ := hstarts
    obtain ⟨rfl, -⟩ := List.cons.inj heq
    rw [isWordSep, Bool.or_eq_true] at hs₂
    rcases hs₂ with hs₂ | hs₂
    · simpa using hs₂
    · rw [isBlank] at hc
      rw [hs₂] at hc
      cases hc

/-- The first word of a text that goes on with the message, and the blanks before it. -/
theorem message_words (message : CStr) : ∃ v ws,
    (∀ p : CStr, (∀ x ∈ p, isWordSep x = false) → wordsOf (p ++ message) = (p ++ v) :: ws) ∧
      ((v ++ ' ' :: trailWords ws).takeWhile isBlank).length = lead message := by
  have hsolid : ∀ {x : Char} {v r : CStr}, isWordSep x = false →
      ((x :: v ++ r).takeWhile isBlank).length = 0 ∧ lead (x :: v) = 0 ∧ ∀ s, lead (x :: v ++ s) = 0 := by
    intro x v r hx
    have hblank : x ≠ ' ' := fun he => by rw [he] at hx; cases hx
    refine ⟨?_, ?_, fun s => ?_⟩
    · rw [List.cons_append, List.takeWhile_cons, isBlank_of_not_sep hx]
      rfl
    · simp [lead, hblank, hx]
    · simp [lead, hblank, hx]
  by_cases hsep : ∃ x ∈ message, isWordSep x = true
  · obtain ⟨v, c, m, rfl, hv, hc⟩ := Cut.exists_first hsep
    refine ⟨v, wordsBehind m, ?_, ?_⟩
    · intro p hp
      have hpv : ∀ x ∈ p ++ v, isWordSep x = false :=
        fun x hx => (List.mem_append.1 hx).elim (hp x) (hv x)
      rw [← List.append_assoc, BulletinBoard.wordsOf, Cut.cut_false_append hpv hc]
      rfl
    · cases v with
      | cons x v =>
        have hx := hv x (by simp)
        rw [(hsolid hx).1, (@hsolid x v [] hx).2.2]
      | nil =>
        have hlen : ((' ' :: trailWords (wordsBehind m)).takeWhile isBlank).length =
            ((trailWords (wordsBehind m)).takeWhile isBlank).length + 1 := rfl
        rw [List.nil_append, List.nil_append, hlen, takeWhile_trailWords]
        have hcase : c = '=' ∨ c = ' ' := by simpa [isWordSep] using hc
        rcases hcase with rfl | rfl
        · have htake : ('=' :: m).takeWhile isWordSep = '=' :: m.takeWhile isWordSep := rfl
          rw [lead, htake, List.count_cons_self]
          simp
        · have htake : (' ' :: m).takeWhile isWordSep = ' ' :: m.takeWhile isWordSep := rfl
          rw [lead, htake, List.count_cons_of_ne (by decide)]
          simp [Nat.add_comm]
  · have hno : ∀ x ∈ message, isWordSep x = false := fun x hx => by simpa using fun hs => hsep ⟨x, hx, hs⟩
    refine ⟨message, [], ?_, ?_⟩
    · intro p hp
      rw [BulletinBoard.wordsOf, Cut.cut_false_of_no_sep]
      exact fun x hx => (List.mem_append.1 hx).elim (hp x) (hno x)
    · cases message with
      | nil => rfl
      | cons x v =>
        have hx := hno x (by simp)
        rw [(hsolid hx).1, (@hsolid x v [] hx).2.1]

/-- The first word is the beginning of the text. -/
theorem prefix_of_wordsOf {w : CStr} {ws : List CStr} (h : wordsOf text = w :: ws) : ∃ u, text = w ++ u := by
  by_cases hsep : ∃ x ∈ text, isWordSep x = true
  · obtain ⟨v, c, m, rfl, hv, hc⟩ := Cut.exists_first hsep
    rw [BulletinBoard.wordsOf, Cut.cut_false_append hv hc] at h
    exact ⟨c :: m, by rw [(List.cons.inj h).1]⟩
  · have hno : ∀ x ∈ text, isWordSep x = false := fun x hx => by simpa using fun hs => hsep ⟨x, hx, hs⟩
    rw [BulletinBoard.wordsOf, Cut.cut_false_of_no_sep hno] at h
    exact ⟨[], by rw [(List.cons.inj h).1, List.append_nil]⟩

theorem replaceTaken_iff : (∃ commit s₀ s₁ nmbr message, ReplaceTaken b commit s₀ s₁ nmbr message text) ↔
    ∃ commit words nmbr rest, wordsOf text = commit :: "replace".toList :: words ∧ tolwr commit = "commit".toList ∧
      words ≠ [] ∧ trailWords words = nmbr ++ '/' :: rest ∧ (∀ c ∈ nmbr, isSlash c = false) ∧
      lineOf nmbr b.texts ≠ none ∧ nmbr.length + 1 + (rest.takeWhile isBlank).length < 7 := by
  have hslash : ∀ {nmbr : CStr}, (∀ c ∈ nmbr, isWordSep c = false) → ∀ x ∈ nmbr ++ ['/'], isWordSep x = false := by
    intro nmbr hn x hx
    rcases List.mem_append.1 hx with hx | hx
    · exact hn x hx
    · obtain rfl := List.mem_singleton.1 hx
      rfl
  have hsnoc : ∀ nmbr message : CStr, nmbr ++ '/' :: message = (nmbr ++ ['/']) ++ message := by simp
  constructor
  · rintro ⟨commit, s₀, s₁, nmbr, message, h⟩
    obtain ⟨t₁, h₀, h₁⟩ := h.words
    have hn : ∀ c ∈ nmbr, isWordSep c = false := fun c hc => (h.nmbr_word c hc).1
    have hs₁ : Starts t₁ := h₁.starts replace_word fun hnil => absurd hnil (by decide)
    obtain ⟨v, ws, hwords, hlead⟩ := message_words message
    have hintime := h.in_time
    refine ⟨commit, (nmbr ++ ['/'] ++ v) :: ws, nmbr, v ++ ' ' :: trailWords ws, ?_, h.commit, by simp, ?_,
      fun c hc => (h.nmbr_word c hc).2, h.present, by omega⟩
    · rw [h₀.wordsOf (commit_word h.commit) h.seps.1, hs₁.wordsBehind, h₁.wordsOf replace_word h.seps.2,
        (starts_number hn message).wordsBehind, hsnoc, hwords _ (hslash hn)]
    · rw [trailWords_cons]
      simp
  · rintro ⟨commit, words, nmbr, rest, hwords, hcommit, hne, htext, hn, hlive, hlt⟩
    obtain ⟨w, ws, rfl⟩ := List.exists_cons_of_ne_nil hne
    obtain ⟨s₀, t₁, h₀, hs₀, -, -, hwords⟩ := word_of_wordsOf hwords
    obtain ⟨s₁, t₂, h₁, hs₁, -, -, hwords⟩ := word_of_wordsOf hwords
    have hnw := (lineOf_word hlive).2
    -- the number has no blank, so that the slash is in the first word
    have hword : ∃ v, w = nmbr ++ '/' :: v ∧ rest = v ++ ' ' :: trailWords ws := by
      rw [trailWords_cons] at htext
      rcases List.append_eq_append_iff.1 htext with ⟨a, hna, ha⟩ | ⟨a, hwa, ha⟩
      · cases a with
        | nil => exact absurd (List.cons.inj ha).1 (by decide)
        | cons x a =>
          obtain ⟨rfl, -⟩ := List.cons.inj ha
          exact absurd (hnw ' ' (by rw [hna]; simp)) (by decide)
      · cases a with
        | nil => exact absurd (List.cons.inj ha).1 (by decide)
        | cons x a =>
          obtain ⟨rfl, hrest⟩ := List.cons.inj ha
          exact ⟨a, hwa, hrest⟩
    obtain ⟨v, rfl, rfl⟩ := hword
    obtain ⟨u, rfl⟩ := prefix_of_wordsOf hwords
    have hmessage : nmbr ++ '/' :: v ++ u = nmbr ++ '/' :: (v ++ u) := by simp
    rw [hmessage] at hwords h₁
    obtain ⟨v', ws', hwords', hlead⟩ := message_words (v ++ u)
    rw [hsnoc, hwords' _ (hslash hnw)] at hwords
    obtain ⟨hv, rfl⟩ := List.cons.inj hwords
    obtain rfl : v' = v := by simpa using hv
    exact ⟨commit, s₀, s₁, nmbr, v' ++ u, ⟨t₁, h₀, h₁⟩, hcommit, ⟨hs₀, hs₁⟩, fun c hc => ⟨hnw c hc, hn c hc⟩, hlive,
      by omega⟩

/-- What is answered `positive`, as a text. -/
theorem takes_wordsOf_iff : Takes b (wordsOf text) ↔
    (∃ commit s₀ s₁ s₂ nmbr message, WriteTaken b commit s₀ s₁ s₂ nmbr message text) ∨
      ∃ commit s₀ s₁ nmbr message, ReplaceTaken b commit s₀ s₁ nmbr message text := by
  rw [writeTaken_iff, replaceTaken_iff, takes_iff]
  constructor
  · rintro (⟨commit, nmbr, w, ws, hc, hl, h⟩ | ⟨commit, nmbr, rest, words, hc, hne, ht, hn, hl, hlt, h⟩)
    · exact .inl ⟨commit, nmbr, w, ws, h, hc, hl⟩
    · exact .inr ⟨commit, words, nmbr, rest, h, hc, hne, ht, hn, hl, hlt⟩
  · rintro (⟨commit, nmbr, w, ws, h, hc, hl⟩ | ⟨commit, words, nmbr, rest, h, hc, hne, ht, hn, hl, hlt⟩)
    · exact .inl ⟨commit, nmbr, w, ws, hc, hl, h⟩
    · exact .inr ⟨commit, nmbr, rest, words, hc, hne, ht, hn, hl, hlt, h⟩

end

/-! Forms and what is taken, side by side. -/

/-- The peer takes the text for a COMMIT. -/
def Taken (b : Board) (text : CStr) : Prop :=
  (∃ commit s₀ s₁ s₂ nmbr message, WriteTaken b commit s₀ s₁ s₂ nmbr message text) ∨
    ∃ commit s₀ s₁ nmbr message, ReplaceTaken b commit s₀ s₁ nmbr message text

section
variable {b : Board} {text commit nmbr nmbr' message message' kind kind' t₁ t₁' u u' : CStr} {upper : Bool} {s₀ s₁ s₂ : Char}

theorem spelled_commit (upper : Bool) : ∀ c ∈ spelled upper "commit".toList, isWordSep c = false := by
  cases upper
  · exact no_sep_of_all (by decide)
  · exact no_sep_of_all (by decide)

theorem spelled_write (upper : Bool) : ∀ c ∈ spelled upper "write".toList, isWordSep c = false := by
  cases upper
  · exact write_word
  · exact no_sep_of_all (by decide)

theorem spelled_replace (upper : Bool) : ∀ c ∈ spelled upper "replace".toList, isWordSep c = false := by
  cases upper
  · exact replace_word
  · exact no_sep_of_all (by decide)

theorem IsNumeral.word (h : IsNumeral nmbr) : ∀ c ∈ nmbr, isWordSep c = false ∧ isSlash c = false :=
  fun c hc => ⟨digit_no_sep (h.2 c hc), digit_no_slash (h.2 c hc)⟩

/-- Two readings of a text by its first two words. -/
theorem two_words_unique {c₀ c₁ c₀' c₁' : Char} {w₀ w₀' : CStr}
    (h : Word w₀ c₀ t₁ text ∧ Word kind c₁ u t₁) (h' : Word w₀' c₀' t₁' text ∧ Word kind' c₁' u' t₁')
    (hw : (∀ x ∈ w₀, isWordSep x = false) ∧ ∀ x ∈ kind, isWordSep x = false)
    (hw' : (∀ x ∈ w₀', isWordSep x = false) ∧ ∀ x ∈ kind', isWordSep x = false) (hk : kind ≠ []) (hk' : kind' ≠ [])
    (hc : isWordSep c₀ = true ∧ isWordSep c₁ = true) (hc' : isWordSep c₀' = true ∧ isWordSep c₁' = true) :
    w₀ = w₀' ∧ kind = kind' ∧ c₀ = c₀' ∧ c₁ = c₁' ∧ (Starts u → Starts u' → u = u') := by
  obtain ⟨rfl, rfl, ht⟩ := word_unique h.1 h'.1 hw.1 hw'.1 hc.1 hc'.1
  obtain rfl := ht (h.2.starts hw.2 fun hnil => absurd hnil hk) (h'.2.starts hw'.2 fun hnil => absurd hnil hk')
  obtain ⟨rfl, rfl, hu⟩ := word_unique h.2 h'.2 hw.2 hw'.2 hc.2 hc'.2
  exact ⟨rfl, rfl, rfl, rfl, hu⟩

theorem slash_unique (hn : ∀ c ∈ nmbr, isSlash c = false) (hn' : ∀ c ∈ nmbr', isSlash c = false)
    (h : nmbr ++ '/' :: message = nmbr' ++ '/' :: message') : nmbr = nmbr' ∧ message = message' := by
  have hfirst : ∀ {n m : CStr}, (∀ c ∈ n, isSlash c = false) → (n ++ '/' :: m).takeWhile (fun c => !isSlash c) = n := by
    intro n m hn
    rw [List.takeWhile_append_of_pos fun c hc => by simp [hn c hc]]
    simp [isSlash]
  have hnn : nmbr = nmbr' := by rw [← @hfirst nmbr message hn, h, hfirst hn']
  subst hnn
  exact ⟨rfl, (List.cons.inj (List.append_cancel_left h)).2⟩

/-- A form and what is taken have the same words, so that a form in upper case is not taken. -/
theorem WriteForm.write_taken (h : WriteForm b upper nmbr message text)
    (h' : WriteTaken b commit s₀ s₁ s₂ nmbr' message' text) :
    upper = false ∧ commit = "commit".toList ∧ s₀ = ' ' ∧ s₁ = ' ' ∧ s₂ = ' ' ∧ nmbr = nmbr' := by
  obtain ⟨t₁, t₂, h₀, h₁, h₂⟩ := h.words
  obtain ⟨t₁', t₂', h₀', h₁', h₂'⟩ := h'.words
  have hn : ∀ c ∈ nmbr, isWordSep c = false := fun c hc => (h.numeral.word c hc).1
  have hkind : spelled upper "write".toList ≠ [] := by cases upper <;> decide
  obtain ⟨hcommit, hwrite, rfl, rfl, ht⟩ := two_words_unique ⟨h₀, h₁⟩ ⟨h₀', h₁'⟩ ⟨spelled_commit upper, spelled_write upper⟩
    ⟨commit_word h'.commit, write_word⟩ hkind (by decide) (by decide) ⟨h'.seps.1, h'.seps.2.1⟩
  obtain rfl := ht (h₂.starts hn fun hnil => absurd hnil h.numeral.1)
    (h₂'.starts h'.nmbr_word fun hnil => by rw [h'.nmbr_empty hnil]; rfl)
  obtain ⟨rfl, rfl, -⟩ := word_unique h₂ h₂' hn h'.nmbr_word (by decide) h'.seps.2.2
  cases upper with
  | true => exact absurd hwrite (by decide)
  | false => exact ⟨rfl, hcommit.symm, rfl, rfl, rfl, rfl⟩

theorem ReplaceForm.replace_taken (h : ReplaceForm b upper nmbr message text)
    (h' : ReplaceTaken b commit s₀ s₁ nmbr' message' text) :
    upper = false ∧ commit = "commit".toList ∧ s₀ = ' ' ∧ s₁ = ' ' ∧ nmbr = nmbr' ∧ message = message' := by
  obtain ⟨t₁, h₀, h₁⟩ := h.words
  obtain ⟨t₁', h₀', h₁'⟩ := h'.words
  have hkind : spelled upper "replace".toList ≠ [] := by cases upper <;> decide
  obtain ⟨hcommit, hreplace, rfl, rfl, ht⟩ := two_words_unique ⟨h₀, h₁⟩ ⟨h₀', h₁'⟩
    ⟨spelled_commit upper, spelled_replace upper⟩ ⟨commit_word h'.commit, replace_word⟩ hkind (by decide) (by decide) h'.seps
  have hsame := ht (starts_number (fun c hc => (h.numeral.word c hc).1) message)
    (starts_number (fun c hc => (h'.nmbr_word c hc).1) message')
  obtain ⟨rfl, rfl⟩ := slash_unique (fun c hc => (h.numeral.word c hc).2) (fun c hc => (h'.nmbr_word c hc).2) hsame
  cases upper with
  | true => exact absurd hreplace (by decide)
  | false => exact ⟨rfl, hcommit.symm, rfl, rfl, rfl, rfl⟩

theorem WriteForm.not_replace_taken (h : WriteForm b upper nmbr message text)
    (h' : ReplaceTaken b commit s₀ s₁ nmbr' message' text) : False := by
  obtain ⟨t₁, t₂, h₀, h₁, -⟩ := h.words
  obtain ⟨t₁', h₀', h₁'⟩ := h'.words
  have hkind : spelled upper "write".toList ≠ [] := by cases upper <;> decide
  obtain ⟨-, hwords, -⟩ := two_words_unique ⟨h₀, h₁⟩ ⟨h₀', h₁'⟩ ⟨spelled_commit upper, spelled_write upper⟩
    ⟨commit_word h'.commit, replace_word⟩ hkind (by decide) (by decide) h'.seps
  cases upper
  · exact absurd hwords (by decide)
  · exact absurd hwords (by decide)

theorem ReplaceForm.not_write_taken (h : ReplaceForm b upper nmbr message text)
    (h' : WriteTaken b commit s₀ s₁ s₂ nmbr' message' text) : False := by
  obtain ⟨t₁, h₀, h₁⟩ := h.words
  obtain ⟨t₁', t₂', h₀', h₁', -⟩ := h'.words
  have hkind : spelled upper "replace".toList ≠ [] := by cases upper <;> decide
  obtain ⟨-, hwords, -⟩ := two_words_unique ⟨h₀, h₁⟩ ⟨h₀', h₁'⟩ ⟨spelled_commit upper, spelled_replace upper⟩
    ⟨commit_word h'.commit, write_word⟩ hkind (by decide) (by decide) ⟨h'.seps.1, h'.seps.2.1⟩
  cases upper
  · exact absurd hwords (by decide)
  · exact absurd hwords (by decide)

theorem sep_cases {c : Char} (h : isWordSep c = true) (hne : c ≠ '=') : c = ' ' := by
  rw [isWordSep, Bool.or_eq_true, beq_iff_eq, beq_iff_eq] at h
  exact h.resolve_left hne

/-- A form is refused where its keywords are in upper case or its number is too long. -/
theorem documented_cases (h : Documented b text) : Taken b text ∨ Refused b text := by
  obtain ⟨upper, nmbr, message, h⟩ := h
  cases upper with
  | true => exact .inr ⟨nmbr, message, h.imp_right .inl⟩
  | false =>
    rcases h with h | h
    · refine .inl (.inl ⟨_, ' ', ' ', ' ', nmbr, message, h.words, by decide, by decide,
        fun c hc => (h.numeral.word c hc).1, fun hnil => absurd hnil h.numeral.1, ?_, h.message_text⟩)
      exact lineOf_texts_none h.numeral h.free
    · by_cases hlt : nmbr.length + lead message < 6
      · refine .inl (.inr ⟨_, ' ', ' ', nmbr, message, h.words, by decide, by decide, h.numeral.word, ?_, hlt⟩)
        have hone := Board.copies_eq_one h.live
        exact fun hnone => absurd (copies_eq_zero.2 hnone) (by omega)
      · exact .inr ⟨nmbr, message, .inr (.inr ⟨h, by omega⟩)⟩

theorem refused_not_taken (h : Refused b text) : ¬ Taken b text := by
  obtain ⟨nmbr, message, h⟩ := h
  rintro (⟨commit, s₀, s₁, s₂, nmbr', message', h'⟩ | ⟨commit, s₀, s₁, nmbr', message', h'⟩)
  · rcases h with h | h | ⟨h, -⟩
    · exact absurd (h.write_taken h').1 (by decide)
    · exact h.not_write_taken h'
    · exact h.not_write_taken h'
  · rcases h with h | h | ⟨h, hlong⟩
    · exact h.not_replace_taken h'
    · exact absurd (h.replace_taken h').1 (by decide)
    · obtain ⟨-, -, -, -, rfl, rfl⟩ := h.replace_taken h'
      have hlt := h'.in_time
      omega

theorem refused_documented (h : Refused b text) : Documented b text := by
  obtain ⟨nmbr, message, h | h | ⟨h, -⟩⟩ := h
  · exact ⟨true, nmbr, message, .inl h⟩
  · exact ⟨true, nmbr, message, .inr h⟩
  · exact ⟨false, nmbr, message, .inr h⟩

/-- What is taken has a form, but for the first keyword, the separators, the number and the message. -/
theorem taken_cases (h : Taken b text) : Documented b text ∨ Tolerated b text := by
  rcases h with ⟨commit, s₀, s₁, s₂, nmbr, message, h⟩ | ⟨commit, s₀, s₁, nmbr, message, h⟩
  · by_cases hflaw : commit ≠ "commit".toList ∨ s₀ = '=' ∨ s₁ = '=' ∨ s₂ = '=' ∨ ¬ IsNumeral nmbr
    · exact .inr (.inl ⟨_, _, _, _, _, _, h, hflaw⟩)
    · simp only [not_or, not_not] at hflaw
      obtain ⟨rfl, h₀, h₁, h₂, hn⟩ := hflaw
      obtain rfl := sep_cases h.seps.1 h₀
      obtain rfl := sep_cases h.seps.2.1 h₁
      obtain rfl := sep_cases h.seps.2.2 h₂
      refine .inl ⟨false, nmbr, message, .inl ⟨h.words, hn, ?_, h.message_text⟩⟩
      intro hlive
      have hone := Board.copies_eq_one hlive
      rw [copies_eq_zero.2 h.absent] at hone
      omega
  · by_cases hflaw : commit ≠ "commit".toList ∨ s₀ = '=' ∨ s₁ = '=' ∨ ¬ IsNumeral nmbr ∨ ∀ c ∈ message, isBlank c = true
    · exact .inr (.inr ⟨_, _, _, _, _, h, hflaw⟩)
    · simp only [not_or, not_not] at hflaw
      obtain ⟨rfl, h₀, h₁, hn, hm⟩ := hflaw
      obtain rfl := sep_cases h.seps.1 h₀
      obtain rfl := sep_cases h.seps.2 h₁
      refine .inl ⟨false, nmbr, message, .inr ⟨h.words, hn, ?_, ?_⟩⟩
      · by_contra hfree
        exact h.present (lineOf_texts_none hn hfree)
      · by_contra hblank
        exact hm fun c hc => by simpa using fun hb => hblank ⟨c, hc, hb⟩

theorem tolerated_taken (h : Tolerated b text) : Taken b text := by
  rcases h with ⟨commit, s₀, s₁, s₂, nmbr, message, h, -⟩ | ⟨commit, s₀, s₁, nmbr, message, h, -⟩
  · exact .inl ⟨_, _, _, _, _, _, h⟩
  · exact .inr ⟨_, _, _, _, _, h⟩

theorem tolerated_not_documented (h : Tolerated b text) : ¬ Documented b text := by
  rintro ⟨upper, nmbr', message', h'⟩
  rcases h with ⟨commit, s₀, s₁, s₂, nmbr, message, h, hflaw⟩ | ⟨commit, s₀, s₁, nmbr, message, h, hflaw⟩
  · rcases h' with h' | h'
    · obtain ⟨-, rfl, rfl, rfl, rfl, rfl⟩ := h'.write_taken h
      rcases hflaw with hflaw | hflaw | hflaw | hflaw | hflaw
      · exact hflaw rfl
      · exact absurd hflaw (by decide)
      · exact absurd hflaw (by decide)
      · exact absurd hflaw (by decide)
      · exact hflaw h'.numeral
    · exact h'.not_write_taken h
  · rcases h' with h' | h'
    · exact h'.not_replace_taken h
    · obtain ⟨-, rfl, rfl, rfl, rfl, rfl⟩ := h'.replace_taken h
      rcases hflaw with hflaw | hflaw | hflaw | hflaw | hflaw
      · exact hflaw rfl
      · exact absurd hflaw (by decide)
      · exact absurd hflaw (by decide)
      · exact hflaw h'.numeral
      · obtain ⟨c, hc, hb⟩ := h'.message_text
        rw [hflaw c hc] at hb
        cases hb

end

/-- **The COMMIT messages of a peer**: the answer is `positive` exactly for the documented lines, where
    the line is neither one of these that is refused nor one of others that are taken. -/
theorem commit_form_iff {line : CStr} (hline : Received line) (b : Board) (p : Peer) (junk : Junk) :
    (CommitsPositive b p junk line ↔ Documented b line.dropLast) ↔
      ¬ Refused b line.dropLast ∧ ¬ Tolerated b line.dropLast := by
  have htaken : CommitsPositive b p junk line ↔ Taken b line.dropLast := by
    rw [commitsPositive_iff hline, commandOf_eq hline.no_nul, takes_wordsOf_iff]
    rfl
  rw [htaken]
  constructor
  · intro h
    exact ⟨fun hr => refused_not_taken hr (h.2 (refused_documented hr)),
      fun ht => tolerated_not_documented ht (h.1 (tolerated_taken ht))⟩
  · rintro ⟨hr, ht⟩
    exact ⟨fun h => (taken_cases h).resolve_right ht, fun h => (documented_cases h).resolve_right hr⟩

/-- `COMMIT WRITE 2 m`, with the carriage return that `readline` leaves. -/
def upperCommit : CStr := "COMMIT WRITE 2 m\r".toList

theorem upperCommit_form : WriteForm oneLine true ['2'] ['m'] upperCommit.dropLast where
  words := ⟨"WRITE 2 m".toList, "2 m".toList, ⟨0, by decide⟩, ⟨0, by decide⟩, ⟨0, by decide⟩⟩
  numeral := by decide
  free := by decide
  message_text := ⟨'m', by simp, rfl⟩

theorem commit_form_upper : ¬ (CommitsPositive oneLine ⟨.ready, [], [], [], [], []⟩ ⟨[], []⟩ upperCommit ↔
    Documented oneLine upperCommit.dropLast) := by
  have hline : Received upperCommit := ⟨⟨by decide, by decide⟩, by decide⟩
  exact fun h => ((commit_form_iff hline _ _ _).1 h).1 ⟨_, _, .inl upperCommit_form⟩

/-- It is documented, and refused. -/
theorem upperCommit_refused : Documented oneLine upperCommit.dropLast ∧
    ¬ CommitsPositive oneLine ⟨.ready, [], [], [], [], []⟩ ⟨[], []⟩ upperCommit := by
  have hrun : Peer.run ⟨[], []⟩ upperCommit ⟨.ready, [], [], [], [], []⟩ (diskOf oneLine.bytes) =
      some (⟨.closed, [], [], [], [], []⟩, some .negative, diskOf oneLine.bytes) := by decide +kernel
  refine ⟨⟨true, _, _, .inl upperCommit_form⟩, ?_⟩
  rintro ⟨-, p', d, h⟩
  rw [hrun] at h
  simp at h

end BulletinBoard
