import BulletinBoard.ConfigLines

/- Configuration files in which the lines are read as they stand: every number key has its value
   behind it, what is cut off a long line sets nothing, and the loop does not stop in front of the BBFILE
   that counts. There the command line, the file and main's values come in that order. Where besides
   no line is cut and no key stands on two lines, a SIGHUP is a fresh start. -/
namespace BulletinBoard

/-- The switch for a setting. -/
def Key.arg : Key → Switch → Option CStr
  | .THMAX => Switch.tArg
  | .BBPORT => Switch.pArg
  | .SYNCPORT => Switch.sArg
  | .BBFILE => Switch.bArg
  | _ => fun _ => none

def Key.IsNumber (k : Key) : Prop := k = .THMAX ∨ k = .BBPORT ∨ k = .SYNCPORT

/-- The key has its value behind it; BBFILE and PEERS may stand alone. -/
def OwnValue (line : CStr) : Prop :=
  ∀ k, lineKey line = some k → k ≠ .BBFILE → k ≠ .PEERS → 1 < (lineWords line).length

instance (line : CStr) : Decidable (OwnValue line) :=
  decidable_of_iff (∀ k ∈ lineKey line, k ≠ .BBFILE → k ≠ .PEERS → 1 < (lineWords line).length) Iff.rfl

/-- The line is read in one piece, or no part of it begins with a key. -/
def ReadWhole (line : CStr) : Prop := line.length < 512 ∨ ∀ part ∈ line :: cutsOf line, lineKey part = none

/-- The lines in front of the first one that has a word for BBFILE. -/
def beforeBbfile (lines : List CStr) : List CStr := lines.takeWhile fun line => (lineBbfile line).isNone

/-- All that the loop of `fetch_config` waits for: a number for each number key, PEERS with words and PEERS
    without, BBFILE, DAEMON and DEBUG. -/
structure Complete (lines : List CStr) : Prop where
  numbers : ∀ k : Key, k.IsNumber → ∃ line ∈ lines, lineNumber k line ≠ none
  peers : ∃ line ∈ lines, linePeers line ≠ none
  peers_alone : ∃ line ∈ lines, lineKey line = some .PEERS ∧ linePeers line = none
  others : ∀ k : Key, k = .BBFILE ∨ k = .DAEMON ∨ k = .DEBUG → ∃ line ∈ lines, lineKey line = some k

/-- The lines set what they say. For a setting whose switch is given there is nothing to ask. -/
structure LinesFit (switches : List Switch) (argv : List CStr) (lines : List CStr) : Prop where
  whole : ∀ line ∈ lines, ReadWhole line
  value : ∀ line ∈ lines, OwnValue line
  number : ∀ k : Key, k.IsNumber → lastArg k.arg switches = none →
    ∀ v, lines.findSome? (lineNumber k) = some v → v ≤ INT_MAX
  bbfile : lastArg Key.BBFILE.arg switches = none →
    ∀ line ∈ beforeBbfile lines, lineKey line = some .BBFILE → (lineWords line).length ≤ 1
  complete : lastArg Key.BBFILE.arg switches = none → ¬ Complete (beforeBbfile lines)
  peers : argv = [] → ∀ words, lines.findSome? linePeers = some words → ∀ word ∈ words, Storable word

/-! What a line offers. -/

section
variable {line : CStr} {lines : List CStr} {p : Piece} {ps : List Piece} {k : Key}

theorem PieceOf.number (h : PieceOf line p) (hown : OwnValue line) (hk : k.IsNumber) :
    p.number k = lineNumber k line := by
  have hne : k ≠ .BBFILE ∧ k ≠ .PEERS := by
    rcases hk with rfl | rfl | rfl <;> decide
  rcases lineWords_cases line with ⟨word, hwords⟩ | ⟨word, value, words, hwords⟩
  · rw [(line_short hwords).1, Piece.number, if_neg]
    intro hkey
    have hlen := hown k (h.key ▸ hkey) hne.1 hne.2
    rw [hwords] at hlen
    exact absurd hlen (Nat.lt_irrefl 1)
  · have hlen : 1 < (lineWords line).length := by
      rw [hwords, List.length_cons, List.length_cons]
      omega
    have hvalue : p.value = some (strtol value) := by
      rw [h.value hlen, hwords]
      rfl
    have hkey : p.key = keyOf word := by
      rw [h.key, lineKey, hwords]
      rfl
    rw [lineNumber_eq hwords]
    by_cases hword : word = k.name
    · rw [hword, keyOf_name] at hkey
      rw [number_eq hkey hvalue]
      simp only [hword, true_and]
    · have hne : p.key ≠ some k := by
        intro hc
        exact hword (name_of_keyOf (hkey.symm.trans hc))
      rw [Piece.number, if_neg hne, if_neg fun hc => hword hc.1]

/-- A line with a word for BBFILE is a piece with that word. -/
theorem PieceOf.bbfile (h : PieceOf line p) (hsome : lineBbfile line ≠ none) : p.bbfile = lineBbfile line := by
  rcases lineWords_cases line with ⟨word, hwords⟩ | ⟨word, value, words, hwords⟩
  · exact absurd (@line_short line .BBFILE word hwords).2 hsome
  · rw [lineBbfile_eq hwords] at hsome ⊢
    have hword : word = Key.BBFILE.name ∧ value ≠ [] := by
      by_contra hc
      exact hsome (if_neg hc)
    have hkey : p.key = some .BBFILE := by
      rw [h.key, lineKey, hwords, ← keyOf_name .BBFILE, ← hword.1]
      rfl
    have hlen : 1 < p.words.length := by
      rw [h.words, hwords, List.length_cons, List.length_cons]
      omega
    rw [Piece.bbfile, if_pos ⟨hkey, hlen⟩, if_pos hword, h.words, hwords]
    rfl

theorem PieceOf.no_bbfile (h : PieceOf line p) (hline : lineKey line = some .BBFILE → (lineWords line).length ≤ 1) :
    p.bbfile = none := by
  rw [Piece.bbfile, h.key, h.words]
  exact if_neg fun hc => absurd hc.2 (Nat.not_lt.2 (hline hc.1))

theorem PieceOf.linePeers (h : PieceOf line p) : p.peers = linePeers line := by
  rw [Piece.peers, BulletinBoard.linePeers, h.key, h.words]

theorem lineNumber_key {v : Int} (h : lineNumber k line = some v) : lineKey line = some k := by
  rcases lineWords_cases line with ⟨word, hwords⟩ | ⟨word, value, words, hwords⟩
  · rw [(@line_short line k word hwords).1] at h
    cases h
  · rw [lineNumber_eq hwords, Option.ite_none_right_eq_some] at h
    rw [lineKey, hwords, ← keyOf_name k, ← h.1.1]
    rfl

theorem lineNumber_pos {v : Int} (h : lineNumber k line = some v) : 0 < v := by
  rcases lineWords_cases line with ⟨word, hwords⟩ | ⟨word, value, words, hwords⟩
  · rw [(@line_short line k word hwords).1] at h
    cases h
  · rw [lineNumber_eq hwords, Option.ite_none_right_eq_some] at h
    obtain ⟨⟨-, hpos⟩, hv⟩ := h
    obtain rfl := Option.some.inj hv
    exact hpos

theorem lineBbfile_key (h : lineBbfile line ≠ none) : lineKey line = some .BBFILE := by
  rcases lineWords_cases line with ⟨word, hwords⟩ | ⟨word, value, words, hwords⟩
  · exact absurd (@line_short line .BBFILE word hwords).2 h
  · rw [lineBbfile_eq hwords] at h
    have hword : word = Key.BBFILE.name ∧ value ≠ [] := by
      by_contra hc
      exact h (if_neg hc)
    rw [lineKey, hwords, ← keyOf_name .BBFILE, ← hword.1]
    rfl

/-! What is cut off a line offers nothing. -/

/-- What only a key's line offers is offered by the lines as they are cut. -/
theorem findSome_cuts {α : Type} {given : CStr → Option α} (hkey : ∀ line, lineKey line = none → given line = none)
    (h : ∀ line ∈ lines, ReadWhole line) : (lines.flatMap cutsOf).findSome? given = lines.findSome? given := by
  induction lines with
  | nil => rfl
  | cons line lines ih =>
    rw [List.flatMap_cons, List.findSome?_append, List.findSome?_cons, ih fun l hl => h l (List.mem_cons_of_mem _ hl)]
    rcases h line List.mem_cons_self with hshort | hnone
    · rw [cutsOf_short hshort, List.findSome?_singleton]
      cases given line <;> rfl
    · have hcuts : (cutsOf line).findSome? given = none :=
        List.findSome?_eq_none_iff.2 fun part hp => hkey part (hnone part (List.mem_cons_of_mem _ hp))
      rw [hcuts, hkey line (hnone line List.mem_cons_self)]
      rfl

/-- A part with a key is a line of the file. -/
theorem mem_cuts {part : CStr} (h : ∀ line ∈ lines, ReadWhole line) (hpart : part ∈ lines.flatMap cutsOf)
    (hkey : lineKey part ≠ none) : part ∈ lines := by
  obtain ⟨line, hl, hcut⟩ := List.mem_flatMap.1 hpart
  rcases h line hl with hshort | hnone
  · rw [cutsOf_short hshort] at hcut
    rwa [List.mem_singleton.1 hcut]
  · exact absurd (hnone part (List.mem_cons_of_mem _ hcut)) hkey

theorem mem_beforeBbfile_cuts {part : CStr} (h : ∀ line ∈ lines, ReadWhole line)
    (hpart : part ∈ beforeBbfile (lines.flatMap cutsOf)) (hkey : lineKey part ≠ none) : part ∈ beforeBbfile lines := by
  induction lines with
  | nil => cases hpart
  | cons line lines ih =>
    have hrest := ih fun l hl => h l (List.mem_cons_of_mem _ hl)
    rw [beforeBbfile, List.flatMap_cons] at hpart
    rw [beforeBbfile, List.takeWhile_cons]
    rcases h line List.mem_cons_self with hshort | hnone
    · rw [cutsOf_short hshort, List.singleton_append, List.takeWhile_cons] at hpart
      split at hpart
      · next hline =>
        rw [if_pos hline]
        rcases List.mem_cons.1 hpart with rfl | hpart
        · exact List.mem_cons_self
        · exact List.mem_cons_of_mem _ (hrest hpart)
      · cases hpart
    · have hquiet : ∀ l ∈ line :: cutsOf line, (lineBbfile l).isNone = true := by
        intro l hl
        rw [Option.isNone_iff_eq_none]
        by_contra hc
        exact Option.some_ne_none _ ((lineBbfile_key hc).symm.trans (hnone l hl))
      rw [List.takeWhile_append_of_pos fun l hl => hquiet l (List.mem_cons_of_mem _ hl)] at hpart
      rw [if_pos (hquiet line List.mem_cons_self)]
      rcases List.mem_append.1 hpart with hpart | hpart
      · exact absurd (hnone part (List.mem_cons_of_mem _ hpart)) hkey
      · exact List.mem_cons_of_mem _ (hrest hpart)

/-! Where the loop stops. -/

/-- What completes the flags stands on the lines. -/
theorem PiecesOf.complete {front : List CStr} (h : PiecesOf front ps) (hown : ∀ line ∈ front, OwnValue line)
    (hsub : ∀ line ∈ front, lineKey line ≠ none → line ∈ lines)
    (hall : (ps.foldl Inds.after Inds.clear).all = true) : Complete lines := by
  obtain ⟨htmax, hbp, hsp, hpc, hdebug, hdetach, hbb, hpeers⟩ := Inds.all_eq_true hall
  -- a flag was set by a piece, and the piece is that of a line with the key
  have hline : ∀ {flag : Inds → Bool} {sets : Piece → Prop} {states : CStr → Prop}, flag Inds.clear = false →
      (∀ ind p, ¬ sets p → flag (ind.after p) = flag ind) → flag (ps.foldl Inds.after Inds.clear) = true →
        (∀ line p, PieceOf line p → OwnValue line → sets p → lineKey line ≠ none ∧ states line) →
          ∃ line ∈ lines, states line := by
    intro flag sets states hclear hafter hflag hstates
    obtain ⟨p, hp, hsets⟩ := flag_of_foldl hafter hclear hflag
    obtain ⟨line, hl, hof⟩ := h.mem hp
    obtain ⟨hkey, hsaid⟩ := hstates line p hof (hown line hl) hsets
    exact ⟨line, hsub line hl hkey, hsaid⟩
  have hnumber : ∀ k : Key, k.IsNumber → ∀ line p, PieceOf line p → OwnValue line → p.number k ≠ none →
      lineKey line ≠ none ∧ lineNumber k line ≠ none := by
    intro k hk line p hof hv hset
    rw [hof.number hv hk] at hset
    obtain ⟨v, hv⟩ := Option.ne_none_iff_exists'.1 hset
    exact ⟨by rw [lineNumber_key hv]; exact Option.some_ne_none k, hset⟩
  have hkeyed : ∀ k : Key, ∀ line p, PieceOf line p → OwnValue line → p.key = some k →
      lineKey line ≠ none ∧ lineKey line = some k := by
    intro k line p hof _ hkey
    rw [hof.key] at hkey
    exact ⟨by rw [hkey]; exact Option.some_ne_none k, hkey⟩
  constructor
  · intro k hk
    rcases hk with rfl | rfl | rfl
    · exact hline rfl (fun ind p hp => (after_flags ind p).1 (not_not.1 hp)) htmax (hnumber _ (Or.inl rfl))
    · exact hline rfl (fun ind p hp => (after_flags ind p).2.1 (not_not.1 hp)) hbp (hnumber _ (Or.inr (Or.inl rfl)))
    · exact hline rfl (fun ind p hp => (after_flags ind p).2.2.1 (not_not.1 hp)) hsp (hnumber _ (Or.inr (Or.inr rfl)))
  · refine hline rfl (fun ind p hp => (after_flags ind p).2.2.2.1 (not_not.1 hp)) hpc fun line p hof _ hset => ?_
    rw [hof.linePeers] at hset
    refine ⟨fun hkey => hset ?_, hset⟩
    rw [linePeers, hkey]
    exact if_neg fun hc => by cases hc.1
  · refine hline rfl (fun ind p => (after_flags ind p).2.2.2.2.2.2.2) hpeers fun line p hof hv hset => ?_
    rw [hof.linePeers] at hset
    exact ⟨(hkeyed .PEERS line p hof hv hset.1).1, (hkeyed .PEERS line p hof hv hset.1).2, hset.2⟩
  · intro k hk
    rcases hk with rfl | rfl | rfl
    · exact hline rfl (fun ind p => (after_flags ind p).2.2.2.2.2.2.1) hbb (hkeyed _)
    · exact hline rfl (fun ind p => (after_flags ind p).2.2.2.2.2.1) hdetach (hkeyed _)
    · exact hline rfl (fun ind p => (after_flags ind p).2.2.2.2.1) hdebug (hkeyed _)

theorem Complete.mono {front : List CStr} (h : Complete front)
    (hsub : ∀ line ∈ front, lineKey line ≠ none → line ∈ lines) : Complete lines := by
  have hkeyed : ∀ {line : CStr} {k : Key}, lineKey line = some k → lineKey line ≠ none := by
    intro line k hk
    rw [hk]
    exact Option.some_ne_none k
  constructor
  · intro k hk
    obtain ⟨line, hl, hset⟩ := h.numbers k hk
    obtain ⟨v, hv⟩ := Option.ne_none_iff_exists'.1 hset
    exact ⟨line, hsub line hl (hkeyed (lineNumber_key hv)), hset⟩
  · obtain ⟨line, hl, hset⟩ := h.peers
    refine ⟨line, hsub line hl fun hkey => hset ?_, hset⟩
    rw [linePeers, hkey]
    exact if_neg fun hc => by cases hc.1
  · obtain ⟨line, hl, hkey, hset⟩ := h.peers_alone
    exact ⟨line, hsub line hl (hkeyed hkey), hkey, hset⟩
  · intro k hk
    obtain ⟨line, hl, hkey⟩ := h.others k hk
    exact ⟨line, hsub line hl (hkeyed hkey), hkey⟩

end

/-! The settings. -/

section
variable {switches : List Switch} {argv : List CStr} {file : Option (List Char)} {lines first last : List CStr} {k : Key}

/-- The lines as they are cut have their own values too. -/
theorem LinesFit.own (h : LinesFit switches argv lines) : ∀ part ∈ lines.flatMap cutsOf, OwnValue part := by
  intro part hp k hk
  have hmem : part ∈ lines := mem_cuts h.whole hp (by rw [hk]; exact Option.some_ne_none k)
  exact h.value part hmem k hk

theorem lineNumber_keyless (line : CStr) (h : lineKey line = none) : lineNumber k line = none := by
  by_contra hc
  obtain ⟨v, hv⟩ := Option.ne_none_iff_exists'.1 hc
  exact Option.some_ne_none k ((lineNumber_key hv).symm.trans h)

theorem lineBbfile_keyless (line : CStr) (h : lineKey line = none) : lineBbfile line = none := by
  by_contra hc
  exact Option.some_ne_none Key.BBFILE ((lineBbfile_key hc).symm.trans h)

theorem linePeers_keyless (line : CStr) (h : lineKey line = none) : linePeers line = none := by
  rw [linePeers, h]
  exact if_neg fun hc => by cases hc.1

/-- The pieces give the number of the first line. -/
theorem LinesFit.pieceNumber (h : LinesFit switches argv (confLines file)) (hk : k.IsNumber)
    (hswitch : lastArg k.arg switches = none) (main : Int) :
    pieceNumber k main (piecesOf file) = ((confLines file).findSome? (lineNumber k)).getD main := by
  have hpieces := piecesOf_cuts file
  have hfirst : (piecesOf file).findSome? (Piece.number k) = (confLines file).findSome? (lineNumber k) := by
    rw [← findSome_cuts lineNumber_keyless h.whole]
    exact hpieces.findSome rfl fun part hpart p hp => hp.number (h.own part hpart) hk
  rw [BulletinBoard.pieceNumber, hfirst]
  cases hfind : (confLines file).findSome? (lineNumber k) with
  | none => rfl
  | some v =>
    obtain ⟨line, -, hv⟩ := List.exists_of_findSome?_eq_some hfind
    have hpos := lineNumber_pos hv
    have hle := h.number k hk hswitch v hfind
    show toInt v = v
    exact toInt_eq_iff.2 ⟨by omega, hle⟩

/-- The loop comes to the first word for BBFILE. -/
theorem LinesFit.pieceBbfile (h : LinesFit switches argv (confLines file))
    (hswitch : lastArg Key.BBFILE.arg switches = none) (main : CStr) :
    pieceBbfile main (piecesOf file) = ((confLines file).findSome? lineBbfile).getD main := by
  have hkeyed : ∀ part ∈ beforeBbfile ((confLines file).flatMap cutsOf), lineKey part ≠ none →
      part ∈ beforeBbfile (confLines file) := fun part hp => mem_beforeBbfile_cuts h.whole hp
  have hquiet : ∀ part ∈ beforeBbfile ((confLines file).flatMap cutsOf), ∀ p, PieceOf part p → p.bbfile = none := by
    intro part hpart p hof
    apply hof.no_bbfile
    intro hkey
    exact h.bbfile hswitch part (hkeyed part hpart (by rw [hkey]; exact Option.some_ne_none _)) hkey
  obtain ⟨hfind, hbefore⟩ := (piecesOf_cuts file).first rfl hquiet fun part p hof => hof.bbfile
  have hstop : (upToStop Inds.clear (piecesOf file)).findSome? Piece.bbfile = (piecesOf file).findSome? Piece.bbfile := by
    apply findSome_before
    intro hall
    have hown : ∀ part ∈ beforeBbfile ((confLines file).flatMap cutsOf), OwnValue part :=
      fun part hp => h.own part (List.takeWhile_subset _ hp)
    exact h.complete hswitch (hbefore.complete hown hkeyed hall)
  rw [BulletinBoard.pieceBbfile, hstop, hfind, findSome_cuts lineBbfile_keyless h.whole]

/-- What is read is there. -/
theorem LinesFit.defined (h : LinesFit switches argv (confLines file)) (detach debug : Prop) :
    FetchDefined detach debug (argv = []) (upToStop Inds.clear (piecesOf file)) := by
  have hpieces := piecesOf_cuts file
  have hvalue : ∀ p ∈ upToStop Inds.clear (piecesOf file), ∀ k, p.key = some k → k ≠ .BBFILE → k ≠ .PEERS →
      p.value.isSome := by
    intro p hp k hkey hb hpeers
    obtain ⟨part, hpart, hof⟩ := hpieces.mem (upToStop_subset Inds.clear _ p hp)
    rw [hof.key] at hkey
    rw [hof.value (h.own part hpart k hkey hb hpeers)]
    rfl
  have hfirst : ∀ k, k ≠ .BBFILE → k ≠ .PEERS → ∀ p,
      (upToStop Inds.clear (piecesOf file)).find? (fun p => p.key == some k) = some p → p.value.isSome := by
    intro k hb hpeers p hfind
    have hkey := List.find?_some hfind
    exact hvalue p (List.mem_of_find?_eq_some hfind) k (beq_iff_eq.1 hkey) hb hpeers
  refine ⟨?_, fun _ => hfirst .DAEMON (by decide) (by decide), fun _ => hfirst .DEBUG (by decide) (by decide), ?_⟩
  · rintro p hp (hkey | hkey | hkey)
    · exact hvalue p hp _ hkey (by decide) (by decide)
    · exact hvalue p hp _ hkey (by decide) (by decide)
    · exact hvalue p hp _ hkey (by decide) (by decide)
  · intro hargv words hwords
    apply h.peers hargv words
    rw [← findSome_cuts linePeers_keyless h.whole, ← hwords, peers_upToStop]
    exact (hpieces.findSome rfl fun part _ p hof => hof.linePeers).symm

/-! The file up to a line. -/

end

/-! Lines that set nothing. -/

section
variable {bytes before line behind : List Char}

/-- The lines before a line, that line, and those behind it. -/
theorem Standing.lines (h : Standing bytes before line behind) : ∃ first last : List CStr,
    confLines (some before) = first ++ [[]] ∧ confLines (some (before ++ line)) = first ++ [line] ∧
      confLines (some bytes) = first ++ line :: last := by
  have hnone : ∀ x ∈ line, (x == '\n') = false := by
    intro x hx
    rw [beq_eq_false_iff_ne]
    rintro rfl
    exact h.one hx
  have hone : line.splitOnP (· == '\n') = [line] := List.splitOnP_eq_singleton hnone
  obtain ⟨first, hfirst⟩ : ∃ first : List CStr, ∀ more : List Char,
      (before ++ more).splitOnP (· == '\n') = first ++ more.splitOnP (· == '\n') := by
    rcases h.starts with rfl | hlast
    · exact ⟨[], fun more => rfl⟩
    · obtain ⟨b, rfl⟩ := List.getLast?_eq_some_iff.1 hlast
      refine ⟨b.splitOnP (· == '\n'), fun more => ?_⟩
      rw [List.append_assoc]
      exact List.splitOnP_append_cons b more rfl
  obtain ⟨last, hlast⟩ : ∃ last : List CStr, (line ++ behind).splitOnP (· == '\n') = line :: last := by
    rcases h.ends with rfl | hhead
    · exact ⟨[], by rw [List.append_nil, hone]⟩
    · cases behind with
      | nil => cases hhead
      | cons c behind =>
        obtain rfl := Option.some.inj hhead
        exact ⟨_, List.splitOnP_append_cons_of_forall_mem hnone _ rfl behind⟩
  refine ⟨first, last, ?_, ?_, ?_⟩
  · have hbefore := hfirst []
    rw [List.append_nil] at hbefore
    exact hbefore
  · rw [← hone]
    exact hfirst line
  · rw [h.split, List.append_assoc, ← hlast]
    exact hfirst (line ++ behind)

end

/-! The precedence. -/

/-- A line that comes in one piece, with the value behind its key; BBFILE may stand alone. -/
structure PlainLine (line : CStr) : Prop where
  short : line.length < 512
  value : ∀ k, lineKey line = some k → k ≠ .BBFILE → 1 < (lineWords line).length
  peers : lineKey line = some .PEERS → ∀ word ∈ (lineWords line).drop 1, Storable word

/-- No key stands on two lines. -/
def KeysOnce (lines : List CStr) : Prop := ∀ k, lines.countP (fun line => lineKey line == some k) ≤ 1

section
variable {file : Option (List Char)} {line : CStr} {lines : List CStr} {p : Piece} {ps : List Piece} {k : Key}

/-- The lines of a plain file come in one piece each. -/
theorem piecesOf_plain (h : ∀ line ∈ confLines file, PlainLine line) : PiecesOf (confLines file) (piecesOf file) := by
  have hcuts := piecesOf_cuts file
  rwa [flatMap_cuts_short fun line hl => (h line hl).short] at hcuts

theorem PieceOf.sound (h : PieceOf line p) (hplain : PlainLine line) : p.Sound := by
  rw [Piece.Sound, h.key]
  have hvalue : ∀ k, lineKey line = some k → k ≠ .BBFILE → p.value.isSome := by
    intro k hkey hk
    rw [h.value (hplain.value k hkey hk)]
    rfl
  cases hkey : lineKey line with
  | none => trivial
  | some k =>
    cases k with
    | BBFILE => trivial
    | PEERS =>
      rw [h.words]
      exact hplain.peers hkey
    | _ => exact hvalue _ hkey (by decide)

/-- A PEERS line that is plain has words. -/
theorem PieceOf.peers (h : PieceOf line p) (hplain : PlainLine line) (hkey : p.key = some .PEERS) : p.peers ≠ none := by
  have hlen := hplain.value .PEERS (h.key ▸ hkey) (by decide)
  rw [Piece.peers, h.words, if_pos ⟨hkey, hlen⟩]
  exact Option.some_ne_none _

/-- Without a PEERS line that has no words the loop does not stop. -/
theorem upToStop_of_peers {ind : Inds} (h : ∀ p ∈ ps, p.key = some .PEERS → p.peers ≠ none)
    (hind : ind.peers_ind = false) : upToStop ind ps = ps := by
  induction ps generalizing ind with
  | nil => rfl
  | cons p ps ih =>
    have hgo : ¬ ind.all = true := by
      simp [Inds.all, hind]
    -- the flag of a PEERS line without words is the one that stays clear
    have hafter : (ind.after p).peers_ind = false := by
      have hp := h p List.mem_cons_self
      rw [Inds.after]
      split
      · split <;> exact hind
      · split <;> exact hind
      · split <;> exact hind
      · exact hind
      · next hkey =>
        rw [if_neg (hp hkey)]
        exact hind
      · exact hind
      · exact hind
      · exact hind
    rw [upToStop, if_neg hgo, ih (fun q hq => h q (List.mem_cons_of_mem p hq)) hafter]

/-- A plain file is read to its end. -/
theorem upToStop_plain (h : ∀ line ∈ confLines file, PlainLine line) :
    upToStop Inds.clear (piecesOf file) = piecesOf file := by
  apply upToStop_of_peers _ rfl
  intro p hp hkey
  obtain ⟨line, hl, hof⟩ := (piecesOf_plain h).mem hp
  exact hof.peers (h line hl) hkey

theorem PiecesOf.count_le (h : PiecesOf lines ps) (k : Key) :
    ps.countP (fun p => p.key == some k) ≤ lines.countP fun line => lineKey line == some k := by
  induction h with
  | done _ => exact Nat.zero_le _
  | line hpiece hrest ih =>
    rw [List.countP_cons, List.countP_cons, hpiece.key]
    exact Nat.add_le_add_right ih _

/-- What one key offers at most once is offered first and last. -/
theorem findSome_reverse_once {α : Type} {offer : Piece → Option α} (hkey : ∀ p, offer p ≠ none → p.key = some k)
    (honce : ps.countP (fun p => p.key == some k) ≤ 1) : ps.findSome? offer = ps.reverse.findSome? offer := by
  induction ps with
  | nil => rfl
  | cons p ps ih =>
    rw [List.countP_cons] at honce
    rw [List.reverse_cons, List.findSome?_append, List.findSome?_cons, List.findSome?_singleton]
    cases hoffer : offer p with
    | none =>
      rw [Option.or_none]
      exact ih (Nat.le_trans (Nat.le_add_right _ _) honce)
    | some a =>
      -- the key is this piece's, and no other offers anything
      have hp : (p.key == some k) = true := by
        rw [beq_iff_eq]
        exact hkey p (by simp [hoffer])
      rw [if_pos hp] at honce
      have hzero : ps.countP (fun p => p.key == some k) = 0 := by omega
      have hnone : ps.findSome? offer = none := by
        rw [List.findSome?_eq_none_iff]
        intro q hq
        by_contra hc
        exact List.countP_eq_zero.1 hzero q hq (beq_iff_eq.2 (hkey q hc))
      rw [findSome_reverse_none.2 hnone]
      rfl

theorem key_of_debug {p : Piece} (h : p.debug ≠ none) : p.key = some .DEBUG := by
  by_contra hc
  exact h (if_neg hc)

theorem key_of_bbfile {p : Piece} (h : p.bbfile ≠ none) : p.key = some .BBFILE := by
  by_contra hc
  exact h (if_neg fun hb => hc hb.1)

theorem key_of_peers {p : Piece} (h : p.peers ≠ none) : p.key = some .PEERS := by
  by_contra hc
  exact h (if_neg fun hb => hc hb.1)

/-- With the peers in front every entry that is used is stored. -/
theorem sameTable_of_peersFirst {words : List CStr} (h : PeersFirst words) : SameTable words words := by
  obtain ⟨-, hcount, htable⟩ := (table_iff words 0).2 h
  refine ⟨rfl, fun i hi => ?_⟩
  rw [hcount] at hi
  have hentry : (((tableOf 0 words).take (validPeers words).length).map (Option.map PeerInfo.hostPort))[i]? =
      some (some (validPeers words)[i]) := by
    rw [htable, List.getElem?_map, List.getElem?_eq_getElem hi]
    rfl
  rw [List.getElem?_map, List.getElem?_take_of_lt hi] at hentry
  obtain ⟨stored, hstored, hsome⟩ := Option.map_eq_some_iff.1 hentry
  obtain ⟨entry, rfl, -⟩ := Option.map_eq_some_iff.1 hsome
  exact ⟨entry, hstored, hstored⟩

end

/-- **A SIGHUP in plain files** whose keys stand on one line each: it is a fresh start when the peers of the
    file stand first, or there are none in the file and none were in force. -/
theorem restart_plain {bbfile bbfile' : CStr} {file : Option (List Char)} {s : Sconf}
    (hfile : ∀ line ∈ confLines file, PlainLine line) (honce : KeysOnce (confLines file))
    (hpeers : ∀ line ∈ confLines file, lineKey line = some .PEERS → PeersFirst ((lineWords line).drop 1))
    (hnone : (∀ line ∈ confLines file, lineKey line ≠ some .PEERS) → s.NO_OF_PEERS = 0) :
    RestartsFresh bbfile bbfile' file s := by
  apply restart_of_firstIsLast
  have hpieces := piecesOf_plain hfile
  have hcount : ∀ k, (piecesOf file).countP (fun p => p.key == some k) ≤ 1 :=
    fun k => (hpieces.count_le k).trans (honce k)
  have hsame : (piecesOf file).findSome? Piece.peers = (piecesOf file).reverse.findSome? Piece.peers :=
    findSome_reverse_once (fun p => key_of_peers) (hcount .PEERS)
  constructor
  · intro p hp
    obtain ⟨line, hl, hof⟩ := hpieces.mem hp
    exact hof.sound (hfile line hl)
  · intro k _
    have hnumber : ∀ p : Piece, p.number k ≠ none → p.key = some k := by
      intro p hp
      obtain ⟨v, hv⟩ := Option.ne_none_iff_exists'.1 hp
      exact (key_of_number hv).1
    rw [findSome_reverse_once hnumber (hcount k)]
  · rintro ⟨p, hp, hsets⟩
    rw [upToStop_plain hfile, ← findSome_reverse_once (fun p => key_of_bbfile) (hcount .BBFILE)]
    cases hfirst : (piecesOf file).findSome? Piece.bbfile with
    | none => exact absurd (List.findSome?_eq_none_iff.1 hfirst p hp) hsets
    | some word => rfl
  · exact findSome_reverse_once (fun p => key_of_debug) (hcount .DEBUG)
  · rw [← hsame]
    cases hfirst : (piecesOf file).findSome? Piece.peers with
    | none =>
      apply hnone
      intro line hl hkey
      -- a PEERS line is not empty, and its words would be offered
      rcases hpieces.mem_line hl with rfl | ⟨p, hp, hof⟩
      · exact absurd hkey (by decide)
      · exact hof.peers (hfile line hl) (hof.key.trans hkey) (List.findSome?_eq_none_iff.1 hfirst p hp)
    | some words =>
      obtain ⟨p, hp, hwords⟩ := List.exists_of_findSome?_eq_some hfirst
      obtain ⟨line, hl, hof⟩ := hpieces.mem hp
      have hkey : p.key = some .PEERS := key_of_peers (by simp [hwords])
      have hdrop : words = (lineWords line).drop 1 := by
        rw [Piece.peers, Option.ite_none_right_eq_some] at hwords
        rw [← hof.words]
        exact (Option.some.inj hwords.2).symm
      apply sameTable_of_peersFirst
      rw [hdrop]
      exact hpeers line hl (hof.key ▸ hkey)

end BulletinBoard
