import BulletinBoard.Precedence

/- The pieces of a configuration file from its lines. A line of fewer than 512 bytes is a piece; a longer
   one is cut, and its rest is read as a line of its own. What a piece offers is what its line
   does, where the value behind the key is the line's own. -/
namespace BulletinBoard

def lineWords (line : CStr) : List CStr := wordsOf (cstr line 0)

def lineKey (line : CStr) : Option Key := keyOf ((lineWords line).headD [])

/-- The words behind PEERS. -/
def linePeers (line : CStr) : Option (List CStr) :=
  if lineKey line = some .PEERS ∧ 1 < (lineWords line).length then some ((lineWords line).drop 1) else none

/-- A line as it is read: what does not fit is a line of its own. -/
def cutsOf (line : CStr) : List CStr :=
  if line.length < 512 then [line] else line.take 512 :: cutsOf (line.drop 512)
termination_by line.length
decreasing_by
  rw [List.length_drop]
  omega

/-- The piece of a line that comes in one. -/
structure PieceOf (line : CStr) (p : Piece) : Prop where
  words : p.words = lineWords line
  value : 1 < (lineWords line).length → p.value = some (strtol ((lineWords line).getD 1 []))

/-- A piece for each line, but for empty ones at the end. -/
inductive PiecesOf : List CStr → List Piece → Prop where
  | done {lines : List CStr} (h : ∀ line ∈ lines, line = []) : PiecesOf lines []
  | line {line : CStr} {p : Piece} {lines : List CStr} {ps : List Piece} (h : PieceOf line p) (hrest : PiecesOf lines ps) :
      PiecesOf (line :: lines) (p :: ps)

/-! The pieces of the lines as they are cut. -/

section
variable {line : CStr} {lines : List CStr} {p : Piece} {ps : List Piece} {k : Key}

theorem cutsOf_short (h : line.length < 512) : cutsOf line = [line] := by
  rw [cutsOf, if_pos h]

theorem cutsOf_long (h : ¬ line.length < 512) : cutsOf line = line.take 512 :: cutsOf (line.drop 512) := by
  rw [cutsOf, if_neg h]

theorem flatMap_cuts_short (h : ∀ line ∈ lines, line.length < 512) : lines.flatMap cutsOf = lines := by
  induction lines with
  | nil => rfl
  | cons line lines ih =>
    rw [List.flatMap_cons, cutsOf_short (h line List.mem_cons_self), ih fun l hl => h l (List.mem_cons_of_mem _ hl)]
    rfl

theorem PieceOf.key (h : PieceOf line p) : p.key = lineKey line := by
  rw [Piece.key, h.words, lineKey]

/-- A line that is read whole. -/
theorem Tokens.next_line {confd confd' : Stream} (h : readPiece confd = some (cstr line 0, confd')) (t : Tokens) :
    ∃ t', t.next confd = some (t', confd') ∧ PieceOf line t'.piece := by
  obtain ⟨hnul, m, k, hnext⟩ := Tokens.next_some h
  exact ⟨_, hnext t, load_words hnul t, load_value hnul t⟩

/-- The first line of some bytes, and what is behind it. -/
theorem line_split (bytes : List Char) : ∃ line behind : List Char, '\n' ∉ line ∧ bytes = line ++ behind ∧
    (behind = [] ∧ bytes.splitOnP (· == '\n') = [line] ∨ ∃ rest, behind = '\n' :: rest ∧
      bytes.splitOnP (· == '\n') = line :: rest.splitOnP (· == '\n')) := by
  by_cases hmem : ∃ x ∈ bytes, (x == '\n') = true
  · obtain ⟨line, c, rest, rfl, hline, hc⟩ := Cut.exists_first hmem
    obtain rfl := beq_iff_eq.1 hc
    refine ⟨line, '\n' :: rest, fun hm => absurd (hline _ hm) (by decide), rfl, .inr ⟨rest, rfl, ?_⟩⟩
    exact List.splitOnP_append_cons_of_forall_mem hline _ hc rest
  · have hline : ∀ x ∈ bytes, (x == '\n') = false := by
      intro x hx
      by_contra hc
      exact hmem ⟨x, hx, by simpa using hc⟩
    refine ⟨bytes, [], fun hm => absurd (hline _ hm) (by decide), (List.append_nil _).symm, .inl ⟨rfl, ?_⟩⟩
    exact List.splitOnP_eq_singleton hline

/-- What is left of a line that is cut is the first line of the rest. -/
theorem splitOnP_drop {behind : List Char} (hone : '\n' ∉ line)
    (hbehind : behind = [] ∨ ∃ rest, behind = '\n' :: rest) (n : Nat) :
    ∃ more, (line ++ behind).splitOnP (· == '\n') = line :: more ∧
      (line.drop n ++ behind).splitOnP (· == '\n') = line.drop n :: more := by
  have hsep : ∀ l : List Char, (∀ x ∈ l, x ∈ line) → ∀ x ∈ l, (x == '\n') = false := by
    intro l hl x hx
    rw [beq_eq_false_iff_ne]
    rintro rfl
    exact hone (hl _ hx)
  have hwhole := hsep line fun _ h => h
  have hdrop := hsep (line.drop n) fun _ h => List.mem_of_mem_drop h
  rcases hbehind with rfl | ⟨rest, rfl⟩
  · refine ⟨[], ?_, ?_⟩
    · rw [List.append_nil, List.splitOnP_eq_singleton hwhole]
    · rw [List.append_nil, List.splitOnP_eq_singleton hdrop]
  · refine ⟨rest.splitOnP (· == '\n'), ?_, ?_⟩
    · exact List.splitOnP_append_cons_of_forall_mem hwhole _ rfl rest
    · exact List.splitOnP_append_cons_of_forall_mem hdrop _ rfl rest

/-- One round reads the first cut of what is there, and leaves the others; it reads nothing when there is
    nothing but an empty one. -/
theorem readPiece_cut (bytes : List Char) :
    (readPiece ⟨bytes, false⟩ = none ∧ ∀ l ∈ (bytes.splitOnP (· == '\n')).flatMap cutsOf, l = []) ∨
      ∃ line rest lines, readPiece ⟨bytes, false⟩ = some (cstr line 0, ⟨rest, false⟩) ∧
        (bytes.splitOnP (· == '\n')).flatMap cutsOf = line :: lines ∧
        ((rest.splitOnP (· == '\n')).flatMap cutsOf = lines ∨ rest = [] ∧ lines = []) := by
  obtain ⟨line, behind, hone, hbytes, hsplit⟩ := line_split bytes
  by_cases hlen : line.length < 512
  · rcases hsplit with ⟨rfl, hsplit⟩ | ⟨rest, rfl, hsplit⟩
    · -- what is behind the last newline
      rw [List.append_nil] at hbytes
      rw [hsplit, List.flatMap_singleton, cutsOf_short hlen, readPiece, hbytes, takeLine_end hone hlen]
      dsimp only
      by_cases hnil : line = []
      · exact .inl ⟨if_pos hnil, fun l hl => (List.mem_singleton.1 hl).trans hnil⟩
      · exact .inr ⟨line, [], [], if_neg hnil, rfl, .inr ⟨rfl, rfl⟩⟩
    · -- a line and its newline
      rw [hsplit, List.flatMap_cons, cutsOf_short hlen, readPiece, hbytes, takeLine_line hone hlen]
      exact .inr ⟨line, rest, _, rfl, rfl, .inl rfl⟩
  · -- the first 512 bytes of a line
    have hbehind : behind = [] ∨ ∃ rest, behind = '\n' :: rest := by
      rcases hsplit with ⟨hnil, -⟩ | ⟨rest, hrest, -⟩
      · exact .inl hnil
      · exact .inr ⟨rest, hrest⟩
    obtain ⟨more, hmore, hrest⟩ := splitOnP_drop hone hbehind 512
    rw [hbytes, hmore, List.flatMap_cons, cutsOf_long hlen, List.cons_append, readPiece,
      takeLine_long hone behind false (Nat.le_of_not_lt hlen)]
    exact .inr ⟨line.take 512, _, _, rfl, rfl, .inl (by rw [hrest, List.flatMap_cons])⟩

theorem confPieces_cuts {f : Nat} {bytes : List Char} (t : Tokens) (hf : bytes.length < f) :
    PiecesOf ((bytes.splitOnP (· == '\n')).flatMap cutsOf) (confPieces f ⟨bytes, false⟩ t) := by
  induction f generalizing bytes t with
  | zero => exact absurd hf (Nat.not_lt_zero _)
  | succ f ih =>
    rcases readPiece_cut bytes with ⟨hread, hempty⟩ | ⟨line, rest, lines, hread, hcuts, hrest⟩
    · rw [confPieces, Tokens.next_none hread]
      exact .done hempty
    · obtain ⟨t', hnext, hpiece⟩ := Tokens.next_line hread t
      have hlt := readPiece_rest hread
      rw [hcuts, confPieces, hnext]
      dsimp only at hlt ⊢
      apply PiecesOf.line hpiece
      rcases hrest with rfl | ⟨rfl, rfl⟩
      · exact ih t' (by omega)
      · have hend : confPieces f ⟨[], false⟩ t' = [] := by
          cases f with
          | zero => rfl
          | succ f => rfl
        rw [hend]
        exact .done (by simp)

/-- **The pieces of a file** are those of its lines as they are cut. -/
theorem piecesOf_cuts (file : Option (List Char)) : PiecesOf ((confLines file).flatMap cutsOf) (piecesOf file) := by
  cases file with
  | none => exact .done (by simp [confLines])
  | some bytes => exact confPieces_cuts _ (Nat.lt_succ_self _)

theorem PiecesOf.mem (h : PiecesOf lines ps) (hp : p ∈ ps) : ∃ line ∈ lines, PieceOf line p := by
  induction h with
  | done h => cases hp
  | line hpiece hrest ih =>
    rcases List.mem_cons.1 hp with rfl | hp
    · exact ⟨_, List.mem_cons_self, hpiece⟩
    · obtain ⟨line, hline, hof⟩ := ih hp
      exact ⟨line, List.mem_cons_of_mem _ hline, hof⟩

theorem PiecesOf.mem_line (h : PiecesOf lines ps) (hline : line ∈ lines) : line = [] ∨ ∃ p ∈ ps, PieceOf line p := by
  induction h with
  | done hempty => exact Or.inl (hempty line hline)
  | line hpiece hrest ih =>
    rcases List.mem_cons.1 hline with rfl | hline
    · exact Or.inr ⟨_, List.mem_cons_self, hpiece⟩
    · rcases ih hline with hnil | ⟨p, hp, hof⟩
      · exact Or.inl hnil
      · exact Or.inr ⟨p, List.mem_cons_of_mem _ hp, hof⟩

/-- What the first piece offers is what the first line does. -/
theorem PiecesOf.findSome {α : Type} {offer : Piece → Option α} {given : CStr → Option α} (h : PiecesOf lines ps)
    (hnil : given [] = none) (hsame : ∀ line ∈ lines, ∀ p, PieceOf line p → offer p = given line) :
    ps.findSome? offer = lines.findSome? given := by
  induction h with
  | done hempty =>
    rw [List.findSome?_nil, eq_comm, List.findSome?_eq_none_iff]
    intro line hline
    rw [hempty line hline, hnil]
  | line hpiece hrest ih =>
    rw [List.findSome?_cons, List.findSome?_cons, hsame _ List.mem_cons_self _ hpiece]
    rw [ih fun l hl => hsame l (List.mem_cons_of_mem _ hl)]

/-- The same where the pieces of the lines in front of the first one that gives something offer nothing; and
    these are the pieces in front of the first one that offers something. -/
theorem PiecesOf.first {α : Type} {offer : Piece → Option α} {given : CStr → Option α} (h : PiecesOf lines ps)
    (hnil : given [] = none)
    (hnone : ∀ line ∈ lines.takeWhile (fun l => (given l).isNone), ∀ p, PieceOf line p → offer p = none)
    (hsome : ∀ line p, PieceOf line p → given line ≠ none → offer p = given line) :
    ps.findSome? offer = lines.findSome? given ∧
      PiecesOf (lines.takeWhile fun l => (given l).isNone) (ps.takeWhile fun p => (offer p).isNone) := by
  induction h with
  | done hempty =>
    constructor
    · rw [List.findSome?_nil, eq_comm, List.findSome?_eq_none_iff]
      intro line hline
      rw [hempty line hline, hnil]
    · exact .done fun line hline => hempty line (List.takeWhile_subset _ hline)
  | @line line p lines ps hpiece hrest ih =>
    cases hgiven : given line with
    | some a =>
      have hoffer : offer p = some a := by
        rw [hsome line p hpiece (by rw [hgiven]; exact Option.some_ne_none a), hgiven]
      rw [List.findSome?_cons, List.findSome?_cons, List.takeWhile_cons, List.takeWhile_cons, hgiven, hoffer]
      exact ⟨rfl, .done fun _ h => by cases h⟩
    | none =>
      rw [List.takeWhile_cons, hgiven] at hnone
      have hoffer := hnone line List.mem_cons_self p hpiece
      obtain ⟨hfind, hbefore⟩ := ih fun l hl => hnone l (List.mem_cons_of_mem _ hl)
      rw [List.findSome?_cons, List.findSome?_cons, List.takeWhile_cons, List.takeWhile_cons, hgiven, hoffer]
      exact ⟨hfind, .line hpiece hbefore⟩

/-! What a line offers. -/

theorem name_of_keyOf {word : CStr} (h : keyOf word = some k) : word = k.name := by
  have hname := List.find?_some h
  exact (beq_iff_eq.1 hname).symm

theorem lineNumber_eq {word value : CStr} {words : List CStr} (h : lineWords line = word :: value :: words) :
    lineNumber k line = if word = k.name ∧ 0 < strtol value then some (strtol value) else none := by
  have hwords : wordsOf (cstr line 0) = word :: value :: words := h
  rw [lineNumber, hwords]

theorem lineBbfile_eq {word value : CStr} {words : List CStr} (h : lineWords line = word :: value :: words) :
    lineBbfile line = if word = Key.BBFILE.name ∧ value ≠ [] then some value else none := by
  have hwords : wordsOf (cstr line 0) = word :: value :: words := h
  rw [lineBbfile, hwords]

/-- A line of one word offers nothing. -/
theorem line_short {word : CStr} (h : lineWords line = [word]) : lineNumber k line = none ∧ lineBbfile line = none := by
  have hwords : wordsOf (cstr line 0) = [word] := h
  rw [lineNumber, lineBbfile, hwords]
  exact ⟨rfl, rfl⟩

theorem lineWords_cases (line : CStr) :
    (∃ word, lineWords line = [word]) ∨ ∃ word value words, lineWords line = word :: value :: words := by
  obtain ⟨word, words, h⟩ := List.exists_cons_of_ne_nil (@Cut.cut_false_ne_nil _ isWordSep isBlank (cstr line 0))
  cases words with
  | nil => exact Or.inl ⟨word, h⟩
  | cons value words => exact Or.inr ⟨word, value, words, h⟩

end

end BulletinBoard
