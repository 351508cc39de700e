import BulletinBoard.Coordinator
import BulletinBoard.Tokenize

/- The reply of a peer as TCP delivers it. Every `recv_nonblock` of the reply loop writes at the
   start of the same zero-filled buffer, so that the pieces of a reply lie over one another and
   the text that is counted is what is left of them. With more than one piece it is shorter
   than the line: a vote other than a plain negative is lost, and a reply that is none is counted
   as one when its last piece looks like it and covers the others. -/
namespace BulletinBoard

def ALEN : Nat := 1024

/-- What a `recv_nonblock` answers: some bytes, the end of the connection, an error, or nothing within
    the poll time. -/
inductive Recv where
  | bytes (piece : List Char)
  | closed
  | error
  | nodata
  deriving DecidableEq, Repr

/-- The reply loop of `send_precommit` and `send_commit`, on the answers of its calls. An error goes on. -/
def recvLoop : List Recv → List Char → Option (List Char)
  | [], _ => none
  | .nodata :: _, buff => some buff
  | .closed :: _, buff => some buff
  | .error :: rs, buff => recvLoop rs buff
  | .bytes piece :: rs, buff => recvLoop rs (piece ++ buff.drop piece.length)

/-- The text in the reply buffer when the loop ends. -/
def replyText (rs : List Recv) : Option CStr := (recvLoop rs (List.replicate ALEN NUL)).map fun buff => cstr buff 0

/-- How a reply is counted. -/
inductive Vote where
  | positive
  | negative
  | negative_exists
  deriving DecidableEq, Repr

/-- The comparisons, the last character of the reply cut off; `send_precommit` knows two votes only. -/
def voteOf (fn : SendFn) (buff : CStr) : Vote :=
  if Job.positive buff then .positive
  else if fn = .send_commit ∧ buff.dropLast = "negative_exists".toList then .negative_exists
  else .negative

theorem voteOf_positive {fn : SendFn} {buff : CStr} : voteOf fn buff = .positive ↔ Job.positive buff = true := by
  rw [voteOf]
  split
  · next h => exact ⟨fun _ => h, fun _ => rfl⟩
  · next h =>
    split
    · exact ⟨fun hv => absurd hv (by decide), fun hv => absurd hv h⟩
    · exact ⟨fun hv => absurd hv (by decide), fun hv => absurd hv h⟩

theorem voteOf_negative_exists {fn : SendFn} {buff : CStr} :
    voteOf fn buff = .negative_exists ↔ fn = .send_commit ∧ buff.dropLast = "negative_exists".toList := by
  have hwords : "positive".toList ≠ "negative_exists".toList := by decide
  rw [voteOf]
  split
  · next h =>
    rw [Job.positive, decide_eq_true_eq] at h
    constructor
    · exact fun hv => absurd hv (by decide)
    · exact fun hv => absurd (h.symm.trans hv.2) hwords
  · split
    · next h => exact ⟨fun _ => h, fun _ => rfl⟩
    · next h => exact ⟨fun hv => absurd hv (by decide), fun hv => absurd hv h⟩

/-- A way TCP cuts a line. -/
structure Cuts (line : CStr) (pieces : List CStr) : Prop where
  flatten : pieces.flatten = line
  nonempty : ∀ p ∈ pieces, p ≠ []
  length_lt : ∀ p ∈ pieces, p.length < ALEN

/-- The texts that are counted as more than a plain negative vote. -/
def IsVoteWord (fn : SendFn) (text : CStr) : Prop :=
  text = "positive".toList ∨ fn = .send_commit ∧ text = "negative_exists".toList

/-- A reply is counted as more than a plain negative vote by its text without the last character. -/
theorem voteOf_ne_negative {fn : SendFn} {buff : CStr} : voteOf fn buff ≠ .negative ↔ IsVoteWord fn buff.dropLast := by
  have hpos : buff.dropLast = "positive".toList ↔ voteOf fn buff = .positive := by
    rw [voteOf_positive, Job.positive, decide_eq_true_eq]
  rw [IsVoteWord, hpos, ← voteOf_negative_exists]
  cases voteOf fn buff <;> simp

/-- The last piece looks like such a reply and is as long as any. -/
def CoversWithVote (fn : SendFn) (pieces : List CStr) : Prop :=
  ∃ text, pieces.getLast? = some (text ++ ['\n']) ∧ IsVoteWord fn text ∧ ∀ p ∈ pieces, p.length ≤ text.length + 1

/-! What the pieces leave. -/

/-- One piece over what is there. -/
def overlay (text piece : CStr) : CStr := piece ++ text.drop piece.length

section
variable {fn : SendFn} {line text piece : CStr} {pieces : List CStr}

theorem recvLoop_pieces (e : Recv) (he : e = .nodata ∨ e = .closed) : ∀ (pieces : List CStr) (text : CStr) (k : Nat),
    ∃ k', recvLoop (pieces.map .bytes ++ [e]) (text ++ List.replicate k NUL) =
      some (pieces.foldl overlay text ++ List.replicate k' NUL)
  | [], text, k => by
    rcases he with rfl | rfl
    · exact ⟨k, rfl⟩
    · exact ⟨k, rfl⟩
  | piece :: pieces, text, k => by
    have hdrop : piece ++ (text ++ List.replicate k NUL).drop piece.length =
        overlay text piece ++ List.replicate (k - (piece.length - text.length)) NUL := by
      rw [List.drop_append, List.drop_replicate, overlay, List.append_assoc]
    obtain ⟨k', hk'⟩ := recvLoop_pieces e he pieces (overlay text piece) (k - (piece.length - text.length))
    refine ⟨k', ?_⟩
    rw [List.map_cons, List.cons_append, recvLoop, hdrop, hk', List.foldl_cons]

theorem mem_overlay {c : Char} (h : c ∈ overlay text piece) : c ∈ piece ∨ c ∈ text := by
  rcases List.mem_append.1 h with h | h
  · exact Or.inl h
  · exact Or.inr (List.mem_of_mem_drop h)

theorem mem_foldl_overlay {c : Char} : ∀ {pieces : List CStr} {text : CStr}, c ∈ pieces.foldl overlay text →
    c ∈ pieces.flatten ∨ c ∈ text
  | [], _, h => Or.inr h
  | piece :: pieces, text, h => by
    rw [List.foldl_cons] at h
    rw [List.flatten_cons, List.mem_append]
    rcases mem_foldl_overlay h with h | h
    · exact Or.inl (Or.inr h)
    · rcases mem_overlay h with h | h
      · exact Or.inl (Or.inl h)
      · exact Or.inr h

theorem overlay_length : (overlay text piece).length = max piece.length text.length := by
  rw [overlay, List.length_append, List.length_drop]
  omega

theorem foldl_overlay_length_le {n : Nat} : ∀ {pieces : List CStr} {text : CStr},
    ((pieces.foldl overlay text).length ≤ n ↔ text.length ≤ n ∧ ∀ p ∈ pieces, p.length ≤ n)
  | [], text => by simp
  | piece :: pieces, text => by
    rw [List.foldl_cons, foldl_overlay_length_le, overlay_length, max_le_iff, List.forall_mem_cons]
    tauto

/-- The text that the loop leaves of the pieces. -/
theorem replyText_pieces {e : Recv} (he : e = .nodata ∨ e = .closed) (hnul : NUL ∉ pieces.flatten) :
    replyText (pieces.map .bytes ++ [e]) = some (pieces.foldl overlay []) := by
  obtain ⟨k, hk⟩ := recvLoop_pieces e he pieces [] ALEN
  rw [List.nil_append] at hk
  have hmem : NUL ∉ pieces.foldl overlay [] := by
    intro h
    rcases mem_foldl_overlay h with h | h
    · exact hnul h
    · exact absurd h List.not_mem_nil
  rw [replyText, hk, Option.map_some, cstr_append_tail hmem (cstr_replicate k)]

theorem Cuts.ne_nil {c : Char} (h : Cuts (text ++ [c]) pieces) : pieces ≠ [] := by
  rintro rfl
  have := h.flatten
  simp at this

/-- The last piece has the newline. -/
theorem Cuts.last {c : Char} (h : Cuts (text ++ [c]) pieces) :
    ∃ init last, pieces = init ++ [last ++ [c]] := by
  obtain ⟨init, last, rfl⟩ := List.eq_nil_or_concat pieces |>.resolve_left h.ne_nil
  have hlast : last ≠ [] := h.nonempty last (by simp)
  obtain ⟨front, d, rfl⟩ := List.eq_nil_or_concat last |>.resolve_left hlast
  have hflatten := h.flatten
  simp only [List.concat_eq_append, List.flatten_append, List.flatten_cons, List.flatten_nil, List.append_nil,
    ← List.append_assoc] at hflatten
  obtain ⟨-, hd⟩ := List.append_inj' hflatten rfl
  obtain rfl : d = c := by simpa using hd
  exact ⟨init, front, by simp⟩

/-- The pieces of a line that comes in more than one leave less than the line. -/
theorem Cuts.overlay_lt (h : Cuts line pieces) (hmany : 1 < pieces.length) :
    (pieces.foldl overlay []).length < line.length := by
  have hpiece : ∀ p ∈ pieces, p.length ≤ line.length - 1 := by
    intro p hp
    obtain ⟨a, c, rfl⟩ := List.append_of_mem hp
    have hlen := congrArg List.length h.flatten
    simp only [List.flatten_append, List.flatten_cons, List.length_append] at hlen
    have hother : 0 < a.flatten.length + c.flatten.length := by
      have hne : a ≠ [] ∨ c ≠ [] := by
        by_contra hnil
        push Not at hnil
        simp [hnil] at hmany
      have hpos : ∀ l : List CStr, (∀ q ∈ l, q ∈ a ++ p :: c) → l ≠ [] → 0 < l.flatten.length := by
        intro l hl hne
        obtain ⟨q, l, rfl⟩ := List.exists_cons_of_ne_nil hne
        have hq := List.length_pos_of_ne_nil (h.nonempty q (hl q (by simp)))
        rw [List.flatten_cons, List.length_append]
        omega
      rcases hne with hne | hne
      · exact Nat.add_pos_left (hpos a (fun q hq => by simp [hq]) hne) _
      · exact Nat.add_pos_right _ (hpos c (fun q hq => by simp [hq]) hne)
    omega
  have hline : 0 < line.length := by
    obtain ⟨p, rest, rfl⟩ := List.exists_cons_of_length_pos (Nat.lt_of_succ_lt hmany)
    have hp := List.length_pos_of_ne_nil (h.nonempty p (by simp))
    have := hpiece p (by simp)
    omega
  have hle : (pieces.foldl overlay []).length ≤ line.length - 1 :=
    foldl_overlay_length_le.2 ⟨Nat.zero_le _, hpiece⟩
  exact lt_of_le_of_lt hle (Nat.sub_lt hline Nat.one_pos)

theorem IsVoteWord.ne_nil (h : IsVoteWord fn text) : text ≠ [] := by
  rintro rfl
  rcases h with h | ⟨-, h⟩
  · exact absurd h (by decide)
  · exact absurd h (by decide)

theorem IsVoteWord.no_newline (h : IsVoteWord fn text) : '\n' ∉ text := by
  rcases h with rfl | ⟨-, rfl⟩
  · decide
  · decide

/-- Two replies of one vote that is no plain negative have the same text. -/
theorem voteOf_eq_dropLast (h : voteOf fn text = voteOf fn line) (hline : voteOf fn line ≠ .negative) :
    text.dropLast = line.dropLast := by
  have hpos : ∀ b : CStr, voteOf fn b = .positive → b.dropLast = "positive".toList := by
    intro b hb
    simpa only [Job.positive, decide_eq_true_eq] using voteOf_positive.1 hb
  cases hv : voteOf fn line with
  | positive => rw [hpos line hv, hpos text (h.trans hv)]
  | negative => exact absurd hv hline
  | negative_exists =>
    rw [(voteOf_negative_exists.1 hv).2, (voteOf_negative_exists.1 (h.trans hv)).2]

/-- A vote that is no plain negative is lost when its line is cut. -/
theorem Cuts.vote_lost (h : Cuts (text ++ ['\n']) pieces) (hmany : 1 < pieces.length) (hword : IsVoteWord fn text) :
    voteOf fn (pieces.foldl overlay []) ≠ voteOf fn (text ++ ['\n']) := by
  intro heq
  have hline : voteOf fn (text ++ ['\n']) ≠ .negative := by
    rw [voteOf_ne_negative, List.dropLast_concat]
    exact hword
  have hdrop := congrArg List.length (voteOf_eq_dropLast heq hline)
  rw [List.dropLast_concat, List.length_dropLast] at hdrop
  have hlt := h.overlay_lt hmany
  rw [List.length_append, List.length_singleton] at hlt
  have hpos := List.length_pos_of_ne_nil hword.ne_nil
  omega

/-- The pieces are counted as more than a plain negative vote by the last of them. -/
theorem Cuts.covers (h : Cuts (text ++ ['\n']) pieces) :
    voteOf fn (pieces.foldl overlay []) ≠ .negative ↔ CoversWithVote fn pieces := by
  obtain ⟨init, last, rfl⟩ := h.last
  rw [voteOf_ne_negative, List.foldl_append, List.foldl_cons, List.foldl_nil, CoversWithVote]
  generalize hrest : init.foldl overlay [] = rest
  have hinit : ∀ n, rest.length ≤ n ↔ ∀ p ∈ init, p.length ≤ n := by
    intro n
    rw [← hrest, foldl_overlay_length_le]
    exact and_iff_right (Nat.zero_le n)
  have hall : rest.length ≤ last.length + 1 ↔ ∀ p ∈ init ++ [last ++ ['\n']], p.length ≤ last.length + 1 := by
    rw [hinit]
    simp [or_imp, forall_and]
  constructor
  · intro hword
    -- what the last piece does not cover would put its newline inside the word
    have hnil : rest.drop (last ++ ['\n']).length = [] := by
      by_contra hne
      refine hword.no_newline ?_
      rw [overlay, List.dropLast_append_of_ne_nil hne]
      simp
    have hcovers : rest.length ≤ last.length + 1 := by simpa using List.drop_eq_nil_iff.1 hnil
    rw [overlay, hnil, List.append_nil, List.dropLast_concat] at hword
    exact ⟨last, by simp, hword, hall.1 hcovers⟩
  · rintro ⟨text', hlast, hword, hlen⟩
    obtain rfl : last = text' := by simpa using hlast
    have hnil : rest.drop (last ++ ['\n']).length = [] := by
      rw [List.drop_eq_nil_iff]
      simpa using hall.2 hlen
    rw [overlay, hnil, List.append_nil, List.dropLast_concat]
    exact hword

/-- **A reply cut into pieces** is counted like the whole line exactly when it comes in one piece, or
    neither the line nor the piece that covers the others is more than a plain negative vote. -/
theorem vote_pieces_iff {e : Recv} (hnul : NUL ∉ text) (he : e = .nodata ∨ e = .closed)
    (h : Cuts (text ++ ['\n']) pieces) :
    (replyText (pieces.map .bytes ++ [e])).map (voteOf fn) = some (voteOf fn (text ++ ['\n'])) ↔
      pieces.length = 1 ∨ ¬ IsVoteWord fn text ∧ ¬ CoversWithVote fn pieces := by
  have hmem : NUL ∉ pieces.flatten := by
    rw [h.flatten]
    simpa [NUL] using hnul
  rw [replyText_pieces he hmem, Option.map_some, Option.some.injEq]
  have hcovers := @Cuts.covers fn _ _ h
  have hword : voteOf fn (text ++ ['\n']) ≠ .negative ↔ IsVoteWord fn text := by
    rw [voteOf_ne_negative, List.dropLast_concat]
  constructor
  · intro heq
    by_cases hone : pieces.length = 1
    · exact Or.inl hone
    · have hmany : 1 < pieces.length := lt_of_le_of_ne (List.length_pos_of_ne_nil h.ne_nil) (Ne.symm hone)
      have hnone : ¬ IsVoteWord fn text := fun hw => h.vote_lost hmany hw heq
      refine Or.inr ⟨hnone, fun hc => ?_⟩
      rw [← hcovers, heq, hword] at hc
      exact hnone hc
  · rintro (hone | ⟨hnone, hno⟩)
    · obtain ⟨p, rfl⟩ := List.length_eq_one_iff.1 hone
      have hp : p = text ++ ['\n'] := by simpa using h.flatten
      simp [overlay, hp]
    · rw [not_not.1 (mt hcovers.1 hno), not_not.1 (mt hword.1 hnone)]

end

/-! Replies in two pieces. -/

/-- A negative vote is kept. -/
theorem vote_pieces_negative :
    (replyText [.bytes "nega".toList, .bytes "tive\n".toList, .nodata]).map (voteOf .send_commit) = some .negative := by
  have hcuts : Cuts ("negative".toList ++ ['\n']) ["nega".toList, "tive\n".toList] :=
    ⟨by decide, by decide, by decide⟩
  have hword : ¬ IsVoteWord .send_commit "negative".toList := by
    rintro (hw | ⟨-, hw⟩)
    · exact absurd hw (by decide)
    · exact absurd hw (by decide)
  have hcovers : ¬ CoversWithVote .send_commit ["nega".toList, "tive\n".toList] := by
    rintro ⟨text, hlast, hw, -⟩
    have hlen : text.length = 4 := by
      have hlength := congrArg (Option.map List.length) hlast
      simpa using hlength.symm
    rcases hw with rfl | ⟨-, rfl⟩
    · exact absurd hlen (by decide)
    · exact absurd hlen (by decide)
  exact (vote_pieces_iff (by decide) (Or.inl rfl) hcuts).2 (Or.inr ⟨hword, hcovers⟩)

/-- A positive vote is counted as negative. -/
theorem vote_pieces_lost : Cuts ("positive".toList ++ ['\n']) ["posi".toList, "tive\n".toList] ∧
    (replyText [.bytes "posi".toList, .bytes "tive\n".toList, .nodata]).map (voteOf .send_precommit) ≠
      some (voteOf .send_precommit ("positive".toList ++ ['\n'])) := by
  refine ⟨⟨by decide, by decide, by decide⟩, ?_⟩
  have htext : replyText [.bytes "posi".toList, .bytes "tive\n".toList, .nodata] = some "tive\n".toList := by
    decide +kernel
  rw [htext]
  decide

end BulletinBoard
