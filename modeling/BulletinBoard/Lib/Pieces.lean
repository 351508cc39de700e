import BulletinBoard.Lib.Cut

/- What a cut among the first `n` elements comes to, said in two steps: cut those `n` elements at
   every separator, and then close the last piece. A last piece that a separator opened and that
   is empty is dropped; any other goes on with what stands behind the `n` elements. -/
namespace Cut

variable {α : Type*} {sep blank : α → Bool} {s t : List α}

/-- A list cut at every separator; a separator also takes the blanks behind it. -/
def pieces (sep blank : α → Bool) : List α → List (List α)
  | [] => [[]]
  | c :: s => if sep c then [] :: pieces sep blank (s.dropWhile blank) else push c (pieces sep blank s)
  termination_by s => s.length
  decreasing_by
    · exact Nat.lt_succ_of_le (List.dropWhile_sublist _).length_le
    · exact Nat.lt_succ_self _

/-- The last piece goes on with `t`. -/
def extendLast (t : List α) (ps : List (List α)) : List (List α) := ps.dropLast ++ [ps.getLastD [] ++ t]

/-- The last piece, which a separator has opened, is dropped when it is empty. -/
def closeOpened (t : List α) (ps : List (List α)) : List (List α) :=
  if ps.getLastD [] = [] then ps.dropLast else extendLast t ps

/-- Where there was a cut the last piece is one that a separator has opened. -/
def close (t : List α) (ps : List (List α)) : List (List α) :=
  if ps.length > 1 ∧ ps.getLastD [] = [] then ps.dropLast else extendLast t ps

/-- The reference: cut the first `n` elements; where there was a cut and the last piece is empty drop
    it, otherwise extend it by the elements from `n` on. -/
def reference (sep blank : α → Bool) (n : Nat) (s : List α) : List (List α) :=
  close (s.drop n) (pieces sep blank (s.take n))

@[simp] theorem pieces_nil : pieces sep blank ([] : List α) = [[]] := by rw [pieces]

theorem pieces_cons (c : α) (s : List α) : pieces sep blank (c :: s) =
    if sep c then [] :: pieces sep blank (s.dropWhile blank) else push c (pieces sep blank s) := by
  rw [pieces]

theorem pieces_ne_nil (s : List α) : pieces sep blank s ≠ [] := by
  cases s with
  | nil => simp
  | cons c s =>
    rw [pieces_cons]
    split
    · simp
    · exact push_ne_nil c _

/-! A first piece in front of others changes nothing at the end. -/

section
variable {p : List α} {ps : List (List α)} {c : α}

theorem extendLast_cons (h : ps ≠ []) : extendLast t (p :: ps) = p :: extendLast t ps := by
  obtain ⟨q, qs, rfl⟩ := List.exists_cons_of_ne_nil h
  rfl

theorem closeOpened_cons (h : ps ≠ []) : closeOpened t (p :: ps) = p :: closeOpened t ps := by
  have hlast : (p :: ps).getLastD [] = ps.getLastD [] := by
    obtain ⟨q, qs, rfl⟩ := List.exists_cons_of_ne_nil h
    rfl
  rw [closeOpened, closeOpened, hlast, extendLast_cons h]
  split
  · exact List.dropLast_cons_of_ne_nil h
  · rfl

theorem close_cons (h : ps ≠ []) : close t (p :: ps) = p :: closeOpened t ps := by
  have hlen : (p :: ps).length > 1 := Nat.succ_lt_succ (List.length_pos_iff.2 h)
  rw [← closeOpened_cons h, close, closeOpened]
  simp only [hlen, true_and]

/-- With an element in front the first piece is not empty. -/
theorem closeOpened_push (h : ps ≠ []) : closeOpened t (push c ps) = push c (close t ps) := by
  obtain ⟨q, qs, rfl⟩ := List.exists_cons_of_ne_nil h
  cases qs with
  | nil => rfl
  | cons r qs =>
    rw [close_cons (by simp), push, closeOpened_cons (by simp)]
    rfl

theorem close_push (h : ps ≠ []) : close t (push c ps) = push c (close t ps) := by
  obtain ⟨q, qs, rfl⟩ := List.exists_cons_of_ne_nil h
  cases qs with
  | nil => rfl
  | cons r qs =>
    rw [close_cons (by simp), push, close_cons (by simp)]
    rfl

end

/-- **A cut among the first `n` elements is the reference.** The recursion of the cut carries whether a
    separator has just been passed: then the blanks in front are taken as well. -/
theorem cutAt_eq_reference : ∀ (n : Nat) (s : List α), n ≤ s.length →
    cutAt sep blank n false s = reference sep blank n s ∧
      cutAt sep blank n true s = closeOpened (s.drop n) (pieces sep blank ((s.take n).dropWhile blank))
  | 0, s, _ => by simp [cutAt, reference, close, closeOpened, extendLast]
  | n + 1, [], h => by simp at h
  | n + 1, c :: s, h => by
    -- the two halves are proved together: a separator turns the first into the second, a character the
    -- second into the first
    obtain ⟨hopen, hpassed⟩ := cutAt_eq_reference n s (by simpa using h)
    have hne : pieces sep blank (s.take n) ≠ [] := pieces_ne_nil _
    have hne' : pieces sep blank ((s.take n).dropWhile blank) ≠ [] := pieces_ne_nil _
    rw [reference] at hopen ⊢
    rw [List.take_succ_cons, List.drop_succ_cons]
    cases hsep : sep c with
    | false =>
      constructor
      · rw [pieces_cons, hsep, if_neg Bool.false_ne_true, close_push hne, ← hopen]
        simp [cutAt, hsep]
      · cases hblank : blank c with
        | false =>
          rw [List.dropWhile_cons_of_neg (by simp [hblank]), pieces_cons, hsep, if_neg Bool.false_ne_true,
            closeOpened_push hne, ← hopen]
          simp [cutAt, hsep, hblank]
        | true =>
          rw [List.dropWhile_cons_of_pos hblank, ← hpassed]
          simp [cutAt, hblank]
    | true =>
      constructor
      · rw [pieces_cons, hsep, if_pos rfl, close_cons hne', ← hpassed]
        simp [cutAt, hsep]
      · cases hblank : blank c with
        | false =>
          rw [List.dropWhile_cons_of_neg (by simp [hblank]), pieces_cons, hsep, if_pos rfl, closeOpened_cons hne',
            ← hpassed]
          simp [cutAt, hsep, hblank]
        | true =>
          rw [List.dropWhile_cons_of_pos hblank, ← hpassed]
          simp [cutAt, hblank]

end Cut
