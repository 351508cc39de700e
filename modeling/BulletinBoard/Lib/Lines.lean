import Mathlib.Tactic

/- A text made of terminated lines, and a text overwritten in place. Positions are
   offsets from the start of the text: a line starts where the text of the lines
   before it ends. -/
namespace Lines

variable {α : Type*} {t fill : α} {a b ls : List (List α)} {l l' : List α}

/-- The text of the lines, the terminator after each. -/
def unlines (t : α) (ls : List (List α)) : List α := ls.flatMap (· ++ [t])

@[simp] theorem unlines_nil : unlines t ([] : List (List α)) = [] := rfl

@[simp] theorem unlines_cons : unlines t (l :: ls) = l ++ t :: unlines t ls := by
  simp [unlines]

@[simp] theorem unlines_append : unlines t (a ++ b) = unlines t a ++ unlines t b := by
  simp [unlines]

theorem unlines_length_le (t : α) (ls : List (List α)) : ls.length ≤ (unlines t ls).length := by
  induction ls with
  | nil => simp
  | cons l ls ih => simp; omega

/-- `s` written over the text from `pos` on, the gap filled when the text ends before
    `pos`. -/
def overwrite (fill : α) (text : List α) (pos : Nat) (s : List α) : List α :=
  text.take pos ++ List.replicate (pos - text.length) fill ++ s ++ text.drop (pos + s.length)

/-- A part overwritten by one of its own length. -/
theorem overwrite_part {p s m r : List α} (hs : s.length = m.length) :
    overwrite fill (p ++ (m ++ r)) p.length s = p ++ (s ++ r) := by
  have hgap : p.length - (p ++ (m ++ r)).length = 0 := by simp
  have hdrop : (p ++ (m ++ r)).drop (p.length + s.length) = r := by
    rw [List.drop_append, List.drop_eq_nil_of_le (by omega), List.nil_append, Nat.add_sub_cancel_left, hs,
      List.drop_left]
  rw [overwrite, hgap, hdrop, List.take_left]
  simp

/-- The end overwritten by something at least as long. -/
theorem overwrite_end {p s m : List α} (hs : m.length ≤ s.length) : overwrite fill (p ++ m) p.length s = p ++ s := by
  have hgap : p.length - (p ++ m).length = 0 := by simp
  have hdrop : (p ++ m).drop (p.length + s.length) = [] := by
    rw [List.drop_eq_nil_iff, List.length_append]
    omega
  rw [overwrite, hgap, hdrop, List.take_left]
  simp

/-- A line overwritten by one of its own length: the other lines do not move. -/
theorem overwrite_line (hl : l'.length = l.length) :
    overwrite fill (unlines t (a ++ l :: b)) (unlines t a).length (l' ++ [t]) =
      unlines t (a ++ l' :: b) := by
  have hpart := @overwrite_part _ fill (unlines t a) (l' ++ [t]) (l ++ [t]) (unlines t b) (by simp [hl])
  simpa using hpart

/-- The start of the first line overwritten by a shorter line: the first line is cut in two,
    and loses the character that became a terminator. -/
theorem overwrite_first (hl : l'.length < l.length) :
    overwrite fill (unlines t (l :: ls)) 0 (l' ++ [t]) =
      unlines t (l' :: l.drop (l'.length + 1) :: ls) := by
  have hdrop : (l ++ t :: unlines t ls).drop (l' ++ [t]).length =
      l.drop (l'.length + 1) ++ t :: unlines t ls := by
    rw [List.length_append, List.length_singleton, List.drop_append_of_le_length hl]
  simp only [overwrite, unlines_cons, Nat.zero_add, hdrop, List.take_zero, Nat.zero_sub]
  simp

end Lines
