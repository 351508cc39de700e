import Mathlib.Tactic
import Mathlib.Data.List.TakeWhile

/- Cutting a list at separators, where a separator also takes the blanks that
   follow it. `cut skip` cuts a whole list; `skip` says that a separator has just
   been passed and no piece is open. A piece that a separator opened and that the
   list ends before is not produced. `cutAt n` looks for separators among the first
   `n` elements only: what follows belongs to the piece that is open there, and is
   lost when none is. -/
namespace Cut

variable {α : Type*} {sep blank : α → Bool} {s t w : List α} {c : α}

/-- `c` in front of the first piece, or as a first piece of its own. -/
def push (c : α) : List (List α) → List (List α)
  | [] => [[c]]
  | p :: ps => (c :: p) :: ps

def cut (sep blank : α → Bool) : Bool → List α → List (List α)
  | skip, [] => if skip then [] else [[]]
  | skip, c :: s =>
    if skip && blank c then cut sep blank true s
    else if sep c then [] :: cut sep blank true s
    else push c (cut sep blank false s)

def cutAt (sep blank : α → Bool) : Nat → Bool → List α → List (List α)
  | 0, skip, s => if skip then [] else [s]
  | _ + 1, skip, [] => if skip then [] else [[]]
  | n + 1, skip, c :: s =>
    if skip && blank c then cutAt sep blank n true s
    else if sep c then [] :: cutAt sep blank n true s
    else push c (cutAt sep blank n false s)

theorem cutAt_of_length_le : ∀ (n : Nat) (skip : Bool) (s : List α), s.length ≤ n →
    cutAt sep blank n skip s = cut sep blank skip s
  | 0, skip, s, h => by
    obtain rfl := List.eq_nil_of_length_eq_zero (Nat.le_zero.1 h)
    simp [cutAt, cut]
  | _ + 1, skip, [], _ => by simp [cutAt, cut]
  | n + 1, skip, c :: s, h => by
    have h' : s.length ≤ n := by simpa using h
    simp only [cutAt, cut, cutAt_of_length_le n _ s h']

theorem cut_false_ne_nil : ∀ s : List α, cut sep blank false s ≠ []
  | [] => by simp [cut]
  | c :: s => by
    simp only [cut, Bool.false_and, Bool.false_eq_true, if_false]
    split
    · simp
    · cases cut sep blank false s <;> simp [push]

theorem cutAt_false_ne_nil : ∀ (n : Nat) (s : List α), cutAt sep blank n false s ≠ []
  | 0, _ => by simp [cutAt]
  | _ + 1, [] => by simp [cutAt]
  | n + 1, c :: s => by
    simp only [cutAt, Bool.false_and, Bool.false_eq_true, if_false]
    split
    · simp
    · cases cutAt sep blank n false s <;> simp [push]

theorem push_ne_nil (c : α) (ps : List (List α)) : push c ps ≠ [] := by
  cases ps <;> simp [push]

/-! Pieces around one separator. -/

/-- The text before the first separator is the first piece. -/
theorem cut_false_append (hw : ∀ x ∈ w, sep x = false) (hc : sep c = true) :
    cut sep blank false (w ++ c :: s) = w :: cut sep blank true s := by
  induction w with
  | nil => simp [cut, hc]
  | cons x w ih =>
    have hx : sep x = false := hw x (by simp)
    have ih := ih (fun y hy => hw y (by simp [hy]))
    simp [cut, hx, ih, push]

theorem cutAt_append (hw : ∀ x ∈ w, sep x = false) (hc : sep c = true) (k : Nat) (s : List α) :
    cutAt sep blank (w.length + 1 + k) false (w ++ c :: s) = w :: cutAt sep blank k true s := by
  induction w with
  | nil =>
    have hlen : ([] : List α).length + 1 + k = k + 1 := by simp [Nat.add_comm]
    rw [hlen]
    simp [cutAt, hc]
  | cons x w ih =>
    have hx : sep x = false := hw x (by simp)
    have ih := ih (fun y hy => hw y (by simp [hy]))
    have hlen : (x :: w).length + 1 + k = (w.length + 1 + k) + 1 := by
      rw [List.length_cons]
      omega
    rw [hlen]
    simp [cutAt, hx, ih, push]

theorem cut_false_of_no_sep (hw : ∀ x ∈ w, sep x = false) : cut sep blank false w = [w] := by
  induction w with
  | nil => simp [cut]
  | cons x w ih =>
    have hx : sep x = false := hw x (by simp)
    have ih := ih (fun y hy => hw y (by simp [hy]))
    simp [cut, hx, ih, push]

theorem cutAt_of_no_sep {n : Nat} (hw : ∀ x ∈ s.take n, sep x = false) : cutAt sep blank n false s = [s] := by
  induction n generalizing s with
  | zero => rfl
  | succ n ih =>
    cases s with
    | nil => rfl
    | cons x s =>
      rw [List.take_succ_cons] at hw
      have hx : sep x = false := hw x (by simp)
      have ih := @ih s fun y hy => hw y (by simp [hy])
      simp [cutAt, hx, ih, push]

/-- After a separator the blanks in front of a piece are dropped. -/
theorem cut_true_append (hdisj : ∀ x, sep x = true → blank x = false)
    (hw : ∀ x ∈ w, sep x = false) (hc : sep c = true) :
    cut sep blank true (w ++ c :: s) = w.dropWhile blank :: cut sep blank true s := by
  induction w with
  | nil => simp [cut, hc, hdisj c hc]
  | cons x w ih =>
    have hx : sep x = false := hw x (by simp)
    have hw' : ∀ y ∈ w, sep y = false := fun y hy => hw y (by simp [hy])
    cases hb : blank x
    · simp [cut, hb, hx, cut_false_append hw' hc, push]
    · simp [cut, hb, ih hw']

theorem cut_true_of_no_sep (hw : ∀ x ∈ w, sep x = false) (hne : w.dropWhile blank ≠ []) :
    cut sep blank true w = [w.dropWhile blank] := by
  induction w with
  | nil => simp at hne
  | cons x w ih =>
    have hx : sep x = false := hw x (by simp)
    have hw' : ∀ y ∈ w, sep y = false := fun y hy => hw y (by simp [hy])
    cases hb : blank x
    · simp [cut, hb, hx, cut_false_of_no_sep hw', push]
    · simp only [List.dropWhile_cons, hb, if_true] at hne
      simp [cut, hb, ih hw' hne]

theorem cut_true_eq_nil (h : ∀ x ∈ s, blank x = true) : cut sep blank true s = [] := by
  induction s with
  | nil => simp [cut]
  | cons x s ih =>
    have hx : blank x = true := h x (by simp)
    simp [cut, hx, ih (fun y hy => h y (by simp [hy]))]

theorem cut_true_ne_nil (h : ∃ x ∈ s, blank x = false) : cut sep blank true s ≠ [] := by
  induction s with
  | nil => simp at h
  | cons x s ih =>
    cases hb : blank x
    · simp only [cut, hb, Bool.and_false, Bool.false_eq_true, if_false]
      split
      · simp
      · cases cut sep blank false s <;> simp [push]
    · simp only [cut, hb, Bool.and_self, if_true]
      apply ih
      obtain ⟨y, hy, hyb⟩ := h
      rcases List.mem_cons.1 hy with rfl | hy
      · rw [hb] at hyb; cases hyb
      · exact ⟨y, hy, hyb⟩

/-- The blanks after a separator are dropped first. -/
theorem cut_true_eq (s : List α) : cut sep blank true s =
    if s.dropWhile blank = [] then [] else cut sep blank false (s.dropWhile blank) := by
  induction s with
  | nil => simp [cut]
  | cons x s ih =>
    cases hb : blank x
    · simp [cut, hb]
    · simp only [cut, hb, Bool.and_self, if_true, List.dropWhile_cons, ih]

theorem cutAt_true_ne_nil_iff : ∀ {n : Nat} {s : List α}, n ≤ s.length →
    (cutAt sep blank n true s ≠ [] ↔ (s.takeWhile blank).length < n)
  | 0, s, _ => by simp [cutAt]
  | n + 1, [], h => by simp at h
  | n + 1, x :: s, h => by
    have ih := @cutAt_true_ne_nil_iff n s (by simpa using h)
    cases hb : blank x
    · have hne : cutAt sep blank n false s ≠ [] := cutAt_false_ne_nil n s
      simp only [cutAt, hb, Bool.and_false, Bool.false_eq_true, if_false, List.takeWhile_cons]
      split
      · simp
      · simp [push_ne_nil]
    · simp only [cutAt, hb, Bool.and_self, if_true, List.takeWhile_cons, List.length_cons]
      rw [ih]
      omega

/-! What the pieces are made of. -/

theorem mem_push {c : α} {p : List α} {ps : List (List α)} (h : p ∈ push c ps) :
    (∃ q, p = c :: q ∧ (q = [] ∨ q ∈ ps)) ∨ p ∈ ps := by
  cases ps with
  | nil => exact Or.inl ⟨[], by simpa [push] using h, Or.inl rfl⟩
  | cons q ps =>
    rcases List.mem_cons.1 h with rfl | h
    · exact Or.inl ⟨q, rfl, Or.inr (by simp)⟩
    · exact Or.inr (by simp [h])

/-- The pieces hold nothing but what was cut. -/
theorem mem_of_mem_cutAt {p : List α} : ∀ {n : Nat} {skip : Bool} {s : List α},
    p ∈ cutAt sep blank n skip s → ∀ x ∈ p, x ∈ s
  | 0, skip, s, h => by
    cases skip
    · obtain rfl : p = s := by simpa [cutAt] using h
      exact fun x hx => hx
    · simp [cutAt] at h
  | _ + 1, skip, [], h => by
    cases skip
    · obtain rfl : p = [] := by simpa [cutAt] using h
      exact fun x hx => hx
    · simp [cutAt] at h
  | n + 1, skip, c :: s, h => by
    intro x hx
    rw [cutAt] at h
    split at h
    · exact List.mem_cons_of_mem c (mem_of_mem_cutAt h x hx)
    · split at h
      · rcases List.mem_cons.1 h with rfl | h
        · cases hx
        · exact List.mem_cons_of_mem c (mem_of_mem_cutAt h x hx)
      · rcases mem_push h with ⟨q, rfl, hq⟩ | h
        · rcases List.mem_cons.1 hx with rfl | hx
          · exact List.mem_cons_self
          · rcases hq with rfl | hq
            · cases hx
            · exact List.mem_cons_of_mem c (mem_of_mem_cutAt hq x hx)
        · exact List.mem_cons_of_mem c (mem_of_mem_cutAt h x hx)

theorem mem_of_mem_cut {p : List α} {skip : Bool} (h : p ∈ cut sep blank skip s) : ∀ x ∈ p, x ∈ s := by
  rw [← cutAt_of_length_le s.length skip s (le_refl _)] at h
  exact mem_of_mem_cutAt h

/-- No piece of a whole cut holds a separator. -/
theorem not_sep_of_mem_cut {p : List α} {skip : Bool} (h : p ∈ cut sep blank skip s) :
    ∀ x ∈ p, sep x = false := by
  induction s generalizing skip p with
  | nil =>
    cases skip
    · obtain rfl : p = [] := by simpa [cut] using h
      simp
    · simp [cut] at h
  | cons c s ih =>
    rw [cut] at h
    split at h
    · exact ih h
    · split at h
      · rcases List.mem_cons.1 h with rfl | h
        · simp
        · exact ih h
      · next hsep =>
        rcases mem_push h with ⟨q, rfl, hq⟩ | h
        · intro x hx
          rcases List.mem_cons.1 hx with rfl | hx
          · simpa using hsep
          · rcases hq with rfl | hq
            · cases hx
            · exact ih hq x hx
        · exact ih h

/-- With one more for each piece, the pieces are hardly longer than what was cut. -/
theorem cutAt_length (n : Nat) (skip : Bool) (s : List α) :
    ((cutAt sep blank n skip s).map fun p => p.length + 1).sum ≤ s.length + 1 := by
  induction n generalizing skip s with
  | zero => cases skip <;> simp [cutAt]
  | succ n ih =>
    cases s with
    | nil => cases skip <;> simp [cutAt]
    | cons c s =>
      rw [cutAt]
      split
      · exact Nat.le_succ_of_le (ih true s)
      · split
        · have := ih true s
          simp only [List.map_cons, List.sum_cons, List.length_cons, List.length_nil]
          omega
        · have hs := ih false s
          cases hcut : cutAt sep blank n false s with
          | nil => simp [push]
          | cons p ps =>
            rw [hcut] at hs
            simp only [push, List.map_cons, List.sum_cons, List.length_cons] at hs ⊢
            omega

theorem cut_length (skip : Bool) (s : List α) :
    ((cut sep blank skip s).map fun p => p.length + 1).sum ≤ s.length + 1 := by
  rw [← cutAt_of_length_le s.length skip s (le_refl _)]
  exact cutAt_length s.length skip s

/-- Where a cut among the first `n` finds a second piece, the first one ends at a separator
    among them. -/
theorem cutAt_head {p q : List α} {ps : List (List α)} : ∀ {n : Nat} {s : List α},
    cutAt sep blank n false s = p :: q :: ps →
      ∃ c r, s = p ++ c :: r ∧ (∀ x ∈ p, sep x = false) ∧ sep c = true ∧ p.length < n
  | 0, s, h => by simp [cutAt] at h
  | _ + 1, [], h => by simp [cutAt] at h
  | n + 1, c :: s, h => by
    simp only [cutAt, Bool.false_and, Bool.false_eq_true, if_false] at h
    split at h
    · next hsep =>
      obtain ⟨rfl, -⟩ := List.cons.inj h
      exact ⟨c, s, rfl, by simp, hsep, by simp⟩
    · next hsep =>
      have hne : cutAt sep blank n false s ≠ [] := cutAt_false_ne_nil n s
      obtain ⟨p', ps', hcut⟩ := List.exists_cons_of_ne_nil hne
      rw [hcut, push] at h
      obtain ⟨rfl, rfl⟩ := List.cons.inj h
      obtain ⟨c', r, rfl, hp, hc', hlt⟩ := cutAt_head hcut
      refine ⟨c', r, rfl, ?_, hc', by simpa using hlt⟩
      intro x hx
      rcases List.mem_cons.1 hx with rfl | hx
      · simpa using hsep
      · exact hp x hx

/-! The pieces as a split at every separator. -/

/-- All pieces but an empty last one. -/
def dropLastNil (ps : List (List α)) : List (List α) :=
  match ps.getLast? with
  | some [] => ps.dropLast
  | _ => ps

theorem dropLastNil_cons {p : List α} {ps : List (List α)} (h : ps ≠ []) :
    dropLastNil (p :: ps) = p :: dropLastNil ps := by
  obtain ⟨q, qs, rfl⟩ := List.exists_cons_of_ne_nil h
  unfold dropLastNil
  rw [List.getLast?_cons_cons]
  split <;> simp

/-- A list that meets `p` somewhere, parted at the first place it does. -/
theorem exists_first {p : α → Bool} (h : ∃ x ∈ s, p x = true) :
    ∃ w c r, s = w ++ c :: r ∧ (∀ x ∈ w, p x = false) ∧ p c = true := by
  induction s with
  | nil => simp at h
  | cons x s ih =>
    cases hx : p x
    · obtain ⟨y, hy, hpy⟩ := h
      rcases List.mem_cons.1 hy with rfl | hy
      · rw [hx] at hpy; cases hpy
      · obtain ⟨w, c, r, rfl, hw, hc⟩ := ih ⟨y, hy, hpy⟩
        exact ⟨x :: w, c, r, rfl, by simpa [hx] using hw, hc⟩
    · exact ⟨[], x, s, rfl, by simp, hx⟩

/-- Cutting after a separator: split at every separator, drop each piece's leading
    blanks, and drop the last piece when nothing is left of it. -/
theorem cut_true_eq_split (hdisj : ∀ x, sep x = true → blank x = false) : ∀ s : List α,
    cut sep blank true s = dropLastNil ((s.splitOnP sep).map (List.dropWhile blank)) := by
  intro s
  by_cases h : ∃ x ∈ s, sep x = true
  · obtain ⟨w, c, r, rfl, hw, hc⟩ := exists_first h
    have hlen : r.length < (w ++ c :: r).length := by simp; omega
    rw [cut_true_append hdisj hw hc, List.splitOnP_append_cons_of_forall_mem hw c hc, List.map_cons,
      dropLastNil_cons (by simp), cut_true_eq_split hdisj r]
  · have hw : ∀ x ∈ s, sep x = false := by
      intro x hx
      by_contra hc
      exact h ⟨x, hx, by simpa using hc⟩
    rw [List.splitOnP_eq_singleton hw, List.map_singleton]
    by_cases hne : s.dropWhile blank = []
    · rw [hne, cut_true_eq_nil (by simpa using hne)]; rfl
    · rw [cut_true_of_no_sep hw hne]
      obtain ⟨x, xs, hx⟩ := List.exists_cons_of_ne_nil hne
      simp [dropLastNil, hx]
  termination_by s => s.length

end Cut
