import BulletinBoard.Lib.Lines

/- A cursor that takes the characters of a text of lines one by one, while the text
   changes under it. A line put at the end of the text, and a line overwritten by another
   of its length, leave the cursor where it stands: the lines that it has passed are as
   many, and what it has taken of its line is as long. What it has taken may then be older
   than the line. -/
namespace Cursors

open Lines

variable {α : Type*} {t : α} {ls : List (List α)} {l l' got : List α} {k offset n : Nat}

/-- The cursor stands in line `k`, or at the end of the text, and has taken `got` of the line. -/
structure Stands (t : α) (ls : List (List α)) (k offset : Nat) (got : List α) : Prop where
  le : k ≤ ls.length
  offset_eq : offset = (unlines t (ls.take k)).length + got.length
  got_le : ∀ l, ls[k]? = some l → got.length ≤ l.length
  got_end : ls[k]? = none → got = []

/-- The line as the cursor will have taken it, if the text does not change any more. -/
def seen (got l : List α) : List α := got ++ l.drop got.length

theorem seen_nil (l : List α) : seen [] l = l := rfl

theorem length_seen (h : got.length ≤ l.length) : (seen got l).length = l.length := by
  rw [seen, List.length_append, List.length_drop]
  omega

/-- The text around line `k`. -/
theorem unlines_split (h : ls[k]? = some l) :
    unlines t ls = unlines t (ls.take k) ++ (l ++ t :: unlines t (ls.drop (k + 1))) := by
  obtain ⟨hk, rfl⟩ := List.getElem?_eq_some_iff.1 h
  have hsplit : ls = ls.take k ++ ls[k] :: ls.drop (k + 1) := by simp
  calc unlines t ls
      _ = unlines t (ls.take k ++ ls[k] :: ls.drop (k + 1)) := by rw [← hsplit]
      _ = _ := by rw [unlines_append, unlines_cons]

theorem Stands.start : Stands t ls 0 0 [] where
  le := Nat.zero_le _
  offset_eq := rfl
  got_le := fun _ _ => Nat.zero_le _
  got_end := fun _ => rfl

/-- A character of the line. -/
theorem Stands.char (h : Stands t ls k offset got) (hl : ls[k]? = some l) (hlt : got.length < l.length) :
    (unlines t ls)[offset]? = some l[got.length] ∧ Stands t ls k (offset + 1) (got ++ [l[got.length]]) ∧
      seen (got ++ [l[got.length]]) l = seen got l := by
  refine ⟨?_, ⟨h.le, ?_, ?_, ?_⟩, ?_⟩
  · rw [unlines_split hl, h.offset_eq, List.getElem?_append_right (Nat.le_add_right _ _), Nat.add_sub_cancel_left,
      List.getElem?_append_left hlt, List.getElem?_eq_getElem hlt]
  · have := h.offset_eq
    rw [List.length_append, List.length_singleton]
    omega
  · intro x hx
    obtain rfl := Option.some.inj (hl.symm.trans hx)
    rw [List.length_append, List.length_singleton]
    omega
  · intro hnone
    rw [hl] at hnone
    cases hnone
  · rw [seen, seen, List.length_append, List.length_singleton, List.append_assoc, List.singleton_append,
      List.getElem_cons_drop]

/-- The end of the line. -/
theorem Stands.lineEnd (h : Stands t ls k offset got) (hl : ls[k]? = some l) (heq : got.length = l.length) :
    (unlines t ls)[offset]? = some t ∧ Stands t ls (k + 1) (offset + 1) [] ∧ seen got l = got := by
  obtain ⟨hk, hget⟩ := List.getElem?_eq_some_iff.1 hl
  refine ⟨?_, ⟨hk, ?_, fun _ _ => Nat.zero_le _, fun _ => rfl⟩, ?_⟩
  · rw [unlines_split hl, h.offset_eq, List.getElem?_append_right (Nat.le_add_right _ _), Nat.add_sub_cancel_left,
      List.getElem?_append_right (by omega), heq, Nat.sub_self]
    rfl
  · have htake : ls.take (k + 1) = ls.take k ++ [l] := by rw [List.take_add_one, hl]; rfl
    have hlen : (unlines t [l]).length = l.length + 1 := by simp
    have := h.offset_eq
    rw [htake, unlines_append, List.length_append, hlen, List.length_nil]
    omega
  · rw [seen, heq, List.drop_length, List.append_nil]

/-- The end of the text. -/
theorem Stands.textEnd (h : Stands t ls k offset got) (hk : ls[k]? = none) : (unlines t ls)[offset]? = none := by
  have hle : ls.length ≤ k := List.getElem?_eq_none_iff.1 hk
  have hgot : got = [] := h.got_end hk
  rw [List.getElem?_eq_none_iff, h.offset_eq, List.take_of_length_le hle, hgot]
  exact Nat.le_add_right _ _

/-- A line is put at the end. -/
theorem Stands.append (h : Stands t ls k offset got) (x : List α) : Stands t (ls ++ [x]) k offset got := by
  have hgot : ls.length ≤ k → got = [] := fun hle => h.got_end (List.getElem?_eq_none_iff.2 hle)
  refine ⟨?_, ?_, ?_, ?_⟩
  · exact Nat.le_trans h.le (by simp)
  · rw [List.take_append_of_le_length h.le]
    exact h.offset_eq
  · intro l hl
    by_cases hk : k < ls.length
    · rw [List.getElem?_append_left hk] at hl
      exact h.got_le l hl
    · rw [hgot (by omega)]
      exact Nat.zero_le _
  · intro hnone
    rw [List.getElem?_eq_none_iff, List.length_append] at hnone
    exact hgot (by omega)

theorem length_unlines_set (hn : ls[n]? = some l) (hlen : l'.length = l.length) (k : Nat) :
    (unlines t ((ls.set n l').take k)).length = (unlines t (ls.take k)).length := by
  rw [List.take_set]
  by_cases hk : n < k
  · have htake : (ls.take k)[n]? = some l := by rw [List.getElem?_take_of_lt hk, hn]
    have hset : ((ls.take k).set n l')[n]? = some l' := by
      rw [List.getElem?_set_self (List.getElem?_eq_some_iff.1 htake).1]
    rw [unlines_split htake, unlines_split hset, List.take_set_of_le (Nat.le_refl n),
      List.drop_set_of_lt (Nat.lt_succ_self n)]
    simp only [List.length_append, List.length_cons, hlen]
  · rw [List.set_eq_of_length_le]
    rw [List.length_take]
    omega

/-- A line is overwritten by another of its length. -/
theorem Stands.set (h : Stands t ls k offset got) (hn : ls[n]? = some l) (hlen : l'.length = l.length) :
    Stands t (ls.set n l') k offset got := by
  refine ⟨?_, ?_, ?_, ?_⟩
  · rw [List.length_set]
    exact h.le
  · rw [length_unlines_set hn hlen]
    exact h.offset_eq
  · intro x hx
    rw [List.getElem?_set] at hx
    split at hx
    · next hnk =>
      subst hnk
      split at hx
      · obtain rfl := Option.some.inj hx
        rw [hlen]
        exact h.got_le l hn
      · cases hx
    · exact h.got_le x hx
  · intro hnone
    apply h.got_end
    rw [List.getElem?_eq_none_iff] at hnone ⊢
    rwa [List.length_set] at hnone

end Cursors
