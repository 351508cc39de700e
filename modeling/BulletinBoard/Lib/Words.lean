import BulletinBoard.Lib.Squeeze

/- The words of a text: what stands between its blanks. Texts with the same words differ only
   in the length of their runs of blanks, and in the blanks at their ends. -/
namespace Words

variable {α : Type*} {blank : α → Bool} {s : List α} {c : α}

/-- The pieces between the blanks, without the empty ones. -/
def words (blank : α → Bool) (s : List α) : List (List α) := (s.splitOnP blank).filter fun w => !w.isEmpty

@[simp] theorem words_nil : words blank ([] : List α) = [] := rfl

theorem words_cons_blank (hc : blank c = true) (s : List α) : words blank (c :: s) = words blank s := by
  rw [words, List.splitOnP_cons_eq_if_modifyHead, if_pos hc]
  rfl

/-- A blank between two texts. -/
theorem words_append (hc : blank c = true) (a b : List α) :
    words blank (a ++ c :: b) = words blank a ++ words blank b := by
  rw [words, List.splitOnP_append_cons _ _ hc, List.filter_append]
  rfl

theorem words_word {w : List α} (hw : ∀ x ∈ w, blank x = false) (hne : w ≠ []) : words blank w = [w] := by
  rw [words, List.splitOnP_eq_singleton hw, List.filter_cons_of_pos (by simpa using hne)]
  rfl

/-- A word that a blank or the end of the text ends. -/
theorem words_word_append {w r : List α} (hw : ∀ x ∈ w, blank x = false) (hne : w ≠ [])
    (hr : ∀ c ∈ r.head?, blank c = true) : words blank (w ++ r) = w :: words blank r := by
  cases r with
  | nil => rw [List.append_nil, words_word hw hne, words_nil]
  | cons c r =>
    have hc : blank c = true := hr c rfl
    rw [words_append hc, words_word hw hne, words_cons_blank hc]
    rfl

/-- The pieces of a text that starts with no blank. -/
theorem splitOnP_cons_of_not (hc : blank c = false) {p : List α} {ps : List (List α)}
    (h : s.splitOnP blank = p :: ps) : (c :: s).splitOnP blank = (c :: p) :: ps := by
  rw [List.splitOnP_cons_eq_if_modifyHead, if_neg (by simp [hc]), h]
  rfl

/-- The words are the characters that are no blanks, in their order. -/
theorem flatten_words (s : List α) : (words blank s).flatten = s.filter fun c => !blank c := by
  have hflat : ∀ ps : List (List α), (ps.filter fun w => !w.isEmpty).flatten = ps.flatten := by
    intro ps
    induction ps with
    | nil => rfl
    | cons p ps ih => cases p <;> simp [ih]
  rw [words, hflat]
  induction s with
  | nil => rfl
  | cons c s ih =>
    cases hc : blank c with
    | true =>
      rw [List.splitOnP_cons_eq_if_modifyHead, if_pos hc, List.filter_cons_of_neg (by simp [hc]), ← ih]
      rfl
    | false =>
      obtain ⟨p, ps, h⟩ := List.exists_cons_of_ne_nil (List.splitOnP_ne_nil blank s)
      rw [splitOnP_cons_of_not hc h, List.filter_cons_of_pos (by simp [hc]), ← ih, h]
      rfl

theorem mem_words {w : List α} (h : w ∈ words blank s) (hc : c ∈ w) : c ∈ s ∧ blank c = false := by
  have hmem : c ∈ (words blank s).flatten := List.mem_flatten.2 ⟨w, h, hc⟩
  rw [flatten_words, List.mem_filter] at hmem
  exact ⟨hmem.1, by simpa using hmem.2⟩

theorem exists_word (h : c ∈ s) (hc : blank c = false) : ∃ w ∈ words blank s, c ∈ w := by
  have hmem : c ∈ (words blank s).flatten := by
    rw [flatten_words]
    exact List.mem_filter.2 ⟨h, by simp [hc]⟩
  exact List.mem_flatten.1 hmem

theorem ne_nil_of_mem_words {w : List α} (h : w ∈ words blank s) : w ≠ [] := by
  simpa using (List.mem_filter.1 h).2

/-- There is at most one word more than blanks. -/
theorem length_words_le (s : List α) : (words blank s).length ≤ s.countP blank + 1 := by
  have hsplit : (s.splitOnP blank).length = s.countP blank + 1 := by
    induction s with
    | nil => rfl
    | cons c s ih =>
      cases hc : blank c with
      | true => rw [List.splitOnP_cons_eq_if_modifyHead, if_pos hc, List.length_cons, ih, List.countP_cons_of_pos hc]
      | false =>
        obtain ⟨p, ps, h⟩ := List.exists_cons_of_ne_nil (List.splitOnP_ne_nil blank s)
        rw [splitOnP_cons_of_not hc h, List.countP_cons_of_neg (by simp [hc]), ← ih, h]
        rfl
  rw [← hsplit]
  exact List.length_filter_le _ _

/-- Cutting at the blanks themselves gives the words. -/
theorem cut_eq_words {sep : α → Bool} (h : ∀ x ∈ s, sep x = blank x) :
    Cut.cut sep blank true s = words blank s := by
  -- without a separator before it, the first piece is there even when it is empty
  have hboth : Cut.cut sep blank true s = words blank s ∧ ∀ p ps, s.splitOnP blank = p :: ps →
      Cut.cut sep blank false s = p :: ps.filter fun w => !w.isEmpty := by
    induction s with
    | nil =>
      refine ⟨rfl, fun p ps hs => ?_⟩
      obtain ⟨rfl, rfl⟩ := List.cons.inj hs
      rfl
    | cons c s ih =>
      obtain ⟨ihtrue, ihfalse⟩ := ih fun x hx => h x (by simp [hx])
      have hsep : sep c = blank c := h c (by simp)
      obtain ⟨p, ps, hsplit⟩ := List.exists_cons_of_ne_nil (List.splitOnP_ne_nil blank s)
      cases hc : blank c with
      | true =>
        refine ⟨?_, fun q qs hq => ?_⟩
        · rw [words_cons_blank hc, Cut.cut, hc]
          exact ihtrue
        · rw [List.splitOnP_cons_eq_if_modifyHead, if_pos hc] at hq
          obtain ⟨rfl, rfl⟩ := List.cons.inj hq
          rw [Cut.cut, hsep, hc]
          exact congrArg ([] :: ·) ihtrue
      | false =>
        have hcut : Cut.push c (Cut.cut sep blank false s) = (c :: p) :: ps.filter fun w => !w.isEmpty := by
          rw [ihfalse p ps hsplit]
          rfl
        refine ⟨?_, fun q qs hq => ?_⟩
        · rw [Cut.cut, hsep, hc, words, splitOnP_cons_of_not hc hsplit]
          exact hcut
        · rw [splitOnP_cons_of_not hc hsplit] at hq
          obtain ⟨rfl, rfl⟩ := List.cons.inj hq
          rw [Cut.cut, hsep, hc]
          exact hcut
  exact hboth.1

/-! Words and separators that are no blanks. -/

theorem words_dropWhile (s : List α) : words blank (s.dropWhile blank) = words blank s := by
  induction s with
  | nil => rfl
  | cons c s ih =>
    rw [List.dropWhile_cons]
    cases hc : blank c with
    | true =>
      rw [if_pos rfl, words_cons_blank hc]
      exact ih
    | false => rfl

/-- A text is a word, which may be empty, and what starts with a blank. -/
theorem exists_word_append (s : List α) :
    ∃ w r, s = w ++ r ∧ (∀ x ∈ w, blank x = false) ∧ ∀ c ∈ r.head?, blank c = true := by
  refine ⟨s.takeWhile fun c => !blank c, s.dropWhile fun c => !blank c, List.takeWhile_append_dropWhile.symm, ?_, ?_⟩
  · intro x hx
    simpa using List.mem_takeWhile_imp hx
  · intro c hc
    have h := List.head?_dropWhile_not (fun c => !blank c) s
    rw [Option.mem_def.1 hc] at h
    simpa using h

/-- When no word ends with a separator, no blank follows one. -/
theorem squeeze_words {sep : α → Bool} (hdisj : ∀ x, sep x = true → blank x = false)
    (h : ∀ w ∈ words blank s, ∀ c ∈ w.getLast?, sep c = false) :
    Cut.squeeze sep blank false s = s ∧ Cut.skips sep blank false s = false := by
  induction hn : s.length using Nat.strong_induction_on generalizing s with
  | _ n ih =>
    obtain ⟨w, r, rfl, hw, hr⟩ := @exists_word_append _ blank s
    have hskip : Cut.skips sep blank false w = false := by
      rcases List.eq_nil_or_concat w with rfl | ⟨t, c, rfl⟩
      · rfl
      · rw [List.concat_eq_append] at hw h ⊢
        rw [Cut.skips_concat (hw c (by simp))]
        rw [words_word_append hw (by simp) hr] at h
        exact h _ List.mem_cons_self c (by simp)
    rw [Cut.squeeze_append, Cut.squeeze_word false hw, Cut.skips_append, hskip]
    cases r with
    | nil => exact ⟨rfl, rfl⟩
    | cons c r =>
      have hc : blank c = true := hr c rfl
      have hsep : sep c = false := by
        by_contra hs
        rw [hdisj c (by simpa using hs)] at hc
        cases hc
      have hlt : r.length < n := by
        rw [← hn, List.length_append, List.length_cons]
        omega
      obtain ⟨hsqueeze, hskips⟩ := ih r.length hlt (fun v hv => h v (by simp [words_append hc, hv])) rfl
      rw [Cut.squeeze, Cut.skips, hsep, hsqueeze, hskips]
      exact ⟨rfl, rfl⟩

/-- At its beginning only the blanks are dropped. -/
theorem squeeze_words_true {sep : α → Bool} (hdisj : ∀ x, sep x = true → blank x = false)
    (h : ∀ w ∈ words blank s, ∀ c ∈ w.getLast?, sep c = false) (hne : ∃ c ∈ s, blank c = false) :
    Cut.squeeze sep blank true s = s.dropWhile blank ∧ Cut.skips sep blank true s = false := by
  induction s with
  | nil =>
    obtain ⟨c, hc, -⟩ := hne
    cases hc
  | cons c s ih =>
    rw [Cut.squeeze, Cut.skips, List.dropWhile_cons]
    cases hc : blank c with
    | true =>
      rw [words_cons_blank hc] at h
      obtain ⟨d, hd, hb⟩ := hne
      have hd : d ∈ s := by
        rcases List.mem_cons.1 hd with rfl | hd
        · rw [hc] at hb
          cases hb
        · exact hd
      exact ih h ⟨d, hd, hb⟩
    | false =>
      have hall := squeeze_words hdisj h
      rw [Cut.squeeze, Cut.skips] at hall
      exact hall

end Words
