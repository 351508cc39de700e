import BulletinBoard.Lib.Cut

/- The pieces of a cut joined again. Between the separators nothing is lost but the blanks
   that follow them (`squeeze`), and a separator that nothing follows. `skips` says how a
   text ends: whether nothing but blanks has come since its last separator. -/
namespace Cut

variable {α : Type*} {sep blank : α → Bool} {s w : List α} {c t : α}

/-- The text without the blanks that follow a separator. -/
def squeeze (sep blank : α → Bool) : Bool → List α → List α
  | _, [] => []
  | skip, c :: s => if skip && blank c then squeeze sep blank true s else c :: squeeze sep blank (sep c) s

/-- Nothing but blanks has come since the last separator. -/
def skips (sep blank : α → Bool) : Bool → List α → Bool
  | skip, [] => skip
  | skip, c :: s => if skip && blank c then skips sep blank true s else skips sep blank (sep c) s

theorem skips_append (skip : Bool) (a b : List α) :
    skips sep blank skip (a ++ b) = skips sep blank (skips sep blank skip a) b := by
  induction a generalizing skip with
  | nil => rfl
  | cons c a ih =>
    rw [List.cons_append, skips, skips]
    split
    · exact ih true
    · exact ih (sep c)

/-- The last element decides when it is no blank. -/
theorem skips_concat (hc : blank c = false) (skip : Bool) (s : List α) :
    skips sep blank skip (s ++ [c]) = sep c := by
  rw [skips_append, skips, hc, Bool.and_false, if_neg (by decide)]
  rfl

/-- Blanks at the end change nothing. -/
theorem skips_append_blanks (hdisj : ∀ x, sep x = true → blank x = false) (skip : Bool) (s : List α) {bs : List α}
    (hbs : ∀ x ∈ bs, blank x = true) : skips sep blank skip (s ++ bs) = skips sep blank skip s := by
  rw [skips_append]
  induction bs with
  | nil => rfl
  | cons c bs ih =>
    have hc : blank c = true := hbs c (by simp)
    have hsep : sep c = false := Bool.eq_false_iff.2 fun h => by rw [hdisj c h] at hc; cases hc
    have ih := ih fun x hx => hbs x (by simp [hx])
    rw [skips, hc, hsep]
    cases h : skips sep blank skip s with
    | true =>
      rw [h] at ih
      exact ih
    | false =>
      rw [h] at ih
      exact ih

/-- The last separator of a text that ends behind one. -/
theorem exists_last (hdisj : ∀ x, sep x = true → blank x = false) (h : skips sep blank true s = true)
    (hs : ∃ x ∈ s, blank x = false) :
    ∃ a c bs, s = a ++ c :: bs ∧ sep c = true ∧ ∀ x ∈ bs, blank x = true := by
  induction s using List.reverseRecOn with
  | nil => simp at hs
  | append_singleton s c ih =>
    cases hc : blank c with
    | false =>
      rw [skips_concat hc] at h
      exact ⟨s, c, [], rfl, h, by simp⟩
    | true =>
      rw [skips_append_blanks hdisj true s (by simpa using hc)] at h
      have hs' : ∃ x ∈ s, blank x = false := by
        obtain ⟨x, hx, hb⟩ := hs
        rcases List.mem_append.1 hx with hx | hx
        · exact ⟨x, hx, hb⟩
        · obtain rfl := List.mem_singleton.1 hx
          rw [hc] at hb
          cases hb
      obtain ⟨a, d, bs, rfl, hd, hbs⟩ := ih h hs'
      refine ⟨a, d, bs ++ [c], by simp, hd, fun x hx => ?_⟩
      rcases List.mem_append.1 hx with hx | hx
      · exact hbs x hx
      · rw [List.mem_singleton.1 hx]
        exact hc

theorem squeeze_append (skip : Bool) (a b : List α) :
    squeeze sep blank skip (a ++ b) = squeeze sep blank skip a ++ squeeze sep blank (skips sep blank skip a) b := by
  induction a generalizing skip with
  | nil => rfl
  | cons c a ih =>
    rw [List.cons_append, squeeze, squeeze, skips]
    split
    · exact ih true
    · rw [ih (sep c), List.cons_append]

/-- A word without blanks stays whole. -/
theorem squeeze_word (skip : Bool) (hw : ∀ x ∈ w, blank x = false) : squeeze sep blank skip w = w := by
  induction w generalizing skip with
  | nil => rw [squeeze]
  | cons c w ih =>
    have hc : blank c = false := hw c (by simp)
    rw [squeeze, hc, Bool.and_false, if_neg (by decide), ih _ fun x hx => hw x (by simp [hx])]

/-- With no separator in the text, only blanks at its beginning are dropped. -/
theorem squeeze_of_no_sep (hw : ∀ x ∈ w, sep x = false) :
    squeeze sep blank true w = w.dropWhile blank ∧ squeeze sep blank false w = w := by
  induction w with
  | nil => exact ⟨rfl, rfl⟩
  | cons c w ih =>
    have hc : sep c = false := hw c (by simp)
    obtain ⟨hskip, hkeep⟩ := ih fun x hx => hw x (by simp [hx])
    constructor
    · rw [squeeze, List.dropWhile_cons, Bool.true_and, hc, hskip, hkeep]
    · rw [squeeze, Bool.false_and, if_neg (by decide), hc, hkeep]

theorem squeeze_sublist (skip : Bool) (s : List α) : (squeeze sep blank skip s).Sublist s := by
  induction s generalizing skip with
  | nil => exact List.Sublist.refl _
  | cons c s ih =>
    rw [squeeze]
    split
    · exact (ih true).cons c
    · exact (ih (sep c)).cons_cons c

/-- Nothing but blanks is dropped. -/
theorem filter_squeeze (skip : Bool) (s : List α) :
    (squeeze sep blank skip s).filter (fun c => !blank c) = s.filter fun c => !blank c := by
  induction s generalizing skip with
  | nil => rfl
  | cons c s ih =>
    rw [squeeze]
    split
    · next h =>
      have hb : blank c = true := (Bool.and_eq_true_iff.1 h).2
      rw [ih, List.filter_cons_of_neg (by simp [hb])]
    · rw [List.filter_cons, List.filter_cons, ih]

/-- What was dropped is not missed: neither by another pass, nor by a cut. -/
theorem squeeze_squeeze_append (skip : Bool) (a b : List α) :
    squeeze sep blank skip (squeeze sep blank skip a ++ b) = squeeze sep blank skip (a ++ b) ∧
      skips sep blank skip (squeeze sep blank skip a) = skips sep blank skip a := by
  induction a generalizing skip with
  | nil => exact ⟨rfl, rfl⟩
  | cons c a ih =>
    rw [squeeze, skips, List.cons_append]
    split
    · next h =>
      obtain ⟨hsqueeze, hskips⟩ := ih true
      have hskip : skip = true := (Bool.and_eq_true_iff.1 h).1
      rw [squeeze, if_pos h, hskip]
      exact ⟨hsqueeze, hskips⟩
    · next h =>
      obtain ⟨hsqueeze, hskips⟩ := ih (sep c)
      rw [List.cons_append, squeeze, if_neg h, squeeze, if_neg h, hsqueeze, skips, if_neg h]
      exact ⟨rfl, hskips⟩

theorem squeeze_squeeze (skip : Bool) (s : List α) :
    squeeze sep blank skip (squeeze sep blank skip s) = squeeze sep blank skip s := by
  have h := (@squeeze_squeeze_append _ sep blank skip s []).1
  rwa [List.append_nil, List.append_nil] at h

/-- What has been squeezed stays as it is, from its beginning up to any place. -/
theorem squeeze_prefix {skip : Bool} {a b : List α} (h : squeeze sep blank skip s = a ++ b) :
    squeeze sep blank skip a = a := by
  have hall := @squeeze_squeeze _ sep blank skip s
  rw [h, squeeze_append] at hall
  have hlen := congrArg List.length hall
  have ha := @squeeze_sublist _ sep blank skip a
  have hb := (@squeeze_sublist _ sep blank (skips sep blank skip a) b).length_le
  rw [List.length_append, List.length_append] at hlen
  exact ha.eq_of_length (le_antisymm ha.length_le (by omega))

theorem cut_squeeze (skip : Bool) (s : List α) :
    cut sep blank skip (squeeze sep blank skip s) = cut sep blank skip s := by
  induction s generalizing skip with
  | nil => rfl
  | cons c s ih =>
    rw [squeeze, cut]
    split
    · next h =>
      have hskip : skip = true := (Bool.and_eq_true_iff.1 h).1
      rw [hskip]
      exact ih true
    · next h =>
      rw [cut, if_neg h]
      cases hsep : sep c with
      | true => rw [if_pos rfl, if_pos rfl, ih]
      | false => rw [if_neg (by decide), if_neg (by decide), ih]

/-- A text that ends behind a separator ends with it, when anything is left of the text. -/
theorem squeeze_of_skips {skip : Bool} (h : skips sep blank skip s = true) :
    squeeze sep blank skip s = [] ∧ skip = true ∨ ∃ q c, squeeze sep blank skip s = q ++ [c] ∧ sep c = true := by
  induction s generalizing skip with
  | nil => exact Or.inl ⟨rfl, h⟩
  | cons c s ih =>
    rw [skips] at h
    rw [squeeze]
    split at h
    · next hskip =>
      rw [if_pos hskip, (Bool.and_eq_true_iff.1 hskip).1]
      exact ih h
    · next hskip =>
      rw [if_neg hskip]
      right
      rcases ih h with ⟨hnil, hsep⟩ | ⟨q, c', hq, hsep⟩
      · exact ⟨[], c, by rw [hnil]; rfl, hsep⟩
      · exact ⟨c :: q, c', by rw [hq]; rfl, hsep⟩

/-- Nothing is left after a separator exactly when there is no piece. -/
theorem squeeze_take_eq_nil_iff (n : Nat) (s : List α) :
    squeeze sep blank true (s.take n) = [] ↔ cutAt sep blank n true s = [] := by
  induction n generalizing s with
  | zero => simp [squeeze, cutAt]
  | succ n ih =>
    cases s with
    | nil => simp [squeeze, cutAt]
    | cons c s =>
      rw [List.take_succ_cons]
      cases hb : blank c with
      | false =>
        have hcut : cutAt sep blank (n + 1) true (c :: s) ≠ [] := by
          rw [cutAt, hb, if_neg (by decide)]
          split
          · exact List.cons_ne_nil _ _
          · exact push_ne_nil _ _
        simp [squeeze, hb, hcut]
      | true => simpa [squeeze, cutAt, hb] using ih s

theorem squeeze_eq_nil_iff : squeeze sep blank true s = [] ↔ cut sep blank true s = [] := by
  have h := @squeeze_take_eq_nil_iff _ sep blank s.length s
  rwa [List.take_length, cutAt_of_length_le _ _ _ (le_refl _)] at h

theorem skips_of_squeeze_eq_nil (h : squeeze sep blank true s = []) : skips sep blank true s = true := by
  induction s with
  | nil => rfl
  | cons c s ih =>
    cases hb : blank c with
    | false => simp [squeeze, hb] at h
    | true =>
      rw [skips, hb]
      exact ih (by simpa [squeeze, hb] using h)

theorem squeeze_ne_nil_of_skips (h : skips sep blank false s = true) : squeeze sep blank false s ≠ [] := by
  cases s with
  | nil => cases h
  | cons c s => simp [squeeze]

/-- The pieces of a cut joined by the separator. What is behind the first `n` elements belongs to
    the piece that is open there. -/
theorem intercalate_cutAt (ht : ∀ c, sep c = true → c = t) (n : Nat) (skip : Bool) (s : List α) :
    [t].intercalate (cutAt sep blank n skip s) =
      if skips sep blank skip (s.take n) then (squeeze sep blank skip (s.take n)).dropLast
      else squeeze sep blank skip (s.take n) ++ s.drop n := by
  induction n generalizing skip s with
  | zero => cases skip <;> simp [cutAt, skips, squeeze]
  | succ n ih =>
    cases s with
    | nil => cases skip <;> simp [cutAt, skips, squeeze]
    | cons c s =>
      rw [cutAt, List.take_succ_cons, List.drop_succ_cons, squeeze, skips]
      split
      · exact ih true s
      · cases hsep : sep c with
        | true =>
          obtain rfl := ht c hsep
          have ih := ih true s
          simp only [if_true]
          cases hcut : cutAt sep blank n true s with
          | nil =>
            have hnil := (squeeze_take_eq_nil_iff n s).2 hcut
            rw [hnil, skips_of_squeeze_eq_nil hnil]
            rfl
          | cons p ps =>
            have hne : squeeze sep blank true (s.take n) ≠ [] := by
              rw [ne_eq, squeeze_take_eq_nil_iff, hcut]
              exact List.cons_ne_nil p ps
            rw [hcut] at ih
            rw [List.intercalate_cons_cons, ih]
            split
            · rw [List.dropLast_cons_of_ne_nil hne]; rfl
            · rfl
        | false =>
          have hne : cutAt sep blank n false s ≠ [] := cutAt_false_ne_nil n s
          obtain ⟨p, ps, hcut⟩ := List.exists_cons_of_ne_nil hne
          have ih := ih false s
          rw [hcut] at ih
          have hpush : [t].intercalate (push c (p :: ps)) = c :: [t].intercalate (p :: ps) := by
            cases ps <;> simp [push]
          rw [hcut, if_neg (by decide), hpush, ih]
          split
          · next hskip => rw [List.dropLast_cons_of_ne_nil (squeeze_ne_nil_of_skips hskip)]
          · rfl

theorem intercalate_cut (ht : ∀ c, sep c = true → c = t) (skip : Bool) (s : List α) :
    [t].intercalate (cut sep blank skip s) =
      if skips sep blank skip s then (squeeze sep blank skip s).dropLast else squeeze sep blank skip s := by
  have h := @intercalate_cutAt _ sep blank t ht s.length skip s
  rwa [List.take_length, List.drop_length, List.append_nil, cutAt_of_length_le _ _ _ (le_refl _)] at h

/-- A separator in the middle makes two pieces, when there is something behind it. -/
theorem two_le_length_cut (hc : sep c = true) (hb : blank c = false) (hs : cut sep blank true s ≠ [])
    (skip : Bool) (w : List α) : 2 ≤ (cut sep blank skip (w ++ c :: s)).length := by
  have hpos : 1 ≤ (cut sep blank true s).length := List.length_pos_of_ne_nil hs
  induction w generalizing skip with
  | nil => simpa [cut, hc, hb] using hpos
  | cons x w ih =>
    rw [List.cons_append, cut]
    split
    · exact ih true
    · split
      · exact Nat.le_succ_of_le (ih true)
      · have h := ih false
        cases hcut : cut sep blank false (w ++ c :: s) with
        | nil => rw [hcut] at h; simp at h
        | cons p ps => rw [hcut] at h; simpa [push] using h

/-- A cut that goes on behind an element of another kind: that element is in the piece that is
    open there, or opens one. -/
theorem cutAt_past (ht : ∀ c, sep c = true → c = t) {z : α} (hz : sep z = false) (hb : blank z = false) (j : Nat)
    (b : List α) : ∀ (skip : Bool) (a : List α), ∃ ps p q qs, cutAt sep blank j false b = q :: qs ∧
      cutAt sep blank (a.length + 1 + j) skip (a ++ z :: b) = ps ++ (p ++ z :: q) :: qs ∧
      [t].intercalate (ps ++ [p]) = squeeze sep blank skip a ∧ ∀ x ∈ ps ++ [p], ∀ c ∈ x, c ∈ a := by
  intro skip a
  induction a generalizing skip with
  | nil =>
    obtain ⟨q, qs, hcut⟩ := List.exists_cons_of_ne_nil (@cutAt_false_ne_nil _ sep blank j b)
    refine ⟨[], [], q, qs, hcut, ?_, by simp [squeeze], by simp⟩
    have hlen : ([] : List α).length + 1 + j = j + 1 := by simp [Nat.add_comm]
    rw [hlen, List.nil_append, cutAt, hb, hz, hcut]
    simp [push]
  | cons c a ih =>
    have hlen : (c :: a).length + 1 + j = (a.length + 1 + j) + 1 := by
      rw [List.length_cons]
      omega
    rw [hlen, List.cons_append, cutAt, squeeze]
    split
    · obtain ⟨ps, p, q, qs, hcut, hpieces, hjoin, hmem⟩ := ih true
      exact ⟨ps, p, q, qs, hcut, hpieces, hjoin, fun x hx d hd => List.mem_cons_of_mem c (hmem x hx d hd)⟩
    · cases hsep : sep c with
      | true =>
        obtain rfl := ht c hsep
        obtain ⟨ps, p, q, qs, hcut, hpieces, hjoin, hmem⟩ := ih true
        refine ⟨[] :: ps, p, q, qs, hcut, by rw [hpieces]; rfl, ?_, ?_⟩
        · obtain ⟨r, rs, hr⟩ := List.exists_cons_of_ne_nil (List.append_ne_nil_of_right_ne_nil ps (List.cons_ne_nil p []))
          rw [hr] at hjoin
          rw [List.cons_append, hr, List.intercalate_cons_cons, hjoin]
          rfl
        · intro x hx d hd
          rcases List.mem_cons.1 hx with rfl | hx
          · cases hd
          · exact List.mem_cons_of_mem _ (hmem x hx d hd)
      | false =>
        obtain ⟨ps, p, q, qs, hcut, hpieces, hjoin, hmem⟩ := ih false
        have hmem' : ∀ x ∈ ps ++ [p], ∀ d ∈ x, d ∈ c :: a := fun x hx d hd => List.mem_cons_of_mem c (hmem x hx d hd)
        rw [if_neg (by decide), hpieces]
        cases ps with
        | nil =>
          refine ⟨[], c :: p, q, qs, hcut, rfl, ?_, ?_⟩
          · rw [← hjoin]
            simp
          · intro x hx d hd
            obtain rfl : x = c :: p := by simpa using hx
            rcases List.mem_cons.1 hd with rfl | hd
            · exact List.mem_cons_self
            · exact hmem' p (by simp) d hd
        | cons r rs =>
          refine ⟨(c :: r) :: rs, p, q, qs, hcut, rfl, ?_, ?_⟩
          · rw [← hjoin]
            cases rs <;> simp
          · intro x hx d hd
            rcases List.mem_cons.1 hx with rfl | hx
            · rcases List.mem_cons.1 hd with rfl | hd
              · exact List.mem_cons_self
              · exact hmem' r (by simp) d hd
            · exact hmem' x (List.mem_cons_of_mem r hx) d hd

end Cut
