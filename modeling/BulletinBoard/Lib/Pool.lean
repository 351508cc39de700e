import Mathlib.Tactic

/- Threads as a list of program counters. A step replaces one entry, a wake-up changes
   several entries at once, and a new thread is appended. The rules below say what a
   property of all entries, and a count of the entries of one kind, become. -/
namespace Pool

variable {α : Type*} {l l' : List α} {i : Nat} {x y : α} {p : α → Bool}

/-- The entries after one was replaced: the new one, or one of the others. -/
theorem getElem?_set_cases {j : Nat} {z : α} (h : (l.set i x)[j]? = some z) :
    (j = i ∧ z = x) ∨ (j ≠ i ∧ l[j]? = some z) := by
  by_cases hij : j = i
  · subst hij
    rw [List.getElem?_set] at h
    by_cases hj : j < l.length
    · simp only [hj, if_true] at h
      exact Or.inl ⟨rfl, by simpa using h.symm⟩
    · simp [hj] at h
  · rw [List.getElem?_set_ne (fun he => hij he.symm)] at h
    exact Or.inr ⟨hij, h⟩

/-- The entries around the one that is replaced. -/
theorem set_split (h : l[i]? = some y) : ∃ l₁ l₂, l = l₁ ++ y :: l₂ ∧ ∀ x, l.set i x = l₁ ++ x :: l₂ := by
  obtain ⟨hi, rfl⟩ := List.getElem?_eq_some_iff.1 h
  refine ⟨l.take i, l.drop (i + 1), by simp, fun x => ?_⟩
  rw [List.set_eq_take_append_cons_drop, if_pos hi]

theorem getElem?_set_of_getElem? (h : l[i]? = some y) : (l.set i x)[i]? = some x := by
  rw [List.getElem?_set_self (List.getElem?_eq_some_iff.1 h).1]

theorem getElem?_snoc_cases {j : Nat} {z : α} (h : (l ++ [x])[j]? = some z) :
    (j = l.length ∧ z = x) ∨ l[j]? = some z := by
  rw [List.getElem?_append] at h
  split at h
  · exact Or.inr h
  · obtain ⟨hj, hz⟩ := List.getElem?_eq_some_iff.1 h
    simp only [List.length_singleton] at hj
    exact Or.inl ⟨by omega, by simpa using hz.symm⟩

/-- A property of all entries, after one was replaced. -/
theorem forall_mem_set {P : α → Prop} (hl : ∀ z ∈ l, P z) (hx : P x) : ∀ z ∈ l.set i x, P z := by
  intro z hz
  rcases List.mem_or_eq_of_mem_set hz with hz | rfl
  · exact hl z hz
  · exact hx

theorem map_set_same {β : Type*} {f : α → β} (h : l[i]? = some y) (hf : f x = f y) :
    (l.set i x).map f = l.map f := by
  obtain ⟨hi, rfl⟩ := List.getElem?_eq_some_iff.1 h
  rw [List.map_set, hf, ← List.getElem_map f (h := by simpa using hi), List.set_getElem_self]

/-- One entry replaced: the count changes by what the two entries count. -/
theorem countP_set_add (h : l[i]? = some y) :
    (l.set i x).countP p + (if p y then 1 else 0) = l.countP p + (if p x then 1 else 0) := by
  obtain ⟨hi, rfl⟩ := List.getElem?_eq_some_iff.1 h
  have hle : (if p l[i] = true then 1 else 0) ≤ l.countP p := List.boole_getElem_le_countP hi
  rw [List.countP_set hi]
  omega

theorem countP_set_same (h : l[i]? = some y) (hp : p x = p y) : (l.set i x).countP p = l.countP p := by
  have := countP_set_add (x := x) (p := p) h
  rw [hp] at this
  omega

theorem countP_set_leave (h : l[i]? = some y) (hy : p y = true) (hx : p x = false) :
    (l.set i x).countP p + 1 = l.countP p := by
  simpa [hy, hx] using countP_set_add (x := x) (p := p) h

theorem countP_set_enter (h : l[i]? = some y) (hy : p y = false) (hx : p x = true) :
    (l.set i x).countP p = l.countP p + 1 := by
  simpa [hy, hx] using countP_set_add (x := x) (p := p) h

theorem countP_set_of_not (h : l[i]? = some y) (hy : p y = false) :
    (l.set i x).countP p = l.countP p + if p x then 1 else 0 := by
  simpa [hy] using countP_set_add (x := x) (p := p) h

/-- What the entries stand for changes by what the two entries stand for. -/
theorem flatMap_set_perm {β : Type*} (f : α → List β) (h : l[i]? = some y) :
    ((l.set i x).flatMap f ++ f y).Perm (l.flatMap f ++ f x) := by
  obtain ⟨l₁, l₂, rfl, hset⟩ := set_split h
  have hsplit : ∀ z, (l₁ ++ z :: l₂).flatMap f = l₁.flatMap f ++ (f z ++ l₂.flatMap f) := by simp
  rw [hset, hsplit, hsplit]
  simp only [List.append_assoc]
  apply List.Perm.append_left
  calc f x ++ (l₂.flatMap f ++ f y)
      _ |>.Perm (f x ++ (f y ++ l₂.flatMap f)) := List.perm_append_comm.append_left _
      _ |>.Perm (f x ++ f y ++ l₂.flatMap f) := by rw [List.append_assoc]
      _ |>.Perm (f y ++ f x ++ l₂.flatMap f) := List.perm_append_comm.append_right _
      _ |>.Perm (f y ++ (f x ++ l₂.flatMap f)) := by rw [List.append_assoc]
      _ |>.Perm (f y ++ (l₂.flatMap f ++ f x)) := List.perm_append_comm.append_left _

theorem any_set_same (h : l[i]? = some y) (hp : p x = p y) : (l.set i x).any p = l.any p := by
  rw [Bool.eq_iff_iff, List.any_eq_true, List.any_eq_true, ← List.countP_pos_iff, ← List.countP_pos_iff,
    countP_set_same h hp]

/-- An entry that does not count is replaced. -/
theorem any_set_of_not (h : l[i]? = some y) (hy : p y = false) : (l.set i x).any p = (l.any p || p x) := by
  have hcount := countP_set_add (x := x) (p := p) h
  rw [Bool.eq_iff_iff, Bool.or_eq_true, List.any_eq_true, List.any_eq_true, ← List.countP_pos_iff,
    ← List.countP_pos_iff]
  simp only [hy, Bool.false_eq_true, if_false] at hcount
  by_cases hx : p x = true
  · simp only [hx, if_true] at hcount
    exact ⟨fun _ => Or.inr hx, fun _ => by omega⟩
  · simp only [hx, Bool.false_eq_true, if_false] at hcount
    rw [Nat.add_right_cancel hcount]
    simp [hx]

/-- One entry replaced in a sum over the entries. -/
theorem sum_map_set {f : α → Nat} (h : l[i]? = some y) :
    ((l.set i x).map f).sum + f y = (l.map f).sum + f x := by
  obtain ⟨l₁, l₂, rfl, hset⟩ := set_split h
  rw [hset]
  simp only [List.map_append, List.map_cons, List.sum_append, List.sum_cons]
  omega

/-- A sum whose terms grow by at most `k` each. -/
theorem sum_map_le {f : α → Nat} {g : α → α} {k : Nat} (hg : ∀ z, f (g z) ≤ f z + k) (l : List α) :
    ((l.map g).map f).sum ≤ (l.map f).sum + k * l.length := by
  induction l with
  | nil => simp
  | cons z l ih =>
    have := hg z
    simp only [List.map_cons, List.sum_cons, List.length_cons, Nat.mul_succ]
    omega

theorem sum_map_bound {f : α → Nat} {k : Nat} (hf : ∀ z, f z ≤ k) (l : List α) :
    (l.map f).sum ≤ k * l.length := by
  induction l with
  | nil => simp
  | cons z l ih =>
    have := hf z
    simp only [List.map_cons, List.sum_cons, List.length_cons, Nat.mul_succ]
    omega

/-! Several entries changed at once. -/

theorem getElem?_forall₂ {R : α → α → Prop} (h : List.Forall₂ R l l') {z : α} (hz : l'[i]? = some z) :
    ∃ w, l[i]? = some w ∧ R w z := by
  induction h generalizing i with
  | nil => simp at hz
  | cons hab _ ih =>
    cases i with
    | zero =>
      obtain rfl : _ = z := by simpa using hz
      exact ⟨_, rfl, hab⟩
    | succ i => exact ih (by simpa using hz)

theorem countP_forall₂ {R : α → α → Prop} (h : List.Forall₂ R l l')
    (hR : ∀ w z, R w z → p z = p w) : l'.countP p = l.countP p := by
  induction h with
  | nil => rfl
  | cons hab _ ih => simp only [List.countP_cons, ih, hR _ _ hab]

end Pool
