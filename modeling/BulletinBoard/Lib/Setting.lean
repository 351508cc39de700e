import Mathlib.Data.List.Basic

/- Settings in a run over records. A step takes one record and may be undefined; a run is
   `List.foldlM` in `Option`. Under one rule the first record that offers a value sets it and the
   later ones find it set (`First`), under the other every record that offers one sets it again
   (`Last`). -/
namespace Setting

variable {σ ρ α : Type*} {step : σ → ρ → Option σ} {get : σ → α} {unset set : σ → Prop} {offer : ρ → Option α}
variable {s s' : σ} {r : ρ} {rs : List ρ}

theorem foldlM_cons_eq_some : (r :: rs).foldlM step s = some s' ↔
    ∃ t, step s r = some t ∧ rs.foldlM step t = some s' := by
  rw [List.foldlM_cons]
  exact Option.bind_eq_some_iff

/-- What a run does first is a run. -/
theorem foldlM_initial {qs : List ρ} (h : rs <+: qs) (hrun : qs.foldlM step s = some s') :
    ∃ t, rs.foldlM step s = some t := by
  obtain ⟨more, rfl⟩ := h
  rw [List.foldlM_append] at hrun
  obtain ⟨t, ht, -⟩ := Option.bind_eq_some_iff.1 hrun
  exact ⟨t, ht⟩

/-- The first offer is taken, and kept. -/
structure First (step : σ → ρ → Option σ) (get : σ → α) (unset set : σ → Prop) (offer : ρ → Option α) : Prop where
  take : ∀ {s s' r a}, step s r = some s' → unset s → offer r = some a → get s' = a ∧ set s'
  pass : ∀ {s s' r}, step s r = some s' → unset s → offer r = none → get s' = get s ∧ unset s'
  keep : ∀ {s s' r}, step s r = some s' → set s → get s' = get s ∧ set s'

/-- Only some records bear on the setting, and only those offer values. -/
theorem First.of_own (own : ρ → Prop)
    (hframe : ∀ {s s' r}, step s r = some s' → ¬ own r → get s' = get s ∧ (unset s → unset s') ∧ (set s → set s'))
    (htake : ∀ {s s' r a}, step s r = some s' → unset s → offer r = some a → get s' = a ∧ set s')
    (hpass : ∀ {s s' r}, step s r = some s' → own r → unset s ∧ offer r = none ∨ set s → s' = s) :
    First step get unset set offer := by
  have hkept : ∀ {s s' r}, step s r = some s' → (own r → unset s ∧ offer r = none ∨ set s) →
      get s' = get s ∧ (unset s → unset s') ∧ (set s → set s') := by
    intro s s' r hstep hown
    by_cases h : own r
    · rw [hpass hstep h (hown h)]
      exact ⟨rfl, id, id⟩
    · exact hframe hstep h
  refine ⟨htake, fun hstep hs hnone => ?_, fun hstep hs => ?_⟩
  · obtain ⟨hget, hunset, -⟩ := hkept hstep fun _ => Or.inl ⟨hs, hnone⟩
    exact ⟨hget, hunset hs⟩
  · obtain ⟨hget, -, hset⟩ := hkept hstep fun _ => Or.inr hs
    exact ⟨hget, hset hs⟩

theorem First.run_set (h : First step get unset set offer) (hrun : rs.foldlM step s = some s') (hs : set s) :
    get s' = get s ∧ set s' := by
  induction rs generalizing s with
  | nil =>
    obtain rfl := Option.some.inj hrun
    exact ⟨rfl, hs⟩
  | cons r rs ih =>
    obtain ⟨t, hstep, hrest⟩ := foldlM_cons_eq_some.1 hrun
    obtain ⟨hget, hset⟩ := h.keep hstep hs
    obtain ⟨hget', hset'⟩ := ih hrest hset
    exact ⟨hget'.trans hget, hset'⟩

/-- From an open setting a run leads to an open one or a set one. -/
theorem First.run_or (h : First step get unset set offer) (hrun : rs.foldlM step s = some s') (hs : unset s) :
    unset s' ∨ set s' := by
  induction rs generalizing s with
  | nil =>
    obtain rfl := Option.some.inj hrun
    exact Or.inl hs
  | cons r rs ih =>
    obtain ⟨t, hstep, hrest⟩ := foldlM_cons_eq_some.1 hrun
    cases hoffer : offer r with
    | some a =>
      obtain ⟨-, hset⟩ := h.take hstep hs hoffer
      exact Or.inr (h.run_set hrest hset).2
    | none =>
      obtain ⟨-, hunset⟩ := h.pass hstep hs hoffer
      exact ih hrest hunset

/-- **First wins.** -/
theorem First.run (h : First step get unset set offer) (hrun : rs.foldlM step s = some s') (hs : unset s) :
    get s' = (rs.findSome? offer).getD (get s) := by
  induction rs generalizing s with
  | nil =>
    obtain rfl := Option.some.inj hrun
    rfl
  | cons r rs ih =>
    obtain ⟨t, hstep, hrest⟩ := foldlM_cons_eq_some.1 hrun
    rw [List.findSome?_cons]
    cases hoffer : offer r with
    | some a =>
      obtain ⟨hget, hset⟩ := h.take hstep hs hoffer
      exact (h.run_set hrest hset).1.trans hget
    | none =>
      obtain ⟨hget, hunset⟩ := h.pass hstep hs hoffer
      rw [ih hrest hunset, hget]

/-- Every offer is taken. -/
def Last (step : σ → ρ → Option σ) (get : σ → α) (offer : ρ → Option α) : Prop :=
  ∀ {s s' r}, step s r = some s' → get s' = (offer r).getD (get s)

/-- **Last wins.** -/
theorem Last.run (h : Last step get offer) (hrun : rs.foldlM step s = some s') :
    get s' = (rs.reverse.findSome? offer).getD (get s) := by
  induction rs generalizing s with
  | nil =>
    obtain rfl := Option.some.inj hrun
    rfl
  | cons r rs ih =>
    obtain ⟨t, hstep, hrest⟩ := foldlM_cons_eq_some.1 hrun
    rw [ih hrest, h hstep, List.reverse_cons, List.findSome?_append, List.findSome?_singleton]
    cases rs.reverse.findSome? offer with
    | none => rfl
    | some a => rfl

/-- A run whose steps are defined by the record alone. -/
theorem isSome_foldlM {ok : ρ → Prop} (hok : ∀ s r, (step s r).isSome ↔ ok r) :
    (rs.foldlM step s).isSome ↔ ∀ r ∈ rs, ok r := by
  induction rs generalizing s with
  | nil => exact ⟨fun _ => by simp, fun _ => rfl⟩
  | cons r rs ih =>
    rw [List.foldlM_cons, List.forall_mem_cons, ← hok s r]
    cases hstep : step s r with
    | none => simp
    | some t =>
      rw [← @ih t]
      simp

end Setting
