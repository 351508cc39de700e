import Mathlib.Tactic

/- Sequences of calls on a state. A call gives an output and a next state, or does not
   return; a sequence gives the outputs one after another. Two systems that a relation
   keeps in step give the same outputs over whole sequences, also when one of them makes
   calls in between that the other does not. The relation may speak of the calls that
   are still to come, and so carries what is assumed of them. -/
namespace Calls

variable {α β σ τ : Type*} {f : α → σ → Option (List β × σ)} {g : α → τ → Option (List β × τ)}

/-- The calls of a list, one after another. -/
def run (f : α → σ → Option (List β × σ)) : List α → σ → Option (List β × σ)
  | [], s => some ([], s)
  | a :: as, s =>
    match f a s with
    | none => none
    | some (o, s') => (run f as s').map fun r => (o ++ r.1, r.2)

@[simp] theorem run_nil (s : σ) : run f [] s = some ([], s) := rfl

theorem run_cons {a : α} {as : List α} {s s' s'' : σ} {o o' : List β} (h : f a s = some (o, s'))
    (h' : run f as s' = some (o', s'')) : run f (a :: as) s = some (o ++ o', s'') := by
  rw [run, h]
  dsimp only
  rw [h']
  rfl

/-- The calls of two lists, after one another. -/
theorem run_append {as bs : List α} {s s' s'' : σ} {o o' : List β} (h : run f as s = some (o, s'))
    (h' : run f bs s' = some (o', s'')) : run f (as ++ bs) s = some (o ++ o', s'') := by
  induction as generalizing s o with
  | nil =>
    obtain ⟨rfl, rfl⟩ := Prod.mk.inj (Option.some.inj h)
    exact h'
  | cons a as ih =>
    rw [run] at h
    cases ha : f a s with
    | none => rw [ha] at h; cases h
    | some r =>
      obtain ⟨o₁, s₁⟩ := r
      rw [ha] at h
      obtain ⟨r₂, h₂, he⟩ := Option.map_eq_some_iff.1 h
      obtain ⟨rfl, rfl⟩ := Prod.mk.inj he
      rw [List.append_assoc]
      exact run_cons ha (ih h₂)

/-- What a call at the end of a list starts from. -/
theorem run_snoc {as : List α} {a : α} {s s' s'' : σ} {o o' : List β} (h : run f as s = some (o, s'))
    (h' : f a s' = some (o', s'')) : run f (as ++ [a]) s = some (o ++ o', s'') := by
  have hlast : run f [a] s' = some (o', s'') := by
    simpa using run_cons h' (run_nil s'')
  exact run_append h hlast

/-- **The simulation rule.** The second system makes every call, the first only those of
    `p`. When the relation is kept by the calls of both, with the same output, and by a call
    of the second alone, with none, the outputs are the same. -/
theorem run_filter {p : α → Bool} {R : List α → σ → τ → Prop}
    (hboth : ∀ a as s t, p a = true → R (a :: as) s t →
      ∃ o s' t', f a s = some (o, s') ∧ g a t = some (o, t') ∧ R as s' t')
    (hextra : ∀ a as s t, p a = false → R (a :: as) s t → ∃ t', g a t = some ([], t') ∧ R as s t') :
    ∀ {as : List α} {s : σ} {t : τ}, R as s t →
      ∃ o s' t', run f (as.filter p) s = some (o, s') ∧ run g as t = some (o, t') ∧ R [] s' t' := by
  intro as
  induction as with
  | nil =>
    intro s t h
    exact ⟨[], s, t, rfl, rfl, h⟩
  | cons a as ih =>
    intro s t h
    cases hp : p a with
    | true =>
      obtain ⟨o, s₁, t₁, hf, hg, h₁⟩ := hboth a as s t hp h
      obtain ⟨o', s₂, t₂, hf', hg', h₂⟩ := ih h₁
      refine ⟨o ++ o', s₂, t₂, ?_, run_cons hg hg', h₂⟩
      rw [List.filter_cons_of_pos hp]
      exact run_cons hf hf'
    | false =>
      obtain ⟨t₁, hg, h₁⟩ := hextra a as s t hp h
      obtain ⟨o', s₂, t₂, hf', hg', h₂⟩ := ih h₁
      refine ⟨o', s₂, t₂, ?_, run_cons hg hg', h₂⟩
      rw [List.filter_cons_of_neg (by simp [hp])]
      exact hf'

/-- The rule for two systems that make the same calls. -/
theorem run_both {R : List α → σ → τ → Prop}
    (hboth : ∀ a as s t, R (a :: as) s t →
      ∃ o s' t', f a s = some (o, s') ∧ g a t = some (o, t') ∧ R as s' t')
    {as : List α} {s : σ} {t : τ} (h : R as s t) :
    ∃ o s' t', run f as s = some (o, s') ∧ run g as t = some (o, t') ∧ R [] s' t' := by
  have hnone : ∀ a as s t, (fun _ : α => true) a = false → R (a :: as) s t →
      ∃ t', g a t = some ([], t') ∧ R as s t' := by
    intro a as s t hf
    cases hf
  obtain ⟨o, s', t', hf, hg, h'⟩ :=
    run_filter (p := fun _ => true) (fun a as s t _ => hboth a as s t) hnone h
  refine ⟨o, s', t', ?_, hg, h'⟩
  rwa [List.filter_true] at hf

end Calls
