import Mathlib.Tactic

/- Loops that are left from the middle. A round, from the values of the variables,
   goes on with new values or leaves with a result. The end of the loop comes from a
   measure that every round which goes on lowers, and the measure bounds the rounds;
   what holds of the result comes from what these rounds keep. -/
namespace Loops

variable {σ ρ : Type*} {round : σ → σ ⊕ ρ}

/-- From `s` the loop goes on for `n` rounds and then leaves with `r`. -/
inductive Leaves (round : σ → σ ⊕ ρ) : σ → Nat → ρ → Prop where
  | leave {s : σ} {r : ρ} : round s = .inr r → Leaves round s 0 r
  | goOn {s s' : σ} {n : Nat} {r : ρ} : round s = .inl s' → Leaves round s' n r → Leaves round s (n + 1) r

/-- The variables determine the rounds and the result. -/
theorem Leaves.unique {s : σ} {n n' : Nat} {r r' : ρ} (h : Leaves round s n r)
    (h' : Leaves round s n' r') : n = n' ∧ r = r' := by
  induction h generalizing n' with
  | leave hr =>
    cases h' with
    | leave hr' => exact ⟨rfl, Sum.inr.inj (hr.symm.trans hr')⟩
    | goOn hs _ => rw [hr] at hs; cases hs
  | goOn hs _ ih =>
    cases h' with
    | leave hr => rw [hs] at hr; cases hr
    | goOn hs' h' =>
      obtain rfl := Sum.inl.inj (hs.symm.trans hs')
      obtain ⟨rfl, rfl⟩ := ih h'
      exact ⟨rfl, rfl⟩

/-- **The measure rule.** -/
theorem leaves_of_measure (μ : σ → Nat) (hμ : ∀ s s', round s = .inl s' → μ s' < μ s) (s : σ) :
    ∃ n r, n ≤ μ s ∧ Leaves round s n r := by
  -- by strong induction on the measure
  generalize hm : μ s = m
  induction m using Nat.strongRecOn generalizing s with
  | _ m ih =>
    cases hs : round s with
    | inr r => exact ⟨0, r, Nat.zero_le m, .leave hs⟩
    | inl s' =>
      have hlt : μ s' < m := hm ▸ hμ s s' hs
      obtain ⟨n, r, hn, h⟩ := ih (μ s') hlt s' rfl
      exact ⟨n + 1, r, by omega, .goOn hs h⟩

/-- **The invariant rule.** What holds at the start and is kept by the rounds that go on holds when
    the loop leaves. -/
theorem Leaves.post {Inv : σ → Prop} {Post : ρ → Prop}
    (hgoes : ∀ s s', Inv s → round s = .inl s' → Inv s') (hleaves : ∀ s r, Inv s → round s = .inr r → Post r)
    {s : σ} {n : Nat} {r : ρ} (h : Leaves round s n r) (h₀ : Inv s) : Post r := by
  induction h with
  | leave hr => exact hleaves _ _ h₀ hr
  | goOn hs _ ih => exact ih (hgoes _ _ h₀ hs)

/-- With a measure and an invariant the loop ends, and well. -/
theorem leaves_post (μ : σ → Nat) {Inv : σ → Prop} {Post : ρ → Prop}
    (hμ : ∀ s s', round s = .inl s' → μ s' < μ s) (hgoes : ∀ s s', Inv s → round s = .inl s' → Inv s')
    (hleaves : ∀ s r, Inv s → round s = .inr r → Post r) {s : σ} (h₀ : Inv s) :
    ∃ n r, n ≤ μ s ∧ Leaves round s n r ∧ Post r := by
  obtain ⟨n, r, hn, h⟩ := leaves_of_measure μ hμ s
  exact ⟨n, r, hn, h, h.post hgoes hleaves h₀⟩

end Loops
