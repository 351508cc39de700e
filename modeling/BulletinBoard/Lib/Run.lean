import Mathlib.Tactic

/- Finite runs of a labelled transition system. A run's trace lists, for each
   step, the state before it and its label, so that a condition on the steps of a
   run is a condition on the members of its trace. The rules below turn what one
   step preserves into what a run preserves; a step may be assumed to meet a guard
   `ok` on the state before it. -/
namespace Runs

variable {σ α : Type*} {step : σ → α → σ → Prop} {s₀ s s' : σ} {tr tr' : List (σ × α)}

/-- A run from `s₀`, longest last. -/
inductive Run (step : σ → α → σ → Prop) (s₀ : σ) : List (σ × α) → σ → Prop where
  | nil : Run step s₀ [] s₀
  | snoc {tr : List (σ × α)} {s s' : σ} {a : α} :
      Run step s₀ tr s → step s a s' → Run step s₀ (tr ++ [(s, a)]) s'

/-- Every step of the trace meets `ok`. -/
def Guarded (ok : σ → α → Prop) (tr : List (σ × α)) : Prop := ∀ p ∈ tr, ok p.1 p.2

theorem Guarded.init {ok : σ → α → Prop} {p : σ × α} (h : Guarded ok (tr ++ [p])) : Guarded ok tr :=
  fun q hq => h q (List.mem_append_left _ hq)

theorem Guarded.last {ok : σ → α → Prop} {p : σ × α} (h : Guarded ok (tr ++ [p])) : ok p.1 p.2 :=
  h p (by simp)

theorem Guarded.snoc {ok : σ → α → Prop} {a : α} (h : Guarded ok tr) (hp : ok s a) :
    Guarded ok (tr ++ [(s, a)]) := by
  intro q hq
  rcases List.mem_append.1 hq with hq | hq
  · exact h q hq
  · obtain rfl := List.mem_singleton.1 hq
    exact hp

/-- **The invariant rule.** What holds at the start and is kept by every step that
    meets the guard holds after every run whose steps all meet it. -/
theorem Run.inv {Inv : σ → Prop} {ok : σ → α → Prop} (h₀ : Inv s₀)
    (hstep : ∀ s a s', Inv s → ok s a → step s a s' → Inv s') (hrun : Run step s₀ tr s)
    (hok : Guarded ok tr) : Inv s := by
  induction hrun with
  | nil => exact h₀
  | snoc _ hs ih => exact hstep _ _ _ (ih hok.init) hok.last hs

/-- The invariant rule without a guard. -/
theorem Run.inv_of_step {Inv : σ → Prop} (h₀ : Inv s₀) (hstep : ∀ s a s', Inv s → step s a s' → Inv s')
    (hrun : Run step s₀ tr s) : Inv s := by
  have hok : Guarded (fun _ _ => True) tr := fun _ _ => trivial
  exact hrun.inv h₀ (fun s a s' h _ hs => hstep s a s' h hs) hok

/-- Runs compose. -/
theorem Run.append (h₁ : Run step s₀ tr s) (h₂ : Run step s tr' s') :
    Run step s₀ (tr ++ tr') s' := by
  induction h₂ with
  | nil => simpa using h₁
  | snoc _ hs ih => rw [← List.append_assoc]; exact .snoc ih hs

/-- Every state of the trace is itself reached, by a part of the run. -/
theorem Run.mem (hrun : Run step s₀ tr s) : ∀ p ∈ tr, ∃ tr', Run step s₀ tr' p.1 ∧ ∀ q ∈ tr', q ∈ tr := by
  induction hrun with
  | nil => intro p hp; simp at hp
  | @snoc tr s s' a hr hs ih =>
    intro p hp
    rcases List.mem_append.1 hp with hp | hp
    · obtain ⟨tr', hr', hsub⟩ := ih p hp
      exact ⟨tr', hr', fun q hq => List.mem_append_left _ (hsub q hq)⟩
    · obtain rfl : p = (s, a) := by simpa using hp
      exact ⟨tr, hr, fun q hq => List.mem_append_left _ hq⟩

/-- Every member of the trace is a step, to the last state or to the state of a later step. -/
theorem Run.mem_step (hrun : Run step s₀ tr s) :
    ∀ p ∈ tr, ∃ s', step p.1 p.2 s' ∧ (s' = s ∨ ∃ q ∈ tr, q.1 = s') := by
  induction hrun with
  | nil => intro p hp; simp at hp
  | @snoc tr s s' a _ hs ih =>
    intro p hp
    rcases List.mem_append.1 hp with hp | hp
    · obtain ⟨u, hu, rfl | ⟨q, hq, he⟩⟩ := ih p hp
      · exact ⟨u, hu, Or.inr ⟨(u, a), by simp, rfl⟩⟩
      · exact ⟨u, hu, Or.inr ⟨q, List.mem_append_left _ hq, he⟩⟩
    · obtain rfl : p = (s, a) := by simpa using hp
      exact ⟨s', hs, Or.inl rfl⟩

/-- The invariant at every state a guarded run passes through. -/
theorem Run.inv_mem {Inv : σ → Prop} {ok : σ → α → Prop} (h₀ : Inv s₀)
    (hstep : ∀ s a s', Inv s → ok s a → step s a s' → Inv s') (hrun : Run step s₀ tr s)
    (hok : Guarded ok tr) : ∀ p ∈ tr, Inv p.1 := by
  intro p hp
  obtain ⟨tr', hr', hsub⟩ := hrun.mem p hp
  exact hr'.inv h₀ hstep (fun q hq => hok q (hsub q hq))

end Runs
