import BulletinBoard.Lib.Run

/- Systems that come to an end. Steps that meet a guard `own` lower a measure, which
   bounds the runs of such steps; where some such step can be taken as long as `Done`
   does not hold, every run of them can be led to a `Done` state, and one that cannot
   go on is there. An invariant of the system may be used in both. -/
namespace Progress

open Runs

variable {σ α : Type*} {step : σ → α → σ → Prop} {own : σ → α → Prop} {Inv Done : σ → Prop} {μ : σ → Nat}

/-- What a system that ends has to meet. -/
structure Ends (step : σ → α → σ → Prop) (own : σ → α → Prop) (Inv Done : σ → Prop) (μ : σ → Nat) : Prop where
  keeps : ∀ s a s', Inv s → own s a → step s a s' → Inv s'
  lowers : ∀ s a s', Inv s → own s a → step s a s' → μ s' < μ s
  goesOn : ∀ s, Inv s → ¬ Done s → ∃ a s', own s a ∧ step s a s'

/-- The invariant along a run of own steps. -/
theorem Ends.inv (h : Ends step own Inv Done μ) {s s' : σ} {tr : List (σ × α)} (hrun : Run step s tr s')
    (hown : Guarded own tr) (hs : Inv s) : Inv s' :=
  hrun.inv hs h.keeps hown

/-- **The measure bounds the steps.** -/
theorem Ends.length_add_le (h : Ends step own Inv Done μ) {s s' : σ} {tr : List (σ × α)}
    (hrun : Run step s tr s') (hown : Guarded own tr) (hs : Inv s) : tr.length + μ s' ≤ μ s := by
  induction hrun with
  | nil => simp
  | @snoc tr u u' a hr hstep ih =>
    have hu : Inv u := h.inv hr hown.init hs
    have hlt : μ u' < μ u := h.lowers u a u' hu hown.last hstep
    have := ih hown.init
    rw [List.length_append, List.length_singleton]
    omega

theorem Ends.length_le (h : Ends step own Inv Done μ) {s s' : σ} {tr : List (σ × α)}
    (hrun : Run step s tr s') (hown : Guarded own tr) (hs : Inv s) : tr.length ≤ μ s := by
  have := h.length_add_le hrun hown hs
  omega

/-- A run that cannot go on has come to the end. -/
theorem Ends.done_of_stuck (h : Ends step own Inv Done μ) {s s' : σ} {tr : List (σ × α)}
    (hrun : Run step s tr s') (hown : Guarded own tr) (hs : Inv s)
    (hstuck : ∀ a s'', own s' a → ¬ step s' a s'') : Done s' := by
  by_contra hd
  obtain ⟨a, s'', ha, hstep⟩ := h.goesOn s' (h.inv hrun hown hs) hd
  exact hstuck a s'' ha hstep

/-- From every state the end is reached. -/
theorem Ends.finishes (h : Ends step own Inv Done μ) {s : σ} (hs : Inv s) :
    ∃ tr s', Run step s tr s' ∧ Guarded own tr ∧ Done s' := by
  -- by strong induction on the measure
  generalize hm : μ s = m
  induction m using Nat.strongRecOn generalizing s with
  | _ m ih =>
    by_cases hd : Done s
    · exact ⟨[], s, .nil, by simp [Guarded], hd⟩
    · obtain ⟨a, s', ha, hstep⟩ := h.goesOn s hs hd
      have hlt : μ s' < m := hm ▸ h.lowers s a s' hs ha hstep
      obtain ⟨tr, u, hrun, hown, hu⟩ := ih (μ s') hlt (h.keeps s a s' hs ha hstep) rfl
      have hone : Run step s [(s, a)] s' := Run.nil.snoc hstep
      refine ⟨[(s, a)] ++ tr, u, hone.append hrun, ?_, hu⟩
      intro p hp
      cases hp with
      | head => exact ha
      | tail _ hp => exact hown p hp

end Progress
