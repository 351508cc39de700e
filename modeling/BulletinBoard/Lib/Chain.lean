import Mathlib.Tactic

/- Singly linked chains. A node is named by its address, `next` gives the link at an address, and
   `Linked next p as` says that the links lead from `p` through the nodes `as` to a null link.
   Writing one link is `Linked.relink`: the chain up to the node stays, and behind it comes the
   chain from the new link. A node put last, a node taken out and the last node cut off are cases
   of it. -/
namespace Chain

variable {α : Type*} {next next' : α → Option α} {p q : Option α} {as bs cs : List α} {a : α}

inductive Linked (next : α → Option α) : Option α → List α → Prop where
  | nil : Linked next none []
  | cons {a : α} {as : List α} : Linked next (next a) as → Linked next (some a) (a :: as)

/-- A chain starts at its first node. -/
theorem Linked.start (h : Linked next p as) : p = as.head? := by
  cases h with
  | nil => rfl
  | cons _ => rfl

/-- Links of other nodes do not matter. -/
theorem Linked.congr (h : Linked next p as) (he : ∀ a ∈ as, next' a = next a) : Linked next' p as := by
  induction h with
  | nil => exact .nil
  | @cons a as _ ih =>
    have ih := ih fun b hb => he b (List.mem_cons_of_mem a hb)
    rw [← he a List.mem_cons_self] at ih
    exact .cons ih

/-- The chain behind a node. -/
theorem Linked.behind (h : Linked next p (as ++ a :: bs)) : Linked next (next a) bs := by
  induction as generalizing p with
  | nil => cases h with | cons h => exact h
  | cons x as ih => cases h with | cons h => exact ih h

/-- The last link is null. -/
theorem Linked.last_link (h : Linked next p as) (ha : as.getLast? = some a) : next a = none := by
  obtain ⟨as, rfl⟩ := List.getLast?_eq_some_iff.1 ha
  exact h.behind.start

/-- **Writing one link.** -/
theorem Linked.relink [DecidableEq α] (h : Linked next p (as ++ a :: bs)) (ha : a ∉ as)
    (hq : Linked next q cs) (hc : a ∉ cs) : Linked (Function.update next a q) p (as ++ a :: cs) := by
  have hcs : Linked (Function.update next a q) q cs :=
    hq.congr fun b hb => by
      have hb : b ≠ a := by
        rintro rfl
        exact hc hb
      rw [Function.update_of_ne hb]
  induction as generalizing p with
  | nil =>
    obtain rfl := h.start
    refine .cons ?_
    rw [Function.update_self]
    exact hcs
  | cons x as ih =>
    obtain rfl := h.start
    have hx : x ≠ a := fun he => ha (he ▸ List.mem_cons_self)
    cases h with
    | cons h =>
      refine .cons ?_
      rw [Function.update_of_ne hx]
      exact ih h fun hm => ha (List.mem_cons_of_mem x hm)

/-- A chain from its neighbours and its last link. -/
theorem Linked.of_isChain (h : as.IsChain fun a b => next a = some b)
    (hlast : ∀ a, as.getLast? = some a → next a = none) : Linked next as.head? as := by
  induction as with
  | nil => exact .nil
  | cons a as ih =>
    refine .cons ?_
    cases as with
    | nil =>
      rw [hlast a rfl]
      exact .nil
    | cons b as =>
      rw [List.isChain_cons_cons] at h
      rw [h.1]
      exact ih h.2 fun c hc => hlast c (by rw [List.getLast?_cons_cons, hc])

end Chain
