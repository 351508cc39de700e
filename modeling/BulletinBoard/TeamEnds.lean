import BulletinBoard.TeamWork

/- thrd_mgmt.cc: `terminate_team` comes to its end. Its loops post to all employees as long as
   one is available, and an employee that finds `threads_keepalive` cleared finishes the job
   that it has, if any, and leaves. What is proved: the posts that wake somebody and the steps
   of the employees, other than wake-ups that no post sent, are at most nine for each employee;
   as long as one has not returned, there is such a step; and so all of them are gone in the end,
   and the loops are left. Other teams may do what they want, but no team is created
   meanwhile, which would set `threads_keepalive` again. That jobs end is assumed. -/
namespace BulletinBoard

namespace Employee

/-- The steps up to the end, when `threads_keepalive` is cleared. -/
def leaveRank : Employee → Nat
  | bsemWait | clockIn => 9
  | blocked | pullWork => 8
  | signalled | spurious | run _ => 7
  | testAgain | clockOut | created => 6
  | testAlive => 5
  | leaving => 4
  | loggingOut => 3
  | unlocking => 2
  | returning => 1
  | gone => 0

theorem leaveRank_le (e : Employee) : e.leaveRank ≤ 9 := by
  unfold leaveRank
  split <;> omega

theorem Wakes.leaveRank_le {e e' : Employee} (h : Wakes e e') : e'.leaveRank ≤ e.leaveRank := by
  cases h with
  | stays => exact Nat.le_refl _
  | wakes => decide

end Employee

namespace Team

/-- The steps that are left to the employees. -/
def leaveSteps (t : Team) : Nat := (t.employees.map Employee.leaveRank).sum

theorem leaveSteps_wakes {es es' : List Employee} (h : List.Forall₂ Employee.Wakes es es') :
    (es'.map Employee.leaveRank).sum ≤ (es.map Employee.leaveRank).sum := by
  induction h with
  | nil => exact Nat.le_refl _
  | cons hw _ ih =>
    have := hw.leaveRank_le
    rw [List.map_cons, List.map_cons, List.sum_cons, List.sum_cons]
    omega

/-- A broadcast that wakes somebody. -/
theorem leaveSteps_wake {es : List Employee} (h : .blocked ∈ es) :
    ((es.map Employee.wake).map Employee.leaveRank).sum < (es.map Employee.leaveRank).sum := by
  induction es with
  | nil => cases h
  | cons e es ih =>
    have hle : (e.wake).leaveRank ≤ e.leaveRank := (e.wakes_wake).leaveRank_le
    have hrest : ((es.map Employee.wake).map Employee.leaveRank).sum ≤ (es.map Employee.leaveRank).sum :=
      leaveSteps_wakes (List.forall₂_map_right_iff.2 (List.forall₂_same.2 fun e _ => e.wakes_wake))
    rw [List.map_cons, List.map_cons, List.map_cons, List.sum_cons, List.sum_cons]
    rcases List.mem_cons.1 h with rfl | h
    · have hlt : (Employee.wake .blocked).leaveRank < Employee.leaveRank .blocked := by decide
      omega
    · have := ih h
      omega

/-- A step of an employee, with the flag cleared. -/
theorem Work.leaveSteps_lt {t t' : Team} {i : Nat} (h : Work false t i t') : t'.leaveSteps < t.leaveSteps := by
  have hset : ∀ {e u : Employee} {es : List Employee}, t.employees[i]? = some e → u.leaveRank < e.leaveRank →
      List.Forall₂ Employee.Wakes (t.employees.set i u) es →
      (es.map Employee.leaveRank).sum < t.leaveSteps := by
    intro e u es hi hrank hw
    have hsum := Pool.sum_map_set (x := u) (f := Employee.leaveRank) hi
    have hle := leaveSteps_wakes hw
    unfold leaveSteps
    omega
  have hself := fun e' => forall₂_wakes_self (t.employees.set i e')
  cases h with
  | arrives hi => exact hset hi (by decide) (hself _)
  | goesOn _ hk => cases hk
  | leaves hi => exact hset hi (by decide) (hself _)
  | blocks hi => exact hset hi (by decide) (hself _)
  | passes hi => exact hset (u := .testAgain) hi (by decide) (hself _)
  | wakesSpuriously hi => exact hset hi (by decide) (hself _)
  | wakes hi he =>
    refine hset (u := .testAgain) hi ?_ (hself _)
    rcases he with rfl | rfl <;> decide
  | goesToWork _ hk => cases hk
  | goesBack hi => exact hset hi (by decide) (hself _)
  | clocksIn hi => exact hset (u := .pullWork) hi (by decide) (hself _)
  | pulls hi =>
    have hrank : Employee.leaveRank (.run t.work_queue_a.pull_work.1) < Employee.leaveRank .pullWork :=
      Nat.lt_succ_self 7
    exact hset hi hrank (hself _)
  | pullsAndPosts hi _ hp =>
    have hrank : Employee.leaveRank (.run t.work_queue_a.pull_work.1) < Employee.leaveRank .pullWork :=
      Nat.lt_succ_self 7
    exact hset hi hrank hp.facts.1
  | @runs work_a hi =>
    have hrank : Employee.leaveRank .clockOut < Employee.leaveRank (.run work_a) := Nat.lt_succ_self 6
    exact hset hi hrank (hself _)
  | clocksOut hi => exact hset (u := .testAlive) hi (by decide) (hself _)
  | retires hi => exact hset (u := .loggingOut) hi (by decide) (hself _)
  | logsOut hi => exact hset hi (by decide) (hself _)
  | unlocks hi => exact hset hi (by decide) (hself _)
  | returns hi => exact hset hi (by decide) (hself _)

end Team

namespace Teams

/-- A step towards the end of team `a`: of an employee that is not blocked in its wait, or a post
    that wakes one. -/
def Leaving (a : Nat) (s : Teams) : Act → Prop
  | .work b i => b = a ∧ ∃ m e, s.teams[a]? = some m ∧ m.team.employees[i]? = some e ∧ e ≠ .blocked
  | .post b => b = a ∧ ∃ m, s.teams[a]? = some m ∧ .blocked ∈ m.team.employees
  | _ => False

/-- Team `a` is being terminated, and the flag is still cleared. -/
structure Ending (a : Nat) (s : Teams) : Prop where
  keepalive : s.threads_keepalive = false
  team : ∃ m, s.teams[a]? = some m ∧ m.stage = .terminating ∧ m.Counted

/-- The loops of `terminate_team` are left, and all employees have returned. -/
def Ended (a : Nat) (s : Teams) : Prop :=
  ∃ m, s.teams[a]? = some m ∧ m.stage = .terminating ∧ m.team.no_of_employees_available = 0 ∧
    ∀ e ∈ m.team.employees, e = .gone

/-- The steps that are left to the employees of team `a`. -/
def leaveSteps (a : Nat) (s : Teams) : Nat := (s.teams[a]?).elim 0 fun m => m.team.leaveSteps

theorem leaveSteps_of_getElem? {s : Teams} {a : Nat} {m : Managed} (h : s.teams[a]? = some m) :
    s.leaveSteps a = m.team.leaveSteps := by
  rw [leaveSteps, h]
  rfl

theorem getElem?_set_self {s : Teams} {a : Nat} {m m' : Managed} (h : s.teams[a]? = some m) :
    (s.set a m').teams[a]? = some m' :=
  Pool.getElem?_set_of_getElem? h

/-- **The step lemma.** -/
theorem Ending.step {a : Nat} {s s' : Teams} {act : Act} (h : Ending a s) (ha : Leaving a s act)
    (hs : Step s act s') : Ending a s' ∧ s'.leaveSteps a < s.leaveSteps a := by
  obtain ⟨hk, m, hm, hstage, hc⟩ := h
  cases hs with
  | work hm' hw =>
    obtain ⟨rfl, -⟩ := ha
    obtain rfl := Option.some.inj (hm.symm.trans hm')
    rw [hk] at hw
    refine ⟨⟨hk, _, getElem?_set_self hm, hstage, hc.work hw⟩, ?_⟩
    rw [leaveSteps_of_getElem? hm, leaveSteps_of_getElem? (getElem?_set_self hm)]
    exact hw.leaveSteps_lt
  | @post b m' hm' _ _ =>
    obtain ⟨rfl, u, hu, hblocked⟩ := ha
    obtain rfl := Option.some.inj (hm.symm.trans hm')
    obtain rfl := Option.some.inj (hm.symm.trans hu)
    have hwakes : List.Forall₂ Employee.Wakes m.team.employees m.team.bsem_post_all.employees :=
      List.forall₂_map_right_iff.2 (List.forall₂_same.2 fun e _ => e.wakes_wake)
    refine ⟨⟨hk, _, getElem?_set_self hm, hstage, hc.wakes hwakes rfl⟩, ?_⟩
    rw [leaveSteps_of_getElem? hm, leaveSteps_of_getElem? (getElem?_set_self hm)]
    exact Team.leaveSteps_wake hblocked
  | create | createFails | hire | ready | push | terminate | finish => exact ha.elim

theorem Ending.goesOn {a : Nat} {s : Teams} (h : Ending a s) (hd : ¬ Ended a s) :
    ∃ act s', Leaving a s act ∧ Step s act s' := by
  obtain ⟨hk, m, hm, hstage, hc⟩ := h
  have hworks : ∀ {i e}, m.team.employees[i]? = some e → e ≠ .blocked → (∃ t', m.team.Work s.threads_keepalive i t') →
      ∃ act s', Leaving a s act ∧ Step s act s' := by
    intro i e hi hb hw
    obtain ⟨t', hw⟩ := hw
    exact ⟨.work a i, _, ⟨rfl, m, e, hm, hi, hb⟩, .work hm hw⟩
  -- who has the lock goes on; when nobody has it, anybody can
  by_cases hfree : m.team.LockFree
  · by_cases hzero : m.team.no_of_employees_available = 0
    · have hrest : ∃ e ∈ m.team.employees, e ≠ .gone := by
        by_contra hnone
        refine hd ⟨m, hm, hstage, hzero, fun e he => ?_⟩
        by_contra hne
        exact hnone ⟨e, he, hne⟩
      obtain ⟨e, he, hne⟩ := hrest
      obtain ⟨i, hi⟩ := List.mem_iff_getElem?.1 he
      have hlingers := (hc.out hstage hzero e he).resolve_right hne
      have hb : e ≠ .blocked := by
        rintro rfl
        cases hlingers
      exact hworks hi hb (Team.Work.enabled s.threads_keepalive hfree hi hb hne)
    · by_cases hblocked : .blocked ∈ m.team.employees
      · exact ⟨.post a, _, ⟨rfl, m, hm, hblocked⟩, .post hm hstage hzero⟩
      · have hpos : 0 < m.team.employees.countP Employee.inTeam := by
          have := hc.available
          omega
        obtain ⟨e, he, hin⟩ := List.countP_pos_iff.1 hpos
        obtain ⟨i, hi⟩ := List.mem_iff_getElem?.1 he
        have hb : e ≠ .blocked := fun heq => hblocked (heq ▸ he)
        have hgone : e ≠ .gone := by
          rintro rfl
          cases hin
        exact hworks hi hb (Team.Work.enabled s.threads_keepalive hfree hi hb hgone)
  · obtain ⟨e, he, hlock⟩ : ∃ e ∈ m.team.employees, e.holdsLock = true := by
      by_contra hnone
      refine hfree fun e he => ?_
      by_contra hlock
      exact hnone ⟨e, he, by simpa using hlock⟩
    obtain ⟨i, hi⟩ := List.mem_iff_getElem?.1 he
    have hb : e ≠ .blocked := by
      rintro rfl
      cases hlock
    exact hworks hi hb (Team.Work.enabled_of_holdsLock s.threads_keepalive hi hlock)

theorem ends (a : Nat) : Progress.Ends Step (Leaving a) (Ending a) (Ended a) (leaveSteps a) where
  keeps := fun _ _ _ h ha hs => (h.step ha hs).1
  lowers := fun _ _ _ h ha hs => (h.step ha hs).2
  goesOn := fun _ h hd => h.goesOn hd

/-- **`terminate_team` ends.** While it is posting to team `a` and no team is created, at most nine
    steps for each employee lead to its end, in any order; when none is left, all employees are gone
    and `terminate_team` can go on; and that is reached from every such state. -/
theorem terminate_team_ends {s : Teams} {tr : List (Teams × Act)} {a : Nat} {m : Managed}
    (hrun : Runs.Run Step init tr s) (hm : s.teams[a]? = some m) (hstage : m.stage = .terminating)
    (hk : s.threads_keepalive = false) :
    (∀ s' tr', Runs.Run Step s tr' s' → Runs.Guarded (Leaving a) tr' →
      tr'.length ≤ 9 * m.team.employees.length ∧
      ((∀ act s'', Leaving a s' act → ¬ Step s' act s'') → Ended a s' ∧ ∃ s'', Step s' (.finish a) s'')) ∧
    ∃ s' tr', Runs.Run Step s tr' s' ∧ Runs.Guarded (Leaving a) tr' ∧ Ended a s' := by
  have h : Ending a s := ⟨hk, m, hm, hstage, counted_run hrun m (mem_of_getElem? hm)⟩
  refine ⟨?_, ?_⟩
  · intro s' tr' hrun' hown
    refine ⟨?_, fun hstuck => ?_⟩
    · calc tr'.length
          _ ≤ s.leaveSteps a := (ends a).length_le hrun' hown h
          _ = m.team.leaveSteps := leaveSteps_of_getElem? hm
          _ ≤ 9 * m.team.employees.length := Pool.sum_map_bound Employee.leaveRank_le _
    · have hended := (ends a).done_of_stuck hrun' hown h hstuck
      obtain ⟨m', hm', hstage', hzero, -⟩ := id hended
      exact ⟨hended, _, .finish hm' hstage' hzero⟩
  · obtain ⟨tr', s', hrun', hown, hended⟩ := (ends a).finishes h
    exact ⟨s', tr', hrun', hown, hended⟩

/-- The theorem for a team of one employee that tests the flag. -/
theorem terminate_team_ends_oneEmployee :
    (∀ s' tr', Runs.Run Step ⟨false, [oneEmployee .testAlive .terminating]⟩ tr' s' → Runs.Guarded (Leaving 0) tr' →
      tr'.length ≤ 9 ∧ ((∀ act s'', Leaving 0 s' act → ¬ Step s' act s'') → Ended 0 s' ∧ ∃ s'', Step s' (.finish 0) s'')) ∧
    ∃ s' tr', Runs.Run Step ⟨false, [oneEmployee .testAlive .terminating]⟩ tr' s' ∧ Runs.Guarded (Leaving 0) tr' ∧
      Ended 0 s' := by
  obtain ⟨tr, hrun, -⟩ := run_oneEmployee .nil
  have hterminated := hrun.snoc (.terminate (a := 0) rfl rfl)
  have hm : [oneEmployee .testAlive .terminating][0]? = some (oneEmployee .testAlive .terminating) := rfl
  exact terminate_team_ends hterminated hm rfl rfl

end Teams

end BulletinBoard
