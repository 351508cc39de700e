import BulletinBoard.Teams
import BulletinBoard.Lib.Progress

/- thrd_mgmt.cc: what becomes of the jobs that are pushed to a team. A job is in the queue, or
   one employee runs it, or it is finished, and no job is finished twice; the counter that
   `team_wait` tests counts the employees that are at work, so that its condition says that
   every job pushed so far is finished. A team that is kept alive finishes every job: without
   new jobs, and without wake-ups that no signal sent, the steps of the employees come to an
   end, and then every job is finished. That a job itself comes to an end is assumed. -/
namespace BulletinBoard

namespace Employee

/-- Between `no_of_employees_working++` and `no_of_employees_working--`. -/
def atWork : Employee → Bool
  | pullWork | run _ | clockOut => true
  | _ => false

/-- The job that it runs. -/
def works : Employee → List Nat
  | run work_a => work_a.toList
  | _ => []

/-- The steps up to the next wait, from a wait that has been left. -/
def rank : Employee → Nat
  | signalled | spurious => 8
  | testAgain => 7
  | clockIn => 6
  | pullWork => 5
  | run _ => 4
  | clockOut | created => 3
  | testAlive => 2
  | bsemWait => 1
  | blocked | leaving | loggingOut | unlocking | returning | gone => 0

theorem rank_le (e : Employee) : e.rank ≤ 8 := by
  unfold rank
  split <;> omega

theorem Wakes.atWork_eq {e e' : Employee} (h : Wakes e e') : e'.atWork = e.atWork := by
  cases h <;> rfl

theorem Wakes.works_eq {e e' : Employee} (h : Wakes e e') : e'.works = e.works := by
  cases h <;> rfl

end Employee

namespace Team

/-- The job that a step ends. -/
def finishes (t : Team) : Option Nat → List Nat
  | some i => (t.employees[i]?).elim [] Employee.works
  | none => []

/-- The jobs that a run has finished, in the order of their ends. -/
def finished (tr : List (Team × Option Nat)) : List Nat := tr.flatMap fun p => p.1.finishes p.2

theorem finished_snoc (tr : List (Team × Option Nat)) (t : Team) (a : Option Nat) :
    finished (tr ++ [(t, a)]) = finished tr ++ t.finishes a := by
  simp [finished]

/-- The jobs that are being run. -/
def running (t : Team) : List Nat := t.employees.flatMap Employee.works

/-! What a step does to the jobs. -/

/-- Employee `i` goes from `e` to `e'`; what it takes up is what `pull_work` has returned. -/
structure Did (t : Team) (i : Nat) (e e' : Employee) (t' : Team) : Prop where
  at_i : t.employees[i]? = some e
  employees : List.Forall₂ Employee.Wakes (t.employees.set i e') t'.employees
  pulled : t'.pulled = t.pulled ++ e'.works
  working : t'.no_of_employees_working + (if e.atWork then 1 else 0) =
    t.no_of_employees_working + if e'.atWork then 1 else 0
  allocated : t'.allocated = t.allocated

theorem Work.did {k : Bool} {t t' : Team} {i : Nat} (h : Work k t i t') : ∃ e e', Did t i e e' t' := by
  have hself := fun e' => forall₂_wakes_self (t.employees.set i e')
  have hnone : t.pulled = t.pulled ++ [] := (List.append_nil _).symm
  cases h with
  | arrives hi => exact ⟨_, .testAlive, hi, hself _, hnone, rfl, rfl⟩
  | goesOn hi => exact ⟨_, .bsemWait, hi, hself _, hnone, rfl, rfl⟩
  | leaves hi => exact ⟨_, .leaving, hi, hself _, hnone, rfl, rfl⟩
  | blocks hi => exact ⟨_, .blocked, hi, hself _, hnone, rfl, rfl⟩
  | passes hi => exact ⟨_, .testAgain, hi, hself _, hnone, rfl, rfl⟩
  | wakesSpuriously hi => exact ⟨_, .spurious, hi, hself _, hnone, rfl, rfl⟩
  | wakes hi he =>
    refine ⟨_, .testAgain, hi, hself _, hnone, ?_, rfl⟩
    rcases he with rfl | rfl <;> rfl
  | goesToWork hi => exact ⟨_, .clockIn, hi, hself _, hnone, rfl, rfl⟩
  | goesBack hi => exact ⟨_, .testAlive, hi, hself _, hnone, rfl, rfl⟩
  | clocksIn hi => exact ⟨_, .pullWork, hi, hself _, hnone, by simp [Employee.atWork], rfl⟩
  | pulls hi => exact ⟨_, .run _, hi, hself _, rfl, rfl, rfl⟩
  | pullsAndPosts hi _ hp =>
    cases hp with
    | post hw hsignal => exact ⟨_, .run _, hi, hw, rfl, rfl, rfl⟩
  | runs hi => exact ⟨_, .clockOut, hi, hself _, hnone, rfl, rfl⟩
  | clocksOut hi => exact ⟨_, .testAlive, hi, hself _, hnone, by simp [Employee.atWork], rfl⟩
  | retires hi => exact ⟨_, .loggingOut, hi, hself _, hnone, rfl, rfl⟩
  | logsOut hi => exact ⟨_, .unlocking, hi, hself _, hnone, rfl, rfl⟩
  | unlocks hi => exact ⟨_, .returning, hi, hself _, hnone, rfl, rfl⟩
  | returns hi => exact ⟨_, .gone, hi, hself _, hnone, rfl, rfl⟩

theorem Push.facts {t t' : Team} (h : Push t t') :
    List.Forall₂ Employee.Wakes t.employees t'.employees ∧ t'.pulled = t.pulled ∧
      t'.no_of_employees_working = t.no_of_employees_working ∧ t'.allocated = t.allocated + 1 := by
  cases h with
  | post hw hsignal => exact ⟨hw, rfl, rfl, rfl⟩

/-- A wake-up changes no job. -/
theorem running_wakes {es es' : List Employee} (h : List.Forall₂ Employee.Wakes es es') :
    es'.flatMap Employee.works = es.flatMap Employee.works := by
  induction h with
  | nil => rfl
  | cons hw _ ih => rw [List.flatMap_cons, List.flatMap_cons, ih, hw.works_eq]

/-- The jobs that were pulled are those that are finished and those that are being run, and the
    counter counts who is at work. -/
structure Accounts (finished : List Nat) (t : Team) : Prop where
  jobs : (finished ++ t.running).Perm t.pulled
  working : t.no_of_employees_working = t.employees.countP Employee.atWork

/-- **The step lemma.** -/
theorem Accounts.step {ws : List Nat} {t t' : Team} {k : Bool} {a : Option Nat} (h : Accounts ws t)
    (hs : Step k t a t') : Accounts (ws ++ t.finishes a) t' := by
  cases hs with
  | push hp =>
    obtain ⟨hw, hpulled, hworking, -⟩ := hp.facts
    refine ⟨?_, ?_⟩
    · rw [finishes, List.append_nil, running, running_wakes hw, hpulled]
      exact h.jobs
    · rw [hworking, Pool.countP_forall₂ hw fun _ _ hwz => hwz.atWork_eq]
      exact h.working
  | @work i t' hw =>
    obtain ⟨e, e', hd⟩ := hw.did
    have hends : t.finishes (some i) = e.works := by rw [finishes, hd.at_i]; rfl
    refine ⟨?_, ?_⟩
    · have hset := Pool.flatMap_set_perm (x := e') Employee.works hd.at_i
      rw [hends, running, running_wakes hd.employees, hd.pulled]
      calc ws ++ e.works ++ (t.employees.set i e').flatMap Employee.works
          _ |>.Perm (ws ++ ((t.employees.set i e').flatMap Employee.works ++ e.works)) := by
            rw [List.append_assoc]
            exact List.perm_append_comm.append_left ws
          _ |>.Perm (ws ++ (t.running ++ e'.works)) := hset.append_left ws
          _ |>.Perm (t.pulled ++ e'.works) := by
            rw [← List.append_assoc]
            exact h.jobs.append_right e'.works
    · have hcount : ((t.employees.set i e').countP Employee.atWork : Int) + (if e.atWork then 1 else 0) =
          t.employees.countP Employee.atWork + if e'.atWork then 1 else 0 := by
        exact_mod_cast Pool.countP_set_add (x := e') (p := Employee.atWork) hd.at_i
      rw [Pool.countP_forall₂ hd.employees fun _ _ hwz => hwz.atWork_eq]
      linarith [h.working, hd.working]

/-- **The run lemma.** -/
theorem Accounts.run {n : Nat} {t : Team} {k : Bool} {tr : List (Team × Option Nat)}
    (hrun : Runs.Run (Step k) (create n) tr t) : Accounts (finished tr) t := by
  induction hrun with
  | nil =>
    have hworks : ∀ n, (List.replicate n Employee.created).flatMap Employee.works = [] := by
      intro n
      induction n with
      | zero => rfl
      | succ n ih => rw [List.replicate_succ, List.flatMap_cons, ih]; rfl
    have hnone : (List.replicate n Employee.created).countP Employee.atWork = 0 := by
      rw [List.countP_eq_zero]
      intro e he
      rw [List.eq_of_mem_replicate he]
      decide
    refine ⟨?_, ?_⟩
    · show ([] ++ (List.replicate n Employee.created).flatMap Employee.works).Perm []
      rw [hworks]
      exact .nil
    · show (0 : Int) = ((List.replicate n Employee.created).countP Employee.atWork : Nat)
      rw [hnone]
      rfl
  | snoc _ hs ih =>
    rw [finished_snoc]
    exact ih.step hs

/-- With an empty queue and nobody at work every job is finished. -/
theorem Accounts.all {fs : List Nat} {t : Team} (h : Accounts fs t) (ho : InOrder t)
    (hempty : t.work_queue_a.work_to_be_done = 0) (hnone : t.employees.countP Employee.atWork = 0) :
    fs.Perm (List.range t.allocated) := by
  obtain ⟨ws, hq, heq⟩ := ho
  have hws : ws = [] := List.eq_nil_of_length_eq_zero (hq.length.symm.trans hempty)
  have hrunning : t.running = [] := by
    rw [running, List.flatMap_eq_nil_iff]
    intro e he
    have hout := List.countP_eq_zero.1 hnone e he
    cases e <;> first | rfl | exact absurd rfl hout
  have hjobs := h.jobs
  rw [hrunning, List.append_nil] at hjobs
  rw [← heq, hws, List.append_nil]
  exact hjobs

/-- **Every job is run once.** In every state that a team reaches, the jobs pushed so far are those
    that are finished, those that employees run and those in the queue, each of them once; and if the
    queue is empty and nobody is counted as working, as `team_wait` tests, all of them are finished. -/
theorem jobs_run_once {n : Nat} {t : Team} {k : Bool} {tr : List (Team × Option Nat)}
    (hrun : Runs.Run (Step k) (create n) tr t) :
    (∃ ws, t.work_queue_a.Holds ws ∧ (finished tr ++ t.running ++ ws).Perm (List.range t.allocated)) ∧
      t.no_of_employees_working = t.employees.countP Employee.atWork ∧
      (t.work_queue_a.work_to_be_done = 0 → t.no_of_employees_working = 0 →
        (finished tr).Perm (List.range t.allocated)) := by
  have h := Accounts.run hrun
  have ho := inOrder_run hrun
  refine ⟨?_, h.working, ?_⟩
  · obtain ⟨ws, hq, heq⟩ := ho
    refine ⟨ws, hq, ?_⟩
    rw [← heq]
    exact h.jobs.append_right ws
  · intro hempty hidle
    apply h.all ho hempty
    have := h.working
    omega

/-- The team of one employee, whose only job is finished. -/
def jobDone : Team where
  work_queue_a := (WorkQueue.create.push_work 0).pull_work.2.1
  pol := 0
  employees := [.testAlive]
  no_of_employees_available := 1
  no_of_employees_working := 0
  allocated := 1
  pulled := [0]

theorem jobDone_reached : ∃ tr, Runs.Run (Step true) (create 1) tr jobDone ∧ finished tr = [0] := by
  obtain ⟨tr, h₀, hnone⟩ : ∃ tr, Runs.Run (Step true) (create 1) tr oneJob ∧ finished tr = [] := by
    have h₀ : Runs.Run (Step true) (create 1) [] (create 1) := .nil
    have h₁ := h₀.snoc (.work (.arrives (i := 0) rfl (by decide)))
    have h₂ := h₁.snoc (.work (.goesOn (i := 0) rfl rfl))
    have h₃ := h₂.snoc (.work (.blocks (i := 0) rfl (by decide)))
    exact ⟨_, h₃.snoc (.push (.post (.cons .wakes .nil) fun _ => ⟨0, rfl, rfl⟩)), rfl⟩
  have h₁ := h₀.snoc (.work (.wakes (i := 0) rfl (.inl rfl)))
  have h₂ := h₁.snoc (.work (.goesToWork (i := 0) rfl rfl))
  have h₃ := h₂.snoc (.work (.clocksIn (i := 0) rfl (by decide)))
  have h₄ := h₃.snoc (.work (.pulls (i := 0) rfl rfl))
  have h₅ := h₄.snoc (.work (.runs (i := 0) rfl))
  have h₆ := h₅.snoc (.work (.clocksOut (i := 0) rfl (by decide)))
  refine ⟨_, h₆, ?_⟩
  simp only [finished_snoc, hnone]
  rfl

/-- The theorem at that state. -/
theorem jobs_run_once_jobDone : ∃ tr, finished tr = [0] ∧
    (∃ ws, jobDone.work_queue_a.Holds ws ∧ (finished tr ++ jobDone.running ++ ws).Perm (List.range 1)) ∧
      jobDone.no_of_employees_working = jobDone.employees.countP Employee.atWork ∧
      (jobDone.work_queue_a.work_to_be_done = 0 → jobDone.no_of_employees_working = 0 →
        (finished tr).Perm (List.range 1)) := by
  obtain ⟨tr, hrun, hone⟩ := jobDone_reached
  exact ⟨tr, hone, jobs_run_once hrun⟩

/-! The end of the jobs. -/

/-- A step of an employee that is not blocked in its wait. -/
def Own (t : Team) (a : Option Nat) : Prop := ∃ i e, a = some i ∧ t.employees[i]? = some e ∧ e ≠ .blocked

/-- Everybody waits. -/
def AllBlocked (t : Team) : Prop := ∀ e ∈ t.employees, e = .blocked

/-- What a job in the queue, a token and the places of the employees may cost in steps. -/
def stepsLeft (t : Team) : Nat :=
  t.work_queue_a.work_to_be_done * (8 * t.employees.length + 8) + 7 * t.pol +
    (t.employees.map Employee.rank).sum

/-- Nobody has left the work loop of a team that is kept alive. -/
structure Alive (t : Team) : Prop where
  inOrder : InOrder t
  attended : Attended t
  stays : ∀ e ∈ t.employees, e.leftLoop = false

theorem Alive.create (n : Nat) : Alive (create n) where
  inOrder := InOrder.create n
  attended := Attended.create n
  stays := by
    intro e he
    rw [List.eq_of_mem_replicate he]
    rfl

theorem Alive.step {t t' : Team} {a : Option Nat} (h : Alive t) (hs : Step true t a t') : Alive t' := by
  refine ⟨h.inOrder.step hs, h.attended.step h.inOrder hs, ?_⟩
  have hwakes : ∀ {es : List Employee}, (∀ e ∈ es, e.leftLoop = false) → List.Forall₂ Employee.Wakes es t'.employees →
      ∀ e ∈ t'.employees, e.leftLoop = false := by
    intro es hes hw e he
    obtain ⟨j, hj⟩ := List.mem_iff_getElem?.1 he
    obtain ⟨u, hu, hue⟩ := Pool.getElem?_forall₂ hw hj
    rw [hue.leftLoop_eq]
    exact hes u (List.mem_of_getElem? hu)
  cases hs with
  | push hp => exact hwakes h.stays hp.facts.1
  | work hw =>
    obtain ⟨e, e', hm⟩ := hw.moved
    refine hwakes (Pool.forall_mem_set h.stays ?_) hm.employees
    by_contra hl
    rcases hm.left (by simpa using hl) with hl' | hk
    · rw [h.stays e (List.mem_of_getElem? hm.at_i)] at hl'
      cases hl'
    · cases hk

theorem alive_run {n : Nat} {t : Team} {tr : List (Team × Option Nat)} (hrun : Runs.Run (Step true) (create n) tr t) :
    Alive t :=
  hrun.inv_of_step (Alive.create n) fun _ _ _ h hs => h.step hs

/-- Who has the lock can take a step. -/
theorem Work.enabled_of_holdsLock (k : Bool) {t : Team} {i : Nat} {e : Employee} (hi : t.employees[i]? = some e)
    (h : e.holdsLock = true) : ∃ t', Work k t i t' := by
  cases e with
  | loggingOut => exact ⟨_, .logsOut hi⟩
  | unlocking => exact ⟨_, .unlocks hi⟩
  | _ => cases h

/-- While the lock is free, who waits for nothing can take a step. -/
theorem Work.enabled (k : Bool) {t : Team} {i : Nat} {e : Employee} (hfree : t.LockFree)
    (hi : t.employees[i]? = some e) (hne : e ≠ .blocked) (hgone : e ≠ .gone) : ∃ t', Work k t i t' := by
  cases e with
  | created => exact ⟨_, .arrives hi hfree⟩
  | testAlive =>
    cases k with
    | true => exact ⟨_, .goesOn hi rfl⟩
    | false => exact ⟨_, .leaves hi rfl⟩
  | bsemWait =>
    by_cases hpol : t.pol = 1
    · exact ⟨_, .passes hi hpol⟩
    · exact ⟨_, .blocks hi hpol⟩
  | blocked => exact absurd rfl hne
  | signalled => exact ⟨_, .wakes hi (.inl rfl)⟩
  | spurious => exact ⟨_, .wakes hi (.inr rfl)⟩
  | testAgain =>
    cases k with
    | true => exact ⟨_, .goesToWork hi rfl⟩
    | false => exact ⟨_, .goesBack hi rfl⟩
  | clockIn => exact ⟨_, .clocksIn hi hfree⟩
  | pullWork =>
    cases hpost : t.work_queue_a.pull_work.2.2 with
    | false => exact ⟨_, .pulls hi hpost⟩
    | true =>
      -- a signal may wake everybody
      refine ⟨_, .pullsAndPosts hi hpost (@SemPost.post _ ((t.pulls i).employees.map Employee.wake) ?_ ?_)⟩
      · exact List.forall₂_map_right_iff.2 (List.forall₂_same.2 fun e _ => e.wakes_wake)
      · intro hb
        obtain ⟨j, hj⟩ := List.mem_iff_getElem?.1 hb
        refine ⟨j, hj, ?_⟩
        rw [List.getElem?_map, hj]
        rfl
  | run work_a => exact ⟨_, .runs hi⟩
  | clockOut => exact ⟨_, .clocksOut hi hfree⟩
  | leaving => exact ⟨_, .retires hi hfree⟩
  | loggingOut => exact ⟨_, .logsOut hi⟩
  | unlocking => exact ⟨_, .unlocks hi⟩
  | returning => exact ⟨_, .returns hi⟩
  | gone => exact absurd rfl hgone

/-- A step that keeps the queue and sets no token. -/
theorem stepsLeft_set {t t' : Team} {i : Nat} {e e' : Employee} (hi : t.employees[i]? = some e)
    (hq : t'.work_queue_a.work_to_be_done ≤ t.work_queue_a.work_to_be_done) (hes : t'.employees = t.employees.set i e')
    (hrank : 7 * t'.pol + e'.rank < 7 * t.pol + e.rank) : stepsLeft t' < stepsLeft t := by
  have hsum := Pool.sum_map_set (x := e') (f := Employee.rank) hi
  have hmul : t'.work_queue_a.work_to_be_done * (8 * t.employees.length + 8) ≤
      t.work_queue_a.work_to_be_done * (8 * t.employees.length + 8) := Nat.mul_le_mul_right _ hq
  unfold stepsLeft
  rw [hes, List.length_set]
  omega

/-- A pull that posts: the job pays for the token and for everybody it may wake. -/
theorem stepsLeft_post {t t' : Team}
    (hq : t'.work_queue_a.work_to_be_done + 1 = t.work_queue_a.work_to_be_done) (hpol : t'.pol ≤ 1)
    (hlen : t'.employees.length = t.employees.length) : stepsLeft t' < stepsLeft t := by
  have hsum := Pool.sum_map_bound Employee.rank_le t'.employees
  have hpaid := Nat.add_one_mul t'.work_queue_a.work_to_be_done (8 * t.employees.length + 8)
  unfold stepsLeft
  rw [← hq, hpaid]
  rw [hlen] at hsum ⊢
  omega

/-- The queue after a pull. -/
theorem pull_work_length {t : Team} (h : InOrder t) :
    (t.work_queue_a.pull_work).2.1.work_to_be_done ≤ t.work_queue_a.work_to_be_done ∧
      (t.work_queue_a.pull_work.2.2 = true →
        (t.work_queue_a.pull_work).2.1.work_to_be_done + 1 = t.work_queue_a.work_to_be_done) := by
  obtain ⟨ws, hq, -⟩ := h
  obtain ⟨-, htail, hpost⟩ := hq.pull_work
  rw [htail.length, hq.length, List.length_tail]
  refine ⟨Nat.sub_le _ _, fun hp => ?_⟩
  have := hpost.1 hp
  omega

theorem Alive.stepsLeft_lt {t t' : Team} {a : Option Nat} (h : Alive t) (ha : Own t a) (hs : Step true t a t') :
    stepsLeft t' < stepsLeft t := by
  obtain ⟨j, u, rfl, hu, hne⟩ := ha
  cases hs with
  | work hw =>
    have hle := Nat.le_refl t.work_queue_a.work_to_be_done
    cases hw with
    | arrives hi => exact stepsLeft_set hi hle rfl (by simp [Team.set, Employee.rank])
    | goesOn hi => exact stepsLeft_set hi hle rfl (by simp [Team.set, Employee.rank])
    | leaves _ hk => cases hk
    | blocks hi => exact stepsLeft_set hi hle rfl (by simp [Team.set, Employee.rank])
    | passes hi hpol => exact stepsLeft_set hi hle rfl (by simp [hpol, Employee.rank])
    | wakesSpuriously hi => exact absurd (Option.some.inj (hu.symm.trans hi)) hne
    | @wakes e hi he =>
      have hrank : e.rank = 8 := by rcases he with rfl | rfl <;> rfl
      refine stepsLeft_set hi hle rfl ?_
      show 7 * 0 + 7 < 7 * t.pol + e.rank
      omega
    | goesToWork hi => exact stepsLeft_set hi hle rfl (by simp [Team.set, Employee.rank])
    | goesBack _ hk => cases hk
    | clocksIn hi => exact stepsLeft_set hi hle rfl (by simp [Team.set, Employee.rank])
    | pulls hi => exact stepsLeft_set hi (pull_work_length h.inOrder).1 rfl (by simp [Team.set, Team.pulls, Employee.rank])
    | pullsAndPosts hi hpost hp =>
      cases hp with
      | post hwakes hsignal =>
        have hlen := hwakes.length_eq.symm.trans List.length_set
        exact stepsLeft_post ((pull_work_length h.inOrder).2 hpost) (Nat.le_refl 1) hlen
    | runs hi => exact stepsLeft_set hi hle rfl (by simp [Team.set, Employee.rank])
    | clocksOut hi => exact stepsLeft_set hi hle rfl (by simp [Team.set, Employee.rank])
    | retires hi | logsOut hi | unlocks hi | returns hi =>
      have := h.stays _ (List.mem_of_getElem? hi)
      cases this

theorem ends : Progress.Ends (Step true) Own Alive AllBlocked stepsLeft where
  keeps := fun _ _ _ h _ hs => h.step hs
  lowers := fun _ _ _ h ha hs => h.stepsLeft_lt ha hs
  goesOn := by
    intro t h hd
    have hready : ∃ e ∈ t.employees, e ≠ .blocked := by
      by_contra hnone
      apply hd
      intro e he
      by_contra hne
      exact hnone ⟨e, he, hne⟩
    obtain ⟨e, he, hne⟩ := hready
    obtain ⟨i, hi⟩ := List.mem_iff_getElem?.1 he
    have hgone : e ≠ .gone := by
      intro hg
      have := h.stays e he
      rw [hg] at this
      cases this
    have hfree : t.LockFree := by
      intro u hu
      have hstays := h.stays u hu
      cases u <;> first | rfl | cases hstays
    obtain ⟨t', hw⟩ := Work.enabled true hfree hi hne hgone
    exact ⟨some i, t', ⟨i, e, rfl, hi, hne⟩, .work hw⟩

/-- With everybody waiting no job is left. -/
theorem Alive.empty {t : Team} (h : Alive t) (hn : t.employees ≠ []) (hd : AllBlocked t) :
    t.work_queue_a.work_to_be_done = 0 ∧ t.employees.countP Employee.atWork = 0 := by
  obtain ⟨e, he⟩ := List.exists_mem_of_ne_nil _ hn
  refine ⟨?_, ?_⟩
  · by_contra hne
    rcases h.attended hne with ⟨u, hu, harr⟩ | ⟨-, hnot⟩
    · rw [hd u hu] at harr
      cases harr
    · exact hnot (hd e he ▸ he)
  · rw [List.countP_eq_zero]
    intro u hu
    rw [hd u hu]
    decide

/-- The steps of employees allocate no job. -/
theorem own_run {t t' : Team} {tr : List (Team × Option Nat)} (hrun : Runs.Run (Step true) t tr t')
    (hown : Runs.Guarded Own tr) : t'.allocated = t.allocated := by
  refine @Runs.Run.inv _ _ _ _ _ _ (fun u => u.allocated = t.allocated) Own rfl ?_ hrun hown
  intro u a u' hu ha hs
  obtain ⟨i, e, rfl, -⟩ := ha
  cases hs with
  | work hw =>
    obtain ⟨e, e', hd⟩ := hw.did
    exact hd.allocated.trans hu

theorem length_run {n : Nat} {t : Team} {tr : List (Team × Option Nat)} (hrun : Runs.Run (Step true) (create n) tr t) :
    t.employees.length = n := by
  refine @Runs.Run.inv_of_step _ _ _ _ _ _ (fun u => u.employees.length = n) List.length_replicate ?_ hrun
  intro u a u' hu hs
  cases hs with
  | push hp => exact hp.facts.1.length_eq.symm.trans hu
  | work hw =>
    obtain ⟨e, e', hm⟩ := hw.moved
    have hlen := hm.employees.length_eq
    rw [List.length_set] at hlen
    exact hlen.symm.trans hu

/-- **Every job is finished.** In a team of at least one employee that is kept alive, from every state
    that it reaches and whatever the order of the steps, the employees take a bounded number of steps
    of their own; when they can take no more, every job that was pushed is finished, each once; and it
    can come to that. -/
theorem jobs_finish {n : Nat} {t : Team} {tr : List (Team × Option Nat)} (hn : 0 < n)
    (hrun : Runs.Run (Step true) (create n) tr t) :
    (∀ t' tr', Runs.Run (Step true) t tr' t' → Runs.Guarded Own tr' → tr'.length ≤ stepsLeft t ∧
      ((∀ a t'', Own t' a → ¬ Step true t' a t'') → (finished (tr ++ tr')).Perm (List.range t.allocated))) ∧
    ∃ t' tr', Runs.Run (Step true) t tr' t' ∧ Runs.Guarded Own tr' ∧
      (finished (tr ++ tr')).Perm (List.range t.allocated) := by
  have h := alive_run hrun
  have hall : ∀ t' tr', Runs.Run (Step true) t tr' t' → Runs.Guarded Own tr' → AllBlocked t' →
      (finished (tr ++ tr')).Perm (List.range t.allocated) := by
    intro t' tr' hrun' hown hd
    have hwhole := hrun.append hrun'
    have hallocated := own_run hrun' hown
    have hne : t'.employees ≠ [] := by
      intro hnil
      have hlen := length_run hwhole
      rw [hnil, List.length_nil] at hlen
      omega
    obtain ⟨hempty, hidle⟩ := (ends.inv hrun' hown h).empty hne hd
    rw [← hallocated]
    exact (Accounts.run hwhole).all (inOrder_run hwhole) hempty hidle
  refine ⟨?_, ?_⟩
  · intro t' tr' hrun' hown
    refine ⟨ends.length_le hrun' hown h, ?_⟩
    intro hstuck
    exact hall t' tr' hrun' hown (ends.done_of_stuck hrun' hown h hstuck)
  · obtain ⟨tr', t', hrun', hown, hd⟩ := ends.finishes h
    exact ⟨t', tr', hrun', hown, hall t' tr' hrun' hown hd⟩

/-- The theorem where one job has been pushed to one employee. -/
theorem jobs_finish_oneJob : ∃ tr,
    (∀ t' tr', Runs.Run (Step true) oneJob tr' t' → Runs.Guarded Own tr' → tr'.length ≤ 31 ∧
      ((∀ a t'', Own t' a → ¬ Step true t' a t'') → (finished (tr ++ tr')).Perm (List.range 1))) ∧
    ∃ t' tr', Runs.Run (Step true) oneJob tr' t' ∧ Runs.Guarded Own tr' ∧
      (finished (tr ++ tr')).Perm (List.range 1) := by
  obtain ⟨tr, hrun⟩ := oneJob_reached
  exact ⟨tr, jobs_finish (by decide) hrun⟩

end Team

end BulletinBoard
