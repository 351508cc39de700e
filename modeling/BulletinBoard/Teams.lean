import BulletinBoard.Team

/- thrd_mgmt.cc: any number of teams, made by `create_team` and ended by `terminate_team` in
   any threads. All employees test the one `threads_keepalive`, which every `create_team`
   sets and every `terminate_team` clears. `terminate_team` goes on when it reads that nobody is
   counted, which does not say that nobody runs: an employee takes itself off the count before
   its last steps. What is proved: in the runs in which a team is terminated after all others, and
   in which its last employee has also returned when the count is read, employees leave only a
   team that is being terminated, and no employee of a terminated team runs again. -/
namespace BulletinBoard

/-- How far `create_team` and `terminate_team` have come with a team. -/
inductive Stage where
  | hiring
  | active
  | terminating
  | terminated
  deriving DecidableEq, Repr

/-- `terminate_team` has been called. -/
def Stage.called : Stage → Bool
  | terminating | terminated => true
  | _ => false

structure Managed where
  team : Team
  num_of_emps : Nat
  stage : Stage

structure Teams where
  threads_keepalive : Bool
  teams : List Managed

namespace Teams

/-- Before the first `create_team`. -/
def init : Teams := ⟨false, []⟩

inductive Act where
  | create
  | hire (a : Nat)
  | ready (a : Nat)
  | work (a i : Nat)
  | push (a : Nat)
  | terminate (a : Nat)
  | post (a : Nat)
  | finish (a : Nat)
  deriving DecidableEq, Repr

def set (s : Teams) (a : Nat) (m : Managed) : Teams :=
  { s with teams := s.teams.set a m }

inductive Step (s : Teams) : Act → Teams → Prop where
  -- `create_team`, up to the hiring; a negative number makes an empty team
  | create (num_of_emps : Int) : Step s .create
      ⟨true, s.teams ++ [⟨Team.create 0, num_of_emps.toNat, .hiring⟩]⟩
  | createFails : Step s .create { s with threads_keepalive := true }
  | hire {a : Nat} {m : Managed} : s.teams[a]? = some m → m.stage = .hiring →
      m.team.employees.length < m.num_of_emps → Step s (.hire a)
      (s.set a { m with team := { m.team with employees := m.team.employees ++ [.created] } })
  -- the loop of `create_team` that waits for all employees ends
  | ready {a : Nat} {m : Managed} : s.teams[a]? = some m → m.stage = .hiring →
      m.team.employees.length = m.num_of_emps → m.team.no_of_employees_available = m.num_of_emps →
      Step s (.ready a) (s.set a { m with stage := .active })
  | work {a i : Nat} {m : Managed} {t : Team} : s.teams[a]? = some m →
      m.team.Work s.threads_keepalive i t → Step s (.work a i) (s.set a { m with team := t })
  | push {a : Nat} {m : Managed} {t : Team} : s.teams[a]? = some m → m.team.Push t →
      Step s (.push a) (s.set a { m with team := t })
  | terminate {a : Nat} {m : Managed} : s.teams[a]? = some m → m.stage = .active →
      Step s (.terminate a) { s.set a { m with stage := .terminating } with threads_keepalive := false }
  -- both loops of `terminate_team` post while an employee is available
  | post {a : Nat} {m : Managed} : s.teams[a]? = some m → m.stage = .terminating →
      m.team.no_of_employees_available ≠ 0 →
      Step s (.post a) (s.set a { m with team := m.team.bsem_post_all })
  | finish {a : Nat} {m : Managed} : s.teams[a]? = some m → m.stage = .terminating →
      m.team.no_of_employees_available = 0 →
      Step s (.finish a) (s.set a { m with team := m.team.terminate_work_queue, stage := .terminated })

/-- A team is terminated after all others that have employees; and when `terminate_team` finds nobody
    counted, the employees that took themselves off the count have returned. -/
def Alone (s : Teams) : Act → Prop
  | .terminate a => ∀ b m, b ≠ a → s.teams[b]? = some m → m.stage.called = true ∨ m.num_of_emps = 0
  | .finish a => ∀ m, s.teams[a]? = some m → ∀ e ∈ m.team.employees, e.lingers = false
  | _ => True

end Teams

/-! What a step of an employee can do. -/

namespace Employee

theorem Wakes.inTeam_eq {e e' : Employee} (h : Wakes e e') : e'.inTeam = e.inTeam := by
  cases h <;> rfl

theorem Wakes.leftLoop_eq {e e' : Employee} (h : Wakes e e') : e'.leftLoop = e.leftLoop := by
  cases h <;> rfl

theorem Wakes.eq_created {e : Employee} (h : Wakes e created) : e = created := by
  cases h; rfl

theorem Wakes.eq_of_gone {e' : Employee} (h : Wakes gone e') : e' = gone := by
  cases h; rfl

theorem wakes_wake (e : Employee) : Wakes e e.wake := by
  cases e <;> first | exact .wakes | exact .stays _

/-- Who is not counted has not arrived, or has left the loop. -/
theorem eq_created_of_not_inTeam {e : Employee} (h : e.inTeam = false) : e = created ∨ e.lingers = true ∨ e = gone := by
  cases e with
  | created => exact .inl rfl
  | loggingOut | unlocking | returning => exact .inr (.inl rfl)
  | gone => exact .inr (.inr rfl)
  | _ => cases h

end Employee

namespace Team

theorem forall₂_wakes_self (es : List Employee) : List.Forall₂ Employee.Wakes es es :=
  List.forall₂_same.2 fun e _ => .stays e

/-- One employee goes from `e` to `e'`, and a post may wake others. -/
structure Moved (k : Bool) (t : Team) (i : Nat) (e e' : Employee) (t' : Team) : Prop where
  at_i : t.employees[i]? = some e
  employees : List.Forall₂ Employee.Wakes (t.employees.set i e') t'.employees
  available : t'.no_of_employees_available + (if e.inTeam then 1 else 0) =
    t.no_of_employees_available + if e'.inTeam then 1 else 0
  left : e'.leftLoop = true → e.leftLoop = true ∨ k = false
  ne_created : e' ≠ .created
  ne_gone : e ≠ .gone

theorem SemPost.facts {t t' : Team} (h : SemPost t t') :
    List.Forall₂ Employee.Wakes t.employees t'.employees ∧
      t'.no_of_employees_available = t.no_of_employees_available := by
  cases h with
  | post hw => exact ⟨hw, rfl⟩

/-- **What a step of an employee can do.** -/
theorem Work.moved {k : Bool} {t t' : Team} {i : Nat} (h : Work k t i t') :
    ∃ e e', Moved k t i e e' t' := by
  have hself := fun e' => forall₂_wakes_self (t.employees.set i e')
  cases h with
  | arrives hi => exact ⟨_, _, hi, hself _, by simp [Employee.inTeam], by simp [Employee.leftLoop], by simp, by simp⟩
  | goesOn hi => exact ⟨_, _, hi, hself _, rfl, by simp [Employee.leftLoop], by simp, by simp⟩
  | leaves hi hk => exact ⟨_, _, hi, hself _, rfl, fun _ => Or.inr hk, by simp, by simp⟩
  | blocks hi => exact ⟨_, _, hi, hself _, rfl, by simp [Employee.leftLoop], by simp, by simp⟩
  | passes hi => exact ⟨_, _, hi, hself _, rfl, by simp [Employee.leftLoop], by simp, by simp⟩
  | wakesSpuriously hi => exact ⟨_, _, hi, hself _, rfl, by simp [Employee.leftLoop], by simp, by simp⟩
  | wakes hi he =>
    refine ⟨_, .testAgain, hi, hself _, ?_, by simp [Employee.leftLoop], by simp, ?_⟩
    · rcases he with rfl | rfl <;> rfl
    · rcases he with rfl | rfl <;> simp
  | goesToWork hi => exact ⟨_, _, hi, hself _, rfl, by simp [Employee.leftLoop], by simp, by simp⟩
  | goesBack hi => exact ⟨_, _, hi, hself _, rfl, by simp [Employee.leftLoop], by simp, by simp⟩
  | clocksIn hi => exact ⟨_, _, hi, hself _, rfl, by simp [Employee.leftLoop], by simp, by simp⟩
  | pulls hi => exact ⟨_, _, hi, hself _, rfl, by simp [Employee.leftLoop], by simp, by simp⟩
  | pullsAndPosts hi _ hp =>
    obtain ⟨hw, ha⟩ := hp.facts
    refine ⟨_, _, hi, hw, ?_, by simp [Employee.leftLoop], by simp, by simp⟩
    rw [ha]
    rfl
  | runs hi => exact ⟨_, _, hi, hself _, rfl, by simp [Employee.leftLoop], by simp, by simp⟩
  | clocksOut hi => exact ⟨_, _, hi, hself _, rfl, by simp [Employee.leftLoop], by simp, by simp⟩
  | retires hi =>
    exact ⟨_, _, hi, hself _, by simp [Employee.inTeam], fun _ => Or.inl rfl, by simp, by simp⟩
  | logsOut hi => exact ⟨_, _, hi, hself _, rfl, fun _ => Or.inl rfl, by simp, by simp⟩
  | unlocks hi => exact ⟨_, _, hi, hself _, rfl, fun _ => Or.inl rfl, by simp, by simp⟩
  | returns hi => exact ⟨_, _, hi, hself _, rfl, fun _ => Or.inl rfl, by simp, by simp⟩

/-- The employees after a step are those before it, `e'` in the place of `e`, some of them woken. -/
theorem Moved.mem {k : Bool} {t t' : Team} {i : Nat} {e e' u : Employee} (h : Moved k t i e e' t')
    (hu : u ∈ t'.employees) : ∃ w, (w ∈ t.employees ∨ w = e') ∧ Employee.Wakes w u := by
  obtain ⟨j, hj⟩ := List.mem_iff_getElem?.1 hu
  obtain ⟨w, hw, hwu⟩ := Pool.getElem?_forall₂ h.employees hj
  exact ⟨w, List.mem_or_eq_of_mem_set (List.mem_of_getElem? hw), hwu⟩

end Team

/-! The count of the employees, and the end of a team. -/

/-- The employees that are available are counted, and all have arrived when the team is returned. -/
structure Managed.Counted (m : Managed) : Prop where
  available : m.team.no_of_employees_available = m.team.employees.countP Employee.inTeam
  hired : m.team.employees.length ≤ m.num_of_emps
  arrived : m.stage ≠ .hiring → .created ∉ m.team.employees

namespace Managed.Counted

variable {m : Managed}

/-- A post changes who is blocked only. -/
theorem wakes (h : m.Counted) {t : Team} (hw : List.Forall₂ Employee.Wakes m.team.employees t.employees)
    (ha : t.no_of_employees_available = m.team.no_of_employees_available) :
    Counted { m with team := t } where
  available := by
    show t.no_of_employees_available = t.employees.countP Employee.inTeam
    rw [ha, h.available, Pool.countP_forall₂ hw fun _ _ hwz => hwz.inTeam_eq]
  hired := hw.length_eq ▸ h.hired
  arrived := by
    intro hs hmem
    obtain ⟨j, hj⟩ := List.mem_iff_getElem?.1 hmem
    obtain ⟨w, hj', hwu⟩ := Pool.getElem?_forall₂ hw hj
    exact h.arrived hs (hwu.eq_created ▸ List.mem_of_getElem? hj')

theorem work (h : m.Counted) {k : Bool} {i : Nat} {t : Team} (hw : m.team.Work k i t) :
    Counted { m with team := t } := by
  obtain ⟨e, e', hm⟩ := hw.moved
  have hset : ∀ u ∈ t.employees, ∃ w, (w ∈ m.team.employees ∨ w = e') ∧ Employee.Wakes w u := fun u hu => hm.mem hu
  refine ⟨?_, ?_, ?_⟩
  · show t.no_of_employees_available = t.employees.countP Employee.inTeam
    have hcount : ((m.team.employees.set i e').countP Employee.inTeam : Int) + (if e.inTeam then 1 else 0) =
        m.team.employees.countP Employee.inTeam + if e'.inTeam then 1 else 0 := by
      exact_mod_cast Pool.countP_set_add (x := e') (p := Employee.inTeam) hm.at_i
    rw [Pool.countP_forall₂ hm.employees fun _ _ hwz => hwz.inTeam_eq]
    linarith [h.available, hm.available]
  · have hlen := hm.employees.length_eq
    rw [List.length_set] at hlen
    exact hlen ▸ h.hired
  · intro hs hmem
    obtain ⟨w, hw | rfl, hwu⟩ := hset _ hmem
    · exact h.arrived hs (hwu.eq_created ▸ hw)
    · exact hm.ne_created hwu.eq_created

/-- All employees are available: none is still to arrive. -/
theorem ready (h : m.Counted) (hlen : m.team.employees.length = m.num_of_emps)
    (havailable : m.team.no_of_employees_available = m.num_of_emps) :
    Counted { m with stage := .active } where
  available := h.available
  hired := h.hired
  arrived := by
    intro _ hmem
    have hall : m.team.employees.countP Employee.inTeam = m.team.employees.length := by
      have := h.available
      omega
    have := List.countP_eq_length.1 hall _ hmem
    cases this

theorem finish (h : m.Counted) (hs : m.stage = .terminating) :
    Counted { m with team := m.team.terminate_work_queue, stage := .terminated } where
  available := h.available
  hired := h.hired
  arrived := fun _ => h.arrived (by rw [hs]; simp)

/-- With nobody counted, the employees are gone or on their last steps. -/
theorem out (h : m.Counted) (hs : m.stage = .terminating) (havailable : m.team.no_of_employees_available = 0) :
    ∀ e ∈ m.team.employees, e.lingers = true ∨ e = .gone := by
  intro e hmem
  have hnone : m.team.employees.countP Employee.inTeam = 0 := by
    have := h.available
    omega
  have hout := List.countP_eq_zero.1 hnone e hmem
  refine (Employee.eq_created_of_not_inTeam (by simpa using hout)).resolve_left ?_
  rintro rfl
  exact h.arrived (by rw [hs]; simp) hmem

end Managed.Counted

namespace Teams

variable {s s' : Teams} {act : Act}

theorem mem_of_getElem? {a : Nat} {m : Managed} (h : s.teams[a]? = some m) : m ∈ s.teams :=
  List.mem_of_getElem? h

theorem counted_step (h : ∀ m ∈ s.teams, m.Counted) (hs : Step s act s') : ∀ m ∈ s'.teams, m.Counted := by
  cases hs with
  | create num_of_emps =>
    intro m hm
    rcases List.mem_append.1 hm with hm | hm
    · exact h m hm
    · obtain rfl := List.mem_singleton.1 hm
      exact ⟨rfl, Nat.zero_le _, fun hs => absurd rfl hs⟩
  | createFails => exact h
  | @hire a m hm hstage hlt =>
    have hc := h m (mem_of_getElem? hm)
    refine Pool.forall_mem_set h ⟨?_, ?_, fun hs => absurd hstage hs⟩
    · simpa [Employee.inTeam] using hc.available
    · simpa using hlt
  | ready hm _ hlen havailable => exact Pool.forall_mem_set h ((h _ (mem_of_getElem? hm)).ready hlen havailable)
  | work hm hw => exact Pool.forall_mem_set h ((h _ (mem_of_getElem? hm)).work hw)
  | push hm hp =>
    obtain ⟨hw, ha⟩ := Team.SemPost.facts hp
    exact Pool.forall_mem_set h ((h _ (mem_of_getElem? hm)).wakes hw ha)
  | @terminate a m hm hstage =>
    have hc := h m (mem_of_getElem? hm)
    refine Pool.forall_mem_set h ⟨hc.available, hc.hired, fun _ => ?_⟩
    exact hc.arrived (by rw [hstage]; simp)
  | @post a m hm _ _ =>
    refine Pool.forall_mem_set h ((h _ (mem_of_getElem? hm)).wakes ?_ rfl)
    exact List.forall₂_map_right_iff.2 (List.forall₂_same.2 fun e _ => e.wakes_wake)
  | finish hm hstage havailable =>
    exact Pool.forall_mem_set h ((h _ (mem_of_getElem? hm)).finish hstage)

theorem counted_run {tr : List (Teams × Act)} (hrun : Runs.Run Step init tr s) :
    ∀ m ∈ s.teams, m.Counted := by
  have hinit : ∀ m ∈ init.teams, m.Counted := fun m hm => by cases hm
  exact hrun.inv_of_step hinit fun _ _ _ h hs => counted_step h hs

/-! The flag and the end of a team. -/

/-- While the flag is clear all teams that have employees are being terminated, who has left a
    team has left one that is, and all are gone when `terminate_team` returns. -/
structure Spared (s : Teams) : Prop where
  alive : s.threads_keepalive = false → ∀ m ∈ s.teams, m.stage.called = true ∨ m.num_of_emps = 0
  left : ∀ m ∈ s.teams, ∀ e ∈ m.team.employees, e.leftLoop = true → m.stage.called = true
  ended : ∀ m ∈ s.teams, m.stage = .terminated → ∀ e ∈ m.team.employees, e = .gone

/-- A team in the list is replaced, its termination still called if it was. -/
theorem Spared.set (h : Spared s) {a : Nat} {m m' : Managed} (hm : s.teams[a]? = some m)
    (hstage : m.stage.called = true → m'.stage.called = true) (hnum : m'.num_of_emps = m.num_of_emps)
    (hleft : ∀ e ∈ m'.team.employees, e.leftLoop = true → m'.stage.called = true)
    (hended : m'.stage = .terminated → ∀ e ∈ m'.team.employees, e = .gone) : Spared (s.set a m') where
  alive hk := Pool.forall_mem_set (h.alive hk)
    ((h.alive hk m (mem_of_getElem? hm)).imp hstage fun hz => hnum.trans hz)
  left := Pool.forall_mem_set h.left hleft
  ended := Pool.forall_mem_set h.ended hended

theorem Spared.wakes (h : Spared s) {a : Nat} {m : Managed} {t : Team} (hm : s.teams[a]? = some m)
    (hw : List.Forall₂ Employee.Wakes m.team.employees t.employees) : Spared (s.set a { m with team := t }) := by
  have hmem := mem_of_getElem? hm
  refine h.set hm id rfl (fun e he hl => ?_) fun hs e he => ?_
  · obtain ⟨j, hj⟩ := List.mem_iff_getElem?.1 he
    obtain ⟨w, hj', hwe⟩ := Pool.getElem?_forall₂ hw hj
    exact h.left m hmem w (List.mem_of_getElem? hj') (hwe.leftLoop_eq ▸ hl)
  · obtain ⟨j, hj⟩ := List.mem_iff_getElem?.1 he
    obtain ⟨w, hj', hwe⟩ := Pool.getElem?_forall₂ hw hj
    obtain rfl := h.ended m hmem hs w (List.mem_of_getElem? hj')
    exact hwe.eq_of_gone

/-- **The step lemma.** -/
theorem Spared.step (h : Spared s) (hcount : ∀ m ∈ s.teams, m.Counted) (hok : Alone s act) (hs : Step s act s') :
    Spared s' := by
  cases hs with
  | create num_of_emps =>
    refine ⟨fun hk => (by cases hk), fun m hm e he hl => ?_, fun m hm hs e he => ?_⟩
    · rcases List.mem_append.1 hm with hm | hm
      · exact h.left m hm e he hl
      · obtain rfl := List.mem_singleton.1 hm
        cases he
    · rcases List.mem_append.1 hm with hm | hm
      · exact h.ended m hm hs e he
      · obtain rfl := List.mem_singleton.1 hm
        cases he
  | createFails => exact ⟨fun hk => (by cases hk), h.left, h.ended⟩
  | @hire a m hm hstage _ =>
    refine h.set hm id rfl (fun e he hl => ?_) fun hs => by cases hstage.symm.trans hs
    rcases List.mem_append.1 he with he | he
    · exact h.left m (mem_of_getElem? hm) e he hl
    · obtain rfl := List.mem_singleton.1 he
      cases hl
  | @ready a m hm hstage _ _ =>
    have hstage' : m.stage.called ≠ true := by rw [hstage]; simp [Stage.called]
    refine h.set hm (fun hc => absurd hc hstage') rfl (fun e he hl => ?_) fun hs => by cases hs
    exact absurd (h.left m (mem_of_getElem? hm) e he hl) hstage'
  | @work a i m t hm hw =>
    obtain ⟨e, e', hmoved⟩ := hw.moved
    have hmem := mem_of_getElem? hm
    have hi := List.mem_of_getElem? hmoved.at_i
    refine h.set hm id rfl (fun u hu hl => ?_) fun hs => absurd (h.ended m hmem hs e hi) hmoved.ne_gone
    obtain ⟨w, hw, hwu⟩ := hmoved.mem hu
    rw [hwu.leftLoop_eq] at hl
    rcases hw with hw | rfl
    · exact h.left m hmem w hw hl
    · rcases hmoved.left hl with hl | hk
      · exact h.left m hmem e hi hl
      · refine (h.alive hk m hmem).resolve_right fun hz => ?_
        have hlen := (hcount m hmem).hired
        rw [hz, Nat.le_zero, List.length_eq_zero_iff] at hlen
        rw [hlen] at hi
        cases hi
  | push hm hp => exact h.wakes hm (Team.SemPost.facts hp).1
  | @terminate a m hm _ =>
    -- the others are being terminated already
    refine ⟨fun _ u hu => ?_, Pool.forall_mem_set h.left fun _ _ _ => rfl, Pool.forall_mem_set h.ended fun hs => by cases hs⟩
    obtain ⟨b, hb⟩ := List.mem_iff_getElem?.1 hu
    rcases Pool.getElem?_set_cases hb with ⟨-, rfl⟩ | ⟨hne, hb⟩
    · exact Or.inl rfl
    · exact hok b u hne hb
  | @post a m hm _ _ =>
    refine h.wakes hm ?_
    exact List.forall₂_map_right_iff.2 (List.forall₂_same.2 fun e _ => e.wakes_wake)
  | @finish a m hm hstage havailable =>
    refine h.set hm (fun _ => rfl) rfl (fun _ _ _ => rfl) fun _ e he => ?_
    have hlast := hok m hm e he
    refine ((hcount m (mem_of_getElem? hm)).out hstage havailable e he).resolve_left fun hlingers => ?_
    rw [hlast] at hlingers
    cases hlingers

theorem Spared.run {tr : List (Teams × Act)} (hrun : Runs.Run Step init tr s)
    (hok : Runs.Guarded Alone tr) : Spared s := by
  have hinit : (∀ m ∈ init.teams, m.Counted) ∧ Spared init := by
    refine ⟨fun m hm => ?_, fun _ m hm => ?_, fun m hm => ?_, fun m hm => ?_⟩
    all_goals cases hm
  have hstep : ∀ s act s', ((∀ m ∈ s.teams, m.Counted) ∧ Spared s) → Alone s act → Step s act s' →
      (∀ m ∈ s'.teams, m.Counted) ∧ Spared s' := by
    intro s act s' h hok hs
    exact ⟨counted_step h.1 hs, h.2.step h.1 hok hs⟩
  refine (Runs.Run.inv ?_ hstep hrun hok).2
  exact hinit

/-- Who has left the work loop has left a team that `terminate_team` was called on, and no
    employee of a team that it has returned from takes another step. -/
def StopsOnlyIts (s : Teams) : Prop :=
  (∀ m ∈ s.teams, ∀ e ∈ m.team.employees, e.leftLoop = true → m.stage.called = true) ∧
    ∀ a m, s.teams[a]? = some m → m.stage = .terminated → ∀ i s', ¬Step s (.work a i) s'

/-- Who is gone takes no step. -/
theorem Spared.not_work (h : Spared s) {a : Nat} {m : Managed} (hm : s.teams[a]? = some m)
    (hstage : m.stage = .terminated) (i : Nat) (s' : Teams) : ¬Step s (.work a i) s' := by
  intro hs
  cases hs with
  | @work _ _ m' t hm' hw =>
    obtain rfl : m = m' := Option.some.inj (hm.symm.trans hm')
    obtain ⟨e, e', hmoved⟩ := hw.moved
    exact hmoved.ne_gone (h.ended m (mem_of_getElem? hm) hstage e (List.mem_of_getElem? hmoved.at_i))

/-- **Terminating a team stops only that team**, where each team is terminated after all
    others that have employees, and its last employee returns before its count is read. -/
theorem terminate_stops_only_its {tr : List (Teams × Act)} (hrun : Runs.Run Step init tr s)
    (hok : Runs.Guarded Alone tr) : StopsOnlyIts s := by
  have h := Spared.run hrun hok
  exact ⟨h.left, fun _ _ hm hstage => h.not_work hm hstage⟩

/-- A team of one employee that has arrived. -/
def oneEmployee (e : Employee) (stage : Stage) : Managed where
  team := { Team.create 1 with employees := [e], no_of_employees_available := 1 }
  num_of_emps := 1
  stage := stage

/-- A team of one, made after others, and its employee at the head of its loop. -/
theorem run_oneEmployee {tr : List (Teams × Act)} (hrun : Runs.Run Step init tr s) :
    ∃ tr', Runs.Run Step init tr' ⟨true, s.teams ++ [oneEmployee .testAlive .active]⟩ ∧
      (Runs.Guarded Alone tr → Runs.Guarded Alone tr') := by
  have hget : ∀ m : Managed, (s.teams ++ [m])[s.teams.length]? = some m := fun m => by simp
  have hset : ∀ m m' : Managed, (s.teams ++ [m]).set s.teams.length m' = s.teams ++ [m'] := fun m m' => by simp
  have h₁ := hrun.snoc (.create 1)
  have h₂ := h₁.snoc (.hire (hget _) rfl (by decide))
  simp only [set, hset] at h₂
  have h₃ := h₂.snoc (.work (hget _) (.arrives (i := 0) rfl (by decide)))
  simp only [set, hset] at h₃
  have h₄ := h₃.snoc (.ready (hget _) rfl rfl rfl)
  simp only [set, hset] at h₄
  refine ⟨_, h₄, fun hok => ?_⟩
  intro p hp
  simp only [List.mem_append, List.mem_singleton] at hp
  rcases hp with (((hp | rfl) | rfl) | rfl) | rfl
  · exact hok p hp
  all_goals trivial

/-- Two teams of one employee; the first is terminated, and the employee of the second leaves. And a
    team that is alone: it is terminated, and its employee has still to log that it leaves. -/
theorem terminate_stops_another :
    (¬∀ (tr : List (Teams × Act)) (s : Teams), Runs.Run Step init tr s → StopsOnlyIts s) ∧
      ∃ tr m s', Runs.Run Step init tr ⟨false, [m]⟩ ∧ m.stage = .terminated ∧ Step ⟨false, [m]⟩ (.work 0 0) s' := by
  obtain ⟨tr₁, h₁, -⟩ := run_oneEmployee .nil
  refine ⟨fun hall => ?_, ?_⟩
  · obtain ⟨tr₂, h₂, -⟩ := run_oneEmployee h₁
    have h₃ := h₂.snoc (.terminate (a := 0) rfl rfl)
    have h₄ := h₃.snoc (.work (a := 1) rfl (.leaves (i := 0) rfl rfl))
    have hcalled := (hall _ _ h₄).1 (oneEmployee .leaving .active) (by simp [oneEmployee, Team.set, set, init]) .leaving
      (by simp [oneEmployee]) rfl
    cases hcalled
  · have h₂ := h₁.snoc (.terminate (a := 0) rfl rfl)
    have h₃ := h₂.snoc (.work (a := 0) rfl (.leaves (i := 0) rfl rfl))
    have h₄ := h₃.snoc (.work (a := 0) rfl (.retires (i := 0) rfl (by decide)))
    have h₅ := h₄.snoc (.finish (a := 0) rfl rfl rfl)
    exact ⟨_, _, _, h₅, rfl, .work rfl (.logsOut rfl)⟩

/-- The theorem for a team that is alone, and whose employee has returned. -/
theorem terminate_stops_only_its_alone : ∃ m : Managed, m.stage = .terminated ∧ m.team.employees = [.gone] ∧
    StopsOnlyIts ⟨false, [m]⟩ := by
  obtain ⟨tr, h₁, hok⟩ := run_oneEmployee .nil
  have h₂ := h₁.snoc (.terminate (a := 0) rfl rfl)
  have h₃ := h₂.snoc (.work (a := 0) rfl (.leaves (i := 0) rfl rfl))
  have h₄ := h₃.snoc (.work (a := 0) rfl (.retires (i := 0) rfl (by decide)))
  have h₅ := h₄.snoc (.work (a := 0) rfl (.logsOut (i := 0) rfl))
  have h₆ := h₅.snoc (.work (a := 0) rfl (.unlocks (i := 0) rfl))
  have h₇ := h₆.snoc (.work (a := 0) rfl (.returns (i := 0) rfl))
  have h₈ := h₇.snoc (.finish (a := 0) rfl rfl rfl)
  refine ⟨_, ?_, ?_, terminate_stops_only_its h₈ ?_⟩
  · rfl
  · rfl
  have hguard := hok fun q hq => by cases hq
  intro p hp
  simp only [List.mem_append, List.mem_singleton] at hp
  rcases hp with ((((((hp | rfl) | rfl) | rfl) | rfl) | rfl) | rfl) | rfl
  · exact hguard p hp
  · intro b m hb hm
    cases b with
    | zero => exact absurd rfl hb
    | succ b => simp [init] at hm
  all_goals try trivial
  intro m hm e he
  obtain rfl := Option.some.inj hm
  obtain rfl := List.mem_singleton.1 he
  rfl

end Teams

end BulletinBoard
