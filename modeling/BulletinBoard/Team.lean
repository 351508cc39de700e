import BulletinBoard.Lib.Pool
import BulletinBoard.Lib.Run

/- thrd_mgmt.cc: one team of employees, its work queue and its binary semaphore. `push_work`
   and `pull_work` are one step each, with the `sem_post` inside, and so is each section of
   `bsem_wait` between taking the semaphore's mutex and giving it up. A section under `team_lock`
   is one step too, but for the last one, in which an employee takes itself off the count: what
   it does after that, `terminate_team`, which reads the count without the lock, does not wait
   for. `threads_keepalive` is a parameter of the steps. What is proved: the linked queue is
   first in first out, and no job is left in it while all employees sleep. -/
namespace BulletinBoard

/-! The queue. A work is named by its address; `prev` is the field of the work at an address. -/

structure WorkQueue where
  first : Option Nat
  last : Option Nat
  prev : Nat → Option Nat
  work_to_be_done : Nat

namespace WorkQueue

/-- `create_work_queue`. -/
def create : WorkQueue := ⟨none, none, fun _ => none, 0⟩

/-- The queue part of `push_work`. -/
def push_work (q : WorkQueue) (new_work : Nat) : WorkQueue :=
  let prev := Function.update q.prev new_work none
  match q.work_to_be_done with
  | 0 => { q with
      first := some new_work, last := some new_work, prev := prev
      work_to_be_done := q.work_to_be_done + 1 }
  | _ + 1 => { q with
      prev := q.last.elim prev fun l => Function.update prev l (some new_work)
      last := some new_work
      work_to_be_done := q.work_to_be_done + 1 }

/-- The queue part of `pull_work`: the work it returns, the queue, and whether it posts. -/
def pull_work (q : WorkQueue) : Option Nat × WorkQueue × Bool :=
  match q.work_to_be_done with
  | 0 => (q.first, q, false)
  | 1 => (q.first, { q with first := none, last := none, work_to_be_done := 0 }, false)
  | n + 2 => (q.first, { q with first := q.first.bind q.prev, work_to_be_done := n + 1 }, true)

/-- The works that are linked from `first` to `last` are `ws`. -/
structure Holds (q : WorkQueue) (ws : List Nat) : Prop where
  first : q.first = ws.head?
  last : q.last = ws.getLast?
  length : q.work_to_be_done = ws.length
  linked : ws.IsChain fun a b => q.prev a = some b
  nodup : ws.Nodup

theorem Holds.create : Holds create [] := ⟨rfl, rfl, rfl, .nil, .nil⟩

/-- The last work is linked to the new one; the links before it stay. -/
theorem linked_snoc {prev : Nat → Option Nat} {w l : Nat} : ∀ {ws : List Nat},
    ws.getLast? = some l → ws.Nodup → w ∉ ws → ws.IsChain (fun a b => prev a = some b) →
    (ws ++ [w]).IsChain fun a b => Function.update (Function.update prev w none) l (some w) a = some b
  | [], h, _, _, _ => by simp at h
  | [a], h, _, _, _ => by
    obtain rfl : a = l := by simpa using h
    simp
  | a :: b :: ws, h, hn, hw, hl => by
    rw [List.isChain_cons_cons] at hl
    have hlast : (b :: ws).getLast? = some l := by rw [← h, List.getLast?_cons_cons]
    have ha : a ≠ l := by
      rintro rfl
      exact (List.nodup_cons.1 hn).1 (List.mem_of_getLast? hlast)
    have haw : a ≠ w := fun he => hw (he ▸ List.mem_cons_self)
    have ih := linked_snoc hlast (List.nodup_cons.1 hn).2 (fun hm => hw (List.mem_cons_of_mem _ hm)) hl.2
    rw [List.cons_append, List.cons_append, List.isChain_cons_cons]
    exact ⟨by simp [Function.update, ha, haw, hl.1], ih⟩

theorem Holds.push_work {q : WorkQueue} {ws : List Nat} {w : Nat} (h : Holds q ws) (hw : w ∉ ws) :
    Holds (q.push_work w) (ws ++ [w]) := by
  have hnodup : (ws ++ [w]).Nodup := by
    rw [List.nodup_append]
    exact ⟨h.nodup, List.nodup_singleton w, fun a ha b hb => by
      obtain rfl : b = w := by simpa using hb
      rintro rfl
      exact hw ha⟩
  have hlength := h.length
  unfold WorkQueue.push_work
  split
  · next hzero =>
    obtain rfl : ws = [] := by
      apply List.eq_nil_of_length_eq_zero
      omega
    exact ⟨rfl, rfl, by simp [hlength], by simp, by simp⟩
  · next n hn =>
    have hne : ws ≠ [] := by
      rintro rfl
      simp only [List.length_nil] at hlength
      omega
    obtain ⟨l, hl⟩ : ∃ l, ws.getLast? = some l := by
      cases hg : ws.getLast? with
      | none => exact absurd (List.getLast?_eq_none_iff.1 hg) hne
      | some l => exact ⟨l, rfl⟩
    refine ⟨?_, ?_, ?_, ?_, hnodup⟩
    · show q.first = (ws ++ [w]).head?
      rw [h.first, List.head?_append_of_ne_nil ws hne]
    · show some w = (ws ++ [w]).getLast?
      simp
    · simp [hlength]
    · show (ws ++ [w]).IsChain fun a b => (q.last.elim _ _ : Nat → Option Nat) a = some b
      rw [h.last, hl]
      exact linked_snoc hl h.nodup hw h.linked

/-- `pull_work` returns the first work, and posts if there are more. -/
theorem Holds.pull_work {q : WorkQueue} {ws : List Nat} (h : Holds q ws) :
    (q.pull_work).1 = ws.head? ∧ Holds (q.pull_work).2.1 ws.tail ∧
      ((q.pull_work).2.2 = true ↔ 2 ≤ ws.length) := by
  have hlength := h.length
  unfold WorkQueue.pull_work
  split
  · next hzero =>
    obtain rfl : ws = [] := by
      apply List.eq_nil_of_length_eq_zero
      omega
    exact ⟨h.first, h, by simp⟩
  · next hone =>
    obtain ⟨a, rfl⟩ : ∃ a, ws = [a] := by
      apply List.length_eq_one_iff.1
      omega
    exact ⟨h.first, ⟨rfl, rfl, rfl, by simp, by simp⟩, by simp⟩
  · next n hn =>
    match ws, h, hlength with
    | [], _, hlength => simp only [List.length_nil] at hlength; omega
    | [_], _, hlength => simp only [List.length_singleton] at hlength; omega
    | a :: b :: ws, h, hlength =>
      have hlinked := List.isChain_cons_cons.1 h.linked
      refine ⟨h.first, ⟨?_, ?_, ?_, hlinked.2, (List.nodup_cons.1 h.nodup).2⟩, by simp⟩
      · show q.first.bind q.prev = some b
        rw [h.first]
        exact hlinked.1
      · show q.last = (b :: ws).getLast?
        rw [h.last, List.getLast?_cons_cons]
      · simp only [List.length_cons] at hlength
        simp only [List.tail_cons, List.length_cons]
        omega

end WorkQueue

/-! The team. -/

/-- Where an employee stands in `activate_employee`. In `bsem_wait` it is blocked in
    `pthread_cond_wait`, or has left it, signalled or not, and wants the mutex back. Behind the
    loop it is `leaving`, then off the count and at its log line, at the unlock, and at the
    return. -/
inductive Employee where
  | created
  | testAlive
  | bsemWait
  | blocked
  | signalled
  | spurious
  | testAgain
  | clockIn
  | pullWork
  | run (work_a : Option Nat)
  | clockOut
  | leaving
  | loggingOut
  | unlocking
  | returning
  | gone
  deriving DecidableEq, Repr

namespace Employee

/-- It has been signalled, or has left `bsem_wait` and not yet called `pull_work`. -/
def arriving : Employee → Bool
  | signalled | testAgain | clockIn | pullWork => true
  | _ => false

/-- It has left the work loop. -/
def leftLoop : Employee → Bool
  | leaving | loggingOut | unlocking | returning | gone => true
  | _ => false

/-- It counts in `no_of_employees_available`. -/
def inTeam : Employee → Bool
  | created | loggingOut | unlocking | returning | gone => false
  | _ => true

/-- It counts no more, and still runs. -/
def lingers : Employee → Bool
  | loggingOut | unlocking | returning => true
  | _ => false

/-- It has `team_lock` from one step to the next. -/
def holdsLock : Employee → Bool
  | loggingOut | unlocking => true
  | _ => false

/-- What a signal may do to an employee. -/
inductive Wakes : Employee → Employee → Prop where
  | stays (e : Employee) : Wakes e e
  | wakes : Wakes blocked signalled

/-- `pthread_cond_broadcast`, as one employee sees it. -/
def wake : Employee → Employee
  | blocked => signalled
  | e => e

end Employee

/-- The queue, the `pol` of its semaphore, the employees and how many there are; the works that
    were allocated so far, and what `pull_work` returned so far. -/
structure Team where
  work_queue_a : WorkQueue
  pol : Nat
  employees : List Employee
  no_of_employees_available : Int
  no_of_employees_working : Int
  allocated : Nat
  pulled : List Nat

namespace Team

/-- A team whose employees were created and have not run yet. -/
def create (num_of_emps : Nat) : Team where
  work_queue_a := .create
  pol := 0
  employees := List.replicate num_of_emps .created
  no_of_employees_available := 0
  no_of_employees_working := 0
  allocated := 0
  pulled := []

def set (t : Team) (i : Nat) (e : Employee) : Team :=
  { t with employees := t.employees.set i e }

/-- Nobody has `team_lock`. -/
def LockFree (t : Team) : Prop := ∀ e ∈ t.employees, e.holdsLock = false

instance (t : Team) : Decidable t.LockFree := inferInstanceAs (Decidable (∀ e ∈ t.employees, e.holdsLock = false))

/-- `sem_post`: the signal wakes at least one blocked employee, if there is one. -/
inductive SemPost (t : Team) : Team → Prop where
  | post {es : List Employee} : List.Forall₂ Employee.Wakes t.employees es →
      (.blocked ∈ t.employees →
        ∃ i : Nat, t.employees[i]? = some .blocked ∧ es[i]? = some .signalled) →
      SemPost t { t with pol := 1, employees := es }

/-- `bsem_post_all`. -/
def bsem_post_all (t : Team) : Team :=
  { t with pol := 1, employees := t.employees.map Employee.wake }

/-- `terminate_work_queue`: the works that are left are freed. -/
def terminate_work_queue (t : Team) : Team :=
  { t with work_queue_a := .create, pol := 0 }

/-- `push_work` of a work that `add_work_to_team` has just allocated. -/
def Push (t t' : Team) : Prop :=
  SemPost { t with
    work_queue_a := t.work_queue_a.push_work t.allocated, allocated := t.allocated + 1 } t'

/-- `pull_work`, by employee `i`. -/
def pulls (t : Team) (i : Nat) : Team :=
  { t.set i (.run t.work_queue_a.pull_work.1) with
    work_queue_a := t.work_queue_a.pull_work.2.1
    pulled := t.pulled ++ t.work_queue_a.pull_work.1.toList }

/-- A step of employee `i`, for a value of `threads_keepalive`. -/
inductive Work (threads_keepalive : Bool) (t : Team) (i : Nat) : Team → Prop where
  | arrives : t.employees[i]? = some .created → t.LockFree → Work threads_keepalive t i
      { t.set i .testAlive with no_of_employees_available := t.no_of_employees_available + 1 }
  | goesOn : t.employees[i]? = some .testAlive → threads_keepalive = true →
      Work threads_keepalive t i (t.set i .bsemWait)
  | leaves : t.employees[i]? = some .testAlive → threads_keepalive = false →
      Work threads_keepalive t i (t.set i .leaving)
  | blocks : t.employees[i]? = some .bsemWait → t.pol ≠ 1 → Work threads_keepalive t i (t.set i .blocked)
  | passes : t.employees[i]? = some .bsemWait → t.pol = 1 →
      Work threads_keepalive t i { t.set i .testAgain with pol := 0 }
  | wakesSpuriously : t.employees[i]? = some .blocked → Work threads_keepalive t i (t.set i .spurious)
  | wakes {e : Employee} : t.employees[i]? = some e → e = .signalled ∨ e = .spurious →
      Work threads_keepalive t i { t.set i .testAgain with pol := 0 }
  | goesToWork : t.employees[i]? = some .testAgain → threads_keepalive = true →
      Work threads_keepalive t i (t.set i .clockIn)
  | goesBack : t.employees[i]? = some .testAgain → threads_keepalive = false →
      Work threads_keepalive t i (t.set i .testAlive)
  | clocksIn : t.employees[i]? = some .clockIn → t.LockFree → Work threads_keepalive t i
      { t.set i .pullWork with no_of_employees_working := t.no_of_employees_working + 1 }
  | pulls : t.employees[i]? = some .pullWork → t.work_queue_a.pull_work.2.2 = false →
      Work threads_keepalive t i (t.pulls i)
  | pullsAndPosts {t' : Team} : t.employees[i]? = some .pullWork → t.work_queue_a.pull_work.2.2 = true →
      SemPost (t.pulls i) t' → Work threads_keepalive t i t'
  | runs {work_a : Option Nat} : t.employees[i]? = some (.run work_a) →
      Work threads_keepalive t i (t.set i .clockOut)
  | clocksOut : t.employees[i]? = some .clockOut → t.LockFree → Work threads_keepalive t i
      { t.set i .testAlive with no_of_employees_working := t.no_of_employees_working - 1 }
  | retires : t.employees[i]? = some .leaving → t.LockFree → Work threads_keepalive t i
      { t.set i .loggingOut with no_of_employees_available := t.no_of_employees_available - 1 }
  | logsOut : t.employees[i]? = some .loggingOut → Work threads_keepalive t i (t.set i .unlocking)
  | unlocks : t.employees[i]? = some .unlocking → Work threads_keepalive t i (t.set i .returning)
  | returns : t.employees[i]? = some .returning → Work threads_keepalive t i (t.set i .gone)

/-- A step of employee `some i`, or a `push_work` by any thread. -/
inductive Step (threads_keepalive : Bool) (t : Team) : Option Nat → Team → Prop where
  | work {i : Nat} {t' : Team} : Work threads_keepalive t i t' → Step threads_keepalive t (some i) t'
  | push {t' : Team} : Push t t' → Step threads_keepalive t none t'

/-- The works pulled so far and those in the queue are those allocated, in the order of their
    `push_work`. -/
def InOrder (t : Team) : Prop :=
  ∃ ws, t.work_queue_a.Holds ws ∧ t.pulled ++ ws = List.range t.allocated

/-- A work in the queue has an employee on the way to it, or a token that the next employee to
    reach `bsem_wait` finds. -/
def Attended (t : Team) : Prop :=
  t.work_queue_a.work_to_be_done ≠ 0 →
    (∃ e ∈ t.employees, e.arriving = true) ∨ (t.pol = 1 ∧ .blocked ∉ t.employees)

/-! The order of the works. -/

theorem SemPost.inOrder {t t' : Team} (h : InOrder t) (hs : SemPost t t') : InOrder t' := by
  cases hs
  exact h

theorem InOrder.push {t t' : Team} (h : InOrder t) (hs : Push t t') : InOrder t' := by
  obtain ⟨ws, hq, heq⟩ := h
  apply SemPost.inOrder ?_ hs
  have hfresh : t.allocated ∉ ws := by
    intro hmem
    have : t.allocated ∈ List.range t.allocated := heq ▸ List.mem_append_right _ hmem
    simp at this
  exact ⟨ws ++ [t.allocated], hq.push_work hfresh, by rw [← List.append_assoc, heq, List.range_succ]⟩

theorem InOrder.pulls {t : Team} (h : InOrder t) (i : Nat) : InOrder (t.pulls i) := by
  obtain ⟨ws, hq, heq⟩ := h
  obtain ⟨hfirst, htail, -⟩ := hq.pull_work
  refine ⟨ws.tail, htail, ?_⟩
  show t.pulled ++ t.work_queue_a.pull_work.1.toList ++ ws.tail = List.range t.allocated
  rw [hfirst, ← heq]
  cases ws <;> simp

theorem InOrder.work {t t' : Team} {k : Bool} {i : Nat} (h : InOrder t) (hs : Work k t i t') :
    InOrder t' := by
  cases hs with
  | pulls => exact h.pulls i
  | pullsAndPosts _ _ hp => exact hp.inOrder (h.pulls i)
  | _ => exact h

/-! The token. -/

/-- A post leaves a blocked employee signalled, or nobody blocked and the token set. -/
theorem SemPost.attended {t t' : Team} (hs : SemPost t t') : Attended t' := by
  cases hs with
  | post hw hsignal =>
    intro _
    by_cases hb : .blocked ∈ t.employees
    · obtain ⟨i, -, hi⟩ := hsignal hb
      exact Or.inl ⟨_, List.mem_of_getElem? hi, rfl⟩
    · refine Or.inr ⟨rfl, fun hmem => hb ?_⟩
      obtain ⟨i, hi⟩ := List.mem_iff_getElem?.1 hmem
      obtain ⟨e, he, hwe⟩ := Pool.getElem?_forall₂ hw hi
      cases hwe
      exact List.mem_of_getElem? he

/-- An employee that takes a step without pulling: nobody else stops arriving, and it blocks
    only when the token is not set. -/
theorem Attended.set {t : Team} (h : Attended t) {i : Nat} {e e' : Employee} {pol : Nat}
    {available working : Int} (hi : t.employees[i]? = some e) (ha : e.arriving = true → e'.arriving = true)
    (hpol : e'.arriving = true ∨ pol = t.pol) (hb : e' = .blocked → t.pol ≠ 1) :
    Attended { t.set i e' with
      pol := pol, no_of_employees_available := available, no_of_employees_working := working } := by
  intro hq
  have hset : e' ∈ t.employees.set i e' :=
    List.mem_of_getElem? (Pool.getElem?_set_of_getElem? hi)
  by_cases harr : e'.arriving = true
  · exact Or.inl ⟨e', hset, harr⟩
  rcases h hq with ⟨u, hu, hua⟩ | ⟨hone, hnone⟩
  · obtain ⟨j, hj⟩ := List.mem_iff_getElem?.1 hu
    have hji : j ≠ i := by
      rintro rfl
      obtain rfl : e = u := Option.some.inj (hi.symm.trans hj)
      exact harr (ha hua)
    have hj' : (t.employees.set i e')[j]? = some u := by
      rw [List.getElem?_set_ne (fun he => hji he.symm), hj]
    exact Or.inl ⟨u, List.mem_of_getElem? hj', hua⟩
  · refine Or.inr ⟨?_, ?_⟩
    · rcases hpol with hpol | hpol
      · exact absurd hpol harr
      · exact hpol.trans hone
    · intro hmem
      rcases List.mem_or_eq_of_mem_set hmem with hmem | he
      · exact hnone hmem
      · exact hb he.symm hone

/-- A `pull_work` that does not post leaves the queue empty. -/
theorem Attended.pulls {t : Team} (ho : InOrder t) {i : Nat} (hp : t.work_queue_a.pull_work.2.2 = false) :
    Attended (t.pulls i) := by
  obtain ⟨ws, hq, -⟩ := ho
  obtain ⟨-, htail, hpost⟩ := hq.pull_work
  intro hne
  refine absurd ?_ hne
  show t.work_queue_a.pull_work.2.1.work_to_be_done = 0
  have hlen : ¬ 2 ≤ ws.length := by rw [← hpost, hp]; simp
  rw [htail.length, List.length_tail]
  omega

/-- **The step lemma.** While the team is kept alive no step strands a job. -/
theorem Attended.step {t t' : Team} {a : Option Nat} (h : Attended t) (ho : InOrder t)
    (hs : Step true t a t') : Attended t' := by
  cases hs with
  | push hp => exact SemPost.attended hp
  | work hw =>
    cases hw with
    | arrives hi => exact h.set hi (fun he => by cases he) (Or.inr rfl) (fun he => by cases he)
    | goesOn hi => exact h.set hi (fun he => by cases he) (Or.inr rfl) (fun he => by cases he)
    | leaves _ hk => cases hk
    | blocks hi hpol => exact h.set hi (fun he => by cases he) (Or.inr rfl) (fun _ => hpol)
    | passes hi => exact h.set hi (fun _ => rfl) (Or.inl rfl) (fun he => by cases he)
    | wakesSpuriously hi => exact h.set hi (fun he => by cases he) (Or.inr rfl) (fun he => by cases he)
    | wakes hi => exact h.set hi (fun _ => rfl) (Or.inl rfl) (fun he => by cases he)
    | goesToWork hi => exact h.set hi (fun _ => rfl) (Or.inl rfl) (fun he => by cases he)
    | goesBack _ hk => cases hk
    | clocksIn hi => exact h.set hi (fun _ => rfl) (Or.inl rfl) (fun he => by cases he)
    | pulls _ hp => exact Attended.pulls ho hp
    | pullsAndPosts _ _ hp => exact SemPost.attended hp
    | runs hi => exact h.set hi (fun he => by cases he) (Or.inr rfl) (fun he => by cases he)
    | clocksOut hi => exact h.set hi (fun he => by cases he) (Or.inr rfl) (fun he => by cases he)
    | retires hi => exact h.set hi (fun he => by cases he) (Or.inr rfl) (fun he => by cases he)
    | logsOut hi => exact h.set hi (fun he => by cases he) (Or.inr rfl) (fun he => by cases he)
    | unlocks hi => exact h.set hi (fun he => by cases he) (Or.inr rfl) (fun he => by cases he)
    | returns hi => exact h.set hi (fun he => by cases he) (Or.inr rfl) (fun he => by cases he)

theorem InOrder.step {t t' : Team} {k : Bool} {a : Option Nat} (h : InOrder t) (hs : Step k t a t') :
    InOrder t' := by
  cases hs with
  | push hp => exact h.push hp
  | work hw => exact h.work hw

theorem InOrder.create (n : Nat) : InOrder (create n) := ⟨[], .create, rfl⟩

theorem Attended.create (n : Nat) : Attended (create n) := fun h => absurd rfl h

theorem inOrder_run {n : Nat} {t : Team} {k : Bool} {tr : List (Team × Option Nat)}
    (hrun : Runs.Run (Step k) (create n) tr t) : InOrder t :=
  hrun.inv_of_step (InOrder.create n) fun _ _ _ h hs => h.step hs

theorem attended_run {n : Nat} {t : Team} {tr : List (Team × Option Nat)}
    (hrun : Runs.Run (Step true) (create n) tr t) : Attended t := by
  have hstep : ∀ t a t', (InOrder t ∧ Attended t) → Step true t a t' → InOrder t' ∧ Attended t' := by
    intro t a t' h hs
    exact ⟨h.1.step hs, h.2.step h.1 hs⟩
  exact (hrun.inv_of_step ⟨InOrder.create n, Attended.create n⟩ hstep).2

/-- **No stranded job.** In every state that a team reaches while it is kept alive, a queue that
    is not empty has an employee on the way, or nobody is blocked and the token is set; and
    `pull_work` has returned works that were pushed, each at most once. -/
theorem no_stranded_job {n : Nat} {t : Team} {tr : List (Team × Option Nat)}
    (hrun : Runs.Run (Step true) (create n) tr t) :
    (t.work_queue_a.work_to_be_done ≠ 0 →
      (∃ e ∈ t.employees, e.arriving = true) ∨ (t.pol = 1 ∧ .blocked ∉ t.employees)) ∧
      ∀ w, t.pulled.count w ≤ if w < t.allocated then 1 else 0 := by
  refine ⟨attended_run hrun, fun w => ?_⟩
  obtain ⟨ws, -, heq⟩ := inOrder_run hrun
  have hle : t.pulled.count w ≤ (List.range t.allocated).count w := by
    rw [← heq, List.count_append]
    omega
  rw [List.count_range] at hle
  exact hle

/-- One employee that was blocked and has been signalled by the push of a job. -/
def oneJob : Team where
  work_queue_a := WorkQueue.create.push_work 0
  pol := 1
  employees := [.signalled]
  no_of_employees_available := 1
  no_of_employees_working := 0
  allocated := 1
  pulled := []

theorem oneJob_reached : ∃ tr, Runs.Run (Step true) (create 1) tr oneJob := by
  have h₀ : Runs.Run (Step true) (create 1) [] (create 1) := .nil
  have h₁ := h₀.snoc (.work (.arrives (i := 0) rfl (by decide)))
  have h₂ := h₁.snoc (.work (.goesOn (i := 0) rfl rfl))
  have h₃ := h₂.snoc (.work (.blocks (i := 0) rfl (by decide)))
  exact ⟨_, h₃.snoc (.push (.post (.cons .wakes .nil) fun _ => ⟨0, rfl, rfl⟩))⟩

/-- The theorem at that state. -/
theorem no_stranded_job_oneJob :
    (oneJob.work_queue_a.work_to_be_done ≠ 0 →
      (∃ e ∈ oneJob.employees, e.arriving = true) ∨ (oneJob.pol = 1 ∧ .blocked ∉ oneJob.employees)) ∧
      ∀ w, oneJob.pulled.count w ≤ if w < oneJob.allocated then 1 else 0 :=
  let ⟨_, hrun⟩ := oneJob_reached
  no_stranded_job hrun

end Team

end BulletinBoard
