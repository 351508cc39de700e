import BulletinBoard.Lib.Pool
import BulletinBoard.Lib.Run

/- descriptor.cc: the lock around the bbfile that `read_descriptor` and `write_descriptor`
   share, with any number of threads in either function. Which return path a call takes is
   left open, since it depends on the file and on the arguments. Taking and giving back the
   mutex are steps of their own; a decrement, its test and its broadcast are one step, for
   the counter is not looked at without the mutex. The counter is an Int: it would take
   2^32 readers at once for the unsigned counter to wrap around. What is proved: the counter
   counts the readers, a writer is alone, and no wake-up is missed. -/
namespace BulletinBoard.ReadWrite

/-- Where a thread stands, first in `read_descriptor` and then in `write_descriptor`. In `wait`
    it is blocked in `pthread_cond_wait`, or has left it and wants the mutex back (`woken`). -/
inductive Pc where
  | lockToRead
  | countUp
  | unlockToRead
  | read
  | lockToLeave (ret : Int)
  | countDown (ret : Int)
  | unlockToLeave (ret : Int)
  | lockToWrite
  | testReads
  | wait (woken : Bool)
  | testArguments
  | openToRead
  | openToAppend
  | append
  | broadcast (ret : Int)
  | unlock (ret : Int)
  | returned (ret : Int)
  deriving DecidableEq, Repr

namespace Pc

/-- Between taking the mutex and giving it back. -/
def holds : Pc → Bool
  | countUp | unlockToRead | countDown _ | unlockToLeave _ => true
  | testReads | testArguments | openToRead | openToAppend | append | broadcast _ | unlock _ => true
  | _ => false

/-- A reader between its increment and its decrement. -/
def counted : Pc → Bool
  | unlockToRead | read | lockToLeave _ | countDown _ => true
  | _ => false

/-- A writer past its wait loop and before its unlock. -/
def writing : Pc → Bool
  | testArguments | openToRead | openToAppend | append | broadcast _ | unlock _ => true
  | _ => false

/-- The step that takes the mutex: a lock, or the end of a `pthread_cond_wait`. -/
def acquired : Pc → Option Pc
  | lockToRead => some countUp
  | lockToLeave ret => some (countDown ret)
  | lockToWrite => some testReads
  | wait true => some testReads
  | _ => none

/-- The step that gives the mutex back. -/
def released : Pc → Option Pc
  | unlockToRead => some read
  | unlockToLeave ret => some (returned ret)
  | unlock ret => some (returned ret)
  | _ => none

/-- The steps in between: what a thread does with the file, on every path. -/
inductive Moves : Pc → Pc → Prop where
  | readNoFile : Moves read (lockToLeave (-2))
  | readFound (length : Nat) : Moves read (lockToLeave length)
  | readNotFound : Moves read (lockToLeave (-1))
  | nullArgument : Moves testArguments (broadcast (-1))
  | allArguments : Moves testArguments openToRead
  | openToReadFails : Moves openToRead (broadcast (-2))
  | opensToRead : Moves openToRead openToAppend
  | openToAppendFails : Moves openToAppend (broadcast (-2))
  | opensToAppend : Moves openToAppend append
  | appends : Moves append (broadcast 0)

/-- `pthread_cond_broadcast`, as one thread sees it. -/
def wake : Pc → Pc
  | wait _ => wait true
  | t => t

end Pc

/-- `file_queue_a`: who holds the mutex, the counter, and the threads. -/
structure FileQueue where
  access_file_queue : Option Nat
  reads : Int
  threads : List Pc
  deriving DecidableEq, Repr

namespace FileQueue

def empty : FileQueue := ⟨none, 0, []⟩

def set (s : FileQueue) (i : Nat) (t : Pc) : FileQueue :=
  { s with threads := s.threads.set i t }

/-- `pthread_cond_broadcast(&file_queue_a.can_write)`. -/
def wakeAll (s : FileQueue) : FileQueue :=
  { s with threads := s.threads.map Pc.wake }

/-- `reads--; if (reads == 0) pthread_cond_broadcast(...)`. -/
def countDown (s : FileQueue) : FileQueue :=
  let s := { s with reads := s.reads - 1 }
  if s.reads = 0 then s.wakeAll else s

end FileQueue

open FileQueue

/-- A step of thread `some i`, or a call that starts a new thread. -/
inductive Step (s : FileQueue) : Option Nat → FileQueue → Prop where
  | callRead : Step s none { s with threads := s.threads ++ [.lockToRead] }
  | callWrite : Step s none { s with threads := s.threads ++ [.lockToWrite] }
  | acquire {i : Nat} {t t' : Pc} : s.threads[i]? = some t → t.acquired = some t' →
      s.access_file_queue = none → Step s (some i) { s.set i t' with access_file_queue := some i }
  | release {i : Nat} {t t' : Pc} : s.threads[i]? = some t → t.released = some t' →
      Step s (some i) { s.set i t' with access_file_queue := none }
  | move {i : Nat} {t t' : Pc} : s.threads[i]? = some t → t.Moves t' → Step s (some i) (s.set i t')
  | countUp {i : Nat} : s.threads[i]? = some .countUp →
      Step s (some i) { s.set i .unlockToRead with reads := s.reads + 1 }
  | countDown {i : Nat} {ret : Int} : s.threads[i]? = some (.countDown ret) →
      Step s (some i) (s.set i (.unlockToLeave ret)).countDown
  -- the mutex is given back together with the wait
  | blocks {i : Nat} : s.threads[i]? = some .testReads → s.reads ≠ 0 →
      Step s (some i) { s.set i (.wait false) with access_file_queue := none }
  | passes {i : Nat} : s.threads[i]? = some .testReads → s.reads = 0 →
      Step s (some i) (s.set i .testArguments)
  | wakesSpuriously {i : Nat} : s.threads[i]? = some (.wait false) → Step s (some i) (s.set i (.wait true))
  | broadcast {i : Nat} {ret : Int} : s.threads[i]? = some (.broadcast ret) →
      Step s (some i) (s.set i (.unlock ret)).wakeAll

/-! What a program counter can say is kept by a wake-up. -/

namespace Pc

@[simp] theorem holds_wake (t : Pc) : t.wake.holds = t.holds := by cases t <;> rfl

@[simp] theorem counted_wake (t : Pc) : t.wake.counted = t.counted := by cases t <;> rfl

@[simp] theorem writing_wake (t : Pc) : t.wake.writing = t.writing := by cases t <;> rfl

theorem wake_ne_wait (t : Pc) : t.wake ≠ wait false := by cases t <;> simp [wake]

theorem holds_of_writing {t : Pc} (h : t.writing = true) : t.holds = true := by
  cases t <;> simp_all [writing, holds]

theorem acquired_facts {t t' : Pc} (h : t.acquired = some t') :
    t.holds = false ∧ t'.counted = t.counted ∧ t'.writing = false ∧ t' ≠ wait false := by
  unfold acquired at h
  split at h <;> first | (cases h; done) | (obtain rfl := Option.some.inj h; simp [holds, counted, writing])

theorem released_facts {t t' : Pc} (h : t.released = some t') :
    t.holds = true ∧ t'.holds = false ∧ t'.counted = t.counted ∧ t'.writing = false ∧ t' ≠ wait false := by
  unfold released at h
  split at h <;> first | (cases h; done) | (obtain rfl := Option.some.inj h; simp [holds, counted, writing])

theorem Moves.facts {t t' : Pc} (h : t.Moves t') :
    t'.holds = t.holds ∧ t'.counted = t.counted ∧ t'.writing = t.writing ∧ t' ≠ wait false := by
  cases h <;> simp [holds, counted, writing]

end Pc

/-! The invariant. -/

/-- The threads that hold the mutex are its owner, the counter counts the readers, and it is 0
    while a writer writes and positive while one waits. -/
structure Inv (s : FileQueue) : Prop where
  holder : ∀ i t, s.threads[i]? = some t → t.holds = true → s.access_file_queue = some i
  reads : s.reads = s.threads.countP Pc.counted
  writing : ∀ t ∈ s.threads, t.writing = true → s.reads = 0
  waits : .wait false ∈ s.threads → 0 < s.reads

theorem Inv.empty : Inv FileQueue.empty where
  holder := by simp [FileQueue.empty]
  reads := rfl
  writing := by simp [FileQueue.empty]
  waits := by simp [FileQueue.empty]

/-- A new thread, at its first lock. -/
theorem Inv.call {s : FileQueue} (h : Inv s) {t : Pc} (hh : t.holds = false) (hc : t.counted = false)
    (hw : t ≠ .wait false) : Inv { s with threads := s.threads ++ [t] } where
  holder := by
    intro j u hj hu
    rcases Pool.getElem?_snoc_cases hj with ⟨-, rfl⟩ | hj
    · rw [hh] at hu; cases hu
    · exact h.holder j u hj hu
  reads := by simpa [hc] using h.reads
  writing := by
    intro u hu hwr
    rcases List.mem_append.1 hu with hu | hu
    · exact h.writing u hu hwr
    · obtain rfl : u = t := by simpa using hu
      rw [Pc.holds_of_writing hwr] at hh
      cases hh
  waits := by
    intro hu
    rcases List.mem_append.1 hu with hu | hu
    · exact h.waits hu
    · exact absurd (by simpa using hu : Pc.wait false = t).symm hw

/-- One thread takes a step that neither counts nor wakes: the mutex may change hands. -/
theorem Inv.set {s : FileQueue} (h : Inv s) {i : Nat} {t t' : Pc} {m : Option Nat}
    (hi : s.threads[i]? = some t) (hc : t'.counted = t.counted)
    (hothers : ∀ j u, j ≠ i → s.threads[j]? = some u → u.holds = true → m = some j)
    (hh : t'.holds = true → m = some i) (hw : t'.writing = true → s.reads = 0)
    (hwait : t' = .wait false → 0 < s.reads) : Inv { s.set i t' with access_file_queue := m } where
  holder := by
    intro j u hj hu
    rcases Pool.getElem?_set_cases hj with ⟨rfl, rfl⟩ | ⟨hne, hj⟩
    · exact hh hu
    · exact hothers j u hne hj hu
  reads := by
    show s.reads = (s.threads.set i t').countP Pc.counted
    rw [Pool.countP_set_same hi hc]
    exact h.reads
  writing := Pool.forall_mem_set h.writing hw
  waits := by
    intro hu
    rcases List.mem_or_eq_of_mem_set hu with hu | hu
    · exact h.waits hu
    · exact hwait hu.symm

/-- While a thread holds the mutex no other thread does. -/
theorem Inv.not_holds {s : FileQueue} (h : Inv s) {i j : Nat} {t u : Pc} (hi : s.threads[i]? = some t)
    (ht : t.holds = true) (hne : j ≠ i) (hj : s.threads[j]? = some u) : u.holds = false := by
  by_contra hu
  have hm := h.holder j u hj (by simpa using hu)
  rw [h.holder i t hi ht] at hm
  exact hne (Option.some.inj hm).symm

/-- A thread that holds the mutex and does not write: nobody writes. -/
theorem Inv.not_writing {s : FileQueue} (h : Inv s) {i : Nat} {t : Pc} (hi : s.threads[i]? = some t)
    (ht : t.holds = true) (hw : t.writing = false) : ∀ u ∈ s.threads, u.writing = false := by
  intro u hu
  obtain ⟨j, hj⟩ := List.mem_iff_getElem?.1 hu
  by_cases hne : j = i
  · subst hne
    obtain rfl : t = u := Option.some.inj (hi.symm.trans hj)
    exact hw
  · by_contra hu'
    have := h.not_holds hi ht hne hj
    rw [Pc.holds_of_writing (by simpa using hu')] at this
    cases this

theorem Inv.wakeAll {s : FileQueue} (hholder : ∀ i t, s.threads[i]? = some t → t.holds = true →
    s.access_file_queue = some i) (hreads : s.reads = s.threads.countP Pc.counted)
    (hwriting : ∀ t ∈ s.threads, t.writing = true → s.reads = 0) : Inv s.wakeAll where
  holder := by
    intro i t hi ht
    simp only [FileQueue.wakeAll, List.getElem?_map, Option.map_eq_some_iff] at hi
    obtain ⟨u, hu, rfl⟩ := hi
    exact hholder i u hu (by simpa using ht)
  reads := by
    have hcount : (s.threads.map Pc.wake).countP Pc.counted = s.threads.countP Pc.counted := by
      rw [List.countP_map]
      exact List.countP_congr fun t _ => by simp
    show s.reads = ((s.threads.map Pc.wake).countP Pc.counted : Nat)
    rw [hcount, hreads]
  writing := by
    intro t ht hw
    obtain ⟨u, hu, rfl⟩ := List.mem_map.1 ht
    exact hwriting u hu (by simpa using hw)
  waits := by
    intro ht
    obtain ⟨u, -, hu⟩ := List.mem_map.1 ht
    exact absurd hu (Pc.wake_ne_wait u)

/-- The increment: the thread holds the mutex, so nobody writes. -/
theorem Inv.countUp {s : FileQueue} (h : Inv s) {i : Nat} (hi : s.threads[i]? = some .countUp) :
    Inv { s.set i .unlockToRead with reads := s.reads + 1 } where
  holder := by
    intro j u hj hu
    rcases Pool.getElem?_set_cases hj with ⟨rfl, rfl⟩ | ⟨-, hj⟩
    · exact h.holder j _ hi rfl
    · exact h.holder j u hj hu
  reads := by
    show s.reads + 1 = (s.threads.set i .unlockToRead).countP Pc.counted
    rw [Pool.countP_set_enter hi rfl rfl, h.reads]
    rfl
  writing := by
    intro u hu hw
    have hnone := h.not_writing hi rfl rfl
    rcases List.mem_or_eq_of_mem_set hu with hu | rfl
    · rw [hnone u hu] at hw; cases hw
    · cases hw
  waits := by
    intro _
    show 0 < s.reads + 1
    have := h.reads
    omega

/-- The decrement: the thread is one of those that are counted, and it broadcasts at 0. -/
theorem Inv.countDown {s : FileQueue} (h : Inv s) {i : Nat} {ret : Int}
    (hi : s.threads[i]? = some (.countDown ret)) : Inv (s.set i (.unlockToLeave ret)).countDown := by
  have hcount : s.reads - 1 = (s.threads.set i (.unlockToLeave ret)).countP Pc.counted := by
    have := Pool.countP_set_leave (x := .unlockToLeave ret) (p := Pc.counted) hi rfl rfl
    have := h.reads
    omega
  have hholder : ∀ j u, (s.threads.set i (.unlockToLeave ret))[j]? = some u → u.holds = true →
      s.access_file_queue = some j := by
    intro j u hj hu
    rcases Pool.getElem?_set_cases hj with ⟨rfl, rfl⟩ | ⟨-, hj⟩
    · exact h.holder j _ hi rfl
    · exact h.holder j u hj hu
  have hnone : ∀ u ∈ s.threads.set i (.unlockToLeave ret), u.writing = true → s.reads - 1 = 0 := by
    intro u hu hw
    rcases List.mem_or_eq_of_mem_set hu with hu | rfl
    · rw [h.not_writing hi rfl rfl u hu] at hw; cases hw
    · cases hw
  unfold FileQueue.countDown
  dsimp only
  split
  · exact Inv.wakeAll hholder hcount hnone
  · next hne =>
    refine ⟨hholder, hcount, hnone, fun _ => ?_⟩
    change s.reads - 1 ≠ 0 at hne
    show 0 < s.reads - 1
    omega

/-- **The step lemma.** -/
theorem Inv.step {s s' : FileQueue} {a : Option Nat} (h : Inv s) (hs : Step s a s') : Inv s' := by
  cases hs with
  | callRead => exact h.call rfl rfl (by simp)
  | callWrite => exact h.call rfl rfl (by simp)
  | @acquire i t t' hi ht hm =>
    obtain ⟨-, hc, hw, hwait⟩ := Pc.acquired_facts ht
    refine h.set hi hc ?_ (fun _ => rfl) (fun hw' => by rw [hw] at hw'; cases hw')
      (fun he => absurd he hwait)
    intro j u _ hj hu
    rw [h.holder j u hj hu] at hm
    cases hm
  | @release i t t' hi ht =>
    obtain ⟨hh, hh', hc, hw, hwait⟩ := Pc.released_facts ht
    refine h.set hi hc ?_ (fun he => by rw [hh'] at he; cases he) (fun hw' => by rw [hw] at hw'; cases hw')
      (fun he => absurd he hwait)
    intro j u hne hj hu
    rw [h.not_holds hi hh hne hj] at hu
    cases hu
  | @move i t t' hi ht =>
    obtain ⟨hh, hc, hw, hwait⟩ := ht.facts
    refine h.set hi hc (fun j u _ hj hu => h.holder j u hj hu) (fun hu => ?_) (fun hu => ?_)
      (fun he => absurd he hwait)
    · exact h.holder i t hi (hh ▸ hu)
    · exact h.writing t (List.mem_of_getElem? hi) (hw ▸ hu)
  | countUp hi => exact h.countUp hi
  | countDown hi => exact h.countDown hi
  | @blocks i hi hne =>
    refine h.set hi rfl ?_ (fun he => by cases he) (fun he => by cases he) (fun _ => ?_)
    · intro j u hj hu huh
      rw [h.not_holds hi rfl hj hu] at huh
      cases huh
    · have := h.reads
      omega
  | passes hi hzero =>
    refine h.set hi rfl (fun j u _ hj hu => h.holder j u hj hu) (fun _ => h.holder _ _ hi rfl)
      (fun _ => hzero) (fun he => by cases he)
  | wakesSpuriously hi =>
    refine h.set hi rfl (fun j u _ hj hu => h.holder j u hj hu) (fun he => by cases he)
      (fun he => by cases he) (fun he => by cases he)
  | @broadcast i ret hi =>
    have hset : Inv (s.set i (.unlock ret)) := by
      refine h.set hi rfl (fun j u _ hj hu => h.holder j u hj hu) (fun _ => h.holder _ _ hi rfl)
        (fun _ => h.writing _ (List.mem_of_getElem? hi) rfl) (fun he => by cases he)
    exact Inv.wakeAll hset.holder hset.reads hset.writing

theorem Inv.run {s : FileQueue} {tr : List (FileQueue × Option Nat)}
    (hrun : Runs.Run Step FileQueue.empty tr s) : Inv s :=
  hrun.inv_of_step Inv.empty fun _ _ _ h hs => h.step hs

/-- **Readers and writers exclude each other.** In every state that the threads can reach, the
    counter counts the readers between increment and decrement and is positive at a decrement; a
    writer past its wait loop is alone; and a writer that is blocked without a wake-up waits for
    a reader. -/
theorem read_write_exclusion {s : FileQueue} {tr : List (FileQueue × Option Nat)}
    (hrun : Runs.Run Step FileQueue.empty tr s) :
    s.reads = s.threads.countP Pc.counted ∧
      (∀ ret : Int, .countDown ret ∈ s.threads → 0 < s.reads) ∧
      (∀ (i : Nat) (t : Pc), s.threads[i]? = some t → t.writing = true →
        (∀ u ∈ s.threads, u.counted = false) ∧
        ∀ (j : Nat) (u : Pc), s.threads[j]? = some u → u.writing = true → j = i) ∧
      (.wait false ∈ s.threads → 0 < s.reads) := by
  have h := Inv.run hrun
  refine ⟨h.reads, ?_, ?_, h.waits⟩
  · intro ret hmem
    have := List.countP_pos_iff.2 ⟨_, hmem, (rfl : Pc.counted (.countDown ret) = true)⟩
    have := h.reads
    omega
  · intro i t hi ht
    refine ⟨?_, ?_⟩
    · have hzero : s.threads.countP Pc.counted = 0 := by
        have := h.reads
        have := h.writing t (List.mem_of_getElem? hi) ht
        omega
      intro u hu
      simpa using List.countP_eq_zero.1 hzero u hu
    · intro j u hj hu
      by_contra hne
      have := h.not_holds hi (Pc.holds_of_writing ht) hne hj
      rw [Pc.holds_of_writing hu] at this
      cases this

/-- A reader that reads and a writer that it keeps waiting. -/
def oneBlocked : FileQueue := ⟨none, 1, [.read, .wait false]⟩

theorem oneBlocked_reached : ∃ tr, Runs.Run Step FileQueue.empty tr oneBlocked := by
  have h₀ : Runs.Run Step FileQueue.empty [] FileQueue.empty := .nil
  have h₁ := h₀.snoc .callRead
  have h₂ := h₁.snoc (.acquire (i := 0) rfl rfl rfl)
  have h₃ := h₂.snoc (.countUp (i := 0) rfl)
  have h₄ := h₃.snoc (.release (i := 0) rfl rfl)
  have h₅ := h₄.snoc .callWrite
  have h₆ := h₅.snoc (.acquire (i := 1) rfl rfl rfl)
  exact ⟨_, h₆.snoc (.blocks (i := 1) rfl (by decide))⟩

/-- The theorem at that state. -/
theorem read_write_exclusion_oneBlocked :
    oneBlocked.reads = oneBlocked.threads.countP Pc.counted ∧
      (∀ ret : Int, .countDown ret ∈ oneBlocked.threads → 0 < oneBlocked.reads) ∧
      (∀ (i : Nat) (t : Pc), oneBlocked.threads[i]? = some t → t.writing = true →
        (∀ u ∈ oneBlocked.threads, u.counted = false) ∧
        ∀ (j : Nat) (u : Pc), oneBlocked.threads[j]? = some u → u.writing = true → j = i) ∧
      (.wait false ∈ oneBlocked.threads → 0 < oneBlocked.reads) :=
  let ⟨_, hrun⟩ := oneBlocked_reached
  read_write_exclusion hrun

end BulletinBoard.ReadWrite
