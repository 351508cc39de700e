import BulletinBoard.ReadWriteLock
import BulletinBoard.Lib.Progress

/- descriptor.cc: every `read_descriptor` and every `write_descriptor` returns. The lock
   has no deadlock: as long as a call has not returned, some thread that is not blocked in
   its wait can take a step. And it has no livelock: a writer waits again only after a
   broadcast, each call broadcasts at most once, and between two broadcasts every step
   brings its thread nearer to its return. So the threads' own steps come to an end, after
   a number of them that is bounded by the number of calls, and then every call has
   returned. New calls, and wake-ups that no broadcast sent, are left out: a writer that
   meets new readers for ever waits for ever. -/
namespace BulletinBoard.ReadWrite

namespace Pc

/-- A call that has not returned. -/
def pending : Pc → Bool
  | returned _ => false
  | _ => true

/-- A call that may still broadcast. -/
def toBroadcast : Pc → Bool
  | lockToRead | countUp | unlockToRead | read | lockToLeave _ | countDown _ => true
  | lockToWrite | testReads | wait _ | testArguments | openToRead | openToAppend | append | broadcast _ => true
  | unlockToLeave _ | unlock _ | returned _ => false

/-- The steps up to the return, if the writer does not have to wait (again). -/
def rank : Pc → Nat
  | lockToRead => 7
  | countUp => 6
  | unlockToRead => 5
  | read => 4
  | lockToLeave _ => 3
  | countDown _ => 2
  | unlockToLeave _ => 1
  | lockToWrite | wait true => 8
  | testReads => 7
  | wait false => 0
  | testArguments => 6
  | openToRead => 5
  | openToAppend => 4
  | append => 3
  | broadcast _ => 2
  | unlock _ => 1
  | returned _ => 0

theorem rank_le (t : Pc) : t.rank ≤ 8 := by
  unfold rank
  split <;> omega

@[simp] theorem toBroadcast_wake (t : Pc) : t.wake.toBroadcast = t.toBroadcast := by cases t <;> rfl

/-- A wake-up costs a waiting writer its steps back to the test. -/
theorem rank_wake (t : Pc) : t.wake.rank ≤ t.rank + 8 := by
  have := rank_le t.wake
  omega

theorem acquired_rank {t t' : Pc} (h : t.acquired = some t') :
    t'.toBroadcast = t.toBroadcast ∧ t'.rank < t.rank := by
  unfold acquired at h
  split at h <;> first | (cases h; done) | (obtain rfl := Option.some.inj h; simp [toBroadcast, rank])

theorem released_rank {t t' : Pc} (h : t.released = some t') :
    t'.toBroadcast = t.toBroadcast ∧ t'.rank < t.rank := by
  unfold released at h
  split at h <;> first | (cases h; done) | (obtain rfl := Option.some.inj h; simp [toBroadcast, rank])

theorem Moves.rank {t t' : Pc} (h : t.Moves t') : t'.toBroadcast = t.toBroadcast ∧ t'.rank < t.rank := by
  cases h <;> simp [toBroadcast, Pc.rank]

end Pc

/-! The measure: what a broadcast may give back to all writers is less than it costs. -/

def stepsLeft (threads : List Pc) : Nat :=
  threads.countP Pc.toBroadcast * (8 * threads.length + 1) + (threads.map Pc.rank).sum

theorem stepsLeft_le (threads : List Pc) :
    stepsLeft threads ≤ threads.length * (8 * threads.length + 9) := by
  have hcount : threads.countP Pc.toBroadcast ≤ threads.length := List.countP_le_length
  have hsum : (threads.map Pc.rank).sum ≤ 8 * threads.length := Pool.sum_map_bound Pc.rank_le threads
  calc stepsLeft threads
      _ ≤ threads.length * (8 * threads.length + 1) + 8 * threads.length :=
        Nat.add_le_add (Nat.mul_le_mul_right _ hcount) hsum
      _ = threads.length * (8 * threads.length + 9) := by ring

/-- A step of one thread towards its return. -/
theorem stepsLeft_set {threads : List Pc} {i : Nat} {t t' : Pc} (hi : threads[i]? = some t)
    (hb : t'.toBroadcast = t.toBroadcast) (hr : t'.rank < t.rank) :
    stepsLeft (threads.set i t') < stepsLeft threads := by
  have hcount : (threads.set i t').countP Pc.toBroadcast = threads.countP Pc.toBroadcast :=
    Pool.countP_set_same hi hb
  have hsum := Pool.sum_map_set (x := t') (f := Pc.rank) hi
  unfold stepsLeft
  rw [hcount, List.length_set]
  omega

/-- The last broadcast of a thread, sent or not. -/
theorem stepsLeft_broadcast {threads : List Pc} {i : Nat} {t t' : Pc} (hi : threads[i]? = some t)
    (hb : t.toBroadcast = true) (hb' : t'.toBroadcast = false) (hr : t'.rank ≤ t.rank) :
    stepsLeft (threads.set i t') < stepsLeft threads ∧
      stepsLeft ((threads.set i t').map Pc.wake) < stepsLeft threads := by
  have hcount : (threads.set i t').countP Pc.toBroadcast + 1 = threads.countP Pc.toBroadcast :=
    Pool.countP_set_leave hi hb hb'
  have hwake : ((threads.set i t').map Pc.wake).countP Pc.toBroadcast =
      (threads.set i t').countP Pc.toBroadcast := by
    rw [List.countP_map]
    exact List.countP_congr fun t _ => by simp
  have hsum := Pool.sum_map_set (x := t') (f := Pc.rank) hi
  have hwoken := Pool.sum_map_le Pc.rank_wake (threads.set i t')
  have hpaid := Nat.add_one_mul ((threads.set i t').countP Pc.toBroadcast) (8 * threads.length + 1)
  rw [List.length_set] at hwoken
  unfold stepsLeft
  rw [hwake, ← hcount, List.length_map, List.length_set]
  constructor <;> omega

/-! The invariant, with the other half of what the mutex says. -/

/-- The mutex is held by a thread that is between its lock and its unlock. -/
structure Owned (s : FileQueue) : Prop extends Inv s where
  owner : ∀ i, s.access_file_queue = some i → ∃ t, s.threads[i]? = some t ∧ t.holds = true

/-- The owner keeps the mutex when it, or another thread, takes a step. -/
theorem owner_set {s : FileQueue} {i : Nat} {t p : Pc} (hi : s.threads[i]? = some t)
    (ht : p.holds = t.holds) (h : ∀ j, s.access_file_queue = some j → ∃ u, s.threads[j]? = some u ∧ u.holds = true) :
    ∀ j, s.access_file_queue = some j → ∃ u, (s.threads.set i p)[j]? = some u ∧ u.holds = true := by
  intro j hj
  obtain ⟨u, hu, hh⟩ := h j hj
  by_cases hij : i = j
  · subst hij
    obtain rfl : t = u := Option.some.inj (hi.symm.trans hu)
    exact ⟨p, Pool.getElem?_set_of_getElem? hi, ht.trans hh⟩
  · refine ⟨u, ?_, hh⟩
    rw [List.getElem?_set_ne hij]
    exact hu

theorem owner_wake {threads : List Pc} {j : Nat} {u : Pc} (hu : threads[j]? = some u) (hh : u.holds = true) :
    ∃ v, (threads.map Pc.wake)[j]? = some v ∧ v.holds = true := by
  refine ⟨u.wake, ?_, by simpa using hh⟩
  rw [List.getElem?_map, hu]
  rfl

theorem Owned.empty : Owned FileQueue.empty where
  toInv := Inv.empty
  owner := by
    intro i hi
    cases hi

theorem Owned.step {s s' : FileQueue} {a : Option Nat} (h : Owned s) (hs : Step s a s') : Owned s' := by
  refine ⟨h.toInv.step hs, ?_⟩
  have hcall : ∀ t : Pc, ∀ j, s.access_file_queue = some j → ∃ u, (s.threads ++ [t])[j]? = some u ∧ u.holds = true := by
    intro t j hj
    obtain ⟨u, hu, hh⟩ := h.owner j hj
    refine ⟨u, ?_, hh⟩
    rw [List.getElem?_append_left (List.getElem?_eq_some_iff.1 hu).1]
    exact hu
  cases hs with
  | callRead => exact hcall .lockToRead
  | callWrite => exact hcall .lockToWrite
  | @acquire i t t' hi ht hm =>
    intro j hj
    obtain rfl : i = j := Option.some.inj hj
    refine ⟨t', Pool.getElem?_set_of_getElem? hi, ?_⟩
    unfold Pc.acquired at ht
    split at ht <;> first | (cases ht; done) | (obtain rfl := Option.some.inj ht; rfl)
  | release hi ht =>
    intro j hj
    cases hj
  | move hi ht => exact owner_set hi ht.facts.1 h.owner
  | countUp hi => exact owner_set hi rfl h.owner
  | @countDown i ret hi =>
    have hset := owner_set (p := .unlockToLeave ret) hi rfl h.owner
    unfold FileQueue.countDown
    dsimp only
    split
    · intro j hj
      obtain ⟨u, hu, hh⟩ := hset j hj
      exact owner_wake hu hh
    · exact hset
  | blocks hi hne =>
    intro j hj
    cases hj
  | passes hi hzero => exact owner_set hi rfl h.owner
  | wakesSpuriously hi => exact owner_set hi rfl h.owner
  | @broadcast i ret hi =>
    have hset := owner_set (p := .unlock ret) hi rfl h.owner
    intro j hj
    obtain ⟨u, hu, hh⟩ := hset j hj
    exact owner_wake hu hh

/-! Progress. -/

/-- A step of a thread that is not blocked in its wait. -/
def Own (s : FileQueue) (a : Option Nat) : Prop :=
  ∃ i t, a = some i ∧ s.threads[i]? = some t ∧ t ≠ .wait false

/-- Every call has returned. -/
def AllReturned (s : FileQueue) : Prop := ∀ t ∈ s.threads, t.pending = false

/-- A thread between its lock and its unlock is never blocked. -/
theorem holds_steps {s : FileQueue} {i : Nat} {t : Pc} (hi : s.threads[i]? = some t) (ht : t.holds = true) :
    ∃ s', Step s (some i) s' := by
  cases t with
  | countUp => exact ⟨_, .countUp hi⟩
  | unlockToRead => exact ⟨_, .release hi rfl⟩
  | countDown ret => exact ⟨_, .countDown hi⟩
  | unlockToLeave ret => exact ⟨_, .release hi rfl⟩
  | testReads =>
    by_cases hzero : s.reads = 0
    · exact ⟨_, .passes hi hzero⟩
    · exact ⟨_, .blocks hi hzero⟩
  | testArguments => exact ⟨_, .move hi .allArguments⟩
  | openToRead => exact ⟨_, .move hi .opensToRead⟩
  | openToAppend => exact ⟨_, .move hi .opensToAppend⟩
  | append => exact ⟨_, .move hi .appends⟩
  | broadcast ret => exact ⟨_, .broadcast hi⟩
  | unlock ret => exact ⟨_, .release hi rfl⟩
  | lockToRead | read | lockToLeave _ | lockToWrite | wait _ | returned _ => cases ht

/-- With the mutex free, a thread is not blocked unless it is in its wait or has returned. -/
theorem free_steps {s : FileQueue} {i : Nat} {t : Pc} (hi : s.threads[i]? = some t) (ht : t.pending = true)
    (hw : t ≠ .wait false) (hfree : s.access_file_queue = none) : ∃ s', Step s (some i) s' := by
  by_cases hh : t.holds = true
  · exact holds_steps hi hh
  · cases t with
    | lockToRead => exact ⟨_, .acquire hi rfl hfree⟩
    | read => exact ⟨_, .move hi .readNoFile⟩
    | lockToLeave ret => exact ⟨_, .acquire hi rfl hfree⟩
    | lockToWrite => exact ⟨_, .acquire hi rfl hfree⟩
    | wait woken =>
      cases woken with
      | false => exact absurd rfl hw
      | true => exact ⟨_, .acquire hi rfl hfree⟩
    | returned ret => cases ht
    | countUp | unlockToRead | countDown _ | unlockToLeave _ => exact absurd rfl hh
    | testReads | testArguments | openToRead | openToAppend | append | broadcast _ | unlock _ => exact absurd rfl hh

/-- **No deadlock.** -/
theorem Owned.goesOn {s : FileQueue} (h : Owned s) (hd : ¬ AllReturned s) : ∃ a s', Own s a ∧ Step s a s' := by
  have hpending : ∃ t ∈ s.threads, t.pending = true := by
    by_contra hnone
    apply hd
    intro t ht
    by_contra hp
    exact hnone ⟨t, ht, by simpa using hp⟩
  obtain ⟨t, ht, hp⟩ := hpending
  cases hm : s.access_file_queue with
  | some i =>
    obtain ⟨u, hu, hh⟩ := h.owner i hm
    obtain ⟨s', hs'⟩ := holds_steps hu hh
    have hne : u ≠ .wait false := fun he => by rw [he] at hh; cases hh
    exact ⟨some i, s', ⟨i, u, rfl, hu, hne⟩, hs'⟩
  | none =>
    have hrunnable : ∃ u ∈ s.threads, u.pending = true ∧ u ≠ .wait false := by
      by_cases hw : t = .wait false
      · -- the reader that a blocked writer waits for
        subst hw
        have hpos : 0 < s.threads.countP Pc.counted := by
          have := h.waits ht
          have := h.reads
          omega
        obtain ⟨u, hu, hc⟩ := List.countP_pos_iff.1 hpos
        refine ⟨u, hu, ?_, ?_⟩
        · cases u <;> first | rfl | cases hc
        · intro he
          rw [he] at hc
          cases hc
      · exact ⟨t, ht, hp, hw⟩
    obtain ⟨u, hu, hpu, hne⟩ := hrunnable
    obtain ⟨j, hj⟩ := List.mem_iff_getElem?.1 hu
    obtain ⟨s', hs'⟩ := free_steps hj hpu hne hm
    exact ⟨some j, s', ⟨j, u, rfl, hj, hne⟩, hs'⟩

/-- **No livelock.** -/
theorem stepsLeft_lt {s s' : FileQueue} {a : Option Nat} (ha : Own s a) (hs : Step s a s') :
    stepsLeft s'.threads < stepsLeft s.threads := by
  obtain ⟨j, u, rfl, hu, hne⟩ := ha
  cases hs with
  | acquire hi ht hm => exact stepsLeft_set hi (Pc.acquired_rank ht).1 (Pc.acquired_rank ht).2
  | release hi ht => exact stepsLeft_set hi (Pc.released_rank ht).1 (Pc.released_rank ht).2
  | move hi ht => exact stepsLeft_set hi ht.rank.1 ht.rank.2
  | countUp hi => exact stepsLeft_set hi rfl (by decide)
  | @countDown i ret hi =>
    have hlast : Pc.rank (.unlockToLeave ret) ≤ Pc.rank (.countDown ret) := by
      simp only [Pc.rank]
      omega
    have hless := stepsLeft_broadcast hi rfl rfl hlast
    unfold FileQueue.countDown
    dsimp only
    split
    · exact hless.2
    · exact hless.1
  | blocks hi hreads => exact stepsLeft_set hi rfl (by decide)
  | passes hi hzero => exact stepsLeft_set hi rfl (by decide)
  | wakesSpuriously hi => exact absurd (Option.some.inj (hu.symm.trans hi)) hne
  | @broadcast i ret hi =>
    have hlast : Pc.rank (.unlock ret) ≤ Pc.rank (.broadcast ret) := by
      simp only [Pc.rank]
      omega
    exact (stepsLeft_broadcast hi rfl rfl hlast).2

theorem ends : Progress.Ends Step Own Owned AllReturned (fun s => stepsLeft s.threads) where
  keeps := fun _ _ _ h _ hs => h.step hs
  lowers := fun _ _ _ _ ha hs => stepsLeft_lt ha hs
  goesOn := fun _ h hd => h.goesOn hd

/-- **Every call returns.** From every state that the threads can reach with `n` calls, their own
    steps are at most `n * (8 * n + 9)`, whatever the order; when none is left, every call has
    returned; and the end can be reached. -/
theorem read_write_returns {s : FileQueue} {tr : List (FileQueue × Option Nat)}
    (hrun : Runs.Run Step FileQueue.empty tr s) :
    (∀ s' tr', Runs.Run Step s tr' s' → Runs.Guarded Own tr' →
      tr'.length ≤ s.threads.length * (8 * s.threads.length + 9) ∧
      ((∀ a s'', Own s' a → ¬ Step s' a s'') → AllReturned s')) ∧
    ∃ s' tr', Runs.Run Step s tr' s' ∧ Runs.Guarded Own tr' ∧ AllReturned s' := by
  have h : Owned s := hrun.inv_of_step Owned.empty fun _ _ _ h hs => h.step hs
  refine ⟨?_, ?_⟩
  · intro s' tr' hrun' hown
    refine ⟨?_, fun hstuck => ends.done_of_stuck hrun' hown h hstuck⟩
    calc tr'.length
        _ ≤ stepsLeft s.threads := ends.length_le hrun' hown h
        _ ≤ s.threads.length * (8 * s.threads.length + 9) := stepsLeft_le s.threads
  · obtain ⟨tr', s', hrun', hown, hdone⟩ := ends.finishes h
    exact ⟨s', tr', hrun', hown, hdone⟩

/-- The theorem where a reader reads and a writer waits for it. -/
theorem read_write_returns_oneBlocked :
    (∀ s' tr', Runs.Run Step oneBlocked tr' s' → Runs.Guarded Own tr' →
      tr'.length ≤ 50 ∧ ((∀ a s'', Own s' a → ¬ Step s' a s'') → AllReturned s')) ∧
    ∃ s' tr', Runs.Run Step oneBlocked tr' s' ∧ Runs.Guarded Own tr' ∧ AllReturned s' :=
  let ⟨_, hrun⟩ := oneBlocked_reached
  read_write_returns hrun

end BulletinBoard.ReadWrite
