import BulletinBoard.Team
import BulletinBoard.Lib.Chain
import Mathlib.Data.List.ReduceOption

/- thrd_mgmt.cc: the work queue over any sequence of calls, with its semaphore's `pol`. A work that
   is pushed has just been allocated by `add_work_to_team`, so it is not in the queue then; its
   address may be one that an earlier work had. `work_to_be_done`, an `int` in the source, counts
   works that lie in memory at once, and is a natural number here. The chain from `first` is what
   was pushed and not yet taken, and the works leave in the order in which they came. -/
namespace BulletinBoard

/-- `work_queue` with the `pol` of its `work_pending`. -/
structure PendingQueue where
  queue : WorkQueue
  pol : Int

namespace PendingQueue

def create_work_queue : PendingQueue := ⟨WorkQueue.create, 0⟩

def push_work (q : PendingQueue) (new_work : Nat) : PendingQueue := ⟨q.queue.push_work new_work, 1⟩

def pull_work (q : PendingQueue) : Option Nat × PendingQueue :=
  let (work_a, queue, posts) := q.queue.pull_work
  (work_a, ⟨queue, if posts then 1 else q.pol⟩)

/-- The loop of `clear_work_queue`, with the rounds it may take: what it frees. -/
def clearLoop : Nat → PendingQueue → List (Option Nat) × PendingQueue
  | 0, q => ([], q)
  | f + 1, q =>
    if q.queue.work_to_be_done > 0 then
      let (work_a, q) := q.pull_work
      let (freed, q) := clearLoop f q
      (work_a :: freed, q)
    else ([], q)

/-- A round pulls one work, so that there are as many rounds as works. -/
def clear_work_queue (q : PendingQueue) : List (Option Nat) × PendingQueue :=
  let (freed, q) := clearLoop q.queue.work_to_be_done q
  (freed, ⟨{ q.queue with first := none, last := none, work_to_be_done := 0 }, 0⟩)

/-- The works linked from `first` to a last one with a null link are `ws`. -/
structure Represents (q : PendingQueue) (ws : List Nat) : Prop where
  holds : q.queue.Holds ws
  last_link : ∀ w, ws.getLast? = some w → q.queue.prev w = none

variable {q : PendingQueue} {ws : List Nat} {w : Nat}

theorem Represents.linked (h : q.Represents ws) : Chain.Linked q.queue.prev q.queue.first ws := by
  rw [h.holds.first]
  exact .of_isChain h.holds.linked h.last_link

theorem Represents.create : create_work_queue.Represents [] := ⟨WorkQueue.Holds.create, by simp⟩

/-- A new work comes last, with a null link. -/
theorem Represents.push_work (h : q.Represents ws) (hw : w ∉ ws) : (q.push_work w).Represents (ws ++ [w]) := by
  refine ⟨h.holds.push_work hw, ?_⟩
  intro x hx
  obtain rfl : w = x := by simpa using hx
  show (q.queue.push_work w).prev w = none
  unfold WorkQueue.push_work
  split
  · exact Function.update_self w none q.queue.prev
  · cases hl : q.queue.last with
    | none => exact Function.update_self w none q.queue.prev
    | some l =>
      have hlw : w ≠ l := by
        rintro rfl
        exact hw (List.mem_of_getLast? (h.holds.last ▸ hl))
      show Function.update (Function.update q.queue.prev w none) l (some w) w = none
      rw [Function.update_of_ne hlw, Function.update_self]

/-- A pull takes the first work, and posts when it leaves others. -/
theorem Represents.pull_work (h : q.Represents ws) :
    q.pull_work.1 = ws.head? ∧ q.pull_work.2.Represents ws.tail ∧ (ws.tail ≠ [] → q.pull_work.2.pol = 1) := by
  obtain ⟨hfirst, hholds, hposts⟩ := h.holds.pull_work
  refine ⟨hfirst, ⟨hholds, ?_⟩, ?_⟩
  · intro x hx
    have hprev : q.queue.pull_work.2.1.prev = q.queue.prev := by
      unfold WorkQueue.pull_work
      split <;> rfl
    show q.queue.pull_work.2.1.prev x = none
    rw [hprev]
    refine h.last_link x ?_
    cases ws with
    | nil => cases hx
    | cons a ws =>
      cases ws with
      | nil => cases hx
      | cons b ws => rwa [List.getLast?_cons_cons]
  · intro hne
    have hlen : 2 ≤ ws.length := by
      have := List.length_pos_iff.2 hne
      rw [List.length_tail] at this
      omega
    show (if q.queue.pull_work.2.2 = true then (1 : Int) else q.pol) = 1
    rw [if_pos (hposts.2 hlen)]

/-- The loop of `clear_work_queue` ends with no work to be done, and frees every work. -/
theorem Represents.clearLoop : ∀ {ws : List Nat} {q : PendingQueue}, q.Represents ws →
    (q.clearLoop ws.length).1 = ws.map some ∧ (q.clearLoop ws.length).2.Represents []
  | [], _, h => ⟨rfl, h⟩
  | w :: ws, q, h => by
    obtain ⟨hfirst, hrest, -⟩ := h.pull_work
    obtain ⟨hfreed, hempty⟩ := hrest.clearLoop
    have hpos : q.queue.work_to_be_done > 0 := by rw [h.holds.length]; simp
    rw [List.length_cons, PendingQueue.clearLoop, if_pos hpos]
    refine ⟨?_, hempty⟩
    show q.pull_work.1 :: _ = _
    rw [hfirst]
    exact congrArg _ hfreed

theorem Represents.clear_work_queue (h : q.Represents ws) :
    q.clear_work_queue.1 = ws.map some ∧ q.clear_work_queue.2.Represents [] := by
  have hloop := h.clearLoop
  rw [← h.holds.length] at hloop
  exact ⟨hloop.1, ⟨rfl, rfl, rfl, .nil, .nil⟩, by simp⟩

end PendingQueue

/-! Sequences of calls. -/

/-- The queue, the works pushed so far, and those that `pull_work` has returned or
    `clear_work_queue` freed so far. -/
structure QueueHistory where
  work_queue : PendingQueue
  pushed : List Nat
  taken : List Nat

inductive QueueOp where
  | push (new_work : Nat)
  | pull (work_a : Option Nat)
  | clear (freed : List (Option Nat))

namespace QueueHistory

def start : QueueHistory := ⟨.create_work_queue, [], []⟩

/-- The works that are pushed and not yet taken. -/
def waiting (s : QueueHistory) : List Nat := s.pushed.drop s.taken.length

end QueueHistory

inductive QueueStep : QueueHistory → QueueOp → QueueHistory → Prop where
  | push {s : QueueHistory} {new_work : Nat} : new_work ∉ s.waiting →
      QueueStep s (.push new_work) ⟨s.work_queue.push_work new_work, s.pushed ++ [new_work], s.taken⟩
  | pull {s : QueueHistory} {work_a : Option Nat} {q : PendingQueue} : s.work_queue.pull_work = (work_a, q) →
      QueueStep s (.pull work_a) ⟨q, s.pushed, s.taken ++ work_a.toList⟩
  | clear {s : QueueHistory} {freed : List (Option Nat)} {q : PendingQueue} :
      s.work_queue.clear_work_queue = (freed, q) →
      QueueStep s (.clear freed) ⟨q, s.pushed, s.taken ++ freed.reduceOption⟩

namespace QueueHistory

/-- What a call answers and leaves, for the works that wait. -/
def Answered (s : QueueHistory) : QueueOp → QueueHistory → Prop
  | .push _, _ => True
  | .pull work_a, s' => work_a = s.waiting.head? ∧ (work_a = none ↔ s.waiting = []) ∧
      (s'.waiting ≠ [] → s'.work_queue.pol = 1)
  | .clear freed, s' => freed = s.waiting.map some ∧ s'.waiting = [] ∧ s'.work_queue.queue.first = none ∧
      s'.work_queue.queue.last = none ∧ s'.work_queue.queue.work_to_be_done = 0

/-- The invariant: the queue holds what waits, and what was taken came first. -/
structure Inv (s : QueueHistory) : Prop where
  represents : s.work_queue.Represents s.waiting
  order : s.pushed = s.taken ++ s.waiting

theorem waiting_eq {s : QueueHistory} {ws : List Nat} (h : s.pushed = s.taken ++ ws) : s.waiting = ws := by
  rw [waiting, h, List.drop_left]

theorem Inv.of_eq {s : QueueHistory} {ws : List Nat} (h : s.work_queue.Represents ws)
    (hws : s.pushed = s.taken ++ ws) : s.Inv :=
  ⟨(waiting_eq hws).symm ▸ h, (waiting_eq hws).symm ▸ hws⟩

theorem Inv.step {s s' : QueueHistory} {op : QueueOp} (h : s.Inv) (hstep : QueueStep s op s') :
    s'.Inv ∧ s.Answered op s' := by
  cases hstep with
  | push hw =>
    refine ⟨.of_eq (h.represents.push_work hw) ?_, trivial⟩
    show s.pushed ++ _ = s.taken ++ (s.waiting ++ _)
    rw [← List.append_assoc, ← h.order]
  | @pull work_a q hpull =>
    obtain ⟨hfirst, hrest, hpol⟩ := h.represents.pull_work
    rw [hpull] at hfirst hrest hpol
    dsimp only at hfirst hrest hpol
    -- what is pulled is the first that waits
    have hsplit : work_a.toList ++ s.waiting.tail = s.waiting := by
      rw [hfirst]
      cases s.waiting <;> rfl
    have horder : s.pushed = (s.taken ++ work_a.toList) ++ s.waiting.tail := by
      rw [List.append_assoc, hsplit, ← h.order]
    have hwaiting := waiting_eq (s := ⟨q, s.pushed, s.taken ++ work_a.toList⟩) horder
    refine ⟨.of_eq hrest horder, hfirst, ?_, ?_⟩
    · rw [hfirst, List.head?_eq_none_iff]
    · rw [hwaiting]
      exact hpol
  | @clear freed q hclear =>
    obtain ⟨hfreed, hempty⟩ := h.represents.clear_work_queue
    rw [hclear] at hfreed hempty
    dsimp only at hfreed hempty
    have horder : s.pushed = (s.taken ++ freed.reduceOption) ++ [] := by
      rw [hfreed, List.append_nil]
      simpa [List.reduceOption] using h.order
    have hwaiting := waiting_eq (s := ⟨q, s.pushed, s.taken ++ freed.reduceOption⟩) horder
    exact ⟨.of_eq hempty horder, hfreed, hwaiting, hempty.holds.first, hempty.holds.last, hempty.holds.length⟩

/-- **The work queue after any calls.** The chain from `first` has `work_to_be_done` nodes and ends at
    `last`; its works are those that were pushed and not yet taken, and the works are taken in the
    order in which they were pushed. -/
theorem work_queue_represents {tr : List (QueueHistory × QueueOp)} {s : QueueHistory}
    (hrun : Runs.Run QueueStep start tr s) :
    (∃ ws, Chain.Linked s.work_queue.queue.prev s.work_queue.queue.first ws ∧
      ws.length = s.work_queue.queue.work_to_be_done ∧ s.work_queue.queue.last = ws.getLast? ∧
      s.pushed = s.taken ++ ws) ∧
    ∀ op s', QueueStep s op s' → s.Answered op s' := by
  have h₀ : start.Inv := .of_eq .create rfl
  have hinv := hrun.inv_of_step h₀ fun s op s' h hs => (h.step hs).1
  have hrep := hinv.represents
  exact ⟨⟨s.waiting, hrep.linked, hrep.holds.length.symm, hrep.holds.last, hinv.order⟩,
    fun op s' hs => (hinv.step hs).2⟩

/-- Two works, of which one is pulled. -/
theorem work_queue_represents_two : ∃ tr s, Runs.Run QueueStep start tr s ∧ s.pushed = [7, 8] ∧ s.taken = [7] ∧
    ∃ ws, Chain.Linked s.work_queue.queue.prev s.work_queue.queue.first ws ∧ s.pushed = s.taken ++ ws := by
  have h₁ : QueueStep start (.push 7) ⟨PendingQueue.push_work .create_work_queue 7, [7], []⟩ := .push (by decide)
  have h₂ : QueueStep ⟨PendingQueue.push_work .create_work_queue 7, [7], []⟩ (.push 8)
      ⟨(PendingQueue.push_work .create_work_queue 7).push_work 8, [7, 8], []⟩ := .push (by decide)
  have h₃ := QueueStep.pull (s := ⟨(PendingQueue.push_work .create_work_queue 7).push_work 8, [7, 8], []⟩) rfl
  have hrun := ((Runs.Run.nil.snoc h₁).snoc h₂).snoc h₃
  obtain ⟨⟨ws, hlinked, -, -, horder⟩, -⟩ := work_queue_represents hrun
  exact ⟨_, _, hrun, rfl, rfl, ws, hlinked, horder⟩

end QueueHistory

end BulletinBoard
