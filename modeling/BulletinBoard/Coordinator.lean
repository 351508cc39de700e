import BulletinBoard.Descriptor
import BulletinBoard.Lib.Pool
import BulletinBoard.Lib.Run

/- The coordinator of the synchronisation: `sync_write` or `sync_replace` in one thread,
   and the jobs it queues for the sender team, in any interleaving. A mutex-protected
   section is one step, and so is each unlocked write of the coordinator. A job may
   stay where it is for ever, so that a lost reply or a terminated team needs no step of
   its own. What is proved: a write that returns 0 had the votes of all peers in both
   rounds, and the exact condition under which no wake-up is lost. -/
namespace BulletinBoard

def err_host : Int := -1

/-- The function a queued job runs. -/
inductive SendFn where
  | send_precommit
  | send_commit
  | send_del
  | send_quit
  deriving DecidableEq, Repr

/-- Which of `sync_write` and `sync_replace` runs. -/
inductive SyncKind where
  | write
  | replace
  deriving DecidableEq, Repr

/-- The requests that the jobs send. -/
inductive Request where
  | precommit
  | commit (kind : SyncKind)
  | abort
  | quit
  deriving DecidableEq, Repr

structure PeerStatAddress where
  marked : Bool
  peer_port : Int
  dont_reissue : Bool
  deriving DecidableEq, Repr

/-- Where a job stands, with the peer it marked: `replied` has the reply in `buff` and has not
    counted it yet, `returned` has returned without a vote. -/
inductive Job where
  | queued
  | claimed (mark : Nat)
  | sent (mark : Nat)
  | replied (mark : Nat) (buff : CStr)
  | voted (mark : Nat) (buff : CStr)
  | returned (mark : Option Nat)
  deriving DecidableEq, Repr

namespace Job

def mark? : Job → Option Nat
  | queued => none
  | claimed i | sent i | replied i _ | voted i _ => some i
  | returned m => m

/-- The vote of a reply, its last character cut off. -/
def positive (buff : CStr) : Bool := buff.dropLast = "positive".toList

def isPositive : Job → Bool
  | voted _ buff => positive buff
  | _ => false

def isNegative : Job → Bool
  | voted _ buff => !positive buff
  | _ => false

def isVoted : Job → Bool
  | voted _ _ => true
  | _ => false

/-- The job has run. -/
def finished : Job → Bool
  | .voted _ _ | .returned _ => true
  | _ => false

end Job

/-- What the jobs that are queued next are for: the two rounds of votes, an ABORT to the peers, or
    a QUIT, after which the coordinator returns `ret`. -/
inductive Round where
  | precommit
  | commit
  | abort
  | quit (ret : Int)
  deriving DecidableEq, Repr

def Round.fn : Round → SendFn
  | precommit => .send_precommit
  | commit => .send_commit
  | abort => .send_del
  | quit _ => .send_quit

/-- Where the coordinator stands. In `wait` it is blocked in `pthread_cond_wait`, with or without
    a wake-up that is pending. -/
inductive Pc where
  | add (r : Round) (i : Nat)
  | lock (r : Round)
  | wait (r : Round) (woken : Bool)
  | test (r : Round)
  | resetPos (r : Round)
  | resetNeg (r : Round)
  | resetMarks (r : Round) (i : Nat)
  | localWrite
  | readBack
  | returned (ret : Int)
  deriving DecidableEq, Repr

/-- `comms_info`, the jobs, the two results of the coordinator's own file operations, and the
    requests sent so far, each with its peer. -/
structure Sync where
  pos_count : Nat
  neg_count : Nat
  peer_addr : Nat → PeerStatAddress
  writer : Bool
  replacer : Bool
  pc : Pc
  jobs : SendFn → List Job
  write_return : Option Int
  read_return : Option Int
  requests : List (Nat × Request)

namespace Sync

/-- The state in which the first job is about to be queued. -/
structure Init (N : Nat) (s : Sync) : Prop where
  pos_count : s.pos_count = 0
  neg_count : s.neg_count = 0
  marked : ∀ i, i < N → (s.peer_addr i).marked = false
  pc : s.pc = .add .precommit 0
  jobs : ∀ fn, s.jobs fn = []

def setJob (s : Sync) (fn : SendFn) (j : Nat) (job : Job) : Sync :=
  { s with jobs := Function.update s.jobs fn ((s.jobs fn).set j job) }

def setPeer (s : Sync) (i : Nat) (a : PeerStatAddress) : Sync :=
  { s with peer_addr := Function.update s.peer_addr i a }

def send (s : Sync) (i : Nat) (r : Request) : Sync :=
  { s with requests := s.requests ++ [(i, r)] }

/-- The loop that looks for a peer nobody has marked. -/
def firstUnmarked (N : Nat) (s : Sync) : Option Nat :=
  (List.range N).find? fun i => !(s.peer_addr i).marked

/-- The condition before a wait. -/
def mustWait (N : Nat) (s : Sync) : Bool :=
  s.pos_count ≠ N || s.neg_count ≠ N || s.pos_count + s.neg_count ≠ N

/-- The condition before a broadcast. -/
def allIn (N : Nat) (s : Sync) : Bool :=
  s.pos_count = N || s.neg_count = N || s.pos_count + s.neg_count = N

/-- `pthread_cond_broadcast`: a blocked coordinator has a wake-up pending. -/
def broadcast (s : Sync) : Sync :=
  match s.pc with
  | .wait r _ => { s with pc := .wait r true }
  | _ => s

/-- The protected section at the end of `send_precommit` and `send_commit`. -/
def count (N : Nat) (s : Sync) (fn : SendFn) (i : Nat) (buff : CStr) : Sync :=
  let s := if Job.positive buff then { s with pos_count := s.pos_count + 1 }
    else { s with neg_count := s.neg_count + 1 }
  let s := if fn = .send_commit ∧ buff.dropLast = "negative_exists".toList then
      s.setPeer i { s.peer_addr i with dont_reissue := true } else s
  if s.allIn N then s.broadcast else s

/-- What the coordinator returns when a job cannot be queued. -/
def addFailure : SyncKind → Round → Int
  | .replace, .commit => 0
  | _, _ => -1

/-- What the coordinator does when the jobs are queued. -/
def afterAdd : Round → Pc
  | .abort => .returned (-1)
  | .quit ret => .returned ret
  | r => .lock r

/-- A test of `pos_count` that does not find all votes positive. -/
def afterNegative : SyncKind → Round → Pc
  | .write, .precommit => .resetPos (.quit (-1))
  | .replace, .precommit => .returned (-1)
  | _, _ => .resetPos .abort

/-- The test after the read-back. -/
def readBackFails : SyncKind → Int → Bool
  | .write, ret => ret < 0
  | .replace, ret => ret = -1

/-- What the local write or replace can return. -/
def LocalReturn : SyncKind → Int → Prop
  | .write, ret => ∃ id user message d, (writeDescriptor id user message d).1 = ret
  | .replace, ret => ∃ junk id user message d d', replaceDescriptor junk id user message d = some (ret, d')

def ReadReturn (ret : Int) : Prop := ∃ junk id d text d', readDescriptor junk id d = some ((ret, text), d')

/-- Whose step it is. -/
inductive Actor where
  | coordinator
  | job (fn : SendFn) (j : Nat)
  deriving DecidableEq, Repr

/-- A step of the coordinator with `N` peers. -/
inductive Coordinate (N : Nat) (kind : SyncKind) (s : Sync) : Sync → Prop where
  | addJob {r : Round} {i : Nat} : s.pc = .add r i → i < N →
      Coordinate N kind s { s with
        jobs := Function.update s.jobs r.fn (s.jobs r.fn ++ [.queued]), pc := .add r (i + 1) }
  | addFails {r : Round} {i : Nat} : s.pc = .add r i → i < N →
      Coordinate N kind s { s with pc := .returned (addFailure kind r) }
  | added {r : Round} : s.pc = .add r N → Coordinate N kind s { s with pc := afterAdd r }
  | blocks {r : Round} : s.pc = .lock r → s.mustWait N = true →
      Coordinate N kind s { s with pc := .wait r false }
  | passes {r : Round} : s.pc = .lock r → s.mustWait N = false →
      Coordinate N kind s { s with pc := .test r }
  -- with a wake-up pending or without one
  | wakes {r : Round} {woken : Bool} : s.pc = .wait r woken →
      Coordinate N kind s { s with pc := .test r }
  | precommitted : s.pc = .test .precommit → s.pos_count = N →
      Coordinate N kind s { s with
        writer := kind = .write, replacer := kind = .replace, pc := .resetPos .commit }
  | committed : s.pc = .test .commit → s.pos_count = N → Coordinate N kind s { s with pc := .localWrite }
  | negative {r : Round} : s.pc = .test r → s.pos_count ≠ N →
      Coordinate N kind s { s with pc := afterNegative kind r }
  | resetPos {r : Round} : s.pc = .resetPos r →
      Coordinate N kind s { s with pos_count := 0, pc := .resetNeg r }
  | resetNeg {r : Round} : s.pc = .resetNeg r →
      Coordinate N kind s { s with neg_count := 0, pc := .resetMarks r 0 }
  | resetMark {r : Round} {i : Nat} : s.pc = .resetMarks r i → i < N →
      Coordinate N kind s { s.setPeer i { s.peer_addr i with marked := false } with
        pc := .resetMarks r (i + 1) }
  | resetDone {r : Round} : s.pc = .resetMarks r N → Coordinate N kind s { s with pc := .add r 0 }
  | localWrite {ret : Int} : s.pc = .localWrite → LocalReturn kind ret →
      Coordinate N kind s { s with
        write_return := some ret
        pc := if ret < 0 then .resetPos .abort else .readBack }
  | readBack {ret : Int} : s.pc = .readBack → ReadReturn ret →
      Coordinate N kind s { s with
        read_return := some ret
        pc := if readBackFails kind ret then .resetPos .abort else .resetPos (.quit 0) }

/-- A step of the job with index `j` among those that run `fn`. -/
inductive Work (N : Nat) (s : Sync) : SendFn → Nat → Sync → Prop where
  | claim {fn : SendFn} {j i : Nat} : (s.jobs fn)[j]? = some .queued → s.firstUnmarked N = some i →
      Work N s fn j ((s.setJob fn j (.claimed i)).setPeer i { s.peer_addr i with marked := true })
  | nonePeer {fn : SendFn} {j : Nat} : (s.jobs fn)[j]? = some .queued → s.firstUnmarked N = none →
      Work N s fn j (s.setJob fn j (.returned none))
  | unknownHost {j i : Nat} : (s.jobs .send_precommit)[j]? = some (.claimed i) →
      Work N s .send_precommit j
        ((s.setJob .send_precommit j (.returned (some i))).setPeer i
          { s.peer_addr i with peer_port := err_host })
  -- any other result of `connectbyport` is used as a socket
  | connect {j i : Nat} {sd : Int} : (s.jobs .send_precommit)[j]? = some (.claimed i) → sd ≠ err_host →
      Work N s .send_precommit j
        (((s.setJob .send_precommit j (.sent i)).setPeer i { s.peer_addr i with peer_port := sd }).send i
          .precommit)
  | commitFails {j i : Nat} : (s.jobs .send_commit)[j]? = some (.claimed i) →
      (s.peer_addr i).peer_port = err_host ∨ s.writer = s.replacer →
      Work N s .send_commit j (s.setJob .send_commit j (.returned (some i)))
  | commit {j i : Nat} : (s.jobs .send_commit)[j]? = some (.claimed i) →
      (s.peer_addr i).peer_port ≠ err_host → s.writer ≠ s.replacer →
      Work N s .send_commit j
        ((s.setJob .send_commit j (.sent i)).send i (.commit (if s.writer then .write else .replace)))
  | closeFails {fn : SendFn} {j i : Nat} : fn = .send_del ∨ fn = .send_quit →
      (s.jobs fn)[j]? = some (.claimed i) →
      (s.peer_addr i).peer_port = err_host ∨ (s.peer_addr i).dont_reissue = true →
      Work N s fn j (s.setJob fn j (.returned (some i)))
  | close {fn : SendFn} {j i : Nat} : fn = .send_del ∨ fn = .send_quit →
      (s.jobs fn)[j]? = some (.claimed i) →
      (s.peer_addr i).peer_port ≠ err_host → (s.peer_addr i).dont_reissue = false →
      Work N s fn j ((s.setJob fn j (.returned (some i))).send i (if fn = .send_del then .abort else .quit))
  -- no reply at all leaves the buffer empty
  | reply {fn : SendFn} {j i : Nat} {buff : CStr} : (s.jobs fn)[j]? = some (.sent i) →
      Work N s fn j (s.setJob fn j (.replied i buff))
  | vote {fn : SendFn} {j i : Nat} {buff : CStr} : (s.jobs fn)[j]? = some (.replied i buff) →
      Work N s fn j ((s.setJob fn j (.voted i buff)).count N fn i buff)

inductive Step (N : Nat) (kind : SyncKind) : Sync → Actor → Sync → Prop where
  | coordinator {s s' : Sync} : Coordinate N kind s s' → Step N kind s .coordinator s'
  | job {s s' : Sync} {fn : SendFn} {j : Nat} : Work N s fn j s' → Step N kind s (.job fn j) s'

/-! One job replaced in its list. -/

/-- The marks of the jobs that run `fn`. -/
def marks (s : Sync) (fn : SendFn) : List Nat := (s.jobs fn).filterMap Job.mark?

/-- The counters count the votes of these jobs, and the marks are theirs. -/
structure Counted (N : Nat) (s : Sync) (fn : SendFn) : Prop where
  pos : s.pos_count = (s.jobs fn).countP Job.isPositive
  neg : s.neg_count = (s.jobs fn).countP Job.isNegative
  nodup : (s.marks fn).Nodup
  lt : ∀ i ∈ s.marks fn, i < N
  marked : ∀ i, i < N → ((s.peer_addr i).marked = true ↔ i ∈ s.marks fn)

/-- Every peer was claimed by exactly one job, and the reply of each was counted as positive. -/
structure Complete (N : Nat) (jobs : List Job) : Prop where
  length : jobs.length = N
  positive : ∀ job ∈ jobs, job.isPositive = true
  claimed : ∀ i, i < N → (jobs.filterMap Job.mark?).count i = 1

theorem voted_of_isPositive {job : Job} (h : job.isPositive = true) :
    ∃ i buff, job = .voted i buff ∧ Job.positive buff = true := by
  cases job with
  | voted i buff => exact ⟨i, buff, rfl, h⟩
  | _ => simp [Job.isPositive] at h

/-- When every job has marked a peer, each peer is marked by one of them. -/
theorem Counted.marks_perm {N : Nat} {s : Sync} {fn : SendFn} (h : Counted N s fn)
    (hlen : (s.jobs fn).length = N) (hall : ∀ job ∈ s.jobs fn, job.mark?.isSome = true) :
    (s.marks fn).Perm (List.range N) := by
  have hmarks : (s.marks fn).length = N := by
    rw [← hlen, marks, List.length_filterMap_eq_countP, List.countP_eq_length]
    exact hall
  refine (h.nodup.subperm ?_).perm_of_length_le (by simp [hmarks])
  intro i hi
  exact List.mem_range.2 (h.lt i hi)

/-- As many positive votes as peers: every peer's job has voted. -/
theorem Counted.complete {N : Nat} {s : Sync} {fn : SendFn} (h : Counted N s fn)
    (hlen : (s.jobs fn).length = N) (hpos : s.pos_count = N) : Complete N (s.jobs fn) := by
  have hall : ∀ job ∈ s.jobs fn, job.isPositive = true := by
    rw [← List.countP_eq_length, ← h.pos, hpos, hlen]
  have hperm : (s.marks fn).Perm (List.range N) := by
    apply h.marks_perm hlen
    intro job hjob
    obtain ⟨i, buff, rfl, -⟩ := voted_of_isPositive (hall job hjob)
    rfl
  refine ⟨hlen, hall, ?_⟩
  intro i hi
  exact List.count_eq_one_of_mem h.nodup (hperm.mem_iff.2 (List.mem_range.2 hi))

theorem firstUnmarked_eq_some {N i : Nat} {s : Sync} (h : s.firstUnmarked N = some i) :
    i < N ∧ (s.peer_addr i).marked = false := by
  have h₁ := List.mem_of_find?_eq_some h
  have h₂ := List.find?_some h
  exact ⟨List.mem_range.1 h₁, by simpa using h₂⟩

/-- There is a peer for every job: one that is still queued finds it unmarked. -/
theorem Counted.firstUnmarked_ne {N j : Nat} {s : Sync} {fn : SendFn} (h : Counted N s fn)
    (hlen : (s.jobs fn).length ≤ N) (hj : (s.jobs fn)[j]? = some .queued) : s.firstUnmarked N ≠ none := by
  intro hnone
  have hall : ∀ k, k < N → k ∈ s.marks fn := by
    intro k hk
    rw [← h.marked k hk]
    have := List.find?_eq_none.1 hnone k (List.mem_range.2 hk)
    simpa using this
  have hle : N ≤ (s.marks fn).length := by
    have hsub : (List.range N).Subperm (s.marks fn) :=
      List.nodup_range.subperm fun k hk => hall k (List.mem_range.1 hk)
    simpa using hsub.length_le
  have hlt : (s.marks fn).length < (s.jobs fn).length := by
    rw [marks, List.length_filterMap_eq_countP]
    refine lt_of_le_of_ne List.countP_le_length fun he => ?_
    have := List.countP_eq_length.1 he .queued (List.mem_of_getElem? hj)
    cases this
  omega

/-! What a step of a job changes. -/

@[simp] theorem setJob_jobs (s : Sync) (fn : SendFn) (j : Nat) (job : Job) :
    (s.setJob fn j job).jobs = Function.update s.jobs fn ((s.jobs fn).set j job) := rfl

@[simp] theorem setJob_pc (s : Sync) (fn : SendFn) (j : Nat) (job : Job) :
    (s.setJob fn j job).pc = s.pc := rfl

@[simp] theorem setPeer_jobs (s : Sync) (i : Nat) (a : PeerStatAddress) :
    (s.setPeer i a).jobs = s.jobs := rfl

@[simp] theorem setPeer_pc (s : Sync) (i : Nat) (a : PeerStatAddress) : (s.setPeer i a).pc = s.pc := rfl

@[simp] theorem send_jobs (s : Sync) (i : Nat) (r : Request) : (s.send i r).jobs = s.jobs := rfl

@[simp] theorem send_pc (s : Sync) (i : Nat) (r : Request) : (s.send i r).pc = s.pc := rfl

@[simp] theorem broadcast_jobs (s : Sync) : s.broadcast.jobs = s.jobs := by
  unfold broadcast; split <;> rfl

/-- What a job's step leaves alone. -/
structure SameResults (s s' : Sync) : Prop where
  pc : s'.pc = s.pc ∨ ∃ r woken, s.pc = .wait r woken ∧ s'.pc = .wait r true
  write_return : s'.write_return = s.write_return
  read_return : s'.read_return = s.read_return

theorem SameResults.of_eq {s s' : Sync} (hpc : s'.pc = s.pc) (hw : s'.write_return = s.write_return)
    (hr : s'.read_return = s.read_return) : SameResults s s' := ⟨Or.inl hpc, hw, hr⟩

theorem broadcast_same (s : Sync) : SameResults s s.broadcast := by
  rcases hpc : s.pc with _ | _ | ⟨r, woken⟩ | _ | _ | _ | _ | _ | _ | _
  case wait =>
    have hb : s.broadcast = { s with pc := .wait r true } := by simp only [broadcast, hpc]
    rw [hb]
    exact ⟨Or.inr ⟨r, woken, hpc, rfl⟩, rfl, rfl⟩
  all_goals
    have hb : s.broadcast = s := by simp only [broadcast, hpc]
    rw [hb]
    exact SameResults.of_eq rfl rfl rfl

/-- What counting a vote does. -/
structure Counts (N : Nat) (s s' : Sync) (buff : CStr) : Prop where
  jobs : s'.jobs = s.jobs
  pos : s'.pos_count = s.pos_count + if Job.positive buff then 1 else 0
  neg : s'.neg_count = s.neg_count + if Job.positive buff then 0 else 1
  marked : ∀ k, (s'.peer_addr k).marked = (s.peer_addr k).marked
  same : SameResults s s'
  woken : s'.pos_count + s'.neg_count = N → ∀ r, s'.pc ≠ .wait r false

theorem count_counts (N : Nat) (s : Sync) (fn : SendFn) (i : Nat) (buff : CStr) :
    Counts N s (s.count N fn i buff) buff := by
  -- the state with the vote counted and the flag set, before the broadcast
  obtain ⟨u, hu, hjobs, hpos, hneg, hmarked, hpc, hw, hr⟩ : ∃ u : Sync,
      s.count N fn i buff = (if u.allIn N then u.broadcast else u) ∧ u.jobs = s.jobs ∧
      u.pos_count = s.pos_count + (if Job.positive buff then 1 else 0) ∧
      u.neg_count = s.neg_count + (if Job.positive buff then 0 else 1) ∧
      (∀ k, (u.peer_addr k).marked = (s.peer_addr k).marked) ∧ u.pc = s.pc ∧
      u.write_return = s.write_return ∧ u.read_return = s.read_return := by
    refine ⟨_, rfl, ?_⟩
    by_cases hp : Job.positive buff <;>
      by_cases he : fn = .send_commit ∧ buff.dropLast = "negative_exists".toList
    all_goals simp only [hp, he, if_true, if_false, Bool.false_eq_true, setPeer, and_self, and_true, true_and,
        add_zero, implies_true]
    all_goals
      intro k
      by_cases hk : k = i
      · subst hk; simp
      · simp [hk]
  rw [hu]
  have hb : SameResults s (if u.allIn N then u.broadcast else u) := by
    split
    · have := broadcast_same u
      exact ⟨by rw [← hpc]; exact this.pc, this.write_return.trans hw, this.read_return.trans hr⟩
    · exact SameResults.of_eq hpc hw hr
  have hfields : (if u.allIn N then u.broadcast else u).pos_count = u.pos_count ∧
      (if u.allIn N then u.broadcast else u).neg_count = u.neg_count ∧
      (if u.allIn N then u.broadcast else u).peer_addr = u.peer_addr ∧
      (if u.allIn N then u.broadcast else u).jobs = u.jobs := by
    unfold broadcast
    split
    · split <;> exact ⟨rfl, rfl, rfl, rfl⟩
    · exact ⟨rfl, rfl, rfl, rfl⟩
  obtain ⟨h₁, h₂, h₃, h₄⟩ := hfields
  refine ⟨h₄.trans hjobs, h₁.trans hpos, h₂.trans hneg, fun k => by rw [h₃]; exact hmarked k, hb, ?_⟩
  rw [h₁, h₂]
  intro hsum r
  have hall : u.allIn N = true := by simp [allIn, hsum]
  rw [if_pos hall]
  unfold broadcast
  split
  · simp
  · next hne => exact hne r false

/-- A step that moves one job on, without a claim. -/
theorem Counted.set {N : Nat} {s s' : Sync} {fn : SendFn} {j : Nat} {y : Job} (h : Counted N s fn) (x : Job)
    (hj : (s.jobs fn)[j]? = some y) (hy : y.isVoted = false) (hmark : x.mark? = y.mark?)
    (hjobs : s'.jobs fn = (s.jobs fn).set j x)
    (hpos : s'.pos_count = s.pos_count + if x.isPositive then 1 else 0)
    (hneg : s'.neg_count = s.neg_count + if x.isNegative then 1 else 0)
    (hmarked : ∀ k, (s'.peer_addr k).marked = (s.peer_addr k).marked) : Counted N s' fn := by
  have hmarks : s'.marks fn = s.marks fn := by
    obtain ⟨l₁, l₂, hl, hset⟩ := Pool.set_split hj
    rw [marks, marks, hjobs, hset, hl]
    simp [List.filterMap_append, List.filterMap_cons, hmark]
  have hyp : y.isPositive = false := by cases y <;> simp_all [Job.isPositive, Job.isVoted]
  have hyn : y.isNegative = false := by cases y <;> simp_all [Job.isNegative, Job.isVoted]
  refine ⟨?_, ?_, hmarks ▸ h.nodup, hmarks ▸ h.lt, ?_⟩
  · rw [hpos, hjobs, Pool.countP_set_of_not hj hyp, h.pos]
  · rw [hneg, hjobs, Pool.countP_set_of_not hj hyn, h.neg]
  · intro k hk
    rw [hmarked, hmarks]
    exact h.marked k hk

/-- A queued job has neither a mark nor a vote. -/
theorem Counted.snoc {N : Nat} {s s' : Sync} {fn : SendFn} (h : Counted N s fn)
    (hjobs : s'.jobs fn = s.jobs fn ++ [.queued]) (hpos : s'.pos_count = s.pos_count)
    (hneg : s'.neg_count = s.neg_count) (hpeer : s'.peer_addr = s.peer_addr) : Counted N s' fn := by
  have hmarks : s'.marks fn = s.marks fn := by
    rw [marks, hjobs, List.filterMap_append]
    exact List.append_nil _
  refine ⟨?_, ?_, hmarks ▸ h.nodup, hmarks ▸ h.lt, ?_⟩
  · rw [hpos, hjobs, List.countP_append, h.pos]
    rfl
  · rw [hneg, hjobs, List.countP_append, h.neg]
    rfl
  · rw [hpeer, hmarks]
    exact h.marked

/-- A claim: the first peer nobody has marked is this job's. -/
theorem Counted.claim {N i : Nat} {s s' : Sync} {fn : SendFn} {j : Nat} (h : Counted N s fn)
    (hj : (s.jobs fn)[j]? = some .queued) (hi : s.firstUnmarked N = some i)
    (hjobs : s'.jobs fn = (s.jobs fn).set j (.claimed i)) (hpos : s'.pos_count = s.pos_count)
    (hneg : s'.neg_count = s.neg_count)
    (hpeer : ∀ k, (s'.peer_addr k).marked = if k = i then true else (s.peer_addr k).marked) :
    Counted N s' fn := by
  obtain ⟨hlt, hun⟩ := firstUnmarked_eq_some hi
  have hnot : i ∉ s.marks fn := by
    intro hm
    rw [(h.marked i hlt).2 hm] at hun
    cases hun
  have hmarks : (s'.marks fn).Perm (i :: s.marks fn) := by
    obtain ⟨l₁, l₂, hl, hset⟩ := Pool.set_split hj
    rw [marks, marks, hjobs, hset, hl]
    simp only [List.filterMap_append, List.filterMap_cons, Job.mark?]
    exact List.perm_middle
  refine ⟨?_, ?_, ?_, ?_, ?_⟩
  · rw [hpos, hjobs, Pool.countP_set_of_not hj rfl, h.pos]; rfl
  · rw [hneg, hjobs, Pool.countP_set_of_not hj rfl, h.neg]; rfl
  · exact hmarks.nodup_iff.2 (List.nodup_cons.2 ⟨hnot, h.nodup⟩)
  · intro k hk
    rcases List.mem_cons.1 (hmarks.mem_iff.1 hk) with rfl | hk
    · exact hlt
    · exact h.lt k hk
  · intro k hk
    rw [hmarks.mem_iff, List.mem_cons, hpeer]
    split
    · next he => simp [he]
    · next he => simp [he, h.marked k hk]

/-- A step of a job, as far as the rounds are concerned: one job of the list is moved on,
    the counters and marks go on counting the list, and the vote that makes all votes in
    wakes the coordinator. -/
structure Moves (N : Nat) (s : Sync) (fn : SendFn) (j : Nat) (s' : Sync) : Prop where
  job : ∃ y x, (s.jobs fn)[j]? = some y ∧ y.isVoted = false ∧
    s'.jobs = Function.update s.jobs fn ((s.jobs fn).set j x)
  same : SameResults s s'
  counted : Counted N s fn → Counted N s' fn
  woken : s.pos_count + s.neg_count < N → s'.pos_count + s'.neg_count = N → ∀ r, s'.pc ≠ .wait r false

/-- A step that neither claims nor votes. -/
theorem Moves.of_set {N : Nat} {s s' : Sync} {fn : SendFn} {j : Nat} {y : Job} (x : Job)
    (hj : (s.jobs fn)[j]? = some y) (hy : y.isVoted = false) (hx : x.isVoted = false)
    (hmark : x.mark? = y.mark?) (hjobs : s'.jobs = Function.update s.jobs fn ((s.jobs fn).set j x))
    (hpos : s'.pos_count = s.pos_count) (hneg : s'.neg_count = s.neg_count)
    (hmarked : ∀ k, (s'.peer_addr k).marked = (s.peer_addr k).marked) (hsame : SameResults s s') :
    Moves N s fn j s' where
  job := ⟨y, x, hj, hy, hjobs⟩
  same := hsame
  counted := by
    intro h
    have hxp : x.isPositive = false := by cases x <;> simp_all [Job.isPositive, Job.isVoted]
    have hxn : x.isNegative = false := by cases x <;> simp_all [Job.isNegative, Job.isVoted]
    refine h.set x hj hy hmark ?_ ?_ ?_ hmarked
    · rw [hjobs, Function.update_self]
    · rw [hpos, hxp]; rfl
    · rw [hneg, hxn]; rfl
  woken := by
    intro hlt hsum
    omega

theorem update_marked {s : Sync} {i : Nat} {a : PeerStatAddress} (ha : a.marked = (s.peer_addr i).marked)
    (k : Nat) : (Function.update s.peer_addr i a k).marked = (s.peer_addr k).marked := by
  by_cases hk : k = i
  · subst hk; simpa using ha
  · simp [hk]

theorem Work.moves {N : Nat} {s s' : Sync} {fn : SendFn} {j : Nat} (h : Work N s fn j s') :
    Moves N s fn j s' := by
  cases h with
  | @claim _ _ i hj hi =>
    refine ⟨⟨_, _, hj, rfl, rfl⟩, .of_eq rfl rfl rfl, ?_, fun hlt hsum => absurd hsum (Nat.ne_of_lt hlt)⟩
    intro h
    refine h.claim hj hi (by simp) rfl rfl ?_
    intro k
    by_cases hk : k = i
    · simp [setPeer, hk]
    · simp [setPeer, setJob, hk]
  | nonePeer hj _ =>
    exact .of_set (.returned none) hj rfl rfl rfl rfl rfl rfl (fun _ => rfl) (.of_eq rfl rfl rfl)
  | @unknownHost _ i hj =>
    exact .of_set (.returned (some i)) hj rfl rfl rfl rfl rfl rfl (update_marked (s := s) rfl)
      (.of_eq rfl rfl rfl)
  | @connect _ i _ hj _ =>
    exact .of_set (.sent i) hj rfl rfl rfl rfl rfl rfl (update_marked (s := s) rfl) (.of_eq rfl rfl rfl)
  | @commitFails _ i hj _ =>
    exact .of_set (.returned (some i)) hj rfl rfl rfl rfl rfl rfl (fun _ => rfl) (.of_eq rfl rfl rfl)
  | @commit _ i hj _ _ =>
    exact .of_set (.sent i) hj rfl rfl rfl rfl rfl rfl (fun _ => rfl) (.of_eq rfl rfl rfl)
  | @closeFails _ _ i _ hj _ =>
    exact .of_set (.returned (some i)) hj rfl rfl rfl rfl rfl rfl (fun _ => rfl) (.of_eq rfl rfl rfl)
  | @close _ _ i _ hj _ _ =>
    exact .of_set (.returned (some i)) hj rfl rfl rfl rfl rfl rfl (fun _ => rfl) (.of_eq rfl rfl rfl)
  | @reply _ _ i buff hj =>
    exact .of_set (.replied i buff) hj rfl rfl rfl rfl rfl rfl (fun _ => rfl) (.of_eq rfl rfl rfl)
  | @vote _ _ i buff hj =>
    have hc := count_counts N (s.setJob fn j (.voted i buff)) fn i buff
    refine ⟨⟨_, _, hj, rfl, hc.jobs⟩, ⟨hc.same.pc, hc.same.write_return, hc.same.read_return⟩, ?_,
      fun _ hsum => hc.woken hsum⟩
    intro h
    refine h.set (.voted i buff) hj rfl rfl ?_ hc.pos ?_ hc.marked
    · rw [hc.jobs]; simp
    · rw [hc.neg]
      by_cases hp : Job.positive buff <;> simp [Job.isNegative, hp, setJob]

/-! The invariant. -/

/-- What the rounds before `r` have left, and that nothing is queued for a later one. -/
def Earlier (N : Nat) (s : Sync) : Round → Prop
  | .precommit => ∀ fn, fn ≠ .send_precommit → s.jobs fn = []
  | .commit => Complete N (s.jobs .send_precommit) ∧
      ∀ fn, fn ≠ .send_precommit → fn ≠ .send_commit → s.jobs fn = []
  | _ => False

/-- All that a write needs before it returns 0. -/
structure Done (N : Nat) (s : Sync) : Prop where
  precommits : Complete N (s.jobs .send_precommit)
  commits : Complete N (s.jobs .send_commit)
  written : s.write_return = some 0
  read_back : ∃ ret, s.read_return = some ret ∧ 0 ≤ ret

def Returns (N : Nat) (kind : SyncKind) (s : Sync) (ret : Int) : Prop :=
  ret = 0 → kind = .write → Done N s

/-- `i` jobs of a round of votes are queued, and the counters count them. -/
structure Voting (N : Nat) (s : Sync) (r : Round) (i : Nat) : Prop where
  earlier : Earlier N s r
  le : i ≤ N
  length : (s.jobs r.fn).length = i
  counted : Counted N s r.fn

/-- Before the round: what `P` says of the counters holds, and no job of it is queued. -/
structure Resetting (N : Nat) (s : Sync) (r : Round) (P : Prop) : Prop where
  earlier : Earlier N s r
  jobs : s.jobs r.fn = []
  reset : P

/-- `P` in a round of votes; in the last round, what the coordinator may return. -/
def AtRound (N : Nat) (kind : SyncKind) (s : Sync) (P : Prop) : Round → Prop
  | .abort => True
  | .quit ret => Returns N kind s ret
  | _ => P

def InvAt (N : Nat) (kind : SyncKind) (s : Sync) : Pc → Prop
  | .add r i => AtRound N kind s (Voting N s r i) r
  | .lock r => Voting N s r N
  | .wait r _ => Voting N s r N
  | .test r => Voting N s r N
  | .resetPos r => AtRound N kind s (Resetting N s r True) r
  | .resetNeg r => AtRound N kind s (Resetting N s r (s.pos_count = 0)) r
  | .resetMarks r i => AtRound N kind s (Resetting N s r
      (s.pos_count = 0 ∧ s.neg_count = 0 ∧ ∀ k, k < i → (s.peer_addr k).marked = false)) r
  | .localWrite => Complete N (s.jobs .send_precommit) ∧ Complete N (s.jobs .send_commit)
  | .readBack => Complete N (s.jobs .send_precommit) ∧ Complete N (s.jobs .send_commit) ∧
      (kind = .write → s.write_return = some 0)
  | .returned ret => Returns N kind s ret

def Inv (N : Nat) (kind : SyncKind) (s : Sync) : Prop := InvAt N kind s s.pc

/-- Counters at 0 and no marks count no jobs. -/
theorem counted_of_nil {N : Nat} {s : Sync} {fn : SendFn} (hjobs : s.jobs fn = [])
    (hpos : s.pos_count = 0) (hneg : s.neg_count = 0)
    (hmarked : ∀ i, i < N → (s.peer_addr i).marked = false) : Counted N s fn := by
  have hmarks : s.marks fn = [] := by rw [marks, hjobs]; rfl
  refine ⟨by rw [hpos, hjobs]; rfl, by rw [hneg, hjobs]; rfl, ?_, ?_, ?_⟩
  · rw [hmarks]; exact List.nodup_nil
  · rw [hmarks]; simp
  · intro i hi
    rw [hmarks, hmarked i hi]
    simp

theorem AtRound.imp {N : Nat} {kind : SyncKind} {s s' : Sync} {P P' : Prop} {r : Round}
    (h : AtRound N kind s P r) (hret : ∀ ret, Returns N kind s ret → Returns N kind s' ret)
    (hP : P → P') : AtRound N kind s' P' r := by
  cases r with
  | abort => trivial
  | quit ret => exact hret ret h
  | precommit => exact hP h
  | commit => exact hP h

theorem Init.inv {N : Nat} {kind : SyncKind} {s : Sync} (h : Init N s) : Inv N kind s := by
  rw [Inv, h.pc]
  exact ⟨fun fn _ => h.jobs fn, Nat.zero_le N, by rw [h.jobs]; rfl,
    counted_of_nil (h.jobs _) h.pos_count h.neg_count h.marked⟩

/-- No job of a complete round moves. -/
theorem Complete.not_moves {N j : Nat} {s s' : Sync} {fn : SendFn} (h : Complete N (s.jobs fn))
    (hm : Moves N s fn j s') : False := by
  obtain ⟨y, x, hj, hy, -⟩ := hm.job
  obtain ⟨i, buff, rfl, -⟩ := voted_of_isPositive (h.positive y (List.mem_of_getElem? hj))
  simp [Job.isVoted] at hy

theorem not_moves_of_nil {N j : Nat} {s s' : Sync} {fn : SendFn} (h : s.jobs fn = [])
    (hm : Moves N s fn j s') : False := by
  obtain ⟨y, x, hj, -, -⟩ := hm.job
  rw [h] at hj
  simp at hj

/-- Only jobs of the round itself move. -/
theorem Earlier.fn_eq {N j : Nat} {s s' : Sync} {fn : SendFn} {r : Round} (h : Earlier N s r)
    (hm : Moves N s fn j s') : fn = r.fn := by
  cases r with
  | precommit =>
    by_contra hne
    exact not_moves_of_nil (h fn hne) hm
  | commit =>
    by_cases hp : fn = .send_precommit
    · subst hp
      exact (h.1.not_moves hm).elim
    · by_contra hne
      exact not_moves_of_nil (h.2 fn hp hne) hm
  | _ => exact h.elim

theorem Moves.jobs_ne {N j : Nat} {s s' : Sync} {fn fn' : SendFn} (hm : Moves N s fn j s')
    (hne : fn' ≠ fn) : s'.jobs fn' = s.jobs fn' := by
  obtain ⟨y, x, -, -, hjobs⟩ := hm.job
  rw [hjobs, Function.update_of_ne hne]

theorem Moves.length {N j : Nat} {s s' : Sync} {fn : SendFn} (hm : Moves N s fn j s') (fn' : SendFn) :
    (s'.jobs fn').length = (s.jobs fn').length := by
  by_cases hne : fn' = fn
  · subst hne
    obtain ⟨y, x, -, -, hjobs⟩ := hm.job
    rw [hjobs, Function.update_self, List.length_set]
  · rw [hm.jobs_ne hne]

theorem Moves.complete {N j : Nat} {s s' : Sync} {fn fn' : SendFn} (hm : Moves N s fn j s')
    (h : Complete N (s.jobs fn')) : Complete N (s'.jobs fn') := by
  by_cases hne : fn' = fn
  · subst hne
    exact (h.not_moves hm).elim
  · rwa [hm.jobs_ne hne]

theorem Moves.earlier {N j : Nat} {s s' : Sync} {fn : SendFn} {r : Round} (hm : Moves N s fn j s')
    (h : Earlier N s r) : Earlier N s' r := by
  have hnil : ∀ fn', s.jobs fn' = [] → s'.jobs fn' = [] := by
    intro fn' h₀
    rw [← List.length_eq_zero_iff, hm.length, h₀]; rfl
  cases r with
  | precommit => exact fun fn' hne => hnil fn' (h fn' hne)
  | commit => exact ⟨hm.complete h.1, fun fn' h₁ h₂ => hnil fn' (h.2 fn' h₁ h₂)⟩
  | _ => exact h

theorem Moves.voting {N i j : Nat} {s s' : Sync} {fn : SendFn} {r : Round} (hm : Moves N s fn j s')
    (h : Voting N s r i) : Voting N s' r i := by
  have hfn := h.earlier.fn_eq hm
  subst hfn
  exact ⟨hm.earlier h.earlier, h.le, (hm.length _).trans h.length, hm.counted h.counted⟩

theorem Moves.not_resetting {N j : Nat} {s s' : Sync} {fn : SendFn} {r : Round} {P : Prop}
    (hm : Moves N s fn j s') (h : Resetting N s r P) : False := by
  have hfn := h.earlier.fn_eq hm
  subst hfn
  exact not_moves_of_nil h.jobs hm

theorem Moves.returns {N j : Nat} {kind : SyncKind} {s s' : Sync} {fn : SendFn} {ret : Int}
    (hm : Moves N s fn j s') (h : Returns N kind s ret) : Returns N kind s' ret := by
  intro h₀ hk
  obtain ⟨hp, hc, hw, hr⟩ := h h₀ hk
  refine ⟨hm.complete hp, hm.complete hc, hm.same.write_return.trans hw, ?_⟩
  rw [hm.same.read_return]; exact hr

/-- A step of a job keeps the invariant. -/
theorem Moves.invAt {N j : Nat} {kind : SyncKind} {s s' : Sync} {fn : SendFn} (hm : Moves N s fn j s')
    {pc : Pc} (h : InvAt N kind s pc) : InvAt N kind s' pc := by
  have hret : ∀ ret, Returns N kind s ret → Returns N kind s' ret := fun _ => hm.returns
  cases pc with
  | add r i => exact h.imp hret hm.voting
  | lock r => exact hm.voting h
  | wait r _ => exact hm.voting h
  | test r => exact hm.voting h
  | resetPos r => exact h.imp hret fun hr => (hm.not_resetting hr).elim
  | resetNeg r => exact h.imp hret fun hr => (hm.not_resetting hr).elim
  | resetMarks r i => exact h.imp hret fun hr => (hm.not_resetting hr).elim
  | localWrite => exact ⟨hm.complete h.1, hm.complete h.2⟩
  | readBack =>
    refine ⟨hm.complete h.1, hm.complete h.2.1, ?_⟩
    rw [hm.same.write_return]; exact h.2.2
  | returned ret => exact hm.returns h

theorem Moves.inv {N j : Nat} {kind : SyncKind} {s s' : Sync} {fn : SendFn} (hm : Moves N s fn j s')
    (h : Inv N kind s) : Inv N kind s' := by
  rcases hm.same.pc with hpc | ⟨r, woken, hpc, hpc'⟩
  · rw [Inv, hpc]; exact hm.invAt h
  · rw [Inv, hpc] at h
    rw [Inv, hpc']
    exact hm.voting h

/-! The steps of the coordinator. -/

/-- The rounds before depend on the jobs only. -/
theorem Earlier.congr {N : Nat} {s s' : Sync} {r : Round} (h : Earlier N s r) (hjobs : s'.jobs = s.jobs) :
    Earlier N s' r := by
  cases r with
  | precommit => exact fun fn hne => (congrFun hjobs fn).trans (h fn hne)
  | commit => exact ⟨by rw [hjobs]; exact h.1, fun fn h₁ h₂ => (congrFun hjobs fn).trans (h.2 fn h₁ h₂)⟩
  | _ => exact h

theorem Resetting.congr {N : Nat} {s s' : Sync} {r : Round} {P P' : Prop} (h : Resetting N s r P)
    (hjobs : s'.jobs = s.jobs) (hP : P → P') : Resetting N s' r P' :=
  ⟨h.earlier.congr hjobs, (congrFun hjobs r.fn).trans h.jobs, hP h.reset⟩

theorem Returns.congr {N : Nat} {kind : SyncKind} {s s' : Sync} {ret : Int} (h : Returns N kind s ret)
    (hjobs : ∀ fn, fn = .send_precommit ∨ fn = .send_commit → s'.jobs fn = s.jobs fn)
    (hw : s'.write_return = s.write_return) (hr : s'.read_return = s.read_return) :
    Returns N kind s' ret := by
  intro h₀ hk
  obtain ⟨hp, hc, hwr, hrd⟩ := h h₀ hk
  exact ⟨hjobs _ (Or.inl rfl) ▸ hp, hjobs _ (Or.inr rfl) ▸ hc, hw.trans hwr, hr ▸ hrd⟩

/-- Queueing one more job. -/
theorem Voting.addJob {N i : Nat} {s : Sync} {r : Round} {pc : Pc} (h : Voting N s r i) (hi : i < N) :
    Voting N { s with jobs := Function.update s.jobs r.fn (s.jobs r.fn ++ [.queued]), pc := pc } r
      (i + 1) := by
  have hne : ∀ fn, fn ≠ r.fn →
      Function.update s.jobs r.fn (s.jobs r.fn ++ [.queued]) fn = s.jobs fn :=
    fun fn hfn => Function.update_of_ne hfn _ _
  have hself : Function.update s.jobs r.fn (s.jobs r.fn ++ [.queued]) r.fn = s.jobs r.fn ++ [.queued] :=
    Function.update_self ..
  refine ⟨?_, hi, by simp [h.length], h.counted.snoc hself rfl rfl rfl⟩
  cases r with
  | precommit => exact fun fn hfn => (hne fn hfn).trans (h.earlier fn hfn)
  | commit =>
    refine ⟨?_, fun fn h₁ h₂ => (hne fn h₂).trans (h.earlier.2 fn h₁ h₂)⟩
    have := h.earlier.1
    rwa [← hne .send_precommit (by decide)] at this
  | _ => exact h.earlier

/-- The coordinator moves on within a round. -/
theorem Voting.at_pc {N i : Nat} {s : Sync} {r : Round} {pc : Pc} (h : Voting N s r i) :
    Voting N { s with pc := pc } r i :=
  ⟨h.earlier.congr rfl, h.le, h.length, h.counted.pos, h.counted.neg, h.counted.nodup, h.counted.lt,
    h.counted.marked⟩

theorem returns_of_ne {N : Nat} {kind : SyncKind} {s : Sync} {ret : Int} (h : ret ≠ 0) :
    Returns N kind s ret := fun h₀ => absurd h₀ h

theorem Coordinate.inv {N : Nat} {kind : SyncKind} {s s' : Sync} (hstep : Coordinate N kind s s')
    (h : Inv N kind s) : Inv N kind s' := by
  cases hstep with
  | @addJob r i hpc hi =>
    rw [Inv, hpc] at h
    cases r with
    | abort => trivial
    | quit ret =>
      have hne : ∀ fn, fn ≠ .send_quit →
          Function.update s.jobs .send_quit (s.jobs .send_quit ++ [.queued]) fn = s.jobs fn :=
        fun fn hfn => Function.update_of_ne hfn _ _
      refine Returns.congr (s := s) h ?_ rfl rfl
      rintro fn (rfl | rfl)
      · exact hne .send_precommit (by decide)
      · exact hne .send_commit (by decide)
    | precommit => exact Voting.addJob h hi
    | commit => exact Voting.addJob h hi
  | @addFails r i hpc hi =>
    intro h₀ hk
    subst hk
    simp [addFailure] at h₀
  | @added r hpc =>
    rw [Inv, hpc] at h
    cases r with
    | abort => exact returns_of_ne (by decide)
    | quit ret => exact Returns.congr (s := s) h (fun _ _ => rfl) rfl rfl
    | precommit => exact Voting.at_pc h
    | commit => exact Voting.at_pc h
  | @blocks r hpc hw =>
    rw [Inv, hpc] at h
    exact Voting.at_pc h
  | @passes r hpc hw =>
    rw [Inv, hpc] at h
    exact Voting.at_pc h
  | @wakes r woken hpc =>
    rw [Inv, hpc] at h
    exact Voting.at_pc h
  | precommitted hpc hpos =>
    rw [Inv, hpc] at h
    refine ⟨⟨h.counted.complete h.length hpos, fun fn h₁ _ => h.earlier fn h₁⟩, h.earlier _ (by decide),
      trivial⟩
  | committed hpc hpos =>
    rw [Inv, hpc] at h
    exact ⟨h.earlier.1, h.counted.complete h.length hpos⟩
  | @negative r hpc hpos =>
    cases kind <;> cases r
    all_goals first | trivial | exact returns_of_ne (by decide)
  | @resetPos r hpc =>
    rw [Inv, hpc] at h
    exact AtRound.imp h (fun ret hr => hr.congr (fun _ _ => rfl) rfl rfl)
      (fun hr => hr.congr rfl fun _ => rfl)
  | @resetNeg r hpc =>
    rw [Inv, hpc] at h
    exact AtRound.imp h (fun ret hr => hr.congr (fun _ _ => rfl) rfl rfl)
      (fun hr => hr.congr rfl fun hp => ⟨hp, rfl, by simp⟩)
  | @resetMark r i hpc hi =>
    rw [Inv, hpc] at h
    refine AtRound.imp h (fun ret hr => hr.congr (fun _ _ => rfl) rfl rfl)
      (fun hr => hr.congr rfl fun hp => ⟨hp.1, hp.2.1, fun k hk => ?_⟩)
    by_cases hki : k = i
    · simp [setPeer, hki]
    · have := hp.2.2 k (by omega)
      simpa [setPeer, hki] using this
  | @resetDone r hpc =>
    rw [Inv, hpc] at h
    refine AtRound.imp h (fun ret hr => hr.congr (fun _ _ => rfl) rfl rfl) fun hr => ?_
    obtain ⟨hpos, hneg, hmarked⟩ := hr.reset
    exact ⟨hr.earlier.congr rfl, Nat.zero_le N, by simp [hr.jobs],
      counted_of_nil hr.jobs hpos hneg hmarked⟩
  | @localWrite ret hpc hret =>
    rw [Inv, hpc] at h
    by_cases hneg : ret < 0
    · simp only [Inv, if_pos hneg]; trivial
    · simp only [Inv, if_neg hneg]
      refine ⟨h.1, h.2, ?_⟩
      rintro rfl
      have h₀ : ret = 0 := by
        obtain ⟨id, user, message, d, rfl⟩ := hret
        exact (writeDescriptor_return id user message d).resolve_right hneg
      rw [h₀]
  | @readBack ret hpc hret =>
    rw [Inv, hpc] at h
    by_cases hf : readBackFails kind ret = true
    · simp only [Inv, if_pos hf]; trivial
    · simp only [Inv, if_neg hf]
      intro _ hk
      subst hk
      refine ⟨h.1, h.2.1, h.2.2 rfl, ret, rfl, ?_⟩
      simpa [readBackFails] using hf

theorem step_inv {N : Nat} {kind : SyncKind} {s s' : Sync} {a : Actor} (h : Inv N kind s)
    (hstep : Step N kind s a s') : Inv N kind s' := by
  cases hstep with
  | coordinator hc => exact hc.inv h
  | job hw => exact hw.moves.inv h

theorem run_inv {N : Nat} {kind : SyncKind} {s₀ s : Sync} {tr : List (Sync × Actor)} (h₀ : Init N s₀)
    (hrun : Runs.Run (Step N kind) s₀ tr s) : Inv N kind s :=
  hrun.inv_of_step h₀.inv fun _ _ _ h hs => step_inv h hs

/-- **Commit safety.** `sync_write` returns 0 only when every peer was claimed by exactly one job
    in each round, every reply of both rounds was counted as positive, the local write
    returned 0 and the read-back did not fail. -/
theorem sync_write_commits {N : Nat} {s₀ s : Sync} {tr : List (Sync × Actor)} (h₀ : Init N s₀)
    (hrun : Runs.Run (Step N .write) s₀ tr s) (hret : s.pc = .returned 0) : Done N s := by
  have hinv := run_inv h₀ hrun
  rw [Inv, hret] at hinv
  exact hinv rfl rfl

/-! A run with one peer. -/

def onePeer : Sync where
  pos_count := 0
  neg_count := 0
  peer_addr := fun _ => ⟨false, 0, false⟩
  writer := false
  replacer := false
  pc := .add .precommit 0
  jobs := fun _ => []
  write_return := none
  read_return := none
  requests := []

theorem onePeer_init : Init 1 onePeer := ⟨rfl, rfl, fun _ _ => rfl, rfl, fun _ => rfl⟩

theorem onePeer_commits : ∃ tr s,
    Runs.Run (Step 1 .write) onePeer tr s ∧ s.pc = .returned 0 ∧ Done 1 s := by
  have run := (Runs.Run.nil : Runs.Run (Step 1 .write) onePeer [] onePeer)
  -- PRECOMMIT, the coordinator waiting for the vote
  have run := run.snoc (.coordinator (.addJob rfl (by decide)))
  have run := run.snoc (.coordinator (.added rfl))
  have run := run.snoc (.coordinator (.blocks rfl rfl))
  have run := run.snoc (.job (@Work.claim 1 _ .send_precommit 0 0 rfl rfl))
  have run := run.snoc (.job (@Work.connect 1 _ 0 0 5 rfl (by decide)))
  have run := run.snoc (.job (@Work.reply 1 _ .send_precommit 0 0 "positive\n".toList rfl))
  have run := run.snoc (.job (@Work.vote 1 _ .send_precommit 0 0 "positive\n".toList rfl))
  have run := run.snoc (.coordinator (.wakes rfl))
  have run := run.snoc (.coordinator (.precommitted rfl rfl))
  have run := run.snoc (.coordinator (.resetPos rfl))
  have run := run.snoc (.coordinator (.resetNeg rfl))
  have run := run.snoc (.coordinator (.resetMark rfl (by decide)))
  have run := run.snoc (.coordinator (.resetDone rfl))
  -- COMMIT
  have run := run.snoc (.coordinator (.addJob rfl (by decide)))
  have run := run.snoc (.coordinator (.added rfl))
  have run := run.snoc (.coordinator (.blocks rfl rfl))
  have run := run.snoc (.job (@Work.claim 1 _ .send_commit 0 0 rfl rfl))
  have run := run.snoc (.job (@Work.commit 1 _ 0 0 rfl (by decide) (by decide)))
  have run := run.snoc (.job (@Work.reply 1 _ .send_commit 0 0 "positive\n".toList rfl))
  have run := run.snoc (.job (@Work.vote 1 _ .send_commit 0 0 "positive\n".toList rfl))
  have run := run.snoc (.coordinator (.wakes rfl))
  have run := run.snoc (.coordinator (.committed rfl rfl))
  -- the local write, the read-back and QUIT
  have run := run.snoc (.coordinator (@Coordinate.localWrite 1 .write _ 0 rfl
    ⟨some [], some [], some [], ⟨[], []⟩, rfl⟩))
  have run := run.snoc (.coordinator (@Coordinate.readBack 1 .write _ 3 rfl
    ⟨[], ['1'], ⟨"1/u/m\n".toList, []⟩, some "u/m".toList, ⟨"1/u/m\n".toList, []⟩, by decide⟩))
  have run := run.snoc (.coordinator (.resetPos rfl))
  have run := run.snoc (.coordinator (.resetNeg rfl))
  have run := run.snoc (.coordinator (.resetMark rfl (by decide)))
  have run := run.snoc (.coordinator (.resetDone rfl))
  have run := run.snoc (.coordinator (.addJob rfl (by decide)))
  have run := run.snoc (.coordinator (.added rfl))
  exact ⟨_, _, run, rfl, sync_write_commits onePeer_init run rfl⟩

/-! No lost wake-up. -/

/-- The coordinator is blocked, all votes of its round are counted, and no wake-up is pending. -/
def Stuck (N : Nat) (s : Sync) : Prop :=
  ∃ r, s.pc = .wait r false ∧ (s.jobs r.fn).countP Job.isVoted = N

/-- The coordinator comes to the wait before the last vote of the round is counted. -/
def InTime (N : Nat) (s : Sync) (a : Actor) : Prop :=
  a = .coordinator → ∀ r, s.pc = .lock r → s.pos_count + s.neg_count < N

theorem countP_isVoted (jobs : List Job) :
    jobs.countP Job.isVoted = jobs.countP Job.isPositive + jobs.countP Job.isNegative := by
  induction jobs with
  | nil => rfl
  | cons job jobs ih =>
    simp only [List.countP_cons, ih]
    cases job with
    | voted i buff =>
      by_cases hp : Job.positive buff
      · simp [Job.isVoted, Job.isPositive, Job.isNegative, hp]; omega
      · simp [Job.isVoted, Job.isPositive, Job.isNegative, hp]; omega
    | _ => simp [Job.isVoted, Job.isPositive, Job.isNegative]

theorem Counted.voted {N : Nat} {s : Sync} {fn : SendFn} (h : Counted N s fn) :
    (s.jobs fn).countP Job.isVoted = s.pos_count + s.neg_count := by
  rw [countP_isVoted, h.pos, h.neg]

theorem Voting.votes_le {N : Nat} {s : Sync} {r : Round} (h : Voting N s r N) :
    s.pos_count + s.neg_count ≤ N := by
  rw [← h.counted.voted]
  exact le_of_le_of_eq List.countP_le_length h.length

/-- A coordinator that is blocked without a wake-up still misses a vote. -/
def Awaits (N : Nat) (s : Sync) : Prop := ∀ r, s.pc = .wait r false → s.pos_count + s.neg_count < N

/-- The coordinator comes to a wait from the lock only, and without a wake-up. -/
theorem Coordinate.to_wait {N : Nat} {kind : SyncKind} {s s' : Sync} {r : Round} {woken : Bool}
    (h : Coordinate N kind s s') (hpc : s'.pc = .wait r woken) :
    s.pc = .lock r ∧ woken = false ∧ s'.pos_count = s.pos_count ∧ s'.neg_count = s.neg_count := by
  cases h with
  | @blocks r' hlock _ =>
    obtain ⟨rfl, rfl⟩ := Pc.wait.inj hpc
    exact ⟨hlock, rfl, rfl, rfl⟩
  | @added r' _ => cases r' <;> cases hpc
  | @negative r' _ _ => cases kind <;> cases r' <;> cases hpc
  | @localWrite ret _ _ =>
    dsimp only at hpc
    split at hpc <;> cases hpc
  | @readBack ret _ _ =>
    dsimp only at hpc
    split at hpc <;> cases hpc
  | _ => cases hpc

theorem step_awaits {N : Nat} {kind : SyncKind} {s s' : Sync} {a : Actor} (h : Inv N kind s)
    (ha : Awaits N s) (hok : InTime N s a) (hstep : Step N kind s a s') : Awaits N s' := by
  intro r hpc
  have h' := step_inv h hstep
  rw [Inv, hpc] at h'
  cases hstep with
  | coordinator hc =>
    obtain ⟨hlock, -, hpos, hneg⟩ := hc.to_wait hpc
    rw [hpos, hneg]
    exact hok rfl r hlock
  | job hw =>
    have hm := hw.moves
    have hpc₀ : s.pc = .wait r false := by
      rcases hm.same.pc with he | ⟨r', w, -, he⟩
      · rw [← he, hpc]
      · rw [hpc] at he; cases he
    have hlt := ha r hpc₀
    have hne : s'.pos_count + s'.neg_count ≠ N := fun hsum => hm.woken hlt hsum r hpc
    exact lt_of_le_of_ne (Voting.votes_le h') hne

/-- With at least one peer the coordinator always comes to block. -/
theorem Coordinate.blocks_of_lock {N : Nat} {kind : SyncKind} {s s' : Sync} {r : Round} (hN : 1 ≤ N)
    (h : Coordinate N kind s s') (hpc : s.pc = .lock r) : s' = { s with pc := .wait r false } := by
  have hwait : s.mustWait N = true := by
    simp only [mustWait, Bool.or_eq_true, decide_eq_true_eq]
    omega
  cases h with
  | @blocks r' hlock _ =>
    obtain rfl : r = r' := Pc.lock.inj (hpc.symm.trans hlock)
    rfl
  | passes _ hpass => rw [hwait] at hpass; cases hpass
  | addJob h' _ | addFails h' _ | added h' | wakes h' | precommitted h' _ | committed h' _
  | negative h' _ | resetPos h' | resetNeg h' | resetMark h' _ | resetDone h' | localWrite h' _
  | readBack h' _ => rw [hpc] at h'; cases h'

/-- **No lost wake-up, exactly when the coordinator is in time**: in a run with at least one peer no
    state is stuck if and only if the coordinator comes to each wait before the last vote of the
    round is counted. -/
theorem no_lost_wakeup_iff {N : Nat} {kind : SyncKind} {s₀ s : Sync} {tr : List (Sync × Actor)}
    (hN : 1 ≤ N) (h₀ : Init N s₀) (hrun : Runs.Run (Step N kind) s₀ tr s) :
    ((∀ p ∈ tr, ¬ Stuck N p.1) ∧ ¬ Stuck N s) ↔ Runs.Guarded (InTime N) tr := by
  have hinv : ∀ u, (∃ tr', Runs.Run (Step N kind) s₀ tr' u) → Inv N kind u := by
    rintro u ⟨tr', hr⟩
    exact run_inv h₀ hr
  constructor
  · rintro ⟨hmem, hlast⟩ ⟨u, a⟩ hp hact r hlock
    obtain rfl : a = .coordinator := hact
    by_contra hlt
    change ¬ u.pos_count + u.neg_count < N at hlt
    obtain ⟨u', hstep, hnext⟩ := hrun.mem_step _ hp
    obtain ⟨tr', hr, -⟩ := hrun.mem _ hp
    have hu := hinv u ⟨_, hr⟩
    rw [Inv, hlock] at hu
    -- all votes are in when the coordinator blocks
    have hstuck : Stuck N u' := by
      cases hstep with
      | coordinator hc =>
        rw [hc.blocks_of_lock hN hlock]
        refine ⟨r, rfl, ?_⟩
        have := hu.votes_le
        rw [hu.counted.voted]
        omega
    rcases hnext with rfl | ⟨q, hq, rfl⟩
    · exact hlast hstuck
    · exact hmem q hq hstuck
  · intro hok
    have hawaits : Awaits N s₀ := by
      intro r hpc
      rw [h₀.pc] at hpc
      cases hpc
    let P : Sync → Prop := fun u => Inv N kind u ∧ Awaits N u
    have hstep : ∀ u a u', P u → InTime N u a → Step N kind u a u' → P u' :=
      fun u a u' h hok hs => ⟨step_inv h.1 hs, step_awaits h.1 h.2 hok hs⟩
    have hnot : ∀ u, P u → ¬ Stuck N u := by
      rintro u ⟨hu, hw⟩ ⟨r, hpc, hvoted⟩
      have hlt := hw r hpc
      rw [Inv, hpc] at hu
      rw [hu.counted.voted] at hvoted
      omega
    have hP : P s₀ := ⟨h₀.inv, hawaits⟩
    exact ⟨fun p hp => hnot _ (hrun.inv_mem hP hstep hok p hp), hnot _ (hrun.inv hP hstep hok)⟩

/-- A coordinator that blocks before its only peer votes. -/
theorem onePeer_in_time : ∃ tr s, Runs.Run (Step 1 .write) onePeer tr s ∧ s.pc = .wait .precommit false ∧
    (∀ p ∈ tr, ¬ Stuck 1 p.1) ∧ ¬ Stuck 1 s := by
  have run := (Runs.Run.nil : Runs.Run (Step 1 .write) onePeer [] onePeer)
  have run := run.snoc (.coordinator (.addJob rfl (by decide)))
  have run := run.snoc (.coordinator (.added rfl))
  have run := run.snoc (.coordinator (.blocks rfl rfl))
  refine ⟨_, _, run, rfl, (no_lost_wakeup_iff (le_refl 1) onePeer_init run).2 ?_⟩
  intro p hp
  simp only [List.nil_append, List.cons_append, List.mem_cons, List.not_mem_nil, or_false] at hp
  rcases hp with rfl | rfl | rfl
  · rintro - r ⟨⟩
  · rintro - r ⟨⟩
  · rintro - r -
    exact Nat.one_pos

/-- The only peer's vote is counted before the coordinator comes to the wait. -/
theorem onePeer_stuck : ∃ tr s, Runs.Run (Step 1 .write) onePeer tr s ∧ Stuck 1 s := by
  have run := (Runs.Run.nil : Runs.Run (Step 1 .write) onePeer [] onePeer)
  have run := run.snoc (.coordinator (.addJob rfl (by decide)))
  have run := run.snoc (.job (@Work.claim 1 _ .send_precommit 0 0 rfl rfl))
  have run := run.snoc (.job (@Work.connect 1 _ 0 0 5 rfl (by decide)))
  have run := run.snoc (.job (@Work.reply 1 _ .send_precommit 0 0 "positive\n".toList rfl))
  have run := run.snoc (.job (@Work.vote 1 _ .send_precommit 0 0 "positive\n".toList rfl))
  have run := run.snoc (.coordinator (.added rfl))
  have run := run.snoc (.coordinator (.blocks rfl rfl))
  exact ⟨_, _, run, .precommit, rfl, rfl⟩

end Sync

end BulletinBoard
