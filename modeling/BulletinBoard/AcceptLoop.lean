import BulletinBoard.CString
import BulletinBoard.Lib.Pool
import BulletinBoard.Lib.Run

/- bbserv.cc and peer_operations.cc: the two accept loops and the jobs they queue. A job is
   given a pointer to a `client_t` and copies its two fields when a worker gets to it. The loop
   of `bb_server` queues a copy of its own `client_t`; `peer_receiver_control` queues the one it
   goes on to write. Memory is always there. What is proved: each job serves the connection it
   was queued for, when the loop writes no `client_t` that a queued job has yet to copy and
   queues nothing for a team that it has terminated. -/
namespace BulletinBoard

/-- `ip_to_dotted`; the bytes of the address are read as signed characters. -/
def ip_to_dotted (ip : Nat) : CStr :=
  ['.'].intercalate ((List.range 4).map fun i => showInt (Int.bmod (ip / 256 ^ i : Nat) 256))

/-- `client_t`. -/
structure ClientT where
  sd : Int
  ip : CStr
  deriving DecidableEq, Repr

/-- What a successful `accept` returns. -/
structure Connection where
  ssock : Int
  s_addr : Nat
  deriving DecidableEq, Repr

/-- The socket and the address of a connection, as a session has them. -/
def Connection.client (c : Connection) : ClientT := ⟨c.ssock, ip_to_dotted c.s_addr⟩

namespace Accepting

inductive Loop where
  | bb_server
  | peer_receiver_control
  deriving DecidableEq, Repr

/-- What a job has copied of its `client_t`; `lost` is a job of a team that was terminated
    before it ran. -/
inductive Stage where
  | queued
  | copiedSd (sd : Int)
  | serves (client : ClientT)
  | lost
  deriving DecidableEq, Repr

/-- A queued job, with the connection it was queued for. -/
structure Job where
  args : Nat
  connection : Connection
  stage : Stage
  deriving DecidableEq, Repr

/-- The job has not copied all of its `client_t`. -/
def Job.waiting (job : Job) : Bool :=
  match job.stage with
  | .queued | .copiedSd _ => true
  | _ => false

/-- What the job has copied is of its own connection. -/
def Job.Right (job : Job) : Prop :=
  match job.stage with
  | .queued => True
  | .copiedSd sd => sd = job.connection.ssock
  | .serves client => client = job.connection.client
  | .lost => False

/-- Where the loop stands. -/
inductive Pc where
  | accept
  | storeSd (ssock : Int)
  | storeIp (ssock : Int)
  | test (ssock : Int)
  | add (args : Nat)
  | returned
  deriving DecidableEq, Repr

/-- The `client_t`s that were allocated, the one of the loop first; the loop's `client_addr` and
    where it stands; whether it has terminated its team; the connections accepted and the jobs
    queued. -/
structure State where
  heap : List ClientT
  client_addr : Nat
  pc : Pc
  terminated : Bool
  accepted : List Connection
  jobs : List Job
  deriving DecidableEq, Repr

/-- Before the first `accept`, whatever the new `client_t` and `client_addr` hold. -/
def init (clnt : ClientT) (client_addr : Nat) : State := ⟨[clnt], client_addr, .accept, false, [], []⟩

/-- The loop's own `client_t`. -/
def clnt : Nat := 0

/-- `terminate_team`: what is still in the queue is thrown away. -/
def Job.terminate (job : Job) : Job :=
  if job.stage = .queued then { job with stage := .lost } else job

/-- A failed `accept`. -/
def State.acceptFailed (loop : Loop) (s : State) : State :=
  match loop with
  | .bb_server => s
  | .peer_receiver_control => { s with terminated := true, jobs := s.jobs.map Job.terminate }

/-- A step of the loop. -/
inductive Accept (loop : Loop) (s : State) : State → Prop where
  | accepts {c : Connection} : s.pc = .accept → 0 ≤ c.ssock → Accept loop s
      { s with client_addr := c.s_addr, accepted := s.accepted ++ [c], pc := .storeSd c.ssock }
  | acceptFails {ssock : Int} : s.pc = .accept → ssock < 0 → Accept loop s { s with pc := .storeSd ssock }
  | stops : s.pc = .accept → Accept loop s { s with pc := .returned }
  | storeSd {ssock : Int} : s.pc = .storeSd ssock → Accept loop s
      { s with heap := s.heap.modify clnt fun c => { c with sd := ssock }, pc := .storeIp ssock }
  | storeIp {ssock : Int} : s.pc = .storeIp ssock → Accept loop s
      { s with
        heap := s.heap.modify clnt fun c => { c with ip := ip_to_dotted s.client_addr }
        pc := .test ssock }
  -- errno is EINTR, or anything else
  | interrupted {ssock : Int} : s.pc = .test ssock → ssock < 0 → Accept loop s
      { s.acceptFailed loop with pc := .accept }
  | failed {ssock : Int} : s.pc = .test ssock → ssock < 0 → Accept loop s
      { s.acceptFailed loop with pc := .returned }
  -- `pass_to_team` makes a copy
  | copies {ssock : Int} : s.pc = .test ssock → 0 ≤ ssock → loop = .bb_server → Accept loop s
      { s with heap := s.heap ++ s.heap[clnt]?.toList, pc := .add s.heap.length }
  | shares {ssock : Int} : s.pc = .test ssock → 0 ≤ ssock → loop = .peer_receiver_control →
      Accept loop s { s with pc := .add clnt }
  | adds {args : Nat} {c : Connection} : s.pc = .add args → s.accepted.getLast? = some c → Accept loop s
      { s with
        jobs := s.jobs ++ [⟨args, c, if s.terminated then .lost else .queued⟩]
        pc := .accept }

/-- A step of the worker that has job `j`. -/
inductive Serve (s : State) (j : Nat) : State → Prop where
  | copySd {job : Job} {c : ClientT} : s.jobs[j]? = some job → job.stage = .queued →
      s.heap[job.args]? = some c →
      Serve s j { s with jobs := s.jobs.set j { job with stage := .copiedSd c.sd } }
  | copyIp {job : Job} {c : ClientT} {sd : Int} : s.jobs[j]? = some job → job.stage = .copiedSd sd →
      s.heap[job.args]? = some c →
      Serve s j { s with jobs := s.jobs.set j { job with stage := .serves ⟨sd, c.ip⟩ } }

inductive Act where
  | loop
  | job (j : Nat)
  deriving DecidableEq, Repr

inductive Step (loop : Loop) (s : State) : Act → State → Prop where
  | loop {s' : State} : Accept loop s s' → Step loop s .loop s'
  | job {j : Nat} {s' : State} : Serve s j s' → Step loop s (.job j) s'

/-- Every job serves the connection it was queued for, and the connections accepted are those of the
    jobs, in order, up to one that the loop has yet to queue. -/
def ServedOnce (s : State) : Prop :=
  (∀ job ∈ s.jobs, job.Right) ∧
    ∃ rest, s.accepted = s.jobs.map Job.connection ++ rest ∧ rest.length ≤ 1 ∧ (s.pc = .accept → rest = [])

/-- A loop that shares its `client_t` writes it only when every job has copied it, and queues a job
    only for a team that it has not terminated. -/
def Quiet (loop : Loop) (s : State) : Act → Prop
  | .job _ => True
  | .loop => loop = .bb_server ∨
    match s.pc with
    | .storeSd _ | .storeIp _ => ∀ job ∈ s.jobs, job.waiting = false
    | .add _ => s.terminated = false
    | _ => True

/-! The invariant. -/

/-- The connection that the loop has accepted and not queued: none, or `c`. -/
def Pending (s : State) (ssock : Int) : Option Connection → Prop
  | none => ssock < 0 ∧ s.accepted = s.jobs.map Job.connection
  | some c => 0 ≤ ssock ∧ s.accepted = s.jobs.map Job.connection ++ [c] ∧ c.ssock = ssock ∧
      s.client_addr = c.s_addr

/-- What holds where the loop stands. -/
def At (loop : Loop) (s : State) : Prop :=
  match s.pc with
  | .accept | .returned => s.accepted = s.jobs.map Job.connection
  | .storeSd ssock => ∃ c, Pending s ssock c
  | .storeIp ssock => ∃ c, Pending s ssock c ∧ ∃ cl, s.heap[clnt]? = some cl ∧ cl.sd = ssock
  | .test ssock => (∃ c, Pending s ssock c ∧ ∀ c' ∈ c, s.heap[clnt]? = some c'.client) ∧
      (loop = .bb_server ∨ ∀ job ∈ s.jobs, job.waiting = false)
  | .add args => ∃ c, s.accepted = s.jobs.map Job.connection ++ [c] ∧ s.heap[args]? = some c.client ∧
      (loop = .bb_server → args ≠ clnt)

structure Inv (loop : Loop) (s : State) : Prop where
  at_pc : At loop s
  right : ∀ job ∈ s.jobs, job.Right
  waits : ∀ job ∈ s.jobs, job.waiting = true → s.heap[job.args]? = some job.connection.client
  owns : loop = .bb_server → ∀ job ∈ s.jobs, job.args ≠ clnt
  keeps : loop = .bb_server → s.terminated = false
  heap : 0 < s.heap.length

/-- Nobody looks at the `client_t` that the loop writes. -/
theorem Inv.waits_modify {loop : Loop} {s : State} (h : Inv loop s)
    (hok : loop = .bb_server ∨ ∀ job ∈ s.jobs, job.waiting = false) (f : ClientT → ClientT) :
    ∀ job ∈ s.jobs, job.waiting = true → (s.heap.modify clnt f)[job.args]? = some job.connection.client := by
  intro job hjob hw
  rcases hok with hbb | hnone
  · rw [List.getElem?_modify_ne _ _ (h.owns hbb job hjob).symm]
    exact h.waits job hjob hw
  · rw [hnone job hjob] at hw
    cases hw

theorem Inv.getElem?_clnt {loop : Loop} {s : State} (h : Inv loop s) : ∃ cl, s.heap[clnt]? = some cl :=
  ⟨_, List.getElem?_eq_getElem h.heap⟩

/-- A failed `accept` in a loop whose jobs have all run loses no job. -/
theorem acceptFailed_jobs {loop : Loop} {s : State}
    (hok : loop = .bb_server ∨ ∀ job ∈ s.jobs, job.waiting = false) :
    (s.acceptFailed loop).jobs = s.jobs := by
  cases loop with
  | bb_server => rfl
  | peer_receiver_control =>
    have hnone := hok.resolve_left (by simp)
    show s.jobs.map Job.terminate = s.jobs
    conv_rhs => rw [← List.map_id s.jobs]
    refine List.map_congr_left fun job hjob => ?_
    have hw := hnone job hjob
    unfold Job.terminate
    split
    · next hq => simp [Job.waiting, hq] at hw
    · rfl

/-- After a failed `accept` that lost no job, wherever the loop goes on. -/
theorem Inv.afterFailure {loop : Loop} {s : State} {ssock : Int} {pc : Pc} (h : Inv loop s)
    (hpc : s.pc = .test ssock) (hneg : ssock < 0) (hdone : pc = .accept ∨ pc = .returned) :
    Inv loop { s.acceptFailed loop with pc := pc } := by
  have hat := h.at_pc
  rw [At, hpc] at hat
  obtain ⟨⟨c, hc, -⟩, hok⟩ := hat
  have hjobs := acceptFailed_jobs hok
  have hheap : (s.acceptFailed loop).heap = s.heap := by cases loop <;> rfl
  have haccepted : (s.acceptFailed loop).accepted = s.accepted := by cases loop <;> rfl
  have hall : s.accepted = s.jobs.map Job.connection := by
    cases c with
    | none => exact hc.2
    | some c => exact absurd hneg (not_lt.2 hc.1)
  refine ⟨?_, ?_, ?_, ?_, ?_, ?_⟩
  · rcases hdone with rfl | rfl <;> exact haccepted.trans (hall.trans (by rw [hjobs]))
  · exact hjobs ▸ h.right
  · show ∀ job ∈ (s.acceptFailed loop).jobs, job.waiting = true → (s.acceptFailed loop).heap[job.args]? = _
    rw [hjobs, hheap]
    exact h.waits
  · exact hjobs ▸ h.owns
  · rintro rfl
    exact h.keeps rfl
  · exact hheap ▸ h.heap

/-- A step of a worker that leaves its job right keeps the invariant. -/
theorem Inv.setJob {loop : Loop} {s : State} (h : Inv loop s) {j : Nat} {job : Job} {stage : Stage}
    (hj : s.jobs[j]? = some job) (hright : ({ job with stage := stage } : Job).Right)
    (hwait : ({ job with stage := stage } : Job).waiting = true → job.waiting = true) :
    Inv loop { s with jobs := s.jobs.set j { job with stage := stage } } := by
  have hmem := List.mem_of_getElem? hj
  have hmap : (s.jobs.set j { job with stage := stage }).map Job.connection = s.jobs.map Job.connection :=
    Pool.map_set_same hj rfl
  have hnone : (loop = .bb_server ∨ ∀ job ∈ s.jobs, job.waiting = false) →
      loop = .bb_server ∨ ∀ u ∈ s.jobs.set j { job with stage := stage }, u.waiting = false := by
    refine Or.imp_right fun hn => Pool.forall_mem_set hn ?_
    by_contra hw
    rw [hn job hmem] at hwait
    exact absurd (hwait (by simpa using hw)) (by simp)
  refine ⟨?_, Pool.forall_mem_set h.right hright, ?_, ?_, h.keeps, h.heap⟩
  · have hat := h.at_pc
    unfold At Pending at hat ⊢
    simp only [hmap]
    cases hpc : s.pc <;> rw [hpc] at hat <;> first | exact hat | exact ⟨hat.1, hnone hat.2⟩
  · exact Pool.forall_mem_set h.waits fun hw => h.waits job hmem (hwait hw)
  · exact fun hbb => Pool.forall_mem_set (h.owns hbb) (h.owns hbb job hmem)

/-- The job that the loop queues is for the connection that it accepted last. -/
theorem Inv.adds {loop : Loop} {s : State} (h : Inv loop s) {args : Nat} {c : Connection}
    (hpc : s.pc = .add args) (hlast : s.accepted.getLast? = some c) (hterminated : s.terminated = false) :
    Inv loop { s with
      jobs := s.jobs ++ [⟨args, c, if s.terminated then .lost else .queued⟩]
      pc := .accept } := by
  have hat := h.at_pc
  rw [At, hpc] at hat
  obtain ⟨c', haccepted, hheap, howns⟩ := hat
  obtain rfl : c' = c := by
    rw [haccepted] at hlast
    simpa using hlast
  rw [hterminated]
  refine ⟨?_, ?_, ?_, ?_, fun _ => rfl, h.heap⟩
  · show s.accepted = (s.jobs ++ [_]).map Job.connection
    rw [haccepted, List.map_append]
    rfl
  · intro job hjob
    rcases List.mem_append.1 hjob with hjob | hjob
    · exact h.right job hjob
    · obtain rfl := List.mem_singleton.1 hjob
      trivial
  · intro job hjob hw
    rcases List.mem_append.1 hjob with hjob | hjob
    · exact h.waits job hjob hw
    · obtain rfl := List.mem_singleton.1 hjob
      exact hheap
  · intro hbb job hjob
    rcases List.mem_append.1 hjob with hjob | hjob
    · exact h.owns hbb job hjob
    · obtain rfl := List.mem_singleton.1 hjob
      exact howns hbb

/-- **The step lemma.** -/
theorem Inv.step {loop : Loop} {s s' : State} {act : Act} (h : Inv loop s) (hok : Quiet loop s act)
    (hs : Step loop s act s') : Inv loop s' := by
  have hat := h.at_pc
  unfold At at hat
  cases hs with
  | job hserve =>
    cases hserve with
    | @copySd job c hj hstage hc =>
      have hw : job.waiting = true := by simp [Job.waiting, hstage]
      have hclient := h.waits job (List.mem_of_getElem? hj) hw
      rw [hc] at hclient
      refine h.setJob hj ?_ fun _ => hw
      show c.sd = job.connection.ssock
      rw [Option.some.inj hclient]
      rfl
    | @copyIp job c sd hj hstage hc =>
      have hw : job.waiting = true := by simp [Job.waiting, hstage]
      have hclient := h.waits job (List.mem_of_getElem? hj) hw
      rw [hc] at hclient
      have hsd : sd = job.connection.ssock := by
        have := h.right job (List.mem_of_getElem? hj)
        rwa [Job.Right, hstage] at this
      refine h.setJob hj ?_ fun _ => hw
      show (⟨sd, c.ip⟩ : ClientT) = job.connection.client
      rw [hsd, Option.some.inj hclient, Connection.client]
  | loop haccept =>
    cases haccept with
    | @accepts c hpc hnonneg =>
      rw [hpc] at hat
      refine ⟨⟨some c, hnonneg, ?_, rfl, rfl⟩, h.right, h.waits, h.owns, h.keeps, h.heap⟩
      show s.accepted ++ [c] = _
      rw [hat]
    | acceptFails hpc hneg =>
      rw [hpc] at hat
      exact ⟨⟨none, hneg, hat⟩, h.right, h.waits, h.owns, h.keeps, h.heap⟩
    | stops hpc =>
      rw [hpc] at hat
      exact ⟨hat, h.right, h.waits, h.owns, h.keeps, h.heap⟩
    | @storeSd ssock hpc =>
      rw [hpc] at hat
      simp only [Quiet, hpc] at hok
      obtain ⟨cl, hcl⟩ := h.getElem?_clnt
      refine ⟨?_, h.right, h.waits_modify hok _, h.owns, h.keeps, by simpa using h.heap⟩
      obtain ⟨c, hc⟩ := hat
      refine ⟨c, by cases c <;> exact hc, { cl with sd := ssock }, ?_, rfl⟩
      show (s.heap.modify clnt _)[clnt]? = _
      rw [List.getElem?_modify_eq, hcl]
      rfl
    | @storeIp ssock hpc =>
      rw [hpc] at hat
      simp only [Quiet, hpc] at hok
      obtain ⟨c, hc, cl, hcl, hsd⟩ := hat
      refine ⟨⟨⟨c, by cases c <;> exact hc, ?_⟩, hok⟩, h.right, h.waits_modify hok _, h.owns, h.keeps,
        by simpa using h.heap⟩
      intro c' hc'
      obtain rfl : c = some c' := hc'
      obtain ⟨-, -, hsock, haddr⟩ := hc
      show (s.heap.modify clnt _)[clnt]? = _
      rw [List.getElem?_modify_eq, hcl, haddr]
      show some ({ cl with ip := ip_to_dotted c'.s_addr } : ClientT) = some ⟨c'.ssock, ip_to_dotted c'.s_addr⟩
      rw [hsock, ← hsd]
    | interrupted hpc hneg => exact h.afterFailure hpc hneg (Or.inl rfl)
    | failed hpc hneg => exact h.afterFailure hpc hneg (Or.inr rfl)
    | @copies ssock hpc hnonneg hbb =>
      rw [hpc] at hat
      obtain ⟨⟨c, hc, hclient⟩, -⟩ := hat
      cases c with
      | none => exact absurd hc.1 (not_lt.2 hnonneg)
      | some c =>
        have hget : s.heap[clnt]?.toList = [c.client] := by rw [hclient c rfl]; rfl
        refine ⟨⟨c, hc.2.1, ?_, fun _ => (Nat.pos_iff_ne_zero.1 h.heap)⟩, h.right, ?_, h.owns, h.keeps, ?_⟩
        · show (s.heap ++ s.heap[clnt]?.toList)[s.heap.length]? = some c.client
          rw [hget]
          simp
        · intro job hjob hw
          have hold := h.waits job hjob hw
          show (s.heap ++ s.heap[clnt]?.toList)[job.args]? = _
          rw [List.getElem?_append_left (List.getElem?_eq_some_iff.1 hold).1]
          exact hold
        · show 0 < (s.heap ++ s.heap[clnt]?.toList).length
          rw [List.length_append]
          exact Nat.add_pos_left h.heap _
    | @shares ssock hpc hnonneg hpeer =>
      rw [hpc] at hat
      obtain ⟨⟨c, hc, hclient⟩, -⟩ := hat
      cases c with
      | none => exact absurd hc.1 (not_lt.2 hnonneg)
      | some c =>
        exact ⟨⟨c, hc.2.1, hclient c rfl, fun hbb => by rw [hpeer] at hbb; cases hbb⟩, h.right, h.waits,
          h.owns, h.keeps, h.heap⟩
    | adds hpc hlast =>
      simp only [Quiet, hpc] at hok
      refine h.adds hpc hlast ?_
      rcases hok with hbb | hok
      · exact h.keeps hbb
      · exact hok

theorem Inv.run {loop : Loop} {cl : ClientT} {addr : Nat} {s : State} {tr : List (State × Act)}
    (hrun : Runs.Run (Step loop) (init cl addr) tr s) (hok : Runs.Guarded (Quiet loop) tr) : Inv loop s := by
  have hinit : Inv loop (init cl addr) :=
    ⟨rfl, fun job hjob => (by cases hjob), fun job hjob => (by cases hjob), fun _ job hjob => (by cases hjob),
      fun _ => rfl, Nat.one_pos⟩
  exact hrun.inv hinit (fun _ _ _ h hok hs => h.step hok hs) hok

/-- **Every accepted connection is served once.** -/
theorem served_once {loop : Loop} {cl : ClientT} {addr : Nat} {s : State} {tr : List (State × Act)}
    (hrun : Runs.Run (Step loop) (init cl addr) tr s) (hok : Runs.Guarded (Quiet loop) tr) :
    ServedOnce s := by
  have h := Inv.run hrun hok
  refine ⟨h.right, ?_⟩
  have hat := h.at_pc
  unfold At at hat
  have hpending : ∀ {ssock : Int}, (∃ c, Pending s ssock c) →
      ∃ rest : List Connection, s.accepted = s.jobs.map Job.connection ++ rest ∧ rest.length ≤ 1 := by
    rintro ssock ⟨c, hc⟩
    cases c with
    | none => exact ⟨[], by simpa using hc.2, by simp⟩
    | some c => exact ⟨[c], hc.2.1, by simp⟩
  cases hpc : s.pc with
  | accept => rw [hpc] at hat; exact ⟨[], by simpa using hat, by simp, fun _ => rfl⟩
  | returned => rw [hpc] at hat; exact ⟨[], by simpa using hat, by simp, fun _ => rfl⟩
  | storeSd ssock =>
    rw [hpc] at hat
    obtain ⟨rest, hrest, hlen⟩ := hpending hat
    exact ⟨rest, hrest, hlen, fun he => by cases he⟩
  | storeIp ssock =>
    rw [hpc] at hat
    obtain ⟨c, hc, -⟩ := hat
    obtain ⟨rest, hrest, hlen⟩ := hpending ⟨c, hc⟩
    exact ⟨rest, hrest, hlen, fun he => by cases he⟩
  | test ssock =>
    rw [hpc] at hat
    obtain ⟨⟨c, hc, -⟩, -⟩ := hat
    obtain ⟨rest, hrest, hlen⟩ := hpending ⟨c, hc⟩
    exact ⟨rest, hrest, hlen, fun he => by cases he⟩
  | add args =>
    rw [hpc] at hat
    obtain ⟨c, hc, -⟩ := hat
    exact ⟨[c], hc, by simp, fun he => by cases he⟩

/-- One round of the loop that shares its `client_t`; it is quiet when every job has copied it. -/
theorem run_shares {cl₀ cl : ClientT} {addr₀ addr : Nat} {accepted : List Connection} {jobs : List Job}
    {tr : List (State × Act)} {c : Connection} (hc : 0 ≤ c.ssock)
    (hrun : Runs.Run (Step .peer_receiver_control) (init cl₀ addr₀) tr
      ⟨[cl], addr, .accept, false, accepted, jobs⟩) :
    ∃ tr', Runs.Run (Step .peer_receiver_control) (init cl₀ addr₀) tr'
      ⟨[c.client], c.s_addr, .accept, false, accepted ++ [c], jobs ++ [⟨clnt, c, .queued⟩]⟩ ∧
      (Runs.Guarded (Quiet .peer_receiver_control) tr → (∀ job ∈ jobs, job.waiting = false) →
        Runs.Guarded (Quiet .peer_receiver_control) tr') := by
  have h₁ := hrun.snoc (.loop (.accepts rfl hc))
  have h₂ := h₁.snoc (.loop (.storeSd rfl))
  have h₃ := h₂.snoc (.loop (.storeIp rfl))
  have h₄ := h₃.snoc (.loop (.shares rfl hc rfl))
  have h₅ := h₄.snoc (.loop (.adds (c := c) rfl (by simp)))
  refine ⟨_, h₅, fun hok hnone => ?_⟩
  -- the `client_t` is written in the second and in the third step
  exact .snoc (.snoc (.snoc (.snoc (.snoc hok (Or.inr trivial)) (Or.inr hnone)) (Or.inr hnone)) (Or.inr trivial)) (Or.inr rfl)

/-- Two connections are accepted before the job of the first has run: it serves the second. -/
theorem serves_another :
    ¬∀ (loop : Loop) (cl : ClientT) (addr : Nat) (s : State) (tr : List (State × Act)),
      Runs.Run (Step loop) (init cl addr) tr s → ServedOnce s := by
  intro hall
  obtain ⟨_, h₁, -⟩ := run_shares (c := ⟨4, 1⟩) (by decide)
    (.nil : Runs.Run (Step .peer_receiver_control) (init ⟨0, []⟩ 0) [] (init ⟨0, []⟩ 0))
  obtain ⟨_, h₂, -⟩ := run_shares (c := ⟨5, 2⟩) (by decide) h₁
  have h₃ := h₂.snoc (.job (.copySd (j := 0) rfl rfl rfl))
  have hright : (5 : Int) = 4 := (hall _ _ _ _ _ h₃).1 ⟨clnt, ⟨4, 1⟩, .copiedSd 5⟩ (.head _)
  exact absurd hright (by decide)

/-- Two connections from peers: the second is accepted when the job of the first has copied the
    `client_t` that they share. -/
theorem served_once_copied : ServedOnce
    ⟨[Connection.client ⟨5, 2⟩], 2, .accept, false, [⟨4, 1⟩, ⟨5, 2⟩],
      [⟨clnt, ⟨4, 1⟩, .serves (Connection.client ⟨4, 1⟩)⟩, ⟨clnt, ⟨5, 2⟩, .serves (Connection.client ⟨5, 2⟩)⟩]⟩ := by
  have hnil : Runs.Guarded (Quiet .peer_receiver_control) [] := fun p hp => (by cases hp)
  obtain ⟨_, h₁, hok₁⟩ := run_shares (c := ⟨4, 1⟩) (by decide)
    (.nil : Runs.Run (Step .peer_receiver_control) (init ⟨0, []⟩ 0) [] (init ⟨0, []⟩ 0))
  have hok₁ := hok₁ hnil fun job hjob => (by cases hjob)
  have h₂ := h₁.snoc (.job (.copySd (j := 0) rfl rfl rfl))
  have h₃ := h₂.snoc (.job (.copyIp (j := 0) rfl rfl rfl))
  obtain ⟨_, h₄, hok₄⟩ := run_shares (c := ⟨5, 2⟩) (by decide) h₃
  have hok₄ := hok₄ (.snoc (.snoc hok₁ trivial) trivial) (by decide)
  have h₅ := h₄.snoc (.job (.copySd (j := 1) rfl rfl rfl))
  have h₆ := h₅.snoc (.job (.copyIp (j := 1) rfl rfl rfl))
  exact served_once h₆ (.snoc (.snoc hok₄ trivial) trivial)

end Accepting

end BulletinBoard
