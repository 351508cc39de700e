import BulletinBoard.Conformance

/- The votes of one phase. A job of `send_precommit` or `send_commit` that has claimed a peer
   counts a vote for it, unless the peer's host is unknown or the phase is neither a write nor
   a replace; it returns then and the sum of the votes stays short of the number of peers, for
   which the coordinator waits. A connection that is refused is another matter: its negative
   error code is used as a socket, gets no reply, and counts as a negative vote. -/
namespace BulletinBoard

/-- What a job has done so far for the peer it claimed. -/
def Job.Tells (silent : Nat → Prop) : Job → Prop
  | .queued | .claimed _ => True
  | .sent i | .replied i _ | .voted i _ => ¬ silent i
  | .returned m => ∃ i, m = some i ∧ silent i

namespace Sync

/-- A step of a phase, in which `connectbyport` answers `conn i` for peer `i`: the coordinator queues
    one more job or moves on, or a job does. -/
inductive PhaseStep (N : Nat) (fn : SendFn) (conn : Nat → Int) (s : Sync) : Actor → Sync → Prop where
  | queue {pc : Pc} : (s.jobs fn).length < N →
      PhaseStep N fn conn s .coordinator
        { s with jobs := Function.update s.jobs fn (s.jobs fn ++ [.queued]), pc := pc }
  | coordinator {pc : Pc} : PhaseStep N fn conn s .coordinator { s with pc := pc }
  | job {j : Nat} {s' : Sync} : Work N s fn j s' →
      (fn = .send_precommit → ∀ i, (s.jobs fn)[j]? = some (.claimed i) → (s'.peer_addr i).peer_port = conn i) →
      PhaseStep N fn conn s (.job fn j) s'

/-- The counters and marks are reset, and no job is queued. -/
structure PhaseStart (N : Nat) (fn : SendFn) (s : Sync) : Prop where
  phase : fn = .send_precommit ∨ fn = .send_commit
  pos_count : s.pos_count = 0
  neg_count : s.neg_count = 0
  marked : ∀ i, i < N → (s.peer_addr i).marked = false
  jobs : s.jobs fn = []

/-- All `N` jobs were queued and have returned. -/
structure PhaseEnd (N : Nat) (fn : SendFn) (s : Sync) : Prop where
  length : (s.jobs fn).length = N
  finished : ∀ job ∈ s.jobs fn, job.finished = true

/-- The job of peer `i` returns before it sends anything. -/
def Silent (conn : Nat → Int) (s : Sync) (fn : SendFn) (i : Nat) : Prop :=
  if fn = .send_precommit then conn i = err_host
  else (s.peer_addr i).peer_port = err_host ∨ s.writer = s.replacer

section
variable {N : Nat} {fn : SendFn} {conn : Nat → Int} {s s' s₀ : Sync} {a : Actor} {tr : List (Sync × Actor)}

/-- What a phase keeps of its start `s₀`. -/
structure Phase (N : Nat) (fn : SendFn) (conn : Nat → Int) (s₀ s : Sync) : Prop where
  counted : Counted N s fn
  length : (s.jobs fn).length ≤ N
  silent : ∀ i, Silent conn s fn i ↔ Silent conn s₀ fn i
  tells : ∀ job ∈ s.jobs fn, job.Tells (Silent conn s₀ fn)

/-- A job of a phase changes neither the connections nor what is committed. -/
theorem Work.silent {j : Nat} (h : Work N s fn j s') (hfn : fn = .send_precommit ∨ fn = .send_commit) (i : Nat) :
    Silent conn s' fn i ↔ Silent conn s fn i := by
  by_cases hpre : fn = .send_precommit
  · rw [Silent, Silent, if_pos hpre, if_pos hpre]
  · have hports : (s'.peer_addr i).peer_port = (s.peer_addr i).peer_port := by
      cases h with
      | @claim _ _ k _ _ => exact update_peer_port (a := { s.peer_addr k with marked := true }) rfl i
      | nonePeer _ _ => rfl
      | unknownHost _ => exact absurd rfl hpre
      | connect _ _ => exact absurd rfl hpre
      | commitFails _ _ => rfl
      | commit _ _ _ => rfl
      | closeFails _ _ _ => rfl
      | close _ _ _ _ => rfl
      | reply _ => rfl
      | vote _ => exact count_peer_port _ _ i
    rw [Silent, Silent, if_neg hpre, if_neg hpre, hports, h.writer.1, h.writer.2]

/-- What the step of a job makes of it. -/
theorem Work.tells {j : Nat} (h : Work N s fn j s') (hfn : fn = .send_precommit ∨ fn = .send_commit)
    (hconn : fn = .send_precommit → ∀ i, (s.jobs fn)[j]? = some (.claimed i) → (s'.peer_addr i).peer_port = conn i)
    (hp : Phase N fn conn s₀ s) : ∀ job ∈ s'.jobs fn, job.Tells (Silent conn s₀ fn) := by
  have hset : ∀ x : Job, x.Tells (Silent conn s₀ fn) → s'.jobs = Function.update s.jobs fn ((s.jobs fn).set j x) →
      ∀ job ∈ s'.jobs fn, job.Tells (Silent conn s₀ fn) := by
    intro x hx hjobs
    rw [hjobs, Function.update_self]
    exact Pool.forall_mem_set hp.tells hx
  have htells : ∀ y : Job, (s.jobs fn)[j]? = some y → y.Tells (Silent conn s₀ fn) :=
    fun y hj => hp.tells y (List.mem_of_getElem? hj)
  cases h with
  | claim _ _ => exact hset (.claimed _) trivial rfl
  | nonePeer hj hnone => exact absurd hnone (hp.counted.firstUnmarked_ne hp.length hj)
  | @unknownHost _ i hj =>
    have hport : err_host = conn i := by
      rw [← hconn rfl i hj]
      simp [setPeer]
    exact hset (.returned (some i)) ⟨i, rfl, by rw [Silent, if_pos rfl, hport]⟩ rfl
  | @connect _ i sd hj hsd =>
    have hport : sd = conn i := by
      rw [← hconn rfl i hj]
      simp [setPeer, send]
    exact hset (.sent i) (by rw [Job.Tells, Silent, if_pos rfl, ← hport]; exact hsd) rfl
  | @commitFails _ i _ hfails =>
    have hsilent : Silent conn s .send_commit i := by
      rw [Silent, if_neg (by decide)]
      exact hfails
    exact hset (.returned (some i)) ⟨i, rfl, (hp.silent i).1 hsilent⟩ rfl
  | @commit _ i _ hport hkind =>
    have hspeaks : ¬ Silent conn s .send_commit i := by
      rw [Silent, if_neg (by decide)]
      exact fun hs => hs.elim hport hkind
    exact hset (.sent i) (fun hs => hspeaks ((hp.silent i).2 hs)) rfl
  | closeFails hclose _ _ => rcases hfn with rfl | rfl <;> rcases hclose with hc | hc <;> cases hc
  | close hclose _ _ _ => rcases hfn with rfl | rfl <;> rcases hclose with hc | hc <;> cases hc
  | @reply _ _ i buff hj => exact hset (.replied i buff) (htells (.sent i) hj) rfl
  | @vote _ _ i buff hj => exact hset (.voted i buff) (htells (.replied i buff) hj) (count_counts N _ fn i buff).jobs

theorem PhaseStart.phase₀ (h : PhaseStart N fn s₀) : Phase N fn conn s₀ s₀ where
  counted := counted_of_nil h.jobs h.pos_count h.neg_count h.marked
  length := by
    rw [h.jobs]
    exact Nat.zero_le N
  silent := fun _ => Iff.rfl
  tells := by
    rw [h.jobs]
    exact fun _ hjob => absurd hjob List.not_mem_nil

/-- What one step keeps. -/
theorem Phase.step (hfn : fn = .send_precommit ∨ fn = .send_commit) (h : Phase N fn conn s₀ s)
    (hs : PhaseStep N fn conn s a s') : Phase N fn conn s₀ s' := by
  cases hs with
  | queue hlen =>
    have hself : Function.update s.jobs fn (s.jobs fn ++ [.queued]) fn = s.jobs fn ++ [.queued] :=
      Function.update_self ..
    refine ⟨h.counted.snoc hself rfl rfl rfl, ?_, h.silent, ?_⟩
    · show (Function.update s.jobs fn _ fn).length ≤ N
      rw [hself, List.length_append]
      exact hlen
    · show ∀ job ∈ Function.update s.jobs fn _ fn, _
      rw [hself]
      intro job hjob
      rcases List.mem_append.1 hjob with hjob | hjob
      · exact h.tells job hjob
      · obtain rfl := List.mem_singleton.1 hjob
        trivial
  | coordinator =>
    exact ⟨⟨h.counted.pos, h.counted.neg, h.counted.nodup, h.counted.lt, h.counted.marked⟩, h.length, h.silent, h.tells⟩
  | job hwork hconn =>
    exact ⟨hwork.moves.counted h.counted, (hwork.moves.length fn).trans_le h.length,
      fun i => (hwork.silent hfn i).trans (h.silent i), hwork.tells hfn hconn h⟩

/-- **One vote for each peer**: when all jobs of a phase have returned, the votes add up to the number
    of peers exactly when no job had to return before it sent anything. -/
theorem votes_iff (h₀ : PhaseStart N fn s₀) (hrun : Runs.Run (PhaseStep N fn conn) s₀ tr s)
    (hend : PhaseEnd N fn s) : s.pos_count + s.neg_count = N ↔ ∀ i, i < N → ¬ Silent conn s₀ fn i := by
  have hp : Phase N fn conn s₀ s := hrun.inv_of_step h₀.phase₀ fun s a s' h hs => h.step h₀.phase hs
  rw [← hp.counted.voted, ← hend.length, List.countP_eq_length]
  constructor
  · intro hvoted i hi hsilent
    have hperm : (s.marks fn).Perm (List.range N) := by
      apply hp.counted.marks_perm hend.length
      intro job hjob
      have := hvoted job hjob
      cases job <;> first | rfl | cases this
    rw [hend.length] at hi
    obtain ⟨job, hjob, hmark⟩ := List.mem_filterMap.1 (hperm.mem_iff.2 (List.mem_range.2 hi))
    have htells := hp.tells job hjob
    have := hvoted job hjob
    cases job with
    | voted k buff =>
      obtain rfl : k = i := Option.some.inj hmark
      exact htells hsilent
    | _ => cases this
  · intro hspeaks job hjob
    have htells := hp.tells job hjob
    have hmarks := hp.counted.lt
    have hfinished := hend.finished job hjob
    cases job with
    | voted k buff => rfl
    | returned m =>
      obtain ⟨i, rfl, hsilent⟩ := htells
      have hi : i < N := hmarks i (List.mem_filterMap.2 ⟨_, hjob, rfl⟩)
      exact absurd hsilent (hspeaks i (hend.length ▸ hi))
    | _ => cases hfinished

end

/-! A phase with one peer. -/

theorem onePeer_phase : PhaseStart 1 .send_precommit onePeer := ⟨Or.inl rfl, rfl, rfl, fun _ _ => rfl, rfl⟩

/-- The connection is refused: the vote is negative. -/
theorem votes_refused : ∃ tr s, Runs.Run (PhaseStep 1 .send_precommit fun _ => -3) onePeer tr s ∧
    PhaseEnd 1 .send_precommit s ∧ s.pos_count + s.neg_count = 1 := by
  have run := (Runs.Run.nil : Runs.Run (PhaseStep 1 .send_precommit fun _ => -3) onePeer [] onePeer)
  have run := run.snoc (@PhaseStep.queue 1 .send_precommit _ _ (.lock .precommit) (by decide))
  have run := run.snoc (.job (@Work.claim 1 _ .send_precommit 0 0 rfl rfl) (by rintro - i ⟨⟩))
  have run := run.snoc (.job (@Work.connect 1 _ 0 0 (-3) rfl (by decide)) (by rintro - i ⟨⟩; rfl))
  have run := run.snoc (.job (@Work.reply 1 _ .send_precommit 0 0 [] rfl) (by rintro - i ⟨⟩))
  have run := run.snoc (.job (@Work.vote 1 _ .send_precommit 0 0 [] rfl) (by rintro - i ⟨⟩))
  refine ⟨_, _, run, ?hend, (votes_iff onePeer_phase run ?hend).2 ?speaks⟩
  case hend => exact ⟨rfl, by decide +kernel⟩
  case speaks =>
    intro i _
    rw [Silent, if_pos rfl]
    exact (by decide : (-3 : Int) ≠ err_host)

/-- The host is unknown: no vote is counted. -/
theorem votes_unknown_host : ∃ tr s, Runs.Run (PhaseStep 1 .send_precommit fun _ => err_host) onePeer tr s ∧
    PhaseEnd 1 .send_precommit s ∧ s.pos_count + s.neg_count ≠ 1 := by
  have run := (Runs.Run.nil : Runs.Run (PhaseStep 1 .send_precommit fun _ => err_host) onePeer [] onePeer)
  have run := run.snoc (@PhaseStep.queue 1 .send_precommit _ _ (.lock .precommit) (by decide))
  have run := run.snoc (.job (@Work.claim 1 _ .send_precommit 0 0 rfl rfl) (by rintro - i ⟨⟩))
  have run := run.snoc (.job (@Work.unknownHost 1 _ 0 0 rfl) (by rintro - i ⟨⟩; rfl))
  exact ⟨_, _, run, ⟨rfl, by decide +kernel⟩, by decide +kernel⟩

end Sync

end BulletinBoard
