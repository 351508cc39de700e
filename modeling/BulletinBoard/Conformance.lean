import BulletinBoard.Coordinator
import BulletinBoard.Lib.Pool

/- The requests that `sync_write` and `sync_replace` send, against protocol2pc.txt. The peers
   reply from one vector for each round; every job is queued, every connection succeeds, and a
   wait ends when all votes of its round are in. What is proved: when the coordinator has
   returned and its jobs have run, each peer was sent what the document says, exactly when the
   `dont_reissue` flags that nobody initialised were clear where they matter and `sync_replace`
   took neither of its two exits that the document does not have. -/
namespace BulletinBoard

/-- The job has come to the point where its request is sent, or has been refused there. -/
def Job.reached (i : Nat) : Job → Bool
  | .sent m | .replied m _ | .voted m _ => m = i
  | .returned m => m = some i
  | _ => false

/-- A round of votes. -/
def Round.votes : Round → Bool
  | precommit | commit => true
  | _ => false

namespace Sync

/-- What the peers reply in the two rounds, and what the coordinator's own write or replace and its
    read-back return. -/
structure Exchange where
  reply : SendFn → Nat → CStr
  local_return : Int
  read_return : Int

namespace Exchange

def AllPositive (x : Exchange) (N : Nat) (fn : SendFn) : Prop :=
  ∀ i, i < N → Job.positive (x.reply fn i) = true

instance (x : Exchange) (N : Nat) (fn : SendFn) : Decidable (x.AllPositive N fn) :=
  inferInstanceAs (Decidable (∀ i, i < N → Job.positive (x.reply fn i) = true))

/-- The peer replies 'negative_exists' to COMMIT. -/
def repliesExists (x : Exchange) (i : Nat) : Bool :=
  (x.reply .send_commit i).dropLast = "negative_exists".toList

/-- The local operation fails: the write or replace, or the read-back. -/
def LocalFails (x : Exchange) : Prop := x.local_return < 0 ∨ x.read_return < 0

instance (x : Exchange) : Decidable x.LocalFails := inferInstanceAs (Decidable (_ ∨ _))

/-- The tests that the coordinator makes of it. -/
def Fails (x : Exchange) (kind : SyncKind) : Prop :=
  x.local_return < 0 ∨ readBackFails kind x.read_return = true

end Exchange

/-- protocol2pc.txt: the requests that a peer is sent. -/
def protocol2pc (N : Nat) (kind : SyncKind) (x : Exchange) (i : Nat) : List Request :=
  .precommit ::
    if x.AllPositive N .send_precommit then
      .commit kind ::
        if x.AllPositive N .send_commit then
          if x.LocalFails then [.abort] else [.quit]
        else if x.repliesExists i then [] else [.abort]
    else [.quit]

/-- The requests that were sent to peer `i`. -/
def sentTo (s : Sync) (i : Nat) : List Request :=
  (s.requests.filter fun r => r.1 = i).map Prod.snd

/-- A step in which a job is queued and a connection made, a reply is that of the vector, a wait ends
    with all votes in, and the file operations return what they are to return. -/
structure Orderly (N : Nat) (kind : SyncKind) (x : Exchange) (s : Sync) (a : Actor) (s' : Sync) : Prop where
  step : Step N kind s a s'
  queues : a = .coordinator → ∀ r i, s.pc = .add r i → i < N → s'.pc = .add r (i + 1)
  awaits : a = .coordinator → ∀ r woken, s.pc = .wait r woken → s.pos_count + s.neg_count = N
  connects : ∀ j i, a = .job .send_precommit j → (s.jobs .send_precommit)[j]? = some (.claimed i) →
    (s'.jobs .send_precommit)[j]? = some (.sent i)
  replies : ∀ fn j i, a = .job fn j → (s.jobs fn)[j]? = some (.sent i) →
    (s'.jobs fn)[j]? = some (.replied i (x.reply fn i))
  writes : a = .coordinator → s.pc = .localWrite → s'.write_return = some x.local_return
  reads : a = .coordinator → s.pc = .readBack → s'.read_return = some x.read_return

/-! What the jobs of a round have sent. -/

def reached (s : Sync) (fn : SendFn) (i : Nat) : Bool := (s.jobs fn).any (Job.reached i)

/-- The requests that the jobs say peer `i` was sent. -/
def told (kind : SyncKind) (s : Sync) (i : Nat) : List Request :=
  (if s.reached .send_precommit i then [.precommit] else []) ++
    (if s.reached .send_commit i then [.commit kind] else []) ++
    if (s.peer_addr i).dont_reissue then []
    else (if s.reached .send_del i then [.abort] else []) ++ if s.reached .send_quit i then [.quit] else []

/-- Every job of the round has voted, each for a peer of its own. -/
structure AllVoted (N : Nat) (jobs : List Job) : Prop where
  length : jobs.length = N
  voted : ∀ job ∈ jobs, job.isVoted = true
  nodup : (jobs.filterMap Job.mark?).Nodup
  lt : ∀ i ∈ jobs.filterMap Job.mark?, i < N

theorem voted_of_isVoted {job : Job} (h : job.isVoted = true) : ∃ i buff, job = .voted i buff := by
  cases job with
  | voted i buff => exact ⟨i, buff, rfl⟩
  | _ => simp [Job.isVoted] at h

/-- As many jobs as peers, each with a mark of its own: every peer is marked. -/
theorem mem_marks {N i : Nat} {jobs : List Job} (hlen : jobs.length = N) (hall : ∀ job ∈ jobs, job.mark?.isSome)
    (hnodup : (jobs.filterMap Job.mark?).Nodup) (hlt : ∀ k ∈ jobs.filterMap Job.mark?, k < N) (hi : i < N) :
    i ∈ jobs.filterMap Job.mark? := by
  have hcount : (jobs.filterMap Job.mark?).length = N := by
    rw [List.length_filterMap_eq_countP, ← hlen, List.countP_eq_length]
    exact hall
  have hperm : (jobs.filterMap Job.mark?).Perm (List.range N) := by
    refine (hnodup.subperm ?_).perm_of_length_le (by simp [hcount])
    intro k hk
    exact List.mem_range.2 (hlt k hk)
  exact hperm.mem_iff.2 (List.mem_range.2 hi)

theorem AllVoted.mem {N i : Nat} {jobs : List Job} (h : AllVoted N jobs) (hi : i < N) :
    ∃ buff, .voted i buff ∈ jobs := by
  have hmark : ∀ job ∈ jobs, job.mark?.isSome := by
    intro job hjob
    obtain ⟨k, buff, rfl⟩ := voted_of_isVoted (h.voted job hjob)
    rfl
  obtain ⟨job, hjob, hm⟩ := List.mem_filterMap.1 (mem_marks h.length hmark h.nodup h.lt hi)
  obtain ⟨k, buff, rfl⟩ := voted_of_isVoted (h.voted job hjob)
  obtain rfl : k = i := Option.some.inj hm
  exact ⟨buff, hjob⟩

theorem AllVoted.lt_of_mem {N i : Nat} {buff : CStr} {jobs : List Job} (h : AllVoted N jobs)
    (hmem : .voted i buff ∈ jobs) : i < N :=
  h.lt i (List.mem_filterMap.2 ⟨_, hmem, rfl⟩)

theorem AllVoted.reached {N i : Nat} {s : Sync} {fn : SendFn} (h : AllVoted N (s.jobs fn)) (hi : i < N) :
    s.reached fn i = true := by
  obtain ⟨buff, hmem⟩ := h.mem hi
  exact List.any_eq_true.2 ⟨_, hmem, by simp [Job.reached]⟩

/-- All votes of a full round are in. -/
theorem Counted.allVoted {N : Nat} {s : Sync} {fn : SendFn} (h : Counted N s fn)
    (hlen : (s.jobs fn).length = N) (hsum : s.pos_count + s.neg_count = N) : AllVoted N (s.jobs fn) := by
  have hvoted : ∀ job ∈ s.jobs fn, job.isVoted = true := by
    rw [← List.countP_eq_length, h.voted, hsum, hlen]
  exact ⟨hlen, hvoted, h.nodup, h.lt⟩

/-- A job that has voted takes no more steps. -/
theorem AllVoted.not_moves {N j : Nat} {s s' : Sync} {fn : SendFn} (h : AllVoted N (s.jobs fn))
    (hm : Moves N s fn j s') : False := by
  obtain ⟨y, x, hj, hy, -⟩ := hm.job
  rw [h.voted y (List.mem_of_getElem? hj)] at hy
  cases hy

theorem Moves.allVoted {N j : Nat} {s s' : Sync} {fn fn' : SendFn} (hm : Moves N s fn j s')
    (h : AllVoted N (s.jobs fn')) : AllVoted N (s'.jobs fn') := by
  by_cases hne : fn' = fn
  · subst hne
    exact (h.not_moves hm).elim
  · rwa [hm.jobs_ne hne]

theorem Moves.nil {N j : Nat} {s s' : Sync} {fn fn' : SendFn} (hm : Moves N s fn j s')
    (h : s.jobs fn' = []) : s'.jobs fn' = [] := by
  rw [← List.length_eq_zero_iff, hm.length, h]
  rfl

/-! Where the coordinator stands. -/

/-- What the rounds before `r` have left, and why the coordinator came to `r`. -/
def Before (N : Nat) (kind : SyncKind) (x : Exchange) (s : Sync) : Round → Prop
  | .precommit => ∀ fn, fn ≠ .send_precommit → s.jobs fn = []
  | .commit => AllVoted N (s.jobs .send_precommit) ∧ x.AllPositive N .send_precommit ∧
      (s.writer = decide (kind = .write) ∧ s.replacer = decide (kind = .replace)) ∧
      s.jobs .send_del = [] ∧ s.jobs .send_quit = []
  | .abort => AllVoted N (s.jobs .send_precommit) ∧ x.AllPositive N .send_precommit ∧
      AllVoted N (s.jobs .send_commit) ∧ s.jobs .send_quit = [] ∧
      (x.AllPositive N .send_commit → x.Fails kind)
  | .quit _ => AllVoted N (s.jobs .send_precommit) ∧ s.jobs .send_del = [] ∧
      ((kind = .write ∧ ¬x.AllPositive N .send_precommit ∧ s.jobs .send_commit = []) ∨
        (x.AllPositive N .send_precommit ∧ AllVoted N (s.jobs .send_commit) ∧
          x.AllPositive N .send_commit ∧ ¬x.Fails kind))

/-- `i` jobs of the round are queued. -/
structure Serving (N : Nat) (kind : SyncKind) (x : Exchange) (s : Sync) (r : Round) (i : Nat) : Prop where
  before : Before N kind x s r
  le : i ≤ N
  length : (s.jobs r.fn).length = i
  counted : Counted N s r.fn

/-- Before the jobs of a round are queued. -/
structure Clearing (N : Nat) (kind : SyncKind) (x : Exchange) (s : Sync) (r : Round) (P : Prop) : Prop where
  before : Before N kind x s r
  jobs : s.jobs r.fn = []
  cleared : P

/-- Both rounds of votes are positive. -/
structure Agreed (N : Nat) (x : Exchange) (s : Sync) : Prop where
  precommits : AllVoted N (s.jobs .send_precommit)
  precommit : x.AllPositive N .send_precommit
  commits : AllVoted N (s.jobs .send_commit)
  commit : x.AllPositive N .send_commit
  del : s.jobs .send_del = []
  quit : s.jobs .send_quit = []

/-- `sync_replace` has given up after PRECOMMIT. -/
structure GaveUp (N : Nat) (kind : SyncKind) (x : Exchange) (s : Sync) : Prop where
  kind : kind = .replace
  precommits : AllVoted N (s.jobs .send_precommit)
  precommit : ¬x.AllPositive N .send_precommit
  jobs : ∀ fn, fn ≠ .send_precommit → s.jobs fn = []

def FlowAt (N : Nat) (kind : SyncKind) (x : Exchange) (s : Sync) : Pc → Prop
  | .add r i => Serving N kind x s r i
  | .lock r => r.votes = true ∧ Serving N kind x s r N
  | .wait r _ => r.votes = true ∧ Serving N kind x s r N
  | .test r => r.votes = true ∧ Serving N kind x s r N ∧ s.pos_count + s.neg_count = N
  | .resetPos r => Clearing N kind x s r True
  | .resetNeg r => Clearing N kind x s r (s.pos_count = 0)
  | .resetMarks r i => Clearing N kind x s r
      (s.pos_count = 0 ∧ s.neg_count = 0 ∧ ∀ k, k < i → (s.peer_addr k).marked = false)
  | .localWrite => Agreed N x s
  | .readBack => Agreed N x s ∧ ¬x.local_return < 0
  | .returned _ => (∃ r, r.votes = false ∧ Serving N kind x s r N) ∨ GaveUp N kind x s

/-- What the jobs, the flags and the requests say of each other; `flags` are the `dont_reissue` that the
    run began with. -/
structure Told (kind : SyncKind) (x : Exchange) (flags : Nat → Bool) (s : Sync) : Prop where
  sent : ∀ i, s.sentTo i = s.told kind i
  replies : ∀ fn i b, .replied i b ∈ s.jobs fn ∨ .voted i b ∈ s.jobs fn → b = x.reply fn i
  flags : ∀ i, (s.peer_addr i).dont_reissue = true ↔
    flags i = true ∨ ∃ b, .voted i b ∈ s.jobs .send_commit ∧ b.dropLast = "negative_exists".toList
  ports : ∀ i, s.reached .send_precommit i = true → (s.peer_addr i).peer_port ≠ err_host
  noStray : ∀ fn, .returned none ∉ s.jobs fn

/-! The steps of the jobs keep the place of the coordinator. -/

variable {N i j : Nat} {kind : SyncKind} {x : Exchange} {flags : Nat → Bool} {s s' : Sync} {fn : SendFn} {r : Round}

theorem broadcast_writer (s : Sync) : s.broadcast.writer = s.writer ∧ s.broadcast.replacer = s.replacer := by
  unfold broadcast
  split <;> exact ⟨rfl, rfl⟩

theorem count_writer (s : Sync) (buff : CStr) :
    (s.count N fn i buff).writer = s.writer ∧ (s.count N fn i buff).replacer = s.replacer := by
  have hb : ∀ u : Sync, (if u.allIn N then u.broadcast else u).writer = u.writer ∧
      (if u.allIn N then u.broadcast else u).replacer = u.replacer := by
    intro u
    split
    · exact broadcast_writer u
    · exact ⟨rfl, rfl⟩
  unfold count
  dsimp only
  rw [(hb _).1, (hb _).2]
  split <;> split <;> exact ⟨rfl, rfl⟩

theorem Work.writer (h : Work N s fn j s') : s'.writer = s.writer ∧ s'.replacer = s.replacer := by
  cases h with
  | vote => exact count_writer _ _
  | _ => exact ⟨rfl, rfl⟩

/-- Only jobs of the round itself move. -/
theorem Before.fn_eq (h : Before N kind x s r) (hm : Moves N s fn j s') : fn = r.fn := by
  cases r with
  | precommit =>
    by_contra hne
    exact not_moves_of_nil (h fn hne) hm
  | commit =>
    obtain ⟨hp, -, -, hd, hq⟩ := h
    cases fn with
    | send_precommit => exact (hp.not_moves hm).elim
    | send_commit => rfl
    | send_del => exact (not_moves_of_nil hd hm).elim
    | send_quit => exact (not_moves_of_nil hq hm).elim
  | abort =>
    obtain ⟨hp, -, hc, hq, -⟩ := h
    cases fn with
    | send_precommit => exact (hp.not_moves hm).elim
    | send_commit => exact (hc.not_moves hm).elim
    | send_del => rfl
    | send_quit => exact (not_moves_of_nil hq hm).elim
  | quit ret =>
    obtain ⟨hp, hd, hwhy⟩ := h
    cases fn with
    | send_precommit => exact (hp.not_moves hm).elim
    | send_commit =>
      rcases hwhy with ⟨-, -, hc⟩ | ⟨-, hc, -, -⟩
      · exact (not_moves_of_nil hc hm).elim
      · exact (hc.not_moves hm).elim
    | send_del => exact (not_moves_of_nil hd hm).elim
    | send_quit => rfl

theorem Before.moves (h : Before N kind x s r) (hm : Moves N s fn j s')
    (hw : s'.writer = s.writer ∧ s'.replacer = s.replacer) : Before N kind x s' r := by
  cases r with
  | precommit => exact fun fn' hne => hm.nil (h fn' hne)
  | commit =>
    obtain ⟨hp, hpos, hwr, hd, hq⟩ := h
    exact ⟨hm.allVoted hp, hpos, ⟨hw.1.trans hwr.1, hw.2.trans hwr.2⟩, hm.nil hd, hm.nil hq⟩
  | abort =>
    obtain ⟨hp, hpos, hc, hq, hwhy⟩ := h
    exact ⟨hm.allVoted hp, hpos, hm.allVoted hc, hm.nil hq, hwhy⟩
  | quit ret =>
    obtain ⟨hp, hd, hwhy⟩ := h
    refine ⟨hm.allVoted hp, hm.nil hd, ?_⟩
    rcases hwhy with ⟨hk, hneg, hc⟩ | ⟨hpos, hc, hcpos, hok⟩
    · exact Or.inl ⟨hk, hneg, hm.nil hc⟩
    · exact Or.inr ⟨hpos, hm.allVoted hc, hcpos, hok⟩

theorem Serving.moves (h : Serving N kind x s r i) (hm : Moves N s fn j s')
    (hw : s'.writer = s.writer ∧ s'.replacer = s.replacer) : Serving N kind x s' r i := by
  have hfn := h.before.fn_eq hm
  subst hfn
  exact ⟨h.before.moves hm hw, h.le, (hm.length _).trans h.length, hm.counted h.counted⟩

theorem Clearing.not_moves {P : Prop} (h : Clearing N kind x s r P) (hm : Moves N s fn j s') : False := by
  have hfn := h.before.fn_eq hm
  subst hfn
  exact not_moves_of_nil h.jobs hm

theorem Agreed.not_moves (h : Agreed N x s) (hm : Moves N s fn j s') : False := by
  cases fn with
  | send_precommit => exact h.precommits.not_moves hm
  | send_commit => exact h.commits.not_moves hm
  | send_del => exact not_moves_of_nil h.del hm
  | send_quit => exact not_moves_of_nil h.quit hm

theorem GaveUp.not_moves (h : GaveUp N kind x s) (hm : Moves N s fn j s') : False := by
  by_cases hfn : fn = .send_precommit
  · subst hfn
    exact h.precommits.not_moves hm
  · exact not_moves_of_nil (h.jobs fn hfn) hm

/-- A step of a job keeps the place. -/
theorem FlowAt.moves {pc : Pc} (h : FlowAt N kind x s pc) (hm : Moves N s fn j s')
    (hw : s'.writer = s.writer ∧ s'.replacer = s.replacer) : FlowAt N kind x s' pc := by
  cases pc with
  | add r i => exact Serving.moves h hm hw
  | lock r => exact ⟨h.1, h.2.moves hm hw⟩
  | wait r woken => exact ⟨h.1, h.2.moves hm hw⟩
  | test r =>
    obtain ⟨-, hs, hsum⟩ := h
    have hfn := hs.before.fn_eq hm
    subst hfn
    exact ((hs.counted.allVoted hs.length hsum).not_moves hm).elim
  | resetPos r => exact (Clearing.not_moves h hm).elim
  | resetNeg r => exact (Clearing.not_moves h hm).elim
  | resetMarks r i => exact (Clearing.not_moves h hm).elim
  | localWrite => exact (Agreed.not_moves h hm).elim
  | readBack => exact (h.1.not_moves hm).elim
  | returned ret =>
    rcases h with ⟨r, hr, hs⟩ | hg
    · exact Or.inl ⟨r, hr, hs.moves hm hw⟩
    · exact (hg.not_moves hm).elim

theorem Work.flow (h : FlowAt N kind x s s.pc) (hw : Work N s fn j s') : FlowAt N kind x s' s'.pc := by
  have hm := hw.moves
  rcases hm.same.pc with hpc | ⟨r, woken, hpc, hpc'⟩
  · rw [hpc]
    exact h.moves hm hw.writer
  · rw [hpc] at h
    rw [hpc']
    exact ⟨h.1, h.2.moves hm hw.writer⟩

/-! The steps of the coordinator. -/

/-- The rounds before `r` do not depend on the jobs of `r`. -/
theorem Before.congr (h : Before N kind x s r) (hjobs : ∀ fn, fn ≠ r.fn → s'.jobs fn = s.jobs fn)
    (hw : s'.writer = s.writer ∧ s'.replacer = s.replacer) : Before N kind x s' r := by
  cases r with
  | precommit => exact fun fn hne => (hjobs fn hne).trans (h fn hne)
  | commit =>
    obtain ⟨hp, hpos, hwr, hd, hq⟩ := h
    refine ⟨?_, hpos, ⟨hw.1.trans hwr.1, hw.2.trans hwr.2⟩, ?_, ?_⟩
    · rwa [hjobs .send_precommit (by decide)]
    · rwa [hjobs .send_del (by decide)]
    · rwa [hjobs .send_quit (by decide)]
  | abort =>
    obtain ⟨hp, hpos, hc, hq, hwhy⟩ := h
    refine ⟨?_, hpos, ?_, ?_, hwhy⟩
    · rwa [hjobs .send_precommit (by decide)]
    · rwa [hjobs .send_commit (by decide)]
    · rwa [hjobs .send_quit (by decide)]
  | quit ret =>
    obtain ⟨hp, hd, hwhy⟩ := h
    refine ⟨?_, ?_, ?_⟩
    · rwa [hjobs .send_precommit (by simp [Round.fn])]
    · rwa [hjobs .send_del (by simp [Round.fn])]
    · rwa [hjobs .send_commit (by simp [Round.fn])]

theorem Serving.congr (h : Serving N kind x s r i) (hjobs : s'.jobs = s.jobs)
    (hw : s'.writer = s.writer ∧ s'.replacer = s.replacer) (hpos : s'.pos_count = s.pos_count)
    (hneg : s'.neg_count = s.neg_count) (hpeer : s'.peer_addr = s.peer_addr) : Serving N kind x s' r i := by
  have hmarks : s'.marks r.fn = s.marks r.fn := by rw [marks, hjobs, marks]
  refine ⟨h.before.congr (fun fn _ => congrFun hjobs fn) hw, h.le, (congrFun hjobs _ ▸ h.length), ?_⟩
  refine ⟨?_, ?_, hmarks ▸ h.counted.nodup, hmarks ▸ h.counted.lt, ?_⟩
  · rw [hpos, hjobs, h.counted.pos]
  · rw [hneg, hjobs, h.counted.neg]
  · rw [hpeer, hmarks]
    exact h.counted.marked

theorem Clearing.congr {P P' : Prop} (h : Clearing N kind x s r P) (hjobs : s'.jobs = s.jobs)
    (hw : s'.writer = s.writer ∧ s'.replacer = s.replacer) (hP : P → P') : Clearing N kind x s' r P' :=
  ⟨h.before.congr (fun fn _ => congrFun hjobs fn) hw, (congrFun hjobs r.fn).trans h.jobs, hP h.cleared⟩

theorem Serving.addJob (h : Serving N kind x s r i) (hi : i < N) {pc : Pc} :
    Serving N kind x { s with jobs := Function.update s.jobs r.fn (s.jobs r.fn ++ [.queued]), pc := pc } r
      (i + 1) := by
  have hself : Function.update s.jobs r.fn (s.jobs r.fn ++ [.queued]) r.fn = s.jobs r.fn ++ [.queued] :=
    Function.update_self ..
  refine ⟨h.before.congr (fun fn hne => Function.update_of_ne hne _ _) ⟨rfl, rfl⟩, hi, ?_, ?_⟩
  · show (Function.update s.jobs r.fn _ r.fn).length = i + 1
    rw [hself, List.length_append, h.length]
    rfl
  · exact h.counted.snoc hself rfl rfl rfl

/-- The votes of a full round: all positive, exactly when the replies are. -/
theorem Serving.pos_count_iff (h : Serving N kind x s r N) (hsum : s.pos_count + s.neg_count = N)
    (ht : Told kind x flags s) : s.pos_count = N ↔ x.AllPositive N r.fn := by
  have hall := h.counted.allVoted h.length hsum
  have hcount : s.pos_count = N ↔ ∀ job ∈ s.jobs r.fn, job.isPositive = true := by
    rw [← List.countP_eq_length, ← h.counted.pos, h.length]
  rw [hcount]
  constructor
  · intro hpos k hk
    obtain ⟨buff, hmem⟩ := hall.mem hk
    rw [← ht.replies r.fn k buff (Or.inr hmem)]
    exact hpos _ hmem
  · intro hpos job hjob
    obtain ⟨k, buff, rfl⟩ := voted_of_isVoted (hall.voted job hjob)
    have hk := hpos k (hall.lt_of_mem hjob)
    rwa [← ht.replies r.fn k buff (Or.inr hjob)] at hk

theorem Coordinate.flow (hc : Coordinate N kind s s') (ho : Orderly N kind x s .coordinator s')
    (h : FlowAt N kind x s s.pc) (ht : Told kind x flags s) : FlowAt N kind x s' s'.pc := by
  cases hc with
  | @addJob r i hpc hi =>
    rw [hpc] at h
    exact Serving.addJob h hi
  | @addFails r i hpc hi =>
    have := ho.queues rfl r i hpc hi
    cases this
  | @added r hpc =>
    rw [hpc] at h
    have hs : Serving N kind x { s with pc := afterAdd r } r N := Serving.congr h rfl ⟨rfl, rfl⟩ rfl rfl rfl
    cases r with
    | precommit => exact ⟨rfl, hs⟩
    | commit => exact ⟨rfl, hs⟩
    | abort => exact Or.inl ⟨.abort, rfl, hs⟩
    | quit ret => exact Or.inl ⟨.quit ret, rfl, hs⟩
  | @blocks r hpc _ =>
    rw [hpc] at h
    exact ⟨h.1, h.2.congr rfl ⟨rfl, rfl⟩ rfl rfl rfl⟩
  | @passes r hpc hw =>
    rw [hpc] at h
    simp only [mustWait, Bool.or_eq_false_iff, decide_eq_false_iff_not, not_not] at hw
    exact ⟨h.1, h.2.congr rfl ⟨rfl, rfl⟩ rfl rfl rfl, hw.2⟩
  | @wakes r woken hpc =>
    rw [hpc] at h
    exact ⟨h.1, h.2.congr rfl ⟨rfl, rfl⟩ rfl rfl rfl, ho.awaits rfl r woken hpc⟩
  | precommitted hpc hpos =>
    rw [hpc] at h
    obtain ⟨-, hs, hsum⟩ := h
    refine ⟨⟨hs.counted.allVoted hs.length hsum, (hs.pos_count_iff hsum ht).1 hpos, ⟨rfl, rfl⟩, ?_, ?_⟩, ?_,
      trivial⟩
    · exact hs.before .send_del (by decide)
    · exact hs.before .send_quit (by decide)
    · exact hs.before .send_commit (by decide)
  | committed hpc hpos =>
    rw [hpc] at h
    obtain ⟨-, hs, hsum⟩ := h
    obtain ⟨hp, hpos', -, hd, hq⟩ := hs.before
    exact ⟨hp, hpos', hs.counted.allVoted hs.length hsum, (hs.pos_count_iff hsum ht).1 hpos, hd, hq⟩
  | @negative r hpc hpos =>
    rw [hpc] at h
    obtain ⟨hr, hs, hsum⟩ := h
    have hall := hs.counted.allVoted hs.length hsum
    have hneg : ¬x.AllPositive N r.fn := fun hp => hpos ((hs.pos_count_iff hsum ht).2 hp)
    cases r with
    | precommit =>
      cases kind with
      | write =>
        refine ⟨⟨hall, ?_, Or.inl ⟨rfl, hneg, ?_⟩⟩, ?_, trivial⟩
        · exact hs.before .send_del (by decide)
        · exact hs.before .send_commit (by decide)
        · exact hs.before .send_quit (by decide)
      | replace => exact Or.inr ⟨rfl, hall, hneg, hs.before⟩
    | commit =>
      obtain ⟨hp, hpos', -, hd, hq⟩ := hs.before
      have hclearing : Clearing N kind x { s with pc := afterNegative kind .commit } .abort True :=
        ⟨⟨hp, hpos', hall, hq, fun hc => absurd hc hneg⟩, hd, trivial⟩
      cases kind <;> exact hclearing
    | abort => cases hr
    | quit ret => cases hr
  | @resetPos r hpc =>
    rw [hpc] at h
    exact Clearing.congr h rfl ⟨rfl, rfl⟩ fun _ => rfl
  | @resetNeg r hpc =>
    rw [hpc] at h
    exact Clearing.congr h rfl ⟨rfl, rfl⟩ fun hp => ⟨hp, rfl, by simp⟩
  | @resetMark r i hpc hi =>
    rw [hpc] at h
    refine Clearing.congr h rfl ⟨rfl, rfl⟩ fun hp => ⟨hp.1, hp.2.1, fun k hk => ?_⟩
    by_cases hki : k = i
    · simp [setPeer, hki]
    · have := hp.2.2 k (by omega)
      simpa [setPeer, hki] using this
  | @resetDone r hpc =>
    rw [hpc] at h
    obtain ⟨hpos, hneg, hmarked⟩ := h.cleared
    exact ⟨h.before.congr (fun _ _ => rfl) ⟨rfl, rfl⟩, Nat.zero_le N, by simp [h.jobs],
      counted_of_nil h.jobs hpos hneg hmarked⟩
  | @localWrite ret hpc _ =>
    rw [hpc] at h
    obtain rfl : ret = x.local_return := Option.some.inj (ho.writes rfl hpc)
    by_cases hneg : x.local_return < 0
    · simp only [if_pos hneg]
      exact ⟨⟨h.precommits, h.precommit, h.commits, h.quit, fun _ => Or.inl hneg⟩, h.del, trivial⟩
    · simp only [if_neg hneg]
      exact ⟨⟨h.precommits, h.precommit, h.commits, h.commit, h.del, h.quit⟩, hneg⟩
  | @readBack ret hpc _ =>
    rw [hpc] at h
    obtain ⟨ha, hok⟩ := h
    obtain rfl : ret = x.read_return := Option.some.inj (ho.reads rfl hpc)
    by_cases hf : readBackFails kind x.read_return = true
    · simp only [if_pos hf]
      exact ⟨⟨ha.precommits, ha.precommit, ha.commits, ha.quit, fun _ => Or.inr hf⟩, ha.del, trivial⟩
    · simp only [if_neg hf]
      refine ⟨⟨ha.precommits, ha.del, Or.inr ⟨ha.precommit, ha.commits, ha.commit, ?_⟩⟩, ha.quit, trivial⟩
      exact fun hfails => hfails.elim hok hf

/-! What the jobs say that was sent. -/

theorem sentTo_send (s : Sync) (i k : Nat) (q : Request) :
    (s.send i q).sentTo k = s.sentTo k ++ if i = k then [q] else [] := by
  unfold sentTo send
  by_cases hk : i = k <;> simp [List.filter_append, hk]

theorem mark_of_reached {job : Job} (h : job.reached i = true) : job.mark? = some i := by
  cases job with
  | sent m | replied m b | voted m b => simpa [Job.reached, Job.mark?] using h
  | returned m => simpa [Job.reached, Job.mark?] using h
  | _ => simp [Job.reached] at h

/-- No other job has the mark of a job, so none has sent for its peer. -/
theorem Counted.not_reached (h : Counted N s fn) {y : Job} (hj : (s.jobs fn)[j]? = some y)
    (hmark : y.mark? = some i) (hy : y.reached i = false) : s.reached fn i = false := by
  obtain ⟨l₁, l₂, hl, -⟩ := Pool.set_split hj
  have hnodup := h.nodup
  rw [marks, hl, List.filterMap_append, List.filterMap_cons, hmark] at hnodup
  have hnot := (List.nodup_cons.1 (List.perm_middle.nodup_iff.1 hnodup)).1
  rw [← Bool.not_eq_true, reached, List.any_eq_true]
  rintro ⟨z, hz, hzi⟩
  rw [hl] at hz
  have hzm := mark_of_reached hzi
  rcases List.mem_append.1 hz with hz | hz
  · exact hnot (List.mem_append_left _ (List.mem_filterMap.2 ⟨z, hz, hzm⟩))
  · rcases List.mem_cons.1 hz with rfl | hz
    · rw [hy] at hzi
      cases hzi
    · exact hnot (List.mem_append_right _ (List.mem_filterMap.2 ⟨z, hz, hzm⟩))

/-- One job of `fn` is moved on to `z`, and the lists of the other rounds stay. -/
structure JobSet (s : Sync) (fn : SendFn) (j : Nat) (y z : Job) (s' : Sync) : Prop where
  at_j : (s.jobs fn)[j]? = some y
  jobs : s'.jobs = Function.update s.jobs fn ((s.jobs fn).set j z)

theorem JobSet.self {y z : Job} (h : JobSet s fn j y z s') : s'.jobs fn = (s.jobs fn).set j z := by
  rw [h.jobs, Function.update_self]

theorem JobSet.ne {y z : Job} (h : JobSet s fn j y z s') {fn' : SendFn} (hne : fn' ≠ fn) :
    s'.jobs fn' = s.jobs fn' := by
  rw [h.jobs, Function.update_of_ne hne]

/-- What is in the lists afterwards was there, or is the new job. -/
theorem JobSet.mem {y z w : Job} {fn' : SendFn} (h : JobSet s fn j y z s') (hw : w ∈ s'.jobs fn') :
    w ∈ s.jobs fn' ∨ (fn' = fn ∧ w = z) := by
  by_cases hne : fn' = fn
  · subst hne
    rw [h.self] at hw
    exact (List.mem_or_eq_of_mem_set hw).imp id fun he => ⟨rfl, he⟩
  · rw [h.ne hne] at hw
    exact Or.inl hw

theorem JobSet.reached_same {y z : Job} (h : JobSet s fn j y z s') (hr : ∀ i, z.reached i = y.reached i)
    (fn' : SendFn) (i : Nat) : s'.reached fn' i = s.reached fn' i := by
  by_cases hne : fn' = fn
  · subst hne
    rw [reached, h.self, Pool.any_set_same h.at_j (hr i)]
    rfl
  · rw [reached, h.ne hne]
    rfl

theorem JobSet.reached_new {y z : Job} (h : JobSet s fn j y z s') (hy : ∀ k, y.reached k = false)
    (fn' : SendFn) (k : Nat) : s'.reached fn' k = (s.reached fn' k || (fn' = fn && z.reached k)) := by
  by_cases hne : fn' = fn
  · subst hne
    rw [reached, h.self, Pool.any_set_of_not h.at_j (hy k)]
    simp [reached]
  · rw [reached, h.ne hne]
    simp [reached, hne]

/-- The votes of a round stay when a job that has not voted moves on. -/
theorem JobSet.voted_mem {y z : Job} (h : JobSet s fn j y z s') (hy : y.isVoted = false) {fn' : SendFn}
    {k : Nat} {b : CStr} :
    .voted k b ∈ s'.jobs fn' ↔ .voted k b ∈ s.jobs fn' ∨ (fn' = fn ∧ z = .voted k b) := by
  constructor
  · intro hmem
    exact (h.mem hmem).imp id fun he => ⟨he.1, he.2.symm⟩
  · rintro (hmem | ⟨rfl, rfl⟩)
    · by_cases hne : fn' = fn
      · subst hne
        obtain ⟨l₁, l₂, hl, hset⟩ := Pool.set_split h.at_j
        rw [hl] at hmem
        rw [h.self, hset]
        rcases List.mem_append.1 hmem with hm | hm
        · exact List.mem_append_left _ hm
        · rcases List.mem_cons.1 hm with he | hm
          · rw [← he] at hy
            cases hy
          · exact List.mem_append_right _ (List.mem_cons_of_mem _ hm)
      · rwa [h.ne hne]
    · rw [h.self]
      exact List.mem_of_getElem? (Pool.getElem?_set_of_getElem? h.at_j)

/-- A step of a job that sends nothing. -/
theorem Told.quiet (ht : Told kind x flags s) {y z : Job} (h : JobSet s fn j y z s') (hy : y.isVoted = false)
    (hr : ∀ i, z.reached i = y.reached i) (hreq : s'.requests = s.requests)
    (hreply : ∀ i b, z = .replied i b ∨ z = .voted i b → b = x.reply fn i)
    (hflags : ∀ k, (s'.peer_addr k).dont_reissue = true ↔ (s.peer_addr k).dont_reissue = true ∨
      ∃ b, (SendFn.send_commit = fn ∧ z = .voted k b) ∧ b.dropLast = "negative_exists".toList)
    (hkept : (∀ k, (s'.peer_addr k).dont_reissue = (s.peer_addr k).dont_reissue) ∨
      (s.jobs .send_del = [] ∧ s.jobs .send_quit = []))
    (hports : ∀ k, (s'.peer_addr k).peer_port = (s.peer_addr k).peer_port) (hstray : z ≠ .returned none) :
    Told kind x flags s' where
  sent := by
    intro i
    have hsame : s'.sentTo i = s.sentTo i := by rw [sentTo, hreq, sentTo]
    rw [hsame, ht.sent, told, told]
    simp only [h.reached_same hr]
    rcases hkept with hk | ⟨hd, hq⟩
    · rw [hk]
    · simp [reached, hd, hq]
  replies := by
    intro fn' i b hmem
    rcases hmem with hmem | hmem
    · rcases h.mem hmem with hmem | ⟨rfl, rfl⟩
      · exact ht.replies fn' i b (Or.inl hmem)
      · exact hreply i b (Or.inl rfl)
    · rcases h.mem hmem with hmem | ⟨rfl, rfl⟩
      · exact ht.replies fn' i b (Or.inr hmem)
      · exact hreply i b (Or.inr rfl)
  flags := by
    intro i
    rw [hflags, ht.flags, or_assoc, ← exists_or]
    simp only [h.voted_mem hy, ← or_and_right]
  ports := by
    intro i hi
    rw [h.reached_same hr] at hi
    rw [hports]
    exact ht.ports i hi
  noStray := by
    intro fn' hmem
    rcases h.mem hmem with hmem | ⟨-, he⟩
    · exact ht.noStray fn' hmem
    · exact hstray he.symm

/-- A step of a job that sends `rs` to its peer, or is refused. -/
theorem Told.sends (ht : Told kind x flags s) {y z : Job} (h : JobSet s fn j y z s') (hy : ∀ k, y.reached k = false)
    (hyv : y.isVoted = false) (hz : ∀ k, z.reached k = decide (i = k)) (hzv : z.isVoted = false)
    (hzr : ∀ k b, z ≠ .replied k b) (rs : List Request)
    (hsent : ∀ k, s'.sentTo k = s.sentTo k ++ if i = k then rs else [])
    (hflags : ∀ k, (s'.peer_addr k).dont_reissue = (s.peer_addr k).dont_reissue)
    (htold : s'.told kind i = s.told kind i ++ rs)
    (hports : ∀ k, s'.reached .send_precommit k = true → (s'.peer_addr k).peer_port ≠ err_host)
    (hstray : z ≠ .returned none) : Told kind x flags s' where
  sent := by
    intro k
    rw [hsent, ht.sent]
    by_cases hk : i = k
    · subst hk
      rw [if_pos rfl, htold]
    · have hsame : ∀ fn', s'.reached fn' k = s.reached fn' k := by
        intro fn'
        rw [h.reached_new hy, hz]
        simp [hk]
      rw [if_neg hk, List.append_nil, told, told, hflags]
      simp only [hsame]
  replies := by
    have hzv' : ∀ k b, z ≠ .voted k b := by
      rintro k b rfl
      cases hzv
    intro fn' k b hmem
    rcases hmem with hmem | hmem
    · rcases h.mem hmem with hmem | ⟨-, he⟩
      · exact ht.replies fn' k b (Or.inl hmem)
      · exact absurd he.symm (hzr k b)
    · rcases h.mem hmem with hmem | ⟨-, he⟩
      · exact ht.replies fn' k b (Or.inr hmem)
      · exact absurd he.symm (hzv' k b)
  flags := by
    intro k
    rw [hflags, ht.flags]
    simp only [h.voted_mem hyv]
    have hzv' : ∀ b, z ≠ .voted k b := by
      rintro b rfl
      cases hzv
    simp [hzv']
  ports := hports
  noStray := by
    intro fn' hmem
    rcases h.mem hmem with hmem | ⟨-, he⟩
    · exact ht.noStray fn' hmem
    · exact hstray he.symm

theorem broadcast_rest (s : Sync) : s.broadcast.requests = s.requests ∧ s.broadcast.peer_addr = s.peer_addr := by
  unfold broadcast
  split <;> exact ⟨rfl, rfl⟩

/-- Counting a vote sends nothing, and sets the flag of a peer that replies 'negative_exists' to COMMIT. -/
theorem count_rest (s : Sync) (buff : CStr) :
    (s.count N fn i buff).requests = s.requests ∧
      (s.count N fn i buff).peer_addr =
        if fn = .send_commit ∧ buff.dropLast = "negative_exists".toList then
          Function.update s.peer_addr i { s.peer_addr i with dont_reissue := true }
        else s.peer_addr := by
  have hb : ∀ u : Sync, (if u.allIn N then u.broadcast else u).requests = u.requests ∧
      (if u.allIn N then u.broadcast else u).peer_addr = u.peer_addr := by
    intro u
    split
    · exact broadcast_rest u
    · exact ⟨rfl, rfl⟩
  unfold count
  dsimp only
  rw [(hb _).1, (hb _).2]
  by_cases he : fn = .send_commit ∧ buff.dropLast = "negative_exists".toList
  · simp only [if_pos he]
    split <;> exact ⟨rfl, rfl⟩
  · simp only [if_neg he]
    split <;> exact ⟨rfl, rfl⟩

/-- A job moves in a round that is being served. -/
theorem FlowAt.serving {pc : Pc} (h : FlowAt N kind x s pc) (hm : Moves N s fn j s') :
    ∃ r i, Serving N kind x s r i ∧ fn = r.fn := by
  cases pc with
  | add r i => exact ⟨r, i, h, Before.fn_eq h.before hm⟩
  | lock r => exact ⟨r, N, h.2, h.2.before.fn_eq hm⟩
  | wait r woken => exact ⟨r, N, h.2, h.2.before.fn_eq hm⟩
  | test r => exact ⟨r, N, h.2.1, h.2.1.before.fn_eq hm⟩
  | resetPos r => exact (Clearing.not_moves h hm).elim
  | resetNeg r => exact (Clearing.not_moves h hm).elim
  | resetMarks r i => exact (Clearing.not_moves h hm).elim
  | localWrite => exact (Agreed.not_moves h hm).elim
  | readBack => exact (h.1.not_moves hm).elim
  | returned ret =>
    rcases h with ⟨r, -, hs⟩ | hg
    · exact ⟨r, N, hs, hs.before.fn_eq hm⟩
    · exact (hg.not_moves hm).elim

theorem Serving.firstUnmarked_ne (h : Serving N kind x s r i) (hj : (s.jobs r.fn)[j]? = some .queued) :
    s.firstUnmarked N ≠ none :=
  h.counted.firstUnmarked_ne (le_of_eq_of_le h.length h.le) hj

/-- A job of the later rounds has a peer that PRECOMMIT went to, and its connection was made. -/
theorem Told.port_ne (ht : Told kind x flags s) (hp : AllVoted N (s.jobs .send_precommit))
    (hc : Counted N s fn) (hj : (s.jobs fn)[j]? = some (.claimed i)) : (s.peer_addr i).peer_port ≠ err_host := by
  have hi : i < N := hc.lt i (List.mem_filterMap.2 ⟨_, List.mem_of_getElem? hj, rfl⟩)
  exact ht.ports i (hp.reached hi)

theorem reached_of_nil (h : s.jobs fn = []) (k : Nat) : s.reached fn k = false := by
  rw [reached, h]
  rfl

/-- ABORT or QUIT, or neither where the flag is set. -/
theorem Told.close (ht : Told kind x flags s) (rs : List Request) {n : Nat}
    (h : JobSet s fn j (.claimed i) (.returned (some i)) s') (hs : Serving N kind x s r n) (hfn : fn = r.fn)
    (hr : r.votes = false) (hpeer : s'.peer_addr = s.peer_addr)
    (hsent : ∀ k, s'.sentTo k = s.sentTo k ++ if i = k then rs else [])
    (hrs : rs = if (s.peer_addr i).dont_reissue then [] else
      if fn = .send_del then [.abort] else [.quit]) : Told kind x flags s' := by
  have hnew := fun fn' => h.reached_new (fun _ => rfl) fn' i
  have hnot : s.reached fn i = false := by
    subst hfn
    exact hs.counted.not_reached h.at_j rfl rfl
  refine ht.sends h (fun _ => rfl) rfl (fun k => by simp [Job.reached]) rfl (fun _ _ => by simp) rs hsent
    (fun k => by rw [hpeer]) ?_ ?_ (by simp)
  · rw [told, told, hpeer, hrs]
    cases r with
    | precommit => cases hr
    | commit => cases hr
    | abort =>
      obtain rfl : fn = .send_del := hfn
      simp only [hnew, hnot, reached_of_nil hs.before.2.2.2.1]
      cases (s.peer_addr i).dont_reissue <;> simp [Job.reached]
    | quit ret =>
      obtain rfl : fn = .send_quit := hfn
      simp only [hnew, hnot, reached_of_nil hs.before.2.1]
      cases (s.peer_addr i).dont_reissue <;> simp [Job.reached]
  · intro k hk
    rw [h.reached_new (fun _ => rfl)] at hk
    have hne : SendFn.send_precommit ≠ fn := by
      rw [hfn]
      cases r <;> simp_all [Round.fn, Round.votes]
    simp only [hne, decide_false, Bool.false_and, Bool.or_false] at hk
    rw [hpeer]
    exact ht.ports k hk

/-- A job that sends for its peer has not done so before. -/
theorem Serving.not_reached {n : Nat} (h : Serving N kind x s r n) (hfn : fn = r.fn)
    (hj : (s.jobs fn)[j]? = some (.claimed i)) : s.reached fn i = false := by
  subst hfn
  exact h.counted.not_reached hj rfl rfl

/-- The round that `send_del` and `send_quit` are queued in. -/
theorem votes_of_close (hfn : fn = r.fn) (h : fn = .send_del ∨ fn = .send_quit) : r.votes = false := by
  cases r <;> simp_all [Round.fn, Round.votes]

theorem Before.precommits_of_close (h : Before N kind x s r) (hr : r.votes = false) :
    AllVoted N (s.jobs .send_precommit) := by
  cases r with
  | precommit => cases hr
  | commit => cases hr
  | abort => exact h.1
  | quit ret => exact h.1

theorem eq_precommit_of_fn (h : SendFn.send_precommit = r.fn) : r = .precommit := by
  cases r <;> first | rfl | cases h

theorem eq_commit_of_fn (h : SendFn.send_commit = r.fn) : r = .commit := by
  cases r <;> first | rfl | cases h

theorem update_dont_reissue {s : Sync} {a : PeerStatAddress}
    (ha : a.dont_reissue = (s.peer_addr i).dont_reissue) (k : Nat) :
    (Function.update s.peer_addr i a k).dont_reissue = (s.peer_addr k).dont_reissue := by
  by_cases hk : k = i
  · subst hk
    rw [Function.update_self, ha]
  · rw [Function.update_of_ne hk]

theorem update_peer_port {s : Sync} {a : PeerStatAddress} (ha : a.peer_port = (s.peer_addr i).peer_port)
    (k : Nat) : (Function.update s.peer_addr i a k).peer_port = (s.peer_addr k).peer_port := by
  by_cases hk : k = i
  · subst hk
    rw [Function.update_self, ha]
  · rw [Function.update_of_ne hk]

/-- The flags after a vote. -/
theorem count_dont_reissue (s : Sync) (buff : CStr) (k : Nat) :
    ((s.count N fn i buff).peer_addr k).dont_reissue = true ↔ (s.peer_addr k).dont_reissue = true ∨
      (fn = .send_commit ∧ buff.dropLast = "negative_exists".toList) ∧ i = k := by
  rw [(count_rest s buff).2]
  by_cases he : fn = .send_commit ∧ buff.dropLast = "negative_exists".toList
  · rw [if_pos he]
    by_cases hk : k = i
    · subst hk
      rw [Function.update_self]
      exact ⟨fun _ => Or.inr ⟨he, rfl⟩, fun _ => rfl⟩
    · rw [Function.update_of_ne hk]
      exact ⟨Or.inl, fun h => h.elim id fun h => absurd h.2.symm hk⟩
  · rw [if_neg he]
    exact ⟨Or.inl, fun h => h.elim id fun h => absurd h.1 he⟩

theorem count_peer_port (s : Sync) (buff : CStr) (k : Nat) :
    ((s.count N fn i buff).peer_addr k).peer_port = (s.peer_addr k).peer_port := by
  rw [(count_rest s buff).2]
  split
  · exact update_peer_port (a := { s.peer_addr i with dont_reissue := true }) rfl k
  · rfl

/-- PRECOMMIT is sent. -/
theorem Told.connect (ht : Told kind x flags s) {n : Nat} {sd : Int} (hs : Serving N kind x s .precommit n)
    (hj : (s.jobs .send_precommit)[j]? = some (.claimed i)) (hsd : sd ≠ err_host) :
    Told kind x flags (((s.setJob .send_precommit j (.sent i)).setPeer i
      { s.peer_addr i with peer_port := sd }).send i .precommit) := by
  have hset : JobSet s .send_precommit j (.claimed i) (.sent i) (((s.setJob .send_precommit j (.sent i)).setPeer i
      { s.peer_addr i with peer_port := sd }).send i .precommit) := ⟨hj, rfl⟩
  have hnew := hset.reached_new fun _ => rfl
  have hflags : ∀ k, (Function.update s.peer_addr i { s.peer_addr i with peer_port := sd } k).dont_reissue =
      (s.peer_addr k).dont_reissue := update_dont_reissue rfl
  have hnot : s.reached .send_precommit i = false := hs.not_reached rfl hj
  have hnil := fun fn hne => reached_of_nil (hs.before fn hne) i
  refine ht.sends (i := i) hset (fun _ => rfl) rfl (fun k => by simp [Job.reached]) rfl (fun _ _ => by simp)
    [.precommit] (fun k => sentTo_send _ i k _) hflags ?_ ?_ (by simp)
  · rw [told, told]
    simp only [hnew, hnot, hnil .send_commit (by decide), hnil .send_del (by decide),
      hnil .send_quit (by decide)]
    simp [Job.reached]
  · intro k hk
    show (Function.update s.peer_addr i _ k).peer_port ≠ err_host
    by_cases hki : k = i
    · subst hki
      rw [Function.update_self]
      exact hsd
    · rw [hnew] at hk
      have hik : i ≠ k := fun he => hki he.symm
      simp only [Job.reached, decide_true, Bool.true_and, hik, decide_false, Bool.or_false] at hk
      rw [Function.update_of_ne hki]
      exact ht.ports k hk

/-- COMMIT is sent. -/
theorem Told.commit (ht : Told kind x flags s) {n : Nat} (hs : Serving N kind x s .commit n)
    (hj : (s.jobs .send_commit)[j]? = some (.claimed i)) :
    Told kind x flags ((s.setJob .send_commit j (.sent i)).send i
      (.commit (if s.writer then .write else .replace))) := by
  obtain ⟨-, -, ⟨hwr, -⟩, hd, hq⟩ := hs.before
  have hset : JobSet s .send_commit j (.claimed i) (.sent i) ((s.setJob .send_commit j (.sent i)).send i
      (.commit (if s.writer then .write else .replace))) := ⟨hj, rfl⟩
  have hnew := hset.reached_new fun _ => rfl
  have hnot : s.reached .send_commit i = false := hs.not_reached rfl hj
  have hkind : (if s.writer then SyncKind.write else .replace) = kind := by
    rw [hwr]
    cases kind <;> rfl
  refine ht.sends (i := i) hset (fun _ => rfl) rfl (fun k => by simp [Job.reached]) rfl (fun _ _ => by simp)
    [.commit kind] (fun k => ?_) (fun _ => rfl) ?_ ?_ (by simp)
  · rw [hkind]
    exact sentTo_send _ i k _
  · rw [told, told]
    simp only [hnew, hnot, reached_of_nil hd, reached_of_nil hq]
    simp [Job.reached]
  · intro k hk
    rw [hnew] at hk
    exact ht.ports k (by simpa using hk)

/-- A vote is counted. -/
theorem Told.vote (ht : Told kind x flags s) {n : Nat} {buff : CStr} (hs : Serving N kind x s r n) (hfn : fn = r.fn)
    (hj : (s.jobs fn)[j]? = some (.replied i buff)) :
    Told kind x flags ((s.setJob fn j (.voted i buff)).count N fn i buff) := by
  have hc := (count_counts N (s.setJob fn j (.voted i buff)) fn i buff).jobs
  have hreq := (@count_rest N i fn (s.setJob fn j (.voted i buff)) buff).1
  have hflag := @count_dont_reissue N i fn (s.setJob fn j (.voted i buff)) buff
  refine ht.quiet (z := .voted i buff) ⟨hj, hc⟩ rfl (fun _ => rfl) hreq ?_ (fun k => (hflag k).trans ?_) ?_
    (fun k => count_peer_port _ buff k) (by simp)
  · rintro k b (he | he)
    · cases he
    · obtain ⟨rfl, rfl⟩ := Job.voted.inj he
      exact ht.replies fn _ _ (Or.inl (List.mem_of_getElem? hj))
  · refine or_congr_right ?_
    constructor
    · rintro ⟨⟨rfl, hex⟩, rfl⟩
      exact ⟨buff, ⟨rfl, rfl⟩, hex⟩
    · rintro ⟨b, ⟨rfl, hb⟩, hex⟩
      obtain ⟨rfl, rfl⟩ := Job.voted.inj hb
      exact ⟨⟨rfl, hex⟩, rfl⟩
  · by_cases hcommit : fn = .send_commit
    · subst hcommit
      obtain rfl := eq_commit_of_fn hfn
      exact Or.inr hs.before.2.2.2
    · refine Or.inl fun k => ?_
      rw [(count_rest _ buff).2, if_neg fun he => hcommit he.1]
      rfl

/-- **A step of a job keeps what the jobs say.** -/
theorem Work.told (hw : Work N s fn j s') (ho : Orderly N kind x s (.job fn j) s')
    (h : FlowAt N kind x s s.pc) (ht : Told kind x flags s) : Told kind x flags s' := by
  obtain ⟨r, n, hs, hfn⟩ := h.serving hw.moves
  have hcounted : Counted N s fn := hfn ▸ hs.counted
  cases hw with
  | @claim fn j i hj _ =>
    have hflags : ∀ k, (Function.update s.peer_addr i { s.peer_addr i with marked := true } k).dont_reissue =
        (s.peer_addr k).dont_reissue := update_dont_reissue rfl
    refine ht.quiet (z := .claimed i) ⟨hj, rfl⟩ rfl (fun _ => rfl) rfl (fun _ _ he => by simp at he) (fun k => ?_)
      (Or.inl hflags) (update_peer_port rfl) (by simp)
    show (Function.update s.peer_addr i _ k).dont_reissue = true ↔ _
    rw [hflags]
    simp
  | nonePeer hj hnone =>
    subst hfn
    exact absurd hnone (hs.firstUnmarked_ne hj)
  | @unknownHost j i hj =>
    have hsent := ho.connects j i rfl hj
    have hself : ((s.jobs .send_precommit).set j (.returned (some i)))[j]? = some (.returned (some i)) :=
      Pool.getElem?_set_of_getElem? hj
    simp only [setPeer_jobs, setJob_jobs, Function.update_self, hself] at hsent
    cases hsent
  | @connect j i sd hj hsd =>
    obtain rfl := eq_precommit_of_fn hfn
    exact ht.connect hs hj hsd
  | @commitFails j i hj hwhy =>
    obtain rfl := eq_commit_of_fn hfn
    obtain ⟨hp, -, ⟨hwr, hrep⟩, -, -⟩ := hs.before
    rcases hwhy with hport | heq
    · exact absurd hport (ht.port_ne hp hcounted hj)
    · rw [hwr, hrep] at heq
      cases kind <;> cases heq
  | @commit j i hj _ _ =>
    obtain rfl := eq_commit_of_fn hfn
    exact ht.commit hs hj
  | @closeFails fn j i hclose hj hwhy =>
    have hr := votes_of_close hfn hclose
    have hdr : (s.peer_addr i).dont_reissue = true :=
      hwhy.resolve_left (ht.port_ne (hs.before.precommits_of_close hr) hcounted hj)
    refine ht.close [] ⟨hj, rfl⟩ hs hfn hr rfl (fun k => ?_) (by rw [hdr]; rfl)
    rw [ite_self, List.append_nil]
    rfl
  | @close fn j i hclose hj _ hdr =>
    have hr := votes_of_close hfn hclose
    refine ht.close [if fn = .send_del then .abort else .quit] ⟨hj, rfl⟩ hs hfn hr rfl
      (fun k => sentTo_send _ i k _) ?_
    rw [hdr]
    split <;> rfl
  | @reply fn j i buff hj =>
    have hrep := ho.replies fn j i rfl hj
    have hself : ((s.jobs fn).set j (.replied i buff))[j]? = some (.replied i buff) :=
      Pool.getElem?_set_of_getElem? hj
    simp only [setJob_jobs, Function.update_self, hself, Option.some.injEq, Job.replied.injEq, true_and] at hrep
    refine ht.quiet (z := .replied i buff) ⟨hj, rfl⟩ rfl (fun _ => rfl) rfl ?_ (fun k => ?_)
      (Or.inl fun _ => rfl) (fun _ => rfl) (by simp)
    · rintro k b (he | he)
      · obtain ⟨rfl, rfl⟩ := Job.replied.inj he
        exact hrep
      · cases he
    · show (s.peer_addr k).dont_reissue = true ↔ _
      simp
  | @vote fn j i buff hj => exact ht.vote hs hfn hj

/-! A whole run. -/

/-- What a step of the coordinator leaves alone. -/
theorem Coordinate.kept (hc : Coordinate N kind s s') :
    (∀ fn, s'.jobs fn = s.jobs fn ∨ s'.jobs fn = s.jobs fn ++ [.queued]) ∧ s'.requests = s.requests ∧
      ∀ k, (s'.peer_addr k).dont_reissue = (s.peer_addr k).dont_reissue ∧
        (s'.peer_addr k).peer_port = (s.peer_addr k).peer_port := by
  cases hc with
  | @addJob r i _ _ =>
    refine ⟨fun fn => ?_, rfl, fun k => ⟨rfl, rfl⟩⟩
    by_cases hfn : fn = r.fn
    · subst hfn
      exact Or.inr (Function.update_self ..)
    · exact Or.inl (Function.update_of_ne hfn _ _)
  | @resetMark r i _ _ =>
    exact ⟨fun _ => Or.inl rfl, rfl, fun k => ⟨update_dont_reissue (a := { s.peer_addr i with marked := false }) rfl k,
      update_peer_port (a := { s.peer_addr i with marked := false }) rfl k⟩⟩
  | _ => exact ⟨fun _ => Or.inl rfl, rfl, fun k => ⟨rfl, rfl⟩⟩

theorem Coordinate.told (hc : Coordinate N kind s s') (ht : Told kind x flags s) : Told kind x flags s' := by
  obtain ⟨hjobs, hreq, hpeer⟩ := hc.kept
  have hmem : ∀ fn job, job ≠ .queued → (job ∈ s'.jobs fn ↔ job ∈ s.jobs fn) := by
    intro fn job hne
    rcases hjobs fn with hj | hj <;> rw [hj]
    simp [hne]
  have hreached : ∀ fn i, s'.reached fn i = s.reached fn i := by
    intro fn i
    unfold reached
    rcases hjobs fn with hj | hj <;> rw [hj]
    simp [List.any_append, Job.reached]
  have hsame : ∀ i, s'.sentTo i = s.sentTo i := fun i => by rw [sentTo, hreq, sentTo]
  refine ⟨fun i => ?_, fun fn i b hb => ?_, fun i => ?_, fun i hi => ?_, fun fn hb => ?_⟩
  · rw [hsame, ht.sent, Sync.told, Sync.told, (hpeer i).1]
    simp only [hreached]
  · rw [hmem fn _ (by simp), hmem fn _ (by simp)] at hb
    exact ht.replies fn i b hb
  · rw [(hpeer i).1, ht.flags]
    simp only [hmem .send_commit (.voted i _) (by simp)]
  · rw [hreached] at hi
    rw [(hpeer i).2]
    exact ht.ports i hi
  · rw [hmem fn _ (by simp)] at hb
    exact ht.noStray fn hb

/-- Where the coordinator stands, and what the jobs say. -/
def Orders (N : Nat) (kind : SyncKind) (x : Exchange) (flags : Nat → Bool) (s : Sync) : Prop :=
  FlowAt N kind x s s.pc ∧ Told kind x flags s

/-- **The step lemma.** -/
theorem Orderly.orders {a : Actor} (ho : Orderly N kind x s a s') (h : Orders N kind x flags s) :
    Orders N kind x flags s' := by
  have hstep := ho.step
  cases hstep with
  | coordinator hc => exact ⟨hc.flow ho h.1 h.2, hc.told h.2⟩
  | job hw => exact ⟨hw.flow h.1, hw.told ho h.1 h.2⟩

theorem Init.orders (h₀ : Init N s) (hreq : s.requests = []) :
    Orders N kind x (fun i => (s.peer_addr i).dont_reissue) s := by
  have hnot := fun fn i => reached_of_nil (h₀.jobs fn) i
  refine ⟨?_, ?_, ?_, ?_, ?_, ?_⟩
  · rw [h₀.pc]
    exact ⟨fun fn _ => h₀.jobs fn, Nat.zero_le N, by rw [h₀.jobs]; rfl,
      counted_of_nil (h₀.jobs _) h₀.pos_count h₀.neg_count h₀.marked⟩
  · intro i
    simp [sentTo, hreq, told, hnot]
  · intro fn i b hb
    simp [h₀.jobs] at hb
  · intro i
    simp [h₀.jobs]
  · intro i hi
    rw [hnot] at hi
    cases hi
  · intro fn hb
    rw [h₀.jobs] at hb
    cases hb

theorem orders_run {s₀ : Sync} {tr : List (Sync × Actor)} (h₀ : Init N s₀) (hreq : s₀.requests = [])
    (hrun : Runs.Run (Orderly N kind x) s₀ tr s) :
    Orders N kind x (fun i => (s₀.peer_addr i).dont_reissue) s :=
  hrun.inv_of_step (h₀.orders hreq) fun _ _ _ h ho => ho.orders h

/-! When all jobs have run. -/

/-- Every peer has been reached by a job of the last round. -/
theorem Serving.reached_all (h : Serving N kind x s r N) (ht : Told kind x flags s)
    (hrun : ∀ fn, ∀ job ∈ s.jobs fn, job.finished = true) (hi : i < N) : s.reached r.fn i = true := by
  have hmarked : ∀ job ∈ s.jobs r.fn, job.mark?.isSome := by
    intro job hjob
    have hf := hrun r.fn job hjob
    match job, hf with
    | .voted _ _, _ => rfl
    | .returned (some _), _ => rfl
    | .returned none, _ => exact absurd hjob (ht.noStray r.fn)
  obtain ⟨job, hjob, hm⟩ := List.mem_filterMap.1 (mem_marks h.length hmarked h.counted.nodup h.counted.lt hi)
  refine List.any_eq_true.2 ⟨job, hjob, ?_⟩
  have hf := hrun r.fn job hjob
  cases job with
  | voted m b => simpa [Job.reached, Job.mark?] using hm
  | returned m => simpa [Job.reached, Job.mark?] using hm
  | _ => cases hf

/-- The flag of a peer whose vote on COMMIT is in. -/
theorem Told.flag_iff (ht : Told kind x flags s) (hc : AllVoted N (s.jobs .send_commit)) (hi : i < N) :
    (s.peer_addr i).dont_reissue = (flags i || x.repliesExists i) := by
  rw [Bool.eq_iff_iff, ht.flags, Bool.or_eq_true]
  refine or_congr_right ?_
  constructor
  · rintro ⟨b, hb, hex⟩
    rw [ht.replies _ i b (Or.inr hb)] at hex
    exact decide_eq_true hex
  · intro hex
    obtain ⟨b, hb⟩ := hc.mem hi
    refine ⟨b, hb, ?_⟩
    rw [ht.replies _ i b (Or.inr hb)]
    exact of_decide_eq_true hex

/-- A peer that replies 'negative_exists' does not reply 'positive'. -/
theorem Exchange.not_exists_of_positive (h : Job.positive (x.reply .send_commit i) = true) :
    x.repliesExists i = false := by
  unfold Job.positive at h
  unfold Exchange.repliesExists
  rw [decide_eq_true_eq] at h
  rw [h]
  decide

/-- The `dont_reissue` flags are clear where they matter, and `sync_replace` takes neither of its two exits
    that the document does not have: after a PRECOMMIT that not all peers agree to, and after a
    read-back that returns -2. -/
structure MeetsProtocol (N : Nat) (kind : SyncKind) (x : Exchange) (flags : Nat → Bool) : Prop where
  flags : ∀ i, i < N → flags i = true → x.AllPositive N .send_precommit ∧ x.repliesExists i = true
  precommit : kind = .replace → x.AllPositive N .send_precommit
  readBack : kind = .replace → N = 0 ∨ ¬x.AllPositive N .send_commit ∨ x.local_return < 0 ∨
    0 ≤ x.read_return ∨ x.read_return = -1

/-- What a peer was sent when the coordinator closes without a COMMIT. -/
theorem Told.sentTo_early (ht : Told kind x flags s) (hp : AllVoted N (s.jobs .send_precommit))
    (hc : s.jobs .send_commit = []) (hd : s.jobs .send_del = []) (hi : i < N) :
    s.sentTo i = .precommit :: if flags i || !s.reached .send_quit i then [] else [.quit] := by
  have hflag : (s.peer_addr i).dont_reissue = flags i := by
    rw [Bool.eq_iff_iff, ht.flags, hc]
    simp
  rw [ht.sent, told, hp.reached hi, reached_of_nil hc, reached_of_nil hd, hflag]
  cases flags i <;> cases s.reached .send_quit i <;> rfl

/-- What a peer was sent when the coordinator closes after COMMIT with `q`. -/
theorem Told.sentTo_late (ht : Told kind x flags s) (hp : AllVoted N (s.jobs .send_precommit))
    (hc : AllVoted N (s.jobs .send_commit)) {q : Request}
    (hq : (if s.reached .send_del i then [.abort] else []) ++ (if s.reached .send_quit i then [.quit] else []) = [q])
    (hi : i < N) :
    s.sentTo i = .precommit :: .commit kind :: if flags i || x.repliesExists i then [] else [q] := by
  rw [ht.sent, told, hp.reached hi, hc.reached hi, ht.flag_iff hc hi, hq]
  rfl

theorem Exchange.localFails_of_fails (h : x.Fails kind) : x.LocalFails := by
  refine h.imp id fun hf => ?_
  cases kind with
  | write => simpa [readBackFails] using hf
  | replace =>
    have : x.read_return = -1 := by simpa [readBackFails] using hf
    omega

/-- After a vote on COMMIT that is not positive. -/
theorem conforms_negative (hpos : x.AllPositive N .send_precommit) (hneg : ¬x.AllPositive N .send_commit)
    (hsent : ∀ i, i < N → s.sentTo i =
      .precommit :: .commit kind :: if flags i || x.repliesExists i then [] else [.abort]) :
    (∀ i, i < N → s.sentTo i = protocol2pc N kind x i) ↔ MeetsProtocol N kind x flags := by
  have hone : ∀ i, i < N → (s.sentTo i = protocol2pc N kind x i ↔ (flags i = true → x.repliesExists i = true)) := by
    intro i hi
    rw [hsent i hi, protocol2pc, if_pos hpos, if_neg hneg]
    cases flags i <;> cases x.repliesExists i <;> simp
  constructor
  · intro h
    exact ⟨fun i hi hf => ⟨hpos, (hone i hi).1 (h i hi) hf⟩, fun _ => hpos, fun _ => Or.inr (Or.inl hneg)⟩
  · intro h i hi
    exact (hone i hi).2 fun hf => (h.flags i hi hf).2

/-- After both votes were positive, the coordinator closes with `q`. -/
theorem conforms_positive (hpos : x.AllPositive N .send_precommit) (hcommit : x.AllPositive N .send_commit)
    {q : Request} (hsent : ∀ i, i < N → s.sentTo i =
      .precommit :: .commit kind :: if flags i || x.repliesExists i then [] else [q])
    (hq : q = (if x.LocalFails then .abort else .quit) ↔ (kind = .replace → x.local_return < 0 ∨
      0 ≤ x.read_return ∨ x.read_return = -1)) :
    (∀ i, i < N → s.sentTo i = protocol2pc N kind x i) ↔ MeetsProtocol N kind x flags := by
  have hexists : ∀ i, i < N → x.repliesExists i = false := fun i hi => Exchange.not_exists_of_positive (hcommit i hi)
  have hone : ∀ i, i < N → (s.sentTo i = protocol2pc N kind x i ↔
      flags i = false ∧ q = if x.LocalFails then .abort else .quit) := by
    intro i hi
    have hproto : protocol2pc N kind x i =
        [.precommit, .commit kind, if x.LocalFails then .abort else .quit] := by
      rw [protocol2pc, if_pos hpos, if_pos hcommit]
      split <;> rfl
    rw [hsent i hi, hproto, hexists i hi]
    cases flags i <;> simp
  constructor
  · intro h
    refine ⟨fun i hi hf => ?_, fun _ => hpos, fun hk => ?_⟩
    · rw [((hone i hi).1 (h i hi)).1] at hf
      cases hf
    · rcases Nat.eq_zero_or_pos N with hN | hN
      · exact Or.inl hN
      · exact Or.inr (Or.inr (hq.1 ((hone 0 hN).1 (h 0 hN)).2 hk))
  · intro h i hi
    refine (hone i hi).2 ⟨?_, hq.2 fun hk => ?_⟩
    · by_contra hf
      have := (h.flags i hi (by simpa using hf)).2
      rw [hexists i hi] at this
      cases this
    · rcases h.readBack hk with hN | hneg | hlocal
      · omega
      · exact absurd hcommit hneg
      · exact hlocal

/-- **Conformance.** When the coordinator has returned and its jobs have run, every peer was sent what
    protocol2pc.txt says if and only if the exchange meets the condition. -/
theorem sync_conforms_iff {s₀ : Sync} {tr : List (Sync × Actor)} (h₀ : Init N s₀) (hreq : s₀.requests = [])
    (hrun : Runs.Run (Orderly N kind x) s₀ tr s) {ret : Int} (hret : s.pc = .returned ret)
    (hjobs : ∀ fn, ∀ job ∈ s.jobs fn, job.finished = true) :
    (∀ i, i < N → s.sentTo i = protocol2pc N kind x i) ↔
      MeetsProtocol N kind x fun i => (s₀.peer_addr i).dont_reissue := by
  obtain ⟨hflow, ht⟩ := orders_run h₀ hreq hrun
  rw [hret] at hflow
  generalize (fun i => (s₀.peer_addr i).dont_reissue) = flags at ht ⊢
  have hproto : ¬x.AllPositive N .send_precommit → ∀ i, protocol2pc N kind x i = [.precommit, .quit] := by
    intro hneg i
    rw [protocol2pc, if_neg hneg]
  rcases hflow with ⟨r, hr, hs⟩ | hg
  · cases r with
    | precommit => cases hr
    | commit => cases hr
    | abort =>
      obtain ⟨hp, hpos, hc, hq, hwhy⟩ := hs.before
      have hsent : ∀ i, i < N → s.sentTo i =
          .precommit :: .commit kind :: if flags i || x.repliesExists i then [] else [.abort] := by
        intro i hi
        have hd : s.reached .send_del i = true := hs.reached_all ht hjobs hi
        exact ht.sentTo_late hp hc (by simp [hd, reached_of_nil hq]) hi
      by_cases hcommit : x.AllPositive N .send_commit
      · have hfails := hwhy hcommit
        refine conforms_positive hpos hcommit hsent ?_
        rw [if_pos (Exchange.localFails_of_fails hfails)]
        refine ⟨fun _ hk => ?_, fun _ => rfl⟩
        subst hk
        exact hfails.imp id fun hf => Or.inr (by simpa [readBackFails] using hf)
      · exact conforms_negative hpos hcommit hsent
    | quit ret =>
      obtain ⟨hp, hd, hwhy⟩ := hs.before
      have hq : ∀ i, i < N → s.reached .send_quit i = true := fun i hi => hs.reached_all ht hjobs hi
      rcases hwhy with ⟨rfl, hneg, hc⟩ | ⟨hpos, hc, hcommit, hok⟩
      · -- QUIT after PRECOMMIT
        have hone : ∀ i, i < N → (s.sentTo i = protocol2pc N .write x i ↔ flags i = false) := by
          intro i hi
          rw [ht.sentTo_early hp hc hd hi, hproto hneg, hq i hi]
          cases flags i <;> simp
        constructor
        · intro h
          refine ⟨fun i hi hf => ?_, fun hk => (by cases hk), fun hk => (by cases hk)⟩
          rw [(hone i hi).1 (h i hi)] at hf
          cases hf
        · intro h i hi
          rw [hone i hi, ← Bool.not_eq_true]
          exact fun hf => hneg (h.flags i hi hf).1
      · -- QUIT after the local operation
        refine conforms_positive hpos hcommit (q := .quit) (fun i hi => ?_) ?_
        · exact ht.sentTo_late hp hc (by simp [hq i hi, reached_of_nil hd]) hi
        · have hlocal : x.LocalFails ↔ x.read_return < 0 := ⟨fun h => h.resolve_left fun hl => hok (Or.inl hl), Or.inr⟩
          have hread : readBackFails kind x.read_return = false := by
            rw [← Bool.not_eq_true]
            exact fun hf => hok (Or.inr hf)
          have hl : ¬x.local_return < 0 := fun hl => hok (Or.inl hl)
          cases kind with
          | write =>
            have : ¬x.LocalFails := by
              rw [hlocal]
              simpa [readBackFails] using hread
            simp [this]
          | replace =>
            have hne : x.read_return ≠ -1 := by simpa [readBackFails] using hread
            by_cases hneg : x.read_return < 0
            · rw [if_pos (hlocal.2 hneg)]
              simp only [reduceCtorEq, false_iff, true_imp_iff]
              omega
            · rw [if_neg fun h => hneg (hlocal.1 h)]
              simp only [true_iff]
              omega
  · -- `sync_replace` returned after PRECOMMIT
    have hneg := hg.precommit
    obtain ⟨i, hi⟩ : ∃ i, ¬(i < N → Job.positive (x.reply .send_precommit i) = true) := not_forall.1 hneg
    have hi : i < N := (Classical.not_imp.1 hi).1
    constructor
    · intro h
      have := h i hi
      rw [ht.sentTo_early hg.precommits (hg.jobs _ (by decide)) (hg.jobs _ (by decide)) hi, hproto hneg,
        reached_of_nil (hg.jobs _ (by decide))] at this
      simp at this
    · intro h
      exact absurd (h.precommit hg.kind) hneg

/-! One peer that does not agree to PRECOMMIT. -/

/-- A step of the coordinator that is none of those that the exchange decides. -/
theorem Orderly.of_coordinate (hc : Coordinate N kind s s')
    (hadd : ∀ r i, s.pc = .add r i → i < N → s'.pc = .add r (i + 1))
    (hwait : ∀ r woken, s.pc = .wait r woken → s.pos_count + s.neg_count = N)
    (hlocal : s.pc ≠ .localWrite ∧ s.pc ≠ .readBack) : Orderly N kind x s .coordinator s' where
  step := .coordinator hc
  queues _ := hadd
  awaits _ := hwait
  connects _ _ ha := by cases ha
  replies _ _ _ ha := by cases ha
  writes _ hpc := absurd hpc hlocal.1
  reads _ hpc := absurd hpc hlocal.2

/-- A step of a job that connects or replies as the exchange says, if it does either. -/
theorem Orderly.of_work (hw : Work N s fn j s')
    (hconnect : ∀ i, fn = .send_precommit → (s.jobs .send_precommit)[j]? = some (.claimed i) →
      (s'.jobs .send_precommit)[j]? = some (.sent i))
    (hreply : ∀ i, (s.jobs fn)[j]? = some (.sent i) → (s'.jobs fn)[j]? = some (.replied i (x.reply fn i))) :
    Orderly N kind x s (.job fn j) s' where
  step := .job hw
  queues ha := by cases ha
  awaits ha := by cases ha
  connects _ i ha := by
    obtain ⟨rfl, rfl⟩ := Actor.job.inj ha
    exact hconnect i rfl
  replies _ _ i ha := by
    obtain ⟨rfl, rfl⟩ := Actor.job.inj ha
    exact hreply i
  writes ha := by cases ha
  reads ha := by cases ha

def refused : Exchange := ⟨fun _ _ => "negative\n".toList, 0, 0⟩

/-- PRECOMMIT is sent to the peer, and its vote is in. -/
theorem onePeer_refused (kind : SyncKind) : ∃ tr s, Runs.Run (Orderly 1 kind refused) onePeer tr s ∧
    s.pc = .test .precommit ∧ s.pos_count = 0 ∧ s.requests = [(0, .precommit)] ∧
    s.jobs .send_precommit = [.voted 0 "negative\n".toList] ∧
    (∀ fn, fn ≠ .send_precommit → s.jobs fn = []) ∧ s.peer_addr 0 = ⟨true, 5, false⟩ := by
  have run := (Runs.Run.nil : Runs.Run (Orderly 1 kind refused) onePeer [] onePeer)
  have run := run.snoc (.of_coordinate (.addJob rfl (by decide)) (fun _ _ h _ => by cases h; rfl)
    (fun _ _ h => by cases h) (by decide))
  have run := run.snoc (.of_coordinate (.added rfl) (fun _ _ h hi => by cases h; exact absurd hi (by decide))
    (fun _ _ h => by cases h) (by decide))
  have run := run.snoc (.of_coordinate (.blocks rfl rfl) (fun _ _ h => by cases h) (fun _ _ h => by cases h)
    (by decide))
  have run := run.snoc (.of_work (@Work.claim 1 _ .send_precommit 0 0 rfl rfl) (fun _ _ h => by cases h)
    (fun _ h => by cases h))
  have run := run.snoc (.of_work (@Work.connect 1 _ 0 0 5 rfl (by decide)) (fun _ _ h => by cases h; rfl)
    (fun _ h => by cases h))
  have run := run.snoc (.of_work (@Work.reply 1 _ .send_precommit 0 0 "negative\n".toList rfl)
    (fun _ _ h => by cases h) (fun _ h => by cases h; rfl))
  have run := run.snoc (.of_work (@Work.vote 1 _ .send_precommit 0 0 "negative\n".toList rfl)
    (fun _ _ h => by cases h) (fun _ h => by cases h))
  have run := run.snoc (.of_coordinate (.wakes rfl) (fun _ _ h => by cases h) (fun _ _ h => by cases h; rfl)
    (by decide))
  refine ⟨_, _, run, rfl, rfl, rfl, rfl, fun fn hfn => ?_, rfl⟩
  cases fn <;> first | rfl | exact absurd rfl hfn

theorem protocol2pc_refused (kind : SyncKind) : protocol2pc 1 kind refused 0 = [.precommit, .quit] := by
  have hneg : ¬refused.AllPositive 1 .send_precommit := by decide
  rw [protocol2pc, if_neg hneg]

/-- `sync_replace` sends no QUIT to a peer that does not agree to PRECOMMIT. -/
theorem sync_replace_sends_no_quit :
    ¬∀ (N : Nat) (kind : SyncKind) (x : Exchange) (s₀ s : Sync) (tr : List (Sync × Actor)) (ret : Int),
      Init N s₀ → s₀.requests = [] → Runs.Run (Orderly N kind x) s₀ tr s → s.pc = .returned ret →
      (∀ fn, ∀ job ∈ s.jobs fn, job.finished = true) → ∀ i, i < N → s.sentTo i = protocol2pc N kind x i := by
  intro hall
  obtain ⟨tr, s, hrun, hpc, hpos, hreq, hjobs, hnil, -⟩ := onePeer_refused .replace
  have hne : s.pos_count ≠ 1 := by rw [hpos]; decide
  have hrun := hrun.snoc (.of_coordinate (.negative hpc hne) (fun _ _ h => by rw [hpc] at h; cases h)
    (fun _ _ h => by rw [hpc] at h; cases h) (by rw [hpc]; decide))
  have hsent := hall 1 .replace refused onePeer _ _ (-1) onePeer_init rfl hrun rfl (fun fn job hjob => ?_) 0 (by decide)
  · rw [protocol2pc_refused, sentTo] at hsent
    simp [hreq] at hsent
  · change job ∈ s.jobs fn at hjob
    by_cases hfn : fn = .send_precommit
    · subst hfn
      rw [hjobs] at hjob
      obtain rfl := List.mem_singleton.1 hjob
      rfl
    · rw [hnil fn hfn] at hjob
      cases hjob

/-- `sync_write` sends it, as the document has it. -/
theorem sync_write_conforms_refused : ∃ tr s, Runs.Run (Orderly 1 .write refused) onePeer tr s ∧
    s.pc = .returned (-1) ∧ ∀ i, i < 1 → s.sentTo i = protocol2pc 1 .write refused i := by
  obtain ⟨tr, s, run, hpc, hpos, -, hjobs, hnil, hpeer⟩ := onePeer_refused .write
  have hne : s.pos_count ≠ 1 := by rw [hpos]; decide
  have hquit : (s.jobs .send_quit ++ [Job.queued])[0]? = some .queued := by rw [hnil _ (by decide)]; rfl
  have run := run.snoc (.of_coordinate (.negative hpc hne) (fun _ _ h => by rw [hpc] at h; cases h)
    (fun _ _ h => by rw [hpc] at h; cases h) (by rw [hpc]; decide))
  have run := run.snoc (.of_coordinate (.resetPos rfl) (fun _ _ h => by cases h) (fun _ _ h => by cases h)
    (by simp [afterNegative]))
  have run := run.snoc (.of_coordinate (.resetNeg rfl) (fun _ _ h => by cases h) (fun _ _ h => by cases h)
    (by simp))
  have run := run.snoc (.of_coordinate (.resetMark rfl (by decide)) (fun _ _ h => by cases h)
    (fun _ _ h => by cases h) (by simp))
  have run := run.snoc (.of_coordinate (.resetDone rfl) (fun _ _ h => by cases h) (fun _ _ h => by cases h)
    (by simp))
  have run := run.snoc (.of_coordinate (.addJob rfl (by decide)) (fun _ _ h _ => by cases h; rfl)
    (fun _ _ h => by cases h) (by simp))
  have run := run.snoc (.of_coordinate (.added rfl) (fun _ _ h hi => by cases h; exact absurd hi (by decide))
    (fun _ _ h => by cases h) (by simp))
  have run := run.snoc (.of_work (@Work.claim 1 _ .send_quit 0 0 hquit rfl) (fun _ h => by cases h)
    (fun _ h => by cases hquit.symm.trans h))
  have hclaimed : ((s.jobs .send_quit ++ [Job.queued]).set 0 (.claimed 0))[0]? = some (.claimed 0) :=
    Pool.getElem?_set_of_getElem? hquit
  have run := run.snoc (.of_work (@Work.close 1 _ .send_quit 0 0 (Or.inr rfl) hclaimed
    (by show (s.peer_addr 0).peer_port ≠ err_host; rw [hpeer]; decide)
    (by show (s.peer_addr 0).dont_reissue = false; rw [hpeer])) (fun _ h => by cases h)
    (fun _ h => by cases hclaimed.symm.trans h))
  have hmeets : MeetsProtocol 1 .write refused fun i => (onePeer.peer_addr i).dont_reissue :=
    ⟨fun i _ hflag => (by cases hflag), fun hkind => (by cases hkind), fun hkind => (by cases hkind)⟩
  refine ⟨_, _, run, rfl, (sync_conforms_iff onePeer_init rfl run rfl fun fn job hjob => ?_).2 hmeets⟩
  cases fn with
  | send_precommit =>
    change job ∈ s.jobs .send_precommit at hjob
    rw [hjobs] at hjob
    obtain rfl := List.mem_singleton.1 hjob
    rfl
  | send_commit =>
    change job ∈ s.jobs .send_commit at hjob
    rw [hnil _ (by decide)] at hjob
    cases hjob
  | send_del =>
    change job ∈ s.jobs .send_del at hjob
    rw [hnil _ (by decide)] at hjob
    cases hjob
  | send_quit =>
    change job ∈ ((s.jobs .send_quit ++ [Job.queued]).set 0 (.claimed 0)).set 0 (.returned (some 0)) at hjob
    rw [hnil _ (by decide)] at hjob
    obtain rfl := List.mem_singleton.1 hjob
    rfl

end Sync

end BulletinBoard
