import BulletinBoard.Conformance
import BulletinBoard.TwoServers

/- A WRITE at a server with N peers: `sync_write` and the jobs of the sender team, as in
   Coordinator.lean, and behind each connection a peer session with a bbfile of its own, which
   only this session uses. A request that a job has sent is carried out at any later time,
   and a reply is received later still, or too late and never; a reply that is received comes
   in one piece. Connections and opens may fail, but for the opens of an ABORT. What is
   proved: when every job is queued and no wait ends before all votes are in, either
   `sync_write` returns 0 and its line is on file at every server, or it returns -1 and, when
   the sessions have carried out what they were sent, no peer's file reads otherwise than
   before. -/
namespace BulletinBoard

namespace Cluster

/-- `line_a`. -/
structure Line where
  msg_nmbr : CStr
  poster : CStr
  message : CStr
  deriving DecidableEq, Repr

/-- The text of a request. -/
def Line.request (l : Line) : Request → CStr
  | .precommit => precommitRequest l.poster
  | .commit .write => commitWriteRequest l.msg_nmbr l.message
  | .commit .replace => commitReplaceRequest l.msg_nmbr l.message
  | .abort => abortRequest
  | .quit => quitRequest

/-- The line for the own file. -/
def Line.text (l : Line) : CStr := mkLine l.msg_nmbr l.poster l.message

/-- The name that a session takes from the PRECOMMIT. -/
def Line.peerUser (l : Line) : CStr := textFrom 1 (commandOf (precommitRequest l.poster))

/-- The line that a session makes of the two requests. -/
def Line.peerText (l : Line) : CStr :=
  mkLine l.msg_nmbr l.peerUser (textFrom 3 (commandOf (commitWriteRequest l.msg_nmbr l.message)))

/-- The requests fit in the buffers of `readline`. -/
structure Line.Fits (l : Line) : Prop where
  number : IsNumeral l.msg_nmbr
  precommit : Received (precommitRequest l.poster)
  commit : Received (commitWriteRequest l.msg_nmbr l.message)

/-- The end of a connection at a peer: the requests that its session has carried out, the session,
    the bbfile, the replies it has sent, and how many of them the coordinator has received. -/
structure Link where
  carried : List Request
  session : Peer
  bbfile : List Char
  replies : List PeerReply
  received : Nat

end Cluster

structure Cluster where
  sync : Sync
  links : Nat → Cluster.Link
  bbfile : List Char

namespace Cluster

def setLink (s : Cluster) (i : Nat) (k : Link) : Cluster := { s with links := Function.update s.links i k }

/-- Whose step it is; of a session, with the request and which opens succeed. -/
inductive Actor where
  | coordinator
  | job (fn : SendFn) (j : Nat)
  | session (i : Nat) (r : Request) (pattern : List Bool)
  deriving DecidableEq, Repr

inductive Step (N : Nat) (l : Line) (s : Cluster) : Actor → Cluster → Prop where
  | coordinate {s' : Sync} : Sync.Coordinate N .write s.sync s' → s.sync.pc ≠ .localWrite →
      s.sync.pc ≠ .readBack → Step N l s .coordinator { s with sync := s' }
  | localWrite {ret : Int} {d : Disk} {pattern : List Bool} : s.sync.pc = .localWrite →
      writeDescriptor l.msg_nmbr l.poster l.message (diskWith s.bbfile pattern) = (ret, d) →
      Step N l s .coordinator { s with
        sync := { s.sync with
          write_return := some ret, pc := if ret < 0 then .resetPos .abort else .readBack }
        bbfile := d.bbfile }
  | readBack {ret : Int} {text : Option CStr} {d : Disk} {pattern : List Bool} {junk : List Char} :
      s.sync.pc = .readBack →
      readDescriptor junk l.msg_nmbr (diskWith s.bbfile pattern) = some ((ret, text), d) →
      Step N l s .coordinator { s with
        sync := { s.sync with
          read_return := some ret
          pc := if Sync.readBackFails .write ret then .resetPos .abort else .resetPos (.quit 0) } }
  | job {fn : SendFn} {j : Nat} {s' : Sync} : Sync.Work N s.sync fn j s' →
      (∀ i, (s.sync.jobs fn)[j]? ≠ some (.sent i)) → Step N l s (.job fn j) { s with sync := s' }
  | receives {fn : SendFn} {i j : Nat} {reply : PeerReply} : (s.sync.jobs fn)[j]? = some (.sent i) →
      (s.links i).replies[(s.links i).received]? = some reply →
      Step N l s (.job fn j)
        ({ s with sync := s.sync.setJob fn j (.replied i reply.text) }.setLink i
          { s.links i with received := (s.links i).received + 1 })
  -- no reply in time leaves the buffer empty
  | timesOut {fn : SendFn} {i j : Nat} : (s.sync.jobs fn)[j]? = some (.sent i) →
      Step N l s (.job fn j) { s with sync := s.sync.setJob fn j (.replied i []) }
  | carriesOut {i : Nat} {r : Request} {rest : List Request} {pattern : List Bool} {junk : Junk} {session : Peer}
      {reply : Option PeerReply} {d : Disk} :
      s.sync.sentTo i = (s.links i).carried ++ r :: rest → (s.links i).session.pc = .ready →
      (s.links i).session.run junk (l.request r) (diskWith (s.links i).bbfile pattern) = some (session, reply, d) →
      Step N l s (.session i r pattern)
        (s.setLink i
          { carried := (s.links i).carried ++ [r], session := session, bbfile := d.bbfile,
            replies := (s.links i).replies ++ reply.toList, received := (s.links i).received })

/-- A step in which a job is queued, a wait ends with all votes in, and the opens of an ABORT
    succeed. -/
structure Calm (N : Nat) (l : Line) (s : Cluster) (a : Actor) (s' : Cluster) : Prop where
  step : Step N l s a s'
  queues : a = .coordinator → ∀ r i, s.sync.pc = .add r i → i < N → s'.sync.pc = .add r (i + 1)
  awaits : a = .coordinator → ∀ r woken, s.sync.pc = .wait r woken → s.sync.pos_count + s.sync.neg_count = N
  undoes : ∀ i pattern, a = .session i .abort pattern → pattern.getD 0 true = true ∧ pattern.getD 1 true = true

/-- Before the first job is queued: the files have the lines `own` and `peers i`, and a session has
    in its undo buffer what nobody initialised. -/
structure Start (N : Nat) (own : List CStr) (peers : Nat → List CStr) (s : Cluster) : Prop where
  sync : Sync.Init N s.sync
  requests : s.sync.requests = []
  write_return : s.sync.write_return = none
  dont_reissue : ∀ i, i < N → (s.sync.peer_addr i).dont_reissue = false
  own_file : s.bbfile = fileOf own
  clean : ∀ i, i < N → ∀ x ∈ peers i, Clean x
  int : ∀ i, i < N → ((fileOf (peers i)).length : Int) ≤ INT_MAX
  fresh : ∀ i, i < N → (s.links i).carried = [] ∧ (s.links i).replies = [] ∧ (s.links i).received = 0
  peer_file : ∀ i, i < N → (s.links i).bbfile = fileOf (peers i)
  ready : ∀ i, i < N → (s.links i).session.pc = .ready
  no_write : ∀ i, i < N → (s.links i).session.undo_command ≠ "write".toList
  no_replace : ∀ i, i < N → (s.links i).session.undo_command ≠ "replace".toList

/-- All that the session of a connection was sent has been carried out, as far as it was open to it. -/
def Link.Idle (k : Link) (sent : List Request) : Prop := k.carried = sent ∨ k.session.pc = .closed

/-- The file reads as the lines do. -/
def ReadsAs (file : List Char) (ls : List CStr) : Prop :=
  ∀ (junk : List Char) (id : CStr), IsNumeral id →
    (readDescriptor junk id (diskOf file)).map Prod.fst = (readDescriptor junk id (diskOf (fileOf ls))).map Prod.fst

/-! A session: what it has made of the requests it carried out. -/

/-- The file is as it was, and an ABORT leaves it so. -/
structure Kept (ls : List CStr) (k : Link) : Prop where
  file : k.bbfile = fileOf ls
  no_write : k.session.undo_command ≠ "write".toList
  no_replace : k.session.undo_command ≠ "replace".toList

/-- The line is on file. -/
structure Wrote (l : Line) (ls : List CStr) (k : Link) : Prop where
  free : lineOf l.msg_nmbr ls = none
  file : k.bbfile = fileOf (ls ++ [l.peerText])
  undo_command : k.session.undo_command = "write".toList
  undo_nmbr : k.session.undo_nmbr = l.msg_nmbr

/-- The line was on file and has been deleted. -/
structure Undone (l : Line) (ls : List CStr) (k : Link) : Prop where
  free : lineOf l.msg_nmbr ls = none
  file : k.bbfile = fileOf (deleteIn l.msg_nmbr (ls ++ [l.peerText]))

/-- By the requests carried out. -/
inductive Served (l : Line) (ls : List CStr) (k : Link) : List Request → Prop where
  | fresh : k.session.pc = .ready → k.replies = [] → Kept ls k → Served l ls k []
  | agreed : k.session.pc = .ready → k.session.user = l.peerUser → k.replies = [.positive] → Kept ls k →
      Served l ls k [.precommit]
  | refused : k.session.pc = .closed → k.replies.length ≤ 1 → k.bbfile = fileOf ls → Served l ls k [.precommit]
  | wrote : k.session.pc = .ready → k.replies = [.positive, .positive] → Wrote l ls k →
      Served l ls k [.precommit, .commit .write]
  | kept {reply : Option PeerReply} : reply ≠ some .positive → k.replies = .positive :: reply.toList → Kept ls k →
      Served l ls k [.precommit, .commit .write]
  | aborted : k.session.pc = .closed → k.bbfile = fileOf ls ∨ Undone l ls k →
      Served l ls k [.precommit, .commit .write, .abort]
  | quitEarly : k.session.pc = .closed → k.replies.length ≤ 1 → k.bbfile = fileOf ls →
      Served l ls k [.precommit, .quit]
  | quitWrote : k.session.pc = .closed → Wrote l ls k → Served l ls k [.precommit, .commit .write, .quit]
  | quitKept {reply : Option PeerReply} : k.session.pc = .closed → reply ≠ some .positive →
      k.replies = .positive :: reply.toList → k.bbfile = fileOf ls →
      Served l ls k [.precommit, .commit .write, .quit]

/-- The requests of a session, as far as they have come. -/
def Path (rs : List Request) : Prop :=
  rs <+: [.precommit, .commit .write, .abort] ∨ rs <+: [.precommit, .commit .write, .quit] ∨
    rs <+: [.precommit, .quit]

theorem Path.shorter {rs rs' : List Request} (h : Path rs') (hp : rs <+: rs') : Path rs := by
  rcases h with h | h | h
  · exact Or.inl (hp.trans h)
  · exact Or.inr (Or.inl (hp.trans h))
  · exact Or.inr (Or.inr (hp.trans h))

theorem Path.first {r : Request} (h : Path [r]) : r = .precommit := by
  simpa [Path] using h

theorem Path.second {r : Request} (h : Path [.precommit, r]) : r = .commit .write ∨ r = .quit := by
  simpa [Path] using h

theorem Path.third {r : Request} (h : Path [.precommit, .commit .write, r]) : r = .abort ∨ r = .quit := by
  simpa [Path] using h

section
variable {l : Line} {ls : List CStr} {k : Link} {rs : List Request}

theorem Line.Fits.no_sep (hl : l.Fits) : ∀ c ∈ l.msg_nmbr, isWordSep c = false :=
  fun c hc => digit_no_sep (hl.number.2 c hc)

theorem Line.Fits.no_slash (hl : l.Fits) : ∀ c ∈ l.msg_nmbr, isSlash c = false := isNumeral_no_slash hl.number

/-- The line of a session whose requests fit. -/
theorem Line.Fits.clean (hl : l.Fits) : Clean l.peerText := by
  obtain ⟨hnmbr, -, -⟩ := hl.commit.of_commit_write
  have huser := Unbroken.textFrom (fun w hw => (hl.precommit.words w hw).1) 1
  have hmessage := Unbroken.textFrom (fun w hw => (hl.commit.words w hw).1) 3
  have hulen := (textFrom_length 1 (commandOf (precommitRequest l.poster))).trans hl.precommit.room_le
  have hmlen := (textFrom_length 3 (commandOf (commitWriteRequest l.msg_nmbr l.message))).trans hl.commit.room_le
  obtain ⟨-, -, hlen⟩ := hl.commit.of_commit_write
  unfold MAX_LEN at hlen hulen hmlen
  apply clean_mkLine hnmbr huser hmessage
  unfold BBLINE_LEN
  omega

theorem Line.Fits.firstField (hl : l.Fits) : firstField l.peerText = l.msg_nmbr := firstField_mkLine hl.no_slash

/-- The line written last is found where the file ended. -/
theorem Wrote.start (hl : l.Fits) (hc : ∀ x ∈ ls, Clean x) (hfree : lineOf l.msg_nmbr ls = none) :
    lineStart l.msg_nmbr (fileOf (ls ++ [l.peerText])) = (fileOf ls).length :=
  lineStart_append (.of_lineOf_none hc hfree) hl.clean (by simp) hl.firstField

theorem Wrote.lineOf (hl : l.Fits) (hfree : lineOf l.msg_nmbr ls = none) :
    BulletinBoard.lineOf l.msg_nmbr (ls ++ [l.peerText]) = some l.peerText := by
  rw [lineOf_append, hfree, Option.none_or]
  simp [BulletinBoard.lineOf, hl.firstField]

/-- A deleted line is read by nobody. -/
theorem Undone.readsAs (h : Undone l ls k) (hl : l.Fits) (hc : ∀ x ∈ ls, Clean x) : ReadsAs k.bbfile ls := by
  have hfile : k.bbfile = fileOf (ls ++ [deletedLine l.peerText.length]) := by
    rw [h.file, deleteIn_append (.of_lineOf_none hc h.free) hl.firstField]
  have hclean : ∀ x ∈ ls ++ [deletedLine l.peerText.length], Clean x :=
    clean_snoc hc (clean_deletedLine hl.clean.length_lt)
  intro junk id hid
  have hline : BulletinBoard.lineOf id (ls ++ [deletedLine l.peerText.length]) = BulletinBoard.lineOf id ls := by
    rw [lineOf_append]
    simp [BulletinBoard.lineOf, firstField_deleted_ne hid]
  rw [readDescriptor_diskOf hfile hclean, readDescriptor_diskOf rfl hc, hline]
  rfl

/-- What the coordinator receives is nothing to the session. -/
theorem Served.receives (h : Served l ls k rs) (n : Nat) : Served l ls { k with received := n } rs := by
  have hkept : Kept ls k → Kept ls { k with received := n } := fun hk => ⟨hk.file, hk.no_write, hk.no_replace⟩
  have hwrote : Wrote l ls k → Wrote l ls { k with received := n } :=
    fun hw => ⟨hw.free, hw.file, hw.undo_command, hw.undo_nmbr⟩
  cases h with
  | fresh hpc hr hk => exact .fresh hpc hr (hkept hk)
  | agreed hpc hu hr hk => exact .agreed hpc hu hr (hkept hk)
  | refused hpc hr hk => exact .refused hpc hr hk
  | wrote hpc hr hw => exact .wrote hpc hr (hwrote hw)
  | kept hne hr hk => exact .kept hne hr (hkept hk)
  | aborted hpc hk => exact .aborted hpc (hk.imp id fun hu => ⟨hu.free, hu.file⟩)
  | quitEarly hpc hr hk => exact .quitEarly hpc hr hk
  | quitWrote hpc hw => exact .quitWrote hpc (hwrote hw)
  | quitKept hpc hne hr hk => exact .quitKept hpc hne hr hk

theorem quits {p session : Peer} {junk : Junk} {d d' : Disk} {reply : Option PeerReply}
    (hrun : p.run junk (l.request .quit) d = some (session, reply, d')) :
    session = { p with pc := .closed } ∧ reply = none ∧ d' = d := by
  have hquit := (run_quit junk p d).symm.trans hrun
  simp only [Option.some.injEq, Prod.mk.injEq] at hquit
  exact ⟨hquit.1.symm, hquit.2.1.symm, hquit.2.2.symm⟩

/-- **A session carries out a request.** -/
theorem Served.carriesOut {r : Request} {pattern : List Bool} {junk : Junk} {session : Peer}
    {reply : Option PeerReply} {d : Disk} {rs' : List Request} {n : Nat} (h : Served l ls k rs) (hl : l.Fits)
    (hc : ∀ x ∈ ls, Clean x) (hint : ((fileOf ls).length : Int) ≤ INT_MAX) (hpc : k.session.pc = .ready)
    (hpath : Path (rs ++ [r])) (ho : r = .abort → pattern.getD 0 true = true ∧ pattern.getD 1 true = true)
    (hrun : k.session.run junk (l.request r) (diskWith k.bbfile pattern) = some (session, reply, d)) :
    Served l ls ⟨rs', session, d.bbfile, k.replies ++ reply.toList, n⟩ (rs ++ [r]) := by
  have hclosed : k.session.pc ≠ .closed := by rw [hpc]; simp
  cases h with
  | fresh _ hreplies hk =>
    obtain rfl := hpath.first
    obtain ⟨rfl, hcases⟩ := run_precommit_cases hl.precommit hpc hrun
    rcases hcases with ⟨rfl, rfl⟩ | ⟨hne, hp⟩
    · exact .agreed hpc rfl (by rw [hreplies]; rfl) ⟨hk.file, hk.no_write, hk.no_replace⟩
    · refine .refused hp ?_ hk.file
      rw [hreplies]
      cases reply <;> simp
  | agreed _ huser hreplies hk =>
    rcases hpath.second with rfl | rfl
    · rw [hk.file] at hrun
      have hsep := hl.no_sep
      rcases run_commit_cases hc hl.commit hl.number.1 hsep hrun with ⟨rfl, hfree, rfl, hfile⟩ | ⟨hne, hfile, hundo⟩
      · rw [huser] at hfile
        exact .wrote rfl (by rw [hreplies]; rfl) ⟨hfree, hfile, rfl, rfl⟩
      · refine .kept hne (by rw [hreplies]; rfl) ⟨hfile, ?_, ?_⟩
        · rw [hundo]
          exact hk.no_write
        · rw [hundo]
          exact hk.no_replace
    · obtain ⟨rfl, rfl, rfl⟩ := quits hrun
      exact .quitEarly rfl (by rw [hreplies]; simp) hk.file
  | refused hp => exact absurd hp hclosed
  | wrote _ hreplies hw =>
    rcases hpath.third with rfl | rfl
    · have hclean : ∀ x ∈ ls ++ [l.peerText], Clean x := clean_snoc hc hl.clean
      have hstart : (lineStart l.msg_nmbr (fileOf (ls ++ [l.peerText])) : Int) ≤ INT_MAX := by
        rw [Wrote.start hl hc hw.free]
        exact hint
      rw [hw.file] at hrun
      obtain ⟨d', hrun', hfile⟩ := run_abort_write hclean hw.undo_command hw.undo_nmbr (Wrote.lineOf hl hw.free)
        (ho rfl) hstart
      obtain ⟨rfl, rfl, rfl⟩ : _ ∧ _ ∧ _ := by simpa using hrun'.symm.trans hrun
      exact .aborted rfl (Or.inr ⟨hw.free, hfile⟩)
    · obtain ⟨rfl, rfl, rfl⟩ := quits hrun
      exact .quitWrote rfl ⟨hw.free, hw.file, hw.undo_command, hw.undo_nmbr⟩
  | kept hne hreplies hk =>
    rcases hpath.third with rfl | rfl
    · have hword : tolwr ((commandOf abortRequest).getD 0 []) = "abort".toList := by decide
      have habort := Peer.run_of_abort_nothing junk (diskWith k.bbfile pattern) hword hk.no_write hk.no_replace
      obtain ⟨rfl, rfl, rfl⟩ : _ ∧ _ ∧ _ := by simpa using habort.symm.trans hrun
      exact .aborted rfl (Or.inl hk.file)
    · obtain ⟨rfl, rfl, rfl⟩ := quits hrun
      exact .quitKept rfl hne (by rw [hreplies]; simp) hk.file
  | aborted hp => exact absurd hp hclosed
  | quitEarly hp => exact absurd hp hclosed
  | quitWrote hp => exact absurd hp hclosed
  | quitKept hp => exact absurd hp hclosed

end

end Cluster

/-! The coordinator: why it came to its last round, and which jobs have their reply. -/

/-- The job has its reply. -/
def Job.heard (i : Nat) : Job → Bool
  | .replied m _ | .voted m _ => m = i
  | _ => false

namespace Sync

variable {N i j n : Nat} {x y : Exchange} {flags : Nat → Bool} {s s' : Sync} {fn : SendFn} {r : Round}

def heard (s : Sync) (fn : SendFn) (i : Nat) : Bool := (s.jobs fn).any (Job.heard i)

/-- The results of the local operations before the round `r`. -/
def Closes (N : Nat) (s : Sync) : Round → Prop
  | .precommit | .commit => s.write_return = none
  | .abort => s.write_return ≠ some 0 ∨ ∃ ret, ret < 0 ∧ s.read_return = some ret
  | .quit ret => ret = 0 ∧ s.write_return = some 0 ∧ (s.jobs .send_commit).length = N ∨
      ret = -1 ∧ s.write_return = none ∧ (s.jobs .send_commit).length = 0

def Course (N : Nat) (x : Exchange) (s : Sync) : Pc → Prop
  | .add r _ | .resetPos r | .resetNeg r | .resetMarks r _ => Closes N s r
  | .lock _ | .wait _ _ | .test _ | .localWrite => s.write_return = none
  | .readBack => s.write_return = some 0
  | .returned ret => ∃ r, afterAdd r = .returned ret ∧ Serving N .write x s r N ∧ Closes N s r

theorem Closes.congr (h : Closes N s r) (hw : s'.write_return = s.write_return) (hr : s'.read_return = s.read_return)
    (hc : (s'.jobs .send_commit).length = (s.jobs .send_commit).length) : Closes N s' r := by
  cases r with
  | precommit => exact hw.trans h
  | commit => exact hw.trans h
  | abort =>
    show s'.write_return ≠ some 0 ∨ ∃ ret, ret < 0 ∧ s'.read_return = some ret
    rw [hw, hr]
    exact h
  | quit ret =>
    rcases h with ⟨h₀, hwrite, hjobs⟩ | ⟨h₁, hwrite, hjobs⟩
    · exact Or.inl ⟨h₀, hw.trans hwrite, hc.trans hjobs⟩
    · exact Or.inr ⟨h₁, hw.trans hwrite, hc.trans hjobs⟩

/-- A step of a job keeps the course. -/
theorem Work.course (hw : Work N s fn j s') (h : Course N x s s.pc) : Course N x s' s'.pc := by
  have hm := hw.moves
  have hclose : ∀ r, Closes N s r → Closes N s' r :=
    fun r hr => hr.congr hm.same.write_return hm.same.read_return (hm.length _)
  have hkeep : ∀ pc, Course N x s pc → Course N x s' pc := by
    intro pc hpc
    cases pc with
    | add r i => exact hclose r hpc
    | resetPos r => exact hclose r hpc
    | resetNeg r => exact hclose r hpc
    | resetMarks r i => exact hclose r hpc
    | lock r => exact hm.same.write_return.trans hpc
    | wait r woken => exact hm.same.write_return.trans hpc
    | test r => exact hm.same.write_return.trans hpc
    | localWrite => exact hm.same.write_return.trans hpc
    | readBack => exact hm.same.write_return.trans hpc
    | returned ret =>
      obtain ⟨r, hr, hs, hc⟩ := hpc
      exact ⟨r, hr, hs.moves hm hw.writer, hclose r hc⟩
  rcases hm.same.pc with hpc | ⟨r, woken, hpc, hpc'⟩
  · rw [hpc]
    exact hkeep _ h
  · rw [hpc] at h
    rw [hpc']
    exact hm.same.write_return.trans h

/-- A step of the coordinator, but for its two file operations, keeps the course. -/
theorem Coordinate.course (hc : Coordinate N .write s s') (hlocal : s.pc ≠ .localWrite) (hread : s.pc ≠ .readBack)
    (hqueue : ∀ r i, s.pc = .add r i → i < N → s'.pc = .add r (i + 1)) (hflow : FlowAt N .write x s s.pc)
    (h : Course N x s s.pc) : Course N x s' s'.pc := by
  cases hc with
  | @addJob r i hpc hi =>
    rw [hpc] at h hflow
    cases r with
    | precommit => exact h
    | commit => exact h
    | abort => exact h
    | quit ret =>
      have h : Closes N s (.quit ret) := h
      have hne : SendFn.send_commit ≠ (Round.quit ret).fn := by simp [Round.fn]
      have hsame : Function.update s.jobs (Round.quit ret).fn (s.jobs (Round.quit ret).fn ++ [.queued]) .send_commit =
          s.jobs .send_commit := Function.update_of_ne hne _ _
      exact h.congr rfl rfl (congrArg List.length hsame)
  | addFails hpc hi => cases hqueue _ _ hpc hi
  | @added r hpc =>
    rw [hpc] at h hflow
    have hs : Serving N .write x { s with pc := afterAdd r } r N := Serving.congr hflow rfl ⟨rfl, rfl⟩ rfl rfl rfl
    cases r with
    | precommit => exact h
    | commit => exact h
    | abort => exact ⟨.abort, rfl, hs, h⟩
    | quit ret => exact ⟨.quit ret, rfl, hs, h⟩
  | blocks hpc => rw [hpc] at h; exact h
  | passes hpc => rw [hpc] at h; exact h
  | wakes hpc => rw [hpc] at h; exact h
  | precommitted hpc => rw [hpc] at h; exact h
  | committed hpc => rw [hpc] at h; exact h
  | @negative r hpc =>
    rw [hpc] at h hflow
    obtain ⟨hr, hs, -⟩ := hflow
    cases r with
    | precommit => exact Or.inr ⟨rfl, h, congrArg List.length (hs.before .send_commit (by decide))⟩
    | commit => exact Or.inl (by rw [show s.write_return = none from h]; simp)
    | abort => cases hr
    | quit ret => cases hr
  | resetPos hpc => rw [hpc] at h; exact h
  | resetNeg hpc => rw [hpc] at h; exact h
  | resetMark hpc => rw [hpc] at h; exact h
  | resetDone hpc => rw [hpc] at h; exact h
  | localWrite hpc => exact absurd hpc hlocal
  | readBack hpc => exact absurd hpc hread

/-! The replies that the jobs have. -/

/-- A job that is moved on without a reply. -/
theorem JobSet.heard_same {y z : Job} (h : JobSet s fn j y z s') (hz : ∀ i, z.heard i = y.heard i) (fn' : SendFn)
    (i : Nat) : s'.heard fn' i = s.heard fn' i := by
  by_cases hne : fn' = fn
  · subst hne
    rw [heard, h.self, Pool.any_set_same h.at_j (hz i)]
    rfl
  · rw [heard, h.ne hne]
    rfl

/-- A step of a job that waits for no reply. -/
theorem Work.heard (hw : Work N s fn j s') (hsent : ∀ i, (s.jobs fn)[j]? ≠ some (.sent i)) (fn' : SendFn) (i : Nat) :
    s'.heard fn' i = s.heard fn' i := by
  cases hw with
  | claim hj _ => exact JobSet.heard_same (z := .claimed _) ⟨hj, rfl⟩ (fun _ => rfl) fn' i
  | nonePeer hj _ => exact JobSet.heard_same (z := .returned none) ⟨hj, rfl⟩ (fun _ => rfl) fn' i
  | unknownHost hj => exact JobSet.heard_same (z := .returned _) ⟨hj, rfl⟩ (fun _ => rfl) fn' i
  | connect hj _ => exact JobSet.heard_same (z := .sent _) ⟨hj, rfl⟩ (fun _ => rfl) fn' i
  | commitFails hj _ => exact JobSet.heard_same (z := .returned _) ⟨hj, rfl⟩ (fun _ => rfl) fn' i
  | commit hj _ _ => exact JobSet.heard_same (z := .sent _) ⟨hj, rfl⟩ (fun _ => rfl) fn' i
  | closeFails _ hj _ => exact JobSet.heard_same (z := .returned _) ⟨hj, rfl⟩ (fun _ => rfl) fn' i
  | close _ hj _ _ => exact JobSet.heard_same (z := .returned _) ⟨hj, rfl⟩ (fun _ => rfl) fn' i
  | reply hj => exact absurd hj (hsent _)
  | @vote _ _ k buff hj =>
    have hjobs := (count_counts N (s.setJob fn j (.voted k buff)) fn k buff).jobs
    exact JobSet.heard_same (z := .voted k buff) ⟨hj, hjobs⟩ (fun _ => rfl) fn' i

/-- A job receives its reply. -/
theorem JobSet.heard_new {buff : CStr} (h : JobSet s fn j (.sent i) (.replied i buff) s') (fn' : SendFn) (k : Nat) :
    s'.heard fn' k = (s.heard fn' k || (fn' = fn && i = k)) := by
  by_cases hne : fn' = fn
  · subst hne
    rw [heard, h.self, Pool.any_set_of_not h.at_j rfl]
    simp [heard, Job.heard]
  · rw [heard, h.ne hne]
    simp [heard, hne]

/-- ABORT and QUIT wait for no reply. -/
def NoneWaits (s : Sync) : Prop := ∀ fn, fn = .send_del ∨ fn = .send_quit → ∀ i, .sent i ∉ s.jobs fn

theorem JobSet.noneWaits {y z : Job} (h : JobSet s fn j y z s')
    (hz : fn = .send_del ∨ fn = .send_quit → ∀ i, z ≠ .sent i) (hs : s.NoneWaits) : s'.NoneWaits := by
  intro fn' hfn' i hmem
  rcases h.mem hmem with hmem | ⟨rfl, he⟩
  · exact hs fn' hfn' i hmem
  · exact hz hfn' i he.symm

theorem Work.noneWaits (hw : Work N s fn j s') (hs : s.NoneWaits) : s'.NoneWaits := by
  cases hw with
  | claim hj _ => exact JobSet.noneWaits (z := .claimed _) ⟨hj, rfl⟩ (by simp) hs
  | nonePeer hj _ => exact JobSet.noneWaits (z := .returned none) ⟨hj, rfl⟩ (by simp) hs
  | unknownHost hj => exact JobSet.noneWaits (z := .returned _) ⟨hj, rfl⟩ (by simp) hs
  | connect hj _ => exact JobSet.noneWaits (z := .sent _) ⟨hj, rfl⟩ (by simp) hs
  | commitFails hj _ => exact JobSet.noneWaits (z := .returned _) ⟨hj, rfl⟩ (by simp) hs
  | commit hj _ _ => exact JobSet.noneWaits (z := .sent _) ⟨hj, rfl⟩ (by simp) hs
  | closeFails _ hj _ => exact JobSet.noneWaits (z := .returned _) ⟨hj, rfl⟩ (by simp) hs
  | close _ hj _ _ => exact JobSet.noneWaits (z := .returned _) ⟨hj, rfl⟩ (by simp) hs
  | reply hj => exact JobSet.noneWaits (z := .replied _ _) ⟨hj, rfl⟩ (by simp) hs
  | @vote _ _ k buff hj =>
    have hjobs := (count_counts N (s.setJob fn j (.voted k buff)) fn k buff).jobs
    exact JobSet.noneWaits (z := .voted k buff) ⟨hj, hjobs⟩ (by simp) hs

/-- What has returned stays. -/
theorem JobSet.mem_old {y z w : Job} {fn' : SendFn} (h : JobSet s fn j y z s') (hw : w ∈ s.jobs fn') (hne : w ≠ y) :
    w ∈ s'.jobs fn' := by
  by_cases hfn : fn' = fn
  · subst hfn
    obtain ⟨l₁, l₂, hl, hset⟩ := Pool.set_split h.at_j
    rw [hl] at hw
    rw [h.self, hset]
    rcases List.mem_append.1 hw with hm | hm
    · exact List.mem_append_left _ hm
    · rcases List.mem_cons.1 hm with he | hm
      · exact absurd he hne
      · exact List.mem_append_right _ (List.mem_cons_of_mem _ hm)
  · rw [h.ne hfn]
    exact hw

theorem Work.returned_mem {fn' : SendFn} {m : Option Nat} (hw : Work N s fn j s') (hm : .returned m ∈ s.jobs fn') :
    .returned m ∈ s'.jobs fn' := by
  cases hw with
  | claim hj _ => exact JobSet.mem_old (z := .claimed _) ⟨hj, rfl⟩ hm (by simp)
  | nonePeer hj _ => exact JobSet.mem_old (z := .returned none) ⟨hj, rfl⟩ hm (by simp)
  | unknownHost hj => exact JobSet.mem_old (z := .returned _) ⟨hj, rfl⟩ hm (by simp)
  | connect hj _ => exact JobSet.mem_old (z := .sent _) ⟨hj, rfl⟩ hm (by simp)
  | commitFails hj _ => exact JobSet.mem_old (z := .returned _) ⟨hj, rfl⟩ hm (by simp)
  | commit hj _ _ => exact JobSet.mem_old (z := .sent _) ⟨hj, rfl⟩ hm (by simp)
  | closeFails _ hj _ => exact JobSet.mem_old (z := .returned _) ⟨hj, rfl⟩ hm (by simp)
  | close _ hj _ _ => exact JobSet.mem_old (z := .returned _) ⟨hj, rfl⟩ hm (by simp)
  | reply hj => exact JobSet.mem_old (z := .replied _ _) ⟨hj, rfl⟩ hm (by simp)
  | @vote _ _ k buff hj =>
    have hjobs := (count_counts N (s.setJob fn j (.voted k buff)) fn k buff).jobs
    exact JobSet.mem_old (z := .voted k buff) ⟨hj, hjobs⟩ hm (by simp)

/-- A job of PRECOMMIT with a peer connects, or fails to. -/
theorem Work.claimed (hw : Work N s .send_precommit j s') (hj : (s.jobs .send_precommit)[j]? = some (.claimed i)) :
    (s'.jobs .send_precommit)[j]? = some (.sent i) ∨ (s'.jobs .send_precommit)[j]? = some (.returned (some i)) := by
  have hset : ∀ z, (Function.update s.jobs .send_precommit ((s.jobs .send_precommit).set j z) .send_precommit)[j]? =
      some z := by
    intro z
    rw [Function.update_self]
    exact Pool.getElem?_set_of_getElem? hj
  cases hw with
  | claim hj' _ => cases hj.symm.trans hj'
  | nonePeer hj' _ => cases hj.symm.trans hj'
  | unknownHost hj' =>
    cases hj.symm.trans hj'
    exact Or.inr (hset _)
  | connect hj' _ =>
    cases hj.symm.trans hj'
    exact Or.inl (hset _)
  | closeFails hfn => rcases hfn with hfn | hfn <;> cases hfn
  | close hfn => rcases hfn with hfn | hfn <;> cases hfn
  | reply hj' => cases hj.symm.trans hj'
  | vote hj' => cases hj.symm.trans hj'

/-- A job of PRECOMMIT moves while its votes are awaited. -/
theorem FlowAt.pc_of_precommit {pc : Pc} (h : FlowAt N .write x s pc) (hm : Moves N s .send_precommit j s') :
    (∃ n, pc = .add .precommit n) ∨ pc = .lock .precommit ∨ ∃ woken, pc = .wait .precommit woken := by
  have hround : ∀ {r : Round} {n : Nat}, Serving N .write x s r n → r = .precommit :=
    fun hs => eq_precommit_of_fn (hs.before.fn_eq hm)
  cases pc with
  | add r n =>
    obtain rfl := hround h
    exact Or.inl ⟨n, rfl⟩
  | lock r =>
    obtain rfl := hround h.2
    exact Or.inr (Or.inl rfl)
  | wait r woken =>
    obtain rfl := hround h.2
    exact Or.inr (Or.inr ⟨woken, rfl⟩)
  | test r =>
    obtain ⟨-, hs, hsum⟩ := h
    obtain rfl := hround hs
    exact ((hs.counted.allVoted hs.length hsum).not_moves hm).elim
  | resetPos r => exact (Clearing.not_moves h hm).elim
  | resetNeg r => exact (Clearing.not_moves h hm).elim
  | resetMarks r n => exact (Clearing.not_moves h hm).elim
  | localWrite => exact (Agreed.not_moves h hm).elim
  | readBack => exact (h.1.not_moves hm).elim
  | returned ret =>
    rcases h with ⟨r, hr, hs⟩ | hg
    · obtain rfl := hround hs
      cases hr
    · exact (hg.not_moves hm).elim

/-- A job that waits for its reply is the only one of its peer. -/
theorem Counted.not_heard (h : Counted N s fn) (hj : (s.jobs fn)[j]? = some (.sent i)) : s.heard fn i = false := by
  obtain ⟨l₁, l₂, hl, -⟩ := Pool.set_split hj
  have hnodup := h.nodup
  have hmark : Job.mark? (.sent i) = some i := rfl
  rw [marks, hl, List.filterMap_append, List.filterMap_cons_some hmark] at hnodup
  have hnot : i ∉ l₁.filterMap Job.mark? ++ l₂.filterMap Job.mark? := (List.nodup_middle.1 hnodup).notMem
  rw [heard, hl, List.any_eq_false]
  intro job hjob hheard
  have hmark : job.mark? = some i := by
    cases job with
    | replied m buff => simpa [Job.heard, Job.mark?] using hheard
    | voted m buff => simpa [Job.heard, Job.mark?] using hheard
    | _ => cases hheard
  rcases List.mem_append.1 hjob with hm | hm
  · exact hnot (List.mem_append_left _ (List.mem_filterMap.2 ⟨job, hm, hmark⟩))
  · rcases List.mem_cons.1 hm with rfl | hm
    · cases hheard
    · exact hnot (List.mem_append_right _ (List.mem_filterMap.2 ⟨job, hm, hmark⟩))

/-! The exchange: what the peers reply, as far as they have. -/

/-- The exchange with the reply of one peer. -/
def Exchange.setReply (x : Exchange) (fn : SendFn) (i : Nat) (buff : CStr) : Exchange :=
  { x with reply := Function.update x.reply fn (Function.update (x.reply fn) i buff) }

theorem Exchange.setReply_ne {buff : CStr} {fn' : SendFn} {k : Nat} (h : fn' ≠ fn ∨ k ≠ i) :
    (x.setReply fn i buff).reply fn' k = x.reply fn' k := by
  unfold setReply
  dsimp only
  by_cases hfn : fn' = fn
  · subst hfn
    rw [Function.update_self, Function.update_of_ne (h.resolve_left fun hne => hne rfl)]
  · rw [Function.update_of_ne hfn]

@[simp] theorem Exchange.setReply_self {buff : CStr} : (x.setReply fn i buff).reply fn i = buff := by
  unfold setReply
  dsimp only
  rw [Function.update_self, Function.update_self]

/-- `y` is `x` but for the replies of the round `fn`. -/
structure SameBut (fn : SendFn) (x y : Exchange) : Prop where
  reply : ∀ fn', fn' ≠ fn → y.reply fn' = x.reply fn'
  local_return : y.local_return = x.local_return
  read_return : y.read_return = x.read_return

theorem SameBut.setReply (x : Exchange) (fn : SendFn) (i : Nat) (buff : CStr) : SameBut fn x (x.setReply fn i buff) :=
  ⟨fun _ hne => Function.update_of_ne hne _ _, rfl, rfl⟩

theorem SameBut.allPositive {fn' : SendFn} (h : SameBut fn x y) (hne : fn' ≠ fn) :
    y.AllPositive N fn' ↔ x.AllPositive N fn' := by
  unfold Exchange.AllPositive
  rw [h.reply fn' hne]

/-- How the coordinator came to a round says nothing of the replies of the round. -/
theorem Before.sameBut (h : Before N .write x s r) (hy : SameBut r.fn x y) : Before N .write y s r := by
  have hfails : y.Fails .write ↔ x.Fails .write := by rw [Exchange.Fails, hy.local_return, hy.read_return]; rfl
  cases r with
  | precommit => exact h
  | commit =>
    obtain ⟨hp, hpos, hrest⟩ := h
    exact ⟨hp, (hy.allPositive (by decide)).2 hpos, hrest⟩
  | abort =>
    obtain ⟨hp, hpos, hc, hq, hwhy⟩ := h
    refine ⟨hp, (hy.allPositive (by decide)).2 hpos, hc, hq, fun hcommit => ?_⟩
    exact hfails.2 (hwhy ((hy.allPositive (by decide)).1 hcommit))
  | quit ret =>
    obtain ⟨hp, hd, hwhy⟩ := h
    have hpre : y.AllPositive N .send_precommit ↔ x.AllPositive N .send_precommit := hy.allPositive (by simp [Round.fn])
    have hcom : y.AllPositive N .send_commit ↔ x.AllPositive N .send_commit := hy.allPositive (by simp [Round.fn])
    refine ⟨hp, hd, ?_⟩
    rw [hpre, hcom, hfails]
    exact hwhy

theorem Serving.sameBut (h : Serving N .write x s r n) (hy : SameBut r.fn x y) : Serving N .write y s r n :=
  ⟨h.before.sameBut hy, h.le, h.length, h.counted⟩

theorem FlowAt.sameBut {pc : Pc} (h : FlowAt N .write x s pc) (hm : Moves N s fn j s') (hy : SameBut fn x y) :
    FlowAt N .write y s pc := by
  have hserve : ∀ {r : Round} {n : Nat}, Serving N .write x s r n → Serving N .write y s r n := by
    intro r n hs
    obtain rfl := hs.before.fn_eq hm
    exact hs.sameBut hy
  cases pc with
  | add r i => exact hserve h
  | lock r => exact ⟨h.1, hserve h.2⟩
  | wait r woken => exact ⟨h.1, hserve h.2⟩
  | test r => exact ⟨h.1, hserve h.2.1, h.2.2⟩
  | resetPos r => exact (Clearing.not_moves h hm).elim
  | resetNeg r => exact (Clearing.not_moves h hm).elim
  | resetMarks r i => exact (Clearing.not_moves h hm).elim
  | localWrite => exact (Agreed.not_moves h hm).elim
  | readBack => exact (h.1.not_moves hm).elim
  | returned ret =>
    rcases h with ⟨r, hr, hs⟩ | hg
    · exact Or.inl ⟨r, hr, hserve hs⟩
    · exact (hg.not_moves hm).elim

theorem Course.sameBut {pc : Pc} (h : Course N x s pc) (hm : Moves N s fn j s') (hy : SameBut fn x y) :
    Course N y s pc := by
  cases pc with
  | returned ret =>
    obtain ⟨r, hr, hs, hc⟩ := h
    obtain rfl := hs.before.fn_eq hm
    exact ⟨r, hr, hs.sameBut hy, hc⟩
  | _ => exact h

/-- Nothing is said yet of the reply of a peer whose job waits for it. -/
theorem Orders.setReply (h : Orders N .write x flags s) (hj : (s.jobs fn)[j]? = some (.sent i)) (buff : CStr) :
    Orders N .write (x.setReply fn i buff) flags s := by
  obtain ⟨hflow, ht⟩ := h
  have hm : Moves N s fn j (s.setJob fn j (.replied i buff)) := (Work.reply hj).moves
  obtain ⟨r, n, hs, rfl⟩ := hflow.serving hm
  refine ⟨hflow.sameBut hm (.setReply x _ i buff), ht.sent, fun fn' k b hb => ?_, ht.flags, ht.ports, ht.noStray⟩
  have hne : fn' ≠ r.fn ∨ k ≠ i := by
    by_contra hboth
    rw [not_or, not_not, not_not] at hboth
    obtain ⟨rfl, rfl⟩ := hboth
    have hnot := hs.counted.not_heard hj
    rw [heard, List.any_eq_false] at hnot
    rcases hb with hb | hb
    · exact hnot _ hb (decide_eq_true rfl)
    · exact hnot _ hb (decide_eq_true rfl)
  rw [Exchange.setReply_ne hne]
  exact ht.replies fn' k b hb

/-! What a peer was sent. -/

theorem Before.path (h : Before N .write x s r) (hi : i < N) : Cluster.Path (s.told .write i) := by
  cases r with
  | precommit =>
    have hc := reached_of_nil (h .send_commit (by decide)) i
    have hd := reached_of_nil (h .send_del (by decide)) i
    have hq := reached_of_nil (h .send_quit (by decide)) i
    rw [told, hc, hd, hq]
    cases s.reached .send_precommit i <;> cases (s.peer_addr i).dont_reissue <;> simp [Cluster.Path]
  | commit =>
    obtain ⟨hp, -, -, hd, hq⟩ := h
    rw [told, hp.reached hi, reached_of_nil hd, reached_of_nil hq]
    cases s.reached .send_commit i <;> cases (s.peer_addr i).dont_reissue <;> simp [Cluster.Path]
  | abort =>
    obtain ⟨hp, -, hc, hq, -⟩ := h
    rw [told, hp.reached hi, hc.reached hi, reached_of_nil hq]
    cases s.reached .send_del i <;> cases (s.peer_addr i).dont_reissue <;> simp [Cluster.Path]
  | quit ret =>
    obtain ⟨hp, hd, ⟨-, -, hc⟩ | ⟨-, hc, -, -⟩⟩ := h
    · rw [told, hp.reached hi, reached_of_nil hc, reached_of_nil hd]
      cases s.reached .send_quit i <;> cases (s.peer_addr i).dont_reissue <;> simp [Cluster.Path]
    · rw [told, hp.reached hi, hc.reached hi, reached_of_nil hd]
      cases s.reached .send_quit i <;> cases (s.peer_addr i).dont_reissue <;> simp [Cluster.Path]

theorem Agreed.of_reply (h : Agreed N x s) (hy : y.reply = x.reply) : Agreed N y s := by
  have hpos : ∀ fn, y.AllPositive N fn ↔ x.AllPositive N fn := by
    intro fn
    unfold Exchange.AllPositive
    rw [hy]
  exact ⟨h.precommits, (hpos _).2 h.precommit, h.commits, (hpos _).2 h.commit, h.del, h.quit⟩

theorem Agreed.path (h : Agreed N x s) (hi : i < N) : Cluster.Path (s.told .write i) := by
  rw [told, h.precommits.reached hi, h.commits.reached hi, reached_of_nil h.del, reached_of_nil h.quit]
  cases (s.peer_addr i).dont_reissue <;> simp [Cluster.Path]

theorem Orders.path (h : Orders N .write x flags s) (hi : i < N) : Cluster.Path (s.sentTo i) := by
  obtain ⟨hflow, ht⟩ := h
  rw [ht.sent]
  cases hpc : s.pc with
  | add r n => rw [hpc] at hflow; exact hflow.before.path hi
  | lock r => rw [hpc] at hflow; exact hflow.2.before.path hi
  | wait r woken => rw [hpc] at hflow; exact hflow.2.before.path hi
  | test r => rw [hpc] at hflow; exact hflow.2.1.before.path hi
  | resetPos r => rw [hpc] at hflow; exact hflow.before.path hi
  | resetNeg r => rw [hpc] at hflow; exact hflow.before.path hi
  | resetMarks r n => rw [hpc] at hflow; exact hflow.before.path hi
  | localWrite => rw [hpc] at hflow; exact hflow.path hi
  | readBack => rw [hpc] at hflow; exact hflow.1.path hi
  | returned ret =>
    rw [hpc] at hflow
    rcases hflow with ⟨r, -, hs⟩ | hg
    · exact hs.before.path hi
    · cases hg.kind

/-- A step of a job sends something, or nothing. -/
theorem Work.sentTo (hw : Work N s fn j s') (i : Nat) : s.sentTo i <+: s'.sentTo i := by
  have hsame : s'.requests = s.requests → s.sentTo i <+: s'.sentTo i := by
    intro h
    rw [Sync.sentTo, Sync.sentTo, h]
  have hsend : ∀ {u : Sync} {k : Nat} {q : Request}, u.requests = s.requests → s.sentTo i <+: (u.send k q).sentTo i := by
    intro u k q h
    rw [sentTo_send, Sync.sentTo, Sync.sentTo, h]
    exact List.prefix_append _ _
  cases hw with
  | connect hj _ => exact hsend rfl
  | commit hj _ _ => exact hsend rfl
  | close _ hj _ _ => exact hsend rfl
  | vote hj => exact hsame (count_rest _ _).1
  | _ => exact hsame rfl

/-- A step of the coordinator, but for its two file operations, leaves their results alone. -/
theorem Coordinate.results (hc : Coordinate N .write s s') (hlocal : s.pc ≠ .localWrite) (hread : s.pc ≠ .readBack) :
    s'.write_return = s.write_return := by
  cases hc with
  | localWrite hpc => exact absurd hpc hlocal
  | readBack hpc => exact absurd hpc hread
  | _ => rfl

theorem Coordinate.heard (hc : Coordinate N .write s s') (fn : SendFn) (i : Nat) : s'.heard fn i = s.heard fn i := by
  unfold Sync.heard
  rcases hc.kept.1 fn with hj | hj <;> rw [hj]
  simp [List.any_append, Job.heard]

theorem Coordinate.noneWaits (hc : Coordinate N .write s s') (hs : s.NoneWaits) : s'.NoneWaits := by
  intro fn hfn i hmem
  rcases hc.kept.1 fn with hj | hj
  · rw [hj] at hmem
    exact hs fn hfn i hmem
  · rw [hj] at hmem
    exact hs fn hfn i (by simpa using hmem)

end Sync

namespace Cluster

variable {N i : Nat} {l : Line} {ls own : List CStr} {peers : Nat → List CStr} {k : Link} {x y : Sync.Exchange}
  {flags : Nat → Bool} {s s' : Cluster} {u u' : Sync}

/-! The invariant. -/

/-- A connection: what the session has made of the requests, and which of its replies the jobs
    have. -/
structure Connected (l : Line) (ls : List CStr) (x : Sync.Exchange) (u : Sync) (i : Nat) (k : Link) : Prop where
  served : Served l ls k k.carried
  sent : k.carried <+: u.sentTo i
  unheard : u.heard .send_precommit i = false → k.received = 0
  precommit : u.heard .send_precommit i = true → x.reply .send_precommit i = [] ∨ 1 ≤ k.received
  waiting : u.heard .send_commit i = false → k.received ≤ 1
  commit : u.heard .send_commit i = true → x.reply .send_commit i = [] ∨
    ∃ reply, k.replies[1]? = some reply ∧ x.reply .send_commit i = reply.text

structure Inv (N : Nat) (l : Line) (own : List CStr) (peers : Nat → List CStr) (flags : Nat → Bool)
    (x : Sync.Exchange) (s : Cluster) : Prop where
  orders : Sync.Orders N .write x flags s.sync
  course : Sync.Course N x s.sync s.sync.pc
  noneWaits : s.sync.NoneWaits
  own_file : s.bbfile = fileOf (own ++ if s.sync.write_return = some 0 then [l.text] else [])
  links : ∀ i, i < N → Connected l (peers i) x s.sync i (s.links i)

/-- The jobs have no new reply. -/
theorem Connected.congr (h : Connected l ls x u i k) (hsent : u.sentTo i <+: u'.sentTo i)
    (hheard : ∀ fn, u'.heard fn i = u.heard fn i) (hreply : ∀ fn, y.reply fn i = x.reply fn i) :
    Connected l ls y u' i k := by
  refine ⟨h.served, h.sent.trans hsent, ?_, ?_, ?_, ?_⟩
  · rw [hheard]
    exact h.unheard
  · rw [hheard, hreply]
    exact h.precommit
  · rw [hheard]
    exact h.waiting
  · rw [hheard, hreply]
    exact h.commit

/-- A step of the coordinator, but for its two file operations. -/
theorem Inv.coordinate (h : Inv N l own peers flags x s) (hc : Sync.Coordinate N .write s.sync u')
    (hlocal : s.sync.pc ≠ .localWrite) (hread : s.sync.pc ≠ .readBack)
    (hqueue : ∀ r i, s.sync.pc = .add r i → i < N → u'.pc = .add r (i + 1))
    (hwait : ∀ r woken, s.sync.pc = .wait r woken → s.sync.pos_count + s.sync.neg_count = N) :
    Inv N l own peers flags x { s with sync := u' } where
  orders := Sync.Orderly.orders (.of_coordinate hc hqueue hwait ⟨hlocal, hread⟩) h.orders
  course := hc.course hlocal hread hqueue h.orders.1 h.course
  noneWaits := hc.noneWaits h.noneWaits
  own_file := by
    show s.bbfile = _
    rw [hc.results hlocal hread]
    exact h.own_file
  links := by
    intro i hi
    have hsent : s.sync.sentTo i <+: u'.sentTo i := by rw [Sync.sentTo, Sync.sentTo, hc.kept.2.1]
    exact (h.links i hi).congr hsent (fun fn => hc.heard fn i) fun _ => rfl

/-- The local write. -/
theorem Inv.localWrite (h : Inv N l own peers flags x s) {ret : Int} {d : Disk} {pattern : List Bool}
    (hpc : s.sync.pc = .localWrite)
    (hwrite : writeDescriptor l.msg_nmbr l.poster l.message (diskWith s.bbfile pattern) = (ret, d)) :
    Inv N l own peers flags { x with local_return := ret }
      { s with
        sync := { s.sync with
          write_return := some ret, pc := if ret < 0 then .resetPos .abort else .readBack }
        bbfile := d.bbfile } := by
  obtain ⟨hflow, ht⟩ := h.orders
  have hcourse := h.course
  rw [hpc] at hflow hcourse
  have hnone : s.sync.write_return = none := hcourse
  have hfile : (diskWith s.bbfile pattern).bbfile = fileOf own := by
    rw [diskWith_bbfile, h.own_file, hnone]
    simp
  have hcases := writeDescriptor_cases l.msg_nmbr l.poster l.message hfile
  rw [hwrite] at hcases
  dsimp only at hcases
  have hret : Sync.LocalReturn .write ret := ⟨_, _, _, _, congrArg Prod.fst hwrite⟩
  have horders : Sync.Orders N .write { x with local_return := ret } flags s.sync := by
    refine ⟨?_, ht.sent, ht.replies, ht.flags, ht.ports, ht.noStray⟩
    rw [hpc]
    exact Sync.Agreed.of_reply hflow rfl
  have horderly : Sync.Orderly N .write { x with local_return := ret } s.sync .coordinator
      { s.sync with write_return := some ret, pc := if ret < 0 then .resetPos .abort else .readBack } := by
    refine ⟨.coordinator (.localWrite hpc hret), ?_, ?_, ?_, ?_, fun _ _ => rfl, ?_⟩
    · intro _ r i hadd
      rw [hpc] at hadd
      cases hadd
    · intro _ r woken hwait
      rw [hpc] at hwait
      cases hwait
    · intro j i ha
      cases ha
    · intro fn j i ha
      cases ha
    · intro _ hback
      rw [hpc] at hback
      cases hback
  refine ⟨horderly.orders horders, ?_, h.noneWaits, ?_, fun i hi => ?_⟩
  · show Sync.Course N _ _ (if ret < 0 then .resetPos .abort else .readBack)
    rcases hcases with ⟨h₀, -⟩ | ⟨h₂, -⟩
    · rw [if_neg (by omega)]
      exact congrArg some h₀
    · rw [if_pos (by omega)]
      refine Or.inl ?_
      show some ret ≠ some 0
      rw [h₂]
      decide
  · show d.bbfile = fileOf (own ++ if some ret = some 0 then [l.text] else [])
    rcases hcases with ⟨h₀, hd⟩ | ⟨h₂, hd⟩
    · rw [if_pos (congrArg some h₀), hd]
      rfl
    · have hne : some ret ≠ some 0 := by rw [h₂]; decide
      rw [if_neg hne, hd, List.append_nil]
  · exact (h.links i hi).congr List.prefix_rfl (fun _ => rfl) fun _ => rfl

/-- The read-back. -/
theorem Inv.readBack (h : Inv N l own peers flags x s) {ret : Int} {text : Option CStr} {d : Disk}
    {pattern : List Bool} {junk : List Char} (hpc : s.sync.pc = .readBack)
    (hread : readDescriptor junk l.msg_nmbr (diskWith s.bbfile pattern) = some ((ret, text), d)) :
    Inv N l own peers flags { x with read_return := ret }
      { s with
        sync := { s.sync with
          read_return := some ret
          pc := if Sync.readBackFails .write ret then .resetPos .abort else .resetPos (.quit 0) } } := by
  obtain ⟨hflow, ht⟩ := h.orders
  have hcourse := h.course
  rw [hpc] at hflow hcourse
  have hzero : s.sync.write_return = some 0 := hcourse
  have hret : Sync.ReadReturn ret := ⟨_, _, _, _, _, hread⟩
  have horders : Sync.Orders N .write { x with read_return := ret } flags s.sync := by
    refine ⟨?_, ht.sent, ht.replies, ht.flags, ht.ports, ht.noStray⟩
    rw [hpc]
    exact ⟨hflow.1.of_reply rfl, hflow.2⟩
  have horderly : Sync.Orderly N .write { x with read_return := ret } s.sync .coordinator
      { s.sync with
        read_return := some ret
        pc := if Sync.readBackFails .write ret then .resetPos .abort else .resetPos (.quit 0) } := by
    refine ⟨.coordinator (.readBack hpc hret), ?_, ?_, ?_, ?_, ?_, fun _ _ => rfl⟩
    · intro _ r i hadd
      rw [hpc] at hadd
      cases hadd
    · intro _ r woken hwait
      rw [hpc] at hwait
      cases hwait
    · intro j i ha
      cases ha
    · intro fn j i ha
      cases ha
    · intro _ hwrite
      rw [hpc] at hwrite
      cases hwrite
  refine ⟨horderly.orders horders, ?_, h.noneWaits, h.own_file, fun i hi => ?_⟩
  · show Sync.Course N _ _ (if Sync.readBackFails .write ret then .resetPos .abort else .resetPos (.quit 0))
    by_cases hfails : Sync.readBackFails .write ret = true
    · rw [if_pos hfails]
      exact Or.inr ⟨ret, by simpa [Sync.readBackFails] using hfails, rfl⟩
    · rw [if_neg hfails]
      exact Or.inl ⟨rfl, hzero, hflow.1.commits.length⟩
  · exact (h.links i hi).congr List.prefix_rfl (fun _ => rfl) fun _ => rfl

/-- A step of a job that waits for no reply. -/
theorem Inv.job (h : Inv N l own peers flags x s) {fn : SendFn} {j : Nat} (hw : Sync.Work N s.sync fn j u')
    (hsent : ∀ i, (s.sync.jobs fn)[j]? ≠ some (.sent i))
    (hconnect : ∀ i, fn = .send_precommit → (s.sync.jobs .send_precommit)[j]? = some (.claimed i) →
      (u'.jobs .send_precommit)[j]? = some (.sent i)) : Inv N l own peers flags x { s with sync := u' } where
  orders := Sync.Orderly.orders (.of_work hw hconnect fun i hi => absurd hi (hsent i)) h.orders
  course := hw.course h.course
  noneWaits := hw.noneWaits h.noneWaits
  own_file := by
    show s.bbfile = _
    rw [hw.moves.same.write_return]
    exact h.own_file
  links i hi := (h.links i hi).congr (hw.sentTo i) (fun fn' => hw.heard hsent fn' i) fun _ => rfl

/-- A job has the reply of its peer, which is the one to its own request, or nothing. -/
theorem Connected.replied (h : Connected l ls x u i k) {fn : SendFn} {j n : Nat} {buff : CStr}
    (hset : Sync.JobSet u fn j (.sent i) (.replied i buff) u') (hnot : u.heard fn i = false)
    (hfn : fn = .send_precommit ∨
      fn = .send_commit ∧ u.heard .send_precommit i = true ∧ x.reply .send_precommit i ≠ [])
    (hbuff : buff = [] ∧ n = k.received ∨
      n = k.received + 1 ∧ ∃ reply, k.replies[k.received]? = some reply ∧ buff = reply.text)
    (hsame : u'.sentTo i = u.sentTo i) :
    Connected l ls (x.setReply fn i buff) u' i { k with received := n } := by
  have hserved := h.served.receives n
  have hheard := hset.heard_new
  rcases hfn with rfl | ⟨rfl, hpre, hpos⟩
  · have hzero := h.unheard hnot
    refine ⟨hserved, hsame ▸ h.sent, ?_, ?_, ?_, ?_⟩
    · rw [hheard]
      simp
    · intro _
      rw [Sync.Exchange.setReply_self]
      rcases hbuff with ⟨rfl, -⟩ | ⟨rfl, -⟩
      · exact Or.inl rfl
      · exact Or.inr (Nat.succ_le_succ (Nat.zero_le _))
    · intro _
      show n ≤ 1
      rcases hbuff with ⟨-, rfl⟩ | ⟨rfl, -⟩ <;> omega
    · rw [hheard, Sync.Exchange.setReply_ne (Or.inl (by decide))]
      simpa using h.commit
  · have hone : k.received = 1 := by
      have := h.waiting hnot
      have := (h.precommit hpre).resolve_left hpos
      omega
    refine ⟨hserved, hsame ▸ h.sent, ?_, ?_, ?_, ?_⟩
    · rw [hheard, hpre]
      simp
    · intro _
      refine Or.inr ?_
      show 1 ≤ n
      rcases hbuff with ⟨-, rfl⟩ | ⟨rfl, -⟩ <;> omega
    · rw [hheard]
      simp
    · intro _
      rw [Sync.Exchange.setReply_self]
      rcases hbuff with ⟨rfl, -⟩ | ⟨-, reply, hr, rfl⟩
      · exact Or.inl rfl
      · rw [hone] at hr
        exact Or.inr ⟨reply, hr, rfl⟩

/-- The job of another peer has its reply. -/
theorem Connected.others (h : Connected l ls x u i k) {fn : SendFn} {j m : Nat} {buff : CStr}
    (hset : Sync.JobSet u fn j (.sent m) (.replied m buff) u') (hne : i ≠ m) (hsame : u'.sentTo i = u.sentTo i) :
    Connected l ls (x.setReply fn m buff) u' i k := by
  refine h.congr (by rw [hsame]) (fun fn' => ?_) fun fn' => Sync.Exchange.setReply_ne (Or.inr hne)
  rw [hset.heard_new]
  simp [Ne.symm hne]

/-- A job that waits for a reply is in a round of votes, and in the second all replies of the first
    were positive. -/
theorem Inv.waits (h : Inv N l own peers flags x s) {fn : SendFn} {j : Nat}
    (hj : (s.sync.jobs fn)[j]? = some (.sent i)) : i < N ∧ s.sync.heard fn i = false ∧
      (fn = .send_precommit ∨
        fn = .send_commit ∧ s.sync.heard .send_precommit i = true ∧ x.reply .send_precommit i ≠ []) := by
  obtain ⟨hflow, ht⟩ := h.orders
  have hm : Sync.Moves N s.sync fn j (s.sync.setJob fn j (.replied i [])) := (Sync.Work.reply hj).moves
  obtain ⟨r, n, hs, rfl⟩ := hflow.serving hm
  have hi : i < N := hs.counted.lt i (List.mem_filterMap.2 ⟨_, List.mem_of_getElem? hj, rfl⟩)
  refine ⟨hi, hs.counted.not_heard hj, ?_⟩
  cases r with
  | precommit => exact Or.inl rfl
  | commit =>
    obtain ⟨hp, hpos, -⟩ := hs.before
    obtain ⟨buff, hmem⟩ := hp.mem hi
    refine Or.inr ⟨rfl, List.any_eq_true.2 ⟨_, hmem, decide_eq_true rfl⟩, ?_⟩
    intro hnil
    have := hpos i hi
    rw [hnil] at this
    cases this
  | abort => exact absurd (List.mem_of_getElem? hj) (h.noneWaits _ (Or.inl rfl) i)
  | quit ret => exact absurd (List.mem_of_getElem? hj) (h.noneWaits _ (Or.inr rfl) i)

/-- A job has its reply, or none in time. -/
theorem Inv.replied (h : Inv N l own peers flags x s) {fn : SendFn} {j n : Nat} {buff : CStr}
    (hj : (s.sync.jobs fn)[j]? = some (.sent i))
    (hbuff : buff = [] ∧ n = (s.links i).received ∨
      n = (s.links i).received + 1 ∧
        ∃ reply, (s.links i).replies[(s.links i).received]? = some reply ∧ buff = reply.text) :
    Inv N l own peers flags (x.setReply fn i buff)
      ({ s with sync := s.sync.setJob fn j (.replied i buff) }.setLink i { s.links i with received := n }) := by
  obtain ⟨hi, hnot, hfn⟩ := h.waits hj
  have hw : Sync.Work N s.sync fn j (s.sync.setJob fn j (.replied i buff)) := .reply hj
  have hself : ((s.sync.setJob fn j (.replied i buff)).jobs fn)[j]? = some (.replied i buff) := by
    rw [Sync.setJob_jobs, Function.update_self]
    exact Pool.getElem?_set_of_getElem? hj
  have horderly : Sync.Orderly N .write (x.setReply fn i buff) s.sync (.job fn j)
      (s.sync.setJob fn j (.replied i buff)) := by
    refine .of_work hw ?_ ?_
    · rintro m rfl hm
      cases hj.symm.trans hm
    · intro m hm
      obtain rfl : i = m := by simpa using hj.symm.trans hm
      rw [Sync.Exchange.setReply_self]
      exact hself
  refine ⟨horderly.orders (h.orders.setReply hj buff), ?_, hw.noneWaits h.noneWaits, h.own_file, ?_⟩
  · exact hw.course (h.course.sameBut hw.moves (.setReply x fn i buff))
  · intro m hm
    show Connected l (peers m) _ _ m (Function.update s.links i { s.links i with received := n } m)
    by_cases hmi : m = i
    · subst hmi
      rw [Function.update_self]
      exact (h.links m hm).replied ⟨hj, rfl⟩ hnot hfn hbuff rfl
    · rw [Function.update_of_ne hmi]
      exact (h.links m hm).others ⟨hj, rfl⟩ hmi rfl

/-- A session carries out its next request. -/
theorem Inv.carriesOut (h : Inv N l own peers flags x s) (hl : l.Fits) (hc : ∀ i, i < N → ∀ x ∈ peers i, Clean x)
    (hint : ∀ i, i < N → ((fileOf (peers i)).length : Int) ≤ INT_MAX) {r : Request} {rest : List Request}
    {pattern : List Bool} {junk : Junk} {session : Peer} {reply : Option PeerReply} {d : Disk}
    (hsent : s.sync.sentTo i = (s.links i).carried ++ r :: rest) (hpc : (s.links i).session.pc = .ready)
    (hrun : (s.links i).session.run junk (l.request r) (diskWith (s.links i).bbfile pattern) =
      some (session, reply, d))
    (ho : r = .abort → pattern.getD 0 true = true ∧ pattern.getD 1 true = true) :
    Inv N l own peers flags x
      (s.setLink i
        { carried := (s.links i).carried ++ [r], session := session, bbfile := d.bbfile,
          replies := (s.links i).replies ++ reply.toList, received := (s.links i).received }) := by
  refine ⟨h.orders, h.course, h.noneWaits, h.own_file, fun m hm => ?_⟩
  show Connected l (peers m) x s.sync m (Function.update s.links i _ m)
  by_cases hmi : m = i
  · subst hmi
    rw [Function.update_self]
    have hk := h.links m hm
    have hprefix : (s.links m).carried ++ [r] <+: s.sync.sentTo m := by
      rw [hsent]
      exact ⟨rest, by simp⟩
    have hpath := (h.orders.path hm).shorter hprefix
    refine ⟨hk.served.carriesOut hl (hc m hm) (hint m hm) hpc hpath ho hrun, hprefix, hk.unheard, hk.precommit,
      hk.waiting, fun hheard => ?_⟩
    refine (hk.commit hheard).imp id fun hreply => ?_
    obtain ⟨reply', hr, he⟩ := hreply
    exact ⟨reply', List.getElem?_append_left (List.getElem?_eq_some_iff.1 hr).1 ▸ hr, he⟩
  · rw [Function.update_of_ne hmi]
    exact h.links m hm

/-! A connection that fails: its job does not vote, and the coordinator waits for ever. -/

/-- The coordinator waits for the vote of a job that has returned. -/
structure Stuck (u : Sync) : Prop where
  returned : ∃ i, .returned (some i) ∈ u.jobs .send_precommit
  pc : (∃ n, u.pc = .add .precommit n) ∨ u.pc = .lock .precommit ∨ ∃ woken, u.pc = .wait .precommit woken

/-- Not all votes come in. -/
theorem Stuck.votes_lt (h : Stuck u) (hv : Sync.Voting N u .precommit N) : u.pos_count + u.neg_count < N := by
  obtain ⟨i, hmem⟩ := h.returned
  rw [← hv.counted.voted]
  refine lt_of_le_of_ne (le_of_le_of_eq List.countP_le_length hv.length) fun he => ?_
  have hall := List.countP_eq_length.1 (he.trans hv.length.symm)
  cases hall _ hmem

theorem Stuck.work (h : Stuck u) {fn : SendFn} {j : Nat} (hw : Sync.Work N u fn j u') : Stuck u' := by
  obtain ⟨i, hmem⟩ := h.returned
  refine ⟨⟨i, hw.returned_mem hmem⟩, ?_⟩
  rcases hw.moves.same.pc with hpc | ⟨r, woken, hpc, hpc'⟩
  · rw [hpc]
    exact h.pc
  · rcases h.pc with ⟨n, he⟩ | he | ⟨woken', he⟩
    · cases hpc.symm.trans he
    · cases hpc.symm.trans he
    · obtain ⟨rfl, -⟩ := Pc.wait.inj (hpc.symm.trans he)
      exact Or.inr (Or.inr ⟨true, hpc'⟩)

theorem Stuck.coordinate (h : Stuck u) (hinv : Sync.Inv N .write u) (hc : Sync.Coordinate N .write u u')
    (hqueue : ∀ r i, u.pc = .add r i → i < N → u'.pc = .add r (i + 1))
    (hwait : ∀ r woken, u.pc = .wait r woken → u.pos_count + u.neg_count = N) : Stuck u' := by
  obtain ⟨i, hmem⟩ := h.returned
  have hmem' : .returned (some i) ∈ u'.jobs .send_precommit := by
    rcases hc.kept.1 .send_precommit with hj | hj <;> rw [hj]
    · exact hmem
    · exact List.mem_append_left _ hmem
  refine ⟨⟨i, hmem'⟩, ?_⟩
  rcases h.pc with ⟨n, hpc⟩ | hpc | ⟨woken, hpc⟩
  · cases hc with
    | addJob he _ =>
      obtain ⟨rfl, -⟩ := Pc.add.inj (hpc.symm.trans he)
      exact Or.inl ⟨_, rfl⟩
    | addFails he hi => cases hqueue _ _ he hi
    | added he =>
      obtain ⟨rfl, -⟩ := Pc.add.inj (hpc.symm.trans he)
      exact Or.inr (Or.inl rfl)
    | _ => simp_all
  · rw [Sync.Inv, hpc] at hinv
    have hlt := h.votes_lt hinv
    cases hc with
    | blocks he _ =>
      obtain rfl := Pc.lock.inj (hpc.symm.trans he)
      exact Or.inr (Or.inr ⟨false, rfl⟩)
    | passes he hw =>
      simp only [Sync.mustWait, Bool.or_eq_false_iff, decide_eq_false_iff_not, not_not] at hw
      omega
    | _ => simp_all
  · rw [Sync.Inv, hpc] at hinv
    have hlt := h.votes_lt hinv
    have := hwait _ _ hpc
    omega

theorem Stuck.step {a : Actor} (h : Stuck s.sync) (hinv : Sync.Inv N .write s.sync) (hcalm : Calm N l s a s') :
    Stuck s'.sync := by
  have hstep := hcalm.step
  cases hstep with
  | coordinate hc => exact h.coordinate hinv hc (hcalm.queues rfl) (hcalm.awaits rfl)
  | localWrite hpc =>
    rcases h.pc with ⟨n, he⟩ | he | ⟨woken, he⟩ <;> cases hpc.symm.trans he
  | readBack hpc =>
    rcases h.pc with ⟨n, he⟩ | he | ⟨woken, he⟩ <;> cases hpc.symm.trans he
  | job hw => exact h.work hw
  | @receives fn i j reply hj => exact h.work (N := N) (.reply hj)
  | @timesOut fn i j hj => exact h.work (N := N) (.reply hj)
  | carriesOut => exact h

/-- A step of a job that waits for no reply keeps the invariant, or is a connection that fails. -/
theorem Inv.works (h : Inv N l own peers flags x s) {fn : SendFn} {j : Nat} (hw : Sync.Work N s.sync fn j u')
    (hsent : ∀ i, (s.sync.jobs fn)[j]? ≠ some (.sent i)) :
    Inv N l own peers flags x { s with sync := u' } ∨ Stuck u' := by
  by_cases hfails : fn = .send_precommit ∧ ∃ i, (u'.jobs .send_precommit)[j]? = some (.returned (some i))
  · obtain ⟨rfl, i, hj⟩ := hfails
    refine Or.inr ⟨⟨i, List.mem_of_getElem? hj⟩, ?_⟩
    have hpc := h.orders.1.pc_of_precommit hw.moves
    rcases hw.moves.same.pc with hsame | ⟨r, woken, hwait, hwoken⟩
    · rw [hsame]
      exact hpc
    · rcases hpc with ⟨n, he⟩ | he | ⟨woken', he⟩
      · cases hwait.symm.trans he
      · cases hwait.symm.trans he
      · obtain ⟨rfl, -⟩ := Pc.wait.inj (hwait.symm.trans he)
        exact Or.inr (Or.inr ⟨true, hwoken⟩)
  · refine Or.inl (h.job hw hsent fun i hfn hj => ?_)
    subst hfn
    exact (hw.claimed hj).resolve_right fun hret => hfails ⟨rfl, i, hret⟩

theorem Step.sync {a : Actor} (h : Step N l s a s') : s'.sync = s.sync ∨ ∃ b, Sync.Step N .write s.sync b s'.sync := by
  cases h with
  | coordinate hc => exact Or.inr ⟨_, .coordinator hc⟩
  | localWrite hpc hwrite => exact Or.inr ⟨_, .coordinator (.localWrite hpc ⟨_, _, _, _, congrArg Prod.fst hwrite⟩)⟩
  | readBack hpc hread => exact Or.inr ⟨_, .coordinator (.readBack hpc ⟨_, _, _, _, _, hread⟩)⟩
  | job hw => exact Or.inr ⟨_, .job hw⟩
  | receives hj => exact Or.inr ⟨_, .job (.reply hj)⟩
  | timesOut hj => exact Or.inr ⟨_, .job (.reply hj)⟩
  | carriesOut => exact Or.inl rfl

/-- **The step lemma.** -/
theorem Inv.step {a : Actor} (h : Inv N l own peers flags x s) (hcalm : Calm N l s a s') (hl : l.Fits)
    (hc : ∀ i, i < N → ∀ x ∈ peers i, Clean x) (hint : ∀ i, i < N → ((fileOf (peers i)).length : Int) ≤ INT_MAX) :
    (∃ y, Inv N l own peers flags y s') ∨ Stuck s'.sync := by
  have hstep := hcalm.step
  cases hstep with
  | coordinate hco hlocal hread =>
    exact Or.inl ⟨x, h.coordinate hco hlocal hread (hcalm.queues rfl) (hcalm.awaits rfl)⟩
  | localWrite hpc hwrite => exact Or.inl ⟨_, h.localWrite hpc hwrite⟩
  | readBack hpc hread => exact Or.inl ⟨_, h.readBack hpc hread⟩
  | job hw hsent => exact (h.works hw hsent).imp (fun hx => ⟨x, hx⟩) id
  | receives hj hr => exact Or.inl ⟨_, h.replied hj (Or.inr ⟨rfl, _, hr, rfl⟩)⟩
  | @timesOut fn i j hj =>
    have hsame : ({ s with sync := s.sync.setJob fn j (.replied i []) } : Cluster).setLink i (s.links i) =
        { s with sync := s.sync.setJob fn j (.replied i []) } := by
      rw [setLink, Function.update_eq_self]
    have hrep : Inv N l own peers flags (x.setReply fn i [])
        (({ s with sync := s.sync.setJob fn j (.replied i []) } : Cluster).setLink i (s.links i)) :=
      h.replied hj (Or.inl ⟨rfl, rfl⟩)
    rw [hsame] at hrep
    exact Or.inl ⟨_, hrep⟩
  | @carriesOut i r rest pattern junk session reply d hsent hpc hrun =>
    refine Or.inl ⟨x, h.carriesOut hl hc hint hsent hpc hrun fun hr => ?_⟩
    subst hr
    exact hcalm.undoes i pattern rfl

theorem Start.inv (h : Start N own peers s) (x : Sync.Exchange) :
    Inv N l own peers (fun i => (s.sync.peer_addr i).dont_reissue) x s := by
  have hheard : ∀ fn i, s.sync.heard fn i = false := by
    intro fn i
    rw [Sync.heard, h.sync.jobs]
    rfl
  refine ⟨h.sync.orders h.requests, ?_, ?_, ?_, fun i hi => ?_⟩
  · rw [h.sync.pc]
    exact h.write_return
  · intro fn _ i hmem
    rw [h.sync.jobs] at hmem
    cases hmem
  · rw [h.own_file, h.write_return]
    simp
  · obtain ⟨hcarried, hreplies, hreceived⟩ := h.fresh i hi
    refine ⟨?_, ?_, fun _ => hreceived, ?_, ?_, ?_⟩
    · rw [hcarried]
      exact .fresh (h.ready i hi) hreplies ⟨h.peer_file i hi, h.no_write i hi, h.no_replace i hi⟩
    · rw [hcarried]
      exact List.nil_prefix
    · rw [hheard]
      simp
    · intro _
      rw [hreceived]
      exact Nat.zero_le 1
    · rw [hheard]
      simp

/-- **The run lemma.** -/
theorem Inv.run {s₀ : Cluster} {tr : List (Cluster × Actor)} (hl : l.Fits) (h₀ : Start N own peers s₀)
    (hrun : Runs.Run (Calm N l) s₀ tr s) : Sync.Inv N .write s.sync ∧
      ((∃ x, Inv N l own peers (fun i => (s₀.sync.peer_addr i).dont_reissue) x s) ∨ Stuck s.sync) := by
  have hstart : ∃ x, Inv N l own peers (fun i => (s₀.sync.peer_addr i).dont_reissue) x s₀ :=
    ⟨⟨fun _ _ => [], 0, 0⟩, h₀.inv _⟩
  refine @Runs.Run.inv_of_step _ _ _ _ _ _ (fun s => Sync.Inv N .write s.sync ∧
    ((∃ x, Inv N l own peers (fun i => (s₀.sync.peer_addr i).dont_reissue) x s) ∨ Stuck s.sync))
    ⟨h₀.sync.inv, Or.inl hstart⟩ ?_ hrun
  intro s a s' h hcalm
  obtain ⟨hinv, h⟩ := h
  refine ⟨?_, ?_⟩
  · rcases hcalm.step.sync with he | ⟨b, hb⟩
    · rw [he]
      exact hinv
    · exact Sync.step_inv hinv hb
  · rcases h with ⟨x, h⟩ | h
    · exact h.step hcalm hl h₀.clean h₀.int
    · exact Or.inr (h.step hinv hcalm)

/-! The end of a run. -/

theorem ReadsAs.of_eq {file : List Char} (h : file = fileOf ls) : ReadsAs file ls := by
  intro junk id _
  rw [h]

/-- A peer that replied `positive` to COMMIT and is not sent an ABORT has the line. -/
theorem Connected.wrote (h : Connected l ls x u i k) (hheard : u.heard .send_commit i = true)
    (hpos : Job.positive (x.reply .send_commit i) = true) (habort : .abort ∉ u.sentTo i) :
    lineOf l.msg_nmbr ls = none ∧ k.bbfile = fileOf (ls ++ [l.peerText]) := by
  have hne : x.reply .send_commit i ≠ [] := by
    intro hnil
    rw [hnil] at hpos
    cases hpos
  obtain ⟨reply, hr, htext⟩ := (h.commit hheard).resolve_left hne
  rw [htext] at hpos
  obtain rfl : reply = .positive := by
    cases reply with
    | positive => rfl
    | negative => cases hpos
    | negative_exists => cases hpos
  have hserved := h.served
  generalize hrs : k.carried = rs at hserved
  cases hserved with
  | fresh _ hreplies _ => rw [hreplies] at hr; cases hr
  | agreed _ _ hreplies _ => rw [hreplies] at hr; cases hr
  | refused _ hlen _ => exact absurd (List.getElem?_eq_some_iff.1 hr).1 (by omega)
  | wrote _ _ hw => exact ⟨hw.free, hw.file⟩
  | @kept reply hne hreplies _ =>
    rw [hreplies] at hr
    cases reply with
    | none => cases hr
    | some reply => exact absurd hr hne
  | aborted _ _ =>
    have hmem : .abort ∈ k.carried := by rw [hrs]; simp
    exact absurd (h.sent.subset hmem) habort
  | quitEarly _ hlen _ => exact absurd (List.getElem?_eq_some_iff.1 hr).1 (by omega)
  | quitWrote _ hw => exact ⟨hw.free, hw.file⟩
  | @quitKept reply _ hne hreplies _ =>
    rw [hreplies] at hr
    cases reply with
    | none => cases hr
    | some reply => exact absurd hr hne

/-- A peer that was sent no COMMIT has its file as it was. -/
theorem Connected.kept (h : Connected l ls x u i k) (hcommit : .commit .write ∉ u.sentTo i) :
    k.bbfile = fileOf ls := by
  have hnot : .commit .write ∉ k.carried := fun hmem => hcommit (h.sent.subset hmem)
  have hserved := h.served
  generalize hrs : k.carried = rs at hserved
  rw [hrs] at hnot
  cases hserved with
  | fresh _ _ hk => exact hk.file
  | agreed _ _ _ hk => exact hk.file
  | refused _ _ hfile => exact hfile
  | quitEarly _ _ hfile => exact hfile
  | wrote | kept | aborted | quitWrote | quitKept => exact absurd (by simp) hnot

/-- A peer whose session is done with an ABORT, or replied `negative_exists`, reads as before. -/
theorem Connected.undone (h : Connected l ls x u i k) (hl : l.Fits) (hc : ∀ x ∈ ls, Clean x) {flag : Bool}
    (hsent : u.sentTo i = .precommit :: .commit .write :: if flag then [] else [.abort])
    (hflag : flag = true → k.replies[1]? ≠ some .positive) (hidle : k.Idle (u.sentTo i)) : ReadsAs k.bbfile ls := by
  have hprefix := h.sent
  have hserved := h.served
  unfold Link.Idle at hidle
  generalize hrs : k.carried = rs at hserved hidle hprefix
  rw [hsent] at hprefix hidle
  -- a session that is still open has carried out all requests
  have hopen : k.session.pc = .ready → rs = .precommit :: .commit .write :: if flag then [] else [.abort] := by
    intro hpc
    refine hidle.resolve_right ?_
    rw [hpc]
    simp
  cases hserved with
  | fresh hpc _ hk => exact .of_eq hk.file
  | agreed hpc _ _ hk => exact .of_eq hk.file
  | refused _ _ hfile => exact .of_eq hfile
  | wrote hpc hreplies _ =>
    have hall := hopen hpc
    cases flag with
    | true => exact absurd (by rw [hreplies]; rfl) (hflag rfl)
    | false => simp at hall
  | kept _ _ hk => exact .of_eq hk.file
  | aborted _ hfile =>
    rcases hfile with hfile | hundone
    · exact .of_eq hfile
    · exact hundone.readsAs hl hc
  | quitEarly _ _ hfile => exact .of_eq hfile
  | quitWrote => cases flag <;> simp at hprefix
  | quitKept _ _ _ hfile => exact .of_eq hfile

/-- The line is on file everywhere. -/
def Everywhere (N : Nat) (l : Line) (own : List CStr) (peers : Nat → List CStr) (s : Cluster) : Prop :=
  s.bbfile = fileOf (own ++ [l.text]) ∧ ∀ i, i < N →
    lineOf l.msg_nmbr (peers i) = none ∧ (s.links i).bbfile = fileOf (peers i ++ [l.peerText])

/-- No peer's file reads otherwise than before, when the jobs have run and the sessions are done. The
    own file has the line only when the read-back failed. -/
def Nowhere (N : Nat) (l : Line) (own : List CStr) (peers : Nat → List CStr) (s : Cluster) : Prop :=
  (s.bbfile = fileOf own ∨
    s.bbfile = fileOf (own ++ [l.text]) ∧ ∃ ret, ret < 0 ∧ s.sync.read_return = some ret) ∧
  ((∀ fn, ∀ job ∈ s.sync.jobs fn, job.finished = true) → ∀ i, i < N → (s.links i).Idle (s.sync.sentTo i) →
    ReadsAs (s.links i).bbfile (peers i))

theorem Inv.everywhere (h : Inv N l own peers flags x s) (hwrite : s.sync.write_return = some 0)
    (hcommits : Sync.AllVoted N (s.sync.jobs .send_commit)) (hcommit : x.AllPositive N .send_commit)
    (hdel : s.sync.jobs .send_del = []) : Everywhere N l own peers s := by
  have hfile := h.own_file
  rw [hwrite, if_pos rfl] at hfile
  refine ⟨hfile, fun i hi => ?_⟩
  obtain ⟨buff, hmem⟩ := hcommits.mem hi
  refine (h.links i hi).wrote (List.any_eq_true.2 ⟨_, hmem, decide_eq_true rfl⟩) (hcommit i hi) ?_
  rw [h.orders.2.sent, Sync.told, Sync.reached_of_nil hdel]
  cases (s.sync.peer_addr i).dont_reissue <;> simp

/-- After a PRECOMMIT that not all peers agreed to. -/
theorem Inv.nowhere_early (h : Inv N l own peers flags x s) (hwrite : s.sync.write_return = none)
    (hcommit : s.sync.jobs .send_commit = []) : Nowhere N l own peers s := by
  have hfile := h.own_file
  rw [hwrite, if_neg (by simp), List.append_nil] at hfile
  refine ⟨Or.inl hfile, fun _ i hi _ => .of_eq ((h.links i hi).kept ?_)⟩
  rw [h.orders.2.sent, Sync.told, Sync.reached_of_nil hcommit]
  cases s.sync.reached .send_precommit i <;> cases (s.sync.peer_addr i).dont_reissue <;>
    cases s.sync.reached .send_del i <;> cases s.sync.reached .send_quit i <;> simp

/-- After an ABORT. -/
theorem Inv.nowhere_late (h : Inv N l own peers flags x s) (hl : l.Fits)
    (hc : ∀ i, i < N → ∀ x ∈ peers i, Clean x) (hflags : ∀ i, i < N → flags i = false)
    (hs : Sync.Serving N .write x s.sync .abort N) (hclose : Sync.Closes N s.sync .abort) : Nowhere N l own peers s := by
  have ht := h.orders.2
  obtain ⟨hp, -, hcommits, hq, -⟩ := hs.before
  refine ⟨?_, fun hjobs i hi hidle => ?_⟩
  · have hfile := h.own_file
    by_cases hwrite : s.sync.write_return = some 0
    · rw [if_pos hwrite] at hfile
      exact Or.inr ⟨hfile, hclose.resolve_left fun hne => hne hwrite⟩
    · rw [if_neg hwrite, List.append_nil] at hfile
      exact Or.inl hfile
  · have hd : s.sync.reached .send_del i = true := hs.reached_all ht hjobs hi
    have hsent : s.sync.sentTo i =
        .precommit :: .commit .write :: if (s.sync.peer_addr i).dont_reissue then [] else [.abort] := by
      rw [ht.sent, Sync.told, hp.reached hi, hcommits.reached hi, hd, Sync.reached_of_nil hq]
      cases (s.sync.peer_addr i).dont_reissue <;> rfl
    refine (h.links i hi).undone hl (hc i hi) hsent ?_ hidle
    intro hflag
    obtain ⟨buff, hmem, hexists⟩ := ((ht.flags i).1 hflag).resolve_left (by rw [hflags i hi]; simp)
    have hbuff := ht.replies .send_commit i buff (Or.inr hmem)
    intro hreply
    have hheard : s.sync.heard .send_commit i = true := List.any_eq_true.2 ⟨_, hmem, decide_eq_true rfl⟩
    rcases (h.links i hi).commit hheard with hnil | ⟨reply, hr, htext⟩
    · rw [hbuff, hnil] at hexists
      cases hexists
    · obtain rfl : reply = .positive := Option.some.inj (hr.symm.trans hreply)
      rw [hbuff, htext] at hexists
      exact absurd hexists (by decide)

/-- **A WRITE is atomic.** When `sync_write` returns 0, its line is on file at its own server and at
    every peer, whose number was free. When it returns -1, no peer reads otherwise than before as
    soon as the sessions have carried out what they were sent. -/
theorem sync_write_atomic {s₀ : Cluster} {tr : List (Cluster × Actor)} {ret : Int} (hl : l.Fits)
    (h₀ : Start N own peers s₀) (hrun : Runs.Run (Calm N l) s₀ tr s) (hret : s.sync.pc = .returned ret) :
    ret = 0 ∧ Everywhere N l own peers s ∨ ret = -1 ∧ Nowhere N l own peers s := by
  obtain ⟨-, ⟨x, h⟩ | h⟩ := Inv.run hl h₀ hrun
  case inr =>
    rcases h.pc with ⟨n, he⟩ | he | ⟨woken, he⟩ <;> cases hret.symm.trans he
  have hcourse := h.course
  rw [hret] at hcourse
  obtain ⟨r, hafter, hs, hclose⟩ := hcourse
  cases r with
  | precommit => cases hafter
  | commit => cases hafter
  | abort =>
    obtain rfl : -1 = ret := Pc.returned.inj hafter
    exact Or.inr ⟨rfl, h.nowhere_late hl h₀.clean h₀.dont_reissue hs hclose⟩
  | quit m =>
    obtain rfl : m = ret := Pc.returned.inj hafter
    obtain ⟨-, hdel, hwhy⟩ := hs.before
    rcases hclose with ⟨rfl, hwrite, hlen⟩ | ⟨rfl, hwrite, hlen⟩
    · rcases hwhy with ⟨-, hneg, hcommit⟩ | ⟨-, hcommits, hcommit, -⟩
      · rw [hcommit] at hlen
        exact absurd (fun i hi => absurd hi (by rw [← hlen]; simp)) hneg
      · exact Or.inl ⟨rfl, h.everywhere hwrite hcommits hcommit hdel⟩
    · exact Or.inr ⟨rfl, h.nowhere_early hwrite (List.length_eq_zero_iff.1 hlen)⟩

/-! A run with one peer. -/

theorem Calm.of_coordinate (hc : Sync.Coordinate N .write s.sync u')
    (hlocal : s.sync.pc ≠ .localWrite ∧ s.sync.pc ≠ .readBack)
    (hadd : ∀ r i, s.sync.pc = .add r i → i < N → u'.pc = .add r (i + 1))
    (hwait : ∀ r woken, s.sync.pc = .wait r woken → s.sync.pos_count + s.sync.neg_count = N) :
    Calm N l s .coordinator { s with sync := u' } where
  step := .coordinate hc hlocal.1 hlocal.2
  queues _ := hadd
  awaits _ := hwait
  undoes _ _ ha := by cases ha

theorem Calm.of_file (hstep : Step N l s .coordinator s') (hpc : s.sync.pc = .localWrite ∨ s.sync.pc = .readBack) :
    Calm N l s .coordinator s' where
  step := hstep
  queues _ r i hadd := by rcases hpc with hpc | hpc <;> cases hpc.symm.trans hadd
  awaits _ r woken hwait := by rcases hpc with hpc | hpc <;> cases hpc.symm.trans hwait
  undoes _ _ ha := by cases ha

theorem Calm.of_job {fn : SendFn} {j : Nat} (hstep : Step N l s (.job fn j) s') : Calm N l s (.job fn j) s' where
  step := hstep
  queues ha := by cases ha
  awaits ha := by cases ha
  undoes _ _ ha := by cases ha

theorem Calm.of_session {r : Request} {pattern : List Bool} (hstep : Step N l s (.session i r pattern) s')
    (hr : r ≠ .abort) : Calm N l s (.session i r pattern) s' where
  step := hstep
  queues ha := by cases ha
  awaits ha := by cases ha
  undoes _ _ ha := by
    cases ha
    exact absurd rfl hr

def lineHi : Line := ⟨['1'], "al".toList, "hi".toList⟩

theorem lineHi_fits : lineHi.Fits where
  number := by
    refine ⟨by decide, fun c hc => ?_⟩
    obtain rfl := List.mem_singleton.1 hc
    rfl
  precommit := ⟨⟨by decide, by decide⟩, by decide⟩
  commit := ⟨⟨by decide, by decide⟩, by decide⟩

def newSession : Peer := ⟨.ready, "nobody".toList, [], [], [], []⟩

/-- One peer, and no line on file. -/
def onePeer : Cluster := ⟨Sync.onePeer, fun _ => ⟨[], newSession, [], [], 0⟩, []⟩

theorem onePeer_start : Start 1 [] (fun _ => []) onePeer where
  sync := Sync.onePeer_init
  requests := rfl
  write_return := rfl
  dont_reissue _ _ := rfl
  own_file := rfl
  clean _ _ _ hx := by cases hx
  int _ _ := by unfold INT_MAX; decide
  fresh _ _ := ⟨rfl, rfl, rfl⟩
  peer_file _ _ := rfl
  ready _ _ := rfl
  no_write _ _ := by
    show newSession.undo_command ≠ "write".toList
    decide
  no_replace _ _ := by
    show newSession.undo_command ≠ "replace".toList
    decide

theorem sync_write_atomic_onePeer : ∃ tr s, Runs.Run (Calm 1 lineHi) onePeer tr s ∧ s.sync.pc = .returned 0 ∧
    (0 = (0 : Int) ∧ Everywhere 1 lineHi [] (fun _ => []) s ∨ 0 = -1 ∧ Nowhere 1 lineHi [] (fun _ => []) s) := by
  have run := (Runs.Run.nil : Runs.Run (Calm 1 lineHi) onePeer [] onePeer)
  -- PRECOMMIT, and the session of the peer
  have run := run.snoc (.of_coordinate (.addJob rfl (by decide)) (by decide) (fun _ _ h _ => by cases h; rfl)
    fun _ _ h => by cases h)
  have run := run.snoc (.of_coordinate (.added rfl) (by decide) (fun _ _ h hi => by cases h; exact absurd hi (by decide))
    fun _ _ h => by cases h)
  have run := run.snoc (.of_coordinate (.blocks rfl rfl) (by decide) (fun _ _ h => by cases h) fun _ _ h => by cases h)
  have run := run.snoc (.of_job (.job (@Sync.Work.claim 1 _ .send_precommit 0 0 rfl rfl) (fun _ h => by cases h)))
  have run := run.snoc (.of_job (.job (@Sync.Work.connect 1 _ 0 0 5 rfl (by decide)) (fun _ h => by cases h)))
  have run := run.snoc (.of_session (@Step.carriesOut 1 lineHi _ 0 .precommit [] [] ⟨[], []⟩
    { newSession with user := "al".toList } (some .positive) (diskWith [] []) rfl rfl (by decide)) (by decide))
  have run := run.snoc (.of_job (@Step.receives 1 lineHi _ .send_precommit 0 0 .positive rfl rfl))
  have run := run.snoc (.of_job (.job (@Sync.Work.vote 1 _ .send_precommit 0 0 _ rfl) (fun _ h => by cases h)))
  have run := run.snoc (.of_coordinate (.wakes rfl) (by decide) (fun _ _ h => by cases h) fun _ _ h => by cases h; rfl)
  have run := run.snoc (.of_coordinate (.precommitted rfl rfl) (by decide) (fun _ _ h => by cases h)
    fun _ _ h => by cases h)
  have run := run.snoc (.of_coordinate (.resetPos rfl) (by decide) (fun _ _ h => by cases h) fun _ _ h => by cases h)
  have run := run.snoc (.of_coordinate (.resetNeg rfl) (by decide) (fun _ _ h => by cases h) fun _ _ h => by cases h)
  have run := run.snoc (.of_coordinate (.resetMark rfl (by decide)) (by decide) (fun _ _ h => by cases h)
    fun _ _ h => by cases h)
  have run := run.snoc (.of_coordinate (.resetDone rfl) (by decide) (fun _ _ h => by cases h) fun _ _ h => by cases h)
  -- COMMIT
  have run := run.snoc (.of_coordinate (.addJob rfl (by decide)) (by decide) (fun _ _ h _ => by cases h; rfl)
    fun _ _ h => by cases h)
  have run := run.snoc (.of_coordinate (.added rfl) (by decide) (fun _ _ h hi => by cases h; exact absurd hi (by decide))
    fun _ _ h => by cases h)
  have run := run.snoc (.of_coordinate (.blocks rfl rfl) (by decide) (fun _ _ h => by cases h) fun _ _ h => by cases h)
  have run := run.snoc (.of_job (.job (@Sync.Work.claim 1 _ .send_commit 0 0 rfl rfl) (fun _ h => by cases h)))
  have run := run.snoc (.of_job (.job (@Sync.Work.commit 1 _ 0 0 rfl (by decide) (by decide)) (fun _ h => by cases h)))
  have run := run.snoc (.of_session (@Step.carriesOut 1 lineHi _ 0 (.commit .write) [] [] ⟨[], []⟩
    { newSession with user := "al".toList, undo_command := "write".toList, undo_nmbr := ['1'] } (some .positive)
    (diskWith (fileOf [lineHi.peerText]) []) rfl rfl (by decide)) (by decide))
  have run := run.snoc (.of_job (@Step.receives 1 lineHi _ .send_commit 0 0 .positive rfl rfl))
  have run := run.snoc (.of_job (.job (@Sync.Work.vote 1 _ .send_commit 0 0 _ rfl) (fun _ h => by cases h)))
  have run := run.snoc (.of_coordinate (.wakes rfl) (by decide) (fun _ _ h => by cases h) fun _ _ h => by cases h; rfl)
  have run := run.snoc (.of_coordinate (.committed rfl rfl) (by decide) (fun _ _ h => by cases h) fun _ _ h => by cases h)
  -- the local write, the read-back and QUIT
  have run := run.snoc (.of_file (@Step.localWrite 1 lineHi _ 0 (diskWith (fileOf [lineHi.text]) []) [] rfl (by decide))
    (Or.inl rfl))
  have run := run.snoc (.of_file (@Step.readBack 1 lineHi _ 5 (some "al/hi".toList) (diskWith (fileOf [lineHi.text]) [])
    [] [] rfl (by decide)) (Or.inr rfl))
  have run := run.snoc (.of_coordinate (.resetPos rfl) (by decide) (fun _ _ h => by cases h) fun _ _ h => by cases h)
  have run := run.snoc (.of_coordinate (.resetNeg rfl) (by decide) (fun _ _ h => by cases h) fun _ _ h => by cases h)
  have run := run.snoc (.of_coordinate (.resetMark rfl (by decide)) (by decide) (fun _ _ h => by cases h)
    fun _ _ h => by cases h)
  have run := run.snoc (.of_coordinate (.resetDone rfl) (by decide) (fun _ _ h => by cases h) fun _ _ h => by cases h)
  have run := run.snoc (.of_coordinate (.addJob rfl (by decide)) (by decide) (fun _ _ h _ => by cases h; rfl)
    fun _ _ h => by cases h)
  have run := run.snoc (.of_coordinate (.added rfl) (by decide) (fun _ _ h hi => by cases h; exact absurd hi (by decide))
    fun _ _ h => by cases h)
  exact ⟨_, _, run, rfl, sync_write_atomic lineHi_fits onePeer_start run rfl⟩

end Cluster

end BulletinBoard
