import BulletinBoard.ErrorAnswers
import BulletinBoard.Replication
import BulletinBoard.Lib.Pool
import BulletinBoard.Lib.Run

/- Two servers, each the only peer of the other, and the WRITEs of their clients. A WRITE takes a
   number from its own server, puts its line on the file of the peer with COMMIT, and on its
   own file last. Only the peer looks whether the number is in use. An ABORT or QUIT is sent only
   when `dont_reissue` is clear, which a `negative_exists` sets and nothing clears before. -/
namespace BulletinBoard

/-! The source. -/

def abortRequest : CStr := "abort ".toList

def quitRequest : CStr := "quit ".toList

/-- Which request of a WRITE, or the local write, comes next; then what `sync_write` returned,
    before and after the client is answered. -/
inductive WriteStage where
  | precommit
  | commit
  | write
  | returned (sync_ret : Int)
  | answered (sync_ret : Int)
  deriving DecidableEq, Repr

/-- A WRITE with its number, the session of the peer that takes its requests, the request of the
    last round while its job has not run, and the peer's `dont_reissue`. A session that is closed,
    or not begun, receives nothing. -/
structure Coordination where
  client : Client
  line : CStr
  num : Int
  stage : WriteStage
  session : Peer
  closing : Option CStr
  dont_reissue : Bool
  deriving DecidableEq, Repr

namespace Coordination

/-- `peer_addr` is new: its `dont_reissue` may be set. -/
def start (client : Client) (line : CStr) (num : Int) (dont_reissue : Bool) : Coordination where
  client := client
  line := line
  num := num
  stage := .precommit
  session := ⟨.closed, [], [], [], [], []⟩
  closing := none
  dont_reissue := dont_reissue

def nmbr (c : Coordination) : CStr := showInt c.num

def message (c : Coordination) : CStr := textFrom 1 (commandOf c.line)

/-- After the reply to PRECOMMIT. -/
def precommitted (c : Coordination) (session : Peer) (reply : Option PeerReply) : Coordination :=
  if reply = some .positive then { c with session := session, stage := .commit }
  else { c with session := session, stage := .returned (-1), closing := some quitRequest }

/-- After the reply to COMMIT. -/
def committed (c : Coordination) (session : Peer) (reply : Option PeerReply) : Coordination :=
  if reply = some .positive then { c with session := session, stage := .write }
  else { c with
    session := session, stage := .returned (-1), closing := some abortRequest
    dont_reissue := c.dont_reissue || reply = some .negative_exists }

/-- After the local write. -/
def wrote (c : Coordination) (sync_ret : Int) : Coordination :=
  { c with
      stage := .returned sync_ret
      closing := some (if sync_ret = 0 then quitRequest else abortRequest) }

/-- `sync_write` has returned 0. -/
def written (c : Coordination) : Bool :=
  match c.stage with
  | .returned sync_ret | .answered sync_ret => sync_ret = 0
  | _ => false

/-- The line for the own file. -/
def text (c : Coordination) : CStr := mkLine c.nmbr c.client.user c.message

/-- The line that the peer makes of the two requests. -/
def peerText (c : Coordination) : CStr :=
  mkLine c.nmbr (textFrom 1 (commandOf (precommitRequest c.client.user)))
    (textFrom 3 (commandOf (commitWriteRequest c.nmbr c.message)))

/-- The peer has put its line on file, and neither the own server nor an ABORT has followed. -/
def Posted (c : Coordination) : Prop :=
  c.session.pc = .ready ∧ c.session.undo_command = "write".toList ∧ c.written = false

instance (c : Coordination) : Decidable c.Posted := inferInstanceAs (Decidable (_ ∧ _))

end Coordination

structure Server where
  bbfile : List Char
  num_gen : NumGen
  coordinations : List Coordination

inductive Side where
  | first
  | second
  deriving DecidableEq, Repr

def Side.other : Side → Side
  | first => second
  | second => first

abbrev Servers := Side → Server

namespace Servers

def start (b : Board) : Servers := fun _ => ⟨b.bytes, ⟨[]⟩, []⟩

def setFile (s : Servers) (x : Side) (file : List Char) : Servers :=
  Function.update s x { s x with bbfile := file }

def setGen (s : Servers) (x : Side) (g : NumGen) : Servers :=
  Function.update s x { s x with num_gen := g }

def setCoordinations (s : Servers) (x : Side) (cs : List Coordination) : Servers :=
  Function.update s x { s x with coordinations := cs }

/-- The coordination number `i` has gone on to `c`. -/
def advance (s : Servers) (x : Side) (i : Nat) (c : Coordination) : Servers :=
  s.setCoordinations x ((s x).coordinations.set i c)

end Servers

inductive ServersOp where
  | generate (x : Side)
  | precommit (x : Side) (i : Nat) (session : Peer)
  | commit (x : Side) (i : Nat)
  | write (x : Side) (i : Nat) (pattern : List Bool)
  | answer (x : Side) (i : Nat)
  | close (x : Side) (i : Nat) (pattern : List Bool)
  deriving DecidableEq, Repr

/-- One step of a WRITE at the server `x`. The opens of each step succeed or fail by a pattern, and
    the session of the peer starts with anything in its buffers. -/
inductive ServersStep (s : Servers) : ServersOp → Servers → Prop where
  | generate {x : Side} {client : Client} {line : CStr} {junk : List Char} {pattern : List Bool} {num : Int}
      {g : NumGen} {d : Disk} (dont_reissue : Bool) :
      Received line → requestKind line = "write".toList → 1 < (commandOf line).length →
      generateNumber junk (s x).num_gen (diskWith (s x).bbfile pattern) = some (num, g, d) →
      ServersStep s (.generate x) ((s.setGen x g).setCoordinations x
        ((s x).coordinations ++ [.start client line num dont_reissue]))
  | precommit {x : Side} {i : Nat} {c : Coordination} {session session' : Peer} {junk : Junk}
      {pattern : List Bool} {reply : Option PeerReply} {d : Disk} :
      (s x).coordinations[i]? = some c → c.stage = .precommit → session.pc = .ready →
      session.run junk (precommitRequest c.client.user) (diskWith (s x.other).bbfile pattern) =
        some (session', reply, d) →
      ServersStep s (.precommit x i session)
        ((s.setFile x.other d.bbfile).advance x i (c.precommitted session' reply))
  | commit {x : Side} {i : Nat} {c : Coordination} {session' : Peer} {junk : Junk} {pattern : List Bool}
      {reply : Option PeerReply} {d : Disk} :
      (s x).coordinations[i]? = some c → c.stage = .commit →
      c.session.run junk (commitWriteRequest c.nmbr c.message) (diskWith (s x.other).bbfile pattern) =
        some (session', reply, d) →
      ServersStep s (.commit x i) ((s.setFile x.other d.bbfile).advance x i (c.committed session' reply))
  | write {x : Side} {i : Nat} {c : Coordination} {junk : Junk} {pattern : List Bool} {sync_ret : Int}
      {d : Disk} :
      (s x).coordinations[i]? = some c → c.stage = .write →
      syncWriteAlone junk c.nmbr c.client.user c.message (diskWith (s x).bbfile pattern) = some (sync_ret, d) →
      ServersStep s (.write x i pattern) ((s.setFile x d.bbfile).advance x i (c.wrote sync_ret))
  | wrote {x : Side} {i : Nat} {c : Coordination} :
      (s x).coordinations[i]? = some c → c.stage = .returned 0 → 0 ≤ c.num →
      ServersStep s (.answer x i) (s.advance x i { c with stage := .answered 0 })
  | failed {x : Side} {i : Nat} {c : Coordination} {sync_ret : Int} :
      (s x).coordinations[i]? = some c → c.stage = .returned sync_ret → ¬(sync_ret = 0 ∧ 0 ≤ c.num) →
      ServersStep s (.answer x i) ((s.setGen x (releaseNumber c.num (s x).num_gen).2).advance x i
        { c with stage := .answered sync_ret })
  -- `send_del` or `send_quit`
  | close {x : Side} {i : Nat} {c : Coordination} {session' : Peer} {junk : Junk} {pattern : List Bool}
      {request : CStr} {reply : Option PeerReply} {d : Disk} :
      (s x).coordinations[i]? = some c → c.closing = some request → c.dont_reissue = false → c.session.pc ≠ .closed →
      c.session.run junk request (diskWith (s x.other).bbfile pattern) = some (session', reply, d) →
      ServersStep s (.close x i pattern)
        ((s.setFile x.other d.bbfile).advance x i { c with session := session', closing := none })
  | notSent {x : Side} {i : Nat} {c : Coordination} {pattern : List Bool} :
      (s x).coordinations[i]? = some c → c.closing ≠ none → c.dont_reissue = true →
      ServersStep s (.close x i pattern) (s.advance x i { c with closing := none })
  | closed {x : Side} {i : Nat} {c : Coordination} {pattern : List Bool} :
      (s x).coordinations[i]? = some c → c.closing ≠ none → c.session.pc = .closed →
      ServersStep s (.close x i pattern) (s.advance x i { c with closing := none })

/-! Agreement, and the condition for it. -/

section
variable {β : Type*} (view : CStr → β)

/-- The live lines: their numbers, and what is looked at. -/
def entries (ls : List CStr) : List (CStr × β) :=
  (ls.filter fun l => decide (IsNumeral (firstField l))).map fun l => (firstField l, view l)

/-- The lines of these WRITEs that only the peer has. -/
def postedLines (cs : List Coordination) : List CStr := cs.flatMap fun c => if c.Posted then [c.text] else []

/-- No request is in progress. -/
def Servers.Quiet (s : Servers) : Prop :=
  ∀ x, ∀ c ∈ (s x).coordinations, c.closing = none ∧ ∃ sync_ret, c.stage = .answered sync_ret

/-- The live lines of the two files are the same up to order, and no number has two in either. -/
def Servers.Agree (s : Servers) : Prop :=
  (entries view (linesOf (s .first).bbfile)).Perm (entries view (linesOf (s .second).bbfile)) ∧
    ∀ x, Distinct (linesOf (s x).bbfile)

/-- `temp_list` has room. The requests fit their buffers, and the peer makes of them a line that
    looks like the own one. `undo_command` does not happen to name a command. A local write that
    succeeds can be read back, and every line of its number that its file has was put there by a
    WRITE of the other server that is not on that server's file. An ABORT of a line that the peer has
    put on file is sent, finds the line where an `int` reaches, and its opens succeed. -/
def ServersStep.Meets (s : Servers) : ServersOp → Prop
  | .generate x => (s x).num_gen.count < MAX_LEN
  | .precommit x i session =>
    session.undo_command ≠ "write".toList ∧ session.undo_command ≠ "replace".toList ∧
      ∀ c, (s x).coordinations[i]? = some c → Received (precommitRequest c.client.user)
  | .commit x i => ∀ c, (s x).coordinations[i]? = some c →
    Received (commitWriteRequest c.nmbr c.message) ∧ view c.peerText = view c.text
  | .write x i pattern => ∀ c, (s x).coordinations[i]? = some c →
    pattern.getD 0 true = true ∧ pattern.getD 1 true = true →
      pattern.getD 2 true = true ∧ (IsNumeral c.nmbr →
        copies c.nmbr (linesOf (s x).bbfile) ≤ copies c.nmbr (postedLines (s x.other).coordinations))
  | .answer _ _ => True
  | .close x i pattern => ∀ c, (s x).coordinations[i]? = some c → c.Posted → c.closing = some abortRequest →
    c.dont_reissue = false ∧ pattern.getD 0 true = true ∧ pattern.getD 1 true = true ∧
      (lineStart c.nmbr (s x.other).bbfile : Int) ≤ INT_MAX

end

/-! The live lines of a file. -/

section
variable {β : Type*} {view : CStr → β} {ls : List CStr}

@[simp] theorem entries_nil : entries view [] = [] := rfl

@[simp] theorem entries_append (ls' : List CStr) : entries view (ls ++ ls') = entries view ls ++ entries view ls' := by
  simp [entries]

/-- One line stands for another. -/
theorem entries_congr {l l' : CStr} (hk : firstField l = firstField l') (hv : view l = view l') :
    entries view [l] = entries view [l'] := by
  by_cases h : IsNumeral (firstField l')
  · simp [entries, hk, hv, h]
  · simp [entries, hk, h]

/-- A delete takes one live line away. -/
theorem entries_deleteIn {id l : CStr} (hc : ∀ l ∈ ls, Clean l) (h : lineOf id ls = some l) :
    (entries view (deleteIn id ls) ++ entries view [l]).Perm (entries view ls) := by
  obtain ⟨a, c, rfl, ha, -, hk⟩ := lineOf_split hc h
  have hdeleted : entries view [deletedLine l.length] = [] := by
    have hnot : ¬ IsNumeral (firstField (deletedLine l.length)) := fun hn => firstField_deleted_ne hn _ rfl
    simp [entries, hnot]
  have hsplit : ∀ x, entries view (a ++ x :: c) = entries view a ++ (entries view [x] ++ entries view c) := by
    intro x
    rw [← entries_append, ← entries_append]
    rfl
  rw [deleteIn_append ha hk, hsplit, hsplit, hdeleted, List.nil_append, List.append_assoc]
  exact List.Perm.append_left _ List.perm_append_comm

theorem firstField_deleted_ne_showInt (n : Nat) (num : Int) : firstField (deletedLine n) ≠ showInt num := by
  rw [firstField_deletedLine]
  intro h
  obtain ⟨c, hc⟩ := List.exists_mem_of_ne_nil _ (showInt_ne_nil num)
  rw [← h] at hc
  obtain rfl := List.eq_of_mem_replicate hc
  rw [h] at hc
  rcases showInt_chars hc with hc | hc
  · exact absurd hc (by decide)
  · exact absurd hc (by decide)

/-- The lines of other numbers stay. -/
theorem lineOf_deleteIn {num : Int} {id : CStr} (hne : showInt num ≠ id) (ls : List CStr) :
    lineOf (showInt num) (deleteIn id ls) = lineOf (showInt num) ls :=
  lineOf_deleteIn_of_ne (fun n => firstField_deleted_ne_showInt n num) hne ls

end

/-! One coordination replaced in its list. -/

section
variable {cs : List Coordination} {i : Nat} {c c' : Coordination}

theorem postedLines_append (cs' : List Coordination) :
    postedLines (cs ++ cs') = postedLines cs ++ postedLines cs' := List.flatMap_append

theorem postedLines_one (c : Coordination) : postedLines [c] = if c.Posted then [c.text] else [] := by
  simp [postedLines]

/-- The lines that only the peer has, when one coordination goes on. -/
theorem postedLines_set (h : cs[i]? = some c) (c' : Coordination) :
    (postedLines (cs.set i c') ++ postedLines [c]).Perm (postedLines cs ++ postedLines [c']) := by
  rw [postedLines_one, postedLines_one]
  exact Pool.flatMap_set_perm (fun c => if c.Posted then [c.text] else []) h

end


/-! The requests at the peer. -/

section
variable {p p' : Peer} {junk : Junk} {ls : List CStr} {nmbr message : CStr} {pattern : List Bool}
  {reply : Option PeerReply} {d' : Disk}

/-- A PRECOMMIT touches no file. Answered `positive`, it leaves the name with the session. -/
theorem run_precommit_cases {user : CStr} {d : Disk} (hrec : Received (precommitRequest user)) (hpc : p.pc = .ready)
    (hrun : p.run junk (precommitRequest user) d = some (p', reply, d')) : d' = d ∧
      (reply = some .positive ∧ p' = { p with user := textFrom 1 (commandOf (precommitRequest user)) } ∨
        reply ≠ some .positive ∧ p'.pc = .closed) := by
  rw [Peer.run, request_precommit (commandOf_precommitRequest hrec)] at hrun
  by_cases hlen : (commandOf (precommitRequest user)).length ≥ 2
  · have hdone : ({ p with user := textFrom 1 (commandOf (precommitRequest user)) } : Peer).pc = .ready := hpc
    rw [if_pos hlen] at hrun
    dsimp only at hrun
    rw [Peer.finish_done (Or.inl hdone)] at hrun
    simp only [Option.some.injEq, Prod.mk.injEq] at hrun
    obtain ⟨rfl, rfl, rfl⟩ := hrun
    exact ⟨rfl, Or.inl ⟨rfl, rfl⟩⟩
  · rw [if_neg hlen] at hrun
    dsimp only at hrun
    rw [Peer.finish_done (Or.inr rfl)] at hrun
    simp only [Option.some.injEq, Prod.mk.injEq] at hrun
    obtain ⟨rfl, rfl, rfl⟩ := hrun
    exact ⟨rfl, Or.inr ⟨by simp, rfl⟩⟩

/-- What the file operations of a COMMIT of a WRITE come to. -/
theorem finish_write_cases (hc : ∀ l ∈ ls, Clean l)
    (hrun : Peer.finish junk 4 ({ p with pc := .writeCheck nmbr message }, none, diskWith (fileOf ls) pattern) =
      some (p', reply, d')) :
    reply = some .positive ∧ lineOf nmbr ls = none ∧
        p' = { p with pc := .ready, undo_command := "write".toList, undo_nmbr := nmbr } ∧
        d'.bbfile = fileOf (ls ++ [mkLine nmbr p.user message]) ∨
      reply ≠ some .positive ∧ d'.bbfile = fileOf ls ∧ p'.undo_command = p.undo_command := by
  have hdisk : diskWith (fileOf ls) pattern = diskWith (fileOf ls) (pattern.drop 0) := rfl
  rw [Peer.finish_writeCheck, hdisk] at hrun
  have hrefused : ∀ {r : Int} {text : Option CStr}, r ≠ -1 →
      readDescriptor junk.line nmbr (diskWith (fileOf ls) (pattern.drop 0)) =
        some ((r, text), diskWith (fileOf ls) (pattern.drop 1)) →
      reply ≠ some .positive ∧ d'.bbfile = fileOf ls ∧ p'.undo_command = p.undo_command := by
    intro r text hr hread
    rw [hread, Option.map_some] at hrun
    dsimp only at hrun
    rw [if_neg hr] at hrun
    simp only [Option.some.injEq, Prod.mk.injEq] at hrun
    obtain ⟨rfl, rfl, rfl⟩ := hrun
    exact ⟨by simp, rfl, rfl⟩
  by_cases ho : pattern.getD 0 true = true
  · have hread := readDescriptor_with junk.line nmbr rfl hc ho
    cases hline : lineOf nmbr ls with
    | some l =>
      rw [hline] at hread
      have hpos : ((lineText l).length : Int) ≠ -1 := by omega
      exact Or.inr (hrefused hpos hread)
    | none =>
      rw [hline] at hread
      rw [hread, Option.map_some] at hrun
      have hfree : (readAnswer none).1 = -1 := rfl
      dsimp only at hrun
      rw [if_pos hfree] at hrun
      by_cases ho' : pattern.getD 1 true = true ∧ pattern.getD 2 true = true
      · rw [writeDescriptor_with (fileOf ls) nmbr p.user message ho', if_pos rfl] at hrun
        simp only [Option.some.injEq, Prod.mk.injEq] at hrun
        obtain ⟨rfl, rfl, rfl⟩ := hrun
        refine Or.inl ⟨rfl, rfl, rfl, ?_⟩
        rw [diskWith_bbfile, fileOf_append]
      · obtain ⟨j, hwrite⟩ := writeDescriptor_fails (fileOf ls) nmbr p.user message ho'
        rw [hwrite] at hrun
        dsimp only at hrun
        rw [if_neg (by decide)] at hrun
        simp only [Option.some.injEq, Prod.mk.injEq] at hrun
        obtain ⟨rfl, rfl, rfl⟩ := hrun
        exact Or.inr ⟨by simp, rfl, rfl⟩
  · exact Or.inr (hrefused (by decide) (readDescriptor_fails (fileOf ls) junk.line nmbr (by simpa using ho)))

/-- A COMMIT of a WRITE has put the line of a number that was free on file, or changed nothing. -/
theorem run_commit_cases (hc : ∀ l ∈ ls, Clean l) (hrec : Received (commitWriteRequest nmbr message))
    (hn : nmbr ≠ []) (hsep : ∀ c ∈ nmbr, isWordSep c = false)
    (hrun : p.run junk (commitWriteRequest nmbr message) (diskWith (fileOf ls) pattern) = some (p', reply, d')) :
    reply = some .positive ∧ lineOf nmbr ls = none ∧
        p' = { p with pc := .ready, undo_command := "write".toList, undo_nmbr := nmbr } ∧
        d'.bbfile = fileOf (ls ++
          [mkLine nmbr p.user (textFrom 3 (commandOf (commitWriteRequest nmbr message)))]) ∨
      reply ≠ some .positive ∧ d'.bbfile = fileOf ls ∧ p'.undo_command = p.undo_command := by
  have hcommand := commandOf_commitWriteRequest hrec hn hsep
  generalize Cut.cut isWordSep isBlank true message = words at hcommand
  rw [Peer.run, request_commit hcommand, Peer.commit, hcommand] at hrun
  have hlen : ("commit".toList :: "write".toList :: nmbr :: words).length > 1 := by simp
  have hkind : ("commit".toList :: "write".toList :: nmbr :: words).getD 1 [] = "write".toList := rfl
  rw [if_pos hlen, hkind, if_pos rfl] at hrun
  rw [hcommand]
  by_cases hne : words = []
  · rw [hne, if_neg (by simp)] at hrun
    dsimp only at hrun
    rw [Peer.finish_done (Or.inr rfl)] at hrun
    simp only [Option.some.injEq, Prod.mk.injEq] at hrun
    obtain ⟨rfl, rfl, rfl⟩ := hrun
    exact Or.inr ⟨by simp, rfl, rfl⟩
  · have hpos := List.length_pos_of_ne_nil hne
    rw [if_pos (by simpa using hpos)] at hrun
    exact finish_write_cases hc hrun

theorem run_quit (junk : Junk) (p : Peer) (d : Disk) :
    p.run junk quitRequest d = some ({ p with pc := .closed }, none, d) := by
  have hcommand : tolwr ((commandOf quitRequest).getD 0 []) = "quit".toList := by decide
  rw [Peer.run, Peer.request, hcommand, if_neg (by decide), if_pos rfl]
  exact Peer.finish_done (Or.inr rfl) 4

/-- An ABORT after a COMMIT of a WRITE whose line is on file. -/
theorem run_abort_write {l : CStr} (hc : ∀ l ∈ ls, Clean l) (hundo : p.undo_command = "write".toList)
    (hnmbr : p.undo_nmbr = nmbr) (hline : lineOf nmbr ls = some l)
    (ho : pattern.getD 0 true = true ∧ pattern.getD 1 true = true)
    (hstart : (lineStart nmbr (fileOf ls) : Int) ≤ INT_MAX) : ∃ d,
      p.run junk abortRequest (diskWith (fileOf ls) pattern) = some ({ p with pc := .closed }, none, d) ∧
      d.bbfile = fileOf (deleteIn nmbr ls) := by
  have hopen : (diskWith (fileOf ls) pattern).openFile = (some ⟨fileOf ls, false⟩, diskWith (fileOf ls) (pattern.drop 1)) := by
    have h := openFile_diskWith (fileOf ls) pattern 0
    rw [if_pos ho.1] at h
    exact h
  have hopen' : (diskWith (fileOf ls) (pattern.drop 1)).openFile =
      (some ⟨fileOf ls, false⟩, diskWith (fileOf ls) (pattern.drop 2)) := by
    rw [openFile_diskWith, if_pos ho.2]
  have hdel := deleteDescriptor_lines junk rfl hc hopen hopen' hline hstart
  rw [← hnmbr] at hdel
  exact ⟨_, Peer.run_of_abort (by decide) hundo hdel, by rw [hnmbr]⟩

end

/-! The state after a step. -/

@[simp] theorem Side.other_ne (x : Side) : x.other ≠ x := by cases x <;> decide

@[simp] theorem Side.ne_other (x : Side) : x ≠ x.other := x.other_ne.symm

@[simp] theorem Side.other_other (x : Side) : x.other.other = x := by cases x <;> rfl

namespace Servers

variable (s : Servers) (x y : Side)

@[simp] theorem setFile_bbfile (file : List Char) :
    (s.setFile x file y).bbfile = if y = x then file else (s y).bbfile := by
  by_cases h : y = x
  · subst h; simp [setFile]
  · simp [setFile, h]

@[simp] theorem setFile_coordinations (file : List Char) :
    (s.setFile x file y).coordinations = (s y).coordinations := by
  by_cases h : y = x
  · subst h; simp [setFile]
  · simp [setFile, h]

@[simp] theorem setGen_bbfile (g : NumGen) : (s.setGen x g y).bbfile = (s y).bbfile := by
  by_cases h : y = x
  · subst h; simp [setGen]
  · simp [setGen, h]

@[simp] theorem setGen_coordinations (g : NumGen) : (s.setGen x g y).coordinations = (s y).coordinations := by
  by_cases h : y = x
  · subst h; simp [setGen]
  · simp [setGen, h]

@[simp] theorem setCoordinations_bbfile (cs : List Coordination) :
    (s.setCoordinations x cs y).bbfile = (s y).bbfile := by
  by_cases h : y = x
  · subst h; simp [setCoordinations]
  · simp [setCoordinations, h]

@[simp] theorem setCoordinations_coordinations (cs : List Coordination) :
    (s.setCoordinations x cs y).coordinations = if y = x then cs else (s y).coordinations := by
  by_cases h : y = x
  · subst h; simp [setCoordinations]
  · simp [setCoordinations, h]

@[simp] theorem advance_bbfile (i : Nat) (c : Coordination) : (s.advance x i c y).bbfile = (s y).bbfile :=
  setCoordinations_bbfile s x y _

@[simp] theorem advance_coordinations (i : Nat) (c : Coordination) : (s.advance x i c y).coordinations =
    if y = x then (s x).coordinations.set i c else (s y).coordinations :=
  setCoordinations_coordinations s x y _

end Servers

/-! The invariant. -/

namespace Coordination

/-- The peer has taken the name, and has nothing to undo. -/
structure Heard (c : Coordination) : Prop where
  ready : c.session.pc = .ready
  user : c.session.user = textFrom 1 (commandOf (precommitRequest c.client.user))
  no_write : c.session.undo_command ≠ "write".toList
  no_replace : c.session.undo_command ≠ "replace".toList
  fits : Received (precommitRequest c.client.user)

/-- An ABORT undoes the line, or does nothing. -/
def Undoable (c : Coordination) : Prop :=
  c.Posted ∨ c.session.pc = .closed ∨
    c.session.undo_command ≠ "write".toList ∧ c.session.undo_command ≠ "replace".toList

/-- A WRITE whose `sync_write` has returned. -/
def Over (c : Coordination) (sync_ret : Int) : Prop :=
  (c.closing = none ∨ c.closing = some quitRequest) ∧ ¬ c.Posted ∨
    c.closing = some abortRequest ∧ sync_ret ≠ 0 ∧ c.Undoable

/-- What stands where the WRITE has come to. -/
def AtStage (c : Coordination) : Prop :=
  match c.stage with
  | .precommit => c.closing = none ∧ c.session.pc = .closed
  | .commit => c.closing = none ∧ c.Heard
  | .write => c.closing = none ∧ c.Posted
  | .returned sync_ret | .answered sync_ret => c.Over sync_ret

end Coordination

section
variable {β : Type*} (view : CStr → β)

/-- The peer's first line of the number is the one of the WRITE. -/
structure OnPeer (ls : List CStr) (c : Coordination) : Prop where
  undo_nmbr : c.session.undo_nmbr = c.nmbr
  clean : Clean c.text
  line : ∃ l, lineOf c.nmbr ls = some l ∧ view l = view c.text

/-- The live lines, without their order. -/
def shownLines (ls : List CStr) : Multiset (CStr × β) := entries view ls

/-- The file of a peer with the lines `ls`, and the coordinations of the other server: there are
    the `agreed` lines, and those that only the peer has. -/
structure Half (agreed : Multiset (CStr × β)) (ls : List CStr) (cs : List Coordination) : Prop where
  clean : ∀ l ∈ ls, Clean l
  lines : shownLines view ls = agreed + shownLines view (postedLines cs)
  stage : ∀ c ∈ cs, c.AtStage
  posted : ∀ c ∈ cs, c.Posted → OnPeer view ls c
  unique : ∀ (i j : Nat) (c c' : Coordination), cs[i]? = some c → cs[j]? = some c' → c.Posted → c'.Posted →
    c.nmbr = c'.nmbr → i = j

/-- The server `x` with the lines `own`, and the other with the lines `peer`. -/
structure Sides (s : Servers) (x : Side) (own peer : List CStr) (agreed : Multiset (CStr × β)) : Prop where
  own_file : (s x).bbfile = fileOf own
  peer_file : (s x.other).bbfile = fileOf peer
  distinct : (agreed.map Prod.fst).Nodup
  coordinated : Half view agreed peer (s x).coordinations
  received : Half view agreed own (s x.other).coordinations

def ServersInv (s : Servers) : Prop := ∃ own peer agreed, Sides view s .first own peer agreed

end

section
variable {β : Type*} {view : CStr → β} {ls ls' : List CStr} {cs : List Coordination} {c c' : Coordination}
  {agreed agreed' : Multiset (CStr × β)} {i : Nat}

theorem shownLines_append (ls ls' : List CStr) :
    shownLines view (ls ++ ls') = shownLines view ls + shownLines view ls' := by
  simp [shownLines]

@[simp] theorem shownLines_nil : shownLines view [] = 0 := rfl

theorem shownLines_congr {l l' : CStr} (hk : firstField l = firstField l') (hv : view l = view l') :
    shownLines view [l] = shownLines view [l'] :=
  Multiset.coe_eq_coe.2 (List.Perm.of_eq (entries_congr hk hv))

theorem shownLines_deleteIn {id l : CStr} (hc : ∀ l ∈ ls, Clean l) (h : lineOf id ls = some l) :
    shownLines view (deleteIn id ls) + shownLines view [l] = shownLines view ls := by
  have h := Multiset.coe_eq_coe.2 (@entries_deleteIn β view ls id l hc h)
  rwa [← Multiset.coe_add] at h

theorem shownLines_set (h : cs[i]? = some c) (c' : Coordination) :
    shownLines view (postedLines (cs.set i c')) + shownLines view (postedLines [c]) =
      shownLines view (postedLines cs) + shownLines view (postedLines [c']) := by
  rw [← shownLines_append, ← shownLines_append]
  exact Multiset.coe_eq_coe.2 (((postedLines_set h c').filter _).map _)

theorem postedLines_of_posted (h : c.Posted) : postedLines [c] = [c.text] := by rw [postedLines_one, if_pos h]

theorem postedLines_of_not (h : ¬ c.Posted) : postedLines [c] = [] := by rw [postedLines_one, if_neg h]

/-- One coordination goes on, and the peer's file with it. -/
theorem Half.set (h : Half view agreed ls cs) (hi : cs[i]? = some c) (hclean : ∀ l ∈ ls', Clean l)
    (hlines : shownLines view ls' = agreed' + shownLines view (postedLines (cs.set i c')))
    (hstage : c'.AtStage) (hposted : c'.Posted → OnPeer view ls' c')
    (hkeep : ∀ j d, j ≠ i → cs[j]? = some d → d.Posted → OnPeer view ls d → OnPeer view ls' d)
    (hother : c'.Posted → ∀ j d, j ≠ i → cs[j]? = some d → d.Posted → d.nmbr ≠ c'.nmbr) :
    Half view agreed' ls' (cs.set i c') where
  clean := hclean
  lines := hlines
  stage := Pool.forall_mem_set h.stage hstage
  posted := by
    intro d hd hp
    obtain ⟨j, hj⟩ := List.mem_iff_getElem?.1 hd
    rcases Pool.getElem?_set_cases hj with ⟨rfl, rfl⟩ | ⟨hne, hj⟩
    · exact hposted hp
    · exact hkeep j d hne hj hp (h.posted d (List.mem_of_getElem? hj) hp)
  unique := by
    intro j k d d' hj hk hp hp' hn
    rcases Pool.getElem?_set_cases hj with ⟨hji, hd⟩ | ⟨hji, hj'⟩
    · rcases Pool.getElem?_set_cases hk with ⟨hki, hd'⟩ | ⟨hki, hk'⟩
      · exact hji.trans hki.symm
      · subst hd
        exact absurd hn.symm (hother hp k d' hki hk' hp')
    · rcases Pool.getElem?_set_cases hk with ⟨hki, hd'⟩ | ⟨hki, hk'⟩
      · subst hd'
        exact absurd hn (hother hp' j d hji hj' hp)
      · exact h.unique j k d d' hj' hk' hp hp' hn

/-- A step without a change of the file: the line is on file as before. -/
theorem Half.go_on (h : Half view agreed ls cs) (hi : cs[i]? = some c) (hstage : c'.AtStage)
    (htext : c'.text = c.text) (hnmbr : c'.nmbr = c.nmbr) (hp : c'.Posted ↔ c.Posted)
    (hs : c.Posted → c'.session = c.session) : Half view agreed ls (cs.set i c') := by
  have hsame : postedLines [c'] = postedLines [c] := by
    rw [postedLines_one, postedLines_one, htext]
    exact if_congr hp rfl rfl
  have hlines := @shownLines_set β view cs c i hi c'
  rw [hsame, add_left_inj] at hlines
  apply h.set hi h.clean (by rw [hlines]; exact h.lines) hstage
  · intro hp'
    have hon := h.posted c (List.mem_of_getElem? hi) (hp.1 hp')
    have hses := hs (hp.1 hp')
    exact ⟨by rw [hses, hnmbr]; exact hon.undo_nmbr, htext ▸ hon.clean, by rw [hnmbr, htext]; exact hon.line⟩
  · intro j d _ _ _ hd
    exact hd
  · intro hp' j d hji hj hd hn
    exact hji (h.unique j i d c hj hi hd (hp.1 hp') (hn.trans hnmbr))

/-- COMMIT: the peer puts the line on its file. -/
theorem Half.commit {l : CStr} (h : Half view agreed ls cs) (hi : cs[i]? = some c) (hnot : ¬ c.Posted)
    (hp : c'.Posted) (hstage : c'.AtStage) (hundo : c'.session.undo_nmbr = c'.nmbr) (hclean : Clean c'.text)
    (hfree : lineOf c'.nmbr ls = none) (hl : Clean l) (hk : firstField l = c'.nmbr)
    (hv : view l = view c'.text) : Half view agreed (ls ++ [l]) (cs.set i c') := by
  have hk' : firstField l = firstField c'.text := hk.trans (firstField_mkLine (showInt_no_slash _)).symm
  have hone : shownLines view [l] = shownLines view [c'.text] := shownLines_congr hk' hv
  have hset := @shownLines_set β view cs c i hi c'
  rw [postedLines_of_not hnot, postedLines_of_posted hp, shownLines_nil, add_zero] at hset
  apply h.set hi (clean_snoc h.clean hl) _ hstage
  · intro _
    refine ⟨hundo, hclean, l, ?_, hv⟩
    rw [lineOf_append, hfree, Option.none_or]
    simp [lineOf, hk]
  · intro j d _ _ _ hd
    obtain ⟨m, hm, hview⟩ := hd.line
    exact ⟨hd.undo_nmbr, hd.clean, m, by rw [lineOf_append, hm, Option.some_or], hview⟩
  · intro _ j d _ hj hd hn
    obtain ⟨m, hm, -⟩ := (h.posted d (List.mem_of_getElem? hj) hd).line
    rw [hn, hfree] at hm
    cases hm
  · rw [shownLines_append, h.lines, hone, hset, add_assoc]

/-- The local write: the line is on both files. -/
theorem Half.agree (h : Half view agreed ls cs) (hi : cs[i]? = some c) (hp : c.Posted) (hnot : ¬ c'.Posted)
    (hstage : c'.AtStage) : Half view (agreed + shownLines view [c.text]) ls (cs.set i c') := by
  have hset := @shownLines_set β view cs c i hi c'
  rw [postedLines_of_posted hp, postedLines_of_not hnot, shownLines_nil, add_zero] at hset
  apply h.set hi h.clean _ hstage
  · exact fun hp' => absurd hp' hnot
  · intro j d _ _ _ hd
    exact hd
  · exact fun hp' => absurd hp' hnot
  · rw [h.lines, ← hset, add_comm (shownLines view (postedLines (cs.set i c'))), add_assoc]

/-- The same on the own file, which the other server's WRITEs are on as before. -/
theorem Half.append {l : CStr} (h : Half view agreed ls cs) (hl : Clean l) :
    Half view (agreed + shownLines view [l]) (ls ++ [l]) cs where
  clean := clean_snoc h.clean hl
  lines := by rw [shownLines_append, h.lines, add_right_comm]
  stage := h.stage
  posted := by
    intro d hd hp
    have hon := h.posted d hd hp
    obtain ⟨m, hm, hview⟩ := hon.line
    exact ⟨hon.undo_nmbr, hon.clean, m, by rw [lineOf_append, hm, Option.some_or], hview⟩
  unique := h.unique

/-- ABORT: the peer's first line of the number goes. -/
theorem Half.abort (h : Half view agreed ls cs) (hi : cs[i]? = some c) (hp : c.Posted) (hnot : ¬ c'.Posted)
    (hstage : c'.AtStage) : Half view agreed (deleteIn c.nmbr ls) (cs.set i c') := by
  obtain ⟨l, hl, hv⟩ := (h.posted c (List.mem_of_getElem? hi) hp).line
  have hk : firstField l = firstField c.text :=
    (lineOf_some hl).2.trans (firstField_mkLine (showInt_no_slash _)).symm
  have hone : shownLines view [l] = shownLines view [c.text] := shownLines_congr hk hv
  have hset := @shownLines_set β view cs c i hi c'
  rw [postedLines_of_posted hp, postedLines_of_not hnot, shownLines_nil, add_zero] at hset
  apply h.set hi (deleteIn_clean h.clean) _ hstage
  · exact fun hp' => absurd hp' hnot
  · intro j d hji hj hd hon
    have hne : d.nmbr ≠ c.nmbr := fun hn => hji (h.unique j i d c hj hi hd hp hn)
    obtain ⟨m, hm, hview⟩ := hon.line
    exact ⟨hon.undo_nmbr, hon.clean, m, (lineOf_deleteIn hne ls).trans hm, hview⟩
  · exact fun hp' => absurd hp' hnot
  · have hdel := @shownLines_deleteIn β view ls c.nmbr l h.clean hl
    rw [h.lines, ← hset, hone, ← add_assoc, add_left_inj] at hdel
    exact hdel

/-- A new WRITE. -/
theorem Half.generate (h : Half view agreed ls cs) (hnot : ¬ c.Posted) (hstage : c.AtStage) :
    Half view agreed ls (cs ++ [c]) where
  clean := h.clean
  lines := by rw [postedLines_append, postedLines_of_not hnot, List.append_nil]; exact h.lines
  stage := by
    intro d hd
    rcases List.mem_append.1 hd with hd | hd
    · exact h.stage d hd
    · obtain rfl := List.mem_singleton.1 hd
      exact hstage
  posted := by
    intro d hd hp
    rcases List.mem_append.1 hd with hd | hd
    · exact h.posted d hd hp
    · obtain rfl := List.mem_singleton.1 hd
      exact absurd hp hnot
  unique := by
    intro j k d d' hj hk hp hp' hn
    rcases Pool.getElem?_snoc_cases hj with ⟨-, rfl⟩ | hj
    · exact absurd hp hnot
    · rcases Pool.getElem?_snoc_cases hk with ⟨-, rfl⟩ | hk
      · exact absurd hp' hnot
      · exact h.unique j k d d' hj hk hp hp' hn

end

/-! What each step keeps. -/

section
variable {β : Type*} {view : CStr → β} {s : Servers} {x : Side} {own peer own' peer' : List CStr}
  {agreed agreed' : Multiset (CStr × β)} {i : Nat} {c c' : Coordination} {file : List Char} {junk : Junk}
  {pattern : List Bool} {d : Disk} {session session' : Peer} {reply : Option PeerReply} {sync_ret : Int}

theorem Sides.swap (h : Sides view s x own peer agreed) : Sides view s x.other peer own agreed where
  own_file := h.peer_file
  peer_file := by rw [Side.other_other]; exact h.own_file
  distinct := h.distinct
  coordinated := h.received
  received := by rw [Side.other_other]; exact h.coordinated

theorem Sides.inv (h : Sides view s x own peer agreed) : ServersInv view s := by
  cases x with
  | first => exact ⟨own, peer, agreed, h⟩
  | second => exact ⟨peer, own, agreed, h.swap⟩

theorem ServersInv.at (h : ServersInv view s) (x : Side) : ∃ own peer agreed, Sides view s x own peer agreed := by
  obtain ⟨own, peer, agreed, h⟩ := h
  cases x with
  | first => exact ⟨own, peer, agreed, h⟩
  | second => exact ⟨peer, own, agreed, h.swap⟩

/-- A coordination goes on, and the peer's file with it. -/
theorem Sides.peer_step (h : Sides view s x own peer agreed) (hfile : file = fileOf peer')
    (hhalf : Half view agreed peer' ((s x).coordinations.set i c')) :
    ServersInv view ((s.setFile x.other file).advance x i c') := by
  have hnew : Sides view ((s.setFile x.other file).advance x i c') x own peer' agreed := by
    refine ⟨?_, ?_, h.distinct, ?_, ?_⟩
    · simpa using h.own_file
    · simpa using hfile
    · simpa using hhalf
    · simpa using h.received
  exact hnew.inv

theorem Sides.same_step (h : Sides view s x own peer agreed)
    (hhalf : Half view agreed peer ((s x).coordinations.set i c')) : ServersInv view (s.advance x i c') := by
  have hself : s.setFile x.other (s x.other).bbfile = s := Function.update_eq_self _ _
  have hstep := h.peer_step h.peer_file hhalf
  rwa [hself] at hstep

/-- A coordination goes on, and the own file with it. -/
theorem Sides.own_step (h : Sides view s x own peer agreed) (hfile : file = fileOf own')
    (hdistinct : (agreed'.map Prod.fst).Nodup)
    (hhalf : Half view agreed' peer ((s x).coordinations.set i c'))
    (hother : Half view agreed' own' (s x.other).coordinations) :
    ServersInv view ((s.setFile x file).advance x i c') := by
  have hnew : Sides view ((s.setFile x file).advance x i c') x own' peer agreed' := by
    refine ⟨?_, ?_, hdistinct, ?_, ?_⟩
    · simpa using hfile
    · simpa using h.peer_file
    · simpa using hhalf
    · simpa using hother
  exact hnew.inv

theorem Coordination.not_posted_of_closed (h : c.session.pc = .closed) : ¬ c.Posted := by
  rintro ⟨hready, -⟩
  rw [h] at hready
  cases hready

theorem Coordination.not_posted_of_undo (h : c.session.undo_command ≠ "write".toList) : ¬ c.Posted :=
  fun hp => h hp.2.1

/-- The two lines of a WRITE whose requests fit. -/
theorem Coordination.clean (hpre : Received (precommitRequest c.client.user))
    (hcommit : Received (commitWriteRequest c.nmbr c.message)) : Clean c.text ∧ Clean c.peerText := by
  obtain ⟨huser, hulen⟩ := hpre.of_precommit
  obtain ⟨hnmbr, hmessage, hmlen⟩ := hcommit.of_commit_write
  have huser' := Unbroken.textFrom (fun w hw => (hpre.words w hw).1) 1
  have hmessage' := Unbroken.textFrom (fun w hw => (hcommit.words w hw).1) 3
  have hulen' := (textFrom_length 1 (commandOf (precommitRequest c.client.user))).trans hpre.room_le
  have hmlen' := (textFrom_length 3 (commandOf (commitWriteRequest c.nmbr c.message))).trans hcommit.room_le
  unfold MAX_LEN at hulen hmlen hulen' hmlen'
  constructor
  · apply clean_mkLine hnmbr huser hmessage
    unfold BBLINE_LEN
    omega
  · apply clean_mkLine hnmbr huser' hmessage'
    unfold BBLINE_LEN
    omega

theorem Sides.precommitted (h : Sides view s x own peer agreed) (hi : (s x).coordinations[i]? = some c)
    (hstage : c.stage = .precommit) (hpc : session.pc = .ready)
    (hw : session.undo_command ≠ "write".toList) (hr : session.undo_command ≠ "replace".toList)
    (hrec : Received (precommitRequest c.client.user))
    (hrun : session.run junk (precommitRequest c.client.user) (diskWith (s x.other).bbfile pattern) =
      some (session', reply, d)) :
    ServersInv view ((s.setFile x.other d.bbfile).advance x i (c.precommitted session' reply)) := by
  have hat := h.coordinated.stage c (List.mem_of_getElem? hi)
  rw [Coordination.AtStage, hstage] at hat
  have hnot := Coordination.not_posted_of_closed hat.2
  obtain ⟨rfl, hcases⟩ := run_precommit_cases hrec hpc hrun
  rw [diskWith_bbfile]
  rcases hcases with ⟨rfl, rfl⟩ | ⟨hreply, hclosed⟩
  · rw [Coordination.precommitted, if_pos rfl]
    have hheard : ({ c with
        session := { session with user := textFrom 1 (commandOf (precommitRequest c.client.user)) }
        stage := .commit } : Coordination).Heard := by
      constructor
      · exact hpc
      · dsimp only
      · exact hw
      · exact hr
      · exact hrec
    refine h.peer_step h.peer_file (h.coordinated.go_on hi ?_ rfl rfl ?_ fun hp => absurd hp hnot)
    · exact ⟨hat.1, hheard⟩
    · exact ⟨fun hp => absurd hp.2.1 hw, fun hp => absurd hp hnot⟩
  · rw [Coordination.precommitted, if_neg hreply]
    have hnot' : ¬ ({ c with session := session', stage := .returned (-1), closing := some quitRequest } :
      Coordination).Posted := Coordination.not_posted_of_closed hclosed
    refine h.peer_step h.peer_file (h.coordinated.go_on hi ?_ rfl rfl ?_ fun hp => absurd hp hnot)
    · exact Or.inl ⟨Or.inr rfl, hnot'⟩
    · exact ⟨fun hp => absurd hp hnot', fun hp => absurd hp hnot⟩

theorem Sides.committed (h : Sides view s x own peer agreed) (hi : (s x).coordinations[i]? = some c)
    (hstage : c.stage = .commit) (hrec : Received (commitWriteRequest c.nmbr c.message))
    (hview : view c.peerText = view c.text)
    (hrun : c.session.run junk (commitWriteRequest c.nmbr c.message) (diskWith (s x.other).bbfile pattern) =
      some (session', reply, d)) :
    ServersInv view ((s.setFile x.other d.bbfile).advance x i (c.committed session' reply)) := by
  have hat := h.coordinated.stage c (List.mem_of_getElem? hi)
  rw [Coordination.AtStage, hstage] at hat
  obtain ⟨hclosing, hheard⟩ := hat
  have hnot := Coordination.not_posted_of_undo hheard.no_write
  obtain ⟨hclean, hclean'⟩ := Coordination.clean hheard.fits hrec
  rw [h.peer_file] at hrun
  rcases run_commit_cases h.coordinated.clean hrec (showInt_ne_nil _) (showInt_no_sep _) hrun with
    ⟨rfl, hfree, rfl, hfile⟩ | ⟨hreply, hfile, hundo⟩
  · rw [hheard.user] at hfile
    rw [Coordination.committed, if_pos rfl]
    have hp : ({ c with
        session := { c.session with pc := .ready, undo_command := "write".toList, undo_nmbr := c.nmbr }
        stage := .write } : Coordination).Posted := ⟨rfl, rfl, rfl⟩
    apply h.peer_step hfile
    apply h.coordinated.commit hi hnot hp ⟨hclosing, hp⟩ rfl hclean hfree hclean'
    · exact firstField_mkLine (showInt_no_slash _)
    · exact hview
  · have hw : session'.undo_command ≠ "write".toList := by rw [hundo]; exact hheard.no_write
    have hr : session'.undo_command ≠ "replace".toList := by rw [hundo]; exact hheard.no_replace
    rw [Coordination.committed, if_neg hreply]
    refine h.peer_step hfile (h.coordinated.go_on hi ?_ rfl rfl ?_ fun hp => absurd hp hnot)
    · exact Or.inr ⟨rfl, by decide, Or.inr (Or.inr ⟨hw, hr⟩)⟩
    · exact ⟨fun hp => absurd hp.2.1 hw, fun hp => absurd hp hnot⟩

theorem count_shownLines {id : CStr} (hid : IsNumeral id) (ls : List CStr) :
    ((shownLines view ls).map Prod.fst).count id = copies id ls := by
  induction ls with
  | nil => rfl
  | cons l ls ih =>
    have hone : ((shownLines view [l]).map Prod.fst).count id = copies id [l] := by
      by_cases h : firstField l = id
      · simp [shownLines, entries, copies, h, hid]
      · by_cases hl : IsNumeral (firstField l)
        · simp [shownLines, entries, copies, h, hl, Ne.symm h]
        · simp [shownLines, entries, copies, h, hl]
    calc ((shownLines view (l :: ls)).map Prod.fst).count id
        = ((shownLines view [l]).map Prod.fst).count id + ((shownLines view ls).map Prod.fst).count id := by
          rw [← Multiset.count_add, ← Multiset.map_add, ← shownLines_append]
          rfl
      _ = copies id [l] + copies id ls := by rw [hone, ih]
      _ = copies id (l :: ls) := (copies_append ls).symm

/-- The number of the line is not among the agreed ones. -/
theorem Half.distinct_append {cs : List Coordination} (h : Half view agreed own cs)
    (hdistinct : (agreed.map Prod.fst).Nodup)
    (hfree : IsNumeral c.nmbr → copies c.nmbr own ≤ copies c.nmbr (postedLines cs)) :
    ((agreed + shownLines view [c.text]).map Prod.fst).Nodup := by
  have hk : firstField c.text = c.nmbr := firstField_mkLine (showInt_no_slash _)
  by_cases hid : IsNumeral c.nmbr
  · have hone : (shownLines view [c.text]).map Prod.fst = {c.nmbr} := by
      simp [shownLines, entries, hk, hid]
    have hcount : (agreed.map Prod.fst).count c.nmbr + copies c.nmbr (postedLines cs) = copies c.nmbr own := by
      rw [← count_shownLines hid own, h.lines, Multiset.map_add, Multiset.count_add, count_shownLines hid]
    have hzero : (agreed.map Prod.fst).count c.nmbr = 0 := by
      have := hfree hid
      omega
    rw [Multiset.map_add, hone, add_comm, Multiset.singleton_add, Multiset.nodup_cons]
    exact ⟨Multiset.count_eq_zero.1 hzero, hdistinct⟩
  · have hnone : shownLines view [c.text] = 0 := by simp [shownLines, entries, hk, hid]
    rw [hnone, add_zero]
    exact hdistinct

theorem Sides.wrote (h : Sides view s x own peer agreed) (hi : (s x).coordinations[i]? = some c)
    (hstage : c.stage = .write)
    (hok : pattern.getD 0 true = true ∧ pattern.getD 1 true = true → pattern.getD 2 true = true ∧
      (IsNumeral c.nmbr → copies c.nmbr own ≤ copies c.nmbr (postedLines (s x.other).coordinations)))
    (hrun : syncWriteAlone junk c.nmbr c.client.user c.message (diskWith (s x).bbfile pattern) =
      some (sync_ret, d)) : ServersInv view ((s.setFile x d.bbfile).advance x i (c.wrote sync_ret)) := by
  have hat := h.coordinated.stage c (List.mem_of_getElem? hi)
  rw [Coordination.AtStage, hstage] at hat
  obtain ⟨-, hp⟩ := hat
  have hclean := (h.coordinated.posted c (List.mem_of_getElem? hi) hp).clean
  have hk : firstField c.text = c.nmbr := firstField_mkLine (showInt_no_slash _)
  rw [h.own_file] at hrun
  rcases syncWriteAlone_cases (i := 0) (EndsLine.fileOf own) hclean hk hrun with ⟨-, hfile⟩ | ⟨ho, hback⟩
  · have hne : sync_ret ≠ 0 := by
      rintro rfl
      have hlen := congrArg List.length ((syncWriteAlone_zero hrun).symm.trans hfile)
      simp at hlen
    have hwritten : (c.wrote sync_ret).written = false := decide_eq_false hne
    have hsame : (c.wrote sync_ret).Posted ↔ c.Posted :=
      ⟨fun _ => hp, fun _ => ⟨hp.1, hp.2.1, hwritten⟩⟩
    have htext : (c.wrote sync_ret).text = c.text := rfl
    have hnmbr : (c.wrote sync_ret).nmbr = c.nmbr := rfl
    apply h.own_step hfile h.distinct _ h.received
    apply h.coordinated.go_on hi _ htext hnmbr hsame fun _ => rfl
    exact Or.inr ⟨congrArg some (if_neg hne), hne, Or.inl (hsame.2 hp)⟩
  · obtain ⟨hread, hfree⟩ := hok ho
    obtain rfl := hback hread
    have hfile : d.bbfile = fileOf (own ++ [c.text]) := by
      rw [syncWriteAlone_zero hrun, fileOf_append]
      rfl
    have hnot : ¬ (c.wrote 0).Posted := fun hp' => by cases hp'.2.2
    apply h.own_step hfile (h.received.distinct_append h.distinct hfree) _ (h.received.append hclean)
    apply h.coordinated.agree hi hp hnot
    exact Or.inl ⟨Or.inr rfl, hnot⟩

theorem Coordination.AtStage.over (h : c.AtStage) (hc : c.closing ≠ none) : ∃ sync_ret,
    c.Over sync_ret ∧ ∀ c' : Coordination, c'.stage = c.stage → c'.Over sync_ret → c'.AtStage := by
  rw [Coordination.AtStage] at h
  split at h
  · exact absurd h.1 hc
  · exact absurd h.1 hc
  · exact absurd h.1 hc
  · next ret hstage =>
    refine ⟨ret, h, fun c' hs hover => ?_⟩
    rw [Coordination.AtStage, hs, hstage]
    exact hover
  · next ret hstage =>
    refine ⟨ret, h, fun c' hs hover => ?_⟩
    rw [Coordination.AtStage, hs, hstage]
    exact hover

theorem Coordination.AtStage.closing_of_posted (h : c.AtStage) (hc : c.closing ≠ none) (hp : c.Posted) :
    c.closing = some abortRequest := by
  obtain ⟨sync_ret, hover, -⟩ := h.over hc
  rcases hover with ⟨-, hnot⟩ | ⟨habort, -⟩
  · exact absurd hp hnot
  · exact habort

theorem Sides.closed (h : Sides view s x own peer agreed) (hi : (s x).coordinations[i]? = some c)
    {request : CStr} (hc : c.closing = some request) (hpc : c.session.pc ≠ .closed)
    (hok : c.Posted → request = abortRequest → (pattern.getD 0 true = true ∧ pattern.getD 1 true = true) ∧
      (lineStart c.nmbr (fileOf peer) : Int) ≤ INT_MAX)
    (hrun : c.session.run junk request (diskWith (s x.other).bbfile pattern) = some (session', reply, d)) :
    ServersInv view ((s.setFile x.other d.bbfile).advance x i { c with session := session', closing := none }) := by
  obtain ⟨sync_ret, hover, hstage⟩ := (h.coordinated.stage c (List.mem_of_getElem? hi)).over (by rw [hc]; simp)
  have hclose : ∀ p : Peer, p.pc = .closed → ¬ ({ c with session := p, closing := none } : Coordination).Posted :=
    fun p hp => Coordination.not_posted_of_closed hp
  have hend : ∀ p : Peer, p.pc = .closed → ({ c with session := p, closing := none } : Coordination).AtStage :=
    fun p hp => hstage _ rfl (Or.inl ⟨Or.inl rfl, hclose p hp⟩)
  rw [h.peer_file] at hrun
  -- the session ends and the file stays
  have hsame : ¬ c.Posted → c.session.run junk request (diskWith (fileOf peer) pattern) =
      some ({ c.session with pc := .closed }, none, diskWith (fileOf peer) pattern) →
      ServersInv view ((s.setFile x.other d.bbfile).advance x i
        { c with session := session', closing := none }) := by
    intro hnot hrun'
    rw [hrun', Option.some.injEq, Prod.mk.injEq, Prod.mk.injEq] at hrun
    obtain ⟨rfl, -, rfl⟩ := hrun
    apply h.peer_step rfl
    apply h.coordinated.go_on hi (hend _ rfl) rfl rfl _ fun hp => absurd hp hnot
    exact ⟨fun hp => absurd hp (hclose _ rfl), fun hp => absurd hp hnot⟩
  rcases hover with ⟨hc' | hc', hnot⟩ | ⟨hc', -, hundo⟩
  · rw [hc] at hc'
    cases hc'
  · obtain rfl : request = quitRequest := Option.some.inj (hc.symm.trans hc')
    exact hsame hnot (run_quit junk c.session _)
  · obtain rfl : request = abortRequest := Option.some.inj (hc.symm.trans hc')
    by_cases hp : c.Posted
    · obtain ⟨ho, hstart⟩ := hok hp rfl
      have hon := h.coordinated.posted c (List.mem_of_getElem? hi) hp
      obtain ⟨l, hl, -⟩ := hon.line
      obtain ⟨d', hrun', hfile⟩ := @run_abort_write c.session junk peer c.nmbr pattern l h.coordinated.clean
        hp.2.1 hon.undo_nmbr hl ho hstart
      rw [hrun', Option.some.injEq, Prod.mk.injEq, Prod.mk.injEq] at hrun
      obtain ⟨rfl, -, rfl⟩ := hrun
      apply h.peer_step hfile
      exact h.coordinated.abort hi hp (hclose _ rfl) (hend _ rfl)
    · rcases hundo with hp' | hclosed | ⟨hw, hr⟩
      · exact absurd hp' hp
      · exact absurd hclosed hpc
      · exact hsame hp (Peer.run_of_abort_nothing junk _ (by decide) hw hr)

/-- The request is not sent, or sent to a session that is closed already. -/
theorem Sides.unheard (h : Sides view s x own peer agreed) (hi : (s x).coordinations[i]? = some c)
    (hc : c.closing ≠ none) (hnot : ¬ c.Posted) :
    ServersInv view (s.advance x i { c with closing := none }) := by
  obtain ⟨sync_ret, -, hstage⟩ := (h.coordinated.stage c (List.mem_of_getElem? hi)).over hc
  have hnot' : ¬ ({ c with closing := none } : Coordination).Posted := hnot
  apply h.same_step
  refine h.coordinated.go_on hi ?_ rfl rfl ?_ fun hp => absurd hp hnot
  · exact hstage _ rfl (Or.inl ⟨Or.inl rfl, hnot'⟩)
  · exact ⟨fun hp => absurd hp hnot', fun hp => absurd hp hnot⟩

theorem Sides.answered (h : Sides view s x own peer agreed) (hi : (s x).coordinations[i]? = some c)
    (hstage : c.stage = .returned sync_ret) :
    ServersInv view (s.advance x i { c with stage := .answered sync_ret }) := by
  have hat := h.coordinated.stage c (List.mem_of_getElem? hi)
  rw [Coordination.AtStage, hstage] at hat
  have hwritten : c.written = ({ c with stage := .answered sync_ret } : Coordination).written := by
    rw [Coordination.written, hstage]
    rfl
  have hsame : ({ c with stage := .answered sync_ret } : Coordination).Posted ↔ c.Posted := by
    rw [Coordination.Posted, Coordination.Posted, hwritten]
  apply h.same_step
  refine h.coordinated.go_on hi ?_ rfl rfl hsame fun _ => rfl
  rcases hat with ⟨hc, hnot⟩ | ⟨hc, hne, hundo⟩
  · exact Or.inl ⟨hc, fun hp => hnot (hsame.1 hp)⟩
  · exact Or.inr ⟨hc, hne, hundo.imp_left hsame.2⟩

/-- What every step that meets the condition keeps. -/
theorem ServersInv.step {s' : Servers} {op : ServersOp} (h : ServersInv view s)
    (hok : ServersStep.Meets view s op) (hstep : ServersStep s op s') : ServersInv view s' := by
  cases hstep with
  | @generate x client line junk pattern num g d dont_reissue hline hkind hlen hgen =>
    obtain ⟨own, peer, agreed, hx⟩ := h.at x
    have hnot : ¬ (Coordination.start client line num dont_reissue).Posted := Coordination.not_posted_of_closed rfl
    have hnew : Sides view ((s.setGen x g).setCoordinations x
        ((s x).coordinations ++ [.start client line num dont_reissue])) x own peer agreed := by
      refine ⟨?_, ?_, hx.distinct, ?_, ?_⟩
      · simpa using hx.own_file
      · simpa using hx.peer_file
      · simpa using hx.coordinated.generate hnot ⟨rfl, rfl⟩
      · simpa using hx.received
    exact hnew.inv
  | @precommit x i c session session' junk pattern reply d hi hstage hpc hrun =>
    obtain ⟨own, peer, agreed, hx⟩ := h.at x
    obtain ⟨hw, hr, hrec⟩ := hok
    exact hx.precommitted hi hstage hpc hw hr (hrec c hi) hrun
  | @commit x i c session' junk pattern reply d hi hstage hrun =>
    obtain ⟨own, peer, agreed, hx⟩ := h.at x
    obtain ⟨hrec, hview⟩ := hok c hi
    exact hx.committed hi hstage hrec hview hrun
  | @write x i c junk pattern sync_ret d hi hstage hrun =>
    obtain ⟨own, peer, agreed, hx⟩ := h.at x
    have hok := hok c hi
    rw [hx.own_file, linesOf_fileOf hx.received.clean] at hok
    exact hx.wrote hi hstage hok hrun
  | @wrote x i c hi hstage _ =>
    obtain ⟨own, peer, agreed, hx⟩ := h.at x
    exact hx.answered hi hstage
  | @failed x i c sync_ret hi hstage _ =>
    obtain ⟨own, peer, agreed, hx⟩ := h.at x
    have hnew : Sides view (s.setGen x (releaseNumber c.num (s x).num_gen).2) x own peer agreed := by
      refine ⟨?_, ?_, hx.distinct, ?_, ?_⟩
      · simpa using hx.own_file
      · simpa using hx.peer_file
      · simpa using hx.coordinated
      · simpa using hx.received
    exact hnew.answered (by simpa using hi) hstage
  | @close x i c session' junk pattern request reply d hi hc _ hpc hrun =>
    obtain ⟨own, peer, agreed, hx⟩ := h.at x
    apply hx.closed hi hc hpc _ hrun
    intro hp hrequest
    obtain ⟨-, ho, ho', hstart⟩ := hok c hi hp (by rw [hc, hrequest])
    rw [hx.peer_file] at hstart
    exact ⟨⟨ho, ho'⟩, hstart⟩
  | @notSent x i c pattern hi hc hflag =>
    obtain ⟨own, peer, agreed, hx⟩ := h.at x
    refine hx.unheard hi hc fun hp => ?_
    -- what the peer has on file is undone by an ABORT
    have habort := (hx.coordinated.stage c (List.mem_of_getElem? hi)).closing_of_posted hc hp
    obtain ⟨hclear, -⟩ := hok c hi hp habort
    rw [hclear] at hflag
    cases hflag
  | @closed x i c pattern hi hc hpc =>
    obtain ⟨own, peer, agreed, hx⟩ := h.at x
    exact hx.unheard hi hc (Coordination.not_posted_of_closed hpc)

end

/-! The theorem. -/

section
variable {β : Type*} {view : CStr → β} {b : Board}

theorem shownLines_distinct (h : Distinct ls) : ((shownLines view ls).map Prod.fst).Nodup := by
  rw [Multiset.nodup_iff_count_le_one]
  intro id
  by_cases hid : IsNumeral id
  · rw [count_shownLines hid]
    exact h id hid
  · have hnot : id ∉ (shownLines view ls).map Prod.fst := by
      simp only [shownLines, entries, Multiset.map_coe, List.map_map, Multiset.mem_coe, List.mem_map,
        List.mem_filter, decide_eq_true_eq, Function.comp_apply, not_exists, not_and, and_imp]
      rintro l - hl rfl
      exact hid hl
    rw [Multiset.count_eq_zero.2 hnot]
    exact Nat.zero_le 1

theorem ServersInv.start (b : Board) : ServersInv view (Servers.start b) := by
  have hhalf : Half view (shownLines view b.texts) b.texts [] :=
    ⟨b.texts_clean, by simp [postedLines], by simp, by simp, by simp⟩
  exact ⟨b.texts, b.texts, shownLines view b.texts, rfl, rfl, shownLines_distinct b.texts_distinct, hhalf, hhalf⟩

/-- When no request is in progress, both files have the agreed lines and no others. -/
theorem Half.quiet {agreed : Multiset (CStr × β)} {ls : List CStr} {cs : List Coordination}
    (h : Half view agreed ls cs)
    (hquiet : ∀ c ∈ cs, c.closing = none ∧ ∃ sync_ret, c.stage = .answered sync_ret) :
    shownLines view ls = agreed := by
  have hnone : postedLines cs = [] := by
    apply List.flatMap_eq_nil_iff.2
    intro c hc
    obtain ⟨hclosing, sync_ret, hstage⟩ := hquiet c hc
    have hat := h.stage c hc
    rw [Coordination.AtStage, hstage] at hat
    rcases hat with ⟨-, hnot⟩ | ⟨habort, -, -⟩
    · exact if_neg hnot
    · rw [hclosing] at habort
      cases habort
  rw [h.lines, hnone, shownLines_nil, add_zero]

/-- **The two servers agree** whenever no request is in progress, in every run whose steps meet the
    condition, whatever it is of a line that is looked at. -/
theorem two_servers_agree {tr : List (Servers × ServersOp)} {s : Servers}
    (hrun : Runs.Run ServersStep (Servers.start b) tr s) (hok : Runs.Guarded (ServersStep.Meets view) tr)
    (hquiet : s.Quiet) : s.Agree view := by
  have hinv : ServersInv view s :=
    hrun.inv (ServersInv.start b) (fun _ _ _ h hok hstep => h.step hok hstep) hok
  have hside : ∀ x, ∃ own peer agreed, Sides view s x own peer agreed ∧
      shownLines view own = agreed ∧ shownLines view peer = agreed := by
    intro x
    obtain ⟨own, peer, agreed, hx⟩ := hinv.at x
    exact ⟨own, peer, agreed, hx, hx.received.quiet (hquiet _), hx.coordinated.quiet (hquiet _)⟩
  constructor
  · obtain ⟨own, peer, agreed, hx, howned, hpeer⟩ := hside .first
    have hfile : (s .second).bbfile = fileOf peer := hx.peer_file
    rw [hx.own_file, hfile, linesOf_fileOf hx.received.clean, linesOf_fileOf hx.coordinated.clean]
    exact Multiset.coe_eq_coe.1 (howned.trans hpeer.symm)
  · intro x id hid
    obtain ⟨own, peer, agreed, hx, howned, -⟩ := hside x
    rw [hx.own_file, linesOf_fileOf hx.received.clean, ← count_shownLines hid own, howned]
    exact Multiset.nodup_iff_count_le_one.1 hx.distinct id

end

/-- A READ gives the same for the two lines of a WRITE exactly when no lost word is seen. -/
theorem Coordination.lineText_peerText_iff {c : Coordination} {userWords : List CStr}
    (hclient : Named c.client userWords) (hline : Received c.line) (hlen : 1 < (commandOf c.line).length)
    (hpre : Received (precommitRequest c.client.user)) (hcommit : Received (commitWriteRequest c.nmbr c.message))
    (hu : filled userWords ≠ []) (hm : filled ((commandOf c.line).drop 1) ≠ []) :
    lineText c.text = lineText c.peerText ↔
      EmptyUnseen true userWords ∧ EmptyUnseen true ((commandOf c.line).drop 1) := by
  have hsplit : Split ((commandOf c.line).drop 1) := fun w hw => (hline.words w (List.mem_of_mem_drop hw)).2
  have hmessage : Spells c.message ((commandOf c.line).drop 1) := spells_textFrom hlen
  have hprecommit := commandOf_precommit hpre hclient.spells hclient.split
  have hwrite := commandOf_commit hcommit (showInt_ne_nil _) (showInt_no_sep _) hmessage hsplit
  have hulen := List.length_pos_of_ne_nil hu
  have hmlen := List.length_pos_of_ne_nil hm
  have huser' : Spells (textFrom 1 (commandOf (precommitRequest c.client.user))) (filled userWords) := by
    rw [hprecommit]
    exact spells_textFrom (i := 1) (by simpa using hulen)
  have hmessage' : Spells (textFrom 3 (commandOf (commitWriteRequest c.nmbr c.message)))
      (filled ((commandOf c.line).drop 1)) := by
    rw [hwrite]
    exact spells_textFrom (i := 3) (by simpa using hmlen)
  exact lineText_eq_iff (showInt_no_slash _) hclient.split hsplit hclient.spells huser' hmessage hmessage' hm

/-! A WRITE that both servers have at the end, and two WRITEs that cross. -/

def newPeer : Peer := ⟨.ready, "nobody".toList, [], [], [], []⟩

/-- A session that has put a line of the number 2 on file. -/
def donePeer : Peer := { newPeer with undo_command := "write".toList, undo_nmbr := ['2'] }

def writeX : CStr := "WRITE x\r".toList

/-- Where `WRITE x` under the number 2 stands. -/
def writeXAt (stage : WriteStage) (session : Peer) (closing : Option CStr) : Coordination :=
  ⟨Client.start, writeX, 2, stage, session, closing, false⟩

theorem writeX_received : Received writeX := ⟨⟨by decide, by decide⟩, by decide⟩

theorem writeX_command : commandOf writeX = ["WRITE".toList, ['x']] := by decide +kernel

theorem writeX_generate (s : Servers) (x : Side) {g : NumGen} {d : Disk}
    (h : generateNumber [] (s x).num_gen (diskWith (s x).bbfile []) = some (2, g, d)) :
    ServersStep s (.generate x) ((s.setGen x g).setCoordinations x
      ((s x).coordinations ++ [.start Client.start writeX 2 false])) := by
  have hlen : 1 < (commandOf writeX).length := by
    rw [writeX_command]
    decide
  exact .generate false writeX_received (by decide +kernel) hlen h

theorem two_servers_agree_one_write : ∃ tr s, Runs.Run ServersStep (Servers.start oneLine) tr s ∧
    s.Quiet ∧ s.Agree (fun l => l) ∧ (s .second).bbfile = "1/u/m\n2/nobody/x\n".toList := by
  have h₀ : Runs.Run ServersStep (Servers.start oneLine) [] (Servers.start oneLine) := .nil
  have h₁ := h₀.snoc (@writeX_generate _ .first ⟨[1]⟩ (diskOf oneLine.bytes) (by decide +kernel))
  have h₂ := h₁.snoc (@ServersStep.precommit _ .first 0 _ newPeer newPeer ⟨[], []⟩ [] (some .positive)
    (diskOf oneLine.bytes) rfl rfl rfl (by decide +kernel))
  have h₃ := h₂.snoc (@ServersStep.commit _ .first 0 (writeXAt .commit newPeer none) donePeer ⟨[], []⟩ []
    (some .positive) (diskOf "1/u/m\n2/nobody/x\n".toList) rfl rfl (by decide +kernel))
  have h₄ := h₃.snoc (@ServersStep.write _ .first 0 (writeXAt .write donePeer none) ⟨[], []⟩ [] 0
    (diskOf "1/u/m\n2/nobody/x\n".toList) rfl rfl (by decide +kernel))
  have h₅ := h₄.snoc (@ServersStep.close _ .first 0 (writeXAt (.returned 0) donePeer (some quitRequest))
    { donePeer with pc := .closed } ⟨[], []⟩ [] quitRequest none (diskOf "1/u/m\n2/nobody/x\n".toList)
    rfl rfl rfl (by decide) (by decide +kernel))
  have h₆ := h₅.snoc (@ServersStep.wrote _ .first 0
    (writeXAt (.returned 0) { donePeer with pc := .closed } none) rfl rfl (by decide))
  refine ⟨_, _, h₆, ?quiet, two_servers_agree h₆ ?guarded ?quiet, rfl⟩
  case quiet =>
    intro x c hc
    cases x with
    | first =>
      obtain rfl := List.mem_singleton.1 hc
      exact ⟨rfl, 0, rfl⟩
    | second => cases hc
  have hnil : Runs.Guarded (ServersStep.Meets fun l => l) [] := by simp [Runs.Guarded]
  have hroom : 0 < MAX_LEN := by decide
  refine (((((hnil.snoc ?_).snoc ?_).snoc ?_).snoc ?_).snoc ?_).snoc trivial
  · exact hroom
  · refine ⟨by decide, by decide, fun c hc => ?_⟩
    obtain rfl := Option.some.inj hc
    exact ⟨⟨by decide, by decide⟩, by decide⟩
  · intro c hc
    obtain rfl := Option.some.inj hc
    refine ⟨?_, by decide +kernel⟩
    change Received (commitWriteRequest (showInt 2) (textFrom 1 (commandOf writeX)))
    rw [writeX_command]
    exact ⟨⟨by decide, by decide⟩, by decide⟩
  · intro c hc _
    obtain rfl := Option.some.inj hc
    exact ⟨rfl, fun _ => by decide +kernel⟩
  · intro c hc _ habort
    obtain rfl := Option.some.inj hc
    exact absurd habort (by decide)

/-- The two servers choose the number 2 at the same time. Each finds it free on the other's file,
    and then puts its own line on its own. -/
theorem two_servers_cross : ∃ tr s, Runs.Run ServersStep (Servers.start oneLine) tr s ∧
    s.Quiet ∧ ∀ {β : Type} (view : CStr → β), ¬ s.Agree view := by
  have h₀ : Runs.Run ServersStep (Servers.start oneLine) [] (Servers.start oneLine) := .nil
  have h₁ := h₀.snoc (@writeX_generate _ .first ⟨[1]⟩ (diskOf oneLine.bytes) (by decide +kernel))
  have h₂ := h₁.snoc (@writeX_generate _ .second ⟨[1]⟩ (diskOf oneLine.bytes) (by decide +kernel))
  have hprecommit := fun s x => @ServersStep.precommit s x 0 (writeXAt .precommit ⟨.closed, [], [], [], [], []⟩ none)
    newPeer newPeer ⟨[], []⟩ [] (some .positive) (diskOf oneLine.bytes)
  have hcommit := fun s x => @ServersStep.commit s x 0 (writeXAt .commit newPeer none) donePeer ⟨[], []⟩ []
    (some .positive) (diskOf "1/u/m\n2/nobody/x\n".toList)
  have hwrite := fun s x => @ServersStep.write s x 0 (writeXAt .write donePeer none) ⟨[], []⟩ [] 0
    (diskOf "1/u/m\n2/nobody/x\n2/nobody/x\n".toList)
  have hclose := fun s x => @ServersStep.close s x 0 (writeXAt (.returned 0) donePeer (some quitRequest))
    { donePeer with pc := .closed } ⟨[], []⟩ [] quitRequest none
    (diskOf "1/u/m\n2/nobody/x\n2/nobody/x\n".toList)
  have hwrote := fun s x => @ServersStep.wrote s x 0
    (writeXAt (.returned 0) { donePeer with pc := .closed } none)
  have h₃ := h₂.snoc (hprecommit _ .first rfl rfl rfl (by decide +kernel))
  have h₄ := h₃.snoc (hprecommit _ .second rfl rfl rfl (by decide +kernel))
  have h₅ := h₄.snoc (hcommit _ .first rfl rfl (by decide +kernel))
  have h₆ := h₅.snoc (hcommit _ .second rfl rfl (by decide +kernel))
  have h₇ := h₆.snoc (hwrite _ .first rfl rfl (by decide +kernel))
  have h₈ := h₇.snoc (hwrite _ .second rfl rfl (by decide +kernel))
  have h₉ := h₈.snoc (hclose _ .first rfl rfl rfl (by decide) (by decide +kernel))
  have h₁₀ := h₉.snoc (hclose _ .second rfl rfl rfl (by decide) (by decide +kernel))
  have h₁₁ := h₁₀.snoc (hwrote _ .first rfl rfl (by decide))
  have h₁₂ := h₁₁.snoc (hwrote _ .second rfl rfl (by decide))
  refine ⟨_, _, h₁₂, ?_, ?_⟩
  · intro x c hc
    cases x with
    | first =>
      obtain rfl := List.mem_singleton.1 hc
      exact ⟨rfl, 0, rfl⟩
    | second =>
      obtain rfl := List.mem_singleton.1 hc
      exact ⟨rfl, 0, rfl⟩
  · intro β view hagree
    have hone := hagree.2 .first ['2'] (by decide)
    exact absurd hone (by decide +kernel)

end BulletinBoard
