import BulletinBoard.Board
import BulletinBoard.PeerOperations
import BulletinBoard.Lib.Run

/- Concurrent sessions on one bbfile: clients that REPLACE, and peer sessions. The existence
   check, the delete and the write of a session are steps of their own, so that the
   sessions interleave between them. From its check on to its last change a session has the
   number in hand. Where no session changes a number that another one has in hand, what a
   session has found out about its number stays true until it changes the file: a delete
   finds its line, and the number of an appended line is not live. So no number ever has two
   live lines, and every line whose number nobody named stays where it is. -/
namespace BulletinBoard

/-- What a call does to the lines of the file. -/
inductive Change where
  | none
  | delete (nmbr : CStr)
  | append (line : CStr)
  deriving DecidableEq, Repr

namespace Change

def onLines : Change → List CStr → List CStr
  | none, ls => ls
  | delete nmbr, ls => deleteIn nmbr ls
  | append line, ls => ls ++ [line]

/-- The number of the line that goes or comes. -/
def nmbr : Change → Option CStr
  | none => Option.none
  | delete nmbr => some nmbr
  | append line => some (firstField line)

/-- A delete starts below 2^31, an appended line fits the buffers. -/
def Fits (file : List Char) : Change → Prop
  | none => True
  | delete nmbr => (lineStart nmbr file : Int) ≤ INT_MAX
  | append line => Clean line ∧ line.length < MAX_LEN

/-- A delete finds a line with a number that was named, below 2^31; an appended line fits the
    buffers and its number is not live. -/
def Safe (file : List Char) (named : List CStr) : Change → Prop
  | none => True
  | delete nmbr => nmbr ∈ named ∧ lineOf nmbr (linesOf file) ≠ Option.none ∧
      (lineStart nmbr file : Int) ≤ INT_MAX
  | append line => Clean line ∧ line.length < MAX_LEN ∧
      lineOf (firstField line) (linesOf file) = Option.none

end Change

/-- A client's REPLACE: before its check, its delete, its write and its read-back. -/
inductive ClientPc where
  | idle
  | check (nmbr user message : CStr)
  | delete (nmbr user message : CStr)
  | write (nmbr user message : CStr)
  | readBack (nmbr : CStr)
  deriving DecidableEq, Repr

/-- The next call of a client. -/
def ClientPc.file (junk : Junk) (c : ClientPc) (d : Disk) : Option (ClientPc × Disk) :=
  match c with
  | idle => none
  | check nmbr user message =>
    (readDescriptor junk.line nmbr d).map fun ((read_return, _), d) =>
      (if read_return = -1 then idle else delete nmbr user message, d)
  | delete nmbr user message =>
    (deleteDescriptor junk nmbr d).map fun (del_ret, d) =>
      (if del_ret < 0 then idle else write nmbr user message, d)
  | write nmbr user message =>
    let (write_return, d) := writeDescriptor nmbr user message d
    some (if write_return < 0 then idle else readBack nmbr, d)
  | readBack nmbr => (readDescriptor junk.line nmbr d).map fun (_, d) => (idle, d)

def ClientPc.change : ClientPc → Change
  | delete nmbr _ _ => .delete nmbr
  | write nmbr user message => .append (mkLine nmbr user message)
  | _ => .none

/-- The change that the next call of a peer session makes. -/
def Peer.change (p : Peer) : Change :=
  match p.pc with
  | .writeLine nmbr message => .append (mkLine nmbr p.user message)
  | .replaceDelete nmbr _ => .delete nmbr
  | .replaceWrite nmbr message => .append (mkLine nmbr p.user message)
  | .undoDelete => .delete p.undo_nmbr
  | .undoReplaceDelete => .delete p.undo_nmbr
  | .undoReplaceWrite => .append (mkLine p.undo_nmbr p.undo_user p.undo_message)
  | _ => .none

/-- The number that a request of a peer names. -/
def Peer.names (p : Peer) : List CStr :=
  match p.pc with
  | .writeCheck nmbr _ => [nmbr]
  | .replaceCheck nmbr _ => [nmbr]
  | _ => []

/-- What a session has found out about the number it works on: nothing before its check; the
    check found no line with it, or one; or the session has deleted the line and will write the
    next. -/
inductive Hold where
  | none
  | asked (nmbr : CStr)
  | free (nmbr : CStr)
  | live (nmbr : CStr)
  | deleted (nmbr : CStr)
  deriving DecidableEq, Repr

/-- The number that the session has checked and is still to change. -/
def Hold.inHand : Hold → Option CStr
  | none => Option.none
  | asked _ => Option.none
  | free nmbr => some nmbr
  | live nmbr => some nmbr
  | deleted nmbr => some nmbr

def ClientPc.hold : ClientPc → Hold
  | idle => .none
  | check nmbr _ _ => .asked nmbr
  | delete nmbr _ _ => .live nmbr
  | write nmbr _ _ => .deleted nmbr
  | readBack _ => .none

def Peer.hold (p : Peer) : Hold :=
  match p.pc with
  | .writeCheck nmbr _ => .asked nmbr
  | .writeLine nmbr _ => .free nmbr
  | .replaceCheck nmbr _ => .asked nmbr
  | .replaceSave nmbr _ => .live nmbr
  | .replaceDelete nmbr _ => .live nmbr
  | .replaceWrite nmbr _ => .deleted nmbr
  | .undoReplaceWrite => .deleted p.undo_nmbr
  | _ => .none

/-- The number whose line an ABORT of the session deletes, without a check. -/
def Peer.undoes (p : Peer) : Option CStr :=
  match p.pc with
  | .closed => none
  | .undoDelete | .undoReplaceDelete | .undoReplaceWrite => some p.undo_nmbr
  | _ =>
    if p.undo_command = "write".toList ∨ p.undo_command = "replace".toList then some p.undo_nmbr else none

/-- The file, the numbers that requests have named so far, and the sessions. -/
structure Sessions where
  bbfile : List Char
  named : List CStr
  clients : Nat → ClientPc
  peers : Nat → Peer

inductive SessionOp where
  | clientRequest (i : Nat) (nmbr user message : CStr)
  | clientFile (i : Nat) (junk : Junk)
  | clientStops (i : Nat)
  | peerRequest (i : Nat) (junk : List Char) (line : CStr)
  | peerFile (i : Nat) (junk : Junk)

/-- One step. The peers of this server decide whether a REPLACE goes on after its check
    (`clientStops`). -/
inductive SessionStep : Sessions → SessionOp → Sessions → Prop where
  | clientRequest {s : Sessions} {i : Nat} {nmbr user message : CStr} : s.clients i = .idle →
      SessionStep s (.clientRequest i nmbr user message) { s with
        named := s.named ++ [nmbr]
        clients := Function.update s.clients i (.check nmbr user message) }
  | clientFile {s : Sessions} {i : Nat} {junk : Junk} {c : ClientPc} {d : Disk} :
      (s.clients i).file junk (diskOf s.bbfile) = some (c, d) →
      SessionStep s (.clientFile i junk) { s with
        bbfile := d.bbfile, clients := Function.update s.clients i c }
  | clientStops {s : Sessions} {i : Nat} {nmbr user message : CStr} :
      s.clients i = .delete nmbr user message →
      SessionStep s (.clientStops i) { s with clients := Function.update s.clients i .idle }
  | peerRequest {s : Sessions} {i : Nat} {junk : List Char} {line : CStr} {p : Peer}
      {reply : Option PeerReply} :
      (s.peers i).pc = .ready → (s.peers i).request junk line = (p, reply) →
      SessionStep s (.peerRequest i junk line) { s with
        named := s.named ++ p.names, peers := Function.update s.peers i p }
  | peerFile {s : Sessions} {i : Nat} {junk : Junk} {p : Peer} {reply : Option PeerReply} {d : Disk} :
      (s.peers i).file junk (diskOf s.bbfile) = some (p, reply, d) →
      SessionStep s (.peerFile i junk) { s with
        bbfile := d.bbfile, peers := Function.update s.peers i p }

/-- The change that the step makes to the file. -/
def SessionStep.change (s : Sessions) : SessionOp → Change
  | .clientFile i _ => (s.clients i).change
  | .peerFile i _ => (s.peers i).change
  | _ => .none

/-- The numbers that the step's request names. -/
def SessionStep.names (s : Sessions) : SessionOp → List CStr
  | .clientRequest _ nmbr _ _ => [nmbr]
  | .peerRequest i junk line => ((s.peers i).request junk line).1.names
  | _ => []

/-- The step ends the number: an ABORT that deletes a line and writes none. -/
def SessionStep.Drops (s : Sessions) : SessionOp → Prop
  | .peerFile i _ => (s.peers i).pc = .undoDelete
  | _ => False

inductive SessionId where
  | client (i : Nat)
  | peer (i : Nat)
  deriving DecidableEq, Repr

def SessionOp.session : SessionOp → SessionId
  | clientRequest i _ _ _ => .client i
  | clientFile i _ => .client i
  | clientStops i => .client i
  | peerRequest i _ _ => .peer i
  | peerFile i _ => .peer i

def Sessions.hold (s : Sessions) : SessionId → Hold
  | .client i => (s.clients i).hold
  | .peer i => (s.peers i).hold

def Sessions.undoes (s : Sessions) : SessionId → Option CStr
  | .client _ => none
  | .peer i => (s.peers i).undoes

/-- Requests name decimal numbers, and the lines that change fit. -/
def SessionStep.Fits (s : Sessions) (op : SessionOp) : Prop :=
  (∀ nmbr ∈ SessionStep.names s op, IsNumeral nmbr) ∧ (SessionStep.change s op).Fits s.bbfile

/-- Nobody else has the number of the change in hand; and where an ABORT ends the number, nobody
    else would undo it too. -/
def SessionStep.Undisturbed (s : Sessions) (op : SessionOp) : Prop :=
  ∀ nmbr, (SessionStep.change s op).nmbr = some nmbr → ∀ other, other ≠ op.session →
    (s.hold other).inHand ≠ some nmbr ∧ (SessionStep.Drops s op → s.undoes other ≠ some nmbr)

/-- A board before any request, when no peer session has anything to undo. -/
structure Sessions.Start (b : Board) (s : Sessions) : Prop where
  bbfile : s.bbfile = b.bytes
  named : s.named = []
  clients : ∀ i, s.clients i = .idle
  peers : ∀ i, (s.peers i).pc = .ready
  undoes : ∀ i, (s.peers i).undoes = none

/-! What a step can do to what its session knows. -/

/-- Named by a request, and decimal. -/
def Asked (named : List CStr) (nmbr : CStr) : Prop := nmbr ∈ named ∧ IsNumeral nmbr

namespace Hold

/-- What the session has found out is so. -/
def Ok (named ls : List CStr) : Hold → Prop
  | none => True
  | asked nmbr => Asked named nmbr
  | free nmbr => Asked named nmbr ∧ lineOf nmbr ls = Option.none
  | live nmbr => Asked named nmbr ∧ lineOf nmbr ls ≠ Option.none
  | deleted nmbr => Asked named nmbr ∧ lineOf nmbr ls = Option.none

/-- What a step with the change makes of its session's hold and undo: checks and requests leave
    the lines alone, an appended line ends the hold, a deleted one is to be written anew unless an
    ABORT drops the number. -/
inductive Next (named ls : List CStr) (drops : Prop) (h : Hold) (undoes : Option CStr) :
    Change → Hold → Option CStr → Prop where
  | stays {h' : Hold} {undoes' : Option CStr} : (∀ nmbr, h ≠ .deleted nmbr) → h'.Ok named ls →
      (∀ nmbr, undoes' = some nmbr → undoes = some nmbr ∨ h' = .live nmbr) →
      Next named ls drops h undoes .none h' undoes'
  | append {line : CStr} {undoes' : Option CStr} :
      (∀ nmbr, undoes' = some nmbr → undoes = some nmbr ∨ nmbr = firstField line) →
      Next named ls drops h undoes (.append line) .none undoes'
  | delete {nmbr : CStr} {undoes' : Option CStr} : (∀ x, undoes' = some x → undoes = some x) →
      Next named ls drops h undoes (.delete nmbr) (.deleted nmbr) undoes'
  | drop {nmbr : CStr} : drops → Next named ls drops h undoes (.delete nmbr) .none Option.none

end Hold

/-- A session changes the number it has checked, or the one that it undoes. -/
def Change.Due (h : Hold) (undoes : Option CStr) : Change → Prop
  | none => True
  | delete nmbr => h = .live nmbr ∨ h = .none ∧ undoes = some nmbr
  | append line => h = .free (firstField line) ∨ h = .deleted (firstField line)

section
variable {ls named : List CStr} {file : List Char}

theorem Hold.Ok.mono {named' : List CStr} {h : Hold} (hok : h.Ok named ls) (hsub : ∀ x ∈ named, x ∈ named') :
    h.Ok named' ls := by
  cases h with
  | none => trivial
  | asked nmbr => exact ⟨hsub _ hok.1, hok.2⟩
  | free nmbr => exact ⟨⟨hsub _ hok.1.1, hok.1.2⟩, hok.2⟩
  | live nmbr => exact ⟨⟨hsub _ hok.1.1, hok.1.2⟩, hok.2⟩
  | deleted nmbr => exact ⟨⟨hsub _ hok.1.1, hok.1.2⟩, hok.2⟩

/-- A line appended under a number that has no slash has it as its first field. -/
theorem Asked.firstField {nmbr : CStr} (h : Asked named nmbr) (user message : CStr) :
    firstField (mkLine nmbr user message) = nmbr :=
  firstField_mkLine (isNumeral_no_slash h.2)

theorem ClientPc.due {c : ClientPc} (hok : c.hold.Ok named ls) : c.change.Due c.hold none := by
  cases c with
  | idle => trivial
  | check nmbr user message => trivial
  | delete nmbr user message => exact .inl rfl
  | write nmbr user message =>
    have hasked : Asked named nmbr := hok.1
    have hfirst := hasked.firstField user message
    exact .inr (congrArg Hold.deleted hfirst.symm)
  | readBack nmbr => trivial

theorem Peer.due {p : Peer} (hok : p.hold.Ok named ls) : p.change.Due p.hold p.undoes := by
  cases hpc : p.pc with
  | writeLine nmbr message =>
    simp only [Peer.hold, hpc] at hok
    have hfirst := hok.1.firstField p.user message
    simp only [Peer.change, Peer.hold, hpc, Change.Due, hfirst, true_or]
  | replaceDelete nmbr message => simp only [Peer.change, Peer.hold, hpc, Change.Due, true_or]
  | replaceWrite nmbr message =>
    simp only [Peer.hold, hpc] at hok
    have hfirst := hok.1.firstField p.user message
    simp only [Peer.change, Peer.hold, hpc, Change.Due, hfirst, or_true]
  | undoDelete => simp only [Peer.change, Peer.hold, Peer.undoes, hpc, Change.Due, and_self, or_true]
  | undoReplaceDelete => simp only [Peer.change, Peer.hold, Peer.undoes, hpc, Change.Due, and_self, or_true]
  | undoReplaceWrite =>
    simp only [Peer.hold, hpc] at hok
    have hfirst := hok.1.firstField p.undo_user p.undo_message
    simp only [Peer.change, Peer.hold, hpc, Change.Due, hfirst, or_true]
  | ready => simp only [Peer.change, hpc, Change.Due]
  | closed => simp only [Peer.change, hpc, Change.Due]
  | writeCheck nmbr message => simp only [Peer.change, hpc, Change.Due]
  | replaceCheck nmbr message => simp only [Peer.change, hpc, Change.Due]
  | replaceSave nmbr message => simp only [Peer.change, hpc, Change.Due]

/-- Where a request takes a session. -/
inductive Peer.Asks (p : Peer) : Peer → Prop where
  | closed : Peer.Asks p { p with pc := .closed }
  | precommit (user : CStr) : Peer.Asks p { p with user := user }
  | write (nmbr message : CStr) : Peer.Asks p { p with pc := .writeCheck nmbr message }
  | replace (nmbr message : CStr) : Peer.Asks p { p with pc := .replaceCheck nmbr message }
  | abort_write : p.undo_command = "write".toList → Peer.Asks p { p with pc := .undoDelete }
  | abort_replace : p.undo_command = "replace".toList → Peer.Asks p { p with pc := .undoReplaceDelete }

theorem Peer.commit_asks (p : Peer) (junk : List Char) (command : List CStr) :
    p.Asks (p.commit junk command).1 := by
  rw [Peer.commit]
  dsimp only
  split
  · split
    · split
      · exact .write _ _
      · exact .closed
    · split
      · split
        · cases replMessage (replTokens (command.drop 2) (command.getD 1 []).length junk) with
          | none => exact .closed
          | some message => exact .replace _ _
        · exact .closed
      · exact .closed
  · exact .closed

theorem Peer.request_asks (p : Peer) (junk : List Char) (line : CStr) : p.Asks (p.request junk line).1 := by
  rw [Peer.request]
  split
  · split
    · next h => exact .abort_write h
    · split
      · next h => exact .abort_replace h
      · exact .closed
  · split
    · exact .closed
    · split
      · split
        · exact .precommit _
        · exact .closed
      · split
        · exact p.commit_asks junk (commandOf line)
        · exact .closed

/-- What a ready session would undo. -/
theorem Peer.undoes_of_ready {p : Peer} (h : p.pc = .ready) : p.undoes =
    if p.undo_command = "write".toList ∨ p.undo_command = "replace".toList then some p.undo_nmbr else none := by
  rw [Peer.undoes, h]

/-- A request of a ready session names the number that it will check, and undoes no other. -/
theorem Peer.Asks.next {p p' : Peer} (hready : p.pc = .ready) (h : p.Asks p') :
    (p'.hold = .none ∨ ∃ nmbr ∈ p'.names, p'.hold = .asked nmbr) ∧
      ∀ nmbr, p'.undoes = some nmbr → p.undoes = some nmbr := by
  have hundoes := Peer.undoes_of_ready hready
  cases h with
  | closed => exact ⟨.inl rfl, fun nmbr h => by cases h⟩
  | precommit user =>
    have hhold : Peer.hold { p with user := user } = .none := by simp only [Peer.hold, hready]
    exact ⟨.inl hhold, fun nmbr h => hundoes.trans ((Peer.undoes_of_ready hready).symm.trans h)⟩
  | write nmbr message => exact ⟨.inr ⟨nmbr, List.mem_singleton_self nmbr, rfl⟩, fun x h => hundoes.trans h⟩
  | replace nmbr message => exact ⟨.inr ⟨nmbr, List.mem_singleton_self nmbr, rfl⟩, fun x h => hundoes.trans h⟩
  | abort_write hundo =>
    rw [if_pos (Or.inl hundo)] at hundoes
    exact ⟨.inl rfl, fun nmbr h => hundoes.trans h⟩
  | abort_replace hundo =>
    rw [if_pos (Or.inr hundo)] at hundoes
    exact ⟨.inl rfl, fun nmbr h => hundoes.trans h⟩

end

/-! What the calls do to the lines. -/

section
variable {ls : List CStr} {file : List Char} {named : List CStr}

theorem Change.Safe.delete_lines {nmbr : CStr} (hfile : file = fileOf ls) (hc : ∀ l ∈ ls, Clean l)
    (h : (Change.delete nmbr).Safe file named) (junk : Junk) :
    ∃ ret : Int, 0 ≤ ret ∧
      deleteDescriptor junk nmbr (diskOf file) = some (ret, diskOf (fileOf (deleteIn nmbr ls))) := by
  obtain ⟨-, hlive, hstart⟩ := h
  rw [hfile, linesOf_fileOf hc] at hlive
  obtain ⟨l, hl⟩ := Option.ne_none_iff_exists'.1 hlive
  exact ⟨(l.length : Int) + 1, by omega, deleteDescriptor_diskOf hfile hc junk hl hstart⟩

theorem ClientPc.file_next {c c' : ClientPc} {junk : Junk} {d : Disk} (hfile : file = fileOf ls)
    (hc : ∀ l ∈ ls, Clean l) (hok : c.hold.Ok named ls) (hs : c.change.Safe file named)
    (h : c.file junk (diskOf file) = some (c', d)) :
    d.bbfile = fileOf (c.change.onLines ls) ∧ Hold.Next named ls False c.hold none c.change c'.hold none := by
  have hread : ∀ nmbr, readDescriptor junk.line nmbr (diskOf file) =
      some (readAnswer (lineOf nmbr ls), diskOf file) := readDescriptor_diskOf hfile hc junk.line
  have hundo : ∀ {h' : Hold} (nmbr : CStr), none = some nmbr → none = some nmbr ∨ h' = Hold.live nmbr :=
    fun nmbr h => .inl h
  cases c with
  | idle => cases h
  | check nmbr user message =>
    simp only [ClientPc.file, hread, Option.map_some, Option.some.injEq, Prod.mk.injEq] at h
    obtain ⟨rfl, rfl⟩ := h
    refine ⟨hfile, .stays (fun x => Hold.noConfusion) ?_ hundo⟩
    split
    · trivial
    · next hfound => exact ⟨hok, fun hnone => hfound (readAnswer_absent.2 hnone)⟩
  | delete nmbr user message =>
    obtain ⟨ret, hret, hdel⟩ := hs.delete_lines hfile hc junk
    simp only [ClientPc.file, hdel, Option.map_some, Option.some.injEq, Prod.mk.injEq, if_neg (not_lt.2 hret)] at h
    obtain ⟨rfl, rfl⟩ := h
    exact ⟨rfl, .delete fun _ h => h⟩
  | write nmbr user message =>
    rw [ClientPc.file, writeDescriptor_lines hfile] at h
    obtain ⟨rfl, rfl⟩ := Prod.mk.inj (Option.some.inj h)
    exact ⟨rfl, .append fun _ h => .inl h⟩
  | readBack nmbr =>
    rw [ClientPc.file, hread, Option.map_some] at h
    obtain ⟨rfl, rfl⟩ := Prod.mk.inj (Option.some.inj h)
    exact ⟨hfile, .stays (fun x => Hold.noConfusion) trivial hundo⟩

theorem Peer.file_next {p p' : Peer} {junk : Junk} {reply : Option PeerReply} {d : Disk}
    (hfile : file = fileOf ls) (hc : ∀ l ∈ ls, Clean l) (hok : p.hold.Ok named ls)
    (hs : p.change.Safe file named) (h : p.file junk (diskOf file) = some (p', reply, d)) :
    d.bbfile = fileOf (p.change.onLines ls) ∧
      Hold.Next named ls (p.pc = .undoDelete) p.hold p.undoes p.change p'.hold p'.undoes := by
  have hread : ∀ nmbr, readDescriptor junk.line nmbr (diskOf file) =
      some (readAnswer (lineOf nmbr ls), diskOf file) := readDescriptor_diskOf hfile hc junk.line
  cases hpc : p.pc with
  | ready => simp [Peer.file, hpc] at h
  | closed => simp [Peer.file, hpc] at h
  | writeCheck nmbr message =>
    have hch : p.change = .none := by simp only [Peer.change, hpc]
    have hhold : p.hold = .asked nmbr := by simp only [Peer.hold, hpc]
    simp only [Peer.file, hpc, hread, Option.map_some, Option.some.injEq] at h
    rw [hhold] at hok
    rw [hch, hhold]
    split at h
    · next hfound =>
      obtain ⟨rfl, -, rfl⟩ := h
      refine ⟨hfile, .stays (fun x => Hold.noConfusion) ⟨hok, readAnswer_absent.1 hfound⟩ fun x hx => .inl ?_⟩
      rw [← hx, Peer.undoes, hpc, Peer.undoes]
    · obtain ⟨rfl, -, rfl⟩ := h
      exact ⟨hfile, .stays (fun x => Hold.noConfusion) trivial fun x hx => (Option.some_ne_none x hx.symm).elim⟩
  | writeLine nmbr message =>
    have hch : p.change = .append (mkLine nmbr p.user message) := by simp only [Peer.change, hpc]
    have hhold : p.hold = .free nmbr := by simp only [Peer.hold, hpc]
    simp only [Peer.file, hpc, writeDescriptor_lines hfile, if_true, Option.some.injEq] at h
    rw [hhold] at hok
    rw [hch]
    obtain ⟨rfl, -, rfl⟩ := h
    refine ⟨rfl, .append fun x hx => .inr ?_⟩
    rw [hok.1.firstField]
    exact (Option.some.inj hx).symm
  | replaceCheck nmbr message =>
    have hch : p.change = .none := by simp only [Peer.change, hpc]
    have hhold : p.hold = .asked nmbr := by simp only [Peer.hold, hpc]
    simp only [Peer.file, hpc, hread, Option.map_some, Option.some.injEq] at h
    rw [hhold] at hok
    rw [hch, hhold]
    split at h
    · obtain ⟨rfl, -, rfl⟩ := h
      exact ⟨hfile, .stays (fun x => Hold.noConfusion) trivial fun x hx => (Option.some_ne_none x hx.symm).elim⟩
    · next hfound =>
      obtain ⟨rfl, -, rfl⟩ := h
      refine ⟨hfile, .stays (fun x => Hold.noConfusion) ⟨hok, fun hnone => hfound (readAnswer_absent.2 hnone)⟩
        fun x hx => .inr ?_⟩
      exact congrArg Hold.live (Option.some.inj hx)
  | replaceSave nmbr message =>
    have hch : p.change = .none := by simp only [Peer.change, hpc]
    have hhold : p.hold = .live nmbr := by simp only [Peer.hold, hpc]
    have htok := readTokenizedDescriptor_diskOf hfile hc junk.line p.undo_nmbr p.undo_user p.undo_message
    simp only [Peer.file, hpc, htok, Option.map_some, Option.some.injEq] at h
    rw [hhold] at hok
    rw [hch, hhold]
    obtain ⟨rfl, -, rfl⟩ := h
    refine ⟨hfile, .stays (fun x => Hold.noConfusion) hok fun x hx => .inl ?_⟩
    rw [← hx, Peer.undoes, hpc, Peer.undoes]
  | replaceDelete nmbr message =>
    have hch : p.change = .delete nmbr := by simp only [Peer.change, hpc]
    rw [hch] at hs ⊢
    obtain ⟨ret, hret, hdel⟩ := hs.delete_lines hfile hc junk
    simp only [Peer.file, hpc, hdel, Option.map_some, Option.some.injEq, if_neg (not_lt.2 hret)] at h
    obtain ⟨rfl, -, rfl⟩ := h
    refine ⟨rfl, .delete fun x hx => ?_⟩
    rw [← hx, Peer.undoes, hpc, Peer.undoes]
  | replaceWrite nmbr message =>
    have hch : p.change = .append (mkLine nmbr p.user message) := by simp only [Peer.change, hpc]
    simp only [Peer.file, hpc, writeDescriptor_lines hfile, Option.some.injEq] at h
    rw [hch]
    obtain ⟨rfl, -, rfl⟩ := h
    refine ⟨rfl, .append fun x hx => .inl ?_⟩
    rw [← hx, Peer.undoes, hpc, Peer.undoes]
  | undoDelete =>
    have hch : p.change = .delete p.undo_nmbr := by simp only [Peer.change, hpc]
    rw [hch] at hs ⊢
    obtain ⟨ret, hret, hdel⟩ := hs.delete_lines hfile hc junk
    simp only [Peer.file, hpc, hdel, Option.map_some, Option.some.injEq] at h
    obtain ⟨rfl, -, rfl⟩ := h
    exact ⟨rfl, .drop rfl⟩
  | undoReplaceDelete =>
    have hch : p.change = .delete p.undo_nmbr := by simp only [Peer.change, hpc]
    rw [hch] at hs ⊢
    obtain ⟨ret, hret, hdel⟩ := hs.delete_lines hfile hc junk
    simp only [Peer.file, hpc, hdel, Option.map_some, Option.some.injEq, if_neg (not_lt.2 hret)] at h
    obtain ⟨rfl, -, rfl⟩ := h
    refine ⟨rfl, .delete fun x hx => ?_⟩
    rw [← hx, Peer.undoes, hpc, Peer.undoes]
  | undoReplaceWrite =>
    have hch : p.change = .append (mkLine p.undo_nmbr p.undo_user p.undo_message) := by
      simp only [Peer.change, hpc]
    simp only [Peer.file, hpc, writeDescriptor_lines hfile, Option.some.injEq] at h
    rw [hch]
    obtain ⟨rfl, -, rfl⟩ := h
    exact ⟨rfl, .append fun x hx => (Option.some_ne_none x hx.symm).elim⟩

end

/-! What the change of one session does to what the others know. -/

section
variable {ls named : List CStr} {c : Change} {h : Hold} {x : CStr}

/-- A change of another number leaves a number's line alone. -/
theorem Change.lineOf_onLines (hx : IsNumeral x) (hne : c.nmbr ≠ some x) :
    lineOf x (c.onLines ls) = lineOf x ls := by
  cases c with
  | none => rfl
  | delete nmbr =>
    have hother : x ≠ nmbr := fun he => hne (congrArg some he.symm)
    exact lineOf_deleteIn_of_ne (firstField_deleted_ne hx) hother ls
  | append line =>
    have hother : firstField line ≠ x := fun he => hne (congrArg some he)
    have hnone : lineOf x [line] = Option.none := lineOf_eq_none.2 (by simpa using hother)
    rw [Change.onLines, lineOf_append, hnone, Option.or_none]

/-- What a session has found out stays true while nobody changes the number it has in hand. -/
theorem Hold.Ok.change (hok : h.Ok named ls) (hfree : ∀ nmbr, c.nmbr = some nmbr → h.inHand ≠ some nmbr) :
    h.Ok named (c.onLines ls) := by
  have hother : ∀ nmbr, h.inHand = some nmbr → c.nmbr ≠ some nmbr := fun nmbr hin hc => hfree nmbr hc hin
  cases h with
  | none => trivial
  | asked nmbr => exact hok
  | free nmbr => exact ⟨hok.1, (Change.lineOf_onLines hok.1.2 (hother nmbr rfl)).trans hok.2⟩
  | live nmbr =>
    refine ⟨hok.1, fun hnone => hok.2 ?_⟩
    exact (Change.lineOf_onLines hok.1.2 (hother nmbr rfl)).symm.trans hnone
  | deleted nmbr => exact ⟨hok.1, (Change.lineOf_onLines hok.1.2 (hother nmbr rfl)).trans hok.2⟩

theorem lineOf_deleteIn_distinct (hd : Distinct ls) (hx : IsNumeral x) : lineOf x (deleteIn x ls) = none := by
  have hone := hd x hx
  apply copies_eq_zero.1
  rw [copies_deleteIn hx]
  omega

theorem lineOf_snoc_firstField (line : CStr) (ls : List CStr) : lineOf (firstField line) (ls ++ [line]) ≠ none := by
  intro hnone
  exact lineOf_eq_none.1 hnone line (by simp) rfl

end

section
variable {ls named : List CStr} {c : Change} {h h' : Hold} {u u' : Option CStr} {drops : Prop} {x : CStr}

/-- A session that has deleted a number's line makes no change but the write of that number. -/
theorem Hold.Next.ne_deleted (hnext : Hold.Next named ls drops h u c h' u') (hdue : c.Due h u)
    (hne : c.nmbr ≠ some x) : h ≠ .deleted x := by
  rintro rfl
  cases hnext with
  | stays hnot _ _ => exact hnot x rfl
  | append _ =>
    rcases hdue with hheld | hheld
    · cases hheld
    · cases hheld
      exact hne rfl
  | delete _ =>
    rcases hdue with hheld | ⟨hheld, -⟩
    · cases hheld
    · cases hheld
  | drop _ =>
    rcases hdue with hheld | ⟨hheld, -⟩
    · cases hheld
    · cases hheld

/-- What the session knows after its step is so. -/
theorem Hold.Next.ok (hnext : Hold.Next named ls drops h u c h' u') (hd : Distinct ls)
    (hasked : ∀ nmbr, c.nmbr = some nmbr → Asked named nmbr) : h'.Ok named (c.onLines ls) := by
  cases hnext with
  | stays _ hok _ => exact hok
  | append _ => trivial
  | @delete nmbr _ _ => exact ⟨hasked nmbr rfl, lineOf_deleteIn_distinct hd (hasked nmbr rfl).2⟩
  | drop _ => trivial

/-- What the session would undo after its step it would have undone before, or it is live now. -/
theorem Hold.Next.undoes (hnext : Hold.Next named ls drops h u c h' u')
    (hasked : ∀ nmbr, c.nmbr = some nmbr → Asked named nmbr) (hx : u' = some x) :
    u = some x ∨ Asked named x ∧ lineOf x (c.onLines ls) ≠ Option.none := by
  cases hnext with
  | stays _ hok hundo =>
    rcases hundo x hx with hundo | rfl
    · exact .inl hundo
    · exact .inr hok
  | @append line _ hundo =>
    rcases hundo x hx with hundo | rfl
    · exact .inl hundo
    · exact .inr ⟨hasked _ rfl, lineOf_snoc_firstField line ls⟩
  | delete hundo => exact .inl (hundo x hx)
  | drop _ => cases hx

/-- The number of the change is live after it, or the session will write it, or an ABORT drops it. -/
theorem Hold.Next.number (hnext : Hold.Next named ls drops h u c h' u') (hx : c.nmbr = some x) :
    lineOf x (c.onLines ls) ≠ Option.none ∨ h' = .deleted x ∨ drops ∧ u' = Option.none := by
  cases hnext with
  | stays _ _ _ => cases hx
  | @append line _ _ =>
    cases hx
    exact .inl (lineOf_snoc_firstField line ls)
  | delete _ =>
    cases hx
    exact .inr (.inl rfl)
  | drop hdrops => exact .inr (.inr ⟨hdrops, rfl⟩)

end

/-! The invariant. -/

/-- The lines of the file are read whole, no number has two of them, and every line of the
    board whose number nobody named is there. What the sessions have found out is so, and a
    number that a session would undo is live, or another session is about to write it. -/
structure SessionInv (b : Board) (s : Sessions) (ls : List CStr) : Prop where
  file : s.bbfile = fileOf ls
  clean : ∀ l ∈ ls, Clean l
  distinct : Distinct ls
  kept : ∀ l ∈ b.texts, firstField l ∉ s.named → l ∈ ls
  holds : ∀ a, (s.hold a).Ok s.named ls
  undoes : ∀ a nmbr, s.undoes a = some nmbr →
    Asked s.named nmbr ∧ (lineOf nmbr ls ≠ none ∨ ∃ other, s.hold other = .deleted nmbr)

theorem Sessions.Start.inv {b : Board} {s : Sessions} (h : Sessions.Start b s) : SessionInv b s b.texts where
  file := h.bbfile
  clean := b.texts_clean
  distinct := b.texts_distinct
  kept := fun _ hl _ => hl
  holds a := by
    cases a with
    | client i =>
      rw [Sessions.hold, h.clients i]
      trivial
    | peer i =>
      rw [Sessions.hold, Peer.hold, h.peers i]
      trivial
  undoes a nmbr ha := by
    cases a with
    | client i => cases ha
    | peer i =>
      rw [Sessions.undoes, h.undoes i] at ha
      cases ha

section
variable {b : Board} {s s' : Sessions} {ls : List CStr} {op : SessionOp} {c : Change} {a : SessionId}

/-- A change that is due is safe, where nobody else has its number in hand. -/
theorem SessionInv.safe (h : SessionInv b s ls) (hdue : c.Due (s.hold a) (s.undoes a)) (hfits : c.Fits s.bbfile)
    (hfree : ∀ nmbr, c.nmbr = some nmbr → ∀ other, other ≠ a → (s.hold other).inHand ≠ some nmbr) :
    c.Safe s.bbfile s.named := by
  have hlines : linesOf s.bbfile = ls := by rw [h.file, linesOf_fileOf h.clean]
  have hok := h.holds a
  cases c with
  | none => trivial
  | delete nmbr =>
    rw [Change.Safe, hlines]
    rcases hdue with hlive | ⟨hnone, hundo⟩
    · rw [hlive] at hok
      exact ⟨hok.1.1, hok.2, hfits⟩
    · obtain ⟨hasked, hlive | ⟨other, hother⟩⟩ := h.undoes a nmbr hundo
      · exact ⟨hasked.1, hlive, hfits⟩
      · have hne : other ≠ a := by
          rintro rfl
          exact Hold.noConfusion (hother.symm.trans hnone)
        exact absurd (congrArg Hold.inHand hother) (hfree nmbr rfl other hne)
  | append line =>
    rw [Change.Safe, hlines]
    refine ⟨hfits.1, hfits.2, ?_⟩
    rcases hdue with hheld | hheld
    · rw [hheld] at hok
      exact hok.2
    · rw [hheld] at hok
      exact hok.2

theorem SessionInv.asked (h : SessionInv b s ls) (hdue : c.Due (s.hold a) (s.undoes a)) :
    ∀ nmbr, c.nmbr = some nmbr → Asked s.named nmbr := by
  intro nmbr hn
  have hok := h.holds a
  cases c with
  | none => cases hn
  | delete x =>
    cases hn
    rcases hdue with hlive | ⟨-, hundo⟩
    · rw [hlive] at hok
      exact hok.1
    · exact (h.undoes a nmbr hundo).1
  | append line =>
    cases hn
    rcases hdue with hheld | hheld
    · rw [hheld] at hok
      exact hok.1
    · rw [hheld] at hok
      exact hok.1

/-- The lines after a safe change. -/
theorem SessionInv.lines (h : SessionInv b s ls) (hsafe : c.Safe s.bbfile s.named) :
    (∀ l ∈ c.onLines ls, Clean l) ∧ Distinct (c.onLines ls) ∧
      ∀ l ∈ b.texts, firstField l ∉ s.named → l ∈ c.onLines ls := by
  cases c with
  | none => exact ⟨h.clean, h.distinct, h.kept⟩
  | delete nmbr =>
    refine ⟨deleteIn_clean h.clean, h.distinct.delete nmbr, fun l hl hn => ?_⟩
    apply mem_deleteIn (h.kept l hl hn)
    rintro rfl
    exact hn hsafe.1
  | append line =>
    have hnone := hsafe.2.2
    rw [h.file, linesOf_fileOf h.clean] at hnone
    exact ⟨clean_snoc h.clean hsafe.1, h.distinct.write hnone,
      fun l hl hn => List.mem_append_left _ (h.kept l hl hn)⟩

/-- A step of one session keeps the invariant: what it makes of its own hold it has found out, and
    the numbers that the others have in hand are not the one it changes. -/
theorem SessionInv.next (h : SessionInv b s ls) {drops : Prop} (hdue : c.Due (s.hold a) (s.undoes a))
    (hsafe : c.Safe s.bbfile s.named)
    (hfree : ∀ nmbr, c.nmbr = some nmbr → ∀ other, other ≠ a →
      (s.hold other).inHand ≠ some nmbr ∧ (drops → s.undoes other ≠ some nmbr))
    (hnext : Hold.Next s'.named ls drops (s.hold a) (s.undoes a) c (s'.hold a) (s'.undoes a))
    (hothers : ∀ other, other ≠ a → s'.hold other = s.hold other ∧ s'.undoes other = s.undoes other)
    (hfile : s'.bbfile = fileOf (c.onLines ls)) (hnamed : ∀ x ∈ s.named, x ∈ s'.named) :
    SessionInv b s' (c.onLines ls) := by
  obtain ⟨hclean, hdistinct, hkept⟩ := h.lines hsafe
  have hasked : ∀ nmbr, c.nmbr = some nmbr → Asked s'.named nmbr :=
    fun nmbr hn => ⟨hnamed _ (h.asked hdue nmbr hn).1, (h.asked hdue nmbr hn).2⟩
  refine ⟨hfile, hclean, hdistinct, fun l hl hn => hkept l hl fun hm => hn (hnamed _ hm), ?_, ?_⟩
  · intro x
    by_cases hx : x = a
    · subst hx
      exact hnext.ok h.distinct hasked
    · rw [(hothers x hx).1]
      exact ((h.holds x).change fun nmbr hn => (hfree nmbr hn x hx).1).mono hnamed
  · intro x nmbr hx
    -- what was undone before keeps its line or its writer
    have hold : s.undoes x = some nmbr → Asked s'.named nmbr ∧
        (lineOf nmbr (c.onLines ls) ≠ none ∨ ∃ other, s'.hold other = .deleted nmbr) := by
      intro hbefore
      obtain ⟨hnmbr, hstands⟩ := h.undoes x nmbr hbefore
      refine ⟨⟨hnamed _ hnmbr.1, hnmbr.2⟩, ?_⟩
      by_cases hc : c.nmbr = some nmbr
      · rcases hnext.number hc with hlive | hdeleted | ⟨hdrops, hnone⟩
        · exact .inl hlive
        · exact .inr ⟨a, hdeleted⟩
        · have hxa : x ≠ a := by
            rintro rfl
            exact Option.some_ne_none nmbr (hx.symm.trans hnone)
          exact absurd hbefore ((hfree nmbr hc x hxa).2 hdrops)
      · rw [Change.lineOf_onLines hnmbr.2 hc]
        refine hstands.imp_right fun ⟨other, hother⟩ => ⟨other, ?_⟩
        have hoa : other ≠ a := by
          rintro rfl
          exact hnext.ne_deleted hdue hc hother
        exact (hothers other hoa).1.trans hother
    by_cases hxa : x = a
    · subst hxa
      rcases hnext.undoes hasked hx with hbefore | ⟨hnmbr, hlive⟩
      · exact hold hbefore
      · exact ⟨hnmbr, .inl hlive⟩
    · exact hold ((hothers x hxa).2.symm.trans hx)

/-- The sessions that do not step stay as they are. -/
theorem SessionStep.others (hstep : SessionStep s op s') (other : SessionId) (hne : other ≠ op.session) :
    s'.hold other = s.hold other ∧ s'.undoes other = s.undoes other := by
  have hclient : ∀ {i : Nat} {c : ClientPc} {t : Sessions}, t.clients = Function.update s.clients i c →
      t.peers = s.peers → other ≠ .client i → t.hold other = s.hold other ∧ t.undoes other = s.undoes other := by
    intro i c t hclients hpeers hi
    cases other with
    | client j =>
      have hj : j ≠ i := fun he => hi (congrArg SessionId.client he)
      have hsame : t.clients j = s.clients j := by rw [hclients, Function.update_of_ne hj]
      exact ⟨congrArg ClientPc.hold hsame, rfl⟩
    | peer j =>
      have hsame : t.peers j = s.peers j := by rw [hpeers]
      exact ⟨congrArg Peer.hold hsame, congrArg Peer.undoes hsame⟩
  have hpeer : ∀ {i : Nat} {p : Peer} {t : Sessions}, t.peers = Function.update s.peers i p →
      t.clients = s.clients → other ≠ .peer i → t.hold other = s.hold other ∧ t.undoes other = s.undoes other := by
    intro i p t hpeers hclients hi
    cases other with
    | client j =>
      have hsame : t.clients j = s.clients j := by rw [hclients]
      exact ⟨congrArg ClientPc.hold hsame, rfl⟩
    | peer j =>
      have hj : j ≠ i := fun he => hi (congrArg SessionId.peer he)
      have hsame : t.peers j = s.peers j := by rw [hpeers, Function.update_of_ne hj]
      exact ⟨congrArg Peer.hold hsame, congrArg Peer.undoes hsame⟩
  cases hstep with
  | clientRequest _ => exact hclient rfl rfl hne
  | clientFile _ => exact hclient rfl rfl hne
  | clientStops _ => exact hclient rfl rfl hne
  | peerRequest _ _ => exact hpeer rfl rfl hne
  | peerFile _ => exact hpeer rfl rfl hne

/-- A step that leaves the file alone. -/
theorem SessionInv.stays (h : SessionInv b s ls) (hbefore : ∀ x, s.hold a ≠ .deleted x)
    (hafter : (s'.hold a).Ok s'.named ls) (hundo : ∀ x, s'.undoes a = some x → s.undoes a = some x)
    (hothers : ∀ other, other ≠ a → s'.hold other = s.hold other ∧ s'.undoes other = s.undoes other)
    (hfile : s'.bbfile = s.bbfile) (hnamed : ∀ x ∈ s.named, x ∈ s'.named) : SessionInv b s' ls := by
  have hdue : Change.none.Due (s.hold a) (s.undoes a) := trivial
  have hnext : Hold.Next s'.named ls False (s.hold a) (s.undoes a) .none (s'.hold a) (s'.undoes a) :=
    .stays hbefore hafter fun x hx => .inl (hundo x hx)
  exact h.next hdue trivial (fun nmbr hn => by cases hn) hnext hothers (hfile.trans h.file) hnamed

/-- One step keeps the invariant. What a session asks for, it names; what it goes on with, it has
    checked; and what it changes is due. -/
theorem SessionInv.step (h : SessionInv b s ls) (hfits : SessionStep.Fits s op)
    (hok : SessionStep.Undisturbed s op) (hstep : SessionStep s op s') : ∃ ls', SessionInv b s' ls' := by
  have hothers := SessionStep.others hstep
  have hfree := fun nmbr hn other hne => (hok nmbr hn other hne).1
  cases hstep with
  | @clientRequest i nmbr user message hidle =>
    have hbefore : s.hold (.client i) = .none := congrArg ClientPc.hold hidle
    have hself := Function.update_self i (ClientPc.check nmbr user message) s.clients
    have hasked : Asked (s.named ++ [nmbr]) nmbr := ⟨by simp, hfits.1 nmbr (List.mem_singleton_self nmbr)⟩
    refine ⟨ls, h.stays (fun x hx => Hold.noConfusion (hbefore.symm.trans hx)) ?_ (fun x hx => hx) hothers rfl
      fun x hx => List.mem_append_left _ hx⟩
    show (ClientPc.hold (Function.update s.clients i _ i)).Ok _ ls
    rw [hself]
    exact hasked
  | @clientStops i nmbr user message hpc =>
    have hbefore : s.hold (.client i) = .live nmbr := congrArg ClientPc.hold hpc
    have hself := Function.update_self i ClientPc.idle s.clients
    refine ⟨ls, h.stays (fun x hx => Hold.noConfusion (hbefore.symm.trans hx)) ?_ (fun x hx => hx) hothers rfl
      fun x hx => hx⟩
    show (ClientPc.hold (Function.update s.clients i _ i)).Ok _ ls
    rw [hself]
    trivial
  | @clientFile i junk c d hf =>
    have hdue := ClientPc.due (h.holds (.client i))
    have hsafe := h.safe (a := .client i) hdue hfits.2 hfree
    have hself := Function.update_self i c s.clients
    obtain ⟨hfile, hnext⟩ := ClientPc.file_next h.file h.clean (h.holds (.client i)) hsafe hf
    refine ⟨_, h.next (a := .client i) hdue hsafe hok ?_ hothers hfile fun _ hx => hx⟩
    show Hold.Next s.named ls False _ none _ (ClientPc.hold (Function.update s.clients i c i)) none
    rw [hself]
    exact hnext
  | @peerRequest i junk line p reply hready hreq =>
    have hp : ((s.peers i).request junk line).1 = p := congrArg Prod.fst hreq
    have hasks := (s.peers i).request_asks junk line
    rw [hp] at hasks
    obtain ⟨hhold, hundo⟩ := hasks.next hready
    have hbefore : s.hold (.peer i) = .none := by rw [Sessions.hold, Peer.hold, hready]
    have hself := Function.update_self i p s.peers
    refine ⟨ls, h.stays (fun x hx => Hold.noConfusion (hbefore.symm.trans hx)) ?_ (fun x hx => ?_) hothers rfl
      fun x hx => List.mem_append_left _ hx⟩
    · show (Peer.hold (Function.update s.peers i p i)).Ok _ ls
      rw [hself]
      rcases hhold with hnone | ⟨nmbr, hnmbr, hasked⟩
      · rw [hnone]
        trivial
      · rw [hasked]
        refine ⟨List.mem_append_right _ hnmbr, hfits.1 nmbr ?_⟩
        rw [SessionStep.names, hp]
        exact hnmbr
    · have hx' : Peer.undoes (Function.update s.peers i p i) = some x := hx
      rw [hself] at hx'
      exact hundo x hx'
  | @peerFile i junk p reply d hf =>
    have hdue := Peer.due (h.holds (.peer i))
    have hsafe := h.safe (a := .peer i) hdue hfits.2 hfree
    have hself := Function.update_self i p s.peers
    obtain ⟨hfile, hnext⟩ := Peer.file_next h.file h.clean (h.holds (.peer i)) hsafe hf
    refine ⟨_, h.next (a := .peer i) hdue hsafe hok ?_ hothers hfile fun _ hx => hx⟩
    show Hold.Next s.named ls _ _ _ _ (Peer.hold (Function.update s.peers i p i))
      (Peer.undoes (Function.update s.peers i p i))
    rw [hself]
    exact hnext

end

/-- **The board under concurrent sessions.** In every run of requests that fit, in which no session
    changes a number that another one has in hand, no number has two live lines, and every live
    line of the board whose number no request named is still there byte for byte. -/
theorem sessions_keep_board {b : Board} {s₀ s : Sessions} {tr : List (Sessions × SessionOp)}
    (h₀ : Sessions.Start b s₀) (hrun : Runs.Run SessionStep s₀ tr s) (hfits : Runs.Guarded SessionStep.Fits tr)
    (hok : Runs.Guarded SessionStep.Undisturbed tr) :
    Distinct (linesOf s.bbfile) ∧
      ∀ l ∈ liveLines b.lines, l.id ∉ s.named → l.text ∈ linesOf s.bbfile := by
  let ok : Sessions → SessionOp → Prop := fun s op => SessionStep.Fits s op ∧ SessionStep.Undisturbed s op
  have hkeep : ∀ s op s', (∃ ls, SessionInv b s ls) → ok s op → SessionStep s op s' →
      ∃ ls, SessionInv b s' ls := by
    rintro s op s' ⟨ls, h⟩ ⟨hf, hu⟩ hstep
    exact h.step hf hu hstep
  obtain ⟨ls, h⟩ := hrun.inv ⟨_, h₀.inv⟩ hkeep fun p hp => ⟨hfits p hp, hok p hp⟩
  rw [h.file, linesOf_fileOf h.clean]
  refine ⟨h.distinct, fun l hl hn => h.kept l.text ?_ ?_⟩
  · obtain ⟨x, hx, hlive⟩ := List.mem_filterMap.1 hl
    cases x with
    | deleted n pos lt => cases hlive
    | live l' =>
      obtain rfl : l' = l := Option.some.inj hlive
      exact List.mem_map.2 ⟨_, hx, rfl⟩
  · rw [LiveLine.text, l.ok.firstField]
    exact hn

/-! A client and a peer session on a board with one line. -/

def idlePeer : Peer := ⟨.ready, "nobody".toList, [], [], [], []⟩

def oneOfEach (bbfile : List Char) (named : List CStr) (c : ClientPc) (p : Peer) : Sessions where
  bbfile := bbfile
  named := named
  clients := Function.update (fun _ => .idle) 0 c
  peers := Function.update (fun _ => idlePeer) 0 p

section
variable {bbfile : List Char} {named : List CStr} {c c' : ClientPc} {p p' : Peer}

theorem oneOfEach_hold {other : SessionId} (hclient : other ≠ .client 0) (hpeer : other ≠ .peer 0) :
    (oneOfEach bbfile named c p).hold other = .none ∧ (oneOfEach bbfile named c p).undoes other = none := by
  cases other with
  | client i =>
    have hi : i ≠ 0 := fun h => hclient (congrArg SessionId.client h)
    have hsame : (oneOfEach bbfile named c p).clients i = .idle := by
      show Function.update (fun _ => ClientPc.idle) 0 c i = .idle
      rw [Function.update_of_ne hi]
    exact ⟨congrArg ClientPc.hold hsame, rfl⟩
  | peer i =>
    have hi : i ≠ 0 := fun h => hpeer (congrArg SessionId.peer h)
    have hsame : (oneOfEach bbfile named c p).peers i = idlePeer := by
      show Function.update (fun _ => idlePeer) 0 p i = idlePeer
      rw [Function.update_of_ne hi]
    exact ⟨congrArg Peer.hold hsame, congrArg Peer.undoes hsame⟩

/-- The client is disturbed by nobody but the peer session. -/
theorem oneOfEach_client (junk : Junk) (h : ∀ nmbr, c.change.nmbr = some nmbr → p.hold.inHand ≠ some nmbr) :
    SessionStep.Undisturbed (oneOfEach bbfile named c p) (.clientFile 0 junk) := by
  intro nmbr hn other hne
  refine ⟨?_, fun hdrops => hdrops.elim⟩
  by_cases hpeer : other = .peer 0
  · subst hpeer
    exact h nmbr hn
  · rw [(oneOfEach_hold hne hpeer).1]
    exact (Option.some_ne_none nmbr).symm

/-- And the peer session by nobody but the client. -/
theorem oneOfEach_peer (junk : Junk) (h : ∀ nmbr, p.change.nmbr = some nmbr → c.hold.inHand ≠ some nmbr) :
    SessionStep.Undisturbed (oneOfEach bbfile named c p) (.peerFile 0 junk) := by
  intro nmbr hn other hne
  by_cases hclient : other = .client 0
  · subst hclient
    exact ⟨h nmbr hn, fun _ => (Option.some_ne_none nmbr).symm⟩
  · rw [(oneOfEach_hold hclient hne).1, (oneOfEach_hold hclient hne).2]
    exact ⟨(Option.some_ne_none nmbr).symm, fun _ => (Option.some_ne_none nmbr).symm⟩

theorem oneOfEach_clientRequest {nmbr user message : CStr} :
    SessionStep (oneOfEach bbfile named .idle p) (.clientRequest 0 nmbr user message)
      (oneOfEach bbfile (named ++ [nmbr]) (.check nmbr user message) p) := by
  have hstep := @SessionStep.clientRequest (oneOfEach bbfile named .idle p) 0 nmbr user message rfl
  simpa only [oneOfEach, Function.update_idem] using hstep

theorem oneOfEach_clientFile {junk : Junk} {d : Disk} (h : c.file junk (diskOf bbfile) = some (c', d)) :
    SessionStep (oneOfEach bbfile named c p) (.clientFile 0 junk) (oneOfEach d.bbfile named c' p) := by
  have hstep := @SessionStep.clientFile (oneOfEach bbfile named c p) 0 junk c' d h
  simpa only [oneOfEach, Function.update_idem] using hstep

theorem oneOfEach_peerFile {junk : Junk} {reply : Option PeerReply} {d : Disk}
    (h : p.file junk (diskOf bbfile) = some (p', reply, d)) :
    SessionStep (oneOfEach bbfile named c p) (.peerFile 0 junk) (oneOfEach d.bbfile named c p') := by
  have hstep := @SessionStep.peerFile (oneOfEach bbfile named c p) 0 junk p' reply d h
  simpa only [oneOfEach, Function.update_idem] using hstep

theorem oneOfEach_peerRequest {junk : List Char} {line : CStr} {reply : Option PeerReply} (hready : p.pc = .ready)
    (h : p.request junk line = (p', reply)) :
    SessionStep (oneOfEach bbfile named c p) (.peerRequest 0 junk line)
      (oneOfEach bbfile (named ++ p'.names) c p') := by
  have hstep := @SessionStep.peerRequest (oneOfEach bbfile named c p) 0 junk line p' reply hready h
  simpa only [oneOfEach, Function.update_idem] using hstep

/-- A run that meets the condition. -/
def Sessions.Goes (s₀ s : Sessions) : Prop :=
  ∃ tr, Runs.Run SessionStep s₀ tr s ∧ Runs.Guarded SessionStep.Fits tr ∧ Runs.Guarded SessionStep.Undisturbed tr

theorem Sessions.Goes.snoc {s₀ s s' : Sessions} {op : SessionOp} (h : Sessions.Goes s₀ s)
    (hfits : SessionStep.Fits s op) (hok : SessionStep.Undisturbed s op) (hstep : SessionStep s op s') :
    Sessions.Goes s₀ s' := by
  obtain ⟨tr, hrun, hf, hu⟩ := h
  exact ⟨_, hrun.snoc hstep, hf.snoc hfits, hu.snoc hok⟩

variable {s₀ : Sessions}

theorem Sessions.Goes.clientFile (junk : Junk) {d : Disk} (hgo : s₀.Goes (oneOfEach bbfile named c p))
    (hfits : c.change.Fits bbfile) (hfree : ∀ nmbr, c.change.nmbr = some nmbr → p.hold.inHand ≠ some nmbr)
    (h : c.file junk (diskOf bbfile) = some (c', d)) : s₀.Goes (oneOfEach d.bbfile named c' p) := by
  have hf : SessionStep.Fits (oneOfEach bbfile named c p) (.clientFile 0 junk) := ⟨fun _ hn => (by cases hn), hfits⟩
  exact hgo.snoc hf (oneOfEach_client junk hfree) (oneOfEach_clientFile h)

theorem Sessions.Goes.peerFile (junk : Junk) {reply : Option PeerReply} {d : Disk}
    (hgo : s₀.Goes (oneOfEach bbfile named c p)) (hfits : p.change.Fits bbfile)
    (hfree : ∀ nmbr, p.change.nmbr = some nmbr → c.hold.inHand ≠ some nmbr)
    (h : p.file junk (diskOf bbfile) = some (p', reply, d)) : s₀.Goes (oneOfEach d.bbfile named c p') := by
  have hf : SessionStep.Fits (oneOfEach bbfile named c p) (.peerFile 0 junk) := ⟨fun _ hn => (by cases hn), hfits⟩
  exact hgo.snoc hf (oneOfEach_peer junk hfree) (oneOfEach_peerFile h)

theorem Sessions.Goes.peerRequest (junk : List Char) {line : CStr} {reply : Option PeerReply}
    (hgo : s₀.Goes (oneOfEach bbfile named c p)) (hready : p.pc = .ready)
    (h : p.request junk line = (p', reply)) (hnames : ∀ nmbr ∈ p'.names, IsNumeral nmbr) :
    s₀.Goes (oneOfEach bbfile (named ++ p'.names) c p') := by
  have hfits : SessionStep.Fits (oneOfEach bbfile named c p) (.peerRequest 0 junk line) := by
    refine ⟨?_, trivial⟩
    show ∀ nmbr ∈ (p.request junk line).1.names, IsNumeral nmbr
    rw [h]
    exact hnames
  exact hgo.snoc hfits (fun nmbr hn => by cases hn) (oneOfEach_peerRequest hready h)

end

def oneReplaceStart : Sessions := oneOfEach oneLine.bytes [] .idle idlePeer

theorem oneReplaceStart_start : Sessions.Start oneLine oneReplaceStart where
  bbfile := rfl
  named := rfl
  clients i := congrFun (Function.update_eq_self 0 fun _ => ClientPc.idle) i
  peers i := congrArg Peer.pc (congrFun (Function.update_eq_self 0 fun _ => idlePeer) i)
  undoes i := congrArg Peer.undoes (congrFun (Function.update_eq_self 0 fun _ => idlePeer) i)

/-- A client that asks for a REPLACE of number 1, checks it and deletes its line. -/
def oneReplaceDeleted (p : Peer) : Sessions :=
  oneOfEach "\x08\x08\x08\x08\x08\n".toList [['1']] (.write ['1'] ['v'] ['n']) p

theorem oneReplace_goes : oneReplaceStart.Goes (oneReplaceDeleted idlePeer) := by
  have hempty : oneReplaceStart.Goes oneReplaceStart := ⟨[], .nil, fun _ h => (by cases h), fun _ h => (by cases h)⟩
  have hfits : SessionStep.Fits oneReplaceStart (.clientRequest 0 ['1'] ['v'] ['n']) := ⟨by decide, trivial⟩
  have hasked : oneReplaceStart.Goes (oneOfEach oneLine.bytes [['1']] (.check ['1'] ['v'] ['n']) idlePeer) :=
    hempty.snoc hfits (fun nmbr hn => by cases hn) oneOfEach_clientRequest
  have hfree : ∀ nmbr : CStr, idlePeer.hold.inHand ≠ some nmbr := fun nmbr => (Option.some_ne_none nmbr).symm
  have hchecked : oneReplaceStart.Goes (oneOfEach oneLine.bytes [['1']] (.delete ['1'] ['v'] ['n']) idlePeer) :=
    hasked.clientFile ⟨[], []⟩ (d := diskOf oneLine.bytes) trivial (fun nmbr _ => hfree nmbr) rfl
  have hstart : (lineStart ['1'] oneLine.bytes : Int) ≤ INT_MAX := by decide
  exact hchecked.clientFile ⟨[], []⟩ (d := diskOf "\x08\x08\x08\x08\x08\n".toList) hstart
    (fun nmbr _ => hfree nmbr) (by decide +kernel)

/-- Between the delete and the write of the client a peer session writes number 2, and takes it back
    after the client's write. In the end the client's line stands for number 1, and no line for 2. -/
theorem sessions_keep_board_replace : ∃ tr s, Runs.Run SessionStep oneReplaceStart tr s ∧
    lineOf ['1'] (linesOf s.bbfile) = some "1/v/n".toList ∧ lineOf ['2'] (linesOf s.bbfile) = none ∧
    Distinct (linesOf s.bbfile) := by
  let p₁ : Peer := { idlePeer with pc := .writeCheck ['2'] ['x'] }
  let p₂ : Peer := { p₁ with pc := .writeLine ['2'] ['x'] }
  let p₃ : Peer := { p₁ with pc := .ready, undo_command := "write".toList, undo_nmbr := ['2'] }
  let p₄ : Peer := { p₃ with pc := .undoDelete }
  let p₅ : Peer := { p₃ with pc := .closed }
  let d₁ : Disk := diskOf "\x08\x08\x08\x08\x08\n".toList
  let d₂ : Disk := diskOf "\x08\x08\x08\x08\x08\n2/nobody/x\n".toList
  let d₃ : Disk := diskOf "\x08\x08\x08\x08\x08\n2/nobody/x\n1/v/n\n".toList
  let d₄ : Disk := diskOf "\x08\x08\x08\x08\x08\n\x08\x08\x08\x08\x08\x08\x08\x08\x08\x08\n1/v/n\n".toList
  let c₁ : ClientPc := .write ['1'] ['v'] ['n']
  let c₂ : ClientPc := .readBack ['1']
  let named : List CStr := [['1'], ['2']]
  have hcommit : idlePeer.request [] "commit write 2 x \n".toList = (p₁, none) := by decide +kernel
  have habort : p₃.request [] "abort \n".toList = (p₄, none) := by decide +kernel
  have hheld : ∀ nmbr : CStr, some ['2'] = some nmbr → c₁.hold.inHand ≠ some nmbr :=
    fun nmbr hn hin => absurd (hn.trans hin.symm) (by decide)
  have hstart : (lineStart ['2'] d₃.bbfile : Int) ≤ INT_MAX := by decide
  have hundone : p₄.file ⟨[], []⟩ d₃ = some (p₅, none, d₄) := by decide +kernel
  have h₁ : oneReplaceStart.Goes (oneOfEach d₁.bbfile named c₁ p₁) :=
    oneReplace_goes.peerRequest [] rfl hcommit (by decide)
  have h₂ : oneReplaceStart.Goes (oneOfEach d₁.bbfile named c₁ p₂) :=
    h₁.peerFile ⟨[], []⟩ (d := d₁) trivial (fun nmbr hn => by cases hn) rfl
  have h₃ : oneReplaceStart.Goes (oneOfEach d₂.bbfile named c₁ p₃) :=
    h₂.peerFile ⟨[], []⟩ (d := d₂) ⟨⟨by decide, by decide, by decide⟩, by decide⟩ hheld rfl
  have h₄ : oneReplaceStart.Goes (oneOfEach d₃.bbfile named c₂ p₃) :=
    h₃.clientFile ⟨[], []⟩ (d := d₃) ⟨⟨by decide, by decide, by decide⟩, by decide⟩
      (fun nmbr _ => (Option.some_ne_none nmbr).symm) rfl
  have h₅ : oneReplaceStart.Goes (oneOfEach d₃.bbfile named c₂ p₄) :=
    h₄.peerRequest [] rfl habort (by decide)
  have h₆ : oneReplaceStart.Goes (oneOfEach d₄.bbfile named c₂ p₅) :=
    h₅.peerFile ⟨[], []⟩ hstart (fun nmbr _ => (Option.some_ne_none nmbr).symm) hundone
  obtain ⟨tr, hrun, hfits, hok⟩ := h₆
  exact ⟨tr, _, hrun, by decide, by decide, (sessions_keep_board oneReplaceStart_start hrun hfits hok).1⟩

/-- A peer that writes the number between the delete and the write of the client: the number has
    two live lines in the end. -/
theorem sessions_two_lines :
    ∃ tr s, Runs.Run SessionStep oneReplaceStart tr s ∧ copies ['1'] (linesOf s.bbfile) = 2 := by
  obtain ⟨tr, hrun, -, -⟩ := oneReplace_goes
  let p₁ : Peer := { idlePeer with pc := .writeCheck ['1'] ['x'] }
  let p₂ : Peer := { p₁ with pc := .writeLine ['1'] ['x'] }
  let p₃ : Peer := { p₁ with pc := .ready, undo_command := "write".toList, undo_nmbr := ['1'] }
  let d₁ : Disk := diskOf "\x08\x08\x08\x08\x08\n".toList
  let d₂ : Disk := diskOf "\x08\x08\x08\x08\x08\n1/nobody/x\n".toList
  let d₃ : Disk := diskOf "\x08\x08\x08\x08\x08\n1/nobody/x\n1/v/n\n".toList
  let c₁ : ClientPc := .write ['1'] ['v'] ['n']
  let c₂ : ClientPc := .readBack ['1']
  let named : List CStr := [['1'], ['1']]
  have hcommit : idlePeer.request [] "commit write 1 x \n".toList = (p₁, none) := by decide +kernel
  have h₁ : SessionStep (oneReplaceDeleted idlePeer) _ (oneOfEach d₁.bbfile named c₁ p₁) :=
    oneOfEach_peerRequest rfl hcommit
  have h₂ : SessionStep (oneOfEach d₁.bbfile named c₁ p₁) (.peerFile 0 ⟨[], []⟩) (oneOfEach d₁.bbfile named c₁ p₂) :=
    oneOfEach_peerFile (d := d₁) rfl
  have h₃ : SessionStep (oneOfEach d₁.bbfile named c₁ p₂) (.peerFile 0 ⟨[], []⟩) (oneOfEach d₂.bbfile named c₁ p₃) :=
    oneOfEach_peerFile (d := d₂) rfl
  have h₄ : SessionStep (oneOfEach d₂.bbfile named c₁ p₃) (.clientFile 0 ⟨[], []⟩) (oneOfEach d₃.bbfile named c₂ p₃) :=
    oneOfEach_clientFile (d := d₃) rfl
  exact ⟨_, _, (((hrun.snoc h₁).snoc h₂).snoc h₃).snoc h₄, by decide⟩

end BulletinBoard
