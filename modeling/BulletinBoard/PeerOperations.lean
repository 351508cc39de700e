import BulletinBoard.ServerOperations

/- peer_operations.cc: a peer session, `peer_receiver_operations`. A request line takes the
   session to its next file operation, and each file operation is a step, so that the
   steps of several sessions can be interleaved; `Peer.run` runs one session alone. The
   four undo buffers and the line buffers are not initialised by the source: a session
   may start with anything in them. -/
namespace BulletinBoard

inductive PeerReply where
  | positive
  | negative
  | negative_exists
  deriving DecidableEq, Repr

def PeerReply.text : PeerReply → CStr
  | positive => "positive\n".toList
  | negative => "negative\n".toList
  | negative_exists => "negative_exists\n".toList

/-- Where a session stands: before a request, or before the file operation that comes next. -/
inductive PeerPc where
  | ready
  | writeCheck (nmbr message : CStr)
  | writeLine (nmbr message : CStr)
  | replaceCheck (nmbr message : CStr)
  | replaceSave (nmbr message : CStr)
  | replaceDelete (nmbr message : CStr)
  | replaceWrite (nmbr message : CStr)
  | undoDelete
  | undoReplaceDelete
  | undoReplaceWrite
  | closed
  deriving DecidableEq, Repr

structure Peer where
  pc : PeerPc
  user : CStr
  undo_command : CStr
  undo_nmbr : CStr
  undo_user : CStr
  undo_message : CStr
  deriving DecidableEq, Repr

namespace Peer

/-- A COMMIT. The number and the message of a REPLACE are cut up to the length of the
    word `replace`. -/
def commit (junk : List Char) (command : List CStr) (p : Peer) : Peer × Option PeerReply :=
  let refuse : Peer × Option PeerReply := ({ p with pc := .closed }, some .negative)
  if command.length > 1 then
    let kind := command.getD 1 []
    if kind = "write".toList then
      if command.length - 1 > 2 then
        ({ p with pc := .writeCheck (command.getD 2 []) (textFrom 3 command) }, none)
      else refuse
    else if kind = "replace".toList then
      if command.length > 2 then
        let repl_tokens := replTokens (command.drop 2) kind.length junk
        match replMessage repl_tokens with
        | some message => ({ p with pc := .replaceCheck (repl_tokens.getD 0 []) message }, none)
        | none => refuse
      else refuse
    else refuse
  else refuse

/-- A request line, up to the first file operation. -/
def request (junk : List Char) (line : CStr) (p : Peer) : Peer × Option PeerReply :=
  let command := commandOf line
  let client_command := tolwr (command.getD 0 [])
  if client_command = "abort".toList then
    if p.undo_command = "write".toList then ({ p with pc := .undoDelete }, none)
    else if p.undo_command = "replace".toList then ({ p with pc := .undoReplaceDelete }, none)
    else ({ p with pc := .closed }, none)
  else if client_command = "quit".toList then ({ p with pc := .closed }, none)
  else if client_command = "precommit".toList then
    if command.length ≥ 2 then ({ p with user := textFrom 1 command }, some .positive)
    else ({ p with pc := .closed }, some .negative)
  else if client_command = "commit".toList then commit junk command p
  else ({ p with pc := .closed }, some .negative)

/-- The next file operation. What `replace_descriptor` returns is looked at by nobody. -/
def file (junk : Junk) (p : Peer) (d : Disk) : Option (Peer × Option PeerReply × Disk) :=
  match p.pc with
  | .ready | .closed => none
  | .writeCheck nmbr message =>
    (readDescriptor junk.line nmbr d).map fun ((read_return, _), d) =>
      if read_return = -1 then ({ p with pc := .writeLine nmbr message }, none, d)
      else ({ p with pc := .closed }, some .negative_exists, d)
  | .writeLine nmbr message =>
    let (write_return, d) := writeDescriptor nmbr p.user message d
    if write_return = 0 then
      some ({ p with pc := .ready, undo_command := "write".toList, undo_nmbr := nmbr }, some .positive, d)
    else some ({ p with pc := .ready }, some .negative, d)
  | .replaceCheck nmbr message =>
    (readDescriptor junk.line nmbr d).map fun ((read_return, _), d) =>
      if read_return = -1 then ({ p with pc := .closed }, some .negative, d)
      else
        ({ p with
            pc := .replaceSave nmbr message, undo_command := "replace".toList, undo_nmbr := nmbr },
          none, d)
  | .replaceSave nmbr message =>
    (readTokenizedDescriptor junk.line p.undo_nmbr p.undo_user p.undo_message d).map
      fun ((_, msg_user, msg_message), d) =>
        ({ p with
            pc := .replaceDelete nmbr message, undo_user := msg_user, undo_message := msg_message },
          none, d)
  | .replaceDelete nmbr message =>
    (deleteDescriptor junk nmbr d).map fun (del_ret, d) =>
      if del_ret < 0 then ({ p with pc := .ready }, some .positive, d)
      else ({ p with pc := .replaceWrite nmbr message }, none, d)
  | .replaceWrite nmbr message =>
    let (_, d) := writeDescriptor nmbr p.user message d
    some ({ p with pc := .ready }, some .positive, d)
  | .undoDelete =>
    (deleteDescriptor junk p.undo_nmbr d).map fun (_, d) => ({ p with pc := .closed }, none, d)
  | .undoReplaceDelete =>
    (deleteDescriptor junk p.undo_nmbr d).map fun (del_ret, d) =>
      if del_ret < 0 then ({ p with pc := .closed }, none, d)
      else ({ p with pc := .undoReplaceWrite }, none, d)
  | .undoReplaceWrite =>
    let (_, d) := writeDescriptor p.undo_nmbr p.undo_user p.undo_message d
    some ({ p with pc := .closed }, none, d)

/-- The file operations of a request one after another, of which there are at most four. -/
def finish (junk : Junk) : Nat → Peer × Option PeerReply × Disk → Option (Peer × Option PeerReply × Disk)
  | 0, r => some r
  | f + 1, (p, reply, d) =>
    if p.pc = .ready ∨ p.pc = .closed then some (p, reply, d)
    else
      match p.file junk d with
      | none => none
      | some r => finish junk f r

/-- A request that no other session interrupts. -/
def run (junk : Junk) (line : CStr) (p : Peer) (d : Disk) : Option (Peer × Option PeerReply × Disk) :=
  let (p, reply) := p.request junk.line line
  finish junk 4 (p, reply, d)

/-! What a request makes of the session, by its first word. -/

section
variable {p : Peer} {line : CStr}

theorem request_of_precommit (junk : List Char) (h : tolwr ((commandOf line).getD 0 []) = "precommit".toList) :
    p.request junk line =
      if (commandOf line).length ≥ 2 then ({ p with user := textFrom 1 (commandOf line) }, some .positive)
      else ({ p with pc := .closed }, some .negative) := by
  rw [request]
  rw [h, if_neg (by decide), if_neg (by decide), if_pos rfl]

theorem request_of_commit (junk : List Char) (h : tolwr ((commandOf line).getD 0 []) = "commit".toList) :
    p.request junk line = p.commit junk (commandOf line) := by
  rw [request]
  rw [h, if_neg (by decide), if_neg (by decide), if_neg (by decide), if_pos rfl]

theorem request_of_abort (junk : List Char) (h : tolwr ((commandOf line).getD 0 []) = "abort".toList)
    (hundo : p.undo_command = "write".toList) :
    p.request junk line = ({ p with pc := .undoDelete }, none) := by
  rw [request]
  rw [h, if_pos rfl, if_pos hundo]

theorem finish_done {junk : Junk} {reply : Option PeerReply} {d : Disk}
    (h : p.pc = .ready ∨ p.pc = .closed) (f : Nat) : finish junk f (p, reply, d) = some (p, reply, d) := by
  cases f with
  | zero => rfl
  | succ f => rw [finish, if_pos h]

theorem finish_step {junk : Junk} {reply : Option PeerReply} {d : Disk}
    (h : ¬(p.pc = .ready ∨ p.pc = .closed)) (f : Nat) : finish junk (f + 1) (p, reply, d) =
      (p.file junk d).bind (finish junk f) := by
  rw [finish, if_neg h]
  cases p.file junk d <;> rfl

/-- What the file operations of a COMMIT of a WRITE come to. -/
theorem finish_writeCheck (p : Peer) (junk : Junk) (nmbr message : CStr) (d : Disk) :
    finish junk 4 ({ p with pc := .writeCheck nmbr message }, none, d) =
      (readDescriptor junk.line nmbr d).map fun ((read_return, _), d) =>
        if read_return = -1 then
          let (write_return, d) := writeDescriptor nmbr p.user message d
          if write_return = 0 then
            ({ p with pc := .ready, undo_command := "write".toList, undo_nmbr := nmbr }, some .positive, d)
          else ({ p with pc := .ready }, some .negative, d)
        else ({ p with pc := .closed }, some .negative_exists, d) := by
  rw [finish_step (by simp), file]
  dsimp only
  cases readDescriptor junk.line nmbr d with
  | none => rfl
  | some r =>
    rw [Option.map_some, Option.bind_some, Option.map_some]
    split
    · rw [finish_step (by simp), file]
      dsimp only
      split
      · rw [Option.bind_some, finish_done (Or.inl rfl)]
      · rw [Option.bind_some, finish_done (Or.inl rfl)]
    · rw [finish_done (Or.inr rfl)]

/-- What the file operations of a COMMIT of a REPLACE come to. -/
theorem finish_replaceCheck (p : Peer) (junk : Junk) (nmbr message : CStr) (d : Disk) :
    finish junk 4 ({ p with pc := .replaceCheck nmbr message }, none, d) =
      (readDescriptor junk.line nmbr d).bind fun ((read_return, _), d) =>
        if read_return = -1 then some ({ p with pc := .closed }, some .negative, d)
        else (readTokenizedDescriptor junk.line nmbr p.undo_user p.undo_message d).bind
          fun ((_, msg_user, msg_message), d) => (deleteDescriptor junk nmbr d).map fun (del_ret, d) =>
            ({ p with
                pc := .ready, undo_command := "replace".toList, undo_nmbr := nmbr,
                undo_user := msg_user, undo_message := msg_message }, some .positive,
              if del_ret < 0 then d else (writeDescriptor nmbr p.user message d).2) := by
  rw [finish_step (by simp), file]
  dsimp only
  cases readDescriptor junk.line nmbr d with
  | none => rfl
  | some r =>
    rw [Option.map_some, Option.bind_some, Option.bind_some]
    split
    · rw [finish_done (Or.inr rfl)]
    · rw [finish_step (by simp), file]
      dsimp only
      cases readTokenizedDescriptor junk.line nmbr p.undo_user p.undo_message r.2 with
      | none => rfl
      | some saved =>
        rw [Option.map_some, Option.bind_some, Option.bind_some, finish_step (by simp), file]
        dsimp only
        cases deleteDescriptor junk nmbr saved.2 with
        | none => rfl
        | some deleted =>
          rw [Option.map_some, Option.bind_some, Option.map_some]
          split
          · rw [finish_done (Or.inl rfl)]
          · rw [finish_step (by simp), file]
            dsimp only
            rw [Option.bind_some, finish_done (Or.inl rfl)]

/-- A COMMIT of a WRITE goes on to its check when it is long enough. -/
theorem run_of_write (junk : Junk) (d : Disk) (hcommit : tolwr ((commandOf line).getD 0 []) = "commit".toList)
    (hkind : (commandOf line).getD 1 [] = "write".toList) (hlong : (commandOf line).length - 1 > 2) :
    p.run junk line d = finish junk 4
      ({ p with pc := .writeCheck ((commandOf line).getD 2 []) (textFrom 3 (commandOf line)) }, none, d) := by
  rw [run, request_of_commit _ hcommit, commit, if_pos (by omega), if_pos hkind, if_pos hlong]

/-- A COMMIT of a REPLACE goes on to its check when it has a message. -/
theorem run_of_replace (junk : Junk) (d : Disk) (hcommit : tolwr ((commandOf line).getD 0 []) = "commit".toList)
    (hkind : (commandOf line).getD 1 [] = "replace".toList) (hlen : (commandOf line).length > 2) :
    p.run junk line d =
      match replMessage (replTokens ((commandOf line).drop 2) 7 junk.line) with
      | some message => finish junk 4
          ({ p with pc := .replaceCheck ((replTokens ((commandOf line).drop 2) 7 junk.line).getD 0 []) message }, none, d)
      | none => finish junk 4 ({ p with pc := .closed }, some .negative, d) := by
  have hseven : "replace".toList.length = 7 := by decide
  rw [run, request_of_commit _ hcommit, commit, if_pos (by omega), hkind, if_neg (by decide), if_pos rfl, if_pos hlen,
    hseven]
  dsimp only
  cases replMessage (replTokens ((commandOf line).drop 2) 7 junk.line) <;> rfl

/-- A PRECOMMIT with a name. -/
theorem run_of_precommit (junk : Junk) (d : Disk) (h : tolwr ((commandOf line).getD 0 []) = "precommit".toList)
    (hnamed : (commandOf line).length ≥ 2) (hpc : p.pc = .ready) :
    p.run junk line d = some ({ p with user := textFrom 1 (commandOf line) }, some .positive, d) := by
  have hdone : ({ p with user := textFrom 1 (commandOf line) } : Peer).pc = .ready := hpc
  rw [run, request_of_precommit _ h, if_pos hnamed]
  dsimp only
  exact finish_done (Or.inl hdone) 4

/-- An ABORT after a COMMIT of a WRITE is a delete. -/
theorem run_of_abort {junk : Junk} {d d' : Disk} {n : Int}
    (h : tolwr ((commandOf line).getD 0 []) = "abort".toList) (hundo : p.undo_command = "write".toList)
    (hdel : deleteDescriptor junk p.undo_nmbr d = some (n, d')) :
    p.run junk line d = some ({ p with pc := .closed }, none, d') := by
  rw [run, request_of_abort _ h hundo]
  dsimp only
  rw [finish_step (by simp), file]
  dsimp only
  rw [hdel, Option.map_some, Option.bind_some, finish_done (Or.inr rfl)]

/-- An ABORT after a COMMIT of a REPLACE is a delete and a write. -/
theorem run_of_abort_replace {junk : Junk} {d d' d'' : Disk} {n m : Int}
    (h : tolwr ((commandOf line).getD 0 []) = "abort".toList) (hundo : p.undo_command = "replace".toList)
    (hdel : deleteDescriptor junk p.undo_nmbr d = some (n, d')) (hn : 0 ≤ n)
    (hwrite : writeDescriptor p.undo_nmbr p.undo_user p.undo_message d' = (m, d'')) :
    p.run junk line d = some ({ p with pc := .closed }, none, d'') := by
  rw [run, request, h, if_pos rfl, hundo, if_neg (by decide), if_pos rfl]
  dsimp only
  rw [finish_step (by simp), file]
  dsimp only
  rw [hdel, Option.map_some, Option.bind_some]
  dsimp only
  rw [if_neg (not_lt.2 hn), finish_step (by simp), file]
  dsimp only
  rw [hwrite, Option.bind_some, finish_done (Or.inr rfl)]

/-- An ABORT with nothing to undo. -/
theorem run_of_abort_nothing (junk : Junk) (d : Disk) (h : tolwr ((commandOf line).getD 0 []) = "abort".toList)
    (hw : p.undo_command ≠ "write".toList) (hr : p.undo_command ≠ "replace".toList) :
    p.run junk line d = some ({ p with pc := .closed }, none, d) := by
  rw [run, request, h, if_pos rfl, if_neg hw, if_neg hr]
  exact finish_done (Or.inr rfl) 4

end

end Peer

end BulletinBoard
