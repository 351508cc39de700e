import BulletinBoard.TcpUtils
import BulletinBoard.Tokenize
import BulletinBoard.Lib.Lines

/- descriptor.cc: the operations on the bbfile and the number generator. The disk is
   the file and the outcomes of the next opens; a scan that never ends is `none`.
   Local buffers that the source does not initialise are arguments (`junk`). -/
namespace BulletinBoard

def MAX_LEN : Nat := 1024
def BBLINE_LEN : Nat := 3 * 1024 + 3

/-- The outcome of an `open`: it succeeds, it fails, or it succeeds and reads fail after
    `k` bytes. -/
inductive OpenResult where
  | ok
  | fails
  | readFails (k : Nat)
  deriving DecidableEq, Repr

/-- `source_file`, and what the next opens give; after those every open succeeds. -/
structure Disk where
  bbfile : List Char
  opens : List OpenResult
  deriving DecidableEq, Repr

/-- `open(source_file, ...)`: the descriptor, `none` for -1. -/
def Disk.openFile (d : Disk) : Option Stream × Disk :=
  match d.opens with
  | [] => (some ⟨d.bbfile, false⟩, d)
  | .ok :: os => (some ⟨d.bbfile, false⟩, { d with opens := os })
  | .fails :: os => (none, { d with opens := os })
  | .readFails k :: os => (some ⟨d.bbfile.take k, true⟩, { d with opens := os })

/-- The local buffers of `delete_descriptor` and `seek_msg_descriptor`. -/
structure Junk where
  line : List Char
  msg_len : List Char
  deriving DecidableEq, Repr

/-- The line that a `write_descriptor` appends. -/
def lineBytes (msg_number user message : CStr) : List Char :=
  msg_number ++ '/' :: user ++ '/' :: message ++ ['\n']

def writeDescriptor (msg_number user message : Option CStr) (d : Disk) : Int × Disk :=
  match msg_number, user, message with
  | some msg_number, some user, some message =>
    let (fd, d) := d.openFile
    if fd.isNone then (-2, d)
    else
      let (destination, d) := d.openFile
      if destination.isNone then (-2, d)
      else (0, { d with bbfile := d.bbfile ++ lineBytes msg_number user message })
  | _, _, _ => (-1, d)

/-- A write answers 0 or fails. -/
theorem writeDescriptor_return (msg_number user message : Option CStr) (d : Disk) :
    (writeDescriptor msg_number user message d).1 = 0 ∨
      (writeDescriptor msg_number user message d).1 < 0 := by
  have hneg : ∀ r : Int, r = -1 ∨ r = -2 → r < 0 := by omega
  unfold writeDescriptor
  split
  · dsimp only
    split
    · exact Or.inr (hneg _ (Or.inr rfl))
    · split
      · exact Or.inr (hneg _ (Or.inr rfl))
      · exact Or.inl rfl
  · exact Or.inr (hneg _ (Or.inl rfl))

/-- A line that a scan stops at: its text before it was tokenized, its tokens, and the
    descriptor after it. -/
structure Found where
  line : CStr
  tokens : List CStr
  fd : Stream
  deriving DecidableEq, Repr

/-- The loop that the scans for a number share:
    `while (readline(fd, line, BBLINE_LEN) != recv_nodata)`, tokenizing each line in place
    and stopping at the first whose first token is the number. `none` when the rounds
    run out. -/
def findLine (msg_number : CStr) : Nat → Stream → List Char → Option (Option Found)
  | 0, _, _ => none
  | f + 1, fd, line =>
    let (rc, line, fd) := readline line BBLINE_LEN fd
    if rc = recvNodata then some none
    else
      let text := cstr line 0
      let r := bblineTokenize line text.length
      let tokens := tokenStrings r
      if tokens.getD 0 [] = msg_number then some (some ⟨text, tokens, fd⟩)
      else findLine msg_number f fd r.1

/-- Rounds that are enough for a scan of a descriptor: one for each byte, one for the end
    of the file, and one more, in which the buffer of a failed read is looked at. -/
def scanRounds (fd : Stream) : Nat := fd.bytes.length + 2

/-- The position of the line and its length; a line that is not there is position 0 and
    leaves `msg_len` as it was. -/
def seekMsgDescriptor (junk : List Char) (msg_number : CStr) (d : Disk) :
    Option ((Int × Option CStr) × Disk) :=
  let (destination, d) := d.openFile
  let fd := destination.getD badDescriptor
  match findLine msg_number (scanRounds fd) fd junk with
  | none => none
  | some none => some ((0, none), d)
  | some (some r) =>
    let line_len : Int := r.line.length
    -- lseek(destination, 0, SEEK_CUR), narrowed to int; -1 on a descriptor that is not open
    let pos : Int :=
      match destination with
      | none => -1
      | some fd => toInt (fd.bytes.length - r.fd.bytes.length)
    some ((toInt (pos - line_len - 1), some (showInt line_len)), d)

def deleteDescriptor (junk : Junk) (msg_number : CStr) (d : Disk) : Option (Int × Disk) :=
  match seekMsgDescriptor junk.line msg_number d with
  | none => none
  | some ((ret, msg_len), d) =>
    let lim := atoi (msg_len.getD (cstr junk.msg_len 0))
    let (destination, d) := d.openFile
    if destination.isNone then some (-2, d)
    else
      -- lseek to a negative position fails and leaves the descriptor at 0
      let cfp := List.replicate lim.toNat BACKSPACE ++ ['\n']
      some (cfp.length, { d with bbfile := Lines.overwrite NUL d.bbfile ret.toNat cfp })

def replaceDescriptor (junk : Junk) (msg_number user message : CStr) (d : Disk) :
    Option (Int × Disk) :=
  match deleteDescriptor junk msg_number d with
  | none => none
  | some (del_ret, d) =>
    if del_ret < 0 then some (-2, d)
    else
      let (del_ret, d) := writeDescriptor msg_number user message d
      if del_ret < 0 then some (-2, d) else some (0, d)

/-- The message part of a line's tokens, put together again. -/
def joinMessage (tokens : List CStr) : CStr := ['/'].intercalate (tokens.drop 2)

/-- The text that `read_descriptor` puts together from the tokens of a line; a line of
    fewer than three tokens is only reported on the console. -/
def assembleLine (tokens : List CStr) : CStr :=
  if tokens.length > 3 then tokens.getD 1 [] ++ '/' :: joinMessage tokens
  else if tokens.length = 3 then tokens.getD 1 [] ++ '/' :: tokens.getD 2 []
  else []

/-- The return value, and `line_ret` where it is written. -/
def readDescriptor (junk : List Char) (msg_number : CStr) (d : Disk) :
    Option ((Int × Option CStr) × Disk) :=
  let (fd, d) := d.openFile
  match fd with
  | none => some ((-2, none), d)
  | some fd =>
    match findLine msg_number (scanRounds fd) fd junk with
    | none => none
    | some none => some ((-1, none), d)
    | some (some r) =>
      let message := assembleLine r.tokens
      some ((message.length, some message), d)

/-- The return value and the contents of `msg_user` and `msg_message` after the call. -/
def readTokenizedDescriptor (junk : List Char) (msg_number msg_user msg_message : CStr) (d : Disk) :
    Option ((Int × CStr × CStr) × Disk) :=
  let (fd, d) := d.openFile
  let fd := fd.getD badDescriptor
  match findLine msg_number (scanRounds fd) fd junk with
  | none => none
  | some none => some ((-1, msg_user, msg_message), d)
  | some (some r) =>
    let (msg_user, msg_message) :=
      if r.tokens.length > 3 then (r.tokens.getD 1 [], joinMessage r.tokens)
      else if r.tokens.length = 3 then (r.tokens.getD 1 [], r.tokens.getD 2 [])
      else (msg_user, msg_message)
    some ((msg_message.length + msg_user.length, msg_user, msg_message), d)

/-! The number generator. -/

/-- `num_gen`: the entries of `temp_list` below `count`. -/
structure NumGen where
  temp_list : List Int
  deriving DecidableEq, Repr

def NumGen.count (g : NumGen) : Nat := g.temp_list.length

/-- The scan for the largest number, from the largest so far. -/
def scanMax : Nat → Stream → List Char → Int → Option Int
  | 0, _, _, _ => none
  | f + 1, fd, line, max =>
    let (rc, line, fd) := readline line BBLINE_LEN fd
    if rc = recvNodata then some max
    else
      let r := bblineTokenize line (cstr line 0).length
      let n := atoi ((tokenStrings r).getD 0 [])
      scanMax f fd r.1 (if n > max then n else max)

/-- The loop over `temp_list` from index `j`: the number it ends with and `max_changed`.
    A match moves `j` back to 0, and the loop goes on at 1. -/
def rescan (temp_list : List Int) : Nat → Nat → Int → Bool → Int × Bool
  | 0, _, max, max_changed => (max, max_changed)
  | f + 1, j, max, max_changed =>
    if j < temp_list.length then
      if max = temp_list.getD j 0 then rescan temp_list f 1 (max + 1) true
      else if j = temp_list.length - 1 ∧ j ≠ 0 then (max, max_changed)
      else rescan temp_list f (j + 1) max max_changed
    else (max, max_changed)

/-- Rounds that are enough for `rescan`: a pass over the list for each match, and one
    more. -/
def rescanRounds (temp_list : List Int) : Nat := (temp_list.length + 1) * (temp_list.length + 1)

def generateNumber (junk : List Char) (g : NumGen) (d : Disk) : Option (Int × NumGen × Disk) :=
  let (fd, d) := d.openFile
  match fd with
  | none => some (-2, g, d)
  | some fd =>
    match scanMax (scanRounds fd) fd junk 0 with
    | none => none
    | some max =>
      let (max, max_changed) := rescan g.temp_list (rescanRounds g.temp_list) 0 max false
      let g := { g with temp_list := g.temp_list ++ [max] }
      some (if max_changed then max else max + 1, g, d)

/-- `release_number`: the first entry that holds the number becomes 0. -/
def releaseNumber (num : Int) (g : NumGen) : Int × NumGen :=
  if num ∈ g.temp_list then
    (0, { g with temp_list := g.temp_list.set (g.temp_list.idxOf num) 0 })
  else (-1, g)

theorem releaseNumber_count (num : Int) (g : NumGen) : (releaseNumber num g).2.count = g.count := by
  unfold releaseNumber
  split
  · exact List.length_set
  · rfl

end BulletinBoard
