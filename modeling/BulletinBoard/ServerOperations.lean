import BulletinBoard.Descriptor

/- server_operations.cc: what a client session makes of a USER, WRITE, REPLACE or READ line, the
   requests that the sender jobs build for the peers, and the synchronisation of a server
   without peers. A buffer that the source appends to before anything was put there is
   taken to hold the empty string, and `sprintf` with its destination as its own
   argument to append. -/
namespace BulletinBoard

/-- `" w"` for each word: the loops of `sprintf(dest,"%s %s",dest,w)`. -/
def joinWords (words : List CStr) : CStr := words.flatMap fun w => ' ' :: w

/-- `"w "` for each word: the loops of `strcat`. -/
def trailWords (words : List CStr) : CStr := words.flatMap fun w => w ++ [' ']

/-- The tokens of a request line: its last character is cut off first. -/
def commandOf (line : CStr) : List CStr :=
  let request := line.dropLast
  tokenStrings (strTokenize request request.length)

/-- The text of the words from `from` on: a single word stands for itself. -/
def textFrom (i : Nat) (command : List CStr) : CStr :=
  if command.length > i + 1 then joinWords (command.drop i) else command.getD i []

/-- The tokens of `number/message`, put together from the words and cut up to `n`; what the
    buffer holds after the text is `junk`. -/
def replTokens (words : List CStr) (n : Nat) (junk : List Char) : List CStr :=
  tokenStrings (bblineTokenize (trailWords words ++ NUL :: junk) n)

/-- The message part, `none` when there is none. -/
def replMessage (repl_tokens : List CStr) : Option CStr :=
  if repl_tokens.length > 2 then some (['/'].intercalate (repl_tokens.drop 1))
  else if repl_tokens.length = 2 then some (repl_tokens.getD 1 [])
  else none

/-! Requests to the peers. -/

def precommitRequest (poster : CStr) : CStr := "precommit ".toList ++ poster ++ [' ']

def commitWriteRequest (msg_nmbr message : CStr) : CStr :=
  "commit write ".toList ++ msg_nmbr ++ ' ' :: message ++ [' ']

def commitReplaceRequest (msg_nmbr message : CStr) : CStr :=
  "commit replace ".toList ++ msg_nmbr ++ '/' :: message ++ [' ']

/-! The client's requests. -/

structure Client where
  user : CStr
  uname_avl : Bool
  deriving DecidableEq, Repr

/-- A session before its first USER. -/
def Client.start : Client := ⟨"nobody".toList, false⟩

def helloResponse (user : CStr) : CStr :=
  "1.0 HELLO ".toList ++ user ++ " welcome to the Bullettin Board.\n\n".toList

def slashResponse : CStr :=
  "ERR : The name parameter of USER should not contain the character / in it.\nEx  : USER Michael\n\n".toList

def noNameResponse : CStr :=
  "ERR : The USER command must accompany a name with it.\nEx  : USER Michael\n\n".toList

/-- USER: the name is set first, and a slash is looked for in the first one only. -/
def userCommand (command : List CStr) (client : Client) : Client × CStr :=
  if command.length > 1 then
    let user := joinWords (command.drop 1)
    if client.uname_avl = false then
      (⟨user, true⟩, if '/' ∈ user then slashResponse else helloResponse user)
    else (⟨user, true⟩, helloResponse user)
  else (client, noNameResponse)

def wroteResponse (msg_nmbr : CStr) : CStr := "3.0 WROTE ".toList ++ msg_nmbr ++ "\n\n".toList

def unknownResponse (msg_nmbr : CStr) : CStr := "3.1 UNKNOWN ".toList ++ msg_nmbr ++ "\n\n".toList

def syncErrorResponse : CStr := "3.2 ERROR WRITE : Synchronization error.\n\n".toList

def noBbfileResponse : CStr := "3.2 ERROR WRITE : bbfile not found.\n\n".toList

def writeFormatResponse : CStr :=
  "3.2 ERROR WRITE : Improper WRITE format.\nFORMAT -> WRITE message\nEx  : WRITE jack and jill went up the hill.\n\n".toList

def replaceFormatResponse : CStr :=
  "3.2 ERROR WRITE : Improper REPLACE format.\nFORMAT -> REPLACE message-number/message\nEx  : REPLACE 6/jack and jill went up the hill.\n\n".toList

def messageResponse (nmbr temp_line : CStr) : CStr :=
  "2.0 MESSAGE ".toList ++ nmbr ++ ' ' :: temp_line ++ "\n\n".toList

def unavailableResponse : CStr := "2.2 ERROR READ : Bullettin Board Unavailable\n\n".toList

def notFoundResponse (nmbr : CStr) : CStr :=
  "2.1 UNKNOWN ".toList ++ nmbr ++ " message not found.\n\n".toList

def readFormatResponse : CStr :=
  "2.2 ERROR READ : Improper READ format.\nFORMAT -> READ message-number\nEx  : READ 6\n\n".toList

def byeResponse : CStr := "4.0 BYE . Hope to see you later.\n\n".toList

def invalidResponse (request : CStr) : CStr := "ERR : Invalid Command ".toList ++ request ++ ". \n\n".toList

/-- READ. -/
def readCommand (junk : List Char) (command : List CStr) (d : Disk) : Option (CStr × Disk) :=
  if command.length = 2 then
    let nmbr := command.getD 1 []
    match readDescriptor junk nmbr d with
    | none => none
    | some ((read_return, temp_line), d) =>
      some (if read_return ≥ 0 then messageResponse nmbr (temp_line.getD [])
        else if read_return = -2 then unavailableResponse
        else notFoundResponse nmbr, d)
  else some (readFormatResponse, d)

/-- A 3.2 ERROR answer. -/
def IsError (response : CStr) : Prop := "3.2 ERROR".toList <+: response

instance (response : CStr) : Decidable (IsError response) := inferInstanceAs (Decidable (_ <+: _))

/-- `sync_write` with no peers: the write and the read-back. -/
def syncWriteAlone (junk : Junk) (msg_nmbr poster message : CStr) (d : Disk) : Option (Int × Disk) :=
  let (write_return, d) := writeDescriptor msg_nmbr poster message d
  if write_return < 0 then some (-1, d)
  else
    match readDescriptor junk.line msg_nmbr d with
    | none => none
    | some ((read_return, _), d) => some (if read_return < 0 then -1 else 0, d)

/-- `sync_replace` with no peers: the replace and the read-back, which fails on -1 only. -/
def syncReplaceAlone (junk : Junk) (msg_nmbr poster message : CStr) (d : Disk) : Option (Int × Disk) :=
  match replaceDescriptor junk msg_nmbr poster message d with
  | none => none
  | some (replace_return, d) =>
    if replace_return < 0 then some (-1, d)
    else
      match readDescriptor junk.line msg_nmbr d with
      | none => none
      | some ((read_return, _), d) => some (if read_return = -1 then -1 else 0, d)

/-- WRITE on a server without peers. -/
def writeCommand (junk : Junk) (command : List CStr) (client : Client) (g : NumGen) (d : Disk) :
    Option (CStr × NumGen × Disk) :=
  if command.length ≥ 2 then
    let message := textFrom 1 command
    match generateNumber junk.line g d with
    | none => none
    | some (gen_num, g, d) =>
      let msg_nbr := showInt gen_num
      match syncWriteAlone junk msg_nbr client.user message d with
      | none => none
      | some (sync_ret, d) =>
        if sync_ret = 0 ∧ gen_num ≥ 0 then some (wroteResponse msg_nbr, g, d)
        else
          let (_, g) := releaseNumber gen_num g
          some (if gen_num ≥ 0 then syncErrorResponse else noBbfileResponse, g, d)
  else some (writeFormatResponse, g, d)

/-- REPLACE on a server without peers. -/
def replaceCommand (junk : Junk) (command : List CStr) (client : Client) (d : Disk) :
    Option (CStr × Disk) :=
  if command.length > 1 then
    let repl_tokens := replTokens (command.drop 1) (command.getD 1 []).length junk.line
    match replMessage repl_tokens with
    | none => some (replaceFormatResponse, d)
    | some message =>
      let nmbr := repl_tokens.getD 0 []
      match readDescriptor junk.line nmbr d with
      | none => none
      | some ((read_return, _), d) =>
        if read_return = -1 then some (unknownResponse nmbr, d)
        else
          match syncReplaceAlone junk nmbr client.user message d with
          | none => none
          | some (sync_ret, d) =>
            some (if sync_ret = 0 then wroteResponse nmbr else syncErrorResponse, d)
  else some (replaceFormatResponse, d)

/-- One request line of a session on a server without peers, with the answer to it. -/
def serverOperations (junk : Junk) (line : CStr) (client : Client) (g : NumGen) (d : Disk) :
    Option (CStr × Client × NumGen × Disk) :=
  let command := commandOf line
  let client_command := tolwr (command.getD 0 [])
  if client_command = "quit".toList then some (byeResponse, client, g, d)
  else if tolwr client_command = "user".toList then
    let (client, response) := userCommand command client
    some (response, client, g, d)
  else if tolwr client_command = "read".toList then
    (readCommand junk.line command d).map fun (response, d) => (response, client, g, d)
  else if tolwr client_command = "write".toList then
    (writeCommand junk command client g d).map fun (response, g, d) => (response, client, g, d)
  else if tolwr client_command = "replace".toList then
    (replaceCommand junk command client d).map fun (response, d) => (response, client, g, d)
  else some (invalidResponse (command.getD 0 []), client, g, d)

end BulletinBoard
