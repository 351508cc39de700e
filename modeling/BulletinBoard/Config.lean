import BulletinBoard.Descriptor

/- bbserv_utils.cc: `fetch_cmndLine`, `fetch_config` and `force_fetch_config`, and what main in
   bbserv.cc gives the settings before them.

   1. `none` is undefined behaviour: a text that does not fit where `strcpy` or `snprintf` puts
      it, `atol` of a token that no line has set, `atoi` of the NULL that `strtok` returns
      where there is no port.
   2. The file is what a `readline` with room for 512 bytes makes of it. The tokens are
      offsets into the one buffer `command`, and `com_tok` keeps those of earlier lines behind those of
      a line with fewer tokens. The buffers are empty at first: an offset is only ever one of text
      that was read.
   3. The words of a PEERS line are read before the NULs of `strtok` are put among them: these
      come to stand within words that are done with.
   4. A memory cell of `new` that nothing was stored in yet is `none`. -/
namespace BulletinBoard

/-! The settings. -/

/-- An entry of `peer_info`: `ip` has room for 20 bytes. -/
structure PeerInfo where
  id : Int
  port : Int
  ip : CStr
  ip_fits : ip.length < 20
  deriving DecidableEq, Repr

/-- `server_config`, and `peer_info` beside it. -/
structure Sconf where
  T_MAX : Int
  T_MAX_IND : Int
  BP : Int
  BP_IND : Int
  SP : Int
  SP_IND : Int
  NO_OF_PEERS : Int
  PEER_COMMS_IND : Int
  CDETACH : Bool
  FDETACH : Bool
  DETACH : Bool
  DETACH_IND : Int
  DEBUG_DELAY : Bool
  DEBUG_DELAY_IND : Int
  BBFILE : CStr
  BBFILE_IND : Int
  CONF_FILE : CStr
  CONF_FILE_IND : Int
  peer_info : List (Option PeerInfo)
  deriving DecidableEq, Repr

/-- What main sets before `fetch_cmndLine`; `bbfile` is what the new buffer of BBFILE holds. -/
def startConf (bbfile : CStr) : Sconf where
  T_MAX := 20
  T_MAX_IND := 0
  BP := 9000
  BP_IND := 0
  SP := 10000
  SP_IND := 0
  NO_OF_PEERS := 0
  PEER_COMMS_IND := 0
  CDETACH := true
  FDETACH := true
  DETACH := true
  DETACH_IND := 0
  DEBUG_DELAY := false
  DEBUG_DELAY_IND := 0
  BBFILE := bbfile
  BBFILE_IND := 0
  CONF_FILE := "bbserv.conf".toList
  CONF_FILE_IND := 0
  peer_info := []

/-- What main resets on a SIGHUP before `force_fetch_config`. -/
def resetConf (bbfile : CStr) (s : Sconf) : Sconf :=
  { s with
    T_MAX := 20, BP := 9000, SP := 10000, BBFILE := bbfile, DETACH := true, DEBUG_DELAY := false,
    T_MAX_IND := 0, BP_IND := 0, SP_IND := 0, DETACH_IND := 0, DEBUG_DELAY_IND := 0, PEER_COMMS_IND := 0,
    BBFILE_IND := 0, CONF_FILE_IND := 0 }

/-! Peers. -/

/-- `strtok(s, ":")`: the token, and where the next call goes on. -/
def strtok (s : CStr) : Option (CStr × CStr) :=
  match s.dropWhile (· == ':') with
  | [] => none
  | t => some (t.takeWhile (· != ':'), (t.dropWhile (· != ':')).drop 1)

/-- What calls of `strtok` make of a text: the colon behind each token is a NUL. -/
def strtokMarks : Nat → CStr → List Char
  | 0, s => s
  | n + 1, s =>
    let t := s.dropWhile (· == ':')
    match t.dropWhile (· != ':') with
    | [] => s
    | _ :: r => s.takeWhile (· == ':') ++ t.takeWhile (· != ':') ++ NUL :: strtokMarks n r

/-- The entry that the loops make of a word with a colon: the first token and the second. -/
def peerEntry (id : Nat) (word : CStr) : Option PeerInfo :=
  match strtok word with
  | none => none
  | some (ip, rest) =>
    match strtok rest with
    | none => none
    | some (port, _) => if h : ip.length < 20 then some ⟨id, atoi port, ip, h⟩ else none

/-- The loop of `fetch_cmndLine`, which takes off the words that are no peers. -/
def cmndLinePeers : Nat → List CStr → Sconf → Option Sconf
  | _, [], s => some s
  | i, word :: argv, s =>
    if ':' ∈ word then
      match peerEntry i word with
      | none => none
      | some peer => cmndLinePeers (i + 1) argv { s with peer_info := s.peer_info.set i (some peer) }
    else cmndLinePeers (i + 1) argv { s with NO_OF_PEERS := s.NO_OF_PEERS - 1 }

/-- The loop of the two others, which counts the words that are. -/
def configPeers : Nat → List CStr → Sconf → Option Sconf
  | _, [], s => some s
  | i, word :: words, s =>
    if ':' ∈ word then
      match peerEntry i word with
      | none => none
      | some peer =>
        configPeers (i + 1) words
          { s with NO_OF_PEERS := s.NO_OF_PEERS + 1, peer_info := s.peer_info.set i (some peer) }
    else configPeers (i + 1) words s

/-! The command line. -/

/-- What `getopt` delivers, with its argument; `other` is whatever else it returns. -/
inductive Switch where
  | f
  | d
  | c (optarg : CStr)
  | b (optarg : CStr)
  | T (optarg : CStr)
  | p (optarg : CStr)
  | s (optarg : CStr)
  | other (copt : Int)
  deriving DecidableEq, Repr

def fetchSwitch (s : Sconf) : Switch → Option Sconf
  | .f => some { s with DETACH_IND := 1, CDETACH := false }
  | .d => some { s with DEBUG_DELAY_IND := 1, DEBUG_DELAY := true }
  | .c optarg => if optarg.length < 50 then some { s with CONF_FILE := optarg, CONF_FILE_IND := 1 } else none
  | .b optarg => if optarg.length < MAX_LEN then some { s with BBFILE := optarg, BBFILE_IND := 1 } else none
  | .T optarg => some { s with T_MAX_IND := 1, T_MAX := atoi optarg }
  | .p optarg => some { s with BP_IND := 1, BP := atoi optarg }
  | .s optarg => some { s with SP_IND := 1, SP := atoi optarg }
  | .other _ => some s

/-- What is done with the words behind the switches. -/
def fetchPeers (argv : List CStr) (s : Sconf) : Option Sconf :=
  if argv.length ≥ 1 then
    cmndLinePeers 0 argv
      { s with NO_OF_PEERS := argv.length, PEER_COMMS_IND := 1, peer_info := List.replicate argv.length none }
  else some { s with NO_OF_PEERS := argv.length }

def fetchCmndLine (switches : List Switch) (argv : List CStr) (s : Sconf) : Option Sconf :=
  (switches.foldlM fetchSwitch s).bind (fetchPeers argv)

/-! A line of the configuration file. -/

/-- The keys that the first token is compared with. -/
inductive Key where
  | THMAX
  | BBPORT
  | SYNCPORT
  | BBFILE
  | PEERS
  | DAEMON
  | DEBUG
  deriving DecidableEq, Repr

def Key.name : Key → CStr
  | .THMAX => "THMAX".toList
  | .BBPORT => "BBPORT".toList
  | .SYNCPORT => "SYNCPORT".toList
  | .BBFILE => "BBFILE".toList
  | .PEERS => "PEERS".toList
  | .DAEMON => "DAEMON".toList
  | .DEBUG => "DEBUG".toList

def keyOf (word : CStr) : Option Key :=
  [Key.THMAX, .BBPORT, .SYNCPORT, .BBFILE, .PEERS, .DAEMON, .DEBUG].find? fun k => k.name == word

@[simp] theorem keyOf_name (k : Key) : keyOf k.name = some k := by
  cases k <;> decide

/-- What a round of a loop reads: the tokens, and `atol(com_tok[1])`, which is undefined as long as no
    line had a second token. -/
structure Piece where
  words : List CStr
  value : Option Int
  deriving DecidableEq, Repr

def Piece.key (p : Piece) : Option Key := keyOf (p.words.headD [])

/-- The eight flags of a loop. -/
structure Inds where
  tmax_ind : Bool
  bp_ind : Bool
  sp_ind : Bool
  pc_ind : Bool
  detach_ind : Bool
  debug_ind : Bool
  bb_ind : Bool
  peers_ind : Bool
  deriving DecidableEq, Repr

def Inds.clear : Inds := ⟨false, false, false, false, false, false, false, false⟩

/-- The loop ends. -/
def Inds.all (ind : Inds) : Bool :=
  ind.tmax_ind && ind.bp_ind && ind.sp_ind && ind.pc_ind && ind.detach_ind && ind.debug_ind && ind.bb_ind &&
    ind.peers_ind

/-- What a round leaves, and whether `strtok` went over the words. -/
structure RoundEnd where
  ind : Inds
  conf : Sconf
  marked : Bool
  deriving DecidableEq, Repr

/-- The body of the loop of `fetch_config`. A key that asks for a positive number and finds none
    is equal to no other. -/
def fetchRound (p : Piece) (ind : Inds) (s : Sconf) : Option RoundEnd :=
  match p.key with
  | some .THMAX => p.value.map fun v =>
    if v > 0 then
      ⟨{ ind with tmax_ind := true }, if s.T_MAX_IND = 0 then { s with T_MAX := toInt v, T_MAX_IND := 2 } else s, false⟩
    else ⟨ind, s, false⟩
  | some .BBPORT => p.value.map fun v =>
    if v > 0 then
      ⟨{ ind with bp_ind := true }, if s.BP_IND = 0 then { s with BP := toInt v, BP_IND := 2 } else s, false⟩
    else ⟨ind, s, false⟩
  | some .SYNCPORT => p.value.map fun v =>
    if v > 0 then
      ⟨{ ind with sp_ind := true }, if s.SP_IND = 0 then { s with SP := toInt v, SP_IND := 2 } else s, false⟩
    else ⟨ind, s, false⟩
  | some .BBFILE =>
    if p.words.length > 1 then
      some ⟨{ ind with bb_ind := true },
        if s.BBFILE_IND = 0 then { s with BBFILE := p.words.getD 1 [], BBFILE_IND := 2 } else s, false⟩
    else some ⟨{ ind with bb_ind := true }, s, false⟩
  | some .PEERS =>
    if p.words.length > 1 then
      if s.PEER_COMMS_IND = 0 then
        (configPeers 0 (p.words.drop 1) { s with peer_info := List.replicate (p.words.length - 1) none }).map fun s =>
          ⟨{ ind with pc_ind := true }, { s with PEER_COMMS_IND := 2 }, true⟩
      else some ⟨{ ind with pc_ind := true }, s, false⟩
    else some ⟨{ ind with peers_ind := true }, s, false⟩
  | some .DAEMON =>
    if s.DETACH_IND = 0 then p.value.map fun v : Int =>
      ⟨{ ind with detach_ind := true }, { s with FDETACH := v != 0, DETACH_IND := 2 }, false⟩
    else some ⟨{ ind with detach_ind := true }, s, false⟩
  | some .DEBUG =>
    if s.DEBUG_DELAY_IND = 0 then p.value.map fun v : Int =>
      ⟨{ ind with debug_ind := true }, { s with DEBUG_DELAY := v != 0, DEBUG_DELAY_IND := 2 }, false⟩
    else some ⟨{ ind with debug_ind := true }, s, false⟩
  | none => some ⟨ind, s, false⟩

/-- The body of the loop of `force_fetch_config`, which sets none of the flags. -/
def forceRound (p : Piece) (ind : Inds) (s : Sconf) : Option RoundEnd :=
  match p.key with
  | some .THMAX => p.value.map fun v =>
    ⟨ind, if v > 0 then { s with T_MAX := toInt v, T_MAX_IND := 2 } else s, false⟩
  | some .BBPORT => p.value.map fun v =>
    ⟨ind, if v > 0 then { s with BP := toInt v, BP_IND := 2 } else s, false⟩
  | some .SYNCPORT => p.value.map fun v =>
    ⟨ind, if v > 0 then { s with SP := toInt v, SP_IND := 2 } else s, false⟩
  | some .BBFILE =>
    some ⟨ind, if p.words.length > 1 then { s with BBFILE := p.words.getD 1 [], BBFILE_IND := 2 } else s, false⟩
  | some .PEERS =>
    if p.words.length > 1 then
      (configPeers 0 (p.words.drop 1)
        { s with NO_OF_PEERS := 0, peer_info := List.replicate (p.words.length - 1) none }).map fun s =>
          ⟨ind, { s with PEER_COMMS_IND := 2 }, true⟩
    else some ⟨ind, s, false⟩
  | some .DAEMON => p.value.map fun v : Int => ⟨ind, { s with DETACH := v != 0, DETACH_IND := 2 }, false⟩
  | some .DEBUG => p.value.map fun v : Int => ⟨ind, { s with DEBUG_DELAY := v != 0, DEBUG_DELAY_IND := 2 }, false⟩
  | none => some ⟨ind, s, false⟩

/-! The loops. -/

/-- The buffers of a loop. -/
structure Tokens where
  command : List Char
  com_tok : List Nat
  num_tok : Nat
  deriving DecidableEq, Repr

def Tokens.piece (t : Tokens) : Piece where
  words := (t.com_tok.take t.num_tok).map (cstr t.command)
  value := t.com_tok[1]?.map fun i => strtol (cstr t.command i)

/-- The NULs of `strtok` in one word. -/
def markWord (command : List Char) (i : Nat) : List Char :=
  command.take i ++ strtokMarks 2 (cstr command i) ++ (command.drop i).dropWhile (· != NUL)

/-- The words with a colon are cut at it. -/
def Tokens.mark (t : Tokens) : Tokens :=
  { t with command := ((t.com_tok.take t.num_tok).drop 1).foldl markWord t.command }

/-- `readline` and `str_tokenize`; `none` where the loop ends for want of a line. -/
def Tokens.next (t : Tokens) (confd : Stream) : Option (Tokens × Stream) :=
  let (n, command, confd) := readline t.command 512 confd
  if n = recvNodata then none
  else if n < 0 then none
  else
    let (command, com_tok) := strTokenize command (cstr command 0).length
    some (⟨command, com_tok ++ t.com_tok.drop com_tok.length, com_tok.length⟩, confd)

/-- The loop with one of the two bodies; `none` also when the rounds run out. -/
def configLoop (body : Piece → Inds → Sconf → Option RoundEnd) : Nat → Stream → Tokens → Inds → Sconf → Option Sconf
  | 0, _, _, _, _ => none
  | f + 1, confd, t, ind, s =>
    if ind.all then some s
    else
      match t.next confd with
      | none => some s
      | some (t, confd) =>
        match body t.piece ind s with
        | none => none
        | some r => configLoop body f confd (if r.marked then t.mark else t) r.ind r.conf

/-- `open(server_config.CONF_FILE, O_RDONLY)` of a file with these bytes, or of none. -/
def openConf (file : Option (List Char)) : Stream := (file.map fun bytes => ⟨bytes, false⟩).getD badDescriptor

/-- Each round but the last reads a byte. -/
def configRounds (confd : Stream) : Nat := confd.bytes.length + 1

def fetchConfig (file : Option (List Char)) (s : Sconf) : Option Sconf :=
  configLoop fetchRound (configRounds (openConf file)) (openConf file) ⟨[], [], 0⟩ Inds.clear s

def forceFetchConfig (file : Option (List Char)) (s : Sconf) : Option Sconf :=
  configLoop forceRound (configRounds (openConf file)) (openConf file) ⟨[], [], 0⟩ Inds.clear s

end BulletinBoard
