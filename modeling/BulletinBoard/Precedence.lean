import BulletinBoard.Restart

/- The command line, the file and main's values, in that order. The loop of `fetch_config` takes the
   first piece that it accepts, and a piece is not a line: a line of more than 511 bytes comes in
   several, a key without a value takes what an earlier line left in the token buffer, and a number
   is stored as an `int`. -/
namespace BulletinBoard

/-! What the settings are to be. -/

def Switch.tArg : Switch → Option CStr
  | .T optarg => some optarg
  | _ => none

def Switch.pArg : Switch → Option CStr
  | .p optarg => some optarg
  | _ => none

def Switch.sArg : Switch → Option CStr
  | .s optarg => some optarg
  | _ => none

def Switch.bArg : Switch → Option CStr
  | .b optarg => some optarg
  | _ => none

/-- What a switch was last given with. -/
def lastArg (arg : Switch → Option CStr) (switches : List Switch) : Option CStr := switches.reverse.findSome? arg

/-- The lines of the file, of any length. -/
def confLines (file : Option (List Char)) : List CStr := (file.map fun bytes => bytes.splitOnP (· == '\n')).getD []

/-- A positive number behind the key. -/
def lineNumber (k : Key) (line : CStr) : Option Int :=
  match wordsOf (cstr line 0) with
  | word :: value :: _ => if word = k.name ∧ 0 < strtol value then some (strtol value) else none
  | _ => none

/-- A word behind BBFILE. -/
def lineBbfile (line : CStr) : Option CStr :=
  match wordsOf (cstr line 0) with
  | word :: value :: _ => if word = Key.BBFILE.name ∧ value ≠ [] then some value else none
  | _ => none

/-- A line that begins with '#', or has BBFILE or PEERS without a value. -/
def Quiet (line : CStr) : Prop :=
  line.head? = some '#' ∨ ∃ words, (∀ w ∈ words, w = []) ∧
    (wordsOf (cstr line 0) = Key.BBFILE.name :: words ∨ wordsOf (cstr line 0) = Key.PEERS.name :: words)

/-- The value of the switch, else of the first line that has one, else main's. -/
def wantedNumber (arg : Option CStr) (k : Key) (main : Int) (file : Option (List Char)) : Int :=
  match arg with
  | some optarg => strtol optarg
  | none => ((confLines file).findSome? (lineNumber k)).getD main

def wantedBbfile (arg : Option CStr) (main : CStr) (file : Option (List Char)) : CStr :=
  match arg with
  | some optarg => optarg
  | none => ((confLines file).findSome? lineBbfile).getD main

/-- `fetch_cmndLine`, and then `fetch_config`; `buffer` is what the new buffer of BBFILE holds. -/
def fetchAll (switches : List Switch) (argv : List CStr) (buffer : CStr) (file : Option (List Char)) : Option Sconf :=
  (fetchCmndLine switches argv (startConf buffer)).bind (fetchConfig file)

/-- The four settings are the same. -/
structure SameFour (s s' : Sconf) : Prop where
  tmax : s'.T_MAX = s.T_MAX
  bp : s'.BP = s.BP
  sp : s'.SP = s.SP
  bbfile : s'.BBFILE = s.BBFILE

/-- A line of the file, with what is before and behind it. -/
structure Standing (bytes before line behind : List Char) : Prop where
  split : bytes = before ++ line ++ behind
  starts : before = [] ∨ before.getLast? = some '\n'
  one : '\n' ∉ line
  ends : behind = [] ∨ behind.head? = some '\n'

/-- The settings come from the command line, from the file or from main, in that order, and no
    '#' line and no BBFILE or PEERS line without a value moves any of them. -/
structure Precedence (switches : List Switch) (argv : List CStr) (buffer : CStr) (file : Option (List Char)) : Prop where
  values : ∃ s, fetchAll switches argv buffer file = some s ∧
    s.T_MAX = wantedNumber (lastArg Switch.tArg switches) .THMAX 20 file ∧
    s.BP = wantedNumber (lastArg Switch.pArg switches) .BBPORT 9000 file ∧
    s.SP = wantedNumber (lastArg Switch.sArg switches) .SYNCPORT 10000 file ∧
    s.BBFILE = wantedBbfile (lastArg Switch.bArg switches) buffer file
  quiet : ∀ bytes before line behind, file = some bytes → Standing bytes before line behind → Quiet line →
    ∃ s s', fetchAll switches argv buffer (some before) = some s ∧
      fetchAll switches argv buffer (some (before ++ line)) = some s' ∧ SameFour s s'

/-! When they are. -/

/-- The first number that is accepted, as it is stored. -/
def pieceNumber (k : Key) (main : Int) (ps : List Piece) : Int := ((ps.findSome? (Piece.number k)).map toInt).getD main

/-- The first word for BBFILE that is read. -/
def pieceBbfile (main : CStr) (ps : List Piece) : CStr := ((upToStop Inds.clear ps).findSome? Piece.bbfile).getD main

/-- What the switches are given with has its place. -/
def Switch.Fits : Switch → Prop
  | .c optarg => optarg.length < 50
  | .b optarg => optarg.length < MAX_LEN
  | _ => True

/-- A number of the switch that an `int` holds, or, without the switch, a first piece with the value of
    the first line. -/
def NumberKept (arg : Option CStr) (k : Key) (main : Int) (file : Option (List Char)) : Prop :=
  match arg with
  | some optarg => -2 ^ 31 ≤ strtol optarg ∧ strtol optarg ≤ INT_MAX
  | none => pieceNumber k main (piecesOf file) = ((confLines file).findSome? (lineNumber k)).getD main

def BbfileKept (arg : Option CStr) (main : CStr) (file : Option (List Char)) : Prop :=
  arg = none → pieceBbfile main (piecesOf file) = ((confLines file).findSome? lineBbfile).getD main

/-- No piece of the line is the first with a new value for a setting without a switch. -/
structure Unmoved (switches : List Switch) (buffer : CStr) (ps ps' : List Piece) : Prop where
  tmax : lastArg Switch.tArg switches = none → pieceNumber .THMAX 20 ps' = pieceNumber .THMAX 20 ps
  bp : lastArg Switch.pArg switches = none → pieceNumber .BBPORT 9000 ps' = pieceNumber .BBPORT 9000 ps
  sp : lastArg Switch.sArg switches = none → pieceNumber .SYNCPORT 10000 ps' = pieceNumber .SYNCPORT 10000 ps
  bbfile : lastArg Switch.bArg switches = none → pieceBbfile buffer ps' = pieceBbfile buffer ps

/-- The pieces stand for the lines. -/
structure PiecesAsLines (switches : List Switch) (argv : List CStr) (buffer : CStr) (file : Option (List Char)) : Prop where
  switches_fit : ∀ w ∈ switches, w.Fits
  peers_fit : ∀ word ∈ argv, Storable word
  defined : FetchDefined (Switch.f ∉ switches) (Switch.d ∉ switches) (argv = []) (upToStop Inds.clear (piecesOf file))
  tmax : NumberKept (lastArg Switch.tArg switches) .THMAX 20 file
  bp : NumberKept (lastArg Switch.pArg switches) .BBPORT 9000 file
  sp : NumberKept (lastArg Switch.sArg switches) .SYNCPORT 10000 file
  bbfile : BbfileKept (lastArg Switch.bArg switches) buffer file
  quiet : ∀ bytes before line behind, file = some bytes → Standing bytes before line behind → Quiet line →
    Unmoved switches buffer (piecesOf (some before)) (piecesOf (some (before ++ line)))

/-! The command line. -/

section
variable {w : Switch} {switches : List Switch} {argv : List CStr} {s s' : Sconf} {buffer : CStr}

/-- What a switch does. -/
structure SwitchStep (w : Switch) (s s' : Sconf) : Prop where
  tmax : s'.T_MAX = (w.tArg.map atoi).getD s.T_MAX
  tmax_ind : s'.T_MAX_IND = (w.tArg.map fun _ => (1 : Int)).getD s.T_MAX_IND
  bp : s'.BP = (w.pArg.map atoi).getD s.BP
  bp_ind : s'.BP_IND = (w.pArg.map fun _ => (1 : Int)).getD s.BP_IND
  sp : s'.SP = (w.sArg.map atoi).getD s.SP
  sp_ind : s'.SP_IND = (w.sArg.map fun _ => (1 : Int)).getD s.SP_IND
  bbfile : s'.BBFILE = w.bArg.getD s.BBFILE
  bbfile_ind : s'.BBFILE_IND = (w.bArg.map fun _ => (1 : Int)).getD s.BBFILE_IND
  detach_ind : s'.DETACH_IND = (if w = .f then some 1 else none).getD s.DETACH_IND
  debug_ind : s'.DEBUG_DELAY_IND = (if w = .d then some 1 else none).getD s.DEBUG_DELAY_IND
  comms_ind : s'.PEER_COMMS_IND = s.PEER_COMMS_IND

theorem fetchSwitch_step (h : fetchSwitch s w = some s') : SwitchStep w s s' := by
  cases w with
  | c optarg =>
    rw [fetchSwitch, Option.ite_none_right_eq_some] at h
    obtain ⟨-, h⟩ := h
    obtain rfl := Option.some.inj h
    constructor <;> rfl
  | b optarg =>
    rw [fetchSwitch, Option.ite_none_right_eq_some] at h
    obtain ⟨-, h⟩ := h
    obtain rfl := Option.some.inj h
    constructor <;> rfl
  | _ =>
    obtain rfl := Option.some.inj h
    constructor <;> rfl

theorem fetchSwitch_isSome (s : Sconf) (w : Switch) : (fetchSwitch s w).isSome ↔ w.Fits := by
  cases w with
  | c optarg =>
    rw [fetchSwitch, Switch.Fits]
    split <;> simp_all
  | b optarg =>
    rw [fetchSwitch, Switch.Fits]
    split <;> simp_all
  | _ => exact ⟨fun _ => trivial, fun _ => rfl⟩

/-- What the command line leaves. -/
structure CmndValues (switches : List Switch) (argv : List CStr) (buffer : CStr) (s : Sconf) : Prop where
  tmax : s.T_MAX = ((lastArg Switch.tArg switches).map atoi).getD 20
  tmax_ind : s.T_MAX_IND = ((lastArg Switch.tArg switches).map fun _ => (1 : Int)).getD 0
  bp : s.BP = ((lastArg Switch.pArg switches).map atoi).getD 9000
  bp_ind : s.BP_IND = ((lastArg Switch.pArg switches).map fun _ => (1 : Int)).getD 0
  sp : s.SP = ((lastArg Switch.sArg switches).map atoi).getD 10000
  sp_ind : s.SP_IND = ((lastArg Switch.sArg switches).map fun _ => (1 : Int)).getD 0
  bbfile : s.BBFILE = (lastArg Switch.bArg switches).getD buffer
  bbfile_ind : s.BBFILE_IND = ((lastArg Switch.bArg switches).map fun _ => (1 : Int)).getD 0
  detach_ind : s.DETACH_IND = 0 ↔ Switch.f ∉ switches
  debug_ind : s.DEBUG_DELAY_IND = 0 ↔ Switch.d ∉ switches
  comms_ind : s.PEER_COMMS_IND = 0 ↔ argv = []

/-- A switch was not given. -/
theorem getD_switch {x : Switch} (switches : List Switch) :
    (switches.reverse.findSome? fun w => if w = x then some (1 : Int) else none).getD 0 = 0 ↔ x ∉ switches := by
  cases hf : switches.reverse.findSome? fun w => if w = x then some (1 : Int) else none with
  | none =>
    have hnone := List.findSome?_eq_none_iff.1 hf
    constructor
    · intro _ hx
      have h := hnone x (List.mem_reverse.2 hx)
      rw [if_pos rfl] at h
      cases h
    · intro _
      rfl
  | some a =>
    obtain ⟨w, hw, ha⟩ := List.exists_of_findSome?_eq_some hf
    rw [Option.ite_none_right_eq_some] at ha
    obtain ⟨rfl, ha⟩ := ha
    obtain rfl := Option.some.inj ha
    exact ⟨fun h => absurd h (by decide), fun h => absurd (List.mem_reverse.1 hw) h⟩

theorem lastArg_map {α : Type} (arg : Switch → Option CStr) (g : CStr → α) (switches : List Switch) :
    (switches.reverse.findSome? fun w => (arg w).map g) = (lastArg arg switches).map g :=
  List.map_findSome?.symm

theorem cmndValues (h : fetchCmndLine switches argv (startConf buffer) = some s) :
    CmndValues switches argv buffer s := by
  obtain ⟨s₁, hrun, hpeers⟩ := Option.bind_eq_some_iff.1 h
  obtain ⟨-, rfl⟩ := fetchPeers_eq_some.1 hpeers
  -- getopt's switches are taken one after another, and the last one with a value stands
  have hlast : ∀ {α : Type} (get : Sconf → α) (offer : Switch → Option α),
      (∀ {w s s'}, SwitchStep w s s' → get s' = (offer w).getD (get s)) →
        get s₁ = (switches.reverse.findSome? offer).getD (get (startConf buffer)) := by
    intro α get offer hstep
    have hl : Setting.Last fetchSwitch get offer := fun h => hstep (fetchSwitch_step h)
    exact hl.run hrun
  have hcomms := hlast Sconf.PEER_COMMS_IND (fun _ => none) fun h => h.comms_ind
  have hnone : (switches.reverse.findSome? fun _ => (none : Option Int)) = none := by simp
  rw [hnone] at hcomms
  have hsame : ∀ {α : Type} (get : Sconf → α),
      (∀ s n i t, get { s with NO_OF_PEERS := n, PEER_COMMS_IND := i, peer_info := t } = get s) →
        get (if argv = [] then { s₁ with NO_OF_PEERS := 0 }
          else { s₁ with NO_OF_PEERS := (colonCount argv : Nat), PEER_COMMS_IND := 1, peer_info := tableOf 0 argv }) =
          get s₁ := by
    intro α get hget
    split
    · exact hget s₁ _ _ _
    · exact hget s₁ _ _ _
  constructor
  · rw [hsame Sconf.T_MAX fun _ _ _ _ => rfl, hlast Sconf.T_MAX _ fun h => h.tmax, lastArg_map]
    rfl
  · rw [hsame Sconf.T_MAX_IND fun _ _ _ _ => rfl, hlast Sconf.T_MAX_IND _ fun h => h.tmax_ind, lastArg_map]
    rfl
  · rw [hsame Sconf.BP fun _ _ _ _ => rfl, hlast Sconf.BP _ fun h => h.bp, lastArg_map]
    rfl
  · rw [hsame Sconf.BP_IND fun _ _ _ _ => rfl, hlast Sconf.BP_IND _ fun h => h.bp_ind, lastArg_map]
    rfl
  · rw [hsame Sconf.SP fun _ _ _ _ => rfl, hlast Sconf.SP _ fun h => h.sp, lastArg_map]
    rfl
  · rw [hsame Sconf.SP_IND fun _ _ _ _ => rfl, hlast Sconf.SP_IND _ fun h => h.sp_ind, lastArg_map]
    rfl
  · rw [hsame Sconf.BBFILE fun _ _ _ _ => rfl, hlast Sconf.BBFILE _ fun h => h.bbfile]
    rfl
  · rw [hsame Sconf.BBFILE_IND fun _ _ _ _ => rfl, hlast Sconf.BBFILE_IND _ fun h => h.bbfile_ind, lastArg_map]
    rfl
  · rw [hsame Sconf.DETACH_IND fun _ _ _ _ => rfl, hlast Sconf.DETACH_IND _ fun h => h.detach_ind]
    exact getD_switch switches
  · rw [hsame Sconf.DEBUG_DELAY_IND fun _ _ _ _ => rfl, hlast Sconf.DEBUG_DELAY_IND _ fun h => h.debug_ind]
    exact getD_switch switches
  · split
    · next hnil => exact ⟨fun _ => hnil, fun _ => hcomms⟩
    · next hnil => exact ⟨fun h => absurd h (by decide : (1 : Int) ≠ 0), fun h => absurd h hnil⟩

theorem fetchCmndLine_isSome : (fetchCmndLine switches argv s).isSome ↔
    (∀ w ∈ switches, w.Fits) ∧ ∀ word ∈ argv, Storable word := by
  have hswitches := @Setting.isSome_foldlM _ _ fetchSwitch s switches _ fetchSwitch_isSome
  rw [← hswitches, fetchCmndLine]
  cases switches.foldlM fetchSwitch s with
  | none => simp
  | some s₁ =>
    have hpeers : (fetchPeers argv s₁).isSome ↔ ∀ word ∈ argv, Storable word := by
      rw [Option.isSome_iff_exists]
      exact ⟨fun ⟨_, h⟩ => (fetchPeers_eq_some.1 h).1, fun h => ⟨_, fetchPeers_eq_some.2 ⟨h, rfl⟩⟩⟩
    exact ⟨fun h => ⟨rfl, hpeers.1 h⟩, fun h => hpeers.2 h.2⟩

end

/-! The run. -/

section
variable {switches : List Switch} {argv : List CStr} {buffer : CStr} {file : Option (List Char)} {s s₀ : Sconf}

/-- A number after the run. -/
def ranNumber (arg : Option CStr) (k : Key) (main : Int) (ps : List Piece) : Int :=
  match arg with
  | some optarg => atoi optarg
  | none => pieceNumber k main ps

def ranBbfile (arg : Option CStr) (main : CStr) (ps : List Piece) : CStr := arg.getD (pieceBbfile main ps)

/-- The four settings after the run. -/
structure RanValues (switches : List Switch) (buffer : CStr) (ps : List Piece) (s : Sconf) : Prop where
  tmax : s.T_MAX = ranNumber (lastArg Switch.tArg switches) .THMAX 20 ps
  bp : s.BP = ranNumber (lastArg Switch.pArg switches) .BBPORT 9000 ps
  sp : s.SP = ranNumber (lastArg Switch.sArg switches) .SYNCPORT 10000 ps
  bbfile : s.BBFILE = ranBbfile (lastArg Switch.bArg switches) buffer ps

theorem ranNumber_of_first {get ind : Sconf → Int} {k : Key} {arg : Option CStr} {main : Int} {ps : List Piece}
    (hfirst : Setting.First fetchSetting get (ind · = 0) (ind · ≠ 0) fun p => (p.number k).map toInt)
    (hk : k = .THMAX ∨ k = .BBPORT ∨ k = .SYNCPORT) (hget : get s₀ = (arg.map atoi).getD main)
    (hind : ind s₀ = (arg.map fun _ => (1 : Int)).getD 0)
    (hrun : (upToStop Inds.clear ps).foldlM fetchSetting s₀ = some s) : get s = ranNumber arg k main ps := by
  cases arg with
  | some optarg =>
    have hset : ind s₀ ≠ 0 := by
      rw [hind]
      exact (by decide : (1 : Int) ≠ 0)
    exact (hfirst.run_set hrun hset).1.trans hget
  | none =>
    rw [hfirst.run hrun hind, findSome_mapped, number_upToStop _ hk, hget]
    rfl

theorem fetchAll_eq_some : fetchAll switches argv buffer file = some s ↔
    ∃ s₀, fetchCmndLine switches argv (startConf buffer) = some s₀ ∧
      (upToStop Inds.clear (piecesOf file)).foldlM fetchSetting s₀ = some s := by
  rw [fetchAll, Option.bind_eq_some_iff]
  simp only [fetchConfig_eq, runPieces_fetch]

theorem ranValues (h : fetchAll switches argv buffer file = some s) : RanValues switches buffer (piecesOf file) s := by
  obtain ⟨s₀, hcmnd, hrun⟩ := fetchAll_eq_some.1 h
  have hvalues := cmndValues hcmnd
  constructor
  · exact ranNumber_of_first first_tmax (Or.inl rfl) hvalues.tmax hvalues.tmax_ind hrun
  · exact ranNumber_of_first first_bp (Or.inr (Or.inl rfl)) hvalues.bp hvalues.bp_ind hrun
  · exact ranNumber_of_first first_sp (Or.inr (Or.inr rfl)) hvalues.sp hvalues.sp_ind hrun
  · have hbbfile := hvalues.bbfile
    have hind := hvalues.bbfile_ind
    cases harg : lastArg Switch.bArg switches with
    | some optarg =>
      rw [harg] at hbbfile hind
      have hset : s₀.BBFILE_IND ≠ 0 := by
        rw [hind]
        exact (by decide : (1 : Int) ≠ 0)
      exact (first_bbfile.run_set hrun hset).1.trans hbbfile
    | none =>
      rw [harg] at hbbfile hind
      rw [first_bbfile.run hrun hind, hbbfile]
      rfl

/-- It comes to an end. -/
theorem fetchAll_isSome : (fetchAll switches argv buffer file).isSome ↔ (∀ w ∈ switches, w.Fits) ∧
    (∀ word ∈ argv, Storable word) ∧
      FetchDefined (Switch.f ∉ switches) (Switch.d ∉ switches) (argv = []) (upToStop Inds.clear (piecesOf file)) := by
  have hcmnd := @fetchCmndLine_isSome switches argv (startConf buffer)
  rw [← and_assoc, ← hcmnd, fetchAll]
  cases hs₀ : fetchCmndLine switches argv (startConf buffer) with
  | none => simp
  | some s₀ =>
    have hvalues := cmndValues hs₀
    have hrun : (fetchConfig file s₀).isSome ↔
        FetchDefined (Switch.f ∉ switches) (Switch.d ∉ switches) (argv = []) (upToStop Inds.clear (piecesOf file)) := by
      rw [fetchConfig_eq, runPieces_fetch, foldlM_fetch_isSome, hvalues.detach_ind, hvalues.debug_ind, hvalues.comms_ind]
    exact ⟨fun h => ⟨rfl, hrun.1 h⟩, fun h => hrun.2 h.2⟩

theorem upToStop_initial {ps qs : List Piece} (h : ps <+: qs) (ind : Inds) : upToStop ind ps <+: upToStop ind qs := by
  induction ps generalizing qs ind with
  | nil => exact List.nil_prefix
  | cons p ps ih =>
    obtain ⟨more, rfl⟩ := h
    rw [List.cons_append, upToStop, upToStop]
    split
    · exact List.prefix_refl _
    · rw [List.prefix_cons_inj]
      exact ih (List.prefix_append ps more) _

/-- A file that is cut between two lines is read as well. -/
theorem fetchAll_cut {bytes more : List Char} (hcut : Boundary bytes more)
    (h : fetchAll switches argv buffer (some (bytes ++ more)) = some s) :
    ∃ t, fetchAll switches argv buffer (some bytes) = some t := by
  obtain ⟨s₀, hcmnd, hrun⟩ := fetchAll_eq_some.1 h
  obtain ⟨t, ht⟩ := Setting.foldlM_initial (upToStop_initial (piecesOf_initial hcut) Inds.clear) hrun
  exact ⟨t, fetchAll_eq_some.2 ⟨s₀, hcmnd, ht⟩⟩

end

/-! The settings as they are wanted. -/

theorem toInt_eq_iff {x : Int} : toInt x = x ↔ -2 ^ 31 ≤ x ∧ x ≤ INT_MAX := by
  have hlt := @Int.bmod_lt x (2 ^ 32) (by decide)
  have hle := @Int.le_bmod x (2 ^ 32) (by decide)
  unfold toInt INT_MAX
  constructor
  · intro h
    rw [h] at hlt hle
    omega
  · rintro ⟨h₀, h⟩
    rw [Int.bmod_eq_of_le] <;> omega

theorem wantedNumber_iff (arg : Option CStr) (k : Key) (main : Int) (file : Option (List Char)) :
    ranNumber arg k main (piecesOf file) = wantedNumber arg k main file ↔ NumberKept arg k main file := by
  cases arg with
  | some optarg => exact toInt_eq_iff
  | none => exact Iff.rfl

theorem wantedBbfile_iff (arg : Option CStr) (main : CStr) (file : Option (List Char)) :
    ranBbfile arg main (piecesOf file) = wantedBbfile arg main file ↔ BbfileKept arg main file := by
  cases arg with
  | some optarg =>
    constructor
    · intro _ h
      cases h
    · intro _
      rfl
  | none => exact ⟨fun h _ => h, fun h => h rfl⟩

theorem ranNumber_same_iff (arg : Option CStr) (k : Key) (main : Int) (ps ps' : List Piece) :
    ranNumber arg k main ps' = ranNumber arg k main ps ↔ (arg = none → pieceNumber k main ps' = pieceNumber k main ps) := by
  cases arg with
  | some optarg =>
    constructor
    · intro _ h
      cases h
    · intro _
      rfl
  | none => exact ⟨fun h _ => h, fun h => h rfl⟩

theorem ranBbfile_same_iff (arg : Option CStr) (main : CStr) (ps ps' : List Piece) :
    ranBbfile arg main ps' = ranBbfile arg main ps ↔ (arg = none → pieceBbfile main ps' = pieceBbfile main ps) := by
  cases arg with
  | some optarg =>
    constructor
    · intro _ h
      cases h
    · intro _
      rfl
  | none => exact ⟨fun h _ => h, fun h => h rfl⟩

section
variable {switches : List Switch} {buffer : CStr} {ps ps' : List Piece} {s s' : Sconf}

theorem sameFour_iff (h : RanValues switches buffer ps s) (h' : RanValues switches buffer ps' s') :
    SameFour s s' ↔ Unmoved switches buffer ps ps' := by
  constructor
  · intro hsame
    constructor
    · rw [← ranNumber_same_iff, ← h.tmax, ← h'.tmax]
      exact hsame.tmax
    · rw [← ranNumber_same_iff, ← h.bp, ← h'.bp]
      exact hsame.bp
    · rw [← ranNumber_same_iff, ← h.sp, ← h'.sp]
      exact hsame.sp
    · rw [← ranBbfile_same_iff, ← h.bbfile, ← h'.bbfile]
      exact hsame.bbfile
  · intro hmoved
    constructor
    · rw [h.tmax, h'.tmax, ranNumber_same_iff]
      exact hmoved.tmax
    · rw [h.bp, h'.bp, ranNumber_same_iff]
      exact hmoved.bp
    · rw [h.sp, h'.sp, ranNumber_same_iff]
      exact hmoved.sp
    · rw [h.bbfile, h'.bbfile, ranBbfile_same_iff]
      exact hmoved.bbfile

end

section
variable {switches : List Switch} {argv : List CStr} {buffer : CStr} {file : Option (List Char)}

theorem piecesAsLines_of_precedence (h : Precedence switches argv buffer file) :
    PiecesAsLines switches argv buffer file := by
  obtain ⟨s, hrun, htmax, hbp, hsp, hbbfile⟩ := h.values
  have hvalues := ranValues hrun
  -- that it comes to an end is itself a part of the condition
  have hsome : (fetchAll switches argv buffer file).isSome := by
    rw [hrun]
    rfl
  obtain ⟨hfit, hstore, hdefined⟩ := fetchAll_isSome.1 hsome
  refine ⟨hfit, hstore, hdefined, ?_, ?_, ?_, ?_, ?_⟩
  · rw [← wantedNumber_iff, ← hvalues.tmax]
    exact htmax
  · rw [← wantedNumber_iff, ← hvalues.bp]
    exact hbp
  · rw [← wantedNumber_iff, ← hvalues.sp]
    exact hsp
  · rw [← wantedBbfile_iff, ← hvalues.bbfile]
    exact hbbfile
  · intro bytes before line behind hfile hstanding hquiet
    obtain ⟨t, t', ht, ht', hsame⟩ := h.quiet bytes before line behind hfile hstanding hquiet
    exact (sameFour_iff (ranValues ht) (ranValues ht')).1 hsame

theorem precedence_of_piecesAsLines (h : PiecesAsLines switches argv buffer file) :
    Precedence switches argv buffer file := by
  have hsome : (fetchAll switches argv buffer file).isSome :=
    fetchAll_isSome.2 ⟨h.switches_fit, h.peers_fit, h.defined⟩
  obtain ⟨s, hrun⟩ := Option.isSome_iff_exists.1 hsome
  have hvalues := ranValues hrun
  refine ⟨⟨s, hrun, ?_, ?_, ?_, ?_⟩, ?_⟩
  · rw [hvalues.tmax, wantedNumber_iff]
    exact h.tmax
  · rw [hvalues.bp, wantedNumber_iff]
    exact h.bp
  · rw [hvalues.sp, wantedNumber_iff]
    exact h.sp
  · rw [hvalues.bbfile, wantedBbfile_iff]
    exact h.bbfile
  · intro bytes before line behind hfile hstanding hquiet
    have hmoved := h.quiet bytes before line behind hfile hstanding hquiet
    rw [hfile, hstanding.split] at hrun
    -- the file cut behind the line, and cut before it, is read as well
    have hends : Boundary (before ++ line) behind := Or.inr (Or.inr hstanding.ends)
    obtain ⟨t', ht'⟩ := fetchAll_cut hends hrun
    have hstarts : Boundary before line := hstanding.starts.imp_right Or.inl
    obtain ⟨t, ht⟩ := fetchAll_cut hstarts ht'
    exact ⟨t, t', ht, ht', (sameFour_iff (ranValues ht) (ranValues ht')).2 hmoved⟩

end

/-- **Precedence**: it holds exactly when what is read is there, what is given fits, and the pieces stand for
    the lines. -/
theorem precedence_iff (switches : List Switch) (argv : List CStr) (buffer : CStr) (file : Option (List Char)) :
    Precedence switches argv buffer file ↔ PiecesAsLines switches argv buffer file :=
  ⟨piecesAsLines_of_precedence, precedence_of_piecesAsLines⟩

end BulletinBoard
