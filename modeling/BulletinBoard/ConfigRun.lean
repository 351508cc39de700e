import BulletinBoard.ConfigPieces
import BulletinBoard.PeerTable

/- What the two loops make of the pieces: `fetch_config` takes the first value that is offered for a
   setting and stops when its flags are complete, `force_fetch_config` takes the last. What a run
   needs to be defined, and the peer table that it leaves, stand at the end. -/
namespace BulletinBoard

/-! What a piece offers. -/

/-- A positive number behind the key. -/
def Piece.number (k : Key) (p : Piece) : Option Int :=
  if p.key = some k then p.value.filter fun v => decide (0 < v) else none

def Piece.debug (p : Piece) : Option Bool := if p.key = some .DEBUG then p.value.map (· != 0) else none

/-- The word behind BBFILE. -/
def Piece.bbfile (p : Piece) : Option CStr :=
  if p.key = some .BBFILE ∧ 1 < p.words.length then some (p.words.getD 1 []) else none

/-- The words behind PEERS. -/
def Piece.peers (p : Piece) : Option (List CStr) :=
  if p.key = some .PEERS ∧ 1 < p.words.length then some (p.words.drop 1) else none

/-! The two bodies. -/

/-- The settings after a round of `fetch_config`. -/
def fetchSetting (s : Sconf) (p : Piece) : Option Sconf := (fetchRound p Inds.clear s).map RoundEnd.conf

/-- The flags after it. -/
def Inds.after (ind : Inds) (p : Piece) : Inds :=
  match p.key with
  | some .THMAX => if p.number .THMAX = none then ind else { ind with tmax_ind := true }
  | some .BBPORT => if p.number .BBPORT = none then ind else { ind with bp_ind := true }
  | some .SYNCPORT => if p.number .SYNCPORT = none then ind else { ind with sp_ind := true }
  | some .BBFILE => { ind with bb_ind := true }
  | some .PEERS => if p.peers = none then { ind with peers_ind := true } else { ind with pc_ind := true }
  | some .DAEMON => { ind with detach_ind := true }
  | some .DEBUG => { ind with debug_ind := true }
  | none => ind

/-- The pieces that are read before the flags are complete. -/
def upToStop : Inds → List Piece → List Piece
  | _, [] => []
  | ind, p :: ps => if ind.all then [] else p :: upToStop (ind.after p) ps

section
variable {p : Piece} {s s' : Sconf}

theorem number_eq {k : Key} (h : p.key = some k) {v : Int} (hv : p.value = some v) :
    p.number k = if 0 < v then some v else none := by
  rw [Piece.number, if_pos h, hv, Option.filter_some]
  simp only [decide_eq_true_eq]

/-- What a round can do to the settings. -/
inductive FetchStep (p : Piece) (s : Sconf) : Sconf → Prop where
  | tmax (v : Int) (h : p.key = some .THMAX) (hv : p.value = some v) :
      FetchStep p s (if 0 < v ∧ s.T_MAX_IND = 0 then { s with T_MAX := toInt v, T_MAX_IND := 2 } else s)
  | bp (v : Int) (h : p.key = some .BBPORT) (hv : p.value = some v) :
      FetchStep p s (if 0 < v ∧ s.BP_IND = 0 then { s with BP := toInt v, BP_IND := 2 } else s)
  | sp (v : Int) (h : p.key = some .SYNCPORT) (hv : p.value = some v) :
      FetchStep p s (if 0 < v ∧ s.SP_IND = 0 then { s with SP := toInt v, SP_IND := 2 } else s)
  | bbfile (h : p.key = some .BBFILE) :
      FetchStep p s (if 1 < p.words.length ∧ s.BBFILE_IND = 0 then
        { s with BBFILE := p.words.getD 1 [], BBFILE_IND := 2 } else s)
  | peers (h : p.key = some .PEERS) (hlen : 1 < p.words.length) (hind : s.PEER_COMMS_IND = 0)
      (hwords : ∀ word ∈ p.words.drop 1, Storable word) :
      FetchStep p s { s with NO_OF_PEERS := s.NO_OF_PEERS + colonCount (p.words.drop 1),
                             peer_info := tableOf 0 (p.words.drop 1), PEER_COMMS_IND := 2 }
  | peersKept (h : p.key = some .PEERS) (hkeep : 1 < p.words.length → s.PEER_COMMS_IND ≠ 0) : FetchStep p s s
  | daemon (v : Int) (h : p.key = some .DAEMON) (hind : s.DETACH_IND = 0) (hv : p.value = some v) :
      FetchStep p s { s with FDETACH := v != 0, DETACH_IND := 2 }
  | daemonKept (h : p.key = some .DAEMON) (hind : s.DETACH_IND ≠ 0) : FetchStep p s s
  | debug (v : Int) (h : p.key = some .DEBUG) (hind : s.DEBUG_DELAY_IND = 0) (hv : p.value = some v) :
      FetchStep p s { s with DEBUG_DELAY := v != 0, DEBUG_DELAY_IND := 2 }
  | debugKept (h : p.key = some .DEBUG) (hind : s.DEBUG_DELAY_IND ≠ 0) : FetchStep p s s
  | other (h : p.key = none) : FetchStep p s s

/-- The table that a PEERS line leaves. -/
theorem configPeers_drop {words : List CStr} {s' : Sconf} : configPeers 0 (words.drop 1)
      { s with peer_info := List.replicate (words.length - 1) none } = some s' ↔
    (∀ word ∈ words.drop 1, Storable word) ∧
      s' = { s with NO_OF_PEERS := s.NO_OF_PEERS + colonCount (words.drop 1), peer_info := tableOf 0 (words.drop 1) } := by
  have hlen : words.length - 1 = (words.drop 1).length := by rw [List.length_drop]
  rw [hlen]
  exact configPeers_new rfl

theorem conf_ite {P Q : Prop} [Decidable P] [Decidable Q] (i j : Inds) (x s : Sconf) :
    (if P then (⟨i, if Q then x else s, false⟩ : RoundEnd) else ⟨j, s, false⟩).conf = if P ∧ Q then x else s := by
  by_cases hP : P
  · rw [if_pos hP]
    by_cases hQ : Q
    · rw [if_pos hQ, if_pos ⟨hP, hQ⟩]
    · rw [if_neg hQ, if_neg fun h => hQ h.2]
  · rw [if_neg hP, if_neg fun h => hP h.1]

theorem fetchSetting_step (h : fetchSetting s p = some s') : FetchStep p s s' := by
  obtain ⟨r, hround, rfl⟩ := Option.map_eq_some_iff.1 h
  unfold fetchRound at hround
  split at hround
  · next hk =>
    obtain ⟨v, hv, rfl⟩ := Option.map_eq_some_iff.1 hround
    rw [conf_ite]
    exact .tmax v hk hv
  · next hk =>
    obtain ⟨v, hv, rfl⟩ := Option.map_eq_some_iff.1 hround
    rw [conf_ite]
    exact .bp v hk hv
  · next hk =>
    obtain ⟨v, hv, rfl⟩ := Option.map_eq_some_iff.1 hround
    rw [conf_ite]
    exact .sp v hk hv
  · next hk =>
    have hconf : r.conf = if 1 < p.words.length ∧ s.BBFILE_IND = 0 then
        { s with BBFILE := p.words.getD 1 [], BBFILE_IND := 2 } else s := by
      rw [← conf_ite { Inds.clear with bb_ind := true } { Inds.clear with bb_ind := true }]
      split at hround
      · next hlen => rw [if_pos hlen, ← Option.some.inj hround]
      · next hlen => rw [if_neg hlen, ← Option.some.inj hround]
    rw [hconf]
    exact .bbfile hk
  · next hk =>
    split at hround
    · next hlen =>
      split at hround
      · next hind =>
        obtain ⟨s₁, hpeers, rfl⟩ := Option.map_eq_some_iff.1 hround
        obtain ⟨hwords, rfl⟩ := configPeers_drop.1 hpeers
        exact .peers hk hlen hind hwords
      · next hind =>
        rw [← Option.some.inj hround]
        exact .peersKept hk fun _ => hind
    · next hlen =>
      rw [← Option.some.inj hround]
      exact .peersKept hk fun h => absurd h hlen
  · next hk =>
    split at hround
    · next hind =>
      obtain ⟨v, hv, rfl⟩ := Option.map_eq_some_iff.1 hround
      exact .daemon v hk hind hv
    · next hind =>
      rw [← Option.some.inj hround]
      exact .daemonKept hk hind
  · next hk =>
    split at hround
    · next hind =>
      obtain ⟨v, hv, rfl⟩ := Option.map_eq_some_iff.1 hround
      exact .debug v hk hind hv
    · next hind =>
      rw [← Option.some.inj hround]
      exact .debugKept hk hind
  · next hk =>
    rw [← Option.some.inj hround]
    exact .other hk

/-- Each setting is changed by its own key only. -/
structure FetchFrame (p : Piece) (s s' : Sconf) : Prop where
  tmax : p.key ≠ some .THMAX → s'.T_MAX = s.T_MAX ∧ s'.T_MAX_IND = s.T_MAX_IND
  bp : p.key ≠ some .BBPORT → s'.BP = s.BP ∧ s'.BP_IND = s.BP_IND
  sp : p.key ≠ some .SYNCPORT → s'.SP = s.SP ∧ s'.SP_IND = s.SP_IND
  bbfile : p.key ≠ some .BBFILE → s'.BBFILE = s.BBFILE ∧ s'.BBFILE_IND = s.BBFILE_IND
  peers : p.key ≠ some .PEERS →
    s'.NO_OF_PEERS = s.NO_OF_PEERS ∧ s'.peer_info = s.peer_info ∧ s'.PEER_COMMS_IND = s.PEER_COMMS_IND
  debug : p.key ≠ some .DEBUG → s'.DEBUG_DELAY = s.DEBUG_DELAY ∧ s'.DEBUG_DELAY_IND = s.DEBUG_DELAY_IND
  daemon : p.key ≠ some .DAEMON → s'.DETACH_IND = s.DETACH_IND

theorem FetchFrame.refl (p : Piece) (s : Sconf) : FetchFrame p s s :=
  ⟨fun _ => ⟨rfl, rfl⟩, fun _ => ⟨rfl, rfl⟩, fun _ => ⟨rfl, rfl⟩, fun _ => ⟨rfl, rfl⟩, fun _ => ⟨rfl, rfl, rfl⟩,
    fun _ => ⟨rfl, rfl⟩, fun _ => rfl⟩

theorem FetchStep.frame (h : FetchStep p s s') : FetchFrame p s s' := by
  cases h with
  | tmax v hk hv =>
    split
    · constructor <;> simp [hk]
    · exact .refl p s
  | bp v hk hv =>
    split
    · constructor <;> simp [hk]
    · exact .refl p s
  | sp v hk hv =>
    split
    · constructor <;> simp [hk]
    · exact .refl p s
  | bbfile hk =>
    split
    · constructor <;> simp [hk]
    · exact .refl p s
  | peers hk hlen hind hwords => constructor <;> simp [hk]
  | daemon v hk hind hv => constructor <;> simp [hk]
  | debug v hk hind hv => constructor <;> simp [hk]
  | peersKept hk hkeep => exact .refl p s
  | daemonKept hk hind => exact .refl p s
  | debugKept hk hind => exact .refl p s
  | other hk => exact .refl p s

/-! What is taken first. -/

theorem key_of_number {k : Key} {v : Int} (h : p.number k = some v) : p.key = some k ∧ p.value = some v ∧ 0 < v := by
  rw [Piece.number] at h
  split at h
  · next hk =>
    obtain ⟨hv, hpos⟩ := Option.filter_eq_some_iff.1 h
    exact ⟨hk, hv, by simpa using hpos⟩
  · cases h

/-- A setting that a key with a positive number behind it sets once. -/
theorem first_number {k : Key} {get ind : Sconf → Int} (put : Sconf → Int → Sconf)
    (hown : ∀ {s s' : Sconf} {p : Piece}, fetchSetting s p = some s' → p.key = some k →
      ∃ v, p.value = some v ∧ s' = if 0 < v ∧ ind s = 0 then put s v else s)
    (hput : ∀ s v, get (put s v) = toInt v ∧ ind (put s v) = 2)
    (hframe : ∀ {s s' : Sconf} {p : Piece}, FetchFrame p s s' → p.key ≠ some k → get s' = get s ∧ ind s' = ind s) :
    Setting.First fetchSetting get (ind · = 0) (ind · ≠ 0) fun p => (p.number k).map toInt := by
  apply Setting.First.of_own fun p : Piece => p.key = some k
  · intro s s' p hstep hk
    obtain ⟨hget, hind⟩ := hframe (fetchSetting_step hstep).frame hk
    rw [hind]
    exact ⟨hget, id, id⟩
  · intro s s' p a hstep hunset hoffer
    obtain ⟨v, hv, rfl⟩ := Option.map_eq_some_iff.1 hoffer
    obtain ⟨hk, hvalue, hpos⟩ := key_of_number hv
    obtain ⟨v', hv', rfl⟩ := hown hstep hk
    obtain rfl := Option.some.inj (hvalue.symm.trans hv')
    obtain ⟨hget, hind⟩ := hput s v
    rw [if_pos ⟨hpos, hunset⟩, hind]
    exact ⟨hget, by decide⟩
  · intro s s' p hstep hk hcase
    -- of its own rounds only one with a positive number on an open setting changes it
    obtain ⟨v, hv, rfl⟩ := hown hstep hk
    apply if_neg
    rintro ⟨hpos, hind⟩
    rcases hcase with ⟨-, hnone⟩ | hset
    · rw [number_eq hk hv, if_pos hpos] at hnone
      cases hnone
    · exact hset hind

theorem first_tmax : Setting.First fetchSetting Sconf.T_MAX (·.T_MAX_IND = 0) (·.T_MAX_IND ≠ 0)
    fun p => (p.number .THMAX).map toInt := by
  apply first_number fun s v => { s with T_MAX := toInt v, T_MAX_IND := 2 }
  · intro s s' p h hk
    cases fetchSetting_step h with
    | tmax v hk' hv => exact ⟨v, hv, rfl⟩
    | _ => simp_all
  · intro s v
    exact ⟨rfl, rfl⟩
  · intro s s' p h
    exact h.tmax

theorem first_bp : Setting.First fetchSetting Sconf.BP (·.BP_IND = 0) (·.BP_IND ≠ 0)
    fun p => (p.number .BBPORT).map toInt := by
  apply first_number fun s v => { s with BP := toInt v, BP_IND := 2 }
  · intro s s' p h hk
    cases fetchSetting_step h with
    | bp v hk' hv => exact ⟨v, hv, rfl⟩
    | _ => simp_all
  · intro s v
    exact ⟨rfl, rfl⟩
  · intro s s' p h
    exact h.bp

theorem first_sp : Setting.First fetchSetting Sconf.SP (·.SP_IND = 0) (·.SP_IND ≠ 0)
    fun p => (p.number .SYNCPORT).map toInt := by
  apply first_number fun s v => { s with SP := toInt v, SP_IND := 2 }
  · intro s s' p h hk
    cases fetchSetting_step h with
    | sp v hk' hv => exact ⟨v, hv, rfl⟩
    | _ => simp_all
  · intro s v
    exact ⟨rfl, rfl⟩
  · intro s s' p h
    exact h.sp

theorem first_bbfile : Setting.First fetchSetting Sconf.BBFILE (·.BBFILE_IND = 0) (·.BBFILE_IND ≠ 0) Piece.bbfile := by
  have hown : ∀ {s s' : Sconf} {p : Piece}, fetchSetting s p = some s' → p.key = some .BBFILE →
      s' = if 1 < p.words.length ∧ s.BBFILE_IND = 0 then { s with BBFILE := p.words.getD 1 [], BBFILE_IND := 2 } else s := by
    intro s s' p h hk
    cases fetchSetting_step h with
    | bbfile => rfl
    | _ => simp_all
  apply Setting.First.of_own fun p : Piece => p.key = some .BBFILE
  · intro s s' p hstep hk
    obtain ⟨hget, hind⟩ := (fetchSetting_step hstep).frame.bbfile hk
    rw [hind]
    exact ⟨hget, id, id⟩
  · intro s s' p w hstep hunset hoffer
    rw [Piece.bbfile, Option.ite_none_right_eq_some] at hoffer
    obtain ⟨⟨hk, hlen⟩, hw⟩ := hoffer
    obtain rfl := Option.some.inj hw
    rw [hown hstep hk, if_pos ⟨hlen, hunset⟩]
    exact ⟨rfl, (by decide : (2 : Int) ≠ 0)⟩
  · intro s s' p hstep hk hcase
    rw [hown hstep hk]
    apply if_neg
    rintro ⟨hlen, hind⟩
    rcases hcase with ⟨-, hnone⟩ | hset
    · rw [Piece.bbfile, if_pos ⟨hk, hlen⟩] at hnone
      cases hnone
    · exact hset hind

theorem first_debug : Setting.First fetchSetting Sconf.DEBUG_DELAY (·.DEBUG_DELAY_IND = 0) (·.DEBUG_DELAY_IND ≠ 0)
    Piece.debug := by
  have hown : ∀ {s s' : Sconf} {p : Piece}, fetchSetting s p = some s' → p.key = some .DEBUG →
      s.DEBUG_DELAY_IND = 0 ∧ (∃ v, p.value = some v ∧ s' = { s with DEBUG_DELAY := v != 0, DEBUG_DELAY_IND := 2 }) ∨
        s.DEBUG_DELAY_IND ≠ 0 ∧ s' = s := by
    intro s s' p h hk
    cases fetchSetting_step h with
    | debug v hk' hind hv => exact Or.inl ⟨hind, v, hv, rfl⟩
    | debugKept hk' hind => exact Or.inr ⟨hind, rfl⟩
    | _ => simp_all
  apply Setting.First.of_own fun p : Piece => p.key = some .DEBUG
  · intro s s' p hstep hk
    obtain ⟨hget, hind⟩ := (fetchSetting_step hstep).frame.debug hk
    rw [hind]
    exact ⟨hget, id, id⟩
  · intro s s' p a hstep hunset hoffer
    rw [Piece.debug, Option.ite_none_right_eq_some] at hoffer
    obtain ⟨hk, hvalue⟩ := hoffer
    rcases hown hstep hk with ⟨-, v, hv, rfl⟩ | ⟨hset, -⟩
    · rw [hv] at hvalue
      exact ⟨Option.some.inj hvalue, (by decide : (2 : Int) ≠ 0)⟩
    · exact absurd hunset hset
  · intro s s' p hstep hk hcase
    rcases hown hstep hk with ⟨hunset, v, hv, rfl⟩ | ⟨-, hsame⟩
    · rcases hcase with ⟨-, hnone⟩ | hset
      · rw [Piece.debug, if_pos hk, hv] at hnone
        cases hnone
      · exact absurd hunset hset
    · exact hsame

/-- The peers, from none. -/
theorem first_peers : Setting.First fetchSetting (fun s => (s.NO_OF_PEERS, s.peer_info))
    (fun s => s.PEER_COMMS_IND = 0 ∧ s.NO_OF_PEERS = 0) (·.PEER_COMMS_IND ≠ 0)
    fun p => p.peers.map fun words => ((colonCount words : Nat), tableOf 0 words) := by
  have hown : ∀ {s s' : Sconf} {p : Piece}, fetchSetting s p = some s' → p.key = some .PEERS →
      (1 < p.words.length ∧ s.PEER_COMMS_IND = 0 ∧
        s' = { s with NO_OF_PEERS := s.NO_OF_PEERS + colonCount (p.words.drop 1),
                      peer_info := tableOf 0 (p.words.drop 1), PEER_COMMS_IND := 2 }) ∨
        (1 < p.words.length → s.PEER_COMMS_IND ≠ 0) ∧ s' = s := by
    intro s s' p h hk
    cases fetchSetting_step h with
    | peers hk' hlen hind hwords => exact Or.inl ⟨hlen, hind, rfl⟩
    | peersKept hk' hkeep => exact Or.inr ⟨hkeep, rfl⟩
    | _ => simp_all
  apply Setting.First.of_own fun p : Piece => p.key = some .PEERS
  · intro s s' p hstep hk
    obtain ⟨hcount, hinfo, hind⟩ := (fetchSetting_step hstep).frame.peers hk
    rw [hcount, hinfo, hind]
    exact ⟨rfl, id, id⟩
  · intro s s' p a hstep hunset hoffer
    obtain ⟨words, hwords, rfl⟩ := Option.map_eq_some_iff.1 hoffer
    rw [Piece.peers, Option.ite_none_right_eq_some] at hwords
    obtain ⟨⟨hk, hlen⟩, hwords⟩ := hwords
    obtain rfl := Option.some.inj hwords
    rcases hown hstep hk with ⟨-, -, rfl⟩ | ⟨hkeep, -⟩
    · refine ⟨?_, (by decide : (2 : Int) ≠ 0)⟩
      dsimp only
      rw [hunset.2, Int.zero_add]
    · exact absurd hunset.1 (hkeep hlen)
  · intro s s' p hstep hk hcase
    rcases hown hstep hk with ⟨hlen, hind, -⟩ | ⟨-, hsame⟩
    · rcases hcase with ⟨-, hnone⟩ | hset
      · rw [Piece.peers, if_pos ⟨hk, hlen⟩] at hnone
        cases hnone
      · exact absurd hind hset
    · exact hsame

/-! What is taken last. -/

/-- The settings after a round of `force_fetch_config`. -/
def forceSetting (s : Sconf) (p : Piece) : Option Sconf := (forceRound p Inds.clear s).map RoundEnd.conf

/-- What a round of `force_fetch_config` does to the settings. -/
structure ForceStep (p : Piece) (s s' : Sconf) : Prop where
  tmax : s'.T_MAX = ((p.number .THMAX).map toInt).getD s.T_MAX
  bp : s'.BP = ((p.number .BBPORT).map toInt).getD s.BP
  sp : s'.SP = ((p.number .SYNCPORT).map toInt).getD s.SP
  bbfile : s'.BBFILE = p.bbfile.getD s.BBFILE
  debug : s'.DEBUG_DELAY = p.debug.getD s.DEBUG_DELAY
  peers : (s'.NO_OF_PEERS, s'.peer_info) =
    (p.peers.map fun words => (((colonCount words : Nat) : Int), tableOf 0 words)).getD (s.NO_OF_PEERS, s.peer_info)

/-- A round that is defined. -/
def Piece.Sound (p : Piece) : Prop :=
  match p.key with
  | some .BBFILE => True
  | some .PEERS => ∀ word ∈ p.words.drop 1, Storable word
  | some _ => p.value.isSome
  | none => True

theorem forceSetting_step (h : forceSetting s p = some s') : ForceStep p s s' := by
  obtain ⟨r, hround, rfl⟩ := Option.map_eq_some_iff.1 h
  unfold forceRound at hround
  split at hround
  · next hk =>
    obtain ⟨v, hv, rfl⟩ := Option.map_eq_some_iff.1 hround
    by_cases hpos : 0 < v
    · constructor <;> simp [Piece.number, Option.filter_some, Piece.bbfile, Piece.debug, Piece.peers, hk, hv, hpos]
    · constructor <;> simp [Piece.number, Option.filter_some, Piece.bbfile, Piece.debug, Piece.peers, hk, hv, hpos]
  · next hk =>
    obtain ⟨v, hv, rfl⟩ := Option.map_eq_some_iff.1 hround
    by_cases hpos : 0 < v
    · constructor <;> simp [Piece.number, Option.filter_some, Piece.bbfile, Piece.debug, Piece.peers, hk, hv, hpos]
    · constructor <;> simp [Piece.number, Option.filter_some, Piece.bbfile, Piece.debug, Piece.peers, hk, hv, hpos]
  · next hk =>
    obtain ⟨v, hv, rfl⟩ := Option.map_eq_some_iff.1 hround
    by_cases hpos : 0 < v
    · constructor <;> simp [Piece.number, Option.filter_some, Piece.bbfile, Piece.debug, Piece.peers, hk, hv, hpos]
    · constructor <;> simp [Piece.number, Option.filter_some, Piece.bbfile, Piece.debug, Piece.peers, hk, hv, hpos]
  · next hk =>
    obtain rfl := Option.some.inj hround
    by_cases hlen : 1 < p.words.length
    · constructor <;> simp [Piece.number, Piece.bbfile, Piece.debug, Piece.peers, hk, hlen]
    · constructor <;> simp [Piece.number, Piece.bbfile, Piece.debug, Piece.peers, hk, hlen]
  · next hk =>
    split at hround
    · next hlen =>
      obtain ⟨s₁, hpeers, rfl⟩ := Option.map_eq_some_iff.1 hround
      obtain ⟨-, rfl⟩ := (@configPeers_drop { s with NO_OF_PEERS := 0 } p.words s₁).1 hpeers
      constructor <;> simp [Piece.number, Piece.bbfile, Piece.debug, Piece.peers, hk, hlen]
    · next hlen =>
      obtain rfl := Option.some.inj hround
      constructor <;> simp [Piece.number, Piece.bbfile, Piece.debug, Piece.peers, hk, hlen]
  · next hk =>
    obtain ⟨v, hv, rfl⟩ := Option.map_eq_some_iff.1 hround
    constructor <;> simp [Piece.number, Piece.bbfile, Piece.debug, Piece.peers, hk]
  · next hk =>
    obtain ⟨v, hv, rfl⟩ := Option.map_eq_some_iff.1 hround
    constructor <;> simp [Piece.number, Piece.bbfile, Piece.debug, Piece.peers, hk, hv]
  · next hk =>
    obtain rfl := Option.some.inj hround
    constructor <;> simp [Piece.number, Piece.bbfile, Piece.debug, Piece.peers, hk]

theorem configPeers_isSome {words : List CStr} {s : Sconf} : (configPeers 0 (words.drop 1)
      { s with peer_info := List.replicate (words.length - 1) none }).isSome ↔ ∀ word ∈ words.drop 1, Storable word := by
  rw [Option.isSome_iff_exists]
  constructor
  · rintro ⟨s', h⟩
    exact (configPeers_drop.1 h).1
  · intro h
    exact ⟨_, configPeers_drop.2 ⟨h, rfl⟩⟩

theorem forceSetting_isSome (s : Sconf) (p : Piece) : (forceSetting s p).isSome ↔ p.Sound := by
  rw [forceSetting, Option.isSome_map, forceRound, Piece.Sound]
  cases hk : p.key with
  | none => exact ⟨fun _ => trivial, fun _ => rfl⟩
  | some k =>
    cases k with
    | THMAX => exact iff_of_eq (congrArg (· = true) Option.isSome_map)
    | BBPORT => exact iff_of_eq (congrArg (· = true) Option.isSome_map)
    | SYNCPORT => exact iff_of_eq (congrArg (· = true) Option.isSome_map)
    | BBFILE => exact ⟨fun _ => trivial, fun _ => rfl⟩
    | PEERS =>
      dsimp only
      split
      · rw [Option.isSome_map]
        exact configPeers_isSome (s := { s with NO_OF_PEERS := 0 })
      · next hlen =>
        have hnil : p.words.drop 1 = [] := List.drop_eq_nil_of_le (by omega)
        rw [hnil]
        exact ⟨fun _ w hw => (List.not_mem_nil hw).elim, fun _ => rfl⟩
    | DAEMON => exact iff_of_eq (congrArg (· = true) Option.isSome_map)
    | DEBUG => exact iff_of_eq (congrArg (· = true) Option.isSome_map)

end

/-! The runs. -/

theorem forceRound_eq (p : Piece) (ind : Inds) (s : Sconf) :
    (forceRound p ind s).map (fun r => (r.ind, r.conf)) = (forceSetting s p).map fun s => (ind, s) := by
  rw [forceSetting, Option.map_map, forceRound, forceRound]
  cases p.key with
  | none => rfl
  | some k =>
    cases k with
    | BBFILE => rfl
    | PEERS =>
      dsimp only
      split
      · rw [Option.map_map, Option.map_map]
        rfl
      · rfl
    | _ =>
      dsimp only
      rw [Option.map_map, Option.map_map]
      rfl

theorem fetchRound_eq (p : Piece) (ind : Inds) (s : Sconf) :
    (fetchRound p ind s).map (fun r => (r.ind, r.conf)) = (fetchSetting s p).map fun s => (ind.after p, s) := by
  rw [fetchSetting, Option.map_map, fetchRound, fetchRound, Inds.after]
  cases hk : p.key with
  | none => rfl
  | some k =>
    cases k with
    | BBFILE =>
      dsimp only
      split
      · rfl
      · rfl
    | PEERS =>
      dsimp only
      split
      · next hlen =>
        have hpeers : p.peers ≠ none := by simp [Piece.peers, hk, hlen]
        rw [if_neg hpeers]
        split
        · rw [Option.map_map, Option.map_map]
          rfl
        · rfl
      · next hlen =>
        have hpeers : p.peers = none := by simp [Piece.peers, hk, hlen]
        rw [if_pos hpeers]
        rfl
    | DAEMON =>
      dsimp only
      split
      · rw [Option.map_map, Option.map_map]
        rfl
      · rfl
    | DEBUG =>
      dsimp only
      split
      · rw [Option.map_map, Option.map_map]
        rfl
      · rfl
    | _ =>
      dsimp only
      cases hv : p.value with
      | none => rfl
      | some v =>
        rw [number_eq hk hv]
        by_cases hpos : 0 < v
        · simp [hpos]
        · simp [hpos]

/-- A run of `fetch_config` over the pieces that are read. -/
theorem runPieces_fetch : ∀ (ps : List Piece) (ind : Inds) (s : Sconf),
    runPieces fetchRound ps ind s = (upToStop ind ps).foldlM fetchSetting s
  | [], _, _ => rfl
  | p :: ps, ind, s => by
    rw [runPieces, upToStop]
    split
    · rfl
    · have hround := fetchRound_eq p ind s
      rw [List.foldlM_cons]
      cases hr : fetchRound p ind s with
      | none =>
        rw [hr] at hround
        rw [Option.map_eq_none_iff.1 hround.symm]
        rfl
      | some r =>
        rw [hr] at hround
        obtain ⟨s₁, hs₁, hpair⟩ := Option.map_eq_some_iff.1 hround.symm
        obtain ⟨hind, hconf⟩ := Prod.mk.inj hpair
        dsimp only
        rw [hs₁, runPieces_fetch ps, ← hind, ← hconf]
        rfl

/-- A run of `force_fetch_config`, which never stops. -/
theorem runPieces_force : ∀ (ps : List Piece) (s : Sconf),
    runPieces forceRound ps Inds.clear s = ps.foldlM forceSetting s
  | [], _ => rfl
  | p :: ps, s => by
    -- the flags are never set, so that every round finds them clear
    have hround := forceRound_eq p Inds.clear s
    have hgo : Inds.clear.all = false := rfl
    rw [runPieces, hgo, List.foldlM_cons]
    cases hr : forceRound p Inds.clear s with
    | none =>
      rw [hr] at hround
      rw [Option.map_eq_none_iff.1 hround.symm]
      rfl
    | some r =>
      rw [hr] at hround
      obtain ⟨s₁, hs₁, hpair⟩ := Option.map_eq_some_iff.1 hround.symm
      obtain ⟨hind, hconf⟩ := Prod.mk.inj hpair
      have hrest := runPieces_force ps r.conf
      rw [hs₁, hconf]
      rw [hind] at hrest
      exact hrest

/-- What is offered behind the stop was offered before it, where a flag stands for it. -/
theorem findSome_upToStop {α : Type} {offer : Piece → Option α} (flag : Inds → Bool)
    (hall : ∀ ind, ind.all = true → flag ind = true) : ∀ (ps : List Piece) (ind : Inds),
    (∀ p ∈ ps, ∀ ind, offer p = none → flag (ind.after p) = flag ind) → flag ind = false →
      (upToStop ind ps).findSome? offer = ps.findSome? offer
  | [], _, _, _ => rfl
  | p :: ps, ind, hafter, hflag => by
    have hgo : ¬ ind.all = true := by
      intro h
      rw [hall ind h] at hflag
      cases hflag
    rw [upToStop, if_neg hgo, List.findSome?_cons, List.findSome?_cons]
    cases hoffer : offer p with
    | some a => rfl
    | none =>
      dsimp only
      apply findSome_upToStop flag hall
      · exact fun q hq => hafter q (List.mem_cons_of_mem p hq)
      · rw [hafter p List.mem_cons_self ind hoffer, hflag]

theorem Inds.all_eq_true {ind : Inds} (h : ind.all = true) : ind.tmax_ind = true ∧ ind.bp_ind = true ∧
    ind.sp_ind = true ∧ ind.pc_ind = true ∧ ind.debug_ind = true ∧ ind.detach_ind = true ∧ ind.bb_ind = true ∧
      ind.peers_ind = true := by
  simp only [Inds.all, Bool.and_eq_true] at h
  obtain ⟨⟨⟨⟨⟨⟨⟨htmax, hbp⟩, hsp⟩, hpc⟩, hdetach⟩, hdebug⟩, hbb⟩, hpeers⟩ := h
  exact ⟨htmax, hbp, hsp, hpc, hdebug, hdetach, hbb, hpeers⟩

section
variable (ind : Inds) (p : Piece)

/-- The flags that stand for what was taken. -/
theorem after_flags : (p.number .THMAX = none → (ind.after p).tmax_ind = ind.tmax_ind) ∧
    (p.number .BBPORT = none → (ind.after p).bp_ind = ind.bp_ind) ∧
    (p.number .SYNCPORT = none → (ind.after p).sp_ind = ind.sp_ind) ∧
    (p.peers = none → (ind.after p).pc_ind = ind.pc_ind) ∧
    (p.key ≠ some .DEBUG → (ind.after p).debug_ind = ind.debug_ind) ∧
    (p.key ≠ some .DAEMON → (ind.after p).detach_ind = ind.detach_ind) ∧
    (p.key ≠ some .BBFILE → (ind.after p).bb_ind = ind.bb_ind) ∧
    (¬ (p.key = some .PEERS ∧ p.peers = none) → (ind.after p).peers_ind = ind.peers_ind) := by
  rw [Inds.after]
  cases hk : p.key with
  | none => simp
  | some k =>
    cases k with
    | THMAX => by_cases h : p.number .THMAX = none <;> simp [h]
    | BBPORT => by_cases h : p.number .BBPORT = none <;> simp [h]
    | SYNCPORT => by_cases h : p.number .SYNCPORT = none <;> simp [h]
    | PEERS => by_cases h : p.peers = none <;> simp [h]
    | _ => simp

end

/-- A round clears no flag. -/
theorem all_after {ind : Inds} (h : ind.all = true) (p : Piece) : (ind.after p).all = true := by
  obtain ⟨tmax, bp, sp, pc, detach, debug, bb, peers⟩ := ind
  obtain ⟨rfl, rfl, rfl, rfl, rfl, rfl, rfl, rfl⟩ := Inds.all_eq_true h
  rw [Inds.after]
  split
  · split <;> rfl
  · split <;> rfl
  · split <;> rfl
  · rfl
  · split <;> rfl
  · rfl
  · rfl
  · rfl

theorem all_foldl {ind : Inds} (h : ind.all = true) (ps : List Piece) : (ps.foldl Inds.after ind).all = true := by
  induction ps generalizing ind with
  | nil => exact h
  | cons p ps ih => exact ih (all_after h p)

/-- The stop takes nothing away that comes before the flags are complete. -/
theorem findSome_before {α : Type} {offer : Piece → Option α} : ∀ (ps : List Piece) (ind : Inds),
    ¬ ((ps.takeWhile fun p => (offer p).isNone).foldl Inds.after ind).all = true →
      (upToStop ind ps).findSome? offer = ps.findSome? offer
  | [], _, _ => rfl
  | p :: ps, ind, h => by
    have hgo : ¬ ind.all = true := fun hall => h (all_foldl hall _)
    rw [upToStop, if_neg hgo, List.findSome?_cons, List.findSome?_cons]
    cases hoffer : offer p with
    | some a => rfl
    | none =>
      apply findSome_before
      rwa [List.takeWhile_cons, hoffer] at h

/-- A flag that is set at the end was set by a piece. -/
theorem flag_of_foldl {flag : Inds → Bool} {sets : Piece → Prop}
    (hafter : ∀ (ind : Inds) (p : Piece), ¬ sets p → flag (ind.after p) = flag ind) {ps : List Piece} {ind : Inds}
    (hclear : flag ind = false) (h : flag (ps.foldl Inds.after ind) = true) : ∃ p ∈ ps, sets p := by
  induction ps generalizing ind with
  | nil => exact absurd (hclear.symm.trans h) Bool.false_ne_true
  | cons p ps ih =>
    by_cases hp : sets p
    · exact ⟨p, List.mem_cons_self, hp⟩
    · obtain ⟨q, hq, hsets⟩ := ih ((hafter ind p hp).trans hclear) h
      exact ⟨q, List.mem_cons_of_mem p hq, hsets⟩

section
variable (ps : List Piece)

/-- For the numbers and the peers the stop makes no difference. -/
theorem number_upToStop {k : Key} (hk : k = .THMAX ∨ k = .BBPORT ∨ k = .SYNCPORT) :
    (upToStop Inds.clear ps).findSome? (Piece.number k) = ps.findSome? (Piece.number k) := by
  rcases hk with rfl | rfl | rfl
  · exact findSome_upToStop Inds.tmax_ind (fun _ h => (Inds.all_eq_true h).1) ps _
      (fun p _ ind => (after_flags ind p).1) rfl
  · exact findSome_upToStop Inds.bp_ind (fun _ h => (Inds.all_eq_true h).2.1) ps _
      (fun p _ ind => (after_flags ind p).2.1) rfl
  · exact findSome_upToStop Inds.sp_ind (fun _ h => (Inds.all_eq_true h).2.2.1) ps _
      (fun p _ ind => (after_flags ind p).2.2.1) rfl

theorem peers_upToStop : (upToStop Inds.clear ps).findSome? Piece.peers = ps.findSome? Piece.peers :=
  findSome_upToStop Inds.pc_ind (fun _ h => (Inds.all_eq_true h).2.2.2.1) ps _
    (fun p _ ind => (after_flags ind p).2.2.2.1) rfl

/-- Nor for DEBUG, where its value is defined. -/
theorem debug_upToStop (h : ∀ p ∈ ps, p.Sound) :
    (upToStop Inds.clear ps).findSome? Piece.debug = ps.findSome? Piece.debug := by
  refine findSome_upToStop Inds.debug_ind (fun _ h => (Inds.all_eq_true h).2.2.2.2.1) ps _ (fun p hp ind hnone => ?_) rfl
  apply (after_flags ind p).2.2.2.2.1
  intro hk
  have hsound := h p hp
  rw [Piece.Sound, hk] at hsound
  rw [Piece.debug, if_pos hk, Option.map_eq_none_iff] at hnone
  rw [hnone] at hsound
  cases hsound

end

/-! What is read. -/

/-- What is read is there to be read. -/
structure FetchDefined (detach debug peers : Prop) (ps : List Piece) : Prop where
  numbers : ∀ p ∈ ps, p.key = some .THMAX ∨ p.key = some .BBPORT ∨ p.key = some .SYNCPORT → p.value.isSome
  daemon : detach → ∀ p, ps.find? (fun p => p.key == some .DAEMON) = some p → p.value.isSome
  debug : debug → ∀ p, ps.find? (fun p => p.key == some .DEBUG) = some p → p.value.isSome
  peers : peers → ∀ words, ps.findSome? Piece.peers = some words → ∀ word ∈ words, Storable word

section
variable {p : Piece} {ps : List Piece} {s s' : Sconf} {detach debug peers : Prop}

/-- The first piece, and the others. -/
theorem fetchDefined_cons : FetchDefined detach debug peers (p :: ps) ↔
    ((p.key = some .THMAX ∨ p.key = some .BBPORT ∨ p.key = some .SYNCPORT → p.value.isSome) ∧
      (detach → p.key = some .DAEMON → p.value.isSome) ∧ (debug → p.key = some .DEBUG → p.value.isSome) ∧
      (peers → ∀ words, p.peers = some words → ∀ word ∈ words, Storable word)) ∧
    FetchDefined (detach ∧ p.key ≠ some .DAEMON) (debug ∧ p.key ≠ some .DEBUG) (peers ∧ p.peers = none) ps := by
  have hfind : ∀ k : Key, p.key = some k → (p :: ps).find? (fun q => q.key == some k) = some p := by
    intro k hk
    exact List.find?_cons_of_pos (by simp [hk])
  have hskip : ∀ k : Key, p.key ≠ some k →
      (p :: ps).find? (fun q => q.key == some k) = ps.find? (fun q => q.key == some k) := by
    intro k hk
    exact List.find?_cons_of_neg (by simp [hk])
  have hfirst : ∀ k : Key, ((∀ q, (p :: ps).find? (fun q => q.key == some k) = some q → q.value.isSome) ↔
      (p.key = some k → p.value.isSome) ∧
        (p.key ≠ some k → ∀ q, ps.find? (fun q => q.key == some k) = some q → q.value.isSome)) := by
    intro k
    by_cases hk : p.key = some k
    · rw [hfind k hk]
      constructor
      · intro h
        exact ⟨fun _ => h p rfl, fun hne => absurd hk hne⟩
      · rintro ⟨h, -⟩ q hq
        obtain rfl := Option.some.inj hq
        exact h hk
    · rw [hskip k hk]
      exact ⟨fun h => ⟨fun hk' => absurd hk' hk, fun _ => h⟩, fun h => h.2 hk⟩
  have hwords : (∀ words, (p :: ps).findSome? Piece.peers = some words → ∀ word ∈ words, Storable word) ↔
      (∀ words, p.peers = some words → ∀ word ∈ words, Storable word) ∧
        (p.peers = none → ∀ words, ps.findSome? Piece.peers = some words → ∀ word ∈ words, Storable word) := by
    rw [List.findSome?_cons]
    cases p.peers with
    | none => simp
    | some words => simp
  constructor
  · intro h
    refine ⟨⟨h.numbers p List.mem_cons_self, fun hd => ((hfirst .DAEMON).1 (h.daemon hd)).1,
      fun hd => ((hfirst .DEBUG).1 (h.debug hd)).1, fun hp => (hwords.1 (h.peers hp)).1⟩, ?_, ?_, ?_, ?_⟩
    · exact fun q hq => h.numbers q (List.mem_cons_of_mem p hq)
    · exact fun hd => ((hfirst .DAEMON).1 (h.daemon hd.1)).2 hd.2
    · exact fun hd => ((hfirst .DEBUG).1 (h.debug hd.1)).2 hd.2
    · exact fun hp => (hwords.1 (h.peers hp.1)).2 hp.2
  · rintro ⟨⟨hnumber, hdaemon, hdebug, hpeers⟩, h⟩
    refine ⟨?_, ?_, ?_, ?_⟩
    · rw [List.forall_mem_cons]
      exact ⟨hnumber, h.numbers⟩
    · exact fun hd => (hfirst .DAEMON).2 ⟨hdaemon hd, fun hk => h.daemon ⟨hd, hk⟩⟩
    · exact fun hd => (hfirst .DEBUG).2 ⟨hdebug hd, fun hk => h.debug ⟨hd, hk⟩⟩
    · exact fun hp => hwords.2 ⟨hpeers hp, fun hk => h.peers ⟨hp, hk⟩⟩

/-- When a round is defined. -/
theorem fetchSetting_isSome : (fetchSetting s p).isSome ↔
    (p.key = some .THMAX ∨ p.key = some .BBPORT ∨ p.key = some .SYNCPORT → p.value.isSome) ∧
      (s.DETACH_IND = 0 → p.key = some .DAEMON → p.value.isSome) ∧
      (s.DEBUG_DELAY_IND = 0 → p.key = some .DEBUG → p.value.isSome) ∧
      (s.PEER_COMMS_IND = 0 → ∀ words, p.peers = some words → ∀ word ∈ words, Storable word) := by
  rw [fetchSetting, Option.isSome_map, fetchRound, Piece.peers]
  cases hk : p.key with
  | none => simp
  | some k =>
    cases k with
    | BBFILE =>
      dsimp only
      split
      · simp
      · simp
    | PEERS =>
      dsimp only
      by_cases hlen : 1 < p.words.length
      · by_cases hind : s.PEER_COMMS_IND = 0
        · rw [if_pos hlen, if_pos hind, Option.isSome_map, configPeers_isSome]
          simp [hlen, hind]
        · simp [hlen, hind]
      · simp [hlen]
    | DAEMON =>
      dsimp only
      by_cases hind : s.DETACH_IND = 0
      · simp [hind]
      · simp [hind]
    | DEBUG =>
      dsimp only
      by_cases hind : s.DEBUG_DELAY_IND = 0
      · simp [hind]
      · simp [hind]
    | _ => simp

/-- What is open after a round. -/
theorem FetchStep.open (h : FetchStep p s s') : (s'.DETACH_IND = 0 ↔ s.DETACH_IND = 0 ∧ p.key ≠ some .DAEMON) ∧
    (s'.DEBUG_DELAY_IND = 0 ↔ s.DEBUG_DELAY_IND = 0 ∧ p.key ≠ some .DEBUG) ∧
    (s'.PEER_COMMS_IND = 0 ↔ s.PEER_COMMS_IND = 0 ∧ p.peers = none) := by
  cases h with
  | tmax v hk hv =>
    split
    · simp [Piece.peers, hk]
    · simp [Piece.peers, hk]
  | bp v hk hv =>
    split
    · simp [Piece.peers, hk]
    · simp [Piece.peers, hk]
  | sp v hk hv =>
    split
    · simp [Piece.peers, hk]
    · simp [Piece.peers, hk]
  | bbfile hk =>
    split
    · simp [Piece.peers, hk]
    · simp [Piece.peers, hk]
  | peers hk hlen hind hwords => simp [Piece.peers, hk, hlen]
  | peersKept hk hkeep =>
    by_cases hlen : 1 < p.words.length
    · simp [Piece.peers, hk, hlen, hkeep hlen]
    · simp [Piece.peers, hk, hlen]
  | daemon v hk hind hv => simp [Piece.peers, hk]
  | daemonKept hk hind => simp [Piece.peers, hk, hind]
  | debug v hk hind hv => simp [Piece.peers, hk]
  | debugKept hk hind => simp [Piece.peers, hk, hind]
  | other hk => simp [Piece.peers, hk]

/-- **A run is defined** when all that it reads is there. -/
theorem foldlM_fetch_isSome : (ps.foldlM fetchSetting s).isSome ↔
    FetchDefined (s.DETACH_IND = 0) (s.DEBUG_DELAY_IND = 0) (s.PEER_COMMS_IND = 0) ps := by
  induction ps generalizing s with
  | nil => exact ⟨fun _ => ⟨by simp, by simp, by simp, by simp⟩, fun _ => rfl⟩
  | cons p ps ih =>
    rw [fetchDefined_cons, ← fetchSetting_isSome, List.foldlM_cons]
    cases hstep : fetchSetting s p with
    | none =>
      constructor
      · intro h
        cases h
      · rintro ⟨h, -⟩
        cases h
    | some s₁ =>
      -- what is still open after the round decides what the rest of the pieces must have
      obtain ⟨hdetach, hdebug, hpeers⟩ := (fetchSetting_step hstep).open
      have hrest := @ih s₁
      rw [hdetach, hdebug, hpeers] at hrest
      exact ⟨fun h => ⟨rfl, hrest.1 h⟩, fun h => hrest.2 h.2⟩

/-- What is sound is there. -/
theorem fetchDefined_of_sound (h : ∀ p ∈ ps, p.Sound) (detach debug peers : Prop) : FetchDefined detach debug peers ps := by
  have hvalue : ∀ k, k ≠ .BBFILE → k ≠ .PEERS → ∀ p ∈ ps, p.key = some k → p.value.isSome := by
    intro k hb hp p hmem hkey
    have hsound := h p hmem
    rw [Piece.Sound, hkey] at hsound
    cases k <;> first | exact hsound | exact absurd rfl hb | exact absurd rfl hp
  have hfirst : ∀ k, k ≠ .BBFILE → k ≠ .PEERS → ∀ p, ps.find? (fun p => p.key == some k) = some p → p.value.isSome := by
    intro k hb hp p hfind
    have hkey := List.find?_some hfind
    exact hvalue k hb hp p (List.mem_of_find?_eq_some hfind) (beq_iff_eq.1 hkey)
  refine ⟨?_, fun _ => hfirst .DAEMON (by decide) (by decide), fun _ => hfirst .DEBUG (by decide) (by decide), ?_⟩
  · rintro p hp (hkey | hkey | hkey)
    · exact hvalue _ (by decide) (by decide) p hp hkey
    · exact hvalue _ (by decide) (by decide) p hp hkey
    · exact hvalue _ (by decide) (by decide) p hp hkey
  · intro _ words hfind
    obtain ⟨p, hp, hwords⟩ := List.exists_of_findSome?_eq_some hfind
    rw [Piece.peers, Option.ite_none_right_eq_some] at hwords
    obtain ⟨⟨hkey, -⟩, hwords⟩ := hwords
    obtain rfl := Option.some.inj hwords
    have hsound := h p hp
    rw [Piece.Sound, hkey] at hsound
    exact hsound

end

/-! The peer table. -/

/-- **The peer table** holds exactly the peers, wherever the words are given, exactly when the peers stand
    before the other words and fit: on the command line, in a PEERS line that `fetch_config` takes
    after any other rounds, and in one that is read on a SIGHUP, where a line without words leaves
    the table of before. -/
theorem peer_table_iff (words : List CStr) :
    (∀ s, LeavesPeers words (fetchPeers words s) ↔ PeersFirst words) ∧
    (∀ switches bbfile s₀ (ps : List Piece) s value ind, fetchCmndLine switches [] (startConf bbfile) = some s₀ →
      ps.foldlM fetchSetting s₀ = some s → s.PEER_COMMS_IND = 0 →
        (LeavesPeers words ((fetchRound (peersLine words value) ind s).map RoundEnd.conf) ↔ PeersFirst words)) ∧
    ∀ s value ind, LeavesPeers words ((forceRound (peersLine words value) ind s).map RoundEnd.conf) ↔
      PeersFirst words ∧ (words = [] → s.NO_OF_PEERS = 0) := by
  refine ⟨fetchPeers_leaves words, fun switches bbfile s₀ ps s value ind hcmnd hrun hopen => ?_, fun s value ind =>
    forceRound_leaves words value ind s⟩
  obtain ⟨hcount, hind⟩ := fetchCmndLine_nil hcmnd
  -- a PEERS line before it would have set the flag
  rcases first_peers.run_or hrun ⟨hind, hcount⟩ with ⟨-, hcount'⟩ | hset
  · exact fetchRound_leaves words value ind hcount' hopen
  · exact absurd hopen hset

/-- A peer first, behind a line that sets THMAX. -/
theorem peer_table_first : ∃ s, fetchCmndLine [] [] (startConf []) = some (startConf []) ∧
    [(⟨["THMAX".toList, "5".toList], some 5⟩ : Piece)].foldlM fetchSetting (startConf []) = some s ∧
    s.PEER_COMMS_IND = 0 ∧
    LeavesPeers ["h:80".toList, "x".toList]
      ((fetchRound (peersLine ["h:80".toList, "x".toList] none) Inds.clear s).map RoundEnd.conf) := by
  have hrun : [(⟨["THMAX".toList, "5".toList], some 5⟩ : Piece)].foldlM fetchSetting (startConf []) =
      some { startConf [] with T_MAX := 5, T_MAX_IND := 2 } := by decide
  have hfirst : PeersFirst ["h:80".toList, "x".toList] := by
    refine ⟨["h:80".toList], ["x".toList], rfl, ?_, by decide⟩
    intro word hword
    obtain rfl := List.mem_singleton.1 hword
    exact ⟨"h".toList, 80, by decide, by decide, by decide⟩
  exact ⟨_, rfl, hrun, rfl, ((peer_table_iff ["h:80".toList, "x".toList]).2.1 [] [] (startConf []) _ _ none Inds.clear rfl
    hrun rfl).2 hfirst⟩

/-- `bbserv x h:80` counts one peer, and nothing was stored in the first entry. -/
theorem peer_table_hole : ¬ LeavesPeers ["x".toList, "h:80".toList]
    (fetchPeers ["x".toList, "h:80".toList] (startConf [])) := by
  rintro ⟨s, hrun, htable⟩
  have hpeers : validPeers ["x".toList, "h:80".toList] = [("h".toList, 80)] := by decide
  have hinfo : (fetchPeers ["x".toList, "h:80".toList] (startConf [])).map
      (fun s => (s.peer_info.take 1).map (Option.map PeerInfo.hostPort)) = some [none] := by decide
  rw [hrun] at hinfo
  have hentries := htable.entries
  rw [hpeers] at hentries
  have hsame := (Option.some.inj hinfo).symm.trans hentries
  cases (List.cons.inj hsame).1

end BulletinBoard
