import BulletinBoard.ConfigRun

/- SIGHUP against a fresh start from the same file. `force_fetch_config` takes the last value that
   the file has for a setting where `fetch_config` takes the first, and the reset before it leaves the
   peers: the two agree exactly when the first value and the last are the same, and, where the file
   has no peers, there were none before. -/
namespace BulletinBoard

/-- The file has a word for BBFILE. -/
def SetsBbfile (file : Option (List Char)) : Prop := ∃ p ∈ piecesOf file, p.bbfile ≠ none

/-- The same values; an entry that nothing was stored in has none. -/
structure SameConf (bbfile : Prop) (s s' : Sconf) : Prop where
  tmax : s.T_MAX = s'.T_MAX
  bp : s.BP = s'.BP
  sp : s.SP = s'.SP
  bbfile : bbfile → s.BBFILE = s'.BBFILE
  debug : s.DEBUG_DELAY = s'.DEBUG_DELAY
  count : s.NO_OF_PEERS = s'.NO_OF_PEERS
  peers : ∀ i : Nat, (i : Int) < s.NO_OF_PEERS →
    ∃ entry, s.peer_info[i]? = some (some entry) ∧ s'.peer_info[i]? = some (some entry)

/-- What a SIGHUP leaves in force is what a fresh start without options gives. -/
def RestartsFresh (bbfile bbfile' : CStr) (file : Option (List Char)) (s : Sconf) : Prop :=
  ∃ fresh forced, (fetchCmndLine [] [] (startConf bbfile)).bind (fetchConfig file) = some fresh ∧
    forceFetchConfig file (resetConf bbfile' s) = some forced ∧ SameConf (SetsBbfile file) fresh forced

/-- Two PEERS lines whose first so many words are stored as the same peers. -/
def SameTable (first last : List CStr) : Prop :=
  colonCount first = colonCount last ∧ ∀ i < colonCount first,
    ∃ entry, (tableOf 0 first)[i]? = some (some entry) ∧ (tableOf 0 last)[i]? = some (some entry)

/-- The first values of the file are the last ones. -/
structure FirstIsLast (bbfile bbfile' : CStr) (ps : List Piece) (s : Sconf) : Prop where
  sound : ∀ p ∈ ps, p.Sound
  numbers : ∀ k, k = .THMAX ∨ k = .BBPORT ∨ k = .SYNCPORT →
    (ps.findSome? (Piece.number k)).map toInt = (ps.reverse.findSome? (Piece.number k)).map toInt
  bbfile : (∃ p ∈ ps, p.bbfile ≠ none) → ((upToStop Inds.clear ps).findSome? Piece.bbfile).getD bbfile =
    (ps.reverse.findSome? Piece.bbfile).getD bbfile'
  debug : ps.findSome? Piece.debug = ps.reverse.findSome? Piece.debug
  peers : match ps.findSome? Piece.peers, ps.reverse.findSome? Piece.peers with
    | some first, some last => SameTable first last
    | _, _ => s.NO_OF_PEERS = 0

/-! First and last. -/

section
variable {α β : Type}

theorem findSome_mapped (f : Piece → Option α) (g : α → β) (ps : List Piece) :
    ps.findSome? (fun p => (f p).map g) = (ps.findSome? f).map g :=
  List.map_findSome?.symm

theorem findSome_reverse_none {f : Piece → Option α} {ps : List Piece} :
    ps.reverse.findSome? f = none ↔ ps.findSome? f = none := by
  rw [List.findSome?_eq_none_iff, List.findSome?_eq_none_iff]
  simp only [List.mem_reverse]

/-- With a value of main behind them. -/
theorem getD_eq_iff {a b : Option α} (h : b = none ↔ a = none) (d : α) : a.getD d = b.getD d ↔ a = b := by
  constructor
  · intro heq
    cases ha : a with
    | none => rw [h.2 ha]
    | some x =>
      cases hb : b with
      | none =>
        rw [h.1 hb] at ha
        cases ha
      | some y =>
        rw [ha, hb] at heq
        exact congrArg some heq
  · intro heq
    rw [heq]

end

theorem upToStop_subset (ind : Inds) (ps : List Piece) : ∀ p ∈ upToStop ind ps, p ∈ ps := by
  induction ps generalizing ind with
  | nil => exact fun p hp => hp
  | cons q ps ih =>
    intro p hp
    rw [upToStop] at hp
    split at hp
    · cases hp
    · rcases List.mem_cons.1 hp with rfl | hp
      · exact List.mem_cons_self
      · exact List.mem_cons_of_mem q (ih _ p hp)

section
variable {bbfile bbfile' : CStr} {file : Option (List Char)} {s fresh forced : Sconf}

/-- What a fresh start takes of the pieces. -/
structure FreshValues (bbfile : CStr) (ps : List Piece) (fresh : Sconf) : Prop where
  tmax : fresh.T_MAX = ((ps.findSome? (Piece.number .THMAX)).map toInt).getD 20
  bp : fresh.BP = ((ps.findSome? (Piece.number .BBPORT)).map toInt).getD 9000
  sp : fresh.SP = ((ps.findSome? (Piece.number .SYNCPORT)).map toInt).getD 10000
  bbfile : fresh.BBFILE = ((upToStop Inds.clear ps).findSome? Piece.bbfile).getD bbfile
  debug : fresh.DEBUG_DELAY = ((upToStop Inds.clear ps).findSome? Piece.debug).getD false
  peers : (fresh.NO_OF_PEERS, fresh.peer_info) =
    ((ps.findSome? Piece.peers).map fun words => (((colonCount words : Nat) : Int), tableOf 0 words)).getD (0, [])

/-- What is in force after a SIGHUP. -/
structure ForcedValues (bbfile' : CStr) (ps : List Piece) (s forced : Sconf) : Prop where
  tmax : forced.T_MAX = ((ps.reverse.findSome? (Piece.number .THMAX)).map toInt).getD 20
  bp : forced.BP = ((ps.reverse.findSome? (Piece.number .BBPORT)).map toInt).getD 9000
  sp : forced.SP = ((ps.reverse.findSome? (Piece.number .SYNCPORT)).map toInt).getD 10000
  bbfile : forced.BBFILE = (ps.reverse.findSome? Piece.bbfile).getD bbfile'
  debug : forced.DEBUG_DELAY = (ps.reverse.findSome? Piece.debug).getD false
  peers : (forced.NO_OF_PEERS, forced.peer_info) =
    ((ps.reverse.findSome? Piece.peers).map fun words => (((colonCount words : Nat) : Int), tableOf 0 words)).getD
      (s.NO_OF_PEERS, s.peer_info)

theorem freshValues (h : (fetchCmndLine [] [] (startConf bbfile)).bind (fetchConfig file) = some fresh) :
    FreshValues bbfile (piecesOf file) fresh := by
  have hrun : (upToStop Inds.clear (piecesOf file)).foldlM fetchSetting (startConf bbfile) = some fresh := by
    rw [← runPieces_fetch, ← fetchConfig_eq]
    exact h
  constructor
  · rw [first_tmax.run hrun rfl, findSome_mapped, number_upToStop _ (Or.inl rfl)]
    rfl
  · rw [first_bp.run hrun rfl, findSome_mapped, number_upToStop _ (Or.inr (Or.inl rfl))]
    rfl
  · rw [first_sp.run hrun rfl, findSome_mapped, number_upToStop _ (Or.inr (Or.inr rfl))]
    rfl
  · exact first_bbfile.run hrun rfl
  · exact first_debug.run hrun rfl
  · have hpeers := first_peers.run hrun ⟨rfl, rfl⟩
    rw [findSome_mapped, peers_upToStop] at hpeers
    exact hpeers

theorem forcedValues (h : forceFetchConfig file (resetConf bbfile' s) = some forced) :
    ForcedValues bbfile' (piecesOf file) s forced := by
  rw [forceFetchConfig_eq, runPieces_force] at h
  constructor
  · have hlast : Setting.Last forceSetting Sconf.T_MAX fun p => (p.number .THMAX).map toInt :=
      fun hstep => (forceSetting_step hstep).tmax
    rw [hlast.run h, findSome_mapped]
    rfl
  · have hlast : Setting.Last forceSetting Sconf.BP fun p => (p.number .BBPORT).map toInt :=
      fun hstep => (forceSetting_step hstep).bp
    rw [hlast.run h, findSome_mapped]
    rfl
  · have hlast : Setting.Last forceSetting Sconf.SP fun p => (p.number .SYNCPORT).map toInt :=
      fun hstep => (forceSetting_step hstep).sp
    rw [hlast.run h, findSome_mapped]
    rfl
  · have hlast : Setting.Last forceSetting Sconf.BBFILE Piece.bbfile := fun hstep => (forceSetting_step hstep).bbfile
    exact hlast.run h
  · have hlast : Setting.Last forceSetting Sconf.DEBUG_DELAY Piece.debug := fun hstep => (forceSetting_step hstep).debug
    exact hlast.run h
  · have hlast : Setting.Last forceSetting (fun s => (s.NO_OF_PEERS, s.peer_info)) fun p =>
        p.peers.map fun words => (((colonCount words : Nat) : Int), tableOf 0 words) :=
      fun hstep => (forceSetting_step hstep).peers
    have hpeers := hlast.run h
    rw [findSome_mapped] at hpeers
    exact hpeers

/-- Both come to an end exactly when every piece can be taken. -/
theorem both_defined_iff : (∃ fresh forced, (fetchCmndLine [] [] (startConf bbfile)).bind (fetchConfig file) = some fresh ∧
    forceFetchConfig file (resetConf bbfile' s) = some forced) ↔ ∀ p ∈ piecesOf file, p.Sound := by
  have hforce := @Setting.isSome_foldlM _ _ forceSetting (resetConf bbfile' s) (piecesOf file) _ forceSetting_isSome
  rw [← hforce, ← runPieces_force, ← forceFetchConfig_eq, Option.isSome_iff_exists]
  constructor
  · rintro ⟨_, forced, -, h⟩
    exact ⟨forced, h⟩
  · rintro ⟨forced, h⟩
    have hsound : ∀ p ∈ piecesOf file, p.Sound := by
      rw [← hforce, ← runPieces_force, ← forceFetchConfig_eq, h]
      rfl
    -- `fetch_config` reads no more than `force_fetch_config` does
    have hread : ∀ p ∈ upToStop Inds.clear (piecesOf file), p.Sound :=
      fun p hp => hsound p (upToStop_subset Inds.clear _ p hp)
    obtain ⟨fresh, hfresh⟩ := Option.isSome_iff_exists.1
      ((@foldlM_fetch_isSome _ (startConf bbfile)).2 (fetchDefined_of_sound hread _ _ _))
    rw [← runPieces_fetch, ← fetchConfig_eq] at hfresh
    exact ⟨fresh, forced, hfresh, h⟩

/-! The comparison. -/

/-- The tables of the first PEERS line and the last, or of none and the one before. -/
theorem peers_same_iff {ps : List Piece} (hfresh : FreshValues bbfile ps fresh) (hforced : ForcedValues bbfile' ps s forced) :
    (fresh.NO_OF_PEERS = forced.NO_OF_PEERS ∧ ∀ i : Nat, (i : Int) < fresh.NO_OF_PEERS →
        ∃ entry, fresh.peer_info[i]? = some (some entry) ∧ forced.peer_info[i]? = some (some entry)) ↔
      match ps.findSome? Piece.peers, ps.reverse.findSome? Piece.peers with
      | some first, some last => SameTable first last
      | _, _ => s.NO_OF_PEERS = 0 := by
  -- a file without PEERS words: a fresh start has no peers, a SIGHUP those of before
  have h₁ := hfresh.peers
  have h₂ := hforced.peers
  cases hfirst : ps.findSome? Piece.peers with
  | none =>
    rw [hfirst] at h₁
    rw [findSome_reverse_none.2 hfirst] at h₂
    obtain ⟨hcount₁, -⟩ := Prod.mk.inj h₁
    obtain ⟨hcount₂, -⟩ := Prod.mk.inj h₂
    rw [hcount₁, hcount₂]
    constructor
    · rintro ⟨hsame, -⟩
      exact hsame.symm
    · intro hzero
      refine ⟨hzero.symm, fun i hi => ?_⟩
      omega
  | some first =>
    cases hlast : ps.reverse.findSome? Piece.peers with
    | none =>
      rw [findSome_reverse_none.1 hlast] at hfirst
      cases hfirst
    | some last =>
      rw [hfirst] at h₁
      rw [hlast] at h₂
      obtain ⟨hcount₁, htable₁⟩ := Prod.mk.inj h₁
      obtain ⟨hcount₂, htable₂⟩ := Prod.mk.inj h₂
      rw [hcount₁, hcount₂, htable₁, htable₂]
      constructor
      · rintro ⟨hcount, hentries⟩
        exact ⟨Int.ofNat_inj.1 hcount, fun i hi => hentries i (Int.ofNat_lt.2 hi)⟩
      · rintro ⟨hcount, hentries⟩
        exact ⟨congrArg Int.ofNat hcount, fun i hi => hentries i (Int.ofNat_lt.1 hi)⟩

theorem number_same_iff (ps : List Piece) (k : Key) (d : Int) :
    ((ps.findSome? (Piece.number k)).map toInt).getD d = ((ps.reverse.findSome? (Piece.number k)).map toInt).getD d ↔
      (ps.findSome? (Piece.number k)).map toInt = (ps.reverse.findSome? (Piece.number k)).map toInt := by
  apply getD_eq_iff
  rw [Option.map_eq_none_iff, Option.map_eq_none_iff]
  exact findSome_reverse_none

theorem firstIsLast_of_restart (h : RestartsFresh bbfile bbfile' file s) : FirstIsLast bbfile bbfile' (piecesOf file) s := by
  obtain ⟨fresh, forced, hrun, hrun', hsame⟩ := h
  have hsound := both_defined_iff.1 ⟨fresh, forced, hrun, hrun'⟩
  have hfresh := freshValues hrun
  have hforced := forcedValues hrun'
  refine ⟨hsound, ?_, ?_, ?_, (peers_same_iff hfresh hforced).1 ⟨hsame.count, hsame.peers⟩⟩
  · rintro k (rfl | rfl | rfl)
    · rw [← number_same_iff _ _ 20, ← hfresh.tmax, ← hforced.tmax]
      exact hsame.tmax
    · rw [← number_same_iff _ _ 9000, ← hfresh.bp, ← hforced.bp]
      exact hsame.bp
    · rw [← number_same_iff _ _ 10000, ← hfresh.sp, ← hforced.sp]
      exact hsame.sp
  · intro hset
    rw [← hfresh.bbfile, ← hforced.bbfile]
    exact hsame.bbfile hset
  · rw [← getD_eq_iff findSome_reverse_none false, ← debug_upToStop _ hsound, ← hfresh.debug, ← hforced.debug]
    exact hsame.debug

theorem restart_of_firstIsLast (h : FirstIsLast bbfile bbfile' (piecesOf file) s) : RestartsFresh bbfile bbfile' file s := by
  obtain ⟨fresh, forced, hrun, hrun'⟩ := (@both_defined_iff bbfile bbfile' file s).2 h.sound
  have hfresh := freshValues hrun
  have hforced := forcedValues hrun'
  obtain ⟨hcount, hpeers⟩ := (peers_same_iff hfresh hforced).2 h.peers
  refine ⟨fresh, forced, hrun, hrun', ?_, ?_, ?_, ?_, ?_, hcount, hpeers⟩
  · rw [hfresh.tmax, hforced.tmax, h.numbers .THMAX (Or.inl rfl)]
  · rw [hfresh.bp, hforced.bp, h.numbers .BBPORT (Or.inr (Or.inl rfl))]
  · rw [hfresh.sp, hforced.sp, h.numbers .SYNCPORT (Or.inr (Or.inr rfl))]
  · intro hset
    rw [hfresh.bbfile, hforced.bbfile]
    exact h.bbfile hset
  · rw [hfresh.debug, hforced.debug, debug_upToStop _ h.sound, h.debug]

end

/-- **A SIGHUP is a fresh start** exactly when the first values of the file are the last ones. -/
theorem restart_fresh_iff (bbfile bbfile' : CStr) (file : Option (List Char)) (s : Sconf) :
    RestartsFresh bbfile bbfile' file s ↔ FirstIsLast bbfile bbfile' (piecesOf file) s :=
  ⟨firstIsLast_of_restart, restart_of_firstIsLast⟩

/-- `THMAX 5` before `THMAX 7`: a fresh start has 5 threads, a SIGHUP 7. -/
theorem restart_takes_last : ¬ RestartsFresh [] [] (some "THMAX 5\nTHMAX 7\n".toList) (startConf []) := by
  rintro ⟨fresh, forced, hrun, hrun', hsame⟩
  have h₁ : ((fetchCmndLine [] [] (startConf [])).bind (fetchConfig (some "THMAX 5\nTHMAX 7\n".toList))).map Sconf.T_MAX =
      some 5 := by decide +kernel
  have h₂ : (forceFetchConfig (some "THMAX 5\nTHMAX 7\n".toList) (resetConf [] (startConf []))).map Sconf.T_MAX =
      some 7 := by decide +kernel
  rw [hrun] at h₁
  rw [hrun'] at h₂
  have hfresh : fresh.T_MAX = 5 := Option.some.inj h₁
  have hforced : forced.T_MAX = 7 := Option.some.inj h₂
  have htmax := hsame.tmax
  rw [hfresh, hforced] at htmax
  exact absurd htmax (by decide)

end BulletinBoard
