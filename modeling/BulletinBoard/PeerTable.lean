import BulletinBoard.Config
import BulletinBoard.Lib.Setting

/- The peer table. A word with a colon is stored at its own place among the words, and the number of
   peers is that of the words with a colon: the first so many entries are the peers exactly
   when the words with a colon stand first and each of them is a host and a port that fit. -/
namespace BulletinBoard

/-! What the table is to hold. -/

/-- The host and the port of a word `host:port`. -/
def peerWord (word : CStr) : Option (CStr × Int) :=
  match word.dropWhile (· != ':') with
  | [] => none
  | _ :: port =>
    if word.takeWhile (· != ':') ≠ [] ∧ IsNumeral port then some (word.takeWhile (· != ':'), (numeralValue port : Int))
    else none

def validPeers (words : List CStr) : List (CStr × Int) := words.filterMap peerWord

def PeerInfo.hostPort (p : PeerInfo) : CStr × Int := (p.ip, p.port)

/-- The entries that are used are the host and the port of the words that have them. -/
structure PeerTable (words : List CStr) (s : Sconf) : Prop where
  count : s.NO_OF_PEERS = (validPeers words).length
  entries : (s.peer_info.take (validPeers words).length).map (Option.map PeerInfo.hostPort) =
    (validPeers words).map some

/-- A run that comes to an end, and leaves such a table. -/
def LeavesPeers (words : List CStr) (run : Option Sconf) : Prop := ∃ s, run = some s ∧ PeerTable words s

/-- A word that the table can hold. -/
def Fitting (word : CStr) : Prop := ∃ host port, peerWord word = some (host, port) ∧ host.length < 20 ∧ port ≤ INT_MAX

/-- The peers stand before the words without a colon. -/
def PeersFirst (words : List CStr) : Prop :=
  ∃ peers others, words = peers ++ others ∧ (∀ word ∈ peers, Fitting word) ∧ ∀ word ∈ others, ':' ∉ word

/-! A word. -/

section
variable {word host port : CStr}

/-- A word of the form, from its parts. -/
theorem peerWord_eq_some {n : Int} : peerWord word = some (host, n) ↔
    ∃ port, word = host ++ ':' :: port ∧ host ≠ [] ∧ ':' ∉ host ∧ IsNumeral port ∧ n = numeralValue port := by
  constructor
  · intro h
    have hsplit : word.takeWhile (· != ':') ++ word.dropWhile (· != ':') = word := List.takeWhile_append_dropWhile
    have hnone : ':' ∉ word.takeWhile (· != ':') := by
      intro hm
      have hc := List.mem_takeWhile_imp hm
      simp at hc
    unfold peerWord at h
    cases hd : word.dropWhile (· != ':') with
    | nil =>
      rw [hd] at h
      cases h
    | cons c port =>
      have hc : c = ':' := by
        have hh := List.head?_dropWhile_not (· != ':') word
        rw [hd] at hh
        simpa using hh
      rw [hd] at h
      dsimp only at h
      split at h
      · next hparts =>
        obtain ⟨rfl, rfl⟩ := Prod.mk.inj (Option.some.inj h)
        rw [hd, hc] at hsplit
        exact ⟨port, hsplit.symm, hparts.1, hnone, hparts.2, rfl⟩
      · cases h
  · rintro ⟨port, rfl, hne, hnone, hport, rfl⟩
    have hhost : ∀ c ∈ host, (c != ':') = true := by
      intro c hc
      rw [bne_iff_ne]
      rintro rfl
      exact hnone hc
    have htake : (host ++ ':' :: port).takeWhile (· != ':') = host := by
      rw [List.takeWhile_append_of_pos hhost]
      simp
    have hdrop : (host ++ ':' :: port).dropWhile (· != ':') = ':' :: port := by
      rw [List.dropWhile_append_of_pos hhost]
      rfl
    rw [peerWord, hdrop, htake]
    exact if_pos ⟨hne, hport⟩

theorem colon_of_peerWord {r : CStr × Int} (h : peerWord word = some r) : ':' ∈ word := by
  obtain ⟨port, rfl, -⟩ := peerWord_eq_some.1 h
  exact List.mem_append_right _ List.mem_cons_self

theorem strtok_token (hne : host ≠ []) (hnone : ':' ∉ host) (rest : CStr)
    (hrest : rest.head? = none ∨ rest.head? = some ':') : strtok (host ++ rest) = some (host, rest.drop 1) := by
  have hhost : ∀ c ∈ host, (c != ':') = true := by
    intro c hc
    rw [bne_iff_ne]
    rintro rfl
    exact hnone hc
  have hstop : rest.takeWhile (· != ':') = [] ∧ rest.dropWhile (· != ':') = rest := by
    cases rest with
    | nil => exact ⟨rfl, rfl⟩
    | cons c rest =>
      rcases hrest with hrest | hrest
      · cases hrest
      · obtain rfl := Option.some.inj hrest
        exact ⟨rfl, rfl⟩
  obtain ⟨c, r, rfl⟩ := List.exists_cons_of_ne_nil hne
  have hstart : (c :: r ++ rest).dropWhile (· == ':') = c :: r ++ rest := by
    have hc : (c == ':') = false := by
      have hne := hhost c List.mem_cons_self
      simpa using hne
    rw [List.cons_append, List.dropWhile_cons, hc]
    rfl
  rw [strtok, hstart]
  show some ((c :: r ++ rest).takeWhile (· != ':'), ((c :: r ++ rest).dropWhile (· != ':')).drop 1) = _
  rw [List.takeWhile_append_of_pos hhost, List.dropWhile_append_of_pos hhost, hstop.1, hstop.2, List.append_nil]

theorem toInt_le (x : Int) : toInt x ≤ INT_MAX := by
  have h := @Int.bmod_lt x (2 ^ 32) (by decide)
  unfold toInt INT_MAX
  omega

/-- What is stored for a word of the form. -/
theorem peerEntry_peerWord {n : Int} (h : peerWord word = some (host, n)) (id : Nat) :
    (peerEntry id word).map PeerInfo.hostPort = some (host, n) ↔ host.length < 20 ∧ n ≤ INT_MAX := by
  obtain ⟨port, rfl, hne, hnone, hport, rfl⟩ := peerWord_eq_some.1 h
  have hcolon : ':' ∉ port := fun hm => absurd (hport.2 _ hm) (by decide)
  have hfirst : strtok (host ++ ':' :: port) = some (host, port) := strtok_token hne hnone (':' :: port) (Or.inr rfl)
  have hsecond := strtok_token hport.1 hcolon [] (Or.inl rfl)
  rw [List.append_nil] at hsecond
  rw [peerEntry, hfirst]
  dsimp only
  rw [hsecond]
  dsimp only
  have hatoi : atoi port = numeralValue port ↔ (numeralValue port : Int) ≤ INT_MAX := by
    constructor
    · intro heq
      rw [← heq]
      exact toInt_le _
    · intro hle
      have hlong : (numeralValue port : Int) ≤ LONG_MAX := hle.trans (by decide)
      rw [atoi, strtol_numeral hport, min_eq_right hlong]
      exact toInt_of_range (Int.natCast_nonneg _) hle
  by_cases hlen : host.length < 20
  · rw [dif_pos hlen, Option.map_some, Option.some.injEq, PeerInfo.hostPort, Prod.mk.injEq, hatoi]
    exact ⟨fun hp => ⟨hlen, hp.2⟩, fun hp => ⟨rfl, hp.2⟩⟩
  · rw [dif_neg hlen]
    constructor
    · intro hp
      cases hp
    · intro hp
      exact absurd hp.1 hlen

end

/-! The loops. -/

/-- A word that can be stored, or that is not. -/
def Storable (word : CStr) : Prop := ':' ∈ word → (peerEntry 0 word).isSome

instance (word : CStr) : Decidable (Storable word) := inferInstanceAs (Decidable (_ → _))

/-- The table of the words. -/
def tableOf : Nat → List CStr → List (Option PeerInfo)
  | _, [] => []
  | i, word :: words => (if ':' ∈ word then peerEntry i word else none) :: tableOf (i + 1) words

/-- The words that count. -/
def colonCount (words : List CStr) : Nat := words.countP fun word => decide (':' ∈ word)

/-- Only the number of an entry depends on where the word stands. -/
theorem peerEntry_hostPort (id : Nat) (word : CStr) :
    (peerEntry id word).map PeerInfo.hostPort = (peerEntry 0 word).map PeerInfo.hostPort := by
  unfold peerEntry
  split
  · rfl
  · split
    · rfl
    · split
      · rfl
      · rfl

theorem peerEntry_isSome (id : Nat) (word : CStr) : (peerEntry id word).isSome = (peerEntry 0 word).isSome := by
  have h := congrArg Option.isSome (peerEntry_hostPort id word)
  rwa [Option.isSome_map, Option.isSome_map] at h

theorem colonCount_cons (word : CStr) (words : List CStr) :
    colonCount (word :: words) = colonCount words + if ':' ∈ word then 1 else 0 := by
  rw [colonCount, List.countP_cons]
  simp only [decide_eq_true_eq]
  rfl

theorem colonCount_le (words : List CStr) : colonCount words ≤ words.length := List.countP_le_length

/-- What is stored at place `i` stands behind the entries before it. -/
theorem set_next (stored : List (Option PeerInfo)) (n : Nat) (p : Option PeerInfo) :
    (stored ++ List.replicate (n + 1) none).set stored.length p = stored ++ [p] ++ List.replicate n none := by
  rw [List.replicate_succ, List.set_append_right _ _ (le_refl _), Nat.sub_self, List.set_cons_zero, List.append_assoc]
  rfl

theorem cmndLinePeers_eq_some {argv : List CStr} : ∀ {stored : List (Option PeerInfo)} {s s' : Sconf},
    s.peer_info = stored ++ List.replicate argv.length none →
    (cmndLinePeers stored.length argv s = some s' ↔ (∀ word ∈ argv, Storable word) ∧
      s' = { s with NO_OF_PEERS := s.NO_OF_PEERS - (argv.length - colonCount argv : Nat),
                    peer_info := stored ++ tableOf stored.length argv }) := by
  -- `stored` are the entries of the words before, one for each whether it is a peer or not
  induction argv with
  | nil =>
    intro stored s s' h
    have hs : { s with NO_OF_PEERS := s.NO_OF_PEERS - (([] : List CStr).length - colonCount [] : Nat),
                       peer_info := stored ++ tableOf stored.length [] } = s := by
      have hinfo : stored ++ tableOf stored.length [] = s.peer_info := h.symm
      rw [hinfo]
      simp [colonCount]
    rw [hs, cmndLinePeers, Option.some.injEq]
    exact ⟨fun he => ⟨by simp, he.symm⟩, fun he => he.2.symm⟩
  | cons word argv ih =>
    intro stored s s' h
    have hle := colonCount_le argv
    rw [cmndLinePeers, List.forall_mem_cons, colonCount_cons, tableOf]
    by_cases hc : ':' ∈ word
    · rw [if_pos hc, if_pos hc, if_pos hc]
      cases hp : peerEntry stored.length word with
      | none =>
        have hnot : ¬ Storable word := by
          intro hs
          have hsome := hs hc
          rw [← peerEntry_isSome stored.length, hp] at hsome
          cases hsome
        constructor
        · intro he
          cases he
        · intro he
          exact absurd he.1.1 hnot
      | some peer =>
        have hstorable : Storable word := by
          intro _
          rw [← peerEntry_isSome stored.length, hp]
          rfl
        have hinfo : ({ s with peer_info := s.peer_info.set stored.length (some peer) } : Sconf).peer_info =
            (stored ++ [some peer]) ++ List.replicate argv.length none := by
          show s.peer_info.set stored.length (some peer) = _
          rw [h]
          exact set_next stored argv.length (some peer)
        have hlen : stored.length + 1 = (stored ++ [some peer]).length := by simp
        dsimp only
        rw [hlen, ih hinfo, List.append_assoc, List.length_append, List.length_singleton, List.length_cons,
          Nat.add_sub_add_right]
        exact ⟨fun he => ⟨⟨hstorable, he.1⟩, he.2⟩, fun he => ⟨he.1.2, he.2⟩⟩
    · have hstorable : Storable word := fun hm => absurd hm hc
      have hinfo : ({ s with NO_OF_PEERS := s.NO_OF_PEERS - 1 } : Sconf).peer_info =
          (stored ++ [none]) ++ List.replicate argv.length none := by
        show s.peer_info = _
        rw [h, List.append_assoc]
        rfl
      have hlen : stored.length + 1 = (stored ++ [none]).length := by simp
      have hcount : s.NO_OF_PEERS - 1 - (argv.length - colonCount argv : Nat) =
          s.NO_OF_PEERS - ((word :: argv).length - (colonCount argv + 0) : Nat) := by
        rw [List.length_cons]
        omega
      rw [if_neg hc, if_neg hc, if_neg hc, hlen, ih hinfo, List.append_assoc, ← hcount, List.length_append,
        List.length_singleton]
      exact ⟨fun he => ⟨⟨hstorable, he.1⟩, he.2⟩, fun he => ⟨he.1.2, he.2⟩⟩

/-- Adding the peers comes to the same as taking the others off. -/
theorem configPeers_eq (i : Nat) (words : List CStr) (s : Sconf) :
    configPeers i words s = cmndLinePeers i words { s with NO_OF_PEERS := s.NO_OF_PEERS + words.length } := by
  induction words generalizing i s with
  | nil =>
    rw [configPeers, cmndLinePeers]
    simp
  | cons word words ih =>
    rw [configPeers, cmndLinePeers]
    split
    · cases peerEntry i word with
      | none => rfl
      | some peer =>
        dsimp only
        rw [ih]
        have hcount : s.NO_OF_PEERS + 1 + words.length = s.NO_OF_PEERS + (word :: words).length := by
          rw [List.length_cons]
          omega
        dsimp only
        rw [hcount]
    · rw [ih]
      have hcount : s.NO_OF_PEERS + words.length = s.NO_OF_PEERS + (word :: words).length - 1 := by
        rw [List.length_cons]
        omega
      dsimp only
      rw [hcount]

/-- The table from new memory. -/
theorem cmndLinePeers_new {argv : List CStr} {s s' : Sconf} (h : s.peer_info = List.replicate argv.length none) :
    cmndLinePeers 0 argv s = some s' ↔ (∀ word ∈ argv, Storable word) ∧
      s' = { s with NO_OF_PEERS := s.NO_OF_PEERS - (argv.length - colonCount argv : Nat), peer_info := tableOf 0 argv } :=
  @cmndLinePeers_eq_some argv [] s s' h

theorem configPeers_new {words : List CStr} {s s' : Sconf} (h : s.peer_info = List.replicate words.length none) :
    configPeers 0 words s = some s' ↔ (∀ word ∈ words, Storable word) ∧
      s' = { s with NO_OF_PEERS := s.NO_OF_PEERS + colonCount words, peer_info := tableOf 0 words } := by
  have hle := colonCount_le words
  have hcount : s.NO_OF_PEERS + words.length - (words.length - colonCount words : Nat) =
      s.NO_OF_PEERS + colonCount words := by omega
  rw [configPeers_eq, cmndLinePeers_new (by exact h)]
  dsimp only
  rw [hcount]

/-- What the words behind the switches do. -/
theorem fetchPeers_eq_some {argv : List CStr} {s s' : Sconf} : fetchPeers argv s = some s' ↔ (∀ word ∈ argv, Storable word) ∧
    s' = if argv = [] then { s with NO_OF_PEERS := 0 }
      else { s with NO_OF_PEERS := (colonCount argv : Nat), PEER_COMMS_IND := 1, peer_info := tableOf 0 argv } := by
  rw [fetchPeers]
  cases argv with
  | nil =>
    rw [if_pos rfl, if_neg (by simp), Option.some.injEq]
    exact ⟨fun h => ⟨by simp, h.symm⟩, fun h => h.2.symm⟩
  | cons word argv =>
    have hle := colonCount_le (word :: argv)
    have hcount : ((word :: argv).length : Int) - ((word :: argv).length - colonCount (word :: argv) : Nat) =
        (colonCount (word :: argv) : Nat) := by omega
    rw [if_pos (by simp), if_neg (by simp), cmndLinePeers_new (by rfl)]
    dsimp only
    rw [hcount]

/-! When the first entries are the peers. -/

/-- Every peer counts. -/
theorem peers_le (words : List CStr) : (validPeers words).length ≤ colonCount words := by
  induction words with
  | nil => exact Nat.zero_le _
  | cons word words ih =>
    rw [colonCount_cons]
    cases hp : peerWord word with
    | none =>
      rw [validPeers, List.filterMap_cons_none hp]
      exact Nat.le_add_right_of_le ih
    | some r =>
      rw [validPeers, List.filterMap_cons_some hp, List.length_cons, if_pos (colon_of_peerWord hp)]
      exact Nat.succ_le_succ ih

theorem peersFirst_cons {word : CStr} {words : List CStr} : PeersFirst (word :: words) ↔
    if ':' ∈ word then Fitting word ∧ PeersFirst words else ∀ w ∈ words, ':' ∉ w := by
  constructor
  · rintro ⟨peers, others, heq, hfit, hothers⟩
    cases peers with
    | nil =>
      rw [List.nil_append] at heq
      subst heq
      have hnone := hothers word List.mem_cons_self
      rw [if_neg hnone]
      exact fun w hw => hothers w (List.mem_cons_of_mem _ hw)
    | cons peer peers =>
      obtain ⟨rfl, rfl⟩ := List.cons.inj heq
      obtain ⟨host, port, hp, hlen⟩ := hfit word List.mem_cons_self
      rw [if_pos (colon_of_peerWord hp)]
      exact ⟨⟨host, port, hp, hlen⟩, peers, others, rfl, fun w hw => hfit w (List.mem_cons_of_mem _ hw), hothers⟩
  · intro h
    split at h
    · obtain ⟨hword, peers, others, rfl, hfit, hothers⟩ := h
      refine ⟨word :: peers, others, rfl, ?_, hothers⟩
      rw [List.forall_mem_cons]
      exact ⟨hword, hfit⟩
    · next hnone =>
      refine ⟨[], word :: words, rfl, by simp, ?_⟩
      rw [List.forall_mem_cons]
      exact ⟨hnone, h⟩

/-- No peers among words without a colon. -/
theorem validPeers_others {words : List CStr} (h : ∀ w ∈ words, ':' ∉ w) : validPeers words = [] := by
  rw [validPeers, List.filterMap_eq_nil_iff]
  intro w hw
  cases hp : peerWord w with
  | none => rfl
  | some r => exact absurd (colon_of_peerWord hp) (h w hw)

theorem colonCount_eq_zero {words : List CStr} : colonCount words = 0 ↔ ∀ w ∈ words, ':' ∉ w := by
  rw [colonCount, List.countP_eq_zero]
  simp

/-- **The table holds the peers** exactly when they stand first and fit. -/
theorem table_iff (words : List CStr) (i : Nat) : ((∀ word ∈ words, Storable word) ∧
    colonCount words = (validPeers words).length ∧
      ((tableOf i words).take (validPeers words).length).map (Option.map PeerInfo.hostPort) =
        (validPeers words).map some) ↔ PeersFirst words := by
  induction words generalizing i with
  | nil =>
    refine ⟨fun _ => ⟨[], [], rfl, by simp, by simp⟩, fun _ => ⟨by simp, rfl, rfl⟩⟩
  | cons word words ih =>
    rw [List.forall_mem_cons, peersFirst_cons, colonCount_cons, tableOf]
    by_cases hc : ':' ∈ word
    · rw [if_pos hc, if_pos hc, if_pos hc]
      cases hp : peerWord word with
      | none =>
        -- it counts, and is no peer
        have hle := peers_le words
        have hvalid : validPeers (word :: words) = validPeers words := List.filterMap_cons_none hp
        rw [hvalid]
        constructor
        · rintro ⟨-, hcount, -⟩
          omega
        · rintro ⟨⟨host, port, hword, -⟩, -⟩
          rw [hp] at hword
          cases hword
      | some r =>
        obtain ⟨host, port⟩ := r
        have hvalid : validPeers (word :: words) = (host, port) :: validPeers words := List.filterMap_cons_some hp
        have hentry := peerEntry_peerWord hp i
        have hfit : Fitting word ↔ host.length < 20 ∧ port ≤ INT_MAX := by
          constructor
          · rintro ⟨host', port', hword, hparts⟩
            rw [hp] at hword
            obtain ⟨rfl, rfl⟩ := Prod.mk.inj (Option.some.inj hword)
            exact hparts
          · intro hparts
            exact ⟨host, port, hp, hparts⟩
        -- it counts, and its entry is the next of those that are used
        rw [hvalid, List.length_cons, List.take_succ_cons, List.map_cons, List.map_cons, List.cons.injEq, hentry, hfit,
          ← ih (i + 1), Nat.add_right_cancel_iff]
        constructor
        · rintro ⟨⟨-, hwords⟩, hcount, hword, htable⟩
          exact ⟨hword, hwords, hcount, htable⟩
        · rintro ⟨hword, hwords, hcount, htable⟩
          refine ⟨⟨fun _ => ?_, hwords⟩, hcount, hword, htable⟩
          have hsome := congrArg Option.isSome (hentry.2 hword)
          rw [Option.isSome_map, peerEntry_isSome] at hsome
          exact hsome
    · have hnone : peerWord word = none := by
        cases hp : peerWord word with
        | none => rfl
        | some r => exact absurd (colon_of_peerWord hp) hc
      have hvalid : validPeers (word :: words) = validPeers words := List.filterMap_cons_none hnone
      rw [if_neg hc, if_neg hc, if_neg hc, hvalid, Nat.add_zero, ← colonCount_eq_zero]
      constructor
      · rintro ⟨-, hcount, htable⟩
        rw [hcount]
        -- the entry of the word is none of the first
        cases hvalid : validPeers words with
        | nil => rfl
        | cons r rest =>
          rw [hvalid, List.length_cons, List.take_succ_cons, List.map_cons, List.map_cons] at htable
          cases (List.cons.inj htable).1
      · intro hzero
        have hothers := colonCount_eq_zero.1 hzero
        rw [validPeers_others hothers, hzero]
        exact ⟨⟨fun hm => absurd hm hc, fun w hw hm => absurd hm (hothers w hw)⟩, rfl, rfl⟩

/-- What a run leaves whose table is that of the words. -/
theorem leavesPeers_of_table {words : List CStr} {run : Option Sconf} {s : Sconf} (h : ∀ s', run = some s' ↔
    (∀ word ∈ words, Storable word) ∧
      s' = { s with NO_OF_PEERS := (colonCount words : Nat), peer_info := tableOf 0 words }) :
    LeavesPeers words run ↔ PeersFirst words := by
  rw [← table_iff words 0]
  constructor
  · rintro ⟨s', hrun, htable⟩
    obtain ⟨hstorable, rfl⟩ := (h s').1 hrun
    have hcount := htable.count
    exact ⟨hstorable, Int.ofNat_inj.1 hcount, htable.entries⟩
  · rintro ⟨hstorable, hcount, htable⟩
    refine ⟨_, (h _).2 ⟨hstorable, rfl⟩, ?_, htable⟩
    exact congrArg Int.ofNat hcount

theorem peersFirst_nil : PeersFirst [] := ⟨[], [], rfl, by simp, by simp⟩

/-- No words, and no peers. -/
theorem leavesPeers_nil {run : Option Sconf} {s : Sconf} (h : run = some s) :
    LeavesPeers [] run ↔ s.NO_OF_PEERS = 0 := by
  constructor
  · rintro ⟨s', hrun, htable⟩
    rw [h] at hrun
    obtain rfl := Option.some.inj hrun
    exact htable.count
  · intro hcount
    exact ⟨s, h, hcount, rfl⟩

/-- On the command line. -/
theorem fetchPeers_leaves (words : List CStr) (s : Sconf) : LeavesPeers words (fetchPeers words s) ↔ PeersFirst words := by
  cases words with
  | nil =>
    have hrun : fetchPeers [] s = some { s with NO_OF_PEERS := 0 } := rfl
    rw [leavesPeers_nil hrun]
    exact ⟨fun _ => peersFirst_nil, fun _ => rfl⟩
  | cons word words =>
    apply leavesPeers_of_table (s := { s with PEER_COMMS_IND := 1 })
    intro s'
    rw [fetchPeers_eq_some, if_neg (List.cons_ne_nil word words)]

/-- A PEERS line with words. -/
def peersLine (words : List CStr) (value : Option Int) : Piece := ⟨Key.PEERS.name :: words, value⟩

theorem peersLine_key (words : List CStr) (value : Option Int) : (peersLine words value).key = some .PEERS :=
  keyOf_name .PEERS

/-- Without peers on the command line nothing is stored, and nothing counted. -/
theorem fetchCmndLine_nil {switches : List Switch} {bbfile : CStr} {s : Sconf}
    (h : fetchCmndLine switches [] (startConf bbfile) = some s) : s.NO_OF_PEERS = 0 ∧ s.PEER_COMMS_IND = 0 := by
  obtain ⟨s₁, hswitches, hpeers⟩ := Option.bind_eq_some_iff.1 h
  have hkeep : Setting.Last fetchSwitch Sconf.PEER_COMMS_IND fun _ => none := by
    intro s s' w hstep
    cases w with
    | c optarg =>
      obtain ⟨-, hs'⟩ := Option.ite_none_right_eq_some.1 hstep
      rw [← Option.some.inj hs']
      rfl
    | b optarg =>
      obtain ⟨-, hs'⟩ := Option.ite_none_right_eq_some.1 hstep
      rw [← Option.some.inj hs']
      rfl
    | _ =>
      rw [← Option.some.inj hstep]
      rfl
  have hnone : (switches.reverse.findSome? fun _ => (none : Option Int)) = none := by simp
  have hcomms := hkeep.run hswitches
  rw [hnone] at hcomms
  have hzero : s = { s₁ with NO_OF_PEERS := 0 } := (Option.some.inj hpeers).symm
  rw [hzero]
  exact ⟨rfl, hcomms⟩

/-- What the two others do with the words of a PEERS line. -/
theorem configPeers_leaves (words : List CStr) {s : Sconf} (hcount : s.NO_OF_PEERS = 0) :
    LeavesPeers words ((configPeers 0 words { s with peer_info := List.replicate words.length none }).map fun s =>
      { s with PEER_COMMS_IND := 2 }) ↔ PeersFirst words := by
  apply leavesPeers_of_table (s := { s with PEER_COMMS_IND := 2 })
  intro s'
  have hnew := fun s₁ => @configPeers_new words { s with peer_info := List.replicate words.length none } s₁ rfl
  have hsum : s.NO_OF_PEERS + colonCount words = colonCount words := by rw [hcount, Int.zero_add]
  rw [Option.map_eq_some_iff]
  constructor
  · rintro ⟨s₁, hrun, rfl⟩
    obtain ⟨hstorable, rfl⟩ := (hnew s₁).1 hrun
    refine ⟨hstorable, ?_⟩
    dsimp only
    rw [hsum]
  · rintro ⟨hstorable, rfl⟩
    refine ⟨_, (hnew _).2 ⟨hstorable, rfl⟩, ?_⟩
    dsimp only
    rw [hsum]

theorem peersLine_length (word : CStr) (words : List CStr) (value : Option Int) :
    (peersLine (word :: words) value).words.length > 1 := by
  show (Key.PEERS.name :: word :: words).length > 1
  rw [List.length_cons, List.length_cons]
  omega

/-- In a PEERS line, when the server starts. -/
theorem fetchRound_leaves (words : List CStr) (value : Option Int) (ind : Inds) {s : Sconf} (hcount : s.NO_OF_PEERS = 0)
    (hind : s.PEER_COMMS_IND = 0) :
    LeavesPeers words ((fetchRound (peersLine words value) ind s).map RoundEnd.conf) ↔ PeersFirst words := by
  rw [fetchRound, peersLine_key]
  dsimp only
  cases words with
  | nil =>
    apply (leavesPeers_nil (s := s) rfl).trans
    exact ⟨fun _ => peersFirst_nil, fun _ => hcount⟩
  | cons word words =>
    rw [if_pos (peersLine_length word words value), if_pos hind, Option.map_map]
    exact configPeers_leaves (word :: words) hcount

/-- In a PEERS line, on a SIGHUP. -/
theorem forceRound_leaves (words : List CStr) (value : Option Int) (ind : Inds) (s : Sconf) :
    LeavesPeers words ((forceRound (peersLine words value) ind s).map RoundEnd.conf) ↔
      PeersFirst words ∧ (words = [] → s.NO_OF_PEERS = 0) := by
  rw [forceRound, peersLine_key]
  dsimp only
  cases words with
  | nil =>
    apply (leavesPeers_nil (s := s) rfl).trans
    exact ⟨fun hcount => ⟨peersFirst_nil, fun _ => hcount⟩, fun h => h.2 rfl⟩
  | cons word words =>
    have hnil : (word :: words = [] → s.NO_OF_PEERS = 0) ↔ True := by simp
    rw [if_pos (peersLine_length word words value), Option.map_map, hnil, and_true]
    exact configPeers_leaves (word :: words) (s := { s with NO_OF_PEERS := 0 }) rfl

end BulletinBoard
