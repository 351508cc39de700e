import BulletinBoard.WriteRead

/- The name of a client session. USER sets the name and looks for a slash in it afterwards, and
   only in the first one, so that a refused name stays and a later one is not even refused.
   No other request touches the name, whatever the peers of the server answer. -/
namespace BulletinBoard

/-- A request line of a session, and what it is answered. -/
inductive ClientStep (client : Client) : CStr × CStr → Client → Prop where
  | user {line : CStr} : requestKind line = "user".toList →
      ClientStep client (line, (userCommand (commandOf line) client).2) (userCommand (commandOf line) client).1
  | other {line response : CStr} : requestKind line ≠ "user".toList → ClientStep client (line, response) client

/-- What `server_operations` makes of the session. -/
theorem serverOperations_client {junk : Junk} {line response : CStr} {client client' : Client} {g g' : NumGen}
    {d d' : Disk} (h : serverOperations junk line client g d = some (response, client', g', d')) :
    ClientStep client (line, response) client' := by
  by_cases huser : requestKind line = "user".toList
  · rw [serverOperations_user huser] at h
    simp only [Option.some.injEq, Prod.mk.injEq] at h
    obtain ⟨rfl, rfl, -, -⟩ := h
    exact .user huser
  · have hsame : client' = client := by
      rw [serverOperations] at h
      dsimp only at h
      rw [← requestKind, if_neg huser] at h
      split at h
      · simp only [Option.some.injEq, Prod.mk.injEq] at h
        exact h.2.1.symm
      · split at h
        · obtain ⟨r, -, hr⟩ := Option.map_eq_some_iff.1 h
          exact (congrArg (fun r => r.2.1) hr).symm
        · split at h
          · obtain ⟨r, -, hr⟩ := Option.map_eq_some_iff.1 h
            exact (congrArg (fun r => r.2.1) hr).symm
          · split at h
            · obtain ⟨r, -, hr⟩ := Option.map_eq_some_iff.1 h
              exact (congrArg (fun r => r.2.1) hr).symm
            · simp only [Option.some.injEq, Prod.mk.injEq] at h
              exact h.2.1.symm
    rw [hsame]
    exact .other huser

/-- The name has no slash in it. -/
def SlashFree (client : Client) : Prop := '/' ∉ client.user

/-- An answer to USER that is an error. -/
def IsUserError (response : CStr) : Prop := "ERR".toList <+: response

/-- A USER line that is answered with an error leaves the name. -/
def KeepsName (client : Client) (line : CStr) : Prop :=
  requestKind line = "user".toList → IsUserError (userCommand (commandOf line) client).2 →
    (userCommand (commandOf line) client).1.user = client.user

/-- A USER line has no slash in a name. -/
def NoSlashName (line : CStr) : Prop :=
  requestKind line = "user".toList → ∀ w ∈ (commandOf line).drop 1, '/' ∉ w

section
variable {client client' : Client} {line : CStr} {command : List CStr}

theorem slash_mem_joinWords {words : List CStr} : '/' ∈ joinWords words ↔ ∃ w ∈ words, '/' ∈ w := by
  constructor
  · intro h
    exact (mem_joinWords h).resolve_left (by decide)
  · rintro ⟨w, hw, hc⟩
    exact List.mem_flatMap.2 ⟨w, hw, List.mem_cons_of_mem ' ' hc⟩

theorem not_isUserError_hello (user : CStr) : ¬ IsUserError (helloResponse user) := by
  rintro ⟨r, hr⟩
  have hhead := congrArg List.head? hr
  have herr : ("ERR".toList ++ r).head? = some 'E' := rfl
  have hhello : (helloResponse user).head? = some '1' := rfl
  rw [herr, hhello] at hhead
  exact absurd hhead (by decide)

theorem one_lt_length_of_drop (h : command.drop 1 ≠ []) : command.length > 1 := by
  have hpos := List.length_pos_of_ne_nil h
  rw [List.length_drop] at hpos
  omega

/-- The name that a USER line with one sets. -/
theorem userCommand_user (client : Client) (h : command.drop 1 ≠ []) :
    (userCommand command client).1.user = joinWords (command.drop 1) := by
  rw [userCommand, if_pos (one_lt_length_of_drop h)]
  dsimp only
  split
  · rfl
  · rfl

theorem userCommand_nothing (client : Client) (h : command.drop 1 = []) :
    userCommand command client = (client, noNameResponse) := by
  have hlen : ¬ command.length > 1 := by
    have hzero := congrArg List.length h
    rw [List.length_drop, List.length_nil] at hzero
    omega
  rw [userCommand, if_neg hlen]

/-- A USER line without a slash in its names is answered with an error only when it has none. -/
theorem userCommand_hello (client : Client) (h : command.drop 1 ≠ []) (hslash : ∀ w ∈ command.drop 1, '/' ∉ w) :
    (userCommand command client).2 = helloResponse (joinWords (command.drop 1)) := by
  have hnone : '/' ∉ joinWords (command.drop 1) := by
    intro hmem
    obtain ⟨w, hw, hc⟩ := slash_mem_joinWords.1 hmem
    exact hslash w hw hc
  rw [userCommand, if_pos (one_lt_length_of_drop h)]
  dsimp only
  rw [if_neg hnone]
  split
  · rfl
  · rfl

/-- A line without a slash in a name keeps the name free of them. -/
theorem ClientStep.slashFree {p : CStr × CStr} (h : ClientStep client p client') (hok : NoSlashName p.1)
    (hc : SlashFree client) : SlashFree client' := by
  cases h with
  | other _ => exact hc
  | @user line hkind =>
    by_cases hnil : (commandOf line).drop 1 = []
    · rw [userCommand_nothing client hnil]
      exact hc
    · rw [SlashFree, userCommand_user client hnil]
      intro hmem
      obtain ⟨w, hw, hs⟩ := slash_mem_joinWords.1 hmem
      exact hok hkind w hw hs

/-- What a USER line with a name leaves. -/
theorem ClientStep.sets_name {p : CStr × CStr} (h : ClientStep client p client')
    (hkind : requestKind p.1 = "user".toList) (hne : (commandOf p.1).drop 1 ≠ []) :
    client'.user = joinWords ((commandOf p.1).drop 1) := by
  cases h with
  | user _ => exact userCommand_user client hne
  | other hother => exact absurd hkind hother

theorem NoSlashName.keepsName (h : NoSlashName line) (client : Client) : KeepsName client line := by
  intro hkind herror
  by_cases hnil : (commandOf line).drop 1 = []
  · rw [userCommand_nothing client hnil]
  · rw [userCommand_hello client hnil (h hkind)] at herror
    exact absurd herror (not_isUserError_hello _)

/-- **The name of a session** never contains a slash, and stays when USER is refused, exactly in the
    sessions in which no USER line has a slash in a name. -/
theorem user_names_iff {tr : List (Client × (CStr × CStr))} (hrun : Runs.Run ClientStep Client.start tr client) :
    (SlashFree client ∧ ∀ p ∈ tr, SlashFree p.1 ∧ KeepsName p.1 p.2.1) ↔ ∀ p ∈ tr, NoSlashName p.2.1 := by
  constructor
  · rintro ⟨hlast, hall⟩ p hp hkind w hw hslash
    obtain ⟨client', hstep, hnext⟩ := hrun.mem_step p hp
    have hnone : SlashFree client' := by
      rcases hnext with rfl | ⟨q, hq, rfl⟩
      · exact hlast
      · exact (hall q hq).1
    rw [SlashFree, hstep.sets_name hkind (List.ne_nil_of_mem hw)] at hnone
    exact hnone (slash_mem_joinWords.2 ⟨w, hw, hslash⟩)
  · intro hok
    have hguard : Runs.Guarded (fun _ (p : CStr × CStr) => NoSlashName p.1) tr := hok
    have hstart : SlashFree Client.start := by
      unfold SlashFree
      decide
    have hstep : ∀ (s : Client) (p : CStr × CStr) (s' : Client), SlashFree s → NoSlashName p.1 →
        ClientStep s p s' → SlashFree s' := fun _ _ _ hc hok h => h.slashFree hok hc
    exact ⟨hrun.inv hstart hstep hguard,
      fun p hp => ⟨hrun.inv_mem hstart hstep hguard p hp, (hok p hp).keepsName p.1⟩⟩

end

/-! Two sessions of one line. -/

/-- After `USER al`. -/
theorem user_names_al : ∃ tr client, Runs.Run ClientStep Client.start tr client ∧
    client.user = " al".toList ∧ SlashFree client := by
  have hkind : requestKind "USER al\r".toList = "user".toList := by decide +kernel
  have hstep := @ClientStep.user Client.start _ hkind
  have hrun := Runs.Run.nil.snoc hstep
  have huser : (userCommand (commandOf "USER al\r".toList) Client.start).1.user = " al".toList := by decide +kernel
  have hok : ∀ p ∈ [] ++ [(Client.start, ("USER al\r".toList,
      (userCommand (commandOf "USER al\r".toList) Client.start).2))], NoSlashName p.2.1 := by
    intro p hp _
    obtain rfl := List.mem_singleton.1 hp
    have hcommand : (commandOf "USER al\r".toList).drop 1 = ["al".toList] := by decide +kernel
    rw [hcommand]
    decide
  exact ⟨_, _, hrun, huser, ((user_names_iff hrun).2 hok).1⟩

/-- `USER a/b` is answered with an error, and the name is set. -/
theorem user_name_slash : ∃ tr client, Runs.Run ClientStep Client.start tr client ∧ ¬ SlashFree client ∧
    ∃ p ∈ tr, ¬ KeepsName p.1 p.2.1 := by
  have hkind : requestKind "USER a/b\r".toList = "user".toList := by decide +kernel
  have hstep := @ClientStep.user Client.start _ hkind
  have hcommand : userCommand (commandOf "USER a/b\r".toList) Client.start = (⟨" a/b".toList, true⟩, slashResponse) := by
    decide +kernel
  refine ⟨_, _, Runs.Run.nil.snoc hstep, ?_, _, List.mem_append_right _ (List.mem_singleton_self _), ?_⟩
  · rw [hcommand, SlashFree]
    decide
  · intro hkeeps
    have hsame := hkeeps hkind
    rw [hcommand] at hsame
    exact absurd (hsame ⟨_, rfl⟩) (by decide)

end BulletinBoard
