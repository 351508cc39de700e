import BulletinBoard.PeerOperations
import BulletinBoard.Failures
import BulletinBoard.Lib.Run

/- What an ABORT undoes in a session whose COMMITs were all refused. Only a COMMIT that is answered
   `positive` sets the undo buffers, which the source leaves uninitialised: until then they hold
   what the stack held, and an ABORT obeys it. Only contents that do not spell `write` or `replace`
   make it harmless. -/
namespace BulletinBoard

/-- A new session, with what its undo buffers hold. -/
def Peer.startWith (undo_command undo_nmbr undo_user undo_message : CStr) : Peer :=
  ⟨.ready, "nobody".toList, undo_command, undo_nmbr, undo_user, undo_message⟩

/-- The command of a request line. -/
def peerCommand (line : CStr) : CStr := tolwr ((commandOf line).getD 0 [])

/-- A request of a session and its answer, on whatever file the others have left. -/
inductive PeerStep (p : Peer) : CStr × Option PeerReply → Peer → Prop where
  | request {junk : Junk} {line : CStr} {d d' : Disk} {p' : Peer} {reply : Option PeerReply} :
      p.pc = .ready → p.run junk line d = some (p', reply, d') → PeerStep p (line, reply) p'

/-- A request that is no COMMIT answered `positive`. -/
def NotCommitted (r : CStr × Option PeerReply) : Prop := peerCommand r.1 = "commit".toList → r.2 ≠ some .positive

/-- Whatever the file, an ABORT leaves it alone. -/
def HarmlessAbort (p : Peer) : Prop :=
  ∀ (junk : Junk) (line : CStr) (d : Disk), peerCommand line = "abort".toList →
    ∃ p' reply d', p.run junk line d = some (p', reply, d') ∧ d'.bbfile = d.bbfile

/-- The undo buffer spells a command. -/
def SpellsUndo (undo_command : CStr) : Prop := undo_command = "write".toList ∨ undo_command = "replace".toList

/-! The undo buffer over a request. -/

section
variable {p p' : Peer} {junk : Junk} {nmbr message : CStr} {reply reply' : Option PeerReply} {d d' : Disk}

/-- Behind its check a COMMIT of a REPLACE is answered `positive`, whatever its file operations do. -/
theorem finish_replace_undo (h : Peer.finish junk 4 ({ p with pc := .replaceCheck nmbr message }, none, d) =
    some (p', reply', d')) : reply' = some .positive ∨ p'.undo_command = p.undo_command := by
  rw [Peer.finish_replaceCheck] at h
  obtain ⟨⟨⟨read_return, text⟩, d₁⟩, -, hend⟩ := Option.bind_eq_some_iff.1 h
  dsimp only at hend
  split at hend
  · simp only [Option.some.injEq, Prod.mk.injEq] at hend
    obtain ⟨rfl, -, -⟩ := hend
    exact Or.inr rfl
  · obtain ⟨⟨⟨n, user, saved⟩, d₂⟩, -, hend⟩ := Option.bind_eq_some_iff.1 hend
    obtain ⟨⟨del_ret, d₃⟩, -, hend⟩ := Option.map_eq_some_iff.1 hend
    simp only [Prod.mk.injEq] at hend
    exact Or.inl hend.2.1.symm

theorem finish_write_undo (h : Peer.finish junk 4 ({ p with pc := .writeCheck nmbr message }, none, d) =
    some (p', reply', d')) : reply' = some .positive ∨ p'.undo_command = p.undo_command := by
  rw [Peer.finish_writeCheck] at h
  obtain ⟨⟨⟨read_return, text⟩, d₁⟩, -, hend⟩ := Option.map_eq_some_iff.1 h
  dsimp only at hend
  split at hend
  · -- the number is free
    split at hend
    · simp only [Prod.mk.injEq] at hend
      exact Or.inl hend.2.1.symm
    · simp only [Prod.mk.injEq] at hend
      obtain ⟨rfl, -, -⟩ := hend
      exact Or.inr rfl
  · simp only [Prod.mk.injEq] at hend
    obtain ⟨rfl, -, -⟩ := hend
    exact Or.inr rfl

/-- A request that takes no file operation. -/
theorem finish_closed (h : Peer.finish junk 4 ({ p with pc := .closed }, reply, d) = some (p', reply', d')) :
    p'.undo_command = p.undo_command := by
  rw [Peer.finish_done (Or.inr rfl)] at h
  simp only [Option.some.injEq, Prod.mk.injEq] at h
  obtain ⟨rfl, -, -⟩ := h
  rfl

theorem run_commit_undo {line : CStr} (hkind : peerCommand line = "commit".toList)
    (h : p.run junk line d = some (p', reply, d')) :
    reply = some .positive ∨ p'.undo_command = p.undo_command := by
  rw [Peer.run, Peer.request_of_commit junk.line hkind, Peer.commit] at h
  dsimp only at h
  split at h
  · split at h
    · split at h
      · exact finish_write_undo h
      · exact Or.inr (finish_closed h)
    · split at h
      · split at h
        · split at h
          · exact finish_replace_undo h
          · exact Or.inr (finish_closed h)
        · exact Or.inr (finish_closed h)
      · exact Or.inr (finish_closed h)
  · exact Or.inr (finish_closed h)

/-- Only a COMMIT that is answered `positive` sets what an ABORT undoes. -/
theorem PeerStep.undo {r : CStr × Option PeerReply} (h : PeerStep p r p') (hnot : NotCommitted r)
    (hspells : ¬ SpellsUndo p.undo_command) : p'.undo_command = p.undo_command := by
  cases h with
  | @request junk line d d' _ reply hpc hrun =>
    have hw : p.undo_command ≠ "write".toList := fun hc => hspells (Or.inl hc)
    have hr : p.undo_command ≠ "replace".toList := fun hc => hspells (Or.inr hc)
    by_cases hcommit : peerCommand line = "commit".toList
    · exact (run_commit_undo hcommit hrun).resolve_left (hnot hcommit)
    · by_cases habort : peerCommand line = "abort".toList
      · rw [Peer.run_of_abort_nothing junk d habort hw hr] at hrun
        simp only [Option.some.injEq, Prod.mk.injEq] at hrun
        obtain ⟨rfl, -, -⟩ := hrun
        rfl
      · rw [Peer.run, Peer.request] at hrun
        dsimp only at hrun
        rw [peerCommand] at hcommit habort
        rw [if_neg habort, if_neg hcommit] at hrun
        split at hrun
        · exact finish_closed hrun
        · split at hrun
          · split at hrun
            · have hdone : ({ p with user := textFrom 1 (commandOf line) } : Peer).pc = .ready := hpc
              dsimp only at hrun
              rw [Peer.finish_done (Or.inl hdone)] at hrun
              simp only [Option.some.injEq, Prod.mk.injEq] at hrun
              obtain ⟨rfl, -, -⟩ := hrun
              rfl
            · exact finish_closed hrun
          · exact finish_closed hrun

/-! What an ABORT does with the content of the buffers. -/

theorem harmlessAbort_of_not_spells (hspells : ¬ SpellsUndo p.undo_command) : HarmlessAbort p := by
  intro junk line d habort
  have hw : p.undo_command ≠ "write".toList := fun hc => hspells (Or.inl hc)
  have hr : p.undo_command ≠ "replace".toList := fun hc => hspells (Or.inr hc)
  exact ⟨_, _, _, Peer.run_of_abort_nothing junk d habort hw hr, rfl⟩

/-- A delete on the empty file writes a newline, with no text in its uninitialised buffer. -/
theorem deleteDescriptor_empty (id : CStr) : deleteDescriptor ⟨[], []⟩ id (diskOf []) = some (1, diskOf ['\n']) := by
  have hnone : Without id [] := ⟨by simp, by simp⟩
  have hseek : seekMsgDescriptor [] id (diskOf []) = some ((0, none), diskOf []) :=
    seekMsgDescriptor_absent rfl (openFile_diskOf _) hnone
  rw [deleteDescriptor, hseek]
  rfl

theorem not_harmlessAbort (hspells : SpellsUndo p.undo_command) : ¬ HarmlessAbort p := by
  intro h
  obtain ⟨p', reply, d', hrun, hsame⟩ := h ⟨[], []⟩ "abort ".toList (diskOf []) (by decide)
  have hkind : tolwr ((commandOf "abort ".toList).getD 0 []) = "abort".toList := by decide
  rcases hspells with hw | hr
  · rw [Peer.run_of_abort hkind hw (deleteDescriptor_empty _)] at hrun
    simp only [Option.some.injEq, Prod.mk.injEq] at hrun
    obtain ⟨-, -, rfl⟩ := hrun
    exact absurd hsame (by decide)
  · -- the newline is followed by the line that is written
    have hwrite : writeDescriptor p.undo_nmbr p.undo_user p.undo_message (diskOf ['\n']) =
        (0, diskOf (fileOf ([[]] ++ [mkLine p.undo_nmbr p.undo_user p.undo_message]))) :=
      writeDescriptor_lines (rfl : ['\n'] = fileOf [[]]) _ _ _
    rw [Peer.run_of_abort_replace hkind hr (deleteDescriptor_empty _) (by decide) hwrite] at hrun
    simp only [Option.some.injEq, Prod.mk.injEq] at hrun
    obtain ⟨-, -, rfl⟩ := hrun
    have hlen := congrArg List.length hsame
    simp at hlen

/-- **An ABORT before any COMMIT is answered `positive`** leaves every file alone exactly when the undo
    buffer does not happen to spell a command. -/
theorem stale_undo_iff (undo_command undo_nmbr undo_user undo_message : CStr) :
    (∀ tr p, Runs.Run PeerStep (Peer.startWith undo_command undo_nmbr undo_user undo_message) tr p →
        (∀ q ∈ tr, NotCommitted q.2) → HarmlessAbort p) ↔ ¬ SpellsUndo undo_command := by
  constructor
  · intro h hspells
    exact not_harmlessAbort hspells (h [] _ .nil (by simp))
  · intro hspells tr p hrun hok
    apply harmlessAbort_of_not_spells
    have hstep : ∀ (p : Peer) (r : CStr × Option PeerReply) (p' : Peer), ¬ SpellsUndo p.undo_command →
        NotCommitted r → PeerStep p r p' → ¬ SpellsUndo p'.undo_command := by
      intro p r p' hp hnot hs
      rw [hs.undo hnot hp]
      exact hp
    have hguard : Runs.Guarded (fun _ r => NotCommitted r) tr := hok
    exact @Runs.Run.inv _ _ _ _ _ _ (fun p => ¬ SpellsUndo p.undo_command) _ hspells hstep hrun hguard

end

/-- A session whose buffers still hold the WRITE of another one: the first request deletes its line. -/
theorem stale_undo_write : ∃ p' d', (Peer.startWith "write".toList ['1'] [] []).run ⟨[], []⟩ "abort ".toList
      (diskOf (fileOf ["1/u/m".toList])) = some (p', none, d') ∧
    d'.bbfile = fileOf [deletedLine 5] ∧ d'.bbfile ≠ fileOf ["1/u/m".toList] := by
  have hdel : deleteDescriptor ⟨[], []⟩ ['1'] (diskOf (fileOf ["1/u/m".toList])) =
      some (6, diskOf (fileOf [deletedLine 5])) := by decide +kernel
  exact ⟨_, _, Peer.run_of_abort (by decide) rfl hdel, rfl, by decide +kernel⟩

end BulletinBoard
