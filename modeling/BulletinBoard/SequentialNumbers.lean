import BulletinBoard.ErrorAnswers
import BulletinBoard.Housekeeping

/- Numbering without overlap. A server without peers works on one request after another. Between
   two requests no entry of `temp_list` is above the largest number on file: a WRITE records
   the largest number or the one above it, and at its end the one above is on file or its
   entry is cleared. So a number is always the largest on file and one more, however many
   stale entries the list has. -/
namespace BulletinBoard

/-! Requests one after another. -/

/-- The file and the generator of a server without peers, between two requests. -/
structure Alone where
  bbfile : List Char
  gen_on_queue : NumGen

/-- A request line of a session, with the outcomes of its opens and its uninitialised buffers. -/
structure ClientRequest where
  line : CStr
  client : Client
  opens : List OpenResult
  junk : Junk

/-- One request, of any session. -/
inductive RequestStep : Alone → ClientRequest → Alone → Prop where
  | intro {s : Alone} {r : ClientRequest} {response : CStr} {client : Client} {g : NumGen} {d : Disk} :
      Received r.line → r.client.Fits →
      serverOperations r.junk r.line r.client s.gen_on_queue ⟨s.bbfile, r.opens⟩ = some (response, client, g, d) →
      RequestStep s r ⟨d.bbfile, g⟩

def Alone.start (b : Board) : Alone := ⟨b.bytes, ⟨[]⟩⟩

/-- A REPLACE that changes the file makes its number's line a deleted one and puts the new line
    last. -/
def ReplaceSucceeds (s : Alone) (r : ClientRequest) : Prop :=
  requestKind r.line = "replace".toList → ∀ response d,
    replaceCommand r.junk (commandOf r.line) r.client ⟨s.bbfile, r.opens⟩ = some (response, d) →
      d.bbfile = s.bbfile ∨ ∃ message, replMessage (replaceTokens (commandOf r.line)) = some message ∧
        lineOf ((replaceTokens (commandOf r.line)).getD 0 []) (linesOf s.bbfile) ≠ none ∧
        d.bbfile = fileOf (deleteIn ((replaceTokens (commandOf r.line)).getD 0 []) (linesOf s.bbfile) ++
          [mkLine ((replaceTokens (commandOf r.line)).getD 0 []) r.client.user message])

/-- The largest number of a live line, 0 when there is none. -/
def largestNumber (ls : List CStr) : Nat :=
  ls.foldl (fun m l => if IsNumeral (firstField l) then max m (numeralValue (firstField l)) else m) 0

/-- Every line number is an `int`. -/
def NumbersInInt (file : List Char) : Prop :=
  ∀ l ∈ linesOf file, IsNumeral (firstField l) → (numeralValue (firstField l) : Int) ≤ INT_MAX

/-- The list has room for one more number, and the number that it and the file give is the largest
    one and one more. -/
def Alone.Sequential (s : Alone) : Prop :=
  s.gen_on_queue.count < MAX_LEN ∧ ∀ junk opens num g d, opens.head? ≠ some .fails →
    generateNumber junk s.gen_on_queue ⟨s.bbfile, opens⟩ = some (num, g, d) →
      num = largestNumber (linesOf s.bbfile) + 1

/-! The invariant. -/

structure SequentialInv (ls : List CStr) (L : List Int) : Prop where
  clean : ∀ l ∈ ls, Clean l
  plain : ∀ l ∈ ls, IsNumeral (firstField l) ∨ atoi (firstField l) ≤ 0
  le : ∀ x ∈ L, x ≤ maxNumber ls

section
variable {ls : List CStr} {L : List Int}

theorem SequentialInv.start (b : Board) : SequentialInv b.texts [] where
  clean := b.texts_clean
  plain := by
    intro l hl
    obtain ⟨x, -, rfl⟩ := List.mem_map.1 hl
    cases x with
    | deleted n pos lt => exact .inr (le_of_eq (atoi_deletedLine n))
    | live l =>
      rw [BoardLine.text, l.firstField]
      exact .inl l.ok.id_numeral
  le := by simp

theorem atoi_numeral {id : CStr} (hid : IsNumeral id) (hint : (numeralValue id : Int) ≤ INT_MAX) :
    atoi id = numeralValue id := by
  have hlong : (numeralValue id : Int) ≤ LONG_MAX := by
    unfold INT_MAX at hint
    unfold LONG_MAX
    omega
  rw [atoi, strtol_numeral hid, min_eq_right hlong, toInt_of_range (Int.natCast_nonneg _) hint]

/-- Within `int` the scan finds the largest number. -/
theorem maxNumber_eq_largest (hp : ∀ l ∈ ls, IsNumeral (firstField l) ∨ atoi (firstField l) ≤ 0)
    (hint : ∀ l ∈ ls, IsNumeral (firstField l) → (numeralValue (firstField l) : Int) ≤ INT_MAX) :
    maxNumber ls = largestNumber ls := by
  induction ls using List.reverseRecOn with
  | nil => rfl
  | append_singleton ls l ih =>
    have ih := ih (fun x hx => hp x (by simp [hx])) (fun x hx => hint x (by simp [hx]))
    have hlargest : largestNumber (ls ++ [l]) = if IsNumeral (firstField l) then
        max (largestNumber ls) (numeralValue (firstField l)) else largestNumber ls := by
      simp [largestNumber, List.foldl_append]
    rw [maxNumber_append, hlargest, ih]
    by_cases hl : IsNumeral (firstField l)
    · rw [if_pos hl, atoi_numeral hl (hint l (by simp) hl)]
      exact (Nat.cast_max _ _).symm
    · have hle := (hp l (by simp)).resolve_left hl
      rw [if_neg hl]
      omega

/-! What a request does to the list. -/

/-- The generator records the largest number or the one above it, and returns the one above. -/
theorem SequentialInv.generate (h : SequentialInv ls L) (junk : List Char) {d d' : Disk} (hd : d.bbfile = fileOf ls)
    (ho : d.openFile = (some ⟨d.bbfile, false⟩, d')) : ∃ x, (x = maxNumber ls ∨ x = maxNumber ls + 1) ∧
      generateNumber junk ⟨L⟩ d = some (maxNumber ls + 1, ⟨L ++ [x]⟩, d') := by
  obtain ⟨k, hgen, hin, -, -⟩ := generateNumber_lines junk L hd h.clean ho
  have hk : k = 0 ∨ k = 1 := by
    by_contra hk
    have hle := h.le _ (hin 1 (by omega))
    omega
  obtain rfl | rfl := hk
  · exact ⟨maxNumber ls, .inl rfl, by simpa using hgen⟩
  · exact ⟨maxNumber ls + 1, .inr rfl, by simpa using hgen⟩

/-- With its open failing it answers -2, and the list stays. -/
theorem SequentialInv.generate_cases (h : SequentialInv ls L) {junk : List Char} {opens : List OpenResult} {num : Int}
    {g : NumGen} {d : Disk} (hgen : generateNumber junk ⟨L⟩ ⟨fileOf ls, opens⟩ = some (num, g, d)) :
    d.bbfile = fileOf ls ∧ ((opens.head? = some .fails ∧ num = -2 ∧ g = ⟨L⟩) ∨
      (num = maxNumber ls + 1 ∧ ∃ x, (x = maxNumber ls ∨ x = maxNumber ls + 1) ∧ g = ⟨L ++ [x]⟩)) := by
  have hopened : ∀ {d'}, Disk.openFile ⟨fileOf ls, opens⟩ = (some ⟨fileOf ls, false⟩, d') →
      d'.bbfile = fileOf ls → d.bbfile = fileOf ls ∧ ((opens.head? = some .fails ∧ num = -2 ∧ g = ⟨L⟩) ∨
      (num = maxNumber ls + 1 ∧ ∃ x, (x = maxNumber ls ∨ x = maxNumber ls + 1) ∧ g = ⟨L ++ [x]⟩)) := by
    intro d' ho hd'
    obtain ⟨x, hx, hgen'⟩ := @SequentialInv.generate ls L h junk ⟨fileOf ls, opens⟩ d' rfl ho
    rw [hgen'] at hgen
    simp only [Option.some.injEq, Prod.mk.injEq] at hgen
    obtain ⟨rfl, rfl, rfl⟩ := hgen
    exact ⟨hd', .inr ⟨rfl, x, hx, rfl⟩⟩
  cases opens with
  | nil => exact hopened rfl rfl
  | cons o opens =>
    cases o with
    | ok => exact hopened rfl rfl
    | fails =>
      simp only [generateNumber, Disk.openFile, Option.some.injEq, Prod.mk.injEq] at hgen
      obtain ⟨rfl, rfl, rfl⟩ := hgen
      exact ⟨rfl, .inl ⟨rfl, rfl, rfl⟩⟩
    | readFails k =>
      simp only [generateNumber, Disk.openFile, scanMax_fails] at hgen
      cases hgen

theorem releaseNumber_le {m : Int} (num : Int) (h₀ : 0 ≤ m) (h : ∀ x ∈ L, x ≤ m) :
    ∀ x ∈ (releaseNumber num ⟨L⟩).2.temp_list, x ≤ m := by
  unfold releaseNumber
  split
  · intro x hx
    rcases List.mem_or_eq_of_mem_set hx with hx | rfl
    · exact h x hx
    · exact h₀
  · exact h

/-- The number above the largest is recorded last if at all, and releasing it clears its entry. -/
theorem releaseNumber_above {m x : Int} (h₀ : 0 ≤ m) (h : ∀ y ∈ L, y ≤ m) (hx : x = m ∨ x = m + 1) :
    ∀ y ∈ (releaseNumber (m + 1) ⟨L ++ [x]⟩).2.temp_list, y ≤ m := by
  have hnot : m + 1 ∉ L := fun hm => absurd (h _ hm) (by omega)
  obtain rfl | rfl := hx
  · refine releaseNumber_le _ h₀ fun y hy => ?_
    rcases List.mem_append.1 hy with hy | hy
    · exact h y hy
    · exact le_of_eq (List.mem_singleton.1 hy)
  · have hset : (L ++ [m + 1]).set ((L ++ [m + 1]).idxOf (m + 1)) 0 = L ++ [0] := by
      rw [List.idxOf_append_of_notMem hnot]
      simp
    rw [releaseNumber, if_pos (by simp)]
    dsimp only
    rw [hset]
    intro y hy
    rcases List.mem_append.1 hy with hy | hy
    · exact h y hy
    · exact (List.mem_singleton.1 hy).symm ▸ h₀

/-- An appended line. -/
theorem SequentialInv.append (h : SequentialInv ls L) {l : CStr} {L' : List Int} (hl : Clean l)
    (hp : IsNumeral (firstField l) ∨ atoi (firstField l) ≤ 0)
    (hle : ∀ x ∈ L', x ≤ max (maxNumber ls) (atoi (firstField l))) : SequentialInv (ls ++ [l]) L' where
  clean := clean_snoc h.clean hl
  plain := by
    intro x hx
    rcases List.mem_append.1 hx with hx | hx
    · exact h.plain x hx
    · exact List.mem_singleton.1 hx ▸ hp
  le := by
    intro x hx
    rw [maxNumber_append]
    exact hle x hx

/-- A replaced line: the number stays on file. -/
theorem SequentialInv.replace (h : SequentialInv ls L) {l : CStr} (hl : Clean l)
    (hlive : lineOf (firstField l) ls ≠ none) : SequentialInv (deleteIn (firstField l) ls ++ [l]) L := by
  obtain ⟨old, hold⟩ := Option.ne_none_iff_exists'.1 hlive
  obtain ⟨hmem, hfield⟩ := lineOf_some hold
  have hdeleted : ∀ x ∈ deleteIn (firstField l) ls, IsNumeral (firstField x) ∨ atoi (firstField x) ≤ 0 := by
    intro x hx
    rcases mem_of_mem_deleteIn hx with hx | ⟨n, rfl⟩
    · exact h.plain x hx
    · exact .inr (le_of_eq (atoi_deletedLine n))
  refine ⟨clean_snoc (deleteIn_clean h.clean) hl, ?_, ?_⟩
  · intro x hx
    rcases List.mem_append.1 hx with hx | hx
    · exact hdeleted x hx
    · obtain rfl := List.mem_singleton.1 hx
      exact hfield ▸ h.plain old hmem
  · have hmax : maxNumber ls ≤ maxNumber (deleteIn (firstField l) ls ++ [l]) := by
      rcases maxNumber_attained ls with ⟨x, hx, hxm⟩ | hzero
      · rw [← hxm]
        apply le_maxNumber
        by_cases hk : firstField x = firstField l
        · exact ⟨l, by simp, by rw [hk]⟩
        · exact ⟨x, List.mem_append_left _ (mem_deleteIn hx hk), rfl⟩
      · rw [hzero]
        exact maxNumber_nonneg _
    exact fun x hx => (h.le x hx).trans hmax

/-! What a request does to the file. -/

theorem syncWriteAlone_file {junk : Junk} {nmbr poster message : CStr} {d d' : Disk} {ret : Int}
    (hd : d.bbfile = fileOf ls) (h : syncWriteAlone junk nmbr poster message d = some (ret, d')) :
    d'.bbfile = fileOf (ls ++ [mkLine nmbr poster message]) ∨ ret = -1 ∧ d'.bbfile = fileOf ls := by
  rw [syncWriteAlone] at h
  dsimp only at h
  rcases writeDescriptor_cases nmbr poster message hd with ⟨hret, hfile⟩ | ⟨hret, hfile⟩
  · rw [hret, if_neg (by decide)] at h
    split at h
    · cases h
    · next hread =>
      simp only [Option.some.injEq, Prod.mk.injEq] at h
      rw [← h.2, readDescriptor_disk hread, openFile_bbfile]
      exact .inl hfile
  · rw [hret, if_pos (by decide)] at h
    simp only [Option.some.injEq, Prod.mk.injEq] at h
    exact .inr ⟨h.1.symm, h.2 ▸ hfile⟩

theorem unbroken_showInt (num : Int) : Unbroken (showInt num) := by
  have hno : ∀ x : Char, x ≠ '-' → x.isDigit = false → x ∉ showInt num := by
    intro x hx hd hm
    rcases showInt_chars hm with rfl | h
    · exact hx rfl
    · rw [hd] at h
      cases h
  exact ⟨hno _ (by decide) (by decide), hno _ (by decide) (by decide)⟩

/-- What a WRITE asks of the number that it got, and of the list after its `generate_number`. -/
inductive Numbered (ls : List CStr) (L : List Int) : Int → List Int → Prop where
  | failed : Numbered ls L (-2) L
  | above {x : Int} : x = maxNumber ls ∨ x = maxNumber ls + 1 → Numbered ls L (maxNumber ls + 1) (L ++ [x])

theorem Numbered.length_le {num : Int} {L' : List Int} (h : Numbered ls L num L') : (showInt num).length ≤ 20 := by
  cases h with
  | failed => decide
  | above _ =>
    have h₀ := maxNumber_nonneg ls
    have hle := maxNumber_le ls
    unfold INT_MAX at hle
    exact showInt_length_le (by omega) (by norm_num; omega)

/-- The line is appended: its number is now the largest, whether the WRITE gives it back or not. -/
theorem SequentialInv.append_number (h : SequentialInv ls L) {num : Int} {L' L'' : List Int} {l : CStr}
    (hnum : Numbered ls L num L') (hL : L'' = L' ∨ L'' = (releaseNumber num ⟨L'⟩).2.temp_list) (hl : Clean l)
    (hk : firstField l = showInt num) (hint : IsNumeral (firstField l) → (numeralValue (firstField l) : Int) ≤ INT_MAX) :
    SequentialInv (ls ++ [l]) L'' := by
  have h₀ := maxNumber_nonneg ls
  have hentries : ∀ m, 0 ≤ m → (∀ x ∈ L', x ≤ m) → ∀ x ∈ L'', x ≤ m := by
    intro m hm hle
    obtain rfl | rfl := hL
    · exact hle
    · exact releaseNumber_le num hm hle
  cases hnum with
  | failed =>
    have hatoi : atoi (firstField l) ≤ 0 := by
      rw [hk]
      decide
    refine h.append hl (.inr hatoi) (hentries _ (le_max_of_le_left h₀) ?_)
    exact fun x hx => le_max_of_le_left (h.le x hx)
  | above hx =>
    have hid : IsNumeral (firstField l) := by
      rw [hk]
      exact showInt_isNumeral (by omega)
    have hatoi : atoi (firstField l) = maxNumber ls + 1 := by
      rw [atoi_numeral hid (hint hid), hk]
      obtain ⟨n, hn⟩ := Int.eq_ofNat_of_zero_le (show 0 ≤ maxNumber ls + 1 by omega)
      rw [hn, numeralValue_showInt]
    refine h.append hl (.inl hid) (hentries _ (le_max_of_le_left h₀) ?_)
    rw [hatoi]
    intro y hy
    rcases List.mem_append.1 hy with hy | hy
    · exact le_max_of_le_left (h.le y hy)
    · obtain rfl := List.mem_singleton.1 hy
      apply le_max_of_le_right
      omega

/-- The line is not appended, and the WRITE gives its number back. -/
theorem SequentialInv.release_number (h : SequentialInv ls L) {num : Int} {L' : List Int} (hnum : Numbered ls L num L') :
    SequentialInv ls (releaseNumber num ⟨L'⟩).2.temp_list := by
  refine ⟨h.clean, h.plain, ?_⟩
  cases hnum with
  | failed => exact releaseNumber_le _ (maxNumber_nonneg ls) h.le
  | above hx => exact releaseNumber_above (maxNumber_nonneg ls) h.le hx

/-- A WRITE, whatever becomes of its opens, where the numbers on file after it are `int`s. -/
theorem SequentialInv.write (h : SequentialInv ls L) {line : CStr} {client : Client} (hline : Received line)
    (hclient : client.Fits) {junk : Junk} {opens : List OpenResult} {response : CStr} {g : NumGen} {d : Disk}
    (hwrite : writeCommand junk (commandOf line) client ⟨L⟩ ⟨fileOf ls, opens⟩ = some (response, g, d))
    (hint : NumbersInInt d.bbfile) : ∃ ls', d.bbfile = fileOf ls' ∧ SequentialInv ls' g.temp_list := by
  rw [writeCommand] at hwrite
  split at hwrite
  · dsimp only at hwrite
    cases hgen : generateNumber junk.line ⟨L⟩ ⟨fileOf ls, opens⟩ with
    | none =>
      rw [hgen] at hwrite
      cases hwrite
    | some r =>
      obtain ⟨num, ⟨L'⟩, d₁⟩ := r
      obtain ⟨hd₁, hcases⟩ := h.generate_cases hgen
      have hnum : Numbered ls L num L' := by
        rcases hcases with ⟨-, rfl, hg⟩ | ⟨rfl, x, hx, hg⟩
        · obtain rfl : L' = L := congrArg NumGen.temp_list hg
          exact .failed
        · obtain rfl : L' = L ++ [x] := congrArg NumGen.temp_list hg
          exact .above hx
      have hclean := write_line_clean hline hclient (unbroken_showInt num) hnum.length_le
      have hfield : firstField (mkLine (showInt num) client.user (textFrom 1 (commandOf line))) = showInt num :=
        firstField_mkLine (showInt_no_slash num)
      rw [hgen] at hwrite
      dsimp only at hwrite
      split at hwrite
      · cases hwrite
      · next ret d₂ hsync =>
        have hend : d = d₂ ∧ (ret = 0 ∧ g.temp_list = L' ∨ g.temp_list = (releaseNumber num ⟨L'⟩).2.temp_list) := by
          split at hwrite
          · next hret =>
            simp only [Option.some.injEq, Prod.mk.injEq] at hwrite
            obtain ⟨-, rfl, rfl⟩ := hwrite
            exact ⟨rfl, .inl ⟨hret.1, rfl⟩⟩
          · simp only [Option.some.injEq, Prod.mk.injEq] at hwrite
            obtain ⟨-, rfl, rfl⟩ := hwrite
            exact ⟨rfl, .inr rfl⟩
        obtain ⟨rfl, hlist⟩ := hend
        rcases syncWriteAlone_file hd₁ hsync with hfile | ⟨hret, hfile⟩
        · refine ⟨_, hfile, h.append_number hnum (hlist.imp_left And.right) hclean hfield ?_⟩
          rw [NumbersInInt, hfile, linesOf_fileOf (clean_snoc h.clean hclean)] at hint
          exact hint _ (by simp)
        · have hreleased := hlist.resolve_left (by omega)
          exact ⟨ls, hfile, hreleased ▸ h.release_number hnum⟩
  · simp only [Option.some.injEq, Prod.mk.injEq] at hwrite
    obtain ⟨-, rfl, rfl⟩ := hwrite
    exact ⟨ls, rfl, h⟩

end

/-! Runs. -/

/-- A REPLACE whose opens succeed succeeds, of a number whose line starts where an `int` reaches. -/
theorem replaceSucceeds_of_opens {s : Alone} {r : ClientRequest} {ls : List CStr} (hfile : s.bbfile = fileOf ls)
    (hc : ∀ l ∈ ls, Clean l) (ho : r.opens = []) (hline : Received r.line)
    (hstart : (lineStart ((replaceTokens (commandOf r.line)).getD 0 []) s.bbfile : Int) ≤ INT_MAX) :
    ReplaceSucceeds s r := by
  intro hkind response d h
  have hdisk : (⟨s.bbfile, r.opens⟩ : Disk) = diskOf (fileOf ls) := by rw [hfile, ho]; rfl
  have hlines : linesOf s.bbfile = ls := by rw [hfile, linesOf_fileOf hc]
  obtain ⟨nmbr, hnmbr⟩ : ∃ nmbr, nmbr = (replaceTokens (commandOf r.line)).getD 0 [] := ⟨_, rfl⟩
  rw [hdisk, replaceCommand] at h
  rw [← hnmbr] at hstart ⊢
  rw [hlines]
  split at h
  · dsimp only at h
    rw [replaceTokens_eq hline] at h
    cases hmsg : replMessage (replaceTokens (commandOf r.line)) with
    | none =>
      rw [hmsg] at h
      simp only [Option.some.injEq, Prod.mk.injEq] at h
      exact .inl (h.2 ▸ hfile.symm)
    | some message =>
      have hread := fun junk => readDescriptor_diskOf (rfl : fileOf ls = _) hc junk nmbr
      rw [hmsg] at h
      dsimp only at h
      rw [← hnmbr, hread] at h
      cases hlive : lineOf nmbr ls with
      | none =>
        rw [hlive] at h
        simp only [readAnswer, if_true, Option.some.injEq, Prod.mk.injEq] at h
        exact .inl (h.2 ▸ hfile.symm)
      | some l =>
        rw [hfile] at hstart
        rw [hlive] at h
        have hreplace := replaceDescriptor_lines r.junk r.client.user message hc hlive hstart
        have hfound : ¬ (readAnswer (some l)).1 = -1 := by
          rw [readAnswer]
          omega
        dsimp only at h
        rw [if_neg hfound, syncReplaceAlone, hreplace] at h
        dsimp only at h
        rw [if_neg (by decide)] at h
        split at h
        · cases h
        · next ret d' hsync =>
          split at hsync
          · cases hsync
          · next hback =>
            simp only [Option.some.injEq, Prod.mk.injEq] at h hsync
            rw [← h.2, ← hsync.2, readDescriptor_disk hback]
            exact .inr ⟨message, rfl, Option.some_ne_none l, rfl⟩
  · simp only [Option.some.injEq, Prod.mk.injEq] at h
    exact .inl (h.2 ▸ hfile.symm)

def Alone.Inv (s : Alone) : Prop := ∃ ls, s.bbfile = fileOf ls ∧ SequentialInv ls s.gen_on_queue.temp_list

theorem requestStep_inv {s s' : Alone} {r : ClientRequest} (h : s.Inv) (hreplace : ReplaceSucceeds s r)
    (hint : NumbersInInt s'.bbfile) (hstep : RequestStep s r s') : s'.Inv := by
  obtain ⟨ls, hfile, hinv⟩ := h
  have hlines : linesOf s.bbfile = ls := by rw [hfile, linesOf_fileOf hinv.clean]
  cases hstep with
  | @intro response client g d hline hclient hrun =>
    by_cases hw : requestKind r.line = "write".toList
    · rw [serverOperations_write hw, hfile] at hrun
      obtain ⟨⟨resp, g₁, d₁⟩, hwrite, hr⟩ := Option.map_eq_some_iff.1 hrun
      simp only [Prod.mk.injEq] at hr
      obtain ⟨-, -, rfl, rfl⟩ := hr
      exact hinv.write hline hclient hwrite hint
    · by_cases hrep : requestKind r.line = "replace".toList
      · rw [serverOperations_replace hrep] at hrun
        obtain ⟨⟨resp, d₁⟩, hrepl, hr⟩ := Option.map_eq_some_iff.1 hrun
        simp only [Prod.mk.injEq] at hr
        obtain ⟨-, -, rfl, rfl⟩ := hr
        rcases hreplace hrep _ _ hrepl with hsame | ⟨message, hmsg, hlive, hfile'⟩
        · exact ⟨ls, hsame.trans hfile, hinv⟩
        · have hof := replaceOf hline hrep hmsg
          have hclean := replace_line_clean hof hclient
          have hfield : firstField (mkLine ((replaceTokens (commandOf r.line)).getD 0 []) r.client.user message) =
              (replaceTokens (commandOf r.line)).getD 0 [] := firstField_mkLine hof.no_slash
          rw [hlines] at hlive hfile'
          rw [← hfield] at hlive
          have hnew := hinv.replace hclean hlive
          rw [hfield] at hnew
          exact ⟨_, hfile', hnew⟩
      · obtain ⟨hsame, rfl⟩ := serverOperations_other hw hrep hrun
        exact ⟨ls, hsame.trans hfile, hinv⟩

theorem generateNumber_count {junk : List Char} {g g' : NumGen} {d d' : Disk} {num : Int}
    (h : generateNumber junk g d = some (num, g', d')) : g'.count ≤ g.count + 1 := by
  rw [generateNumber] at h
  dsimp only at h
  split at h
  · simp only [Option.some.injEq, Prod.mk.injEq] at h
    rw [← h.2.1]
    omega
  · split at h
    · cases h
    · simp only [Option.some.injEq, Prod.mk.injEq] at h
      rw [← h.2.1]
      simp [NumGen.count]

theorem writeCommand_count {junk : Junk} {command : List CStr} {client : Client} {g g' : NumGen} {d d' : Disk}
    {response : CStr} (h : writeCommand junk command client g d = some (response, g', d')) : g'.count ≤ g.count + 1 := by
  rw [writeCommand] at h
  split at h
  · dsimp only at h
    split at h
    · cases h
    · next num g₁ d₁ hgen =>
      have hcount := generateNumber_count hgen
      split at h
      · cases h
      · split at h
        · simp only [Option.some.injEq, Prod.mk.injEq] at h
          rw [← h.2.1]
          exact hcount
        · simp only [Option.some.injEq, Prod.mk.injEq] at h
          rw [← h.2.1, releaseNumber_count]
          exact hcount
  · simp only [Option.some.injEq, Prod.mk.injEq] at h
    rw [← h.2.1]
    omega

/-- A request that makes a WRITE. -/
def ClientRequest.writes (r : ClientRequest) : Bool := decide (requestKind r.line = "write".toList)

/-- Only a WRITE adds to the list. -/
theorem requestStep_count {s s' : Alone} {r : ClientRequest} (hstep : RequestStep s r s') :
    s'.gen_on_queue.count ≤ s.gen_on_queue.count + if r.writes then 1 else 0 := by
  cases hstep with
  | @intro response client g d hline hclient hrun =>
    by_cases hw : requestKind r.line = "write".toList
    · rw [serverOperations_write hw] at hrun
      obtain ⟨⟨resp, g₁, d₁⟩, hwrite, hr⟩ := Option.map_eq_some_iff.1 hrun
      simp only [Prod.mk.injEq] at hr
      obtain ⟨-, -, rfl, -⟩ := hr
      rw [ClientRequest.writes, decide_eq_true hw, if_pos rfl]
      exact writeCommand_count hwrite
    · rw [ClientRequest.writes, decide_eq_false hw, if_neg (by decide)]
      by_cases hrep : requestKind r.line = "replace".toList
      · rw [serverOperations_replace hrep] at hrun
        obtain ⟨⟨resp, d₁⟩, -, hr⟩ := Option.map_eq_some_iff.1 hrun
        simp only [Prod.mk.injEq] at hr
        rw [← hr.2.2.1]
        exact le_refl _
      · obtain ⟨-, rfl⟩ := serverOperations_other hw hrep hrun
        exact le_refl _

section
variable {b : Board} {tr : List (Alone × ClientRequest)} {s : Alone}

theorem Alone.run_count (hrun : Runs.Run RequestStep (Alone.start b) tr s) :
    s.gen_on_queue.count ≤ tr.countP fun p => p.2.writes := by
  induction hrun with
  | nil => exact le_refl 0
  | @snoc tr s s' r _ hs ih =>
    have hcount := requestStep_count hs
    have hlast : (tr ++ [(s, r)]).countP (fun p => p.2.writes) =
        tr.countP (fun p => p.2.writes) + if r.writes then 1 else 0 := by
      rw [List.countP_append, List.countP_singleton]
    rw [hlast]
    omega

theorem Alone.run_inv (hrun : Runs.Run RequestStep (Alone.start b) tr s) (hreplace : Runs.Guarded ReplaceSucceeds tr)
    (hints : ∀ p ∈ tr, NumbersInInt p.1.bbfile) (hint : NumbersInInt s.bbfile) : s.Inv := by
  have hok : Runs.Guarded (fun s r => NumbersInInt s.bbfile ∧ ReplaceSucceeds s r) tr :=
    fun p hp => ⟨hints p hp, hreplace p hp⟩
  have hstep : ∀ (s : Alone) r s', (NumbersInInt s.bbfile → s.Inv) → NumbersInInt s.bbfile ∧ ReplaceSucceeds s r →
      RequestStep s r s' → NumbersInInt s'.bbfile → s'.Inv :=
    fun s r s' h hok hs hint => requestStep_inv (h hok.1) hok.2 hint hs
  have hstart : NumbersInInt (Alone.start b).bbfile → (Alone.start b).Inv :=
    fun _ => ⟨b.texts, rfl, SequentialInv.start b⟩
  exact @Runs.Run.inv _ _ _ _ _ _ (fun s => NumbersInInt s.bbfile → s.Inv) _ hstart hstep hrun hok hint

theorem Alone.Inv.sequential (h : s.Inv) (hint : NumbersInInt s.bbfile) (hcount : s.gen_on_queue.count < MAX_LEN) :
    s.Sequential := by
  obtain ⟨ls, hfile, hinv⟩ := h
  have hlines : linesOf s.bbfile = ls := by rw [hfile, linesOf_fileOf hinv.clean]
  refine ⟨hcount, fun junk opens num g d ho hgen => ?_⟩
  rw [NumbersInInt, hlines] at hint
  rw [hfile] at hgen
  rw [hlines, ← maxNumber_eq_largest hinv.plain hint]
  rcases (hinv.generate_cases hgen).2 with ⟨hfails, -⟩ | ⟨hnum, -⟩
  · exact absurd hfails ho
  · exact hnum

end

/-- **Numbers without gaps and repeats**: in every run of requests one after another with fewer than
    MAX_LEN WRITEs, in which the numbers on file are `int`s and the REPLACEs succeed, the number that
    comes next is the largest on file and one more, at every moment. -/
theorem numbers_sequential (b : Board) {tr : List (Alone × ClientRequest)} {s : Alone}
    (hrun : Runs.Run RequestStep (Alone.start b) tr s) (hwrites : tr.countP (fun p => p.2.writes) < MAX_LEN)
    (hreplace : Runs.Guarded ReplaceSucceeds tr) (hints : ∀ p ∈ tr, NumbersInInt p.1.bbfile)
    (hint : NumbersInInt s.bbfile) : s.Sequential ∧ ∀ p ∈ tr, p.1.Sequential := by
  have hlast : s.Sequential := (Alone.run_inv hrun hreplace hints hint).sequential hint (lt_of_le_of_lt (Alone.run_count hrun) hwrites)
  refine ⟨hlast, ?_⟩
  clear hlast hint
  induction hrun with
  | nil => simp
  | @snoc tr s s' r hr hs ih =>
    have hwrites : tr.countP (fun p => p.2.writes) < MAX_LEN := by
      rw [List.countP_append] at hwrites
      omega
    have hints' : ∀ p ∈ tr, NumbersInInt p.1.bbfile := fun p hp => hints p (List.mem_append_left _ hp)
    have hint' : NumbersInInt s.bbfile := hints (s, r) (by simp)
    intro p hp
    rcases List.mem_append.1 hp with hp | hp
    · exact ih hwrites hreplace.init hints' p hp
    · obtain rfl := List.mem_singleton.1 hp
      exact (Alone.run_inv hr hreplace.init hints' hint').sequential hint' (lt_of_le_of_lt (Alone.run_count hr) hwrites)

/-- A WRITE whose append fails and that gives its number back, a WRITE and a REPLACE. -/
def firstRequests : List (Alone × ClientRequest) :=
  [(⟨[], ⟨[]⟩⟩, ⟨"WRITE x\r".toList, Client.start, [.ok, .fails], ⟨[], []⟩⟩),
    (⟨[], ⟨[0]⟩⟩, ⟨"WRITE y\r".toList, Client.start, [], ⟨[], []⟩⟩),
    (⟨"1/nobody/y\n".toList, ⟨[0, 1]⟩⟩, ⟨"REPLACE 1/z\r".toList, Client.start, [], ⟨[], []⟩⟩)]

/-- The next number after them is 2. -/
theorem numbers_sequential_firstRequests : ∃ s, Runs.Run RequestStep (Alone.start emptyBoard) firstRequests s ∧
    s.gen_on_queue = ⟨[0, 1]⟩ ∧ s.Sequential := by
  have h₁ : RequestStep (Alone.start emptyBoard) firstRequests[0].2 ⟨[], ⟨[0]⟩⟩ :=
    @RequestStep.intro _ _ syncErrorResponse Client.start ⟨[0]⟩ ⟨[], []⟩ ⟨⟨by decide, by decide⟩, by decide⟩
      Client.start_fits (by decide +kernel)
  have h₂ : RequestStep ⟨[], ⟨[0]⟩⟩ firstRequests[1].2 ⟨"1/nobody/y\n".toList, ⟨[0, 1]⟩⟩ :=
    @RequestStep.intro _ _ (wroteResponse ['1']) Client.start ⟨[0, 1]⟩ (diskOf "1/nobody/y\n".toList)
      ⟨⟨by decide, by decide⟩, by decide⟩ Client.start_fits (by decide +kernel)
  have h₃ : RequestStep ⟨"1/nobody/y\n".toList, ⟨[0, 1]⟩⟩ firstRequests[2].2
      ⟨fileOf [deletedLine 10, "1/nobody/z ".toList], ⟨[0, 1]⟩⟩ :=
    @RequestStep.intro _ _ (wroteResponse ['1']) Client.start ⟨[0, 1]⟩
      (diskOf (fileOf [deletedLine 10, "1/nobody/z ".toList])) ⟨⟨by decide, by decide⟩, by decide⟩
      Client.start_fits (by decide +kernel)
  have hrun : Runs.Run RequestStep (Alone.start emptyBoard) firstRequests
      ⟨fileOf [deletedLine 10, "1/nobody/z ".toList], ⟨[0, 1]⟩⟩ := ((Runs.Run.nil.snoc h₁).snoc h₂).snoc h₃
  have hreplace : Runs.Guarded ReplaceSucceeds firstRequests := by
    intro p hp
    simp only [firstRequests, List.mem_cons, List.not_mem_nil, or_false] at hp
    rcases hp with rfl | rfl | rfl
    · intro hkind
      exact absurd hkind (by decide +kernel)
    · intro hkind
      exact absurd hkind (by decide +kernel)
    · refine @replaceSucceeds_of_opens _ _ ["1/nobody/y".toList] rfl ?_ rfl ⟨⟨by decide, by decide⟩, by decide⟩
        (by decide +kernel)
      intro l hl
      obtain rfl := List.mem_singleton.1 hl
      exact ⟨by decide, by decide, by decide⟩
  have hints : ∀ p ∈ firstRequests, NumbersInInt p.1.bbfile := by
    intro p hp
    simp only [firstRequests, List.mem_cons, List.not_mem_nil, or_false] at hp
    rcases hp with rfl | rfl | rfl
    · exact (by decide +kernel : ∀ l ∈ linesOf [], IsNumeral (firstField l) → (numeralValue (firstField l) : Int) ≤ INT_MAX)
    · exact (by decide +kernel : ∀ l ∈ linesOf [], IsNumeral (firstField l) → (numeralValue (firstField l) : Int) ≤ INT_MAX)
    · exact (by decide +kernel : ∀ l ∈ linesOf "1/nobody/y\n".toList,
        IsNumeral (firstField l) → (numeralValue (firstField l) : Int) ≤ INT_MAX)
  have hint : ∀ l ∈ linesOf (fileOf [deletedLine 10, "1/nobody/z ".toList]),
      IsNumeral (firstField l) → (numeralValue (firstField l) : Int) ≤ INT_MAX := by decide +kernel
  exact ⟨_, hrun, rfl, (numbers_sequential emptyBoard hrun (by decide +kernel) hreplace hints hint).1⟩

end BulletinBoard
