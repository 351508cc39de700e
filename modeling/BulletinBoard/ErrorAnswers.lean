import BulletinBoard.Failures
import BulletinBoard.Numbering
import BulletinBoard.Requests

/- Error answers of a server without peers. A request that is answered with a 3.2 ERROR
   leaves every READ as it was when the open that failed came before the first change of
   the file. A WRITE whose line is on file already, and a REPLACE whose delete is, are not
   undone. -/
namespace BulletinBoard

/-- Every READ gives the same reply on the two files. -/
def SameReads (before after : List Char) : Prop :=
  ∀ junk line, Received line → (readCommand junk (commandOf line) (diskOf after)).map Prod.fst =
    (readCommand junk (commandOf line) (diskOf before)).map Prod.fst

/-! READs that tell two files apart. -/

theorem messageResponse_ne (id text : CStr) : messageResponse id text ≠ notFoundResponse id := by
  have hmessage : "2.0 MESSAGE ".toList <+: messageResponse id text :=
    ((List.prefix_append _ _).trans (List.prefix_append _ _)).trans (List.prefix_append _ _)
  have hnot : "2.1 UNKNOWN ".toList <+: notFoundResponse id :=
    (List.prefix_append _ _).trans (List.prefix_append _ _)
  intro h
  rw [h] at hmessage
  exact absurd (List.prefix_of_prefix_length_le hmessage hnot (by decide)) (by decide)

/-- The reply to a READ of the number. -/
def readReply (id : CStr) : Option CStr → CStr
  | none => notFoundResponse id
  | some l => messageResponse id (lineText l)

theorem readCommand_lines {ls : List CStr} (hc : ∀ l ∈ ls, Clean l) (junk : List Char) (c id : CStr) :
    (readCommand junk [c, id] (diskOf (fileOf ls))).map Prod.fst = some (readReply id (lineOf id ls)) := by
  have hread := readDescriptor_diskOf rfl hc junk id
  simp only [readCommand, List.length_cons, List.length_nil, if_true, List.getD_cons_succ,
    List.getD_cons_zero, hread]
  cases lineOf id ls with
  | none => rfl
  | some l => simp [readAnswer, readReply]

/-- A number that a READ can name. -/
structure Nameable (id : CStr) : Prop extends Unbroken id where
  ne_nil : id ≠ []
  no_sep : ∀ c ∈ id, isWordSep c = false
  length_le : id.length + 6 ≤ MAX_LEN

theorem Nameable.received {id : CStr} (h : Nameable id) : Received (readLine id) where
  no_nul := readLine_no_nul h.no_nul
  no_newline := by
    simp only [readLine, List.mem_append, List.mem_cons, not_or]
    exact ⟨by decide, by decide, h.no_newline, by decide⟩
  length_le := by
    have hlen := h.length_le
    simp only [readLine, readWord, List.length_append, List.length_cons, List.length_nil]
    omega

theorem Nameable.command {id : CStr} (h : Nameable id) : commandOf (readLine id) = [readWord, id] :=
  commandOf_readLine h.ne_nil h.no_nul h.no_sep

/-- A number with a line in one of the files only. -/
theorem not_sameReads {ls ls' : List CStr} {id : CStr} (hc : ∀ l ∈ ls, Clean l) (hc' : ∀ l ∈ ls', Clean l)
    (hid : Nameable id) (h : (lineOf id ls).isSome ≠ (lineOf id ls').isSome) :
    ¬ SameReads (fileOf ls) (fileOf ls') := by
  intro hsame
  have hreply := hsame [] (readLine id) hid.received
  rw [hid.command, readCommand_lines hc', readCommand_lines hc] at hreply
  have hreply := Option.some.inj hreply
  cases hl : lineOf id ls with
  | none =>
    cases hl' : lineOf id ls' with
    | none => exact h (by rw [hl, hl'])
    | some l' =>
      rw [hl, hl'] at hreply
      exact messageResponse_ne id _ hreply
  | some l =>
    cases hl' : lineOf id ls' with
    | none =>
      rw [hl, hl'] at hreply
      exact messageResponse_ne id _ hreply.symm
    | some l' => exact h (by rw [hl, hl']; rfl)

/-- A newline written over the first byte makes an empty line, which the line `READ =` names. -/
theorem not_sameReads_newline {ls : List CStr} (hc : ∀ l ∈ ls, Clean l) (h : lineOf [] ls = none) :
    ¬ SameReads (fileOf ls) (Lines.overwrite NUL (fileOf ls) 0 ['\n']) := by
  intro hsame
  have hline : Received (readLine ['=']) := ⟨⟨by decide, by decide⟩, by decide⟩
  have hcommand : commandOf (readLine ['=']) = [readWord, []] := by decide +kernel
  have hreply := hsame [] _ hline
  have hover : Lines.overwrite NUL (fileOf ls) 0 ['\n'] = [] ++ '\n' :: (fileOf ls).drop 1 := by
    simp [Lines.overwrite]
  have hfind : ∃ r, findLine [] (scanRounds ⟨[] ++ '\n' :: (fileOf ls).drop 1, false⟩)
      ⟨[] ++ '\n' :: (fileOf ls).drop 1, false⟩ [] = some (some ⟨[], [[]], r⟩) := by
    have hempty : Clean [] := ⟨by simp, by simp, by decide⟩
    obtain ⟨buf, hfind⟩ := findLine_line [] ((fileOf ls).drop 1) [] false
      (((fileOf ls).drop 1).length + 2) hempty
    exact ⟨_, hfind⟩
  obtain ⟨r, hfind⟩ := hfind
  have hread : readDescriptor [] [] (diskOf ([] ++ '\n' :: (fileOf ls).drop 1)) =
      some ((0, some []), diskOf ([] ++ '\n' :: (fileOf ls).drop 1)) := by
    rw [readDescriptor, openFile_diskOf]
    simp only [hfind]
    rfl
  have hafter : (readCommand [] [readWord, []] (diskOf ([] ++ '\n' :: (fileOf ls).drop 1))).map Prod.fst =
      some (messageResponse [] []) := by
    simp only [readCommand, List.length_cons, List.length_nil, if_true, List.getD_cons_succ,
      List.getD_cons_zero, hread]
    rfl
  rw [hcommand, hover, hafter, readCommand_lines hc, h] at hreply
  exact messageResponse_ne [] [] (Option.some.inj hreply)

/-! The answers. -/

theorem not_isError_wrote (nmbr : CStr) : ¬ IsError (wroteResponse nmbr) := by
  have hwrote : "3.0 WROTE ".toList <+: wroteResponse nmbr :=
    (List.prefix_append _ _).trans (List.prefix_append _ _)
  intro h
  exact absurd (List.prefix_of_prefix_length_le h hwrote (by decide)) (by decide)

theorem not_isError_unknown (nmbr : CStr) : ¬ IsError (unknownResponse nmbr) := by
  have hunknown : "3.1 UNKNOWN ".toList <+: unknownResponse nmbr :=
    (List.prefix_append _ _).trans (List.prefix_append _ _)
  intro h
  exact absurd (List.prefix_of_prefix_length_le h hunknown (by decide)) (by decide)

theorem readCommand_bbfile {junk : List Char} {command : List CStr} {d : Disk} {r : CStr × Disk}
    (h : readCommand junk command d = some r) : r.2.bbfile = d.bbfile := by
  rw [readCommand] at h
  split at h
  · dsimp only at h
    split at h
    · cases h
    · next hread =>
      obtain rfl := Option.some.inj h
      rw [readDescriptor_disk hread, openFile_bbfile]
  · obtain rfl := Option.some.inj h
    rfl

/-- A board line that a scan for a number without backspaces stops at is a live one. -/
theorem Board.isNumeral_of_lineOf {b : Board} {id l : CStr} (h : lineOf id b.texts = some l)
    (hid : BACKSPACE ∉ id) : IsNumeral id := by
  obtain ⟨hl, rfl⟩ := lineOf_some h
  obtain ⟨x, -, rfl⟩ := List.mem_map.1 hl
  cases x with
  | deleted n pos lt =>
    rw [BoardLine.text, firstField_deletedLine] at hid
    exact absurd (List.mem_replicate.2 ⟨by omega, rfl⟩) hid
  | live l => exact l.ok.firstField ▸ l.ok.id_numeral

theorem Board.lineOf_eq_none {b : Board} {id : CStr} (hid : BACKSPACE ∉ id) (hn : ¬ IsNumeral id) :
    lineOf id b.texts = none := by
  cases h : lineOf id b.texts with
  | none => rfl
  | some l => exact absurd (b.isNumeral_of_lineOf h hid) hn

/-! WRITE. -/

/-- When an error answer to a WRITE leaves nothing: its write fails, or its other opens do not. -/
def WriteHarmless (pattern : List Bool) (command : List CStr) : Prop :=
  command.length < 2 ∨ ¬(pattern.getD 1 true = true ∧ pattern.getD 2 true = true) ∨
    (pattern.getD 0 true = true ∧ pattern.getD 3 true = true)

/-- What is known of the number of a WRITE. -/
structure NumberOf (b : Board) (g : NumGen) (num : Int) : Prop where
  name : Nameable (showInt num)
  length_le : (showInt num).length ≤ 20
  free : maxNumber b.texts + g.count < INT_MAX → lineOf (showInt num) b.texts = none

theorem atoi_le (s : CStr) : atoi s ≤ INT_MAX := by
  have hlt : toInt (strtol s) < (2 ^ 32 + 1) / 2 := Int.bmod_lt (by decide)
  unfold atoi INT_MAX
  omega

theorem maxNumber_le (ls : List CStr) : maxNumber ls ≤ INT_MAX := by
  rcases maxNumber_attained ls with ⟨l, -, hl⟩ | h
  · rw [← hl]
    exact atoi_le _
  · rw [h]
    decide

theorem nameable_showInt {num : Int} (h₀ : 0 ≤ num) (hlen : (showInt num).length ≤ 20) :
    Nameable (showInt num) := by
  obtain ⟨hne, hd⟩ := showInt_isNumeral h₀
  have hno : ∀ x : Char, x.isDigit = false → x ∉ showInt num := fun x hx hm => digit_ne (hd x hm) hx rfl
  exact ⟨⟨hno _ (by decide), hno _ (by decide)⟩, hne, fun c hc => digit_no_sep (hd c hc), by unfold MAX_LEN; omega⟩

theorem generateNumber_with (b : Board) (junk : List Char) {g : NumGen} {pattern : List Bool}
    (hg : g.count < MAX_LEN) (ho : pattern.getD 0 true = true) :
    ∃ num g', generateNumber junk g (diskWith b.bytes pattern) =
        some (num, g', diskWith b.bytes (pattern.drop 1)) ∧ 0 ≤ num ∧ NumberOf b g num := by
  have hopen : (diskWith b.bytes pattern).openFile =
      (some ⟨b.bytes, false⟩, diskWith b.bytes (pattern.drop 1)) := by
    have h := openFile_diskWith b.bytes pattern 0
    rwa [List.drop_zero, if_pos ho] at h
  obtain ⟨k, hgen, hin, -, -⟩ := generateNumber_lines junk g.temp_list (d := diskWith b.bytes pattern)
    rfl b.texts_clean hopen
  have hk : k ≤ g.count := matches_le_length hin
  have hM₀ := maxNumber_nonneg b.texts
  have hM := maxNumber_le b.texts
  obtain ⟨num, hnum⟩ : ∃ num, num = if k = 0 then maxNumber b.texts + 1 else maxNumber b.texts + k := ⟨_, rfl⟩
  rw [← hnum] at hgen
  have hgt : maxNumber b.texts < num := by rw [hnum]; split <;> omega
  have hle : num ≤ maxNumber b.texts + g.count + 1 := by rw [hnum]; split <;> omega
  have h₀ : 0 ≤ num := by omega
  have hlen : (showInt num).length ≤ 20 := by
    unfold INT_MAX at hM
    unfold MAX_LEN at hg
    exact showInt_length_le h₀ (by norm_num; omega)
  refine ⟨num, _, hgen, h₀, nameable_showInt h₀ hlen, hlen, fun hroom => lineOf_eq_none.2 fun l hl hf => ?_⟩
  have honfile : OnFile b.texts num := ⟨l, hl, by
    rw [hf, atoi_showInt h₀]
    rw [hnum]
    split <;> omega⟩
  have := le_maxNumber honfile
  omega

/-- The number of a WRITE is -2 when the open of the generator fails. -/
theorem generateNumber_cases (b : Board) (junk : List Char) {g : NumGen} (pattern : List Bool)
    (hg : g.count < MAX_LEN) : ∃ num g', generateNumber junk g (diskWith b.bytes pattern) =
        some (num, g', diskWith b.bytes (pattern.drop 1)) ∧ NumberOf b g num ∧
        (0 ≤ num ↔ pattern.getD 0 true = true) := by
  cases ho : pattern.getD 0 true with
  | true =>
    obtain ⟨num, g', hgen, h₀, hnum⟩ := generateNumber_with b junk hg ho
    exact ⟨num, g', hgen, hnum, ⟨fun _ => rfl, fun _ => h₀⟩⟩
  | false =>
    have hopen := openFile_diskWith b.bytes pattern 0
    rw [List.drop_zero, ho] at hopen
    have hname : Nameable (showInt (-2)) :=
      ⟨⟨by decide, by decide⟩, by decide, no_sep_of_all (by decide), by decide⟩
    exact ⟨-2, g, by rw [generateNumber, hopen]; rfl,
      ⟨hname, by decide, fun _ => b.lineOf_eq_none (by decide) (by decide)⟩, by decide⟩

section
variable {ls : List CStr} {file : List Char} {pattern : List Bool} {i : Nat} {nmbr poster message : CStr}

/-- What a write with its read-back returns and leaves. -/
theorem syncWriteAlone_cases {junk : Junk} {ret : Int} {d : Disk} (hends : EndsLine file)
    (hl : Clean (mkLine nmbr poster message)) (hk : firstField (mkLine nmbr poster message) = nmbr)
    (h : syncWriteAlone junk nmbr poster message (diskWith file (pattern.drop i)) = some (ret, d)) :
    (¬(pattern.getD i true = true ∧ pattern.getD (i + 1) true = true) ∧ d.bbfile = file) ∨
      (pattern.getD i true = true ∧ pattern.getD (i + 1) true = true) ∧
        (pattern.getD (i + 2) true = true → ret = 0) := by
  by_cases ho : pattern.getD i true = true ∧ pattern.getD (i + 1) true = true
  · right
    refine ⟨ho, fun hback => ?_⟩
    rw [syncWriteAlone, writeDescriptor_with file nmbr poster message ho] at h
    dsimp only at h
    rw [if_neg (by decide)] at h
    split at h
    · cases h
    · next r text d' hread =>
      have hr := (readDescriptor_last hends hl hk hback hread).1
      rw [if_neg (by omega)] at h
      simp only [Option.some.injEq, Prod.mk.injEq] at h
      exact h.1.symm
  · left
    refine ⟨ho, ?_⟩
    obtain ⟨j, hwrite⟩ := writeDescriptor_fails file nmbr poster message ho
    rw [syncWriteAlone, hwrite] at h
    dsimp only at h
    rw [if_pos (by decide)] at h
    simp only [Option.some.injEq, Prod.mk.injEq] at h
    rw [← h.2, diskWith_bbfile]

/-- A write that succeeds is on file, whatever becomes of its read-back. -/
theorem syncWriteAlone_wrote (junk : Junk) (hc : ∀ l ∈ ls, Clean l) (hl : Clean (mkLine nmbr poster message))
    (ho : pattern.getD i true = true ∧ pattern.getD (i + 1) true = true) :
    ∃ ret d, syncWriteAlone junk nmbr poster message (diskWith (fileOf ls) (pattern.drop i)) = some (ret, d) ∧
      d.bbfile = fileOf (ls ++ [mkLine nmbr poster message]) ∧
      (¬ pattern.getD (i + 2) true = true → ret = -1) := by
  have hfile : fileOf ls ++ fileOf [mkLine nmbr poster message] = fileOf (ls ++ [mkLine nmbr poster message]) :=
    (fileOf_append _ _).symm
  have hc' := clean_snoc hc hl
  have hwrite := writeDescriptor_with (fileOf ls) nmbr poster message ho
  rw [hfile] at hwrite
  by_cases hback : pattern.getD (i + 2) true = true
  · have hread := readDescriptor_with junk.line nmbr rfl hc' hback
    rw [syncWriteAlone, hwrite]
    simp only [hread]
    exact ⟨_, _, rfl, rfl, fun h => absurd hback h⟩
  · have hread := readDescriptor_fails (fileOf (ls ++ [mkLine nmbr poster message]))
      junk.line nmbr (by simpa using hback)
    rw [syncWriteAlone, hwrite]
    simp only [hread]
    exact ⟨_, _, rfl, rfl, fun _ => rfl⟩

end

section
variable {b : Board} {g : NumGen} {pattern : List Bool} {line : CStr} {client : Client}

/-- The text of a WRITE fits its line. -/
theorem write_line_clean (hline : Received line) (hclient : client.Fits) {nmbr : CStr} (hn : Unbroken nmbr)
    (hlen : nmbr.length ≤ 20) : Clean (mkLine nmbr client.user (textFrom 1 (commandOf line))) := by
  have hwords : ∀ w ∈ commandOf line, Unbroken w := fun w hw => (hline.words w hw).1
  have htext := textFrom_length 1 (commandOf line)
  have hroom := hline.room_le
  have huser := hclient.length_le
  refine clean_mkLine hn hclient.user (Unbroken.textFrom hwords 1) ?_
  unfold MAX_LEN at hroom huser
  unfold BBLINE_LEN
  omega

theorem write_error_unchanged (hline : Received line) (hclient : client.Fits) (hg : g.count < MAX_LEN)
    (hharmless : WriteHarmless pattern (commandOf line)) {junk : Junk} {response : CStr} {g' : NumGen} {d : Disk}
    (h : writeCommand junk (commandOf line) client g (diskWith b.bytes pattern) = some (response, g', d))
    (herr : IsError response) : d.bbfile = b.bytes := by
  have hends : EndsLine b.bytes := EndsLine.fileOf b.texts
  rw [writeCommand] at h
  split at h
  · next hlen =>
    have hharmless := hharmless.resolve_left (by omega)
    obtain ⟨num, g₁, hgen, hnum, hopen⟩ := generateNumber_cases b junk.line pattern hg
    have hclean := write_line_clean hline hclient hnum.name.toUnbroken hnum.length_le
    have hk : firstField (mkLine (showInt num) client.user (textFrom 1 (commandOf line))) = showInt num :=
      firstField_mkLine (showInt_no_slash num)
    dsimp only at h
    rw [hgen] at h
    dsimp only at h
    split at h
    · cases h
    · next ret d' hsync =>
      rcases syncWriteAlone_cases hends hclean hk hsync with hun | hwrote
      · have hd := hun.2
        split at h
        · simp only [Option.some.injEq, Prod.mk.injEq] at h
          rw [← h.2.2, hd]
        · simp only [Option.some.injEq, Prod.mk.injEq] at h
          rw [← h.2.2, hd]
      · -- every open has succeeded, and the answer is no error
        have hall := hharmless.resolve_left (not_not_intro hwrote.1)
        rw [if_pos ⟨hwrote.2 hall.2, hopen.2 hall.1⟩] at h
        simp only [Option.some.injEq, Prod.mk.injEq] at h
        rw [← h.1] at herr
        exact absurd herr (not_isError_wrote _)
  · simp only [Option.some.injEq, Prod.mk.injEq] at h
    rw [← h.2.2, diskWith_bbfile]

/-- A WRITE that is on file and answered with an error gives its number a line. -/
theorem write_error_changes (hline : Received line) (hclient : client.Fits) (hg : g.count < MAX_LEN)
    (hroom : maxNumber b.texts + g.count < INT_MAX) (hharm : ¬ WriteHarmless pattern (commandOf line))
    (junk : Junk) : ∃ response g' d,
      writeCommand junk (commandOf line) client g (diskWith b.bytes pattern) = some (response, g', d) ∧
        IsError response ∧ ¬ SameReads b.bytes d.bbfile := by
  simp only [WriteHarmless, not_or, not_not, not_lt] at hharm
  obtain ⟨hlen, hwrite, hback⟩ := hharm
  obtain ⟨num, g₁, hgen, hnum, hopen⟩ := generateNumber_cases b junk.line pattern hg
  have hclean := write_line_clean hline hclient hnum.name.toUnbroken hnum.length_le
  have hk : firstField (mkLine (showInt num) client.user (textFrom 1 (commandOf line))) = showInt num :=
    firstField_mkLine (showInt_no_slash num)
  obtain ⟨ret, d, hsync, hd, hret⟩ := syncWriteAlone_wrote junk b.texts_clean hclean hwrite
  have hdiffer : ¬ SameReads b.bytes d.bbfile := by
    rw [hd]
    apply not_sameReads b.texts_clean (clean_snoc b.texts_clean hclean) hnum.name
    rw [lineOf_append, hnum.free hroom]
    simp [lineOf, hk]
  have hans : ¬(ret = 0 ∧ num ≥ 0) := by
    intro h
    have hfail := hret fun ho => hback ⟨hopen.1 h.2, ho⟩
    omega
  have hcall : writeCommand junk (commandOf line) client g (diskWith b.bytes pattern) =
      some (if num ≥ 0 then syncErrorResponse else noBbfileResponse, (releaseNumber num g₁).2, d) := by
    rw [writeCommand, if_pos hlen]
    dsimp only
    rw [hgen]
    dsimp only
    rw [Board.bytes, hsync]
    dsimp only
    rw [if_neg hans]
  refine ⟨_, _, d, hcall, ?_, hdiffer⟩
  split
  · exact ⟨_, rfl⟩
  · exact ⟨_, rfl⟩

end

/-! REPLACE. -/

/-- The command of a request, which is compared in lower case. -/
def requestKind (line : CStr) : CStr := tolwr (tolwr ((commandOf line).getD 0 []))

/-- The number and the message of a REPLACE request. -/
def replaceTokens (command : List CStr) : List CStr :=
  replTokens (command.drop 1) (command.getD 1 []).length []

/-- When an error answer to a REPLACE leaves nothing: there is no message to write, the check
    finds no line, the open of the delete fails, or those of the write do not. -/
def ReplaceHarmless (b : Board) (pattern : List Bool) (command : List CStr) : Prop :=
  replMessage (replaceTokens command) = none ∨
    (pattern.getD 0 true = true ∧ lineOf ((replaceTokens command).getD 0 []) b.texts = none) ∨
    ¬ pattern.getD 2 true = true ∨ (pattern.getD 3 true = true ∧ pattern.getD 4 true = true)

section
variable {b : Board} {g : NumGen} {pattern : List Bool} {line : CStr} {client : Client}

theorem getD_one (command : List CStr) : command.getD 1 [] = (command.drop 1).getD 0 [] := by
  simp [List.getD_eq_getElem?_getD]

theorem replaceTokens_eq (hline : Received line) (junk : List Char) :
    replTokens ((commandOf line).drop 1) ((commandOf line).getD 1 []).length junk =
      replaceTokens (commandOf line) := by
  have hwords : ∀ w ∈ (commandOf line).drop 1, Unbroken w :=
    fun w hw => (hline.words w (List.mem_of_mem_drop hw)).1
  rw [replaceTokens, getD_one, replTokens_first junk hwords, replTokens_first [] hwords]

/-- The number and the message of a REPLACE that has one. -/
structure ReplaceOf (nmbr message : CStr) : Prop where
  no_slash : ∀ c ∈ nmbr, isSlash c = false
  no_sep : ∀ c ∈ nmbr, isWordSep c = false
  nmbr_unbroken : Unbroken nmbr
  message_unbroken : Unbroken message
  length_le : nmbr.length + message.length + 1 ≤ MAX_LEN
  name_le : nmbr.length + 6 ≤ MAX_LEN

theorem length_of_message {message : CStr} (hmsg : replMessage (replaceTokens (commandOf line)) = some message) :
    1 < (commandOf line).length := by
  by_contra hle
  have hnil : (commandOf line).drop 1 = [] := List.drop_eq_nil_of_le (by omega)
  have htok : replaceTokens (commandOf line) = [[]] := by
    rw [replaceTokens, getD_one, hnil]
    rfl
  rw [htok] at hmsg
  simp [replMessage] at hmsg

theorem replaceOf (hline : Received line) (hkind : requestKind line = "replace".toList)
    {message : CStr} (hmsg : replMessage (replaceTokens (commandOf line)) = some message) :
    ReplaceOf ((replaceTokens (commandOf line)).getD 0 []) message := by
  have hwords : ∀ w ∈ (commandOf line).drop 1, w ∈ commandOf line := fun w hw => List.mem_of_mem_drop hw
  have hlt := length_of_message hmsg
  have hne : (commandOf line).drop 1 ≠ [] := by
    intro hnil
    have hle := List.drop_eq_nil_iff.1 hnil
    omega
  have hparts := replParts (fun w hw => (hline.words w (hwords w hw)).1) hne
    (by rw [replaceTokens, getD_one]) hmsg
  obtain ⟨w, hw, hmem⟩ := hparts.word
  have hword := hline.words w (hwords w hw)
  have hroom : room ((commandOf line).drop 1) + 8 ≤ MAX_LEN := by
    have hle := hline.room_le
    obtain ⟨c, cs, hc⟩ := List.exists_cons_of_ne_nil (l := commandOf line) (by
      rintro hnil
      rw [hnil] at hne
      exact hne rfl)
    rw [requestKind, hc] at hkind
    rw [hc] at hle ⊢
    have hlen : c.length = 7 := by
      have h := congrArg List.length hkind
      simpa [tolwr] using h
    rw [List.drop_one, List.tail_cons]
    simp only [room, List.map_cons, List.sum_cons, hlen] at hle ⊢
    omega
  have hlen := hparts.length_le
  have hchars : ∀ c ∈ message, c ≠ NUL ∧ c ≠ '\n' := by
    intro c hc
    rcases hparts.chars c hc with rfl | rfl | ⟨w', hw', hc'⟩
    · decide
    · decide
    · have hu := (hline.words w' (hwords w' hw')).1
      exact ⟨fun h => hu.no_nul (h ▸ hc'), fun h => hu.no_newline (h ▸ hc')⟩
  refine ⟨hparts.no_slash, fun c hc => hword.2 c (hmem c hc), hword.1.of_subset hmem,
    ⟨fun h => (hchars _ h).1 rfl, fun h => (hchars _ h).2 rfl⟩, ?_, ?_⟩
  · omega
  · omega

/-- What a replace with its read-back returns and leaves. -/
theorem syncReplaceAlone_cases {file : List Char} {i : Nat} {nmbr poster message : CStr} {junk : Junk}
    {ret : Int} {d : Disk} (hends : EndsLine file) (hl : Clean (mkLine nmbr poster message))
    (hk : firstField (mkLine nmbr poster message) = nmbr)
    (h : syncReplaceAlone junk nmbr poster message (diskWith file (pattern.drop i)) = some (ret, d)) :
    (¬ pattern.getD (i + 1) true = true ∧ d.bbfile = file) ∨ pattern.getD (i + 1) true = true ∧
      (pattern.getD (i + 2) true = true ∧ pattern.getD (i + 3) true = true → ret = 0) := by
  rw [syncReplaceAlone, replaceDescriptor] at h
  cases hdel : deleteDescriptor junk nmbr (diskWith file (pattern.drop i)) with
  | none => rw [hdel] at h; cases h
  | some r =>
    obtain ⟨del_ret, d₁⟩ := r
    rw [hdel] at h
    rcases deleteDescriptor_with hdel with ⟨ho, rfl, rfl⟩ | ⟨ho, hret, pos, n, rfl⟩
    · left
      simp only [show (-2 : Int) < 0 by decide, if_true, Option.some.injEq, Prod.mk.injEq] at h
      refine ⟨by rw [ho]; decide, ?_⟩
      rw [← h.2, diskWith_bbfile]
    · right
      refine ⟨ho, fun hwrite => ?_⟩
      have hends' := hends.overwrite NUL pos (List.replicate n BACKSPACE)
      simp only [not_lt.2 hret, if_false, writeDescriptor_with _ nmbr poster message hwrite] at h
      simp only [lt_irrefl, if_false] at h
      split at h
      · cases h
      · next r text d' hread =>
        have hr : r ≠ -1 := by
          cases hback : pattern.getD (i + 2 + 2) true with
          | true =>
            have hpos := (readDescriptor_last hends' hl hk hback hread).1
            omega
          | false =>
            rw [readDescriptor_fails _ junk.line nmbr hback] at hread
            simp only [Option.some.injEq, Prod.mk.injEq] at hread
            omega
        rw [if_neg hr] at h
        simp only [Option.some.injEq, Prod.mk.injEq] at h
        exact h.1.symm

theorem replace_line_clean {nmbr message : CStr} (h : ReplaceOf nmbr message) (hclient : client.Fits) :
    Clean (mkLine nmbr client.user message) := by
  have hlen := h.length_le
  have huser := hclient.length_le
  refine clean_mkLine h.nmbr_unbroken hclient.user h.message_unbroken ?_
  unfold MAX_LEN at hlen huser
  unfold BBLINE_LEN
  omega

theorem replace_error_unchanged (hline : Received line) (hclient : client.Fits)
    (hkind : requestKind line = "replace".toList)
    (hharmless : ReplaceHarmless b pattern (commandOf line)) {junk : Junk} {response : CStr} {d : Disk}
    (h : replaceCommand junk (commandOf line) client (diskWith b.bytes pattern) = some (response, d))
    (herr : IsError response) : d.bbfile = b.bytes := by
  have hends : EndsLine b.bytes := EndsLine.fileOf b.texts
  rw [replaceCommand] at h
  split at h
  · next hlen =>
    dsimp only at h
    rw [replaceTokens_eq hline] at h
    cases hmsg : replMessage (replaceTokens (commandOf line)) with
    | none =>
      rw [hmsg] at h
      simp only [Option.some.injEq, Prod.mk.injEq] at h
      rw [← h.2, diskWith_bbfile]
    | some message =>
      have hof := replaceOf hline hkind hmsg
      have hclean := replace_line_clean hof hclient
      have hk : firstField (mkLine ((replaceTokens (commandOf line)).getD 0 []) client.user message) =
          (replaceTokens (commandOf line)).getD 0 [] := firstField_mkLine hof.no_slash
      rw [hmsg] at h
      dsimp only at h
      split at h
      · cases h
      · next r text d₁ hread =>
        split at h
        · simp only [Option.some.injEq, Prod.mk.injEq] at h
          rw [← h.1] at herr
          exact absurd herr (not_isError_unknown _)
        · next hr =>
          have hfound : ¬(pattern.getD 0 true = true ∧
              lineOf ((replaceTokens (commandOf line)).getD 0 []) b.texts = none) := by
            rintro ⟨ho, hnone⟩
            have hcheck := readDescriptor_with (i := 0) junk.line
              ((replaceTokens (commandOf line)).getD 0 []) (rfl : b.bytes = _) b.texts_clean ho
            rw [List.drop_zero, hread, hnone] at hcheck
            simp only [readAnswer, Option.some.injEq, Prod.mk.injEq] at hcheck
            exact hr hcheck.1.1
          have hopens := (hharmless.resolve_left (by rw [hmsg]; exact Option.some_ne_none _)).resolve_left hfound
          have hd₁ : d₁ = diskWith b.bytes (pattern.drop 1) := by
            have hopen := openFile_diskWith b.bytes pattern 0
            rw [List.drop_zero] at hopen
            rw [readDescriptor_disk hread, hopen]
          rw [hd₁] at h
          split at h
          · cases h
          · next ret d' hsync =>
            simp only [Option.some.injEq, Prod.mk.injEq] at h
            rcases syncReplaceAlone_cases hends hclean hk hsync with hun | hrep
            · rw [← h.2, hun.2]
            · -- the delete has been made, and the write does not fail
              have hret := hrep.2 (hopens.resolve_left (not_not_intro hrep.1))
              rw [if_pos hret] at h
              rw [← h.1] at herr
              exact absurd herr (not_isError_wrote _)
  · simp only [Option.some.injEq, Prod.mk.injEq] at h
    rw [← h.2, diskWith_bbfile]

/-- A replace that has made its delete and fails in its write. -/
theorem syncReplaceAlone_stops {file file' : List Char} {i : Nat} {junk : Junk} {nmbr : CStr} {ret : Int}
    (poster message : CStr)
    (hdel : deleteDescriptor junk nmbr (diskWith file (pattern.drop i)) =
      some (ret, diskWith file' (pattern.drop (i + 2)))) (hret : 0 ≤ ret)
    (hwrite : ¬(pattern.getD (i + 2) true = true ∧ pattern.getD (i + 3) true = true)) :
    ∃ d, syncReplaceAlone junk nmbr poster message (diskWith file (pattern.drop i)) = some (-1, d) ∧
      d.bbfile = file' := by
  obtain ⟨j, hw⟩ := writeDescriptor_fails file' nmbr poster message hwrite
  refine ⟨diskWith file' (pattern.drop j), ?_, rfl⟩
  rw [syncReplaceAlone, replaceDescriptor, hdel]
  dsimp only
  rw [if_neg (not_lt.2 hret), hw]
  rfl

/-- A delete of the number before a write that fails: what READs tell apart. -/
theorem delete_changes {nmbr : CStr} (ho : pattern.getD 1 true = true) (ho' : pattern.getD 2 true = true)
    (hname : BACKSPACE ∉ nmbr) (hnm : nmbr ≠ [] → Nameable nmbr)
    (hstart : (lineStart nmbr b.bytes : Int) ≤ INT_MAX) :
    ∃ junk ret file', deleteDescriptor junk nmbr (diskWith b.bytes (pattern.drop 1)) =
        some (ret, diskWith file' (pattern.drop 3)) ∧ 0 ≤ ret ∧ ¬ SameReads b.bytes file' := by
  have hopen : (diskWith b.bytes (pattern.drop 1)).openFile =
      (some ⟨b.bytes, false⟩, diskWith b.bytes (pattern.drop 2)) := by
    rw [openFile_diskWith, if_pos ho]
  have hopen' : (diskWith b.bytes (pattern.drop 2)).openFile =
      (some ⟨b.bytes, false⟩, diskWith b.bytes (pattern.drop 3)) := by
    rw [openFile_diskWith, if_pos ho']
  cases hline : lineOf nmbr b.texts with
  | some l =>
    -- the line is gone
    have hnum : IsNumeral nmbr := b.isNumeral_of_lineOf hline hname
    have hdel := deleteDescriptor_lines ⟨[], []⟩ (rfl : (diskWith b.bytes (pattern.drop 1)).bbfile = _)
      b.texts_clean hopen hopen' hline hstart
    refine ⟨⟨[], []⟩, _, fileOf (deleteIn nmbr b.texts), hdel, by omega, ?_⟩
    have hgone : lineOf nmbr (deleteIn nmbr b.texts) = none := by
      have hone := b.texts_distinct nmbr hnum
      rw [← copies_eq_zero, copies_deleteIn hnum]
      omega
    refine not_sameReads b.texts_clean (deleteIn_clean b.texts_clean) (hnm hnum.1) ?_
    rw [hline, hgone]
    exact Bool.noConfusion
  | none =>
    -- no line has the number, and the length of the one to delete is whatever the buffer holds
    have hseek : seekMsgDescriptor [] nmbr (diskWith b.bytes (pattern.drop 1)) =
        some ((0, none), diskWith b.bytes (pattern.drop 2)) :=
      seekMsgDescriptor_absent rfl hopen (Without.of_lineOf_none b.texts_clean hline)
    have hdel : deleteDescriptor ⟨[], []⟩ nmbr (diskWith b.bytes (pattern.drop 1)) =
        some (1, diskWith (Lines.overwrite NUL b.bytes 0 ['\n']) (pattern.drop 3)) := by
      rw [deleteDescriptor, hseek]
      simp only [hopen']
      rfl
    refine ⟨⟨[], []⟩, _, _, hdel, by decide, ?_⟩
    exact not_sameReads_newline b.texts_clean (b.lineOf_eq_none (by decide) (by decide))

/-- A REPLACE that has made its delete and is answered with an error has changed a READ. -/
theorem replace_error_changes (client : Client) (hline : Received line)
    (hkind : requestKind line = "replace".toList)
    (ho : pattern.getD 1 true = true) (hname : BACKSPACE ∉ (replaceTokens (commandOf line)).getD 0 [])
    (hstart : (lineStart ((replaceTokens (commandOf line)).getD 0 []) b.bytes : Int) ≤ INT_MAX)
    (hharm : ¬ ReplaceHarmless b pattern (commandOf line)) :
    ∃ junk response d, replaceCommand junk (commandOf line) client (diskWith b.bytes pattern) =
        some (response, d) ∧ IsError response ∧ ¬ SameReads b.bytes d.bbfile := by
  simp only [ReplaceHarmless, not_or, not_not] at hharm
  obtain ⟨hmsg, hfound, ho', hwrite⟩ := hharm
  obtain ⟨message, hmsg⟩ := Option.ne_none_iff_exists'.1 hmsg
  have hof := replaceOf hline hkind hmsg
  have hlen := length_of_message hmsg
  obtain ⟨nmbr, hnmbr⟩ : ∃ nmbr, nmbr = (replaceTokens (commandOf line)).getD 0 [] := ⟨_, rfl⟩
  rw [← hnmbr] at hof hname hstart hfound
  obtain ⟨junk, ret, file', hdel, hret, hdiffer⟩ := delete_changes ho ho' hname
    (fun hne => ⟨hof.nmbr_unbroken, hne, hof.no_sep, hof.name_le⟩) hstart
  obtain ⟨d, hsync, hd⟩ := syncReplaceAlone_stops client.user message hdel hret hwrite
  have hcheck : ∃ r text, readDescriptor junk.line nmbr (diskWith b.bytes pattern) =
      some ((r, text), diskWith b.bytes (pattern.drop 1)) ∧ r ≠ -1 := by
    cases h₀ : pattern.getD 0 true with
    | false =>
      have h := readDescriptor_fails (i := 0) b.bytes junk.line nmbr h₀
      rw [List.drop_zero] at h
      exact ⟨_, _, h, by decide⟩
    | true =>
      have h := readDescriptor_with (i := 0) junk.line nmbr (rfl : b.bytes = _) b.texts_clean h₀
      rw [List.drop_zero] at h
      obtain ⟨l, hl⟩ := Option.ne_none_iff_exists'.1 fun hnone => hfound ⟨h₀, hnone⟩
      rw [hl] at h
      exact ⟨_, _, h, by omega⟩
  obtain ⟨r, text, hread, hr⟩ := hcheck
  refine ⟨junk, syncErrorResponse, d, ?_, ⟨_, rfl⟩, by rwa [hd]⟩
  rw [replaceCommand, if_pos hlen]
  dsimp only
  rw [replaceTokens_eq hline, hmsg]
  dsimp only
  rw [← hnmbr, hread]
  dsimp only
  rw [if_neg hr, hsync]
  rfl

end

/-! Every request. -/

/-- Whatever the local buffers held: when the request is answered with an error, every READ
    gives the same reply after it as before it. -/
def ErrorKeepsReads (b : Board) (g : NumGen) (pattern : List Bool) (line : CStr) (client : Client) : Prop :=
  ∀ junk response client' g' d,
    serverOperations junk line client g (diskWith b.bytes pattern) = some (response, client', g', d) →
      IsError response → SameReads b.bytes d.bbfile

def Harmless (b : Board) (pattern : List Bool) (line : CStr) : Prop :=
  (requestKind line = "write".toList → WriteHarmless pattern (commandOf line)) ∧
    (requestKind line = "replace".toList → ReplaceHarmless b pattern (commandOf line))

/-- A WRITE whose number is an `int` that no line has; a REPLACE whose seek opens the file, of a
    number without backspaces, whose line starts below 2^31. -/
def Ordinary (b : Board) (g : NumGen) (pattern : List Bool) (line : CStr) : Prop :=
  (requestKind line = "write".toList → maxNumber b.texts + g.count < INT_MAX) ∧
    (requestKind line = "replace".toList → pattern.getD 1 true = true ∧
      BACKSPACE ∉ (replaceTokens (commandOf line)).getD 0 [] ∧
      (lineStart ((replaceTokens (commandOf line)).getD 0 []) b.bytes : Int) ≤ INT_MAX)

section
variable {b : Board} {g : NumGen} {pattern : List Bool} {line : CStr} {client : Client}

theorem requestKind_ne_quit {kind : CStr} (h : requestKind line = kind) (hkind : kind ≠ "quit".toList) :
    ¬ tolwr ((commandOf line).getD 0 []) = "quit".toList := by
  intro hquit
  rw [requestKind, hquit] at h
  exact hkind (h.symm.trans (by decide))

theorem serverOperations_user (hkind : requestKind line = "user".toList) (junk : Junk) (client : Client) (g : NumGen)
    (d : Disk) : serverOperations junk line client g d =
      some ((userCommand (commandOf line) client).2, (userCommand (commandOf line) client).1, g, d) := by
  rw [serverOperations]
  dsimp only
  rw [← requestKind, if_neg (requestKind_ne_quit hkind (by decide)), hkind, if_pos rfl]

theorem serverOperations_read (hkind : requestKind line = "read".toList) (junk : Junk) (client : Client) (g : NumGen)
    (d : Disk) : serverOperations junk line client g d =
      (readCommand junk.line (commandOf line) d).map fun (response, d) => (response, client, g, d) := by
  rw [serverOperations]
  dsimp only
  rw [← requestKind, if_neg (requestKind_ne_quit hkind (by decide)), hkind, if_neg (by decide), if_pos rfl]

theorem serverOperations_write (hkind : requestKind line = "write".toList) (junk : Junk) (client : Client)
    (g : NumGen) (d : Disk) : serverOperations junk line client g d =
      (writeCommand junk (commandOf line) client g d).map fun (response, g, d) => (response, client, g, d) := by
  rw [serverOperations]
  dsimp only
  rw [← requestKind, if_neg (requestKind_ne_quit hkind (by decide)), hkind, if_neg (by decide), if_neg (by decide),
    if_pos rfl]

theorem serverOperations_replace (hkind : requestKind line = "replace".toList) (junk : Junk) (client : Client)
    (g : NumGen) (d : Disk) : serverOperations junk line client g d =
      (replaceCommand junk (commandOf line) client d).map fun (response, d) => (response, client, g, d) := by
  rw [serverOperations]
  dsimp only
  rw [← requestKind, if_neg (requestKind_ne_quit hkind (by decide)), hkind, if_neg (by decide), if_neg (by decide),
    if_neg (by decide), if_pos rfl]

/-- The other requests change neither the file nor the generator. -/
theorem serverOperations_other (hw : requestKind line ≠ "write".toList)
    (hr : requestKind line ≠ "replace".toList) {junk : Junk} {response : CStr} {client' : Client} {g' : NumGen}
    {d d' : Disk} (h : serverOperations junk line client g d = some (response, client', g', d')) :
    d'.bbfile = d.bbfile ∧ g' = g := by
  rw [serverOperations] at h
  dsimp only at h
  rw [← requestKind, if_neg hw, if_neg hr] at h
  split at h
  · simp only [Option.some.injEq, Prod.mk.injEq] at h
    rw [← h.2.2.2, ← h.2.2.1]
    exact ⟨rfl, rfl⟩
  · split at h
    · simp only [Option.some.injEq, Prod.mk.injEq] at h
      rw [← h.2.2.2, ← h.2.2.1]
      exact ⟨rfl, rfl⟩
    · split at h
      · obtain ⟨r, hread, hr⟩ := Option.map_eq_some_iff.1 h
        simp only [Prod.mk.injEq] at hr
        rw [← hr.2.2.2, ← hr.2.2.1]
        exact ⟨readCommand_bbfile hread, rfl⟩
      · simp only [Option.some.injEq, Prod.mk.injEq] at h
        rw [← h.2.2.2, ← h.2.2.1]
        exact ⟨rfl, rfl⟩

/-- **Error answers.** An error answer leaves every READ as it was when the failing open comes
    before the first change of the file, and, on ordinary requests, only then. -/
theorem error_keeps_reads (hline : Received line) (hclient : client.Fits) (hg : g.count < MAX_LEN) :
    (Harmless b pattern line → ErrorKeepsReads b g pattern line client) ∧
      (Ordinary b g pattern line → ErrorKeepsReads b g pattern line client → Harmless b pattern line) := by
  constructor
  · intro hharmless junk response client' g' d h herr
    have hfile : d.bbfile = b.bytes := by
      by_cases hw : requestKind line = "write".toList
      · rw [serverOperations_write hw] at h
        obtain ⟨⟨r, g₁, d₁⟩, hwrite, hr⟩ := Option.map_eq_some_iff.1 h
        simp only [Prod.mk.injEq] at hr
        obtain ⟨rfl, -, rfl, rfl⟩ := hr
        exact write_error_unchanged hline hclient hg (hharmless.1 hw) hwrite herr
      · by_cases hrep : requestKind line = "replace".toList
        · rw [serverOperations_replace hrep] at h
          obtain ⟨⟨r, d₁⟩, hreplace, hr⟩ := Option.map_eq_some_iff.1 h
          simp only [Prod.mk.injEq] at hr
          obtain ⟨rfl, -, -, rfl⟩ := hr
          exact replace_error_unchanged hline hclient hrep (hharmless.2 hrep) hreplace herr
        · exact (serverOperations_other hw hrep h).1
    rw [hfile]
    exact fun junk line _ => rfl
  · intro hord hkeeps
    constructor
    · intro hw
      by_contra hharm
      obtain ⟨response, g', d, hwrite, herr, hdiffer⟩ :=
        write_error_changes hline hclient hg (hord.1 hw) hharm ⟨[], []⟩
      apply hdiffer
      apply hkeeps ⟨[], []⟩ response client g' d _ herr
      rw [serverOperations_write hw, hwrite]
      rfl
    · intro hrep
      by_contra hharm
      obtain ⟨ho, hname, hstart⟩ := hord.2 hrep
      obtain ⟨junk, response, d, hreplace, herr, hdiffer⟩ :=
        replace_error_changes client hline hrep ho hname hstart hharm
      apply hdiffer
      apply hkeeps junk response client g d _ herr
      rw [serverOperations_replace hrep, hreplace]
      rfl

end

/-- A WRITE whose first open of the append fails. -/
theorem error_keeps_reads_write :
    ErrorKeepsReads oneLine ⟨[]⟩ [true, false] "WRITE x\r".toList Client.start := by
  have hkind : requestKind "WRITE x\r".toList = "write".toList := by decide +kernel
  refine (error_keeps_reads ⟨⟨by decide, by decide⟩, by decide⟩ Client.start_fits (by decide)).1 ⟨?_, ?_⟩
  · intro _
    exact Or.inr (Or.inl (by decide))
  · intro h
    rw [hkind] at h
    exact absurd h (by decide)

/-- A REPLACE whose append fails is answered with an error, and its number has no line any more. -/
theorem error_loses_line :
    ¬ ErrorKeepsReads oneLine ⟨[]⟩ [true, true, true, false] "REPLACE 1/n\r".toList Client.start := by
  intro hkeeps
  have hcall : serverOperations ⟨[], []⟩ "REPLACE 1/n\r".toList Client.start ⟨[]⟩
      (diskWith oneLine.bytes [true, true, true, false]) =
        some (syncErrorResponse, Client.start, ⟨[]⟩, diskWith "\x08\x08\x08\x08\x08\n".toList []) := by
    decide +kernel
  have hsame := hkeeps _ _ _ _ _ hcall ⟨_, rfl⟩ [] "READ 1\r".toList ⟨⟨by decide, by decide⟩, by decide⟩
  exact absurd hsame (by decide +kernel)

end BulletinBoard
