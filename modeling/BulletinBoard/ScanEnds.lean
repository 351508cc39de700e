import BulletinBoard.Failures
import BulletinBoard.Housekeeping

/- Which scans of the bbfile end. A scan loops until `readline` answers `recv_nodata`, and a
   read that fails answers -1: from the first failure on every round finds the same line
   buffer. Such a scan ends only when it stops at a line, the one in the buffer included,
   which the scans for the largest number and of housekeeping never do.

   * `findLine_ends_iff`, `scanMax_ends_iff`, `copyLines_ends_iff`: when a loop ends, with
     as many rounds as it may need; the rounds of the model are enough.
   * `scan_ends_iff`: when each of the six operations ends. -/
namespace BulletinBoard

/-! The line buffer. -/

/-- A buffer is its C string and a rest that begins with a NUL, if there is one. -/
theorem cstr_append_rest (buf : List Char) : ∃ rest, buf = cstr buf 0 ++ rest ∧ cstr rest 0 = [] := by
  obtain ⟨rest, hrest⟩ : ∃ rest, rest = buf.dropWhile (· != NUL) := ⟨_, rfl⟩
  have hhead := List.head?_dropWhile_not (· != NUL) buf
  rw [← hrest] at hhead
  refine ⟨rest, by rw [cstr, List.drop_zero, hrest, List.takeWhile_append_dropWhile], ?_⟩
  cases rest with
  | nil => rfl
  | cons c rest =>
    have hc : c = NUL := by simpa using hhead
    rw [cstr_cons, if_pos hc]

theorem nul_not_mem_cstr (buf : List Char) : NUL ∉ cstr buf 0 := by
  intro h
  have hne := List.mem_takeWhile_imp h
  exact absurd hne (by decide)

theorem firstField_firstField (line : CStr) : firstField (firstField line) = firstField line :=
  by rw [firstField, firstField, List.takeWhile_takeWhile]; simp

/-- The first token of a line buffer, which is all that tokenizing leaves in it. -/
theorem bblineTokenize_first (line : List Char) :
    (tokenStrings (bblineTokenize line (cstr line 0).length)).getD 0 [] = firstField (cstr line 0) ∧
      cstr (bblineTokenize line (cstr line 0).length).1 0 = firstField (cstr line 0) := by
  obtain ⟨rest, hline, hrest⟩ := cstr_append_rest line
  have hlen : (cstr line 0).length ≤ line.length := by
    have := congrArg List.length hline
    rw [List.length_append] at this
    omega
  have htokens : tokenStrings (bblineTokenize line (cstr line 0).length) = tokensOf (cstr line 0) := by
    have h := bblineTokenize_tokens (nul_not_mem_cstr line) hrest (le_refl (cstr line 0).length)
    rw [← hline] at h
    rw [h, Cut.cutAt_of_length_le _ _ _ (le_refl _)]
    rfl
  have hfirst : (tokenStrings (bblineTokenize line (cstr line 0).length)).getD 0 [] =
      cstr (bblineTokenize line (cstr line 0).length).1 0 := by
    obtain ⟨more, h, -, -⟩ := tokenizeLoop_spec isSlash (cstr line 0).length 0 line [0] line rfl (Nat.zero_le _)
      (by simpa using hlen) (by simp)
    rw [tokenStrings, bblineTokenize, h]
    rfl
  have hhead := tokensOf_head (cstr line 0)
  rw [← htokens] at hhead
  exact ⟨hhead, hfirst.symm.trans hhead⟩

/-! The scans for a number. -/

/-- The texts that a scan looks at, up to the first read that fails. -/
inductive Reads : Stream → List Char → CStr → Prop where
  | line {fd : Stream} {buf : List Char} : (readline buf BBLINE_LEN fd).1 ≠ recvNodata →
      Reads fd buf (cstr (readline buf BBLINE_LEN fd).2.1 0)
  | next {fd : Stream} {buf : List Char} {text : CStr} : 0 ≤ (readline buf BBLINE_LEN fd).1 →
      Reads (readline buf BBLINE_LEN fd).2.2
        (bblineTokenize (readline buf BBLINE_LEN fd).2.1 (cstr (readline buf BBLINE_LEN fd).2.1 0).length).1 text →
      Reads fd buf text

section
variable {id : CStr} {fd : Stream} {buf : List Char}

/-- One round. -/
theorem findLine_succ (id : CStr) (f : Nat) (fd : Stream) (buf : List Char)
    (h : (readline buf BBLINE_LEN fd).1 ≠ recvNodata) :
    findLine id (f + 1) fd buf =
      if firstField (cstr (readline buf BBLINE_LEN fd).2.1 0) = id then
        some (some ⟨cstr (readline buf BBLINE_LEN fd).2.1 0, tokenStrings (bblineTokenize
          (readline buf BBLINE_LEN fd).2.1 (cstr (readline buf BBLINE_LEN fd).2.1 0).length),
          (readline buf BBLINE_LEN fd).2.2⟩)
      else findLine id f (readline buf BBLINE_LEN fd).2.2
        (bblineTokenize (readline buf BBLINE_LEN fd).2.1 (cstr (readline buf BBLINE_LEN fd).2.1 0).length).1 := by
  rw [findLine]
  dsimp only
  rw [if_neg h, (bblineTokenize_first _).1]

/-- After a failed read the buffer stays, and so does what the rounds find in it. -/
theorem findLine_stays : ∀ (f : Nat) {buf : List Char}, firstField (cstr buf 0) ≠ id →
    findLine id f ⟨[], true⟩ buf = none
  | 0, _, _ => rfl
  | f + 1, buf, hne => by
    have hread : readline buf BBLINE_LEN ⟨[], true⟩ = (-1, buf, ⟨[], true⟩) := readline_error (by decide)
    have hrc : (readline buf BBLINE_LEN ⟨[], true⟩).1 ≠ recvNodata := by
      rw [hread]
      exact (by decide : (-1 : Int) ≠ recvNodata)
    rw [findLine_succ id f _ buf hrc, hread, if_neg hne]
    apply findLine_stays f
    rw [(bblineTokenize_first buf).2, firstField_firstField]
    exact hne

theorem readline_negative (h : (readline buf BBLINE_LEN fd).1 < 0) :
    (readline buf BBLINE_LEN fd).2.2 = ⟨[], fd.fails⟩ := by
  have hlast : ∀ (max : Nat) (bytes : List Char) (fails : Bool),
      (takeLine max bytes fails).2.2 = .error ∨ (takeLine max bytes fails).2.2 = .eof →
        (takeLine max bytes fails).2.1 = [] := by
    intro max bytes fails
    induction max generalizing bytes with
    | zero => simp [takeLine]
    | succ max ih =>
      cases bytes with
      | nil => simp [takeLine]
      | cons c bytes =>
        rw [takeLine]
        split
        · simp
        · exact ih bytes
  rw [readline_descriptor]
  rw [readline] at h
  rcases hr : takeLine BBLINE_LEN fd.bytes fd.fails with ⟨line, rest, e⟩
  have hrest := hlast BBLINE_LEN fd.bytes fd.fails
  rw [hr] at h hrest
  have hlen : ¬ (line.length : Int) < 0 := not_lt.2 (Int.natCast_nonneg _)
  cases e with
  | error => exact congrArg (fun r => (⟨r, fd.fails⟩ : Stream)) (hrest (Or.inl rfl))
  | eof => exact congrArg (fun r => (⟨r, fd.fails⟩ : Stream)) (hrest (Or.inr rfl))
  | newline => exact absurd h hlen
  | full => exact absurd h hlen

/-- A scan of failing reads that ends has looked at a text of the number. -/
theorem findLine_reads : ∀ (f : Nat) {fd : Stream} {buf : List Char}, fd.fails = true →
    findLine id f fd buf ≠ none → ∃ text, Reads fd buf text ∧ firstField text = id
  | 0, _, _, _, h => absurd rfl h
  | f + 1, fd, buf, hfails, h => by
    have hrc : (readline buf BBLINE_LEN fd).1 ≠ recvNodata := by
      obtain ⟨bytes, fails⟩ := fd
      obtain rfl : fails = true := hfails
      exact (readline_fails buf BBLINE_LEN bytes).1
    by_cases hid : firstField (cstr (readline buf BBLINE_LEN fd).2.1 0) = id
    · exact ⟨_, .line hrc, hid⟩
    · rw [findLine_succ id f fd buf hrc, if_neg hid] at h
      by_cases hneg : (readline buf BBLINE_LEN fd).1 < 0
      · -- the read has failed: no later round finds anything else
        rw [readline_negative hneg, hfails] at h
        refine absurd (findLine_stays f ?_) h
        rw [(bblineTokenize_first _).2, firstField_firstField]
        exact hid
      · have hfd : (readline buf BBLINE_LEN fd).2.2.fails = true := by
          rw [readline_descriptor]
          exact hfails
        obtain ⟨text, hreads, htext⟩ := findLine_reads f hfd h
        exact ⟨text, .next (not_lt.1 hneg) hreads, htext⟩

/-- And with a text of the number it ends in as many rounds as there are bytes, and one more. -/
theorem Reads.findLine_ends {text : CStr} (h : Reads fd buf text) (hid : firstField text = id) :
    ∀ {f : Nat}, fd.bytes.length < f → findLine id f fd buf ≠ none := by
  induction h with
  | line hrc =>
    intro f hf
    obtain ⟨f, rfl⟩ := Nat.exists_eq_succ_of_ne_zero (Nat.ne_zero_of_lt hf)
    rw [findLine_succ id f _ _ hrc, if_pos hid]
    exact Option.some_ne_none _
  | @next fd buf text hpos _ ih =>
    intro f hf
    obtain ⟨f, rfl⟩ := Nat.exists_eq_succ_of_ne_zero (Nat.ne_zero_of_lt hf)
    have hrc : (readline buf BBLINE_LEN fd).1 ≠ recvNodata := by
      intro hc
      rw [hc] at hpos
      exact absurd hpos (by decide)
    rw [findLine_succ id f fd buf hrc]
    split
    · exact Option.some_ne_none _
    · apply ih hid
      by_cases hbytes : fd.bytes = []
      · -- a read at the end has no count
        obtain ⟨bytes, fails⟩ := fd
        obtain rfl : bytes = [] := hbytes
        cases fails with
        | false =>
          rw [readline_end] at hpos
          exact absurd hpos (by decide : ¬ 0 ≤ recvNodata)
        | true =>
          rw [readline_error (by decide)] at hpos
          exact absurd hpos (by decide : ¬ (0 : Int) ≤ -1)
      · exact lt_of_lt_of_le (readline_rest (by decide) hbytes) (Nat.le_of_lt_succ hf)

/-- What lets a scan for the number end. -/
def ScanStops (id : CStr) (fd : Stream) (buf : List Char) : Prop :=
  fd.fails = false ∨ ∃ text, Reads fd buf text ∧ firstField text = id

theorem ScanStops.of_ends {f : Nat} (h : findLine id f fd buf ≠ none) : ScanStops id fd buf := by
  cases hfails : fd.fails with
  | false => exact Or.inl hfails
  | true => exact Or.inr (findLine_reads f hfails h)

theorem findLine_ends_iff : findLine id (scanRounds fd) fd buf ≠ none ↔ ScanStops id fd buf := by
  have hlen : fd.bytes.length < scanRounds fd := Nat.lt_add_of_pos_right (by decide)
  constructor
  · exact ScanStops.of_ends
  · rintro (hfails | ⟨text, hreads, hid⟩)
    · exact findLine_ends id _ buf hfails hlen
    · exact hreads.findLine_ends hid hlen

/-- The rounds of the model are enough for a scan that ends. -/
theorem findLine_rounds {f : Nat} (h : findLine id f fd buf ≠ none) : findLine id (scanRounds fd) fd buf ≠ none :=
  findLine_ends_iff.2 (.of_ends h)

end

/-! The scans of the whole file. -/

section
variable {fd : Stream}

theorem scanMax_ends : ∀ (f : Nat) {fd : Stream} (buf : List Char) (max : Int), fd.fails = false →
    fd.bytes.length < f → scanMax f fd buf max ≠ none
  | 0, _, _, _, _, hf => absurd hf (Nat.not_lt_zero _)
  | f + 1, ⟨[], fails⟩, buf, max, hfails, _ => by
    obtain rfl : fails = false := hfails
    rw [scanMax_eof]
    exact Option.some_ne_none _
  | f + 1, ⟨c :: bytes, fails⟩, buf, max, hfails, hf => by
    have hrest := @readline_rest buf BBLINE_LEN ⟨c :: bytes, fails⟩ (by decide) (List.cons_ne_nil c bytes)
    rw [scanMax]
    dsimp only
    split
    · exact Option.some_ne_none _
    · apply scanMax_ends f
      · rw [readline_descriptor]
        exact hfails
      · exact lt_of_lt_of_le hrest (Nat.le_of_lt_succ hf)

theorem copyLines_ends : ∀ (f : Nat) {fd : Stream} (buf : List Char), fd.fails = false →
    fd.bytes.length < f → copyLines f fd buf ≠ none
  | 0, _, _, _, hf => absurd hf (Nat.not_lt_zero _)
  | f + 1, ⟨[], fails⟩, buf, hfails, _ => by
    obtain rfl : fails = false := hfails
    rw [copyLines, readline_end]
    exact Option.some_ne_none _
  | f + 1, ⟨c :: bytes, fails⟩, buf, hfails, hf => by
    have hrest := @readline_rest buf BBLINE_LEN ⟨c :: bytes, fails⟩ (by decide) (List.cons_ne_nil c bytes)
    rw [copyLines]
    dsimp only
    split
    · exact Option.some_ne_none _
    · intro hnone
      refine copyLines_ends f _ ?_ ?_ (Option.map_eq_none_iff.1 hnone)
      · rw [readline_descriptor]
        exact hfails
      · exact lt_of_lt_of_le hrest (Nat.le_of_lt_succ hf)

/-- A failed read has no copy either. -/
theorem copyLines_fails : ∀ (f : Nat) {fd : Stream} (buf : List Char), fd.fails = true →
    copyLines f fd buf = none
  | 0, _, _, _ => rfl
  | f + 1, fd, buf, hfails => by
    have hrc : (readline buf BBLINE_LEN fd).1 ≠ recvNodata := by
      obtain ⟨bytes, fails⟩ := fd
      obtain rfl : fails = true := hfails
      exact (readline_fails buf BBLINE_LEN bytes).1
    have hfd : (readline buf BBLINE_LEN fd).2.2.fails = true := by
      rw [readline_descriptor]
      exact hfails
    rw [copyLines]
    dsimp only
    rw [if_neg hrc, copyLines_fails f _ hfd]
    rfl

/-- No number of rounds ends the scan for the largest number, if not the model's. -/
theorem scanMax_ends_iff {f : Nat} (hf : fd.bytes.length < f) (buf : List Char) (max : Int) :
    scanMax f fd buf max ≠ none ↔ fd.fails = false := by
  obtain ⟨bytes, fails⟩ := fd
  cases fails with
  | false => exact ⟨fun _ => rfl, fun h => scanMax_ends f buf max h hf⟩
  | true => simp [scanMax_fails]

theorem copyLines_ends_iff {f : Nat} (hf : fd.bytes.length < f) (buf : List Char) :
    copyLines f fd buf ≠ none ↔ fd.fails = false := by
  constructor
  · intro h
    by_contra hfails
    exact h (copyLines_fails f buf (Bool.not_eq_false _ ▸ hfails))
  · intro hfails
    exact copyLines_ends f buf hfails hf

end

/-! The operations. -/

/-- A call of an operation that scans the bbfile. -/
inductive ScanCall where
  | read_descriptor (msg_number : CStr)
  | read_tokenized_descriptor (msg_number msg_user msg_message : CStr)
  | delete_descriptor (msg_number : CStr)
  | replace_descriptor (msg_number user message : CStr)
  | generate_number (gen_on_queue : NumGen)
  | housekeep_descriptor (bbfile_cache : Option (List Char)) (destination remove rename : Bool)

/-- The call returns. The scan is done on the first descriptor that the call opens. -/
def ScanCall.Ends (junk : Junk) (d : Disk) : ScanCall → Prop
  | .read_descriptor id => readDescriptor junk.line id d ≠ none
  | .read_tokenized_descriptor id user message => readTokenizedDescriptor junk.line id user message d ≠ none
  | .delete_descriptor id => deleteDescriptor junk id d ≠ none
  | .replace_descriptor id user message => replaceDescriptor junk id user message d ≠ none
  | .generate_number g => generateNumber junk.line g d ≠ none
  | .housekeep_descriptor cache destination remove rename =>
    housekeepDescriptor junk.line ⟨d.opens.headD .ok, destination, remove, rename⟩ ⟨some d.bbfile, cache⟩ ≠ none

/-- The first open fails. -/
def OpenFails (d : Disk) : Prop := d.openFile.1 = none

/-- The first open succeeds, and no read of its descriptor fails. -/
def ReadsSucceed (d : Disk) : Prop := ∃ fd, d.openFile.1 = some fd ∧ fd.fails = false

/-- The scan looks at a text of the number, on the descriptor -1 at what the buffer holds. -/
def FindsNumber (junk : Junk) (id : CStr) (d : Disk) : Prop :=
  ∃ text, Reads (d.openFile.1.getD badDescriptor) junk.line text ∧ firstField text = id

def ScanCall.Stops (junk : Junk) (d : Disk) : ScanCall → Prop
  | .read_descriptor id => OpenFails d ∨ ReadsSucceed d ∨ FindsNumber junk id d
  | .read_tokenized_descriptor id _ _ => ReadsSucceed d ∨ FindsNumber junk id d
  | .delete_descriptor id => ReadsSucceed d ∨ FindsNumber junk id d
  | .replace_descriptor id _ _ => ReadsSucceed d ∨ FindsNumber junk id d
  | .generate_number _ => OpenFails d ∨ ReadsSucceed d
  | .housekeep_descriptor _ _ _ _ => ReadsSucceed d

section
variable {junk : Junk} {id : CStr} {d : Disk}

theorem scanStops_getD : ScanStops id (d.openFile.1.getD badDescriptor) junk.line ↔
    ReadsSucceed d ∨ FindsNumber junk id d := by
  rw [ScanStops, FindsNumber, ReadsSucceed]
  cases d.openFile.1 with
  | none => simp [badDescriptor]
  | some fd => simp

theorem seekMsgDescriptor_ends_iff : seekMsgDescriptor junk.line id d ≠ none ↔
    ReadsSucceed d ∨ FindsNumber junk id d := by
  rw [← scanStops_getD, ← findLine_ends_iff, seekMsgDescriptor]
  dsimp only
  split <;> simp [*]

theorem deleteDescriptor_ends_iff : deleteDescriptor junk id d ≠ none ↔
    ReadsSucceed d ∨ FindsNumber junk id d := by
  rw [← seekMsgDescriptor_ends_iff, deleteDescriptor]
  split
  · next h => simp [h]
  · next h =>
    rw [h]
    dsimp only
    split <;> simp

theorem replaceDescriptor_ends_iff {user message : CStr} : replaceDescriptor junk id user message d ≠ none ↔
    ReadsSucceed d ∨ FindsNumber junk id d := by
  rw [← deleteDescriptor_ends_iff, replaceDescriptor]
  split
  · next h => simp [h]
  · next h =>
    rw [h]
    dsimp only
    split
    · simp
    · split <;> simp

theorem readTokenizedDescriptor_ends_iff {user message : CStr} :
    readTokenizedDescriptor junk.line id user message d ≠ none ↔ ReadsSucceed d ∨ FindsNumber junk id d := by
  rw [← scanStops_getD, ← findLine_ends_iff, readTokenizedDescriptor]
  dsimp only
  split <;> simp [*]

/-- A read tests the descriptor before its scan. -/
theorem readDescriptor_ends_iff : readDescriptor junk.line id d ≠ none ↔
    OpenFails d ∨ ReadsSucceed d ∨ FindsNumber junk id d := by
  rw [← scanStops_getD, ← findLine_ends_iff, readDescriptor, OpenFails]
  dsimp only
  split
  · next h => simp [h]
  · next fd h =>
    rw [h, Option.getD_some]
    split <;> simp [*]

theorem generateNumber_ends_iff {g : NumGen} : generateNumber junk.line g d ≠ none ↔
    OpenFails d ∨ ReadsSucceed d := by
  rw [generateNumber, OpenFails, ReadsSucceed]
  dsimp only
  split
  · next h => simp [h]
  · next fd h =>
    have hends : scanMax (scanRounds fd) fd junk.line 0 ≠ none ↔ fd.fails = false :=
      scanMax_ends_iff (Nat.lt_add_of_pos_right (by decide)) junk.line 0
    rw [h]
    split
    · next hnone => simpa [hnone] using hends
    · next hsome => simpa [hsome] using hends

theorem openFile_housekeep (d : Disk) : (Disk.openFile ⟨d.bbfile, [d.opens.headD .ok]⟩).1 = d.openFile.1 := by
  obtain ⟨bbfile, opens⟩ := d
  rcases opens with - | ⟨o, opens⟩
  · rfl
  · cases o with
    | ok => rfl
    | fails => rfl
    | readFails k => rfl

theorem housekeepDescriptor_ends_iff {cache : Option (List Char)} {destination remove rename : Bool} :
    housekeepDescriptor junk.line ⟨d.opens.headD .ok, destination, remove, rename⟩ ⟨some d.bbfile, cache⟩ ≠ none ↔
      ReadsSucceed d := by
  have hfd : ∀ fd : Stream, copyLines (scanRounds fd) fd junk.line ≠ none ↔ fd.fails = false :=
    fun fd => copyLines_ends_iff (Nat.lt_add_of_pos_right (by decide)) junk.line
  rw [housekeepDescriptor, ReadsSucceed]
  dsimp only
  rw [Option.bind_some, openFile_housekeep]
  cases ho : d.openFile.1 with
  | none =>
    have hbad := hfd badDescriptor
    rw [Option.getD_none]
    split
    · simp
    · next hsome =>
      rw [hsome] at hbad
      exact absurd (hbad.1 (Option.some_ne_none _)) (by decide)
  | some fd =>
    have hends := hfd fd
    rw [Option.getD_some]
    split
    · next hnone => simpa [hnone] using hends
    · next hsome => simpa [hsome] using hends

/-- **The operations that end** on every number, line buffer and outcome of the first open and its
    reads. -/
theorem scan_ends_iff (c : ScanCall) (junk : Junk) (d : Disk) : c.Ends junk d ↔ c.Stops junk d := by
  cases c with
  | read_descriptor id => exact readDescriptor_ends_iff
  | read_tokenized_descriptor id user message => exact readTokenizedDescriptor_ends_iff
  | delete_descriptor id => exact deleteDescriptor_ends_iff
  | replace_descriptor id user message => exact replaceDescriptor_ends_iff
  | generate_number g => exact generateNumber_ends_iff
  | housekeep_descriptor cache destination remove rename => exact housekeepDescriptor_ends_iff

/-- The scan of a REPLACE does not end when the bbfile cannot be opened. -/
theorem scan_never_ends : ¬ ScanCall.Ends ⟨[], []⟩ ⟨fileOf ["1/u/m".toList], [.fails]⟩
    (.replace_descriptor "1".toList "u".toList "m".toList) := by
  have hnone : replaceDescriptor ⟨[], []⟩ "1".toList "u".toList "m".toList
      ⟨fileOf ["1/u/m".toList], [.fails]⟩ = none := by decide +kernel
  exact fun h => h hnone

end

end BulletinBoard
