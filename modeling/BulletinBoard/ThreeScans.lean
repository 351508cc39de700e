import BulletinBoard.Store

/- The three scans of descriptor.cc for a number: `read_descriptor` puts the text of the line together,
   `read_tokenized_descriptor` copies its user and its message, and `seek_msg_descriptor` measures
   it. On any file of short lines, well formed or not, they stop at the same line and give the same
   texts. The offset of the seek is an `int`: it is the line's as long as the line starts below
   2^31. -/
namespace BulletinBoard

/-- A line of the file: no NUL, no newline, fewer than 1024 bytes. -/
structure ShortLine (line : CStr) : Prop where
  no_newline : '\n' ∉ line
  no_nul : NUL ∉ line
  length_lt : line.length < MAX_LEN

theorem ShortLine.clean {line : CStr} (h : ShortLine line) : Clean line :=
  ⟨h.no_newline, h.no_nul, Nat.lt_trans h.length_lt (by decide)⟩

/-- What the scans answer for a number, whatever the buffers hold: -1 where no line has it, and otherwise
    one text, and the place and the length of the line. -/
structure ScansAgree (file : List Char) (id : CStr) : Prop where
  absent : ∀ (junk msg_user msg_message : CStr), lineOf id (linesOf file) = none →
    (readDescriptor junk id (diskOf file)).map (fun r => r.1.1) = some (-1) ∧
      (readTokenizedDescriptor junk id msg_user msg_message (diskOf file)).map (fun r => r.1.1) = some (-1)
  text : ∀ (junk msg_user msg_message : CStr) (l : CStr), lineOf id (linesOf file) = some l →
    3 ≤ (tokensOf l).length → ∃ user message : CStr,
      readTokenizedDescriptor junk id msg_user msg_message (diskOf file) =
          some (((message.length : Int) + user.length, user, message), diskOf file) ∧
        (readDescriptor junk id (diskOf file)).map (fun r => r.1.2) = some (some (user ++ '/' :: message))
  place : ∀ (junk : List Char) (l : CStr), lineOf id (linesOf file) = some l → 3 ≤ (tokensOf l).length →
    (seekMsgDescriptor junk id (diskOf file)).map (fun r => r.1) =
      some ((lineStart id file : Int), some (showInt l.length))

/-- A line's text is its user, a slash and its message. -/
theorem lineText_tokenized (l msg_user msg_message : CStr) (h : 3 ≤ (tokensOf l).length) :
    lineText l = (tokenizedText l msg_user msg_message).1 ++ '/' :: (tokenizedText l msg_user msg_message).2 := by
  rw [lineText, assembleLine, tokenizedText]
  split
  · rfl
  · have hthree : (tokensOf l).length = 3 := by omega
    rw [if_pos hthree, if_pos hthree]

/-- The seek gives the offset of the line as an `int`. -/
theorem seekMsgDescriptor_lines {ls : List CStr} {id l : CStr} (hc : ∀ l ∈ ls, Clean l) (h : lineOf id ls = some l)
    (junk : List Char) : seekMsgDescriptor junk id (diskOf (fileOf ls)) =
      some ((toInt (lineStart id (fileOf ls)), some (showInt l.length)), diskOf (fileOf ls)) := by
  -- the lines before it have other numbers, so the scan comes to this one
  obtain ⟨a, c, rfl, ha, hl, hk⟩ := lineOf_split hc h
  rw [lineStart_append ha hl (fun x hx => hc x (by simp [hx])) hk]
  have hfile : (diskOf (fileOf (a ++ l :: c))).bbfile = fileOf a ++ (l ++ '\n' :: fileOf c) := by
    rw [diskOf_bbfile, fileOf_append, fileOf_cons]
  exact seekMsgDescriptor_at hfile (openFile_diskOf _) ha hl hk

/-- An offset is an `int` only below 2^31. -/
theorem toInt_natCast_eq_iff (n : Nat) : toInt n = n ↔ (n : Int) ≤ INT_MAX := by
  constructor
  · intro h
    have hlt := Int.bmod_lt (x := (n : Int)) (m := 2 ^ 32) (by decide)
    rw [toInt] at h
    rw [h] at hlt
    unfold INT_MAX
    omega
  · exact toInt_of_range (by omega)

/-- **The scans agree on every number**, whose line starts below 2^31 if it has three tokens. -/
theorem scans_agree_iff {ls : List CStr} (h : ∀ l ∈ ls, ShortLine l) (id : CStr) :
    ScansAgree (fileOf ls) id ↔ ∀ l, lineOf id ls = some l → 3 ≤ (tokensOf l).length →
      (lineStart id (fileOf ls) : Int) ≤ INT_MAX := by
  have hc : ∀ l ∈ ls, Clean l := fun l hl => (h l hl).clean
  have hlines : linesOf (fileOf ls) = ls := linesOf_fileOf hc
  constructor
  · intro hagree l hl htokens
    -- the place alone decides: the texts agree on every file
    have hplace := hagree.place [] l (by rw [hlines]; exact hl) htokens
    rw [seekMsgDescriptor_lines hc hl, Option.map_some, Option.some.injEq, Prod.mk.injEq] at hplace
    exact (toInt_natCast_eq_iff _).1 hplace.1
  · intro hstart
    refine ⟨fun junk msg_user msg_message hnone => ?_, fun junk msg_user msg_message l hl htokens => ?_,
      fun junk l hl htokens => ?_⟩
    · rw [hlines] at hnone
      rw [readDescriptor_diskOf rfl hc, readTokenizedDescriptor_diskOf rfl hc, hnone]
      exact ⟨rfl, rfl⟩
    · rw [hlines] at hl
      refine ⟨(tokenizedText l msg_user msg_message).1, (tokenizedText l msg_user msg_message).2, ?_, ?_⟩
      · rw [readTokenizedDescriptor_diskOf rfl hc, hl]
        rfl
      · rw [readDescriptor_diskOf rfl hc, hl, ← lineText_tokenized l msg_user msg_message htokens]
        rfl
    · rw [hlines] at hl
      rw [seekMsgDescriptor_lines hc hl, (toInt_natCast_eq_iff _).2 (hstart l hl htokens)]
      rfl

/-- A line that no board has, with an empty user. -/
theorem scans_agree_malformed : (∀ l ∈ ["x".toList, "n//a/ b".toList], ShortLine l) ∧
    ScansAgree (fileOf ["x".toList, "n//a/ b".toList]) "n".toList := by
  have h : ∀ l ∈ ["x".toList, "n//a/ b".toList], ShortLine l := by
    intro l hl
    simp only [List.mem_cons, List.not_mem_nil, or_false] at hl
    rcases hl with rfl | rfl
    · exact ⟨by decide, by decide, by decide⟩
    · exact ⟨by decide, by decide, by decide⟩
  refine ⟨h, (scans_agree_iff h "n".toList).2 fun l _ _ => ?_⟩
  decide

/-- A line that starts at byte 2^31. -/
theorem scans_disagree : ∃ ls : List CStr, (∀ l ∈ ls, ShortLine l) ∧ ¬ ScansAgree (fileOf ls) ['1'] := by
  have hwithout := without_deletedLines (by decide : 1023 < BBLINE_LEN) 2097152
  have hline : lineOf ['1'] (List.replicate 2097152 (deletedLine 1023) ++ [lastLine.text]) = some lastLine.text := by
    rw [lineOf_append, lineOf_eq_none.2 hwithout.other]
    rfl
  have hstart := lineStart_append hwithout lastLine.clean (c := []) (by simp) lastLine.firstField
  refine ⟨List.replicate 2097152 (deletedLine 1023) ++ [lastLine.text], ?_, ?_⟩
  · intro l hl
    rcases List.mem_append.1 hl with hl | hl
    · obtain rfl := List.eq_of_mem_replicate hl
      exact ⟨(clean_deletedLine (by decide)).no_newline, (clean_deletedLine (by decide)).no_nul,
        by simp only [deletedLine, List.length_replicate]; decide⟩
    · obtain rfl := List.mem_singleton.1 hl
      exact ⟨lastLine.clean.no_newline, lastLine.clean.no_nul, by decide⟩
  · intro hagree
    have hclean : ∀ l ∈ List.replicate 2097152 (deletedLine 1023) ++ [lastLine.text], Clean l := by
      intro l hl
      rcases List.mem_append.1 hl with hl | hl
      · exact hwithout.clean l hl
      · obtain rfl := List.mem_singleton.1 hl
        exact lastLine.clean
    have hlines := linesOf_fileOf hclean
    have hplace := hagree.place [] lastLine.text (by rw [hlines]; exact hline) (by decide)
    rw [seekMsgDescriptor_at (by rw [diskOf_bbfile, fileOf_append]; rfl) (openFile_diskOf _) hwithout lastLine.clean
      lastLine.firstField, hstart, deletedLines_length] at hplace
    simp only [Option.map_some, Option.some.injEq, Prod.mk.injEq] at hplace
    exact absurd hplace.1 (by decide)

end BulletinBoard
