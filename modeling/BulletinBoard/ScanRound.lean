import BulletinBoard.Scan
import BulletinBoard.Lib.Cursor
import BulletinBoard.Lib.Loop
import BulletinBoard.Lib.Pool

/- descriptor.cc: the scans of the bbfile, one `read` at a time, so that other threads can
   change the file in between. A scan keeps an offset and a line buffer; `readline` takes
   bytes up to a newline, and the loop around it tokenizes the line and looks at its first
   token. What is proved: while the file does not change, the bytes add up to the
   `readline` of tcp-utils.cc; and on a file of lines that are read whole, a scan that has
   taken part of a line goes on with what the file has there now, so that the line it looks
   at in the end is the file's line unless that was overwritten on the way. -/
namespace BulletinBoard

/-- A scan: the offset of its descriptor, what the `readline` in progress has stored, and
    the line buffer behind that. -/
structure Cursor where
  offset : Nat
  got : List Char
  line : List Char
  deriving DecidableEq, Repr

/-- `buf[i] = '\0'; return i;`. -/
def Cursor.terminated (c : Cursor) : Cursor :=
  ⟨c.offset, [], c.got ++ NUL :: c.line.drop (c.got.length + 1)⟩

/-- What one `read(fd, &tmp, 1)` of `readline` leads to. -/
inductive ByteRead where
  | goesOn (c : Cursor)
  | line (c : Cursor)
  | nodata
  deriving DecidableEq, Repr

/-- A round of the loop of `readline(fd, line, BBLINE_LEN)`; the round that fills the buffer is
    its last. -/
def Cursor.take (file : List Char) (c : Cursor) : ByteRead :=
  match file[c.offset]? with
  | none => if c.got = [] then .nodata else .line c.terminated
  | some tmp =>
    if tmp = '\n' then .line { c with offset := c.offset + 1 }.terminated
    else
      let c : Cursor := ⟨c.offset + 1, c.got ++ [tmp], c.line⟩
      if c.got.length < BBLINE_LEN then .goesOn c else .line c.terminated

/-- A round of a scan for a number: a byte, and the line when it is complete. -/
inductive SeekRound where
  | goesOn (c : Cursor)
  | found (text : CStr) (tokens : List CStr) (c : Cursor)
  | nodata
  deriving DecidableEq, Repr

def Cursor.seek (file : List Char) (msg_number : CStr) (c : Cursor) : SeekRound :=
  match c.take file with
  | .goesOn c => .goesOn c
  | .nodata => .nodata
  | .line c =>
    let text := cstr c.line 0
    let r := bblineTokenize c.line text.length
    let tokens := tokenStrings r
    if tokens.getD 0 [] = msg_number then .found text tokens c
    else .goesOn { c with line := r.1 }

/-- A round of the scan for the largest number. -/
def Cursor.scan (file : List Char) (max : Int) (c : Cursor) : Option (Int × Cursor) :=
  match c.take file with
  | .goesOn c => some (max, c)
  | .nodata => none
  | .line c =>
    let r := bblineTokenize c.line (cstr c.line 0).length
    let n := atoi ((tokenStrings r).getD 0 [])
    some (if n > max then n else max, { c with line := r.1 })

/-! The rounds against `readline`. -/

/-- The loop of `readline` over a file that does not change. -/
def Cursor.round (file : List Char) (c : Cursor) : Cursor ⊕ Option Cursor :=
  match c.take file with
  | .goesOn c => .inl c
  | .line c => .inr (some c)
  | .nodata => .inr none

/-- What `takeLine` gives from the middle of a line, where the loop leaves as it does. -/
def Cursor.Ended (file : List Char) (c : Cursor) : Option Cursor → Prop
  | none => c.got = [] ∧ takeLine (BBLINE_LEN - c.got.length) (file.drop c.offset) false = ([], [], .eof)
  | some c' => ∃ line e, c' = ⟨c'.offset, [], c.got ++ line ++ NUL :: c.line.drop ((c.got ++ line).length + 1)⟩ ∧
      takeLine (BBLINE_LEN - c.got.length) (file.drop c.offset) false = (line, file.drop c'.offset, e) ∧
      e ≠ .error ∧ (e = .eof → c.got ++ line ≠ [])

theorem drop_of_getElem? {file : List Char} {i : Nat} {tmp : Char} (h : file[i]? = some tmp) :
    file.drop i = tmp :: file.drop (i + 1) := by
  obtain ⟨hi, rfl⟩ := List.getElem?_eq_some_iff.1 h
  exact List.drop_eq_getElem_cons hi

/-- The round in which the loop leaves. -/
theorem Cursor.ended_leave {file : List Char} {c : Cursor} {r : Option Cursor} (hc : c.got.length < BBLINE_LEN)
    (h : c.round file = .inr r) : c.Ended file r := by
  obtain ⟨m, hm⟩ : ∃ m, BBLINE_LEN - c.got.length = m + 1 := ⟨BBLINE_LEN - c.got.length - 1, by omega⟩
  cases htmp : file[c.offset]? with
  | none =>
    have hdrop : file.drop c.offset = [] := List.drop_eq_nil_of_le (List.getElem?_eq_none_iff.1 htmp)
    simp only [Cursor.round, Cursor.take, htmp] at h
    by_cases hgot : c.got = []
    · rw [if_pos hgot] at h
      obtain rfl := Sum.inr.inj h
      refine ⟨hgot, ?_⟩
      rw [hm, hdrop]
      rfl
    · rw [if_neg hgot] at h
      obtain rfl := Sum.inr.inj h
      refine ⟨[], .eof, ?_, ?_, by decide, fun _ => ?_⟩
      · simp [Cursor.terminated]
      · rw [hm, hdrop]
        simp [Cursor.terminated, takeLine, hdrop]
      · simpa using hgot
  | some tmp =>
    have hdrop := drop_of_getElem? htmp
    simp only [Cursor.round, Cursor.take, htmp] at h
    by_cases hnl : tmp = '\n'
    · rw [if_pos hnl] at h
      obtain rfl := Sum.inr.inj h
      refine ⟨[], .newline, ?_, ?_, by decide, by simp⟩
      · simp [Cursor.terminated]
      · rw [hm, hdrop]
        simp [Cursor.terminated, takeLine, hnl]
    · rw [if_neg hnl] at h
      by_cases hfull : (c.got ++ [tmp]).length < BBLINE_LEN
      · rw [if_pos hfull] at h
        cases h
      · rw [if_neg hfull] at h
        obtain rfl := Sum.inr.inj h
        have hzero : m = 0 := by
          rw [List.length_append, List.length_singleton] at hfull
          omega
        refine ⟨[tmp], .full, ?_, ?_, by decide, by simp⟩
        · simp [Cursor.terminated]
        · rw [hm, hdrop, hzero]
          simp [Cursor.terminated, takeLine, hnl]

/-- A round in which it goes on. -/
theorem Cursor.round_goesOn {file : List Char} {c c' : Cursor} (h : c.round file = .inl c') :
    ∃ tmp, file[c.offset]? = some tmp ∧ tmp ≠ '\n' ∧ c' = ⟨c.offset + 1, c.got ++ [tmp], c.line⟩ ∧
      c'.got.length < BBLINE_LEN := by
  cases htmp : file[c.offset]? with
  | none =>
    simp only [Cursor.round, Cursor.take, htmp] at h
    split at h
    · next hgot => split at hgot <;> cases hgot
    · cases h
    · cases h
  | some tmp =>
    simp only [Cursor.round, Cursor.take, htmp] at h
    by_cases hnl : tmp = '\n'
    · rw [if_pos hnl] at h
      cases h
    · rw [if_neg hnl] at h
      by_cases hfull : (c.got ++ [tmp]).length < BBLINE_LEN
      · rw [if_pos hfull] at h
        obtain rfl := Sum.inl.inj h
        exact ⟨tmp, rfl, hnl, rfl, hfull⟩
      · rw [if_neg hfull] at h
        cases h

theorem Cursor.ended_of_leaves {file : List Char} {c : Cursor} {n : Nat} {r : Option Cursor}
    (h : Loops.Leaves (Cursor.round file) c n r) (hc : c.got.length < BBLINE_LEN) : c.Ended file r := by
  induction h with
  | leave hr => exact Cursor.ended_leave hc hr
  | @goOn c c₁ n r hs _ ih =>
    obtain ⟨tmp, htmp, hnl, rfl, hfull⟩ := Cursor.round_goesOn hs
    obtain ⟨m, hm⟩ : ∃ m, BBLINE_LEN - c.got.length = m + 1 := ⟨BBLINE_LEN - c.got.length - 1, by omega⟩
    have hm' : BBLINE_LEN - (c.got ++ [tmp]).length = m := by
      rw [List.length_append, List.length_singleton]
      omega
    have hdrop := drop_of_getElem? htmp
    cases r with
    | none => exact absurd (ih hfull).1 (by simp)
    | some c' =>
      obtain ⟨line, e, hc', htake, herr, heof⟩ := ih hfull
      dsimp only at hc' htake heof
      rw [hm'] at htake
      refine ⟨tmp :: line, e, ?_, ?_, herr, fun _ => by simp⟩
      · rw [hc']
        simp
      · rw [hm, hdrop, takeLine, if_neg hnl, htake]

/-- What one `readline` gives, where the loop leaves as it does. -/
def Cursor.Gives (file : List Char) (c : Cursor) : Option Cursor → Prop
  | none => readline c.line BBLINE_LEN ⟨file.drop c.offset, false⟩ = (recvNodata, c.line, ⟨[], false⟩)
  | some c' => c'.got = [] ∧
      ∃ i : Nat, readline c.line BBLINE_LEN ⟨file.drop c.offset, false⟩ = ((i : Int), c'.line, ⟨file.drop c'.offset, false⟩)

/-- **Byte by byte.** On a file that does not change, the rounds of the loop come to an end, and make
    the `readline` of tcp-utils.cc: its buffer, its descriptor, and the end of the file. -/
theorem Cursor.rounds_readline (file : List Char) {c : Cursor} (hc : c.got = []) :
    ∃ n r, Loops.Leaves (Cursor.round file) c n r ∧ c.Gives file r := by
  have hlower : ∀ s s', Cursor.round file s = .inl s' → file.length - s'.offset < file.length - s.offset := by
    intro s s' hs
    obtain ⟨tmp, htmp, -, rfl, -⟩ := Cursor.round_goesOn hs
    have := (List.getElem?_eq_some_iff.1 htmp).1
    dsimp only
    omega
  obtain ⟨n, r, -, h⟩ := Loops.leaves_of_measure (fun c : Cursor => file.length - c.offset) hlower c
  have hroom : c.got.length < BBLINE_LEN := by rw [hc]; decide
  have hended := Cursor.ended_of_leaves h hroom
  refine ⟨n, r, h, ?_⟩
  cases r with
  | none =>
    obtain ⟨-, htake⟩ := hended
    rw [hc, List.length_nil, Nat.sub_zero] at htake
    show readline _ _ _ = _
    rw [readline]
    dsimp only
    rw [htake]
    rfl
  | some c' =>
    obtain ⟨line, e, hc', htake, herr, heof⟩ := hended
    rw [hc, List.length_nil, Nat.sub_zero] at htake
    rw [hc, List.nil_append] at hc' heof
    have hline : c'.line = line ++ NUL :: c.line.drop (line.length + 1) := by rw [hc']
    refine ⟨by rw [hc'], line.length, ?_⟩
    rw [readline]
    dsimp only
    rw [htake, hline]
    cases e with
    | error => exact absurd rfl herr
    | eof => exact if_neg (heof rfl)
    | newline => rfl
    | full => rfl

/-! Scans of a file of lines. -/

/-- A deleted line: to delete it again changes nothing. -/
def Blank (l : CStr) : Prop := l = deletedLine l.length

theorem length_deletedLine (n : Nat) : (deletedLine n).length = n := List.length_replicate

theorem blank_deletedLine (n : Nat) : Blank (deletedLine n) := by
  rw [Blank, length_deletedLine]

/-- What a scan that has taken part of a line sees of it when the line is deleted. -/
theorem Clean.cut {l got : CStr} (hl : Clean l) (hseen : Cursors.seen got l = l) (hle : got.length ≤ l.length) :
    Clean (Cursors.seen got (deletedLine l.length)) := by
  have hgot : ∀ c ∈ got, c ∈ l := by
    intro c hc
    rw [← hseen]
    exact List.mem_append_left _ hc
  have hback : ∀ c ∈ (deletedLine l.length).drop got.length, c = BACKSPACE :=
    fun c hc => List.eq_of_mem_replicate (List.mem_of_mem_drop hc)
  refine ⟨?_, ?_, ?_⟩
  · intro hc
    rcases List.mem_append.1 hc with hc | hc
    · exact hl.no_newline (hgot _ hc)
    · exact absurd (hback _ hc) (by decide)
  · intro hc
    rcases List.mem_append.1 hc with hc | hc
    · exact hl.no_nul (hgot _ hc)
    · exact absurd (hback _ hc) (by decide)
  · rw [Cursors.length_seen (by rw [length_deletedLine]; exact hle), length_deletedLine]
    exact hl.length_lt

/-! A number that a delete does not make. -/

/-- No part of a deleted line is this number. -/
structure Sought (id : CStr) : Prop where
  nonempty : id ≠ []
  no_backspace : BACKSPACE ∉ id

theorem IsNumeral.sought {id : CStr} (h : IsNumeral id) : Sought id where
  nonempty := h.1
  no_backspace := fun hm => absurd (h.2 _ hm) (by decide)

theorem Sought.deleted_ne {id : CStr} (h : Sought id) (n : Nat) : firstField (deletedLine n) ≠ id := by
  rw [firstField_deletedLine]
  intro he
  obtain ⟨c, hc⟩ := List.exists_mem_of_ne_nil _ h.nonempty
  rw [← he] at hc
  obtain rfl := List.eq_of_mem_replicate hc
  exact h.no_backspace (he ▸ hc)

/-- A scan that has taken part of a line with another number does not take the rest for the number
    when the line is deleted. -/
theorem Sought.cut_ne {id l got : CStr} (h : Sought id) (hl : firstField l ≠ id)
    (hseen : Cursors.seen got l = l) : firstField (Cursors.seen got (deletedLine l.length)) ≠ id := by
  have hdrop : (deletedLine l.length).drop got.length = deletedLine (l.length - got.length) := by
    simp [deletedLine]
  rw [Cursors.seen] at hseen ⊢
  rw [hdrop]
  by_cases hs : ∀ c ∈ got, isSlash c = false
  · have hfield : ∀ v, firstField (got ++ v) = got ++ firstField v := by
      intro v
      exact List.takeWhile_append_of_pos fun c hc => by simp [hs c hc]
    rw [hfield, firstField_deletedLine]
    intro he
    by_cases hzero : l.length - got.length = 0
    · -- the whole line was taken
      apply hl
      have hnil : l.drop got.length = [] := List.drop_eq_nil_of_le (by omega)
      have hwhole : firstField l = firstField (got ++ []) := by rw [← hnil, hseen]
      have hnone : firstField [] = [] := rfl
      rw [hzero] at he
      rw [hwhole, hfield, hnone, ← he]
      rfl
    · apply h.no_backspace
      rw [← he]
      apply List.mem_append_right
      exact List.mem_replicate.2 ⟨hzero, rfl⟩
  · have hfield : ∀ v v', firstField (got ++ v) = firstField (got ++ v') := by
      intro v v'
      have hlt : (got.takeWhile fun c => !isSlash c).length ≠ got.length := by
        intro he
        apply hs
        intro c hc
        have hself : got.takeWhile (fun c => !isSlash c) = got :=
          (List.takeWhile_prefix _).eq_of_length he
        have := List.takeWhile_eq_self_iff.1 hself c hc
        simpa using this
      rw [firstField, firstField, List.takeWhile_append, List.takeWhile_append, if_neg hlt, if_neg hlt]
    rw [hfield _ (l.drop got.length), hseen]
    exact hl

/-- The scan stands in line `k`. The line as the scan will have seen it is the line, or the line was
    deleted while the scan was in it, and then `ok` is known of what it sees. -/
structure Over (ls : List CStr) (ok : CStr → Prop) (k : Nat) (c : Cursor) : Prop where
  stands : Cursors.Stands '\n' ls k c.offset c.got
  clean : ∀ l, ls[k]? = some l → Clean (Cursors.seen c.got l)
  sees : ∀ l, ls[k]? = some l → Cursors.seen c.got l = l ∨ (Blank l ∧ ok (Cursors.seen c.got l))

section
variable {ls : List CStr} {ok : CStr → Prop} {k : Nat} {c : Cursor}

/-- A scan at the start of a line. -/
theorem Over.fresh (hc : ∀ l ∈ ls, Clean l) (h : Cursors.Stands '\n' ls k c.offset []) (hgot : c.got = []) :
    Over ls ok k c where
  stands := by rw [hgot]; exact h
  clean := by
    intro l hl
    rw [hgot, Cursors.seen_nil]
    exact hc l (List.mem_of_getElem? hl)
  sees := by
    intro l hl
    left
    rw [hgot, Cursors.seen_nil]

theorem Over.start (hc : ∀ l ∈ ls, Clean l) (junk : List Char) : Over ls ok 0 ⟨0, [], junk⟩ :=
  Over.fresh hc Cursors.Stands.start rfl

theorem Over.mono {ok' : CStr → Prop} (h : Over ls ok k c) (hok : ∀ w, ok w → ok' w) : Over ls ok' k c where
  stands := h.stands
  clean := h.clean
  sees := fun l hl => (h.sees l hl).imp_right fun hb => ⟨hb.1, hok _ hb.2⟩

/-- A line that the scan has seen to its end. -/
structure Saw (ls : List CStr) (ok : CStr → Prop) (k : Nat) (w l : CStr) : Prop where
  line : ls[k]? = some l
  length_eq : w.length = l.length
  sees : w = l ∨ (Blank l ∧ ok w)

/-- The line buffer holds the line, and the scan stands behind it. -/
structure Holds (ls : List CStr) (ok : CStr → Prop) (k : Nat) (w : CStr) (c : Cursor) : Prop where
  text : cstr c.line 0 = w
  tokens : tokenStrings (bblineTokenize c.line w.length) = tokensOf w
  offset_eq : c.offset = (fileOf (ls.take k)).length + w.length + 1
  next : ∀ line, Over ls ok (k + 1) { c with line := line }

/-- **One byte of a scan.** It is a byte of the line, the end of the line, or the end of the file. -/
theorem Over.take (h : Over ls ok k c) (hc : ∀ l ∈ ls, Clean l) :
    (∃ c', c.take (fileOf ls) = .goesOn c' ∧ Over ls ok k c') ∨
    (∃ w l c', c.take (fileOf ls) = .line c' ∧ Saw ls ok k w l ∧ Holds ls ok k w c') ∨
    (ls[k]? = none ∧ c.take (fileOf ls) = .nodata) := by
  cases hl : ls[k]? with
  | none =>
    right; right
    have hnone : (fileOf ls)[c.offset]? = none := h.stands.textEnd hl
    refine ⟨rfl, ?_⟩
    simp only [Cursor.take, hnone, if_pos (h.stands.got_end hl)]
  | some l =>
    have hclean := h.clean l hl
    have hle := h.stands.got_le l hl
    by_cases hlt : c.got.length < l.length
    · left
      obtain ⟨hchar, hstands, hseen⟩ := h.stands.char hl hlt
      have hmem : l[c.got.length] ∈ Cursors.seen c.got l := by
        rw [← hseen, Cursors.seen, List.append_assoc]
        exact List.mem_append_right _ List.mem_cons_self
      have hnl : l[c.got.length] ≠ '\n' := fun he => hclean.no_newline (he ▸ hmem)
      have hroom : (c.got ++ [l[c.got.length]]).length < BBLINE_LEN := by
        have hlen := hclean.length_lt
        rw [Cursors.length_seen hle] at hlen
        rw [List.length_append, List.length_singleton]
        omega
      refine ⟨⟨c.offset + 1, c.got ++ [l[c.got.length]], c.line⟩, ?_, hstands, ?_, ?_⟩
      · have hbyte : (fileOf ls)[c.offset]? = some l[c.got.length] := hchar
        simp only [Cursor.take, hbyte, if_neg hnl, if_pos hroom]
      · intro x hx
        obtain rfl := Option.some.inj (hl.symm.trans hx)
        dsimp only
        rw [hseen]
        exact hclean
      · intro x hx
        obtain rfl := Option.some.inj (hl.symm.trans hx)
        dsimp only
        rw [hseen]
        exact h.sees l hl
    · right; left
      have heq : c.got.length = l.length := by omega
      obtain ⟨hchar, hstands, hseen⟩ := h.stands.lineEnd hl heq
      have hbyte : (fileOf ls)[c.offset]? = some '\n' := hchar
      rw [hseen] at hclean
      refine ⟨c.got, l, ({ c with offset := c.offset + 1 } : Cursor).terminated, ?_, ⟨hl, heq, ?_⟩, ?_, ?_, ?_, ?_⟩
      · simp only [Cursor.take, hbyte, if_true]
      · rw [← hseen]
        exact h.sees l hl
      · exact cstr_zero_append hclean.no_nul
      · exact bblineTokenize_line hclean.no_nul
      · show c.offset + 1 = (fileOf (ls.take k)).length + c.got.length + 1
        have hoffset : c.offset = (fileOf (ls.take k)).length + c.got.length := h.stands.offset_eq
        omega
      · exact fun line => Over.fresh hc hstands rfl

/-- **One byte of a scan for a number.** -/
theorem Over.seek (h : Over ls ok k c) (hc : ∀ l ∈ ls, Clean l) (id : CStr) :
    (∃ c', c.seek (fileOf ls) id = .goesOn c' ∧ Over ls ok k c') ∨
    (∃ w l c', c.seek (fileOf ls) id = .goesOn c' ∧ Saw ls ok k w l ∧ firstField w ≠ id ∧ Over ls ok (k + 1) c') ∨
    (∃ w l c', c.seek (fileOf ls) id = .found w (tokensOf w) c' ∧ Saw ls ok k w l ∧ firstField w = id ∧
      c'.offset = (fileOf (ls.take k)).length + w.length + 1) ∨
    (ls[k]? = none ∧ c.seek (fileOf ls) id = .nodata) := by
  obtain ⟨c', ht, ho⟩ | ⟨w, l, c', ht, hs, hh⟩ | ⟨hk, ht⟩ := h.take hc
  · left
    exact ⟨c', by simp only [Cursor.seek, ht], ho⟩
  · right
    by_cases hid : firstField w = id
    · right; left
      refine ⟨w, l, c', ?_, hs, hid, hh.offset_eq⟩
      simp only [Cursor.seek, ht, hh.text, hh.tokens, tokensOf_head, if_pos hid]
    · left
      refine ⟨w, l, { c' with line := (bblineTokenize c'.line w.length).1 }, ?_, hs, hid, hh.next _⟩
      simp only [Cursor.seek, ht, hh.text, hh.tokens, tokensOf_head, if_neg hid]
  · right; right; right
    exact ⟨hk, by simp only [Cursor.seek, ht]⟩

/-- **One byte of the scan for the largest number.** -/
theorem Over.scan (h : Over ls ok k c) (hc : ∀ l ∈ ls, Clean l) (max : Int) :
    (∃ c', c.scan (fileOf ls) max = some (max, c') ∧ Over ls ok k c') ∨
    (∃ w l c', c.scan (fileOf ls) max =
        some (if atoi (firstField w) > max then atoi (firstField w) else max, c') ∧
      Saw ls ok k w l ∧ Over ls ok (k + 1) c') ∨
    (ls[k]? = none ∧ c.scan (fileOf ls) max = none) := by
  obtain ⟨c', ht, ho⟩ | ⟨w, l, c', ht, hs, hh⟩ | ⟨hk, ht⟩ := h.take hc
  · left
    exact ⟨c', by simp only [Cursor.scan, ht], ho⟩
  · right; left
    refine ⟨w, l, { c' with line := (bblineTokenize c'.line w.length).1 }, ?_, hs, hh.next _⟩
    simp only [Cursor.scan, ht, hh.text, hh.tokens, tokensOf_head]
  · right; right
    exact ⟨hk, by simp only [Cursor.scan, ht]⟩

/-! The file changes under the scan. -/

/-- A line is appended. -/
theorem Over.append (h : Over ls ok k c) {x : CStr} (hx : Clean x) : Over (ls ++ [x]) ok k c where
  stands := h.stands.append x
  clean := by
    intro l hl
    rcases Pool.getElem?_snoc_cases hl with ⟨hk, rfl⟩ | hl
    · have hgot : c.got = [] := h.stands.got_end (List.getElem?_eq_none_iff.2 (by omega))
      rw [hgot, Cursors.seen_nil]
      exact hx
    · exact h.clean l hl
  sees := by
    intro l hl
    rcases Pool.getElem?_snoc_cases hl with ⟨hk, rfl⟩ | hl
    · have hgot : c.got = [] := h.stands.got_end (List.getElem?_eq_none_iff.2 (by omega))
      left
      rw [hgot, Cursors.seen_nil]
    · exact h.sees l hl

/-- A line is deleted. Where the scan has taken part of it, `hok` says what it will see. -/
theorem Over.delete (h : Over ls ok k c) {n : Nat} {l : CStr} (hn : ls[n]? = some l) (hl : Clean l)
    (hok : n = k → c.got ≠ [] → Cursors.seen c.got l = l → ok (Cursors.seen c.got (deletedLine l.length))) :
    Over (ls.set n (deletedLine l.length)) ok k c where
  stands := h.stands.set hn (length_deletedLine l.length)
  clean := by
    intro x hx
    rcases Pool.getElem?_set_cases hx with ⟨rfl, rfl⟩ | ⟨-, hx⟩
    · rcases h.sees l hn with hseen | ⟨hb, -⟩
      · exact hl.cut hseen (h.stands.got_le l hn)
      · rw [← hb]
        exact h.clean l hn
    · exact h.clean x hx
  sees := by
    intro x hx
    rcases Pool.getElem?_set_cases hx with ⟨rfl, rfl⟩ | ⟨-, hx⟩
    · rcases h.sees l hn with hseen | ⟨hb, hok'⟩
      · by_cases hgot : c.got = []
        · left
          rw [hgot, Cursors.seen_nil]
        · right
          exact ⟨blank_deletedLine _, hok rfl hgot hseen⟩
      · right
        rw [← hb]
        exact ⟨hb, hok'⟩
    · exact h.sees x hx

end

end BulletinBoard
