import BulletinBoard.Numbering
import BulletinBoard.Store
import BulletinBoard.Lib.Calls

/- housekeep_descriptor: the bbfile is copied line by line to bbfile_cache without its
   garbage lines, removed, and the copy renamed. A housekept file has the same live lines
   at smaller offsets. Two runs, one with and one without housekeeping, are kept in step
   by this: the one file is the other without some deleted lines. The other calls answer
   alike as long as the run without housekeeping overwrites no line that starts beyond
   an `int`, and every number has room in the list of those given out. -/
namespace BulletinBoard

/-! The source. -/

/-- A line of nothing but backspaces. -/
def isGarbage (buff : CStr) : Bool :=
  let n_c := buff.count BACKSPACE
  n_c ≠ 0 ∧ n_c = buff.length

/-- The loop: what it writes, and how many lines it leaves out. -/
def copyLines : Nat → Stream → List Char → Option (List Char × Nat)
  | 0, _, _ => none
  | f + 1, fd, buff =>
    let (rc, buff, fd) := readline buff BBLINE_LEN fd
    if rc = recvNodata then some ([], 0)
    else
      let text := cstr buff 0
      (copyLines f fd buff).map fun r =>
        if isGarbage text then (r.1, r.2 + 1) else (text ++ '\n' :: r.1, r.2)

/-- The two files of the directory; `none` for a file that is not there. -/
structure Files where
  source_file : Option (List Char)
  bbfile_cache : Option (List Char)
  deriving DecidableEq, Repr

/-- What the system calls of one housekeeping do. -/
structure Outcomes where
  source : OpenResult
  destination : Bool
  remove : Bool
  rename : Bool

def Outcomes.succeed : Outcomes := ⟨.ok, true, true, true⟩

def housekeepDescriptor (junk : List Char) (o : Outcomes) (files : Files) : Option (Int × Files) :=
  let fd := (files.source_file.bind fun file => (Disk.openFile ⟨file, [o.source]⟩).1).getD badDescriptor
  match copyLines (scanRounds fd) fd junk with
  | none => none
  | some (written, rec_found) =>
    -- the cache is opened without O_TRUNC: what is longer than the copy stays
    let cache :=
      if o.destination then some (Lines.overwrite NUL (files.bbfile_cache.getD []) 0 written)
      else files.bbfile_cache
    let orig_del : Int := if o.remove ∧ files.source_file.isSome then 1 else -1
    let cac_rnm : Int := if o.rename ∧ cache.isSome then 1 else -1
    let source := if orig_del = 1 then none else files.source_file
    let files : Files := if cac_rnm = 1 then ⟨cache, none⟩ else ⟨source, cache⟩
    some (if rec_found = 1 ∧ orig_del = 1 ∧ cac_rnm = 1 then 0 else -1, files)

inductive StoreCall where
  | store (op : StoreOp)
  | generate_number
  | housekeep

def StoreCall.isHousekeep : StoreCall → Bool
  | .housekeep => true
  | _ => false

structure StoreState where
  bbfile : List Char
  bbfile_cache : Option (List Char)
  gen_on_queue : NumGen
  deriving DecidableEq, Repr

/-- A call where every file operation succeeds: what it returns, if it is not a
    housekeeping, and the state after it; `none` when a number is stored outside of the
    list. Each call has its own uninitialised buffers. -/
def StoreCall.run : Junk × StoreCall → StoreState → Option (List (Int × Option CStr) × StoreState)
  | (junk, .store op), s =>
    (op.call junk s.bbfile).map fun r => ([r.1], { s with bbfile := r.2 })
  | (junk, .generate_number), s =>
    if s.gen_on_queue.count < MAX_LEN then
      (generateNumber junk.line s.gen_on_queue (diskOf s.bbfile)).map fun r =>
        ([(r.1, none)], { s with bbfile := r.2.2.bbfile, gen_on_queue := r.2.1 })
    else none
  | (junk, .housekeep), s =>
    match housekeepDescriptor junk.line .succeed ⟨some s.bbfile, s.bbfile_cache⟩ with
    | some (_, ⟨some bbfile, bbfile_cache⟩) =>
      some ([], { s with bbfile := bbfile, bbfile_cache := bbfile_cache })
    | _ => none

/-- The calls without the housekeepings. -/
def otherCalls (cs : List (Junk × StoreCall)) : List (Junk × StoreCall) :=
  cs.filter fun c => !c.2.isHousekeep

/-- What the callers see to, on the map that the store stands for. -/
def LegalCalls : List (Junk × StoreCall) → StoreMap → Prop
  | [], _ => True
  | (_, .store op) :: cs, m => op.Legal m ∧ LegalCalls cs (op.onMap m)
  | _ :: cs, m => LegalCalls cs m

def StoreCall.Fits : StoreCall → StoreState → Prop
  | .store op, s => op.InInt s.bbfile
  | .generate_number, s => s.gen_on_queue.count < MAX_LEN
  | .housekeep, _ => True

/-- Every line that the calls overwrite starts where an `int` reaches, and every number that they
    give out has room in the list. -/
def FitCalls : List (Junk × StoreCall) → StoreState → Prop
  | [], _ => True
  | c :: cs, s => c.2.Fits s ∧ ∀ out s', StoreCall.run c s = some (out, s') → FitCalls cs s'

/-! What housekeeping leaves. -/

theorem copyLines_lines : ∀ {ls : List CStr} {f : Nat} {buff : List Char}, (∀ l ∈ ls, Clean l) →
    ls.length < f → copyLines f ⟨fileOf ls, false⟩ buff =
      some (fileOf (ls.filter fun l => !isGarbage l), ls.countP isGarbage)
  | _, 0, _, _, hf => absurd hf (Nat.not_lt_zero _)
  | [], f + 1, buff, _, _ => by
    rw [copyLines, fileOf_nil, readline_end]
    rfl
  | l :: ls, f + 1, buff, h, hf => by
    have hl : Clean l := h l (by simp)
    have hls : ∀ x ∈ ls, Clean x := fun x hx => h x (by simp [hx])
    rw [copyLines, fileOf_cons, readline_clean hl]
    simp only [length_ne_recvNodata, if_false, cstr_zero_append hl.no_nul,
      copyLines_lines hls (Nat.lt_of_succ_lt_succ hf), Option.map_some]
    cases hg : isGarbage l with
    | true => simp [hg]
    | false => simp [hg]

theorem isGarbage_deletedLine {n : Nat} (h : 0 < n) : isGarbage (deletedLine n) = true := by
  have hcount : (deletedLine n).count BACKSPACE = n := List.count_replicate_self
  have hlen : (deletedLine n).length = n := List.length_replicate
  simp only [isGarbage, hcount, hlen, decide_eq_true_eq, and_true]
  omega

theorem isGarbage_live (l : LiveLine) : isGarbage l.text = false := by
  have hslash : '/' ∈ l.text := by simp [LiveLine.text, mkLine]
  have hne : l.text.count BACKSPACE ≠ l.text.length := by
    intro h
    exact absurd (List.count_eq_length.1 h _ hslash) (by decide)
  simp [isGarbage, hne]

/-- The lines that are copied are the live ones. -/
theorem filter_texts (ls : List BoardLine) :
    (ls.map BoardLine.text).filter (fun l => !isGarbage l) = (liveLines ls).map LiveLine.text := by
  induction ls with
  | nil => rfl
  | cons x ls ih =>
    cases x with
    | deleted n pos lt =>
      have hg : isGarbage (BoardLine.deleted n pos lt).text = true := isGarbage_deletedLine pos
      rw [List.map_cons, List.filter_cons_of_neg (by simp [hg]), ih]
      rfl
    | live l =>
      have hg : isGarbage (BoardLine.live l).text = false := isGarbage_live l
      rw [List.map_cons, List.filter_cons_of_pos (by simp [hg]), ih]
      rfl

/-- The board of the live lines. -/
def Board.compact (b : Board) : Board where
  lines := (liveLines b.lines).map .live
  distinct := by
    have h : liveLines ((liveLines b.lines).map .live) = liveLines b.lines := by
      simp [liveLines, List.filterMap_map, Function.comp_def, BoardLine.live?]
    rw [liveIds_congr h]
    exact b.distinct

theorem Board.compact_bytes (b : Board) : b.compact.bytes = fileOf ((liveLines b.lines).map LiveLine.text) := by
  rw [Board.bytes, Board.texts, Board.compact, List.map_map]
  rfl

/-- It answers 0 only when there was exactly one garbage line. -/
theorem housekeepDescriptor_board (junk : List Char) (b : Board) :
    housekeepDescriptor junk .succeed ⟨some b.bytes, none⟩ =
      some (if b.texts.countP isGarbage = 1 then 0 else -1, ⟨some b.compact.bytes, none⟩) := by
  have hcopy : copyLines (scanRounds ⟨b.bytes, false⟩) ⟨b.bytes, false⟩ junk =
      some (b.compact.bytes, b.texts.countP isGarbage) := by
    rw [b.compact_bytes, ← filter_texts]
    exact copyLines_lines b.texts_clean (length_lt_scanRounds b.texts)
  have hwrite : Lines.overwrite NUL ([] : List Char) 0 b.compact.bytes = b.compact.bytes := by
    simp [Lines.overwrite]
  simp [housekeepDescriptor, Disk.openFile, Outcomes.succeed, hcopy, hwrite]

/-! Boards laid out differently. -/

/-- The first lines are the second without some deleted lines. -/
inductive Thinned : List BoardLine → List BoardLine → Prop where
  | nil : Thinned [] []
  | dropped {ls' ls : List BoardLine} {n : Nat} {pos : 0 < n} {lt : n < MAX_LEN} :
      Thinned ls' ls → Thinned ls' (.deleted n pos lt :: ls)
  | kept {ls' ls : List BoardLine} (x : BoardLine) : Thinned ls' ls → Thinned (x :: ls') (x :: ls)

namespace Thinned

variable {ls ls' : List BoardLine}

theorem refl : ∀ ls, Thinned ls ls
  | [] => .nil
  | x :: ls => .kept x (refl ls)

theorem liveLines (h : Thinned ls' ls) : liveLines ls' = BulletinBoard.liveLines ls := by
  induction h with
  | nil => rfl
  | dropped _ ih => exact ih
  | kept x _ ih =>
    cases x with
    | deleted n pos lt => exact ih
    | live l => exact congrArg (l :: ·) ih

theorem erase (h : Thinned ls' ls) (id : CStr) : Thinned (ls'.map (eraseLine id)) (ls.map (eraseLine id)) := by
  induction h with
  | nil => exact .nil
  | dropped _ ih => exact .dropped ih
  | kept x _ ih => exact .kept _ ih

theorem snoc (h : Thinned ls' ls) (x : BoardLine) : Thinned (ls' ++ [x]) (ls ++ [x]) := by
  induction h with
  | nil => exact .kept x .nil
  | dropped _ ih => exact .dropped ih
  | kept y _ ih => exact .kept y ih

/-- Leaving out all deleted lines. -/
theorem compact (h : Thinned ls' ls) : Thinned ((BulletinBoard.liveLines ls').map .live) ls := by
  induction h with
  | nil => exact .nil
  | dropped _ ih => exact .dropped ih
  | kept x _ ih =>
    cases x with
    | deleted n pos lt => exact .dropped ih
    | live l => exact .kept _ ih

/-- The lines before one with the id take no more room. -/
theorem start_le {id : CStr} (hid : IsNumeral id) (h : Thinned ls' ls) :
    (fileOf ((ls'.map BoardLine.text).takeWhile (fun l => firstField l != id))).length ≤
      (fileOf ((ls.map BoardLine.text).takeWhile (fun l => firstField l != id))).length := by
  induction h with
  | nil => exact le_refl _
  | @dropped ls' ls n pos lt _ ih =>
    have hne : (firstField (deletedLine n) != id) = true := by
      simpa using firstField_deleted_ne hid n
    rw [List.map_cons, BoardLine.text, List.takeWhile_cons, if_pos hne, fileOf_cons, List.length_append,
      List.length_cons]
    omega
  | kept x _ ih =>
    rw [List.map_cons, List.map_cons, List.takeWhile_cons, List.takeWhile_cons]
    split
    · simp only [fileOf_cons, List.length_append, List.length_cons]
      omega
    · exact le_refl _

end Thinned

/-- A deleted line counts as the number 0. -/
theorem atoi_deletedLine (n : Nat) : atoi (firstField (deletedLine n)) = 0 := by
  rw [firstField_deletedLine]
  cases n with
  | zero => rfl
  | succ n =>
    have hspace : isSpace BACKSPACE = false := by decide
    have hdigit : BACKSPACE.isDigit = false := by decide
    have hdrop : (deletedLine (n + 1)).dropWhile isSpace = deletedLine (n + 1) := by
      rw [deletedLine, List.replicate_succ, List.dropWhile_cons_of_neg (by simp [hspace])]
    have htake : (deletedLine (n + 1)).takeWhile Char.isDigit = [] := by
      rw [deletedLine, List.replicate_succ, List.takeWhile_cons_of_neg (by simp [hdigit])]
    have hsigns : ∀ r, deletedLine (n + 1) ≠ '-' :: r ∧ deletedLine (n + 1) ≠ '+' :: r := by
      intro r
      rw [deletedLine, List.replicate_succ]
      constructor
      · intro h
        exact absurd (List.cons.inj h).1 (by decide)
      · intro h
        exact absurd (List.cons.inj h).1 (by decide)
    rw [atoi, strtol, hdrop]
    split
    · next h => exact absurd h (hsigns _).1
    · next h => exact absurd h (hsigns _).2
    · rw [htake]
      decide

theorem Thinned.foldl_max {ls ls' : List BoardLine} (h : Thinned ls' ls) {max : Int} (h₀ : 0 ≤ max) :
    (ls'.map BoardLine.text).foldl
        (fun max l => if atoi (firstField l) > max then atoi (firstField l) else max) max =
      (ls.map BoardLine.text).foldl
        (fun max l => if atoi (firstField l) > max then atoi (firstField l) else max) max := by
  induction h generalizing max with
  | nil => rfl
  | @dropped ls' ls n pos lt _ ih =>
    have hzero : ¬ atoi (firstField (deletedLine n)) > max := by
      rw [atoi_deletedLine]
      omega
    rw [List.map_cons, List.foldl_cons, BoardLine.text, if_neg hzero]
    exact ih h₀
  | kept x _ ih =>
    rw [List.map_cons, List.map_cons, List.foldl_cons, List.foldl_cons]
    apply ih
    split <;> omega

/-- The largest number on file does not depend on the deleted lines. -/
theorem Thinned.maxNumber {ls ls' : List BoardLine} (h : Thinned ls' ls) :
    maxNumber (ls'.map BoardLine.text) = BulletinBoard.maxNumber (ls.map BoardLine.text) :=
  h.foldl_max (le_refl 0)

/-! One call on both boards. -/

theorem StoreOp.Makes.thinned {op : StoreOp} {b b₁ b' : Board} (h : op.Makes b b₁)
    (ht : Thinned b'.lines b.lines) : ∃ b₁', op.Makes b' b₁' ∧ Thinned b₁'.lines b₁.lines := by
  cases h with
  | write l hid =>
    have hid' : l.id ∉ liveIds b'.lines := by
      rw [liveIds_congr ht.liveLines]
      exact hid
    exact ⟨b'.append l hid', .write l hid', ht.snoc _⟩
  | replace l hid => exact ⟨_, .replace l (b'.not_mem_erase l.id), (ht.erase l.id).snoc _⟩
  | delete id => exact ⟨_, .delete id, ht.erase id⟩
  | read id => exact ⟨b', .read id, ht⟩

/-- The line to overwrite is reached on the thinned board when it is on the other. -/
theorem StoreOp.InInt.thinned {op : StoreOp} {b b' : Board} (h : op.InInt b.bytes)
    (hl : op.Legal b.toMap) (ht : Thinned b'.lines b.lines) : op.InInt b'.bytes := by
  have hstart : ∀ id, IsNumeral id → (lineStart id b.bytes : Int) ≤ INT_MAX →
      (lineStart id b'.bytes : Int) ≤ INT_MAX := by
    intro id hid hle
    have := ht.start_le hid
    rw [lineStart_texts] at hle ⊢
    exact le_trans (Int.ofNat_le.2 this) hle
  cases op with
  | write id user message => trivial
  | replace id user message => exact hstart id hl.2.id_numeral h
  | delete id =>
    have hmem : id ∈ liveIds b.lines := by
      by_contra hc
      exact hl (Board.toMap_eq_none.2 hc)
    exact hstart id (Board.isNumeral_of_mem hmem) h
  | read id => trivial

/-- The generator sees of a file only the largest number on it. -/
theorem generateNumber_boards (junk : List Char) (g : NumGen) {b b' : Board}
    (h : maxNumber b'.texts = maxNumber b.texts) :
    ∃ num g', generateNumber junk g (diskOf b.bytes) = some (num, g', diskOf b.bytes) ∧
      generateNumber junk g (diskOf b'.bytes) = some (num, g', diskOf b'.bytes) := by
  have hscan : ∀ b : Board,
      scanMax (scanRounds ⟨b.bytes, false⟩) ⟨b.bytes, false⟩ junk 0 = some (maxNumber b.texts) :=
    fun b => scanMax_eq b.texts_clean (length_lt_scanRounds b.texts)
  simp only [generateNumber, openFile_diskOf, hscan, h]
  exact ⟨_, _, rfl, rfl⟩

/-- Two runs in step: the state without housekeeping, the state with it, and the calls that are
    still to come. -/
def InStep (cs : List (Junk × StoreCall)) (s t : StoreState) : Prop :=
  ∃ (b b' : Board) (g : NumGen), s = ⟨b.bytes, none, g⟩ ∧ t = ⟨b'.bytes, none, g⟩ ∧
    Thinned b'.lines b.lines ∧ LegalCalls cs b.toMap ∧ FitCalls (otherCalls cs) s

/-- A call that both runs make returns the same. -/
theorem InStep.call {c : Junk × StoreCall} {cs : List (Junk × StoreCall)} {s t : StoreState}
    (hc : c.2.isHousekeep = false) (h : InStep (c :: cs) s t) :
    ∃ o s' t', StoreCall.run c s = some (o, s') ∧ StoreCall.run c t = some (o, t') ∧ InStep cs s' t' := by
  obtain ⟨junk, c⟩ := c
  obtain ⟨b, b', g, rfl, rfl, ht, hl, hin⟩ := h
  have hother : otherCalls ((junk, c) :: cs) = (junk, c) :: otherCalls cs :=
    List.filter_cons_of_pos (by simp [hc])
  rw [hother] at hin
  cases c with
  | store op =>
    obtain ⟨b₁, hmakes⟩ := op.makes b hl.1
    obtain ⟨b₁', hmakes', ht₁⟩ := hmakes.thinned ht
    have hl' : op.Legal b'.toMap := by
      rw [Board.toMap_congr ht.liveLines]
      exact hl.1
    have hcall := hmakes.call junk hl.1 hin.1
    have hcall' := hmakes'.call junk hl' (hin.1.thinned hl.1 ht)
    rw [ht.liveLines] at hcall'
    have hrun : StoreCall.run (junk, .store op) ⟨b.bytes, none, g⟩ =
        some ([op.returned (liveLines b.lines)], ⟨b₁.bytes, none, g⟩) := by
      rw [StoreCall.run, hcall]
      rfl
    have hrun' : StoreCall.run (junk, .store op) ⟨b'.bytes, none, g⟩ =
        some ([op.returned (liveLines b.lines)], ⟨b₁'.bytes, none, g⟩) := by
      rw [StoreCall.run, hcall']
      rfl
    have hl₁ : LegalCalls cs b₁.toMap := by
      rw [hmakes.toMap]
      exact hl.2
    exact ⟨_, _, _, hrun, hrun', b₁, b₁', g, rfl, rfl, ht₁, hl₁, hin.2 _ _ hrun⟩
  | generate_number =>
    have hroom : g.count < MAX_LEN := hin.1
    obtain ⟨num, g', hgen, hgen'⟩ := generateNumber_boards junk.line g ht.maxNumber
    have hrun : StoreCall.run (junk, .generate_number) ⟨b.bytes, none, g⟩ =
        some ([(num, none)], ⟨b.bytes, none, g'⟩) := by
      rw [StoreCall.run, if_pos hroom, hgen]
      rfl
    have hrun' : StoreCall.run (junk, .generate_number) ⟨b'.bytes, none, g⟩ =
        some ([(num, none)], ⟨b'.bytes, none, g'⟩) := by
      rw [StoreCall.run, if_pos hroom, hgen']
      rfl
    exact ⟨_, _, _, hrun, hrun', b, b', g', rfl, rfl, ht, hl, hin.2 _ _ hrun⟩
  | housekeep => cases hc

theorem StoreCall.run_housekeep (junk : Junk) (b : Board) (g : NumGen) :
    StoreCall.run (junk, .housekeep) ⟨b.bytes, none, g⟩ = some ([], ⟨b.compact.bytes, none, g⟩) := by
  rw [StoreCall.run, housekeepDescriptor_board]

/-- A housekeeping keeps the runs in step. -/
theorem InStep.housekeep {c : Junk × StoreCall} {cs : List (Junk × StoreCall)} {s t : StoreState}
    (hc : c.2.isHousekeep = true) (h : InStep (c :: cs) s t) :
    ∃ t', StoreCall.run c t = some ([], t') ∧ InStep cs s t' := by
  obtain ⟨junk, c⟩ := c
  obtain ⟨b, b', g, rfl, rfl, ht, hl, hin⟩ := h
  cases c with
  | store op => cases hc
  | generate_number => cases hc
  | housekeep =>
    exact ⟨_, StoreCall.run_housekeep junk b' g, b, b'.compact, g, rfl, rfl, ht.compact, hl, hin⟩

/-- Whole sequences, with more calls to come after them. -/
theorem InStep.run {cs rest : List (Junk × StoreCall)} {s t : StoreState} (h : InStep (cs ++ rest) s t) :
    ∃ o s' t', Calls.run StoreCall.run (otherCalls cs) s = some (o, s') ∧
      Calls.run StoreCall.run cs t = some (o, t') ∧ InStep rest s' t' := by
  have hboth : ∀ (c : Junk × StoreCall) cs s t, (!c.2.isHousekeep) = true → InStep (c :: cs ++ rest) s t →
      ∃ o s' t', StoreCall.run c s = some (o, s') ∧ StoreCall.run c t = some (o, t') ∧
        InStep (cs ++ rest) s' t' := by
    intro c cs s t hc h
    exact h.call (by simpa using hc)
  have hextra : ∀ (c : Junk × StoreCall) cs s t, (!c.2.isHousekeep) = false → InStep (c :: cs ++ rest) s t →
      ∃ t', StoreCall.run c t = some ([], t') ∧ InStep (cs ++ rest) s t' := by
    intro c cs s t hc h
    exact h.housekeep (by simpa using hc)
  exact Calls.run_filter (R := fun cs => InStep (cs ++ rest)) hboth hextra h

/-- **Housekeeping is transparent**, while the run without it overwrites only lines that
    start where an `int` reaches and gives out no more numbers than the list has room for:
    with housekeepings at any places the other calls return the same, and each
    housekeeping leaves the live lines, in their order. -/
theorem housekeeping_transparent (cs : List (Junk × StoreCall)) (b : Board) (g : NumGen)
    (hl : LegalCalls cs b.toMap) (hin : FitCalls (otherCalls cs) ⟨b.bytes, none, g⟩) :
    (∃ returned s s', Calls.run StoreCall.run (otherCalls cs) ⟨b.bytes, none, g⟩ = some (returned, s) ∧
      Calls.run StoreCall.run cs ⟨b.bytes, none, g⟩ = some (returned, s')) ∧
    ∀ cs₁ junk cs₂, cs = cs₁ ++ (junk, .housekeep) :: cs₂ → ∃ (returned : _) (b₁ : Board) (g₁ : NumGen),
      Calls.run StoreCall.run cs₁ ⟨b.bytes, none, g⟩ = some (returned, ⟨b₁.bytes, none, g₁⟩) ∧
      Calls.run StoreCall.run (cs₁ ++ [(junk, .housekeep)]) ⟨b.bytes, none, g⟩ =
        some (returned, ⟨fileOf ((liveLines b₁.lines).map LiveLine.text), none, g₁⟩) := by
  have hstart : InStep cs ⟨b.bytes, none, g⟩ ⟨b.bytes, none, g⟩ :=
    ⟨b, b, g, rfl, rfl, .refl _, hl, hin⟩
  constructor
  · have h : InStep (cs ++ []) ⟨b.bytes, none, g⟩ ⟨b.bytes, none, g⟩ := by simpa using hstart
    obtain ⟨o, s', t', hrun, hrun', -⟩ := h.run
    exact ⟨o, s', t', hrun, hrun'⟩
  · intro cs₁ junk cs₂ hcs
    subst hcs
    obtain ⟨o, s', t', -, hrun, b₁, b₁', g₁, -, rfl, -⟩ := hstart.run
    refine ⟨o, b₁', g₁, hrun, ?_⟩
    have hlast := Calls.run_snoc hrun (StoreCall.run_housekeep junk b₁' g₁)
    rwa [List.append_nil, Board.compact_bytes] at hlast

/-- A delete, a housekeeping, and a new number. -/
theorem housekeeping_transparent_delete :
    ∃ returned s s',
      Calls.run StoreCall.run [(⟨[], []⟩, .store (.delete ['1'])), (⟨[], []⟩, .generate_number)]
        ⟨oneLine.bytes, none, ⟨[]⟩⟩ = some (returned, s) ∧
      Calls.run StoreCall.run
        [(⟨[], []⟩, .store (.delete ['1'])), (⟨[], []⟩, .housekeep), (⟨[], []⟩, .generate_number)]
        ⟨oneLine.bytes, none, ⟨[]⟩⟩ = some (returned, s') := by
  have hlegal : LegalCalls
      [(⟨[], []⟩, .store (.delete ['1'])), (⟨[], []⟩, .housekeep), (⟨[], []⟩, .generate_number)]
      oneLine.toMap := by
    refine ⟨?_, trivial⟩
    change oneLine.toMap ['1'] ≠ none
    decide
  have hin : FitCalls [(⟨[], []⟩, .store (.delete ['1'])), (⟨[], []⟩, .generate_number)]
      ⟨oneLine.bytes, none, ⟨[]⟩⟩ := by
    have hstart : (lineStart ['1'] oneLine.bytes : Int) ≤ INT_MAX := by decide
    refine ⟨hstart, fun out s' h => ⟨?_, fun _ _ _ => trivial⟩⟩
    -- the delete gives out no number
    rw [StoreCall.run] at h
    obtain ⟨r, -, hr⟩ := Option.map_eq_some_iff.1 h
    obtain ⟨-, rfl⟩ := Prod.mk.inj hr
    exact Nat.zero_lt_succ _
  exact (housekeeping_transparent _ oneLine ⟨[]⟩ hlegal hin).1

/-- On the large file the run without housekeeping still reads the line it deleted, the run
    with it does not. -/
theorem housekeeping_changes_answers : ∃ (b : Board) (junk : Junk),
    LegalCalls [(junk, .housekeep), (junk, .store (.delete ['1'])), (junk, .store (.read ['1']))] b.toMap ∧
      (Calls.run StoreCall.run [(junk, .store (.delete ['1'])), (junk, .store (.read ['1']))]
        ⟨b.bytes, none, ⟨[]⟩⟩).map Prod.fst = some [(6, none), (3, some ['u', '/', 'm'])] ∧
      (Calls.run StoreCall.run
        [(junk, .housekeep), (junk, .store (.delete ['1'])), (junk, .store (.read ['1']))]
        ⟨b.bytes, none, ⟨[]⟩⟩).map Prod.fst = some [(6, none), (-1, none)] := by
  obtain ⟨k, hk⟩ : ∃ k, 1024 * (k + 1) = 2 ^ 31 := ⟨2097151, by norm_num⟩
  have hmap := largeBoard_toMap (k + 1)
  have hcompact : (largeBoard (k + 1)).compact.bytes = oneLine.bytes := by
    rw [Board.compact_bytes, largeBoard, liveLines_append, liveLines_replicate]
    rfl
  refine ⟨largeBoard (k + 1), ⟨[], []⟩, ⟨?_, ?_, trivial⟩, ?_, ?_⟩
  · rw [StoreOp.Legal, hmap]
    simp
  · change IsNumeral ['1']
    decide
  · obtain ⟨file, hdel, hread⟩ := largeBoard_delete_read hk ⟨[], []⟩
    have hrun : StoreCall.run (⟨[], []⟩, .store (.delete ['1'])) ⟨(largeBoard (k + 1)).bytes, none, ⟨[]⟩⟩ =
        some ([(6, none)], ⟨file, none, ⟨[]⟩⟩) := by
      simp [StoreCall.run, StoreOp.call, hdel]
    have hrun' : StoreCall.run (⟨[], []⟩, .store (.read ['1'])) ⟨file, none, ⟨[]⟩⟩ =
        some ([(3, some ['u', '/', 'm'])], ⟨file, none, ⟨[]⟩⟩) := by
      simp [StoreCall.run, StoreOp.call, hread]
    rw [Calls.run_cons hrun (Calls.run_cons hrun' (Calls.run_nil _))]
    rfl
  · have hrun := StoreCall.run_housekeep ⟨[], []⟩ (largeBoard (k + 1)) ⟨[]⟩
    rw [hcompact] at hrun
    have hrest : Calls.run StoreCall.run
        [(⟨[], []⟩, .store (.delete ['1'])), (⟨[], []⟩, .store (.read ['1']))] ⟨oneLine.bytes, none, ⟨[]⟩⟩ =
        some ([(6, none), (-1, none)], ⟨fileOf [deletedLine 5], none, ⟨[]⟩⟩) := by decide +kernel
    rw [Calls.run_cons hrun hrest]
    rfl

end BulletinBoard
