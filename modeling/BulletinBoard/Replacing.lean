import BulletinBoard.Board
import BulletinBoard.Scan
import BulletinBoard.Lib.Run

/- READs of a number while it is replaced. A REPLACE is two changes of the file, a delete
   and a write, each under its own lock; what a READ answers depends on whether its scan
   falls between them. -/
namespace BulletinBoard

/-- The file, the replacement whose delete is done and whose write is not, and the texts the
    number has had. -/
structure Replacing where
  bbfile : List Char
  pending : Option (CStr × CStr)
  texts : List CStr

inductive ReplaceOp where
  | delete (junk : Junk) (user message : CStr)
  | write
  | read (junk : List Char) (ret : Int) (text : Option CStr)

/-- One call of a REPLACE or of a READ of number `n`. A REPLACE deletes only when none is under
    way, and the buffers of a session keep its line within what a scan reads at once. -/
inductive ReplaceStep (n : CStr) : Replacing → ReplaceOp → Replacing → Prop where
  | delete {s : Replacing} {junk : Junk} {user message : CStr} {ret : Int} {d : Disk} :
      s.pending = none → Clean (mkLine n user message) →
      deleteDescriptor junk n (diskOf s.bbfile) = some (ret, d) →
      ReplaceStep n s (.delete junk user message) { s with
        bbfile := d.bbfile, pending := some (user, message) }
  | write {s : Replacing} {user message : CStr} {ret : Int} {d : Disk} :
      s.pending = some (user, message) →
      writeDescriptor n user message (diskOf s.bbfile) = (ret, d) →
      ReplaceStep n s .write ⟨d.bbfile, none, s.texts ++ [lineText (mkLine n user message)]⟩
  | read {s : Replacing} {junk : List Char} {ret : Int} {text : Option CStr} {d : Disk} :
      readDescriptor junk n (diskOf s.bbfile) = some ((ret, text), d) →
      ReplaceStep n s (.read junk ret text) { s with bbfile := d.bbfile }

/-- The line that a delete overwrites starts where an `int` reaches, and the line that replaces it
    fits the buffer of the next seek. -/
def ReplaceStep.Fits (n : CStr) (s : Replacing) : ReplaceOp → Prop
  | .delete _ user message =>
    (lineStart n s.bbfile : Int) ≤ INT_MAX ∧ (mkLine n user message).length < MAX_LEN
  | _ => True

/-- A READ falls between the delete and the write of a REPLACE. -/
def ReplaceStep.Between (s : Replacing) : ReplaceOp → Prop
  | .read _ _ _ => s.pending ≠ none
  | _ => False

/-- A READ that answers one of the texts the number has had. -/
def ReplaceStep.Answers (s : Replacing) : ReplaceOp → Prop
  | .read _ ret text => ∃ t ∈ s.texts, ret = t.length ∧ text = some t
  | _ => True

/-- A board before any REPLACE. -/
def Replacing.start (n : CStr) (b : Board) : Replacing :=
  ⟨b.bytes, none, ((lineOf n b.texts).map lineText).toList⟩

/-- Outside a REPLACE the number has one line, and its text is among the texts; during one it has
    none. -/
structure ReplaceInv (n : CStr) (s : Replacing) (ls : List CStr) : Prop where
  file : s.bbfile = fileOf ls
  clean : ∀ l ∈ ls, Clean l
  outside : s.pending = none → copies n ls = 1 ∧ ∀ l, lineOf n ls = some l → lineText l ∈ s.texts
  during : ∀ user message, s.pending = some (user, message) →
    copies n ls = 0 ∧ Clean (mkLine n user message)

variable {n : CStr} {s s' : Replacing} {op : ReplaceOp} {ls : List CStr}

theorem ReplaceInv.start {b : Board} (h : n ∈ liveIds b.lines) :
    ReplaceInv n (Replacing.start n b) b.texts where
  file := rfl
  clean := b.texts_clean
  outside := by
    intro _
    refine ⟨Board.copies_eq_one h, fun l hl => ?_⟩
    simp [Replacing.start, hl]
  during := by
    intro user message h
    cases h

/-- A READ outside a REPLACE answers a text of the number, and one during a REPLACE does not. -/
theorem ReplaceInv.answers_iff (h : ReplaceInv n s ls) {junk : List Char} {ret : Int} {text : Option CStr}
    {d : Disk} (hread : readDescriptor junk n (diskOf s.bbfile) = some ((ret, text), d)) :
    (∃ t ∈ s.texts, ret = t.length ∧ text = some t) ↔ s.pending = none := by
  rw [readDescriptor_diskOf h.file h.clean junk n] at hread
  simp only [Option.some.injEq, Prod.mk.injEq] at hread
  obtain ⟨hans, -⟩ := hread
  cases hp : s.pending with
  | none =>
    obtain ⟨hone, htexts⟩ := h.outside hp
    obtain ⟨l, hl⟩ := lineOf_ne_none (by omega : copies n ls ≠ 0)
    rw [hl, readAnswer, Prod.mk.injEq] at hans
    refine iff_of_true ⟨lineText l, htexts l hl, hans.1.symm, hans.2.symm⟩ rfl
  | some r =>
    obtain ⟨user, message⟩ := r
    rw [copies_eq_zero.1 (h.during user message hp).1, readAnswer, Prod.mk.injEq] at hans
    refine iff_of_false ?_ (by simp)
    rintro ⟨t, -, hret, -⟩
    have := hans.1
    omega

theorem ReplaceInv.step (hn : IsNumeral n) (h : ReplaceInv n s ls) (hok : ReplaceStep.Fits n s op)
    (hstep : ReplaceStep n s op s') : ∃ ls', ReplaceInv n s' ls' := by
  cases hstep with
  | @delete junk user message ret d hp hclean hdel =>
    obtain ⟨hone, -⟩ := h.outside hp
    obtain ⟨l, hl⟩ := lineOf_ne_none (by omega : copies n ls ≠ 0)
    rw [deleteDescriptor_diskOf h.file h.clean junk hl hok.1] at hdel
    simp only [Option.some.injEq, Prod.mk.injEq] at hdel
    obtain ⟨-, rfl⟩ := hdel
    refine ⟨deleteIn n ls, rfl, deleteIn_clean h.clean, fun hnone => (Option.some_ne_none _ hnone).elim, ?_⟩
    intro u m hum
    obtain ⟨rfl, rfl⟩ := Prod.mk.inj (Option.some.inj hum)
    exact ⟨by rw [copies_deleteIn hn, hone], hclean⟩
  | @write user message ret d hp hwrite =>
    obtain ⟨hzero, hclean⟩ := h.during user message hp
    rw [writeDescriptor_lines h.file n user message] at hwrite
    obtain ⟨-, rfl⟩ := Prod.mk.inj hwrite
    have hk : firstField (mkLine n user message) = n := firstField_mkLine (isNumeral_no_slash hn)
    refine ⟨ls ++ [mkLine n user message], rfl, clean_snoc h.clean hclean, ?_,
      fun u m hum => (Option.some_ne_none _ hum.symm).elim⟩
    intro _
    have hone : copies n [mkLine n user message] = 1 := by simp [copies, hk]
    refine ⟨by rw [copies_append, hzero, hone], fun l hl => ?_⟩
    rw [lineOf_append, copies_eq_zero.1 hzero, Option.none_or] at hl
    obtain ⟨hmem, -⟩ := lineOf_some hl
    obtain rfl : l = _ := by simpa using hmem
    simp
  | read hread =>
    rw [readDescriptor_diskOf h.file h.clean _ n] at hread
    simp only [Option.some.injEq, Prod.mk.injEq] at hread
    obtain ⟨-, rfl⟩ := hread
    exact ⟨ls, h.file, h.clean, h.outside, h.during⟩

/-- **READs during a replace.** When every delete finds its line below 2^31 and every replacement
    fits, the READs of a run all answer the text of the line before the run or of a
    replacement, if and only if none of them falls between the delete and the write of a
    REPLACE. -/
theorem reads_answer_iff {b : Board} {tr : List (Replacing × ReplaceOp)} (hlive : n ∈ liveIds b.lines)
    (hrun : Runs.Run (ReplaceStep n) (Replacing.start n b) tr s)
    (hok : Runs.Guarded (ReplaceStep.Fits n) tr) :
    (∀ p ∈ tr, ReplaceStep.Answers p.1 p.2) ↔ ∀ p ∈ tr, ¬ ReplaceStep.Between p.1 p.2 := by
  have hn : IsNumeral n := Board.isNumeral_of_mem hlive
  have hkeep : ∀ s op s', (∃ ls, ReplaceInv n s ls) → ReplaceStep.Fits n s op →
      ReplaceStep n s op s' → ∃ ls, ReplaceInv n s' ls := by
    rintro s op s' ⟨ls, h⟩ hfits hstep
    exact h.step hn hfits hstep
  have hinv := hrun.inv_mem ⟨_, ReplaceInv.start hlive⟩ hkeep hok
  refine forall₂_congr fun p hp => ?_
  obtain ⟨ls, h⟩ := hinv p hp
  obtain ⟨s', hstep, -⟩ := hrun.mem_step p hp
  rcases p with ⟨u, op⟩
  cases hstep with
  | read hread =>
    have hans := h.answers_iff hread
    simpa [ReplaceStep.Answers, ReplaceStep.Between] using hans
  | delete => simp [ReplaceStep.Answers, ReplaceStep.Between]
  | write => simp [ReplaceStep.Answers, ReplaceStep.Between]

/-- A READ before a REPLACE and one after it. -/
theorem reads_answer_after_replace : ∃ tr s, Runs.Run (ReplaceStep ['1']) (Replacing.start ['1'] oneLine) tr s ∧
    s.texts = ["u/m".toList, "v/n".toList] ∧ ∀ p ∈ tr, ReplaceStep.Answers p.1 p.2 := by
  let s₁ : Replacing := ⟨"1/u/m\n".toList, none, ["u/m".toList]⟩
  let s₂ : Replacing := ⟨"\x08\x08\x08\x08\x08\n".toList, some (['v'], ['n']), ["u/m".toList]⟩
  let s₃ : Replacing :=
    ⟨"\x08\x08\x08\x08\x08\n1/v/n\n".toList, none, ["u/m".toList, lineText (mkLine ['1'] ['v'] ['n'])]⟩
  have h₁ : ReplaceStep ['1'] s₁ (.read [] 3 (some "u/m".toList)) s₁ := .read (d := diskOf s₁.bbfile) rfl
  have h₂ : ReplaceStep ['1'] s₁ (.delete ⟨[], []⟩ ['v'] ['n']) s₂ :=
    @ReplaceStep.delete _ _ _ _ _ 6 (diskOf s₂.bbfile) rfl ⟨by decide, by decide, by decide⟩
      (by decide +kernel)
  have h₃ : ReplaceStep ['1'] s₂ .write s₃ :=
    @ReplaceStep.write _ s₂ ['v'] ['n'] 0 (diskOf s₃.bbfile) rfl rfl
  have h₄ : ReplaceStep ['1'] s₃ (.read [] 3 (some "v/n".toList)) s₃ := .read (d := diskOf s₃.bbfile) rfl
  have hrun := (((Runs.Run.nil.snoc h₁).snoc h₂).snoc h₃).snoc h₄
  have hlive : ['1'] ∈ liveIds oneLine.lines := by decide
  refine ⟨_, s₃, hrun, by decide, (reads_answer_iff hlive hrun ?_).2 ?_⟩
  all_goals
    intro p hp
    simp only [List.nil_append, List.cons_append, List.mem_cons, List.not_mem_nil, or_false] at hp
  · rcases hp with rfl | rfl | rfl | rfl
    · trivial
    · exact ⟨by decide, by decide⟩
    · trivial
    · trivial
  · rcases hp with rfl | rfl | rfl | rfl
    · exact fun h => h rfl
    · exact id
    · exact id
    · exact fun h => h rfl

/-- A READ between the delete and the write of a REPLACE reports the message as unknown. -/
theorem read_between_unknown : ∃ tr s, Runs.Run (ReplaceStep ['1']) (Replacing.start ['1'] oneLine) tr s ∧
    ∃ p ∈ tr, p.2 = .read [] (-1) none := by
  let s₂ : Replacing := ⟨"\x08\x08\x08\x08\x08\n".toList, some (['v'], ['n']), ["u/m".toList]⟩
  have h₂ : ReplaceStep ['1'] (Replacing.start ['1'] oneLine) (.delete ⟨[], []⟩ ['v'] ['n']) s₂ :=
    @ReplaceStep.delete _ _ _ _ _ 6 (diskOf s₂.bbfile) rfl ⟨by decide, by decide, by decide⟩
      (by decide +kernel)
  have h₃ : ReplaceStep ['1'] s₂ (.read [] (-1) none) s₂ := .read (d := diskOf s₂.bbfile) rfl
  exact ⟨_, s₂, (Runs.Run.nil.snoc h₂).snoc h₃, (s₂, .read [] (-1) none), by simp, rfl⟩

end BulletinBoard
