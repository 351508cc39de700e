import BulletinBoard.ScanRound
import BulletinBoard.ReadWriteLock
import BulletinBoard.Housekeeping
import BulletinBoard.Numbering

/- descriptor.cc: any number of threads at the bbfile at once. `read_descriptor` and
   `write_descriptor` go through the lock of ReadWriteLock.lean; `delete_descriptor` and
   `generate_number` take no lock. A scan takes one byte of the file in a step, and the file
   may change between two steps: a write appends a line, a delete overwrites one with
   backspaces, each in one `write`. An open succeeds or fails, except in the seek of a
   delete, and a `read` of an open file does not fail; the cells of the number generator are
   not in this model. What is proved: every answer of a read is what `readDescriptor` gives
   on the file as it is at the moment of the answer, unless the same number was deleted when
   the read was in the middle of its line; every overwrite of a delete is what
   `deleteDescriptor` makes of the file at that moment, or its line is deleted already; and a scan for
   the largest number misses no number that is on file when it ends. -/
namespace BulletinBoard.FileAccess

open ReadWrite (FileQueue)

/-- What a thread in `read_descriptor` or `write_descriptor` holds: its arguments, and of a read
    the scan and `line_ret`. `cut` is not in the source: it says that a delete of the same number
    overwrote the line in whose middle the scan stood. -/
inductive Call where
  | read (msg_number : CStr) (fd : Option Cursor) (line_ret : Option CStr) (cut : Bool)
  | write (msg_number user message : Option CStr)
  deriving DecidableEq, Repr

/-- A thread in `delete_descriptor`, whose `msg_len` is not initialised, or in `generate_number`. -/
inductive Unlocked where
  | seek (msg_number msg_len : CStr) (fd : Cursor)
  | overwrite (msg_number : CStr) (ret : Int) (msg_len : CStr)
  | deleted (ret : Int)
  | scan (max : Int) (fd : Cursor)
  | scanned (max : Int)
  deriving DecidableEq, Repr

/-- The return of `seek_msg_descriptor`: where the line starts, narrowed to int, and its length. -/
def Unlocked.sought (msg_number text : CStr) (fd : Cursor) : Unlocked :=
  .overwrite msg_number (toInt (toInt fd.offset - text.length - 1)) (showInt text.length)

/-- The lock with its threads, what these hold, the threads without a lock, and `source_file`. -/
structure Files where
  queue : FileQueue
  calls : List Call
  unlocked : List Unlocked
  file : List Char
  deriving DecidableEq, Repr

/-- Before any call. -/
def start (ls : List CStr) : Files := ⟨.empty, [], [], fileOf ls⟩

/-- The places at which a thread is at work on the file. -/
def atFile : ReadWrite.Pc → Bool
  | .read | .testArguments | .openToRead | .openToAppend | .append => true
  | _ => false

/-- The ghost of a read when `msg_number` is deleted at `ret`. -/
def Call.cutBy (msg_number : CStr) (ret : Int) : Call → Call
  | .read id (some c) none cut =>
    .read id (some c) none (cut || decide (id = msg_number ∧ c.got ≠ [] ∧ (c.offset : Int) - c.got.length = ret))
  | call => call

/-- What `delete_descriptor` writes. -/
def backspaces (lim : Int) : List Char := List.replicate lim.toNat BACKSPACE ++ ['\n']

inductive Act where
  | calls (call : Call)
  | callsUnlocked (u : Unlocked)
  | locks (i : Nat)
  | moves (i : Nat)
  | answers (i : Nat) (ret : Int) (line_ret : Option CStr)
  | appends (i : Nat)
  | goesOn (j : Nat)
  | misses (j : Nat)
  | overwrites (j : Nat)
  | scanned (j : Nat) (max : Int)
  deriving DecidableEq, Repr

/-- The step of one thread, or a new call. -/
inductive Step (s : Files) : Act → Files → Prop where
  | callRead {id : CStr} : Step s (.calls (.read id none none false))
      { s with queue := { s.queue with threads := s.queue.threads ++ [.lockToRead] },
               calls := s.calls ++ [.read id none none false] }
  | callWrite {n u m : Option CStr} : Step s (.calls (.write n u m))
      { s with queue := { s.queue with threads := s.queue.threads ++ [.lockToWrite] },
               calls := s.calls ++ [.write n u m] }
  | locks {i : Nat} {t : ReadWrite.Pc} {q : FileQueue} : s.queue.threads[i]? = some t → atFile t = false →
      ReadWrite.Step s.queue (some i) q → Step s (.locks i) { s with queue := q }
  -- read_descriptor
  | noFile {i : Nat} {id : CStr} {cut : Bool} : s.queue.threads[i]? = some .read →
      s.calls[i]? = some (.read id none none cut) →
      Step s (.moves i) { s with queue := s.queue.set i (.lockToLeave (-2)) }
  | opens {i : Nat} {id : CStr} {cut : Bool} {junk : List Char} : s.queue.threads[i]? = some .read →
      s.calls[i]? = some (.read id none none cut) →
      Step s (.moves i) { s with calls := s.calls.set i (.read id (some ⟨0, [], junk⟩) none cut) }
  | reads {i : Nat} {id : CStr} {cut : Bool} {c c' : Cursor} : s.queue.threads[i]? = some .read →
      s.calls[i]? = some (.read id (some c) none cut) → c.seek s.file id = .goesOn c' →
      Step s (.moves i) { s with calls := s.calls.set i (.read id (some c') none cut) }
  | finds {i : Nat} {id text : CStr} {tokens : List CStr} {cut : Bool} {c c' : Cursor} :
      s.queue.threads[i]? = some .read → s.calls[i]? = some (.read id (some c) none cut) →
      c.seek s.file id = .found text tokens c' →
      Step s (.answers i (assembleLine tokens).length (some (assembleLine tokens)))
        { s with queue := s.queue.set i (.lockToLeave (assembleLine tokens).length),
                 calls := s.calls.set i (.read id (some c') (some (assembleLine tokens)) cut) }
  | notFound {i : Nat} {id : CStr} {cut : Bool} {c : Cursor} : s.queue.threads[i]? = some .read →
      s.calls[i]? = some (.read id (some c) none cut) → c.seek s.file id = .nodata →
      Step s (.answers i (-1) none) { s with queue := s.queue.set i (.lockToLeave (-1)) }
  -- write_descriptor
  | nullArgument {i : Nat} {n u m : Option CStr} : s.queue.threads[i]? = some .testArguments →
      s.calls[i]? = some (.write n u m) → (n = none ∨ u = none ∨ m = none) →
      Step s (.moves i) { s with queue := s.queue.set i (.broadcast (-1)) }
  | allArguments {i : Nat} {n u m : CStr} : s.queue.threads[i]? = some .testArguments →
      s.calls[i]? = some (.write (some n) (some u) (some m)) →
      Step s (.moves i) { s with queue := s.queue.set i .openToRead }
  | opensToWrite {i : Nat} {t t' : ReadWrite.Pc} : s.queue.threads[i]? = some t → (t = .openToRead ∨ t = .openToAppend) →
      t.Moves t' → Step s (.moves i) { s with queue := s.queue.set i t' }
  | appends {i : Nat} {n u m : CStr} : s.queue.threads[i]? = some .append →
      s.calls[i]? = some (.write (some n) (some u) (some m)) →
      Step s (.appends i) { s with queue := s.queue.set i (.broadcast 0), file := s.file ++ lineBytes n u m }
  -- delete_descriptor
  | callDelete {id : CStr} {junk : Junk} : Step s (.callsUnlocked (.seek id (cstr junk.msg_len 0) ⟨0, [], junk.line⟩))
      { s with unlocked := s.unlocked ++ [.seek id (cstr junk.msg_len 0) ⟨0, [], junk.line⟩] }
  | seeks {j : Nat} {id msg_len : CStr} {c c' : Cursor} : s.unlocked[j]? = some (.seek id msg_len c) →
      c.seek s.file id = .goesOn c' →
      Step s (.goesOn j) { s with unlocked := s.unlocked.set j (.seek id msg_len c') }
  | seeksFound {j : Nat} {id msg_len text : CStr} {tokens : List CStr} {c c' : Cursor} :
      s.unlocked[j]? = some (.seek id msg_len c) → c.seek s.file id = .found text tokens c' →
      Step s (.goesOn j) { s with unlocked := s.unlocked.set j (.sought id text c') }
  | seeksNotFound {j : Nat} {id msg_len : CStr} {c : Cursor} : s.unlocked[j]? = some (.seek id msg_len c) →
      c.seek s.file id = .nodata →
      Step s (.misses j) { s with unlocked := s.unlocked.set j (.overwrite id 0 msg_len) }
  | deleteFails {j : Nat} {id msg_len : CStr} {ret : Int} : s.unlocked[j]? = some (.overwrite id ret msg_len) →
      Step s (.goesOn j) { s with unlocked := s.unlocked.set j (.deleted (-2)) }
  | overwrites {j : Nat} {id msg_len : CStr} {ret : Int} : s.unlocked[j]? = some (.overwrite id ret msg_len) →
      Step s (.overwrites j)
        { s with calls := s.calls.map (Call.cutBy id ret),
                 unlocked := s.unlocked.set j (.deleted (backspaces (atoi msg_len)).length),
                 file := Lines.overwrite NUL s.file ret.toNat (backspaces (atoi msg_len)) }
  -- generate_number
  | callGenerate {junk : List Char} : Step s (.callsUnlocked (.scan 0 ⟨0, [], junk⟩))
      { s with unlocked := s.unlocked ++ [.scan 0 ⟨0, [], junk⟩] }
  | scans {j : Nat} {max max' : Int} {c c' : Cursor} : s.unlocked[j]? = some (.scan max c) →
      c.scan s.file max = some (max', c') →
      Step s (.goesOn j) { s with unlocked := s.unlocked.set j (.scan max' c') }
  | scanned {j : Nat} {max : Int} {c : Cursor} : s.unlocked[j]? = some (.scan max c) →
      c.scan s.file max = none →
      Step s (.scanned j max) { s with unlocked := s.unlocked.set j (.scanned max) }

/-! The lock is the lock of ReadWriteLock.lean. -/

theorem queue_step {s s' : Files} {a : Act} (h : Step s a s') :
    s'.queue = s.queue ∨ ∃ b, ReadWrite.Step s.queue b s'.queue := by
  cases h with
  | callRead => exact .inr ⟨none, .callRead⟩
  | callWrite => exact .inr ⟨none, .callWrite⟩
  | locks ht hfile hq => exact .inr ⟨_, hq⟩
  | noFile ht hcall => exact .inr ⟨_, .move ht .readNoFile⟩
  | finds ht hcall hseek => exact .inr ⟨_, .move ht (.readFound _)⟩
  | notFound ht hcall hseek => exact .inr ⟨_, .move ht .readNotFound⟩
  | nullArgument ht hcall hnull => exact .inr ⟨_, .move ht .nullArgument⟩
  | allArguments ht hcall => exact .inr ⟨_, .move ht .allArguments⟩
  | opensToWrite ht hplace hmove => exact .inr ⟨_, .move ht hmove⟩
  | appends ht hcall => exact .inr ⟨_, .move ht .appends⟩
  | opens | reads | callDelete | seeks | seeksFound | seeksNotFound | deleteFails | overwrites => exact .inl rfl
  | callGenerate | scans | scanned => exact .inl rfl

theorem queue_inv {ls : List CStr} {s : Files} {tr : List (Files × Act)} (hrun : Runs.Run Step (start ls) tr s) :
    ReadWrite.Inv s.queue := by
  have hstep : ∀ (s : Files) (a : Act) (s' : Files), ReadWrite.Inv s.queue → Step s a s' → ReadWrite.Inv s'.queue := by
    intro s a s' h hs
    rcases queue_step hs with he | ⟨b, hb⟩
    · rw [he]
      exact h
    · exact h.step hb
  exact @Runs.Run.inv_of_step _ _ _ _ _ _ (fun s => ReadWrite.Inv s.queue) ReadWrite.Inv.empty hstep hrun

/-- A line is appended only while no read scans the file. -/
theorem not_reading_of_appends {ls : List CStr} {s s' : Files} {tr : List (Files × Act)} {i : Nat}
    (hrun : Runs.Run Step (start ls) tr s) (hs : Step s (.appends i) s') : .read ∉ s.queue.threads := by
  have h := queue_inv hrun
  cases hs with
  | appends ht hcall =>
    intro hmem
    have hzero : s.queue.reads = 0 := h.writing _ (List.mem_of_getElem? ht) rfl
    have hpos : 0 < s.queue.threads.countP ReadWrite.Pc.counted := List.countP_pos_iff.2 ⟨_, hmem, rfl⟩
    have := h.reads
    omega

/-! The invariant: the file is made of lines that are read whole, and each thread knows what
its scan has passed. -/

/-- What a scan for a number has passed has other numbers. -/
def Seeking (ls : List CStr) (ok : CStr → Prop) (id : CStr) (c : Cursor) : Prop :=
  ∃ k, Over ls ok k c ∧ ∀ x ∈ ls.take k, firstField x ≠ id

/-- What the scan for the largest number has passed has no larger one. -/
def Scanning (ls : List CStr) (max : Int) (c : Cursor) : Prop :=
  ∃ k, Over ls (fun _ => True) k c ∧ ∀ x ∈ ls.take k, atoi (firstField x) ≤ max

/-- The line that a delete has found, at its offset, deleted or not. -/
structure Target (ls : List CStr) (id : CStr) (ret : Int) (msg_len : CStr) (n : Nat) (l : CStr) : Prop where
  line : ls[n]? = some l
  ret_eq : ret = (fileOf (ls.take n)).length
  msg_len_eq : msg_len = showInt l.length
  passed : ∀ x ∈ ls.take n, firstField x ≠ id
  number : firstField l = id ∨ Blank l

/-- What a read knows of the rest of a line that was deleted under it. -/
def readOk (id : CStr) (cut : Bool) (w : CStr) : Prop := cut = true ∨ firstField w ≠ id

def Call.Ok (ls : List CStr) : Call → Prop
  | .read id (some c) none cut => Sought id ∧ Seeking ls (readOk id cut) id c
  | .read id _ _ _ => Sought id
  | .write (some n) (some u) (some m) => Clean (mkLine n u m)
  | .write _ _ _ => True

def Unlocked.Ok (ls : List CStr) : Unlocked → Prop
  | .seek id _ c => Sought id ∧ Seeking ls (fun _ => True) id c
  | .overwrite id ret msg_len => Sought id ∧ ∃ n l, Target ls id ret msg_len n l
  | .scan max c => 0 ≤ max ∧ Scanning ls max c
  | .deleted _ | .scanned _ => True

structure Inv (s : Files) (ls : List CStr) : Prop where
  file : s.file = fileOf ls
  clean : ∀ l ∈ ls, Clean l
  calls : ∀ call ∈ s.calls, call.Ok ls
  unlocked : ∀ u ∈ s.unlocked, u.Ok ls

theorem Inv.start {ls : List CStr} (h : ∀ l ∈ ls, Clean l) : Inv (FileAccess.start ls) ls where
  file := rfl
  clean := h
  calls := by simp [FileAccess.start]
  unlocked := by simp [FileAccess.start]

/-! A line is appended. -/

section
variable {ls : List CStr} {x : CStr}

theorem take_append_le {k : Nat} (hk : k ≤ ls.length) : (ls ++ [x]).take k = ls.take k :=
  List.take_append_of_le_length hk

theorem Seeking.append {ok : CStr → Prop} {id : CStr} {c : Cursor} (h : Seeking ls ok id c) (hx : Clean x) :
    Seeking (ls ++ [x]) ok id c := by
  obtain ⟨k, ho, hpassed⟩ := h
  refine ⟨k, ho.append hx, ?_⟩
  rw [take_append_le ho.stands.le]
  exact hpassed

theorem Scanning.append {max : Int} {c : Cursor} (h : Scanning ls max c) (hx : Clean x) :
    Scanning (ls ++ [x]) max c := by
  obtain ⟨k, ho, hpassed⟩ := h
  refine ⟨k, ho.append hx, ?_⟩
  rw [take_append_le ho.stands.le]
  exact hpassed

theorem Target.append {id msg_len l : CStr} {ret : Int} {n : Nat} (h : Target ls id ret msg_len n l) (x : CStr) :
    Target (ls ++ [x]) id ret msg_len n l := by
  have hn : n < ls.length := (List.getElem?_eq_some_iff.1 h.line).1
  have htake : (ls ++ [x]).take n = ls.take n := take_append_le (Nat.le_of_lt hn)
  refine ⟨?_, by rw [htake]; exact h.ret_eq, h.msg_len_eq, by rw [htake]; exact h.passed, h.number⟩
  rw [List.getElem?_append_left hn]
  exact h.line

theorem Call.Ok.append {call : Call} (h : call.Ok ls) (hx : Clean x) : call.Ok (ls ++ [x]) := by
  cases call with
  | read id fd line_ret cut =>
    cases fd with
    | none => exact h
    | some c =>
      cases line_ret with
      | some text => exact h
      | none => exact ⟨h.1, h.2.append hx⟩
  | write n u m => cases n <;> cases u <;> cases m <;> exact h

theorem Unlocked.Ok.append {u : Unlocked} (h : u.Ok ls) (hx : Clean x) : u.Ok (ls ++ [x]) := by
  cases u with
  | seek id msg_len c => exact ⟨h.1, h.2.append hx⟩
  | overwrite id ret msg_len =>
    obtain ⟨hid, n, l, ht⟩ := h
    exact ⟨hid, n, l, ht.append x⟩
  | scan max c => exact ⟨h.1, h.2.append hx⟩
  | deleted ret => trivial
  | scanned max => trivial

end

/-! A line is deleted. -/

section
variable {ls : List CStr} {n : Nat} {l : CStr}

/-- The lines that were passed, where one of them may have been deleted. -/
theorem passed_delete {P : CStr → Prop} {k : Nat} (h : ∀ x ∈ ls.take k, P x) (hP : P (deletedLine l.length)) :
    ∀ x ∈ (ls.set n (deletedLine l.length)).take k, P x := by
  rw [List.take_set]
  exact Pool.forall_mem_set h hP

theorem Seeking.delete {ok ok' : CStr → Prop} {id : CStr} {c : Cursor} (h : Seeking ls ok id c) (hid : Sought id)
    (hn : ls[n]? = some l) (hl : Clean l) (hmono : ∀ w, ok w → ok' w)
    (hok : c.got ≠ [] → Cursors.Stands '\n' ls n c.offset c.got → Cursors.seen c.got l = l →
      ok' (Cursors.seen c.got (deletedLine l.length))) :
    Seeking (ls.set n (deletedLine l.length)) ok' id c := by
  obtain ⟨k, ho, hpassed⟩ := h
  refine ⟨k, (ho.mono hmono).delete hn hl ?_, passed_delete hpassed (hid.deleted_ne _)⟩
  intro hnk hgot hseen
  subst hnk
  exact hok hgot ho.stands hseen

theorem Scanning.delete {max : Int} {c : Cursor} (h : Scanning ls max c) (hmax : 0 ≤ max) (hn : ls[n]? = some l)
    (hl : Clean l) : Scanning (ls.set n (deletedLine l.length)) max c := by
  obtain ⟨k, ho, hpassed⟩ := h
  refine ⟨k, ho.delete hn hl (fun _ _ _ => trivial), passed_delete hpassed ?_⟩
  exact Int.le_trans (Int.le_of_eq (atoi_deletedLine _)) hmax

theorem Target.delete {id msg_len l' : CStr} {ret : Int} {n' : Nat} (h : Target ls id ret msg_len n' l') (hid : Sought id)
    (hn : ls[n]? = some l) : ∃ l'', Target (ls.set n (deletedLine l.length)) id ret msg_len n' l'' := by
  have hlen : (fileOf ((ls.set n (deletedLine l.length)).take n')).length = (fileOf (ls.take n')).length :=
    Cursors.length_unlines_set hn (length_deletedLine _) n'
  have hpassed := passed_delete (n := n) (l := l) h.passed (hid.deleted_ne _)
  by_cases hnn : n = n'
  · subst hnn
    obtain rfl : l = l' := Option.some.inj (hn.symm.trans h.line)
    refine ⟨deletedLine l.length, Pool.getElem?_set_of_getElem? hn, ?_, ?_, hpassed, .inr (blank_deletedLine _)⟩
    · rw [hlen]
      exact h.ret_eq
    · rw [length_deletedLine]
      exact h.msg_len_eq
  · refine ⟨l', ?_, ?_, h.msg_len_eq, hpassed, h.number⟩
    · rw [List.getElem?_set_ne hnn]
      exact h.line
    · rw [hlen]
      exact h.ret_eq

theorem Call.Ok.delete {call : Call} (h : call.Ok ls) {id : CStr} {ret : Int} {msg_len : CStr}
    (ht : Target ls id ret msg_len n l) (hl : Clean l) :
    (call.cutBy id ret).Ok (ls.set n (deletedLine l.length)) := by
  cases call with
  | write a b c => cases a <;> cases b <;> cases c <;> exact h
  | read x fd line_ret cut =>
    cases fd with
    | none => exact h
    | some c =>
      cases line_ret with
      | some text => exact h
      | none =>
        obtain ⟨hx, hseek⟩ := h
        refine ⟨hx, hseek.delete hx ht.line hl ?_ ?_⟩
        · intro w hw
          rcases hw with hw | hw
          · left
            rw [hw, Bool.true_or]
          · exact .inr hw
        · intro hgot hstands hseen
          -- the line has the number, and the delete is one of this number; or it has another one
          by_cases hfield : firstField l = x
          · left
            have hsame : x = id := by
              rcases ht.number with hid | hb
              · exact hfield.symm.trans hid
              · exact absurd hfield (by rw [hb]; exact hx.deleted_ne _)
            have hstart : (c.offset : Int) - c.got.length = ret := by
              have hoffset : c.offset = (fileOf (ls.take n)).length + c.got.length := hstands.offset_eq
              have := ht.ret_eq
              omega
            rw [decide_eq_true ⟨hsame, hgot, hstart⟩, Bool.or_true]
          · exact .inr (hx.cut_ne hfield hseen)

theorem Unlocked.Ok.delete {u : Unlocked} (h : u.Ok ls) (hn : ls[n]? = some l) (hl : Clean l) :
    u.Ok (ls.set n (deletedLine l.length)) := by
  cases u with
  | seek id msg_len c => exact ⟨h.1, h.2.delete h.1 hn hl (fun _ hw => hw) (fun _ _ _ => trivial)⟩
  | overwrite id ret msg_len =>
    obtain ⟨hid, n', l', ht⟩ := h
    obtain ⟨l'', ht'⟩ := ht.delete hid hn
    exact ⟨hid, n', l'', ht'⟩
  | scan max c => exact ⟨h.1, h.2.delete h.1 hn hl⟩
  | deleted ret => trivial
  | scanned max => trivial

end

/-! The rounds of the scans. -/

section
variable {ls : List CStr} {ok : CStr → Prop} {id : CStr} {c c' : Cursor} {k : Nat}

theorem passed_succ {P : CStr → Prop} {l : CStr} (h : ∀ x ∈ ls.take k, P x) (hk : ls[k]? = some l) (hl : P l) :
    ∀ x ∈ ls.take (k + 1), P x := by
  intro x hx
  rw [List.take_add_one, hk] at hx
  rcases List.mem_append.1 hx with hx | hx
  · exact h x hx
  · obtain rfl : x = l := by simpa using hx
    exact hl

theorem Seeking.goesOn (h : Seeking ls ok id c) (hc : ∀ l ∈ ls, Clean l) (hid : Sought id)
    (hs : c.seek (fileOf ls) id = .goesOn c') : Seeking ls ok id c' := by
  obtain ⟨k, ho, hpassed⟩ := h
  obtain ⟨c₁, h₁, ho₁⟩ | ⟨w, l, c₁, h₁, hsaw, hw, ho₁⟩ | ⟨w, l, c₁, h₁, -⟩ | ⟨-, h₁⟩ := ho.seek hc id
  · obtain rfl := SeekRound.goesOn.inj (h₁.symm.trans hs)
    exact ⟨k, ho₁, hpassed⟩
  · obtain rfl := SeekRound.goesOn.inj (h₁.symm.trans hs)
    refine ⟨k + 1, ho₁, passed_succ hpassed hsaw.line ?_⟩
    rcases hsaw.sees with rfl | ⟨hb, -⟩
    · exact hw
    · rw [hb]
      exact hid.deleted_ne _
  · rw [hs] at h₁
    cases h₁
  · rw [hs] at h₁
    cases h₁

theorem Seeking.found {text : CStr} {tokens : List CStr} (h : Seeking ls ok id c) (hc : ∀ l ∈ ls, Clean l)
    (hs : c.seek (fileOf ls) id = .found text tokens c') :
    ∃ n l, Saw ls ok n text l ∧ tokens = tokensOf text ∧ firstField text = id ∧
      c'.offset = (fileOf (ls.take n)).length + text.length + 1 ∧ ∀ x ∈ ls.take n, firstField x ≠ id := by
  obtain ⟨k, ho, hpassed⟩ := h
  obtain ⟨c₁, h₁, -⟩ | ⟨w, l, c₁, h₁, -⟩ | ⟨w, l, c₁, h₁, hsaw, hw, hoffset⟩ | ⟨-, h₁⟩ := ho.seek hc id
  · rw [hs] at h₁
    cases h₁
  · rw [hs] at h₁
    cases h₁
  · obtain ⟨rfl, rfl, rfl⟩ := SeekRound.found.inj (h₁.symm.trans hs)
    exact ⟨k, l, hsaw, rfl, hw, hoffset, hpassed⟩
  · rw [hs] at h₁
    cases h₁

theorem Seeking.nodata (h : Seeking ls ok id c) (hc : ∀ l ∈ ls, Clean l) (hs : c.seek (fileOf ls) id = .nodata) :
    lineOf id ls = none := by
  obtain ⟨k, ho, hpassed⟩ := h
  obtain ⟨c₁, h₁, -⟩ | ⟨w, l, c₁, h₁, -⟩ | ⟨w, l, c₁, h₁, -⟩ | ⟨hk, -⟩ := ho.seek hc id
  · rw [hs] at h₁
    cases h₁
  · rw [hs] at h₁
    cases h₁
  · rw [hs] at h₁
    cases h₁
  · rw [List.take_of_length_le (List.getElem?_eq_none_iff.1 hk)] at hpassed
    exact lineOf_eq_none.2 hpassed

theorem Scanning.goesOn {max max' : Int} (h : Scanning ls max c) (hc : ∀ l ∈ ls, Clean l) (hmax : 0 ≤ max)
    (hs : c.scan (fileOf ls) max = some (max', c')) : 0 ≤ max' ∧ Scanning ls max' c' := by
  obtain ⟨k, ho, hpassed⟩ := h
  obtain ⟨c₁, h₁, ho₁⟩ | ⟨w, l, c₁, h₁, hsaw, ho₁⟩ | ⟨-, h₁⟩ := ho.scan hc max
  · obtain ⟨rfl, rfl⟩ := Prod.mk.inj (Option.some.inj (h₁.symm.trans hs))
    exact ⟨hmax, k, ho₁, hpassed⟩
  · obtain ⟨rfl, rfl⟩ := Prod.mk.inj (Option.some.inj (h₁.symm.trans hs))
    have hle : max ≤ (if atoi (firstField w) > max then atoi (firstField w) else max) := by
      split <;> omega
    refine ⟨Int.le_trans hmax hle, k + 1, ho₁, passed_succ (fun x hx => Int.le_trans (hpassed x hx) hle) hsaw.line ?_⟩
    rcases hsaw.sees with rfl | ⟨hb, -⟩
    · split <;> omega
    · rw [hb, atoi_deletedLine]
      exact Int.le_trans hmax hle
  · rw [hs] at h₁
    cases h₁

theorem Scanning.ends {max : Int} (h : Scanning ls max c) (hc : ∀ l ∈ ls, Clean l) (hs : c.scan (fileOf ls) max = none) :
    ∀ x ∈ ls, atoi (firstField x) ≤ max := by
  obtain ⟨k, ho, hpassed⟩ := h
  obtain ⟨c₁, h₁, -⟩ | ⟨w, l, c₁, h₁, -⟩ | ⟨hk, -⟩ := ho.scan hc max
  · rw [hs] at h₁
    cases h₁
  · rw [hs] at h₁
    cases h₁
  · rwa [List.take_of_length_le (List.getElem?_eq_none_iff.1 hk)] at hpassed

/-- The lines around one of them. -/
theorem split_at {l : CStr} {n : Nat} (h : ls[n]? = some l) :
    ∃ a b, ls = a ++ l :: b ∧ ls.take n = a ∧ ∀ x, ls.set n x = a ++ x :: b := by
  obtain ⟨hn, rfl⟩ := List.getElem?_eq_some_iff.1 h
  refine ⟨ls.take n, ls.drop (n + 1), by simp, rfl, fun x => ?_⟩
  rw [List.set_eq_take_append_cons_drop, if_pos hn]

theorem line_end_le {l : CStr} {n : Nat} (h : ls[n]? = some l) :
    (fileOf (ls.take n)).length + l.length + 1 ≤ (fileOf ls).length := by
  obtain ⟨a, b, rfl, ha, -⟩ := split_at h
  rw [ha, fileOf_append, fileOf_cons, List.length_append, List.length_append, List.length_cons]
  omega

theorem lineOf_split_at {l : CStr} {n : Nat} (h : ls[n]? = some l) (hl : firstField l = id)
    (hpassed : ∀ x ∈ ls.take n, firstField x ≠ id) : lineOf id ls = some l := by
  obtain ⟨a, b, rfl, ha, -⟩ := split_at h
  rw [ha] at hpassed
  rw [lineOf_append, lineOf_eq_none.2 hpassed, Option.none_or, lineOf, List.find?_cons_of_pos]
  exact decide_eq_true hl

/-- What the seek of a delete returns. -/
theorem Seeking.target {text : CStr} {tokens : List CStr} (h : Seeking ls (fun _ => True) id c)
    (hc : ∀ l ∈ ls, Clean l) (hs : c.seek (fileOf ls) id = .found text tokens c')
    (hint : ((fileOf ls).length : Int) ≤ INT_MAX) :
    ∃ n l, Target ls id (toInt (toInt c'.offset - text.length - 1)) (showInt text.length) n l := by
  obtain ⟨n, l, hsaw, -, hfield, hoffset, hpassed⟩ := h.found hc hs
  have hend := line_end_le hsaw.line
  have hlen := hsaw.length_eq
  have hle : c'.offset ≤ (fileOf ls).length := by clear hint; omega
  have hret : (c'.offset : Int) - text.length - 1 = (fileOf (ls.take n)).length := by clear hint; omega
  have hret_le : (fileOf (ls.take n)).length ≤ (fileOf ls).length := by clear hint; omega
  have hoff : toInt c'.offset = c'.offset :=
    toInt_of_range (Int.natCast_nonneg _) (Int.le_trans (Int.ofNat_le.2 hle) hint)
  refine ⟨n, l, hsaw.line, ?_, by rw [hlen], hpassed, ?_⟩
  · rw [hoff, hret]
    exact toInt_of_range (Int.natCast_nonneg _) (Int.le_trans (Int.ofNat_le.2 hret_le) hint)
  · rcases hsaw.sees with rfl | ⟨hb, -⟩
    · exact .inl hfield
    · exact .inr hb

end

/-! The steps that the theorems are about: the numbers asked for are such that no part of a
deleted line is one, a line that is written is read whole, a delete finds its number, and the
file is shorter than 2^31. -/

def Call.Proper : Call → Prop
  | .read id _ _ _ => Sought id
  | .write (some n) (some u) (some m) => Clean (mkLine n u m)
  | .write _ _ _ => True

def Unlocked.Proper : Unlocked → Prop
  | .seek id _ _ => Sought id
  | _ => True

def Act.Proper : Act → Prop
  | .calls call => call.Proper
  | .callsUnlocked u => u.Proper
  | .misses _ => False
  | _ => True

def Orderly (s : Files) (a : Act) : Prop := a.Proper ∧ (s.file.length : Int) ≤ INT_MAX

/-- The overwrite of a delete, on the lines. -/
theorem Target.overwrites {ls : List CStr} {id msg_len l : CStr} {ret : Int} {n : Nat}
    (h : Target ls id ret msg_len n l) (hl : Clean l) :
    Lines.overwrite NUL (fileOf ls) ret.toNat (backspaces (atoi msg_len)) = fileOf (ls.set n (deletedLine l.length)) := by
  have hlim : atoi msg_len = l.length := by
    rw [h.msg_len_eq]
    apply atoi_showInt (by omega)
    have := hl.length_lt
    unfold BBLINE_LEN at this
    unfold INT_MAX
    omega
  have hback : backspaces (atoi msg_len) = deletedLine l.length ++ ['\n'] := by
    rw [hlim]
    rfl
  have hret : ret.toNat = (fileOf (ls.take n)).length := by
    rw [h.ret_eq]
    rfl
  obtain ⟨a, b, rfl, ha, hset⟩ := split_at h.line
  rw [hback, hret, ha, hset]
  exact Lines.overwrite_line (length_deletedLine _)

/-- **The step lemma.** -/
theorem Inv.step {s s' : Files} {ls : List CStr} {a : Act} (h : Inv s ls) (ha : Orderly s a) (hs : Step s a s') :
    ∃ ls', Inv s' ls' := by
  obtain ⟨hproper, hint⟩ := ha
  rw [h.file] at hint
  have hcall : ∀ {i : Nat} {call : Call}, s.calls[i]? = some call → call.Ok ls :=
    fun hi => h.calls _ (List.mem_of_getElem? hi)
  have hunlocked : ∀ {j : Nat} {u : Unlocked}, s.unlocked[j]? = some u → u.Ok ls :=
    fun hj => h.unlocked _ (List.mem_of_getElem? hj)
  cases hs with
  | callRead =>
    refine ⟨ls, h.file, h.clean, ?_, h.unlocked⟩
    intro call hmem
    rcases List.mem_append.1 hmem with hmem | hmem
    · exact h.calls call hmem
    · obtain rfl := List.mem_singleton.1 hmem
      exact hproper
  | @callWrite n u m =>
    refine ⟨ls, h.file, h.clean, ?_, h.unlocked⟩
    intro call hmem
    rcases List.mem_append.1 hmem with hmem | hmem
    · exact h.calls call hmem
    · obtain rfl := List.mem_singleton.1 hmem
      cases n <;> cases u <;> cases m <;> exact hproper
  | locks | noFile | notFound | nullArgument | allArguments | opensToWrite =>
    exact ⟨ls, h.file, h.clean, h.calls, h.unlocked⟩
  | opens ht hi =>
    refine ⟨ls, h.file, h.clean, Pool.forall_mem_set h.calls ?_, h.unlocked⟩
    exact ⟨hcall hi, 0, Over.start h.clean _, by simp⟩
  | reads ht hi hseek =>
    rw [h.file] at hseek
    obtain ⟨hid, hk⟩ := hcall hi
    exact ⟨ls, h.file, h.clean, Pool.forall_mem_set h.calls ⟨hid, hk.goesOn h.clean hid hseek⟩, h.unlocked⟩
  | finds ht hi hseek =>
    exact ⟨ls, h.file, h.clean, Pool.forall_mem_set h.calls (hcall hi).1, h.unlocked⟩
  | @appends i n u m ht hi =>
    have hx : Clean (mkLine n u m) := hcall hi
    refine ⟨ls ++ [mkLine n u m], ?_, clean_snoc h.clean hx, ?_, ?_⟩
    · show s.file ++ lineBytes n u m = _
      rw [h.file, lineBytes_eq, fileOf_append]
    · exact fun call hmem => (h.calls call hmem).append hx
    · exact fun u hmem => (h.unlocked u hmem).append hx
  | callDelete =>
    refine ⟨ls, h.file, h.clean, h.calls, ?_⟩
    intro u hmem
    rcases List.mem_append.1 hmem with hmem | hmem
    · exact h.unlocked u hmem
    · obtain rfl := List.mem_singleton.1 hmem
      exact ⟨hproper, 0, Over.start h.clean _, by simp⟩
  | seeks hj hseek =>
    rw [h.file] at hseek
    obtain ⟨hid, hk⟩ := hunlocked hj
    exact ⟨ls, h.file, h.clean, h.calls, Pool.forall_mem_set h.unlocked ⟨hid, hk.goesOn h.clean hid hseek⟩⟩
  | seeksFound hj hseek =>
    rw [h.file] at hseek
    obtain ⟨hid, hk⟩ := hunlocked hj
    exact ⟨ls, h.file, h.clean, h.calls, Pool.forall_mem_set h.unlocked ⟨hid, hk.target h.clean hseek hint⟩⟩
  | seeksNotFound => exact hproper.elim
  | deleteFails hj => exact ⟨ls, h.file, h.clean, h.calls, Pool.forall_mem_set h.unlocked trivial⟩
  | @overwrites j id msg_len ret hj =>
    obtain ⟨hid, n, l, ht⟩ := hunlocked hj
    have hl : Clean l := h.clean l (List.mem_of_getElem? ht.line)
    refine ⟨ls.set n (deletedLine l.length), ?_, ?_, ?_, Pool.forall_mem_set ?_ trivial⟩
    · show Lines.overwrite NUL s.file ret.toNat _ = _
      rw [h.file, ht.overwrites hl]
    · exact Pool.forall_mem_set h.clean (clean_deletedLine hl.length_lt)
    · intro call hmem
      obtain ⟨call', hmem', rfl⟩ := List.mem_map.1 hmem
      exact (h.calls call' hmem').delete ht hl
    · exact fun u hmem => (h.unlocked u hmem).delete ht.line hl
  | callGenerate =>
    refine ⟨ls, h.file, h.clean, h.calls, ?_⟩
    intro u hmem
    rcases List.mem_append.1 hmem with hmem | hmem
    · exact h.unlocked u hmem
    · obtain rfl := List.mem_singleton.1 hmem
      exact ⟨le_refl 0, 0, Over.start h.clean _, by simp⟩
  | scans hj hscan =>
    rw [h.file] at hscan
    obtain ⟨hmax, hk⟩ := hunlocked hj
    exact ⟨ls, h.file, h.clean, h.calls, Pool.forall_mem_set h.unlocked (hk.goesOn h.clean hmax hscan)⟩
  | scanned hj hscan => exact ⟨ls, h.file, h.clean, h.calls, Pool.forall_mem_set h.unlocked trivial⟩

/-- **The run lemma.** -/
theorem Inv.run {s : Files} {ls : List CStr} {tr : List (Files × Act)} (hls : ∀ l ∈ ls, Clean l)
    (hrun : Runs.Run Step (FileAccess.start ls) tr s) (hok : Runs.Guarded Orderly tr) : ∃ ls', Inv s ls' := by
  refine @Runs.Run.inv _ _ _ _ _ _ (fun s => ∃ ls', Inv s ls') Orderly ⟨ls, Inv.start hls⟩ ?_ hrun hok
  intro s a s' h ha hs
  obtain ⟨ls', h⟩ := h
  exact h.step ha hs

/-! Three threads in the middle of their scans of a file of one line. -/

def shortLine : CStr := mkLine ['1'] ['u'] ['m']

/-- A scan that has taken `n` bytes of the line. -/
def taken (n : Nat) : Cursor := ⟨n, shortLine.take n, []⟩

/-- A read, a delete and a number scan that have taken `a`, `b` and `c` bytes. -/
def busy (a b c : Nat) : Files :=
  ⟨⟨none, 1, [.read]⟩, [.read ['1'] (some (taken a)) none false], [.seek ['1'] [] (taken b), .scan 0 (taken c)],
    fileOf [shortLine]⟩

def Reached (s : Files) : Prop := ∃ tr, Runs.Run Step (start [shortLine]) tr s ∧ Runs.Guarded Orderly tr

theorem Reached.snoc {s s' : Files} {a : Act} (h : Reached s) (hs : Step s a s') (ha : a.Proper)
    (hfile : s.file = fileOf [shortLine]) : Reached s' := by
  obtain ⟨tr, hrun, hok⟩ := h
  refine ⟨_, hrun.snoc hs, hok.snoc ⟨ha, ?_⟩⟩
  rw [hfile]
  unfold INT_MAX
  decide

theorem shortLine_clean : ∀ l ∈ [shortLine], Clean l := by
  intro l hl
  obtain rfl := List.mem_singleton.1 hl
  exact ⟨by decide, by decide, by decide⟩

theorem seek_taken : ∀ n < 5, (taken n).seek (fileOf [shortLine]) ['1'] = .goesOn (taken (n + 1)) := by decide

theorem scan_taken : ∀ n < 5, (taken n).scan (fileOf [shortLine]) 0 = some (0, taken (n + 1)) := by decide

theorem busy_start : Reached (busy 0 0 0) := by
  have hid : Sought ['1'] := ⟨by decide, by decide⟩
  have h₀ : Reached (start [shortLine]) := ⟨[], .nil, by simp [Runs.Guarded]⟩
  have h₁ := h₀.snoc .callRead hid rfl
  have h₂ := h₁.snoc (.locks (i := 0) rfl rfl (.acquire rfl rfl rfl)) trivial rfl
  have h₃ := h₂.snoc (.locks (i := 0) rfl rfl (.countUp rfl)) trivial rfl
  have h₄ := h₃.snoc (.locks (i := 0) rfl rfl (.release rfl rfl)) trivial rfl
  have h₅ := h₄.snoc (@Step.opens _ 0 _ _ [] rfl rfl) trivial rfl
  have h₆ := h₅.snoc (@Step.callDelete _ ['1'] ⟨[], []⟩) hid rfl
  exact h₆.snoc (@Step.callGenerate _ []) trivial rfl

theorem busy_reached {a b c : Nat} (ha : a ≤ 5) (hb : b ≤ 5) (hc : c ≤ 5) : Reached (busy a b c) := by
  induction c with
  | succ c ih => exact (ih (by omega)).snoc (.scans (j := 1) rfl (scan_taken c hc)) trivial rfl
  | zero =>
    induction b with
    | succ b ih => exact (ih (by omega)).snoc (.seeks (j := 0) rfl (seek_taken b hb)) trivial rfl
    | zero =>
      induction a with
      | succ a ih => exact (ih (by omega)).snoc (.reads (i := 0) rfl rfl (seek_taken a ha)) trivial rfl
      | zero => exact busy_start

/-- **Reads linearize.** In every state that the threads reach, however their steps interleave, the
    answer of a `read_descriptor` at the last byte of its scan is what `readDescriptor` gives on the
    file as it is at that moment, unless a delete of the same number overwrote the line in whose
    middle the scan stood; and then no write is between its lock and its broadcast. -/
theorem read_linearizes {s s' : Files} {ls : List CStr} {tr : List (Files × Act)} {i : Nat} {ret : Int}
    {line_ret : Option CStr} (hls : ∀ l ∈ ls, Clean l) (hrun : Runs.Run Step (start ls) tr s)
    (hok : Runs.Guarded Orderly tr) (hs : Step s (.answers i ret line_ret) s') :
    ∃ id fd cut, s.calls[i]? = some (.read id fd none cut) ∧
      (cut = false → ∀ junk, readDescriptor junk id (diskOf s.file) = some ((ret, line_ret), diskOf s.file)) ∧
      ∀ t ∈ s.queue.threads, t.writing = false := by
  obtain ⟨ls', h⟩ := Inv.run hls hrun hok
  have hq := queue_inv hrun
  have hwriting : ∀ {i : Nat}, s.queue.threads[i]? = some ReadWrite.Pc.read → ∀ t ∈ s.queue.threads, t.writing = false := by
    intro i ht t hmem
    by_contra hw
    have hzero : s.queue.reads = 0 := hq.writing t hmem (by simpa using hw)
    have hpos : 0 < s.queue.threads.countP ReadWrite.Pc.counted :=
      List.countP_pos_iff.2 ⟨_, List.mem_of_getElem? ht, rfl⟩
    have := hq.reads
    omega
  cases hs with
  | @finds i id text tokens cut c c' ht hi hseek =>
    refine ⟨id, some c, cut, hi, ?_, hwriting ht⟩
    intro hcut junk
    rw [h.file] at hseek
    obtain ⟨hid, hk⟩ := h.calls _ (List.mem_of_getElem? hi)
    obtain ⟨n, l, hsaw, rfl, hfield, -, hpassed⟩ := hk.found h.clean hseek
    obtain rfl : text = l := by
      rcases hsaw.sees with he | ⟨-, hc | hne⟩
      · exact he
      · rw [hcut] at hc
        cases hc
      · exact absurd hfield hne
    have hline : lineOf id ls' = some text := lineOf_split_at hsaw.line hfield hpassed
    rw [readDescriptor_diskOf h.file h.clean, hline]
    rfl
  | @notFound i id cut c ht hi hseek =>
    refine ⟨id, some c, cut, hi, ?_, hwriting ht⟩
    intro hcut junk
    rw [h.file] at hseek
    obtain ⟨hid, hk⟩ := h.calls _ (List.mem_of_getElem? hi)
    rw [readDescriptor_diskOf h.file h.clean, hk.nodata h.clean hseek]
    rfl

/-- The theorem where the read comes to the end of its line. -/
theorem read_linearizes_busy : ∃ id fd cut, (busy 5 5 5).calls[0]? = some (.read id fd none cut) ∧
    (cut = false → ∀ junk, readDescriptor junk id (diskOf (fileOf [shortLine])) =
      some ((3, some ['u', '/', 'm']), diskOf (fileOf [shortLine]))) ∧
    ∀ t ∈ (busy 5 5 5).queue.threads, t.writing = false := by
  have hfinds : (taken 5).seek (fileOf [shortLine]) ['1'] =
      .found shortLine [['1'], ['u'], ['m']] ⟨6, [], shortLine ++ [NUL]⟩ := by decide
  obtain ⟨tr, hrun, hok⟩ := busy_reached (le_refl 5) (le_refl 5) (le_refl 5)
  have hs := Step.finds (s := busy 5 5 5) (i := 0) rfl rfl hfinds
  exact read_linearizes shortLine_clean hrun hok hs

/-- A line at the offset has been deleted. -/
def DeletedAt (file : List Char) (ret : Int) : Prop :=
  ∃ n l, (linesOf file)[n]? = some l ∧ Blank l ∧ ret = (fileOf ((linesOf file).take n)).length

/-- **Deletes linearize.** The overwrite of a `delete_descriptor`, some time after its seek, makes of
    the file what `deleteDescriptor` makes of it at that moment; or the line that the seek found has been
    deleted in between, and it changes nothing. -/
theorem delete_linearizes {s s' : Files} {ls : List CStr} {tr : List (Files × Act)} {j : Nat}
    (hls : ∀ l ∈ ls, Clean l) (hrun : Runs.Run Step (start ls) tr s) (hok : Runs.Guarded Orderly tr)
    (hint : (s.file.length : Int) ≤ INT_MAX) (hs : Step s (.overwrites j) s') :
    ∃ id ret msg_len, s.unlocked[j]? = some (.overwrite id ret msg_len) ∧
      (DeletedAt s.file ret ∧ s'.file = s.file ∨
        ∃ n, ∀ junk, deleteDescriptor junk id (diskOf s.file) = some (n, diskOf s'.file)) := by
  obtain ⟨ls', h⟩ := Inv.run hls hrun hok
  cases hs with
  | @overwrites j id msg_len ret hj =>
    refine ⟨id, ret, msg_len, hj, ?_⟩
    obtain ⟨hid, n, l, ht⟩ := h.unlocked _ (List.mem_of_getElem? hj)
    have hl : Clean l := h.clean l (List.mem_of_getElem? ht.line)
    have hfile := ht.overwrites hl
    rw [← h.file] at hfile
    dsimp only
    rw [hfile]
    obtain ⟨a, b, hsplit, ha, hset⟩ := split_at ht.line
    rcases ht.number with hfield | hb
    · right
      have hwithout : Without id a := by
        rw [← ha]
        exact ⟨fun x hx => h.clean x (List.mem_of_mem_take hx), ht.passed⟩
      have hline : lineOf id ls' = some l := lineOf_split_at ht.line hfield ht.passed
      have hdelete : deleteIn id ls' = ls'.set n (deletedLine l.length) := by
        rw [hset, hsplit]
        exact deleteIn_append hwithout hfield
      have hstart : (lineStart id s.file : Int) ≤ INT_MAX := by
        have hat : lineStart id s.file = (fileOf (ls'.take n)).length := by
          rw [h.file, ha, hsplit]
          apply lineStart_append hwithout hl _ hfield
          exact fun x hx => h.clean x (by rw [hsplit]; exact List.mem_append_right _ (List.mem_cons_of_mem _ hx))
        have hle : lineStart id s.file ≤ s.file.length := by
          have hend := line_end_le ht.line
          rw [hat, h.file]
          exact Nat.le_trans (Nat.le_trans (Nat.le_add_right _ _) (Nat.le_succ _)) hend
        exact Int.le_trans (Int.ofNat_le.2 hle) hint
      refine ⟨(l.length : Int) + 1, fun junk => ?_⟩
      rw [deleteDescriptor_diskOf h.file h.clean junk hline hstart, hdelete]
    · left
      have hsame : ls'.set n (deletedLine l.length) = ls' := by rw [← hb, hset, hsplit]
      rw [hsame, h.file]
      refine ⟨⟨n, l, ?_⟩, rfl⟩
      rw [linesOf_fileOf h.clean]
      exact ⟨ht.line, hb, ht.ret_eq⟩

/-- The delete has come to the end of the line, and the read has taken `a` bytes of it. -/
def found (a : Nat) : Files :=
  { busy a 5 5 with unlocked := [.sought ['1'] shortLine ⟨6, [], shortLine ++ [NUL]⟩, .scan 0 (taken 5)] }

theorem found_reached {a : Nat} (ha : a ≤ 5) : Reached (found a) := by
  have hfinds : (taken 5).seek (fileOf [shortLine]) ['1'] =
      .found shortLine [['1'], ['u'], ['m']] ⟨6, [], shortLine ++ [NUL]⟩ := by decide
  have h := busy_reached ha (le_refl 5) (le_refl 5)
  exact h.snoc (.seeksFound (j := 0) rfl hfinds) trivial rfl

/-- The theorem where the read is in the middle of the line. -/
theorem delete_linearizes_found : ∃ id ret msg_len,
    (found 4).unlocked[0]? = some (.overwrite id ret msg_len) ∧
      (DeletedAt (found 4).file ret ∧ Lines.overwrite NUL (found 4).file 0 (backspaces 5) = (found 4).file ∨
        ∃ n, ∀ junk, deleteDescriptor junk id (diskOf (found 4).file) =
          some (n, diskOf (Lines.overwrite NUL (found 4).file 0 (backspaces 5)))) := by
  obtain ⟨tr, hrun, hok⟩ := found_reached (by decide : 4 ≤ 5)
  have hint : ((found 4).file.length : Int) ≤ INT_MAX := by
    unfold INT_MAX
    decide
  exact delete_linearizes shortLine_clean hrun hok hint (.overwrites (j := 0) rfl)

/-- The line has been deleted under the read. -/
def torn (c : Cursor) : Files :=
  { busy 4 5 5 with calls := [.read ['1'] (some c) none true], unlocked := [.deleted 6, .scan 0 (taken 5)],
                    file := fileOf [deletedLine 5] }

/-- The read goes on in the line that was deleted under it, and answers what was never written. -/
theorem cut_read : ∃ s s', Reached s ∧ Step s (.answers 0 3 (some ['u', '/', BACKSPACE])) s' ∧
    ∀ junk, readDescriptor junk ['1'] (diskOf s.file) = some ((-1, none), diskOf s.file) := by
  have hgoesOn : (taken 4).seek (fileOf [deletedLine 5]) ['1'] = .goesOn ⟨5, ['1', '/', 'u', '/', BACKSPACE], []⟩ := by
    decide
  have hfinds : (⟨5, ['1', '/', 'u', '/', BACKSPACE], []⟩ : Cursor).seek (fileOf [deletedLine 5]) ['1'] =
      .found ['1', '/', 'u', '/', BACKSPACE] [['1'], ['u'], [BACKSPACE]]
        ⟨6, [], ['1', '/', 'u', '/', BACKSPACE, NUL]⟩ := by decide
  have hclean : ∀ l ∈ [deletedLine 5], Clean l := by
    intro l hl
    obtain rfl := List.mem_singleton.1 hl
    exact clean_deletedLine (by decide)
  have hdelete : Step (found 4) (.overwrites 0) (torn (taken 4)) := by
    convert Step.overwrites (s := found 4) (j := 0) rfl using 1
    decide +kernel
  obtain ⟨tr, hrun, hok⟩ := (found_reached (by decide : 4 ≤ 5)).snoc hdelete trivial rfl
  have hreads : Step (torn (taken 4)) (.moves 0) (torn ⟨5, ['1', '/', 'u', '/', BACKSPACE], []⟩) :=
    .reads (i := 0) rfl rfl hgoesOn
  have hs := Step.finds (s := torn ⟨5, ['1', '/', 'u', '/', BACKSPACE], []⟩) (i := 0) rfl rfl hfinds
  refine ⟨_, _, ⟨_, hrun.snoc hreads, hok.snoc ⟨trivial, ?_⟩⟩, hs, ?_⟩
  · unfold INT_MAX
    decide
  · intro junk
    have hnone : lineOf ['1'] [deletedLine 5] = none := by decide
    show readDescriptor junk ['1'] (diskOf (fileOf [deletedLine 5])) = _
    rw [readDescriptor_diskOf rfl hclean, hnone]
    rfl

/-- **No number is missed.** A scan of `generate_number`, which other threads do not wait for, ends with
    at least every number that is on file when it ends, and with at least what the same scan would find
    if the file did not change. -/
theorem scan_covers {s s' : Files} {ls : List CStr} {tr : List (Files × Act)} {j : Nat} {max : Int}
    (hls : ∀ l ∈ ls, Clean l) (hrun : Runs.Run Step (start ls) tr s) (hok : Runs.Guarded Orderly tr)
    (hs : Step s (.scanned j max) s') :
    (∀ l ∈ linesOf s.file, atoi (firstField l) ≤ max) ∧
      ∀ junk, ∃ m, scanMax (scanRounds ⟨s.file, false⟩) ⟨s.file, false⟩ junk 0 = some m ∧ m ≤ max := by
  obtain ⟨ls', h⟩ := Inv.run hls hrun hok
  cases hs with
  | scanned hj hscan =>
    rw [h.file] at hscan
    obtain ⟨hmax, hk⟩ := h.unlocked _ (List.mem_of_getElem? hj)
    have hends := hk.ends h.clean hscan
    rw [h.file, linesOf_fileOf h.clean]
    refine ⟨hends, fun junk => ⟨maxNumber ls', scanMax_eq h.clean (length_lt_scanRounds ls'), ?_⟩⟩
    rcases maxNumber_attained ls' with ⟨l, hl, heq⟩ | hzero
    · rw [← heq]
      exact hends l hl
    · rw [hzero]
      exact hmax

/-- The number scan at the end of the file. -/
def counted : Files :=
  { busy 5 5 5 with unlocked := [.seek ['1'] [] (taken 5), .scan 1 ⟨6, [], ['1', NUL, 'u', NUL, 'm', NUL]⟩] }

/-- The theorem where the scan comes to the end of the file. -/
theorem scan_covers_counted : (∀ l ∈ linesOf counted.file, atoi (firstField l) ≤ 1) ∧
    ∀ junk, ∃ m, scanMax (scanRounds ⟨counted.file, false⟩) ⟨counted.file, false⟩ junk 0 = some m ∧ m ≤ 1 := by
  have hlast : (taken 5).scan (fileOf [shortLine]) 0 = some (1, ⟨6, [], ['1', NUL, 'u', NUL, 'm', NUL]⟩) := by decide
  have h := busy_reached (le_refl 5) (le_refl 5) (le_refl 5)
  have hs : Step (busy 5 5 5) (.goesOn 1) counted := .scans (j := 1) rfl hlast
  obtain ⟨tr, hrun, hok⟩ := h.snoc hs trivial rfl
  exact scan_covers shortLine_clean hrun hok (.scanned (j := 1) rfl (by decide))

end BulletinBoard.FileAccess
