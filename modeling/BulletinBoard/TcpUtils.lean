import BulletinBoard.CString

/- tcp-utils.cc: `readline` over a descriptor. A descriptor is what its reads will
   give: its remaining bytes, and then, on every later read, end of file or an
   error. -/
namespace BulletinBoard

structure Stream where
  bytes : List Char
  fails : Bool
  deriving DecidableEq, Repr

/-- Reads from the descriptor -1. -/
def badDescriptor : Stream := ⟨[], true⟩

def recvNodata : Int := -2

/-- How the loop of `readline` ends. -/
inductive LineEnd where
  | newline
  | eof
  | error
  | full
  deriving DecidableEq, Repr

/-- The bytes that `readline` reads when it has room for `max` more, what is left of the
    descriptor, and how the loop ends. -/
def takeLine : Nat → List Char → Bool → List Char × List Char × LineEnd
  | 0, bytes, _ => ([], bytes, .full)
  | _ + 1, [], fails => ([], [], if fails then .error else .eof)
  | max + 1, tmp :: bytes, fails =>
    if tmp = '\n' then ([], bytes, .newline)
    else
      let (line, rest, e) := takeLine max bytes fails
      (tmp :: line, rest, e)

/-- `readline(fd, buf, max)`: its return value, the buffer and the descriptor after it. An
    error leaves what was read so far in the buffer, without a NUL; the end of the file
    is `recvNodata` only when it is met at the first byte. -/
def readline (buf : List Char) (max : Nat) (fd : Stream) : Int × List Char × Stream :=
  let (line, rest, e) := takeLine max fd.bytes fd.fails
  let fd := { fd with bytes := rest }
  match e with
  | .error => (-1, line ++ buf.drop line.length, fd)
  | .eof =>
    if line = [] then (recvNodata, buf, fd)
    else (line.length, line ++ NUL :: buf.drop (line.length + 1), fd)
  | _ => (line.length, line ++ NUL :: buf.drop (line.length + 1), fd)

theorem takeLine_line {line rest : List Char} {fails : Bool} (h : '\n' ∉ line) :
    ∀ {max : Nat}, line.length < max →
      takeLine max (line ++ '\n' :: rest) fails = (line, rest, .newline) := by
  induction line with
  | nil =>
    intro max hmax
    cases max with
    | zero => simp at hmax
    | succ max => simp [takeLine]
  | cons c line ih =>
    intro max hmax
    cases max with
    | zero => simp at hmax
    | succ max =>
      have hc : c ≠ '\n' := fun hc => h (by simp [hc])
      simp [takeLine, hc, ih (fun hm => h (by simp [hm])) (by simpa using hmax)]

/-- The last line of a file may have no newline. -/
theorem takeLine_end {line : List Char} (h : '\n' ∉ line) : ∀ {max : Nat}, line.length < max →
    takeLine max line false = (line, [], .eof) := by
  induction line with
  | nil =>
    intro max hmax
    obtain ⟨max, rfl⟩ := Nat.exists_eq_succ_of_ne_zero (Nat.ne_zero_of_lt hmax)
    rfl
  | cons c line ih =>
    intro max hmax
    obtain ⟨max, rfl⟩ := Nat.exists_eq_succ_of_ne_zero (Nat.ne_zero_of_lt hmax)
    have hc : c ≠ '\n' := fun hc => h (by simp [hc])
    simp [takeLine, hc, ih (fun hm => h (by simp [hm])) (by simpa using hmax)]

/-- A line that does not fit is cut. -/
theorem takeLine_long {line : List Char} (h : '\n' ∉ line) (more : List Char) (fails : Bool) :
    ∀ {max : Nat}, max ≤ line.length →
      takeLine max (line ++ more) fails = (line.take max, line.drop max ++ more, .full) := by
  induction line with
  | nil =>
    intro max hmax
    obtain rfl := Nat.le_zero.1 hmax
    rfl
  | cons c line ih =>
    intro max hmax
    cases max with
    | zero => rfl
    | succ max =>
      have hc : c ≠ '\n' := fun hc => h (by simp [hc])
      simp [takeLine, hc, ih (fun hm => h (by simp [hm])) (Nat.le_of_succ_le_succ hmax)]

/-- A whole line that fits is read up to its newline. -/
theorem readline_line {buf line rest : List Char} {max : Nat} {fails : Bool} (h : '\n' ∉ line)
    (hmax : line.length < max) :
    readline buf max ⟨line ++ '\n' :: rest, fails⟩ =
      ((line.length : Int), line ++ NUL :: buf.drop (line.length + 1), ⟨rest, fails⟩) := by
  simp [readline, takeLine_line h hmax]

theorem readline_eof {buf : List Char} {max : Nat} (h : 0 < max) :
    readline buf max ⟨[], false⟩ = (recvNodata, buf, ⟨[], false⟩) := by
  obtain ⟨m, rfl⟩ : ∃ m, max = m + 1 := ⟨max - 1, by omega⟩
  simp [readline, takeLine]

/-- A read of a line leaves less of what is not read. -/
theorem takeLine_rest (fails : Bool) : ∀ {max : Nat} {bytes : List Char}, 0 < max → bytes ≠ [] →
    (takeLine max bytes fails).2.1.length < bytes.length
  | 0, _, hmax, _ => absurd hmax (Nat.lt_irrefl 0)
  | _ + 1, [], _, hne => absurd rfl hne
  | max + 1, tmp :: bytes, _, _ => by
    rw [takeLine]
    split
    · exact Nat.lt_succ_self _
    · dsimp only
      cases max with
      | zero => exact Nat.lt_succ_self _
      | succ max =>
        by_cases hbytes : bytes = []
        · subst hbytes
          exact Nat.lt_succ_self _
        · exact Nat.lt_succ_of_lt (takeLine_rest fails (Nat.succ_pos max) hbytes)

/-- The descriptor after a `readline`. -/
theorem readline_descriptor (buf : List Char) (max : Nat) (fd : Stream) :
    (readline buf max fd).2.2 = ⟨(takeLine max fd.bytes fd.fails).2.1, fd.fails⟩ := by
  rw [readline]
  dsimp only
  split
  · rfl
  · split
    · rfl
    · rfl
  · rfl

theorem readline_rest {buf : List Char} {max : Nat} {fd : Stream} (hmax : 0 < max) (hne : fd.bytes ≠ []) :
    (readline buf max fd).2.2.bytes.length < fd.bytes.length := by
  rw [readline_descriptor]
  exact takeLine_rest fd.fails hmax hne

/-! Descriptors whose reads fail. -/

theorem readline_error {buf : List Char} {max : Nat} (h : 0 < max) :
    readline buf max ⟨[], true⟩ = (-1, buf, ⟨[], true⟩) := by
  obtain ⟨m, rfl⟩ : ∃ m, max = m + 1 := ⟨max - 1, by omega⟩
  simp [readline, takeLine]

theorem takeLine_fails_ne_eof : ∀ (max : Nat) (bytes : List Char),
    (takeLine max bytes true).2.2 ≠ .eof
  | 0, _ => by simp [takeLine]
  | _ + 1, [] => by simp [takeLine]
  | max + 1, tmp :: bytes => by
    rw [takeLine]
    split
    · simp
    · exact takeLine_fails_ne_eof max bytes

/-- Such a descriptor has no end of file. -/
theorem readline_fails (buf : List Char) (max : Nat) (bytes : List Char) :
    (readline buf max ⟨bytes, true⟩).1 ≠ recvNodata ∧ (readline buf max ⟨bytes, true⟩).2.2.fails = true := by
  have heof := takeLine_fails_ne_eof max bytes
  have hlen : ∀ line : List Char, (line.length : Int) ≠ recvNodata := by
    intro line; unfold recvNodata; omega
  rcases hr : takeLine max bytes true with ⟨line, rest, e⟩
  rw [hr] at heof
  cases e with
  | eof => exact absurd rfl heof
  | error => simp [readline, hr, recvNodata]
  | newline => simp [readline, hr, hlen]
  | full => simp [readline, hr, hlen]

end BulletinBoard
