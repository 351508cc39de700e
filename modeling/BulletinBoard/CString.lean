import Mathlib.Tactic
import Mathlib.Data.List.TakeWhile

/- The C values the server computes with. A `char` is a `Char`; a C string is the
   list of its characters without the terminating NUL; a buffer is the list of its
   characters, NULs included, and what lies beyond it reads as NUL. `int` and
   `long int` values are integers, brought into their width where the source does
   so: `atoi` and the narrowing of `lseek`'s result. -/
namespace BulletinBoard

abbrev CStr := List Char

def NUL : Char := '\x00'
def BACKSPACE : Char := '\x08'

/-- The C string that starts at offset `off` of a buffer. -/
def cstr (buf : List Char) (off : Nat) : CStr := (buf.drop off).takeWhile (· != NUL)

/-- Conversion to a 32-bit `int`. -/
def toInt (x : Int) : Int := x.bmod (2 ^ 32)

/-- `isspace` in the C locale. -/
def isSpace (c : Char) : Bool :=
  c == ' ' || c == '\t' || c == '\n' || c == '\x0b' || c == '\x0c' || c == '\r'

def LONG_MAX : Int := 2 ^ 63 - 1
def LONG_MIN : Int := -2 ^ 63
def INT_MAX : Int := 2 ^ 31 - 1

/-- `strtol` in base 10: blanks, a sign, then digits; the value saturates. -/
def strtol (s : CStr) : Int :=
  match s.dropWhile isSpace with
  | '-' :: r => max LONG_MIN (-(Nat.ofDigitChars 10 (r.takeWhile Char.isDigit) 0 : Int))
  | '+' :: r => min LONG_MAX (Nat.ofDigitChars 10 (r.takeWhile Char.isDigit) 0)
  | r => min LONG_MAX (Nat.ofDigitChars 10 (r.takeWhile Char.isDigit) 0)

/-- `atoi`, which is `strtol` reduced to an `int`. -/
def atoi (s : CStr) : Int := toInt (strtol s)

/-- What `sprintf` writes for `%d` and `%ld`. -/
def showInt (n : Int) : CStr :=
  if n < 0 then '-' :: Nat.toDigits 10 n.natAbs else Nat.toDigits 10 n.toNat

/-- A decimal numeral: one or more digits. -/
def IsNumeral (s : CStr) : Prop := s ≠ [] ∧ ∀ c ∈ s, c.isDigit = true

instance (s : CStr) : Decidable (IsNumeral s) :=
  decidable_of_iff (s ≠ [] ∧ s.all Char.isDigit = true) (by simp [IsNumeral])

/-- The number a decimal numeral stands for. -/
def numeralValue (s : CStr) : Nat := Nat.ofDigitChars 10 s 0

/-! C strings in buffers. -/

theorem cstr_zero_of_no_nul {s : CStr} (h : NUL ∉ s) : cstr s 0 = s := by
  unfold cstr
  rw [List.drop_zero, List.takeWhile_eq_self_iff]
  intro c hc
  simp only [bne_iff_ne, ne_eq]
  rintro rfl
  exact h hc

/-- Text, a NUL, and anything after it. -/
theorem cstr_zero_append {s r : List Char} (h : NUL ∉ s) : cstr (s ++ NUL :: r) 0 = s := by
  unfold cstr
  rw [List.drop_zero, List.takeWhile_append_of_pos]
  · simp
  · intro c hc
    simp only [bne_iff_ne, ne_eq]
    rintro rfl
    exact h hc

/-! Numerals. -/

theorem digit_ne {c x : Char} (h : c.isDigit = true) (hx : x.isDigit = false) : c ≠ x := by
  rintro rfl; rw [h] at hx; cases hx

theorem isSpace_of_isDigit {c : Char} (h : c.isDigit = true) : isSpace c = false := by
  simp only [Char.isDigit, Bool.and_eq_true, decide_eq_true_eq] at h
  simp only [isSpace, Bool.or_eq_false_iff, beq_eq_false_iff_ne]
  refine ⟨⟨⟨⟨⟨?_, ?_⟩, ?_⟩, ?_⟩, ?_⟩, ?_⟩ <;> rintro rfl <;> revert h <;> decide

theorem strtol_numeral {s : CStr} (h : IsNumeral s) : strtol s = min LONG_MAX (numeralValue s) := by
  obtain ⟨hne, hd⟩ := h
  have htake : s.takeWhile Char.isDigit = s := List.takeWhile_eq_self_iff.2 hd
  obtain ⟨c, r, rfl⟩ := List.exists_cons_of_ne_nil hne
  have hc : c.isDigit = true := hd c (by simp)
  have hdrop : (c :: r).dropWhile isSpace = c :: r := by
    simp [isSpace_of_isDigit hc]
  unfold strtol
  rw [hdrop]
  split
  · next hm =>
    obtain ⟨rfl, -⟩ := List.cons.inj hm
    exact absurd hc (by decide)
  · next hm =>
    obtain ⟨rfl, -⟩ := List.cons.inj hm
    exact absurd hc (by decide)
  · rw [htake]; rfl

theorem showInt_natCast (n : Nat) : showInt n = Nat.toDigits 10 n := by
  simp [showInt]

theorem showInt_isNumeral {n : Int} (h : 0 ≤ n) : IsNumeral (showInt n) := by
  obtain ⟨k, rfl⟩ := Int.eq_ofNat_of_zero_le h
  rw [showInt_natCast]
  exact ⟨Nat.toDigits_ne_nil, fun c hc => Nat.isDigit_of_mem_toDigits (by decide) (by decide) hc⟩

theorem showInt_length_le {num : Int} (h₀ : 0 ≤ num) (h : num < 10 ^ 20) : (showInt num).length ≤ 20 := by
  obtain ⟨n, rfl⟩ := Int.eq_ofNat_of_zero_le h₀
  rw [showInt_natCast]
  exact Nat.toDigits_length 10 n 20 (by decide) (by exact_mod_cast h)

theorem showInt_chars {n : Int} {c : Char} (h : c ∈ showInt n) : c = '-' ∨ c.isDigit = true := by
  unfold showInt at h
  split at h
  · rcases List.mem_cons.1 h with rfl | h
    · exact Or.inl rfl
    · exact Or.inr (Nat.isDigit_of_mem_toDigits (by decide) (by decide) h)
  · exact Or.inr (Nat.isDigit_of_mem_toDigits (by decide) (by decide) h)

theorem numeralValue_showInt (n : Nat) : numeralValue (showInt n) = n := by
  rw [showInt_natCast]; exact Nat.ofDigitChars_ten_toDigits

theorem toInt_of_range {x : Int} (h₀ : 0 ≤ x) (h : x ≤ INT_MAX) : toInt x = x := by
  unfold INT_MAX at h
  unfold toInt
  rw [Int.bmod_eq_of_le] <;> omega

/-- Within `int`, reading back what was printed. -/
theorem atoi_showInt {n : Int} (h₀ : 0 ≤ n) (h : n ≤ INT_MAX) : atoi (showInt n) = n := by
  obtain ⟨k, rfl⟩ := Int.eq_ofNat_of_zero_le h₀
  have hle : (k : Int) ≤ LONG_MAX := by unfold INT_MAX at h; unfold LONG_MAX; omega
  rw [atoi, strtol_numeral (showInt_isNumeral h₀), numeralValue_showInt, min_eq_right hle]
  exact toInt_of_range h₀ h

end BulletinBoard
