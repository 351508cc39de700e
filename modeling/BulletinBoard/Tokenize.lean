import BulletinBoard.CString
import BulletinBoard.Lib.Cut
import Mathlib.Data.List.GetD

/- tokenize.cc: the in-place tokenizers. A run changes the buffer (every separator
   it cuts at becomes a NUL) and records the offsets at which tokens start; the
   tokens are the C strings found there afterwards. `strTokenize` and
   `bblineTokenize` are one loop with two sets of separators. What they find is the
   cut of the string (`Cut.cutAt`), whose pieces no later cut of the run changes. -/
namespace BulletinBoard

def isBlank (c : Char) : Bool := c == ' '

/-- The separators of `str_tokenize`. -/
def isWordSep (c : Char) : Bool := c == '=' || c == ' '

/-- The separator of `bbline_tokenize`. -/
def isSlash (c : Char) : Bool := c == '/'

/-- The inner loop: the first position from `i` on, below `n`, without a blank. -/
def skipBlanks (str : List Char) (n : Nat) : Nat → Nat → Nat
  | 0, i => i
  | f + 1, i => if i < n ∧ str.getD i NUL = ' ' then skipBlanks str n f (i + 1) else i

/-- The outer loop, from position `i` with the tokens recorded so far. Every round
    moves `i`, so that `n - i` rounds are enough. -/
def tokenizeLoop (sep : Char → Bool) (n : Nat) :
    Nat → Nat → List Char → List Nat → List Char × List Nat
  | 0, _, str, tokens => (str, tokens)
  | f + 1, i, str, tokens =>
    if i < n then
      if sep (str.getD i NUL) then
        let str := str.set i NUL
        let i := skipBlanks str n n (i + 1)
        if i < n then tokenizeLoop sep n f i str (tokens ++ [i])
        else tokenizeLoop sep n f i str tokens
      else tokenizeLoop sep n f (i + 1) str tokens
    else (str, tokens)

def strTokenize (str : List Char) (n : Nat) : List Char × List Nat :=
  tokenizeLoop isWordSep n n 0 str [0]

def bblineTokenize (str : List Char) (n : Nat) : List Char × List Nat :=
  tokenizeLoop isSlash n n 0 str [0]

/-- The recorded tokens, read as C strings from the changed buffer. -/
def tokenStrings (r : List Char × List Nat) : List CStr := r.2.map (cstr r.1)

/-- `tolwr`. -/
def tolwr (input : CStr) : CStr := input.map Char.toLower

/-! The loops against the cut. -/

theorem cstr_drop (buf : List Char) (i : Nat) : cstr (buf.drop i) 0 = cstr buf i := by
  simp [cstr]

/-- The C string at the start of a buffer. -/
theorem cstr_cons (c : Char) (s : List Char) : cstr (c :: s) 0 = if c = NUL then [] else c :: cstr s 0 := by
  by_cases hc : c = NUL
  · simp [cstr, hc]
  · simp [cstr, hc]

theorem cstr_append_tail {s tail : List Char} (hs : NUL ∉ s) (ht : cstr tail 0 = []) :
    cstr (s ++ tail) 0 = s := by
  unfold cstr at ht ⊢
  rw [List.drop_zero] at ht ⊢
  rw [List.takeWhile_append_of_pos, ht, List.append_nil]
  intro c hc
  simp only [bne_iff_ne, ne_eq]
  rintro rfl
  exact hs hc

theorem drop_succ_of_drop_eq_cons {l s : List Char} {c : Char} {i : Nat} (h : l.drop i = c :: s) :
    l.drop (i + 1) = s := by
  rw [← List.drop_drop, h]; rfl

theorem getD_of_drop_eq_cons {l s : List Char} {c : Char} {i : Nat} (h : l.drop i = c :: s) :
    l.getD i NUL = c := by
  have : (l.drop i).getD 0 NUL = c := by rw [h]; rfl
  simpa [List.getD_eq_getElem?_getD] using this

/-- What the first `i` characters are decides the character before `i`. -/
theorem drop_eq_cons_of_take_eq {r l s : List Char} {c : Char} {i j : Nat} (hij : i < j)
    (ht : r.take j = l.take j) (hl : l.drop i = c :: s) : r.drop i = c :: r.drop (i + 1) := by
  have hget : r[i]? = some c := by
    have h₁ : (r.take j)[i]? = (l.take j)[i]? := by rw [ht]
    rw [List.getElem?_take_of_lt hij, List.getElem?_take_of_lt hij] at h₁
    rw [h₁]
    have h₂ : (l.drop i)[0]? = some c := by rw [hl]; rfl
    simpa using h₂
  obtain ⟨hi, rfl⟩ := List.getElem?_eq_some_iff.1 hget
  rw [List.drop_eq_getElem_cons hi]

theorem skipBlanks_spec (sep : Char → Bool) {str : List Char} {n : Nat} :
    ∀ (f i : Nat) (s tail : List Char), str.drop i = s ++ tail → i ≤ n → n - i ≤ s.length →
      n - i ≤ f → i ≤ skipBlanks str n f i ∧ skipBlanks str n f i ≤ n ∧
        Cut.cutAt sep isBlank (n - i) true s =
          if skipBlanks str n f i < n then
            Cut.cutAt sep isBlank (n - skipBlanks str n f i) false (s.drop (skipBlanks str n f i - i))
          else [] := by
  intro f
  induction f with
  | zero =>
    intro i s tail hd hin _ hf
    obtain rfl : i = n := by omega
    simp [skipBlanks, Cut.cutAt]
  | succ f ih =>
    intro i s tail hd hin hlen hf
    by_cases hi : i < n
    · obtain ⟨c, s, rfl⟩ : ∃ c s', s = c :: s' := List.exists_cons_of_ne_nil (by
        rintro rfl; simp at hlen; omega)
      have hc : str.getD i NUL = c := getD_of_drop_eq_cons hd
      obtain ⟨k, hk⟩ : ∃ k, n - i = k + 1 := ⟨n - i - 1, by omega⟩
      by_cases hb : c = ' '
      · have hskip : skipBlanks str n (f + 1) i = skipBlanks str n f (i + 1) := by
          rw [skipBlanks, if_pos ⟨hi, by rw [hc, hb]⟩]
        obtain ⟨h₁, h₂, h₃⟩ := ih (i + 1) s tail (drop_succ_of_drop_eq_cons hd) hi
          (by simp at hlen; omega) (by omega)
        rw [hskip]
        refine ⟨by omega, h₂, ?_⟩
        have hdrop : (c :: s).drop (skipBlanks str n f (i + 1) - i) =
            s.drop (skipBlanks str n f (i + 1) - (i + 1)) := by
          rw [show skipBlanks str n f (i + 1) - i = (skipBlanks str n f (i + 1) - (i + 1)) + 1 by omega,
            List.drop_succ_cons]
        rw [hdrop, ← h₃, hk, show n - (i + 1) = k by omega]
        simp [Cut.cutAt, hb, isBlank]
      · have hskip : skipBlanks str n (f + 1) i = i := by
          rw [skipBlanks, if_neg]
          rw [hc]; exact fun h => hb h.2
        rw [hskip, if_pos hi, hk, Nat.sub_self, List.drop_zero]
        refine ⟨le_refl i, hin, ?_⟩
        simp [Cut.cutAt, isBlank, hb]
    · obtain rfl : i = n := by omega
      have hskip : skipBlanks str i (f + 1) i = i := by
        rw [skipBlanks, if_neg (fun h => hi h.1)]
      simp [hskip, Cut.cutAt]

/-- A separator is overwritten. -/
theorem drop_set_of_drop_eq_cons {str s : List Char} {c : Char} {i : Nat} (hd : str.drop i = c :: s) :
    (str.set i NUL).drop i = NUL :: s := by
  have hlt : i < str.length := by
    by_contra h
    rw [List.drop_eq_nil_of_le (by omega)] at hd
    simp at hd
  rw [List.drop_eq_getElem_cons (by simpa using hlt), List.getElem_set_self,
    List.drop_set_of_lt (Nat.lt_succ_self i), drop_succ_of_drop_eq_cons hd]

/-- It ends the token that was open, whatever becomes of the buffer behind it. -/
theorem ended_of_take_eq {str s r : List Char} {c : Char} {i j : Nat} (hij : i < j) (hd : str.drop i = c :: s)
    (hr : r.take j = (str.set i NUL).take j) : r.take i = str.take i ∧ cstr r i = [] := by
  constructor
  · have := congrArg (List.take i) hr
    rw [List.take_take, List.take_take, Nat.min_eq_left (by omega)] at this
    rw [this, List.take_set_of_le (le_refl i)]
  · rw [← cstr_drop, drop_eq_cons_of_take_eq hij hr (drop_set_of_drop_eq_cons hd)]
    simp [cstr]

/-- One run of the loop from position `i`, where `s` is the buffer from `i` on: the part before
    `i` stays, and the C string at `i` and the tokens recorded from here on are the pieces
    of `s`, each up to its first NUL. -/
theorem tokenizeLoop_spec (sep : Char → Bool) {n : Nat} :
    ∀ (f i : Nat) (str : List Char) (tokens : List Nat) (s : List Char),
      str.drop i = s → i ≤ n → n - i ≤ s.length → n - i ≤ f →
      ∃ more, (tokenizeLoop sep n f i str tokens).2 = tokens ++ more ∧
        (tokenizeLoop sep n f i str tokens).1.take i = str.take i ∧
        (Cut.cutAt sep isBlank (n - i) false s).map (fun p => cstr p 0) =
          cstr (tokenizeLoop sep n f i str tokens).1 i ::
            more.map (cstr (tokenizeLoop sep n f i str tokens).1) := by
  intro f
  induction f with
  | zero =>
    intro i str tokens s hd hin hlen hf
    obtain rfl : i = n := by omega
    refine ⟨[], by simp [tokenizeLoop], by simp [tokenizeLoop], ?_⟩
    simp [tokenizeLoop, Cut.cutAt, ← cstr_drop str, hd]
  | succ f ih =>
    intro i str tokens s hd hin hlen hf
    by_cases hi : i < n
    · obtain ⟨c, s, rfl⟩ : ∃ c s', s = c :: s' := List.exists_cons_of_ne_nil (by
        rintro rfl; simp at hlen; omega)
      obtain ⟨k, hk⟩ : ∃ k, n - i = k + 1 := ⟨n - i - 1, by omega⟩
      have hget : str.getD i NUL = c := getD_of_drop_eq_cons hd
      have hdrop : str.drop (i + 1) = s := drop_succ_of_drop_eq_cons hd
      have hik : n - (i + 1) = k := by omega
      have hsl : n - (i + 1) ≤ s.length := by simp at hlen; omega
      cases hsep : sep c
      · -- no separator: the open token grows by `c`
        have hstep : tokenizeLoop sep n (f + 1) i str tokens = tokenizeLoop sep n f (i + 1) str tokens := by
          rw [tokenizeLoop, if_pos hi, hget, hsep]; simp
        obtain ⟨more, h₁, h₂, h₃⟩ := ih (i + 1) str tokens s hdrop hi hsl (by omega)
        rw [hstep]
        refine ⟨more, h₁, ?_, ?_⟩
        · have := congrArg (List.take i) h₂
          simpa [List.take_take] using this
        · have hr := drop_eq_cons_of_take_eq (Nat.lt_succ_self i) h₂ hd
          have hcstr : cstr (tokenizeLoop sep n f (i + 1) str tokens).1 i =
              if c = NUL then [] else c :: cstr (tokenizeLoop sep n f (i + 1) str tokens).1 (i + 1) := by
            rw [← cstr_drop, hr, cstr_cons, cstr_drop]
          rw [hik] at h₃
          have hne : Cut.cutAt sep isBlank k false s ≠ [] := Cut.cutAt_false_ne_nil k s
          obtain ⟨p, ps, hcut⟩ := List.exists_cons_of_ne_nil hne
          rw [hcut, List.map_cons] at h₃
          obtain ⟨hp, hps⟩ := List.cons.inj h₃
          have hpush : Cut.cutAt sep isBlank (k + 1) false (c :: s) = (c :: p) :: ps := by
            simp [Cut.cutAt, hsep, hcut, Cut.push]
          rw [hk, hpush, hcstr, List.map_cons, cstr_cons, hp, hps]
      · -- a separator: `i` becomes a NUL and the token that is open ends
        have hnul : (str.set i NUL).drop i = NUL :: s := drop_set_of_drop_eq_cons hd
        have hset : (str.set i NUL).drop (i + 1) = s := drop_succ_of_drop_eq_cons hnul
        have hset' : (str.set i NUL).drop (i + 1) = s ++ [] := by rw [hset, List.append_nil]
        obtain ⟨b₁, b₂, b₃⟩ := skipBlanks_spec sep n (i + 1) s [] hset' hi hsl (by omega)
        generalize hj : skipBlanks (str.set i NUL) n n (i + 1) = j at b₁ b₂ b₃
        have hjd : (str.set i NUL).drop j = s.drop (j - (i + 1)) := by
          have : (str.set i NUL).drop j = ((str.set i NUL).drop (i + 1)).drop (j - (i + 1)) := by
            rw [List.drop_drop]; congr 1; omega
          rw [this, hset]
        have hjl : n - j ≤ (s.drop (j - (i + 1))).length := by rw [List.length_drop]; omega
        have hij : i < j := b₁
        have hcut : Cut.cutAt sep isBlank (k + 1) false (c :: s) = [] :: Cut.cutAt sep isBlank k true s := by
          simp [Cut.cutAt, hsep]
        have hempty : cstr [] 0 = [] := rfl
        rw [hk, hcut, List.map_cons, hempty]
        rw [hik] at b₃
        by_cases hjn : j < n
        · have hstep : tokenizeLoop sep n (f + 1) i str tokens =
              tokenizeLoop sep n f j (str.set i NUL) (tokens ++ [j]) := by
            rw [tokenizeLoop, if_pos hi, hget, hsep]; simp [hj, hjn]
          obtain ⟨more, h₁, h₂, h₃⟩ :=
            ih j (str.set i NUL) (tokens ++ [j]) _ hjd b₂ hjl (by omega)
          rw [hstep]
          obtain ⟨t₁, t₂⟩ := ended_of_take_eq hij hd h₂
          refine ⟨j :: more, by simpa using h₁, t₁, ?_⟩
          rw [if_pos hjn] at b₃
          rw [b₃, h₃, t₂, List.map_cons]
        · have hstep : tokenizeLoop sep n (f + 1) i str tokens =
              tokenizeLoop sep n f j (str.set i NUL) tokens := by
            rw [tokenizeLoop, if_pos hi, hget, hsep]; simp [hj, hjn]
          obtain ⟨more, h₁, h₂, h₃⟩ :=
            ih j (str.set i NUL) tokens _ hjd b₂ hjl (by omega)
          have hnil : more = [] := by
            rw [show n - j = 0 by omega, Cut.cutAt] at h₃
            simpa using congrArg List.length h₃
          rw [hstep]
          obtain ⟨t₁, t₂⟩ := ended_of_take_eq hij hd h₂
          refine ⟨[], by rw [h₁, hnil], t₁, ?_⟩
          rw [if_neg hjn] at b₃
          rw [b₃, t₂]
          rfl
    · obtain rfl : i = n := by omega
      have hstep : tokenizeLoop sep i (f + 1) i str tokens = (str, tokens) := by
        rw [tokenizeLoop, if_neg hi]
      refine ⟨[], by simp [hstep], by simp [hstep], ?_⟩
      simp [hstep, Cut.cutAt, ← cstr_drop str, hd]

/-- **A tokenizer finds the pieces of the buffer**, each up to its first NUL. -/
theorem tokenize_buffer {sep : Char → Bool} {n : Nat} {buf : List Char} (hn : n ≤ buf.length) :
    tokenStrings (tokenizeLoop sep n n 0 buf [0]) =
      (Cut.cutAt sep isBlank n false buf).map fun p => cstr p 0 := by
  obtain ⟨more, h₁, -, h₃⟩ := tokenizeLoop_spec sep n 0 buf [0] buf rfl (Nat.zero_le n) (by simpa using hn)
    (by simp)
  rw [Nat.sub_zero] at h₃
  rw [h₃, tokenStrings, h₁]
  rfl

/-- What is behind the NUL of a string is in none of its pieces. -/
theorem cutAt_cstr {sep : Char → Bool} {tail : List Char} (ht : cstr tail 0 = []) : ∀ {n : Nat} {s : List Char}
    (skip : Bool), NUL ∉ s → n ≤ s.length →
      (Cut.cutAt sep isBlank n skip (s ++ tail)).map (fun p => cstr p 0) = Cut.cutAt sep isBlank n skip s
  | 0, s, skip, hs, _ => by cases skip <;> simp [Cut.cutAt, cstr_append_tail hs ht]
  | _ + 1, [], _, _, hn => by simp at hn
  | n + 1, c :: s, skip, hs, hn => by
    have hcs : NUL ∉ s := fun h => hs (List.mem_cons_of_mem c h)
    have hcn : c ≠ NUL := fun h => hs (by simp [h])
    have hlen : n ≤ s.length := by simpa using hn
    have hopen : (Cut.cutAt sep isBlank n false (s ++ tail)).map (fun p => cstr p 0) =
        Cut.cutAt sep isBlank n false s := cutAt_cstr ht false hcs hlen
    have hshut : (Cut.cutAt sep isBlank n true (s ++ tail)).map (fun p => cstr p 0) =
        Cut.cutAt sep isBlank n true s := cutAt_cstr ht true hcs hlen
    rw [List.cons_append, Cut.cutAt, Cut.cutAt]
    split
    · exact hshut
    · split
      · rw [List.map_cons, hshut]
        rfl
      · have hne : Cut.cutAt sep isBlank n false (s ++ tail) ≠ [] := Cut.cutAt_false_ne_nil n _
        obtain ⟨p, ps, hcut⟩ := List.exists_cons_of_ne_nil hne
        rw [hcut, List.map_cons] at hopen
        rw [hcut, ← hopen, Cut.push, Cut.push, List.map_cons, cstr_cons, if_neg hcn]

/-- **A tokenizer finds the pieces of the string**, whatever follows its NUL. -/
theorem tokenize_tokens {sep : Char → Bool} {n : Nat} {s tail : List Char} (hs : NUL ∉ s)
    (ht : cstr tail 0 = []) (hn : n ≤ s.length) :
    tokenStrings (tokenizeLoop sep n n 0 (s ++ tail) [0]) = Cut.cutAt sep isBlank n false s := by
  rw [tokenize_buffer (by rw [List.length_append]; omega), cutAt_cstr ht false hs hn]

theorem strTokenize_tokens {n : Nat} {s tail : List Char} (hs : NUL ∉ s) (ht : cstr tail 0 = [])
    (hn : n ≤ s.length) :
    tokenStrings (strTokenize (s ++ tail) n) = Cut.cutAt isWordSep isBlank n false s :=
  tokenize_tokens hs ht hn

theorem bblineTokenize_tokens {n : Nat} {s tail : List Char} (hs : NUL ∉ s) (ht : cstr tail 0 = [])
    (hn : n ≤ s.length) :
    tokenStrings (bblineTokenize (s ++ tail) n) = Cut.cutAt isSlash isBlank n false s :=
  tokenize_tokens hs ht hn

/-! A buffer that ends before the limit reads as NULs behind its end. -/

section
variable {sep : Char → Bool} {n k : Nat}

theorem getD_pad (str : List Char) (i : Nat) : (str ++ List.replicate k NUL).getD i NUL = str.getD i NUL := by
  by_cases hi : i < str.length
  · rw [List.getD_append _ _ _ _ hi]
  · rw [List.getD_append_right _ _ _ _ (by omega), List.getD_eq_default _ _ (by omega : str.length ≤ i)]
    by_cases hk : i - str.length < k
    · rw [List.getD_replicate _ hk]
    · rw [List.getD_eq_default _ _ (by simp; omega)]

theorem skipBlanks_pad (str : List Char) : ∀ f i, skipBlanks (str ++ List.replicate k NUL) n f i = skipBlanks str n f i
  | 0, _ => rfl
  | f + 1, i => by rw [skipBlanks, skipBlanks, getD_pad, skipBlanks_pad str f (i + 1)]

theorem tokenizeLoop_pad (hsep : sep NUL = false) : ∀ (f i : Nat) (str : List Char) (tokens : List Nat),
    tokenizeLoop sep n f i (str ++ List.replicate k NUL) tokens =
      ((tokenizeLoop sep n f i str tokens).1 ++ List.replicate k NUL, (tokenizeLoop sep n f i str tokens).2)
  | 0, _, _, _ => rfl
  | f + 1, i, str, tokens => by
    rw [tokenizeLoop, tokenizeLoop, getD_pad]
    split
    · split
      · next hs =>
        -- only a character of the buffer is a separator
        have hi : i < str.length := by
          by_contra hi
          rw [List.getD_eq_default _ _ (by omega), hsep] at hs
          cases hs
        have hset : (str ++ List.replicate k NUL).set i NUL = str.set i NUL ++ List.replicate k NUL :=
          List.set_append_left i NUL hi
        dsimp only
        rw [hset, skipBlanks_pad]
        split
        · exact tokenizeLoop_pad hsep f _ _ _
        · exact tokenizeLoop_pad hsep f _ _ _
      · exact tokenizeLoop_pad hsep f _ _ _
    · rfl

theorem cstr_replicate (k : Nat) : cstr (List.replicate k NUL) 0 = [] := by
  cases k with
  | zero => rfl
  | succ k => rw [List.replicate_succ, cstr_cons, if_pos rfl]

theorem cstr_pad (str : List Char) (i : Nat) : cstr (str ++ List.replicate k NUL) i = cstr str i := by
  have happend : ∀ s : List Char, cstr (s ++ List.replicate k NUL) 0 = cstr s 0 := by
    intro s
    induction s with
    | nil => exact cstr_replicate k
    | cons c s ih => rw [List.cons_append, cstr_cons, cstr_cons, ih]
  by_cases hi : i ≤ str.length
  · rw [← cstr_drop, List.drop_append_of_le_length hi, happend, cstr_drop]
  · have hnil : str.drop i = [] := List.drop_eq_nil_of_le (by omega)
    rw [← cstr_drop, ← cstr_drop str, List.drop_append, hnil, List.nil_append, List.drop_replicate, cstr_replicate]
    rfl

theorem tokenize_pad (hsep : sep NUL = false) (buf : List Char) :
    tokenStrings (tokenizeLoop sep n n 0 (buf ++ List.replicate k NUL) [0]) =
      tokenStrings (tokenizeLoop sep n n 0 buf [0]) := by
  rw [tokenizeLoop_pad hsep, tokenStrings, tokenStrings]
  exact List.map_congr_left fun i _ => cstr_pad _ i

end

end BulletinBoard
