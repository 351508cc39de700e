import BulletinBoard.Tokenize
import BulletinBoard.Lib.Pieces

/- tokenize.cc against a reference: what the two tokenizers record, as texts and as offsets, for every
   string and every limit inside it. Offsets only grow, as a token is recorded behind the separator
   that was cut at, and a limit bounds them. -/
namespace BulletinBoard

theorem le_skipBlanks (str : List Char) (n : Nat) : ∀ f i, i ≤ skipBlanks str n f i
  | 0, i => le_refl i
  | f + 1, i => by
    rw [skipBlanks]
    split
    · exact Nat.le_of_succ_le (le_skipBlanks str n f (i + 1))
    · exact le_refl i

/-- What the loop records from position `i` on: offsets behind `i` and below `n`, growing. -/
theorem tokenizeLoop_offsets (sep : Char → Bool) (n : Nat) : ∀ (f i : Nat) (str : List Char) (tokens : List Nat),
    ∃ more, (tokenizeLoop sep n f i str tokens).2 = tokens ++ more ∧ more.Pairwise (· < ·) ∧
      ∀ j ∈ more, i < j ∧ j < n
  | 0, i, str, tokens => ⟨[], by simp [tokenizeLoop], .nil, by simp⟩
  | f + 1, i, str, tokens => by
    rw [tokenizeLoop]
    split
    · split
      · -- a separator: the next token starts behind the blanks that follow it
        have hskip := le_skipBlanks (str.set i NUL) n n (i + 1)
        dsimp only
        generalize skipBlanks (str.set i NUL) n n (i + 1) = j at hskip ⊢
        split
        · next hj =>
          obtain ⟨more, h₁, h₂, h₃⟩ := tokenizeLoop_offsets sep n f j (str.set i NUL) (tokens ++ [j])
          refine ⟨j :: more, by simp [h₁], List.pairwise_cons.2 ⟨fun k hk => (h₃ k hk).1, h₂⟩, ?_⟩
          intro k hk
          rcases List.mem_cons.1 hk with rfl | hk
          · exact ⟨hskip, hj⟩
          · have := h₃ k hk
            exact ⟨by omega, this.2⟩
        · obtain ⟨more, h₁, h₂, h₃⟩ := tokenizeLoop_offsets sep n f j (str.set i NUL) tokens
          refine ⟨more, h₁, h₂, fun k hk => ?_⟩
          have := h₃ k hk
          exact ⟨by omega, this.2⟩
      · obtain ⟨more, h₁, h₂, h₃⟩ := tokenizeLoop_offsets sep n f (i + 1) str tokens
        refine ⟨more, h₁, h₂, fun k hk => ?_⟩
        have := h₃ k hk
        exact ⟨by omega, this.2⟩
    · exact ⟨[], by simp, .nil, by simp⟩

/-- What a run with limit `n` has recorded: these texts, at offsets that grow, all but the first below
    `n`. -/
structure Records (r : List Char × List Nat) (n : Nat) (texts : List CStr) : Prop where
  tokens : tokenStrings r = texts
  increasing : r.2.Pairwise (· < ·)
  below : ∀ j ∈ r.2.tail, j < n
  count : r.2.length ≤ max 1 n

theorem tokenizeLoop_records {sep : Char → Bool} {n : Nat} {s rest : List Char} (hs : NUL ∉ s) (hn : n ≤ s.length) :
    Records (tokenizeLoop sep n n 0 (s ++ NUL :: rest) [0]) n (Cut.reference sep isBlank n s) := by
  obtain ⟨more, hmore, hgrow, hbound⟩ := tokenizeLoop_offsets sep n n 0 (s ++ NUL :: rest) [0]
  refine ⟨?_, ?_, ?_, ?_⟩
  · rw [tokenize_tokens hs (by simp [cstr]) hn]
    exact (Cut.cutAt_eq_reference n s hn).1
  · rw [hmore]
    exact List.pairwise_cons.2 ⟨fun j hj => (hbound j hj).1, hgrow⟩
  · rw [hmore]
    exact fun j hj => (hbound j hj).2
  · -- the offsets behind the first are different numbers from 1 to n - 1
    have hnodup : more.Nodup := hgrow.imp fun h => Nat.ne_of_lt h
    have hsub : more ⊆ List.range' 1 (n - 1) := by
      intro j hj
      have := hbound j hj
      rw [List.mem_range'_1]
      omega
    have hlen := (hnodup.subperm hsub).length_le
    rw [List.length_range'] at hlen
    rw [hmore, List.length_append, List.length_singleton]
    omega

/-- **Both tokenizers record what the reference gives.** -/
theorem tokenizers_reference {n : Nat} {s : CStr} (hs : NUL ∉ s) (hn : n ≤ s.length) (rest : List Char) :
    Records (strTokenize (s ++ NUL :: rest) n) n (Cut.reference isWordSep isBlank n s) ∧
      Records (bblineTokenize (s ++ NUL :: rest) n) n (Cut.reference isSlash isBlank n s) :=
  ⟨tokenizeLoop_records hs hn, tokenizeLoop_records hs hn⟩

/-- A limit inside the string. -/
theorem tokenizers_reference_limit : NUL ∉ "a/ b/c".toList ∧ 4 ≤ "a/ b/c".toList.length ∧
    tokenStrings (bblineTokenize "a/ b/c\x00".toList 4) = ["a".toList, "b/c".toList] := by
  have hs : NUL ∉ "a/ b/c".toList := by decide
  have hn : 4 ≤ "a/ b/c".toList.length := by decide
  refine ⟨hs, hn, ?_⟩
  have htokens := (tokenizers_reference hs hn []).2.tokens
  rw [← (Cut.cutAt_eq_reference 4 "a/ b/c".toList hn).1] at htokens
  exact htokens

end BulletinBoard
