import BulletinBoard.Lib.Chain

/- A reader that walks along a chain while nodes are put behind its last one and taken out of it. A
   node that is taken out keeps its link: a reader that stands on it comes back to the chain,
   to the nodes that it has not met, unless there were none. Then it is lost to what is put
   last afterwards. -/
namespace Chain

variable {α : Type*} {next : α → Option α} {q : Option α} {as before behind pre b₁ b₂ ch : List α}
  {a x n : α} {lost : Prop}

/-- The reader has met the nodes `before` and none of `behind`. It meets the nodes `pre` first, which
    are in the chain no more, or stands on the last one that it has met. -/
inductive Stands (next : α → Option α) (before behind : List α) (lost : Prop) : Option α → List α → Prop where
  | passed {q : Option α} {pre : List α} : Linked next q (pre ++ behind) → pre.Nodup →
      (∀ y ∈ pre, y ∉ before ++ behind) → Stands next before behind lost q pre
  | on {q : Option α} {a : α} : Linked next q (a :: behind) → before.getLast? = some a →
      Stands next before behind lost q [a]
  | lost {q : Option α} {pre : List α} : lost → Linked next q pre → pre.Nodup →
      (∀ y ∈ pre, y ∉ before ++ behind) → Stands next before behind lost q pre

theorem Stands.start (h : Linked next q as) : Stands next [] as lost q [] := .passed h List.nodup_nil (by simp)

/-- At a node the reader meets it for the first time, or it is one of `pre`. -/
theorem Stands.meet (h : Stands next before behind lost (some a) pre) : (∃ pre', pre = a :: pre') ∨
    (pre = [] ∧ ∃ behind', behind = a :: behind' ∧ Stands next (before ++ [a]) behind' lost (some a) [a]) := by
  cases h with
  | passed hl _ _ =>
    cases pre with
    | cons y pre =>
      obtain rfl := Option.some.inj hl.start
      exact .inl ⟨pre, rfl⟩
    | nil =>
      cases behind with
      | nil => cases hl
      | cons y behind =>
        obtain rfl := Option.some.inj hl.start
        exact .inr ⟨rfl, behind, rfl, .on hl (by simp)⟩
  | on hl _ =>
    obtain rfl := Option.some.inj hl.start
    exact .inl ⟨[], rfl⟩
  | lost _ hl _ _ =>
    cases hl with
    | cons => exact .inl ⟨_, rfl⟩

/-- The reader moves on. -/
theorem Stands.move (h : Stands next before behind lost (some a) (a :: pre)) :
    Stands next before behind lost (next a) pre := by
  cases h with
  | passed hl hn ho =>
    cases hl with
    | cons hl => exact .passed hl hn.of_cons fun y hy => ho y (List.mem_cons_of_mem a hy)
  | on hl _ =>
    cases hl with
    | cons hl => exact .passed hl List.nodup_nil (by simp)
  | lost h hl hn ho =>
    cases hl with
    | cons hl => exact .lost h hl hn.of_cons fun y hy => ho y (List.mem_cons_of_mem a hy)

/-- At a null link it has met everything, or is lost. -/
theorem Stands.at_null (h : Stands next before behind lost none pre) : pre = [] ∧ (behind = [] ∨ lost) := by
  cases h with
  | passed hl _ _ =>
    have hnil := List.append_eq_nil_iff.1 (List.head?_eq_none_iff.1 hl.start.symm)
    exact ⟨hnil.1, .inl hnil.2⟩
  | on hl _ => cases hl
  | lost h hl _ _ => exact ⟨List.head?_eq_none_iff.1 hl.start.symm, .inr h⟩

theorem not_mem_of_nodup_append {c : α} {cs : List α} (hd : (as ++ cs).Nodup) (hc : c ∈ as) : c ∉ cs :=
  fun hm => (List.nodup_append.1 hd).2.2 c hc c hm rfl

/-! Nodes put last. -/

variable [DecidableEq α]

/-- The links after a node is put behind `as`. -/
def putLast (next : α → Option α) (as : List α) (n : α) : α → Option α :=
  as.getLast?.elim (Function.update next n none) fun c => Function.update (Function.update next n none) c (some n)

theorem Linked.putLast_off (h : Linked next q ch) (hn : n ∉ ch) (hlast : ∀ c, as.getLast? = some c → c ∉ ch) :
    Linked (putLast next as n) q ch := by
  have hne : ∀ b ∈ ch, Function.update next n none b = next b := by
    intro b hb
    apply Function.update_of_ne
    rintro rfl
    exact hn hb
  rw [putLast]
  cases hc : as.getLast? with
  | none => exact h.congr hne
  | some c =>
    refine h.congr fun b hb => ?_
    have hbc : b ≠ c := by
      rintro rfl
      exact hlast b hc hb
    rw [Option.elim_some, Function.update_of_ne hbc, hne b hb]

theorem Linked.putLast_on {c : α} (h : Linked next q (ch ++ [c])) (hc : c ∉ ch) (hn : n ∉ ch ++ [c])
    (hlast : as.getLast? = some c) : Linked (putLast next as n) q (ch ++ [c] ++ [n]) := by
  have hne : c ≠ n := by
    rintro rfl
    exact hn (by simp)
  have hold : Linked (Function.update next n none) q (ch ++ [c]) := by
    refine h.congr fun b hb => ?_
    apply Function.update_of_ne
    rintro rfl
    exact hn hb
  have hnew : Linked (Function.update next n none) (some n) [n] := .cons (by rw [Function.update_self]; exact .nil)
  rw [putLast, hlast, Option.elim_some, List.append_assoc]
  exact hold.relink hc hnew (by simpa using hne)

/-- A reader that has met everything, and stands on none of it, is lost. -/
theorem Stands.putLast {lost' : Prop} (hlost : lost') (h : Stands next before behind lost q pre)
    (hd : (before ++ behind).Nodup) (hn : n ∉ before ++ behind) (hpre : n ∉ pre) :
    Stands (putLast next (before ++ behind) n) before (behind ++ [n]) lost' q pre := by
  have hmem : ∀ c, (before ++ behind).getLast? = some c → c ∈ before ++ behind := fun c hc => List.mem_of_getLast? hc
  have hother : (∀ y ∈ pre, y ∉ before ++ behind) → ∀ y ∈ pre, y ∉ before ++ (behind ++ [n]) := by
    intro ho y hy hm
    rw [← List.append_assoc] at hm
    rcases List.mem_append.1 hm with hm | hm
    · exact ho y hy hm
    · exact hpre (List.mem_singleton.1 hm ▸ hy)
  cases h with
  | passed hl hnd ho =>
    rcases List.eq_nil_or_concat' behind with rfl | ⟨bs, c, rfl⟩
    · rw [List.append_nil] at hl
      exact .lost hlost (hl.putLast_off hpre fun c hc hm => ho c hm (hmem c hc)) hnd (hother ho)
    · have hlast : (before ++ (bs ++ [c])).getLast? = some c := by rw [← List.append_assoc, List.getLast?_concat]
      have hc : c ∉ pre ++ bs := by
        intro hm
        rcases List.mem_append.1 hm with hm | hm
        · exact ho c hm (by simp)
        · rw [← List.append_assoc] at hd
          exact not_mem_of_nodup_append hd (List.mem_append_right _ hm) (List.mem_singleton_self c)
      have hn' : n ∉ (pre ++ bs) ++ [c] := by
        intro hm
        rw [List.append_assoc] at hm
        rcases List.mem_append.1 hm with hm | hm
        · exact hpre hm
        · exact hn (List.mem_append_right _ hm)
      rw [← List.append_assoc] at hl
      have hl := hl.putLast_on hc hn' hlast
      rw [List.append_assoc pre, List.append_assoc pre] at hl
      exact .passed hl hnd (hother ho)
  | @on a hl hlast =>
    have ha : a ∈ before := List.mem_of_getLast? hlast
    rcases List.eq_nil_or_concat' behind with rfl | ⟨bs, c, rfl⟩
    · have hl' : Linked next q ([] ++ [a]) := hl
      have hlast' : (before ++ []).getLast? = some a := by rw [List.append_nil, hlast]
      have hl' := hl'.putLast_on List.not_mem_nil hpre hlast'
      exact .on hl' hlast
    · have hlast' : (before ++ (bs ++ [c])).getLast? = some c := by rw [← List.append_assoc, List.getLast?_concat]
      have hc : c ∉ a :: bs := by
        rw [← List.append_assoc] at hd
        intro hm
        refine not_mem_of_nodup_append hd ?_ (List.mem_singleton_self c)
        rcases List.mem_cons.1 hm with rfl | hm
        · exact List.mem_append_left _ ha
        · exact List.mem_append_right _ hm
      have hn' : n ∉ (a :: bs) ++ [c] := by
        intro hm
        rw [List.cons_append] at hm
        rcases List.mem_cons.1 hm with rfl | hm
        · exact hpre (by simp)
        · exact hn (List.mem_append_right _ hm)
      have hl' : Linked next q ((a :: bs) ++ [c]) := hl
      exact .on (hl'.putLast_on hc hn' hlast') hlast
  | lost _ hl hnd ho => exact .lost hlost (hl.putLast_off hpre fun c hc hm => ho c hm (hmem c hc)) hnd (hother ho)

/-! Nodes taken out. -/

/-- The links after the node behind `as` is taken out. -/
def takeOut (next : α → Option α) (as : List α) (x : α) : α → Option α :=
  as.getLast?.elim next fun c => Function.update next c (next x)

theorem Linked.takeOut_off (h : Linked next q ch) (hlast : ∀ c, as.getLast? = some c → c ∉ ch) :
    Linked (takeOut next as x) q ch := by
  rw [takeOut]
  cases hc : as.getLast? with
  | none => exact h
  | some c =>
    refine h.congr fun b hb => ?_
    apply Function.update_of_ne
    rintro rfl
    exact hlast b hc hb

theorem Linked.takeOut_on {c : α} (h : Linked next q (b₁ ++ c :: x :: b₂)) (hc : c ∉ b₁) (hc' : c ∉ b₂)
    (hlast : as.getLast? = some c) : Linked (takeOut next as x) q (b₁ ++ c :: b₂) := by
  have hbehind : Linked next (next x) b₂ := by
    rw [List.append_cons] at h
    exact h.behind
  rw [takeOut, hlast, Option.elim_some]
  exact h.relink hc hbehind hc'

/-- A node that the reader has met. -/
theorem Stands.takeOut_before (h : Stands next (b₁ ++ x :: b₂) behind lost q pre)
    (hd : ((b₁ ++ x :: b₂) ++ behind).Nodup) : Stands (takeOut next b₁ x) (b₁ ++ b₂) behind lost q pre := by
  have hin : ∀ c, b₁.getLast? = some c → c ∈ b₁ ++ x :: b₂ := fun c hc => List.mem_append_left _ (List.mem_of_getLast? hc)
  have hsub : ((b₁ ++ b₂) ++ behind).Sublist ((b₁ ++ x :: b₂) ++ behind) :=
    ((List.sublist_cons_self x b₂).append_left b₁).append_right behind
  have hoff : (∀ y ∈ pre, y ∉ (b₁ ++ x :: b₂) ++ behind) → ∀ c, b₁.getLast? = some c → c ∉ pre :=
    fun ho c hc hm => ho c hm (List.mem_append_left _ (hin c hc))
  cases h with
  | passed hl hnd ho =>
    refine .passed (hl.takeOut_off fun c hc hm => ?_) hnd fun y hy hm => ho y hy (hsub.subset hm)
    rcases List.mem_append.1 hm with hm | hm
    · exact hoff ho c hc hm
    · exact not_mem_of_nodup_append hd (hin c hc) hm
  | @on a hl hlast =>
    have hbefore : (b₁ ++ x :: b₂).Nodup := hd.of_append_left
    -- the node before the one taken out is not the last that was met
    have hac : ∀ c, b₁.getLast? = some c → c ≠ a := by
      rintro c hc rfl
      have hm : c ∈ x :: b₂ := by
        rw [List.getLast?_append_of_ne_nil _ (List.cons_ne_nil x b₂)] at hlast
        exact List.mem_of_getLast? hlast
      exact not_mem_of_nodup_append hbefore (List.mem_of_getLast? hc) hm
    have hl : Linked (takeOut next b₁ x) q (a :: behind) := hl.takeOut_off fun c hc hm => by
      rcases List.mem_cons.1 hm with rfl | hm
      · exact hac c hc rfl
      · exact not_mem_of_nodup_append hd (hin c hc) hm
    cases b₂ with
    | nil =>
      obtain rfl : x = a := by simpa using hlast
      refine @Stands.passed _ _ _ _ _ _ [x] hl (List.nodup_singleton x) fun y hy hm => ?_
      obtain rfl := List.mem_singleton.1 hy
      rw [List.append_nil] at hm
      rcases List.mem_append.1 hm with hm | hm
      · exact not_mem_of_nodup_append hbefore hm (List.mem_singleton_self y)
      · exact not_mem_of_nodup_append hd (by simp) hm
    | cons z b₂ =>
      refine .on hl ?_
      rw [List.getLast?_append_of_ne_nil _ (by simp), List.getLast?_cons_cons] at hlast
      rw [List.getLast?_append_of_ne_nil _ (by simp)]
      exact hlast
  | lost h hl hnd ho =>
    exact .lost h (hl.takeOut_off (hoff ho)) hnd fun y hy hm => ho y hy (hsub.subset hm)

/-- A node that it has not met: it does not meet it any more, or meets it when it is no longer in the
    chain. -/
theorem Stands.takeOut_behind (h : Stands next before (b₁ ++ x :: b₂) lost q pre)
    (hd : (before ++ (b₁ ++ x :: b₂)).Nodup) : ∃ pre', (pre' = pre ∨ pre' = pre ++ [x]) ∧
      Stands (takeOut next (before ++ b₁) x) before (b₁ ++ b₂) lost q pre' := by
  have hin : ∀ c, (before ++ b₁).getLast? = some c → c ∈ before ++ (b₁ ++ x :: b₂) := by
    intro c hc
    rw [← List.append_assoc]
    exact List.mem_append_left _ (List.mem_of_getLast? hc)
  have hsub : (before ++ (b₁ ++ b₂)).Sublist (before ++ (b₁ ++ x :: b₂)) :=
    ((List.sublist_cons_self x b₂).append_left b₁).append_left before
  have hx : x ∉ before ++ (b₁ ++ b₂) := by
    intro hm
    rw [← List.append_assoc] at hd hm
    rcases List.mem_append.1 hm with hm | hm
    · exact not_mem_of_nodup_append hd hm List.mem_cons_self
    · exact (List.nodup_cons.1 hd.of_append_right).1 hm
  cases h with
  | passed hl hnd ho =>
    have hother : ∀ y ∈ pre, y ∉ before ++ (b₁ ++ b₂) := fun y hy hm => ho y hy (hsub.subset hm)
    rcases List.eq_nil_or_concat' b₁ with rfl | ⟨b₁, c, rfl⟩
    · -- the next one that it would have met
      refine ⟨pre ++ [x], .inr rfl, .passed ?_ ?_ ?_⟩
      · rw [List.append_assoc]
        refine Linked.takeOut_off hl fun c hc hm => ?_
        rw [List.append_nil] at hc
        rcases List.mem_append.1 hm with hm | hm
        · exact ho c hm (List.mem_append_left _ (List.mem_of_getLast? hc))
        · exact not_mem_of_nodup_append hd (List.mem_of_getLast? hc) hm
      · rw [List.nodup_append]
        refine ⟨hnd, List.nodup_singleton x, fun y hy z hz he => ?_⟩
        obtain rfl := List.mem_singleton.1 hz
        exact ho y hy (by simp [he])
      · intro y hy
        rcases List.mem_append.1 hy with hy | hy
        · exact hother y hy
        · exact List.mem_singleton.1 hy ▸ hx
    · refine ⟨pre, .inl rfl, .passed ?_ hnd hother⟩
      have hlast : (before ++ (b₁ ++ [c])).getLast? = some c := by rw [← List.append_assoc, List.getLast?_concat]
      have hc : c ∉ pre ++ b₁ := by
        intro hm
        rcases List.mem_append.1 hm with hm | hm
        · exact ho c hm (by simp)
        · exact not_mem_of_nodup_append hd.of_append_right.of_append_left hm (List.mem_singleton_self c)
      have hc' : c ∉ b₂ := fun hm =>
        not_mem_of_nodup_append hd.of_append_right (by simp : c ∈ b₁ ++ [c]) (List.mem_cons_of_mem x hm)
      have hl : Linked next q ((pre ++ b₁) ++ c :: x :: b₂) := by simpa using hl
      have hl := hl.takeOut_on hc hc' hlast
      simpa using hl
  | @on a hl hlast =>
    have ha : a ∈ before := List.mem_of_getLast? hlast
    refine ⟨[a], .inl rfl, .on ?_ hlast⟩
    rcases List.eq_nil_or_concat' b₁ with rfl | ⟨b₁, c, rfl⟩
    · have ha' : a ∉ b₂ := fun hm => not_mem_of_nodup_append hd ha (by simp [hm])
      have hl' : Linked next q ([] ++ a :: x :: b₂) := hl
      exact hl'.takeOut_on List.not_mem_nil ha' (by rw [List.append_nil]; exact hlast)
    · have hlast' : (before ++ (b₁ ++ [c])).getLast? = some c := by rw [← List.append_assoc, List.getLast?_concat]
      have hc : c ∉ a :: b₁ := by
        intro hm
        rcases List.mem_cons.1 hm with rfl | hm
        · exact not_mem_of_nodup_append hd ha (by simp)
        · exact not_mem_of_nodup_append hd.of_append_right.of_append_left hm (List.mem_singleton_self c)
      have hc' : c ∉ b₂ := fun hm =>
        not_mem_of_nodup_append hd.of_append_right (by simp : c ∈ b₁ ++ [c]) (List.mem_cons_of_mem x hm)
      have hl : Linked next q ((a :: b₁) ++ c :: x :: b₂) := by simpa using hl
      have hl := hl.takeOut_on hc hc' hlast'
      simpa using hl
  | lost h hl hnd ho =>
    refine ⟨pre, .inl rfl, .lost h (hl.takeOut_off fun c hc hm => ho c hm (hin c hc)) hnd ?_⟩
    exact fun y hy hm => ho y hy (hsub.subset hm)

end Chain
