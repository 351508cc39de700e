import BulletinBoard.Scan

/- Well-formed bbfiles. A board is a list of deleted and live lines in which no two
   live lines have the same id; its bytes are a well-formed bbfile, and reading it by
   id is a finite map. Erasing and appending a line are operations on boards, so that
   what they make is a board again. -/
namespace BulletinBoard

/-- The arguments that make a live line. -/
structure MakesLine (id user message : CStr) : Prop where
  id_numeral : IsNumeral id
  user_no_slash : '/' ∉ user
  message_text : ∃ c ∈ message, isBlank c = false
  no_nul : NUL ∉ user ++ message
  no_newline : '\n' ∉ user ++ message
  length_lt : (mkLine id user message).length < MAX_LEN

structure LiveLine where
  id : CStr
  user : CStr
  message : CStr
  ok : MakesLine id user message

def LiveLine.text (l : LiveLine) : CStr := mkLine l.id l.user l.message

inductive BoardLine where
  | deleted (n : Nat) (pos : 0 < n) (lt : n < MAX_LEN)
  | live (l : LiveLine)

def BoardLine.text : BoardLine → CStr
  | .deleted n _ _ => deletedLine n
  | .live l => l.text

def BoardLine.live? : BoardLine → Option LiveLine
  | .deleted _ _ _ => none
  | .live l => some l

/-- The live lines, in file order. -/
def liveLines (ls : List BoardLine) : List LiveLine := ls.filterMap BoardLine.live?

def liveIds (ls : List BoardLine) : List CStr := (liveLines ls).map LiveLine.id

structure Board where
  lines : List BoardLine
  distinct : (liveIds lines).Nodup

namespace Board

def texts (b : Board) : List CStr := b.lines.map BoardLine.text

def bytes (b : Board) : List Char := fileOf b.texts

end Board

/-! Lines of a board. -/

theorem MakesLine.clean {id user message : CStr} (h : MakesLine id user message) :
    Clean (mkLine id user message) := by
  have hid : ∀ c ∈ id, c.isDigit = true := h.id_numeral.2
  have hn := h.no_newline
  have hz := h.no_nul
  simp only [List.mem_append, not_or] at hn hz
  refine ⟨?_, ?_, Nat.lt_trans h.length_lt (by decide)⟩
  · simp only [mkLine, List.mem_append, List.mem_cons, not_or]
    exact ⟨⟨fun hm => digit_ne (hid _ hm) (by decide) rfl, by decide, hn.1⟩, by decide, hn.2⟩
  · simp only [mkLine, List.mem_append, List.mem_cons, not_or]
    exact ⟨⟨fun hm => digit_ne (hid _ hm) (by decide) rfl, by decide, hz.1⟩, by decide, hz.2⟩

theorem MakesLine.firstField {id user message : CStr} (h : MakesLine id user message) :
    firstField (mkLine id user message) = id :=
  firstField_mkLine (isNumeral_no_slash h.id_numeral)

theorem LiveLine.text_pos (l : LiveLine) : 0 < l.text.length := by
  simp [LiveLine.text, mkLine]

theorem LiveLine.text_lt (l : LiveLine) : l.text.length < MAX_LEN := l.ok.length_lt

theorem BoardLine.clean (x : BoardLine) : Clean x.text := by
  cases x with
  | deleted n pos lt => exact clean_deletedLine (Nat.lt_trans lt (by decide))
  | live l => exact l.ok.clean

/-- Lines none of which is live with this id. -/
theorem without_of_not_mem {id : CStr} (hid : IsNumeral id) {ls : List BoardLine}
    (h : id ∉ liveIds ls) : Without id (ls.map BoardLine.text) := by
  refine ⟨?_, ?_⟩
  · intro l hl
    obtain ⟨x, -, rfl⟩ := List.mem_map.1 hl
    exact x.clean
  · intro l hl
    obtain ⟨x, hx, rfl⟩ := List.mem_map.1 hl
    cases x with
    | deleted n pos lt => exact firstField_deleted_ne hid n
    | live l =>
      intro he
      exact h (List.mem_map.2 ⟨l, List.mem_filterMap.2 ⟨.live l, hx, rfl⟩, l.ok.firstField.symm.trans he⟩)

theorem lineOf_texts_none {id : CStr} (hid : IsNumeral id) {ls : List BoardLine} (h : id ∉ liveIds ls) :
    lineOf id (ls.map BoardLine.text) = none :=
  lineOf_eq_none.2 (without_of_not_mem hid h).other

/-! Erasing and appending. -/

/-- A live line with the id becomes a deleted line of its length. -/
def eraseLine (id : CStr) : BoardLine → BoardLine
  | .deleted n pos lt => .deleted n pos lt
  | .live l => if l.id = id then .deleted l.text.length l.text_pos l.text_lt else .live l

@[simp] theorem liveLines_nil : liveLines [] = [] := rfl

@[simp] theorem liveLines_append (a b : List BoardLine) :
    liveLines (a ++ b) = liveLines a ++ liveLines b :=
  List.filterMap_append

@[simp] theorem liveLines_live (l : LiveLine) (ls : List BoardLine) :
    liveLines (.live l :: ls) = l :: liveLines ls := rfl

@[simp] theorem liveLines_deleted (n : Nat) (pos : 0 < n) (lt : n < MAX_LEN) (ls : List BoardLine) :
    liveLines (.deleted n pos lt :: ls) = liveLines ls := rfl

@[simp] theorem liveIds_nil : liveIds [] = [] := rfl

@[simp] theorem liveIds_append (a b : List BoardLine) : liveIds (a ++ b) = liveIds a ++ liveIds b := by
  simp [liveIds]

@[simp] theorem liveIds_live (l : LiveLine) (ls : List BoardLine) :
    liveIds (.live l :: ls) = l.id :: liveIds ls := rfl

@[simp] theorem liveIds_deleted (n : Nat) (pos : 0 < n) (lt : n < MAX_LEN) (ls : List BoardLine) :
    liveIds (.deleted n pos lt :: ls) = liveIds ls := rfl

theorem liveLines_erase (id : CStr) (ls : List BoardLine) :
    liveLines (ls.map (eraseLine id)) = (liveLines ls).filter (fun l => l.id ≠ id) := by
  induction ls with
  | nil => rfl
  | cons x ls ih =>
    cases x with
    | deleted n pos lt => simpa [eraseLine] using ih
    | live l =>
      by_cases h : l.id = id
      · simpa [eraseLine, h] using ih
      · simpa [eraseLine, h] using ih

theorem liveIds_erase (id : CStr) (ls : List BoardLine) :
    liveIds (ls.map (eraseLine id)) = (liveIds ls).filter (· ≠ id) := by
  rw [liveIds, liveLines_erase, liveIds, List.filter_map]
  rfl

theorem eraseLine_of_not_mem {id : CStr} {ls : List BoardLine} (h : id ∉ liveIds ls) :
    ls.map (eraseLine id) = ls := by
  induction ls with
  | nil => rfl
  | cons x ls ih =>
    cases x with
    | deleted n pos lt =>
      simp only [liveIds_deleted] at h
      simp [eraseLine, ih h]
    | live l =>
      simp only [liveIds_live, List.mem_cons, not_or] at h
      simp [eraseLine, ih h.2, Ne.symm h.1]

/-- The one live line with the id, and what stands around it. -/
theorem split_of_mem {id : CStr} {ls : List BoardLine} (hd : (liveIds ls).Nodup) (h : id ∈ liveIds ls) :
    ∃ a l c, ls = a ++ .live l :: c ∧ l.id = id ∧ id ∉ liveIds a ∧ id ∉ liveIds c := by
  induction ls with
  | nil => simp at h
  | cons x ls ih =>
    cases x with
    | deleted n pos lt =>
      simp only [liveIds_deleted] at h hd
      obtain ⟨a, l, c, rfl, hid, ha, hc⟩ := ih hd h
      exact ⟨.deleted n pos lt :: a, l, c, rfl, hid, by simpa using ha, hc⟩
    | live l =>
      simp only [liveIds_live, List.nodup_cons] at hd
      by_cases hl : l.id = id
      · exact ⟨[], l, ls, rfl, hl, by simp, hl ▸ hd.1⟩
      · have h' : id ∈ liveIds ls := by
          simp only [liveIds_live, List.mem_cons] at h
          exact h.resolve_left (Ne.symm hl)
        obtain ⟨a, l', c, rfl, hid, ha, hc⟩ := ih hd.2 h'
        refine ⟨.live l :: a, l', c, rfl, hid, ?_, hc⟩
        simp only [liveIds_live, List.mem_cons, not_or]
        exact ⟨Ne.symm hl, ha⟩

namespace Board

def erase (b : Board) (id : CStr) : Board where
  lines := b.lines.map (eraseLine id)
  distinct := by rw [liveIds_erase]; exact b.distinct.filter _

def append (b : Board) (l : LiveLine) (h : l.id ∉ liveIds b.lines) : Board where
  lines := b.lines ++ [.live l]
  distinct := by
    rw [liveIds_append, List.nodup_append]
    refine ⟨b.distinct, by simp, ?_⟩
    intro x hx y hy
    obtain rfl : y = l.id := by simpa using hy
    rintro rfl
    exact h hx

/-- The finite map from ids to users and messages that the board stands for. -/
def toMap (b : Board) (id : CStr) : Option (CStr × CStr) :=
  ((liveLines b.lines).find? (·.id = id)).map fun l => (l.user, l.message)

theorem toMap_eq_none {b : Board} {id : CStr} : b.toMap id = none ↔ id ∉ liveIds b.lines := by
  simp [toMap, liveIds]

/-- The only live line with its id. -/
theorem find_of_split {b : Board} {a c : List BoardLine} {l : LiveLine} (h : b.lines = a ++ .live l :: c)
    (ha : l.id ∉ liveIds a) : (liveLines b.lines).find? (·.id = l.id) = some l := by
  have hfind : (liveLines a).find? (·.id = l.id) = none := by
    simpa [liveIds] using ha
  simp [h, List.find?_append, hfind]

/-- The map at the id of the only live line with it. -/
theorem toMap_of_split {b : Board} {a c : List BoardLine} {l : LiveLine} (h : b.lines = a ++ .live l :: c)
    (ha : l.id ∉ liveIds a) : b.toMap l.id = some (l.user, l.message) :=
  congrArg (Option.map _) (find_of_split h ha)

theorem find_erase (id x : CStr) (ls : List BoardLine) :
    (liveLines (ls.map (eraseLine id))).find? (·.id = x) =
      if x = id then none else (liveLines ls).find? (·.id = x) := by
  induction ls with
  | nil => simp
  | cons y ls ih =>
    cases y with
    | deleted n pos lt => simpa [eraseLine] using ih
    | live l =>
      by_cases hl : l.id = id
      · by_cases hx : x = id
        · simpa [eraseLine, hl, hx] using ih
        · simpa [eraseLine, hl, hx, List.find?_cons, Ne.symm hx] using ih
      · by_cases hlx : l.id = x
        · have hx : ¬ x = id := fun h => hl (hlx.trans h)
          simp [eraseLine, hlx, hx]
        · simpa [eraseLine, hl, hlx, List.find?_cons] using ih

theorem toMap_erase (b : Board) (id x : CStr) :
    (b.erase id).toMap x = if x = id then none else b.toMap x := by
  simp only [toMap, erase, find_erase]
  split <;> rfl

theorem toMap_append (b : Board) (l : LiveLine) (h : l.id ∉ liveIds b.lines) (x : CStr) :
    (b.append l h).toMap x = if x = l.id then some (l.user, l.message) else b.toMap x := by
  by_cases hx : x = l.id
  · subst hx
    rw [if_pos rfl]
    have hsplit : (b.append l h).lines = b.lines ++ .live l :: [] := rfl
    exact toMap_of_split hsplit h
  · simp [toMap, append, List.find?_append, hx, Ne.symm hx]

theorem texts_append (b : Board) (l : LiveLine) (h : l.id ∉ liveIds b.lines) :
    (b.append l h).texts = b.texts ++ [l.text] := by
  simp [texts, append, BoardLine.text]

/-- Erasing at the level of texts: the line becomes backspaces, the others stay. -/
theorem texts_erase {b : Board} {a c : List BoardLine} {l : LiveLine} (h : b.lines = a ++ .live l :: c)
    (ha : l.id ∉ liveIds a) (hc : l.id ∉ liveIds c) :
    (b.erase l.id).texts =
      a.map BoardLine.text ++ deletedLine l.text.length :: c.map BoardLine.text := by
  have hmap : b.lines.map (eraseLine l.id) = a ++ eraseLine l.id (.live l) :: c := by
    rw [h, List.map_append, List.map_cons, eraseLine_of_not_mem ha, eraseLine_of_not_mem hc]
  simp [texts, erase, hmap, eraseLine, BoardLine.text]

theorem texts_clean (b : Board) : ∀ l ∈ b.texts, Clean l := by
  intro l hl
  obtain ⟨x, -, rfl⟩ := List.mem_map.1 hl
  exact x.clean

/-- The lines with a numeral are the live lines with it as their id. -/
theorem copies_texts {id : CStr} (hid : IsNumeral id) (ls : List BoardLine) :
    copies id (ls.map BoardLine.text) = (liveIds ls).count id := by
  induction ls with
  | nil => rfl
  | cons x ls ih =>
    cases x with
    | deleted n pos lt =>
      have hne : firstField (deletedLine n) ≠ id := firstField_deleted_ne hid n
      simpa [copies, BoardLine.text, hne] using ih
    | live l =>
      have hl : firstField l.text = l.id := l.ok.firstField
      simpa [copies, BoardLine.text, List.countP_cons, List.count_cons, hl] using ih

/-- A scan for the number of a live line stops there. -/
theorem lineOf_live {b : Board} {l : LiveLine} (h : l ∈ liveLines b.lines) : lineOf l.id b.texts = some l.text := by
  have hid := l.ok.id_numeral
  cases hline : lineOf l.id b.texts with
  | none =>
    obtain ⟨x, hx, hlive⟩ := List.mem_filterMap.1 h
    cases x with
    | deleted n pos lt => cases hlive
    | live l' =>
      obtain rfl := Option.some.inj hlive
      exact absurd l'.ok.firstField (lineOf_eq_none.1 hline _ (List.mem_map.2 ⟨.live l', hx, rfl⟩))
  | some t =>
    obtain ⟨ht, hfield⟩ := lineOf_some hline
    obtain ⟨x, hx, rfl⟩ := List.mem_map.1 ht
    cases x with
    | deleted n pos lt => exact absurd hfield (firstField_deleted_ne hid n)
    | live l' =>
      have hl' : l' ∈ liveLines b.lines := List.mem_filterMap.2 ⟨.live l', hx, rfl⟩
      have hsame : l' = l := List.inj_on_of_nodup_map b.distinct hl' h (l'.ok.firstField.symm.trans hfield)
      rw [hsame]
      rfl

theorem texts_distinct (b : Board) : Distinct b.texts := by
  intro id hid
  rw [texts, copies_texts hid]
  exact List.nodup_iff_count_le_one.1 b.distinct id

theorem isNumeral_of_mem {id : CStr} {ls : List BoardLine} (h : id ∈ liveIds ls) : IsNumeral id := by
  obtain ⟨l, -, rfl⟩ := List.mem_map.1 h
  exact l.ok.id_numeral

theorem copies_eq_one {b : Board} {id : CStr} (h : id ∈ liveIds b.lines) : copies id b.texts = 1 := by
  rw [texts, copies_texts (isNumeral_of_mem h)]
  exact List.count_eq_one_of_mem b.distinct h

end Board

/-! Two small boards. -/

def emptyBoard : Board := ⟨[], by simp⟩

def lastLine : LiveLine :=
  ⟨['1'], ['u'], ['m'], ⟨by decide, by decide, ⟨'m', by simp, rfl⟩, by decide, by decide, by decide⟩⟩

def oneLine : Board := ⟨[.live lastLine], by simp⟩

end BulletinBoard
