import BulletinBoard.Lib.Chain

/- linkedList.cc: the list of the clients' sockets. A node is named by its address; `malloc` gives
   the next address, and no node is ever freed. Following a NULL pointer is `none`. `pullList`
   compares values, not nodes, and finds the node before by counting; as long as no socket is in
   the list twice, it takes out the node it was given, and the list holds the sockets that were
   pushed and not yet pulled, in that order. `listLength` is a natural number: open sockets are
   fewer than an `int` can count. -/
namespace BulletinBoard

/-- `lList`, with the fields of the nodes. -/
structure LList where
  first : Option Nat
  last : Option Nat
  listLength : Nat
  prev : Nat → Option Nat
  sck_val : Nat → Int
  allocated : Nat

namespace LList

def createList : LList := ⟨none, none, 0, fun _ => none, fun _ => 0, 0⟩

def lPush (l : LList) (new_val : Nat) : Option LList :=
  let prev := Function.update l.prev new_val none
  match l.listLength with
  | 0 => some { l with
      prev := prev, first := some new_val, last := some new_val, listLength := l.listLength + 1 }
  | _ + 1 => l.last.map fun last => { l with
      prev := Function.update prev last (some new_val), last := some new_val, listLength := l.listLength + 1 }

def pushVal (l : LList) (new_val : Int) : Option LList :=
  let val_a := l.allocated
  lPush { l with allocated := l.allocated + 1, sck_val := Function.update l.sck_val val_a new_val } val_a

/-- The first loop of `find_next`, with the rounds that are left: the index before the value's. -/
def findIndex (l : LList) (sck_val : Int) : Nat → Int → Option Nat → Option Int
  | 0, _, _ => some (-1)
  | _ + 1, _, none => none
  | f + 1, i, some temp_line =>
    if l.sck_val temp_line = sck_val then some (i - 1) else findIndex l sck_val f (i + 1) (l.prev temp_line)

/-- The second loop of `find_next`: the node at that index, NULL when there is none. -/
def nodeAt (l : LList) (ret_number : Int) : Nat → Int → Option Nat → Option (Option Nat)
  | 0, _, _ => some none
  | f + 1, i, temp_line =>
    if i = ret_number then some temp_line
    else temp_line.bind fun a => nodeAt l ret_number f (i + 1) (l.prev a)

def find_next (l : LList) (sck_val : Int) : Option (Option Nat) :=
  if l.first.isSome then
    (findIndex l sck_val l.listLength 0 l.first).bind fun ret_number => nodeAt l ret_number l.listLength 0 l.first
  else some none

def pullList (l : LList) (new_val : Nat) : Option LList :=
  l.first.bind fun first =>
  if l.sck_val first = l.sck_val new_val then
    if l.listLength = 1 then some { l with first := none, last := none, listLength := l.listLength - 1 }
    else some { l with first := l.prev first, listLength := l.listLength - 1 }
  else l.last.bind fun last =>
  if l.sck_val last = l.sck_val new_val then
    if l.listLength = 1 then some { l with last := none, first := none, listLength := l.listLength - 1 }
    else (l.find_next (l.sck_val last)).bind fun next_line => next_line.map fun a =>
      { l with last := next_line, prev := Function.update l.prev a none, listLength := l.listLength - 1 }
  else (l.find_next (l.sck_val new_val)).bind fun next_line => next_line.map fun a =>
    { l with prev := Function.update l.prev a (l.prev new_val), listLength := l.listLength - 1 }

/-- The loop of `pullSpec`, with the rounds that are left. -/
def pullLoop (l : LList) (pVal : Int) : Nat → Option Nat → Option LList
  | 0, _ => some l
  | _ + 1, none => none
  | f + 1, some temp_line =>
    if l.sck_val temp_line = pVal then l.pullList temp_line else pullLoop l pVal f (l.prev temp_line)

def pullSpec (l : LList) (pVal : Int) : Option LList :=
  if l.first.isSome then pullLoop l pVal l.listLength l.first else some l

/-- The loop of `shutdownList`, with the rounds that are left: the sockets it shuts down. -/
def shutdownLoop (l : LList) : Nat → Option Nat → Option (List Int)
  | 0, _ => some []
  | _ + 1, none => none
  | f + 1, some temp_line => (shutdownLoop l f (l.prev temp_line)).map fun sockets => l.sck_val temp_line :: sockets

def shutdownList (l : LList) : Option (List Int) :=
  if l.first.isSome then shutdownLoop l l.listLength l.first else some []

/-- The chain of the list has the nodes `as`. -/
structure Holds (l : LList) (as : List Nat) : Prop where
  linked : Chain.Linked l.prev l.first as
  last : l.last = as.getLast?
  length : l.listLength = as.length
  allocated : ∀ a ∈ as, a < l.allocated
  distinct : (as.map l.sck_val).Nodup

theorem Holds.nodup {l : LList} {as : List Nat} (h : l.Holds as) : as.Nodup := h.distinct.of_map

theorem Holds.createList : createList.Holds [] where
  linked := .nil
  last := rfl
  length := rfl
  allocated := by simp
  distinct := by simp

/-! Pushing. -/

theorem Holds.pushVal {l : LList} {as : List Nat} {v : Int} (h : l.Holds as) (hv : v ∉ as.map l.sck_val) :
    ∃ l', l.pushVal v = some l' ∧ l'.Holds (as ++ [l.allocated]) ∧
      (as ++ [l.allocated]).map l'.sck_val = as.map l.sck_val ++ [v] := by
  have hnew : l.allocated ∉ as := fun hm => Nat.lt_irrefl _ (h.allocated _ hm)
  have hvals : (as ++ [l.allocated]).map (Function.update l.sck_val l.allocated v) = as.map l.sck_val ++ [v] := by
    rw [List.map_append, List.map_singleton, Function.update_self]
    congr 1
    refine List.map_congr_left fun a ha => Function.update_of_ne ?_ v l.sck_val
    rintro rfl
    exact hnew ha
  have hdistinct : (as.map l.sck_val ++ [v]).Nodup :=
    List.nodup_append.2 ⟨h.distinct, List.nodup_singleton v, fun x hx y hy he => by
      obtain rfl := List.mem_singleton.1 hy
      exact hv (he ▸ hx)⟩
  have hbelow : ∀ a ∈ as ++ [l.allocated], a < l.allocated + 1 := by
    intro a ha
    rcases List.mem_append.1 ha with ha | ha
    · exact Nat.lt_succ_of_lt (h.allocated a ha)
    · obtain rfl := List.mem_singleton.1 ha
      exact Nat.lt_succ_self _
  have hend : Chain.Linked (Function.update l.prev l.allocated none) (some l.allocated) [l.allocated] :=
    .cons (by rw [Function.update_self]; exact .nil)
  have hlength := h.length
  rcases List.eq_nil_or_concat' as with rfl | ⟨as, a, rfl⟩
  · -- an empty list
    refine ⟨⟨some l.allocated, some l.allocated, 1, Function.update l.prev l.allocated none,
      Function.update l.sck_val l.allocated v, l.allocated + 1⟩, ?_, ?_, hvals⟩
    · rw [LList.pushVal, lPush]
      simp only [hlength, List.length_nil]
    · exact ⟨hend, rfl, rfl, hbelow, hvals ▸ hdistinct⟩
  · -- the last node is linked to the new one
    have hlast : l.last = some a := by rw [h.last, List.getLast?_concat]
    have ha : a ≠ l.allocated := fun he => hnew (by simp [he])
    have hmem : a ∉ as := fun hm => (List.nodup_append.1 h.nodup).2.2 a hm a (List.mem_singleton_self a) rfl
    refine ⟨⟨l.first, some l.allocated, l.listLength + 1,
      Function.update (Function.update l.prev l.allocated none) a (some l.allocated),
      Function.update l.sck_val l.allocated v, l.allocated + 1⟩, ?_, ?_, hvals⟩
    · rw [LList.pushVal, lPush]
      simp only [hlength, List.length_append, List.length_singleton, hlast, Option.map_some]
    · have hold : Chain.Linked (Function.update l.prev l.allocated none) l.first (as ++ [a]) :=
        h.linked.congr fun b hb => by
          have hb : b ≠ l.allocated := by
            rintro rfl
            exact hnew hb
          rw [Function.update_of_ne hb]
      have hlinked := hold.relink hmem hend (by simpa using ha)
      rw [List.append_cons] at hlinked
      exact ⟨hlinked, by simp, by simp [hlength], hbelow, hvals ▸ hdistinct⟩

/-! Pulling. The loops along the chain, with the nodes before the value and behind it. -/

section
variable {l : LList} {p : Option Nat} {as bs : List Nat} {a c : Nat} {v : Int}

theorem findIndex_at (h : Chain.Linked l.prev p (as ++ a :: bs)) (ha : l.sck_val a = v)
    (has : v ∉ as.map l.sck_val) (i : Int) :
    l.findIndex v (as ++ a :: bs).length i p = some (i + as.length - 1) := by
  induction as generalizing p i with
  | nil =>
    obtain rfl := h.start
    simp [findIndex, ha]
  | cons x as ih =>
    obtain rfl := h.start
    rw [List.map_cons, List.mem_cons, not_or] at has
    cases h with
    | cons h =>
      have hx : l.sck_val x ≠ v := fun he => has.1 he.symm
      have hi : i + 1 + (as.length : Int) - 1 = i + ((x :: as).length : Int) - 1 := by
        rw [List.length_cons]; push_cast; omega
      rw [← hi, ← ih h has.2 (i + 1)]
      simp [findIndex, hx]

theorem nodeAt_at (h : Chain.Linked l.prev p (as ++ a :: bs)) {i r : Int} (hr : r = i + as.length) :
    l.nodeAt r (as ++ a :: bs).length i p = some (some a) := by
  induction as generalizing p i with
  | nil =>
    obtain rfl := h.start
    simp [nodeAt, hr]
  | cons x as ih =>
    obtain rfl := h.start
    cases h with
    | cons h =>
      have hi : i ≠ r := by rw [hr, List.length_cons]; push_cast; omega
      have hr' : r = i + 1 + as.length := by rw [hr, List.length_cons]; push_cast; omega
      rw [← ih h hr']
      simp [nodeAt, hi]

/-- `find_next` gives the node before the value's. -/
theorem Holds.find_next (h : l.Holds (as ++ c :: a :: bs)) : l.find_next (l.sck_val a) = some (some c) := by
  have hlinked : Chain.Linked l.prev l.first ((as ++ [c]) ++ a :: bs) := by
    rw [← List.append_cons]
    exact h.linked
  have hmem : l.sck_val a ∉ (as ++ [c]).map l.sck_val := by
    have hd := h.distinct
    rw [List.append_cons, List.map_append, List.nodup_append] at hd
    exact fun hm => hd.2.2 _ hm _ (by simp) rfl
  have hfirst : l.first.isSome = true := by
    rw [h.linked.start]
    cases as <;> rfl
  -- the index of the value less one, counted from the first node
  have hindex := findIndex_at hlinked rfl hmem 0
  rw [← List.append_cons, ← h.length] at hindex
  rw [LList.find_next, if_pos hfirst, hindex, Option.bind_some, h.length]
  exact nodeAt_at h.linked (by simp)

/-- The loop of `pullSpec` without the value. -/
theorem pullLoop_absent (h : Chain.Linked l.prev p as) (hv : v ∉ as.map l.sck_val) :
    l.pullLoop v as.length p = some l := by
  induction as generalizing p with
  | nil => rfl
  | cons x as ih =>
    obtain rfl := h.start
    rw [List.map_cons, List.mem_cons, not_or] at hv
    cases h with
    | cons h =>
      have hx : l.sck_val x ≠ v := fun he => hv.1 he.symm
      rw [← ih h hv.2]
      simp [pullLoop, hx]

theorem pullLoop_at (h : Chain.Linked l.prev p (as ++ a :: bs)) (ha : l.sck_val a = v)
    (has : v ∉ as.map l.sck_val) : l.pullLoop v (as ++ a :: bs).length p = l.pullList a := by
  induction as generalizing p with
  | nil =>
    obtain rfl := h.start
    simp [pullLoop, ha]
  | cons x as ih =>
    obtain rfl := h.start
    rw [List.map_cons, List.mem_cons, not_or] at has
    cases h with
    | cons h =>
      have hx : l.sck_val x ≠ v := fun he => has.1 he.symm
      rw [← ih h has.2]
      simp [pullLoop, hx]

theorem Holds.value_ne (h : l.Holds (as ++ a :: bs)) (hc : c ∈ as ∨ c ∈ bs) : l.sck_val c ≠ l.sck_val a := by
  have hd := h.distinct
  rw [List.map_append, List.map_cons, List.nodup_append, List.nodup_cons] at hd
  rcases hc with hc | hc
  · exact hd.2.2 _ (List.mem_map_of_mem hc) _ (by simp)
  · intro he
    exact hd.2.1.1 (he ▸ List.mem_map_of_mem hc)

/-- What is left when the links lead around a node. -/
theorem Holds.without {l' : LList} (h : l.Holds (as ++ a :: bs)) (hlinked : Chain.Linked l'.prev l'.first (as ++ bs))
    (hlast : l'.last = (as ++ bs).getLast?) (hlength : l'.listLength = l.listLength - 1)
    (hval : l'.sck_val = l.sck_val) (halloc : l'.allocated = l.allocated) : l'.Holds (as ++ bs) := by
  have hsub : (as ++ bs).Sublist (as ++ a :: bs) := (List.sublist_cons_self a bs).append_left as
  refine ⟨hlinked, hlast, ?_, ?_, ?_⟩
  · rw [hlength, h.length]
    simp
  · rw [halloc]
    exact fun b hb => h.allocated b (hsub.subset hb)
  · rw [hval]
    exact (hsub.map l.sck_val).nodup h.distinct

/-- The links around a node, after the one before it was written. -/
theorem Holds.relink_around (h : l.Holds (as ++ c :: a :: bs)) :
    Chain.Linked (Function.update l.prev c (l.prev a)) l.first (as ++ c :: bs) := by
  have hn := h.nodup
  rw [List.nodup_append, List.nodup_cons] at hn
  have hbehind : Chain.Linked l.prev (l.prev a) bs := by
    have hl := h.linked
    rw [List.append_cons] at hl
    exact hl.behind
  refine h.linked.relink ?_ hbehind ?_
  · exact fun hm => hn.2.2 c hm c List.mem_cons_self rfl
  · exact fun hm => hn.2.1.1 (List.mem_cons_of_mem a hm)

/-- `pullList` takes out the node it is given. -/
theorem Holds.pullList (h : l.Holds (as ++ a :: bs)) :
    ∃ l', l.pullList a = some l' ∧ l'.Holds (as ++ bs) ∧ l'.sck_val = l.sck_val := by
  have hlen := h.length
  rcases List.eq_nil_or_concat' as with rfl | ⟨as, c, rfl⟩
  · -- the first node
    have hfirst : l.first = some a := h.linked.start
    cases bs with
    | nil =>
      refine ⟨⟨none, none, l.listLength - 1, l.prev, l.sck_val, l.allocated⟩, ?_, ?_, rfl⟩
      · simp [LList.pullList, hfirst, hlen]
      · exact h.without .nil rfl rfl rfl rfl
    | cons b bs =>
      refine ⟨⟨l.prev a, l.last, l.listLength - 1, l.prev, l.sck_val, l.allocated⟩, ?_, ?_, rfl⟩
      · simp [LList.pullList, hfirst, hlen]
      · refine h.without h.linked.behind ?_ rfl rfl rfl
        show l.last = _
        rw [h.last, List.nil_append, List.nil_append, List.getLast?_cons_cons]
  · -- a node behind `c`
    rw [← List.append_cons] at h hlen
    -- the values are distinct, so the first branch of `pullList` is not taken
    have hfirst : ∃ x, l.first = some x ∧ l.sck_val x ≠ l.sck_val a := by
      have hstart := h.linked.start
      rw [List.append_cons] at h
      cases as with
      | nil => exact ⟨c, hstart, h.value_ne (by simp)⟩
      | cons x as => exact ⟨x, hstart, h.value_ne (by simp)⟩
    obtain ⟨x, hx, hxa⟩ := hfirst
    have hone : l.listLength ≠ 1 := by
      rw [hlen, List.length_append, List.length_cons, List.length_cons]
      omega
    have hfind := h.find_next
    have hlinked := h.relink_around
    rw [← List.append_cons]
    rcases List.eq_nil_or_concat' bs with rfl | ⟨bs, y, rfl⟩
    · -- it is the last one
      have hlast : l.last = some a := by rw [h.last, List.append_cons, List.getLast?_concat]
      refine ⟨⟨l.first, some c, l.listLength - 1, Function.update l.prev c none, l.sck_val, l.allocated⟩, ?_, ?_, rfl⟩
      · simp [LList.pullList, hx, hxa, hlast, hone, hfind]
      · have hnull : l.prev a = none := h.linked.last_link (by simp)
        rw [hnull] at hlinked
        rw [List.append_cons] at h ⊢
        refine h.without ?_ (by simp) rfl rfl rfl
        rw [← List.append_cons]
        exact hlinked
    · have hend : ∀ cs : List Nat, (as ++ c :: (cs ++ [y])).getLast? = some y := by
        intro cs
        rw [← List.cons_append, ← List.append_assoc, List.getLast?_concat]
      have hlast : l.last = some y := by
        rw [h.last, ← List.cons_append]
        exact hend (a :: bs)
      have hya : l.sck_val y ≠ l.sck_val a := by
        rw [List.append_cons] at h
        exact h.value_ne (by simp)
      refine ⟨⟨l.first, l.last, l.listLength - 1, Function.update l.prev c (l.prev a), l.sck_val, l.allocated⟩, ?_, ?_, rfl⟩
      · simp [LList.pullList, hx, hxa, hlast, hya, hfind]
      · rw [List.append_cons] at h ⊢
        refine h.without ?_ ?_ rfl rfl rfl
        · rw [← List.append_cons]
          exact hlinked
        · rw [hlast, ← List.append_cons]
          exact (hend bs).symm

/-- `pullSpec` of a value that is not in the list. -/
theorem Holds.pullSpec_absent (h : l.Holds as) (hv : v ∉ as.map l.sck_val) : l.pullSpec v = some l := by
  unfold LList.pullSpec
  split
  · rw [h.length]
    exact pullLoop_absent h.linked hv
  · rfl

theorem Holds.pullSpec (h : l.Holds as) (v : Int) :
    ∃ l' as', l.pullSpec v = some l' ∧ l'.Holds as' ∧ as'.map l'.sck_val = (as.map l.sck_val).erase v := by
  by_cases hv : v ∈ as.map l.sck_val
  · obtain ⟨a, ha, rfl⟩ := List.mem_map.1 hv
    obtain ⟨as, bs, rfl⟩ := List.append_of_mem ha
    obtain ⟨l', hpull, hl', hval⟩ := h.pullList
    have has : l.sck_val a ∉ as.map l.sck_val := by
      intro hm
      obtain ⟨c, hc, he⟩ := List.mem_map.1 hm
      exact h.value_ne (Or.inl hc) he
    have hfirst : l.first.isSome = true := by
      rw [h.linked.start]
      cases as <;> rfl
    refine ⟨l', as ++ bs, ?_, hl', ?_⟩
    · rw [LList.pullSpec, if_pos hfirst, h.length, pullLoop_at h.linked rfl has, hpull]
    · rw [hval, List.map_append, List.map_append, List.map_cons, List.erase_append_right _ has, List.erase_cons_head]
  · exact ⟨l, as, h.pullSpec_absent hv, h, (List.erase_of_not_mem hv).symm⟩

end

/-- `shutdownList` meets every node once. -/
theorem Holds.shutdownList {l : LList} {as : List Nat} (h : l.Holds as) :
    l.shutdownList = some (as.map l.sck_val) := by
  have hloop : ∀ {p : Option Nat} {as : List Nat}, Chain.Linked l.prev p as →
      l.shutdownLoop as.length p = some (as.map l.sck_val) := by
    intro p as hp
    induction hp with
    | nil => rfl
    | cons _ ih => rw [List.length_cons, shutdownLoop, ih, Option.map_some, List.map_cons]
  unfold LList.shutdownList
  split
  · rw [h.length]
    exact hloop h.linked
  · next hfirst =>
    rw [h.linked.start] at hfirst
    cases as with
    | nil => rfl
    | cons a as => exact absurd rfl hfirst

/-! Sequences of calls. -/

inductive ListOp where
  | push (v : Int)
  | pull (v : Int)
  deriving DecidableEq, Repr

def apply (l : LList) : ListOp → Option LList
  | .push v => l.pushVal v
  | .pull v => l.pullSpec v

/-- The calls one after the other. -/
def run : LList → List ListOp → Option LList
  | l, [] => some l
  | l, op :: ops => (l.apply op).bind fun l => run l ops

/-- The values that are pushed and not yet pulled, in the order of their pushes. -/
def listed : List Int → List ListOp → List Int
  | vs, [] => vs
  | vs, .push v :: ops => listed (vs ++ [v]) ops
  | vs, .pull v :: ops => listed (vs.erase v) ops

/-- Every pushed socket is new at that moment. -/
def NewSockets : List Int → List ListOp → Prop
  | _, [] => True
  | vs, .push v :: ops => v ∉ vs ∧ NewSockets (vs ++ [v]) ops
  | vs, .pull v :: ops => NewSockets (vs.erase v) ops

theorem Holds.run {l : LList} {as : List Nat} (h : l.Holds as) {ops : List ListOp}
    (hnew : NewSockets (as.map l.sck_val) ops) :
    ∃ l' as', l.run ops = some l' ∧ l'.Holds as' ∧ as'.map l'.sck_val = listed (as.map l.sck_val) ops := by
  induction ops generalizing l as with
  | nil => exact ⟨l, as, rfl, h, rfl⟩
  | cons op ops ih =>
    cases op with
    | push v =>
      obtain ⟨hv, hnew⟩ := hnew
      obtain ⟨l₁, hpush, h₁, hvals⟩ := h.pushVal hv
      rw [← hvals] at hnew
      obtain ⟨l', as', hrun, h', hlisted⟩ := ih h₁ hnew
      refine ⟨l', as', ?_, h', ?_⟩
      · rw [LList.run, apply, hpush, Option.bind_some, hrun]
      · rw [hlisted, hvals, listed]
    | pull v =>
      obtain ⟨l₁, as₁, hpull, h₁, hvals⟩ := h.pullSpec v
      rw [NewSockets, ← hvals] at hnew
      obtain ⟨l', as', hrun, h', hlisted⟩ := ih h₁ hnew
      refine ⟨l', as', ?_, h', ?_⟩
      · rw [LList.run, apply, hpull, Option.bind_some, hrun]
      · rw [hlisted, hvals, listed]

/-- **The list after any calls.** No call follows a NULL pointer; the chain from `first` has
    `listLength` nodes and ends at `last`, its values are those pushed and not yet pulled, and a pull
    of another value changes nothing. -/
theorem client_list_represents (ops : List ListOp) (h : NewSockets [] ops) :
    ∃ l as, createList.run ops = some l ∧ Chain.Linked l.prev l.first as ∧ as.length = l.listLength ∧
      l.last = as.getLast? ∧ (∀ a, l.last = some a → l.prev a = none) ∧
      (l.first = none ∧ l.last = none ↔ l.listLength = 0) ∧ as.map l.sck_val = listed [] ops ∧
      ∀ v, v ∉ listed [] ops → l.pullSpec v = some l := by
  obtain ⟨l, as, hrun, hl, hvals⟩ := Holds.createList.run h
  refine ⟨l, as, hrun, hl.linked, hl.length.symm, hl.last, ?_, ?_, hvals, ?_⟩
  · intro a ha
    exact hl.linked.last_link (hl.last.symm.trans ha)
  · rw [hl.linked.start, hl.last, hl.length]
    cases as with
    | nil => simp
    | cons a as => simp
  · intro v hv
    exact hl.pullSpec_absent (by rw [hvals]; exact hv)

/-- When the server goes down it shuts down the sockets of all clients that are still there. -/
theorem shutdown_listed {ops : List ListOp} (h : NewSockets [] ops) :
    (createList.run ops).bind shutdownList = some (listed [] ops) := by
  obtain ⟨l, as, hrun, hl, hvals⟩ := Holds.createList.run h
  rw [hrun, Option.bind_some, hl.shutdownList, hvals]
  rfl

/-- Three sockets, of which the middle one and then the last one leave. -/
theorem client_list_represents_three : NewSockets [] [.push 4, .push 5, .push 6, .pull 5, .pull 6] ∧
    ∃ l as, createList.run [.push 4, .push 5, .push 6, .pull 5, .pull 6] = some l ∧
      Chain.Linked l.prev l.first as ∧ as.length = l.listLength ∧ as.map l.sck_val = [4] := by
  have hnew : NewSockets [] [.push 4, .push 5, .push 6, .pull 5, .pull 6] := by
    refine ⟨by decide, by decide, by decide, trivial⟩
  obtain ⟨l, as, hrun, hlinked, hlength, -, -, -, hvals, -⟩ := client_list_represents _ hnew
  exact ⟨hnew, l, as, hrun, hlinked, hlength, hvals⟩

end LList

end BulletinBoard
