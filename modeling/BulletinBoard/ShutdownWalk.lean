import BulletinBoard.ClientList
import BulletinBoard.Lib.Run
import BulletinBoard.Lib.Walk

/- The clients' sockets when the server goes down. Every session puts its socket in the list, works,
   takes it out and closes it; `pushVal` and `pullSpec` hold the lock of the list. `shutdownList`
   does not: it reads `listLength`, a socket and a link one after the other, while sessions come
   and go, and sees what a call has written so far, its link but not its count. It counts the
   nodes that it has met, so that a session that leaves in the meantime makes it stop before the
   end. -/
namespace BulletinBoard

namespace Clients

/-! The source. -/

/-- The session of a socket: accepted and waiting for an employee, in the list, or out of it again
    with its socket still open. -/
inductive Phase where
  | accepted
  | talking
  | leaving
  deriving DecidableEq, Repr

/-- Where `shutdownList` is: before its first read, at the test of the loop, at `temp_line->sck_val`,
    at `temp_line->prev`, at its end, or behind a NULL pointer. -/
inductive WalkPc where
  | idle
  | test (i : Nat) (temp_line : Option Nat)
  | shut (i : Nat) (temp_line : Option Nat)
  | next (i : Nat) (temp_line : Nat)
  | done
  | crashed
  deriving DecidableEq, Repr

/-- The list, the session of each open socket, and the walk. `clients_list` is the list with the call
    under its lock done. `lPush` and `pullList` write one link that the walk reads and write the
    count last: `listLength` is the count in memory, and `holder` the call that has not
    written it yet. `shut` has the sockets that are shut since they were accepted. `talking`,
    `pulls` and `pushes` are the history: the sockets in the list in the order in which they
    came, and how many went and came since the walk began, one under way at its start included. -/
structure Server where
  clients_list : LList
  listLength : Nat
  holder : Option LList.ListOp
  session : Int → Option Phase
  walk : WalkPc
  shut : List Int
  talking : List Int
  pulls : Nat
  pushes : Nat

inductive Op where
  | accept (sd : Int)
  | push (sd : Int)
  | pull (sd : Int)
  | count
  | close (sd : Int)
  | begin
  | walk
  deriving DecidableEq, Repr

def Server.start : Server := ⟨LList.createList, 0, none, fun _ => none, .idle, [], [], 0, 0⟩

def Server.pulling (s : Server) : Nat :=
  match s.holder with
  | some (.pull _) => 1
  | _ => 0

def Server.pushing (s : Server) : Nat :=
  match s.holder with
  | some (.push _) => 1
  | _ => 0

/-- After the link of a push. -/
def Server.pushed (s : Server) (sd : Int) (l : LList) : Server := { s with
  clients_list := l, holder := some (.push sd), session := Function.update s.session sd (some .talking),
  talking := s.talking ++ [sd], pushes := s.pushes + 1 }

/-- After the link of a pull. -/
def Server.pulled (s : Server) (sd : Int) (l : LList) : Server := { s with
  clients_list := l, holder := some (.pull sd), session := Function.update s.session sd (some .leaving),
  talking := s.talking.erase sd, pulls := s.pulls + 1 }

/-- The next step of the walk. -/
def Server.walkStep (s : Server) : Option Server :=
  match s.walk with
  | .test i temp_line => some { s with walk := if i < s.listLength then .shut i temp_line else .done }
  | .shut i (some a) => some { s with walk := .next i a, shut := s.clients_list.sck_val a :: s.shut }
  | .shut _ none => some { s with walk := .crashed }
  | .next i a => some { s with walk := .test (i + 1) (s.clients_list.prev a) }
  | _ => none

/-- One step of the server. `accept` gives a socket that is not open; `push` and `pull` are the calls
    up to their link, and `count` is the rest of them. -/
inductive Step : Server → Op → Server → Prop where
  | accept {s : Server} {sd : Int} : s.session sd = none →
      Step s (.accept sd) { s with
        session := Function.update s.session sd (some .accepted), shut := s.shut.filter (· ≠ sd) }
  | push {s : Server} {sd : Int} {l : LList} : s.session sd = some .accepted → s.holder = none →
      s.clients_list.pushVal sd = some l →
      Step s (.push sd) (s.pushed sd l)
  | pull {s : Server} {sd : Int} {l : LList} : s.session sd = some .talking → s.holder = none →
      s.clients_list.pullSpec sd = some l →
      Step s (.pull sd) (s.pulled sd l)
  | count {s : Server} {op : LList.ListOp} : s.holder = some op →
      Step s .count { s with listLength := s.clients_list.listLength, holder := none }
  | close {s : Server} {sd : Int} : s.session sd = some .leaving → s.holder ≠ some (.pull sd) →
      Step s (.close sd) { s with session := Function.update s.session sd none }
  | begin {s : Server} : s.walk = .idle →
      Step s .begin { s with
        walk := if s.clients_list.first.isSome then .test 0 s.clients_list.first else .done, pulls := s.pulling, pushes := s.pushing }
  | walk {s s' : Server} : s.walkStep = some s' → Step s .walk s'

/-! What a pull and a push do to the links. -/

section
variable {l l' : LList} {as bs : List Nat} {a : Nat} {v : Int}

theorem pushVal_links (h : l.Holds as) (hpush : l.pushVal v = some l') :
    l'.prev = Chain.putLast l.prev as l.allocated ∧ l'.sck_val = Function.update l.sck_val l.allocated v ∧
      l'.allocated = l.allocated + 1 := by
  have hlength := h.length
  rw [LList.pushVal, LList.lPush] at hpush
  rcases List.eq_nil_or_concat' as with rfl | ⟨as, c, rfl⟩
  · simp only [hlength, List.length_nil, Option.some.injEq] at hpush
    rw [← hpush]
    exact ⟨rfl, rfl, rfl⟩
  · have hlast : l.last = some c := by rw [h.last, List.getLast?_concat]
    simp only [hlength, List.length_append, List.length_singleton, hlast, Option.map_some, Option.some.injEq] at hpush
    rw [← hpush, Chain.putLast, List.getLast?_concat]
    exact ⟨rfl, rfl, rfl⟩

theorem pullList_links (h : l.Holds (as ++ a :: bs)) (hpull : l.pullList a = some l') :
    l'.prev = Chain.takeOut l.prev as a ∧ l'.sck_val = l.sck_val ∧ l'.allocated = l.allocated := by
  have hlen := h.length
  rcases List.eq_nil_or_concat' as with rfl | ⟨as, c, rfl⟩
  · have hfirst : l.first = some a := h.linked.start
    simp only [LList.pullList, hfirst, Option.bind_some, if_true] at hpull
    split at hpull
    · obtain rfl := Option.some.inj hpull
      exact ⟨rfl, rfl, rfl⟩
    · obtain rfl := Option.some.inj hpull
      exact ⟨rfl, rfl, rfl⟩
  · have hx : ∃ x, l.first = some x ∧ l.sck_val x ≠ l.sck_val a := by
      have hstart := h.linked.start
      cases as with
      | nil => exact ⟨c, hstart, h.value_ne (by simp)⟩
      | cons x as => exact ⟨x, hstart, h.value_ne (by simp)⟩
    obtain ⟨x, hfirst, hxa⟩ := hx
    have hfind : l.find_next (l.sck_val a) = some (some c) := by
      rw [← List.append_cons] at h
      exact h.find_next
    have hone : l.listLength ≠ 1 := by
      rw [hlen]
      simp only [List.length_append, List.length_cons, List.length_nil]
      omega
    rw [Chain.takeOut, List.getLast?_concat, Option.elim_some]
    rcases List.eq_nil_or_concat' bs with rfl | ⟨bs, y, rfl⟩
    · have hlast : l.last = some a := by rw [h.last, List.getLast?_concat]
      have hnull : l.prev a = none := h.linked.last_link (by simp)
      simp only [LList.pullList, hfirst, hxa, hlast, hone, hfind, Option.bind_some, Option.map_some, if_true, if_false,
        Option.some.injEq] at hpull
      rw [← hpull, hnull]
      exact ⟨rfl, rfl, rfl⟩
    · have hlast : l.last = some y := by
        rw [h.last, ← List.cons_append, ← List.append_assoc, List.getLast?_concat]
      have hya : l.sck_val y ≠ l.sck_val a := h.value_ne (by simp)
      simp only [LList.pullList, hfirst, hxa, hlast, hya, hfind, Option.bind_some, Option.map_some, if_false,
        Option.some.injEq] at hpull
      rw [← hpull]
      exact ⟨rfl, rfl, rfl⟩

/-- The node of a socket that is pulled. -/
theorem pullSpec_links (h : l.Holds as) (hv : v ∈ as.map l.sck_val) (hpull : l.pullSpec v = some l') :
    ∃ as₁ a as₂, as = as₁ ++ a :: as₂ ∧ l.sck_val a = v ∧ l'.Holds (as₁ ++ as₂) ∧
      l'.prev = Chain.takeOut l.prev as₁ a ∧ l'.sck_val = l.sck_val ∧ l'.allocated = l.allocated := by
  obtain ⟨a, ha, rfl⟩ := List.mem_map.1 hv
  obtain ⟨as₁, as₂, rfl⟩ := List.append_of_mem ha
  obtain ⟨l₁, hlist, hl₁, -⟩ := h.pullList
  have has : l.sck_val a ∉ as₁.map l.sck_val := by
    intro hm
    obtain ⟨c, hc, he⟩ := List.mem_map.1 hm
    exact h.value_ne (Or.inl hc) he
  have hfirst : l.first.isSome = true := by
    rw [h.linked.start]
    cases as₁ <;> rfl
  rw [LList.pullSpec, if_pos hfirst, h.length, LList.pullLoop_at h.linked rfl has, hlist] at hpull
  obtain rfl := Option.some.inj hpull
  exact ⟨as₁, a, as₂, rfl, rfl, hl₁, pullList_links h hlist⟩

end

/-! The invariant. -/

/-- The list has the sockets of the sessions that are in it, and its count in memory is right but for
    the call that holds the lock. -/
structure ListInv (s : Server) (as : List Nat) : Prop where
  holds : s.clients_list.Holds as
  talking : as.map s.clients_list.sck_val = s.talking
  phase : ∀ v, v ∈ s.talking ↔ s.session v = some .talking
  counted : s.listLength + s.pushing = s.clients_list.listLength + s.pulling
  since : s.pulling ≤ s.pulls

/-- The walk has shut the sockets of `before`. Its counter is at most the nodes that it has met, and
    those that went, and it has met a node in each round; `extra` is the round under way. -/
structure Walker (s : Server) (before behind pre : List Nat) (i : Nat) (temp_line : Option Nat) (extra : Nat) : Prop where
  stands : Chain.Stands s.clients_list.prev before behind (0 < s.pushes) temp_line pre
  met : ∀ a ∈ before, s.clients_list.sck_val a ∈ s.shut
  known : ∀ y ∈ pre, y < s.clients_list.allocated
  upper : i + pre.length ≤ before.length + s.pulls
  lower : before.length ≤ i + extra

/-- What holds at each place of the walk. -/
def WalkInv (s : Server) (as : List Nat) : WalkPc → Prop
  | .test i temp_line => ∃ before behind pre, as = before ++ behind ∧ Walker s before behind pre i temp_line 0
  | .shut i temp_line => (temp_line = none → 0 < s.pulls + s.pushes) ∧
      ∃ before behind pre, as = before ++ behind ∧ Walker s before behind pre i temp_line 0
  | .next i a => ∃ before behind pre, as = before ++ behind ∧ Walker s before behind (a :: pre) i (some a) 1
  | .crashed => 0 < s.pulls + s.pushes
  | _ => True

section
variable {s s' : Server} {as before behind pre : List Nat} {i extra : Nat} {temp_line : Option Nat} {v : Int}

/-- A session that comes. -/
theorem Walker.push {l : LList} (h : Walker s before behind pre i temp_line extra)
    (hl : s.clients_list.Holds (before ++ behind)) (hpush : s.clients_list.pushVal v = some l)
    (hs' : s'.clients_list = l ∧ s'.shut = s.shut ∧ s'.pulls = s.pulls ∧ s'.pushes = s.pushes + 1) :
    Walker s' before (behind ++ [s.clients_list.allocated]) pre i temp_line extra := by
  obtain ⟨rfl, hshut, hpulls, hpushes⟩ := hs'
  obtain ⟨hprev, hval, halloc⟩ := pushVal_links hl hpush
  have hnew : s.clients_list.allocated ∉ before ++ behind := fun hm => Nat.lt_irrefl _ (hl.allocated _ hm)
  have hpre : s.clients_list.allocated ∉ pre := fun hm => Nat.lt_irrefl _ (h.known _ hm)
  refine ⟨?_, ?_, ?_, ?_, h.lower⟩
  · rw [hprev]
    exact h.stands.putLast (by omega) hl.nodup hnew hpre
  · intro a ha
    have hne : a ≠ s.clients_list.allocated := by
      rintro rfl
      exact hnew (List.mem_append_left _ ha)
    rw [hval, Function.update_of_ne hne, hshut]
    exact h.met a ha
  · intro y hy
    rw [halloc]
    exact Nat.lt_succ_of_lt (h.known y hy)
  · rw [hpulls]
    exact h.upper

/-- A session that goes, when the walk has met it or not. -/
theorem Walker.pull {l : LList} (h : Walker s before behind pre i temp_line extra)
    (hl : s.clients_list.Holds (before ++ behind)) (hv : v ∈ (before ++ behind).map s.clients_list.sck_val)
    (hpull : s.clients_list.pullSpec v = some l)
    (hs' : s'.clients_list = l ∧ s'.shut = s.shut ∧ s'.pulls = s.pulls + 1 ∧ s'.pushes = s.pushes) :
    ∃ before' behind' more, l.Holds (before' ++ behind') ∧
      (before' ++ behind').map l.sck_val = ((before ++ behind).map s.clients_list.sck_val).erase v ∧
      Walker s' before' behind' (pre ++ more) i temp_line extra := by
  obtain ⟨rfl, hshut, hpulls, hpushes⟩ := hs'
  obtain ⟨as₁, a, as₂, has, rfl, hholds, hprev, hval, halloc⟩ := pullSpec_links hl hv hpull
  have hd := hl.nodup
  have hvals : (as₁ ++ as₂).map s'.clients_list.sck_val =
      ((before ++ behind).map s.clients_list.sck_val).erase (s.clients_list.sck_val a) := by
    have hnot : s.clients_list.sck_val a ∉ as₁.map s.clients_list.sck_val := by
      intro hm
      obtain ⟨c, hc, he⟩ := List.mem_map.1 hm
      exact (has ▸ hl).value_ne (Or.inl hc) he
    rw [has, hval, List.map_append, List.map_append, List.map_cons, List.erase_append_right _ hnot, List.erase_cons_head]
  have hupper := h.upper
  have hlower := h.lower
  have hcases : (∃ b₂, before = as₁ ++ a :: b₂ ∧ as₂ = b₂ ++ behind) ∨
      ∃ b₁, as₁ = before ++ b₁ ∧ behind = b₁ ++ a :: as₂ := by
    rcases List.append_eq_append_iff.1 has with ⟨b₁, has₁, hbehind⟩ | ⟨b, hbefore, hrest⟩
    · exact .inr ⟨b₁, has₁, hbehind⟩
    · rcases List.cons_eq_append_iff.1 hrest with ⟨rfl, hbehind⟩ | ⟨b₂, rfl, has₂⟩
      · exact .inr ⟨[], by rw [List.append_nil, hbefore, List.append_nil], hbehind⟩
      · exact .inl ⟨b₂, hbefore, has₂⟩
  rcases hcases with ⟨b₂, rfl, rfl⟩ | ⟨b₁, rfl, rfl⟩
  · -- the walk has met it
    rw [← List.append_assoc] at hholds hvals
    refine ⟨as₁ ++ b₂, behind, [], hholds, hvals, ?_, ?_, ?_, ?_, ?_⟩
    · rw [hprev, hpushes, List.append_nil]
      exact h.stands.takeOut_before hd
    · intro c hc
      rw [hval, hshut]
      apply h.met c
      rcases List.mem_append.1 hc with hc | hc
      · exact List.mem_append_left _ hc
      · exact List.mem_append_right _ (List.mem_cons_of_mem a hc)
    · rw [halloc, List.append_nil]
      exact h.known
    · rw [hpulls, List.append_nil]
      simp only [List.length_append, List.length_cons] at hupper ⊢
      omega
    · simp only [List.length_append, List.length_cons] at hlower ⊢
      omega
  · -- it has not
    obtain ⟨pre', hpre', hstands⟩ := h.stands.takeOut_behind hd
    obtain ⟨more, rfl, hmore⟩ : ∃ more, pre' = pre ++ more ∧ (more = [] ∨ more = [a]) := by
      rcases hpre' with rfl | rfl
      · exact ⟨[], (List.append_nil _).symm, .inl rfl⟩
      · exact ⟨[a], rfl, .inr rfl⟩
    rw [List.append_assoc] at hholds hvals
    refine ⟨before, b₁ ++ as₂, more, hholds, hvals, ?_, ?_, ?_, ?_, hlower⟩
    · rw [hprev, hpushes]
      exact hstands
    · rw [hval, hshut]
      exact h.met
    · rw [halloc]
      intro y hy
      rcases List.mem_append.1 hy with hy | hy
      · exact h.known y hy
      · have hya : y = a := by
          rcases hmore with rfl | rfl
          · cases hy
          · exact List.mem_singleton.1 hy
        rw [hya]
        exact hl.allocated a (by simp)
    · rw [hpulls]
      have hone : more.length ≤ 1 := by rcases hmore with rfl | rfl <;> simp
      rw [List.length_append]
      omega

/-- The walk meets the node at which it is. -/
theorem Walker.meet {a : Nat} (h : Walker s before behind pre i (some a) 0) (hl : s.clients_list.Holds (before ++ behind))
    (hs' : s'.clients_list = s.clients_list ∧ s'.shut = s.clients_list.sck_val a :: s.shut ∧ s'.pulls = s.pulls ∧
      s'.pushes = s.pushes) :
    ∃ before' behind' pre', before ++ behind = before' ++ behind' ∧ Walker s' before' behind' (a :: pre') i (some a) 1 := by
  obtain ⟨hlist, hshut, hpulls, hpushes⟩ := hs'
  have hupper := h.upper
  have hlower := h.lower
  have hmet : ∀ c ∈ before, s'.clients_list.sck_val c ∈ s'.shut := by
    intro c hc
    rw [hlist, hshut]
    exact List.mem_cons_of_mem _ (h.met c hc)
  rcases h.stands.meet with ⟨pre', rfl⟩ | ⟨rfl, behind', rfl, hstands⟩
  · refine ⟨before, behind, pre', rfl, ?_, hmet, ?_, ?_, by omega⟩
    · rw [hlist, hpushes]
      exact h.stands
    · rw [hlist]
      exact h.known
    · rw [hpulls]
      exact hupper
  · refine ⟨before ++ [a], behind', [], by simp, ?_, ?_, ?_, ?_, ?_⟩
    · rw [hlist, hpushes]
      exact hstands
    · intro c hc
      rcases List.mem_append.1 hc with hc | hc
      · exact hmet c hc
      · rw [List.mem_singleton.1 hc, hlist, hshut]
        exact List.mem_cons_self
    · intro y hy
      rw [List.mem_singleton.1 hy, hlist]
      exact hl.allocated a (by simp)
    · rw [hpulls]
      simp only [List.length_append, List.length_cons, List.length_nil] at hupper ⊢
      omega
    · simp only [List.length_append, List.length_singleton]
      omega

/-- It goes on to the next one. -/
theorem Walker.next {a : Nat} (h : Walker s before behind (a :: pre) i (some a) 1)
    (hs' : s'.clients_list = s.clients_list ∧ s'.shut = s.shut ∧ s'.pulls = s.pulls ∧ s'.pushes = s.pushes) :
    Walker s' before behind pre (i + 1) (s.clients_list.prev a) 0 := by
  obtain ⟨hlist, hshut, hpulls, hpushes⟩ := hs'
  have hupper := h.upper
  refine ⟨?_, ?_, ?_, ?_, h.lower⟩
  · rw [hlist, hpushes]
    exact h.stands.move
  · rw [hlist, hshut]
    exact h.met
  · rw [hlist]
    exact fun y hy => h.known y (List.mem_cons_of_mem a hy)
  · rw [hpulls]
    rw [List.length_cons] at hupper
    omega

/-- At the test, with a round to come, it stands at a node unless a session has come, or one goes whose
    call has yet to count. -/
theorem Walker.not_null (h : Walker s before behind pre i none 0) (hl : ListInv s (before ++ behind))
    (hlt : i < s.listLength) : 0 < s.pulls + s.pushes := by
  obtain ⟨-, rfl | hlost⟩ := h.stands.at_null
  · have hlower := h.lower
    have hcounted := hl.counted
    have hsince := hl.since
    rw [hl.holds.length, List.append_nil] at hcounted
    omega
  · omega

/-- When the walk ends, it has missed at most as many as went, and the one that comes. -/
theorem Walker.missed (h : Walker s before behind pre i temp_line 0) (hl : ListInv s (before ++ behind))
    (hge : ¬ i < s.listLength) : behind.length ≤ s.pulls + s.pushing := by
  have hupper := h.upper
  have hcounted := hl.counted
  rw [hl.holds.length, List.length_append] at hcounted
  omega

theorem Walker.congr (h : Walker s before behind pre i temp_line extra)
    (hshut : ∀ a ∈ before, s.clients_list.sck_val a ∈ s.shut → s.clients_list.sck_val a ∈ s'.shut)
    (hs' : s'.clients_list = s.clients_list ∧ s'.pulls = s.pulls ∧ s'.pushes = s.pushes) :
    Walker s' before behind pre i temp_line extra := by
  obtain ⟨hlist, hpulls, hpushes⟩ := hs'
  refine ⟨?_, ?_, ?_, ?_, h.lower⟩
  · rw [hlist, hpushes]
    exact h.stands
  · intro a ha
    rw [hlist]
    exact hshut a ha (h.met a ha)
  · rw [hlist]
    exact h.known
  · rw [hpulls]
    exact h.upper

theorem WalkInv.congr {pc : WalkPc} (h : WalkInv s as pc)
    (hshut : ∀ a ∈ as, s.clients_list.sck_val a ∈ s.shut → s.clients_list.sck_val a ∈ s'.shut)
    (hs' : s'.clients_list = s.clients_list ∧ s'.pulls = s.pulls ∧ s'.pushes = s.pushes) : WalkInv s' as pc := by
  have hpos : 0 < s.pulls + s.pushes → 0 < s'.pulls + s'.pushes := by
    rw [hs'.2.1, hs'.2.2]
    exact id
  cases pc with
  | test i temp_line =>
    obtain ⟨before, behind, pre, rfl, hw⟩ := h
    exact ⟨before, behind, pre, rfl, hw.congr (fun a ha => hshut a (List.mem_append_left _ ha)) hs'⟩
  | shut i temp_line =>
    obtain ⟨hnull, before, behind, pre, rfl, hw⟩ := h
    refine ⟨fun he => hpos (hnull he), before, behind, pre, rfl, ?_⟩
    exact hw.congr (fun a ha => hshut a (List.mem_append_left _ ha)) hs'
  | next i a =>
    obtain ⟨before, behind, pre, rfl, hw⟩ := h
    exact ⟨before, behind, pre, rfl, hw.congr (fun a ha => hshut a (List.mem_append_left _ ha)) hs'⟩
  | crashed => exact hpos h
  | _ => trivial

theorem WalkInv.push {l : LList} {pc : WalkPc} (h : WalkInv s as pc) (hl : s.clients_list.Holds as)
    (hpush : s.clients_list.pushVal v = some l)
    (hs' : s'.clients_list = l ∧ s'.shut = s.shut ∧ s'.pulls = s.pulls ∧ s'.pushes = s.pushes + 1) :
    WalkInv s' (as ++ [s.clients_list.allocated]) pc := by
  have hpos : 0 < s'.pulls + s'.pushes := by omega
  cases pc with
  | test i temp_line =>
    obtain ⟨before, behind, pre, rfl, hw⟩ := h
    exact ⟨before, _, pre, List.append_assoc _ _ _, hw.push hl hpush hs'⟩
  | shut i temp_line =>
    obtain ⟨-, before, behind, pre, rfl, hw⟩ := h
    exact ⟨fun _ => hpos, before, _, pre, List.append_assoc _ _ _, hw.push hl hpush hs'⟩
  | next i a =>
    obtain ⟨before, behind, pre, rfl, hw⟩ := h
    exact ⟨before, _, pre, List.append_assoc _ _ _, hw.push hl hpush hs'⟩
  | crashed => exact hpos
  | _ => trivial

/-- The nodes after a pull, whatever the walk does. -/
theorem WalkInv.pull {l : LList} {pc : WalkPc} (h : WalkInv s as pc) (hl : s.clients_list.Holds as)
    (hv : v ∈ as.map s.clients_list.sck_val) (hpull : s.clients_list.pullSpec v = some l)
    (hs' : s'.clients_list = l ∧ s'.shut = s.shut ∧ s'.pulls = s.pulls + 1 ∧ s'.pushes = s.pushes) :
    ∃ as', l.Holds as' ∧ as'.map l.sck_val = (as.map s.clients_list.sck_val).erase v ∧ WalkInv s' as' pc := by
  have hany : ∃ as', l.Holds as' ∧ as'.map l.sck_val = (as.map s.clients_list.sck_val).erase v := by
    obtain ⟨l₁, as', hpull', hholds, hvals⟩ := hl.pullSpec v
    obtain rfl := Option.some.inj (hpull'.symm.trans hpull)
    exact ⟨as', hholds, hvals⟩
  have hpos : 0 < s'.pulls + s'.pushes := by omega
  cases pc with
  | test i temp_line =>
    obtain ⟨before, behind, pre, rfl, hw⟩ := h
    obtain ⟨before', behind', more, hholds, hvals, hw'⟩ := hw.pull hl hv hpull hs'
    exact ⟨_, hholds, hvals, before', behind', _, rfl, hw'⟩
  | shut i temp_line =>
    obtain ⟨-, before, behind, pre, rfl, hw⟩ := h
    obtain ⟨before', behind', more, hholds, hvals, hw'⟩ := hw.pull hl hv hpull hs'
    exact ⟨_, hholds, hvals, fun _ => hpos, before', behind', _, rfl, hw'⟩
  | next i a =>
    obtain ⟨before, behind, pre, rfl, hw⟩ := h
    obtain ⟨before', behind', more, hholds, hvals, hw'⟩ := hw.pull hl hv hpull hs'
    exact ⟨_, hholds, hvals, before', behind', _, rfl, hw'⟩
  | crashed =>
    obtain ⟨as', hholds, hvals⟩ := hany
    exact ⟨as', hholds, hvals, hpos⟩
  | idle =>
    obtain ⟨as', hholds, hvals⟩ := hany
    exact ⟨as', hholds, hvals, trivial⟩
  | done =>
    obtain ⟨as', hholds, hvals⟩ := hany
    exact ⟨as', hholds, hvals, trivial⟩

/-- What the walk has missed, when it ends. -/
def Misses (s : Server) : Prop :=
  ∃ met missed, s.talking = met ++ missed ∧ missed.length ≤ s.pulls + s.pushing ∧ ∀ v ∈ met, v ∈ s.shut

/-- A step of the walk. -/
theorem WalkInv.step (h : WalkInv s as s.walk) (hl : ListInv s as) (hstep : s.walkStep = some s') :
    ListInv s' as ∧ WalkInv s' as s'.walk ∧ (s'.walk = .done → Misses s') := by
  rw [Server.walkStep] at hstep
  generalize hpc : s.walk = pc at h hstep
  cases pc with
  | test i temp_line =>
    obtain rfl := Option.some.inj hstep
    obtain ⟨before, behind, pre, rfl, hw⟩ := h
    refine ⟨⟨hl.holds, hl.talking, hl.phase, hl.counted, hl.since⟩, ?_⟩
    dsimp only
    split
    · next hlt =>
      refine ⟨⟨?_, before, behind, pre, rfl, hw.congr (fun _ _ => id) ⟨rfl, rfl, rfl⟩⟩, fun hd => by cases hd⟩
      rintro rfl
      exact hw.not_null hl hlt
    · next hge =>
      refine ⟨trivial, fun _ => ⟨before.map s.clients_list.sck_val, behind.map s.clients_list.sck_val, ?_, ?_, ?_⟩⟩
      · rw [← List.map_append]
        exact hl.talking.symm
      · rw [List.length_map]
        exact hw.missed hl hge
      · intro v hv
        obtain ⟨a, ha, rfl⟩ := List.mem_map.1 hv
        exact hw.met a ha
  | shut i temp_line =>
    obtain ⟨hnull, before, behind, pre, rfl, hw⟩ := h
    cases temp_line with
    | none =>
      obtain rfl := Option.some.inj hstep
      exact ⟨⟨hl.holds, hl.talking, hl.phase, hl.counted, hl.since⟩, hnull rfl, fun hd => by cases hd⟩
    | some a =>
      obtain rfl := Option.some.inj hstep
      refine ⟨⟨hl.holds, hl.talking, hl.phase, hl.counted, hl.since⟩, ?_, fun hd => by cases hd⟩
      exact hw.meet hl.holds ⟨rfl, rfl, rfl, rfl⟩
  | next i a =>
    obtain rfl := Option.some.inj hstep
    obtain ⟨before, behind, pre, rfl, hw⟩ := h
    refine ⟨⟨hl.holds, hl.talking, hl.phase, hl.counted, hl.since⟩, ?_, fun hd => by cases hd⟩
    exact ⟨before, behind, pre, rfl, hw.next ⟨rfl, rfl, rfl, rfl⟩⟩
  | _ => cases hstep

end

/-! Whole runs. -/

section
variable {s s' : Server} {as : List Nat} {op : Op} {tr : List (Server × Op)}

theorem ListInv.start : ListInv Server.start [] where
  holds := LList.Holds.createList
  talking := rfl
  phase := by
    intro v
    constructor
    · intro hv
      cases hv
    · intro hv
      cases hv
  counted := rfl
  since := Nat.le_refl 0

/-- The phases after the one of a socket is set, when its session neither comes nor goes. -/
theorem phase_update {session : Int → Option Phase} {talking : List Int} {sd : Int} {p : Option Phase}
    (h : ∀ v, v ∈ talking ↔ session v = some .talking) (hsd : session sd ≠ some .talking) (hp : p ≠ some .talking)
    (v : Int) : v ∈ talking ↔ Function.update session sd p v = some .talking := by
  by_cases hv : v = sd
  · rw [hv, Function.update_self, h sd]
    exact iff_of_false hsd hp
  · rw [Function.update_of_ne hv, h v]

theorem ListInv.not_mem (h : ListInv s as) {sd : Int} (hsd : s.session sd ≠ some .talking) :
    sd ∉ as.map s.clients_list.sck_val := by
  rw [h.talking, h.phase]
  exact hsd

theorem ListInv.counted_free (h : ListInv s as) (hfree : s.holder = none) : s.listLength = s.clients_list.listLength := by
  have hcounted := h.counted
  rw [Server.pushing, Server.pulling, hfree] at hcounted
  exact hcounted

/-- The call of a session that comes. -/
theorem ListInv.push {sd : Int} {l : LList} (h : ListInv s as) (hsd : s.session sd ≠ some .talking)
    (hfree : s.holder = none) (hpush : s.clients_list.pushVal sd = some l) :
    ListInv (s.pushed sd l) (as ++ [s.clients_list.allocated]) := by
  obtain ⟨l₁, hpush', hholds, hvals⟩ := h.holds.pushVal (h.not_mem hsd)
  obtain rfl := Option.some.inj (hpush'.symm.trans hpush)
  refine ⟨hholds, ?_, ?_, ?_, Nat.zero_le _⟩
  · show (as ++ [s.clients_list.allocated]).map l₁.sck_val = s.talking ++ [sd]
    rw [hvals, h.talking]
  · intro v
    show v ∈ s.talking ++ [sd] ↔ Function.update s.session sd (some .talking) v = some .talking
    rw [List.mem_append, List.mem_singleton]
    by_cases hv : v = sd
    · rw [hv, Function.update_self]
      exact iff_of_true (.inr rfl) rfl
    · rw [Function.update_of_ne hv, h.phase v]
      exact ⟨fun hm => hm.resolve_right hv, .inl⟩
  · show s.listLength + 1 = l₁.listLength
    rw [h.counted_free hfree, h.holds.length, hholds.length, List.length_append, List.length_singleton]

/-- The call of a session that goes. -/
theorem ListInv.pull {sd : Int} {l : LList} {as' : List Nat} (h : ListInv s as) (hsd : s.session sd = some .talking)
    (hfree : s.holder = none) (hholds : l.Holds as')
    (hvals : as'.map l.sck_val = (as.map s.clients_list.sck_val).erase sd) :
    ListInv (s.pulled sd l) as' := by
  have hnodup : s.talking.Nodup := h.talking ▸ h.holds.distinct
  have hmem : sd ∈ as.map s.clients_list.sck_val := by rw [h.talking, h.phase, hsd]
  refine ⟨hholds, ?_, ?_, ?_, Nat.le_add_left 1 s.pulls⟩
  · show as'.map l.sck_val = s.talking.erase sd
    rw [hvals, h.talking]
  · intro v
    show v ∈ s.talking.erase sd ↔ Function.update s.session sd (some .leaving) v = some .talking
    rw [hnodup.mem_erase_iff]
    by_cases hv : v = sd
    · rw [hv, Function.update_self]
      exact iff_of_false (fun hm => hm.1 rfl) (by simp)
    · rw [Function.update_of_ne hv, h.phase v]
      exact ⟨fun hm => hm.2, fun hm => ⟨hv, hm⟩⟩
  · show s.listLength = l.listLength + 1
    have hlen := congrArg List.length hvals
    have hpos := List.length_pos_of_mem hmem
    rw [List.length_erase_of_mem hmem] at hlen
    rw [List.length_map] at hlen hpos
    rw [List.length_map] at hlen
    rw [h.counted_free hfree, h.holds.length, hholds.length]
    omega

/-- The invariant of a server. -/
def Server.Inv (s : Server) : Prop := ∃ as, ListInv s as ∧ WalkInv s as s.walk

/-- Every step keeps the list and the walk. -/
theorem inv_step (h : s.Inv) (hstep : Step s op s') : s'.Inv := by
  obtain ⟨as, h, hw⟩ := h
  cases hstep with
  | @accept sd hsd =>
    have hne : s.session sd ≠ some .talking := by simp [hsd]
    refine ⟨as, ⟨h.holds, h.talking, phase_update h.phase hne (by simp), h.counted, h.since⟩, ?_⟩
    refine hw.congr ?_ ⟨rfl, rfl, rfl⟩
    intro a ha hshut
    -- the socket of a new session is not in the list
    have hval : s.clients_list.sck_val a ≠ sd := by
      rintro rfl
      exact h.not_mem hne (List.mem_map_of_mem ha)
    exact List.mem_filter.2 ⟨hshut, by simpa using hval⟩
  | @push sd l hsd hfree hpush =>
    have hne : s.session sd ≠ some .talking := by simp [hsd]
    exact ⟨_, h.push hne hfree hpush, hw.push h.holds hpush ⟨rfl, rfl, rfl, rfl⟩⟩
  | @pull sd l hsd hfree hpull =>
    have hmem : sd ∈ as.map s.clients_list.sck_val := by rw [h.talking, h.phase, hsd]
    have hpulled : (s.pulled sd l).clients_list = l ∧ (s.pulled sd l).shut = s.shut ∧
        (s.pulled sd l).pulls = s.pulls + 1 ∧ (s.pulled sd l).pushes = s.pushes := ⟨rfl, rfl, rfl, rfl⟩
    obtain ⟨as', hholds, hvals, hw'⟩ := hw.pull h.holds hmem hpull hpulled
    exact ⟨as', h.pull hsd hfree hholds hvals, hw'⟩
  | count hop =>
    exact ⟨as, ⟨h.holds, h.talking, h.phase, rfl, Nat.zero_le _⟩, hw.congr (fun _ _ => id) ⟨rfl, rfl, rfl⟩⟩
  | @close sd hsd _ =>
    have hne : s.session sd ≠ some .talking := by simp [hsd]
    refine ⟨as, ⟨h.holds, h.talking, phase_update h.phase hne (by simp), h.counted, h.since⟩, ?_⟩
    exact hw.congr (fun _ _ => id) ⟨rfl, rfl, rfl⟩
  | begin hidle =>
    refine ⟨as, ⟨h.holds, h.talking, h.phase, h.counted, Nat.le_refl _⟩, ?_⟩
    dsimp only
    split
    · refine ⟨[], as, [], rfl, .start h.holds.linked, by simp, by simp, ?_, ?_⟩
      · exact Nat.zero_le _
      · exact Nat.le_refl 0
    · trivial
  | walk hwalk =>
    obtain ⟨hl', hw', -⟩ := hw.step h hwalk
    exact ⟨as, hl', hw'⟩

theorem inv_run (hrun : Runs.Run Step Server.start tr s) : s.Inv := by
  have hstart : Server.start.Inv := ⟨[], ListInv.start, trivial⟩
  exact hrun.inv_of_step hstart fun _ _ _ => inv_step

/-- The step with which the walk ends. -/
theorem ends_step (h : ListInv s as) (hw : WalkInv s as s.walk) (hstep : Step s op s') (hwalking : s.walk ≠ .done)
    (hdone : s'.walk = .done) : Misses s' := by
  cases hstep with
  | begin hidle =>
    dsimp only at hdone
    split at hdone
    · cases hdone
    · next hfirst =>
      have hnil : as = [] := by
        rw [h.holds.linked.start, Option.not_isSome_iff_eq_none] at hfirst
        exact List.head?_eq_none_iff.1 hfirst
      refine ⟨[], [], ?_, Nat.zero_le _, by simp⟩
      show s.talking = []
      rw [← h.talking, hnil, List.map_nil]
  | walk hwalk => exact (hw.step h hwalk).2.2 hdone
  | _ => exact absurd hdone hwalking

/-- **Shutting the clients down.** The list always has the sockets of the sessions that are in it. When
    the walk over it ends, the clients whose socket it has not shut are the last ones, and they are
    at most as many as have left since it began, and the one that comes; and it follows no NULL
    pointer unless a session has come or gone since then. -/
theorem shutdown_misses_few (hrun : Runs.Run Step Server.start tr s) :
    (∃ as, s.clients_list.Holds as ∧ as.map s.clients_list.sck_val = s.talking) ∧
      (∀ v, v ∈ s.talking ↔ s.session v = some .talking) ∧ (s.holder = none → s.listLength = s.talking.length) ∧
      (s.walk = .crashed → 0 < s.pulls + s.pushes) ∧
      ∀ op s', Step s op s' → s.walk ≠ .done → s'.walk = .done → Misses s' := by
  obtain ⟨as, hl, hw⟩ := inv_run hrun
  refine ⟨⟨as, hl.holds, hl.talking⟩, hl.phase, ?_, ?_, fun op s' => ends_step hl hw⟩
  · intro hfree
    rw [hl.counted_free hfree, hl.holds.length, ← hl.talking, List.length_map]
  · intro hcrashed
    rw [hcrashed] at hw
    exact hw

/-- Two clients; the first leaves after its socket is shut, and the second one is missed. -/
theorem shutdown_misses_few_second : ∃ tr s s', Runs.Run Step Server.start tr s ∧ Step s .walk s' ∧
    s'.talking = [5] ∧ s'.shut = [4] ∧ s'.pulls = 1 ∧ Misses s' := by
  have run := (Runs.Run.nil : Runs.Run Step Server.start [] Server.start)
  have run := run.snoc (Step.accept rfl : Step _ (.accept 4) _)
  have run := run.snoc (Step.push rfl rfl rfl : Step _ (.push 4) _)
  have run := run.snoc (Step.count rfl)
  have run := run.snoc (Step.accept rfl : Step _ (.accept 5) _)
  have run := run.snoc (Step.push rfl rfl rfl : Step _ (.push 5) _)
  have run := run.snoc (Step.count rfl)
  have run := run.snoc (Step.begin rfl)
  have run := run.snoc (Step.walk rfl)
  have run := run.snoc (Step.walk rfl)
  have run := run.snoc (Step.pull rfl rfl rfl : Step _ (.pull 4) _)
  have run := run.snoc (Step.count rfl)
  have run := run.snoc (Step.walk rfl)
  have hlast := shutdown_misses_few run
  exact ⟨_, _, _, run, .walk rfl, rfl, rfl, rfl, hlast.2.2.2.2 _ _ (.walk rfl) nofun rfl⟩

end

end Clients

end BulletinBoard
