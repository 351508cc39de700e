import BulletinBoard.Numbering

/- The places of `temp_list` that the number generator touches over any run of WRITE requests.
   `initiate_descriptor` allocates MAX_LEN of them. Every `generate_number` that gets the file open
   stores one more entry, and `release_number` only overwrites entries: after n of them the run has
   touched the indices below n, and index n - 1 with the last. -/
namespace BulletinBoard

/-- The indices that the loop over `temp_list` reads. -/
def rescanReads (temp_list : List Int) : Nat → Nat → Int → List Nat
  | 0, _, _ => []
  | f + 1, j, max =>
    if j < temp_list.length then
      j :: if max = temp_list.getD j 0 then rescanReads temp_list f 1 (max + 1)
        else if j = temp_list.length - 1 ∧ j ≠ 0 then []
        else rescanReads temp_list f (j + 1) max
    else []

/-- The indices that `generate_number` reads, and the one at which it stores. -/
def generateAccesses (junk : List Char) (g : NumGen) (d : Disk) : List Nat :=
  match d.openFile.1 with
  | none => []
  | some fd =>
    match scanMax (scanRounds fd) fd junk 0 with
    | none => []
    | some max => rescanReads g.temp_list (rescanRounds g.temp_list) 0 max ++ [g.count]

/-- The indices that `release_number` reads from index `j` on: up to the first entry that holds the
    number. -/
def releaseReads (num : Int) : Nat → List Int → List Nat
  | _, [] => []
  | j, x :: temp_list => j :: if num = x then [] else releaseReads num (j + 1) temp_list

/-- The file, the generator, and the numbers of the WRITEs that are under way. -/
structure Reservations where
  bbfile : List Char
  gen_on_queue : NumGen
  held : List Int

inductive ReservationOp where
  | generate (junk : List Char) (opens : List OpenResult)
  | file (bbfile : List Char)
  | finish (num : Int)
  | release (num : Int)

/-- The WRITEs of all sessions, in any order of their calls: one asks for a number, and later is done
    or gives it back. What any request does to the file may come between. -/
inductive ReservationStep : Reservations → ReservationOp → Reservations → Prop where
  | generate {s : Reservations} {junk : List Char} {opens : List OpenResult} {num : Int} {g : NumGen} {d : Disk} :
      generateNumber junk s.gen_on_queue ⟨s.bbfile, opens⟩ = some (num, g, d) →
      ReservationStep s (.generate junk opens) ⟨d.bbfile, g, num :: s.held⟩
  | file {s : Reservations} {bbfile : List Char} : ReservationStep s (.file bbfile) { s with bbfile := bbfile }
  | finish {s : Reservations} {num : Int} :
      num ∈ s.held → ReservationStep s (.finish num) { s with held := s.held.erase num }
  | release {s : Reservations} {num : Int} : num ∈ s.held →
      ReservationStep s (.release num) ⟨s.bbfile, (releaseNumber num s.gen_on_queue).2, s.held.erase num⟩

/-- `initiate_descriptor` with any file. -/
def Reservations.start (bbfile : List Char) : Reservations := ⟨bbfile, ⟨[]⟩, []⟩

/-- The indices of `temp_list` that a call touches. -/
def Reservations.accesses (s : Reservations) : ReservationOp → List Nat
  | .generate junk opens => generateAccesses junk s.gen_on_queue ⟨s.bbfile, opens⟩
  | .release num => releaseReads num 0 s.gen_on_queue.temp_list
  | _ => []

/-- A WRITE whose `generate_number` gets the file open. -/
def reserves (p : Reservations × ReservationOp) : Bool :=
  match p.2 with
  | .generate _ opens => (Disk.openFile ⟨p.1.bbfile, opens⟩).1.isSome
  | _ => false

/-! One call. -/

theorem rescanReads_lt (L : List Int) : ∀ (f j : Nat) (max : Int), ∀ i ∈ rescanReads L f j max, i < L.length
  | 0, _, _, i, hi => by simp [rescanReads] at hi
  | f + 1, j, max, i, hi => by
    rw [rescanReads] at hi
    split at hi
    · next hj =>
      rcases List.mem_cons.1 hi with rfl | hi
      · exact hj
      · split at hi
        · exact rescanReads_lt L f 1 (max + 1) i hi
        · split at hi
          · cases hi
          · exact rescanReads_lt L f (j + 1) max i hi
    · cases hi

theorem releaseReads_lt (num : Int) : ∀ (L : List Int) (j : Nat), ∀ i ∈ releaseReads num j L, i < j + L.length
  | [], _, i, hi => by simp [releaseReads] at hi
  | x :: L, j, i, hi => by
    rw [releaseReads] at hi
    rw [List.length_cons]
    rcases List.mem_cons.1 hi with rfl | hi
    · omega
    · split at hi
      · cases hi
      · have := releaseReads_lt num L (j + 1) i hi
        omega

/-- A call that returns: a failing open touches nothing, and otherwise the entries are read and one more
    is stored. -/
theorem generateNumber_accesses {junk : List Char} {g g' : NumGen} {d d' : Disk} {num : Int}
    (h : generateNumber junk g d = some (num, g', d')) :
    (d.openFile.1 = none ∧ g' = g ∧ generateAccesses junk g d = []) ∨
      (d.openFile.1.isSome = true ∧ g'.count = g.count + 1 ∧
        ∃ max, generateAccesses junk g d = rescanReads g.temp_list (rescanRounds g.temp_list) 0 max ++ [g.count]) := by
  rw [generateNumber] at h
  unfold generateAccesses
  cases ho : d.openFile.1 with
  | none =>
    simp only [ho, Option.some.injEq, Prod.mk.injEq] at h
    exact Or.inl ⟨rfl, h.2.1.symm, rfl⟩
  | some fd =>
    simp only [ho] at h
    cases hs : scanMax (scanRounds fd) fd junk 0 with
    | none => simp [hs] at h
    | some max =>
      simp only [hs, Option.some.injEq, Prod.mk.injEq] at h
      obtain ⟨-, rfl, -⟩ := h
      refine Or.inr ⟨rfl, by simp [NumGen.count], max, ?_⟩
      dsimp only
      rw [hs]

/-- What a call touches lies below the count after it; a reservation touches the count before it. -/
theorem ReservationStep.accesses {s s' : Reservations} {op : ReservationOp} (h : ReservationStep s op s') :
    s'.gen_on_queue.count = s.gen_on_queue.count + (if reserves (s, op) then 1 else 0) ∧
      (∀ i ∈ s.accesses op, i < s'.gen_on_queue.count) ∧
      (reserves (s, op) = true → s.gen_on_queue.count ∈ s.accesses op) := by
  cases h with
  | @generate junk opens num g d hgen =>
    rw [Reservations.accesses]
    rcases generateNumber_accesses hgen with ⟨ho, rfl, hnone⟩ | ⟨ho, hcount, max, hsome⟩
    · have hr : reserves (s, .generate junk opens) = false := Option.isSome_eq_false_iff.2 (Option.isNone_iff_eq_none.2 ho)
      rw [hr, hnone]
      exact ⟨rfl, by simp, by simp⟩
    · have hr : reserves (s, .generate junk opens) = true := ho
      rw [hr, if_pos rfl, hsome]
      refine ⟨hcount, fun i hi => ?_, fun _ => by simp⟩
      rw [hcount]
      rcases List.mem_append.1 hi with hi | hi
      · exact Nat.lt_succ_of_lt (rescanReads_lt _ _ _ _ i hi)
      · obtain rfl := List.mem_singleton.1 hi
        exact Nat.lt_succ_self _
  | file => exact ⟨rfl, by simp [Reservations.accesses], by simp [reserves]⟩
  | finish _ => exact ⟨rfl, by simp [Reservations.accesses], by simp [reserves]⟩
  | @release num _ =>
    have hcount := releaseNumber_count num s.gen_on_queue
    refine ⟨hcount, fun i hi => ?_, by simp [reserves]⟩
    rw [hcount, NumGen.count, ← Nat.zero_add s.gen_on_queue.temp_list.length]
    exact releaseReads_lt num s.gen_on_queue.temp_list 0 i hi

/-! Runs. -/

/-- A run has touched the indices below the number of its reservations, up to the last of them. -/
theorem accesses_of_run {bbfile : List Char} {tr : List (Reservations × ReservationOp)} {s : Reservations}
    (hrun : Runs.Run ReservationStep (.start bbfile) tr s) :
    s.gen_on_queue.count = tr.countP reserves ∧
      (∀ p ∈ tr, ∀ i ∈ p.1.accesses p.2, i < tr.countP reserves) ∧
      (0 < tr.countP reserves → ∃ p ∈ tr, tr.countP reserves - 1 ∈ p.1.accesses p.2) := by
  induction hrun with
  | nil => exact ⟨rfl, by simp, by simp⟩
  | @snoc tr s s' op _ hs ih =>
    -- the count never falls, so what earlier calls touched stays below it
    obtain ⟨hcount, hbelow, hlast⟩ := ih
    obtain ⟨hcount', hbelow', hstore⟩ := hs.accesses
    have hsum : (tr ++ [(s, op)]).countP reserves = tr.countP reserves + (if reserves (s, op) then 1 else 0) := by
      rw [List.countP_append, List.countP_singleton]
    rw [hcount] at hcount'
    rw [hcount', ← hsum] at hbelow'
    refine ⟨hcount'.trans hsum.symm, ?_, ?_⟩
    · intro p hp i hi
      rcases List.mem_append.1 hp with hp | hp
      · have := hbelow p hp i hi
        omega
      · obtain rfl := List.mem_singleton.1 hp
        exact hbelow' i hi
    · intro hpos
      rw [hsum] at hpos ⊢
      cases hr : reserves (s, op) with
      | true =>
        refine ⟨(s, op), by simp, ?_⟩
        have := hstore hr
        rw [hcount] at this
        simpa using this
      | false =>
        rw [hr, if_neg Bool.false_ne_true, Nat.add_zero] at hpos
        obtain ⟨p, hp, hi⟩ := hlast hpos
        exact ⟨p, List.mem_append_left _ hp, by simpa using hi⟩

/-- **The list is kept to what was allocated** exactly in the runs that reserve at most MAX_LEN times. -/
theorem reservations_fit_iff {bbfile : List Char} {tr : List (Reservations × ReservationOp)} {s : Reservations}
    (hrun : Runs.Run ReservationStep (.start bbfile) tr s) :
    (∀ p ∈ tr, ∀ i ∈ p.1.accesses p.2, i < MAX_LEN) ↔ tr.countP reserves ≤ MAX_LEN := by
  obtain ⟨-, hbelow, hlast⟩ := accesses_of_run hrun
  constructor
  · intro hfit
    rcases Nat.eq_zero_or_pos (tr.countP reserves) with h₀ | hpos
    · rw [h₀]
      exact Nat.zero_le _
    · obtain ⟨p, hp, hi⟩ := hlast hpos
      have := hfit p hp _ hi
      omega
  · intro hle p hp i hi
    exact Nat.lt_of_lt_of_le (hbelow p hp i hi) hle

/-- One WRITE that succeeds and one that fails. -/
theorem reservations_fit_two : ∃ tr s, Runs.Run ReservationStep (.start []) tr s ∧
    s.gen_on_queue.temp_list = [0, 1] ∧ ∀ p ∈ tr, ∀ i ∈ p.1.accesses p.2, i < MAX_LEN := by
  have h₁ : ReservationStep (.start []) (.generate [] []) ⟨[], ⟨[0]⟩, [1]⟩ := .generate (d := ⟨[], []⟩) rfl
  have h₂ : ReservationStep ⟨[], ⟨[0]⟩, [1]⟩ (.file (lineBytes ['1'] ['u'] ['m']))
      ⟨lineBytes ['1'] ['u'] ['m'], ⟨[0]⟩, [1]⟩ := .file
  have h₃ : ReservationStep ⟨lineBytes ['1'] ['u'] ['m'], ⟨[0]⟩, [1]⟩ (.finish 1)
      ⟨lineBytes ['1'] ['u'] ['m'], ⟨[0]⟩, []⟩ := .finish (by decide)
  have h₄ : ReservationStep ⟨lineBytes ['1'] ['u'] ['m'], ⟨[0]⟩, []⟩ (.generate [] [])
      ⟨lineBytes ['1'] ['u'] ['m'], ⟨[0, 1]⟩, [2]⟩ := .generate (d := ⟨lineBytes ['1'] ['u'] ['m'], []⟩) rfl
  have h₅ : ReservationStep ⟨lineBytes ['1'] ['u'] ['m'], ⟨[0, 1]⟩, [2]⟩ (.release 2)
      ⟨lineBytes ['1'] ['u'] ['m'], ⟨[0, 1]⟩, []⟩ := .release (by decide)
  have hrun := ((((Runs.Run.nil.snoc h₁).snoc h₂).snoc h₃).snoc h₄).snoc h₅
  refine ⟨_, _, hrun, rfl, (reservations_fit_iff hrun).2 ?_⟩
  exact (List.countP_le_length).trans (by decide)

/-- Any number of WRITEs that fail, one after the other. -/
theorem failing_writes (n : Nat) : ∃ tr s, Runs.Run ReservationStep (.start []) tr s ∧ s.bbfile = [] ∧
    s.gen_on_queue.count = n := by
  induction n with
  | zero => exact ⟨[], _, .nil, rfl, rfl⟩
  | succ n ih =>
    obtain ⟨tr, s, hrun, hfile, hcount⟩ := ih
    have hd : (diskOf s.bbfile).bbfile = fileOf [] := by
      rw [diskOf_bbfile, hfile]
      rfl
    obtain ⟨k, hgen, -⟩ := generateNumber_lines [] s.gen_on_queue.temp_list hd (by simp) (openFile_diskOf _)
    have h₁ := ReservationStep.generate (s := s) hgen
    -- a WRITE that fails behind its reservation: the entry is freed, the count stays
    refine ⟨_, _, (hrun.snoc h₁).snoc (.release List.mem_cons_self), hfile, ?_⟩
    rw [releaseNumber_count, ← hcount]
    simp [NumGen.count]

/-- The 1025th WRITE stores behind the allocated entries. -/
theorem reservations_overflow : ∃ tr s, Runs.Run ReservationStep (.start []) tr s ∧
    ∃ p ∈ tr, ∃ i ∈ p.1.accesses p.2, ¬ i < MAX_LEN := by
  obtain ⟨tr, s, hrun, -, hcount⟩ := failing_writes (MAX_LEN + 1)
  obtain ⟨hc, -, hlast⟩ := accesses_of_run hrun
  obtain ⟨p, hp, hi⟩ := hlast (by omega)
  exact ⟨tr, s, hrun, p, hp, _, hi, by omega⟩

end BulletinBoard
