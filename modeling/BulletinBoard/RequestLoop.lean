import BulletinBoard.Requests

/- The request loop of server_operations: `readline` into a buffer of MAX_LEN, the last
   character cut off, the words cut in place, until `recv_nodata` or a QUIT. The loop cuts
   off one character whatever the line ends with, takes a full buffer for a line, the
   bytes before an end of file for another, and goes on after a read error. It handles
   the lines that were sent exactly when they end with "\r\n", fit and hold no NUL, and
   the connection ends after one of them or after a QUIT. -/
namespace BulletinBoard

/-! The source. -/

/-- Whether the words of a request start with QUIT. -/
def isQuit (text : CStr) : Bool := tolwr ((wordsOf text).getD 0 []) = "quit".toList

/-- A request that is handled, and what is unread when it is. -/
structure Handled where
  text : CStr
  unread : List Char
  deriving DecidableEq, Repr

/-- How the loop stands. An empty request makes it write to `request[-1]`, outside the
    buffer. -/
inductive LoopEnd where
  | running
  | nodata
  | quit
  | outside
  deriving DecidableEq, Repr

/-- The loop from a buffer that holds `request`, for some rounds. -/
def requestLoop : Nat → Stream → List Char → List Handled × LoopEnd
  | 0, _, _ => ([], .running)
  | f + 1, ssock, request =>
    let (rc, request, ssock) := readline request MAX_LEN ssock
    if rc = recvNodata then ([], .nodata)
    else
      let n := (cstr request 0).length
      if n = 0 then ([], .outside)
      else
        let request := request.set (n - 1) NUL
        let text := cstr request 0
        let command := strTokenize request text.length
        if tolwr ((tokenStrings command).getD 0 []) = "quit".toList then ([⟨text, ssock.bytes⟩], .quit)
        else
          let r := requestLoop f ssock command.1
          (⟨text, ssock.bytes⟩ :: r.1, r.2)

/-! What the client sends. -/

/-- The lines of what was sent, each without its newline, and what stands after the last. -/
def cutLines : List Char → List CStr × CStr
  | [] => ([], [])
  | c :: bytes =>
    let (lines, rest) := cutLines bytes
    if c = '\n' then ([] :: lines, rest)
    else
      match lines with
      | [] => ([], c :: rest)
      | l :: lines => ((c :: l) :: lines, rest)

/-- The text of a line that ends with "\n" or "\r\n". -/
def lineBody (l : CStr) : CStr := if l.getLast? = some '\r' then l.dropLast else l

/-- The requests that these lines call for: their texts, each when it was read, up to the first
    QUIT. A line longer than the buffer may be left out. -/
inductive HandledLines : List CStr → CStr → List Handled → Prop where
  | nil {rest : CStr} : HandledLines [] rest []
  | line {l rest : CStr} {ls : List CStr} {hs : List Handled} :
      isQuit (lineBody l) = false → HandledLines ls rest hs →
      HandledLines (l :: ls) rest (⟨lineBody l, fileOf ls ++ rest⟩ :: hs)
  | quit {l rest : CStr} {ls : List CStr} :
      isQuit (lineBody l) = true → HandledLines (l :: ls) rest [⟨lineBody l, fileOf ls ++ rest⟩]
  | refused {l rest : CStr} {ls : List CStr} {hs : List Handled} :
      MAX_LEN ≤ (lineBody l).length + 1 → HandledLines ls rest hs → HandledLines (l :: ls) rest hs

/-- The loop ends, and the requests that it has handled are the lines sent. -/
def FramedLines (request : List Char) (lines : List CStr) (rest : CStr) (fails : Bool) : Prop :=
  ∃ (n : Nat) (handled : List Handled) (e : LoopEnd),
    requestLoop n ⟨fileOf lines ++ rest, fails⟩ request = (handled, e) ∧ (e = .nodata ∨ e = .quit) ∧
      HandledLines lines rest handled

/-- The property for the bytes of a connection, after which reads fail or find the end of file. -/
def Framed (request bytes : List Char) (fails : Bool) : Prop :=
  FramedLines request (cutLines bytes).1 (cutLines bytes).2 fails

/-- A line as a telnet client sends it. -/
def SentWell (l : CStr) : Prop := ∃ text, l = text ++ ['\r'] ∧ NUL ∉ text ∧ l.length < MAX_LEN

/-- Every line up to the first QUIT is sent so; without a QUIT the connection ends behind a line,
    by an end of file. -/
def WellSent : List CStr → CStr → Bool → Prop
  | [], rest, fails => rest = [] ∧ fails = false
  | l :: lines, rest, fails => SentWell l ∧ (isQuit (lineBody l) = true ∨ WellSent lines rest fails)

theorem cutLines_spec (bytes : List Char) : fileOf (cutLines bytes).1 ++ (cutLines bytes).2 = bytes ∧
    (∀ l ∈ (cutLines bytes).1, '\n' ∉ l) ∧ '\n' ∉ (cutLines bytes).2 := by
  induction bytes with
  | nil => exact ⟨rfl, by simp [cutLines], by simp [cutLines]⟩
  | cons c bytes ih =>
    obtain ⟨hbytes, hlines, hrest⟩ := ih
    rw [cutLines]
    by_cases hc : c = '\n'
    · simp only [hc, if_true]
      refine ⟨by simp [hbytes], ?_, hrest⟩
      intro l hl
      rcases List.mem_cons.1 hl with rfl | hl
      · exact List.not_mem_nil
      · exact hlines l hl
    · simp only [hc, if_false]
      have hne : ¬ '\n' = c := Ne.symm hc
      cases hcut : (cutLines bytes).1 with
      | nil =>
        rw [hcut] at hbytes
        refine ⟨congrArg (c :: ·) hbytes, by simp, ?_⟩
        simp only [List.mem_cons, not_or]
        exact ⟨hne, hrest⟩
      | cons l lines =>
        rw [hcut] at hbytes hlines
        refine ⟨congrArg (c :: ·) hbytes, ?_, hrest⟩
        intro x hx
        rcases List.mem_cons.1 hx with rfl | hx
        · simp only [List.mem_cons, not_or]
          exact ⟨hne, hlines l (by simp)⟩
        · exact hlines x (by simp [hx])

/-! One round. -/

/-- Cutting off the last character of the C string in a buffer. -/
theorem cut_last {buf : List Char} {t : CStr} {c : Char} (h : cstr buf 0 = t ++ [c]) :
    ∃ more, buf.set ((cstr buf 0).length - 1) NUL = t ++ NUL :: more ∧ NUL ∉ t := by
  have hbuf : buf = (t ++ [c]) ++ buf.dropWhile (· != NUL) := by
    rw [← h, cstr, List.drop_zero, List.takeWhile_append_dropWhile]
  have hnul : NUL ∉ t ++ [c] := by
    rw [← h, cstr, List.drop_zero]
    intro hm
    simpa using List.mem_takeWhile_imp hm
  refine ⟨buf.dropWhile (· != NUL), ?_, fun hm => hnul (by simp [hm])⟩
  have hlen : (cstr buf 0).length - 1 = t.length := by
    rw [h]
    simp
  rw [hlen]
  conv_lhs => rw [hbuf]
  simp

/-- A round that reads something and finds a request. -/
theorem requestLoop_request {ssock ssock' : Stream} {request buf : List Char} {rc : Int} {t : CStr}
    {c : Char} (hread : readline request MAX_LEN ssock = (rc, buf, ssock')) (hrc : rc ≠ recvNodata)
    (h : cstr buf 0 = t ++ [c]) :
    ∃ request', ∀ n, requestLoop (n + 1) ssock request =
      if isQuit t then ([⟨t, ssock'.bytes⟩], .quit)
      else (⟨t, ssock'.bytes⟩ :: (requestLoop n ssock' request').1, (requestLoop n ssock' request').2) := by
  obtain ⟨more, hset, hnul⟩ := cut_last h
  have hpos : (cstr buf 0).length ≠ 0 := by
    rw [h]
    simp
  have htext : cstr (t ++ NUL :: more) 0 = t := cstr_zero_append hnul
  have hwords : tokenStrings (strTokenize (t ++ NUL :: more) t.length) = wordsOf t := by
    rw [strTokenize_tokens hnul (by simp [cstr]) (le_refl _), Cut.cutAt_of_length_le _ _ _ (le_refl _)]
    rfl
  refine ⟨(strTokenize (t ++ NUL :: more) t.length).1, fun n => ?_⟩
  rw [requestLoop, hread]
  simp only [hrc, if_false, hpos, hset, htext, hwords, isQuit, decide_eq_true_eq]

theorem requestLoop_outside {n : Nat} {ssock ssock' : Stream} {request buf : List Char} {rc : Int}
    (hread : readline request MAX_LEN ssock = (rc, buf, ssock')) (hrc : rc ≠ recvNodata)
    (h : cstr buf 0 = []) : requestLoop (n + 1) ssock request = ([], .outside) := by
  rw [requestLoop, hread]
  simp [hrc, h]

/-- The first round of a loop that ends. -/
theorem requestLoop_first {n : Nat} {ssock ssock' : Stream} {request buf : List Char} {rc : Int}
    {handled : List Handled} {e : LoopEnd} (hloop : requestLoop n ssock request = (handled, e))
    (he : e = .nodata ∨ e = .quit) (hread : readline request MAX_LEN ssock = (rc, buf, ssock'))
    (hrc : rc ≠ recvNodata) :
    ∃ t c, cstr buf 0 = t ++ [c] ∧
      ((isQuit t = true ∧ handled = [⟨t, ssock'.bytes⟩]) ∨
        (isQuit t = false ∧ ∃ hs m request',
          handled = ⟨t, ssock'.bytes⟩ :: hs ∧ requestLoop m ssock' request' = (hs, e))) := by
  cases n with
  | zero =>
    obtain ⟨-, rfl⟩ := Prod.mk.inj hloop
    simp at he
  | succ n =>
    rcases List.eq_nil_or_concat (cstr buf 0) with hnil | ⟨t, c, ht⟩
    · rw [requestLoop_outside hread hrc hnil] at hloop
      obtain ⟨-, rfl⟩ := Prod.mk.inj hloop
      simp at he
    · rw [List.concat_eq_append] at ht
      obtain ⟨request', hround⟩ := requestLoop_request hread hrc ht
      rw [hround n] at hloop
      refine ⟨t, c, ht, ?_⟩
      cases hq : isQuit t with
      | true =>
        rw [hq, if_pos rfl] at hloop
        exact Or.inl ⟨rfl, (Prod.mk.inj hloop).1.symm⟩
      | false =>
        rw [hq, if_neg (by simp)] at hloop
        obtain ⟨rfl, rfl⟩ := Prod.mk.inj hloop
        exact Or.inr ⟨rfl, _, n, request', rfl, rfl⟩

/-- Only the end of file at the first byte is `recv_nodata`. -/
theorem readline_ne_nodata {buf bytes : List Char} {fails : Bool} (h : ¬(bytes = [] ∧ fails = false)) :
    (readline buf MAX_LEN ⟨bytes, fails⟩).1 ≠ recvNodata := by
  have hlen : ∀ line : List Char, (line.length : Int) ≠ recvNodata := by
    intro line
    unfold recvNodata
    omega
  cases fails with
  | true => exact (readline_fails buf MAX_LEN bytes).1
  | false =>
    obtain ⟨c, r, rfl⟩ := List.exists_cons_of_ne_nil (fun hb => h ⟨hb, rfl⟩)
    have hmax : MAX_LEN = 1023 + 1 := rfl
    rw [readline, hmax, takeLine]
    by_cases hc : c = '\n'
    · rw [if_pos hc]
      exact hlen _
    · rw [if_neg hc]
      rcases takeLine 1023 r false with ⟨line, rest, e⟩
      cases e with
      | newline => exact hlen _
      | full => exact hlen _
      | error =>
        dsimp only
        decide
      | eof =>
        dsimp only
        rw [if_neg (by simp)]
        exact hlen _

/-! Whole connections. -/

theorem HandledLines.unread_lt {ls : List CStr} {rest : CStr} {hs : List Handled}
    (h : HandledLines ls rest hs) : ∀ x ∈ hs, x.unread.length < (fileOf ls ++ rest).length := by
  have hlt : ∀ (l : CStr) (ls : List CStr),
      (fileOf ls ++ rest).length < (fileOf (l :: ls) ++ rest).length := by
    intro l ls
    simp only [fileOf_cons, List.length_append, List.length_cons]
    omega
  induction h with
  | nil => simp
  | @line l rest ls hs _ _ ih =>
    intro x hx
    rcases List.mem_cons.1 hx with rfl | hx
    · exact hlt l ls
    · exact (ih hlt x hx).trans (hlt l ls)
  | @quit l rest ls _ =>
    intro x hx
    obtain rfl := List.mem_singleton.1 hx
    exact hlt l ls
  | @refused l rest ls hs _ _ ih =>
    intro x hx
    exact (ih hlt x hx).trans (hlt l ls)

/-- A request that was handled when everything behind the first line was unread, or more, is the
    first line. -/
theorem HandledLines.first {l rest : CStr} {ls : List CStr} {x : Handled} {hs : List Handled}
    (h : HandledLines (l :: ls) rest (x :: hs)) (hx : (fileOf ls ++ rest).length ≤ x.unread.length) :
    x = ⟨lineBody l, fileOf ls ++ rest⟩ ∧
      ((isQuit (lineBody l) = true ∧ hs = []) ∨ (isQuit (lineBody l) = false ∧ HandledLines ls rest hs)) := by
  cases h with
  | line hq h => exact ⟨rfl, Or.inr ⟨hq, h⟩⟩
  | quit hq => exact ⟨rfl, Or.inl ⟨hq, rfl⟩⟩
  | refused _ h =>
    have := h.unread_lt x (by simp)
    omega

/-- What a buffer holds after a line. -/
theorem cstr_line (l more : List Char) : cstr (l ++ NUL :: more) 0 = l.takeWhile (· != NUL) := by
  rw [cstr, List.drop_zero]
  induction l with
  | nil => simp
  | cons c l ih =>
    rw [List.cons_append, List.takeWhile_cons, List.takeWhile_cons, ih]

theorem lineBody_cr (text : CStr) : lineBody (text ++ ['\r']) = text := by
  rw [lineBody, List.getLast?_concat, if_pos rfl, List.dropLast_concat]

/-- The text is the first line's when the line ends with "\r\n" and holds no NUL. -/
theorem lineBody_eq_cut {l t : CStr} {c : Char} (h : l.takeWhile (· != NUL) = t ++ [c])
    (ht : t = lineBody l) : l = t ++ ['\r'] ∧ NUL ∉ t := by
  have hnul : NUL ∉ t := by
    intro hm
    have hmem : NUL ∈ l.takeWhile (· != NUL) := by
      rw [h]
      exact List.mem_append_left _ hm
    simpa using List.mem_takeWhile_imp hmem
  refine ⟨?_, hnul⟩
  by_cases hcr : l.getLast? = some '\r'
  · obtain ⟨text, rfl⟩ := List.getLast?_eq_some_iff.1 hcr
    rw [lineBody_cr] at ht
    rw [ht]
  · -- nothing but a "\r" is cut off by `lineBody`, and the loop cuts off one character more
    rw [lineBody, if_neg hcr] at ht
    have hle := (List.takeWhile_prefix (p := (· != NUL)) (l := l)).length_le
    rw [h, ht, List.length_append, List.length_singleton] at hle
    omega

theorem framedLines_nil_iff {request : List Char} {rest : CStr} {fails : Bool} :
    FramedLines request [] rest fails ↔ rest = [] ∧ fails = false := by
  constructor
  · intro h
    obtain ⟨n, handled, e, hloop, he, hhandled⟩ := h
    by_contra hbad
    rcases hread : readline request MAX_LEN ⟨fileOf [] ++ rest, fails⟩ with ⟨rc, buf, ssock'⟩
    have hrc : rc ≠ recvNodata := by
      have := @readline_ne_nodata request (fileOf [] ++ rest) fails hbad
      rwa [hread] at this
    obtain ⟨t, c, -, hfirst⟩ := requestLoop_first hloop he hread hrc
    cases hhandled
    rcases hfirst with ⟨-, hnil⟩ | ⟨-, _, _, _, hnil, -⟩
    · cases hnil
    · cases hnil
  · intro h
    obtain ⟨rfl, rfl⟩ := h
    refine ⟨1, [], .nodata, ?_, Or.inl rfl, .nil⟩
    have hread : readline request MAX_LEN ⟨fileOf [] ++ [], false⟩ = (recvNodata, request, ⟨[], false⟩) :=
      readline_eof (by decide)
    rw [requestLoop, hread]
    rfl

/-- The first line is handled as it was sent, and the loop ends there or goes on with the lines behind it. -/
theorem FramedLines.first {request : List Char} {l : CStr} {lines : List CStr} {rest : CStr} {fails : Bool}
    (h : FramedLines request (l :: lines) rest fails) (hl : '\n' ∉ l) : SentWell l ∧
      (isQuit (lineBody l) = true ∨ ∃ request', FramedLines request' lines rest fails) := by
  have hbytes : fileOf (l :: lines) ++ rest = l ++ '\n' :: (fileOf lines ++ rest) := by simp
  obtain ⟨n, handled, e, hloop, he, hhandled⟩ := h
  rcases hread : readline request MAX_LEN ⟨fileOf (l :: lines) ++ rest, fails⟩ with ⟨rc, buf, ssock'⟩
  have hrc : rc ≠ recvNodata := by
    have := @readline_ne_nodata request (fileOf (l :: lines) ++ rest) fails (by simp)
    rwa [hread] at this
  obtain ⟨t, c, ht, hfirst⟩ := requestLoop_first hloop he hread hrc
  obtain ⟨hs, rfl⟩ : ∃ hs, handled = ⟨t, ssock'.bytes⟩ :: hs := by
    rcases hfirst with ⟨-, h⟩ | ⟨-, hs, _, _, h, -⟩
    · exact ⟨[], h⟩
    · exact ⟨hs, h⟩
  rw [hbytes] at hread
  by_cases hlen : l.length < MAX_LEN
  · rw [readline_line hl hlen] at hread
    obtain ⟨-, rfl, rfl⟩ := hread
    obtain ⟨hx, hrest⟩ := hhandled.first (le_refl _)
    have hbody : t = lineBody l := congrArg Handled.text hx
    rw [cstr_line] at ht
    obtain ⟨hcr, hnul⟩ := lineBody_eq_cut ht hbody
    refine ⟨⟨t, hcr, hnul, hlen⟩, ?_⟩
    rcases hrest with ⟨hq, -⟩ | ⟨hq, hrest⟩
    · exact Or.inl hq
    · rcases hfirst with ⟨hq', -⟩ | ⟨-, hs', m, request', hhs, hloop'⟩
      · rw [hbody, hq] at hq'
        cases hq'
      · obtain rfl := (List.cons.inj hhs).2
        exact Or.inr ⟨request', m, hs, e, hloop', he, hrest⟩
  · -- the first request is read from a full buffer: part of its line is still unread
    have hunread : ssock'.bytes = l.drop MAX_LEN ++ '\n' :: (fileOf lines ++ rest) := by
      rw [readline, takeLine_long hl _ _ (Nat.le_of_not_lt hlen)] at hread
      exact (congrArg (fun r => r.2.2.bytes) hread).symm
    have hle : (fileOf lines ++ rest).length < ssock'.bytes.length := by
      rw [hunread]
      simp only [List.length_append, List.length_cons]
      omega
    obtain ⟨hx, -⟩ := hhandled.first (Nat.le_of_lt hle)
    have heq : ssock'.bytes = fileOf lines ++ rest := congrArg Handled.unread hx
    rw [heq] at hle
    exact absurd hle (Nat.lt_irrefl _)

/-- The other way round. -/
theorem FramedLines.cons {l : CStr} {lines : List CStr} {rest : CStr} {fails : Bool} (hl : '\n' ∉ l)
    (hsent : SentWell l) (h : isQuit (lineBody l) = true ∨ ∀ request', FramedLines request' lines rest fails)
    (request : List Char) : FramedLines request (l :: lines) rest fails := by
  obtain ⟨text, htext, hnul, hlen⟩ := hsent
  have hbytes : fileOf (l :: lines) ++ rest = l ++ '\n' :: (fileOf lines ++ rest) := by simp
  have hread : readline request MAX_LEN ⟨l ++ '\n' :: (fileOf lines ++ rest), fails⟩ = _ :=
    readline_line hl hlen
  rw [← hbytes] at hread
  have hcut : cstr (l ++ NUL :: request.drop (l.length + 1)) 0 = text ++ ['\r'] := by
    rw [cstr_line, htext, List.takeWhile_eq_self_iff]
    intro x hx
    rcases List.mem_append.1 hx with hx | hx
    · simp only [bne_iff_ne, ne_eq]
      rintro rfl
      exact hnul hx
    · obtain rfl := List.mem_singleton.1 hx
      decide
  have hrc : (l.length : Int) ≠ recvNodata := by
    unfold recvNodata
    omega
  have hbody : lineBody l = text := by rw [htext, lineBody_cr]
  obtain ⟨request', hround⟩ := requestLoop_request hread hrc hcut
  cases hq : isQuit text with
  | true =>
    have hone := hround 0
    rw [hq, if_pos rfl] at hone
    refine ⟨1, _, _, hone, Or.inr rfl, ?_⟩
    rw [← hbody] at hq ⊢
    exact .quit hq
  | false =>
    have hrest : ∀ request', FramedLines request' lines rest fails := by
      apply h.resolve_left
      rw [hbody, hq]
      simp
    obtain ⟨m, hs, e, hloop, he, hhandled⟩ := hrest request'
    have hmore := hround m
    rw [hq, if_neg (by simp)] at hmore
    dsimp only at hmore
    rw [hloop] at hmore
    refine ⟨m + 1, _, _, hmore, he, ?_⟩
    rw [← hbody] at hq ⊢
    exact .line hq hhandled

theorem framedLines_iff {lines : List CStr} {rest : CStr} (fails : Bool) (hlines : ∀ l ∈ lines, '\n' ∉ l)
    (request : List Char) : FramedLines request lines rest fails ↔ WellSent lines rest fails := by
  induction lines generalizing request with
  | nil => exact framedLines_nil_iff
  | cons l lines ih =>
    have hl : '\n' ∉ l := hlines l (by simp)
    have hls : ∀ x ∈ lines, '\n' ∉ x := fun x hx => hlines x (by simp [hx])
    constructor
    · intro h
      obtain ⟨hsent, hrest⟩ := h.first hl
      refine ⟨hsent, hrest.imp_right ?_⟩
      intro hnext
      obtain ⟨request', hnext⟩ := hnext
      exact (ih hls request').1 hnext
    · intro h
      obtain ⟨hsent, hrest⟩ := h
      refine FramedLines.cons hl hsent (hrest.imp_right ?_) request
      intro hwell request'
      exact (ih hls request').2 hwell

/-- **The requests handled are the lines sent** exactly when every line up to the first QUIT ends
    with "\r\n", has at most 1022 characters before it and no NUL among them, and, without a
    QUIT, the connection ends with an end of file behind a line. -/
theorem framed_iff (request bytes : List Char) (fails : Bool) :
    Framed request bytes fails ↔ WellSent (cutLines bytes).1 (cutLines bytes).2 fails :=
  framedLines_iff fails (cutLines_spec bytes).2.1 request

/-- A line that ends with "\n" alone is handled without its last character. -/
theorem newline_loses_character :
    requestLoop 2 ⟨"READ 12\n".toList, false⟩ [] = ([⟨"READ 1".toList, []⟩], .nodata) ∧
      ¬ Framed [] "READ 12\n".toList false := by
  refine ⟨by decide +kernel, fun h => ?_⟩
  obtain ⟨⟨text, htext, -⟩, -⟩ := (framedLines_iff false (cutLines_spec _).2.1 []).1 h
  have hlast := congrArg List.getLast? htext
  rw [List.getLast?_concat] at hlast
  exact absurd hlast (by decide)

end BulletinBoard
