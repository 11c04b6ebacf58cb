import SBUnix.Keyboard.Bounds

/-
  Processes that read lines (`getstring`).

  `init_keyboard`, a round of the wait and the copy are steps of a process, an interrupt is a step of
  the keyboard. The wait tests `keyboard_flag`, which is not volatile, so that how often it reads the
  flag is the compiler's choice (`FlagLoad`). The steps are numbered, and beside the globals a
  `System` keeps what they do not record: which step wrote each byte of the buffer, the characters
  typed since the last ENTER or `init_keyboard`, and what the calls returned. So two lines with the
  same text differ.

  Nothing keeps a second process out of `getstring`: the line of an ENTER stays in the buffer until
  the next `init_keyboard`, whoever calls it, and every copy before that returns it
  (`returned_count`).
-/

namespace SBUnix.Keyboard

open ByteMem Steps

/-- Where a process is in `getstring`: waiting with the flag still to be read, or in the loop that
    does not read it again. -/
inductive Pc where
  | idle
  | waiting
  | spinning
  | ready
  deriving DecidableEq, Repr

/-- How `while (keyboard_flag != 1)` is compiled. At `-O1`, as the Makefile has it, the flag is
    loaded once in front of the loop; without optimisation it is loaded in every round. -/
inductive FlagLoad where
  | once
  | everyRound
  deriving DecidableEq, Repr

/-- A byte and the step that wrote it. -/
abbrev Cell := Byte × Nat

structure System (P : Type) where
  globals : Globals
  pc : P → Pc
  now : Nat
  origin : Int → Nat
  typed : List Cell
  returned : List (P × List Cell)

/-- What happens: a step of a process, or a key. -/
inductive Action (P : Type) where
  | initKeyboard (p : P)
  | test (p : P)
  | copy (p : P)
  | key (code : Byte)
  deriving DecidableEq

/-- The bytes that `strcpy` reads from `i` on, the NUL included. -/
def readCells (buffer : Int → Byte) (origin : Int → Nat) : Nat → Int → Option (List Cell)
  | 0, _ => none
  | fuel + 1, i =>
    if buffer i = 0 then some [(buffer i, origin i)]
    else (readCells buffer origin fuel (i + 1)).map fun cells => (buffer i, origin i) :: cells

section System

variable {P : Type} [DecidableEq P]

/-- The string in the buffer; its length is an `int`. -/
def System.line (s : System P) : Option (List Cell) :=
  readCells s.globals.buffer s.origin (2 ^ 31) 0

def System.setPc (s : System P) (p : P) (pc : Pc) : System P :=
  { s with pc := Function.update s.pc p pc, now := s.now + 1 }

/-- The interrupt, with the byte that it stored and the character that was typed. -/
def System.press (s : System P) (code : Byte) : System P :=
  let globals := keyboardInterrupt code s.globals
  { s with
    globals := globals
    now := s.now + 1
    origin := fun i => if globals.stores = i :: s.globals.stores then s.now else s.origin i
    typed :=
      if hexToChar code = kbEnter then []
      else if hexToChar code ≠ 0 then s.typed ++ [(hexToChar code, s.now)]
      else s.typed }

/-- Where a test of the flag leads. -/
def FlagLoad.tested (load : FlagLoad) (flag : Bool) : Pc :=
  if flag then .ready
  else
    match load with
    | once => .spinning
    | everyRound => .waiting

/-- A step, where it is possible. `test` is a round of the wait, with the test of the flag or, in the
    loop behind a flag that was loaded once, without. -/
def act (load : FlagLoad) (s : System P) : Action P → Option (System P)
  | .initKeyboard p =>
    if s.pc p = .idle then
      some { s.setPc p .waiting with
        globals := Keyboard.initKeyboard s.globals
        origin := fun i => if i = 0 then s.now else s.origin i
        typed := [] }
    else none
  | .test p =>
    if s.pc p = .waiting then some (s.setPc p (load.tested s.globals.keyboardFlag))
    else if s.pc p = .spinning then some (s.setPc p .spinning)
    else none
  | .copy p =>
    if s.pc p = .ready then
      s.line.map fun cells => { s.setPc p .idle with returned := (p, cells) :: s.returned }
    else none
  | .key code => some (s.press code)

/-- A step that does not overrun the buffer. -/
def ReaderStep (load : FlagLoad) (s : System P) (a : Action P) (s' : System P) : Prop :=
  (∀ code, a = .key code → Room s.globals (.keyboardInterrupt code)) ∧ act load s a = some s'

/-- The system before the first step. -/
def bootSystem (mem : Int → Byte) : System P :=
  ⟨boot mem, fun _ => .idle, 1, fun _ => 0, [], []⟩

/-- A round of the wait moves its process, and nothing else. -/
theorem act_test {load : FlagLoad} {s s' : System P} {p : P} (h : act load s (.test p) = some s') :
    ∃ pc, s' = s.setPc p pc := by
  simp only [act] at h
  split_ifs at h <;> exact ⟨_, (Option.some.inj h).symm⟩

/-- The copies that come before the next `init_keyboard`. -/
def copiesBeforeInit : List (Action P) → Nat
  | [] => 0
  | .initKeyboard _ :: _ => 0
  | .copy _ :: as => 1 + copiesBeforeInit as
  | .test _ :: as => copiesBeforeInit as
  | .key _ :: as => copiesBeforeInit as

/-! ## Reading the buffer -/

/-- The cells `text`, and a NUL behind them. -/
theorem readCells_eq {buffer : Int → Byte} {origin : Int → Nat} {fuel : Nat} {i : Int}
    {text : List Cell} (htext : ∀ j (hj : j < text.length),
      buffer (i + j) = (text[j]).1 ∧ origin (i + j) = (text[j]).2)
    (hchar : ∀ c ∈ text, c.1 ≠ 0) (hnul : buffer (i + text.length) = 0)
    (hfuel : text.length < fuel) :
    readCells buffer origin fuel i = some (text ++ [(0, origin (i + text.length))]) := by
  induction text generalizing fuel i with
  | nil =>
    obtain ⟨n, rfl⟩ := Nat.exists_eq_succ_of_ne_zero (Nat.ne_of_gt hfuel)
    have hnul' : buffer i = 0 := by simpa using hnul
    simp [readCells, hnul']
  | cons c text ih =>
    obtain ⟨n, rfl⟩ := Nat.exists_eq_succ_of_ne_zero (Nat.ne_of_gt (Nat.zero_lt_of_lt hfuel))
    obtain ⟨hbyte, horigin⟩ := htext 0 (by simp)
    simp only [Nat.cast_zero, Int.add_zero, List.getElem_cons_zero] at hbyte horigin
    have hne : buffer i ≠ 0 := by
      rw [hbyte]
      exact hchar c List.mem_cons_self
    have hshift : ∀ j : Nat, i + 1 + (j : Int) = i + ((j + 1 : Nat) : Int) := fun j => by
      push_cast
      omega
    have hrest : readCells buffer origin n (i + 1) = _ := ih (fun j hj => by
        rw [hshift]
        exact htext (j + 1) (by simpa using hj))
      (fun c hc => hchar c (List.mem_cons_of_mem _ hc)) (by
        rw [hshift]
        exact hnul) (by simpa using hfuel)
    rw [readCells, if_neg hne, hrest, hshift, Option.map_some, hbyte, horigin]
    rfl

/-- What is read starts with the byte at the start. -/
theorem readCells_head {buffer : Int → Byte} {origin : Int → Nat} {fuel : Nat} {i : Int}
    {cells : List Cell} (h : readCells buffer origin fuel i = some cells) :
    ∃ c rest, cells = c :: rest ∧ c.2 = origin i := by
  cases fuel with
  | zero => cases h
  | succ fuel =>
    rw [readCells] at h
    split_ifs at h
    · exact ⟨_, [], (Option.some.inj h).symm, rfl⟩
    · obtain ⟨rest, -, hcells⟩ := Option.map_eq_some_iff.mp h
      exact ⟨_, rest, hcells.symm, rfl⟩

/-- What is read was written by steps of the run. -/
theorem readCells_old {buffer : Int → Byte} {origin : Int → Nat} {fuel now : Nat} {i : Int}
    {cells : List Cell} (hold : ∀ j, origin j < now)
    (h : readCells buffer origin fuel i = some cells) : ∀ c ∈ cells, c.2 < now := by
  induction fuel generalizing i cells with
  | zero => cases h
  | succ fuel ih =>
    rw [readCells] at h
    intro c hc
    split_ifs at h
    · obtain rfl := Option.some.inj h
      obtain rfl := List.mem_singleton.mp hc
      exact hold i
    · obtain ⟨rest, hrest, rfl⟩ := Option.map_eq_some_iff.mp h
      obtain rfl | hc := List.mem_cons.mp hc
      · exact hold i
      · exact ih hrest c hc

/-! ## The invariant -/

/-- A byte stored at `key_count` by this step. -/
def System.stored (s : System P) : Int → Nat :=
  fun i => if i = s.globals.keyCount then s.now else s.origin i

omit [DecidableEq P] in
/-- What a key does: an ENTER, a character that is stored, or nothing in the buffer. -/
theorem press_cases (s : System P) (code : Byte) :
    (hexToChar code = kbEnter ∧ s.press code =
        { s with globals := { s.globals.push 0 with keyboardFlag := true }, now := s.now + 1,
                 origin := s.stored, typed := [] }) ∨
      (hexToChar code ≠ kbEnter ∧ hexToChar code ≠ 0 ∧ s.globals.keyCount < 256 ∧ s.press code =
        { s with globals := s.globals.push (hexToChar code), now := s.now + 1,
                 origin := s.stored, typed := s.typed ++ [(hexToChar code, s.now)] }) ∨
      (hexToChar code ≠ kbEnter ∧ (hexToChar code ≠ 0 → 256 ≤ s.globals.keyCount) ∧ s.press code =
        { s with now := s.now + 1,
                 typed := if hexToChar code ≠ 0 then s.typed ++ [(hexToChar code, s.now)]
                   else s.typed }) := by
  have hpush : ∀ b : Byte, (fun i => if (s.globals.push b).stores = i :: s.globals.stores then s.now
      else s.origin i) = s.stored := by
    intro b
    funext i
    unfold System.stored Globals.push
    simp only [List.cons.injEq, and_true, eq_comm]
  obtain ⟨henter, hk⟩ | ⟨henter, hzero, hroom, hk⟩ | ⟨henter, hfull, hk⟩ :=
    keyboardInterrupt_cases code s.globals
  · refine Or.inl ⟨henter, ?_⟩
    unfold System.press
    simp only [hk, henter, if_true, ← hpush 0]
  · refine Or.inr (Or.inl ⟨henter, hzero, hroom, ?_⟩)
    unfold System.press
    simp only [hk, henter, if_false, if_pos hzero, ← hpush (hexToChar code)]
  · refine Or.inr (Or.inr ⟨henter, hfull, ?_⟩)
    have hsame : ∀ i, s.globals.stores ≠ i :: s.globals.stores := fun i h => by
      have := congrArg List.length h
      simp at this
    unfold System.press
    simp only [hk, henter, if_false, hsame]

/-- What holds in every state of a run. -/
structure Inv (s : System P) : Prop where
  bounded : Bounded s.globals
  origin : ∀ i, s.origin i < s.now
  typed : ∀ c ∈ s.typed, c.1 ≠ 0 ∧ c.2 < s.now
  returned : ∀ r ∈ s.returned, ∀ c ∈ r.2, c.2 < s.now
  first : s.globals.keyboardFlag = false →
    s.globals.keyCount = (min s.typed.length 256 : Nat) ∧
      ∀ j (hj : j < s.typed.length), j < 256 →
        s.globals.buffer j = (s.typed[j]).1 ∧ s.origin j = (s.typed[j]).2
  later : s.globals.keyboardFlag = true →
    1 ≤ s.globals.keyCount ∧ ∀ c ∈ s.typed, s.origin 0 < c.2

section Press

variable {s : System P} {b : Byte}

omit [DecidableEq P]

theorem Inv.stored (h : Inv s) (i : Int) : s.stored i < s.now + 1 := by
  have horigin := h.origin i
  unfold System.stored
  split_ifs <;> omega

theorem Inv.typed_push (h : Inv s) (hb : b ≠ 0) :
    ∀ c ∈ s.typed ++ [(b, s.now)], c.1 ≠ 0 ∧ c.2 < s.now + 1 := by
  intro c hc
  obtain hc | hc := List.mem_append.mp hc
  · have htyped := h.typed c hc
    exact ⟨htyped.1, by omega⟩
  · obtain rfl := List.mem_singleton.mp hc
    exact ⟨hb, Nat.lt_succ_self _⟩

theorem Inv.later_push (h : Inv s) (hflag : s.globals.keyboardFlag = true) :
    ∀ c ∈ s.typed ++ [(b, s.now)], s.origin 0 < c.2 := by
  intro c hc
  obtain hc | hc := List.mem_append.mp hc
  · exact (h.later hflag).2 c hc
  · obtain rfl := List.mem_singleton.mp hc
    exact h.origin 0

/-- In the first line a character is stored behind the others. -/
theorem Inv.first_push (h : Inv s) (hflag : s.globals.keyboardFlag = false)
    (hroom : s.globals.keyCount < 256) :
    (s.globals.push b).keyCount = (min (s.typed ++ [(b, s.now)]).length 256 : Nat) ∧
      ∀ j (hj : j < (s.typed ++ [(b, s.now)]).length), j < 256 →
        (s.globals.push b).buffer j = ((s.typed ++ [(b, s.now)])[j]).1 ∧
          s.stored j = ((s.typed ++ [(b, s.now)])[j]).2 := by
  obtain ⟨hlen, hcells⟩ := h.first hflag
  refine ⟨?_, fun j hj hj' => ?_⟩
  · have hcount := incInt_of_lt h.bounded.count.1
      (show s.globals.keyCount < 2 ^ 31 - 1 by omega)
    show incInt s.globals.keyCount = _
    rw [List.length_append, List.length_singleton]
    omega
  · show (if (j : Int) = s.globals.keyCount then _ else _) = _ ∧ s.stored j = _
    unfold System.stored
    rw [List.length_append, List.length_singleton] at hj
    by_cases hjlen : j < s.typed.length
    · rw [if_neg (by omega), if_neg (by omega), List.getElem_append_left hjlen]
      exact hcells j hjlen hj'
    · rw [if_pos (by omega), if_pos (by omega), List.getElem_append_right (not_lt.mp hjlen)]
      simp

/-- Behind 256 characters nothing is stored. -/
theorem Inv.first_full (h : Inv s) (hflag : s.globals.keyboardFlag = false)
    (hfull : 256 ≤ s.globals.keyCount) :
    s.globals.keyCount = (min (s.typed ++ [(b, s.now)]).length 256 : Nat) ∧
      ∀ j (hj : j < (s.typed ++ [(b, s.now)]).length), j < 256 →
        s.globals.buffer j = ((s.typed ++ [(b, s.now)])[j]).1 ∧
          s.origin j = ((s.typed ++ [(b, s.now)])[j]).2 := by
  obtain ⟨hlen, hcells⟩ := h.first hflag
  refine ⟨?_, fun j hj hj' => ?_⟩
  · rw [List.length_append, List.length_singleton]
    omega
  · have hjlen : j < s.typed.length := by omega
    rw [List.getElem_append_left hjlen]
    exact hcells j hjlen hj'

theorem Inv.press (h : Inv s) {code : Byte}
    (hroom : hexToChar code = kbEnter → s.globals.keyCount < 256) : Inv (s.press code) := by
  obtain ⟨h₀, hle⟩ := h.bounded.count
  have hbounded : Bounded (s.press code).globals :=
    (h.bounded.step_iff (.keyboardInterrupt code)).mpr hroom
  have hreturned : ∀ r ∈ s.returned, ∀ c ∈ r.2, c.2 < s.now + 1 := fun r hr c hc =>
    (h.returned r hr c hc).trans (Nat.lt_succ_self _)
  obtain ⟨henter, hpress⟩ | ⟨-, hzero, hlt, hpress⟩ | ⟨-, hfull, hpress⟩ := press_cases s code
  · have hcount := incInt_of_lt h₀ (show s.globals.keyCount < 2 ^ 31 - 1 by omega)
    rw [hpress] at hbounded ⊢
    refine ⟨hbounded, h.stored, by simp, hreturned, fun hflag => absurd hflag (by simp),
      fun _ => ⟨?_, by simp⟩⟩
    show 1 ≤ incInt s.globals.keyCount
    omega
  · have hcount := incInt_of_lt h₀ (show s.globals.keyCount < 2 ^ 31 - 1 by omega)
    rw [hpress] at hbounded ⊢
    refine ⟨hbounded, h.stored, h.typed_push hzero, hreturned, fun hflag => h.first_push hflag hlt,
      fun hflag => ⟨?_, fun c hc => ?_⟩⟩
    · show 1 ≤ incInt s.globals.keyCount
      omega
    · have hpos := (h.later hflag).1
      show s.stored 0 < c.2
      unfold System.stored
      rw [if_neg (by omega)]
      exact h.later_push hflag c hc
  · rw [hpress] at hbounded ⊢
    by_cases hzero : hexToChar code ≠ 0
    · simp only [if_pos hzero]
      exact ⟨hbounded, fun i => (h.origin i).trans (Nat.lt_succ_self _), h.typed_push hzero,
        hreturned, fun hflag => h.first_full hflag (hfull hzero),
        fun hflag => ⟨(h.later hflag).1, h.later_push hflag⟩⟩
    · simp only [if_neg hzero]
      exact ⟨hbounded, fun i => (h.origin i).trans (Nat.lt_succ_self _),
        fun c hc => ⟨(h.typed c hc).1, (h.typed c hc).2.trans (Nat.lt_succ_self _)⟩, hreturned,
        h.first, h.later⟩

end Press

theorem Inv.step {load : FlagLoad} {s s' : System P} {a : Action P} (h : Inv s)
    (hs : ReaderStep load s a s') : Inv s' := by
  obtain ⟨hroom, hact⟩ := hs
  cases a with
  | initKeyboard p =>
    simp only [act] at hact
    split_ifs at hact
    obtain rfl := Option.some.inj hact
    refine ⟨⟨⟨le_rfl, (by decide : (0 : Int) ≤ 256)⟩, h.bounded.stores⟩, fun i => ?_, by simp,
      fun r hr c hc => (h.returned r hr c hc).trans (Nat.lt_succ_self _),
      fun _ => ⟨rfl, fun j hj => absurd hj (Nat.not_lt_zero _)⟩, fun hflag => absurd hflag ?_⟩
    · show (if i = 0 then s.now else s.origin i) < s.now + 1
      have := h.origin i
      split_ifs <;> omega
    · exact Bool.false_ne_true
  | test p =>
    obtain ⟨pc, rfl⟩ := act_test hact
    exact ⟨h.bounded, fun i => (h.origin i).trans (Nat.lt_succ_self _),
      fun c hc => ⟨(h.typed c hc).1, (h.typed c hc).2.trans (Nat.lt_succ_self _)⟩,
      fun r hr c hc => (h.returned r hr c hc).trans (Nat.lt_succ_self _), h.first, h.later⟩
  | copy p =>
    simp only [act] at hact
    split_ifs at hact
    obtain ⟨cells, hcells, rfl⟩ := Option.map_eq_some_iff.mp hact
    refine ⟨h.bounded, fun i => (h.origin i).trans (Nat.lt_succ_self _),
      fun c hc => ⟨(h.typed c hc).1, (h.typed c hc).2.trans (Nat.lt_succ_self _)⟩,
      fun r hr c hc => ?_, h.first, h.later⟩
    obtain rfl | hr := List.mem_cons.mp hr
    · exact (readCells_old h.origin hcells c hc).trans (Nat.lt_succ_self _)
    · exact (h.returned r hr c hc).trans (Nat.lt_succ_self _)
  | key code =>
    obtain rfl := Option.some.inj hact
    exact h.press (hroom code rfl)

omit [DecidableEq P] in
theorem inv_boot (mem : Int → Byte) : Inv (bootSystem (P := P) mem) :=
  ⟨bounded_boot mem, fun _ => Nat.zero_lt_one, by simp [bootSystem], by simp [bootSystem],
    fun _ => ⟨rfl, fun j hj => absurd hj (Nat.not_lt_zero j)⟩, fun h => by cases h⟩

/-! ## One line -/

/-- How often the line was returned. -/
def System.times (s : System P) (l : List Cell) : Nat := (s.returned.map Prod.snd).count l

/-- The line that step `t` completed. -/
structure Line (l text : List Cell) (t : Nat) : Prop where
  eq : l = text ++ [(0, t)]
  chars : ∀ c ∈ text, c.1 ≠ 0 ∧ c.2 < t

/-- The line lies at the start of the buffer. -/
structure Kept (l : List Cell) (s : System P) : Prop where
  short : (l.length : Int) ≤ s.globals.keyCount
  cells : ∀ j (hj : j < l.length),
    s.globals.buffer j = (l[j]).1 ∧ s.origin j = (l[j]).2

/-- The start of the buffer is older than the line, and not stored to any more. -/
structure Behind (l : List Cell) (s : System P) : Prop where
  older : ∀ c ∈ l, s.origin 0 < c.2
  pos : 1 ≤ s.globals.keyCount

/-- The start of the buffer is older or newer than the line. -/
def Lost (l : List Cell) (t : Nat) (s : System P) : Prop := Behind l s ∨ t < s.origin 0

section Line

variable {load : FlagLoad} {s s' : System P} {l text : List Cell} {t : Nat} {a : Action P}
  {as : List (Action P)}

omit [DecidableEq P] in
theorem Kept.read (h : Kept l s) (hinv : Inv s) (hline : Line l text t) :
    s.line = some l := by
  obtain ⟨-, hle⟩ := hinv.bounded.count
  have hshort := h.short
  have hcells := h.cells
  rw [hline.eq, List.length_append, List.length_singleton] at hshort
  have hlast := h.cells text.length (by simp [hline.eq])
  have htext : ∀ j (hj : j < text.length),
      s.globals.buffer (0 + j) = (text[j]).1 ∧ s.origin (0 + j) = (text[j]).2 := by
    intro j hj
    have hcell := hcells j (by simp [hline.eq]; omega)
    simp only [hline.eq, List.getElem_append_left hj] at hcell
    rwa [Int.zero_add]
  simp only [hline.eq, List.getElem_concat_length] at hlast
  unfold System.line
  rw [readCells_eq htext (fun c hc => (hline.chars c hc).1) (by rw [Int.zero_add]; exact hlast.1)
    (by omega), Int.zero_add, hlast.2, hline.eq]

omit [DecidableEq P] in
theorem Kept.press (h : Kept l s) (hinv : Inv s) {code : Byte}
    (hroom : hexToChar code = kbEnter → s.globals.keyCount < 256) : Kept l (s.press code) := by
  obtain ⟨h₀, -⟩ := hinv.bounded.count
  have hshort := h.short
  -- a byte is stored behind the l
  have hpush : s.globals.keyCount < 256 → ∀ b, Kept l
      { s with globals := s.globals.push b, origin := s.stored } := by
    intro hlt b
    have hcount := incInt_of_lt h₀ (show s.globals.keyCount < 2 ^ 31 - 1 by omega)
    refine ⟨?_, fun j hj => ?_⟩
    · show (l.length : Int) ≤ incInt s.globals.keyCount
      omega
    · show (if (j : Int) = s.globals.keyCount then _ else _) = _ ∧ s.stored j = _
      unfold System.stored
      rw [if_neg (by omega), if_neg (by omega)]
      exact h.cells j hj
  obtain ⟨henter, hpress⟩ | ⟨-, -, hlt, hpress⟩ | ⟨-, -, hpress⟩ := press_cases s code
  · rw [hpress]
    exact ⟨(hpush (hroom henter) 0).short, (hpush (hroom henter) 0).cells⟩
  · rw [hpress]
    exact ⟨(hpush hlt _).short, (hpush hlt _).cells⟩
  · rw [hpress]
    exact ⟨h.short, h.cells⟩

omit [DecidableEq P] in
theorem Behind.press (h : Behind l s) (hinv : Inv s) {code : Byte}
    (hroom : hexToChar code = kbEnter → s.globals.keyCount < 256) : Behind l (s.press code) := by
  obtain ⟨h₀, -⟩ := hinv.bounded.count
  have hpos := h.pos
  have hpush : s.globals.keyCount < 256 → ∀ b, Behind l
      { s with globals := s.globals.push b, origin := s.stored } := by
    intro hlt b
    have hcount := incInt_of_lt h₀ (show s.globals.keyCount < 2 ^ 31 - 1 by omega)
    refine ⟨fun c hc => ?_, ?_⟩
    · show s.stored 0 < c.2
      unfold System.stored
      rw [if_neg (by omega)]
      exact h.older c hc
    · show 1 ≤ incInt s.globals.keyCount
      omega
  obtain ⟨henter, hpress⟩ | ⟨-, -, hlt, hpress⟩ | ⟨-, -, hpress⟩ := press_cases s code
  · rw [hpress]
    exact ⟨(hpush (hroom henter) 0).older, (hpush (hroom henter) 0).pos⟩
  · rw [hpress]
    exact ⟨(hpush hlt (hexToChar code)).older, (hpush hlt (hexToChar code)).pos⟩
  · rw [hpress]
    exact ⟨h.older, h.pos⟩

omit [DecidableEq P] in
theorem Lost.press (h : Lost l t s) (hinv : Inv s) (ht : t < s.now) {code : Byte}
    (hroom : hexToChar code = kbEnter → s.globals.keyCount < 256) :
    Lost l t (s.press code) := by
  obtain hbehind | hnew := h
  · exact Or.inl (hbehind.press hinv hroom)
  · right
    unfold System.press
    dsimp only
    split_ifs <;> omega

omit [DecidableEq P] in
theorem Lost.congr (h : Lost l t s) (horigin : s'.origin = s.origin)
    (hglobals : s'.globals = s.globals) : Lost l t s' := by
  unfold Lost
  rw [horigin]
  refine h.imp_left fun hbehind => ⟨fun c hc => ?_, ?_⟩
  · rw [horigin]
    exact hbehind.older c hc
  · rw [hglobals]
    exact hbehind.pos

omit [DecidableEq P] in
/-- A lost line is not what is read. -/
theorem Lost.read_ne (h : Lost l t s) (hline : Line l text t) : s.line ≠ some l := by
  intro hread
  obtain ⟨c, rest, rfl, hc⟩ := readCells_head hread
  obtain hbehind | hnew := h
  · have := hbehind.older c List.mem_cons_self
    omega
  · have hle : c.2 ≤ t := by
      have hmem : c ∈ text ++ [(0, t)] := by
        rw [← hline.eq]
        exact List.mem_cons_self
      obtain hmem | hmem := List.mem_append.mp hmem
      · exact (hline.chars c hmem).2.le
      · rw [List.mem_singleton.mp hmem]
    omega

theorem Lost.step (h : Lost l t s) (hinv : Inv s) (ht : t < s.now) (hline : Line l text t)
    (hs : ReaderStep load s a s') : Lost l t s' ∧ t < s'.now ∧ s'.times l = s.times l := by
  obtain ⟨hroom, hact⟩ := hs
  cases a with
  | initKeyboard p =>
    simp only [act] at hact
    split_ifs at hact
    obtain rfl := Option.some.inj hact
    exact ⟨Or.inr ht, Nat.lt_succ_of_lt ht, rfl⟩
  | test p =>
    obtain ⟨pc, rfl⟩ := act_test hact
    exact ⟨h.congr rfl rfl, Nat.lt_succ_of_lt ht, rfl⟩
  | copy p =>
    simp only [act] at hact
    split_ifs at hact
    obtain ⟨cells, hcells, rfl⟩ := Option.map_eq_some_iff.mp hact
    refine ⟨h.congr rfl rfl, Nat.lt_succ_of_lt ht, List.count_cons_of_ne ?_⟩
    rintro rfl
    exact h.read_ne hline hcells
  | key code =>
    obtain rfl := Option.some.inj hact
    exact ⟨h.press hinv ht (hroom code rfl), Nat.lt_succ_of_lt ht, rfl⟩

/-- A lost line is not returned any more. -/
theorem Lost.times_eq (hrun : Run (ReaderStep load) s as s') (h : Lost l t s) (hinv : Inv s)
    (ht : t < s.now) (hline : Line l text t) : s'.times l = s.times l := by
  induction hrun with
  | nil s => rfl
  | cons hstep _ ih =>
    obtain ⟨h₁, ht₁, htimes⟩ := h.step hinv ht hline hstep
    rw [ih h₁ (hinv.step hstep) ht₁, htimes]

/-- A line at the start of the buffer is returned by every copy, and lost with the next
    `init_keyboard`. -/
theorem Kept.times_eq (hrun : Run (ReaderStep load) s as s') (h : Kept l s) (hinv : Inv s)
    (ht : t < s.now) (hline : Line l text t) :
    s'.times l = s.times l + copiesBeforeInit as := by
  induction hrun with
  | nil s => rfl
  | @cons s s₁ s' a as hstep hrun ih =>
    have hinv₁ := hinv.step hstep
    obtain ⟨hroom, hact⟩ := hstep
    cases a with
    | initKeyboard p =>
      simp only [act] at hact
      split_ifs at hact
      obtain rfl := Option.some.inj hact
      have hlost := Lost.times_eq (l := l) hrun (Or.inr ht) hinv₁ (Nat.lt_succ_of_lt ht) hline
      exact hlost
    | test p =>
      obtain ⟨pc, rfl⟩ := act_test hact
      exact ih ⟨h.short, h.cells⟩ hinv₁ (Nat.lt_succ_of_lt ht)
    | copy p =>
      simp only [act] at hact
      split_ifs at hact
      obtain ⟨cells, hcells, rfl⟩ := Option.map_eq_some_iff.mp hact
      obtain rfl : cells = l := Option.some.inj (hcells.symm.trans (h.read hinv hline))
      rw [ih ⟨h.short, h.cells⟩ hinv₁ (Nat.lt_succ_of_lt ht), copiesBeforeInit, ← Nat.add_assoc]
      congr 1
      exact List.count_cons_self
    | key code =>
      obtain rfl := Option.some.inj hact
      exact ih (h.press hinv (hroom code rfl)) hinv₁ (Nat.lt_succ_of_lt ht)

omit [DecidableEq P] in
/-- The ENTER that follows an `init_keyboard` leaves its line at the start of the buffer. -/
theorem Inv.kept (h : Inv s) {code : Byte} (henter : hexToChar code = kbEnter)
    (hroom : s.globals.keyCount < 256) (hflag : s.globals.keyboardFlag = false) :
    Kept (s.typed ++ [(0, s.now)]) (s.press code) := by
  obtain ⟨h₀, -⟩ := h.bounded.count
  obtain ⟨hlen, hcells⟩ := h.first hflag
  have hcount := incInt_of_lt h₀ (show s.globals.keyCount < 2 ^ 31 - 1 by omega)
  obtain ⟨-, hpress⟩ | ⟨hne, -⟩ | ⟨hne, -⟩ := press_cases s code
  · rw [hpress]
    refine ⟨?_, fun j hj => ?_⟩
    · show _ ≤ incInt s.globals.keyCount
      rw [List.length_append, List.length_singleton]
      omega
    · show (if (j : Int) = s.globals.keyCount then _ else _) = _ ∧ s.stored j = _
      unfold System.stored
      rw [List.length_append, List.length_singleton] at hj
      by_cases hjlen : j < s.typed.length
      · rw [if_neg (by omega), if_neg (by omega), List.getElem_append_left hjlen]
        exact hcells j hjlen (by omega)
      · rw [if_pos (by omega), if_pos (by omega), List.getElem_append_right (not_lt.mp hjlen)]
        simp
  · exact absurd henter hne
  · exact absurd henter hne

omit [DecidableEq P] in
/-- The line of a further ENTER does not lie at the start of the buffer. -/
theorem Inv.behind (h : Inv s) {code : Byte} (hroom : hexToChar code = kbEnter →
    s.globals.keyCount < 256) (hflag : s.globals.keyboardFlag = true) :
    Behind (s.typed ++ [(0, s.now)]) (s.press code) := by
  obtain ⟨hpos, hold⟩ := h.later hflag
  refine Behind.press ⟨fun c hc => ?_, hpos⟩ h hroom
  obtain hc | hc := List.mem_append.mp hc
  · exact hold c hc
  · rw [List.mem_singleton.mp hc]
    exact h.origin 0

end Line

/-- A line completed by ENTER is returned by exactly the copies that come before the next
    `init_keyboard`, if it is the first one since the last `init_keyboard`, and by no call
    otherwise. -/
theorem returned_count (load : FlagLoad) (mem : Int → Byte) (before after : List (Action P))
    (s s₁ s' : System P) (code : Byte) (henter : hexToChar code = kbEnter)
    (hbefore : Run (ReaderStep load) (bootSystem mem) before s)
    (hkey : ReaderStep load s (.key code) s₁)
    (hafter : Run (ReaderStep load) s₁ after s') :
    s'.times (s.typed ++ [(0, s.now)]) =
      if s.globals.keyboardFlag then 0 else copiesBeforeInit after := by
  have hinv : Inv s := hbefore.invariant (fun _ _ _ hi hs => Inv.step hi hs) (inv_boot mem)
  have hinv₁ := hinv.step hkey
  obtain ⟨hroom, hact⟩ := hkey
  obtain rfl := Option.some.inj hact
  have hline : Line (s.typed ++ [(0, s.now)]) s.typed s.now := ⟨rfl, hinv.typed⟩
  have hnow : s.now < (s.press code).now := Nat.lt_succ_self _
  -- no call has returned it so far
  have hzero : (s.press code).times (s.typed ++ [(0, s.now)]) = 0 := by
    refine List.count_eq_zero.mpr fun hmem => ?_
    obtain ⟨r, hr, hcells⟩ := List.mem_map.mp hmem
    have hold := hinv.returned r hr (0, s.now) (by
      rw [hcells]
      exact List.mem_append_right _ (List.mem_singleton.mpr rfl))
    exact absurd hold (Nat.lt_irrefl _)
  cases hflag : s.globals.keyboardFlag with
  | true =>
    rw [if_pos rfl, ← hzero]
    exact Lost.times_eq hafter (Or.inl (hinv.behind (hroom code rfl) hflag)) hinv₁ hnow hline
  | false =>
    have hkept := hinv.kept henter (hroom code rfl henter) hflag
    rw [if_neg Bool.false_ne_true, hkept.times_eq hafter hinv₁ hnow hline, hzero, Nat.zero_add]

/-- A single reader gets the line `a`. -/
theorem returned_count_single :
    ∃ s s₁ s' : System Bool,
      Run (ReaderStep .once) (bootSystem fun _ => 0) [.initKeyboard false, .key 0x1e] s ∧
      ReaderStep .once s (.key 0x1c) s₁ ∧ Run (ReaderStep .once) s₁ [.test false, .copy false] s' ∧
      s'.times (s.typed ++ [(0, s.now)]) = 1 := by
  have hruns : ∃ s s₁ s' : System Bool,
      Run (ReaderStep .once) (bootSystem fun _ => 0) [.initKeyboard false, .key 0x1e] s ∧
      ReaderStep .once s (.key 0x1c) s₁ ∧ Run (ReaderStep .once) s₁ [.test false, .copy false] s' ∧
      s.globals.keyboardFlag = false := by
    refine ⟨_, _, _, .cons ⟨?_, rfl⟩ (.cons ⟨?_, rfl⟩ (.nil _)), ⟨?_, rfl⟩,
      .cons ⟨?_, rfl⟩ (.cons ⟨?_, rfl⟩ (.nil _)), rfl⟩
    all_goals
      intro code hcode
      cases hcode
      try (intro _; decide)
  obtain ⟨s, s₁, s', hbefore, hkey, hafter, hflag⟩ := hruns
  refine ⟨s, s₁, s', hbefore, hkey, hafter, ?_⟩
  rw [returned_count .once (fun _ => 0) _ _ s s₁ s' 0x1c (by decide) hbefore hkey hafter, hflag]
  rfl

/-- A line completed while a process waits is returned by exactly one call. -/
def ReturnedOnce (load : FlagLoad) : Prop :=
  ∀ (before after : List (Action Bool)) (s s₁ s' : System Bool) (code : Byte) (p : Bool),
    hexToChar code = kbEnter → Run (ReaderStep load) (bootSystem fun _ => 0) before s →
    ReaderStep load s (.key code) s₁ → Run (ReaderStep load) s₁ after s' → s.pc p = .waiting →
    (∀ q, s'.pc q = .idle) → s'.times (s.typed ++ [(0, s.now)]) = 1

/-- Two processes that wait for the same line both return it, however the wait is compiled. -/
theorem not_returned_once : ¬ ReturnedOnce .once ∧ ¬ ReturnedOnce .everyRound := by
  have hruns : ∀ load, ∃ s s₁ s' : System Bool,
      Run (ReaderStep load) (bootSystem fun _ => 0)
        [.initKeyboard false, .initKeyboard true, .key 0x1e] s ∧
      ReaderStep load s (.key 0x1c) s₁ ∧
      Run (ReaderStep load) s₁ [.test false, .test true, .copy false, .copy true] s' ∧
      s.pc false = .waiting ∧ (∀ q, s'.pc q = .idle) ∧
      s'.times (s.typed ++ [(0, s.now)]) = 2 := by
    intro load
    refine ⟨_, _, _, .cons ⟨?_, rfl⟩ (.cons ⟨?_, rfl⟩ (.cons ⟨?_, rfl⟩ (.nil _))), ⟨?_, rfl⟩,
      .cons ⟨?_, rfl⟩ (.cons ⟨?_, rfl⟩ (.cons ⟨?_, rfl⟩ (.cons ⟨?_, rfl⟩ (.nil _)))), rfl,
      fun q => ?_, rfl⟩
    case refine_9 => cases q <;> rfl
    all_goals
      intro code hcode
      cases hcode
      try (intro _; decide)
  have hnot : ∀ load, ¬ ReturnedOnce load := by
    intro load h
    obtain ⟨s, s₁, s', hbefore, hkey, hafter, hwait, hidle, htwice⟩ := hruns load
    have honce := h _ _ s s₁ s' 0x1c false (by decide) hbefore hkey hafter hwait hidle
    rw [htwice] at honce
    cases honce
  exact ⟨hnot .once, hnot .everyRound⟩

end System

end SBUnix.Keyboard
