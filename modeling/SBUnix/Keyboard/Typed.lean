import SBUnix.Keyboard.Readers

/-
  The line that a call of `getstring` returns.

  From `init_keyboard` on every key with a character appends one byte to the buffer, ENTER a NUL.
  So as long as the bytes fit, the buffer holds what the keys stored (`Buffered`), and the string in
  it ends at the NUL of the first ENTER, whatever is typed behind it. A call that gets to its copy
  therefore returns the line (`getstring_copies`). But with the flag loaded once the wait ends only
  if the ENTER is there before that one load; a call that finds the flag clear never looks at it
  again (`spinning_run`), and so returns nothing (`getstring_returns_iff`).
-/

namespace SBUnix.Keyboard

open ByteMem Steps

/-- The characters before the first ENTER. -/
def typedLine (codes : List Byte) : List Byte :=
  ((codes.takeWhile (· ≠ kbEnter)).map hexToChar).filter (· ≠ 0)

/-! ## What the keys store -/

theorem hexToChar_eq_kbEnter (key : Byte) : hexToChar key = kbEnter ↔ key = kbEnter := by
  revert key
  decide +kernel

/-- The byte that a key stores. -/
def keyStored (key : Byte) : List Byte :=
  if hexToChar key = 0 then [] else if key = kbEnter then [0] else [hexToChar key]

def stored (codes : List Byte) : List Byte := codes.flatMap keyStored

theorem keyStored_enter : keyStored kbEnter = [0] := by decide

theorem stored_cons (key : Byte) (codes : List Byte) :
    stored (key :: codes) = keyStored key ++ stored codes := List.flatMap_cons

theorem length_stored (codes : List Byte) :
    (stored codes).length = (codes.filter (hexToChar · ≠ 0)).length := by
  induction codes with
  | nil => rfl
  | cons key codes ih =>
    rw [stored_cons, List.length_append, ih]
    by_cases h : hexToChar key = 0
    · simp [keyStored, h]
    · have hone : (keyStored key).length = 1 := by
        unfold keyStored
        rw [if_neg h]
        split_ifs <;> rfl
      simp only [ne_eq, h, not_false_eq_true, decide_true, List.filter_cons_of_pos,
        List.length_cons, hone]
      omega

/-- Only ENTER stores a NUL. -/
theorem zero_mem_keyStored (key : Byte) : (0 : Byte) ∈ keyStored key ↔ key = kbEnter := by
  unfold keyStored
  split_ifs with h0 henter
  · refine ⟨fun h => absurd h List.not_mem_nil, fun h => ?_⟩
    rw [h] at h0
    exact absurd h0 (by decide)
  · exact ⟨fun _ => henter, fun _ => List.mem_singleton.mpr rfl⟩
  · exact ⟨fun h => absurd (List.mem_singleton.mp h).symm h0, fun h => absurd h henter⟩

theorem zero_mem_stored (codes : List Byte) : (0 : Byte) ∈ stored codes ↔ kbEnter ∈ codes := by
  unfold stored
  rw [List.mem_flatMap]
  constructor
  · rintro ⟨key, hkey, h0⟩
    exact (zero_mem_keyStored key).mp h0 ▸ hkey
  · exact fun h => ⟨kbEnter, h, (zero_mem_keyStored kbEnter).mpr rfl⟩

/-- The string that is stored is the line. -/
theorem stored_takeWhile (codes : List Byte) :
    (stored codes).takeWhile (· ≠ 0) = typedLine codes := by
  unfold typedLine
  induction codes with
  | nil => rfl
  | cons key codes ih =>
    rw [stored_cons]
    by_cases henter : key = kbEnter
    · rw [henter, keyStored_enter]
      rfl
    · have hrest : (key :: codes).takeWhile (· ≠ kbEnter) =
          key :: codes.takeWhile (· ≠ kbEnter) :=
        List.takeWhile_cons_of_pos (by simpa using henter)
      rw [hrest, List.map_cons]
      by_cases h0 : hexToChar key = 0
      · have hnone : keyStored key = [] := if_pos h0
        rw [hnone, List.nil_append, ih, List.filter_cons_of_neg (by simpa using h0)]
      · have hone : keyStored key = [hexToChar key] := by
          rw [keyStored, if_neg h0, if_neg henter]
        rw [hone, List.singleton_append, List.takeWhile_cons_of_pos (by simpa using h0), ih,
          List.filter_cons_of_pos (by simpa using h0)]

/-! ## The buffer -/

/-- The buffer holds the bytes that were stored since `init_keyboard`. -/
structure Buffered (bytes : List Byte) (k : Globals) : Prop where
  count : k.keyCount = bytes.length
  get : ∀ i < bytes.length, bytes[i]? = some (k.buffer i)
  flag : k.keyboardFlag = true ↔ (0 : Byte) ∈ bytes

section Buffered

variable {bytes : List Byte} {k : Globals}

theorem buffered_initKeyboard (k : Globals) : Buffered [] (initKeyboard k) where
  count := rfl
  get i hi := absurd hi (Nat.not_lt_zero i)
  flag := ⟨fun h => (by cases h), fun h => absurd h List.not_mem_nil⟩

/-- The bytes behind a store. -/
theorem Buffered.push (h : Buffered bytes k) (hlen : bytes.length < 256) (b : Byte) :
    (k.push b).keyCount = (bytes ++ [b]).length ∧
      ∀ i < (bytes ++ [b]).length, (bytes ++ [b])[i]? = some ((k.push b).buffer i) := by
  have hcount := h.count
  have hinc := incInt_of_lt (i := k.keyCount) (by omega) (by omega)
  rw [List.length_append, List.length_singleton]
  refine ⟨?_, fun i hi => ?_⟩
  · show incInt k.keyCount = _
    omega
  · show _ = some (if (i : Int) = k.keyCount then b else k.buffer i)
    by_cases heq : i = bytes.length
    · rw [if_pos (by omega), heq, List.getElem?_concat_length]
    · rw [if_neg (by omega), List.getElem?_append_left (by omega)]
      exact h.get i (by omega)

/-- A key appends what it stores. -/
theorem Buffered.interrupt (h : Buffered bytes k) (key : Byte)
    (hroom : (bytes ++ keyStored key).length < 256) :
    Buffered (bytes ++ keyStored key) (keyboardInterrupt key k) := by
  have hcount := h.count
  rw [List.length_append] at hroom
  obtain ⟨henter, hk⟩ | ⟨henter, h0, -, hk⟩ | ⟨henter, hfull, hk⟩ :=
    keyboardInterrupt_cases key k
  · rw [hk, (hexToChar_eq_kbEnter key).mp henter, keyStored_enter]
    obtain ⟨hnext, hbytes⟩ := h.push (b := 0) (by omega)
    exact ⟨hnext, hbytes, fun _ => by simp, fun _ => rfl⟩
  · have hone : keyStored key = [hexToChar key] := by
      rw [keyStored, if_neg h0, if_neg fun he => henter ((hexToChar_eq_kbEnter key).mpr he)]
    rw [hk, hone]
    obtain ⟨hnext, hbytes⟩ := h.push (b := hexToChar key) (by omega)
    refine ⟨hnext, hbytes, h.flag.trans ?_⟩
    rw [List.mem_append, List.mem_singleton]
    exact ⟨Or.inl, fun hmem => hmem.resolve_right fun he => h0 he.symm⟩
  · have h0 : hexToChar key = 0 := by
      by_contra h0
      have := hfull h0
      omega
    have hnone : keyStored key = [] := if_pos h0
    rw [hk, hnone, List.append_nil]
    exact h

end Buffered

/-! ## A call of `getstring` -/

section Call

variable {P : Type} [DecidableEq P] {load : FlagLoad} {s s₁ s' : System P} {p : P}
  {as : List (Action P)}

/-- The scan codes of a run. -/
def codesOf : List (Action P) → List Byte
  | [] => []
  | .key code :: as => code :: codesOf as
  | .initKeyboard _ :: as => codesOf as
  | .test _ :: as => codesOf as
  | .copy _ :: as => codesOf as

omit [DecidableEq P] in
theorem codesOf_cons (a : Action P) (as : List (Action P)) :
    codesOf (a :: as) = codesOf [a] ++ codesOf as := by
  cases a <;> rfl

omit [DecidableEq P] in
theorem codesOf_append (as bs : List (Action P)) : codesOf (as ++ bs) = codesOf as ++ codesOf bs := by
  induction as with
  | nil => rfl
  | cons a as ih =>
    rw [List.cons_append, codesOf_cons, ih, codesOf_cons a as, List.append_assoc]

/-- What a process or a key does, apart from `init_keyboard`. -/
theorem Buffered.act {bytes : List Byte} {a : Action P} (h : Buffered bytes s.globals)
    (ha : ∀ q, a ≠ .initKeyboard q) (hroom : (bytes ++ stored (codesOf [a])).length < 256)
    (hs : act load s a = some s') : Buffered (bytes ++ stored (codesOf [a])) s'.globals := by
  cases a with
  | initKeyboard q => exact absurd rfl (ha q)
  | test q =>
    obtain ⟨pc, rfl⟩ := act_test hs
    rw [show codesOf [Action.test q] = [] from rfl, stored, List.flatMap_nil, List.append_nil]
    exact h
  | copy q =>
    simp only [Keyboard.act] at hs
    split_ifs at hs
    obtain ⟨cells, -, rfl⟩ := Option.map_eq_some_iff.mp hs
    rw [show codesOf [Action.copy q] = [] from rfl, stored, List.flatMap_nil, List.append_nil]
    exact h
  | key code =>
    obtain rfl := Option.some.inj hs
    have hone : stored (codesOf [Action.key (P := P) code]) = keyStored code :=
      List.flatMap_singleton keyStored code
    rw [hone] at hroom ⊢
    exact h.interrupt code hroom

/-- The buffer during a call holds what the keys stored. -/
theorem Buffered.run {bytes : List Byte} (h : Buffered bytes s.globals)
    (hinit : ∀ q, Action.initKeyboard q ∉ as)
    (hroom : (bytes ++ stored (codesOf as)).length < 256)
    (hrun : Run (fun s a s' => Keyboard.act load s a = some s') s as s') :
    Buffered (bytes ++ stored (codesOf as)) s'.globals := by
  induction hrun generalizing bytes with
  | nil s =>
    rw [show codesOf ([] : List (Action P)) = [] from rfl, stored, List.flatMap_nil,
      List.append_nil]
    exact h
  | @cons s s₁ s' a as ha hrun ih =>
    have hsplit : stored (codesOf (a :: as)) = stored (codesOf [a]) ++ stored (codesOf as) := by
      rw [codesOf_cons, stored, List.flatMap_append]
      rfl
    rw [hsplit, ← List.append_assoc] at hroom ⊢
    have hnext := h.act (fun q hq => hinit q (hq ▸ List.mem_cons_self))
      (by rw [List.length_append] at hroom; omega) ha
    exact ih hnext (fun q hq => hinit q (List.mem_cons_of_mem a hq)) hroom

omit [DecidableEq P] in
/-- The string in the buffer, once there is a NUL. -/
theorem Buffered.line {bytes : List Byte} (h : Buffered bytes s.globals)
    (h0 : (0 : Byte) ∈ bytes) (hlen : bytes.length < 256) :
    ∃ cells, s.line = some cells ∧ cells.map Prod.fst = bytes.takeWhile (· ≠ 0) ++ [0] := by
  obtain ⟨line, rest, rfl, hline⟩ := List.eq_append_cons_of_mem h0
  have hne : ∀ c ∈ line, c ≠ 0 := fun c hc h0 => hline (h0 ▸ hc)
  have hwhile : (line ++ 0 :: rest).takeWhile (· ≠ 0) = line := by
    rw [List.takeWhile_append_of_pos fun c hc => by simpa using hne c hc,
      List.takeWhile_cons_of_neg (by simp), List.append_nil]
  have hmap : (line.mapIdx fun j c => (c, s.origin j)).map Prod.fst = line := by
    refine List.ext_getElem? fun j => ?_
    simp [Option.map_map, Function.comp_def]
  rw [List.length_append, List.length_cons] at hlen
  have hread := @readCells_eq s.globals.buffer s.origin (2 ^ 31) 0
    (line.mapIdx fun j c => (c, s.origin j)) (fun j hj => ?_) (fun c hc => ?_) ?_
    (by rw [List.length_mapIdx]; omega)
  · refine ⟨_, hread, ?_⟩
    rw [List.map_append, hmap, hwhile]
    rfl
  · rw [List.length_mapIdx] at hj
    have hbyte := h.get j (by rw [List.length_append]; omega)
    rw [List.getElem?_append_left hj, List.getElem?_eq_getElem hj] at hbyte
    rw [List.getElem_mapIdx, Int.zero_add]
    exact ⟨(Option.some.inj hbyte).symm, rfl⟩
  · have hmem := List.mem_map_of_mem (f := Prod.fst) hc
    rw [hmap] at hmem
    exact hne _ hmem
  · have hbyte := h.get line.length (by rw [List.length_append, List.length_cons]; omega)
    rw [List.getElem?_append_right le_rfl, Nat.sub_self] at hbyte
    rw [List.length_mapIdx, Int.zero_add]
    exact (Option.some.inj hbyte).symm

/-- A call that gets to its copy returns the characters before the first ENTER and a NUL, as long
    as there is an ENTER and fewer than 256 keys have a character. -/
theorem getstring_copies
    (hrun : Run (fun s a s' => act load s a = some s') s (.initKeyboard p :: as) s₁)
    (hinit : ∀ q, Action.initKeyboard q ∉ as) (henter : kbEnter ∈ codesOf as)
    (hfew : ((codesOf as).filter (hexToChar · ≠ 0)).length < 256) :
    s₁.globals.keyboardFlag = true ∧ (s₁.pc p = .ready → ∃ s' cells,
      act load s₁ (.copy p) = some s' ∧ s'.returned = (p, cells) :: s₁.returned ∧
        cells.map Prod.fst = typedLine (codesOf as) ++ [0]) := by
  cases hrun with
  | @cons _ s₀ _ _ _ hfirst hrest =>
  simp only [act] at hfirst
  split_ifs at hfirst
  obtain rfl := Option.some.inj hfirst
  rw [← length_stored] at hfew
  have hbuffered := (buffered_initKeyboard s.globals).run hinit hfew hrest
  rw [List.nil_append] at hbuffered
  have h0 := (zero_mem_stored (codesOf as)).mpr henter
  refine ⟨hbuffered.flag.mpr h0, fun hready => ?_⟩
  obtain ⟨cells, hline, hcells⟩ := hbuffered.line h0 hfew
  refine ⟨{ s₁.setPc p .idle with returned := (p, cells) :: s₁.returned }, cells, ?_, rfl, ?_⟩
  · show (if s₁.pc p = .ready then _ else none) = _
    rw [if_pos hready, hline]
    rfl
  · rw [hcells, stored_takeWhile]

/-! ## The wait -/

/-- Steps of others leave a process where it is. -/
theorem act_pc {a : Action P} (hs : act load s a = some s') (hinit : a ≠ .initKeyboard p)
    (htest : a ≠ .test p) (hcopy : a ≠ .copy p) : s'.pc p = s.pc p := by
  cases a with
  | initKeyboard q =>
    simp only [act] at hs
    split_ifs at hs
    obtain rfl := Option.some.inj hs
    exact Function.update_of_ne (fun h => hinit (congrArg _ h.symm)) _ _
  | test q =>
    obtain ⟨pc, rfl⟩ := act_test hs
    exact Function.update_of_ne (fun h => htest (congrArg _ h.symm)) _ _
  | copy q =>
    simp only [act] at hs
    split_ifs at hs
    obtain ⟨cells, -, rfl⟩ := Option.map_eq_some_iff.mp hs
    exact Function.update_of_ne (fun h => hcopy (congrArg _ h.symm)) _ _
  | key code =>
    obtain rfl := Option.some.inj hs
    rfl

/-- A process that spins does so for ever, whatever the others do and whatever is typed. -/
theorem spinning_run (hrun : Run (fun s a s' => act load s a = some s') s as s')
    (hpc : s.pc p = .spinning) : s'.pc p = .spinning := by
  refine hrun.invariant (I := fun s => s.pc p = .spinning) (fun s a s' hpc hs => ?_) hpc
  by_cases hinit : a = .initKeyboard p
  · subst hinit
    simp [act, hpc] at hs
  by_cases htest : a = .test p
  · subst htest
    simp only [act, hpc, reduceCtorEq, if_false, if_true] at hs
    obtain rfl := Option.some.inj hs
    exact Function.update_self _ _ _
  by_cases hcopy : a = .copy p
  · subst hcopy
    simp [act, hpc] at hs
  rw [act_pc hs hinit htest hcopy, hpc]

/-- A process whose wait is over stays so until its copy. -/
theorem ready_run (hrun : Run (fun s a s' => act load s a = some s') s as s')
    (hcopy : Action.copy p ∉ as) (hpc : s.pc p = .ready) : s'.pc p = .ready := by
  induction hrun with
  | nil => exact hpc
  | cons hs _ ih =>
    refine ih (fun h => hcopy (List.mem_cons_of_mem _ h)) ?_
    refine (act_pc hs ?_ ?_ fun h => hcopy (h ▸ List.mem_cons_self)).trans hpc
    all_goals
      rintro rfl
      simp [act, hpc] at hs

/-- A process that has not tested the flag yet waits. -/
theorem waiting_run (hrun : Run (fun s a s' => act load s a = some s') s as s')
    (htest : Action.test p ∉ as) (hpc : s.pc p = .waiting) : s'.pc p = .waiting := by
  induction hrun with
  | nil => exact hpc
  | cons hs _ ih =>
    refine ih (fun h => htest (List.mem_cons_of_mem _ h)) ?_
    refine (act_pc hs ?_ (fun h => htest (h ▸ List.mem_cons_self)) ?_).trans hpc
    all_goals
      rintro rfl
      simp [act, hpc] at hs

/-- A run with a test in it, taken apart there. -/
theorem run_split (hrun : Run (fun s a s' => act load s a = some s') s as s')
    (htest : Action.test p ∈ as) :
    ∃ s₀ s₁ after, as = as.takeWhile (· ≠ .test p) ++ .test p :: after ∧
      Run (fun s a s' => act load s a = some s') s (as.takeWhile (· ≠ .test p)) s₀ ∧
      act load s₀ (.test p) = some s₁ ∧
      Run (fun s a s' => act load s a = some s') s₁ after s' := by
  induction hrun with
  | nil => exact absurd htest List.not_mem_nil
  | @cons s s₁ s' a as hs hrest ih =>
    by_cases ha : a = .test p
    · subst ha
      have hnone : (Action.test p :: as).takeWhile (· ≠ .test p) = [] :=
        List.takeWhile_cons_of_neg (by simp)
      rw [hnone]
      exact ⟨s, s₁, as, rfl, .nil s, hs, hrest⟩
    · have hmore : (a :: as).takeWhile (· ≠ .test p) = a :: as.takeWhile (· ≠ .test p) :=
        List.takeWhile_cons_of_pos (by simpa using ha)
      obtain ⟨s₂, s₃, after, heq, hbefore, htested, hafter⟩ :=
        ih ((List.mem_cons.mp htest).resolve_left fun h => ha h.symm)
      rw [hmore]
      exact ⟨s₂, s₃, after, congrArg (a :: ·) heq, .cons hs hbefore, htested, hafter⟩

/-- The call of `p` goes on to its end: rounds of the wait, and then the copy, which returns the
    line. -/
def Returns (load : FlagLoad) (s : System P) (p : P) (line : List Byte) : Prop :=
  ∃ n s₁ s' cells,
    Run (fun s a s' => act load s a = some s') s (List.replicate n (.test p)) s₁ ∧
    act load s₁ (.copy p) = some s' ∧ s'.returned = (p, cells) :: s₁.returned ∧
    cells.map Prod.fst = line ++ [0]

/-- The state behind `init_keyboard`. -/
theorem run_initKeyboard
    (hrun : Run (fun s a s' => act load s a = some s') s (.initKeyboard p :: as) s₁) :
    ∃ s₀, s₀.pc p = .waiting ∧ Buffered [] s₀.globals ∧
      Run (fun s a s' => act load s a = some s') s₀ as s₁ := by
  cases hrun with
  | @cons _ s₀ _ _ _ hfirst hrest =>
  simp only [act] at hfirst
  split_ifs at hfirst
  obtain rfl := Option.some.inj hfirst
  exact ⟨_, Function.update_self _ _ _, buffered_initKeyboard s.globals, hrest⟩

/-- A call that waits with the flag set, or is ready, returns the line. -/
theorem returns_of_flag
    (hrun : Run (fun s a s' => act load s a = some s') s (.initKeyboard p :: as) s₁)
    (hinit : ∀ q, Action.initKeyboard q ∉ as) (henter : kbEnter ∈ codesOf as)
    (hfew : ((codesOf as).filter (hexToChar · ≠ 0)).length < 256)
    (hpc : s₁.pc p = .waiting ∨ s₁.pc p = .ready) :
    Returns load s₁ p (typedLine (codesOf as)) := by
  obtain ⟨hflag, hcopy⟩ := getstring_copies hrun hinit henter hfew
  obtain hwaiting | hready := hpc
  · -- one more round, in which the flag is read
    have htest : act load s₁ (.test p) = some (s₁.setPc p .ready) := by
      simp [act, hwaiting, hflag, FlagLoad.tested]
    have hone : Run _ s (.initKeyboard p :: (as ++ [.test p])) _ := hrun.append (.single htest)
    have hcodes : codesOf (as ++ [.test p]) = codesOf as := by
      simp [codesOf_append, codesOf]
    have hinit' : ∀ q, Action.initKeyboard q ∉ as ++ [.test p] := by simpa using hinit
    obtain ⟨-, hcopy'⟩ := getstring_copies hone hinit' (by rwa [hcodes]) (by rwa [hcodes])
    obtain ⟨s', cells, hact, hreturned, hcells⟩ := hcopy' (Function.update_self _ _ _)
    rw [hcodes] at hcells
    exact ⟨1, _, s', cells, .single htest, hact, hreturned, hcells⟩
  · obtain ⟨s', cells, hact, hreturned, hcells⟩ := hcopy hready
    exact ⟨0, s₁, s', cells, .nil s₁, hact, hreturned, hcells⟩

/-- With the flag read in every round the call always gets to its copy: it waits until then. -/
theorem returns_everyRound
    (hrun : Run (fun s a s' => act .everyRound s a = some s') s (.initKeyboard p :: as) s₁)
    (hinit : ∀ q, Action.initKeyboard q ∉ as) (hcopy : Action.copy p ∉ as)
    (henter : kbEnter ∈ codesOf as)
    (hfew : ((codesOf as).filter (hexToChar · ≠ 0)).length < 256) :
    Returns .everyRound s₁ p (typedLine (codesOf as)) := by
  obtain ⟨s₀, hwaiting, -, hrest⟩ := run_initKeyboard hrun
  refine returns_of_flag hrun hinit henter hfew ?_
  replace hwaiting : s₀.pc p = .waiting ∨ s₀.pc p = .ready := Or.inl hwaiting
  clear hrun henter hfew
  induction hrest with
  | nil => exact hwaiting
  | @cons s₀ s₂ s₁ a as hs _ ih =>
    refine ih (fun q hq => hinit q (List.mem_cons_of_mem _ hq))
      (fun h => hcopy (List.mem_cons_of_mem _ h)) ?_
    by_cases htest : a = .test p
    · subst htest
      simp only [act] at hs
      split_ifs at hs with hpc hpc'
      · obtain rfl := Option.some.inj hs
        have hpc₂ : (s₀.setPc p (FlagLoad.everyRound.tested s₀.globals.keyboardFlag)).pc p = _ :=
          Function.update_self _ _ _
        rw [hpc₂]
        cases s₀.globals.keyboardFlag with
        | false => exact Or.inl rfl
        | true => exact Or.inr rfl
      · rw [hpc'] at hwaiting
        cases hwaiting <;> contradiction
    · rw [act_pc hs (fun h => hinit p (h ▸ List.mem_cons_self)) htest
        fun h => hcopy (h ▸ List.mem_cons_self)]
      exact hwaiting

/-- A call that spins returns nothing. -/
theorem not_returns_of_spinning {line : List Byte} (hpc : s.pc p = .spinning) :
    ¬ Returns load s p line := by
  rintro ⟨n, s₁, s', cells, hrun, hcopy, -⟩
  have hspinning := spinning_run hrun hpc
  simp [act, hspinning] at hcopy

/-- Whatever keys arrive between `init_keyboard` and the copy, with an ENTER among them and fewer
    than 256 that have a character: the call returns the characters before the first ENTER exactly
    if an ENTER arrives before the one test of the flag. -/
theorem getstring_returns_iff (s s₁ : System P) (p : P) (as : List (Action P))
    (hrun : Run (fun s a s' => act .once s a = some s') s (.initKeyboard p :: as) s₁)
    (hinit : ∀ q, Action.initKeyboard q ∉ as) (hcopy : Action.copy p ∉ as)
    (henter : kbEnter ∈ codesOf as)
    (hfew : ((codesOf as).filter (hexToChar · ≠ 0)).length < 256) :
    Returns .once s₁ p (typedLine (codesOf as)) ↔
      kbEnter ∈ codesOf (as.takeWhile (· ≠ .test p)) := by
  obtain ⟨s₀, hwaiting, hbuffered, hrest⟩ := run_initKeyboard hrun
  -- the call is where its first test of the flag left it, if it has made one
  by_cases htest : Action.test p ∈ as
  · obtain ⟨s₂, s₃, after, heq, hbefore, htested, hafter⟩ := run_split hrest htest
    have hnotest : Action.test p ∉ as.takeWhile (· ≠ .test p) := fun h => by
      simpa using List.mem_takeWhile_imp h
    generalize as.takeWhile (· ≠ .test p) = before at heq hbefore hnotest ⊢
    subst heq
    have hcodes := codesOf_append before (Action.test p :: after)
    have hroom : ([] ++ stored (codesOf before)).length < 256 := by
      rw [hcodes, List.filter_append, List.length_append] at hfew
      rw [List.nil_append, length_stored]
      omega
    have hpc := waiting_run hbefore hnotest hwaiting
    have hflag := (hbuffered.run (fun q hq => hinit q (List.mem_append_left _ hq)) hroom hbefore).flag
    rw [List.nil_append, zero_mem_stored] at hflag
    rw [← hflag]
    simp only [act, hpc, if_true] at htested
    obtain rfl := Option.some.inj htested
    cases hset : s₂.globals.keyboardFlag with
    | false =>
      rw [hset] at hafter
      have hspinning : s₁.pc p = .spinning := spinning_run hafter (Function.update_self _ _ _)
      exact ⟨fun h => absurd h (not_returns_of_spinning hspinning), fun h => by cases h⟩
    | true =>
      rw [hset] at hafter
      have hready : s₁.pc p = .ready := ready_run hafter
        (fun h => hcopy (List.mem_append_right _ (List.mem_cons_of_mem _ h)))
        (Function.update_self _ _ _)
      exact ⟨fun _ => rfl, fun _ => returns_of_flag hrun hinit henter hfew (Or.inr hready)⟩
  · have hall : as.takeWhile (· ≠ .test p) = as := by
      rw [List.takeWhile_eq_self_iff]
      intro a ha
      simpa using fun h : a = .test p => htest (h ▸ ha)
    rw [hall]
    exact ⟨fun _ => henter, fun _ =>
      returns_of_flag hrun hinit henter hfew (Or.inl (waiting_run hrest htest hwaiting))⟩

/-- ENTER comes in time, and a key before the copy. -/
theorem getstring_returns_iff_a : ∃ s₁ : System Bool,
    Run (fun s a s' => act .once s a = some s') (bootSystem fun _ => 0)
      [.initKeyboard false, .key 0x1e, .key 0x1c, .test false, .key 0x1f] s₁ ∧
    Returns .once s₁ false [chr 'a'] := by
  have hrun : ∃ s₁ : System Bool,
      Run (fun s a s' => act .once s a = some s') (bootSystem fun _ => 0)
        [.initKeyboard false, .key 0x1e, .key 0x1c, .test false, .key 0x1f] s₁ :=
    ⟨_, .cons rfl (.cons rfl (.cons rfl (.cons rfl (.cons rfl (.nil _)))))⟩
  obtain ⟨s₁, hrun⟩ := hrun
  exact ⟨s₁, hrun, (getstring_returns_iff (bootSystem fun _ => 0) s₁ false
    [.key 0x1e, .key 0x1c, .test false, .key 0x1f] hrun (by simp) (by simp) (by decide)
    (by decide)).mpr (by decide)⟩

/-- A flag that is tested before ENTER is pressed is not tested again. -/
theorem not_getstring_returns :
    ¬ ∀ (s₁ : System Bool) (as : List (Action Bool)),
      Run (fun s a s' => act .once s a = some s') (bootSystem fun _ => 0)
        (.initKeyboard false :: as) s₁ →
      (∀ q, Action.initKeyboard q ∉ as) → Action.copy false ∉ as → kbEnter ∈ codesOf as →
      ((codesOf as).filter (hexToChar · ≠ 0)).length < 256 →
      Returns .once s₁ false (typedLine (codesOf as)) := by
  intro h
  have hrun : ∃ s₁ : System Bool,
      Run (fun s a s' => act .once s a = some s') (bootSystem fun _ => 0)
        [.initKeyboard false, .test false, .key 0x1e, .key 0x1c] s₁ ∧
      s₁.pc false = .spinning :=
    ⟨_, .cons rfl (.cons rfl (.cons rfl (.cons rfl (.nil _)))), rfl⟩
  obtain ⟨s₁, hrun, hspinning⟩ := hrun
  exact not_returns_of_spinning hspinning
    (h s₁ [.test false, .key 0x1e, .key 0x1c] hrun (by simp) (by simp) (by decide) (by decide))

end Call

end SBUnix.Keyboard
