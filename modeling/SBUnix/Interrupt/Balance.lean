import SBUnix.Interrupt.Machine

/-
  Whether an interrupt leaves the stack as it found it.

  Every stub saves the 15 registers, calls its handler and restores them (`exec_body`); what is in
  front of the processor's frame then has to be dropped again. The common stubs drop two words, the
  interrupt number and one error code. The stubs of vectors 13, 14 and 17 push a dummy error code on
  top of the processor's own, so there one word is left, and `iretq` takes it for `rip`.
-/

namespace SBUnix.Interrupt

open Stack

/-- A handler that returns, with the words from `rsp` up to `top` untouched. -/
def Returns (top : Word) (m m' : Machine) : Prop :=
  m'.rsp = m.rsp ∧ ∀ i < (top - m.rsp).toNat / 8, m'.mem (slot m.rsp i) = m.mem (slot m.rsp i)

/-- The words that the processor leaves for `iretq`. -/
def CpuFrame.words (c : CpuFrame) : List Word := [c.rip, c.cs, c.rflags, c.rsp, c.ss]

/-- The values at entry, as `registers` should show them. -/
def entryRegisters (v : Nat) (c : CpuFrame) (regs : Reg → Word) : Registers where
  r15 := regs .r15
  r14 := regs .r14
  r13 := regs .r13
  r12 := regs .r12
  r11 := regs .r11
  r10 := regs .r10
  r9 := regs .r9
  r8 := regs .r8
  rsi := regs .rsi
  rbp := regs .rbp
  rdx := regs .rdx
  rcx := regs .rcx
  rbx := regs .rbx
  rax := regs .rax
  rdi := regs .rdi
  intNo := BitVec.ofNat 64 v
  errCode := if PushesErrorCode v then c.errorCode else 0
  rip := c.rip
  cs := c.cs
  rflags := c.rflags
  useresp := c.rsp
  ss := c.ss

/-- The `iretq` of the interrupt `v` of `m` finds the processor's frame and the registers of `m`,
    and the handlers were shown the values at entry. -/
structure BalancedTrip (v : Nat) (c : CpuFrame) (m : Machine) (t : Trip) : Prop where
  rsp : t.exit.rsp = m.rsp - 40
  frame : Frame t.exit.mem t.exit.rsp m.rsp c.words
  regs : ∀ r, t.exit.regs r = m.regs r
  shown : ∀ call ∈ t.calls, call.1.TakesRegisters →
    readRegisters call.2.mem (call.2.regs .rdi) = entryRegisters v c m.regs

/-- Interrupt `v` is balanced, for all register contents and all handlers that return. -/
def Balanced (v : Nat) : Prop :=
  ∀ (handlers : Handler → Machine → Machine) (c : CpuFrame) (m : Machine),
    (∀ h s, Returns m.rsp s (handlers h s)) →
      ∃ t, interrupt handlers v c m = some t ∧ BalancedTrip v c m t

/-- The registers in the order in which the stubs push them. -/
def saved : List Reg :=
  [.rdi, .rax, .rbx, .rcx, .rdx, .rbp, .rsi, .r8, .r9, .r10, .r11, .r12, .r13, .r14, .r15]

/-- The registers in the order in which the stubs pop them. -/
def restored : List Reg :=
  [.r15, .r14, .r13, .r12, .r11, .r10, .r9, .r8, .rsi, .rbp, .rdx, .rcx, .rbx, .rax, .rdi]

/-- What all stubs have in common, followed by `rest`. -/
def body (h : Handler) (rest : List Instr) : List Instr :=
  saved.map .pushq ++ (.movqRsp .rdi :: .callq h :: (restored.map .popq ++ rest))

theorem reverse_saved : saved.reverse = restored := rfl

theorem mem_restored (r : Reg) : r ∈ restored := by
  cases r <;> decide

section Exec

variable {handlers : Handler → Machine → Machine} {fuel : Nat} {rest : List Instr} {m : Machine}
  {top : Word} {ws : List Word}

theorem Returns.holds {m' : Machine} (hret : Returns top m m') (h : m.Holds top ws)
    (hlen : ws.length < 2 ^ 61) : m'.Holds top ws := by
  unfold State.Holds at h ⊢
  rw [hret.1]
  refine h.congr fun i hi => hret.2 i ?_
  rw [h.toNat_sub hlen]
  omega

theorem exec_pushqs (rs : List Reg) :
    exec handlers (rs.length + fuel) (rs.map .pushq ++ rest) m =
      exec handlers fuel rest { m with toState := m.pushAll rs } := by
  induction rs generalizing m with
  | nil =>
    rw [List.length_nil, Nat.zero_add]
    rfl
  | cons r rs ih =>
    rw [List.length_cons, Nat.add_right_comm, List.map_cons, List.cons_append, exec]
    · exact ih
    all_goals simp

theorem exec_popqs (rs : List Reg) :
    exec handlers (rs.length + fuel) (rs.map .popq ++ rest) m =
      exec handlers fuel rest { m with toState := m.popAll rs } := by
  induction rs generalizing m with
  | nil =>
    rw [List.length_nil, Nat.zero_add]
    rfl
  | cons r rs ih =>
    rw [List.length_cons, Nat.add_right_comm, List.map_cons, List.cons_append, exec]
    · exact ih
    all_goals simp

/-- Saving, calling and restoring: the stack and the registers are as before, and the handler was
    called with the address of the saved registers. -/
theorem exec_body (fuel : Nat) (rest : List Instr) (h : Handler)
    (hret : ∀ s, Returns top s (handlers h s)) (hm : m.Holds top ws) (hlen : ws.length < 2 ^ 60) :
    ∃ call m' : Machine, exec handlers (32 + fuel) (body h rest) m =
        (exec handlers fuel rest m').map (fun t => { t with calls := (h, call) :: t.calls }) ∧
      Frame call.mem (call.regs .rdi) top (restored.map m.regs ++ ws) ∧
      m'.Holds top ws ∧ ∀ r, m'.regs r = m.regs r := by
  obtain ⟨hregs, hsaved⟩ := hm.pushAll saved (by
    show 15 + _ < _
    omega)
  rw [reverse_saved] at hsaved
  obtain ⟨call, hcall⟩ : ∃ call : Machine,
      call = step (.movqRsp .rdi) { m with toState := m.pushAll saved } := ⟨_, rfl⟩
  have hframe : call.Holds top (restored.map m.regs ++ ws) := hcall ▸ hsaved
  have hback := (hret call).holds hframe (by
    rw [List.length_append]
    show 15 + _ < _
    omega)
  obtain ⟨hholds, hpopped⟩ := State.Holds.popAll restored m.regs hback
  refine ⟨call, { handlers h call with toState := (handlers h call).popAll restored }, ?_, ?_,
    hholds, fun r => ?_⟩
  · unfold body
    rw [show 32 + fuel = saved.length + (restored.length + fuel + 2) by
        show 32 + fuel = 15 + (15 + fuel + 2)
        omega, exec_pushqs]
    show Option.map _ (exec handlers (restored.length + fuel) _ (handlers h _)) = _
    rw [exec_popqs, hcall]
  · have hrdi : call.regs .rdi = call.rsp := by
      rw [hcall]
      rfl
    rw [hrdi]
    exact hframe
  · rw [hpopped, if_pos (mem_restored r)]

/-- The `registers` in front of the stack. -/
theorem readRegisters_of_frame {v : Nat} {c : CpuFrame} {regs : Reg → Word} {err : Word}
    {mem : Word → Word} {p : Word}
    (h : Frame mem p top (restored.map regs ++ (BitVec.ofNat 64 v :: err :: c.words)))
    (herr : err = if PushesErrorCode v then c.errorCode else 0) :
    readRegisters mem p = entryRegisters v c regs := by
  have hslot : ∀ i, (hi : i < 22) → mem (slot p i) =
      (restored.map regs ++ (BitVec.ofNat 64 v :: err :: c.words)).get ⟨i, hi⟩ :=
    fun i hi => h.mem_slot i hi
  unfold readRegisters entryRegisters
  rw [← herr]
  simp only [hslot, Nat.reduceLT]
  rfl

/-- The handler `h` was called with `front` in front of `ws`, and the `iretq` finds `ws` and the
    registers `regs`. -/
structure Served (h : Handler) (regs : Reg → Word) (top : Word) (front ws : List Word) (t : Trip) :
    Prop where
  calls : ∃ call, t.calls = [(h, call)] ∧
    Frame call.mem (call.regs .rdi) top (restored.map regs ++ (front ++ ws))
  holds : t.exit.Holds top ws
  regs : ∀ r, t.exit.regs r = regs r

/-- Dropping the interrupt number and the error code. -/
theorem holds_addRsp {n e : Word} (h : m.Holds top (n :: e :: ws)) :
    (step (.addRsp 16) m).Holds top ws := by
  have htwo : m.rsp + 8 + 8 = m.rsp + 16 := BitVec.add_assoc m.rsp 8 8
  unfold State.Holds at h ⊢
  show Frame m.mem (m.rsp + 16) top ws
  rw [← htwo]
  exact h.2.2

/-- A stub's body and its end, with the interrupt number and an error code in front. -/
theorem exec_body_drop (fuel : Nat) (rest : List Instr) (h : Handler)
    (hret : ∀ s, Returns top s (handlers h s)) {n e : Word} (hm : m.Holds top (n :: e :: ws))
    (hlen : ws.length + 2 < 2 ^ 60) (hfuel : 3 ≤ fuel)
    (hrest : rest = [.addRsp 16, .sti, .iretq] ∨ rest = [.addRsp 16, .iretq]) :
    ∃ t, exec handlers (32 + fuel) (body h rest) m = some t ∧ Served h m.regs top [n, e] ws t := by
  obtain ⟨call, m', hexec, hcall, hholds, hregs⟩ := exec_body fuel rest h hret hm
    (by simpa using hlen)
  obtain ⟨fuel, rfl⟩ := Nat.exists_eq_add_of_le' hfuel
  obtain rfl | rfl := hrest
  · refine ⟨⟨[(h, call)], step .sti (step (.addRsp 16) m')⟩, hexec, ⟨call, rfl, hcall⟩, ?_, hregs⟩
    exact holds_addRsp hholds
  · refine ⟨⟨[(h, call)], step (.addRsp 16) m'⟩, hexec, ⟨call, rfl, hcall⟩, ?_, hregs⟩
    exact holds_addRsp hholds

theorem exec_dummyCodeStub (h : Handler) (hret : ∀ s, Returns top s (handlers h s)) (n : Word)
    {common : Label} (hcommon : text common = body h [.addRsp 16, .sti, .iretq])
    (hm : m.Holds top ws) (hlen : ws.length + 2 < 2 ^ 60) :
    ∃ t, exec handlers stubFuel (dummyCodeStub n common) m = some t ∧
      Served h m.regs top [n, 0] ws t := by
  have hpushed := (State.Holds.push hm 0 (by omega)).push n (by rw [List.length_cons]; omega)
  obtain ⟨t, hexec, hserved⟩ := exec_body_drop 28 _ h
    (m := step (.pushqImm n) (step (.pushqImm 0) (step .cli m))) hret hpushed hlen (by decide)
    (Or.inl rfl)
  refine ⟨t, ?_, hserved⟩
  rw [← hcommon] at hexec
  exact hexec

theorem exec_errorCodeStub (hret : ∀ s, Returns top s (handlers .faultHandler s)) (n : Word)
    {e : Word} (hm : m.Holds top (e :: ws)) (hlen : ws.length + 2 < 2 ^ 60) :
    ∃ t, exec handlers stubFuel (errorCodeStub n) m = some t ∧
      Served .faultHandler m.regs top [n, e] ws t := by
  have hpushed := hm.push n (by rw [List.length_cons]; omega)
  exact exec_body_drop 29 _ .faultHandler
    (m := step (.pushqImm n) (step .cli m)) hret hpushed hlen (by decide)
    (Or.inl rfl)

end Exec

section Balance

variable {handlers : Handler → Machine → Machine} {v : Nat} {c : CpuFrame} {m : Machine}

theorem enter_regs (v : Nat) (c : CpuFrame) (m : Machine) : (enter v c m).regs = m.regs := by
  unfold enter
  dsimp only
  split_ifs <;> rfl

/-- What the processor pushes for vector `v`. -/
def entryWords (v : Nat) (c : CpuFrame) : List Word :=
  if PushesErrorCode v then c.errorCode :: c.words else c.words

theorem length_entryWords (v : Nat) (c : CpuFrame) : (entryWords v c).length ≤ 6 := by
  unfold entryWords CpuFrame.words
  split_ifs <;> simp

/-- The stack at a stub's first instruction. -/
theorem holds_enter (v : Nat) (c : CpuFrame) (m : Machine) :
    (enter v c m).Holds m.rsp (entryWords v c) := by
  have hempty : m.Holds m.rsp [] := rfl
  have hwords : (((((m.push c.ss).push c.rsp).push c.rflags).push c.cs).push c.rip).Holds m.rsp
      c.words :=
    ((((hempty.push c.ss (by simp)).push c.rsp (by simp)).push c.rflags (by simp)).push c.cs
      (by simp)).push c.rip (by simp)
  unfold enter entryWords
  dsimp only
  split_ifs
  · exact hwords.push c.errorCode (by simp [CpuFrame.words])
  · exact hwords

/-- A stub that shows its handler the right frame and drops it is balanced. -/
theorem Served.balanced {h : Handler} {front : List Word} {t : Trip}
    (hserved : Served h (enter v c m).regs m.rsp front c.words t)
    (hfront : h = .generateTimer ∨
      front = [BitVec.ofNat 64 v, if PushesErrorCode v then c.errorCode else 0]) :
    BalancedTrip v c m t := by
  obtain ⟨⟨call, hcalls, hcall⟩, hholds, hregs⟩ := hserved
  rw [enter_regs] at hcall hregs
  refine ⟨?_, hholds, hregs, ?_⟩
  · rw [hholds.top_eq]
    exact (BitVec.add_sub_cancel _ _).symm
  · intro p hp htakes
    rw [hcalls, List.mem_singleton] at hp
    rw [hp] at htakes ⊢
    obtain hh | rfl := hfront
    · exact absurd hh htakes
    · exact readRegisters_of_frame hcall rfl

/-- The stub that each vector gets, but for the timer and the system call. -/
def stub (v : Nat) : List Instr :=
  if v = 8 ∨ (10 ≤ v ∧ v ≤ 12) then errorCodeStub (BitVec.ofNat 64 v)
  else dummyCodeStub (BitVec.ofNat 64 v) (if v < 32 then .isrCommonStub else .irqCommonStub)

theorem text_gate : ∀ v < 48, v ≠ 32 → (gate v).map text = some (stub v) := by decide

theorem interrupt_eq {code : List Instr} (h : (gate v).map text = some code) :
    interrupt handlers v c m = exec handlers stubFuel code (enter v c m) := by
  unfold interrupt
  obtain ⟨l, hl, rfl⟩ := Option.map_eq_some_iff.mp h
  rw [hl, Option.bind_some]

/-- What a vector with a dummy error code does. -/
theorem interrupt_dummy (hv : v < 48) (hv' : v ≠ 32) (hcode : ¬ (v = 8 ∨ (10 ≤ v ∧ v ≤ 12)))
    (hret : ∀ h s, Returns m.rsp s (handlers h s)) :
    ∃ h t, interrupt handlers v c m = some t ∧
      Served h (enter v c m).regs m.rsp [BitVec.ofNat 64 v, 0] (entryWords v c) t := by
  have hlen : (entryWords v c).length + 2 < 2 ^ 60 := by
    have := length_entryWords v c
    omega
  rw [interrupt_eq (text_gate v hv hv'), stub, if_neg hcode]
  by_cases hisr : v < 32
  · rw [if_pos hisr]
    exact ⟨.faultHandler, exec_dummyCodeStub .faultHandler (hret _) _ rfl (holds_enter v c m) hlen⟩
  · rw [if_neg hisr]
    exact ⟨.irqHandler, exec_dummyCodeStub .irqHandler (hret _) _ rfl (holds_enter v c m) hlen⟩

theorem balanced_dummy (hv : v < 48) (hv' : v ≠ 32) (hcode : ¬ PushesErrorCode v) :
    Balanced v := by
  intro handlers c m hret
  have hnot : ¬ (v = 8 ∨ (10 ≤ v ∧ v ≤ 12)) := by
    unfold PushesErrorCode at hcode
    omega
  obtain ⟨h, t, hrun, hserved⟩ := interrupt_dummy (c := c) hv hv' hnot hret
  rw [entryWords, if_neg hcode] at hserved
  exact ⟨t, hrun, hserved.balanced (Or.inr (by rw [if_neg hcode]))⟩

theorem balanced_errorCode (hv : v = 8 ∨ (10 ≤ v ∧ v ≤ 12)) : Balanced v := by
  intro handlers c m hret
  have hcode : PushesErrorCode v := by
    unfold PushesErrorCode
    omega
  have hentry := holds_enter v c m
  rw [entryWords, if_pos hcode] at hentry
  rw [interrupt_eq (text_gate v (by omega) (by omega)), stub, if_pos hv]
  obtain ⟨t, hrun, hserved⟩ := exec_errorCodeStub (hret _) (BitVec.ofNat 64 v) hentry
    (by simp [CpuFrame.words])
  exact ⟨t, hrun, hserved.balanced (Or.inr (by rw [if_pos hcode]))⟩

/-- The timer's stub pushes neither number nor error code. -/
theorem balanced_timer : Balanced 32 := by
  intro handlers c m hret
  obtain ⟨call, m', hexec, hcall, hholds, hregs⟩ := exec_body 31
    [.sti, .iretq] .generateTimer (hret _)
    (m := step .cli (enter 32 c m)) (holds_enter 32 c m) (by
      have := length_entryWords 32 c
      omega)
  have hserved : Served .generateTimer (enter 32 c m).regs m.rsp [] c.words
      ⟨[(.generateTimer, call)], step .sti m'⟩ := ⟨⟨call, rfl, hcall⟩, hholds, hregs⟩
  exact ⟨_, hexec, hserved.balanced (Or.inl rfl)⟩

theorem balanced_syscall : Balanced 128 := by
  intro handlers c m hret
  have hlen := length_entryWords 128 c
  have hpushed := (State.Holds.push (holds_enter 128 c m) 0 (by omega)).push 128
    (by rw [List.length_cons]; omega)
  obtain ⟨t, hexec, hserved⟩ := exec_body_drop 30
    [.addRsp 16, .iretq] .syscallHandler
    (m := step (.pushqImm 128) (step (.pushqImm 0) (enter 128 c m))) (hret _) hpushed (by omega)
    (by decide) (Or.inr rfl)
  exact ⟨t, hexec, Served.balanced (v := 128) hserved (Or.inr rfl)⟩

/-- A dummy error code on top of the processor's is one word too many. -/
theorem not_balanced_of_twoCodes (hv : v = 13 ∨ v = 14 ∨ v = 17) : ¬ Balanced v := by
  intro h
  have hcode : PushesErrorCode v := by
    unfold PushesErrorCode
    omega
  let c : CpuFrame := ⟨0, 0, 0, 0, 0, 0⟩
  let m : Machine := ⟨⟨fun _ => 0, 0, fun _ => 0⟩, true⟩
  have hret : ∀ (h : Handler) (s : Machine), Returns m.rsp s ((fun _ s => s) h s) :=
    fun _ _ => ⟨rfl, fun _ _ => rfl⟩
  obtain ⟨_, t, hrun, hserved⟩ := interrupt_dummy (c := c) (m := m) (v := v) (by omega) (by omega)
    (by omega) hret
  obtain ⟨t', hrun', hbal⟩ := h _ c m hret
  rw [hrun] at hrun'
  obtain rfl := Option.some.inj hrun'
  have hholds := hserved.holds
  rw [entryWords, if_pos hcode] at hholds
  have htop := hholds.top_eq
  rw [hbal.rsp] at htop
  exact absurd htop (by decide)

end Balance

/-- An installed vector is balanced unless its stub pushes a dummy error code although the processor
    pushes one. -/
theorem balanced_iff (v : Nat) (hv : v < 48 ∨ v = 128) :
    Balanced v ↔ ¬ (v = 13 ∨ v = 14 ∨ v = 17) := by
  refine ⟨fun h hbad => not_balanced_of_twoCodes hbad h, fun hgood => ?_⟩
  obtain hv | rfl := hv
  · by_cases h32 : v = 32
    · exact h32 ▸ balanced_timer
    by_cases hcode : PushesErrorCode v
    · refine balanced_errorCode ?_
      unfold PushesErrorCode at hcode
      omega
    · exact balanced_dummy hv h32 hcode
  · exact balanced_syscall

/-- The double fault is. -/
theorem balanced_doubleFault : Balanced 8 :=
  (balanced_iff 8 (by decide)).mpr (by decide)

/-- The page fault is not. -/
theorem not_balanced_pageFault : ¬ ∀ v, v < 48 ∨ v = 128 → Balanced v :=
  fun h => not_balanced_of_twoCodes (Or.inr (Or.inl rfl)) (h 14 (by decide))

end SBUnix.Interrupt
