import SBUnix.Lib.Stack
import SBUnix.Paging.Defs

/-
  The interrupt stubs (`sys/isr.s`, `sys/irq.s`) and the gates that lead to them (`sys/idt.c`).

  The stubs only move 64-bit words between registers and the stack, so memory is one word per
  address, and `rsp` is kept apart from the other 15 registers. Flags other than the interrupt
  flag are left out: nothing here reads them.
-/

namespace SBUnix.Interrupt

open Stack

/-- The general-purpose registers besides `rsp`. -/
inductive Reg
  | rax | rbx | rcx | rdx | rbp | rsi | rdi | r8 | r9 | r10 | r11 | r12 | r13 | r14 | r15
  deriving DecidableEq, Repr

/-- The C functions that the stubs call. -/
inductive Handler
  | faultHandler | irqHandler | syscallHandler | generateTimer
  deriving DecidableEq, Repr

/-- The labels of the stubs. -/
inductive Label
  | isr0 | isr1 | isr2 | isr3 | isr4 | isr5 | isr6 | isr7 | isr8 | isr9 | isr10 | isr11 | isr12
  | isr13 | isr14 | isr15 | isr16 | isr17 | isr18 | isr19 | isr20 | isr21 | isr22 | isr23
  | isr24 | isr25 | isr26 | isr27 | isr28 | isr29 | isr30 | isr31
  | isrCommonStub
  | irq0 | irq1 | irq2 | irq3 | irq4 | irq5 | irq6 | irq7 | irq8 | irq9 | irq10 | irq11 | irq12
  | irq13 | irq14 | irq15
  | irqCommonStub | irq128
  deriving DecidableEq, Repr

/-- The instructions of the stubs; `movqRsp` is `movq %rsp, r`. -/
inductive Instr
  | cli
  | sti
  | pushqImm (w : Word)
  | pushq (r : Reg)
  | popq (r : Reg)
  | movqRsp (r : Reg)
  | addRsp (w : Word)
  | callq (h : Handler)
  | jmp (l : Label)
  | iretq
  deriving DecidableEq, Repr

/-- A stub that pushes a dummy error code. -/
def dummyCodeStub (n : Word) (common : Label) : List Instr :=
  [.cli, .pushqImm 0, .pushqImm n, .jmp common]

/-- A stub that leaves the error code to the processor. -/
def errorCodeStub (n : Word) : List Instr := [.cli, .pushqImm n, .jmp .isrCommonStub]

/-- The code behind each label. -/
def text : Label → List Instr
  | .isr0 => dummyCodeStub 0 .isrCommonStub
  | .isr1 => dummyCodeStub 1 .isrCommonStub
  | .isr2 => dummyCodeStub 2 .isrCommonStub
  | .isr3 => dummyCodeStub 3 .isrCommonStub
  | .isr4 => dummyCodeStub 4 .isrCommonStub
  | .isr5 => dummyCodeStub 5 .isrCommonStub
  | .isr6 => dummyCodeStub 6 .isrCommonStub
  | .isr7 => dummyCodeStub 7 .isrCommonStub
  | .isr8 => errorCodeStub 8
  | .isr9 => dummyCodeStub 9 .isrCommonStub
  | .isr10 => errorCodeStub 10
  | .isr11 => errorCodeStub 11
  | .isr12 => errorCodeStub 12
  | .isr13 => dummyCodeStub 13 .isrCommonStub
  | .isr14 => dummyCodeStub 14 .isrCommonStub
  | .isr15 => dummyCodeStub 15 .isrCommonStub
  | .isr16 => dummyCodeStub 16 .isrCommonStub
  | .isr17 => dummyCodeStub 17 .isrCommonStub
  | .isr18 => dummyCodeStub 18 .isrCommonStub
  | .isr19 => dummyCodeStub 19 .isrCommonStub
  | .isr20 => dummyCodeStub 20 .isrCommonStub
  | .isr21 => dummyCodeStub 21 .isrCommonStub
  | .isr22 => dummyCodeStub 22 .isrCommonStub
  | .isr23 => dummyCodeStub 23 .isrCommonStub
  | .isr24 => dummyCodeStub 24 .isrCommonStub
  | .isr25 => dummyCodeStub 25 .isrCommonStub
  | .isr26 => dummyCodeStub 26 .isrCommonStub
  | .isr27 => dummyCodeStub 27 .isrCommonStub
  | .isr28 => dummyCodeStub 28 .isrCommonStub
  | .isr29 => dummyCodeStub 29 .isrCommonStub
  | .isr30 => dummyCodeStub 30 .isrCommonStub
  | .isr31 => dummyCodeStub 31 .isrCommonStub
  | .isrCommonStub =>
    [.pushq .rdi, .pushq .rax, .pushq .rbx, .pushq .rcx, .pushq .rdx, .pushq .rbp, .pushq .rsi,
      .pushq .r8, .pushq .r9, .pushq .r10, .pushq .r11, .pushq .r12, .pushq .r13, .pushq .r14,
      .pushq .r15,
      .movqRsp .rdi, .callq .faultHandler,
      .popq .r15, .popq .r14, .popq .r13, .popq .r12, .popq .r11, .popq .r10, .popq .r9, .popq .r8,
      .popq .rsi, .popq .rbp, .popq .rdx, .popq .rcx, .popq .rbx, .popq .rax, .popq .rdi,
      .addRsp 0x10, .sti, .iretq]
  | .irq0 =>
    [.cli,
      .pushq .rdi, .pushq .rax, .pushq .rbx, .pushq .rcx, .pushq .rdx, .pushq .rbp, .pushq .rsi,
      .pushq .r8, .pushq .r9, .pushq .r10, .pushq .r11, .pushq .r12, .pushq .r13, .pushq .r14,
      .pushq .r15,
      .movqRsp .rdi, .callq .generateTimer,
      .popq .r15, .popq .r14, .popq .r13, .popq .r12, .popq .r11, .popq .r10, .popq .r9, .popq .r8,
      .popq .rsi, .popq .rbp, .popq .rdx, .popq .rcx, .popq .rbx, .popq .rax, .popq .rdi,
      .sti, .iretq]
  | .irq1 => dummyCodeStub 33 .irqCommonStub
  | .irq2 => dummyCodeStub 34 .irqCommonStub
  | .irq3 => dummyCodeStub 35 .irqCommonStub
  | .irq4 => dummyCodeStub 36 .irqCommonStub
  | .irq5 => dummyCodeStub 37 .irqCommonStub
  | .irq6 => dummyCodeStub 38 .irqCommonStub
  | .irq7 => dummyCodeStub 39 .irqCommonStub
  | .irq8 => dummyCodeStub 40 .irqCommonStub
  | .irq9 => dummyCodeStub 41 .irqCommonStub
  | .irq10 => dummyCodeStub 42 .irqCommonStub
  | .irq11 => dummyCodeStub 43 .irqCommonStub
  | .irq12 => dummyCodeStub 44 .irqCommonStub
  | .irq13 => dummyCodeStub 45 .irqCommonStub
  | .irq14 => dummyCodeStub 46 .irqCommonStub
  | .irq15 => dummyCodeStub 47 .irqCommonStub
  | .irqCommonStub =>
    [.pushq .rdi, .pushq .rax, .pushq .rbx, .pushq .rcx, .pushq .rdx, .pushq .rbp, .pushq .rsi,
      .pushq .r8, .pushq .r9, .pushq .r10, .pushq .r11, .pushq .r12, .pushq .r13, .pushq .r14,
      .pushq .r15,
      .movqRsp .rdi, .callq .irqHandler,
      .popq .r15, .popq .r14, .popq .r13, .popq .r12, .popq .r11, .popq .r10, .popq .r9, .popq .r8,
      .popq .rsi, .popq .rbp, .popq .rdx, .popq .rcx, .popq .rbx, .popq .rax, .popq .rdi,
      .addRsp 0x10, .sti, .iretq]
  | .irq128 =>
    [.pushqImm 0, .pushqImm 128,
      .pushq .rdi, .pushq .rax, .pushq .rbx, .pushq .rcx, .pushq .rdx, .pushq .rbp, .pushq .rsi,
      .pushq .r8, .pushq .r9, .pushq .r10, .pushq .r11, .pushq .r12, .pushq .r13, .pushq .r14,
      .pushq .r15,
      .movqRsp .rdi, .callq .syscallHandler,
      .popq .r15, .popq .r14, .popq .r13, .popq .r12, .popq .r11, .popq .r10, .popq .r9, .popq .r8,
      .popq .rsi, .popq .rbp, .popq .rdx, .popq .rcx, .popq .rbx, .popq .rax, .popq .rdi,
      .addRsp 16, .iretq]

/-- The calls of `idt_set_gate` in `idt_install` and `init_idt`. -/
def idt : List (Nat × Label) :=
  [(0, .isr0), (1, .isr1), (2, .isr2), (3, .isr3), (4, .isr4), (5, .isr5), (6, .isr6),
    (7, .isr7), (8, .isr8), (9, .isr9), (10, .isr10), (11, .isr11), (12, .isr12),
    (13, .isr13), (14, .isr14), (15, .isr15), (16, .isr16), (17, .isr17), (18, .isr18),
    (19, .isr19), (20, .isr20), (21, .isr21), (22, .isr22), (23, .isr23), (24, .isr24),
    (25, .isr25), (26, .isr26), (27, .isr27), (28, .isr28), (29, .isr29), (30, .isr30),
    (31, .isr31), (32, .irq0), (33, .irq1), (34, .irq2), (35, .irq3), (36, .irq4),
    (37, .irq5), (38, .irq6), (39, .irq7), (40, .irq8), (41, .irq9), (42, .irq10),
    (43, .irq11), (44, .irq12), (45, .irq13), (46, .irq14), (47, .irq15), (128, .irq128)]

/-- The stub of a vector. -/
def gate (v : Nat) : Option Label := idt.lookup v

/-! ## Running a stub -/

/-- The processor: the registers, the stack and the interrupt flag. -/
structure Machine extends State Reg where
  interrupts : Bool

/-- An instruction that goes on to the next one. -/
def step : Instr → Machine → Machine
  | .cli, m => { m with interrupts := false }
  | .sti, m => { m with interrupts := true }
  | .pushqImm w, m => { m with toState := m.push w }
  | .pushq r, m => { m with toState := m.push (m.regs r) }
  | .popq r, m => { m with toState := m.pop r }
  | .movqRsp r, m => { m with regs := fun r' => if r' = r then m.rsp else m.regs r' }
  | .addRsp w, m => { m with rsp := m.rsp + w }
  | _, m => m

/-- What happened up to the `iretq`: the handlers that were called, with the machine at the call,
    and the machine at the `iretq`. -/
structure Trip where
  calls : List (Handler × Machine)
  exit : Machine

/-- Run code up to its `iretq`. A handler takes the machine at its `callq` to the machine behind
    it, the return address pushed and popped again. -/
def exec (handlers : Handler → Machine → Machine) : Nat → List Instr → Machine → Option Trip
  | 0, _, _ => none
  | _ + 1, [], _ => none
  | fuel + 1, i :: code, m =>
    match i with
    | .iretq => some ⟨[], m⟩
    | .jmp l => exec handlers fuel (text l) m
    | .callq h => (exec handlers fuel code (handlers h m)).map fun t =>
        { t with calls := (h, m) :: t.calls }
    | i => exec handlers fuel code (step i m)

/-- More instructions than any stub has. -/
def stubFuel : Nat := 64

/-- What the processor pushes. -/
structure CpuFrame where
  ss : Word
  rsp : Word
  rflags : Word
  cs : Word
  rip : Word
  errorCode : Word

/-- The vectors for which the processor pushes an error code. -/
def PushesErrorCode (v : Nat) : Prop := v = 8 ∨ (10 ≤ v ∧ v ≤ 14) ∨ v = 17

instance (v : Nat) : Decidable (PushesErrorCode v) := inferInstanceAs (Decidable (_ ∨ _))

/-- The processor enters an interrupt gate. -/
def enter (v : Nat) (c : CpuFrame) (m : Machine) : Machine :=
  let s := ((((m.push c.ss).push c.rsp).push c.rflags).push c.cs).push c.rip
  { toState := if PushesErrorCode v then s.push c.errorCode else s, interrupts := false }

/-- Interrupt `v` at the machine `m`. -/
def interrupt (handlers : Handler → Machine → Machine) (v : Nat) (c : CpuFrame) (m : Machine) :
    Option Trip :=
  (gate v).bind fun l => exec handlers stubFuel (text l) (enter v c m)

/-- `registers`. -/
@[ext] structure Registers where
  (r15 r14 r13 r12 r11 r10 r9 r8 rsi rbp rdx rcx rbx rax rdi : Word)
  (intNo errCode : Word)
  (rip cs rflags useresp ss : Word)
  deriving DecidableEq, Repr

/-- The packed struct at `p`. -/
def readRegisters (mem : Word → Word) (p : Word) : Registers where
  r15 := mem (slot p 0)
  r14 := mem (slot p 1)
  r13 := mem (slot p 2)
  r12 := mem (slot p 3)
  r11 := mem (slot p 4)
  r10 := mem (slot p 5)
  r9 := mem (slot p 6)
  r8 := mem (slot p 7)
  rsi := mem (slot p 8)
  rbp := mem (slot p 9)
  rdx := mem (slot p 10)
  rcx := mem (slot p 11)
  rbx := mem (slot p 12)
  rax := mem (slot p 13)
  rdi := mem (slot p 14)
  intNo := mem (slot p 15)
  errCode := mem (slot p 16)
  rip := mem (slot p 17)
  cs := mem (slot p 18)
  rflags := mem (slot p 19)
  useresp := mem (slot p 20)
  ss := mem (slot p 21)

/-- The handlers that take a `registers *`: the address goes into `rdi` for all of them, but
    `generate_timer` has no parameter. -/
def Handler.TakesRegisters (h : Handler) : Prop := h ≠ .generateTimer

instance (h : Handler) : Decidable h.TakesRegisters := inferInstanceAs (Decidable (_ ≠ _))

end SBUnix.Interrupt
