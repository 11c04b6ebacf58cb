import SBUnix.Interrupt.Machine
import SBUnix.Sched.Events

/-
  A timer interrupt, from the code it stops to the code it returns to.

  `generate_timer` changes the stack pointer in its middle, so it may return on another stack than
  it was called on, and to another instruction: where it returns to is a word on that stack. So
  the stub `irq0` is run with the addresses of its instructions here (`codeAt`), and the call is
  taken apart into what it pushes, the scheduler's `generateTimer`, and what it pops.

  The constants of `schedule.c` fit one compilation: they leave one word for a register that
  `generate_timer` saves, and take `irq0 + 0x20` for the address behind its call. Everything else
  about the compiled function is left open (`Compiled`).
-/

namespace SBUnix.Interrupt

open Stack

/-! ## The stub and its addresses -/

/-- The bytes of an instruction; `r8` to `r15` need a prefix. -/
def Instr.size : Instr → Nat
  | .cli | .sti => 1
  | .pushq r | .popq r =>
    if r ∈ [.rax, .rbx, .rcx, .rdx, .rbp, .rsi, .rdi] then 1 else 2
  | .movqRsp _ => 3
  | .callq _ => 5
  | .iretq => 2
  | .pushqImm w => if -128 ≤ w.toInt ∧ w.toInt < 128 then 2 else 5
  | .addRsp _ => 4
  | .jmp _ => 5

def codeSize (code : List Instr) : Nat := (code.map Instr.size).sum

/-- The instructions from `n` bytes on, unless an instruction lies across. -/
def codeAt : List Instr → Nat → Option (List Instr)
  | code, 0 => some code
  | [], _ + 1 => none
  | i :: code, n + 1 => if i.size ≤ n + 1 then codeAt code (n + 1 - i.size) else none

/-- The address of the instructions `code` at the end of `irq0`. -/
def returnAddress (irq0 : Word) (code : List Instr) : Word :=
  BitVec.ofNat 64 (codeSize (text .irq0) - codeSize code) + irq0

/-! ## `generate_timer`, compiled -/

/-- What a compiler may choose: the register that `generate_timer` saves, the registers it leaves
    behind, and what it writes below the stack pointer, on the stack it starts on and on the one
    it ends on. -/
structure Compiled where
  calleeSaved : Reg
  regs : Sched → Machine → Reg → Word
  mem : Sched → Machine → Word → Word → Word
  /-- The words below the saved register that it may use. -/
  depth : Nat
  depth_le : depth ≤ 480
  kept : ∀ s m rsp a, ¬ Below m.rsp depth a → ¬ Below rsp depth a → mem s m rsp a = m.mem a

/-- The call: the return address and the saved register are pushed, the stack pointer is what the
    body leaves, and both are popped from there. -/
def callGenerateTimer (c : Compiled) (ret : Word) (s : Sched) (m : Machine) :
    Except Fault (Word × Sched × Machine) := do
  let m := { m with toState := m.push ret }
  let m := { m with toState := m.push (m.regs c.calleeSaved) }
  let s' ← generateTimer { s with rsp := m.rsp }
  let m := { m with regs := c.regs s m, rsp := s'.rsp, mem := c.mem s m s'.rsp }
  let m := { m with toState := m.pop c.calleeSaved }
  return (m.mem m.rsp, s', { m with rsp := m.rsp + 8 })

/-- Run instructions of `irq0` up to the `iretq`. -/
def runIrq0 (c : Compiled) : Nat → List Instr → Sched → Machine → Except Fault (Sched × Machine)
  | 0, _, _, _ => .error .diverges
  | _ + 1, [], s, _ => .error (.pageFault (returnAddress s.irq0 []))
  | fuel + 1, i :: code, s, m =>
    match i with
    | .iretq => .ok (s, m)
    | .callq _ => do
      let (ret, s', m') ← callGenerateTimer c (returnAddress s.irq0 code) s m
      match codeAt (text .irq0) (ret - s.irq0).toNat with
      | some code => runIrq0 c fuel code s' m'
      | none => .error (.pageFault ret)
    | i => runIrq0 c fuel code s (step i m)

/-! ## The interrupt -/

/-- What the processor holds of the code that runs. -/
@[ext] structure Context where
  regs : Reg → Word
  rip : Word
  cs : Word
  rflags : Word
  rsp : Word
  ss : Word

/-- User code; the privilege level is in the low bits of `cs`. -/
def Context.Ring3 (c : Context) : Prop := c.cs &&& 3 = 3

instance (c : Context) : Decidable c.Ring3 := inferInstanceAs (Decidable (_ = _))

/-- What the processor pushes. -/
def Context.frame (c : Context) : CpuFrame := ⟨c.ss, c.rsp, c.rflags, c.cs, c.rip, 0⟩

/-- Where it pushes: from user code on the stack of the task state segment, and always at a
    multiple of 16. -/
def entryRsp (tssRsp : Word) (c : Context) : Word :=
  (if c.Ring3 then tssRsp else c.rsp) &&& ~~~15#64

/-- What `iretq` loads. -/
def iretq (m : Machine) : Context where
  regs := m.regs
  rip := m.mem (slot m.rsp 0)
  cs := m.mem (slot m.rsp 1)
  rflags := m.mem (slot m.rsp 2)
  rsp := m.mem (slot m.rsp 3)
  ss := m.mem (slot m.rsp 4)

/-- The processor and the scheduler. `known` are the pcbs that the scheduler was given. -/
structure System where
  sched : Sched
  context : Context
  mem : Word → Word
  known : List Word

/-- A timer interrupt. -/
def System.timer (c : Compiled) (k : System) : Except Fault System := do
  let m := enter 32 k.context.frame
    ⟨⟨k.context.regs, entryRsp k.sched.tssRsp k.context, k.mem⟩, true⟩
  let (s, m) ← runIrq0 c stubFuel (text .irq0) k.sched m
  return { k with sched := s, context := iretq m, mem := m.mem }

/-! ## Runs -/

/-- The kernel stack in the pcb at `p`. -/
def storeStack (p : Word) (kstack : Nat → Word) (mem : Word → Word) : Word → Word := fun a =>
  if (a - p).toNat < 4096 then kstack ((a - p).toNat / 8) else mem a

/-- The code that runs goes on for a while, the timer interrupts it, or it has a new process
    scheduled. -/
inductive Event where
  | run (context : Context) (mem : Word → Word)
  | timer
  | schedule (e : SchedEvent)

/-- A pcb joins those that the scheduler knows. -/
def System.join (k : System) (process : Word) (s : Sched) : System :=
  { k with
    sched := s
    mem := storeStack process (s.pcbs process).kstack k.mem
    known := k.known ++ [process] }

def System.step (c : Compiled) : Event → System → Except Fault System
  | .run context mem, k => .ok { k with context := context, mem := mem }
  | .timer, k => k.timer c
  | .schedule e, k =>
    match e.arrival with
    | none => .ok k
    | some (p, _) => do
      let s ← e.run k.sched
      return k.join p s

theorem System.step_schedule (c : Compiled) {k : System} {e : SchedEvent} {p : Word}
    {g : Pcb} {s : Sched} (he : e.arrival = some (p, g)) (hrun : e.run k.sched = .ok s) :
    k.step c (.schedule e) = .ok (k.join p s) := by
  rw [System.step, he]
  dsimp only
  rw [hrun]
  rfl

/-- `start` behind `scheduler_init` and `schedule_idle_process`. -/
def System.start (idle functionPointer : Word) (s : Sched) (boot : Context) (mem : Word → Word) :
    System :=
  let s := startSched idle functionPointer s
  { sched := s
    context := boot
    mem := storeStack idle (s.pcbs idle).kstack mem
    known := [idle] }

end SBUnix.Interrupt
