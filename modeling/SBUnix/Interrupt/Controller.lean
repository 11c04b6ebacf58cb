import SBUnix.Interrupt.Machine
import SBUnix.Lib.I8259
import SBUnix.Lib.Steps

/-
  The interrupt controllers and the handlers that answer them.

  A request that is acknowledged holds back the ones behind it until a handler ends it, so a handler
  that forgets would silence its line for good. Of the code, `Op` keeps what the controllers and the
  interrupt flag notice. A `Board` is the controllers, the flag, and what is left of every handler
  that has not returned, of the process that runs and of all that wait.
-/

namespace SBUnix.Interrupt

open I8259 Steps

/-! ## The code -/

/-- An instruction that the controllers or the flag notice; `schedule` is where `generate_timer` may
    go on in another process, and `halt` a loop without end. -/
inductive Op
  | cli
  | sti
  | outb (port : BitVec 16) (v : BitVec 8)
  | schedule
  | halt
  deriving DecidableEq

/-- `timer_phase`, for a divisor. -/
def timerPhase (divisor : BitVec 32) : List Op :=
  [.outb 0x43 0x36, .outb 0x40 ((divisor &&& 0xff).setWidth 8),
    .outb 0x40 ((divisor.sshiftRight 8).setWidth 8)]

/-- The ports of `init_idt`. -/
def initIdtPorts : List Op :=
  [.outb 0x20 0x11, .outb 0xa0 0x11, .outb 0x21 0x20, .outb 0xa1 0x28, .outb 0x21 0x04,
    .outb 0xa1 0x02, .outb 0x21 0x01, .outb 0xa1 0x01, .outb 0x21 0x0, .outb 0xa1 0x0]

/-- `start`, up to its loop. -/
def startOps : List Op := timerPhase (1193180 / 2) ++ initIdtPorts ++ [.sti]

/-- `keyboard_interrupt`. -/
def keyboardInterrupt : List Op := [.outb 0x20 0x20]

/-- `irq_handler`. -/
def irqHandler (intNo : Nat) : List Op :=
  if intNo = 32 then [.outb 0x20 0x20]
  else (if 40 ≤ intNo then [.outb 0xa0 0x20] else []) ++
    (if intNo = 33 then keyboardInterrupt else []) ++ [.outb 0x20 0x20]

/-- `getstring`, which waits for the keyboard. -/
def getstringOps : List Op := [.sti]

/-- `syscall_handler`. -/
def syscallHandler (rax : Word) : List Op :=
  (if rax = 2 then getstringOps else []) ++ [.outb 0x20 0x20]

/-- `fault_handler`. -/
def faultHandler (intNo : Nat) : List Op :=
  if intNo = 14 then [.outb 0x20 0x20]
  else if intNo < 32 then [.halt]
  else [.outb 0x20 0x20]

/-- `generate_timer`. -/
def generateTimerOps : List Op := [.schedule, .outb 0x20 0x20]

/-- What the stubs call, with the number that they push and `rax`. -/
def handlerOps (intNo : Nat) (rax : Word) : Handler → List Op
  | .faultHandler => faultHandler intNo
  | .irqHandler => irqHandler intNo
  | .syscallHandler => syscallHandler rax
  | .generateTimer => generateTimerOps

/-- The instructions of a stub up to its `iretq`. -/
def stubOps (call : Handler → List Op) : Nat → List Instr → List Op
  | 0, _ => []
  | _ + 1, [] => []
  | fuel + 1, i :: code =>
    match i with
    | .cli => .cli :: stubOps call fuel code
    | .sti => .sti :: stubOps call fuel code
    | .callq h => call h ++ stubOps call fuel code
    | .jmp l => stubOps call fuel (text l)
    | .iretq => []
    | _ => stubOps call fuel code

/-- The stub of vector `v`. -/
def serviceOps (v : Nat) (rax : Word) (l : Label) : List Op :=
  stubOps (handlerOps v rax) stubFuel (text l)

/-- The stub of the timer behind its call, where processes resume. -/
def resumeOps : List Op := [.outb 0x20 0x20, .sti]

/-- The idle process starts at the call. -/
def idleOps : List Op := [.outb 0x20 0x20] ++ generateTimerOps ++ [.sti]

/-! ## The board -/

/-- What is left of a handler, and the flag of the code that it returns to. The handler of a system
    call touches the memory of its process. -/
structure Activation where
  ops : List Op
  iflag : Bool
  call : Bool

/-- The controllers and the processor. `shadow` is the instruction behind a `sti`, which is not
    interrupted; `flow` are the handlers of the process that runs, the innermost first. -/
structure Board where
  pics : Pics
  interrupts : Bool
  shadow : Bool
  flow : List Activation
  waiting : List (List Activation)

/-- A device raises a line, the processor acknowledges, a handler goes on, `generate_timer` goes on
    in another process, a process executes `int $0x80`, a page fault, another fault, or a process is
    scheduled. -/
inductive BoardEvent
  | raise (n : Fin 16)
  | acknowledge
  | go
  | switch (i : Nat)
  | syscall (rax : Word)
  | pageFault
  | fault (v : Nat)
  | spawn (idle : Bool)

namespace Board

/-- The next instruction of the innermost handler, or its `iretq`. -/
def go (b : Board) (a : Activation) (rest : List Activation) : Option Board :=
  match a.ops with
  | [] => some { b with interrupts := a.iflag, shadow := false, flow := rest }
  | .cli :: ops =>
    some { b with interrupts := false, shadow := false, flow := { a with ops := ops } :: rest }
  | .sti :: ops =>
    some { b with
      interrupts := true, shadow := !b.interrupts, flow := { a with ops := ops } :: rest }
  | .outb port v :: ops =>
    some { b with
      pics := b.pics.outb port v, shadow := false, flow := { a with ops := ops } :: rest }
  | .schedule :: ops => some { b with shadow := false, flow := { a with ops := ops } :: rest }
  | .halt :: _ => none

/-- The processor enters the gate of `v`. -/
def enter (b : Board) (v : Nat) (rax : Word) : Option Board :=
  (gate v).map fun l =>
    { b with
      interrupts := false
      shadow := false
      flow := ⟨serviceOps v rax l, b.interrupts, v = 128⟩ :: b.flow }

/-- A process runs, or its system call does. -/
def userCode : List Activation → Bool
  | [] => true
  | a :: _ => a.call

/-- Interrupts are taken now. -/
def Open (b : Board) : Prop := b.interrupts = true ∧ b.shadow = false

instance (b : Board) : Decidable b.Open := inferInstanceAs (Decidable (_ ∧ _))

def step (b : Board) : BoardEvent → Option Board
  | .raise n => some { b with pics := b.pics.raise n }
  | .acknowledge =>
    if b.Open then
      match b.pics.ack with
      | some (v, q) => ({ b with pics := q } : Board).enter v.toNat 0
      | none => none
    else none
  | .go =>
    match b.flow with
    | a :: rest => b.go a rest
    | [] => none
  | .switch i =>
    match b.flow, b.waiting[i]? with
    | ⟨.schedule :: ops, iflag, call⟩ :: rest, some flow =>
      some { b with
        shadow := false
        flow := flow
        waiting := b.waiting.eraseIdx i ++ [⟨ops, iflag, call⟩ :: rest] }
    | _, _ => none
  | .syscall rax => if b.flow = [] then b.enter 128 rax else none
  | .pageFault => if userCode b.flow then b.enter 14 0 else none
  | .fault v => if v < 32 ∧ v ≠ 14 then b.enter v 0 else none
  | .spawn idle =>
    some { b with waiting := b.waiting ++ [[⟨if idle then idleOps else resumeOps, true, false⟩]] }

def Step (b : Board) (e : BoardEvent) (b' : Board) : Prop := b.step e = some b'

/-- `start`, with the controllers as it finds them. -/
def boot (p : Pics) : Board := ⟨p, false, false, [⟨startOps, true, false⟩], []⟩

end Board

end SBUnix.Interrupt
