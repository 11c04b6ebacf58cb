import SBUnix.Interrupt.Resume
import SBUnix.Sched.Requeued

/-
  Processes that each have a processor of their own, and the one processor that stands for them.

  `Processes` is what multiprogramming is meant to be: every process has a context, which only its
  own code changes, and a timer interrupt changes who runs and nothing else. `Refines` says how
  the one processor, the kernel stacks and the scheduler's queue stand for it: the process that
  runs has its context in the processor, and everybody else's waits on their own kernel stack.
-/

namespace SBUnix.Interrupt

open Stack FrontRequeue

/-! ## The processes -/

/-- A process: its context, and its kernel stack as it last was. -/
structure Process where
  context : Context
  stack : Nat → Word

/-- Everybody, and who runs. Before the first tick that is the boot code, at 0. -/
structure Processes where
  queue : Queue Word
  process : Word → Process
  ticks : Nat

/-- The context that a new process finds, the registers as its pcb has them. -/
def entryContext (g : Pcb) (rip cs rsp ss : Word) : Context where
  regs r := g.kstack (492 + restored.idxOf r)
  rip := rip
  cs := cs
  rflags := 0x200202
  rsp := rsp
  ss := ss

/-- A timer interrupt. The idle process counts one tick when it starts. -/
def Processes.timer (idle : Word) (a : Processes) : Processes :=
  if a.ticks + 1 = 180 then
    if a.queue.running = 0 then { a with queue := { a.queue with running := idle }, ticks := 1 }
    else { a with queue := tick 3 idle a.queue, ticks := 0 }
  else { a with ticks := a.ticks + 1 }

def Processes.step (idle : Word) (a : Processes) : Event → Processes
  | .run context mem =>
    let p := a.queue.running
    { a with process := Function.update a.process p ⟨context, fun l => mem (slot p l)⟩ }
  | .timer => a.timer idle
  | .schedule e =>
    match e.arrival, e.entry with
    | some (p, g), some x =>
      { a with
        queue := arrive a.queue p g.timeRemaining.toNat
        process := Function.update a.process p
          ⟨entryContext g x.rip 0x2b x.userRsp 0x23, g.kstack⟩ }
    | _, _ => a

theorem Processes.step_schedule (idle : Word) {a : Processes} {e : SchedEvent} {p : Word}
    {g : Pcb} {x : Entry} (he : e.arrival = some (p, g)) (hx : e.entry = some x) :
    a.step idle (.schedule e) = { a with
      queue := arrive a.queue p g.timeRemaining.toNat
      process := Function.update a.process p
        ⟨entryContext g x.rip 0x2b x.userRsp 0x23, g.kstack⟩ } := by
  rw [Processes.step, he, hx]

/-- The boot code runs, and the idle process is there. -/
def Processes.start (idle functionPointer : Word) (s : Sched) (boot : Context) : Processes where
  queue := ⟨0, [], s.times⟩
  process p :=
    if p = idle then
      ⟨entryContext (s.pcbs idle) functionPointer 0x08 (slot idle 511) 0x10, fun _ => 0x10⟩
    else ⟨boot, fun _ => 0⟩
  ticks := s.timerTicks

/-! ## What the kernel may rely on -/

/-- The stack of a process, or of the boot code. -/
def stackOf (boot p : Word) : Word := if p = 0 then boot else p

/-- User code of a user process, or kernel code with room on its stack. -/
def Fits (c : Compiled) (s : Sched) (boot p : Word) (x : Context) : Prop :=
  if x.Ring3 then p ≠ 0 ∧ (s.pcbs p).processType = .user
  else ∃ i, 23 + c.depth ≤ i ∧ i ≤ 512 ∧ x.rsp = slot (stackOf boot p) i

/-- The stacks at `p` and `q` do not overlap. -/
def Apart (p q : Word) : Prop := p.toNat + 4096 ≤ q.toNat ∨ q.toNat + 4096 ≤ p.toNat

/-- A stack, aligned, that ends within memory. -/
def IsStack (p : Word) : Prop := p.toNat % 8 = 0 ∧ p.toNat + 4096 ≤ 2 ^ 64

/-- What code does between interrupts: it leaves everybody else's kernel stack alone, the first
    scheduling tick comes when somebody is ready, and a process that is scheduled has a new pcb. -/
def Allowed (c : Compiled) (boot : Word) (k : System) : Event → Prop
  | .run context mem =>
    Fits c k.sched boot k.sched.currentlyRunningProcess context ∧
      ∀ q ∈ k.known, q ≠ k.sched.currentlyRunningProcess →
        ∀ l < 512, mem (slot q l) = k.mem (slot q l)
  | .timer =>
    k.sched.firstSchedule = 1 → k.sched.timerTicks = 179 → k.sched.readyProcesses ≠ 0
  | .schedule e =>
    ∃ p g, e.arrival = some (p, g) ∧ p ≠ 0 ∧ IsStack p ∧ ∀ q ∈ boot :: k.known, Apart p q

def Step (c : Compiled) (boot : Word) (k : System) (e : Event) (k' : System) : Prop :=
  Allowed c boot k e ∧ k.step c e = .ok k'

/-! ## The refinement -/

/-- The kernel stack from the stack pointer on is as `pr` says. -/
def InUse (mem : Word → Word) (q : Word) (pr : Process) : Prop :=
  ¬ pr.context.Ring3 → ∀ i ≤ 512, pr.context.rsp = slot q i →
    ∀ l, i ≤ l → l < 512 → mem (slot q l) = pr.stack l

/-- A process that does not run: its context waits on its kernel stack. What it uses of that stack
    lies above the words that are still written when it resumes. -/
structure Suspended (c : Compiled) (s : Sched) (mem : Word → Word) (off q : Word)
    (pr : Process) (j : Nat) : Prop where
  depth : c.depth ≤ j
  top : j + 22 ≤ 512
  rsp : (s.pcbs q).rsp = slot q j
  waits : Waits s.irq0 off mem q j pr.context
  fits : Fits c s q q pr.context
  above : ¬ pr.context.Ring3 → ∀ i ≤ 512, pr.context.rsp = slot q i → j + 2 ≤ i
  inUse : InUse mem q pr

/-- Who runs, and who is queued. -/
inductive Phase (idle : Word) (arrived : List Word) (s : Sched) (q : Queue Word) : Prop
  | boot (first : s.firstSchedule = 1) (inv : SchedInv idle arrived s arrived)
      (queue : q = ⟨0, arrived, s.times⟩)
  | running (sim : Sim s q) (all : q.all.Perm (idle :: arrived)) (some : arrived ≠ [])

/-- The processor, the stacks and the scheduler stand for the processes. -/
structure Refines (c : Compiled) (boot idle : Word) (k : System) (a : Processes)
    (arrived : List Word) : Prop where
  known : k.known = idle :: arrived
  placed : ∀ q ∈ boot :: k.known, IsStack q
  apart : (boot :: k.known).Pairwise Apart
  notNull : 0 ∉ k.known
  phase : Phase idle arrived k.sched a.queue
  idle_eq : k.sched.idleProcess = idle
  kernel : (k.sched.pcbs idle).processType = .kernel
  ticks : k.sched.timerTicks = a.ticks
  ticks_lt : a.ticks < 180
  context : k.context = (a.process a.queue.running).context
  fits : Fits c k.sched boot a.queue.running k.context
  inUse : a.queue.running ≠ 0 → InUse k.mem a.queue.running (a.process a.queue.running)
  cr3 : a.queue.running ≠ 0 → k.sched.cr3 = (k.sched.pcbs a.queue.running).cr3
  tss : a.queue.running ≠ 0 → (k.sched.pcbs a.queue.running).processType = .user →
    k.sched.tssRsp = slot a.queue.running 511
  suspended : ∀ q ∈ k.known, q ≠ a.queue.running →
    ∃ j, Suspended c k.sched k.mem
      (if q = idle ∧ a.queue.running = 0 then 0x1b else 0x20) q (a.process q) j

end SBUnix.Interrupt
