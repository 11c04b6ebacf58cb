import SBUnix.Paging.Defs

/-
  The process queue and the timer of `sys/schedule.c` and `sys/isr.c`.

  A `Pcb` holds the fields these functions read or write, and `Sched` the globals, the pcbs by
  address, and the registers that `generate_timer` saves and loads. Two loops walk the ready
  list to its last pcb; `lastPcb` is that walk. A walk that visits more pcbs than there are
  addresses never ends, and is reported as such.
-/

namespace SBUnix

/-- `enum run_state`. -/
inductive RunState where
  | running
  | sleeping
  | zombie
  | idle
  deriving DecidableEq, Repr

/-- `enum p_type`. -/
inductive PType where
  | user
  | kernel
  deriving DecidableEq, Repr

/-- `pcb`, without the fields the scheduler never uses (`mm`, `exit_status`). -/
structure Pcb where
  kstack : Nat → Word
  pstack : Word
  pid : Word
  rsp : Word
  cr3 : Word
  state : RunState
  next : Word
  eEntry : Word
  timeRemaining : Word
  processType : PType

/-- The scheduler's globals, the pcbs, and the registers it switches. -/
structure Sched where
  pcbs : Word → Pcb
  readyProcesses : Word
  sleepingProcesses : Word
  idleProcess : Word
  currentlyRunningProcess : Word
  pidCount : Word
  timerTicks : Nat
  firstSchedule : Nat
  rsp : Word
  cr3 : Word
  tssRsp : Word
  /-- The address of the interrupt entry `irq0`. -/
  irq0 : Word

namespace Sched

/-- Write the pcb at `p`. -/
def setPcb (s : Sched) (p : Word) (f : Pcb → Pcb) : Sched :=
  { s with pcbs := Function.update s.pcbs p (f (s.pcbs p)) }

/-- `p->next = w`. -/
def setNext (s : Sched) (p w : Word) : Sched := s.setPcb p fun g => { g with next := w }

/-- `p->time_remaining = w`. -/
def setTimeRemaining (s : Sched) (p w : Word) : Sched :=
  s.setPcb p fun g => { g with timeRemaining := w }

/-- `p->rsp = w`. -/
def setRsp (s : Sched) (p w : Word) : Sched := s.setPcb p fun g => { g with rsp := w }

end Sched

/-- The last pcb of the list from `p`, visiting at most `n` pcbs. -/
def lastPcb (pcbs : Word → Pcb) : Nat → Word → Except Fault Word
  | 0, _ => .error .diverges
  | n + 1, p => if (pcbs p).next = 0 then .ok p else lastPcb pcbs n (pcbs p).next

/-- The number of addresses: a longer walk repeats itself. -/
def walkFuel : Nat := 2 ^ 64

/-! ## `schedule.c` -/

def schedulerInit (s : Sched) : Sched :=
  { s with
    readyProcesses := 0
    sleepingProcesses := 0
    idleProcess := 0
    currentlyRunningProcess := 0
    pidCount := 0 }

/-- The interrupt frame that the timer returns through: stack segment, stack pointer, flags,
    code segment, instruction pointer, and the return into the interrupt entry. -/
def setupStack (p ss userRsp cs rip irqReturn : Word) (g : Pcb) : Pcb :=
  let kstack := Function.update g.kstack 511 ss
  let kstack := Function.update kstack 510 userRsp
  let kstack := Function.update kstack 509 0x200202
  let kstack := Function.update kstack 508 cs
  let kstack := Function.update kstack 507 rip
  let kstack := Function.update kstack (507 - 16) irqReturn
  { g with kstack := kstack, rsp := (507 - 17) * 8 + p }

/-- Link `process` behind the last pcb of the ready list. -/
def appendReady (process : Word) (s : Sched) : Except Fault Sched :=
  if s.readyProcesses = 0 then
    .ok ({ s with readyProcesses := process }.setNext process 0)
  else do
    let temp ← lastPcb s.pcbs walkFuel s.readyProcesses
    return (s.setNext temp process).setNext process 0

def scheduleIdleProcess (dummyProcess functionPointer : Word) (s : Sched) : Sched :=
  let s := s.setPcb dummyProcess fun g =>
    { setupStack dummyProcess 0x10 (511 * 8 + dummyProcess) 0x08 functionPointer (0x1b + s.irq0) g
      with processType := .kernel, state := .idle, pid := s.pidCount }
  { s with pidCount := 1 + s.pidCount, idleProcess := dummyProcess }

def scheduleReadyProcess (dummyProcess functionPointer : Word) (s : Sched) : Except Fault Sched :=
  let s := s.setPcb dummyProcess fun g =>
    { setupStack dummyProcess 0x23 (511 * 8 + dummyProcess) 0x2b functionPointer (0x20 + s.irq0) g
      with processType := .user, state := .running, pid := s.pidCount }
  appendReady dummyProcess { s with pidCount := 1 + s.pidCount }

def scheduleUserProcess (process : Word) (s : Sched) : Except Fault Sched :=
  let s := s.setPcb process fun g =>
    { setupStack process 0x23 g.pstack 0x2b g.eEntry (0x20 + s.irq0) g
      with processType := .user, state := .running, pid := s.pidCount }
  appendReady process { s with pidCount := 1 + s.pidCount }

/-! ## `isr.c` -/

/-- `timer_phase`, as far as the scheduler sees it. -/
def timerPhase (s : Sched) : Sched := { s with timerTicks := 0, firstSchedule := 1 }

def getNextReadyProcess (s : Sched) : Word × Sched :=
  let temp := s.readyProcesses
  if temp ≠ 0 then (temp, { s with readyProcesses := (s.pcbs s.readyProcesses).next })
  else (0, s)

def scheduleOldProcess (process : Word) (s : Sched) : Except Fault Sched :=
  let s := if (s.pcbs process).timeRemaining ≠ 0 then
      s.setTimeRemaining process ((s.pcbs process).timeRemaining - 1)
    else s
  let s := s.setNext process 0
  if (s.pcbs process).timeRemaining = 0 then
    let s := s.setTimeRemaining process 3
    if s.readyProcesses = 0 then .ok { s with readyProcesses := process }
    else do
      let temp ← lastPcb s.pcbs walkFuel s.readyProcesses
      return s.setNext temp process
  else
    let s := s.setNext process s.readyProcesses
    .ok { s with readyProcesses := process }

/-- Save the stack pointer of the process that runs and queue it again. -/
def saveRunning (s : Sched) : Except Fault Sched :=
  if s.currentlyRunningProcess ≠ 0 then
    scheduleOldProcess s.currentlyRunningProcess
      (s.setRsp s.currentlyRunningProcess s.rsp)
  else .ok s

/-- Load the address space and the stack pointer of a process, and make it the current one. -/
def switchTo (process : Word) (s : Sched) : Sched :=
  { s with
    cr3 := (s.pcbs process).cr3
    rsp := (s.pcbs process).rsp
    currentlyRunningProcess := process }

def generateTimer (s : Sched) : Except Fault Sched :=
  let s := { s with timerTicks := s.timerTicks + 1 }
  if s.timerTicks = 180 then
    let s := { s with timerTicks := 0 }
    if s.firstSchedule = 1 then .ok (switchTo s.idleProcess { s with firstSchedule := 0 })
    else
      let (process, s) := getNextReadyProcess s
      if process ≠ 0 then do
        let s ← saveRunning s
        let s := switchTo process s
        if (s.pcbs process).processType = .user then return { s with tssRsp := 511 * 8 + process }
        return s
      else do
        let s ← saveRunning s
        let s := s.setTimeRemaining s.idleProcess 3
        return switchTo s.idleProcess s
  else .ok s

end SBUnix
