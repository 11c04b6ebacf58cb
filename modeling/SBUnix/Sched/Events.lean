import SBUnix.Sched.ReadyList

/-
  Timer ticks and arrivals.

  A scheduling tick is a `generate_timer` call at which `timer_ticks` reaches 180; the calls in
  between only count (`generateTimer_calls`). `Sim s q` says that the scheduler state `s` is
  the abstract queue `q`: `schedulingTick_sim` and `SchedEvent.run_arrival_sim` show that
  ticks and arrivals are the two operations of that queue, as long as the process that runs is not
  also in the list behind its head.
-/

namespace SBUnix

open FrontRequeue

/-! ## Ticks -/

/-- A `generate_timer` call at which `timer_ticks` reaches 180. -/
def schedulingTick (s : Sched) : Except Fault Sched := generateTimer { s with timerTicks := 179 }

/-- `n` calls of `generate_timer`. -/
def timerCalls : Nat → Sched → Except Fault Sched
  | 0, s => .ok s
  | n + 1, s => do
    let s ← timerCalls n s
    generateTimer s

/-- The calls before the tick only count. -/
theorem timerCalls_eq (s : Sched) {n : Nat} (hn : s.timerTicks + n < 180) :
    timerCalls n s = .ok { s with timerTicks := s.timerTicks + n } := by
  induction n with
  | zero => rfl
  | succ n ih =>
    rw [timerCalls, ih (by omega), ok_bind]
    unfold generateTimer
    exact if_neg (by dsimp only; omega)

/-- From a counter of 0, 180 calls are one scheduling tick. -/
theorem generateTimer_calls (s : Sched) (h0 : s.timerTicks = 0) :
    timerCalls 180 s = schedulingTick s := by
  rw [timerCalls, timerCalls_eq s (by omega), ok_bind, h0]
  rfl

section Tick

variable {s : Sched} {l : List Word}

/-- Saving the process that runs puts it back into the list. -/
theorem saveRunning_spec (h : ReadyChain s.pcbs s.readyProcesses l)
    (hr : s.currentlyRunningProcess ≠ 0) (hrl : s.currentlyRunningProcess ∉ l) :
    ∃ s', saveRunning s = .ok s' ∧
      ReadyChain s'.pcbs s'.readyProcesses
        (requeue s.currentlyRunningProcess (s.times s.currentlyRunningProcess) l) ∧
      SameQueueing s s' ∧
      s'.times = Function.update s.times s.currentlyRunningProcess
        (spend 3 (s.times s.currentlyRunningProcess)) := by
  have hsaved : ReadyChain (s.setRsp s.currentlyRunningProcess s.rsp).pcbs s.readyProcesses l :=
    h.congr fun x _ => next_setRsp _ _ _ x
  obtain ⟨s', hrun, hchain, hsame, htimes⟩ := scheduleOldProcess_spec hsaved hr hrl
  rw [times_setRsp] at hchain htimes
  refine ⟨s', ?_, hchain, ⟨hsame.idle, hsame.running, hsame.ticks, hsame.first⟩, htimes⟩
  unfold saveRunning
  rw [if_pos hr, hrun]

/-- Saving a process that is in the list already leaves no list at all. -/
theorem saveRunning_cycle (h : ReadyChain s.pcbs s.readyProcesses l)
    (hrl : s.currentlyRunningProcess ∈ l) :
    ∃ s', saveRunning s = .ok s' ∧ ∀ t, ¬ ReadyChain s'.pcbs s'.readyProcesses t := by
  have hsaved : ReadyChain (s.setRsp s.currentlyRunningProcess s.rsp).pcbs s.readyProcesses l :=
    h.congr fun x _ => next_setRsp _ _ _ x
  obtain ⟨s', hrun, -, hno⟩ := scheduleOldProcess_cycle hsaved hrl
  refine ⟨s', ?_, hno⟩
  unfold saveRunning
  rw [if_pos (h.ne_zero hrl), hrun]

/-- What a tick reads before it switches: the list without its head. -/
def Sched.popped (s : Sched) : Sched :=
  { s with timerTicks := 0, readyProcesses := (s.pcbs s.readyProcesses).next }

/-- The registers a switch to `process` loads last. -/
def Sched.enter (s : Sched) (process : Word) : Sched :=
  let s := switchTo process s
  if (s.pcbs process).processType = .user then { s with tssRsp := 511 * 8 + process } else s

theorem enter_spec (s : Sched) (p : Word) : (s.enter p).pcbs = s.pcbs ∧
    (s.enter p).readyProcesses = s.readyProcesses ∧ (s.enter p).currentlyRunningProcess = p ∧
    (s.enter p).idleProcess = s.idleProcess ∧ (s.enter p).firstSchedule = s.firstSchedule := by
  unfold Sched.enter
  dsimp only
  split_ifs <;> exact ⟨rfl, rfl, rfl, rfl, rfl⟩

/-- The first tick runs the idle process. -/
theorem schedulingTick_first (hf : s.firstSchedule = 1) :
    schedulingTick s =
      .ok (switchTo s.idleProcess { s with timerTicks := 0, firstSchedule := 0 }) := by
  unfold schedulingTick generateTimer
  dsimp only
  rw [if_pos rfl, if_pos hf]

/-- A later tick with a process to run. -/
theorem schedulingTick_switch (hf : s.firstSchedule ≠ 1) (hq : s.readyProcesses ≠ 0) :
    schedulingTick s = (do
      let s' ← saveRunning s.popped
      return s'.enter s.readyProcesses) := by
  unfold schedulingTick generateTimer getNextReadyProcess
  dsimp only
  rw [if_pos rfl, if_neg hf, if_pos hq]
  dsimp only
  rw [if_pos hq]
  refine congrArg _ (funext fun s' => ?_)
  unfold Sched.enter
  dsimp only
  split_ifs <;> rfl

/-- A later tick with no process to run. -/
theorem schedulingTick_idle (hf : s.firstSchedule ≠ 1) (hq : s.readyProcesses = 0) :
    schedulingTick s = (do
      let s' ← saveRunning { s with timerTicks := 0 }
      return switchTo s'.idleProcess (s'.setTimeRemaining s'.idleProcess 3)) := by
  unfold schedulingTick generateTimer getNextReadyProcess
  dsimp only
  rw [if_pos rfl, if_neg hf, if_neg (not_not.mpr hq)]
  dsimp only
  rw [if_neg (by simp)]
  rfl

end Tick

/-! ## Arrivals -/

/-- A scheduling tick, or a process created as `pcb` at address `process` and then scheduled. -/
inductive SchedEvent where
  | tick
  | scheduleUserProcess (process : Word) (pcb : Pcb)
  | scheduleReadyProcess (process functionPointer : Word) (pcb : Pcb)

namespace SchedEvent

def run : SchedEvent → Sched → Except Fault Sched
  | tick, s => schedulingTick s
  | scheduleUserProcess p g, s => SBUnix.scheduleUserProcess p (s.setPcb p fun _ => g)
  | scheduleReadyProcess p f g, s => SBUnix.scheduleReadyProcess p f (s.setPcb p fun _ => g)

theorem run_tick (s : Sched) : tick.run s = schedulingTick s := rfl

/-- The pcb that arrives. -/
def arrival : SchedEvent → Option (Word × Pcb)
  | tick => none
  | scheduleUserProcess p g => some (p, g)
  | scheduleReadyProcess p _ g => some (p, g)

end SchedEvent

/-- The pcbs that arrive, in order. -/
def arrivals (es : List SchedEvent) : List Word :=
  es.filterMap fun e => e.arrival.map Prod.fst

/-- A run of events. -/
def runEvents (es : List SchedEvent) (s : Sched) : Except Fault Sched :=
  es.foldlM (fun s e => e.run s) s

theorem runEvents_append (es es' : List SchedEvent) (s : Sched) :
    runEvents (es ++ es') s = runEvents es s >>= runEvents es' := by
  unfold runEvents
  rw [List.foldlM_append]

theorem runEvents_cons (e : SchedEvent) (es : List SchedEvent) (s : Sched) :
    runEvents (e :: es) s = e.run s >>= runEvents es := by
  unfold runEvents
  rw [List.foldlM_cons]

section Arrive

variable {s : Sched} {l : List Word} {p : Word}

theorem times_setPcb_const (s : Sched) (p : Word) (g : Pcb) :
    (s.setPcb p fun _ => g).times = Function.update s.times p g.timeRemaining.toNat := by
  funext q
  unfold Sched.times
  by_cases h : q = p
  · rw [h, pcbs_setPcb_self, Function.update_self]
  · rw [pcbs_setPcb_of_ne s p _ h, Function.update_of_ne h]

theorem times_setPcb_keep (s : Sched) (p : Word) (f : Pcb → Pcb)
    (hf : ∀ g, (f g).timeRemaining = g.timeRemaining) : (s.setPcb p f).times = s.times := by
  funext q
  unfold Sched.times
  by_cases h : q = p
  · rw [h, pcbs_setPcb_self, hf]
  · rw [pcbs_setPcb_of_ne s p _ h]

/-- Writing to a pcb outside the list keeps the list. -/
theorem ReadyChain.setPcb (h : ReadyChain s.pcbs s.readyProcesses l) (hpl : p ∉ l)
    (f : Pcb → Pcb) : ReadyChain (s.setPcb p f).pcbs s.readyProcesses l :=
  h.congr fun x hx => by rw [pcbs_setPcb_of_ne s p f fun he => hpl (he ▸ hx)]

/-- An arriving pcb goes to the end of the list, with its own `time_remaining`. -/
theorem SchedEvent.run_arrival {e : SchedEvent} {g : Pcb} (he : e.arrival = some (p, g))
    (h : ReadyChain s.pcbs s.readyProcesses l) (hp : p ≠ 0) (hpl : p ∉ l) :
    ∃ s', e.run s = .ok s' ∧ ReadyChain s'.pcbs s'.readyProcesses (l ++ [p]) ∧
      SameQueueing s s' ∧ s'.times = Function.update s.times p g.timeRemaining.toNat := by
  have hput : ∀ (f : Pcb → Pcb) (n : Word), (∀ g, (f g).timeRemaining = g.timeRemaining) →
      ∃ s', appendReady p { (s.setPcb p fun _ => g).setPcb p f with pidCount := n } = .ok s' ∧
        ReadyChain s'.pcbs s'.readyProcesses (l ++ [p]) ∧ SameQueueing s s' ∧
        s'.times = Function.update s.times p g.timeRemaining.toNat := by
    intro f n hf
    have hset : ReadyChain (s.setPcb p fun _ => g).pcbs s.readyProcesses l := h.setPcb hpl _
    have hset' : ReadyChain ((s.setPcb p fun _ => g).setPcb p f).pcbs s.readyProcesses l :=
      ReadyChain.setPcb (s := s.setPcb p fun _ => g) hset hpl f
    obtain ⟨s', hrun, hchain, hsame, htimes⟩ := appendReady_spec
      (s := { (s.setPcb p fun _ => g).setPcb p f with pidCount := n }) hset' hp hpl
    refine ⟨s', hrun, hchain, ⟨hsame.idle, hsame.running, hsame.ticks, hsame.first⟩,
      htimes.trans ?_⟩
    exact (times_setPcb_keep _ p f hf).trans (times_setPcb_const s p g)
  cases e with
  | tick => cases he
  | scheduleUserProcess p' g' =>
    obtain ⟨rfl, rfl⟩ := Prod.mk.inj (Option.some.inj he)
    exact hput (fun g => { setupStack p' 0x23 g.pstack 0x2b g.eEntry (0x20 + s.irq0) g
      with processType := .user, state := .running, pid := s.pidCount }) _ fun _ => rfl
  | scheduleReadyProcess p' f g' =>
    obtain ⟨rfl, rfl⟩ := Prod.mk.inj (Option.some.inj he)
    exact hput (fun g => { setupStack p' 0x23 (511 * 8 + p') 0x2b f (0x20 + s.irq0) g
      with processType := .user, state := .running, pid := s.pidCount }) _ fun _ => rfl

end Arrive

/-! ## The abstract queue -/

/-- The scheduler state is the abstract queue `q`, after its first tick. -/
structure Sim (s : Sched) (q : Queue Word) : Prop where
  chain : ReadyChain s.pcbs s.readyProcesses q.ready
  running : s.currentlyRunningProcess = q.running
  notNull : q.running ≠ 0
  times : s.times = q.budget
  started : s.firstSchedule ≠ 1

section Sim

variable {s : Sched} {q : Queue Word}

/-- A tick is a tick of the abstract queue. -/
theorem schedulingTick_sim (h : Sim s q) (hidle : s.idleProcess ≠ 0)
    (hr : q.running ∉ q.ready.tail) :
    ∃ s', schedulingTick s = .ok s' ∧ Sim s' (tick 3 s.idleProcess q) ∧
      s'.idleProcess = s.idleProcess := by
  have hrun := h.running
  have hr0 : s.currentlyRunningProcess ≠ 0 := by
    rw [hrun]
    exact h.notNull
  cases hl : q.ready with
  | nil =>
    have hchain := h.chain
    rw [hl] at hchain
    obtain ⟨s', hsave, hchain', hsame, htimes⟩ :=
      saveRunning_spec (s := { s with timerTicks := 0 }) hchain hr0 (by simp)
    rw [schedulingTick_idle h.started (readyChain_nil.mp hchain), hsave, ok_bind]
    refine ⟨_, rfl, ?_, hsame.idle⟩
    unfold tick
    rw [hl]
    refine ⟨?_, hsame.idle, hidle, ?_, ?_⟩
    · have hone : requeue s.currentlyRunningProcess (s.times s.currentlyRunningProcess) [] =
          [q.running] := by
        unfold requeue
        rw [hrun]
        split_ifs <;> rfl
      exact (hone ▸ hchain').congr fun x _ => next_setTimeRemaining _ _ _ x
    · show (s'.setTimeRemaining s'.idleProcess 3).times = _
      rw [times_setTimeRemaining, htimes, hsame.idle, ← h.times, ← hrun]
      rfl
    · show s'.firstSchedule ≠ 1
      rw [hsame.first]
      exact h.started
  | cons p t =>
    have hchain := h.chain
    rw [hl] at hchain hr
    obtain ⟨hp, hp0, ht⟩ := readyChain_cons.mp hchain
    have hpop : ReadyChain s.popped.pcbs s.popped.readyProcesses t := by
      show ReadyChain s.pcbs (s.pcbs s.readyProcesses).next t
      rwa [hp]
    obtain ⟨s', hsave, hchain', hsame, htimes⟩ :=
      saveRunning_spec hpop hr0 (by
        show s.currentlyRunningProcess ∉ t
        rwa [hrun])
    rw [schedulingTick_switch h.started (by rwa [hp]), hsave, ok_bind]
    obtain ⟨hpcbs, hready, hcur, hidle', hfirst⟩ := enter_spec s' s.readyProcesses
    refine ⟨_, rfl, ?_, hidle'.trans hsame.idle⟩
    unfold tick
    rw [hl]
    refine ⟨?_, hcur.trans hp, hp0, ?_, ?_⟩
    · rw [hpcbs, hready, ← h.times, ← hrun]
      exact hchain'
    · have htimes' : (s'.enter s.readyProcesses).times = s'.times := by
        unfold Sched.times
        rw [hpcbs]
      rw [htimes', htimes, ← h.times, ← hrun]
      rfl
    · rw [hfirst, hsame.first]
      exact h.started

/-- An arrival is an arrival at the abstract queue. -/
theorem SchedEvent.run_arrival_sim {e : SchedEvent} {p : Word} {g : Pcb} (h : Sim s q)
    (he : e.arrival = some (p, g)) (hp : p ≠ 0) (hpl : p ∉ q.ready) :
    ∃ s', e.run s = .ok s' ∧ Sim s' (arrive q p g.timeRemaining.toNat) ∧
      s'.idleProcess = s.idleProcess := by
  obtain ⟨s', hrun, hchain, hsame, htimes⟩ := SchedEvent.run_arrival he h.chain hp hpl
  refine ⟨s', hrun, ⟨hchain, hsame.running.trans h.running, h.notNull, ?_, ?_⟩, hsame.idle⟩
  · rw [htimes, h.times]
    rfl
  · rw [hsame.first]
    exact h.started

/-- The start of the scheduler: `scheduler_init`, and the idle process installed. -/
def startSched (idle functionPointer : Word) (s : Sched) : Sched :=
  scheduleIdleProcess idle functionPointer (schedulerInit s)

theorem startSched_chain (idle fp : Word) (s : Sched) :
    ReadyChain (startSched idle fp s).pcbs (startSched idle fp s).readyProcesses [] := rfl

theorem times_startSched (idle fp : Word) (s : Sched) : (startSched idle fp s).times = s.times := by
  exact times_setPcb_keep (schedulerInit s) idle
    (fun g => { setupStack idle 0x10 (511 * 8 + idle) 0x08 fp (0x1b + s.irq0) g
      with processType := .kernel, state := .idle, pid := 0 }) fun _ => rfl

end Sim

end SBUnix
