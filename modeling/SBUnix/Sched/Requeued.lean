import SBUnix.Sched.Context

/-
  What queueing leaves alone.

  Queueing changes the ready list, and of the pcbs the link and the time (`Requeued`). So a tick
  changes nothing else of any pcb but the stack pointer of the process it stops
  (`schedulingTick_counted`), and an arrival leaves the new pcb as it was set up
  (`SchedEvent.run_arrival_pcbs`).
-/

namespace SBUnix

/-- Only the ready list, and the links and times of pcbs, differ. -/
structure Requeued (s s' : Sched) : Prop where
  rest : s' = { s with pcbs := s'.pcbs, readyProcesses := s'.readyProcesses }
  pcbs : ∀ q, s'.pcbs q = { s.pcbs q with
    next := (s'.pcbs q).next, timeRemaining := (s'.pcbs q).timeRemaining }

section Requeued

variable {s s' s'' : Sched} {p w : Word}

theorem Requeued.trans (h : Requeued s s') (h' : Requeued s' s'') : Requeued s s'' where
  rest := by
    rw [h'.rest, h.rest]
  pcbs q := by
    rw [h'.pcbs q, h.pcbs q]

theorem Requeued.setReady (s : Sched) (w : Word) : Requeued s { s with readyProcesses := w } :=
  ⟨rfl, fun _ => rfl⟩

theorem Requeued.setNext (s : Sched) (p w : Word) : Requeued s (s.setNext p w) := by
  refine ⟨rfl, fun q => ?_⟩
  unfold Sched.setNext
  by_cases h : q = p
  · rw [h, pcbs_setPcb_self]
  · rw [pcbs_setPcb_of_ne s p _ h]

theorem Requeued.setTimeRemaining (s : Sched) (p w : Word) :
    Requeued s (s.setTimeRemaining p w) := by
  refine ⟨rfl, fun q => ?_⟩
  unfold Sched.setTimeRemaining
  by_cases h : q = p
  · rw [h, pcbs_setPcb_self]
  · rw [pcbs_setPcb_of_ne s p _ h]

theorem appendReady_requeued (h : appendReady p s = .ok s') : Requeued s s' := by
  unfold appendReady at h
  split_ifs at h with h0
  · cases h
    exact (Requeued.setReady s p).trans (Requeued.setNext _ _ _)
  · obtain ⟨temp, -, htemp⟩ := bind_eq_ok.mp h
    cases htemp
    exact (Requeued.setNext s _ _).trans (Requeued.setNext _ _ _)

theorem scheduleOldProcess_requeued (h : scheduleOldProcess p s = .ok s') : Requeued s s' := by
  have hspent : Requeued s (s.spent p) :=
    (Requeued.setTimeRemaining s _ _).trans (Requeued.setNext _ _ _)
  rw [scheduleOldProcess_eq] at h
  split_ifs at h with hzero
  · have htime := hspent.trans (Requeued.setTimeRemaining (s.spent p) p 3)
    dsimp only at h
    split_ifs at h with h0
    · cases h
      exact htime.trans (Requeued.setReady _ p)
    · obtain ⟨temp, -, htemp⟩ := bind_eq_ok.mp h
      cases htemp
      exact htime.trans (Requeued.setNext _ temp p)
  · cases h
    exact (hspent.trans (Requeued.setNext _ _ _)).trans (Requeued.setReady _ p)

/-- A tick that switches restarts the count, and leaves `irq0` where it is. -/
theorem schedulingTick_counted (hf : s.firstSchedule ≠ 1) (hr : s.currentlyRunningProcess ≠ 0)
    (hq : s.readyProcesses ≠ 0) (h : schedulingTick s = .ok s') :
    s'.timerTicks = 0 ∧ s'.irq0 = s.irq0 := by
  rw [schedulingTick_switch hf hq] at h
  obtain ⟨s₁, hsave, hs'⟩ := bind_eq_ok.mp h
  cases hs'
  unfold saveRunning at hsave
  rw [if_pos (show s.popped.currentlyRunningProcess ≠ 0 from hr)] at hsave
  have hrest := (scheduleOldProcess_requeued hsave).rest
  unfold Sched.enter
  dsimp only
  split_ifs <;> exact ⟨(congrArg Sched.timerTicks hrest :), (congrArg Sched.irq0 hrest :)⟩

/-- What the frame of a new process is set up with. -/
structure Entry where
  userRsp : Word
  rip : Word

/-- Where a process that arrives starts. -/
def SchedEvent.entry : SchedEvent → Option Entry
  | .tick => none
  | .scheduleUserProcess _ g => some ⟨g.pstack, g.eEntry⟩
  | .scheduleReadyProcess p f _ => some ⟨511 * 8 + p, f⟩

/-- An arrival sets up the stack of the new pcb, and changes no other state but the queue. -/
theorem SchedEvent.run_arrival_pcbs {e : SchedEvent} {g : Pcb} {x : Entry}
    (he : e.arrival = some (p, g)) (hx : e.entry = some x) (h : e.run s = .ok s') :
    (s'.pcbs p).kstack =
        (setupStack p 0x23 x.userRsp 0x2b x.rip (0x20 + s.irq0) g).kstack ∧
      (s'.pcbs p).processType = .user ∧
      (∀ q, q ≠ p → (s'.pcbs q).cr3 = (s.pcbs q).cr3) ∧
      s' = { s with
        pcbs := s'.pcbs
        readyProcesses := s'.readyProcesses
        pidCount := 1 + s.pidCount } := by
  have hput : ∀ f : Pcb → Pcb,
      appendReady p { (s.setPcb p fun _ => g).setPcb p f with pidCount := 1 + s.pidCount } = .ok s' →
      (s'.pcbs p).kstack = (f g).kstack ∧ (s'.pcbs p).processType = (f g).processType ∧
      (∀ q, q ≠ p → (s'.pcbs q).cr3 = (s.pcbs q).cr3) ∧
      s' = { s with
        pcbs := s'.pcbs
        readyProcesses := s'.readyProcesses
        pidCount := 1 + s.pidCount } := by
    intro f happend
    have hkept := appendReady_requeued happend
    have hself : ((s.setPcb p fun _ => g).setPcb p f).pcbs p = f g := by
      rw [pcbs_setPcb_self, pcbs_setPcb_self]
    refine ⟨?_, ?_, fun q hq => ?_, hkept.rest⟩
    · rw [hkept.pcbs p]
      show (((s.setPcb p fun _ => g).setPcb p f).pcbs p).kstack = _
      rw [hself]
    · rw [hkept.pcbs p]
      show (((s.setPcb p fun _ => g).setPcb p f).pcbs p).processType = _
      rw [hself]
    · rw [hkept.pcbs q]
      show (((s.setPcb p fun _ => g).setPcb p f).pcbs q).cr3 = _
      rw [pcbs_setPcb_of_ne _ p f hq, pcbs_setPcb_of_ne s p _ hq]
  cases e with
  | tick => cases he
  | scheduleUserProcess p' g' =>
    obtain ⟨rfl, rfl⟩ := Prod.mk.inj (Option.some.inj he)
    obtain rfl := Option.some.inj hx
    exact hput _ h
  | scheduleReadyProcess p' f g' =>
    obtain ⟨rfl, rfl⟩ := Prod.mk.inj (Option.some.inj he)
    obtain rfl := Option.some.inj hx
    exact hput _ h

end Requeued

end SBUnix
