import SBUnix.Sched.Events

/-
  Integrity of the ready list over whole runs.

  `SchedInv` is the invariant: the list is a chain, every process that arrived is in it or
  runs, and nothing else is in it but the idle process. A tick keeps it as long as the process
  that runs is not in the list behind its head (`TickSafe`). When it is, the tick closes a
  cycle, and there is no list any more. `integrity_iff` puts the two together. The idle process
  gets into that position when a tick finds the list empty: it is queued again and runs.
-/

namespace SBUnix

open FrontRequeue

/-- The ready list is a NULL-terminated chain without repetition, every process that arrived is in
    it or runs, and every next tick or arrival of a new process returns. -/
def Integrity (s : Sched) (arrived : List Word) : Prop :=
  (∃ l, ReadyChain s.pcbs s.readyProcesses l ∧ l.Nodup ∧
    ∀ p ∈ arrived, p ∈ l ∨ p = s.currentlyRunningProcess) ∧
  ∀ e : SchedEvent, (∀ a ∈ e.arrival, a.1 ≠ 0 ∧ a.1 ≠ s.idleProcess ∧ a.1 ∉ arrived) →
    ∃ s', e.run s = .ok s'

/-- After the first tick, the process that runs is not in the ready list behind its head. -/
def TickSafe (s : Sched) : Prop :=
  s.firstSchedule ≠ 1 → ∀ l, ReadyChain s.pcbs s.readyProcesses l →
    s.currentlyRunningProcess ∉ l.tail

/-- The invariant of runs from `startSched`. -/
structure SchedInv (idle : Word) (arrived : List Word) (s : Sched) (l : List Word) : Prop where
  chain : ReadyChain s.pcbs s.readyProcesses l
  idle_eq : s.idleProcess = idle
  notNull : ∀ p ∈ arrived, p ≠ 0
  listed : ∀ p ∈ l, p ∈ idle :: arrived
  held : ∀ p ∈ arrived, p ∈ l ∨ p = s.currentlyRunningProcess
  phase : (s.firstSchedule = 1 ∧ s.currentlyRunningProcess = 0) ∨
    (s.firstSchedule ≠ 1 ∧ s.currentlyRunningProcess ≠ 0 ∧
      s.currentlyRunningProcess ∈ idle :: arrived)

section SchedInv

variable {idle : Word} {arrived l : List Word} {s : Sched}

/-- The abstract queue of a started scheduler. -/
theorem SchedInv.sim (h : SchedInv idle arrived s l) (hf : s.firstSchedule ≠ 1) :
    Sim s ⟨s.currentlyRunningProcess, l, s.times⟩ := by
  obtain ⟨h1, -⟩ | ⟨-, hr, -⟩ := h.phase
  · exact absurd h1 hf
  · exact ⟨h.chain, rfl, hr, rfl, hf⟩

theorem SchedInv.start (idle fp : Word) {s : Sched} (hf : s.firstSchedule = 1) :
    SchedInv idle [] (startSched idle fp s) [] where
  chain := startSched_chain idle fp s
  idle_eq := rfl
  notNull := by simp
  listed := by simp
  held := by simp
  phase := Or.inl ⟨hf, rfl⟩

/-- An arrival of a new process. -/
theorem SchedInv.arrival (h : SchedInv idle arrived s l) {e : SchedEvent} {p : Word} {g : Pcb}
    (he : e.arrival = some (p, g)) (hp : p ≠ 0) (hnew : p ∉ idle :: arrived) :
    ∃ s', e.run s = .ok s' ∧ SchedInv idle (arrived ++ [p]) s' (l ++ [p]) := by
  obtain ⟨s', hrun, hchain, hsame, -⟩ :=
    SchedEvent.run_arrival he h.chain hp fun hpl => hnew (h.listed p hpl)
  have hmono : ∀ x ∈ idle :: arrived, x ∈ idle :: (arrived ++ [p]) := by
    intro x hx
    obtain rfl | hx := List.mem_cons.mp hx
    · exact List.mem_cons_self
    · exact List.mem_cons_of_mem _ (List.mem_append_left _ hx)
  refine ⟨s', hrun, hchain, hsame.idle.trans h.idle_eq, ?_, ?_, ?_, ?_⟩
  · intro x hx
    obtain hx | hx := List.mem_append.mp hx
    · exact h.notNull x hx
    · rwa [List.mem_singleton.mp hx]
  · intro x hx
    obtain hx | hx := List.mem_append.mp hx
    · exact hmono x (h.listed x hx)
    · exact List.mem_cons_of_mem _ (List.mem_append_right _ hx)
  · intro x hx
    rw [hsame.running]
    obtain hx | hx := List.mem_append.mp hx
    · exact (h.held x hx).imp (List.mem_append_left _) id
    · exact Or.inl (List.mem_append_right _ hx)
  · rw [hsame.first, hsame.running]
    exact h.phase.imp id fun hph => ⟨hph.1, hph.2.1, hmono _ hph.2.2⟩

/-- The first tick. -/
theorem SchedInv.first_tick (h : SchedInv idle arrived s l) (hidle : idle ≠ 0)
    (hf : s.firstSchedule = 1) :
    ∃ s', schedulingTick s = .ok s' ∧ SchedInv idle arrived s' l ∧
      s'.currentlyRunningProcess = idle ∧ s'.firstSchedule ≠ 1 ∧ s'.times = s.times := by
  have hrun : s.currentlyRunningProcess = 0 := by
    obtain ⟨-, hr⟩ | ⟨hf', -⟩ := h.phase
    · exact hr
    · exact absurd hf hf'
  rw [schedulingTick_first hf]
  refine ⟨_, rfl, ⟨h.chain, h.idle_eq, h.notNull, h.listed, ?_, Or.inr ⟨?_, ?_, ?_⟩⟩, h.idle_eq,
    by simp [switchTo], rfl⟩
  · -- nobody ran before the first tick, so everyone who arrived is in the list
    intro p hp
    obtain hpl | hp0 := h.held p hp
    · exact Or.inl hpl
    · exact absurd (hp0.trans hrun) (h.notNull p hp)
  · simp [switchTo]
  · show s.idleProcess ≠ 0
    rwa [h.idle_eq]
  · show s.idleProcess ∈ idle :: arrived
    rw [h.idle_eq]
    exact List.mem_cons_self

/-- A tick that is safe. -/
theorem SchedInv.tick (h : SchedInv idle arrived s l) (hidle : idle ≠ 0) (hsafe : TickSafe s) :
    ∃ s' l', schedulingTick s = .ok s' ∧ SchedInv idle arrived s' l' := by
  by_cases hf : s.firstSchedule = 1
  · obtain ⟨s', hrun, hinv, -⟩ := h.first_tick hidle hf
    exact ⟨s', l, hrun, hinv⟩
  have hcur : s.currentlyRunningProcess ≠ 0 ∧ s.currentlyRunningProcess ∈ idle :: arrived := by
    obtain ⟨hf', -⟩ | ⟨-, hr⟩ := h.phase
    · exact absurd hf' hf
    · exact hr
  have hidle' : s.idleProcess ≠ 0 := by rwa [h.idle_eq]
  obtain ⟨s', hrun, hsim, hkeep⟩ := schedulingTick_sim (h.sim hf) hidle' (hsafe hf l h.chain)
  rw [h.idle_eq] at hsim
  have hchain := hsim.chain
  have hr := hsim.running
  unfold FrontRequeue.tick at hchain hr
  cases l with
  | nil =>
    refine ⟨s', _, hrun, hchain, hkeep.trans h.idle_eq, h.notNull, ?_, ?_,
      Or.inr ⟨hsim.started, hr ▸ hidle, hr ▸ List.mem_cons_self⟩⟩
    · intro x hx
      rw [List.mem_singleton.mp hx]
      exact hcur.2
    · intro x hx
      obtain hx | hx := h.held x hx
      · cases hx
      · exact Or.inl (List.mem_singleton.mpr hx)
  | cons p t =>
    dsimp only at hchain hr
    have hperm := requeue_perm s.currentlyRunningProcess (s.times s.currentlyRunningProcess) t
    have hp := h.listed p List.mem_cons_self
    refine ⟨s', _, hrun, hchain, hkeep.trans h.idle_eq, h.notNull, ?_, ?_,
      Or.inr ⟨hsim.started, ?_, hr ▸ hp⟩⟩
    · intro x hx
      obtain rfl | hx := List.mem_cons.mp (hperm.mem_iff.mp hx)
      · exact hcur.2
      · exact h.listed x (List.mem_cons_of_mem _ hx)
    · intro x hx
      rw [hr]
      obtain hx | hx := h.held x hx
      · obtain rfl | hx := List.mem_cons.mp hx
        · exact Or.inr rfl
        · exact Or.inl (hperm.mem_iff.mpr (List.mem_cons_of_mem _ hx))
      · exact Or.inl (hperm.mem_iff.mpr (hx ▸ List.mem_cons_self))
    · rw [hr]
      exact h.chain.ne_zero List.mem_cons_self

/-- A tick that is not safe leaves no list. -/
theorem schedulingTick_unsafe (h : ReadyChain s.pcbs s.readyProcesses l)
    (hf : s.firstSchedule ≠ 1) (hr : s.currentlyRunningProcess ∈ l.tail) :
    ∃ s', schedulingTick s = .ok s' ∧ ∀ t, ¬ ReadyChain s'.pcbs s'.readyProcesses t := by
  cases l with
  | nil => cases hr
  | cons p t =>
    obtain ⟨hp, hp0, ht⟩ := readyChain_cons.mp h
    have hpop : ReadyChain s.popped.pcbs s.popped.readyProcesses t := by
      show ReadyChain s.pcbs (s.pcbs s.readyProcesses).next t
      rwa [hp]
    obtain ⟨s', hsave, hno⟩ := saveRunning_cycle hpop hr
    rw [schedulingTick_switch hf (by rwa [hp]), hsave, ok_bind]
    refine ⟨_, rfl, ?_⟩
    obtain ⟨hpcbs, hready, -⟩ := enter_spec s' s.readyProcesses
    rw [hpcbs, hready]
    exact hno

theorem SchedInv.integrity (h : SchedInv idle arrived s l) (hidle : idle ≠ 0) :
    Integrity s arrived := by
  refine ⟨⟨l, h.chain, h.chain.nodup, h.held⟩, ?_⟩
  intro e hnew
  cases harr : e.arrival with
  | some a =>
    obtain ⟨hp, hpi, hpa⟩ := hnew a harr
    rw [h.idle_eq] at hpi
    have hfresh : a.1 ∉ idle :: arrived := by
      intro hmem
      obtain hmem | hmem := List.mem_cons.mp hmem
      · exact hpi hmem
      · exact hpa hmem
    obtain ⟨s', hrun, -⟩ := h.arrival (p := a.1) (g := a.2) harr hp hfresh
    exact ⟨s', hrun⟩
  | none =>
    cases e with
    | tick =>
      show ∃ s', schedulingTick s = .ok s'
      by_cases hsafe : TickSafe s
      · obtain ⟨s', -, hrun, -⟩ := h.tick hidle hsafe
        exact ⟨s', hrun⟩
      · unfold TickSafe at hsafe
        push Not at hsafe
        obtain ⟨hf, t, ht, hr⟩ := hsafe
        obtain ⟨s', hrun, -⟩ := schedulingTick_unsafe ht hf hr
        exact ⟨s', hrun⟩
    | scheduleUserProcess p g => cases harr
    | scheduleReadyProcess p f g => cases harr

end SchedInv

/-! ## Runs -/

theorem arrivals_append (es es' : List SchedEvent) :
    arrivals (es ++ es') = arrivals es ++ arrivals es' := List.filterMap_append

/-- A run whose ticks are all safe keeps the invariant. -/
theorem runEvents_inv (idle fp : Word) (s₀ : Sched) (hidle : idle ≠ 0)
    (hf : s₀.firstSchedule = 1) (es : List SchedEvent) (hnew : (idle :: arrivals es).Nodup)
    (hnull : ∀ p ∈ arrivals es, p ≠ 0)
    (hsafe : ∀ es₁, es₁ ++ [.tick] <+: es → ∀ s, runEvents es₁ (startSched idle fp s₀) = .ok s →
      TickSafe s) :
    ∃ s l, runEvents es (startSched idle fp s₀) = .ok s ∧ SchedInv idle (arrivals es) s l := by
  induction es using List.reverseRecOn with
  | nil => exact ⟨_, [], rfl, SchedInv.start idle fp hf⟩
  | append_singleton es e ih =>
    rw [arrivals_append] at hnew hnull ⊢
    have hnew' : (idle :: arrivals es).Nodup := by
      rw [← List.cons_append] at hnew
      exact (List.nodup_append.mp hnew).1
    obtain ⟨s, l, hrun, hinv⟩ := ih hnew' (fun p hp => hnull p (List.mem_append_left _ hp))
      fun es₁ hes₁ => hsafe es₁ (hes₁.trans (List.prefix_append _ _))
    rw [runEvents_append, hrun, ok_bind, runEvents_cons]
    cases harr : e.arrival with
    | none =>
      cases e with
      | tick =>
        obtain ⟨s', l', htick, hinv'⟩ := hinv.tick hidle (hsafe es List.prefix_rfl s hrun)
        refine ⟨s', l', ?_, ?_⟩
        · show schedulingTick s >>= runEvents [] = _
          rw [htick]
          rfl
        · simpa [arrivals, SchedEvent.arrival] using hinv'
      | scheduleUserProcess p g => cases harr
      | scheduleReadyProcess p f g => cases harr
    | some a =>
      have hone : arrivals [e] = [a.1] := by simp [arrivals, harr]
      rw [hone] at hnew hnull ⊢
      have hfresh : a.1 ∉ idle :: arrivals es := by
        rw [← List.cons_append] at hnew
        intro hmem
        exact (List.nodup_append.mp hnew).2.2 a.1 hmem a.1 List.mem_cons_self rfl
      obtain ⟨s', hrun', hinv'⟩ := hinv.arrival (p := a.1) (g := a.2) harr
        (hnull a.1 (List.mem_append_right _ List.mem_cons_self)) hfresh
      refine ⟨s', l ++ [a.1], ?_, hinv'⟩
      rw [hrun']
      rfl

/-- The ready list keeps its integrity through a run exactly when every tick is safe. -/
theorem integrity_iff (idle fp : Word) (s₀ : Sched) (hidle : idle ≠ 0)
    (hf : s₀.firstSchedule = 1) (es : List SchedEvent) (hnew : (idle :: arrivals es).Nodup)
    (hnull : ∀ p ∈ arrivals es, p ≠ 0) :
    (∀ es₁, es₁ <+: es → ∃ s, runEvents es₁ (startSched idle fp s₀) = .ok s ∧
        Integrity s (arrivals es₁)) ↔
      ∀ es₁, es₁ ++ [.tick] <+: es → ∀ s, runEvents es₁ (startSched idle fp s₀) = .ok s →
        TickSafe s := by
  constructor
  · intro hall es₁ hes₁ s hrun hstarted l hl hr
    obtain ⟨s', hrun', ⟨t, ht, -⟩, -⟩ := hall _ hes₁
    obtain ⟨s'', htick, hno⟩ := schedulingTick_unsafe hl hstarted hr
    have hboth : runEvents (es₁ ++ [.tick]) (startSched idle fp s₀) = .ok s'' := by
      rw [runEvents_append, hrun, ok_bind, runEvents_cons]
      show schedulingTick s >>= runEvents [] = _
      rw [htick]
      rfl
    rw [hboth] at hrun'
    cases hrun'
    exact hno t ht
  · intro hsafe es₁ hes₁
    obtain ⟨es₂, rfl⟩ := hes₁
    rw [arrivals_append] at hnew hnull
    have hnew' : (idle :: arrivals es₁).Nodup := by
      rw [← List.cons_append] at hnew
      exact (List.nodup_append.mp hnew).1
    obtain ⟨s, l, hrun, hinv⟩ := runEvents_inv idle fp s₀ hidle hf es₁ hnew'
      (fun p hp => hnull p (List.mem_append_left _ hp))
      fun es₃ hes₃ => hsafe es₃ (hes₃.trans (List.prefix_append _ _))
    exact ⟨s, hrun, hinv.integrity hidle⟩

/-- A pcb as `create_dummy_process` leaves it. -/
def samplePcb : Pcb := ⟨fun _ => 0, 0, 0, 0, 0, .running, 0, 0, 3, .user⟩

/-- Before `scheduler_init`, with the timer set up. -/
def sampleSched : Sched := ⟨fun _ => samplePcb, 0, 0, 0, 0, 0, 0, 1, 0, 0, 0, 0⟩

/-- Two ticks with no process, then one arrives, then four more ticks. -/
def lateArrival : List SchedEvent :=
  [.tick, .tick, .scheduleUserProcess 0x2000 samplePcb, .tick, .tick, .tick, .tick]

theorem arrivals_lateArrival : arrivals lateArrival = [0x2000] := by
  simp [arrivals, lateArrival, SchedEvent.arrival]

theorem integrity_lateArrival :
    (∀ es₁, es₁ <+: lateArrival → ∃ s, runEvents es₁ (startSched 0x1000 0 sampleSched) = .ok s ∧
        Integrity s (arrivals es₁)) ↔
      ∀ es₁, es₁ ++ [.tick] <+: lateArrival → ∀ s,
        runEvents es₁ (startSched 0x1000 0 sampleSched) = .ok s → TickSafe s :=
  integrity_iff 0x1000 0 sampleSched (by decide) rfl lateArrival
    (by simp [arrivals_lateArrival]) (by simp [arrivals_lateArrival])

/-- The abstract queue after the first tick of `lateArrival`. -/
def loneIdle : Queue Word := ⟨0x1000, [], fun _ => 3⟩

/-- The abstract queue before its last tick: the idle process runs, and is in the list behind the
    process that arrived. -/
def beforeCycle : Queue Word :=
  tick 3 0x1000 (tick 3 0x1000 (tick 3 0x1000 (arrive (tick 3 0x1000 loneIdle) 0x2000 3)))

theorem lateArrival_cycle : ∃ s, runEvents lateArrival (startSched 0x1000 0 sampleSched) = .ok s ∧
    ∀ l, ¬ ReadyChain s.pcbs s.readyProcesses l := by
  have hidle : (0x1000 : Word) ≠ 0 := by decide
  obtain ⟨s₁, h₁, hinv, hr₁, hf₁, ht₁⟩ :=
    (SchedInv.start 0x1000 0 (s := sampleSched) rfl).first_tick hidle rfl
  have hsim₁ : Sim s₁ loneIdle := by
    have hsim := hinv.sim hf₁
    rw [hr₁, ht₁, times_startSched] at hsim
    exact hsim
  have hidle₁ : s₁.idleProcess = 0x1000 := hinv.idle_eq
  obtain ⟨s₂, h₂, hsim₂, hi₂⟩ := schedulingTick_sim hsim₁ (hidle₁ ▸ hidle) (by decide)
  rw [hidle₁] at hsim₂ hi₂
  obtain ⟨s₃, h₃, hsim₃, hi₃⟩ := SchedEvent.run_arrival_sim
    (e := .scheduleUserProcess 0x2000 samplePcb) hsim₂ rfl (by decide) (by decide)
  rw [hi₂] at hi₃
  obtain ⟨s₄, h₄, hsim₄, hi₄⟩ := schedulingTick_sim hsim₃ (hi₃ ▸ hidle) (by decide)
  rw [hi₃] at hsim₄ hi₄
  obtain ⟨s₅, h₅, hsim₅, hi₅⟩ := schedulingTick_sim hsim₄ (hi₄ ▸ hidle) (by decide)
  rw [hi₄] at hsim₅ hi₅
  obtain ⟨s₆, h₆, hsim₆, -⟩ := schedulingTick_sim hsim₅ (hi₅ ▸ hidle) (by decide)
  rw [hi₅] at hsim₆
  have hbehind : s₆.currentlyRunningProcess ∈ beforeCycle.ready.tail := by
    rw [hsim₆.running]
    decide
  obtain ⟨s₇, h₇, hno⟩ := schedulingTick_unsafe hsim₆.chain hsim₆.started hbehind
  refine ⟨s₇, ?_, hno⟩
  unfold lateArrival
  rw [runEvents_cons, SchedEvent.run_tick, h₁, ok_bind, runEvents_cons, SchedEvent.run_tick, h₂,
    ok_bind, runEvents_cons, h₃, ok_bind, runEvents_cons, SchedEvent.run_tick, h₄, ok_bind,
    runEvents_cons, SchedEvent.run_tick, h₅, ok_bind, runEvents_cons, SchedEvent.run_tick, h₆,
    ok_bind, runEvents_cons, SchedEvent.run_tick, h₇, ok_bind]
  rfl

/-- A process that arrives after the second tick ends up in a list that never ends. -/
theorem integrity_lateArrival_false :
    ¬ ∀ es₁, es₁ <+: lateArrival → ∃ s, runEvents es₁ (startSched 0x1000 0 sampleSched) = .ok s ∧
      Integrity s (arrivals es₁) := by
  intro hall
  obtain ⟨s, hrun, ⟨l, hl, -⟩, -⟩ := hall lateArrival List.prefix_rfl
  obtain ⟨s', hrun', hno⟩ := lateArrival_cycle
  rw [hrun] at hrun'
  cases hrun'
  exact hno l hl

end SBUnix
