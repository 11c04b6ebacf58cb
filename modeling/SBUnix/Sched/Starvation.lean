import SBUnix.Sched.Integrity

/-
  No starvation when a process is queued before the first tick.

  `Waiting` is the scheduler before its first tick; that tick makes it a fair abstract queue
  (`FairSim`), and every tick and arrival keeps it one. So the idle process and every process
  that arrived are in the queue exactly once, and `FrontRequeue.wait` bounds the ticks until a
  process runs: with a quantum of 3, five for each process ahead, and one more.
-/

namespace SBUnix

open FrontRequeue

/-- An arriving process has at most the quantum of 3. -/
def SchedEvent.Timely (e : SchedEvent) : Prop := ∀ a ∈ e.arrival, a.2.timeRemaining.toNat ≤ 3

/-- The number of ticks in a run. -/
def ticks : List SchedEvent → Nat
  | [] => 0
  | .tick :: es => ticks es + 1
  | .scheduleUserProcess _ _ :: es => ticks es
  | .scheduleReadyProcess _ _ _ :: es => ticks es

theorem ticks_of_arrival {e : SchedEvent} {a : Word × Pcb} (he : e.arrival = some a)
    (es : List SchedEvent) : ticks (e :: es) = ticks es := by
  cases e with
  | tick => cases he
  | scheduleUserProcess p g => rfl
  | scheduleReadyProcess p f g => rfl

/-- An event is a tick or brings a pcb. -/
theorem SchedEvent.eq_tick {e : SchedEvent} (he : e.arrival = none) : e = .tick := by
  cases e with
  | tick => rfl
  | scheduleUserProcess p g => cases he
  | scheduleReadyProcess p f g => cases he

/-- The pcbs `es` brings are new next to `known`, and have at most the quantum. -/
structure Arriving (known : List Word) (es : List SchedEvent) : Prop where
  nodup : (known ++ arrivals es).Nodup
  notNull : ∀ p ∈ arrivals es, p ≠ 0
  timely : ∀ e ∈ es, e.Timely

theorem arrivals_cons_some {e : SchedEvent} {a : Word × Pcb} (he : e.arrival = some a)
    (es : List SchedEvent) : arrivals (e :: es) = a.1 :: arrivals es := by
  simp [arrivals, he]

theorem arrivals_cons_tick (es : List SchedEvent) : arrivals (.tick :: es) = arrivals es := by
  simp [arrivals, SchedEvent.arrival]

section Arriving

variable {known : List Word} {es : List SchedEvent} {e : SchedEvent}

theorem Arriving.of_tick (h : Arriving known (.tick :: es)) : Arriving known es := by
  refine ⟨?_, ?_, fun e he => h.timely e (List.mem_cons_of_mem _ he)⟩
  · have hnodup := h.nodup
    rwa [arrivals_cons_tick] at hnodup
  · have hnull := h.notNull
    rwa [arrivals_cons_tick] at hnull

theorem Arriving.of_arrival {p : Word} {g : Pcb} (h : Arriving known (e :: es))
    (he : e.arrival = some (p, g)) :
    Arriving (known ++ [p]) es ∧ p ≠ 0 ∧ p ∉ known ∧ g.timeRemaining.toNat ≤ 3 := by
  have hnodup := h.nodup
  have hnull := h.notNull
  rw [arrivals_cons_some he] at hnodup hnull
  refine ⟨⟨?_, fun q hq => hnull q (List.mem_cons_of_mem _ hq),
    fun e he => h.timely e (List.mem_cons_of_mem _ he)⟩, hnull p List.mem_cons_self, ?_,
    h.timely e List.mem_cons_self (p, g) he⟩
  · rwa [List.append_assoc, List.singleton_append]
  · intro hp
    exact (List.nodup_append.mp hnodup).2.2 p hp p List.mem_cons_self rfl

theorem Arriving.of_append {es₁ es₂ : List SchedEvent} (h : Arriving known (es₁ ++ es₂)) :
    Arriving known es₁ ∧ Arriving (known ++ arrivals es₁) es₂ := by
  have hnodup := h.nodup
  have hnull := h.notNull
  rw [arrivals_append] at hnodup hnull
  rw [← List.append_assoc] at hnodup
  refine ⟨⟨(List.nodup_append.mp hnodup).1, fun p hp => hnull p (List.mem_append_left _ hp),
    fun e he => h.timely e (List.mem_append_left _ he)⟩, ⟨hnodup,
    fun p hp => hnull p (List.mem_append_right _ hp),
    fun e he => h.timely e (List.mem_append_right _ he)⟩⟩

end Arriving

/-! ## Before the first tick -/

/-- The scheduler before its first tick: everyone who arrived is in the list. -/
structure Waiting (idle : Word) (arrived : List Word) (s : Sched) : Prop where
  inv : SchedInv idle arrived s arrived
  first : s.firstSchedule = 1
  times : ∀ p ∈ idle :: arrived, s.times p ≤ 3

/-! ## After the first tick -/

/-- The scheduler is a fair abstract queue of the idle process and everyone who arrived. -/
structure FairSim (idle : Word) (arrived : List Word) (s : Sched) (q : Queue Word) : Prop where
  sim : Sim s q
  fair : Fair 3 q
  idle_eq : s.idleProcess = idle
  all : q.all.Perm (idle :: arrived)

section Runs

variable {idle : Word} {arrived : List Word} {s : Sched} {q : Queue Word} {es : List SchedEvent}

theorem Waiting.start (idle fp : Word) {s₀ : Sched} (hf : s₀.firstSchedule = 1)
    (htime : (s₀.pcbs idle).timeRemaining = 3) : Waiting idle [] (startSched idle fp s₀) := by
  refine ⟨SchedInv.start idle fp hf, hf, ?_⟩
  intro p hp
  rw [List.mem_singleton.mp hp, times_startSched]
  unfold Sched.times
  rw [htime]
  decide

/-- Arrivals before the first tick. -/
theorem Waiting.arrivals (h : Waiting idle arrived s) (hes : Arriving (idle :: arrived) es)
    (hnotick : ∀ e ∈ es, e.arrival ≠ none) :
    ∃ s', runEvents es s = .ok s' ∧ Waiting idle (arrived ++ SBUnix.arrivals es) s' := by
  induction es generalizing arrived s with
  | nil =>
    refine ⟨s, rfl, ?_⟩
    simpa [SBUnix.arrivals] using h
  | cons e es ih =>
    obtain ⟨⟨p, g⟩, he⟩ := Option.ne_none_iff_exists'.mp (hnotick e List.mem_cons_self)
    obtain ⟨hes', hp, hnew, htime⟩ := hes.of_arrival he
    obtain ⟨s₁, hrun, hinv⟩ := h.inv.arrival he hp hnew
    obtain ⟨s₁', hrun', -, hsame, htimes⟩ := SchedEvent.run_arrival he h.inv.chain hp
      fun hmem => hnew (List.mem_cons_of_mem _ hmem)
    rw [hrun] at hrun'
    cases hrun'
    have hwait : Waiting idle (arrived ++ [p]) s₁ := by
      refine ⟨hinv, hsame.first.trans h.first, fun x hx => ?_⟩
      rw [htimes]
      by_cases hxp : x = p
      · rwa [hxp, Function.update_self]
      · rw [Function.update_of_ne hxp]
        refine h.times x ?_
        rw [← List.cons_append] at hx
        obtain hx | hx := List.mem_append.mp hx
        · exact hx
        · exact absurd (List.mem_singleton.mp hx) hxp
    obtain ⟨s', hrest, hw⟩ := ih hwait (by rwa [← List.cons_append])
      fun e he => hnotick e (List.mem_cons_of_mem _ he)
    refine ⟨s', ?_, ?_⟩
    · rw [runEvents_cons, hrun, ok_bind, hrest]
    · rw [arrivals_cons_some he]
      rwa [List.append_assoc, List.singleton_append] at hw

/-- The first tick. -/
theorem Waiting.tick (h : Waiting idle arrived s) (hidle : idle ≠ 0)
    (hnodup : (idle :: arrived).Nodup) (hne : arrived ≠ []) :
    ∃ s', schedulingTick s = .ok s' ∧ FairSim idle arrived s' ⟨idle, arrived, s.times⟩ := by
  obtain ⟨s', hrun, hinv, hr, hf, ht⟩ := h.inv.first_tick hidle h.first
  have hsim := hinv.sim hf
  rw [hr, ht] at hsim
  exact ⟨s', hrun, hsim, ⟨hnodup, h.times, hne⟩, hinv.idle_eq, List.Perm.refl _⟩

/-- The process that runs is not in the list of a fair queue. -/
theorem Fair.running_notMem_tail (h : Fair 3 q) : q.running ∉ q.ready.tail := by
  intro hmem
  exact (List.nodup_cons.mp h.nodup).1 (List.mem_of_mem_tail hmem)

theorem FairSim.tick (h : FairSim idle arrived s q) (hidle : idle ≠ 0) :
    ∃ s', schedulingTick s = .ok s' ∧ FairSim idle arrived s' (FrontRequeue.tick 3 idle q) := by
  obtain ⟨s', hrun, hsim, hkeep⟩ :=
    schedulingTick_sim h.sim (by rwa [h.idle_eq]) (Fair.running_notMem_tail h.fair)
  rw [h.idle_eq] at hsim hkeep
  exact ⟨s', hrun, hsim, fair_tick h.fair idle, hkeep, (tick_perm 3 idle h.fair.ready).trans h.all⟩

theorem FairSim.arrive (h : FairSim idle arrived s q) {e : SchedEvent} {p : Word} {g : Pcb}
    (he : e.arrival = some (p, g)) (hp : p ≠ 0) (hnew : p ∉ idle :: arrived)
    (htime : g.timeRemaining.toNat ≤ 3) :
    p ∉ q.all ∧ ∃ s', e.run s = .ok s' ∧
      FairSim idle (arrived ++ [p]) s' (FrontRequeue.arrive q p g.timeRemaining.toNat) := by
  have hpq : p ∉ q.all := fun hmem => hnew (h.all.mem_iff.mp hmem)
  obtain ⟨s', hrun, hsim, hkeep⟩ := SchedEvent.run_arrival_sim h.sim he hp
    fun hmem => hpq (List.mem_cons_of_mem _ hmem)
  refine ⟨hpq, s', hrun, hsim, fair_arrive h.fair hpq htime, hkeep.trans h.idle_eq, ?_⟩
  show (q.running :: (q.ready ++ [p])).Perm (idle :: (arrived ++ [p]))
  rw [← List.cons_append, ← List.cons_append]
  exact h.all.append_right [p]

/-- Every later run. -/
theorem FairSim.run (h : FairSim idle arrived s q) (hidle : idle ≠ 0)
    (hes : Arriving (idle :: arrived) es) :
    ∃ s' q', runEvents es s = .ok s' ∧ FairSim idle (arrived ++ arrivals es) s' q' := by
  induction es generalizing arrived s q with
  | nil =>
    refine ⟨s, q, rfl, ?_⟩
    simpa [arrivals] using h
  | cons e es ih =>
    cases he : e.arrival with
    | none =>
      obtain rfl := SchedEvent.eq_tick he
      obtain ⟨s₁, hrun, h₁⟩ := h.tick hidle
      obtain ⟨s', q', hrest, h'⟩ := ih h₁ hes.of_tick
      refine ⟨s', q', ?_, by rwa [arrivals_cons_tick]⟩
      rw [runEvents_cons, SchedEvent.run_tick, hrun, ok_bind, hrest]
    | some a =>
      obtain ⟨hes', hp, hnew, htime⟩ := hes.of_arrival (p := a.1) (g := a.2) he
      obtain ⟨-, s₁, hrun, h₁⟩ := h.arrive he hp hnew htime
      obtain ⟨s', q', hrest, h'⟩ := ih h₁ (by rwa [← List.cons_append])
      refine ⟨s', q', ?_, ?_⟩
      · rw [runEvents_cons, hrun, ok_bind, hrest]
      · rw [arrivals_cons_some he]
        rwa [List.append_assoc, List.singleton_append] at h'

/-- In a run with enough ticks a process in the list gets to run within its wait. -/
theorem FairSim.runs_within (h : FairSim idle arrived s q) (hidle : idle ≠ 0)
    (hes : Arriving (idle :: arrived) es) {i : Nat} {x : Word} (hx : q.ready[i]? = some x)
    (hn : wait 3 q i ≤ ticks es) :
    ∃ es₁, es₁ <+: es ∧ ∃ s', runEvents es₁ s = .ok s' ∧ ticks es₁ ≤ wait 3 q i ∧
      s'.currentlyRunningProcess = x := by
  have hpos : ∀ (q : Queue Word) (i : Nat), 1 ≤ wait 3 q i := by
    intro q i
    cases i with
    | zero => exact le_rfl
    | succ i =>
      rw [wait_succ]
      omega
  induction es generalizing arrived s q i with
  | nil =>
    have hp := hpos q i
    unfold ticks at hn
    omega
  | cons e es ih =>
    cases he : e.arrival with
    | none =>
      obtain rfl := SchedEvent.eq_tick he
      obtain ⟨s₁, hrun, h₁⟩ := h.tick hidle
      have hn' : wait 3 q i ≤ ticks es + 1 := hn
      obtain hnow | ⟨j, hj, hwait⟩ := tick_wait h.fair (by decide) idle hx
      · refine ⟨[.tick], ⟨es, rfl⟩, s₁, ?_, hpos q i, h₁.sim.running.trans hnow⟩
        rw [runEvents_cons, SchedEvent.run_tick, hrun]
        rfl
      · obtain ⟨es₁, hpre, s', hrest, hle, hr⟩ := ih h₁ hes.of_tick hj (by omega)
        refine ⟨.tick :: es₁, List.prefix_cons_iff.mpr (Or.inr ⟨es₁, rfl, hpre⟩), s', ?_, ?_, hr⟩
        · rw [runEvents_cons, SchedEvent.run_tick, hrun, ok_bind, hrest]
        · show ticks es₁ + 1 ≤ _
          omega
    | some a =>
      obtain ⟨hes', hp, hnew, htime⟩ := hes.of_arrival (p := a.1) (g := a.2) he
      obtain ⟨hpq, s₁, hrun, h₁⟩ := h.arrive he hp hnew htime
      obtain ⟨hx', hwait⟩ := arrive_wait (b := a.2.timeRemaining.toNat) h.fair hpq hx
      rw [ticks_of_arrival he] at hn
      obtain ⟨es₁, hpre, s', hrest, hle, hr⟩ :=
        ih h₁ (by rwa [← List.cons_append]) hx' (by omega)
      refine ⟨e :: es₁, List.prefix_cons_iff.mpr (Or.inr ⟨es₁, rfl, hpre⟩), s', ?_, ?_, hr⟩
      · rw [runEvents_cons, hrun, ok_bind, hrest]
      · rw [ticks_of_arrival he]
        omega

end Runs

/-- No starvation: in every run whose first tick finds a process in the list, the idle process and
    every process that arrived stay in the list or run, each once, and the process at position `k`
    of the list runs within `5 * (k - 1) + 1` further ticks, whatever arrives in between. -/
theorem no_starvation (idle fp : Word) (s₀ : Sched) (hidle : idle ≠ 0)
    (hf : s₀.firstSchedule = 1) (htime : (s₀.pcbs idle).timeRemaining = 3)
    (before es : List SchedEvent) (hnotick : ∀ e ∈ before, e.arrival ≠ none) (hne : before ≠ [])
    (hes : Arriving [idle] (before ++ .tick :: es)) :
    ∃ s l, runEvents (before ++ .tick :: es) (startSched idle fp s₀) = .ok s ∧
      ReadyChain s.pcbs s.readyProcesses l ∧
      (s.currentlyRunningProcess :: l).Perm (idle :: arrivals (before ++ .tick :: es)) ∧
      (s.currentlyRunningProcess :: l).Nodup ∧
      ∀ k x, 1 ≤ k → l[k - 1]? = some x → ∀ later : List SchedEvent,
        Arriving (idle :: arrivals (before ++ .tick :: es)) later →
        5 * (k - 1) + 1 ≤ ticks later →
        ∃ upto, upto <+: later ∧ ∃ s', runEvents upto s = .ok s' ∧
          ticks upto ≤ 5 * (k - 1) + 1 ∧ s'.currentlyRunningProcess = x := by
  obtain ⟨hbefore, hafter⟩ := hes.of_append
  obtain ⟨s₁, hrun₁, hwait⟩ := (Waiting.start idle fp hf htime).arrivals hbefore hnotick
  rw [List.nil_append] at hwait
  have hsome : arrivals before ≠ [] := by
    obtain ⟨e, rest, rfl⟩ := List.exists_cons_of_ne_nil hne
    obtain ⟨a, ha⟩ := Option.ne_none_iff_exists'.mp (hnotick e List.mem_cons_self)
    rw [arrivals_cons_some ha]
    exact List.cons_ne_nil _ _
  obtain ⟨s₂, hrun₂, hfair₂⟩ := hwait.tick hidle hbefore.nodup hsome
  obtain ⟨s, q, hrun, hfair⟩ := hfair₂.run hidle hafter.of_tick
  have harr : arrivals before ++ arrivals es = arrivals (before ++ .tick :: es) := by
    rw [arrivals_append, arrivals_cons_tick]
  rw [harr] at hfair
  have hall := hfair.all
  have hnodup : q.all.Nodup := hall.nodup_iff.mpr hes.nodup
  unfold Queue.all at hall hnodup
  rw [← hfair.sim.running] at hall hnodup
  refine ⟨s, q.ready, ?_, hfair.sim.chain, hall, hnodup, ?_⟩
  · rw [runEvents_append, hrun₁, ok_bind, runEvents_cons, SchedEvent.run_tick, hrun₂, ok_bind, hrun]
  · intro k x hk hx later hlater hticks
    have hbound := wait_le hfair.fair (by decide) (k - 1)
    obtain ⟨upto, hpre, s', hrun', hle, hr⟩ := hfair.runs_within hidle hlater hx (by omega)
    exact ⟨upto, hpre, s', hrun', by omega, hr⟩

/-- Two processes before the first tick. -/
def twoArrivals : List SchedEvent :=
  [.scheduleUserProcess 0x2000 samplePcb, .scheduleReadyProcess 0x3000 0x500000 samplePcb]

/-- A process that arrives while the others take turns. -/
def arrivalBetween : List SchedEvent := [.tick, .scheduleUserProcess 0x4000 samplePcb, .tick]

theorem arrivals_sample :
    arrivals (twoArrivals ++ .tick :: arrivalBetween) = [0x2000, 0x3000, 0x4000] := rfl

theorem arriving_sample : Arriving [0x1000] (twoArrivals ++ .tick :: arrivalBetween) := by
  refine ⟨?_, ?_, fun e he a ha => ?_⟩
  · simp [arrivals_sample]
  · simp [arrivals_sample]
  · have hpcb : a.2 = samplePcb := by
      simp only [twoArrivals, arrivalBetween, List.cons_append, List.nil_append, List.mem_cons,
        List.not_mem_nil, or_false] at he
      obtain rfl | rfl | rfl | rfl | rfl | rfl := he <;> cases ha <;> rfl
    rw [hpcb]
    decide

/-- Three processes wait, each with its bound. -/
theorem no_starvation_three :
    ∃ s l, runEvents (twoArrivals ++ .tick :: arrivalBetween) (startSched 0x1000 0 sampleSched) =
        .ok s ∧
      ReadyChain s.pcbs s.readyProcesses l ∧ l.length = 3 ∧
      ∀ k x, 1 ≤ k → l[k - 1]? = some x → ∀ later : List SchedEvent,
        Arriving [0x1000, 0x2000, 0x3000, 0x4000] later → 5 * (k - 1) + 1 ≤ ticks later →
        ∃ upto, upto <+: later ∧ ∃ s', runEvents upto s = .ok s' ∧
          ticks upto ≤ 5 * (k - 1) + 1 ∧ s'.currentlyRunningProcess = x := by
  obtain ⟨s, l, hrun, hchain, hperm, -, hbound⟩ :=
    no_starvation 0x1000 0 sampleSched (by decide) rfl rfl twoArrivals arrivalBetween
      (by simp [twoArrivals, SchedEvent.arrival]) (by simp [twoArrivals]) arriving_sample
  rw [arrivals_sample] at hperm hbound
  refine ⟨s, l, hrun, hchain, ?_, hbound⟩
  simpa using hperm.length_eq

end SBUnix
