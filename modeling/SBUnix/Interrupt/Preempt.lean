import SBUnix.Interrupt.Processes
import SBUnix.Lib.Steps

/-
  Preemption is invisible to processes.

  A timer interrupt that does not switch returns to where it was; one that does puts the context
  of the process that runs on its own stack, and loads the one that waits on the stack of the next
  (`Refines.timer`). What code does in between cannot touch the stacks of those who wait, so over
  any run the processor stands for processes that each have one of their own
  (`preemption_transparent`).
-/

namespace SBUnix.Interrupt

open Stack FrontRequeue

/-! ## Stacks -/

section Stacks

variable {b p q : Word} {i l n : Nat} {c : Compiled} {s s' : Sched} {mem mem' : Word → Word}
  {off : Word} {pr : Process} {j : Nat}

theorem Apart.symm (h : Apart p q) : Apart q p := Or.symm h

theorem Apart.ne (h : Apart p q) : p ≠ q := by
  rintro rfl
  unfold Apart at h
  omega

instance : Std.Symm Apart := ⟨fun _ _ => Apart.symm⟩

theorem Apart.slot_ne (h : Apart p q) (hp : IsStack p) (hq : IsStack q) (hi : i < 512)
    (hl : l < 512) : slot p i ≠ slot q l := by
  intro heq
  have hp' := hp.2
  have hq' := hq.2
  have hnat := congrArg BitVec.toNat heq
  rw [slot_toNat (by omega), slot_toNat (by omega)] at hnat
  unfold Apart at h
  omega

/-- Nothing of one stack lies below a word of another. -/
theorem Apart.not_below (h : Apart b q) (hb : IsStack b) (hq : IsStack q) (hn : n ≤ i)
    (hi : i ≤ 512) (hl : l < 512) : ¬ Below (slot b i) n (slot q l) := by
  intro hbelow
  obtain ⟨t, -, ht, heq⟩ := below_slot hn hbelow
  exact h.slot_ne hb hq (by omega) hl heq.symm

/-- Where the processor pushes the frame of a context that fits. -/
theorem Fits.entry {boot : Word} {x : Context} (h : Fits c s boot p x)
    (haligned : (stackOf boot p).toNat % 8 = 0)
    (htss : p ≠ 0 → (s.pcbs p).processType = .user → s.tssRsp = slot p 511) :
    ∃ i, 22 + c.depth ≤ i ∧ i ≤ 512 ∧ entryRsp s.tssRsp x = slot (stackOf boot p) i ∧
      (¬ x.Ring3 → ∀ i₀ ≤ 512, x.rsp = slot (stackOf boot p) i₀ → i ≤ i₀) := by
  unfold Fits at h
  unfold entryRsp
  split_ifs at h ⊢ with hring
  · obtain ⟨hp, huser⟩ := h
    obtain ⟨i', hle, hge, heq⟩ := slot_aligned haligned (show 1 ≤ 511 by omega)
    have hdepth := c.depth_le
    have hstack : stackOf boot p = p := if_neg hp
    rw [hstack] at heq ⊢
    rw [htss hp huser]
    exact ⟨i', by omega, by omega, heq, fun h => absurd hring h⟩
  · obtain ⟨i, hi, hi', hrsp⟩ := h
    obtain ⟨i', hle, hge, heq⟩ := slot_aligned haligned (show 1 ≤ i by omega)
    refine ⟨i', by omega, by omega, hrsp ▸ heq, fun _ i₀ hi₀ hrsp' => ?_⟩
    have := slot_inj (by omega) (by omega) (hrsp.symm.trans hrsp')
    omega

/-- A process stays suspended as long as nobody writes to its stack. -/
theorem Suspended.congr (h : Suspended c s mem off q pr j) (hirq : s'.irq0 = s.irq0)
    (hrsp : (s'.pcbs q).rsp = (s.pcbs q).rsp)
    (htype : (s'.pcbs q).processType = (s.pcbs q).processType)
    (hmem : ∀ l < 512, mem' (slot q l) = mem (slot q l)) : Suspended c s' mem' off q pr j where
  depth := h.depth
  top := h.top
  rsp := hrsp.trans h.rsp
  waits := by
    have htop := h.top
    rw [hirq]
    exact h.waits.congr fun l _ hl => hmem l (by omega)
  fits := by
    have hfits := h.fits
    unfold Fits at hfits ⊢
    rwa [htype]
  above := h.above
  inUse hring i hi hrsp' l hl hl' := by
    rw [hmem l hl']
    exact h.inUse hring i hi hrsp' l hl hl'

end Stacks

/-! ## The scheduler's part -/

section Ticks

variable {s s' : Sched}

/-- An interrupt that is no scheduling tick. -/
theorem generateTimer_count (h : s.timerTicks + 1 ≠ 180) :
    generateTimer s = .ok { s with timerTicks := s.timerTicks + 1 } := by
  unfold generateTimer
  exact if_neg h

theorem generateTimer_tick (h : s.timerTicks = 179) : generateTimer s = schedulingTick s := by
  unfold schedulingTick
  rw [← h]

theorem Fits.own {c : Compiled} {boot p : Word} {x : Context} (h : Fits c s p p x)
    (hp : p ≠ 0) : Fits c s boot p x := by
  unfold Fits stackOf at h ⊢
  rw [if_neg hp] at h ⊢
  exact h

theorem Fits.base {c : Compiled} {boot p : Word} {x : Context} (h : Fits c s boot p x)
    (hp : p ≠ 0) : Fits c s p p x := by
  unfold Fits stackOf at h ⊢
  rw [if_neg hp] at h ⊢
  exact h

theorem Fits.congr {c : Compiled} {boot p : Word} {x : Context} (h : Fits c s boot p x)
    (htype : (s'.pcbs p).processType = (s.pcbs p).processType) : Fits c s' boot p x := by
  unfold Fits at h ⊢
  rwa [htype]

/-- The phase has nothing to do with the registers or the count. -/
theorem Phase.count {idle : Word} {arrived : List Word} {q : Queue Word}
    (h : Phase idle arrived s q) (rsp : Word) (n : Nat) :
    Phase idle arrived { s with rsp := rsp, timerTicks := n } q := by
  cases h with
  | boot first inv queue =>
    exact .boot first ⟨inv.chain, inv.idle_eq, inv.notNull, inv.listed, inv.held, inv.phase⟩ queue
  | running sim all some =>
    exact .running ⟨sim.chain, sim.running, sim.notNull, sim.times, sim.started⟩ all some

theorem Phase.current {idle : Word} {arrived : List Word} {q : Queue Word}
    (h : Phase idle arrived s q) : s.currentlyRunningProcess = q.running := by
  cases h with
  | boot first inv queue =>
    obtain ⟨-, hr⟩ | ⟨hf, -⟩ := inv.phase
    · rw [queue, hr]
    · exact absurd first hf
  | running sim => exact sim.running

/-- A scheduling tick behind the first one, with `rsp` stored for the process that ran. -/
structure Switched (idle rsp : Word) (s : Sched) (q : Queue Word) (s' : Sched) : Prop where
  sim : Sim s' (tick 3 idle q)
  idle_eq : s'.idleProcess = idle
  loaded : Loaded s' (s'.pcbs s'.currentlyRunningProcess).rsp
  rsp : ∀ p, (s'.pcbs p).rsp = if p = q.running then rsp else (s.pcbs p).rsp
  type : ∀ p, (s'.pcbs p).processType = (s.pcbs p).processType
  ticks : s'.timerTicks = 0
  irq0 : s'.irq0 = s.irq0

theorem Switched.of_sim {q : Queue Word} {idle p : Word} {t : List Word} (sim : Sim s q)
    (hidle : s.idleProcess = idle) (hidle0 : idle ≠ 0) (hnodup : (q.running :: q.ready).Nodup)
    (hl : q.ready = p :: t) (hticks : s.timerTicks = 179) (rsp : Word) :
    ∃ s', generateTimer { s with rsp := rsp } = .ok s' ∧ Switched idle rsp s q s' := by
  obtain ⟨s₀, hs₀⟩ : ∃ s₀, s₀ = { s with rsp := rsp } := ⟨_, rfl⟩
  have sim₀ : Sim s₀ q := by
    rw [hs₀]
    exact ⟨sim.chain, sim.running, sim.notNull, sim.times, sim.started⟩
  have hidle₀ : s₀.idleProcess = idle := by
    rw [hs₀]
    exact hidle
  obtain ⟨s', htick, sim', hidle'⟩ := schedulingTick_sim sim₀ (by rwa [hidle₀])
    fun hmem => (List.nodup_cons.mp hnodup).1 (List.mem_of_mem_tail hmem)
  have hready : s₀.readyProcesses ≠ 0 := by
    have hchain := sim₀.chain
    rw [hl] at hchain
    obtain ⟨hx, hx0, -⟩ := readyChain_cons.mp hchain
    rwa [hx]
  have hr : s₀.currentlyRunningProcess ≠ 0 := by
    rw [sim₀.running]
    exact sim₀.notNull
  obtain ⟨hloaded, -, hrsp, htype⟩ := schedulingTick_loaded sim₀.started hr hready htick
  obtain ⟨hcount, hirq⟩ := schedulingTick_counted sim₀.started hr hready htick
  rw [hidle₀] at sim'
  refine ⟨s', ?_, sim', hidle'.trans hidle₀, hloaded, fun q' => ?_, fun q' => ?_, hcount, ?_⟩
  · rw [← hs₀, generateTimer_tick (by rw [hs₀]; exact hticks), htick]
  · rw [hrsp, sim₀.running, hs₀]
  · rw [htype, hs₀]
  · rw [hirq, hs₀]

end Ticks

/-! ## Timer interrupts -/

section Timer

variable {c : Compiled} {boot idle : Word} {k : System} {a : Processes} {arrived : List Word}

theorem Refines.idle_ne_zero (h : Refines c boot idle k a arrived) : idle ≠ 0 := by
  rintro rfl
  exact h.notNull (by rw [h.known]; exact List.mem_cons_self)

/-- Whoever runs is known to the scheduler, or is the boot code. -/
theorem Refines.running_known (h : Refines c boot idle k a arrived) (h0 : a.queue.running ≠ 0) :
    a.queue.running ∈ k.known := by
  cases h.phase with
  | boot first inv queue => exact absurd (by rw [queue]) h0
  | running sim all =>
    rw [h.known]
    exact all.mem_iff.mp List.mem_cons_self

theorem Refines.base_mem (h : Refines c boot idle k a arrived) :
    stackOf boot a.queue.running ∈ boot :: k.known := by
  unfold stackOf
  split_ifs with h0
  · exact List.mem_cons_self
  · exact List.mem_cons_of_mem _ (h.running_known h0)

/-- The stack in use is apart from those of the others. -/
theorem Refines.apart_base (h : Refines c boot idle k a arrived) {q : Word} (hq : q ∈ k.known)
    (hne : q ≠ a.queue.running) : Apart (stackOf boot a.queue.running) q := by
  obtain ⟨hboot, hknown⟩ := List.pairwise_cons.mp h.apart
  unfold stackOf
  split_ifs with h0
  · exact hboot q hq
  · exact hknown.forall (h.running_known h0) hq hne.symm

/-- Where the frame of an interrupt goes. -/
theorem Refines.entry (h : Refines c boot idle k a arrived) :
    ∃ i, 22 + c.depth ≤ i ∧ i ≤ 512 ∧
      entryRsp k.sched.tssRsp k.context = slot (stackOf boot a.queue.running) i ∧
      (¬ k.context.Ring3 → ∀ i₀ ≤ 512, k.context.rsp = slot (stackOf boot a.queue.running) i₀ →
        i ≤ i₀) :=
  h.fits.entry (h.placed _ h.base_mem).1 h.tss

/-- Stacks that the interrupt did not use are as they were. -/
theorem Refines.others (h : Refines c boot idle k a arrived) {i n : Nat} {q : Word}
    (hq : q ∈ k.known) (hne : q ≠ a.queue.running) (hn : n ≤ i) (hi : i ≤ 512) {l : Nat}
    (hl : l < 512) : ¬ Below (slot (stackOf boot a.queue.running) i) n (slot q l) :=
  (h.apart_base hq hne).not_below (h.placed _ h.base_mem)
    (h.placed q (List.mem_cons_of_mem _ hq)) hn hi hl

/-- An interrupt that only counts. -/
theorem Refines.timer_count (h : Refines c boot idle k a arrived) (hticks : a.ticks + 1 ≠ 180) :
    ∃ k', k.timer c = .ok k' ∧ Refines c boot idle k' (a.timer idle) arrived := by
  obtain ⟨i, hi, hi', hentry, hlow⟩ := h.entry
  have hs : generateTimer { k.sched with rsp := slot (stackOf boot a.queue.running) (i - 22) } =
      .ok { k.sched with
        rsp := slot (stackOf boot a.queue.running) (i - 22)
        timerTicks := k.sched.timerTicks + 1 } :=
    generateTimer_count (by rw [h.ticks]; exact hticks)
  obtain ⟨mem', hrun, hmem, -⟩ := timer_resumes (c := c) (x := k.context) hentry (by omega)
    (by omega) (by omega) hs rfl (fun _ _ hw => hw)
    (fun l hl hl' => not_below_slot (by omega) hl (by omega))
  refine ⟨_, hrun, ?_⟩
  have htimer : a.timer idle = { a with ticks := a.ticks + 1 } := if_neg hticks
  rw [htimer]
  refine {
    known := h.known, placed := h.placed, apart := h.apart, notNull := h.notNull
    phase := h.phase.count _ _
    idle_eq := h.idle_eq, kernel := h.kernel
    ticks := congrArg (· + 1) h.ticks
    ticks_lt := by
      have := h.ticks_lt
      show a.ticks + 1 < 180
      omega
    context := h.context, fits := h.fits, cr3 := h.cr3, tss := h.tss, inUse := ?_
    suspended := ?_ }
  · intro h0 hring i₀ hi₀ hrsp l hl hl'
    have hstack : stackOf boot a.queue.running = a.queue.running := if_neg h0
    dsimp only at hring hrsp
    have hle : i ≤ l := by
      have := hlow (by rwa [h.context]) i₀ hi₀ (by rw [h.context, hrsp, hstack])
      omega
    rw [hstack] at hmem
    show mem' _ = _
    rw [hmem _ (not_below_slot hi hle (by omega))
      (not_below_slot (by omega) (by omega) (by omega))]
    exact h.inUse h0 hring i₀ hi₀ hrsp l hl hl'
  · intro q hq hne
    obtain ⟨j, hj⟩ := h.suspended q hq hne
    exact ⟨j, hj.congr rfl rfl rfl fun l hl => hmem _ (h.others hq hne hi hi' hl)
      (h.others hq hne (by omega) (by omega) hl)⟩

/-- The first scheduling tick starts the idle process. -/
theorem Refines.timer_first (h : Refines c boot idle k a arrived) (hticks : a.ticks + 1 = 180)
    (h0 : a.queue.running = 0) (hready : k.sched.readyProcesses ≠ 0) :
    ∃ k', k.timer c = .ok k' ∧ Refines c boot idle k' (a.timer idle) arrived := by
  obtain ⟨i, hi, hi', hentry, -⟩ := h.entry
  have hidle := h.idle_ne_zero
  have hmem_idle : idle ∈ k.known := by
    rw [h.known]
    exact List.mem_cons_self
  have hidle_ne : idle ≠ a.queue.running := by rwa [h0]
  obtain ⟨first, inv, hqueue⟩ : k.sched.firstSchedule = 1 ∧
      SchedInv idle arrived k.sched arrived ∧ a.queue = ⟨0, arrived, k.sched.times⟩ := by
    cases h.phase with
    | boot first inv queue => exact ⟨first, inv, queue⟩
    | running sim => exact absurd h0 sim.notNull
  obtain ⟨j, hj⟩ := h.suspended idle hmem_idle hidle_ne
  rw [if_pos ⟨rfl, h0⟩] at hj
  have htop := hj.top
  have hdepth := hj.depth
  have hrsp : (k.sched.pcbs k.sched.idleProcess).rsp = slot idle j := by rw [h.idle_eq, hj.rsp]
  obtain ⟨s₁, hs₁⟩ : ∃ s₁, s₁ = switchTo k.sched.idleProcess { k.sched with
    rsp := slot (stackOf boot a.queue.running) (i - 22), timerTicks := 0, firstSchedule := 0 } :=
    ⟨_, rfl⟩
  have hs : generateTimer { k.sched with rsp := slot (stackOf boot a.queue.running) (i - 22) } =
      .ok s₁ := by
    rw [hs₁, generateTimer_tick (by have := h.ticks; dsimp only; omega)]
    exact schedulingTick_first first
  have hs' : generateTimer s₁ = .ok { s₁ with timerTicks := 1 } := by
    rw [generateTimer_count (by rw [hs₁]; exact (by decide : 0 + 1 ≠ 180)), hs₁]
    rfl
  have hq : s₁.rsp = slot idle j := by
    rw [hs₁]
    exact hrsp
  obtain ⟨mem', hrun, hmem⟩ := timer_starts (c := c) (x := (a.process idle).context) hentry
    (by omega) hdepth (by omega) hs hq hs' hq
    (fun pushed hpushed => hj.waits.congr fun l _ hl => hpushed _
      (h.others hmem_idle hidle_ne (by omega) hi' (by omega)))
    (fun l _ hl => h.others hmem_idle hidle_ne (by omega) (by omega) (by omega))
  have hself : ∀ l, j + 2 ≤ l → l < 512 → mem' (slot idle l) = k.mem (slot idle l) :=
    fun l hl hl' => hmem _ (h.others hmem_idle hidle_ne hi hi' hl')
      (not_below_slot (by omega) hl (by omega))
  refine ⟨_, hrun, ?_⟩
  have htimer : a.timer idle = ⟨⟨idle, arrived, k.sched.times⟩, a.process, 1⟩ := by
    unfold Processes.timer
    rw [if_pos hticks, if_pos h0, hqueue]
  rw [htimer, hs₁]
  refine {
    known := h.known, placed := h.placed, apart := h.apart, notNull := h.notNull
    idle_eq := h.idle_eq, kernel := h.kernel, ticks := rfl
    ticks_lt := (by decide : 1 < 180), context := rfl
    phase := ?_, fits := (hj.fits.own hidle).congr rfl, inUse := ?_
    cr3 := fun _ => congrArg (fun p => (k.sched.pcbs p).cr3) h.idle_eq
    tss := fun _ huser => ?_
    suspended := ?_ }
  · refine .running ⟨inv.chain, h.idle_eq, hidle, rfl, by simp [switchTo]⟩ (List.Perm.refl _) ?_
    rintro rfl
    exact hready (readyChain_nil.mp inv.chain)
  · intro _ hring i₀ hi₀ hrsp' l hl hl'
    have := hj.above hring i₀ hi₀ hrsp'
    exact (hself l (by omega) hl').trans (hj.inUse hring i₀ hi₀ hrsp' l hl hl')
  · cases huser.symm.trans h.kernel
  · intro q hq hne
    have hne' : q ≠ a.queue.running := fun he => h.notNull (by rwa [he, h0] at hq)
    obtain ⟨j', hj'⟩ := h.suspended q hq hne'
    have happart : Apart idle q :=
      (List.pairwise_cons.mp h.apart).2.forall hmem_idle hq (Ne.symm hne)
    refine ⟨j', ?_⟩
    rw [if_neg fun hand => hne hand.1] at hj' ⊢
    exact hj'.congr rfl rfl rfl fun l hl => hmem _ (h.others hq hne' hi hi' hl)
      (happart.not_below (h.placed _ (List.mem_cons_of_mem _ hmem_idle))
        (h.placed _ (List.mem_cons_of_mem _ hq)) (by omega) (by omega) hl)

/-- Behind the first tick somebody else's turn is next. -/
theorem Refines.turn (h : Refines c boot idle k a arrived) (h0 : a.queue.running ≠ 0) :
    Sim k.sched a.queue ∧ (a.queue.running :: a.queue.ready).Nodup ∧
      a.queue.all.Perm (idle :: arrived) ∧ arrived ≠ [] ∧
      ∃ p t, a.queue.ready = p :: t ∧ p ∈ k.known ∧ p ≠ a.queue.running := by
  obtain ⟨sim, all, some⟩ : Sim k.sched a.queue ∧ a.queue.all.Perm (idle :: arrived) ∧
      arrived ≠ [] := by
    cases h.phase with
    | boot first inv queue => exact absurd (by rw [queue]) h0
    | running sim all some => exact ⟨sim, all, some⟩
  have hnodup : (a.queue.running :: a.queue.ready).Nodup := by
    have hknown : k.known.Nodup := (List.pairwise_cons.mp h.apart).2.imp Apart.ne
    rw [h.known] at hknown
    exact all.nodup_iff.mpr hknown
  obtain ⟨p, t, hl⟩ : ∃ p t, a.queue.ready = p :: t := by
    refine List.exists_cons_of_ne_nil fun hnil => some ?_
    have hlen := all.length_eq
    unfold Queue.all at hlen
    rw [hnil, List.length_cons, List.length_cons, List.length_nil] at hlen
    exact List.length_eq_zero_iff.mp (by omega)
  have hp : p ∈ a.queue.ready := by
    rw [hl]
    exact List.mem_cons_self
  refine ⟨sim, hnodup, all, some, p, t, hl, ?_, ?_⟩
  · rw [h.known]
    exact all.mem_iff.mp (List.mem_cons_of_mem _ hp)
  · rintro rfl
    exact (List.nodup_cons.mp hnodup).1 hp

/-- The process that an interrupt stopped waits where its context was put. -/
theorem Refines.stopped (h : Refines c boot idle k a arrived) (h0 : a.queue.running ≠ 0)
    {s' : Sched} {mem' : Word → Word} {i : Nat} (hi : 22 + c.depth ≤ i) (hi' : i ≤ 512)
    (hlow : ¬ k.context.Ring3 → ∀ i₀ ≤ 512,
      k.context.rsp = slot (stackOf boot a.queue.running) i₀ → i ≤ i₀)
    (hrsp : (s'.pcbs a.queue.running).rsp = slot a.queue.running (i - 22))
    (htype : (s'.pcbs a.queue.running).processType =
      (k.sched.pcbs a.queue.running).processType)
    (hwaits : Waits s'.irq0 0x20 mem' a.queue.running (i - 22) k.context)
    (hmem : ∀ l, i ≤ l → l < 512 → mem' (slot a.queue.running l) =
      k.mem (slot a.queue.running l)) :
    Suspended c s' mem' 0x20 a.queue.running (a.process a.queue.running) (i - 22) := by
  have hstack : stackOf boot a.queue.running = a.queue.running := if_neg h0
  have hfits := h.fits.base h0
  rw [hstack] at hlow
  rw [h.context] at hfits hlow hwaits
  refine ⟨by omega, by omega, hrsp, hwaits, hfits.congr htype, fun hring i₀ hi₀ hrsp' => ?_,
    fun hring i₀ hi₀ hrsp' l hl hl' => ?_⟩
  · have := hlow hring i₀ hi₀ hrsp'
    omega
  · have := hlow hring i₀ hi₀ hrsp'
    rw [hmem l (by omega) hl']
    exact h.inUse h0 hring i₀ hi₀ hrsp' l hl hl'

/-- A later scheduling tick loads the process whose turn it is. -/
theorem Refines.timer_switch (h : Refines c boot idle k a arrived) (hticks : a.ticks + 1 = 180)
    (h0 : a.queue.running ≠ 0) :
    ∃ k', k.timer c = .ok k' ∧ Refines c boot idle k' (a.timer idle) arrived := by
  obtain ⟨i, hi, hi', hentry, hlow⟩ := h.entry
  obtain ⟨sim, hnodup, all, some, p, t, hl, hp, hp_ne⟩ := h.turn h0
  have hstack : stackOf boot a.queue.running = a.queue.running := if_neg h0
  have hp0 : p ≠ 0 := fun he => h.notNull (he ▸ hp)
  obtain ⟨j, hj⟩ := h.suspended p hp hp_ne
  rw [if_neg fun hand => h0 hand.2] at hj
  have htop := hj.top
  have hdepth := hj.depth
  -- the scheduler's part
  obtain ⟨s', hs, hswitched⟩ := Switched.of_sim sim h.idle_eq h.idle_ne_zero hnodup hl
    (by have := h.ticks; omega) (slot (stackOf boot a.queue.running) (i - 22))
  have hrun' : (tick 3 idle a.queue).running = p := by
    unfold FrontRequeue.tick
    rw [hl]
  have hcur : s'.currentlyRunningProcess = p := by rw [hswitched.sim.running, hrun']
  have hq : s'.rsp = slot p j := by
    rw [hswitched.loaded.rsp, hcur, hswitched.rsp, if_neg hp_ne, hj.rsp]
  -- the machine's part
  have happart := h.apart_base hp hp_ne
  have hbase := h.placed _ h.base_mem
  have hplaced := h.placed p (List.mem_cons_of_mem _ hp)
  obtain ⟨mem', hrun, hmem, hwaits⟩ := timer_resumes (c := c) (x := (a.process p).context) hentry
    (by omega) hdepth (by omega) hs hq
    (fun pushed hpushed _ => hj.waits.congr fun l _ hl => hpushed _
      (h.others hp hp_ne (by omega) hi' (by omega)))
    (fun l _ hl => h.others hp hp_ne (by omega) (by omega) (by omega))
  refine ⟨_, hrun, ?_⟩
  have htimer : a.timer idle = { a with queue := tick 3 idle a.queue, ticks := 0 } := by
    unfold Processes.timer
    rw [if_pos hticks, if_neg h0]
  rw [htimer]
  refine {
    known := h.known, placed := h.placed, apart := h.apart, notNull := h.notNull
    idle_eq := hswitched.idle_eq, kernel := (hswitched.type idle).trans h.kernel
    ticks := hswitched.ticks, ticks_lt := (by decide : 0 < 180)
    phase := .running hswitched.sim ((tick_perm 3 idle (by rw [hl]; simp)).trans all) some
    context := ?_, fits := ?_, inUse := ?_, cr3 := ?_, tss := ?_, suspended := ?_ }
  · show (a.process p).context = (a.process (tick 3 idle a.queue).running).context
    rw [hrun']
  · show Fits c s' boot (tick 3 idle a.queue).running (a.process p).context
    rw [hrun']
    exact (hj.fits.own hp0).congr (hswitched.type p)
  · intro _ hring i₀ hi₀ hrsp' l hl₀ hl'
    dsimp only at hring hrsp' ⊢
    rw [hrun'] at hring hrsp' ⊢
    have := hj.above hring i₀ hi₀ hrsp'
    rw [hmem _ (h.others hp hp_ne hi hi' hl') (not_below_slot hdepth (by omega) (by omega))]
    exact hj.inUse hring i₀ hi₀ hrsp' l hl₀ hl'
  · intro _
    show s'.cr3 = (s'.pcbs (tick 3 idle a.queue).running).cr3
    rw [← hswitched.sim.running]
    exact hswitched.loaded.cr3
  · intro _ huser
    show s'.tssRsp = slot (tick 3 idle a.queue).running 511
    rw [hswitched.loaded.tss (by rw [hswitched.sim.running]; exact huser), hswitched.sim.running]
    exact BitVec.add_comm _ _
  · intro q hq' hne
    dsimp only at hq' hne ⊢
    rw [hrun'] at hne ⊢
    rw [if_neg fun hand => hp0 hand.2]
    by_cases hold : q = a.queue.running
    · subst hold
      rw [hstack] at happart hbase hwaits hmem
      have hown : ∀ l < 512, ¬ Below (slot p j) c.depth (slot a.queue.running l) := fun l hl =>
        happart.symm.not_below hplaced hbase hdepth (by omega) hl
      refine ⟨i - 22, h.stopped h0 hi hi' hlow ?_ (hswitched.type _) ?_ fun l hl₀ hl' =>
        hmem _ (not_below_slot hi hl₀ (by omega)) (hown l hl')⟩
      · show (s'.pcbs a.queue.running).rsp = _
        rw [hswitched.rsp, if_pos rfl, hstack]
      · rw [hswitched.irq0]
        exact hwaits (fun l _ hl => hown l (by omega)) (by omega) hi'
    · obtain ⟨j', hj'⟩ := h.suspended q hq' hold
      rw [if_neg fun hand => h0 hand.2] at hj'
      have happart' : Apart p q := (List.pairwise_cons.mp h.apart).2.forall hp hq' (Ne.symm hne)
      refine ⟨j', hj'.congr hswitched.irq0 ?_ (hswitched.type q) fun l hl =>
        hmem _ (h.others hq' hold hi hi' hl) (happart'.not_below hplaced
          (h.placed q (List.mem_cons_of_mem _ hq')) hdepth (by omega) hl)⟩
      show (s'.pcbs q).rsp = _
      rw [hswitched.rsp, if_neg hold]

/-- From any point of a turn the interrupts up to the next scheduling tick end it: the queue takes a
    step, and no process has changed. -/
theorem Refines.untilTick {n : Nat} (h : Refines c boot idle k a arrived)
    (h0 : a.queue.running ≠ 0) (hn : a.ticks + n = 180) :
    ∃ k', Steps.Run (Step c boot) k (List.replicate n .timer) k' ∧
      Refines c boot idle k' { a with queue := tick 3 idle a.queue, ticks := 0 } arrived ∧
      (List.replicate n .timer).foldl (Processes.step idle) a =
        { a with queue := tick 3 idle a.queue, ticks := 0 } := by
  induction n generalizing k a with
  | zero =>
    have hlt := h.ticks_lt
    omega
  | succ n ih =>
    have hallowed : Allowed c boot k .timer := by
      intro hfirst
      cases h.phase with
      | boot first inv queue => exact absurd (by rw [queue]) h0
      | running sim => exact absurd hfirst sim.started
    rw [List.replicate_succ]
    by_cases hticks : a.ticks + 1 = 180
    · obtain ⟨k', hstep, h'⟩ := h.timer_switch hticks h0
      have hturn : a.timer idle = { a with queue := tick 3 idle a.queue, ticks := 0 } := by
        unfold Processes.timer
        rw [if_pos hticks, if_neg h0]
      obtain rfl : n = 0 := by omega
      exact ⟨k', .single ⟨hallowed, hstep⟩, hturn ▸ h', hturn⟩
    · obtain ⟨k₁, hstep, h₁⟩ := h.timer_count hticks
      have hcount : a.timer idle = { a with ticks := a.ticks + 1 } := if_neg hticks
      rw [hcount] at h₁
      obtain ⟨k', hrun, h', hfold⟩ := ih h₁ h0 (by
        show a.ticks + 1 + n = 180
        omega)
      refine ⟨k', .cons ⟨hallowed, hstep⟩ hrun, h', ?_⟩
      rw [List.foldl_cons]
      show (List.replicate n Event.timer).foldl _ (a.timer idle) = _
      rw [hcount, hfold]

theorem Refines.timer (h : Refines c boot idle k a arrived) (hallowed : Allowed c boot k .timer) :
    ∃ k', k.timer c = .ok k' ∧ Refines c boot idle k' (a.timer idle) arrived := by
  by_cases hticks : a.ticks + 1 = 180
  · by_cases h0 : a.queue.running = 0
    · refine h.timer_first hticks h0 (hallowed ?_ (by have := h.ticks; omega))
      cases h.phase with
      | boot first => exact first
      | running sim => exact absurd h0 sim.notNull
    · exact h.timer_switch hticks h0
  · exact h.timer_count hticks

end Timer

/-! ## Code that runs, and arrivals -/

section Arrive

variable {c : Compiled} {boot idle : Word} {k : System} {a : Processes} {arrived : List Word}

/-- Code changes the context of the process that runs, and no other. -/
theorem Refines.run (h : Refines c boot idle k a arrived) {x : Context} {mem : Word → Word}
    (hallowed : Allowed c boot k (.run x mem)) :
    Refines c boot idle { k with context := x, mem := mem } (a.step idle (.run x mem))
      arrived := by
  obtain ⟨hfits, hmem⟩ := hallowed
  rw [h.phase.current] at hfits hmem
  refine {
    known := h.known, placed := h.placed, apart := h.apart, notNull := h.notNull
    phase := h.phase, idle_eq := h.idle_eq, kernel := h.kernel, ticks := h.ticks
    ticks_lt := h.ticks_lt, context := ?_, fits := hfits, inUse := ?_, cr3 := h.cr3, tss := h.tss
    suspended := ?_ }
  · show x = (Function.update a.process a.queue.running _ a.queue.running).context
    rw [Function.update_self]
  · intro _ _ i₀ _ _ l _ _
    show mem _ = (Function.update a.process a.queue.running _ a.queue.running).stack l
    rw [Function.update_self]
    rfl
  · intro q hq hne
    change q ≠ a.queue.running at hne
    obtain ⟨j, hj⟩ := h.suspended q hq hne
    refine ⟨j, ?_⟩
    show Suspended c k.sched mem _ q (Function.update a.process a.queue.running _ q) j
    rw [Function.update_of_ne hne]
    exact hj.congr rfl rfl rfl (hmem q hq hne)

theorem storeStack_self {p : Word} (kstack : Nat → Word) (mem : Word → Word) {i : Nat}
    (hi : i < 512) : storeStack p kstack mem (slot p i) = kstack i := by
  have hsub : (slot p i - p).toNat = 8 * i := by
    unfold slot
    rw [BitVec.add_comm, BitVec.add_sub_cancel, BitVec.toNat_ofNat]
    omega
  unfold storeStack
  rw [hsub, if_pos (by omega), Nat.mul_div_cancel_left i (by omega)]

theorem storeStack_other {p q : Word} (hpq : Apart p q) (hp : IsStack p) (hq : IsStack q)
    (kstack : Nat → Word) (mem : Word → Word) {l : Nat} (hl : l < 512) :
    storeStack p kstack mem (slot q l) = mem (slot q l) := by
  unfold storeStack
  refine if_neg ?_
  have hp' := hp.2
  have hq' := hq.2
  rw [BitVec.toNat_sub, slot_toNat (by omega)]
  unfold Apart at hpq
  omega

/-- The words of a kernel stack. -/
theorem frame_storeStack {p : Word} (kstack : Nat → Word) (mem : Word → Word) (n j : Nat)
    (hj : j + n ≤ 512) :
    Stack.Frame (storeStack p kstack mem) (slot p j) (slot p (j + n))
      ((List.range' j n).map kstack) := by
  induction n generalizing j with
  | zero => rfl
  | succ n ih =>
    rw [List.range'_succ, List.map_cons]
    refine ⟨storeStack_self kstack mem (by omega), ?_⟩
    rw [show slot p j + 8 = slot p (j + 1) from slot_slot p j 1,
      show j + (n + 1) = j + 1 + n by omega]
    exact ih (j + 1) (by omega)

/-- A stack that is set up is a context that waits. -/
theorem waits_setupStack (p ss userRsp cs rip irq0 off : Word) (g : Pcb) (mem : Word → Word) :
    Waits irq0 off (storeStack p (setupStack p ss userRsp cs rip (off + irq0) g).kstack mem) p 490
      (entryContext g rip cs userRsp ss) := by
  refine ⟨g.kstack 490, ?_⟩
  exact frame_storeStack (setupStack p ss userRsp cs rip (off + irq0) g).kstack mem 22 490 le_rfl

/-- A new process waits at its entry point. -/
theorem Refines.schedule (h : Refines c boot idle k a arrived) {e : SchedEvent}
    (hallowed : Allowed c boot k (.schedule e)) :
    ∃ k' arrived', k.step c (.schedule e) = .ok k' ∧
      Refines c boot idle k' (a.step idle (.schedule e)) arrived' := by
  obtain ⟨p, g, he, hp, hplaced, happart⟩ := hallowed
  obtain ⟨x, hx⟩ : ∃ x, e.entry = some x := by
    cases e with
    | tick => cases he
    | scheduleUserProcess p' g' => exact ⟨_, rfl⟩
    | scheduleReadyProcess p' f g' => exact ⟨_, rfl⟩
  have hnew : p ∉ idle :: arrived := by
    rw [← h.known]
    exact fun hmem => (happart p (List.mem_cons_of_mem _ hmem)).ne rfl
  have hnr : p ≠ a.queue.running := by
    intro he
    by_cases h0 : a.queue.running = 0
    · exact hp (he.trans h0)
    · exact (happart _ (List.mem_cons_of_mem _ (h.running_known h0))).ne he
  obtain ⟨s', hrun, hphase⟩ : ∃ s', e.run k.sched = .ok s' ∧
      Phase idle (arrived ++ [p]) s' (arrive a.queue p g.timeRemaining.toNat) := by
    cases h.phase with
    | boot first inv queue =>
      obtain ⟨s', hrun, inv'⟩ := inv.arrival he hp hnew
      obtain ⟨s₁, hrun₁, -, hsame, htimes⟩ := SchedEvent.run_arrival he inv.chain hp
        fun hmem => hnew (List.mem_cons_of_mem _ hmem)
      rw [hrun] at hrun₁
      cases hrun₁
      refine ⟨s', hrun, .boot (hsame.first.trans first) inv' ?_⟩
      rw [queue, htimes]
      rfl
    | running sim all some =>
      obtain ⟨s', hrun, sim', -⟩ := SchedEvent.run_arrival_sim sim he hp
        fun hmem => hnew (all.mem_iff.mp (List.mem_cons_of_mem _ hmem))
      refine ⟨s', hrun, .running sim' ?_ (by simp)⟩
      show (a.queue.running :: (a.queue.ready ++ [p])).Perm (idle :: (arrived ++ [p]))
      rw [← List.cons_append, ← List.cons_append]
      exact all.append_right [p]
  obtain ⟨hidle, hrsp, hother⟩ := SchedEvent.run_arrival_context he hrun
  obtain ⟨hstack, htype, hcr3, hrest⟩ := SchedEvent.run_arrival_pcbs he hx hrun
  have hirq : s'.irq0 = k.sched.irq0 := (congrArg Sched.irq0 hrest :)
  have hmem : ∀ q ∈ boot :: k.known, ∀ l < 512,
      storeStack p (s'.pcbs p).kstack k.mem (slot q l) = k.mem (slot q l) :=
    fun q hq l hl => storeStack_other (happart q hq) hplaced (h.placed q hq) _ _ hl
  have hknown : k.known ++ [p] = idle :: (arrived ++ [p]) := by
    rw [h.known, List.cons_append]
  have hfar : ∀ q ∈ k.known, q ≠ p := fun q hq hqp =>
    (happart q (List.mem_cons_of_mem _ hq)).ne hqp.symm
  refine ⟨k.join p s', arrived ++ [p], System.step_schedule c he hrun, ?_⟩
  rw [Processes.step_schedule idle he hx]
  refine {
    known := hknown, placed := ?_, apart := ?_, notNull := ?_
    phase := hphase, idle_eq := hidle.trans h.idle_eq, kernel := ?_
    ticks := (congrArg Sched.timerTicks hrest :).trans h.ticks, ticks_lt := h.ticks_lt
    context := ?_, fits := ?_, inUse := ?_, cr3 := ?_, tss := ?_, suspended := ?_ }
  · intro q hq
    change q ∈ boot :: (k.known ++ [p]) at hq
    rw [← List.cons_append, List.mem_append, List.mem_singleton] at hq
    obtain hq | rfl := hq
    · exact h.placed q hq
    · exact hplaced
  · show (boot :: (k.known ++ [p])).Pairwise Apart
    rw [← List.cons_append, List.pairwise_append]
    refine ⟨h.apart, List.pairwise_singleton _ _, fun q hq q' hq' => ?_⟩
    rw [List.mem_singleton.mp hq']
    exact (happart q hq).symm
  · show 0 ∉ k.known ++ [p]
    rw [List.mem_append, List.mem_singleton]
    exact fun hmem => hmem.elim h.notNull fun h0 => hp h0.symm
  · rw [← h.kernel]
    exact (hother idle fun hi => hnew (hi ▸ List.mem_cons_self)).2
  · show k.context = (Function.update a.process p _ a.queue.running).context
    rw [Function.update_of_ne (Ne.symm hnr), h.context]
  · exact h.fits.congr (hother _ (Ne.symm hnr)).2
  · intro h0
    change a.queue.running ≠ 0 at h0
    have hold := h.inUse h0
    show InUse (storeStack p (s'.pcbs p).kstack k.mem) a.queue.running
      (Function.update a.process p _ a.queue.running)
    rw [Function.update_of_ne (Ne.symm hnr)]
    intro hring i₀ hi₀ hrsp' l hl hl'
    rw [hmem _ (List.mem_cons_of_mem _ (h.running_known h0)) l hl']
    exact hold hring i₀ hi₀ hrsp' l hl hl'
  · intro h0
    exact (congrArg Sched.cr3 hrest :).trans ((h.cr3 h0).trans (hcr3 _ (Ne.symm hnr)).symm)
  · intro h0 huser
    exact (congrArg Sched.tssRsp hrest :).trans
      (h.tss h0 ((hother _ (Ne.symm hnr)).2.symm.trans huser))
  · intro q hq hne
    change q ∈ k.known ++ [p] at hq
    change q ≠ a.queue.running at hne
    rw [List.mem_append, List.mem_singleton] at hq
    show ∃ j, Suspended c s' (storeStack p (s'.pcbs p).kstack k.mem)
      (if q = idle ∧ a.queue.running = 0 then 0x1b else 0x20) q (Function.update a.process p _ q) j
    obtain hq | rfl := hq
    · obtain ⟨j, hj⟩ := h.suspended q hq hne
      rw [Function.update_of_ne (hfar q hq)]
      exact ⟨j, hj.congr hirq (hother q (hfar q hq)).1 (hother q (hfar q hq)).2
        (hmem q (List.mem_cons_of_mem _ hq))⟩
    · have hring : (entryContext g x.rip 0x2b x.userRsp 0x23).Ring3 := by
        show (0x2b : Word) &&& 3 = 3
        decide
      have hdepth := c.depth_le
      rw [Function.update_self,
        if_neg fun hand : q = idle ∧ _ => hnew (hand.1 ▸ List.mem_cons_self), hstack]
      refine ⟨490, by omega, by omega, ?_, ?_, ?_, fun hr => absurd hring hr,
        fun hr => absurd hring hr⟩
      · rw [hrsp]
        exact BitVec.add_comm _ _
      · rw [hirq]
        exact waits_setupStack q 0x23 x.userRsp 0x2b x.rip k.sched.irq0 0x20 g k.mem
      · unfold Fits
        rw [if_pos hring]
        exact ⟨hp, htype⟩

/-- The boot code, before anyone was scheduled. -/
theorem Refines.start {idle fp boot : Word} {s₀ : Sched} {x : Context} {mem : Word → Word}
    (hf : s₀.firstSchedule = 1) (hticks : s₀.timerTicks < 180) (hidle : idle ≠ 0)
    (hboot : IsStack boot) (hplaced : IsStack idle) (happart : Apart boot idle)
    (hfits : Fits c s₀ boot 0 x) :
    Refines c boot idle (System.start idle fp s₀ x mem) (Processes.start idle fp s₀ x) [] := by
  have hpcb : (startSched idle fp s₀).pcbs idle =
      { setupStack idle 0x10 (511 * 8 + idle) 0x08 fp (0x1b + s₀.irq0) (s₀.pcbs idle)
        with processType := .kernel, state := .idle, pid := 0 } := by
    unfold startSched scheduleIdleProcess
    dsimp only
    rw [pcbs_setPcb_self]
    rfl
  have hring : ¬ x.Ring3 := by
    intro hring
    unfold Fits at hfits
    rw [if_pos hring] at hfits
    exact hfits.1 rfl
  refine {
    known := rfl, placed := ?_, apart := ?_, notNull := ?_
    phase := .boot hf (SchedInv.start idle fp hf) ?_, idle_eq := rfl
    kernel := (congrArg Pcb.processType hpcb :), ticks := rfl, ticks_lt := hticks
    context := ?_, fits := ?_, inUse := fun h0 => absurd rfl h0
    cr3 := fun h0 => absurd rfl h0, tss := fun h0 => absurd rfl h0, suspended := ?_ }
  · intro q hq
    obtain rfl | hq := List.mem_cons.mp hq
    · exact hboot
    · rw [List.mem_singleton.mp hq]
      exact hplaced
  · exact List.pairwise_pair.mpr happart
  · exact fun hmem => hidle (List.mem_singleton.mp hmem).symm
  · show (⟨0, [], s₀.times⟩ : Queue Word) = ⟨0, [], (startSched idle fp s₀).times⟩
    rw [times_startSched]
  · show x = (if (0 : Word) = idle then _ else (⟨x, fun _ => 0⟩ : Process)).context
    rw [if_neg (Ne.symm hidle)]
  · unfold Fits at hfits ⊢
    rw [if_neg hring] at hfits
    show if x.Ring3 then _ else _
    rw [if_neg hring]
    exact hfits
  · intro q hq _
    obtain rfl := List.mem_singleton.mp hq
    have hkernel : ¬ (entryContext (s₀.pcbs q) fp 0x08 (slot q 511) 0x10).Ring3 := by
      show ¬ ((0x08 : Word) &&& 3 = 3)
      decide
    have hdepth := c.depth_le
    rw [if_pos ⟨rfl, rfl⟩]
    show ∃ j, Suspended c (startSched q fp s₀)
      (storeStack q ((startSched q fp s₀).pcbs q).kstack mem) 0x1b q
      (if q = q then _ else _) j
    rw [if_pos rfl, hpcb]
    refine ⟨490, by omega, by omega, ?_, ?_, ?_, ?_, ?_⟩
    · rw [hpcb]
      exact BitVec.add_comm _ _
    · rw [show slot q 511 = 511 * 8 + q from BitVec.add_comm _ _]
      exact waits_setupStack q 0x10 (511 * 8 + q) 0x08 fp s₀.irq0 0x1b (s₀.pcbs q) mem
    · unfold Fits
      rw [if_neg hkernel]
      refine ⟨511, by omega, by omega, ?_⟩
      unfold stackOf
      rw [if_neg hidle]
      rfl
    · intro _ i₀ hi₀ hrsp
      have := slot_inj (by omega) (by omega) hrsp
      omega
    · intro _ i₀ hi₀ hrsp l hl hl'
      obtain rfl : l = 511 := by
        have := slot_inj (by omega) (by omega) hrsp
        omega
      exact storeStack_self _ _ (by omega)

/-- One event. -/
theorem Refines.step (h : Refines c boot idle k a arrived) {e : Event}
    (hallowed : Allowed c boot k e) :
    ∃ k' arrived', k.step c e = .ok k' ∧ Refines c boot idle k' (a.step idle e) arrived' := by
  cases e with
  | run x mem => exact ⟨_, arrived, rfl, h.run hallowed⟩
  | timer =>
    obtain ⟨k', hrun, h'⟩ := h.timer hallowed
    exact ⟨k', arrived, hrun, h'⟩
  | schedule e => exact h.schedule hallowed

end Arrive

/-- Preemption is invisible: whatever the code between the interrupts does and however many
    processes there are, the processor has the context of the process that runs, as that process
    left it, its kernel stack in use is as it left it, its address space is loaded, and the kernel
    never gets stuck. -/
theorem preemption_transparent (c : Compiled) (boot idle fp : Word) (s₀ : Sched) (x : Context)
    (mem : Word → Word) (es : List Event) (k : System) (hf : s₀.firstSchedule = 1)
    (hticks : s₀.timerTicks < 180) (hidle : idle ≠ 0) (hboot : IsStack boot)
    (hplaced : IsStack idle) (happart : Apart boot idle) (hfits : Fits c s₀ boot 0 x)
    (hrun : Steps.Run (Step c boot) (System.start idle fp s₀ x mem) es k) :
    let a := es.foldl (Processes.step idle) (Processes.start idle fp s₀ x)
    let p := a.queue.running
    k.sched.currentlyRunningProcess = p ∧ k.context = (a.process p).context ∧
      (p ≠ 0 → InUse k.mem p (a.process p) ∧ k.sched.cr3 = (k.sched.pcbs p).cr3) ∧
      ∀ e, Allowed c boot k e → ∃ k', k.step c e = .ok k' := by
  obtain ⟨arrived, h⟩ := hrun.simulation (f := Processes.step idle)
    (R := fun k a => ∃ arrived, Refines c boot idle k a arrived) (by
      rintro k e k' a ⟨arrived, h⟩ ⟨hallowed, hstep⟩
      obtain ⟨k'', arrived', hstep', h'⟩ := h.step hallowed
      rw [hstep] at hstep'
      cases hstep'
      exact ⟨arrived', h'⟩)
    ⟨[], Refines.start hf hticks hidle hboot hplaced happart hfits⟩
  refine ⟨h.phase.current, h.context, fun h0 => ⟨h.inUse h0, h.cr3 h0⟩, fun e hallowed => ?_⟩
  obtain ⟨k', -, hstep, -⟩ := h.step hallowed
  exact ⟨k', hstep⟩

/-- A compiler that uses no stack and leaves the registers alone. -/
def plainCompiled : Compiled where
  calleeSaved := .rbx
  regs _ m := m.regs
  mem _ m _ := m.mem
  depth := 0
  depth_le := by decide
  kept _ _ _ _ _ _ := rfl

/-- The boot code, on a stack at 0x10000. -/
def bootContext : Context := ⟨fun _ => 0, 0, 0x08, 0x202, slot 0x10000 512, 0x10⟩

/-- What the idle process has got to. -/
def idleContext : Context := ⟨fun _ => 7, 0x5010, 0x08, 0x202, slot 0x1000 511, 0x10⟩

/-- What the user process has got to. -/
def userContext : Context := ⟨fun _ => 9, 0x400010, 0x2b, 0x202, 0x7000, 0x23⟩

/-- The idle process runs, then a user process for a turn, and then the idle process as it was. -/
theorem preemption_transparent_back : ∃ es₁ es₂ es₃ k₁ k₂ k₃,
    Steps.Run (Step plainCompiled 0x10000)
      (System.start 0x1000 0x5000 { sampleSched with timerTicks := 179 } bootContext fun _ => 0)
      es₁ k₁ ∧
    Steps.Run (Step plainCompiled 0x10000) k₁ es₂ k₂ ∧
    Steps.Run (Step plainCompiled 0x10000) k₂ es₃ k₃ ∧
    (k₁.sched.currentlyRunningProcess = 0x1000 ∧ k₁.context = idleContext) ∧
    (k₂.sched.currentlyRunningProcess = 0x2000 ∧ k₂.context = userContext) ∧
    k₃.sched.currentlyRunningProcess = 0x1000 ∧ k₃.context = idleContext := by
  have hfits : Fits plainCompiled { sampleSched with timerTicks := 179 } 0x10000 0 bootContext := by
    unfold Fits
    rw [if_neg (by decide)]
    exact ⟨512, by decide, le_rfl, rfl⟩
  have hrule := fun es k => preemption_transparent plainCompiled 0x10000 0x1000 0x5000
    { sampleSched with timerTicks := 179 } bootContext (fun _ => 0) es k rfl (by decide)
    (by decide) ⟨by decide, by decide⟩ ⟨by decide, by decide⟩ (Or.inr (by decide)) hfits
  have hstart : Refines plainCompiled 0x10000 0x1000
      (System.start 0x1000 0x5000 { sampleSched with timerTicks := 179 } bootContext fun _ => 0)
      (Processes.start 0x1000 0x5000 { sampleSched with timerTicks := 179 } bootContext) [] :=
    Refines.start rfl (by decide) (by decide) ⟨by decide, by decide⟩ ⟨by decide, by decide⟩
      (Or.inr (by decide)) hfits
  -- a process arrives, and the first tick starts the idle process
  have hfirst : Allowed plainCompiled 0x10000
      (System.start 0x1000 0x5000 { sampleSched with timerTicks := 179 } bootContext fun _ => 0)
      (.schedule (.scheduleUserProcess 0x2000 samplePcb)) := by
    refine ⟨0x2000, samplePcb, rfl, by decide, ⟨by decide, by decide⟩, fun q hq => ?_⟩
    obtain rfl | hq := List.mem_cons.mp hq
    · exact Or.inl (by decide)
    · rw [List.mem_singleton.mp hq]
      exact Or.inr (by decide)
  obtain ⟨k₁, arrived₁, hstep₁, h₁⟩ := hstart.step hfirst
  have hsecond : Allowed plainCompiled 0x10000 k₁ .timer := by
    cases hstep₁
    intro _ _
    decide
  obtain ⟨k₂, arrived₂, hstep₂, h₂⟩ := h₁.step hsecond
  -- its code runs
  have hthird : Allowed plainCompiled 0x10000 k₂ (.run idleContext k₂.mem) := by
    rw [Allowed, h₂.phase.current]
    refine ⟨?_, fun _ _ _ _ _ => rfl⟩
    unfold Fits
    rw [if_neg (by decide)]
    exact ⟨511, by decide, by decide, rfl⟩
  obtain ⟨k₃, arrived₃, hstep₃, h₃⟩ := h₂.step hthird
  -- at the next scheduling tick it is the user process's turn
  obtain ⟨k₄, hrun₄, h₄, hfold₄⟩ := h₃.untilTick (n := 179) (show (0x1000 : Word) ≠ 0 by decide) rfl
  have hfifth : Allowed plainCompiled 0x10000 k₄ (.run userContext k₄.mem) := by
    have hring : k₄.context.Ring3 := by
      rw [h₄.context]
      show (0x2b : Word) &&& 3 = 3
      decide
    have hnew := h₄.fits
    rw [Allowed, h₄.phase.current]
    refine ⟨?_, fun _ _ _ _ _ => rfl⟩
    unfold Fits at hnew ⊢
    rw [if_pos hring] at hnew
    rwa [if_pos (by decide)]
  obtain ⟨k₅, arrived₅, hstep₅, h₅⟩ := h₄.step hfifth
  -- and the idle process again
  obtain ⟨k₆, hrun₆, h₆, hfold₆⟩ := h₅.untilTick (n := 180) (show (0x2000 : Word) ≠ 0 by decide) rfl
  generalize List.replicate 179 Event.timer = turn at hrun₄ hfold₄
  generalize List.replicate 180 Event.timer = turn' at hrun₆ hfold₆
  have hidle : Steps.Run (Step plainCompiled 0x10000) _ [_, _, _] k₃ :=
    .cons ⟨hfirst, hstep₁⟩ (.cons ⟨hsecond, hstep₂⟩ (.single ⟨hthird, hstep₃⟩))
  have huser := hrun₄.append (.single ⟨hfifth, hstep₅⟩)
  have hwhole := (hidle.append huser).append hrun₆
  refine ⟨_, _, _, k₃, k₅, k₆, hidle, huser, hrun₆, ?_, ?_, ?_⟩
  · obtain ⟨hcur, hcontext, -⟩ := hrule _ k₃ hidle
    exact ⟨hcur, hcontext⟩
  · obtain ⟨hcur, hcontext, -⟩ := hrule _ k₅ (hidle.append huser)
    simp only [List.foldl_append, List.foldl_cons, List.foldl_nil] at hcur hcontext
    rw [hfold₄] at hcur hcontext
    exact ⟨hcur, hcontext⟩
  · obtain ⟨hcur, hcontext, -⟩ := hrule _ k₆ hwhole
    simp only [List.foldl_append, List.foldl_cons, List.foldl_nil] at hcur hcontext
    rw [hfold₄, hfold₆] at hcur hcontext
    exact ⟨hcur, hcontext⟩

end SBUnix.Interrupt
