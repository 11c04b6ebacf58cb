import SBUnix.Sched.Starvation

/-
  What a scheduling tick loads.

  Every event comes with the stack pointer at which it happens, and `runContext` records beside
  the run which process each tick takes off the CPU, and at which stack pointer. The pcb of a
  process holds what that record says last about it (`ContextInv.saved`), so a switch back loads
  the stack pointer of the last preemption, however many other processes ran in between
  (`contextIntegrity`).
-/

namespace SBUnix

open FrontRequeue

/-- The stack pointer that `schedule_idle_process` and `schedule_user_process` set. -/
def initialRsp (p : Word) : Word := (507 - 17) * 8 + p

/-- The process that `e` takes off the CPU at stack pointer `rsp`. -/
def preempted (rsp : Word) (e : SchedEvent) (s : Sched) : List (Word × Word) :=
  match e with
  | .tick => if s.currentlyRunningProcess ≠ 0 then [(s.currentlyRunningProcess, rsp)] else []
  | .scheduleUserProcess _ _ => []
  | .scheduleReadyProcess _ _ _ => []

/-- A run of events, each at its own stack pointer, and its preemptions, the last one first. -/
def runContext :
    List (Word × SchedEvent) → Sched × List (Word × Word) → Except Fault (Sched × List (Word × Word))
  | [], sh => .ok sh
  | (rsp, e) :: es, (s, history) => do
    let s' ← e.run { s with rsp := rsp }
    runContext es (s', preempted rsp e s ++ history)

/-- The stack pointer of `p` at its most recent preemption, or the initial one. -/
def storedRsp (history : List (Word × Word)) (p : Word) : Word :=
  (history.lookup p).getD (initialRsp p)

/-- The CPU is set up for the process that runs, at stack pointer `rsp`. -/
structure Loaded (s : Sched) (rsp : Word) : Prop where
  cr3 : s.cr3 = (s.pcbs s.currentlyRunningProcess).cr3
  rsp : s.rsp = rsp
  tss : (s.pcbs s.currentlyRunningProcess).processType = .user →
    s.tssRsp = 511 * 8 + s.currentlyRunningProcess

/-! ## Frames -/

/-- Nothing a switch loads is written, but for the link and the time of pcbs. -/
structure SameContext (s s' : Sched) : Prop where
  rsp : ∀ q, (s'.pcbs q).rsp = (s.pcbs q).rsp
  processType : ∀ q, (s'.pcbs q).processType = (s.pcbs q).processType
  idle : s'.idleProcess = s.idleProcess

section Frames

variable {s s' s'' : Sched} {p w : Word}

theorem SameContext.trans (h : SameContext s s') (h' : SameContext s' s'') : SameContext s s'' where
  rsp q := (h'.rsp q).trans (h.rsp q)
  processType q := (h'.processType q).trans (h.processType q)
  idle := h'.idle.trans h.idle

theorem SameContext.setPcb (s : Sched) (p : Word) {f : Pcb → Pcb}
    (hrsp : ∀ g, (f g).rsp = g.rsp) (htype : ∀ g, (f g).processType = g.processType) :
    SameContext s (s.setPcb p f) := by
  refine ⟨fun q => ?_, fun q => ?_, rfl⟩ <;> by_cases h : q = p
  · rw [h, pcbs_setPcb_self, hrsp]
  · rw [pcbs_setPcb_of_ne s p f h]
  · rw [h, pcbs_setPcb_self, htype]
  · rw [pcbs_setPcb_of_ne s p f h]

theorem SameContext.setNext (s : Sched) (p w : Word) : SameContext s (s.setNext p w) := by
  unfold Sched.setNext
  exact SameContext.setPcb s p (fun _ => rfl) fun _ => rfl

theorem SameContext.setTimeRemaining (s : Sched) (p w : Word) :
    SameContext s (s.setTimeRemaining p w) := by
  unfold Sched.setTimeRemaining
  exact SameContext.setPcb s p (fun _ => rfl) fun _ => rfl

theorem SameContext.setReady (s : Sched) (w : Word) :
    SameContext s { s with readyProcesses := w } :=
  ⟨fun _ => rfl, fun _ => rfl, rfl⟩

theorem appendReady_context (h : appendReady p s = .ok s') : SameContext s s' := by
  unfold appendReady at h
  split_ifs at h with h0
  · cases h
    exact (SameContext.setReady s p).trans (SameContext.setNext _ _ _)
  · obtain ⟨temp, -, htemp⟩ := bind_eq_ok.mp h
    cases htemp
    exact (SameContext.setNext s _ _).trans (SameContext.setNext _ _ _)

theorem scheduleOldProcess_context (h : scheduleOldProcess p s = .ok s') : SameContext s s' := by
  have hspent : SameContext s (s.spent p) :=
    (SameContext.setTimeRemaining s _ _).trans (SameContext.setNext _ _ _)
  rw [scheduleOldProcess_eq] at h
  split_ifs at h with hzero
  · have htime := hspent.trans (SameContext.setTimeRemaining (s.spent p) p 3)
    dsimp only at h
    split_ifs at h with h0
    · cases h
      exact htime.trans (SameContext.setReady _ p)
    · obtain ⟨temp, -, htemp⟩ := bind_eq_ok.mp h
      cases htemp
      exact htime.trans (SameContext.setNext _ temp p)
  · cases h
    exact (hspent.trans (SameContext.setNext _ _ _)).trans (SameContext.setReady _ p)

end Frames

/-! ## One event -/

section Event

variable {s s' : Sched} {rsp : Word}

/-- Saving writes the stack pointer of the process that runs, and no other. -/
theorem saveRunning_context (h : saveRunning s = .ok s')
    (hr : s.currentlyRunningProcess ≠ 0) :
    SameContext (s.setRsp s.currentlyRunningProcess s.rsp) s' := by
  unfold saveRunning at h
  rw [if_pos hr] at h
  exact scheduleOldProcess_context h

theorem rsp_setRsp (s : Sched) (p w q : Word) :
    ((s.setRsp p w).pcbs q).rsp = if q = p then w else (s.pcbs q).rsp := by
  unfold Sched.setRsp
  split_ifs with h
  · rw [h, pcbs_setPcb_self]
  · rw [pcbs_setPcb_of_ne s p _ h]

theorem processType_setRsp (s : Sched) (p w q : Word) :
    ((s.setRsp p w).pcbs q).processType = (s.pcbs q).processType := by
  unfold Sched.setRsp
  by_cases h : q = p
  · rw [h, pcbs_setPcb_self]
  · rw [pcbs_setPcb_of_ne s p _ h]

/-- The registers after a switch are those of the process switched to. -/
theorem enter_loaded (s : Sched) (p : Word) : Loaded (s.enter p) (s.pcbs p).rsp := by
  unfold Sched.enter
  dsimp only
  split_ifs with huser
  · exact ⟨rfl, rfl, fun _ => rfl⟩
  · exact ⟨rfl, rfl, fun h => absurd h huser⟩

theorem storedRsp_cons (history : List (Word × Word)) (p w q : Word) :
    storedRsp ((p, w) :: history) q = if q = p then w else storedRsp history q := by
  unfold storedRsp
  rw [List.lookup_cons]
  by_cases h : q = p
  · rw [h, beq_self_eq_true, if_pos rfl, Option.getD_some]
  · rw [beq_false_of_ne h, if_neg h]

/-- A later tick with a process to run loads that process, and keeps the stack pointer of the one
    it takes off the CPU. -/
theorem schedulingTick_loaded (hf : s.firstSchedule ≠ 1) (hr : s.currentlyRunningProcess ≠ 0)
    (hq : s.readyProcesses ≠ 0) (h : schedulingTick s = .ok s') :
    Loaded s' (s'.pcbs s'.currentlyRunningProcess).rsp ∧ s'.idleProcess = s.idleProcess ∧
      (∀ q, (s'.pcbs q).rsp = if q = s.currentlyRunningProcess then s.rsp else (s.pcbs q).rsp) ∧
      ∀ q, (s'.pcbs q).processType = (s.pcbs q).processType := by
  rw [schedulingTick_switch hf hq] at h
  obtain ⟨s₁, hsave, hs'⟩ := bind_eq_ok.mp h
  cases hs'
  have hkept := saveRunning_context hsave hr
  obtain ⟨hpcbs, -, hcur, hidle, -⟩ := enter_spec s₁ s.readyProcesses
  refine ⟨?_, hidle.trans hkept.idle, fun q => ?_, fun q => ?_⟩
  · rw [hcur, hpcbs]
    exact enter_loaded s₁ s.readyProcesses
  · rw [hpcbs, hkept.rsp, rsp_setRsp]
    rfl
  · rw [hpcbs, hkept.processType, processType_setRsp]
    rfl

/-- The pcb that arrives gets the initial stack pointer, the others keep theirs. -/
theorem SchedEvent.run_arrival_context {e : SchedEvent} {p : Word} {g : Pcb}
    (he : e.arrival = some (p, g)) (h : e.run s = .ok s') :
    s'.idleProcess = s.idleProcess ∧ (s'.pcbs p).rsp = initialRsp p ∧
      ∀ q, q ≠ p → (s'.pcbs q).rsp = (s.pcbs q).rsp ∧
        (s'.pcbs q).processType = (s.pcbs q).processType := by
  have hput : ∀ (f : Pcb → Pcb) (n : Word), (∀ g, (f g).rsp = initialRsp p) →
      appendReady p { (s.setPcb p fun _ => g).setPcb p f with pidCount := n } = .ok s' →
      s'.idleProcess = s.idleProcess ∧ (s'.pcbs p).rsp = initialRsp p ∧
        ∀ q, q ≠ p → (s'.pcbs q).rsp = (s.pcbs q).rsp ∧
          (s'.pcbs q).processType = (s.pcbs q).processType := by
    intro f n hf happend
    have hkept := appendReady_context happend
    have hother : ∀ q, q ≠ p → ((s.setPcb p fun _ => g).setPcb p f).pcbs q = s.pcbs q :=
      fun q hq => by rw [pcbs_setPcb_of_ne _ p f hq, pcbs_setPcb_of_ne s p _ hq]
    refine ⟨hkept.idle, ?_, fun q hq => ⟨?_, ?_⟩⟩
    · rw [hkept.rsp]
      show (((s.setPcb p fun _ => g).setPcb p f).pcbs p).rsp = _
      rw [pcbs_setPcb_self, hf]
    · rw [hkept.rsp]
      exact congrArg Pcb.rsp (hother q hq)
    · rw [hkept.processType]
      exact congrArg Pcb.processType (hother q hq)
  cases e with
  | tick => cases he
  | scheduleUserProcess p' g' =>
    obtain ⟨rfl, rfl⟩ := Prod.mk.inj (Option.some.inj he)
    exact hput _ _ (fun _ => rfl) h
  | scheduleReadyProcess p' f g' =>
    obtain ⟨rfl, rfl⟩ := Prod.mk.inj (Option.some.inj he)
    exact hput _ _ (fun _ => rfl) h

end Event

/-! ## Runs -/

/-- The scheduler waits for its first tick with everyone in the list, or is an abstract queue of the
    idle process and everyone who arrived. -/
def Queued (idle : Word) (arrived : List Word) (s : Sched) : Prop :=
  (s.firstSchedule = 1 ∧ SchedInv idle arrived s arrived) ∨
    ∃ q, Sim s q ∧ q.all.Perm (idle :: arrived)

/-- The pcbs hold what the record says about them. -/
structure ContextInv (idle : Word) (arrived : List Word) (s : Sched)
    (history : List (Word × Word)) : Prop where
  idle_eq : s.idleProcess = idle
  kernel : (s.pcbs idle).processType = .kernel
  queued : Queued idle arrived s
  saved : ∀ p ∈ idle :: arrived, (s.pcbs p).rsp = storedRsp history p
  known : ∀ x ∈ history, x.1 ∈ idle :: arrived

section Runs

variable {idle : Word} {arrived : List Word} {s : Sched} {history : List (Word × Word)}

theorem ContextInv.start (idle fp : Word) {s₀ : Sched} (hf : s₀.firstSchedule = 1) :
    ContextInv idle [] (startSched idle fp s₀) [] where
  idle_eq := rfl
  kernel := by
    unfold startSched scheduleIdleProcess
    dsimp only
    rw [pcbs_setPcb_self]
  queued := Or.inl ⟨hf, SchedInv.start idle fp hf⟩
  saved p hp := by
    rw [List.mem_singleton.mp hp]
    unfold startSched scheduleIdleProcess
    dsimp only
    rw [pcbs_setPcb_self]
    rfl
  known := by simp

/-- The stack pointer of the CPU is arbitrary. -/
theorem ContextInv.setRsp (h : ContextInv idle arrived s history) (rsp : Word) :
    ContextInv idle arrived { s with rsp := rsp } history := by
  refine ⟨h.idle_eq, h.kernel, h.queued.imp ?_ ?_, h.saved, h.known⟩
  · rintro ⟨hf, hinv⟩
    exact ⟨hf, hinv.chain, hinv.idle_eq, hinv.notNull, hinv.listed, hinv.held, hinv.phase⟩
  · rintro ⟨q, hsim, hall⟩
    exact ⟨q, ⟨hsim.chain, hsim.running, hsim.notNull, hsim.times, hsim.started⟩, hall⟩

theorem Queued.arrival (h : Queued idle arrived s) {e : SchedEvent} {p : Word} {g : Pcb}
    (he : e.arrival = some (p, g)) (hp : p ≠ 0) (hnew : p ∉ idle :: arrived) :
    ∃ s', e.run s = .ok s' ∧ Queued idle (arrived ++ [p]) s' := by
  obtain ⟨hf, hinv⟩ | ⟨q, hsim, hall⟩ := h
  · obtain ⟨s', hrun, hinv'⟩ := hinv.arrival he hp hnew
    obtain ⟨s₁, hrun₁, -, hsame, -⟩ := SchedEvent.run_arrival he hinv.chain hp
      fun hmem => hnew (List.mem_cons_of_mem _ hmem)
    rw [hrun] at hrun₁
    cases hrun₁
    exact ⟨s', hrun, Or.inl ⟨hsame.first.trans hf, hinv'⟩⟩
  · obtain ⟨s', hrun, hsim', -⟩ := SchedEvent.run_arrival_sim hsim he hp
      fun hmem => hnew (hall.mem_iff.mp (List.mem_cons_of_mem _ hmem))
    refine ⟨s', hrun, Or.inr ⟨_, hsim', ?_⟩⟩
    show (q.running :: (q.ready ++ [p])).Perm (idle :: (arrived ++ [p]))
    rw [← List.cons_append, ← List.cons_append]
    exact hall.append_right [p]

/-- An arrival starts with the initial stack pointer, and was never preempted. -/
theorem ContextInv.arrival (h : ContextInv idle arrived s history) {e : SchedEvent} {p : Word}
    {g : Pcb} (he : e.arrival = some (p, g)) (hp : p ≠ 0) (hnew : p ∉ idle :: arrived) :
    ∃ s', e.run s = .ok s' ∧ ContextInv idle (arrived ++ [p]) s' history := by
  obtain ⟨s', hrun, hqueued⟩ := h.queued.arrival he hp hnew
  obtain ⟨hidle, hfresh, hother⟩ := SchedEvent.run_arrival_context he hrun
  have hmem : ∀ x, x ∈ idle :: (arrived ++ [p]) ↔ x ∈ idle :: arrived ∨ x = p := by
    intro x
    rw [← List.cons_append, List.mem_append, List.mem_singleton]
  have hne : ∀ x ∈ idle :: arrived, x ≠ p := fun x hx hxp => hnew (hxp ▸ hx)
  refine ⟨s', hrun, hidle.trans h.idle_eq, ?_, hqueued, fun x hx => ?_, fun x hx => ?_⟩
  · rw [(hother idle (hne idle List.mem_cons_self)).2, h.kernel]
  · obtain hx | rfl := (hmem x).mp hx
    · rw [(hother x (hne x hx)).1, h.saved x hx]
    · have hnone : history.lookup x = none :=
        List.lookup_eq_none_iff.mpr fun y hy => by
          rw [bne_iff_ne]
          exact (hne y.1 (h.known y hy)).symm
      rw [hfresh, storedRsp, hnone, Option.getD_none]
  · exact (hmem x.1).mpr (Or.inl (h.known x hx))

/-- A tick loads the process it makes the current one, at the stack pointer stored for it. -/
theorem ContextInv.tick (h : ContextInv idle arrived s history) (hidle : idle ≠ 0)
    (hnodup : (idle :: arrived).Nodup) (hne : arrived ≠ []) :
    ∃ s', schedulingTick s = .ok s' ∧
      ContextInv idle arrived s' (preempted s.rsp .tick s ++ history) ∧
      Loaded s' (storedRsp (preempted s.rsp .tick s ++ history) s'.currentlyRunningProcess) := by
  obtain ⟨hf, hinv⟩ | ⟨q, hsim, hall⟩ := h.queued
  · -- the first tick takes nobody off the CPU
    have hnone : preempted s.rsp .tick s = [] := by
      obtain ⟨-, hr⟩ | ⟨hf', -⟩ := hinv.phase
      · exact if_neg (not_not.mpr hr)
      · exact absurd hf hf'
    obtain ⟨s', hrun, hinv', hr, hf', -⟩ := hinv.first_tick hidle hf
    have hs' := hrun
    rw [schedulingTick_first hf] at hs'
    cases hs'
    rw [hnone, List.nil_append]
    refine ⟨_, hrun, ⟨h.idle_eq, h.kernel, Or.inr ?_, h.saved, h.known⟩, rfl, ?_, ?_⟩
    · have hsim := hinv'.sim hf'
      rw [hr] at hsim
      exact ⟨_, hsim, List.Perm.refl _⟩
    · rw [hr, ← h.saved idle List.mem_cons_self, ← h.idle_eq]
      rfl
    · rw [hr]
      intro huser
      cases huser.symm.trans h.kernel
  · have hready : q.ready ≠ [] := by
      intro hnil
      have hlen := hall.length_eq
      unfold Queue.all at hlen
      rw [hnil, List.length_cons, List.length_cons, List.length_nil] at hlen
      exact hne (List.length_eq_zero_iff.mp (by omega))
    have hq : s.readyProcesses ≠ 0 := by
      obtain ⟨x, t, hcons⟩ := List.exists_cons_of_ne_nil hready
      have hchain := hsim.chain
      rw [hcons] at hchain
      obtain ⟨hx, hx0, -⟩ := readyChain_cons.mp hchain
      rwa [hx]
    have hrunning : q.running ∉ q.ready.tail := fun hmem =>
      (List.nodup_cons.mp (hall.nodup_iff.mpr hnodup)).1 (List.mem_of_mem_tail hmem)
    have hr : s.currentlyRunningProcess ≠ 0 := by
      rw [hsim.running]
      exact hsim.notNull
    obtain ⟨s', hrun, hsim', -⟩ := schedulingTick_sim hsim (by rwa [h.idle_eq]) hrunning
    rw [h.idle_eq] at hsim'
    obtain ⟨hloaded, hidle', hrsp, htype⟩ := schedulingTick_loaded hsim.started hr hq hrun
    have hall' := (tick_perm 3 idle hready).trans hall
    have hmem : ∀ p, p ∈ idle :: arrived → (s'.pcbs p).rsp =
        storedRsp (preempted s.rsp .tick s ++ history) p := by
      intro p hp
      rw [preempted, if_pos hr, List.singleton_append, storedRsp_cons, hrsp]
      split_ifs
      · rfl
      · exact h.saved p hp
    refine ⟨s', hrun, ⟨hidle'.trans h.idle_eq, (htype idle).trans h.kernel,
      Or.inr ⟨_, hsim', hall'⟩, hmem, fun x hx => ?_⟩, ?_⟩
    · rw [preempted, if_pos hr, List.singleton_append, List.mem_cons] at hx
      obtain rfl | hx := hx
      · rw [hsim.running]
        exact hall.mem_iff.mp List.mem_cons_self
      · exact h.known x hx
    · rw [← hmem _ (hall'.mem_iff.mp (hsim'.running ▸ List.mem_cons_self))]
      exact hloaded

/-- Every later run. -/
theorem ContextInv.run (h : ContextInv idle arrived s history) (hidle : idle ≠ 0)
    (hne : arrived ≠ []) {es : List (Word × SchedEvent)}
    (hnew : (idle :: (arrived ++ arrivals (es.map Prod.snd))).Nodup)
    (hnull : ∀ p ∈ arrivals (es.map Prod.snd), p ≠ 0) :
    ∃ s' history', runContext es (s, history) = .ok (s', history') ∧
      ContextInv idle (arrived ++ arrivals (es.map Prod.snd)) s' history' := by
  induction es generalizing arrived s history with
  | nil =>
    refine ⟨s, history, rfl, ?_⟩
    simpa [arrivals] using h
  | cons e es ih =>
    obtain ⟨rsp, e⟩ := e
    rw [List.map_cons] at hnew hnull ⊢
    cases he : e.arrival with
    | none =>
      obtain rfl := SchedEvent.eq_tick he
      rw [arrivals_cons_tick] at hnew hnull ⊢
      have hnodup : (idle :: arrived).Nodup := by
        rw [← List.cons_append] at hnew
        exact (List.nodup_append.mp hnew).1
      obtain ⟨s₁, hrun, h₁, -⟩ := (h.setRsp rsp).tick hidle hnodup hne
      obtain ⟨s', history', hrest, h'⟩ := ih h₁ hne hnew hnull
      refine ⟨s', history', ?_, h'⟩
      rw [runContext, SchedEvent.run_tick, hrun, ok_bind]
      exact hrest
    | some a =>
      obtain ⟨p, g⟩ := a
      rw [arrivals_cons_some he] at hnew hnull ⊢
      have hp : p ∉ idle :: arrived := by
        rw [← List.cons_append] at hnew
        exact fun hmem => (List.nodup_append.mp hnew).2.2 p hmem p List.mem_cons_self rfl
      obtain ⟨s₁, hrun, h₁⟩ := (h.setRsp rsp).arrival he (hnull p List.mem_cons_self) hp
      have hnone : preempted rsp e s = [] := by
        cases e with
        | tick => cases he
        | scheduleUserProcess p g => rfl
        | scheduleReadyProcess p f g => rfl
      have hsplit : arrived ++ [p] ++ arrivals (es.map Prod.snd) =
          arrived ++ p :: arrivals (es.map Prod.snd) := by
        rw [List.append_assoc, List.singleton_append]
      obtain ⟨s', history', hrest, h'⟩ := ih h₁ (by simp) (by rwa [hsplit])
        fun q hq => hnull q (List.mem_cons_of_mem _ hq)
      refine ⟨s', history', ?_, by rwa [← hsplit]⟩
      rw [runContext, hrun, ok_bind, hnone]
      exact hrest

theorem runContext_append (es es' : List (Word × SchedEvent)) (sh : Sched × List (Word × Word)) :
    runContext (es ++ es') sh = runContext es sh >>= runContext es' := by
  induction es generalizing sh with
  | nil => rfl
  | cons e es ih =>
    obtain ⟨rsp, e⟩ := e
    obtain ⟨s, history⟩ := sh
    rw [List.cons_append, runContext, runContext]
    cases e.run { s with rsp := rsp } with
    | error fault => rfl
    | ok s' => exact ih _

end Runs

/-- Context integrity: after every tick of a run in which a process is scheduled before the first
    one, the CPU is set up for the process that runs, at the stack pointer of its most recent
    preemption. -/
theorem contextIntegrity (idle fp : Word) (s₀ : Sched) (hidle : idle ≠ 0)
    (hf : s₀.firstSchedule = 1) (first : Word × SchedEvent) (es : List (Word × SchedEvent))
    (rsp : Word) (hfirst : first.2.arrival ≠ none)
    (hnew : (idle :: arrivals ((first :: es).map Prod.snd)).Nodup)
    (hnull : ∀ p ∈ arrivals ((first :: es).map Prod.snd), p ≠ 0) :
    ∃ s history,
      runContext (first :: es ++ [(rsp, .tick)]) (startSched idle fp s₀, []) = .ok (s, history) ∧
        Loaded s (storedRsp history s.currentlyRunningProcess) := by
  obtain ⟨rsp₁, e⟩ := first
  obtain ⟨⟨p, g⟩, he⟩ := Option.ne_none_iff_exists'.mp hfirst
  rw [List.map_cons, arrivals_cons_some he] at hnew hnull
  have hp : p ∉ [idle] := fun hmem =>
    (List.nodup_cons.mp hnew).1 (List.mem_singleton.mp hmem ▸ List.mem_cons_self)
  obtain ⟨s₁, hrun₁, h₁⟩ := ((ContextInv.start idle fp hf).setRsp rsp₁).arrival he
    (hnull p List.mem_cons_self) hp
  obtain ⟨s₂, history, hrun₂, h₂⟩ := h₁.run hidle (List.cons_ne_nil p []) hnew
    fun q hq => hnull q (List.mem_cons_of_mem _ hq)
  obtain ⟨s, htick, -, hloaded⟩ := (h₂.setRsp rsp).tick hidle hnew (by simp)
  refine ⟨s, _, ?_, hloaded⟩
  have hnone : preempted rsp₁ e (startSched idle fp s₀) = [] := by
    cases e with
    | tick => cases he
    | scheduleUserProcess p g => rfl
    | scheduleReadyProcess p f g => rfl
  rw [runContext_append, runContext, hrun₁, ok_bind, hnone, List.append_nil, hrun₂, ok_bind,
    runContext, SchedEvent.run_tick, htick]
  rfl

/-- One process, and two ticks before the one that is looked at. -/
theorem contextIntegrity_one : ∃ s history,
    runContext ((0, .scheduleUserProcess 0x2000 samplePcb) :: [(0x5000, .tick), (0x6000, .tick)] ++
      [(0x7000, .tick)]) (startSched 0x1000 0 sampleSched, []) = .ok (s, history) ∧
        Loaded s (storedRsp history s.currentlyRunningProcess) :=
  contextIntegrity 0x1000 0 sampleSched (by decide) rfl (0, .scheduleUserProcess 0x2000 samplePcb)
    [(0x5000, .tick), (0x6000, .tick)] 0x7000 (by simp [SchedEvent.arrival])
    (by simp [arrivals, SchedEvent.arrival]) (by simp [arrivals, SchedEvent.arrival])

end SBUnix
