import SBUnix.Interrupt.Controller

/-
  Why no line is silenced.

  Every handler ends what is in service before interrupts come on again: with its `iretq`, or with
  the `sti` of a system call that waits for the keyboard (`Settles`). That is a property of what is
  left of the handler, so it survives that `generate_timer` goes on in the middle of the handler of
  another process. So whenever interrupts are taken nothing is in service (`Proceeds.quiet_of_on`),
  the first line that waits gets its handler, and with no fault but page faults the handlers always
  come to an end with nothing left to serve (`interrupts_served`).
-/

namespace SBUnix.Interrupt

open I8259 Steps Pics

/-! ## Handlers that settle -/

/-- The end of an interrupt, at one of the two controllers. -/
structure Ends (port : BitVec 16) (v : BitVec 8) : Prop where
  value : v = 0x20
  port : port = 0x20 ∨ port = 0xa0

/-- The instructions `ops` end what is in service before they let interrupts in, and again if they
    go on later. Where processes change, only the timer is in service. -/
def Settles (p : Pics) : List Op → Prop
  | [] => p.Quiet
  | .cli :: ops => Settles p ops
  | .sti :: ops => p.Quiet ∧ ∀ q : Pics, q.Quiet → Settles q ops
  | .outb port v :: ops => Ends port v ∧ Settles (p.outb port v) ops
  | .schedule :: ops => p.Serving 0 ∧ ∀ q : Pics, q.Serving 0 → Settles q ops
  | .halt :: _ => False

section Settles

variable {p q : Pics} {ops : List Op} {n : Fin 16} {port : BitVec 16} {v : BitVec 8}

theorem Ends.quiet (h : Ends port v) (hp : p.Quiet) : p.outb port v = p := by
  obtain ⟨rfl, rfl | rfl⟩ := h
  · exact hp.outb_master
  · exact hp.outb_slave

theorem Ends.ready {b b' : BitVec 8} (h : Ends port v) (hp : p.Ready b b') :
    (p.outb port v).Ready b b' := by
  obtain ⟨rfl, rfl | rfl⟩ := h
  · exact hp.outb_master
  · exact hp.outb_slave

theorem Ends.pending (h : Ends port v) : (p.outb port v).Pending n ↔ p.Pending n := by
  obtain ⟨rfl, rfl | rfl⟩ := h
  · exact pending_outb_master
  · exact pending_outb_slave

theorem ends_master : Ends 0x20 0x20 := ⟨rfl, Or.inl rfl⟩

theorem ends_slave : Ends 0xa0 0x20 := ⟨rfl, Or.inr rfl⟩

theorem Settles.congr (h : Settles p ops) (hpq : SameBut p q) : Settles q ops := by
  induction ops generalizing p q with
  | nil => exact hpq.quiet h
  | cons op ops ih =>
    cases op with
    | cli => exact ih (p := p) h hpq
    | sti => exact ⟨hpq.quiet h.1, h.2⟩
    | outb port v => exact ⟨h.1, ih h.2 (hpq.outb port v)⟩
    | schedule => exact ⟨hpq.serving h.1, h.2⟩
    | halt => exact h.elim

theorem settles_end (h : p.Quiet) : Settles p [.sti] := ⟨h, fun _ hq => hq⟩

theorem settles_master (h : p.Serving n) (hslave : p.slave.isr = ∅) : Settles p resumeOps :=
  ⟨ends_master, settles_end (h.quiet hslave)⟩

theorem settles_slave (h : p.Serving n) : Settles p (.outb 0xa0 0x20 :: resumeOps) :=
  ⟨ends_slave, settles_master h.outb_slave.1 h.outb_slave.2⟩

/-- The rest of `generate_timer`, and of the timer's stub. -/
theorem settles_resume (h : p.Serving 0) : Settles p resumeOps :=
  settles_master h (h.slave_empty (by decide))

theorem settles_idle (h : p.Serving 0) : Settles p idleOps := by
  have hquiet := h.quiet (h.slave_empty (by decide))
  exact ⟨ends_master, hquiet.serving 0, fun q hq => settles_resume hq⟩

/-- The keyboard's interrupt is ended twice. -/
theorem settles_keyboard (h : p.Serving 1) : Settles p (.outb 0x20 0x20 :: resumeOps) := by
  have hquiet := h.quiet (h.slave_empty (by decide))
  exact ⟨ends_master, settles_master (hquiet.serving 0) hquiet.slave⟩

/-- A line that is in service, and nothing else, is ended by the stub of its vector. -/
theorem settles_service (h : p.Serving n) :
    ∃ l, gate (32 + n) = some l ∧ Settles p (serviceOps (32 + n) 0 l) := by
  obtain ⟨n, hn⟩ := n
  by_cases hlow : n < 8
  · have hslave := h.slave_empty hlow
    obtain rfl | rfl | hn2 : n = 0 ∨ n = 1 ∨ 2 ≤ n := by omega
    · exact ⟨_, rfl, h, fun q hq => settles_resume hq⟩
    · exact ⟨_, rfl, settles_keyboard h⟩
    · have hops : ∃ l, gate (32 + n) = some l ∧ serviceOps (32 + n) 0 l = .cli :: resumeOps := by
        interval_cases n <;> exact ⟨_, rfl, rfl⟩
      obtain ⟨l, hl, hops⟩ := hops
      refine ⟨l, hl, ?_⟩
      show Settles p (serviceOps (32 + n) 0 l)
      rw [hops]
      exact settles_master h hslave
  · have hops : ∃ l, gate (32 + n) = some l ∧
        serviceOps (32 + n) 0 l = .cli :: .outb 0xa0 0x20 :: resumeOps := by
      interval_cases n <;> first | omega | exact ⟨_, rfl, rfl⟩
    obtain ⟨l, hl, hops⟩ := hops
    refine ⟨l, hl, ?_⟩
    show Settles p (serviceOps (32 + n) 0 l)
    rw [hops]
    exact settles_slave h

theorem serviceOps_syscall (rax : Word) : serviceOps 128 rax .irq128 = syscallHandler rax := by
  show syscallHandler rax ++ [] = _
  rw [List.append_nil]

/-- The system call has nothing to end, before or after it lets interrupts in. -/
theorem settles_syscall (h : p.Quiet) (rax : Word) : Settles p (serviceOps 128 rax .irq128) := by
  have hend : ∀ q : Pics, q.Quiet → Settles q [.outb 0x20 0x20] :=
    fun q hq => ⟨ends_master, hq.outb_master.symm ▸ hq⟩
  rw [serviceOps_syscall]
  unfold syscallHandler
  split_ifs
  · exact ⟨h, hend⟩
  · exact hend p h

/-- Nor has a page fault. -/
theorem settles_pageFault (h : p.Quiet) : Settles p (serviceOps 14 0 .isr14) :=
  settles_master (h.serving 0) h.slave

end Settles

/-! ## The invariant -/

/-- A handler that was interrupted goes on with nothing in service. A system call does not
    schedule. -/
structure Calm (a : Activation) : Prop where
  settles : ∀ p : Pics, p.Quiet → Settles p a.ops
  call : a.call = true → Op.schedule ∉ a.ops

/-- Interrupts are on when the last handler has returned. -/
def Outermost : Bool → List Activation → Prop
  | interrupts, [] => interrupts = true
  | _, a :: rest => Outermost a.iflag rest

/-- A process that waits goes on in its timer interrupt. -/
inductive Resumable : List Activation → Prop
  | intro {a : Activation} {rest : List Activation}
      (settles : ∀ p : Pics, p.Serving 0 → Settles p a.ops) (call : a.call = false)
      (outer : ∀ o ∈ rest, Calm o) (outermost : Outermost a.iflag rest) : Resumable (a :: rest)

/-- Nothing is in service, or the innermost handler will end it with interrupts off. -/
inductive Proceeds (p : Pics) (interrupts : Bool) : List Activation → Prop
  | quiet {flow : List Activation} (quiet : p.Quiet) (calm : ∀ a ∈ flow, Calm a) :
      Proceeds p interrupts flow
  | serving {a : Activation} {rest : List Activation} (off : interrupts = false)
      (settles : Settles p a.ops) (call : a.call = false) (outer : ∀ o ∈ rest, Calm o) :
      Proceeds p interrupts (a :: rest)

/-- The machine after `start` has let interrupts in. -/
structure Running (b : Board) : Prop where
  ready : b.pics.Ready 0x20 0x28
  proceeds : Proceeds b.pics b.interrupts b.flow
  outermost : Outermost b.interrupts b.flow
  shadow : b.flow = [] → b.shadow = false
  waiting : ∀ f ∈ b.waiting, Resumable f

/-- The ports that `start` writes. -/
def startPorts : List Op := timerPhase (1193180 / 2) ++ initIdtPorts

def write (p : Pics) : Op → Pics
  | .outb port v => p.outb port v
  | _ => p

/-- `start` has written `done`; `ops` are left. -/
structure Booting (b : Board) (written ops : List Op) : Prop where
  ports : startPorts = written ++ ops
  flow : b.flow = [⟨ops ++ [.sti], true, false⟩]
  off : b.interrupts = false
  pics : ∃ p : Pics, SameBut (written.foldl write p) b.pics
  waiting : ∀ f ∈ b.waiting, Resumable f

/-- A fault has stopped the machine. -/
structure Halted (b : Board) : Prop where
  off : b.interrupts = false
  flow : ∃ (a : Activation) (rest : List Activation) (ops : List Op), b.flow = a :: rest ∧
    a.call = false ∧ (a.ops = .cli :: .halt :: ops ∨ a.ops = .halt :: ops)

inductive Alive (b : Board) : Prop
  | booting {written ops : List Op} (h : Booting b written ops)
  | running (h : Running b)

/-! ## One step -/

section Step

variable {b b' : Board} {a : Activation} {rest : List Activation} {op : Op} {ops : List Op}
  {written : List Op} {p : Pics} {interrupts : Bool} {flow : List Activation}

theorem Proceeds.quiet_of_on (h : Proceeds p true flow) : p.Quiet ∧ ∀ a ∈ flow, Calm a := by
  cases h with
  | quiet hquiet hcalm => exact ⟨hquiet, hcalm⟩
  | serving hoff => simp at hoff

theorem Proceeds.congr (h : Proceeds p interrupts flow) {q : Pics} (hpq : SameBut p q) :
    Proceeds q interrupts flow := by
  cases h with
  | quiet hquiet hcalm => exact .quiet (hpq.quiet hquiet) hcalm
  | serving hoff hsettles hcall houter => exact .serving hoff (hsettles.congr hpq) hcall houter

/-- The next instruction of a calm handler. -/
theorem Calm.next (h : Calm a) (hops : a.ops = op :: ops)
    (hnext : ∀ p : Pics, p.Quiet → Settles p (op :: ops) → Settles p ops) :
    Calm { a with ops := ops } where
  settles q hq := hnext q hq (hops ▸ h.settles q hq)
  call hc hmem := h.call hc (hops ▸ List.mem_cons_of_mem op hmem)

theorem calm_next (h : ∀ o ∈ a :: rest, Calm o) (hops : a.ops = op :: ops)
    (hnext : ∀ p : Pics, p.Quiet → Settles p (op :: ops) → Settles p ops) :
    ∀ o ∈ ({ a with ops := ops } : Activation) :: rest, Calm o := by
  intro o ho
  obtain rfl | ho := List.mem_cons.mp ho
  · exact (h a List.mem_cons_self).next hops hnext
  · exact h o (List.mem_cons_of_mem a ho)

theorem Running.go (h : Running b) (hflow : b.flow = a :: rest) (hgo : b.go a rest = some b') :
    Running b' := by
  obtain ⟨hready, hproceeds, houtermost, hshadow, hwaiting⟩ := h
  rw [hflow] at hproceeds houtermost
  unfold Board.go at hgo
  cases hops : a.ops with
  | nil =>
    simp only [hops, Option.some.injEq] at hgo
    subst hgo
    refine ⟨hready, ?_, houtermost, fun _ => rfl, hwaiting⟩
    cases hproceeds with
    | quiet hquiet hcalm => exact .quiet hquiet fun o ho => hcalm o (List.mem_cons_of_mem a ho)
    | serving hoff hsettles hcall houter =>
      rw [hops] at hsettles
      exact .quiet hsettles houter
  | cons op ops =>
    cases op with
    | cli =>
      simp only [hops, Option.some.injEq] at hgo
      subst hgo
      refine ⟨hready, ?_, houtermost, by simp, hwaiting⟩
      cases hproceeds with
      | quiet hquiet hcalm => exact .quiet hquiet (calm_next hcalm hops fun _ _ hs => hs)
      | serving hoff hsettles hcall houter =>
        rw [hops] at hsettles
        exact .serving rfl hsettles hcall houter
    | sti =>
      simp only [hops, Option.some.injEq] at hgo
      subst hgo
      refine ⟨hready, ?_, houtermost, by simp, hwaiting⟩
      cases hproceeds with
      | quiet hquiet hcalm =>
        exact .quiet hquiet (calm_next hcalm hops fun q hq hs => hs.2 q hq)
      | serving hoff hsettles hcall houter =>
        rw [hops] at hsettles
        refine .quiet hsettles.1 fun o ho => ?_
        obtain rfl | ho := List.mem_cons.mp ho
        · exact ⟨hsettles.2, fun hc => by simp [hcall] at hc⟩
        · exact houter o ho
    | outb port v =>
      simp only [hops, Option.some.injEq] at hgo
      subst hgo
      cases hproceeds with
      | quiet hquiet hcalm =>
        have hends : Ends port v := by
          have hs := (hcalm a List.mem_cons_self).settles b.pics hquiet
          rw [hops] at hs
          exact hs.1
        rw [hends.quiet hquiet]
        refine ⟨hready, .quiet hquiet (calm_next hcalm hops fun q hq hs => ?_), houtermost,
          by simp, hwaiting⟩
        have := hs.2
        rwa [hends.quiet hq] at this
      | serving hoff hsettles hcall houter =>
        rw [hops] at hsettles
        exact ⟨hsettles.1.ready hready, .serving hoff hsettles.2 hcall houter, houtermost,
          by simp, hwaiting⟩
    | schedule =>
      simp only [hops, Option.some.injEq] at hgo
      subst hgo
      refine ⟨hready, ?_, houtermost, by simp, hwaiting⟩
      cases hproceeds with
      | quiet hquiet hcalm =>
        exact .quiet hquiet (calm_next hcalm hops fun q hq hs => hs.2 q (hq.serving 0))
      | serving hoff hsettles hcall houter =>
        rw [hops] at hsettles
        exact .serving hoff (hsettles.2 _ hsettles.1) hcall houter
    | halt =>
      simp only [hops, reduceCtorEq] at hgo

/-- A process that waits goes on, and the one that ran waits. -/
theorem Running.switch (h : Running b) {iflag call : Bool} {i : Nat}
    (hflow : b.flow = ⟨.schedule :: ops, iflag, call⟩ :: rest) (hi : b.waiting[i]? = some flow) :
    Running { b with
      shadow := false
      flow := flow
      waiting := b.waiting.eraseIdx i ++ [⟨ops, iflag, call⟩ :: rest] } := by
  obtain ⟨hready, hproceeds, houtermost, -, hwaiting⟩ := h
  rw [hflow] at hproceeds houtermost
  obtain ⟨hsettles', hcall', houter', houtermost'⟩ := hwaiting flow (List.mem_of_getElem? hi)
  refine ⟨hready, ?_, houtermost', by simp, fun f hf => ?_⟩
  · cases hproceeds with
    | quiet hquiet hcalm =>
      refine .quiet hquiet fun o ho => ?_
      obtain rfl | ho := List.mem_cons.mp ho
      · exact ⟨fun q hq => hsettles' q (hq.serving 0), fun hc => by simp [hcall'] at hc⟩
      · exact houter' o ho
    | serving hoff hsettles hcall houter =>
      exact .serving hoff (hsettles' _ hsettles.1) hcall' houter'
  · obtain hf | hf := List.mem_append.mp hf
    · exact hwaiting f (List.mem_of_mem_eraseIdx hf)
    · obtain rfl := List.mem_singleton.mp hf
      cases hproceeds with
      | quiet hquiet hcalm =>
        have hown := hcalm _ List.mem_cons_self
        have hs := hown.settles _ hquiet
        refine .intro hs.2 ?_ (fun o ho => hcalm o (List.mem_cons_of_mem _ ho)) houtermost
        cases hcall : call with
        | false => rfl
        | true => exact absurd List.mem_cons_self (hown.call hcall)
      | serving hoff hsettles hcall houter =>
        exact .intro hsettles.2 hcall houter houtermost

theorem resumable_spawn (idle : Bool) :
    Resumable [⟨if idle then idleOps else resumeOps, true, false⟩] := by
  refine .intro (fun p hp => ?_) rfl (by simp) rfl
  cases idle with
  | true => exact settles_idle hp
  | false => exact settles_resume hp

theorem rank_injective {n m : Fin 16} (hn : n ≠ 2) (hm : m ≠ 2) (h : rank n = rank m) : n = m := by
  revert n m
  decide

theorem vector_toNat (n : Fin 16) : (vector 0x20 0x28 n).toNat = 32 + n := by
  revert n
  decide

/-- Interrupts are on, and a line is acknowledged: its stub is entered. -/
theorem acknowledge_step (hopen : b.Open) {n : Fin 16} {v : BitVec 8} {q : Pics}
    (hack : b.pics.ack = some (v, q)) (hn : Acknowledged b.pics 0x20 0x28 n v q) :
    ∃ l, gate (32 + n) = some l ∧
      b.step .acknowledge = some { b with
        pics := q, interrupts := false, shadow := false
        flow := ⟨serviceOps (32 + n) 0 l, true, false⟩ :: b.flow } ∧
      Settles q (serviceOps (32 + n) 0 l) := by
  obtain ⟨l, hl, hsettles⟩ := settles_service hn.serving
  refine ⟨l, hl, ?_, hsettles⟩
  have hne : ¬ 32 + n.val = 128 := by omega
  simp only [Board.step, if_pos hopen, hack, Board.enter, hn.vector_eq, vector_toNat, hl,
    Option.map_some, hopen.1, hne, decide_false]

/-- What the processor enters with nothing in service. -/
theorem Running.enter (h : Running b) (hquiet : b.pics.Quiet) (hcalm : ∀ o ∈ b.flow, Calm o)
    (ha : Calm a) (hiflag : a.iflag = b.interrupts) :
    Running { b with interrupts := false, shadow := false, flow := a :: b.flow } := by
  refine ⟨h.ready, .quiet hquiet fun o ho => ?_, ?_, by simp, h.waiting⟩
  · obtain rfl | ho := List.mem_cons.mp ho
    · exact ha
    · exact hcalm o ho
  · show Outermost a.iflag b.flow
    rw [hiflag]
    exact h.outermost

/-- While a process or its system call runs, nothing is in service. -/
theorem Running.user (h : Running b) (huser : Board.userCode b.flow = true) :
    b.pics.Quiet ∧ ∀ o ∈ b.flow, Calm o := by
  have hproceeds := h.proceeds
  have houtermost := h.outermost
  cases hflow : b.flow with
  | nil =>
    rw [hflow] at hproceeds houtermost
    have hon : b.interrupts = true := houtermost
    rw [hon] at hproceeds
    exact hproceeds.quiet_of_on
  | cons a rest =>
    rw [hflow] at hproceeds huser
    cases hproceeds with
    | quiet hquiet hcalm => exact ⟨hquiet, hcalm⟩
    | serving hoff hsettles hcall houter =>
      have hcall' : a.call = true := huser
      simp [hcall] at hcall'

theorem Running.syscall (h : Running b) {rax : Word} (hflow : b.flow = [])
    (hstep : b.enter 128 rax = some b') : Running b' := by
  obtain ⟨hquiet, hcalm⟩ := h.user (by rw [hflow]; rfl)
  obtain rfl := (Option.some.inj hstep).symm
  refine h.enter hquiet hcalm ⟨fun p hp => settles_syscall hp rax, fun _ hmem => ?_⟩ rfl
  change Op.schedule ∈ serviceOps 128 rax .irq128 at hmem
  rw [serviceOps_syscall] at hmem
  unfold syscallHandler at hmem
  split_ifs at hmem <;> simp [getstringOps] at hmem

theorem Running.pageFault (h : Running b) (huser : Board.userCode b.flow = true)
    (hstep : b.enter 14 0 = some b') : Running b' := by
  obtain ⟨hquiet, hcalm⟩ := h.user huser
  obtain rfl := (Option.some.inj hstep).symm
  refine h.enter hquiet hcalm ⟨fun p hp => settles_pageFault hp, fun hc => ?_⟩ rfl
  simp at hc

/-- The handler of a fault does not come back. -/
theorem halted_fault {v : Nat} (hv : v < 32) (hne : v ≠ 14) (hstep : b.enter v 0 = some b') :
    Halted b' := by
  have hops : ∃ l, gate v = some l ∧ serviceOps v 0 l = [.cli, .halt, .sti] := by
    interval_cases v <;> first | omega | exact ⟨_, rfl, rfl⟩
  obtain ⟨l, hl, hops⟩ := hops
  unfold Board.enter at hstep
  rw [hl, Option.map_some, Option.some.injEq] at hstep
  subst hstep
  exact ⟨rfl, _, _, _, rfl, decide_eq_false (by omega), Or.inl hops⟩

theorem Running.step (h : Running b) {e : BoardEvent} (hstep : Board.Step b e b') :
    Running b' ∨ Halted b' ∧ ∃ v, e = .fault v := by
  unfold Board.Step at hstep
  cases e with
  | raise n =>
    obtain rfl := Option.some.inj hstep
    have hbut := sameBut_raise b.pics n
    exact Or.inl ⟨hbut.ready h.ready, h.proceeds.congr hbut, h.outermost, h.shadow, h.waiting⟩
  | acknowledge =>
    left
    by_cases hopen : b.Open
    · have hproceeds := h.proceeds
      rw [hopen.1] at hproceeds
      obtain ⟨hquiet, hcalm⟩ := hproceeds.quiet_of_on
      obtain ⟨hack, -⟩ | ⟨n, v, q, hack, hn⟩ := h.ready.ack hquiet
      · simp [Board.step, hopen, hack] at hstep
      · obtain ⟨l, hl, hstep', hsettles⟩ := acknowledge_step hopen hack hn
        obtain rfl := Option.some.inj (hstep'.symm.trans hstep)
        refine ⟨hn.ready, .serving rfl hsettles rfl hcalm, ?_, by simp, h.waiting⟩
        have houtermost := h.outermost
        rwa [hopen.1] at houtermost
    · simp [Board.step, hopen] at hstep
  | go =>
    left
    cases hflow : b.flow with
    | nil => simp [Board.step, hflow] at hstep
    | cons a rest =>
      simp only [Board.step, hflow] at hstep
      exact h.go hflow hstep
  | switch i =>
    left
    simp only [Board.step] at hstep
    split at hstep
    · rename_i ops iflag call rest flow hflow hi
      obtain rfl := Option.some.inj hstep
      exact h.switch hflow hi
    · simp at hstep
  | syscall rax =>
    left
    simp only [Board.step] at hstep
    split_ifs at hstep with hflow
    exact h.syscall hflow hstep
  | pageFault =>
    left
    simp only [Board.step] at hstep
    split_ifs at hstep with huser
    exact h.pageFault huser hstep
  | fault v =>
    right
    simp only [Board.step] at hstep
    split_ifs at hstep with hv
    exact ⟨halted_fault hv.1 hv.2 hstep, v, rfl⟩
  | spawn idle =>
    obtain rfl := Option.some.inj hstep
    refine Or.inl ⟨h.ready, h.proceeds, h.outermost, h.shadow, fun f hf => ?_⟩
    obtain hf | hf := List.mem_append.mp hf
    · exact h.waiting f hf
    · obtain rfl := List.mem_singleton.mp hf
      exact resumable_spawn idle

/-- The ports of `start` remap the controllers, in whatever state they were. -/
theorem remapped (p : Pics) :
    (startPorts.foldl write p).Ready 0x20 0x28 ∧ (startPorts.foldl write p).Quiet := by
  have hmask : (Finset.univ.filter fun n : Line => (0x0 : BitVec 8).getLsbD n = true) = ∅ := by
    decide
  exact ⟨⟨rfl, rfl, hmask, hmask, rfl, rfl, rfl, rfl, rfl, rfl⟩, ⟨rfl, rfl⟩⟩

theorem startPorts_outb : ∀ op ∈ startPorts, ∃ port v, op = .outb port v := by
  intro op hop
  simp only [startPorts, timerPhase, initIdtPorts, List.cons_append, List.nil_append,
    List.mem_cons, List.not_mem_nil, or_false] at hop
  obtain rfl | rfl | rfl | rfl | rfl | rfl | rfl | rfl | rfl | rfl | rfl | rfl | rfl := hop <;>
    exact ⟨_, _, rfl⟩

theorem Booting.go (h : Booting b written ops) (hstep : b.step .go = some b') :
    match ops with
    | [] => Running b'
    | op :: ops => Booting b' (written ++ [op]) ops := by
  obtain ⟨hports, hflow, hoff, ⟨p, hpics⟩, hwaiting⟩ := h
  cases ops with
  | nil =>
    simp only [Board.step, hflow, Board.go, List.nil_append, Option.some.injEq] at hstep
    subst hstep
    rw [List.append_nil] at hports
    obtain ⟨hready, hquiet⟩ := remapped p
    rw [hports] at hready hquiet
    refine ⟨hpics.ready hready, .quiet (hpics.quiet hquiet) ?_, rfl, by simp, hwaiting⟩
    intro o ho
    obtain rfl := List.mem_singleton.mp ho
    exact ⟨fun q hq => hq, fun hc => by simp at hc⟩
  | cons op ops =>
    obtain ⟨port, v, rfl⟩ := startPorts_outb op (by rw [hports]; simp)
    simp only [Board.step, hflow, Board.go, List.cons_append, Option.some.injEq] at hstep
    subst hstep
    refine ⟨by rw [hports]; simp, rfl, hoff, ⟨p, ?_⟩, hwaiting⟩
    rw [List.foldl_append]
    exact hpics.outb port v

theorem Booting.step (h : Booting b written ops) {e : BoardEvent} (hstep : Board.Step b e b') :
    Alive b' ∨ Halted b' ∧ ∃ v, e = .fault v := by
  unfold Board.Step at hstep
  cases e with
  | raise n =>
    obtain rfl := Option.some.inj hstep
    obtain ⟨p, hp⟩ := h.pics
    exact Or.inl (.booting ⟨h.ports, h.flow, h.off, ⟨p, hp.trans (sameBut_raise _ n)⟩, h.waiting⟩)
  | acknowledge => simp [Board.step, Board.Open, h.off] at hstep
  | go =>
    left
    have hgo := h.go hstep
    cases ops with
    | nil => exact .running hgo
    | cons op ops => exact .booting hgo
  | switch i =>
    simp only [Board.step, h.flow] at hstep
    cases ops with
    | nil => simp at hstep
    | cons op ops =>
      obtain ⟨port, v, rfl⟩ := startPorts_outb op (by rw [h.ports]; simp)
      simp at hstep
  | syscall rax => simp [Board.step, h.flow] at hstep
  | pageFault => simp [Board.step, h.flow, Board.userCode] at hstep
  | fault v =>
    right
    simp only [Board.step] at hstep
    split_ifs at hstep with hv
    exact ⟨halted_fault hv.1 hv.2 hstep, v, rfl⟩
  | spawn idle =>
    obtain rfl := Option.some.inj hstep
    refine Or.inl (.booting ⟨h.ports, h.flow, h.off, h.pics, fun f hf => ?_⟩)
    obtain hf | hf := List.mem_append.mp hf
    · exact h.waiting f hf
    · obtain rfl := List.mem_singleton.mp hf
      exact resumable_spawn idle

theorem Halted.step (h : Halted b) {e : BoardEvent} (hstep : Board.Step b e b') : Halted b' := by
  obtain ⟨hoff, a, rest, ops, hflow, hcall, hops⟩ := h
  unfold Board.Step at hstep
  cases e with
  | raise n =>
    obtain rfl := Option.some.inj hstep
    exact ⟨hoff, a, rest, ops, hflow, hcall, hops⟩
  | acknowledge => simp [Board.step, Board.Open, hoff] at hstep
  | go =>
    obtain hops | hops := hops
    · simp only [Board.step, hflow, Board.go, hops, Option.some.injEq] at hstep
      subst hstep
      exact ⟨rfl, _, rest, ops, rfl, hcall, Or.inr rfl⟩
    · simp [Board.step, hflow, Board.go, hops] at hstep
  | switch i =>
    obtain ⟨aops, iflag, call⟩ := a
    obtain rfl | rfl := hops <;> simp [Board.step, hflow] at hstep
  | syscall rax => simp [Board.step, hflow] at hstep
  | pageFault => simp [Board.step, hflow, Board.userCode, hcall] at hstep
  | fault v =>
    simp only [Board.step] at hstep
    split_ifs at hstep with hv
    exact halted_fault hv.1 hv.2 hstep
  | spawn idle =>
    obtain rfl := Option.some.inj hstep
    exact ⟨hoff, a, rest, ops, hflow, hcall, hops⟩

end Step

/-! ## Runs -/

section Runs

variable {b b' : Board} {es : List BoardEvent} {a : Activation} {rest : List Activation}

theorem Alive.step (h : Alive b) {e : BoardEvent} (hstep : Board.Step b e b') :
    Alive b' ∨ Halted b' ∧ ∃ v, e = .fault v := by
  cases h with
  | booting h => exact h.step hstep
  | running h => exact (h.step hstep).imp_left .running

theorem booting_boot (p : Pics) : Booting (Board.boot p) [] startPorts :=
  ⟨rfl, rfl, rfl, ⟨p, .refl p⟩, by simp [Board.boot]⟩

theorem alive_boot (p : Pics) : Alive (Board.boot p) := .booting (booting_boot p)

theorem Halted.run (hrun : Run Board.Step b es b') (h : Halted b) : Halted b' :=
  hrun.invariant (fun _ _ _ h hstep => h.step hstep) h

/-- Only a fault stops the machine. -/
theorem Alive.run (hrun : Run Board.Step b es b') (h : Alive b) :
    Alive b' ∨ Halted b' ∧ ∃ v, .fault v ∈ es := by
  induction hrun with
  | nil b => exact Or.inl h
  | cons hstep hrun ih =>
    obtain h | ⟨h, v, rfl⟩ := h.step hstep
    · obtain h | ⟨h, v, hv⟩ := ih h
      · exact Or.inl h
      · exact Or.inr ⟨h, v, List.mem_cons_of_mem _ hv⟩
    · exact Or.inr ⟨h.run hrun, v, List.mem_cons_self⟩

/-! ## Handlers come to an end -/

/-- The handlers go on until none is left, and nothing else happens. -/
structure Finishes (b b' : Board) : Prop where
  run : ∃ n, Run Board.Step b (List.replicate n .go) b'
  waiting : b'.waiting = b.waiting

theorem Finishes.refl (b : Board) : Finishes b b := ⟨⟨0, .nil b⟩, rfl⟩

theorem Finishes.cons {b₁ : Board} (hstep : b.step .go = some b₁) (hwaiting : b₁.waiting = b.waiting)
    (h : Finishes b₁ b') : Finishes b b' := by
  obtain ⟨⟨n, hrun⟩, hwaiting'⟩ := h
  exact ⟨⟨n + 1, .cons hstep hrun⟩, hwaiting'.trans hwaiting⟩

theorem Finishes.trans {b₁ : Board} (h : Finishes b b₁) (h' : Finishes b₁ b') :
    Finishes b b' := by
  obtain ⟨⟨n, hrun⟩, hwaiting⟩ := h
  obtain ⟨⟨m, hrun'⟩, hwaiting'⟩ := h'
  refine ⟨⟨n + m, ?_⟩, hwaiting'.trans hwaiting⟩
  rw [List.replicate_add]
  exact hrun.append hrun'

/-- `start` comes to its end. -/
theorem Booting.finishes {written ops : List Op} (h : Booting b written ops) :
    ∃ b', Finishes b b' ∧ Running b' := by
  induction ops generalizing b written with
  | nil =>
    have hstep : b.step .go = some { b with
        interrupts := true, shadow := !b.interrupts, flow := [⟨[], true, false⟩] } := by
      simp [Board.step, h.flow, Board.go]
    exact ⟨_, .cons hstep rfl (.refl _), h.go hstep⟩
  | cons op ops ih =>
    obtain ⟨port, v, rfl⟩ := startPorts_outb op (by rw [h.ports]; simp)
    have hstep : b.step .go = some { b with
        pics := b.pics.outb port v, shadow := false, flow := [⟨ops ++ [.sti], true, false⟩] } := by
      simp [Board.step, h.flow, Board.go]
    obtain ⟨b', hfinishes, hrunning⟩ := ih (h.go hstep)
    exact ⟨b', .cons hstep rfl hfinishes, hrunning⟩

theorem Running.settles (h : Running b) (hflow : b.flow = a :: rest) : Settles b.pics a.ops := by
  have hproceeds := h.proceeds
  rw [hflow] at hproceeds
  cases hproceeds with
  | quiet hquiet hcalm => exact (hcalm a List.mem_cons_self).settles _ hquiet
  | serving hoff hsettles hcall houter => exact hsettles

/-- The instructions that are left, the `iretq`s too. -/
def left (flow : List Activation) : Nat := (flow.map fun a => a.ops.length + 1).sum

/-- A handler always goes on. -/
theorem Running.go_next (h : Running b) (hflow : b.flow = a :: rest) :
    ∃ b', b.step .go = some b' ∧ b'.waiting = b.waiting ∧ left b'.flow < left b.flow ∧
      ∀ n, b'.pics.Pending n ↔ b.pics.Pending n := by
  have hsettles := h.settles hflow
  have hstep : b.step .go = b.go a rest := by simp only [Board.step, hflow]
  rw [hstep, hflow]
  unfold Board.go left
  cases hops : a.ops with
  | nil => exact ⟨_, rfl, rfl, by simp [hops], fun _ => Iff.rfl⟩
  | cons op ops =>
    rw [hops] at hsettles
    cases op with
    | cli => exact ⟨_, rfl, rfl, by simp [hops], fun _ => Iff.rfl⟩
    | sti => exact ⟨_, rfl, rfl, by simp [hops], fun _ => Iff.rfl⟩
    | outb port v => exact ⟨_, rfl, rfl, by simp [hops], fun _ => hsettles.1.pending⟩
    | schedule => exact ⟨_, rfl, rfl, by simp [hops], fun _ => Iff.rfl⟩
    | halt => exact hsettles.elim

theorem Running.go_step (h : Running b) (hstep : b.step .go = some b') : Running b' := by
  obtain h | ⟨-, v, hv⟩ := h.step (e := .go) hstep
  · exact h
  · simp at hv

/-- All handlers come to their end. -/
theorem Running.finishes (h : Running b) :
    ∃ b', Finishes b b' ∧ Running b' ∧ b'.flow = [] ∧
      ∀ n, b'.pics.Pending n ↔ b.pics.Pending n := by
  induction hm : left b.flow using Nat.strong_induction_on generalizing b with
  | h m ih =>
    cases hflow : b.flow with
    | nil => exact ⟨b, .refl b, h, hflow, fun _ => Iff.rfl⟩
    | cons a rest =>
      obtain ⟨b₁, hstep, hwaiting, hleft, hpending⟩ := h.go_next hflow
      obtain ⟨b', hfinishes, hrunning, hflow', hpending'⟩ :=
        ih _ (hm ▸ hleft) (h.go_step hstep) rfl
      exact ⟨b', .cons hstep hwaiting hfinishes, hrunning, hflow',
        fun n => (hpending' n).trans (hpending n)⟩

theorem Running.open (h : Running b) (hflow : b.flow = []) : b.Open := by
  have houtermost := h.outermost
  rw [hflow] at houtermost
  exact ⟨houtermost, h.shadow hflow⟩

/-! ## Everything is served -/

/-- The processor acknowledges and the handlers go on; nothing else happens. -/
structure Serves (b b' : Board) : Prop where
  run : ∃ es, Run Board.Step b es b' ∧ ∀ e ∈ es, e = .acknowledge ∨ e = .go
  waiting : b'.waiting = b.waiting

theorem Finishes.serves (h : Finishes b b') : Serves b b' := by
  obtain ⟨⟨n, hrun⟩, hwaiting⟩ := h
  exact ⟨⟨_, hrun, fun e he => Or.inr (List.eq_of_mem_replicate he)⟩, hwaiting⟩

theorem Serves.trans {b₁ : Board} (h : Serves b b₁) (h' : Serves b₁ b') : Serves b b' := by
  obtain ⟨⟨es, hrun, hes⟩, hwaiting⟩ := h
  obtain ⟨⟨es', hrun', hes'⟩, hwaiting'⟩ := h'
  refine ⟨⟨_, hrun.append hrun', fun e he => ?_⟩, hwaiting'.trans hwaiting⟩
  obtain he | he := List.mem_append.mp he
  · exact hes e he
  · exact hes' e he

theorem serves_acknowledge (hstep : b.step .acknowledge = some b')
    (hwaiting : b'.waiting = b.waiting) : Serves b b' :=
  ⟨⟨_, .single hstep, fun _ he => Or.inl (List.mem_singleton.mp he)⟩, hwaiting⟩

/-- Each handler takes one request away, until there is none. -/
theorem Running.serves (h : Running b) (hflow : b.flow = []) :
    ∃ b', Serves b b' ∧ b'.flow = [] ∧ b'.Open ∧ ∀ n, ¬ b'.pics.Pending n := by
  induction hk : {n | b.pics.Pending n}.ncard using Nat.strong_induction_on generalizing b with
  | h k ih =>
    have hopen := h.open hflow
    obtain ⟨hquiet, -⟩ := h.user (by rw [hflow]; rfl)
    obtain ⟨-, hnone⟩ | ⟨n, v, q, hack, hn⟩ := h.ready.ack hquiet
    · exact ⟨b, (Finishes.refl b).serves, hflow, hopen, hnone⟩
    obtain ⟨l, -, hstep, -⟩ := acknowledge_step hopen hack hn
    obtain h₁ | ⟨-, v', hv'⟩ := h.step (e := .acknowledge) hstep
    · obtain ⟨b₂, hfinishes, h₂, hflow₂, hpending⟩ := h₁.finishes
      have hless : {m | b₂.pics.Pending m}.ncard < k := by
        rw [← hk]
        refine Set.ncard_lt_ncard ⟨fun m hm => ?_, fun hsub => ?_⟩ (Set.toFinite _)
        · exact ((hn.others m).mp ((hpending m).mp hm)).1
        · exact ((hn.others n).mp ((hpending n).mp (hsub hn.pending))).2 rfl
      obtain ⟨b', hserves, hrest⟩ := ih _ hless h₂ hflow₂ rfl
      exact ⟨b', ((serves_acknowledge hstep rfl).trans hfinishes.serves).trans hserves, hrest⟩
    · simp at hv'

/-- A controller that nothing has programmed. -/
def unset : Chip := ⟨∅, ∅, ∅, 0, 0, .mask, false, false, false⟩

end Runs

end SBUnix.Interrupt
