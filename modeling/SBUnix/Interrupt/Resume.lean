import SBUnix.Interrupt.Balance
import SBUnix.Interrupt.Timer

/-
  What one timer interrupt does to the stacks.

  The interrupt puts 22 words on the stack of the code it stops: the processor's frame, the 15
  registers, the return address and the saved register (`Waits`). A process that waits looks the
  same whether it was stopped like this or has never run. Once `generate_timer` has changed the
  stack pointer to that of a process that waits, the rest of the stub loads its context
  (`timer_resumes`). The idle process has never run when it waits behind the call instruction
  itself, so its first start goes through `generate_timer` twice (`timer_starts`).
-/

namespace SBUnix.Interrupt

open Stack

/-- What follows the call in `irq0`. -/
def afterCall : List Instr := restored.map .popq ++ [.sti, .iretq]

theorem returnAddress_afterCall (irq0 : Word) : returnAddress irq0 afterCall = 0x20 + irq0 := rfl

/-- The words that the rest of the stub pops. -/
def Context.words (x : Context) : List Word := restored.map x.regs ++ x.frame.words

theorem Context.length_words (x : Context) : x.words.length = 20 := rfl

/-- Context `x` waits at word `j` of the stack at `q`, to go on at `irq0 + off`. -/
def Waits (irq0 off : Word) (mem : Word → Word) (q : Word) (j : Nat) (x : Context) : Prop :=
  ∃ saved, Stack.Frame mem (slot q j) (slot q (j + 22)) (saved :: (off + irq0) :: x.words)

section Resume

variable {c : Compiled} {s s' : Sched} {m : Machine} {x : Context} {top : Word} {fuel : Nat}
  {ws : List Word}

theorem Waits.congr {irq0 off q : Word} {j : Nat} {mem mem' : Word → Word}
    (h : Waits irq0 off mem q j x)
    (hmem : ∀ l, j ≤ l → l < j + 22 → mem' (slot q l) = mem (slot q l)) :
    Waits irq0 off mem' q j x := by
  obtain ⟨w, hframe⟩ := h
  refine ⟨w, hframe.congr fun i hi => ?_⟩
  rw [List.length_cons, List.length_cons, x.length_words] at hi
  rw [slot_slot]
  exact hmem _ (by omega) (by omega)

/-! ## The stub -/

theorem runIrq0_pushqs (rs : List Reg) (rest : List Instr) :
    runIrq0 c (rs.length + fuel) (rs.map .pushq ++ rest) s m =
      runIrq0 c fuel rest s { m with toState := m.pushAll rs } := by
  induction rs generalizing m with
  | nil =>
    rw [List.length_nil, Nat.zero_add]
    rfl
  | cons r rs ih =>
    rw [List.length_cons, Nat.add_right_comm, List.map_cons, List.cons_append, runIrq0]
    · exact ih
    all_goals simp

theorem runIrq0_popqs (rs : List Reg) (rest : List Instr) :
    runIrq0 c (rs.length + fuel) (rs.map .popq ++ rest) s m =
      runIrq0 c fuel rest s { m with toState := m.popAll rs } := by
  induction rs generalizing m with
  | nil =>
    rw [List.length_nil, Nat.zero_add]
    rfl
  | cons r rs ih =>
    rw [List.length_cons, Nat.add_right_comm, List.map_cons, List.cons_append, runIrq0]
    · exact ih
    all_goals simp

/-- Behind the call, the stub loads the context that the stack holds. -/
theorem runIrq0_afterCall (fuel : Nat) (h : m.Holds top x.words) :
    ∃ m', runIrq0 c (17 + fuel) afterCall s m = .ok (s, m') ∧ iretq m' = x ∧ m'.mem = m.mem := by
  obtain ⟨hholds, hregs⟩ := State.Holds.popAll restored x.regs h
  refine ⟨step .sti { m with toState := m.popAll restored }, ?_, ?_, m.popAll_mem restored⟩
  · unfold afterCall
    rw [show 17 + fuel = restored.length + (fuel + 2) by
      show 17 + fuel = 15 + (fuel + 2)
      omega, runIrq0_popqs]
    rfl
  · have hslot : ∀ i, (hi : i < 5) → (m.popAll restored).mem (slot (m.popAll restored).rsp i) =
        x.frame.words.get ⟨i, hi⟩ := fun i hi => hholds.mem_slot i hi
    refine Context.ext ?_ (hslot 0 (by omega)) (hslot 1 (by omega)) (hslot 2 (by omega))
      (hslot 3 (by omega)) (hslot 4 (by omega))
    funext r
    show (m.popAll restored).regs r = x.regs r
    rw [hregs, if_pos (mem_restored r)]

/-- Up to the call, the stub pushes the registers on top of the processor's frame. -/
theorem runIrq0_entry (h : m.Holds top x.frame.words) (hregs : m.regs = x.regs) :
    ∃ m' : Machine, runIrq0 c stubFuel (text .irq0) s m =
        runIrq0 c 47 (.callq .generateTimer :: afterCall) s m' ∧
      m'.Holds top x.words ∧ m'.rsp = m.rsp - BitVec.ofNat 64 (8 * 15) ∧
      KeptBut m.rsp 15 m.mem m'.mem := by
  obtain ⟨-, hsaved⟩ := h.pushAll saved (by
    show 15 + 5 < _
    omega)
  obtain ⟨hrsp, hkept⟩ := m.pushAll_kept saved
  refine ⟨step (.movqRsp .rdi) { step .cli m with toState := m.pushAll saved }, ?_, ?_, hrsp,
    hkept⟩
  · have hcli : runIrq0 c stubFuel (text .irq0) s m = runIrq0 c (saved.length + 48)
        (saved.map .pushq ++ .movqRsp .rdi :: .callq .generateTimer :: afterCall) s
        (step .cli m) := rfl
    rw [hcli, runIrq0_pushqs]
    rfl
  · rw [reverse_saved, hregs] at hsaved
    exact hsaved

/-- The call returns to where the stack says that the body leaves. -/
theorem callGenerateTimer_spec (h : m.Holds top ws) (hlen : ws.length < 2 ^ 60) (ret : Word)
    (hs : generateTimer { s with rsp := m.rsp - BitVec.ofNat 64 (8 * 2) } = .ok s') :
    ∃ pushed mem' w,
      Stack.Frame pushed (m.rsp - BitVec.ofNat 64 (8 * 2)) top (w :: ret :: ws) ∧
      KeptBut m.rsp 2 m.mem pushed ∧
      (∀ a, ¬ Below (m.rsp - BitVec.ofNat 64 (8 * 2)) c.depth a → ¬ Below s'.rsp c.depth a →
        mem' a = pushed a) ∧
      ∀ top' w' ret' ws', Stack.Frame mem' s'.rsp top' (w' :: ret' :: ws') →
        ∃ m', callGenerateTimer c ret s m = .ok (ret', s', m') ∧ m'.Holds top' ws' ∧
          m'.rsp = s'.rsp + 8 + 8 ∧ m'.mem = mem' := by
  obtain ⟨m₁, hm₁⟩ : ∃ m₁ : Machine, m₁ = { m with toState := m.push ret } := ⟨_, rfl⟩
  obtain ⟨m₂, hm₂⟩ : ∃ m₂ : Machine,
      m₂ = { m₁ with toState := m₁.push (m₁.regs c.calleeSaved) } := ⟨_, rfl⟩
  have hrsp : m₂.rsp = m.rsp - BitVec.ofNat 64 (8 * 2) := by
    rw [hm₂, hm₁]
    show m.rsp - 8 - 8 = _
    rw [BitVec.sub_sub]
    rfl
  have hholds : m₂.Holds top (m₁.regs c.calleeSaved :: ret :: ws) := by
    rw [hm₂]
    refine State.Holds.push ?_ _ (by rw [List.length_cons]; omega)
    rw [hm₁]
    exact h.push ret (by omega)
  have hkept : KeptBut m.rsp 2 m.mem m₂.mem := by
    have hfirst : KeptBut m.rsp 1 m.mem m₁.mem := by
      rw [hm₁]
      exact m.push_kept ret
    refine hfirst.trans (k := 1) ?_
    have hm₁rsp : m₁.rsp = m.rsp - BitVec.ofNat 64 (8 * 1) := by rw [hm₁]; rfl
    rw [← hm₁rsp, hm₂]
    exact m₁.push_kept _
  refine ⟨m₂.mem, c.mem s m₂ s'.rsp, m₁.regs c.calleeSaved, hrsp ▸ hholds, hkept, ?_, ?_⟩
  · intro a ha ha'
    exact c.kept s m₂ s'.rsp a (hrsp ▸ ha) ha'
  · intro top' w' ret' ws' hframe
    obtain ⟨hw, hret, hws⟩ := hframe
    refine ⟨⟨⟨fun r => if r = c.calleeSaved then c.mem s m₂ s'.rsp s'.rsp else c.regs s m₂ r,
      s'.rsp + 8 + 8, c.mem s m₂ s'.rsp⟩, m.interrupts⟩, ?_, hws, rfl, rfl⟩
    have hcall : callGenerateTimer c ret s m =
        (generateTimer { s with rsp := m₂.rsp } >>= fun s' =>
          let m₃ : Machine := ⟨⟨c.regs s m₂, s'.rsp, c.mem s m₂ s'.rsp⟩, m.interrupts⟩
          let m₄ : Machine := { m₃ with toState := m₃.pop c.calleeSaved }
          .ok (m₄.mem m₄.rsp, s', { m₄ with rsp := m₄.rsp + 8 })) := by
      rw [hm₂, hm₁]
      rfl
    rw [hcall, hrsp, hs, ok_bind, ← hret]
    rfl

/-- A call from word `n` of the stack at `b`, at the end of which the stack pointer is where `x`
    waits. -/
theorem runIrq0_call (fuel : Nat) (off : Word) {b q : Word} {n j : Nat} (h : m.Holds top ws)
    (hlen : ws.length < 2 ^ 60) (hm : m.rsp = slot b n) (hn : 2 ≤ n) (hj : c.depth ≤ j)
    (hj' : j < 2 ^ 60)
    (hs : generateTimer { s with rsp := slot b (n - 2) } = .ok s') (hq : s'.rsp = slot q j)
    (hwaits : ∀ pushed w, KeptBut (slot b n) 2 m.mem pushed →
      Stack.Frame pushed (slot b (n - 2)) top (w :: (0x20 + s.irq0) :: ws) →
      Waits s.irq0 off pushed q j x)
    (hclear : ∀ l, j ≤ l → l < j + 22 → ¬ Below (slot b (n - 2)) c.depth (slot q l)) :
    ∃ m' : Machine, runIrq0 c (fuel + 1) (.callq .generateTimer :: afterCall) s m =
        (match codeAt (text .irq0) off.toNat with
        | some code => runIrq0 c fuel code s' m'
        | none => .error (.pageFault (off + s.irq0))) ∧
      m'.Holds (slot q (j + 22)) x.words ∧ m'.rsp = slot q (j + 2) ∧
      (∀ a, ¬ Below (slot b n) (2 + c.depth) a → ¬ Below (slot q j) c.depth a →
        m'.mem a = m.mem a) ∧
      ∃ pushed w, Stack.Frame pushed (slot b (n - 2)) top (w :: (0x20 + s.irq0) :: ws) ∧
        ∀ a, ¬ Below (slot b (n - 2)) c.depth a → ¬ Below (slot q j) c.depth a →
          m'.mem a = pushed a := by
  have hrsp : m.rsp - BitVec.ofNat 64 (8 * 2) = slot b (n - 2) := by rw [hm, slot_sub b hn]
  obtain ⟨pushed, mem', w, hframe, hkept, hbody, hret⟩ :=
    callGenerateTimer_spec (c := c) h hlen (0x20 + s.irq0) (hrsp ▸ hs)
  rw [hrsp] at hframe hbody
  rw [hm] at hkept
  have hwait : Waits s.irq0 off mem' q j x := by
    refine (hwaits pushed w hkept hframe).congr fun l hl hl' => ?_
    refine hbody _ (hclear l hl hl') ?_
    rw [hq]
    exact not_below_slot hj hl (by omega)
  obtain ⟨w', hwait⟩ := hwait
  obtain ⟨m', hcall, hholds, hrsp', hmem⟩ := hret _ w' (off + s.irq0) x.words (hq ▸ hwait)
  refine ⟨m', ?_, hholds, ?_, ?_, pushed, w, hframe, fun a ha ha' => ?_⟩
  · rw [runIrq0, returnAddress_afterCall, hcall, ok_bind]
    dsimp only
    generalize hback : off + s.irq0 - s.irq0 = back
    obtain rfl : back = off := hback.symm.trans (BitVec.add_sub_cancel off s.irq0)
    rfl
  · rw [hrsp', hq, BitVec.add_assoc]
    exact slot_slot q j 2
  · intro a ha ha'
    rw [hmem, hbody a _ (hq ▸ ha'), hkept a fun ⟨l, hl, hla⟩ => ha ⟨l, by omega, hla⟩]
    rintro ⟨l, hl, rfl⟩
    refine ha ⟨2 + l, by omega, ?_⟩
    rw [← slot_sub b hn, BitVec.sub_sub, ← BitVec.ofNat_add,
      show 8 * 2 + 8 * (l + 1) = 8 * (2 + l + 1) by omega]
  · rw [hmem, hbody a ha (hq ▸ ha')]

/-! ## The interrupt -/

theorem enter_kept (x : CpuFrame) (m : Machine) :
    (enter 32 x m).rsp = m.rsp - BitVec.ofNat 64 (8 * 5) ∧
      KeptBut m.rsp 5 m.mem (enter 32 x m).mem := by
  have hrsp : m.rsp - 8 - 8 - 8 - 8 - 8 = m.rsp - BitVec.ofNat 64 (8 * 5) := by
    rw [BitVec.sub_sub, BitVec.sub_sub, BitVec.sub_sub, BitVec.sub_sub]
    rfl
  refine ⟨hrsp, fun a ha => ?_⟩
  have hne : ∀ j < 5, a ≠ m.rsp - BitVec.ofNat 64 (8 * (j + 1)) := fun j hj h => ha ⟨j, hj, h⟩
  unfold enter State.push
  simp only [show ¬ PushesErrorCode 32 by decide, if_false]
  rw [if_neg, if_neg, if_neg, if_neg, if_neg]
  · exact hne 0 (by omega)
  · rw [BitVec.sub_sub]
    exact hne 1 (by omega)
  · rw [BitVec.sub_sub, BitVec.sub_sub]
    exact hne 2 (by omega)
  · rw [BitVec.sub_sub, BitVec.sub_sub, BitVec.sub_sub]
    exact hne 3 (by omega)
  · rw [BitVec.sub_sub, BitVec.sub_sub, BitVec.sub_sub, BitVec.sub_sub]
    exact hne 4 (by omega)

variable {k : System} {b q : Word} {i j : Nat}

/-- The interrupt up to the call, on word `i` of the stack at `b`. -/
theorem timer_entry (hentry : entryRsp k.sched.tssRsp k.context = slot b i) (hi : 20 ≤ i) :
    ∃ m : Machine, k.timer c = (do
        let (s, m) ← runIrq0 c 47 (.callq .generateTimer :: afterCall) k.sched m
        return { k with sched := s, context := iretq m, mem := m.mem }) ∧
      m.Holds (slot b i) k.context.words ∧ m.rsp = slot b (i - 20) ∧
      KeptBut (slot b i) 20 k.mem m.mem := by
  obtain ⟨m₀, hm₀⟩ : ∃ m₀ : Machine, m₀ = enter 32 k.context.frame
      ⟨⟨k.context.regs, slot b i, k.mem⟩, true⟩ := ⟨_, rfl⟩
  obtain ⟨hrsp, hkept⟩ := enter_kept k.context.frame
    ⟨⟨k.context.regs, slot b i, k.mem⟩, true⟩
  have hholds := holds_enter 32 k.context.frame ⟨⟨k.context.regs, slot b i, k.mem⟩, true⟩
  rw [← hm₀] at hrsp hkept hholds
  obtain ⟨m, hrun, hwords, hrsp', hkept'⟩ := runIrq0_entry (c := c) (s := k.sched) (x := k.context)
    (m := m₀) hholds (by rw [hm₀]; exact enter_regs _ _ _)
  rw [hrsp] at hrsp' hkept'
  refine ⟨m, ?_, hwords, ?_, hkept.trans hkept'⟩
  · unfold System.timer
    rw [hentry, ← hm₀]
    dsimp only
    rw [hrun]
  · rw [hrsp', BitVec.sub_sub, ← BitVec.ofNat_add]
    exact slot_sub b hi

/-- The words below a word of a stack, when some of them were pushed. -/
theorem not_below_add {n l : Nat} {a : Word} (hn : n ≤ i) (h : ¬ Below (slot b i) (n + l) a) :
    ¬ Below (slot b i) n a ∧ ¬ Below (slot b (i - n)) l a := by
  constructor
  · exact fun ⟨t, ht, hta⟩ => h ⟨t, by omega, hta⟩
  · rintro ⟨t, ht, rfl⟩
    refine h ⟨n + t, by omega, ?_⟩
    rw [← slot_sub b hn, BitVec.sub_sub, ← BitVec.ofNat_add,
      show 8 * n + 8 * (t + 1) = 8 * (n + t + 1) by omega]

/-- An interrupt at the end of which the stack pointer is where `x` waits loads `x`, and leaves the
    context that it stopped waiting. -/
theorem timer_resumes (hentry : entryRsp k.sched.tssRsp k.context = slot b i)
    (hi : 22 ≤ i) (hj : c.depth ≤ j) (hj' : j < 2 ^ 60)
    (hs : generateTimer { k.sched with rsp := slot b (i - 22) } = .ok s')
    (hq : s'.rsp = slot q j)
    (hwaits : ∀ pushed, KeptBut (slot b i) 22 k.mem pushed →
      Waits k.sched.irq0 0x20 pushed b (i - 22) k.context →
      Waits k.sched.irq0 0x20 pushed q j x)
    (hclear : ∀ l, j ≤ l → l < j + 22 → ¬ Below (slot b (i - 22)) c.depth (slot q l)) :
    ∃ mem', k.timer c = .ok { k with sched := s', context := x, mem := mem' } ∧
      (∀ a, ¬ Below (slot b i) (22 + c.depth) a → ¬ Below (slot q j) c.depth a →
        mem' a = k.mem a) ∧
      ((∀ l, i - 22 ≤ l → l < i → ¬ Below (slot q j) c.depth (slot b l)) → c.depth ≤ i - 22 →
        i ≤ 512 → Waits k.sched.irq0 0x20 mem' b (i - 22) k.context) := by
  obtain ⟨m, hrun, hholds, hrsp, hkept⟩ := timer_entry (c := c) hentry (by omega)
  have hsub : i - 20 - 2 = i - 22 := by omega
  obtain ⟨m', hcall, hwords, -, hmem, pushed, w, hframe, hbelow⟩ := runIrq0_call (c := c) (x := x)
    46 0x20 hholds (by rw [Context.length_words]; omega) hrsp (by omega) hj hj' (hsub.symm ▸ hs) hq
    (fun pushed w hpushed hframe => by
      refine hwaits pushed ?_ ⟨w, ?_⟩
      · refine hkept.trans (k := 2) ?_
        rwa [slot_sub b (by omega)]
      · rw [hsub] at hframe
        rwa [show i - 22 + 22 = i by omega])
    (by rwa [hsub])
  obtain ⟨m'', hafter, hx, hmem'⟩ := runIrq0_afterCall (c := c) (s := s') 29 hwords
  refine ⟨m''.mem, ?_, fun a ha ha' => ?_, fun hother hdepth hi' => ⟨w, ?_⟩⟩
  · rw [hrun, hcall]
    show (runIrq0 c 46 afterCall s' m' >>= _) = _
    rw [hafter, ok_bind, ← hx]
    rfl
  · obtain ⟨hpush, hbody⟩ := not_below_add (i := i) (n := 20) (l := 2 + c.depth) (by omega) (by
      rwa [show 20 + (2 + c.depth) = 22 + c.depth by omega])
    rw [hmem', hmem a hbody ha', hkept a hpush]
  · rw [hsub] at hframe hbelow
    rw [hmem', show i - 22 + 22 = i by omega]
    refine hframe.congr fun l hl => ?_
    rw [List.length_cons, List.length_cons, Context.length_words] at hl
    rw [slot_slot]
    exact hbelow _ (not_below_slot hdepth (by omega) (by omega)) (hother _ (by omega) (by omega))

/-- An interrupt at the end of which the stack pointer is where `x` waits to call once more: the
    second call only counts, and returns to the code behind the call. -/
theorem timer_starts {s'' : Sched} (hentry : entryRsp k.sched.tssRsp k.context = slot b i)
    (hi : 22 ≤ i) (hj : c.depth ≤ j) (hj' : j + 22 < 2 ^ 60)
    (hs : generateTimer { k.sched with rsp := slot b (i - 22) } = .ok s')
    (hq : s'.rsp = slot q j) (hs' : generateTimer s' = .ok s'') (hq' : s''.rsp = slot q j)
    (hwaits : ∀ pushed, KeptBut (slot b i) 22 k.mem pushed →
      Waits k.sched.irq0 0x1b pushed q j x)
    (hclear : ∀ l, j ≤ l → l < j + 22 → ¬ Below (slot b (i - 22)) c.depth (slot q l)) :
    ∃ mem', k.timer c = .ok { k with sched := s'', context := x, mem := mem' } ∧
      ∀ a, ¬ Below (slot b i) (22 + c.depth) a → ¬ Below (slot q (j + 2)) (2 + c.depth) a →
        mem' a = k.mem a := by
  obtain ⟨m, hrun, hholds, hrsp, hkept⟩ := timer_entry (c := c) hentry (by omega)
  have hsub : i - 20 - 2 = i - 22 := by omega
  obtain ⟨m₁, hcall, hwords, hrsp₁, hmem, -⟩ := runIrq0_call (c := c) (x := x) 46 0x1b
    hholds (by rw [Context.length_words]; omega) hrsp (by omega) hj (by omega)
    (hsub.symm ▸ hs) hq
    (fun pushed w hpushed _ => by
      refine hwaits pushed (hkept.trans (k := 2) ?_)
      rwa [slot_sub b (by omega)])
    (by rwa [hsub])
  have hagain : generateTimer { s' with rsp := slot q (j + 2 - 2) } = .ok s'' := by
    rw [Nat.add_sub_cancel, ← hq]
    exact hs'
  obtain ⟨m₂, hcall', hwords', -, hmem', -⟩ := runIrq0_call (c := c) (x := x) 45 0x20
    hwords (by rw [Context.length_words]; omega) hrsp₁ (by omega) hj (by omega)
    hagain hq' (fun pushed w _ hframe => ⟨w, hframe⟩)
    (fun l hl hl' => not_below_slot hj hl (by omega))
  obtain ⟨m₃, hafter, hx, hmem''⟩ := runIrq0_afterCall (c := c) (s := s'') 28 hwords'
  refine ⟨m₃.mem, ?_, fun a ha ha' => ?_⟩
  · rw [hrun, hcall]
    show (runIrq0 c 46 (.callq .generateTimer :: afterCall) s' m₁ >>= _) = _
    rw [hcall']
    show (runIrq0 c 45 afterCall s'' m₂ >>= _) = _
    rw [hafter, ok_bind, ← hx]
    rfl
  · obtain ⟨hpush, hbody⟩ := not_below_add (i := i) (n := 20) (l := 2 + c.depth) (by omega) (by
      rwa [show 20 + (2 + c.depth) = 22 + c.depth by omega])
    obtain ⟨-, hstart⟩ := not_below_add (i := j + 2) (n := 2) (l := c.depth) (by omega) ha'
    rw [Nat.add_sub_cancel] at hstart
    rw [hmem'', hmem' a ha' hstart, hmem a hbody hstart, hkept a hpush]

end Resume

end SBUnix.Interrupt
