import Mathlib

/-
  The pair of 8259 interrupt controllers of a PC.

  A `Chip` has 8 lines, line 0 first in priority. A request waits in `irr` until the processor
  acknowledges it, is then in service (`isr`) until the processor ends it, and holds back the lines
  behind it for that long. The second chip hangs on line 2 of the first. Rotating priorities,
  polling, special masks and requests that are taken back are left out.
-/

namespace I8259

/-- A line of a chip. -/
abbrev Line := Fin 8

/-- What a chip takes a word on its data port for. -/
inductive Expects
  | mask | icw2 | icw3 | icw4
  deriving DecidableEq

structure Chip where
  irr : Finset Line
  isr : Finset Line
  imr : Finset Line
  base : BitVec 8
  icw3 : BitVec 8
  expects : Expects
  single : Bool
  needs4 : Bool
  autoEoi : Bool

/-- The line that comes first. -/
def first (s : Finset Line) : Option Line := if h : s.Nonempty then some (s.min' h) else none

namespace Chip

/-- A word on the command port: the start of an initialization, or the end of an interrupt. -/
def command (v : BitVec 8) (c : Chip) : Chip :=
  if v.getLsbD 4 then
    { c with
      irr := ∅, isr := ∅, imr := ∅, expects := .icw2, single := v.getLsbD 1
      needs4 := v.getLsbD 0, autoEoi := false }
  else if v.getLsbD 3 then c
  else if v.extractLsb' 5 3 = 1 then
    match first c.isr with
    | some n => { c with isr := c.isr.erase n }
    | none => c
  else if v.extractLsb' 5 3 = 3 then
    { c with isr := c.isr.erase (v.extractLsb' 0 3).toFin }
  else c

/-- A word on the data port. -/
def data (v : BitVec 8) (c : Chip) : Chip :=
  match c.expects with
  | .mask => { c with imr := Finset.univ.filter fun n => v.getLsbD n = true }
  | .icw2 =>
    { c with
      base := v &&& 0xf8
      expects := if c.single = false then .icw3 else if c.needs4 then .icw4 else .mask }
  | .icw3 => { c with icw3 := v, expects := if c.needs4 then .icw4 else .mask }
  | .icw4 => { c with autoEoi := v.getLsbD 1, expects := .mask }

/-- The line that the chip puts forward, of the requests `irr`. -/
def forward (c : Chip) (irr : Finset Line) : Option Line :=
  match first (irr \ c.imr) with
  | some n => if c.expects = .mask ∧ ∀ m ∈ c.isr, n < m then some n else none
  | none => none

/-- The processor acknowledges line `n`. -/
def serve (c : Chip) (n : Line) : Chip :=
  { c with irr := c.irr.erase n, isr := if c.autoEoi then c.isr else insert n c.isr }

end Chip

structure Pics where
  master : Chip
  slave : Chip

namespace Pics

/-- The line of the master that the slave hangs on. -/
def cascade : Line := 2

/-- The requests at the master: its line 2 is what the slave puts forward. -/
def requests (p : Pics) : Finset Line :=
  if (p.slave.forward p.slave.irr).isSome then insert cascade (p.master.irr.erase cascade)
  else p.master.irr.erase cascade

/-- `outb`. -/
def outb (p : Pics) (port : BitVec 16) (v : BitVec 8) : Pics :=
  if port = 0x20 then { p with master := p.master.command v }
  else if port = 0x21 then { p with master := p.master.data v }
  else if port = 0xa0 then { p with slave := p.slave.command v }
  else if port = 0xa1 then { p with slave := p.slave.data v }
  else p

/-- A device raises line `n` of the pair, 8 to 15 at the slave. Nothing else is on line 2. -/
def raise (p : Pics) (n : Fin 16) : Pics :=
  if n = 2 then p
  else if h : n.val < 8 then
    { p with master := { p.master with irr := insert ⟨n, h⟩ p.master.irr } }
  else { p with slave := { p.slave with irr := insert ⟨n - 8, by omega⟩ p.slave.irr } }

/-- The processor acknowledges: the vector that it gets. -/
def ack (p : Pics) : Option (BitVec 8 × Pics) :=
  match p.master.forward p.requests with
  | none => none
  | some n =>
    if p.master.icw3.getLsbD n then
      if n = cascade ∧ (p.slave.icw3.extractLsb' 0 3).toNat = n then
        match p.slave.forward p.slave.irr with
        | none => none
        | some k =>
          some (p.slave.base + BitVec.ofNat 8 k, ⟨p.master.serve n, p.slave.serve k⟩)
      else none
    else some (p.master.base + BitVec.ofNat 8 n, { p with master := p.master.serve n })

/-- Line `n` of the pair waits to be acknowledged. -/
def Pending (p : Pics) (n : Fin 16) : Prop :=
  n ≠ 2 ∧ if h : n.val < 8 then (⟨n, h⟩ : Line) ∈ p.master.irr
    else (⟨n - 8, by omega⟩ : Line) ∈ p.slave.irr

/-- The lines of the slave come where line 2 is. -/
def rank (n : Fin 16) : Nat := if n.val < 3 then n else if n.val < 8 then n + 8 else n - 6

/-- At most line `n` of the pair is in service. -/
structure Serving (p : Pics) (n : Fin 16) : Prop where
  master : ∀ m ∈ p.master.isr, m.val = if n.val < 8 then n.val else 2
  slave : ∀ k ∈ p.slave.isr, k.val + 8 = n

/-- Nothing is in service. -/
structure Quiet (p : Pics) : Prop where
  master : p.master.isr = ∅
  slave : p.slave.isr = ∅

/-- Both chips work, with their vectors from `b` and `b'` on, and no line is masked. -/
structure Ready (b b' : BitVec 8) (p : Pics) : Prop where
  masterExpects : p.master.expects = .mask
  slaveExpects : p.slave.expects = .mask
  masterMask : p.master.imr = ∅
  slaveMask : p.slave.imr = ∅
  masterBase : p.master.base = b
  slaveBase : p.slave.base = b'
  masterEoi : p.master.autoEoi = false
  slaveEoi : p.slave.autoEoi = false
  hasSlave : p.master.icw3 = 4
  slaveId : p.slave.icw3 = 2

/-- The same but for the requests. -/
def SameBut (p q : Pics) : Prop :=
  ∃ irr irr', q = ⟨{ p.master with irr := irr }, { p.slave with irr := irr' }⟩

end Pics

/-! ## Priority -/

section First

variable {s : Finset Line} {n : Line} {c : Chip} {irr : Finset Line}

theorem first_eq_some : first s = some n ↔ n ∈ s ∧ ∀ m ∈ s, n ≤ m := by
  unfold first
  split_ifs with h
  · rw [Option.some.injEq]
    constructor
    · rintro rfl
      exact ⟨s.min'_mem h, fun m hm => s.min'_le m hm⟩
    · rintro ⟨hn, hle⟩
      exact le_antisymm (s.min'_le n hn) (hle _ (s.min'_mem h))
  · simp only [false_iff]
    exact fun hn => h ⟨n, hn.1⟩

theorem first_eq_none : first s = none ↔ s = ∅ := by
  unfold first
  split_ifs with h
  · simp [h.ne_empty]
  · simp [Finset.not_nonempty_iff_eq_empty.mp h]

/-- A chip with nothing in service and no mask puts its first request forward. -/
theorem Chip.forward_of_quiet (hisr : c.isr = ∅) (himr : c.imr = ∅) (hexp : c.expects = .mask) :
    c.forward irr = first irr := by
  unfold Chip.forward
  rw [himr, Finset.sdiff_empty, hisr]
  cases first irr <;> simp [hexp]

/-- Ending the only interrupt in service. -/
theorem Chip.command_eoi (h : c.isr ⊆ {n}) : (c.command 0x20).isr = ∅ := by
  have hcommand : c.command 0x20 = match first c.isr with
      | some n => { c with isr := c.isr.erase n }
      | none => c := rfl
  rw [hcommand]
  cases hf : first c.isr with
  | none => exact first_eq_none.mp hf
  | some m =>
    obtain ⟨hm, -⟩ := first_eq_some.mp hf
    obtain rfl := Finset.mem_singleton.mp (h hm)
    rw [Finset.eq_empty_iff_forall_notMem]
    intro x hx
    obtain ⟨hne, hx⟩ := Finset.mem_erase.mp hx
    exact hne (Finset.mem_singleton.mp (h hx))

/-- The end of an interrupt changes nothing else. -/
theorem Chip.command_eoi_eq (c : Chip) :
    c.command 0x20 = { c with isr := (c.command 0x20).isr } := by
  have hcommand : c.command 0x20 = match first c.isr with
      | some n => { c with isr := c.isr.erase n }
      | none => c := rfl
  rw [hcommand]
  cases first c.isr <;> rfl

/-- An end that nothing waits for. -/
theorem Chip.command_eoi_of_empty (h : c.isr = ∅) : c.command 0x20 = c := by
  have hempty : (c.command 0x20).isr = ∅ := Chip.command_eoi (n := 0) (by simp [h])
  rw [c.command_eoi_eq, hempty, ← h]

end First

namespace Pics

section Pair

variable {p q : Pics} {b b' : BitVec 8} {n : Fin 16}

/-! ## The same but for the requests -/

theorem SameBut.refl (p : Pics) : SameBut p p := ⟨_, _, rfl⟩

theorem SameBut.trans {r : Pics} (h : SameBut p q) (h' : SameBut q r) : SameBut p r := by
  obtain ⟨irr, irr', rfl⟩ := h
  obtain ⟨irr₂, irr₂', rfl⟩ := h'
  exact ⟨irr₂, irr₂', rfl⟩

theorem sameBut_raise (p : Pics) (n : Fin 16) : SameBut p (p.raise n) := by
  unfold raise
  split_ifs
  · exact .refl p
  · exact ⟨_, _, rfl⟩
  · exact ⟨_, _, rfl⟩

theorem command_irr (v : BitVec 8) (c : Chip) (irr : Finset Line) :
    ∃ irr', ({ c with irr := irr } : Chip).command v = { c.command v with irr := irr' } := by
  unfold Chip.command
  dsimp only
  split_ifs
  · exact ⟨_, rfl⟩
  · exact ⟨_, rfl⟩
  · cases first c.isr <;> exact ⟨_, rfl⟩
  · exact ⟨_, rfl⟩
  · exact ⟨_, rfl⟩

theorem data_irr (v : BitVec 8) (c : Chip) (irr : Finset Line) :
    ({ c with irr := irr } : Chip).data v = { c.data v with irr := irr } := by
  unfold Chip.data
  cases c.expects <;> rfl

/-- What a write does besides does not depend on the requests. -/
theorem SameBut.outb (h : SameBut p q) (port : BitVec 16) (v : BitVec 8) :
    SameBut (p.outb port v) (q.outb port v) := by
  obtain ⟨irr, irr', rfl⟩ := h
  unfold Pics.outb
  split_ifs
  · obtain ⟨irr₂, hirr⟩ := command_irr v p.master irr
    exact ⟨irr₂, irr', by rw [hirr]⟩
  · exact ⟨irr, irr', by rw [data_irr]⟩
  · obtain ⟨irr₂, hirr⟩ := command_irr v p.slave irr'
    exact ⟨irr, irr₂, by rw [hirr]⟩
  · exact ⟨irr, irr', by rw [data_irr]⟩
  · exact ⟨irr, irr', rfl⟩

theorem SameBut.quiet (h : SameBut p q) (hp : p.Quiet) : q.Quiet := by
  obtain ⟨irr, irr', rfl⟩ := h
  exact ⟨hp.master, hp.slave⟩

theorem SameBut.ready (h : SameBut p q) (hp : p.Ready b b') : q.Ready b b' := by
  obtain ⟨irr, irr', rfl⟩ := h
  exact ⟨hp.1, hp.2, hp.3, hp.4, hp.5, hp.6, hp.7, hp.8, hp.9, hp.10⟩

theorem SameBut.serving (h : SameBut p q) (hp : p.Serving n) : q.Serving n := by
  obtain ⟨irr, irr', rfl⟩ := h
  exact ⟨hp.1, hp.2⟩

/-! ## The end of an interrupt -/

theorem Quiet.serving (h : p.Quiet) (n : Fin 16) : p.Serving n :=
  ⟨by simp [h.master], by simp [h.slave]⟩

theorem outb_master (p : Pics) :
    p.outb 0x20 0x20 = { p with master := p.master.command 0x20 } := rfl

theorem outb_slave (p : Pics) : p.outb 0xa0 0x20 = { p with slave := p.slave.command 0x20 } := rfl

theorem Serving.subset_master (h : p.Serving n) :
    ∃ m, p.master.isr ⊆ {m} := by
  obtain ⟨m, hm⟩ : ∃ m : Line, m.val = if n.val < 8 then n.val else 2 :=
    ⟨⟨if n.val < 8 then n.val else 2, by split_ifs <;> omega⟩, rfl⟩
  exact ⟨m, fun x hx => Finset.mem_singleton.mpr (Fin.ext ((h.master x hx).trans hm.symm))⟩

theorem Serving.subset_slave (h : p.Serving n) : ∃ k, p.slave.isr ⊆ {k} := by
  refine ⟨⟨(n.val - 8) % 8, by omega⟩, fun x hx => Finset.mem_singleton.mpr (Fin.ext ?_)⟩
  have := h.slave x hx
  show x.val = (n.val - 8) % 8
  omega

/-- The end of an interrupt at the slave. -/
theorem Serving.outb_slave (h : p.Serving n) :
    (p.outb 0xa0 0x20).Serving n ∧ (p.outb 0xa0 0x20).slave.isr = ∅ := by
  obtain ⟨k, hk⟩ := h.subset_slave
  have hempty : (p.outb 0xa0 0x20).slave.isr = ∅ := Chip.command_eoi hk
  exact ⟨⟨h.master, fun k hk => absurd (hempty ▸ hk) (Finset.notMem_empty k)⟩, hempty⟩

/-- At the master. -/
theorem Serving.outb_master (h : p.Serving n) :
    (p.outb 0x20 0x20).Serving n ∧ (p.outb 0x20 0x20).master.isr = ∅ := by
  obtain ⟨k, hk⟩ := h.subset_master
  have hempty : (p.outb 0x20 0x20).master.isr = ∅ := Chip.command_eoi hk
  exact ⟨⟨fun m hm => absurd (hempty ▸ hm) (Finset.notMem_empty m), h.slave⟩, hempty⟩

/-- With nothing in service at the slave, the end at the master leaves nothing in service. -/
theorem Serving.quiet (h : p.Serving n) (hslave : p.slave.isr = ∅) : (p.outb 0x20 0x20).Quiet :=
  ⟨h.outb_master.2, hslave⟩

theorem Serving.slave_empty (h : p.Serving n) (hn : n.val < 8) : p.slave.isr = ∅ := by
  rw [Finset.eq_empty_iff_forall_notMem]
  intro k hk
  have := h.slave k hk
  omega

/-- An end that nothing waits for does nothing. -/
theorem Quiet.outb_master (h : p.Quiet) : p.outb 0x20 0x20 = p := by
  rw [Pics.outb_master, Chip.command_eoi_of_empty h.master]

theorem Quiet.outb_slave (h : p.Quiet) : p.outb 0xa0 0x20 = p := by
  rw [Pics.outb_slave, Chip.command_eoi_of_empty h.slave]

theorem pending_outb_master : (p.outb 0x20 0x20).Pending n ↔ p.Pending n := by
  rw [Pics.outb_master, Chip.command_eoi_eq]
  rfl

theorem pending_outb_slave : (p.outb 0xa0 0x20).Pending n ↔ p.Pending n := by
  rw [Pics.outb_slave, Chip.command_eoi_eq]
  rfl

theorem Ready.outb_master (h : p.Ready b b') : (p.outb 0x20 0x20).Ready b b' := by
  have hcommand := p.master.command_eoi_eq
  rw [Pics.outb_master, hcommand]
  exact ⟨h.1, h.2, h.3, h.4, h.5, h.6, h.7, h.8, h.9, h.10⟩

theorem Ready.outb_slave (h : p.Ready b b') : (p.outb 0xa0 0x20).Ready b b' := by
  have hcommand := p.slave.command_eoi_eq
  rw [Pics.outb_slave, hcommand]
  exact ⟨h.1, h.2, h.3, h.4, h.5, h.6, h.7, h.8, h.9, h.10⟩

/-! ## Acknowledging -/

/-- The vector of a line. -/
def vector (b b' : BitVec 8) (n : Fin 16) : BitVec 8 :=
  if n.val < 8 then b + BitVec.ofNat 8 n else b' + BitVec.ofNat 8 (n - 8)

/-- What the processor gets when it acknowledges: the first line that waits. -/
structure Acknowledged (p : Pics) (b b' : BitVec 8) (n : Fin 16) (v : BitVec 8) (q : Pics) :
    Prop where
  vector_eq : v = vector b b' n
  pending : p.Pending n
  first : ∀ m, p.Pending m → rank n ≤ rank m
  others : ∀ m, q.Pending m ↔ p.Pending m ∧ m ≠ n
  serving : q.Serving n
  ready : q.Ready b b'

@[simp] theorem cascade_val : cascade.val = 2 := rfl

theorem mem_requests (h : p.Ready b b') (hq : p.Quiet) {m : Line} :
    m ∈ p.requests ↔ if m = cascade then p.slave.irr ≠ ∅ else m ∈ p.master.irr := by
  unfold requests
  rw [Chip.forward_of_quiet hq.slave h.slaveMask h.slaveExpects]
  have hsome : (first p.slave.irr).isSome ↔ p.slave.irr ≠ ∅ := by
    rw [Option.isSome_iff_ne_none, Ne, first_eq_none]
  split_ifs with h₁ h₂ h₂
  · simp [h₂, hsome.mp h₁]
  · simp [h₂]
  · simpa [h₂] using mt hsome.mpr h₁
  · simp [h₂]

/-- A line of the master. -/
theorem pending_low {m : Line} (hm : m ≠ cascade) :
    p.Pending ⟨m.val, by omega⟩ ↔ m ∈ p.master.irr := by
  have hne : (⟨m.val, by omega⟩ : Fin 16) ≠ 2 := fun h => hm (Fin.ext (by
    simpa using congrArg Fin.val h))
  unfold Pending
  rw [dif_pos m.isLt]
  exact and_iff_right hne

/-- A line of the slave. -/
theorem pending_high {k : Line} : p.Pending ⟨k.val + 8, by omega⟩ ↔ k ∈ p.slave.irr := by
  have hne : (⟨k.val + 8, by omega⟩ : Fin 16) ≠ 2 := fun h => by
    have := congrArg Fin.val h
    simp at this
  unfold Pending
  rw [dif_neg (by simp)]
  simp [hne]

/-- A line of the pair is one of the master, or one of the slave. -/
theorem line_cases (n : Fin 16) (hn : n ≠ 2) :
    (∃ m : Line, m ≠ cascade ∧ n = ⟨m.val, by omega⟩) ∨ ∃ k : Line, n = ⟨k.val + 8, by omega⟩ := by
  by_cases h : n.val < 8
  · refine Or.inl ⟨⟨n.val, h⟩, fun hc => hn (Fin.ext ?_), rfl⟩
    simpa using congrArg Fin.val hc
  · exact Or.inr ⟨⟨n.val - 8, by omega⟩, Fin.ext (by simp; omega)⟩

theorem forward_master (h : p.Ready b b') (hq : p.Quiet) :
    p.master.forward p.requests = first p.requests :=
  Chip.forward_of_quiet hq.master h.masterMask h.masterExpects

theorem forward_slave (h : p.Ready b b') (hq : p.Quiet) :
    p.slave.forward p.slave.irr = first p.slave.irr :=
  Chip.forward_of_quiet hq.slave h.slaveMask h.slaveExpects

/-- A line of the master is acknowledged. -/
theorem Ready.ack_master (h : p.Ready b b') (hq : p.Quiet) {m : Line} (hm : m ≠ cascade)
    (hf : first p.requests = some m) :
    p.ack = some (b + BitVec.ofNat 8 m, { p with master := p.master.serve m }) := by
  have hnot : ∀ m : Line, m ≠ cascade → ¬ (4 : BitVec 8).getLsbD m = true := by decide
  unfold Pics.ack
  rw [forward_master h hq, hf]
  dsimp only
  rw [h.hasSlave, if_neg (hnot m hm), h.masterBase]

/-- A line of the slave is. -/
theorem Ready.ack_slave (h : p.Ready b b') (hq : p.Quiet) {k : Line}
    (hf : first p.requests = some cascade) (hk : first p.slave.irr = some k) :
    p.ack = some (b' + BitVec.ofNat 8 k, ⟨p.master.serve cascade, p.slave.serve k⟩) := by
  unfold Pics.ack
  rw [forward_master h hq, hf]
  dsimp only
  rw [h.hasSlave, h.slaveId, if_pos (by decide), if_pos (by decide), forward_slave h hq, hk,
    h.slaveBase]

/-- Serving a line of a chip with nothing in service. -/
theorem serve_isr {c : Chip} {n x : Line} (hisr : c.isr = ∅) (heoi : c.autoEoi = false) :
    x ∈ (c.serve n).isr ↔ x = n := by
  unfold Chip.serve
  rw [heoi, hisr]
  simp

theorem Ready.acknowledged_master (h : p.Ready b b') (hq : p.Quiet) {m : Line} (hm : m ≠ cascade)
    (hf : first p.requests = some m) :
    Acknowledged p b b' ⟨m.val, by omega⟩ (b + BitVec.ofNat 8 m)
      { p with master := p.master.serve m } := by
  obtain ⟨hmem, hle⟩ := first_eq_some.mp hf
  rw [mem_requests h hq, if_neg hm] at hmem
  have hm2 : m.val ≠ 2 := fun hv => hm (Fin.ext hv)
  have hlt := m.isLt
  refine ⟨?_, (pending_low hm).mpr hmem, fun n hn => ?_, fun n => ?_, ⟨fun x hx => ?_, ?_⟩, ?_⟩
  · unfold vector
    rw [if_pos m.isLt]
  · obtain ⟨m', hm', rfl⟩ | ⟨k, rfl⟩ := line_cases n hn.1
    · have hreq := hle m' ((mem_requests h hq).mpr (by
        rw [if_neg hm']
        exact (pending_low hm').mp hn))
      have hv : m.val ≤ m'.val := hreq
      unfold rank
      dsimp only
      split_ifs <;> omega
    · have hreq := hle cascade ((mem_requests h hq).mpr (by
        rw [if_pos rfl]
        exact Finset.ne_empty_of_mem (pending_high.mp hn)))
      have hv : m.val ≤ 2 := hreq
      unfold rank
      dsimp only
      split_ifs <;> omega
  · by_cases hn : n = 2
    · simp [Pending, hn]
    obtain ⟨m', hm', rfl⟩ | ⟨k, rfl⟩ := line_cases n hn
    · rw [pending_low hm', pending_low hm']
      simp [Chip.serve, Fin.ext_iff, and_comm]
    · rw [pending_high, pending_high, and_iff_left]
      intro heq
      have := congrArg Fin.val heq
      simp only at this
      omega
  · rw [(serve_isr hq.master h.masterEoi).mp hx, if_pos m.isLt]
  · simp [hq.slave]
  · exact ⟨h.1, h.2, h.3, h.4, h.5, h.6, h.7, h.8, h.9, h.10⟩

theorem Ready.acknowledged_slave (h : p.Ready b b') (hq : p.Quiet) {k : Line}
    (hf : first p.requests = some cascade) (hk : first p.slave.irr = some k) :
    Acknowledged p b b' ⟨k.val + 8, by omega⟩ (b' + BitVec.ofNat 8 k)
      ⟨p.master.serve cascade, p.slave.serve k⟩ := by
  obtain ⟨-, hle⟩ := first_eq_some.mp hf
  obtain ⟨hmem, hlek⟩ := first_eq_some.mp hk
  have hlt := k.isLt
  refine ⟨?_, pending_high.mpr hmem, fun n hn => ?_, fun n => ?_, ⟨fun x hx => ?_, fun x hx => ?_⟩,
    ?_⟩
  · unfold vector
    rw [if_neg (by simp)]
    simp
  · obtain ⟨m', hm', rfl⟩ | ⟨k', rfl⟩ := line_cases n hn.1
    · have hreq := hle m' ((mem_requests h hq).mpr (by
        rw [if_neg hm']
        exact (pending_low hm').mp hn))
      have hv : 2 ≤ m'.val := hreq
      have hm2 : m'.val ≠ 2 := fun hv => hm' (Fin.ext hv)
      unfold rank
      dsimp only
      split_ifs <;> omega
    · have hv : k.val ≤ k'.val := hlek k' (pending_high.mp hn)
      unfold rank
      dsimp only
      split_ifs <;> omega
  · by_cases hn : n = 2
    · simp [Pending, hn]
    obtain ⟨m', hm', rfl⟩ | ⟨k', rfl⟩ := line_cases n hn
    · rw [pending_low hm', pending_low hm', and_iff_left]
      · simp [Chip.serve, hm']
      · intro heq
        have := congrArg Fin.val heq
        simp only at this
        omega
    · rw [pending_high, pending_high]
      simp [Chip.serve, Fin.ext_iff, and_comm]
  · rw [(serve_isr hq.master h.masterEoi).mp hx, if_neg (by simp)]
    rfl
  · rw [(serve_isr hq.slave h.slaveEoi).mp hx]
  · exact ⟨h.1, h.2, h.3, h.4, h.5, h.6, h.7, h.8, h.9, h.10⟩

/-- With nothing in service, the processor gets the first line that waits. -/
theorem Ready.ack (h : p.Ready b b') (hq : p.Quiet) :
    (p.ack = none ∧ ∀ n, ¬ p.Pending n) ∨
      ∃ n v q, p.ack = some (v, q) ∧ Acknowledged p b b' n v q := by
  cases hf : first p.requests with
  | none =>
    left
    have hempty := first_eq_none.mp hf
    refine ⟨?_, fun n hn => ?_⟩
    · unfold Pics.ack
      rw [forward_master h hq, hf]
    · obtain ⟨m, hm, rfl⟩ | ⟨k, rfl⟩ := line_cases n hn.1
      · have hmem := (mem_requests h hq (m := m)).mpr (by
          rw [if_neg hm]
          exact (pending_low hm).mp hn)
        simp [hempty] at hmem
      · have hmem := (mem_requests h hq (m := cascade)).mpr (by
          rw [if_pos rfl]
          exact Finset.ne_empty_of_mem (pending_high.mp hn))
        simp [hempty] at hmem
  | some m =>
    right
    by_cases hm : m = cascade
    · subst hm
      obtain ⟨hmem, -⟩ := first_eq_some.mp hf
      rw [mem_requests h hq, if_pos rfl, Ne, ← first_eq_none] at hmem
      obtain ⟨k, hk⟩ := Option.ne_none_iff_exists'.mp hmem
      exact ⟨_, _, _, h.ack_slave hq hf hk, h.acknowledged_slave hq hf hk⟩
    · exact ⟨_, _, _, h.ack_master hq hm hf, h.acknowledged_master hq hm hf⟩

end Pair

end Pics

end I8259
