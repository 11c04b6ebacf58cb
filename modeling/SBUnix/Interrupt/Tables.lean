import SBUnix.Interrupt.Machine
import SBUnix.Lib.Descriptors

/-
  The descriptor tables of the kernel (`sys/gdt.c`, `sys/idt.c`).

  The C code fills in packed structs, the processor reads descriptors. `delivery_exact` compares the
  two: behind `init_gdt`, `idt_install` and `init_idt`, and whatever stacks `set_tss_rsp` was given
  since, every vector leads from every privilege to its stub, on the stack that was given last, or
  to a fault.
-/

namespace SBUnix.Interrupt

open Descriptors

/-! ## `sys/idt.c` -/

/-- `idt_t`. -/
structure IdtT where
  lowOffset : BitVec 16
  selector : BitVec 16
  ist : BitVec 8
  type : BitVec 8
  midOffset : BitVec 16
  highOffset : BitVec 32
  zero : BitVec 32

/-- The packed struct, the first field lowest. -/
def IdtT.bits (e : IdtT) : BitVec 128 :=
  e.zero ++ e.highOffset ++ e.midOffset ++ e.type ++ e.ist ++ e.selector ++ e.lowOffset

/-- `idt`, by the index. -/
abbrev Idt := Nat → IdtT

/-- `idt_set_gate`. The parameters for privilege and presence are not used. -/
def Idt.setGate (t : Idt) (index : Nat) (offset : Word) (selector ist type _dpl _p : BitVec 16) :
    Idt :=
  Function.update t index
    { lowOffset := (offset &&& 0xffff).setWidth 16
      selector := selector
      ist := ist.setWidth 8
      type := type.setWidth 8
      midOffset := ((offset >>> 16) &&& 0xffff).setWidth 16
      highOffset := ((offset >>> 32) &&& 0xffffffff).setWidth 32
      zero := 0 }

/-- The calls of `idt_set_gate` for kernel gates. -/
def Idt.setGates (addr : Label → Word) : List (Nat × Label) → Idt → Idt
  | [], t => t
  | (v, l) :: rest, t => Idt.setGates addr rest (t.setGate v (addr l) 0x08 0 0x8e 0 1)

/-- `idt_install` up to the load: the table is zeroed, and the exceptions get their gates. -/
def idtInstall (addr : Label → Word) : Idt :=
  Idt.setGates addr (idt.take 32) fun _ => ⟨0, 0, 0, 0, 0, 0, 0⟩

/-- The gates of `init_idt`. -/
def initIdt (addr : Label → Word) (t : Idt) : Idt :=
  (Idt.setGates addr ((idt.drop 32).take 16) t).setGate 128 (addr .irq128) 0x08 0 0xee 0 1

/-- `idtr.limit`: the size of the table, not that less one. -/
def idtrLimit : BitVec 16 := 16 * 256

/-! ## `sys/gdt.c` -/

def gdtCs : Word := 0x00180000000000
def gdtDs : Word := 0x00100000000000
def dpl0 : Word := 0x00000000000000
def dpl3 : Word := 0x00600000000000
def flagP : Word := 0x00800000000000
def flagL : Word := 0x20000000000000
def flagW : Word := 0x00020000000000

/-- `gdt` as it is initialized: 32 entries, those behind the sixth 0. -/
def gdtEntries : Nat → Word
  | 1 => gdtCs ||| flagP ||| dpl0 ||| flagL
  | 2 => gdtDs ||| flagP ||| flagW ||| dpl0
  | 4 => gdtDs ||| flagP ||| flagW ||| dpl3
  | 5 => gdtCs ||| flagP ||| dpl3 ||| flagL
  | _ => 0

/-- `sizeof(gdt)`, which goes to the limit. -/
def gdtrSize : BitVec 16 := 8 * 32

/-- `tss_t`, without its reserved words. -/
structure TssT where
  rsp0 : Word
  rsp1 : Word
  rsp2 : Word
  ist : Fin 7 → Word

/-- `sizeof(struct tss_t)`. -/
def sizeofTss : Nat := 4 + 3 * 8 + 8 + 7 * 8 + 8 + 2 + 2

/-- The words of the packed struct. -/
def TssT.word (t : TssT) (offset : Nat) : Word :=
  if offset = 4 then t.rsp0
  else if offset = 12 then t.rsp1
  else if offset = 20 then t.rsp2
  else if h : 36 ≤ offset ∧ offset ≤ 84 ∧ (offset - 36) % 8 = 0 then
    t.ist ⟨(offset - 36) / 8, by omega⟩
  else 0

/-- `sys_segment_descriptor`. -/
structure SysSegmentDescriptor where
  lolimit : BitVec 16
  lobase : BitVec 24
  type : BitVec 5
  dpl : BitVec 2
  p : BitVec 1
  hilimit : BitVec 4
  xx1 : BitVec 3
  gran : BitVec 1
  hibase : BitVec 40
  xx2 : BitVec 8
  zero : BitVec 5
  xx3 : BitVec 19

/-- The bit-fields, the first lowest. -/
def SysSegmentDescriptor.bits (d : SysSegmentDescriptor) : BitVec 128 :=
  d.xx3 ++ d.zero ++ d.xx2 ++ d.hibase ++ d.gran ++ d.xx1 ++ d.hilimit ++ d.p ++ d.dpl ++ d.type ++
    d.lobase ++ d.lolimit

/-- The struct that two words of the table hold. -/
def SysSegmentDescriptor.ofBits (b : BitVec 128) : SysSegmentDescriptor where
  lolimit := b.extractLsb' 0 16
  lobase := b.extractLsb' 16 24
  type := b.extractLsb' 40 5
  dpl := b.extractLsb' 45 2
  p := b.extractLsb' 47 1
  hilimit := b.extractLsb' 48 4
  xx1 := b.extractLsb' 52 3
  gran := b.extractLsb' 55 1
  hibase := b.extractLsb' 56 40
  xx2 := b.extractLsb' 96 8
  zero := b.extractLsb' 104 5
  xx3 := b.extractLsb' 109 19

/-- What `init_gdt` stores through `sd`. -/
def SysSegmentDescriptor.setTss (d : SysSegmentDescriptor) (tss : Word) : SysSegmentDescriptor :=
  { d with
    lolimit := BitVec.ofNat 16 (sizeofTss - 1)
    lobase := tss.setWidth 24
    type := 9
    dpl := 0
    p := 1
    hilimit := 0
    gran := 0
    hibase := (tss >>> 24).setWidth 40 }

/-- `init_gdt` up to the loads, with `tss` at an address. -/
def initGdt (tss : Word) (gdt : Nat → Word) : Nat → Word :=
  let sd := (SysSegmentDescriptor.ofBits (gdt 7 ++ gdt 6)).setTss tss
  Function.update (Function.update gdt 6 (sd.bits.extractLsb' 0 64)) 7 (sd.bits.extractLsb' 64 64)

/-- `set_tss_rsp`. -/
def setTssRsp (t : TssT) (rsp : Word) : TssT := { t with rsp0 := rsp }

/-- What the processor has when `start` has called `init_gdt`, `idt_install` and `init_idt`, and
    `tss` is at an address. -/
def hardware (addr : Label → Word) (tssAddr : Word) (tss : TssT) : Tables where
  idt v := (initIdt addr (idtInstall addr) v).bits
  idtLimit := idtrLimit
  gdt := initGdt tssAddr gdtEntries
  gdtLimit := gdtrSize
  tr := 0x33
  mem a := tss.word (a - tssAddr).toNat

/-! ## The descriptors -/

section Gates

variable {offset : Word} {selector ist type dpl p : BitVec 16} {t : Idt} {v i : Nat}
  {addr : Label → Word}

/-- The fields of a packed gate. -/
theorem IdtT.decode_bits (e : IdtT) : Gate.decode e.bits =
    ⟨e.highOffset ++ e.midOffset ++ e.lowOffset, e.selector, e.ist.extractLsb' 0 3,
      e.type.extractLsb' 0 5, e.type.extractLsb' 5 2, e.type.getLsbD 7⟩ := by
  have hpresent : e.bits.getLsbD 47 = e.type.getLsbD 7 := by
    unfold IdtT.bits
    simp only [BitVec.getLsbD_append]
    rfl
  unfold Gate.decode
  rw [hpresent]
  unfold IdtT.bits
  simp (disch := decide) only [extract_low, extract_high, Nat.reduceSub, BitVec.extractLsb'_eq_self]

/-- The three parts of an address are the address. -/
theorem offset_parts (x : Word) :
    ((x >>> 32) &&& 0xffffffff).setWidth 32 ++ ((x >>> 16) &&& 0xffff).setWidth 16 ++
      (x &&& 0xffff).setWidth 16 = x := by
  have hlow : (x &&& 0xffff).setWidth 16 = x.extractLsb' 0 16 := by
    have h := shift_and_mask x 0xffff 0 16 (by decide) rfl
    rwa [BitVec.ushiftRight_zero] at h
  rw [hlow, shift_and_mask x 0xffff 16 16 (by decide) rfl,
    shift_and_mask x 0xffffffff 32 32 (by decide) rfl, append_extract x (show 32 = 16 + 16 from rfl),
    append_extract x (show 16 = 0 + 16 from rfl)]
  exact BitVec.extractLsb'_eq_self

/-- The processor finds the fields where `idt_set_gate` puts them. -/
theorem decode_setGate (t : Idt) (v : Nat) (offset : Word) (selector type dpl p : BitVec 16) :
    Gate.decode (t.setGate v offset selector 0 type dpl p v).bits =
      ⟨offset, selector, 0, type.extractLsb' 0 5, type.extractLsb' 5 2, type.getLsbD 7⟩ := by
  rw [Idt.setGate, Function.update_self, IdtT.decode_bits]
  dsimp only
  rw [offset_parts]
  congr 1
  · exact BitVec.extractLsb'_setWidth_of_le (by decide)
  · exact BitVec.extractLsb'_setWidth_of_le (by decide)
  · simp

theorem setGates_apply (calls : List (Nat × Label)) (h : (calls.map Prod.fst).Nodup) (t : Idt) :
    Idt.setGates addr calls t v = match calls.lookup v with
      | some l => t.setGate v (addr l) 0x08 0 0x8e 0 1 v
      | none => t v := by
  induction calls generalizing t with
  | nil => rfl
  | cons c rest ih =>
    obtain ⟨w, l⟩ := c
    rw [List.map_cons, List.nodup_cons] at h
    rw [Idt.setGates, ih h.2, List.lookup_cons]
    by_cases hvw : v = w
    · subst hvw
      have hnone : rest.lookup v = none := List.lookup_eq_none_iff.mpr fun c hc => by
        refine bne_iff_ne.mpr ?_
        rintro rfl
        exact h.1 (List.mem_map.mpr ⟨c, hc, rfl⟩)
      rw [hnone, beq_self_eq_true]
    · have hne : (v == w) = false := beq_eq_false_iff_ne.mpr hvw
      rw [hne]
      cases rest.lookup v with
      | none => exact Function.update_of_ne hvw _ _
      | some l' => simp only [Idt.setGate, Function.update_self]

theorem setGates_append (calls calls' : List (Nat × Label)) (t : Idt) :
    Idt.setGates addr (calls ++ calls') t = Idt.setGates addr calls' (Idt.setGates addr calls t) := by
  induction calls generalizing t with
  | nil => rfl
  | cons c rest ih => exact ih _

/-- The table but for the system call's gate. -/
theorem initIdt_of_ne (hv : v ≠ 128) : initIdt addr (idtInstall addr) v =
    Idt.setGates addr (idt.take 48) (fun _ => ⟨0, 0, 0, 0, 0, 0, 0⟩) v := by
  rw [show idt.take 48 = idt.take 32 ++ (idt.drop 32).take 16 from rfl, setGates_append]
  exact Function.update_of_ne hv _ _

theorem gate_of_ne (hv : v ≠ 128) : gate v = (idt.take 48).lookup v := by
  have hlast : List.lookup v [(128, Label.irq128)] = none := by
    rw [List.lookup_cons, beq_eq_false_iff_ne.mpr hv]
    rfl
  rw [gate, show idt = idt.take 48 ++ [(128, .irq128)] from rfl, List.lookup_append, hlast,
    Option.or_none]
  rfl

theorem gate_eq_none (hv : ¬ (v < 48 ∨ v = 128)) : gate v = none := by
  rw [gate_of_ne (by omega), List.lookup_eq_none_iff]
  intro c hc
  have hlt : ∀ c ∈ idt.take 48, c.1 < 48 := by decide
  have := hlt c hc
  exact bne_iff_ne.mpr (by omega)

theorem gate_lt {l : Label} (h : gate v = some l) : v < 48 ∨ v = 128 := by
  by_contra hv
  rw [gate_eq_none hv] at h
  cases h

/-- The gate of a vector that has a stub. -/
theorem decode_gate {l : Label} (h : gate v = some l) :
    Gate.decode (initIdt addr (idtInstall addr) v).bits =
      ⟨addr l, 8, 0, interruptGate, if v = 128 then 3 else 0, true⟩ := by
  by_cases hv : v = 128
  · subst hv
    obtain rfl : Label.irq128 = l := Option.some.inj h
    exact decode_setGate _ _ _ _ _ _ _
  · rw [gate_of_ne hv] at h
    rw [initIdt_of_ne hv, setGates_apply _ (by decide), h, if_neg hv]
    exact decode_setGate _ _ _ _ _ _ _

/-- The other entries are zero. -/
theorem decode_noGate (h : gate v = none) :
    (Gate.decode (initIdt addr (idtInstall addr) v).bits).type = 0 := by
  have hv : v ≠ 128 := by
    rintro rfl
    cases h
  rw [gate_of_ne hv] at h
  rw [initIdt_of_ne hv, setGates_apply _ (by decide), h, IdtT.decode_bits]
  rfl

end Gates

section Segments

variable {addr : Label → Word} {tssAddr : Word} {tss : TssT} {i : Nat}

theorem initGdt_of_lt (hi : i < 6) : initGdt tssAddr gdtEntries i = gdtEntries i := by
  unfold initGdt
  rw [Function.update_of_ne (by omega), Function.update_of_ne (by omega)]

/-- The fields of a packed system descriptor. -/
theorem SysSegmentDescriptor.decode_bits (d : SysSegmentDescriptor) :
    SystemSegment.decode d.bits =
      ⟨d.hibase.extractLsb' 8 32 ++ d.hibase.extractLsb' 0 8 ++ d.lobase.extractLsb' 16 8 ++
        d.lobase.extractLsb' 0 16, d.hilimit ++ d.lolimit, d.type, d.dpl, d.p.getLsbD 0,
        d.gran.getLsbD 0⟩ := by
  have hpresent : d.bits.getLsbD 47 = d.p.getLsbD 0 := by
    unfold SysSegmentDescriptor.bits
    simp only [BitVec.getLsbD_append]
    rfl
  have hgran : d.bits.getLsbD 55 = d.gran.getLsbD 0 := by
    unfold SysSegmentDescriptor.bits
    simp only [BitVec.getLsbD_append]
    rfl
  unfold SystemSegment.decode
  rw [hpresent, hgran]
  unfold SysSegmentDescriptor.bits
  simp (disch := decide) only [extract_low, extract_high, Nat.reduceSub, BitVec.extractLsb'_eq_self]

/-- Wherever `tss` is, its descriptor leads there. -/
theorem decode_setTss (d : SysSegmentDescriptor) :
    SystemSegment.decode (d.setTss tssAddr).bits =
      ⟨tssAddr, 103, availableTss, 0, true, false⟩ := by
  rw [SysSegmentDescriptor.decode_bits]
  unfold SysSegmentDescriptor.setTss
  dsimp only
  congr 1
  rw [shift_setWidth, extract_extract _ _ _ (by decide), extract_extract _ _ _ (by decide),
    BitVec.extractLsb'_setWidth_of_le (by decide),
    BitVec.extractLsb'_setWidth_of_le (by decide), append_extract tssAddr (show 32 = 24 + 8 from rfl),
    append_extract tssAddr (show 24 = 16 + 8 from rfl),
    append_extract tssAddr (show 16 = 0 + 16 from rfl)]
  exact BitVec.extractLsb'_eq_self

theorem initGdt_tss :
    initGdt tssAddr gdtEntries 7 ++ initGdt tssAddr gdtEntries 6 =
      ((SysSegmentDescriptor.ofBits (gdtEntries 7 ++ gdtEntries 6)).setTss tssAddr).bits := by
  unfold initGdt
  generalize ((SysSegmentDescriptor.ofBits (gdtEntries 7 ++ gdtEntries 6)).setTss tssAddr).bits = b
  rw [Function.update_self, Function.update_of_ne (by decide), Function.update_self,
    append_extract b (show 64 = 0 + 64 from rfl)]
  exact BitVec.extractLsb'_eq_self

theorem hardware_tss :
    (hardware addr tssAddr tss).tss = ⟨tssAddr, 103, availableTss, 0, true, false⟩ := by
  have htr : index (hardware addr tssAddr tss).tr = 6 := by
    show index 0x33 = 6
    decide
  have hgdt : (hardware addr tssAddr tss).gdt = initGdt tssAddr gdtEntries := rfl
  unfold Tables.tss
  rw [htr, hgdt, initGdt_tss]
  exact decode_setTss _

/-- The kernel's code segment. -/
theorem hardware_segment :
    (hardware addr tssAddr tss).segment 0x08 =
      some ⟨false, false, true, true, 0, true, true, false⟩ := by
  have hin : Global 8 ∧ 8 * index 8 + 7 ≤ (hardware addr tssAddr tss).gdtLimit.toNat := by
    show Global 8 ∧ 8 * index 8 + 7 ≤ gdtrSize.toNat
    decide
  unfold Tables.segment
  rw [if_pos hin]
  show some (Segment.decode (initGdt tssAddr gdtEntries 1)) = _
  rw [initGdt_of_lt (by decide)]
  rfl

end Segments

/-! ## Delivery -/

/-- Where an interrupt should lead. -/
def delivered (addr : Label → Word) (rsp0 : Word) (v : Nat) (software : Bool) (cpl : BitVec 2)
    (rsp : Word) : Delivery :=
  match gate v with
  | none => .fault 13 (8 * v + 2 + if software then 0 else 1)
  | some l =>
    if software = true ∧ cpl ≠ 0 ∧ v ≠ 128 then .fault 13 (8 * v + 2)
    else .enter (addr l) 0x08 ((if cpl = 0 then rsp else rsp0) &&& ~~~15#64) false

theorem hardware_stack (addr : Label → Word) (tssAddr : Word) (tss : TssT) :
    (hardware addr tssAddr tss).stack 4 = some tss.rsp0 := by
  have hin : 4 + 7 ≤ (hardware addr tssAddr tss).tss.limit.toNat := by
    rw [hardware_tss]
    show 4 + 7 ≤ (103#20).toNat
    decide
  unfold Tables.stack
  rw [if_pos hin, hardware_tss]
  show some (tss.word (tssAddr + 4 - tssAddr).toNat) = _
  rw [add_sub_cancel_left]
  rfl

/-- The kernel's segment is entered from user mode on the stack of the task state segment. -/
theorem enterGate_hardware (addr : Label → Word) (tssAddr : Word) (tss : TssT) (offset : Word)
    (dpl : BitVec 2) (present : Bool) (ext : Nat) (cpl : BitVec 2) (rsp : Word) :
    (hardware addr tssAddr tss).enterGate ⟨offset, 8, 0, interruptGate, dpl, present⟩ ext cpl rsp =
      .enter offset 0x08 ((if cpl = 0 then rsp else tss.rsp0) &&& ~~~15#64) false := by
  have hnot : ¬ cpl < 0 := by
    rw [BitVec.lt_def]
    exact Nat.not_lt_zero _
  unfold Tables.enterGate
  dsimp only
  rw [hardware_segment]
  dsimp only
  rw [if_neg (by
    rintro (h | h)
    · exact h (by decide)
    · exact hnot h), if_neg (by decide)]
  simp only [Bool.false_eq_true, if_false]
  by_cases hcpl : cpl = 0
  · subst hcpl
    rfl
  · rw [if_neg (fun h => hcpl h.1.symm), if_neg hcpl, show stackOffset 0 0 = 4 from rfl,
      hardware_stack]
    rfl

/-- An interrupt goes through the tables to its stub. -/
theorem deliver_hardware (addr : Label → Word) (tssAddr : Word) (tss : TssT) (v : Nat)
    (software : Bool) (cpl : BitVec 2) (rsp : Word) :
    (hardware addr tssAddr tss).deliver v software cpl rsp =
      delivered addr tss.rsp0 v software cpl rsp := by
  unfold Tables.deliver delivered
  dsimp only
  rw [show (hardware addr tssAddr tss).idt v = (initIdt addr (idtInstall addr) v).bits from rfl]
  cases h : gate v with
  | none =>
    rw [if_pos (Or.inr (Or.inl (by rw [decode_noGate h]; decide)))]
  | some l =>
    have hv := gate_lt h
    have hlimit : ¬ (hardware addr tssAddr tss).idtLimit.toNat < 16 * v + 15 := by
      show ¬ 4096 < 16 * v + 15
      omega
    have hdpl : (if v = 128 then (3 : BitVec 2) else 0) < cpl ↔ cpl ≠ 0 ∧ v ≠ 128 := by
      have hlt := cpl.isLt
      rw [BitVec.lt_def, Ne, BitVec.toNat_eq]
      split_ifs <;> simp <;> omega
    rw [decode_gate h]
    dsimp only
    rw [enterGate_hardware]
    by_cases hsoft : software = true ∧ cpl ≠ 0 ∧ v ≠ 128
    · rw [if_pos hsoft, if_pos (Or.inr (Or.inr ⟨hsoft.1, hdpl.mpr hsoft.2⟩)), hsoft.1]
      rfl
    · rw [if_neg hsoft, if_neg, if_neg (by decide)]
      rintro (hc | hc | hc)
      · exact hlimit hc
      · exact hc.1 rfl
      · exact hsoft ⟨hc.1, hdpl.mp hc.2⟩

theorem foldl_setTssRsp (rsps : List Word) (tss : TssT) :
    (rsps.foldl setTssRsp tss).rsp0 = rsps.getLastD tss.rsp0 := by
  induction rsps generalizing tss with
  | nil => rfl
  | cons r rest ih =>
    rw [List.foldl_cons, ih]
    cases rest <;> rfl

/-- The selectors in the frames of a user process, of the idle process, and of kernel code that was
    entered from user mode. -/
def frameSelectors : List (BitVec 16 × BitVec 16) := [(0x2b, 0x23), (0x08, 0x10), (0x08, 0)]

theorem iret_hardware (addr : Label → Word) (tssAddr : Word) (tss : TssT) :
    ∀ f ∈ frameSelectors, (hardware addr tssAddr tss).Iret 0 f.1 f.2 := by
  have hsegment : ∀ selector, Global selector ∧ 8 * index selector + 7 ≤ gdtrSize.toNat →
      index selector < 6 → (hardware addr tssAddr tss).segment selector =
        some (Segment.decode (gdtEntries (index selector))) := by
    intro selector hin hlt
    unfold Tables.segment
    rw [if_pos (show _ ∧ _ ≤ (hardware addr tssAddr tss).gdtLimit.toNat from hin),
      ← initGdt_of_lt hlt]
    rfl
  intro f hf
  simp only [frameSelectors, List.mem_cons, List.not_mem_nil, or_false] at hf
  obtain rfl | rfl | rfl := hf
  · refine ⟨⟨_, hsegment 0x2b (by decide) (by decide), by decide⟩, by decide, Or.inr ?_⟩
    exact ⟨_, hsegment 0x23 (by decide) (by decide), by decide⟩
  · refine ⟨⟨_, hsegment 0x08 (by decide) (by decide), by decide⟩, by decide, Or.inr ?_⟩
    exact ⟨_, hsegment 0x10 (by decide) (by decide), by decide⟩
  · exact ⟨⟨_, hsegment 0x08 (by decide) (by decide), by decide⟩, by decide,
      Or.inl ⟨by decide, by decide⟩⟩

/-- Wherever the stubs and `tss` are, and whatever stacks were set: every interrupt, at every
    privilege, leads to the stub of its vector with interrupts off, from user mode on the stack that
    was set last. Only the system call is open to user mode. The frames of all processes return. -/
theorem delivery_exact (addr : Label → Word) (tssAddr : Word) (tss : TssT) (rsps : List Word) :
    (∀ v software cpl rsp,
      (hardware addr tssAddr (rsps.foldl setTssRsp tss)).deliver v software cpl rsp =
        delivered addr (rsps.getLastD tss.rsp0) v software cpl rsp) ∧
      ∀ f ∈ frameSelectors, (hardware addr tssAddr (rsps.foldl setTssRsp tss)).Iret 0 f.1 f.2 := by
  refine ⟨fun v software cpl rsp => ?_, iret_hardware addr tssAddr _⟩
  rw [deliver_hardware, foldl_setTssRsp]

end SBUnix.Interrupt
