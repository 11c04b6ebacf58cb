import Mathlib

/-
  The descriptor tables of 64-bit mode, as the processor reads them.

  `Gate`, `Segment` and `SystemSegment` take a descriptor apart into its fields, at the places where
  the processor has them. `Tables.deliver` follows an interrupt through the tables to the code and
  the stack that it enters, or to the fault that stops it, and `Tables.Iret` is the way back.
  Virtual-8086 mode, call gates and the shadow stack are left out.
-/

namespace SBUnix.Descriptors

/-! ## Descriptors -/

/-- An entry of the interrupt descriptor table. -/
structure Gate where
  offset : BitVec 64
  selector : BitVec 16
  ist : BitVec 3
  type : BitVec 5
  dpl : BitVec 2
  present : Bool

def Gate.decode (d : BitVec 128) : Gate where
  offset := d.extractLsb' 64 32 ++ d.extractLsb' 48 16 ++ d.extractLsb' 0 16
  selector := d.extractLsb' 16 16
  ist := d.extractLsb' 32 3
  type := d.extractLsb' 40 5
  dpl := d.extractLsb' 45 2
  present := d.getLsbD 47

/-- An interrupt gate clears the interrupt flag. -/
def interruptGate : BitVec 5 := 0b01110

/-- A trap gate does not. -/
def trapGate : BitVec 5 := 0b01111

/-- The descriptor of a code or data segment. Base and limit count for nothing in 64-bit mode. -/
structure Segment where
  writable : Bool
  conforming : Bool
  code : Bool
  notSystem : Bool
  dpl : BitVec 2
  present : Bool
  long : Bool
  big : Bool

def Segment.decode (d : BitVec 64) : Segment where
  writable := d.getLsbD 41
  conforming := d.getLsbD 42
  code := d.getLsbD 43
  notSystem := d.getLsbD 44
  dpl := d.extractLsb' 45 2
  present := d.getLsbD 47
  long := d.getLsbD 53
  big := d.getLsbD 54

/-- 64-bit code. -/
def Segment.IsCode64 (s : Segment) : Prop := s.notSystem ∧ s.code ∧ s.long ∧ ¬ s.big

instance (s : Segment) : Decidable s.IsCode64 := inferInstanceAs (Decidable (_ ∧ _))

/-- Data that can be written. -/
def Segment.IsStack (s : Segment) : Prop := s.notSystem ∧ ¬ s.code ∧ s.writable

instance (s : Segment) : Decidable s.IsStack := inferInstanceAs (Decidable (_ ∧ _))

/-- The descriptor of a task state segment. -/
structure SystemSegment where
  base : BitVec 64
  limit : BitVec 20
  type : BitVec 5
  dpl : BitVec 2
  present : Bool
  granularity : Bool

def SystemSegment.decode (d : BitVec 128) : SystemSegment where
  base := d.extractLsb' 64 32 ++ d.extractLsb' 56 8 ++ d.extractLsb' 32 8 ++ d.extractLsb' 16 16
  limit := d.extractLsb' 48 4 ++ d.extractLsb' 0 16
  type := d.extractLsb' 40 5
  dpl := d.extractLsb' 45 2
  present := d.getLsbD 47
  granularity := d.getLsbD 55

/-- A task state segment that no task uses yet. -/
def availableTss : BitVec 5 := 0b01001

/-! ## Selectors -/

def rpl (selector : BitVec 16) : BitVec 2 := selector.extractLsb' 0 2

/-- The entry of the table that a selector names. -/
def index (selector : BitVec 16) : Nat := (selector.extractLsb' 3 13).toNat

/-- The selector names an entry of the global table. -/
def Global (selector : BitVec 16) : Prop := selector.getLsbD 2 = false ∧ index selector ≠ 0

instance (selector : BitVec 16) : Decidable (Global selector) := inferInstanceAs (Decidable (_ ∧ _))

/-- What the processor pushes for a selector that is at fault. -/
def selectorCode (selector : BitVec 16) : Nat := 8 * index selector

/-! ## The tables -/

/-- The tables that are loaded, and the memory behind the task state segment. -/
structure Tables where
  idt : Nat → BitVec 128
  idtLimit : BitVec 16
  gdt : Nat → BitVec 64
  gdtLimit : BitVec 16
  tr : BitVec 16
  mem : BitVec 64 → BitVec 64

/-- What the processor does with an interrupt: it enters a handler, with the stack pointer that it
    pushes from, always at a multiple of 16, or it raises a fault with an error code. -/
inductive Delivery
  | enter (rip : BitVec 64) (cs : BitVec 16) (rsp : BitVec 64) (interrupts : Bool)
  | fault (vector code : Nat)
  deriving DecidableEq

/-- A code or data segment of the global table. -/
def Tables.segment (t : Tables) (selector : BitVec 16) : Option Segment :=
  if Global selector ∧ 8 * index selector + 7 ≤ t.gdtLimit.toNat then
    some (Segment.decode (t.gdt (index selector)))
  else none

/-- The task state segment. -/
def Tables.tss (t : Tables) : SystemSegment :=
  SystemSegment.decode (t.gdt (index t.tr + 1) ++ t.gdt (index t.tr))

/-- The stack pointer at an offset of the task state segment. -/
def Tables.stack (t : Tables) (offset : Nat) : Option (BitVec 64) :=
  if offset + 7 ≤ t.tss.limit.toNat then some (t.mem (t.tss.base + BitVec.ofNat 64 offset))
  else none

/-- Where the task state segment has the stack that a handler with privilege `dpl` starts from. -/
def stackOffset (ist : BitVec 3) (dpl : BitVec 2) : Nat :=
  if ist = 0 then 4 + 8 * dpl.toNat else 28 + 8 * ist.toNat

/-- Enter the code segment of a gate. `ext` says in an error code that no `int` was executed. -/
def Tables.enterGate (t : Tables) (g : Gate) (ext : Nat) (cpl : BitVec 2) (rsp : BitVec 64) :
    Delivery :=
  match t.segment g.selector with
  | none => .fault 13 (selectorCode g.selector + ext)
  | some s =>
    if ¬ s.IsCode64 ∨ cpl < s.dpl then .fault 13 (selectorCode g.selector + ext)
    else if s.present = false then .fault 11 (selectorCode g.selector + ext)
    else
      let inner : BitVec 2 := if s.conforming then cpl else s.dpl
      let cs := g.selector.extractLsb' 2 14 ++ inner
      if inner = cpl ∧ g.ist = 0 then
        .enter g.offset cs (rsp &&& ~~~15#64) (g.type ≠ interruptGate)
      else match t.stack (stackOffset g.ist inner) with
        | none => .fault 10 (selectorCode t.tr + ext)
        | some top => .enter g.offset cs (top &&& ~~~15#64) (g.type ≠ interruptGate)

/-- Interrupt `v`, from an `int` instruction or from elsewhere, at privilege `cpl`. -/
def Tables.deliver (t : Tables) (v : Nat) (software : Bool) (cpl : BitVec 2) (rsp : BitVec 64) :
    Delivery :=
  let g := Gate.decode (t.idt v)
  let ext := if software then 0 else 1
  let code := 8 * v + 2 + ext
  if t.idtLimit.toNat < 16 * v + 15 ∨ (g.type ≠ interruptGate ∧ g.type ≠ trapGate) ∨
      (software = true ∧ g.dpl < cpl) then .fault 13 code
  else if g.present = false then .fault 11 code
  else t.enterGate g ext cpl rsp

/-- What `iretq` checks of the code segment. -/
def Tables.ReturnsTo (t : Tables) (cpl : BitVec 2) (cs : BitVec 16) : Prop :=
  ∃ c ∈ t.segment cs, c.IsCode64 ∧ cpl ≤ rpl cs ∧ c.dpl ≤ rpl cs ∧
    (c.conforming = false → c.dpl = rpl cs) ∧ c.present = true

/-- What it checks of the stack segment: outside user mode there may be none. -/
def Tables.StackFor (t : Tables) (cpl : BitVec 2) (ss : BitVec 16) : Prop :=
  rpl ss = cpl ∧ ((index ss = 0 ∧ cpl ≠ 3) ∨
    ∃ s ∈ t.segment ss, s.IsStack ∧ s.dpl = cpl ∧ s.present = true)

/-- `iretq` returns from privilege `cpl` to that of `cs`. -/
def Tables.Iret (t : Tables) (cpl : BitVec 2) (cs ss : BitVec 16) : Prop :=
  t.ReturnsTo cpl cs ∧ t.StackFor (rpl cs) ss

/-! ## Fields that were put together -/

section Fields

variable {v w start len : Nat} {hi : BitVec v} {lo : BitVec w}

/-- A field of the low part. -/
theorem extract_low (h : start + len ≤ w) :
    (hi ++ lo).extractLsb' start len = lo.extractLsb' start len :=
  BitVec.extractLsb'_append_eq_of_add_le h

/-- A field of the high part. -/
theorem extract_high (h : w ≤ start) :
    (hi ++ lo).extractLsb' start len = hi.extractLsb' (start - w) len :=
  BitVec.extractLsb'_append_eq_of_le h

/-- Two fields side by side are one. -/
theorem append_extract (x : BitVec v) {start' len' : Nat} (h : start' = start + len) :
    x.extractLsb' start' len' ++ x.extractLsb' start len = x.extractLsb' start (len' + len) :=
  BitVec.extractLsb'_append_extractLsb'_eq_extractLsb' h

/-- A field of a field. -/
theorem extract_extract (x : BitVec v) (s n : Nat) (h : start + len ≤ n) :
    (x.extractLsb' s n).extractLsb' start len = x.extractLsb' (s + start) len := by
  apply BitVec.eq_of_getLsbD_eq
  intro i hi
  simp only [BitVec.getLsbD_extractLsb', hi, decide_true, Bool.true_and, Nat.add_assoc]
  simp [show start + i < n by omega]

/-- A field that is shifted down and masked. -/
theorem shift_and_mask (x mask : BitVec v) (s n : Nat) (hn : n ≤ v)
    (hmask : mask = BitVec.ofNat v (2 ^ n - 1)) :
    ((x >>> s) &&& mask).setWidth n = x.extractLsb' s n := by
  subst hmask
  apply BitVec.eq_of_getLsbD_eq
  intro i hi
  simp only [BitVec.getLsbD_setWidth, BitVec.getLsbD_and, BitVec.getLsbD_ushiftRight,
    BitVec.getLsbD_extractLsb', BitVec.getLsbD_ofNat, Nat.testBit_two_pow_sub_one]
  simp [hi, show i < v by omega]

/-- A field that is shifted down and cut off. -/
theorem shift_setWidth (x : BitVec v) (s n : Nat) : (x >>> s).setWidth n = x.extractLsb' s n := by
  apply BitVec.eq_of_getLsbD_eq
  intro i hi
  simp only [BitVec.getLsbD_setWidth, BitVec.getLsbD_ushiftRight, BitVec.getLsbD_extractLsb']

end Fields

end SBUnix.Descriptors
