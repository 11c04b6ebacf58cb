import SBUnix.Lib.ByteMem
import SBUnix.Lib.Radix
import SBUnix.Paging.Defs

/-
  The 4-level address translation of the CPU, over physical memory as bytes.

  A frame is a 52-bit page number: an entry points to the frame left when the low 12 bits are
  masked off, which is how `print_va_to_pa` reads entries (`PHYMASK`). An entry counts as
  present when bit 0 is set; the code never sets the large-page bit, so every level is walked.
  A virtual page is its path of four table indices. `pml4RecAddr` to `pteRecAddr` are the four
  recursive-window addresses of `page_walk`; `path_pteRecAddr` and its siblings say which
  path each one has, and `pageOff_pteRecAddr` and its siblings which entry of that page it is.
-/

namespace SBUnix

open ByteMem

/-- A physical page number. -/
abbrev Frame := BitVec 52

/-- An index into a table of 512 entries. -/
abbrev Idx := BitVec 9

def Frame.addr (f : Frame) : Word := f.setWidth 64 <<< 12

/-- The frame an entry (or a page-aligned physical address, or CR3) names. -/
def frameOf (e : Word) : Frame := e.extractLsb' 12 52

@[simp] theorem Frame.addr_toNat (f : Frame) : f.addr.toNat = f.toNat * 4096 := by
  have := f.isLt
  simp only [Frame.addr, BitVec.toNat_shiftLeft, BitVec.toNat_setWidth, Nat.shiftLeft_eq]
  omega

@[simp] theorem frameOf_addr (f : Frame) : frameOf f.addr = f := by
  ext i hi
  simp only [frameOf, Frame.addr, BitVec.getElem_extractLsb', BitVec.getLsbD_shiftLeft,
    BitVec.getLsbD_setWidth, BitVec.getLsbD_eq_getElem hi, Nat.add_sub_cancel_left]
  simp only [show 12 + i < 64 by omega, show ¬ (12 + i < 12) by omega, show i < 64 by omega,
    decide_true, decide_false, Bool.not_false, Bool.true_and]

theorem frameOf_toNat (e : Word) : (frameOf e).toNat = e.toNat / 4096 := by
  have := e.isLt
  simp only [frameOf, BitVec.extractLsb'_toNat, Nat.shiftRight_eq_div_pow]
  omega

/-- The present bit of an entry. -/
def present (e : Word) : Bool := e.getLsbD 0

/-- `is_valid_page`: present and writable. -/
def isValidPage (e : Word) : Bool := e &&& 0x03#64 == 0x03#64

/-- The frame a present entry points to. -/
def target (e : Word) : Option Frame := if present e then some (frameOf e) else none

/-- A number below `2^k` has no bit from `k` on. -/
theorem getLsbD_ofNat_of_lt {n k i : Nat} (h : n < 2 ^ k) (hi : k ≤ i) :
    (BitVec.ofNat 64 n).getLsbD i = false := by
  rw [BitVec.getLsbD_ofNat,
    Nat.testBit_eq_false_of_lt (h.trans_le (Nat.pow_le_pow_right (by decide) hi)), Bool.and_false]

theorem isValidPage_iff (e : Word) : isValidPage e = true ↔ e.getLsbD 0 ∧ e.getLsbD 1 := by
  rw [isValidPage, beq_iff_eq]
  constructor
  · intro h
    have h0 := congrArg (fun w => w.getLsbD 0) h
    have h1 := congrArg (fun w => w.getLsbD 1) h
    simpa using And.intro h0 h1
  · rintro ⟨h0, h1⟩
    apply BitVec.eq_of_getLsbD_eq
    intro i hi
    rw [BitVec.getLsbD_and]
    match i with
    | 0 => simp [h0]
    | 1 => simp [h1]
    | i + 2 => rw [getLsbD_ofNat_of_lt (by decide : 3 < 2 ^ 2) (by omega), Bool.and_false]

theorem present_of_isValidPage {e : Word} (h : isValidPage e = true) : present e = true :=
  ((isValidPage_iff e).mp h).1

theorem target_eq_none_iff (e : Word) : target e = none ↔ present e = false := by
  unfold target
  split_ifs with h <;> simp [h]

theorem target_zero : target 0 = none := by decide

/-! ## Entries built by the code -/

/-- The flag words the code puts into entries: present, writable, below bit 12. -/
structure EntryFlags (flags : Word) : Prop where
  valid : isValidPage flags = true
  low : ∀ i, 12 ≤ i → flags.getLsbD i = false

theorem entryFlags_pageKernel : EntryFlags pageKernel :=
  ⟨by decide, fun _ hi => getLsbD_ofNat_of_lt (by decide : 3 < 2 ^ 12) hi⟩

theorem entryFlags_pageUser : EntryFlags pageUser :=
  ⟨by decide, fun _ hi => getLsbD_ofNat_of_lt (by decide : 7 < 2 ^ 12) hi⟩

theorem frameOf_or_flags (p : Word) {flags : Word} (hf : EntryFlags flags) :
    frameOf (p ||| flags) = frameOf p := by
  ext i hi
  simp [frameOf, BitVec.getElem_extractLsb', hf.low (12 + i) (by omega)]

theorem isValidPage_or_flags (p : Word) {flags : Word} (hf : EntryFlags flags) :
    isValidPage (p ||| flags) = true := by
  have := (isValidPage_iff flags).mp hf.valid
  rw [isValidPage_iff]
  simp [this.1, this.2]

theorem target_or_flags (p : Word) {flags : Word} (hf : EntryFlags flags) :
    target (p ||| flags) = some (frameOf p) := by
  rw [target, if_pos (present_of_isValidPage (isValidPage_or_flags p hf)), frameOf_or_flags p hf]

/-! ## Tables in memory -/

/-- The physical address of entry `i` of the table in frame `f`. -/
def entryAddr (f : Frame) (i : Idx) : Nat := f.toNat * 4096 + i.toNat * 8

/-- Physical memory seen as table frames. -/
def entries (mem : Mem) (f : Frame) (i : Idx) : Word := readWord mem (entryAddr f i)

theorem entryAddr_disjoint {f g : Frame} {i j : Idx} (h : ¬ (g = f ∧ j = i)) :
    entryAddr f i + 8 ≤ entryAddr g j ∨ entryAddr g j + 8 ≤ entryAddr f i := by
  have hi := i.isLt
  have hj := j.isLt
  rw [← BitVec.toNat_inj, ← BitVec.toNat_inj] at h
  unfold entryAddr
  omega

/-- A word stored at an entry's address is that entry, and no other entry changes. -/
theorem entries_writeWord (mem : Mem) (f : Frame) (i : Idx) (e : Word) :
    entries (writeWord mem (entryAddr f i) e) = Radix.setEntry (entries mem) f i e := by
  funext g j
  unfold entries Radix.setEntry
  split_ifs with h
  · rw [h.1, h.2, readWord_writeWord_same]
  · exact readWord_writeWord_of_disjoint mem e (entryAddr_disjoint h)

/-! ## Virtual addresses -/

def pml4Idx (v : Word) : Idx := v.extractLsb' 39 9
def pdpIdx (v : Word) : Idx := v.extractLsb' 30 9
def pdIdx (v : Word) : Idx := v.extractLsb' 21 9
def ptIdx (v : Word) : Idx := v.extractLsb' 12 9
def pageOff (v : Word) : BitVec 12 := v.extractLsb' 0 12

/-- The four table indices of the virtual page of `v`. -/
def path (v : Word) : List Idx := [pml4Idx v, pdpIdx v, pdIdx v, ptIdx v]

@[simp] theorem path_length (v : Word) : (path v).length = 4 := rfl

/-- The PML4 slot that points back to the PML4. -/
def selfSlot : Idx := 510#9

/-- The PML4 slot of the kernel image and heap. -/
def kernelSlot : Idx := 511#9

/-- The frame of a virtual page in the address space of PML4 `root`. -/
def translatePage (mem : Mem) (root : Frame) (v : Word) : Option Frame :=
  Radix.walk target (entries mem) root (path v)

/-- The physical address of a virtual address in the address space of PML4 `root`. -/
def translate (mem : Mem) (root : Frame) (v : Word) : Option Nat :=
  (translatePage mem root v).map fun f => f.toNat * 4096 + (pageOff v).toNat

theorem translate_eq_some {mem : Mem} {root f : Frame} {v : Word}
    (h : translatePage mem root v = some f) :
    translate mem root v = some (f.toNat * 4096 + (pageOff v).toNat) := by
  rw [translate, h, Option.map_some]

theorem translate_eq_none {mem : Mem} {root : Frame} {v : Word}
    (h : translatePage mem root v = none) : translate mem root v = none := by
  rw [translate, h, Option.map_none]

theorem translate_congr {mem mem' : Mem} {root root' : Frame} {v : Word}
    (h : translatePage mem' root' v = translatePage mem root v) :
    translate mem' root' v = translate mem root v := by
  rw [translate, h, translate]

theorem pageOff_toNat (v : Word) : (pageOff v).toNat = v.toNat % 4096 := by
  simp [pageOff, BitVec.extractLsb'_toNat]

/-! ## The recursive window -/

def pml4RecAddr (v : Word) : Word := ((v &&& pml4Offset) >>> 36) ||| pml4PtWalk
def pdpeRecAddr (v : Word) : Word := ((v &&& pdpeOffset) >>> 27) ||| pdpePtWalk
def pgdRecAddr (v : Word) : Word := ((v &&& pgdOffset) >>> 18) ||| pgdPtWalk
def pteRecAddr (v : Word) : Word := ((v &&& pteOffset) >>> 9) ||| ptePtWalk

/-- A bit field of a masked, shifted and OR-ed address. -/
theorem extract_recAddr (v mask base : Word) (k a w : Nat) :
    (((v &&& mask) >>> k) ||| base).extractLsb' a w =
      (v.extractLsb' (k + a) w &&& mask.extractLsb' (k + a) w) ||| base.extractLsb' a w := by
  ext i hi
  simp [BitVec.getElem_extractLsb', Nat.add_assoc]

theorem and_511 (x : Idx) : x &&& 511#9 = x := BitVec.and_allOnes

/-- Keeping nine bits from bit 3 on leaves an index times 8. -/
theorem and_ff8_toNat (x : BitVec 12) : (x &&& 0xff8#12).toNat = (x.extractLsb' 3 9).toNat * 8 := by
  have h : x &&& 0xff8#12 = ((x.extractLsb' 3 9).setWidth 12) <<< 3 := by
    ext i hi
    interval_cases i <;> simp
  have := (x.extractLsb' 3 9).isLt
  rw [h, BitVec.toNat_shiftLeft, BitVec.toNat_setWidth, Nat.shiftLeft_eq]
  omega

theorem extract_extract (v : Word) (a b w : Nat) (h : b + w ≤ 12) :
    (v.extractLsb' a 12).extractLsb' b w = v.extractLsb' (a + b) w := by
  ext i hi
  simp only [BitVec.getElem_extractLsb', BitVec.getLsbD_extractLsb', show b + i < 12 by omega,
    decide_true, Bool.true_and, Nat.add_assoc]

theorem path_pml4RecAddr (v : Word) :
    path (pml4RecAddr v) = [selfSlot, selfSlot, selfSlot, selfSlot] := by
  simp only [path, pml4Idx, pdpIdx, pdIdx, ptIdx, pml4RecAddr, extract_recAddr]
  simp [pml4Offset, pml4PtWalk, selfSlot]

theorem path_pdpeRecAddr (v : Word) :
    path (pdpeRecAddr v) = [selfSlot, selfSlot, selfSlot, pml4Idx v] := by
  simp only [path, pml4Idx, pdpIdx, pdIdx, ptIdx, pdpeRecAddr, extract_recAddr]
  simp [pdpeOffset, pdpePtWalk, selfSlot, and_511]

theorem path_pgdRecAddr (v : Word) :
    path (pgdRecAddr v) = [selfSlot, selfSlot, pml4Idx v, pdpIdx v] := by
  simp only [path, pml4Idx, pdpIdx, pdIdx, ptIdx, pgdRecAddr, extract_recAddr]
  simp [pgdOffset, pgdPtWalk, selfSlot, and_511]

theorem path_pteRecAddr (v : Word) :
    path (pteRecAddr v) = [selfSlot, pml4Idx v, pdpIdx v, pdIdx v] := by
  simp only [path, pml4Idx, pdpIdx, pdIdx, ptIdx, pteRecAddr, extract_recAddr]
  simp [pteOffset, ptePtWalk, selfSlot, and_511]

theorem pageOff_recAddr (v mask base : Word) (k : Nat)
    (hm : mask.extractLsb' (k + 0) 12 = 0xff8#12) (hb : base.extractLsb' 0 12 = 0#12) :
    (pageOff (((v &&& mask) >>> k) ||| base)).toNat = (v.extractLsb' (k + 3) 9).toNat * 8 := by
  rw [pageOff, extract_recAddr, hm, hb, BitVec.or_zero, and_ff8_toNat, extract_extract]
  omega

theorem pageOff_pml4RecAddr (v : Word) : (pageOff (pml4RecAddr v)).toNat = (pml4Idx v).toNat * 8 :=
  pageOff_recAddr v _ _ 36 (by decide) (by decide)

theorem pageOff_pdpeRecAddr (v : Word) : (pageOff (pdpeRecAddr v)).toNat = (pdpIdx v).toNat * 8 :=
  pageOff_recAddr v _ _ 27 (by decide) (by decide)

theorem pageOff_pgdRecAddr (v : Word) : (pageOff (pgdRecAddr v)).toNat = (pdIdx v).toNat * 8 :=
  pageOff_recAddr v _ _ 18 (by decide) (by decide)

theorem pageOff_pteRecAddr (v : Word) : (pageOff (pteRecAddr v)).toNat = (ptIdx v).toNat * 8 :=
  pageOff_recAddr v _ _ 9 (by decide) (by decide)

end SBUnix
