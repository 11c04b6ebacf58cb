import Mathlib

/-
  Constants and address arithmetic of `include/sys/paging.h`, `include/sys/defs.h` and
  `sys/paging.c`. A `uint64_t` is a `Word`; all arithmetic on it wraps at 2^64 as in C.
-/

namespace SBUnix

/-- `uint64_t`. -/
abbrev Word := BitVec 64

/-- What stops the code: an address no page table maps, a word that would span two pages,
    memory read as a free-list descriptor where there is none, a null descriptor, or a loop
    that does not end. -/
inductive Fault where
  | pageFault (v : Word)
  | crossing (v : Word)
  | strayRead (p : Word)
  | nullDeref
  | diverges
  deriving DecidableEq, Repr

/-- A computation in sequence succeeds when both parts do. -/
theorem bind_eq_ok {ε α β : Type} {x : Except ε α} {f : α → Except ε β} {b : β} :
    (x >>= f) = .ok b ↔ ∃ a, x = .ok a ∧ f a = .ok b := by
  cases x with
  | error e => simp [bind, Except.bind]
  | ok a => simp [bind, Except.bind]

@[simp] theorem ok_bind {ε α β : Type} (a : α) (f : α → Except ε β) :
    (Except.ok a >>= f) = f a := rfl

/-! ## `defs.h` and `paging.h` -/

def kernbase : Word := 0xffffffff80000000#64

def pageSize : Word := 4096#64

/-- `ALLOCATED`, the status of a descriptor that was handed out. -/
def allocated : Word := 1#64

/-- `PAGE_KERNEL`: present and writable. -/
def pageKernel : Word := 0x3#64

/-- `PAGE_USER`: present, writable and open to user mode. -/
def pageUser : Word := 0x7#64

def pml4PtWalk : Word := 0xffffff7fbfdfe000#64
def pdpePtWalk : Word := 0xffffff7fbfc00000#64
def pgdPtWalk : Word := 0xffffff7f80000000#64
def ptePtWalk : Word := 0xffffff0000000000#64

def pml4Offset : Word := 0x0000ff8000000000#64
def pdpeOffset : Word := 0x0000ffffc0000000#64
def pgdOffset : Word := 0x0000ffffffe00000#64
def pteOffset : Word := 0x0000fffffffff000#64

/-! ## Rounding -/

def pageAlign (addr : Word) : Word := addr / 0x1000#64 * 0x1000#64

def roundUp (addr : Word) : Word :=
  if addr % pageSize ≠ 0 then addr / 0x1000#64 * 0x1000#64 + 0x1000#64
  else addr / 0x1000#64 * 0x1000#64

theorem pageAlign_toNat (addr : Word) : (pageAlign addr).toNat = addr.toNat / 4096 * 4096 := by
  have := addr.isLt
  simp only [pageAlign, BitVec.toNat_mul, BitVec.toNat_udiv, BitVec.toNat_ofNat, Nat.reducePow,
    Nat.reduceMod]
  omega

theorem ne_zero_iff_toNat (w : Word) : w ≠ 0 ↔ w.toNat ≠ 0 := by
  rw [Ne, ← BitVec.toNat_inj]
  rfl

/-- Below the last page, `round_up` is the least page boundary at or above the address. -/
theorem roundUp_toNat (addr : Word) (h : addr.toNat + 4095 < 2 ^ 64) :
    (roundUp addr).toNat = (addr.toNat + 4095) / 4096 * 4096 := by
  have := addr.isLt
  have hmod : (addr % pageSize).toNat = addr.toNat % 4096 := BitVec.toNat_umod
  unfold roundUp
  split_ifs with h0 <;> rw [ne_zero_iff_toNat, hmod] at h0 <;>
    simp only [BitVec.toNat_add, BitVec.toNat_mul, BitVec.toNat_udiv, BitVec.toNat_ofNat,
      Nat.reducePow, Nat.reduceMod] <;>
    omega

end SBUnix
