import SBUnix.Paging.FreeList

/-
  The kernel's paging state and the functions of `sys/paging.c` that run once CR3 is loaded.

  `load` and `store` are the CPU's word accesses through the loaded address space; what a
  `Kernel` computes with is therefore decided by the tables it is changing. The descriptors
  of the free list are objects of their own (`DescStore`). Functions that differ in a flag
  word, or in which walk they call, are one definition with that as a parameter, and each
  keeps its own name.
-/

namespace SBUnix

open ByteMem

/-- Physical memory, CR3 and the globals of `sys/paging.c`. -/
structure Kernel where
  mem : Mem
  cr3 : Word
  freeList : FreeList DescStore
  topVirtualAddress : Word
  kernelPml4T : Word
  pagingUserStackTop : Word

namespace Kernel

/-- The PML4 frame that CR3 names. -/
def root (s : Kernel) : Frame := frameOf s.cr3

/-- The physical address of a virtual address in the loaded address space. -/
def phys (s : Kernel) (v : Word) : Except Fault Nat :=
  match translate s.mem s.root v with
  | none => .error (.pageFault v)
  | some a => .ok a

/-- Read the 64-bit word at `v`. -/
def load (s : Kernel) (v : Word) : Except Fault Word :=
  if (pageOff v).toNat ≤ 4088 then do
    let a ← s.phys v
    return readWord s.mem a
  else .error (.crossing v)

/-- Write the 64-bit word at `v`. -/
def store (s : Kernel) (v w : Word) : Except Fault Kernel :=
  if (pageOff v).toNat ≤ 4088 then do
    let a ← s.phys v
    return { s with mem := writeWord s.mem a w }
  else .error (.crossing v)

def setCr3 (s : Kernel) (pml4 : Word) : Kernel := { s with cr3 := pml4 }

/-- `get_next_free_page_kmalloc` on the kernel's free list. -/
def takeFrame (s : Kernel) : Except Fault (Word × Kernel) := do
  let (p, fl) ← getNextFreePageKmalloc s.freeList
  return (p, { s with freeList := fl })

end Kernel

/-! ## `page_walk` and `page_walk_user` -/

/-- The common body of `page_walk` and `page_walk_user`, which differ in the flag word only. -/
def walkAndMap (flags pAddr vAddr : Word) (s : Kernel) : Except Fault (Word × Kernel) := do
  if isValidPage (← s.load (pml4RecAddr vAddr)) then
    if isValidPage (← s.load (pdpeRecAddr vAddr)) then
      if isValidPage (← s.load (pgdRecAddr vAddr)) then
        if isValidPage (← s.load (pteRecAddr vAddr)) then
          return (0, s)
        else
          let s ← s.store (pteRecAddr vAddr) (pAddr ||| flags)
          return (1, s)
      else
        let (physicalPage, s) ← s.takeFrame
        let s ← s.store (pgdRecAddr vAddr) (physicalPage ||| flags)
        let s ← s.store (pteRecAddr vAddr) (pAddr ||| flags)
        return (1, s)
    else
      let (physicalPage, s) ← s.takeFrame
      let s ← s.store (pdpeRecAddr vAddr) (physicalPage ||| flags)
      let (physicalPage, s) ← s.takeFrame
      let s ← s.store (pgdRecAddr vAddr) (physicalPage ||| flags)
      let s ← s.store (pteRecAddr vAddr) (pAddr ||| flags)
      return (1, s)
  else
    let (physicalPage, s) ← s.takeFrame
    let s ← s.store (pml4RecAddr vAddr) (physicalPage ||| flags)
    let (physicalPage, s) ← s.takeFrame
    let s ← s.store (pdpeRecAddr vAddr) (physicalPage ||| flags)
    let (physicalPage, s) ← s.takeFrame
    let s ← s.store (pgdRecAddr vAddr) (physicalPage ||| flags)
    let s ← s.store (pteRecAddr vAddr) (pAddr ||| flags)
    return (1, s)

def pageWalk : Word → Word → Kernel → Except Fault (Word × Kernel) := walkAndMap pageKernel

def pageWalkUser : Word → Word → Kernel → Except Fault (Word × Kernel) := walkAndMap pageUser

/-! ## The `kmalloc` family -/

/-- Pages in `size` bytes, rounded up. -/
def noOfPages (size : Word) : Word :=
  if size % pageSize ≠ 0 then 1 + size / pageSize else size / pageSize

/-- The loop of the `kmalloc` family: map `n` more pages from `vAddr` on, one fresh frame each,
    and `advance` the kernel's own top address with every page. -/
def kmallocLoop (walk : Word → Word → Kernel → Except Fault (Word × Kernel))
    (advance : Kernel → Kernel) (top : Word) : Nat → Word → Kernel → Except Fault (Word × Kernel)
  | 0, _, s => .ok (top, s)
  | n + 1, vAddr, s => do
    let (pAddr, s) ← s.takeFrame
    if pAddr = 0 then return (0, s)
    let (result, s) ← walk pAddr vAddr s
    if result = 0 then return (0, s)
    kmallocLoop walk advance top n (pageSize + vAddr) (advance s)

/-- `top_virtual_address += PAGESIZE`. -/
def Kernel.advanceTop (s : Kernel) : Kernel :=
  { s with topVirtualAddress := pageSize + s.topVirtualAddress }

def kmalloc (size : Word) (s : Kernel) : Except Fault (Word × Kernel) :=
  kmallocLoop pageWalk Kernel.advanceTop s.topVirtualAddress (noOfPages size).toNat
    s.topVirtualAddress s

/-- As `kmalloc`, with user pages and one page more. -/
def kmallocUser (size : Word) (s : Kernel) : Except Fault (Word × Kernel) :=
  kmallocLoop pageWalkUser Kernel.advanceTop s.topVirtualAddress (1 + noOfPages size).toNat
    s.topVirtualAddress s

/-- As `kmalloc`, from a top address of the caller's. -/
def kmallocTopVirtualAddressKernel (size newTop : Word) (s : Kernel) :
    Except Fault (Word × Kernel) :=
  kmallocLoop pageWalk id newTop (noOfPages size).toNat newTop s

/-- As `kmalloc_user`, from a top address of the caller's and without the extra page. -/
def kmallocTopVirtualAddressUser (size userTop : Word) (s : Kernel) :
    Except Fault (Word × Kernel) :=
  kmallocLoop pageWalkUser id userTop (noOfPages size).toNat userTop s

/-! ## New address spaces -/

/-- The common body of `create_new_kernel_pml4` and `create_new_user_pml4`: map the frame at the
    heap top and fill in slots 511 and 510 through that mapping. -/
def createNewPml4 (flags : Word) (pAddr : Word) (s : Kernel) : Except Fault (Word × Kernel) := do
  let vAddr := s.topVirtualAddress
  let (result, s) ← walkAndMap flags pAddr vAddr s
  if result = 0 then return (0, s)
  let s := s.advanceTop
  let kernelEntry ← s.load (511 * 8 + s.kernelPml4T)
  let s ← s.store (511 * 8 + vAddr) kernelEntry
  let s ← s.store (510 * 8 + vAddr) (pAddr ||| flags)
  return (vAddr, s)

def createNewKernelPml4 : Word → Kernel → Except Fault (Word × Kernel) := createNewPml4 pageKernel

def createNewUserPml4 : Word → Kernel → Except Fault (Word × Kernel) := createNewPml4 pageUser

end SBUnix
