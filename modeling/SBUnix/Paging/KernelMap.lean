import SBUnix.Paging.Boot
import SBUnix.Paging.Mmu

/-
  The kernel's first page tables (`create_kernel_pml4`, `map_all_kernel_pages` and the lines of
  `start` around them).

  They are written under the loader's page tables, through the addresses from `KERNBASE` on, and
  their frames come from `get_next_free_page`. So tables, descriptors and kernel are bytes of the
  same memory.
-/

namespace SBUnix

open ByteMem

def toVirtual (phyAdd : Word) : Word :=
  if phyAdd < kernbase then kernbase + pageAlign phyAdd else phyAdd

/-- `table[offset]`. -/
def tableEntry (m : Mem) (table offset : Word) : Word := readWord m (bootPhys (table + 8 * offset))

/-- `table[offset] = e`. -/
def FreeList.setTableEntry (l : FreeList Mem) (table offset e : Word) : FreeList Mem :=
  { l with descs := writeWord l.descs (bootPhys (table + 8 * offset)) e }

/-- What `create_kernel_pml4` sets and returns: `kernel_cr3` and `kernel_pml4_t`. -/
def createKernelPml4 (l : FreeList Mem) : Except Fault (Word × Word × FreeList Mem) := do
  let (pml4, l) ← getNextFreePage l
  let kernelPml4 := kernbase + pml4
  return (pml4, kernelPml4, l.setTableEntry kernelPml4 510 (pml4 ||| pageKernel))

/-! ## `map_all_kernel_pages` -/

def pml4OffsetOf (vAddr : Word) : Word := (vAddr >>> 39) &&& 0x1ff#64
def pdpeOffsetOf (vAddr : Word) : Word := (vAddr >>> 30) &&& 0x1ff#64
def pgdOffsetOf (vAddr : Word) : Word := (vAddr >>> 21) &&& 0x1ff#64
def pteOffsetOf (vAddr : Word) : Word := (vAddr >>> 12) &&& 0x1ff#64

/-- Take a frame and hang it into `table[offset]`. -/
def newTable (table offset : Word) (l : FreeList Mem) : Except Fault (Word × FreeList Mem) := do
  let (base, l) ← getNextFreePage l
  return (base, l.setTableEntry table offset (base ||| pageKernel))

/-- The branch without a page table. -/
def mapWithoutPte (pgd vAddr pAddr : Word) (l : FreeList Mem) : Except Fault (FreeList Mem) := do
  let (pteBaseAdd, l) ← newTable pgd (pgdOffsetOf vAddr) l
  return l.setTableEntry (toVirtual pteBaseAdd) (pteOffsetOf vAddr) (pAddr ||| pageKernel)

/-- The branch without a page directory. -/
def mapWithoutPgd (pdpe vAddr pAddr : Word) (l : FreeList Mem) : Except Fault (FreeList Mem) := do
  let (pgdBaseAdd, l) ← newTable pdpe (pdpeOffsetOf vAddr) l
  mapWithoutPte (toVirtual pgdBaseAdd) vAddr pAddr l

/-- The branch without a page directory pointer table. -/
def mapWithoutPdpe (kernelPml4 vAddr pAddr : Word) (l : FreeList Mem) :
    Except Fault (FreeList Mem) := do
  let (pdpeBaseAdd, l) ← newTable kernelPml4 (pml4OffsetOf vAddr) l
  mapWithoutPgd (toVirtual pdpeBaseAdd) vAddr pAddr l

/-- A round of the loop. -/
def mapKernelPage (kernelPml4 vAddr pAddr : Word) (l : FreeList Mem) :
    Except Fault (FreeList Mem) :=
  let pdpeBaseAdd := tableEntry l.descs kernelPml4 (pml4OffsetOf vAddr)
  if isValidPage pdpeBaseAdd then
    let pgdBaseAdd := tableEntry l.descs (toVirtual pdpeBaseAdd) (pdpeOffsetOf vAddr)
    if isValidPage pgdBaseAdd then
      let pteBaseAdd := tableEntry l.descs (toVirtual pgdBaseAdd) (pgdOffsetOf vAddr)
      if isValidPage pteBaseAdd then
        .ok (l.setTableEntry (toVirtual pteBaseAdd) (pteOffsetOf vAddr) (pAddr ||| pageKernel))
      else mapWithoutPte (toVirtual pgdBaseAdd) vAddr pAddr l
    else mapWithoutPgd (toVirtual pdpeBaseAdd) vAddr pAddr l
  else mapWithoutPdpe kernelPml4 vAddr pAddr l

/-- The loop, with its end included. -/
def mapKernelPagesLoop (kernelPml4 vAddrEnd : Word) :
    Nat → Word → Word → FreeList Mem → Except Fault (FreeList Mem)
  | 0, _, _, _ => .error .diverges
  | fuel + 1, vAddr, pAddr, l =>
    if vAddr ≤ vAddrEnd then do
      let l ← mapKernelPage kernelPml4 vAddr pAddr l
      mapKernelPagesLoop kernelPml4 vAddrEnd fuel (pageSize + vAddr) (pageSize + pAddr) l
    else .ok l

def mapAllKernelPages (vAddrStart vAddrEnd pAddrStart kernelPml4 : Word) (l : FreeList Mem) :
    Except Fault (FreeList Mem) :=
  mapKernelPagesLoop kernelPml4 vAddrEnd loopFuel (pageAlign vAddrStart) (pageAlign pAddrStart) l

/-! ## `start` -/

/-- `kernel_cr3` and the free list when CR3 is loaded, and the address that
    `set_top_virtual_address` gets. -/
structure Paged where
  kernelCr3 : Word
  topVirtualAddress : Word
  list : FreeList Mem

/-- `start` between `set_free_list_head` and `set_top_virtual_address`. -/
def startPaging (physbase physfree freeListPageLength : Word) (l : FreeList Mem) :
    Except Fault Paged := do
  let (kernelCr3, kernelPml4, l) ← createKernelPml4 l
  let l ← mapAllKernelPages (kernbase + physbase)
    (kernbase + physfree + (freeListPageLength * pageSize + 10 * pageSize)) physbase kernelPml4 l
  let l ← mapAllKernelPages (kernbase + 0xb8000#64) (kernbase + 0xb8000#64 + pageSize) 0xb8000#64
    kernelPml4 l
  return ⟨kernelCr3, kernbase + physfree + freeListPageLength * pageSize + 200 * pageSize, l⟩

end SBUnix
