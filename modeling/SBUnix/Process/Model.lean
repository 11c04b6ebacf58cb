import SBUnix.Paging.Kernel
import SBUnix.Sched.Model

/-
  Loading a program (`load_elf_vmas` of `sys/elf64.c`, `create_process` of `sys/task.c`).

  Bytes are read and written through the loaded address space, wherever they lie. The structs that
  the two functions put on the kernel heap (`mm_struct`, `vm_area_struct`, `pcb`) are objects of
  their own, as the free list's descriptors are; their pages are taken and mapped. Of the debug
  output only the reads are kept that could fault.
-/

namespace SBUnix

open ByteMem

namespace Kernel

/-- `*p` for a byte. -/
def loadByte (s : Kernel) (p : Word) : Except Fault Byte := do
  let a ← s.phys p
  return s.mem a

/-- `*p = b`. -/
def storeByte (s : Kernel) (p : Word) (b : Byte) : Except Fault Kernel := do
  let a ← s.phys p
  return { s with mem := writeByte s.mem a b }

/-- A little-endian number of `n` bytes at any address. -/
def loadBytes (s : Kernel) (p : Word) : Nat → Except Fault Nat
  | 0 => .ok 0
  | n + 1 => do
    let b ← s.loadByte p
    let rest ← s.loadBytes (p + 1) n
    return b.toNat + 256 * rest

end Kernel

/-! ## `include/sys/mm.h` -/

/-- `enum file_types`. -/
inductive FileTypes where
  | file
  | stack
  | heap
  deriving DecidableEq, Repr

structure VmAreaStruct where
  vmStart : Word
  vmEnd : Word
  vmOffset : Word
  vmType : FileTypes
  deriving DecidableEq, Repr

/-- `mm_struct`, with the areas in the order of their `vm_next` links. -/
structure MmStruct where
  mmap : List VmAreaStruct
  elfHead : Word
  eEntry : Word
  deriving DecidableEq, Repr

def sizeofMmStruct : Word := 176#64
def sizeofVmAreaStruct : Word := 56#64
def sizeofPcb : Word := 4176#64

/-- `kmalloc_user` for a struct that is filled in at once: null is not mapped. -/
def kmallocStruct (size : Word) (s : Kernel) : Except Fault Kernel := do
  let (p, s) ← kmallocUser size s
  if p = 0 then .error .nullDeref else return s

/-! ## `load_elf_vmas` -/

/-- The address of program header `i`. -/
def phdrAddr (ehdr : Word) (i : Nat) (s : Kernel) : Except Fault Word := do
  let e_phoff ← s.loadBytes (ehdr + 32) 8
  return ehdr + BitVec.ofNat 64 e_phoff + BitVec.ofNat 64 (56 * i)

/-- The area of a `PT_LOAD` header. -/
def fileArea (phdr : Word) (s : Kernel) : Except Fault VmAreaStruct := do
  let p_vaddr ← s.loadBytes (phdr + 16) 8
  let p_memsz ← s.loadBytes (phdr + 40) 8
  let p_offset ← s.loadBytes (phdr + 8) 8
  return ⟨BitVec.ofNat 64 p_vaddr, BitVec.ofNat 64 p_vaddr + BitVec.ofNat 64 p_memsz,
    BitVec.ofNat 64 p_offset, .file⟩

/-- The loop over the program headers from `i` on. -/
def vmasLoop (ehdr : Word) : Nat → Nat → List VmAreaStruct → Kernel →
    Except Fault (List VmAreaStruct × Kernel)
  | 0, _, _, _ => .error .diverges
  | fuel + 1, i, vmas, s => do
    let e_phnum ← s.loadBytes (ehdr + 56) 2
    if i < e_phnum then
      let phdr ← phdrAddr ehdr i s
      let p_type ← s.loadBytes phdr 4
      if p_type = 1 then
        let s ← kmallocStruct sizeofVmAreaStruct s
        let vma ← fileArea phdr s
        vmasLoop ehdr fuel (i + 1) (vmas ++ [vma]) s
      else vmasLoop ehdr fuel (i + 1) vmas s
    else return (vmas, s)

def loadElfVmas (ehdr : Word) (s : Kernel) : Except Fault (MmStruct × Kernel) := do
  let s ← kmallocStruct sizeofMmStruct s
  let (vmas, s) ← vmasLoop ehdr (2 ^ 16) 0 [] s
  let s ← kmallocStruct sizeofVmAreaStruct s
  let s ← kmallocStruct sizeofVmAreaStruct s
  let e_entry ← s.loadBytes (ehdr + 24) 8
  return (⟨vmas ++ [⟨0, 0, 0, .stack⟩, ⟨0, 0, 0, .heap⟩], ehdr, BitVec.ofNat 64 e_entry⟩, s)

/-! ## `create_process` -/

/-- The copy loop. -/
def copyLoop : Nat → Word → Word → Kernel → Except Fault Kernel
  | 0, _, _, s => .ok s
  | n + 1, address, offset, s => do
    let b ← s.loadByte offset
    let s ← s.storeByte address b
    copyLoop n (address + 1) (offset + 1) s

/-- A `TYPE_FILE` area, in the address space of the process. `elf_head` is a `uint64_t *`, so the
    offset counts words. Two bytes of the copy are printed. -/
def createFileArea (process_cr3 old_cr3 elf_head : Word) (temp : VmAreaStruct) (s : Kernel) :
    Except Fault Kernel := do
  let s := s.setCr3 process_cr3
  let vm_start := pageAlign temp.vmStart
  let vm_size := roundUp (temp.vmEnd - vm_start)
  let (v_addr, s) ← kmallocTopVirtualAddressUser vm_size vm_start s
  let s ← copyLoop vm_size.toNat v_addr (elf_head + 8 * temp.vmOffset) s
  let _ ← s.loadByte (v_addr + 1)
  let _ ← s.loadByte (v_addr + 2)
  return s.setCr3 old_cr3

/-- A `TYPE_STACK` area: returns `pstack`. A word of the stack is printed. -/
def createStackArea (process_cr3 old_cr3 : Word) (s : Kernel) : Except Fault (Word × Kernel) := do
  let s := s.setCr3 process_cr3
  let stack_top := s.pagingUserStackTop
  let (_, s) ← kmallocTopVirtualAddressUser pageSize (stack_top - pageSize + 8) s
  let pstack := stack_top - 64
  let _ ← s.loadBytes (pstack - 800) 8
  return (pstack, s.setCr3 old_cr3)

/-- The loop over the areas: returns them with the stack's filled in. -/
def createAreas (process_cr3 old_cr3 elf_head : Word) : List VmAreaStruct → Pcb → Kernel →
    Except Fault (List VmAreaStruct × Pcb × Kernel)
  | [], pcb, s => .ok ([], pcb, s)
  | temp :: areas, pcb, s =>
    match temp.vmType with
    | .file => do
      let s ← createFileArea process_cr3 old_cr3 elf_head temp s
      let (areas, pcb, s) ← createAreas process_cr3 old_cr3 elf_head areas pcb s
      return (temp :: areas, pcb, s)
    | .stack => do
      let (pstack, s) ← createStackArea process_cr3 old_cr3 s
      let temp := { temp with vmStart := pstack, vmEnd := pstack + 8 * (512 * 3 - 1) }
      let (areas, pcb, s) ←
        createAreas process_cr3 old_cr3 elf_head areas { pcb with pstack := pstack } s
      return (temp :: areas, pcb, s)
    | .heap => do
      let (areas, pcb, s) ← createAreas process_cr3 old_cr3 elf_head areas pcb s
      return (temp :: areas, pcb, s)

/-- A `pcb` in fresh memory. -/
def zeroPcb : Pcb := ⟨fun _ => 0, 0, 0, 0, 0, .running, 0, 0, 0, .user⟩

def createProcess (head : MmStruct) (s : Kernel) : Except Fault (Pcb × MmStruct × Kernel) := do
  let s ← kmallocStruct sizeofPcb s
  let (process_cr3, s) ← s.takeFrame
  let (_, s) ← createNewUserPml4 process_cr3 s
  let old_cr3 := s.cr3
  let pcb := { zeroPcb with cr3 := process_cr3, eEntry := head.eEntry }
  let (areas, pcb, s) ← createAreas process_cr3 old_cr3 head.elfHead head.mmap pcb s
  return (pcb, { head with mmap := areas }, s)

end SBUnix
