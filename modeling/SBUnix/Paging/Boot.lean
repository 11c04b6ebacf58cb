import SBUnix.Lib.ByteMem
import SBUnix.Paging.FreeList

/-
  Building the free list at boot (`sys/paging.c`, `sys/mm.c`, the memory-map loop of `start`).

  The page tables are still the loader's: an address below `KERNBASE` names the physical byte of
  that number, and `KERNBASE + a` names byte `a`. The descriptors lie in the memory they describe,
  from `round_up(physfree)` on, so everything here works on bytes.
-/

namespace SBUnix

open ByteMem

/-- Physical memory and the globals that `append_free_list` works on. -/
structure Boot where
  mem : Mem
  freeList : Word
  freeListTotalPages : Word

/-- The physical address of `v` under the loader's page tables. -/
def bootPhys (v : Word) : Nat := if kernbase ≤ v then (v - kernbase).toNat else v.toNat

/-- `sizeof(Page)`. -/
def sizeofPage : Word := 24#64

/-- More rounds than any loop over `uint64_t` addresses makes before it repeats itself. -/
def loopFuel : Nat := 2 ^ 64

/-- `memset`. -/
def memset (ptr : Word) (val : Byte) : Nat → Mem → Mem
  | 0, m => m
  | size + 1, m => memset (ptr + 1) val size (writeByte m (bootPhys ptr) val)

namespace Boot

/-- `temp->next`. -/
def getNext (s : Boot) (temp : Word) : Except Fault Word :=
  if temp = 0 then .error .nullDeref else .ok (readWord s.mem (bootPhys temp))

/-- `temp->next = v`. -/
def setNext (s : Boot) (temp v : Word) : Except Fault Boot :=
  if temp = 0 then .error .nullDeref
  else .ok { s with mem := writeWord s.mem (bootPhys temp) v }

/-- `temp->p_addr = v`. -/
def setPAddr (s : Boot) (temp v : Word) : Except Fault Boot :=
  if temp = 0 then .error .nullDeref
  else .ok { s with mem := writeWord s.mem (bootPhys (16#64 + temp)) v }

/-- The two `memset` calls of a round: frame `i` under both of its addresses. The count is
    `PAGESIZE/8`, but `memset` counts bytes. -/
def clearFrame (s : Boot) (i : Word) : Boot :=
  let m := memset i 0 (pageSize / 8).toNat s.mem
  { s with mem := memset (kernbase + i) 0 (pageSize / 8).toNat m }

def countPage (s : Boot) : Boot := { s with freeListTotalPages := s.freeListTotalPages + 1 }

end Boot

def initializeFreeList (m : Mem) : Boot := ⟨m, 0, 0⟩

/-- The loop of the first region, over `[i, stop)`: returns `last`. -/
def firstRegionLoop (stop : Word) : Nat → Word → Word → Word → Boot → Except Fault (Word × Boot)
  | 0, _, _, _, _ => .error .diverges
  | fuel + 1, i, temp, last, s =>
    if i < stop then do
      let s ← (s.clearFrame i).setPAddr temp i
      let s ← s.setNext temp (sizeofPage + temp)
      let next ← s.getNext temp
      firstRegionLoop stop fuel (pageSize + i) next temp s.countPage
    else .ok (last, s)

/-- `while(temp->next != NULL) temp = temp->next`. -/
def lastNode (s : Boot) : Nat → Word → Except Fault Word
  | 0, _ => .error .diverges
  | fuel + 1, temp => do
    let next ← s.getNext temp
    if next ≠ 0 then lastNode s fuel next else .ok temp

/-- The loop of a later region, over `[i, stop]`: returns `last`. -/
def laterRegionLoop (stop : Word) : Nat → Word → Word → Word → Boot → Except Fault (Word × Boot)
  | 0, _, _, _, _ => .error .diverges
  | fuel + 1, i, temp, last, s =>
    if i ≤ stop then do
      let s ← s.setNext temp (sizeofPage + temp)
      let temp ← s.getNext temp
      let s ← (s.clearFrame i).setPAddr temp i
      laterRegionLoop stop fuel (pageSize + i) temp temp s.countPage
    else .ok (last, s)

def appendFreeList (start stop physfree : Word) (s : Boot) : Except Fault Boot :=
  let start := roundUp start
  let stop := roundUp stop
  let physfree := roundUp physfree
  if s.freeList = 0 then
    if start ≤ physfree ∧ physfree ≤ stop then do
      let (last, s) ← firstRegionLoop stop loopFuel physfree physfree 0
        { s with freeList := physfree }
      s.setNext last 0
    else .ok s
  else if physfree ≤ start then do
    let temp ← lastNode s loopFuel s.freeList
    let (last, s) ← laterRegionLoop stop loopFuel start temp temp s
    s.setNext last 0
  else .ok s

/-- An entry of the loader's memory map. -/
structure Smap where
  base : Word
  length : Word
  type : BitVec 32
  deriving DecidableEq, Repr

/-- Memory, and not empty. -/
def Smap.IsUsable (r : Smap) : Prop := r.type = 1 ∧ r.length ≠ 0

instance (r : Smap) : Decidable r.IsUsable := inferInstanceAs (Decidable (_ ∧ _))

/-- The memory-map loop of `start`. -/
def appendRegions (physfree : Word) (map : List Smap) (s : Boot) : Except Fault Boot :=
  map.foldlM (fun s r =>
    if r.IsUsable then appendFreeList r.base (r.base + r.length) physfree s else .ok s) s

/-- What `start` does with a memory map. -/
def buildFreeList (m : Mem) (physfree : Word) (map : List Smap) : Except Fault Boot :=
  appendRegions physfree map (initializeFreeList m)

/-! ## Handing the list over -/

/-- The loop of `set_free_list_head`. -/
def skipPages (s : Boot) : Nat → Word → Except Fault Word
  | 0, temp => .ok temp
  | n + 1, temp => do
    let next ← s.getNext temp
    skipPages s n next

/-- `free_list_pages_reqd`: the pages that the descriptors fill. -/
def pagesReqd (total : Word) : Word :=
  let size := total * sizeofPage
  if size % pageSize ≠ 0 then size / pageSize + 1 else size / pageSize

/-- `set_free_list_head`: the list to allocate from, `free_list_page_length` and the new
    `free_list_total_pages`. -/
def setFreeListHead (s : Boot) : Except Fault (FreeList Mem × Word × Word) := do
  let reqd := pagesReqd s.freeListTotalPages
  let temp ← skipPages s reqd.toNat s.freeList
  return (⟨s.mem, temp, 0⟩, reqd, s.freeListTotalPages - reqd)

/-- Descriptors in memory. Address 0 is no descriptor: boot code tests for it, and the kernel's own
    page tables do not map it. -/
instance : DescMem Mem where
  page m p :=
    if p = 0 then none
    else some ⟨readWord m (bootPhys p), readWord m (bootPhys (8#64 + p)),
      readWord m (bootPhys (16#64 + p))⟩
  setStatus m p w := writeWord m (bootPhys (8#64 + p)) w

/-! ## Addresses -/

theorem bootPhys_low {v : Word} (h : v.toNat < 2 ^ 64 - 2 ^ 31) : bootPhys v = v.toNat := by
  have hk := kernbase_toNat
  rw [bootPhys, if_neg]
  rw [BitVec.le_def]
  omega

/-- The second address of a frame is the frame itself below 2 GiB, and the frame 2 GiB lower
    above. -/
theorem bootPhys_alias {v : Word} (h : v.toNat < 2 ^ 64 - 2 ^ 31) :
    bootPhys (kernbase + v) = if v.toNat < 2 ^ 31 then v.toNat else v.toNat - 2 ^ 31 := by
  have hk := kernbase_toNat
  have hv := v.isLt
  have hadd : (kernbase + v).toNat = (2 ^ 64 - 2 ^ 31 + v.toNat) % 2 ^ 64 := by
    rw [BitVec.toNat_add, hk]
  split_ifs with hlow
  · rw [bootPhys, if_pos, add_sub_cancel_left]
    rw [BitVec.le_def]
    omega
  · rw [bootPhys, if_neg]
    · omega
    · rw [BitVec.le_def]
      omega

/-- Inside a page, physical addresses go with virtual ones. -/
theorem bootPhys_add {p : Word} (hp : p.toNat % 4096 = 0) {k : Nat} (hk : k < 4096) :
    bootPhys (p + BitVec.ofNat 64 k) = bootPhys p + k := by
  have hk' := kernbase_toNat
  have hlt := p.isLt
  have hadd : (p + BitVec.ofNat 64 k).toNat = p.toNat + k := by
    rw [BitVec.toNat_add, BitVec.toNat_ofNat]
    omega
  unfold bootPhys
  by_cases h : kernbase ≤ p
  · have hle := BitVec.le_def.mp h
    rw [if_pos h, if_pos (BitVec.le_def.mpr (by omega)), BitVec.toNat_sub_of_le h,
      BitVec.toNat_sub_of_le (BitVec.le_def.mpr (by omega))]
    omega
  · have hlt' : p.toNat < kernbase.toNat := by
      rw [BitVec.le_def] at h
      omega
    rw [if_neg h, if_neg]
    · exact hadd
    · rw [BitVec.le_def]
      omega

/-- `memset` inside a page fills physical bytes. -/
theorem memset_eq (p : Word) (hp : p.toNat % 4096 = 0) (val : Byte) (m : Mem) {k n : Nat}
    (hn : k + n ≤ 4096) :
    memset (p + BitVec.ofNat 64 k) val n m = fill m (bootPhys p + k) n val := by
  induction n generalizing k m with
  | zero =>
    funext x
    rw [fill, if_neg (by omega)]
    rfl
  | succ n ih =>
    have hstep : p + BitVec.ofNat 64 k + 1 = p + BitVec.ofNat 64 (k + 1) := by
      rw [add_assoc]
      congr 1
      exact (BitVec.ofNat_add k 1).symm
    rw [memset, hstep, ih (k := k + 1) _ (by omega), bootPhys_add hp (by omega)]
    funext x
    unfold fill writeByte
    by_cases hx : x = bootPhys p + k
    · rw [if_neg (by omega), if_pos hx, if_pos (by omega)]
    · by_cases hin : bootPhys p + (k + 1) ≤ x ∧ x < bootPhys p + (k + 1) + n
      · rw [if_pos hin, if_pos (by omega)]
      · rw [if_neg hin, if_neg hx, if_neg (by omega)]

/-- The frame that the second `memset` of frame `i` hits. -/
def aliasFrame (i : Nat) : Nat := if i < 2 ^ 31 then i else i - 2 ^ 31

/-- A round clears the first 512 bytes of frame `i`, and of the frame 2 GiB below it. -/
theorem clearFrame_eq (s : Boot) {i : Word} (hi : i.toNat % 4096 = 0)
    (hlow : i.toNat < 2 ^ 64 - 2 ^ 31) :
    s.clearFrame i =
      { s with mem := fill (fill s.mem i.toNat 512 0) (aliasFrame i.toNat) 512 0 } := by
  have hk := kernbase_toNat
  have halign : (kernbase + i).toNat % 4096 = 0 := by
    rw [BitVec.toNat_add, hk]
    omega
  have h512 : (pageSize / 8).toNat = 512 := by decide
  have h1 := memset_eq i hi 0 s.mem (k := 0) (n := 512) (by omega)
  have h2 := memset_eq (kernbase + i) halign 0 (fill s.mem i.toNat 512 0) (k := 0) (n := 512)
    (by omega)
  rw [show BitVec.ofNat 64 0 = 0 from rfl, add_zero, add_zero] at h1 h2
  rw [bootPhys_low hlow] at h1
  rw [bootPhys_alias hlow] at h2
  unfold Boot.clearFrame aliasFrame
  dsimp only
  rw [h512, h1, h2]

end SBUnix
