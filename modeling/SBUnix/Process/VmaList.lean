import SBUnix.Lib.Linked
import SBUnix.Process.Model

/-
  The list of areas as `load_elf_vmas` links it.

  Here an area is a `vm_area_struct` in memory and `vm_next` an address, which `Process/Model.lean`
  leaves out. `kmalloc_user` is given by the addresses it returns, one for each call; what lies
  there is arbitrary. The loop keeps a head and a last area, and while the head is `NULL` the next
  area becomes both. So as long as the addresses are new, the links lead from the head through one
  area for each `PT_LOAD` header, in the order of the table, and the two behind it
  (`loadElfVmas_list`).
-/

namespace SBUnix.Vma

open ByteMem Linked

/-! ## `sys/elf64.c` -/

/-- `PT_LOAD`. -/
def ptLoad : BitVec 32 := 1

/-- `Elf64_Phdr`. -/
structure Elf64Phdr where
  pType : BitVec 32
  pOffset : Word
  pVaddr : Word
  pMemsz : Word

/-- `Elf64_Ehdr`, and the program headers at its `e_phoff`. -/
structure Elf64Ehdr where
  ePhnum : BitVec 16
  eEntry : Word
  phdr : Nat → Elf64Phdr

/-- The loop of `check_elf_loadable`, with the number of headers that are left. -/
def loadableLoop (ehdr : Elf64Ehdr) : Nat → Nat → Nat
  | 0, _ => 0
  | n + 1, i => if (ehdr.phdr i).pType = ptLoad then 1 else loadableLoop ehdr n (i + 1)

def checkElfLoadable (ehdr : Elf64Ehdr) : Nat := loadableLoop ehdr ehdr.ePhnum.toNat 0

/-- `vm_area_struct`. -/
structure Area where
  vmStart : Word
  vmEnd : Word
  vmOffset : Word
  vmType : FileTypes
  vmNext : Word

/-- `mm_struct`. -/
structure Mm where
  mmap : Word
  elfHead : Word
  eEntry : Word

/-- The structs by address, and the number of calls of `kmalloc_user` so far. -/
structure Heap where
  area : Word → Area
  mm : Word → Mm
  calls : Nat

/-- The stores to the area at `p`. -/
def Heap.store (h : Heap) (p : Word) (f : Area → Area) : Heap :=
  { h with area := fun x => if x = p then f (h.area p) else h.area x }

/-- `kmalloc_user`: `fresh k` is what call `k` returns. -/
def kmallocUser (fresh : Nat → Word) (h : Heap) : Word × Heap :=
  (fresh h.calls, { h with calls := h.calls + 1 })

/-- `vma_head` and `vma_next`, with the memory. -/
structure Vmas where
  vmaHead : Word
  vmaNext : Word
  heap : Heap

/-- The first area of the list. -/
def startList (fresh : Nat → Word) (f : Area → Area) (v : Vmas) : Vmas :=
  let (vma_head, h) := kmallocUser fresh v.heap
  ⟨vma_head, vma_head, h.store vma_head f⟩

/-- An area behind the last one. -/
def linkBehind (fresh : Nat → Word) (f : Area → Area) (v : Vmas) : Vmas :=
  let (p, h) := kmallocUser fresh v.heap
  let h := h.store v.vmaNext fun a => { a with vmNext := p }
  let vma_next := (h.area v.vmaNext).vmNext
  { v with vmaNext := vma_next, heap := h.store vma_next f }

/-- What is stored for a header. -/
def fillFile (phdr : Elf64Phdr) (a : Area) : Area :=
  { a with
    vmStart := phdr.pVaddr
    vmEnd := phdr.pVaddr + phdr.pMemsz
    vmType := .file
    vmOffset := phdr.pOffset
    vmNext := 0 }

/-- What is stored for the stack and for the heap: not the offset. -/
def fillEmpty (vmType : FileTypes) (a : Area) : Area :=
  { a with vmStart := 0, vmEnd := 0, vmType := vmType, vmNext := 0 }

/-- The loop over the program headers, with the number of headers that are left. -/
def vmasLoop (fresh : Nat → Word) (ehdr : Elf64Ehdr) : Nat → Nat → Vmas → Vmas
  | 0, _, v => v
  | n + 1, i, v =>
    let phdr := ehdr.phdr i
    vmasLoop fresh ehdr n (i + 1)
      (if phdr.pType = ptLoad then
        if v.vmaHead = 0 then startList fresh (fillFile phdr) v
        else linkBehind fresh (fillFile phdr) v
      else v)

/-- The stack and the heap. -/
def addStackHeap (fresh : Nat → Word) (v : Vmas) : Vmas :=
  if v.vmaHead = 0 then
    linkBehind fresh (fillEmpty .heap) (startList fresh (fillEmpty .stack) v)
  else linkBehind fresh (fillEmpty .heap) (linkBehind fresh (fillEmpty .stack) v)

/-- `load_elf_vmas` for the header at `addr`. -/
def loadElfVmas (fresh : Nat → Word) (addr : Word) (ehdr : Elf64Ehdr) (h : Heap) : Word × Heap :=
  let (mm_head, h) := kmallocUser fresh h
  let v := addStackHeap fresh (vmasLoop fresh ehdr ehdr.ePhnum.toNat 0 ⟨0, 0, h⟩)
  (mm_head, { v.heap with
    mm := fun x => if x = mm_head then ⟨v.vmaHead, addr, ehdr.eEntry⟩ else v.heap.mm x })

/-! ## The list -/

/-- The fields of an area, without its link. -/
def Area.vma (a : Area) : VmAreaStruct := ⟨a.vmStart, a.vmEnd, a.vmOffset, a.vmType⟩

/-- The areas as the nodes of a list. -/
def Heap.node (h : Heap) (p : Word) : Option (Word × VmAreaStruct) :=
  some ((h.area p).vmNext, (h.area p).vma)

/-- The headers of type `PT_LOAD`, in the order of the table. -/
def loadable (ehdr : Elf64Ehdr) : List Elf64Phdr :=
  ((List.range ehdr.ePhnum.toNat).map ehdr.phdr).filter (·.pType = ptLoad)

/-- The area of a header. -/
def fileVma (phdr : Elf64Phdr) : VmAreaStruct :=
  ⟨phdr.pVaddr, phdr.pVaddr + phdr.pMemsz, phdr.pOffset, .file⟩

/-- The `n` calls of `kmalloc_user` from call `c` on return new addresses. -/
structure Fresh (fresh : Nat → Word) (c n : Nat) : Prop where
  null : ∀ k, c ≤ k → k < c + n → fresh k ≠ 0
  distinct : ∀ j k, c ≤ j → j < k → k < c + n → fresh j ≠ fresh k

/-- The areas at the addresses that the calls from `c` on returned. -/
def nodes (fresh : Nat → Word) (c : Nat) (l : List VmAreaStruct) : List (Word × VmAreaStruct) :=
  (l.zipIdx c).map fun e => (fresh e.2, e.1)

/-- The list of the areas `l`, made by the calls from `c` on. -/
structure Built (fresh : Nat → Word) (c : Nat) (l : List VmAreaStruct) (v : Vmas) : Prop where
  calls : v.heap.calls = c + l.length
  chain : Chain v.heap.node 0 v.vmaHead (nodes fresh c l)
  last : l ≠ [] → v.vmaNext = fresh (c + l.length - 1)

section Built

variable {fresh : Nat → Word} {c n : Nat} {l : List VmAreaStruct} {v : Vmas} {f : Area → Area}

theorem nodes_append (fresh : Nat → Word) (c : Nat) (l : List VmAreaStruct) (a : VmAreaStruct) :
    nodes fresh c (l ++ [a]) = nodes fresh c l ++ [(fresh (c + l.length), a)] := by
  unfold nodes
  rw [List.zipIdx_append, List.map_append]
  rfl

theorem map_snd_nodes (fresh : Nat → Word) (c : Nat) (l : List VmAreaStruct) :
    (nodes fresh c l).map Prod.snd = l := by
  unfold nodes
  rw [List.map_map]
  exact List.zipIdx_map_fst c l

theorem nodes_fresh {e : Word × VmAreaStruct} (he : e ∈ nodes fresh c l) :
    ∃ k, c ≤ k ∧ k < c + l.length ∧ e.1 = fresh k := by
  obtain ⟨x, hx, rfl⟩ := List.mem_map.mp he
  exact ⟨x.2, List.le_snd_of_mem_zipIdx hx, List.snd_lt_add_of_mem_zipIdx hx, rfl⟩

theorem Heap.store_same (h : Heap) (p : Word) : (h.store p f).area p = f (h.area p) := if_pos rfl

theorem Heap.store_of_ne (h : Heap) {p q : Word} (hq : q ≠ p) : (h.store p f).area q = h.area q :=
  if_neg hq

/-- The head is `NULL` exactly while there is no area. -/
theorem Built.head_iff (h : Built fresh c l v) : v.vmaHead = 0 ↔ l = [] := by
  cases l with
  | nil => exact ⟨fun _ => rfl, fun _ => h.chain⟩
  | cons a l =>
    obtain ⟨hhead, hne, -⟩ := h.chain
    exact ⟨fun h0 => absurd (hhead ▸ h0) hne, fun hnil => absurd hnil (List.cons_ne_nil a l)⟩

theorem Built.start (h : Built fresh c [] v) (h0 : fresh c ≠ 0) (hf : ∀ a, (f a).vmNext = 0) :
    Built fresh c [(f (v.heap.area (fresh c))).vma] (startList fresh f v) := by
  have hcalls : v.heap.calls = c := h.calls
  have harea : (startList fresh f v).heap.area (fresh c) = f (v.heap.area (fresh c)) := by
    unfold startList kmallocUser
    rw [hcalls]
    exact Heap.store_same _ _
  refine ⟨congrArg (· + 1) hcalls, ⟨congrArg fresh hcalls, h0, 0, ?_, rfl⟩, fun _ => ?_⟩
  · unfold Heap.node
    rw [harea, hf]
  · exact congrArg fresh hcalls

theorem Built.link (h : Built fresh c l v) (hl : l ≠ []) (hfresh : Fresh fresh c n)
    (hn : l.length < n) (hf : ∀ a, (f a).vmNext = 0) :
    Built fresh c (l ++ [(f (v.heap.area (fresh (c + l.length)))).vma])
      (linkBehind fresh f v) := by
  obtain ⟨front, a, rfl⟩ := (List.eq_nil_or_concat' l).resolve_left hl
  have hlen : (front ++ [a]).length = front.length + 1 := by simp
  have hcalls := h.calls
  have hlast := h.last hl
  rw [hlen] at hcalls hlast hn ⊢
  generalize hq : fresh (c + front.length) = q
  generalize hp : fresh (c + (front.length + 1)) = p
  have hne : p ≠ q := by
    rw [← hp, ← hq]
    exact (hfresh.distinct _ _ (by omega) (by omega) (by omega)).symm
  have hnull : p ≠ 0 := hp ▸ hfresh.null _ (by omega) (by omega)
  have hnew : ∀ e ∈ nodes fresh c (front ++ [a]), e.1 ≠ p := by
    intro e he
    obtain ⟨k, hk, hk', hek⟩ := nodes_fresh he
    rw [hek, ← hp]
    exact hfresh.distinct k _ hk (by omega) (by omega)
  have hchain := h.chain
  rw [nodes_append, hq] at hchain hnew
  have hnext : v.vmaNext = q := hlast.trans hq
  have hcall : fresh v.heap.calls = p := by rw [hcalls, hp]
  -- the two stores of the block
  have hstores : linkBehind fresh f v = ⟨v.vmaHead, p, Heap.store (Heap.store
      { v.heap with calls := v.heap.calls + 1 } q fun a => { a with vmNext := p }) p f⟩ := by
    unfold linkBehind kmallocUser
    simp only [hcall, hnext, Heap.store_same]
  have harea : (linkBehind fresh f v).heap.area p = f (v.heap.area p) := by
    rw [hstores]
    exact (Heap.store_same _ _).trans (congrArg f (Heap.store_of_ne _ hne))
  have hareaq : (linkBehind fresh f v).heap.area q = { v.heap.area q with vmNext := p } := by
    rw [hstores]
    exact (Heap.store_of_ne _ hne.symm).trans (Heap.store_same _ _)
  have hother : ∀ x, x ≠ q → x ≠ p → (linkBehind fresh f v).heap.area x = v.heap.area x := by
    intro x hxq hxp
    rw [hstores]
    exact (Heap.store_of_ne _ hxp).trans (Heap.store_of_ne _ hxq)
  have hvma : (v.heap.area q).vma = a := by
    obtain ⟨r, hr⟩ := hchain.node_eq (q, a) (by simp)
    exact congrArg Prod.snd (Option.some.inj hr)
  refine ⟨?_, ?_, fun _ => ?_⟩
  · rw [hstores, List.length_append, hlen, List.length_singleton]
    show v.heap.calls + 1 = _
    omega
  · rw [nodes_append, nodes_append, hlen, hq, hp]
    have hhead : (linkBehind fresh f v).vmaHead = v.vmaHead := by rw [hstores]
    rw [hhead]
    refine hchain.snoc hnull hnew ?_ ?_ fun x hxq hxp => ?_
    · unfold Heap.node
      rw [hareaq, ← hvma]
      rfl
    · unfold Heap.node
      rw [harea, hf]
    · unfold Heap.node
      rw [hother x hxq hxp]
  · rw [hstores, List.length_append, hlen]
    exact hp.symm

/-- A header in the loop. -/
theorem Built.file (h : Built fresh c l v) (hfresh : Fresh fresh c n) (hn : l.length < n)
    (phdr : Elf64Phdr) :
    Built fresh c (l ++ [fileVma phdr])
      (if v.vmaHead = 0 then startList fresh (fillFile phdr) v
        else linkBehind fresh (fillFile phdr) v) := by
  by_cases hl : l = []
  · obtain rfl := hl
    rw [if_pos (h.head_iff.mpr rfl)]
    exact h.start (f := fillFile phdr) (hfresh.null c le_rfl (by omega)) fun _ => rfl
  · rw [if_neg fun h0 => hl (h.head_iff.mp h0)]
    exact h.link (f := fillFile phdr) hl hfresh hn fun _ => rfl

/-- The headers from `i` on, `k` of them. -/
def loadableFrom (ehdr : Elf64Ehdr) (i k : Nat) : List Elf64Phdr :=
  ((List.range' i k).map ehdr.phdr).filter (·.pType = ptLoad)

theorem loadableFrom_succ (ehdr : Elf64Ehdr) (i k : Nat) :
    loadableFrom ehdr i (k + 1) =
      if (ehdr.phdr i).pType = ptLoad then ehdr.phdr i :: loadableFrom ehdr (i + 1) k
      else loadableFrom ehdr (i + 1) k := by
  unfold loadableFrom
  rw [List.range'_succ, List.map_cons, List.filter_cons]
  by_cases h : (ehdr.phdr i).pType = ptLoad <;> simp [h]

theorem loadable_eq (ehdr : Elf64Ehdr) :
    loadable ehdr = loadableFrom ehdr 0 ehdr.ePhnum.toNat := by
  unfold loadable loadableFrom
  rw [List.range_eq_range']

theorem Built.loop (ehdr : Elf64Ehdr) (k i : Nat) (h : Built fresh c l v)
    (hfresh : Fresh fresh c n) (hn : l.length + (loadableFrom ehdr i k).length ≤ n) :
    Built fresh c (l ++ (loadableFrom ehdr i k).map fileVma) (vmasLoop fresh ehdr k i v) := by
  induction k generalizing i l v with
  | zero =>
    rw [show (loadableFrom ehdr i 0).map fileVma = [] from rfl, List.append_nil]
    exact h
  | succ k ih =>
    rw [vmasLoop]
    rw [loadableFrom_succ] at hn ⊢
    by_cases hload : (ehdr.phdr i).pType = ptLoad
    · simp only [if_pos hload, List.length_cons] at hn ⊢
      have hfile := h.file hfresh (by omega) (ehdr.phdr i)
      have hrest := ih (i + 1) hfile (by rw [List.length_append, List.length_singleton]; omega)
      rw [List.append_assoc] at hrest
      exact hrest
    · simp only [if_neg hload] at hn ⊢
      exact ih (i + 1) h hn

/-- Both epilogues. -/
theorem Built.stackHeap (h : Built fresh c l v) (hfresh : Fresh fresh c n)
    (hn : l.length + 2 ≤ n) :
    ∃ o o', Built fresh c (l ++ [⟨0, 0, o, .stack⟩] ++ [⟨0, 0, o', .heap⟩])
      (addStackHeap fresh v) := by
  unfold addStackHeap
  by_cases hl : l = []
  · obtain rfl := hl
    rw [if_pos (h.head_iff.mpr rfl)]
    have hstack := h.start (f := fillEmpty .stack) (hfresh.null c le_rfl (by omega)) fun _ => rfl
    exact ⟨_, _, hstack.link (f := fillEmpty .heap) (List.cons_ne_nil _ _) hfresh
      (by simp only [List.length_singleton]; omega) fun _ => rfl⟩
  · rw [if_neg fun h0 => hl (h.head_iff.mp h0)]
    have hstack := h.link (f := fillEmpty .stack) hl hfresh (by omega) fun _ => rfl
    exact ⟨_, _, hstack.link (f := fillEmpty .heap) (by simp) hfresh
      (by rw [List.length_append, List.length_singleton]; omega) fun _ => rfl⟩

end Built

/-- The loop finds a header of type `PT_LOAD` when there is one. -/
theorem loadableLoop_eq (ehdr : Elf64Ehdr) (k i : Nat) :
    loadableLoop ehdr k i = if loadableFrom ehdr i k = [] then 0 else 1 := by
  induction k generalizing i with
  | zero => rfl
  | succ k ih =>
    rw [loadableLoop, loadableFrom_succ]
    by_cases h : (ehdr.phdr i).pType = ptLoad
    · simp only [if_pos h]
      rfl
    · simp only [if_neg h]
      exact ih (i + 1)

/-- With new addresses for every call, the list that `load_elf_vmas` returns is one area for each
    `PT_LOAD` header in the order of the table, the stack and the heap; and a file is among them
    exactly when `check_elf_loadable` returns 1. -/
theorem loadElfVmas_list (fresh : Nat → Word) (addr : Word) (ehdr : Elf64Ehdr) (h : Heap)
    (hfresh : Fresh fresh h.calls ((loadable ehdr).length + 3)) :
    ∃ areas o o', Chain (loadElfVmas fresh addr ehdr h).2.node 0
        ((loadElfVmas fresh addr ehdr h).2.mm (loadElfVmas fresh addr ehdr h).1).mmap areas ∧
      areas.map Prod.snd =
        (loadable ehdr).map fileVma ++ [⟨0, 0, o, .stack⟩, ⟨0, 0, o', .heap⟩] ∧
      ((loadElfVmas fresh addr ehdr h).2.mm (loadElfVmas fresh addr ehdr h).1).eEntry =
        ehdr.eEntry ∧
      ((loadElfVmas fresh addr ehdr h).2.mm (loadElfVmas fresh addr ehdr h).1).elfHead = addr ∧
      ((∃ a ∈ areas, a.2.vmType = .file) ↔ checkElfLoadable ehdr = 1) := by
  have hstart : Built fresh (h.calls + 1) [] ⟨0, 0, { h with calls := h.calls + 1 }⟩ :=
    ⟨rfl, rfl, fun hne => absurd rfl hne⟩
  have hafter : Fresh fresh (h.calls + 1) ((loadable ehdr).length + 2) :=
    ⟨fun k hk hk' => hfresh.null k (by omega) (by omega),
      fun j k hj hjk hk => hfresh.distinct j k (by omega) hjk (by omega)⟩
  rw [loadable_eq] at hafter ⊢
  have hloop := hstart.loop ehdr ehdr.ePhnum.toNat 0 hafter
    (by rw [List.length_nil]; omega)
  rw [List.nil_append] at hloop
  obtain ⟨o, o', hbuilt⟩ := hloop.stackHeap hafter (by rw [List.length_map])
  have hmm : (loadElfVmas fresh addr ehdr h).2.mm (loadElfVmas fresh addr ehdr h).1 =
      ⟨(addStackHeap fresh (vmasLoop fresh ehdr ehdr.ePhnum.toNat 0
        ⟨0, 0, { h with calls := h.calls + 1 }⟩)).vmaHead, addr, ehdr.eEntry⟩ := if_pos rfl
  have hsnd := map_snd_nodes fresh (h.calls + 1)
    ((loadableFrom ehdr 0 ehdr.ePhnum.toNat).map fileVma ++ [⟨0, 0, o, .stack⟩] ++
      [⟨0, 0, o', .heap⟩])
  refine ⟨_, o, o', ?_, hsnd.trans (List.append_assoc _ _ _), ?_, ?_, ?_⟩
  · rw [hmm]
    exact hbuilt.chain
  · rw [hmm]
  · rw [hmm]
  · unfold checkElfLoadable
    rw [loadableLoop_eq]
    have hfile : (∃ a ∈ nodes fresh (h.calls + 1)
        ((loadableFrom ehdr 0 ehdr.ePhnum.toNat).map fileVma ++ [⟨0, 0, o, .stack⟩] ++
          [⟨0, 0, o', .heap⟩]), a.2.vmType = .file) ↔
        ∃ a ∈ (loadableFrom ehdr 0 ehdr.ePhnum.toNat).map fileVma ++ [⟨0, 0, o, .stack⟩] ++
          [⟨0, 0, o', .heap⟩], a.vmType = .file := by
      constructor
      · rintro ⟨a, ha, hfile⟩
        exact ⟨a.2, hsnd ▸ List.mem_map_of_mem ha, hfile⟩
      · rintro ⟨a, ha, hfile⟩
        rw [← hsnd] at ha
        obtain ⟨e, he, rfl⟩ := List.mem_map.mp ha
        exact ⟨e, he, hfile⟩
    rw [hfile]
    cases hl : loadableFrom ehdr 0 ehdr.ePhnum.toNat with
    | nil => simp
    | cons phdr rest => simp [fileVma]

/-- A header with two program headers, the second of type `PT_LOAD`. -/
def sampleEhdr : Elf64Ehdr :=
  ⟨2, 0x400000, fun i => if i = 0 then ⟨6, 0x40, 0x400040, 0x38⟩ else ⟨1, 0, 0x400000, 0x1000⟩⟩

theorem loadElfVmas_list_sample :
    ∃ areas o o', Chain (loadElfVmas (fun k => 0x1000 * BitVec.ofNat 64 (k + 1)) 0x2000 sampleEhdr
        ⟨fun _ => ⟨7, 7, 7, .heap, 7⟩, fun _ => ⟨7, 7, 7⟩, 0⟩).2.node 0 0x2000 areas ∧
      areas.map Prod.snd =
        [⟨0x400000, 0x401000, 0, .file⟩, ⟨0, 0, o, .stack⟩, ⟨0, 0, o', .heap⟩] := by
  have hfresh : Fresh (fun k => 0x1000 * BitVec.ofNat 64 (k + 1)) 0
      ((loadable sampleEhdr).length + 3) := by
    have hlen : (loadable sampleEhdr).length = 1 := by decide
    have hnull : ∀ k < 4, 0x1000 * BitVec.ofNat 64 (k + 1) ≠ 0 := by decide
    have hdistinct : ∀ k < 4, ∀ j < k,
        0x1000 * BitVec.ofNat 64 (j + 1) ≠ 0x1000 * BitVec.ofNat 64 (k + 1) := by decide
    rw [hlen]
    exact ⟨fun k _ hk => hnull k (by omega), fun j k _ hjk hk => hdistinct k (by omega) j hjk⟩
  obtain ⟨areas, o, o', hchain, hareas, -⟩ := loadElfVmas_list _ 0x2000 sampleEhdr
    ⟨fun _ => ⟨7, 7, 7, .heap, 7⟩, fun _ => ⟨7, 7, 7⟩, 0⟩ hfresh
  exact ⟨areas, o, o', hchain, hareas⟩

end SBUnix.Vma
