import SBUnix.Lib.Linked
import SBUnix.Paging.Mmu

/-
  The free list of physical frames and its two allocators (`sys/paging.c`).

  A descriptor is a `struct Page`. The allocators only need to read descriptors and to set a
  descriptor's status, so they are written over any store of descriptors (`DescMem`). Boot
  code names a descriptor by its physical address; after `set_new_free_list_head` the kernel
  names it by that address plus `KERNBASE`, and an address below `KERNBASE` names none.
-/

namespace SBUnix

/-- `struct Page`. -/
structure Page where
  next : Word
  status : Word
  pAddr : Word
  deriving DecidableEq, Repr

/-- A store of descriptors, by physical address. -/
class DescMem (σ : Type) where
  page : σ → Word → Option Page
  setStatus : σ → Word → Word → σ

/-- The descriptors of the free list and the two heads. -/
structure FreeList (σ : Type) where
  descs : σ
  freeListHead : Word
  freeListHeadKmalloc : Word

section Alloc

variable {σ : Type} [DescMem σ]

def getNextFreePage (s : FreeList σ) : Except Fault (Word × FreeList σ) :=
  if s.freeListHead = 0 then .ok (-1, s)
  else
    match DescMem.page s.descs s.freeListHead with
    | none => .error (.strayRead s.freeListHead)
    | some temp =>
      .ok (temp.pAddr, { s with
        descs := DescMem.setStatus s.descs s.freeListHead allocated
        freeListHead := temp.next })

def setNewFreeListHead (s : FreeList σ) : FreeList σ :=
  { s with freeListHeadKmalloc := kernbase + s.freeListHead }

omit [DescMem σ] in
@[simp] theorem setNewFreeListHead_descs (s : FreeList σ) :
    (setNewFreeListHead s).descs = s.descs := by
  cases s
  rfl

def getNextFreePageKmalloc (s : FreeList σ) : Except Fault (Word × FreeList σ) :=
  if s.freeListHeadKmalloc = 0 then .ok (0, s)
  else if kernbase ≤ s.freeListHeadKmalloc then
    match DescMem.page s.descs (s.freeListHeadKmalloc - kernbase) with
    | none => .error (.strayRead s.freeListHeadKmalloc)
    | some temp =>
      .ok (temp.pAddr, { s with
        descs := DescMem.setStatus s.descs (s.freeListHeadKmalloc - kernbase) allocated
        freeListHeadKmalloc := kernbase + temp.next })
  else .error (.strayRead s.freeListHeadKmalloc)

/-- `n` calls of an allocator: the addresses returned, in order, and the final state. -/
def calls {σ : Type} (f : σ → Except Fault (Word × σ)) :
    Nat → σ → Except Fault (List Word × σ)
  | 0, s => .ok ([], s)
  | n + 1, s => do
    let (p, s) ← f s
    let (ps, s) ← calls f n s
    return (p :: ps, s)

/-- `m` boot allocations, the hand-over, then `k` kernel allocations. -/
def allocRun (m k : Nat) (s : FreeList σ) : Except Fault (List Word × FreeList σ) := do
  let (ps, s) ← calls getNextFreePage m s
  let (qs, s) ← calls getNextFreePageKmalloc k (setNewFreeListHead s)
  return (ps ++ qs, s)

end Alloc

/-! ## Descriptors as objects of their own -/

/-- A store that holds descriptors and nothing else. -/
abbrev DescStore := Word → Option Page

instance : DescMem DescStore where
  page d p := d p
  setStatus d p w := fun q => if q = p then (d q).map fun g => { g with status := w } else d q

@[simp] theorem page_descStore (d : DescStore) (p : Word) : DescMem.page d p = d p := rfl

/-- The link and the frame of a descriptor. -/
def descNode (d : DescStore) (p : Word) : Option (Word × Word) :=
  (d p).map fun g => (g.next, g.pAddr)

theorem descNode_setStatus (d : DescStore) (p w : Word) :
    descNode (DescMem.setStatus d p w) = descNode d := by
  funext q
  show ((if q = p then (d q).map fun g => { g with status := w } else d q).map _) = _
  split_ifs with h
  · unfold descNode
    cases d q <;> rfl
  · rfl

theorem descNode_eq_none {d : DescStore} {p : Word} : descNode d p = none ↔ d p = none := by
  rw [descNode, Option.map_eq_none_iff]

/-- The free list from `head`: the descriptors' addresses and frames. -/
abbrev FreeChain (d : DescStore) (head : Word) (l : List (Word × Word)) : Prop :=
  Linked.Chain (descNode d) 0 head l

theorem FreeChain.page_head {d : DescStore} {head : Word} {e : Word × Word}
    {l : List (Word × Word)} (h : FreeChain d head (e :: l)) :
    ∃ g, d head = some g ∧ g.pAddr = e.2 ∧ FreeChain d g.next l := by
  obtain ⟨rfl, -, r, hn, hl⟩ := h
  obtain ⟨g, hg, hr⟩ := Option.map_eq_some_iff.mp hn
  obtain ⟨rfl, he⟩ := Prod.mk.inj hr
  exact ⟨g, hg, he, hl⟩

/-- The boot allocator takes the head of a non-empty list. -/
theorem getNextFreePage_cons {s : FreeList DescStore} {e : Word × Word} {l : List (Word × Word)}
    (h : FreeChain s.descs s.freeListHead (e :: l)) :
    ∃ s', getNextFreePage s = .ok (e.2, s') ∧ descNode s'.descs = descNode s.descs ∧
      FreeChain s'.descs s'.freeListHead l := by
  obtain ⟨g, hg, hp, hl⟩ := h.page_head
  have h0 : s.freeListHead ≠ 0 := by
    rw [h.1]
    exact h.2.1
  refine ⟨{ s with
      descs := DescMem.setStatus s.descs s.freeListHead allocated, freeListHead := g.next },
    ?_, descNode_setStatus _ _ _, ?_⟩
  · rw [getNextFreePage, if_neg h0, page_descStore, hg, ← hp]
  · rw [FreeChain, descNode_setStatus]
    exact hl

theorem kernbase_toNat : kernbase.toNat = 2 ^ 64 - 2 ^ 31 := by decide

/-- A descriptor below 2 GiB keeps its name when shifted by `KERNBASE`. -/
theorem shifted_of_lt {p : Word} (h : p.toNat < 2 ^ 31) :
    kernbase ≤ kernbase + p ∧ kernbase + p - kernbase = p ∧ kernbase + p ≠ 0 := by
  have hk := kernbase_toNat
  have hadd : (kernbase + p).toNat = kernbase.toNat + p.toNat := by
    rw [BitVec.toNat_add]
    omega
  refine ⟨?_, by rw [add_sub_cancel_left], ?_⟩
  · rw [BitVec.le_def]
    omega
  · rw [ne_zero_iff_toNat]
    omega

/-- The kernel allocator takes the head of a non-empty list. -/
theorem getNextFreePageKmalloc_cons {s : FreeList DescStore} {p : Word} {e : Word × Word}
    {l : List (Word × Word)} (hs : s.freeListHeadKmalloc = kernbase + p)
    (h : FreeChain s.descs p (e :: l)) (hlow : e.1.toNat < 2 ^ 31) :
    ∃ s' p', getNextFreePageKmalloc s = .ok (e.2, s') ∧
      descNode s'.descs = descNode s.descs ∧
      s'.freeListHeadKmalloc = kernbase + p' ∧ FreeChain s'.descs p' l := by
  obtain ⟨g, hg, hp, hl⟩ := h.page_head
  obtain ⟨rfl, -⟩ := h
  obtain ⟨hle, hsub, h0⟩ := shifted_of_lt hlow
  refine ⟨{ s with
      descs := DescMem.setStatus s.descs e.1 allocated, freeListHeadKmalloc := kernbase + g.next },
    g.next, ?_, descNode_setStatus _ _ _, rfl, ?_⟩
  · rw [getNextFreePageKmalloc, hs, if_neg h0, if_pos hle, hsub, page_descStore, hg, ← hp]
  · rw [FreeChain, descNode_setStatus]
    exact hl

/-- A descriptor at 2 GiB or above has no shifted name: at 2 GiB exactly it is taken for the end
    of the list, above it the read goes elsewhere. -/
theorem getNextFreePageKmalloc_high {σ : Type} [DescMem σ] {s : FreeList σ} {p : Word}
    (hs : s.freeListHeadKmalloc = kernbase + p) (hp : 2 ^ 31 ≤ p.toNat) :
    getNextFreePageKmalloc s = .ok (0, s) ∨
      getNextFreePageKmalloc s = .error (.strayRead (kernbase + p)) := by
  have hk := kernbase_toNat
  have hp' := p.isLt
  have hadd : (kernbase + p).toNat = p.toNat - 2 ^ 31 := by
    rw [BitVec.toNat_add]
    omega
  rw [getNextFreePageKmalloc, hs]
  by_cases h0 : kernbase + p = 0
  · exact Or.inl (if_pos h0)
  · right
    rw [if_neg h0, if_neg]
    rw [BitVec.le_def]
    omega

end SBUnix
