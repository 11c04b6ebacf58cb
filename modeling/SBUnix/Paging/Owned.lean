import SBUnix.Paging.Kernel

/-
  Owned page tables: the invariant of every paging function.

  `Owned shared roots fs s` says that the tables of the PML4s in `roots` form a forest (one
  path to each table, slot 510 and the `shared` slots apart), that every present entry is
  writable, and that `fs` are the frames left on the free list: distinct, zero-filled, and no
  table. `Owned.link` hangs a fresh frame into an absent slot as a new table, and
  `Owned.mapLeaf` fills an absent last-level slot; both go through the recursive window.
-/

namespace SBUnix

open ByteMem Radix

/-! ## The recursive window -/

/-- `a` is the window address of entry `i` of the table at path `p`. -/
structure RecWindow (a : Word) (p : List Idx) (i : Idx) : Prop where
  path_eq : path a = List.replicate (4 - p.length) selfSlot ++ p
  off : (pageOff a).toNat = i.toNat * 8

theorem recWindow_pml4 (v : Word) : RecWindow (pml4RecAddr v) [] (pml4Idx v) :=
  ⟨path_pml4RecAddr v, pageOff_pml4RecAddr v⟩

theorem recWindow_pdpe (v : Word) : RecWindow (pdpeRecAddr v) [pml4Idx v] (pdpIdx v) :=
  ⟨path_pdpeRecAddr v, pageOff_pdpeRecAddr v⟩

theorem recWindow_pgd (v : Word) : RecWindow (pgdRecAddr v) [pml4Idx v, pdpIdx v] (pdIdx v) :=
  ⟨path_pgdRecAddr v, pageOff_pgdRecAddr v⟩

theorem recWindow_pte (v : Word) :
    RecWindow (pteRecAddr v) [pml4Idx v, pdpIdx v, pdIdx v] (ptIdx v) :=
  ⟨path_pteRecAddr v, pageOff_pteRecAddr v⟩

theorem walk_replicate_self {mem : Mem} {root : Frame}
    (hself : target (entries mem root selfSlot) = some root) (n : Nat) (p : List Idx) :
    walk target (entries mem) root (List.replicate n selfSlot ++ p) =
      walk target (entries mem) root p := by
  induction n with
  | zero => rfl
  | succ n ih => rw [List.replicate_succ, List.cons_append, walk_self target hself, ih]

/-- A window address translates to the entry it is meant for, once the table is there. -/
theorem RecWindow.translate_eq {a : Word} {p : List Idx} {i : Idx} (ha : RecWindow a p i)
    {mem : Mem} {root f : Frame} (hself : target (entries mem root selfSlot) = some root)
    (hw : walk target (entries mem) root p = some f) :
    translate mem root a = some (entryAddr f i) := by
  have hpage : translatePage mem root a = some f := by
    rw [translatePage, ha.path_eq, walk_replicate_self hself, hw]
  rw [translate_eq_some hpage, ha.off]
  rfl

theorem RecWindow.off_le {a : Word} {p : List Idx} {i : Idx} (ha : RecWindow a p i) :
    (pageOff a).toNat ≤ 4088 := by
  have := i.isLt
  rw [ha.off]
  omega

namespace Kernel

/-- The table frame at path `p` of the loaded address space. -/
def tableAt (s : Kernel) (p : List Idx) : Option Frame := walk target (entries s.mem) s.root p

theorem load_window {s : Kernel} {a : Word} {p : List Idx} {i : Idx} {f : Frame}
    (ha : RecWindow a p i) (hself : target (entries s.mem s.root selfSlot) = some s.root)
    (hw : s.tableAt p = some f) : s.load a = .ok (entries s.mem f i) := by
  unfold load phys
  rw [if_pos ha.off_le, ha.translate_eq hself hw]
  rfl

theorem store_window {s : Kernel} {a : Word} {p : List Idx} {i : Idx} {f : Frame}
    (ha : RecWindow a p i) (hself : target (entries s.mem s.root selfSlot) = some s.root)
    (hw : s.tableAt p = some f) (e : Word) :
    s.store a e = .ok { s with mem := writeWord s.mem (entryAddr f i) e } := by
  unfold store phys
  rw [if_pos ha.off_le, ha.translate_eq hself hw]
  rfl

/-- `s'` differs from `s` in memory and free list only. -/
structure SameRegs (s s' : Kernel) : Prop where
  cr3 : s'.cr3 = s.cr3
  top : s'.topVirtualAddress = s.topVirtualAddress
  pml4 : s'.kernelPml4T = s.kernelPml4T
  stack : s'.pagingUserStackTop = s.pagingUserStackTop

theorem SameRegs.refl (s : Kernel) : SameRegs s s := ⟨rfl, rfl, rfl, rfl⟩

theorem SameRegs.trans {s₁ s₂ s₃ : Kernel} (h : SameRegs s₁ s₂) (h' : SameRegs s₂ s₃) :
    SameRegs s₁ s₃ :=
  ⟨h'.cr3.trans h.cr3, h'.top.trans h.top, h'.pml4.trans h.pml4, h'.stack.trans h.stack⟩

theorem SameRegs.root {s s' : Kernel} (h : SameRegs s s') : s'.root = s.root := by
  rw [Kernel.root, h.cr3, Kernel.root]

end Kernel

/-! ## The free frames -/

/-- The frames left for `get_next_free_page_kmalloc`, in order. -/
structure FreeFrames (fl : FreeList DescStore) (fs : List Frame) : Prop where
  chain : ∃ p nodes, fl.freeListHeadKmalloc = kernbase + p ∧ FreeChain fl.descs p nodes ∧
    nodes.map Prod.snd = fs.map Frame.addr ∧ ∀ e ∈ nodes, e.1.toNat < 2 ^ 31
  null : fl.descs 0 = none

theorem FreeFrames.cons {fl : FreeList DescStore} {f : Frame} {fs : List Frame}
    (h : FreeFrames fl (f :: fs)) :
    ∃ fl', getNextFreePageKmalloc fl = .ok (f.addr, fl') ∧ FreeFrames fl' fs := by
  obtain ⟨p, nodes, hp, hc, hmap, hlow⟩ := h.chain
  cases nodes with
  | nil => simp at hmap
  | cons e nodes =>
    obtain ⟨he, hmap⟩ := List.cons.inj hmap
    obtain ⟨fl', p', hk, hn, hp', hc'⟩ := getNextFreePageKmalloc_cons hp hc (hlow e (by simp))
    have hnull : fl'.descs 0 = none := by
      rw [← descNode_eq_none, hn, descNode_eq_none]
      exact h.null
    refine ⟨fl', by rw [hk, he], ⟨p', nodes, hp', hc', hmap, ?_⟩, hnull⟩
    exact fun a ha => hlow a (by simp [ha])

/-- With no frame left the allocator reads `KERNBASE` as a descriptor. -/
theorem FreeFrames.nil {fl : FreeList DescStore} (h : FreeFrames fl []) :
    getNextFreePageKmalloc fl = .error (.strayRead kernbase) := by
  obtain ⟨p, nodes, hp, hc, hmap, -⟩ := h.chain
  have hnodes : nodes = [] := by simpa using hmap
  subst hnodes
  have hp0 : p = 0 := Linked.chain_nil.mp hc
  subst hp0
  rw [getNextFreePageKmalloc, hp, if_neg (by decide), if_pos (by decide),
    show kernbase + 0 - kernbase = 0 by decide, page_descStore, h.null]
  rfl

/-! ## Ownership -/

/-- `g` is a page table of one of the address spaces in `roots`. -/
def IsPageTable (roots : Set Frame) (mem : Mem) (g : Frame) : Prop :=
  IsTable target selfSlot 4 (entries mem) roots g

/-- Owned page tables and the frames left to extend them. -/
structure Owned (shared : Set Idx) (roots : Set Frame) (fs : List Frame) (s : Kernel) : Prop where
  forest : Forest target selfSlot shared 4 (entries s.mem) roots
  loaded : s.root ∈ roots
  writable : ∀ g, IsPageTable roots s.mem g → ∀ j, present (entries s.mem g j) = true →
    isValidPage (entries s.mem g j) = true
  free : FreeFrames s.freeList fs
  nodup : fs.Nodup
  zero : ∀ f ∈ fs, ∀ j, entries s.mem f j = 0
  unused : ∀ f ∈ fs, ¬ IsPageTable roots s.mem f

section Owned

variable {shared : Set Idx} {roots : Set Frame} {fs : List Frame} {s : Kernel}

theorem Owned.self_ref (h : Owned shared roots fs s) :
    target (entries s.mem s.root selfSlot) = some s.root :=
  h.forest.self_ref s.root h.loaded

theorem Owned.isPageTable_of_walk (h : Owned shared roots fs s) {p : List Idx} {f : Frame}
    (hp : TablePath selfSlot 4 p) (hw : s.tableAt p = some f) : IsPageTable roots s.mem f :=
  ⟨s.root, h.loaded, p, hp, hw⟩

/-- In a table, valid and present are the same. -/
theorem Owned.isValidPage_iff_present (h : Owned shared roots fs s) {p : List Idx} {f : Frame}
    (hp : TablePath selfSlot 4 p) (hw : s.tableAt p = some f) (j : Idx) :
    isValidPage (entries s.mem f j) = true ↔ present (entries s.mem f j) = true :=
  ⟨present_of_isValidPage, h.writable f (h.isPageTable_of_walk hp hw) j⟩

/-- Taking a frame leaves memory and registers alone. -/
theorem Owned.takeFrame {f : Frame} (h : Owned shared roots (f :: fs) s) :
    ∃ s', s.takeFrame = .ok (f.addr, s') ∧ s'.mem = s.mem ∧ s.SameRegs s' ∧
      Owned shared roots fs s' := by
  obtain ⟨fl', hk, hfree⟩ := h.free.cons
  have htake : s.takeFrame = .ok (f.addr, { s with freeList := fl' }) := by
    unfold Kernel.takeFrame
    rw [hk]
    rfl
  refine ⟨_, htake, rfl, ⟨rfl, rfl, rfl, rfl⟩, ?_⟩
  exact {
    forest := h.forest
    loaded := h.loaded
    writable := h.writable
    free := hfree
    nodup := (List.nodup_cons.mp h.nodup).2
    zero := fun g hg => h.zero g (List.mem_cons_of_mem f hg)
    unused := fun g hg => h.unused g (List.mem_cons_of_mem f hg) }

theorem Owned.takeFrame_nil (h : Owned shared roots [] s) :
    s.takeFrame = .error (.strayRead kernbase) := by
  unfold Kernel.takeFrame
  rw [h.free.nil]
  rfl

/-- What filling absent table slots does: registers stay, tables grow by the frames `used`,
    present entries stay, and only bytes of tables change. -/
structure Grown (roots : Set Frame) (used : List Frame) (s s' : Kernel) : Prop where
  regs : s.SameRegs s'
  tables : ∀ g, IsPageTable roots s'.mem g ↔ IsPageTable roots s.mem g ∨ g ∈ used
  kept : ∀ r ∈ roots, ∀ q x, walk target (entries s.mem) r q = some x →
    walk target (entries s'.mem) r q = some x
  entry : ∀ g j, target (entries s.mem g j) ≠ none → entries s'.mem g j = entries s.mem g j
  bytes : ∀ x, (∀ g, IsPageTable roots s'.mem g → x / 4096 ≠ g.toNat) → s'.mem x = s.mem x

theorem Grown.trans {u₁ u₂ : List Frame} {s₁ s₂ s₃ : Kernel} (h : Grown roots u₁ s₁ s₂)
    (h' : Grown roots u₂ s₂ s₃) : Grown roots (u₁ ++ u₂) s₁ s₃ where
  regs := h.regs.trans h'.regs
  tables g := by rw [h'.tables, h.tables, List.mem_append, or_assoc]
  kept r hr q x hx := h'.kept r hr q x (h.kept r hr q x hx)
  entry g j hj := by
    have hj' := h.entry g j hj
    rw [h'.entry g j (by rwa [hj']), hj']
  bytes x hx := by
    have h₂ := h'.bytes x hx
    have h₁ := h.bytes x fun g hg => hx g ((h'.tables g).mpr (Or.inl hg))
    rw [h₂, h₁]

/-- A frame that was not taken does not become a table. -/
theorem Grown.not_table {used : List Frame} {s' : Kernel} {f : Frame} (h : Grown roots used s s')
    (hf : ¬ IsPageTable roots s.mem f) (hused : f ∉ used) : ¬ IsPageTable roots s'.mem f :=
  fun hf' => ((h.tables f).mp hf').elim hf hused

/-- Its bytes stay. -/
theorem Grown.data {used : List Frame} {s' : Kernel} {f : Frame} (h : Grown roots used s s')
    (hf : ¬ IsPageTable roots s.mem f) (hused : f ∉ used) {x : Nat} (hx : x / 4096 = f.toNat) :
    s'.mem x = s.mem x := by
  refine h.bytes x fun y hy hxy => h.not_table hf hused ?_
  rwa [BitVec.eq_of_toNat_eq (hx.symm.trans hxy)]

/-- Taking a frame grows nothing. -/
theorem Grown.of_mem_eq {s' : Kernel} (hm : s'.mem = s.mem) (hr : s.SameRegs s') :
    Grown roots [] s s' where
  regs := hr
  tables g := by simp [hm]
  kept r hr q x hx := by rwa [hm]
  entry g j _ := by rw [hm]
  bytes x _ := by rw [hm]

end Owned

end SBUnix
