import SBUnix.Paging.UserAccess
import SBUnix.Process.Copy

/-
  The kernel before and between the steps of loading a program.

  `LoadReady` is what loading needs of a kernel: owned page tables, and a heap top above which
  nothing is mapped. `LoadStep` is what every step on the kernel heap does; it composes.
  `LoadReady.kmallocStruct` is a struct on the heap, `LoadReady.newUserPml4` the address space of
  the process, whose user half is empty.
-/

namespace SBUnix

open ByteMem Radix

/-- The initial value of `paging_user_stack_top`, which nothing else assigns. -/
def userStackTop : Word := 0xfffffe0000000ff8#64

/-- A kernel that can load programs. -/
structure LoadReady (roots : Set Frame) (fs : List Frame) (s : Kernel) : Prop where
  owned : Owned kernelShared roots fs s
  present : SharedPresent kernelShared s
  addrs : KernelAddrs roots s
  nonzero : 0 ∉ fs
  topSlot : 2 ^ 64 - 2 ^ 39 ≤ s.topVirtualAddress.toNat
  above : ∀ v : Word, s.topVirtualAddress.toNat ≤ v.toNat → translatePage s.mem s.root v = none
  stackTop : s.pagingUserStackTop = userStackTop

/-- A step that takes `d` pages of the heap and at most `c` frames. -/
structure LoadStep (roots roots' : Set Frame) (d c : Nat) (fs fs' : List Frame) (s s' : Kernel) :
    Prop where
  ready : LoadReady roots' fs' s'
  cr3 : s'.cr3 = s.cr3
  keeps : Keeps roots roots' fs fs' s s'
  user : ∀ r ∈ roots, ∀ v, UserAddr v → translatePage s'.mem r v = translatePage s.mem r v
  left : ∀ f ∈ fs', f ∈ fs
  few : fs.length ≤ fs'.length + c
  top : s'.topVirtualAddress.toNat = s.topVirtualAddress.toNat + 4096 * d

section Step

variable {roots roots₁ roots₂ : Set Frame} {fs fs₁ fs₂ gs : List Frame} {s s₁ s₂ : Kernel}
  {c c' d d' n : Nat}

theorem LoadStep.refl (h : LoadReady roots fs s) : LoadStep roots roots 0 0 fs fs s s where
  ready := h
  cr3 := rfl
  keeps := Keeps.refl roots fs s
  user _ _ _ _ := rfl
  left _ hf := hf
  few := le_rfl
  top := rfl

theorem LoadStep.trans (h : LoadStep roots roots₁ d c fs fs₁ s s₁)
    (h' : LoadStep roots₁ roots₂ d' c' fs₁ fs₂ s₁ s₂) :
    LoadStep roots roots₂ (d + d') (c + c') fs fs₂ s s₂ where
  ready := h'.ready
  cr3 := h'.cr3.trans h.cr3
  keeps := h.keeps.trans h'.keeps
  user r hr v hv := (h'.user r (h.keeps.created hr) v hv).trans (h.user r hr v hv)
  left f hf := h.left f (h'.left f hf)
  few := by
    have := h.few
    have := h'.few
    omega
  top := by
    rw [h'.top, h.top]
    omega

theorem pml4Idx_of_kernelSlot {v : Word} (hv : 2 ^ 64 - 2 ^ 39 ≤ v.toNat) :
    pml4Idx v = kernelSlot := by
  have hlt := v.isLt
  have hidx := pml4Idx_toNat v
  apply BitVec.eq_of_toNat_eq
  rw [show kernelSlot.toNat = 511 from rfl]
  omega

theorem path_ne_of_pml4Idx_ne {v w : Word} (h : pml4Idx v ≠ pml4Idx w) : path v ≠ path w := by
  intro hpath
  have hhead := congrArg List.head? hpath
  rw [path_head, path_head] at hhead
  exact h (Option.some.inj hhead)

/-- The pages at the heap top can be mapped. -/
theorem LoadReady.runReady (h : LoadReady roots fs s)
    (hwrap : s.topVirtualAddress.toNat + 4096 * n < 2 ^ 64) :
    RunReady 4096 n s.topVirtualAddress s := by
  have htop := h.topSlot
  have hpage : ∀ i < n, (pageAt s.topVirtualAddress i).toNat =
      s.topVirtualAddress.toNat + 4096 * i := fun i hi => pageAt_toNat (by omega)
  refine ⟨h.addrs.topAligned, hwrap, fun i hi => pml4Idx_of_heap ?_, fun i hi => Or.inr ⟨?_, ?_⟩,
    fun i hi j hj hij => ?_, fun i hi => h.above _ ?_⟩
  · rw [hpage i hi]
    omega
  · rw [hpage i hi]
    omega
  · rw [hpage i hi]
  · have heq := page_eq_of_path_eq (by rw [hpage i hi]; omega) (by rw [hpage j hj]; omega) hij
    rw [hpage i hi, hpage j hj] at heq
    omega
  · rw [hpage i hi]
    exact Nat.le_add_right _ _

/-- Mapping pages at the heap top is a step. -/
theorem MappedRun.loadStep (h : LoadReady roots fs s)
    (hwrap : s.topVirtualAddress.toNat + 4096 * n < 2 ^ 64) (hgs : gs.length = n)
    (htop : s₁.topVirtualAddress.toNat = s.topVirtualAddress.toNat + 4096 * n)
    (hrun : MappedRun roots gs fs fs₁ s.topVirtualAddress s s₁) :
    LoadStep roots roots n (4 * n) fs fs₁ s s₁ := by
  have hslot := h.topSlot
  have hpage : ∀ i < n, (pageAt s.topVirtualAddress i).toNat =
      s.topVirtualAddress.toNat + 4096 * i := fun i hi => pageAt_toNat (by omega)
  refine ⟨⟨hrun.owned, h.present.of_extends h.owned.loaded hrun.space,
    h.addrs.of_extends hrun.space, fun h0 => h.nonzero (hrun.left 0 h0), by omega,
    fun v hv => ?_, hrun.stack.trans h.stackTop⟩, hrun.cr3, hrun.keeps, fun r hr v hv => ?_, hrun.left,
    by rw [← hgs]; exact hrun.few, htop⟩
  · have hother := hrun.other v (pml4Idx_of_heap (by omega)) fun i hi hpath => by
      have hi' : i < n := by omega
      have heq := page_eq_of_path_eq (by omega) (by rw [hpage i hi']; omega) hpath
      have haligned := h.addrs.topAligned
      rw [hpage i hi'] at heq
      omega
    rw [hrun.space.root, hother]
    exact h.above v (by omega)
  · by_cases hroot : r = s.root
    · rw [hroot]
      refine hrun.other v hv.1 fun i hi => path_ne_of_pml4Idx_ne fun hidx => hv.2 ?_
      rw [hidx]
      refine pml4Idx_of_kernelSlot ?_
      rw [hpage i (by omega)]
      omega
    · exact hrun.space.private_half r hr hroot v hv.1 hv.2

/-- A struct on the kernel heap. -/
theorem LoadReady.kmallocStruct (h : LoadReady roots fs s) {size : Word}
    (hn : (1 + noOfPages size).toNat = n) (hlen : 4 * n ≤ fs.length)
    (hwrap : s.topVirtualAddress.toNat + 4096 * n < 2 ^ 64) :
    ∃ fs' s', kmallocStruct size s = .ok s' ∧ LoadStep roots roots n (4 * n) fs fs' s s' := by
  obtain ⟨gs, fs', s', hloop, hgs, htop, hrun⟩ := h.owned.mapRun advancesBy_advanceTop
    entryFlags_pageUser s.topVirtualAddress n h.present h.nonzero hlen (h.runReady hwrap)
  have hcall : kmallocUser size s = .ok (s.topVirtualAddress, s') := by
    unfold kmallocUser
    rw [hn]
    exact hloop
  have hnull : s.topVirtualAddress ≠ 0 := by
    rw [ne_zero_iff_toNat]
    have := h.topSlot
    omega
  refine ⟨fs', s', ?_, hrun.loadStep h hwrap hgs htop⟩
  unfold SBUnix.kmallocStruct
  rw [hcall, ok_bind]
  dsimp only
  rw [if_neg hnull]
  rfl

/-! ## The address space of the process -/

/-- A frame that was free at first may become a PML4. -/
theorem Keeps.addRoot {g : Frame} (h : Keeps roots roots fs fs₁ s s₁) (hg : g ∈ fs)
    (htables : ∀ f, IsPageTable (insert g roots) s₁.mem f → IsPageTable roots s₁.mem f ∨ f = g) :
    Keeps roots (insert g roots) fs fs₁ s s₁ where
  created := Set.subset_insert g roots
  kept := h.kept
  data f hf := by
    obtain ⟨htable, hfree⟩ := h.data f hf
    refine ⟨fun hf' => (htables f hf').elim htable fun hfg => hf.2 (hfg ▸ hg), hfree⟩
  bytes := h.bytes
  absent := h.absent
  top := h.top

theorem offStore_setSlot (s : Kernel) (g : Frame) (i : Idx) (e : Word) :
    OffStore {g} s (s.setSlot g i e) :=
  ⟨sameRegs_setSlot s g i e, rfl, fun _ hx => mem_setSlot_of_ne s i e (hx g rfl)⟩

theorem offStore_fillPml4 (s : Kernel) (g : Frame) (kernelEntry selfEntry : Word) :
    OffStore {g} s.advanceTop (s.fillPml4 g kernelEntry selfEntry) :=
  (offStore_setSlot s.advanceTop g kernelSlot kernelEntry).trans (offStore_setSlot _ g selfSlot _)

theorem translatePage_fillPml4 {g : Frame} (hzero : ∀ j, entries s.mem g j = 0)
    (kernelEntry selfEntry : Word) {v : Word} (hv : UserAddr v) :
    translatePage (s.fillPml4 g kernelEntry selfEntry).mem g v = none := by
  rw [translatePage, path, walk_cons, target_fillPml4 hzero _ _ hv.1 hv.2, Option.bind_none]

/-- The new PML4 sees `kernel_pml4_t` through the shared slot. -/
theorem KernelAddrs.addRoot {g : Frame} (h : KernelAddrs roots s)
    (howned : Owned kernelShared (insert g roots) fs s) : KernelAddrs (insert g roots) s := by
  obtain ⟨k, hk, hmap⟩ := h.pml4Mapped
  have hhead : HeadShared kernelShared (path s.kernelPml4T) :=
    ⟨kernelSlot, rfl, by rw [path_head, h.pml4Slot]⟩
  refine ⟨h.topAligned, h.pml4Aligned, h.pml4Slot, k, Or.inr hk, fun r hr => ?_⟩
  exact (howned.forest.walk_shared (Or.inr hk) hr hhead).trans (hmap k hk)

section Fill

variable {used : List Frame} {g k : Frame}

theorem MappedPage.fill_offStore
    (hpage : MappedPage kernelShared roots used fs₁ (path s.topVirtualAddress) g s s₁)
    (hs : Owned kernelShared roots fs s) (hfs : fs = g :: (used ++ fs₁)) :
    ∀ f ∈ ({g} : Set Frame), ¬ IsPageTable roots s₁.advanceTop.mem f := by
  rintro f rfl
  rw [mem_advanceTop]
  exact hpage.not_table hs hfs

/-- The page at the heap top is the only one that is mapped. -/
theorem MappedPage.fill_other
    (hpage : MappedPage kernelShared roots used fs₁ (path s.topVirtualAddress) g s s₁)
    (hs : Owned kernelShared roots fs s) (hfs : fs = g :: (used ++ fs₁))
    (hstore : OffStore {g} s₁.advanceTop s₂) {r : Frame} (hr : r ∈ roots) {v : Word}
    (hv : pml4Idx v ≠ selfSlot) (hne : path v ≠ path s.topVirtualAddress) :
    translatePage s₂.mem r v = translatePage s.mem r v := by
  rw [hstore.translatePage (hpage.fill_offStore hs hfs) hr hv, mem_advanceTop]
  exact hpage.other hr hv hne

theorem MappedPage.fill_top
    (hpage : MappedPage kernelShared roots used fs₁ (path s.topVirtualAddress) g s s₁)
    (hstore : OffStore {g} s₁.advanceTop s₂) (hwrap : s.topVirtualAddress.toNat + 4096 < 2 ^ 64) :
    s₂.topVirtualAddress.toNat = s.topVirtualAddress.toNat + 4096 := by
  rw [hstore.regs.top]
  exact hpage.top_advance advancesBy_advanceTop hwrap

theorem MappedPage.fill_cr3
    (hpage : MappedPage kernelShared roots used fs₁ (path s.topVirtualAddress) g s s₁)
    (hstore : OffStore {g} s₁.advanceTop s₂) : s₂.cr3 = s.cr3 := by
  rw [hstore.regs.cr3, advances_advanceTop.cr3, hpage.grown.regs.cr3]

/-- The kernel with the new PML4 can load programs. -/
theorem LoadReady.fillPml4 (h : LoadReady roots fs s) (hfs : fs = g :: (used ++ fs₁))
    (hpage : MappedPage kernelShared roots used fs₁ (path s.topVirtualAddress) g s s₁)
    (hstore : OffStore {g} s₁.advanceTop s₂) (howned : Owned kernelShared (insert g roots) fs₁ s₂)
    (hext : Extends roots s s₂) (hwrap : s.topVirtualAddress.toNat + 4096 < 2 ^ 64) :
    LoadReady (insert g roots) fs₁ s₂ where
  owned := howned
  present := h.present.of_extends h.owned.loaded hext
  addrs := (h.addrs.of_extends hext).addRoot howned
  nonzero hmem := by
    refine h.nonzero ?_
    rw [hfs]
    exact List.mem_cons_of_mem g (List.mem_append_right used hmem)
  topSlot := by
    rw [hpage.fill_top hstore hwrap]
    exact h.topSlot.trans (Nat.le_add_right _ _)
  above v hv := by
    have hslot := h.topSlot
    rw [hpage.fill_top hstore hwrap] at hv
    have hother := hpage.fill_other h.owned hfs hstore h.owned.loaded (v := v)
      (pml4Idx_of_heap (by omega)) fun hpath => by
        have heq := page_eq_of_path_eq (by omega) hslot hpath
        have haligned := h.addrs.topAligned
        omega
    rw [Kernel.root, hpage.fill_cr3 hstore]
    exact hother.trans (h.above v (by omega))
  stackTop := by
    rw [hstore.regs.stack, advancesBy_advanceTop.stack, hpage.grown.regs.stack, h.stackTop]

theorem MappedPage.fill_keeps (h : LoadReady roots fs s) (hfs : fs = g :: (used ++ fs₁))
    (hpage : MappedPage kernelShared roots used fs₁ (path s.topVirtualAddress) g s s₁)
    (hstore : OffStore {g} s₁.advanceTop s₂)
    (htables : ∀ f, IsPageTable (insert g roots) s₂.mem f → IsPageTable roots s₂.mem f ∨ f = g)
    (hwrap : s.topVirtualAddress.toNat + 4096 < 2 ^ 64) :
    Keeps roots (insert g roots) fs fs₁ s s₂ := by
  have hg : g ∈ fs := hfs ▸ List.mem_cons_self
  have hmapped : Keeps roots roots fs fs₁ s s₁.advanceTop := by
    refine hpage.keeps_advance advancesBy_advanceTop (fun f hf => ?_) h.addrs.topAligned hwrap
      (Or.inr ⟨h.topSlot, le_rfl⟩)
    rw [hfs]
    exact List.mem_cons_of_mem g hf
  have hfilled := hmapped.offStore hstore fun f hf =>
    ⟨Set.mem_singleton_iff.mp hf ▸ hg, hpage.fill_offStore h.owned hfs f hf⟩
  exact hfilled.addRoot hg htables

/-- Mapping a frame at the heap top and filling it in is a step. -/
theorem MappedPage.fill_step (h : LoadReady roots fs s) (hfs : fs = g :: (used ++ fs₁))
    (hused : used.length ≤ 3)
    (hpage : MappedPage kernelShared roots used fs₁ (path s.topVirtualAddress) g s s₁)
    (hk : k ∈ roots) (hwrap : s.topVirtualAddress.toNat + 4096 < 2 ^ 64) :
    LoadStep roots (insert g roots) 1 4 fs fs₁ s
      (s₁.fillPml4 g (entries s₁.mem k kernelSlot) (g.addr ||| pageUser)) := by
  have hg := hpage.not_table h.owned hfs
  have hzero := hpage.blank h.owned hfs
  obtain ⟨howned, hext⟩ := hpage.owned.fillPml4 hk hg (h.owned.notMem_taken hfs).2 hzero
    entryFlags_pageUser
  have hstore := offStore_fillPml4 s₁ g (entries s₁.mem k kernelSlot) (g.addr ||| pageUser)
  have htables := fun f => isPageTable_fillPml4 hk hg hzero (g.addr ||| pageUser) (f := f)
  generalize s₁.fillPml4 g (entries s₁.mem k kernelSlot) (g.addr ||| pageUser) = s₂
    at howned hext hstore htables ⊢
  refine ⟨h.fillPml4 hfs hpage hstore howned (hpage.extends.trans hext) hwrap,
    hpage.fill_cr3 hstore, hpage.fill_keeps h hfs hstore htables hwrap, fun r hr v hv => ?_,
    fun f hf => ?_, ?_, hpage.fill_top hstore hwrap⟩
  · refine hpage.fill_other h.owned hfs hstore hr hv.1 (path_ne_of_pml4Idx_ne fun hidx => hv.2 ?_)
    rw [hidx]
    exact pml4Idx_of_kernelSlot h.topSlot
  · rw [hfs]
    exact List.mem_cons_of_mem g (List.mem_append_right used hf)
  · rw [hfs, List.length_cons, List.length_append]
    omega

end Fill

/-- The address space of the process: its PML4 was free, and nothing is mapped in its user half. -/
theorem LoadReady.newUserPml4 (h : LoadReady roots fs s) (hlen : 4 ≤ fs.length)
    (hwrap : s.topVirtualAddress.toNat + 4096 < 2 ^ 64) :
    ∃ g v fs' s', SBUnix.newUserPml4 s = .ok (g.addr, v, s') ∧ g ∈ fs ∧
      LoadStep roots (insert g roots) 1 4 fs fs' s s' ∧
      ∀ w, UserAddr w → translatePage s'.mem g w = none := by
  have htaken := h.owned.newUserPml4_taken h.present h.addrs (pml4Idx_of_heap h.topSlot)
  generalize SBUnix.newUserPml4 s = res at htaken
  cases htaken with
  | exhausted hfew => omega
  | refused g fs₁ s₁ hm => exact absurd (h.above _ le_rfl) hm
  | created g k used fs₁ s₁ hfs hused hk hpage =>
    refine ⟨g, s.topVirtualAddress, fs₁, _, rfl, hfs ▸ List.mem_cons_self,
      hpage.fill_step h hfs hused hk hwrap, fun w hw => ?_⟩
    exact translatePage_fillPml4 (hpage.blank h.owned hfs) _ _ hw

end Step

end SBUnix
