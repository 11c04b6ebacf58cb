import SBUnix.Process.Ready

/-
  The areas of a process: pages mapped in its address space while another one stays the caller's.

  `AreaStep` is what creating areas does to the kernel: the pages get frames of their own in the
  address space of the process, and nothing else changes there or in any other user half. It
  composes.
-/

namespace SBUnix

open ByteMem Radix

/-- The `n` pages from `v` on. -/
def pagesFrom (v : Word) (n : Nat) : List Word := (List.range n).map (pageAt v)

theorem mem_pagesFrom {v p : Word} {n : Nat} : p ∈ pagesFrom v n ↔ ∃ i < n, pageAt v i = p := by
  simp [pagesFrom]

@[simp] theorem length_pagesFrom (v : Word) (n : Nat) : (pagesFrom v n).length = n := by
  simp [pagesFrom]

/-! ## Switching address spaces -/

section SetCr3

variable {roots : Set Frame} {fs : List Frame} {s : Kernel} {p : Word} {r r' : Frame} {v : Word}

/-- All address spaces translate slot 511 alike. -/
theorem Owned.translatePage_kernel (h : Owned kernelShared roots fs s) (hr : r ∈ roots)
    (hr' : r' ∈ roots) (hv : pml4Idx v = kernelSlot) :
    translatePage s.mem r' v = translatePage s.mem r v :=
  h.forest.walk_shared hr hr' ⟨kernelSlot, rfl, by rw [path_head, hv]⟩

theorem LoadReady.setCr3 (h : LoadReady roots fs s) (hp : frameOf p ∈ roots) :
    LoadReady roots fs (s.setCr3 p) where
  owned := h.owned.setCr3 hp
  present := h.present.setCr3 h.owned hp
  addrs := h.addrs.setCr3 p
  nonzero := h.nonzero
  topSlot := h.topSlot
  above v hv := by
    have hslot := pml4Idx_of_kernelSlot (h.topSlot.trans hv)
    exact (h.owned.translatePage_kernel h.owned.loaded hp hslot).trans (h.above v hv)
  stackTop := h.stackTop

theorem Keeps.of_setCr3 {roots' : Set Frame} {fs' : List Frame} {s' : Kernel} {q : Word}
    (h : Keeps roots roots' fs fs' (s.setCr3 p) s') :
    Keeps roots roots' fs fs' s (s'.setCr3 q) :=
  ⟨h.created, h.kept, h.data, h.bytes, h.absent, h.top⟩

/-- Stores into data frames leave a kernel ready. -/
theorem LoadReady.offStore {D : Set Frame} {s' : Kernel} (h : LoadReady roots fs s)
    (hstore : OffStore D s s') (hD : ∀ f ∈ D, DataFrame roots fs s.mem f) :
    LoadReady roots fs s' := by
  have htables : ∀ f ∈ D, ¬ IsPageTable roots s.mem f := fun f hf => (hD f hf).1
  have hroot := h.owned.loaded
  refine ⟨hstore.owned h.owned hD, fun i hi => ?_, ⟨?_, ?_, ?_, ?_⟩, h.nonzero, ?_, fun v hv => ?_, ?_⟩
  · rw [hstore.regs.root, hstore.offTable htables s.root (isTable_root hroot (by decide))]
    exact h.present i hi
  · rw [hstore.regs.top]
    exact h.addrs.topAligned
  · rw [hstore.regs.pml4]
    exact h.addrs.pml4Aligned
  · rw [hstore.regs.pml4]
    exact h.addrs.pml4Slot
  · obtain ⟨k, hk, hmap⟩ := h.addrs.pml4Mapped
    refine ⟨k, hk, fun r hr => ?_⟩
    rw [hstore.regs.pml4, hstore.translatePage htables hr (by rw [h.addrs.pml4Slot]; decide)]
    exact hmap r hr
  · rw [hstore.regs.top]
    exact h.topSlot
  · rw [hstore.regs.top] at hv
    rw [hstore.regs.root, hstore.translatePage htables hroot (pml4Idx_of_heap (h.topSlot.trans hv))]
    exact h.above v hv
  · rw [hstore.regs.stack]
    exact h.stackTop

end SetCr3

/-! ## One step -/

/-- In the address space of `g` the `pages` were mapped to the `frames`. -/
structure AreaStep (roots : Set Frame) (g : Frame) (pages : List Word) (frames fs fs' : List Frame)
    (s s' : Kernel) : Prop where
  ready : LoadReady roots fs' s'
  cr3 : s'.cr3 = s.cr3
  top : s'.topVirtualAddress.toNat = s.topVirtualAddress.toNat
  keeps : Keeps roots roots fs fs' s s'
  user : ∀ r ∈ roots, r ≠ g → ∀ v, UserAddr v → translatePage s'.mem r v = translatePage s.mem r v
  other : ∀ v, pml4Idx v ≠ selfSlot → (∀ p ∈ pages, path v ≠ path p) →
    translatePage s'.mem g v = translatePage s.mem g v
  mapped : List.Forall₂ (fun p f => translatePage s'.mem g p = some f) pages frames
  taken : ∀ f ∈ frames, f ∈ fs ∧ DataFrame roots fs' s'.mem f
  nodup : frames.Nodup
  left : ∀ f ∈ fs', f ∈ fs
  few : fs.length ≤ fs'.length + 4 * pages.length

section AreaStep

variable {roots : Set Frame} {fs fs₁ fs₂ gs frames frames₁ : List Frame} {g : Frame}
  {pages pages₁ : List Word} {s s₁ s₂ t t' : Kernel} {v : Word} {n : Nat}

theorem AreaStep.trans (hg : g ∈ roots) (hpages : ∀ p ∈ pages, UserAddr p)
    (h : AreaStep roots g pages frames fs fs₁ s s₁)
    (h' : AreaStep roots g pages₁ frames₁ fs₁ fs₂ s₁ s₂) :
    AreaStep roots g (pages ++ pages₁) (frames ++ frames₁) fs fs₂ s s₂ where
  ready := h'.ready
  cr3 := h'.cr3.trans h.cr3
  top := h'.top.trans h.top
  keeps := h.keeps.trans h'.keeps
  user r hr hne v hv := (h'.user r hr hne v hv).trans (h.user r hr hne v hv)
  other v hv hne := by
    rw [h'.other v hv fun p hp => hne p (List.mem_append_right _ hp),
      h.other v hv fun p hp => hne p (List.mem_append_left _ hp)]
  mapped := by
    refine List.rel_append ?_ h'.mapped
    have hmapped := h.mapped
    rw [List.forall₂_iff_zip] at hmapped ⊢
    refine ⟨hmapped.1, fun hp => ?_⟩
    exact h'.keeps.kept g hg _ _ (hpages _ (List.of_mem_zip hp).1).1 (hmapped.2 hp)
  taken f hf := by
    obtain hf | hf := List.mem_append.mp hf
    · exact ⟨(h.taken f hf).1, h'.keeps.data f (h.taken f hf).2⟩
    · exact ⟨h.left f (h'.taken f hf).1, (h'.taken f hf).2⟩
  nodup := by
    refine List.nodup_append.mpr ⟨h.nodup, h'.nodup, fun f hf f' hf' hff' => ?_⟩
    exact (h.taken f hf).2.2 (hff' ▸ (h'.taken f' hf').1)
  left f hf := h.left f (h'.left f hf)
  few := by
    have := h.few
    have := h'.few
    rw [List.length_append]
    omega

theorem AreaStep.page (h : AreaStep roots g pages frames fs fs₁ s s₁) {p : Word}
    (hp : p ∈ pages) : ∃ f ∈ frames, translatePage s₁.mem g p = some f := by
  obtain ⟨i, hi, rfl⟩ := List.getElem_of_mem hp
  have hi' : i < frames.length := by rwa [← h.mapped.length_eq]
  exact ⟨frames[i], List.getElem_mem hi', h.mapped.get hi hi'⟩

/-- Two pages of a step have different frames. -/
theorem AreaStep.page_inj (h : AreaStep roots g pages frames fs fs₁ s s₁) {p q : Word} {f : Frame}
    (hp : p ∈ pages) (hq : q ∈ pages) (hpf : translatePage s₁.mem g p = some f)
    (hqf : translatePage s₁.mem g q = some f) : p = q := by
  obtain ⟨⟨i, hi⟩, rfl⟩ := List.get_of_mem hp
  obtain ⟨⟨j, hj⟩, rfl⟩ := List.get_of_mem hq
  have hlen := h.mapped.length_eq
  have hi' := Option.some.inj (hpf.symm.trans (h.mapped.get hi (by omega)))
  have hj' := Option.some.inj (hqf.symm.trans (h.mapped.get hj (by omega)))
  have hij := h.nodup.get_inj_iff.mp (hi'.symm.trans hj')
  rw [Fin.mk.injEq] at hij
  congr 1
  exact Fin.ext hij

/-- Mapping user pages leaves a kernel ready. -/
theorem MappedRun.ready (h : LoadReady roots fs s) (hpages : ∀ p ∈ pagesFrom v n, UserAddr p)
    (hgs : gs.length = n) (htop : t.topVirtualAddress.toNat = s.topVirtualAddress.toNat)
    (hrun : MappedRun roots gs fs fs₁ v s t) : LoadReady roots fs₁ t := by
  have hslot := h.topSlot
  refine ⟨hrun.owned, h.present.of_extends h.owned.loaded hrun.space,
    h.addrs.of_extends hrun.space, fun h0 => h.nonzero (hrun.left 0 h0), by rwa [htop],
    fun w hw => ?_, hrun.stack.trans h.stackTop⟩
  rw [htop] at hw
  have hw' : 2 ^ 64 - 2 ^ 39 ≤ w.toNat := hslot.trans hw
  rw [hrun.space.root, hrun.other w (pml4Idx_of_heap hw') fun i hi => ?_]
  · exact h.above w hw
  · refine path_ne_of_pml4Idx_ne fun hidx => ?_
    refine (hpages _ (mem_pagesFrom.mpr ⟨i, by omega, rfl⟩)).2 ?_
    rw [← hidx]
    exact pml4Idx_of_kernelSlot hw'

/-- Mapping pages of the process and storing into their frames is a step of the caller. -/
theorem MappedRun.areaStep (h : LoadReady roots fs s) (hg : g ∈ roots)
    (hpages : ∀ p ∈ pagesFrom v n, UserAddr p) (hgs : gs.length = n)
    (htop : t.topVirtualAddress.toNat = s.topVirtualAddress.toNat)
    (hrun : MappedRun roots gs fs fs₁ v (s.setCr3 g.addr) t)
    (hstore : OffStore {f | f ∈ gs} t t') :
    AreaStep roots g (pagesFrom v n) gs fs fs₁ s (t'.setCr3 s.cr3) := by
  have hroot : (s.setCr3 g.addr).root = g := frameOf_addr g
  have hready₀ : LoadReady roots fs (s.setCr3 g.addr) := h.setCr3 (by rwa [frameOf_addr])
  have hready := hrun.ready hready₀ hpages hgs htop
  have hD : ∀ f ∈ {f | f ∈ gs}, DataFrame roots fs₁ t.mem f := fun f hf =>
    ⟨(hrun.taken f hf).2.2, (hrun.taken f hf).2.1⟩
  have htables : ∀ f ∈ {f | f ∈ gs}, ¬ IsPageTable roots t.mem f := fun f hf => (hD f hf).1
  have hkeeps := hrun.keeps.offStore hstore fun f hf => ⟨(hrun.taken f hf).1, htables f hf⟩
  have hprivate := hrun.space.private_half
  have hother := hrun.other
  have hmapped := hrun.mapped
  rw [hroot] at hprivate hother hmapped
  rw [mem_setCr3] at hprivate hother
  have hloaded : frameOf s.cr3 ∈ roots := h.owned.loaded
  refine ⟨(hready.offStore hstore hD).setCr3 hloaded, rfl, ?_, hkeeps.of_setCr3,
    fun r hr hne w hw => ?_, fun w hw hne => ?_, ?_, fun f hf => ?_, hrun.nodup, hrun.left, ?_⟩
  · show t'.topVirtualAddress.toNat = _
    rw [hstore.regs.top, htop]
  · rw [mem_setCr3, hstore.translatePage htables hr hw.1]
    exact hprivate r hr hne w hw.1 hw.2
  · rw [mem_setCr3, hstore.translatePage htables hg hw]
    exact hother w hw fun i hi => hne _ (mem_pagesFrom.mpr ⟨i, by omega, rfl⟩)
  · refine List.forall₂_iff_get.mpr ⟨by rw [length_pagesFrom, hgs], fun i hi hi' => ?_⟩
    have hmem : pageAt v i ∈ pagesFrom v n := mem_pagesFrom.mpr ⟨i, by omega, rfl⟩
    simp only [pagesFrom, List.get_eq_getElem, List.getElem_map, List.getElem_range]
    rw [mem_setCr3, hstore.translatePage htables hg (hpages _ hmem).1]
    exact hmapped i hi'
  · exact ⟨(hrun.taken f hf).1, hstore.dataFrame hD f hf⟩
  · rw [length_pagesFrom, ← hgs]
    exact hrun.few

end AreaStep

/-! ## The pages of an area -/

/-- The `n` pages from `v` on can be mapped in the address space of `g`. -/
structure PagesReady (g : Frame) (n : Nat) (v : Word) (s : Kernel) : Prop where
  aligned : v.toNat % 4096 = 0
  bound : v.toNat + 4096 * n < 2 ^ 64
  user : ∀ p ∈ pagesFrom v n, UserAddr p
  different : ∀ i < n, ∀ j < n, path (pageAt v i) = path (pageAt v j) → i = j
  absent : ∀ p ∈ pagesFrom v n, translatePage s.mem g p = none

section Pages

variable {roots : Set Frame} {fs fs' gs : List Frame} {g : Frame} {s s' t : Kernel} {v : Word}
  {n j k : Nat}

theorem LoadReady.mapArea (h : LoadReady roots fs s) (hg : g ∈ roots) {size : Word}
    (hsize : (noOfPages size).toNat = n) (hready : PagesReady g n v s) (hlen : 4 * n ≤ fs.length) :
    ∃ gs fs' t, kmallocTopVirtualAddressUser size v (s.setCr3 g.addr) = .ok (v, t) ∧
      gs.length = n ∧ t.topVirtualAddress.toNat = s.topVirtualAddress.toNat ∧
      MappedRun roots gs fs fs' v (s.setCr3 g.addr) t := by
  have hmem : ∀ i < n, pageAt v i ∈ pagesFrom v n := fun i hi => mem_pagesFrom.mpr ⟨i, hi, rfl⟩
  have hready₀ : LoadReady roots fs (s.setCr3 g.addr) := h.setCr3 (by rwa [frameOf_addr])
  have hrun : RunReady 0 n v (s.setCr3 g.addr) := by
    refine ⟨h.addrs.topAligned, ?_, fun i hi => (hready.user _ (hmem i hi)).1,
      fun i hi => Or.inl (hready.user _ (hmem i hi)).2, hready.different, fun i hi => ?_⟩
    · rw [Nat.zero_mul, Nat.add_zero]
      exact BitVec.isLt _
    · rw [root_setCr3, frameOf_addr]
      exact hready.absent _ (hmem i hi)
  obtain ⟨gs, fs', t, hloop, hgs, htop, hmapped⟩ := hready₀.owned.mapRun advancesBy_id
    entryFlags_pageUser v n hready₀.present h.nonzero hlen hrun
  refine ⟨gs, fs', t, ?_, hgs, ?_, hmapped⟩
  · unfold kmallocTopVirtualAddressUser
    rw [hsize]
    exact hloop
  · rw [htop, Nat.zero_mul, Nat.add_zero]
    rfl

/-- Where one of the pages is mapped already, none is returned. -/
theorem LoadReady.mapArea_refused (h : LoadReady roots fs s) (hg : g ∈ roots) {size : Word}
    (hsize : (noOfPages size).toNat = n) (hlen : 4 * n ≤ fs.length)
    (huser : ∀ p ∈ pagesFrom v n, UserAddr p)
    (hdifferent : ∀ i < n, ∀ j < n, path (pageAt v i) = path (pageAt v j) → i = j)
    (hmapped : ∃ p ∈ pagesFrom v n, translatePage s.mem g p ≠ none) :
    ∃ t, kmallocTopVirtualAddressUser size v (s.setCr3 g.addr) = .ok (0, t) ∧
      ∀ w, pml4Idx w ≠ selfSlot → (∀ p ∈ pagesFrom v n, path w ≠ path p) →
        translatePage t.mem t.root w = translatePage s.mem g w := by
  have hmem : ∀ i < n, pageAt v i ∈ pagesFrom v n := fun i hi => mem_pagesFrom.mpr ⟨i, hi, rfl⟩
  have hready₀ : LoadReady roots fs (s.setCr3 g.addr) := h.setCr3 (by rwa [frameOf_addr])
  have hroot : (s.setCr3 g.addr).root = g := frameOf_addr g
  obtain ⟨t, hloop, hother⟩ := hready₀.owned.mapRun_refused entryFlags_pageUser v n
    hready₀.present hlen (fun i hi => (huser _ (hmem i hi)).1) hdifferent (by
      obtain ⟨p, hp, hmap⟩ := hmapped
      obtain ⟨i, hi, rfl⟩ := mem_pagesFrom.mp hp
      exact ⟨i, hi, by rwa [hroot]⟩)
  refine ⟨t, ?_, fun w hw hne => ?_⟩
  · unfold kmallocTopVirtualAddressUser
    rw [hsize]
    exact hloop
  · rw [hother w hw fun i hi => hne _ (hmem i hi), hroot]
    rfl

/-- Byte `k` of an area lies in its page `k / 4096`. -/
theorem add_ofNat_toNat (hk : v.toNat + k < 2 ^ 64) :
    (v + BitVec.ofNat 64 k).toNat = v.toNat + k := by
  rw [BitVec.toNat_add, BitVec.toNat_ofNat]
  omega

theorem path_add_ofNat (hv : v.toNat % 4096 = 0) (hk : v.toNat + k < 2 ^ 64) :
    path (v + BitVec.ofNat 64 k) = path (pageAt v (k / 4096)) := by
  apply path_eq_of_page_eq
  rw [add_ofNat_toNat hk, pageAt_toNat (by omega)]
  omega

theorem pageOff_add_ofNat (hv : v.toNat % 4096 = 0) (hk : v.toNat + k < 2 ^ 64) :
    (pageOff (v + BitVec.ofNat 64 k)).toNat = k % 4096 := by
  rw [pageOff_toNat, add_ofNat_toNat hk]
  omega

theorem pml4Idx_add_ofNat (hv : v.toNat % 4096 = 0) (hk : v.toNat + k < 2 ^ 64) :
    pml4Idx (v + BitVec.ofNat 64 k) = pml4Idx (pageAt v (k / 4096)) := by
  by_contra hne
  exact path_ne_of_pml4Idx_ne hne (path_add_ofNat hv hk)

/-- The physical address of byte `k` of an area with the frames `gs`. -/
def byteOf (gs : List Frame) (k : Nat) : Nat := (gs.getD (k / 4096) 0).toNat * 4096 + k % 4096

theorem byteOf_frame (gs : List Frame) (k : Nat) :
    byteOf gs k / 4096 = (gs.getD (k / 4096) 0).toNat := by
  unfold byteOf
  omega

theorem frame_mem (hk : k < 4096 * gs.length) : gs.getD (k / 4096) 0 ∈ gs := by
  have hlt : k / 4096 < gs.length := by omega
  rw [List.getD_eq_getElem _ _ hlt]
  exact List.getElem_mem hlt

theorem byteOf_inj (hnodup : gs.Nodup) (hj : j < 4096 * gs.length) (hk : k < 4096 * gs.length)
    (h : byteOf gs j = byteOf gs k) : j = k := by
  have hframe : gs.getD (j / 4096) 0 = gs.getD (k / 4096) 0 := by
    apply BitVec.eq_of_toNat_eq
    rw [← byteOf_frame, ← byteOf_frame, h]
  have hpage : j / 4096 = k / 4096 := by
    rw [List.getD_eq_getElem _ _ (by omega), List.getD_eq_getElem _ _ (by omega)] at hframe
    exact (hnodup.getElem_inj_iff).mp hframe
  unfold byteOf at h
  rw [hframe] at h
  omega

/-- The pages of an area as the destination of a copy. -/
theorem MappedRun.copyTo (hready : PagesReady g n v s) (hgs : gs.length = n)
    (hrun : MappedRun roots gs fs fs' v (s.setCr3 g.addr) t) :
    CopyTo {f | f ∈ gs} t v (4096 * n) (byteOf gs) := by
  have hbound := hready.bound
  have hroot : t.root = g := hrun.space.root.trans (frameOf_addr g)
  refine ⟨fun k hk => ?_, fun k hk => ?_, fun k hk => ?_⟩
  · rw [pml4Idx_add_ofNat hready.aligned (by omega)]
    exact (hready.user _ (mem_pagesFrom.mpr ⟨k / 4096, by omega, rfl⟩)).1
  · have hlt : k / 4096 < gs.length := by omega
    have hpage := hrun.mapped (k / 4096) hlt
    have hmap : translatePage t.mem t.root (v + BitVec.ofNat 64 k) = some gs[k / 4096] := by
      rw [root_setCr3, frameOf_addr] at hpage
      rw [translatePage, path_add_ofNat hready.aligned (by omega), hroot]
      exact hpage
    rw [translate_eq_some hmap, pageOff_add_ofNat hready.aligned (by omega), byteOf,
      List.getD_eq_getElem _ _ hlt]
  · exact ⟨gs.getD (k / 4096) 0, frame_mem (by omega), byteOf_frame gs k⟩

end Pages

end SBUnix
