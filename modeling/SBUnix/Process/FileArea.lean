import SBUnix.Process.Areas

/-
  One `TYPE_FILE` area.

  The loop of `create_process` copies whole pages, from `elf_head + vm_offset` counted in words.
  `LoadReady.createFileArea` says that the area gets these bytes when all of them are mapped,
  `LoadReady.createFileArea_unreadable` and `LoadReady.createFileArea_empty` that it faults when
  one is not, or when there is no page and the printed bytes are not mapped.
-/

namespace SBUnix

open ByteMem Radix

/-- The byte at `v` in the address space of `r`, if there is one, is data of the kernel half. -/
def KernelData (roots : Set Frame) (fs : List Frame) (s : Kernel) (r : Frame) (v : Word) : Prop :=
  pml4Idx v = kernelSlot ∧ ∀ f, translatePage s.mem r v = some f → DataFrame roots fs s.mem f

section FileArea

variable {roots roots' : Set Frame} {fs fs' gs frames : List Frame} {g r : Frame} {s s' t : Kernel}
  {pages : List Word} {v o elf_head : Word} {n : Nat} {temp : VmAreaStruct}

theorem KernelData.slot_ne (h : KernelData roots fs s r v) : pml4Idx v ≠ selfSlot := by
  rw [h.1]
  decide

/-- Kernel data stays when the translation does. -/
theorem KernelData.keeps (h : KernelData roots fs s r v) (hr : r ∈ roots)
    (hkeeps : Keeps roots roots' fs fs' s s')
    (hsame : translatePage s'.mem r v = translatePage s.mem r v) :
    KernelData roots' fs' s' r v ∧ byteAt s'.mem r v = byteAt s.mem r v := by
  refine ⟨⟨h.1, fun f hf => hkeeps.data f (h.2 f (hsame ▸ hf))⟩, ?_⟩
  cases htr : translatePage s.mem r v with
  | none => rw [byteAt_eq_none.mpr htr, byteAt_eq_none.mpr (hsame.trans htr)]
  | some f => exact hkeeps.byteAt hr h.slot_ne htr (h.2 f htr)

theorem AreaStep.kernelData (h : AreaStep roots g pages frames fs fs' s s') (hg : g ∈ roots)
    (hpages : ∀ p ∈ pages, UserAddr p) (hv : KernelData roots fs s g v) :
    KernelData roots fs' s' g v ∧ byteAt s'.mem g v = byteAt s.mem g v := by
  refine hv.keeps hg h.keeps (h.other v hv.slot_ne fun p hp => path_ne_of_pml4Idx_ne fun hidx => ?_)
  exact (hpages p hp).2 (hidx ▸ hv.1)

theorem createFileArea_eq (hstart : pageAlign temp.vmStart = v)
    (hsize : (roundUp (temp.vmEnd - v)).toNat = 4096 * n)
    (hmap : kmallocTopVirtualAddressUser (roundUp (temp.vmEnd - v)) v (s.setCr3 g.addr) =
      .ok (v, t)) (old_cr3 : Word) :
    createFileArea g.addr old_cr3 elf_head temp s = (do
      let s ← copyLoop (4096 * n) v (elf_head + 8 * temp.vmOffset) t
      let _ ← s.loadByte (v + 1)
      let _ ← s.loadByte (v + 2)
      return s.setCr3 old_cr3) := by
  unfold createFileArea
  dsimp only
  rw [hstart, hmap, ok_bind]
  dsimp only
  rw [hsize]

/-- An area can be created: it is `n` pages from `v` on, that can be mapped, and its source is
    data of the kernel half. -/
structure FileReady (roots : Set Frame) (fs : List Frame) (g : Frame) (elf_head : Word) (n : Nat)
    (v : Word) (temp : VmAreaStruct) (s : Kernel) : Prop extends PagesReady g n v s where
  start : pageAlign temp.vmStart = v
  size : (roundUp (temp.vmEnd - v)).toNat = 4096 * n
  startUser : UserAddr v
  source : ∀ k < 4096 * n,
    KernelData roots fs s g (elf_head + 8 * temp.vmOffset + BitVec.ofNat 64 k)

theorem FileReady.noOfPages (h : FileReady roots fs g elf_head n v temp s) :
    (noOfPages (roundUp (temp.vmEnd - v))).toNat = n := by
  rw [noOfPages_toNat, h.size]
  omega

/-- The two bytes that are printed lie in the page of `v`. -/
theorem loadByte_of_aligned (hv : v.toNat % 4096 = 0) (ho : o.toNat < 4096)
    (hmap : translatePage s.mem s.root v ≠ none) : ∃ b, s.loadByte (v + o) = .ok b := by
  obtain ⟨f, hf⟩ := Option.ne_none_iff_exists'.mp hmap
  have hf' : translatePage s.mem s.root (v + o) = some f := by
    rw [BitVec.add_comm, translatePage, path_add_of_aligned hv ho]
    exact hf
  exact ⟨_, Kernel.loadByte_of_byteAt (byteAt_of_translatePage hf')⟩

theorem LoadReady.createFileArea (h : LoadReady roots fs s) (hg : g ∈ roots)
    (ha : FileReady roots fs g elf_head n v temp s) (hlen : 4 * n ≤ fs.length)
    (hread : ∀ k < 4096 * n,
      byteAt s.mem g (elf_head + 8 * temp.vmOffset + BitVec.ofNat 64 k) ≠ none)
    (hempty : n = 0 → translatePage s.mem g v ≠ none) :
    ∃ gs fs' s', createFileArea g.addr s.cr3 elf_head temp s = .ok s' ∧
      AreaStep roots g (pagesFrom v n) gs fs fs' s s' ∧
      ∀ k < 4096 * n, byteAt s'.mem g (v + BitVec.ofNat 64 k) =
        byteAt s.mem g (elf_head + 8 * temp.vmOffset + BitVec.ofNat 64 k) := by
  obtain ⟨gs, fs', t, hmap, hgs, htop, hrun⟩ := h.mapArea hg ha.noOfPages ha.toPagesReady hlen
  generalize ho : elf_head + 8 * temp.vmOffset = o at hread
  have hsource := ha.source
  rw [ho] at hsource
  have hroot : t.root = g := hrun.space.root.trans (frameOf_addr g)
  have hdata : ∀ f ∈ {f | f ∈ gs}, DataFrame roots fs' t.mem f := fun f hf =>
    ⟨(hrun.taken f hf).2.2, (hrun.taken f hf).2.1⟩
  have hto := hrun.copyTo ha.toPagesReady hgs
  -- the source lies in data frames, which mapping the pages leaves alone
  choose! src hsrc using fun k hk => Option.ne_none_iff_exists'.mp
    (mt byteAt_eq_none.mpr (hread k hk))
  have hkept : ∀ k < 4096 * n, translatePage t.mem t.root (o + BitVec.ofNat 64 k) =
      some (src k) := by
    intro k hk
    rw [hroot]
    exact hrun.keeps.kept g hg _ _ (hsource k hk).slot_ne (hsrc k hk)
  have hapart : ∀ j < 4096 * n, ∀ k < 4096 * n, byteOf gs j ≠
      (src k).toNat * 4096 + (pageOff (o + BitVec.ofNat 64 k)).toNat := by
    intro j hj k hk hjk
    have hlt := (pageOff (o + BitVec.ofNat 64 k)).isLt
    have hframe := byteOf_frame gs j
    have hmem : gs.getD (j / 4096) 0 ∈ gs := frame_mem (by omega)
    have hsame : src k = gs.getD (j / 4096) 0 := by
      apply BitVec.eq_of_toNat_eq
      omega
    exact ((hsource k hk).2 _ (hsrc k hk)).2 (hsame ▸ (hrun.taken _ hmem).1)
  obtain ⟨t', hcopy, hstore, hcopied, -⟩ := copyLoop_copied hrun.owned hto hdata
    (fun k hk => (hsource k hk).slot_ne) (fun k hk => translate_eq_some (hkept k hk))
    (fun j hj k hk hjk => byteOf_inj hrun.nodup (by omega) (by omega) hjk) hapart
  have hstep := hrun.areaStep h hg ha.user hgs htop hstore
  have hroot' : t'.root = g := hstore.regs.root.trans hroot
  have hmapped : translatePage t'.mem t'.root v ≠ none := by
    rw [hroot']
    by_cases hn : n = 0
    · have hother := hstep.other v ha.startUser.1 (by simp [hn, pagesFrom])
      exact fun hnone => hempty hn (hother.symm.trans hnone)
    · have hpage : v ∈ pagesFrom v n := mem_pagesFrom.mpr ⟨0, by omega, pageAt_zero v⟩
      obtain ⟨f, -, hf⟩ := hstep.page hpage
      exact fun hnone => absurd (hnone.symm.trans hf) (by simp)
  obtain ⟨b₁, hb₁⟩ := loadByte_of_aligned (o := 1) ha.aligned (by decide) hmapped
  obtain ⟨b₂, hb₂⟩ := loadByte_of_aligned (o := 2) ha.aligned (by decide) hmapped
  refine ⟨gs, fs', t'.setCr3 s.cr3, ?_, hstep, fun k hk => ?_⟩
  · rw [createFileArea_eq ha.start ha.size hmap, ho, hcopy, ok_bind, hb₁, ok_bind, hb₂]
    rfl
  · have hlt := (pageOff (o + BitVec.ofNat 64 k)).isLt
    have hdst : translate t'.mem g (v + BitVec.ofNat 64 k) = some (byteOf gs k) := by
      have hphys := hto.phys k hk
      rw [hroot] at hphys
      rw [← hphys]
      exact translate_congr (hstore.translatePage (fun f hf => (hdata f hf).1) hg (hto.slot k hk))
    rw [byteAt_of_translatePage (hsrc k hk)]
    show (translate t'.mem g _).map t'.mem = _
    rw [hdst, Option.map_some, hcopied k hk,
      hrun.keeps.bytes (src k) ((hsource k hk).2 _ (hsrc k hk)) _ (by omega)]
    rfl

/-- A source byte that is not mapped stops the copy. -/
theorem LoadReady.createFileArea_unreadable (h : LoadReady roots fs s) (hg : g ∈ roots)
    (ha : FileReady roots fs g elf_head n v temp s) (hlen : 4 * n ≤ fs.length)
    (hread : ∃ k < 4096 * n,
      byteAt s.mem g (elf_head + 8 * temp.vmOffset + BitVec.ofNat 64 k) = none) :
    ∃ e, SBUnix.createFileArea g.addr s.cr3 elf_head temp s = .error e := by
  obtain ⟨gs, fs', t, hmap, hgs, htop, hrun⟩ := h.mapArea hg ha.noOfPages ha.toPagesReady hlen
  have hroot : t.root = g := hrun.space.root.trans (frameOf_addr g)
  have hdata : ∀ f ∈ {f | f ∈ gs}, DataFrame roots fs' t.mem f := fun f hf =>
    ⟨(hrun.taken f hf).2.2, (hrun.taken f hf).2.1⟩
  obtain ⟨k, hk, hnone⟩ := hread
  have hstep := hrun.areaStep h hg ha.user hgs htop (OffStore.refl _ t)
  have hfault : byteAt t.mem t.root (elf_head + 8 * temp.vmOffset + BitVec.ofNat 64 k) = none := by
    rw [hroot]
    exact (hstep.kernelData hg ha.user (ha.source k hk)).2.trans hnone
  obtain ⟨e, he⟩ := copyLoop_absent hrun.owned (hrun.copyTo ha.toPagesReady hgs) hdata
    (fun k hk => (ha.source k hk).slot_ne) ⟨k, hk, hfault⟩
  refine ⟨e, ?_⟩
  rw [createFileArea_eq ha.start ha.size hmap, he]
  rfl

/-- Without a page to map, the page of `v` has to be there for the bytes that are printed. -/
theorem LoadReady.createFileArea_empty (h : LoadReady roots fs s) (hg : g ∈ roots)
    (ha : FileReady roots fs g elf_head 0 v temp s) (hnone : translatePage s.mem g v = none) :
    ∃ e, SBUnix.createFileArea g.addr s.cr3 elf_head temp s = .error e := by
  obtain ⟨gs, fs', t, hmap, hgs, htop, hrun⟩ :=
    h.mapArea hg ha.noOfPages ha.toPagesReady (Nat.zero_le _)
  have hroot : t.root = g := hrun.space.root.trans (frameOf_addr g)
  have hstep := hrun.areaStep h hg ha.user hgs htop (OffStore.refl _ t)
  have hsame : translatePage t.mem g v = none :=
    (hstep.other v ha.startUser.1 (by simp [pagesFrom])).trans hnone
  have hfault : byteAt t.mem t.root (v + 1) = none := by
    rw [hroot, byteAt_eq_none, BitVec.add_comm, translatePage,
      path_add_of_aligned ha.aligned (by decide)]
    exact hsame
  refine ⟨.pageFault (v + 1), ?_⟩
  rw [createFileArea_eq ha.start ha.size hmap, Nat.mul_zero, copyLoop, ok_bind,
    Kernel.loadByte_of_none hfault]
  rfl

/-- Where a page of the area is mapped already, the copy goes to the null page. -/
theorem LoadReady.createFileArea_refused (h : LoadReady roots fs s) (hg : g ∈ roots)
    (hstart : pageAlign temp.vmStart = v) (hn : (noOfPages (roundUp (temp.vmEnd - v))).toNat = n)
    (hlen : 4 * n ≤ fs.length) (huser : ∀ p ∈ pagesFrom v n, UserAddr p)
    (hdifferent : ∀ i < n, ∀ j < n, path (pageAt v i) = path (pageAt v j) → i = j)
    (hmapped : ∃ p ∈ pagesFrom v n, translatePage s.mem g p ≠ none)
    (hnull : translatePage s.mem g 0 = none) (hother : ∀ p ∈ pagesFrom v n, path 0 ≠ path p)
    (elf_head : Word) : ∃ e, SBUnix.createFileArea g.addr s.cr3 elf_head temp s = .error e := by
  have hpos : 0 < n := by
    obtain ⟨p, hp, -⟩ := hmapped
    obtain ⟨i, hi, -⟩ := mem_pagesFrom.mp hp
    omega
  obtain ⟨t, hmap, hsame⟩ := h.mapArea_refused hg hn hlen huser hdifferent hmapped
  have hfault : translate t.mem t.root 0 = none := by
    rw [translate, (hsame 0 (by decide) hother).trans hnull]
    rfl
  obtain ⟨m, hm⟩ : ∃ m, (roundUp (temp.vmEnd - v)).toNat = m + 1 := by
    rw [noOfPages_toNat] at hn
    exact Nat.exists_eq_succ_of_ne_zero (by omega)
  unfold SBUnix.createFileArea
  dsimp only
  rw [hstart, hmap, ok_bind]
  dsimp only
  rw [hm, copyLoop]
  cases t.loadByte (elf_head + 8 * temp.vmOffset) with
  | error e => exact ⟨e, rfl⟩
  | ok b =>
    refine ⟨.pageFault 0, ?_⟩
    unfold Kernel.storeByte Kernel.phys
    rw [hfault]
    rfl

end FileArea

end SBUnix
