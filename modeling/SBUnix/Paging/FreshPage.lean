import SBUnix.Paging.PageWalk

/-
  Mapping a fresh frame, and filling it in as a new PML4.

  `mapFresh` is the body of the `kmalloc` loop: take a frame and walk. `FreshOutcome` lists what
  it can do on owned page tables, and `CreateOutcome` does the same for `create_new_user_pml4`,
  which also writes two entries into the frame it maps. Everything the `kmalloc` family does is
  a sequence of these two.
-/

namespace SBUnix

open ByteMem Radix

/-! ## Pages of consecutive addresses -/

theorem pml4Idx_toNat (v : Word) : (pml4Idx v).toNat = v.toNat / 2 ^ 39 % 512 := by
  simp [pml4Idx, BitVec.extractLsb'_toNat, Nat.shiftRight_eq_div_pow]

theorem pdpIdx_toNat (v : Word) : (pdpIdx v).toNat = v.toNat / 2 ^ 30 % 512 := by
  simp [pdpIdx, BitVec.extractLsb'_toNat, Nat.shiftRight_eq_div_pow]

theorem pdIdx_toNat (v : Word) : (pdIdx v).toNat = v.toNat / 2 ^ 21 % 512 := by
  simp [pdIdx, BitVec.extractLsb'_toNat, Nat.shiftRight_eq_div_pow]

theorem ptIdx_toNat (v : Word) : (ptIdx v).toNat = v.toNat / 2 ^ 12 % 512 := by
  simp [ptIdx, BitVec.extractLsb'_toNat, Nat.shiftRight_eq_div_pow]

/-- Two addresses have the same path exactly when they agree on bits 12 to 47. -/
theorem path_eq_iff (v w : Word) :
    path v = path w ↔ v.toNat / 4096 % 2 ^ 36 = w.toNat / 4096 % 2 ^ 36 := by
  have hv := pml4Idx_toNat v
  have hw := pml4Idx_toNat w
  have hv' := pdpIdx_toNat v
  have hw' := pdpIdx_toNat w
  have hv'' := pdIdx_toNat v
  have hw'' := pdIdx_toNat w
  have hv''' := ptIdx_toNat v
  have hw''' := ptIdx_toNat w
  simp only [path, List.cons.injEq, ← BitVec.toNat_inj, and_true]
  omega

theorem path_eq_of_page_eq {v w : Word} (h : v.toNat / 4096 = w.toNat / 4096) :
    path v = path w := by
  rw [path_eq_iff, h]

/-- Below the end of its page an offset is just added. -/
theorem toNat_add_of_aligned {o v : Word} (hv : v.toNat % 4096 = 0) (ho : o.toNat < 4096) :
    (o + v).toNat = o.toNat + v.toNat := by
  have := v.isLt
  rw [BitVec.toNat_add]
  omega

theorem path_add_of_aligned {o v : Word} (hv : v.toNat % 4096 = 0) (ho : o.toNat < 4096) :
    path (o + v) = path v := by
  apply path_eq_of_page_eq
  rw [toNat_add_of_aligned hv ho]
  omega

theorem pageOff_add_of_aligned {o v : Word} (hv : v.toNat % 4096 = 0) (ho : o.toNat < 4096) :
    (pageOff (o + v)).toNat = o.toNat := by
  rw [pageOff_toNat, toNat_add_of_aligned hv ho]
  omega

/-! ## Words of a mapped page -/

section Page

variable {s : Kernel} {v o : Word} {f : Frame} {i : Idx}

/-- Word `i` of a mapped page is entry `i` of its frame. -/
theorem Kernel.phys_page (hv : v.toNat % 4096 = 0) (ho : o.toNat = i.toNat * 8)
    (hw : s.tableAt (path v) = some f) :
    (pageOff (o + v)).toNat ≤ 4088 ∧ translate s.mem s.root (o + v) = some (entryAddr f i) := by
  have hi := i.isLt
  have hlt : o.toNat < 4096 := by omega
  have hpage : translatePage s.mem s.root (o + v) = some f := by
    unfold translatePage
    rw [path_add_of_aligned hv hlt]
    exact hw
  rw [translate_eq_some hpage, pageOff_add_of_aligned hv hlt, ho]
  exact ⟨by omega, rfl⟩

theorem Kernel.load_page (hv : v.toNat % 4096 = 0) (ho : o.toNat = i.toNat * 8)
    (hw : s.tableAt (path v) = some f) : s.load (o + v) = .ok (entries s.mem f i) := by
  obtain ⟨hoff, htr⟩ := Kernel.phys_page hv ho hw
  unfold load phys
  rw [if_pos hoff, htr]
  rfl

theorem Kernel.store_page (hv : v.toNat % 4096 = 0) (ho : o.toNat = i.toNat * 8)
    (hw : s.tableAt (path v) = some f) (e : Word) : s.store (o + v) e = .ok (s.setSlot f i e) := by
  obtain ⟨hoff, htr⟩ := Kernel.phys_page hv ho hw
  unfold store phys
  rw [if_pos hoff, htr]
  rfl

end Page

/-! ## Frames that are no tables -/

section OffTable

variable {shared : Set Idx} {roots : Set Frame} {fs : List Frame} {s s' : Kernel}

/-- The entries of every page table are the same in `s'`. -/
def OffTable (roots : Set Frame) (s s' : Kernel) : Prop :=
  ∀ g, IsPageTable roots s.mem g → ∀ j, entries s'.mem g j = entries s.mem g j

theorem OffTable.walk_eq (h : OffTable roots s s') {r : Frame} (hr : r ∈ roots) {q : List Idx}
    (hq : q.length = 4) (hh : q.head? ≠ some selfSlot) :
    walk target (entries s'.mem) r q = walk target (entries s.mem) r q :=
  walk_congr_tables h hr ⟨hq.le, hh⟩

theorem OffTable.isPageTable_iff (h : OffTable roots s s') (g : Frame) :
    IsPageTable roots s'.mem g ↔ IsPageTable roots s.mem g :=
  isTable_congr_tables h g

theorem offTable_setSlot {g : Frame} (hg : ¬ IsPageTable roots s.mem g) (i : Idx) (e : Word) :
    OffTable roots s (s.setSlot g i e) := by
  intro x hx j
  rw [entries_setSlot, setEntry_of_frame_ne]
  intro hxg
  exact hg (hxg ▸ hx)

/-- Storing into a frame that is neither a table nor free keeps the page tables owned. -/
theorem Owned.setSlot_offTable (h : Owned shared roots fs s) {g : Frame}
    (hg : ¬ IsPageTable roots s.mem g) (hfree : g ∉ fs) (i : Idx) (e : Word) :
    Owned shared roots fs (s.setSlot g i e) := by
  have hoff := offTable_setSlot hg i e
  refine ⟨h.forest.congr_tables (by decide) hoff, h.loaded, ?_, h.free, h.nodup, ?_, ?_⟩
  · intro x hx j hj
    rw [hoff.isPageTable_iff] at hx
    rw [hoff x hx] at hj ⊢
    exact h.writable x hx j hj
  · intro x hx j
    rw [entries_setSlot, setEntry_of_frame_ne]
    · exact h.zero x hx j
    · intro hxg
      exact hfree (hxg ▸ hx)
  · intro x hx hxt
    rw [hoff.isPageTable_iff] at hxt
    exact h.unused x hx hxt

end OffTable

/-! ## The frame of a mapped page -/

/-- Entries only depend on the bytes of their frame. -/
theorem entries_congr {mem mem' : Mem} {g : Frame}
    (h : ∀ x, x / 4096 = g.toNat → mem' x = mem x) (j : Idx) : entries mem' g j = entries mem g j := by
  have hj := j.isLt
  refine readWord_congr fun k hk => h _ ?_
  unfold entryAddr
  omega

section Mapped

variable {shared : Set Idx} {roots : Set Frame} {used fs fs₁ : List Frame} {q₀ : List Idx}
  {g : Frame} {s s₁ s₂ : Kernel}

/-- The page may be seen as mapped from before its frame was taken. -/
theorem MappedPage.of_taken (hmem : s₁.mem = s.mem) (hregs : s.SameRegs s₁)
    (h : MappedPage shared roots used fs₁ q₀ g s₁ s₂) :
    MappedPage shared roots used fs₁ q₀ g s s₂ := by
  have hsame : SameTrans roots s s₁ := by
    intro r hr q hq hh
    rw [hmem]
  exact ⟨h.owned, (Grown.of_mem_eq hmem hregs).trans h.grown, hsame.mapsOnly hregs.root h.maps⟩

theorem Owned.notMem_taken (h : Owned shared roots fs s) (hfs : fs = g :: (used ++ fs₁)) :
    g ∉ used ∧ g ∉ fs₁ := by
  have hnodup := h.nodup
  rw [hfs] at hnodup
  exact not_or.mp (List.mem_append.not.mp (List.nodup_cons.mp hnodup).1)

theorem MappedPage.not_table (h : MappedPage shared roots used fs₁ q₀ g s s₁)
    (hs : Owned shared roots fs s) (hfs : fs = g :: (used ++ fs₁)) :
    ¬ IsPageTable roots s₁.mem g :=
  h.grown.not_table (hs.unused g (hfs ▸ List.mem_cons_self)) (hs.notMem_taken hfs).1

/-- It is still blank. -/
theorem MappedPage.blank (h : MappedPage shared roots used fs₁ q₀ g s s₁)
    (hs : Owned shared roots fs s) (hfs : fs = g :: (used ++ fs₁)) (j : Idx) :
    entries s₁.mem g j = 0 := by
  have hg : g ∈ fs := hfs ▸ List.mem_cons_self
  have hbytes := fun x hx => h.grown.data (hs.unused g hg) (hs.notMem_taken hfs).1 (x := x) hx
  rw [entries_congr hbytes]
  exact hs.zero g hg j

/-- The other pages stay, in every address space. -/
theorem MappedPage.other {v w : Word} (h : MappedPage shared roots used fs₁ (path v) g s s₁)
    {r : Frame} (hr : r ∈ roots) (hw : pml4Idx w ≠ selfSlot) (hne : path w ≠ path v) :
    translatePage s₁.mem r w = translatePage s.mem r w :=
  h.maps.other r hr (path w) (path_length w) (path_head_ne hw) fun hcond => hne hcond.1

end Mapped

/-! ## A fresh page -/

/-- The body of the `kmalloc` loop. -/
def mapFresh (flags v : Word) (s : Kernel) : Except Fault (Word × Kernel) := do
  let (pAddr, s) ← s.takeFrame
  if pAddr = 0 then return (0, s)
  walkAndMap flags pAddr v s

theorem kmallocLoop_succ (flags : Word) (advance : Kernel → Kernel) (top : Word) (n : Nat)
    (v : Word) (s : Kernel) :
    kmallocLoop (walkAndMap flags) advance top (n + 1) v s = (do
      let (result, s) ← mapFresh flags v s
      if result = 0 then return (0, s)
      kmallocLoop (walkAndMap flags) advance top n (pageSize + v) (advance s)) := by
  unfold mapFresh
  rw [kmallocLoop]
  cases s.takeFrame with
  | error e => rfl
  | ok q =>
    simp only [ok_bind]
    split_ifs <;> rfl

theorem Frame.addr_eq_zero (g : Frame) : g.addr = 0 ↔ g = 0 := by
  rw [← BitVec.toNat_inj, ← BitVec.toNat_inj, Frame.addr_toNat]
  simp

section Fresh

variable {shared : Set Idx} {roots : Set Frame} {fs : List Frame} {s : Kernel} {v flags : Word}

/-- What `mapFresh` does: it runs out of frames, it takes a frame and gives up (frame 0, or the
    page was mapped), or it maps the page. -/
inductive FreshOutcome (shared : Set Idx) (roots : Set Frame) (fs : List Frame) (s : Kernel)
    (v : Word) : Except Fault (Word × Kernel) → Prop
  | exhausted : fs.length < 4 → FreshOutcome shared roots fs s v (.error (.strayRead kernbase))
  | refused (g : Frame) (fs₁ : List Frame) (s₁ : Kernel) : fs = g :: fs₁ →
      (g = 0 ∨ s.tableAt (path v) ≠ none) → s₁.mem = s.mem → s.SameRegs s₁ →
      Owned shared roots fs₁ s₁ → FreshOutcome shared roots fs s v (.ok (0, s₁))
  | mapped (g : Frame) (used fs₁ : List Frame) (s₁ : Kernel) : fs = g :: (used ++ fs₁) →
      used.length ≤ 3 → s.tableAt (path v) = none →
      MappedPage shared roots used fs₁ (path v) g s s₁ →
      FreshOutcome shared roots fs s v (.ok (1, s₁))

theorem Owned.mapFresh (h : Owned shared roots fs s) (hf : EntryFlags flags)
    (hsp : SharedPresent shared s) (hv : pml4Idx v ≠ selfSlot) :
    FreshOutcome shared roots fs s v (mapFresh flags v s) := by
  cases fs with
  | nil =>
    unfold SBUnix.mapFresh
    rw [h.takeFrame_nil]
    exact .exhausted (by simp)
  | cons g fs =>
    obtain ⟨s₁, htake, hmem, hregs, h₁⟩ := h.takeFrame
    have htable : s₁.tableAt (path v) = s.tableAt (path v) := by
      unfold Kernel.tableAt
      rw [hmem, hregs.root]
    have hrun : SBUnix.mapFresh flags v s =
        if g.addr = 0 then .ok (0, s₁) else walkAndMap flags g.addr v s₁ := by
      unfold SBUnix.mapFresh
      rw [htake, ok_bind]
      dsimp only
      rfl
    have hsp₁ : SharedPresent shared s₁ := by
      unfold SharedPresent
      rw [hmem, hregs.root]
      exact hsp
    rw [hrun]
    split_ifs with h0
    · exact .refused g fs s₁ rfl (Or.inl ((Frame.addr_eq_zero g).mp h0)) hmem hregs h₁
    by_cases hm : s.tableAt (path v) = none
    · by_cases hlen : missingTables s₁ v ≤ fs.length
      · obtain ⟨s₂, hwalk, hmapped⟩ :=
          h₁.walkAndMap_unmapped hf hsp₁ hv g.addr (htable.trans hm) hlen
        have hle := missingTables_le s₁ v
        rw [hwalk]
        rw [frameOf_addr] at hmapped
        refine .mapped g _ _ s₂ (by rw [List.take_append_drop]) ?_ hm (hmapped.of_taken hmem hregs)
        rw [List.length_take]
        omega
      · have hle := missingTables_le s₁ v
        rw [h₁.walkAndMap_exhausted hf hsp₁ hv g.addr (by omega)]
        refine .exhausted ?_
        rw [List.length_cons]
        omega
    · rw [h₁.walkAndMap_mapped hv flags g.addr (by rwa [htable])]
      exact .refused g fs s₁ rfl (Or.inr hm) hmem hregs h₁

/-- A fresh page where nothing is mapped, with frames enough. -/
theorem Owned.mapFresh_unmapped (h : Owned shared roots fs s) (hf : EntryFlags flags)
    (hsp : SharedPresent shared s) (hv : pml4Idx v ≠ selfSlot) (hlen : 4 ≤ fs.length)
    (hzero : ∀ g ∈ fs, g ≠ 0) (hm : s.tableAt (path v) = none) :
    ∃ g used fs' s', SBUnix.mapFresh flags v s = .ok (1, s') ∧ fs = g :: (used ++ fs') ∧
      used.length ≤ 3 ∧ MappedPage shared roots used fs' (path v) g s s' := by
  have hout := h.mapFresh hf hsp hv
  generalize SBUnix.mapFresh flags v s = res at hout
  cases hout with
  | exhausted hlt => omega
  | refused g fs' s' hfs hor =>
    obtain hg | hmapped := hor
    · exact absurd hg (hzero g (hfs ▸ List.mem_cons_self))
    · exact absurd hm hmapped
  | mapped g used fs' s' hfs hle _ hmapped => exact ⟨g, used, fs', s', rfl, hfs, hle, hmapped⟩

/-! ## A fresh PML4 -/

/-- The state after `create_new_user_pml4` has written slots 511 and 510 of frame `g`. -/
def Kernel.fillPml4 (s : Kernel) (g : Frame) (kernelEntry selfEntry : Word) : Kernel :=
  (s.advanceTop.setSlot g kernelSlot kernelEntry).setSlot g selfSlot selfEntry

/-- What `create_new_user_pml4` does with a frame `g` just taken. -/
inductive CreateOutcome (shared : Set Idx) (roots : Set Frame) (fs : List Frame) (s : Kernel)
    (g : Frame) (flags : Word) : Except Fault (Word × Kernel) → Prop
  | exhausted : fs.length < 3 →
      CreateOutcome shared roots fs s g flags (.error (.strayRead kernbase))
  | refused : s.tableAt (path s.topVirtualAddress) ≠ none →
      CreateOutcome shared roots fs s g flags (.ok (0, s))
  | created (used fs₁ : List Frame) (s₁ : Kernel) (k : Frame) : fs = used ++ fs₁ →
      used.length ≤ 3 → s.tableAt (path s.topVirtualAddress) = none →
      MappedPage shared roots used fs₁ (path s.topVirtualAddress) g s s₁ →
      s.tableAt (path s.kernelPml4T) = some k →
      CreateOutcome shared roots fs s g flags
        (.ok (s.topVirtualAddress, s₁.fillPml4 g (entries s₁.mem k kernelSlot) (g.addr ||| flags)))

/-- The addresses `create_new_user_pml4` goes through: an aligned heap top outside slot 510, and
    a mapped `kernel_pml4_t`. -/
structure CreateReady (s : Kernel) : Prop where
  topAligned : s.topVirtualAddress.toNat % 4096 = 0
  topSlot : pml4Idx s.topVirtualAddress ≠ selfSlot
  pml4Aligned : s.kernelPml4T.toNat % 4096 = 0
  pml4Mapped : s.tableAt (path s.kernelPml4T) ≠ none

@[simp] theorem mem_advanceTop (s : Kernel) : s.advanceTop.mem = s.mem := by
  cases s
  rfl

@[simp] theorem tableAt_advanceTop (s : Kernel) : s.advanceTop.tableAt = s.tableAt := by
  cases s
  rfl

@[simp] theorem kernelPml4T_advanceTop (s : Kernel) :
    s.advanceTop.kernelPml4T = s.kernelPml4T := by
  cases s
  rfl

theorem Owned.advanceTop (h : Owned shared roots fs s) : Owned shared roots fs s.advanceTop :=
  ⟨h.forest, h.loaded, h.writable, h.free, h.nodup, h.zero, h.unused⟩

/-- With the new page mapped, slots 511 and 510 are filled in through it. -/
theorem createNewPml4_eq {g k : Frame} {s₁ : Kernel} (hready : CreateReady s)
    (hwalk : walkAndMap flags g.addr s.topVirtualAddress s = .ok (1, s₁)) (hregs : s.SameRegs s₁)
    (h : Owned shared roots fs s₁) (hkw : s₁.tableAt (path s.kernelPml4T) = some k)
    (hgw : s₁.tableAt (path s.topVirtualAddress) = some g) (hg : ¬ IsPageTable roots s₁.mem g) :
    createNewPml4 flags g.addr s = .ok (s.topVirtualAddress,
      s₁.fillPml4 g (entries s₁.mem k kernelSlot) (g.addr ||| flags)) := by
  have hg₁ : ¬ IsPageTable roots s₁.advanceTop.mem g := by rwa [mem_advanceTop]
  have hload : s₁.advanceTop.load (511 * 8 + s₁.advanceTop.kernelPml4T) =
      .ok (entries s₁.mem k kernelSlot) := by
    rw [kernelPml4T_advanceTop, hregs.pml4]
    exact Kernel.load_page hready.pml4Aligned (by decide) (by rwa [tableAt_advanceTop])
  have hstore₁ : s₁.advanceTop.store (511 * 8 + s.topVirtualAddress)
      (entries s₁.mem k kernelSlot) =
        .ok (s₁.advanceTop.setSlot g kernelSlot (entries s₁.mem k kernelSlot)) :=
    Kernel.store_page hready.topAligned (by decide) (by rwa [tableAt_advanceTop]) _
  have hgw₂ : (s₁.advanceTop.setSlot g kernelSlot (entries s₁.mem k kernelSlot)).tableAt
      (path s.topVirtualAddress) = some g := by
    have hkeep := (offTable_setSlot hg₁ kernelSlot (entries s₁.mem k kernelSlot)).walk_eq
      h.loaded (path_length s.topVirtualAddress) (path_head_ne hready.topSlot)
    exact hkeep.trans hgw
  have hstore₂ := Kernel.store_page (i := selfSlot) (o := 510 * 8) hready.topAligned (by decide)
    hgw₂ (g.addr ||| flags)
  unfold createNewPml4
  dsimp only
  rw [hwalk, ok_bind]
  dsimp only
  rw [if_neg (by decide), hload, ok_bind, hstore₁, ok_bind, hstore₂]
  rfl

theorem Owned.createNewPml4 (h : Owned shared roots fs s) (hf : EntryFlags flags)
    (hsp : SharedPresent shared s) (hready : CreateReady s) {g : Frame}
    (hg : ¬ IsPageTable roots s.mem g) (hfree : g ∉ fs) :
    CreateOutcome shared roots fs s g flags (SBUnix.createNewPml4 flags g.addr s) := by
  obtain ⟨k, hk⟩ := Option.ne_none_iff_exists'.mp hready.pml4Mapped
  have hv := hready.topSlot
  by_cases hm : s.tableAt (path s.topVirtualAddress) = none
  swap
  · have hrun : SBUnix.createNewPml4 flags g.addr s = .ok (0, s) := by
      unfold SBUnix.createNewPml4
      dsimp only
      rw [h.walkAndMap_mapped hv flags g.addr hm]
      rfl
    rw [hrun]
    exact .refused hm
  by_cases hlen : missingTables s s.topVirtualAddress ≤ fs.length
  swap
  · have hrun : SBUnix.createNewPml4 flags g.addr s = .error (.strayRead kernbase) := by
      unfold SBUnix.createNewPml4
      dsimp only
      rw [h.walkAndMap_exhausted hf hsp hv g.addr (by omega)]
      rfl
    have hle := missingTables_le s s.topVirtualAddress
    rw [hrun]
    exact .exhausted (by omega)
  obtain ⟨s₁, hwalk, hmapped⟩ := h.walkAndMap_unmapped hf hsp hv g.addr hm hlen
  have hle := missingTables_le s s.topVirtualAddress
  rw [frameOf_addr] at hmapped
  have hroot := hmapped.grown.regs.root
  -- both pages are mapped after the walk, and the frame `g` is still no table
  have hkw : s₁.tableAt (path s.kernelPml4T) = some k := by
    unfold Kernel.tableAt
    rw [hroot]
    exact hmapped.grown.kept s.root h.loaded _ _ hk
  have hgw : s₁.tableAt (path s.topVirtualAddress) = some g := by
    unfold Kernel.tableAt
    rw [hroot]
    exact hmapped.maps.mapped s.root h.loaded (Or.inl rfl)
  have hg₁ : ¬ IsPageTable roots s₁.mem g :=
    hmapped.grown.not_table hg fun hused => hfree (List.mem_of_mem_take hused)
  have hrun := createNewPml4_eq hready hwalk hmapped.grown.regs hmapped.owned hkw hgw hg₁
  rw [hrun]
  refine .created _ _ s₁ k (List.take_append_drop _ fs).symm ?_ hm hmapped hk
  rw [List.length_take]
  omega

end Fresh

end SBUnix
