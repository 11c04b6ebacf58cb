import SBUnix.Lib.Steps
import SBUnix.Paging.Heap

/-
  Address spaces: a shared kernel half and a private user half.

  Every PML4 the kernel creates gets the kernel's entry 511 and a reference to itself in slot
  510, so the address spaces are a forest whose only shared slot is 511. `Extends` says what a
  step of the kernel leaves alone in the address spaces `roots`; `StepOutcome` and
  `SpacesInv.outcome` derive it for every operation. Sharing (`SpacesInv.kernel_shared`) is then
  the forest's own property, privacy is a field of `Extends`, and `addressSpace_contract` states
  both for every reachable state.
-/

namespace SBUnix

open ByteMem Radix Steps

/-- The top-level slots that all address spaces share. -/
def kernelShared : Set Idx := {kernelSlot}

/-! ## What a step leaves alone -/

/-- In the address spaces `roots` mappings and top-level entries stay, and user translations of
    the address spaces that are not loaded do not change at all. -/
structure Extends (roots : Set Frame) (s s' : Kernel) : Prop where
  root : s'.root = s.root
  pml4 : s'.kernelPml4T = s.kernelPml4T
  top : s'.topVirtualAddress.toNat % 4096 = s.topVirtualAddress.toNat % 4096
  kept : ∀ r ∈ roots, ∀ v x, pml4Idx v ≠ selfSlot → translatePage s.mem r v = some x →
    translatePage s'.mem r v = some x
  entry : ∀ r ∈ roots, ∀ j, target (entries s.mem r j) ≠ none →
    entries s'.mem r j = entries s.mem r j
  private_half : ∀ r ∈ roots, r ≠ s.root → ∀ v, pml4Idx v ≠ selfSlot → pml4Idx v ≠ kernelSlot →
    translatePage s'.mem r v = translatePage s.mem r v

section Extends

variable {roots : Set Frame} {fs used fs₁ : List Frame} {s s₁ s₂ : Kernel} {flags v : Word}

theorem Extends.refl (roots : Set Frame) (s : Kernel) : Extends roots s s where
  root := rfl
  pml4 := rfl
  top := rfl
  kept _ _ _ _ _ hx := hx
  entry _ _ _ _ := rfl
  private_half _ _ _ _ _ _ := rfl

theorem Extends.trans (h : Extends roots s s₁) (h' : Extends roots s₁ s₂) :
    Extends roots s s₂ where
  root := h'.root.trans h.root
  pml4 := h'.pml4.trans h.pml4
  top := h'.top.trans h.top
  kept r hr v x hv hx := h'.kept r hr v x hv (h.kept r hr v x hv hx)
  entry r hr j hj := by
    have hj' := h.entry r hr j hj
    rw [h'.entry r hr j (by rwa [hj']), hj']
  private_half r hr hne v hv hv' := by
    rw [h'.private_half r hr (by rwa [h.root]) v hv hv', h.private_half r hr hne v hv hv']

/-- Taking a frame changes no memory. -/
theorem Extends.of_mem_eq (hmem : s₁.mem = s.mem) (hregs : s.SameRegs s₁) :
    Extends roots s s₁ where
  root := hregs.root
  pml4 := hregs.pml4
  top := by rw [hregs.top]
  kept _ _ _ _ _ hx := by rwa [hmem]
  entry _ _ _ _ := by rw [hmem]
  private_half _ _ _ _ _ _ := by rw [hmem]

/-- Mapping a page of the loaded address space. -/
theorem MappedPage.extends {g : Frame}
    (h : MappedPage kernelShared roots used fs₁ (path v) g s s₁) : Extends roots s s₁ where
  root := h.grown.regs.root
  pml4 := h.grown.regs.pml4
  top := by rw [h.grown.regs.top]
  kept r hr w x _ hx := h.grown.kept r hr (path w) x hx
  entry r _ j hj := h.grown.entry r j hj
  private_half r hr hne w hw hw' := by
    refine h.maps.other r hr _ (path_length w) (path_head_ne hw) fun hcond => ?_
    obtain ⟨hpath, hroot | ⟨i, hi, hhead⟩⟩ := hcond
    · exact hne hroot
    · rw [← hpath, path_head, Option.some.injEq] at hhead
      exact hw' (hhead.trans hi)

theorem SharedPresent.of_extends (hsp : SharedPresent kernelShared s) (hroot : s.root ∈ roots)
    (h : Extends roots s s₁) : SharedPresent kernelShared s₁ := by
  intro i hi
  rw [h.root, h.entry s.root hroot i (hsp i hi)]
  exact hsp i hi

/-- The outcomes of a step on the address spaces `roots`: the frames run out, or the step
    returns and extends them. -/
inductive StepOutcome (roots : Set Frame) (s : Kernel) : Except Fault (Word × Kernel) → Prop
  | exhausted : StepOutcome roots s (.error (.strayRead kernbase))
  | done (x : Word) (s₁ : Kernel) (fs₁ : List Frame) : Owned kernelShared roots fs₁ s₁ →
      Extends roots s s₁ → StepOutcome roots s (.ok (x, s₁))

theorem StepOutcome.trans {res : Except Fault (Word × Kernel)} (h : Extends roots s s₁)
    (h' : StepOutcome roots s₁ res) : StepOutcome roots s res := by
  cases h' with
  | exhausted => exact .exhausted
  | done x s₂ fs₂ howned hext => exact .done x s₂ fs₂ howned (h.trans hext)

/-! ## The walks -/

theorem Owned.walkAndMap_outcome (h : Owned kernelShared roots fs s) (hf : EntryFlags flags)
    (hsp : SharedPresent kernelShared s) (hv : pml4Idx v ≠ selfSlot) (p : Word) :
    StepOutcome roots s (walkAndMap flags p v s) := by
  by_cases hm : s.tableAt (path v) = none
  · by_cases hlen : missingTables s v ≤ fs.length
    · obtain ⟨s₁, hrun, hmapped⟩ := h.walkAndMap_unmapped hf hsp hv p hm hlen
      rw [hrun]
      exact .done 1 s₁ _ hmapped.owned hmapped.extends
    · rw [h.walkAndMap_exhausted hf hsp hv p (by omega)]
      exact .exhausted
  · rw [h.walkAndMap_mapped hv flags p hm]
    exact .done 0 s fs h (Extends.refl roots s)

/-- The loop's page number `i` from `v`. -/
def pageAt (v : Word) (i : Nat) : Word := BitVec.ofNat 64 (v.toNat + 4096 * i)

theorem pageAt_zero (v : Word) : pageAt v 0 = v := by
  unfold pageAt
  rw [Nat.mul_zero, Nat.add_zero, BitVec.ofNat_toNat, BitVec.setWidth_eq]

theorem pageAt_succ (v : Word) (i : Nat) : pageAt (pageSize + v) i = pageAt v (i + 1) := by
  apply BitVec.eq_of_toNat_eq
  unfold pageAt
  rw [BitVec.toNat_ofNat, BitVec.toNat_ofNat, BitVec.toNat_add,
    show pageSize.toNat = 4096 from rfl, Nat.mul_add, ← Nat.add_assoc]
  omega

theorem pageAt_toNat {v : Word} {i : Nat} (h : v.toNat + 4096 * i < 2 ^ 64) :
    (pageAt v i).toNat = v.toNat + 4096 * i := by
  rw [pageAt, BitVec.toNat_ofNat]
  omega

/-- `advance` touches nothing but the heap top, and moves that by whole pages. -/
structure Advances (advance : Kernel → Kernel) : Prop where
  mem : ∀ s, (advance s).mem = s.mem
  cr3 : ∀ s, (advance s).cr3 = s.cr3
  freeList : ∀ s, (advance s).freeList = s.freeList
  pml4 : ∀ s, (advance s).kernelPml4T = s.kernelPml4T
  top : ∀ s, (advance s).topVirtualAddress.toNat % 4096 = s.topVirtualAddress.toNat % 4096

theorem advances_id : Advances id := ⟨fun _ => rfl, fun _ => rfl, fun _ => rfl, fun _ => rfl,
  fun _ => rfl⟩

theorem topVirtualAddress_advanceTop (s : Kernel) :
    s.advanceTop.topVirtualAddress = pageSize + s.topVirtualAddress := by
  cases s
  rfl

theorem advances_advanceTop : Advances Kernel.advanceTop where
  mem := mem_advanceTop
  cr3 s := by
    cases s
    rfl
  freeList s := by
    cases s
    rfl
  pml4 := kernelPml4T_advanceTop
  top s := by
    rw [topVirtualAddress_advanceTop, BitVec.toNat_add, show pageSize.toNat = 4096 from rfl]
    omega

theorem Advances.root {advance : Kernel → Kernel} (ha : Advances advance) (s : Kernel) :
    (advance s).root = s.root := by
  rw [Kernel.root, ha.cr3, Kernel.root]

theorem Advances.extends {advance : Kernel → Kernel} (ha : Advances advance) :
    Extends roots s (advance s) where
  root := ha.root s
  pml4 := ha.pml4 s
  top := ha.top s
  kept _ _ _ _ _ hx := by rwa [ha.mem]
  entry _ _ _ _ := by rw [ha.mem]
  private_half _ _ _ _ _ _ := by rw [ha.mem]

theorem Advances.owned {advance : Kernel → Kernel} (ha : Advances advance)
    (h : Owned kernelShared roots fs s) : Owned kernelShared roots fs (advance s) where
  forest := by
    rw [ha.mem]
    exact h.forest
  loaded := by
    rw [ha.root]
    exact h.loaded
  writable := by
    rw [ha.mem]
    exact h.writable
  free := by
    rw [ha.freeList]
    exact h.free
  nodup := h.nodup
  zero := by
    rw [ha.mem]
    exact h.zero
  unused := by
    rw [ha.mem]
    exact h.unused

/-- The loops of the `kmalloc` family, on pages outside slot 510. -/
theorem Owned.kmallocLoop_outcome {advance : Kernel → Kernel} (ha : Advances advance)
    (hf : EntryFlags flags) (top : Word) (n : Nat) (h : Owned kernelShared roots fs s)
    (hsp : SharedPresent kernelShared s) (hv : ∀ i < n, pml4Idx (pageAt v i) ≠ selfSlot) :
    StepOutcome roots s (kmallocLoop (walkAndMap flags) advance top n v s) := by
  induction n generalizing s fs v with
  | zero => exact .done top s fs h (Extends.refl roots s)
  | succ n ih =>
    have hv₀ : pml4Idx v ≠ selfSlot := by
      have hzero := hv 0 (by omega)
      rwa [pageAt_zero] at hzero
    have hfresh := h.mapFresh hf hsp hv₀
    rw [kmallocLoop_succ]
    generalize SBUnix.mapFresh flags v s = res at hfresh
    cases hfresh with
    | exhausted hlen => exact .exhausted
    | refused g fs₁ s₁ _ _ hmem hregs h₁ => exact .done 0 s₁ fs₁ h₁ (Extends.of_mem_eq hmem hregs)
    | mapped g used fs₁ s₁ _ _ _ hmapped =>
      have hadvance : Extends roots s₁ _ := ha.extends
      have hext := hmapped.extends.trans hadvance
      have hrest := ih (ha.owned hmapped.owned) (hsp.of_extends h.loaded hext) (v := pageSize + v)
        fun i hi => by
          rw [pageAt_succ]
          exact hv (i + 1) (by omega)
      exact hrest.trans hext

/-! ## A new PML4 -/

/-- The entries of a PML4 just filled in. -/
theorem entries_fillPml4 (s : Kernel) (g : Frame) (ke se : Word) (f : Frame) (j : Idx) :
    entries (s.fillPml4 g ke se).mem f j =
      if f = g ∧ j = selfSlot then se
      else if f = g ∧ j = kernelSlot then ke else entries s.mem f j := by
  unfold Kernel.fillPml4
  rw [entries_setSlot, setEntry]
  split_ifs with h
  · rfl
  all_goals
    rw [entries_setSlot, setEntry, mem_advanceTop]
    simp_all

/-- Of a blank frame only slots 510 and 511 are filled in. -/
theorem target_fillPml4 {g : Frame} (hzero : ∀ j, entries s.mem g j = 0)
    (kernelEntry selfEntry : Word) {j : Idx} (hj : j ≠ selfSlot) (hj' : j ≠ kernelSlot) :
    target (entries (s.fillPml4 g kernelEntry selfEntry).mem g j) = none := by
  rw [entries_fillPml4, if_neg fun hc => hj hc.2, if_neg fun hc => hj' hc.2, hzero, target_zero]

theorem offTable_fillPml4 {g : Frame} (hg : ¬ IsPageTable roots s.mem g)
    (kernelEntry selfEntry : Word) : OffTable roots s (s.fillPml4 g kernelEntry selfEntry) := by
  intro x hx j
  have hxg : x ≠ g := fun hxg => hg (hxg ▸ hx)
  rw [entries_fillPml4, if_neg fun hc => hxg hc.1, if_neg fun hc => hxg hc.1]

theorem shared_fillPml4 {g k : Frame} (hkg : k ≠ g) (selfEntry : Word) : ∀ i ∈ kernelShared,
    entries (s.fillPml4 g (entries s.mem k kernelSlot) selfEntry).mem g i =
      entries (s.fillPml4 g (entries s.mem k kernelSlot) selfEntry).mem k i := by
  intro i hi
  obtain rfl : i = kernelSlot := hi
  rw [entries_fillPml4, if_neg fun hc => absurd hc.2 (by decide), if_pos ⟨rfl, rfl⟩,
    entries_fillPml4, if_neg fun hc => hkg hc.1, if_neg fun hc => hkg hc.1]

theorem isPageTable_fillPml4 {g k : Frame} (hk : k ∈ roots) (hg : ¬ IsPageTable roots s.mem g)
    (hzero : ∀ j, entries s.mem g j = 0) (selfEntry : Word) {f : Frame}
    (hf : IsPageTable (insert g roots)
      (s.fillPml4 g (entries s.mem k kernelSlot) selfEntry).mem f) :
    IsPageTable roots (s.fillPml4 g (entries s.mem k kernelSlot) selfEntry).mem f ∨ f = g := by
  have hkg : k ≠ g := fun hkg => hg (hkg ▸ isTable_root hk (by decide))
  exact isTable_addRoot hk (shared_fillPml4 hkg selfEntry)
    (fun j hj hj' => target_fillPml4 hzero _ _ hj hj') hf

theorem extends_fillPml4 {g : Frame} (hg : ¬ IsPageTable roots s.mem g)
    (kernelEntry selfEntry : Word) : Extends roots s (s.fillPml4 g kernelEntry selfEntry) := by
  have hoff := offTable_fillPml4 hg kernelEntry selfEntry
  have hsame : ∀ r ∈ roots, ∀ v, pml4Idx v ≠ selfSlot →
      translatePage (s.fillPml4 g kernelEntry selfEntry).mem r v = translatePage s.mem r v :=
    fun r hr v hv => hoff.walk_eq hr (path_length v) (path_head_ne hv)
  exact {
    root := rfl
    pml4 := by
      cases s
      rfl
    top := advances_advanceTop.top s
    kept := fun r hr v x hv hx => (hsame r hr v hv).trans hx
    entry := fun r hr j _ => hoff r (isTable_root hr (by decide)) j
    private_half := fun r hr _ v hv _ => hsame r hr v hv }

/-- Filling in a blank frame as a PML4 adds it to the owned address spaces. -/
theorem Owned.fillPml4 {g k : Frame} (h : Owned kernelShared roots fs s) (hk : k ∈ roots)
    (hg : ¬ IsPageTable roots s.mem g) (hfree : g ∉ fs) (hzero : ∀ j, entries s.mem g j = 0)
    (hf : EntryFlags flags) :
    Owned kernelShared (insert g roots) fs
        (s.fillPml4 g (entries s.mem k kernelSlot) (g.addr ||| flags)) ∧
      Extends roots s (s.fillPml4 g (entries s.mem k kernelSlot) (g.addr ||| flags)) := by
  have hext := extends_fillPml4 hg (entries s.mem k kernelSlot) (g.addr ||| flags)
  refine ⟨?_, hext⟩
  have hkt : IsPageTable roots s.mem k := isTable_root hk (by decide)
  have hkg : k ≠ g := fun hkg => hg (hkg ▸ hkt)
  have hent := entries_fillPml4 s g (entries s.mem k kernelSlot) (g.addr ||| flags)
  have hoff := offTable_fillPml4 hg (entries s.mem k kernelSlot) (g.addr ||| flags)
  have hsh := shared_fillPml4 (s := s) hkg (g.addr ||| flags)
  have habs : ∀ j, j ≠ selfSlot → j ∉ kernelShared → target (entries _ g j) = none :=
    fun j hj hj' => target_fillPml4 hzero (entries s.mem k kernelSlot) (g.addr ||| flags) hj hj'
  have hfl : (s.fillPml4 g (entries s.mem k kernelSlot) (g.addr ||| flags)).freeList =
      s.freeList := by
    cases s
    rfl
  generalize s.fillPml4 g (entries s.mem k kernelSlot) (g.addr ||| flags) = s'
    at hent hoff hsh habs hfl hext ⊢
  have hself : entries s'.mem g selfSlot = g.addr ||| flags := by
    rw [hent, if_pos ⟨rfl, rfl⟩]
  have hg' : ¬ IsPageTable roots s'.mem g := mt (hoff.isPageTable_iff g).mp hg
  exact {
    forest := (h.forest.congr_tables (by decide) hoff).addRoot hk (by
        rw [hself, target_or_flags _ hf, frameOf_addr]) hsh habs hg'
    loaded := by
      rw [hext.root]
      exact Or.inr h.loaded
    writable := by
      intro x hx j hj
      obtain hold | rfl := isTable_addRoot hk hsh habs hx
      · have hold' := (hoff.isPageTable_iff x).mp hold
        rw [hoff x hold'] at hj ⊢
        exact h.writable x hold' j hj
      · by_cases hj₁ : j = selfSlot
        · rw [hj₁, hself]
          exact isValidPage_or_flags _ hf
        · by_cases hj₂ : j = kernelSlot
          · rw [hj₂, hsh kernelSlot rfl, hoff k hkt] at hj ⊢
            exact h.writable k hkt kernelSlot hj
          · have hnone := (target_eq_none_iff _).mp (habs j hj₁ hj₂)
            exact absurd (hnone.symm.trans hj) (by decide)
    free := hfl ▸ h.free
    nodup := h.nodup
    zero := by
      intro x hx j
      have hxg : x ≠ g := fun hxg => hfree (hxg ▸ hx)
      rw [hent, if_neg fun hc => hxg hc.1, if_neg fun hc => hxg hc.1]
      exact h.zero x hx j
    unused := by
      intro x hx hxt
      obtain hold | rfl := isTable_addRoot hk hsh habs hxt
      · exact h.unused x hx ((hoff.isPageTable_iff x).mp hold)
      · exact hfree hx }

/-- What `create_new_user_pml4` does, on a frame it takes itself. -/
inductive NewSpaceOutcome (roots : Set Frame) (fs : List Frame) (s : Kernel) :
    Except Fault (Word × Word × Kernel) → Prop
  | exhausted : fs.length < 4 → NewSpaceOutcome roots fs s (.error (.strayRead kernbase))
  | refused (p : Word) (s₁ : Kernel) (fs₁ : List Frame) :
      s.tableAt (path s.topVirtualAddress) ≠ none → Owned kernelShared roots fs₁ s₁ →
      Extends roots s s₁ → NewSpaceOutcome roots fs s (.ok (p, 0, s₁))
  | created (g : Frame) (s₁ : Kernel) (fs₁ : List Frame) :
      Owned kernelShared (insert g roots) fs₁ s₁ → Extends roots s s₁ →
      entries s₁.mem g selfSlot = g.addr ||| pageUser →
      NewSpaceOutcome roots fs s (.ok (g.addr, s.topVirtualAddress, s₁))

/-- Take a frame and make it a user PML4: its address, and what `create_new_user_pml4` returns. -/
def newUserPml4 (s : Kernel) : Except Fault (Word × Word × Kernel) := do
  let (pAddr, s) ← s.takeFrame
  let (r, s) ← createNewUserPml4 pAddr s
  return (pAddr, r, s)

/-- The addresses of the kernel that `create_new_user_pml4` relies on: an aligned heap top, and
    `kernel_pml4_t` mapped in slot 511 to one of the PML4s. -/
structure KernelAddrs (roots : Set Frame) (s : Kernel) : Prop where
  topAligned : s.topVirtualAddress.toNat % 4096 = 0
  pml4Aligned : s.kernelPml4T.toNat % 4096 = 0
  pml4Slot : pml4Idx s.kernelPml4T = kernelSlot
  pml4Mapped : ∃ k ∈ roots, ∀ r ∈ roots, translatePage s.mem r s.kernelPml4T = some k

theorem KernelAddrs.of_extends (h : KernelAddrs roots s) (hext : Extends roots s s₁) :
    KernelAddrs roots s₁ where
  topAligned := by
    rw [hext.top]
    exact h.topAligned
  pml4Aligned := by
    rw [hext.pml4]
    exact h.pml4Aligned
  pml4Slot := by
    rw [hext.pml4]
    exact h.pml4Slot
  pml4Mapped := by
    obtain ⟨k, hk, hmap⟩ := h.pml4Mapped
    refine ⟨k, hk, fun r hr => ?_⟩
    rw [hext.pml4]
    refine hext.kept r hr _ k ?_ (hmap r hr)
    rw [h.pml4Slot]
    decide

theorem KernelAddrs.createReady (h : KernelAddrs roots s) (hroot : s.root ∈ roots)
    (htop : pml4Idx s.topVirtualAddress ≠ selfSlot) : CreateReady s := by
  obtain ⟨k, -, hmap⟩ := h.pml4Mapped
  refine ⟨h.topAligned, htop, h.pml4Aligned, ?_⟩
  have hk : s.tableAt (path s.kernelPml4T) = some k := hmap s.root hroot
  rw [hk]
  exact Option.some_ne_none k

/-- What `newUserPml4` does: it runs out of frames, it takes a frame and gives up, or it fills the
    frame in, and has its page at the heap top. -/
inductive TakenOutcome (roots : Set Frame) (fs : List Frame) (s : Kernel) :
    Except Fault (Word × Word × Kernel) → Prop
  | exhausted : fs.length < 4 → TakenOutcome roots fs s (.error (.strayRead kernbase))
  | refused (g : Frame) (fs₁ : List Frame) (s₁ : Kernel) :
      s.tableAt (path s.topVirtualAddress) ≠ none → Owned kernelShared roots fs₁ s₁ →
      Extends roots s s₁ → TakenOutcome roots fs s (.ok (g.addr, 0, s₁))
  | created (g k : Frame) (used fs₁ : List Frame) (s₁ : Kernel) : fs = g :: (used ++ fs₁) →
      used.length ≤ 3 → k ∈ roots →
      MappedPage kernelShared roots used fs₁ (path s.topVirtualAddress) g s s₁ →
      TakenOutcome roots fs s (.ok (g.addr, s.topVirtualAddress,
        s₁.fillPml4 g (entries s₁.mem k kernelSlot) (g.addr ||| pageUser)))

theorem Owned.newUserPml4_taken (h : Owned kernelShared roots fs s)
    (hsp : SharedPresent kernelShared s) (haddrs : KernelAddrs roots s)
    (htop : pml4Idx s.topVirtualAddress ≠ selfSlot) :
    TakenOutcome roots fs s (SBUnix.newUserPml4 s) := by
  unfold SBUnix.newUserPml4
  cases fs with
  | nil =>
    rw [h.takeFrame_nil]
    exact .exhausted (by simp)
  | cons g fs =>
    obtain ⟨s₁, htake, hmem, hregs, h₁⟩ := h.takeFrame
    have hext₁ : Extends roots s s₁ := Extends.of_mem_eq hmem hregs
    have haddrs₁ := haddrs.of_extends hext₁
    have hg : ¬ IsPageTable roots s₁.mem g := by
      rw [hmem]
      exact h.unused g (by simp)
    have hcreate := h₁.createNewPml4 entryFlags_pageUser (hsp.of_extends h.loaded hext₁)
      (haddrs₁.createReady h₁.loaded (by rwa [hregs.top])) hg (List.nodup_cons.mp h.nodup).1
    rw [htake, ok_bind]
    dsimp only
    unfold createNewUserPml4
    generalize SBUnix.createNewPml4 pageUser g.addr s₁ = res at hcreate
    cases hcreate with
    | exhausted hlen =>
      refine .exhausted ?_
      rw [List.length_cons]
      omega
    | refused hm =>
      refine .refused g fs s₁ ?_ h₁ hext₁
      unfold Kernel.tableAt at hm ⊢
      rwa [hmem, hregs.root, hregs.top] at hm
    | created used fs₁ s₂ k hfs hused _ hmapped hk =>
      obtain ⟨k', hk', hkmap⟩ := haddrs₁.pml4Mapped
      obtain rfl : k' = k := Option.some.inj ((hkmap s₁.root h₁.loaded).symm.trans hk)
      rw [hregs.top] at hmapped ⊢
      exact .created g k' used fs₁ s₂ (by rw [hfs]) hused hk' (hmapped.of_taken hmem hregs)

theorem Owned.newUserPml4 (h : Owned kernelShared roots fs s)
    (hsp : SharedPresent kernelShared s) (haddrs : KernelAddrs roots s)
    (htop : pml4Idx s.topVirtualAddress ≠ selfSlot) :
    NewSpaceOutcome roots fs s (SBUnix.newUserPml4 s) := by
  have htaken := h.newUserPml4_taken hsp haddrs htop
  generalize SBUnix.newUserPml4 s = res at htaken
  cases htaken with
  | exhausted hlen => exact .exhausted hlen
  | refused g fs₁ s₁ hm h₁ hext => exact .refused g.addr s₁ fs₁ hm h₁ hext
  | created g k used fs₁ s₁ hfs _ hk hmapped =>
    obtain ⟨howned, hext⟩ := hmapped.owned.fillPml4 hk (hmapped.not_table h hfs)
      (h.notMem_taken hfs).2 (hmapped.blank h hfs) entryFlags_pageUser
    refine .created g _ fs₁ howned (hmapped.extends.trans hext) ?_
    rw [entries_fillPml4, if_pos ⟨rfl, rfl⟩]

end Extends

/-! ## Runs -/

/-- The kernel and the PML4s it has created. -/
structure Spaces where
  kernel : Kernel
  roots : List Frame

/-- The operations that create, load and fill address spaces. -/
inductive SpaceOp where
  | createNewUserPml4
  | setCr3 (pml4 : Frame)
  | kmalloc (size : Word)
  | kmallocUser (size : Word)
  | kmallocTopVirtualAddressUser (size userTop : Word)

def SpaceOp.run : SpaceOp → Spaces → Except Fault Spaces
  | createNewUserPml4, t => do
    let (pAddr, r, s) ← newUserPml4 t.kernel
    return ⟨s, if r = 0 then t.roots else frameOf pAddr :: t.roots⟩
  | setCr3 pml4, t => .ok { t with kernel := t.kernel.setCr3 pml4.addr }
  | kmalloc size, t => do
    let (_, s) ← SBUnix.kmalloc size t.kernel
    return { t with kernel := s }
  | kmallocUser size, t => do
    let (_, s) ← SBUnix.kmallocUser size t.kernel
    return { t with kernel := s }
  | kmallocTopVirtualAddressUser size userTop, t => do
    let (_, s) ← SBUnix.kmallocTopVirtualAddressUser size userTop t.kernel
    return { t with kernel := s }

/-- Only created PML4s are loaded, and pages outside slot 510 are mapped (a range inside slot 511
    that does not wrap, or one of user addresses). -/
def SpaceOp.Allowed : SpaceOp → Spaces → Prop
  | createNewUserPml4, t => pml4Idx t.kernel.topVirtualAddress ≠ selfSlot
  | setCr3 pml4, t => pml4 ∈ t.roots
  | kmalloc size, t => ∀ i < (noOfPages size).toNat,
      pml4Idx (pageAt t.kernel.topVirtualAddress i) ≠ selfSlot
  | kmallocUser size, t => ∀ i < (1 + noOfPages size).toNat,
      pml4Idx (pageAt t.kernel.topVirtualAddress i) ≠ selfSlot
  | kmallocTopVirtualAddressUser size userTop, _ => ∀ i < (noOfPages size).toNat,
      pml4Idx (pageAt userTop i) ≠ selfSlot

/-- One allowed operation that returns. -/
def SpaceStep (t : Spaces) (op : SpaceOp) (t' : Spaces) : Prop :=
  op.Allowed t ∧ op.run t = .ok t'

/-- The set of created PML4s. -/
def Spaces.rootSet (t : Spaces) : Set Frame := {r | r ∈ t.roots}

/-- The invariant of every run. -/
structure SpacesInv (t : Spaces) : Prop where
  owned : ∃ fs, Owned kernelShared t.rootSet fs t.kernel
  present : SharedPresent kernelShared t.kernel
  addrs : KernelAddrs t.rootSet t.kernel

/-- What one step leaves alone in the address spaces there were before it. -/
structure SpaceFrame (t t' : Spaces) : Prop where
  created : ∀ r ∈ t.roots, r ∈ t'.roots
  private_half : ∀ r ∈ t.roots, r ≠ t.kernel.root → ∀ v, pml4Idx v ≠ selfSlot →
    pml4Idx v ≠ kernelSlot → translate t'.kernel.mem r v = translate t.kernel.mem r v

theorem SpaceFrame.of_extends {t : Spaces} {s₁ : Kernel} {l : List Frame}
    (h : Extends t.rootSet t.kernel s₁) (hl : ∀ r ∈ t.roots, r ∈ l) : SpaceFrame t ⟨s₁, l⟩ where
  created := hl
  private_half r hr hne v hv hv' := translate_congr (h.private_half r hr hne v hv hv')

theorem SpacesInv.of_extends {t : Spaces} (h : SpacesInv t) {s₁ : Kernel} {fs₁ : List Frame}
    (howned : Owned kernelShared t.rootSet fs₁ s₁) (hext : Extends t.rootSet t.kernel s₁) :
    SpacesInv { t with kernel := s₁ } := by
  obtain ⟨fs, hfs⟩ := h.owned
  exact ⟨⟨fs₁, howned⟩, h.present.of_extends hfs.loaded hext, h.addrs.of_extends hext⟩

/-- The outcomes of an operation: the frames run out, or it returns a good state. -/
def SpaceOutcome (t : Spaces) (res : Except Fault Spaces) : Prop :=
  res = .error (.strayRead kernbase) ∨ ∃ t', res = .ok t' ∧ SpacesInv t' ∧ SpaceFrame t t'

theorem StepOutcome.space {t : Spaces} (h : SpacesInv t) {res : Except Fault (Word × Kernel)}
    (hres : StepOutcome t.rootSet t.kernel res) :
    SpaceOutcome t (do
      let (_, s) ← res
      return { t with kernel := s }) := by
  cases hres with
  | exhausted => exact Or.inl rfl
  | done x s₁ fs₁ howned hext =>
    exact Or.inr ⟨{ t with kernel := s₁ }, rfl, h.of_extends howned hext,
      SpaceFrame.of_extends hext fun _ hr => hr⟩

/-- Fewer address spaces are owned as well, as long as the loaded one is among them. -/
theorem Owned.subset {shared : Set Idx} {roots roots' : Set Frame} {fs : List Frame} {s : Kernel}
    (h : Owned shared roots fs s) (hsub : roots' ⊆ roots) (hloaded : s.root ∈ roots') :
    Owned shared roots' fs s := by
  have htable : ∀ g, IsPageTable roots' s.mem g → IsPageTable roots s.mem g := by
    intro g hg
    obtain ⟨r, hr, q, hq, hw⟩ := hg
    exact ⟨r, hsub hr, q, hq, hw⟩
  refine ⟨⟨?_, ?_, ?_⟩, hloaded, ?_, h.free, h.nodup, h.zero, ?_⟩
  · exact fun r hr => h.forest.self_ref r (hsub hr)
  · exact fun r hr r' hr' => h.forest.share r (hsub hr) r' (hsub hr')
  · exact fun r hr r' hr' => h.forest.inj r (hsub hr) r' (hsub hr')
  · exact fun g hg => h.writable g (htable g hg)
  · exact fun f hf hg => h.unused f hf (htable f hg)

theorem SpacesInv.createNewUserPml4 {t : Spaces} (h : SpacesInv t)
    (ha : SpaceOp.createNewUserPml4.Allowed t) :
    SpaceOutcome t (SpaceOp.createNewUserPml4.run t) := by
  obtain ⟨fs, hfs⟩ := h.owned
  have hnew := hfs.newUserPml4 h.present h.addrs ha
  unfold SpaceOp.run
  dsimp only
  generalize newUserPml4 t.kernel = res at hnew
  cases hnew with
  | exhausted _ => exact Or.inl rfl
  | refused p s₁ fs₁ _ howned hext =>
    exact Or.inr ⟨_, rfl, h.of_extends howned hext, SpaceFrame.of_extends hext fun _ hr => hr⟩
  | created g s₁ fs₁ howned hext _ =>
    have hset : insert g t.rootSet = {r | r ∈ g :: t.roots} := by
      ext r
      simp [Spaces.rootSet]
    have hroot : s₁.root ∈ t.rootSet := by
      rw [hext.root]
      exact hfs.loaded
    rw [ok_bind]
    dsimp only
    split_ifs with h0
    · have hkeep := howned.subset (Set.subset_insert g t.rootSet) hroot
      exact Or.inr ⟨_, rfl, h.of_extends hkeep hext, SpaceFrame.of_extends hext fun _ hr => hr⟩
    · refine Or.inr ⟨_, rfl, ⟨⟨fs₁, ?_⟩, h.present.of_extends hfs.loaded hext, ?_⟩,
        SpaceFrame.of_extends hext ?_⟩
      · rw [frameOf_addr]
        unfold Spaces.rootSet
        rw [← hset]
        exact howned
      · -- the new PML4 sees `kernel_pml4_t` through the shared slot
        have hold := h.addrs.of_extends hext
        obtain ⟨k, hk, hmap⟩ := hold.pml4Mapped
        have hhead : HeadShared kernelShared (path s₁.kernelPml4T) :=
          ⟨kernelSlot, rfl, by rw [path_head, hold.pml4Slot]⟩
        refine ⟨hold.topAligned, hold.pml4Aligned, hold.pml4Slot, k, ?_, ?_⟩
        · exact List.mem_cons_of_mem _ hk
        · intro r hr
          rw [frameOf_addr] at hr
          have hr' : r ∈ insert g t.rootSet := by
            rw [hset]
            exact hr
          have hshared := howned.forest.walk_shared (Or.inr hk) hr' hhead
          exact hshared.trans (hmap k hk)
      · exact fun r hr => List.mem_cons_of_mem _ hr

section SetCr3

variable {shared : Set Idx} {roots : Set Frame} {fs : List Frame} {s : Kernel} {p : Word}

theorem root_setCr3 (s : Kernel) (p : Word) : (s.setCr3 p).root = frameOf p := rfl

theorem mem_setCr3 (s : Kernel) (p : Word) : (s.setCr3 p).mem = s.mem := rfl

theorem Owned.setCr3 (h : Owned shared roots fs s) (hp : frameOf p ∈ roots) :
    Owned shared roots fs (s.setCr3 p) :=
  ⟨h.forest, hp, h.writable, h.free, h.nodup, h.zero, h.unused⟩

/-- The shared entries are present in every address space. -/
theorem SharedPresent.setCr3 (h : SharedPresent shared s) (howned : Owned shared roots fs s)
    (hp : frameOf p ∈ roots) : SharedPresent shared (s.setCr3 p) := by
  intro i hi
  rw [root_setCr3, mem_setCr3, howned.forest.share s.root howned.loaded (frameOf p) hp i hi]
  exact h i hi

theorem KernelAddrs.setCr3 (h : KernelAddrs roots s) (p : Word) :
    KernelAddrs roots (s.setCr3 p) :=
  ⟨h.topAligned, h.pml4Aligned, h.pml4Slot, h.pml4Mapped⟩

end SetCr3

theorem SpacesInv.setCr3 {t : Spaces} (h : SpacesInv t) {pml4 : Frame}
    (ha : (SpaceOp.setCr3 pml4).Allowed t) : SpaceOutcome t ((SpaceOp.setCr3 pml4).run t) := by
  obtain ⟨fs, hfs⟩ := h.owned
  have hroot : frameOf pml4.addr ∈ t.rootSet := by
    rw [frameOf_addr]
    exact ha
  exact Or.inr ⟨_, rfl, ⟨⟨fs, hfs.setCr3 hroot⟩, h.present.setCr3 hfs hroot, h.addrs.setCr3 _⟩,
    ⟨fun _ hr => hr, fun _ _ _ _ _ _ => rfl⟩⟩

/-- Every allowed operation runs out of frames or keeps the invariant and the frame. -/
theorem SpacesInv.outcome {t : Spaces} (h : SpacesInv t) (op : SpaceOp) (ha : op.Allowed t) :
    SpaceOutcome t (op.run t) := by
  obtain ⟨fs, hfs⟩ := h.owned
  cases op with
  | createNewUserPml4 => exact h.createNewUserPml4 ha
  | setCr3 pml4 => exact h.setCr3 ha
  | kmalloc size =>
    exact (hfs.kmallocLoop_outcome advances_advanceTop entryFlags_pageKernel _ _ h.present ha).space h
  | kmallocUser size =>
    exact (hfs.kmallocLoop_outcome advances_advanceTop entryFlags_pageUser _ _ h.present ha).space h
  | kmallocTopVirtualAddressUser size userTop =>
    exact (hfs.kmallocLoop_outcome advances_id entryFlags_pageUser _ _ h.present ha).space h

theorem SpacesInv.step {t t' : Spaces} (h : SpacesInv t) {op : SpaceOp} (hs : SpaceStep t op t') :
    SpacesInv t' := by
  obtain herr | ⟨t₁, hok, hinv, -⟩ := h.outcome op hs.1 <;> rw [hs.2] at *
  · cases herr
  · cases hok
    exact hinv

/-- All address spaces translate slot 511 alike. -/
theorem SpacesInv.kernel_shared {t : Spaces} (h : SpacesInv t) {r r' : Frame} (hr : r ∈ t.roots)
    (hr' : r' ∈ t.roots) {v : Word} (hv : pml4Idx v = kernelSlot) :
    translate t.kernel.mem r' v = translate t.kernel.mem r v := by
  obtain ⟨fs, hfs⟩ := h.owned
  exact translate_congr (hfs.forest.walk_shared hr hr' ⟨kernelSlot, rfl, by rw [path_head, hv]⟩)

/-- The booted kernel: one owned address space with a valid entry 511, whose PML4 is mapped at
    `kernel_pml4_t`, and zero-filled distinct free frames. -/
structure Booted (fs : List Frame) (s : Kernel) : Prop where
  owned : Owned kernelShared {s.root} fs s
  valid : isValidPage (entries s.mem s.root kernelSlot) = true
  topAligned : s.topVirtualAddress.toNat % 4096 = 0
  pml4Aligned : s.kernelPml4T.toNat % 4096 = 0
  pml4Slot : pml4Idx s.kernelPml4T = kernelSlot
  pml4Mapped : translatePage s.mem s.root s.kernelPml4T = some s.root

theorem Booted.spacesInv {fs : List Frame} {s : Kernel} (h : Booted fs s) :
    SpacesInv ⟨s, [s.root]⟩ := by
  have hset : (Spaces.mk s [s.root]).rootSet = {s.root} := by
    ext r
    simp [Spaces.rootSet]
  refine ⟨⟨fs, hset ▸ h.owned⟩, ?_, h.topAligned, h.pml4Aligned, h.pml4Slot, s.root, by simp [hset],
    ?_⟩
  · intro i hi
    obtain rfl : i = kernelSlot := hi
    show target (entries s.mem s.root kernelSlot) ≠ none
    rw [target, if_pos (present_of_isValidPage h.valid)]
    simp
  · intro r hr
    rw [hset] at hr
    obtain rfl := Set.mem_singleton_iff.mp hr
    exact h.pml4Mapped

/-- In every reachable state the kernel half is shared, and no operation changes the user half
    of an address space that is not loaded. -/
theorem addressSpace_contract (fs : List Frame) (s : Kernel) (h : Booted fs s) (ops : List SpaceOp)
    (t : Spaces) (hrun : Run SpaceStep ⟨s, [s.root]⟩ ops t) :
    (∀ r ∈ t.roots, ∀ r' ∈ t.roots, ∀ v, pml4Idx v = kernelSlot →
        translate t.kernel.mem r' v = translate t.kernel.mem r v) ∧
      ∀ op : SpaceOp, op.Allowed t → op.run t = .error (.strayRead kernbase) ∨
        ∃ t', op.run t = .ok t' ∧ ∀ r ∈ t.roots, r ≠ t.kernel.root → ∀ v,
          pml4Idx v ≠ selfSlot → pml4Idx v ≠ kernelSlot →
            translate t'.kernel.mem r v = translate t.kernel.mem r v := by
  have hinv := hrun.invariant (fun _ _ _ hi hs => SpacesInv.step hi hs) h.spacesInv
  refine ⟨fun r hr r' hr' v hv => hinv.kernel_shared hr hr' hv, ?_⟩
  intro op ha
  obtain herr | ⟨t', hok, -, hframe⟩ := hinv.outcome op ha
  · exact Or.inl herr
  · exact Or.inr ⟨t', hok, hframe.private_half⟩

/-- One address space is owned whatever it would share with others. -/
theorem Owned.of_single {shared : Set Idx} {r : Frame} {fs : List Frame} {s : Kernel}
    (h : Owned ∅ {r} fs s) : Owned shared {r} fs s := by
  refine ⟨⟨h.forest.self_ref, ?_, ?_⟩, h.loaded, h.writable, h.free, h.nodup, h.zero, h.unused⟩
  · intro r₁ hr₁ r₂ hr₂ i _
    rw [Set.mem_singleton_iff.mp hr₁, Set.mem_singleton_iff.mp hr₂]
  · intro r₁ hr₁ r₂ hr₂ p q f hp hq hw hw'
    refine ⟨(h.forest.inj r₁ hr₁ r₂ hr₂ p q f hp hq hw hw').1, Or.inl ?_⟩
    rw [Set.mem_singleton_iff.mp hr₁, Set.mem_singleton_iff.mp hr₂]

theorem booted_bootKernel {n : Nat} (hn : n < 2 ^ 20) (hn' : 3 ≤ n) :
    Booted ((sampleFrames n).drop 3) (bootKernel n) := by
  have hstart := heapStart_bootKernel hn hn'
  have hmapped := bootKernel_mapped hn hn'
  have hroot := bootKernel_root hn hn'
  have hpml4 := hmapped.maps.mapped 1 rfl (Or.inl (sampleKernel_root n).symm)
  refine ⟨hstart.owned.of_single, ?_, hstart.ready.topAligned, hstart.ready.pml4Aligned, ?_, ?_⟩
  · -- `kernel_pml4_t` is mapped through entry 511, so that entry is present
    refine hstart.owned.writable _ (isTable_root rfl (by decide)) kernelSlot ?_
    rw [hroot]
    by_contra habs
    have hnone := (target_eq_none_iff _).mpr (Bool.not_eq_true _ ▸ habs)
    have hidx : path 0xffffffff80300000#64 =
        kernelSlot :: (path 0xffffffff80300000#64).tail := by decide
    rw [hidx, walk_cons, hnone, Option.bind_none] at hpml4
    cases hpml4
  · rw [bootKernel_pml4 hn hn']
    decide
  · rw [bootKernel_pml4 hn hn', hroot]
    exact hpml4

/-- The booted kernel can create a user PML4, with nothing in its user half. -/
theorem newUserPml4_bootKernel : ∃ g r s fs, newUserPml4 (bootKernel 20) = .ok (Frame.addr g, r, s) ∧
    r ≠ 0 ∧ g ≠ (bootKernel 20).root ∧ 4 ≤ fs.length ∧ (∀ f ∈ fs, f ≠ 0) ∧
    Owned kernelShared {g, (bootKernel 20).root} fs s ∧ SharedPresent kernelShared s ∧
    ∀ v, pml4Idx v ≠ selfSlot → pml4Idx v ≠ kernelSlot → translatePage s.mem g v = none := by
  have hboot := booted_bootKernel (n := 20) (by decide) (by decide)
  have hstart := heapStart_bootKernel (n := 20) (by decide) (by decide)
  have hinv := hboot.spacesInv
  have hset : (Spaces.mk (bootKernel 20) [(bootKernel 20).root]).rootSet = {(bootKernel 20).root} := by
    ext r
    simp [Spaces.rootSet]
  have haddrs := hinv.addrs
  rw [hset] at haddrs
  have hout := hboot.owned.newUserPml4_taken hinv.present haddrs
    (pml4Idx_of_heap hstart.ready.topSlot)
  have hlen : ((sampleFrames 20).drop 3).length = 17 := by
    rw [List.length_drop, sampleFrames_length]
  generalize hres : newUserPml4 (bootKernel 20) = res at hout
  cases hout with
  | exhausted hshort => omega
  | refused g fs₁ s₁ hm _ _ => exact absurd (hstart.ready.above _ le_rfl) hm
  | created g k used fs₁ s₁ hfs hused hk hmapped =>
    have hblank := hmapped.blank hboot.owned hfs
    obtain ⟨howned, hext⟩ := hmapped.owned.fillPml4 hk (hmapped.not_table hboot.owned hfs)
      (hboot.owned.notMem_taken hfs).2 hblank entryFlags_pageUser
    rw [hfs, List.length_cons, List.length_append] at hlen
    refine ⟨g, _, _, fs₁, rfl, ?_, ?_, by omega, fun f hf h0 => ?_, howned,
      hinv.present.of_extends hboot.owned.loaded (hmapped.extends.trans hext), fun v hv hv' => ?_⟩
    · rw [bootKernel_top (by decide) (by decide)]
      decide
    · -- the frame of the new PML4 was free
      rintro rfl
      exact hboot.owned.unused _ (hfs ▸ List.mem_cons_self) (isTable_root rfl (by decide))
    · have hmem : f ∈ (sampleFrames 20).drop 3 :=
        hfs ▸ List.mem_cons_of_mem _ (List.mem_append_right used hf)
      have hlow := (mem_sampleFrames (by decide) (List.mem_of_mem_drop hmem)).1
      rw [h0] at hlow
      exact absurd hlow (by decide)
    · unfold translatePage path
      rw [walk_cons, target_fillPml4 hblank _ _ hv hv', Option.bind_none]

/-- A second address space is created and loaded, and a page allocated in it: the kernel half is
    that of the first one, and the user half of the first one does not change. -/
theorem addressSpace_contract_boot : ∃ (g : Frame) (t t' : Spaces),
    Run SpaceStep ⟨bootKernel 20, [(bootKernel 20).root]⟩ [.createNewUserPml4, .setCr3 g] t ∧
    SpaceStep t (.kmallocTopVirtualAddressUser 0x1000 0x400000) t' ∧
    t'.roots = [g, (bootKernel 20).root] ∧ g ≠ (bootKernel 20).root ∧
    translatePage t.kernel.mem g 0x400000 = none ∧ translatePage t'.kernel.mem g 0x400000 ≠ none ∧
    (∀ v, pml4Idx v = kernelSlot →
      translate t'.kernel.mem g v = translate t'.kernel.mem (bootKernel 20).root v) ∧
    ∀ v, pml4Idx v ≠ selfSlot → pml4Idx v ≠ kernelSlot →
      translate t'.kernel.mem (bootKernel 20).root v =
        translate t.kernel.mem (bootKernel 20).root v := by
  have hboot := booted_bootKernel (n := 20) (by decide) (by decide)
  have hstart := heapStart_bootKernel (n := 20) (by decide) (by decide)
  obtain ⟨g, r, s, fs, hnew, hr, hne, hlen, hzero, howned, hpresent, hblank⟩ :=
    newUserPml4_bootKernel
  have hgroot : frameOf g.addr ∈ ({g, (bootKernel 20).root} : Set Frame) := by
    rw [frameOf_addr]
    exact Or.inl rfl
  have hcreate : SpaceStep ⟨bootKernel 20, [(bootKernel 20).root]⟩ .createNewUserPml4
      ⟨s, [g, (bootKernel 20).root]⟩ := by
    refine ⟨pml4Idx_of_heap hstart.ready.topSlot, ?_⟩
    unfold SpaceOp.run
    dsimp only
    rw [hnew, ok_bind]
    dsimp only
    rw [if_neg hr, frameOf_addr]
    rfl
  have hload : SpaceStep ⟨s, [g, (bootKernel 20).root]⟩ (.setCr3 g)
      ⟨s.setCr3 g.addr, [g, (bootKernel 20).root]⟩ := ⟨List.mem_cons_self, rfl⟩
  have hslot : pml4Idx 0x400000 ≠ selfSlot := by decide
  have hnone : (s.setCr3 g.addr).tableAt (path 0x400000) = none := by
    unfold Kernel.tableAt
    rw [root_setCr3, frameOf_addr]
    exact hblank 0x400000 hslot (by decide)
  obtain ⟨f, used, fs', s', hfresh, -, -, hmapped⟩ := (howned.setCr3 hgroot).mapFresh_unmapped
    entryFlags_pageUser (hpresent.setCr3 howned hgroot) hslot hlen hzero hnone
  have hallowed : (SpaceOp.kmallocTopVirtualAddressUser 0x1000 0x400000).Allowed
      ⟨s.setCr3 g.addr, [g, (bootKernel 20).root]⟩ := by
    intro i hi
    obtain rfl : i = 0 := Nat.lt_one_iff.mp hi
    rw [pageAt_zero]
    exact hslot
  have halloc : SpaceStep ⟨s.setCr3 g.addr, [g, (bootKernel 20).root]⟩
      (.kmallocTopVirtualAddressUser 0x1000 0x400000) ⟨s', [g, (bootKernel 20).root]⟩ := by
    refine ⟨hallowed, ?_⟩
    unfold SpaceOp.run SBUnix.kmallocTopVirtualAddressUser
    dsimp only
    rw [show (noOfPages 0x1000).toNat = 0 + 1 by decide]
    unfold pageWalkUser
    rw [kmallocLoop_succ, hfresh]
    rfl
  have hrun : Run SpaceStep ⟨bootKernel 20, [(bootKernel 20).root]⟩ [.createNewUserPml4, .setCr3 g]
      ⟨s.setCr3 g.addr, [g, (bootKernel 20).root]⟩ := .cons hcreate (.single hload)
  have hrun' : Run SpaceStep ⟨bootKernel 20, [(bootKernel 20).root]⟩
      [.createNewUserPml4, .setCr3 g, .kmallocTopVirtualAddressUser 0x1000 0x400000]
      ⟨s', [g, (bootKernel 20).root]⟩ := .cons hcreate (.cons hload (.single halloc))
  obtain ⟨-, hprivate⟩ := addressSpace_contract _ _ hboot _ _ hrun
  obtain ⟨hshared, -⟩ := addressSpace_contract _ _ hboot _ _ hrun'
  refine ⟨g, _, _, hrun, halloc, rfl, hne, hblank 0x400000 hslot (by decide), ?_,
    fun v hv => hshared _ (by simp) g (by simp) v hv, ?_⟩
  · have hpage := hmapped.maps.mapped g (Or.inl rfl) (Or.inl (by rw [root_setCr3, frameOf_addr]))
    unfold translatePage
    rw [hpage]
    exact Option.some_ne_none f
  · obtain herr | ⟨t', hok, hkept⟩ := hprivate _ hallowed
    · rw [halloc.2] at herr
      cases herr
    · obtain rfl := Except.ok.inj (halloc.2.symm.trans hok)
      refine hkept _ (by simp) fun heq => hne ?_
      rw [heq]
      exact (frameOf_addr g).symm

end SBUnix
