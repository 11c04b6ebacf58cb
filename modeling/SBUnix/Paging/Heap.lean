import SBUnix.Paging.FreshPage

/-
  The kernel heap: `kmalloc`, `kmalloc_user` and `create_new_user_pml4` on one bump pointer.

  `HeapStep r gs used fs fs' s s'` says that the heap of the address space `r` grew by the pages
  backed by the frames `gs`, at the price of the table frames `used`. One page is a step
  (`HeapStep.onePage`), steps compose (`HeapStep.trans`), and so every sequence of calls is one
  step (`runCalls_outcome`). What callers rely on is read off that step: `heap_ranges`.
-/

namespace SBUnix

open ByteMem Radix

/-! ## Calls -/

/-- A call that takes memory from the kernel heap. -/
inductive HeapCall where
  | kmalloc (size : Word)
  | kmallocUser (size : Word)
  | createNewUserPml4

namespace HeapCall

/-- The bytes asked for. -/
def size : HeapCall → Nat
  | kmalloc n => n.toNat
  | kmallocUser n => n.toNat
  | createNewUserPml4 => 4096

/-- The pages the call maps. -/
def pages : HeapCall → Nat
  | kmalloc n => (noOfPages n).toNat
  | kmallocUser n => (1 + noOfPages n).toNat
  | createNewUserPml4 => 1

/-- The call; a new PML4 gets a frame just taken from the free list. -/
def run : HeapCall → Kernel → Except Fault (Word × Kernel)
  | kmalloc n, s => SBUnix.kmalloc n s
  | kmallocUser n, s => SBUnix.kmallocUser n s
  | createNewUserPml4, s => do
    let (pAddr, s) ← s.takeFrame
    SBUnix.createNewUserPml4 pAddr s

end HeapCall

/-- A sequence of calls: what each returned, in order. -/
def runCalls : List HeapCall → Kernel → Except Fault (List Word × Kernel)
  | [], s => .ok ([], s)
  | c :: cs, s => do
    let (r, s) ← c.run s
    let (rs, s) ← runCalls cs s
    return (r :: rs, s)

theorem noOfPages_toNat (size : Word) : (noOfPages size).toNat = (size.toNat + 4095) / 4096 := by
  have hlt := size.isLt
  have hmod : (size % pageSize).toNat = size.toNat % 4096 := BitVec.toNat_umod
  have hdiv : (size / pageSize).toNat = size.toNat / 4096 := BitVec.toNat_udiv
  unfold noOfPages
  split_ifs with h <;> rw [ne_zero_iff_toNat, hmod] at h
  · rw [BitVec.toNat_add, hdiv, show ((1 : Word)).toNat = 1 from rfl]
    omega
  · rw [hdiv]
    omega

/-- The pages of a call cover its bytes. -/
theorem HeapCall.size_le (c : HeapCall) : c.size ≤ 4096 * c.pages := by
  cases c with
  | kmalloc n =>
    unfold size pages
    dsimp only
    rw [noOfPages_toNat]
    omega
  | kmallocUser n =>
    have hlt := n.isLt
    unfold size pages
    dsimp only
    rw [BitVec.toNat_add, noOfPages_toNat, show ((1 : Word)).toNat = 1 from rfl]
    omega
  | createNewUserPml4 => exact le_rfl

/-! ## The heap grows -/

/-- The heap of address space `r`: an aligned top in slot 511 with nothing mapped from there on,
    and a mapped `kernel_pml4_t` outside the recursive window. -/
structure HeapReady (r : Frame) (s : Kernel) : Prop where
  topAligned : s.topVirtualAddress.toNat % 4096 = 0
  topSlot : 2 ^ 64 - 2 ^ 39 ≤ s.topVirtualAddress.toNat
  pml4Aligned : s.kernelPml4T.toNat % 4096 = 0
  pml4Slot : pml4Idx s.kernelPml4T ≠ selfSlot
  pml4Mapped : translatePage s.mem r s.kernelPml4T ≠ none
  above : ∀ v, s.topVirtualAddress.toNat ≤ v.toNat → translatePage s.mem r v = none

/-- The heap grew by one page for each frame of `gs`; `used` became tables, `fs'` are left. -/
structure HeapStep (r : Frame) (gs used fs fs' : List Frame) (s s' : Kernel) : Prop where
  owned : Owned ∅ {r} fs' s'
  frames : fs.Perm (gs ++ (used ++ fs'))
  few : used.length ≤ 3 * gs.length
  top : s'.topVirtualAddress.toNat = s.topVirtualAddress.toNat + 4096 * gs.length
  pml4 : s'.kernelPml4T = s.kernelPml4T
  tables : ∀ g, IsPageTable {r} s'.mem g → IsPageTable {r} s.mem g ∨ g ∈ used
  kept : ∀ v x, pml4Idx v ≠ selfSlot → translatePage s.mem r v = some x →
    translatePage s'.mem r v = some x
  mapped : ∀ i (hi : i < gs.length), ∀ v,
    v.toNat / 4096 = s.topVirtualAddress.toNat / 4096 + i → translatePage s'.mem r v = some gs[i]
  above : ∀ v, s'.topVirtualAddress.toNat ≤ v.toNat →
    translatePage s'.mem r v = translatePage s.mem r v

section HeapStep

variable {r : Frame} {gs gs₁ gs₂ used used₁ used₂ fs fs₁ fs₂ : List Frame} {s s₁ s₂ : Kernel}
  {flags : Word}

/-- Pages of slot 511 have different paths. -/
theorem page_eq_of_path_eq {v w : Word} (hv : 2 ^ 64 - 2 ^ 39 ≤ v.toNat)
    (hw : 2 ^ 64 - 2 ^ 39 ≤ w.toNat) (h : path v = path w) : v.toNat / 4096 = w.toNat / 4096 := by
  have hlt := v.isLt
  have hlt' := w.isLt
  rw [path_eq_iff] at h
  omega

theorem pml4Idx_of_heap {v : Word} (hv : 2 ^ 64 - 2 ^ 39 ≤ v.toNat) : pml4Idx v ≠ selfSlot := by
  have hlt := v.isLt
  have hidx := pml4Idx_toNat v
  rw [Ne, ← BitVec.toNat_inj, show selfSlot.toNat = 510 from rfl]
  omega

theorem HeapStep.refl (h : Owned ∅ {r} fs s) : HeapStep r [] [] fs fs s s where
  owned := h
  frames := by simp
  few := by simp
  top := by simp
  pml4 := rfl
  tables _ hg := Or.inl hg
  kept _ _ _ hx := hx
  mapped i hi := absurd hi (by simp)
  above _ _ := rfl

theorem HeapStep.trans (hready : HeapReady r s)
    (h : HeapStep r gs₁ used₁ fs fs₁ s s₁) (h' : HeapStep r gs₂ used₂ fs₁ fs₂ s₁ s₂) :
    HeapStep r (gs₁ ++ gs₂) (used₁ ++ used₂) fs fs₂ s s₂ where
  owned := h'.owned
  frames := by
    have hstep : (gs₁ ++ (used₁ ++ fs₁)).Perm (gs₁ ++ (used₁ ++ (gs₂ ++ (used₂ ++ fs₂)))) :=
      (h'.frames.append_left used₁).append_left gs₁
    have hswap : (used₁ ++ (gs₂ ++ (used₂ ++ fs₂))).Perm (gs₂ ++ (used₁ ++ (used₂ ++ fs₂))) :=
      List.perm_append_comm_assoc _ _ _
    have hall := h.frames.trans (hstep.trans (hswap.append_left gs₁))
    simpa only [List.append_assoc] using hall
  few := by
    have h₁ := h.few
    have h₂ := h'.few
    simp only [List.length_append]
    omega
  top := by
    have h₁ := h.top
    have h₂ := h'.top
    rw [List.length_append]
    omega
  pml4 := h'.pml4.trans h.pml4
  tables g hg := by
    obtain hg | hg := h'.tables g hg
    · obtain hg | hg := h.tables g hg
      · exact Or.inl hg
      · exact Or.inr (List.mem_append_left _ hg)
    · exact Or.inr (List.mem_append_right _ hg)
  kept v x hv hx := h'.kept v x hv (h.kept v x hv hx)
  mapped i hi v hv := by
    have hslot := hready.topSlot
    have hal := hready.topAligned
    by_cases hlt : i < gs₁.length
    · rw [List.getElem_append_left hlt]
      refine h'.kept v _ (pml4Idx_of_heap ?_) (h.mapped i hlt v hv)
      omega
    · rw [List.length_append] at hi
      rw [List.getElem_append_right (by omega)]
      have htop := h.top
      exact h'.mapped (i - gs₁.length) (by omega) v (by omega)
  above v hv := by
    have htop := h'.top
    rw [h'.above v hv, h.above v (by omega)]

theorem HeapStep.ready (h : HeapStep r gs used fs fs₁ s s₁) (hready : HeapReady r s) :
    HeapReady r s₁ where
  topAligned := by
    have htop := h.top
    have hal := hready.topAligned
    omega
  topSlot := by
    have htop := h.top
    have hslot := hready.topSlot
    omega
  pml4Aligned := by
    rw [h.pml4]
    exact hready.pml4Aligned
  pml4Slot := by
    rw [h.pml4]
    exact hready.pml4Slot
  pml4Mapped := by
    obtain ⟨k, hk⟩ := Option.ne_none_iff_exists'.mp hready.pml4Mapped
    rw [h.pml4, h.kept _ _ hready.pml4Slot hk]
    simp
  above v hv := by
    have htop := h.top
    rw [h.above v hv, hready.above v (by omega)]

theorem advanceTop_toNat {n : Nat} (hwrap : s.topVirtualAddress.toNat + 4096 * (n + 1) < 2 ^ 64) :
    s.advanceTop.topVirtualAddress.toNat = s.topVirtualAddress.toNat + 4096 := by
  have hadd : s.advanceTop.topVirtualAddress = pageSize + s.topVirtualAddress := by
    cases s
    rfl
  rw [hadd, BitVec.toNat_add, show pageSize.toNat = 4096 from rfl]
  omega

/-- Mapping the page at the heap top and advancing the top is one step. -/
theorem HeapStep.onePage {g : Frame} (hready : HeapReady r s)
    (hwrap : s.topVirtualAddress.toNat + 4096 * 1 < 2 ^ 64) (hroot : s.root = r)
    (hused : used.length ≤ 3)
    (h : MappedPage ∅ {r} used fs₁ (path s.topVirtualAddress) g s s₁) :
    HeapStep r [g] used (g :: (used ++ fs₁)) fs₁ s s₁.advanceTop where
  owned := h.owned.advanceTop
  frames := List.Perm.refl _
  few := by simpa using hused
  top := by
    have htop := h.grown.regs.top
    have hadv := advanceTop_toNat (s := s₁) (n := 0) (by rw [htop]; exact hwrap)
    rw [hadv, htop]
    rfl
  pml4 := by rw [kernelPml4T_advanceTop, h.grown.regs.pml4]
  tables x hx := by
    rw [mem_advanceTop] at hx
    exact (h.grown.tables x).mp hx
  kept v x _ hx := by
    rw [mem_advanceTop]
    exact h.grown.kept r rfl _ x hx
  mapped i hi v hv := by
    obtain rfl : i = 0 := by simpa using hi
    rw [mem_advanceTop]
    unfold translatePage
    rw [path_eq_of_page_eq (by simpa using hv)]
    exact h.maps.mapped r rfl (Or.inl hroot.symm)
  above v hv := by
    have htop := h.grown.regs.top
    have hadv := advanceTop_toNat (s := s₁) (n := 0) (by rw [htop]; exact hwrap)
    have hslot := hready.topSlot
    have hal := hready.topAligned
    rw [hadv, htop] at hv
    rw [mem_advanceTop]
    refine h.other rfl (pml4Idx_of_heap (by omega)) fun hpath => ?_
    have hpage := page_eq_of_path_eq (by omega) hslot hpath
    omega

/-- What a call that needs `n` pages does: it runs out of frames, or it returns the old heap top
    and the heap has grown by `n` pages. -/
inductive HeapOutcome (r : Frame) (fs : List Frame) (n : Nat) (s : Kernel) (result : Word) :
    Except Fault (Word × Kernel) → Prop
  | exhausted : fs.length < 4 * n →
      HeapOutcome r fs n s result (.error (.strayRead kernbase))
  | done (gs used fs₁ : List Frame) (s₁ : Kernel) : gs.length = n →
      HeapStep r gs used fs fs₁ s s₁ → HeapOutcome r fs n s result (.ok (result, s₁))

theorem sharedPresent_empty (s : Kernel) : SharedPresent ∅ s := fun i hi => absurd hi (by simp)

theorem root_eq_of_owned (h : Owned ∅ {r} fs s) : s.root = r := h.loaded

/-- The frames left after a step of `n` pages. -/
theorem HeapStep.length_le (h : HeapStep r gs used fs fs₁ s s₁) :
    fs.length ≤ fs₁.length + 4 * gs.length := by
  have hlen := h.frames.length_eq
  have hfew := h.few
  simp only [List.length_append] at hlen
  omega

theorem HeapStep.notMem_zero (h : HeapStep r gs used fs fs₁ s s₁) (h0 : 0 ∉ fs) : 0 ∉ fs₁ := by
  intro hmem
  refine h0 (h.frames.mem_iff.mpr ?_)
  exact List.mem_append_right _ (List.mem_append_right _ hmem)

/-- The loop of `kmalloc` and `kmalloc_user` at the heap top. -/
theorem kmallocLoop_outcome (hf : EntryFlags flags) (result : Word) (n : Nat)
    (h : Owned ∅ {r} fs s) (hready : HeapReady r s) (h0 : 0 ∉ fs)
    (hwrap : s.topVirtualAddress.toNat + 4096 * n < 2 ^ 64) :
    HeapOutcome r fs n s result
      (kmallocLoop (walkAndMap flags) Kernel.advanceTop result n s.topVirtualAddress s) := by
  induction n generalizing s fs with
  | zero => exact .done [] [] fs s rfl (HeapStep.refl h)
  | succ n ih =>
    have hroot := root_eq_of_owned h
    have hunmapped : s.tableAt (path s.topVirtualAddress) = none := by
      unfold Kernel.tableAt
      rw [hroot]
      exact hready.above _ le_rfl
    have hfresh := h.mapFresh hf (sharedPresent_empty s) (pml4Idx_of_heap hready.topSlot)
    rw [kmallocLoop_succ]
    generalize hres : mapFresh flags s.topVirtualAddress s = res at hfresh
    cases hfresh with
    | exhausted hlen => exact .exhausted (by omega)
    | refused g fs₁ s₁ hfs hwhy =>
      obtain hg | hm := hwhy
      · exact absurd (by simp [hfs, hg]) h0
      · exact absurd hunmapped hm
    | mapped g used fs₁ s₁ hfs hused _ hmapped =>
      rw [Nat.mul_add, ← Nat.add_assoc] at hwrap
      have hroom : s.topVirtualAddress.toNat + 4096 * 1 < 2 ^ 64 := by omega
      have hone : HeapStep r [g] used fs fs₁ s s₁.advanceTop := by
        rw [hfs]
        exact HeapStep.onePage hready hroom hroot hused hmapped
      have htop := hone.top
      have hnext : pageSize + s.topVirtualAddress = s₁.advanceTop.topVirtualAddress := by
        apply BitVec.eq_of_toNat_eq
        rw [BitVec.toNat_add, htop, show pageSize.toNat = 4096 from rfl, List.length_singleton]
        omega
      have hrest := ih hone.owned (hone.ready hready) (hone.notMem_zero h0)
        (by rw [htop, List.length_singleton]; omega)
      rw [ok_bind]
      dsimp only
      rw [if_neg (by decide), hnext]
      generalize kmallocLoop (walkAndMap flags) Kernel.advanceTop result n
        s₁.advanceTop.topVirtualAddress s₁.advanceTop = res at hrest
      cases hrest with
      | exhausted hlen =>
        have hle := hone.length_le
        rw [List.length_singleton] at hle
        exact .exhausted (by omega)
      | done gs₂ used₂ fs₂ s₂ hlen hstep =>
        refine .done ([g] ++ gs₂) (used ++ used₂) fs₂ s₂ ?_ (hone.trans hready hstep)
        rw [List.length_append, List.length_singleton]
        omega

/-- Writing into a frame that is no table of `r` and not free adds nothing to a step. -/
theorem HeapStep.setSlot (hready : HeapReady r s) (h : HeapStep r gs used fs fs₁ s s₁) {g : Frame}
    (hg : ¬ IsPageTable {r} s₁.mem g) (hfree : g ∉ fs₁) (i : Idx) (e : Word) :
    HeapStep r gs used fs fs₁ s (s₁.setSlot g i e) := by
  have hoff := offTable_setSlot hg i e
  have htop : (s₁.setSlot g i e).topVirtualAddress = s₁.topVirtualAddress := by
    cases s₁
    rfl
  have hpml4 : (s₁.setSlot g i e).kernelPml4T = s₁.kernelPml4T := by
    cases s₁
    rfl
  have hsame : ∀ v, pml4Idx v ≠ selfSlot →
      translatePage (s₁.setSlot g i e).mem r v = translatePage s₁.mem r v :=
    fun v hv => hoff.walk_eq rfl (path_length v) (path_head_ne hv)
  have hslot := hready.topSlot
  have hal := hready.topAligned
  have hle := h.top
  exact {
    owned := h.owned.setSlot_offTable hg hfree i e
    frames := h.frames
    few := h.few
    top := htop ▸ h.top
    pml4 := hpml4.trans h.pml4
    tables := fun x hx => h.tables x ((hoff.isPageTable_iff x).mp hx)
    kept := fun v x hv hx => (hsame v hv).trans (h.kept v x hv hx)
    mapped := fun j hj v hv =>
      (hsame v (pml4Idx_of_heap (by omega))).trans (h.mapped j hj v hv)
    above := fun v hv => by
      rw [htop] at hv
      rw [hsame v (pml4Idx_of_heap (by omega)), h.above v hv] }

/-- Taking a frame first changes nothing a step is about. -/
theorem HeapStep.congr_left (hmem : s₁.mem = s.mem) (hregs : s.SameRegs s₁)
    (h : HeapStep r gs used fs fs₁ s₁ s₂) : HeapStep r gs used fs fs₁ s s₂ where
  owned := h.owned
  frames := h.frames
  few := h.few
  top := by rw [h.top, hregs.top]
  pml4 := by rw [h.pml4, hregs.pml4]
  tables g hg := by
    have hor := h.tables g hg
    rwa [hmem] at hor
  kept v x hv hx := h.kept v x hv (by rwa [hmem])
  mapped i hi v hv := h.mapped i hi v (by rwa [hregs.top])
  above v hv := by rw [h.above v hv, hmem]

theorem HeapReady.congr (hready : HeapReady r s) (hmem : s₁.mem = s.mem) (hregs : s.SameRegs s₁) :
    HeapReady r s₁ where
  topAligned := hregs.top ▸ hready.topAligned
  topSlot := hregs.top ▸ hready.topSlot
  pml4Aligned := hregs.pml4 ▸ hready.pml4Aligned
  pml4Slot := hregs.pml4 ▸ hready.pml4Slot
  pml4Mapped := by
    rw [hregs.pml4, hmem]
    exact hready.pml4Mapped
  above := by
    rw [hregs.top, hmem]
    exact hready.above

/-- `create_new_user_pml4` on a frame just taken. -/
theorem createNewUserPml4_outcome (h : Owned ∅ {r} fs s) (hready : HeapReady r s)
    (hwrap : s.topVirtualAddress.toNat + 4096 * 1 < 2 ^ 64) :
    HeapOutcome r fs 1 s s.topVirtualAddress (HeapCall.createNewUserPml4.run s) := by
  have hroot := root_eq_of_owned h
  unfold HeapCall.run
  dsimp only
  cases fs with
  | nil =>
    rw [h.takeFrame_nil]
    exact .exhausted (by simp)
  | cons g fs =>
    obtain ⟨s₁, htake, hmem, hregs, h₁⟩ := h.takeFrame
    have hg : ¬ IsPageTable {r} s₁.mem g := by
      rw [hmem]
      exact h.unused g (by simp)
    have hfree := (List.nodup_cons.mp h.nodup).1
    have hready₁ : HeapReady r s₁ := hready.congr hmem hregs
    have hmapped₁ : s₁.tableAt (path s₁.kernelPml4T) ≠ none := by
      unfold Kernel.tableAt
      rw [root_eq_of_owned h₁]
      exact hready₁.pml4Mapped
    have hcreate := h₁.createNewPml4 entryFlags_pageUser (sharedPresent_empty s₁)
      ⟨hready₁.topAligned, pml4Idx_of_heap hready₁.topSlot, hready₁.pml4Aligned, hmapped₁⟩ hg hfree
    rw [htake, ok_bind]
    dsimp only
    unfold createNewUserPml4
    generalize createNewPml4 pageUser g.addr s₁ = res at hcreate
    cases hcreate with
    | exhausted hlen =>
      refine .exhausted ?_
      rw [List.length_cons]
      omega
    | refused hm =>
      refine absurd ?_ hm
      unfold Kernel.tableAt
      rw [root_eq_of_owned h₁]
      exact hready₁.above _ le_rfl
    | created used fs₁ s₂ k hfs hused _ hmapped _ =>
      have hone : HeapStep r [g] used (g :: fs) fs₁ s₁ s₂.advanceTop := by
        rw [hfs]
        exact HeapStep.onePage hready₁ (by rw [hregs.top]; exact hwrap) (root_eq_of_owned h₁) hused
          hmapped
      have hfree₁ : g ∉ fs₁ := by
        intro hmem₁
        exact hfree (hfs ▸ List.mem_append_right used hmem₁)
      have hg₂ : ¬ IsPageTable {r} s₂.advanceTop.mem g := by
        intro hg₂
        obtain hold | hnew := hone.tables g hg₂
        · exact hg hold
        · exact hfree (hfs ▸ List.mem_append_left fs₁ hnew)
      have hfill₁ := hone.setSlot hready₁ hg₂ hfree₁ kernelSlot (entries s₂.mem k kernelSlot)
      have hg₃ := mt ((offTable_setSlot hg₂ kernelSlot (entries s₂.mem k kernelSlot)).isPageTable_iff
        g).mp hg₂
      have hfill₂ := hfill₁.setSlot hready₁ hg₃ hfree₁ selfSlot (g.addr ||| pageUser)
      rw [hregs.top]
      exact .done [g] used fs₁ _ rfl (hfill₂.congr_left hmem hregs)

/-- Every call that stays below the end of the address space. -/
theorem HeapCall.run_outcome (c : HeapCall) (h : Owned ∅ {r} fs s) (hready : HeapReady r s)
    (h0 : 0 ∉ fs) (hwrap : s.topVirtualAddress.toNat + 4096 * c.pages < 2 ^ 64) :
    HeapOutcome r fs c.pages s s.topVirtualAddress (c.run s) := by
  cases c with
  | kmalloc n => exact kmallocLoop_outcome entryFlags_pageKernel _ _ h hready h0 hwrap
  | kmallocUser n => exact kmallocLoop_outcome entryFlags_pageUser _ _ h hready h0 hwrap
  | createNewUserPml4 => exact createNewUserPml4_outcome h hready hwrap

/-- The heap tops a sequence of calls goes through. -/
def tops : Nat → List HeapCall → List Nat
  | _, [] => []
  | t, c :: cs => t :: tops (t + 4096 * c.pages) cs

/-- The pages a sequence of calls maps. -/
def totalPages (cs : List HeapCall) : Nat := (cs.map HeapCall.pages).sum

theorem totalPages_cons (c : HeapCall) (cs : List HeapCall) :
    totalPages (c :: cs) = c.pages + totalPages cs := rfl

/-- A run of calls is one step; the calls returned the heap tops in order. -/
theorem runCalls_outcome (cs : List HeapCall) (h : Owned ∅ {r} fs s) (hready : HeapReady r s)
    (h0 : 0 ∉ fs) (hwrap : s.topVirtualAddress.toNat + 4096 * totalPages cs < 2 ^ 64) :
    (fs.length < 4 * totalPages cs ∧ runCalls cs s = .error (.strayRead kernbase)) ∨
      ∃ rs s' gs used fs', runCalls cs s = .ok (rs, s') ∧
        rs.map BitVec.toNat = tops s.topVirtualAddress.toNat cs ∧
        gs.length = totalPages cs ∧ HeapStep r gs used fs fs' s s' := by
  induction cs generalizing s fs with
  | nil => exact Or.inr ⟨[], s, [], [], fs, rfl, rfl, rfl, HeapStep.refl h⟩
  | cons c cs ih =>
    rw [totalPages_cons] at hwrap ⊢
    rw [Nat.mul_add, ← Nat.add_assoc] at hwrap
    have hcall := c.run_outcome h hready h0 (by omega)
    rw [runCalls]
    generalize c.run s = res at hcall
    cases hcall with
    | exhausted hlen => exact Or.inl ⟨by omega, rfl⟩
    | done gs used fs₁ s₁ hlen hstep =>
      have htop := hstep.top
      rw [hlen] at htop
      have hle := hstep.length_le
      obtain ⟨hshort, hrun⟩ | ⟨rs, s₂, gs₂, used₂, fs₂, hrun, hrs, hlen₂, hstep₂⟩ :=
        ih hstep.owned (hstep.ready hready) (hstep.notMem_zero h0) (by omega)
      · refine Or.inl ⟨by omega, ?_⟩
        rw [ok_bind]
        dsimp only
        rw [hrun]
        rfl
      · refine Or.inr ⟨s.topVirtualAddress :: rs, s₂, gs ++ gs₂, used ++ used₂, fs₂, ?_, ?_, ?_,
          hstep.trans hready hstep₂⟩
        · rw [ok_bind]
          dsimp only
          rw [hrun]
          rfl
        · rw [List.map_cons, hrs, htop, tops]
        · rw [List.length_append]
          omega

end HeapStep

/-! ## What callers rely on -/

/-- `v` lies in the range `[r, r + size)` of a call that returned `r`. -/
def InRange (a : Word × HeapCall) (v : Word) : Prop :=
  a.1.toNat ≤ v.toNat ∧ v.toNat < a.1.toNat + a.2.size

/-- The returned tops lie apart, in order, below the final top. -/
theorem tops_spec {rs : List Word} {t : Nat} {cs : List HeapCall}
    (h : rs.map BitVec.toNat = tops t cs) :
    rs.length = cs.length ∧
      (∀ a ∈ rs.zip cs, t ≤ a.1.toNat ∧
        a.1.toNat + 4096 * a.2.pages ≤ t + 4096 * totalPages cs) ∧
      (rs.zip cs).Pairwise fun a b => a.1.toNat + 4096 * a.2.pages ≤ b.1.toNat := by
  induction cs generalizing t rs with
  | nil =>
    have hnil : rs = [] := by simpa [tops] using h
    simp [hnil]
  | cons c cs ih =>
    cases rs with
    | nil => simp [tops] at h
    | cons r rs =>
      rw [List.map_cons, tops, List.cons.injEq] at h
      obtain ⟨hr, hrs⟩ := h
      obtain ⟨hlen, hbounds, hpair⟩ := ih hrs
      rw [totalPages_cons]
      refine ⟨by rw [List.length_cons, List.length_cons, hlen], ?_, ?_⟩
      · intro a ha
        rw [List.zip_cons_cons, List.mem_cons] at ha
        obtain rfl | ha := ha
        · dsimp only
          omega
        · have hb := hbounds a ha
          omega
      · rw [List.zip_cons_cons, List.pairwise_cons]
        refine ⟨fun b hb => ?_, hpair⟩
        have hlow := (hbounds b hb).1
        dsimp only
        omega

theorem runCalls_append (cs₁ cs₂ : List HeapCall) (s : Kernel) :
    runCalls (cs₁ ++ cs₂) s = (do
      let (rs₁, s) ← runCalls cs₁ s
      let (rs₂, s) ← runCalls cs₂ s
      return (rs₁ ++ rs₂, s)) := by
  induction cs₁ generalizing s with
  | nil =>
    rw [List.nil_append, runCalls, ok_bind]
    dsimp only
    cases runCalls cs₂ s <;> rfl
  | cons c cs₁ ih =>
    rw [List.cons_append, runCalls, runCalls]
    cases c.run s with
    | error e => rfl
    | ok q =>
      simp only [ok_bind]
      rw [ih]
      cases runCalls cs₁ q.2 with
      | error e => rfl
      | ok q₁ =>
        simp only [ok_bind, pure_bind]
        cases runCalls cs₂ q₁.2 <;> rfl

/-- The start of a kernel heap: owned tables, distinct zero-filled frames other than frame 0,
    and a heap top with nothing mapped from there on. -/
structure HeapStart (fs : List Frame) (s : Kernel) : Prop where
  owned : Owned ∅ {s.root} fs s
  noZero : 0 ∉ fs
  ready : HeapReady s.root s

/-- The ranges returned by a run of calls. -/
structure HeapRanges (s : Kernel) (cs : List HeapCall) (rs : List Word) (s' : Kernel) : Prop where
  length : rs.length = cs.length
  nonzero : ∀ r ∈ rs, r ≠ 0
  disjoint : (rs.zip cs).Pairwise fun a b => ∀ v, InRange a v → ¬ InRange b v
  backed : ∀ a ∈ rs.zip cs, ∀ v, InRange a v → ∃ g,
    translatePage s'.mem s.root v = some g ∧ ¬ IsPageTable {s.root} s'.mem g ∧
      ∀ b ∈ rs.zip cs, ∀ w, InRange b w → translatePage s'.mem s.root w = some g →
        w.toNat / 4096 = v.toNat / 4096

section Ranges

variable {fs fs' gs used : List Frame} {s s' : Kernel} {cs : List HeapCall} {rs : List Word}

/-- A page of a returned range has its own frame among those of the step. -/
theorem HeapStep.index_of_inRange (hready : HeapReady s.root s)
    (hrs : rs.map BitVec.toNat = tops s.topVirtualAddress.toNat cs)
    (hlen : gs.length = totalPages cs) {a : Word × HeapCall} (ha : a ∈ rs.zip cs) {v : Word}
    (hv : InRange a v) :
    ∃ i, i < gs.length ∧ v.toNat / 4096 = s.topVirtualAddress.toNat / 4096 + i := by
  have hal := hready.topAligned
  have hb := (tops_spec hrs).2.1 a ha
  have hsize := a.2.size_le
  unfold InRange at hv
  refine ⟨v.toNat / 4096 - s.topVirtualAddress.toNat / 4096, ?_, ?_⟩ <;> omega

theorem HeapStep.ranges (h : HeapStart fs s)
    (hrs : rs.map BitVec.toNat = tops s.topVirtualAddress.toNat cs)
    (hlen : gs.length = totalPages cs) (hstep : HeapStep s.root gs used fs fs' s s') :
    HeapRanges s cs rs s' := by
  obtain ⟨hlength, hbounds, hpair⟩ := tops_spec hrs
  have hslot := h.ready.topSlot
  have hnodup : (gs ++ (used ++ fs')).Nodup := hstep.frames.nodup_iff.mp h.owned.nodup
  refine ⟨hlength, ?_, ?_, ?_⟩
  · intro r hr
    obtain ⟨i, hi, rfl⟩ := List.getElem_of_mem hr
    have hmem : (rs[i], cs[i]) ∈ rs.zip cs := by
      rw [← List.getElem_zip (h := by rw [List.length_zip]; omega)]
      exact List.getElem_mem _
    have hlow := (hbounds _ hmem).1
    rw [ne_zero_iff_toNat]
    dsimp only at hlow
    omega
  · refine hpair.imp fun {a b} hab v ha hb => ?_
    have hsize := a.2.size_le
    unfold InRange at ha hb
    omega
  · intro a ha v hv
    obtain ⟨i, hi, hpage⟩ := HeapStep.index_of_inRange h.ready hrs hlen ha hv
    refine ⟨gs[i], hstep.mapped i hi v hpage, ?_, ?_⟩
    · intro htable
      obtain hold | hnew := hstep.tables _ htable
      · refine h.owned.unused gs[i] (hstep.frames.mem_iff.mpr ?_) hold
        exact List.mem_append_left _ (List.getElem_mem hi)
      · exact (List.disjoint_of_nodup_append hnodup) (List.getElem_mem hi)
          (List.mem_append_left _ hnew)
    · intro b hb w hw hwg
      obtain ⟨j, hj, hpage'⟩ := HeapStep.index_of_inRange h.ready hrs hlen hb hw
      rw [hstep.mapped j hj w hpage', Option.some.injEq] at hwg
      have hij := (List.nodup_append.mp hnodup).1.getElem_inj_iff.mp hwg
      omega

/-- The mappings of a run's ranges outlive every later run. -/
theorem HeapRanges.stable {fs₁ : List Frame} {s₁ : Kernel} {a : Word × HeapCall} {v : Word}
    (h : HeapRanges s cs rs s₁) (hready : HeapReady s.root s)
    (hrs : rs.map BitVec.toNat = tops s.topVirtualAddress.toNat cs)
    (hstep : HeapStep s.root gs used fs₁ fs' s₁ s') (ha : a ∈ rs.zip cs) (hv : InRange a v) :
    translatePage s'.mem s.root v = translatePage s₁.mem s.root v := by
  obtain ⟨g, hg, -⟩ := h.backed a ha v hv
  have hlow := ((tops_spec hrs).2.1 a ha).1
  have hslot := hready.topSlot
  unfold InRange at hv
  rw [hg]
  exact hstep.kept v g (pml4Idx_of_heap (by omega)) hg

end Ranges

theorem totalPages_append (cs₁ cs₂ : List HeapCall) :
    totalPages (cs₁ ++ cs₂) = totalPages cs₁ + totalPages cs₂ := by
  unfold totalPages
  rw [List.map_append, List.sum_append]

/-- A sequence of calls that does not wrap the heap top either runs out of frames, or returns
    disjoint ranges with a frame for each page; later calls leave these mappings alone. -/
theorem heap_ranges (fs : List Frame) (s : Kernel) (h : HeapStart fs s) (cs : List HeapCall)
    (hwrap : s.topVirtualAddress.toNat + 4096 * totalPages cs < 2 ^ 64) :
    (fs.length < 4 * totalPages cs ∧ runCalls cs s = .error (.strayRead kernbase)) ∨
      ∃ rs s', runCalls cs s = .ok (rs, s') ∧ HeapRanges s cs rs s' ∧
        ∀ cs₁ cs₂, cs = cs₁ ++ cs₂ → ∃ rs₁ s₁, runCalls cs₁ s = .ok (rs₁, s₁) ∧
          HeapRanges s cs₁ rs₁ s₁ ∧ ∀ a ∈ rs₁.zip cs₁, ∀ v, InRange a v →
            translatePage s'.mem s.root v = translatePage s₁.mem s.root v := by
  obtain hex | ⟨rs, s', gs, used, fs', hrun, hrs, hlen, hstep⟩ :=
    runCalls_outcome cs h.owned h.ready h.noZero hwrap
  · exact Or.inl hex
  refine Or.inr ⟨rs, s', hrun, hstep.ranges h hrs hlen, ?_⟩
  intro cs₁ cs₂ hcs
  subst hcs
  rw [totalPages_append, Nat.mul_add, ← Nat.add_assoc] at hwrap
  rw [runCalls_append] at hrun
  obtain ⟨⟨rs₁, s₁⟩, hrun₁, hrun'⟩ := bind_eq_ok.mp hrun
  obtain ⟨⟨rs₂, s₂⟩, hrun₂, hret⟩ := bind_eq_ok.mp hrun'
  obtain ⟨-, rfl⟩ := Prod.mk.inj (Except.ok.inj hret)
  -- the first calls are a step of their own, and the others a step from where they end
  obtain ⟨-, herr⟩ | ⟨rs₁', s₁', gs₁, used₁, fs₁, hok₁, hrs₁, hlen₁, hstep₁⟩ :=
    runCalls_outcome cs₁ h.owned h.ready h.noZero (by omega)
  · rw [hrun₁] at herr
    cases herr
  rw [hrun₁] at hok₁
  cases hok₁
  have htop := hstep₁.top
  rw [hlen₁] at htop
  obtain ⟨-, herr⟩ | ⟨rs₂', s₂', gs₂, used₂, fs₂, hok₂, -, -, hstep₂⟩ :=
    runCalls_outcome cs₂ hstep₁.owned (hstep₁.ready h.ready) (hstep₁.notMem_zero h.noZero)
      (by omega)
  · rw [hrun₂] at herr
    cases herr
  rw [hrun₂] at hok₂
  cases hok₂
  have hranges₁ := hstep₁.ranges h hrs₁ hlen₁
  exact ⟨rs₁, s₁, hrun₁, hranges₁, fun a ha v hv => hranges₁.stable h.ready hrs₁ hstep₂ ha hv⟩

/-! ## A kernel with its PML4 mapped -/

/-- `sampleKernel n` after mapping its PML4 at `kernel_pml4_t`. -/
def bootKernel (n : Nat) : Kernel :=
  match pageWalk (Frame.addr 1) (sampleKernel n).kernelPml4T (sampleKernel n) with
  | .ok (_, s) => s
  | .error _ => sampleKernel n

theorem tableAt_sampleKernel (n : Nat) {q : List Idx} (hq : q ≠ [])
    (hh : q.head? ≠ some selfSlot) : (sampleKernel n).tableAt q = none := by
  unfold Kernel.tableAt
  rw [sampleKernel_root]
  cases hw : walk target (entries (sampleKernel n).mem) 1 q with
  | none => rfl
  | some x =>
    refine absurd (walk_loneRoot ?_ hh hw).1 hq
    intro j hj
    rw [entries_sampleKernel, if_neg fun h => hj h.2, target_zero]

theorem bootKernel_mapped {n : Nat} (hn : n < 2 ^ 20) (hn' : 3 ≤ n) :
    MappedPage ∅ {1} ((sampleFrames n).take 3) ((sampleFrames n).drop 3)
      (path 0xffffffff80300000#64) 1 (sampleKernel n) (bootKernel n) := by
  have howned := owned_sampleKernel hn ∅
  rw [sampleKernel_root] at howned
  have hv : pml4Idx (sampleKernel n).kernelPml4T ≠ selfSlot := by
    show pml4Idx 0xffffffff80300000#64 ≠ selfSlot
    decide
  have hnone : ∀ q : List Idx, q ≠ [] → q.head? ≠ some selfSlot →
      (sampleKernel n).tableAt q = none := fun q => tableAt_sampleKernel n
  have hmissing : missingTables (sampleKernel n) (sampleKernel n).kernelPml4T = 3 :=
    if_pos (hnone _ (by simp [path]) (by simpa [path] using hv))
  have hlen := sampleFrames_length n
  obtain ⟨s', hrun, hmapped⟩ := howned.walkAndMap_unmapped entryFlags_pageKernel
    (sharedPresent_empty _) hv (Frame.addr 1) (hnone _ (by simp [path]) (path_head_ne hv))
    (by omega)
  rw [hmissing, frameOf_addr] at hmapped
  have hboot : bootKernel n = s' := by
    unfold bootKernel pageWalk
    rw [hrun]
  rw [hboot]
  exact hmapped

theorem bootKernel_root {n : Nat} (hn : n < 2 ^ 20) (hn' : 3 ≤ n) : (bootKernel n).root = 1 :=
  (bootKernel_mapped hn hn').grown.regs.root.trans (sampleKernel_root n)

theorem bootKernel_top {n : Nat} (hn : n < 2 ^ 20) (hn' : 3 ≤ n) :
    (bootKernel n).topVirtualAddress = 0xffffffff80400000#64 :=
  (bootKernel_mapped hn hn').grown.regs.top

theorem bootKernel_pml4 {n : Nat} (hn : n < 2 ^ 20) (hn' : 3 ≤ n) :
    (bootKernel n).kernelPml4T = 0xffffffff80300000#64 :=
  (bootKernel_mapped hn hn').grown.regs.pml4

theorem heapStart_bootKernel {n : Nat} (hn : n < 2 ^ 20) (hn' : 3 ≤ n) :
    HeapStart ((sampleFrames n).drop 3) (bootKernel n) := by
  have hmapped := bootKernel_mapped hn hn'
  have hpml4 := hmapped.maps.mapped 1 rfl (Or.inl (sampleKernel_root n).symm)
  have htop := bootKernel_top hn hn'
  refine ⟨?_, ?_, ?_⟩
  · rw [bootKernel_root hn hn']
    exact hmapped.owned
  · intro h0
    have hlow := (mem_sampleFrames hn (List.mem_of_mem_drop h0)).1
    exact absurd hlow (by decide)
  · rw [bootKernel_root hn hn']
    constructor
    · rw [htop]
      decide
    · rw [htop]
      decide
    · rw [bootKernel_pml4 hn hn']
      decide
    · rw [bootKernel_pml4 hn hn']
      decide
    · rw [bootKernel_pml4 hn hn']
      unfold translatePage
      rw [hpml4]
      simp
    · intro v hv
      rw [htop] at hv
      have hslot : pml4Idx v ≠ selfSlot :=
        pml4Idx_of_heap (le_trans (by decide) hv)
      unfold translatePage
      rw [hmapped.maps.other 1 rfl _ rfl (path_head_ne hslot)]
      · have hnone := tableAt_sampleKernel n (q := path v) (by simp [path]) (path_head_ne hslot)
        unfold Kernel.tableAt at hnone
        rwa [sampleKernel_root] at hnone
      · intro hcond
        have hpage := page_eq_of_path_eq (le_trans (by decide) hv) (by decide) hcond.1
        have hlow : (0xffffffff80400000#64 : Word).toNat / 4096 ≤ v.toNat / 4096 :=
          Nat.div_le_div_right hv
        rw [hpage] at hlow
        exact absurd hlow (by decide)

theorem heap_ranges_boot :
    ((sampleFrames 20).drop 3).length < 4 * totalPages [.kmalloc 5000, .createNewUserPml4] ∧
        runCalls [.kmalloc 5000, .createNewUserPml4] (bootKernel 20) =
          .error (.strayRead kernbase) ∨
      ∃ rs s', runCalls [.kmalloc 5000, .createNewUserPml4] (bootKernel 20) = .ok (rs, s') ∧
        HeapRanges (bootKernel 20) [.kmalloc 5000, .createNewUserPml4] rs s' ∧
        ∀ cs₁ cs₂, [.kmalloc 5000, .createNewUserPml4] = cs₁ ++ cs₂ →
          ∃ rs₁ s₁, runCalls cs₁ (bootKernel 20) = .ok (rs₁, s₁) ∧
            HeapRanges (bootKernel 20) cs₁ rs₁ s₁ ∧ ∀ a ∈ rs₁.zip cs₁, ∀ v, InRange a v →
              translatePage s'.mem (bootKernel 20).root v =
                translatePage s₁.mem (bootKernel 20).root v :=
  heap_ranges _ (bootKernel 20) (heapStart_bootKernel (by decide) (by decide)) _
    (by rw [bootKernel_top (by decide) (by decide)]; decide)

end SBUnix
