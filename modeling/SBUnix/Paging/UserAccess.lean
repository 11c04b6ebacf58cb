import SBUnix.Paging.AddressSpace

/-
  What user mode can reach in a new address space.

  The CPU lets user mode use an address when the US bit is set in the entries of all four
  levels. `create_new_user_pml4` stores the PML4's reference to itself with `PAGE_USER`, so
  the recursive window itself is open to user mode: its last page is the PML4
  (`not_tablesProtected`). No later mapping changes that entry, since a walk only fills absent
  slots, and so the tables are never protected (`user_reaches_tables`).
-/

namespace SBUnix

open ByteMem Radix Steps

/-- The US bit of an entry. -/
def userBit (e : Word) : Bool := e.getLsbD 2

/-- All entries on a path are present and have the US bit. -/
def userWalk (mem : Mem) : Frame → List Idx → Bool
  | _, [] => true
  | f, i :: p =>
    match target (entries mem f i) with
    | none => false
    | some g => userBit (entries mem f i) && userWalk mem g p

/-- The CPU's rule for user-mode accesses. -/
def userAccessible (mem : Mem) (root : Frame) (v : Word) : Bool := userWalk mem root (path v)

/-- No address that user mode can use translates to a page table of its own address space. -/
def TablesProtected (mem : Mem) (root : Frame) : Prop :=
  ∀ v g, userAccessible mem root v = true → translatePage mem root v = some g →
    ¬ IsPageTable {root} mem g

/-- The last page of the recursive window of a user PML4 is open to user mode, and is the PML4. -/
theorem pml4_userAccessible {mem : Mem} {g : Frame}
    (h : entries mem g selfSlot = g.addr ||| pageUser) :
    userAccessible mem g pml4PtWalk = true ∧ translatePage mem g pml4PtWalk = some g := by
  have hpath : path pml4PtWalk = [selfSlot, selfSlot, selfSlot, selfSlot] := by decide
  have htarget : target (entries mem g selfSlot) = some g := by
    rw [h, target_or_flags _ entryFlags_pageUser, frameOf_addr]
  have hbit : userBit (entries mem g selfSlot) = true := by
    rw [h]
    simp [userBit, pageUser]
  constructor
  · unfold userAccessible
    rw [hpath]
    simp [userWalk, htarget, hbit]
  · unfold translatePage
    rw [hpath]
    simp [htarget]

theorem not_tablesProtected {mem : Mem} {g : Frame}
    (h : entries mem g selfSlot = g.addr ||| pageUser) : ¬ TablesProtected mem g := by
  obtain ⟨huser, htr⟩ := pml4_userAccessible h
  intro hprot
  exact hprot pml4PtWalk g huser htr (isTable_root rfl (by decide))

/-! ## Mapping user pages -/

/-- The calls that map pages at user addresses. -/
inductive PageOp where
  | pageWalk (pAddr vAddr : Word)
  | pageWalkUser (pAddr vAddr : Word)
  | kmallocTopVirtualAddressUser (size userTop : Word)

def PageOp.run : PageOp → Kernel → Except Fault (Word × Kernel)
  | pageWalk p v => SBUnix.pageWalk p v
  | pageWalkUser p v => SBUnix.pageWalkUser p v
  | kmallocTopVirtualAddressUser size userTop => SBUnix.kmallocTopVirtualAddressUser size userTop

/-- A user address lies outside slots 510 and 511. -/
def UserAddr (v : Word) : Prop := pml4Idx v ≠ selfSlot ∧ pml4Idx v ≠ kernelSlot

def PageOp.Allowed : PageOp → Prop
  | pageWalk _ v => UserAddr v
  | pageWalkUser _ v => UserAddr v
  | kmallocTopVirtualAddressUser size userTop =>
    ∀ i < (noOfPages size).toNat, UserAddr (pageAt userTop i)

/-- One call at user addresses that returns. -/
def PageStep (s : Kernel) (op : PageOp) (s' : Kernel) : Prop :=
  op.Allowed ∧ ∃ r, op.run s = .ok (r, s')

/-- What the calls need of the address spaces. -/
structure WalkReady (roots : Set Frame) (s : Kernel) : Prop where
  owned : ∃ fs, Owned kernelShared roots fs s
  present : SharedPresent kernelShared s

theorem PageStep.spec {roots : Set Frame} {s s' : Kernel} {op : PageOp} (h : WalkReady roots s)
    (hs : PageStep s op s') : WalkReady roots s' ∧ Extends roots s s' := by
  obtain ⟨ha, r, hrun⟩ := hs
  obtain ⟨fs, hfs⟩ := h.owned
  have hout : StepOutcome roots s (op.run s) := by
    cases op with
    | pageWalk p v => exact hfs.walkAndMap_outcome entryFlags_pageKernel h.present ha.1 p
    | pageWalkUser p v => exact hfs.walkAndMap_outcome entryFlags_pageUser h.present ha.1 p
    | kmallocTopVirtualAddressUser size userTop =>
      exact hfs.kmallocLoop_outcome advances_id entryFlags_pageUser _ _ h.present
        fun i hi => (ha i hi).1
  rw [hrun] at hout
  cases hout with
  | done x s₁ fs₁ howned hext =>
    exact ⟨⟨⟨fs₁, howned⟩, h.present.of_extends hfs.loaded hext⟩, hext⟩

/-- No sequence of calls changes a PML4's reference to itself. -/
theorem selfEntry_of_run {roots : Set Frame} {s s' : Kernel} {ops : List PageOp}
    (h : WalkReady roots s) (hrun : Run PageStep s ops s') {g : Frame} (hg : g ∈ roots) :
    entries s'.mem g selfSlot = entries s.mem g selfSlot := by
  have hrel := Run.relation (I := WalkReady roots)
    (R := fun s s' => Extends roots s s')
    (fun _ _ _ hi hs => PageStep.spec hi hs) (Extends.refl roots) (fun _ _ _ h₁ h₂ => h₁.trans h₂)
    hrun h
  obtain ⟨fs, hfs⟩ := h.owned
  refine hrel.2.entry g hg selfSlot ?_
  rw [hfs.forest.self_ref g hg]
  simp

/-- What `create_new_user_pml4` leaves behind when it succeeds. -/
theorem newUserPml4_ready {roots : Set Frame} {fs : List Frame} {s s₁ : Kernel} {p r : Word}
    (h : Owned kernelShared roots fs s) (hsp : SharedPresent kernelShared s)
    (haddrs : KernelAddrs roots s) (htop : pml4Idx s.topVirtualAddress ≠ selfSlot)
    (hnew : newUserPml4 s = .ok (p, r, s₁)) (hr : r ≠ 0) :
    WalkReady (insert (frameOf p) roots) s₁ ∧
      WalkReady (insert (frameOf p) roots) (s₁.setCr3 p) ∧
      entries s₁.mem (frameOf p) selfSlot = (frameOf p).addr ||| pageUser := by
  have hout := h.newUserPml4 hsp haddrs htop
  rw [hnew] at hout
  generalize hres : (Except.ok (p, r, s₁) : Except Fault (Word × Word × Kernel)) = res at hout
  cases hout with
  | exhausted _ => cases hres
  | refused p' s₁' fs₁ _ _ _ =>
    cases hres
    exact absurd rfl hr
  | created g s₁' fs₁ howned hext hself =>
    cases hres
    have hsp₁ := hsp.of_extends h.loaded hext
    rw [frameOf_addr]
    refine ⟨⟨⟨fs₁, howned⟩, hsp₁⟩, ⟨⟨fs₁, ?_⟩, ?_⟩, hself⟩
    · refine ⟨howned.forest, ?_, howned.writable, howned.free, howned.nodup, howned.zero,
        howned.unused⟩
      show frameOf g.addr ∈ insert g roots
      rw [frameOf_addr]
      exact Or.inl rfl
    · intro i hi
      have hshare := howned.forest.share s₁.root howned.loaded g (Or.inl rfl) i hi
      show target (entries s₁.mem (frameOf g.addr) i) ≠ none
      rw [frameOf_addr, hshare]
      exact hsp₁ i hi

/-- Whatever is mapped after `create_new_user_pml4`, with the new address space loaded or not, its
    page tables are never protected from user mode. -/
theorem user_reaches_tables (fs : List Frame) (s : Kernel) (h : Booted fs s)
    (spaceOps : List SpaceOp) (t : Spaces) (ht : Run SpaceStep ⟨s, [s.root]⟩ spaceOps t)
    (htop : pml4Idx t.kernel.topVirtualAddress ≠ selfSlot) (p r : Word) (s₁ : Kernel)
    (hnew : newUserPml4 t.kernel = .ok (p, r, s₁)) (hr : r ≠ 0) (load : Bool)
    (ops : List PageOp) (s' : Kernel)
    (hrun : Run PageStep (if load then s₁.setCr3 p else s₁) ops s') :
    ¬ TablesProtected s'.mem (frameOf p) := by
  have hinv := ht.invariant (fun _ _ _ hi hs => SpacesInv.step hi hs) h.spacesInv
  obtain ⟨fs₁, hfs₁⟩ := hinv.owned
  obtain ⟨hready, hready', hself⟩ := newUserPml4_ready hfs₁ hinv.present hinv.addrs htop hnew hr
  refine not_tablesProtected ?_
  cases load with
  | false =>
    have hkeep := selfEntry_of_run hready hrun (Or.inl rfl)
    rw [hkeep, hself]
  | true =>
    have hkeep := selfEntry_of_run hready' hrun (Or.inl rfl)
    rw [hkeep]
    exact hself

theorem user_reaches_tables_boot : ∃ p r s₁, newUserPml4 (bootKernel 20) = .ok (p, r, s₁) ∧
    r ≠ 0 ∧ ¬ TablesProtected (s₁.setCr3 p).mem (frameOf p) := by
  obtain ⟨g, r, s₁, -, hnew, hr, -⟩ := newUserPml4_bootKernel
  have hstart := heapStart_bootKernel (n := 20) (by decide) (by decide)
  exact ⟨_, r, s₁, hnew, hr, user_reaches_tables _ (bootKernel 20)
    (booted_bootKernel (by decide) (by decide)) [] _ (.nil _) (pml4Idx_of_heap hstart.ready.topSlot)
    _ r s₁ hnew hr true [] _ (.nil _)⟩

/-- Right after its creation, a user PML4 is itself a page open to user mode. -/
theorem user_pml4_open_boot : ∃ p r s₁, newUserPml4 (bootKernel 20) = .ok (p, r, s₁) ∧ r ≠ 0 ∧
    userAccessible s₁.mem (frameOf p) pml4PtWalk = true ∧
    translatePage s₁.mem (frameOf p) pml4PtWalk = some (frameOf p) ∧
    ¬ TablesProtected s₁.mem (frameOf p) := by
  obtain ⟨g, r, s₁, -, hnew, hr, -⟩ := newUserPml4_bootKernel
  have hstart := heapStart_bootKernel (n := 20) (by decide) (by decide)
  have hinv := (booted_bootKernel (n := 20) (by decide) (by decide)).spacesInv
  obtain ⟨fs, hfs⟩ := hinv.owned
  obtain ⟨-, -, hself⟩ := newUserPml4_ready hfs hinv.present hinv.addrs
    (pml4Idx_of_heap hstart.ready.topSlot) hnew hr
  obtain ⟨huser, htr⟩ := pml4_userAccessible hself
  exact ⟨_, r, s₁, hnew, hr, huser, htr, not_tablesProtected hself⟩

end SBUnix
