import SBUnix.Paging.AddressSpace
import SBUnix.Process.Model

/-
  What mapping pages leaves alone, over all address spaces.

  A frame that is neither a table nor free is a data frame. `Keeps` says of a step that mapped
  pages stay where they are, that data frames stay data frames with their bytes, and that an
  address below the heap top that is not mapped stays so; it composes. `Owned.mapRun` is the loop
  of the `kmalloc` family on pages that are not mapped: it succeeds, every page gets a frame of
  its own, and `Keeps` holds.
-/

namespace SBUnix

open ByteMem Radix

/-- `f` is neither a table nor free. -/
def DataFrame (roots : Set Frame) (fs : List Frame) (mem : Mem) (f : Frame) : Prop :=
  ¬ IsPageTable roots mem f ∧ f ∉ fs

/-- What a step leaves alone that may add address spaces to `roots`. -/
structure Keeps (roots roots' : Set Frame) (fs fs' : List Frame) (s s' : Kernel) : Prop where
  created : roots ⊆ roots'
  kept : ∀ r ∈ roots, ∀ v f, pml4Idx v ≠ selfSlot → translatePage s.mem r v = some f →
    translatePage s'.mem r v = some f
  data : ∀ f, DataFrame roots fs s.mem f → DataFrame roots' fs' s'.mem f
  bytes : ∀ f, DataFrame roots fs s.mem f → ∀ x, x / 4096 = f.toNat → s'.mem x = s.mem x
  absent : ∀ r ∈ roots, ∀ v, 2 ^ 64 - 2 ^ 39 ≤ v.toNat →
    v.toNat < s.topVirtualAddress.toNat → translatePage s.mem r v = none →
      translatePage s'.mem r v = none
  top : s.topVirtualAddress.toNat ≤ s'.topVirtualAddress.toNat

section Keeps

variable {roots roots₁ roots₂ : Set Frame} {fs fs₁ fs₂ used : List Frame} {s s₁ s₂ : Kernel}
  {v : Word} {f g : Frame}

theorem Keeps.refl (roots : Set Frame) (fs : List Frame) (s : Kernel) :
    Keeps roots roots fs fs s s :=
  ⟨subset_rfl, fun _ _ _ _ _ h => h, fun _ h => h, fun _ _ _ _ => rfl, fun _ _ _ _ _ h => h, le_rfl⟩

theorem Keeps.trans (h : Keeps roots roots₁ fs fs₁ s s₁) (h' : Keeps roots₁ roots₂ fs₁ fs₂ s₁ s₂) :
    Keeps roots roots₂ fs fs₂ s s₂ where
  created := h.created.trans h'.created
  kept r hr v f hv hf := h'.kept r (h.created hr) v f hv (h.kept r hr v f hv hf)
  data f hf := h'.data f (h.data f hf)
  bytes f hf x hx := (h'.bytes f (h.data f hf) x hx).trans (h.bytes f hf x hx)
  absent r hr v hv htop hnone :=
    h'.absent r (h.created hr) v hv (htop.trans_le h.top) (h.absent r hr v hv htop hnone)
  top := h.top.trans h'.top

/-- A step that changes no memory and takes frames. -/
theorem Keeps.of_mem_eq (hmem : s₁.mem = s.mem) (hfs : ∀ f ∈ fs₁, f ∈ fs)
    (htop : s.topVirtualAddress.toNat ≤ s₁.topVirtualAddress.toNat) :
    Keeps roots roots fs fs₁ s s₁ where
  created := subset_rfl
  kept r _ v f _ hf := by rwa [hmem]
  data f hf := by
    rw [hmem]
    exact ⟨hf.1, fun hmem => hf.2 (hfs f hmem)⟩
  bytes f _ x _ := by rw [hmem]
  absent r _ v _ _ hnone := by rwa [hmem]
  top := htop

/-- The page that is mapped is one of user addresses, or lies at the heap top or above. -/
theorem MappedPage.keeps (h : MappedPage kernelShared roots used fs₁ (path v) g s s₁)
    (hfs : ∀ f ∈ used ++ fs₁, f ∈ fs) (hal : s.topVirtualAddress.toNat % 4096 = 0)
    (hv : pml4Idx v ≠ kernelSlot ∨ (2 ^ 64 - 2 ^ 39 ≤ v.toNat ∧
      s.topVirtualAddress.toNat ≤ v.toNat)) :
    Keeps roots roots fs fs₁ s s₁ := by
  have hused : ∀ f, DataFrame roots fs s.mem f → f ∉ used := fun f hf hmem =>
    hf.2 (hfs f (List.mem_append_left _ hmem))
  refine ⟨subset_rfl, fun r hr w f _ hf => h.grown.kept r hr (path w) f hf, fun f hf => ?_,
    fun f hf x hx => ?_, fun r hr w hw htop hnone => ?_, by rw [h.grown.regs.top]⟩
  · exact ⟨h.grown.not_table hf.1 (hused f hf),
      fun hmem => hf.2 (hfs f (List.mem_append_right _ hmem))⟩
  · exact h.grown.data hf.1 (hused f hf) hx
  · have hslot : pml4Idx w ≠ selfSlot := pml4Idx_of_heap hw
    have hother := h.other hr hslot fun hpath => by
      obtain hv | ⟨hv, hle⟩ := hv
      · have hidx : pml4Idx w = pml4Idx v := by
          have hhead := congrArg List.head? hpath
          rw [path_head, path_head] at hhead
          exact Option.some.inj hhead
        refine hv (hidx.symm.trans ?_)
        have hlt := w.isLt
        have hw' := pml4Idx_toNat w
        apply BitVec.eq_of_toNat_eq
        rw [show kernelSlot.toNat = 511 from rfl]
        omega
      · have hpage := page_eq_of_path_eq hw hv hpath
        omega
    rw [hother, hnone]

end Keeps

/-! ## A run of pages -/

/-- The pages from `v` on were mapped to the frames `gs` in the loaded address space. -/
structure MappedRun (roots : Set Frame) (gs fs fs' : List Frame) (v : Word) (s s' : Kernel) :
    Prop where
  owned : Owned kernelShared roots fs' s'
  space : Extends roots s s'
  keeps : Keeps roots roots fs fs' s s'
  taken : ∀ g ∈ gs, g ∈ fs ∧ g ∉ fs' ∧ ¬ IsPageTable roots s'.mem g
  nodup : gs.Nodup
  left : ∀ f ∈ fs', f ∈ fs
  few : fs.length ≤ fs'.length + 4 * gs.length
  mapped : ∀ i (hi : i < gs.length), translatePage s'.mem s.root (pageAt v i) = some gs[i]
  other : ∀ w, pml4Idx w ≠ selfSlot → (∀ i < gs.length, path w ≠ path (pageAt v i)) →
    translatePage s'.mem s.root w = translatePage s.mem s.root w
  cr3 : s'.cr3 = s.cr3
  stack : s'.pagingUserStackTop = s.pagingUserStackTop

/-- `advance` moves the heap top by `d` bytes. -/
structure AdvancesBy (d : Nat) (advance : Kernel → Kernel) : Prop extends Advances advance where
  top_toNat : ∀ s, s.topVirtualAddress.toNat + d < 2 ^ 64 →
    (advance s).topVirtualAddress.toNat = s.topVirtualAddress.toNat + d
  stack : ∀ s, (advance s).pagingUserStackTop = s.pagingUserStackTop

theorem advancesBy_id : AdvancesBy 0 id := ⟨advances_id, fun _ _ => rfl, fun _ => rfl⟩

theorem advancesBy_advanceTop : AdvancesBy 4096 Kernel.advanceTop where
  toAdvances := advances_advanceTop
  top_toNat s h := by
    rw [topVirtualAddress_advanceTop, BitVec.toNat_add, show pageSize.toNat = 4096 from rfl]
    omega
  stack s := by
    cases s
    rfl

/-- The pages from `v` on can be mapped, with the heap top moving by `d` bytes for each: they are
    not mapped, are different, and are user pages or lie at the heap top or above. -/
structure RunReady (d n : Nat) (v : Word) (s : Kernel) : Prop where
  topAligned : s.topVirtualAddress.toNat % 4096 = 0
  topBound : s.topVirtualAddress.toNat + d * n < 2 ^ 64
  slot : ∀ i < n, pml4Idx (pageAt v i) ≠ selfSlot
  place : ∀ i < n, pml4Idx (pageAt v i) ≠ kernelSlot ∨ (2 ^ 64 - 2 ^ 39 ≤ (pageAt v i).toNat ∧
    s.topVirtualAddress.toNat + d * i ≤ (pageAt v i).toNat)
  different : ∀ i < n, ∀ j < n, path (pageAt v i) = path (pageAt v j) → i = j
  absent : ∀ i < n, translatePage s.mem s.root (pageAt v i) = none

section Run

variable {roots : Set Frame} {gs fs fs₁ fs₂ used : List Frame} {s s₁ s₂ : Kernel}
  {v flags : Word} {g : Frame} {d n : Nat} {advance : Kernel → Kernel}

theorem MappedRun.nil (h : Owned kernelShared roots fs s) (v : Word) :
    MappedRun roots [] fs fs v s s where
  owned := h
  space := Extends.refl roots s
  keeps := Keeps.refl roots fs s
  taken := by simp
  nodup := List.nodup_nil
  left _ hf := hf
  few := by simp
  mapped _ hi := absurd hi (Nat.not_lt_zero _)
  other _ _ _ := rfl
  cr3 := rfl
  stack := rfl

theorem pageAt_lt {w : Word} (h : ∀ i < n + 1, path w ≠ path (pageAt v i)) {i : Nat} (hi : i < n) :
    path w ≠ path (pageAt (pageSize + v) i) := by
  rw [pageAt_succ]
  exact h (i + 1) (by omega)

/-- The heap top behind a page that was mapped. -/
theorem MappedPage.top_advance (ha : AdvancesBy d advance)
    (h : MappedPage kernelShared roots used fs₁ (path v) g s s₁)
    (hbound : s.topVirtualAddress.toNat + d < 2 ^ 64) :
    (advance s₁).topVirtualAddress.toNat = s.topVirtualAddress.toNat + d := by
  rw [ha.top_toNat s₁ (by rwa [h.grown.regs.top]), h.grown.regs.top]

theorem MappedPage.keeps_advance (ha : AdvancesBy d advance)
    (h : MappedPage kernelShared roots used fs₁ (path v) g s s₁)
    (hfs : ∀ f ∈ used ++ fs₁, f ∈ fs) (hal : s.topVirtualAddress.toNat % 4096 = 0)
    (hbound : s.topVirtualAddress.toNat + d < 2 ^ 64)
    (hv : pml4Idx v ≠ kernelSlot ∨ (2 ^ 64 - 2 ^ 39 ≤ v.toNat ∧
      s.topVirtualAddress.toNat ≤ v.toNat)) :
    Keeps roots roots fs fs₁ s (advance s₁) := by
  refine (h.keeps hfs hal hv).trans (Keeps.of_mem_eq (ha.mem s₁) (fun _ hf => hf) ?_)
  rw [h.top_advance ha hbound, h.grown.regs.top]
  exact Nat.le_add_right _ _

theorem RunReady.bound (h : RunReady d (n + 1) v s) : s.topVirtualAddress.toNat + d < 2 ^ 64 := by
  have htop := h.topBound
  rw [Nat.mul_add] at htop
  omega

/-- The page at `v`, then the pages behind it. -/
theorem MappedRun.cons (ha : AdvancesBy d advance) (h : Owned kernelShared roots fs s)
    (hfs : fs = g :: (used ++ fs₁)) (hused : used.length ≤ 3) (hready : RunReady d (n + 1) v s)
    (hpage : MappedPage kernelShared roots used fs₁ (path v) g s s₁) (hlen : gs.length = n)
    (hrun : MappedRun roots gs fs₁ fs₂ (pageSize + v) (advance s₁) s₂) :
    MappedRun roots (g :: gs) fs fs₂ v s s₂ := by
  have hv := hready.slot 0 (by omega)
  have hplace := hready.place 0 (by omega)
  rw [pageAt_zero] at hv hplace
  have hgfs₁ : g ∉ fs₁ := (h.notMem_taken hfs).2
  have hmem : (advance s₁).mem = s₁.mem := ha.mem s₁
  have hroot : (advance s₁).root = s.root := (ha.root s₁).trans hpage.grown.regs.root
  have hsub : ∀ f ∈ fs₁, f ∈ fs := by
    intro f hf
    rw [hfs]
    exact List.mem_cons_of_mem _ (List.mem_append_right _ hf)
  have hgv : translatePage s₁.mem s.root v = some g := hpage.maps.mapped s.root h.loaded (Or.inl rfl)
  have hgv₂ : translatePage s₂.mem s.root v = some g :=
    hrun.space.kept s.root h.loaded v g hv (by rw [hmem]; exact hgv)
  have hkeeps : Keeps roots roots fs fs₁ s (advance s₁) := by
    refine hpage.keeps_advance ha (fun f hf => ?_) hready.topAligned hready.bound
      (by simpa using hplace)
    rw [hfs]
    exact List.mem_cons_of_mem _ hf
  have hgdata : DataFrame roots fs₁ (advance s₁).mem g := by
    rw [hmem]
    exact ⟨hpage.not_table h hfs, hgfs₁⟩
  obtain ⟨htable₂, hgfs₂⟩ := hrun.keeps.data g hgdata
  refine ⟨hrun.owned, hpage.extends.trans (ha.extends.trans hrun.space),
    hkeeps.trans hrun.keeps, fun x hx => ?_, ?_, fun f hf => hsub f (hrun.left f hf),
    ?_, fun i hi => ?_, fun w hw hne => ?_, ?_, ?_⟩
  · obtain rfl | hx := List.mem_cons.mp hx
    · refine ⟨?_, hgfs₂, htable₂⟩
      rw [hfs]
      exact List.mem_cons_self
    · obtain ⟨hx₁, hx₂, hx₃⟩ := hrun.taken x hx
      exact ⟨hsub x hx₁, hx₂, hx₃⟩
  · exact List.nodup_cons.mpr ⟨fun hx => hgfs₁ (hrun.taken g hx).1, hrun.nodup⟩
  · have hfew := hrun.few
    rw [hfs, List.length_cons, List.length_cons, List.length_append]
    omega
  · cases i with
    | zero =>
      rw [pageAt_zero]
      exact hgv₂
    | succ i =>
      have hnext := hrun.mapped i (Nat.lt_of_succ_lt_succ hi)
      rw [hroot, pageAt_succ] at hnext
      exact hnext
  · rw [List.length_cons] at hne
    have hw₁ := hne 0 (by omega)
    rw [pageAt_zero] at hw₁
    have hother := hrun.other w hw fun i hi => pageAt_lt hne hi
    rw [hroot, hmem] at hother
    rw [hother]
    exact hpage.other h.loaded hw hw₁
  · rw [hrun.cr3, ha.cr3, hpage.grown.regs.cr3]
  · rw [hrun.stack, ha.stack, hpage.grown.regs.stack]

theorem RunReady.next (ha : AdvancesBy d advance) (h : Owned kernelShared roots fs s)
    (hready : RunReady d (n + 1) v s)
    (hpage : MappedPage kernelShared roots used fs₁ (path v) g s s₁) :
    RunReady d n (pageSize + v) (advance s₁) := by
  have hregs := hpage.grown.regs
  have hbound := hready.topBound
  rw [Nat.mul_add] at hbound
  have htop := hpage.top_advance ha hready.bound
  have hroot : (advance s₁).root = s.root := (ha.root s₁).trans hregs.root
  refine ⟨?_, by omega, fun i hi => ?_, fun i hi => ?_, fun i hi j hj hij => ?_, fun i hi => ?_⟩
  · rw [ha.top, hregs.top]
    exact hready.topAligned
  · rw [pageAt_succ]
    exact hready.slot (i + 1) (by omega)
  · have hplace := hready.place (i + 1) (by omega)
    rw [pageAt_succ, htop]
    refine hplace.imp_right fun hheap => ⟨hheap.1, ?_⟩
    have hle := hheap.2
    rw [Nat.mul_succ] at hle
    omega
  · rw [pageAt_succ, pageAt_succ] at hij
    have := hready.different (i + 1) (by omega) (j + 1) (by omega) hij
    omega
  · have hne : path (pageAt v (i + 1)) ≠ path v := by
      intro hsame
      have hzero := hready.different (i + 1) (by omega) 0 (by omega) (by rwa [pageAt_zero])
      omega
    have hother := hpage.other h.loaded (hready.slot (i + 1) (by omega)) hne
    have habsent := hready.absent (i + 1) (by omega)
    rw [pageAt_succ, hroot, ha.mem]
    exact hother.trans habsent

/-- The loop of the `kmalloc` family on pages that can be mapped. -/
theorem Owned.mapRun (ha : AdvancesBy d advance) (hf : EntryFlags flags) (result : Word) (n : Nat)
    (h : Owned kernelShared roots fs s) (hsp : SharedPresent kernelShared s) (h0 : 0 ∉ fs)
    (hlen : 4 * n ≤ fs.length) (hready : RunReady d n v s) :
    ∃ gs fs' s', kmallocLoop (walkAndMap flags) advance result n v s = .ok (result, s') ∧
      gs.length = n ∧ s'.topVirtualAddress.toNat = s.topVirtualAddress.toNat + d * n ∧
      MappedRun roots gs fs fs' v s s' := by
  induction n generalizing v s fs with
  | zero => exact ⟨[], fs, s, rfl, rfl, rfl, MappedRun.nil h v⟩
  | succ n ih =>
    have hv := hready.slot 0 (by omega)
    have habsent := hready.absent 0 (by omega)
    rw [pageAt_zero] at hv habsent
    have hfresh := h.mapFresh hf hsp hv
    rw [kmallocLoop_succ]
    generalize SBUnix.mapFresh flags v s = res at hfresh
    cases hfresh with
    | exhausted hfew => omega
    | refused g fs₁ s₁ hfs hwhy =>
      obtain hg | hm := hwhy
      · exact absurd (by simp [hfs, hg]) h0
      · exact absurd habsent hm
    | mapped g used fs₁ s₁ hfs hused _ hpage =>
      have htop := hpage.top_advance ha hready.bound
      have hroot : (advance s₁).root = s.root := (ha.root s₁).trans hpage.grown.regs.root
      have hadvance : Extends roots s₁ _ := ha.extends
      have h0₁ : 0 ∉ fs₁ := by
        intro hmem
        rw [hfs] at h0
        exact h0 (List.mem_cons_of_mem _ (List.mem_append_right _ hmem))
      have hlen₁ : 4 * n ≤ fs₁.length := by
        rw [hfs, List.length_cons, List.length_append] at hlen
        omega
      obtain ⟨gs, fs', s', hloop, hgs, htop', hrun⟩ := ih (ha.owned hpage.owned)
        (hsp.of_extends h.loaded (hpage.extends.trans hadvance)) h0₁ hlen₁ (hready.next ha h hpage)
      refine ⟨g :: gs, fs', s', ?_, by rw [List.length_cons, hgs], ?_,
        MappedRun.cons ha h hfs hused hready hpage hgs hrun⟩
      · rw [ok_bind]
        dsimp only
        rw [if_neg (by decide)]
        exact hloop
      · rw [htop', htop, Nat.mul_add]
        omega

/-- The loop stops at the first page that is mapped already, and returns 0. -/
theorem Owned.mapRun_refused (hf : EntryFlags flags) (result : Word) (n : Nat)
    (h : Owned kernelShared roots fs s) (hsp : SharedPresent kernelShared s)
    (hlen : 4 * n ≤ fs.length) (hslot : ∀ i < n, pml4Idx (pageAt v i) ≠ selfSlot)
    (hdifferent : ∀ i < n, ∀ j < n, path (pageAt v i) = path (pageAt v j) → i = j)
    (hmapped : ∃ i < n, translatePage s.mem s.root (pageAt v i) ≠ none) :
    ∃ s', kmallocLoop (walkAndMap flags) id result n v s = .ok (0, s') ∧
      ∀ w, pml4Idx w ≠ selfSlot → (∀ i < n, path w ≠ path (pageAt v i)) →
        translatePage s'.mem s'.root w = translatePage s.mem s.root w := by
  induction n generalizing v s fs with
  | zero =>
    obtain ⟨i, hi, -⟩ := hmapped
    omega
  | succ n ih =>
    have hv := hslot 0 (by omega)
    rw [pageAt_zero] at hv
    have hfresh := h.mapFresh hf hsp hv
    rw [kmallocLoop_succ]
    generalize SBUnix.mapFresh flags v s = res at hfresh
    cases hfresh with
    | exhausted hfew => omega
    | refused g fs₁ s₁ _ _ hmem hregs =>
      refine ⟨s₁, ?_, fun w _ _ => by rw [hmem, hregs.root]⟩
      rw [ok_bind]
      dsimp only
      rw [if_pos rfl]
      rfl
    | mapped g used fs₁ s₁ hfs hused habsent hpage =>
      have hroot : s₁.root = s.root := hpage.grown.regs.root
      have hother : ∀ w, pml4Idx w ≠ selfSlot → path w ≠ path v →
          translatePage s₁.mem s₁.root w = translatePage s.mem s.root w := by
        intro w hw hne
        rw [hroot]
        exact hpage.other h.loaded hw hne
      have hlater : ∀ i < n, path (pageAt v (i + 1)) ≠ path v := by
        intro i hi hsame
        have := hdifferent (i + 1) (by omega) 0 (by omega) (by rwa [pageAt_zero])
        omega
      have hlen₁ : 4 * n ≤ fs₁.length := by
        rw [hfs, List.length_cons, List.length_append] at hlen
        omega
      obtain ⟨s', hloop, hrest⟩ := ih (v := pageSize + v) hpage.owned
        (hsp.of_extends h.loaded hpage.extends) hlen₁
        (fun i hi => by
          rw [pageAt_succ]
          exact hslot (i + 1) (by omega))
        (fun i hi j hj hij => by
          rw [pageAt_succ, pageAt_succ] at hij
          have := hdifferent (i + 1) (by omega) (j + 1) (by omega) hij
          omega) (by
          obtain ⟨i, hi, hmap⟩ := hmapped
          cases i with
          | zero =>
            rw [pageAt_zero] at hmap
            exact absurd habsent hmap
          | succ i =>
            refine ⟨i, by omega, ?_⟩
            rw [pageAt_succ, hother _ (hslot (i + 1) hi) (hlater i (by omega))]
            exact hmap)
      refine ⟨s', ?_, fun w hw hne => ?_⟩
      · rw [ok_bind]
        dsimp only
        rw [if_neg (by decide)]
        exact hloop
      · have hfirst := hne 0 (by omega)
        rw [pageAt_zero] at hfirst
        rw [hrest w hw fun i hi => pageAt_lt hne hi, hother w hw hfirst]

end Run

end SBUnix
