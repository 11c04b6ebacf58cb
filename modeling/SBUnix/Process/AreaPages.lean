import SBUnix.Process.Areas

/-
  The pages of an area, from its bounds.

  `create_process` rounds the start of an area down and what is left to its end up.
  `UserArea.pagesReady` says that these pages can be mapped where none of them is, and
  `Mappable.mem_pages` that they are the pages that overlap the area, when it is not empty.
-/

namespace SBUnix

open ByteMem Radix

/-- An address the CPU accepts: bits 48 to 63 are copies of bit 47. -/
def Canonical (v : Word) : Prop := v.toNat < 2 ^ 47 ∨ 2 ^ 64 - 2 ^ 47 ≤ v.toNat

/-- Slot 508, where the stack of a process lies. -/
def stackSlot : Idx := 508#9

/-- The page of the stack. -/
def stackPage : Word := 0xfffffe0000000000#64

namespace VmAreaStruct

/-- `a` lies in `[vm_start, vm_end)`. -/
def Contains (area : VmAreaStruct) (a : Word) : Prop :=
  area.vmStart.toNat ≤ a.toNat ∧ a.toNat < area.vmEnd.toNat

/-- The page of `v` overlaps `[vm_start, vm_end)`. -/
def Overlaps (area : VmAreaStruct) (v : Word) : Prop :=
  ∃ a, area.Contains a ∧ a.toNat / 4096 = v.toNat / 4096

/-- `vm_size` of `create_process`. -/
def vmSize (area : VmAreaStruct) : Word := roundUp (area.vmEnd - pageAlign area.vmStart)

/-- The pages that are mapped for the area. -/
def pages (area : VmAreaStruct) : List Word :=
  pagesFrom (pageAlign area.vmStart) (area.vmSize.toNat / 4096)

end VmAreaStruct

/-- The area does not wrap, and from the page of its start on it lies at canonical addresses
    outside the slots of the tables and of the kernel. -/
structure UserArea (area : VmAreaStruct) : Prop where
  ordered : area.vmStart.toNat ≤ area.vmEnd.toNat
  start : Canonical area.vmStart ∧ UserAddr area.vmStart
  inside : ∀ a : Word, area.vmStart.toNat / 4096 * 4096 ≤ a.toNat → a.toNat < area.vmEnd.toNat →
    Canonical a ∧ UserAddr a

/-- The area is not empty, does not wrap, and lies at canonical addresses outside the slots of
    the stack, of the tables and of the kernel. -/
structure Mappable (area : VmAreaStruct) : Prop where
  nonempty : area.vmStart.toNat < area.vmEnd.toNat
  canonical : ∀ a, area.Contains a → Canonical a
  user : ∀ a, area.Contains a → UserAddr a
  noStack : ∀ a, area.Contains a → pml4Idx a ≠ stackSlot

/-! ## Addresses of one page -/

section Address

variable {v w : Word}

/-- Canonical pages have different paths. -/
theorem page_eq_of_canonical (hv : Canonical v) (hw : Canonical w) (h : path v = path w) :
    v.toNat / 4096 = w.toNat / 4096 := by
  have hlt := v.isLt
  have hlt' := w.isLt
  unfold Canonical at hv hw
  rw [path_eq_iff] at h
  omega

theorem Canonical.of_page_eq (h : Canonical v) (hvw : v.toNat / 4096 = w.toNat / 4096) :
    Canonical w := by
  unfold Canonical at h ⊢
  omega

theorem pml4Idx_eq_of_page_eq (h : v.toNat / 4096 = w.toNat / 4096) : pml4Idx v = pml4Idx w := by
  by_contra hne
  exact path_ne_of_pml4Idx_ne hne (path_eq_of_page_eq h)

theorem UserAddr.of_page_eq (h : UserAddr v) (hvw : v.toNat / 4096 = w.toNat / 4096) :
    UserAddr w := by
  unfold UserAddr at h ⊢
  rwa [← pml4Idx_eq_of_page_eq hvw]

theorem translatePage_of_page_eq (mem : Mem) (r : Frame) (h : v.toNat / 4096 = w.toNat / 4096) :
    translatePage mem r v = translatePage mem r w := by
  unfold translatePage
  rw [path_eq_of_page_eq h]

end Address

/-! ## The pages of an area -/

section Pages

variable {area : VmAreaStruct} {g : Frame} {s : Kernel} {p v : Word}

/-- The last address is a user address, so the end stays clear of the end of memory. -/
theorem UserArea.vmEnd_le (h : UserArea area) : area.vmEnd.toNat ≤ 2 ^ 64 - 2 ^ 39 := by
  have hordered := h.ordered
  have hlt := area.vmEnd.isLt
  by_contra hgt
  have hstart : area.vmStart.toNat < 2 ^ 64 - 2 ^ 39 := by
    by_contra hge
    exact h.start.2.2 (pml4Idx_of_kernelSlot (by omega))
  have hlast : (area.vmEnd - 1).toNat = area.vmEnd.toNat - 1 := by
    rw [BitVec.toNat_sub, show (1 : Word).toNat = 1 from rfl]
    omega
  refine (h.inside (area.vmEnd - 1) (by omega) (by omega)).2.2 (pml4Idx_of_kernelSlot ?_)
  omega

/-- From the page of the start to the end, rounded up. -/
theorem UserArea.vmSize_toNat (h : UserArea area) : area.vmSize.toNat =
    (area.vmEnd.toNat - area.vmStart.toNat / 4096 * 4096 + 4095) / 4096 * 4096 := by
  have hordered := h.ordered
  have hend := h.vmEnd_le
  have hsub : (area.vmEnd - pageAlign area.vmStart).toNat =
      area.vmEnd.toNat - area.vmStart.toNat / 4096 * 4096 := by
    rw [BitVec.toNat_sub, pageAlign_toNat]
    omega
  unfold VmAreaStruct.vmSize
  rw [roundUp_toNat _ (by omega), hsub]

theorem UserArea.size_eq (h : UserArea area) :
    area.vmSize.toNat = 4096 * (area.vmSize.toNat / 4096) := by
  rw [h.vmSize_toNat]
  omega

theorem UserArea.noOfPages (h : UserArea area) :
    (noOfPages area.vmSize).toNat = area.vmSize.toNat / 4096 := by
  have hsize := h.size_eq
  rw [noOfPages_toNat]
  omega

/-- The page behind the last one begins at the end or less than a page above it. -/
theorem UserArea.pages_end (h : UserArea area) :
    area.vmStart.toNat / 4096 + area.vmSize.toNat / 4096 = (area.vmEnd.toNat + 4095) / 4096 := by
  have hordered := h.ordered
  rw [h.vmSize_toNat]
  omega

theorem UserArea.pageAt_toNat (h : UserArea area) {i : Nat}
    (hi : i < area.vmSize.toNat / 4096) :
    (pageAt (pageAlign area.vmStart) i).toNat = 4096 * (area.vmStart.toNat / 4096 + i) := by
  have hend := h.vmEnd_le
  have hpages := h.pages_end
  rw [SBUnix.pageAt_toNat, pageAlign_toNat]
  · omega
  · rw [pageAlign_toNat]
    omega

theorem UserArea.page (h : UserArea area) (hp : p ∈ area.pages) : Canonical p ∧ UserAddr p := by
  obtain ⟨i, hi, rfl⟩ := mem_pagesFrom.mp hp
  have hpages := h.pages_end
  have hpage := h.pageAt_toNat hi
  exact h.inside _ (by omega) (by omega)

/-- The pages of an area have different paths. -/
theorem UserArea.different (h : UserArea area) : ∀ i < area.vmSize.toNat / 4096,
    ∀ j < area.vmSize.toNat / 4096, path (pageAt (pageAlign area.vmStart) i) =
      path (pageAt (pageAlign area.vmStart) j) → i = j := by
  intro i hi j hj hij
  have hcanonical : ∀ k < area.vmSize.toNat / 4096,
      Canonical (pageAt (pageAlign area.vmStart) k) := fun k hk =>
    (h.page (mem_pagesFrom.mpr ⟨k, hk, rfl⟩)).1
  have hpage := page_eq_of_canonical (hcanonical i hi) (hcanonical j hj) hij
  rw [h.pageAt_toNat hi, h.pageAt_toNat hj] at hpage
  omega

/-- Where none of the pages of the area is mapped, they can be. -/
theorem UserArea.pagesReady (h : UserArea area)
    (habsent : ∀ p ∈ area.pages, translatePage s.mem g p = none) :
    PagesReady g (area.vmSize.toNat / 4096) (pageAlign area.vmStart) s where
  aligned := by
    rw [pageAlign_toNat]
    omega
  bound := by
    have hend := h.vmEnd_le
    have hpages := h.pages_end
    rw [pageAlign_toNat]
    omega
  user p hp := (h.page hp).2
  different := h.different
  absent := habsent

/-! ## The pages that overlap an area -/

/-- In the lower half, where programs are linked, every area that is not empty can be mapped. -/
theorem Mappable.of_low (hpos : area.vmStart.toNat < area.vmEnd.toNat)
    (hlow : area.vmEnd.toNat ≤ 2 ^ 47) : Mappable area := by
  have hslot : ∀ a, area.Contains a → (pml4Idx a).toNat < 256 := by
    rintro a ⟨-, hend⟩
    rw [pml4Idx_toNat]
    omega
  have hne : ∀ (i : Idx), 256 ≤ i.toNat → ∀ a, area.Contains a → pml4Idx a ≠ i := by
    rintro i hi a ha rfl
    exact absurd (hslot a ha) (by omega)
  exact ⟨hpos, fun a ha => Or.inl (by have := ha.2; omega),
    fun a ha => ⟨hne selfSlot (by decide) a ha, hne kernelSlot (by decide) a ha⟩,
    hne stackSlot (by decide)⟩

theorem Mappable.userArea (h : Mappable area) : UserArea area where
  ordered := Nat.le_of_lt h.nonempty
  start := ⟨h.canonical _ ⟨le_rfl, h.nonempty⟩, h.user _ ⟨le_rfl, h.nonempty⟩⟩
  inside a hstart hend := by
    -- what lies in front of the start is in its page
    by_cases hin : area.vmStart.toNat ≤ a.toNat
    · exact ⟨h.canonical a ⟨hin, hend⟩, h.user a ⟨hin, hend⟩⟩
    · have hpage : area.vmStart.toNat / 4096 = a.toNat / 4096 := by omega
      exact ⟨(h.canonical _ ⟨le_rfl, h.nonempty⟩).of_page_eq hpage,
        (h.user _ ⟨le_rfl, h.nonempty⟩).of_page_eq hpage⟩

/-- Each page of the area overlaps it. -/
theorem Mappable.overlaps (h : Mappable area) (hp : p ∈ area.pages) : area.Overlaps p := by
  obtain ⟨i, hi, rfl⟩ := mem_pagesFrom.mp hp
  have hpos := h.nonempty
  have hpages := h.userArea.pages_end
  have hpage := h.userArea.pageAt_toNat hi
  cases i with
  | zero => exact ⟨area.vmStart, ⟨le_rfl, hpos⟩, by omega⟩
  | succ i => exact ⟨_, ⟨by omega, by omega⟩, rfl⟩

/-- The pages that overlap the area are the ones that are mapped for it. -/
theorem Mappable.mem_pages (h : Mappable area) (v : Word) :
    (∃ p ∈ area.pages, p.toNat / 4096 = v.toNat / 4096) ↔ area.Overlaps v := by
  constructor
  · rintro ⟨p, hp, hpv⟩
    obtain ⟨a, ha, hap⟩ := h.overlaps hp
    exact ⟨a, ha, hap.trans hpv⟩
  · rintro ⟨a, ⟨hstart, hend⟩, hav⟩
    have hpages := h.userArea.pages_end
    have hi : a.toNat / 4096 - area.vmStart.toNat / 4096 < area.vmSize.toNat / 4096 := by omega
    refine ⟨_, mem_pagesFrom.mpr ⟨_, hi, rfl⟩, ?_⟩
    rw [h.userArea.pageAt_toNat hi]
    omega

theorem Mappable.page_noStack (h : Mappable area) (hv : area.Overlaps v) :
    pml4Idx v ≠ stackSlot := by
  obtain ⟨a, ha, hav⟩ := hv
  rw [← pml4Idx_eq_of_page_eq hav]
  exact h.noStack a ha

end Pages

end SBUnix
