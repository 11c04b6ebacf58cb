import SBUnix.Process.Pages

/-
  Bytes through the loaded address space: `byteAt`, and the copy loop of `create_process`.

  `OffStore D` is what stores into frames of `D` do: registers, free list and all other bytes stay.
  Where the frames of `D` are data frames it keeps the page tables owned (`OffStore.owned`), and
  where they were free at first it keeps all other data frames (`Keeps.offStore`).
  `copyLoop_copied` says that the loop copies when the addresses are mapped and the source is not
  overwritten on the way, `copyLoop_returns` and `copyLoop_absent` that it returns when the source
  is mapped and faults when a source byte is not, and `copyLoop_stores` what it changes when it
  returns.
-/

namespace SBUnix

open ByteMem Radix

/-- The byte at `v` in the address space of `r`. -/
def byteAt (mem : Mem) (r : Frame) (v : Word) : Option Byte := (translate mem r v).map mem

theorem Kernel.loadByte_eq (s : Kernel) (v : Word) :
    s.loadByte v = match byteAt s.mem s.root v with
      | none => .error (.pageFault v)
      | some b => .ok b := by
  unfold Kernel.loadByte Kernel.phys byteAt
  cases translate s.mem s.root v <;> rfl

theorem Kernel.loadByte_of_byteAt {s : Kernel} {v : Word} {b : Byte}
    (h : byteAt s.mem s.root v = some b) : s.loadByte v = .ok b := by
  rw [s.loadByte_eq, h]

theorem Kernel.loadByte_of_none {s : Kernel} {v : Word} (h : byteAt s.mem s.root v = none) :
    s.loadByte v = .error (.pageFault v) := by
  rw [s.loadByte_eq, h]

theorem byteAt_of_translatePage {mem : Mem} {r f : Frame} {v : Word}
    (h : translatePage mem r v = some f) :
    byteAt mem r v = some (mem (f.toNat * 4096 + (pageOff v).toNat)) := by
  rw [byteAt, translate_eq_some h, Option.map_some]

theorem byteAt_eq_none {mem : Mem} {r : Frame} {v : Word} :
    byteAt mem r v = none ↔ translatePage mem r v = none := by
  rw [byteAt, translate, Option.map_eq_none_iff, Option.map_eq_none_iff]

/-- A byte of a data frame stays. -/
theorem Keeps.byteAt {roots roots' : Set Frame} {fs fs' : List Frame} {s s' : Kernel} {r f : Frame}
    {v : Word} (h : Keeps roots roots' fs fs' s s') (hr : r ∈ roots) (hv : pml4Idx v ≠ selfSlot)
    (hf : translatePage s.mem r v = some f) (hdata : DataFrame roots fs s.mem f) :
    byteAt s'.mem r v = byteAt s.mem r v := by
  have hlt := (pageOff v).isLt
  rw [byteAt_of_translatePage (h.kept r hr v f hv hf), byteAt_of_translatePage hf,
    h.bytes f hdata _ (by omega)]

/-! ## Stores off the tables -/

/-- `s'` differs from `s` in bytes of the frames `D` only. -/
structure OffStore (D : Set Frame) (s s' : Kernel) : Prop where
  regs : s.SameRegs s'
  free : s'.freeList = s.freeList
  bytes : ∀ x, (∀ f ∈ D, x / 4096 ≠ f.toNat) → s'.mem x = s.mem x

section OffStore

variable {D : Set Frame} {shared : Set Idx} {roots roots₁ : Set Frame} {fs fs₁ : List Frame}
  {s s₁ s₂ : Kernel}

theorem OffStore.refl (D : Set Frame) (s : Kernel) : OffStore D s s :=
  ⟨Kernel.SameRegs.refl s, rfl, fun _ _ => rfl⟩

theorem OffStore.trans (h : OffStore D s s₁) (h' : OffStore D s₁ s₂) : OffStore D s s₂ where
  regs := h.regs.trans h'.regs
  free := h'.free.trans h.free
  bytes x hx := (h'.bytes x hx).trans (h.bytes x hx)

theorem offStore_writeByte {x : Nat} {f : Frame} (hf : f ∈ D) (hx : x / 4096 = f.toNat) (b : Byte) :
    OffStore D s { s with mem := writeByte s.mem x b } where
  regs := ⟨rfl, rfl, rfl, rfl⟩
  free := rfl
  bytes _ hy := writeByte_of_ne s.mem b fun hyx => hy f hf (hyx ▸ hx)

theorem OffStore.entries (h : OffStore D s s₁) {g : Frame} (hg : g ∉ D) (j : Idx) :
    entries s₁.mem g j = entries s.mem g j := by
  refine entries_congr (fun x hx => h.bytes x fun f hf hxf => hg ?_) j
  rwa [BitVec.eq_of_toNat_eq (hx.symm.trans hxf)]

theorem OffStore.offTable (h : OffStore D s s₁) (hD : ∀ f ∈ D, ¬ IsPageTable roots s.mem f) :
    OffTable roots s s₁ := fun g hg j => h.entries (fun hmem => hD g hmem hg) j

theorem OffStore.translatePage (h : OffStore D s s₁) (hD : ∀ f ∈ D, ¬ IsPageTable roots s.mem f)
    {r : Frame} (hr : r ∈ roots) {v : Word} (hv : pml4Idx v ≠ selfSlot) :
    translatePage s₁.mem r v = translatePage s.mem r v :=
  (h.offTable hD).walk_eq hr (path_length v) (path_head_ne hv)

theorem OffStore.dataFrame (h : OffStore D s s₁) (hD : ∀ f ∈ D, DataFrame roots fs s.mem f) :
    ∀ f ∈ D, DataFrame roots fs s₁.mem f := fun f hf =>
  ⟨mt ((h.offTable fun f hf => (hD f hf).1).isPageTable_iff f).mp (hD f hf).1, (hD f hf).2⟩

/-- Stores into frames that are neither tables nor free keep the page tables owned. -/
theorem OffStore.owned (h : OffStore D s s₁) (hs : Owned shared roots fs s)
    (hD : ∀ f ∈ D, DataFrame roots fs s.mem f) : Owned shared roots fs s₁ := by
  have hoff := h.offTable fun f hf => (hD f hf).1
  refine ⟨hs.forest.congr_tables (by decide) hoff, ?_, ?_, h.free ▸ hs.free, hs.nodup, ?_, ?_⟩
  · rw [h.regs.root]
    exact hs.loaded
  · intro x hx j hj
    rw [hoff.isPageTable_iff] at hx
    rw [hoff x hx] at hj ⊢
    exact hs.writable x hx j hj
  · intro x hx j
    rw [h.entries fun hmem => (hD x hmem).2 hx]
    exact hs.zero x hx j
  · intro x hx hxt
    rw [hoff.isPageTable_iff] at hxt
    exact hs.unused x hx hxt

/-- Frames that were free at first may be stored into afterwards. -/
theorem Keeps.offStore (h : Keeps roots roots₁ fs fs₁ s s₁) (hstore : OffStore D s₁ s₂)
    (hD : ∀ f ∈ D, f ∈ fs ∧ ¬ IsPageTable roots₁ s₁.mem f) : Keeps roots roots₁ fs fs₁ s s₂ := by
  have htables : ∀ f ∈ D, ¬ IsPageTable roots₁ s₁.mem f := fun f hf => (hD f hf).2
  refine ⟨h.created, fun r hr v f hv hf => ?_, fun f hf => ?_, fun f hf x hx => ?_,
    fun r hr v hv htop hnone => ?_, by rw [hstore.regs.top]; exact h.top⟩
  · rw [hstore.translatePage htables (h.created hr) hv]
    exact h.kept r hr v f hv hf
  · obtain ⟨htable, hfree⟩ := h.data f hf
    exact ⟨mt ((hstore.offTable htables).isPageTable_iff f).mp htable, hfree⟩
  · rw [hstore.bytes, h.bytes f hf x hx]
    intro y hy hxy
    obtain rfl : f = y := BitVec.eq_of_toNat_eq (hx.symm.trans hxy)
    exact hf.2 (hD f hy).1
  · rw [hstore.translatePage htables (h.created hr) (pml4Idx_of_heap hv)]
    exact h.absent r hr v hv htop hnone

end OffStore

/-! ## The copy loop -/

/-- Address `k` of the range from `a` on. -/
theorem add_one_add_ofNat (a : Word) (k : Nat) :
    a + 1 + BitVec.ofNat 64 k = a + BitVec.ofNat 64 (k + 1) := by
  rw [Nat.add_comm k 1, BitVec.ofNat_add, BitVec.add_assoc]
  rfl

/-- The `n` bytes from `a` on lie at `dst 0`, `dst 1`, …, in frames of `D`. -/
structure CopyTo (D : Set Frame) (s : Kernel) (a : Word) (n : Nat) (dst : Nat → Nat) : Prop where
  slot : ∀ k < n, pml4Idx (a + BitVec.ofNat 64 k) ≠ selfSlot
  phys : ∀ k < n, translate s.mem s.root (a + BitVec.ofNat 64 k) = some (dst k)
  inside : ∀ k < n, ∃ f ∈ D, dst k / 4096 = f.toNat

section Copy

variable {D : Set Frame} {shared : Set Idx} {roots : Set Frame} {fs : List Frame}
  {s s₁ s₂ : Kernel} {a o : Word} {n : Nat} {dst src : Nat → Nat}

theorem CopyTo.tail (h : CopyTo D s a (n + 1) dst)
    (hstore : OffStore D s s₁) (hs : s.root ∈ roots) (hD : ∀ f ∈ D, ¬ IsPageTable roots s.mem f) :
    CopyTo D s₁ (a + 1) n fun k => dst (k + 1) where
  slot k hk := by
    rw [add_one_add_ofNat]
    exact h.slot (k + 1) (by omega)
  phys k hk := by
    have hphys := h.phys (k + 1) (by omega)
    rw [add_one_add_ofNat, hstore.regs.root,
      translate_congr (hstore.translatePage hD hs (h.slot (k + 1) (by omega)))]
    exact hphys
  inside k hk := h.inside (k + 1) (by omega)

/-- The first byte of the copy. -/
theorem CopyTo.head (h : CopyTo D s a (n + 1) dst) (b : Byte) :
    s.storeByte a b = .ok { s with mem := writeByte s.mem (dst 0) b } ∧
      OffStore D s { s with mem := writeByte s.mem (dst 0) b } := by
  have hphys := h.phys 0 (by omega)
  obtain ⟨f, hf, hx⟩ := h.inside 0 (by omega)
  rw [show BitVec.ofNat 64 0 = 0 from rfl, add_zero] at hphys
  refine ⟨?_, offStore_writeByte hf hx b⟩
  unfold Kernel.storeByte Kernel.phys
  rw [hphys]
  rfl

/-- The loop copies: the source lies at `src 0`, `src 1`, …, which are none of the bytes written. -/
theorem copyLoop_copied (h : Owned shared roots fs s) (hto : CopyTo D s a n dst)
    (hD : ∀ f ∈ D, DataFrame roots fs s.mem f)
    (hslot : ∀ k < n, pml4Idx (o + BitVec.ofNat 64 k) ≠ selfSlot)
    (hsrc : ∀ k < n, translate s.mem s.root (o + BitVec.ofNat 64 k) = some (src k))
    (hinj : ∀ j < n, ∀ k < n, dst j = dst k → j = k) (hapart : ∀ j < n, ∀ k < n, dst j ≠ src k) :
    ∃ s', copyLoop n a o s = .ok s' ∧ OffStore D s s' ∧ (∀ k < n, s'.mem (dst k) = s.mem (src k)) ∧
      ∀ x, (∀ k < n, x ≠ dst k) → s'.mem x = s.mem x := by
  induction n generalizing s a o dst src with
  | zero => exact ⟨s, rfl, OffStore.refl D s, by simp, fun _ _ => rfl⟩
  | succ n ih =>
    have hload : s.loadByte o = .ok (s.mem (src 0)) := by
      have hphys := hsrc 0 (by omega)
      rw [show BitVec.ofNat 64 0 = 0 from rfl, add_zero] at hphys
      exact Kernel.loadByte_of_byteAt (by rw [byteAt, hphys, Option.map_some])
    obtain ⟨hstep, hstore⟩ := hto.head (s.mem (src 0))
    generalize hs₁ : ({ s with mem := writeByte s.mem (dst 0) (s.mem (src 0)) } : Kernel) = s₁
      at hstep hstore
    have hmem : s₁.mem = writeByte s.mem (dst 0) (s.mem (src 0)) := by rw [← hs₁]
    have htables : ∀ f ∈ D, ¬ IsPageTable roots s.mem f := fun f hf => (hD f hf).1
    have hsrc₁ : ∀ k < n, translate s₁.mem s₁.root (o + 1 + BitVec.ofNat 64 k) =
        some (src (k + 1)) := by
      intro k hk
      rw [add_one_add_ofNat, hstore.regs.root,
        translate_congr (hstore.translatePage htables h.loaded (hslot (k + 1) (by omega)))]
      exact hsrc (k + 1) (by omega)
    obtain ⟨s', hloop, hstore', hcopied, hrest⟩ := ih (hstore.owned h hD)
      (hto.tail hstore h.loaded htables) (hstore.dataFrame hD)
      (o := o + 1)
      (fun k hk => by
        rw [add_one_add_ofNat]
        exact hslot (k + 1) (by omega))
      hsrc₁
      (fun j hj k hk hjk => by
        have := hinj (j + 1) (by omega) (k + 1) (by omega) hjk
        omega)
      (fun j hj k hk => hapart (j + 1) (by omega) (k + 1) (by omega))
    refine ⟨s', ?_, hstore.trans hstore', fun k hk => ?_, fun x hx => ?_⟩
    · rw [copyLoop, hload, ok_bind, hstep]
      exact hloop
    · cases k with
      | zero =>
        have hfirst : ∀ k < n, dst 0 ≠ dst (k + 1) := fun k hk hdst => by
          have := hinj 0 (by omega) (k + 1) (by omega) hdst
          omega
        rw [hrest _ hfirst, hmem, writeByte_same]
      | succ k =>
        rw [hcopied k (by omega), hmem]
        exact writeByte_of_ne _ _ (hapart 0 (by omega) (k + 1) hk).symm
    · rw [hrest x fun k hk => hx (k + 1) (by omega), hmem]
      exact writeByte_of_ne _ _ (hx 0 (by omega))

/-- Whatever the source is, the loop stores into frames of `D` only. -/
theorem copyLoop_stores (h : Owned shared roots fs s) (hto : CopyTo D s a n dst)
    (hD : ∀ f ∈ D, DataFrame roots fs s.mem f) (hrun : copyLoop n a o s = .ok s₁) :
    OffStore D s s₁ := by
  induction n generalizing s a o dst with
  | zero =>
    obtain rfl := Except.ok.inj hrun
    exact OffStore.refl D s
  | succ n ih =>
    obtain ⟨b, -, hrun⟩ := bind_eq_ok.mp hrun
    obtain ⟨hstep, hstore⟩ := hto.head b
    rw [hstep, ok_bind] at hrun
    exact hstore.trans (ih (hstore.owned h hD)
      (hto.tail hstore h.loaded fun f hf => (hD f hf).1) (hstore.dataFrame hD) hrun)

/-- The loop returns when the source is mapped. -/
theorem copyLoop_returns (h : Owned shared roots fs s) (hto : CopyTo D s a n dst)
    (hD : ∀ f ∈ D, DataFrame roots fs s.mem f)
    (hslot : ∀ k < n, pml4Idx (o + BitVec.ofNat 64 k) ≠ selfSlot)
    (hsrc : ∀ k < n, translatePage s.mem s.root (o + BitVec.ofNat 64 k) ≠ none) :
    ∃ s', copyLoop n a o s = .ok s' := by
  induction n generalizing s a o dst with
  | zero => exact ⟨s, rfl⟩
  | succ n ih =>
    obtain ⟨f, hf⟩ := Option.ne_none_iff_exists'.mp (hsrc 0 (by omega))
    rw [show BitVec.ofNat 64 0 = 0 from rfl, add_zero] at hf
    obtain ⟨hstep, hstore⟩ := hto.head (s.mem (f.toNat * 4096 + (pageOff o).toNat))
    have htables : ∀ f ∈ D, ¬ IsPageTable roots s.mem f := fun f hf => (hD f hf).1
    rw [copyLoop, Kernel.loadByte_of_byteAt (byteAt_of_translatePage hf), ok_bind, hstep, ok_bind]
    refine ih (hstore.owned h hD) (hto.tail hstore h.loaded htables) (hstore.dataFrame hD)
      (fun k hk => ?_) (fun k hk => ?_)
    · rw [add_one_add_ofNat]
      exact hslot (k + 1) (by omega)
    · rw [add_one_add_ofNat, hstore.regs.root,
        hstore.translatePage htables h.loaded (hslot (k + 1) (by omega))]
      exact hsrc (k + 1) (by omega)

/-- The loop faults at a source byte that is not mapped. -/
theorem copyLoop_absent (h : Owned shared roots fs s) (hto : CopyTo D s a n dst)
    (hD : ∀ f ∈ D, DataFrame roots fs s.mem f)
    (hslot : ∀ k < n, pml4Idx (o + BitVec.ofNat 64 k) ≠ selfSlot)
    (hsrc : ∃ k < n, byteAt s.mem s.root (o + BitVec.ofNat 64 k) = none) :
    ∃ e, copyLoop n a o s = .error e := by
  induction n generalizing s a o dst with
  | zero =>
    obtain ⟨k, hk, -⟩ := hsrc
    omega
  | succ n ih =>
    rw [copyLoop]
    cases hload : s.loadByte o with
    | error e => exact ⟨e, rfl⟩
    | ok b =>
      obtain ⟨k, hk, hnone⟩ := hsrc
      cases k with
      | zero =>
        rw [show BitVec.ofNat 64 0 = 0 from rfl, add_zero] at hnone
        rw [Kernel.loadByte_of_none hnone] at hload
        cases hload
      | succ k =>
        obtain ⟨hstep, hstore⟩ := hto.head b
        have htables : ∀ f ∈ D, ¬ IsPageTable roots s.mem f := fun f hf => (hD f hf).1
        rw [ok_bind, hstep, ok_bind]
        refine ih (hstore.owned h hD) (hto.tail hstore h.loaded htables) (hstore.dataFrame hD)
          (fun k hk => by
            rw [add_one_add_ofNat]
            exact hslot (k + 1) (by omega))
          ⟨k, by omega, ?_⟩
        rw [byteAt_eq_none] at hnone ⊢
        rw [add_one_add_ofNat, hstore.regs.root,
          hstore.translatePage htables h.loaded (hslot (k + 1) hk)]
        exact hnone

end Copy

end SBUnix
