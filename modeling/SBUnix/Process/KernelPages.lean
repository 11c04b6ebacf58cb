import SBUnix.Process.Isolation

/-
  The pages of the kernel.

  The kernel's half of the address spaces is shared, so a page that is there stays there in every
  address space, whatever is created. Its frame is neither free nor a page table nor a page of a
  process, so a step changes no byte of it (`KernelPage.step`), and over a run all pages of the
  kernel stay (`KernelPages.run`).
-/

namespace SBUnix

open ByteMem Radix

/-- The page `v` of the kernel's half is `f` in every address space, and `f` is no page of a
    process. -/
structure KernelPage (roots : Set Frame) (fs : List Frame) (t : Tasks) (v : Word) (f : Frame) :
    Prop where
  slot : pml4Idx v = kernelSlot
  mapped : ∀ r ∈ roots, translatePage t.kernel.mem r v = some f
  data : DataFrame roots fs t.kernel.mem f
  notUser : ∀ p ∈ t.processes, ∀ w, ¬ Backs t.kernel.mem p w f

/-- The bytes of a frame. -/
def SameFrame (f : Frame) (m m' : Mem) : Prop := ∀ x, x / 4096 = f.toNat → m' x = m x

section KernelPage

variable {roots roots' : Set Frame} {fs fs' : List Frame} {t t' : Tasks} {m : Memories}
  {e : TaskEvent} {s' : Kernel} {p : Word × Pcb} {c d : Nat} {v : Word} {f : Frame}

theorem SameFrame.trans {m₁ m₂ m₃ : Mem} (h : SameFrame f m₁ m₂) (h' : SameFrame f m₂ m₃) :
    SameFrame f m₁ m₃ :=
  fun x hx => (h' x hx).trans (h x hx)

theorem KernelPage.grow (h : KernelPage roots fs t v f) (hi : Isolated roots fs t m)
    (hstep : LoadStep roots roots' d c fs fs' t.kernel s') :
    KernelPage roots' fs' ⟨s', t.processes⟩ v f ∧ SameFrame f t.kernel.mem s'.mem := by
  have hroot := hi.ready.owned.loaded
  refine ⟨⟨h.slot, fun r hr => ?_, hstep.keeps.data f h.data, fun q hq w hw =>
    h.notUser q hq w ((hstep.backs (hi.space q hq)).mp hw)⟩, hstep.keeps.bytes f h.data⟩
  show translatePage s'.mem r v = some f
  rw [hstep.ready.owned.translatePage_kernel (hstep.keeps.created hroot) hr h.slot]
  exact hstep.keeps.kept _ hroot v f (by rw [h.slot]; decide) (h.mapped _ hroot)

/-- The pages of a new process were free. -/
theorem KernelPage.create {covers : Word → Prop} (h : KernelPage roots fs t v f)
    (hi : Isolated roots fs t m) (hc : Created roots fs fs' t.kernel s' p covers c) :
    KernelPage (insert (frameOf p.2.cr3) roots) fs' ⟨s', t.processes ++ [p]⟩ v f ∧
      SameFrame f t.kernel.mem s'.mem := by
  obtain ⟨fs₁, s₁, gs, hpcb, -, -, hspace, hbacks⟩ := hc.steps
  obtain ⟨h₁, hsame₁⟩ := h.grow hi hpcb
  obtain ⟨h₂, hsame₂⟩ := h₁.grow (hi.grow hpcb) hspace
  refine ⟨⟨h.slot, h₂.mapped, h₂.data, fun q hq w hw => ?_⟩, hsame₁.trans hsame₂⟩
  obtain hq | hq := List.mem_append.mp hq
  · exact h₂.notUser q hq w hw
  · obtain rfl := List.mem_singleton.mp hq
    exact h₁.data.2 (hbacks w f hw)

/-- A store of a process goes to a page of the process. -/
theorem KernelPage.store (h : KernelPage roots fs t v f) (hi : Isolated roots fs t m)
    (hp : p ∈ t.processes) {w : Word} {g : Frame} (hw : Backs t.kernel.mem p w g) (b : Byte) :
    KernelPage roots fs
        ⟨{ t.kernel with mem := writeByte t.kernel.mem (g.toNat * 4096 + (pageOff w).toNat) b },
          t.processes⟩ v f ∧
      SameFrame f t.kernel.mem
        (writeByte t.kernel.mem (g.toNat * 4096 + (pageOff w).toNat) b) := by
  have hdata := hi.data p hp w g hw
  have hlt := (pageOff w).isLt
  have hD : ∀ g' ∈ ({g} : Set Frame), DataFrame roots fs t.kernel.mem g' := by
    rintro g' rfl
    exact hdata
  have hstore : OffStore {g} t.kernel
      { t.kernel with mem := writeByte t.kernel.mem (g.toNat * 4096 + (pageOff w).toNat) b } :=
    offStore_writeByte (Set.mem_singleton g) (by omega) b
  have htables := fun g' hg' => (hD g' hg').1
  refine ⟨⟨h.slot, fun r hr => ?_, ?_, fun q hq w' hw' => h.notUser q hq w' ⟨hw'.canonical,
    hw'.user, ?_⟩⟩, fun x hx => writeByte_of_ne _ _ fun hxg => ?_⟩
  · rw [hstore.translatePage htables hr (by rw [h.slot]; decide)]
    exact h.mapped r hr
  · exact ⟨mt ((hstore.offTable htables).isPageTable_iff f).mp h.data.1, h.data.2⟩
  · rw [← hstore.translatePage htables (hi.space q hq) hw'.user.1]
    exact hw'.mapped
  · obtain rfl : f = g := BitVec.eq_of_toNat_eq (by omega)
    exact h.notUser p hp w hw

theorem KernelPage.step (h : KernelPage roots fs t v f) (hi : Isolated roots fs t m)
    (he : Effect roots fs t e roots' fs' t') :
    KernelPage roots' fs' t' v f ∧ SameFrame f t.kernel.mem t'.kernel.mem := by
  cases he with
  | createProcess head p fs' s' created => exact h.create hi created
  | createDummyProcess p fs' s' created => exact h.create hi created
  | kmallocUser size fs' s' step => exact h.grow hi step
  | setCr3 i p there => exact ⟨⟨h.slot, h.mapped, h.data, h.notUser⟩, fun _ _ => rfl⟩
  | store i w b p g there backs => exact h.store hi (List.mem_of_getElem? there) backs b

theorem Effect.subset (he : Effect roots fs t e roots' fs' t') :
    roots ⊆ roots' ∧ t.processes <+: t'.processes := by
  cases he with
  | createProcess head p => exact ⟨Set.subset_insert _ _, List.prefix_append _ _⟩
  | createDummyProcess p => exact ⟨Set.subset_insert _ _, List.prefix_append _ _⟩
  | kmallocUser => exact ⟨subset_rfl, List.prefix_rfl⟩
  | setCr3 => exact ⟨subset_rfl, List.prefix_rfl⟩
  | store => exact ⟨subset_rfl, List.prefix_rfl⟩

theorem KernelPages.run {es : List TaskEvent} {pages : Set (Word × Frame)}
    (h : ∀ q ∈ pages, KernelPage roots fs t q.1 q.2)
    (hi : Isolated roots fs t m) (hframes : (es.map TaskEvent.frames).sum ≤ fs.length)
    (hroom : t.kernel.topVirtualAddress.toNat + 4096 * (es.map TaskEvent.pages).sum < 2 ^ 64)
    (hrun : Steps.Run Tasks.Step t es t') :
    ∃ roots' fs' m', roots ⊆ roots' ∧ Isolated roots' fs' t' m' ∧
      ∀ q ∈ pages, KernelPage roots' fs' t' q.1 q.2 := by
  induction hrun generalizing roots fs m with
  | nil t => exact ⟨roots, fs, m, subset_rfl, hi, h⟩
  | cons hstep _ ih =>
    rw [List.map_cons, List.sum_cons] at hframes hroom
    obtain ⟨roots₁, fs₁, heffect⟩ := hstep.effect hi.ready (by omega) (by omega)
    obtain ⟨hfew, htop⟩ := heffect.left
    obtain ⟨m₁, -, hi₁⟩ := hi.step heffect
    obtain ⟨roots', fs', m', hsub, hi', h'⟩ :=
      ih (fun q hq => ((h q hq).step hi heffect).1) hi₁ (by omega) (by omega)
    exact ⟨roots', fs', m', heffect.subset.1.trans hsub, hi', h'⟩

end KernelPage

end SBUnix
