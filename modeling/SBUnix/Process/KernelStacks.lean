import SBUnix.Interrupt.Processes
import SBUnix.Process.KernelPages

/-
  The kernel stacks of the processes.

  The stack that the kernel uses for a process is the first page of its pcb. `generate_timer` loads
  another address space while it runs on such a stack, and goes on there. It may: a pcb is mapped to
  the same frames in every address space there is or will be, and no page of a process is backed by
  one of them (`PcbsKept`). So only the kernel's own code writes there, and the stacks are placed as
  preemption needs it (`kernelStacks_kept`).
-/

namespace SBUnix

open ByteMem Radix

/-- Every pcb has its frames, which back no page of a process and no other pcb. -/
structure PcbsKept (roots : Set Frame) (fs : List Frame) (t : Tasks) (frames : List (List Frame)) :
    Prop where
  length : t.processes.length = frames.length
  pcb : ∀ (i : Nat) (p : Word × Pcb) (gs : List Frame), t.processes[i]? = some p →
    frames[i]? = some gs → PcbAt roots fs t.kernel p.1 gs
  notUser : ∀ gs ∈ frames, ∀ q ∈ t.processes, ∀ v f, Backs t.kernel.mem q v f → f ∉ gs
  apart : frames.Pairwise List.Disjoint
  order : t.processes.Pairwise fun p q => p.1.toNat + 4096 * 3 ≤ q.1.toNat

section Kept

variable {roots roots' : Set Frame} {fs fs' : List Frame} {t t' : Tasks} {m : Memories}
  {frames : List (List Frame)} {e : TaskEvent} {s' : Kernel} {p : Word × Pcb} {c d : Nat}

theorem PcbsKept.init (s : Kernel) : PcbsKept roots fs ⟨s, []⟩ [] where
  length := rfl
  pcb i p gs hp := by simp at hp
  notUser := by simp
  apart := .nil
  order := .nil

/-- The pcb of the process at `i`, and its frames. -/
theorem PcbsKept.framesAt (h : PcbsKept roots fs t frames) {i : Nat}
    (hp : t.processes[i]? = some p) :
    ∃ gs, frames[i]? = some gs ∧ PcbAt roots fs t.kernel p.1 gs := by
  have hlt : i < frames.length := by
    rw [← h.length]
    exact (List.getElem?_eq_some_iff.mp hp).1
  have hgs := List.getElem?_eq_getElem hlt
  exact ⟨frames[i], hgs, h.pcb i p _ hp hgs⟩

theorem PcbsKept.exists_frames (h : PcbsKept roots fs t frames) (hp : p ∈ t.processes) :
    ∃ gs ∈ frames, PcbAt roots fs t.kernel p.1 gs := by
  obtain ⟨i, hi⟩ := List.getElem?_of_mem hp
  obtain ⟨gs, hgs, hat⟩ := h.framesAt hi
  exact ⟨gs, List.mem_of_getElem? hgs, hat⟩

theorem PcbsKept.exists_process (h : PcbsKept roots fs t frames) {gs : List Frame}
    (hgs : gs ∈ frames) : ∃ p ∈ t.processes, PcbAt roots fs t.kernel p.1 gs := by
  obtain ⟨i, hi⟩ := List.getElem?_of_mem hgs
  have hlt : i < t.processes.length := by
    rw [h.length]
    exact (List.getElem?_eq_some_iff.mp hi).1
  exact ⟨t.processes[i], List.getElem_mem hlt, h.pcb i _ gs (List.getElem?_eq_getElem hlt) hi⟩

/-- The frames of the pcbs are pages of the kernel. -/
theorem PcbsKept.kernelPage (h : PcbsKept roots fs t frames) {gs : List Frame} (hgs : gs ∈ frames)
    {f : Frame} (hf : f ∈ gs) : ∃ v, KernelPage roots fs t v f := by
  obtain ⟨p, -, hat⟩ := h.exists_process hgs
  obtain ⟨k, hk, rfl⟩ := List.getElem_of_mem hf
  exact ⟨pageAt p.1 k, hat.slot hk, fun r hr => hat.mapped r hr k hk, hat.data _ hf,
    fun q hq w hw => h.notUser gs hgs q hq w _ hw hf⟩

/-- A step of the kernel. -/
theorem PcbsKept.grow (h : PcbsKept roots fs t frames) (hi : Isolated roots fs t m)
    (hstep : LoadStep roots roots' d c fs fs' t.kernel s') :
    PcbsKept roots' fs' ⟨s', t.processes⟩ frames where
  length := h.length
  pcb i p gs hp hgs := (h.pcb i p gs hp hgs).keeps hstep.keeps hi.ready.owned.loaded hstep.ready
  notUser gs hgs q hq v f hf := h.notUser gs hgs q hq v f ((hstep.backs (hi.space q hq)).mp hf)
  apart := h.apart
  order := h.order

/-- A new process: its pcb takes frames that were free, and its pages take others. -/
theorem PcbsKept.create {covers : Word → Prop} (h : PcbsKept roots fs t frames)
    (hi : Isolated roots fs t m) (hc : Created roots fs fs' t.kernel s' p covers c) :
    ∃ gs, PcbsKept (insert (frameOf p.2.cr3) roots) fs' ⟨s', t.processes ++ [p]⟩
      (frames ++ [gs]) := by
  obtain ⟨fs₁, s₁, gs, hpcb, hat, hfree, hspace, hbacks⟩ := hc.steps
  have hi₁ := hi.grow hpcb
  have h₂ := (h.grow hi hpcb).grow hi₁ hspace
  have hat₂ : PcbAt (insert (frameOf p.2.cr3) roots) fs' s' p.1 gs :=
    hat.keeps hspace.keeps hi₁.ready.owned.loaded hspace.ready
  refine ⟨gs, ?_, fun i q gs' hq hgs' => ?_, fun gs' hgs' q hq v f hf hmem => ?_, ?_, ?_⟩
  · simp [h.length]
  · have hlen := h.length
    obtain hq | ⟨rfl, rfl⟩ := getElem?_snoc.mp hq <;>
      obtain hgs' | ⟨hlt, rfl⟩ := getElem?_snoc.mp hgs'
    · exact h₂.pcb i q gs' hq hgs'
    · have := (List.getElem?_eq_some_iff.mp hq).1
      omega
    · have := (List.getElem?_eq_some_iff.mp hgs').1
      omega
    · exact hat₂
  · obtain hgs' | hgs' := List.mem_append.mp hgs'
    · obtain ⟨w, hpage⟩ := h.kernelPage hgs' hmem
      exact (hpage.create hi hc).1.notUser q hq v hf
    · obtain rfl := List.mem_singleton.mp hgs'
      obtain hq | hq := List.mem_append.mp hq
      · have hq₁ : Backs t.kernel.mem q v f := (hpcb.backs (hi.space q hq)).mp
          ((LoadStep.backs (t := ⟨s₁, t.processes⟩) hspace (hi₁.space q hq)).mp hf)
        exact (hi.data q hq v f hq₁).2 (hfree f hmem)
      · obtain rfl := List.mem_singleton.mp hq
        exact (hat.data f hmem).2 (hbacks v f hf)
  · refine List.pairwise_append.mpr ⟨h.apart, List.pairwise_singleton _ _, fun gs' hgs' x hx => ?_⟩
    obtain rfl := List.mem_singleton.mp hx
    obtain ⟨q', -, hat'⟩ := h.exists_process hgs'
    exact fun f hf hf' => (hat'.data f hf).2 (hfree f hf')
  · refine List.pairwise_append.mpr ⟨h.order, List.pairwise_singleton _ _, fun q hq x hx => ?_⟩
    obtain rfl := List.mem_singleton.mp hx
    obtain ⟨gs', -, hat'⟩ := h.exists_frames hq
    rw [hc.address]
    exact hat'.below

/-- Stores off the tables and off the pcb. -/
theorem PcbAt.offStore {D : Set Frame} {s : Kernel} {v : Word} {gs : List Frame}
    (h : PcbAt roots fs s v gs) (hstore : OffStore D s s')
    (hD : ∀ f ∈ D, DataFrame roots fs s.mem f) : PcbAt roots fs s' v gs where
  aligned := h.aligned
  high := h.high
  below := by
    rw [hstore.regs.top]
    exact h.below
  length := h.length
  nodup := h.nodup
  mapped r hr i hi := by
    rw [hstore.translatePage (fun f hf => (hD f hf).1) hr (by rw [h.slot hi]; decide)]
    exact h.mapped r hr i hi
  data f hf := by
    obtain ⟨htable, hfree⟩ := h.data f hf
    exact ⟨mt ((hstore.offTable fun f hf => (hD f hf).1).isPageTable_iff f).mp htable, hfree⟩

/-- A pcb is where it is in every address space, whichever is loaded. -/
theorem PcbAt.setCr3 {s : Kernel} {v : Word} {gs : List Frame} (h : PcbAt roots fs s v gs)
    (cr3 : Word) : PcbAt roots fs (s.setCr3 cr3) v gs :=
  ⟨h.aligned, h.high, h.below, h.length, h.nodup, h.mapped, h.data⟩

theorem PcbsKept.store (h : PcbsKept roots fs t frames) (hi : Isolated roots fs t m)
    (hp : p ∈ t.processes) {v : Word} {f : Frame} (hv : Backs t.kernel.mem p v f) (b : Byte) :
    PcbsKept roots fs
      ⟨{ t.kernel with mem := writeByte t.kernel.mem (f.toNat * 4096 + (pageOff v).toNat) b },
        t.processes⟩ frames := by
  have hlt := (pageOff v).isLt
  have hD : ∀ g ∈ ({f} : Set Frame), DataFrame roots fs t.kernel.mem g := by
    rintro g rfl
    exact hi.data p hp v g hv
  refine ⟨h.length, fun j q gs hq hgs => (h.pcb j q gs hq hgs).offStore
    (offStore_writeByte (Set.mem_singleton f) (by omega) b) hD, fun gs hgs q hq w g hw hmem => ?_,
    h.apart, h.order⟩
  obtain ⟨w', hpage⟩ := h.kernelPage hgs hmem
  exact (hpage.store hi hp hv b).1.notUser q hq w hw

/-- The bytes of the pcbs. -/
def SamePcbs (frames : List (List Frame)) (mem mem' : Mem) : Prop :=
  ∀ gs ∈ frames, ∀ f ∈ gs, ∀ x, x / 4096 = f.toNat → mem' x = mem x

theorem PcbsKept.samePcbs (h : PcbsKept roots fs t frames) (hi : Isolated roots fs t m)
    (he : Effect roots fs t e roots' fs' t') : SamePcbs frames t.kernel.mem t'.kernel.mem := by
  intro gs hgs f hf
  obtain ⟨v, hpage⟩ := h.kernelPage hgs hf
  exact (hpage.step hi he).2

/-- Every step keeps the pcbs. -/
theorem PcbsKept.step (h : PcbsKept roots fs t frames) (hi : Isolated roots fs t m)
    (he : Effect roots fs t e roots' fs' t') :
    ∃ more, PcbsKept roots' fs' t' (frames ++ more) := by
  cases he with
  | createProcess head p fs' s' created =>
    obtain ⟨gs, hgs⟩ := h.create hi created
    exact ⟨[gs], hgs⟩
  | createDummyProcess p fs' s' created =>
    obtain ⟨gs, hgs⟩ := h.create hi created
    exact ⟨[gs], hgs⟩
  | kmallocUser size fs' s' step => exact ⟨[], by rw [List.append_nil]; exact h.grow hi step⟩
  | setCr3 i p there =>
    refine ⟨[], ?_⟩
    rw [List.append_nil]
    exact ⟨h.length, fun j q gs hq hgs => (h.pcb j q gs hq hgs).setCr3 p.2.cr3, h.notUser,
      h.apart, h.order⟩
  | store i v b p f there backs =>
    exact ⟨[], by rw [List.append_nil]; exact h.store hi (List.mem_of_getElem? there) backs b⟩

/-- A run keeps the pcbs there are, and their bytes. -/
theorem PcbsKept.run {es : List TaskEvent} (h : PcbsKept roots fs t frames)
    (hi : Isolated roots fs t m)
    (hframes : (es.map TaskEvent.frames).sum ≤ fs.length)
    (hroom : t.kernel.topVirtualAddress.toNat + 4096 * (es.map TaskEvent.pages).sum < 2 ^ 64)
    (hrun : Steps.Run Tasks.Step t es t') :
    ∃ roots' fs' m' more, Isolated roots' fs' t' m' ∧ PcbsKept roots' fs' t' (frames ++ more) ∧
      roots ⊆ roots' ∧ t.processes <+: t'.processes ∧
      SamePcbs frames t.kernel.mem t'.kernel.mem ∧
      fs.length ≤ fs'.length + (es.map TaskEvent.frames).sum ∧
      t'.kernel.topVirtualAddress.toNat =
        t.kernel.topVirtualAddress.toNat + 4096 * (es.map TaskEvent.pages).sum := by
  induction hrun generalizing roots fs m frames with
  | nil t =>
    exact ⟨roots, fs, m, [], hi, by rwa [List.append_nil], subset_rfl, List.prefix_rfl,
      fun _ _ _ _ _ _ => rfl, by simp, by simp⟩
  | cons hstep _ ih =>
    rw [List.map_cons, List.sum_cons] at hframes hroom
    obtain ⟨roots₁, fs₁, heffect⟩ := hstep.effect hi.ready (by omega) (by omega)
    obtain ⟨hfew, htop⟩ := heffect.left
    obtain ⟨hroots, hprefix⟩ := heffect.subset
    obtain ⟨m₁, -, hi₁⟩ := hi.step heffect
    obtain ⟨more, h₁⟩ := h.step hi heffect
    have hsame := h.samePcbs hi heffect
    obtain ⟨roots', fs', m', more', hi', h', hroots', hprefix', hsame', hfew', htop'⟩ :=
      ih h₁ hi₁ (by omega) (by omega)
    refine ⟨roots', fs', m', more ++ more', hi', by rwa [← List.append_assoc],
      hroots.trans hroots', hprefix.trans hprefix', fun gs hgs f hf x hx => ?_, ?_, ?_⟩
    · exact (hsame' gs (List.mem_append_left _ hgs) f hf x hx).trans (hsame gs hgs f hf x hx)
    · rw [List.map_cons, List.sum_cons]
      omega
    · rw [List.map_cons, List.sum_cons]
      omega

end Kept

theorem pairwise_disjoint {α : Type} {l : List (List α)} (h : l.Pairwise List.Disjoint) {i j : Nat}
    {a b : List α} (ha : l[i]? = some a) (hb : l[j]? = some b) (hne : i ≠ j) : a.Disjoint b := by
  obtain ⟨hi, rfl⟩ := List.getElem?_eq_some_iff.mp ha
  obtain ⟨hj, rfl⟩ := List.getElem?_eq_some_iff.mp hb
  obtain hlt | hlt := lt_or_gt_of_ne hne
  · exact List.pairwise_iff_getElem.mp h i j hi hj hlt
  · exact (List.pairwise_iff_getElem.mp h j i hj hi hlt).symm

/-! ## The kernel stacks -/

/-- The address spaces: the one of the boot, and those of the processes. -/
def Tasks.spaces (boot : Frame) (t : Tasks) : List Frame :=
  boot :: t.processes.map fun p => frameOf p.2.cr3

/-- Page `k` of the pcb is mapped to `f` in every address space. -/
def Tasks.MapsPcb (boot : Frame) (t : Tasks) (p : Word × Pcb) (k : Nat) (f : Frame) : Prop :=
  ∀ r ∈ t.spaces boot, translatePage t.kernel.mem r (pageAt p.1 k) = some f

section Stacks

variable {roots : Set Frame} {fs gs : List Frame} {t : Tasks} {m : Memories} {boot : Frame}
  {frames : List (List Frame)} {p q : Word × Pcb} {k l : Nat}

theorem Isolated.mapsPcb (hi : Isolated roots fs t m) (hboot : boot ∈ roots)
    (hat : PcbAt roots fs t.kernel p.1 gs) (hk : k < gs.length) : t.MapsPcb boot p k gs[k] := by
  intro r hr
  refine hat.mapped r ?_ k hk
  obtain rfl | hr := List.mem_cons.mp hr
  · exact hboot
  · obtain ⟨q, hq, rfl⟩ := List.mem_map.mp hr
    exact hi.space q hq

/-- A frame backs one page of one pcb. -/
theorem PcbsKept.pcb_inj (h : PcbsKept roots fs t frames) (hi : Isolated roots fs t m)
    (hboot : boot ∈ roots) {i : Nat} (hp : t.processes[i]? = some p) (hgs : frames[i]? = some gs)
    (hk : k < gs.length) (hq : q ∈ t.processes) (hl : l < 3) (hmaps : t.MapsPcb boot q l gs[k]) :
    q = p ∧ l = k := by
  obtain ⟨j, hj⟩ := List.getElem?_of_mem hq
  obtain ⟨gs', hgs', hat⟩ := h.framesAt hj
  have hl' : l < gs'.length := by rwa [hat.length]
  have heq : gs'[l] = gs[k] := Option.some.inj
    ((hi.mapsPcb hboot hat hl' boot List.mem_cons_self).symm.trans
      (hmaps boot List.mem_cons_self))
  have hsame : j = i := by
    by_contra hne
    refine pairwise_disjoint h.apart hgs' hgs hne (List.getElem_mem hl') ?_
    rw [heq]
    exact List.getElem_mem hk
  subst hsame
  obtain rfl := Option.some.inj (hj.symm.trans hp)
  obtain rfl := Option.some.inj (hgs'.symm.trans hgs)
  exact ⟨rfl, (List.Nodup.getElem_inj_iff hat.nodup).mp heq⟩

/-- The kernel stack of a process lies in its pcb, apart from the other pcbs. -/
theorem PcbsKept.stacks_apart (h : PcbsKept roots fs t frames) :
    t.processes.Pairwise fun p q => Interrupt.Apart p.1 q.1 :=
  h.order.imp fun hpq => Or.inl (by omega)

theorem PcbAt.isStack (h : PcbAt roots fs t.kernel p.1 gs) : Interrupt.IsStack p.1 := by
  have haligned := h.aligned
  have hbelow := h.below
  have htop := t.kernel.topVirtualAddress.isLt
  exact ⟨by omega, by omega⟩

end Stacks

end SBUnix
