import SBUnix.Lib.Steps
import SBUnix.Process.Tasks

/-
  Processes have memories of their own.

  `Memories` is what address spaces are for: every process has a memory, which only its own stores
  change. `Isolated` says how the page tables stand for it: what a process reads in its user half is
  its memory, and its pages lie in data frames that back no other page of any process. A step of the
  kernel that takes free frames keeps that for the processes there are (`Isolated.grow`), and a new
  process is backed by frames that were free (`Isolated.add`). So page tables refine memories over
  every run (`processMemory_isolated`).
-/

namespace SBUnix

open ByteMem Radix

/-! ## Memories -/

/-- The user halves of the processes, in the order of their creation. -/
abbrev Memories := List (Word → Option Byte)

namespace Memories

/-- A new process has what its areas and its stack cover, a dummy process nothing, and a store
    changes a byte that the process has. -/
inductive Step : Memories → TaskEvent → Memories → Prop
  | createProcess (m : Memories) (head : MmStruct) (image : Word → Option Byte)
      (covers : ∀ v, Canonical v → UserAddr v → (image v ≠ none ↔
        (∃ area ∈ head.mmap, area.Overlaps v) ∨ v.toNat / 4096 = stackPage.toNat / 4096)) :
      Step m (.createProcess head) (m ++ [image])
  | createDummyProcess (m : Memories) (image : Word → Option Byte)
      (empty : ∀ v, Canonical v → UserAddr v → image v = none) :
      Step m .createDummyProcess (m ++ [image])
  | kmallocUser (m : Memories) (size : Word) : Step m (.kmallocUser size) m
  | setCr3 (m : Memories) (i : Nat) : Step m (.setCr3 i) m
  | store (m : Memories) (i : Nat) (image : Word → Option Byte) (v : Word) (b : Byte)
      (there : m[i]? = some image) (mapped : image v ≠ none) :
      Step m (.store i v b) (m.modify i fun image => Function.update image v (some b))

end Memories

/-! ## The invariant -/

/-- The user half of `p` is `image`. -/
def ReadsAs (mem : Mem) (p : Word × Pcb) (image : Word → Option Byte) : Prop :=
  ∀ v, Canonical v → UserAddr v → byteAt mem (frameOf p.2.cr3) v = image v

/-- The page tables stand for the memories `m`. -/
structure Isolated (roots : Set Frame) (fs : List Frame) (t : Tasks) (m : Memories) : Prop where
  ready : LoadReady roots fs t.kernel
  space : ∀ p ∈ t.processes, frameOf p.2.cr3 ∈ roots
  length : t.processes.length = m.length
  memory : ∀ (i : Nat) (p : Word × Pcb) (image : Word → Option Byte), t.processes[i]? = some p →
    m[i]? = some image → ReadsAs t.kernel.mem p image
  data : ∀ p ∈ t.processes, ∀ v f, Backs t.kernel.mem p v f → DataFrame roots fs t.kernel.mem f
  apart : ∀ (i j : Nat) (p q : Word × Pcb), t.processes[i]? = some p →
    t.processes[j]? = some q → ∀ v w f, Backs t.kernel.mem p v f → Backs t.kernel.mem q w f →
      i = j ∧ v.toNat / 4096 = w.toNat / 4096

section Isolated

variable {roots roots' : Set Frame} {fs fs' : List Frame} {t : Tasks} {m : Memories} {s' : Kernel}
  {p : Word × Pcb} {image : Word → Option Byte} {c d : Nat}

theorem Isolated.init {s : Kernel} (h : LoadReady roots fs s) : Isolated roots fs ⟨s, []⟩ [] where
  ready := h
  space := by simp
  length := rfl
  memory i p image hp := by simp at hp
  data := by simp
  apart i j p q hp := by simp at hp

theorem LoadStep.backs (h : LoadStep roots roots' d c fs fs' t.kernel s') {v : Word} {f : Frame}
    (hp : frameOf p.2.cr3 ∈ roots) : Backs s'.mem p v f ↔ Backs t.kernel.mem p v f := by
  constructor
  · rintro ⟨hv, huser, hf⟩
    exact ⟨hv, huser, (h.user _ hp v huser).symm.trans hf⟩
  · rintro ⟨hv, huser, hf⟩
    exact ⟨hv, huser, (h.user _ hp v huser).trans hf⟩

/-- A step of the kernel leaves the memories of the processes alone. -/
theorem Isolated.grow (h : Isolated roots fs t m)
    (hstep : LoadStep roots roots' d c fs fs' t.kernel s') :
    Isolated roots' fs' ⟨s', t.processes⟩ m where
  ready := hstep.ready
  space p hp := hstep.keeps.created (h.space p hp)
  length := h.length
  memory i p image hget himage v hv huser := by
    have hp : p ∈ t.processes := List.mem_of_getElem? hget
    rw [← h.memory i p image hget himage v hv huser]
    cases hf : translatePage t.kernel.mem (frameOf p.2.cr3) v with
    | none =>
      have hnone := (hstep.user _ (h.space p hp) v huser).trans hf
      rw [byteAt_eq_none.mpr hf, byteAt_eq_none.mpr hnone]
    | some f =>
      exact hstep.keeps.byteAt (h.space p hp) huser.1 hf (h.data p hp v f ⟨hv, huser, hf⟩)
  data p hp v f hf :=
    hstep.keeps.data f (h.data p hp v f ((hstep.backs (h.space p hp)).mp hf))
  apart i j p q hp hq v w f hpf hqf :=
    h.apart i j p q hp hq v w f
      ((hstep.backs (h.space p (List.mem_of_getElem? hp))).mp hpf)
      ((hstep.backs (h.space q (List.mem_of_getElem? hq))).mp hqf)

theorem getElem?_snoc {α : Type} {l : List α} {a x : α} {i : Nat} :
    (l ++ [a])[i]? = some x ↔ l[i]? = some x ∨ (i = l.length ∧ a = x) := by
  rw [List.getElem?_append]
  split_ifs with hi
  · refine ⟨Or.inl, fun h => h.resolve_right fun hlen => ?_⟩
    omega
  · rw [List.getElem?_eq_none (by omega : l.length ≤ i)]
    obtain rfl | hne := eq_or_ne i l.length
    · simp
    · rw [List.getElem?_eq_none (by simp only [List.length_singleton]; omega)]
      simp [hne]

/-- A new process, whose pages are data and back nobody else's. -/
theorem Isolated.add (h : Isolated roots fs t m) (hroot : frameOf p.2.cr3 ∈ roots)
    (hholds : ReadsAs t.kernel.mem p image)
    (hdata : ∀ v f, Backs t.kernel.mem p v f → DataFrame roots fs t.kernel.mem f)
    (hown : ∀ v w f, Backs t.kernel.mem p v f → Backs t.kernel.mem p w f →
      v.toNat / 4096 = w.toNat / 4096)
    (hnew : ∀ q ∈ t.processes, ∀ v w f, Backs t.kernel.mem p v f → ¬ Backs t.kernel.mem q w f) :
    Isolated roots fs ⟨t.kernel, t.processes ++ [p]⟩ (m ++ [image]) where
  ready := h.ready
  space q hq := by
    obtain hq | hq := List.mem_append.mp hq
    · exact h.space q hq
    · rwa [List.mem_singleton.mp hq]
  length := by simp [h.length]
  memory i q image' hq himage := by
    obtain hq | ⟨rfl, rfl⟩ := getElem?_snoc.mp hq <;>
      obtain himage | ⟨hi, rfl⟩ := getElem?_snoc.mp himage
    · exact h.memory i q image' hq himage
    · have := (List.getElem?_eq_some_iff.mp hq).1
      have := h.length
      omega
    · have := (List.getElem?_eq_some_iff.mp himage).1
      have := h.length
      omega
    · exact hholds
  data q hq := by
    obtain hq | hq := List.mem_append.mp hq
    · exact h.data q hq
    · rwa [List.mem_singleton.mp hq]
  apart i j q q' hq hq' v w f hv hw := by
    obtain hq | ⟨rfl, rfl⟩ := getElem?_snoc.mp hq <;>
      obtain hq' | ⟨rfl, rfl⟩ := getElem?_snoc.mp hq'
    · exact h.apart i j q q' hq hq' v w f hv hw
    · exact absurd hv (hnew q (List.mem_of_getElem? hq) w v f hw)
    · exact absurd hw (hnew q' (List.mem_of_getElem? hq') v w f hv)
    · exact ⟨rfl, hown v w f hv hw⟩

/-- A new process. -/
theorem Isolated.create {covers : Word → Prop} (h : Isolated roots fs t m)
    (hc : Created roots fs fs' t.kernel s' p covers c) :
    Isolated (insert (frameOf p.2.cr3) roots) fs' ⟨s', t.processes ++ [p]⟩
      (m ++ [byteAt s'.mem (frameOf p.2.cr3)]) := by
  obtain ⟨fs₁, s₁, gs, hpcb, -, -, hspace, hfree⟩ := hc.steps
  have h₁ := h.grow hpcb
  refine (h₁.grow hspace).add (Or.inl rfl) (fun v _ _ => rfl) hc.data hc.own
    fun q hq v w f hv hw => ?_
  -- the frames of the others were not free
  have hw₁ : Backs s₁.mem q w f := (LoadStep.backs (t := ⟨s₁, t.processes⟩) hspace
    (h₁.space q hq)).mp hw
  exact (h₁.data q hq w f hw₁).2 (hfree v f hv)

/-! ## The steps -/

theorem getElem?_set_update {i j : Nat} {v : Word} {b : Byte} {image' : Word → Option Byte}
    (h : (m.modify i fun image => Function.update image v (some b))[j]? = some image') :
    ∃ image, m[j]? = some image ∧
      (if j = i then Function.update image v (some b) else image) = image' := by
  rw [List.getElem?_modify] at h
  obtain ⟨image, himage, rfl⟩ := Option.map_eq_some_iff.mp h
  exact ⟨image, himage, by simp [eq_comm]⟩

theorem eq_of_page_eq {v w : Word} (hpage : v.toNat / 4096 = w.toNat / 4096)
    (hoff : (pageOff v).toNat = (pageOff w).toNat) : v = w := by
  rw [pageOff_toNat, pageOff_toNat] at hoff
  apply BitVec.eq_of_toNat_eq
  omega

/-- A store changes its byte in the memory of the process that runs, and no other byte of any. -/
theorem Isolated.store (h : Isolated roots fs t m) {i : Nat} {v : Word} {f : Frame} (b : Byte)
    (hp : t.processes[i]? = some p)
    (hv : Backs t.kernel.mem p v f) :
    Isolated roots fs
      ⟨{ t.kernel with mem := writeByte t.kernel.mem (f.toNat * 4096 + (pageOff v).toNat) b },
        t.processes⟩ (m.modify i fun image => Function.update image v (some b)) := by
  have hmem := List.mem_of_getElem? hp
  have hD : ∀ g ∈ ({f} : Set Frame), DataFrame roots fs t.kernel.mem g := by
    rintro g rfl
    exact h.data p hmem v g hv
  have hlt := (pageOff v).isLt
  have hstore : OffStore {f} t.kernel
      { t.kernel with mem := writeByte t.kernel.mem (f.toNat * 4096 + (pageOff v).toNat) b } :=
    offStore_writeByte (Set.mem_singleton f) (by omega) b
  have hsame : ∀ q ∈ t.processes, ∀ w, UserAddr w →
      translatePage (writeByte t.kernel.mem (f.toNat * 4096 + (pageOff v).toNat) b)
        (frameOf q.2.cr3) w = translatePage t.kernel.mem (frameOf q.2.cr3) w :=
    fun q hq w hw => hstore.translatePage (fun g hg => (hD g hg).1) (h.space q hq) hw.1
  have hbacks : ∀ q ∈ t.processes, ∀ w g,
      Backs (writeByte t.kernel.mem (f.toNat * 4096 + (pageOff v).toNat) b) q w g →
        Backs t.kernel.mem q w g :=
    fun q hq w g hw => ⟨hw.canonical, hw.user, (hsame q hq w hw.user).symm.trans hw.mapped⟩
  refine ⟨h.ready.offStore hstore hD, h.space, by simpa using h.length,
    fun j q image' hq himage' w hw huser => ?_, fun q hq w g hw => ?_,
    fun i j q q' hq hq' w w' g hw hw' => ?_⟩
  · obtain ⟨image₀, himage₀, rfl⟩ := getElem?_set_update himage'
    have hold := h.memory j q image₀ hq himage₀ w hw huser
    have hw' := hsame q (List.mem_of_getElem? hq) w huser
    by_cases hthere : j = i ∧ w = v
    · obtain ⟨rfl, rfl⟩ := hthere
      obtain rfl := Option.some.inj (hp.symm.trans hq)
      rw [if_pos rfl, Function.update_self,
        byteAt_of_translatePage (hw'.trans hv.mapped), writeByte_same]
    · have hnew : (if j = i then Function.update image₀ v (some b) else image₀) w = image₀ w := by
        split_ifs with hji
        · exact Function.update_of_ne (fun hwv => hthere ⟨hji, hwv⟩) _ _
        · rfl
      rw [hnew, ← hold]
      cases hg : translatePage t.kernel.mem (frameOf q.2.cr3) w with
      | none => rw [byteAt_eq_none.mpr hg, byteAt_eq_none.mpr (hw'.trans hg)]
      | some g =>
        rw [byteAt_of_translatePage hg, byteAt_of_translatePage (hw'.trans hg), writeByte_of_ne]
        intro heq
        have hltw := (pageOff w).isLt
        obtain rfl : g = f := BitVec.eq_of_toNat_eq (by omega)
        obtain ⟨hji, hpage⟩ := h.apart j i q p hq hp w v g ⟨hw, huser, hg⟩ hv
        exact hthere ⟨hji, eq_of_page_eq hpage (by omega)⟩
  · obtain ⟨htable, hfree⟩ := h.data q hq w g (hbacks q hq w g hw)
    exact ⟨mt ((hstore.offTable fun g hg => (hD g hg).1).isPageTable_iff g).mp htable, hfree⟩
  · exact h.apart i j q q' hq hq' w w' g (hbacks q (List.mem_of_getElem? hq) w g hw)
      (hbacks q' (List.mem_of_getElem? hq') w' g hw')

/-- Every step of the kernel and its processes is one of the memories. -/
theorem Isolated.step {e : TaskEvent} {t' : Tasks} (h : Isolated roots fs t m)
    (he : Effect roots fs t e roots' fs' t') :
    ∃ m', Memories.Step m e m' ∧ Isolated roots' fs' t' m' := by
  cases he with
  | createProcess head p fs' s' created =>
    refine ⟨_, .createProcess m head _ fun v hv huser => ?_, h.create created⟩
    rw [Ne, byteAt_eq_none]
    exact created.covered v hv huser
  | createDummyProcess p fs' s' created =>
    refine ⟨_, .createDummyProcess m _ fun v hv huser => ?_, h.create created⟩
    exact byteAt_eq_none.mpr (not_not.mp (mt (created.covered v hv huser).mp id))
  | kmallocUser size fs' s' step => exact ⟨m, .kmallocUser m size, h.grow step⟩
  | setCr3 i p there =>
    refine ⟨m, .setCr3 m i, ⟨?_, h.space, h.length, h.memory, h.data, h.apart⟩⟩
    exact h.ready.setCr3 (h.space p (List.mem_of_getElem? there))
  | store i v b p f there backs =>
    have himage : i < m.length := by
      rw [← h.length]
      exact (List.getElem?_eq_some_iff.mp there).1
    refine ⟨_, .store m i _ v b (List.getElem?_eq_getElem himage) ?_, h.store b there backs⟩
    rw [← h.memory i p _ there (List.getElem?_eq_getElem himage) v backs.canonical backs.user, Ne,
      byteAt_eq_none, backs.mapped]
    simp

/-- A store of the process that runs returns exactly when the process has the byte. -/
theorem Isolated.store_iff (h : Isolated roots fs t m) {i : Nat} {v : Word} (b : Byte)
    (hp : t.processes[i]? = some p) (himage : m[i]? = some image) (hruns : t.kernel.cr3 = p.2.cr3)
    (hv : Canonical v) (huser : UserAddr v) :
    (∃ t', Tasks.Step t (.store i v b) t') ↔ image v ≠ none := by
  have hread := h.memory i p image hp himage v hv huser
  have hroot : t.kernel.root = frameOf p.2.cr3 := by rw [Kernel.root, hruns]
  constructor
  · rintro ⟨t', -, hstep⟩
    obtain ⟨s', hstore, -⟩ := bind_eq_ok.mp hstep
    obtain ⟨f, hf, -⟩ := storeByte_ok hstore
    rw [← hread, Ne, byteAt_eq_none, ← hroot, hf]
    simp
  · intro hmapped
    rw [← hread, Ne, byteAt_eq_none, ← hroot] at hmapped
    obtain ⟨f, hf⟩ := Option.ne_none_iff_exists'.mp hmapped
    refine ⟨{ t with kernel := { t.kernel with
      mem := writeByte t.kernel.mem (f.toNat * 4096 + (pageOff v).toNat) b } },
      ⟨hv, huser, p, hp, hruns⟩, ?_⟩
    rw [Tasks.step, Kernel.storeByte, Kernel.phys, translate_eq_some hf]
    rfl

/-! ## Runs -/

theorem Isolated.run {es : List TaskEvent} {t' : Tasks} (h : Isolated roots fs t m)
    (hframes : (es.map TaskEvent.frames).sum ≤ fs.length)
    (hroom : t.kernel.topVirtualAddress.toNat + 4096 * (es.map TaskEvent.pages).sum < 2 ^ 64)
    (hrun : Steps.Run Tasks.Step t es t') :
    ∃ roots' fs' m', Steps.Run Memories.Step m es m' ∧ Isolated roots' fs' t' m' := by
  induction hrun generalizing roots fs m with
  | nil t => exact ⟨roots, fs, m, .nil m, h⟩
  | cons hstep _ ih =>
    rw [List.map_cons, List.sum_cons] at hframes hroom
    obtain ⟨roots₁, fs₁, heffect⟩ := hstep.effect h.ready (by omega) (by omega)
    obtain ⟨hfew, htop⟩ := heffect.left
    obtain ⟨m₁, hm₁, h₁⟩ := h.step heffect
    obtain ⟨roots', fs', m', hm', h'⟩ := ih h₁ (by omega) (by omega)
    exact ⟨roots', fs', m', .cons hm₁ hm', h'⟩

end Isolated

/-- A program without segments: its process has a stack. -/
def stackHead : MmStruct := ⟨elfAreas [], 0, 0⟩

end SBUnix
