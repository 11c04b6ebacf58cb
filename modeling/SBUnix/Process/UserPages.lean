import SBUnix.Process.Areas

/-
  Are user pages usable by user code?

  `page_walk_user` sets the US bit in the entries it stores, and leaves the entries it finds alone.
  So after a call that returns 1 the CPU lets user mode use the page exactly when the entries that
  were on its path before had the bit (`Owned.walkUser_accessible`). The tables of slot 511 come
  from the kernel, and `kmalloc_user` maps its pages there.
-/

namespace SBUnix

open ByteMem Radix Steps

/-- The entries that are on the path of `v` already have the US bit. -/
def OpenPath (s : Kernel) (v : Word) : Prop :=
  ∀ d < 4, ∀ f, s.tableAt ((path v).take d) = some f → target (entries s.mem f (idxAt v d)) ≠ none →
    userBit (entries s.mem f (idxAt v d)) = true

/-! ## The calls -/

/-- The calls that map pages. -/
inductive MapOp where
  | pageWalk (pAddr vAddr : Word)
  | pageWalkUser (pAddr vAddr : Word)
  | kmalloc (size : Word)
  | kmallocUser (size : Word)
  | kmallocTopVirtualAddressUser (size userTop : Word)

def MapOp.run : MapOp → Kernel → Except Fault (Word × Kernel)
  | pageWalk p v => SBUnix.pageWalk p v
  | pageWalkUser p v => SBUnix.pageWalkUser p v
  | kmalloc size => SBUnix.kmalloc size
  | kmallocUser size => SBUnix.kmallocUser size
  | kmallocTopVirtualAddressUser size userTop => SBUnix.kmallocTopVirtualAddressUser size userTop

/-- The pages lie outside slot 510, where the tables themselves are mapped. -/
def MapOp.Allowed : MapOp → Kernel → Prop
  | pageWalk _ v, _ => pml4Idx v ≠ selfSlot
  | pageWalkUser _ v, _ => pml4Idx v ≠ selfSlot
  | kmalloc size, s => ∀ i < (noOfPages size).toNat,
      pml4Idx (pageAt s.topVirtualAddress i) ≠ selfSlot
  | kmallocUser size, s => ∀ i < (1 + noOfPages size).toNat,
      pml4Idx (pageAt s.topVirtualAddress i) ≠ selfSlot
  | kmallocTopVirtualAddressUser size userTop, _ => ∀ i < (noOfPages size).toNat,
      pml4Idx (pageAt userTop i) ≠ selfSlot

/-- One call that returns. -/
def MapStep (s : Kernel) (op : MapOp) (s' : Kernel) : Prop :=
  op.Allowed s ∧ ∃ r, op.run s = .ok (r, s')

/-- The loop of `kmalloc_user`, with `n` pages from `v` on to go, calls `page_walk_user` for `w` in
    state `t`, and the call returns 1 and leaves `t'`. -/
inductive LoopCall (advance : Kernel → Kernel) :
    Nat → Word → Kernel → Word → Kernel → Kernel → Prop
  | here {n : Nat} {p v : Word} {s t t' : Kernel} : s.takeFrame = .ok (p, t) → p ≠ 0 →
      pageWalkUser p v t = .ok (1, t') → LoopCall advance (n + 1) v s v t t'
  | later {n : Nat} {p r v w : Word} {s s₁ s₂ t t' : Kernel} : s.takeFrame = .ok (p, s₁) → p ≠ 0 →
      pageWalkUser p v s₁ = .ok (r, s₂) → r ≠ 0 →
      LoopCall advance n (pageSize + v) (advance s₂) w t t' → LoopCall advance (n + 1) v s w t t'

/-- During `op` from state `s` a call of `page_walk_user` for `v`, in state `t`, returns 1 and
    leaves `t'`. -/
inductive UserCall : MapOp → Kernel → Word → Kernel → Kernel → Prop
  | direct {p v : Word} {t t' : Kernel} : pageWalkUser p v t = .ok (1, t') →
      UserCall (.pageWalkUser p v) t v t t'
  | kmallocUser {size v : Word} {s t t' : Kernel} :
      LoopCall Kernel.advanceTop (1 + noOfPages size).toNat s.topVirtualAddress s v t t' →
      UserCall (.kmallocUser size) s v t t'
  | kmallocTopVirtualAddressUser {size userTop v : Word} {s t t' : Kernel} :
      LoopCall id (noOfPages size).toNat userTop s v t t' →
      UserCall (.kmallocTopVirtualAddressUser size userTop) s v t t'

/-! ## One walk -/

theorem userWalk_cons (mem : Mem) (f : Frame) (i : Idx) (p : List Idx) :
    userWalk mem f (i :: p) = true ↔ ∃ g, target (entries mem f i) = some g ∧
      userBit (entries mem f i) = true ∧ userWalk mem g p = true := by
  rw [userWalk]
  cases target (entries mem f i) with
  | none => simp
  | some g => simp

/-- Every entry on the way is present and has the US bit. -/
theorem userWalk_iff (mem : Mem) (f : Frame) (p : List Idx) :
    userWalk mem f p = true ↔ ∀ d i, p[d]? = some i →
      ∃ g, walk target (entries mem) f (p.take d) = some g ∧ target (entries mem g i) ≠ none ∧
        userBit (entries mem g i) = true := by
  induction p generalizing f with
  | nil => simp [userWalk]
  | cons j p ih =>
    rw [userWalk_cons]
    constructor
    · rintro ⟨g, hg, hbit, hrest⟩ d i hi
      cases d with
      | zero =>
        obtain rfl : j = i := by simpa using hi
        exact ⟨f, rfl, by simp [hg], hbit⟩
      | succ d =>
        obtain ⟨g', hw, hentry⟩ := (ih g).mp hrest d i (by simpa using hi)
        refine ⟨g', ?_, hentry⟩
        rw [List.take_succ_cons, walk_cons, hg, Option.bind_some, hw]
    · intro h
      obtain ⟨f', hf', hne, hbit⟩ := h 0 j rfl
      obtain rfl : f = f' := Option.some.inj hf'
      obtain ⟨g, hg⟩ := Option.ne_none_iff_exists'.mp hne
      refine ⟨g, hg, hbit, (ih g).mpr fun d i hi => ?_⟩
      obtain ⟨g', hw, hentry⟩ := h (d + 1) i (by simpa using hi)
      rw [List.take_succ_cons, walk_cons, hg, Option.bind_some] at hw
      exact ⟨g', hw, hentry⟩

theorem getElem?_path (v : Word) {d : Nat} (hd : d < 4) : (path v)[d]? = some (idxAt v d) := by
  interval_cases d <;> rfl

/-- User mode can use `v` when all four entries on its path are present and have the US bit. -/
theorem userAccessible_iff (s : Kernel) (v : Word) :
    userAccessible s.mem s.root v = true ↔ ∀ d < 4, ∃ f, s.tableAt ((path v).take d) = some f ∧
      target (entries s.mem f (idxAt v d)) ≠ none ∧
      userBit (entries s.mem f (idxAt v d)) = true := by
  unfold userAccessible
  rw [userWalk_iff]
  constructor
  · exact fun h d hd => h d _ (getElem?_path v hd)
  · intro h d i hi
    have hd : d < 4 := by
      rw [← path_length v]
      exact (List.getElem?_eq_some_iff.mp hi).1
    rw [getElem?_path v hd] at hi
    obtain rfl := Option.some.inj hi
    exact h d hd

section Walk

variable {shared : Set Idx} {roots : Set Frame} {fs : List Frame} {s s' : Kernel}
  {p v flags : Word} {f : Frame}

/-- The entries that a walk stores: a fresh table or the page itself, with the flags. -/
def Flagged (flags p : Word) (s : Kernel) (v : Word) (d : Nat) : Prop :=
  ∃ f x, s.tableAt ((path v).take d) = some f ∧ entries s.mem f (idxAt v d) = x ||| flags ∧
    (x = p ∨ ∃ g : Frame, x = g.addr)

theorem Flagged.target_ne_none {d : Nat} (hf : EntryFlags flags) (h : Flagged flags p s v d) :
    ∃ f, s.tableAt ((path v).take d) = some f ∧ target (entries s.mem f (idxAt v d)) ≠ none := by
  obtain ⟨f, x, hw, hentry, -⟩ := h
  refine ⟨f, hw, ?_⟩
  rw [hentry, target_or_flags _ hf]
  simp

/-- Entries that are there stay. -/
theorem Flagged.grown {used : List Frame} {d : Nat} (hf : EntryFlags flags)
    (h : Flagged flags p s v d) (hroot : s.root ∈ roots) (hgrown : Grown roots used s s') :
    Flagged flags p s' v d := by
  obtain ⟨f, x, hw, hentry, hx⟩ := h
  refine ⟨f, x, ?_, ?_, hx⟩
  · unfold Kernel.tableAt
    rw [hgrown.regs.root]
    exact hgrown.kept s.root hroot _ f hw
  · rw [hgrown.entry f _ (by rw [hentry, target_or_flags _ hf]; simp), hentry]

/-- A store through the window of a table writes the entry. -/
theorem Owned.store_entry {a e : Word} {q : List Idx} {i : Idx} (h : Owned shared roots fs s)
    (ha : RecWindow a q i) (hw : s.tableAt q = some f) (hstore : s.store a e = .ok s') :
    entries s'.mem f i = e := by
  rw [Kernel.store_window ha h.self_ref hw] at hstore
  cases hstore
  show entries (s.setSlot f i e).mem f i = e
  rw [entries_setSlot, setEntry, if_pos ⟨rfl, rfl⟩]

/-- With a frame for each of the `n` missing tables, the last `n + 1` entries get the flags. -/
theorem Owned.fillFrom_flagged {n : Nat} (h : Owned shared roots fs s)
    (hf : EntryFlags flags) (hv : pml4Idx v ≠ selfSlot) (hn : n ≤ 3) (hlen : n ≤ fs.length)
    (hshared : n = 3 → pml4Idx v ∉ shared)
    (hw : s.tableAt ((path v).take (3 - n)) = some f)
    (habs : target (entries s.mem f (idxAt v (3 - n))) = none)
    (hrun : SBUnix.fillFrom flags p v n s = .ok (1, s')) :
    ∀ d, 3 - n ≤ d → d < 4 → Flagged flags p s' v d := by
  induction n generalizing s f fs with
  | zero =>
    obtain ⟨s₂, hstore, -, hgrown, -⟩ :=
      h.mapLeaf (recWindow_windowAddr v (by omega)) (tablePath_take v hv (by omega))
        (length_take_path v (by omega)) hw habs (isValidPage_or_flags p hf)
    rw [SBUnix.fillFrom, hstore, ok_bind] at hrun
    cases hrun
    intro d hd hd'
    obtain rfl : d = 3 := by omega
    refine ⟨f, p, ?_, h.store_entry (recWindow_windowAddr v (by omega)) hw hstore, Or.inl rfl⟩
    unfold Kernel.tableAt
    rw [hgrown.regs.root]
    exact hgrown.kept s.root h.loaded _ f hw
  | succ n ih =>
    obtain ⟨g, fs, rfl⟩ := List.exists_cons_of_length_pos (by omega : 0 < fs.length)
    have hd : 3 - (n + 1) = 2 - n := by omega
    rw [hd] at hw habs ⊢
    have hwindow := recWindow_windowAddr v (d := 2 - n) (by omega)
    have hroot : (path v).take (2 - n) = [] →
        idxAt v (2 - n) ≠ selfSlot ∧ idxAt v (2 - n) ∉ shared := by
      intro hnil
      have hzero := length_take_path v (d := 2 - n) (by omega)
      rw [hnil, List.length_nil] at hzero
      rw [← hzero]
      exact ⟨hv, hshared (by omega)⟩
    obtain ⟨s₁, s₂, htake, hstore, howned, hgrown, -, hw₂, hblank⟩ :=
      h.link hf hwindow (tablePath_take v hv (by omega))
        (by rw [length_take_path v (by omega)]; omega) hroot hw habs
    have hentry : entries s₂.mem f (idxAt v (2 - n)) = g.addr ||| flags := by
      obtain ⟨s₁', htake', hmem, hregs, h₁⟩ := h.takeFrame
      rw [htake] at htake'
      cases htake'
      refine h₁.store_entry hwindow ?_ hstore
      unfold Kernel.tableAt
      rw [hmem, hregs.root]
      exact hw
    rw [SBUnix.fillFrom, htake, ok_bind] at hrun
    dsimp only at hrun
    rw [hstore, ok_bind] at hrun
    have hd' : 2 - n + 1 = 3 - n := by omega
    rw [← take_succ_path v (by omega), hd'] at hw₂
    have hfirst : Flagged flags p s₂ v (2 - n) := by
      refine ⟨f, g.addr, ?_, hentry, Or.inr ⟨g, rfl⟩⟩
      unfold Kernel.tableAt
      rw [hgrown.regs.root]
      exact hgrown.kept s.root h.loaded _ f hw
    intro d hle hlt
    obtain rfl | hgt := Nat.eq_or_lt_of_le hle
    · obtain ⟨s₃, hrun', hmapped⟩ := howned.fillFrom hf hv p (by omega) (by simpa using hlen)
        (fun h3 => by omega) hw₂ (hblank _)
      rw [hrun] at hrun'
      cases hrun'
      exact hfirst.grown hf howned.loaded hmapped.grown
    · exact ih howned (by omega) (by simpa using hlen) (fun h3 => by omega) hw₂ (hblank _) hrun d
        (by omega) hlt

/-- A walk that returns 1 stores the entries that were missing, and keeps the others. -/
theorem Owned.walkAndMap_flagged (h : Owned shared roots fs s) (hf : EntryFlags flags)
    (hsp : SharedPresent shared s) (hv : pml4Idx v ≠ selfSlot)
    (hrun : walkAndMap flags p v s = .ok (1, s')) :
    (∃ used, Grown roots used s s') ∧
      ∀ d < 4, Flagged flags p s' v d ∨ ∃ f, s.tableAt ((path v).take d) = some f ∧
        target (entries s.mem f (idxAt v d)) ≠ none := by
  obtain ⟨x, -, -, hzero⟩ | ⟨-, hfill, f, hw, habs⟩ := h.walkAndMap_cases hv flags p
  · rw [hrun] at hzero
    cases hzero
  · rw [hfill] at hrun
    have hn := missingTables_le s v
    have hshared := notMem_shared_of_missing (v := v) hsp
    have hlen : missingTables s v ≤ fs.length := by
      by_contra hlt
      rw [h.fillFrom_exhausted hf hv p hn (by omega) hshared hw habs] at hrun
      cases hrun
    obtain ⟨s₂, hrun', hmapped⟩ := h.fillFrom hf hv p hn hlen hshared hw habs
    rw [hrun] at hrun'
    cases hrun'
    refine ⟨⟨_, hmapped.grown⟩, fun d hd => ?_⟩
    by_cases hle : 3 - missingTables s v ≤ d
    · exact Or.inl (h.fillFrom_flagged hf hv hn hlen hshared hw habs hrun d hle hd)
    · -- the table below is there, so the entry is
      right
      have hsplit := (List.take_append_drop (d + 1) ((path v).take (3 - missingTables s v))).symm
      rw [List.take_take, Nat.min_eq_left (by omega)] at hsplit
      unfold Kernel.tableAt at hw
      rw [hsplit, walk_append, take_succ_path v hd, walk_append] at hw
      obtain ⟨g', hg', -⟩ := Option.bind_eq_some_iff.mp hw
      obtain ⟨f', hf', hentry⟩ := Option.bind_eq_some_iff.mp hg'
      refine ⟨f', hf', fun hnone => ?_⟩
      rw [walk_cons, hnone] at hentry
      cases hentry

theorem userBit_or_pageUser (x : Word) : userBit (x ||| pageUser) = true := by
  unfold userBit
  rw [BitVec.getLsbD_or]
  simp [pageUser]

/-- After `page_walk_user` has returned 1, user mode can use the page exactly when the entries that
    were on its path before had the US bit. -/
theorem Owned.walkUser_accessible (h : Owned shared roots fs s)
    (hsp : SharedPresent shared s) (hv : pml4Idx v ≠ selfSlot)
    (hrun : pageWalkUser p v s = .ok (1, s')) :
    userAccessible s'.mem s'.root v = true ↔ OpenPath s v := by
  obtain ⟨⟨used, hgrown⟩, hentries⟩ := h.walkAndMap_flagged entryFlags_pageUser hsp hv hrun
  have hkept : ∀ {d : Nat} {f : Frame}, s.tableAt ((path v).take d) = some f →
      s'.tableAt ((path v).take d) = some f := by
    intro d f hw
    unfold Kernel.tableAt
    rw [hgrown.regs.root]
    exact hgrown.kept s.root h.loaded _ f hw
  rw [userAccessible_iff]
  constructor
  · intro hall d hd f hw hne
    obtain ⟨f', hw', -, hbit⟩ := hall d hd
    obtain rfl : f = f' := Option.some.inj ((hkept hw).symm.trans hw')
    rwa [hgrown.entry f _ hne] at hbit
  · intro hopen d hd
    obtain hflagged | ⟨f, hw, hne⟩ := hentries d hd
    · obtain ⟨f, hw, hne⟩ := hflagged.target_ne_none entryFlags_pageUser
      obtain ⟨f', x, hw', hentry, -⟩ := hflagged
      obtain rfl : f = f' := Option.some.inj (hw.symm.trans hw')
      refine ⟨f, hw, hne, ?_⟩
      rw [hentry]
      exact userBit_or_pageUser x
    · refine ⟨f, hkept hw, ?_, ?_⟩
      · rwa [hgrown.entry f _ hne]
      · rw [hgrown.entry f _ hne]
        exact hopen d hd f hw hne

end Walk

/-! ## Runs -/

section Runs

variable {roots : Set Frame} {s s' : Kernel}

theorem WalkReady.takeFrame {p : Word} {s₁ : Kernel} (h : WalkReady roots s)
    (htake : s.takeFrame = .ok (p, s₁)) : WalkReady roots s₁ := by
  obtain ⟨fs, hfs⟩ := h.owned
  cases fs with
  | nil =>
    rw [hfs.takeFrame_nil] at htake
    cases htake
  | cons g fs =>
    obtain ⟨s₁', htake', hmem, hregs, h₁⟩ := hfs.takeFrame
    rw [htake] at htake'
    cases htake'
    exact ⟨⟨fs, h₁⟩, h.present.of_extends hfs.loaded (Extends.of_mem_eq hmem hregs)⟩

theorem WalkReady.of_outcome {r : Word} {s₁ : Kernel} {res : Except Fault (Word × Kernel)}
    (h : WalkReady roots s) (hout : StepOutcome roots s res) (hres : res = .ok (r, s₁)) :
    WalkReady roots s₁ := by
  obtain ⟨fs, hfs⟩ := h.owned
  rw [hres] at hout
  cases hout with
  | done x s₁ fs₁ howned hext => exact ⟨⟨fs₁, howned⟩, h.present.of_extends hfs.loaded hext⟩

theorem WalkReady.advance {advance : Kernel → Kernel} (ha : Advances advance)
    (h : WalkReady roots s) : WalkReady roots (advance s) := by
  obtain ⟨fs, hfs⟩ := h.owned
  exact ⟨⟨fs, ha.owned hfs⟩, h.present.of_extends hfs.loaded ha.extends⟩

theorem MapStep.ready {op : MapOp} (h : WalkReady roots s) (hs : MapStep s op s') :
    WalkReady roots s' := by
  obtain ⟨ha, r, hrun⟩ := hs
  obtain ⟨fs, hfs⟩ := h.owned
  refine h.of_outcome ?_ hrun
  cases op with
  | pageWalk p v => exact hfs.walkAndMap_outcome entryFlags_pageKernel h.present ha p
  | pageWalkUser p v => exact hfs.walkAndMap_outcome entryFlags_pageUser h.present ha p
  | kmalloc size =>
    exact hfs.kmallocLoop_outcome advances_advanceTop entryFlags_pageKernel _ _ h.present ha
  | kmallocUser size =>
    exact hfs.kmallocLoop_outcome advances_advanceTop entryFlags_pageUser _ _ h.present ha
  | kmallocTopVirtualAddressUser size userTop =>
    exact hfs.kmallocLoop_outcome advances_id entryFlags_pageUser _ _ h.present ha

/-- A call inside a loop starts from a good state, for one of the loop's pages. -/
theorem LoopCall.ready {advance : Kernel → Kernel} (ha : Advances advance) {n : Nat} {v w : Word}
    {t t' : Kernel} (hcall : LoopCall advance n v s w t t') (h : WalkReady roots s)
    (hv : ∀ i < n, pml4Idx (pageAt v i) ≠ selfSlot) :
    WalkReady roots t ∧ pml4Idx w ≠ selfSlot ∧ ∃ p, pageWalkUser p w t = .ok (1, t') := by
  induction hcall with
  | here htake _ hwalk =>
    have hzero := hv 0 (by omega)
    rw [pageAt_zero] at hzero
    exact ⟨h.takeFrame htake, hzero, _, hwalk⟩
  | later htake _ hwalk _ _ ih =>
    have h₁ := h.takeFrame htake
    obtain ⟨fs, hfs⟩ := h₁.owned
    have hzero := hv 0 (by omega)
    rw [pageAt_zero] at hzero
    have h₂ := h₁.of_outcome (hfs.walkAndMap_outcome entryFlags_pageUser h₁.present hzero _) hwalk
    refine ih (h₂.advance ha) fun i hi => ?_
    rw [pageAt_succ]
    exact hv (i + 1) (by omega)

theorem UserCall.ready {op : MapOp} {v : Word} {t t' : Kernel} (hcall : UserCall op s v t t')
    (h : WalkReady roots s) (ha : op.Allowed s) :
    WalkReady roots t ∧ pml4Idx v ≠ selfSlot ∧ ∃ p, pageWalkUser p v t = .ok (1, t') := by
  cases hcall with
  | direct hwalk => exact ⟨h, ha, _, hwalk⟩
  | kmallocUser hloop => exact hloop.ready advances_advanceTop h ha
  | kmallocTopVirtualAddressUser hloop => exact hloop.ready advances_id h ha

end Runs

/-! ## A page of `kmalloc_user` -/

/-- The call that maps `kernel_pml4_t` in the sample kernel. -/
theorem pageWalk_sampleKernel {n : Nat} (hn : n < 2 ^ 20) (hn' : 3 ≤ n) :
    pageWalk (Frame.addr 1) 0xffffffff80300000#64 (sampleKernel n) = .ok (1, bootKernel n) := by
  have hnone := tableAt_sampleKernel n (q := path 0xffffffff80300000#64) (by simp [path])
    (path_head_ne (by decide))
  have hmissing := missingTables_le (sampleKernel n) 0xffffffff80300000#64
  have hlen := sampleFrames_length n
  obtain ⟨s', hrun, -⟩ := (owned_sampleKernel hn ∅).walkAndMap_unmapped entryFlags_pageKernel
    (sharedPresent_empty _) (by decide) (Frame.addr 1) hnone (by omega)
  have hboot : bootKernel n = s' := by
    unfold bootKernel pageWalk
    rw [show (sampleKernel n).kernelPml4T = 0xffffffff80300000#64 from rfl, hrun]
  rw [hboot]
  exact hrun

/-- Slot 511 of the booted kernel has no US bit. -/
theorem kernelSlot_bootKernel {n : Nat} (hn : n < 2 ^ 20) (hn' : 3 ≤ n) :
    userBit (entries (bootKernel n).mem 1 kernelSlot) = false := by
  have hbit : ∀ g : Frame, userBit (g.addr ||| pageKernel) = false := by
    intro g
    have hlow : g.addr.getLsbD 2 = false := by simp [Frame.addr]
    rw [userBit, BitVec.getLsbD_or, hlow]
    decide
  have hroot := bootKernel_root hn hn'
  obtain ⟨-, hentries⟩ := (owned_sampleKernel hn ∅).walkAndMap_flagged entryFlags_pageKernel
    (sharedPresent_empty _) (by decide) (pageWalk_sampleKernel hn hn')
  obtain ⟨f, x, hw, hentry, hx⟩ | ⟨f, hw, hne⟩ := hentries 0 (by omega)
  · obtain rfl : (bootKernel n).root = f := Option.some.inj hw
    rw [hroot] at hentry
    rw [show kernelSlot = idxAt 0xffffffff80300000#64 0 by decide, hentry]
    obtain rfl | ⟨g, rfl⟩ := hx
    · exact hbit 1
    · exact hbit g
  · refine absurd ?_ hne
    obtain rfl : (sampleKernel n).root = f := Option.some.inj hw
    rw [entries_sampleKernel, if_neg fun hc => absurd hc.2 (by decide), target_zero]

/-- `bootKernel n` with the user stack of `set_top_virtual_address`. -/
def loadKernel (n : Nat) : Kernel := { bootKernel n with pagingUserStackTop := userStackTop }

theorem booted_loadKernel {n : Nat} (hn : n < 2 ^ 20) (hn' : 3 ≤ n) :
    Booted ((sampleFrames n).drop 3) (loadKernel n) := by
  have h := booted_bootKernel hn hn'
  have howned := h.owned
  exact ⟨⟨howned.forest, howned.loaded, howned.writable, howned.free, howned.nodup, howned.zero,
    howned.unused⟩, h.valid, h.topAligned, h.pml4Aligned, h.pml4Slot, h.pml4Mapped⟩

theorem loadReady_loadKernel {n : Nat} (hn : n < 2 ^ 20) (hn' : 3 ≤ n) :
    LoadReady {(loadKernel n).root} ((sampleFrames n).drop 3) (loadKernel n) := by
  have hboot := booted_loadKernel hn hn'
  have hstart := heapStart_bootKernel hn hn'
  refine ⟨hboot.owned, hboot.spacesInv.present, ⟨hboot.topAligned, hboot.pml4Aligned,
    hboot.pml4Slot, _, rfl, fun r hr => ?_⟩, hstart.noZero, hstart.ready.topSlot,
    hstart.ready.above, rfl⟩
  rw [Set.mem_singleton_iff.mp hr]
  exact hboot.pml4Mapped

theorem loadKernel_top {n : Nat} (hn : n < 2 ^ 20) (hn' : 3 ≤ n) :
    (loadKernel n).topVirtualAddress = 0xffffffff80400000#64 := bootKernel_top hn hn'

theorem kernelSlot_loadKernel {n : Nat} (hn : n < 2 ^ 20) (hn' : 3 ≤ n) :
    userBit (entries (loadKernel n).mem (loadKernel n).root kernelSlot) = false := by
  have hclosed := kernelSlot_bootKernel hn hn'
  rw [← bootKernel_root hn hn'] at hclosed
  exact hclosed

/-- What `create_new_user_pml4` returns is the heap top, and slot 511 is the loaded PML4's. -/
theorem LoadReady.newUserPml4_slot {roots : Set Frame} {fs fs₁ : List Frame} {s s₁ : Kernel}
    {g : Frame} {r : Word} (h : LoadReady roots fs s) (h₁ : LoadReady (insert g roots) fs₁ s₁)
    (hnew : SBUnix.newUserPml4 s = .ok (g.addr, r, s₁)) :
    r = s.topVirtualAddress ∧ entries s₁.mem g kernelSlot = entries s.mem s.root kernelSlot := by
  have hout := h.owned.newUserPml4 h.present h.addrs (pml4Idx_of_heap h.topSlot)
  rw [hnew] at hout
  generalize hres : (Except.ok (g.addr, r, s₁) : Except Fault (Word × Word × Kernel)) = res at hout
  cases hout with
  | exhausted _ => cases hres
  | refused p t fs₂ hm _ _ => exact absurd (h.above _ le_rfl) hm
  | created g' t fs₂ howned hext _ =>
    obtain ⟨hg, hrt⟩ := Prod.mk.inj (Except.ok.inj hres)
    obtain ⟨rfl, rfl⟩ := Prod.mk.inj hrt
    refine ⟨rfl, ?_⟩
    rw [h₁.owned.forest.share _ (Or.inr h.owned.loaded) g (Or.inl rfl) kernelSlot rfl]
    exact hext.entry _ h.owned.loaded kernelSlot (h.present kernelSlot rfl)

/-- In a new address space of that kernel, `kmalloc_user` maps a page, and slot 511, which its path
    goes through, has no US bit. -/
theorem kmallocUser_loadKernel : ∃ p r s₁ v u u', newUserPml4 (loadKernel 20) = .ok (p, r, s₁) ∧
    r ≠ 0 ∧ MapOp.Allowed (.kmallocUser 1) (s₁.setCr3 p) ∧
    UserCall (.kmallocUser 1) (s₁.setCr3 p) v u u' ∧
    (userAccessible u'.mem u'.root v = true ↔ OpenPath u v) ∧ ¬ OpenPath u v := by
  have hready := loadReady_loadKernel (n := 20) (by decide) (by decide)
  have htop := loadKernel_top (n := 20) (by decide) (by decide)
  obtain ⟨g, r, fs₁, s₁, hnew, -, hstep, -⟩ := hready.newUserPml4 (by decide) (by rw [htop]; decide)
  have hlen : 13 ≤ fs₁.length := by
    have hfew := hstep.few
    rw [List.length_drop, sampleFrames_length] at hfew
    omega
  have htop₁ : s₁.topVirtualAddress.toNat = 0xffffffff80401000 := by
    rw [hstep.top, htop]
    rfl
  have hroot : frameOf g.addr ∈ insert g ({(loadKernel 20).root} : Set Frame) := by
    rw [frameOf_addr]
    exact Or.inl rfl
  have hready₁ := hstep.ready.setCr3 hroot
  obtain ⟨hr, hentry⟩ := hready.newUserPml4_slot hstep.ready hnew
  obtain ⟨f, fs₂, rfl⟩ := List.exists_cons_of_length_pos (by omega : 0 < fs₁.length)
  obtain ⟨u, htake, hmem, hregs, hu⟩ := hready₁.owned.takeFrame
  have hpresent := hready₁.present.of_extends hready₁.owned.loaded
    (Extends.of_mem_eq hmem hregs)
  have hslot₁ : pml4Idx s₁.topVirtualAddress = kernelSlot := pml4Idx_of_kernelSlot (by omega)
  have hmissing := missingTables_le u s₁.topVirtualAddress
  have hunmapped : u.tableAt (path s₁.topVirtualAddress) = none := by
    unfold Kernel.tableAt
    rw [hmem, hregs.root]
    exact hready₁.above _ le_rfl
  obtain ⟨u', hwalk, -⟩ := hu.walkAndMap_unmapped entryFlags_pageUser hpresent
    (by rw [hslot₁]; decide) f.addr hunmapped (by rw [List.length_cons] at hlen; omega)
  refine ⟨g.addr, r, s₁, s₁.topVirtualAddress, u, u', hnew, ?_, ?_, ?_, ?_, ?_⟩
  · rw [hr, htop]
    decide
  · intro i hi
    have hpage : (pageAt s₁.topVirtualAddress i).toNat = s₁.topVirtualAddress.toNat + 4096 * i :=
      pageAt_toNat (by
        have hi' : i < 2 := hi
        omega)
    show pml4Idx (pageAt s₁.topVirtualAddress i) ≠ selfSlot
    rw [pml4Idx_of_kernelSlot (by rw [hpage]; omega)]
    decide
  · refine .kmallocUser (.here (n := 1) htake ?_ hwalk)
    rw [Ne, Frame.addr_eq_zero]
    exact fun h0 => hready₁.nonzero (h0 ▸ List.mem_cons_self)
  · exact hu.walkUser_accessible hpresent (by rw [hslot₁]; decide) hwalk
  · intro hopen
    have hbit := hopen 0 (by omega) u.root rfl (by
      show target (entries u.mem u.root (pml4Idx s₁.topVirtualAddress)) ≠ none
      rw [hslot₁]
      exact hpresent kernelSlot rfl)
    rw [show idxAt s₁.topVirtualAddress 0 = kernelSlot from hslot₁, hmem, hregs.root] at hbit
    have hsame : userBit (entries s₁.mem (frameOf g.addr) kernelSlot) = false := by
      rw [frameOf_addr, hentry, kernelSlot_loadKernel (by decide) (by decide)]
    exact absurd (hbit.symm.trans hsame) (by decide)

/-! ## Every run -/

/-- In a created address space, whatever was mapped before: the page that a call of
    `page_walk_user` maps is open to user mode exactly when the entries that were on its path
    before the call had the US bit. -/
theorem userCall_accessible_iff (fs : List Frame) (s : Kernel) (h : Booted fs s)
    (spaceOps : List SpaceOp) (t : Spaces) (ht : Run SpaceStep ⟨s, [s.root]⟩ spaceOps t)
    (htop : pml4Idx t.kernel.topVirtualAddress ≠ selfSlot) (p r : Word) (s₁ : Kernel)
    (hnew : newUserPml4 t.kernel = .ok (p, r, s₁)) (hr : r ≠ 0) (ops : List MapOp) (s' : Kernel)
    (hrun : Run MapStep (s₁.setCr3 p) ops s') (op : MapOp) (ha : op.Allowed s') (v : Word)
    (u u' : Kernel) (hcall : UserCall op s' v u u') :
    userAccessible u'.mem u'.root v = true ↔ OpenPath u v := by
  have hinv := ht.invariant (fun _ _ _ hi hs => SpacesInv.step hi hs) h.spacesInv
  obtain ⟨fs₁, hfs₁⟩ := hinv.owned
  obtain ⟨-, hready, -⟩ := newUserPml4_ready hfs₁ hinv.present hinv.addrs htop hnew hr
  have hready' := hrun.invariant (fun _ _ _ hi hs => MapStep.ready hi hs) hready
  obtain ⟨hu, hv, q, hwalk⟩ := hcall.ready hready' ha
  obtain ⟨fs₂, hfs₂⟩ := hu.owned
  exact hfs₂.walkUser_accessible hu.present hv hwalk

theorem userCall_accessible_kmallocUser : ∃ p r s₁ v u u',
    newUserPml4 (loadKernel 20) = .ok (p, r, s₁) ∧
    UserCall (.kmallocUser 1) (s₁.setCr3 p) v u u' ∧
    (userAccessible u'.mem u'.root v = true ↔ OpenPath u v) := by
  obtain ⟨p, r, s₁, v, u, u', hnew, hr, ha, hcall, -, -⟩ := kmallocUser_loadKernel
  have htop := loadKernel_top (n := 20) (by decide) (by decide)
  exact ⟨p, r, s₁, v, u, u', hnew, hcall, userCall_accessible_iff _ (loadKernel 20)
    (booted_loadKernel (by decide) (by decide)) [] _ (.nil _) (by rw [htop]; decide) p r s₁ hnew hr []
    _ (.nil _) _ ha v u u' hcall⟩

/-- The pages of `kmalloc_user` are closed to user mode. -/
theorem not_userCall_accessible : ¬ ∀ p r s₁ v u u',
    newUserPml4 (loadKernel 20) = .ok (p, r, s₁) → r ≠ 0 →
    UserCall (.kmallocUser 1) (s₁.setCr3 p) v u u' → userAccessible u'.mem u'.root v = true := by
  intro hall
  obtain ⟨p, r, s₁, v, u, u', hnew, hr, -, hcall, hiff, hclosed⟩ := kmallocUser_loadKernel
  exact hclosed (hiff.mp (hall p r s₁ v u u' hnew hr hcall))

end SBUnix
