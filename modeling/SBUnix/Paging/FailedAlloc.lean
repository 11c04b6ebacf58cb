import SBUnix.Paging.AddressSpace

/-
  What a failed call of the `kmalloc` family leaves behind.

  Nothing is rolled back. A round that fails stores nothing, but it has taken its frame
  (`walkAndMap_result`), and the rounds before it are those of a call for fewer pages. So a call
  that returns 0 is a shorter call that succeeds, followed by one more frame taken (`alloc_failed`),
  in every state whatever its page tables look like. No frame comes back (`kmallocLoop_left`), so
  nothing has changed only where none was taken: the head of the list was null, or the call was for
  no page (`alloc_unchanged_iff`).
-/

namespace SBUnix

open ByteMem Radix

/-! ## A walk that returns 0 -/

section Walk

variable {flags p v a w r : Word} {s s' : Kernel} {n : Nat}

theorem store_sameRegs (h : s.store a w = .ok s') : s.SameRegs s' := by
  unfold Kernel.store at h
  split_ifs at h
  obtain ⟨x, -, hx⟩ := bind_eq_ok.mp h
  obtain rfl := Except.ok.inj hx
  exact ⟨rfl, rfl, rfl, rfl⟩

theorem takeFrame_same (h : s.takeFrame = .ok (p, s')) : s'.mem = s.mem ∧ s.SameRegs s' := by
  unfold Kernel.takeFrame at h
  obtain ⟨⟨q, fl⟩, -, hx⟩ := bind_eq_ok.mp h
  obtain ⟨-, rfl⟩ := Prod.mk.inj (Except.ok.inj hx)
  exact ⟨rfl, rfl, rfl, rfl, rfl⟩

/-- The stores return 1. -/
theorem fillFrom_result (h : fillFrom flags p v n s = .ok (r, s')) : r = 1 ∧ s.SameRegs s' := by
  induction n generalizing s with
  | zero =>
    obtain ⟨s₁, hstore, hx⟩ := bind_eq_ok.mp h
    obtain ⟨rfl, rfl⟩ := Prod.mk.inj (Except.ok.inj hx)
    exact ⟨rfl, store_sameRegs hstore⟩
  | succ n ih =>
    obtain ⟨⟨q, s₁⟩, htake, h⟩ := bind_eq_ok.mp h
    obtain ⟨s₂, hstore, h⟩ := bind_eq_ok.mp h
    obtain ⟨hr, hregs⟩ := ih h
    exact ⟨hr, ((takeFrame_same htake).2.trans (store_sameRegs hstore)).trans hregs⟩

/-- A walk finds the page mapped, or stores what is missing. -/
theorem walkAndMap_cases (h : walkAndMap flags p v s = .ok (r, s')) :
    (r = 0 ∧ s' = s) ∨ ∃ n, fillFrom flags p v n s = .ok (r, s') := by
  rw [walkAndMap_eq] at h
  obtain ⟨e₀, -, h⟩ := bind_eq_ok.mp h
  split_ifs at h
  · obtain ⟨e₁, -, h⟩ := bind_eq_ok.mp h
    split_ifs at h
    · obtain ⟨e₂, -, h⟩ := bind_eq_ok.mp h
      split_ifs at h
      · obtain ⟨e₃, -, h⟩ := bind_eq_ok.mp h
        split_ifs at h
        · obtain ⟨rfl, rfl⟩ := Prod.mk.inj (Except.ok.inj h)
          exact Or.inl ⟨rfl, rfl⟩
        · exact Or.inr ⟨0, h⟩
      · exact Or.inr ⟨1, h⟩
    · exact Or.inr ⟨2, h⟩
  · exact Or.inr ⟨3, h⟩

/-- A walk that returns 0 has changed nothing; any other returns 1. -/
theorem walkAndMap_result (h : walkAndMap flags p v s = .ok (r, s')) :
    (r = 0 ∧ s' = s) ∨ (r = 1 ∧ s.SameRegs s') :=
  (walkAndMap_cases h).imp_right fun ⟨_, hfill⟩ => fillFrom_result hfill

end Walk

/-! ## The frames that are left -/

/-- The frames that calls of `get_next_free_page_kmalloc` hand out from here on, up to a head that
    is null or no descriptor. -/
inductive FramesLeft : FreeList DescStore → List Word → Prop
  | null {fl : FreeList DescStore} : fl.freeListHeadKmalloc = 0 → FramesLeft fl []
  | stray {fl : FreeList DescStore} {e : Fault} :
      getNextFreePageKmalloc fl = .error e → FramesLeft fl []
  | cons {fl fl' : FreeList DescStore} {p : Word} {fs : List Word} : fl.freeListHeadKmalloc ≠ 0 →
      getNextFreePageKmalloc fl = .ok (p, fl') → FramesLeft fl' fs → FramesLeft fl (p :: fs)

section Left

variable {flags top p r v a w : Word} {advance : Kernel → Kernel} {n : Nat} {s s' : Kernel}
  {fl : FreeList DescStore} {fs fs' : List Word}

theorem FramesLeft.unique (h : FramesLeft fl fs) (h' : FramesLeft fl fs') : fs = fs' := by
  induction h generalizing fs' with
  | null hnull =>
    cases h' with
    | null => rfl
    | stray => rfl
    | cons hne => exact absurd hnull hne
  | stray herr =>
    cases h' with
    | null => rfl
    | stray => rfl
    | cons _ htake =>
      rw [herr] at htake
      cases htake
  | cons hne htake _ ih =>
    cases h' with
    | null hnull => exact absurd hnull hne
    | stray herr =>
      rw [htake] at herr
      cases herr
    | cons _ htake' hrest =>
      rw [htake] at htake'
      obtain ⟨rfl, rfl⟩ := Prod.mk.inj (Except.ok.inj htake')
      rw [ih hrest]

theorem getNextFreePageKmalloc_zero (h : fl.freeListHeadKmalloc = 0) :
    getNextFreePageKmalloc fl = .ok (0, fl) := if_pos h

theorem FreeFrames.head_ne_zero {g : Frame} {gs : List Frame} (h : FreeFrames fl (g :: gs)) :
    fl.freeListHeadKmalloc ≠ 0 := by
  obtain ⟨q, nodes, hq, hchain, hmap, hlow⟩ := h.chain
  cases nodes with
  | nil => simp at hmap
  | cons e nodes =>
    obtain ⟨rfl, -⟩ := hchain
    rw [hq]
    exact (shifted_of_lt (hlow e List.mem_cons_self)).2.2

theorem FreeFrames.framesLeft {gs : List Frame} (h : FreeFrames fl gs) :
    FramesLeft fl (gs.map Frame.addr) := by
  induction gs generalizing fl with
  | nil => exact .stray h.nil
  | cons g gs ih =>
    obtain ⟨fl', htake, hrest⟩ := h.cons
    exact .cons h.head_ne_zero htake (ih hrest)

theorem store_freeList (h : s.store a w = .ok s') : s'.freeList = s.freeList := by
  unfold Kernel.store at h
  split_ifs at h
  obtain ⟨x, -, hx⟩ := bind_eq_ok.mp h
  obtain rfl := Except.ok.inj hx
  rfl

/-- Only a list with a null head gives no frame away. -/
theorem takeFrame_left (hfs : FramesLeft s.freeList fs) (h : s.takeFrame = .ok (p, s')) :
    (s.freeList.freeListHeadKmalloc = 0 ∧ p = 0 ∧ s' = s) ∨
      ∃ fs', fs = p :: fs' ∧ FramesLeft s'.freeList fs' := by
  obtain ⟨⟨q, fl⟩, htake, hx⟩ := bind_eq_ok.mp h
  obtain ⟨rfl, rfl⟩ := Prod.mk.inj (Except.ok.inj hx)
  cases hfs with
  | null hnull =>
    rw [getNextFreePageKmalloc_zero hnull] at htake
    obtain ⟨rfl, rfl⟩ := Prod.mk.inj (Except.ok.inj htake)
    exact Or.inl ⟨hnull, rfl, rfl⟩
  | stray herr =>
    rw [herr] at htake
    cases htake
  | cons hne htake' hrest =>
    rw [htake'] at htake
    obtain ⟨rfl, rfl⟩ := Prod.mk.inj (Except.ok.inj htake)
    exact Or.inr ⟨_, rfl, hrest⟩

/-- The list only ever loses frames from its front. -/
theorem takeFrame_suffix (hfs : FramesLeft s.freeList fs) (h : s.takeFrame = .ok (p, s')) :
    ∃ fs', fs' <:+ fs ∧ FramesLeft s'.freeList fs' := by
  obtain ⟨-, -, rfl⟩ | ⟨fs', rfl, hleft⟩ := takeFrame_left hfs h
  · exact ⟨fs, List.suffix_rfl, hfs⟩
  · exact ⟨fs', List.suffix_cons p fs', hleft⟩

theorem fillFrom_left (hfs : FramesLeft s.freeList fs) (h : fillFrom flags p v n s = .ok (r, s')) :
    ∃ fs', fs' <:+ fs ∧ FramesLeft s'.freeList fs' := by
  induction n generalizing s fs with
  | zero =>
    obtain ⟨s₁, hstore, hx⟩ := bind_eq_ok.mp h
    obtain ⟨-, rfl⟩ := Prod.mk.inj (Except.ok.inj hx)
    exact ⟨fs, List.suffix_rfl, store_freeList hstore ▸ hfs⟩
  | succ n ih =>
    obtain ⟨⟨q, s₁⟩, htake, h⟩ := bind_eq_ok.mp h
    obtain ⟨s₂, hstore, h⟩ := bind_eq_ok.mp h
    obtain ⟨fs₁, hsuffix₁, hleft₁⟩ := takeFrame_suffix hfs htake
    obtain ⟨fs₂, hsuffix₂, hleft₂⟩ := ih (store_freeList hstore ▸ hleft₁) h
    exact ⟨fs₂, hsuffix₂.trans hsuffix₁, hleft₂⟩

theorem walkAndMap_left (hfs : FramesLeft s.freeList fs)
    (h : walkAndMap flags p v s = .ok (r, s')) :
    ∃ fs', fs' <:+ fs ∧ FramesLeft s'.freeList fs' := by
  obtain ⟨-, rfl⟩ | ⟨n, hfill⟩ := walkAndMap_cases h
  · exact ⟨fs, List.suffix_rfl, hfs⟩
  · exact fillFrom_left hfs hfill

/-- Whatever the loop returns, it has not put a frame back, and it has taken one unless the head of
    the list was null or there was no page to map. -/
theorem kmallocLoop_left (hadvance : ∀ s, (advance s).freeList = s.freeList)
    (hfs : FramesLeft s.freeList fs)
    (h : kmallocLoop (walkAndMap flags) advance top n v s = .ok (r, s')) :
    ∃ fs', fs' <:+ fs ∧ FramesLeft s'.freeList fs' ∧
      (s.freeList.freeListHeadKmalloc ≠ 0 → n ≠ 0 → fs'.length < fs.length) := by
  induction n generalizing v s fs with
  | zero =>
    obtain ⟨-, rfl⟩ := Prod.mk.inj (Except.ok.inj h)
    exact ⟨fs, List.suffix_rfl, hfs, fun _ hn => absurd rfl hn⟩
  | succ n ih =>
    obtain ⟨⟨p, s₁⟩, htake, hrest⟩ := bind_eq_ok.mp h
    dsimp only at hrest
    obtain ⟨hnull, hp, rfl⟩ | ⟨fs₁, rfl, hleft₁⟩ := takeFrame_left hfs htake
    · rw [if_pos hp] at hrest
      obtain ⟨-, rfl⟩ := Prod.mk.inj (Except.ok.inj hrest)
      exact ⟨fs, List.suffix_rfl, hfs, fun hne => absurd hnull hne⟩
    -- from here on one frame is gone for good, and it is enough to find a suffix of the others
    suffices hrest' : ∃ fs', fs' <:+ fs₁ ∧ FramesLeft s'.freeList fs' by
      obtain ⟨fs', hsuffix, hleft⟩ := hrest'
      exact ⟨fs', hsuffix.trans (List.suffix_cons p fs₁), hleft,
        fun _ _ => Nat.lt_succ_of_le hsuffix.length_le⟩
    split_ifs at hrest with hp
    · obtain ⟨-, rfl⟩ := Prod.mk.inj (Except.ok.inj hrest)
      exact ⟨fs₁, List.suffix_rfl, hleft₁⟩
    obtain ⟨⟨q, s₂⟩, hwalk, hrest⟩ := bind_eq_ok.mp hrest
    obtain ⟨fs₂, hsuffix₂, hleft₂⟩ := walkAndMap_left hleft₁ hwalk
    dsimp only at hrest
    split_ifs at hrest with hq
    · obtain ⟨-, rfl⟩ := Prod.mk.inj (Except.ok.inj hrest)
      exact ⟨fs₂, hsuffix₂, hleft₂⟩
    obtain ⟨fs₃, hsuffix₃, hleft₃, -⟩ := ih (hadvance s₂ ▸ hleft₂) hrest
    exact ⟨fs₃, hsuffix₃.trans hsuffix₂, hleft₃⟩

end Left

/-! ## The loop -/

/-- The calls that hand out pages. -/
inductive AllocCall where
  | kmalloc (size : Word)
  | kmallocUser (size : Word)
  | kmallocTopVirtualAddressUser (size userTop : Word)

namespace AllocCall

def run : AllocCall → Kernel → Except Fault (Word × Kernel)
  | kmalloc size => SBUnix.kmalloc size
  | kmallocUser size => SBUnix.kmallocUser size
  | kmallocTopVirtualAddressUser size userTop => SBUnix.kmallocTopVirtualAddressUser size userTop

def flags : AllocCall → Word
  | kmalloc _ => pageKernel
  | _ => pageUser

/-- What a page does to the kernel's top address. -/
def advance : AllocCall → Kernel → Kernel
  | kmallocTopVirtualAddressUser _ _ => id
  | _ => Kernel.advanceTop

/-- The address of the first page. -/
def top : AllocCall → Kernel → Word
  | kmallocTopVirtualAddressUser _ userTop, _ => userTop
  | _, s => s.topVirtualAddress

/-- The number of pages. -/
def pages : AllocCall → Nat
  | kmalloc size => (noOfPages size).toNat
  | kmallocUser size => (1 + noOfPages size).toNat
  | kmallocTopVirtualAddressUser size _ => (noOfPages size).toNat

/-- The first `k` pages of the call go through and leave `t`, whatever address it is to return. -/
def Succeeds (c : AllocCall) (k : Nat) (s t : Kernel) : Prop :=
  ∀ x, kmallocLoop (walkAndMap c.flags) c.advance x k (c.top s) s = .ok (x, t)

theorem run_eq (c : AllocCall) (s : Kernel) :
    c.run s = kmallocLoop (walkAndMap c.flags) c.advance (c.top s) c.pages (c.top s) s := by
  cases c <;> rfl

/-- `top_virtual_address` after `k` pages. -/
def topAfter (c : AllocCall) (k : Nat) (s : Kernel) : Word :=
  match c with
  | kmallocTopVirtualAddressUser _ _ => s.topVirtualAddress
  | _ => pageAt s.topVirtualAddress k

/-- The call from `s` to `s'` failed at page `k`, in state `t`: there it took a frame, or got none,
    and the walk returned 0. Tables and registers are those of `t`, and the list is one frame
    shorter. -/
structure FailsAt (c : AllocCall) (s s' : Kernel) (k : Nat) (t : Kernel) : Prop where
  lt : k < c.pages
  before : c.Succeeds k s t
  tables : s'.mem = t.mem
  regs : t.SameRegs s'
  top : s'.topVirtualAddress = c.topAfter k s
  frame : ∃ p, t.takeFrame = .ok (p, s') ∧
    (p = 0 ∨ walkAndMap c.flags p (pageAt (c.top s) k) s' = .ok (0, s'))
  frames : ∀ g fs, FreeFrames t.freeList (g :: fs) → FreeFrames s'.freeList fs

end AllocCall

section Loop

variable {flags top p r v : Word} {advance : Kernel → Kernel} {n k : Nat} {s s' s₁ s₂ t : Kernel}

/-- A round that goes through, and then the others. -/
theorem kmallocLoop_round (htake : s.takeFrame = .ok (p, s₁)) (hp : p ≠ 0)
    (hwalk : walkAndMap flags p v s₁ = .ok (r, s₂)) (hr : r ≠ 0) :
    kmallocLoop (walkAndMap flags) advance top (n + 1) v s =
      kmallocLoop (walkAndMap flags) advance top n (pageSize + v) (advance s₂) := by
  rw [kmallocLoop, htake, ok_bind]
  dsimp only
  rw [if_neg hp, hwalk, ok_bind]
  dsimp only
  rw [if_neg hr]

/-- A loop that returns 0 went through some of its pages and failed at the next, or was to return
    0 anyway. -/
theorem kmallocLoop_zero
    (h : kmallocLoop (walkAndMap flags) advance top n v s = .ok (0, s')) :
    ∃ k t, (∀ x, kmallocLoop (walkAndMap flags) advance x k v s = .ok (x, t)) ∧
      ((k = n ∧ top = 0 ∧ s' = t) ∨
        (k < n ∧ ∃ p, t.takeFrame = .ok (p, s') ∧
          (p = 0 ∨ walkAndMap flags p (pageAt v k) s' = .ok (0, s')))) := by
  induction n generalizing v s with
  | zero =>
    obtain ⟨htop, rfl⟩ := Prod.mk.inj (Except.ok.inj h)
    exact ⟨0, s, fun _ => rfl, Or.inl ⟨rfl, htop, rfl⟩⟩
  | succ n ih =>
    obtain ⟨⟨p, s₁⟩, htake, hrest⟩ := bind_eq_ok.mp h
    dsimp only at hrest
    split_ifs at hrest with hp
    · obtain ⟨-, rfl⟩ := Prod.mk.inj (Except.ok.inj hrest)
      exact ⟨0, s, fun _ => rfl, Or.inr ⟨Nat.succ_pos n, p, htake, Or.inl hp⟩⟩
    obtain ⟨⟨r, s₂⟩, hwalk, hrest⟩ := bind_eq_ok.mp hrest
    dsimp only at hrest
    split_ifs at hrest with hr
    · obtain ⟨-, rfl⟩ := Prod.mk.inj (Except.ok.inj hrest)
      obtain ⟨-, rfl⟩ | ⟨hone, -⟩ := walkAndMap_result hwalk
      · refine ⟨0, s, fun _ => rfl, Or.inr ⟨Nat.succ_pos n, p, htake, Or.inr ?_⟩⟩
        rw [pageAt_zero, hwalk, hr]
      · exact absurd (hr.symm.trans hone) (by decide)
    obtain ⟨k, t, hbefore, hcase⟩ := ih hrest
    refine ⟨k + 1, t, fun x => (kmallocLoop_round htake hp hwalk hr).trans (hbefore x), ?_⟩
    obtain ⟨rfl, htop, hs'⟩ | ⟨hlt, q, hq, hfail⟩ := hcase
    · exact Or.inl ⟨rfl, htop, hs'⟩
    · refine Or.inr ⟨Nat.succ_lt_succ hlt, q, hq, ?_⟩
      rwa [← pageAt_succ]

/-- A loop that returns anything but 0 went through all of its pages. -/
theorem kmallocLoop_ok (h : kmallocLoop (walkAndMap flags) advance top n v s = .ok (r, t))
    (hr : r ≠ 0) (x : Word) : kmallocLoop (walkAndMap flags) advance x n v s = .ok (x, t) := by
  induction n generalizing v s with
  | zero =>
    obtain ⟨-, rfl⟩ := Prod.mk.inj (Except.ok.inj h)
    rfl
  | succ n ih =>
    obtain ⟨⟨p, s₁⟩, htake, hrest⟩ := bind_eq_ok.mp h
    dsimp only at hrest
    split_ifs at hrest with hp
    · exact absurd (Prod.mk.inj (Except.ok.inj hrest)).1.symm hr
    obtain ⟨⟨q, s₂⟩, hwalk, hrest⟩ := bind_eq_ok.mp hrest
    dsimp only at hrest
    split_ifs at hrest with hq
    · exact absurd (Prod.mk.inj (Except.ok.inj hrest)).1.symm hr
    exact (kmallocLoop_round htake hp hwalk hq).trans (ih hrest)

/-- The pages that go through move the kernel's top address, each as `advance` does. -/
theorem topVirtualAddress_kmallocLoop {f : Word → Word}
    (hf : ∀ s, (advance s).topVirtualAddress = f s.topVirtualAddress)
    (h : ∀ x, kmallocLoop (walkAndMap flags) advance x k v s = .ok (x, t)) :
    t.topVirtualAddress = f^[k] s.topVirtualAddress := by
  induction k generalizing v s with
  | zero =>
    obtain ⟨-, rfl⟩ := Prod.mk.inj (Except.ok.inj (h 1))
    rfl
  | succ k ih =>
    obtain ⟨⟨p, s₁⟩, htake, hrest⟩ := bind_eq_ok.mp (h 1)
    dsimp only at hrest
    split_ifs at hrest with hp
    · cases hrest
    obtain ⟨⟨r, s₂⟩, hwalk, hrest⟩ := bind_eq_ok.mp hrest
    dsimp only at hrest
    split_ifs at hrest with hr
    · cases hrest
    have hstep := ih fun x => (kmallocLoop_round htake hp hwalk hr).symm.trans (h x)
    have hregs : s₂.topVirtualAddress = s.topVirtualAddress := by
      obtain ⟨hzero, -⟩ | ⟨-, hregs⟩ := walkAndMap_result hwalk
      · exact absurd hzero hr
      · exact hregs.top.trans (takeFrame_same htake).2.top
    rw [hstep, hf, hregs, Function.iterate_succ_apply]

end Loop

theorem iterate_pageSize (k : Nat) (v : Word) : (pageSize + ·)^[k] v = pageAt v k := by
  induction k generalizing v with
  | zero => rw [pageAt_zero, Function.iterate_zero_apply]
  | succ k ih => rw [Function.iterate_succ_apply, ih, pageAt_succ]

theorem AllocCall.Succeeds.top {c : AllocCall} {k : Nat} {s t : Kernel} (h : c.Succeeds k s t) :
    t.topVirtualAddress = c.topAfter k s := by
  cases c with
  | kmalloc size =>
    rw [topVirtualAddress_kmallocLoop topVirtualAddress_advanceTop h, iterate_pageSize]
    rfl
  | kmallocUser size =>
    rw [topVirtualAddress_kmallocLoop topVirtualAddress_advanceTop h, iterate_pageSize]
    rfl
  | kmallocTopVirtualAddressUser size userTop =>
    have hid : ∀ s : Kernel, (id s).topVirtualAddress = id s.topVirtualAddress := fun _ => rfl
    rw [topVirtualAddress_kmallocLoop hid h, Function.iterate_id]
    rfl

/-- A call that returns 0 went through its pages up to one of them and failed there, or it was to
    return the address 0. -/
theorem alloc_failed (c : AllocCall) (s s' : Kernel) (h : c.run s = .ok (0, s')) :
    (∃ k t, c.FailsAt s s' k t) ∨ (c.top s = 0 ∧ c.Succeeds c.pages s s') := by
  rw [c.run_eq] at h
  obtain ⟨k, t, hbefore, ⟨rfl, htop, rfl⟩ | ⟨hlt, p, htake, hfail⟩⟩ := kmallocLoop_zero h
  · exact Or.inr ⟨htop, hbefore⟩
  · obtain ⟨htables, hregs⟩ := takeFrame_same htake
    refine Or.inl ⟨k, t, hlt, hbefore, htables, hregs, ?_, ⟨p, htake, hfail⟩, fun g fs hfree => ?_⟩
    · rw [hregs.top]
      exact AllocCall.Succeeds.top hbefore
    · obtain ⟨fl, hnext, hfree'⟩ := hfree.cons
      unfold Kernel.takeFrame at htake
      rw [hnext] at htake
      obtain ⟨-, rfl⟩ := Prod.mk.inj (Except.ok.inj htake)
      exact hfree'

/-- The page tables, `top_virtual_address` and the frames that are left are as before. -/
structure Unchanged (s s' : Kernel) : Prop where
  tables : ∀ g j, entries s'.mem g j = entries s.mem g j
  top : s'.topVirtualAddress = s.topVirtualAddress
  frames : ∀ fs, FramesLeft s.freeList fs → ∃ fs', FramesLeft s'.freeList fs' ∧ fs'.Perm fs

theorem Unchanged.refl (s : Kernel) : Unchanged s s where
  tables _ _ := rfl
  top := rfl
  frames fs h := ⟨fs, h, .refl fs⟩

/-- On a list with a null head a call fails at its first page. -/
theorem AllocCall.run_null {c : AllocCall} {s : Kernel}
    (hnull : s.freeList.freeListHeadKmalloc = 0) (hpages : c.pages ≠ 0) :
    c.run s = .ok (0, s) := by
  obtain ⟨n, hn⟩ := Nat.exists_eq_succ_of_ne_zero hpages
  have htake : s.takeFrame = .ok (0, s) := by
    unfold Kernel.takeFrame
    rw [getNextFreePageKmalloc_zero hnull]
    rfl
  rw [c.run_eq, hn, kmallocLoop, htake, ok_bind]
  exact if_pos rfl

/-- A call that takes no frame does nothing at all. -/
theorem AllocCall.run_nothing {c : AllocCall} {s s' : Kernel} {r : Word}
    (hnone : s.freeList.freeListHeadKmalloc = 0 ∨ c.pages = 0) (h : c.run s = .ok (r, s')) :
    s' = s := by
  by_cases hpages : c.pages = 0
  · rw [c.run_eq, hpages] at h
    exact (Prod.mk.inj (Except.ok.inj h)).2.symm
  · rw [c.run_null (hnone.resolve_right hpages) hpages] at h
    exact (Prod.mk.inj (Except.ok.inj h)).2.symm

theorem AllocCall.freeList_advance (c : AllocCall) (s : Kernel) :
    (c.advance s).freeList = s.freeList := by
  cases c <;> rfl

/-- A call that returns 0 has changed nothing exactly when the head of the list was null or the call
    was for no page. -/
theorem alloc_unchanged_iff (c : AllocCall) (s s' : Kernel) (fs : List Word)
    (hfs : FramesLeft s.freeList fs) (h : c.run s = .ok (0, s')) :
    Unchanged s s' ↔ s.freeList.freeListHeadKmalloc = 0 ∨ c.pages = 0 := by
  constructor
  · intro hsame
    by_contra htaken
    obtain ⟨hhead, hpages⟩ := not_or.mp htaken
    rw [c.run_eq] at h
    obtain ⟨fs', -, hleft, hshorter⟩ := kmallocLoop_left c.freeList_advance hfs h
    obtain ⟨fs'', hleft', hperm⟩ := hsame.frames fs hfs
    have hlt := hshorter hhead hpages
    rw [hleft.unique hleft', hperm.length_eq] at hlt
    exact Nat.lt_irrefl _ hlt
  · intro hnone
    rw [AllocCall.run_nothing hnone h]
    exact .refl s

/-! ## A second page that is mapped -/

/-- A page that is mapped already. -/
theorem Owned.mapFresh_refused {shared : Set Idx} {roots : Set Frame} {fs : List Frame}
    {s : Kernel} {v flags : Word} (h : Owned shared roots fs s) (hf : EntryFlags flags)
    (hsp : SharedPresent shared s) (hv : pml4Idx v ≠ selfSlot) (hlen : 4 ≤ fs.length)
    (hm : s.tableAt (path v) ≠ none) :
    ∃ s', SBUnix.mapFresh flags v s = .ok (0, s') ∧ s'.mem = s.mem ∧ s.SameRegs s' := by
  have hout := h.mapFresh hf hsp hv
  generalize SBUnix.mapFresh flags v s = res at hout
  cases hout with
  | exhausted hlt => omega
  | refused g fs' s' _ _ hmem hregs => exact ⟨s', rfl, hmem, hregs⟩
  | mapped _ _ _ _ _ _ hnone => exact absurd hnone hm

/-- With only the second page of its range mapped, `kmalloc` of two pages returns 0, and has mapped
    the first page and moved `top_virtual_address`. -/
theorem kmalloc_second_page : ∃ s s', pageWalk 0x200000#64 0xffffffff80401000#64
      (sampleKernel 16) = .ok (1, s) ∧ kmalloc 0x2000#64 s = .ok (0, s') ∧
    (∃ g gs, FreeFrames s.freeList (g :: gs)) ∧
    s.topVirtualAddress = 0xffffffff80400000#64 ∧
    s'.topVirtualAddress = 0xffffffff80401000#64 ∧
    translatePage s.mem s.root 0xffffffff80400000#64 = none ∧
    translatePage s'.mem s'.root 0xffffffff80400000#64 ≠ none := by
  have h₀ := owned_sampleKernel (n := 16) (by decide) ∅
  have habs : ∀ v : Word, pml4Idx v ≠ selfSlot → (sampleKernel 16).tableAt (path v) = none :=
    fun v hv => tableAt_sampleKernel 16 (by simp [path]) (path_head_ne hv)
  have hslot : pml4Idx 0xffffffff80400000#64 ≠ selfSlot := by decide
  have hslot' : pml4Idx 0xffffffff80401000#64 ≠ selfSlot := by decide
  have hmissing := missingTables_le (sampleKernel 16) 0xffffffff80401000#64
  have hlen₀ := sampleFrames_length 16
  obtain ⟨s, hwalk, hs⟩ := h₀.walkAndMap_unmapped entryFlags_pageKernel (sharedPresent_empty _)
    hslot' 0x200000#64 (habs _ hslot') (by omega)
  have htop : s.topVirtualAddress = 0xffffffff80400000#64 := hs.grown.regs.top
  have hroot := hs.grown.regs.root
  have hnone : s.tableAt (path 0xffffffff80400000#64) = none := by
    rw [Kernel.tableAt, hroot]
    exact (hs.other rfl hslot (by decide)).trans (habs _ hslot)
  have hmapped : s.tableAt (path 0xffffffff80401000#64) ≠ none := by
    have hpage := hs.maps.mapped _ rfl (Or.inl rfl)
    unfold Kernel.tableAt
    rw [hroot, hpage]
    simp
  have hframes : ∀ g ∈ (sampleFrames 16).drop (missingTables (sampleKernel 16)
      0xffffffff80401000#64), g ≠ 0 := by
    intro g hg hzero
    have hge := (mem_sampleFrames (by decide) (List.mem_of_mem_drop hg)).1
    rw [hzero] at hge
    exact absurd hge (by decide)
  obtain ⟨g, used, fs, s₁, hfresh, hfs, hused, hs₁⟩ := hs.owned.mapFresh_unmapped
    entryFlags_pageKernel (sharedPresent_empty _) hslot (by rw [List.length_drop]; omega) hframes
    hnone
  have hlen := congrArg List.length hfs
  rw [List.length_drop, List.length_cons, List.length_append] at hlen
  have hmapped₁ : s₁.advanceTop.tableAt (path 0xffffffff80401000#64) ≠ none := by
    obtain ⟨x, hx⟩ := Option.ne_none_iff_exists'.mp hmapped
    rw [tableAt_advanceTop]
    unfold Kernel.tableAt at hx ⊢
    rw [hs₁.grown.regs.root, hs₁.grown.kept _ hs.owned.loaded _ x hx]
    simp
  obtain ⟨s₂, hrefused, hmem, hregs⟩ := hs₁.owned.advanceTop.mapFresh_refused
    entryFlags_pageKernel (sharedPresent_empty _) hslot' (by omega) hmapped₁
  refine ⟨s, s₂, hwalk, ?_, ⟨g, _, hfs ▸ hs.owned.free⟩, htop, ?_, hnone, ?_⟩
  · unfold kmalloc
    rw [htop, show (noOfPages 0x2000#64).toNat = 1 + 1 by decide]
    show kmallocLoop (walkAndMap pageKernel) _ _ _ _ _ = _
    rw [kmallocLoop_succ, hfresh, ok_bind]
    dsimp only
    rw [if_neg (by decide), kmallocLoop_succ,
      show pageSize + 0xffffffff80400000#64 = 0xffffffff80401000#64 by decide, hrefused, ok_bind]
    rfl
  · rw [hregs.top, topVirtualAddress_advanceTop, hs₁.grown.regs.top, htop]
    decide
  · have hpage := hs₁.maps.mapped _ hs.owned.loaded (Or.inl rfl)
    have hsame : s₁.advanceTop.root = s.root := hs₁.grown.regs.root
    unfold translatePage
    rw [hmem, mem_advanceTop, hregs.root, hsame, hpage]
    simp

/-- A failed allocation can change page tables, `top_virtual_address` and the list. -/
theorem not_alloc_unchanged : ¬ ∀ (c : AllocCall) (s s' : Kernel), c.run s = .ok (0, s') →
    Unchanged s s' := by
  intro hall
  obtain ⟨s, s', -, hrun, -, htop, htop', -⟩ := kmalloc_second_page
  have hsame := (hall (.kmalloc 0x2000#64) s s' hrun).top
  rw [htop, htop'] at hsame
  exact absurd hsame (by decide)

/-- A kernel whose list has not been handed over yet. -/
def nullKernel : Kernel :=
  { sampleKernel 0 with freeList := { sampleList 0 with freeListHeadKmalloc := 0 } }

theorem alloc_unchanged_iff_second_page :
    (∃ s s' fs, FramesLeft s.freeList fs ∧ kmalloc 0x2000#64 s = .ok (0, s') ∧
      ¬ Unchanged s s') ∧
    kmalloc 0x2000#64 nullKernel = .ok (0, nullKernel) ∧ Unchanged nullKernel nullKernel := by
  obtain ⟨s, s', -, hrun, ⟨g, gs, hfree⟩, -⟩ := kmalloc_second_page
  have hnull : kmalloc 0x2000#64 nullKernel = .ok (0, nullKernel) :=
    (AllocCall.kmalloc 0x2000#64).run_null rfl (by decide)
  refine ⟨⟨s, s', _, hfree.framesLeft, hrun, fun hsame => ?_⟩, hnull, ?_⟩
  · obtain hhead | hpages :=
      (alloc_unchanged_iff (.kmalloc 0x2000#64) s s' _ hfree.framesLeft hrun).mp hsame
    · exact hfree.head_ne_zero hhead
    · exact absurd hpages (by decide)
  · exact (alloc_unchanged_iff (.kmalloc 0x2000#64) nullKernel nullKernel [] (.null rfl) hnull).mpr
      (Or.inl rfl)

end SBUnix
