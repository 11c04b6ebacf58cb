import SBUnix.Paging.FreeList

/-
  The order in which the two allocators hand frames out.

  `AllocInOrder` is the contract of the pair: the frames in list order, then the failure value.
  It holds exactly while the kernel allocator is not called past the end of the list and only
  meets descriptors below 2 GiB (`allocInOrder_iff`): `set_new_free_list_head` and
  `get_next_free_page_kmalloc` add `KERNBASE` to the null link as well, so the call after the
  last frame finds a head that is not null and reads `KERNBASE` as a descriptor.
-/

namespace SBUnix

/-- `m` boot and `k` kernel allocations return the frames of `l` in order, each once, then 0,
    and read no memory but descriptors. -/
def AllocInOrder (s : FreeList DescStore) (l : List (Word × Word)) (m k : Nat) : Prop :=
  ∃ s', allocRun m k s =
    .ok ((l.map Prod.snd).take (m + k) ++ List.replicate (m + k - l.length) 0, s')

theorem calls_succ_eq_ok {σ : Type} {f : σ → Except Fault (Word × σ)} {n : Nat} {s s' : σ}
    {ps : List Word} : calls f (n + 1) s = .ok (ps, s') ↔
      ∃ p s₁ qs, f s = .ok (p, s₁) ∧ calls f n s₁ = .ok (qs, s') ∧ ps = p :: qs := by
  rw [calls, bind_eq_ok]
  constructor
  · rintro ⟨⟨p, s₁⟩, h₁, h₂⟩
    obtain ⟨⟨qs, s₂⟩, h₃, h₄⟩ := bind_eq_ok.mp h₂
    cases h₄
    exact ⟨p, s₁, qs, h₁, h₃, rfl⟩
  · rintro ⟨p, s₁, qs, h₁, h₂, rfl⟩
    exact ⟨(p, s₁), h₁, bind_eq_ok.mpr ⟨(qs, s'), h₂, rfl⟩⟩

/-- Boot allocations take the frames in order. -/
theorem calls_getNextFreePage {m : Nat} {s : FreeList DescStore} {l : List (Word × Word)}
    (h : FreeChain s.descs s.freeListHead l) (hm : m ≤ l.length) :
    ∃ s', calls getNextFreePage m s = .ok ((l.map Prod.snd).take m, s') ∧
      descNode s'.descs = descNode s.descs ∧
      FreeChain s'.descs s'.freeListHead (l.drop m) := by
  induction m generalizing s l with
  | zero => exact ⟨s, rfl, rfl, h⟩
  | succ m ih =>
    cases l with
    | nil => simp at hm
    | cons e l =>
      obtain ⟨s₁, h₁, hn₁, hc₁⟩ := getNextFreePage_cons h
      obtain ⟨s₂, h₂, hn₂, hc₂⟩ := ih hc₁ (by simpa using hm)
      exact ⟨s₂, calls_succ_eq_ok.mpr ⟨e.2, s₁, _, h₁, h₂, rfl⟩, hn₂.trans hn₁, hc₂⟩

/-- Kernel allocations take the frames in order while the descriptors are below 2 GiB. -/
theorem calls_getNextFreePageKmalloc {k : Nat} {s : FreeList DescStore} {p : Word}
    {l : List (Word × Word)} (hs : s.freeListHeadKmalloc = kernbase + p)
    (h : FreeChain s.descs p l) (hk : k ≤ l.length)
    (hlow : ∀ e ∈ l.take k, e.1.toNat < 2 ^ 31) :
    ∃ s', calls getNextFreePageKmalloc k s = .ok ((l.map Prod.snd).take k, s') := by
  induction k generalizing s p l with
  | zero => exact ⟨s, rfl⟩
  | succ k ih =>
    cases l with
    | nil => simp at hk
    | cons e l =>
      obtain ⟨s₁, p₁, h₁, -, hs₁, hc₁⟩ := getNextFreePageKmalloc_cons hs h (hlow e (by simp))
      obtain ⟨s₂, h₂⟩ := ih hs₁ hc₁ (by simpa using hk) fun a ha => hlow a (by simp [ha])
      exact ⟨s₂, calls_succ_eq_ok.mpr ⟨e.2, s₁, _, h₁, h₂, rfl⟩⟩

/-- Past the end of the list the head is `KERNBASE`, which is read as a descriptor. -/
theorem getNextFreePageKmalloc_end {s : FreeList DescStore}
    (hs : s.freeListHeadKmalloc = kernbase + 0) (h0 : s.descs 0 = none) :
    getNextFreePageKmalloc s = .error (.strayRead kernbase) := by
  rw [add_zero] at hs
  rw [getNextFreePageKmalloc, hs, if_neg (by decide), if_pos (by decide),
    show kernbase - kernbase = 0 by decide, page_descStore, h0]

/-- Kernel allocations in order stay within the list and below 2 GiB. -/
theorem of_calls_getNextFreePageKmalloc {k : Nat} {s s' : FreeList DescStore} {p : Word}
    {l : List (Word × Word)} (hs : s.freeListHeadKmalloc = kernbase + p)
    (h : FreeChain s.descs p l) (h0 : s.descs 0 = none) (hf : ∀ e ∈ l, e.2 ≠ 0)
    (hr : calls getNextFreePageKmalloc k s =
      .ok ((l.map Prod.snd).take k ++ List.replicate (k - l.length) 0, s')) :
    k ≤ l.length ∧ ∀ e ∈ l.take k, e.1.toNat < 2 ^ 31 := by
  induction k generalizing s p l with
  | zero => simp
  | succ k ih =>
    obtain ⟨q, s₁, qs, h₁, h₂, hq⟩ := calls_succ_eq_ok.mp hr
    cases l with
    | nil =>
      rw [Linked.chain_nil.mp h] at hs
      rw [getNextFreePageKmalloc_end hs h0] at h₁
      cases h₁
    | cons e l =>
      simp only [List.map_cons, List.take_succ_cons, List.cons_append, List.length_cons,
        Nat.add_sub_add_right, List.cons.injEq] at hq
      obtain ⟨rfl, rfl⟩ := hq
      by_cases hlow : e.1.toNat < 2 ^ 31
      · obtain ⟨s₂, p₂, h₃, hn, hs₂, hc⟩ := getNextFreePageKmalloc_cons hs h hlow
        rw [h₃] at h₁
        cases h₁
        have h0' : s₁.descs 0 = none := by
          rwa [← descNode_eq_none, hn, descNode_eq_none]
        obtain ⟨hk, hl⟩ := ih hs₂ hc h0' (fun a ha => hf a (by simp [ha])) h₂
        refine ⟨by simpa using hk, ?_⟩
        intro a ha
        rcases List.mem_cons.mp ha with rfl | ha
        · exact hlow
        · exact hl a ha
      · obtain rfl := h.1
        rcases getNextFreePageKmalloc_high hs (not_lt.mp hlow) with h₃ | h₃ <;> rw [h₃] at h₁
        · exact absurd (Prod.mk.inj (Except.ok.inj h₁)).1.symm (hf e (by simp))
        · cases h₁

/-- The two allocators hand the frames out in order, and report exhaustion, exactly when no
    kernel allocation runs past the end of the list and none meets a descriptor that has no
    `KERNBASE`-shifted address. -/
theorem allocInOrder_iff (s : FreeList DescStore) (l : List (Word × Word))
    (hl : FreeChain s.descs s.freeListHead l)
    (honly : ∀ p, s.descs p ≠ none → p ∈ l.map Prod.fst) (hf : ∀ e ∈ l, e.2 ≠ 0)
    (m k : Nat) (hm : m ≤ l.length) :
    AllocInOrder s l m k ↔
      m + k ≤ l.length ∧ ∀ e ∈ (l.drop m).take k, e.1.toNat < 2 ^ 31 := by
  obtain ⟨s₁, h₁, hn, hc⟩ := calls_getNextFreePage hl hm
  have hs : (setNewFreeListHead s₁).freeListHeadKmalloc = kernbase + s₁.freeListHead :=
    rfl
  rw [← setNewFreeListHead_descs] at hc
  have hlen : (l.drop m).length = l.length - m := List.length_drop
  have htake : (l.map Prod.snd).take (m + k) =
      (l.map Prod.snd).take m ++ ((l.drop m).map Prod.snd).take k := by
    rw [List.take_add, List.map_drop]
  unfold AllocInOrder allocRun
  simp only [h₁, ok_bind]
  constructor
  · rintro ⟨s', hr⟩
    obtain ⟨⟨qs, s₂⟩, h₂, h₃⟩ := bind_eq_ok.mp hr
    obtain ⟨hqs, rfl⟩ := Prod.mk.inj (Except.ok.inj h₃)
    rw [htake, List.append_assoc, List.append_cancel_left_eq] at hqs
    subst hqs
    have h0 : s.descs 0 = none := by
      by_contra h
      obtain ⟨e, he, he0⟩ := List.mem_map.mp (honly 0 h)
      exact hl.ne_null e he he0
    have h0' : (setNewFreeListHead s₁).descs 0 = none := by
      rwa [setNewFreeListHead_descs, ← descNode_eq_none, hn, descNode_eq_none]
    have hsub : m + k - l.length = k - (l.drop m).length := by omega
    rw [hsub] at h₂
    obtain ⟨hk, hlow⟩ := of_calls_getNextFreePageKmalloc hs hc h0'
      (fun e he => hf e (List.mem_of_mem_drop he)) h₂
    exact ⟨by omega, hlow⟩
  · rintro ⟨hk, hlow⟩
    obtain ⟨s₂, h₂⟩ := calls_getNextFreePageKmalloc hs hc (by omega) hlow
    refine ⟨s₂, bind_eq_ok.mpr ⟨_, h₂, ?_⟩⟩
    rw [htake, show m + k - l.length = 0 by omega, List.replicate_zero, List.append_nil]
    rfl

/-- A free list of three frames, whose descriptors lie behind each other at 3 MiB. -/
def threeFrameList : FreeList DescStore where
  descs p :=
    if p = 0x300000#64 then some ⟨0x300018#64, 0, 0x301000#64⟩
    else if p = 0x300018#64 then some ⟨0x300030#64, 0, 0x302000#64⟩
    else if p = 0x300030#64 then some ⟨0, 0, 0x303000#64⟩
    else none
  freeListHead := 0x300000#64
  freeListHeadKmalloc := 0

/-- Its descriptors and frames. -/
def threeFrames : List (Word × Word) :=
  [(0x300000#64, 0x301000#64), (0x300018#64, 0x302000#64), (0x300030#64, 0x303000#64)]

theorem threeFrameList_chain :
    FreeChain threeFrameList.descs threeFrameList.freeListHead threeFrames :=
  ⟨rfl, by decide, 0x300018#64, by decide, rfl, by decide, 0x300030#64, by decide, rfl, by decide,
    0, by decide, rfl⟩

theorem threeFrameList_only (p : Word) (h : threeFrameList.descs p ≠ none) :
    p ∈ threeFrames.map Prod.fst := by
  unfold threeFrameList at h
  dsimp only at h
  split_ifs at h with h₁ h₂ h₃
  · simp [threeFrames, h₁]
  · simp [threeFrames, h₂]
  · simp [threeFrames, h₃]
  · exact absurd rfl h

/-- The boot allocator takes the first frame, the kernel's the other two. -/
theorem allocInOrder_threeFrames : AllocInOrder threeFrameList threeFrames 1 2 :=
  (allocInOrder_iff threeFrameList threeFrames threeFrameList_chain threeFrameList_only
    (by simp [threeFrames]) 1 2 (by simp [threeFrames])).mpr (by simp [threeFrames])

/-- A free list of one frame, its descriptor at 3 MiB. -/
def oneFrameList : FreeList DescStore where
  descs p := if p = 0x300000#64 then some ⟨0, 0, 0x301000#64⟩ else none
  freeListHead := 0x300000#64
  freeListHeadKmalloc := 0

theorem oneFrameList_chain :
    FreeChain oneFrameList.descs oneFrameList.freeListHead [(0x300000#64, 0x301000#64)] := by
  refine ⟨rfl, by decide, 0, ?_, rfl⟩
  decide

/-- The second allocation from a one-frame list does not report exhaustion: it reads `KERNBASE`
    as a descriptor. -/
theorem allocInOrder_oneFrame_false :
    FreeChain oneFrameList.descs oneFrameList.freeListHead [(0x300000#64, 0x301000#64)] ∧
      allocRun 0 2 oneFrameList = .error (.strayRead kernbase) ∧
      ¬ AllocInOrder oneFrameList [(0x300000#64, 0x301000#64)] 0 2 := by
  have hrun : allocRun 0 2 oneFrameList = .error (.strayRead kernbase) := by
    simp [allocRun, calls, getNextFreePageKmalloc, setNewFreeListHead, oneFrameList, kernbase]
    rfl
  refine ⟨oneFrameList_chain, hrun, ?_⟩
  intro h
  obtain ⟨s', hs'⟩ := h
  rw [hrun] at hs'
  cases hs'

end SBUnix
