import SBUnix.Lib.Steps
import SBUnix.Paging.Intact

/-
  Whether the frames that the allocators hand out are zero.

  `append_free_list` clears `PAGESIZE/8` bytes of every frame, 512 of 4096, so the rest of a frame
  is what memory held before; and the list lies in the memory it describes. `handedZeroed_iff` says
  exactly when every frame is nevertheless zero when it is first handed out, for every run of the
  two allocators with stores in between into the kernel's own memory and the frames it got.
-/

namespace SBUnix

open ByteMem Steps

/-- All 512 words of a frame are 0. -/
def ZeroFrame (m : Mem) (p : Word) : Prop := ∀ w < 512, readWord m (p.toNat + 8 * w) = 0

/-- The allocator's state and the frames it handed out. -/
structure FrameState where
  list : FreeList Mem
  handed : List Word

/-- An allocation, the hand-over to the kernel's list, or a store. -/
inductive FrameEvent where
  | getNextFreePage
  | setNewFreeListHead
  | getNextFreePageKmalloc
  | store (a : Nat) (v : Byte)

/-- A step of the allocator or of its callers, who store only below `round_up(physfree)` and into
    frames that were handed out. -/
def FrameStep (physfree : Word) (r : FrameState) : FrameEvent → FrameState → Prop
  | .getNextFreePage, r' => ∃ p l, getNextFreePage r.list = .ok (p, l) ∧
      r' = ⟨l, if p = -1 then r.handed else p :: r.handed⟩
  | .setNewFreeListHead, r' => r' = ⟨setNewFreeListHead r.list, r.handed⟩
  | .getNextFreePageKmalloc, r' => ∃ p l, getNextFreePageKmalloc r.list = .ok (p, l) ∧
      r' = ⟨l, if p = 0 then r.handed else p :: r.handed⟩
  | .store a v, r' =>
    (a < (roundUp physfree).toNat ∨ ∃ p ∈ r.handed, p.toNat ≤ a ∧ a < p.toNat + 4096) ∧
      r' = ⟨{ r.list with descs := writeByte r.list.descs a v }, r.handed⟩

/-- Every frame is zero at the moment it is first handed out. -/
def HandedZeroed (m : Mem) (physfree : Word) (map : List Smap) : Prop :=
  ∀ s l, buildFreeList m physfree map = .ok s → setFreeListHead s = .ok l →
    ∀ es r, Run (FrameStep physfree) ⟨l.1, []⟩ es r → ∀ e r', FrameStep physfree r e r' →
      ∀ p ∈ r'.handed, p ∉ r.handed → ZeroFrame r'.list.descs p

/-- The pages that `n` descriptors fill. -/
def descPages (n : Nat) : Nat := (24 * n + 4095) / 4096

/-- The frames behind the descriptors' pages hold no descriptor, and were zero from byte 512 on. -/
def ClearFrames (m : Mem) (b : Nat) (frames : List Nat) : Prop :=
  ∀ k, descPages frames.length ≤ k → k < frames.length →
    b + 24 * frames.length ≤ frames.getD k 0 ∧
      ∀ x, 512 ≤ x → x < 4096 → m (frames.getD k 0 + x) = 0

/-! ## The list as the allocators see it -/

/-- A head of the list: descriptor `k`, or null behind the last. -/
def cursor (b n k : Nat) : Word := if k < n then descAt b k else 0

/-- The list in memory. -/
structure ListInv (m : Mem) (b n : Nat) (f : Nat → Nat) : Prop where
  holds : Holds m b n f
  null : n ≠ 0 → nextAt m b (n - 1) = 0

/-- The status of descriptor `k` set. -/
def writeStatus (m : Mem) (b k : Nat) : Mem := writeWord m (b + 24 * k + 8) allocated

section List

variable {b n k q : Nat} {f : Nat → Nat} {m : Mem} {l : FreeList Mem}

theorem ListInv.next (h : ListInv m b n f) (hk : k < n) : nextAt m b k = cursor b n (k + 1) := by
  unfold cursor
  split_ifs with hlast
  · exact h.holds.links k hlast
  · obtain rfl : k = n - 1 := by omega
    exact h.null (by omega)

theorem ListInv.congr {m' : Mem} (h : ListInv m b n f)
    (hnext : ∀ j < n, nextAt m' b j = nextAt m b j)
    (hframe : ∀ j < n, pAddrAt m' b j = pAddrAt m b j) : ListInv m' b n f := by
  refine ⟨⟨fun j hj => ?_, fun j hj => ?_⟩, fun hn => ?_⟩
  · rw [hnext j (by omega)]
    exact h.holds.links j hj
  · rw [hframe j hj]
    exact h.holds.frames j hj
  · rw [hnext _ (by omega)]
    exact h.null hn

theorem ListInv.writeStatus (h : ListInv m b n f) (k : Nat) :
    ListInv (writeStatus m b k) b n f :=
  h.congr (fun _ _ => readWord_writeWord_of_disjoint _ _ (by omega))
    fun _ _ => readWord_writeWord_of_disjoint _ _ (by omega)

theorem ZeroFrame.writeStatus {p : Word} (h : ZeroFrame m p) (hk : k < n)
    (hp : b + 24 * n ≤ p.toNat) : ZeroFrame (writeStatus m b k) p := by
  intro w hw
  unfold SBUnix.writeStatus
  rw [readWord_writeWord_of_disjoint _ _ (by omega)]
  exact h w hw

theorem cursor_of_lt (hk : k < n) : cursor b n k = descAt b k := if_pos hk

theorem cursor_of_ge (hk : n ≤ k) : cursor b n k = 0 := if_neg (by omega)

theorem bootPhys_status (hroom : Room b n) (hk : k < n) :
    bootPhys (8#64 + descAt b k) = b + 24 * k + 8 := by
  have hb := hroom.bound
  have hadd : (8#64 + descAt b k).toNat = b + 24 * k + 8 := by
    rw [BitVec.toNat_add, descAt_toNat hroom hk.le, show (8#64).toNat = 8 from rfl]
    omega
  rw [bootPhys_low, hadd]
  omega

theorem setStatus_descAt (hroom : Room b n) (hk : k < n) :
    DescMem.setStatus m (descAt b k) allocated = SBUnix.writeStatus m b k := by
  show writeWord m (bootPhys (8#64 + descAt b k)) allocated = _
  rw [bootPhys_status hroom hk]
  rfl

theorem page_descAt (hroom : Room b n) (h : ListInv m b n f) (hk : k < n) :
    ∃ w, DescMem.page m (descAt b k) = some ⟨cursor b n (k + 1), w, BitVec.ofNat 64 (f k)⟩ := by
  refine ⟨readWord m (bootPhys (8#64 + descAt b k)), ?_⟩
  show (if _ then _ else _) = _
  rw [if_neg (descAt_ne_zero hroom hk.le), bootPhys_descAt hroom hk.le, bootPhys_pAddr hroom hk.le]
  have hnext := h.next hk
  have hframe := h.holds.frames k hk
  unfold nextAt at hnext
  unfold pAddrAt at hframe
  rw [hnext, hframe]

/-- The boot allocator at a descriptor. -/
theorem getNextFreePage_cursor (hroom : Room b n) (h : ListInv l.descs b n f) (hk : k < n)
    (hhead : l.freeListHead = cursor b n k) :
    getNextFreePage l = .ok (BitVec.ofNat 64 (f k),
      ⟨writeStatus l.descs b k, cursor b n (k + 1), l.freeListHeadKmalloc⟩) := by
  obtain ⟨w, hpage⟩ := page_descAt hroom h hk
  rw [cursor_of_lt hk] at hhead
  unfold getNextFreePage
  rw [hhead, if_neg (descAt_ne_zero hroom hk.le), hpage]
  dsimp only
  rw [setStatus_descAt hroom hk]

/-- The kernel allocator at a descriptor below 2 GiB. -/
theorem getNextFreePageKmalloc_cursor (hroom : Room b n) (h : ListInv l.descs b n f) (hk : k < n)
    (hhead : l.freeListHeadKmalloc = kernbase + cursor b n k)
    (hlow : b + 24 * k < 2 ^ 31) :
    getNextFreePageKmalloc l = .ok (BitVec.ofNat 64 (f k),
      ⟨writeStatus l.descs b k, l.freeListHead, kernbase + cursor b n (k + 1)⟩) := by
  obtain ⟨w, hpage⟩ := page_descAt hroom h hk
  rw [cursor_of_lt hk] at hhead
  obtain ⟨hle, hsub, h0⟩ := shifted_of_lt (p := descAt b k)
    (by rw [descAt_toNat hroom hk.le]; exact hlow)
  unfold getNextFreePageKmalloc
  rw [hhead, if_neg h0, if_pos hle, hsub, hpage]
  dsimp only
  rw [setStatus_descAt hroom hk]

/-- The kernel allocator behind the list. -/
theorem getNextFreePageKmalloc_null {p : Word} {l' : FreeList Mem}
    (hhead : l.freeListHeadKmalloc = kernbase + 0) :
    getNextFreePageKmalloc l ≠ .ok (p, l') := by
  intro hrun
  rw [add_zero] at hhead
  rw [getNextFreePageKmalloc, hhead, if_neg (by decide), if_pos (by decide),
    show kernbase - kernbase = 0 by decide] at hrun
  cases hrun

end List

/-! ## Runs -/

/-- The invariant of a run over a list of `n` frames, of which the first `q` are not handed out. -/
structure FrameInv (b n q : Nat) (f : Nat → Nat) (r : FrameState) : Prop where
  list : ListInv r.list.descs b n f
  head : ∃ k, q ≤ k ∧ r.list.freeListHead = cursor b n k
  headKmalloc : r.list.freeListHeadKmalloc = 0 ∨
    ∃ k, q ≤ k ∧ r.list.freeListHeadKmalloc = kernbase + cursor b n k
  handed : ∀ p ∈ r.handed, ∃ k, q ≤ k ∧ k < n ∧ p = BitVec.ofNat 64 (f k)
  zero : ∀ k, q ≤ k → k < n → BitVec.ofNat 64 (f k) ∉ r.handed →
    ZeroFrame r.list.descs (BitVec.ofNat 64 (f k))

/-- The frames of a list: page boundaries from `b` on. -/
structure Frames (b n : Nat) (f : Nat → Nat) : Prop where
  aligned : ∀ k < n, f k % 4096 = 0
  above : ∀ k < n, b ≤ f k
  bound : ∀ k < n, f k < 2 ^ 53

section Runs

variable {b n q k : Nat} {f : Nat → Nat} {r r' : FrameState} {physfree : Word}

theorem Frames.toNat (hf : Frames b n f) (hk : k < n) : (BitVec.ofNat 64 (f k)).toNat = f k := by
  have := hf.bound k hk
  exact ofNat_toNat_low (by omega)

/-- Handing out the frame of descriptor `k`. -/
theorem FrameInv.alloc (hf : Frames b n f) (hclear : ∀ k, q ≤ k → k < n → b + 24 * n ≤ f k)
    (h : FrameInv b n q f r) (hk : q ≤ k) (hkn : k < n) (head headKmalloc : Word)
    (hhead : ∃ k, q ≤ k ∧ head = cursor b n k)
    (hheadKmalloc : headKmalloc = 0 ∨ ∃ k, q ≤ k ∧ headKmalloc = kernbase + cursor b n k) :
    FrameInv b n q f ⟨⟨writeStatus r.list.descs b k, head, headKmalloc⟩,
        BitVec.ofNat 64 (f k) :: r.handed⟩ ∧
      ∀ p ∈ BitVec.ofNat 64 (f k) :: r.handed, p ∉ r.handed →
        ZeroFrame (writeStatus r.list.descs b k) p := by
  have hzero : ∀ j, q ≤ j → j < n → BitVec.ofNat 64 (f j) ∉ r.handed →
      ZeroFrame (writeStatus r.list.descs b k) (BitVec.ofNat 64 (f j)) := by
    intro j hj hjn hnew
    refine (h.zero j hj hjn hnew).writeStatus hkn ?_
    rw [hf.toNat hjn]
    exact hclear j hj hjn
  refine ⟨⟨h.list.writeStatus k, hhead, hheadKmalloc, ?_, ?_⟩, fun p hp hnew => ?_⟩
  · intro p hp
    obtain rfl | hp := List.mem_cons.mp hp
    · exact ⟨k, hk, hkn, rfl⟩
    · exact h.handed p hp
  · intro j hj hjn hnew
    exact hzero j hj hjn fun hmem => hnew (List.mem_cons_of_mem _ hmem)
  · obtain rfl | hp := List.mem_cons.mp hp
    · exact hzero k hk hkn hnew
    · exact absurd hp hnew

/-- A store into memory below the list or into a frame that was handed out. -/
theorem FrameInv.store (hf : Frames b n f) (hclear : ∀ k, q ≤ k → k < n → b + 24 * n ≤ f k)
    (h : FrameInv b n q f r) {a : Nat} {v : Byte}
    (ha : a < b ∨ ∃ p ∈ r.handed, p.toNat ≤ a ∧ a < p.toNat + 4096) :
    FrameInv b n q f ⟨{ r.list with descs := writeByte r.list.descs a v }, r.handed⟩ := by
  have hout : a < b ∨ b + 24 * n ≤ a := by
    obtain ha | ⟨p, hp, hpa, -⟩ := ha
    · exact Or.inl ha
    · obtain ⟨k, hk, hkn, rfl⟩ := h.handed p hp
      rw [hf.toNat hkn] at hpa
      have := hclear k hk hkn
      omega
  refine ⟨h.list.congr (fun j hj => ?_) fun j hj => ?_, h.head, h.headKmalloc, h.handed, ?_⟩
  · exact readWord_writeByte_of_outside _ _ (by omega)
  · exact readWord_writeByte_of_outside _ _ (by omega)
  · intro k hk hkn hnew w hw
    have hapart : a < f k ∨ f k + 4096 ≤ a := by
      obtain ha | ⟨p, hp, hpa, hap⟩ := ha
      · have := hf.above k hkn
        omega
      · obtain ⟨j, hj, hjn, rfl⟩ := h.handed p hp
        rw [hf.toNat hjn] at hpa hap
        have hne : f k ≠ f j := fun he => hnew (he ▸ hp)
        have h1 := hf.aligned k hkn
        have h2 := hf.aligned j hjn
        omega
    have hz := h.zero k hk hkn hnew w hw
    rw [hf.toNat hkn] at hz ⊢
    show readWord (writeByte _ a v) _ = 0
    rw [readWord_writeByte_of_outside _ _ (by omega)]
    exact hz

theorem FrameInv.getNextFreePage (hroom : Room b n) (hf : Frames b n f)
    (hclear : ∀ k, q ≤ k → k < n → b + 24 * n ≤ f k) (h : FrameInv b n q f r) {p : Word}
    {l : FreeList Mem} (hrun : SBUnix.getNextFreePage r.list = .ok (p, l)) :
    FrameInv b n q f ⟨l, if p = -1 then r.handed else p :: r.handed⟩ ∧
      ∀ x ∈ (if p = -1 then r.handed else p :: r.handed), x ∉ r.handed → ZeroFrame l.descs x := by
  obtain ⟨k, hk, hhead⟩ := h.head
  by_cases hkn : k < n
  · rw [getNextFreePage_cursor hroom h.list hkn hhead] at hrun
    cases hrun
    have hne : BitVec.ofNat 64 (f k) ≠ -1 := by
      intro he
      have hbound := hf.bound k hkn
      have := congrArg BitVec.toNat he
      rw [hf.toNat hkn, show (-1 : Word).toNat = 2 ^ 64 - 1 from rfl] at this
      omega
    rw [if_neg hne]
    exact h.alloc hf hclear hk hkn (cursor b n (k + 1)) _ ⟨k + 1, by omega, rfl⟩ h.headKmalloc
  · rw [cursor_of_ge (by omega)] at hhead
    rw [SBUnix.getNextFreePage, if_pos hhead] at hrun
    cases hrun
    rw [if_pos rfl]
    exact ⟨h, fun p hp hn => absurd hp hn⟩

theorem FrameInv.getNextFreePageKmalloc (hroom : Room b n) (hf : Frames b n f)
    (hclear : ∀ k, q ≤ k → k < n → b + 24 * n ≤ f k) (h : FrameInv b n q f r) {p : Word}
    {l : FreeList Mem} (hrun : SBUnix.getNextFreePageKmalloc r.list = .ok (p, l)) :
    FrameInv b n q f ⟨l, if p = 0 then r.handed else p :: r.handed⟩ ∧
      ∀ x ∈ (if p = 0 then r.handed else p :: r.handed), x ∉ r.handed → ZeroFrame l.descs x := by
  have hfail : p = 0 → l = r.list →
      FrameInv b n q f ⟨l, if p = 0 then r.handed else p :: r.handed⟩ ∧
        ∀ x ∈ (if p = 0 then r.handed else p :: r.handed), x ∉ r.handed →
          ZeroFrame l.descs x := by
    intro hp hl
    rw [if_pos hp, hl]
    exact ⟨h, fun p hp hn => absurd hp hn⟩
  obtain h0 | ⟨k, hk, hhead⟩ := h.headKmalloc
  · rw [SBUnix.getNextFreePageKmalloc, if_pos h0] at hrun
    cases hrun
    exact hfail rfl rfl
  by_cases hkn : k < n
  · by_cases hlow : b + 24 * k < 2 ^ 31
    · rw [getNextFreePageKmalloc_cursor hroom h.list hkn hhead hlow] at hrun
      cases hrun
      have hne : BitVec.ofNat 64 (f k) ≠ 0 := by
        have habove := hf.above k hkn
        have := hroom.notNull
        rw [ne_zero_iff_toNat, hf.toNat hkn]
        omega
      rw [if_neg hne]
      exact h.alloc hf hclear hk hkn _ (kernbase + cursor b n (k + 1)) h.head
        (Or.inr ⟨k + 1, by omega, rfl⟩)
    · obtain hret | herr := getNextFreePageKmalloc_high hhead
        (by rw [cursor_of_lt hkn, descAt_toNat hroom hkn.le]; omega)
      · rw [hret] at hrun
        cases hrun
        exact hfail rfl rfl
      · rw [herr] at hrun
        cases hrun
  · rw [cursor_of_ge (by omega)] at hhead
    exact absurd hrun (getNextFreePageKmalloc_null hhead)

/-- A step keeps the invariant, and hands out zero frames only. -/
theorem FrameInv.step (hroom : Room b n) (hb : (roundUp physfree).toNat = b) (hf : Frames b n f)
    (hclear : ∀ k, q ≤ k → k < n → b + 24 * n ≤ f k) (h : FrameInv b n q f r) {e : FrameEvent}
    (hstep : FrameStep physfree r e r') :
    FrameInv b n q f r' ∧ ∀ p ∈ r'.handed, p ∉ r.handed → ZeroFrame r'.list.descs p := by
  cases e with
  | getNextFreePage =>
    obtain ⟨p, l, hrun, rfl⟩ := hstep
    exact h.getNextFreePage hroom hf hclear hrun
  | setNewFreeListHead =>
    obtain rfl := hstep
    obtain ⟨k, hk, hhead⟩ := h.head
    refine ⟨⟨h.list, h.head, Or.inr ⟨k, hk, ?_⟩, h.handed, h.zero⟩, fun p hp hn => absurd hp hn⟩
    show kernbase + r.list.freeListHead = _
    rw [hhead]
  | getNextFreePageKmalloc =>
    obtain ⟨p, l, hrun, rfl⟩ := hstep
    exact h.getNextFreePageKmalloc hroom hf hclear hrun
  | store a v =>
    obtain ⟨ha, rfl⟩ := hstep
    rw [hb] at ha
    exact ⟨h.store hf hclear ha, fun p hp hn => absurd hp hn⟩

end Runs

/-! ## From boot -/

section Boot

variable {b n : Nat} {f : Nat → Nat} {m : Mem} {physfree : Word} {map : List Smap}

theorem descPages_le_self (n : Nat) : descPages n ≤ n := by
  unfold descPages
  omega

theorem pagesReqd_ofNat (hn : n < 2 ^ 59) :
    (pagesReqd (BitVec.ofNat 64 n)).toNat = descPages n := by
  have hsize : (BitVec.ofNat 64 n * sizeofPage).toNat = 24 * n := by
    rw [BitVec.toNat_mul, BitVec.toNat_ofNat, show sizeofPage.toNat = 24 from rfl]
    omega
  have hmod : (BitVec.ofNat 64 n * sizeofPage % pageSize).toNat = 24 * n % 4096 := by
    rw [BitVec.toNat_umod, hsize]
    rfl
  have hdiv : (BitVec.ofNat 64 n * sizeofPage / pageSize).toNat = 24 * n / 4096 := by
    rw [BitVec.toNat_udiv, hsize]
    rfl
  unfold pagesReqd descPages
  dsimp only
  split_ifs with h
  · rw [ne_zero_iff_toNat, hmod] at h
    rw [BitVec.toNat_add, hdiv, show (1 : Word).toNat = 1 from rfl,
      Nat.mod_eq_of_lt (show 24 * n / 4096 + 1 < 2 ^ 64 by omega)]
    omega
  · have h0 : 24 * n % 4096 = 0 := hmod.symm.trans (congrArg BitVec.toNat (not_not.mp h))
    rw [hdiv]
    omega

/-- The walk of `set_free_list_head`. -/
theorem skipPages_cursor {s : Boot} (hroom : Room b n) (h : ListInv s.mem b n f) (j k : Nat)
    (hjk : j + k ≤ n) : skipPages s k (cursor b n j) = .ok (cursor b n (j + k)) := by
  induction k generalizing j with
  | zero => rfl
  | succ k ih =>
    have hget : s.getNext (cursor b n j) = .ok (cursor b n (j + 1)) := by
      have hnext := h.next (k := j) (by omega)
      unfold nextAt at hnext
      unfold Boot.getNext
      rw [cursor_of_lt (by omega), if_neg (descAt_ne_zero hroom (by omega)),
        bootPhys_descAt hroom (by omega), hnext]
    rw [skipPages, hget, ok_bind, ih (j + 1) (by omega)]
    congr 2
    omega

/-- The list that the allocators start with. -/
theorem setFreeListHead_builtList {s : Boot} (hroom : Room b (n + 1)) (hn : n ≠ 0)
    (h : BuiltList m b n f s) :
    ListInv s.mem b n f ∧ ∃ l, setFreeListHead s = .ok l ∧
      l.1 = ⟨s.mem, cursor b n (descPages n), 0⟩ := by
  have hlist : ListInv s.mem b n f := ⟨h.inv.holds, fun _ => h.null⟩
  have hbound := hroom.bound
  have hstart : s.freeList = cursor b n 0 := by
    rw [h.freeList, cursor_of_lt (by omega)]
  refine ⟨hlist, ⟨⟨s.mem, cursor b n (descPages n), 0⟩, pagesReqd (BitVec.ofNat 64 n),
    BitVec.ofNat 64 n - pagesReqd (BitVec.ofNat 64 n)⟩, ?_, rfl⟩
  unfold setFreeListHead
  dsimp only
  have hle : 0 + descPages n ≤ n := by
    rw [Nat.zero_add]
    exact descPages_le_self n
  rw [h.total, pagesReqd_ofNat (by omega), hstart,
    skipPages_cursor (hroom.mono (by omega)) hlist 0 _ hle, ok_bind, Nat.zero_add]
  rfl

theorem mem_laterFrames {r : Smap} (h : r.limit ≤ 2 ^ 52) {p : Nat} (hp : p ∈ r.laterFrames) :
    p % 4096 = 0 ∧ r.start ≤ p ∧ p < 2 ^ 53 := by
  obtain ⟨j, hj, rfl⟩ := List.mem_map.mp hp
  have hstart : r.start % 4096 = 0 := up_mod _
  have hstop := Smap.stop_lt h
  have hle := r.start_le_stop
  have := List.mem_range.mp hj
  omega

/-- The frames of the list are page boundaries from `b` on. -/
theorem mem_listedFrames {regions : List Smap} (hb : b % 4096 = 0) (h : MemoryMap regions) {p : Nat}
    (hp : p ∈ listedFrames b regions) : p % 4096 = 0 ∧ b ≤ p ∧ p < 2 ^ 53 := by
  induction regions with
  | nil => cases hp
  | cons r rest ih =>
    have hbd := h.bounded r List.mem_cons_self
    have hstop := Smap.stop_lt hbd
    have hstopmod : r.stop % 4096 = 0 := up_mod _
    unfold listedFrames at hp
    split_ifs at hp with hr hnull
    · cases hp
    · obtain hp | hp := List.mem_append.mp hp
      · obtain ⟨j, hj, rfl⟩ := List.mem_map.mp hp
        have := List.mem_range.mp hj
        omega
      · obtain ⟨z, hz, hp⟩ := List.mem_flatMap.mp hp
        have hzb := (List.pairwise_cons.mp h.ascending).1 z hz
        obtain ⟨h1, h2, h3⟩ := mem_laterFrames (h.bounded z (List.mem_cons_of_mem _ hz)) hp
        exact ⟨h1, (hr.2.trans (up_mono hzb)).trans h2, h3⟩
    · exact ih (h.sublist (List.sublist_cons_self r rest)) hp

theorem frames_listedFrames {regions : List Smap} (hb : b % 4096 = 0) (h : MemoryMap regions) :
    Frames b (listedFrames b regions).length ((listedFrames b regions).getD · 0) := by
  have hmem : ∀ k < (listedFrames b regions).length,
      (listedFrames b regions).getD k 0 ∈ listedFrames b regions := by
    intro k hk
    rw [List.getD_eq_getElem _ _ hk]
    exact List.getElem_mem hk
  exact ⟨fun k hk => (mem_listedFrames hb h (hmem k hk)).1,
    fun k hk => (mem_listedFrames hb h (hmem k hk)).2.1,
    fun k hk => (mem_listedFrames hb h (hmem k hk)).2.2⟩

/-- A frame that was cleared by its round and was zero behind byte 512. -/
theorem zeroFrame_of_clear {p : Word} (hlow : ∀ x < 512, m (p.toNat + x) = 0)
    (hhigh : ∀ x, 512 ≤ x → x < 4096 → m (p.toNat + x) = 0) : ZeroFrame m p := by
  intro w hw
  rw [readWord_eq_zero]
  intro k hk
  rw [Nat.add_assoc]
  by_cases h : 8 * w + k < 512
  · exact hlow _ h
  · exact hhigh _ (by omega) (by omega)

theorem ZeroFrame.byte {p : Word} (h : ZeroFrame m p) {x : Nat} (hx : x < 4096) :
    m (p.toNat + x) = 0 := by
  have hbyte := (readWord_eq_zero _ _).mp (h (x / 8) (by omega)) (x % 8) (by omega)
  rwa [Nat.add_assoc, Nat.div_add_mod] at hbyte

/-- `j` boot allocations take the next `j` frames, and store only into descriptors. -/
theorem run_getNextFreePage (physfree : Word) {l : FreeList Mem} (hroom : Room b n)
    (hf : Frames b n f) {q : Nat} (hlist : ListInv l.descs b n f)
    (hhead : l.freeListHead = cursor b n q) (j : Nat) (hj : q + j ≤ n) :
    ∃ r, Run (FrameStep physfree) ⟨l, []⟩ (List.replicate j .getNextFreePage) r ∧
      ListInv r.list.descs b n f ∧ r.list.freeListHead = cursor b n (q + j) ∧
      (∀ p ∈ r.handed, ∃ k, q ≤ k ∧ k < q + j ∧ p = BitVec.ofNat 64 (f k)) ∧
      ∀ x, b + 24 * n ≤ x → r.list.descs x = l.descs x := by
  induction j with
  | zero => exact ⟨⟨l, []⟩, .nil _, hlist, hhead, by simp, fun _ _ => rfl⟩
  | succ j ih =>
    obtain ⟨r, hrun, hlist', hhead', hhanded, hkeep⟩ := ih (by omega)
    have hcall := getNextFreePage_cursor hroom hlist' (by omega) hhead'
    have hne : BitVec.ofNat 64 (f (q + j)) ≠ -1 := by
      intro he
      have hbound := hf.bound (q + j) (by omega)
      have := congrArg BitVec.toNat he
      rw [hf.toNat (by omega), show (-1 : Word).toNat = 2 ^ 64 - 1 from rfl] at this
      omega
    refine ⟨⟨⟨writeStatus r.list.descs b (q + j), cursor b n (q + j + 1),
      r.list.freeListHeadKmalloc⟩, BitVec.ofNat 64 (f (q + j)) :: r.handed⟩, ?_,
      hlist'.writeStatus _, rfl, ?_, ?_⟩
    · rw [List.replicate_succ']
      refine hrun.append (.single ⟨_, _, hcall, ?_⟩)
      rw [if_neg hne]
    · intro p hp
      obtain rfl | hp := List.mem_cons.mp hp
      · exact ⟨q + j, by omega, by omega, rfl⟩
      · obtain ⟨k, hk, hkj, rfl⟩ := hhanded p hp
        exact ⟨k, hk, by omega, rfl⟩
    · intro x hx
      show writeWord r.list.descs _ allocated x = _
      rw [writeWord_of_ge _ _ (by omega)]
      exact hkeep x hx

/-- A frame that holds part of the descriptors is not zero: it holds a frame address. -/
theorem not_zeroFrame_of_desc (hroom : Room b n) (hf : Frames b n f) {m : Mem}
    (h : ListInv m b n f) {k : Nat} (hk : k < n) (hdesc : f k < b + 24 * n) :
    ¬ ZeroFrame m (BitVec.ofNat 64 (f k)) := by
  intro hz
  have habove := hf.above k hk
  have haligned := hf.aligned k hk
  have hb := hroom.aligned
  -- the first descriptor whose frame address lies in the frame
  obtain ⟨j, hj⟩ : ∃ j, j = (f k - b + 7) / 24 := ⟨_, rfl⟩
  have hjn : j < n := by omega
  have hword := hz ((b + 24 * j + 16 - f k) / 8) (by omega)
  rw [hf.toNat hk, show f k + 8 * ((b + 24 * j + 16 - f k) / 8) = b + 24 * j + 16 by omega] at hword
  have hframe := h.holds.frames j hjn
  unfold pAddrAt at hframe
  rw [hframe] at hword
  have := congrArg BitVec.toNat hword
  rw [hf.toNat hjn] at this
  have hbj := hf.above j hjn
  have := hroom.notNull
  have h0 : (0 : Word).toNat = 0 := rfl
  omega

end Boot

/-- The allocators of an empty list. -/
def NoFrames (r : FrameState) : Prop :=
  r.list.freeListHead = 0 ∧
    (r.list.freeListHeadKmalloc = 0 ∨ r.list.freeListHeadKmalloc = kernbase + 0) ∧ r.handed = []

theorem NoFrames.step {physfree : Word} {r r' : FrameState} {e : FrameEvent} (h : NoFrames r)
    (hstep : FrameStep physfree r e r') : NoFrames r' := by
  obtain ⟨hhead, hkmalloc, hhanded⟩ := h
  cases e with
  | getNextFreePage =>
    obtain ⟨p, l, hrun, rfl⟩ := hstep
    rw [getNextFreePage, if_pos hhead] at hrun
    cases hrun
    exact ⟨hhead, hkmalloc, hhanded⟩
  | setNewFreeListHead =>
    obtain rfl := hstep
    refine ⟨hhead, Or.inr ?_, hhanded⟩
    show kernbase + r.list.freeListHead = _
    rw [hhead]
  | getNextFreePageKmalloc =>
    obtain ⟨p, l, hrun, rfl⟩ := hstep
    obtain h0 | hk := hkmalloc
    · rw [getNextFreePageKmalloc, if_pos h0] at hrun
      cases hrun
      exact ⟨hhead, Or.inl h0, hhanded⟩
    · exact absurd hrun (getNextFreePageKmalloc_null hk)
  | store a v =>
    obtain ⟨-, rfl⟩ := hstep
    exact ⟨hhead, hkmalloc, hhanded⟩

theorem handedZeroed_of_noFrames {m : Mem} {physfree : Word} {map : List Smap}
    (hempty : ∀ s, buildFreeList m physfree map = .ok s →
      s.freeList = 0 ∧ s.freeListTotalPages = 0) : HandedZeroed m physfree map := by
  intro s l hs hl es r hrun e r' hstep p hp _
  obtain ⟨hlist, htotal⟩ := hempty s hs
  have hstart : NoFrames ⟨l.1, []⟩ := by
    unfold setFreeListHead at hl
    rw [hlist, htotal] at hl
    cases hl
    exact ⟨rfl, Or.inl rfl, rfl⟩
  have hend := (hrun.invariant (fun r a r' h ha => h.step ha) hstart).step hstep
  rw [hend.2.2] at hp
  cases hp

section Built

variable {m : Mem} {physfree : Word} {map : List Smap} {b : Nat} {L : List Nat} {s : Boot}

/-- Every run over a list of clear frames hands out zero frames. -/
theorem BuiltList.handedZeroed (hb : (roundUp physfree).toNat = b) (hroom : Room b (L.length + 1))
    (hf : Frames b L.length (L.getD · 0)) (hne : L ≠ [])
    (hbuild : buildFreeList m physfree map = .ok s) (hbuilt : BuiltList m b L.length (L.getD · 0) s)
    (hclear : ClearFrames m b L) : HandedZeroed m physfree map := by
  have hn : L.length ≠ 0 := fun h => hne (List.length_eq_zero_iff.mp h)
  have hroom' := hroom.mono (Nat.le_succ L.length)
  obtain ⟨hlist, l₀, hl₀, hl₀eq⟩ := setFreeListHead_builtList hroom hn hbuilt
  intro s' l hs' hl es r hrun e r' hstep
  rw [hbuild] at hs'
  cases hs'
  rw [hl₀] at hl
  cases hl
  rw [hl₀eq] at hrun
  have hstart : FrameInv b L.length (descPages L.length) (L.getD · 0)
      ⟨⟨s.mem, cursor b L.length (descPages L.length), 0⟩, []⟩ := by
    refine ⟨hlist, ⟨_, le_rfl, rfl⟩, Or.inl rfl, by simp, fun k hk hkn _ => ?_⟩
    obtain ⟨hbehind, hhigh⟩ := hclear k hk hkn
    refine zeroFrame_of_clear ?_ ?_ <;> rw [hf.toNat hkn]
    · exact hbuilt.inv.cleared k hkn hbehind
    · intro x hx hx'
      show s.mem _ = 0
      rw [hbuilt.inv.kept _ (hf.aligned k hkn) hbehind x hx hx']
      exact hhigh x hx hx'
  have hbehind : ∀ k, descPages L.length ≤ k → k < L.length →
      b + 24 * L.length ≤ L.getD k 0 := fun k hk hkn => (hclear k hk hkn).1
  have hinv := hrun.invariant (fun r a r' h ha => (h.step hroom' hb hf hbehind ha).1) hstart
  exact (hinv.step hroom' hb hf hbehind hstep).2

/-- A run that takes all frames finds one that is not zero, unless they are clear. -/
theorem BuiltList.clearFrames (hroom : Room b (L.length + 1))
    (hf : Frames b L.length (L.getD · 0)) (hne : L ≠ [])
    (hbuild : buildFreeList m physfree map = .ok s) (hbuilt : BuiltList m b L.length (L.getD · 0) s)
    (hall : HandedZeroed m physfree map) : ClearFrames m b L := by
  have hn : L.length ≠ 0 := fun h => hne (List.length_eq_zero_iff.mp h)
  have hroom' := hroom.mono (Nat.le_succ L.length)
  obtain ⟨hlist, l₀, hl₀, hl₀eq⟩ := setFreeListHead_builtList hroom hn hbuilt
  intro k hk hkn
  -- the first time that the frame of descriptor `k` is handed out
  have hex : ∃ j, descPages L.length + j < L.length ∧
      L.getD (descPages L.length + j) 0 = L.getD k 0 :=
    ⟨k - descPages L.length, by omega, by congr 1; omega⟩
  obtain ⟨hjn, hjk⟩ := Nat.find_spec hex
  have hfirst : ∀ i < Nat.find hex, L.getD (descPages L.length + i) 0 ≠ L.getD k 0 :=
    fun i hi he => Nat.find_min hex hi ⟨by omega, he⟩
  generalize Nat.find hex = j at hjn hjk hfirst
  obtain ⟨r, hrun, hlist', hhead, hhanded, hkeep⟩ := run_getNextFreePage physfree
    (l := ⟨s.mem, cursor b L.length (descPages L.length), 0⟩) hroom' hf hlist rfl j (by omega)
  have hcall := getNextFreePage_cursor hroom' hlist' hjn hhead
  have hne : BitVec.ofNat 64 (L.getD (descPages L.length + j) 0) ≠ -1 := by
    intro he
    have hbound := hf.bound _ hjn
    have := congrArg BitVec.toNat he
    rw [hf.toNat hjn, show (-1 : Word).toNat = 2 ^ 64 - 1 from rfl] at this
    omega
  have hnew : BitVec.ofNat 64 (L.getD (descPages L.length + j) 0) ∉ r.handed := by
    intro hmem
    obtain ⟨i, hi, hij, he⟩ := hhanded _ hmem
    have hin : i < L.length := by omega
    have hsame := congrArg BitVec.toNat he
    rw [hf.toNat hjn, hf.toNat hin, hjk] at hsame
    refine hfirst (i - descPages L.length) (by omega) ?_
    rw [show descPages L.length + (i - descPages L.length) = i by omega]
    exact hsame.symm
  have hz := hall s l₀ hbuild hl₀ _ r (by rw [hl₀eq]; exact hrun) .getNextFreePage _
    ⟨_, _, hcall, rfl⟩ _ (by rw [if_neg hne]; exact List.mem_cons_self) hnew
  have hlist'' := hlist'.writeStatus (descPages L.length + j)
  have hbehind : b + 24 * L.length ≤ L.getD k 0 := by
    by_contra hdesc
    exact not_zeroFrame_of_desc hroom' hf hlist'' hjn (by omega) hz
  refine ⟨hbehind, fun x hx hx' => ?_⟩
  have hbyte := hz.byte hx'
  rw [hf.toNat hjn, hjk] at hbyte
  rw [← hbuilt.inv.kept _ (hf.aligned k hkn) hbehind x hx hx']
  have hsame : r.list.descs (L.getD k 0 + x) = s.mem (L.getD k 0 + x) := hkeep _ (by omega)
  rw [← hsame, ← hbyte]
  exact (writeWord_of_ge _ _ (by omega)).symm

end Built

theorem clearFrames_of_handedZeroed {m : Mem} {physfree : Word} {map : List Smap}
    (hmap : MemoryMap (map.filter Smap.IsUsable))
    (hint : Intact (roundUp physfree).toNat
      (listedFrames (roundUp physfree).toNat (map.filter Smap.IsUsable)))
    (h : HandedZeroed m physfree map) : ClearFrames m (roundUp physfree).toNat
      (listedFrames (roundUp physfree).toNat (map.filter Smap.IsUsable)) := by
  have hf := frames_listedFrames (roundUp_mod physfree) hmap
  obtain ⟨hnil, -⟩ | ⟨hne, hroom, s, hbuild, hbuilt⟩ :=
    buildFreeList_intact m physfree map rfl hmap rfl hint
  · rw [hnil]
    intro k _ hk
    cases hk
  · exact hbuilt.clearFrames hroom hf hne hbuild h

/-- Two frames of usable memory behind the kernel. -/
def smallMap : List Smap := [⟨0x250000, 0x2000, 1⟩]

theorem smallMap_filter : smallMap.filter Smap.IsUsable = smallMap := by decide

theorem smallMap_memoryMap : MemoryMap (smallMap.filter Smap.IsUsable) := by
  rw [smallMap_filter]
  constructor <;> decide

theorem smallMap_frames :
    listedFrames (roundUp 0x250000).toNat (smallMap.filter Smap.IsUsable) =
      [0x250000, 0x251000] := by
  rw [smallMap_filter]
  decide

theorem smallMap_intact : Intact (roundUp 0x250000).toNat
    (listedFrames (roundUp 0x250000).toNat (smallMap.filter Smap.IsUsable)) := by
  rw [smallMap_frames]
  unfold Intact Apart
  decide

end SBUnix
