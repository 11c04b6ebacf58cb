import SBUnix.Paging.FreeListExact

/-
  The list that a memory map gives when no round clears a descriptor.

  `listedFrames` is the list by address arithmetic alone. As long as the frames it names are
  cleared off the descriptors written before them (`Intact`), the loops leave exactly this list
  in memory, and of every frame behind the descriptors they clear the first 512 bytes and keep
  the others (`buildFreeList_intact`).
-/

namespace SBUnix

open ByteMem

/-- The frames that a later region adds: its end included. -/
def Smap.laterFrames (r : Smap) : List Nat :=
  (List.range ((r.stop - r.start) / 4096 + 1)).map fun j => r.start + 4096 * j

/-- The frames of the list, by address arithmetic: nothing where the code stops at a null
    descriptor. -/
def listedFrames (b : Nat) : List Smap → List Nat
  | [] => []
  | r :: rs =>
    if r.Straddles b then
      if b = 0 ∨ b = r.stop then []
      else (List.range ((r.stop - b) / 4096)).map (fun j => b + 4096 * j) ++
        rs.flatMap Smap.laterFrames
    else listedFrames b rs

/-- Regions before the first that is accepted add nothing. -/
theorem listedFrames_append {b : Nat} {before : List Smap} (h : ∀ r ∈ before, ¬ r.Straddles b)
    (rest : List Smap) : listedFrames b (before ++ rest) = listedFrames b rest := by
  induction before with
  | nil => rfl
  | cons r before ih =>
    rw [List.cons_append, listedFrames, if_neg (h r List.mem_cons_self)]
    exact ih fun r' hr' => h r' (List.mem_cons_of_mem _ hr')

/-- No frame of the list is cleared over a descriptor written before. -/
def Intact (b : Nat) (frames : List Nat) : Prop :=
  ∀ k < frames.length, Apart b k (frames.getD k 0)

/-- What `t` rounds make of the memory `m₀`, for a list of `n` descriptors with the frames `f`. -/
structure BuildInv (m₀ m : Mem) (b n t : Nat) (f : Nat → Nat) : Prop where
  holds : Holds m b t f
  kept : ∀ p, p % 4096 = 0 → b + 24 * n ≤ p → ∀ x, 512 ≤ x → x < 4096 → m (p + x) = m₀ (p + x)
  cleared : ∀ k < t, b + 24 * n ≤ f k → ∀ x < 512, m (f k + x) = 0

section Rounds

variable {m₀ m : Mem} {b n t : Nat} {f : Nat → Nat}

/-- Clearing a frame changes no byte of a page from byte 512 on. -/
theorem clearMem_kept {i p x : Nat} (hi : i % 4096 = 0) (hp : p % 4096 = 0) (hx : 512 ≤ x)
    (hx' : x < 4096) : clearMem m i (p + x) = m (p + x) := by
  have ha := aliasFrame_mod hi
  unfold clearMem
  rw [fill_of_outside _ 0 (by omega), fill_of_outside _ 0 (by omega)]

theorem clearMem_zero {i x : Nat} (hx : m x = 0) : clearMem m i x = 0 := by
  unfold clearMem fill
  split_ifs
  · rfl
  · rfl
  · exact hx

theorem clearMem_self (m : Mem) (i : Nat) {x : Nat} (hx : x < 512) : clearMem m i (i + x) = 0 := by
  unfold clearMem fill
  split_ifs
  · rfl
  · rfl
  · omega

/-- A round clears its frame; its two stores go to descriptors. -/
theorem BuildInv.round (h : BuildInv m₀ m b n t f) {m' : Mem} (hft : f t % 4096 = 0)
    (hholds : Holds m' b (t + 1) f)
    (hout : ∀ x, b + 24 * n ≤ x → m' x = clearMem m (f t) x) :
    BuildInv m₀ m' b n (t + 1) f := by
  refine ⟨hholds, ?_, ?_⟩
  · intro p hp hbp x hx hx'
    rw [hout _ (by omega), clearMem_kept hft hp hx hx']
    exact h.kept p hp hbp x hx hx'
  · intro k hk hbk x hx
    rw [hout _ (by omega)]
    by_cases hkt : k = t
    · rw [hkt]
      exact clearMem_self m (f t) hx
    · exact clearMem_zero (h.cleared k (by omega) hbk x hx)

theorem BuildInv.writeNext (h : BuildInv m₀ m b n t f) {j : Nat} (hj : j + 1 = t) (hn : t ≤ n)
    (w : Word) : BuildInv m₀ (writeWord m (b + 24 * j) w) b n t f := by
  refine ⟨⟨fun i hi => ?_, fun i hi => ?_⟩, ?_, ?_⟩
  · rw [nextAt_writeNext, if_neg (by omega)]
    exact h.holds.links i hi
  · rw [pAddrAt_writeNext]
    exact h.holds.frames i hi
  · intro p hp hbp x hx hx'
    rw [writeWord_of_ge m w (by omega)]
    exact h.kept p hp hbp x hx hx'
  · intro k hk hbk x hx
    rw [writeWord_of_ge m w (by omega)]
    exact h.cleared k hk hbk x hx

theorem BuildInv.firstRound (h : BuildInv m₀ m b n t f) (hr : Reaches m b t) (ht : t + 1 ≤ n)
    (hft : f t % 4096 = 0) (hap : Apart b t (f t)) :
    Reaches (firstRound b t (f t) m) b (t + 1) ∧
      BuildInv m₀ (firstRound b t (f t) m) b n (t + 1) f := by
  obtain ⟨hr', hh⟩ := firstRound_holds hr h.holds hap
  refine ⟨hr', h.round hft hh fun x hx => ?_⟩
  unfold SBUnix.firstRound
  rw [writeWord_of_ge _ _ (by omega), writeWord_of_ge _ _ (by omega)]

theorem laterRound_holds (h : Holds m b (t + 1) f) (hap : Apart b (t + 1) (f (t + 1))) :
    Holds (laterRound b t (f (t + 1)) m) b (t + 2) f := by
  refine ⟨fun j hj => ?_, fun j hj => ?_⟩
  · unfold laterRound
    rw [nextAt_writePAddr, nextAt_clearMem hap (by omega), nextAt_writeNext]
    split_ifs with hjt
    · rw [hjt]
    · exact h.links j (by omega)
  · unfold laterRound
    rw [pAddrAt_writePAddr]
    split_ifs with hjt
    · rw [hjt]
    · rw [pAddrAt_clearMem hap (by omega), pAddrAt_writeNext]
      exact h.frames j (by omega)

theorem BuildInv.laterRound (h : BuildInv m₀ m b n (t + 1) f) (ht : t + 2 ≤ n)
    (hft : f (t + 1) % 4096 = 0) (hap : Apart b (t + 1) (f (t + 1))) :
    BuildInv m₀ (laterRound b t (f (t + 1)) m) b n (t + 2) f := by
  have hlink : BuildInv m₀ (writeWord m (b + 24 * t) (descAt b (t + 1))) b n (t + 1) f :=
    h.writeNext rfl (by omega) _
  refine hlink.round hft (laterRound_holds h.holds hap) fun x hx => ?_
  unfold SBUnix.laterRound
  exact writeWord_of_ge _ _ (by omega)

/-- The rounds of the first region. -/
theorem firstMem_intact (hn : t ≤ n) (hb : b % 4096 = 0) (m₀ : Mem)
    (hf : ∀ j < t, f j = b + 4096 * j) (hap : ∀ k < t, Apart b k (f k)) :
    Reaches (firstMem b b m₀ t) b t ∧ BuildInv m₀ (firstMem b b m₀ t) b n t f := by
  induction t with
  | zero =>
    exact ⟨fun j hj => absurd hj (by omega), ⟨by omega, by omega⟩, fun _ _ _ _ _ _ => rfl,
      by omega⟩
  | succ t ih =>
    obtain ⟨hr, hinv⟩ := ih (by omega) (fun j hj => hf j (by omega)) fun k hk => hap k (by omega)
    have hft := hf t (by omega)
    have hround := hinv.firstRound hr hn (by omega) (hap t (by omega))
    rw [hft] at hround
    exact hround

/-- The rounds of a later region. -/
theorem laterMem_intact {i r : Nat} (hn : t + 1 + r ≤ n) (hi : i % 4096 = 0)
    (h : BuildInv m₀ m b n (t + 1) f) (hf : ∀ j < r, f (t + 1 + j) = i + 4096 * j)
    (hap : ∀ k < r, Apart b (t + 1 + k) (f (t + 1 + k))) :
    BuildInv m₀ (laterMem b t i m r) b n (t + 1 + r) f := by
  induction r with
  | zero => exact h
  | succ r ih =>
    have hinv := ih (by omega) (fun j hj => hf j (by omega)) fun k hk => hap k (by omega)
    have hft := hf r (by omega)
    have heq : t + 1 + r = t + r + 1 := by omega
    rw [heq] at hinv hft
    have hround := hinv.laterRound (by omega) (by omega) (heq ▸ hap r (by omega))
    rw [hft] at hround
    rw [show t + 1 + (r + 1) = t + r + 2 by omega]
    exact hround

end Rounds

/-! ## Regions -/

section Regions

variable {b n T lim : Nat} {f : Nat → Nat} {m₀ : Mem} {s : Boot} {physfree : Word}
  {regions : List Smap} {r : Smap}

theorem Holds.listed {m : Mem} (h : Holds m b T f) (hT : 0 < T) (hnull : nextAt m b (T - 1) = 0) :
    Listed m b T := by
  refine ⟨hT, fun j hj => ?_, hnull⟩
  by_cases hlast : j + 1 < T
  · exact Or.inl (h.links j hlast)
  · obtain rfl : j = T - 1 := by omega
    exact Or.inr hnull

theorem Smap.length_laterFrames {k : Nat} (hk : r.stop = r.start + 4096 * k) :
    r.laterFrames.length = k + 1 := by
  unfold Smap.laterFrames
  rw [List.length_map, List.length_range]
  omega

theorem Smap.getD_laterFrames {k : Nat} (hk : r.stop = r.start + 4096 * k) {j : Nat}
    (hj : j < k + 1) : r.laterFrames.getD j 0 = r.start + 4096 * j := by
  have hlen : j < (r.stop - r.start) / 4096 + 1 := by omega
  unfold Smap.laterFrames
  simp [List.getD_eq_getElem?_getD, hlen]

/-- A memory map has at most two frames for each of its bytes. -/
theorem length_flatMap_laterFrames (h : MemoryMap regions)
    (hafter : ∀ r ∈ regions, lim ≤ r.base.toNat) (hlim : lim ≤ 2 ^ 52) :
    2 * lim + (regions.flatMap Smap.laterFrames).length ≤ 2 ^ 53 := by
  induction regions generalizing lim with
  | nil =>
    rw [List.flatMap_nil, List.length_nil]
    omega
  | cons r rest ih =>
    obtain ⟨k, hk⟩ := r.exists_rounds
    have hrounds := Smap.rounds_le (h.usable r List.mem_cons_self) hk
    have hbase := hafter r List.mem_cons_self
    have hrest := ih (h.sublist (List.sublist_cons_self r rest))
      (List.pairwise_cons.mp h.ascending).1 (h.bounded r List.mem_cons_self)
    have hlimit : r.limit = r.base.toNat + r.length.toNat := rfl
    rw [List.flatMap_cons, List.length_append, Smap.length_laterFrames hk]
    omega

/-- The state after a list of `n` descriptors was built. -/
structure BuiltList (m₀ : Mem) (b n : Nat) (f : Nat → Nat) (s : Boot) : Prop where
  freeList : s.freeList = descAt b 0
  inv : BuildInv m₀ s.mem b n n f
  null : nextAt s.mem b (n - 1) = 0
  total : s.freeListTotalPages = BitVec.ofNat 64 n

/-- Later regions. -/
theorem appendRegions_intact (hb : (roundUp physfree).toNat = b) (hroom : Room b (n + 1))
    (hap : ∀ k < n, Apart b k (f k)) (h : MemoryMap regions)
    (hafter : ∀ r ∈ regions, lim ≤ r.base.toNat) (hlim : b ≤ up lim) (hT : 0 < T)
    (hn : T + (regions.flatMap Smap.laterFrames).length = n)
    (hf : ∀ j, T + j < n → f (T + j) = (regions.flatMap Smap.laterFrames).getD j 0)
    (hlist : s.freeList = descAt b 0) (hinv : BuildInv m₀ s.mem b n T f)
    (hnull : nextAt s.mem b (T - 1) = 0) (htotal : s.freeListTotalPages = BitVec.ofNat 64 T) :
    ∃ s', appendRegions physfree regions s = .ok s' ∧ BuiltList m₀ b n f s' := by
  induction regions generalizing s T lim with
  | nil =>
    obtain rfl : T = n := hn
    exact ⟨s, rfl, hlist, hinv, hnull, htotal⟩
  | cons r rest ih =>
    obtain ⟨k, hk⟩ := r.exists_rounds
    have hu := h.usable r List.mem_cons_self
    have hbd := h.bounded r List.mem_cons_self
    have hstart : b ≤ r.start := hlim.trans (up_mono (hafter r List.mem_cons_self))
    have hlen := Smap.length_laterFrames hk
    rw [List.flatMap_cons] at hn hf
    rw [List.length_append, hlen] at hn
    obtain ⟨t, ht, -, hstop, hrun⟩ := appendFreeList_later (n := k) hbd hb (hroom.mono (by omega))
      hlist (hinv.holds.listed hT hnull) hstart hk
    -- the walk stops at the last descriptor, the only one with a null link
    obtain rfl : T = t + 1 := by
      by_contra hne
      have hlink := hinv.holds.links t (by omega)
      rw [hstop] at hlink
      exact descAt_ne_zero hroom (by omega) hlink.symm
    have hf₁ : ∀ j < k + 1, f (t + 1 + j) = r.start + 4096 * j := by
      intro j hj
      rw [hf j (by omega), List.getD_append _ _ _ _ (by omega), Smap.getD_laterFrames hk hj]
    have hround := laterMem_intact (t := t) (r := k + 1) (by omega) (up_mod _) hinv hf₁
      fun j hj => hap _ (by omega)
    have hend := hround.writeNext (j := t + k + 1) (by omega) (by omega) 0
    have hcount : s.freeListTotalPages + BitVec.ofNat 64 (k + 1) =
        BitVec.ofNat 64 (t + 1 + (k + 1)) := by
      rw [htotal, ← BitVec.ofNat_add]
    have hf₂ : ∀ j, t + 1 + (k + 1) + j < n →
        f (t + 1 + (k + 1) + j) = (rest.flatMap Smap.laterFrames).getD j 0 := by
      intro j hj
      rw [Nat.add_assoc, hf _ (by omega), List.getD_append_right _ _ _ _ (by omega), hlen,
        Nat.add_sub_cancel_left]
    have hnull' : nextAt (writeWord (laterMem b t r.start s.mem (k + 1)) (b + 24 * (t + k + 1)) 0) b
        (t + 1 + (k + 1) - 1) = 0 := by
      rw [nextAt_writeNext, if_pos (by omega)]
    obtain ⟨s', hrun', hbuilt⟩ := ih (T := t + 1 + (k + 1))
      (s := ⟨writeWord (laterMem b t r.start s.mem (k + 1)) (b + 24 * (t + k + 1)) 0, descAt b 0,
        s.freeListTotalPages + BitVec.ofNat 64 (k + 1)⟩)
      (h.sublist (List.sublist_cons_self r rest)) (List.pairwise_cons.mp h.ascending).1
      (hstart.trans r.start_le_stop) (by omega) (by omega) hf₂ rfl hend hnull' hcount
    refine ⟨s', ?_, hbuilt⟩
    rw [appendRegions_cons hu, hrun, ok_bind, hrun']

/-- The frames of the region that starts the list, and those of the later ones. -/
theorem getD_listed {k : Nat} {later L : List Nat}
    (hL : (List.range k).map (fun j => b + 4096 * j) ++ later = L) :
    (∀ j < k, L.getD j 0 = b + 4096 * j) ∧ ∀ j, L.getD (k + j) 0 = later.getD j 0 := by
  subst hL
  constructor
  · intro j hj
    rw [List.getD_append _ _ _ _ (by simpa using hj)]
    simp [List.getD_eq_getElem?_getD, hj]
  · intro j
    rw [List.getD_append_right _ _ _ _ (by simp)]
    simp

/-- The region that starts an intact list, and the later ones. -/
theorem MemoryMap.built {r : Smap} {before after : List Smap} {k : Nat} {L : List Nat}
    (hmap : MemoryMap (before ++ r :: after)) (hb : (roundUp physfree).toNat = b) (hb0 : b ≠ 0)
    (hr : r.Straddles b) (hk : r.stop = b + 4096 * k) (hk0 : k ≠ 0)
    (hL : (List.range k).map (fun j => b + 4096 * j) ++ after.flatMap Smap.laterFrames = L)
    (hint : Intact b L) (m : Mem) :
    Room b (L.length + 1) ∧ ∃ s,
      (appendFreeList r.base (r.base + r.length) physfree (initializeFreeList m) >>=
        appendRegions physfree after) = .ok s ∧ BuiltList m b L.length (L.getD · 0) s := by
  have hmod : b % 4096 = 0 := hb ▸ roundUp_mod physfree
  have hbd := hmap.bounded r (List.mem_append_right _ List.mem_cons_self)
  have hsub : MemoryMap after := hmap.sublist ((List.sublist_cons_self r after).trans
    (List.sublist_append_right _ _))
  have hasc := (List.pairwise_cons.mp (List.pairwise_append.mp hmap.ascending).2.1).1
  have hcount := length_flatMap_laterFrames hsub hasc hbd
  have hlen : L.length = k + (after.flatMap Smap.laterFrames).length := by
    rw [← hL, List.length_append, List.length_map, List.length_range]
  have hroom : Room b (L.length + 1) := by
    have := le_up r.limit
    unfold Smap.stop at hk
    exact ⟨hb0, hmod, by omega⟩
  obtain ⟨-, hfirst⟩ := appendFreeList_first (s := initializeFreeList m) hbd rfl (hb ▸ hr) hb
    hb0 hk hk0
  obtain ⟨hf₁, hf₂⟩ := getD_listed hL
  have hinv := (firstMem_intact (n := L.length) (t := k) (f := (L.getD · 0)) (by omega) hmod m hf₁
    fun j hj => hint j (by omega)).2.writeNext (j := k - 1) (by omega) (by omega) 0
  obtain ⟨s', hrun, hbuilt⟩ := appendRegions_intact (s := firstState b k (initializeFreeList m))
    (T := k) hb hroom hint hsub hasc hr.2 (by omega) hlen.symm (fun j _ => hf₂ j) rfl hinv
    (by
      show nextAt (writeWord _ _ 0) b _ = 0
      rw [nextAt_writeNext, if_pos rfl])
    (by
      show (0 : Word) + _ = _
      rw [zero_add])
  refine ⟨hroom, s', ?_, hbuilt⟩
  rw [hfirst, ok_bind, hrun]

end Regions

/-- Building an intact list succeeds with that list, or stops at a null descriptor. -/
theorem buildFreeList_intact (m : Mem) (physfree : Word) (map : List Smap) {b : Nat}
    (hb : (roundUp physfree).toNat = b) (hmap : MemoryMap (map.filter Smap.IsUsable))
    {L : List Nat} (hL : listedFrames b (map.filter Smap.IsUsable) = L) (hint : Intact b L) :
    (L = [] ∧ ∀ s, buildFreeList m physfree map = .ok s →
        s.freeList = 0 ∧ s.freeListTotalPages = 0) ∨
      (L ≠ [] ∧ Room b (L.length + 1) ∧ ∃ s, buildFreeList m physfree map = .ok s ∧
        BuiltList m b L.length (L.getD · 0) s) := by
  unfold buildFreeList
  rw [appendRegions_filter]
  generalize map.filter Smap.IsUsable = regions at hmap hL
  obtain hidle | ⟨before, r, after, rfl, hr, hbefore⟩ := exists_first_straddling regions b
  · have hnil : listedFrames b regions = [] := by
      have := listedFrames_append hidle []
      rwa [List.append_nil] at this
    refine Or.inl ⟨hL.symm.trans hnil, fun s hs => ?_⟩
    rw [appendRegions_idle hmap rfl (hb.symm ▸ hidle)] at hs
    cases hs
    exact ⟨rfl, rfl⟩
  rw [listedFrames_append hbefore, listedFrames, if_pos hr] at hL
  have hmem : r ∈ before ++ r :: after := List.mem_append_right _ List.mem_cons_self
  rw [appendRegions_first hmap rfl (hb.symm ▸ hbefore)]
  by_cases hnull : b = 0 ∨ b = r.stop
  · rw [if_pos hnull] at hL
    refine Or.inl ⟨hL.symm, fun s hs => ?_⟩
    rw [appendFreeList_null (hmap.bounded r hmem) (hmap.usable r hmem) rfl (hb ▸ hr)
      (hnull.imp (fun h => ?_) fun h => hb.trans h)] at hs
    · cases hs
    · exact BitVec.eq_of_toNat_eq (hb.trans h)
  rw [if_neg hnull] at hL
  push Not at hnull
  have hle := hr.2
  have hmod : b % 4096 = 0 := hb ▸ roundUp_mod physfree
  have hstopmod : r.stop % 4096 = 0 := up_mod _
  obtain ⟨k, hk⟩ : ∃ k, r.stop = b + 4096 * k := ⟨(r.stop - b) / 4096, by omega⟩
  rw [show (r.stop - b) / 4096 = k by omega] at hL
  obtain ⟨hroom, s', hrun, hbuilt⟩ := hmap.built hb hnull.1 hr hk (by omega) hL hint m
  refine Or.inr ⟨?_, hroom, s', hrun, hbuilt⟩
  rintro rfl
  have hlen := congrArg List.length hL
  rw [List.length_append, List.length_map, List.length_range, List.length_nil] at hlen
  omega

end SBUnix
