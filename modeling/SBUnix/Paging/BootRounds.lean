import SBUnix.Paging.Boot

/-
  The two loops of `append_free_list` as rounds on memory.

  Descriptor `j` lies at `b + 24 * j`, for `b = round_up(physfree)`, whatever the region; each
  round writes one descriptor. `firstMem` and `laterMem` are the memories after `n` rounds, and
  `firstRegionLoop_eq` and `laterRegionLoop_eq` say that the loops compute them. What a round can
  do to descriptors written before it is `reaches_clearMem`.
-/

namespace SBUnix

open ByteMem

/-! ## Descriptors -/

/-- The address of descriptor `j`. -/
def descAt (b j : Nat) : Word := BitVec.ofNat 64 (b + 24 * j)

/-- The link of descriptor `j`. -/
def nextAt (m : Mem) (b j : Nat) : Word := readWord m (b + 24 * j)

/-- The frame of descriptor `j`. -/
def pAddrAt (m : Mem) (b j : Nat) : Word := readWord m (b + 24 * j + 16)

/-- Descriptors up to `n` can be addressed from `b`, a page boundary that is not 0. -/
structure Room (b n : Nat) : Prop where
  notNull : b ≠ 0
  aligned : b % 4096 = 0
  bound : b + 24 * n + 24 < 2 ^ 63

section Descriptors

variable {b n j t : Nat} {m : Mem}

theorem Room.mono {n' : Nat} (h : Room b n) (hn : n' ≤ n) : Room b n' :=
  ⟨h.notNull, h.aligned, by have := h.bound; omega⟩

theorem descAt_toNat (h : Room b n) (hj : j ≤ n) : (descAt b j).toNat = b + 24 * j := by
  have := h.bound
  unfold descAt
  rw [BitVec.toNat_ofNat]
  omega

theorem descAt_ne_zero (h : Room b n) (hj : j ≤ n) : descAt b j ≠ 0 := by
  have := h.notNull
  rw [ne_zero_iff_toNat, descAt_toNat h hj]
  omega

theorem bootPhys_descAt (h : Room b n) (hj : j ≤ n) : bootPhys (descAt b j) = b + 24 * j := by
  have := h.bound
  rw [bootPhys_low, descAt_toNat h hj]
  rw [descAt_toNat h hj]
  omega

theorem sizeofPage_add_descAt (b j : Nat) : sizeofPage + descAt b j = descAt b (j + 1) := by
  unfold sizeofPage descAt
  rw [← BitVec.ofNat_add]
  congr 1
  omega

theorem bootPhys_pAddr (h : Room b n) (hj : j ≤ n) :
    bootPhys (16#64 + descAt b j) = b + 24 * j + 16 := by
  have hb := h.bound
  have hadd : (16#64 + descAt b j).toNat = b + 24 * j + 16 := by
    rw [BitVec.toNat_add, descAt_toNat h hj, show (16#64).toNat = 16 from rfl]
    omega
  rw [bootPhys_low, hadd]
  omega

/-- Storing a link changes that link. -/
theorem nextAt_writeNext (m : Mem) (b t : Nat) (w : Word) (j : Nat) :
    nextAt (writeWord m (b + 24 * t) w) b j = if j = t then w else nextAt m b j := by
  unfold nextAt
  split_ifs with h
  · rw [h, readWord_writeWord_same]
  · exact readWord_writeWord_of_disjoint m w (by omega)

theorem pAddrAt_writeNext (m : Mem) (b t : Nat) (w : Word) (j : Nat) :
    pAddrAt (writeWord m (b + 24 * t) w) b j = pAddrAt m b j :=
  readWord_writeWord_of_disjoint m w (by omega)

theorem nextAt_writePAddr (m : Mem) (b t : Nat) (w : Word) (j : Nat) :
    nextAt (writeWord m (b + 24 * t + 16) w) b j = nextAt m b j :=
  readWord_writeWord_of_disjoint m w (by omega)

theorem pAddrAt_writePAddr (m : Mem) (b t : Nat) (w : Word) (j : Nat) :
    pAddrAt (writeWord m (b + 24 * t + 16) w) b j = if j = t then w else pAddrAt m b j := by
  unfold pAddrAt
  split_ifs with h
  · rw [h, readWord_writeWord_same]
  · exact readWord_writeWord_of_disjoint m w (by omega)

end Descriptors

/-! ## Rounds -/

/-- What `clearFrame` does to memory. -/
def clearMem (m : Mem) (i : Nat) : Mem := fill (fill m i 512 0) (aliasFrame i) 512 0

/-- A round of the first loop: descriptor `t` is written for frame `i`. -/
def firstRound (b t i : Nat) (m : Mem) : Mem :=
  writeWord (writeWord (clearMem m i) (b + 24 * t + 16) (BitVec.ofNat 64 i)) (b + 24 * t)
    (descAt b (t + 1))

/-- A round of the second loop: descriptor `t` is linked to descriptor `t + 1`, which is written
    for frame `i`. -/
def laterRound (b t i : Nat) (m : Mem) : Mem :=
  writeWord (clearMem (writeWord m (b + 24 * t) (descAt b (t + 1))) i) (b + 24 * (t + 1) + 16)
    (BitVec.ofNat 64 i)

/-- `n` rounds of the first loop. -/
def firstMem (b i : Nat) (m : Mem) : Nat → Mem
  | 0 => m
  | n + 1 => firstRound b n (i + 4096 * n) (firstMem b i m n)

/-- `n` rounds of the second loop, from descriptor `t`. -/
def laterMem (b t i : Nat) (m : Mem) : Nat → Mem
  | 0 => m
  | n + 1 => laterRound b (t + n) (i + 4096 * n) (laterMem b t i m n)

section Loops

variable {b n t i : Nat} {s : Boot}

theorem ofNat_toNat_low {i : Nat} (h : i < 2 ^ 63) : (BitVec.ofNat 64 i).toNat = i := by
  rw [BitVec.toNat_ofNat]
  omega

theorem pageSize_add_ofNat (i : Nat) :
    pageSize + BitVec.ofNat 64 i = BitVec.ofNat 64 (i + 4096) := by
  unfold pageSize
  rw [← BitVec.ofNat_add, Nat.add_comm]

theorem add_ofNat_succ (c : Word) (r : Nat) :
    c + BitVec.ofNat 64 (r + 1) = c + 1 + BitVec.ofNat 64 r := by
  rw [Nat.add_comm r 1, BitVec.ofNat_add, ← add_assoc]
  rfl

theorem clearFrame_ofNat (s : Boot) (hi : i % 4096 = 0) (hlow : i < 2 ^ 63) :
    s.clearFrame (BitVec.ofNat 64 i) = { s with mem := clearMem s.mem i } := by
  have h := ofNat_toNat_low hlow
  rw [clearFrame_eq s (by omega) (by omega), h]
  rfl

/-- One round of the first loop. -/
theorem firstRegionLoop_succ (hroom : Room b n) (ht : t ≤ n) (hi : i % 4096 = 0) {stop : Nat}
    (hstop : stop < 2 ^ 63) (hlt : i < stop) (fuel : Nat) (last : Word) :
    firstRegionLoop (BitVec.ofNat 64 stop) (fuel + 1) (BitVec.ofNat 64 i) (descAt b t) last s =
      firstRegionLoop (BitVec.ofNat 64 stop) fuel (BitVec.ofNat 64 (i + 4096)) (descAt b (t + 1))
        (descAt b t)
        ⟨firstRound b t i s.mem, s.freeList, s.freeListTotalPages + 1⟩ := by
  have hne := descAt_ne_zero hroom ht
  have hcond : BitVec.ofNat 64 i < BitVec.ofNat 64 stop := by
    rw [BitVec.lt_def, ofNat_toNat_low hstop, ofNat_toNat_low (by omega)]
    exact hlt
  rw [firstRegionLoop, if_pos hcond, clearFrame_ofNat s hi (by omega)]
  unfold Boot.setPAddr Boot.setNext Boot.getNext
  simp only [if_neg hne, ok_bind, bootPhys_descAt hroom ht, bootPhys_pAddr hroom ht,
    readWord_writeWord_same, sizeofPage_add_descAt, pageSize_add_ofNat]
  rfl

/-- One round of the second loop. -/
theorem laterRegionLoop_succ (hroom : Room b n) (ht : t + 1 ≤ n) (hi : i % 4096 = 0) {stop : Nat}
    (hstop : stop < 2 ^ 63) (hle : i ≤ stop) (fuel : Nat) (last : Word) :
    laterRegionLoop (BitVec.ofNat 64 stop) (fuel + 1) (BitVec.ofNat 64 i) (descAt b t) last s =
      laterRegionLoop (BitVec.ofNat 64 stop) fuel (BitVec.ofNat 64 (i + 4096)) (descAt b (t + 1))
        (descAt b (t + 1))
        ⟨laterRound b t i s.mem, s.freeList, s.freeListTotalPages + 1⟩ := by
  have hne := descAt_ne_zero hroom (j := t) (by omega)
  have hne' := descAt_ne_zero hroom ht
  have hcond : BitVec.ofNat 64 i ≤ BitVec.ofNat 64 stop := by
    rw [BitVec.le_def, ofNat_toNat_low hstop, ofNat_toNat_low (by omega)]
    exact hle
  rw [laterRegionLoop, if_pos hcond]
  unfold Boot.setPAddr Boot.setNext Boot.getNext
  simp only [if_neg hne, ok_bind, bootPhys_descAt hroom (j := t) (by omega),
    readWord_writeWord_same, sizeofPage_add_descAt, pageSize_add_ofNat, if_neg hne',
    clearFrame_ofNat _ hi (show i < 2 ^ 63 by omega), bootPhys_pAddr hroom ht]
  rfl

/-- The first loop from round `k` on. -/
theorem firstRegionLoop_from (hroom : Room b n) (hb : i % 4096 = 0) (hn : i + 4096 * n < 2 ^ 63)
    (k r : Nat) (hk : k + r = n) (fuel : Nat) (hfuel : r < fuel) (last : Word)
    (hlast : k ≠ 0 → last = descAt b (k - 1)) (m : Mem) (g c : Word) :
    firstRegionLoop (BitVec.ofNat 64 (i + 4096 * n)) fuel (BitVec.ofNat 64 (i + 4096 * k))
        (descAt b k) last ⟨firstMem b i m k, g, c⟩ =
      .ok (if n = 0 then last else descAt b (n - 1),
        ⟨firstMem b i m n, g, c + BitVec.ofNat 64 r⟩) := by
  induction r generalizing k fuel last c with
  | zero =>
    obtain ⟨fuel, rfl⟩ := Nat.exists_eq_succ_of_ne_zero (show fuel ≠ 0 by omega)
    obtain rfl : k = n := by omega
    rw [firstRegionLoop, if_neg (by simp), show BitVec.ofNat 64 0 = 0 from rfl, add_zero]
    split_ifs with h
    · rfl
    · rw [hlast h]
  | succ r ih =>
    obtain ⟨fuel, rfl⟩ := Nat.exists_eq_succ_of_ne_zero (show fuel ≠ 0 by omega)
    have hround := firstRegionLoop_succ (s := ⟨firstMem b i m k, g, c⟩) hroom (t := k) (by omega)
      (i := i + 4096 * k) (by omega) hn (by omega) fuel last
    rw [Nat.succ_eq_add_one, hround, show i + 4096 * k + 4096 = i + 4096 * (k + 1) by omega]
    have hrest := ih (k + 1) (by omega) fuel (by omega) (descAt b k) (fun _ => rfl) (c + 1)
    rw [if_neg (by omega)] at hrest ⊢
    rw [add_ofNat_succ]
    exact hrest

/-- The first loop. -/
theorem firstRegionLoop_eq (hroom : Room b n) (hn : b + 4096 * n < 2 ^ 63) (m : Mem) (g c : Word) :
    firstRegionLoop (BitVec.ofNat 64 (b + 4096 * n)) loopFuel (BitVec.ofNat 64 b)
        (BitVec.ofNat 64 b) 0 ⟨m, g, c⟩ =
      .ok (if n = 0 then 0 else descAt b (n - 1),
        ⟨firstMem b b m n, g, c + BitVec.ofNat 64 n⟩) := by
  have h := firstRegionLoop_from hroom hroom.aligned hn 0 n (by omega) loopFuel
    (by unfold loopFuel; omega) 0 (by omega) m g c
  exact h

/-- The second loop from round `k` on. -/
theorem laterRegionLoop_from (hroom : Room b (t + n + 1)) (hi : i % 4096 = 0)
    (hn : i + 4096 * n < 2 ^ 63) (k r : Nat) (hk : k + r = n + 1) (fuel : Nat) (hfuel : r < fuel)
    (m : Mem) (g c : Word) :
    laterRegionLoop (BitVec.ofNat 64 (i + 4096 * n)) fuel (BitVec.ofNat 64 (i + 4096 * k))
        (descAt b (t + k)) (descAt b (t + k)) ⟨laterMem b t i m k, g, c⟩ =
      .ok (descAt b (t + (n + 1)), ⟨laterMem b t i m (n + 1), g, c + BitVec.ofNat 64 r⟩) := by
  induction r generalizing k fuel c with
  | zero =>
    obtain ⟨fuel, rfl⟩ := Nat.exists_eq_succ_of_ne_zero (show fuel ≠ 0 by omega)
    obtain rfl : k = n + 1 := by omega
    rw [laterRegionLoop, if_neg, show BitVec.ofNat 64 0 = 0 from rfl, add_zero]
    rw [BitVec.le_def, BitVec.toNat_ofNat, ofNat_toNat_low hn]
    omega
  | succ r ih =>
    obtain ⟨fuel, rfl⟩ := Nat.exists_eq_succ_of_ne_zero (show fuel ≠ 0 by omega)
    have hround := laterRegionLoop_succ (s := ⟨laterMem b t i m k, g, c⟩) hroom (t := t + k)
      (by omega) (i := i + 4096 * k) (by omega) hn (by omega) fuel (descAt b (t + k))
    rw [Nat.succ_eq_add_one, hround, show i + 4096 * k + 4096 = i + 4096 * (k + 1) by omega,
      show t + k + 1 = t + (k + 1) by omega]
    have hrest := ih (k + 1) (by omega) fuel (by omega) (c + 1)
    rw [add_ofNat_succ]
    exact hrest

/-- The second loop runs one round more than its range has frames. -/
theorem laterRegionLoop_eq (hroom : Room b (t + n + 1)) (hi : i % 4096 = 0)
    (hn : i + 4096 * n < 2 ^ 63) (m : Mem) (g c : Word) :
    laterRegionLoop (BitVec.ofNat 64 (i + 4096 * n)) loopFuel (BitVec.ofNat 64 i) (descAt b t)
        (descAt b t) ⟨m, g, c⟩ =
      .ok (descAt b (t + (n + 1)),
        ⟨laterMem b t i m (n + 1), g, c + BitVec.ofNat 64 (n + 1)⟩) :=
  laterRegionLoop_from hroom hi hn 0 (n + 1) (by omega) loopFuel (by unfold loopFuel; omega) m g c

end Loops

end SBUnix
