import SBUnix.Paging.BootRounds

/-
  The list that the rounds leave in memory.

  Every link leads to the next descriptor or is null (`Links`), whatever the rounds clear. Clearing
  a frame that holds a descriptor of the list cannot go unnoticed: the first descriptor it touches
  is still in the list, and its frame is now 0 (`reaches_fill`). So a list that ever shows the
  frame 0 shows it for good (`Shows`).
-/

namespace SBUnix

open ByteMem

/-- The links lead from descriptor 0 to descriptor `k`. -/
def Reaches (m : Mem) (b k : Nat) : Prop := ∀ j < k, nextAt m b j = descAt b (j + 1)

/-- One of the first `n` descriptors is in the list, and its frame satisfies `P`. -/
def Shows (m : Mem) (b n : Nat) (P : Word → Prop) : Prop :=
  ∃ k < n, Reaches m b k ∧ P (pAddrAt m b k)

/-- The first `n` links lead to the next descriptor or are null. -/
def Links (m : Mem) (b n : Nat) : Prop :=
  ∀ j < n, nextAt m b j = descAt b (j + 1) ∨ nextAt m b j = 0

/-- Between regions: the last of `n` descriptors ends the list. -/
structure Listed (m : Mem) (b n : Nat) : Prop where
  pos : 0 < n
  links : Links m b n
  last : nextAt m b (n - 1) = 0

/-- The link and the frame of a descriptor in memory. -/
def memNode (m : Mem) (p : Word) : Option (Word × Word) :=
  some (readWord m (bootPhys p), readWord m (bootPhys (16#64 + p)))

/-- The list in memory from `p`: the descriptors' addresses and frames. -/
abbrev BootChain (m : Mem) (p : Word) (l : List (Word × Word)) : Prop :=
  Linked.Chain (memNode m) 0 p l

section List

variable {m m' : Mem} {b n k t z : Nat} {P Q : Word → Prop}

theorem Reaches.mono (h : Reaches m b k) {j : Nat} (hj : j ≤ k) : Reaches m b j :=
  fun i hi => h i (by omega)

theorem Reaches.congr (h : Reaches m b k) (hn : ∀ j < k, nextAt m' b j = nextAt m b j) :
    Reaches m' b k := by
  intro j hj
  rw [hn j hj, h j hj]

theorem Shows.imp (h : Shows m b n P) (hPQ : ∀ w, P w → Q w) : Shows m b n Q := by
  obtain ⟨k, hk, hr, hp⟩ := h
  exact ⟨k, hk, hr, hPQ _ hp⟩

theorem Shows.mono (h : Shows m b n P) {n' : Nat} (hn : n ≤ n') : Shows m b n' P := by
  obtain ⟨k, hk, hr, hp⟩ := h
  exact ⟨k, by omega, hr, hp⟩

/-! ## Stores -/

/-- The link of the last of `n` descriptors does not decide what they show. -/
theorem Shows.writeNext (h : Shows m b (t + 1) P) (w : Word) :
    Shows (writeWord m (b + 24 * t) w) b (t + 1) P := by
  obtain ⟨k, hk, hr, hp⟩ := h
  refine ⟨k, hk, hr.congr fun j hj => ?_, ?_⟩
  · rw [nextAt_writeNext, if_neg (by omega)]
  · rwa [pAddrAt_writeNext]

theorem Shows.writePAddr (h : Shows m b n P) (hn : n ≤ t) (w : Word) :
    Shows (writeWord m (b + 24 * t + 16) w) b n P := by
  obtain ⟨k, hk, hr, hp⟩ := h
  refine ⟨k, hk, hr.congr fun j hj => ?_, ?_⟩
  · rw [nextAt_writePAddr]
  · rwa [pAddrAt_writePAddr, if_neg (by omega)]

theorem Links.writeNext (h : Links m b t) {w : Word} (hw : w = descAt b (t + 1) ∨ w = 0) :
    Links (writeWord m (b + 24 * t) w) b (t + 1) := by
  intro j hj
  rw [nextAt_writeNext]
  split_ifs with hjt
  · rw [hjt]
    exact hw
  · exact h j (by omega)

/-- Ending the list at descriptor `t`. -/
theorem Links.listed (h : Links m b t) : Listed (writeWord m (b + 24 * t) 0) b (t + 1) := by
  refine ⟨Nat.succ_pos t, h.writeNext (Or.inr rfl), ?_⟩
  rw [nextAt_writeNext, if_pos (Nat.add_sub_cancel t 1)]

theorem Links.writePAddr (h : Links m b n) (t : Nat) (w : Word) :
    Links (writeWord m (b + 24 * t + 16) w) b n := by
  intro j hj
  rw [nextAt_writePAddr]
  exact h j hj

/-! ## Clearing -/

theorem nextAt_fill (hb : b % 4096 = 0) (hz : z % 4096 = 0) (j : Nat) :
    nextAt (fill m z 512 0) b j =
      if z ≤ b + 24 * j ∧ b + 24 * j < z + 512 then 0 else nextAt m b j :=
  readWord_fill_aligned m (by omega) (by omega) (by omega)

theorem pAddrAt_fill (hb : b % 4096 = 0) (hz : z % 4096 = 0) (j : Nat) :
    pAddrAt (fill m z 512 0) b j =
      if z ≤ b + 24 * j + 16 ∧ b + 24 * j + 16 < z + 512 then 0 else pAddrAt m b j :=
  readWord_fill_aligned m (by omega) (by omega) (by omega)

theorem Links.fill (h : Links m b n) (hb : b % 4096 = 0) (hz : z % 4096 = 0) :
    Links (fill m z 512 0) b n := by
  intro j hj
  rw [nextAt_fill hb hz]
  split_ifs
  · exact Or.inr rfl
  · exact h j hj

/-- Clearing leaves the way to a descriptor, or shows the frame 0 on that way. -/
theorem reaches_fill (h : Reaches m b k) (hb : b % 4096 = 0) (hz : z % 4096 = 0) :
    Reaches (fill m z 512 0) b k ∨ Shows (fill m z 512 0) b k (· = 0) := by
  by_cases hhit : ∃ j < k, z < b + 24 * j + 24 ∧ b + 24 * j < z + 512
  · -- the first descriptor that is touched loses its frame, and everything before it is intact
    obtain ⟨hj, hin⟩ := Nat.find_spec hhit
    have hfirst : ∀ i < Nat.find hhit, ¬ (z < b + 24 * i + 24 ∧ b + 24 * i < z + 512) :=
      fun i hi hit => Nat.find_min hhit hi ⟨by omega, hit⟩
    generalize Nat.find hhit = j at hj hin hfirst
    refine Or.inr ⟨j, hj, (h.mono hj.le).congr fun i hi => ?_, ?_⟩
    · have := hfirst i hi
      rw [nextAt_fill hb hz, if_neg (by omega)]
    · rw [pAddrAt_fill hb hz, if_pos]
      cases j with
      | zero => omega
      | succ j =>
        have := hfirst j (by omega)
        omega
  · push Not at hhit
    refine Or.inl (h.congr fun j hj => ?_)
    have := hhit j hj
    rw [nextAt_fill hb hz, if_neg (by omega)]

theorem Shows.fill (h : Shows m b n P) (h0 : P 0) (hb : b % 4096 = 0) (hz : z % 4096 = 0) :
    Shows (fill m z 512 0) b n P := by
  obtain ⟨k, hk, hr, hp⟩ := h
  obtain hr' | hs := reaches_fill hr hb hz
  · refine ⟨k, hk, hr', ?_⟩
    rw [pAddrAt_fill hb hz]
    split_ifs
    · exact h0
    · exact hp
  · exact (hs.mono hk.le).imp fun w hw => hw ▸ h0

theorem aliasFrame_mod {i : Nat} (hi : i % 4096 = 0) : aliasFrame i % 4096 = 0 := by
  unfold aliasFrame
  split_ifs <;> omega

theorem Links.clearMem (h : Links m b n) (hb : b % 4096 = 0) {i : Nat} (hi : i % 4096 = 0) :
    Links (clearMem m i) b n :=
  (h.fill hb hi).fill hb (aliasFrame_mod hi)

theorem Shows.clearMem (h : Shows m b n P) (h0 : P 0) (hb : b % 4096 = 0) {i : Nat}
    (hi : i % 4096 = 0) : Shows (clearMem m i) b n P :=
  (h.fill h0 hb hi).fill h0 hb (aliasFrame_mod hi)

theorem reaches_clearMem (h : Reaches m b k) (hb : b % 4096 = 0) {i : Nat} (hi : i % 4096 = 0) :
    Reaches (clearMem m i) b k ∨ Shows (clearMem m i) b k (· = 0) := by
  obtain hr | hs := reaches_fill h hb hi
  · exact reaches_fill hr hb (aliasFrame_mod hi)
  · exact Or.inr (hs.fill rfl hb (aliasFrame_mod hi))

/-! ## The first loop -/

theorem firstRound_links (h : Links m b t) (hb : b % 4096 = 0) {i : Nat} (hi : i % 4096 = 0) :
    Links (firstRound b t i m) b (t + 1) :=
  ((h.clearMem hb hi).writePAddr t _).writeNext (Or.inl rfl)

theorem firstMem_links (hb : b % 4096 = 0) (m : Mem) (n : Nat) : Links (firstMem b b m n) b n := by
  induction n with
  | zero => exact fun j hj => absurd hj (by omega)
  | succ n ih => exact firstRound_links ih hb (by omega)

theorem firstRound_shows (h : Shows m b t P) (h0 : P 0) (hb : b % 4096 = 0) {i : Nat}
    (hi : i % 4096 = 0) : Shows (firstRound b t i m) b (t + 1) P :=
  (((h.clearMem h0 hb hi).writePAddr le_rfl _).mono (Nat.le_succ t)).writeNext _

/-- A region of more than 2 GiB from `b` on clears its own first descriptor. -/
theorem firstMem_shows_zero (hb : b % 4096 = 0) (m : Mem) (hn : 2 ^ 19 < n) :
    Shows (firstMem b b m n) b n (· = 0) := by
  induction n with
  | zero => omega
  | succ n ih =>
    by_cases h : 2 ^ 19 < n
    · exact firstRound_shows (ih h) rfl hb (by omega)
    obtain rfl : n = 2 ^ 19 := by omega
    have hclear : Shows (clearMem (firstMem b b m (2 ^ 19)) (b + 4096 * 2 ^ 19)) b (2 ^ 19)
        (· = 0) := by
      refine ⟨0, by omega, fun j hj => absurd hj (by omega), ?_⟩
      have halias : aliasFrame (b + 4096 * 2 ^ 19) = b := by
        unfold aliasFrame
        split_ifs <;> omega
      unfold clearMem
      rw [halias, pAddrAt_fill hb hb, if_pos (by omega)]
    exact ((hclear.writePAddr le_rfl _).mono (Nat.le_succ _)).writeNext _

/-- Frame `i` is cleared off the first `t` descriptors. -/
def Apart (b t i : Nat) : Prop :=
  (i + 512 ≤ b ∨ b + 24 * t ≤ i) ∧ (aliasFrame i + 512 ≤ b ∨ b + 24 * t ≤ aliasFrame i)

theorem nextAt_clearMem {i j : Nat} (h : Apart b t i) (hj : j < t) :
    nextAt (clearMem m i) b j = nextAt m b j := by
  have h1 : b + 24 * j + 8 ≤ i ∨ i + 512 ≤ b + 24 * j := by
    have := h.1
    omega
  have h2 : b + 24 * j + 8 ≤ aliasFrame i ∨ aliasFrame i + 512 ≤ b + 24 * j := by
    have := h.2
    omega
  exact (readWord_fill_of_disjoint _ 0 h2).trans (readWord_fill_of_disjoint _ 0 h1)

theorem pAddrAt_clearMem {i j : Nat} (h : Apart b t i) (hj : j < t) :
    pAddrAt (clearMem m i) b j = pAddrAt m b j := by
  have h1 : b + 24 * j + 16 + 8 ≤ i ∨ i + 512 ≤ b + 24 * j + 16 := by
    have := h.1
    omega
  have h2 : b + 24 * j + 16 + 8 ≤ aliasFrame i ∨ aliasFrame i + 512 ≤ b + 24 * j + 16 := by
    have := h.2
    omega
  exact (readWord_fill_of_disjoint _ 0 h2).trans (readWord_fill_of_disjoint _ 0 h1)

/-- The first `n` descriptors are in the list, with the frames `f`. -/
structure Holds (m : Mem) (b n : Nat) (f : Nat → Nat) : Prop where
  links : ∀ j, j + 1 < n → nextAt m b j = descAt b (j + 1)
  frames : ∀ j < n, pAddrAt m b j = BitVec.ofNat 64 (f j)

theorem firstRound_holds {f : Nat → Nat} (hr : Reaches m b t) (h : Holds m b t f)
    (hap : Apart b t (f t)) :
    Reaches (firstRound b t (f t) m) b (t + 1) ∧ Holds (firstRound b t (f t) m) b (t + 1) f := by
  have hreach : Reaches (firstRound b t (f t) m) b (t + 1) := by
    intro j hj
    unfold firstRound
    rw [nextAt_writeNext]
    split_ifs with hjt
    · rw [hjt]
    · rw [nextAt_writePAddr, nextAt_clearMem hap (by omega)]
      exact hr j (by omega)
  refine ⟨hreach, fun j hj => hreach j (by omega), fun j hj => ?_⟩
  unfold firstRound
  rw [pAddrAt_writeNext, pAddrAt_writePAddr]
  split_ifs with hjt
  · rw [hjt]
  · rw [pAddrAt_clearMem hap (by omega)]
    exact h.frames j (by omega)

/-- A region of at most 2 GiB from `b` on leaves all of its descriptors. -/
theorem firstMem_holds (hb : b % 4096 = 0) (m : Mem) (hn : n ≤ 2 ^ 19) :
    Reaches (firstMem b b m n) b n ∧ Holds (firstMem b b m n) b n fun j => b + 4096 * j := by
  induction n with
  | zero => exact ⟨fun j hj => absurd hj (by omega), ⟨by omega, by omega⟩⟩
  | succ n ih =>
    obtain ⟨hr, hh⟩ := ih (by omega)
    refine firstRound_holds (f := fun j => b + 4096 * j) hr hh ⟨by omega, ?_⟩
    unfold aliasFrame
    split_ifs <;> omega

/-! ## The second loop -/

theorem laterRound_links (h : Links m b t) (hb : b % 4096 = 0) {i : Nat} (hi : i % 4096 = 0) :
    Links (laterRound b t i m) b (t + 1) :=
  ((h.writeNext (Or.inl rfl)).clearMem hb hi).writePAddr _ _

theorem laterRound_shows (h : Shows m b (t + 1) P) (h0 : P 0) (hb : b % 4096 = 0) {i : Nat}
    (hi : i % 4096 = 0) : Shows (laterRound b t i m) b (t + 1) P :=
  ((h.writeNext _).clearMem h0 hb hi).writePAddr le_rfl _

/-- A round links its descriptor, or the list shows the frame 0. -/
theorem laterRound_reaches (h : Reaches m b t) (hb : b % 4096 = 0) {i : Nat}
    (hi : i % 4096 = 0) :
    (Reaches (laterRound b t i m) b (t + 1) ∧
        pAddrAt (laterRound b t i m) b (t + 1) = BitVec.ofNat 64 i) ∨
      Shows (laterRound b t i m) b (t + 1) (· = 0) := by
  have hlink : Reaches (writeWord m (b + 24 * t) (descAt b (t + 1))) b (t + 1) := by
    intro j hj
    rw [nextAt_writeNext]
    split_ifs with hjt
    · rw [hjt]
    · exact h j (by omega)
  obtain hr | hs := reaches_clearMem hlink hb hi
  · refine Or.inl ⟨hr.congr fun j _ => nextAt_writePAddr _ _ _ _ _, ?_⟩
    unfold laterRound
    rw [pAddrAt_writePAddr, if_pos rfl]
  · exact Or.inr (hs.writePAddr le_rfl _)

theorem laterMem_links {i : Nat} (h : Links m b t) (hb : b % 4096 = 0) (hi : i % 4096 = 0)
    (n : Nat) : Links (laterMem b t i m n) b (t + n) := by
  induction n with
  | zero => exact h
  | succ n ih => exact laterRound_links ih hb (by omega)

/-- After the last round the list shows the end of the range, or the frame 0. -/
theorem laterMem_shows {i : Nat} (h : Reaches m b t) (hb : b % 4096 = 0) (hi : i % 4096 = 0)
    (n : Nat) :
    (Reaches (laterMem b t i m (n + 1)) b (t + n + 1) ∧
        pAddrAt (laterMem b t i m (n + 1)) b (t + n + 1) = BitVec.ofNat 64 (i + 4096 * n)) ∨
      Shows (laterMem b t i m (n + 1)) b (t + n + 1) (· = 0) := by
  induction n with
  | zero => exact laterRound_reaches h hb (by omega)
  | succ n ih =>
    obtain ⟨hr, -⟩ | hs := ih
    · exact laterRound_reaches hr hb (by omega)
    · exact Or.inr ((laterRound_shows (hs.mono (by omega)) rfl hb (by omega)).mono (by omega))

/-! ## Reading the list -/

theorem memNode_descAt (h : Room b n) {j : Nat} (hj : j ≤ n) :
    memNode m (descAt b j) = some (nextAt m b j, pAddrAt m b j) := by
  unfold memNode nextAt pAddrAt
  rw [bootPhys_descAt h hj, bootPhys_pAddr h hj]

/-- What the list shows is in it. -/
theorem Reaches.mem_chain (hroom : Room b n) (hk : k ≤ n) (h : Reaches m b k) (j r : Nat)
    (hj : j + r = k) {l : List (Word × Word)} (hl : BootChain m (descAt b j) l) :
    pAddrAt m b k ∈ l.map Prod.snd := by
  induction r generalizing j l with
  | zero =>
    obtain rfl : j = k := by omega
    cases l with
    | nil => exact absurd (Linked.chain_nil.mp hl) (descAt_ne_zero hroom hk)
    | cons e l =>
      obtain ⟨he, -, w, hw, -⟩ := hl
      rw [← he, memNode_descAt hroom hk] at hw
      rw [List.map_cons, ← (Prod.mk.inj (Option.some.inj hw)).2]
      exact List.mem_cons_self
  | succ r ih =>
    cases l with
    | nil => exact absurd (Linked.chain_nil.mp hl) (descAt_ne_zero hroom (by omega))
    | cons e l =>
      obtain ⟨he, -, w, hw, hrest⟩ := hl
      rw [← he, memNode_descAt hroom (by omega)] at hw
      rw [← (Prod.mk.inj (Option.some.inj hw)).1, h j (by omega)] at hrest
      exact List.mem_cons_of_mem _ (ih (j + 1) (by omega) hrest)

/-- The list of the first `n` descriptors. -/
theorem Holds.chain {f : Nat → Nat} (hroom : Room b n) (h : Holds m b n f)
    (hlast : nextAt m b (n - 1) = 0) (j r : Nat) (hj : j + r = n) (hr : r ≠ 0) :
    BootChain m (descAt b j)
      ((List.range' j r).map fun k => (descAt b k, BitVec.ofNat 64 (f k))) := by
  induction r generalizing j with
  | zero => exact absurd rfl hr
  | succ r ih =>
    rw [List.range'_succ, List.map_cons]
    have hnode := memNode_descAt (m := m) hroom (j := j) (by omega)
    rw [h.frames j (by omega)] at hnode
    refine ⟨rfl, descAt_ne_zero hroom (by omega), _, hnode, ?_⟩
    by_cases hr0 : r = 0
    · obtain rfl : j = n - 1 := by omega
      rw [hlast, hr0]
      rfl
    · rw [h.links j (by omega)]
      exact ih (j + 1) (by omega) hr0

/-- The walk stops at a null link that the links lead to. -/
theorem Listed.lastNode {s : Boot} (hroom : Room b n) (h : Listed s.mem b n) (k r : Nat)
    (hk : k + r + 1 = n) (hr : Reaches s.mem b k) (fuel : Nat) (hfuel : r < fuel) :
    ∃ t < n, lastNode s fuel (descAt b k) = .ok (descAt b t) ∧ Reaches s.mem b t ∧
      nextAt s.mem b t = 0 := by
  have hget : s.getNext (descAt b k) = .ok (nextAt s.mem b k) := by
    unfold Boot.getNext nextAt
    rw [if_neg (descAt_ne_zero hroom (by omega)), bootPhys_descAt hroom (by omega)]
  induction r generalizing k fuel with
  | zero =>
    obtain ⟨fuel, rfl⟩ := Nat.exists_eq_succ_of_ne_zero (show fuel ≠ 0 by omega)
    have hlast := h.last
    rw [show n - 1 = k by omega] at hlast
    refine ⟨k, by omega, ?_, hr, hlast⟩
    rw [SBUnix.lastNode, hget, ok_bind, if_neg (not_not.mpr hlast)]
  | succ r ih =>
    obtain ⟨fuel, rfl⟩ := Nat.exists_eq_succ_of_ne_zero (show fuel ≠ 0 by omega)
    rw [SBUnix.lastNode, hget, ok_bind]
    obtain hlink | hnull := h.links k (by omega)
    · rw [hlink, if_pos (descAt_ne_zero hroom (by omega))]
      refine ih (k + 1) (by omega) ?_ fuel (by omega) ?_
      · intro j hj
        by_cases hjk : j = k
        · rw [hjk, hlink]
        · exact hr j (by omega)
      · unfold Boot.getNext nextAt
        rw [if_neg (descAt_ne_zero hroom (by omega)), bootPhys_descAt hroom (by omega)]
    · rw [if_neg (not_not.mpr hnull)]
      exact ⟨k, by omega, rfl, hr, hnull⟩

end List

end SBUnix
