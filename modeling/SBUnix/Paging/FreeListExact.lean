import SBUnix.Paging.BootList

/-
  What the free list holds after the memory map was processed.

  The list is exactly the usable memory only in two cases (`freeListExact_iff`). The loop of a
  later region runs to the end of its range included, so it always lists a frame that ends
  outside; the end of a region is rounded up, so a last partial frame is listed; a region that
  ends at `round_up(physfree)` leaves `last` null; and frames from 2 GiB above the descriptors on
  are cleared through an address that wraps onto the descriptors.
-/

namespace SBUnix

open ByteMem

/-! ## Regions -/

/-- The page boundary at or above `a`. -/
def up (a : Nat) : Nat := (a + 4095) / 4096 * 4096

namespace Smap

/-- The first byte behind the region. -/
def limit (r : Smap) : Nat := r.base.toNat + r.length.toNat

/-- `round_up(base)`. -/
def start (r : Smap) : Nat := up r.base.toNat

/-- `round_up(base + length)`. -/
def stop (r : Smap) : Nat := up r.limit

/-- `append_free_list` starts the list in this region. -/
def Straddles (b : Nat) (r : Smap) : Prop := r.start ≤ b ∧ b ≤ r.stop

instance (b : Nat) (r : Smap) : Decidable (r.Straddles b) :=
  inferInstanceAs (Decidable (_ ∧ _))

/-- The frame `f` lies in the region. -/
def Contains (r : Smap) (f : Nat) : Prop := r.base.toNat ≤ f ∧ f + 4096 ≤ r.limit

end Smap

/-- The usable regions of a memory map: disjoint, ascending, and physical memory, whose addresses
    have at most 52 bits. -/
structure MemoryMap (regions : List Smap) : Prop where
  usable : ∀ r ∈ regions, r.IsUsable
  bounded : ∀ r ∈ regions, r.limit ≤ 2 ^ 52
  ascending : regions.Pairwise fun r r' => r.limit ≤ r'.base.toNat

/-- A page frame at or above `b` that lies wholly in a usable region. -/
def UsableFrame (b : Nat) (regions : List Smap) (f : Nat) : Prop :=
  f % 4096 = 0 ∧ b ≤ f ∧ ∃ r ∈ regions, r.Contains f

/-- Building the list succeeds, without a null descriptor, and the list holds exactly the usable
    frames from `round_up(physfree)` on, each once. -/
def FreeListExact (m : Mem) (physfree : Word) (map : List Smap) : Prop :=
  ∃ s l, buildFreeList m physfree map = .ok s ∧ BootChain s.mem s.freeList l ∧
    (l.map Prod.snd).Nodup ∧ ∀ f : Word, f ∈ l.map Prod.snd ↔
      UsableFrame (roundUp physfree).toNat (map.filter Smap.IsUsable) f.toNat

/-- No region starts the list, and there is no usable frame; or only the last region does, which
    reaches beyond `b` by at most 2 GiB, and ends at a page boundary. -/
def ListsUsable (b : Nat) (regions : List Smap) : Prop :=
  ((∀ r ∈ regions, ¬ r.Straddles b) ∧ ∀ f, ¬ UsableFrame b regions f) ∨
    ∃ before r, regions = before ++ [r] ∧ (∀ r' ∈ before, ¬ r'.Straddles b) ∧ r.Straddles b ∧
      b ≠ 0 ∧ b < r.stop ∧ r.stop ≤ b + 2 ^ 31 ∧ r.limit % 4096 = 0

theorem up_mod (a : Nat) : up a % 4096 = 0 := by
  unfold up
  omega

theorem le_up (a : Nat) : a ≤ up a ∧ up a < a + 4096 := by
  unfold up
  omega

theorem up_mono {a a' : Nat} (h : a ≤ a') : up a ≤ up a' := by
  unfold up
  omega

theorem roundUp_eq {w : Word} (h : w.toNat ≤ 2 ^ 52) : roundUp w = BitVec.ofNat 64 (up w.toNat) := by
  apply BitVec.eq_of_toNat_eq
  rw [roundUp_toNat w (by omega), ofNat_toNat_low (by have := le_up w.toNat; omega)]
  rfl

theorem roundUp_mod (w : Word) : (roundUp w).toNat % 4096 = 0 := by
  have := w.isLt
  unfold roundUp
  split_ifs <;>
    simp only [BitVec.toNat_add, BitVec.toNat_mul, BitVec.toNat_udiv, BitVec.toNat_ofNat,
      Nat.reducePow, Nat.reduceMod] <;>
    omega

section Regions

variable {b : Nat} {r : Smap} {regions : List Smap} {physfree : Word} {s : Boot}

theorem Smap.roundUp_base (h : r.limit ≤ 2 ^ 52) : roundUp r.base = BitVec.ofNat 64 r.start :=
  roundUp_eq (by unfold Smap.limit at h; omega)

theorem Smap.roundUp_limit (h : r.limit ≤ 2 ^ 52) :
    roundUp (r.base + r.length) = BitVec.ofNat 64 r.stop := by
  have hadd : (r.base + r.length).toNat = r.limit := by
    unfold Smap.limit at h ⊢
    rw [BitVec.toNat_add]
    omega
  rw [roundUp_eq (by omega), hadd]
  rfl

theorem Smap.start_le_stop (r : Smap) : r.start ≤ r.stop :=
  up_mono (by unfold Smap.limit; omega)

theorem Smap.stop_lt (h : r.limit ≤ 2 ^ 52) : r.stop < 2 ^ 53 := by
  have := le_up r.limit
  unfold Smap.stop
  omega

theorem Smap.stop_pos (h : r.IsUsable) : 0 < r.stop := by
  have hlen := (ne_zero_iff_toNat r.length).mp h.2
  have := le_up r.limit
  unfold Smap.stop
  unfold Smap.limit at this ⊢
  omega

/-- A region that starts no list. -/
theorem appendFreeList_idle (hr : r.limit ≤ 2 ^ 52) (h0 : s.freeList = 0)
    (h : ¬ r.Straddles (roundUp physfree).toNat) :
    appendFreeList r.base (r.base + r.length) physfree s = .ok s := by
  have hstop := Smap.stop_lt hr
  have hle := r.start_le_stop
  unfold appendFreeList
  dsimp only
  rw [if_pos h0, if_neg]
  rw [Smap.roundUp_base hr, Smap.roundUp_limit hr, BitVec.le_def, BitVec.le_def,
    ofNat_toNat_low (by omega), ofNat_toNat_low (by omega)]
  exact h

/-- The state after the first region of a list. -/
def firstState (b n : Nat) (s : Boot) : Boot :=
  ⟨writeWord (firstMem b b s.mem n) (b + 24 * (n - 1)) 0, descAt b 0,
    s.freeListTotalPages + BitVec.ofNat 64 n⟩

theorem appendFreeList_start (hr : r.limit ≤ 2 ^ 52) (h0 : s.freeList = 0)
    (h : r.Straddles (roundUp physfree).toNat) :
    appendFreeList r.base (r.base + r.length) physfree s = (do
      let (last, s') ← firstRegionLoop (BitVec.ofNat 64 r.stop) loopFuel (roundUp physfree)
        (roundUp physfree) 0 { s with freeList := roundUp physfree }
      s'.setNext last 0) := by
  have hstop := Smap.stop_lt hr
  have hle := r.start_le_stop
  unfold appendFreeList
  dsimp only
  rw [if_pos h0, if_pos, Smap.roundUp_limit hr]
  rw [Smap.roundUp_base hr, Smap.roundUp_limit hr, BitVec.le_def, BitVec.le_def,
    ofNat_toNat_low (by omega), ofNat_toNat_low (by omega)]
  exact h

/-- The region that starts the list. -/
theorem appendFreeList_first (hr : r.limit ≤ 2 ^ 52) (h0 : s.freeList = 0)
    (h : r.Straddles (roundUp physfree).toNat) (hb : (roundUp physfree).toNat = b) (hb0 : b ≠ 0)
    {n : Nat} (hn : r.stop = b + 4096 * n) (hn0 : n ≠ 0) :
    Room b n ∧ appendFreeList r.base (r.base + r.length) physfree s = .ok (firstState b n s) := by
  have hstop := Smap.stop_lt hr
  have hroom : Room b n := ⟨hb0, hb ▸ roundUp_mod physfree, by omega⟩
  have hphys : roundUp physfree = BitVec.ofNat 64 b := by
    rw [← hb, BitVec.ofNat_toNat, BitVec.setWidth_eq]
  refine ⟨hroom, ?_⟩
  rw [appendFreeList_start hr h0 h, hphys, hn, firstRegionLoop_eq hroom (by omega), ok_bind,
    if_neg hn0]
  unfold Boot.setNext firstState
  dsimp only
  rw [if_neg (descAt_ne_zero hroom (by omega)), bootPhys_descAt hroom (by omega)]
  rfl

/-- At address 0, or at the end of the region, the list starts with a null descriptor. -/
theorem appendFreeList_null (hr : r.limit ≤ 2 ^ 52) (hu : r.IsUsable) (h0 : s.freeList = 0)
    (h : r.Straddles (roundUp physfree).toNat)
    (hnull : roundUp physfree = 0 ∨ (roundUp physfree).toNat = r.stop) :
    appendFreeList r.base (r.base + r.length) physfree s = .error .nullDeref := by
  have hstop := Smap.stop_lt hr
  have hpos := Smap.stop_pos hu
  obtain ⟨fuel, hfuel⟩ := Nat.exists_eq_succ_of_ne_zero (show loopFuel ≠ 0 by decide)
  rw [appendFreeList_start hr h0 h, hfuel, firstRegionLoop]
  obtain hb | hb := hnull
  · rw [hb, if_pos]
    · rfl
    · rw [BitVec.lt_def, ofNat_toNat_low (by omega)]
      exact hpos
  · rw [if_neg]
    · rfl
    · rw [BitVec.lt_def, ofNat_toNat_low (by omega)]
      omega

/-- A later region: the links lead to some descriptor, and the rounds go on from there. -/
theorem appendFreeList_later {n T : Nat} (hr : r.limit ≤ 2 ^ 52)
    (hb : (roundUp physfree).toNat = b) (hroom : Room b (T + n + 1))
    (hlist : s.freeList = descAt b 0) (hs : Listed s.mem b T) (hstart : b ≤ r.start)
    (hn : r.stop = r.start + 4096 * n) :
    ∃ t < T, Reaches s.mem b t ∧ nextAt s.mem b t = 0 ∧
      appendFreeList r.base (r.base + r.length) physfree s =
        .ok ⟨writeWord (laterMem b t r.start s.mem (n + 1)) (b + 24 * (t + n + 1)) 0, descAt b 0,
          s.freeListTotalPages + BitVec.ofNat 64 (n + 1)⟩ := by
  have hstop := Smap.stop_lt hr
  have hle := r.start_le_stop
  have hbound := hroom.bound
  obtain ⟨t, ht, hwalk, hreach, hnull⟩ := hs.lastNode (hroom.mono (by omega)) 0 (T - 1)
    (by have := hs.pos; omega) (fun j hj => absurd hj (by omega)) loopFuel
    (by unfold loopFuel; omega)
  refine ⟨t, ht, hreach, hnull, ?_⟩
  have hloop := laterRegionLoop_eq (t := t) (n := n) (i := r.start)
    (hroom.mono (by omega)) (up_mod _) (by omega) s.mem s.freeList s.freeListTotalPages
  unfold appendFreeList
  dsimp only
  rw [if_neg (by rw [hlist]; exact descAt_ne_zero hroom (by omega)), if_pos, hlist, hwalk, ok_bind,
    Smap.roundUp_base hr, Smap.roundUp_limit hr, hn, hloop, ok_bind]
  · unfold Boot.setNext
    dsimp only
    rw [if_neg (descAt_ne_zero hroom (by omega)), bootPhys_descAt hroom (by omega), hlist]
    rfl
  · rw [Smap.roundUp_base hr, BitVec.le_def, ofNat_toNat_low (by omega), hb]
    exact hstart

/-! ## The memory map -/

theorem appendRegions_filter (map : List Smap) (s : Boot) :
    appendRegions physfree map s = appendRegions physfree (map.filter Smap.IsUsable) s := by
  unfold appendRegions
  induction map generalizing s with
  | nil => rfl
  | cons r map ih =>
    rw [List.foldlM_cons]
    by_cases hr : r.IsUsable
    · rw [if_pos hr, List.filter_cons_of_pos (by simpa using hr), List.foldlM_cons, if_pos hr]
      exact congrArg _ (funext fun s => ih s)
    · rw [if_neg hr, List.filter_cons_of_neg (by simpa using hr), ok_bind]
      exact ih s

theorem appendRegions_append (l l' : List Smap) (s : Boot) :
    appendRegions physfree (l ++ l') s =
      appendRegions physfree l s >>= appendRegions physfree l' := by
  unfold appendRegions
  rw [List.foldlM_append]

theorem appendRegions_cons (hr : r.IsUsable) (l : List Smap) (s : Boot) :
    appendRegions physfree (r :: l) s =
      appendFreeList r.base (r.base + r.length) physfree s >>= appendRegions physfree l := by
  unfold appendRegions
  rw [List.foldlM_cons, if_pos hr]

theorem MemoryMap.sublist {l : List Smap} (h : MemoryMap regions) (hl : l.Sublist regions) :
    MemoryMap l :=
  ⟨fun r hr => h.usable r (hl.mem hr), fun r hr => h.bounded r (hl.mem hr), h.ascending.sublist hl⟩

/-- Regions that start no list. -/
theorem appendRegions_idle (h : MemoryMap regions) (h0 : s.freeList = 0)
    (hidle : ∀ r ∈ regions, ¬ r.Straddles (roundUp physfree).toNat) :
    appendRegions physfree regions s = .ok s := by
  induction regions with
  | nil => rfl
  | cons r regions ih =>
    rw [appendRegions_cons (h.usable r List.mem_cons_self),
      appendFreeList_idle (h.bounded r List.mem_cons_self) h0 (hidle r List.mem_cons_self), ok_bind]
    exact ih (h.sublist (List.sublist_cons_self r regions))
      fun r' hr' => hidle r' (List.mem_cons_of_mem _ hr')

/-- The list starts in the first region that straddles `round_up(physfree)`. -/
theorem appendRegions_first {before after : List Smap} (h : MemoryMap (before ++ r :: after))
    (h0 : s.freeList = 0) (hbefore : ∀ r' ∈ before, ¬ r'.Straddles (roundUp physfree).toNat) :
    appendRegions physfree (before ++ r :: after) s =
      appendFreeList r.base (r.base + r.length) physfree s >>= appendRegions physfree after := by
  have hidle := appendRegions_idle (h.sublist (List.sublist_append_left _ _)) h0 hbefore
  rw [appendRegions_append, hidle, ok_bind, appendRegions_cons]
  exact h.usable r (List.mem_append_right _ List.mem_cons_self)

theorem Listed.firstState (hb : b % 4096 = 0) {n : Nat} (hn : n ≠ 0) (s : Boot) :
    Listed (firstState b n s).mem b n := by
  obtain ⟨k, rfl⟩ := Nat.exists_eq_succ_of_ne_zero hn
  exact Links.listed fun j hj => firstMem_links hb s.mem (k + 1) j (by omega)

/-- The rounds of a later region fit behind `T` descriptors. -/
theorem Smap.rounds_le (hu : r.IsUsable) {n : Nat} (hn : r.stop = r.start + 4096 * n) :
    n + 1 ≤ 2 * r.length.toNat := by
  have hlen := (ne_zero_iff_toNat r.length).mp hu.2
  have hstart := le_up r.base.toNat
  have hstop := le_up r.limit
  unfold Smap.stop Smap.start at hn
  unfold Smap.limit at hn hstop
  omega

theorem Smap.exists_rounds (r : Smap) : ∃ n, r.stop = r.start + 4096 * n := by
  have hle := r.start_le_stop
  have h1 : r.start % 4096 = 0 := up_mod _
  have h2 : r.stop % 4096 = 0 := up_mod _
  exact ⟨(r.stop - r.start) / 4096, by omega⟩

/-- After any later region the list shows the frame 0 or a frame behind all regions. -/
theorem appendRegions_later (hb : (roundUp physfree).toNat = b) (hb0 : b ≠ 0) (hb53 : b < 2 ^ 53)
    {T lim : Nat} (hlim : b ≤ up lim) (hT : T ≤ 2 * lim) (hlist : s.freeList = descAt b 0)
    (hs : Listed s.mem b T) (h : MemoryMap regions) (hafter : ∀ r ∈ regions, lim ≤ r.base.toNat)
    (hne : regions ≠ []) :
    ∃ s' N, appendRegions physfree regions s = .ok s' ∧ s'.freeList = descAt b 0 ∧ Room b N ∧
      Shows s'.mem b N fun p => p = 0 ∨ ∀ r ∈ regions, r.limit ≤ p.toNat := by
  have hmod : b % 4096 = 0 := hb ▸ roundUp_mod physfree
  induction regions generalizing s T lim with
  | nil => exact absurd rfl hne
  | cons r rest ih =>
    obtain ⟨n, hn⟩ := r.exists_rounds
    have hu := h.usable r List.mem_cons_self
    have hbd := h.bounded r List.mem_cons_self
    have hbase := hafter r List.mem_cons_self
    have hrounds := Smap.rounds_le hu hn
    have hstart : b ≤ r.start := hlim.trans (up_mono hbase)
    have hstartmod : r.start % 4096 = 0 := up_mod _
    have hlimit : r.limit = r.base.toNat + r.length.toNat := rfl
    have hroom : Room b (T + n + 1) := ⟨hb0, hmod, by omega⟩
    obtain ⟨t, ht, hreach, -, hrun⟩ := appendFreeList_later hbd hb hroom hlist hs hstart hn
    rw [appendRegions_cons hu, hrun, ok_bind]
    by_cases hrest : rest = []
    · subst hrest
      refine ⟨_, t + n + 1 + 1, rfl, rfl, hroom.mono (by omega), ?_⟩
      refine Shows.writeNext ?_ 0
      obtain ⟨hr, hp⟩ | hzero := laterMem_shows (m := s.mem) hreach hmod hstartmod n
      · refine ⟨t + n + 1, by omega, hr, Or.inr fun r' hr' => ?_⟩
        have hstop := Smap.stop_lt hbd
        have hup := le_up r.limit
        rw [List.mem_singleton.mp hr', hp, ← hn, ofNat_toNat_low (by omega)]
        exact hup.1
      · exact (hzero.mono (Nat.le_succ _)).imp fun p hp => Or.inl hp
    · have hlinks := laterMem_links (m := s.mem) (t := t) (i := r.start)
        (fun j hj => hs.links j (by omega)) hmod hstartmod (n + 1)
      have hs' : Listed (writeWord (laterMem b t r.start s.mem (n + 1)) (b + 24 * (t + n + 1)) 0) b
          (t + n + 1 + 1) := Links.listed hlinks
      have hasc := List.pairwise_cons.mp h.ascending
      have hlim' : b ≤ up r.limit := hstart.trans (r.start_le_stop)
      obtain ⟨s', N, hrun', hlist', hroom', hshow⟩ := ih (s := ⟨_, _, _⟩) hlim'
        (by omega) rfl hs' (h.sublist (List.sublist_cons_self r rest)) hasc.1 hrest
      refine ⟨s', N, hrun', hlist', hroom', hshow.imp fun p hp => hp.imp id fun hall r' hr' => ?_⟩
      obtain rfl | hr' := List.mem_cons.mp hr'
      · obtain ⟨z, rest', rfl⟩ := List.exists_cons_of_ne_nil hrest
        have hz := hall z List.mem_cons_self
        have hzb := hasc.1 z List.mem_cons_self
        unfold Smap.limit at hz
        omega
      · exact hall r' hr'

/-! ## The free list -/

theorem exists_first_straddling (regions : List Smap) (b : Nat) :
    (∀ r ∈ regions, ¬ r.Straddles b) ∨
      ∃ before r after, regions = before ++ r :: after ∧ r.Straddles b ∧
        ∀ r' ∈ before, ¬ r'.Straddles b := by
  induction regions with
  | nil => exact Or.inl (by simp)
  | cons r regions ih =>
    by_cases hr : r.Straddles b
    · exact Or.inr ⟨[], r, regions, rfl, hr, by simp⟩
    obtain hnone | ⟨before, r', after, rfl, hr', hbefore⟩ := ih
    · exact Or.inl (List.forall_mem_cons.mpr ⟨hr, hnone⟩)
    · exact Or.inr ⟨r :: before, r', after, rfl, hr', List.forall_mem_cons.mpr ⟨hr, hbefore⟩⟩

/-- The list of the first region alone. -/
theorem firstState_holds {n : Nat} (hb : b % 4096 = 0) (hn : n ≤ 2 ^ 19) (s : Boot) :
    Holds (firstState b n s).mem b n (fun j => b + 4096 * j) ∧
      nextAt (firstState b n s).mem b (n - 1) = 0 := by
  obtain ⟨-, hh⟩ := firstMem_holds hb s.mem hn
  unfold firstState
  dsimp only
  refine ⟨⟨fun j hj => ?_, fun j hj => ?_⟩, ?_⟩
  · rw [nextAt_writeNext, if_neg (by omega)]
    exact hh.links j hj
  · rw [pAddrAt_writeNext]
    exact hh.frames j hj
  · rw [nextAt_writeNext, if_pos rfl]

theorem firstState_shows_zero {n : Nat} (hb : b % 4096 = 0) (hn : 2 ^ 19 < n) (s : Boot) :
    Shows (firstState b n s).mem b n (· = 0) := by
  obtain ⟨k, rfl⟩ := Nat.exists_eq_succ_of_ne_zero (show n ≠ 0 by omega)
  exact (firstMem_shows_zero hb s.mem hn).writeNext 0

/-- A list that shows a frame which is not usable is not exact. -/
theorem Shows.not_exact {m : Mem} {N : Nat} {P : Word → Prop} (h : Shows m b N P)
    (hroom : Room b N) {l : List (Word × Word)} (hl : BootChain m (descAt b 0) l)
    {U : Word → Prop} (hall : ∀ f, f ∈ l.map Prod.snd → U f) : ∃ f, P f ∧ U f := by
  obtain ⟨k, hk, hr, hp⟩ := h
  exact ⟨_, hp, hall _ (hr.mem_chain hroom hk.le 0 k (by omega) hl)⟩

theorem MemoryMap.limit_le_last {before : List Smap} (h : MemoryMap (before ++ [r])) :
    ∀ r' ∈ before ++ [r], r'.limit ≤ r.limit := by
  intro r' hr'
  obtain hr' | hr' := List.mem_append.mp hr'
  · have := (List.pairwise_append.mp h.ascending).2.2 r' hr' r List.mem_cons_self
    unfold Smap.limit at this ⊢
    omega
  · rw [List.mem_singleton.mp hr']

/-- The frames of an exact list. -/
theorem usableFrame_iff {before : List Smap} (h : MemoryMap (before ++ [r])) {b n : Nat}
    (hb : b % 4096 = 0) (hr : r.Straddles b) (hn : r.stop = b + 4096 * n)
    (hlast : r.limit % 4096 = 0) (f : Nat) :
    UsableFrame b (before ++ [r]) f ↔ ∃ j < n, f = b + 4096 * j := by
  have hstop : r.stop = r.limit := by
    unfold Smap.stop up
    omega
  have hbase : r.base.toNat ≤ b := (le_up _).1.trans hr.1
  constructor
  · intro hf
    obtain ⟨hmod, hbf, r', hr', -, hin⟩ := hf
    have := h.limit_le_last r' hr'
    exact ⟨(f - b) / 4096, by omega, by omega⟩
  · intro hf
    obtain ⟨j, hj, rfl⟩ := hf
    refine ⟨by omega, by omega, r, List.mem_append_right _ List.mem_cons_self, ?_⟩
    constructor <;> omega

theorem not_usableFrame_zero (hb0 : b ≠ 0) : ¬ UsableFrame b regions 0 :=
  fun hf => hb0 (Nat.le_zero.mp hf.2.1)

theorem MemoryMap.not_usableFrame_behind {before after : List Smap} {f : Nat}
    (h : MemoryMap (before ++ r :: after)) (hne : after ≠ [])
    (hbehind : ∀ r' ∈ after, r'.limit ≤ f) : ¬ UsableFrame b (before ++ r :: after) f := by
  rintro ⟨-, -, r', hr', -, hin⟩
  obtain ⟨z, rest, rfl⟩ := List.exists_cons_of_ne_nil hne
  obtain ⟨-, hasc, hbefore⟩ := List.pairwise_append.mp h.ascending
  have hz := hbehind z List.mem_cons_self
  have hzb := (List.pairwise_cons.mp hasc).1 z List.mem_cons_self
  have hzl : z.base.toNat ≤ z.limit := Nat.le_add_right _ _
  obtain hr' | hr' := List.mem_append.mp hr'
  · have := hbefore r' hr' r List.mem_cons_self
    have hrl : r.base.toNat ≤ r.limit := Nat.le_add_right _ _
    omega
  · obtain rfl | hr' := List.mem_cons.mp hr'
    · omega
    · have := hbehind r' hr'
      omega

/-! ## Lists of usable frames only -/

section OnlyUsable

variable {before after : List Smap} {s' : Boot} {l : List (Word × Word)} {n : Nat}

/-- A list that was begun has no null descriptor. -/
theorem Smap.begin_of_ok (hr : r.limit ≤ 2 ^ 52) (hu : r.IsUsable) (h0 : s.freeList = 0)
    (h : r.Straddles (roundUp physfree).toNat)
    (hrun : appendFreeList r.base (r.base + r.length) physfree s = .ok s') :
    (roundUp physfree).toNat ≠ 0 ∧ (roundUp physfree).toNat < r.stop := by
  have hnull : ¬ (roundUp physfree = 0 ∨ (roundUp physfree).toNat = r.stop) := by
    intro hnull
    rw [appendFreeList_null hr hu h0 h hnull] at hrun
    cases hrun
  have hle := h.2
  exact ⟨fun hzero => hnull (Or.inl (BitVec.eq_of_toNat_eq hzero)), by omega⟩

/-- A later region lists a frame behind its range. -/
theorem MemoryMap.no_later (hmap : MemoryMap (before ++ r :: after))
    (hb : (roundUp physfree).toNat = b) (hb0 : b ≠ 0) (hr : r.Straddles b)
    (hn : r.stop = b + 4096 * n) (hn0 : n ≠ 0)
    (hrun : appendRegions physfree after (firstState b n s) = .ok s')
    (hl : BootChain s'.mem s'.freeList l)
    (hall : ∀ f, f ∈ l.map Prod.snd → UsableFrame b (before ++ r :: after) f.toNat) :
    after = [] := by
  by_contra hne
  have hstop := Smap.stop_lt (hmap.bounded r (List.mem_append_right _ List.mem_cons_self))
  have hrange : n ≤ 2 * r.limit := by
    have := le_up r.limit
    unfold Smap.stop at hn
    omega
  have hsub : MemoryMap after := hmap.sublist ((List.sublist_cons_self r after).trans
    (List.sublist_append_right _ _))
  have hasc := (List.pairwise_cons.mp (List.pairwise_append.mp hmap.ascending).2.1).1
  have hlisted := Listed.firstState (hb ▸ roundUp_mod physfree) hn0 s
  obtain ⟨s₁, N, hrun₁, hlist, hroom, hshow⟩ := appendRegions_later hb hb0 (by omega) hr.2 hrange
    rfl hlisted hsub hasc hne
  obtain rfl : s₁ = s' := Except.ok.inj (hrun₁.symm.trans hrun)
  rw [hlist] at hl
  obtain ⟨f, rfl | hbehind, hf⟩ := hshow.not_exact hroom hl hall
  · exact not_usableFrame_zero hb0 hf
  · exact hmap.not_usableFrame_behind hne hbehind hf

/-- Of a region of more than 2 GiB the frame 0 is listed. -/
theorem firstState_few (hb : b % 4096 = 0) (hroom : Room b n)
    (hl : BootChain (firstState b n s).mem (firstState b n s).freeList l)
    (hall : ∀ f, f ∈ l.map Prod.snd → UsableFrame b regions f.toNat) : n ≤ 2 ^ 19 := by
  by_contra hbig
  obtain ⟨f, rfl, hf⟩ := (firstState_shows_zero hb (by omega) s).not_exact hroom hl hall
  exact not_usableFrame_zero hroom.notNull hf

/-- A region that ends inside a frame lists that frame. -/
theorem MemoryMap.limit_aligned (hmap : MemoryMap (before ++ [r])) (hroom : Room b n)
    (hn : r.stop = b + 4096 * n) (hn0 : n ≠ 0) (hsmall : n ≤ 2 ^ 19)
    (hl : BootChain (firstState b n s).mem (firstState b n s).freeList l)
    (hall : ∀ f, f ∈ l.map Prod.snd → UsableFrame b (before ++ [r]) f.toNat) :
    r.limit % 4096 = 0 := by
  by_contra hpart
  obtain ⟨hholds, -⟩ := firstState_holds hroom.aligned hsmall s
  have hreach : Reaches (firstState b n s).mem b (n - 1) := fun j hj => hholds.links j (by omega)
  have hstop := Smap.stop_lt (hmap.bounded r (List.mem_append_right _ List.mem_cons_self))
  have hf := hall _ (hreach.mem_chain hroom (by omega) 0 (n - 1) (by omega) hl)
  rw [hholds.frames (n - 1) (by omega), ofNat_toNat_low (by omega)] at hf
  obtain ⟨-, -, r', hr', -, hin⟩ := hf
  have hlast := hmap.limit_le_last r' hr'
  have hup := le_up r.limit
  have hmod : up r.limit % 4096 = 0 := up_mod _
  unfold Smap.stop at hn
  omega

end OnlyUsable

end Regions

section Exact

variable {m : Mem} {physfree : Word} {map : List Smap}

/-- The condition is enough. -/
theorem freeListExact_of_listsUsable (hmap : MemoryMap (map.filter Smap.IsUsable))
    (h : ListsUsable (roundUp physfree).toNat (map.filter Smap.IsUsable)) :
    FreeListExact m physfree map := by
  unfold FreeListExact buildFreeList
  rw [appendRegions_filter]
  generalize map.filter Smap.IsUsable = regions at hmap h
  obtain ⟨hidle, hnone⟩ | ⟨before, r, rfl, hbefore, hr, hb0, hlt, hle, hlast⟩ := h
  · refine ⟨_, [], appendRegions_idle hmap rfl hidle, rfl, List.nodup_nil, fun f => ?_⟩
    simp [hnone]
  generalize hb : (roundUp physfree).toNat = b at hbefore hr hb0 hlt hle ⊢
  have hmod : b % 4096 = 0 := hb ▸ roundUp_mod physfree
  have hstopmod : r.stop % 4096 = 0 := up_mod _
  obtain ⟨n, hn⟩ : ∃ n, r.stop = b + 4096 * n := ⟨(r.stop - b) / 4096, by omega⟩
  have hmem : r ∈ before ++ [r] := List.mem_append_right _ List.mem_cons_self
  have hbd := hmap.bounded r hmem
  obtain ⟨hroom, hrun⟩ := appendFreeList_first (s := initializeFreeList m) hbd rfl (hb ▸ hr) hb hb0
    hn (by omega)
  obtain ⟨hholds, hnull⟩ := firstState_holds hmod (n := n) (by omega)
    (initializeFreeList m)
  refine ⟨firstState b n (initializeFreeList m), _, ?_,
    hholds.chain hroom hnull 0 n (by omega) (by omega), ?_, fun f => ?_⟩
  · rw [appendRegions_first hmap rfl (hb.symm ▸ hbefore), hrun]
    rfl
  · rw [List.map_map]
    refine List.Nodup.map_on ?_ List.nodup_range'
    intro x hx y hy hxy
    have hstop := Smap.stop_lt hbd
    rw [List.mem_range'_1] at hx hy
    have := congrArg BitVec.toNat hxy
    simp only [Function.comp_apply] at this
    rw [ofNat_toNat_low (by omega), ofNat_toNat_low (by omega)] at this
    omega
  · have hstop := Smap.stop_lt hbd
    rw [usableFrame_iff hmap hmod hr hn hlast, List.map_map]
    simp only [List.mem_map, List.mem_range'_1, Function.comp_apply]
    constructor
    · intro hf
      obtain ⟨j, hj, rfl⟩ := hf
      exact ⟨j, by omega, ofNat_toNat_low (by omega)⟩
    · intro hf
      obtain ⟨j, hj, hfj⟩ := hf
      refine ⟨j, by omega, ?_⟩
      rw [← hfj, BitVec.ofNat_toNat, BitVec.setWidth_eq]

/-- The condition is needed. -/
theorem listsUsable_of_freeListExact (hmap : MemoryMap (map.filter Smap.IsUsable))
    (h : FreeListExact m physfree map) :
    ListsUsable (roundUp physfree).toNat (map.filter Smap.IsUsable) := by
  unfold FreeListExact buildFreeList at h
  rw [appendRegions_filter] at h
  generalize map.filter Smap.IsUsable = regions at hmap h
  obtain ⟨s, l, hrun, hl, -, hexact⟩ := h
  obtain hidle | ⟨before, r, after, rfl, hr, hbefore⟩ :=
    exists_first_straddling regions (roundUp physfree).toNat
  · refine Or.inl ⟨hidle, fun f hf => ?_⟩
    rw [appendRegions_idle hmap rfl hidle] at hrun
    cases hrun
    have hlow : f < 2 ^ 52 := by
      obtain ⟨-, -, r, hr, -, hin⟩ := hf
      have := hmap.bounded r hr
      omega
    have hf' := (hexact (BitVec.ofNat 64 f)).mpr (by rwa [ofNat_toNat_low (by omega)])
    cases l with
    | nil => cases hf'
    | cons e l => exact hl.2.1 hl.1.symm
  generalize hb : (roundUp physfree).toNat = b at hbefore hr hexact ⊢
  have hmod : b % 4096 = 0 := hb ▸ roundUp_mod physfree
  have hmem : r ∈ before ++ r :: after := List.mem_append_right _ List.mem_cons_self
  have hbd := hmap.bounded r hmem
  have hu := hmap.usable r hmem
  have hstopmod : r.stop % 4096 = 0 := up_mod _
  rw [appendRegions_first hmap rfl (hb.symm ▸ hbefore)] at hrun
  obtain ⟨s₁, hfirst, hrest⟩ := bind_eq_ok.mp hrun
  obtain ⟨hb0, hlt⟩ := Smap.begin_of_ok hbd hu rfl (hb ▸ hr) hfirst
  rw [hb] at hb0 hlt
  obtain ⟨n, hn⟩ : ∃ n, r.stop = b + 4096 * n := ⟨(r.stop - b) / 4096, by omega⟩
  obtain ⟨hroom, hfirst'⟩ := appendFreeList_first (s := initializeFreeList m) hbd rfl (hb ▸ hr) hb
    hb0 hn (by omega)
  obtain rfl := Except.ok.inj (hfirst'.symm.trans hfirst)
  have hall := fun f hf => (hexact f).mp hf
  obtain rfl := hmap.no_later hb hb0 hr hn (by omega) hrest hl hall
  cases hrest
  have hsmall := firstState_few hmod hroom hl hall
  exact Or.inr ⟨before, r, rfl, hbefore, hr, hb0, hlt, by omega,
    hmap.limit_aligned hroom hn (by omega) hsmall hl hall⟩

/-- A PC with memory below 640 KiB and from 1 MiB to 128 MiB less 128 KiB. -/
def samplePcMap : List Smap := [⟨0, 0x9fc00, 1⟩, ⟨0x9fc00, 0x400, 2⟩, ⟨0x100000, 0x7ee0000, 1⟩]

theorem samplePcMap_filter :
    samplePcMap.filter Smap.IsUsable = [⟨0, 0x9fc00, 1⟩, ⟨0x100000, 0x7ee0000, 1⟩] := by
  decide

theorem samplePcMap_memoryMap : MemoryMap (samplePcMap.filter Smap.IsUsable) := by
  rw [samplePcMap_filter]
  constructor
  · decide
  · decide
  · decide

/-- A second usable region, above the first. -/
def sampleHoleMap : List Smap := [⟨0x100000, 0x7ee0000, 1⟩, ⟨0x9000000, 0x1000000, 1⟩]

theorem sampleHoleMap_filter : sampleHoleMap.filter Smap.IsUsable = sampleHoleMap := by decide

end Exact

end SBUnix
