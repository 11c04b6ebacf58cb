import Mathlib

/-
  A stack of 64-bit words that grows downwards.

  `Frame mem p top ws` says that the words `ws` lie from `p` up to `top`. A push puts its word in
  front (`State.Holds.push`), a pop takes the front word (`State.Holds.pop`). Saving a list of
  registers and restoring it in reverse gives every register back (`State.Holds.popAll`), whatever
  happened to the registers in between, as long as the words are still there. Pushes write nothing
  but words below the stack pointer (`KeptBut`).
-/

namespace Stack

/-- Registers, the stack pointer and the memory, by the address of each word. -/
structure State (R : Type*) where
  regs : R → BitVec 64
  rsp : BitVec 64
  mem : BitVec 64 → BitVec 64

/-- The words `ws` lie from `p` up to `top`. -/
def Frame (mem : BitVec 64 → BitVec 64) : BitVec 64 → BitVec 64 → List (BitVec 64) → Prop
  | p, top, [] => p = top
  | p, top, w :: ws => mem p = w ∧ Frame mem (p + 8) top ws

variable {R : Type*} {mem mem' : BitVec 64 → BitVec 64} {p top w : BitVec 64}
  {ws : List (BitVec 64)}

/-- The address of word `i` above `p`. -/
def slot (p : BitVec 64) (i : Nat) : BitVec 64 := p + BitVec.ofNat 64 (8 * i)

theorem slot_zero (p : BitVec 64) : slot p 0 = p := BitVec.add_zero p

theorem slot_succ (p : BitVec 64) (i : Nat) : slot p (i + 1) = slot (p + 8) i := by
  unfold slot
  rw [Nat.mul_add, Nat.add_comm, BitVec.ofNat_add, BitVec.add_assoc]
  rfl

theorem Frame.congr (h : Frame mem p top ws)
    (hmem : ∀ i < ws.length, mem' (slot p i) = mem (slot p i)) : Frame mem' p top ws := by
  induction ws generalizing p with
  | nil => exact h
  | cons w ws ih =>
    have hfirst := hmem 0 (Nat.succ_pos _)
    rw [slot_zero] at hfirst
    refine ⟨hfirst.trans h.1, ih h.2 fun i hi => ?_⟩
    have hword := hmem (i + 1) (Nat.succ_lt_succ hi)
    rwa [slot_succ] at hword

theorem Frame.top_eq (h : Frame mem p top ws) : top = slot p ws.length := by
  induction ws generalizing p with
  | nil => rw [List.length_nil, slot_zero, h]
  | cons w ws ih => rw [List.length_cons, slot_succ, ← ih h.2]

theorem Frame.mem_slot (h : Frame mem p top ws) (i : Nat) (hi : i < ws.length) :
    mem (slot p i) = ws[i] := by
  induction ws generalizing p i with
  | nil => exact absurd hi (Nat.not_lt_zero i)
  | cons w ws ih =>
    cases i with
    | zero => rw [slot_zero, h.1, List.getElem_cons_zero]
    | succ i => rw [slot_succ, ih h.2 i (Nat.lt_of_succ_lt_succ hi), List.getElem_cons_succ]

theorem slot_ne (p : BitVec 64) {i : Nat} (hi : i + 1 < 2 ^ 61) : slot p i ≠ p - 8 := by
  intro he
  have hsum : BitVec.ofNat 64 (8 * i) = -8 := by
    unfold slot at he
    rw [BitVec.sub_eq_add_neg] at he
    exact (BitVec.add_right_inj p).mp he
  have := congrArg BitVec.toNat hsum
  rw [BitVec.toNat_ofNat, show (-8 : BitVec 64).toNat = 2 ^ 64 - 8 from rfl] at this
  omega

/-- The words above `p` fill `8 * ws.length` bytes. -/
theorem Frame.toNat_sub (h : Frame mem p top ws) (hlen : ws.length < 2 ^ 61) :
    (top - p).toNat = 8 * ws.length := by
  rw [h.top_eq]
  unfold slot
  rw [BitVec.add_comm, BitVec.add_sub_cancel, BitVec.toNat_ofNat]
  omega

/-! ## Pushing and popping -/

def State.push (s : State R) (w : BitVec 64) : State R :=
  { s with rsp := s.rsp - 8, mem := fun a => if a = s.rsp - 8 then w else s.mem a }

def State.pop [DecidableEq R] (s : State R) (r : R) : State R :=
  { s with rsp := s.rsp + 8, regs := fun r' => if r' = r then s.mem s.rsp else s.regs r' }

/-- The stack of `s` holds `ws`, up to `top`. -/
def State.Holds (s : State R) (top : BitVec 64) (ws : List (BitVec 64)) : Prop :=
  Frame s.mem s.rsp top ws

theorem State.Holds.push {s : State R} (h : s.Holds top ws) (w : BitVec 64)
    (hlen : ws.length < 2 ^ 61) : (s.push w).Holds top (w :: ws) := by
  refine ⟨if_pos rfl, ?_⟩
  have hrsp : (s.push w).rsp + 8 = s.rsp := BitVec.sub_add_cancel s.rsp 8
  rw [hrsp]
  refine Frame.congr h fun i hi => ?_
  exact if_neg (slot_ne s.rsp (by omega))

section Registers

variable [DecidableEq R] {s : State R}

theorem State.Holds.pop (h : s.Holds top (w :: ws)) (r : R) : (s.pop r).Holds top ws := h.2

theorem State.Holds.pop_regs (h : s.Holds top (w :: ws)) (r r' : R) :
    (s.pop r).regs r' = if r' = r then w else s.regs r' := by
  unfold State.pop
  dsimp only
  rw [h.1]

def State.pushAll (s : State R) (rs : List R) : State R := rs.foldl (fun s r => s.push (s.regs r)) s

def State.popAll (s : State R) (rs : List R) : State R := rs.foldl State.pop s

omit [DecidableEq R] in
/-- Saving registers: the last one lies in front. -/
theorem State.Holds.pushAll (h : s.Holds top ws) (rs : List R)
    (hlen : rs.length + ws.length < 2 ^ 61) :
    (s.pushAll rs).regs = s.regs ∧ (s.pushAll rs).Holds top (rs.reverse.map s.regs ++ ws) := by
  induction rs generalizing s ws with
  | nil => exact ⟨rfl, h⟩
  | cons r rs ih =>
    rw [List.length_cons] at hlen
    obtain ⟨hregs, hholds⟩ := ih (h.push (s.regs r) (by omega)) (by rw [List.length_cons]; omega)
    refine ⟨hregs, ?_⟩
    rw [List.reverse_cons, List.map_append, List.append_assoc]
    exact hholds

/-- Restoring registers from the words in front. -/
theorem State.Holds.popAll (rs : List R) (f : R → BitVec 64)
    (h : s.Holds top (rs.map f ++ ws)) :
    (s.popAll rs).Holds top ws ∧
      ∀ r, (s.popAll rs).regs r = if r ∈ rs then f r else s.regs r := by
  induction rs generalizing s with
  | nil => exact ⟨h, fun r => rfl⟩
  | cons r rs ih =>
    obtain ⟨hholds, hregs⟩ := ih (State.Holds.pop h r)
    refine ⟨hholds, fun r' => ?_⟩
    show ((s.pop r).popAll rs).regs r' = _
    rw [hregs, State.Holds.pop_regs h]
    by_cases hmem : r' ∈ rs
    · rw [if_pos hmem, if_pos (List.mem_cons_of_mem r hmem)]
    · by_cases hr : r' = r
      · rw [if_neg hmem, if_pos hr, if_pos (hr ▸ List.mem_cons_self), hr]
      · rw [if_neg hmem, if_neg hr, if_neg (by simp [hr, hmem])]

end Registers

/-! ## What pushing leaves alone -/

theorem slot_sub (p : BitVec 64) {i k : Nat} (hk : k ≤ i) :
    slot p i - BitVec.ofNat 64 (8 * k) = slot p (i - k) := by
  unfold slot
  rw [show 8 * i = 8 * (i - k) + 8 * k by omega, BitVec.ofNat_add, ← BitVec.add_assoc,
    BitVec.add_sub_cancel]

theorem slot_slot (p : BitVec 64) (i j : Nat) : slot (slot p i) j = slot p (i + j) := by
  unfold slot
  rw [BitVec.add_assoc, ← BitVec.ofNat_add, ← Nat.mul_add]

theorem slot_toNat {p : BitVec 64} {i : Nat} (h : p.toNat + 8 * i < 2 ^ 64) :
    (slot p i).toNat = p.toNat + 8 * i := by
  unfold slot
  rw [BitVec.toNat_add, BitVec.toNat_ofNat]
  omega

theorem slot_inj {p : BitVec 64} {i j : Nat} (hi : i < 2 ^ 61) (hj : j < 2 ^ 61)
    (h : slot p i = slot p j) : i = j := by
  have hnat := congrArg BitVec.toNat ((BitVec.add_right_inj p).mp h)
  rw [BitVec.toNat_ofNat, BitVec.toNat_ofNat] at hnat
  omega

/-- Rounding down to a multiple of 16. -/
theorem and_not_fifteen (a : BitVec 64) : (a &&& ~~~15#64).toNat = a.toNat / 16 * 16 := by
  have hshift : a &&& ~~~15#64 = (a >>> 4) <<< 4 := by
    apply BitVec.eq_of_getLsbD_eq
    intro i hi
    simp only [BitVec.getLsbD_and, BitVec.getLsbD_not, BitVec.getLsbD_shiftLeft,
      BitVec.getLsbD_ushiftRight, BitVec.getLsbD_ofNat]
    by_cases h4 : i < 4
    · have hfifteen : Nat.testBit 15 i = true := by
        interval_cases i <;> rfl
      simp [h4, hi, hfifteen]
    · have hfifteen : Nat.testBit 15 i = false :=
        Nat.testBit_lt_two_pow (lt_of_lt_of_le (by decide : 15 < 2 ^ 4)
          (Nat.pow_le_pow_right (by decide) (by omega)))
      simp [h4, hi, hfifteen, show 4 + (i - 4) = i by omega]
  rw [hshift, BitVec.toNat_shiftLeft, BitVec.toNat_ushiftRight, Nat.shiftLeft_eq,
    Nat.shiftRight_eq_div_pow]
  have := a.isLt
  omega

/-- A word of a stack, rounded down to a multiple of 16, is that word or the one below. -/
theorem slot_aligned {i : Nat} (hp : p.toNat % 8 = 0) (hi : 1 ≤ i) :
    ∃ i', i' ≤ i ∧ i ≤ i' + 1 ∧ slot p i &&& ~~~15#64 = slot p i' := by
  have hmod : (slot p i).toNat % 8 = 0 := by
    unfold slot
    rw [BitVec.toNat_add, BitVec.toNat_ofNat]
    omega
  have hnat := and_not_fifteen (slot p i)
  by_cases h16 : (slot p i).toNat % 16 = 0
  · refine ⟨i, le_rfl, by omega, BitVec.eq_of_toNat_eq ?_⟩
    rw [hnat]
    omega
  · refine ⟨i - 1, by omega, by omega, ?_⟩
    rw [← slot_sub p hi]
    apply BitVec.eq_of_toNat_eq
    rw [hnat, BitVec.toNat_sub, BitVec.toNat_ofNat]
    have := (slot p i).isLt
    omega
/-- `a` is one of the `n` words below `p`. -/
def Below (p : BitVec 64) (n : Nat) (a : BitVec 64) : Prop :=
  ∃ j < n, a = p - BitVec.ofNat 64 (8 * (j + 1))

/-- `mem'` is `mem`, but for the `n` words below `p`. -/
def KeptBut (p : BitVec 64) (n : Nat) (mem mem' : BitVec 64 → BitVec 64) : Prop :=
  ∀ a, ¬ Below p n a → mem' a = mem a

theorem below_slot {a : BitVec 64} {i n : Nat} (hn : n ≤ i) (h : Below (slot p i) n a) :
    ∃ l, i ≤ l + n ∧ l < i ∧ a = slot p l := by
  obtain ⟨j, hj, rfl⟩ := h
  exact ⟨i - (j + 1), by omega, by omega, slot_sub p (by omega)⟩

theorem not_below_slot {i l n : Nat} (hn : n ≤ i) (hil : i ≤ l) (hl : l < 2 ^ 61) :
    ¬ Below (slot p i) n (slot p l) := by
  intro h
  obtain ⟨l', -, hlt, heq⟩ := below_slot hn h
  have := slot_inj hl (by omega) heq
  omega

theorem KeptBut.trans {mem'' : BitVec 64 → BitVec 64} {n k : Nat} (h : KeptBut p n mem mem')
    (h' : KeptBut (p - BitVec.ofNat 64 (8 * n)) k mem' mem'') : KeptBut p (n + k) mem mem'' := by
  intro a ha
  rw [h' a, h a]
  · exact fun ⟨j, hj, hja⟩ => ha ⟨j, by omega, hja⟩
  · rintro ⟨j, hj, rfl⟩
    refine ha ⟨n + j, by omega, ?_⟩
    rw [BitVec.sub_sub, ← BitVec.ofNat_add, show 8 * n + 8 * (j + 1) = 8 * (n + j + 1) by omega]

theorem State.push_kept (s : State R) (w : BitVec 64) : KeptBut s.rsp 1 s.mem (s.push w).mem := by
  intro a ha
  exact if_neg fun hw => ha ⟨0, Nat.one_pos, hw⟩

theorem State.push_rsp (s : State R) (w : BitVec 64) :
    (s.push w).rsp = s.rsp - BitVec.ofNat 64 (8 * 1) := rfl

theorem State.pushAll_kept (s : State R) (rs : List R) :
    (s.pushAll rs).rsp = s.rsp - BitVec.ofNat 64 (8 * rs.length) ∧
      KeptBut s.rsp rs.length s.mem (s.pushAll rs).mem := by
  induction rs generalizing s with
  | nil => exact ⟨(BitVec.sub_zero s.rsp).symm, fun _ _ => rfl⟩
  | cons r rs ih =>
    obtain ⟨hrsp, hkept⟩ := ih (s.push (s.regs r))
    rw [List.length_cons, Nat.add_comm]
    refine ⟨?_, (s.push_kept _).trans hkept⟩
    show ((s.push (s.regs r)).pushAll rs).rsp = _
    rw [hrsp, State.push_rsp, BitVec.sub_sub, ← BitVec.ofNat_add, ← Nat.mul_add]

theorem State.popAll_mem [DecidableEq R] (s : State R) (rs : List R) :
    (s.popAll rs).mem = s.mem := by
  induction rs generalizing s with
  | nil => rfl
  | cons r rs ih => exact ih (s.pop r)

end Stack
