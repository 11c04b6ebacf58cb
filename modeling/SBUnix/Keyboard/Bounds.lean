import SBUnix.Keyboard.Model

/-
  Where the keyboard interrupt stores.

  A character is stored only while `key_count < 256`, the NUL of an ENTER always. So the buffer is
  overrun exactly by an ENTER that finds 256 characters pending (`bounded_iff`).
-/

namespace SBUnix.Keyboard

open ByteMem

/-- `key_count` is in range, and so was every index stored to. -/
structure Bounded (k : Globals) : Prop where
  count : 0 ≤ k.keyCount ∧ k.keyCount ≤ 256
  stores : ∀ i ∈ k.stores, 0 ≤ i ∧ i < 256

/-- An ENTER finds room for its NUL. -/
def Room (k : Globals) : Event → Prop
  | .keyboardInterrupt key => hexToChar key = kbEnter → k.keyCount < 256
  | _ => True

section Step

variable {k : Globals} {mem : Int → Byte} {es : List Event} {key : Byte} {n : Nat}

theorem incInt_of_lt {i : Int} (h₀ : 0 ≤ i) (h : i < 2 ^ 31 - 1) : incInt i = i + 1 := by
  unfold incInt
  rw [Int.bmod_def]
  omega

/-- What an interrupt does: nothing, or it stores one byte. -/
theorem keyboardInterrupt_cases (key : Byte) (k : Globals) :
    (hexToChar key = kbEnter ∧
        keyboardInterrupt key k = { k.push 0 with keyboardFlag := true }) ∨
      (hexToChar key ≠ kbEnter ∧ hexToChar key ≠ 0 ∧ k.keyCount < 256 ∧
        keyboardInterrupt key k = k.push (hexToChar key)) ∨
      (hexToChar key ≠ kbEnter ∧ (hexToChar key ≠ 0 → 256 ≤ k.keyCount) ∧
        keyboardInterrupt key k = k) := by
  unfold keyboardInterrupt
  dsimp only
  by_cases hzero : hexToChar key = 0
  · refine Or.inr (Or.inr ⟨?_, fun h => absurd hzero h, if_neg (not_not.mpr hzero)⟩)
    rw [hzero]
    decide
  · rw [if_pos hzero]
    by_cases henter : hexToChar key = kbEnter
    · exact Or.inl ⟨henter, if_pos henter⟩
    · rw [if_neg henter]
      by_cases hroom : k.keyCount < 256
      · exact Or.inr (Or.inl ⟨henter, hzero, hroom, if_pos hroom⟩)
      · exact Or.inr (Or.inr ⟨henter, fun _ => not_lt.mp hroom, if_neg hroom⟩)

/-- One more store is in bounds exactly when there was room. -/
theorem Bounded.push_iff (h : Bounded k) (b : Byte) : Bounded (k.push b) ↔ k.keyCount < 256 := by
  obtain ⟨h₀, hle⟩ := h.count
  have hinc : (k.push b).keyCount = k.keyCount + 1 := incInt_of_lt h₀ (by omega)
  constructor
  · intro hb
    exact (hb.stores k.keyCount List.mem_cons_self).2
  · intro hlt
    refine ⟨by omega, fun i hi => ?_⟩
    obtain rfl | hi := List.mem_cons.mp hi
    · exact ⟨h₀, hlt⟩
    · exact h.stores i hi

theorem Bounded.step_iff (h : Bounded k) (e : Event) : Bounded (step k e) ↔ Room k e := by
  cases e with
  | clearFlag => exact ⟨fun _ => trivial, fun _ => ⟨h.count, h.stores⟩⟩
  | clearBuffer => exact ⟨fun _ => trivial, fun _ => ⟨h.count, h.stores⟩⟩
  | clearCount => exact ⟨fun _ => trivial, fun _ => ⟨⟨le_rfl, (by decide : (0 : Int) ≤ 256)⟩, h.stores⟩⟩
  | keyboardInterrupt key =>
    show Bounded (keyboardInterrupt key k) ↔ (hexToChar key = kbEnter → k.keyCount < 256)
    obtain ⟨henter, hk⟩ | ⟨henter, -, hroom, hk⟩ | ⟨henter, -, hk⟩ := keyboardInterrupt_cases key k
    · rw [hk]
      have hiff := h.push_iff 0
      exact ⟨fun hb _ => hiff.mp ⟨hb.count, hb.stores⟩, fun hroom =>
        ⟨(hiff.mpr (hroom henter)).count, (hiff.mpr (hroom henter)).stores⟩⟩
    · rw [hk]
      exact ⟨fun _ he => absurd he henter, fun _ => (h.push_iff _).mpr hroom⟩
    · rw [hk]
      exact ⟨fun _ he => absurd he henter, fun _ => h⟩

theorem run_concat (k : Globals) (es : List Event) (e : Event) :
    run k (es ++ [e]) = step (run k es) e := by
  rw [run, List.foldl_append]
  rfl

theorem bounded_boot (mem : Int → Byte) : Bounded (boot mem) :=
  ⟨⟨le_rfl, (by decide : (0 : Int) ≤ 256)⟩, fun _ hi => absurd hi List.not_mem_nil⟩

end Step

/-- In every run the buffer bounds hold in all states exactly when no ENTER comes while 256
    characters are pending. -/
theorem bounded_iff (mem : Int → Byte) (es : List Event) :
    (∀ before, before <+: es → Bounded (run (boot mem) before)) ↔
      ∀ before e, before ++ [e] <+: es → Room (run (boot mem) before) e := by
  constructor
  · intro h before e hpre
    have hbefore := h before ((List.prefix_append before [e]).trans hpre)
    have hafter := h _ hpre
    rw [run_concat] at hafter
    exact (hbefore.step_iff e).mp hafter
  · intro h before
    -- from the empty run on, one event after the other
    induction before using List.reverseRecOn with
    | nil => exact fun _ => bounded_boot mem
    | append_singleton before e ih =>
      intro hpre
      have hbefore := ih ((List.prefix_append before [e]).trans hpre)
      rw [run_concat]
      exact (hbefore.step_iff e).mpr (h before e hpre)

/-- Up to 256 characters are stored one behind the other. -/
theorem keyCount_replicate (mem : Int → Byte) {key : Byte} (hkey : hexToChar key ≠ 0)
    (henter : hexToChar key ≠ kbEnter) {n : Nat} (hn : n ≤ 256) :
    (run (boot mem) (List.replicate n (.keyboardInterrupt key))).keyCount = n := by
  induction n with
  | zero => rfl
  | succ n ih =>
    have hcount := ih (by omega)
    rw [List.replicate_succ', run_concat]
    generalize run (boot mem) (List.replicate n (.keyboardInterrupt key)) = k at hcount
    show (keyboardInterrupt key k).keyCount = _
    obtain ⟨he, -⟩ | ⟨-, -, -, hk⟩ | ⟨-, hfull, -⟩ := keyboardInterrupt_cases key k
    · exact absurd he henter
    · rw [hk]
      have hinc := incInt_of_lt (i := k.keyCount) (by omega) (by omega)
      show incInt k.keyCount = _
      omega
    · have := hfull hkey
      omega

/-- After 256 keys an ENTER stores its NUL behind the buffer. -/
theorem not_bounded_overrun :
    ¬ Bounded (run (boot fun _ => 0)
      (List.replicate 256 (.keyboardInterrupt 0x1e) ++ [.keyboardInterrupt 0x1c])) := by
  have hcount : (run (boot fun _ => 0) (List.replicate 256 (.keyboardInterrupt 0x1e))).keyCount =
      (256 : Nat) := keyCount_replicate (fun _ => 0) (by decide) (by decide) le_rfl
  rw [run_concat]
  intro hb
  have hstore := hb.stores 256 (by
    show 256 ∈ (run _ _).keyCount :: _
    rw [hcount]
    exact List.mem_cons_self)
  omega

end SBUnix.Keyboard
