import SBUnix.Paging.PageWalk

/-
  The recursive window, on any memory.

  `levelTable` follows the entries of `v` from a PML4 down, whatever they hold, and `levelEntry` is the
  entry at each depth. Slot 510 of the PML4 sends the walk back to where it started, so the address
  for depth `d` spends 4 - d levels on slot 510 and the others on the indices of `v`
  (`recWindow_windowAddr`): it reaches the entry at depth `d` when the ones above it are valid
  (`translate_windowAddr`).
-/

namespace SBUnix

open ByteMem Radix

/-- The table of `v` at depth `d`: the PML4, and then the frame that the entry above names. -/
def levelTable (mem : Mem) (root : Frame) (v : Word) : Nat → Frame
  | 0 => root
  | d + 1 => frameOf (entries mem (levelTable mem root v d) (idxAt v d))

/-- The entry of `v` at depth `d`: of the PML4, of the PDPT, of the PD, of the PT. -/
def levelEntry (mem : Mem) (root : Frame) (v : Word) (d : Nat) : Word :=
  entries mem (levelTable mem root v d) (idxAt v d)

/-- Its physical address. -/
def levelAddr (mem : Mem) (root : Frame) (v : Word) (d : Nat) : Nat :=
  entryAddr (levelTable mem root v d) (idxAt v d)

section Window

variable {mem : Mem} {root : Frame} {v : Word} {d : Nat}

theorem target_of_isValidPage {e : Word} (h : isValidPage e = true) :
    target e = some (frameOf e) := if_pos (present_of_isValidPage h)

/-- Below valid entries the walk of the CPU is at the table of `v`. -/
theorem walk_take_path (hd : d ≤ 4) (h : ∀ k < d, isValidPage (levelEntry mem root v k) = true) :
    walk target (entries mem) root ((path v).take d) = some (levelTable mem root v d) := by
  induction d with
  | zero => rfl
  | succ d ih =>
    have habove := ih (by omega) fun k hk => h k (by omega)
    rw [take_succ_path v (by omega), walk_concat, habove, Option.bind_some]
    exact target_of_isValidPage (h d (by omega))

/-- The window address for depth `d` reaches the entry, when the entries above are valid. -/
theorem translate_windowAddr (hself : frameOf (entries mem root selfSlot) = root)
    (hvalid : isValidPage (entries mem root selfSlot) = true) (hd : d < 4)
    (h : ∀ k < d, isValidPage (levelEntry mem root v k) = true) :
    translate mem root (windowAddr v d) = some (levelAddr mem root v d) := by
  have htarget : target (entries mem root selfSlot) = some root := by
    rw [target_of_isValidPage hvalid, hself]
  exact (recWindow_windowAddr v hd).translate_eq htarget (walk_take_path hd.le h)

end Window

/-- The four addresses of `page_walk` reach the entries of `v`, level by level, in every memory
    whose PML4 has itself in slot 510, and for every `v`. -/
theorem recursiveWindow_resolves (mem : Mem) (root : Frame) (v : Word)
    (hself : frameOf (entries mem root selfSlot) = root)
    (hvalid : isValidPage (entries mem root selfSlot) = true) :
    translate mem root (pml4RecAddr v) = some (levelAddr mem root v 0) ∧
    (isValidPage (levelEntry mem root v 0) = true →
      translate mem root (pdpeRecAddr v) = some (levelAddr mem root v 1) ∧
      (isValidPage (levelEntry mem root v 1) = true →
        translate mem root (pgdRecAddr v) = some (levelAddr mem root v 2) ∧
        (isValidPage (levelEntry mem root v 2) = true →
          translate mem root (pteRecAddr v) = some (levelAddr mem root v 3)))) := by
  have hlevel : ∀ d, d < 4 → (∀ k < d, isValidPage (levelEntry mem root v k) = true) →
      translate mem root (windowAddr v d) = some (levelAddr mem root v d) :=
    fun d hd h => translate_windowAddr hself hvalid hd h
  refine ⟨hlevel 0 (by omega) (by simp), fun h₀ => ⟨hlevel 1 (by omega) fun k hk => ?_, fun h₁ =>
    ⟨hlevel 2 (by omega) fun k hk => ?_, fun h₂ => hlevel 3 (by omega) fun k hk => ?_⟩⟩⟩
  · interval_cases k
    exact h₀
  · interval_cases k
    · exact h₀
    · exact h₁
  · interval_cases k
    · exact h₀
    · exact h₁
    · exact h₂

/-- A PML4 in frame 1, and tables in frames 2, 3 and 4 for one page. -/
def windowMem : Mem :=
  writeWord (writeWord (writeWord (writeWord (fun _ => 0) (entryAddr 1 selfSlot) 0x1003#64)
    (entryAddr 1 1) 0x2003#64) (entryAddr 2 2) 0x3003#64) (entryAddr 3 3) 0x4003#64

/-- The page of `0x8080604005` has its entry in slot 4 of frame 4. -/
theorem recursiveWindow_sample :
    translate windowMem 1 (pteRecAddr 0x8080604005#64) = some (4 * 4096 + 4 * 8) := by
  have h := recursiveWindow_resolves windowMem 1 0x8080604005#64 (by decide) (by decide)
  exact ((h.2 (by decide)).2 (by decide)).2 (by decide)

end SBUnix
