import SBUnix.Tarfs.Archive

/-
  The table of files as a list.

  `Table s es` says that the used slots of `vfs` hold `es`. On a table of at most 2048 entries
  `get_parent_index` is a search for the path up to a slash (`getParentIndex_eq`), and adding a
  file appends an entry (`addSlot_eq`); a table that is full has no slot left
  (`addSlot_full`).
-/

namespace SBUnix.Vfs

open ByteMem

/-- The used slots of `vfs`. -/
structure Table (s : State) (es : List Tarfs) : Prop where
  pointer : s.vfsPointer = es.length
  entry : ∀ i (hi : i < es.length), s.vfs i = es[i]

/-- The index of the first entry with a name. -/
def indexOf (es : List Tarfs) (name : List Byte) : Option Nat :=
  es.findIdx? fun e => e.name = name

/-- The path that `get_parent_index` looks up. -/
def parentName (file_name : List Byte) (slice_count : Nat) : List Byte :=
  file_name.take (sliceLoop file_name file_name.length slice_count + 1)

/-- What `get_parent_index` finds in a table. -/
def parentOf (es : List Tarfs) (file_name : List Byte) (slice_count : Nat) : Int :=
  match indexOf es (parentName file_name slice_count) with
  | some j => j
  | none => -2

section Strings

theorem strcmpLoop_eq_zero {a b : List Byte} (hlen : a.length = b.length) :
    strcmpLoop a b = 0 ↔ a = b := by
  induction a generalizing b with
  | nil =>
    obtain rfl := List.length_eq_zero_iff.mp hlen.symm
    simp [strcmpLoop]
  | cons x a ih =>
    cases b with
    | nil => exact absurd hlen (Nat.succ_ne_zero _)
    | cons y b =>
      rw [strcmpLoop]
      split_ifs with hxy hgt
      · rw [ih (Nat.succ.inj hlen), hxy, List.cons_inj_right]
      · simp [hxy]
      · simp [hxy]

/-- `strcmp` is 0 for equal strings only. -/
theorem strcmp_eq_zero {a b : List Byte} : strcmp a b = 0 ↔ a = b := by
  unfold strcmp
  split_ifs with hgt hlt
  · exact ⟨fun h => absurd h (by decide), fun h => absurd (congrArg List.length h) (by omega)⟩
  · exact ⟨fun h => absurd h (by decide), fun h => absurd (congrArg List.length h) (by omega)⟩
  · exact strcmpLoop_eq_zero (by omega)

theorem strcpy_eq {s : List Byte} (h : s.length < 128) : strcpy s = .ok s := if_pos h

end Strings

section Lookup

variable {s : State} {es : List Tarfs} {name : List Byte}

theorem slot_eq {vfs : Nat → Tarfs} {i : Nat} (hi : i < 2048) : slot vfs i = .ok (vfs i) :=
  if_pos hi

theorem slot_full {vfs : Nat → Tarfs} {i : Nat} (hi : 2048 ≤ i) :
    slot vfs i = .error .slotOutOfRange := if_neg (by unfold vfsSlots; omega)

theorem findParent_eq (h : Table s es) (hes : es.length ≤ 2048) (n i : Nat)
    (hn : i + n = es.length) :
    findParent s.vfs name n i = .ok (match indexOf (es.drop i) name with
      | some j => (i + j : Nat)
      | none => -2) := by
  induction n generalizing i with
  | zero =>
    rw [List.drop_eq_nil_iff.mpr (by omega)]
    rfl
  | succ n ih =>
    have hi : i < es.length := by omega
    have hcons := List.drop_eq_getElem_cons hi
    rw [findParent, slot_eq (by omega), ok_bind, h.entry i hi, ih (i + 1) (by omega), hcons]
    unfold indexOf
    rw [List.findIdx?_cons]
    by_cases hname : es[i].name = name
    · rw [if_pos (strcmp_eq_zero.mpr hname.symm)]
      simp [hname]
    · rw [if_neg fun hz => hname (strcmp_eq_zero.mp hz).symm]
      simp only [hname, decide_false, Bool.false_eq_true, if_false]
      cases List.findIdx? (fun e : Tarfs => decide (e.name = name)) (es.drop (i + 1)) with
      | none => rfl
      | some j =>
        simp only [Option.map_some]
        congr 2
        omega

/-- `get_parent_index` on a table. -/
theorem getParentIndex_eq (h : Table s es) (hes : es.length ≤ 2048) {file_name : List Byte}
    (hlen : file_name.length < 128) {slice_count : Nat} (hk : slice_count = 1 ∨ slice_count = 2) :
    getParentIndex s.vfs s.vfsPointer file_name slice_count =
      .ok (parentOf es file_name slice_count) := by
  have hcopy : (parentName file_name slice_count).length < 128 := by
    unfold parentName
    exact (List.length_take_le' _ _).trans_lt hlen
  unfold getParentIndex
  dsimp only
  rw [if_pos hk, if_neg (by omega),
    show ((sliceLoop file_name file_name.length slice_count : Int) - 1 + 1 + 1).toNat =
      sliceLoop file_name file_name.length slice_count + 1 by omega]
  show strcpy (parentName file_name slice_count) >>= _ = _
  rw [strcpy_eq hcopy, ok_bind, h.pointer, findParent_eq h hes _ 0 (Nat.zero_add _), List.drop_zero]
  unfold parentOf
  cases indexOf es (parentName file_name slice_count) with
  | none => rfl
  | some j =>
    dsimp only
    rw [Nat.zero_add]

end Lookup

section Add

variable {s : State} {es : List Tarfs} {file_name : List Byte} {slice_count : Nat}
  {file_size address : Word} {typeflag : Byte} {offset : BitVec 32}

/-- Adding a file appends its entry. -/
theorem addSlot_eq (h : Table s es) (hes : es.length < 2048) (hlen : file_name.length < 128)
    (hk : slice_count = 1 ∨ slice_count = 2) (file_size : Word) (typeflag : Byte) (address : Word)
    (offset : BitVec 32) :
    ∃ s', addSlot s file_name slice_count file_size typeflag address offset = .ok s' ∧
      s'.p = s.p ∧ Table s' (es ++ [⟨file_name, parentOf es file_name slice_count, file_size,
        typeflag.signExtend 32, address, es.length, offset⟩]) := by
  unfold addSlot assignVfsSlot
  rw [getParentIndex_eq h (by omega) hlen hk, ok_bind, h.pointer, slot_eq hes, ok_bind,
    strcpy_eq hlen, ok_bind]
  refine ⟨_, rfl, rfl, ?_, fun i hi => ?_⟩
  · rw [List.length_append]
    rfl
  · rw [List.length_append, List.length_singleton] at hi
    dsimp only
    split_ifs with hlast
    · subst hlast
      rw [List.getElem_append_right (Nat.le_refl _)]
      simp
    · rw [List.getElem_append_left (by omega)]
      exact h.entry i (by omega)

/-- A full table has no slot for another file. -/
theorem addSlot_full (h : Table s es) (hes : es.length = 2048) (hlen : file_name.length < 128)
    (hk : slice_count = 1 ∨ slice_count = 2) :
    addSlot s file_name slice_count file_size typeflag address offset =
      .error .slotOutOfRange := by
  unfold addSlot assignVfsSlot
  rw [getParentIndex_eq h (by omega) hlen hk, ok_bind, h.pointer, slot_full (by omega)]
  rfl

end Add

/-! ## Looking up a file -/

section Find

variable {s : State} {es : List Tarfs} {name : List Byte}

/-- The loop of the lookups ends at the first entry with the name. -/
theorem lookupLoop_found (h : Table s es) (hes : es.length ≤ 2048) (i : Nat) {j : Nat}
    (hj : indexOf (es.drop i) name = some j) (fuel : Nat) (hfuel : j < fuel) :
    lookupLoop s name fuel i = .ok (i + j) := by
  induction fuel generalizing i j with
  | zero => exact absurd hfuel (Nat.not_lt_zero j)
  | succ fuel ih =>
    have hi : i < es.length := by
      by_contra hge
      rw [List.drop_eq_nil_iff.mpr (by omega)] at hj
      cases hj
    unfold indexOf at hj
    rw [List.drop_eq_getElem_cons hi, List.findIdx?_cons] at hj
    rw [lookupLoop, slot_eq (by omega), ok_bind, h.entry i hi]
    by_cases hname : es[i].name = name
    · simp only [hname, decide_true, if_true, Option.some.injEq] at hj
      rw [if_neg fun hne => hne.1 (strcmp_eq_zero.mpr hname), ← hj]
      rfl
    · simp only [hname, decide_false, Bool.false_eq_true, if_false, Option.map_eq_some_iff] at hj
      obtain ⟨k, hk, rfl⟩ := hj
      rw [if_pos ⟨fun hz => hname (strcmp_eq_zero.mp hz), by rw [h.pointer]; exact hi⟩,
        ih (i + 1) hk (by omega)]
      congr 1
      omega

/-- Without such an entry the loop goes on to the first slot behind the table. -/
theorem lookupLoop_absent (h : Table s es) (hes : es.length ≤ 2048) (i n : Nat)
    (hn : i + n = es.length) (hj : indexOf (es.drop i) name = none) :
    lookupLoop s name (n + 1) i = (slot s.vfs es.length).map fun _ => es.length := by
  induction n generalizing i with
  | zero =>
    obtain rfl : i = es.length := by omega
    rw [lookupLoop]
    cases slot s.vfs es.length with
    | error f => rfl
    | ok e =>
      rw [ok_bind, if_neg fun hne => absurd hne.2 (by rw [h.pointer]; omega)]
      rfl
  | succ n ih =>
    have hi : i < es.length := by omega
    unfold indexOf at hj
    rw [List.drop_eq_getElem_cons hi, List.findIdx?_cons] at hj
    have hname : es[i].name ≠ name := by
      intro hname
      simp [hname] at hj
    simp only [hname, decide_false, Bool.false_eq_true, if_false, Option.map_eq_none_iff] at hj
    rw [lookupLoop, slot_eq (by omega), ok_bind, h.entry i hi,
      if_pos ⟨fun hz => hname (strcmp_eq_zero.mp hz), by rw [h.pointer]; exact hi⟩]
    exact ih (i + 1) (by omega) hj

/-- The lookups search the table from its first slot on. -/
theorem lookupLoop_eq (h : Table s es) (hes : es.length ≤ 2048) :
    lookupLoop s name (s.vfsPointer + 1) 0 = match indexOf es name with
      | some j => .ok j
      | none => (slot s.vfs es.length).map fun _ => es.length := by
  have hdrop : indexOf (es.drop 0) name = indexOf es name := by rw [List.drop_zero]
  cases hj : indexOf es name with
  | some j =>
    have hlt : j < es.length := (List.findIdx?_eq_some_iff_findIdx_eq.mp hj).1
    rw [lookupLoop_found h hes 0 (hdrop.trans hj) _ (by rw [h.pointer]; omega), Nat.zero_add]
  | none =>
    rw [h.pointer, lookupLoop_absent h hes 0 es.length (Nat.zero_add _) (hdrop.trans hj)]

theorem indexOf_lt {j : Nat} (hj : indexOf es name = some j) : j < es.length :=
  (List.findIdx?_eq_some_iff_findIdx_eq.mp hj).1

/-- `tar_lookup` of a name in the table. -/
theorem tarLookup_found (h : Table s es) (hes : es.length ≤ 2048) {j : Nat}
    (hj : indexOf es name = some j) (hlt : j < es.length) :
    tarLookup s name = .ok es[j].address := by
  unfold tarLookup
  rw [lookupLoop_eq h hes, hj, ok_bind, if_pos (by rw [h.pointer]; exact hlt), slot_eq (by omega),
    ok_bind, h.entry j hlt]
  rfl

end Find

end SBUnix.Vfs
