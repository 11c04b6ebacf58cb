import SBUnix.Tarfs.Table

/-
  `tarfs_init` over a well-formed archive.

  A round takes the header it is at into the table and goes on to the next header
  (`tarfsRound_eq`); so the loop ends at the block of zeros with the table `tableFrom` of all
  members (`tarfsInit_eq`), unless they are more than it has room for (`tarfsInit_full`). What the
  entries say of the members is in the modules on contents, slots and the tree of directories.
-/

namespace SBUnix.Vfs

open ByteMem

/-- A file or a directory: the types that the table takes. -/
def Member.Listed (x : Member) : Prop := x.typeflag = chr '0' ∨ x.typeflag = chr '5'

instance (x : Member) : Decidable x.Listed := inferInstanceAs (Decidable (_ ∨ _))

/-- The name in the table. -/
def Member.path (x : Member) : List Byte := rootDirectoryName ++ x.name

/-- The slashes that `get_parent_index` counts. -/
def Member.sliceCount (x : Member) : Nat := if x.typeflag = chr '0' then 1 else 2

/-- What the table `es` gets for the member with its header at position `h`. -/
def entryOf (start : Word) (h : Nat) (es : List Tarfs) (x : Member) : Tarfs where
  name := x.path
  parent := parentOf es x.path x.sliceCount
  size := BitVec.ofNat 64 x.content.length
  type := x.typeflag.signExtend 32
  address := start + BitVec.ofNat 64 (h + x.content.length)
  index := es.length
  offset := BitVec.ofNat 32 (512 + h + x.span)

/-- The table after the members from position `h` on. -/
def tableFrom (start : Word) : Nat → List Tarfs → List Member → List Tarfs
  | _, es, [] => es
  | h, es, x :: xs =>
    tableFrom start (h + x.span) (if x.Listed then es ++ [entryOf start h es x] else es) xs

/-- The first two slots. -/
def rootEntries : List Tarfs :=
  [⟨str "/", -1, 0, 5, 0, 0, 0⟩, ⟨str "/rootfs/", 0, 0, 5, 0, 1, 512⟩]

section Rounds

variable {m : Memory} {start stop : Word} {s : State} {es : List Tarfs} {h : Nat} {x : Member}

theorem Member.Valid.length_path (hv : x.Valid) : x.path.length < 128 := by
  have hroot : rootDirectoryName.length = 8 := by decide
  have := hv.short
  unfold Member.path
  rw [List.length_append]
  omega

theorem Member.sliceCount_eq (x : Member) : x.sliceCount = 1 ∨ x.sliceCount = 2 := by
  unfold Member.sliceCount
  split_ifs <;> simp

/-- Where the loop has come to: the header at position `h`, with the table `es`. -/
structure At (start : Word) (h : Nat) (es : List Tarfs) (s : State) : Prop where
  table : Table s es
  p : s.p = start + BitVec.ofNat 64 h
  offset : s.offset = BitVec.ofNat 32 (512 + h)

/-- The switch, as one call. -/
theorem switchTypeflag_eq (s : State) (file_name : List Byte) (x : Member) (size address : Word)
    (offset : BitVec 32) : switchTypeflag s file_name size x.typeflag address offset =
      if x.Listed then addSlot s file_name x.sliceCount size x.typeflag address offset
      else .ok s := by
  unfold switchTypeflag Member.sliceCount
  by_cases h0 : x.typeflag = chr '0'
  · have hl : x.Listed := Or.inl h0
    rw [if_pos h0, if_pos hl, if_pos h0]
  · by_cases h5 : x.typeflag = chr '5'
    · have hl : x.Listed := Or.inr h5
      rw [if_neg h0, if_pos h5, if_pos hl, if_neg h0]
    · have hl : ¬ x.Listed := not_or.mpr ⟨h0, h5⟩
      rw [if_neg h0, if_neg h5, if_neg hl]

/-- What a round makes of a header. -/
theorem tarfsRound_at (hat : At start h es s) (hx : HeaderAt (archiveByte m start) h x)
    (hv : x.Valid) (hsize : x.content.length < 2 ^ 31) :
    tarfsRound m s = (if x.Listed then
        addSlot s x.path x.sliceCount (BitVec.ofNat 64 x.content.length) x.typeflag
          (start + BitVec.ofNat 64 (h + x.content.length)) (BitVec.ofNat 32 (512 + h + x.span))
      else .ok s) >>= fun s' => .ok { s' with
        p := start + BitVec.ofNat 64 (h + x.span)
        offset := BitVec.ofNat 32 (512 + h + x.span) } := by
  have hname : x.name.length < 128 := by
    have := hv.short
    omega
  have hoffset : s.offset + (offsetBump (BitVec.ofNat 64 x.content.length)).setWidth 32 =
      BitVec.ofNat 32 (512 + h + x.span) := by
    rw [hat.offset, offsetBump_ofNat hsize, BitVec.setWidth_ofNat_of_le (by decide),
      ← BitVec.ofNat_add]
  unfold tarfsRound
  dsimp only
  rw [hat.p, hx.cString hv, hx.fileSize hsize, hx.fileTypeflag, hx.nextHeader hv hsize, hoffset,
    addr_add, Option.elim_some, ok_bind, strcpy_eq hname, ok_bind]
  show strcpy x.path >>= _ = _
  rw [strcpy_eq hv.length_path, ok_bind, switchTypeflag_eq]
  rfl

/-- A round takes its member into the table. -/
theorem tarfsRound_eq (hat : At start h es s) (hx : HeaderAt (archiveByte m start) h x)
    (hv : x.Valid) (hsize : x.content.length < 2 ^ 31) (hes : x.Listed → es.length < 2048) :
    ∃ s', tarfsRound m s = .ok s' ∧
      At start (h + x.span) (if x.Listed then es ++ [entryOf start h es x] else es) s' := by
  rw [tarfsRound_at hat hx hv hsize]
  by_cases hl : x.Listed
  · obtain ⟨s', hadd, -, htable⟩ := addSlot_eq hat.table (hes hl) hv.length_path x.sliceCount_eq
      (BitVec.ofNat 64 x.content.length) x.typeflag
      (start + BitVec.ofNat 64 (h + x.content.length)) (BitVec.ofNat 32 (512 + h + x.span))
    rw [if_pos hl, if_pos hl, hadd, ok_bind]
    exact ⟨_, rfl, ⟨htable.pointer, htable.entry⟩, rfl, by rw [← Nat.add_assoc]⟩
  · rw [if_neg hl, if_neg hl, ok_bind]
    exact ⟨_, rfl, ⟨hat.table.pointer, hat.table.entry⟩, rfl, by rw [← Nat.add_assoc]⟩

/-- The table grows by the listed members. -/
theorem length_tableFrom (start : Word) (h : Nat) (es : List Tarfs) (xs : List Member) :
    (tableFrom start h es xs).length = es.length + (xs.filter (·.Listed)).length := by
  induction xs generalizing h es with
  | nil => rfl
  | cons x xs ih =>
    rw [tableFrom, ih]
    by_cases hl : x.Listed
    · rw [if_pos hl, List.filter_cons_of_pos (by simpa using hl), List.length_append,
        List.length_singleton, List.length_cons]
      omega
    · rw [if_neg hl, List.filter_cons_of_neg (by simpa using hl)]

/-- The loop goes on at a header. -/
theorem headerLeft_of_header (hat : At start h es s) (hx : HeaderAt (archiveByte m start) h x)
    (hv : x.Valid) (hroom : start.toNat + h < stop.toNat) : HeaderLeft m stop s := by
  refine ⟨?_, ?_⟩
  · rw [hat.p, BitVec.lt_def, BitVec.toNat_add, BitVec.toNat_ofNat]
    have := stop.isLt
    omega
  · rw [hat.p]
    exact hx.name_ne hv

/-- The loop ends at the block of zeros. -/
theorem not_headerLeft_of_zeros (hat : At start h es s)
    (hz : Laid (archiveByte m start) h []) : ¬ HeaderLeft m stop s := by
  intro hleft
  have hzero : archiveByte m start h = 0 := hz 0 (by decide)
  refine hleft.2 ?_
  rw [hat.p]
  exact hzero

/-- The loop takes the whole archive into the table. -/
theorem tarfsLoop_eq {xs : List Member} (hat : At start h es s)
    (hlaid : Laid (archiveByte m start) h xs) (hv : ∀ x ∈ xs, x.Valid)
    (hsize : ∀ x ∈ xs, x.content.length < 2 ^ 31)
    (hroom : start.toNat + h + totalSpan xs < stop.toNat)
    (hes : es.length + (xs.filter (·.Listed)).length ≤ 2048) (fuel : Nat)
    (hfuel : xs.length < fuel) :
    ∃ s', tarfsLoop m stop fuel s = .ok s' ∧ Table s' (tableFrom start h es xs) := by
  induction xs generalizing h es s fuel with
  | nil =>
    obtain ⟨fuel, rfl⟩ := Nat.exists_eq_succ_of_ne_zero (show fuel ≠ 0 by omega)
    rw [tarfsLoop, if_neg (not_headerLeft_of_zeros hat hlaid)]
    exact ⟨s, rfl, hat.table⟩
  | cons x xs ih =>
    obtain ⟨fuel, rfl⟩ := Nat.exists_eq_succ_of_ne_zero (show fuel ≠ 0 by omega)
    obtain ⟨hx, -, hrest⟩ := hlaid
    have hvx := hv x List.mem_cons_self
    rw [totalSpan_cons] at hroom
    obtain ⟨s', hround, hat'⟩ := tarfsRound_eq hat hx hvx (hsize x List.mem_cons_self) fun hl => by
      rw [List.filter_cons_of_pos (by simpa using hl), List.length_cons] at hes
      omega
    rw [tarfsLoop, if_pos (headerLeft_of_header hat hx hvx (by omega)), hround, ok_bind, tableFrom]
    refine ih hat' hrest (fun y hy => hv y (List.mem_cons_of_mem _ hy))
      (fun y hy => hsize y (List.mem_cons_of_mem _ hy)) (by omega) ?_ fuel
      (by rw [List.length_cons] at hfuel; omega)
    by_cases hl : x.Listed
    · rw [List.filter_cons_of_pos (by simpa using hl), List.length_cons] at hes
      rw [if_pos hl, List.length_append, List.length_singleton]
      omega
    · rw [List.filter_cons_of_neg (by simpa using hl)] at hes
      rw [if_neg hl]
      exact hes

/-- With too many members the loop comes to a full table. -/
theorem tarfsLoop_full {xs : List Member} (hat : At start h es s)
    (hlaid : Laid (archiveByte m start) h xs) (hv : ∀ x ∈ xs, x.Valid)
    (hsize : ∀ x ∈ xs, x.content.length < 2 ^ 31)
    (hroom : start.toNat + h + totalSpan xs < stop.toNat) (hes : es.length ≤ 2048)
    (hmany : 2048 < es.length + (xs.filter (·.Listed)).length) (fuel : Nat)
    (hfuel : xs.length < fuel) : tarfsLoop m stop fuel s = .error .slotOutOfRange := by
  induction xs generalizing h es s fuel with
  | nil =>
    simp only [List.filter_nil, List.length_nil] at hmany
    omega
  | cons x xs ih =>
    obtain ⟨fuel, rfl⟩ := Nat.exists_eq_succ_of_ne_zero (show fuel ≠ 0 by omega)
    obtain ⟨hx, -, hrest⟩ := hlaid
    have hvx := hv x List.mem_cons_self
    have hsx := hsize x List.mem_cons_self
    rw [totalSpan_cons] at hroom
    rw [tarfsLoop, if_pos (headerLeft_of_header hat hx hvx (by omega))]
    by_cases hfull : x.Listed ∧ es.length = 2048
    · rw [tarfsRound_at hat hx hvx hsx, if_pos hfull.1,
        addSlot_full hat.table hfull.2 hvx.length_path x.sliceCount_eq]
      rfl
    · obtain ⟨s', hround, hat'⟩ := tarfsRound_eq hat hx hvx hsx fun hl => by
        have : es.length ≠ 2048 := fun h => hfull ⟨hl, h⟩
        omega
      rw [hround, ok_bind]
      refine ih hat' hrest (fun y hy => hv y (List.mem_cons_of_mem _ hy))
        (fun y hy => hsize y (List.mem_cons_of_mem _ hy)) (by omega) ?_ ?_ fuel
        (by rw [List.length_cons] at hfuel; omega)
      · split_ifs with hl
        · have : es.length ≠ 2048 := fun h => hfull ⟨hl, h⟩
          rw [List.length_append, List.length_singleton]
          omega
        · exact hes
      · by_cases hl : x.Listed
        · rw [List.filter_cons_of_pos (by simpa using hl), List.length_cons] at hmany
          rw [if_pos hl, List.length_append, List.length_singleton]
          omega
        · rw [List.filter_cons_of_neg (by simpa using hl)] at hmany
          rw [if_neg hl]
          exact hmany

end Rounds

/-! ## From the start -/

section Init

variable {m : Memory} {start stop : Word} {members : List Member}

theorem tarfsStart_eq (start : Word) (vfs : Nat → Tarfs) :
    ∃ s, tarfsStart start vfs = .ok s ∧ At start 0 rootEntries s := by
  refine ⟨_, rfl, ⟨rfl, fun i hi => ?_⟩, (BitVec.add_zero start).symm, rfl⟩
  have hi' : i < 2 := hi
  interval_cases i <;> rfl

theorem Archive.size_lt (ha : Archive m start stop members) :
    ∀ x ∈ members, x.content.length < 2 ^ 31 := by
  intro x hx
  have hle := List.single_le_sum (l := members.map (·.content.length)) (by simp)
    x.content.length (List.mem_map_of_mem hx)
  exact hle.trans_lt ha.small

theorem length_le_totalSpan (xs : List Member) : 512 * xs.length ≤ totalSpan xs := by
  induction xs with
  | nil => exact Nat.le_refl _
  | cons x xs ih =>
    rw [totalSpan_cons, List.length_cons]
    unfold Member.span
    omega

theorem Archive.length_lt (ha : Archive m start stop members) : members.length < loopFuel := by
  have hspan := length_le_totalSpan members
  have hroom := ha.room
  have := stop.isLt
  unfold loopFuel
  omega

/-- The table that `tarfs_init` builds. -/
def Archive.table (start : Word) (members : List Member) : List Tarfs :=
  tableFrom start 0 rootEntries members

theorem tarfsInit_eq (ha : Archive m start stop members) (vfs : Nat → Tarfs)
    (hcount : (members.filter (·.Listed)).length ≤ 2046) :
    ∃ s, tarfsInit m start stop vfs = .ok s ∧ Table s (Archive.table start members) := by
  obtain ⟨s₀, hs₀, hat⟩ := tarfsStart_eq start vfs
  have hroom := ha.room
  unfold tarfsInit
  rw [hs₀, ok_bind]
  refine tarfsLoop_eq hat ha.laid ha.valid ha.size_lt (by omega) ?_ loopFuel ha.length_lt
  show 2 + _ ≤ 2048
  omega

theorem tarfsInit_full (ha : Archive m start stop members) (vfs : Nat → Tarfs)
    (hcount : 2046 < (members.filter (·.Listed)).length) :
    tarfsInit m start stop vfs = .error .slotOutOfRange := by
  obtain ⟨s₀, hs₀, hat⟩ := tarfsStart_eq start vfs
  have hroom := ha.room
  unfold tarfsInit
  rw [hs₀, ok_bind]
  refine tarfsLoop_full hat ha.laid ha.valid ha.size_lt (by omega) (by decide) ?_ loopFuel
    ha.length_lt
  show 2048 < 2 + _
  omega

theorem length_table (start : Word) (members : List Member) :
    (Archive.table start members).length = 2 + (members.filter (·.Listed)).length :=
  length_tableFrom start 0 rootEntries members

end Init

end SBUnix.Vfs
