import SBUnix.Tarfs.Contents

/-
  `get_elf`, which looks for a member by its name.

  `traverse_tarfs` does not go from header to header: it compares the name with the string at every
  eighth byte, up to `_binary_tarfs_end`. `traverseTarfs_cases` says where it stops, and
  `lookupExact_iff` when that is the right member.
-/

namespace SBUnix.Vfs

open ByteMem

/-! ## ustar archives in general -/

/-- A member whose path may go on from the field for the name into the one for a prefix. -/
structure UstarMember extends Member where
  pathPrefix : List Byte

def UstarMember.path (x : UstarMember) : List Byte :=
  if x.pathPrefix = [] then x.name else x.pathPrefix ++ chr '/' :: x.name

structure UstarMember.Valid (x : UstarMember) : Prop where
  nonempty : x.name ≠ []
  noNul : (0 : Byte) ∉ x.name
  short : x.name.length ≤ 100
  prefixNoNul : (0 : Byte) ∉ x.pathPrefix
  prefixShort : x.pathPrefix.length ≤ 155
  small : x.content.length < 8 ^ 11

/-- The header of `x` at position `h`. A name and a prefix that fill their fields have no NUL. -/
structure UstarHeaderAt (arc : Nat → Byte) (h : Nat) (x : UstarMember) : Prop where
  name : ∀ i < x.name.length, arc (h + i) = x.name.getD i 0
  nameEnd : x.name.length < 100 → arc (h + x.name.length) = 0
  size : ∀ i < 11, arc (h + 124 + i) = octalDigit x.content.length i
  typeflag : arc (h + 156) = x.typeflag
  pathPrefix : ∀ i < x.pathPrefix.length, arc (h + 345 + i) = x.pathPrefix.getD i 0
  prefixEnd : x.pathPrefix.length < 155 → arc (h + 345 + x.pathPrefix.length) = 0

def UstarLaid (arc : Nat → Byte) : Nat → List UstarMember → Prop
  | h, [] => ∀ i < 512, arc (h + i) = 0
  | h, x :: xs => UstarHeaderAt arc h x ∧
      (∀ i < x.content.length, arc (h + 512 + i) = x.content.getD i 0) ∧
      UstarLaid arc (h + x.span) xs

/-- The bytes of all members. -/
def ustarSpan (members : List UstarMember) : Nat := (members.map (·.span)).sum

/-- A ustar archive from `_binary_tarfs_start` to `_binary_tarfs_end`. The symbols are not `NULL`,
    and a header at the last one lies below the end of the address space. -/
structure Ustar (m : Memory) (start stop : Word) (members : List UstarMember) : Prop where
  laid : UstarLaid (archiveByte m start) 0 members
  valid : ∀ x ∈ members, x.Valid
  room : start.toNat + ustarSpan members + 512 ≤ stop.toNat
  nonNull : start ≠ 0
  below : stop.toNat + 512 < 2 ^ 64

/-- The position of the first header from `h` on with the path `filename`. -/
def headerFrom (filename : List Byte) : Nat → List UstarMember → Option Nat
  | _, [] => none
  | h, x :: xs => if x.path = filename then some h else headerFrom filename (h + x.span) xs

/-- The first byte of the content of the first member with the path `filename`, or `NULL`. -/
def contentOf (start : Word) (members : List UstarMember) (filename : List Byte) : Word :=
  match headerFrom filename 0 members with
  | some h => start + BitVec.ofNat 64 (h + 512)
  | none => 0

/-- `get_elf` returns the content of the member it is asked for. -/
def LookupExact (m : Memory) (start stop : Word) (members : List UstarMember)
    (filename : List Byte) : Prop :=
  getElf m start stop filename = .ok (contentOf start members filename)

/-- The bytes of `filename` and a NUL at `p`. -/
def NameAt (m : Memory) (filename : List Byte) (p : Word) : Prop :=
  (∀ i < filename.length, m (p + BitVec.ofNat 64 i) = filename.getD i 0) ∧
    m (p + BitVec.ofNat 64 filename.length) = 0

instance (m : Memory) (filename : List Byte) (p : Word) : Decidable (NameAt m filename p) :=
  inferInstanceAs (Decidable (_ ∧ _))

/-- The name lies at the header of the first member with that path, and at no eighth byte before
    it; without such a member, at no eighth byte up to `_binary_tarfs_end`. -/
def NoStrayName (m : Memory) (start stop : Word) (members : List UstarMember)
    (filename : List Byte) : Prop :=
  match headerFrom filename 0 members with
  | some h => NameAt m filename (start + BitVec.ofNat 64 h) ∧
      ∀ k, 8 * k < h → ¬ NameAt m filename (start + BitVec.ofNat 64 (8 * k))
  | none => ∀ k, start.toNat + 8 * k ≤ stop.toNat →
      ¬ NameAt m filename (start + BitVec.ofNat 64 (8 * k))

section Ustar

variable {m : Memory} {start stop : Word} {members : List UstarMember} {filename : List Byte}
  {arc : Nat → Byte} {g h : Nat}

theorem ustarSpan_cons (x : UstarMember) (xs : List UstarMember) :
    ustarSpan (x :: xs) = x.span + ustarSpan xs := rfl

/-- A header that is found lies among the members, at a whole number of blocks. -/
theorem headerFrom_some {xs : List UstarMember} (hlaid : UstarLaid arc h xs)
    (hg : headerFrom filename h xs = some g) :
    h ≤ g ∧ g + 512 ≤ h + ustarSpan xs ∧ 512 ∣ g - h ∧
      ∃ x ∈ xs, x.path = filename ∧ UstarHeaderAt arc g x := by
  induction xs generalizing h with
  | nil => exact absurd hg (by simp [headerFrom])
  | cons x xs ih =>
    obtain ⟨hx, -, hrest⟩ := hlaid
    have hspan : x.span = 512 + (x.content.length + 511) / 512 * 512 := rfl
    rw [headerFrom] at hg
    rw [ustarSpan_cons]
    by_cases hpath : x.path = filename
    · rw [if_pos hpath] at hg
      obtain rfl := Option.some.inj hg
      exact ⟨le_rfl, by omega, by simp, x, List.mem_cons_self, hpath, hx⟩
    · rw [if_neg hpath] at hg
      obtain ⟨hle, hroom, hdvd, y, hy, hname, hheader⟩ := ih hrest hg
      exact ⟨by omega, by omega, by omega, y, List.mem_cons_of_mem x hy, hname, hheader⟩

/-- Behind the members there are zeros. -/
theorem ustarLaid_end {xs : List UstarMember} (hlaid : UstarLaid arc h xs) :
    arc (h + ustarSpan xs) = 0 := by
  induction xs generalizing h with
  | nil => exact hlaid 0 (by decide)
  | cons x xs ih =>
    have := ih hlaid.2.2
    rwa [Nat.add_assoc] at this

/-- A path that fits into the field for the name lies at its header. -/
theorem UstarHeaderAt.nameAt {x : UstarMember} (hx : UstarHeaderAt (archiveByte m start) h x)
    (hshort : x.name.length < 100) (hplain : x.pathPrefix = []) :
    NameAt m x.path (start + BitVec.ofNat 64 h) := by
  unfold UstarMember.path
  rw [if_pos hplain]
  refine ⟨fun i hi => ?_, ?_⟩
  · rw [addr_add]
    exact hx.name i hi
  · rw [addr_add]
    exact hx.nameEnd hshort

/-- An archive without prefixes is one. -/
theorem Archive.ustarLaid {xs : List Member} (hlaid : Laid arc h xs) :
    UstarLaid arc h (xs.map fun x => ⟨x, []⟩) := by
  induction xs generalizing h with
  | nil => exact hlaid
  | cons x xs ih =>
    obtain ⟨hx, hcontent, hrest⟩ := hlaid
    exact ⟨⟨hx.name, fun _ => hx.nameEnd, hx.size, hx.typeflag,
      fun i hi => absurd hi (Nat.not_lt_zero i), fun _ => hx.noPrefix⟩, hcontent, ih hrest⟩

theorem Archive.ustar {xs : List Member} (ha : Archive m start stop xs) (hstart : start ≠ 0)
    (hstop : stop.toNat + 512 < 2 ^ 64) : Ustar m start stop (xs.map fun x => ⟨x, []⟩) := by
  refine ⟨Archive.ustarLaid ha.laid, fun y hy => ?_, ?_, hstart, hstop⟩
  · obtain ⟨x, hx, rfl⟩ := List.mem_map.mp hy
    have hv := ha.valid x hx
    have hshort := hv.short
    have hsize := ha.size_lt x hx
    exact ⟨hv.nonempty, hv.noNul, hshort.trans (by decide), List.not_mem_nil, Nat.zero_le _,
      hsize.trans (by decide)⟩
  · have hspan : ustarSpan (xs.map fun x => (⟨x, []⟩ : UstarMember)) = totalSpan xs := by
      unfold ustarSpan totalSpan
      rw [List.map_map]
      rfl
    rw [hspan]
    exact ha.room

end Ustar

/-! ## The string at an address -/

section Strings

variable {m : Memory} {filename s : List Byte} {p : Word}

/-- A string that does not end has no NUL. -/
theorem cString_none {n : Nat} (h : cString m n p = none) :
    ∀ i < n, m (p + BitVec.ofNat 64 i) ≠ 0 := by
  induction n generalizing p with
  | zero => exact fun i hi => absurd hi (Nat.not_lt_zero i)
  | succ n ih =>
    rw [cString] at h
    by_cases h0 : m p = 0
    · rw [if_pos h0] at h
      exact absurd h (by simp)
    · rw [if_neg h0, Option.map_eq_none_iff] at h
      intro i hi
      obtain ⟨⟩ | i := i
      · rw [show p + BitVec.ofNat 64 0 = p from BitVec.add_zero p]
        exact h0
      · have hi' := ih h i (Nat.lt_of_succ_lt_succ hi)
        rwa [show p + 1 = p + BitVec.ofNat 64 1 from rfl, addr_add, Nat.add_comm 1] at hi'

/-- With a NUL anywhere every string ends. -/
theorem cString_total {z : Word} (hz : m z = 0) (p : Word) :
    ∃ s, cString m loopFuel p = some s := by
  cases hs : cString m loopFuel p with
  | some s => exact ⟨s, rfl⟩
  | none =>
    refine absurd ?_ (cString_none hs (z - p).toNat (z - p).isLt)
    rw [BitVec.ofNat_toNat, BitVec.setWidth_eq, BitVec.add_comm, BitVec.sub_add_cancel]
    exact hz

theorem cString_some {n : Nat} (h : cString m n p = some s) : NameAt m s p := by
  induction n generalizing p s with
  | zero => exact absurd h (by simp [cString])
  | succ n ih =>
    rw [cString] at h
    by_cases h0 : m p = 0
    · rw [if_pos h0] at h
      obtain rfl := Option.some.inj h
      refine ⟨fun i hi => absurd hi (Nat.not_lt_zero i), ?_⟩
      rw [List.length_nil, show p + BitVec.ofNat 64 0 = p from BitVec.add_zero p]
      exact h0
    · rw [if_neg h0, Option.map_eq_some_iff] at h
      obtain ⟨t, ht, rfl⟩ := h
      obtain ⟨hbytes, hend⟩ := ih ht
      rw [show p + 1 = p + BitVec.ofNat 64 1 from rfl, addr_add, Nat.add_comm 1] at hend
      refine ⟨fun i hi => ?_, hend⟩
      obtain ⟨⟩ | i := i
      · rw [show p + BitVec.ofNat 64 0 = p from BitVec.add_zero p]
        rfl
      · have hbyte := hbytes i (Nat.lt_of_succ_lt_succ hi)
        rwa [show p + 1 = p + BitVec.ofNat 64 1 from rfl, addr_add, Nat.add_comm 1] at hbyte

/-- The string at `p` is `filename` when its bytes lie there. -/
theorem cString_eq_iff {z : Word} (hz : m z = 0) (hname : (0 : Byte) ∉ filename) :
    cString m loopFuel p = some filename ↔ NameAt m filename p := by
  refine ⟨cString_some, fun ⟨hbytes, hend⟩ => ?_⟩
  have hlen : filename.length < loopFuel := by
    by_contra hlong
    have hlt : (z - p).toNat < filename.length :=
      (z - p).isLt.trans_le (Nat.le_of_not_lt hlong)
    have hbyte := hbytes _ hlt
    rw [BitVec.ofNat_toNat, BitVec.setWidth_eq, BitVec.add_comm, BitVec.sub_add_cancel, hz,
      List.getD_eq_getElem _ _ hlt] at hbyte
    exact hname (hbyte ▸ List.getElem_mem hlt)
  have hp : p + BitVec.ofNat 64 0 = p := BitVec.add_zero p
  rw [← hp]
  refine cString_archive hname hlen (fun i hi => ?_) ?_
  · rw [archiveByte, Nat.zero_add]
    exact hbytes i hi
  · rw [archiveByte, Nat.zero_add]
    exact hend

end Strings

/-! ## The walk -/

section Walk

variable {m : Memory} {start stop p z : Word} {filename : List Byte}

/-- A round at an address without the name. -/
theorem traverseLoop_miss (hz : m z = 0) (hp : p ≤ stop)
    (hmiss : ¬ NameAt m filename p) (fuel : Nat) :
    traverseLoop m stop filename (fuel + 1) p = traverseLoop m stop filename fuel (p + 8) := by
  obtain ⟨s, hs⟩ := cString_total hz p
  have hne : strcmp filename s ≠ 0 := by
    intro heq
    obtain rfl := strcmp_eq_zero.mp heq
    exact hmiss (cString_some hs)
  rw [traverseLoop, if_pos hp, hs, Option.elim_some, ok_bind, if_neg hne]

theorem traverseLoop_hit (hz : m z = 0) (hname : (0 : Byte) ∉ filename) (hp : p ≤ stop)
    (hhit : NameAt m filename p) (fuel : Nat) :
    traverseLoop m stop filename (fuel + 1) p = .ok p := by
  rw [traverseLoop, if_pos hp, (cString_eq_iff hz hname).mpr hhit, Option.elim_some, ok_bind,
    if_pos (strcmp_eq_zero.mpr rfl)]
  rfl

theorem add_eight_toNat (hp : p.toNat + 8 < 2 ^ 64) : (p + 8).toNat = p.toNat + 8 := by
  rw [BitVec.toNat_add, show (8 : Word).toNat = 8 from rfl, Nat.mod_eq_of_lt hp]

/-- The walk stops at the first address with the name. -/
theorem traverseLoop_found (hz : m z = 0) (hname : (0 : Byte) ∉ filename) {n fuel : Nat}
    (hroom : p.toNat + 8 * n ≤ stop.toNat) (hhit : NameAt m filename (p + BitVec.ofNat 64 (8 * n)))
    (hmiss : ∀ k < n, ¬ NameAt m filename (p + BitVec.ofNat 64 (8 * k))) (hfuel : n < fuel) :
    traverseLoop m stop filename fuel p = .ok (p + BitVec.ofNat 64 (8 * n)) := by
  induction n generalizing p fuel with
  | zero =>
    obtain ⟨fuel, rfl⟩ := Nat.exists_eq_succ_of_ne_zero (show fuel ≠ 0 by omega)
    rw [Nat.mul_zero, show p + BitVec.ofNat 64 0 = p from BitVec.add_zero p] at hhit ⊢
    exact traverseLoop_hit hz hname (BitVec.le_def.mpr (by omega)) hhit fuel
  | succ n ih =>
    obtain ⟨fuel, rfl⟩ := Nat.exists_eq_succ_of_ne_zero (show fuel ≠ 0 by omega)
    have hshift : ∀ k, p + 8 + BitVec.ofNat 64 (8 * k) = p + BitVec.ofNat 64 (8 * (k + 1)) := by
      intro k
      rw [show p + 8 = p + BitVec.ofNat 64 8 from rfl, addr_add,
        show 8 + 8 * k = 8 * (k + 1) by omega]
    have hstop := stop.isLt
    have hp : ¬ NameAt m filename p := by
      have := hmiss 0 (Nat.succ_pos n)
      rwa [Nat.mul_zero, show p + BitVec.ofNat 64 0 = p from BitVec.add_zero p] at this
    rw [traverseLoop_miss hz (BitVec.le_def.mpr (by omega)) hp, ← hshift]
    refine ih ?_ (by rwa [hshift]) (fun k hk => ?_) (by omega)
    · rw [add_eight_toNat (by omega)]
      omega
    · rw [hshift]
      exact hmiss (k + 1) (Nat.succ_lt_succ hk)

/-- The walk comes behind `_binary_tarfs_end` when the name is nowhere. -/
theorem traverseLoop_absent (hz : m z = 0) (hstop : stop.toNat + 8 < 2 ^ 64) {fuel : Nat}
    (hmiss : ∀ k, p.toNat + 8 * k ≤ stop.toNat → ¬ NameAt m filename (p + BitVec.ofNat 64 (8 * k)))
    (hfuel : stop.toNat + 8 - p.toNat < fuel) :
    traverseLoop m stop filename fuel p = .ok 0 := by
  induction fuel generalizing p with
  | zero => omega
  | succ fuel ih =>
    by_cases hp : p ≤ stop
    · have hle : p.toNat ≤ stop.toNat := BitVec.le_def.mp hp
      have hnext := add_eight_toNat (p := p) (by omega)
      have hhere : ¬ NameAt m filename p := by
        have := hmiss 0 (by omega)
        rwa [Nat.mul_zero, show p + BitVec.ofNat 64 0 = p from BitVec.add_zero p] at this
      rw [traverseLoop_miss hz hp hhere]
      refine ih (fun k hk => ?_) (by omega)
      rw [show p + 8 = p + BitVec.ofNat 64 8 from rfl, addr_add,
        show 8 + 8 * k = 8 * (k + 1) by omega]
      exact hmiss (k + 1) (by omega)
    · rw [traverseLoop, if_neg hp]

/-- Where `traverse_tarfs` stops. -/
theorem traverseTarfs_cases (start stop : Word) (hz : m z = 0) (hname : (0 : Byte) ∉ filename)
    (hstop : stop.toNat + 8 < 2 ^ 64) :
    (∃ n, start.toNat + 8 * n ≤ stop.toNat ∧ NameAt m filename (start + BitVec.ofNat 64 (8 * n)) ∧
      (∀ k < n, ¬ NameAt m filename (start + BitVec.ofNat 64 (8 * k))) ∧
      traverseTarfs m start stop filename = .ok (start + BitVec.ofNat 64 (8 * n))) ∨
    ((∀ k, start.toNat + 8 * k ≤ stop.toNat →
      ¬ NameAt m filename (start + BitVec.ofNat 64 (8 * k))) ∧
      traverseTarfs m start stop filename = .ok 0) := by
  by_cases hhit : ∃ n, start.toNat + 8 * n ≤ stop.toNat ∧
      NameAt m filename (start + BitVec.ofNat 64 (8 * n))
  · obtain ⟨hroom, hat⟩ := Nat.find_spec hhit
    have hmiss : ∀ k < Nat.find hhit, ¬ NameAt m filename (start + BitVec.ofNat 64 (8 * k)) := by
      intro k hk hat'
      exact Nat.find_min hhit hk ⟨by omega, hat'⟩
    refine Or.inl ⟨Nat.find hhit, hroom, hat, hmiss, ?_⟩
    exact traverseLoop_found hz hname hroom hat hmiss (by unfold loopFuel; omega)
  · have hmiss : ∀ k, start.toNat + 8 * k ≤ stop.toNat →
        ¬ NameAt m filename (start + BitVec.ofNat 64 (8 * k)) :=
      fun k hk hat => hhit ⟨k, hk, hat⟩
    refine Or.inr ⟨hmiss, traverseLoop_absent hz hstop hmiss ?_⟩
    unfold loopFuel
    omega

end Walk

/-! ## `get_elf` -/

section Claim

variable {m : Memory} {start stop : Word} {members : List UstarMember} {filename : List Byte}

theorem addr_toNat {k : Nat} (hk : start.toNat + k < 2 ^ 64) :
    (start + BitVec.ofNat 64 k).toNat = start.toNat + k := by
  rw [BitVec.toNat_add, BitVec.toNat_ofNat]
  omega

theorem content_lt {k : Nat} (hk : start.toNat + k ≤ stop.toNat)
    (hstop : stop.toNat + 512 < 2 ^ 64) :
    start.toNat + (k + 512) < 2 ^ 64 := by
  rw [← Nat.add_assoc]
  omega

theorem addr_inj {j k : Nat} (hj : start.toNat + j < 2 ^ 64) (hk : start.toNat + k < 2 ^ 64)
    (h : start + BitVec.ofNat 64 j = start + BitVec.ofNat 64 k) : j = k := by
  have := congrArg BitVec.toNat h
  rw [addr_toNat hj, addr_toNat hk] at this
  omega

theorem addr_ne_zero (hstart : start ≠ 0) {k : Nat} (hk : start.toNat + k < 2 ^ 64) :
    start + BitVec.ofNat 64 k ≠ 0 := by
  intro h
  have hpos : start.toNat ≠ 0 := fun h0 => hstart (BitVec.eq_of_toNat_eq h0)
  have := congrArg BitVec.toNat h
  rw [addr_toNat hk, show (0 : Word).toNat = 0 from rfl] at this
  omega

/-- `get_elf` passes over the header it is given. -/
theorem getElf_found (hstart : start ≠ 0) {k : Nat} (hk : start.toNat + k < 2 ^ 64)
    (h : traverseTarfs m start stop filename = .ok (start + BitVec.ofNat 64 k)) :
    getElf m start stop filename = .ok (start + BitVec.ofNat 64 (k + 512)) := by
  unfold getElf
  rw [h, ok_bind, if_neg (addr_ne_zero hstart hk), ← addr_add]
  rfl

theorem getElf_absent (h : traverseTarfs m start stop filename = .ok 0) :
    getElf m start stop filename = .ok 0 := by
  unfold getElf
  rw [h, ok_bind, if_pos rfl]
  rfl

/-- What `get_elf` returns is where the name was met first. -/
theorem noStrayName_of_lookupExact (ha : Ustar m start stop members)
    (hname : (0 : Byte) ∉ filename) (h : LookupExact m start stop members filename) :
    NoStrayName m start stop members filename := by
  have hbelow := ha.below
  have hroom := ha.room
  have hz : m (start + BitVec.ofNat 64 (0 + ustarSpan members)) = 0 := ustarLaid_end ha.laid
  unfold LookupExact contentOf at h
  unfold NoStrayName
  obtain ⟨n, hn, hat, hmiss, hwalk⟩ | ⟨hmiss, hwalk⟩ :=
    traverseTarfs_cases start stop hz hname (by omega)
  · rw [getElf_found ha.nonNull (by omega) hwalk] at h
    cases hg : headerFrom filename 0 members with
    | none =>
      rw [hg] at h
      dsimp only at h
      exact absurd (Except.ok.inj h) (addr_ne_zero ha.nonNull (content_lt hn hbelow))
    | some g =>
      rw [hg] at h
      dsimp only at h
      obtain ⟨-, hin, -⟩ := headerFrom_some ha.laid hg
      have hng : 8 * n + 512 = g + 512 :=
        addr_inj (content_lt hn hbelow) (content_lt (by omega) hbelow) (Except.ok.inj h)
      obtain rfl : g = 8 * n := by omega
      exact ⟨hat, fun k hk => hmiss k (by omega)⟩
  · rw [getElf_absent hwalk] at h
    cases hg : headerFrom filename 0 members with
    | none => exact hmiss
    | some g =>
      rw [hg] at h
      dsimp only at h
      obtain ⟨-, hin, -⟩ := headerFrom_some ha.laid hg
      exact absurd (Except.ok.inj h).symm
        (addr_ne_zero ha.nonNull (content_lt (k := g) (by omega) hbelow))

theorem lookupExact_of_noStrayName (ha : Ustar m start stop members)
    (hname : (0 : Byte) ∉ filename) (hstray : NoStrayName m start stop members filename) :
    LookupExact m start stop members filename := by
  have hbelow := ha.below
  have hroom := ha.room
  have hz : m (start + BitVec.ofNat 64 (0 + ustarSpan members)) = 0 := ustarLaid_end ha.laid
  unfold LookupExact contentOf
  unfold NoStrayName at hstray
  cases hg : headerFrom filename 0 members with
  | none =>
    rw [hg] at hstray
    dsimp only at hstray ⊢
    refine getElf_absent (traverseLoop_absent hz (by omega) hstray ?_)
    unfold loopFuel
    omega
  | some g =>
    rw [hg] at hstray
    dsimp only at hstray ⊢
    obtain ⟨-, hin, hblocks, -⟩ := headerFrom_some ha.laid hg
    obtain ⟨n, rfl⟩ : ∃ n, g = 8 * n := ⟨g / 8, by omega⟩
    refine getElf_found ha.nonNull (by omega) (traverseLoop_found hz hname (by omega) hstray.1
      (fun k hk => hstray.2 k (by omega)) ?_)
    unfold loopFuel
    omega

/-- `get_elf` is exact when the name does not lie astray in the archive. -/
theorem lookupExact_iff (m : Memory) (start stop : Word) (members : List UstarMember)
    (filename : List Byte) (ha : Ustar m start stop members) (hname : (0 : Byte) ∉ filename) :
    LookupExact m start stop members filename ↔ NoStrayName m start stop members filename :=
  ⟨noStrayName_of_lookupExact ha hname, lookupExact_of_noStrayName ha hname⟩

theorem sample_noStray : ∀ k < 64,
    ¬ NameAt (image 0x1000 sampleMembers) (str "bin/ls") (0x1000 + BitVec.ofNat 64 (8 * k)) := by
  decide

theorem lookupExact_sample :
    LookupExact (image 0x1000 sampleMembers) 0x1000 0x3000
      (sampleMembers.map fun x => ⟨x, []⟩) (str "bin/ls") :=
  (lookupExact_iff _ _ _ _ _ (sample_archive.ustar (by decide) (by decide)) (by decide)).mpr
    ⟨by decide, fun k hk => sample_noStray k (Nat.lt_of_mul_lt_mul_left (a := 8) hk)⟩

/-- With short paths only what lies before the member counts. -/
theorem getElf_short (ha : Ustar m start stop members) (hname : (0 : Byte) ∉ filename)
    (hshort : ∀ x ∈ members, x.name.length < 100 ∧ x.pathPrefix = []) {g : Nat}
    (hg : headerFrom filename 0 members = some g)
    (hmiss : ∀ k, 8 * k < g → ¬ NameAt m filename (start + BitVec.ofNat 64 (8 * k))) :
    getElf m start stop filename = .ok (start + BitVec.ofNat 64 (g + 512)) := by
  obtain ⟨-, -, -, x, hx, rfl, hheader⟩ := headerFrom_some ha.laid hg
  obtain ⟨hlen, hplain⟩ := hshort x hx
  have hexact : LookupExact m start stop members x.path := by
    refine lookupExact_of_noStrayName ha hname ?_
    unfold NoStrayName
    rw [hg]
    exact ⟨hheader.nameAt hlen hplain, hmiss⟩
  unfold LookupExact contentOf at hexact
  rw [hg] at hexact
  exact hexact

/-- A file whose content is the name of another one. -/
def strayMembers : List Member := [⟨str "a", chr '0', str "b"⟩]

theorem stray_archive : Archive (image 0x1000 strayMembers) 0x1000 0x3000 strayMembers :=
  image_archive (fun x hx => by
    obtain rfl := List.mem_singleton.mp hx
    exact ⟨by decide, by decide, by decide, by decide⟩) (by decide) (by decide)

theorem lookupExact_stray_false :
    Ustar (image 0x1000 strayMembers) 0x1000 0x3000 (strayMembers.map fun x => ⟨x, []⟩) ∧
      ¬ LookupExact (image 0x1000 strayMembers) 0x1000 0x3000
        (strayMembers.map fun x => ⟨x, []⟩) (str "b") := by
  have ha := stray_archive.ustar (by decide) (by decide)
  refine ⟨ha, fun h => ?_⟩
  have hstray := noStrayName_of_lookupExact ha (by decide) h
  exact hstray 64 (by decide) (by decide)

end Claim

end SBUnix.Vfs
