import SBUnix.Paging.Owned

/-
  Filling one absent slot of an owned page table.

  `Owned.fill` is the store itself. `Owned.link` takes a fresh frame and hangs it into an
  absent slot above the last level: no full translation changes, because the new table is
  blank. `Owned.mapLeaf` fills an absent last-level slot: one virtual page gets a frame, and it
  does so in every address space that shares the slot's top-level entry.
-/

namespace SBUnix

open ByteMem Radix

section Fill

variable {shared : Set Idx} {roots : Set Frame} {fs : List Frame} {s : Kernel}
  {p : List Idx} {i : Idx} {f : Frame} {e : Word}

/-- The state after storing `e` in slot `i` of the table in frame `f`. -/
def Kernel.setSlot (s : Kernel) (f : Frame) (i : Idx) (e : Word) : Kernel :=
  { s with mem := writeWord s.mem (entryAddr f i) e }

theorem entries_setSlot (s : Kernel) (f : Frame) (i : Idx) (e : Word) :
    entries (s.setSlot f i e).mem = setEntry (entries s.mem) f i e :=
  entries_writeWord s.mem f i e

theorem sameRegs_setSlot (s : Kernel) (f : Frame) (i : Idx) (e : Word) :
    s.SameRegs (s.setSlot f i e) := ⟨rfl, rfl, rfl, rfl⟩

/-- The bytes of other frames stay. -/
theorem mem_setSlot_of_ne (s : Kernel) {f : Frame} (i : Idx) (e : Word) {x : Nat}
    (hx : x / 4096 ≠ f.toNat) : (s.setSlot f i e).mem x = s.mem x := by
  have hi := i.isLt
  unfold Kernel.setSlot
  by_cases hlt : x < entryAddr f i
  · exact writeWord_of_lt s.mem e hlt
  · refine writeWord_of_ge s.mem e ?_
    unfold entryAddr at hlt ⊢
    omega

/-- A valid entry that is storable in an absent slot, and links no free frame, keeps the page
    tables owned. -/
theorem Owned.fill (h : Owned shared roots fs s) (hp : TablePath selfSlot 4 p)
    (hw : s.tableAt p = some f) (hv : isValidPage e = true)
    (hs : Storable target selfSlot shared 4 (entries s.mem) roots p i e)
    (hfree : p.length + 1 < 4 → frameOf e ∉ fs) :
    Owned shared roots fs (s.setSlot f i e) := by
  have hent := entries_setSlot s f i e
  have hte : target e = some (frameOf e) := if_pos (present_of_isValidPage hv)
  -- a table of the new state is an old one, or the frame just linked
  have hnew : ∀ g, IsPageTable roots (s.setSlot f i e).mem g →
      IsPageTable roots s.mem g ∨ (frameOf e = g ∧ p.length + 1 < 4) := by
    intro g hg
    unfold IsPageTable at hg
    rw [hent] at hg
    have hcase := h.forest.isTable_setEntry h.loaded hp hw hs hg
    rw [hte, Option.some.injEq] at hcase
    exact hcase
  have hf := h.isPageTable_of_walk hp hw
  refine ⟨?_, h.loaded, ?_, h.free, h.nodup, ?_, ?_⟩
  · rw [hent]
    exact h.forest.setEntry h.loaded hp hw hs
  · intro g hg j hj
    rw [hent] at hj ⊢
    by_cases hfi : g = f ∧ j = i
    · rw [setEntry, if_pos hfi]
      exact hv
    · rw [setEntry, if_neg hfi] at hj ⊢
      obtain hold | ⟨rfl, hlen⟩ := hnew g hg
      · exact h.writable g hold j hj
      · obtain ⟨k, hk, hblank, -⟩ := hs.link hlen
        rw [hte, Option.some.injEq] at hk
        have habs := hblank j
        rw [← hk, target_eq_none_iff, hj] at habs
        cases habs
  · intro x hx j
    have hxf : x ≠ f := by
      intro hxf
      exact h.unused x hx (hxf ▸ hf)
    rw [hent, setEntry_of_frame_ne _ _ _ _ hxf]
    exact h.zero x hx j
  · intro x hx hxt
    obtain hold | ⟨rfl, hlen⟩ := hnew x hxt
    · exact h.unused x hx hold
    · exact hfree hlen hx

/-- What the store adds to the tables when the slot was absent. -/
theorem Owned.fill_grown (h : Owned shared roots fs s) (hp : TablePath selfSlot 4 p)
    (hw : s.tableAt p = some f) (habs : target (entries s.mem f i) = none)
    (hs : Storable target selfSlot shared 4 (entries s.mem) roots p i e) {used : List Frame}
    (hused : ∀ g, (target e = some g ∧ p.length + 1 < 4) ↔ g ∈ used) :
    Grown roots used s (s.setSlot f i e) := by
  have hent := entries_setSlot s f i e
  have hkept : ∀ r ∈ roots, ∀ q x, walk target (entries s.mem) r q = some x →
      walk target (entries (s.setSlot f i e).mem) r q = some x := by
    intro r _ q x hx
    rw [hent]
    exact walk_setEntry_of_absent e habs hx
  have htables : ∀ g, IsPageTable roots (s.setSlot f i e).mem g ↔
      IsPageTable roots s.mem g ∨ g ∈ used := by
    intro g
    constructor
    · intro hg
      unfold IsPageTable at hg
      rw [hent] at hg
      obtain hold | hnew := h.forest.isTable_setEntry h.loaded hp hw hs hg
      · exact Or.inl hold
      · exact Or.inr ((hused g).mp hnew)
    · intro hg
      obtain ⟨r, hr, q, hq, hx⟩ | hg := hg
      · exact ⟨r, hr, q, hq, hkept r hr q g hx⟩
      · obtain ⟨hte, hlen⟩ := (hused g).mpr hg
        refine ⟨s.root, h.loaded, p ++ [i], ⟨by simpa using hlen, ?_⟩, ?_⟩
        · cases p with
          | nil => simpa using (hs.root rfl).1
          | cons j p => simpa using hp.head
        · rw [hent, h.forest.walk_setEntry_through h.loaded hp hw h.loaded (Or.inl rfl), hte]
          rfl
  refine ⟨sameRegs_setSlot s f i e, htables, hkept, ?_, ?_⟩
  · intro g j hj
    rw [hent, setEntry, if_neg]
    intro hfi
    rw [hfi.1, hfi.2] at hj
    exact hj habs
  · intro x hx
    have hf : IsPageTable roots (s.setSlot f i e).mem f :=
      (htables f).mpr (Or.inl (h.isPageTable_of_walk hp hw))
    exact mem_setSlot_of_ne s i e (hx f hf)

/-- All full-length translations outside slot 510 agree. -/
def SameTrans (roots : Set Frame) (s s' : Kernel) : Prop :=
  ∀ r ∈ roots, ∀ q : List Idx, q.length = 4 → q.head? ≠ some selfSlot →
    walk target (entries s'.mem) r q = walk target (entries s.mem) r q

/-- Take a fresh frame and hang it as a table into an absent slot above the last level. -/
theorem Owned.link {g : Frame} {a flags : Word} (h : Owned shared roots (g :: fs) s)
    (hf : EntryFlags flags) (ha : RecWindow a p i) (hp : TablePath selfSlot 4 p)
    (hlen : p.length + 1 < 4) (hroot : p = [] → i ≠ selfSlot ∧ i ∉ shared)
    (hw : s.tableAt p = some f) (habs : target (entries s.mem f i) = none) :
    ∃ s₁ s₂, s.takeFrame = .ok (g.addr, s₁) ∧ s₁.store a (g.addr ||| flags) = .ok s₂ ∧
      Owned shared roots fs s₂ ∧ Grown roots [g] s s₂ ∧ SameTrans roots s s₂ ∧
      s₂.tableAt (p ++ [i]) = some g ∧ ∀ j, target (entries s₂.mem g j) = none := by
  obtain ⟨s₁, htake, hmem, hregs, h₁⟩ := h.takeFrame
  have hte : target (g.addr ||| flags) = some g := by
    rw [target_or_flags _ hf, frameOf_addr]
  have hfe : frameOf (g.addr ||| flags) = g := by
    rw [frameOf_or_flags _ hf, frameOf_addr]
  have hw₁ : s₁.tableAt p = some f := by
    unfold Kernel.tableAt
    rw [hmem, hregs.root]
    exact hw
  have habs₁ : target (entries s₁.mem f i) = none := by rwa [hmem]
  have hblank : Blank target (entries s₁.mem) g := by
    intro j
    rw [hmem, h.zero g (by simp) j, target_zero]
  have hng : ¬ IsPageTable roots s₁.mem g := by
    rw [hmem]
    exact h.unused g (by simp)
  have hs : Storable target selfSlot shared 4 (entries s₁.mem) roots p i (g.addr ||| flags) :=
    ⟨hroot, fun _ => ⟨g, hte, hblank, hng⟩⟩
  have hgrown : Grown roots [g] s₁ (s₁.setSlot f i (g.addr ||| flags)) := by
    refine h₁.fill_grown hp hw₁ habs₁ hs fun x => ?_
    rw [hte, Option.some.injEq, List.mem_singleton]
    exact ⟨fun hx => hx.1.symm, fun hx => ⟨hx.symm, hlen⟩⟩
  have hent := entries_setSlot s₁ f i (g.addr ||| flags)
  have hgf : g ≠ f := by
    intro hgf
    exact hng (hgf ▸ h₁.isPageTable_of_walk hp hw₁)
  refine ⟨s₁, s₁.setSlot f i (g.addr ||| flags), htake,
    Kernel.store_window ha h₁.self_ref hw₁ _, ?_, ?_, ?_, ?_, ?_⟩
  · refine h₁.fill hp hw₁ (isValidPage_or_flags _ hf) hs fun _ => ?_
    rw [hfe]
    exact (List.nodup_cons.mp h.nodup).1
  · exact (Grown.of_mem_eq hmem hregs).trans hgrown
  · intro r hr q hq hh
    rw [hent, ← hmem]
    by_cases hthrough : p ++ [i] <+: q ∧ (r = s₁.root ∨ HeadShared shared p)
    · -- through the slot both walks fail: before it was absent, now the table behind is blank
      obtain ⟨⟨t, rfl⟩, hsee⟩ := hthrough
      have ht : t ≠ [] := by
        intro ht
        rw [ht] at hq
        simp only [List.length_append, List.length_cons, List.length_nil] at hq
        omega
      rw [List.append_assoc, List.singleton_append,
        h₁.forest.walk_setEntry_link h₁.loaded hp hw₁ hte hblank hng hr hsee, if_neg ht,
        walk_append, h₁.forest.walk_sees h₁.loaded hr hw₁ hsee, Option.bind_some, walk_cons,
        habs₁, Option.bind_none]
    · exact h₁.forest.walk_setEntry_of_not_through h₁.loaded hp hw₁ hr ⟨hq.le, hh⟩ hthrough
  · have hthrough := h₁.forest.walk_setEntry_through (e := g.addr ||| flags) (i := i) h₁.loaded hp
      hw₁ h₁.loaded (Or.inl rfl) []
    rw [hte] at hthrough
    rw [← hent] at hthrough
    exact hthrough
  · intro j
    rw [hent, setEntry_of_frame_ne _ _ _ _ hgf]
    exact hblank j

/-- Only the page at path `q₀` changes, and only in the roots that see it: it gets frame `g`. -/
structure MapsOnly (shared : Set Idx) (roots : Set Frame) (q₀ : List Idx) (g : Frame)
    (s s' : Kernel) : Prop where
  mapped : ∀ r ∈ roots, r = s.root ∨ HeadShared shared q₀ →
    walk target (entries s'.mem) r q₀ = some g
  other : ∀ r ∈ roots, ∀ q : List Idx, q.length = 4 → q.head? ≠ some selfSlot →
    ¬ (q = q₀ ∧ (r = s.root ∨ HeadShared shared q₀)) →
      walk target (entries s'.mem) r q = walk target (entries s.mem) r q

theorem SameTrans.mapsOnly {s₁ s₂ s₃ : Kernel} {q₀ : List Idx} {g : Frame}
    (h : SameTrans roots s₁ s₂) (hr : s₂.root = s₁.root)
    (h' : MapsOnly shared roots q₀ g s₂ s₃) : MapsOnly shared roots q₀ g s₁ s₃ where
  mapped r hmem hsee := h'.mapped r hmem (by rwa [hr])
  other r hmem q hq hh hn := by
    rw [h'.other r hmem q hq hh (by rwa [hr]), h r hmem q hq hh]

theorem headShared_concat {p : List Idx} (hp : p ≠ []) :
    HeadShared shared (p ++ [i]) ↔ HeadShared shared p := by
  cases p with
  | nil => exact absurd rfl hp
  | cons j p => simp [HeadShared]

/-- Fill an absent last-level slot. -/
theorem Owned.mapLeaf {a : Word} (h : Owned shared roots fs s) (ha : RecWindow a p i)
    (hp : TablePath selfSlot 4 p) (hlen : p.length = 3) (hw : s.tableAt p = some f)
    (habs : target (entries s.mem f i) = none) (hv : isValidPage e = true) :
    ∃ s₂, s.store a e = .ok s₂ ∧ Owned shared roots fs s₂ ∧ Grown roots [] s s₂ ∧
      MapsOnly shared roots (p ++ [i]) (frameOf e) s s₂ := by
  have hlast : ¬ p.length + 1 < 4 := by omega
  have hnil : p ≠ [] := by
    intro hnil
    rw [hnil] at hlen
    cases hlen
  have hs : Storable target selfSlot shared 4 (entries s.mem) roots p i e :=
    ⟨fun h0 => absurd h0 hnil, fun hlt => absurd hlt hlast⟩
  have hent := entries_setSlot s f i e
  refine ⟨s.setSlot f i e, Kernel.store_window ha h.self_ref hw e,
    h.fill hp hw hv hs fun hlt => absurd hlt hlast, ?_, ?_, ?_⟩
  · refine h.fill_grown hp hw habs hs fun g => ?_
    simp [hlast]
  · intro r hr hsee
    rw [headShared_concat hnil] at hsee
    rw [hent, h.forest.walk_setEntry_through h.loaded hp hw hr hsee, target,
      if_pos (present_of_isValidPage hv)]
    rfl
  · intro r hr q hq hh hn
    rw [hent]
    refine h.forest.walk_setEntry_of_not_through h.loaded hp hw hr ⟨hq.le, hh⟩ fun hth => hn ?_
    have heq : p ++ [i] = q := hth.1.eq_of_length (by simp [hlen, hq])
    rw [headShared_concat hnil]
    exact ⟨heq.symm, hth.2⟩

end Fill

end SBUnix
