import Mathlib

/-
  Multi-level radix tables with a self-referencing slot and shared slots.

  `m : F → I → E` gives the entry of every table frame at every index, and `next` decodes an
  entry into the frame it points to (`none` when it is absent). `walk` follows a path of
  indices from a root. A `Forest` is a set of roots whose tables are owned: slot `loop` of a
  root points back to the root, the slots in `shared` hold the same entry in every root, and
  apart from those slots no two paths reach the same table.

  `Forest.walk_setEntry_of_not_through` is the frame rule of one store: it only changes the
  paths that go through the stored slot. `Forest.setEntry` keeps the ownership, whether the
  slot is a leaf or links a blank unused frame as a new table, and `Forest.addRoot` adds a root.
-/

namespace Radix

variable {F I E : Type*}

/-! ## Walks -/

section Walk

variable (next : E → Option F)

/-- The frame at the end of path `p` from table `f`. -/
def walk (m : F → I → E) : F → List I → Option F
  | f, [] => some f
  | f, i :: p => (next (m f i)).bind fun g => walk m g p

@[simp] theorem walk_nil (m : F → I → E) (f : F) : walk next m f [] = some f := rfl

@[simp] theorem walk_cons (m : F → I → E) (f : F) (i : I) (p : List I) :
    walk next m f (i :: p) = (next (m f i)).bind fun g => walk next m g p := rfl

theorem walk_append (m : F → I → E) (f : F) (p q : List I) :
    walk next m f (p ++ q) = (walk next m f p).bind fun g => walk next m g q := by
  induction p generalizing f with
  | nil => rfl
  | cons i p ih =>
    simp only [List.cons_append, walk_cons, Option.bind_assoc]
    exact congrArg _ (funext fun g => ih g)

theorem walk_concat (m : F → I → E) (f : F) (p : List I) (i : I) :
    walk next m f (p ++ [i]) = (walk next m f p).bind fun g => next (m g i) := by
  rw [walk_append]
  simp

/-- A self-referencing slot can be stepped through any number of times. -/
theorem walk_self {m : F → I → E} {r : F} {s : I} (h : next (m r s) = some r) (p : List I) :
    walk next m r (s :: p) = walk next m r p := by
  rw [walk_cons, h, Option.bind_some]

/-- Two memories give the same walk when they decode alike every slot the walk reads. -/
theorem walk_congr {m m' : F → I → E} (f : F) (p : List I)
    (h : ∀ q j t g, p = q ++ j :: t → walk next m f q = some g →
      next (m' g j) = next (m g j)) :
    walk next m' f p = walk next m f p := by
  induction p generalizing f with
  | nil => rfl
  | cons i p ih =>
    rw [walk_cons, walk_cons, h [] i p f rfl rfl]
    cases hn : next (m f i) with
    | none => rfl
    | some g =>
      refine ih g fun q j t k hp hq => h (i :: q) j t k (by rw [hp]; rfl) ?_
      rw [walk_cons, hn]
      exact hq

end Walk

/-! ## Storing one entry -/

section SetEntry

variable [DecidableEq F] [DecidableEq I]

def setEntry (m : F → I → E) (f : F) (i : I) (e : E) : F → I → E :=
  fun g j => if g = f ∧ j = i then e else m g j

@[simp] theorem setEntry_same (m : F → I → E) (f : F) (i : I) (e : E) :
    setEntry m f i e f i = e := by
  simp [setEntry]

theorem setEntry_of_frame_ne (m : F → I → E) {f g : F} (i j : I) (e : E) (h : g ≠ f) :
    setEntry m f i e g j = m g j := by
  simp [setEntry, h]

/-- Filling an absent slot keeps every successful walk. -/
theorem walk_setEntry_of_absent {next : E → Option F} {m : F → I → E} {f : F} {i : I} (e : E)
    (habs : next (m f i) = none) {r x : F} {q : List I} (h : walk next m r q = some x) :
    walk next (setEntry m f i e) r q = some x := by
  induction q generalizing r with
  | nil => exact h
  | cons j q ih =>
    obtain ⟨g, hg, hw⟩ := Option.bind_eq_some_iff.mp h
    have hne : ¬ (r = f ∧ j = i) := by
      intro he
      rw [he.1, he.2, habs] at hg
      cases hg
    rw [walk_cons, setEntry, if_neg hne, hg]
    exact ih hw

end SetEntry

/-! ## Owned tables -/

/-- A path that ends in a table: shorter than the depth, and not through the loop slot. -/
structure TablePath (loop : I) (depth : ℕ) (p : List I) : Prop where
  short : p.length < depth
  head : p.head? ≠ some loop

/-- A path that may end in a mapped frame: no longer than the depth, not through the loop slot. -/
structure MapPath (loop : I) (depth : ℕ) (p : List I) : Prop where
  short : p.length ≤ depth
  head : p.head? ≠ some loop

theorem TablePath.mapPath {loop : I} {depth : ℕ} {p : List I} (h : TablePath loop depth p) :
    MapPath loop depth p :=
  ⟨h.short.le, h.head⟩

theorem MapPath.tablePath_prefix {loop : I} {depth : ℕ} {p t : List I} {i : I}
    (h : MapPath loop depth (p ++ i :: t)) : TablePath loop depth p := by
  refine ⟨?_, ?_⟩
  · have := h.short
    simp only [List.length_append, List.length_cons] at this
    omega
  · have := h.head
    cases p with
    | nil => simp
    | cons j p => simpa using this

/-- The first index of `p` is a shared slot. -/
def HeadShared (shared : Set I) (p : List I) : Prop := ∃ i ∈ shared, p.head? = some i

theorem HeadShared.append {shared : Set I} {p : List I} (h : HeadShared shared p) (q : List I) :
    HeadShared shared (p ++ q) := by
  obtain ⟨i, hi, hp⟩ := h
  cases p with
  | nil => simp at hp
  | cons j p => exact ⟨i, hi, by simpa using hp⟩

/-- The tables of every root are owned by one path of one root, shared slots apart. -/
structure Forest (next : E → Option F) (loop : I) (shared : Set I) (depth : ℕ)
    (m : F → I → E) (roots : Set F) : Prop where
  self_ref : ∀ r ∈ roots, next (m r loop) = some r
  share : ∀ r ∈ roots, ∀ r' ∈ roots, ∀ i ∈ shared, m r' i = m r i
  inj : ∀ r ∈ roots, ∀ r' ∈ roots, ∀ p q f, TablePath loop depth p → TablePath loop depth q →
    walk next m r p = some f → walk next m r' q = some f →
    p = q ∧ (r' = r ∨ HeadShared shared p)

/-- `g` is one of the tables of the roots. -/
def IsTable (next : E → Option F) (loop : I) (depth : ℕ) (m : F → I → E) (roots : Set F)
    (g : F) : Prop :=
  ∃ r ∈ roots, ∃ p, TablePath loop depth p ∧ walk next m r p = some g

/-- No slot of `g` is present. -/
def Blank (next : E → Option F) (m : F → I → E) (g : F) : Prop := ∀ j, next (m g j) = none

theorem walk_of_blank {next : E → Option F} {m : F → I → E} {g : F} (h : Blank next m g)
    {p : List I} (hp : p ≠ []) : walk next m g p = none := by
  cases p with
  | nil => exact absurd rfl hp
  | cons i p => rw [walk_cons, h i, Option.bind_none]

section Forest

variable {next : E → Option F} {loop : I} {shared : Set I} {depth : ℕ} {m : F → I → E}
  {roots : Set F}

theorem isTable_root {r : F} (hr : r ∈ roots) (hd : 0 < depth) :
    IsTable next loop depth m roots r :=
  ⟨r, hr, [], ⟨hd, by simp⟩, rfl⟩

theorem IsTable.mono {roots' : Set F} {g : F} (h : IsTable next loop depth m roots g)
    (hr : ∀ r ∈ roots, r ∈ roots') : IsTable next loop depth m roots' g := by
  obtain ⟨r, hmem, hp⟩ := h
  exact ⟨r, hr r hmem, hp⟩

/-- A path headed by a shared slot reaches the same frame from every root. -/
theorem Forest.walk_shared (h : Forest next loop shared depth m roots) {r r' : F}
    (hr : r ∈ roots) (hr' : r' ∈ roots) {p : List I} (hp : HeadShared shared p) :
    walk next m r' p = walk next m r p := by
  obtain ⟨i, hi, hp⟩ := hp
  cases p with
  | nil => simp at hp
  | cons j p =>
    obtain rfl : j = i := by simpa using hp
    rw [walk_cons, walk_cons, h.share r hr r' hr' j hi]

/-- The walk from `r'` also reaches the table at path `p` of root `r`. -/
theorem Forest.walk_sees (h : Forest next loop shared depth m roots) {r r' f : F}
    (hr : r ∈ roots) (hr' : r' ∈ roots) {p : List I} (hw : walk next m r p = some f)
    (hs : r' = r ∨ HeadShared shared p) : walk next m r' p = some f := by
  rcases hs with rfl | hs
  · exact hw
  · rw [h.walk_shared hr hr' hs, hw]

/-- A table that is a root is reached by the empty path only. -/
theorem Forest.path_of_root (h : Forest next loop shared depth m roots) {r r' : F}
    (hr : r ∈ roots) (hr' : r' ∈ roots) {p : List I} (hp : TablePath loop depth p)
    (hw : walk next m r p = some r') : p = [] :=
  (h.inj r hr r' hr' p [] r' hp ⟨lt_of_le_of_lt (Nat.zero_le _) hp.short, by simp⟩ hw rfl).1

/-- Storing off every table leaves every walk as it was. -/
theorem walk_congr_tables {m' : F → I → E}
    (hm : ∀ g, IsTable next loop depth m roots g → ∀ j, m' g j = m g j)
    {r : F} (hr : r ∈ roots) {q : List I} (hq : MapPath loop depth q) :
    walk next m' r q = walk next m r q := by
  apply walk_congr
  rintro q' j t g rfl hg
  rw [hm g ⟨r, hr, q', hq.tablePath_prefix, hg⟩ j]

theorem Forest.congr_tables (h : Forest next loop shared depth m roots) {m' : F → I → E}
    (hd : 0 < depth) (hm : ∀ g, IsTable next loop depth m roots g → ∀ j, m' g j = m g j) :
    Forest next loop shared depth m' roots where
  self_ref r hr := by rw [hm r (isTable_root hr hd)]; exact h.self_ref r hr
  share r hr r' hr' i hi := by
    rw [hm r (isTable_root hr hd), hm r' (isTable_root hr' hd)]
    exact h.share r hr r' hr' i hi
  inj r hr r' hr' p q f hp hq hw hw' := by
    rw [walk_congr_tables hm hr hp.mapPath] at hw
    rw [walk_congr_tables hm hr' hq.mapPath] at hw'
    exact h.inj r hr r' hr' p q f hp hq hw hw'

theorem isTable_congr_tables {m' : F → I → E}
    (hm : ∀ g, IsTable next loop depth m roots g → ∀ j, m' g j = m g j) (x : F) :
    IsTable next loop depth m' roots x ↔ IsTable next loop depth m roots x := by
  constructor
  · rintro ⟨r, hr, p, hp, hw⟩
    exact ⟨r, hr, p, hp, by rwa [walk_congr_tables hm hr hp.mapPath] at hw⟩
  · rintro ⟨r, hr, p, hp, hw⟩
    exact ⟨r, hr, p, hp, by rwa [walk_congr_tables hm hr hp.mapPath]⟩

/-! ## One store into a table -/

section Store

variable [DecidableEq F] [DecidableEq I] {r f : F} {p : List I} {i : I} {e : E}

/-- Frame rule: a store at slot `i` of the table at `p` only changes the paths through it. -/
theorem Forest.walk_setEntry_of_not_through (h : Forest next loop shared depth m roots)
    (hr : r ∈ roots) (hp : TablePath loop depth p) (hw : walk next m r p = some f)
    {r' : F} (hr' : r' ∈ roots) {q : List I} (hq : MapPath loop depth q)
    (hn : ¬ (p ++ [i] <+: q ∧ (r' = r ∨ HeadShared shared p))) :
    walk next (setEntry m f i e) r' q = walk next m r' q := by
  apply walk_congr
  rintro q' j t g rfl hg
  by_cases hfi : g = f ∧ j = i
  · obtain ⟨rfl, rfl⟩ := hfi
    -- the walk reads the stored slot, so ownership puts it on the path `p`
    obtain ⟨rfl, hsee⟩ := h.inj r hr r' hr' p q' g hp hq.tablePath_prefix hw hg
    exact absurd ⟨⟨t, by simp⟩, hsee⟩ hn
  · rw [setEntry, if_neg hfi]

/-- The table that holds the stored slot is still reached. -/
theorem Forest.walk_setEntry_table (h : Forest next loop shared depth m roots)
    (hr : r ∈ roots) (hp : TablePath loop depth p) (hw : walk next m r p = some f)
    {r' : F} (hr' : r' ∈ roots) (hs : r' = r ∨ HeadShared shared p) :
    walk next (setEntry m f i e) r' p = some f := by
  rw [h.walk_setEntry_of_not_through hr hp hw hr' hp.mapPath]
  · exact h.walk_sees hr hr' hw hs
  · rintro ⟨hpre, -⟩
    have := hpre.length_le
    simp at this

/-- A path through the stored slot continues from the stored entry. -/
theorem Forest.walk_setEntry_through (h : Forest next loop shared depth m roots)
    (hr : r ∈ roots) (hp : TablePath loop depth p) (hw : walk next m r p = some f)
    {r' : F} (hr' : r' ∈ roots) (hs : r' = r ∨ HeadShared shared p) (t : List I) :
    walk next (setEntry m f i e) r' (p ++ i :: t) =
      (next e).bind fun g => walk next (setEntry m f i e) g t := by
  rw [walk_append, h.walk_setEntry_table hr hp hw hr' hs, Option.bind_some, walk_cons,
    setEntry_same]

/-- What a store may put in slot `i` of the table at `p`: in a root, not the loop slot nor a
    shared one; above the last level, a link to a blank frame that is no table yet. -/
structure Storable (next : E → Option F) (loop : I) (shared : Set I) (depth : ℕ)
    (m : F → I → E) (roots : Set F) (p : List I) (i : I) (e : E) : Prop where
  root : p = [] → i ≠ loop ∧ i ∉ shared
  link : p.length + 1 < depth → ∃ g, next e = some g ∧ Blank next m g ∧
    ¬ IsTable next loop depth m roots g

/-- Through a slot that now links a blank table, only the table itself is reached. -/
theorem Forest.walk_setEntry_link (h : Forest next loop shared depth m roots)
    (hr : r ∈ roots) (hp : TablePath loop depth p) (hw : walk next m r p = some f)
    {g : F} (he : next e = some g) (hb : Blank next m g)
    (hg : ¬ IsTable next loop depth m roots g)
    {r' : F} (hr' : r' ∈ roots) (hs : r' = r ∨ HeadShared shared p) (t : List I) :
    walk next (setEntry m f i e) r' (p ++ i :: t) = if t = [] then some g else none := by
  have hgf : g ≠ f := by
    rintro rfl
    exact hg ⟨r, hr, p, hp, hw⟩
  rw [h.walk_setEntry_through hr hp hw hr' hs, he, Option.bind_some]
  split_ifs with ht
  · rw [ht, walk_nil]
  · refine walk_of_blank (fun j => ?_) ht
    rw [setEntry_of_frame_ne m i j e hgf]
    exact hb j

/-- A link into an absent slot adds one path, and changes no other. -/
theorem Forest.walk_link (h : Forest next loop shared depth m roots)
    (hr : r ∈ roots) (hp : TablePath loop depth p) (hw : walk next m r p = some f)
    (habs : next (m f i) = none) {g : F} (he : next e = some g) (hb : Blank next m g)
    (hg : ¬ IsTable next loop depth m roots g) {q : List I}
    (hq : MapPath loop depth q) :
    walk next (setEntry m f i e) r q = if q = p ++ [i] then some g else walk next m r q := by
  by_cases hpre : p ++ [i] <+: q
  · obtain ⟨t, rfl⟩ := hpre
    have hold : t ≠ [] → walk next m r (p ++ i :: t) = none := by
      intro _
      rw [walk_append, hw, Option.bind_some, walk_cons, habs, Option.bind_none]
    rw [List.append_assoc, List.singleton_append,
      h.walk_setEntry_link hr hp hw he hb hg hr (Or.inl rfl)]
    by_cases ht : t = []
    · rw [if_pos ht, if_pos (by rw [ht])]
    · rw [if_neg ht, if_neg (by simpa using ht), hold ht]
  · have hne : q ≠ p ++ [i] := fun heq => hpre (heq ▸ List.prefix_rfl)
    rw [if_neg hne]
    exact h.walk_setEntry_of_not_through hr hp hw hr hq fun hth => hpre hth.1

/-- A store into a slot of the last level changes its own path only. -/
theorem Forest.walk_leaf (h : Forest next loop shared depth m roots)
    (hr : r ∈ roots) (hp : TablePath loop depth p) (hlast : p.length + 1 = depth)
    (hw : walk next m r p = some f) {q : List I}
    (hq : MapPath loop depth q) :
    walk next (setEntry m f i e) r q = if q = p ++ [i] then next e else walk next m r q := by
  by_cases hpre : p ++ [i] <+: q
  · have hlen := hq.short
    have heq : p ++ [i] = q := hpre.eq_of_length_le (by
      rw [List.length_append, List.length_singleton]
      omega)
    rw [if_pos heq.symm, ← heq, h.walk_setEntry_through hr hp hw hr (Or.inl rfl)]
    simp
  · have hne : q ≠ p ++ [i] := fun heq => hpre (heq ▸ List.prefix_rfl)
    rw [if_neg hne]
    exact h.walk_setEntry_of_not_through hr hp hw hr hq fun hth => hpre hth.1

/-- A table path after the store is an old one, or the stored slot's own. -/
theorem Forest.walk_setEntry_tablePath (h : Forest next loop shared depth m roots)
    (hr : r ∈ roots) (hp : TablePath loop depth p) (hw : walk next m r p = some f)
    (hs : Storable next loop shared depth m roots p i e)
    {r' x : F} (hr' : r' ∈ roots) {q : List I} (hq : TablePath loop depth q)
    (hx : walk next (setEntry m f i e) r' q = some x) :
    walk next m r' q = some x ∨
      (q = p ++ [i] ∧ (r' = r ∨ HeadShared shared p) ∧ next e = some x ∧
        p.length + 1 < depth ∧ ¬ IsTable next loop depth m roots x) := by
  by_cases hthrough : p ++ [i] <+: q ∧ (r' = r ∨ HeadShared shared p)
  · right
    obtain ⟨⟨t, rfl⟩, hsee⟩ := hthrough
    have hlen : p.length + 1 < depth := by
      have := hq.short
      simp only [List.length_append, List.length_cons, List.length_nil] at this
      omega
    obtain ⟨g, he, hb, hg⟩ := hs.link hlen
    rw [List.append_assoc, List.singleton_append,
      h.walk_setEntry_link hr hp hw he hb hg hr' hsee] at hx
    split_ifs at hx with ht
    · cases hx
      exact ⟨by rw [ht, List.append_nil], hsee, he, hlen, hg⟩
  · left
    rwa [h.walk_setEntry_of_not_through hr hp hw hr' hq.mapPath hthrough] at hx

/-- A storable entry keeps the tables owned. -/
theorem Forest.setEntry (h : Forest next loop shared depth m roots)
    (hr : r ∈ roots) (hp : TablePath loop depth p) (hw : walk next m r p = some f)
    (hs : Storable next loop shared depth m roots p i e) :
    Forest next loop shared depth (setEntry m f i e) roots where
  self_ref r' hr' := by
    by_cases hfi : r' = f ∧ loop = i
    · obtain ⟨rfl, rfl⟩ := hfi
      exact absurd rfl (hs.root (h.path_of_root hr hr' hp hw)).1
    · rw [Radix.setEntry, if_neg hfi]
      exact h.self_ref r' hr'
  share r₁ hr₁ r₂ hr₂ s hsh := by
    have keep : ∀ r' ∈ roots, Radix.setEntry m f i e r' s = m r' s := by
      intro r' hr'
      rw [Radix.setEntry, if_neg]
      rintro ⟨rfl, rfl⟩
      exact (hs.root (h.path_of_root hr hr' hp hw)).2 hsh
    rw [keep r₁ hr₁, keep r₂ hr₂]
    exact h.share r₁ hr₁ r₂ hr₂ s hsh
  inj r₁ hr₁ r₂ hr₂ q₁ q₂ x hq₁ hq₂ hx₁ hx₂ := by
    rcases h.walk_setEntry_tablePath hr hp hw hs hr₁ hq₁ hx₁ with h₁ | ⟨e₁, s₁, n₁, -, t₁⟩ <;>
      rcases h.walk_setEntry_tablePath hr hp hw hs hr₂ hq₂ hx₂ with h₂ | ⟨e₂, s₂, n₂, -, t₂⟩
    · exact h.inj r₁ hr₁ r₂ hr₂ q₁ q₂ x hq₁ hq₂ h₁ h₂
    · exact absurd ⟨r₁, hr₁, q₁, hq₁, h₁⟩ t₂
    · exact absurd ⟨r₂, hr₂, q₂, hq₂, h₂⟩ t₁
    · refine ⟨e₁.trans e₂.symm, ?_⟩
      rw [e₁]
      rcases s₁ with rfl | s₁
      · rcases s₂ with rfl | s₂
        · exact Or.inl rfl
        · exact Or.inr (s₂.append _)
      · exact Or.inr (s₁.append _)

/-- The only new table is the one the store links. -/
theorem Forest.isTable_setEntry (h : Forest next loop shared depth m roots)
    (hr : r ∈ roots) (hp : TablePath loop depth p) (hw : walk next m r p = some f)
    (hs : Storable next loop shared depth m roots p i e) {x : F}
    (hx : IsTable next loop depth (Radix.setEntry m f i e) roots x) :
    IsTable next loop depth m roots x ∨ (next e = some x ∧ p.length + 1 < depth) := by
  obtain ⟨r', hr', q, hq, hwx⟩ := hx
  rcases h.walk_setEntry_tablePath hr hp hw hs hr' hq hwx with hold | ⟨-, -, he, hl, -⟩
  · exact Or.inl ⟨r', hr', q, hq, hold⟩
  · exact Or.inr ⟨he, hl⟩

end Store

/-! ## A new root -/

/-- From a fresh root that only holds itself and the shared slots, every table path is the
    empty one or a shared one. -/
theorem walk_newRoot {g r : F} (hsh : ∀ i ∈ shared, m g i = m r i)
    (habs : ∀ j, j ≠ loop → j ∉ shared → next (m g j) = none)
    {p : List I} (hp : p.head? ≠ some loop) {x : F} (hx : walk next m g p = some x) :
    (p = [] ∧ x = g) ∨ (HeadShared shared p ∧ walk next m r p = some x) := by
  cases p with
  | nil => exact Or.inl ⟨rfl, by simpa using hx.symm⟩
  | cons i p =>
    right
    by_cases hi : i ∈ shared
    · refine ⟨⟨i, hi, rfl⟩, ?_⟩
      rwa [walk_cons, ← hsh i hi]
    · rw [walk_cons, habs i (by simpa using hp) hi] at hx
      simp at hx

theorem Forest.addRoot (h : Forest next loop shared depth m roots) {g r : F} (hr : r ∈ roots)
    (hself : next (m g loop) = some g) (hsh : ∀ i ∈ shared, m g i = m r i)
    (habs : ∀ j, j ≠ loop → j ∉ shared → next (m g j) = none)
    (hg : ¬ IsTable next loop depth m roots g) :
    Forest next loop shared depth m (insert g roots) where
  self_ref r' hr' := by
    rcases hr' with rfl | hr'
    · exact hself
    · exact h.self_ref r' hr'
  share r₁ hr₁ r₂ hr₂ i hi := by
    have key : ∀ r' ∈ insert g roots, m r' i = m r i := by
      rintro r' (rfl | hr')
      · exact hsh i hi
      · exact h.share r hr r' hr' i hi
    rw [key r₁ hr₁, key r₂ hr₂]
  inj r₁ hr₁ r₂ hr₂ p q x hp hq hx₁ hx₂ := by
    -- a path from `g` other than the empty one is a shared path, which `r` has as well
    have old : ∀ r' ∈ insert g roots, ∀ p, TablePath loop depth p →
        walk next m r' p = some x →
        (r' = g ∧ p = [] ∧ x = g) ∨
          ∃ k ∈ roots, walk next m k p = some x ∧ (k = r' ∨ HeadShared shared p) := by
      rintro r' (rfl | hr') p hp hx
      · rcases walk_newRoot hsh habs hp.head hx with ⟨rfl, rfl⟩ | ⟨hs, hw⟩
        · exact Or.inl ⟨rfl, rfl, rfl⟩
        · exact Or.inr ⟨r, hr, hw, Or.inr hs⟩
      · exact Or.inr ⟨r', hr', hx, Or.inl rfl⟩
    rcases old r₁ hr₁ p hp hx₁ with ⟨rfl, rfl, rfl⟩ | ⟨k₁, hk₁, hw₁, s₁⟩ <;>
      rcases old r₂ hr₂ q hq hx₂ with ⟨rfl, rfl, hxg⟩ | ⟨k₂, hk₂, hw₂, s₂⟩
    · exact ⟨rfl, Or.inl rfl⟩
    · exact absurd ⟨k₂, hk₂, q, hq, hw₂⟩ hg
    · subst hxg
      exact absurd ⟨k₁, hk₁, p, hp, hw₁⟩ hg
    · obtain ⟨rfl, hk⟩ := h.inj k₁ hk₁ k₂ hk₂ p q x hp hq hw₁ hw₂
      refine ⟨rfl, ?_⟩
      rcases s₁ with rfl | s₁
      · rcases s₂ with rfl | s₂
        · exact hk
        · exact Or.inr s₂
      · exact Or.inr s₁

/-- The tables after adding a root are the old ones and the root. -/
theorem isTable_addRoot {g r : F} (hr : r ∈ roots) (hsh : ∀ i ∈ shared, m g i = m r i)
    (habs : ∀ j, j ≠ loop → j ∉ shared → next (m g j) = none) {x : F}
    (hx : IsTable next loop depth m (insert g roots) x) :
    IsTable next loop depth m roots x ∨ x = g := by
  obtain ⟨r', hr' | hr', p, hp, hw⟩ := hx
  · subst hr'
    rcases walk_newRoot hsh habs hp.head hw with ⟨-, rfl⟩ | ⟨-, hw⟩
    · exact Or.inr rfl
    · exact Or.inl ⟨r, hr, p, hp, hw⟩
  · exact Or.inl ⟨r', hr', p, hp, hw⟩

/-- A root with nothing but its loop slot reaches itself only. -/
theorem walk_loneRoot {r x : F} (habs : ∀ j, j ≠ loop → next (m r j) = none) {p : List I}
    (hp : p.head? ≠ some loop) (hx : walk next m r p = some x) : p = [] ∧ x = r := by
  have hshared : ∀ i ∈ (∅ : Set I), m r i = m r i := fun i _ => rfl
  have hcase := walk_newRoot hshared (fun j hj _ => habs j hj) hp hx
  obtain hroot | ⟨⟨i, hi, -⟩, -⟩ := hcase
  · exact hroot
  · exact absurd hi (by simp)

/-- A lone root is a forest. -/
theorem Forest.loneRoot {r : F} (hself : next (m r loop) = some r)
    (habs : ∀ j, j ≠ loop → next (m r j) = none) : Forest next loop shared depth m {r} where
  self_ref r' hr' := by rwa [Set.mem_singleton_iff.mp hr']
  share r₁ hr₁ r₂ hr₂ i _ := by
    rw [Set.mem_singleton_iff.mp hr₁, Set.mem_singleton_iff.mp hr₂]
  inj r₁ hr₁ r₂ hr₂ p q x hp hq hx₁ hx₂ := by
    obtain rfl := Set.mem_singleton_iff.mp hr₁
    obtain rfl := Set.mem_singleton_iff.mp hr₂
    obtain ⟨rfl, -⟩ := walk_loneRoot habs hp.head hx₁
    obtain ⟨rfl, -⟩ := walk_loneRoot habs hq.head hx₂
    exact ⟨rfl, Or.inl rfl⟩

end Forest

end Radix
