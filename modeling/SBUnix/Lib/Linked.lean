import Mathlib

/-
  Null-terminated singly linked lists in a heap.

  `node p` is the link and the payload of the node at `p`, when there is one. `Chain node null
  p l` says that following the links from `p` visits exactly the nodes of `l`, with their
  payloads, and then reaches `null`. A chain is determined by its head (`Chain.unique`) and so
  repeats no node (`Chain.nodup`).
-/

namespace Linked

variable {P A : Type*}

/-- The nodes and payloads `l` of a list that starts at `p`. -/
def Chain (node : P → Option (P × A)) (null : P) : P → List (P × A) → Prop
  | p, [] => p = null
  | p, e :: l => p = e.1 ∧ e.1 ≠ null ∧ ∃ r, node e.1 = some (r, e.2) ∧ Chain node null r l

variable {node node' : P → Option (P × A)} {null : P}

@[simp] theorem chain_nil {p : P} : Chain node null p [] ↔ p = null := Iff.rfl

theorem chain_cons {p : P} {e : P × A} {l : List (P × A)} :
    Chain node null p (e :: l) ↔
      p = e.1 ∧ e.1 ≠ null ∧ ∃ r, node e.1 = some (r, e.2) ∧ Chain node null r l := Iff.rfl

theorem Chain.ne_null {p : P} {l : List (P × A)} (h : Chain node null p l) :
    ∀ e ∈ l, e.1 ≠ null := by
  induction l generalizing p with
  | nil => simp
  | cons a l ih =>
    obtain ⟨-, ha, r, -, hr⟩ := h
    intro e he
    rcases List.mem_cons.mp he with rfl | he
    · exact ha
    · exact ih hr e he

/-- Every node of a chain holds the payload the chain gives it. -/
theorem Chain.node_eq {p : P} {l : List (P × A)} (h : Chain node null p l) :
    ∀ e ∈ l, ∃ r, node e.1 = some (r, e.2) := by
  induction l generalizing p with
  | nil => simp
  | cons a l ih =>
    obtain ⟨-, -, r, hn, hr⟩ := h
    intro e he
    rcases List.mem_cons.mp he with rfl | he
    · exact ⟨r, hn⟩
    · exact ih hr e he

/-- Two heaps that agree on the nodes of a chain have the same chain. -/
theorem Chain.congr {p : P} {l : List (P × A)} (h : Chain node null p l)
    (hn : ∀ e ∈ l, node' e.1 = node e.1) : Chain node' null p l := by
  induction l generalizing p with
  | nil => exact h
  | cons a l ih =>
    obtain ⟨hp, ha, r, hr, hl⟩ := h
    exact ⟨hp, ha, r, by rw [hn a (by simp), hr], ih hl fun e he => hn e (by simp [he])⟩

theorem Chain.unique {p : P} {l l' : List (P × A)} (h : Chain node null p l)
    (h' : Chain node null p l') : l = l' := by
  induction l generalizing p l' with
  | nil =>
    cases l' with
    | nil => rfl
    | cons a l' => exact absurd ((chain_nil.mp h).symm.trans h'.1).symm h'.2.1
  | cons a l ih =>
    cases l' with
    | nil => exact absurd (h.1.symm.trans (chain_nil.mp h')) h.2.1
    | cons b l' =>
      obtain ⟨hp, -, r, hn, hl⟩ := h
      obtain ⟨hp', -, r', hn', hl'⟩ := h'
      have hab : a.1 = b.1 := hp.symm.trans hp'
      rw [hab, hn', Option.some.injEq, Prod.mk.injEq] at hn
      obtain ⟨rfl, h2⟩ := hn
      rw [ih hl hl', Prod.ext hab h2.symm]

/-- Each node of a chain starts a chain, a suffix of it. -/
theorem Chain.suffix {p : P} {l : List (P × A)} (h : Chain node null p l) {e : P × A}
    (he : e ∈ l) : ∃ t, (e :: t) <:+ l ∧ Chain node null e.1 (e :: t) := by
  induction l generalizing p with
  | nil => simp at he
  | cons a l ih =>
    obtain ⟨rfl, ha, r, hn, hl⟩ := h
    rcases List.mem_cons.mp he with rfl | he
    · exact ⟨l, List.suffix_rfl, rfl, ha, r, hn, hl⟩
    · obtain ⟨t, ht, hc⟩ := ih hl he
      exact ⟨t, ht.trans (List.suffix_cons a l), hc⟩

/-- A finite chain repeats no node. -/
theorem Chain.nodup {p : P} {l : List (P × A)} (h : Chain node null p l) :
    (l.map Prod.fst).Nodup := by
  induction l generalizing p with
  | nil => simp
  | cons a l ih =>
    obtain ⟨hp, ha, r, hn, hl⟩ := h
    rw [List.map_cons, List.nodup_cons]
    refine ⟨fun hmem => ?_, ih hl⟩
    -- a repetition of the head would start the whole chain again inside its own tail
    obtain ⟨e, he, hea⟩ := List.mem_map.mp hmem
    obtain ⟨t, ht, hc⟩ := hl.suffix he
    rw [hea] at hc
    have := (show Chain node null a.1 (a :: l) from ⟨rfl, ha, r, hn, hl⟩).unique hc
    have hlen := ht.length_le
    rw [← this, List.length_cons] at hlen
    omega

/-! ## Segments -/

/-- Following the links from `p` visits the nodes of `l` and then arrives at `q`. -/
def Seg (node : P → Option (P × A)) (null : P) : P → List (P × A) → P → Prop
  | p, [], q => p = q
  | p, e :: l, q => p = e.1 ∧ e.1 ≠ null ∧ ∃ r, node e.1 = some (r, e.2) ∧ Seg node null r l q

theorem Seg.congr {p q : P} {l : List (P × A)} (h : Seg node null p l q)
    (hn : ∀ e ∈ l, node' e.1 = node e.1) : Seg node' null p l q := by
  induction l generalizing p with
  | nil => exact h
  | cons a l ih =>
    obtain ⟨hp, ha, r, hr, hl⟩ := h
    exact ⟨hp, ha, r, by rw [hn a (by simp), hr], ih hl fun e he => hn e (by simp [he])⟩

/-- A chain is a segment and the chain behind it. -/
theorem chain_append {p : P} {l t : List (P × A)} :
    Chain node null p (l ++ t) ↔ ∃ q, Seg node null p l q ∧ Chain node null q t := by
  induction l generalizing p with
  | nil => exact ⟨fun h => ⟨p, rfl, h⟩, fun ⟨q, hq, h⟩ => hq ▸ h⟩
  | cons a l ih =>
    constructor
    · intro h
      obtain ⟨hp, ha, r, hr, hl⟩ := h
      obtain ⟨q, hq, hc⟩ := ih.mp hl
      exact ⟨q, ⟨hp, ha, r, hr, hq⟩, hc⟩
    · intro h
      obtain ⟨q, ⟨hp, ha, r, hr, hq⟩, hc⟩ := h
      exact ⟨hp, ha, r, hr, ih.mpr ⟨q, hq, hc⟩⟩

/-- Linking a node behind the last one of a chain. -/
theorem Chain.snoc {p q r : P} {a b : A} {l : List (P × A)}
    (h : Chain node null p (l ++ [(q, a)])) (hr : r ≠ null)
    (hnew : ∀ e ∈ l ++ [(q, a)], e.1 ≠ r) (hlast : node' q = some (r, a))
    (hnode : node' r = some (null, b)) (hold : ∀ x, x ≠ q → x ≠ r → node' x = node x) :
    Chain node' null p (l ++ [(q, a)] ++ [(r, b)]) := by
  have hnodup := h.nodup
  obtain ⟨x, hseg, hx, hq, -⟩ := chain_append.mp h
  have hfront : ∀ e ∈ l, node' e.1 = node e.1 := by
    intro e he
    refine hold e.1 (fun heq => ?_) (hnew e (List.mem_append_left _ he))
    rw [List.map_append, List.nodup_append] at hnodup
    exact hnodup.2.2 e.1 (List.mem_map_of_mem he) q (by simp) heq
  rw [List.append_assoc]
  exact chain_append.mpr ⟨x, hseg.congr hfront, hx, hq, r, hlast, rfl, hr, null, hnode, rfl⟩

/-- Every chain from the start of a segment goes along it. -/
theorem Seg.prefix_chain {p q : P} {l t : List (P × A)} (h : Seg node null p l q)
    (hc : Chain node null p t) : ∃ t', t = l ++ t' ∧ Chain node null q t' := by
  induction l generalizing p t with
  | nil => exact ⟨t, rfl, h ▸ hc⟩
  | cons a l ih =>
    obtain ⟨rfl, ha, r, hr, hl⟩ := h
    cases t with
    | nil => exact absurd (chain_nil.mp hc) ha
    | cons b t =>
      obtain ⟨hab, -, r', hr', ht⟩ := hc
      rw [hab, hr', Option.some.injEq, Prod.mk.injEq] at hr
      obtain ⟨rfl, h2⟩ := hr
      obtain ⟨t', rfl, ht'⟩ := ih hl ht
      exact ⟨t', by rw [Prod.ext hab h2.symm, List.cons_append], ht'⟩

/-- No chain starts on a cycle. -/
theorem Seg.not_chain_cycle {p : P} {l : List (P × A)} (h : Seg node null p l p) (hl : l ≠ [])
    (t : List (P × A)) : ¬ Chain node null p t := by
  intro hc
  obtain ⟨t', rfl, hc'⟩ := h.prefix_chain hc
  have hlen := congrArg List.length (hc.unique hc')
  rw [List.length_append] at hlen
  exact hl (List.length_eq_zero_iff.mp (by omega))

end Linked
