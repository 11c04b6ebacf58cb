import Mathlib

/-
  A run queue that returns a preempted process to the front while it has budget left.

  On a tick the head of the queue runs. The process that ran loses one unit of budget; when
  that was its last one it gets the quantum `Q` back and goes to the end, otherwise it goes to
  the front. So the process that ran and the head take turns until one of them is out of
  budget: at most `2 * Q - 1` ticks (`span_le`), and only then does the rest of the queue move
  up. `wait` counts the ticks a process at a given position still needs, and every tick
  brings it down (`tick_wait`); arrivals leave it alone (`arrive_wait`).
-/

namespace FrontRequeue

variable {P : Type*} [DecidableEq P]

/-- The process that runs, the processes that wait, and everybody's budget. -/
structure Queue (P : Type*) where
  running : P
  ready : List P
  budget : P → ℕ

/-- Where the process that ran goes. -/
def requeue (r : P) (b : ℕ) (l : List P) : List P := if b ≤ 1 then l ++ [r] else r :: l

/-- What budget it keeps. -/
def spend (Q b : ℕ) : ℕ := if b ≤ 1 then Q else b - 1

/-- The head runs next, and `idle` when there is none. -/
def tick (Q : ℕ) (idle : P) (q : Queue P) : Queue P :=
  let budget := Function.update q.budget q.running (spend Q (q.budget q.running))
  match q.ready with
  | [] => ⟨idle, [q.running], Function.update budget idle Q⟩
  | p :: l => ⟨p, requeue q.running (q.budget q.running) l, budget⟩

/-- A process arrives with budget `b`. -/
def arrive (q : Queue P) (p : P) (b : ℕ) : Queue P :=
  ⟨q.running, q.ready ++ [p], Function.update q.budget p b⟩

omit [DecidableEq P] in
theorem requeue_perm (r : P) (b : ℕ) (l : List P) : (requeue r b l).Perm (r :: l) := by
  unfold requeue
  split_ifs
  · exact List.perm_append_comm
  · exact List.Perm.refl _

theorem spend_le {Q b : ℕ} (hb : b ≤ Q) : spend Q b ≤ Q := by
  unfold spend
  split_ifs <;> omega

/-- The processes of a queue, the running one first. -/
def Queue.all (q : Queue P) : List P := q.running :: q.ready

theorem tick_perm (Q : ℕ) (idle : P) {q : Queue P} (h : q.ready ≠ []) :
    (tick Q idle q).all.Perm q.all := by
  obtain ⟨p, l, hl⟩ := List.exists_cons_of_ne_nil h
  unfold tick Queue.all
  rw [hl]
  exact ((requeue_perm q.running (q.budget q.running) l).cons p).trans (List.Perm.swap _ _ _)

/-! ## Fair queues -/

/-- No process is in the queue twice, nobody has more than the quantum, and somebody waits. -/
structure Fair (Q : ℕ) (q : Queue P) : Prop where
  nodup : q.all.Nodup
  budget : ∀ p ∈ q.all, q.budget p ≤ Q
  ready : q.ready ≠ []

theorem fair_tick {Q : ℕ} {q : Queue P} (h : Fair Q q) (idle : P) :
    Fair Q (tick Q idle q) := by
  have hperm := tick_perm Q idle h.ready
  refine ⟨hperm.nodup_iff.mpr h.nodup, ?_, ?_⟩
  · intro p hp
    have hb := h.budget p (hperm.mem_iff.mp hp)
    obtain ⟨x, l, hl⟩ := List.exists_cons_of_ne_nil h.ready
    unfold tick
    rw [hl]
    dsimp only
    by_cases hpr : p = q.running
    · rw [hpr, Function.update_self]
      exact spend_le (hpr ▸ hb)
    · rwa [Function.update_of_ne hpr]
  · obtain ⟨x, l, hl⟩ := List.exists_cons_of_ne_nil h.ready
    unfold tick requeue
    rw [hl]
    dsimp only
    split_ifs <;> simp

theorem fair_arrive {Q b : ℕ} {q : Queue P} (h : Fair Q q) {p : P} (hp : p ∉ q.all)
    (hb : b ≤ Q) : Fair Q (arrive q p b) := by
  have hperm : (arrive q p b).all.Perm (p :: q.all) := by
    unfold Queue.all arrive
    dsimp only
    rw [← List.cons_append]
    exact List.perm_append_comm
  refine ⟨hperm.nodup_iff.mpr (List.nodup_cons.mpr ⟨hp, h.nodup⟩), ?_, by
    simp [arrive]⟩
  intro x hx
  show Function.update q.budget p b x ≤ Q
  by_cases hxp : x = p
  · rwa [hxp, Function.update_self]
  · rw [Function.update_of_ne hxp]
    obtain hxp' | hx' := List.mem_cons.mp (hperm.mem_iff.mp hx)
    · exact absurd hxp' hxp
    · exact h.budget x hx'

/-! ## Waiting -/

/-- The ticks until one of two alternating processes, `a` first, is out of budget. -/
def span (a b : ℕ) : ℕ := min (2 * max a 1 - 1) (2 * max b 1)

theorem span_pos (a b : ℕ) : 1 ≤ span a b := by
  unfold span
  omega

theorem span_le {Q a b : ℕ} (ha : a ≤ Q) (hQ : 1 ≤ Q) : span a b ≤ 2 * Q - 1 := by
  unfold span
  omega

/-- One tick of the alternation. -/
theorem span_swap {a b : ℕ} (ha : 1 < a) : span b (a - 1) + 1 = span a b := by
  unfold span
  omega

/-- The ticks that the process at index `i` of the queue waits at most. -/
def wait (Q : ℕ) (q : Queue P) : ℕ → ℕ
  | 0 => 1
  | i + 1 => (2 * Q - 1) * i + span (q.budget q.running) ((q.ready.head?.map q.budget).getD 0) + 1

omit [DecidableEq P] in
theorem wait_succ (Q : ℕ) (q : Queue P) (i : ℕ) : wait Q q (i + 1) =
    (2 * Q - 1) * i + span (q.budget q.running) ((q.ready.head?.map q.budget).getD 0) + 1 := rfl

omit [DecidableEq P] in
theorem wait_le {Q : ℕ} {q : Queue P} (h : Fair Q q) (hQ : 1 ≤ Q) (i : ℕ) :
    wait Q q i ≤ (2 * Q - 1) * i + 1 := by
  cases i with
  | zero => simp [wait]
  | succ i =>
    have hb := h.budget q.running (by simp [Queue.all])
    have hspan := span_le (b := (q.ready.head?.map q.budget).getD 0) hb hQ
    rw [wait_succ, Nat.mul_add, Nat.mul_one]
    omega

/-- A tick runs the head, and brings everyone behind it closer. -/
theorem tick_wait {Q : ℕ} {q : Queue P} (h : Fair Q q) (hQ : 1 ≤ Q) (idle : P) {i : ℕ} {x : P}
    (hx : q.ready[i]? = some x) :
    (tick Q idle q).running = x ∨
      ∃ j, (tick Q idle q).ready[j]? = some x ∧ wait Q (tick Q idle q) j + 1 ≤ wait Q q i := by
  obtain ⟨p, l, hl⟩ := List.exists_cons_of_ne_nil h.ready
  have hpr : p ≠ q.running := by
    have hnodup := h.nodup
    unfold Queue.all at hnodup
    rw [hl] at hnodup
    intro hpr
    exact (List.nodup_cons.mp hnodup).1 (by simp [hpr])
  have hfair := fair_tick h idle
  rw [hl] at hx
  cases i with
  | zero =>
    left
    unfold tick
    rw [hl]
    simpa using hx
  | succ i =>
    right
    rw [List.getElem?_cons_succ] at hx
    by_cases hb : q.budget q.running ≤ 1
    · -- the process that ran goes to the end, and the queue moves up by one
      refine ⟨i, ?_, ?_⟩
      · unfold tick requeue
        rw [hl]
        dsimp only
        rw [if_pos hb, List.getElem?_append_left (List.getElem?_eq_some_iff.mp hx).1]
        exact hx
      · have hle := wait_le hfair hQ i
        have hspan := span_pos (q.budget q.running) ((q.ready.head?.map q.budget).getD 0)
        rw [wait_succ]
        omega
    · -- it goes to the front: the two have taken one turn
      refine ⟨i + 1, ?_, ?_⟩
      · unfold tick requeue
        rw [hl]
        dsimp only
        rw [if_neg hb, List.getElem?_cons_succ]
        exact hx
      · have hswap := span_swap (a := q.budget q.running) (b := q.budget p) (by omega)
        have hnew : wait Q (tick Q idle q) (i + 1) =
            (2 * Q - 1) * i + span (q.budget p) (q.budget q.running - 1) + 1 := by
          rw [wait_succ]
          unfold tick requeue spend
          rw [hl]
          simp [if_neg hb, Function.update_of_ne hpr]
        rw [hnew, wait_succ, hl]
        simp only [List.head?_cons, Option.map_some, Option.getD_some]
        omega

/-- Arrivals leave everyone's position and wait alone. -/
theorem arrive_wait {Q b : ℕ} {q : Queue P} (h : Fair Q q) {p : P} (hp : p ∉ q.all) {i : ℕ}
    {x : P} (hx : q.ready[i]? = some x) :
    (arrive q p b).ready[i]? = some x ∧ wait Q (arrive q p b) i = wait Q q i := by
  obtain ⟨y, l, hl⟩ := List.exists_cons_of_ne_nil h.ready
  have hrun : q.running ≠ p := fun he => hp (he ▸ List.mem_cons_self)
  have hhead : y ≠ p := by
    intro he
    refine hp (he ▸ List.mem_cons_of_mem _ ?_)
    rw [hl]
    exact List.mem_cons_self
  constructor
  · unfold arrive
    rw [List.getElem?_append_left (List.getElem?_eq_some_iff.mp hx).1]
    exact hx
  · cases i with
    | zero => rfl
    | succ i =>
      rw [wait_succ, wait_succ]
      unfold arrive
      rw [hl]
      simp [Function.update_of_ne hrun, Function.update_of_ne hhead]

end FrontRequeue
