import SBUnix.Lib.FrontRequeue
import SBUnix.Lib.Linked
import SBUnix.Sched.Model

/-
  The ready list as a chain of pcbs, and what the queue operations do to it.

  `ReadyChain pcbs head l` says that the list from `head` consists of the pcbs `l` and ends in
  NULL. On such a list every walk ends (`ReadyChain.lastPcb_eq`), `appendReady` appends, and
  `scheduleOldProcess` is `FrontRequeue.requeue`, as long as the pcb put in is not in the list
  already. A pcb that is in the list closes a cycle: then there is no chain at all
  (`scheduleOldProcess_cycle`).
-/

namespace SBUnix

open FrontRequeue

/-- The link of a pcb. -/
def pcbNode (pcbs : Word → Pcb) (p : Word) : Option (Word × Unit) := some ((pcbs p).next, ())

/-- The list from `head` consists of the pcbs `l`. -/
def ReadyChain (pcbs : Word → Pcb) (head : Word) (l : List Word) : Prop :=
  Linked.Chain (pcbNode pcbs) 0 head (l.map fun p => (p, ()))

section ReadyChain

variable {pcbs pcbs' : Word → Pcb} {head p q : Word} {l t : List Word}

@[simp] theorem readyChain_nil : ReadyChain pcbs head [] ↔ head = 0 := Iff.rfl

theorem readyChain_cons : ReadyChain pcbs head (p :: l) ↔
    head = p ∧ p ≠ 0 ∧ ReadyChain pcbs (pcbs p).next l := by
  unfold ReadyChain
  rw [List.map_cons, Linked.chain_cons]
  simp [pcbNode]

theorem ReadyChain.ne_zero (h : ReadyChain pcbs head l) (hp : p ∈ l) : p ≠ 0 :=
  Linked.Chain.ne_null h (p, ()) (List.mem_map_of_mem hp)

theorem ReadyChain.nodup (h : ReadyChain pcbs head l) : l.Nodup := by
  have hnodup := Linked.Chain.nodup h
  rwa [List.map_map, show (Prod.fst ∘ fun p : Word => (p, ())) = id from rfl, List.map_id] at hnodup

theorem ReadyChain.unique (h : ReadyChain pcbs head l) (h' : ReadyChain pcbs head t) : l = t := by
  have heq := Linked.Chain.unique h h'
  have hinj : Function.Injective fun p : Word => (p, ()) := fun a b hab => (Prod.mk.inj hab).1
  exact List.map_injective_iff.mpr hinj heq

/-- Only the links of its pcbs matter to a chain. -/
theorem ReadyChain.congr (h : ReadyChain pcbs head l)
    (hn : ∀ p ∈ l, (pcbs' p).next = (pcbs p).next) : ReadyChain pcbs' head l := by
  refine Linked.Chain.congr h fun e he => ?_
  obtain ⟨p, hp, rfl⟩ := List.mem_map.mp he
  unfold pcbNode
  rw [hn p hp]

/-- A chain visits each address at most once. -/
theorem ReadyChain.length_le (h : ReadyChain pcbs head l) : l.length ≤ walkFuel := by
  have hcard := List.Nodup.length_le_card h.nodup
  have hfuel : Fintype.card Word = walkFuel := by
    rw [Fintype.card_congr BitVec.equivFin.toEquiv, Fintype.card_fin]
    rfl
  omega

/-- On a chain the walk ends at the last pcb. -/
theorem ReadyChain.lastPcb_eq (h : ReadyChain pcbs head l) (hne : l ≠ []) {n : Nat}
    (hn : l.length ≤ n) : lastPcb pcbs n head = .ok (l.getLast hne) := by
  induction n generalizing head l with
  | zero => exact absurd (List.length_eq_zero_iff.mp (by omega)) hne
  | succ n ih =>
    obtain ⟨p, t, rfl⟩ := List.exists_cons_of_ne_nil hne
    obtain ⟨rfl, -, ht⟩ := readyChain_cons.mp h
    unfold lastPcb
    cases t with
    | nil => rw [if_pos (readyChain_nil.mp ht), List.getLast_singleton]
    | cons q t =>
      obtain ⟨hq, hq0, -⟩ := readyChain_cons.mp ht
      rw [if_neg (by rwa [hq]), ih ht (List.cons_ne_nil q t) (by simpa using hn)]
      rfl

/-- Relinking the last pcb of a chain to a new one appends it. -/
theorem ReadyChain.append (h : ReadyChain pcbs head l) (hne : l ≠ [])
    (hlast : (pcbs' (l.getLast hne)).next = p)
    (hsame : ∀ x ∈ l, x ≠ l.getLast hne → (pcbs' x).next = (pcbs x).next) (hp : p ≠ 0)
    (hnull : (pcbs' p).next = 0) : ReadyChain pcbs' head (l ++ [p]) := by
  induction l generalizing head with
  | nil => exact absurd rfl hne
  | cons x t ih =>
    obtain ⟨rfl, hx, ht⟩ := readyChain_cons.mp h
    have hnodup := h.nodup
    rw [List.cons_append, readyChain_cons]
    refine ⟨rfl, hx, ?_⟩
    cases t with
    | nil =>
      rw [List.getLast_singleton] at hlast
      rw [hlast]
      exact readyChain_cons.mpr ⟨rfl, hp, hnull⟩
    | cons y t =>
      have hxt : head ∉ y :: t := (List.nodup_cons.mp hnodup).1
      have hxlast : head ≠ (y :: t).getLast (by simp) := by
        intro he
        exact hxt (he ▸ List.getLast_mem _)
      rw [List.getLast_cons (by simp)] at hlast hsame
      rw [hsame head (by simp) hxlast]
      exact ih ht (by simp) hlast fun z hz => hsame z (List.mem_cons_of_mem _ hz)

end ReadyChain

/-! ## Writes to pcbs -/

/-- Everybody's `time_remaining`. -/
def Sched.times (s : Sched) (p : Word) : Nat := (s.pcbs p).timeRemaining.toNat

section Writes

variable (s : Sched) (p w : Word)

theorem pcbs_setPcb_self (f : Pcb → Pcb) : (s.setPcb p f).pcbs p = f (s.pcbs p) := by
  unfold Sched.setPcb
  exact Function.update_self _ _ _

theorem pcbs_setPcb_of_ne {q : Word} (f : Pcb → Pcb) (h : q ≠ p) :
    (s.setPcb p f).pcbs q = s.pcbs q := by
  unfold Sched.setPcb
  exact Function.update_of_ne h _ _

theorem next_setNext_self : ((s.setNext p w).pcbs p).next = w := by
  unfold Sched.setNext
  rw [pcbs_setPcb_self]

theorem next_setNext_of_ne {q : Word} (h : q ≠ p) :
    ((s.setNext p w).pcbs q).next = (s.pcbs q).next := by
  unfold Sched.setNext
  rw [pcbs_setPcb_of_ne s p _ h]

theorem next_setTimeRemaining (q : Word) :
    ((s.setTimeRemaining p w).pcbs q).next = (s.pcbs q).next := by
  unfold Sched.setTimeRemaining
  by_cases h : q = p
  · rw [h, pcbs_setPcb_self]
  · rw [pcbs_setPcb_of_ne s p _ h]

theorem next_setRsp (q : Word) : ((s.setRsp p w).pcbs q).next = (s.pcbs q).next := by
  unfold Sched.setRsp
  by_cases h : q = p
  · rw [h, pcbs_setPcb_self]
  · rw [pcbs_setPcb_of_ne s p _ h]

theorem timeRemaining_setNext (q : Word) :
    ((s.setNext p w).pcbs q).timeRemaining = (s.pcbs q).timeRemaining := by
  unfold Sched.setNext
  by_cases h : q = p
  · rw [h, pcbs_setPcb_self]
  · rw [pcbs_setPcb_of_ne s p _ h]

theorem times_setNext : (s.setNext p w).times = s.times := by
  funext q
  unfold Sched.times
  rw [timeRemaining_setNext]

theorem times_setRsp : (s.setRsp p w).times = s.times := by
  funext q
  unfold Sched.times Sched.setRsp
  by_cases h : q = p
  · rw [h, pcbs_setPcb_self]
  · rw [pcbs_setPcb_of_ne s p _ h]

theorem times_setTimeRemaining :
    (s.setTimeRemaining p w).times = Function.update s.times p w.toNat := by
  funext q
  unfold Sched.times Sched.setTimeRemaining
  by_cases h : q = p
  · rw [h, pcbs_setPcb_self, Function.update_self]
  · rw [pcbs_setPcb_of_ne s p _ h, Function.update_of_ne h]

theorem setTimeRemaining_eq_self : s.setTimeRemaining p (s.pcbs p).timeRemaining = s := by
  unfold Sched.setTimeRemaining Sched.setPcb
  dsimp only
  rw [Function.update_eq_self]

/-- The two states agree on everything but the pcbs, the ready list and the registers. -/
structure SameQueueing (s s' : Sched) : Prop where
  idle : s'.idleProcess = s.idleProcess
  running : s'.currentlyRunningProcess = s.currentlyRunningProcess
  ticks : s'.timerTicks = s.timerTicks
  first : s'.firstSchedule = s.firstSchedule

end Writes

/-! ## Queueing -/

section Append

variable {s : Sched} {l : List Word} {p : Word}

/-- Appending a pcb that is not in the list. -/
theorem appendReady_spec (h : ReadyChain s.pcbs s.readyProcesses l) (hp : p ≠ 0) (hpl : p ∉ l) :
    ∃ s', appendReady p s = .ok s' ∧ ReadyChain s'.pcbs s'.readyProcesses (l ++ [p]) ∧
      SameQueueing s s' ∧ s'.times = s.times := by
  unfold appendReady
  by_cases hl : l = []
  · subst hl
    have h0 := readyChain_nil.mp h
    rw [if_pos h0]
    refine ⟨_, rfl, readyChain_cons.mpr ⟨rfl, hp, ?_⟩, ⟨rfl, rfl, rfl, rfl⟩, times_setNext _ _ _⟩
    rw [next_setNext_self]
    rfl
  · have h0 : s.readyProcesses ≠ 0 := by
      obtain ⟨x, t, rfl⟩ := List.exists_cons_of_ne_nil hl
      obtain ⟨hx, hx0, -⟩ := readyChain_cons.mp h
      rwa [hx]
    have hlast : l.getLast hl ≠ p := fun he => hpl (he ▸ List.getLast_mem hl)
    rw [if_neg h0, h.lastPcb_eq hl h.length_le, ok_bind]
    refine ⟨_, rfl, ?_, ⟨rfl, rfl, rfl, rfl⟩, (times_setNext _ _ _).trans (times_setNext _ _ _)⟩
    refine h.append hl ?_ ?_ hp (next_setNext_self _ _ _)
    · rw [next_setNext_of_ne _ _ _ hlast, next_setNext_self]
    · intro x hx hxlast
      have hxp : x ≠ p := fun he => hpl (he ▸ hx)
      rw [next_setNext_of_ne _ _ _ hxp, next_setNext_of_ne _ _ _ hxlast]

/-- `time_remaining` after one more tick. -/
def tickDown (t : Word) : Word := if t ≠ 0 then t - 1 else t

theorem tickDown_toNat (t : Word) : (tickDown t).toNat = t.toNat - 1 := by
  have hlt := t.isLt
  unfold tickDown
  split_ifs with ht
  · have hpos := (ne_zero_iff_toNat t).mp ht
    rw [BitVec.toNat_sub, show ((1 : Word)).toNat = 1 from rfl]
    omega
  · rw [not_not.mp ht]
    rfl

/-- The state in which `scheduleOldProcess` looks at `time_remaining`. -/
def Sched.spent (s : Sched) (p : Word) : Sched :=
  (s.setTimeRemaining p (tickDown (s.pcbs p).timeRemaining)).setNext p 0

theorem scheduleOldProcess_eq (p : Word) (s : Sched) : scheduleOldProcess p s =
    if tickDown (s.pcbs p).timeRemaining = 0 then
      let s := (s.spent p).setTimeRemaining p 3
      if s.readyProcesses = 0 then .ok { s with readyProcesses := p }
      else do
        let temp ← lastPcb s.pcbs walkFuel s.readyProcesses
        return s.setNext temp p
    else
      let s := (s.spent p).setNext p s.readyProcesses
      .ok { s with readyProcesses := p } := by
  have hspent : (if (s.pcbs p).timeRemaining ≠ 0 then
      s.setTimeRemaining p ((s.pcbs p).timeRemaining - 1) else s).setNext p 0 = s.spent p := by
    unfold Sched.spent tickDown
    split_ifs with h
    · rfl
    · rw [setTimeRemaining_eq_self]
  have htime : ((s.spent p).pcbs p).timeRemaining = tickDown (s.pcbs p).timeRemaining := by
    unfold Sched.spent
    rw [timeRemaining_setNext]
    unfold Sched.setTimeRemaining
    rw [pcbs_setPcb_self]
  unfold scheduleOldProcess
  dsimp only
  rw [hspent, htime]
  rfl

theorem times_spent (s : Sched) (p : Word) :
    (s.spent p).times = Function.update s.times p (s.times p - 1) := by
  unfold Sched.spent
  rw [times_setNext, times_setTimeRemaining, tickDown_toNat]
  rfl

theorem next_spent_of_ne (s : Sched) {p q : Word} (h : q ≠ p) :
    ((s.spent p).pcbs q).next = (s.pcbs q).next := by
  unfold Sched.spent
  rw [next_setNext_of_ne _ _ _ h, next_setTimeRemaining]

theorem tickDown_eq_zero (s : Sched) (p : Word) :
    tickDown (s.pcbs p).timeRemaining = 0 ↔ s.times p ≤ 1 := by
  rw [← not_iff_not, ← Ne, ne_zero_iff_toNat, tickDown_toNat]
  unfold Sched.times
  omega

/-- Queueing a process that is not in the list is `requeue`, and costs it one unit. -/
theorem scheduleOldProcess_spec (h : ReadyChain s.pcbs s.readyProcesses l) (hp : p ≠ 0)
    (hpl : p ∉ l) :
    ∃ s', scheduleOldProcess p s = .ok s' ∧
      ReadyChain s'.pcbs s'.readyProcesses (requeue p (s.times p) l) ∧ SameQueueing s s' ∧
      s'.times = Function.update s.times p (spend 3 (s.times p)) := by
  have hl : ReadyChain (s.spent p).pcbs s.readyProcesses l :=
    h.congr fun x hx => next_spent_of_ne s fun he => hpl (he ▸ hx)
  have hnull : ((s.spent p).pcbs p).next = 0 := next_setNext_self _ _ _
  rw [scheduleOldProcess_eq]
  unfold requeue spend
  split_ifs with hzero hle hle
  · -- out of budget: to the end of the list
    have htimes : ((s.spent p).setTimeRemaining p 3).times = Function.update s.times p 3 := by
      rw [times_setTimeRemaining, times_spent, Function.update_idem]
      rfl
    have hl' : ReadyChain ((s.spent p).setTimeRemaining p 3).pcbs s.readyProcesses l :=
      hl.congr fun x _ => next_setTimeRemaining _ _ _ x
    dsimp only
    by_cases hnil : l = []
    · subst hnil
      have h0 : ((s.spent p).setTimeRemaining p 3).readyProcesses = 0 := readyChain_nil.mp h
      rw [if_pos h0]
      refine ⟨_, rfl, readyChain_cons.mpr ⟨rfl, hp, ?_⟩, ⟨rfl, rfl, rfl, rfl⟩, htimes⟩
      exact (next_setTimeRemaining _ _ _ p).trans hnull
    · have h0 : ((s.spent p).setTimeRemaining p 3).readyProcesses ≠ 0 := by
        obtain ⟨x, t, rfl⟩ := List.exists_cons_of_ne_nil hnil
        obtain ⟨hx, hx0, -⟩ := readyChain_cons.mp h
        show s.readyProcesses ≠ 0
        rwa [hx]
      have hlast : l.getLast hnil ≠ p := fun he => hpl (he ▸ List.getLast_mem hnil)
      rw [if_neg h0, show ((s.spent p).setTimeRemaining p 3).readyProcesses = s.readyProcesses
        from rfl, hl'.lastPcb_eq hnil h.length_le, ok_bind]
      refine ⟨_, rfl, ?_, ⟨rfl, rfl, rfl, rfl⟩, (times_setNext _ _ _).trans htimes⟩
      refine hl'.append hnil (next_setNext_self _ _ _) ?_ hp ?_
      · intro x _ hxlast
        rw [next_setNext_of_ne _ _ _ hxlast]
      · rw [next_setNext_of_ne _ _ _ hlast.symm, next_setTimeRemaining, hnull]
  · exact absurd ((tickDown_eq_zero s p).mp hzero) hle
  · exact absurd ((tickDown_eq_zero s p).mpr hle) hzero
  · -- budget left: to the front of the list
    have hrest : ReadyChain ((s.spent p).setNext p s.readyProcesses).pcbs
        (((s.spent p).setNext p s.readyProcesses).pcbs p).next l := by
      rw [next_setNext_self]
      exact hl.congr fun x hx => next_setNext_of_ne _ _ _ fun he => hpl (he ▸ hx)
    exact ⟨_, rfl, readyChain_cons.mpr ⟨rfl, hp, hrest⟩, ⟨rfl, rfl, rfl, rfl⟩,
      (times_setNext _ _ _).trans (times_spent s p)⟩

/-- Queueing a process that is in the list closes a cycle. -/
theorem scheduleOldProcess_cycle (h : ReadyChain s.pcbs s.readyProcesses l) (hpl : p ∈ l) :
    ∃ s', scheduleOldProcess p s = .ok s' ∧ SameQueueing s s' ∧
      ∀ t, ¬ ReadyChain s'.pcbs s'.readyProcesses t := by
  obtain ⟨a, b, rfl⟩ := List.append_of_mem hpl
  have hp := h.ne_zero hpl
  have hpa : p ∉ a := by
    intro hmem
    exact (List.nodup_append.mp h.nodup).2.2 p hmem p List.mem_cons_self rfl
  -- the segment up to `p` survives every write to `p`
  have hseg : ∀ pcbs' : Word → Pcb, (∀ x, x ≠ p → (pcbs' x).next = (s.pcbs x).next) →
      Linked.Seg (pcbNode pcbs') 0 s.readyProcesses (a.map fun x => (x, ())) p := by
    intro pcbs' hsame
    have hsplit := h
    unfold ReadyChain at hsplit
    rw [List.map_append, Linked.chain_append] at hsplit
    obtain ⟨q, hq, hc⟩ := hsplit
    obtain rfl : q = p := hc.1
    refine hq.congr fun e he => ?_
    obtain ⟨x, hx, rfl⟩ := List.mem_map.mp he
    unfold pcbNode
    rw [hsame x fun hxp => hpa (hxp ▸ hx)]
  have hself : ∀ pcbs' : Word → Pcb, (pcbs' p).next = p →
      Linked.Seg (pcbNode pcbs') 0 p [(p, ())] p := by
    intro pcbs' hnext
    exact ⟨rfl, hp, p, by rw [pcbNode, hnext], rfl⟩
  rw [scheduleOldProcess_eq]
  split_ifs with hzero
  · -- the list now ends at `p`, which is linked behind itself
    have hchain : ReadyChain ((s.spent p).setTimeRemaining p 3).pcbs s.readyProcesses (a ++ [p]) := by
      unfold ReadyChain
      rw [List.map_append, Linked.chain_append]
      refine ⟨p, hseg _ fun x hx => ?_, rfl, hp, 0, ?_, rfl⟩
      · rw [next_setTimeRemaining, next_spent_of_ne s hx]
      · rw [pcbNode, next_setTimeRemaining, show ((s.spent p).pcbs p).next = 0 from
          next_setNext_self _ _ _]
    have h0 : ((s.spent p).setTimeRemaining p 3).readyProcesses ≠ 0 := by
      intro h0
      have hnil := hchain.unique (readyChain_nil.mpr h0)
      simp at hnil
    dsimp only
    rw [if_neg h0, show ((s.spent p).setTimeRemaining p 3).readyProcesses = s.readyProcesses
      from rfl, hchain.lastPcb_eq (by simp) hchain.length_le, ok_bind, List.getLast_concat]
    refine ⟨_, rfl, ⟨rfl, rfl, rfl, rfl⟩, fun t ht => ?_⟩
    have hto : Linked.Seg (pcbNode (((s.spent p).setTimeRemaining p 3).setNext p p).pcbs) 0
        s.readyProcesses (a.map fun x => (x, ())) p := hseg _ fun x hx => by
      rw [next_setNext_of_ne _ _ _ hx, next_setTimeRemaining, next_spent_of_ne s hx]
    obtain ⟨t', -, hc⟩ := hto.prefix_chain ht
    exact (hself _ (next_setNext_self _ _ _)).not_chain_cycle (by simp) t' hc
  · -- `p` is linked in front of the list that leads to it
    refine ⟨_, rfl, ⟨rfl, rfl, rfl, rfl⟩, fun t ht => ?_⟩
    have hto : Linked.Seg (pcbNode ((s.spent p).setNext p s.readyProcesses).pcbs) 0
        s.readyProcesses (a.map fun x => (x, ())) p := hseg _ fun x hx => by
      rw [next_setNext_of_ne _ _ _ hx, next_spent_of_ne s hx]
    have hcycle : Linked.Seg (pcbNode ((s.spent p).setNext p s.readyProcesses).pcbs) 0 p
        ((p, ()) :: a.map fun x => (x, ())) p :=
      ⟨rfl, hp, s.readyProcesses, by rw [pcbNode, next_setNext_self], hto⟩
    exact hcycle.not_chain_cycle (by simp) _ ht

end Append

end SBUnix
