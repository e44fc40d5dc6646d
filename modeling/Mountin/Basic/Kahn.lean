import Mathlib.Data.Fintype.Card
import Mathlib.Data.List.Nodup
import Mathlib.Data.List.Count
import Mathlib.Logic.Relation
import Mathlib.Order.WellFounded
import Mathlib.Data.Set.Finite.Basic

set_option autoImplicit false

/-! # Kahn's topological sort

Nodes whose degree (the number of predecessors not yet listed) is zero wait in a queue; taking
a node from the queue lists it and lowers the degree of its successors.

* `Kahn.sort_spec` : the sort lists nodes, each once, each after all its predecessors.
* `Kahn.sort_complete_iff` : it lists all of them exactly when the graph has no cycle.
-/

namespace Kahn

variable {α : Type} [DecidableEq α]

/-- The degrees and the queue. -/
structure Work (α : Type) where
  degree : α → Nat
  queue : List α

/-- One predecessor less for `n`. -/
def Work.release (w : Work α) (n : α) : Work α :=
  { degree := fun x => if x = n then w.degree n - 1 else w.degree x
    queue := if w.degree n - 1 = 0 then w.queue ++ [n] else w.queue }

/-- The loop of the sort: `order` is what has been listed. -/
def run (succ : α → List α) : Nat → Work α → List α → List α
  | 0, _, order => order
  | fuel + 1, w, order =>
    match w.queue with
    | [] => order
    | p :: queue => run succ fuel ((succ p).foldl Work.release { w with queue := queue }) (order ++ [p])

/-- The sort, from the degrees of the nodes. Every node is taken from the queue at most once. -/
def sort (succ : α → List α) (degree : α → Nat) (nodes : List α) : List α :=
  run succ nodes.length ⟨degree, nodes.filter fun p => degree p = 0⟩ []

/-- The edges of a graph on `nodes`. -/
def Edge (succ : α → List α) (nodes : List α) (p x : α) : Prop := p ∈ nodes ∧ x ∈ succ p

/-- No node leads back to itself. -/
def Acyclic (edge : α → α → Prop) : Prop := ∀ x, ¬ Relation.TransGen edge x x

/-- Every node stands after its predecessors. -/
def Sorted (edge : α → α → Prop) (order : List α) : Prop :=
  ∀ l₁ x l₂, order = l₁ ++ x :: l₂ → ∀ p, edge p x → p ∈ l₁

theorem foldl_release (l : List α) (hl : l.Nodup) (w : Work α) :
    l.foldl Work.release w =
      { degree := fun x => if x ∈ l then w.degree x - 1 else w.degree x
        queue := w.queue ++ l.filter fun x => w.degree x - 1 = 0 } := by
  induction l generalizing w with
  | nil => simp
  | cons n rest ih =>
      rw [List.nodup_cons] at hl
      rw [List.foldl_cons, ih hl.2]
      have hother : ∀ x ∈ rest, (w.release n).degree x = w.degree x := by
        intro x hx
        have hne : x ≠ n := fun heq => hl.1 (heq ▸ hx)
        simp [Work.release, hne]
      congr 1
      · funext x
        by_cases heq : x = n
        · subst heq
          simp [hl.1, Work.release]
        · by_cases hx : x ∈ rest
          · simp [hx, hother x hx]
          · simp [hx, heq, Work.release]
      · have hfilter : rest.filter (fun x => (w.release n).degree x - 1 = 0) =
            rest.filter (fun x => w.degree x - 1 = 0) :=
          List.filter_congr fun x hx => by rw [hother x hx]
        rw [hfilter]
        by_cases hzero : w.degree n - 1 = 0
        · simp [Work.release, hzero]
        · simp [Work.release, hzero]

/-- In a sorted list an edge goes up. -/
theorem Sorted.idxOf_lt {edge : α → α → Prop} {order : List α} (h : Sorted edge order) {p x : α}
    (hx : x ∈ order) (he : edge p x) : order.idxOf p < order.idxOf x := by
  obtain ⟨l₁, l₂, rfl, hfirst⟩ := List.eq_append_cons_of_mem hx
  have hp : p ∈ l₁ := h l₁ x l₂ rfl p he
  rw [List.idxOf_append_of_mem hp, List.idxOf_append_of_notMem hfirst, List.idxOf_cons_self,
    Nat.add_zero]
  exact List.idxOf_lt_length_of_mem hp

/-- In a sorted list that holds the ends of all edges a path goes up. -/
theorem Sorted.idxOf_lt_of_transGen {edge : α → α → Prop} {order : List α} (h : Sorted edge order)
    (hall : ∀ p x, edge p x → x ∈ order) {x y : α} (hpath : Relation.TransGen edge x y) :
    order.idxOf x < order.idxOf y := by
  induction hpath with
  | single he => exact h.idxOf_lt (hall _ _ he) he
  | tail _ he ih => exact ih.trans (h.idxOf_lt (hall _ _ he) he)

omit [DecidableEq α] in
/-- On finitely many nodes, going back along the edges of an acyclic graph comes to an end. -/
theorem acyclic_wellFounded {edge : α → α → Prop} (h : Acyclic edge) (nodes : List α) :
    WellFounded fun p x : {x // x ∈ nodes} => Relation.TransGen edge p.1 x.1 := by
  have : Finite {x // x ∈ nodes} := nodes.finite_toSet
  have : IsTrans {x // x ∈ nodes} fun p x => Relation.TransGen edge p.1 x.1 :=
    ⟨fun _ _ _ h₁ h₂ => h₁.trans h₂⟩
  have : Std.Irrefl fun p x : {x // x ∈ nodes} => Relation.TransGen edge p.1 x.1 :=
    ⟨fun x => h x.1⟩
  exact Finite.wellFounded_of_trans_of_irrefl _

section Spec

variable {succ : α → List α} {nodes : List α}

/-- The predecessors of `x` that are not listed yet. -/
def pending (succ : α → List α) (nodes : List α) (order : List α) (x : α) : Nat :=
  nodes.countP fun p => x ∈ succ p ∧ p ∉ order

theorem pending_eq_zero_iff {order : List α} {x : α} :
    pending succ nodes order x = 0 ↔ ∀ p, Edge succ nodes p x → p ∈ order := by
  rw [pending, List.countP_eq_zero]
  constructor
  · intro h p hp
    have := h p hp.1
    simp only [hp.2, true_and, decide_not, Bool.not_eq_true', decide_eq_false_iff_not,
      not_not] at this
    exact this
  · intro h p hp
    by_cases hx : x ∈ succ p
    · simp [h p ⟨hp, hx⟩]
    · simp [hx]

/-- Listing `p` takes one from the count of its successors. -/
theorem pending_append (hnodes : nodes.Nodup) {order : List α} {p : α} (hp : p ∈ nodes)
    (hnot : p ∉ order) (x : α) :
    pending succ nodes (order ++ [p]) x =
      if x ∈ succ p then pending succ nodes order x - 1 else pending succ nodes order x := by
  have hsplit : ∀ l : List α, l.Nodup →
      l.countP (fun q => x ∈ succ q ∧ q ∉ order) =
        l.countP (fun q => x ∈ succ q ∧ q ∉ order ++ [p]) +
          if p ∈ l ∧ x ∈ succ p then 1 else 0 := by
    intro l hl
    induction l with
    | nil => simp
    | cons q rest ih =>
        rw [List.nodup_cons] at hl
        rw [List.countP_cons, List.countP_cons, ih hl.2]
        by_cases heq : q = p
        · subst heq
          by_cases hx : x ∈ succ q <;> simp [hx, hnot, hl.1]
        · have hmem : (p ∈ q :: rest) ↔ p ∈ rest := by simp [Ne.symm heq]
          simp only [hmem, List.mem_append, List.mem_singleton, heq, or_false]
          omega
  have := hsplit nodes hnodes
  unfold pending
  by_cases hx : x ∈ succ p
  · simp only [hp, hx, and_self, if_true] at this ⊢
    omega
  · simp only [hp, hx, and_false, if_false, Nat.add_zero] at this ⊢
    exact this.symm

/-- What the loop keeps. -/
structure Invariant (succ : α → List α) (nodes : List α) (w : Work α) (order : List α) : Prop where
  nodup : (order ++ w.queue).Nodup
  mem : ∀ x ∈ order ++ w.queue, x ∈ nodes
  degree : ∀ x ∈ nodes, w.degree x = pending succ nodes order x
  ready : ∀ x ∈ nodes, w.degree x = 0 ↔ x ∈ order ++ w.queue
  sorted : Sorted (Edge succ nodes) order

omit [DecidableEq α] in
theorem Sorted.snoc {edge : α → α → Prop} {order : List α} {p : α} (h : Sorted edge order)
    (hp : ∀ q, edge q p → q ∈ order) : Sorted edge (order ++ [p]) := by
  intro l₁ x l₂ heq q hq
  rcases List.eq_nil_or_concat l₂ with rfl | ⟨l, y, rfl⟩
  · obtain ⟨rfl, hx⟩ := List.append_inj' heq rfl
    obtain rfl := List.singleton_inj.mp hx
    exact hp q hq
  · rw [List.concat_eq_append, ← List.cons_append, ← List.append_assoc] at heq
    obtain ⟨rfl, _⟩ := List.append_inj' heq rfl
    exact h l₁ x l rfl q hq

/-- One turn of the loop. -/
theorem Invariant.step (hnodes : nodes.Nodup) (hsucc : ∀ p, (succ p).Nodup)
    (hmem : ∀ p, ∀ x ∈ succ p, x ∈ nodes) {w : Work α} {order queue : List α} {p : α}
    (h : Invariant succ nodes w order) (hqueue : w.queue = p :: queue) :
    Invariant succ nodes ((succ p).foldl Work.release { w with queue := queue }) (order ++ [p]) := by
  have hp : p ∈ nodes := h.mem p (by simp [hqueue])
  have hnodup := h.nodup
  rw [hqueue, List.nodup_append, List.nodup_cons] at hnodup
  have hnot : p ∉ order := fun hmem' => hnodup.2.2 p hmem' p List.mem_cons_self rfl
  have hzero : ∀ q, Edge succ nodes q p → q ∈ order := by
    have := (h.ready p hp).mpr (by simp [hqueue])
    rw [h.degree p hp] at this
    exact pending_eq_zero_iff.mp this
  -- a successor of `p` still counts `p`, so it is neither listed nor in the queue
  have hfresh : ∀ x ∈ succ p, x ∉ order ++ p :: queue := by
    intro x hx hold
    rw [← hqueue, ← h.ready x (hmem p x hx), h.degree x (hmem p x hx),
      pending_eq_zero_iff] at hold
    exact hnot (hold p ⟨hp, hx⟩)
  rw [foldl_release _ (hsucc p)]
  refine ⟨?_, ?_, ?_, ?_, h.sorted.snoc hzero⟩
  · show (order ++ [p] ++ (queue ++ (succ p).filter _)).Nodup
    rw [List.append_assoc, List.singleton_append, ← List.cons_append, ← List.append_assoc,
      List.nodup_append]
    refine ⟨by rw [← hqueue]; exact h.nodup, (hsucc p).filter _, ?_⟩
    intro a ha b hb heq
    subst heq
    exact hfresh a (List.mem_filter.mp hb).1 ha
  · intro x hx
    simp only [List.mem_append, List.mem_singleton, List.mem_filter] at hx
    rcases hx with (hx | rfl) | hx | hx
    · exact h.mem x (by simp [hx])
    · exact hp
    · exact h.mem x (by simp [hqueue, hx])
    · exact hmem p x hx.1
  · intro x hx
    show (if x ∈ succ p then w.degree x - 1 else w.degree x) = _
    rw [pending_append hnodes hp hnot, h.degree x hx]
  · intro x hx
    show (if x ∈ succ p then w.degree x - 1 else w.degree x) = 0 ↔ x ∈ order ++ [p] ++ (queue ++ _)
    have hready := h.ready x hx
    rw [hqueue] at hready
    by_cases hxs : x ∈ succ p
    · have hout := hfresh x hxs
      simp only [List.mem_append, List.mem_cons, not_or] at hout
      simp [hxs, hout]
    · simp only [hxs, if_false, hready, List.mem_append, List.mem_cons, List.mem_filter,
        false_and, or_false, List.not_mem_nil]
      tauto

/-- The loop ends with an empty queue. -/
theorem run_spec (hnodes : nodes.Nodup) (hsucc : ∀ p, (succ p).Nodup)
    (hmem : ∀ p, ∀ x ∈ succ p, x ∈ nodes) (fuel : Nat) {w : Work α} {order : List α}
    (h : Invariant succ nodes w order) (hfuel : nodes.length ≤ order.length + fuel) :
    ∃ w', w'.queue = [] ∧ Invariant succ nodes w' (run succ fuel w order) := by
  induction fuel generalizing w order with
  | zero =>
      have hle : (order ++ w.queue).length ≤ nodes.length := (h.nodup.subperm h.mem).length_le
      rw [List.length_append] at hle
      exact ⟨w, List.eq_nil_of_length_eq_zero (by omega), h⟩
  | succ fuel ih =>
      unfold run
      cases hqueue : w.queue with
      | nil => exact ⟨w, hqueue, h⟩
      | cons p queue =>
          refine ih (h.step hnodes hsucc hmem hqueue) ?_
          rw [List.length_append, List.length_singleton]
          omega

theorem Invariant.start (hnodes : nodes.Nodup) {degree : α → Nat}
    (hdegree : ∀ x ∈ nodes, degree x = pending succ nodes [] x) :
    Invariant succ nodes ⟨degree, nodes.filter fun p => degree p = 0⟩ [] where
  nodup := by
    rw [List.nil_append]
    exact hnodes.filter _
  mem x hx := (List.mem_filter.mp hx).1
  degree := hdegree
  ready x hx := by simp [hx]
  sorted l₁ x l₂ h := by simp at h

variable {degree : α → Nat} (hnodes : nodes.Nodup) (hsucc : ∀ p, (succ p).Nodup)
  (hmem : ∀ p, ∀ x ∈ succ p, x ∈ nodes) (hdegree : ∀ x ∈ nodes, degree x = pending succ nodes [] x)

include hnodes hsucc hmem hdegree

theorem sort_final : ∃ w, w.queue = [] ∧ Invariant succ nodes w (sort succ degree nodes) :=
  run_spec hnodes hsucc hmem nodes.length (.start hnodes hdegree) (by simp)

/-- **The sort is sound**: it lists nodes, each once, each after all its predecessors. -/
theorem sort_spec : (sort succ degree nodes).Nodup ∧ (∀ x ∈ sort succ degree nodes, x ∈ nodes) ∧
    Sorted (Edge succ nodes) (sort succ degree nodes) := by
  obtain ⟨w, hempty, h⟩ := sort_final hnodes hsucc hmem hdegree
  have hnodup := h.nodup
  have hsub := h.mem
  rw [hempty, List.append_nil] at hnodup hsub
  exact ⟨hnodup, hsub, h.sorted⟩

/-- **The sort is complete exactly when the graph has no cycle.** -/
theorem sort_complete_iff : (∀ x ∈ nodes, x ∈ sort succ degree nodes) ↔
    Acyclic (Edge succ nodes) := by
  obtain ⟨w, hempty, h⟩ := sort_final hnodes hsucc hmem hdegree
  have hsorted := h.sorted
  constructor
  · intro hall x hcycle
    have hup := hsorted.idxOf_lt_of_transGen (fun p y he => hall y (hmem p y he.2)) hcycle
    omega
  · intro hacyclic
    by_contra hrest
    push Not at hrest
    -- a node that is not listed has a predecessor that is not listed
    have hpred : ∀ x ∈ nodes, x ∉ sort succ degree nodes →
        ∃ p, Edge succ nodes p x ∧ p ∉ sort succ degree nodes := by
      intro x hx hnot
      have hpos : ¬ pending succ nodes (sort succ degree nodes) x = 0 := by
        rw [← h.degree x hx, h.ready x hx, hempty, List.append_nil]
        exact hnot
      rw [pending_eq_zero_iff] at hpos
      push Not at hpos
      exact hpos
    have hwf := acyclic_wellFounded hacyclic nodes
    obtain ⟨x₀, hx₀, hnot₀⟩ := hrest
    obtain ⟨m, hm, hmin⟩ := hwf.has_min {x : {x // x ∈ nodes} | x.1 ∉ sort succ degree nodes}
      ⟨⟨x₀, hx₀⟩, hnot₀⟩
    obtain ⟨p, hp, hnot⟩ := hpred m.1 m.2 hm
    exact hmin ⟨p, hp.1⟩ hnot (.single hp)

end Spec

end Kahn
