import Mathlib.Order.FixedPoints
import Mathlib.Data.Set.Basic
import Mathlib.Logic.Relation
import Mathlib.Order.CompletePartialOrder

set_option autoImplicit false

/-! # Elimination to the greatest fixpoint

A monotone operator `F` says which members a set supports. Taking unsupported members out one
by one, in whatever order, keeps everything that lies in the greatest fixpoint; a set above the
greatest fixpoint all of whose members are supported is the greatest fixpoint.

* `Elimination.eq_gfp` : where elimination stops, from above the fixpoint, it has reached it.
* `untilStable` : the loop `while changed`, with a bound on its rounds.
* `untilStable_ok` : with enough fuel the loop ends with a round that changes nothing.
-/

namespace Elimination

variable {α : Type} {F : Set α →o Set α}

/-- One member that the set does not support is taken out. -/
def Step (F : Set α →o Set α) (S S' : Set α) : Prop := ∃ x, x ∉ F S ∧ S' = S \ {x}

/-- Taking out an unsupported member keeps the greatest fixpoint inside. -/
theorem Step.gfp_le {S S' : Set α} (h : Step F S S') (hS : F.gfp ≤ S) : F.gfp ≤ S' := by
  obtain ⟨x, hx, rfl⟩ := h
  intro y hy
  refine ⟨hS hy, fun heq => hx ?_⟩
  rw [← Set.mem_singleton_iff.mp heq]
  exact F.gfp_le_map hS hy

theorem run_gfp_le {S S' : Set α} (h : Relation.ReflTransGen (Step F) S S')
    (hS : F.gfp ≤ S) : F.gfp ≤ S' := by
  induction h with
  | refl => exact hS
  | tail _ hstep ih => exact hstep.gfp_le ih

/-- **Elimination reaches the greatest fixpoint**: every order of steps from above it ends
there, once all members left are supported. -/
theorem eq_gfp {S S' : Set α} (h : Relation.ReflTransGen (Step F) S S') (hS : F.gfp ≤ S)
    (hstuck : S' ≤ F S') : S' = F.gfp :=
  le_antisymm (F.le_gfp hstuck) (run_gfp_le h hS)

end Elimination

section Loop

variable {σ ε : Type}

/-- The loop `while changed`: rounds that say whether they changed the state, at most `fuel` of
them. -/
def untilStable (round : σ → Except ε (σ × Bool)) : Nat → σ → Except ε σ
  | 0, s => .ok s
  | fuel + 1, s => do
    let (s', changed) ← round s
    if changed then untilStable round fuel s' else pure s'

/-- A round that changed the state. -/
def Changes (round : σ → Except ε (σ × Bool)) (s s' : σ) : Prop := round s = .ok (s', true)

variable {round : σ → Except ε (σ × Bool)} {size : σ → Nat}

/-- When every changing round makes the state smaller, the loop ends with a round that changes
nothing. -/
theorem untilStable_ok (hsize : ∀ s s', Changes round s s' → size s' < size s)
    {fuel : Nat} {s t : σ} (hfuel : size s < fuel) (h : untilStable round fuel s = .ok t) :
    ∃ s₁, Relation.ReflTransGen (Changes round) s s₁ ∧ round s₁ = .ok (t, false) := by
  induction fuel generalizing s with
  | zero => omega
  | succ fuel ih =>
      unfold untilStable at h
      cases hr : round s with
      | error e => simp [hr, bind, Except.bind] at h
      | ok p =>
          rcases p with ⟨s', changed⟩
          cases changed with
          | false =>
              simp only [hr, bind, Except.bind, pure, Except.pure] at h
              obtain rfl : s' = t := by simpa using h
              exact ⟨s, .refl, hr⟩
          | true =>
              simp only [hr, bind, Except.bind, if_true] at h
              have hlt := hsize s s' hr
              obtain ⟨s₁, hrun, hlast⟩ := ih (by omega) h
              exact ⟨s₁, .head hr hrun, hlast⟩

/-- The loop returns when no round it can come to raises. -/
theorem untilStable_returns {P : σ → Prop} (hP : ∀ s, P s → ∃ s' c, round s = .ok (s', c) ∧ P s')
    (fuel : Nat) {s : σ} (hs : P s) : ∃ t, untilStable round fuel s = .ok t ∧ P t := by
  induction fuel generalizing s with
  | zero => exact ⟨s, rfl, hs⟩
  | succ fuel ih =>
      obtain ⟨s', c, hr, hs'⟩ := hP s hs
      unfold untilStable
      rw [hr]
      cases c with
      | false => exact ⟨s', rfl, hs'⟩
      | true => exact ih hs'

end Loop
