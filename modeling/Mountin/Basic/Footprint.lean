import Mountin.Basic.Splice
import Mathlib.Data.Set.Disjoint

set_option autoImplicit false

/-! # Footprints

What a run of writes changes in a list, and what a fact about a list depends on: a fact that is
local to some positions holds as long as these are left alone.

* `Local.frame` : a change elsewhere keeps a local fact.
* `splices_spec` : what writes that do not meet leave in the list.
* `Between.append` : writes in neighbouring ranges do not meet.
* `List.IsChain.apart` : writes in order do not meet.
-/

variable {α : Type}

/-- Two lists are the same at some positions. -/
def AgreeOn (S : Set Nat) (a b : List α) : Prop := ∀ i ∈ S, b[i]? = a[i]?

/-- A fact about a list that depends on some of its positions only. -/
def Local (S : Set Nat) (P : List α → Prop) (a : List α) : Prop := ∀ b, AgreeOn S a b → P b

/-- A cells of positions. -/
def cells (p n : Nat) : Set Nat := {i | p ≤ i ∧ i < p + n}

theorem mem_cells {p n i : Nat} : i ∈ cells p n ↔ p ≤ i ∧ i < p + n := Iff.rfl

section

variable {S T : Set Nat} {P Q : List α → Prop} {a b c : List α}

theorem AgreeOn.mono (h : AgreeOn T a b) (hsub : S ⊆ T) : AgreeOn S a b :=
  fun i hi => h i (hsub hi)

theorem AgreeOn.trans (hab : AgreeOn S a b) (hbc : AgreeOn S b c) : AgreeOn S a c :=
  fun i hi => (hbc i hi).trans (hab i hi)

theorem AgreeOn.slice (h : AgreeOn S a b) {p n : Nat} (hsub : cells p n ⊆ S) :
    b.slice p n = a.slice p n :=
  List.ext_getElem? fun i => by
    rw [List.getElem?_slice, List.getElem?_slice]
    split
    · exact h _ (hsub ⟨by omega, by omega⟩)
    · rfl

theorem Local.self (h : Local S P a) : P a := h a fun _ _ => rfl

theorem Local.mono (h : Local S P a) (hsub : S ⊆ T) : Local T P a :=
  fun b hb => h b (hb.mono hsub)

theorem Local.imp (h : Local S P a) (himp : ∀ b, AgreeOn S a b → P b → Q b) : Local S Q a :=
  fun b hb => himp b hb (h b hb)

/-- A change elsewhere keeps a local fact. -/
theorem Local.frame (h : Local S P a) (hab : AgreeOn S a b) : Local S P b :=
  fun c hc => h c (hab.trans hc)

/-- Two local facts together. -/
theorem Local.and (hP : Local S P a) (hQ : Local T Q a) :
    Local (S ∪ T) (fun b => P b ∧ Q b) a :=
  fun b hb => ⟨hP b (hb.mono Set.subset_union_left), hQ b (hb.mono Set.subset_union_right)⟩

end

/-! ## Runs of writes -/

namespace List

/-- Writes at their offsets, one after the other. -/
def splices (l : List α) (writes : List (Nat × List α)) : List α :=
  writes.foldl (fun l w => l.splice w.1 w.2) l

/-- Writes that do not meet: the length stays, each of them is there, and nothing
else has changed. -/
theorem splices_spec {l : List α} {writes : List (Nat × List α)}
    (hroom : ∀ w ∈ writes, w.1 + w.2.length ≤ l.length)
    (hapart : writes.Pairwise fun v w =>
      v.1 + v.2.length ≤ w.1 ∨ w.1 + w.2.length ≤ v.1) :
    (l.splices writes).length = l.length ∧
      (∀ w ∈ writes, (l.splices writes).slice w.1 w.2.length = w.2) ∧
      ∀ i, (∀ w ∈ writes, i ∉ cells w.1 w.2.length) → (l.splices writes)[i]? = l[i]? := by
  induction writes generalizing l with
  | nil => exact ⟨rfl, by simp, fun _ _ => rfl⟩
  | cons v writes ih =>
      rw [forall_mem_cons] at hroom
      rw [pairwise_cons] at hapart
      have hlen : (l.splice v.1 v.2).length = l.length := length_splice hroom.1
      obtain ⟨hlength, hthere, hframe⟩ := ih (l := l.splice v.1 v.2)
        (fun w hw => hlen ▸ hroom.2 w hw) hapart.2
      refine ⟨hlength.trans hlen, ?_, fun i hi => ?_⟩
      · rw [forall_mem_cons]
        refine ⟨?_, hthere⟩
        -- the later writes do not meet the first
        have hsame : AgreeOn (cells v.1 v.2.length) (l.splice v.1 v.2)
            ((l.splice v.1 v.2).splices writes) := fun i hi => hframe i fun w hw hmem => by
          have happart := hapart.1 w hw
          rw [mem_cells] at hi hmem
          omega
        exact (hsame.slice (Set.Subset.refl _)).trans (slice_splice_self (by omega) rfl)
      · rw [forall_mem_cons, mem_cells] at hi
        refine (hframe i hi.2).trans ?_
        rw [getElem?_splice (by omega), if_neg hi.1]

theorem splices_append (l : List α) (ws ws' : List (Nat × List α)) :
    (l.splices ws).splices ws' = l.splices (ws ++ ws') := foldl_append.symm

end List

/-! ## Writes in order -/

/-- A write ends before the next begins. -/
def Before (v w : Nat × List α) : Prop := v.1 + v.2.length ≤ w.1

instance : Trans (@Before α) (@Before α) (@Before α) where
  trans h h' := Nat.le_trans h (Nat.le_trans (Nat.le_add_right _ _) h')

/-- Writes in order do not meet. -/
theorem List.IsChain.apart {writes : List (Nat × List α)} (h : writes.IsChain Before) :
    writes.Pairwise fun v w => v.1 + v.2.length ≤ w.1 ∨ w.1 + w.2.length ≤ v.1 :=
  h.pairwise.imp .inl

/-! ## Writes in a range -/

/-- Writes between two positions that do not meet. -/
structure Between (lo hi : Nat) (writes : List (Nat × List α)) : Prop where
  within : ∀ w ∈ writes, lo ≤ w.1 ∧ w.1 + w.2.length ≤ hi
  apart : writes.Pairwise fun v w => v.1 + v.2.length ≤ w.1 ∨ w.1 + w.2.length ≤ v.1

theorem Between.nil (lo hi : Nat) : Between lo hi ([] : List (Nat × List α)) :=
  ⟨by simp, .nil⟩

theorem Between.single {lo hi p : Nat} {d : List α} (hlo : lo ≤ p) (hhi : p + d.length ≤ hi) :
    Between lo hi [(p, d)] := by
  refine ⟨fun w hw => ?_, List.pairwise_singleton _ _⟩
  obtain rfl := List.mem_singleton.mp hw
  exact ⟨hlo, hhi⟩

theorem Between.append {lo mid hi : Nat} {ws ws' : List (Nat × List α)} (h : Between lo mid ws)
    (h' : Between mid hi ws') (hlo : lo ≤ mid) (hhi : mid ≤ hi) : Between lo hi (ws ++ ws') := by
  refine ⟨fun w hw => ?_, List.pairwise_append.mpr ⟨h.apart, h'.apart, fun v hv w hw => .inl ?_⟩⟩
  · rcases List.mem_append.mp hw with hw | hw
    · exact ⟨(h.within w hw).1, Nat.le_trans (h.within w hw).2 hhi⟩
    · exact ⟨Nat.le_trans hlo (h'.within w hw).1, (h'.within w hw).2⟩
  · exact Nat.le_trans (h.within v hv).2 (h'.within w hw).1

theorem Between.perm {lo hi : Nat} {ws ws' : List (Nat × List α)} (h : Between lo hi ws)
    (hp : ws.Perm ws') : Between lo hi ws' :=
  ⟨fun w hw => h.within w (hp.mem_iff.mpr hw),
    (hp.pairwise_iff fun hvw => Or.symm hvw).mp h.apart⟩
