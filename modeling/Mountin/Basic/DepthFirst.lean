import Mathlib.Data.Set.Basic
import Mathlib.Logic.Relation

set_option autoImplicit false

/-! # Depth-first visits

What a depth-first visit sees, as sets: starting at a vertex with the set `V` of vertices seen
before, it sees what can be reached outside `V`. The visits of a list come one after the other,
so a vertex is entered on the first way that leads to it. A visit that keeps the labels of the
vertices it came through stops when it comes back to one of them (`Closes`).

* `DepthFirst.seen_enter` : entering a vertex, then its successors.
* `DepthFirst.seen_cons` : visiting a list, one after the other.
-/

namespace DepthFirst

variable {α β : Type} (succ : α → List α) (label : α → β)

/-- A step to a vertex outside `V`. -/
def Leads (V : Set α) (a b : α) : Prop := b ∈ succ a ∧ b ∉ V

/-- What visiting a list sees, when the vertices of `V` were seen before. -/
def seen (V : Set α) (l : List α) : Set α :=
  V ∪ {x | ∃ a ∈ l, a ∉ V ∧ Relation.ReflTransGen (Leads succ V) a x}

/-- Visiting a list with the labels `chain` on the way to it comes back to one of them: at the
first vertex itself, below it when it is new, or later in the list. -/
inductive Closes : Set α → List β → List α → Prop
  | here {V : Set α} {chain : List β} {a : α} {rest : List α} (h : label a ∈ chain) :
      Closes V chain (a :: rest)
  | inside {V : Set α} {chain : List β} {a : α} {rest : List α} (hnew : a ∉ V)
      (h : Closes (insert a V) (chain ++ [label a]) (succ a)) : Closes V chain (a :: rest)
  | later {V : Set α} {chain : List β} {a : α} {rest : List α}
      (h : Closes (seen succ V [a]) chain rest) : Closes V chain (a :: rest)

variable {succ label}

theorem subset_seen (V : Set α) (l : List α) : V ⊆ seen succ V l := Set.subset_union_left

@[simp] theorem seen_nil (V : Set α) : seen succ V [] = V := by
  simp [seen]

theorem notMem_of_leads {V : Set α} {a x : α} (ha : a ∉ V)
    (h : Relation.ReflTransGen (Leads succ V) a x) : x ∉ V := by
  cases h with
  | refl => exact ha
  | tail _ hstep => exact hstep.2

/-- A path that avoids more avoids less. -/
theorem leads_mono {V V' : Set α} (hV : V ⊆ V') {a x : α}
    (h : Relation.ReflTransGen (Leads succ V') a x) : Relation.ReflTransGen (Leads succ V) a x := by
  induction h with
  | refl => exact .refl
  | tail _ hstep ih => exact ih.tail ⟨hstep.1, fun h => hstep.2 (hV h)⟩

theorem seen_of_mem {V : Set α} {a : α} (ha : a ∈ V) : seen succ V [a] = V := by
  simp [seen, ha]

/-- **Entering a vertex** sees the vertex, then what its successors lead to. -/
theorem seen_enter {V : Set α} {a : α} (ha : a ∉ V) :
    seen succ V [a] = seen succ (insert a V) (succ a) := by
  ext x
  constructor
  · rintro (hx | ⟨b, hb, _, hpath⟩)
    · exact .inl (.inr hx)
    obtain rfl := List.mem_singleton.mp hb
    -- the path may come back to its start: only the part after the last return counts
    induction hpath with
    | refl => exact .inl (.inl rfl)
    | @tail y z hpath hstep ih =>
        by_cases hz : z = b
        · exact .inl (.inl hz)
        have hznew : z ∉ insert b V := fun h => h.elim hz hstep.2
        rcases ih with (rfl | hy) | ⟨c, hc, hcnew, hcpath⟩
        · exact .inr ⟨z, hstep.1, hznew, .refl⟩
        · exact absurd hy (notMem_of_leads ha hpath)
        · exact .inr ⟨c, hc, hcnew, hcpath.tail ⟨hstep.1, hznew⟩⟩
  · rintro ((rfl | hx) | ⟨c, hc, hcnew, hpath⟩)
    · exact .inr ⟨x, List.mem_singleton_self x, ha, .refl⟩
    · exact .inl hx
    · refine .inr ⟨a, List.mem_singleton_self a, ha, .head ⟨hc, fun h => hcnew (.inr h)⟩ ?_⟩
      exact leads_mono (fun _ h => .inr h) hpath

/-- **Visiting a list**: its first vertex, then the others. -/
theorem seen_cons (V : Set α) (a : α) (rest : List α) :
    seen succ V (a :: rest) = seen succ (seen succ V [a]) rest := by
  ext x
  constructor
  · rintro (hx | ⟨b, hb, hbnew, hpath⟩)
    · exact .inl (.inl hx)
    rcases List.mem_cons.mp hb with rfl | hrest
    · exact .inl (.inr ⟨b, List.mem_singleton_self b, hbnew, hpath⟩)
    -- as long as the path stays outside what the first vertex saw, it is a path of the others
    induction hpath with
    | refl =>
        by_cases hfirst : b ∈ seen succ V [a]
        · exact .inl hfirst
        · exact .inr ⟨b, hrest, hfirst, .refl⟩
    | @tail y z hpath hstep ih =>
        by_cases hz : z ∈ seen succ V [a]
        · exact .inl hz
        rcases ih with (hy | ⟨c, hc, hcnew, hcpath⟩) | ⟨c, hc, hcnew, hcpath⟩
        · exact absurd hy (notMem_of_leads hbnew hpath)
        · exact .inl (.inr ⟨c, hc, hcnew, hcpath.tail hstep⟩)
        · exact .inr ⟨c, hc, hcnew, hcpath.tail ⟨hstep.1, hz⟩⟩
  · rintro ((hx | ⟨c, hc, hcnew, hpath⟩) | ⟨c, hc, hcnew, hpath⟩)
    · exact .inl hx
    · obtain rfl := List.mem_singleton.mp hc
      exact .inr ⟨c, List.mem_cons_self, hcnew, hpath⟩
    · have hsub : V ⊆ seen succ V [a] := subset_seen V [a]
      exact .inr ⟨c, List.mem_cons_of_mem _ hc, fun h => hcnew (hsub h), leads_mono hsub hpath⟩

/-- What is seen leads to nothing that is not seen. -/
theorem succ_mem_seen {V : Set α} {l : List α} {x y : α} (hx : x ∈ seen succ V l) (hnew : x ∉ V)
    (hy : y ∈ succ x) : y ∈ seen succ V l := by
  by_cases hyV : y ∈ V
  · exact .inl hyV
  obtain ⟨a, ha, hanew, hpath⟩ := hx.resolve_left hnew
  exact .inr ⟨a, ha, hanew, hpath.tail ⟨hy, hyV⟩⟩

theorem not_closes_nil {V : Set α} {chain : List β} : ¬ Closes succ label V chain [] := by
  intro h
  cases h

/-- A list closes a cycle at its first vertex or later. -/
theorem closes_cons_iff {V : Set α} {chain : List β} {a : α} {rest : List α} :
    Closes succ label V chain (a :: rest) ↔
      Closes succ label V chain [a] ∨ Closes succ label (seen succ V [a]) chain rest := by
  constructor
  · intro h
    cases h with
    | here h => exact .inl (.here h)
    | inside hnew h => exact .inl (.inside hnew h)
    | later h => exact .inr h
  · rintro (h | h)
    · cases h with
      | here h => exact .here h
      | inside hnew h => exact .inside hnew h
      | later h => exact absurd h not_closes_nil
    · exact .later h

/-- A vertex closes a cycle when its label is on the chain, or when it is new and one of its
successors closes one. -/
theorem closes_singleton_iff {V : Set α} {chain : List β} {a : α} :
    Closes succ label V chain [a] ↔
      label a ∈ chain ∨ (a ∉ V ∧ Closes succ label (insert a V) (chain ++ [label a]) (succ a)) := by
  constructor
  · intro h
    cases h with
    | here h => exact .inl h
    | inside hnew h => exact .inr ⟨hnew, h⟩
    | later h => exact absurd h not_closes_nil
  · rintro (h | ⟨hnew, h⟩)
    · exact .here h
    · exact .inside hnew h

end DepthFirst
