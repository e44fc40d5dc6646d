import Mathlib.Tactic

set_option autoImplicit false

/-! # First-fit allocation

A map of the units below a bound that says which are free, in any representation, and the
allocator that takes the lowest free unit.

* `FreeMap` : the representation, with the law of marking a unit used.
* `isFree_markAll` : several units marked used.
* `allocMany_spec` : what an allocation of `n` units takes, and what it leaves free.
* `allocMany_isSome` : with free units enough it succeeds.
-/

/-- Which units below a bound are free, in a representation `β`. -/
structure FreeMap (β : Type) where
  bound : Nat
  isFree : β → Nat → Bool
  markUsed : β → Nat → β
  Valid : β → Prop
  valid_markUsed : ∀ {b : β} {s : Nat}, Valid b → Valid (markUsed b s)
  isFree_markUsed : ∀ {b : β} {s t : Nat}, Valid b → s < bound → t < bound →
    isFree (markUsed b s) t = (isFree b t && decide (t ≠ s))

namespace FreeMap

variable {β : Type} (m : FreeMap β)

/-- The lowest free unit, and the map without it. -/
def alloc (b : β) : Option (Nat × β) :=
  ((List.range m.bound).find? (m.isFree b)).map fun s => (s, m.markUsed b s)

/-- So many units, one after the other. -/
def allocMany : Nat → β → Option (List Nat × β)
  | 0, b => some ([], b)
  | n + 1, b => do
      let (s, b) ← m.alloc b
      let (rest, b) ← allocMany n b
      return (s :: rest, b)

/-- Units that are marked used. -/
def markAll (b : β) (l : List Nat) : β := l.foldl m.markUsed b

variable {m} {b : β}

theorem valid_markAll (hb : m.Valid b) (l : List Nat) : m.Valid (m.markAll b l) := by
  induction l generalizing b with
  | nil => exact hb
  | cons s l ih => exact ih (m.valid_markUsed hb)

theorem isFree_markAll (hb : m.Valid b) {l : List Nat} (hl : ∀ s ∈ l, s < m.bound) {t : Nat}
    (ht : t < m.bound) : m.isFree (m.markAll b l) t = (m.isFree b t && decide (t ∉ l)) := by
  induction l generalizing b with
  | nil => simp [markAll]
  | cons s l ih =>
      rw [List.forall_mem_cons] at hl
      have hrest := ih (m.valid_markUsed (s := s) hb) hl.2
      calc m.isFree (m.markAll b (s :: l)) t
          = (m.isFree (m.markUsed b s) t && decide (t ∉ l)) := hrest
        _ = (m.isFree b t && decide (t ∉ s :: l)) := by
          rw [m.isFree_markUsed hb hl.1 ht, Bool.and_assoc, ← Bool.decide_and]
          simp only [List.mem_cons, not_or, ne_eq]

theorem alloc_eq_some {s : Nat} {b' : β} (h : m.alloc b = some (s, b')) :
    s < m.bound ∧ m.isFree b s = true ∧ b' = m.markUsed b s := by
  rw [alloc, Option.map_eq_some_iff] at h
  obtain ⟨s', hfind, heq⟩ := h
  obtain ⟨rfl, rfl⟩ := Prod.mk.inj heq
  exact ⟨List.mem_range.mp (List.mem_of_find?_eq_some hfind), List.find?_some hfind, rfl⟩

/-- An allocation takes different units that were free, and leaves the other units as they
were. -/
theorem allocMany_spec (hb : m.Valid b) {n : Nat} {units : List Nat} {b' : β}
    (h : m.allocMany n b = some (units, b')) :
    units.length = n ∧ units.Nodup ∧ (∀ s ∈ units, s < m.bound ∧ m.isFree b s = true) ∧
      m.Valid b' ∧
      ∀ t < m.bound, m.isFree b' t = (m.isFree b t && decide (t ∉ units)) := by
  induction n generalizing b units with
  | zero =>
      obtain ⟨rfl, rfl⟩ := Prod.mk.inj (Option.some.inj h)
      exact ⟨rfl, List.nodup_nil, by simp, hb, by simp⟩
  | succ n ih =>
      simp only [allocMany, Option.bind_eq_bind, Option.bind_eq_some_iff, Prod.exists] at h
      obtain ⟨s, b₁, halloc, rest, b₂, hrest, heq⟩ := h
      obtain ⟨rfl, rfl⟩ := Prod.mk.inj (Option.some.inj heq)
      obtain ⟨hs, hfree, rfl⟩ := alloc_eq_some halloc
      obtain ⟨hlen, hnodup, hunits, hvalid, hleft⟩ := ih (m.valid_markUsed hb) hrest
      refine ⟨by rw [List.length_cons, hlen], ?_, ?_, hvalid, fun t ht => ?_⟩
      · refine List.nodup_cons.mpr ⟨fun hmem => ?_, hnodup⟩
        have hagain := (hunits s hmem).2
        rw [m.isFree_markUsed hb hs hs] at hagain
        simp at hagain
      · rw [List.forall_mem_cons]
        refine ⟨⟨hs, hfree⟩, fun t ht => ⟨(hunits t ht).1, ?_⟩⟩
        have hbefore := (hunits t ht).2
        rw [m.isFree_markUsed hb hs (hunits t ht).1, Bool.and_eq_true] at hbefore
        exact hbefore.1
      · rw [hleft t ht, m.isFree_markUsed hb hs ht, Bool.and_assoc, ← Bool.decide_and]
        simp only [List.mem_cons, not_or, ne_eq]

/-- How many units are free. -/
def freeCount (m : FreeMap β) (b : β) : Nat := (List.range m.bound).countP (m.isFree b)

/-- Marking a unit used takes at most one unit away. -/
theorem freeCount_markUsed (hb : m.Valid b) {s : Nat} (hs : s < m.bound) :
    m.freeCount b ≤ m.freeCount (m.markUsed b s) + 1 := by
  have hone : (List.range m.bound).countP (fun t => m.isFree b t && decide (t = s)) ≤ 1 := by
    refine (List.countP_mono_left fun t _ ht => ?_).trans
      (List.nodup_iff_count_le_one.mp List.nodup_range s)
    rw [Bool.and_eq_true] at ht
    exact beq_iff_eq.mpr (of_decide_eq_true ht.2)
  have hrest : (List.range m.bound).countP (fun t => m.isFree b t && decide (t ≠ s))
      = m.freeCount (m.markUsed b s) :=
    List.countP_congr fun t ht => by rw [m.isFree_markUsed hb hs (List.mem_range.mp ht)]
  have hsplit := List.countP_eq_countP_filter_add (List.range m.bound) (m.isFree b)
    (fun t => decide (t ≠ s))
  rw [List.countP_filter, List.countP_filter, hrest] at hsplit
  simp only [ne_eq, decide_not, Bool.not_not] at hsplit
  rw [freeCount]
  omega

/-- An allocation succeeds when there are free units enough. -/
theorem allocMany_isSome (hb : m.Valid b) {n : Nat} (h : n ≤ m.freeCount b) :
    ∃ units b', m.allocMany n b = some (units, b') := by
  induction n generalizing b with
  | zero => exact ⟨[], b, rfl⟩
  | succ n ih =>
      obtain ⟨t, ht, hfree⟩ := List.countP_pos_iff.mp (Nat.lt_of_lt_of_le (Nat.succ_pos n) h)
      obtain ⟨s, hs⟩ := Option.isSome_iff_exists.mp (List.find?_isSome.mpr ⟨t, ht, hfree⟩)
      have halloc : m.alloc b = some (s, m.markUsed b s) := by rw [alloc, hs]; rfl
      have hbound := (alloc_eq_some halloc).1
      have hleft := freeCount_markUsed hb hbound
      obtain ⟨units, b', hrest⟩ := ih (m.valid_markUsed (s := s) hb) (by omega)
      refine ⟨s :: units, b', ?_⟩
      simp only [allocMany, halloc, hrest, Option.bind_eq_bind, Option.bind_some]
      rfl

end FreeMap
