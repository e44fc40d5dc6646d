import Mathlib.Data.List.Chain
import Mathlib.Data.List.Perm.Subperm

set_option autoImplicit false

/-! # Linked lists in a store

A linked list is read record by record: `read` returns the record at a place, `next` the place
that a record points to. A walk of at most so many records is `LinkedWalk.follow`.

* `follow_isChain`, `read_of_mem` : what a walk visits.
* `pairwise_follow` : a walk that moves only forward visits no place twice.
* `follow_stop` : where a walk ends.
* `follow_once` : a walk goes on from where the walk without repetitions (`once`) ends.
-/

namespace LinkedWalk

variable {α β : Type} (read : α → Option β) (next : α → β → Option α)

/-- The places and records of a walk of at most so many records. -/
def follow : Nat → Option α → List (α × β)
  | 0, _ => []
  | _ + 1, none => []
  | fuel + 1, some a =>
    match read a with
    | none => []
    | some b => (a, b) :: follow fuel (next a b)

@[simp] theorem follow_none (fuel : Nat) : follow read next fuel none = [] := by
  cases fuel <;> rfl

theorem follow_of_read {a : α} {b : β} (h : read a = some b) (fuel : Nat) :
    follow read next (fuel + 1) (some a) = (a, b) :: follow read next fuel (next a b) := by
  rw [follow, h]

theorem follow_of_unread {a : α} (h : read a = none) (fuel : Nat) :
    follow read next fuel (some a) = [] := by
  cases fuel with
  | zero => rfl
  | succ fuel => rw [follow, h]

/-- A walk begins at its place, if there is a record. -/
theorem head?_follow (fuel : Nat) (a : α) :
    (follow read next (fuel + 1) (some a)).head? = (read a).map fun b => (a, b) := by
  cases h : read a with
  | none => rw [follow_of_unread read next h]; rfl
  | some b => rw [follow_of_read read next h]; rfl

theorem length_follow_le (fuel : Nat) (a : Option α) : (follow read next fuel a).length ≤ fuel := by
  induction fuel generalizing a with
  | zero => exact Nat.le_refl _
  | succ fuel ih =>
      cases a with
      | none => exact Nat.zero_le _
      | some a =>
          cases h : read a with
          | none => rw [follow_of_unread read next h]; exact Nat.zero_le _
          | some b =>
              rw [follow_of_read read next h, List.length_cons]
              exact Nat.succ_le_succ (ih (next a b))

variable {read next}

theorem follow_eq_nil_or_head {fuel : Nat} {a : Option α} {x : α × β}
    (h : (follow read next fuel a).head? = some x) : a = some x.1 ∧ read x.1 = some x.2 := by
  cases fuel with
  | zero => simp [follow] at h
  | succ fuel =>
      cases a with
      | none => simp at h
      | some a =>
          rw [head?_follow] at h
          obtain ⟨b, hb, rfl⟩ := Option.map_eq_some_iff.mp h
          exact ⟨rfl, hb⟩

/-- What holds of the first place and is handed on by each record holds of all that a walk
visits. -/
theorem forall_mem_follow {P : α → Prop} (hnext : ∀ a b a', P a → read a = some b →
    next a b = some a' → P a') {fuel : Nat} {a : Option α} (ha : ∀ a' ∈ a, P a') :
    ∀ x ∈ follow read next fuel a, P x.1 ∧ read x.1 = some x.2 := by
  induction fuel generalizing a with
  | zero => simp [follow]
  | succ fuel ih =>
      cases a with
      | none => simp
      | some a =>
          cases h : read a with
          | none => simp [follow_of_unread read next h]
          | some b =>
              rw [follow_of_read read next h, List.forall_mem_cons]
              have hP : P a := ha a rfl
              exact ⟨⟨hP, h⟩, ih fun a' ha' => hnext a b a' hP h ha'⟩

theorem read_of_mem {fuel : Nat} {a : Option α} {x : α × β} (h : x ∈ follow read next fuel a) :
    read x.1 = some x.2 :=
  (forall_mem_follow (P := fun _ => True) (fun _ _ _ _ _ _ => trivial) (fun _ _ => trivial) x h).2

/-- Each place that a walk visits is the one that the record before it points to. -/
theorem follow_isChain (fuel : Nat) (a : Option α) :
    (follow read next fuel a).IsChain fun x y => next x.1 x.2 = some y.1 := by
  induction fuel generalizing a with
  | zero => exact .nil
  | succ fuel ih =>
      cases a with
      | none => exact .nil
      | some a =>
          cases h : read a with
          | none => rw [follow_of_unread read next h]; exact .nil
          | some b =>
              rw [follow_of_read read next h, List.isChain_cons]
              refine ⟨fun y hy => ?_, ih (next a b)⟩
              exact (follow_eq_nil_or_head hy).1

/-- **A walk that moves only forward**: the places are in order. -/
theorem pairwise_follow {r : α → α → Prop} (htrans : ∀ {a b c}, r a b → r b c → r a c)
    (hr : ∀ a b a', read a = some b → next a b = some a' → r a a') (fuel : Nat) (a : Option α) :
    (follow read next fuel a).Pairwise fun x y => r x.1 y.1 := by
  induction fuel generalizing a with
  | zero => exact .nil
  | succ fuel ih =>
      cases a with
      | none => exact .nil
      | some a =>
          cases h : read a with
          | none => rw [follow_of_unread read next h]; exact .nil
          | some b =>
              rw [follow_of_read read next h, List.pairwise_cons]
              refine ⟨fun y hy => ?_, ih (next a b)⟩
              exact (forall_mem_follow (P := r a) (fun _ _ _ hP hread hnext => htrans hP (hr _ _ _ hread hnext))
                (fun a' ha' => hr a b a' h ha') y hy).1

/-- A shorter walk is the beginning of a longer one. -/
theorem take_follow (fuel more : Nat) (a : Option α) :
    (follow read next (fuel + more) a).take fuel = follow read next fuel a := by
  induction fuel generalizing a with
  | zero => rfl
  | succ fuel ih =>
      rw [Nat.add_right_comm]
      cases a with
      | none => rw [follow_none, follow_none, List.take_nil]
      | some a =>
          cases h : read a with
          | none => rw [follow_of_unread read next h, follow_of_unread read next h, List.take_nil]
          | some b =>
              rw [follow_of_read read next h, follow_of_read read next h, List.take_succ_cons, ih]

/-- A walk that has ended does not go on. -/
theorem follow_add {fuel : Nat} {a : Option α} (h : (follow read next fuel a).length < fuel)
    (more : Nat) : follow read next (fuel + more) a = follow read next fuel a := by
  induction fuel generalizing a with
  | zero => exact absurd h (Nat.not_lt_zero _)
  | succ fuel ih =>
      rw [Nat.add_right_comm]
      cases a with
      | none => rw [follow_none, follow_none]
      | some a =>
          cases hread : read a with
          | none => rw [follow_of_unread read next hread, follow_of_unread read next hread]
          | some b =>
              rw [follow_of_read read next hread, List.length_cons] at h
              rw [follow_of_read read next hread, follow_of_read read next hread,
                ih (Nat.lt_of_succ_lt_succ h)]

/-- **Where a walk ends**: it has as many records as it may have, or its last record points to no
place, or to a place without record. -/
theorem follow_stop {fuel : Nat} {a : Option α} {x : α × β}
    (hx : (follow read next fuel a).getLast? = some x)
    (hfuel : (follow read next fuel a).length < fuel) {a' : α} (ha' : next x.1 x.2 = some a') :
    read a' = none := by
  induction fuel generalizing a with
  | zero => simp [follow] at hx
  | succ fuel ih =>
      cases a with
      | none => simp at hx
      | some a =>
          cases h : read a with
          | none => simp [follow_of_unread read next h] at hx
          | some b =>
              rw [follow_of_read read next h] at hx hfuel
              rw [List.length_cons] at hfuel
              cases hrest : follow read next fuel (next a b) with
              | cons y rest =>
                  rw [hrest, List.getLast?_cons_cons, ← hrest] at hx
                  exact ih hx (by omega)
              | nil =>
                  rw [hrest] at hx hfuel
                  obtain rfl : (a, b) = x := Option.some.inj hx
                  dsimp only at ha'
                  rw [ha'] at hrest
                  cases hread : read a' with
                  | none => rfl
                  | some b' =>
                      obtain ⟨fuel', rfl⟩ := Nat.exists_eq_succ_of_ne_zero (by omega : fuel ≠ 0)
                      simp [follow_of_read read next hread] at hrest

/-! ## The walk without repetitions -/

variable (next)

/-- The place that comes after a walk from a place. -/
def after : Option α → List (α × β) → Option α
  | a, [] => a
  | _, x :: rest => after (next x.1 x.2) rest

variable (read)

/-- The place without a record at which a walk ends, if it ends at one. -/
def stop : Nat → Option α → Option α
  | 0, _ => none
  | _ + 1, none => none
  | fuel + 1, some a =>
    match read a with
    | none => some a
    | some b => stop fuel (next a b)

variable [DecidableEq α]

/-- The walk that ends at the first place it has been at, or that it is told. -/
def once : Nat → List α → Option α → List (α × β)
  | 0, _, _ => []
  | _ + 1, _, none => []
  | fuel + 1, seen, some a =>
    if a ∈ seen then []
    else
      match read a with
      | none => []
      | some b => (a, b) :: once fuel (a :: seen) (next a b)

variable {read next}

theorem once_of_mem {seen : List α} {a : α} (h : a ∈ seen) (fuel : Nat) :
    once read next fuel seen (some a) = [] := by
  cases fuel with
  | zero => rfl
  | succ fuel => rw [once, if_pos h]

theorem once_of_read {seen : List α} {a : α} {b : β} (hseen : a ∉ seen) (hread : read a = some b)
    {fuel : Nat} : once read next (fuel + 1) seen (some a) =
      (a, b) :: once read next fuel (a :: seen) (next a b) := by
  rw [once, if_neg hseen, hread]

/-- What is shown of the walk without repetitions is shown for a place that is taken and for one
at which it ends. -/
theorem once_induction {P : Nat → List α → Option α → List (α × β) → Prop}
    (fuel : ∀ seen a, P 0 seen a [])
    (done : ∀ n seen a, (∀ a' ∈ a, a' ∈ seen ∨ read a' = none) → P (n + 1) seen a [])
    (take : ∀ n seen a b, a ∉ seen → read a = some b →
      P n (a :: seen) (next a b) (once read next n (a :: seen) (next a b)) →
      P (n + 1) seen (some a) ((a, b) :: once read next n (a :: seen) (next a b)))
    (n : Nat) (seen : List α) (a : Option α) : P n seen a (once read next n seen a) := by
  induction n generalizing seen a with
  | zero => exact fuel seen a
  | succ n ih =>
      cases a with
      | none => exact done n seen none fun _ ha => by cases ha
      | some a =>
          rw [once]
          split_ifs with hseen
          · exact done n seen (some a) fun _ ha => .inl (Option.mem_some.mp ha ▸ hseen)
          · cases hread : read a with
            | none => exact done n seen (some a) fun _ ha => .inr (Option.mem_some.mp ha ▸ hread)
            | some b => exact take n seen a b hseen hread (ih (a :: seen) (next a b))

/-- **A walk goes on** from where the walk without repetitions ends. -/
theorem follow_once (more fuel : Nat) (seen : List α) (a : Option α) :
    follow read next ((once read next fuel seen a).length + more) a =
      once read next fuel seen a ++ follow read next more (after next a (once read next fuel seen a)) := by
  refine once_induction (P := fun _ _ a l => follow read next (l.length + more) a =
    l ++ follow read next more (after next a l)) ?_ ?_ ?_ fuel seen a
  · intro _ a
    rw [List.length_nil, Nat.zero_add]
    rfl
  · intro _ _ a _
    rw [List.length_nil, Nat.zero_add]
    rfl
  · intro n seen a b _ hread ih
    rw [List.length_cons, Nat.add_right_comm, follow_of_read read next hread, ih]
    rfl

theorem stop_once (more fuel : Nat) (seen : List α) (a : Option α) :
    stop read next ((once read next fuel seen a).length + more) a =
      stop read next more (after next a (once read next fuel seen a)) := by
  refine once_induction (P := fun _ _ a l => stop read next (l.length + more) a =
    stop read next more (after next a l)) ?_ ?_ ?_ fuel seen a
  · intro _ a
    rw [List.length_nil, Nat.zero_add]
    rfl
  · intro _ _ a _
    rw [List.length_nil, Nat.zero_add]
    rfl
  · intro n seen a b _ hread ih
    rw [List.length_cons, Nat.add_right_comm, stop]
    simp only [hread]
    exact ih

/-- No place is visited twice, and none that the walk was told. -/
theorem nodup_once (fuel : Nat) (seen : List α) (a : Option α) :
    ((once read next fuel seen a).map Prod.fst).Nodup ∧
      ∀ x ∈ once read next fuel seen a, x.1 ∉ seen ∧ read x.1 = some x.2 := by
  refine once_induction (P := fun _ seen _ l => (l.map Prod.fst).Nodup ∧
    ∀ x ∈ l, x.1 ∉ seen ∧ read x.1 = some x.2) ?_ ?_ ?_ fuel seen a
  · intro _ _
    exact ⟨List.nodup_nil, by simp⟩
  · intro _ _ _ _
    exact ⟨List.nodup_nil, by simp⟩
  · rintro n seen a b hseen hread ⟨hnodup, hmem⟩
    refine ⟨?_, ?_⟩
    · rw [List.map_cons, List.nodup_cons]
      refine ⟨fun hin => ?_, hnodup⟩
      obtain ⟨x, hx, rfl⟩ := List.mem_map.mp hin
      exact (hmem x hx).1 List.mem_cons_self
    · rw [List.forall_mem_cons]
      exact ⟨⟨hseen, hread⟩, fun x hx =>
        ⟨fun hin => (hmem x hx).1 (List.mem_cons_of_mem _ hin), (hmem x hx).2⟩⟩

/-- **Where the walk without repetitions ends**: nowhere, at a place it has been at, or at one
without record. -/
theorem after_once {fuel : Nat} {seen : List α} {a : Option α}
    (h : (once read next fuel seen a).length < fuel) {a' : α}
    (ha' : after next a (once read next fuel seen a) = some a') :
    a' ∈ seen ∨ a' ∈ (once read next fuel seen a).map Prod.fst ∨ read a' = none := by
  revert h ha'
  refine once_induction (P := fun fuel seen a l => l.length < fuel → after next a l = some a' →
    a' ∈ seen ∨ a' ∈ l.map Prod.fst ∨ read a' = none) ?_ ?_ ?_ fuel seen a
  · intro _ _ h
    exact absurd h (Nat.not_lt_zero _)
  · intro _ _ a hdone _ ha'
    exact (hdone a' ha').imp_right .inr
  · intro n seen a b _ _ ih h ha'
    have hlt : (once read next n (a :: seen) (next a b)).length < n := by
      rw [List.length_cons] at h
      omega
    rcases ih hlt ha' with hseen | hin | hnone
    · rcases List.mem_cons.mp hseen with rfl | hold
      · exact .inr (.inl List.mem_cons_self)
      · exact .inl hold
    · exact .inr (.inl (List.mem_cons_of_mem _ hin))
    · exact .inr (.inr hnone)

/-- There are at most so many distinct numbers below a bound. -/
theorem length_le_of_nodup_lt {l : List ℕ} {bound : ℕ} (hl : l.Nodup) (hlt : ∀ n ∈ l, n < bound) :
    l.length ≤ bound := by
  have hsub : l ⊆ List.range bound := fun n hn => List.mem_range.mpr (hlt n hn)
  exact (List.subperm_of_subset hl hsub).length_le.trans_eq List.length_range

/-- With so many places there are at most so many records. -/
theorem length_once_le {seen : List ℕ} {read : ℕ → Option β} {next : ℕ → β → Option ℕ} {bound : ℕ}
    (hnext : ∀ a b a', read a = some b → next a b = some a' → a' < bound) {a : Option ℕ}
    (ha : ∀ a' ∈ a, a' < bound) (fuel : ℕ) : (once read next fuel seen a).length ≤ bound := by
  have hlt : ∀ x ∈ once read next fuel seen a, x.1 < bound := by
    revert ha
    refine once_induction (P := fun _ _ a l => (∀ a' ∈ a, a' < bound) → ∀ x ∈ l, x.1 < bound)
      ?_ ?_ ?_ fuel seen a
    · intro _ _ _
      simp
    · intro _ _ _ _ _
      simp
    · intro n seen a b _ hread ih ha
      rw [List.forall_mem_cons]
      exact ⟨ha a rfl, ih fun a' ha' => hnext a b a' hread ha'⟩
  refine (List.length_map (f := Prod.fst)).symm.trans_le ?_
  refine length_le_of_nodup_lt (nodup_once fuel seen a).1 fun a' ha' => ?_
  obtain ⟨x, hx, rfl⟩ := List.mem_map.mp ha'
  exact hlt x hx

end LinkedWalk
