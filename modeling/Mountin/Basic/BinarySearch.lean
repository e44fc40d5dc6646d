import Mathlib.Tactic

set_option autoImplicit false

/-! # Binary search for a partition point

The search halves a range of indices until one is left. On a predicate that holds up to some
index and fails from there on, it finds that index (`partitionPoint_spec`).
-/

namespace BinarySearch

/-- The search over `size` indices from `base` on, in at most `fuel` steps. -/
def searchBase (p : Nat → Bool) : (fuel size base : Nat) → Nat
  | 0, _, base => base
  | fuel + 1, size, base =>
      if size ≤ 1 then base
      else
        searchBase p fuel (size - size / 2)
          (if p (base + size / 2) then base + size / 2 else base)

/-- The number of indices below `n` at which the predicate holds, when it is partitioned. -/
def partitionPoint (p : Nat → Bool) (n : Nat) : Nat :=
  if n = 0 then 0
  else
    let base := searchBase p n n 0
    if p base then base + 1 else base

/-- The predicate holds up to some index and fails from there on. -/
def Partitioned (p : Nat → Bool) (n : Nat) : Prop :=
  ∀ i j, i ≤ j → j < n → p j = true → p i = true

/-- The search keeps the partition point in its range. -/
theorem searchBase_spec {p : Nat → Bool} {n : Nat} (hp : Partitioned p n) (fuel size base : Nat)
    (hfuel : size ≤ fuel + 1) (hsize : 0 < size) (hend : base + size ≤ n)
    (hbelow : ∀ i < base, p i = true) (habove : ∀ i, base + size ≤ i → i < n → p i = false) :
    searchBase p fuel size base < n ∧ (∀ i < searchBase p fuel size base, p i = true) ∧
      ∀ i, searchBase p fuel size base < i → i < n → p i = false := by
  induction fuel generalizing size base with
  | zero =>
      refine ⟨by rw [searchBase]; omega, hbelow, fun i hi => habove i ?_⟩
      rw [searchBase] at hi
      omega
  | succ fuel ih =>
      rw [searchBase]
      split_ifs with hone hmid
      · exact ⟨by omega, hbelow, fun i hi => habove i (by omega)⟩
      · refine ih _ _ (by omega) (by omega) (by omega) (fun i hi => ?_) (fun i hi => ?_)
        · exact hp i _ hi.le (by omega) hmid
        · exact habove i (by omega)
      · refine ih _ _ (by omega) (by omega) (by omega) hbelow (fun i hi hin => ?_)
        by_contra hpi
        exact hmid (hp _ i (by omega) hin (by simpa using hpi))

/-- The search stays in its range, whatever the predicate. -/
theorem searchBase_lt (p : Nat → Bool) (fuel size base : Nat) (hsize : 0 < size) :
    searchBase p fuel size base < base + size := by
  induction fuel generalizing size base with
  | zero =>
      rw [searchBase]
      omega
  | succ fuel ih =>
      rw [searchBase]
      split_ifs with hone hmid
      · omega
      · have hlt := ih (size - size / 2) (base + size / 2) (by omega)
        omega
      · have hlt := ih (size - size / 2) base (by omega)
        omega

theorem partitionPoint_le (p : Nat → Bool) (n : Nat) : partitionPoint p n ≤ n := by
  unfold partitionPoint
  split_ifs with hzero
  · exact Nat.zero_le n
  · have hlt := searchBase_lt p n n 0 (by omega)
    dsimp only
    split_ifs <;> omega

theorem partitionPoint_spec {p : Nat → Bool} {n : Nat} (hp : Partitioned p n) :
    partitionPoint p n ≤ n ∧ (∀ i < partitionPoint p n, p i = true) ∧
      ∀ i, partitionPoint p n ≤ i → i < n → p i = false := by
  unfold partitionPoint
  by_cases hzero : n = 0
  · rw [if_pos hzero]
    exact ⟨by omega, by omega, by omega⟩
  · obtain ⟨hlt, hbelow, habove⟩ := searchBase_spec hp n n 0 (by omega) (by omega) (by omega)
      (by omega) (by omega)
    rw [if_neg hzero]
    by_cases hbase : p (searchBase p n n 0) = true
    · simp only [if_pos hbase]
      refine ⟨hlt, fun i hi => ?_, fun i hi => habove i hi⟩
      rcases Nat.lt_succ_iff_lt_or_eq.mp hi with hi | rfl
      · exact hbelow i hi
      · exact hbase
    · simp only [if_neg hbase]
      refine ⟨hlt.le, hbelow, fun i hi hin => ?_⟩
      rcases Nat.eq_or_lt_of_le hi with rfl | hi
      · simpa using hbase
      · exact habove i hi hin

/-- The partition point is the index at which the predicate first fails. -/
theorem partitionPoint_eq {p : Nat → Bool} {n i : Nat} (hp : Partitioned p n) (hi : i < n)
    (hbelow : ∀ j < i, p j = true) (hfails : p i = false) : partitionPoint p n = i := by
  obtain ⟨hle, htrue, hfalse⟩ := partitionPoint_spec hp
  rcases Nat.lt_trichotomy (partitionPoint p n) i with hlt | heq | hgt
  · have hholds := hbelow _ hlt
    rw [hfalse _ le_rfl (hlt.trans hi)] at hholds
    cases hholds
  · exact heq
  · rw [htrue i hgt] at hfails
    cases hfails

end BinarySearch
