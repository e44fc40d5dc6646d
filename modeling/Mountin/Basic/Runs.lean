import Mountin.Basic.Bytes

set_option autoImplicit false

/-! # Reads served in runs

A positional read of a list that may stop short: at each offset it serves at most a run of
elements. A caller that compares the count with the length it asked for sees the whole range
only when the range lies in one run (`Serves.full_iff`); a caller that goes on from where the
read stopped sees all of it (`take_append_slice`).
-/

namespace Runs

variable {α ε : Type}

/-- Reading at `off` serves the `run off` elements of `D` from `off` on, and no more. -/
def Serves (read : Nat → Nat → Except ε (List α)) (D : List α) (run : Nat → Nat) : Prop :=
  ∀ off len, read off len = .ok (D.slice off (min len (run off)))

theorem slice_eq_slice_iff (D : List α) (off a b : Nat) :
    D.slice off a = D.slice off b ↔ min a (D.length - off) = min b (D.length - off) := by
  constructor
  · intro h
    have hlen := congrArg List.length h
    rwa [List.length_slice, List.length_slice] at hlen
  · intro h
    rw [← List.slice_min_length D off a, h, List.slice_min_length]

variable {read : Nat → Nat → Except ε (List α)} {D : List α} {run : Nat → Nat}

/-- A read returns all the elements there are exactly when they lie in one run. -/
theorem Serves.full_iff (h : Serves read D run) (off len : Nat) :
    read off len = .ok (D.slice off len) ↔ min len (D.length - off) ≤ run off := by
  rw [h off len, Except.ok.injEq, slice_eq_slice_iff]
  omega

/-- A read comes back at the length asked for exactly when the range lies in the list and in
one run. -/
theorem length_served_iff (D : List α) (off len run : Nat) :
    (D.slice off (min len run)).length = len ↔
      len = 0 ∨ (off + len ≤ D.length ∧ len ≤ run) := by
  rw [List.length_slice]
  omega

/-- What was read up to `off`, with what a read at `off` serves, is what was read up to the
end of the latter. -/
theorem take_append_slice (D : List α) (off len : Nat) :
    D.take off ++ D.slice off len = D.take (off + len) := by
  rw [List.slice, ← List.take_add]

end Runs
