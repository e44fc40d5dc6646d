import Mountin.Basic.Bytes

set_option autoImplicit false

/-! # Writing into a list

`splice l off d` is `l` with the elements of `d` from position `off` on: what a copy into a
buffer leaves. A window of the result is `d`, or a window of `l` that the copy does not meet.
-/

namespace List

variable {α : Type}

/-- The list with `d` written over it at `off`. -/
def splice (l : List α) (off : Nat) (d : List α) : List α :=
  l.take off ++ d ++ l.drop (off + d.length)

theorem length_splice {l d : List α} {off : Nat} (h : off + d.length ≤ l.length) :
    (l.splice off d).length = l.length := by
  simp only [splice, length_append, length_take, length_drop]
  omega

theorem getElem?_splice {l d : List α} {off : Nat} (h : off ≤ l.length) (i : Nat) :
    (l.splice off d)[i]? = if off ≤ i ∧ i < off + d.length then d[i - off]? else l[i]? := by
  have htake : (l.take off).length = off := by
    rw [length_take]
    omega
  rw [splice, append_assoc, getElem?_append, htake]
  by_cases hlo : i < off
  · rw [if_pos hlo, getElem?_take_of_lt hlo, if_neg (by omega)]
  · rw [if_neg hlo, getElem?_append]
    by_cases hhi : i - off < d.length
    · rw [if_pos hhi, if_pos (by omega)]
    · rw [if_neg hhi, if_neg (by omega), getElem?_drop]
      congr 1
      omega

/-- A window within what was written. -/
theorem slice_splice_within {l d : List α} {off k n : Nat} (h : off ≤ l.length)
    (hk : k + n ≤ d.length) : (l.splice off d).slice (off + k) n = d.slice k n := by
  apply ext_getElem?
  intro i
  rw [getElem?_slice, getElem?_slice, getElem?_splice h]
  by_cases hi : i < n
  · rw [if_pos hi, if_pos hi, if_pos (by omega), Nat.add_assoc, Nat.add_sub_cancel_left]
  · rw [if_neg hi, if_neg hi]

/-- The window that was written. -/
theorem slice_splice_self {l d : List α} {off n : Nat} (h : off ≤ l.length)
    (hn : d.length = n) : (l.splice off d).slice off n = d := by
  subst hn
  have hwhole := slice_splice_within (k := 0) (n := d.length) (d := d) h (by omega)
  rw [Nat.add_zero] at hwhole
  exact hwhole.trans take_length

/-- A window that the copy does not meet. -/
theorem slice_splice_of_disjoint {l d : List α} {off p n : Nat} (h : off ≤ l.length)
    (hdisjoint : p + n ≤ off ∨ off + d.length ≤ p) :
    (l.splice off d).slice p n = l.slice p n := by
  apply ext_getElem?
  intro i
  rw [getElem?_slice, getElem?_slice, getElem?_splice h]
  by_cases hi : i < n
  · rw [if_pos hi, if_pos hi, if_neg (by omega)]
  · rw [if_neg hi, if_neg hi]

/-- Two copies next to each other are one. -/
theorem splice_splice_append {l d d' : List α} {off : Nat} (h : off + d.length ≤ l.length) :
    (l.splice off d).splice (off + d.length) d' = l.splice off (d ++ d') := by
  apply ext_getElem?
  intro i
  rw [getElem?_splice (by rw [length_splice h]; exact h), getElem?_splice (by omega),
    getElem?_splice (by omega), length_append]
  by_cases h1 : off + d.length ≤ i ∧ i < off + d.length + d'.length
  · rw [if_pos h1, if_pos (by omega), getElem?_append_right (by omega)]
    congr 1
    omega
  · rw [if_neg h1]
    by_cases h2 : off ≤ i ∧ i < off + d.length
    · rw [if_pos h2, if_pos (by omega), getElem?_append_left (by omega)]
    · rw [if_neg h2, if_neg (by omega)]

/-- An element of a list with one more element. -/
theorem getElem?_snoc {l : List α} {a b : α} {k : Nat} (h : (l ++ [a])[k]? = some b) :
    (k < l.length ∧ l[k]? = some b) ∨ (k = l.length ∧ b = a) := by
  rcases Nat.lt_or_ge k l.length with hk | hk
  · rw [getElem?_append_left hk] at h
    exact .inl ⟨hk, h⟩
  · have hlast : k = l.length := by
      have hlt := (getElem?_eq_some_iff.mp h).1
      rw [length_append, length_singleton] at hlt
      omega
    rw [hlast, getElem?_append_right (Nat.le_refl _), Nat.sub_self, getElem?_cons_zero] at h
    exact .inr ⟨hlast, (Option.some.inj h).symm⟩

/-- A window of equal elements. -/
theorem slice_replicate (a : α) {n off len : Nat} (h : off + len ≤ n) :
    (replicate n a).slice off len = replicate len a := by
  rw [slice, drop_replicate, take_replicate, Nat.min_eq_left (by omega)]

/-- A window within the first part. -/
theorem slice_append_left {a : List α} (b : List α) {k w : Nat} (h : k + w ≤ a.length) :
    (a ++ b).slice k w = a.slice k w := by
  rw [slice, drop_append_of_le_length (by omega), take_append_of_le_length, slice]
  rw [length_drop]
  omega

/-- A window of the second part. -/
theorem slice_append_right {a : List α} (b : List α) {n : Nat} (h : a.length = n) (k w : Nat) :
    (a ++ b).slice (n + k) w = b.slice k w := by
  rw [slice, ← drop_drop, drop_left' h, slice]

/-- The window of the middle part. -/
theorem slice_append_mid {a b : List α} (c : List α) {n m : Nat} (ha : a.length = n)
    (hb : b.length = m) : (a ++ b ++ c).slice n m = b := by
  subst ha hb
  rw [slice, append_assoc, drop_left, take_left]

/-- The length of some parts of one length. -/
theorem length_flatten_of_length {l : List (List α)} {n : Nat} (h : ∀ a ∈ l, a.length = n) :
    l.flatten.length = l.length * n := by
  induction l with
  | nil => simp
  | cons a l ih =>
      rw [flatten_cons, length_append, h a mem_cons_self, ih fun b hb => h b (mem_cons_of_mem _ hb),
        length_cons, Nat.succ_mul, Nat.add_comm]

end List
