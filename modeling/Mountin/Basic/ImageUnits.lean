import Mountin.Basic.Splice

set_option autoImplicit false

/-! # Units of an image

An image of a fixed length has units of one size that do not overlap. Data are laid down along a
chain of units, a part of them in each, and are read back along it.

* `write_spec` : what laying data down leaves in the image.
* `Stored.read` : the units of a chain, one after the other, begin with the data.
-/

/-- The units of an image: their size, and where each of them begins. -/
structure ImageUnits where
  size : Nat
  limit : Nat
  off : Nat → Nat
  Valid : Nat → Prop
  room : ∀ {u : Nat}, Valid u → off u + size ≤ limit
  apart : ∀ {u v : Nat}, Valid u → Valid v → u ≠ v → off u + size ≤ off v ∨ off v + size ≤ off u

namespace List

variable {α : Type}

/-- A window is its elements. -/
theorem slice_congr {a b : List α} {p n : Nat} (h : ∀ i, p ≤ i → i < p + n → a[i]? = b[i]?) :
    a.slice p n = b.slice p n := by
  apply ext_getElem?
  intro i
  rw [getElem?_slice, getElem?_slice]
  by_cases hi : i < n
  · rw [if_pos hi, if_pos hi, h (p + i) (by omega) (by omega)]
  · rw [if_neg hi, if_neg hi]

end List

namespace ImageUnits

variable {α : Type} (m : ImageUnits)

/-- The loop over a chain: each unit takes the next part of the data. -/
def write : List Nat → List α → List α → List α
  | [], _, image => image
  | u :: rest, data, image =>
      write rest (data.drop m.size) (image.splice (m.off u) (data.take m.size))

/-- A position lies outside a unit. -/
def Outside (u i : Nat) : Prop := i < m.off u ∨ m.off u + m.size ≤ i

/-- The parts of the data are in the units of a chain. -/
def Stored (image : List α) : List Nat → List α → Prop
  | [], _ => True
  | u :: rest, data =>
      image.slice (m.off u) (data.take m.size).length = data.take m.size ∧
        Stored image rest (data.drop m.size)

/-- A chain has the length for its data: no unit more than they need, but one at least. -/
structure Fits (chain : List Nat) (n : Nat) : Prop where
  ne_nil : chain ≠ []
  enough : n ≤ chain.length * m.size
  needed : chain.length = 1 ∨ (chain.length - 1) * m.size < n

variable {m} {image image' data : List α} {chain : List Nat} {u : Nat}

theorem Stored.congr (h : m.Stored image chain data)
    (hsame : ∀ u ∈ chain, ∀ i, m.off u ≤ i → i < m.off u + m.size → image'[i]? = image[i]?) :
    m.Stored image' chain data := by
  induction chain generalizing data with
  | nil => trivial
  | cons u rest ih =>
      rw [List.forall_mem_cons] at hsame
      refine ⟨?_, ih h.2 hsame.2⟩
      rw [List.slice_congr fun i hlo hhi => hsame.1 i hlo ?_]
      · exact h.1
      · rw [List.length_take] at hhi
        omega

theorem outside_of_ne {v i : Nat} (hu : m.Valid u) (hv : m.Valid v) (hne : u ≠ v)
    (hlo : m.off v ≤ i) (hhi : i < m.off v + m.size) : m.Outside u i := by
  have happart := m.apart hu hv hne
  unfold Outside
  omega

/-- Laying data down keeps the length, changes nothing outside the chain, and stores the data. -/
theorem write_spec (data : List α) {image : List α} (hlen : image.length = m.limit)
    (hnodup : chain.Nodup) (hvalid : ∀ u ∈ chain, m.Valid u) :
    (m.write chain data image).length = m.limit ∧
      (∀ i, (∀ u ∈ chain, m.Outside u i) → (m.write chain data image)[i]? = image[i]?) ∧
      m.Stored (m.write chain data image) chain data := by
  induction chain generalizing data image with
  | nil => exact ⟨hlen, fun _ _ => rfl, trivial⟩
  | cons u rest ih =>
      rw [List.nodup_cons] at hnodup
      rw [List.forall_mem_cons] at hvalid
      have hroom := m.room hvalid.1
      have hpart : (data.take m.size).length ≤ m.size := List.length_take_le _ _
      have hsplice : (image.splice (m.off u) (data.take m.size)).length = m.limit := by
        rw [List.length_splice (by omega), hlen]
      obtain ⟨hlength, hframe, hstored⟩ := ih (data.drop m.size) hsplice hnodup.2 hvalid.2
      refine ⟨hlength, fun i hi => ?_, ?_, hstored⟩
      · rw [List.forall_mem_cons] at hi
        have hout := hi.1
        unfold Outside at hout
        refine (hframe i hi.2).trans ?_
        rw [List.getElem?_splice (by omega), if_neg (by omega)]
      · -- the other units of the chain do not meet this one
        have hsame : (m.write rest (data.drop m.size)
            (image.splice (m.off u) (data.take m.size))).slice (m.off u) (data.take m.size).length
              = (image.splice (m.off u) (data.take m.size)).slice (m.off u)
                (data.take m.size).length := by
          refine List.slice_congr fun i hlo hhi => hframe i fun v hv => ?_
          have hne : v ≠ u := fun heq => hnodup.1 (heq ▸ hv)
          exact outside_of_ne (hvalid.2 v hv) hvalid.1 hne hlo (by omega)
        exact hsame.trans (List.slice_splice_self (by omega) rfl)

theorem Fits.tail {n v : Nat} {rest : List Nat} (h : m.Fits (u :: v :: rest) n) :
    m.size < n ∧ m.Fits (v :: rest) (n - m.size) := by
  obtain ⟨-, henough, hneeded⟩ := h
  simp only [List.length_cons, Nat.add_sub_cancel, Nat.succ_mul] at henough hneeded
  have hmore : (rest.length + 1) * m.size < n := by
    rcases hneeded with hone | hmore
    · omega
    · rwa [Nat.succ_mul]
  rw [Nat.succ_mul] at hmore
  refine ⟨by omega, List.cons_ne_nil _ _, ?_, .inr ?_⟩
  · rw [List.length_cons, Nat.succ_mul]
    omega
  · rw [List.length_cons, Nat.add_sub_cancel]
    omega

/-- A window of the last unit begins with the rest of the data. -/
theorem Stored.read_last {n : Nat} (h : m.Stored image [u] data) (hdata : data.length ≤ n)
    (hsize : n ≤ m.size) : (image.slice (m.off u) n).take data.length = data := by
  have hwhole : data.take m.size = data := List.take_of_length_le (by omega)
  have hslice := h.1
  rw [hwhole] at hslice
  rw [List.slice, List.take_take, Nat.min_eq_left hdata]
  exact hslice

/-- A full unit, and what begins with the rest of the data. -/
theorem Stored.read_cons {rest : List Nat} {tail : List α} (h : m.Stored image (u :: rest) data)
    (hfull : m.size ≤ data.length)
    (htail : tail.take (data.length - m.size) = data.drop m.size) :
    (image.slice (m.off u) m.size ++ tail).take data.length = data := by
  have hlen : (data.take m.size).length = m.size := by
    rw [List.length_take]
    omega
  have hslice := h.1
  rw [hlen] at hslice
  rw [hslice, List.take_append, hlen, htail, List.take_of_length_le (by omega),
    List.take_append_drop]

/-- The units of a chain begin with the data. -/
theorem Stored.read (h : m.Stored image chain data) (hfits : m.Fits chain data.length) :
    (chain.flatMap fun u => image.slice (m.off u) m.size).take data.length = data := by
  induction chain generalizing data with
  | nil => exact absurd rfl hfits.ne_nil
  | cons u rest ih =>
      rw [List.flatMap_cons]
      cases rest with
      | nil =>
          rw [List.flatMap_nil, List.append_nil]
          have henough := hfits.enough
          rw [List.length_singleton, Nat.one_mul] at henough
          exact h.read_last henough (Nat.le_refl _)
      | cons v rest =>
          obtain ⟨hfull, htail⟩ := hfits.tail
          refine h.read_cons (Nat.le_of_lt hfull) ?_
          have hrest := ih h.2 (by rwa [List.length_drop])
          rwa [List.length_drop] at hrest

/-- As many units as the data need. -/
theorem fits_of_length {n : Nat} (hsize : 0 < m.size)
    (hlen : chain.length = max 1 ((n + (m.size - 1)) / m.size)) : m.Fits chain n := by
  have hdiv := Nat.div_add_mod (n + (m.size - 1)) m.size
  have hmod := Nat.mod_lt (n + (m.size - 1)) hsize
  rw [Nat.mul_comm] at hdiv
  generalize (n + (m.size - 1)) / m.size = q at hlen hdiv
  generalize (n + (m.size - 1)) % m.size = r at hdiv hmod
  rcases Nat.lt_or_ge q 2 with hq | hq
  · have hone : chain.length = 1 := by omega
    refine ⟨fun hnil => ?_, ?_, .inl hone⟩
    · rw [hnil] at hone
      cases hone
    · have hle : q * m.size ≤ 1 * m.size := Nat.mul_le_mul_right _ (by omega)
      rw [hone]
      omega
  · obtain ⟨k, rfl⟩ : ∃ k, q = k + 1 := ⟨q - 1, by omega⟩
    rw [Nat.max_eq_right (by omega)] at hlen
    rw [Nat.succ_mul] at hdiv
    refine ⟨fun hnil => ?_, ?_, .inr ?_⟩
    · rw [hnil] at hlen
      cases hlen
    · rw [hlen, Nat.succ_mul]
      omega
    · rw [hlen, Nat.add_sub_cancel]
      omega

end ImageUnits
