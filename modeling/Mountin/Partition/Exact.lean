import Mountin.Partition.Windows

set_option autoImplicit false

/-! # Exact extents

An entry of a partition table denotes an extent in exact numbers: where it starts and how long it
is. The children of a table are exact when there is one for each entry whose extent is not empty
and fits, with the numbers of its extent (`Exact`). Where the children are computed entry by entry
this is a matter of the single entries (`exact_iff`).
-/

namespace Mountin.Partition

/-- The extent is not empty and ends below `2^64`. -/
def Fits (extent : ℤ × ℤ) : Prop :=
  0 ≤ extent.1 ∧ 0 < extent.2 ∧ extent.1 + extent.2 < 2 ^ 64

instance : DecidablePred Fits := fun extent => by unfold Fits; infer_instance

/-- The offset of a child and its window. -/
def placed (w : Nat × Nat) : Nat × View := (w.1, .slice w.1 w.2)

/-- The numbers of an extent. -/
def numbers (extent : ℤ × ℤ) : Nat × Nat := (extent.1.toNat, extent.2.toNat)

/-- The children are the extents that fit, and no others. -/
def Exact (extents : List (ℤ × ℤ)) (kids : List Child) : Prop :=
  kids.map (fun kid => (kid.offset, kid.view)) =
    (extents.filter fun extent => decide (Fits extent)).map fun extent => placed (numbers extent)

/-- A window that a reader computes for an entry is the extent of the entry. -/
def Sound (extent : ℤ × ℤ) (computed : Option (Nat × Nat)) : Prop :=
  ∀ w ∈ computed, Fits extent ∧ w = numbers extent

theorem fits_natCast {a b : Nat} : Fits ((a : ℤ), (b : ℤ)) ↔ 0 < b ∧ a + b < 2 ^ 64 := by
  simp only [Fits]
  omega

/-- A window is sound when it has the numbers of the extent, and these fit. -/
theorem sound_natCast_iff {a b : Nat} {w : Nat × Nat} :
    Sound ((a : ℤ), (b : ℤ)) (some w) ↔ 0 < b ∧ a + b < 2 ^ 64 ∧ w = (a, b) := by
  simp only [Sound, Option.mem_def, Option.some.injEq, forall_eq', fits_natCast, and_assoc]
  rfl

theorem placed_injective : Function.Injective placed := by
  rintro ⟨start, length⟩ ⟨start', length'⟩ h
  simp only [placed, Prod.mk.injEq, View.slice.injEq] at h
  rw [h.1, h.2.2]

section

variable {E : Type} {denote : E → ℤ × ℤ} {compute : E → Option (Nat × Nat)} {entries : List E}

/-- A reader that skips no extent that fits computes at least as many windows. -/
theorem length_fits_le (hskip : ∀ e, compute e = none → ¬ Fits (denote e)) (entries : List E) :
    ((entries.map denote).filter fun extent => decide (Fits extent)).length ≤
      (entries.filterMap compute).length := by
  induction entries with
  | nil => exact Nat.le_refl _
  | cons e rest ih =>
      rw [List.map_cons, List.filter_cons]
      cases hcompute : compute e with
      | none =>
          rw [if_neg (by simpa using hskip e hcompute), List.filterMap_cons_none hcompute]
          exact ih
      | some w =>
          rw [List.filterMap_cons_some hcompute, List.length_cons]
          split
          · exact Nat.succ_le_succ ih
          · exact Nat.le_succ_of_le ih

/-- **Entry by entry.** The windows that are computed are exact when each of them is. -/
theorem windows_exact_iff (hskip : ∀ e, compute e = none → ¬ Fits (denote e)) :
    entries.filterMap compute =
        ((entries.map denote).filter fun extent => decide (Fits extent)).map numbers ↔
      ∀ e ∈ entries, Sound (denote e) (compute e) := by
  induction entries with
  | nil => simp
  | cons e rest ih =>
      rw [List.forall_mem_cons, ← ih, List.map_cons, List.filter_cons]
      cases hcompute : compute e with
      | none =>
          rw [if_neg (by simpa using hskip e hcompute), List.filterMap_cons_none hcompute]
          exact ⟨fun h => ⟨fun w hw => by simp at hw, h⟩, fun h => h.2⟩
      | some w =>
          rw [List.filterMap_cons_some hcompute]
          by_cases hfits : Fits (denote e)
          · rw [if_pos (by simpa using hfits), List.map_cons, List.cons.injEq]
            refine and_congr_left fun _ => ⟨fun h v hv => ?_, fun h => (h w rfl).2⟩
            exact ⟨hfits, Option.some.inj hv ▸ h⟩
          · rw [if_neg (by simpa using hfits)]
            constructor
            · -- a window for an extent that does not fit is one too many
              intro h
              have hlength := congrArg List.length h
              rw [List.length_cons, List.length_map] at hlength
              have := length_fits_le hskip rest
              omega
            · exact fun h => absurd (h.1 w rfl).1 hfits

/-- Children with the windows that are computed for the entries. -/
theorem exact_iff (hskip : ∀ e, compute e = none → ¬ Fits (denote e)) {kids : List Child}
    (hkids : kids.map (fun kid => (kid.offset, kid.view)) = (entries.filterMap compute).map placed) :
    Exact (entries.map denote) kids ↔ ∀ e ∈ entries, Sound (denote e) (compute e) := by
  have hsplit : ∀ extents : List (ℤ × ℤ), (extents.map fun extent => placed (numbers extent)) =
      (extents.map numbers).map placed := fun extents => by
    rw [List.map_map]
    rfl
  rw [← windows_exact_iff hskip, Exact, hkids, hsplit]
  exact (List.map_injective_iff.mpr placed_injective).eq_iff

end

/-- Children that are computed one by one. -/
theorem places_filterMap_window {E : Type} (index : E → Nat) (compute : E → Option (Nat × Nat))
    (entries : List E) :
    (entries.filterMap fun e => (compute e).map fun w => window (index e) w.1 w.2).map
        (fun kid => (kid.offset, kid.view)) = (entries.filterMap compute).map placed := by
  rw [List.map_filterMap, List.map_filterMap]
  refine List.filterMap_congr fun e _ => ?_
  rw [Option.map_map]
  rfl

/-- Children that are numbered. -/
theorem places_mapIdx_window {E : Type} (compute : E → Nat × Nat) (entries : List E) :
    (entries.mapIdx fun i e => window i (compute e).1 (compute e).2).map
        (fun kid => (kid.offset, kid.view)) =
      (entries.filterMap fun e => some (compute e)).map placed := by
  have hmap : (entries.filterMap fun e => some (compute e)) = entries.map compute :=
    congrFun (List.filterMap_eq_map (f := compute)) entries
  rw [hmap]
  apply List.ext_getElem?
  intro i
  rw [List.getElem?_map, List.getElem?_mapIdx, List.map_map, List.getElem?_map, Option.map_map]
  rfl

end Mountin.Partition
