import Mountin.Basic.Dict

set_option autoImplicit false

/-! # Restricting and mapping dictionaries

Dropping the entries of some keys, and changing values in their place, commute with writing.

* `Dict.only` : the entries of the keys that are kept.
* `Dict.mapValues` : the same keys, with other values.
-/

namespace Dict

variable {κ α β : Type} [DecidableEq κ] {keep : κ → Bool}

/-- The entries of the keys that are kept. -/
def only (keep : κ → Bool) (d : Dict κ α) : Dict κ α := d.filter fun e => keep e.1

/-- The same keys, with the values that `f` makes of the entries. -/
def mapValues (f : κ → α → β) (d : Dict κ α) : Dict κ β := d.map fun e => (e.1, f e.1 e.2)

omit [DecidableEq κ] in
theorem only_cons (e : κ × α) (d : Dict κ α) :
    only keep (e :: d) = if keep e.1 then e :: only keep d else only keep d := by
  unfold only
  rw [List.filter_cons]

theorem only_set_of_keep {k : κ} (h : keep k = true) (d : Dict κ α) (v : α) :
    only keep (d.set k v) = (only keep d).set k v := by
  induction d with
  | nil => simp [set, only, h]
  | cons e rest ih =>
      rcases e with ⟨k', v'⟩
      by_cases heq : k' = k
      · subst heq
        simp [set, only_cons, h]
      · by_cases hk' : keep k' = true <;> simp [set, only_cons, heq, hk', ih]

theorem only_set_of_drop {k : κ} (h : keep k = false) (d : Dict κ α) (v : α) :
    only keep (d.set k v) = only keep d := by
  induction d with
  | nil => simp [set, only, h]
  | cons e rest ih =>
      rcases e with ⟨k', v'⟩
      by_cases heq : k' = k
      · subst heq
        simp [set, only_cons, h]
      · by_cases hk' : keep k' = true <;> simp [set, only_cons, heq, hk', ih]

theorem only_update (d item : Dict κ α) :
    only keep (d.update item) = (only keep d).update (only keep item) := by
  induction item generalizing d with
  | nil => rfl
  | cons e rest ih =>
      have hrest := ih (d.set e.1 e.2)
      rw [only_cons]
      by_cases h : keep e.1 = true
      · rw [only_set_of_keep h] at hrest
        rw [if_pos h]
        exact hrest
      · rw [Bool.not_eq_true] at h
        rw [only_set_of_drop h] at hrest
        rw [if_neg (by simp [h])]
        exact hrest

theorem get?_only {k : κ} (h : keep k = true) (d : Dict κ α) :
    (only keep d).get? k = d.get? k := by
  induction d with
  | nil => rfl
  | cons e rest ih =>
      rcases e with ⟨k', v'⟩
      rw [only_cons]
      by_cases hk' : keep k' = true
      · rw [if_pos hk', get?_cons, get?_cons, ih]
      · have hne : k' ≠ k := fun heq => hk' (heq ▸ h)
        rw [if_neg hk', get?_cons, if_neg hne, ih]

theorem mapValues_set (f : κ → α → β) (d : Dict κ α) (k : κ) (v : α) :
    mapValues f (d.set k v) = (mapValues f d).set k (f k v) := by
  induction d with
  | nil => rfl
  | cons e rest ih =>
      rcases e with ⟨k', v'⟩
      simp only [mapValues, List.map_cons, set] at ih ⊢
      by_cases heq : k' = k
      · subst heq
        simp
      · simp [heq, ih]

theorem mapValues_update (f : κ → α → β) (d item : Dict κ α) :
    mapValues f (d.update item) = (mapValues f d).update (mapValues f item) := by
  induction item generalizing d with
  | nil => rfl
  | cons e rest ih =>
      have hrest := ih (d.set e.1 e.2)
      rw [mapValues_set] at hrest
      exact hrest

theorem get?_mapValues (f : κ → α → β) (d : Dict κ α) (k : κ) :
    (mapValues f d).get? k = (d.get? k).map (f k) := by
  induction d with
  | nil => rfl
  | cons e rest ih =>
      rcases e with ⟨k', v'⟩
      simp only [mapValues, List.map_cons, get?_cons] at ih ⊢
      by_cases heq : k' = k
      · subst heq
        simp
      · simp [heq, ih]

theorem nodup_keys_update {d : Dict κ α} (hd : d.keys.Nodup) (item : Dict κ α) :
    (d.update item).keys.Nodup := by
  induction item generalizing d with
  | nil => exact hd
  | cons e rest ih => exact ih (nodup_keys_set hd e.1 e.2)

/-- What an update has comes from either. -/
theorem mem_of_get?_update {d item : Dict κ α} {k : κ} {v : α}
    (h : (d.update item).get? k = some v) : d.get? k = some v ∨ (k, v) ∈ item := by
  induction item generalizing d with
  | nil => exact .inl h
  | cons e rest ih =>
      rcases ih (d := d.set e.1 e.2) h with hset | hmem
      · rw [get?_set] at hset
        split at hset
        · rename_i heq
          exact .inr (List.mem_cons.mpr (.inl (Prod.ext heq.symm (Option.some.inj hset).symm)))
        · exact .inl hset
      · exact .inr (List.mem_cons_of_mem _ hmem)

theorem get?_update_of_notMem {d item : Dict κ α} {k : κ} (h : k ∉ item.keys) :
    (d.update item).get? k = d.get? k := by
  induction item generalizing d with
  | nil => rfl
  | cons e rest ih =>
      rw [keys, List.map_cons, List.mem_cons, not_or] at h
      exact (ih (d := d.set e.1 e.2) h.2).trans (get?_set_of_ne _ _ (Ne.symm h.1))

/-- An update has what is written last. -/
theorem get?_update_of_get? {d item : Dict κ α} (hitem : item.keys.Nodup) {k : κ} {v : α}
    (h : item.get? k = some v) : (d.update item).get? k = some v := by
  induction item generalizing d with
  | nil => cases h
  | cons e rest ih =>
      rcases e with ⟨k', v'⟩
      rw [keys, List.map_cons, List.nodup_cons] at hitem
      rw [get?_cons] at h
      split at h
      · rename_i heq
        subst heq
        have hlater := get?_update_of_notMem (d := d.set k' v') hitem.1
        rw [get?_set_self, h] at hlater
        exact hlater
      · exact ih (d := d.set k' v') hitem.2 h

omit [DecidableEq κ] in
@[simp] theorem keys_mapValues (f : κ → α → β) (d : Dict κ α) : (mapValues f d).keys = d.keys := by
  simp [keys, mapValues]

end Dict
