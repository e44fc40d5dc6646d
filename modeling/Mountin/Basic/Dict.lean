import Mathlib.Data.List.Nodup
import Mathlib.Data.List.Perm.Basic

set_option autoImplicit false

/-! # Dictionaries in insertion order

A dictionary is the list of its entries, oldest first: setting a key that is there changes the
value in its place, setting a new key appends.

* `Dict.get?_set` : what a lookup sees after a write.
* `Dict.keys_set_of_mem` : overwriting keeps the keys and their order.
* `Dict.get?_perm` : lookups do not see the order of the entries.
-/

/-- A dictionary: entries in insertion order. -/
abbrev Dict (κ α : Type) := List (κ × α)

namespace Dict

variable {κ α β : Type} [DecidableEq κ]

/-- The keys, in insertion order. -/
def keys (d : Dict κ α) : List κ := d.map Prod.fst

/-- The value of a key. -/
def get? : Dict κ α → κ → Option α
  | [], _ => none
  | (k', v) :: rest, k => if k' = k then some v else get? rest k

/-- The value of a key, or a default. -/
def getD (d : Dict κ α) (k : κ) (default : α) : α := (d.get? k).getD default

/-- Writes the value of a key. -/
def set : Dict κ α → κ → α → Dict κ α
  | [], k, v => [(k, v)]
  | (k', v') :: rest, k, v => if k' = k then (k, v) :: rest else (k', v') :: set rest k v

/-- `d.update(item)`: writes the entries of `item`. -/
def update (d item : Dict κ α) : Dict κ α := item.foldl (fun d e => set d e.1 e.2) d

@[simp] theorem get?_nil (k : κ) : get? ([] : Dict κ α) k = none := rfl

theorem get?_cons (k' k : κ) (v : α) (d : Dict κ α) :
    get? ((k', v) :: d) k = if k' = k then some v else get? d k := rfl

theorem mem_of_get?_eq_some {d : Dict κ α} {k : κ} {v : α} (h : d.get? k = some v) :
    (k, v) ∈ d := by
  induction d with
  | nil => simp at h
  | cons e rest ih =>
      rcases e with ⟨k', v'⟩
      rw [get?_cons] at h
      split at h
      · rename_i heq
        obtain rfl := Option.some.inj h
        rw [heq]
        exact List.mem_cons_self
      · exact List.mem_cons_of_mem _ (ih h)

theorem get?_eq_none_iff {d : Dict κ α} {k : κ} : d.get? k = none ↔ k ∉ d.keys := by
  induction d with
  | nil => simp [keys]
  | cons e rest ih =>
      rcases e with ⟨k', v'⟩
      rw [get?_cons, keys, List.map_cons, List.mem_cons, not_or, ← keys]
      split
      · rename_i heq
        simp [heq]
      · rename_i hne
        rw [ih]
        exact ⟨fun h => ⟨fun h' => hne h'.symm, h⟩, fun h => h.2⟩

theorem isSome_get?_iff {d : Dict κ α} {k : κ} : (d.get? k).isSome ↔ k ∈ d.keys := by
  rw [← not_iff_not, ← get?_eq_none_iff]
  cases d.get? k <;> simp

theorem exists_get?_iff {d : Dict κ α} {k : κ} : (∃ v, d.get? k = some v) ↔ k ∈ d.keys := by
  rw [← isSome_get?_iff, Option.isSome_iff_exists]

theorem mem_keys_of_get?_eq_some {d : Dict κ α} {k : κ} {v : α} (h : d.get? k = some v) :
    k ∈ d.keys :=
  exists_get?_iff.mp ⟨v, h⟩

/-- With distinct keys the entries are the lookups. -/
theorem get?_eq_some_iff {d : Dict κ α} (hd : d.keys.Nodup) {k : κ} {v : α} :
    d.get? k = some v ↔ (k, v) ∈ d := by
  refine ⟨mem_of_get?_eq_some, fun h => ?_⟩
  induction d with
  | nil => simp at h
  | cons e rest ih =>
      rcases e with ⟨k', v'⟩
      rw [keys, List.map_cons, List.nodup_cons, ← keys] at hd
      rw [get?_cons]
      rcases List.mem_cons.mp h with heq | hmem
      · simp [(Prod.mk.inj heq).1, (Prod.mk.inj heq).2]
      · have hk : k ∈ keys rest := List.mem_map.mpr ⟨_, hmem, rfl⟩
        have hne : k' ≠ k := fun heq => hd.1 (heq ▸ hk)
        rw [if_neg hne]
        exact ih hd.2 hmem

/-- Lookups do not see the order of the entries. -/
theorem get?_perm {d d' : Dict κ α} (hp : d.Perm d') (hd : d.keys.Nodup) (k : κ) :
    d.get? k = d'.get? k := by
  have hd' : d'.keys.Nodup := (hp.map Prod.fst).nodup_iff.mp hd
  ext v
  rw [get?_eq_some_iff hd, get?_eq_some_iff hd', hp.mem_iff]

theorem get?_set (d : Dict κ α) (k k' : κ) (v : α) :
    (d.set k v).get? k' = if k = k' then some v else d.get? k' := by
  induction d with
  | nil => rfl
  | cons e rest ih =>
      rcases e with ⟨k₀, v₀⟩
      unfold set
      split
      · rename_i heq
        rw [get?_cons, get?_cons, heq]
        by_cases h : k = k' <;> simp [h]
      · rename_i hne
        rw [get?_cons, get?_cons, ih]
        by_cases h : k₀ = k'
        · have : k ≠ k' := fun h' => hne (h.trans h'.symm)
          simp [h, this]
        · simp [h]

@[simp] theorem get?_set_self (d : Dict κ α) (k : κ) (v : α) : (d.set k v).get? k = some v := by
  rw [get?_set, if_pos rfl]

theorem get?_set_of_ne (d : Dict κ α) {k k' : κ} (v : α) (h : k ≠ k') :
    (d.set k v).get? k' = d.get? k' := by
  rw [get?_set, if_neg h]

/-- An entry after a write is the written one or was there. -/
theorem mem_of_mem_set {d : Dict κ α} {k : κ} {v : α} {e : κ × α} (h : e ∈ d.set k v) :
    e = (k, v) ∨ e ∈ d := by
  induction d with
  | nil => exact .inl (List.mem_singleton.mp h)
  | cons first rest ih =>
      rw [set] at h
      split_ifs at h
      · exact (List.mem_cons.mp h).imp_right (List.mem_cons_of_mem _)
      · rcases List.mem_cons.mp h with rfl | hrest
        · exact .inr List.mem_cons_self
        · exact (ih hrest).imp_right (List.mem_cons_of_mem _)

/-- Overwriting keeps the keys and their order. -/
theorem keys_set_of_mem {d : Dict κ α} {k : κ} (v : α) (h : k ∈ d.keys) :
    (d.set k v).keys = d.keys := by
  induction d with
  | nil => simp [keys] at h
  | cons e rest ih =>
      rcases e with ⟨k', v'⟩
      unfold set
      split
      · rename_i heq
        simp [keys, heq]
      · rename_i hne
        have hrest : k ∈ keys rest := by
          rcases List.mem_cons.mp h with heq | hmem
          · exact absurd heq.symm hne
          · exact hmem
        have := ih hrest
        simp only [keys, List.map_cons] at this ⊢
        rw [this]

/-- A new key goes to the end. -/
theorem set_of_notMem {d : Dict κ α} {k : κ} (v : α) (h : k ∉ d.keys) :
    d.set k v = d ++ [(k, v)] := by
  induction d with
  | nil => rfl
  | cons e rest ih =>
      rcases e with ⟨k', v'⟩
      rw [keys, List.map_cons, List.mem_cons, not_or, ← keys] at h
      unfold set
      rw [if_neg (fun heq => h.1 heq.symm), ih h.2, List.cons_append]

theorem keys_set_of_notMem {d : Dict κ α} {k : κ} (v : α) (h : k ∉ d.keys) :
    (d.set k v).keys = d.keys ++ [k] := by
  rw [set_of_notMem v h]
  simp [keys]

theorem mem_keys_set {d : Dict κ α} {k k' : κ} {v : α} :
    k' ∈ (d.set k v).keys ↔ k' = k ∨ k' ∈ d.keys := by
  rw [← isSome_get?_iff, ← isSome_get?_iff, get?_set]
  by_cases h : k = k'
  · simp [h]
  · simp [h, Ne.symm h]

theorem nodup_keys_set {d : Dict κ α} (hd : d.keys.Nodup) (k : κ) (v : α) :
    (d.set k v).keys.Nodup := by
  by_cases h : k ∈ d.keys
  · rwa [keys_set_of_mem v h]
  · rw [keys_set_of_notMem v h]
    rw [List.nodup_append]
    exact ⟨hd, by simp, fun a ha b hb => by
      rw [List.mem_singleton] at hb
      exact fun heq => h (hb ▸ heq ▸ ha)⟩

theorem update_of_nodup {d item : Dict κ α} (h : (d ++ item).keys.Nodup) :
    d.update item = d ++ item := by
  induction item generalizing d with
  | nil => rw [update, List.foldl_nil, List.append_nil]
  | cons e item ih =>
      have hkey : e.1 ∉ d.keys := by
        rw [keys, List.map_append, List.nodup_append] at h
        exact fun hmem => h.2.2 e.1 hmem e.1 (by simp) rfl
      have hset : d.set e.1 e.2 = d ++ [e] := set_of_notMem e.2 hkey
      have hrest := ih (d := d ++ [e]) (by rwa [List.append_assoc])
      rw [update, List.foldl_cons, hset, ← update, hrest, List.append_assoc]
      rfl

end Dict
