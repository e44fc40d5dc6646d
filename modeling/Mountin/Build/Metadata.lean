import Mountin.Basic.Dict

set_option autoImplicit false

/-! # Catalogue metadata

The front matter of a catalogue entry is a YAML value. `merge_meta` lays one mapping over
another, `output_meta` lays the metadata of one output over the metadata of its provider.
-/

namespace Mountin

/-- The exceptions that the build system raises, with the text of those that carry one. -/
inductive Raised where
  | keyError (text : String)
  | valueError (text : String)
  | typeError
  | attributeError
  | recursionError
  | osError
deriving DecidableEq, Repr

/-- A value that `yaml.safe_load` returns. -/
inductive Yaml where
  | null
  | bool (b : Bool)
  | int (n : Int)
  | str (s : String)
  | list (items : List Yaml)
  | dict (entries : List (String × Yaml))

/-- A mapping of metadata. -/
abbrev Metadata := Dict String Yaml

namespace Yaml

/-- The truth value of an object. -/
def truthy : Yaml → Bool
  | .null => false
  | .bool b => b
  | .int n => n != 0
  | .str s => !s.isEmpty
  | .list items => !items.isEmpty
  | .dict entries => !entries.isEmpty

/-- A list item where a name is wanted. -/
def name : Yaml → Except Raised String
  | .str s => .ok s
  | _ => .error .typeError

/-- What iterating over the value gives: the keys of a mapping, the items of a list, the
characters of a string. -/
def names : Yaml → Except Raised (List String)
  | .dict entries => .ok (Dict.keys entries)
  | .list items => items.mapM name
  | .str s => .ok (s.toList.map fun c => String.ofList [c])
  | _ => .error .typeError

/-- `name in value`. -/
def contains (value : Yaml) (s : Option String) : Except Raised Bool :=
  match value, s with
  | .dict entries, s => .ok ((Dict.keys entries).any fun k => some k == s)
  | .list items, s => do return (← items.mapM name).any fun k => some k == s
  | .str text, some s => .ok (text.toList.tails.any fun t => s.toList.isPrefixOf t)
  | _, _ => .error .typeError

/-- `value.get(name, {})`, of a value that has to be a mapping. -/
def entry (value : Yaml) (s : String) : Except Raised Yaml :=
  match value with
  | .dict entries => .ok (Dict.getD entries s (.dict []))
  | _ => .error .attributeError

mutual

/-- How deep merging can go into a value; a list counts as the mapping it is normalized to. -/
def depth : Yaml → Nat
  | .list items => depthItems items + 2
  | .dict entries => depthEntries entries + 1
  | _ => 0

def depthItems : List Yaml → Nat
  | [] => 0
  | item :: rest => max item.depth (depthItems rest)

def depthEntries : List (String × Yaml) → Nat
  | [] => 0
  | (_, value) :: rest => max value.depth (depthEntries rest)

end

theorem depth_le_depthEntries {entries : List (String × Yaml)} {e : String × Yaml}
    (h : e ∈ entries) : e.2.depth ≤ depthEntries entries := by
  induction entries with
  | nil => simp at h
  | cons e' rest ih =>
      rw [depthEntries]
      rcases List.mem_cons.mp h with rfl | hmem
      · exact Nat.le_max_left _ _
      · exact Nat.le_trans (ih hmem) (Nat.le_max_right _ _)

theorem depthEntries_set_le (d : Metadata) (k : String) (v : Yaml) :
    depthEntries (d.set k v) ≤ max (depthEntries d) v.depth := by
  induction d with
  | nil => simp [Dict.set, depthEntries]
  | cons e rest ih =>
      unfold Dict.set
      split
      · simp only [depthEntries]
        omega
      · simp only [depthEntries]
        omega

end Yaml

/-- One item of a list to normalize: a name maps to an empty mapping, a mapping is merged in. -/
def normalizeItem (result : Metadata) : Yaml → Metadata
  | .str s => result.set s (.dict [])
  | .dict entries => Dict.update result entries
  | _ => result

/-- `normalize_list`. -/
def normalizeList (items : List Yaml) : Metadata := items.foldl normalizeItem []

namespace Yaml

theorem depthEntries_update_le (result item : Metadata) :
    depthEntries (Dict.update result item) ≤ max (depthEntries result) (depthEntries item) := by
  induction item generalizing result with
  | nil => exact Nat.le_max_left _ _
  | cons e rest ih =>
      have hstep := depthEntries_set_le result e.1 e.2
      have hrest := ih (Dict.set result e.1 e.2)
      simp only [Dict.update, List.foldl_cons, depthEntries] at hrest ⊢
      omega

/-- Normalizing a list makes no deeper value of it. -/
theorem depthEntries_normalizeList_le (items : List Yaml) :
    depthEntries (normalizeList items) ≤ depthItems items + 1 := by
  suffices h : ∀ (items : List Yaml) (result : Metadata) (n : Nat), depthEntries result ≤ n + 1 →
      depthItems items ≤ n → depthEntries (items.foldl normalizeItem result) ≤ n + 1 from
    h items [] _ (Nat.zero_le _) (Nat.le_refl _)
  intro items
  induction items with
  | nil => exact fun result n h _ => h
  | cons item rest ih =>
      intro result n hresult hitems
      rw [depthItems] at hitems
      rw [List.foldl_cons]
      apply ih _ _ _ (by omega)
      cases item with
      | str s =>
          have := depthEntries_set_le result s (.dict [])
          simp only [depth, depthEntries] at this
          show depthEntries (Dict.set result s (.dict [])) ≤ n + 1
          omega
      | dict entries =>
          have := depthEntries_update_le result entries
          simp only [depth] at hitems
          show depthEntries (Dict.update result entries) ≤ n + 1
          omega
      | null | bool | int | list => exact hresult

/-- A value as `merge_meta` compares it: a list stands for a mapping. -/
def normalized : Yaml → Yaml
  | .list items => .dict (normalizeList items)
  | value => value

theorem depth_normalized_le (value : Yaml) : value.normalized.depth ≤ value.depth := by
  cases value with
  | list items =>
      have := depthEntries_normalizeList_le items
      simp only [normalized, depth]
      omega
  | null | bool | int | str | dict => exact Nat.le_refl _

end Yaml

/-- A key that deletes the key after its dash. -/
def isMarker (key : String) : Bool := key.toList.head? == some '-'

/-- The keys that the markers of a mapping delete. -/
def deletions (child : Metadata) : List String :=
  (child.keys.filter fun key => isMarker key).map fun key => String.ofList key.toList.tail

/-- `merge_meta`. -/
def mergeMeta (no_inherit no_merge : List String) (parent child : Metadata) : Metadata :=
  let inherited := parent.filter fun e => !(deletions child).contains e.1 && !no_inherit.contains e.1
  child.attach.foldl (fun result e =>
    if isMarker e.1.1 then result
    else if no_merge.contains e.1.1 then result.set e.1.1 e.1.2
    else
      match _h : e.1.2.normalized, (result.get? e.1.1).map Yaml.normalized with
      | .dict value, some (.dict parent_val) =>
          result.set e.1.1 (.dict (mergeMeta no_inherit no_merge parent_val value))
      | value, _ => result.set e.1.1 value) inherited
termination_by Yaml.depthEntries child
decreasing_by
  have hle := Yaml.depth_normalized_le e.1.2
  have hmem := Yaml.depth_le_depthEntries e.2
  rw [_h, Yaml.depth] at hle
  omega

/-- A resolved variant of a provider, as `resolve_provider_instances` lists it. -/
structure Instance where
  id : String
  provider : String
  output_platform : Option String
  context : Dict String String
  metadata : Metadata

/-- `output_meta`. -/
def outputMeta (inst : Instance) (output : String) : Except Raised Metadata := do
  let provides := inst.metadata.getD "provides" (.dict [])
  let specific ← provides.entry output
  if specific.truthy then
    match specific with
    | .dict child => return mergeMeta [] [] inst.metadata child
    | _ => .error .attributeError
  else return inst.metadata

/-- The names that an output requires. -/
def requirements (inst : Instance) (output : String) : Except Raised (List String) := do
  let m ← outputMeta inst output
  (m.getD "requires" (.dict [])).names

end Mountin
