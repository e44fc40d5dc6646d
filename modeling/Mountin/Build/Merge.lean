import Mountin.Basic.Restrict
import Mountin.Build.Metadata

set_option autoImplicit false

/-! # Merging metadata

`merge_meta` goes through the keys of the child one after the other, and each changes its own key
only.

* `mergeMeta_eq` : a merge is a fold over the entries of the child.
* `only_mergeMeta` : what is merged at some keys depends on these keys alone.
* `get?_mergeMeta` : what is merged at a key.
-/

namespace Mountin

section

variable (no_inherit no_merge : List String)

/-- What the parent hands down to a merge. -/
def inherited (parent child : Metadata) : Metadata :=
  Dict.only (fun key => !(deletions child).contains key && !no_inherit.contains key) parent

/-- A value laid over what is there. -/
def mergeValue (parent_val : Option Yaml) (value : Yaml) : Yaml :=
  match value.normalized, parent_val.map Yaml.normalized with
  | .dict value, some (.dict parent_val) => .dict (mergeMeta no_inherit no_merge parent_val value)
  | value, _ => value

/-- An entry of the child laid over what is there. -/
def mergeEntry (result : Metadata) (e : String × Yaml) : Metadata :=
  if isMarker e.1 then result
  else if no_merge.contains e.1 then result.set e.1 e.2
  else result.set e.1 (mergeValue no_inherit no_merge (result.get? e.1) e.2)

theorem mergeMeta_eq (parent child : Metadata) :
    mergeMeta no_inherit no_merge parent child =
      child.foldl (mergeEntry no_inherit no_merge) (inherited no_inherit parent child) := by
  rw [mergeMeta]
  conv_rhs => rw [← List.attach_map_subtype_val child, List.foldl_map]
  rw [List.attach_map_subtype_val]
  congr 1
  funext result e
  unfold mergeEntry mergeValue
  split
  · rfl
  split
  · rfl
  -- the match of the recursion also names its equation, for termination
  split
  · rename_i hvalue hparent
    simp only [hvalue, hparent]
  · rename_i hno
    split
    · rename_i value parent_val hvalue hparent
      exact absurd hparent (hno _ _ hvalue)
    · rfl

/-- What is merged at some keys depends on these keys alone. -/
theorem only_mergeMeta {keep : String → Bool} (hkeep : ∀ key, isMarker key = true → keep key = true)
    (parent child : Metadata) :
    Dict.only keep (mergeMeta no_inherit no_merge parent child) =
      mergeMeta no_inherit no_merge (Dict.only keep parent) (Dict.only keep child) := by
  have hstep : ∀ (result : Metadata) (e : String × Yaml),
      Dict.only keep (mergeEntry no_inherit no_merge result e) =
        if keep e.1 then mergeEntry no_inherit no_merge (Dict.only keep result) e
        else Dict.only keep result := by
    intro result e
    unfold mergeEntry
    by_cases h : keep e.1 = true
    · rw [if_pos h, Dict.get?_only h]
      split
      · rfl
      split <;> exact Dict.only_set_of_keep h _ _
    · have hmarker : isMarker e.1 ≠ true := fun hm => h (hkeep _ hm)
      rw [if_neg h, if_neg hmarker]
      rw [Bool.not_eq_true] at h
      split <;> exact Dict.only_set_of_drop h _ _
  have hfold : ∀ (l : Metadata) (result : Metadata),
      Dict.only keep (l.foldl (mergeEntry no_inherit no_merge) result) =
        (Dict.only keep l).foldl (mergeEntry no_inherit no_merge) (Dict.only keep result) := by
    intro l
    induction l with
    | nil => exact fun _ => rfl
    | cons e rest ih =>
        intro result
        rw [List.foldl_cons, ih, hstep, Dict.only_cons]
        split <;> rfl
  have hdeletions : deletions (Dict.only keep child) = deletions child := by
    unfold deletions Dict.keys Dict.only
    rw [List.filter_map, List.filter_map, List.filter_filter]
    congr 2
    apply List.filter_congr
    intro e _
    by_cases hm : isMarker e.1 = true
    · simp [hm, hkeep _ hm]
    · simp [hm]
  rw [mergeMeta_eq, mergeMeta_eq, hfold]
  congr 1
  unfold inherited Dict.only at *
  rw [hdeletions, List.filter_filter, List.filter_filter]
  apply List.filter_congr
  intro e _
  exact Bool.and_comm _ _

/-- The entries of the child leave a key to its own entry. -/
theorem get?_foldl_mergeEntry {l : Metadata} (hl : l.keys.Nodup) (result : Metadata) {key : String}
    (hkey : isMarker key = false) :
    (l.foldl (mergeEntry no_inherit no_merge) result).get? key =
      match l.get? key with
      | none => result.get? key
      | some value => some (if no_merge.contains key then value
          else mergeValue no_inherit no_merge (result.get? key) value) := by
  induction l generalizing result with
  | nil => rfl
  | cons e rest ih =>
      rcases e with ⟨k, v⟩
      rw [Dict.keys, List.map_cons, List.nodup_cons, ← Dict.keys] at hl
      rw [List.foldl_cons, ih hl.2, Dict.get?_cons]
      by_cases heq : k = key
      · subst heq
        rw [if_pos rfl, Dict.get?_eq_none_iff.mpr hl.1]
        unfold mergeEntry
        rw [if_neg (by simp [hkey])]
        dsimp only
        split <;> exact Dict.get?_set_self _ _ _
      · have hother : (mergeEntry no_inherit no_merge result (k, v)).get? key = result.get? key := by
          unfold mergeEntry
          split
          · rfl
          split <;> exact Dict.get?_set_of_ne _ _ heq
        rw [if_neg heq, hother]

theorem mem_keys_foldl_mergeEntry {l result : Metadata} {name : String} :
    name ∈ Dict.keys (l.foldl (mergeEntry no_inherit no_merge) result) ↔
      name ∈ result.keys ∨ (name ∈ l.keys ∧ isMarker name = false) := by
  induction l generalizing result with
  | nil => simp [Dict.keys]
  | cons e rest ih =>
      have hentry : name ∈ (mergeEntry no_inherit no_merge result e).keys ↔
          name ∈ result.keys ∨ (name = e.1 ∧ isMarker name = false) := by
        unfold mergeEntry
        by_cases hmarker : isMarker e.1 = true
        · rw [if_pos hmarker]
          refine ⟨.inl, fun h => h.resolve_right ?_⟩
          rintro ⟨rfl, hnot⟩
          exact absurd hmarker (by simp [hnot])
        · rw [if_neg hmarker]
          rw [Bool.not_eq_true] at hmarker
          have hset : ∀ value, name ∈ (result.set e.1 value).keys ↔
              name ∈ result.keys ∨ (name = e.1 ∧ isMarker name = false) := by
            intro value
            rw [Dict.mem_keys_set]
            constructor
            · rintro (heq | hmem)
              · exact .inr ⟨heq, heq ▸ hmarker⟩
              · exact .inl hmem
            · rintro (hmem | ⟨heq, -⟩)
              · exact .inr hmem
              · exact .inl heq
          split <;> exact hset _
      rw [List.foldl_cons, ih, hentry, Dict.keys, Dict.keys, Dict.keys, List.map_cons, List.mem_cons]
      tauto

end

/-- What the parent has at a key, unless the child deletes it. -/
def below (parent child : Metadata) (key : String) : Option Yaml :=
  if (deletions child).contains key then none else parent.get? key

theorem get?_inherited (parent child : Metadata) (key : String) :
    (inherited [] parent child).get? key = below parent child key := by
  unfold inherited below
  by_cases h : (deletions child).contains key = true
  · rw [if_pos h, Dict.get?_eq_none_iff]
    intro hmem
    obtain ⟨e, he, rfl⟩ := List.mem_map.mp hmem
    have := (List.mem_filter.mp he).2
    simp [List.contains_iff_mem.mp h] at this
  · rw [if_neg h]
    apply Dict.get?_only
    rw [Bool.not_eq_true] at h
    rw [h]
    rfl

/-- **What is merged at a key.** -/
theorem get?_mergeMeta (no_merge : List String) (parent : Metadata) {child : Metadata}
    (hchild : child.keys.Nodup) {key : String} (hkey : isMarker key = false) :
    (mergeMeta [] no_merge parent child).get? key =
      match child.get? key with
      | none => below parent child key
      | some value => some (if no_merge.contains key then value
          else mergeValue [] no_merge (below parent child key) value) := by
  rw [mergeMeta_eq, get?_foldl_mergeEntry _ _ hchild _ hkey, get?_inherited]

/-- The keys of merged mappings. -/
theorem mem_keys_mergeMeta {no_merge : List String} {parent child : Metadata} {name : String} :
    name ∈ (mergeMeta [] no_merge parent child).keys ↔
      (name ∈ child.keys ∧ isMarker name = false) ∨ (name ∈ parent.keys ∧ name ∉ deletions child) := by
  have hinherited : name ∈ (inherited [] parent child).keys ↔
      name ∈ parent.keys ∧ name ∉ deletions child := by
    rw [← Dict.exists_get?_iff, get?_inherited, ← Dict.exists_get?_iff]
    unfold below
    by_cases h : name ∈ deletions child <;> simp [h]
  rw [mergeMeta_eq, mem_keys_foldl_mergeEntry, hinherited]
  exact Or.comm

/-! ## The names at a key -/

/-- The value at a key names something: a mapping by its keys. -/
def NamesIt (value : Option Yaml) (name : String) : Prop :=
  ∃ names, (value.getD (.dict [])).normalized.names = .ok names ∧ name ∈ names

def IsMapping (value : Option Yaml) : Prop := ∃ entries, value.map Yaml.normalized = some (.dict entries)

/-- The child names something at a key; in a mapping over a mapping its markers name nothing. -/
def Adds (parent child : Metadata) (key name : String) : Prop :=
  ∃ value, child.get? key = some value ∧ NamesIt (some value) name ∧
    (IsMapping (some value) → IsMapping (below parent child key) → isMarker name = false)

/-- The child leaves what the parent names at a key. -/
def Keeps (parent child : Metadata) (key name : String) : Prop :=
  key ∉ deletions child ∧ ∀ value, child.get? key = some value →
    ∃ names, value.normalized = .dict names ∧ IsMapping (parent.get? key) ∧ name ∉ deletions names

/-- What is named at a key when the child is laid over the parent. -/
def Laid (parent child : Metadata) (key name : String) : Prop :=
  Adds parent child key name ∨ (NamesIt (parent.get? key) name ∧ Keeps parent child key name)

theorem namesIt_normalized {value : Option Yaml} {entries : Metadata}
    (h : value.map Yaml.normalized = some (.dict entries)) {name : String} :
    NamesIt value name ↔ name ∈ entries.keys := by
  obtain ⟨v, rfl, hv⟩ := Option.map_eq_some_iff.mp h
  unfold NamesIt
  rw [Option.getD_some, hv, Yaml.names]
  simp

theorem namesIt_dict {entries : Metadata} {name : String} :
    NamesIt (some (.dict entries)) name ↔ name ∈ entries.keys :=
  namesIt_normalized rfl

theorem not_namesIt_none {name : String} : ¬ NamesIt none name := by
  rintro ⟨names, hnames, hmem⟩
  obtain rfl := Except.ok.inj hnames
  cases hmem

/-- A merged key has the names that are laid there. -/
theorem namesIt_mergeMeta {no_merge : List String} (parent : Metadata) {child : Metadata}
    (hchild : child.keys.Nodup) {key : String} (hkey : isMarker key = false)
    (hmerge : key ∉ no_merge) (name : String) :
    NamesIt ((mergeMeta [] no_merge parent child).get? key) name ↔ Laid parent child key name := by
  rw [get?_mergeMeta no_merge parent hchild hkey]
  have hno : no_merge.contains key = false := by simpa using hmerge
  unfold Laid Adds Keeps
  cases hvalue : child.get? key with
  | none =>
      unfold below
      by_cases h : key ∈ deletions child
      · simp [h, not_namesIt_none]
      · simp [h]
  | some value =>
      dsimp only
      rw [hno, if_neg Bool.false_ne_true]
      by_cases hboth : IsMapping (some value) ∧ IsMapping (below parent child key)
      · -- a mapping over a mapping: they are merged
        obtain ⟨⟨entries, hentries⟩, ⟨parents, hparents⟩⟩ := hboth
        have hentries' : value.normalized = .dict entries := by simpa using hentries
        have hbelow : key ∉ deletions child ∧ (parent.get? key).map Yaml.normalized =
            some (.dict parents) := by
          unfold below at hparents
          by_cases h : key ∈ deletions child
          · simp [h] at hparents
          · exact ⟨h, by simpa [h] using hparents⟩
        have hmerged : mergeValue [] no_merge (below parent child key) value =
            .dict (mergeMeta [] no_merge parents entries) := by
          unfold mergeValue
          rw [hentries', hparents]
        rw [hmerged, namesIt_dict, mem_keys_mergeMeta,
          namesIt_normalized hbelow.2]
        constructor
        · rintro (⟨hmem, hmarker⟩ | ⟨hmem, hdel⟩)
          · exact .inl ⟨value, rfl, (namesIt_normalized hentries).mpr hmem, fun _ _ => hmarker⟩
          · refine .inr ⟨hmem, hbelow.1, ?_⟩
            rintro _ ⟨rfl⟩
            exact ⟨entries, hentries', ⟨parents, hbelow.2⟩, hdel⟩
        · rintro (⟨_, ⟨rfl⟩, hnames, hmarker⟩ | ⟨hmem, -, hkeeps⟩)
          · exact .inl ⟨(namesIt_normalized hentries).mp hnames,
              hmarker ⟨entries, hentries⟩ ⟨parents, hparents⟩⟩
          · obtain ⟨names, hnames, -, hdel⟩ := hkeeps value rfl
            obtain rfl : entries = names := by
              rw [hentries'] at hnames
              exact Yaml.dict.inj hnames
            exact .inr ⟨hmem, hdel⟩
      · -- anything else: the value of the child alone
        have hmerged : mergeValue [] no_merge (below parent child key) value = value.normalized := by
          unfold mergeValue
          split
          · rename_i cv pv hcv hpv
            exact absurd ⟨⟨cv, by simp [hcv]⟩, ⟨pv, hpv⟩⟩ hboth
          · rfl
        have hidem : value.normalized.normalized = value.normalized := by cases value <;> rfl
        have hsame : NamesIt (some value.normalized) name ↔ NamesIt (some value) name := by
          unfold NamesIt
          rw [Option.getD_some, Option.getD_some, hidem]
        rw [hmerged, hsame]
        constructor
        · exact fun h => .inl ⟨value, rfl, h, fun h₁ h₂ => absurd ⟨h₁, h₂⟩ hboth⟩
        · rintro (⟨_, ⟨rfl⟩, hnames, -⟩ | ⟨-, hdel, hkeeps⟩)
          · exact hnames
          · obtain ⟨names, hnames, ⟨parents, hparents⟩, -⟩ := hkeeps value rfl
            refine absurd ⟨⟨names, by simp [hnames]⟩, ⟨parents, ?_⟩⟩ hboth
            unfold below
            simpa [hdel] using hparents

end Mountin
