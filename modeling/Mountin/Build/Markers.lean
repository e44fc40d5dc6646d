import Mountin.Build.Environment

set_option autoImplicit false

/-! # Deletion markers

A key with a leading dash deletes the key after the dash from the parent. The markers of a mapping
are dropped when the mapping is merged, and a mapping is merged where the parent has a mapping too.
Anywhere else the value of the child stays as it is, its markers included.

* `Honours` : what the markers and the keys of the child do to the parent, at every depth.
* `Covered` : below a mapping with markers the parent has a mapping.
* `mergeMeta_honours` : merging always honours markers and keys.
* `markerFree_mergeMeta_iff` : it leaves no marker exactly when the parent covers the child.
-/

namespace Mountin

/-- The keys of a mapping are distinct, and those of the mappings in it. -/
inductive ProperTree : Metadata → Prop where
  | intro {entries : Metadata} (nodup : entries.keys.Nodup)
      (inner : ∀ key value sub, (key, value) ∈ entries → value.normalized = .dict sub →
        ProperTree sub) : ProperTree entries

/-- No key or name in a value is a marker, outside the values of `no_merge` keys. -/
inductive MarkerFree (no_merge : List String) : Yaml → Prop where
  | intro {value : Yaml}
      (plain : ∀ entries key sub, value.normalized = .dict entries → (key, sub) ∈ entries →
        isMarker key = false)
      (inner : ∀ entries key sub, value.normalized = .dict entries → (key, sub) ∈ entries →
        key ∉ no_merge → MarkerFree no_merge sub) : MarkerFree no_merge value

/-- The child has a mapping at a key, over a mapping that the parent hands down. -/
def MeetAt (no_inherit : List String) (parent child : Metadata) (key : String)
    (parents entries : Metadata) : Prop :=
  (child.get? key).map Yaml.normalized = some (.dict entries) ∧
    ((inherited no_inherit parent child).get? key).map Yaml.normalized = some (.dict parents)

/-- Where the child has markers below a key, outside `no_merge`, the parent has a mapping. -/
inductive Covered (no_inherit no_merge : List String) : Metadata → Metadata → Prop where
  | intro {parent child : Metadata}
      (inner : ∀ key parents entries, isMarker key = false → key ∉ no_merge →
        MeetAt no_inherit parent child key parents entries →
          Covered no_inherit no_merge parents entries)
      (alone : ∀ key value, child.get? key = some value → isMarker key = false → key ∉ no_merge →
        (∀ parents entries, ¬ MeetAt no_inherit parent child key parents entries) →
          MarkerFree no_merge value) : Covered no_inherit no_merge parent child

/-- Deleted keys are gone unless the child sets them, the other keys of the parent are there, and
the keys of the child win. -/
inductive Honours (no_inherit no_merge : List String) : Metadata → Metadata → Metadata → Prop where
  | intro {parent child result : Metadata}
      (deleted : ∀ key ∈ parent.keys, key ∈ deletions child → key ∉ child.keys →
        key ∉ result.keys)
      (kept : ∀ key value, parent.get? key = some value → key ∉ deletions child →
        key ∉ no_inherit → key ∉ child.keys → result.get? key = some value)
      (replaced : ∀ key value, child.get? key = some value → isMarker key = false →
        key ∈ no_merge → result.get? key = some value)
      (alone : ∀ key value, child.get? key = some value → isMarker key = false → key ∉ no_merge →
        (∀ parents entries, ¬ MeetAt no_inherit parent child key parents entries) →
          result.get? key = some value.normalized)
      (merged : ∀ key parents entries, isMarker key = false → key ∉ no_merge →
        MeetAt no_inherit parent child key parents entries →
          ∃ entries, result.get? key = some (.dict entries))
      (inner : ∀ key parents entries sub, isMarker key = false → key ∉ no_merge →
        MeetAt no_inherit parent child key parents entries → result.get? key = some (.dict sub) →
          Honours no_inherit no_merge parents entries sub) :
      Honours no_inherit no_merge parent child result

theorem Yaml.normalized_normalized (value : Yaml) : value.normalized.normalized = value.normalized := by
  cases value <;> rfl

/-! ## Mappings without markers -/

section

variable {no_inherit no_merge : List String}

theorem markerFree_normalized_iff {value : Yaml} :
    MarkerFree no_merge value.normalized ↔ MarkerFree no_merge value := by
  constructor
  · rintro ⟨plain, inner⟩
    rw [Yaml.normalized_normalized] at plain inner
    exact ⟨plain, inner⟩
  · rintro ⟨plain, inner⟩
    refine ⟨?_, ?_⟩
    · rw [Yaml.normalized_normalized]
      exact plain
    · rw [Yaml.normalized_normalized]
      exact inner

theorem markerFree_dict_iff {entries : Metadata} :
    MarkerFree no_merge (.dict entries) ↔ ∀ key value, (key, value) ∈ entries →
      isMarker key = false ∧ (key ∉ no_merge → MarkerFree no_merge value) := by
  constructor
  · rintro ⟨plain, inner⟩ key value hmem
    exact ⟨plain entries key value rfl hmem, inner entries key value rfl hmem⟩
  · intro h
    refine ⟨?_, ?_⟩
    · rintro _ key value ⟨rfl⟩ hmem
      exact (h key value hmem).1
    · rintro _ key value ⟨rfl⟩ hmem
      exact (h key value hmem).2

/-- More keys that are not merged allow more. -/
theorem MarkerFree.mono {no_merge' : List String} {value : Yaml} (h : MarkerFree no_merge value)
    (hle : ∀ key ∈ no_merge, key ∈ no_merge') : MarkerFree no_merge' value := by
  induction h with
  | intro plain _ ih =>
      exact ⟨plain, fun entries key sub hvalue hmem hkey =>
        ih entries key sub hvalue hmem fun hin => hkey (hle key hin)⟩

/-! ## Mappings with distinct keys -/

theorem ProperTree.nodup {entries : Metadata} (h : ProperTree entries) : entries.keys.Nodup := by
  cases h
  assumption

theorem ProperTree.inner {entries sub : Metadata} {key : String} {value : Yaml}
    (h : ProperTree entries) (hmem : (key, value) ∈ entries) (hvalue : value.normalized = .dict sub) :
    ProperTree sub := by
  cases h with
  | intro _ inner => exact inner key value sub hmem hvalue

theorem properTree_nil : ProperTree [] := ⟨List.nodup_nil, fun _ _ _ hmem => absurd hmem List.not_mem_nil⟩

/-- The mapping at a key. -/
theorem ProperTree.of_get? {entries sub : Metadata} {key : String} (h : ProperTree entries)
    (hget : (entries.get? key).map Yaml.normalized = some (.dict sub)) : ProperTree sub := by
  obtain ⟨value, hvalue, hsub⟩ := Option.map_eq_some_iff.mp hget
  exact h.inner (Dict.mem_of_get?_eq_some hvalue) hsub

/-! ## What is merged at a key -/

/-- The parent hands down what is neither deleted nor kept from inheriting. -/
theorem inherited_get? (parent child : Metadata) (key : String) :
    (inherited no_inherit parent child).get? key =
      if key ∈ deletions child ∨ key ∈ no_inherit then none else parent.get? key := by
  unfold inherited
  split
  · rename_i h
    rw [Dict.get?_eq_none_iff]
    intro hmem
    obtain ⟨e, he, rfl⟩ := List.mem_map.mp hmem
    have hkept := (List.mem_filter.mp he).2
    rcases h with h | h <;> simp [h] at hkept
  · rename_i h
    rw [not_or] at h
    apply Dict.get?_only
    simp [h.1, h.2]

theorem mem_of_inherited {parent child : Metadata} {e : String × Yaml}
    (h : e ∈ inherited no_inherit parent child) : e ∈ parent := (List.mem_filter.mp h).1

theorem meets_parent {parent child parents entries : Metadata} {key : String}
    (h : MeetAt no_inherit parent child key parents entries) :
    (parent.get? key).map Yaml.normalized = some (.dict parents) := by
  have hparents := h.2
  rw [inherited_get?] at hparents
  split at hparents
  · cases hparents
  · exact hparents

/-- What a merge has at a key. -/
theorem mergeMeta_get? (parent : Metadata) {child : Metadata} (hchild : child.keys.Nodup)
    {key : String} (hkey : isMarker key = false) :
    (mergeMeta no_inherit no_merge parent child).get? key =
      match child.get? key with
      | none => (inherited no_inherit parent child).get? key
      | some value => some (if no_merge.contains key then value else
          mergeValue no_inherit no_merge ((inherited no_inherit parent child).get? key) value) := by
  rw [mergeMeta_eq]
  refine (get?_foldl_mergeEntry _ _ hchild _ hkey).trans ?_
  cases child.get? key <;> rfl

/-- A marker of the child changes nothing. -/
theorem mergeMeta_get?_marker {parent child : Metadata} {key : String} (hkey : isMarker key = true) :
    (mergeMeta no_inherit no_merge parent child).get? key =
      (inherited no_inherit parent child).get? key := by
  rw [mergeMeta_eq]
  generalize inherited no_inherit parent child = result
  induction child generalizing result with
  | nil => rfl
  | cons e rest ih =>
      rw [List.foldl_cons, ih]
      unfold mergeEntry
      split
      · rfl
      · rename_i hmarker
        have hne : e.1 ≠ key := by
          rintro rfl
          exact hmarker hkey
        split <;> exact Dict.get?_set_of_ne _ _ hne

section

variable {parent child : Metadata} (hchild : child.keys.Nodup) {key : String}
  (hkey : isMarker key = false)

include hchild hkey

theorem mergeMeta_get?_none (hnone : key ∉ child.keys) :
    (mergeMeta no_inherit no_merge parent child).get? key =
      (inherited no_inherit parent child).get? key := by
  rw [mergeMeta_get? parent hchild hkey, Dict.get?_eq_none_iff.mpr hnone]

theorem mergeMeta_get?_replaced {value : Yaml} (hvalue : child.get? key = some value)
    (hin : key ∈ no_merge) :
    (mergeMeta no_inherit no_merge parent child).get? key = some value := by
  rw [mergeMeta_get? parent hchild hkey, hvalue]
  simp [hin]

/-- Two mappings are merged. -/
theorem mergeMeta_get?_meets (hin : key ∉ no_merge) {parents entries : Metadata}
    (h : MeetAt no_inherit parent child key parents entries) :
    (mergeMeta no_inherit no_merge parent child).get? key =
      some (.dict (mergeMeta no_inherit no_merge parents entries)) := by
  obtain ⟨hentries, hparents⟩ := h
  obtain ⟨value, hvalue, hdict⟩ := Option.map_eq_some_iff.mp hentries
  rw [mergeMeta_get? parent hchild hkey, hvalue]
  simp only [List.contains_eq_mem, hin, decide_false, Bool.false_eq_true, if_false]
  unfold mergeValue
  rw [hdict, hparents]

/-- Anything else comes from the child alone. -/
theorem mergeMeta_get?_alone (hin : key ∉ no_merge) {value : Yaml}
    (hvalue : child.get? key = some value)
    (hno : ∀ parents entries, ¬ MeetAt no_inherit parent child key parents entries) :
    (mergeMeta no_inherit no_merge parent child).get? key = some value.normalized := by
  rw [mergeMeta_get? parent hchild hkey, hvalue]
  simp only [List.contains_eq_mem, hin, decide_false, Bool.false_eq_true, if_false]
  congr 1
  unfold mergeValue
  split
  · rename_i entries parents hentries hparents
    exact absurd ⟨by rw [hvalue, Option.map_some, hentries], hparents⟩ (hno parents entries)
  · rfl

end

theorem properTree_mergeMeta {parent child : Metadata} (hparent : ProperTree parent)
    (hchild : ProperTree child) : ProperTree (mergeMeta no_inherit no_merge parent child) := by
  induction hchild generalizing parent with
  | @intro child nodup inner ih =>
      have hnodup := nodup_mergeMeta no_inherit no_merge child hparent.nodup
      refine ⟨hnodup, fun key value sub hmem hvalue => ?_⟩
      have hget := (Dict.get?_eq_some_iff hnodup).mpr hmem
      have hkeys := Dict.mem_keys_of_get?_eq_some hget
      rw [mergeMeta_eq, mem_keys_foldl_mergeEntry] at hkeys
      by_cases hset : key ∈ child.keys ∧ isMarker key = false
      · obtain ⟨own, hown⟩ := Dict.exists_get?_iff.mpr hset.1
        have hmem_own := Dict.mem_of_get?_eq_some hown
        by_cases hin : key ∈ no_merge
        · rw [mergeMeta_get?_replaced nodup hset.2 hown hin] at hget
          obtain rfl := Option.some.inj hget
          exact inner key own sub hmem_own hvalue
        · by_cases hmeets : ∃ parents entries, MeetAt no_inherit parent child key parents entries
          · obtain ⟨parents, entries, hmeets⟩ := hmeets
            rw [mergeMeta_get?_meets nodup hset.2 hin hmeets] at hget
            obtain rfl := Option.some.inj hget
            obtain rfl := Yaml.dict.inj hvalue
            have hentries : own.normalized = .dict entries := by
              have := hmeets.1
              rw [hown] at this
              exact Option.some.inj this
            exact ih key own entries hmem_own hentries (hparent.of_get? (meets_parent hmeets))
          · rw [mergeMeta_get?_alone nodup hset.2 hin hown fun parents entries h =>
              hmeets ⟨parents, entries, h⟩] at hget
            obtain rfl := Option.some.inj hget
            rw [Yaml.normalized_normalized] at hvalue
            exact inner key own sub hmem_own hvalue
      · -- a key that the child does not set has the value of the parent
        have hold := hkeys.resolve_right hset
        obtain ⟨old, hget_old⟩ := Dict.exists_get?_iff.mpr hold
        have hsame : (mergeMeta no_inherit no_merge parent child).get? key =
            (inherited no_inherit parent child).get? key := by
          by_cases hmarker : isMarker key = true
          · exact mergeMeta_get?_marker hmarker
          · rw [Bool.not_eq_true] at hmarker
            exact mergeMeta_get?_none nodup hmarker fun h => hset ⟨h, hmarker⟩
        rw [hsame] at hget
        exact hparent.inner (mem_of_inherited (Dict.mem_of_get?_eq_some hget)) hvalue

/-! ## What merging honours -/

/-- **Merging honours markers and keys**, at every depth. -/
theorem mergeMeta_honours {parent child : Metadata} (hparent : MarkerFree no_merge (.dict parent))
    (hchild : ProperTree child) :
    Honours no_inherit no_merge parent child (mergeMeta no_inherit no_merge parent child) := by
  induction hchild generalizing parent with
  | @intro child nodup inner ih =>
      have hplain : ∀ key ∈ parent.keys, isMarker key = false := by
        intro key hkey
        obtain ⟨e, hmem, rfl⟩ := List.mem_map.mp hkey
        exact (markerFree_dict_iff.mp hparent e.1 e.2 hmem).1
      refine ⟨?deleted, ?kept, ?replaced, ?alone, ?merged, ?inner⟩
      case deleted =>
        intro key hkey hdel hnot hmem
        obtain ⟨value, hget⟩ := Dict.exists_get?_iff.mpr hmem
        rw [mergeMeta_get?_none nodup (hplain key hkey) hnot, inherited_get?, if_pos (.inl hdel)] at hget
        cases hget
      case kept =>
        intro key value hget hdel hinherit hnot
        rw [mergeMeta_get?_none nodup (hplain key (Dict.mem_keys_of_get?_eq_some hget)) hnot,
          inherited_get?, if_neg (not_or.mpr ⟨hdel, hinherit⟩), hget]
      case replaced =>
        intro key value hget hkey hin
        exact mergeMeta_get?_replaced nodup hkey hget hin
      case alone =>
        intro key value hget hkey hin hno
        exact mergeMeta_get?_alone nodup hkey hin hget hno
      case merged =>
        intro key parents entries hkey hin hmeets
        exact ⟨_, mergeMeta_get?_meets nodup hkey hin hmeets⟩
      case inner =>
        intro key parents entries sub hkey hin hmeets hget
        rw [mergeMeta_get?_meets nodup hkey hin hmeets] at hget
        obtain rfl := Yaml.dict.inj (Option.some.inj hget)
        obtain ⟨value, hvalue, hentries⟩ := Option.map_eq_some_iff.mp hmeets.1
        obtain ⟨old, hold, hparents⟩ := Option.map_eq_some_iff.mp (meets_parent hmeets)
        have hfree := (markerFree_dict_iff.mp hparent key old (Dict.mem_of_get?_eq_some hold)).2 hin
        rw [← markerFree_normalized_iff, hparents] at hfree
        exact ih key value entries (Dict.mem_of_get?_eq_some hvalue) hentries hfree

/-- **No marker is left exactly when the parent covers the child.** -/
theorem markerFree_mergeMeta_iff {parent child : Metadata} (hparent : ProperTree parent)
    (hfree : MarkerFree no_merge (.dict parent)) (hchild : ProperTree child) :
    MarkerFree no_merge (.dict (mergeMeta no_inherit no_merge parent child)) ↔
      Covered no_inherit no_merge parent child := by
  induction hchild generalizing parent with
  | @intro child nodup inner ih =>
      have hresult := nodup_mergeMeta no_inherit no_merge child hparent.nodup
      -- below a key where both have a mapping
      have hdown : ∀ key parents entries, key ∉ no_merge →
          MeetAt no_inherit parent child key parents entries →
          (MarkerFree no_merge (.dict (mergeMeta no_inherit no_merge parents entries)) ↔
            Covered no_inherit no_merge parents entries) := by
        intro key parents entries hin hmeets
        obtain ⟨value, hvalue, hentries⟩ := Option.map_eq_some_iff.mp hmeets.1
        obtain ⟨old, hold, hparents⟩ := Option.map_eq_some_iff.mp (meets_parent hmeets)
        have hold_free :=
          (markerFree_dict_iff.mp hfree key old (Dict.mem_of_get?_eq_some hold)).2 hin
        rw [← markerFree_normalized_iff, hparents] at hold_free
        exact ih key value entries (Dict.mem_of_get?_eq_some hvalue) hentries
          (hparent.of_get? (meets_parent hmeets)) hold_free
      rw [markerFree_dict_iff]
      constructor
      · intro h
        have hvalue : ∀ key value, key ∉ no_merge →
            (mergeMeta no_inherit no_merge parent child).get? key = some value →
              MarkerFree no_merge value :=
          fun key value hin hget => (h key value (Dict.mem_of_get?_eq_some hget)).2 hin
        refine ⟨fun key parents entries hkey hin hmeets => ?_, fun key value hget hkey hin hno => ?_⟩
        · exact (hdown key parents entries hin hmeets).mp
            (hvalue key _ hin (mergeMeta_get?_meets nodup hkey hin hmeets))
        · exact markerFree_normalized_iff.mp
            (hvalue key _ hin (mergeMeta_get?_alone nodup hkey hin hget hno))
      · rintro ⟨hinner, halone⟩ key value hmem
        have hget := (Dict.get?_eq_some_iff hresult).mpr hmem
        have hkeys := Dict.mem_keys_of_get?_eq_some hget
        rw [mergeMeta_eq, mem_keys_foldl_mergeEntry] at hkeys
        by_cases hset : key ∈ child.keys ∧ isMarker key = false
        · refine ⟨hset.2, fun hin => ?_⟩
          obtain ⟨own, hown⟩ := Dict.exists_get?_iff.mpr hset.1
          by_cases hmeets : ∃ parents entries, MeetAt no_inherit parent child key parents entries
          · obtain ⟨parents, entries, hmeets⟩ := hmeets
            rw [mergeMeta_get?_meets nodup hset.2 hin hmeets] at hget
            obtain rfl := Option.some.inj hget
            exact (hdown key parents entries hin hmeets).mpr
              (hinner key parents entries hset.2 hin hmeets)
          · have hno : ∀ parents entries, ¬ MeetAt no_inherit parent child key parents entries :=
              fun parents entries h => hmeets ⟨parents, entries, h⟩
            rw [mergeMeta_get?_alone nodup hset.2 hin hown hno] at hget
            obtain rfl := Option.some.inj hget
            exact markerFree_normalized_iff.mpr (halone key own hown hset.2 hin hno)
        · -- a key that the child does not set has the value of the parent
          obtain ⟨old, hold⟩ := Dict.exists_get?_iff.mpr (hkeys.resolve_right hset)
          have hmem_old := mem_of_inherited (Dict.mem_of_get?_eq_some hold)
          have hkey := (markerFree_dict_iff.mp hfree key old hmem_old).1
          rw [mergeMeta_get?_none nodup hkey fun h => hset ⟨h, hkey⟩, hold] at hget
          obtain rfl := Option.some.inj hget
          exact markerFree_dict_iff.mp hfree key old hmem_old

end

/-! ## From the root to a path -/

/-- On the way down to a path, the metadata at one ancestor are laid over those above it. -/
def Descends (files : CataloguePaths) (chain : List String) (start level : Inherited)
    (ancestor : String) (next : Inherited) : Prop :=
  ∃ above rest, chain = above ++ ancestor :: rest ∧
    above.foldlM (Inherited.enter files) start = .ok level ∧
    Inherited.enter files level ancestor = .ok next

/-- Each path on the way down is covered by the metadata above it. -/
def CoveredChain (files : CataloguePaths) (chain : List String) (start : Inherited) : Prop :=
  ∀ level ancestor next, Descends files chain start level ancestor next →
    Covered next.no_inherit next.no_merge level.merged (files.getD ancestor [])

/-- No metadata on the way down have a marker left. -/
def MarkerFreeChain (files : CataloguePaths) (chain : List String) (start : Inherited) : Prop :=
  ∀ level ancestor next, Descends files chain start level ancestor next →
    MarkerFree next.no_merge (.dict next.merged)

section

variable {files : CataloguePaths}

theorem enter_merged {level next : Inherited} {ancestor : String}
    (h : Inherited.enter files level ancestor = .ok next) :
    next.merged = mergeMeta next.no_inherit next.no_merge level.merged (files.getD ancestor []) ∧
      ∀ key ∈ level.no_merge, key ∈ next.no_merge := by
  obtain ⟨no_inherit, -, h⟩ := Except.bind_eq_ok.mp h
  obtain ⟨no_merge, -, h⟩ := Except.bind_eq_ok.mp h
  rw [← Except.ok.inj h]
  exact ⟨rfl, fun key hkey => List.mem_append_left _ hkey⟩

theorem descends_cons_iff {first : String} {chain : List String} {start level next : Inherited}
    {ancestor : String} :
    Descends files (first :: chain) start level ancestor next ↔
      (level = start ∧ ancestor = first ∧ Inherited.enter files start first = .ok next) ∨
      ∃ mid, Inherited.enter files start first = .ok mid ∧
        Descends files chain mid level ancestor next := by
  constructor
  · rintro ⟨above, rest, hchain, hlevel, hnext⟩
    cases above with
    | nil =>
        obtain ⟨rfl, rfl⟩ := List.cons_eq_cons.mp hchain
        obtain rfl := Except.ok.inj hlevel
        exact .inl ⟨rfl, rfl, hnext⟩
    | cons head above =>
        obtain ⟨rfl, hrest⟩ := List.cons_eq_cons.mp hchain
        rw [List.foldlM_cons] at hlevel
        obtain ⟨mid, hmid, hlevel⟩ := Except.bind_eq_ok.mp hlevel
        exact .inr ⟨mid, hmid, above, rest, hrest, hlevel, hnext⟩
  · rintro (⟨rfl, rfl, hnext⟩ | ⟨mid, hmid, above, rest, rfl, hlevel, hnext⟩)
    · exact ⟨[], chain, rfl, rfl, hnext⟩
    · refine ⟨first :: above, rest, rfl, ?_, hnext⟩
      rw [List.foldlM_cons, hmid]
      exact hlevel

variable (hfiles : ∀ path metadata, files.get? path = some metadata → ProperTree metadata)

include hfiles

theorem properTree_of_files (path : String) : ProperTree (files.getD path []) := by
  unfold Dict.getD
  cases hget : files.get? path with
  | none => exact properTree_nil
  | some metadata => exact hfiles path metadata hget

/-- One step down keeps metadata without markers exactly when they cover the next. -/
theorem enter_markerFree_iff {level next : Inherited} {ancestor : String}
    (hlevel : ProperTree level.merged) (hfree : MarkerFree level.no_merge (.dict level.merged))
    (h : Inherited.enter files level ancestor = .ok next) :
    ProperTree next.merged ∧ (MarkerFree next.no_merge (.dict next.merged) ↔
      Covered next.no_inherit next.no_merge level.merged (files.getD ancestor [])) := by
  obtain ⟨hmerged, hmore⟩ := enter_merged h
  have hown := properTree_of_files hfiles ancestor
  rw [hmerged]
  exact ⟨properTree_mergeMeta hlevel hown, markerFree_mergeMeta_iff hlevel (hfree.mono hmore) hown⟩

/-- And so does the whole way down. -/
theorem markerFreeChain_iff {chain : List String} {start : Inherited}
    (hstart : ProperTree start.merged) (hfree : MarkerFree start.no_merge (.dict start.merged)) :
    MarkerFreeChain files chain start ↔ CoveredChain files chain start := by
  induction chain generalizing start with
  | nil =>
      have hnone : ∀ level ancestor next, ¬ Descends files [] start level ancestor next := by
        rintro level ancestor next ⟨above, rest, hchain, -, -⟩
        exact absurd hchain (by simp)
      exact ⟨fun _ level ancestor next h => absurd h (hnone _ _ _),
        fun _ level ancestor next h => absurd h (hnone _ _ _)⟩
  | cons first chain ih =>
      have hfirst := fun next (hnext : Inherited.enter files start first = .ok next) =>
        enter_markerFree_iff hfiles hstart hfree hnext
      constructor
      · intro h level ancestor next hdown
        rcases descends_cons_iff.mp hdown with ⟨rfl, rfl, hnext⟩ | ⟨mid, hmid, hdown⟩
        · exact (hfirst next hnext).2.mp (h level ancestor next hdown)
        · have hmid_free := h start first mid (descends_cons_iff.mpr (.inl ⟨rfl, rfl, hmid⟩))
          refine (ih (hfirst mid hmid).1 hmid_free).mp (fun level ancestor next hdown => ?_)
            level ancestor next hdown
          exact h level ancestor next (descends_cons_iff.mpr (.inr ⟨mid, hmid, hdown⟩))
      · intro h level ancestor next hdown
        rcases descends_cons_iff.mp hdown with ⟨rfl, rfl, hnext⟩ | ⟨mid, hmid, hdown⟩
        · exact (hfirst next hnext).2.mpr (h level ancestor next hdown)
        · have hmid_free := (hfirst mid hmid).2.mpr
            (h start first mid (descends_cons_iff.mpr (.inl ⟨rfl, rfl, hmid⟩)))
          refine (ih (hfirst mid hmid).1 hmid_free).mpr (fun level ancestor next hdown => ?_)
            level ancestor next hdown
          exact h level ancestor next (descends_cons_iff.mpr (.inr ⟨mid, hmid, hdown⟩))

omit hfiles in
/-- What comes out at the end is that of the last step. -/
theorem MarkerFreeChain.last {chain : List String} {start level : Inherited}
    (h : MarkerFreeChain files chain start) (hfree : MarkerFree start.no_merge (.dict start.merged))
    (hrun : chain.foldlM (Inherited.enter files) start = .ok level) :
    MarkerFree level.no_merge (.dict level.merged) := by
  rcases List.eq_nil_or_concat chain with rfl | ⟨above, last, rfl⟩
  · obtain rfl := Except.ok.inj hrun
    exact hfree
  · rw [List.concat_eq_append, List.foldlM_append] at hrun
    obtain ⟨before, hbefore, hrun⟩ := Except.bind_eq_ok.mp hrun
    rw [List.foldlM_cons] at hrun
    obtain ⟨next, hnext, hrun⟩ := Except.bind_eq_ok.mp hrun
    obtain rfl := Except.ok.inj hrun
    exact h before last next ⟨above, [], by simp, hbefore, hnext⟩

end

theorem markerFree_nil {no_merge : List String} : MarkerFree no_merge (.dict []) :=
  markerFree_dict_iff.mpr fun _ _ hmem => absurd hmem List.not_mem_nil

/-- **Markers are honoured at every depth exactly when the parent covers the child**, and metadata
inherited from the root down have no marker left exactly when each path is covered from above. -/
theorem markers_honoured_iff (no_inherit no_merge : List String) (parent child : Metadata)
    (hparent : ProperTree parent) (hchild : ProperTree child)
    (hfree : MarkerFree no_merge (.dict parent)) :
    ((Honours no_inherit no_merge parent child (mergeMeta no_inherit no_merge parent child) ∧
        MarkerFree no_merge (.dict (mergeMeta no_inherit no_merge parent child))) ↔
      Covered no_inherit no_merge parent child) ∧
    ∀ files : CataloguePaths,
      (∀ path metadata, files.get? path = some metadata → ProperTree metadata) →
      ∀ path, (MarkerFreeChain files (chainOf files path) ⟨[], [], []⟩ ↔
          CoveredChain files (chainOf files path) ⟨[], [], []⟩) ∧
        ∀ level, inheritedMetadata files path = .ok level →
          CoveredChain files (chainOf files path) ⟨[], [], []⟩ →
          ∀ key entries name, key ∉ level.no_merge →
            (level.merged.get? key).map Yaml.normalized = some (.dict entries) →
            name ∈ Dict.keys entries → isMarker name = false := by
  constructor
  · rw [markerFree_mergeMeta_iff hparent hfree hchild]
    exact and_iff_right (mergeMeta_honours hfree hchild)
  · intro files hfiles path
    have hchain : MarkerFreeChain files (chainOf files path) ⟨[], [], []⟩ ↔
        CoveredChain files (chainOf files path) ⟨[], [], []⟩ :=
      markerFreeChain_iff hfiles properTree_nil markerFree_nil
    refine ⟨hchain, fun level hlevel hcovered key entries name hkey hentries hname => ?_⟩
    have hfree := (hchain.mpr hcovered).last markerFree_nil hlevel
    obtain ⟨value, hget, hvalue⟩ := Option.map_eq_some_iff.mp hentries
    have hvalue_free :=
      (markerFree_dict_iff.mp hfree key value (Dict.mem_of_get?_eq_some hget)).2 hkey
    rw [← markerFree_normalized_iff, hvalue] at hvalue_free
    obtain ⟨e, hmem, rfl⟩ := List.mem_map.mp hname
    exact (markerFree_dict_iff.mp hvalue_free e.1 e.2 hmem).1

/-! ## A list of names with a marker -/

/-- A list of one name. -/
def requiring (name : String) : Metadata := [("requires", .list [.str name])]

theorem properTree_requiring (name : String) : ProperTree (requiring name) := by
  refine ⟨by simp [requiring, Dict.keys], fun key value sub hmem hvalue => ?_⟩
  obtain ⟨-, rfl⟩ := Prod.mk.inj (List.mem_singleton.mp hmem)
  obtain rfl := Yaml.dict.inj hvalue
  refine ⟨by simp [normalizeList, normalizeItem, Dict.set, Dict.keys], ?_⟩
  intro key value sub hmem hvalue
  obtain ⟨-, rfl⟩ := Prod.mk.inj (List.mem_singleton.mp hmem)
  obtain rfl := Yaml.dict.inj hvalue
  exact properTree_nil

/-- Over nothing, the name stays as it is. -/
theorem mergeMeta_requiring (name : String) (no_inherit : List String) :
    mergeMeta no_inherit [] [] (requiring name) = [("requires", .dict [(name, .dict [])])] := by
  have hkey : isMarker "requires" = false := by decide
  rw [mergeMeta_eq]
  unfold requiring
  rw [List.foldl_cons, List.foldl_nil, mergeEntry, hkey]
  rfl

theorem requiring_left {no_merge : List String} (h : "requires" ∉ no_merge) :
    ¬ MarkerFree no_merge (.dict [("requires", .dict [("-x", .dict [])])]) := by
  intro hfree
  have hinner := (markerFree_dict_iff.mp hfree _ _ List.mem_cons_self).2 h
  exact absurd (markerFree_dict_iff.mp hinner _ _ List.mem_cons_self).1 (by decide)

/-- **A marker is left where the parent has nothing**: a child that takes a requirement away, over
a parent without requirements, requires the marker; and so does a path of the catalogue. -/
theorem requirement_marker_left :
    ProperTree [] ∧ ProperTree (requiring "-x") ∧ MarkerFree [] (.dict []) ∧
      ¬ MarkerFree [] (.dict (mergeMeta [] [] [] (requiring "-x"))) ∧
      ∃ level, inheritedMetadata [("", []), ("tools", requiring "-x")] "tools" = .ok level ∧
        level.no_merge = [] ∧
        (level.merged.get? "requires").map Yaml.normalized = some (.dict [("-x", .dict [])]) := by
  refine ⟨properTree_nil, properTree_requiring _, markerFree_nil, ?_, ?_⟩
  · rw [mergeMeta_requiring]
    exact requiring_left nofun
  · refine ⟨⟨[("requires", .dict [("-x", .dict [])])], [], []⟩, ?_, rfl, rfl⟩
    have hchain : chainOf [("", []), ("tools", requiring "-x")] "tools" = ["", "tools"] := by
      decide +kernel
    have hroot : Inherited.enter [("", []), ("tools", requiring "-x")] ⟨[], [], []⟩ "" =
        .ok ⟨[], [], []⟩ := by
      show Except.ok (Inherited.mk (mergeMeta [] [] [] []) [] []) = _
      rw [mergeMeta_eq]
      rfl
    have htools : Inherited.enter [("", []), ("tools", requiring "-x")] ⟨[], [], []⟩ "tools" =
        .ok ⟨[("requires", .dict [("-x", .dict [])])], [], []⟩ := by
      rw [← mergeMeta_requiring "-x" []]
      rfl
    rw [inheritedMetadata, hchain, List.foldlM_cons, hroot, Except.ok_bind, List.foldlM_cons, htools]
    rfl

/-- Over a parent that has the requirement, it is taken away. -/
theorem requirement_taken_away :
    Honours [] [] (requiring "x") (requiring "-x") (mergeMeta [] [] (requiring "x") (requiring "-x")) ∧
      MarkerFree [] (.dict (mergeMeta [] [] (requiring "x") (requiring "-x"))) := by
  have hname : isMarker "x" = false := by decide
  have hmarker : isMarker "-x" = true := by decide
  have hkey : isMarker "requires" = false := by decide
  have hmeets : MeetAt [] (requiring "x") (requiring "-x") "requires" [("x", .dict [])]
      [("-x", .dict [])] := by
    refine ⟨rfl, ?_⟩
    rw [inherited_get?, if_neg (by decide)]
    rfl
  have hrequires : ∀ key value, (requiring "-x").get? key = some value → key = "requires" := by
    intro key value hget
    have hmem := Dict.mem_of_get?_eq_some hget
    exact (Prod.mk.inj (List.mem_singleton.mp hmem)).1
  refine (markers_honoured_iff [] [] (requiring "x") (requiring "-x") (properTree_requiring _)
    (properTree_requiring _) ?_).1.mpr ⟨?_, ?_⟩
  · refine markerFree_dict_iff.mpr fun key value hmem => ?_
    obtain ⟨rfl, rfl⟩ := Prod.mk.inj (List.mem_singleton.mp hmem)
    refine ⟨hkey, fun _ => ?_⟩
    rw [← markerFree_normalized_iff]
    refine markerFree_dict_iff.mpr fun key value hmem => ?_
    obtain ⟨rfl, rfl⟩ := Prod.mk.inj (List.mem_singleton.mp hmem)
    exact ⟨hname, fun _ => markerFree_nil⟩
  · intro key parents entries _ _ h
    obtain ⟨value, hget, hvalue⟩ := Option.map_eq_some_iff.mp h.1
    obtain rfl := hrequires key value hget
    obtain rfl := Yaml.dict.inj (Option.some.inj (hmeets.1.symm.trans h.1))
    -- below the requirements there are markers only
    have hnone : ∀ key value, Dict.get? [("-x", Yaml.dict [])] key = some value →
        isMarker key = true := by
      intro key value hget
      have hmem := Dict.mem_of_get?_eq_some hget
      rw [(Prod.mk.inj (List.mem_singleton.mp hmem)).1]
      exact hmarker
    refine ⟨fun key _ _ hplain _ h => ?_, fun key value hget hplain _ _ => ?_⟩
    · obtain ⟨value, hget, -⟩ := Option.map_eq_some_iff.mp h.1
      rw [hnone key value hget] at hplain
      cases hplain
    · rw [hnone key value hget] at hplain
      cases hplain
  · intro key value hget _ _ hno
    obtain rfl := hrequires key value hget
    exact absurd hmeets (hno _ _)

end Mountin
