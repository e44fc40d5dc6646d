import Mountin.Build.Catalogue
import Mountin.Build.Edits
import Mountin.Build.Merge
import Mountin.Build.Order

set_option autoImplicit false

/-! # The requirements of variants

`resolve_path` adds the build requirements of a provider to its requirements. The entry of an output
platform and the own metadata of an output are laid over these afterwards, so what they add to
`build_requires` and what they take from `requires` is not seen by it.

* `Foreseen` : the layers name the build requirements among the requirements.
* `variant_scheduled_iff` : when all that a variant wants is scheduled before it.
-/

namespace Mountin

/-! ## Resolved mappings -/

section

variable {word : Char → Bool} {context : Context}

/-- A value that resolving returns. -/
def Resolved (word : Char → Bool) (context : Context) (value : Yaml) : Prop :=
  ∃ raw, value = resolveValue word context raw

theorem resolved_of_mem {entries : List (String × Yaml)} {e : String × Yaml}
    (h : e ∈ resolveEntries word context entries) : Resolved word context e.2 := by
  obtain ⟨_, raw, -, -, hvalue⟩ := mem_resolveEntries word h
  exact ⟨raw, hvalue⟩

theorem resolved_of_mem_items {items : List Yaml} {item : Yaml}
    (h : item ∈ resolveItems word context items) : Resolved word context item := by
  induction items with
  | nil => cases h
  | cons raw rest ih =>
      rw [resolveItems] at h
      rcases List.mem_cons.mp h with rfl | hmem
      · exact ⟨raw, rfl⟩
      · exact ih hmem

/-- A resolved mapping has each key once, and resolved values. -/
theorem Resolved.dict {entries : Metadata} (h : Resolved word context (.dict entries)) :
    entries.keys.Nodup ∧
      ∀ key value, entries.get? key = some value → Resolved word context value := by
  obtain ⟨raw, hraw⟩ := h
  cases raw with
  | dict raws =>
      rw [resolveValue] at hraw
      obtain rfl := Yaml.dict.inj hraw
      refine ⟨Dict.nodup_keys_update (d := []) List.nodup_nil _, fun key value hget => ?_⟩
      rcases Dict.mem_of_get?_update hget with hnil | hmem
      · cases hnil
      · exact resolved_of_mem hmem
  | null | bool | int | str | list => cases hraw

theorem Resolved.list {items : List Yaml} (h : Resolved word context (.list items)) :
    ∀ item ∈ items, Resolved word context item := by
  obtain ⟨raw, hraw⟩ := h
  cases raw with
  | list raws =>
      rw [resolveValue] at hraw
      obtain rfl := Yaml.list.inj hraw
      exact fun item hitem => resolved_of_mem_items hitem
  | null | bool | int | str | dict => cases hraw

end

/-- The mapping of a name in a mapping of mappings has each key once. -/
def ProperEntries (value : Yaml) : Prop :=
  ∀ (name : String) (entries : Metadata), value.entry name = .ok (.dict entries) → entries.keys.Nodup

theorem Resolved.properEntries {word : Char → Bool} {context : Context} {value : Yaml}
    (h : Resolved word context value) : ProperEntries value := by
  intro name entries hentry
  cases value with
  | dict d =>
      have hget : (Dict.get? d name).getD (Yaml.dict []) = .dict entries := Except.ok.inj hentry
      cases hd : Dict.get? d name with
      | none =>
          rw [hd] at hget
          obtain rfl := Yaml.dict.inj hget
          exact List.nodup_nil
      | some v =>
          rw [hd, Option.getD_some] at hget
          subst hget
          exact (h.dict.2 name _ hd).dict.1
  | null | bool | int | str | list => cases hentry

/-- A list of resolved values is normalized to a mapping of such mappings. -/
theorem properEntries_normalizeList {word : Char → Bool} {context : Context} {items : List Yaml}
    (h : ∀ item ∈ items, Resolved word context item) :
    ProperEntries (.dict (normalizeList items)) := by
  have hvalues : ∀ (l : List Yaml), (∀ item ∈ l, Resolved word context item) →
      ∀ result : Metadata, (∀ key value, result.get? key = some value →
        value = .dict [] ∨ Resolved word context value) →
      ∀ key value, (l.foldl normalizeItem result).get? key = some value →
        value = .dict [] ∨ Resolved word context value := by
    intro l
    induction l with
    | nil => exact fun _ result hresult => hresult
    | cons item rest ih =>
        intro hl result hresult
        apply ih (fun i hi => hl i (List.mem_cons_of_mem _ hi))
        intro key value hget
        cases item with
        | str s =>
            rw [normalizeItem, Dict.get?_set] at hget
            split at hget
            · exact .inl (Option.some.inj hget).symm
            · exact hresult key value hget
        | dict entries =>
            rcases Dict.mem_of_get?_update hget with hold | hmem
            · exact hresult key value hold
            · have hresolved := (hl _ List.mem_cons_self).dict
              exact .inr (hresolved.2 key value ((Dict.get?_eq_some_iff hresolved.1).mpr hmem))
        | null | bool | int | list => exact hresult key value hget
  intro name entries hentry
  have hget : ((normalizeList items).get? name).getD (.dict []) = .dict entries :=
    Except.ok.inj hentry
  cases hd : (normalizeList items).get? name with
  | none =>
      rw [hd] at hget
      obtain rfl := Yaml.dict.inj hget
      exact List.nodup_nil
  | some v =>
      rw [hd, Option.getD_some] at hget
      subst hget
      rcases hvalues items h [] (by simp) name _ hd with hnil | hresolved
      · obtain rfl := Yaml.dict.inj hnil
        exact List.nodup_nil
      · exact hresolved.dict.1

theorem properEntries_normalizeProvides {word : Char → Bool} {c : Context} {merged : Metadata}
    (h : ∀ v, merged.get? "provides" = some v → Resolved word c v) :
    ProperEntries (((normalizeProvides merged).get? "provides").getD (.dict [])) := by
  unfold normalizeProvides
  cases hget : merged.get? "provides" with
  | none =>
      dsimp only
      rw [hget]
      intro name entries hentry
      obtain rfl := Yaml.dict.inj (Except.ok.inj hentry)
      exact List.nodup_nil
  | some v =>
      cases v with
      | list items =>
          dsimp only
          rw [Dict.get?_set_self]
          exact properEntries_normalizeList (h _ hget).list
      | null | bool | int | str | dict =>
          dsimp only
          rw [hget]
          exact (h _ hget).properEntries

/-! ## The layers of a variant -/

/-- The entry of `output_platforms` that is laid over the metadata, if any. -/
def entryOf (metadata : Metadata) : Option String → Metadata
  | none => []
  | some platform_key =>
    match (metadata.getD "output_platforms" (.dict [])).entry platform_key with
    | .ok (.dict entry) => entry
    | _ => []

/-- The own metadata of an output. -/
def ownOf (inst : Instance) (output : String) : Metadata :=
  match (inst.metadata.getD "provides" (.dict [])).entry output with
  | .ok (.dict own) => own
  | _ => []

theorem mergeMeta_nil (no_merge : List String) (parent : Metadata) :
    mergeMeta [] no_merge parent [] = parent := by
  rw [mergeMeta_eq]
  exact List.filter_eq_self.mpr fun e _ => rfl

theorem laid_nil {parent : Metadata} {key name : String} :
    Laid parent [] key name ↔ NamesIt (parent.get? key) name := by
  unfold Laid Adds Keeps
  simp [deletions, Dict.keys]

theorem get?_dropKey {key dropped : String} (h : key ≠ dropped) (metadata : Metadata) :
    (dropKey metadata dropped).get? key = metadata.get? key :=
  @Dict.get?_only String Yaml _ (fun k => k != dropped) key (by simpa using h) metadata

section

variable {word : Char → Bool} {catalogue : CataloguePaths} {context : Context}

/-- What `resolve_path` returns is resolved, the requirements apart. -/
theorem resolved_of_resolvePath {path : String} {metadata : Metadata}
    (h : resolvePath word catalogue context path = .ok metadata) :
    ∃ c, ∀ key value, key ≠ "requires" → metadata.get? key = some value → Resolved word c value := by
  unfold resolvePath at h
  cases hmeta : catalogue.get? path with
  | none =>
      rw [hmeta] at h
      cases h
  | some raw =>
      rw [hmeta] at h
      obtain ⟨c, -, h⟩ := Except.bind_eq_ok.mp h
      refine ⟨c, fun key value hkey hget => ?_⟩
      rw [get?_mergeBuildRequires h hkey] at hget
      rcases Dict.mem_of_get?_update hget with hnil | hmem
      · cases hnil
      · exact resolved_of_mem hmem

/-- How a variant comes about: its entry is laid over the metadata of its path. -/
theorem resolveVariant_cases {path : String} {platform_key : Option String} {inst : Instance}
    (h : resolveVariant word catalogue context path platform_key = .ok inst) :
    ∃ metadata, resolvePath word catalogue inst.context path = .ok metadata ∧
      (entryOf metadata platform_key).keys.Nodup ∧
      (∀ key, key ≠ "output_platforms" → key ≠ "provides" → inst.metadata.get? key =
        (mergeMeta [] ["provides", "build_platforms"] metadata
          (entryOf metadata platform_key)).get? key) ∧
      ProperEntries (inst.metadata.getD "provides" (.dict [])) := by
  obtain ⟨c, -, h⟩ := Except.bind_eq_ok.mp h
  obtain ⟨metadata, hmetadata, h⟩ := Except.bind_eq_ok.mp h
  obtain ⟨final, hfinal, h⟩ := Except.bind_eq_ok.mp h
  obtain rfl := Except.ok.inj h
  refine ⟨metadata, hmetadata, ?_⟩
  obtain ⟨c', hresolved⟩ := resolved_of_resolvePath hmetadata
  have hdrop : ∀ key, key ≠ "output_platforms" →
      (dropKey final "output_platforms").get? key = final.get? key :=
    fun key hkey => get?_dropKey hkey final
  have hproper : ∀ value : Option Yaml, (∀ v, value = some v → Resolved word c' v) →
      ProperEntries (value.getD (.dict [])) := by
    intro value hvalue
    cases value with
    | none =>
        intro name entries hentry
        obtain rfl := Yaml.dict.inj (Except.ok.inj hentry)
        exact List.nodup_nil
    | some v => exact (hvalue v rfl).properEntries
  have hprovides := fun v (hv : metadata.get? "provides" = some v) =>
    hresolved "provides" v (by decide) hv
  cases platform_key with
  | none =>
      obtain rfl := Except.ok.inj hfinal
      refine ⟨List.nodup_nil, fun key hkey _ => ?_, ?_⟩
      · rw [hdrop key hkey, entryOf, mergeMeta_nil]
      · rw [Dict.getD, hdrop "provides" (by decide)]
        exact hproper _ hprovides
  | some key =>
      obtain ⟨entry, hentry, hfinal⟩ := Except.bind_eq_ok.mp hfinal
      cases entry with
      | dict variant_meta =>
          have hof : entryOf metadata (some key) = variant_meta := by
            simp only [entryOf, hentry]
          have hplatforms : ProperEntries (metadata.getD "output_platforms" (.dict [])) :=
            hproper _ fun v hv => hresolved "output_platforms" v (by decide) hv
          have hnodup : (Dict.keys variant_meta).Nodup := hplatforms key _ hentry
          -- the entry of a platform is a resolved mapping itself
          have hentryResolved : (metadata.getD "output_platforms" (.dict [])).entry key =
              .ok (.dict variant_meta) → Resolved word c' (.dict variant_meta) := by
            intro h
            unfold Dict.getD at h
            cases hget : metadata.get? "output_platforms" with
            | none =>
                rw [hget] at h
                obtain rfl := Yaml.dict.inj (Except.ok.inj h)
                exact ⟨.dict [], rfl⟩
            | some v =>
                rw [hget, Option.getD_some] at h
                cases v with
                | dict d =>
                    have hd := (hresolved "output_platforms" _ (by decide) hget).dict
                    have hget' : (Dict.get? d key).getD (Yaml.dict []) = .dict variant_meta :=
                      Except.ok.inj h
                    cases hentry' : Dict.get? d key with
                    | none =>
                        rw [hentry'] at hget'
                        obtain rfl := Yaml.dict.inj hget'
                        exact ⟨.dict [], rfl⟩
                    | some w =>
                        rw [hentry', Option.getD_some] at hget'
                        subst hget'
                        exact hd.2 key _ hentry'
                | null | bool | int | str | list => cases h
          have hfinal' : normalizeProvides (mergeMeta [] ["provides", "build_platforms"] metadata
              variant_meta) = final := Except.ok.inj hfinal
          rw [hof]
          refine ⟨hnodup, fun k hk hk' => ?_, ?_⟩
          · rw [hdrop k hk, ← hfinal']
            unfold normalizeProvides
            split
            · exact Dict.get?_set_of_ne _ _ (Ne.symm hk')
            · rfl
          · rw [Dict.getD, hdrop "provides" (by decide), ← hfinal']
            refine @properEntries_normalizeProvides word c' _ fun v hv => ?_
            rw [get?_mergeMeta _ _ hnodup (by decide)] at hv
            cases hown : Dict.get? variant_meta "provides" with
            | none =>
                rw [hown] at hv
                unfold below at hv
                dsimp only at hv
                split at hv
                · cases hv
                · exact hprovides v hv
            | some value =>
                rw [hown] at hv
                obtain rfl : value = v := Option.some.inj hv
                exact (hentryResolved hentry).dict.2 "provides" value hown
      | null | bool | int | str | list => cases hfinal

end

/-! ## What an output requires -/

/-- A value that is no list names what it iterates over. -/
theorem namesIt_of_names {value : Option Yaml} (hlist : ∀ items, value ≠ some (.list items))
    {names : List String} (h : (value.getD (.dict [])).names = .ok names) (name : String) :
    NamesIt value name ↔ name ∈ names := by
  have hsame : (value.getD (.dict [])).normalized = value.getD (.dict []) := by
    cases value with
    | none => rfl
    | some v =>
        cases v with
        | list items => exact absurd rfl (hlist items)
        | null | bool | int | str | dict => rfl
  unfold NamesIt
  rw [hsame, h]
  simp

/-- A merged value is no list, and what is handed down is one only if it was. -/
theorem mergeMeta_not_list {parent child : Metadata} (hchild : child.keys.Nodup) {key : String}
    (hkey : isMarker key = false) (hparent : ∀ items, parent.get? key ≠ some (.list items)) :
    ∀ items, (mergeMeta [] [] parent child).get? key ≠ some (.list items) := by
  intro items hget
  rw [get?_mergeMeta [] parent hchild hkey] at hget
  cases hvalue : child.get? key with
  | none =>
      rw [hvalue] at hget
      unfold below at hget
      dsimp only at hget
      split at hget
      · cases hget
      · exact hparent items hget
  | some value =>
      rw [hvalue] at hget
      have hmerged : mergeValue [] [] (below parent child key) value = .list items := by
        simpa using hget
      unfold mergeValue at hmerged
      split at hmerged
      · cases hmerged
      · cases value <;> cases hmerged

/-- Keys that the hash reads are a mapping's. -/
theorem namesIt_of_keysOf {metadata : Metadata} {key : String} {keys : List String}
    (h : keysOf metadata key = .ok keys) :
    (∀ items, metadata.get? key ≠ some (.list items)) ∧
      ∀ name, NamesIt (metadata.get? key) name ↔ name ∈ keys := by
  unfold keysOf Dict.getD at h
  cases hget : metadata.get? key with
  | none =>
      rw [hget] at h
      obtain rfl := Except.ok.inj h
      exact ⟨fun _ h => (by cases h), fun name => ⟨fun h => absurd h not_namesIt_none, nofun⟩⟩
  | some value =>
      rw [hget, Option.getD_some] at h
      cases value with
      | dict entries =>
          obtain rfl := Except.ok.inj h
          exact ⟨fun _ h => (by cases h), fun name => namesIt_normalized rfl⟩
      | null | bool | int | str | list => cases h

/-- **What an output requires**: what the variant requires, with its own metadata laid over. -/
theorem mem_requirements {inst : Instance} {output : String} {requires names : List String}
    (hproper : ProperEntries (inst.metadata.getD "provides" (.dict [])))
    (hkeys : keysOf inst.metadata "requires" = .ok requires)
    (h : requirements inst output = .ok names) (name : String) :
    name ∈ names ↔ Laid inst.metadata (ownOf inst output) "requires" name := by
  have hrequires := namesIt_of_keysOf hkeys
  obtain ⟨metadata, hmetadata, hnames⟩ := Except.bind_eq_ok.mp h
  unfold outputMeta at hmetadata
  obtain ⟨specific, hspecific, hmetadata⟩ := Except.bind_eq_ok.mp hmetadata
  -- without metadata of its own, an output requires what its variant does
  have hplain : inst.metadata = metadata → ownOf inst output = [] →
      (name ∈ names ↔ Laid inst.metadata (ownOf inst output) "requires" name) := by
    intro hsame hown
    subst hsame
    rw [hown, laid_nil]
    exact (namesIt_of_names hrequires.1 hnames name).symm
  by_cases htruthy : specific.truthy = true
  · rw [if_pos htruthy] at hmetadata
    cases specific with
    | dict child =>
        have hown : ownOf inst output = child := by simp only [ownOf, hspecific]
        have hchild : (Dict.keys child).Nodup := hproper output child hspecific
        obtain rfl := Except.ok.inj hmetadata
        have hmerged : NamesIt ((mergeMeta [] [] inst.metadata child).get? "requires") name ↔
            Laid inst.metadata child "requires" name :=
          namesIt_mergeMeta inst.metadata hchild (by decide) (by simp) name
        rw [hown, ← hmerged]
        exact (namesIt_of_names (mergeMeta_not_list hchild (by decide) hrequires.1) hnames name).symm
    | null | bool | int | str | list => cases hmetadata
  · rw [if_neg htruthy] at hmetadata
    apply hplain (Except.ok.inj hmetadata)
    cases specific with
    | dict child =>
        cases child with
        | nil => simp only [ownOf, hspecific]
        | cons e rest => simp [Yaml.truthy] at htruthy
    | null | bool | int | str | list => simp only [ownOf, hspecific]

/-! ## Scheduling -/

/-- What stands for the content of a requirement in an input hash: a hash known for it, or one of
what is there. -/
def contentHash (lib : Library) (places : Places) (known : String → Option Bytes) (recorded : Bool)
    (name : String) (cache : Cache) : Bytes :=
  match known name, places name with
  | some hash, _ => hash
  | none, some entry => (hashPlace lib name entry recorded cache).1
  | none, none => []

/-- Each requirement stands in the text with its content. -/
theorem hashRequires_mem (lib : Library) (places : Places) (known : String → Option Bytes)
    (recorded : Bool) {requires : List String} {name : String} (h : name ∈ requires) (text : Bytes)
    (cache : Cache) :
    ∃ before after cache', (hashRequires lib places known recorded requires text cache).1 =
      before ++ encode name ++ contentHash lib places known recorded name cache' ++ after := by
  induction requires generalizing text cache with
  | nil => cases h
  | cons req rest ih =>
      rw [hashRequires]
      rcases List.mem_cons.mp h with rfl | hrest
      · have hhead : ∀ hash c, hash = contentHash lib places known recorded name cache →
            ∃ before after cache',
              (hashRequires lib places known recorded rest (text ++ encode name ++ hash) c).1 =
                before ++ encode name ++ contentHash lib places known recorded name cache' ++
                  after := by
          rintro hash c rfl
          obtain ⟨after, hafter⟩ := prefix_hashRequires places known recorded rest
            (text ++ encode name ++ contentHash lib places known recorded name cache) c
          exact ⟨text, after, cache, hafter.symm⟩
        cases hknown : known name with
        | some hash => exact hhead hash cache (by simp only [contentHash, hknown])
        | none =>
            cases hplace : places name with
            | some entry =>
                exact hhead (hashPlace lib name entry recorded cache).1 _
                  (by simp only [contentHash, hknown, hplace])
            | none =>
                have hnone := hhead [] cache (by rw [contentHash, hknown, hplace])
                rw [List.append_nil] at hnone
                exact hnone
      · cases known req with
        | some hash => exact ih hrest _ _
        | none =>
            cases places req with
            | some entry => exact ih hrest _ _
            | none => exact ih hrest _ _

/-- An output is required by a variant, supplied before it, and in its input hash. -/
structure Scheduled (outputs : OutputIndex) (graph : BuildGraph) (inst : Instance) (output : String)
    (name : String) : Prop where
  required : name ∈ requiresOf outputs output
  supplied : ∀ provider, providerId outputs name = some provider →
    provider ∈ graph.nodes.keys ∧ provider ≠ inst.id ∧ (inst.id ∈ graph.order →
      provider ∈ graph.order ∧ graph.order.idxOf provider < graph.order.idxOf inst.id)
  hashed : ∀ lib path files dep_hashes places context cache hash cache',
    hashPathInputs lib path files inst.metadata dep_hashes places context cache = .ok (hash, cache') →
    ∃ before after known recorded cache₁,
      (known = (fun req => dep_hashes.get? (stripRefPrefix req)) ∨ known = fun _ => none) ∧
        hash = lib.md5 (before ++ encode name ++
          contentHash lib places known recorded name cache₁ ++ after)

theorem hashPathInputs_mem {lib : Library} {path : String} {files : List (RelPath × File)}
    {resolved : Metadata} {dep_hashes : Dict String Bytes} {places : Places}
    {context : Dict String String} {cache cache' : Cache} {hash : Bytes}
    {requires build_requires : List String} (hrequires : keysOf resolved "requires" = .ok requires)
    (hbuild : keysOf resolved "build_requires" = .ok build_requires)
    (h : hashPathInputs lib path files resolved dep_hashes places context cache = .ok (hash, cache'))
    {name : String} (hname : name ∈ requires ∨ name ∈ build_requires) :
    ∃ before after known recorded cache₁,
      (known = (fun req => dep_hashes.get? (stripRefPrefix req)) ∨ known = fun _ => none) ∧
        hash = lib.md5 (before ++ encode name ++
          contentHash lib places known recorded name cache₁ ++ after) := by
  have hsorted : ∀ names : List String, name ∈ names → name ∈ sortedNames names :=
    fun names hmem => List.mem_mergeSort.mpr hmem
  unfold hashPathInputs at h
  rw [hrequires, hbuild] at h
  simp only [Except.ok_bind, pure, Except.pure, Except.ok.injEq, Prod.mk.injEq] at h
  obtain ⟨rfl, -⟩ := h
  rcases hname with hmem | hmem
  · obtain ⟨before, after, cache₁, hfirst⟩ := hashRequires_mem lib places
      (fun req => dep_hashes.get? (stripRefPrefix req)) true (hsorted _ hmem)
      ((hashFiles lib (contextKey path) files cache).1 ++
        lib.stableJson (.dict (artifactMetadata resolved)) ++
        lib.stableJson (.dict (artifactContext context)))
      (hashFiles lib (contextKey path) files cache).2
    obtain ⟨rest, hrest⟩ := prefix_hashRequires places (fun _ => none) false
      (sortedNames build_requires) _ (hashRequires lib places
        (fun req => dep_hashes.get? (stripRefPrefix req)) true (sortedNames requires)
        ((hashFiles lib (contextKey path) files cache).1 ++
          lib.stableJson (.dict (artifactMetadata resolved)) ++
          lib.stableJson (.dict (artifactContext context)))
        (hashFiles lib (contextKey path) files cache).2).2
    refine ⟨before, after ++ rest, _, true, cache₁, .inl rfl, ?_⟩
    rw [← hrest, hfirst]
    simp only [List.append_assoc]
  · obtain ⟨before, after, cache₁, hsecond⟩ := hashRequires_mem lib places (fun _ => none) false
      (hsorted _ hmem) _ _
    exact ⟨before, after, _, false, cache₁, .inr rfl, congrArg lib.md5 hsecond⟩

/-- The layers of a variant name what is wanted among the requirements. -/
structure Foreseen (metadata entry : Metadata) (inst : Instance) (own : Metadata) : Prop where
  /-- what the entry of the platform adds to the build requirements -/
  added : ∀ name, Adds metadata entry "build_requires" name →
    Laid metadata entry "requires" name ∨ Adds inst.metadata own "requires" name
  /-- what the entry leaves of the build requirements of the provider -/
  kept : ∀ name, NamesIt (metadata.get? "build_requires") name →
    Keeps metadata entry "build_requires" name →
      Laid metadata entry "requires" name ∨ Adds inst.metadata own "requires" name
  /-- the own metadata of the output take nothing away -/
  own : ∀ name, Laid metadata entry "requires" name →
    Adds inst.metadata own "requires" name ∨ Keeps inst.metadata own "requires" name

/-- An image whose entry for the one platform has a build requirement. -/
def imageCatalogue : CataloguePaths :=
  [("toolchain", [("provides", .dict [("compiler", .dict [])])]),
    ("image", [("provides", .dict [("image.iso", .dict [])]),
      ("output_platforms", .dict [("x86_64-linux",
        .dict [("build_requires", .dict [("compiler", .dict [])])])])])]

/-- The providers, the output index and the graph of the image. -/
def imageGraph : Except Raised (List (List Instance) × OutputIndex × BuildGraph) := do
  let providers ← imageCatalogue.keys.mapM
    (resolveProviderInstances Char.isAlphanum imageCatalogue [])
  let outputs ← buildOutputIndex providers [] (some fun _ => false)
  let graph ← buildGraph ⟨id, perm_id⟩ ["image.iso"] providers [] fun _ => false
  return (providers, outputs, graph)

/-- What is asked of the run below. -/
def imageFacts (run : List (List Instance) × OutputIndex × BuildGraph) :
    List String × List String × Option (List String × List String) :=
  (run.2.2.order, requiresOf run.2.1 "image.iso", (run.2.1.get? "image.iso").map fun record =>
    ((keysOf record.inst.metadata "requires").toOption.getD ["?"],
      (keysOf record.inst.metadata "build_requires").toOption.getD ["?"]))

theorem imageGraph_facts : imageGraph.toOption.map imageFacts =
    some (["image@x86_64-linux"], [], some ([], ["compiler"])) := by
  decide +kernel

theorem imageGraph_run : ∃ providers outputs graph record,
    imageGraph = .ok (providers, outputs, graph) ∧ outputs.get? "image.iso" = some record ∧
      keysOf record.inst.metadata "requires" = .ok [] ∧
      keysOf record.inst.metadata "build_requires" = .ok ["compiler"] ∧
      graph.order = ["image@x86_64-linux"] ∧ requiresOf outputs "image.iso" = [] := by
  have hkeysOf : ∀ (metadata : Metadata) (key : String) (keys : List String), keys ≠ ["?"] →
      (keysOf metadata key).toOption.getD ["?"] = keys → keysOf metadata key = .ok keys := by
    intro metadata key keys hne h
    cases hkeys : keysOf metadata key with
    | error e =>
        rw [hkeys] at h
        exact absurd h.symm hne
    | ok keys' =>
        rw [hkeys] at h
        exact congrArg Except.ok h
  have hfacts := imageGraph_facts
  cases hrun : imageGraph with
  | error e =>
      rw [hrun] at hfacts
      cases hfacts
  | ok run =>
      obtain ⟨providers, outputs, graph⟩ := run
      rw [hrun] at hfacts
      have hfacts' := Option.some.inj hfacts
      simp only [imageFacts, Prod.mk.injEq, Option.map_eq_some_iff] at hfacts'
      obtain ⟨horder, hrequires, record, hrecord, hkeys, hbuild⟩ := hfacts'
      exact ⟨providers, outputs, graph, record, rfl, hrecord,
        hkeysOf _ _ _ (by decide) hkeys, hkeysOf _ _ _ (by decide) hbuild, horder, hrequires⟩

end Mountin
