import Mountin.Basic.Views
import Mountin.Build.Cache
import Mountin.Build.Catalogue
import Mountin.Build.Merge

set_option autoImplicit false

/-! # Operational settings and input hashes

The operational variables say how and where a build runs. Where a catalogue refers to them in
`execution_env` alone, no input hash depends on them: two runs that differ in them resolve to
metadata that differ in `execution_env` alone, and this the hash leaves out.

* `visible` : the metadata without `execution_env`, here and in the entries of the platforms.
* `resolvePath_visible` : what two runs resolve looks the same.
* `variantHashes_operational` : the input hashes of all variants are the same.
-/

namespace Mountin

/-- The variables that control how a build runs. -/
def isOperational (name : String) : Bool :=
  name == "MOUNTIN_CACHE_DIR" || "MOUNTIN_BUILD_".toList.isPrefixOf name.toList

def notOperational (name : String) : Bool := !isOperational name

/-! ## What a value refers to -/

section

variable (word : Char → Bool)

mutual

/-- The variables that a value refers to, in its keys also. -/
def references : Yaml → List String
  | .str s => referencesOf word s
  | .list items => referencesOfItems items
  | .dict entries => referencesOfEntries entries
  | _ => []

def referencesOfItems : List Yaml → List String
  | [] => []
  | item :: rest => references item ++ referencesOfItems rest

def referencesOfEntries : List (String × Yaml) → List String
  | [] => []
  | (key, value) :: rest => referencesOf word key ++ references value ++ referencesOfEntries rest

end

/-- The value refers to no operational variable. -/
def Quiet (value : Yaml) : Prop := ∀ name ∈ references word value, isOperational name = false

/-- The text refers to no operational variable. -/
def QuietText (text : String) : Prop := ∀ name ∈ referencesOf word text, isOperational name = false

end

/-! ## What stays visible -/

/-- The keys that are not `execution_env`. -/
def notExecutionEnv (key : String) : Bool := key != "execution_env"

/-- The entry of a platform without its `execution_env`. -/
def hideExecutionEnv : Yaml → Yaml
  | .dict entries => .dict (Dict.only notExecutionEnv entries)
  | value => value

/-- `output_platforms` without the `execution_env` of the entries. -/
def hideInEntries : Yaml → Yaml
  | .dict entries => .dict (Dict.mapValues (fun _ => hideExecutionEnv) entries)
  | value => value

def visibleValue (key : String) (value : Yaml) : Yaml :=
  if key = "output_platforms" then hideInEntries value else value

/-- The metadata without `execution_env`, at the provider and in the entries of its platforms. -/
def visible (metadata : Metadata) : Metadata :=
  Dict.mapValues visibleValue (Dict.only notExecutionEnv metadata)

/-- The catalogue refers to operational variables only inside `execution_env`. -/
def OperationalHidden (word : Char → Bool) (catalogue : CataloguePaths) : Prop :=
  ∀ path metadata, catalogue.get? path = some metadata → Quiet word (.dict (visible metadata))

/-- Two contexts that differ in operational variables alone. -/
def SameButOperational (context context' : Context) : Prop :=
  Dict.only notOperational context = Dict.only notOperational context'

/-! ## Resolving -/

section

variable {word : Char → Bool} {context context' : Context}

theorem SameButOperational.get? (h : SameButOperational context context') {name : String}
    (hname : isOperational name = false) : context.get? name = context'.get? name := by
  have hkeep : notOperational name = true := by simp [notOperational, hname]
  rw [← Dict.get?_only hkeep context, h, Dict.get?_only hkeep]

theorem quiet_dict {entries : List (String × Yaml)} :
    Quiet word (.dict entries) ↔ ∀ e ∈ entries, QuietText word e.1 ∧ Quiet word e.2 := by
  have hrefs : ∀ name, name ∈ referencesOfEntries word entries ↔
      ∃ e ∈ entries, name ∈ referencesOf word e.1 ∨ name ∈ references word e.2 := by
    intro name
    induction entries with
    | nil => simp [referencesOfEntries]
    | cons e rest ih => simp [referencesOfEntries, ih, or_assoc]
  unfold Quiet QuietText
  simp only [references, hrefs]
  constructor
  · exact fun h e he => ⟨fun n hn => h n ⟨e, he, .inl hn⟩, fun n hn => h n ⟨e, he, .inr hn⟩⟩
  · rintro h name ⟨e, he, hname | hname⟩
    · exact (h e he).1 name hname
    · exact (h e he).2 name hname

theorem quiet_list {items : List Yaml} :
    Quiet word (.list items) ↔ ∀ item ∈ items, Quiet word item := by
  have hrefs : ∀ name, name ∈ referencesOfItems word items ↔
      ∃ item ∈ items, name ∈ references word item := by
    intro name
    induction items with
    | nil => simp [referencesOfItems]
    | cons item rest ih => simp [referencesOfItems, ih]
  unfold Quiet
  simp only [references, hrefs]
  constructor
  · exact fun h item hitem n hn => h n ⟨item, hitem, hn⟩
  · rintro h name ⟨item, hitem, hname⟩
    exact h item hitem name hname

theorem resolveVars_quiet (h : SameButOperational context context') {text : String}
    (hq : QuietText word text) : resolveVars word text context = resolveVars word text context' :=
  resolveVars_congr word fun name hname => h.get? (hq name hname)

mutual

theorem resolveValue_quiet (h : SameButOperational context context') :
    ∀ value : Yaml, Quiet word value → resolveValue word context value = resolveValue word context' value
  | .str s, hq => by
      simp only [resolveValue]
      rw [resolveVars_quiet h hq]
  | .list items, hq => by
      simp only [resolveValue]
      rw [resolveItems_quiet h items (quiet_list.mp hq)]
  | .dict entries, hq => by
      simp only [resolveValue]
      rw [resolveEntries_quiet h entries (quiet_dict.mp hq)]
  | .null, _ => rfl
  | .bool _, _ => rfl
  | .int _, _ => rfl

theorem resolveItems_quiet (h : SameButOperational context context') :
    ∀ items : List Yaml, (∀ item ∈ items, Quiet word item) →
      resolveItems word context items = resolveItems word context' items
  | [], _ => rfl
  | item :: rest, hq => by
      simp only [resolveItems]
      rw [resolveValue_quiet h item (hq item List.mem_cons_self),
        resolveItems_quiet h rest fun i hi => hq i (List.mem_cons_of_mem _ hi)]

theorem resolveEntries_quiet (h : SameButOperational context context') :
    ∀ entries : List (String × Yaml), (∀ e ∈ entries, QuietText word e.1 ∧ Quiet word e.2) →
      resolveEntries word context entries = resolveEntries word context' entries
  | [], _ => rfl
  | (key, value) :: rest, hq => by
      simp only [resolveEntries]
      rw [resolveVars_quiet h (hq (key, value) List.mem_cons_self).1,
        resolveValue_quiet h value (hq (key, value) List.mem_cons_self).2,
        resolveEntries_quiet h rest fun e he => hq e (List.mem_cons_of_mem _ he)]

end

/-- A key without references stays as it is. -/
theorem resolveVars_execution_env (context : Context) :
    resolveVars word "execution_env" context = "execution_env" := rfl

theorem resolveVars_output_platforms (context : Context) :
    resolveVars word "output_platforms" context = "output_platforms" := rfl

/-- Two runs resolve entries alike as far as they are visible, when they resolve each entry so. -/
theorem resolveEntries_congr {f : String → Yaml → Yaml} {entries : List (String × Yaml)}
    (h : ∀ e ∈ entries, e.1 ≠ "execution_env" →
      resolveVars word e.1 context = resolveVars word e.1 context' ∧
        ∀ key, key = resolveVars word e.1 context →
          f key (resolveValue word context e.2) = f key (resolveValue word context' e.2)) :
    Dict.mapValues f (Dict.only notExecutionEnv (resolveEntries word context entries)) =
      Dict.mapValues f (Dict.only notExecutionEnv (resolveEntries word context' entries)) := by
  induction entries with
  | nil => rfl
  | cons e rest ih =>
      rcases e with ⟨key, value⟩
      have hrest := ih fun e he => h e (List.mem_cons_of_mem _ he)
      simp only [resolveEntries, Dict.only_cons]
      by_cases hkey : key = "execution_env"
      · -- the entry is dropped in both runs, whatever it resolves to
        subst hkey
        rw [resolveVars_execution_env, resolveVars_execution_env]
        exact hrest
      · obtain ⟨hkeys, hvalues⟩ := h (key, value) List.mem_cons_self hkey
        rw [← hkeys]
        split
        · have hvalue := hvalues _ rfl
          simp only [Dict.mapValues, List.map_cons] at hrest ⊢
          rw [hrest, hvalue]
        · exact hrest

theorem mapValues_id (d : Metadata) : Dict.mapValues (fun _ value => value) d = d := by
  simp [Dict.mapValues]

theorem hideExecutionEnv_resolveValue (h : SameButOperational context context') {value : Yaml}
    (hq : Quiet word (hideExecutionEnv value)) :
    hideExecutionEnv (resolveValue word context value) =
      hideExecutionEnv (resolveValue word context' value) := by
  cases value with
  | dict entries =>
      have hcongr : Dict.mapValues (fun _ value => value)
            (Dict.only notExecutionEnv (resolveEntries word context entries)) =
          Dict.mapValues (fun _ value => value)
            (Dict.only notExecutionEnv (resolveEntries word context' entries)) := by
        apply resolveEntries_congr
        intro e he hkey
        have hvisible : e ∈ Dict.only notExecutionEnv entries :=
          List.mem_filter.mpr ⟨he, by simpa [notExecutionEnv] using hkey⟩
        obtain ⟨hqkey, hqvalue⟩ := quiet_dict.mp hq e hvisible
        exact ⟨resolveVars_quiet h hqkey, fun _ _ => resolveValue_quiet h e.2 hqvalue⟩
      rw [mapValues_id, mapValues_id] at hcongr
      simp only [resolveValue, hideExecutionEnv, Dict.only_update, hcongr]
  | list items => rw [resolveValue_quiet h (.list items) hq]
  | str s => rw [resolveValue_quiet h (.str s) hq]
  | null | bool | int => rfl

theorem hideInEntries_resolveValue (h : SameButOperational context context') {value : Yaml}
    (hq : Quiet word (hideInEntries value)) :
    hideInEntries (resolveValue word context value) =
      hideInEntries (resolveValue word context' value) := by
  cases value with
  | dict entries =>
      -- the entries of the platforms, one by one
      have hentries : ∀ (l : List (String × Yaml)), (∀ e ∈ l, e ∈ entries) →
          Dict.mapValues (fun _ => hideExecutionEnv) (resolveEntries word context l) =
            Dict.mapValues (fun _ => hideExecutionEnv) (resolveEntries word context' l) := by
        intro l hl
        induction l with
        | nil => rfl
        | cons e rest ih =>
            have hmem : (e.1, hideExecutionEnv e.2) ∈
                Dict.mapValues (fun _ => hideExecutionEnv) entries :=
              List.mem_map.mpr ⟨e, hl e List.mem_cons_self, rfl⟩
            obtain ⟨hqkey, hqvalue⟩ := quiet_dict.mp hq _ hmem
            have hrest := ih fun e' he' => hl e' (List.mem_cons_of_mem _ he')
            simp only [Dict.mapValues, resolveEntries, List.map_cons] at hrest ⊢
            rw [resolveVars_quiet h hqkey, hideExecutionEnv_resolveValue h hqvalue, hrest]
      simp only [resolveValue, hideInEntries, Dict.mapValues_update,
        hentries entries fun _ he => he]
  | list items => rw [resolveValue_quiet h (.list items) hq]
  | str s => rw [resolveValue_quiet h (.str s) hq]
  | null | bool | int => rfl

theorem visible_update (d item : Metadata) :
    visible (Dict.update d item) = Dict.update (visible d) (visible item) := by
  unfold visible
  rw [Dict.only_update, Dict.mapValues_update]

/-- Resolved metadata look the same in both runs. -/
theorem visible_resolveEntries (h : SameButOperational context context') {metadata : Metadata}
    (hq : Quiet word (.dict (visible metadata))) :
    visible (resolveEntries word context metadata) =
      visible (resolveEntries word context' metadata) := by
  apply resolveEntries_congr
  intro e he hkey
  have hvisible : (e.1, visibleValue e.1 e.2) ∈ visible metadata :=
    List.mem_map.mpr
      ⟨e, List.mem_filter.mpr ⟨he, by simpa [notExecutionEnv] using hkey⟩, rfl⟩
  obtain ⟨hqkey, hqvalue⟩ := quiet_dict.mp hq _ hvisible
  refine ⟨resolveVars_quiet h hqkey, fun key hresolved => ?_⟩
  dsimp only at hqkey hqvalue
  unfold visibleValue at hqvalue ⊢
  by_cases hplatforms : e.1 = "output_platforms"
  · -- the key resolves to itself, so the entries are looked into in both runs
    rw [if_pos hplatforms] at hqvalue
    rw [hplatforms, resolveVars_output_platforms] at hresolved
    rw [if_pos hresolved, if_pos hresolved]
    exact hideInEntries_resolveValue h hqvalue
  · rw [if_neg hplatforms] at hqvalue
    rw [resolveValue_quiet h e.2 hqvalue]

/-! ## Paths -/

theorem only_set_congr {context context' : Context} (h : SameButOperational context context')
    (name value : String) : SameButOperational (context.set name value) (context'.set name value) := by
  unfold SameButOperational at h ⊢
  by_cases hname : notOperational name = true
  · rw [Dict.only_set_of_keep hname, Dict.only_set_of_keep hname, h]
  · rw [Bool.not_eq_true] at hname
    rw [Dict.only_set_of_drop hname, Dict.only_set_of_drop hname, h]

theorem resolveEnv_operational (h : SameButOperational context context') {env : Metadata}
    (hq : Quiet word (.dict env)) :
    (resolveEnv word env context).map (Dict.only notOperational) =
      (resolveEnv word env context').map (Dict.only notOperational) := by
  apply Except.map_foldlM_congr _ h
  intro definition hdefinition c c' hc
  unfold defineVar
  cases hvalue : definition.2 with
  | str value =>
      have hquiet : QuietText word value := by
        have := (quiet_dict.mp hq definition hdefinition).2
        rw [hvalue] at this
        exact this
      dsimp only
      rw [resolveVars_quiet hc hquiet]
      exact congrArg Except.ok (only_set_congr hc _ _)
  | null | bool | int | list | dict => rfl

theorem get?_visible {key : String} (hkey : notExecutionEnv key = true) (metadata : Metadata) :
    (visible metadata).get? key = (metadata.get? key).map (visibleValue key) := by
  unfold visible
  rw [Dict.get?_mapValues, Dict.get?_only hkey]

/-- The variables that a level defines refer to no operational ones. -/
theorem quiet_envOf {catalogue : CataloguePaths} (hcatalogue : OperationalHidden word catalogue)
    {ancestor : String} {env : Metadata} (henv : envOf catalogue ancestor = .ok env) :
    Quiet word (.dict env) := by
  have hnil : Quiet word (.dict []) := quiet_dict.mpr fun e he => absurd he List.not_mem_nil
  unfold envOf at henv
  cases hmeta : catalogue.get? ancestor with
  | none =>
      rw [Dict.getD, hmeta] at henv
      obtain rfl := Except.ok.inj henv
      exact hnil
  | some metadata =>
      rw [Dict.getD, hmeta, Option.getD_some] at henv
      cases hvalue : metadata.get? "env" with
      | none =>
          rw [hvalue] at henv
          obtain rfl := Except.ok.inj henv
          exact hnil
      | some value =>
          rw [hvalue] at henv
          dsimp only at henv
          split at henv
          · cases value with
            | dict definitions =>
                obtain rfl := Except.ok.inj henv
                have hget := @get?_visible "env" rfl metadata
                rw [hvalue] at hget
                exact (quiet_dict.mp (hcatalogue ancestor metadata hmeta) _
                  (Dict.mem_of_get?_eq_some hget)).2
            | null | bool | int | str | list => cases henv
          · obtain rfl := Except.ok.inj henv
            exact hnil

theorem accumulated_operational {catalogue : CataloguePaths}
    (hcatalogue : OperationalHidden word catalogue) (h : SameButOperational context context')
    (path : String) :
    (accumulated word catalogue context path).map (Dict.only notOperational) =
      (accumulated word catalogue context' path).map (Dict.only notOperational) := by
  apply Except.map_foldlM_congr _ h
  intro ancestor _ c c' hc
  unfold enterLevel
  cases henv : envOf catalogue ancestor with
  | error e => rfl
  | ok env => exact resolveEnv_operational hc (quiet_envOf hcatalogue henv)

theorem visible_set {key : String} (hkey : notExecutionEnv key = true)
    (hplatforms : key ≠ "output_platforms") (metadata : Metadata) (value : Yaml) :
    visible (Dict.set metadata key value) = Dict.set (visible metadata) key value := by
  unfold visible
  rw [Dict.only_set_of_keep hkey, Dict.mapValues_set, visibleValue, if_neg hplatforms]

/-- Merging the build requirements reads and writes visible keys. -/
theorem mergeBuildRequires_visible (metadata : Metadata) :
    (mergeBuildRequires metadata).map visible = mergeBuildRequires (visible metadata) := by
  have hbuild : (visible metadata).get? "build_requires" = metadata.get? "build_requires" := by
    rw [get?_visible rfl]
    cases metadata.get? "build_requires" <;> rfl
  have hrequires : (visible metadata).get? "requires" = metadata.get? "requires" := by
    rw [get?_visible rfl]
    cases metadata.get? "requires" <;> rfl
  unfold mergeBuildRequires
  rw [hbuild, Dict.getD, Dict.getD, hrequires]
  cases metadata.get? "build_requires" with
  | none => rfl
  | some build_requires =>
      dsimp only
      cases build_requires.names with
      | error e => rfl
      | ok keys =>
          simp only [Except.ok_bind]
          cases keys.foldlM (requireAlso build_requires)
              ((metadata.get? "requires").getD (.dict [])) with
          | error e => rfl
          | ok requires =>
              exact congrArg Except.ok (visible_set rfl (by decide) metadata requires)

/-- **What two runs resolve for a path looks the same.** -/
theorem resolvePath_visible {catalogue : CataloguePaths}
    (hcatalogue : OperationalHidden word catalogue) (h : SameButOperational context context')
    (path : String) :
    (resolvePath word catalogue context path).map visible =
      (resolvePath word catalogue context' path).map visible := by
  unfold resolvePath
  cases hmeta : catalogue.get? path with
  | none => rfl
  | some metadata =>
      apply Except.map_bind_congr (accumulated_operational hcatalogue h path)
      intro c c' hc
      rw [mergeBuildRequires_visible, mergeBuildRequires_visible, visible_update, visible_update,
        visible_resolveEntries hc (hcatalogue path metadata hmeta)]

/-! ## Variants -/

/-- The keys of a variant that its input hash is made of. -/
def isHashed (key : String) : Bool := notExecutionEnv key && key != "output_platforms"

theorem only_isHashed_visible (metadata : Metadata) :
    Dict.only isHashed (visible metadata) = Dict.only isHashed metadata := by
  induction metadata with
  | nil => rfl
  | cons e rest ih =>
      have hcons : visible (e :: rest) = if notExecutionEnv e.1 then
          (e.1, visibleValue e.1 e.2) :: visible rest else visible rest := by
        unfold visible
        rw [Dict.only_cons]
        split <;> rfl
      rw [hcons, Dict.only_cons]
      by_cases hkey : notExecutionEnv e.1 = true
      · rw [if_pos hkey, Dict.only_cons, ih]
        by_cases hplatforms : e.1 = "output_platforms"
        · simp [isHashed, hplatforms]
        · rw [visibleValue, if_neg hplatforms]
      · have hdrop : isHashed e.1 = false := by simp [isHashed, hkey]
        rw [if_neg hkey, ih, if_neg (by simp [hdrop])]

/-- A merge has what it has at the hashed keys from these keys. -/
theorem only_isHashed_mergeMeta (no_inherit no_merge : List String) (parent child : Metadata) :
    Dict.only isHashed (mergeMeta no_inherit no_merge parent child) =
      mergeMeta no_inherit no_merge (Dict.only isHashed parent) (Dict.only isHashed child) := by
  apply only_mergeMeta
  intro key hmarker
  have hexec : key ≠ "execution_env" := by
    rintro rfl
    exact absurd hmarker (by decide)
  have hplatforms : key ≠ "output_platforms" := by
    rintro rfl
    exact absurd hmarker (by decide)
  simp [isHashed, notExecutionEnv, hexec, hplatforms]

theorem only_isHashed_notExecutionEnv (d : Metadata) :
    Dict.only isHashed (Dict.only notExecutionEnv d) = Dict.only isHashed d := by
  unfold Dict.only
  rw [List.filter_filter]
  apply List.filter_congr
  intro e _
  simp only [isHashed]
  cases notExecutionEnv e.1 <;> simp

/-- The entry of a platform, as far as it is visible. -/
theorem entry_visible (metadata : Metadata) (platform_key : String) :
    ((visible metadata).getD "output_platforms" (.dict [])).entry platform_key =
      ((metadata.getD "output_platforms" (.dict [])).entry platform_key).map hideExecutionEnv := by
  unfold Dict.getD
  rw [get?_visible rfl]
  cases metadata.get? "output_platforms" with
  | none => rfl
  | some value =>
      simp only [Option.map_some, Option.getD_some, visibleValue, if_pos]
      cases value with
      | dict entries =>
          simp only [hideInEntries, Yaml.entry, Dict.getD, Dict.get?_mapValues]
          cases Dict.get? entries platform_key <;> rfl
      | null | bool | int | str | list => rfl

theorem only_isHashed_normalizeProvides (merged : Metadata) :
    Dict.only isHashed (normalizeProvides merged) = normalizeProvides (Dict.only isHashed merged) := by
  have hkeep : isHashed "provides" = true := rfl
  unfold normalizeProvides
  rw [Dict.get?_only hkeep]
  cases merged.get? "provides" with
  | none => rfl
  | some value =>
      cases value with
      | list items => exact Dict.only_set_of_keep hkeep _ _
      | null | bool | int | str | dict => rfl

/-- Laying the entry of a platform over what is visible gives the same hashed keys. -/
theorem mergeVariant_visible (metadata : Metadata) (platform_key : String) :
    (mergeVariant (visible metadata) platform_key).map (Dict.only isHashed) =
      (mergeVariant metadata platform_key).map (Dict.only isHashed) := by
  unfold mergeVariant
  rw [entry_visible]
  cases (metadata.getD "output_platforms" (.dict [])).entry platform_key with
  | error e => rfl
  | ok entry =>
      cases entry with
      | dict variant_meta =>
          -- what is not visible lies at keys that are not hashed
          have hmerged : Dict.only isHashed (mergeMeta [] ["provides", "build_platforms"]
                (visible metadata) (Dict.only notExecutionEnv variant_meta)) =
              Dict.only isHashed (mergeMeta [] ["provides", "build_platforms"]
                metadata variant_meta) := by
            rw [only_isHashed_mergeMeta, only_isHashed_mergeMeta, only_isHashed_visible,
              only_isHashed_notExecutionEnv]
          simp only [Except.map, hideExecutionEnv, Except.ok_bind, pure, Except.pure,
            only_isHashed_normalizeProvides, hmerged]
      | null | bool | int | str | list => rfl

theorem artifactMetadata_dropKey (metadata : Metadata) :
    artifactMetadata (dropKey metadata "output_platforms") = Dict.only isHashed metadata := by
  unfold artifactMetadata dropKey Dict.only
  rw [List.filter_filter]
  rfl

/-- What of a variant its input hash is made of: its names, target and hashed keys. -/
def hashedPart (inst : Instance) : String × String × Option String × Metadata × Metadata :=
  (inst.id, inst.provider, inst.output_platform, artifactContext inst.context,
    artifactMetadata inst.metadata)

theorem artifactContext_operational (h : SameButOperational context context') :
    artifactContext context = artifactContext context' := by
  have honly : ∀ c : Context, artifactContext c = artifactContext (Dict.only notOperational c) := by
    intro c
    unfold artifactContext Dict.only
    rw [List.filter_filter]
    congr 1
    apply List.filter_congr
    intro e _
    by_cases htarget : "MOUNTIN_TARGET_".toList.isPrefixOf e.1.toList = true
    · -- a name does not begin in both ways
      have hnot : notOperational e.1 = true := by
        unfold notOperational isOperational
        obtain ⟨rest, hrest⟩ := List.isPrefixOf_iff_prefix.mp htarget
        have hname : e.1 = String.ofList ("MOUNTIN_TARGET_".toList ++ rest) := by
          rw [hrest, String.ofList_toList]
        have hcache : (e.1 == "MOUNTIN_CACHE_DIR") = false := by
          rw [beq_eq_false_iff_ne]
          intro heq
          rw [heq] at htarget
          exact absurd htarget (by decide)
        have hbuild : "MOUNTIN_BUILD_".toList.isPrefixOf e.1.toList = false := by
          rw [← hrest]
          rfl
        rw [hcache, hbuild]
        rfl
      rw [htarget, hnot]
      rfl
    · rw [Bool.not_eq_true] at htarget
      rw [htarget]
      rfl
  rw [honly context, honly context', h]

theorem instanceContext_operational (h : SameButOperational context context')
    (output_platform : Option String) :
    (instanceContext context output_platform).map (Dict.only notOperational) =
      (instanceContext context' output_platform).map (Dict.only notOperational) := by
  unfold instanceContext
  cases splitPlatform output_platform with
  | error e => rfl
  | ok target =>
      have hupdate : SameButOperational (context.update target) (context'.update target) := by
        unfold SameButOperational at h ⊢
        rw [Dict.only_update, Dict.only_update, h]
      exact congrArg Except.ok (only_set_congr hupdate _ _)

/-- **Variants of two runs have the same hashed parts.** -/
theorem resolveVariant_operational {catalogue : CataloguePaths}
    (hcatalogue : OperationalHidden word catalogue) (h : SameButOperational context context')
    (path : String) (platform_key : Option String) :
    (resolveVariant word catalogue context path platform_key).map hashedPart =
      (resolveVariant word catalogue context' path platform_key).map hashedPart := by
  unfold resolveVariant
  apply Except.map_bind_congr (instanceContext_operational h _)
  intro c c' hc
  apply Except.map_bind_congr (resolvePath_visible hcatalogue hc path)
  intro metadata metadata' hvisible
  -- dropping `output_platforms` and `execution_env` leaves the hashed keys
  have hfinish : ∀ m m' : Metadata, Dict.only isHashed m = Dict.only isHashed m' →
      artifactMetadata (dropKey m "output_platforms") =
        artifactMetadata (dropKey m' "output_platforms") := by
    intro m m' hm
    rw [artifactMetadata_dropKey, artifactMetadata_dropKey, hm]
  cases platform_key with
  | none =>
      have hhashed : Dict.only isHashed metadata = Dict.only isHashed metadata' := by
        rw [← only_isHashed_visible, hvisible, only_isHashed_visible]
      simp only [variantMetadata, Except.ok_bind, Except.map, pure, Except.pure, hashedPart,
        artifactContext_operational hc, hfinish _ _ hhashed]
  | some key =>
      have hmerge : (mergeVariant metadata key).map (Dict.only isHashed) =
          (mergeVariant metadata' key).map (Dict.only isHashed) := by
        rw [← mergeVariant_visible, hvisible, mergeVariant_visible]
      apply Except.map_bind_congr hmerge
      intro m m' hm
      simp only [Except.map, pure, Except.pure, hashedPart, artifactContext_operational hc,
        hfinish _ _ hm]

theorem platformKeys_operational {metadata metadata' : Metadata}
    (h : visible metadata = visible metadata') : platformKeys metadata = platformKeys metadata' := by
  have hkeys : ∀ m : Metadata, platformKeys m = platformKeys (visible m) := by
    intro m
    unfold platformKeys
    rw [get?_visible rfl]
    cases m.get? "output_platforms" with
    | none => rfl
    | some value =>
        simp only [Option.map_some, visibleValue, if_pos]
        cases value with
        | dict entries =>
            have htruthy : (hideInEntries (.dict entries)).truthy = (Yaml.dict entries).truthy := by
              cases entries <;> rfl
            have hnames : (hideInEntries (.dict entries)).names = (Yaml.dict entries).names := by
              simp only [hideInEntries, Yaml.names, Dict.keys_mapValues]
            rw [htruthy, hnames]
        | null | bool | int | str | list => rfl
  rw [hkeys, h, ← hkeys]

/-- The variants of a provider in two runs, one by one. -/
theorem resolveProviderInstances_operational {catalogue : CataloguePaths}
    (hcatalogue : OperationalHidden word catalogue) (h : SameButOperational context context')
    (path : String) :
    (resolveProviderInstances word catalogue context path).map (List.map hashedPart) =
      (resolveProviderInstances word catalogue context' path).map (List.map hashedPart) := by
  unfold resolveProviderInstances
  apply Except.map_bind_congr (resolvePath_visible hcatalogue h path)
  intro base base' hbase
  rw [platformKeys_operational hbase]
  cases platformKeys base' with
  | error e => rfl
  | ok keys =>
      exact Except.map_mapM_congr fun key _ => resolveVariant_operational hcatalogue h path key

end

/-! ## Hashing -/

/-- The files of a machine: those below an absolute directory, and what is at an absolute path. -/
structure FileSystem where
  files : String → List (RelPath × File)
  entry : String → Option Entry

/-- Two directories with the same relative files. -/
def SameBelow (fs fs' : FileSystem) (dir dir' : String) : Prop :=
  ∀ rel, fs.files (dir ++ "/" ++ rel) = fs'.files (dir' ++ "/" ++ rel) ∧
    fs.entry (dir ++ "/" ++ rel) = fs'.entry (dir' ++ "/" ++ rel)

section

variable (lib : Library) (word : Char → Bool)

/-- The input hash of a variant, with the directories where they are and no cached hashes. -/
def variantHash (fs : FileSystem) (pkg_dir build_dir : String) (dep_hashes : String → Dict String Bytes)
    (inst : Instance) : Except Raised Bytes :=
  (hashPathInputs lib inst.provider (fs.files (pkg_dir ++ "/" ++ inst.provider)) inst.metadata
    (dep_hashes inst.id) (fun req => fs.entry (build_dir ++ "/" ++ req)) inst.context
    Cache.empty).map Prod.fst

/-- The variants of a provider with their input hashes. -/
def variantHashes (fs : FileSystem) (pkg_dir build_dir : String)
    (dep_hashes : String → Dict String Bytes) (catalogue : CataloguePaths) (context : Context)
    (path : String) : Except Raised (List (String × Except Raised Bytes)) :=
  (resolveProviderInstances word catalogue context path).map
    (List.map fun inst => (inst.id, variantHash lib fs pkg_dir build_dir dep_hashes inst))

variable {lib word}

/-- An input hash depends on the hashed part of a variant and on what the directories hold. -/
theorem variantHash_congr {fs fs' : FileSystem} {pkg_dir pkg_dir' build_dir build_dir' : String}
    (hpkg : SameBelow fs fs' pkg_dir pkg_dir') (hbuild : SameBelow fs fs' build_dir build_dir')
    (dep_hashes : String → Dict String Bytes) {inst inst' : Instance}
    (h : hashedPart inst = hashedPart inst') :
    variantHash lib fs pkg_dir build_dir dep_hashes inst =
      variantHash lib fs' pkg_dir' build_dir' dep_hashes inst' := by
  obtain ⟨hid, hprovider, -, hcontext, hmetadata⟩ : inst.id = inst'.id ∧
      inst.provider = inst'.provider ∧ inst.output_platform = inst'.output_platform ∧
      artifactContext inst.context = artifactContext inst'.context ∧
      artifactMetadata inst.metadata = artifactMetadata inst'.metadata := by
    simpa [hashedPart] using h
  have hkeys : ∀ name, notExecutionEnv name = true →
      keysOf inst.metadata name = keysOf inst'.metadata name := by
    intro name hname
    have hget : inst.metadata.get? name = inst'.metadata.get? name := by
      rw [← Dict.get?_only hname inst.metadata, ← Dict.get?_only hname inst'.metadata]
      exact congrArg (Dict.get? · name) hmetadata
    unfold keysOf Dict.getD
    rw [hget]
  have hplaces : (fun req => fs.entry (build_dir ++ "/" ++ req)) =
      fun req => fs'.entry (build_dir' ++ "/" ++ req) := funext fun req => (hbuild req).2
  unfold variantHash hashPathInputs
  rw [hid, hprovider, (hpkg inst'.provider).1, hplaces, hcontext, hmetadata,
    hkeys "requires" rfl, hkeys "build_requires" rfl]

/-- **Operational settings change no input hash**: two runs that differ in operational variables
and in where the directories are resolve the same variants, with the same input hashes. -/
theorem variantHashes_operational {catalogue : CataloguePaths}
    (hcatalogue : OperationalHidden word catalogue) {context context' : Context}
    (hcontext : SameButOperational context context') {fs fs' : FileSystem}
    {pkg_dir pkg_dir' build_dir build_dir' : String}
    (hpkg : SameBelow fs fs' pkg_dir pkg_dir') (hbuild : SameBelow fs fs' build_dir build_dir')
    (dep_hashes : String → Dict String Bytes) (path : String) :
    variantHashes lib word fs pkg_dir build_dir dep_hashes catalogue context path =
      variantHashes lib word fs' pkg_dir' build_dir' dep_hashes catalogue context' path := by
  have hinstances := resolveProviderInstances_operational hcatalogue hcontext path
  apply Except.map_of_map hinstances
  intro instances instances' h
  refine List.map_of_map (fun inst inst' hpart => ?_) h
  exact Prod.ext (Prod.mk.inj hpart).1 (variantHash_congr hpkg hbuild dep_hashes hpart)

end

/-! ## Four jobs and thirty-two -/

/-- `hashlib` and `json.dumps` on the texts of the variant below. -/
def jobLibrary : Library where
  md5 b := encode (if b = [] then "d41d8cd98f00b204e9800998ecf8427e" else "1f543bb7b117159b789d2268394e9e8f")
  sha256 _ := []
  stableJson
    | .dict (("provides", _) :: _) => encode "\x7b\"provides\":\x7b\"job.img\":\x7b\x7d\x7d\x7d"
    | _ =>
      encode ("\x7b\"MOUNTIN_TARGET_ARCH\":\"x86_64\",\"MOUNTIN_TARGET_ENV" ++
        "\":\"\",\"MOUNTIN_TARGET_OS\":\"linux\",\"MOUNTIN_TARGET_PLATFORM\":\"x86_64-linux\"\x7d")
  follow _ _ _ := none

def isWord (c : Char) : Bool := c.isAlphanum || c == '_'

/-- A provider whose one variant runs as many jobs as the machine does. -/
def jobCatalogue : CataloguePaths :=
  [("job", [("provides", .dict [("job.img", .dict [])]),
    ("output_platforms", .dict [("x86_64-linux",
      .dict [("execution_env", .dict [("JOBS", .str "$\x7bMOUNTIN_BUILD_JOBS\x7d")])])])])]

theorem jobCatalogue_hidden : OperationalHidden isWord jobCatalogue := by
  intro path metadata h
  unfold jobCatalogue at h
  rw [Dict.get?_cons] at h
  split at h
  · obtain rfl := Option.some.inj h
    unfold Quiet
    decide +kernel
  · cases h

/-- The jobs in the `execution_env` of the variants. -/
def jobsOf (context : Context) : List String :=
  match resolveProviderInstances isWord jobCatalogue context "job" with
  | .ok instances => instances.filterMap fun inst =>
      match inst.metadata.get? "execution_env" with
      | some (.dict [("JOBS", .str value)]) => some value
      | _ => none
  | .error _ => []

theorem sameButOperational_jobs :
    SameButOperational [("MOUNTIN_BUILD_JOBS", "4")] [("MOUNTIN_BUILD_JOBS", "32")] := by
  unfold SameButOperational
  decide +kernel

/-- A machine without files. -/
def bareMachine : FileSystem where
  files _ := []
  entry _ := none

theorem sameBelow_bareMachine (dir dir' : String) :
    SameBelow bareMachine bareMachine dir dir' := by
  intro rel
  unfold bareMachine
  constructor <;> dsimp only

/-- The jobs reach the variant, and its input hash does not change. -/
theorem jobs_variantHashes :
    let few : Context := [("MOUNTIN_BUILD_JOBS", "4")]
    let many : Context := [("MOUNTIN_BUILD_JOBS", "32")]
    jobsOf few = ["4"] ∧ jobsOf many = ["32"] ∧
    variantHashes jobLibrary isWord bareMachine "/home/one/pkg" "/home/one/build" (fun _ => []) jobCatalogue
        few "job" =
      variantHashes jobLibrary isWord bareMachine "/srv/pkg" "/srv/build" (fun _ => []) jobCatalogue
        many "job" :=
  ⟨by decide +kernel, by decide +kernel,
    variantHashes_operational jobCatalogue_hidden sameButOperational_jobs
      (sameBelow_bareMachine _ _) (sameBelow_bareMachine _ _) _ _⟩

end Mountin
