import Mountin.Basic.Raising
import Mountin.Build.Metadata

set_option autoImplicit false

/-! # Resolving the catalogue

Metadata refer to variables as `${NAME}`. `resolve_path` collects the variables of a path level by
level down the hierarchy and resolves all its metadata with them; `resolve_provider_instances` does
so for each output platform, and lays the entry of the platform over the result.

* `resolveVars`, `resolveValue`, `resolveEnv` : references in a text, in a value, and one level of
  variables.
* `resolvePath` : the metadata of a path.
* `resolveProviderInstances` : the variants of a provider.
-/

namespace Mountin

/-- A context: the variables with their values. -/
abbrev Context := Dict String String

section

-- the word characters, `\w`
variable (word : Char → Bool)

/-! ## References -/

/-- A part of a text: a character, or a reference to a variable. -/
inductive TextPart where
  | char (c : Char)
  | reference (name : String)
deriving DecidableEq

/-- Where the search for `${NAME}` is: in other text, behind a dollar, or within a name. -/
inductive Scan where
  | text
  | dollar
  | name (chars : List Char)

/-- What a search has read without passing it on. -/
def Scan.pending : Scan → List TextPart
  | text => []
  | dollar => [.char '$']
  | name chars => .char '$' :: .char '\x7b' :: chars.map .char

/-- The search at a character: what is passed on, and where the search is then. -/
def Scan.step (scan : Scan) (c : Char) : List TextPart × Scan :=
  match scan with
  | .text => if c = '$' then ([], .dollar) else ([.char c], .text)
  | .dollar =>
      if c = '\x7b' then ([], .name [])
      else if c = '$' then ([.char '$'], .dollar)
      else ([.char '$', .char c], .text)
  | .name chars =>
      if word c then ([], .name (chars ++ [c]))
      else if c = '\x7d' ∧ chars ≠ [] then ([.reference (String.ofList chars)], .text)
      -- no reference: a new one can begin here
      else if c = '$' then ((Scan.name chars).pending, .dollar)
      else ((Scan.name chars).pending ++ [.char c], .text)

/-- The parts of a text, from where the search is. -/
def textPartsFrom : Scan → List Char → List TextPart
  | scan, [] => scan.pending
  | scan, c :: rest => (scan.step word c).1 ++ textPartsFrom (scan.step word c).2 rest

/-- The parts of a text. -/
def textParts (value : String) : List TextPart := textPartsFrom word .text value.toList

/-- `str(context.get(var, match.group(0)))`. -/
def TextPart.resolve (context : Context) : TextPart → List Char
  | .char c => [c]
  | .reference name => ((context.get? name).getD ("$\x7b" ++ name ++ "\x7d")).toList

/-- `resolve_vars`. -/
def resolveVars (value : String) (context : Context) : String :=
  String.ofList ((textParts word value).flatMap (TextPart.resolve context))

/-- The variable of a part of a text. -/
def TextPart.variable? : TextPart → Option String
  | .char _ => none
  | .reference name => some name

/-- The variables that a text refers to. -/
def referencesOf (value : String) : List String :=
  (textParts word value).filterMap TextPart.variable?

/-- Resolving a text reads the variables that it refers to. -/
theorem resolveVars_congr {value : String} {context context' : Context}
    (h : ∀ name ∈ referencesOf word value, context.get? name = context'.get? name) :
    resolveVars word value context = resolveVars word value context' := by
  unfold resolveVars
  congr 1
  apply List.flatMap_congr
  intro part hpart
  cases part with
  | char c => rfl
  | reference name =>
      have hname : name ∈ referencesOf word value := List.mem_filterMap.mpr ⟨_, hpart, rfl⟩
      simp only [TextPart.resolve]
      rw [h name hname]

mutual

/-- `resolve_value`. -/
def resolveValue (context : Context) : Yaml → Yaml
  | .str s => .str (resolveVars word s context)
  | .list items => .list (resolveItems context items)
  | .dict entries => .dict (Dict.update [] (resolveEntries context entries))
  | .null => .null
  | .bool b => .bool b
  | .int n => .int n

def resolveItems (context : Context) : List Yaml → List Yaml
  | [] => []
  | item :: rest => resolveValue context item :: resolveItems context rest

def resolveEntries (context : Context) : List (String × Yaml) → List (String × Yaml)
  | [] => []
  | (key, value) :: rest =>
      (resolveVars word key context, resolveValue context value) :: resolveEntries context rest

end

/-- What is among resolved entries comes from an entry. -/
theorem mem_resolveEntries {c : Context} {entries : List (String × Yaml)} {key : String}
    {value : Yaml} (h : (key, value) ∈ resolveEntries word c entries) :
    ∃ raw_key raw, (raw_key, raw) ∈ entries ∧ key = resolveVars word raw_key c ∧
      value = resolveValue word c raw := by
  induction entries with
  | nil => cases h
  | cons e rest ih =>
      rcases e with ⟨k, v⟩
      rw [resolveEntries] at h
      rcases List.mem_cons.mp h with heq | hmem
      · obtain ⟨rfl, rfl⟩ := Prod.mk.inj heq
        exact ⟨k, v, List.mem_cons_self, rfl, rfl⟩
      · obtain ⟨k', v', hmem', hk, hv⟩ := ih hmem
        exact ⟨k', v', List.mem_cons_of_mem _ hmem', hk, hv⟩

/-- A turn of the loop of `resolve_env`. -/
def defineVar (context : Context) (definition : String × Yaml) : Except Raised Context :=
  match definition.2 with
  | .str value => .ok (context.set definition.1 (resolveVars word value context))
  | _ => .error .typeError

/-- `resolve_env`. -/
def resolveEnv (env : Metadata) (context : Context) : Except Raised Context :=
  env.foldlM (defineVar word) context

/-! ## Paths -/

/-- The metadata of the paths, with what they inherit. -/
abbrev CataloguePaths := Dict String Metadata

/-- `parent_path`. -/
def parentPath (path : List Char) : List Char :=
  if '/' ∈ path then ((path.reverse.dropWhile (· ≠ '/')).drop 1).reverse else []

/-- The loop that goes up from a path to the root, with a bound on its turns. -/
def ancestors : Nat → List Char → List String
  | 0, _ => []
  | turns + 1, path =>
      String.ofList path :: if path.isEmpty then [] else ancestors turns (parentPath path)

/-- The chain of a path in a catalogue, root to leaf. Each turn makes the path shorter. -/
def chainOf (catalogue : CataloguePaths) (path : String) : List String :=
  ((ancestors (path.toList.length + 1) path.toList).filter fun p =>
    (catalogue.get? p).isSome).reverse

/-- The variables that a level defines. -/
def envOf (catalogue : CataloguePaths) (ancestor : String) : Except Raised Metadata :=
  match (catalogue.getD ancestor []).get? "env" with
  | none => .ok []
  | some env =>
      if env.truthy then
        match env with
        | .dict definitions => .ok definitions
        | _ => .error .attributeError
      else .ok []

/-- One level of the walk of `resolve_path`. -/
def enterLevel (catalogue : CataloguePaths) (context : Context) (ancestor : String) :
    Except Raised Context := do
  let env ← envOf catalogue ancestor
  resolveEnv word env context

/-- The context with which `resolve_path` resolves the metadata of a path. -/
def accumulated (catalogue : CataloguePaths) (context : Context) (path : String) :
    Except Raised Context :=
  (chainOf catalogue path).foldlM (enterLevel word catalogue) context

/-- A turn of the loop over `build_requires`. -/
def requireAlso (build_requires : Yaml) (requires : Yaml) (key : String) : Except Raised Yaml := do
  if ← requires.contains (some key) then return requires
  else
    match build_requires, requires with
    | .dict values, .dict entries =>
        return .dict (Dict.set entries key (Dict.getD values key Yaml.null))
    | _, _ => .error .typeError

/-- The last part of `resolve_path`, where `build_requires` is merged into `requires`. -/
def mergeBuildRequires (resolved : Metadata) : Except Raised Metadata :=
  match resolved.get? "build_requires" with
  | none => .ok resolved
  | some build_requires => do
      let keys ← build_requires.names
      let requires ← keys.foldlM (requireAlso build_requires) (resolved.getD "requires" (.dict []))
      return resolved.set "requires" requires

/-- Merging the build requirements changes the requirements only. -/
theorem get?_mergeBuildRequires {metadata metadata' : Metadata}
    (h : mergeBuildRequires metadata = .ok metadata') {key : String} (hkey : key ≠ "requires") :
    metadata'.get? key = metadata.get? key := by
  unfold mergeBuildRequires at h
  cases hbuild : metadata.get? "build_requires" with
  | none =>
      rw [hbuild] at h
      rw [Except.ok.inj h]
  | some build_requires =>
      rw [hbuild] at h
      obtain ⟨keys, -, h⟩ := Except.bind_eq_ok.mp h
      obtain ⟨requires, -, h⟩ := Except.bind_eq_ok.mp h
      obtain rfl := Except.ok.inj h
      exact Dict.get?_set_of_ne _ _ (Ne.symm hkey)

/-- `resolve_path`. -/
def resolvePath (catalogue : CataloguePaths) (context : Context) (path : String) :
    Except Raised Metadata :=
  match catalogue.get? path with
  | none => .error (.keyError s!"Path not found: {path}")
  | some metadata => do
      let context ← accumulated word catalogue context path
      mergeBuildRequires (Dict.update [] (resolveEntries word context metadata))

/-! ## Variants -/

/-- `split_platform`. -/
def splitPlatform (platform : Option String) : Except Raised Context :=
  let name := platform.getD ""
  if name = "" then
    .ok [("MOUNTIN_TARGET_PLATFORM", ""), ("MOUNTIN_TARGET_ARCH", ""), ("MOUNTIN_TARGET_OS", ""),
      ("MOUNTIN_TARGET_ENV", "")]
  else
    match (name.toList.splitOn '-').map String.ofList with
    | arch :: os :: env =>
        .ok [("MOUNTIN_TARGET_PLATFORM", name), ("MOUNTIN_TARGET_ARCH", arch),
          ("MOUNTIN_TARGET_OS", os), ("MOUNTIN_TARGET_ENV", String.intercalate "-" env)]
    | _ => .error (.valueError s!"Invalid output platform: {name}")

/-- `provider_instance`. -/
def providerInstance (path : String) (output_platform : Option String) : String :=
  if output_platform.getD "" = "" then path else path ++ "@" ++ output_platform.getD ""

/-- The context of a variant. -/
def instanceContext (context : Context) (output_platform : Option String) :
    Except Raised Context := do
  let target ← splitPlatform output_platform
  return (Dict.update context target).set "MOUNTIN_CACHE_DIR" "/cache"

/-- Merged outputs as a mapping. -/
def normalizeProvides (merged : Metadata) : Metadata :=
  match merged.get? "provides" with
  | some (.list items) => merged.set "provides" (.dict (normalizeList items))
  | _ => merged

/-- The metadata of a variant that has an entry in `output_platforms`: the entry laid over the
metadata of the path. -/
def mergeVariant (metadata : Metadata) (platform_key : String) : Except Raised Metadata := do
  let entry ← (metadata.getD "output_platforms" (.dict [])).entry platform_key
  match entry with
  | .dict variant_meta =>
      return normalizeProvides (mergeMeta [] ["provides", "build_platforms"] metadata variant_meta)
  | .list _ | .str _ => .error .attributeError
  | _ => .error .typeError

/-- The metadata of a variant; without a key those of the path. -/
def variantMetadata (metadata : Metadata) : Option String → Except Raised Metadata
  | none => .ok metadata
  | some platform_key => mergeVariant metadata platform_key

/-- `meta.pop(key, None)`. -/
def dropKey (metadata : Metadata) (key : String) : Metadata := metadata.filter fun e => e.1 != key

/-- One variant of a provider; without a key it is the only one. -/
def resolveVariant (catalogue : CataloguePaths) (context : Context) (path : String)
    (platform_key : Option String) : Except Raised Instance := do
  let output_platform := if platform_key = some "neutral" then none else platform_key
  let instance_context ← instanceContext context output_platform
  let metadata ← resolvePath word catalogue instance_context path
  let metadata ← variantMetadata metadata platform_key
  return {
    id := providerInstance path output_platform
    provider := path
    output_platform := output_platform
    context := instance_context
    metadata := dropKey metadata "output_platforms" }

/-- `platform_keys`. -/
def platformKeys (base : Metadata) : Except Raised (List (Option String)) :=
  match base.get? "output_platforms" with
  | none => .ok [none]
  | some variants =>
      if variants.truthy then do return (← variants.names).map some
      else .ok [none]

/-- `resolve_provider_instances`. -/
def resolveProviderInstances (catalogue : CataloguePaths) (context : Context) (path : String) :
    Except Raised (List Instance) := do
  let base ← resolvePath word catalogue context path
  let platform_keys ← platformKeys base
  platform_keys.mapM (resolveVariant word catalogue context path)

end

end Mountin
