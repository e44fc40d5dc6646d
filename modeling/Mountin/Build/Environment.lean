import Mountin.Build.Catalogue
import Mountin.Build.Merge

set_option autoImplicit false

/-! # Inherited variables

`resolve_inheritance` hands the variables of a path down to the paths below it, and `resolve_path`
applies at each level the variables that it has there, the inherited ones again. The metadata are
then resolved with the context that results, the definitions of the variables among them. A
definition that refers to its own variable, or to one that is defined after it, comes out different
each time.

* `resolveInheritance` : the metadata of all paths.
* `SettledEnv` : definitions that come out the same when they are applied again.
* `env_agrees` : with such definitions, inheriting changes nothing, and what a provider receives is
  what its metadata were resolved with.
* `self_reference_disagrees` : with a definition that adds to its own variable, in no context.
-/

namespace Mountin

/-! ## Inheritance -/

/-- What `set.update` adds: items that hash; only names among them are keys of metadata. -/
def settingNames : Yaml → Except Raised (List String)
  | .list items => items.foldlM (fun names item =>
      match item with
      | .str s => .ok (names ++ [s])
      | .list _ | .dict _ => .error .typeError
      | _ => .ok names) []
  | value => value.names

/-- The merged metadata, and the keys that are not inherited and not merged. -/
structure Inherited where
  merged : Metadata
  no_inherit : List String
  no_merge : List String

/-- One level of the walk of `resolve_inheritance`. -/
def Inherited.enter (files : CataloguePaths) (level : Inherited) (ancestor : String) :
    Except Raised Inherited := do
  let meta_ := files.getD ancestor []
  let no_inherit ← settingNames (meta_.getD "no_inherit" (.list []))
  let no_merge ← settingNames (meta_.getD "no_merge" (.list []))
  return {
    merged := mergeMeta (level.no_inherit ++ no_inherit) (level.no_merge ++ no_merge) level.merged meta_
    no_inherit := level.no_inherit ++ no_inherit
    no_merge := level.no_merge ++ no_merge }

/-- The metadata of a path. -/
def inheritedMetadata (files : CataloguePaths) (path : String) : Except Raised Inherited :=
  (chainOf files path).foldlM (Inherited.enter files) ⟨[], [], []⟩

/-- `resolve_inheritance`. -/
def resolveInheritance (files : CataloguePaths) : Except Raised CataloguePaths :=
  files.mapM fun e => do
    let level ← inheritedMetadata files e.1
    return (e.1, level.merged)

/-- `provider_environment`. -/
def providerEnvironment (context : Context) (metadata : Metadata) : Except Raised Metadata :=
  let inherited : Metadata := (context.filter fun e =>
    "MOUNTIN_BUILD_".toList.isPrefixOf e.1.toList || "MOUNTIN_TARGET_".toList.isPrefixOf e.1.toList ||
      e.1 == "MOUNTIN_CACHE_DIR").map fun e => (e.1, .str e.2)
  match metadata.getD "execution_env" (.dict []), metadata.getD "env" (.dict []) with
  | .dict execution_env, .dict env => .ok (Dict.update (Dict.update inherited execution_env) env)
  | _, _ => .error .typeError

/-! ## Chains -/

theorem length_parentPath_lt (path : List Char) (h : path ≠ []) :
    (parentPath path).length < path.length := by
  have hpos : 0 < path.length := List.length_pos_of_ne_nil h
  unfold parentPath
  split
  · have hle := (List.dropWhile_sublist (· ≠ '/') (l := path.reverse)).length_le
    simp only [List.length_reverse, List.length_drop] at hle ⊢
    omega
  · exact hpos

/-- Enough turns reach the root. -/
theorem ancestors_turns {turns turns' : Nat} {path : List Char} (h : path.length < turns)
    (h' : path.length < turns') : ancestors turns path = ancestors turns' path := by
  induction turns generalizing turns' path with
  | zero => omega
  | succ turns ih =>
      cases turns' with
      | zero => omega
      | succ turns' =>
          rw [ancestors, ancestors]
          cases hpath : path with
          | nil => rfl
          | cons c rest =>
              have hlt := length_parentPath_lt path (by rw [hpath]; exact nofun)
              rw [← hpath, @ih turns' (parentPath path) (by omega) (by omega)]

/-- A path, then the way up from its parent. -/
theorem ancestors_cons (path : List Char) :
    ancestors (path.length + 1) path = String.ofList path ::
      if path.isEmpty then [] else ancestors ((parentPath path).length + 1) (parentPath path) := by
  rw [ancestors]
  cases hpath : path with
  | nil => rfl
  | cons c rest =>
      have hlt := length_parentPath_lt path (by rw [hpath]; exact nofun)
      rw [← hpath]
      congr 2
      exact ancestors_turns hlt (Nat.lt_succ_self _)

/-- On the way up, each path goes on as if one began with it. -/
theorem ancestors_suffix {path : List Char} {q : String}
    (h : q ∈ ancestors (path.length + 1) path) :
    ∃ below, ancestors (path.length + 1) path =
      below ++ ancestors (q.toList.length + 1) q.toList ∧ q ∉ below := by
  -- a parent is shorter than its path
  induction hn : path.length using Nat.strongRecOn generalizing path with
  | ind n ih =>
      subst hn
      by_cases hself : q = String.ofList path
      · refine ⟨[], ?_, List.not_mem_nil⟩
        rw [hself, String.toList_ofList, List.nil_append]
      · rw [ancestors_cons] at h ⊢
        rcases List.mem_cons.mp h with heq | hmem
        · exact absurd heq hself
        · cases hpath : path with
          | nil =>
              rw [hpath] at hmem
              cases hmem
          | cons c rest =>
              have hne : path.isEmpty = false := by rw [hpath]; rfl
              rw [← hpath]
              rw [if_neg (by simp [hne])] at hmem ⊢
              obtain ⟨below, hbelow, hnot⟩ := ih _
                (length_parentPath_lt path (by rw [hpath]; exact nofun)) hmem rfl
              refine ⟨String.ofList path :: below, by rw [hbelow]; rfl, ?_⟩
              exact fun hmem => (List.mem_cons.mp hmem).elim hself hnot

/-- The nearest ancestor in the catalogue: the last path of the chain of the parent. -/
def NearestAncestor (catalogue : CataloguePaths) (path ancestor : String) : Prop :=
  path ≠ "" ∧ ∃ above, chainOf catalogue (String.ofList (parentPath path.toList)) = above ++ [ancestor]

theorem chainOf_reverse (catalogue : CataloguePaths) (path : String) :
    (chainOf catalogue path).reverse = (ancestors (path.toList.length + 1) path.toList).filter
      fun p => (catalogue.get? p).isSome := by
  rw [chainOf, List.reverse_reverse]

/-- The chain of the nearest ancestor ends with it. -/
theorem chainOf_self {catalogue : CataloguePaths} {path : String}
    (h : (catalogue.get? path).isSome = true) : ∃ above, chainOf catalogue path = above ++ [path] := by
  have hreverse := chainOf_reverse catalogue path
  rw [ancestors_cons, String.ofList_toList, List.filter_cons_of_pos (p := fun p => (catalogue.get? p).isSome) h] at hreverse
  exact ⟨_, by rw [← List.reverse_reverse (chainOf catalogue path), hreverse, List.reverse_cons]⟩

/-- The chain of a path is that of its nearest ancestor, and the path. -/
theorem chainOf_nearest {catalogue : CataloguePaths} {path ancestor : String}
    (hpath : (catalogue.get? path).isSome = true) (h : NearestAncestor catalogue path ancestor) :
    (catalogue.get? ancestor).isSome = true ∧
      chainOf catalogue path = chainOf catalogue ancestor ++ [path] := by
  obtain ⟨hne, above, habove⟩ := h
  -- from the path up: the path, then the chain of the parent
  have hparent : (chainOf catalogue path).reverse =
      path :: (chainOf catalogue (String.ofList (parentPath path.toList))).reverse := by
    have hempty : path.toList.isEmpty = false := by
      rw [List.isEmpty_eq_false_iff]
      intro hnil
      exact hne (String.toList_inj.mp hnil)
    rw [chainOf_reverse, chainOf_reverse, ancestors_cons, String.ofList_toList,
      List.filter_cons_of_pos (p := fun p => (catalogue.get? p).isSome) hpath, String.toList_ofList, if_neg (by simp [hempty])]
  have hup := congrArg List.reverse habove
  rw [chainOf_reverse, List.reverse_append, String.toList_ofList] at hup
  have hmem : ancestor ∈ (ancestors ((parentPath path.toList).length + 1)
      (parentPath path.toList)).filter fun p => (catalogue.get? p).isSome := by
    rw [hup]
    simp
  obtain ⟨hmem, hpresent⟩ := List.mem_filter.mp hmem
  refine ⟨hpresent, ?_⟩
  obtain ⟨below, hbelow, hnot⟩ := ancestors_suffix hmem
  obtain ⟨above', habove'⟩ := chainOf_self hpresent
  -- nothing that is present lies between the parent and the ancestor
  have hchain : chainOf catalogue (String.ofList (parentPath path.toList)) =
      chainOf catalogue ancestor := by
    have hsplit := hup
    rw [hbelow, List.filter_append, ← chainOf_reverse, habove', List.reverse_append] at hsplit
    have hnone : below.filter (fun p => (catalogue.get? p).isSome) = [] := by
      cases hlist : below.filter fun p => (catalogue.get? p).isSome with
      | nil => rfl
      | cons p rest =>
          rw [hlist] at hsplit
          have hp : p = ancestor := by simpa using (List.cons_eq_cons.mp hsplit).1
          have : ancestor ∈ below := by
            have hin : p ∈ below.filter fun p => (catalogue.get? p).isSome := by
              rw [hlist]
              exact List.mem_cons_self
            exact hp ▸ (List.mem_filter.mp hin).1
          exact absurd this hnot
    rw [← List.reverse_inj, chainOf_reverse, chainOf_reverse, String.toList_ofList, hbelow,
      List.filter_append, hnone, List.nil_append]
  rw [hchain] at hparent
  rw [← List.reverse_inj, hparent, List.reverse_append]
  rfl

/-! ## Settled definitions -/

/-- Definitions that come out the same when they are applied again: each refers to variables that
are defined before it or elsewhere, not to its own or to a later one. The names are plain. -/
def settledEnv (word : Char → Bool) : Metadata → Bool
  | [] => true
  | (key, value) :: rest =>
      (match value with
        | .str text => (referencesOf word text).all fun name =>
            name != key && !(Dict.keys rest).contains name
        | _ => true) &&
      (referencesOf word key).isEmpty && !(Dict.keys rest).contains key && settledEnv word rest

/-- The definitions of the path are settled, and no key of its metadata holds a reference. -/
def settledMetadata (word : Char → Bool) (metadata : Metadata) : Bool :=
  (Dict.keys metadata).all (fun key => (referencesOf word key).isEmpty) &&
    match metadata.get? "env" with
    | some (.dict env) => settledEnv word env
    | _ => true

section

variable {word : Char → Bool}

/-- Definitions have text, and the last application leaves what they give in the end. -/
def Fixed (word : Char → Bool) (env : Metadata) (context : Context) : Prop :=
  ∀ key value, (key, value) ∈ env → ∃ text, value = .str text ∧
    context.get? key = some (resolveVars word text context)

theorem resolveEnv_settled {env : Metadata} (hsettled : settledEnv word env = true)
    {context context' : Context} (h : resolveEnv word env context = .ok context') :
    (∀ name ∉ env.keys, context'.get? name = context.get? name) ∧ Fixed word env context' := by
  induction env generalizing context with
  | nil =>
      obtain rfl := Except.ok.inj h
      exact ⟨fun _ _ => rfl, fun _ _ hmem => absurd hmem List.not_mem_nil⟩
  | cons e rest ih =>
      rcases e with ⟨key, value⟩
      simp only [settledEnv, Bool.and_eq_true, Bool.not_eq_true', List.contains_eq_mem,
        decide_eq_false_iff_not] at hsettled
      obtain ⟨⟨⟨hvalue, -⟩, hkey⟩, hrest⟩ := hsettled
      obtain ⟨context₁, hfirst, h⟩ := Except.bind_eq_ok.mp h
      obtain ⟨hkeep, hfixed⟩ := ih hrest h
      cases value with
      | str text =>
          obtain rfl := Except.ok.inj hfirst
          have hrefs : ∀ name ∈ referencesOf word text, name ≠ key ∧ name ∉ Dict.keys rest := by
            intro name hname
            have := List.all_eq_true.mp hvalue name hname
            simpa using this
          -- later definitions change neither the variable nor what its text refers to
          refine ⟨fun name hname => ?_, ?_⟩
          · rw [Dict.keys, List.map_cons, List.mem_cons, not_or] at hname
            rw [hkeep name hname.2, Dict.get?_set_of_ne _ _ (Ne.symm hname.1)]
          · intro key' value' hmem
            rcases List.mem_cons.mp hmem with heq | hmem
            · obtain ⟨rfl, rfl⟩ := Prod.mk.inj heq
              refine ⟨text, rfl, ?_⟩
              rw [hkeep key' hkey, Dict.get?_set_self]
              congr 1
              apply resolveVars_congr word
              intro name hname
              obtain ⟨hne, hnot⟩ := hrefs name hname
              rw [hkeep name hnot, Dict.get?_set_of_ne _ _ (Ne.symm hne)]
            · exact hfixed key' value' hmem
      | null | bool | int | list | dict => cases hfirst

theorem set_self {context : Context} {key value : String} (h : context.get? key = some value) :
    context.set key value = context := by
  induction context with
  | nil => cases h
  | cons e rest ih =>
      rcases e with ⟨k, v⟩
      rw [Dict.get?_cons] at h
      unfold Dict.set
      split
      · rename_i heq
        rw [if_pos heq] at h
        rw [← Option.some.inj h, heq]
      · rename_i hne
        rw [if_neg hne] at h
        rw [ih h]

/-- **Settled definitions come out the same when they are applied again.** -/
theorem resolveEnv_fixed {env : Metadata} {context : Context} (h : Fixed word env context) :
    resolveEnv word env context = .ok context := by
  unfold resolveEnv
  induction env with
  | nil => rfl
  | cons e rest ih =>
      obtain ⟨text, htext, hget⟩ := h e.1 e.2 List.mem_cons_self
      rw [List.foldlM_cons, defineVar, htext]
      dsimp only
      rw [set_self hget, Except.ok_bind]
      exact ih fun key value hmem => h key value (List.mem_cons_of_mem _ hmem)

/-! ## Variables down the hierarchy -/

variable {files catalogue : CataloguePaths} {context : Context}

theorem accumulated_snoc {path : String} {above : List String}
    (h : chainOf catalogue path = above ++ [path]) :
    accumulated word catalogue context path =
      (above.foldlM (enterLevel word catalogue) context) >>= fun c =>
        enterLevel word catalogue c path := by
  rw [accumulated, h, List.foldlM_append]
  congr 1
  funext c
  rw [List.foldlM_cons]
  cases enterLevel word catalogue c path <;> rfl

/-- The definitions of a path with settled metadata are settled. -/
theorem settledEnv_envOf {path : String} {metadata env : Metadata}
    (hget : catalogue.get? path = some metadata) (hsettled : settledMetadata word metadata = true)
    (h : envOf catalogue path = .ok env) : settledEnv word env = true := by
  unfold envOf Dict.getD at h
  rw [hget, Option.getD_some] at h
  unfold settledMetadata at hsettled
  rw [Bool.and_eq_true] at hsettled
  cases hvalue : metadata.get? "env" with
  | none =>
      rw [hvalue] at h
      rw [← Except.ok.inj h]
      rfl
  | some value =>
      rw [hvalue] at h
      dsimp only at h
      split at h
      · cases value with
        | dict definitions =>
            obtain rfl := Except.ok.inj h
            have := hsettled.2
            rw [hvalue] at this
            exact this
        | null | bool | int | str | list => cases h
      · rw [← Except.ok.inj h]
        rfl

/-- The context of a path is one that its definitions leave as it is. -/
theorem accumulated_fixed {path : String} {metadata : Metadata}
    (hget : catalogue.get? path = some metadata) (hsettled : settledMetadata word metadata = true)
    {c : Context} (h : accumulated word catalogue context path = .ok c) :
    ∃ env, envOf catalogue path = .ok env ∧ Fixed word env c := by
  obtain ⟨above, habove⟩ := chainOf_self (show (catalogue.get? path).isSome = true by rw [hget]; rfl)
  rw [accumulated_snoc habove] at h
  obtain ⟨c₁, -, h⟩ := Except.bind_eq_ok.mp h
  obtain ⟨env, henv, h⟩ := Except.bind_eq_ok.mp h
  exact ⟨env, henv, (resolveEnv_settled (settledEnv_envOf hget hsettled henv) h).2⟩

/-- A path whose variables are none, or those of its nearest ancestor, has the context of it. -/
theorem accumulated_nearest {path ancestor : String} {metadata : Metadata}
    (hpath : (catalogue.get? path).isSome = true) (hnearest : NearestAncestor catalogue path ancestor)
    (hget : catalogue.get? ancestor = some metadata)
    (hsettled : settledMetadata word metadata = true)
    (henv : envOf catalogue path = .ok [] ∨ envOf catalogue path = envOf catalogue ancestor) :
    accumulated word catalogue context path = accumulated word catalogue context ancestor := by
  have hchain := (chainOf_nearest hpath hnearest).2
  rw [accumulated_snoc hchain]
  change (accumulated word catalogue context ancestor >>= _) = _
  cases hacc : accumulated word catalogue context ancestor with
  | error e => rfl
  | ok c =>
      -- the last level of the ancestor has left a context that its definitions do not change
      obtain ⟨env, henv', hfixed⟩ := accumulated_fixed hget hsettled hacc
      rw [Except.ok_bind, enterLevel]
      rcases henv with hnil | hsame
      · rw [hnil]
        rfl
      · rw [hsame, henv']
        exact resolveEnv_fixed hfixed

/-! ## What inheriting hands down -/

theorem get?_foldl_of_notMem {no_inherit no_merge : List String} {l : Metadata} {key : String}
    (h : l.get? key = none) (result : Metadata) :
    (l.foldl (mergeEntry no_inherit no_merge) result).get? key = result.get? key := by
  induction l generalizing result with
  | nil => rfl
  | cons e rest ih =>
      rcases e with ⟨k, v⟩
      rw [Dict.get?_cons] at h
      split at h
      · cases h
      · rename_i hne
        rw [List.foldl_cons, ih h]
        unfold mergeEntry
        split
        · rfl
        split <;> exact Dict.get?_set_of_ne _ _ hne

/-- A key that the child does not have is handed down or not. -/
theorem get?_mergeMeta_of_none (no_inherit no_merge : List String) (parent : Metadata)
    {child : Metadata} {key : String} (h : child.get? key = none) :
    (mergeMeta no_inherit no_merge parent child).get? key = none ∨
      (mergeMeta no_inherit no_merge parent child).get? key = parent.get? key := by
  rw [mergeMeta_eq, get?_foldl_of_notMem h]
  unfold inherited
  cases hkeep : (fun key => !(deletions child).contains key && !no_inherit.contains key) key with
  | true => exact .inr (Dict.get?_only (by exact hkeep) parent)
  | false =>
      refine .inl (Dict.get?_eq_none_iff.mpr fun hmem => ?_)
      obtain ⟨e, he, rfl⟩ := List.mem_map.mp hmem
      have := (List.mem_filter.mp he).2
      rw [hkeep] at this
      cases this

/-- The paths of the catalogue, each with what it inherits. -/
theorem get?_resolveInheritance (h : resolveInheritance files = .ok catalogue) (path : String) :
    (catalogue.get? path).isSome = (files.get? path).isSome ∧
      ∀ metadata, catalogue.get? path = some metadata →
        ∃ level, inheritedMetadata files path = .ok level ∧ level.merged = metadata := by
  unfold resolveInheritance at h
  rw [List.mapM_eq_ok_iff] at h
  have hall : ∀ (l : CataloguePaths) (r : CataloguePaths), List.Forall₂ (fun e r => (do
        let level ← inheritedMetadata files e.1
        return (e.1, level.merged) : Except Raised (String × Metadata)) = .ok r) l r →
      (r.get? path).isSome = (l.get? path).isSome ∧
        ∀ metadata, r.get? path = some metadata →
          ∃ level, inheritedMetadata files path = .ok level ∧ level.merged = metadata := by
    intro l r hr
    induction hr with
    | nil => exact ⟨rfl, nofun⟩
    | @cons e r' l r hstep _ ih =>
        obtain ⟨level, hlevel, hstep⟩ := Except.bind_eq_ok.mp hstep
        obtain rfl := Except.ok.inj hstep
        rcases e with ⟨k, v⟩
        rw [Dict.get?_cons, Dict.get?_cons]
        by_cases heq : k = path
        · rw [if_pos heq, if_pos heq]
          refine ⟨rfl, fun metadata hmetadata => ⟨level, heq ▸ hlevel, Option.some.inj hmetadata⟩⟩
        · rw [if_neg heq, if_neg heq]
          exact ih
  exact hall files catalogue h

theorem chainOf_resolveInheritance (h : resolveInheritance files = .ok catalogue) (path : String) :
    chainOf catalogue path = chainOf files path := by
  unfold chainOf
  congr 1
  apply List.filter_congr
  intro p _
  exact (get?_resolveInheritance h p).1

/-- Without variables of its own, a path has none, or those of its nearest ancestor. -/
theorem envOf_nearest (h : resolveInheritance files = .ok catalogue) {path ancestor : String}
    {own : Metadata} (hown : files.get? path = some own) (hnone : own.get? "env" = none)
    (hnearest : NearestAncestor catalogue path ancestor) :
    envOf catalogue path = .ok [] ∨ envOf catalogue path = envOf catalogue ancestor := by
  have hpath : (catalogue.get? path).isSome = true := by
    rw [(get?_resolveInheritance h path).1, hown]
    rfl
  obtain ⟨hancestor, hchain⟩ := chainOf_nearest hpath hnearest
  obtain ⟨metadata, hmetadata⟩ := Option.isSome_iff_exists.mp hpath
  obtain ⟨parent, hparent⟩ := Option.isSome_iff_exists.mp hancestor
  obtain ⟨level, hlevel, rfl⟩ := (get?_resolveInheritance h path).2 metadata hmetadata
  obtain ⟨level', hlevel', rfl⟩ := (get?_resolveInheritance h ancestor).2 parent hparent
  -- the walk to the path is the walk to the ancestor, and one level
  have hstep : Inherited.enter files level' path = .ok level := by
    unfold inheritedMetadata at hlevel hlevel'
    rw [← chainOf_resolveInheritance h, hchain, chainOf_resolveInheritance h, List.foldlM_append,
      hlevel', Except.ok_bind, List.foldlM_cons] at hlevel
    obtain ⟨level₁, hfirst, hrest⟩ := Except.bind_eq_ok.mp hlevel
    obtain rfl := Except.ok.inj hrest
    exact hfirst
  obtain ⟨no_inherit, -, hstep⟩ := Except.bind_eq_ok.mp hstep
  obtain ⟨no_merge, -, hstep⟩ := Except.bind_eq_ok.mp hstep
  obtain rfl := Except.ok.inj hstep
  have hgetD : files.getD path [] = own := by rw [Dict.getD, hown, Option.getD_some]
  unfold envOf Dict.getD
  rw [hmetadata, hparent, Option.getD_some, Option.getD_some]
  dsimp only at hmetadata ⊢
  rw [hgetD]
  rcases get?_mergeMeta_of_none (level'.no_inherit ++ no_inherit) (level'.no_merge ++ no_merge)
    level'.merged hnone with hnil | hsame
  · rw [hnil]
    exact .inl rfl
  · rw [hsame]
    exact .inr rfl

/-! ## What a provider receives -/

/-- A part as it stands in the text. -/
def TextPart.print : TextPart → List Char
  | .char c => [c]
  | .reference name => '$' :: '\x7b' :: name.toList ++ ['\x7d']

/-- The parts of a text make up the text. -/
theorem print_textPartsFrom (scan : Scan) (text : List Char) :
    (textPartsFrom word scan text).flatMap TextPart.print =
      scan.pending.flatMap TextPart.print ++ text := by
  have hchars : ∀ chars : List Char,
      (chars.map TextPart.char).flatMap TextPart.print = chars := by
    intro chars
    induction chars with
    | nil => rfl
    | cons c rest ih =>
        rw [List.map_cons, List.flatMap_cons, ih]
        rfl
  induction text generalizing scan with
  | nil => rw [textPartsFrom, List.append_nil]
  | cons c rest ih =>
      rw [textPartsFrom, List.flatMap_append, ih]
      cases scan with
      | text =>
          simp only [Scan.step]
          split
          · rename_i hc
            simp [Scan.pending, TextPart.print, hc]
          · simp [Scan.pending, TextPart.print]
      | dollar =>
          simp only [Scan.step]
          split
          · rename_i hc
            simp [Scan.pending, TextPart.print, hc]
          split
          · rename_i hc
            simp [Scan.pending, TextPart.print, hc]
          · simp [Scan.pending, TextPart.print]
      | name chars =>
          simp only [Scan.step]
          split
          · simp [Scan.pending, TextPart.print, hchars]
          split
          · rename_i hc
            simp [Scan.pending, TextPart.print, hchars, hc.1]
          split
          · rename_i hc
            simp [Scan.pending, TextPart.print, hchars, hc]
          · simp [Scan.pending, TextPart.print, hchars]

/-- A text without references stays as it is. -/
theorem resolveVars_plain {text : String} (h : (referencesOf word text).isEmpty = true)
    (context : Context) : resolveVars word text context = text := by
  have hparts : ∀ part ∈ textParts word text, part.resolve context = part.print := by
    intro part hpart
    cases part with
    | char c => rfl
    | reference name =>
        have hname : name ∈ referencesOf word text := List.mem_filterMap.mpr ⟨_, hpart, rfl⟩
        rw [List.isEmpty_iff.mp h] at hname
        cases hname
  unfold resolveVars
  rw [List.flatMap_congr hparts, textParts, print_textPartsFrom]
  exact String.ofList_toList

theorem plain_of_settledEnv {env : Metadata} (h : settledEnv word env = true) {key : String}
    (hkey : key ∈ env.keys) : (referencesOf word key).isEmpty = true := by
  induction env with
  | nil => cases hkey
  | cons e rest ih =>
      rcases e with ⟨k, v⟩
      simp only [settledEnv, Bool.and_eq_true] at h
      rcases List.mem_cons.mp hkey with rfl | hmem
      · exact h.1.1.2
      · exact ih h.2 hmem

/-- The variables among the resolved metadata have the values that the context gives them. -/
theorem env_of_resolvePath {path : String} {metadata : Metadata}
    (hget : catalogue.get? path = some metadata) (hnodup : metadata.keys.Nodup)
    (hsettled : settledMetadata word metadata = true)
    {resolved : Metadata} (h : resolvePath word catalogue context path = .ok resolved) :
    ∃ c, accumulated word catalogue context path = .ok c ∧
      ∀ env : Metadata, resolved.get? "env" = some (.dict env) → env.keys.Nodup ∧
        ∀ name value, env.get? name = some value →
          ∃ text, value = .str text ∧ c.get? name = some text := by
  unfold resolvePath at h
  rw [hget] at h
  obtain ⟨c, hacc, h⟩ := Except.bind_eq_ok.mp h
  refine ⟨c, hacc, fun env henv => ?_⟩
  have henv' : (Dict.update [] (resolveEntries word c metadata)).get? "env" = some (.dict env) := by
    rw [← henv, get?_mergeBuildRequires h (by decide)]
  -- the entry of the variables, as it is in the catalogue
  have hplain := hsettled
  unfold settledMetadata at hplain
  rw [Bool.and_eq_true, List.all_eq_true] at hplain
  obtain ⟨raw_key, raw, hraw, hkey, hvalue⟩ :=
    mem_resolveEntries word ((Dict.mem_of_get?_update henv').resolve_left nofun)
  rw [resolveVars_plain (hplain.1 raw_key (List.mem_map.mpr ⟨_, hraw, rfl⟩))] at hkey
  subst hkey
  have hrawget := (Dict.get?_eq_some_iff hnodup).mpr hraw
  cases raw with
  | dict definitions =>
      rw [resolveValue] at hvalue
      obtain rfl := Yaml.dict.inj hvalue
      refine ⟨Dict.nodup_keys_update (d := []) List.nodup_nil _, fun name value hname => ?_⟩
      obtain ⟨key, value', hmem, rfl, rfl⟩ :=
        mem_resolveEntries word ((Dict.mem_of_get?_update hname).resolve_left nofun)
      have henvOf : envOf catalogue path = .ok definitions := by
        unfold envOf Dict.getD
        rw [hget, Option.getD_some, hrawget]
        cases definitions with
        | nil => cases hmem
        | cons e rest => rfl
      obtain ⟨env, henv₁, hfixed⟩ := accumulated_fixed hget hsettled hacc
      obtain rfl := Except.ok.inj (henvOf.symm.trans henv₁)
      obtain ⟨text, rfl, hc⟩ := hfixed key value' hmem
      have hkey := plain_of_settledEnv (settledEnv_envOf hget hsettled henvOf)
        (List.mem_map.mpr ⟨_, hmem, rfl⟩)
      rw [resolveVars_plain hkey]
      exact ⟨_, rfl, hc⟩
  | null | bool | int | str | list => cases hvalue

/-- The variables of the metadata come last in what a provider receives. -/
theorem get?_providerEnvironment {c : Context} {metadata environment env : Metadata}
    (h : providerEnvironment c metadata = .ok environment)
    (henv : metadata.get? "env" = some (.dict env)) (hnodup : env.keys.Nodup) {name : String}
    {value : Yaml} (hname : env.get? name = some value) : environment.get? name = some value := by
  unfold providerEnvironment at h
  rw [Dict.getD, Dict.getD, henv, Option.getD_some] at h
  dsimp only at h
  split at h
  · rename_i execution_env env' _ heq
    obtain rfl := Yaml.dict.inj heq
    rw [← Except.ok.inj h]
    exact Dict.get?_update_of_get? hnodup hname
  · cases h

theorem nodup_mergeMeta (no_inherit no_merge : List String) {parent : Metadata} (child : Metadata)
    (hparent : parent.keys.Nodup) : (mergeMeta no_inherit no_merge parent child).keys.Nodup := by
  rw [mergeMeta_eq]
  have hstart : (inherited no_inherit parent child).keys.Nodup :=
    hparent.sublist ((List.filter_sublist).map Prod.fst)
  generalize inherited no_inherit parent child = result at hstart
  induction child generalizing result with
  | nil => exact hstart
  | cons e rest ih =>
      rw [List.foldl_cons]
      apply ih
      unfold mergeEntry
      split
      · exact hstart
      split <;> exact Dict.nodup_keys_set hstart _ _

theorem nodup_inheritedMetadata {path : String} {level : Inherited}
    (h : inheritedMetadata files path = .ok level) : level.merged.keys.Nodup := by
  refine List.foldlM_invariant (P := fun level : Inherited => level.merged.keys.Nodup)
    (fun level ancestor _ level' hlevel hstep => ?_)
    (show (Dict.keys ([] : Metadata)).Nodup from List.nodup_nil) h
  obtain ⟨no_inherit, -, hstep⟩ := Except.bind_eq_ok.mp hstep
  obtain ⟨no_merge, -, hstep⟩ := Except.bind_eq_ok.mp hstep
  rw [← Except.ok.inj hstep]
  exact nodup_mergeMeta _ _ _ hlevel

/-- **Settled variables agree along the hierarchy.** A path without variables of its own has the
context of its nearest ancestor; and the variables among the resolved metadata of a path, which its
provider receives, have the values of the context that the metadata were resolved with. -/
theorem env_agrees (h : resolveInheritance files = .ok catalogue)
    (hsettled : ∀ path metadata, catalogue.get? path = some metadata →
      settledMetadata word metadata = true) (context : Context) :
    (∀ path own ancestor, files.get? path = some own → own.get? "env" = none →
      NearestAncestor catalogue path ancestor →
        accumulated word catalogue context path = accumulated word catalogue context ancestor) ∧
    ∀ path resolved, resolvePath word catalogue context path = .ok resolved →
      ∃ c, accumulated word catalogue context path = .ok c ∧
        ∀ env name value, resolved.get? "env" = some (.dict env) → Dict.get? env name = some value →
          (∃ text, value = .str text ∧ c.get? name = some text) ∧
          ∀ outer environment, providerEnvironment outer resolved = .ok environment →
            environment.get? name = some value := by
  constructor
  · intro path own ancestor hown hnone hnearest
    have hpath : (catalogue.get? path).isSome = true := by
      rw [(get?_resolveInheritance h path).1, hown]
      rfl
    obtain ⟨parent, hparent⟩ := Option.isSome_iff_exists.mp (chainOf_nearest hpath hnearest).1
    exact accumulated_nearest hpath hnearest hparent (hsettled ancestor parent hparent)
      (envOf_nearest h hown hnone hnearest)
  · intro path resolved hresolved
    cases hget : catalogue.get? path with
    | none =>
        unfold resolvePath at hresolved
        rw [hget] at hresolved
        cases hresolved
    | some metadata =>
        obtain ⟨level, hlevel, rfl⟩ := (get?_resolveInheritance h path).2 metadata hget
        obtain ⟨c, hacc, hvalues⟩ := env_of_resolvePath hget (nodup_inheritedMetadata hlevel)
          (hsettled path _ hget) hresolved
        refine ⟨c, hacc, fun env name value henv hname => ?_⟩
        obtain ⟨hnodup, henvValues⟩ := hvalues env henv
        exact ⟨henvValues name value hname, fun outer environment henvironment =>
          get?_providerEnvironment henvironment henv hnodup hname⟩

/-! ## Definitions that add to their own variable -/

theorem length_flatMap_of_mem {f : TextPart → List Char} {l : List TextPart} {part : TextPart}
    (h : part ∈ l) : (f part).length ≤ (l.flatMap f).length := by
  induction l with
  | nil => cases h
  | cons head rest ih =>
      rw [List.flatMap_cons, List.length_append]
      rcases List.mem_cons.mp h with rfl | hmem
      · exact Nat.le_add_right _ _
      · exact Nat.le_trans (ih hmem) (Nat.le_add_left _ _)

theorem length_flatMap_of_mem_two {f : TextPart → List Char} {l : List TextPart}
    {part other : TextPart} (h : part ∈ l) (h' : other ∈ l) (hne : part ≠ other) :
    (f part).length + (f other).length ≤ (l.flatMap f).length := by
  induction l with
  | nil => cases h
  | cons head rest ih =>
      rw [List.flatMap_cons, List.length_append]
      rcases List.mem_cons.mp h with rfl | hmem
      · have hother := length_flatMap_of_mem (f := f) ((List.mem_cons.mp h').resolve_left hne.symm)
        omega
      · rcases List.mem_cons.mp h' with rfl | hmem'
        · have hpart := length_flatMap_of_mem (f := f) hmem
          omega
        · have hboth := ih hmem hmem'
          omega

/-- A text that refers to a variable and has a character of its own is longer than the variable. -/
theorem resolveVars_ne_self {text name value : String} {c : Char}
    (href : .reference name ∈ textParts word text) (hchar : .char c ∈ textParts word text)
    (hget : context.get? name = some value) : resolveVars word text context ≠ value := by
  intro heq
  have hlength := length_flatMap_of_mem_two (f := TextPart.resolve context) href hchar nofun
  have hlist : (textParts word text).flatMap (TextPart.resolve context) = value.toList := by
    rw [← heq, resolveVars, String.toList_ofList]
  rw [hlist] at hlength
  simp only [TextPart.resolve, hget, Option.getD_some, List.length_singleton] at hlength
  omega

theorem resolveEntries_plain {c : Context} {entries : Metadata}
    (h : ∀ key ∈ entries.keys, (referencesOf word key).isEmpty = true) :
    resolveEntries word c entries = Dict.mapValues (fun _ value => resolveValue word c value) entries := by
  induction entries with
  | nil => rfl
  | cons e rest ih =>
      rcases e with ⟨key, value⟩
      rw [resolveEntries, resolveVars_plain (h key List.mem_cons_self),
        ih fun k hk => h k (List.mem_cons_of_mem _ hk)]
      rfl

/-- With plain keys a resolved mapping has the resolved values at the same keys. -/
theorem get?_resolveEntries_plain {c : Context} {entries : Metadata} (hnodup : entries.keys.Nodup)
    (h : ∀ key ∈ entries.keys, (referencesOf word key).isEmpty = true) {key : String} {value : Yaml}
    (hget : entries.get? key = some value) :
    (Dict.update [] (resolveEntries word c entries)).get? key = some (resolveValue word c value) := by
  rw [resolveEntries_plain h]
  apply Dict.get?_update_of_get?
  · rw [Dict.keys_mapValues]
    exact hnodup
  · rw [Dict.get?_mapValues, hget]
    rfl

/-- What is defined has a value. -/
theorem isSome_of_resolveEnv {env : Metadata} {c c' : Context} (h : resolveEnv word env c = .ok c')
    {name : String} (hname : name ∈ env.keys ∨ (c.get? name).isSome = true) :
    (c'.get? name).isSome = true := by
  induction env generalizing c with
  | nil =>
      obtain rfl := Except.ok.inj h
      exact hname.resolve_left List.not_mem_nil
  | cons e rest ih =>
      obtain ⟨c₁, hfirst, h⟩ := Except.bind_eq_ok.mp h
      apply ih h
      unfold defineVar at hfirst
      split at hfirst
      · obtain rfl := Except.ok.inj hfirst
        rw [Dict.get?_set]
        by_cases heq : e.1 = name
        · exact .inr (by rw [if_pos heq]; rfl)
        · rw [if_neg heq]
          exact hname.imp_left fun hmem => (List.mem_cons.mp hmem).resolve_left (Ne.symm heq)
      · cases hfirst

/-- **A definition that adds text to its own variable never agrees**: in no context has the variable
the value that the provider receives. -/
theorem self_reference_disagrees {path : String} {metadata definitions : Metadata}
    (hget : catalogue.get? path = some metadata) (hnodup : metadata.keys.Nodup)
    (hplain : ∀ key ∈ metadata.keys, (referencesOf word key).isEmpty = true)
    (henv : metadata.get? "env" = some (.dict definitions)) (hdefinitions : definitions.keys.Nodup)
    (hnames : ∀ key ∈ definitions.keys, (referencesOf word key).isEmpty = true)
    {name text : String} {c : Char} (hdefined : definitions.get? name = some (.str text))
    (href : .reference name ∈ textParts word text) (hchar : .char c ∈ textParts word text)
    {resolved : Metadata} (h : resolvePath word catalogue context path = .ok resolved) :
    ∃ final env value exported, accumulated word catalogue context path = .ok final ∧
      resolved.get? "env" = some (.dict env) ∧ final.get? name = some value ∧
      Dict.get? env name = some (.str exported) ∧ exported ≠ value := by
  unfold resolvePath at h
  rw [hget] at h
  obtain ⟨final, hacc, h⟩ := Except.bind_eq_ok.mp h
  have hvalue : (final.get? name).isSome = true := by
    obtain ⟨above, habove⟩ := chainOf_self (show (catalogue.get? path).isSome = true by
      rw [hget]; rfl)
    have hlast := hacc
    rw [accumulated_snoc habove] at hlast
    obtain ⟨c₁, -, hlast⟩ := Except.bind_eq_ok.mp hlast
    obtain ⟨env, henvOf, hlast⟩ := Except.bind_eq_ok.mp hlast
    have hsame : envOf catalogue path = .ok definitions := by
      unfold envOf Dict.getD
      rw [hget, Option.getD_some, henv]
      cases definitions with
      | nil => cases hdefined
      | cons e rest => rfl
    obtain rfl := Except.ok.inj (hsame.symm.trans henvOf)
    exact isSome_of_resolveEnv hlast (.inl (Dict.mem_keys_of_get?_eq_some hdefined))
  obtain ⟨value, hfinal⟩ := Option.isSome_iff_exists.mp hvalue
  refine ⟨final, Dict.update [] (resolveEntries word final definitions), value,
    resolveVars word text final, hacc, ?_, hfinal, ?_, resolveVars_ne_self href hchar hfinal⟩
  · rw [get?_mergeBuildRequires h (by decide), get?_resolveEntries_plain hnodup hplain henv]
    simp only [resolveValue]
  · rw [get?_resolveEntries_plain hdefinitions hnames hdefined]
    simp only [resolveValue]

end

/-! ## A root with variables, and a path below it -/

/-- A catalogue of a root with variables, and a path without. -/
def rootWith (env : Metadata) : CataloguePaths := [("", [("env", .dict env)]), ("tools", [])]

/-- A variable in the context of a path, and in its resolved metadata. -/
def variableOf (env : Metadata) (context : Context) (path name : String) :
    Option String × Option String :=
  match resolveInheritance (rootWith env) with
  | .error _ => (none, none)
  | .ok catalogue =>
      ((accumulated Char.isAlphanum catalogue context path).toOption.bind fun c => c.get? name,
        (resolvePath Char.isAlphanum catalogue context path).toOption.bind fun resolved =>
          match resolved.get? "env" with
          | some (.dict env) =>
              match Dict.get? env name with
              | some (.str text) => some text
              | _ => none
          | _ => none)

/-- A definition that adds to its own variable: it is applied once for the root, twice for the path
below, and once more for what their providers receive. A definition that refers to a later one: it
finds the later one the second time. -/
theorem self_reference_applied_again :
    let own : Metadata := [("PATH", .str "$\x7bPATH\x7d:x")]
    let later : Metadata := [("A", .str "$\x7bB\x7d"), ("B", .str "x")]
    variableOf own [("PATH", "/bin")] "" "PATH" = (some "/bin:x", some "/bin:x:x") ∧
      variableOf own [("PATH", "/bin")] "tools" "PATH" = (some "/bin:x:x", some "/bin:x:x:x") ∧
      variableOf later [] "" "A" = (some "$\x7bB\x7d", some "x") ∧
      variableOf later [] "tools" "A" = (some "x", some "x") := by
  decide +kernel

/-- A variable that refers to one before it. -/
def homeEnv : Metadata := [("ROOT", .str "/opt"), ("HOME", .str "$\x7bROOT\x7d/home")]

theorem homeEnv_settled : (resolveInheritance (rootWith homeEnv)).toOption.map (fun catalogue =>
    catalogue.map fun e => (e.1, settledMetadata Char.isAlphanum e.2)) =
      some [("", true), ("tools", true)] := by
  decide +kernel

/-- The path below the root has the context of the root. -/
theorem home_agrees : ∃ catalogue, resolveInheritance (rootWith homeEnv) = .ok catalogue ∧
    accumulated Char.isAlphanum catalogue [] "tools" = accumulated Char.isAlphanum catalogue [] "" := by
  have hsettled := homeEnv_settled
  cases hrun : resolveInheritance (rootWith homeEnv) with
  | error e =>
      rw [hrun] at hsettled
      cases hsettled
  | ok catalogue =>
      rw [hrun] at hsettled
      have hlist := Option.some.inj hsettled
      refine ⟨catalogue, rfl, (env_agrees hrun (fun path metadata hget => ?_) []).1 "tools" [] ""
        rfl rfl ?_⟩
      · have hmem : (path, settledMetadata Char.isAlphanum metadata) ∈
            catalogue.map fun e => (e.1, settledMetadata Char.isAlphanum e.2) :=
          List.mem_map.mpr ⟨_, Dict.mem_of_get?_eq_some hget, rfl⟩
        dsimp only at hlist
        rw [hlist] at hmem
        simp only [List.mem_cons, Prod.mk.injEq, List.not_mem_nil, or_false] at hmem
        exact hmem.elim And.right And.right
      · refine ⟨by decide, [], ?_⟩
        rw [chainOf_resolveInheritance hrun]
        decide +kernel

end Mountin
