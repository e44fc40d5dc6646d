import Mathlib.Logic.Relation
import Mountin.Build.InputText
import Mountin.Build.World

set_option autoImplicit false

/-! # Provider caches

Each provider variant has a directory of its own for what its build wants to keep. A marker beside
the directory says for which input hash it was made; `prepare_provider_cache` removes the whole when
the hash is another one. The steps of that removal, and those that make the directory anew, can be
stopped between any two of them.

* `Clean` : a directory with a marker holds files of the marked hash only.
* `prepareProviderCache_safe` : what the call passes through, and what it returns.
* `providerCache_pure` : what is returned in any sequence of calls, builds and stops.
-/

namespace Mountin

/-! ## Places -/

/-- `PROVIDER_CACHE_VERSION`. -/
def PROVIDER_CACHE_VERSION : Nat := 3

/-- `re.sub(r"[^A-Za-z0-9._-]+", "-", …)`, told whether it is within a run of other characters. -/
def slugOf : Bool → List Char → List Char
  | _, [] => []
  | within, c :: rest =>
      if c.isAlphanum ∨ c = '.' ∨ c = '_' ∨ c = '-' then c :: slugOf false rest
      else if within then slugOf true rest
      else '-' :: slugOf true rest

/-- `s.strip(…)` of the characters that `drop` accepts. -/
def stripWhile {α : Type} (drop : α → Bool) (s : List α) : List α :=
  ((s.dropWhile drop).reverse.dropWhile drop).reverse

/-- `provider_cache_name`. -/
def providerCacheName (lib : Library) (instance_id : String) : String :=
  if instance_id.isEmpty then "_root"
  else
    let slug := (stripWhile (· == '-') (slugOf false instance_id.toList)).take 80
    let slug := if slug.isEmpty then "provider".toList else slug
    let identity := encode (toString PROVIDER_CACHE_VERSION ++ "\x00" ++ instance_id)
    let digest := (hexText (lib.sha256 identity)).take 24
    String.ofList (slug ++ "--".toList ++ digest.map fun b => Char.ofNat b.toNat)

/-- A build platform: one name, so that the directories of a platform are those directly below it,
as `remove_provider_cache` requires. -/
structure BuildPlatform where
  name : String
  single : name ≠ "" ∧ '/' ∉ name.toList
deriving DecidableEq

/-- `provider_cache_relative`: the platform and the name of the directory. -/
def providerCacheRelative (lib : Library) (build_platform : BuildPlatform) (instance_id : String) :
    BuildPlatform × String :=
  (build_platform, providerCacheName lib instance_id)

/-! ## Directories -/

/-- A file of the directory, with the input hash under which it was created. -/
structure CachedFile where
  path : RelPath
  createdUnder : Bytes
deriving DecidableEq

/-- The directory of a provider variant: the marker `.mountin-input`, the file that becomes the
marker, and the files in `work`. -/
structure CacheRoot where
  marker : Option Bytes
  temporary : Option Bytes
  work : Option (List CachedFile)
deriving DecidableEq

/-- `build/cache/stages`. -/
abbrev Stages := BuildPlatform × String → Option CacheRoot

def Stages.set (stages : Stages) (place : BuildPlatform × String) (root : Option CacheRoot) : Stages :=
  fun p => if p = place then root else stages p

theorem Stages.set_self (stages : Stages) (place : BuildPlatform × String)
    (root : Option CacheRoot) : stages.set place root place = root := if_pos rfl

theorem Stages.set_of_ne (stages : Stages) {place p : BuildPlatform × String}
    (root : Option CacheRoot) (h : p ≠ place) : stages.set place root p = stages p := if_neg h

/-- What is left of a directory while it is being removed, in any order. -/
structure CacheRoot.PartOf (part root : CacheRoot) : Prop where
  marker : part.marker = root.marker ∨ part.marker = none
  work : ∀ files ∈ part.work, ∃ all ∈ root.work, ∀ f ∈ files, f ∈ all

/-- What a removal meets: the states that it passes through, and whether it fails in the end. -/
structure CacheEnv where
  removing : CacheRoot → List CacheRoot
  refused : CacheRoot → Bool

/-- Removing takes away, and adds nothing. -/
def CacheEnv.Lawful (env : CacheEnv) : Prop :=
  ∀ root, ∀ part ∈ env.removing root, part.PartOf root

/-- The programs over the directories. -/
abbrev Caching (α : Type) := Prog Stages Raised α

def setRoot (place : BuildPlatform × String) (root : Option CacheRoot) : Caching Unit :=
  Prog.act fun stages => stages.set place root

def changeRoot (place : BuildPlatform × String) (f : CacheRoot → CacheRoot) : Caching Unit :=
  Prog.act fun stages => stages.set place ((stages place).map f)

/-- `remove_provider_cache`. -/
def removeProviderCache (env : CacheEnv) (place : BuildPlatform × String) : Caching Unit := do
  let found ← Prog.look fun stages => stages place
  match found with
  | none => Prog.raise .osError
  | some root =>
      Prog.each (env.removing root) fun part => setRoot place (some part)
      if env.refused root then Prog.raise .osError else setRoot place none

/-- `str.isspace` of an ASCII character. -/
def isSpace (b : UInt8) : Bool := (9 ≤ b && b ≤ 13) || (28 ≤ b && b ≤ 32)

/-- `read_text().strip()` of the marker. -/
def CacheRoot.current (root : CacheRoot) : Option Bytes := root.marker.map (stripWhile isSpace)

/-- Makes the directory for an input hash. -/
def makeRoot (place : BuildPlatform × String) (input_hash : Bytes) : Caching Unit := do
  setRoot place (some ⟨none, none, none⟩)
  changeRoot place fun root => { root with temporary := some [] }
  changeRoot place fun root => { root with temporary := some (input_hash ++ [0x0a]) }
  changeRoot place fun root => { root with marker := root.temporary, temporary := none }

/-- Removes the directory if there is one. -/
def removeExisting (env : CacheEnv) (place : BuildPlatform × String) : Caching Unit := do
  let found ← Prog.look fun stages => stages place
  if found.isSome then removeProviderCache env place else pure ()

/-- The part of `prepare_provider_cache` before `work`: a directory whose marker is another hash,
or that has none, is made anew. -/
def renewRoot (env : CacheEnv) (place : BuildPlatform × String) (input_hash : Bytes) :
    Caching Unit := do
  let found ← Prog.look fun stages => stages place
  if found.bind CacheRoot.current ≠ some input_hash then do
    removeExisting env place
    makeRoot place input_hash
  else pure ()

/-- `prepare_provider_cache`; the directory is `work` below the place that it returns. -/
def prepareProviderCache (lib : Library) (env : CacheEnv) (build_platform : BuildPlatform)
    (instance_id : String) (input_hash : Bytes) : Caching (BuildPlatform × String) := do
  let place := providerCacheRelative lib build_platform instance_id
  renewRoot env place input_hash
  changeRoot place fun root => { root with work := some (root.work.getD []) }
  pure place

/-! ## What holds of a directory -/

/-- A directory with a marker holds files of the marked hash only. -/
def CacheRoot.Clean (root : CacheRoot) : Prop :=
  ∀ input_hash ∈ root.current, ∀ files ∈ root.work, ∀ f ∈ files, f.createdUnder = input_hash

/-- All directories are clean. -/
def Clean (stages : Stages) : Prop := ∀ place, ∀ root ∈ stages place, root.Clean

theorem Clean.set {stages : Stages} (h : Clean stages) {place : BuildPlatform × String}
    {root : Option CacheRoot} (hroot : ∀ r ∈ root, r.Clean) : Clean (stages.set place root) := by
  intro p r hr
  by_cases hp : p = place
  · rw [hp, Stages.set_self] at hr
    exact hroot r hr
  · rw [Stages.set_of_ne _ _ hp] at hr
    exact h p r hr

theorem CacheRoot.Clean.part {part root : CacheRoot} (h : root.Clean) (hpart : part.PartOf root) :
    part.Clean := by
  intro input_hash hcurrent files hfiles f hf
  rcases hpart.marker with hmarker | hmarker
  · rw [CacheRoot.current, hmarker] at hcurrent
    obtain ⟨all, hall, hmem⟩ := hpart.work files hfiles
    exact h input_hash hcurrent all hall f (hmem f hf)
  · rw [CacheRoot.current, hmarker] at hcurrent
    cases hcurrent

theorem CacheRoot.clean_of_no_files {root : CacheRoot} (h : root.work = none) : root.Clean := by
  intro _ _ files hfiles
  rw [h] at hfiles
  cases hfiles

/-- What `strip` leaves of a marker. -/
theorem stripWhile_marker {input_hash : Bytes} (h : IsDigest input_hash) :
    stripWhile isSpace (input_hash ++ [0x0a]) = input_hash := by
  have hdigit : ∀ c, IsHexDigit c → isSpace c = false := by
    intro c hc
    simp only [IsHexDigit, UInt8.le_iff_toNat_le, UInt8.reduceToNat] at hc
    simp only [isSpace, Bool.or_eq_false_iff, Bool.and_eq_false_iff, decide_eq_false_iff_not,
      UInt8.le_iff_toNat_le, UInt8.reduceToNat]
    omega
  obtain ⟨first, rest, hfirst⟩ := List.exists_cons_of_ne_nil h.ne_nil
  obtain ⟨last, before, hlast⟩ := List.exists_cons_of_ne_nil
    (fun hnil => h.ne_nil (List.reverse_eq_nil_iff.mp hnil))
  have hfirst' : isSpace first = false := hdigit _ (h.digits _ (hfirst ▸ List.mem_cons_self))
  have hlast' : isSpace last = false := by
    refine hdigit _ (h.digits _ (List.mem_reverse.mp ?_))
    rw [hlast]
    exact List.mem_cons_self
  have hfront : (input_hash ++ [0x0a]).dropWhile isSpace = input_hash ++ [0x0a] := by
    rw [hfirst, List.cons_append, List.dropWhile_cons_of_neg (by rw [hfirst']; decide)]
  calc stripWhile isSpace (input_hash ++ [0x0a])
      = (((input_hash ++ [0x0a]).reverse).dropWhile isSpace).reverse := by
        rw [stripWhile, hfront]
    _ = (input_hash.reverse.dropWhile isSpace).reverse := by
        rw [List.reverse_append]
        rfl
    _ = input_hash.reverse.reverse := by
        rw [hlast, List.dropWhile_cons_of_neg (by rw [hlast']; decide)]
    _ = input_hash := List.reverse_reverse _

/-! ## The calls -/

section

variable {env : CacheEnv} {place : BuildPlatform × String} {input_hash : Bytes}

theorem removeProviderCache_safe (henv : env.Lawful) :
    (removeProviderCache env place).Safe Clean (fun _ => Clean) Clean := by
  unfold removeProviderCache
  refine Prog.Safe.bind (Prog.safe_look
    (Q := fun found stages => Clean stages ∧ ∀ root ∈ found, root.Clean) fun stages h =>
      ⟨h, h place⟩) fun found => ?_
  cases found with
  | none => exact Prog.safe_raise fun stages h => h.1
  | some root =>
      -- every state on the way holds a part of the directory
      have hparts : (Prog.each (env.removing root) fun part => setRoot place (some part)).Safe
          (fun stages => Clean stages ∧ root.Clean) (fun _ stages => Clean stages ∧ root.Clean)
          Clean := by
        refine Prog.safe_each fun part hpart => ?_
        have hset : ∀ stages, Clean stages ∧ root.Clean → Clean (stages.set place (some part)) := by
          intro stages h
          refine h.1.set fun r hr => ?_
          obtain rfl := Option.some.inj hr
          exact h.2.part (henv root part hpart)
        exact Prog.safe_act (fun stages h => ⟨hset stages h, h.2⟩) hset
      refine Prog.Safe.bind (hparts.pre fun stages h => ⟨h.1, h.2 root rfl⟩) fun _ => ?_
      split
      · exact Prog.safe_raise fun stages h => h.1
      · have hnone : ∀ stages : Stages, Clean stages ∧ root.Clean →
            Clean (stages.set place none) := fun stages h => h.1.set fun r hr => by cases hr
        exact Prog.safe_act hnone hnone

/-- What a directory is made for, from its creation to its marker. -/
theorem makeRoot_safe (hdigest : IsDigest input_hash) :
    (makeRoot place input_hash).Safe Clean
      (fun _ stages => Clean stages ∧
        ∃ root, stages place = some root ∧ root.current = some input_hash)
      Clean := by
  unfold makeRoot
  -- until the marker is there, the directory holds no files
  have hstep : ∀ (f : CacheRoot → CacheRoot) (r r' : CacheRoot), f r = r' → r'.work = none →
      (changeRoot place f).Safe (fun stages => Clean stages ∧ stages place = some r)
        (fun _ stages => Clean stages ∧ stages place = some r') Clean := by
    intro f r r' hf hwork
    have hset : ∀ stages : Stages, Clean stages ∧ stages place = some r →
        Clean (stages.set place ((stages place).map f)) := by
      intro stages h
      refine h.1.set fun root hroot => ?_
      rw [h.2, Option.map_some, hf] at hroot
      obtain rfl := Option.some.inj hroot
      exact CacheRoot.clean_of_no_files hwork
    refine Prog.safe_act (fun stages h => ⟨hset stages h, ?_⟩) hset
    rw [Stages.set_self, h.2, Option.map_some, hf]
  have hempty : ∀ stages : Stages, Clean stages → Clean (stages.set place (some ⟨none, none, none⟩)) :=
    fun stages h => h.set fun root hroot => by
      obtain rfl := Option.some.inj hroot
      exact CacheRoot.clean_of_no_files rfl
  refine Prog.Safe.bind (R := fun _ stages => Clean stages ∧ stages place = some ⟨none, none, none⟩)
    (Prog.safe_act (fun stages h => ⟨hempty stages h, Stages.set_self _ _ _⟩) hempty) fun _ => ?_
  refine Prog.Safe.bind (hstep _ _ ⟨none, some [], none⟩ rfl rfl) fun _ => ?_
  refine Prog.Safe.bind (hstep _ _ ⟨none, some (input_hash ++ [0x0a]), none⟩ rfl rfl) fun _ => ?_
  refine (hstep _ _ ⟨some (input_hash ++ [0x0a]), none, none⟩ rfl rfl).post fun _ stages h =>
    ⟨h.1, _, h.2, ?_⟩
  rw [CacheRoot.current, Option.map_some, stripWhile_marker hdigest]

theorem removeExisting_safe (henv : env.Lawful) :
    (removeExisting env place).Safe Clean (fun _ => Clean) Clean := by
  unfold removeExisting
  refine Prog.Safe.bind (Prog.safe_look (Q := fun _ => Clean) fun stages h => h) fun found => ?_
  split
  · exact removeProviderCache_safe henv
  · exact Prog.safe_pure fun stages h => h

/-- The directory is marked, whether it was found so or is made anew. -/
theorem renewRoot_safe (henv : env.Lawful) (hdigest : IsDigest input_hash) :
    (renewRoot env place input_hash).Safe Clean
      (fun _ stages => Clean stages ∧
        ∃ root, stages place = some root ∧ root.current = some input_hash)
      Clean := by
  unfold renewRoot
  refine Prog.Safe.bind (Prog.safe_look
    (Q := fun found stages => Clean stages ∧ stages place = found) fun stages h =>
      ⟨h, rfl⟩) fun found => ?_
  split
  · refine Prog.Safe.bind (R := fun _ => Clean) ?_ fun _ => makeRoot_safe hdigest
    exact (removeExisting_safe henv).pre fun stages h => h.1
  · rename_i hcurrent
    refine Prog.safe_pure fun stages h => ⟨h.1, ?_⟩
    rw [not_not] at hcurrent
    obtain ⟨root, hroot, hmarked⟩ := Option.bind_eq_some_iff.mp hcurrent
    exact ⟨root, h.2.trans hroot, hmarked⟩

/-- **A call** passes through clean states only; where it returns, the directory is marked with the
input hash and has a place for files. -/
theorem prepareProviderCache_safe (lib : Library) (henv : env.Lawful) (hdigest : IsDigest input_hash)
    (build_platform : BuildPlatform) (instance_id : String) :
    (prepareProviderCache lib env build_platform instance_id input_hash).Safe Clean
      (fun place stages => Clean stages ∧ place = providerCacheRelative lib build_platform instance_id ∧
        ∃ root files, stages place = some root ∧ root.current = some input_hash ∧
          root.work = some files)
      Clean := by
  set place := providerCacheRelative lib build_platform instance_id with hplace
  unfold prepareProviderCache
  rw [← hplace]
  refine Prog.Safe.bind (renewRoot_safe henv hdigest) fun _ => ?_
  -- `work` gets no file
  have hwork : ∀ stages : Stages,
      (Clean stages ∧ ∃ root, stages place = some root ∧ root.current = some input_hash) →
      Clean (stages.set place
        ((stages place).map fun root => { root with work := some (root.work.getD []) })) := by
    rintro stages ⟨h, root, hroot, hmarked⟩
    refine h.set fun r hr => ?_
    rw [hroot, Option.map_some] at hr
    obtain rfl := Option.some.inj hr
    intro hash hcurrent files hfiles f hf
    obtain rfl : root.work.getD [] = files := Option.some.inj hfiles
    rcases hw : root.work with _ | all
    · rw [hw] at hf
      cases hf
    · rw [hw] at hf
      exact h place root hroot hash hcurrent all hw f hf
  refine Prog.Safe.bind (R := fun _ stages => Clean stages ∧ ∃ root files, stages place = some root ∧
    root.current = some input_hash ∧ root.work = some files) ?_ fun _ =>
      Prog.safe_pure fun stages h => ⟨h.1, rfl, h.2⟩
  refine Prog.safe_act (fun stages h => ⟨hwork stages h, ?_⟩) hwork
  obtain ⟨-, root, hroot, hmarked⟩ := h
  refine ⟨{ root with work := some (root.work.getD []) }, _, ?_, hmarked, rfl⟩
  rw [Stages.set_self, hroot, Option.map_some]

end

/-! ## Any sequence of calls, builds and stops -/

/-- The directories, and the variant and hash that the running program has prepared last. -/
structure CacheSystem where
  stages : Stages
  prepared : Option ((BuildPlatform × String) × Bytes)

/-- What can happen next. -/
inductive CacheStep (lib : Library) : CacheSystem → CacheSystem → Prop
  /-- a call returns -/
  | returned {env : CacheEnv} (henv : env.Lawful) {build_platform : BuildPlatform}
      {instance_id : String} {input_hash : Bytes} (hdigest : IsDigest input_hash)
      {system : CacheSystem} {course : Course Stages Raised (BuildPlatform × String)}
      (hcourse : prepareProviderCache lib env build_platform instance_id input_hash system.stages =
        course) {place : BuildPlatform × String} (hresult : course.result = .ok place) :
      CacheStep lib system ⟨course.state, some (place, input_hash)⟩
  /-- a call is stopped somewhere, or raises -/
  | stopped {env : CacheEnv} (henv : env.Lawful) {build_platform : BuildPlatform}
      {instance_id : String} {input_hash : Bytes} (hdigest : IsDigest input_hash)
      {system : CacheSystem} {stages : Stages} (hstages : stages ∈
        (prepareProviderCache lib env build_platform instance_id input_hash).stops system.stages) :
      CacheStep lib system ⟨stages, none⟩
  /-- the garbage collection removes a directory, or is stopped while it does -/
  | collected {env : CacheEnv} (henv : env.Lawful) {place : BuildPlatform × String}
      {system : CacheSystem} {stages : Stages}
      (hstages : stages ∈ (removeProviderCache env place).stops system.stages) :
      CacheStep lib system ⟨stages, none⟩
  /-- the build of the prepared variant removes files and creates some, or is stopped while it does -/
  | built {system : CacheSystem} {place : BuildPlatform × String} {input_hash : Bytes}
      (hprepared : system.prepared = some (place, input_hash)) {root : CacheRoot}
      (hroot : system.stages place = some root) {before after : List CachedFile}
      (hbefore : root.work = some before)
      (hafter : ∀ f ∈ after, f ∈ before ∨ f.createdUnder = input_hash) :
      CacheStep lib system
        ⟨system.stages.set place (some { root with work := some after }), system.prepared⟩
  /-- the program ends, or is stopped -/
  | ended {system : CacheSystem} : CacheStep lib system ⟨system.stages, none⟩

/-- The directories are clean, and what is prepared is marked with its hash. -/
structure CacheSystem.Consistent (system : CacheSystem) : Prop where
  clean : Clean system.stages
  marked : ∀ place input_hash, system.prepared = some (place, input_hash) →
    ∃ root, system.stages place = some root ∧ root.current = some input_hash

theorem Clean.consistent {stages : Stages} (h : Clean stages) :
    CacheSystem.Consistent ⟨stages, none⟩ :=
  ⟨h, fun _ _ hprepared => by cases hprepared⟩

/-- What a call that returns leaves behind. -/
theorem prepareProviderCache_returned {lib : Library} {env : CacheEnv} (henv : env.Lawful)
    {build_platform : BuildPlatform} {instance_id : String} {input_hash : Bytes}
    (hdigest : IsDigest input_hash) {stages : Stages} (hclean : Clean stages)
    {place : BuildPlatform × String}
    (h : (prepareProviderCache lib env build_platform instance_id input_hash stages).result =
      .ok place) :
    let after := (prepareProviderCache lib env build_platform instance_id input_hash stages).state
    Clean after ∧ place = providerCacheRelative lib build_platform instance_id ∧
      ∃ root files, after place = some root ∧ root.current = some input_hash ∧
        root.work = some files := by
  have hsafe := (prepareProviderCache_safe lib henv hdigest build_platform instance_id stages
    hclean).2
  rwa [h] at hsafe

/-- Every step keeps the directories clean. -/
theorem CacheStep.consistent {lib : Library} {system system' : CacheSystem}
    (h : CacheStep lib system system') (hsystem : system.Consistent) : system'.Consistent := by
  cases h with
  | returned henv hdigest hcourse hresult =>
      subst hcourse
      obtain ⟨hclean, -, root, files, hroot, hmarked, -⟩ :=
        prepareProviderCache_returned henv hdigest hsystem.clean hresult
      refine ⟨hclean, fun place hash hprepared => ?_⟩
      obtain ⟨rfl, rfl⟩ := Prod.mk.inj (Option.some.inj hprepared)
      exact ⟨root, hroot, hmarked⟩
  | stopped henv hdigest hstages =>
      exact Clean.consistent ((prepareProviderCache_safe lib henv hdigest _ _).stops (fun _ h => h)
        (fun _ _ h => h.1) hsystem.clean hstages)
  | collected henv hstages =>
      exact Clean.consistent ((removeProviderCache_safe henv).stops (fun _ h => h) (fun _ _ h => h)
        hsystem.clean hstages)
  | @built _ place input_hash hprepared root hroot before after hbefore hafter =>
      obtain ⟨root', hroot', hmarked⟩ := hsystem.marked _ _ hprepared
      obtain rfl : root = root' := Option.some.inj (hroot.symm.trans hroot')
      refine ⟨hsystem.clean.set fun r hr => ?_, fun place' hash hprepared' => ?_⟩
      · obtain rfl := Option.some.inj hr
        intro hash hcurrent files hfiles f hf
        obtain rfl : after = files := Option.some.inj hfiles
        obtain rfl : input_hash = hash := Option.some.inj (hmarked.symm.trans hcurrent)
        rcases hafter f hf with hold | hnew
        · exact hsystem.clean _ root hroot input_hash hmarked before hbefore f hold
        · exact hnew
      · have hsame := Option.some.inj (hprepared.symm.trans hprepared')
        obtain ⟨rfl, rfl⟩ := Prod.mk.inj hsame
        exact ⟨_, Stages.set_self _ _ _, hmarked⟩
  | ended => exact Clean.consistent hsystem.clean

/-- A build directory without provider caches. -/
def noStages : CacheSystem := ⟨fun _ => none, none⟩

/-- **The directories are pure.** Whatever calls, builds and stops came before, a call that returns
returns the directory of its variant, and every file in it was created under its input hash. -/
theorem providerCache_pure {lib : Library} {system : CacheSystem}
    (hsystem : Relation.ReflTransGen (CacheStep lib) noStages system) {env : CacheEnv}
    (henv : env.Lawful) {build_platform : BuildPlatform} {instance_id : String}
    {input_hash : Bytes} (hdigest : IsDigest input_hash) {place : BuildPlatform × String}
    (hreturned : (prepareProviderCache lib env build_platform instance_id input_hash
      system.stages).result = .ok place) :
    place = providerCacheRelative lib build_platform instance_id ∧
      ∃ root files, (prepareProviderCache lib env build_platform instance_id input_hash
        system.stages).state place = some root ∧ root.work = some files ∧
        ∀ f ∈ files, f.createdUnder = input_hash := by
  have hconsistent : system.Consistent := by
    clear hreturned
    induction hsystem with
    | refl => exact Clean.consistent fun place root hroot => by cases hroot
    | tail _ hstep ih => exact hstep.consistent ih
  obtain ⟨hclean, hplace, root, files, hroot, hmarked, hfiles⟩ :=
    prepareProviderCache_returned henv hdigest hconsistent.clean hreturned
  exact ⟨hplace, root, files, hroot, hfiles,
    hclean place root hroot input_hash hmarked files hfiles⟩

/-! ## A change of the inputs -/

def linuxPlatform : BuildPlatform := ⟨"x86_64-linux", by decide⟩

/-- A removal at once. -/
def quietEnv : CacheEnv := ⟨fun _ => [], fun _ => false⟩

/-- The place of the caches of "notes". -/
def notesPlace : BuildPlatform × String := providerCacheRelative editsLibrary linuxPlatform "notes"

/-- A call for "notes". -/
def notesCall (digest : String) (stages : Stages) : Course Stages Raised (BuildPlatform × String) :=
  prepareProviderCache editsLibrary quietEnv linuxPlatform "notes" (encode digest) stages

/-- The directory that a first build has filled. -/
def filledRoot : CacheRoot :=
  ⟨some (encode oneDigest ++ [0x0a]), none, some [⟨["ccache"], encode oneDigest⟩]⟩

/-- The state after a call and a build. -/
def filledSystem : CacheSystem :=
  ⟨(notesCall oneDigest noStages.stages).state.set notesPlace (some filledRoot),
    some (notesPlace, encode oneDigest)⟩

theorem filledSystem_reachable :
    Relation.ReflTransGen (CacheStep editsLibrary) noStages filledSystem := by
  have hlawful : quietEnv.Lawful := fun root part hpart => by cases hpart
  have hcall : CacheStep editsLibrary noStages
      ⟨(notesCall oneDigest noStages.stages).state, some (notesPlace, encode oneDigest)⟩ :=
    .returned hlawful isDigest_oneDigest rfl rfl
  have hroot : (notesCall oneDigest noStages.stages).state notesPlace =
      some { filledRoot with work := some [] } := by decide +kernel
  have hcreated : ∀ f ∈ [(⟨["ccache"], encode oneDigest⟩ : CachedFile)],
      f ∈ [] ∨ f.createdUnder = encode oneDigest := fun f hf => by
    obtain rfl := List.mem_singleton.mp hf
    exact .inr rfl
  have hwork : ({ filledRoot with work := some [] } : CacheRoot).work = some [] := rfl
  exact (Relation.ReflTransGen.single hcall).tail (.built rfl hroot hwork hcreated)

/-- Under another hash the directory is returned without the file. -/
theorem notesCall_pure :
    ∃ root files, (notesCall "c81e728d9d4c2f636f067f89cc14862c" filledSystem.stages).state notesPlace =
      some root ∧ root.work = some files ∧
        ∀ f ∈ files, f.createdUnder = encode "c81e728d9d4c2f636f067f89cc14862c" := by
  have hlawful : quietEnv.Lawful := fun root part hpart => by cases hpart
  have hdigest : IsDigest (encode "c81e728d9d4c2f636f067f89cc14862c") :=
    ⟨by decide +kernel, by decide +kernel⟩
  have hreturned : (notesCall "c81e728d9d4c2f636f067f89cc14862c" filledSystem.stages).result =
      .ok notesPlace := rfl
  exact (providerCache_pure filledSystem_reachable hlawful hdigest hreturned).2

end Mountin
