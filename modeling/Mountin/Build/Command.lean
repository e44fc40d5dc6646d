import Mathlib.Logic.Relation
import Mountin.Build.RunRule
import Mountin.Build.Source

set_option autoImplicit false

/-! # The build command

`cmd_build` exports the source tree, loads the catalogue from it, writes the implicit inputs,
saves the cache and calls `run_build`.
-/

namespace Mountin

/-- Loading and printing the catalogue of a package tree: the variants that each path resolves
to, the texts of `catalogue.json` and `catalogue/format.json`, and `fnmatch`. -/
structure Loader where
  load : Tree → Dict String String → Except Raised (List (List Instance))
  catalogueText : Tree → Bytes
  formatText : Tree → Bytes
  fnmatch : String → String → Bool

/-- `normalize_target`. -/
def normalizeTarget (target : String) : String :=
  if "build/".toList.isPrefixOf target.toList then String.ofList (target.toList.drop 6) else target

/-- A pattern with glob characters. -/
def isGlob (pattern : String) : Bool := pattern.toList.any fun c => c == '*' || c == '?' || c == '['

/-- `expand_targets`. -/
def expandTargets (loader : Loader) (patterns : List String) (providers : List (List Instance))
    (context : Dict String String) : Except Raised (List String) := do
  let index ← buildOutputIndex providers context none
  let outputs := Dict.keys (index.filter fun e => e.2.buildable)
  return patterns.flatMap fun pattern =>
    let pattern := normalizeTarget pattern
    if isGlob pattern then sortedNames (outputs.filter fun o => loader.fnmatch o pattern)
    else [pattern]

/-- `path.write_text(text)`: the file is emptied, then written. -/
def writeText (env : Env) (output : String) (text : Bytes) : Build Unit := do
  Prog.act fun w => w.setPlace output (some (.file ⟨[], 0o644, env.now⟩))
  Prog.act fun w => w.setPlace output (some (.file ⟨text, 0o644, env.now⟩))

/-- `hash_file` of an implicit input. -/
def hashInput (lib : Library) (output : String) (cache : Cache) : Build Cache := do
  let place ← Prog.look fun w => w.place
  match place output with
  | some (.file f) => pure (hashFile lib f (.build output) cache).2
  | _ => Prog.raise .osError

/-- Writes a text unless the file has it. -/
def writeChangedText (env : Env) (output : String) (text : Bytes) : Build Unit := do
  let place ← Prog.look fun w => w.place
  let same := match place output with
    | some (.file f) => f.data == text
    | _ => false
  if same then pure () else writeText env output text

/-- The implicit inputs of all builds, and their hashes. -/
def writeInputs (lib : Library) (env : Env) (loader : Loader) (package : Tree) (cache : Cache) :
    Build Cache := do
  writeText env "catalogue.json" (loader.catalogueText package)
  writeChangedText env "catalogue/format.json" (loader.formatText package)
  let cache ← hashInput lib "catalogue.json" cache
  hashInput lib "catalogue/format.json" cache

/-- The arguments of one `mountin build`: the source files as they are then, the targets, the
context and `--force`. -/
structure Command where
  source : Except Raised Tree
  patterns : List String
  context : Dict String String
  force : Bool

/-- `cmd_build`; the result is its exit status. -/
def cmdBuild (lib : Library) (loader : Loader) (sets : SetOrder) (env : Env) (command : Command) :
    Build Nat := do
  let cache ← loadCache
  let (identity, _) ← exportSourceTree lib env command.source cache.sourceIdentity
  let place ← Prog.look fun w => w.place
  let cache ← Prog.lift (updateOutputHash lib place sourceOutput identity [] cache)
  let package ← Prog.look packageTree
  let providers ← Prog.lift (loader.load package command.context)
  let targets ← Prog.lift (expandTargets loader command.patterns providers command.context)
  if targets.isEmpty then pure 1
  else
    let cache ← writeInputs lib env loader package cache
    Prog.act fun w => (w.setSaved cache).setLog { w.log with unsaved := false }
    let success ← runBuild lib env sets targets providers command.context command.force
    pure (if success then 0 else 1)

/-! ## Sequences of builds -/

/-- A build directory without cache file, and nothing done. -/
structure World.Fresh (w : World) : Prop where
  saved : w.saved = Cache.empty
  log : w.log = {}

/-- One `mountin build`, stopped anywhere, where `ok` holds of the command and the world before
it. -/
def BuildStep (lib : Library) (loader : Loader) (ok : Command → World → Prop) (w w' : World) : Prop :=
  ∃ sets env command, env.Lawful ∧ ok command w ∧
    w' ∈ (cmdBuild lib loader sets env command).stops w

/-- Any number of builds. -/
def Builds (lib : Library) (loader : Loader) (ok : Command → World → Prop) : World → World → Prop :=
  Relation.ReflTransGen (BuildStep lib loader ok)

end Mountin
