import Mountin.Basic.Crash
import Mountin.Build.Cache

set_option autoImplicit false

/-! # The state that survives a run

The build directory, the cache file, the container images, and a log that the program itself
does not see: it records what the runs did, for the statements about them.
-/

namespace Mountin

/-- A container image: its id and the label `org.mountin.input-hash`. -/
structure ContainerImage where
  id : String
  label : Option Bytes

/-- An output with an input hash: what a container run left, or what a check found. -/
structure Product where
  output : String
  input_hash : Bytes
  entry : Entry

/-- An input hash that was computed, with the files of the context directory. -/
structure Hashing where
  path : String
  files : List (RelPath × File)
  hash : Bytes

/-- What the runs did. -/
structure Log where
  /-- what completed container runs left, with the input hash recorded for it -/
  completed : List Product := []
  /-- what `is_output_dirty` took for clean -/
  clean : List Product := []
  /-- the outputs whose transaction has begun and whose records are not saved yet -/
  working : List String := []
  /-- the input hashes that were computed -/
  hashings : List Hashing := []
  /-- the identities that `export_source_tree` returned, with the tree at the destination -/
  exports : List (Bytes × Option Entry) := []
  /-- the source tree was replaced, and the cache is not saved yet -/
  unsaved : Bool := false

/-- The persistent state: what is at each place of the build directory and at its backup
`….mountin-previous`, the tree that an export is writing, the cache file, the images by tag. -/
structure World where
  place : Places
  previous : Places
  exporting : Option Tree
  saved : Cache
  images : String → Option ContainerImage
  log : Log

namespace World

def setPlace (w : World) (output : String) (entry : Option Entry) : World :=
  { w with place := fun o => if o = output then entry else w.place o }

def setPrevious (w : World) (output : String) (entry : Option Entry) : World :=
  { w with previous := fun o => if o = output then entry else w.previous o }

/-- `path.rename(backup)`. -/
def toBackup (w : World) (output : String) : World :=
  (w.setPrevious output (w.place output)).setPlace output none

/-- `backup.rename(path)`. -/
def fromBackup (w : World) (output : String) : World :=
  (w.setPlace output (w.previous output)).setPrevious output none

def setSaved (w : World) (cache : Cache) : World := { w with saved := cache }

def setImage (w : World) (tag : String) (image : Option ContainerImage) : World :=
  { w with images := fun t => if t = tag then image else w.images t }

def setLog (w : World) (log : Log) : World := { w with log := log }

end World

/-- What a run meets that the program does not decide: the states that the removal of a
directory passes through, the containers, `podman build`, and the time. -/
structure Env where
  removing : Tree → List Tree
  runContainer : String → List String → Prog World Raised Bool
  podmanBuild : String → String → Prog World Raised Bool
  now : Nat

/-- The programs of the build. -/
abbrev Build (α : Type) := Prog World Raised α

/-- Notes what the run did; nothing of the program depends on it. -/
def noteLog (f : Log → Log) : Build Unit := Prog.act fun w => w.setLog (f w.log)

/-- Removes a directory step by step, or a file at once; `put` changes what is there. -/
def removeEntry (env : Env) (put : Option Entry → World → World) : Option Entry → Build Unit
  | none => Prog.ret ()
  | some (.file _) => Prog.act (put none)
  | some (.dir tree) => do
      Prog.each (env.removing tree) fun rest => Prog.act (put (some (.dir rest)))
      Prog.act (put none)

/-- `remove_output(path)`. -/
def removePlace (env : Env) (output : String) : Build Unit := do
  let entry ← Prog.look fun w => w.place output
  removeEntry env (fun e w => w.setPlace output e) entry

/-- `remove_output(backup)`. -/
def removePrevious (env : Env) (output : String) : Build Unit := do
  let entry ← Prog.look fun w => w.previous output
  removeEntry env (fun e w => w.setPrevious output e) entry

/-- `save_cache`. The file is replaced by a rename. -/
def saveCache (cache : Cache) : Build Unit := Prog.act fun w => w.setSaved cache

/-- `load_cache`. -/
def loadCache : Build Cache := Prog.look fun w => w.saved

/-- The package directory: `src/mountin` of the exported source tree. -/
def packageTree (w : World) : Tree :=
  match w.place "sources/mountin" with
  | some (.dir tree) => tree.under ["src", "mountin"]
  | _ => []

/-- The context directory of a provider. -/
def contextTree (w : World) (path : String) : Tree := (packageTree w).under (RelPath.ofText path)

end Mountin
