import Mountin.Build.World

set_option autoImplicit false

/-! # The exported source tree

`export_source_tree` copies the source files into a temporary tree, computes their identity on
the way, and puts the tree in place of the previous one unless the identity is that of the
previous export.
-/

namespace Mountin

/-- `SOURCE_EPOCH`. -/
def SOURCE_EPOCH : Nat := 315532800

/-- The place of the exported tree. -/
def sourceOutput : String := "sources/mountin"

/-- `n.to_bytes(width, "little")`. -/
def littleEndian (width n : Nat) : Bytes :=
  (List.range width).map fun i => UInt8.ofNat (n / 256 ^ i % 256)

/-- `_digest_field`. -/
def digestField (value : Bytes) : Bytes := littleEndian 8 value.length ++ value

/-- What `_copy_entry` feeds to the digest: path, mode, kind, and link target or content. -/
def entryDigest (lib : Library) (relative : RelPath) : Node → Bytes
  | .link mode target =>
      digestField (encode relative.text) ++ littleEndian 4 mode ++ encode "L" ++ digestField target
  | .file f =>
      digestField (encode relative.text) ++ littleEndian 4 f.mode ++ encode "F" ++ lib.sha256 f.data

/-- The identity of a list of source entries, or of the tree that holds them. -/
def treeIdentity (lib : Library) (entries : Tree) : Bytes :=
  hexText (lib.sha256 (entries.flatMap fun e => entryDigest lib e.1 e.2))

/-- What `_copy_entry` writes: the files get a constant time. -/
def copiedEntry (entry : RelPath × Node) : RelPath × Node :=
  match entry with
  | (relative, .file f) => (relative, .file { f with mtime := SOURCE_EPOCH })
  | (relative, .link mode target) => (relative, .link mode target)

/-- `cache.get(source_output, {}).get("input_hash")`. -/
def Cache.sourceIdentity (cache : Cache) : Option Bytes :=
  (cache.outputs.get? sourceOutput).map OutputEntry.input_hash

def setExporting (tree : Option Tree) : Build Unit :=
  Prog.act fun w => { w with exporting := tree }

/-- `_copy_entry`. -/
def copyEntry (entry : RelPath × Node) : Build Unit :=
  Prog.act fun w => { w with exporting := some (w.exporting.getD [] ++ [copiedEntry entry]) }

/-- `temporary.rename(destination)`. The log notes that the cache file does not know of it. -/
def publish (identity : Bytes) : Build Unit :=
  Prog.act fun w =>
    { (w.setPlace sourceOutput (some (.dir (w.exporting.getD [])))) with
      exporting := none
      log := { w.log with unsaved := decide (w.saved.sourceIdentity ≠ some identity) } }

/-- Brings the previous tree back when there is none at the destination. -/
def restorePrevious : Build Unit := do
  let w ← Prog.look fun w => w
  if (w.previous sourceOutput).isSome && (w.place sourceOutput).isNone then
    Prog.act fun w => w.fromBackup sourceOutput
  else pure ()

/-- Whether a directory is at the destination. -/
def hasTree (w : World) : Bool :=
  match w.place sourceOutput with
  | some (.dir _) => true
  | _ => false

/-- Moves what is at the destination to the backup. -/
def moveAside : Build Unit := do
  let w ← Prog.look fun w => w
  if (w.place sourceOutput).isSome then Prog.act fun w => w.toBackup sourceOutput else pure ()

/-- Puts the copied tree at the destination. -/
def replaceTree (env : Env) (identity : Bytes) : Build (Bytes × Bool) := do
  moveAside
  (publish identity).rescue restorePrevious
  removePrevious env sourceOutput
  pure (identity, true)

/-- The part of `export_source_tree` that a `finally` guards. -/
def exportEntries (lib : Library) (env : Env) (source : Except Raised Tree)
    (previous_identity : Option Bytes) : Build (Bytes × Bool) := do
  let entries ← Prog.lift source
  Prog.each entries copyEntry
  let identity := treeIdentity lib entries
  let w ← Prog.look fun w => w
  if previous_identity = some identity ∧ hasTree w = true then
    setExporting none
    pure (identity, false)
  else
    replaceTree env identity

/-- What an export does with a backup that an earlier one left. -/
def recoverPrevious (env : Env) : Build Unit := do
  let w ← Prog.look fun w => w
  if (w.previous sourceOutput).isSome then
    if (w.place sourceOutput).isNone then Prog.act fun w => w.fromBackup sourceOutput
    else removePrevious env sourceOutput
  else pure ()

/-- `export_source_tree`; the log notes what it returns and what is at the destination. -/
def exportSourceTree (lib : Library) (env : Env) (source : Except Raised Tree)
    (previous_identity : Option Bytes) : Build (Bytes × Bool) := do
  setExporting none
  recoverPrevious env
  setExporting (some [])
  let (identity, changed) ←
    (exportEntries lib env source previous_identity).finally' (setExporting none)
  Prog.act fun w => w.setLog
    { w.log with exports := (identity, w.place sourceOutput) :: w.log.exports }
  pure (identity, changed)

end Mountin
