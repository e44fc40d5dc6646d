import Mathlib.Data.List.Lex
import Mathlib.Data.String.Basic
import Mountin.Basic.Bytes
import Mountin.Build.Metadata

set_option autoImplicit false

/-! # The build cache

`cache.py`: hashes of files, directories and inputs, and the records of outputs. A hash of a
file is kept with the file's mtime and size and is used again as long as these are the same.

Names under the build directory are places; no place lies inside another. A path inside a
directory is the list of its parts.
-/

namespace Mountin

/-- A path relative to some directory, by its parts. -/
abbrev RelPath := List String

/-- How a path prints. -/
def RelPath.text (p : RelPath) : String := String.intercalate "/" p

/-- A printed path, by its parts. -/
def RelPath.ofText (s : String) : RelPath := if s.isEmpty then [] else s.splitOn "/"

/-- `text.encode()`. -/
def encode (s : String) : Bytes := s.toUTF8.data.toList

/-- A regular file. -/
structure File where
  data : Bytes
  mode : Nat
  mtime : Nat
deriving DecidableEq

/-- `stat.st_size`. -/
def File.size (f : File) : Nat := f.data.length

/-- What a directory holds at a path: a file, or a symbolic link with the mode that `lstat`
shows. -/
inductive Node where
  | file (f : File)
  | link (mode : Nat) (target : Bytes)
deriving DecidableEq

/-- The files and links below a directory. -/
abbrev Tree := List (RelPath × Node)

/-- A file or directory at a place of the build directory. -/
inductive Entry where
  | file (f : File)
  | dir (tree : Tree)
deriving DecidableEq

/-- What the build directory holds at its places. -/
abbrev Places := String → Option Entry

/-- The standard library as the cache uses it: `hashlib` (the hexadecimal digest of `md5`, the
digest of `sha256`), `json.dumps` with sorted keys, and what a link of a directory leads to, when
that is a file. -/
structure Library where
  md5 : Bytes → Bytes
  sha256 : Bytes → Bytes
  stableJson : Yaml → Bytes
  follow : Tree → RelPath → Bytes → Option File

/-- `bytes.hex()`. -/
def hexText (b : Bytes) : Bytes :=
  b.flatMap fun x => [hexDigit (x.toNat / 16), hexDigit (x.toNat % 16)]
where
  /-- A hexadecimal digit. -/
  hexDigit (n : Nat) : UInt8 := UInt8.ofNat (if n < 10 then 48 + n else 87 + n)

/-- The subtree at a path. -/
def Tree.under (tree : Tree) (root : RelPath) : Tree :=
  tree.filterMap fun e => if root.isPrefixOf e.1 then some (e.1.drop root.length, e.2) else none

/-- `sorted(directory.rglob("*"))`, as far as `is_file` accepts the path. -/
def Tree.files (lib : Library) (tree : Tree) : List (RelPath × File) :=
  (tree.mergeSort fun a b => decide (a.1 ≤ b.1)).filterMap fun e =>
    match e.2 with
    | .file f => some (e.1, f)
    | .link _ target => (lib.follow tree e.1 target).map fun f => (e.1, f)

/-- The key of a file in the cache: `file:context:…` or `file:build:…`. -/
inductive FileKey where
  | context (path : String)
  | build (path : String)
deriving DecidableEq

/-- A cached hash of a file. -/
structure FileEntry where
  mtime : Nat
  size : Nat
  hash : Bytes
deriving DecidableEq

/-- The kind of an output. -/
inductive Kind where
  | file
  | directory
deriving DecidableEq

/-- The record of an output. A record without kind is one of a file. -/
structure OutputEntry where
  input_hash : Bytes
  hash : Bytes
  kind : Kind
  mtime : Nat
  size : Nat
deriving DecidableEq

/-- The cache: hashes of files, records of outputs, and the input hashes of images by
platform, tag and image id. -/
structure Cache where
  files : Dict FileKey FileEntry
  outputs : Dict String OutputEntry
  images : Dict (String × String × String) Bytes

/-- The cache of a build directory without cache file. -/
def Cache.empty : Cache := ⟨[], [], []⟩

/-- `hash_file`: the hash, and the cache that has it. -/
def hashFile (lib : Library) (f : File) (key : FileKey) (cache : Cache) : Bytes × Cache :=
  let fresh := (lib.md5 f.data,
    { cache with files := cache.files.set key ⟨f.mtime, f.size, lib.md5 f.data⟩ })
  match cache.files.get? key with
  | some cached => if cached.mtime = f.mtime ∧ cached.size = f.size then (cached.hash, cache) else fresh
  | none => fresh

/-- The loop of `hash_files` over the files, with the text fed to the digest so far. -/
def hashEach (lib : Library) (key : RelPath → FileKey) :
    List (RelPath × File) → Bytes → Cache → Bytes × Cache
  | [], text, cache => (text, cache)
  | (rel, f) :: rest, text, cache =>
    let (hash, cache) := hashFile lib f (key rel) cache
    hashEach lib key rest (text ++ encode rel.text ++ hash) cache

/-- `hash_files`, of the files that the directory lists. -/
def hashFiles (lib : Library) (key : RelPath → FileKey) (files : List (RelPath × File)) (cache : Cache) :
    Bytes × Cache :=
  let (text, cache) := hashEach lib key files [] cache
  (lib.md5 text, cache)

/-- The keys `f"{cache_prefix}/{rel}"` for the prefixes `context:…` and `build:…`. -/
def contextKey (path : String) (rel : RelPath) : FileKey := .context (path ++ "/" ++ rel.text)

def buildKey (req : String) (rel : RelPath) : FileKey := .build (req ++ "/" ++ rel.text)

/-- The hash of a required place: the recorded hash of a directory output, or the hash of what
is there. -/
def hashPlace (lib : Library) (req : String) (entry : Entry) (recorded : Bool) (cache : Cache) :
    Bytes × Cache :=
  match entry with
  | .file f => hashFile lib f (.build req) cache
  | .dir tree =>
    match cache.outputs.get? req with
    | some cached =>
        if recorded ∧ cached.kind = .directory then (cached.hash, cache)
        else hashFiles lib (buildKey req) (tree.files lib) cache
    | none => hashFiles lib (buildKey req) (tree.files lib) cache

/-- A loop over sorted requirements: the name, and the hash that stands for it. -/
def hashRequires (lib : Library) (places : Places) (known : String → Option Bytes)
    (recorded : Bool) : List String → Bytes → Cache → Bytes × Cache
  | [], text, cache => (text, cache)
  | req :: rest, text, cache =>
    match known req, places req with
    | some hash, _ => hashRequires lib places known recorded rest (text ++ encode req ++ hash) cache
    | none, some entry =>
        let (hash, cache) := hashPlace lib req entry recorded cache
        hashRequires lib places known recorded rest (text ++ encode req ++ hash) cache
    | none, none => hashRequires lib places known recorded rest (text ++ encode req) cache

/-- `strip_ref_prefix`. -/
def stripRefPrefix (ref : String) : String :=
  if "docker:".toList.isPrefixOf ref.toList then String.ofList (ref.toList.drop 7)
  else if "file:".toList.isPrefixOf ref.toList then String.ofList (ref.toList.drop 5)
  else ref

/-- `artifact_metadata`. -/
def artifactMetadata (m : Metadata) : Metadata := m.filter fun e => e.1 != "execution_env"

/-- `artifact_context`. -/
def artifactContext (context : Dict String String) : Metadata :=
  (context.filter fun e => "MOUNTIN_TARGET_".toList.isPrefixOf e.1.toList).map
    fun e => (e.1, .str e.2)

/-- `sorted(names)`. -/
def sortedNames (names : List String) : List String := names.mergeSort fun a b => decide (a ≤ b)

/-- `resolved.get(name, {}).keys()`. -/
def keysOf (resolved : Metadata) (name : String) : Except Raised (List String) :=
  match resolved.getD name (.dict []) with
  | .dict entries => .ok (Dict.keys entries)
  | _ => .error .attributeError

/-- `hash_path_inputs`: the hash of the files of the provider's context directory, of its
metadata and target, and of its requirements. -/
def hashPathInputs (lib : Library) (path : String) (files : List (RelPath × File))
    (resolved : Metadata) (dep_hashes : Dict String Bytes) (places : Places)
    (context : Dict String String) (cache : Cache) : Except Raised (Bytes × Cache) := do
  let (hash, cache) := hashFiles lib (contextKey path) files cache
  let text := hash ++ lib.stableJson (.dict (artifactMetadata resolved)) ++
    lib.stableJson (.dict (artifactContext context))
  let requires ← keysOf resolved "requires"
  let (text, cache) := hashRequires lib places (fun req => dep_hashes.get? (stripRefPrefix req)) true
    (sortedNames requires) text cache
  let build_requires ← keysOf resolved "build_requires"
  let (text, cache) := hashRequires lib places (fun _ => none) false (sortedNames build_requires)
    text cache
  return (lib.md5 text, cache)

/-- `hash_output_inputs`. -/
def hashOutputInputs (lib : Library) (base_hash : Bytes) (output_requires : List String)
    (places : Places) (cache : Cache) : Bytes × Cache :=
  if output_requires.isEmpty then (base_hash, cache)
  else
    let (text, cache) := hashRequires lib places (fun _ => none) true (sortedNames output_requires)
      base_hash cache
    (lib.md5 text, cache)

/-- `is_output_dirty`. -/
def isOutputDirty (lib : Library) (places : Places) (output : String) (input_hash : Bytes)
    (output_requires : List String) (cache : Cache) : Bool × Cache :=
  match places output, cache.outputs.get? output with
  | none, _ => (true, cache)
  | some _, none => (true, cache)
  | some entry, some cached =>
    let (full_hash, cache) := hashOutputInputs lib input_hash output_requires places cache
    if cached.input_hash ≠ full_hash then (true, cache)
    else
      match entry with
      | .dir _ => (decide (cached.kind ≠ .directory), cache)
      | .file f =>
          if cached.kind ≠ .file then (true, cache)
          else if cached.mtime = f.mtime ∧ cached.size = f.size then (false, cache)
          else
            let (hash, cache) := hashFile lib f (.build output) cache
            (decide (hash ≠ cached.hash), cache)

/-- `update_output_hash`. The mtime and size of a directory are not looked at again. -/
def updateOutputHash (lib : Library) (places : Places) (output : String) (input_hash : Bytes)
    (output_requires : List String) (cache : Cache) : Except Raised Cache :=
  let (full_hash, cache) := hashOutputInputs lib input_hash output_requires places cache
  match places output with
  | none => .error .osError
  | some (.dir _) =>
      .ok { cache with outputs := cache.outputs.set output ⟨full_hash, full_hash, .directory, 0, 0⟩ }
  | some (.file f) =>
      let (hash, cache) := hashFile lib f (.build output) cache
      .ok { cache with outputs := cache.outputs.set output ⟨full_hash, hash, .file, f.mtime, f.size⟩ }

/-- `image_is_current`. -/
def imageIsCurrent (cache : Cache) (build_platform tag : String) (image_id : Option String)
    (input_hash : Bytes) : Bool :=
  match image_id with
  | none => false
  | some id => cache.images.get? (build_platform, tag, id) == some input_hash

/-- `update_image_hash`. -/
def updateImageHash (cache : Cache) (build_platform tag image_id : String) (input_hash : Bytes) :
    Cache :=
  { cache with images := cache.images.set (build_platform, tag, image_id) input_hash }

end Mountin
