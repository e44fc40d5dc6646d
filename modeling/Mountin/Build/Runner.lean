import Mountin.Build.World
import Mountin.Build.Graph

set_option autoImplicit false

/-! # The build runner

`run_build` goes through the variants of the graph in build order: it computes the input hash,
builds the image, and runs a container for the outputs that are dirty, within a transaction
that keeps the previous outputs until the new ones are there.
-/

namespace Mountin

/-! ## Transactions -/

/-- Restores an output that an interrupted transaction had backed up. -/
def restoreOutput (env : Env) (output : String) : Build Unit := do
  let backup ← Prog.look fun w => w.previous output
  if backup.isSome then
    removePlace env output
    Prog.act fun w => w.fromBackup output
  else pure ()

/-- Moves an output to its backup; whether there was something to move. -/
def backUpOutput (output : String) : Build Bool := do
  let path ← Prog.look fun w => w.place output
  if path.isSome then
    Prog.act fun w => w.toBackup output
    pure true
  else pure false

/-- `begin_output_transaction`; returns the outputs that have a backup. -/
def beginOutputTransaction (env : Env) : List String → Build (List String)
  | [] => pure []
  | output :: rest => do
      restoreOutput env output
      let moved ← backUpOutput output
      let backups ← beginOutputTransaction env rest
      pure (if moved then output :: backups else backups)

/-- `finish_output_transaction` of one output. -/
def finishOutput (env : Env) (backups : List String) (success : Bool) (output : String) :
    Build Unit := do
  let backup ← Prog.look fun w => backups.contains output && (w.previous output).isSome
  if success then
    if backup then removePrevious env output else pure ()
  else
    removePlace env output
    if backup then Prog.act fun w => w.fromBackup output else pure ()

/-- `finish_output_transaction`. -/
def finishOutputTransaction (env : Env) (outputs backups : List String) (success : Bool) :
    Build Unit :=
  Prog.each outputs (finishOutput env backups success)

/-! ## What the metadata of a variant says -/

/-- The names with a `docker:` prefix, without it. -/
def getDockerProvides (provides : List String) : List String :=
  (provides.filter fun p => "docker:".toList.isPrefixOf p.toList).map
    fun p => String.ofList (p.toList.drop 7)

/-- The names without a `docker:` prefix. -/
def getFileProvides (provides : List String) : List String :=
  provides.filter fun p => !"docker:".toList.isPrefixOf p.toList

/-- `get_image_tag`. -/
def getImageTag (resolved : Metadata) : Except Raised (Option String) :=
  let runs_on := resolved.getD "runs_on" .null
  if !runs_on.truthy then .ok none
  else
    match runs_on with
    | .str s =>
        if "docker:".toList.isPrefixOf s.toList then .ok (some (String.ofList (s.toList.drop 7)))
        else .error (.valueError s!"runs_on must start with 'docker:', got: {s}")
    | _ => .error .attributeError

/-- A character of an image name that stays. -/
def imageChar (c : Char) : Bool :=
  ('a' ≤ c && c ≤ 'z') || ('0' ≤ c && c ≤ '9') || c == '.' || c == '_' || c == '/' || c == '-'

/-- Every run of other characters becomes one dash. -/
def dashed : List Char → List Char
  | [] => []
  | c :: rest =>
    if imageChar c then c :: dashed rest
    else
      match rest with
      | [] => ['-']
      | d :: _ => if imageChar d then '-' :: dashed rest else dashed rest

/-- `local_image_tag`. -/
def localImageTag (lib : Library) (path : String) (output_platform : Option String) : String :=
  let original := path.toLower
  let repository := String.ofList (dashed original.toList)
  let repository :=
    if repository ≠ original then
      repository ++ "-" ++
        String.ofList (((hexText (lib.sha256 (encode original))).take 8).map fun b => Char.ofNat b.toNat)
    else repository
  let tag := "localhost/" ++ repository
  match output_platform with
  | some platform => if platform.isEmpty then tag else tag ++ ":" ++ platform
  | none => tag

/-- `validate_path_provides`. -/
def validatePathProvides (path : String) (docker_tags file_outputs : List String)
    (has_dockerfile : Bool) (runs_on_tag : Option String) : Option String :=
  if !docker_tags.isEmpty && !has_dockerfile then
    some s!"{path} provides docker image but has no Dockerfile"
  else if !file_outputs.isEmpty && !has_dockerfile && (runs_on_tag.getD "").isEmpty then
    some s!"{path} provides files but has no Dockerfile or runs_on"
  else none

/-- `get_output_requires`. -/
def getOutputRequires (m : Metadata) (output : String) : Except Raised (List String) := do
  let specific ← (m.getD "provides" (.dict [])).entry output
  match specific with
  | .dict entries => (Dict.getD entries "requires" (.list [])).names
  | _ => .error .attributeError

/-! ## The images -/

/-- `get_image_id`; an empty id counts as none. -/
def getImageId (tag : String) : Build (Option String) :=
  Prog.look fun w => (w.images tag).bind fun image => if image.id.isEmpty then none else some image.id

/-- `get_image_input_hash`. -/
def getImageInputHash (tag : String) : Build (Option Bytes) :=
  Prog.look fun w => (w.images tag).bind fun image => image.label

/-- `build_image`: the id of the image that `podman build` left, if it succeeded. -/
def buildImage (env : Env) (stage tag : String) : Build (Option String) := do
  let built ← env.podmanBuild stage tag
  if built then getImageId tag else pure none

/-- The image of a variant with a Dockerfile; nothing when it cannot be built. -/
def imageStep (env : Env) (platform stage tag : String) (force : Bool) (input_hash : Bytes)
    (cache : Cache) : Build (Option Cache) := do
  let image_id ← getImageId tag
  let label ← getImageInputHash tag
  let current := imageIsCurrent cache platform tag image_id input_hash
  match image_id with
  | some id =>
      if !current && label == some input_hash then
        -- an image of the time when the label held its identity
        let cache := updateImageHash cache platform tag id input_hash
        saveCache cache
        if !force then pure (some cache)
        else rebuild cache
      else if !force && current then pure (some cache)
      else rebuild cache
  | none => rebuild cache
where
  /-- Builds the image anew and records its input hash. -/
  rebuild (cache : Cache) : Build (Option Cache) := do
    let built ← buildImage env stage tag
    match built with
    | none => pure none
    | some id =>
        let cache := updateImageHash cache platform tag id input_hash
        saveCache cache
        pure (some cache)

/-! ## The outputs -/

/-- What `run_build` keeps in memory. -/
structure Memory where
  cache : Cache
  dep_hashes : Dict String Bytes

/-- The outputs among `outputs` that are dirty, with the cache that the checks leave. -/
def dirtyOutputs (lib : Library) (m : Metadata) (input_hash : Bytes) :
    List String → Cache → Build (List String × Cache)
  | [], cache => pure ([], cache)
  | output :: rest, cache => do
      let requires ← Prog.lift (getOutputRequires m output)
      let place ← Prog.look fun w => w.place
      let (dirty, cache') := isOutputDirty lib place output input_hash requires cache
      if dirty then
        let (others, cache') ← dirtyOutputs lib m input_hash rest cache'
        pure (output :: others, cache')
      else
        noteClean lib place output input_hash requires cache
        dirtyOutputs lib m input_hash rest cache'
where
  /-- Notes what was taken for clean. -/
  noteClean (lib : Library) (place : Places) (output : String) (input_hash : Bytes)
      (requires : List String) (cache : Cache) : Build Unit :=
    match place output with
    | some entry => noteLog fun log => { log with clean :=
        ⟨output, (hashOutputInputs lib input_hash requires place cache).1, entry⟩ :: log.clean }
    | none => pure ()

/-- Records the outputs of a completed container run. -/
def recordOutputs (lib : Library) (m : Metadata) (input_hash : Bytes) :
    List String → Cache → Build Cache
  | [], cache => pure cache
  | output :: rest, cache => do
      let requires ← Prog.lift (getOutputRequires m output)
      let place ← Prog.look fun w => w.place
      let cache' ← Prog.lift (updateOutputHash lib place output input_hash requires cache)
      noteCompleted lib place output input_hash requires cache
      recordOutputs lib m input_hash rest cache'
where
  /-- Notes what a completed run left. -/
  noteCompleted (lib : Library) (place : Places) (output : String) (input_hash : Bytes)
      (requires : List String) (cache : Cache) : Build Unit :=
    match place output with
    | some entry => noteLog fun log => { log with completed :=
        ⟨output, (hashOutputInputs lib input_hash requires place cache).1, entry⟩ :: log.completed }
    | none => pure ()

/-- The hashes of the outputs of a variant that are there, for the variants that depend on
them. -/
def outputHashes (place : Places) (cache : Cache) (outputs : List String)
    (dep_hashes : Dict String Bytes) : Dict String Bytes :=
  outputs.foldl (fun hashes output =>
    match cache.outputs.get? output with
    | some cached => if (place output).isSome then hashes.set output cached.hash else hashes
    | none => hashes) dep_hashes

/-- Runs the container of a variant for its dirty outputs; nothing when it fails. -/
def containerStep (lib : Library) (env : Env) (stage : String) (m : Metadata) (input_hash : Bytes)
    (file_outputs dirty : List String) (memory : Memory) : Build (Option Memory) := do
  noteLog fun log => { log with working := dirty }
  let backups ← beginOutputTransaction env dirty
  let success ← env.runContainer stage dirty
  let place ← Prog.look fun w => w.place
  -- a container that failed, or an output that was not created
  if !success || dirty.any fun o => (place o).isNone then
    finishOutputTransaction env dirty backups false
    noteLog fun log => { log with working := [] }
    pure none
  else
    finishOutputTransaction env dirty backups true
    let cache ← recordOutputs lib m input_hash dirty memory.cache
    let place ← Prog.look fun w => w.place
    Prog.act fun w => (w.setSaved cache).setLog { w.log with working := [] }
    pure (some ⟨cache, outputHashes place cache file_outputs memory.dep_hashes⟩)

/-- The outputs to build: all that are needed, or those that are dirty. -/
def outputsToBuild (lib : Library) (m : Metadata) (input_hash : Bytes) (needed : List String)
    (force : Bool) (cache : Cache) : Build (List String × Cache) :=
  if force then pure (needed, cache) else dirtyOutputs lib m input_hash needed cache

/-- The file outputs of a variant. -/
def outputStep (lib : Library) (env : Env) (stage : String) (m : Metadata) (input_hash : Bytes)
    (file_outputs needed : List String) (force : Bool) (memory : Memory) :
    Build (Option Memory) := do
  let (dirty, cache) ← outputsToBuild lib m input_hash needed force memory.cache
  if dirty.isEmpty then
    let place ← Prog.look fun w => w.place
    pure (some ⟨cache, outputHashes place cache file_outputs memory.dep_hashes⟩)
  else
    containerStep lib env stage m input_hash file_outputs dirty ⟨cache, memory.dep_hashes⟩

/-! ## The build -/

/-- The input hash of a variant, noted in the log. -/
def inputHash (lib : Library) (record : Record) (memory : Memory) : Build (Bytes × Cache) := do
  let world ← Prog.look fun w => w
  let files := (contextTree world record.inst.provider).files lib
  let (input_hash, cache) ← Prog.lift (hashPathInputs lib record.inst.provider files
    record.inst.metadata memory.dep_hashes world.place record.inst.context memory.cache)
  noteLog fun log => { log with hashings := ⟨record.inst.provider, files, input_hash⟩ :: log.hashings }
  pure (input_hash, cache)

/-- `context["MOUNTIN_BUILD_PLATFORM"]`. -/
def buildPlatform (context : Dict String String) : Except Raised String :=
  match context.get? "MOUNTIN_BUILD_PLATFORM" with
  | some platform => .ok platform
  | none => .error (.keyError "MOUNTIN_BUILD_PLATFORM")

/-- The image of a variant, when it has a Dockerfile. -/
def instanceImage (lib : Library) (env : Env) (platform instance_id : String) (record : Record)
    (docker_tags : List String) (dockerfile force : Bool) (input_hash : Bytes) (cache : Cache) :
    Build (Option Cache) :=
  if dockerfile then
    let tag := docker_tags.head?.getD
      (localImageTag lib record.inst.provider record.inst.output_platform)
    imageStep env platform instance_id tag force input_hash cache
  else pure (some cache)

/-- One turn of the loop of `run_build`, for a variant that provides something. -/
def runRecord (lib : Library) (env : Env) (context : Dict String String) (force : Bool)
    (instance_id : String) (record : Record) (provides needed : List String) (memory : Memory) :
    Build (Option Memory) := do
  let m := record.inst.metadata
  let docker_tags := getDockerProvides provides
  let file_outputs := getFileProvides provides
  let dockerfile ← Prog.look fun w =>
    (contextTree w record.inst.provider).any fun e => e.1 == ["Dockerfile"]
  let runs_on_tag ← Prog.lift (getImageTag m)
  let _ ← Prog.lift (keysOf m "build_requires")
  let (input_hash, cache) ← inputHash lib record memory
  let platform ← Prog.lift (buildPlatform context)
  let dep_hashes := docker_tags.foldl (fun hashes tag => hashes.set tag input_hash)
    (memory.dep_hashes.set instance_id input_hash)
  match validatePathProvides record.inst.provider docker_tags file_outputs dockerfile runs_on_tag with
  | some _ => pure none
  | none => do
    let image ← instanceImage lib env platform instance_id record docker_tags dockerfile force
      input_hash cache
    match image with
    | none => pure none
    | some cache =>
        if file_outputs.isEmpty then pure (some ⟨cache, dep_hashes⟩)
        else
          outputStep lib env instance_id m input_hash file_outputs (getFileProvides needed) force
            ⟨cache, dep_hashes⟩

/-- One turn of the loop of `run_build`: the variant `instance_id`. -/
def runInstance (lib : Library) (env : Env) (sets : SetOrder) (graph : BuildGraph)
    (context : Dict String String) (force : Bool) (instance_id : String) (memory : Memory) :
    Build (Option Memory) :=
  match graph.nodes.get? instance_id with
  | none => Prog.raise (.keyError instance_id)
  | some record => do
    let provides ← Prog.lift (keysOf record.inst.metadata "provides")
    if provides.isEmpty then pure (some memory)
    else
      runRecord lib env context force instance_id record provides
        (sets.list (graph.needed.getD instance_id [])) memory

/-- The loop of `run_build`. -/
def runInstances (lib : Library) (env : Env) (sets : SetOrder) (graph : BuildGraph)
    (context : Dict String String) (force : Bool) : List String → Memory → Build Bool
  | [], _ => pure true
  | instance_id :: rest, memory => do
      let step ← runInstance lib env sets graph context force instance_id memory
      match step with
      | none => pure false
      | some memory => runInstances lib env sets graph context force rest memory

/-- `run_build`. -/
def runBuild (lib : Library) (env : Env) (sets : SetOrder) (targets : List String)
    (providers : List (List Instance)) (context : Dict String String) (force : Bool) :
    Build Bool := do
  let build_dir ← Prog.look fun w => fun output => (w.place output).isSome
  let graph ← Prog.lift (buildGraph sets targets providers context build_dir)
  let cache ← loadCache
  runInstances lib env sets graph context force graph.order ⟨cache, []⟩

end Mountin
