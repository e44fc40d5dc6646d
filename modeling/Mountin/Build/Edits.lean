import Mathlib.Data.Set.Function
import Mountin.Build.Targets

set_option autoImplicit false

/-! # Edits of a context directory

The input hash of a variant begins with the files of its context directory. Each file stands
there with the hash that the cache keeps for its path, time and size; the export gives all files
one time.

* `listing` : the files with the hashes of what they hold.
* `Unmasked` : no hash that is kept is one of another content.
* `edits_detected` : input hashes of two runs over different files.
-/

namespace Mountin

/-- The files of a directory with the hashes of their contents, as one text. -/
def listing (lib : Library) (files : List (RelPath × File)) : Bytes :=
  files.flatMap fun e => encode e.1.text ++ lib.md5 e.2.data

/-- What the files of a directory hold. -/
def contents (files : List (RelPath × File)) : List (RelPath × Bytes) :=
  files.map fun e => (e.1, e.2.data)

/-- The keys of the files are apart, and the cache keeps no hash of another content for one. -/
structure Unmasked (lib : Library) (key : RelPath → FileKey) (files : List (RelPath × File))
    (cache : Cache) : Prop where
  apart : (files.map fun e => key e.1).Nodup
  kept : ∀ e ∈ files, ∀ cached, cache.files.get? (key e.1) = some cached →
    cached.mtime = e.2.mtime → cached.size = e.2.size → cached.hash = lib.md5 e.2.data

/-! ## The text that is hashed -/

section

variable {lib : Library}

/-- Hashing a file changes the cache at the key of the file. -/
theorem hashFile_get?_of_ne {f : File} {key key' : FileKey} {cache : Cache} (h : key ≠ key') :
    (hashFile lib f key cache).2.files.get? key' = cache.files.get? key' := by
  have hset : ∀ cached, (cache.files.set key cached).get? key' = cache.files.get? key' :=
    fun cached => Dict.get?_set_of_ne _ _ h
  unfold hashFile
  split <;> [split <;> [rfl; exact hset _]; exact hset _]

/-- The hash of a file whose kept hash is not one of another content. -/
theorem hashFile_eq_md5 {f : File} {key : FileKey} {cache : Cache}
    (h : ∀ cached, cache.files.get? key = some cached → cached.mtime = f.mtime →
      cached.size = f.size → cached.hash = lib.md5 f.data) :
    (hashFile lib f key cache).1 = lib.md5 f.data := by
  unfold hashFile
  cases hget : cache.files.get? key with
  | none => rfl
  | some cached =>
      dsimp only
      split
      · rename_i hsame
        exact h cached hget hsame.1 hsame.2
      · rfl

theorem hashEach_unmasked {key : RelPath → FileKey} {files : List (RelPath × File)} {cache : Cache}
    (h : Unmasked lib key files cache) (text : Bytes) :
    (hashEach lib key files text cache).1 = text ++ listing lib files := by
  induction files generalizing text cache with
  | nil => simp [hashEach, listing]
  | cons e rest ih =>
      obtain ⟨hapart, hkept⟩ := h
      rw [List.map_cons, List.nodup_cons] at hapart
      rw [List.forall_mem_cons] at hkept
      have hrest : Unmasked lib key rest (hashFile lib e.2 (key e.1) cache).2 := by
        refine ⟨hapart.2, fun e' he' cached hcached => hkept.2 e' he' cached ?_⟩
        rwa [hashFile_get?_of_ne] at hcached
        intro heq
        exact hapart.1 (List.mem_map.mpr ⟨e', he', heq.symm⟩)
      calc (hashEach lib key (e :: rest) text cache).1
          = (hashEach lib key rest (text ++ encode e.1.text ++ (hashFile lib e.2 (key e.1) cache).1)
              (hashFile lib e.2 (key e.1) cache).2).1 := rfl
        _ = text ++ encode e.1.text ++ lib.md5 e.2.data ++ listing lib rest := by
            rw [ih hrest, hashFile_eq_md5 hkept.1]
        _ = text ++ listing lib (e :: rest) := by simp [listing]

/-- The hash of a directory is that of its listing. -/
theorem hashFiles_unmasked {key : RelPath → FileKey} {files : List (RelPath × File)} {cache : Cache}
    (h : Unmasked lib key files cache) :
    (hashFiles lib key files cache).1 = lib.md5 (listing lib files) := by
  simp only [hashFiles, hashEach_unmasked h, List.nil_append]

/-- Requirements are added at the end of a text. -/
theorem prefix_hashRequires (places : Places) (known : String → Option Bytes) (recorded : Bool)
    (requires : List String) (text : Bytes) (cache : Cache) :
    text <+: (hashRequires lib places known recorded requires text cache).1 := by
  induction requires generalizing text cache with
  | nil => exact List.prefix_rfl
  | cons req rest ih =>
      rw [hashRequires]
      cases known req with
      | some hash =>
          exact ((List.prefix_append _ _).trans (List.prefix_append _ _)).trans (ih _ _)
      | none =>
          cases places req with
          | none => exact (List.prefix_append _ _).trans (ih _ _)
          | some entry =>
              exact ((List.prefix_append _ _).trans (List.prefix_append _ _)).trans (ih _ _)

/-- The text of which `hash_path_inputs` returns the hash. -/
def pathText (lib : Library) (path : String) (files : List (RelPath × File)) (resolved : Metadata)
    (dep_hashes : Dict String Bytes) (places : Places) (context : Dict String String)
    (cache : Cache) : Except Raised Bytes := do
  let (hash, cache) := hashFiles lib (contextKey path) files cache
  let text := hash ++ lib.stableJson (.dict (artifactMetadata resolved)) ++
    lib.stableJson (.dict (artifactContext context))
  let requires ← keysOf resolved "requires"
  let (text, cache) := hashRequires lib places (fun req => dep_hashes.get? (stripRefPrefix req)) true
    (sortedNames requires) text cache
  let build_requires ← keysOf resolved "build_requires"
  return (hashRequires lib places (fun _ => none) false (sortedNames build_requires) text cache).1

theorem hashPathInputs_text {path : String} {files : List (RelPath × File)} {resolved : Metadata}
    {dep_hashes : Dict String Bytes} {places : Places} {context : Dict String String}
    {cache cache' : Cache} {hash : Bytes}
    (h : hashPathInputs lib path files resolved dep_hashes places context cache = .ok (hash, cache')) :
    ∃ text, pathText lib path files resolved dep_hashes places context cache = .ok text ∧
      hash = lib.md5 text ∧ (hashFiles lib (contextKey path) files cache).1 <+: text := by
  obtain ⟨requires, hrequires, h⟩ := Except.bind_eq_ok.mp h
  obtain ⟨build_requires, hbuild, h⟩ := Except.bind_eq_ok.mp h
  obtain ⟨rfl, -⟩ := Prod.mk.inj (Except.ok.inj h)
  refine ⟨_, ?_, rfl, ?_⟩
  · simp only [pathText, hrequires, hbuild, Except.ok_bind]
    rfl
  · refine List.IsPrefix.trans ?_ (prefix_hashRequires _ _ _ _ _ _)
    refine List.IsPrefix.trans ?_ (prefix_hashRequires _ _ _ _ _ _)
    exact (List.prefix_append _ _).trans (List.prefix_append _ _)

/-! ## Listings of different files -/

variable (hlength : ∀ b, (lib.md5 b).length = 32)
include hlength

/-- Files of the same names with the same listing hold the same, up to collisions. -/
theorem contents_eq_of_listing_eq {files₁ files₂ : List (RelPath × File)}
    (hnames : files₁.map Prod.fst = files₂.map Prod.fst)
    (hmd5 : ∀ e₁ ∈ files₁, ∀ e₂ ∈ files₂, lib.md5 e₁.2.data = lib.md5 e₂.2.data →
      e₁.2.data = e₂.2.data)
    (h : listing lib files₁ = listing lib files₂) : contents files₁ = contents files₂ := by
  induction files₁ generalizing files₂ with
  | nil =>
      obtain rfl : files₂ = [] := List.map_eq_nil_iff.mp hnames.symm
      rfl
  | cons e₁ rest₁ ih =>
      cases files₂ with
      | nil => simp at hnames
      | cons e₂ rest₂ =>
          rw [List.map_cons, List.map_cons, List.cons.injEq] at hnames
          simp only [listing, List.flatMap_cons, hnames.1, List.append_assoc] at h
          obtain ⟨hhash, hrest⟩ := List.append_inj (List.append_cancel_left h)
            ((hlength _).trans (hlength _).symm)
          have hdata : e₁.2.data = e₂.2.data :=
            hmd5 e₁ List.mem_cons_self e₂ List.mem_cons_self hhash
          have htail := ih hnames.2 (fun e he e' he' => hmd5 e (List.mem_cons_of_mem _ he) e'
            (List.mem_cons_of_mem _ he')) hrest
          simp only [contents, List.map_cons] at htail ⊢
          rw [hnames.1, hdata, htail]

/-- Texts that begin with hashes: equal texts begin with equal hashes. -/
theorem md5_eq_of_starts {a b text : Bytes} (ha : lib.md5 a <+: text) (hb : lib.md5 b <+: text) :
    lib.md5 a = lib.md5 b := by
  obtain ⟨x, hx⟩ := ha
  obtain ⟨y, hy⟩ := hb
  exact (List.append_inj (hx.trans hy.symm) ((hlength a).trans (hlength b).symm)).1

end

/-! ## Hashing other files -/

/-- A hash of a file that goes by the key of a file of the directory is one of that file. -/
theorem Unmasked.hashed {lib : Library} {key : RelPath → FileKey} {files : List (RelPath × File)}
    {S : FileKey → File → Prop} {cache cache' : Cache} (h : Unmasked lib key files cache)
    (hS : ∀ key' f, S key' f → ∀ e ∈ files, key' = key e.1 → f = e.2)
    (hhashed : Hashed lib S cache cache') : Unmasked lib key files cache' := by
  refine hhashed.invariant (K := Unmasked lib key files) (fun cache key' f hf hK => ?_) h
  refine ⟨hK.apart, fun e he cached hcached hmtime hsize => ?_⟩
  by_cases heq : key' = key e.1
  · obtain rfl := hS key' f hf e he heq
    subst heq
    unfold hashFile at hcached
    have hset : ∀ hash, (cache.files.set (key e.1) ⟨e.2.mtime, e.2.size, hash⟩).get? (key e.1) =
        some cached → cached.hash = hash := fun hash hget => by
      rw [Dict.get?_set_self] at hget
      rw [← Option.some.inj hget]
    split at hcached
    · split at hcached
      · exact hK.kept e he cached hcached hmtime hsize
      · exact hset _ hcached
    · exact hset _ hcached
  · rw [hashFile_get?_of_ne heq] at hcached
    exact hK.kept e he cached hcached hmtime hsize

/-- Files of the build directory go by other keys than files of a context directory. -/
theorem FileAt.ne_contextKey {lib : Library} {places : Places} {key : FileKey} {f : File}
    (h : FileAt lib places key f) (path : String) (rel : RelPath) : key ≠ contextKey path rel := by
  obtain ⟨req, ⟨_, rfl⟩ | ⟨_, _, _, _, rfl⟩⟩ := h <;> exact FileKey.noConfusion

/-- While a run lasts: the source tree is the one that the run found, and no hash is kept for
another content of the files of a context directory. -/
structure Reading (lib : Library) (found : World) (path : String) (w : World) (cache : Cache) :
    Prop where
  source : w.place sourceOutput = found.place sourceOutput
  unmasked : Unmasked lib (contextKey path) ((contextTree found path).files lib) cache

/-- A key of a context file stands for one file of the tree. -/
def Named (lib : Library) (found : World) (path : String) : Prop :=
  ∀ other rel f, (rel, f) ∈ (contextTree found other).files lib →
    ∀ e ∈ (contextTree found path).files lib, contextKey other rel = contextKey path e.1 → f = e.2

section

variable {lib : Library} {env : Env} {found w : World} {path : String} {cache cache' : Cache}

theorem Reading.contextTree (h : Reading lib found path w cache) (other : String) :
    contextTree w other = Mountin.contextTree found other := by
  have hsource : w.place "sources/mountin" = found.place "sources/mountin" := h.source
  simp only [Mountin.contextTree, packageTree, hsource]

theorem Reading.hashed (h : Reading lib found path w cache) {places : Places}
    (hhashed : Hashed lib (FileAt lib places) cache cache') : Reading lib found path w cache' :=
  ⟨h.source, h.unmasked.hashed (fun _ _ hf e _ heq => absurd heq (hf.ne_contextKey path e.1))
    hhashed⟩

/-- Container runs for other outputs than the source tree. -/
theorem reading_container (henv : env.Lawful) :
    ContainerFrame lib env (· ≠ sourceOutput) (Reading lib found path) where
  keeps cache output h :=
    { place := fun w entry hw => ⟨(if_neg (Ne.symm h)).trans hw.source, hw.unmasked⟩
      previous := fun w entry hw => ⟨hw.source, hw.unmasked⟩ }
  log w cache log _ _ _ hw := ⟨hw.source, hw.unmasked⟩
  run cache stage outputs h := by
    refine Prog.safe_of_stops fun w hw c hc => ?_
    obtain ⟨place, hplace, rfl⟩ := henv.runContainer stage outputs w c hc
    exact ⟨(hplace _ fun hmem => h _ hmem rfl).trans hw.source, hw.unmasked⟩
  update w cache output input_hash requires cache' h hw hupdate := by
    obtain ⟨cached, cache₁, _, hhashed, rfl⟩ := updateOutputHash_record hupdate
    have hread := hw.hashed hhashed
    exact ⟨hread.source, hread.unmasked.apart, hread.unmasked.kept⟩
  save w cache hw := ⟨hw.source, hw.unmasked⟩

/-- Runs that do not make the source tree. -/
theorem reading_run (henv : env.Lawful) (hnamed : Named lib found path) :
    RunInvariant lib env (· ≠ sourceOutput) (Reading lib found path) (fun _ => True) where
  stop _ _ _ := trivial
  hashed w cache other m dep_hashes context hash cache' hw h := by
    obtain ⟨cache₁, _, hin, hat⟩ := hashPathInputs_hashed lib h
    refine ⟨hw.source, ?_⟩
    refine (hw.unmasked.hashed ?_ hin).hashed
      (fun _ _ hf e _ heq => absurd heq (hf.ne_contextKey path e.1)) hat
    rintro key f ⟨rel, hrel, rfl⟩ e he heq
    rw [hw.contextTree] at hrel
    exact hnamed other rel f hrel e he heq
  dirty w cache output input_hash requires cache' hw h := by
    have := isOutputDirty_hashed lib w.place output input_hash requires cache
    rw [h] at this
    exact hw.hashed this
  clean w cache output input_hash requires cache' entry hw h _ := by
    have := isOutputDirty_hashed lib w.place output input_hash requires cache
    rw [h] at this
    exact ⟨(hw.hashed this).source, (hw.hashed this).unmasked⟩
  image w cache platform tag id hash hw :=
    ⟨hw.source, hw.unmasked.apart, hw.unmasked.kept⟩
  podman cache stage tag := by
    have hsafe : (env.podmanBuild stage tag).Safe (fun w => Reading lib found path w cache)
        (fun _ w => Reading lib found path w cache) (fun w => Reading lib found path w cache) := by
      refine Prog.safe_of_stops fun w hw c hc => ?_
      obtain ⟨image, rfl⟩ := henv.podmanBuild stage tag w c hc
      exact ⟨hw.source, hw.unmasked⟩
    exact hsafe.stop fun _ _ => trivial
  container stage m input_hash file_outputs dirty memory h :=
    containerStep_frame (reading_container henv) (fun _ _ _ => trivial) stage m input_hash
      file_outputs dirty memory h

end

/-- **An invariant of a run holds where its turns start.** -/
theorem RunInvariant.turns {lib : Library} {env : Env} {allowed : String → Prop}
    {J : World → Cache → Prop} {C : World → Prop} (h : RunInvariant lib env allowed J C)
    (sets : SetOrder) (graph : BuildGraph) (context : Dict String String) (force : Bool)
    (hneeded : ∀ p, ∀ o ∈ graph.needed.getD p [], allowed o) (order : List String) (memory : Memory)
    (w : World) (hw : J w memory.cache) :
    ∀ t ∈ turns lib env sets graph context force order memory w, J t.world t.memory.cache := by
  induction order generalizing memory w with
  | nil => simp [Mountin.turns]
  | cons p rest ih =>
      rw [Mountin.turns]
      cases graph.nodes.get? p with
      | none => simp
      | some record =>
          have hstep := (h.runInstance_safe sets graph context force p (hneeded p) memory w hw).2
          dsimp only
          rw [List.forall_mem_cons]
          refine ⟨hw, ?_⟩
          cases hresult : (runInstance lib env sets graph context force p memory w).result with
          | error e => simp
          | ok step =>
              rw [hresult] at hstep
              cases step with
              | none => simp
              | some memory' => exact ih memory' _ hstep

/-! ## The run of a build -/

/-- What `cmd_build` does before it calls `run_build`: the targets and variants that it calls it
with, unless there is no target. -/
def prepareBuild (lib : Library) (loader : Loader) (env : Env) (command : Command) :
    Build (Option (List String × List (List Instance))) := do
  let cache ← loadCache
  let (identity, _) ← exportSourceTree lib env command.source cache.sourceIdentity
  let place ← Prog.look fun w => w.place
  let cache ← Prog.lift (updateOutputHash lib place sourceOutput identity [] cache)
  let package ← Prog.look packageTree
  let providers ← Prog.lift (loader.load package command.context)
  let targets ← Prog.lift (expandTargets loader command.patterns providers command.context)
  if targets.isEmpty then pure none
  else
    let cache ← writeInputs lib env loader package cache
    Prog.act fun w => (w.setSaved cache).setLog { w.log with unsaved := false }
    pure (some (targets, providers))

/-- What `cmd_build` does with the targets and variants. -/
def runPrepared (lib : Library) (sets : SetOrder) (env : Env) (command : Command) :
    Option (List String × List (List Instance)) → Build Nat
  | none => pure 1
  | some (targets, providers) => do
      let success ← runBuild lib env sets targets providers command.context command.force
      pure (if success then 0 else 1)

/-- `cmd_build` prepares, then runs. -/
theorem cmdBuild_eq (lib : Library) (loader : Loader) (sets : SetOrder) (env : Env)
    (command : Command) : cmdBuild lib loader sets env command =
      prepareBuild lib loader env command >>= runPrepared lib sets env command := by
  simp only [cmdBuild, prepareBuild, Prog.bind_assoc]
  refine bind_congr fun cache => bind_congr fun exported => bind_congr fun place =>
    bind_congr fun cache => bind_congr fun package => bind_congr fun providers =>
      bind_congr fun targets => ?_
  split
  · rw [Prog.pure_bind]
    rfl
  · simp only [Prog.bind_assoc, Prog.pure_bind]
    rfl

/-- One `mountin build`, from the state that it finds. -/
structure BuildRun where
  sets : SetOrder
  env : Env
  command : Command
  start : World
  lawful : env.Lawful

/-- The files of the context directory of a turn. -/
def Turn.files (lib : Library) (t : Turn) : List (RelPath × File) :=
  (contextTree t.world t.record.inst.provider).files lib

/-- The text of which the input hash of a turn is the hash. -/
def Turn.text (lib : Library) (t : Turn) : Except Raised Bytes :=
  pathText lib t.record.inst.provider (t.files lib) t.record.inst.metadata t.memory.dep_hashes
    t.world.place t.record.inst.context t.memory.cache

/-- The texts that the input hash of a turn is made of: what the files hold, their listing, and the
text of the input hash. -/
def Turn.texts (lib : Library) (t : Turn) : Set Bytes :=
  {text | (∃ e ∈ t.files lib, text = e.2.data) ∨ text = listing lib (t.files lib) ∨
    t.text lib = .ok text}

/-- The text of which `hash_output_inputs` returns the hash, when the output requires something. -/
def outputText (lib : Library) (base_hash : Bytes) (requires : List String) (places : Places)
    (cache : Cache) : Bytes :=
  (hashRequires lib places (fun _ => none) true (sortedNames requires) base_hash cache).1

namespace BuildRun

variable (lib : Library) (loader : Loader) (run : BuildRun)

/-- What the run of `run_build` finds. -/
def found : World := (prepareBuild lib loader run.env run.command run.start).state

/-- The turns of the run. -/
def turns : List Turn :=
  match (prepareBuild lib loader run.env run.command run.start).result with
  | .ok (some (targets, providers)) =>
      match buildGraph run.sets targets providers run.command.context
          (fun output => ((run.found lib loader).place output).isSome) with
      | .ok graph => Mountin.turns lib run.env run.sets graph run.command.context run.command.force
          graph.order ⟨(run.found lib loader).saved, []⟩ (run.found lib loader)
      | .error _ => []
  | _ => []

/-- The condition on a run: where it starts, the cache file keeps for no file of the context
directory a hash of another content with the time and size of the file; the names of files tell
them apart, and no provider makes the source tree. -/
structure Faithful (path : String) : Prop where
  unmasked : Unmasked lib (contextKey path) ((contextTree (run.found lib loader) path).files lib)
    (run.found lib loader).saved
  named : Named lib (run.found lib loader) path
  spares : ∀ targets providers,
    (prepareBuild lib loader run.env run.command run.start).result = .ok (some (targets, providers)) →
      ∀ inst, ¬ Offers providers sourceOutput inst

variable {lib loader run}

/-- In each turn of a provider, no hash is kept for another content of its files. -/
theorem Faithful.unmasked_turn {path : String} (h : run.Faithful lib loader path) {t : Turn}
    (ht : t ∈ run.turns lib loader) (hpath : t.record.inst.provider = path) :
    Unmasked lib (contextKey path) (t.files lib) t.memory.cache := by
  have hread : Reading lib (run.found lib loader) path t.world t.memory.cache := by
    unfold turns at ht
    split at ht
    · rename_i targets providers hprepared
      split at ht
      · rename_i graph hgraph
        refine (reading_run run.lawful h.named).turns run.sets graph _ _ (fun p o ho heq => ?_) _ _ _
          ⟨rfl, h.unmasked⟩ t ht
        obtain ⟨inst, hinst⟩ := offers_of_needed hgraph ho
        exact h.spares targets providers hprepared inst (heq ▸ hinst)
      · simp at ht
    · simp at ht
  rw [Turn.files, hpath, hread.contextTree]
  exact hread.unmasked

end BuildRun

/-- The metadata of the variant below, printed. -/
def imageJson : String := "\x7b\"provides\":\x7b\"image.iso\":\x7b\x7d\x7d,\"runs_on\":\"docker:fedora\"\x7d"

/-- `hashlib` and `json.dumps` on the texts of the runs below. -/
def editsLibrary : Library where
  md5 b := encode (
    if b = encode "1" then "c4ca4238a0b923820dcc509a6f75849b"
    else if b = encode "2" then "c81e728d9d4c2f636f067f89cc14862c"
    else if b = encode "22" then "b6d767d2f8ed5d21a44b0e5886680cb9"
    else if b = encode "built" then "589b397ed82131bf51acdf63521c2df5"
    else if b = encode "notesc4ca4238a0b923820dcc509a6f75849b" then "02e43dffdfd14393956b8227f8d1a8ad"
    else if b = encode "notesc81e728d9d4c2f636f067f89cc14862c" then "ecfa709773c297b1d3c792237c0e6f0a"
    else if b = encode "notesb6d767d2f8ed5d21a44b0e5886680cb9" then "1a8a9b84bb0d7f8ca67cd7a9f223b950"
    else if b = encode ("02e43dffdfd14393956b8227f8d1a8ad" ++ imageJson ++ "\x7b\x7d") then
      "dff58c08de85841aa05d1f5ed479d708"
    else if b = encode ("1a8a9b84bb0d7f8ca67cd7a9f223b950" ++ imageJson ++ "\x7b\x7d") then
      "9c24960705d44909d961055819a38c9b"
    else "d41d8cd98f00b204e9800998ecf8427e")
  sha256 b := (littleEndian 32 (digest b)).reverse
  stableJson
    | .dict [] => encode "\x7b\x7d"
    | _ => encode imageJson
  follow _ _ _ := none
where
  /-- The digests of the contents and of the trees. -/
  digest (b : Bytes) : Nat :=
    if b = encode "1" then 0x6b86b273ff34fce19d6b804eff5a3f5747ada4eaa22f1d49c01e52ddb7875b4b
    else if b = encode "2" then 0xd4735e3a265e16eee03f59718b9b5d03019c07d8b6c51f90da3a666eec13ab35
    else if b = encode "22" then 0x785f3ec7eb32f30b90cd0fcf3657d388b5ff4297f2f9716ff66e9b69c05ddd09
    else if b.contains 0x6b then 0x21d2e73af25d3f3f05a2b9b60b858ec40b26dc8899375cdbceb57c4b9d64e6f1
    else if b.contains 0xd4 then 0x9b68889029de7bff59a7fcd6e724b081080eac1f7c824ed0fb6e103577d73c7e
    else 0x5a47cac5b095d198e37d4212534bf1ffcf031392e52d660e17ac66aa18789843

/-- A variant with a file, at the root of the catalogue. -/
def isoProvider : Instance where
  id := ""
  provider := ""
  output_platform := none
  context := []
  metadata := [("provides", .dict [("image.iso", .dict [])]), ("runs_on", .str "docker:fedora")]

/-- The catalogue of the variant. -/
def isoLoader : Loader where
  load _ _ := .ok [[isoProvider]]
  catalogueText _ := []
  formatText _ := []
  fnmatch _ _ := false

/-- A build of the file, from a source with some notes. -/
def isoCommand (notes : String) : Command where
  source := .ok [(["src", "mountin", "notes"], .file ⟨encode notes, 0o644, 0⟩)]
  patterns := ["image.iso"]
  context := imageContext
  force := false

/-- The build of a source, in the state that is found. -/
def isoRun (notes : String) (start : World) : BuildRun :=
  ⟨⟨id, perm_id⟩, workingEnv, isoCommand notes, start, workingEnv_lawful⟩

/-- The state that the build of the first source leaves. -/
def firstIso : World :=
  (cmdBuild editsLibrary isoLoader ⟨id, perm_id⟩ workingEnv (isoCommand "1") emptyWorld).state

/-- What a turn hashes, and its hash. -/
structure HashedText where
  provider : String
  text : Option Bytes
  hash : Option Bytes
  files : List (RelPath × File)
deriving DecidableEq

/-- What the turns of a run hash. -/
def hashedBy (run : BuildRun) : List HashedText :=
  (run.turns editsLibrary isoLoader).map fun t =>
    ⟨t.record.inst.provider, (t.text editsLibrary).toOption,
      (t.inputHash editsLibrary).toOption.map Prod.fst, t.files editsLibrary⟩

/-- A turn over one file of notes. -/
structure IsoTurn (run : BuildRun) (notes text hash : String) (t : Turn) : Prop where
  mem : t ∈ run.turns editsLibrary isoLoader
  provider : t.record.inst.provider = ""
  text : t.text editsLibrary = .ok (encode text)
  hash : ∃ cache, t.inputHash editsLibrary = .ok (encode hash, cache)
  files : t.files editsLibrary = [(["notes"], ⟨encode notes, 0o644, SOURCE_EPOCH⟩)]

theorem isoTurn_of_hashedBy {run : BuildRun} {notes text hash : String}
    (h : hashedBy run = [⟨"", some (encode text), some (encode hash),
      [(["notes"], ⟨encode notes, 0o644, SOURCE_EPOCH⟩)]⟩]) :
    ∃ t, IsoTurn run notes text hash t := by
  obtain ⟨t, ht, heq⟩ := List.mem_map.mp (h ▸ List.mem_singleton_self _)
  injection heq with hprovider htext hhash hfiles
  refine ⟨t, ht, hprovider, ?_, ?_, hfiles⟩
  · cases hx : t.text editsLibrary with
    | error e => simp [hx, Except.toOption] at htext
    | ok x => simpa [hx, Except.toOption] using htext
  · cases hx : t.inputHash editsLibrary with
    | error e => simp [hx, Except.toOption] at hhash
    | ok x => exact ⟨x.2, by simpa [hx, Except.toOption, Prod.ext_iff] using hhash⟩

theorem first_turn : ∃ t, IsoTurn (isoRun "1" emptyWorld) "1"
    ("02e43dffdfd14393956b8227f8d1a8ad" ++ imageJson ++ "\x7b\x7d")
    "dff58c08de85841aa05d1f5ed479d708" t :=
  isoTurn_of_hashedBy (by decide +kernel)

/-- A content of the same size: the text is that of the first one. -/
theorem masked_turn : ∃ t, IsoTurn (isoRun "2" firstIso) "2"
    ("02e43dffdfd14393956b8227f8d1a8ad" ++ imageJson ++ "\x7b\x7d")
    "dff58c08de85841aa05d1f5ed479d708" t :=
  isoTurn_of_hashedBy (by decide +kernel)

/-- A content of another size. -/
theorem longer_turn : ∃ t, IsoTurn (isoRun "22" firstIso) "22"
    ("1a8a9b84bb0d7f8ca67cd7a9f223b950" ++ imageJson ++ "\x7b\x7d")
    "9c24960705d44909d961055819a38c9b" t :=
  isoTurn_of_hashedBy (by decide +kernel)

theorem length_editsLibrary (b : Bytes) : (editsLibrary.md5 b).length = 32 := by
  simp only [editsLibrary]
  split_ifs <;> rfl

/-- The texts of a turn over one file of notes. -/
def isoTexts (notes text : String) : List Bytes :=
  [encode notes, listing editsLibrary [(["notes"], ⟨encode notes, 0o644, SOURCE_EPOCH⟩)], encode text]

theorem IsoTurn.texts_subset {run : BuildRun} {notes text hash : String} {t : Turn}
    (h : IsoTurn run notes text hash t) {x : Bytes} (hx : x ∈ t.texts editsLibrary) :
    x ∈ isoTexts notes text := by
  rcases hx with ⟨e, he, rfl⟩ | rfl | htext
  · rw [h.files, List.mem_singleton] at he
    subst he
    exact List.mem_cons_self
  · rw [h.files]
    exact List.mem_cons_of_mem _ List.mem_cons_self
  · obtain rfl := Except.ok.inj (htext.symm.trans h.text)
    exact List.mem_cons_of_mem _ (List.mem_cons_of_mem _ List.mem_cons_self)

/-- Two turns without collisions. -/
theorem IsoTurn.injOn {run₁ run₂ : BuildRun} {notes₁ notes₂ text₁ text₂ hash₁ hash₂ : String}
    {t₁ t₂ : Turn} (h₁ : IsoTurn run₁ notes₁ text₁ hash₁ t₁) (h₂ : IsoTurn run₂ notes₂ text₂ hash₂ t₂)
    (hapart : ∀ a ∈ isoTexts notes₁ text₁ ++ isoTexts notes₂ text₂,
      ∀ b ∈ isoTexts notes₁ text₁ ++ isoTexts notes₂ text₂,
        editsLibrary.md5 a = editsLibrary.md5 b → a = b) :
    Set.InjOn editsLibrary.md5 (t₁.texts editsLibrary ∪ t₂.texts editsLibrary) := by
  have hmem : ∀ x ∈ t₁.texts editsLibrary ∪ t₂.texts editsLibrary,
      x ∈ isoTexts notes₁ text₁ ++ isoTexts notes₂ text₂ := by
    rintro x (hx | hx)
    · exact List.mem_append_left _ (h₁.texts_subset hx)
    · exact List.mem_append_right _ (h₂.texts_subset hx)
  exact fun a ha b hb => hapart a (hmem a ha) b (hmem b hb)

/-- Every context directory of a tree with one file has that file at most. -/
theorem named_of_single {lib : Library} {found : World} {name : RelPath} {f : File}
    (h : packageTree found = [(name, .file f)]) (path : String) : Named lib found path := by
  have hone : ∀ other rel f', (rel, f') ∈ (contextTree found other).files lib → f' = f := by
    intro other rel f' hf'
    obtain ⟨e, he, hnode⟩ := List.mem_filterMap.mp hf'
    have hentry : e.2 = .file f := by
      have hunder := List.mem_mergeSort.mp he
      rw [contextTree, h, Tree.under] at hunder
      obtain ⟨e', he', hdrop⟩ := List.mem_filterMap.mp hunder
      obtain rfl := List.mem_singleton.mp he'
      split at hdrop
      · rw [← Option.some.inj hdrop]
      · simp at hdrop
    rw [hentry] at hnode
    exact (Prod.mk.inj (Option.some.inj hnode)).2.symm
  intro other rel f' hf' e he _
  rw [hone other rel f' hf', hone path e.1 e.2 he]

/-- What the run of `run_build` is called with. -/
def offeredBy (run : BuildRun) : Option (Option (List (Option (List String)))) :=
  (prepareBuild editsLibrary isoLoader run.env run.command run.start).result.toOption.map
    (Option.map fun prepared => prepared.2.flatten.map fun inst => (provided inst).toOption)

/-- The condition for a source with one file of notes. -/
theorem faithful_of_single {run : BuildRun} (notes : String)
    (hpackage : packageTree (run.found editsLibrary isoLoader) =
      [(["notes"], .file ⟨encode notes, 0o644, SOURCE_EPOCH⟩)])
    (hkept : ∀ cached, (run.found editsLibrary isoLoader).saved.files.get? (contextKey "" ["notes"]) =
      some cached → cached.size ≠ (encode notes).length)
    (hoffered : offeredBy run = some (some [some ["image.iso"]])) :
    run.Faithful editsLibrary isoLoader "" where
  unmasked := by
    have hfiles : (contextTree (run.found editsLibrary isoLoader) "").files editsLibrary =
        [(["notes"], ⟨encode notes, 0o644, SOURCE_EPOCH⟩)] := by
      simp [contextTree, hpackage, RelPath.ofText, Tree.under, Tree.files]
    rw [hfiles]
    refine ⟨List.nodup_singleton _, ?_⟩
    rw [List.forall_mem_singleton]
    exact fun cached hcached _ hsize => absurd hsize (hkept cached hcached)
  named := named_of_single hpackage ""
  spares targets providers hresult inst := by
    rintro ⟨hinst, outputs, houtputs, hmem⟩
    simp only [offeredBy, hresult, Except.toOption, Option.map_some, Option.some.injEq] at hoffered
    have hprovided : (provided inst).toOption ∈ [some ["image.iso"]] :=
      hoffered ▸ List.mem_map_of_mem hinst
    rw [houtputs, List.mem_singleton] at hprovided
    obtain rfl : outputs = ["image.iso"] := Option.some.inj hprovided
    exact absurd hmem (by decide)

end Mountin
