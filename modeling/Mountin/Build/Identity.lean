import Mountin.Build.Hashed
import Mountin.Build.Order
import Mountin.Build.Command

set_option autoImplicit false

/-! # The exported tree and its identity

The identity of the source tree lies in the cache file, the tree on the disk. They agree unless a
run was stopped between the export of another tree and `save_cache`.

* `SourceKept` : the invariant.
* `exportSourceTree_safe` : an export keeps it, stopped anywhere.
* `cmdBuild_safe` : so does a build.
-/

namespace Mountin

/-- The tree that the next export finds at its destination, once it has looked at the backup. -/
def World.sourceTree (w : World) : Option Entry :=
  (w.place sourceOutput).or (w.previous sourceOutput)

/-- A returned identity, with the tree at the destination: the tree has that identity. -/
def Exported (lib : Library) (e : Bytes × Option Entry) : Prop :=
  ∃ tree, e.2 = some (.dir tree) ∧ treeIdentity lib tree = e.1

/-- What exports returned was right, and unless a replaced tree waits for the cache file, the
tree has the identity that the cache file records. -/
structure SourceKept (lib : Library) (w : World) : Prop where
  exports : ∀ e ∈ w.log.exports, Exported lib e
  recorded : w.log.unsaved = false → ∀ identity tree, w.saved.sourceIdentity = some identity →
    w.sourceTree = some (.dir tree) → treeIdentity lib tree = identity

/-- The source does not come back to the identity in the cache file while the tree of another
source waits for it. -/
def Advances (lib : Library) (source : Except Raised Tree) (w : World) : Prop :=
  w.log.unsaved = true → ∀ entries, source = .ok entries →
    w.saved.sourceIdentity ≠ some (treeIdentity lib entries)

/-- The times that the copy sets are no part of the identity. -/
theorem treeIdentity_copied (lib : Library) (entries : Tree) :
    treeIdentity lib (entries.map copiedEntry) = treeIdentity lib entries := by
  have hentry : ∀ e : RelPath × Node,
      entryDigest lib (copiedEntry e).1 (copiedEntry e).2 = entryDigest lib e.1 e.2 := by
    rintro ⟨relative, f | ⟨mode, target⟩⟩ <;> rfl
  simp only [treeIdentity, List.flatMap_map, hentry]

/-! ## What does not touch the tree -/

section

variable {lib : Library} {w w' : World}

theorem SourceKept.congr (h : SourceKept lib w) (hexports : w'.log.exports = w.log.exports)
    (hunsaved : w'.log.unsaved = w.log.unsaved)
    (hsaved : w'.saved.sourceIdentity = w.saved.sourceIdentity)
    (htree : w'.sourceTree = w.sourceTree) : SourceKept lib w' := by
  refine ⟨by rw [hexports]; exact h.exports, ?_⟩
  rw [hunsaved, hsaved, htree]
  exact h.recorded

theorem fromBackup_sourceTree (h : w.place sourceOutput = none) :
    (w.fromBackup sourceOutput).sourceTree = w.sourceTree := by
  simp [World.sourceTree, World.fromBackup, World.setPrevious, World.setPlace, h]

theorem toBackup_sourceTree (h : (w.place sourceOutput).isSome) :
    (w.toBackup sourceOutput).sourceTree = w.sourceTree := by
  obtain ⟨entry, hentry⟩ := Option.isSome_iff_exists.mp h
  simp [World.sourceTree, World.toBackup, World.setPrevious, World.setPlace, hentry]

theorem setPrevious_sourceTree (h : (w.place sourceOutput).isSome) (entry : Option Entry) :
    (w.setPrevious sourceOutput entry).sourceTree = w.sourceTree := by
  obtain ⟨entry', hentry⟩ := Option.isSome_iff_exists.mp h
  simp [World.sourceTree, World.setPrevious, hentry]

theorem setPlace_sourceTree {output : String} (h : output ≠ sourceOutput) (entry : Option Entry) :
    (w.setPlace output entry).sourceTree = w.sourceTree := by
  simp [World.sourceTree, World.setPlace, h.symm]

theorem setPrevious_sourceTree_of_ne {output : String} (h : output ≠ sourceOutput)
    (entry : Option Entry) : (w.setPrevious output entry).sourceTree = w.sourceTree := by
  simp [World.sourceTree, World.setPrevious, h.symm]

end

/-! ## An export -/

section

variable {lib : Library} {env : Env} {source : Except Raised Tree} {cache : Cache}

/-- Where an export starts. -/
structure ExportStart (lib : Library) (source : Except Raised Tree) (cache : Cache) (w : World) :
    Prop where
  kept : SourceKept lib w
  saved : w.saved = cache
  advances : Advances lib source w

theorem ExportStart.congr {w w' : World} (h : ExportStart lib source cache w)
    (hlog : w'.log = w.log) (hsaved : w'.saved = w.saved) (htree : w'.sourceTree = w.sourceTree) :
    ExportStart lib source cache w' where
  kept := h.kept.congr (by rw [hlog]) (by rw [hlog]) (by rw [hsaved]) htree
  saved := hsaved.trans h.saved
  advances := by
    have := h.advances
    rwa [Advances, hlog, hsaved]

/-- What an export returns: the identity of the source, with a tree of that identity. -/
structure ExportEnd (lib : Library) (source : Except Raised Tree) (cache : Cache) (identity : Bytes)
    (w : World) : Prop where
  kept : SourceKept lib w
  saved : w.saved = cache
  source : ∃ entries, source = .ok entries ∧ treeIdentity lib entries = identity
  tree : ∃ tree, w.place sourceOutput = some (.dir tree) ∧ treeIdentity lib tree = identity

theorem ExportEnd.congr {identity : Bytes} {w w' : World}
    (h : ExportEnd lib source cache identity w) (hlog : w'.log = w.log) (hsaved : w'.saved = w.saved)
    (hplace : w'.place sourceOutput = w.place sourceOutput) :
    ExportEnd lib source cache identity w' where
  kept := by
    obtain ⟨tree, htree, _⟩ := h.tree
    exact h.kept.congr (by rw [hlog]) (by rw [hlog]) (by rw [hsaved])
      (by rw [World.sourceTree, hplace, World.sourceTree, htree]; rfl)
  saved := hsaved.trans h.saved
  source := h.source
  tree := by
    rw [hplace]
    exact h.tree

/-- The copy of the entries. -/
theorem copyEntries_safe {P : World → Prop} {C : World → Prop}
    (hP : ∀ w tree, P w → P { w with exporting := tree }) (hPC : ∀ w, P w → C w)
    (entries : Tree) (done : Tree) :
    (Prog.each entries copyEntry).Safe (fun w => P w ∧ w.exporting = some done)
      (fun _ w => P w ∧ w.exporting = some (done ++ entries.map copiedEntry)) C := by
  induction entries generalizing done with
  | nil => exact Prog.safe_ret fun w hw => by simpa using hw
  | cons entry rest ih =>
      refine Prog.Safe.bind (R := fun _ w => P w ∧ w.exporting = some (done ++ [copiedEntry entry]))
        ?_ fun _ => ?_
      · refine Prog.safe_act ?_ fun w hw => hPC _ (hP w _ hw.1)
        rintro w ⟨hw, hdone⟩
        refine ⟨hP w _ hw, ?_⟩
        simp [hdone]
      · exact (ih _).post fun _ w hw => by simpa using hw

theorem restorePrevious_kept :
    restorePrevious.Safe (SourceKept lib) (fun _ => SourceKept lib) (SourceKept lib) := by
  refine Prog.Safe.bind (R := fun world w => SourceKept lib w ∧ world = w)
    (Prog.safe_look fun w hw => ⟨hw, rfl⟩) fun world => ?_
  split
  · rename_i hnone
    have hfrom : ∀ w, (SourceKept lib w ∧ world = w) → SourceKept lib (w.fromBackup sourceOutput) := by
      rintro w ⟨hw, rfl⟩
      refine hw.congr rfl rfl rfl (fromBackup_sourceTree ?_)
      simpa using (Bool.and_eq_true_iff.mp hnone).2
    exact Prog.safe_act hfrom hfrom
  · exact Prog.safe_pure fun w hw => hw.1

theorem recoverPrevious_safe : (recoverPrevious env).Safe (ExportStart lib source cache)
    (fun _ => ExportStart lib source cache) (SourceKept lib) := by
  refine Prog.Safe.bind (R := fun world w => ExportStart lib source cache w ∧ world = w)
    (Prog.safe_look fun w hw => ⟨hw, rfl⟩) fun world => ?_
  split
  · split
    · rename_i hnone
      have hfrom : ∀ w, (ExportStart lib source cache w ∧ world = w) →
          ExportStart lib source cache (w.fromBackup sourceOutput) := by
        rintro w ⟨hw, rfl⟩
        exact hw.congr rfl rfl (fromBackup_sourceTree (by simpa using hnone))
      exact Prog.safe_act hfrom fun w hw => (hfrom w hw).kept
    · rename_i hsome
      have hkeep : (removePrevious env sourceOutput).Safe
          (fun w => ExportStart lib source cache w ∧ (w.place sourceOutput).isSome)
          (fun _ w => ExportStart lib source cache w ∧ (w.place sourceOutput).isSome)
          (SourceKept lib) :=
        removePrevious_frame
          (fun w entry hw => ⟨hw.1.congr rfl rfl (setPrevious_sourceTree hw.2 entry), hw.2⟩)
          fun w hw => hw.1.kept
      refine hkeep.weaken ?_ fun _ w hw => hw.1
      rintro w ⟨hw, rfl⟩
      exact ⟨hw, by simpa [Option.isSome_iff_ne_none] using hsome⟩
  · exact Prog.safe_pure fun w hw => hw.1

theorem moveAside_safe {entries : Tree} : moveAside.Safe
    (fun w => ExportStart lib source cache w ∧ w.exporting = some entries)
    (fun _ w => (ExportStart lib source cache w ∧ w.exporting = some entries) ∧
      w.place sourceOutput = none) (SourceKept lib) := by
  refine Prog.Safe.bind (R := fun world w =>
      (ExportStart lib source cache w ∧ w.exporting = some entries) ∧ world = w)
    (Prog.safe_look fun w hw => ⟨hw, rfl⟩) fun world => ?_
  split
  · rename_i hsome
    have hto : ∀ w, ((ExportStart lib source cache w ∧ w.exporting = some entries) ∧ world = w) →
        ExportStart lib source cache (w.toBackup sourceOutput) := by
      rintro w ⟨hw, rfl⟩
      exact hw.1.congr rfl rfl (toBackup_sourceTree hsome)
    refine Prog.safe_act (fun w hw => ⟨⟨hto w hw, hw.1.2⟩, ?_⟩) fun w hw => (hto w hw).kept
    simp [World.toBackup, World.setPlace]
  · rename_i hnone
    refine Prog.safe_pure ?_
    rintro w ⟨hw, rfl⟩
    exact ⟨hw, by simpa using hnone⟩

/-- The replacement of the tree at the destination. -/
theorem replaceTree_safe {entries : Tree} (hsource : source = .ok entries) :
    (replaceTree env (treeIdentity lib entries)).Safe
    (fun w => ExportStart lib source cache w ∧ w.exporting = some (entries.map copiedEntry))
    (fun r w => ExportEnd lib source cache r.1 w) (SourceKept lib) := by
  refine Prog.Safe.bind moveAside_safe fun _ => ?_
  refine Prog.Safe.bind (R := fun _ w => ExportEnd lib source cache (treeIdentity lib entries) w)
    ?_ fun _ => ?_
  · refine Prog.Safe.rescue ?_ (fun w hw => hw.1.1.kept) restorePrevious_kept
    have hpublish : ∀ w, ((ExportStart lib source cache w ∧
        w.exporting = some (entries.map copiedEntry)) ∧ w.place sourceOutput = none) →
        ExportEnd lib source cache (treeIdentity lib entries)
          (publish (treeIdentity lib entries) w).state := by
      rintro w ⟨⟨hw, hcopied⟩, _⟩
      have hplace : (publish (treeIdentity lib entries) w).state.place sourceOutput =
          some (.dir (entries.map copiedEntry)) := by
        simp [publish, Prog.act, World.setPlace, hcopied]
      refine ⟨⟨hw.kept.exports, fun hunsaved identity tree hrecorded htree => ?_⟩, hw.saved,
        ⟨entries, hsource, rfl⟩, _, hplace, treeIdentity_copied lib entries⟩
      -- nothing waits for the cache file: its identity is that of the new tree
      have hsame : w.saved.sourceIdentity = some (treeIdentity lib entries) := by
        simpa [publish, Prog.act, World.setPlace] using hunsaved
      rw [World.sourceTree, hplace] at htree
      obtain rfl : entries.map copiedEntry = tree := by simpa using htree
      rw [treeIdentity_copied]
      exact Option.some.inj (hsame.symm.trans hrecorded)
    exact Prog.safe_act hpublish fun w hw => (hpublish w hw).kept
  · refine Prog.Safe.bind
      (R := fun _ w => ExportEnd lib source cache (treeIdentity lib entries) w)
      (removePrevious_frame (fun w entry hw => hw.congr rfl rfl rfl) fun w hw => hw.kept) fun _ => ?_
    exact Prog.safe_pure fun w hw => hw

theorem setExporting_safe {P : World → Prop} {C : World → Prop}
    (hP : ∀ w tree, P w → P { w with exporting := tree }) (hPC : ∀ w, P w → C w)
    (tree : Option Tree) : (setExporting tree).Safe P
      (fun _ w => P w ∧ w.exporting = tree) C :=
  Prog.safe_act (fun w hw => ⟨hP w tree hw, rfl⟩) fun w hw => hPC _ (hP w tree hw)

theorem exportEntries_safe : (exportEntries lib env source cache.sourceIdentity).Safe
    (fun w => ExportStart lib source cache w ∧ w.exporting = some [])
    (fun r w => ExportEnd lib source cache r.1 w) (SourceKept lib) := by
  refine Prog.Safe.bind (R := fun entries w => (ExportStart lib source cache w ∧
      w.exporting = some []) ∧ source = .ok entries)
    (Prog.safe_lift (fun entries hsource w hw => ⟨hw, hsource⟩) fun w hw => hw.1.kept)
    fun entries => ?_
  by_cases hsource : source = .ok entries
  case neg => exact fun w hw => absurd hw.2 hsource
  refine Prog.Safe.bind (R := fun _ w => ExportStart lib source cache w ∧
      w.exporting = some (entries.map copiedEntry)) ?_ fun _ => ?_
  · refine (copyEntries_safe (fun w tree hw => hw.congr rfl rfl rfl) (fun w hw => hw.kept)
      entries []).weaken (fun w hw => hw.1) fun _ w hw => by simpa using hw
  refine Prog.Safe.bind (R := fun world w => (ExportStart lib source cache w ∧
      w.exporting = some (entries.map copiedEntry)) ∧ world = w)
    (Prog.safe_look fun w hw => ⟨hw, rfl⟩) fun world => ?_
  split
  · -- the tree stays: nothing waits for the cache file, so it is the recorded one
    rename_i hsame
    have hend : ∀ w, ((ExportStart lib source cache w ∧
        w.exporting = some (entries.map copiedEntry)) ∧ world = w) →
        ExportEnd lib source cache (treeIdentity lib entries) w := by
      rintro w ⟨⟨hw, _⟩, rfl⟩
      obtain ⟨hidentity, htree⟩ := hsame
      have hunsaved : world.log.unsaved = false := by
        cases h : world.log.unsaved with
        | false => rfl
        | true => exact absurd (hw.saved ▸ hidentity) (hw.advances h entries hsource)
      obtain ⟨tree, hplace⟩ : ∃ tree, world.place sourceOutput = some (.dir tree) := by
        unfold hasTree at htree
        split at htree
        · exact ⟨_, ‹_›⟩
        · simp at htree
      refine ⟨hw.kept, hw.saved, ⟨entries, hsource, rfl⟩, tree, hplace, ?_⟩
      refine hw.kept.recorded hunsaved _ tree (hw.saved ▸ hidentity) ?_
      rw [World.sourceTree, hplace]
      rfl
    refine Prog.Safe.bind
      (R := fun _ w => ExportEnd lib source cache (treeIdentity lib entries) w) ?_ fun _ => ?_
    · have hnone : ∀ w : World, ExportEnd lib source cache (treeIdentity lib entries) w →
          ExportEnd lib source cache (treeIdentity lib entries) { w with exporting := none } :=
        fun w hw => hw.congr rfl rfl rfl
      exact Prog.safe_act (fun w hw => hnone w (hend w hw)) fun w hw => (hnone w (hend w hw)).kept
    · exact Prog.safe_pure fun w hw => hw
  · exact (replaceTree_safe hsource).pre fun w hw => hw.1

/-- **An export**, stopped anywhere, keeps the invariant; what it returns is right. -/
theorem exportSourceTree_safe : (exportSourceTree lib env source cache.sourceIdentity).Safe
    (ExportStart lib source cache) (fun r w => ExportEnd lib source cache r.1 w)
    (SourceKept lib) := by
  have hstart : ∀ w tree, ExportStart lib source cache w →
      ExportStart lib source cache { w with exporting := tree } :=
    fun w tree hw => hw.congr rfl rfl rfl
  refine Prog.Safe.bind (setExporting_safe hstart (fun w hw => hw.kept) none) fun _ => ?_
  refine Prog.Safe.bind (recoverPrevious_safe.pre fun w hw => hw.1) fun _ => ?_
  refine Prog.Safe.bind (setExporting_safe hstart (fun w hw => hw.kept) (some [])) fun _ => ?_
  refine Prog.Safe.bind (R := fun r w => ExportEnd lib source cache r.1 w) ?_ ?_
  · refine exportEntries_safe.finally' (fun w hw => hw.1.kept) ?_ ?_ fun w => ⟨(), rfl⟩
    · exact (setExporting_safe (fun w tree hw => hw.congr rfl rfl rfl rfl) (fun w hw => hw)
        none).post fun _ w hw => hw.1
    · exact fun r => (setExporting_safe (fun w tree hw => hw.congr rfl rfl rfl)
        (fun w hw => hw.kept) none).post fun _ w hw => hw.1
  · rintro ⟨identity, changed⟩
    have hlog : ∀ w, ExportEnd lib source cache identity w → ExportEnd lib source cache identity
        (w.setLog { w.log with exports := (identity, w.place sourceOutput) :: w.log.exports }) := by
      intro w hw
      refine ⟨⟨?_, hw.kept.recorded⟩, hw.saved, hw.source, hw.tree⟩
      exact List.forall_mem_cons.mpr ⟨hw.tree, hw.kept.exports⟩
    refine Prog.Safe.bind (R := fun _ w => ExportEnd lib source cache identity w)
      (Prog.safe_act hlog fun w hw => (hlog w hw).kept) fun _ => ?_
    exact Prog.safe_pure fun w hw => hw

end

/-! ## A build -/

/-- What a run of `run_build` keeps: the cache in memory records the source tree as the cache
file does. -/
def SourceMemory (lib : Library) (w : World) (cache : Cache) : Prop :=
  SourceKept lib w ∧ cache.sourceIdentity = w.saved.sourceIdentity

theorem Hashed.sourceIdentity {lib : Library} {S : FileKey → File → Prop} {c c' : Cache}
    (h : Hashed lib S c c') : c'.sourceIdentity = c.sourceIdentity := by
  rw [Cache.sourceIdentity, h.outputs, Cache.sourceIdentity]

section

variable {lib : Library} {env : Env}

theorem SourceMemory.congr {w w' : World} {cache cache' : Cache} (h : SourceMemory lib w cache)
    (hexports : w'.log.exports = w.log.exports) (hunsaved : w'.log.unsaved = w.log.unsaved)
    (hsaved : w'.saved.sourceIdentity = w.saved.sourceIdentity) (htree : w'.sourceTree = w.sourceTree)
    (hcache : cache'.sourceIdentity = cache.sourceIdentity) : SourceMemory lib w' cache' :=
  ⟨h.1.congr hexports hunsaved hsaved htree, by rw [hcache, hsaved, h.2]⟩

/-- Container runs for other outputs. -/
theorem sourceMemory_container (henv : env.Lawful) :
    ContainerFrame lib env (· ≠ sourceOutput) (SourceMemory lib) where
  keeps cache output h :=
    { place := fun w entry hw => hw.congr rfl rfl rfl (setPlace_sourceTree h entry) rfl
      previous := fun w entry hw => hw.congr rfl rfl rfl (setPrevious_sourceTree_of_ne h entry) rfl }
  log w cache log _ hexports hunsaved hw := hw.congr hexports hunsaved rfl rfl rfl
  run cache stage outputs h := by
    refine Prog.safe_of_stops fun w hw c hc => ?_
    obtain ⟨place, hplace, rfl⟩ := henv.runContainer stage outputs w c hc
    refine hw.congr rfl rfl rfl ?_ rfl
    simp only [World.sourceTree]
    rw [hplace sourceOutput fun hmem => h _ hmem rfl]
  update w cache output input_hash requires cache' h hw hupdate := by
    have hset : ∀ (c : Cache) entry, ({ c with outputs := c.outputs.set output entry } : Cache).sourceIdentity =
        c.sourceIdentity := fun c entry => by
      simp only [Cache.sourceIdentity, Dict.get?_set_of_ne _ _ h]
    obtain ⟨full_hash, cache₁, _, hhashed, ⟨tree, _, rfl⟩ | ⟨f, hash, cache₂, _, hfile, rfl⟩⟩ :=
      updateOutputHash_cases lib hupdate
    · exact hw.congr rfl rfl rfl rfl ((hset _ _).trans hhashed.sourceIdentity)
    · have hlast : Hashed lib (fun _ _ => True) cache₁ (hashFile lib f (.build output) cache₁).2 :=
        hashFile_hashed lib trivial cache₁
      rw [hfile] at hlast
      exact hw.congr rfl rfl rfl rfl
        ((hset _ _).trans (hlast.sourceIdentity.trans hhashed.sourceIdentity))
  save w cache hw := ⟨hw.1.congr rfl rfl hw.2 rfl, rfl⟩

/-- Runs of `run_build` that do not make the source tree. -/
theorem sourceMemory_run (henv : env.Lawful) :
    RunInvariant lib env (· ≠ sourceOutput) (SourceMemory lib) (SourceKept lib) where
  stop w cache hw := hw.1
  hashed w cache path m dep_hashes context hash cache' hw h := by
    obtain ⟨_, _, hcontext, hplaces⟩ := hashPathInputs_hashed lib h
    exact hw.congr rfl rfl rfl rfl (hplaces.sourceIdentity.trans hcontext.sourceIdentity)
  dirty w cache output input_hash requires cache' hw h := by
    have := (isOutputDirty_hashed lib w.place output input_hash requires cache).sourceIdentity
    rw [h] at this
    exact hw.congr rfl rfl rfl rfl this
  clean w cache output input_hash requires cache' entry hw h _ := by
    have := (isOutputDirty_hashed lib w.place output input_hash requires cache).sourceIdentity
    rw [h] at this
    exact hw.congr rfl rfl rfl rfl this
  image w cache platform tag id hash hw := ⟨hw.1.congr rfl rfl hw.2 rfl, rfl⟩
  podman cache stage tag := by
    have hsafe : (env.podmanBuild stage tag).Safe (fun w => SourceMemory lib w cache)
        (fun _ w => SourceMemory lib w cache) (fun w => SourceMemory lib w cache) := by
      refine Prog.safe_of_stops fun w hw c hc => ?_
      obtain ⟨image, rfl⟩ := henv.podmanBuild stage tag w c hc
      exact hw.congr rfl rfl rfl rfl rfl
    exact hsafe.stop fun w hw => hw.1
  container stage m input_hash file_outputs dirty memory h :=
    containerStep_frame (sourceMemory_container henv) (fun w cache hw => hw.1) stage m input_hash
      file_outputs dirty memory h

theorem updateOutputHash_sourceIdentity {places : Places} {identity : Bytes} {cache cache' : Cache}
    (h : updateOutputHash lib places sourceOutput identity [] cache = .ok cache') :
    cache'.sourceIdentity = some identity := by
  obtain ⟨_, cache₁, rfl, _, ⟨_, _, rfl⟩ | ⟨_, _, _, _, _, rfl⟩⟩ := updateOutputHash_cases lib h <;>
    simp [Cache.sourceIdentity]

/-- The implicit inputs lie elsewhere. -/
theorem writeInputs_safe {source : Except Raised Tree} {cache₀ : Cache} {identity : Bytes}
    (loader : Loader) (package : Tree) (cache : Cache) :
    (writeInputs lib env loader package cache).Safe (ExportEnd lib source cache₀ identity)
      (fun cache' w => ExportEnd lib source cache₀ identity w ∧
        cache'.sourceIdentity = cache.sourceIdentity) (SourceKept lib) := by
  have hplace : ∀ output, output ≠ sourceOutput → ∀ entry,
      (Prog.act fun w => w.setPlace output entry : Build Unit).Safe
        (ExportEnd lib source cache₀ identity) (fun _ => ExportEnd lib source cache₀ identity)
        (SourceKept lib) := by
    intro output hne entry
    have hset : ∀ w, ExportEnd lib source cache₀ identity w →
        ExportEnd lib source cache₀ identity (w.setPlace output entry) := fun w hw =>
      hw.congr rfl rfl (if_neg hne.symm)
    exact Prog.safe_act hset fun w hw => (hset w hw).kept
  have hwrite : ∀ output, output ≠ sourceOutput → ∀ text, (writeText env output text).Safe
      (ExportEnd lib source cache₀ identity) (fun _ => ExportEnd lib source cache₀ identity)
      (SourceKept lib) := fun output hne text =>
    Prog.Safe.bind (hplace output hne _) fun _ => hplace output hne _
  have hinput : ∀ output cache, (hashInput lib output cache).Safe
      (ExportEnd lib source cache₀ identity) (fun cache' w =>
        ExportEnd lib source cache₀ identity w ∧ cache'.sourceIdentity = cache.sourceIdentity)
      (SourceKept lib) := by
    intro output cache
    refine Prog.Safe.bind (R := fun _ => ExportEnd lib source cache₀ identity)
      (Prog.safe_look fun w hw => hw) fun place => ?_
    split
    · have hhashed : ∀ f, Hashed lib (fun _ _ => True) cache (hashFile lib f (.build output) cache).2 :=
        fun f => hashFile_hashed lib trivial cache
      exact Prog.safe_pure fun w hw => ⟨hw, (hhashed _).sourceIdentity⟩
    · exact Prog.safe_raise fun w hw => hw.kept
  refine Prog.Safe.bind (hwrite _ (by decide) _) fun _ => ?_
  refine Prog.Safe.bind (R := fun _ => ExportEnd lib source cache₀ identity) ?_ fun _ => ?_
  · have hchanged : ∀ same : Bool,
        (if same then pure () else writeText env "catalogue/format.json" (loader.formatText package) :
          Build Unit).Safe (ExportEnd lib source cache₀ identity)
          (fun _ => ExportEnd lib source cache₀ identity) (SourceKept lib) := by
      rintro (_ | _)
      · exact hwrite _ (by decide) _
      · exact Prog.safe_pure fun w hw => hw
    exact Prog.Safe.bind (R := fun _ => ExportEnd lib source cache₀ identity)
      (Prog.safe_look fun w hw => hw) fun place => hchanged _
  refine Prog.Safe.bind (hinput _ _) fun cache₁ => ?_
  intro w hw
  obtain ⟨hpassed, hend⟩ := hinput "catalogue/format.json" cache₁ w hw.1
  refine ⟨hpassed, ?_⟩
  cases hr : (hashInput lib "catalogue/format.json" cache₁ w).result with
  | ok cache' =>
      simp only [hr] at hend
      exact ⟨hend.1, hend.2.trans hw.2⟩
  | error e =>
      simp only [hr] at hend
      exact hend

/-- No provider of the catalogue of the source makes the source tree. -/
def SparesSource (lib : Library) (loader : Loader) (command : Command) : Prop :=
  ∀ entries tree providers, command.source = .ok entries →
    treeIdentity lib tree = treeIdentity lib entries →
    loader.load (tree.under ["src", "mountin"]) command.context = .ok providers →
    ∀ inst, ¬ Offers providers sourceOutput inst

/-- **A build**, stopped anywhere, keeps the invariant. -/
theorem cmdBuild_safe (henv : env.Lawful) {loader : Loader} {command : Command}
    (hspares : SparesSource lib loader command) (sets : SetOrder) :
    (cmdBuild lib loader sets env command).Safe
      (fun w => SourceKept lib w ∧ Advances lib command.source w) (fun _ => SourceKept lib)
      (SourceKept lib) := by
  refine Prog.Safe.bind (R := fun cache w => ExportStart lib command.source cache w)
    (Prog.safe_look fun w hw => ⟨hw.1, rfl, hw.2⟩) fun cache => ?_
  refine Prog.Safe.bind exportSourceTree_safe ?_
  rintro ⟨identity, changed⟩
  refine Prog.Safe.bind (R := fun _ w => ExportEnd lib command.source cache identity w)
    (Prog.safe_look fun w hw => hw) fun place => ?_
  refine Prog.Safe.bind (R := fun cache' w => ExportEnd lib command.source cache identity w ∧
      cache'.sourceIdentity = some identity)
    (Prog.safe_lift (fun cache' h w hw => ⟨hw, updateOutputHash_sourceIdentity h⟩)
      fun w hw => hw.kept) fun cache' => ?_
  refine Prog.Safe.bind (R := fun package w => (ExportEnd lib command.source cache identity w ∧
      cache'.sourceIdentity = some identity) ∧ packageTree w = package)
    (Prog.safe_look fun w hw => ⟨hw, rfl⟩) fun package => ?_
  refine Prog.Safe.bind (R := fun providers w => (ExportEnd lib command.source cache identity w ∧
      cache'.sourceIdentity = some identity) ∧ ∀ inst, ¬ Offers providers sourceOutput inst)
    (Prog.safe_lift ?_ fun w hw => hw.1.1.kept) fun providers => ?_
  · rintro providers hload w ⟨hw, rfl⟩
    obtain ⟨entries, hsource, hentries⟩ := hw.1.source
    obtain ⟨tree, hplace, htree⟩ := hw.1.tree
    refine ⟨hw, hspares entries tree providers hsource (htree.trans hentries.symm) ?_⟩
    simpa [packageTree, show w.place "sources/mountin" = _ from hplace] using hload
  refine Prog.Safe.bind (R := fun _ w => (ExportEnd lib command.source cache identity w ∧
      cache'.sourceIdentity = some identity) ∧ ∀ inst, ¬ Offers providers sourceOutput inst)
    (Prog.safe_lift (fun _ _ w hw => hw) fun w hw => hw.1.1.kept) fun targets => ?_
  split
  · exact Prog.safe_pure fun w hw => hw.1.1.kept
  by_cases hoffers : ∀ inst, ¬ Offers providers sourceOutput inst
  case neg => exact fun w hw => absurd hw.2 hoffers
  by_cases hidentity : cache'.sourceIdentity = some identity
  case neg => exact fun w hw => absurd hw.1.2 hidentity
  refine Prog.Safe.bind ((writeInputs_safe loader package cache').pre fun w hw => hw.1.1)
    fun cache'' => ?_
  refine Prog.Safe.bind (R := fun _ w => SourceMemory lib w w.saved) ?_ fun _ => ?_
  · have hsave : ∀ w, (ExportEnd lib command.source cache identity w ∧
        cache''.sourceIdentity = cache'.sourceIdentity) →
        SourceKept lib ((w.setSaved cache'').setLog { w.log with unsaved := false }) := by
      rintro w ⟨hw, hsame⟩
      refine ⟨hw.kept.exports, fun _ identity' tree hrecorded htree => ?_⟩
      obtain ⟨tree', hplace, htree'⟩ := hw.tree
      have hsource : w.sourceTree = some (.dir tree') := by
        rw [World.sourceTree, hplace]
        rfl
      obtain rfl : tree' = tree := by simpa using hsource.symm.trans htree
      have hnew : some identity = some identity' :=
        (hidentity.symm.trans hsame.symm).trans hrecorded
      rw [htree', Option.some.inj hnew]
    exact Prog.safe_act (fun w hw => ⟨hsave w hw, rfl⟩) fun w hw => hsave w hw
  refine Prog.Safe.bind (R := fun _ => SourceKept lib)
    ((sourceMemory_run henv).runBuild_safe sets targets providers command.context command.force ?_)
    fun success => Prog.safe_pure fun w hw => hw
  intro build_dir graph hgraph p o ho heq
  obtain ⟨inst, hinst⟩ := offers_of_needed hgraph ho
  exact hoffers inst (heq ▸ hinst)

end

/-- The condition on a build: its source does not come back to the identity in the cache file
while the tree of another source waits for it, and its catalogue leaves the source tree alone. -/
def KeepsSource (lib : Library) (loader : Loader) (command : Command) (w : World) : Prop :=
  Advances lib command.source w ∧ SparesSource lib loader command

/-- `hashlib` on the texts of the runs below. -/
def notesLibrary : Library where
  md5 _ := encode "d41d8cd98f00b204e9800998ecf8427e"
  sha256 b := (littleEndian 32 (digest b)).reverse
  stableJson _ := encode "{}"
  follow _ _ _ := none
where
  /-- The digests of the two contents and of the two trees. -/
  digest (b : Bytes) : Nat :=
    if b = encode "1" then 0x6b86b273ff34fce19d6b804eff5a3f5747ada4eaa22f1d49c01e52ddb7875b4b
    else if b = encode "2" then 0xd4735e3a265e16eee03f59718b9b5d03019c07d8b6c51f90da3a666eec13ab35
    else if b.contains 0x6b then 0xa5274cde05804436555ad3f7dd244a03bff7d9189e1da5ffec957631022bd96b
    else 0x13c4da5269e5c7d9598436874e992672a7c1aa23a3881d81fd157812870d2711

/-- A catalogue without providers. -/
def emptyLoader : Loader where
  load _ _ := .ok []
  catalogueText _ := []
  formatText _ := []
  fnmatch _ _ := false

/-- A machine on which no container runs. -/
def idleEnv : Env where
  removing _ := []
  runContainer _ _ := pure false
  podmanBuild _ _ := pure false
  now := 1

theorem idleEnv_lawful : idleEnv.Lawful where
  runContainer stage outputs w c hc := by
    obtain rfl : c = w := by simpa [Prog.stops, idleEnv, pure, Prog.ret] using hc
    exact ⟨c.place, fun _ _ => rfl, rfl⟩
  podmanBuild stage tag w c hc := by
    obtain rfl : c = w := by simpa [Prog.stops, idleEnv, pure, Prog.ret] using hc
    refine ⟨c.images tag, ?_⟩
    have himages : (fun t => if t = tag then c.images tag else c.images t) = c.images := by
      funext t
      split <;> simp_all
    simp only [World.setImage, himages]

/-- An empty build directory. -/
def emptyWorld : World := ⟨fun _ => none, fun _ => none, none, .empty, fun _ => none, {}⟩

/-- A build of a source with one file, for a pattern. -/
def notesCommand (content pattern : String) : Command where
  source := .ok [(["notes"], .file ⟨encode content, 0o644, 0⟩)]
  patterns := [pattern]
  context := []
  force := false

/-- A build to its end. -/
def notesBuild (command : Command) (w : World) : World :=
  (cmdBuild notesLibrary emptyLoader ⟨id, perm_id⟩ idleEnv command w).state

theorem notesBuild_step {ok : Command → World → Prop} {command : Command} {w : World}
    (h : ok command w) : BuildStep notesLibrary emptyLoader ok w (notesBuild command w) :=
  ⟨_, idleEnv, command, idleEnv_lawful, h, Prog.state_mem_stops _ w⟩

theorem sparesSource_emptyLoader (lib : Library) (command : Command) :
    SparesSource lib emptyLoader command := by
  rintro entries tree providers _ _ hload inst ⟨hinst, _⟩
  obtain rfl := Except.ok.inj hload
  simp at hinst

/-- The worlds that the first source, the second one without a target, and the first one again
leave. -/
def returnedNotes : World :=
  notesBuild (notesCommand "1" "image")
    (notesBuild (notesCommand "2" "*") (notesBuild (notesCommand "1" "image") emptyWorld))

theorem returnedNotes_builds : Builds notesLibrary emptyLoader
    (fun command _ => SparesSource notesLibrary emptyLoader command) emptyWorld returnedNotes :=
  ((Relation.ReflTransGen.single (notesBuild_step (sparesSource_emptyLoader _ _))).tail
    (notesBuild_step (sparesSource_emptyLoader _ _))).tail
      (notesBuild_step (sparesSource_emptyLoader _ _))

end Mountin
