import Mountin.Build.Runner

set_option autoImplicit false

/-! # A rule for runs

What `run_build` keeps, stopped anywhere.

* `RunInvariant.runBuild_safe` : an invariant of the world and the cache in memory that every step
  keeps is kept by a run.
* `Env.Lawful` : what the build relies on.
* `containerStep_frame` : a container run as an invariant sees it that does not look at the
  outputs.
-/

namespace Mountin

/-- What the build relies on: a container writes the outputs that it is asked for and nothing
else, and `podman build` changes no image but the one of its tag. -/
structure Env.Lawful (env : Env) : Prop where
  runContainer : ∀ stage outputs w, ∀ c ∈ (env.runContainer stage outputs).stops w,
    ∃ place, (∀ o, o ∉ outputs → place o = w.place o) ∧ c = { w with place := place }
  podmanBuild : ∀ stage tag w, ∀ c ∈ (env.podmanBuild stage tag).stops w,
    ∃ image, c = w.setImage tag image

/-! ## The rule -/

/-- What has to be shown for an invariant `J` of the world and the cache in memory, and a
condition `C` on the states in which a run may stop, so that a run whose dirty outputs are all
`allowed` keeps them. -/
structure RunInvariant (lib : Library) (env : Env) (allowed : String → Prop)
    (J : World → Cache → Prop) (C : World → Prop) : Prop where
  stop : ∀ w cache, J w cache → C w
  hashed : ∀ w cache path m dep_hashes context hash cache', J w cache →
    hashPathInputs lib path ((contextTree w path).files lib) m dep_hashes w.place context cache =
      .ok (hash, cache') →
    J (w.setLog { w.log with hashings :=
      ⟨path, (contextTree w path).files lib, hash⟩ :: w.log.hashings }) cache'
  dirty : ∀ w cache output input_hash requires cache', J w cache →
    isOutputDirty lib w.place output input_hash requires cache = (true, cache') → J w cache'
  clean : ∀ w cache output input_hash requires cache' entry, J w cache →
    isOutputDirty lib w.place output input_hash requires cache = (false, cache') →
    w.place output = some entry →
    J (w.setLog { w.log with clean :=
      ⟨output, (hashOutputInputs lib input_hash requires w.place cache).1, entry⟩ :: w.log.clean })
      cache'
  image : ∀ w cache platform tag id hash, J w cache →
    J (w.setSaved (updateImageHash cache platform tag id hash))
      (updateImageHash cache platform tag id hash)
  podman : ∀ cache stage tag,
    (env.podmanBuild stage tag).Safe (fun w => J w cache) (fun _ w => J w cache) C
  container : ∀ stage m input_hash file_outputs dirty memory, (∀ o ∈ dirty, allowed o) →
    (containerStep lib env stage m input_hash file_outputs dirty memory).Safe
      (fun w => J w memory.cache) (fun r w => match r with
        | some memory => J w memory.cache
        | none => C w) C

namespace RunInvariant

variable {lib : Library} {env : Env} {allowed : String → Prop} {J : World → Cache → Prop}
  {C : World → Prop}

/-- A clean check needs something at the place. -/
theorem isSome_of_clean {places : Places} {output : String} {input_hash : Bytes}
    {requires : List String} {cache cache' : Cache}
    (h : isOutputDirty lib places output input_hash requires cache = (false, cache')) :
    ∃ entry, places output = some entry := by
  unfold isOutputDirty at h
  cases hplace : places output with
  | none => simp [hplace] at h
  | some entry => exact ⟨entry, rfl⟩

theorem dirtyOutputs_safe (h : RunInvariant lib env allowed J C) (m : Metadata)
    (input_hash : Bytes) (outputs : List String) (cache : Cache) :
    (dirtyOutputs lib m input_hash outputs cache).Safe (fun w => J w cache)
      (fun r w => J w r.2 ∧ ∀ o ∈ r.1, o ∈ outputs) C := by
  induction outputs generalizing cache with
  | nil => exact Prog.safe_pure fun w hw => ⟨hw, by simp⟩
  | cons output rest ih =>
      refine Prog.Safe.bind (Prog.safe_lift (fun _ _ _ hw => hw) fun w hw => h.stop w cache hw) ?_
      intro requires
      refine Prog.Safe.bind (R := fun place w => J w cache ∧ place = w.place)
        (Prog.safe_look fun w hw => ⟨hw, rfl⟩) ?_
      intro place
      cases hcheck : isOutputDirty lib place output input_hash requires cache with
      | mk dirty cache' =>
        cases dirty with
        | true =>
            simp only [if_true]
            refine Prog.Safe.bind (R := fun r w => J w r.2 ∧ ∀ o ∈ r.1, o ∈ rest)
              ((ih cache').pre ?_) fun r => Prog.safe_pure fun w hw => ⟨hw.1, ?_⟩
            · rintro w ⟨hw, rfl⟩
              exact h.dirty w cache output input_hash requires cache' hw hcheck
            · rw [List.forall_mem_cons]
              exact ⟨List.mem_cons_self, fun o ho => List.mem_cons_of_mem _ (hw.2 o ho)⟩
        | false =>
            simp only [if_false, Bool.false_eq_true]
            obtain ⟨entry, hentry⟩ := isSome_of_clean hcheck
            refine Prog.Safe.bind (R := fun _ w => J w cache') ?_ fun _ =>
              (ih cache').post fun r w hw => ⟨hw.1, fun o ho => List.mem_cons_of_mem _ (hw.2 o ho)⟩
            simp only [dirtyOutputs.noteClean, hentry]
            have hnote : ∀ w, (J w cache ∧ place = w.place) → J (w.setLog { w.log with clean :=
                ⟨output, (hashOutputInputs lib input_hash requires place cache).1, entry⟩ ::
                  w.log.clean }) cache' := by
              rintro w ⟨hw, rfl⟩
              exact h.clean w cache output input_hash requires cache' entry hw hcheck hentry
            exact Prog.safe_act hnote fun w hw => h.stop _ _ (hnote w hw)

theorem imageStep_safe (h : RunInvariant lib env allowed J C) (platform stage tag : String)
    (force : Bool) (input_hash : Bytes) (cache : Cache) :
    (imageStep env platform stage tag force input_hash cache).Safe (fun w => J w cache)
      (fun r w => match r with
        | some cache => J w cache
        | none => C w) C := by
  have hsave : ∀ id cache, (saveCache (updateImageHash cache platform tag id input_hash)).Safe
      (fun w => J w cache) (fun _ w => J w (updateImageHash cache platform tag id input_hash)) C :=
    fun id cache => Prog.safe_act (fun w hw => h.image w cache platform tag id input_hash hw)
      fun w hw => h.stop _ _ (h.image w cache platform tag id input_hash hw)
  have hrebuild : ∀ cache, (imageStep.rebuild env platform stage tag input_hash cache).Safe
      (fun w => J w cache) (fun r w => match r with
        | some cache => J w cache
        | none => C w) C := by
    intro cache
    refine Prog.Safe.bind (R := fun _ w => J w cache) ?_ ?_
    · refine (h.podman cache stage tag).bind fun built => ?_
      cases built with
      | true => exact Prog.safe_look fun w hw => hw
      | false => exact Prog.safe_pure fun w hw => hw
    · intro built
      cases built with
      | none => exact Prog.safe_pure fun w hw => h.stop w cache hw
      | some id => exact (hsave id cache).bind fun _ => Prog.safe_pure fun w hw => hw
  refine Prog.Safe.bind (R := fun _ w => J w cache) (Prog.safe_look fun w hw => hw) fun image_id => ?_
  refine Prog.Safe.bind (R := fun _ w => J w cache) (Prog.safe_look fun w hw => hw) fun label => ?_
  cases image_id with
  | none => exact hrebuild cache
  | some id =>
      dsimp only
      split
      · refine (hsave id cache).bind fun _ => ?_
        split
        · exact Prog.safe_pure fun w hw => hw
        · exact hrebuild _
      · split
        · exact Prog.safe_pure fun w hw => hw
        · exact hrebuild cache

theorem outputStep_safe (h : RunInvariant lib env allowed J C) (stage : String) (m : Metadata)
    (input_hash : Bytes) (file_outputs needed : List String) (hneeded : ∀ o ∈ needed, allowed o)
    (force : Bool) (memory : Memory) :
    (outputStep lib env stage m input_hash file_outputs needed force memory).Safe
      (fun w => J w memory.cache) (fun r w => match r with
        | some memory => J w memory.cache
        | none => C w) C := by
  refine Prog.Safe.bind
    (R := fun (r : List String × Cache) w => J w r.2 ∧ ∀ o ∈ r.1, o ∈ needed) ?_ ?_
  · unfold outputsToBuild
    split
    · exact Prog.safe_pure fun w hw => ⟨hw, fun o ho => ho⟩
    · exact h.dirtyOutputs_safe m input_hash needed memory.cache
  · rintro ⟨dirty, cache⟩
    dsimp only
    split
    · refine Prog.Safe.bind (R := fun _ w => J w cache) (Prog.safe_look fun w hw => hw.1) fun _ => ?_
      exact Prog.safe_pure fun w hw => hw
    · intro w hw
      exact h.container stage m input_hash file_outputs dirty ⟨cache, memory.dep_hashes⟩
        (fun o ho => hneeded o (hw.2 o ho)) w hw.1

theorem runRecord_safe (h : RunInvariant lib env allowed J C) (context : Dict String String)
    (force : Bool) (instance_id : String) (record : Record) (provides needed : List String)
    (hneeded : ∀ o ∈ needed, allowed o) (memory : Memory) :
    (runRecord lib env context force instance_id record provides needed memory).Safe
      (fun w => J w memory.cache) (fun r w => match r with
        | some memory => J w memory.cache
        | none => C w) C := by
  have hstop : ∀ w, J w memory.cache → C w := fun w hw => h.stop w _ hw
  refine Prog.Safe.bind (R := fun _ w => J w memory.cache) (Prog.safe_look fun w hw => hw)
    fun dockerfile => ?_
  refine Prog.Safe.bind (R := fun _ w => J w memory.cache)
    (Prog.safe_lift (fun _ _ w hw => hw) hstop) fun runs_on_tag => ?_
  refine Prog.Safe.bind (R := fun _ w => J w memory.cache)
    (Prog.safe_lift (fun _ _ w hw => hw) hstop) fun _ => ?_
  refine Prog.Safe.bind (R := fun r w => J w r.2) ?_ ?_
  · refine Prog.Safe.bind (R := fun world w => J w memory.cache ∧ world = w)
      (Prog.safe_look fun w hw => ⟨hw, rfl⟩) fun world => ?_
    refine Prog.Safe.bind (R := fun r w => J (w.setLog { w.log with hashings :=
        ⟨record.inst.provider, (contextTree world record.inst.provider).files lib, r.1⟩ ::
          w.log.hashings }) r.2) (Prog.safe_lift ?_ ?_) ?_
    · rintro ⟨hash, cache'⟩ hr w ⟨hw, rfl⟩
      exact h.hashed world memory.cache _ _ _ _ hash cache' hw hr
    · exact fun w hw => hstop w hw.1
    · rintro ⟨hash, cache'⟩
      refine Prog.Safe.bind (R := fun _ w => J w cache')
        (Prog.safe_act (fun w hw => hw) fun w hw => h.stop _ _ hw) fun _ => ?_
      exact Prog.safe_pure fun w hw => hw
  · rintro ⟨input_hash, cache⟩
    dsimp only
    refine Prog.Safe.bind (R := fun _ w => J w cache)
      (Prog.safe_lift (fun _ _ w hw => hw) fun w hw => h.stop w cache hw) fun platform => ?_
    split
    · exact Prog.safe_pure fun w hw => h.stop w cache hw
    · refine Prog.Safe.bind (R := fun r w => match r with
        | some cache => J w cache
        | none => C w) ?_ ?_
      · unfold instanceImage
        split
        · exact h.imageStep_safe _ _ _ _ _ _
        · exact Prog.safe_pure fun w hw => hw
      · intro image
        cases image with
        | none => exact Prog.safe_pure fun w hw => hw
        | some cache =>
            dsimp only
            split
            · exact Prog.safe_pure fun w hw => hw
            · have hfile : ∀ o ∈ getFileProvides needed, allowed o := fun o ho =>
                hneeded o (List.mem_filter.mp ho).1
              exact h.outputStep_safe _ _ _ _ _ hfile _ ⟨cache, _⟩

theorem runInstance_safe (h : RunInvariant lib env allowed J C) (sets : SetOrder)
    (graph : BuildGraph) (context : Dict String String) (force : Bool) (instance_id : String)
    (hneeded : ∀ o ∈ graph.needed.getD instance_id [], allowed o) (memory : Memory) :
    (runInstance lib env sets graph context force instance_id memory).Safe
      (fun w => J w memory.cache) (fun r w => match r with
        | some memory => J w memory.cache
        | none => C w) C := by
  unfold runInstance
  cases graph.nodes.get? instance_id with
  | none => exact Prog.safe_raise fun w hw => h.stop w _ hw
  | some record =>
      refine Prog.Safe.bind (R := fun _ w => J w memory.cache)
        (Prog.safe_lift (fun _ _ w hw => hw) fun w hw => h.stop w _ hw) fun provides => ?_
      split
      · exact Prog.safe_pure fun w hw => hw
      · refine h.runRecord_safe _ _ _ _ _ _ (fun o ho => ?_) _
        exact hneeded o ((sets.perm _).mem_iff.mp ho)

/-- **A run keeps its invariant**, and stops only where `C` holds. -/
theorem runBuild_safe (h : RunInvariant lib env allowed J C) (sets : SetOrder)
    (targets : List String) (providers : List (List Instance)) (context : Dict String String)
    (force : Bool)
    (hallowed : ∀ build_dir graph, buildGraph sets targets providers context build_dir = .ok graph →
      ∀ p, ∀ o ∈ graph.needed.getD p [], allowed o) :
    (runBuild lib env sets targets providers context force).Safe (fun w => J w w.saved)
      (fun _ w => C w) C := by
  refine Prog.Safe.bind (R := fun _ w => J w w.saved) (Prog.safe_look fun w hw => hw)
    fun build_dir => ?_
  refine Prog.Safe.bind (R := fun graph w => J w w.saved ∧
      buildGraph sets targets providers context build_dir = .ok graph)
    (Prog.safe_lift (fun graph hgraph w hw => ⟨hw, hgraph⟩) fun w hw => h.stop w _ hw) fun graph => ?_
  refine Prog.safe_of_and fun hgraph => ?_
  refine Prog.Safe.bind (R := fun cache w => J w cache) (Prog.safe_look fun w hw => hw)
    fun cache => ?_
  suffices hloop : ∀ order memory, (runInstances lib env sets graph context force order memory).Safe
      (fun w => J w memory.cache) (fun _ w => C w) C from hloop graph.order ⟨cache, []⟩
  intro order
  induction order with
  | nil => exact fun memory => Prog.safe_pure fun w hw => h.stop w _ hw
  | cons instance_id rest ih =>
      intro memory
      refine (h.runInstance_safe sets graph context force instance_id
        (hallowed build_dir graph hgraph instance_id) memory).bind fun step => ?_
      cases step with
      | none => exact Prog.safe_pure fun w hw => hw
      | some memory => exact ih memory

end RunInvariant

/-! ## Transactions that an invariant does not see -/

section Frame

variable {env : Env} {K C : World → Prop}

theorem removeEntry_frame {put : Option Entry → World → World} (hput : ∀ e w, K w → K (put e w))
    (hstop : ∀ w, K w → C w) (entry : Option Entry) :
    (removeEntry env put entry).Safe K (fun _ => K) C := by
  have hact : ∀ e, (Prog.act (put e) : Build Unit).Safe K (fun _ => K) C := fun e =>
    Prog.safe_act (hput e) fun w hw => hstop _ (hput e w hw)
  cases entry with
  | none => exact Prog.safe_ret fun w hw => hw
  | some entry =>
      cases entry with
      | file f => exact hact none
      | dir tree => exact (Prog.safe_each fun rest _ => hact (some (.dir rest))).bind fun _ => hact none

/-- What the operations on an output and its backup do not change. -/
structure KeepsOutput (K : World → Prop) (output : String) : Prop where
  place : ∀ w entry, K w → K (w.setPlace output entry)
  previous : ∀ w entry, K w → K (w.setPrevious output entry)

variable {output : String}

theorem removePlace_frame (h : ∀ w entry, K w → K (w.setPlace output entry))
    (hstop : ∀ w, K w → C w) : (removePlace env output).Safe K (fun _ => K) C :=
  Prog.Safe.bind (R := fun _ => K) (Prog.safe_look fun _ hw => hw) fun entry =>
    removeEntry_frame (fun e w hw => h w e hw) hstop entry

theorem removePrevious_frame (h : ∀ w entry, K w → K (w.setPrevious output entry))
    (hstop : ∀ w, K w → C w) : (removePrevious env output).Safe K (fun _ => K) C :=
  Prog.Safe.bind (R := fun _ => K) (Prog.safe_look fun _ hw => hw) fun entry =>
    removeEntry_frame (fun e w hw => h w e hw) hstop entry

theorem fromBackup_frame (h : KeepsOutput K output) (hstop : ∀ w, K w → C w) :
    (Prog.act fun w => w.fromBackup output : Build Unit).Safe K (fun _ => K) C :=
  have hfrom : ∀ w, K w → K (w.fromBackup output) := fun _ hw =>
    h.previous _ _ (h.place _ _ hw)
  Prog.safe_act hfrom fun w hw => hstop _ (hfrom w hw)

theorem toBackup_frame (h : KeepsOutput K output) (hstop : ∀ w, K w → C w) :
    (Prog.act fun w => w.toBackup output : Build Unit).Safe K (fun _ => K) C :=
  have hto : ∀ w, K w → K (w.toBackup output) := fun _ hw => h.place _ _ (h.previous _ _ hw)
  Prog.safe_act hto fun w hw => hstop _ (hto w hw)

theorem beginOutputTransaction_frame {outputs : List String}
    (h : ∀ o ∈ outputs, KeepsOutput K o) (hstop : ∀ w, K w → C w) :
    (beginOutputTransaction env outputs).Safe K (fun _ => K) C := by
  induction outputs with
  | nil => exact Prog.safe_pure fun w hw => hw
  | cons output rest ih =>
      rw [List.forall_mem_cons] at h
      refine Prog.Safe.bind (R := fun _ => K) ?_ fun _ => ?_
      · refine Prog.Safe.bind (R := fun _ => K) (Prog.safe_look fun w hw => hw) fun backup => ?_
        split
        · exact (removePlace_frame h.1.place hstop).bind fun _ => fromBackup_frame h.1 hstop
        · exact Prog.safe_pure fun w hw => hw
      refine Prog.Safe.bind (R := fun _ => K) ?_ fun moved => ?_
      · refine Prog.Safe.bind (R := fun _ => K) (Prog.safe_look fun w hw => hw) fun path => ?_
        split
        · exact (toBackup_frame h.1 hstop).bind fun _ => Prog.safe_pure fun w hw => hw
        · exact Prog.safe_pure fun w hw => hw
      exact (ih h.2).bind fun _ => Prog.safe_pure fun w hw => hw

theorem finishOutputTransaction_frame {outputs : List String}
    (h : ∀ o ∈ outputs, KeepsOutput K o) (hstop : ∀ w, K w → C w) (backups : List String)
    (success : Bool) :
    (finishOutputTransaction env outputs backups success).Safe K (fun _ => K) C := by
  refine Prog.safe_each fun output ho => ?_
  refine Prog.Safe.bind (R := fun _ => K) (Prog.safe_look fun w hw => hw) fun backup => ?_
  split
  · split
    · exact removePrevious_frame (h output ho).previous hstop
    · exact Prog.safe_pure fun w hw => hw
  · refine Prog.Safe.bind (R := fun _ => K) (removePlace_frame (h output ho).place hstop) fun _ => ?_
    split
    · exact fromBackup_frame (h output ho) hstop
    · exact Prog.safe_pure fun w hw => hw

end Frame

/-- An invariant of the world and the cache in memory that a container run for `allowed` outputs
keeps, step by step. -/
structure ContainerFrame (lib : Library) (env : Env) (allowed : String → Prop)
    (J : World → Cache → Prop) : Prop where
  keeps : ∀ cache output, allowed output → KeepsOutput (fun w => J w cache) output
  log : ∀ w cache log, log.hashings = w.log.hashings → log.exports = w.log.exports →
    log.unsaved = w.log.unsaved → J w cache → J (w.setLog log) cache
  run : ∀ cache stage outputs, (∀ o ∈ outputs, allowed o) →
    (env.runContainer stage outputs).Safe (fun w => J w cache) (fun _ w => J w cache)
      (fun w => J w cache)
  update : ∀ w cache output input_hash requires cache', allowed output → J w cache →
    updateOutputHash lib w.place output input_hash requires cache = .ok cache' → J w cache'
  save : ∀ w cache, J w cache → J (w.setSaved cache) cache

theorem recordOutputs_frame {lib : Library} {env : Env} {allowed : String → Prop}
    {J : World → Cache → Prop} {C : World → Prop} (h : ContainerFrame lib env allowed J)
    (hstop : ∀ w cache, J w cache → C w) (m : Metadata) (input_hash : Bytes) (outputs : List String)
    (hallowed : ∀ o ∈ outputs, allowed o) (cache : Cache) :
    (recordOutputs lib m input_hash outputs cache).Safe (fun w => J w cache)
      (fun cache w => J w cache) C := by
  induction outputs generalizing cache with
  | nil => exact Prog.safe_pure fun w hw => hw
  | cons output rest ih =>
      rw [List.forall_mem_cons] at hallowed
      refine Prog.Safe.bind (R := fun _ w => J w cache)
        (Prog.safe_lift (fun _ _ w hw => hw) fun w hw => hstop w _ hw) fun requires => ?_
      refine Prog.Safe.bind (R := fun place w => J w cache ∧ place = w.place)
        (Prog.safe_look fun w hw => ⟨hw, rfl⟩) fun place => ?_
      refine Prog.Safe.bind (R := fun cache' w => J w cache') (Prog.safe_lift ?_ ?_) fun cache' => ?_
      · rintro cache' hcache' w ⟨hw, rfl⟩
        exact h.update w cache output input_hash requires cache' hallowed.1 hw hcache'
      · exact fun w hw => hstop w _ hw.1
      refine Prog.Safe.bind (R := fun _ w => J w cache') ?_ fun _ => ih hallowed.2 cache'
      unfold recordOutputs.noteCompleted
      split
      · have hnote : ∀ w completed, J w cache' → J (w.setLog { w.log with completed := completed })
            cache' := fun w completed hw => h.log w cache' _ rfl rfl rfl hw
        exact Prog.safe_act (fun w hw => hnote w _ hw) fun w hw => hstop _ _ (hnote w _ hw)
      · exact Prog.safe_pure fun w hw => hw

theorem containerStep_frame {lib : Library} {env : Env} {allowed : String → Prop}
    {J : World → Cache → Prop} {C : World → Prop} (h : ContainerFrame lib env allowed J)
    (hstop : ∀ w cache, J w cache → C w) (stage : String) (m : Metadata) (input_hash : Bytes)
    (file_outputs dirty : List String) (memory : Memory) (hallowed : ∀ o ∈ dirty, allowed o) :
    (containerStep lib env stage m input_hash file_outputs dirty memory).Safe
      (fun w => J w memory.cache) (fun r w => match r with
        | some memory => J w memory.cache
        | none => C w) C := by
  have hkeeps : ∀ cache, ∀ o ∈ dirty, KeepsOutput (fun w => J w cache) o := fun cache o ho =>
    h.keeps cache o (hallowed o ho)
  have hstop' : ∀ cache w, J w cache → C w := fun cache w hw => hstop w cache hw
  have hworking : ∀ cache w working, J w cache →
      J (w.setLog { w.log with working := working }) cache :=
    fun cache w working hw => h.log w cache _ rfl rfl rfl hw
  refine Prog.Safe.bind (R := fun _ w => J w memory.cache) (Prog.safe_act
    (fun w hw => hworking _ w _ hw) fun w hw => hstop _ _ (hworking _ w _ hw)) fun _ => ?_
  refine Prog.Safe.bind (R := fun _ w => J w memory.cache)
    (beginOutputTransaction_frame (hkeeps _) (hstop' _)) fun backups => ?_
  refine Prog.Safe.bind ((h.run memory.cache stage dirty hallowed).stop (hstop' _)) fun success => ?_
  refine Prog.Safe.bind (R := fun _ w => J w memory.cache) (Prog.safe_look fun w hw => hw)
    fun place => ?_
  split
  · refine Prog.Safe.bind (R := fun _ w => J w memory.cache)
      (finishOutputTransaction_frame (hkeeps _) (hstop' _) backups false) fun _ => ?_
    refine Prog.Safe.bind (R := fun _ w => J w memory.cache) (Prog.safe_act
      (fun w hw => hworking _ w _ hw) fun w hw => hstop _ _ (hworking _ w _ hw)) fun _ => ?_
    exact Prog.safe_pure fun w hw => hstop _ _ hw
  · refine Prog.Safe.bind (R := fun _ w => J w memory.cache)
      (finishOutputTransaction_frame (hkeeps _) (hstop' _) backups true) fun _ => ?_
    refine Prog.Safe.bind (R := fun cache w => J w cache)
      (recordOutputs_frame h hstop m input_hash dirty hallowed memory.cache) fun cache => ?_
    refine Prog.Safe.bind (R := fun _ w => J w cache) (Prog.safe_look fun w hw => hw) fun place => ?_
    have hsave : ∀ w, J w cache →
        J ((w.setSaved cache).setLog { w.log with working := [] }) cache := fun w hw =>
      h.log _ cache _ rfl rfl rfl (h.save w cache hw)
    refine Prog.Safe.bind (R := fun _ w => J w cache)
      (Prog.safe_act hsave fun w hw => hstop _ _ (hsave w hw)) fun _ => ?_
    exact Prog.safe_pure fun w hw => hw

end Mountin
