import Mountin.Build.Identity

set_option autoImplicit false

/-! # What a successful run has built

`run_build` returns true when no turn of its loop fails. What that says about the targets
depends on the turns: an output is looked at in the turn of its provider's variant, and of the
images of a variant only the first one is built.

* `turns` : the turns of a run, each with the world and the memory that it starts from.
* `Kept` : the invariant, what the turns that are done have left.
* `runBuild_delivers` : the targets of a run that returns true.
-/

namespace Mountin

/-- The names that a variant provides. -/
def Record.provides (record : Record) : List String :=
  (keysOf record.inst.metadata "provides").toOption.getD []

/-- The tag that the image of a variant gets. -/
def Record.tag (lib : Library) (record : Record) : String :=
  (getDockerProvides record.provides).head?.getD
    (localImageTag lib record.inst.provider record.inst.output_platform)

/-! ## The turns of a run -/

/-- A turn of the loop: the variant, and what the turn starts from. -/
structure Turn where
  instance_id : String
  record : Record
  world : World
  memory : Memory

/-- The turns over an order, up to the one that fails. -/
def turns (lib : Library) (env : Env) (sets : SetOrder) (graph : BuildGraph)
    (context : Dict String String) (force : Bool) : List String → Memory → World → List Turn
  | [], _, _ => []
  | instance_id :: rest, memory, w =>
    match graph.nodes.get? instance_id with
    | none => []
    | some record =>
        let course := runInstance lib env sets graph context force instance_id memory w
        ⟨instance_id, record, w, memory⟩ ::
          match course.result with
          | .ok (some memory) => turns lib env sets graph context force rest memory course.state
          | _ => []

namespace Turn

/-- The input hash that the turn computes, of the files and hashes that it starts from. -/
def inputHash (lib : Library) (t : Turn) : Except Raised (Bytes × Cache) :=
  hashPathInputs lib t.record.inst.provider ((contextTree t.world t.record.inst.provider).files lib)
    t.record.inst.metadata t.memory.dep_hashes t.world.place t.record.inst.context t.memory.cache

/-- A file at a place during a turn that writes `own` outputs. -/
def HasFile (lib : Library) (t : Turn) (own : List String) (key : FileKey) (f : File) : Prop :=
  ∃ places, (∀ o, o ∉ own → places o = t.world.place o) ∧ FileAt lib places key f

/-- What a turn does to the cache: it hashes files, and sets records of its outputs and of
images. -/
def Renewed (lib : Library) (t : Turn) (own : List String) : Cache → Cache → Prop :=
  Relation.ReflTransGen fun cache cache' =>
    (∃ key f, t.HasFile lib own key f ∧ cache' = (hashFile lib f key cache).2) ∨
    (∃ o ∈ own, ∃ cached, cache' = { cache with outputs := cache.outputs.set o cached }) ∨
    ∃ images, cache' = { cache with images := images }

/-- A moment of a turn after the input hash: only its own outputs have changed. -/
structure During (lib : Library) (t : Turn) (own : List String) (start : Cache) (w : World)
    (cache : Cache) : Prop where
  place : ∀ o, o ∉ own → w.place o = t.world.place o
  renewed : t.Renewed lib own start cache

/-- A record of an output holds the input hash of the turn, with what the output requires. -/
def Recorded (lib : Library) (t : Turn) (own : List String) (output : String)
    (cached : OutputEntry) : Prop :=
  ∃ input_hash start requires w cache, t.inputHash lib = .ok (input_hash, start) ∧
    getOutputRequires t.record.inst.metadata output = .ok requires ∧
    t.During lib own start w cache ∧
    cached.input_hash = (hashOutputInputs lib input_hash requires w.place cache).1

/-- A file output that is there, recorded with the input hash of the turn. -/
structure Output (lib : Library) (t : Turn) (own : List String) (place : Places)
    (outputs : Dict String OutputEntry) (output : String) : Prop where
  isSome : (place output).isSome
  recorded : ∃ cached, outputs.get? output = some cached ∧ t.Recorded lib own output cached

/-- An image that is there, recorded with the input hash of the turn. -/
def Image (lib : Library) (context : Dict String String) (t : Turn) (w : World)
    (images : Dict (String × String × String) Bytes) (tag : String) : Prop :=
  ∃ image platform input_hash start, w.images tag = some image ∧ image.id.isEmpty = false ∧
    buildPlatform context = .ok platform ∧ t.inputHash lib = .ok (input_hash, start) ∧
    images.get? (platform, tag, image.id) = some input_hash

end Turn

/-- No other variant of the order builds an image under the tag of the turn. -/
def BuildGraph.Alone (lib : Library) (graph : BuildGraph) (instance_id : String)
    (record : Record) : Prop :=
  ∀ q ∈ graph.order, q ≠ instance_id → ∀ other, graph.nodes.get? q = some other →
    other.tag lib ≠ record.tag lib

/-- What the turns that are done have left. -/
structure Kept (lib : Library) (context : Dict String String) (graph : BuildGraph)
    (done : List Turn) (w : World) (cache : Cache) : Prop where
  output : ∀ t ∈ done, getFileProvides t.record.provides ≠ [] →
    ∀ o ∈ getFileProvides (graph.needed.getD t.instance_id []),
      t.Output lib (graph.needed.getD t.instance_id []) w.place cache.outputs o
  image : ∀ t ∈ done, getDockerProvides t.record.provides ≠ [] →
    graph.Alone lib t.instance_id t.record →
      t.Image lib context w cache.images (t.record.tag lib)

/-- The cache file has the records of the memory. -/
structure Synced (w : World) (cache : Cache) : Prop where
  outputs : w.saved.outputs = cache.outputs
  images : w.saved.images = cache.images

/-! ## What a turn does not touch -/

section

variable {lib : Library} {context : Dict String String} {graph : BuildGraph} {done : List Turn}
  {t : Turn} {own : List String} {start cache cache' : Cache} {w w' : World}

theorem Turn.During.hashed (h : t.During lib own start w cache)
    (hhashed : Hashed lib (FileAt lib w.place) cache cache') : t.During lib own start w cache' := by
  refine ⟨h.place, h.renewed.trans ?_⟩
  refine Relation.ReflTransGen.mono (fun _ _ hstep => ?_) _ _ hhashed
  obtain ⟨key, f, hf, rfl⟩ := hstep
  exact .inl ⟨key, f, ⟨w.place, h.place, hf⟩, rfl⟩

theorem Turn.During.record (h : t.During lib own start w cache) {output : String} (ho : output ∈ own)
    (cached : OutputEntry) :
    t.During lib own start w { cache with outputs := cache.outputs.set output cached } :=
  ⟨h.place, h.renewed.tail (.inr (.inl ⟨output, ho, cached, rfl⟩))⟩

/-- What the turns that are done have left stays where nothing of theirs changes. -/
theorem Kept.congr (h : Kept lib context graph done w cache)
    (houtput : ∀ t ∈ done, ∀ o ∈ graph.needed.getD t.instance_id [],
      w'.place o = w.place o ∧ cache'.outputs.get? o = cache.outputs.get? o)
    (himage : ∀ t ∈ done, graph.Alone lib t.instance_id t.record →
      w'.images (t.record.tag lib) = w.images (t.record.tag lib) ∧
      ∀ platform id, cache'.images.get? (platform, t.record.tag lib, id) =
        cache.images.get? (platform, t.record.tag lib, id)) :
    Kept lib context graph done w' cache' where
  output t ht hfiles o ho := by
    obtain ⟨hplace, hrecord⟩ := houtput t ht o (List.mem_filter.mp ho).1
    obtain ⟨hsome, cached, hcached, hrecorded⟩ := h.output t ht hfiles o ho
    exact ⟨by rwa [hplace], cached, by rwa [hrecord], hrecorded⟩
  image t ht htags halone := by
    obtain ⟨himages, hhashes⟩ := himage t ht halone
    obtain ⟨image, platform, input_hash, start, himage, hid, hplatform, hhash, hrecord⟩ :=
      h.image t ht htags halone
    exact ⟨image, platform, input_hash, start, by rwa [himages], hid, hplatform, hhash,
      by rwa [hhashes]⟩

/-- A turn that comes after those that are done: its outputs and its image are not theirs. -/
structure Follows (lib : Library) (graph : BuildGraph) (done : List Turn) (t : Turn) : Prop where
  mem : t.instance_id ∈ graph.order
  record : graph.nodes.get? t.instance_id = some t.record
  ne : ∀ t' ∈ done, t'.instance_id ≠ t.instance_id
  disjoint : ∀ p q o, o ∈ graph.needed.getD p [] → o ∈ graph.needed.getD q [] → p = q

theorem Follows.notMem (h : Follows lib graph done t) {t' : Turn} (ht' : t' ∈ done) {o o' : String}
    (ho : o ∈ graph.needed.getD t'.instance_id []) (ho' : o' ∈ graph.needed.getD t.instance_id []) :
    o ≠ o' := by
  rintro rfl
  exact h.ne t' ht' (h.disjoint _ _ o ho ho')

theorem Follows.tag_ne (h : Follows lib graph done t) {t' : Turn} (ht' : t' ∈ done)
    (halone : graph.Alone lib t'.instance_id t'.record) : t'.record.tag lib ≠ t.record.tag lib :=
  (halone _ h.mem (h.ne t' ht').symm _ h.record).symm

/-- A moment of a turn after the input hash, and after its image when that is `built`. -/
structure Moment (lib : Library) (context : Dict String String) (graph : BuildGraph)
    (done : List Turn) (t : Turn) (built : Prop) (start : Cache) (w : World) (cache : Cache) :
    Prop where
  kept : Kept lib context graph done w cache
  image : built → t.Image lib context w cache.images (t.record.tag lib)
  during : t.During lib (graph.needed.getD t.instance_id []) start w cache

namespace Moment

variable {built : Prop} (h : Moment lib context graph done t built start w cache)
include h

theorem log (log : Log) : Moment lib context graph done t built start (w.setLog log) cache :=
  ⟨h.kept.congr (fun _ _ _ _ => ⟨rfl, rfl⟩) fun _ _ _ => ⟨rfl, fun _ _ => rfl⟩, h.image,
    h.during.place, h.during.renewed⟩

theorem save (saved : Cache) : Moment lib context graph done t built start (w.setSaved saved) cache :=
  ⟨h.kept.congr (fun _ _ _ _ => ⟨rfl, rfl⟩) fun _ _ _ => ⟨rfl, fun _ _ => rfl⟩, h.image,
    h.during.place, h.during.renewed⟩

theorem hashed (hhashed : Hashed lib (FileAt lib w.place) cache cache') :
    Moment lib context graph done t built start w cache' where
  kept := h.kept.congr (fun _ _ _ _ => ⟨rfl, by rw [hhashed.outputs]⟩)
    fun _ _ _ => ⟨rfl, fun _ _ => by rw [hhashed.images]⟩
  image := hhashed.images ▸ h.image
  during := h.during.hashed hhashed

theorem previous (output : String) (entry : Option Entry) :
    Moment lib context graph done t built start (w.setPrevious output entry) cache :=
  ⟨h.kept.congr (fun _ _ _ _ => ⟨rfl, rfl⟩) fun _ _ _ => ⟨rfl, fun _ _ => rfl⟩, h.image,
    h.during.place, h.during.renewed⟩

variable (hfollows : Follows lib graph done t)
include hfollows

/-- The turn may change the places of its outputs. -/
theorem places (place : Places)
    (hplace : ∀ o, o ∉ graph.needed.getD t.instance_id [] → place o = w.place o) :
    Moment lib context graph done t built start { w with place := place } cache where
  kept := h.kept.congr (fun t' ht' o ho => ⟨hplace o fun ho' => hfollows.notMem ht' ho ho' rfl, rfl⟩)
    fun _ _ _ => ⟨rfl, fun _ _ => rfl⟩
  image := h.image
  during := ⟨fun o ho => (hplace o ho).trans (h.during.place o ho), h.during.renewed⟩

/-- The turn may record its outputs. -/
theorem record {output : String} (ho : output ∈ graph.needed.getD t.instance_id [])
    (cached : OutputEntry) : Moment lib context graph done t built start w
      { cache with outputs := cache.outputs.set output cached } where
  kept := h.kept.congr (fun t' ht' o ho' => ⟨rfl, by
      rw [Dict.get?_set, if_neg (hfollows.notMem ht' ho' ho).symm]⟩)
    fun _ _ _ => ⟨rfl, fun _ _ => rfl⟩
  image := h.image
  during := h.during.record ho cached

end Moment

/-- The turn may build its image. -/
theorem Moment.setImage (h : Moment lib context graph done t False start w cache)
    (hfollows : Follows lib graph done t) (image : Option ContainerImage) :
    Moment lib context graph done t False start (w.setImage (t.record.tag lib) image) cache where
  kept := h.kept.congr (fun _ _ _ _ => ⟨rfl, rfl⟩)
    fun t' ht' halone => ⟨if_neg (hfollows.tag_ne ht' halone), fun _ _ => rfl⟩
  image := False.elim
  during := ⟨h.during.place, h.during.renewed⟩

/-- The turn may record its image. -/
theorem Moment.imageHash (h : Moment lib context graph done t False start w cache)
    (hfollows : Follows lib graph done t) (platform id : String) (input_hash : Bytes) :
    Moment lib context graph done t False start w
      (updateImageHash cache platform (t.record.tag lib) id input_hash) where
  kept := h.kept.congr (fun _ _ _ _ => ⟨rfl, rfl⟩) fun t' ht' halone => ⟨rfl, fun p i => by
    have hne := hfollows.tag_ne ht' halone
    rw [updateImageHash, Dict.get?_set, if_neg]
    rintro heq
    exact hne (Prod.mk.inj (Prod.mk.inj heq).2).1.symm⟩
  image := False.elim
  during := ⟨h.during.place, h.during.renewed.tail (.inr (.inr ⟨_, rfl⟩))⟩

/-! ## The outputs of a turn -/

theorem Synced.hashed {S : FileKey → File → Prop} (h : Synced w cache)
    (hhashed : Hashed lib S cache cache') : Synced w cache' :=
  ⟨h.outputs.trans hhashed.outputs.symm, h.images.trans hhashed.images.symm⟩

/-- What a check takes for clean is there, and its record has the input hash. -/
theorem isOutputDirty_clean {places : Places} {output : String} {input_hash : Bytes}
    {requires : List String}
    (h : isOutputDirty lib places output input_hash requires cache = (false, cache')) :
    (places output).isSome ∧ ∃ cached, cache.outputs.get? output = some cached ∧
      cached.input_hash = (hashOutputInputs lib input_hash requires places cache).1 := by
  unfold isOutputDirty at h
  cases hplace : places output with
  | none => simp [hplace] at h
  | some entry =>
      cases hcached : cache.outputs.get? output with
      | none => simp [hplace, hcached] at h
      | some cached =>
          refine ⟨rfl, cached, rfl, ?_⟩
          by_contra hne
          simp [hplace, hcached, hne] at h

variable {built : Prop} {input_hash : Bytes}

/-- The checks of some outputs of the turn: those that are not dirty are there, and recorded. -/
theorem dirtyOutputs_delivers (hhash : t.inputHash lib = .ok (input_hash, start)) (place : Places)
    (outputs : List String) (cache : Cache) :
    (dirtyOutputs lib t.record.inst.metadata input_hash outputs cache).Safe
      (fun w => Moment lib context graph done t built start w cache ∧ Synced w cache ∧ w.place = place)
      (fun r w => (Moment lib context graph done t built start w r.2 ∧ Synced w r.2 ∧ w.place = place) ∧
        r.2.outputs = cache.outputs ∧ (∀ o ∈ r.1, o ∈ outputs) ∧ ∀ o ∈ outputs, o ∉ r.1 →
          t.Output lib (graph.needed.getD t.instance_id []) place cache.outputs o)
      (fun _ => True) := by
  induction outputs generalizing cache with
  | nil => exact Prog.safe_pure fun w hw => ⟨hw, rfl, by simp, by simp⟩
  | cons output rest ih =>
      refine Prog.Safe.bind (R := fun requires w =>
          (Moment lib context graph done t built start w cache ∧ Synced w cache ∧ w.place = place) ∧
            getOutputRequires t.record.inst.metadata output = .ok requires)
        (Prog.safe_lift (fun requires hrequires w hw => ⟨hw, hrequires⟩) fun _ _ => trivial) ?_
      intro requires
      refine Prog.Safe.bind (R := fun place' w =>
          ((Moment lib context graph done t built start w cache ∧ Synced w cache ∧ w.place = place) ∧
            getOutputRequires t.record.inst.metadata output = .ok requires) ∧ place' = w.place)
        (Prog.safe_look fun w hw => ⟨hw, rfl⟩) ?_
      intro place'
      have hchecked := isOutputDirty_hashed lib place' output input_hash requires cache
      cases hcheck : isOutputDirty lib place' output input_hash requires cache with
      | mk dirty cache' =>
        rw [hcheck] at hchecked
        have hnext : ∀ w, Moment lib context graph done t built start w cache → Synced w cache →
            place' = w.place → Moment lib context graph done t built start w cache' ∧ Synced w cache' := by
          rintro w hmoment hsynced rfl
          exact ⟨hmoment.hashed hchecked, hsynced.hashed hchecked⟩
        cases dirty with
        | true =>
            simp only [if_true]
            refine Prog.Safe.bind ((ih cache').pre ?_) fun r => Prog.safe_pure fun w hw => ?_
            · rintro w ⟨⟨⟨hmoment, hsynced, rfl⟩, _⟩, rfl⟩
              obtain ⟨hmoment, hsynced⟩ := hnext w hmoment hsynced rfl
              exact ⟨hmoment, hsynced, rfl⟩
            · obtain ⟨hw, houtputs, hsub, hclean⟩ := hw
              refine ⟨hw, houtputs.trans hchecked.outputs, ?_, ?_⟩
              · rw [List.forall_mem_cons]
                exact ⟨List.mem_cons_self, fun o ho => List.mem_cons_of_mem _ (hsub o ho)⟩
              · intro o ho hnot
                rw [List.mem_cons, not_or] at hnot
                have hrest := (List.mem_cons.mp ho).resolve_left hnot.1
                exact hchecked.outputs ▸ hclean o hrest hnot.2
        | false =>
            simp only [if_false, Bool.false_eq_true]
            obtain ⟨hsome, cached, hcached, hinput⟩ := isOutputDirty_clean hcheck
            obtain ⟨entry, hentry⟩ := Option.isSome_iff_exists.mp hsome
            -- the note in the log is the only action of this branch
            refine Prog.Safe.bind (R := fun _ w =>
                (Moment lib context graph done t built start w cache' ∧ Synced w cache' ∧
                  w.place = place) ∧
                t.Output lib (graph.needed.getD t.instance_id []) place cache.outputs output) ?_ ?_
            · simp only [dirtyOutputs.noteClean, hentry]
              refine Prog.safe_act ?_ fun _ _ => trivial
              rintro w ⟨⟨⟨hmoment, hsynced, rfl⟩, hrequires⟩, rfl⟩
              obtain ⟨hmoment', hsynced'⟩ := hnext w hmoment hsynced rfl
              refine ⟨⟨hmoment'.log _, ⟨hsynced'.outputs, hsynced'.images⟩, rfl⟩, hsome, cached,
                hcached, ?_⟩
              exact ⟨input_hash, start, requires, w, cache, hhash, hrequires, hmoment.during, hinput⟩
            · refine fun _ => Prog.safe_of_and fun hhead => (ih cache').post fun r w hw => ?_
              obtain ⟨hw, houtputs, hsub, hclean⟩ := hw
              refine ⟨hw, houtputs.trans hchecked.outputs,
                fun o ho => List.mem_cons_of_mem _ (hsub o ho), fun o ho hnot => ?_⟩
              rcases List.mem_cons.mp ho with rfl | ho
              · exact hhead
              · exact hchecked.outputs ▸ hclean o ho hnot

/-- Recording an output hashes files and sets its record, with the input hash. -/
theorem updateOutputHash_record {places : Places} {output : String} {requires : List String}
    (h : updateOutputHash lib places output input_hash requires cache = .ok cache') :
    ∃ cached cache₁, cached.input_hash = (hashOutputInputs lib input_hash requires places cache).1 ∧
      Hashed lib (FileAt lib places) cache cache₁ ∧
      cache' = { cache₁ with outputs := cache₁.outputs.set output cached } := by
  obtain ⟨full_hash, cache₁, rfl, hhashed, hset⟩ := updateOutputHash_cases lib h
  rcases hset with ⟨tree, _, rfl⟩ | ⟨f, hash, cache₂, hplace, hfile, rfl⟩
  · exact ⟨_, cache₁, rfl, hhashed, rfl⟩
  · refine ⟨_, cache₂, rfl, hhashed.trans ?_, rfl⟩
    have := hashFile_hashed lib (S := FileAt lib places) ⟨output, .inl ⟨hplace, rfl⟩⟩ cache₁
    rwa [hfile] at this

variable (hfollows : Follows lib graph done t)
include hfollows

/-- The records of the outputs that a container has left. -/
theorem recordOutputs_delivers (hhash : t.inputHash lib = .ok (input_hash, start)) (place : Places)
    (outputs : List String) (hown : ∀ o ∈ outputs, o ∈ graph.needed.getD t.instance_id [])
    (hsome : ∀ o ∈ outputs, (place o).isSome) (cache : Cache) :
    (recordOutputs lib t.record.inst.metadata input_hash outputs cache).Safe
      (fun w => Moment lib context graph done t built start w cache ∧ w.place = place)
      (fun cache' w => (Moment lib context graph done t built start w cache' ∧ w.place = place) ∧
        (∀ o, o ∉ outputs → cache'.outputs.get? o = cache.outputs.get? o) ∧
        ∀ o ∈ outputs, t.Output lib (graph.needed.getD t.instance_id []) place cache'.outputs o)
      (fun _ => True) := by
  induction outputs generalizing cache with
  | nil => exact Prog.safe_pure fun w hw => ⟨hw, by simp, by simp⟩
  | cons output rest ih =>
      rw [List.forall_mem_cons] at hown hsome
      refine Prog.Safe.bind (R := fun requires w =>
          (Moment lib context graph done t built start w cache ∧ w.place = place) ∧
            getOutputRequires t.record.inst.metadata output = .ok requires)
        (Prog.safe_lift (fun requires hrequires w hw => ⟨hw, hrequires⟩) fun _ _ => trivial) ?_
      intro requires
      refine Prog.Safe.bind (R := fun place' w =>
          ((Moment lib context graph done t built start w cache ∧ w.place = place) ∧
            getOutputRequires t.record.inst.metadata output = .ok requires) ∧ place' = w.place)
        (Prog.safe_look fun w hw => ⟨hw, rfl⟩) ?_
      intro place'
      refine Prog.Safe.bind (R := fun cache' w =>
          (Moment lib context graph done t built start w cache' ∧ w.place = place) ∧
            (∀ o, o ≠ output → cache'.outputs.get? o = cache.outputs.get? o) ∧
            t.Output lib (graph.needed.getD t.instance_id []) place cache'.outputs output)
        (Prog.safe_lift ?_ fun _ _ => trivial) ?_
      · rintro cache' hupdate w ⟨⟨⟨hmoment, rfl⟩, hrequires⟩, rfl⟩
        obtain ⟨cached, cache₁, hinput, hhashed, rfl⟩ := updateOutputHash_record hupdate
        refine ⟨⟨(hmoment.hashed hhashed).record hfollows hown.1 cached, rfl⟩, fun o ho => ?_,
          hsome.1, cached, Dict.get?_set_self _ _ _, ?_⟩
        · rw [Dict.get?_set_of_ne _ _ ho.symm, hhashed.outputs]
        · exact ⟨input_hash, start, requires, w, cache, hhash, hrequires, hmoment.during, hinput⟩
      · intro cache'
        refine Prog.Safe.bind (R := fun _ w =>
          (Moment lib context graph done t built start w cache' ∧ w.place = place) ∧
            (∀ o, o ≠ output → cache'.outputs.get? o = cache.outputs.get? o) ∧
            t.Output lib (graph.needed.getD t.instance_id []) place cache'.outputs output) ?_ ?_
        · unfold recordOutputs.noteCompleted
          split
          · exact Prog.safe_act (fun w hw => ⟨⟨hw.1.1.log _, hw.1.2⟩, hw.2⟩) fun _ _ => trivial
          · exact Prog.safe_pure fun w hw => hw
        · refine fun _ => Prog.safe_of_and fun hhead => ?_
          refine (ih hown.2 hsome.2 cache').post fun cache'' w hw => ?_
          obtain ⟨hw, hothers, hrest⟩ := hw
          refine ⟨hw, fun o ho => ?_, fun o ho => ?_⟩
          · rw [List.mem_cons, not_or] at ho
            exact (hothers o ho.2).trans (hhead.1 o ho.1)
          · by_cases hmem : o ∈ rest
            · exact hrest o hmem
            · obtain rfl := (List.mem_cons.mp ho).resolve_right hmem
              obtain ⟨hsome', cached, hcached, hrecorded⟩ := hhead.2
              exact ⟨hsome', cached, (hothers o hmem).trans hcached, hrecorded⟩

omit hfollows in
/-- A transaction that ends well leaves the outputs as they are. -/
theorem finishOutputTransaction_success {env : Env} {K C : World → Prop} {outputs : List String}
    (h : ∀ o ∈ outputs, ∀ w entry, K w → K (w.setPrevious o entry)) (hstop : ∀ w, K w → C w)
    (backups : List String) :
    (finishOutputTransaction env outputs backups true).Safe K (fun _ => K) C := by
  refine Prog.safe_each fun output ho => ?_
  refine Prog.Safe.bind (R := fun _ => K) (Prog.safe_look fun w hw => hw) fun backup => ?_
  simp only [if_true]
  split
  · exact removePrevious_frame (h output ho) hstop
  · exact Prog.safe_pure fun w hw => hw

/-- A container run that succeeds has its outputs there, and recorded; the other places and
records are as before. -/
theorem containerStep_delivers {env : Env} (henv : env.Lawful)
    (hhash : t.inputHash lib = .ok (input_hash, start)) (place : Places) (stage : String)
    (file_outputs dirty : List String) (hown : ∀ o ∈ dirty, o ∈ graph.needed.getD t.instance_id [])
    (memory : Memory) :
    (containerStep lib env stage t.record.inst.metadata input_hash file_outputs dirty memory).Safe
      (fun w => Moment lib context graph done t built start w memory.cache ∧ w.place = place)
      (fun r w => ∀ memory', r = some memory' →
        Moment lib context graph done t built start w memory'.cache ∧ Synced w memory'.cache ∧
        (∀ o ∈ dirty, t.Output lib (graph.needed.getD t.instance_id []) w.place
          memory'.cache.outputs o) ∧
        ∀ o, o ∉ dirty → w.place o = place o ∧
          memory'.cache.outputs.get? o = memory.cache.outputs.get? o)
      (fun _ => True) := by
  let K : World → Prop := fun w =>
    Moment lib context graph done t built start w memory.cache ∧ ∀ o, o ∉ dirty → w.place o = place o
  have hplaces : ∀ w places, K w → (∀ o, o ∉ dirty → places o = w.place o) →
      K { w with place := places } := fun w places hw hsame =>
    ⟨hw.1.places hfollows places fun o ho => hsame o fun hmem => ho (hown o hmem),
      fun o ho => (hsame o ho).trans (hw.2 o ho)⟩
  have hprevious : ∀ o ∈ dirty, ∀ w entry, K w → K (w.setPrevious o entry) := fun o _ w entry hw =>
    ⟨hw.1.previous o entry, hw.2⟩
  have hkeeps : ∀ o ∈ dirty, KeepsOutput K o := fun o ho =>
    ⟨fun w entry hw => hplaces w _ hw fun o' ho' =>
      if_neg fun (heq : o' = o) => ho' (heq ▸ ho), hprevious o ho⟩
  have hstop : ∀ w, K w → True := fun _ _ => trivial
  refine Prog.Safe.bind (R := fun _ => K) (Prog.safe_act ?_ fun _ _ => trivial) fun _ => ?_
  · rintro w ⟨hmoment, rfl⟩
    exact ⟨hmoment.log _, fun _ _ => rfl⟩
  refine Prog.Safe.bind (R := fun _ => K) (beginOutputTransaction_frame hkeeps hstop) fun backups => ?_
  refine Prog.Safe.bind (R := fun _ => K) ?_ fun success => ?_
  · -- a container changes the places that it is asked for
    refine (Prog.safe_of_stops (C := K) fun w hw c hc => ?_).stop hstop
    obtain ⟨places, hsame, rfl⟩ := henv.runContainer stage dirty w c hc
    exact hplaces w places hw hsame
  refine Prog.Safe.bind (R := fun places w => K w ∧ places = w.place)
    (Prog.safe_look fun w hw => ⟨hw, rfl⟩) fun places => ?_
  split
  · refine Prog.Safe.bind (R := fun _ _ => True) ?_ fun _ => ?_
    · exact ((finishOutputTransaction_frame hkeeps hstop backups false).weaken
        (fun w hw => hw.1) fun _ _ _ => trivial)
    refine Prog.Safe.bind (R := fun _ _ => True) (Prog.safe_act (fun _ _ => trivial)
      fun _ _ => trivial) fun _ => ?_
    exact Prog.safe_pure fun w _ memory' hnone => by cases hnone
  · rename_i hcreated
    have hsome : ∀ o ∈ dirty, (places o).isSome := by
      intro o ho
      by_contra hnone
      have hmissing : dirty.any fun o => (places o).isNone :=
        List.any_eq_true.mpr ⟨o, ho, by simpa using hnone⟩
      exact hcreated (by rw [hmissing, Bool.or_true])
    refine Prog.Safe.bind (R := fun _ w => K w ∧ places = w.place)
      (finishOutputTransaction_success (fun o ho w entry hw => ⟨hprevious o ho w entry hw.1, hw.2⟩)
        (fun _ _ => trivial) backups) fun _ => ?_
    refine Prog.Safe.pre (P := fun w =>
        (Moment lib context graph done t built start w memory.cache ∧ w.place = places) ∧
          ∀ o, o ∉ dirty → places o = place o) ?_ fun w hw => by
        obtain ⟨hw, rfl⟩ := hw
        exact ⟨⟨hw.1, rfl⟩, hw.2⟩
    refine Prog.safe_of_and fun hsame => ?_
    refine (recordOutputs_delivers hfollows hhash places dirty hown hsome memory.cache).bind
      fun cache => ?_
    refine Prog.safe_of_and fun hrecords => ?_
    refine Prog.Safe.bind (R := fun _ w =>
        Moment lib context graph done t built start w cache ∧ w.place = places)
      (Prog.safe_look fun w hw => hw) fun _ => ?_
    refine Prog.Safe.bind (R := fun _ w =>
        (Moment lib context graph done t built start w cache ∧ w.place = places) ∧ Synced w cache)
      (Prog.safe_act (fun w hw => ⟨⟨(hw.1.save cache).log _, hw.2⟩, rfl, rfl⟩) fun _ _ => trivial)
      fun _ => ?_
    refine Prog.safe_pure ?_
    rintro w ⟨⟨hmoment, rfl⟩, hsynced⟩ memory' hmemory'
    obtain rfl := Option.some.inj hmemory'
    exact ⟨hmoment, hsynced, hrecords.2, fun o ho => ⟨hsame o ho, hrecords.1 o ho⟩⟩

/-- The outputs that the turn looks at: afterwards they are there, and recorded. -/
theorem outputStep_delivers {env : Env} (henv : env.Lawful)
    (hhash : t.inputHash lib = .ok (input_hash, start)) (stage : String)
    (file_outputs needed : List String) (hown : ∀ o ∈ needed, o ∈ graph.needed.getD t.instance_id [])
    (force : Bool) (memory : Memory) :
    (outputStep lib env stage t.record.inst.metadata input_hash file_outputs needed force memory).Safe
      (fun w => Moment lib context graph done t built start w memory.cache ∧ Synced w memory.cache)
      (fun r w => ∀ memory', r = some memory' →
        Moment lib context graph done t built start w memory'.cache ∧ Synced w memory'.cache ∧
        ∀ o ∈ needed, t.Output lib (graph.needed.getD t.instance_id []) w.place
          memory'.cache.outputs o)
      (fun _ => True) := by
  intro w₀ hw₀
  suffices hsafe : (outputStep lib env stage t.record.inst.metadata input_hash file_outputs needed
      force memory).Safe (fun w => Moment lib context graph done t built start w memory.cache ∧
        Synced w memory.cache ∧ w.place = w₀.place) (fun r w => ∀ memory', r = some memory' →
        Moment lib context graph done t built start w memory'.cache ∧ Synced w memory'.cache ∧
        ∀ o ∈ needed, t.Output lib (graph.needed.getD t.instance_id []) w.place
          memory'.cache.outputs o) (fun _ => True) from hsafe w₀ ⟨hw₀.1, hw₀.2, rfl⟩
  refine Prog.Safe.bind (R := fun r w =>
      (Moment lib context graph done t built start w r.2 ∧ Synced w r.2 ∧ w.place = w₀.place) ∧
      (∀ o ∈ r.1, o ∈ needed) ∧ ∀ o ∈ needed, o ∉ r.1 →
        t.Output lib (graph.needed.getD t.instance_id []) w₀.place r.2.outputs o) ?_ ?_
  · unfold outputsToBuild
    split
    · exact Prog.safe_pure fun w hw => ⟨hw, fun o ho => ho, fun o ho hnot => absurd ho hnot⟩
    · refine (dirtyOutputs_delivers hhash w₀.place needed memory.cache).post fun r w hw => ?_
      obtain ⟨hw, houtputs, hsub, hclean⟩ := hw
      exact ⟨hw, hsub, fun o ho hnot => houtputs ▸ hclean o ho hnot⟩
  · rintro ⟨dirty, cache⟩
    dsimp only
    refine Prog.safe_of_and fun hboth => ?_
    obtain ⟨hsub, hclean⟩ := hboth
    split
    · rename_i hempty
      refine Prog.Safe.bind (R := fun _ w => Moment lib context graph done t built start w cache ∧
        Synced w cache ∧ w.place = w₀.place) (Prog.safe_look fun w hw => hw) fun _ => ?_
      refine Prog.safe_pure fun w hw memory' hmemory' => ?_
      obtain rfl := Option.some.inj hmemory'
      refine ⟨hw.1, hw.2.1, fun o ho => ?_⟩
      rw [hw.2.2]
      exact hclean o ho (by simp [List.isEmpty_iff.mp hempty])
    · refine (containerStep_delivers hfollows henv hhash w₀.place stage file_outputs dirty
        (fun o ho => hown o (hsub o ho)) ⟨cache, memory.dep_hashes⟩).weaken
        (fun w hw => ⟨hw.1, hw.2.2⟩) fun r w hw memory' hmemory' => ?_
      obtain ⟨hmoment, hsynced, hdirty, hothers⟩ := hw memory' hmemory'
      refine ⟨hmoment, hsynced, fun o ho => ?_⟩
      by_cases hmem : o ∈ dirty
      · exact hdirty o hmem
      · obtain ⟨hsome, cached, hcached, hrecorded⟩ := hclean o ho hmem
        obtain ⟨hplace, hrecord⟩ := hothers o hmem
        exact ⟨hplace ▸ hsome, cached, hrecord.trans hcached, hrecorded⟩

/-! ## The image of a turn -/

omit hfollows in
/-- An image id that is found belongs to an image that is there. -/
theorem getImageId_found (tag : String) {P : World → Prop} :
    (getImageId tag).Safe P (fun found w => P w ∧ ∀ id, found = some id →
      ∃ image, w.images tag = some image ∧ image.id.isEmpty = false ∧ image.id = id)
      (fun _ => True) := by
  refine Prog.safe_look fun w hw => ⟨hw, fun id hid => ?_⟩
  obtain ⟨image, himage, hid⟩ := Option.bind_eq_some_iff.mp hid
  split at hid
  · exact absurd hid (by simp)
  · rename_i hempty
    exact ⟨image, himage, by simpa using hempty, Option.some.inj hid⟩

/-- The image step leaves the image of the turn, recorded. -/
theorem imageStep_delivers {env : Env} (henv : env.Lawful)
    (hhash : t.inputHash lib = .ok (input_hash, start)) {platform : String}
    (hplatform : buildPlatform context = .ok platform) (stage : String) (force : Bool)
    (cache : Cache) :
    (imageStep env platform stage (t.record.tag lib) force input_hash cache).Safe
      (fun w => Moment lib context graph done t False start w cache ∧ Synced w cache)
      (fun r w => ∀ cache', r = some cache' →
        Moment lib context graph done t False start w cache' ∧ Synced w cache' ∧
          t.Image lib context w cache'.images (t.record.tag lib))
      (fun _ => True) := by
  have hsave : ∀ id cache, (saveCache (updateImageHash cache platform (t.record.tag lib) id
      input_hash)).Safe (fun w => Moment lib context graph done t False start w cache ∧
        ∃ image, w.images (t.record.tag lib) = some image ∧ image.id.isEmpty = false ∧ image.id = id)
      (fun _ w => Moment lib context graph done t False start w
          (updateImageHash cache platform (t.record.tag lib) id input_hash) ∧
        Synced w (updateImageHash cache platform (t.record.tag lib) id input_hash) ∧
        t.Image lib context w (updateImageHash cache platform (t.record.tag lib) id
          input_hash).images (t.record.tag lib)) (fun _ => True) := by
    refine fun id cache => Prog.safe_act ?_ fun _ _ => trivial
    rintro w ⟨hmoment, image, himage, hid, rfl⟩
    exact ⟨(hmoment.imageHash hfollows platform image.id input_hash).save _, ⟨rfl, rfl⟩,
      image, platform, input_hash, start, himage, hid, hplatform, hhash, Dict.get?_set_self _ _ _⟩
  have hrebuild : ∀ cache, (imageStep.rebuild env platform stage (t.record.tag lib) input_hash
      cache).Safe (fun w => Moment lib context graph done t False start w cache) (fun r w =>
        ∀ cache', r = some cache' → Moment lib context graph done t False start w cache' ∧
          Synced w cache' ∧ t.Image lib context w cache'.images (t.record.tag lib))
      (fun _ => True) := by
    intro cache
    refine Prog.Safe.bind (R := fun built w => Moment lib context graph done t False start w cache ∧
      ∀ id, built = some id → ∃ image, w.images (t.record.tag lib) = some image ∧
        image.id.isEmpty = false ∧ image.id = id) ?_ fun built => ?_
    · refine Prog.Safe.bind (R := fun _ w => Moment lib context graph done t False start w cache) ?_
        fun built => ?_
      · -- `podman build` changes the image of its tag
        refine (Prog.safe_of_stops (C := fun w => Moment lib context graph done t False start w cache)
          fun w hw c hc => ?_).stop fun _ _ => trivial
        obtain ⟨image, rfl⟩ := henv.podmanBuild stage (t.record.tag lib) w c hc
        exact hw.setImage hfollows image
      · cases built with
        | true => exact getImageId_found _
        | false => exact Prog.safe_pure fun w hw => ⟨hw, fun id hid => (by cases hid)⟩
    · cases built with
      | none => exact Prog.safe_pure fun w _ cache' hnone => by cases hnone
      | some id =>
          refine ((hsave id cache).pre fun w hw => ⟨hw.1, hw.2 id rfl⟩).bind fun _ => ?_
          exact Prog.safe_pure fun w hw cache' hcache' => Option.some.inj hcache' ▸ hw
  refine (getImageId_found _).bind fun image_id => ?_
  refine Prog.Safe.bind (R := fun _ w =>
      (Moment lib context graph done t False start w cache ∧ Synced w cache) ∧
      ∀ id, image_id = some id → ∃ image, w.images (t.record.tag lib) = some image ∧
        image.id.isEmpty = false ∧ image.id = id) (Prog.safe_look fun w hw => hw) fun label => ?_
  cases image_id with
  | none => exact (hrebuild cache).pre fun w hw => hw.1.1
  | some id =>
      dsimp only
      split
      · refine ((hsave id cache).pre fun w hw => ⟨hw.1.1, hw.2 id rfl⟩).bind fun _ => ?_
        split
        · exact Prog.safe_pure fun w hw cache' hcache' => Option.some.inj hcache' ▸ hw
        · exact (hrebuild _).pre fun w hw => hw.1
      · split
        · rename_i hcurrent
          refine Prog.safe_pure fun w hw cache' hcache' => ?_
          obtain rfl := Option.some.inj hcache'
          obtain ⟨image, himage, hid, rfl⟩ := hw.2 _ rfl
          rw [Bool.and_eq_true, imageIsCurrent, beq_iff_eq] at hcurrent
          exact ⟨hw.1.1, hw.1.2, image, platform, input_hash, start, himage, hid, hplatform, hhash,
            hcurrent.2⟩
        · exact (hrebuild cache).pre fun w hw => hw.1.1

/-! ## A turn, and all turns -/

omit hfollows

/-- The input hash of a turn, from what the turn starts from. -/
theorem inputHash_starts (hkept : Kept lib context graph done t.world t.memory.cache)
    (hsynced : Synced t.world t.memory.cache) :
    (inputHash lib t.record t.memory).Safe (fun w => w = t.world)
      (fun r w => (Moment lib context graph done t False r.2 w r.2 ∧ Synced w r.2) ∧
        t.inputHash lib = .ok r) (fun _ => True) := by
  refine Prog.Safe.bind (R := fun world w => w = t.world ∧ world = w)
    (Prog.safe_look fun w hw => ⟨hw, rfl⟩) fun world => ?_
  refine Prog.Safe.bind (R := fun r w => (w = t.world ∧ world = w) ∧ t.inputHash lib = .ok r)
    (Prog.safe_lift (fun r hr w hw => ⟨hw, ?_⟩) fun _ _ => trivial) ?_
  · obtain ⟨rfl, rfl⟩ := hw
    exact hr
  · rintro ⟨hash, cache⟩
    refine Prog.safe_of_and fun hhash => ?_
    obtain ⟨cache₁, _, hin, hat⟩ := hashPathInputs_hashed lib hhash
    have houtputs : cache.outputs = t.memory.cache.outputs := hat.outputs.trans hin.outputs
    have himages : cache.images = t.memory.cache.images := hat.images.trans hin.images
    refine Prog.Safe.bind (R := fun _ w => Moment lib context graph done t False cache w cache ∧
      Synced w cache) (Prog.safe_act ?_ fun _ _ => trivial) fun _ =>
        Prog.safe_pure fun w hw => ⟨hw, hhash⟩
    rintro w ⟨rfl, rfl⟩
    refine ⟨⟨hkept.congr (fun _ _ _ _ => ⟨rfl, by rw [houtputs]⟩) fun _ _ _ => ⟨rfl, fun _ _ => by
      rw [himages]⟩, False.elim, fun _ _ => rfl, .refl⟩, ?_⟩
    exact ⟨hsynced.outputs.trans houtputs.symm, hsynced.images.trans himages.symm⟩

/-- Providing an image takes a Dockerfile. -/
theorem dockerfile_of_valid {path : String} {docker_tags file_outputs : List String}
    {dockerfile : Bool} {runs_on_tag : Option String}
    (h : validatePathProvides path docker_tags file_outputs dockerfile runs_on_tag = none)
    (htags : docker_tags ≠ []) : dockerfile = true := by
  by_contra hnone
  rw [Bool.not_eq_true] at hnone
  simp [validatePathProvides, hnone, htags] at h

include hfollows in
/-- **One turn** keeps what the turns before it have left, and adds what it is for. -/
theorem runRecord_delivers {env : Env} (henv : env.Lawful)
    (hkept : Kept lib context graph done t.world t.memory.cache)
    (hsynced : Synced t.world t.memory.cache) {provides : List String}
    (hprovides : keysOf t.record.inst.metadata "provides" = .ok provides) {needed : List String}
    (hneeded : ∀ o, o ∈ needed ↔ o ∈ graph.needed.getD t.instance_id []) (force : Bool) :
    (runRecord lib env context force t.instance_id t.record provides needed t.memory).Safe
      (fun w => w = t.world)
      (fun r w => ∀ memory, r = some memory →
        Kept lib context graph (t :: done) w memory.cache ∧ Synced w memory.cache)
      (fun _ => True) := by
  have hrecord : t.record.provides = provides := by rw [Record.provides, hprovides]; rfl
  refine Prog.Safe.bind (R := fun _ w => w = t.world) (Prog.safe_look fun w hw => hw)
    fun dockerfile => ?_
  refine Prog.Safe.bind (R := fun _ w => w = t.world)
    (Prog.safe_lift (fun _ _ w hw => hw) fun _ _ => trivial) fun runs_on_tag => ?_
  refine Prog.Safe.bind (R := fun _ w => w = t.world)
    (Prog.safe_lift (fun _ _ w hw => hw) fun _ _ => trivial) fun _ => ?_
  refine (inputHash_starts hkept hsynced).bind ?_
  rintro ⟨input_hash, start⟩
  refine Prog.safe_of_and fun hhash => ?_
  dsimp only
  refine Prog.Safe.bind (R := fun platform w => (Moment lib context graph done t False start w start ∧
      Synced w start) ∧ buildPlatform context = .ok platform)
    (Prog.safe_lift (fun platform hplatform w hw => ⟨hw, hplatform⟩) fun _ _ => trivial)
    fun platform => Prog.safe_of_and fun hplatform => ?_
  split
  · exact Prog.safe_pure fun w _ memory hnone => by cases hnone
  · rename_i hvalid
    have htag : (getDockerProvides provides).head?.getD
        (localImageTag lib t.record.inst.provider t.record.inst.output_platform) =
          t.record.tag lib := by
      rw [Record.tag, hrecord]
    refine Prog.Safe.bind (R := fun r w => ∀ cache, r = some cache →
      Moment lib context graph done t (dockerfile = true) start w cache ∧ Synced w cache) ?_ ?_
    · unfold instanceImage
      split
      · rename_i hdockerfile
        rw [htag]
        refine (imageStep_delivers hfollows henv hhash hplatform t.instance_id force start).post
          fun r w hw cache hcache => ?_
        obtain ⟨hmoment, hsynced, himage⟩ := hw cache hcache
        exact ⟨⟨hmoment.kept, fun _ => himage, hmoment.during⟩, hsynced⟩
      · rename_i hdockerfile
        refine Prog.safe_pure fun w hw cache hcache => ?_
        obtain rfl := Option.some.inj hcache
        exact ⟨⟨hw.1.kept, fun h => absurd h hdockerfile, hw.1.during⟩, hw.2⟩
    · intro image
      have himage : ∀ {w : World} {cache : Cache},
          Moment lib context graph done t (dockerfile = true) start w cache →
          getDockerProvides t.record.provides ≠ [] →
          t.Image lib context w cache.images (t.record.tag lib) := fun hmoment htags =>
        hmoment.image (dockerfile_of_valid hvalid (hrecord ▸ htags))
      cases image with
      | none => exact Prog.safe_pure fun w _ memory hnone => by cases hnone
      | some cache =>
          dsimp only
          split
          · rename_i hfiles
            refine Prog.safe_pure fun w hw memory hmemory => ?_
            obtain rfl := Option.some.inj hmemory
            obtain ⟨hmoment, hsynced⟩ := hw cache rfl
            refine ⟨⟨?_, ?_⟩, hsynced⟩
            · rw [List.forall_mem_cons]
              refine ⟨fun hne => absurd ?_ hne, hmoment.kept.output⟩
              rw [hrecord]
              exact List.isEmpty_iff.mp hfiles
            · rw [List.forall_mem_cons]
              exact ⟨fun htags _ => himage hmoment htags, hmoment.kept.image⟩
          · have hown : ∀ o ∈ getFileProvides needed, o ∈ graph.needed.getD t.instance_id [] :=
              fun o ho => (hneeded o).mp (List.mem_filter.mp ho).1
            refine (outputStep_delivers hfollows henv hhash t.instance_id _ _ hown force
              ⟨cache, _⟩).weaken (fun w hw => hw cache rfl) fun r w hw memory hmemory => ?_
            obtain ⟨hmoment, hsynced, houtputs⟩ := hw memory hmemory
            refine ⟨⟨?_, ?_⟩, hsynced⟩
            · rw [List.forall_mem_cons]
              refine ⟨fun _ o ho => houtputs o ?_, hmoment.kept.output⟩
              obtain ⟨ho, hfile⟩ := List.mem_filter.mp ho
              exact List.mem_filter.mpr ⟨(hneeded o).mpr ho, hfile⟩
            · rw [List.forall_mem_cons]
              exact ⟨fun htags _ => himage hmoment htags, hmoment.kept.image⟩

include hfollows in
theorem runInstance_delivers {env : Env} (henv : env.Lawful) (sets : SetOrder)
    (hkept : Kept lib context graph done t.world t.memory.cache)
    (hsynced : Synced t.world t.memory.cache) (force : Bool) :
    (runInstance lib env sets graph context force t.instance_id t.memory).Safe
      (fun w => w = t.world)
      (fun r w => ∀ memory, r = some memory →
        Kept lib context graph (t :: done) w memory.cache ∧ Synced w memory.cache)
      (fun _ => True) := by
  simp only [runInstance, hfollows.record]
  refine Prog.Safe.bind (R := fun provides w => w = t.world ∧
      keysOf t.record.inst.metadata "provides" = .ok provides)
    (Prog.safe_lift (fun provides hprovides w hw => ⟨hw, hprovides⟩) fun _ _ => trivial) ?_
  refine fun provides => Prog.safe_of_and fun hprovides => ?_
  split
  · rename_i hempty
    refine Prog.safe_pure ?_
    rintro w rfl memory hmemory
    obtain rfl := Option.some.inj hmemory
    have hrecord : t.record.provides = [] := by
      rw [Record.provides, hprovides]
      exact List.isEmpty_iff.mp hempty
    refine ⟨⟨?_, ?_⟩, hsynced⟩
    · rw [List.forall_mem_cons]
      exact ⟨fun hne => absurd (by rw [hrecord]; rfl) hne, hkept.output⟩
    · rw [List.forall_mem_cons]
      exact ⟨fun hne => absurd (by rw [hrecord]; rfl) hne, hkept.image⟩
  · exact runRecord_delivers hfollows henv hkept hsynced hprovides
      (fun o => (sets.perm _).mem_iff) force

/-- **All turns.** When the loop returns true, every variant of the order has had its turn, and
what the turns have left is there. -/
theorem runInstances_delivers {env : Env} (henv : env.Lawful) (sets : SetOrder) (force : Bool)
    (hdisjoint : ∀ p q o, o ∈ graph.needed.getD p [] → o ∈ graph.needed.getD q [] → p = q)
    (rest : List String) (memory : Memory) (w : World) (done : List Turn)
    (hkept : Kept lib context graph done w memory.cache) (hsynced : Synced w memory.cache)
    (hnodup : rest.Nodup) (hrest : ∀ p ∈ rest, p ∈ graph.order ∧ ∀ t ∈ done, t.instance_id ≠ p)
    (hrun : (runInstances lib env sets graph context force rest memory w).result = .ok true) :
    (∃ cache, Synced (runInstances lib env sets graph context force rest memory w).state cache ∧
      Kept lib context graph ((turns lib env sets graph context force rest memory w).reverse ++ done)
        (runInstances lib env sets graph context force rest memory w).state cache) ∧
    ∀ p ∈ rest, ∃ t ∈ turns lib env sets graph context force rest memory w, t.instance_id = p ∧
      graph.nodes.get? p = some t.record := by
  induction rest generalizing memory w done with
  | nil => exact ⟨⟨memory.cache, hsynced, hkept⟩, by simp⟩
  | cons p rest ih =>
      rw [List.nodup_cons] at hnodup
      rw [List.forall_mem_cons] at hrest
      obtain ⟨next, hunfold, hnone, hsome⟩ : ∃ next : Option Memory → Build Bool,
          runInstances lib env sets graph context force (p :: rest) memory w =
            Prog.bind (runInstance lib env sets graph context force p memory) next w ∧
          next none = pure false ∧ ∀ memory', next (some memory') =
            runInstances lib env sets graph context force rest memory' :=
        ⟨_, rfl, rfl, fun _ => rfl⟩
      rw [hunfold, Prog.bind] at hrun ⊢
      cases hrecord : graph.nodes.get? p with
      | none => simp [runInstance, hrecord, Prog.raise] at hrun
      | some record =>
          have hturn := (runInstance_delivers (t := ⟨p, record, w, memory⟩)
            ⟨hrest.1.1, hrecord, hrest.1.2, hdisjoint⟩ henv sets hkept hsynced force w rfl).2
          simp only [turns, hrecord]
          cases hstep : (runInstance lib env sets graph context force p memory w).result with
          | error e => simp [hstep] at hrun
          | ok step =>
              simp only [hstep] at hrun hturn ⊢
              cases step with
              | none => simp [hnone, pure, Prog.ret] at hrun
              | some memory' =>
                  rw [hsome] at hrun ⊢
                  obtain ⟨hkept', hsynced'⟩ := hturn memory' rfl
                  obtain ⟨hcache, hturns⟩ := ih memory' _ _ hkept' hsynced' hnodup.2
                    (fun q hq => ⟨(hrest.2 q hq).1, List.forall_mem_cons.mpr
                      ⟨fun (heq : p = q) => hnodup.1 (heq ▸ hq), (hrest.2 q hq).2⟩⟩) hrun
                  refine ⟨?_, List.forall_mem_cons.mpr ⟨⟨_, List.mem_cons_self, rfl, hrecord⟩, ?_⟩⟩
                  · rwa [List.reverse_cons, List.append_assoc]
                  · rintro q hq
                    obtain ⟨t, ht, hid⟩ := hturns q hq
                    exact ⟨t, List.mem_cons_of_mem _ ht, hid⟩

end

/-! ## The targets -/

/-- The condition on a target: its variant is in the order, the graph keeps the record that
provides it, and an image is the first that the variant provides, under a tag of its own. -/
def BuildGraph.Covers (lib : Library) (graph : BuildGraph) (target : String) : Prop :=
  ∀ p, target ∈ graph.needed.getD p [] → p ∈ graph.order ∧
    ∀ record, graph.nodes.get? p = some record → target ∈ record.provides ∧
      ∀ tag ∈ getDockerProvides [target],
        (getDockerProvides record.provides).head? = some tag ∧ graph.Alone lib p record

/-- A target is there and recorded with the input hash of the turn of its variant: a file output
in the build directory, or an image. -/
def Delivered (lib : Library) (context : Dict String String) (graph : BuildGraph)
    (turns : List Turn) (w : World) (target : String) : Prop :=
  ∃ t ∈ turns, target ∈ graph.needed.getD t.instance_id [] ∧ target ∈ t.record.provides ∧
    (∀ o ∈ getFileProvides [target],
      t.Output lib (graph.needed.getD t.instance_id []) w.place w.saved.outputs o) ∧
    ∀ tag ∈ getDockerProvides [target], t.Image lib context w w.saved.images tag

theorem mem_getFileProvides_singleton {target o : String} :
    o ∈ getFileProvides [target] ↔ o = target ∧ o ∈ getFileProvides [o] := by
  simp only [getFileProvides, List.mem_filter, List.mem_singleton]
  constructor
  · rintro ⟨rfl, h⟩
    exact ⟨rfl, trivial, h⟩
  · rintro ⟨rfl, h⟩
    exact ⟨rfl, h.2⟩

/-- Every output gets a text. -/
def writtenOutputs (outputs : List String) (places : Places) : Places := fun o =>
  if o ∈ outputs then some (.file ⟨encode "built", 0o644, 1⟩) else places o

/-- A machine on which everything succeeds. -/
def workingEnv : Env where
  removing _ := []
  runContainer _ outputs := do
    Prog.act fun w => { w with place := writtenOutputs outputs w.place }
    pure true
  podmanBuild _ tag := do
    Prog.act fun w => w.setImage tag (some ⟨"sha256:1", none⟩)
    pure true
  now := 1

theorem workingEnv_lawful : workingEnv.Lawful where
  runContainer stage outputs w c hc := by
    have hcases : c = w ∨ c = { w with place := writtenOutputs outputs w.place } := by
      simpa [Prog.stops, workingEnv, bind, Prog.bind, Prog.act, pure, Prog.ret] using hc
    rcases hcases with rfl | rfl
    · exact ⟨c.place, fun _ _ => rfl, rfl⟩
    · exact ⟨_, fun o ho => if_neg ho, rfl⟩
  podmanBuild stage tag w c hc := by
    have hcases : c = w ∨ c = w.setImage tag (some ⟨"sha256:1", none⟩) := by
      simpa [Prog.stops, workingEnv, bind, Prog.bind, Prog.act, pure, Prog.ret] using hc
    rcases hcases with rfl | rfl
    · refine ⟨c.images tag, ?_⟩
      have himages : (fun t => if t = tag then c.images tag else c.images t) = c.images := by
        funext t
        split <;> simp_all
      simp only [World.setImage, himages]
    · exact ⟨_, rfl⟩

/-- A variant with an image and a file, at the root of the catalogue. -/
def imageProvider : Instance where
  id := ""
  provider := ""
  output_platform := none
  context := []
  metadata := [("provides", .dict [("docker:image", .dict []), ("image.iso", .dict [])])]

/-- A build directory with a source tree in which the variant has a Dockerfile. -/
def dockerfileWorld : World :=
  emptyWorld.setPlace "sources/mountin"
    (some (.dir [(["src", "mountin", "Dockerfile"], .file ⟨encode "FROM scratch", 0o644, 0⟩)]))

def imageContext : Dict String String := [("MOUNTIN_BUILD_PLATFORM", "linux-x86_64")]

theorem imageProvider_graph : buildGraph ⟨id, fun _ => .refl _⟩ ["docker:image", "image.iso"]
    [[imageProvider]] imageContext (fun output => (dockerfileWorld.place output).isSome) =
      .ok ⟨[("", ⟨imageProvider, true, none⟩)], [], ["", ""], [""],
        [("", ["docker:image", "image.iso"])]⟩ := by
  rfl

theorem imageProvider_covered : ∀ target ∈ ["docker:image", "image.iso"],
    BuildGraph.Covers notesLibrary ⟨[("", ⟨imageProvider, true, none⟩)], [], ["", ""], [""],
      [("", ["docker:image", "image.iso"])]⟩ target := by
  intro target htarget p hp
  obtain rfl : p = "" := by
    by_contra hne
    simp [Dict.getD, Dict.get?, Ne.symm hne] at hp
  refine ⟨by simp, fun record hrecord => ?_⟩
  obtain rfl : _ = record := Option.some.inj hrecord
  refine ⟨htarget, fun tag htag => ⟨?_, fun q hq hne => absurd (List.mem_singleton.mp hq) hne⟩⟩
  rcases List.mem_pair.mp htarget with rfl | rfl
  · obtain rfl := List.mem_singleton.mp htag
    rfl
  · exact absurd htag (List.not_mem_nil)

theorem eq_ok_of_toOption {r : Except Raised Bool} {b : Bool} (h : r.toOption = some b) :
    r = .ok b := by
  cases r with
  | error e => simp [Except.toOption] at h
  | ok c => rw [Option.some.inj h]

end Mountin
