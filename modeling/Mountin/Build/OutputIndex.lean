import Mountin.Basic.Elimination
import Mountin.Basic.Raising
import Mountin.Build.Metadata

set_option autoImplicit false

/-! # The output index

`build_output_index` lists every output of the catalogue with its provider variant, and decides
which outputs can be built: first by the platform and the source kind, then by eliminating
outputs whose requirements cannot be met until nothing changes.
-/

namespace Mountin

/-- `IMPLICIT_OUTPUTS`. -/
def IMPLICIT_OUTPUTS : List String :=
  ["catalogue.json", "catalogue/format.json", "sources/mountin"]

/-- An entry of the output index. -/
structure Record where
  inst : Instance
  buildable : Bool
  reason : Option String

/-- The output index: a record for each output. -/
abbrev OutputIndex := Dict String Record

/-- A build directory, as `(build_dir / path).exists()` sees it. -/
abbrev BuildDir := String → Bool

/-- How an optional text prints. -/
def pyText (s : Option String) : String := s.getD "None"

/-- Whether a variant can be built on the platform and from the source kind, and why not. -/
def availability (context : Dict String String) (inst : Instance) :
    Except Raised (Bool × Option String) := do
  let build_platform := context.get? "MOUNTIN_BUILD_PLATFORM"
  let build_platforms := inst.metadata.getD "build_platforms" (.dict [])
  let onPlatform ← if build_platforms.truthy then build_platforms.contains build_platform
    else pure true
  if !onPlatform then
    let supported := String.intercalate ", " (← build_platforms.names)
    return (false, some s!"build platform {pyText build_platform} is not in build_platforms ({supported})")
  let source_kind := context.get? "MOUNTIN_SOURCE_KIND"
  let source_kinds := inst.metadata.getD "source_kinds" (.dict [])
  let ofKind ← if source_kinds.truthy then source_kinds.contains source_kind else pure true
  if !ofKind then
    let supported := String.intercalate ", " (← source_kinds.names)
    return (false, some s!"source kind {pyText source_kind} is not in source_kinds ({supported})")
  return (true, none)

/-- The outputs that a variant provides. -/
def provided (inst : Instance) : Except Raised (List String) :=
  (inst.metadata.getD "provides" (.dict [])).names

/-- Enters one output; an output has one provider. -/
def registerOutput (record : Record) (index : OutputIndex) (output : String) :
    Except Raised OutputIndex :=
  match index.get? output with
  | some other =>
      .error (.valueError
        s!"Duplicate provider for {output}: {other.inst.provider} and {record.inst.provider}")
  | none => .ok (index.set output record)

/-- Enters the outputs of a variant. -/
def registerInstance (context : Dict String String) (index : OutputIndex) (inst : Instance) :
    Except Raised OutputIndex := do
  let (buildable, reason) ← availability context inst
  let outputs ← provided inst
  outputs.foldlM (registerOutput ⟨inst, buildable, reason⟩) index

/-- The first loop of `build_output_index`: the index before elimination. -/
def registerAll (context : Dict String String) (providers : List (List Instance)) :
    Except Raised OutputIndex :=
  providers.foldlM (fun index instances => instances.foldlM (registerInstance context) index) []

/-- Why the requirements of an output cannot be met, by the first that cannot. -/
def firstUnmet (index : OutputIndex) (build_dir : Option BuildDir) : List String → Option String
  | [] => none
  | requirement :: rest =>
    match index.get? requirement with
    | none =>
        if IMPLICIT_OUTPUTS.contains requirement then firstUnmet index build_dir rest
        else if build_dir.all fun dir => dir requirement then firstUnmet index build_dir rest
        else some s!"requires output with no provider: {requirement}"
    | some dependency =>
        if dependency.buildable then firstUnmet index build_dir rest
        else some s!"requires unavailable output {requirement}: {pyText dependency.reason}"

/-- One turn of the elimination loop; the flag is `changed`. -/
def reviewOutput (build_dir : Option BuildDir) (state : OutputIndex × Bool) (output : String) :
    Except Raised (OutputIndex × Bool) :=
  match state.1.get? output with
  | none => .ok state
  | some record =>
      if record.buildable then do
        let requires ← requirements record.inst output
        match firstUnmet state.1 build_dir requires with
        | none => pure state
        | some reason =>
            pure (state.1.set output { record with buildable := false, reason := some reason }, true)
      else .ok state

/-- One round of the elimination loop. -/
def reviewRound (build_dir : Option BuildDir) (index : OutputIndex) :
    Except Raised (OutputIndex × Bool) :=
  index.keys.foldlM (reviewOutput build_dir) (index, false)

/-- The elimination loop. Each round but the last takes an output out. -/
def eliminate (build_dir : Option BuildDir) (index : OutputIndex) : Except Raised OutputIndex :=
  untilStable (reviewRound build_dir) (index.length + 1) index

/-- `build_output_index`, of the variants that `resolve_provider_instances` lists for each path. -/
def buildOutputIndex (providers : List (List Instance)) (context : Dict String String)
    (build_dir : Option BuildDir) : Except Raised OutputIndex := do
  let index ← registerAll context providers
  eliminate build_dir index

/-! ## One turn of the elimination -/

/-- The outputs that an index marks buildable. -/
def buildableSet (index : OutputIndex) : Set String :=
  {output | ∃ record, index.get? output = some record ∧ record.buildable = true}

/-- A requirement without provider that does no harm: it is implicit, exists in the build
directory, or there is no build directory to look into. -/
def external (build_dir : Option BuildDir) (requirement : String) : Bool :=
  IMPLICIT_OUTPUTS.contains requirement || build_dir.all fun dir => dir requirement

/-- The set `S`, with what lies outside the index, meets a requirement. -/
def Meets (index : OutputIndex) (build_dir : Option BuildDir) (S : Set String)
    (requirement : String) : Prop :=
  requirement ∈ S ∨ (index.get? requirement = none ∧ external build_dir requirement = true)

/-- An output requires a name. -/
def Requires (inst : Instance) (output requirement : String) : Prop :=
  ∃ requires, requirements inst output = .ok requires ∧ requirement ∈ requires

/-- The outputs whose requirements a set meets, among those buildable at first. -/
def supportedBy (index : OutputIndex) (build_dir : Option BuildDir) : Set String →o Set String where
  toFun S := {output | ∃ record, index.get? output = some record ∧ record.buildable = true ∧
    ∀ requirement, Requires record.inst output requirement → Meets index build_dir S requirement}
  monotone' := by
    rintro S S' hS output ⟨record, hget, hbuildable, hmeets⟩
    exact ⟨record, hget, hbuildable, fun requirement hreq =>
      (hmeets requirement hreq).imp_left fun h => hS h⟩

theorem firstUnmet_eq_none_iff {index : OutputIndex} {build_dir : Option BuildDir}
    {requires : List String} : firstUnmet index build_dir requires = none ↔
      ∀ requirement ∈ requires, Meets index build_dir (buildableSet index) requirement := by
  induction requires with
  | nil => simp [firstUnmet]
  | cons requirement rest ih =>
      rw [List.forall_mem_cons, ← ih, firstUnmet]
      cases hget : index.get? requirement with
      | none =>
          have : requirement ∉ buildableSet index := fun ⟨_, h, _⟩ => by simp [hget] at h
          by_cases himplicit : requirement ∈ IMPLICIT_OUTPUTS
          · simp [Meets, external, hget, himplicit]
          · by_cases hexists : build_dir.all fun dir => dir requirement
            · simp [Meets, external, hget, hexists]
            · simp [Meets, external, hget, himplicit, hexists, this]
      | some dependency =>
          by_cases hbuildable : dependency.buildable <;>
            simp [Meets, buildableSet, hget, hbuildable]

/-- The record of an output that was taken out. -/
def Record.refuse (record : Record) (reason : String) : Record :=
  { record with buildable := false, reason := some reason }

/-- **What one turn does**: nothing, when the output is not buildable or its requirements are
met, or it takes out the output for a requirement that is not met. -/
theorem reviewOutput_cases {build_dir : Option BuildDir} {index index' : OutputIndex}
    {c c' : Bool} {output : String}
    (h : reviewOutput build_dir (index, c) output = .ok (index', c')) :
    (index' = index ∧ c' = c ∧ (output ∈ buildableSet index → ∃ record, index.get? output = some record ∧
      ∃ requires, requirements record.inst output = .ok requires ∧
        ∀ requirement ∈ requires, Meets index build_dir (buildableSet index) requirement)) ∨
    (c' = true ∧ ∃ record reason, index.get? output = some record ∧ record.buildable = true ∧
      index' = index.set output (record.refuse reason) ∧
      ∃ requires, requirements record.inst output = .ok requires ∧
        ∃ requirement ∈ requires, ¬ Meets index build_dir (buildableSet index) requirement) := by
  unfold reviewOutput at h
  cases hget : index.get? output with
  | none =>
      simp only [hget] at h
      obtain ⟨rfl, rfl⟩ := Prod.mk.inj (Except.ok.inj h)
      exact .inl ⟨rfl, rfl, fun ⟨_, h', _⟩ => by simp [hget] at h'⟩
  | some record =>
      simp only [hget] at h
      split at h
      · rename_i hbuildable
        obtain ⟨requires, hreq, h⟩ := Except.bind_eq_ok.mp h
        cases hunmet : firstUnmet index build_dir requires with
        | none =>
            simp only [hunmet] at h
            obtain ⟨rfl, rfl⟩ := Prod.mk.inj (Except.ok.inj h)
            exact .inl ⟨rfl, rfl, fun _ =>
              ⟨record, rfl, requires, hreq, firstUnmet_eq_none_iff.mp hunmet⟩⟩
        | some reason =>
            simp only [hunmet] at h
            obtain ⟨rfl, rfl⟩ := Prod.mk.inj (Except.ok.inj h)
            refine .inr ⟨rfl, record, reason, rfl, hbuildable, rfl, requires, hreq, ?_⟩
            have hnot : ¬ firstUnmet index build_dir requires = none := by simp [hunmet]
            rw [firstUnmet_eq_none_iff] at hnot
            push Not at hnot
            exact hnot
      · rename_i hbuildable
        obtain ⟨rfl, rfl⟩ := Prod.mk.inj (Except.ok.inj h)
        refine .inl ⟨rfl, rfl, fun ⟨record', h', hbuildable'⟩ => ?_⟩
        obtain rfl : record = record' := by simpa [hget] using h'
        exact absurd hbuildable' hbuildable

theorem buildableSet_refuse {index : OutputIndex} {output : String} (record : Record)
    (reason : String) :
    buildableSet (index.set output (record.refuse reason)) = buildableSet index \ {output} := by
  ext other
  simp only [buildableSet, Set.mem_ofPred_eq, Set.mem_sdiff, Set.mem_singleton_iff, Dict.get?_set]
  by_cases h : output = other
  · simp [h, Record.refuse]
  · simp [h, Ne.symm h]

/-! ## From turns to rounds -/

/-- What the elimination keeps of the index it started from: the outputs, in their order, and
their variants. -/
structure Reviewed (index₀ index : OutputIndex) : Prop where
  keys : index.keys = index₀.keys
  record : ∀ output record, index.get? output = some record →
    ∃ record₀, index₀.get? output = some record₀ ∧ record.inst = record₀.inst ∧
      (record.buildable = true → record₀.buildable = true)

theorem Reviewed.refl (index : OutputIndex) : Reviewed index index :=
  ⟨rfl, fun _ record h => ⟨record, h, rfl, id⟩⟩

theorem Reviewed.get?_eq_none_iff {index₀ index : OutputIndex} (h : Reviewed index₀ index)
    (output : String) : index.get? output = none ↔ index₀.get? output = none := by
  rw [Dict.get?_eq_none_iff, Dict.get?_eq_none_iff, h.keys]

theorem Reviewed.meets_iff {index₀ index : OutputIndex} (h : Reviewed index₀ index)
    {build_dir : Option BuildDir} {S : Set String} {requirement : String} :
    Meets index build_dir S requirement ↔ Meets index₀ build_dir S requirement := by
  rw [Meets, Meets, h.get?_eq_none_iff]

theorem Reviewed.refuse {index₀ index : OutputIndex} (h : Reviewed index₀ index)
    {output : String} {record : Record} (hget : index.get? output = some record)
    (reason : String) : Reviewed index₀ (index.set output (record.refuse reason)) := by
  refine ⟨?_, fun other record' hother => ?_⟩
  · rw [Dict.keys_set_of_mem _ (Dict.mem_keys_of_get?_eq_some hget), h.keys]
  · rw [Dict.get?_set] at hother
    split at hother
    · rename_i heq
      obtain ⟨record₀, hget₀, hinst, _⟩ := h.record output record hget
      obtain rfl := Option.some.inj hother
      exact ⟨record₀, heq ▸ hget₀, hinst, fun hfalse => by simp [Record.refuse] at hfalse⟩
    · exact h.record other record' hother

/-- How many outputs are still buildable. -/
def buildableCount (index : OutputIndex) : Nat := index.countP fun e => e.2.buildable

theorem buildableCount_refuse {index : OutputIndex} {output : String} {record : Record}
    (hget : index.get? output = some record) (hbuildable : record.buildable = true)
    (reason : String) :
    buildableCount (index.set output (record.refuse reason)) < buildableCount index := by
  induction index with
  | nil => simp at hget
  | cons e rest ih =>
      rcases e with ⟨key, record'⟩
      rw [Dict.get?_cons] at hget
      unfold Dict.set buildableCount
      split
      · rename_i heq
        rw [if_pos heq] at hget
        obtain rfl := Option.some.inj hget
        simp [hbuildable, Record.refuse]
      · rename_i hne
        rw [if_neg hne] at hget
        have := ih hget
        unfold buildableCount at this
        simp only [List.countP_cons]
        omega

/-- What some turns of a round, from `(index, c)` on, have done. -/
structure Turns (index₀ : OutputIndex) (build_dir : Option BuildDir) (index : OutputIndex)
    (c : Bool) (outputs : List String) (index' : OutputIndex) (c' : Bool) : Prop where
  reviewed : Reviewed index₀ index'
  eliminated : Relation.ReflTransGen (Elimination.Step (supportedBy index₀ build_dir))
    (buildableSet index) (buildableSet index')
  count : buildableCount index' ≤ buildableCount index
  changed : c = false → c' = true → buildableCount index' < buildableCount index
  settled : c' = false → index' = index ∧ ∀ output ∈ outputs, output ∈ buildableSet index →
    output ∈ supportedBy index₀ build_dir (buildableSet index)

/-- One turn of the round. -/
theorem reviewOutput_turns {index₀ index index' : OutputIndex} {build_dir : Option BuildDir}
    {c c' : Bool} {output : String} (hrev : Reviewed index₀ index)
    (h : reviewOutput build_dir (index, c) output = .ok (index', c')) :
    Turns index₀ build_dir index c [output] index' c' ∧ (c = true → c' = true) := by
  rcases reviewOutput_cases h with ⟨rfl, rfl, hmet⟩ |
    ⟨rfl, record, reason, hget, hbuildable, rfl, requires, hreq, requirement, hmem, hunmet⟩
  · refine ⟨⟨hrev, .refl, le_rfl, fun h₁ h₂ => by simp [h₁] at h₂, fun _ => ⟨rfl, ?_⟩⟩, id⟩
    intro output' hmem hbuildable'
    rw [List.mem_singleton] at hmem
    subst hmem
    obtain ⟨record, hget, requires, hreq, hall⟩ := hmet hbuildable'
    obtain ⟨record', hget', hbuildable⟩ := hbuildable'
    obtain rfl : record = record' := by simpa [hget] using hget'
    obtain ⟨record₀, hget₀, hinst, hinit⟩ := hrev.record _ _ hget
    refine ⟨record₀, hget₀, hinit hbuildable, fun requirement ⟨requires', hreq', hmem⟩ => ?_⟩
    obtain rfl : requires = requires' := by simpa [← hinst, hreq] using hreq'
    exact hrev.meets_iff.mp (hall requirement hmem)
  · refine ⟨⟨hrev.refuse hget reason, .single ⟨output, ?_, buildableSet_refuse record reason⟩, ?_,
      fun _ _ => buildableCount_refuse hget hbuildable reason, fun h => by simp at h⟩,
      fun _ => rfl⟩
    · rintro ⟨record₀, hget₀, _, hmeets⟩
      obtain ⟨record₀', hget₀', hinst, _⟩ := hrev.record _ _ hget
      obtain rfl : record₀ = record₀' := by simpa [hget₀] using hget₀'
      have := hmeets requirement ⟨requires, hinst ▸ hreq, hmem⟩
      exact hunmet (hrev.meets_iff.mpr this)
    · exact (buildableCount_refuse hget hbuildable reason).le

/-- All turns of a round. -/
theorem reviewOutputs_turns {index₀ : OutputIndex} {build_dir : Option BuildDir}
    (outputs : List String) {index index' : OutputIndex} {c c' : Bool}
    (hrev : Reviewed index₀ index)
    (h : outputs.foldlM (reviewOutput build_dir) (index, c) = .ok (index', c')) :
    Turns index₀ build_dir index c outputs index' c' ∧ (c = true → c' = true) := by
  induction outputs generalizing index c with
  | nil =>
      obtain ⟨rfl, rfl⟩ := Prod.mk.inj (Except.ok.inj h)
      exact ⟨⟨hrev, .refl, le_rfl, fun h₁ h₂ => by simp [h₁] at h₂, fun _ => ⟨rfl, by simp⟩⟩, id⟩
  | cons output rest ih =>
      rw [List.foldlM_cons] at h
      obtain ⟨⟨index₁, c₁⟩, hfirst, hrest⟩ := Except.bind_eq_ok.mp h
      obtain ⟨hone, hkeep⟩ := reviewOutput_turns hrev hfirst
      obtain ⟨hmany, hkeep'⟩ := ih hone.reviewed hrest
      refine ⟨⟨hmany.reviewed, hone.eliminated.trans hmany.eliminated,
        hmany.count.trans hone.count, fun hc hc' => ?_, fun hc' => ?_⟩, hkeep' ∘ hkeep⟩
      · cases hc₁ : c₁ with
        | false => exact (hmany.changed hc₁ hc').trans_le hone.count
        | true => exact hmany.count.trans_lt (hone.changed hc hc₁)
      · obtain rfl : c₁ = false := by
          by_contra hne
          simp [hkeep' (by simpa using hne)] at hc'
        obtain ⟨rfl, hfirst'⟩ := hone.settled rfl
        obtain ⟨rfl, hrest'⟩ := hmany.settled hc'
        refine ⟨rfl, ?_⟩
        rw [List.forall_mem_cons]
        exact ⟨hfirst' output (List.mem_singleton_self _), hrest'⟩

/-! ## The whole elimination -/

theorem reviewRound_turns {index₀ index index' : OutputIndex} {build_dir : Option BuildDir}
    {c' : Bool} (hrev : Reviewed index₀ index)
    (h : reviewRound build_dir index = .ok (index', c')) :
    Turns index₀ build_dir index false index.keys index' c' :=
  (reviewOutputs_turns _ hrev h).1

theorem gfp_le_buildableSet (index : OutputIndex) (build_dir : Option BuildDir) :
    (supportedBy index build_dir).gfp ≤ buildableSet index := by
  rw [← (supportedBy index build_dir).map_gfp]
  rintro output ⟨record, hget, hbuildable, _⟩
  exact ⟨record, hget, hbuildable⟩

/-- Rounds that change something eliminate. -/
theorem changes_eliminates {index₀ index : OutputIndex} {build_dir : Option BuildDir}
    (h : Relation.ReflTransGen (Changes (reviewRound build_dir)) index₀ index) :
    Reviewed index₀ index ∧
      Relation.ReflTransGen (Elimination.Step (supportedBy index₀ build_dir))
        (buildableSet index₀) (buildableSet index) := by
  induction h with
  | refl => exact ⟨.refl index₀, .refl⟩
  | tail _ hround ih =>
      have hturns := reviewRound_turns ih.1 hround
      exact ⟨hturns.reviewed, ih.2.trans hturns.eliminated⟩

/-- **The elimination ends at the greatest fixpoint.** -/
theorem eliminate_spec {index₀ index : OutputIndex} {build_dir : Option BuildDir}
    (h : eliminate build_dir index₀ = .ok index) :
    Reviewed index₀ index ∧ buildableSet index = (supportedBy index₀ build_dir).gfp := by
  have hsize : ∀ index index', Changes (reviewRound build_dir) index index' →
      buildableCount index' < buildableCount index := fun index index' hround =>
    (reviewRound_turns (.refl index) hround).changed rfl rfl
  have hfuel : buildableCount index₀ < index₀.length + 1 :=
    Nat.lt_succ_of_le List.countP_le_length
  obtain ⟨last, hrun, hlast⟩ := untilStable_ok hsize hfuel h
  obtain ⟨hrev, helim⟩ := changes_eliminates hrun
  obtain ⟨rfl, hsupported⟩ := (reviewRound_turns hrev hlast).settled rfl
  refine ⟨hrev, Elimination.eq_gfp helim (gfp_le_buildableSet index₀ build_dir) ?_⟩
  intro output hbuildable
  have hmem : output ∈ index.keys := by
    obtain ⟨record, hget, _⟩ := hbuildable
    exact Dict.mem_keys_of_get?_eq_some hget
  exact hsupported output hmem hbuildable

/-- A round reads the requirements of every output that is buildable when it begins. -/
theorem reviewOutputs_reads {build_dir : Option BuildDir} (outputs : List String)
    {state state' : OutputIndex × Bool}
    (h : outputs.foldlM (reviewOutput build_dir) state = .ok state') :
    ∀ output ∈ outputs, ∀ record, state.1.get? output = some record → record.buildable = true →
      ∃ requires, requirements record.inst output = .ok requires := by
  induction outputs generalizing state with
  | nil => simp
  | cons first rest ih =>
      intro output hmem record hget hbuildable
      rw [List.foldlM_cons] at h
      obtain ⟨⟨index₁, c₁⟩, hfirst, hrest⟩ := Except.bind_eq_ok.mp h
      by_cases heq : first = output
      · subst heq
        rcases reviewOutput_cases hfirst with ⟨_, _, hmet⟩ |
          ⟨_, record', _, hget', _, _, requires, hreq, _⟩
        · obtain ⟨record', hget', requires, hreq, _⟩ := hmet ⟨record, hget, hbuildable⟩
          obtain rfl : record = record' := by simpa [hget] using hget'
          exact ⟨requires, hreq⟩
        · obtain rfl : record = record' := by simpa [hget] using hget'
          exact ⟨requires, hreq⟩
      · have hmem' : output ∈ rest := (List.mem_cons.mp hmem).resolve_left (Ne.symm heq)
        have hkept : Dict.get? index₁ output = some record := by
          rcases reviewOutput_cases hfirst with ⟨rfl, _⟩ | ⟨_, _, _, _, _, rfl, _⟩
          · exact hget
          · rwa [Dict.get?_set_of_ne _ _ heq]
        exact ih hrest output hmem' record hkept hbuildable

/-- The elimination returns exactly when the requirements of every output that is buildable at
first can be read. -/
theorem eliminate_returns_iff {index₀ : OutputIndex} {build_dir : Option BuildDir} :
    (∃ index, eliminate build_dir index₀ = .ok index) ↔
      ∀ output record, index₀.get? output = some record → record.buildable = true →
        ∃ requires, requirements record.inst output = .ok requires := by
  constructor
  · rintro ⟨index, h⟩ output record hget hbuildable
    unfold eliminate untilStable at h
    obtain ⟨state, hround, _⟩ := Except.bind_eq_ok.mp h
    exact reviewOutputs_reads _ hround output (Dict.mem_keys_of_get?_eq_some hget) record hget
      hbuildable
  · intro hreads
    have hturn : ∀ state : OutputIndex × Bool, ∀ output ∈ state.1.keys,
        Reviewed index₀ state.1 → ∃ state', reviewOutput build_dir state output = .ok state' := by
      intro state output hmem hrev
      obtain ⟨record, hget⟩ := Dict.exists_get?_iff.mpr hmem
      unfold reviewOutput
      simp only [hget]
      split
      · rename_i hbuildable
        obtain ⟨record₀, hget₀, hinst, hinit⟩ := hrev.record _ _ hget
        obtain ⟨requires, hreq⟩ := hreads output record₀ hget₀ (hinit hbuildable)
        rw [hinst, hreq]
        cases hunmet : firstUnmet state.1 build_dir requires with
        | none => exact ⟨state, by simp [hunmet, pure, Except.pure]⟩
        | some reason => exact ⟨_, by simp only [Except.ok_bind, hunmet]; rfl⟩
      · exact ⟨state, rfl⟩
    have hround : ∀ index, Reviewed index₀ index →
        ∃ index' c, reviewRound build_dir index = .ok (index', c) ∧ Reviewed index₀ index' := by
      intro index hrev
      have hloop : ∃ state', index.keys.foldlM (reviewOutput build_dir) (index, false) = .ok state' ∧
          Reviewed index₀ state'.1 := by
        let P : OutputIndex × Bool → Prop := fun state => Reviewed index₀ state.1
        suffices hstep : ∀ state, ∀ output ∈ index.keys, P state →
            ∃ state', reviewOutput build_dir state output = .ok state' ∧ P state' from
          List.foldlM_returns hstep hrev
        intro state output hmem hstate
        have hmem' : output ∈ state.1.keys := by
          rw [hstate.keys, ← hrev.keys]
          exact hmem
        obtain ⟨state', hstep⟩ := hturn state output hmem' hstate
        exact ⟨state', hstep, (reviewOutput_turns hstate hstep).1.reviewed⟩
      obtain ⟨state', hrun, hstate'⟩ := hloop
      exact ⟨state'.1, state'.2, hrun, hstate'⟩
    obtain ⟨index, h, _⟩ := untilStable_returns hround (index₀.length + 1) (.refl index₀)
    exact ⟨index, h⟩

theorem supportedBy_congr {index index' : OutputIndex} (build_dir : Option BuildDir)
    (h : ∀ output, index.get? output = index'.get? output) :
    supportedBy index build_dir = supportedBy index' build_dir := by
  ext S output
  show (∃ record, _) ↔ (∃ record, _)
  simp only [Meets, h]

/-- **The order of the entries does not matter** for what the elimination leaves. -/
theorem eliminate_perm {index₀ index₀' index : OutputIndex} {build_dir : Option BuildDir}
    (hkeys : index₀.keys.Nodup) (hp : index₀.Perm index₀')
    (h : eliminate build_dir index₀ = .ok index) :
    ∃ index', eliminate build_dir index₀' = .ok index' ∧ buildableSet index' = buildableSet index := by
  have hget := Dict.get?_perm hp hkeys
  have hreads := eliminate_returns_iff.mp ⟨index, h⟩
  simp only [hget] at hreads
  obtain ⟨index', h'⟩ := eliminate_returns_iff.mpr hreads
  refine ⟨index', h', ?_⟩
  rw [(eliminate_spec h').2, (eliminate_spec h).2, supportedBy_congr build_dir hget]

/-! ## The entries of the index -/

/-- The entries that a variant contributes. -/
def entriesOf (context : Dict String String) (inst : Instance) : Except Raised OutputIndex := do
  let (buildable, reason) ← availability context inst
  let outputs ← provided inst
  return outputs.map fun output => (output, ⟨inst, buildable, reason⟩)

theorem registerOutputs_eq_ok {record : Record} (outputs : List String)
    {index index' : OutputIndex} (hkeys : index.keys.Nodup) :
    outputs.foldlM (registerOutput record) index = .ok index' ↔
      index' = index ++ outputs.map (fun output => (output, record)) ∧ index'.keys.Nodup := by
  induction outputs generalizing index with
  | nil =>
      rw [List.foldlM_nil, List.map_nil, List.append_nil]
      constructor
      · intro h
        obtain rfl := Except.ok.inj h
        exact ⟨rfl, hkeys⟩
      · rintro ⟨rfl, _⟩
        rfl
  | cons output rest ih =>
      rw [List.foldlM_cons, registerOutput]
      cases hget : index.get? output with
      | some other =>
          simp only [Except.error_bind, reduceCtorEq, false_iff, not_and]
          -- the output is there already, so the extended index would list it twice
          rintro rfl hnodup
          rw [Dict.keys, List.map_append, List.nodup_append] at hnodup
          have hmem : output ∈ index.keys := Dict.mem_keys_of_get?_eq_some hget
          exact hnodup.2.2 output hmem output (by simp) rfl
      | none =>
          have hnot : output ∉ index.keys := Dict.get?_eq_none_iff.mp hget
          simp only [Except.ok_bind]
          rw [ih (Dict.nodup_keys_set hkeys _ _), Dict.set_of_notMem _ hnot]
          simp

theorem registerInstance_eq_ok {context : Dict String String} {inst : Instance}
    {index index' : OutputIndex} (hkeys : index.keys.Nodup) :
    registerInstance context index inst = .ok index' ↔
      ∃ entries, entriesOf context inst = .ok entries ∧ index' = index ++ entries ∧
        index'.keys.Nodup := by
  unfold registerInstance entriesOf
  cases availability context inst with
  | error e => simp
  | ok p =>
      cases provided inst with
      | error e => simp
      | ok outputs =>
          simp only [Except.ok_bind, pure, Except.pure, Except.ok.injEq, exists_eq_left']
          exact registerOutputs_eq_ok outputs hkeys

theorem registerInstances_eq_ok {context : Dict String String} (instances : List Instance)
    {index index' : OutputIndex} (hkeys : index.keys.Nodup) :
    instances.foldlM (registerInstance context) index = .ok index' ↔
      ∃ lists, instances.mapM (entriesOf context) = .ok lists ∧ index' = index ++ lists.flatten ∧
        index'.keys.Nodup := by
  induction instances generalizing index with
  | nil =>
      simp only [List.foldlM_nil, List.mapM_nil, pure, Except.pure, Except.ok.injEq,
        exists_eq_left', List.flatten_nil, List.append_nil]
      exact ⟨fun h => ⟨h.symm, h ▸ hkeys⟩, fun h => h.1.symm⟩
  | cons inst rest ih =>
      rw [List.foldlM_cons]
      simp only [List.mapM_cons, Except.bind_eq_ok, registerInstance_eq_ok hkeys]
      constructor
      · rintro ⟨index₁, ⟨entries, hentries, rfl, hkeys₁⟩, hrest⟩
        obtain ⟨lists, hlists, rfl, hkeys'⟩ := (ih hkeys₁).mp hrest
        exact ⟨entries :: lists, ⟨entries, hentries, lists, hlists, rfl⟩, by simp, hkeys'⟩
      · rintro ⟨_, ⟨entries, hentries, lists, hlists, h⟩, rfl, hkeys'⟩
        obtain rfl := Except.ok.inj h
        have heq : index ++ (entries :: lists).flatten = (index ++ entries) ++ lists.flatten := by
          simp
        have hkeys₁ : (index ++ entries).keys.Nodup := by
          rw [heq, Dict.keys, List.map_append] at hkeys'
          exact (List.nodup_append.mp hkeys').1
        exact ⟨index ++ entries, ⟨entries, hentries, rfl, hkeys₁⟩,
          (ih hkeys₁).mpr ⟨lists, hlists, heq, hkeys'⟩⟩

/-- The index before elimination is the list of the entries of all variants, and no output is
in it twice. -/
theorem registerAll_eq_ok {context : Dict String String} {providers : List (List Instance)}
    {index : OutputIndex} :
    registerAll context providers = .ok index ↔
      ∃ lists, providers.flatten.mapM (entriesOf context) = .ok lists ∧ index = lists.flatten ∧
        index.keys.Nodup := by
  have hflat : ∀ (index₀ : OutputIndex), providers.foldlM
      (fun index instances => instances.foldlM (registerInstance context) index) index₀ =
        providers.flatten.foldlM (registerInstance context) index₀ := by
    induction providers with
    | nil => exact fun _ => rfl
    | cons instances rest ih =>
        intro index₀
        rw [List.foldlM_cons, List.flatten_cons, List.foldlM_append]
        exact congrArg _ (funext ih)
  rw [registerAll, hflat, registerInstances_eq_ok _ (by simp [Dict.keys])]
  simp

/-- Providers in another order give the same entries in another order. -/
theorem registerAll_perm {context : Dict String String} {providers providers' : List (List Instance)}
    {index : OutputIndex} (hp : providers'.Perm providers)
    (h : registerAll context providers = .ok index) :
    ∃ index', registerAll context providers' = .ok index' ∧ index'.Perm index := by
  obtain ⟨lists, hlists, rfl, hkeys⟩ := registerAll_eq_ok.mp h
  obtain ⟨lists', hlists', hperm⟩ := List.mapM_perm hp.flatten hlists
  have hflat := hperm.flatten
  exact ⟨lists'.flatten, registerAll_eq_ok.mpr
    ⟨lists', hlists', rfl, (hflat.map Prod.fst).nodup_iff.mpr hkeys⟩, hflat⟩

/-! ## What the catalogue supplies -/

/-- A variant of the catalogue provides an output. -/
def Offers (providers : List (List Instance)) (output : String) (inst : Instance) : Prop :=
  inst ∈ providers.flatten ∧ ∃ outputs, provided inst = .ok outputs ∧ output ∈ outputs

/-- The variant can be built on this platform and from this source kind. -/
def Permitted (context : Dict String String) (inst : Instance) : Prop :=
  ∃ reason, availability context inst = .ok (true, reason)

/-- An output is permitted, and each of its requirements lies in `S`, or has no provider and is
external. -/
def Supplied (providers : List (List Instance)) (context : Dict String String)
    (build_dir : Option BuildDir) (S : Set String) (output : String) : Prop :=
  ∃ inst, Offers providers output inst ∧ Permitted context inst ∧
    ∀ requirement, Requires inst output requirement →
      requirement ∈ S ∨
        ((¬ ∃ other, Offers providers requirement other) ∧ external build_dir requirement = true)

theorem registered_get?_iff {context : Dict String String} {providers : List (List Instance)}
    {index : OutputIndex} (h : registerAll context providers = .ok index) {output : String}
    {record : Record} : index.get? output = some record ↔
      Offers providers output record.inst ∧
        availability context record.inst = .ok (record.buildable, record.reason) := by
  obtain ⟨lists, hlists, rfl, hkeys⟩ := registerAll_eq_ok.mp h
  rw [Dict.get?_eq_some_iff hkeys, List.mem_flatten]
  constructor
  · rintro ⟨entries, hmem, hentry⟩
    obtain ⟨inst, hinst, hentries⟩ := (List.mem_mapM_iff hlists).mp hmem
    obtain ⟨⟨buildable, reason⟩, havailable, htail⟩ := Except.bind_eq_ok.mp hentries
    obtain ⟨outputs, hprovided, heq⟩ := Except.bind_eq_ok.mp htail
    obtain rfl := Except.ok.inj heq
    obtain ⟨output', houtput, hpair⟩ := List.mem_map.mp hentry
    obtain ⟨rfl, rfl⟩ := Prod.mk.inj hpair
    exact ⟨⟨hinst, outputs, hprovided, houtput⟩, havailable⟩
  · rintro ⟨⟨hinst, outputs, hprovided, houtput⟩, havailable⟩
    refine ⟨outputs.map fun output => (output, record), ?_, List.mem_map_of_mem houtput⟩
    refine (List.mem_mapM_iff hlists).mpr ⟨record.inst, hinst, ?_⟩
    simp [entriesOf, havailable, hprovided, pure, Except.pure]

theorem registered_get?_eq_none_iff {context : Dict String String}
    {providers : List (List Instance)} {index : OutputIndex}
    (h : registerAll context providers = .ok index) {output : String} :
    index.get? output = none ↔ ¬ ∃ inst, Offers providers output inst := by
  rw [← not_iff_not, not_not, ← ne_eq, Option.ne_none_iff_exists']
  constructor
  · rintro ⟨record, hget⟩
    exact ⟨record.inst, ((registered_get?_iff h).mp hget).1⟩
  · rintro ⟨inst, hinst, outputs, hprovided, houtput⟩
    obtain ⟨lists, hlists, _, _⟩ := registerAll_eq_ok.mp h
    obtain ⟨entries, _, hentries⟩ := List.exists_of_mem_mapM hlists hinst
    obtain ⟨⟨buildable, reason⟩, havailable, _⟩ := Except.bind_eq_ok.mp hentries
    exact ⟨⟨inst, buildable, reason⟩,
      (registered_get?_iff h).mpr ⟨⟨hinst, outputs, hprovided, houtput⟩, havailable⟩⟩

/-- In terms of the catalogue, the elimination asks for exactly what is supplied. -/
theorem mem_supportedBy_registered {context : Dict String String}
    {providers : List (List Instance)} {index : OutputIndex}
    (h : registerAll context providers = .ok index) (build_dir : Option BuildDir) (S : Set String)
    (output : String) :
    output ∈ supportedBy index build_dir S ↔ Supplied providers context build_dir S output := by
  constructor
  · rintro ⟨record, hget, hbuildable, hmeets⟩
    obtain ⟨hoffers, havailable⟩ := (registered_get?_iff h).mp hget
    refine ⟨record.inst, hoffers, ⟨record.reason, hbuildable ▸ havailable⟩, ?_⟩
    intro requirement hreq
    exact (hmeets requirement hreq).imp_right fun hext =>
      ⟨(registered_get?_eq_none_iff h).mp hext.1, hext.2⟩
  · rintro ⟨inst, hoffers, ⟨reason, havailable⟩, hmeets⟩
    refine ⟨⟨inst, true, reason⟩, (registered_get?_iff h).mpr ⟨hoffers, havailable⟩, rfl, ?_⟩
    intro requirement hreq
    exact (hmeets requirement hreq).imp_right fun hext =>
      ⟨(registered_get?_eq_none_iff h).mpr hext.1, hext.2⟩

/-- **The buildable outputs are the greatest set of supplied outputs.** -/
theorem buildOutputIndex_isGreatest {providers : List (List Instance)}
    {context : Dict String String} {build_dir : Option BuildDir} {index : OutputIndex}
    (h : buildOutputIndex providers context build_dir = .ok index) :
    IsGreatest {S : Set String | ∀ output ∈ S, Supplied providers context build_dir S output}
      (buildableSet index) := by
  obtain ⟨registered, hregistered, helim⟩ := Except.bind_eq_ok.mp h
  have hset : {S : Set String | ∀ output ∈ S, Supplied providers context build_dir S output} =
      {S | S ≤ supportedBy registered build_dir S} := by
    ext S
    exact forall₂_congr fun output _ =>
      (mem_supportedBy_registered hregistered build_dir S output).symm
  rw [hset, (eliminate_spec helim).2]
  exact OrderHom.isGreatest_gfp_le _

/-- **No order matters**: not that of the providers, nor that of the entries that the
elimination goes through. -/
theorem buildOutputIndex_perm {providers providers' : List (List Instance)}
    {context : Dict String String} {build_dir : Option BuildDir} {index : OutputIndex}
    (h : buildOutputIndex providers context build_dir = .ok index)
    (hp : providers'.Perm providers) :
    ∃ registered, registerAll context providers' = .ok registered ∧
      ∀ entries, registered.Perm entries → ∃ index', eliminate build_dir entries = .ok index' ∧
        buildableSet index' = buildableSet index := by
  obtain ⟨registered, hregistered, helim⟩ := Except.bind_eq_ok.mp h
  obtain ⟨registered', hregistered', hperm⟩ := registerAll_perm hp hregistered
  refine ⟨registered', hregistered', fun entries hentries => ?_⟩
  obtain ⟨_, _, rfl, hkeys⟩ := registerAll_eq_ok.mp hregistered
  exact eliminate_perm hkeys (hperm.symm.trans hentries) helim

end Mountin
