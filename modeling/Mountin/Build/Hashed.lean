import Mathlib.Logic.Relation
import Mountin.Basic.Raising
import Mountin.Build.Cache

set_option autoImplicit false

/-! # What hashing does to the cache

Whatever is hashed, the cache changes only by the hashes of files.

* `Hashed` : the cache after hashing some files, in any order.
* `hashPathInputs_hashed`, `isOutputDirty_hashed` : the files that these functions hash.
-/

namespace Mountin

/-- The cache after hashing files of `S`. -/
def Hashed (lib : Library) (S : FileKey → File → Prop) : Cache → Cache → Prop :=
  Relation.ReflTransGen fun cache cache' => ∃ key f, S key f ∧ cache' = (hashFile lib f key cache).2

/-- A file below a place, with its key. -/
def FileAt (lib : Library) (places : Places) (key : FileKey) (f : File) : Prop :=
  ∃ req, (places req = some (.file f) ∧ key = .build req) ∨
    ∃ tree rel, places req = some (.dir tree) ∧ (rel, f) ∈ tree.files lib ∧ key = buildKey req rel

/-- A file of a context directory, with its key. -/
def FileIn (path : String) (files : List (RelPath × File)) (key : FileKey) (f : File) : Prop :=
  ∃ rel, (rel, f) ∈ files ∧ key = contextKey path rel

namespace Hashed

variable {lib : Library} {S S' : FileKey → File → Prop} {c c' c'' : Cache}

theorem mono (hS : ∀ key f, S key f → S' key f) (h : Hashed lib S c c') : Hashed lib S' c c' :=
  Relation.ReflTransGen.mono (fun _ _ ⟨key, f, hf, heq⟩ => ⟨key, f, hS key f hf, heq⟩) _ _ h

/-- **What hashing any one file keeps, hashing keeps.** -/
theorem invariant {K : Cache → Prop} (h : Hashed lib S c c')
    (hstep : ∀ cache key f, S key f → K cache → K (hashFile lib f key cache).2) (hK : K c) : K c' := by
  induction h with
  | refl => exact hK
  | tail _ hlast ih =>
      obtain ⟨key, f, hf, rfl⟩ := hlast
      exact hstep _ key f hf ih

theorem outputs (h : Hashed lib S c c') : c'.outputs = c.outputs := by
  refine h.invariant (K := fun cache => cache.outputs = c.outputs) (fun cache key f _ hK => ?_) rfl
  unfold hashFile
  split <;> [split <;> exact hK; exact hK]

theorem images (h : Hashed lib S c c') : c'.images = c.images := by
  refine h.invariant (K := fun cache => cache.images = c.images) (fun cache key f _ hK => ?_) rfl
  unfold hashFile
  split <;> [split <;> exact hK; exact hK]

end Hashed

variable (lib : Library)

theorem hashFile_hashed {S : FileKey → File → Prop} {f : File} {key : FileKey} (h : S key f)
    (cache : Cache) : Hashed lib S cache (hashFile lib f key cache).2 :=
  .single ⟨key, f, h, rfl⟩

theorem hashEach_hashed {S : FileKey → File → Prop} {key : RelPath → FileKey}
    (files : List (RelPath × File)) (h : ∀ e ∈ files, S (key e.1) e.2) (text : Bytes) (cache : Cache) :
    Hashed lib S cache (hashEach lib key files text cache).2 := by
  induction files generalizing text cache with
  | nil => exact .refl
  | cons e rest ih =>
      rw [List.forall_mem_cons] at h
      exact (hashFile_hashed lib h.1 cache).trans (ih h.2 _ _)

theorem hashFiles_hashed {S : FileKey → File → Prop} {key : RelPath → FileKey}
    (files : List (RelPath × File)) (h : ∀ e ∈ files, S (key e.1) e.2) (cache : Cache) :
    Hashed lib S cache (hashFiles lib key files cache).2 :=
  hashEach_hashed lib files h [] cache

theorem hashPlace_hashed {places : Places} {req : String} {entry : Entry}
    (h : places req = some entry) (recorded : Bool) (cache : Cache) :
    Hashed lib (FileAt lib places) cache (hashPlace lib req entry recorded cache).2 := by
  cases entry with
  | file f => exact hashFile_hashed lib ⟨req, .inl ⟨h, rfl⟩⟩ cache
  | dir tree =>
      have hfiles : Hashed lib (FileAt lib places) cache
          (hashFiles lib (buildKey req) (tree.files lib) cache).2 :=
        hashFiles_hashed lib _ (fun e he => ⟨req, .inr ⟨tree, e.1, h, he, rfl⟩⟩) cache
      simp only [hashPlace]
      cases cache.outputs.get? req with
      | none => exact hfiles
      | some cached =>
          dsimp only
          split
          · exact .refl
          · exact hfiles

theorem hashRequires_hashed (places : Places) (known : String → Option Bytes) (recorded : Bool)
    (requires : List String) (text : Bytes) (cache : Cache) :
    Hashed lib (FileAt lib places) cache
      (hashRequires lib places known recorded requires text cache).2 := by
  induction requires generalizing text cache with
  | nil => exact .refl
  | cons req rest ih =>
      rw [hashRequires]
      cases known req with
      | some hash => exact ih _ _
      | none =>
          cases hplace : places req with
          | none => exact ih _ _
          | some entry => exact (hashPlace_hashed lib hplace recorded cache).trans (ih _ _)

theorem hashOutputInputs_hashed (base_hash : Bytes) (requires : List String) (places : Places)
    (cache : Cache) : Hashed lib (FileAt lib places) cache
      (hashOutputInputs lib base_hash requires places cache).2 := by
  unfold hashOutputInputs
  split
  · exact .refl
  · exact hashRequires_hashed lib places _ _ _ _ cache

/-- The files hashed for an input hash: those of the context directory, and required ones. -/
theorem hashPathInputs_hashed {path : String} {files : List (RelPath × File)} {resolved : Metadata}
    {dep_hashes : Dict String Bytes} {places : Places} {context : Dict String String}
    {cache cache' : Cache} {hash : Bytes}
    (h : hashPathInputs lib path files resolved dep_hashes places context cache = .ok (hash, cache')) :
    ∃ cache₁, cache₁ = (hashFiles lib (contextKey path) files cache).2 ∧
      Hashed lib (FileIn path files) cache cache₁ ∧ Hashed lib (FileAt lib places) cache₁ cache' := by
  obtain ⟨requires, _, h⟩ := Except.bind_eq_ok.mp h
  obtain ⟨build_requires, _, h⟩ := Except.bind_eq_ok.mp h
  refine ⟨_, rfl, hashFiles_hashed lib files (fun e he => ⟨e.1, he, rfl⟩) cache, ?_⟩
  obtain rfl := (Prod.mk.inj (Except.ok.inj h)).2
  exact (hashRequires_hashed lib _ _ _ _ _ _).trans (hashRequires_hashed lib _ _ _ _ _ _)

/-- The files hashed to check an output. -/
theorem isOutputDirty_hashed (places : Places) (output : String) (input_hash : Bytes)
    (requires : List String) (cache : Cache) : Hashed lib (FileAt lib places) cache
      (isOutputDirty lib places output input_hash requires cache).2 := by
  have hinputs := hashOutputInputs_hashed lib input_hash requires places cache
  unfold isOutputDirty
  cases hplace : places output with
  | none => exact .refl
  | some entry =>
      cases cache.outputs.get? output with
      | none => exact .refl
      | some cached =>
          dsimp only
          split
          · exact hinputs
          cases entry with
          | dir tree => exact hinputs
          | file f =>
              dsimp only
              split
              · exact hinputs
              split
              · exact hinputs
              · exact hinputs.trans (hashFile_hashed lib ⟨output, .inl ⟨hplace, rfl⟩⟩ _)

/-- Recording an output hashes files, and sets its record by what is there. -/
theorem updateOutputHash_cases {places : Places} {output : String} {input_hash : Bytes}
    {requires : List String} {cache cache' : Cache}
    (h : updateOutputHash lib places output input_hash requires cache = .ok cache') :
    ∃ full_hash cache₁, full_hash = (hashOutputInputs lib input_hash requires places cache).1 ∧
      Hashed lib (FileAt lib places) cache cache₁ ∧
      ((∃ tree, places output = some (.dir tree) ∧
        cache' = { cache₁ with
          outputs := cache₁.outputs.set output ⟨full_hash, full_hash, .directory, 0, 0⟩ }) ∨
      ∃ f hash cache₂, places output = some (.file f) ∧
        hashFile lib f (.build output) cache₁ = (hash, cache₂) ∧
        cache' = { cache₂ with
          outputs := cache₂.outputs.set output ⟨full_hash, hash, .file, f.mtime, f.size⟩ }) := by
  refine ⟨_, _, rfl, hashOutputInputs_hashed lib input_hash requires places cache, ?_⟩
  unfold updateOutputHash at h
  cases hplace : places output with
  | none => simp [hplace] at h
  | some entry =>
      simp only [hplace] at h
      cases entry with
      | dir tree => exact .inl ⟨tree, rfl, (Except.ok.inj h).symm⟩
      | file f => exact .inr ⟨f, _, _, rfl, rfl, (Except.ok.inj h).symm⟩

end Mountin
