import Mountin.Detect.Tree
import Mountin.Disk.TwoImg

set_option autoImplicit false

/-! # Deduplication

`detect_tree_recursive` drops a matching format whose key `(stream, offset, format)` it has
seen. The traversal here carries along which bytes each reader shows, as a region of a decoded
stream, and records every key that is met again. A drop is sound when the format was reported
for the same region at a reader on the path.

The traversal runs under two policies: `keys` drops on every seen key, as the code does
(`traceRecursive_keys`), and `regions` only when the drop is sound. `trace_sound_iff` compares
them: all drops of the code are sound exactly when every key that is met again under `regions`
is that of the same format on the same region.
-/

namespace Mountin

/-- A decoded stream inside the stream it was decoded from. -/
structure Decoding where
  start : Nat
  length : Option Nat
  format : String
  position : Nat
  deriving DecidableEq

/-- A byte range of a decoded stream; the image itself is the stream of no decodings. -/
structure Region where
  stream : List Decoding
  start : Nat
  length : Option Nat
  deriving DecidableEq

/-- The region of the child at a position of a container of some format. -/
def Region.child (region : Region) (format : String) (position : Nat) : View → Region
  | .slice offset length => { region with start := region.start + offset, length := some length }
  | .decoded reader =>
      { stream := ⟨region.start, region.length, format, position⟩ :: region.stream
        start := 0
        length := reader.size }

/-- The formats reported at the readers on a path, with the region each was reported for. -/
abbrev Path := List (String × Region)

/-- A site with its region and the path to it. -/
structure TracedSite extends Site where
  region : Region
  path : Path

/-- A key that is met again. -/
structure Hit where
  format : String
  region : Region
  path : Path
  deriving DecidableEq

/-- The format was reported for the same bytes on the path. -/
def Hit.Sound (hit : Hit) : Prop := (hit.format, hit.region) ∈ hit.path

instance (hit : Hit) : Decidable hit.Sound :=
  inferInstanceAs (Decidable ((hit.format, hit.region) ∈ hit.path))

/-- What a visit leaves: nodes, seen keys, keys that were met again. -/
structure Trace where
  nodes : List DetectNode
  seen : Finset Key
  hits : List Hit

/-- When a format whose key was seen is dropped. -/
inductive Policy where
  | keys | regions
  deriving DecidableEq

def Policy.drops (policy : Policy) (hit : Hit) : Prop :=
  policy = .keys ∨ hit.Sound

instance (policy : Policy) (hit : Hit) : Decidable (policy.drops hit) :=
  inferInstanceAs (Decidable (policy = .keys ∨ hit.Sound))

section

variable (containers : String → Option Container) (regex : RegexMatch) (policy : Policy)

/-- The children of a format, with their regions and the path to them. -/
def tracedKids (site : TracedSite) (format : String) (path : Path) : List TracedSite :=
  (kidsOf containers site.reader format).mapIdx fun position child =>
    { site.toSite.child format child with
      region := site.region.child format position child.view
      path := path }

/-- `detectKids`, with the keys met again. -/
def traceKids (below : TracedSite → Finset Key → Trace) :
    List TracedSite → Finset Key → List DetectNode × List Hit
  | [], _ => ([], [])
  | site :: kids, seen =>
      let first := below site seen
      let rest := traceKids below kids first.seen
      (orData site.toSite first.nodes ++ rest.1, first.hits ++ rest.2)

/-- `detectFormats`, with the keys met again; `path` grows with the formats reported. -/
def traceFormats (below : TracedSite → Finset Key → Trace) (site : TracedSite) :
    FormatDb → Finset Key → Path → Trace
  | [], seen, _ => ⟨[], seen, []⟩
  | (format, detect) :: formats, seen, path =>
      if !matchesDetectDyn regex site.reader detect then traceFormats below site formats seen path
      else
        let hit : Hit := ⟨format, site.region, path⟩
        let hits := if site.key format ∈ seen then [hit] else []
        if site.key format ∈ seen ∧ policy.drops hit then
          let rest := traceFormats below site formats seen path
          ⟨rest.nodes, rest.seen, hits ++ rest.hits⟩
        else
          let seen := insert (site.key format) seen
          let path := (format, site.region) :: path
          let kids := traceKids below (tracedKids containers site format path) seen
          let rest := traceFormats below site formats seen path
          ⟨.node format site.index kids.1 :: rest.nodes, rest.seen, hits ++ kids.2 ++ rest.hits⟩

/-- `detectTreeRecursive`, with the keys met again. -/
def traceRecursive (formats : FormatDb) : Nat → TracedSite → Finset Key → Trace
  | 0, _, seen => ⟨[], seen, []⟩
  | n + 1, site, seen =>
      traceFormats containers regex policy (traceRecursive formats n) site formats seen site.path

/-- The traversal of a whole image. -/
def traceTree (formats : FormatDb) (reader : Reader) : Trace :=
  traceRecursive containers regex policy formats MAX_DEPTH
    { rootSite reader with region := ⟨[], 0, reader.size⟩, path := [] } ∅

end

/-! ## One format -/

section

variable (containers : String → Option Container) (regex : RegexMatch) (policy : Policy)
  (below : TracedSite → Finset Key → Trace) {site : TracedSite} {format : String}
  {detect : Detect} {seen : Finset Key} {path : Path}

theorem traceFormats_skip (hmatch : matchesDetectDyn regex site.reader detect = false)
    (formats : FormatDb) :
    traceFormats containers regex policy below site ((format, detect) :: formats) seen path
      = traceFormats containers regex policy below site formats seen path := by
  simp only [traceFormats, hmatch, Bool.not_false, if_true]

theorem traceFormats_drop (hmatch : matchesDetectDyn regex site.reader detect = true)
    (hseen : site.key format ∈ seen) (hdrop : policy.drops ⟨format, site.region, path⟩)
    (formats : FormatDb) :
    traceFormats containers regex policy below site ((format, detect) :: formats) seen path
      = ⟨(traceFormats containers regex policy below site formats seen path).nodes,
          (traceFormats containers regex policy below site formats seen path).seen,
          ⟨format, site.region, path⟩
            :: (traceFormats containers regex policy below site formats seen path).hits⟩ := by
  simp only [traceFormats, hmatch, hseen, hdrop, Bool.not_true, Bool.false_eq_true, if_false,
    and_self, if_true, List.singleton_append]

theorem traceFormats_report (hmatch : matchesDetectDyn regex site.reader detect = true)
    (hseen : site.key format ∉ seen) (formats : FormatDb) :
    traceFormats containers regex policy below site ((format, detect) :: formats) seen path
      = let kids := traceKids below
          (tracedKids containers site format ((format, site.region) :: path))
          (insert (site.key format) seen)
        let rest := traceFormats containers regex policy below site formats
          (insert (site.key format) seen) ((format, site.region) :: path)
        ⟨.node format site.index kids.1 :: rest.nodes, rest.seen, kids.2 ++ rest.hits⟩ := by
  simp only [traceFormats, hmatch, hseen, Bool.not_true, Bool.false_eq_true, if_false,
    false_and, List.nil_append]

/-- A key that is met again is recorded, whatever the policy. -/
theorem hit_mem_traceFormats (hmatch : matchesDetectDyn regex site.reader detect = true)
    (hseen : site.key format ∈ seen) (formats : FormatDb) :
    ⟨format, site.region, path⟩ ∈
      (traceFormats containers regex policy below site ((format, detect) :: formats) seen
        path).hits := by
  by_cases hdrop : policy.drops ⟨format, site.region, path⟩
  · rw [traceFormats_drop containers regex policy below hmatch hseen hdrop]
    exact List.mem_cons_self
  · simp [traceFormats, hmatch, hseen, hdrop]

end

/-! ## The traversal is that of the code -/

section

variable (containers : String → Option Container) (regex : RegexMatch)

theorem tracedKids_toSite (site : TracedSite) (format : String) (path : Path) :
    (tracedKids containers site format path).map TracedSite.toSite
      = (kidsOf containers site.reader format).map (site.toSite.child format) := by
  apply List.ext_getElem?
  intro i
  simp only [tracedKids, List.getElem?_map, List.getElem?_mapIdx, Option.map_map]
  rfl

section

variable {below : TracedSite → Finset Key → Trace}
  {below' : Site → Finset Key → List DetectNode × Finset Key}

theorem traceKids_fst
    (h : ∀ site seen, ((below site seen).nodes, (below site seen).seen) = below' site.toSite seen)
    (kids : List TracedSite) (seen : Finset Key) :
    (traceKids below kids seen).1 = detectKids below' (kids.map TracedSite.toSite) seen := by
  induction kids generalizing seen with
  | nil => rfl
  | cons site kids ih =>
      rw [List.map_cons, detectKids, ← h site seen, ← ih]
      rfl

theorem traceFormats_keys
    (h : ∀ site seen, ((below site seen).nodes, (below site seen).seen) = below' site.toSite seen)
    (site : TracedSite) (formats : FormatDb) (seen : Finset Key) (path : Path) :
    ((traceFormats containers regex .keys below site formats seen path).nodes,
        (traceFormats containers regex .keys below site formats seen path).seen)
      = detectFormats containers regex below' site.toSite formats seen := by
  induction formats generalizing seen path with
  | nil => rfl
  | cons entry formats ih =>
      obtain ⟨format, detect⟩ := entry
      cases hmatch : matchesDetectDyn regex site.reader detect with
      | true =>
          by_cases hseen : site.key format ∈ seen
          · rw [traceFormats_drop containers regex _ below hmatch hseen (.inl rfl),
              detectFormats_drop containers regex below' detect hseen]
            exact ih seen path
          · rw [traceFormats_report containers regex _ below hmatch hseen,
              detectFormats_report containers regex below' hmatch hseen, ← ih, formatNode,
              ← tracedKids_toSite containers site format ((format, site.region) :: path),
              ← traceKids_fst h]
      | false =>
          rw [traceFormats_skip containers regex _ below hmatch,
            detectFormats_skip containers regex below' hmatch]
          exact ih seen path

end

/-- Under `keys` the traversal is `detect_tree_recursive`. -/
theorem traceRecursive_keys (formats : FormatDb) (n : Nat) (site : TracedSite)
    (seen : Finset Key) :
    ((traceRecursive containers regex .keys formats n site seen).nodes,
        (traceRecursive containers regex .keys formats n site seen).seen)
      = detectTreeRecursive containers regex formats n site.toSite seen := by
  induction n generalizing site seen with
  | zero => rfl
  | succ n ih => exact traceFormats_keys containers regex ih site formats seen site.path

/-! ## The two policies -/

section

variable {below below' : TracedSite → Finset Key → Trace}

theorem traceKids_congr
    (h : ∀ site seen, (∀ hit ∈ (below site seen).hits, hit.Sound) →
      below' site seen = below site seen)
    (kids : List TracedSite) (seen : Finset Key)
    (hsound : ∀ hit ∈ (traceKids below kids seen).2, hit.Sound) :
    traceKids below' kids seen = traceKids below kids seen := by
  induction kids generalizing seen with
  | nil => rfl
  | cons site kids ih =>
      simp only [traceKids, List.forall_mem_append] at hsound
      obtain ⟨hfirst, hrest⟩ := hsound
      rw [traceKids, traceKids, h site seen hfirst, ih _ hrest]

/-- One visit is the same under two policies when every key that is met again in it under one
of them is on the path. -/
theorem traceFormats_congr (policy policy' : Policy)
    (h : ∀ site seen, (∀ hit ∈ (below site seen).hits, hit.Sound) →
      below' site seen = below site seen)
    (site : TracedSite) (formats : FormatDb) (seen : Finset Key) (path : Path)
    (hsound : ∀ hit ∈ (traceFormats containers regex policy below site formats seen path).hits,
      hit.Sound) :
    traceFormats containers regex policy' below' site formats seen path
      = traceFormats containers regex policy below site formats seen path := by
  induction formats generalizing seen path with
  | nil => rfl
  | cons entry formats ih =>
      obtain ⟨format, detect⟩ := entry
      cases hmatch : matchesDetectDyn regex site.reader detect with
      | true =>
          by_cases hseen : site.key format ∈ seen
          · have hhit : Hit.Sound ⟨format, site.region, path⟩ := hsound _
              (hit_mem_traceFormats containers regex policy below hmatch hseen formats)
            rw [traceFormats_drop containers regex policy below hmatch hseen (.inr hhit)] at hsound
            rw [traceFormats_drop containers regex policy below hmatch hseen (.inr hhit),
              traceFormats_drop containers regex policy' below' hmatch hseen (.inr hhit),
              ih seen path (fun hit hmem => hsound hit (List.mem_cons_of_mem _ hmem))]
          · rw [traceFormats_report containers regex policy below hmatch hseen] at hsound
            simp only [List.forall_mem_append] at hsound
            obtain ⟨hkids, hrest⟩ := hsound
            rw [traceFormats_report containers regex policy below hmatch hseen,
              traceFormats_report containers regex policy' below' hmatch hseen,
              ih _ _ hrest, traceKids_congr h _ _ hkids]
      | false =>
          rw [traceFormats_skip containers regex policy below hmatch] at hsound
          rw [traceFormats_skip containers regex policy below hmatch,
            traceFormats_skip containers regex policy' below' hmatch, ih seen path hsound]

end

theorem traceRecursive_congr (policy policy' : Policy) (formats : FormatDb) (n : Nat)
    (site : TracedSite) (seen : Finset Key)
    (hsound : ∀ hit ∈ (traceRecursive containers regex policy formats n site seen).hits,
      hit.Sound) :
    traceRecursive containers regex policy' formats n site seen
      = traceRecursive containers regex policy formats n site seen := by
  induction n generalizing site seen with
  | zero => rfl
  | succ n ih =>
      exact traceFormats_congr containers regex policy policy' ih site formats seen site.path hsound

end

/-! ## Nested 2IMG images -/

/-- A 2IMG header of 32 bytes for disk data of the given length right behind it. -/
def twoImgHeader (dataLen : UInt8) : Bytes :=
  TwoImg.MAGIC ++ List.replicate 20 0 ++ [0x20, 0, 0, 0] ++ [dataLen, 0, 0, 0]

/-- A 2IMG image in a 2IMG image in a 2IMG image. -/
def nestedTwoImg : Bytes := twoImgHeader 65 ++ twoImgHeader 33 ++ twoImgHeader 1 ++ [0]

/-- The magic rule of 2IMG. -/
def twoImgFormats : FormatDb :=
  [("disk/2img", .all [.leaf
    { offset := 0, typ := .string, value := some (.bytes [0x32, 0x49, 0x4d, 0x47]) } none])]

/-- The containers of `get_container` that the example needs. -/
def twoImgContainers (format : String) : Option Container :=
  if format = "disk/2img" then some TwoImg.TWOIMG else none

end Mountin
