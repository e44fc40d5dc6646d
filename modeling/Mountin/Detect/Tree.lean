import Mathlib.Data.Finset.Basic
import Mountin.Detect.Matching

set_option autoImplicit false

/-! # The detection tree

The recursive half of `detect.rs`: every format that matches a reader is reported, and the
children of a container format are visited in turn. A key `(stream, offset, format)` is
reported once on a path and among the children of one container.
-/

namespace Mountin

/-- `struct DetectNode`. -/
inductive DetectNode where
  | node (format : String) (index : UInt32) (children : List DetectNode)

def DetectNode.format : DetectNode → String
  | .node format _ _ => format

def DetectNode.children : DetectNode → List DetectNode
  | .node _ _ children => children

/-- What the reader of a child shows: a window of the reader of its parent, or bytes that the
container produces (a decompressed, reconstructed or translated stream). -/
inductive View where
  | slice (offset length : Nat)
  | decoded (reader : Reader)

/-- The reader of a child. -/
def View.reader (parent : Reader) : View → Reader
  | .slice offset length => sliceReader parent offset length
  | .decoded reader => reader

/-- `struct Child`. -/
structure Child where
  index : UInt32
  offset : Nat
  view : View

/-- `Container::children`. -/
abbrev Container := Reader → Except IoError (List Child)

/-- `struct FormatDb`: the formats in the order in which they are tried. -/
abbrev FormatDb := List (String × Detect)

/-- A key of `seen`: stream, offset, format. -/
abbrev Key := String × Nat × String

/-- `MAX_DEPTH`. -/
def MAX_DEPTH : Nat := 16

/-- `is_transform`: the format creates a new byte stream. -/
def isTransform (format : String) : Bool := "arc/".toList.isPrefixOf format.toList

/-- The place of a visit: a reader and what `detect_tree_recursive` is told about it. -/
structure Site where
  reader : Reader
  index : UInt32
  stream : String
  offset : Nat

/-- The key of a format at a site. -/
def Site.key (site : Site) (format : String) : Key := (site.stream, site.offset, format)

/-- The stream name that the children of a format inherit. -/
def childStream (stream format : String) : String :=
  if isTransform format then stream ++ "/" ++ format else stream

/-- The site of a child. -/
def Site.child (site : Site) (format : String) (child : Child) : Site where
  reader := child.view.reader site.reader
  index := child.index
  stream := childStream site.stream format
  offset := child.offset

section

variable (containers : String → Option Container) (regex : RegexMatch)

/-- The children of a matched format; none when it is no container or its children cannot be
listed. `containers` is the registry `get_container`. -/
def kidsOf (reader : Reader) (format : String) : List Child :=
  match containers format with
  | none => []
  | some container =>
      match container reader with
      | .ok kids => kids
      | .error _ => []

/-- The fallback for a child in which nothing is detected. -/
def orData (site : Site) (detected : List DetectNode) : List DetectNode :=
  if detected.isEmpty then [.node "data" site.index []] else detected

/-- The visits of the children of one format, which share `branch_seen`. -/
def detectKids (below : Site → Finset Key → List DetectNode × Finset Key) :
    List Site → Finset Key → List DetectNode
  | [], _ => []
  | site :: kids, seen =>
      orData site (below site seen).1 ++ detectKids below kids (below site seen).2

/-- The node of a format that matches at a site. -/
def formatNode (below : Site → Finset Key → List DetectNode × Finset Key) (site : Site)
    (format : String) (seen : Finset Key) : DetectNode :=
  let kids := (kidsOf containers site.reader format).map (site.child format)
  .node format site.index (detectKids below kids seen)

/-- The loop over the formats at one reader. -/
def detectFormats (below : Site → Finset Key → List DetectNode × Finset Key) (site : Site) :
    FormatDb → Finset Key → List DetectNode × Finset Key
  | [], seen => ([], seen)
  | (format, detect) :: formats, seen =>
      if !matchesDetectDyn regex site.reader detect then detectFormats below site formats seen
      else if site.key format ∈ seen then detectFormats below site formats seen
      else
        -- the children see a clone of `seen`, so sibling formats explore independently
        let rest := detectFormats below site formats (insert (site.key format) seen)
        (formatNode containers below site format (insert (site.key format) seen) :: rest.1, rest.2)

/-- `detect_tree_recursive`, by the levels that remain below `MAX_DEPTH`. -/
def detectTreeRecursive (formats : FormatDb) :
    Nat → Site → Finset Key → List DetectNode × Finset Key
  | 0, _, seen => ([], seen)
  | n + 1, site, seen =>
      detectFormats containers regex (detectTreeRecursive formats n) site formats seen

/-- The site at which detection starts. -/
def rootSite (reader : Reader) : Site where
  reader := reader
  index := 0
  stream := ""
  offset := 0

/-- `detect_tree`; `formats` is the loaded database, if any. -/
def detectTree (formats : Option FormatDb) (reader : Reader) : List DetectNode :=
  match formats with
  | none => []
  | some formats =>
      (detectTreeRecursive containers regex formats MAX_DEPTH (rootSite reader) ∅).1

end

/-! ## What one visit reports -/

section

variable (containers : String → Option Container) (regex : RegexMatch)

/-- The formats that match a reader. -/
def matching (formats : FormatDb) (site : Site) : FormatDb :=
  formats.filter (fun entry => matchesDetectDyn regex site.reader entry.2)

/-- The formats that a visit reports. -/
def fresh (formats : FormatDb) (site : Site) (seen : Finset Key) : FormatDb :=
  (matching regex formats site).filter (fun entry => site.key entry.1 ∉ seen)

/-- The keys seen after a visit. -/
def markSeen (formats : FormatDb) (site : Site) (seen : Finset Key) : Finset Key :=
  seen ∪ ((matching regex formats site).map (fun entry => site.key entry.1)).toFinset

/-- The nodes of the formats that a visit reports. -/
def freshNodes (below : Site → Finset Key → List DetectNode × Finset Key) (site : Site) :
    FormatDb → Finset Key → List DetectNode
  | [], _ => []
  | (format, _) :: formats, seen =>
      formatNode containers below site format (insert (site.key format) seen)
        :: freshNodes below site formats (insert (site.key format) seen)

variable (below : Site → Finset Key → List DetectNode × Finset Key)

theorem freshNodes_map_format (site : Site) (formats : FormatDb) (seen : Finset Key) :
    (freshNodes containers below site formats seen).map DetectNode.format
      = formats.map Prod.fst := by
  induction formats generalizing seen with
  | nil => rfl
  | cons entry formats ih =>
      rw [freshNodes, List.map_cons, List.map_cons, ih]
      rfl

theorem length_freshNodes (site : Site) (formats : FormatDb) (seen : Finset Key) :
    (freshNodes containers below site formats seen).length = formats.length := by
  have h := congrArg List.length (freshNodes_map_format containers below site formats seen)
  rwa [List.length_map, List.length_map] at h

/-- A format that is not in the database is unseen however many of its keys are added. -/
theorem fresh_insert {formats : FormatDb} {site : Site} {seen : Finset Key} {format : String}
    (h : format ∉ formats.map Prod.fst) :
    fresh regex formats site (insert (site.key format) seen) = fresh regex formats site seen := by
  apply List.filter_congr
  rintro ⟨name, detect⟩ hmem
  have hname : name ≠ format := by
    rintro rfl
    exact h (List.mem_map_of_mem (List.mem_of_mem_filter hmem))
  have hkey : site.key name ≠ site.key format := by
    simpa [Site.key] using hname
  rw [decide_eq_decide, Finset.mem_insert, not_or]
  exact and_iff_right hkey

theorem detectFormats_skip {site : Site} {format : String} {detect : Detect}
    (hmatch : matchesDetectDyn regex site.reader detect = false) (formats : FormatDb)
    (seen : Finset Key) :
    detectFormats containers regex below site ((format, detect) :: formats) seen
      = detectFormats containers regex below site formats seen := by
  simp only [detectFormats, hmatch, Bool.not_false, if_true]

theorem detectFormats_drop {site : Site} {format : String} (detect : Detect)
    {seen : Finset Key} (hseen : site.key format ∈ seen) (formats : FormatDb) :
    detectFormats containers regex below site ((format, detect) :: formats) seen
      = detectFormats containers regex below site formats seen := by
  simp only [detectFormats, hseen, if_true, ite_self]

theorem detectFormats_report {site : Site} {format : String} {detect : Detect}
    {seen : Finset Key} (hmatch : matchesDetectDyn regex site.reader detect = true)
    (hseen : site.key format ∉ seen) (formats : FormatDb) :
    detectFormats containers regex below site ((format, detect) :: formats) seen
      = (formatNode containers below site format (insert (site.key format) seen)
            :: (detectFormats containers regex below site formats
                (insert (site.key format) seen)).1,
          (detectFormats containers regex below site formats
            (insert (site.key format) seen)).2) := by
  simp only [detectFormats, hmatch, hseen, Bool.not_true, Bool.false_eq_true, if_false]

/-- The loop over the formats reports the fresh ones and marks the matching ones. -/
theorem detectFormats_eq (site : Site) {formats : FormatDb} (h : (formats.map Prod.fst).Nodup)
    (seen : Finset Key) :
    detectFormats containers regex below site formats seen
      = (freshNodes containers below site (fresh regex formats site seen) seen,
          markSeen regex formats site seen) := by
  induction formats generalizing seen with
  | nil => simp [detectFormats, fresh, matching, freshNodes, markSeen]
  | cons entry formats ih =>
      obtain ⟨format, detect⟩ := entry
      rw [List.map_cons, List.nodup_cons] at h
      obtain ⟨hnot, hnodup⟩ := h
      cases hmatch : matchesDetectDyn regex site.reader detect with
      | true =>
          have hmatching : matching regex ((format, detect) :: formats) site
              = (format, detect) :: matching regex formats site := List.filter_cons_of_pos hmatch
          by_cases hseen : site.key format ∈ seen
          · rw [detectFormats_drop containers regex below detect hseen, ih hnodup]
            simp [fresh, markSeen, hmatching, hseen]
          · rw [detectFormats_report containers regex below hmatch hseen, ih hnodup,
              fresh_insert regex hnot]
            simp only [fresh, hmatching]
            rw [List.filter_cons_of_pos (by simpa using hseen)]
            simp [freshNodes, markSeen, hmatching]
      | false =>
          have hmatching : matching regex ((format, detect) :: formats) site
              = matching regex formats site := List.filter_cons_of_neg (by simp [hmatch])
          rw [detectFormats_skip containers regex below hmatch, ih hnodup]
          simp only [fresh, markSeen, hmatching]

end

end Mountin
