import Mathlib.Data.List.Sort
import Mountin.Detect.Tree

set_option autoImplicit false

/-! # Priority order

`compile.py` orders the formats by descending priority, then name. The compiled database is
a map, which `FormatDb::from_slice` reads into a `HashMap` and lists in the iteration order
of that map: any permutation of the compiled formats. `detectTree_eq_iff` says on which
readers every iteration order gives the tree of the compiled order.
-/

namespace Mountin

/-! ## Compilation -/

/-- The metadata of a catalogue path that `compile_formats` reads: its `detect` block, if it
has one, and its priority, 0 by default. -/
structure Meta (α : Type) where
  detect : Option α
  priority : Int := 0

/-- The paths of a catalogue: a dictionary. -/
structure Catalogue (α : Type) where
  paths : List (String × Meta α)
  nodup : (paths.map Prod.fst).Nodup

/-- The prefix of the paths of formats. -/
def formatPrefix : List Char := "format/".toList

/-- The key of a path: what follows `format/`. -/
def formatKey (path : String) : Option String :=
  if formatPrefix.isPrefixOf path.toList then
    let key := path.toList.drop 7
    if key.isEmpty then none else some (String.ofList key)
  else none

section

variable {α : Type} (normalizeDetect : α → Except String (Option Detect))

/-- The entry of one path: key, compiled rules, priority. `normalizeDetect` is
`normalize_detect`, with the rules as they are read back from the database. -/
def compileEntry (entry : String × Meta α) : Except String (Option (String × Detect × Int)) :=
  match formatKey entry.1, entry.2.detect with
  | some key, some detect =>
      match normalizeDetect detect with
      | .error e => .error ("Error in " ++ entry.1 ++ ": " ++ e)
      | .ok none => .ok none
      | .ok (some result) => .ok (some (key, result, entry.2.priority))
  | _, _ => .ok none

/-- `(-priority, name)` of `a` is at most that of `b`. -/
def compiledBefore (a b : String × Detect × Int) : Prop :=
  b.2.2 < a.2.2 ∨ (a.2.2 = b.2.2 ∧ a.1 ≤ b.1)

instance : DecidableRel compiledBefore :=
  fun a b => inferInstanceAs (Decidable (b.2.2 < a.2.2 ∨ (a.2.2 = b.2.2 ∧ a.1 ≤ b.1)))

/-- `compile_formats`: the `formats` of the database, in the order of the dictionary. -/
def compileFormats (catalogue : Catalogue α) : Except String FormatDb := do
  let formats ← catalogue.paths.mapM (compileEntry normalizeDetect)
  let sorted := (formats.filterMap id).insertionSort compiledBefore
  return sorted.map (fun entry => (entry.1, entry.2.1))

end

theorem formatKey_eq_some {path key : String} (h : formatKey path = some key) :
    path = String.ofList (formatPrefix ++ key.toList) := by
  simp only [formatKey, Option.ite_none_right_eq_some, Option.ite_none_left_eq_some,
    Option.some.injEq] at h
  obtain ⟨hpre, -, rfl⟩ := h
  obtain ⟨rest, hrest⟩ := List.isPrefixOf_iff_prefix.mp hpre
  have hdrop : path.toList.drop 7 = rest := by rw [← hrest]; rfl
  rw [String.toList_ofList, hdrop, hrest, String.ofList_toList]

section

variable {α : Type} {normalizeDetect : α → Except String (Option Detect)}

theorem compileEntry_name {entry : String × Meta α} {compiled : String × Detect × Int}
    (h : compileEntry normalizeDetect entry = .ok (some compiled)) :
    formatKey entry.1 = some compiled.1 := by
  unfold compileEntry at h
  cases hkey : formatKey entry.1 with
  | none => simp [hkey] at h
  | some key =>
      cases hdetect : entry.2.detect with
      | none => simp [hkey, hdetect] at h
      | some detect =>
          simp only [hkey, hdetect] at h
          split at h <;> simp_all
          exact congrArg Prod.fst h

/-- The names that are compiled come from the paths, in their order. -/
theorem mapM_compileEntry_sublist {paths : List (String × Meta α)}
    {entries : List (Option (String × Detect × Int))}
    (h : paths.mapM (compileEntry normalizeDetect) = .ok entries) :
    ((entries.filterMap id).map Prod.fst).Sublist
      (paths.filterMap (fun entry => formatKey entry.1)) := by
  induction paths generalizing entries with
  | nil =>
      rw [List.mapM_nil] at h
      cases h
      exact List.Sublist.slnil
  | cons entry paths ih =>
      rw [List.mapM_cons] at h
      cases hentry : compileEntry normalizeDetect entry with
      | error e => simp [hentry, bind, Except.bind] at h
      | ok compiled =>
          cases hpaths : paths.mapM (compileEntry normalizeDetect) with
          | error e => simp [hentry, hpaths, bind, Except.bind] at h
          | ok rest =>
              have hentries : entries = compiled :: rest := by
                simpa [hentry, hpaths, bind, Except.bind, pure, Except.pure] using h.symm
              subst hentries
              have hrest := ih hpaths
              cases compiled with
              | none =>
                  refine List.Sublist.trans hrest ?_
                  exact List.Sublist.filterMap _ (List.sublist_cons_self entry paths)
              | some compiled =>
                  have hname := compileEntry_name hentry
                  have hcons : (entry :: paths).filterMap (fun entry => formatKey entry.1)
                      = compiled.1 :: paths.filterMap (fun entry => formatKey entry.1) :=
                    List.filterMap_cons_some hname
                  rw [hcons]
                  exact hrest.cons_cons compiled.1

/-- The names of a compiled database are distinct. -/
theorem compileFormats_nodup {catalogue : Catalogue α} {compiled : FormatDb}
    (h : compileFormats normalizeDetect catalogue = .ok compiled) :
    (compiled.map Prod.fst).Nodup := by
  unfold compileFormats at h
  cases hentries : catalogue.paths.mapM (compileEntry normalizeDetect) with
  | error e => simp [hentries, bind, Except.bind] at h
  | ok entries =>
      simp only [hentries, bind, Except.bind, pure, Except.pure, Except.ok.injEq] at h
      subst h
      rw [List.map_map]
      have hperm : (((entries.filterMap id).insertionSort compiledBefore).map Prod.fst).Perm
          ((entries.filterMap id).map Prod.fst) :=
        (List.perm_insertionSort compiledBefore _).map Prod.fst
      refine hperm.nodup_iff.mpr (List.Nodup.sublist (mapM_compileEntry_sublist hentries) ?_)
      have hkeys : (catalogue.paths.map Prod.fst).filterMap formatKey
          = catalogue.paths.filterMap (fun entry => formatKey entry.1) := List.filterMap_map ..
      rw [← hkeys]
      refine catalogue.nodup.filterMap (fun p q key hp hq => ?_)
      rw [formatKey_eq_some hp, formatKey_eq_some hq]

end

/-! ## Loading -/

/-- A name that holds a NUL is not a C string. -/
def hasNul (name : String) : Bool := name.toList.contains '\x00'

/-- `FormatDb::from_slice`, given the entries of the map in its iteration order. -/
def fromSlice (entries : List (String × Detect)) : Except IoError FormatDb :=
  entries.mapM fun entry =>
    if hasNul entry.1 then .error (.invalidData "nul byte found in provided data")
    else .ok entry

/-- A database loads when none of its names holds a NUL, and then lists its entries. -/
theorem fromSlice_eq_ok {entries db : List (String × Detect)} :
    fromSlice entries = .ok db ↔ (∀ entry ∈ entries, hasNul entry.1 = false) ∧ db = entries := by
  induction entries generalizing db with
  | nil =>
      show Except.ok [] = Except.ok db ↔ _
      rw [Except.ok.injEq, and_iff_right (by simp)]
      exact eq_comm
  | cons entry entries ih =>
      unfold fromSlice at ih ⊢
      rw [List.mapM_cons, List.forall_mem_cons]
      cases hnul : hasNul entry.1 with
      | true => simp [bind, Except.bind]
      | false =>
          rw [if_neg Bool.false_ne_true]
          cases hrest : (entries.mapM fun entry => if hasNul entry.1 then
              Except.error (IoError.invalidData "nul byte found in provided data")
            else Except.ok entry) with
          | error e =>
              have hnone : ¬ ∀ entry ∈ entries, hasNul entry.1 = false := by
                intro hall
                have hok := ih.mpr ⟨hall, (rfl : entries = entries)⟩
                rw [hrest] at hok
                cases hok
              simp only [bind, Except.bind, reduceCtorEq, hnone, and_false, false_and]
          | ok rest =>
              obtain ⟨hall, rfl⟩ := ih.mp hrest
              simp only [bind, Except.bind, pure, Except.pure, Except.ok.injEq]
              constructor
              · rintro rfl
                exact ⟨⟨trivial, hall⟩, rfl⟩
              · rintro ⟨-, rfl⟩
                rfl

/-- Every iteration order of a map that loads is loaded as it is. -/
theorem fromSlice_perm {entries order : FormatDb} (h : ∃ db, fromSlice entries = .ok db)
    (horder : order.Perm entries) : fromSlice order = .ok order := by
  obtain ⟨db, hdb⟩ := h
  have hnul := (fromSlice_eq_ok.mp hdb).1
  exact fromSlice_eq_ok.mpr ⟨fun entry hmem => hnul entry (horder.subset hmem), rfl⟩

/-! ## Ambiguous readers -/

section

variable (containers : String → Option Container) (regex : RegexMatch) (formats : FormatDb)

/-- A property of the visits of the children of a container, given what each visit marks. -/
def forKids (below : Site → Finset Key → Prop) (mark : Site → Finset Key → Finset Key) :
    List Site → Finset Key → Prop
  | [], _ => True
  | site :: kids, seen => below site seen ∧ forKids below mark kids (mark site seen)

/-- The keys seen after a visit with `n` levels left. -/
def markLevel (n : Nat) (site : Site) (seen : Finset Key) : Finset Key :=
  if n = 0 then seen else markSeen regex formats site seen

/-- At most one format is reported at each reader that is reached. -/
def Unambiguous : Nat → Site → Finset Key → Prop
  | 0, _, _ => True
  | n + 1, site, seen =>
      match fresh regex formats site seen with
      | [] => True
      | [(format, _)] =>
          forKids (Unambiguous n) (markLevel regex formats n)
            ((kidsOf containers site.reader format).map (site.child format))
            (insert (site.key format) seen)
      | _ => False

variable {regex formats} {order : FormatDb}

theorem matching_perm (h : order.Perm formats) (site : Site) :
    (matching regex order site).Perm (matching regex formats site) :=
  h.filter _

theorem fresh_perm (h : order.Perm formats) (site : Site) (seen : Finset Key) :
    (fresh regex order site seen).Perm (fresh regex formats site seen) :=
  (matching_perm h site).filter _

theorem markLevel_perm (h : order.Perm formats) (n : Nat) (site : Site) (seen : Finset Key) :
    markLevel regex order n site seen = markLevel regex formats n site seen := by
  unfold markLevel markSeen
  rw [List.toFinset_eq_of_perm _ _ ((matching_perm h site).map _)]

/-- What a visit reports, with its keys. -/
theorem detectTreeRecursive_succ (hnodup : (formats.map Prod.fst).Nodup) (n : Nat) (site : Site)
    (seen : Finset Key) :
    detectTreeRecursive containers regex formats (n + 1) site seen
      = (freshNodes containers (detectTreeRecursive containers regex formats n) site
          (fresh regex formats site seen) seen, markSeen regex formats site seen) :=
  detectFormats_eq containers regex _ site hnodup seen

theorem detectTreeRecursive_snd (hnodup : (formats.map Prod.fst).Nodup) (n : Nat) (site : Site)
    (seen : Finset Key) :
    (detectTreeRecursive containers regex formats n site seen).2
      = markLevel regex formats n site seen := by
  cases n with
  | zero => rfl
  | succ n => rw [detectTreeRecursive_succ containers hnodup, markLevel, if_neg (by omega)]

theorem nodup_perm (hnodup : (formats.map Prod.fst).Nodup) (h : order.Perm formats) :
    (order.map Prod.fst).Nodup :=
  (h.map Prod.fst).nodup_iff.mpr hnodup

/-- The number of formats a visit reports does not depend on the order. -/
theorem length_detectTreeRecursive (hnodup : (formats.map Prod.fst).Nodup)
    (h : order.Perm formats) (n : Nat) (site : Site) (seen : Finset Key) :
    (detectTreeRecursive containers regex order n site seen).1.length
      = (detectTreeRecursive containers regex formats n site seen).1.length := by
  cases n with
  | zero => rfl
  | succ n =>
      rw [detectTreeRecursive_succ containers hnodup,
        detectTreeRecursive_succ containers (nodup_perm hnodup h), length_freshNodes,
        length_freshNodes]
      exact (fresh_perm h site seen).length_eq

theorem orData_inj {site : Site} {a b : List DetectNode} (hlen : a.length = b.length) :
    orData site a = orData site b ↔ a = b := by
  constructor
  · intro h
    cases a with
    | nil => exact (List.length_eq_zero_iff.mp hlen.symm).symm
    | cons x a =>
        cases b with
        | nil => cases hlen
        | cons y b => exact h
  · rintro rfl
    rfl

theorem length_orData {site : Site} {a b : List DetectNode} (hlen : a.length = b.length) :
    (orData site a).length = (orData site b).length := by
  cases a with
  | nil => rw [List.length_eq_zero_iff.mp hlen.symm]
  | cons x a =>
      cases b with
      | nil => cases hlen
      | cons y b => exact hlen

variable (regex)

/-- The children of a container are reported alike in every order when each child is. -/
theorem detectKids_eq_iff (hnodup : (formats.map Prod.fst).Nodup) {n : Nat}
    (ih : ∀ site seen,
      (∀ order : FormatDb, order.Perm formats →
        (detectTreeRecursive containers regex order n site seen).1
          = (detectTreeRecursive containers regex formats n site seen).1) ↔
      Unambiguous containers regex formats n site seen)
    (kids : List Site) (seen : Finset Key) :
    (∀ order : FormatDb, order.Perm formats →
      detectKids (detectTreeRecursive containers regex order n) kids seen
        = detectKids (detectTreeRecursive containers regex formats n) kids seen) ↔
    forKids (Unambiguous containers regex formats n) (markLevel regex formats n) kids seen := by
  induction kids generalizing seen with
  | nil => exact iff_of_true (fun _ _ => rfl) trivial
  | cons site kids ihkids =>
      rw [forKids, ← ih, ← ihkids, ← forall₂_and]
      refine forall₂_congr (fun order h => ?_)
      have hlen : (detectTreeRecursive containers regex order n site seen).1.length
          = (detectTreeRecursive containers regex formats n site seen).1.length :=
        length_detectTreeRecursive containers hnodup h n site seen
      have hmark : (detectTreeRecursive containers regex order n site seen).2
          = markLevel regex formats n site seen := by
        rw [detectTreeRecursive_snd containers (nodup_perm hnodup h), markLevel_perm h]
      rw [detectKids, detectKids, hmark, detectTreeRecursive_snd containers hnodup]
      constructor
      · intro happend
        obtain ⟨hhead, htail⟩ := List.append_inj happend (length_orData hlen)
        exact ⟨(orData_inj hlen).mp hhead, htail⟩
      · rintro ⟨hhead, htail⟩
        rw [hhead, htail]

/-- Two formats reported at one reader come in the order in which they are tried. -/
theorem freshNodes_reverse_ne (hnodup : (formats.map Prod.fst).Nodup) {site : Site}
    {seen : Finset Key} (below below' : Site → Finset Key → List DetectNode × Finset Key)
    {a b : String × Detect} {rest : FormatDb}
    (h : fresh regex formats site seen = a :: b :: rest) :
    freshNodes containers below site (fresh regex formats.reverse site seen) seen
      ≠ freshNodes containers below' site (fresh regex formats site seen) seen := by
  intro heq
  have hnames := congrArg (List.map DetectNode.format) heq
  have hreverse : fresh regex formats.reverse site seen
      = (fresh regex formats site seen).reverse := by
    simp only [fresh, matching, List.filter_reverse]
  rw [freshNodes_map_format, freshNodes_map_format, hreverse, List.map_reverse] at hnames
  have hfresh : ((fresh regex formats site seen).map Prod.fst).Nodup :=
    hnodup.sublist ((List.filter_sublist.trans List.filter_sublist).map Prod.fst)
  rw [h] at hnames hfresh
  simp only [List.map_cons, List.reverse_cons, List.append_assoc] at hnames hfresh
  have hlast := congrArg List.getLast? hnames
  have hhead : a.1 ∈ b.1 :: rest.map Prod.fst := by
    refine List.mem_of_getLast? ?_
    rw [← List.getLast?_cons_cons, ← hlast]
    simp
  exact (List.nodup_cons.mp hfresh).1 hhead

/-- A visit reports the same nodes in every order of the formats exactly when no reader below
it is ambiguous. -/
theorem detectTreeRecursive_eq_iff (hnodup : (formats.map Prod.fst).Nodup) (n : Nat)
    (site : Site) (seen : Finset Key) :
    (∀ order : FormatDb, order.Perm formats →
      (detectTreeRecursive containers regex order n site seen).1
        = (detectTreeRecursive containers regex formats n site seen).1) ↔
    Unambiguous containers regex formats n site seen := by
  induction n generalizing site seen with
  | zero => exact iff_of_true (fun _ _ => rfl) trivial
  | succ n ih =>
      rw [Unambiguous, detectTreeRecursive_succ containers hnodup]
      match hfresh : fresh regex formats site seen with
      | [] =>
          refine iff_of_true (fun order h => ?_) trivial
          rw [detectTreeRecursive_succ containers (nodup_perm hnodup h)]
          have hperm : (fresh regex order site seen).Perm (fresh regex formats site seen) :=
            fresh_perm h site seen
          rw [hfresh] at hperm
          rw [hperm.eq_nil]
          rfl
      | [(format, detect)] =>
          refine Iff.trans ?_ (detectKids_eq_iff containers regex hnodup ih _ _)
          refine forall₂_congr (fun order h => ?_)
          rw [detectTreeRecursive_succ containers (nodup_perm hnodup h)]
          have hperm : (fresh regex order site seen).Perm (fresh regex formats site seen) :=
            fresh_perm h site seen
          rw [hfresh] at hperm
          rw [hperm.eq_singleton]
          simp only [freshNodes, formatNode, List.cons.injEq, DetectNode.node.injEq, true_and,
            and_true]
      | a :: b :: rest =>
          refine iff_of_false (fun hall => ?_) not_false
          have hreverse := hall formats.reverse formats.reverse_perm
          rw [detectTreeRecursive_succ containers
            (nodup_perm hnodup formats.reverse_perm), ← hfresh] at hreverse
          exact freshNodes_reverse_ne containers regex hnodup _ _ hfresh hreverse

end

/-! ## The loaded order -/

theorem perm_eq_iff_length_le_one {α : Type} {l : List α} (hnodup : l.Nodup) :
    (∀ order : List α, order.Perm l → order = l) ↔ l.length ≤ 1 := by
  match l with
  | [] => exact iff_of_true (fun _ h => h.eq_nil) (Nat.zero_le 1)
  | [a] => exact iff_of_true (fun _ h => h.eq_singleton) le_rfl
  | a :: b :: rest =>
      refine iff_of_false (fun hall => ?_) (by simp)
      have hswap := hall (b :: a :: rest) (List.Perm.swap a b rest)
      rw [List.cons.injEq] at hswap
      obtain ⟨hba, -⟩ := hswap
      exact (List.nodup_cons.mp hnodup).1 (hba ▸ List.mem_cons_self)

/-- **Priority order**: a compiled database that loads is tried in the compiled order whatever
the iteration order of the map exactly when it has at most one format, and the tree of a
reader is that of the compiled order exactly when no reader reached is ambiguous. -/
theorem detectTree_eq_iff {α : Type} (normalizeDetect : α → Except String (Option Detect))
    (catalogue : Catalogue α) (compiled : FormatDb)
    (hcompiled : compileFormats normalizeDetect catalogue = .ok compiled)
    (hload : ∃ db, fromSlice compiled = .ok db)
    (containers : String → Option Container) (regex : RegexMatch) (reader : Reader) :
    ((∀ order : FormatDb, order.Perm compiled → fromSlice order = .ok compiled) ↔
      compiled.length ≤ 1) ∧
    ((∀ order : FormatDb, order.Perm compiled →
      detectTree containers regex (fromSlice order).toOption reader
        = detectTree containers regex (some compiled) reader) ↔
      Unambiguous containers regex compiled MAX_DEPTH (rootSite reader) ∅) := by
  have hnodup := compileFormats_nodup hcompiled
  constructor
  · rw [← perm_eq_iff_length_le_one hnodup.of_map]
    refine forall₂_congr (fun order h => ?_)
    rw [fromSlice_perm hload h, Except.ok.injEq]
  · rw [← detectTreeRecursive_eq_iff containers regex hnodup]
    refine forall₂_congr (fun order h => ?_)
    rw [fromSlice_perm hload h]
    rfl

/-- A rule for the boot signature, here at the start of the image. -/
def bootSignature : Detect :=
  .all [.leaf { offset := 0, typ := .le16, value := some (.int 0xaa55) } none]

/-- A file system and a partition table with the same signature; the partition table has the
lower priority. -/
def bootCatalogue : Catalogue Detect where
  paths := [
    ("format/pt/mbr", { detect := some bootSignature, priority := -10 }),
    ("format/index", { detect := none }),
    ("format/fs/fat", { detect := some bootSignature, priority := 10 })]
  nodup := by decide

theorem compileFormats_bootCatalogue :
    compileFormats (fun detect => .ok (some detect)) bootCatalogue
      = .ok [("fs/fat", bootSignature), ("pt/mbr", bootSignature)] := rfl

/-- On an image without the signature the other order gives the same, empty, tree. -/
theorem detectTree_without_signature :
    detectTree (fun _ => none) (fun _ _ => none)
        (fromSlice [("pt/mbr", bootSignature), ("fs/fat", bootSignature)]).toOption
        (bytesReader [0x55])
      = detectTree (fun _ => none) (fun _ _ => none)
          (some [("fs/fat", bootSignature), ("pt/mbr", bootSignature)]) (bytesReader [0x55]) := by
  have hiff := detectTree_eq_iff (fun detect => .ok (some detect)) bootCatalogue _
    compileFormats_bootCatalogue ⟨_, rfl⟩ (fun _ => none) (fun _ _ => none) (bytesReader [0x55])
  exact hiff.2.mpr trivial _ (List.Perm.swap _ _ _)

/-- Whether the file system or the partition table comes first depends on the map. -/
theorem priority_order_lost :
    ¬ ∀ (catalogue : Catalogue Detect) (compiled order : FormatDb),
      compileFormats (fun detect => .ok (some detect)) catalogue = .ok compiled →
      order.Perm compiled →
      ∀ (containers : String → Option Container) (regex : RegexMatch) (image : Image),
        detectTree containers regex (fromSlice order).toOption (fileReader image)
          = detectTree containers regex (some compiled) (fileReader image) := by
  intro h
  have heq := h bootCatalogue _ [("pt/mbr", bootSignature), ("fs/fat", bootSignature)]
    compileFormats_bootCatalogue (List.Perm.swap _ _ _) (fun _ => none) (fun _ _ => none)
    ⟨[0x55, 0xaa], by decide⟩
  have hnames := congrArg (List.map DetectNode.format) heq
  revert hnames
  decide

end Mountin
