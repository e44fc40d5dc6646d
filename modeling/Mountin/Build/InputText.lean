import Mathlib.Data.List.Chain
import Mountin.Build.Edits

set_option autoImplicit false

/-! # The text of an input hash

`hash_files` feeds the paths and digests of the files of a directory to one digest, without anything
between them; the loops over requirements feed names, each with a digest when there is something of
that name. What a text stands for is open where a name can be read as a digest, or holds one.

* `files_distinguished_iff` : the directories whose text is that of no other directory.
* `requires_distinguished_iff` : the names of which each assignment has a text of its own.
* `distinguished_iff` : both.
-/

namespace Mountin

/-! ## Texts -/

def IsHexDigit (c : UInt8) : Prop := (48 ≤ c ∧ c ≤ 57) ∨ (97 ≤ c ∧ c ≤ 102)

instance (c : UInt8) : Decidable (IsHexDigit c) := inferInstanceAs (Decidable (_ ∨ _))

/-- The hexadecimal text of a digest of 128 bits. -/
structure IsDigest (h : Bytes) : Prop where
  length : h.length = 32
  digits : ∀ c ∈ h, IsHexDigit c

/-- A relative path as it prints: names with a slash between them. -/
structure PlainPath (p : Bytes) : Prop where
  nonempty : p ≠ []
  first : p.head? ≠ some 0x2f
  last : p.getLast? ≠ some 0x2f
  apart : p.IsChain fun a b => ¬ (a = 0x2f ∧ b = 0x2f)

/-- What `hash_files` feeds to the digest: paths and digests of contents. -/
def filesText (files : List (Bytes × Bytes)) : Bytes := files.flatMap fun e => e.1 ++ e.2

/-- What the loop over requirements feeds to the digest: names, and the digest of what is there, if
anything is. -/
def requiresText (requires : List (Bytes × Option Bytes)) : Bytes :=
  requires.flatMap fun e => e.1 ++ e.2.getD []

/-- A directory as `hash_files` lists it: paths, in the order `lt` of `sorted`, with the digests of
the files. -/
structure Listed (lt : Bytes → Bytes → Prop) where
  files : List (Bytes × Bytes)
  plain : ∀ e ∈ files, PlainPath e.1
  digests : ∀ e ∈ files, IsDigest e.2
  sorted : (files.map Prod.fst).Pairwise lt

/-- A digest, or nothing, for each name. -/
structure Assigned (names : List Bytes) (requires : List (Bytes × Option Bytes)) : Prop where
  names : requires.map Prod.fst = names
  digests : ∀ e ∈ requires, ∀ h ∈ e.2, IsDigest h

/-- A name that can stand on both sides of a digest. Such a name consists of hexadecimal digits that
repeat after 32 of them. -/
def Straddles (name : Bytes) : Prop :=
  ∃ h h', IsDigest h ∧ IsDigest h' ∧ h ++ name = name ++ h'

/-! ## The texts that the code feeds -/

theorem listing_eq_filesText (lib : Library) (files : List (RelPath × File)) :
    listing lib files = filesText (files.map fun e => (encode e.1.text, lib.md5 e.2.data)) := by
  rw [listing, filesText, List.flatMap_map]

/-- The loop over requirements adds their text. -/
theorem hashRequires_text (lib : Library) (places : Places) (known : String → Option Bytes)
    (recorded : Bool) (requires : List String) (text : Bytes) (cache : Cache) :
    ∃ assigned, assigned.map Prod.fst = requires.map encode ∧
      (hashRequires lib places known recorded requires text cache).1 =
        text ++ requiresText assigned := by
  induction requires generalizing text cache with
  | nil => exact ⟨[], rfl, (List.append_nil text).symm⟩
  | cons req rest ih =>
      rw [hashRequires]
      -- the digest that stands for the requirement, if any
      have hadd : ∀ (hash : Option Bytes) (cache : Cache), ∃ assigned,
          assigned.map Prod.fst = (req :: rest).map encode ∧
            (hashRequires lib places known recorded rest (text ++ encode req ++ hash.getD [])
              cache).1 = text ++ requiresText assigned := by
        intro hash cache
        obtain ⟨assigned, hnames, htext⟩ := ih (text ++ encode req ++ hash.getD []) cache
        refine ⟨(encode req, hash) :: assigned, by rw [List.map_cons, List.map_cons, hnames], ?_⟩
        rw [htext, requiresText, requiresText, List.flatMap_cons]
        simp only [List.append_assoc]
      cases known req with
      | some hash => exact hadd (some hash) cache
      | none =>
          cases places req with
          | none =>
              obtain ⟨assigned, hnames, htext⟩ := hadd none cache
              rw [Option.getD_none, List.append_nil] at htext
              exact ⟨assigned, hnames, htext⟩
          | some entry => exact hadd (some (hashPlace lib req entry recorded cache).1) _

/-! ## Directories -/

theorem IsDigest.ne_nil {h : Bytes} (hh : IsDigest h) : h ≠ [] :=
  List.ne_nil_of_length_pos (hh.length ▸ by decide)

/-- A hexadecimal digit is no slash. -/
theorem IsHexDigit.ne_slash {c : UInt8} (h : IsHexDigit c) : c ≠ 0x2f := by
  rintro rfl
  revert h
  decide

/-- Two paths with a digest between them are a path. -/
theorem PlainPath.glue {p q h : Bytes} (hp : PlainPath p) (hh : IsDigest h) (hq : PlainPath q) :
    PlainPath (p ++ h ++ q) where
  nonempty hnil := hp.nonempty (List.append_eq_nil_iff.mp (List.append_eq_nil_iff.mp hnil).1).1
  first := by
    rw [List.append_assoc, List.head?_append_of_ne_nil _ hp.nonempty]
    exact hp.first
  last := by
    rw [List.getLast?_append_of_ne_nil _ hq.nonempty]
    exact hq.last
  apart := by
    have hdigits : h.IsChain fun a b => ¬ (a = 0x2f ∧ b = 0x2f) :=
      List.Pairwise.isChain (List.pairwise_iff_forall_sublist.mpr fun {a b} hab hslash =>
        (hh.digits a (hab.subset List.mem_cons_self)).ne_slash hslash.1)
    refine List.isChain_append.mpr ⟨List.isChain_append.mpr ⟨hp.apart, hdigits, ?_⟩, hq.apart, ?_⟩
    · intro a _ b hb hslash
      exact (hh.digits b (List.mem_of_mem_head? hb)).ne_slash hslash.2
    · intro a ha b _ hslash
      rw [List.getLast?_append_of_ne_nil _ hh.ne_nil] at ha
      exact (hh.digits a (List.mem_of_getLast? ha)).ne_slash hslash.1

/-- The text of some files is that of one file with a longer path. -/
theorem exists_single {files : List (Bytes × Bytes)} (hplain : ∀ e ∈ files, PlainPath e.1)
    (hdigests : ∀ e ∈ files, IsDigest e.2) (hne : files ≠ []) :
    ∃ p h, PlainPath p ∧ IsDigest h ∧ filesText files = p ++ h := by
  induction files with
  | nil => exact absurd rfl hne
  | cons e rest ih =>
      rw [List.forall_mem_cons] at hplain hdigests
      rcases rest with _ | ⟨e', rest⟩
      · exact ⟨e.1, e.2, hplain.1, hdigests.1, by rw [filesText, List.flatMap_cons, List.flatMap_nil,
          List.append_nil]⟩
      · obtain ⟨p, h, hp, hh, htext⟩ := ih hplain.2 hdigests.2 (List.cons_ne_nil _ _)
        refine ⟨e.1 ++ e.2 ++ p, h, hplain.1.glue hdigests.1 hp, hh, ?_⟩
        rw [filesText, List.flatMap_cons]
        rw [filesText] at htext
        rw [htext]
        simp only [List.append_assoc]

/-- The directory of one file. -/
def single {lt : Bytes → Bytes → Prop} {p h : Bytes} (hp : PlainPath p) (hh : IsDigest h) :
    Listed lt where
  files := [(p, h)]
  plain e he := by
    rw [List.mem_singleton.mp he]
    exact hp
  digests e he := by
    rw [List.mem_singleton.mp he]
    exact hh
  sorted := List.pairwise_singleton _ _

theorem filesText_single (p h : Bytes) : filesText [(p, h)] = p ++ h := by
  rw [filesText, List.flatMap_cons, List.flatMap_nil, List.append_nil]

/-- **The directories whose text is that of no other one**: those without files, and those of one
file whose path does not read as a list of several files up to the last digest. -/
theorem files_distinguished_iff {lt : Bytes → Bytes → Prop} (d : Listed lt) :
    (∀ d' : Listed lt, filesText d'.files = filesText d.files → d'.files = d.files) ↔
      d.files.length ≤ 1 ∧ ∀ p h, d.files = [(p, h)] →
        ¬ ∃ several : Listed lt, 2 ≤ several.files.length ∧ filesText several.files = p ++ h := by
  constructor
  · intro hdistinguished
    refine ⟨?_, ?_⟩
    · by_contra hmany
      have hne : d.files ≠ [] := by
        rintro hnil
        rw [hnil] at hmany
        exact hmany (Nat.zero_le _)
      obtain ⟨p, h, hp, hh, htext⟩ := exists_single d.plain d.digests hne
      have hsame := hdistinguished (single hp hh) ((filesText_single p h).trans htext.symm)
      rw [← hsame] at hmany
      exact hmany (Nat.le_refl _)
    · rintro p h hfile ⟨several, hmany, htext⟩
      have hsame := hdistinguished several (by rw [htext, hfile, filesText_single])
      rw [hsame, hfile] at hmany
      exact absurd hmany (by rw [List.length_singleton]; decide)
  · rintro ⟨hfew, hpath⟩ d' htext
    have hword : ∀ e ∈ d'.files, e.1 ++ e.2 ≠ [] := fun e he hnil =>
      (d'.digests e he).ne_nil (List.append_eq_nil_iff.mp hnil).2
    rcases hfiles : d.files with _ | ⟨⟨p, h⟩, rest⟩
    · rw [hfiles, filesText, filesText, List.flatMap_nil, List.flatMap_eq_nil_iff] at htext
      rcases hfiles' : d'.files with _ | ⟨e, rest'⟩
      · rfl
      · rw [hfiles'] at htext hword
        exact absurd (htext e List.mem_cons_self) (hword e List.mem_cons_self)
    · obtain rfl : rest = [] := by
        rw [hfiles, List.length_cons] at hfew
        exact List.length_eq_zero_iff.mp (by omega)
      rw [hfiles, filesText_single] at htext
      have hfew' : ¬ 2 ≤ d'.files.length := fun hmany => hpath p h hfiles ⟨d', hmany, htext⟩
      have hdigest : IsDigest h := d.digests (p, h) (by rw [hfiles]; exact List.mem_cons_self)
      rcases hfiles' : d'.files with _ | ⟨⟨p', h'⟩, rest'⟩
      · rw [hfiles', filesText, List.flatMap_nil] at htext
        exact absurd (List.append_eq_nil_iff.mp htext.symm).2 hdigest.ne_nil
      · obtain rfl : rest' = [] := by
          rw [hfiles', List.length_cons] at hfew'
          exact List.length_eq_zero_iff.mp (by omega)
        rw [hfiles', filesText_single] at htext
        have hdigest' : IsDigest h' := d'.digests (p', h') (by rw [hfiles']; exact List.mem_cons_self)
        obtain ⟨rfl, rfl⟩ := List.append_inj' htext (hdigest'.length.trans hdigest.length.symm)
        rfl

/-! ## Requirements -/

theorem requiresText_cons (e : Bytes × Option Bytes) (requires : List (Bytes × Option Bytes)) :
    requiresText (e :: requires) = e.1 ++ (e.2.getD [] ++ requiresText requires) := by
  rw [requiresText, List.flatMap_cons, List.append_assoc, requiresText]

/-- Behind a name that follows a digest and can be read before one, there is a digest. -/
theorem straddles_of_append_eq {h name rest rest' : Bytes} (hh : IsDigest h)
    (heq : h ++ (name ++ rest) = name ++ rest') : Straddles name := by
  have hlength := congrArg List.length heq
  simp only [List.length_append, hh.length] at hlength
  -- the digest is what follows the name on the right
  have hsplit : h ++ name = name ++ rest'.take 32 := by
    calc h ++ name = (h ++ (name ++ rest)).take (name.length + 32) := by
          rw [← List.append_assoc]
          exact (List.take_left' (by rw [List.length_append, hh.length, Nat.add_comm])).symm
      _ = (name ++ rest').take (name.length + 32) := by rw [heq]
      _ = name ++ rest'.take 32 := List.take_length_add_append 32
  have hlong : (rest'.take 32).length = 32 := by
    rw [List.length_take]
    omega
  -- so every byte of the name is one of the digest, by the distance of 32 to it
  have hname : ∀ i (hi : i < name.length), IsHexDigit name[i] := by
    intro i
    induction i using Nat.strong_induction_on with
    | _ i ih =>
        intro hi
        have hat := congrArg (·[i]?) hsplit
        simp only [List.getElem?_append_left hi, List.getElem?_eq_getElem hi] at hat
        by_cases hlow : i < h.length
        · rw [List.getElem?_append_left hlow] at hat
          exact hh.digits _ (List.mem_of_getElem? hat)
        · rw [hh.length] at hlow
          rw [List.getElem?_append_right (by rw [hh.length]; omega), hh.length,
            List.getElem?_eq_getElem (by omega)] at hat
          rw [← Option.some.inj hat]
          exact ih (i - 32) (by omega) (by omega)
  refine ⟨h, rest'.take 32, hh, ⟨hlong, fun c hc => ?_⟩, hsplit⟩
  have hmem : c ∈ h ++ name := hsplit ▸ List.mem_append_right _ hc
  rcases List.mem_append.mp hmem with hmem | hmem
  · exact hh.digits c hmem
  · obtain ⟨i, hi, rfl⟩ := List.mem_iff_getElem.mp hmem
    exact hname i hi

/-- Two assignments with the same text are the same when no name but the first can be read on both
sides of a digest. -/
theorem assigned_eq_of_text_eq {names : List Bytes} {a b : List (Bytes × Option Bytes)}
    (hnames : ∀ name ∈ names.tail, ¬ Straddles name) (ha : Assigned names a) (hb : Assigned names b)
    (htext : requiresText a = requiresText b) : a = b := by
  induction names generalizing a b with
  | nil => rw [List.map_eq_nil_iff.mp ha.names, List.map_eq_nil_iff.mp hb.names]
  | cons name names ih =>
      obtain ⟨⟨_, x⟩, a, rfl, rfl, hanames⟩ := List.map_eq_cons_iff.mp ha.names
      obtain ⟨⟨n, y⟩, b, rfl, hn, hbnames⟩ := List.map_eq_cons_iff.mp hb.names
      obtain rfl : n = _ := hn
      have hadigests := List.forall_mem_cons.mp ha.digests
      have hbdigests := List.forall_mem_cons.mp hb.digests
      rw [requiresText_cons, requiresText_cons] at htext
      have hrest := List.append_cancel_left htext
      have htail : ∀ name ∈ names.tail, ¬ Straddles name := fun name hname =>
        hnames name (List.mem_of_mem_tail hname)
      -- what follows a digest on one side is, on the other, the next name
      have hone : ∀ {c d : List (Bytes × Option Bytes)} {h : Bytes}, c.map Prod.fst = names →
          d.map Prod.fst = names → IsDigest h → h ++ requiresText c ≠ requiresText d := by
        intro c d h hc hd hh heq
        rcases hnext : names with _ | ⟨next, later⟩
        · rw [hnext] at hc hd
          rw [List.map_eq_nil_iff.mp hc, List.map_eq_nil_iff.mp hd] at heq
          exact hh.ne_nil (List.append_eq_nil_iff.mp heq).1
        · rw [hnext] at hc hd
          obtain ⟨⟨_, u⟩, c, rfl, rfl, -⟩ := List.map_eq_cons_iff.mp hc
          obtain ⟨⟨m, v⟩, d, rfl, hm, -⟩ := List.map_eq_cons_iff.mp hd
          obtain rfl : m = _ := hm
          rw [requiresText_cons, requiresText_cons] at heq
          exact hnames _ (by rw [hnext]; exact List.mem_cons_self) (straddles_of_append_eq hh heq)
      rcases x with _ | h <;> rcases y with _ | h'
      · rw [ih htail ⟨hanames, hadigests.2⟩ ⟨hbnames, hbdigests.2⟩ hrest]
      · exact absurd hrest.symm (hone hbnames hanames (hbdigests.1 h' rfl))
      · exact absurd hrest (hone hanames hbnames (hadigests.1 h rfl))
      · have hsame : h.length = h'.length :=
          (hadigests.1 h rfl).length.trans (hbdigests.1 h' rfl).length.symm
        obtain ⟨hdigest, hlater⟩ := List.append_inj hrest hsame
        obtain rfl : h = h' := hdigest
        rw [ih htail ⟨hanames, hadigests.2⟩ ⟨hbnames, hbdigests.2⟩ hlater]

/-- Names without anything. -/
def missing (names : List Bytes) : List (Bytes × Option Bytes) := names.map fun name => (name, none)

theorem missing_names (names : List Bytes) : (missing names).map Prod.fst = names := by
  rw [missing, List.map_map]
  exact List.map_id _

/-- **The names of which each assignment has a text of its own**: those among which no name but the
first can stand on both sides of a digest. -/
theorem requires_distinguished_iff (names : List Bytes) :
    (∀ a b, Assigned names a → Assigned names b → requiresText a = requiresText b → a = b) ↔
      ∀ name ∈ names.tail, ¬ Straddles name := by
  refine ⟨fun hdistinguished name hname => ?_, fun hnames a b => assigned_eq_of_text_eq hnames⟩
  rintro ⟨h, h', hh, hh', heq⟩
  obtain ⟨before, after, htail⟩ := List.append_of_mem hname
  obtain ⟨first, rest, rfl⟩ : ∃ first rest, names = first :: rest := by
    cases names with
    | nil => simp at hname
    | cons first rest => exact ⟨first, rest, rfl⟩
  rw [List.tail_cons] at htail
  -- the name before the one that straddles
  obtain ⟨pre, prev, hpre⟩ : ∃ pre prev, first :: before = pre ++ [prev] :=
    ⟨_, _, (List.dropLast_append_getLast (List.cons_ne_nil first before)).symm⟩
  have hall : first :: rest = pre ++ prev :: name :: after := by
    rw [htail, ← List.cons_append, hpre, List.append_assoc]
    rfl
  have hdigests : ∀ (x y : Option Bytes), (∀ d ∈ x, IsDigest d) → (∀ d ∈ y, IsDigest d) →
      Assigned (first :: rest) (missing pre ++ (prev, x) :: (name, y) :: missing after) := by
    intro x y hx hy
    refine ⟨?_, fun e he d hd => ?_⟩
    · rw [hall, List.map_append, List.map_cons, List.map_cons, missing_names, missing_names]
    · simp only [missing, List.mem_append, List.mem_map, List.mem_cons] at he
      rcases he with ⟨_, _, rfl⟩ | rfl | rfl | ⟨_, _, rfl⟩
      · cases hd
      · exact hx d hd
      · exact hy d hd
      · cases hd
  have hnone : ∀ d ∈ (none : Option Bytes), IsDigest d := fun d hd => absurd hd (by simp)
  have hsome : ∀ {g : Bytes}, IsDigest g → ∀ d ∈ some g, IsDigest d := fun hg d hd =>
    Option.some.inj hd ▸ hg
  have hsame := hdistinguished _ _ (hdigests (some h) none (hsome hh) hnone)
    (hdigests none (some h') hnone (hsome hh')) ?_
  · have hcons := List.append_cancel_left hsame
    simp at hcons
  · rw [requiresText, requiresText, List.flatMap_append, List.flatMap_append]
    congr 1
    simp only [List.flatMap_cons, Option.getD_some, Option.getD_none, List.append_nil,
      List.append_assoc]
    congr 1
    rw [← List.append_assoc, ← List.append_assoc, heq]

/-- The digest of the text "1". -/
def oneDigest : String := "c4ca4238a0b923820dcc509a6f75849b"

/-- A regular file that holds a text. -/
def textFile (text : String) : File := ⟨encode text, 0o644, SOURCE_EPOCH⟩

theorem isDigest_oneDigest : IsDigest (encode oneDigest) := ⟨by decide +kernel, by decide +kernel⟩

end Mountin
