import Mathlib.Data.Set.Function
import Mountin.Basic.Delimited
import Mountin.Build.Source

set_option autoImplicit false

/-! # The identity of an exported source tree

`_copy_entry` feeds path, mode, kind and content of each source file to one digest. The text that
the digest sees is the words of the files one after the other; each of these words ends by itself.

* `SourceRecord` : what `_copy_entry` reads of a source file.
* `recordText_delimited` : where the word of a file ends.
* `sourceText_injective` : the text of a list of files determines the list.
-/

namespace Mountin

/-! ## What is fed to the digest -/

/-- What a source file is: a regular file, or a symbolic link. -/
inductive SourceContent where
  | file (data : Bytes)
  | link (target : Bytes)

/-- What `_copy_entry` reads of a source file: its relative path by the names on it, as
`os.fsencode` gives them, its mode, and its content. -/
structure SourceRecord where
  relative : List Bytes
  mode : Nat
  content : SourceContent
  /-- the path leads to a file of the tree -/
  nonempty : relative ≠ []
  /-- no name has a slash -/
  named : ∀ name ∈ relative, (0x2f : UInt8) ∉ name

/-- `os.fsencode(relative)`. -/
def SourceRecord.path (record : SourceRecord) : Bytes := [0x2f].intercalate record.relative

/-- `n.to_bytes(width, "little")`, which raises `OverflowError` when the number does not fit. -/
def toBytes (width n : Nat) : Option Bytes :=
  if n < 256 ^ width then some (littleEndian width n) else none

/-- What `_digest_field` feeds to the digest. -/
def fieldText (value : Bytes) : Option Bytes := do
  let length ← toBytes 8 value.length
  return length ++ value

/-- What `_copy_entry` feeds to the digest. -/
def recordText (sha256 : Bytes → Bytes) (record : SourceRecord) : Option Bytes := do
  let relative ← fieldText record.path
  let mode ← toBytes 4 record.mode
  match record.content with
  | .link target =>
      let target ← fieldText target
      return relative ++ mode ++ encode "L" ++ target
  | .file data => return relative ++ mode ++ encode "F" ++ sha256 data

/-- What `export_source_tree` feeds to the digest. -/
def sourceText (sha256 : Bytes → Bytes) (records : List SourceRecord) : Option Bytes := do
  let texts ← records.mapM (recordText sha256)
  return texts.flatten

/-! ## The words -/

theorem littleEndian_succ (width n : Nat) :
    littleEndian (width + 1) n = UInt8.ofNat (n % 256) :: littleEndian width (n / 256) := by
  rw [littleEndian, List.range_succ_eq_map, List.map_cons, List.map_map, pow_zero, Nat.div_one]
  congr 1
  apply List.map_congr_left
  intro i _
  rw [Function.comp_apply, Nat.succ_eq_add_one, pow_succ', Nat.div_div_eq_div_mul]

theorem length_littleEndian (width n : Nat) : (littleEndian width n).length = width := by
  rw [littleEndian, List.length_map, List.length_range]

theorem littleEndian_injOn (width : Nat) :
    Set.InjOn (littleEndian width) {n | n < 256 ^ width} := by
  induction width with
  | zero =>
      intro n hn m hm _
      simp only [pow_zero, Set.mem_ofPred_eq, Nat.lt_one_iff] at hn hm
      rw [hn, hm]
  | succ width ih =>
      intro n hn m hm heq
      rw [Set.mem_ofPred_eq, pow_succ] at hn hm
      rw [littleEndian_succ, littleEndian_succ, List.cons.injEq] at heq
      have hlow : n % 256 = m % 256 := by
        have h := congrArg UInt8.toNat heq.1
        rwa [UInt8.toNat_ofNat', UInt8.toNat_ofNat', Nat.mod_mod, Nat.mod_mod] at h
      have hhigh : n / 256 = m / 256 :=
        ih (Nat.div_lt_of_lt_mul (by rwa [Nat.mul_comm])) (Nat.div_lt_of_lt_mul (by rwa [Nat.mul_comm]))
          heq.2
      omega

theorem littleEndian_delimited (width : Nat) :
    Delimited {n | n < 256 ^ width} (littleEndian width) :=
  delimited_of_length (fun n _ => length_littleEndian width n) (littleEndian_injOn width)

theorem digestField_delimited : Delimited {v : Bytes | v.length < 256 ^ 8} digestField :=
  delimited_prefixed (littleEndian_delimited 8)

/-- The parts of a record, in the order in which they are fed. -/
def SourceRecord.parts (record : SourceRecord) : (Bytes × Nat) × (Bytes ⊕ Bytes) :=
  ((record.path, record.mode),
    match record.content with
    | .link target => .inl target
    | .file data => .inr data)

theorem SourceRecord.parts_injective : Function.Injective SourceRecord.parts := by
  rintro ⟨relative, mode, content, hne, hnamed⟩ ⟨relative', mode', content', hne', hnamed'⟩ h
  simp only [parts, path, Prod.mk.injEq] at h
  obtain ⟨⟨hpath, rfl⟩, hcontent⟩ := h
  obtain rfl : relative = relative' :=
    List.intercalate_injOn (0x2f : UInt8) ⟨hne, hnamed⟩ ⟨hne', hnamed'⟩ hpath
  cases content <;> cases content' <;> simp_all

/-- The records that can be fed: no number that is fed is too large, and the content of a file is
one of `contents`. -/
def feedable (contents : Set Bytes) : Set ((Bytes × Nat) × (Bytes ⊕ Bytes)) :=
  ({v | v.length < 256 ^ 8} ×ˢ {n | n < 256 ^ 4}) ×ˢ
    {x | x.elim (· ∈ {v : Bytes | v.length < 256 ^ 8}) (· ∈ contents)}

/-- The word of a record, by its parts. -/
def partsWord (sha256 : Bytes → Bytes) (parts : (Bytes × Nat) × (Bytes ⊕ Bytes)) : Bytes :=
  (digestField parts.1.1 ++ littleEndian 4 parts.1.2) ++
    parts.2.elim (fun target => 0x4c :: digestField target) (fun data => 0x46 :: sha256 data)

/-- **The word of a record ends by itself.** -/
theorem partsWord_delimited {sha256 : Bytes → Bytes} {contents : Set Bytes}
    (hlength : ∀ data, (sha256 data).length = 32) (hsha256 : Set.InjOn sha256 contents) :
    Delimited (feedable contents) (partsWord sha256) := by
  have hhead := digestField_delimited.seq (littleEndian_delimited 4)
  have hdata : Delimited contents sha256 := delimited_of_length (fun data _ => hlength data) hsha256
  have hkind := digestField_delimited.tagged (show (0x4c : UInt8) ≠ 0x46 by decide) hdata
  exact hhead.seq hkind

/-- What is fed of a record is its word, and no number in it is too large. -/
theorem recordText_eq_some {sha256 : Bytes → Bytes} {record : SourceRecord} {b : Bytes}
    {contents : Set Bytes} (hdata : ∀ data, record.content = .file data → data ∈ contents)
    (h : recordText sha256 record = some b) :
    record.parts ∈ feedable contents ∧ partsWord sha256 record.parts = b := by
  have hbytes : ∀ {width n : Nat} {b : Bytes}, toBytes width n = some b →
      n < 256 ^ width ∧ littleEndian width n = b := fun {width n b} hb => by
    unfold toBytes at hb
    split at hb
    · exact ⟨by assumption, Option.some.inj hb⟩
    · cases hb
  have hfield : ∀ {value b : Bytes}, fieldText value = some b →
      value.length < 256 ^ 8 ∧ digestField value = b := fun {value b} hb => by
    obtain ⟨_, hlength, hb⟩ := Option.bind_eq_some_iff.mp hb
    obtain ⟨hfits, rfl⟩ := hbytes hlength
    exact ⟨hfits, Option.some.inj hb⟩
  obtain ⟨_, hrelative, h⟩ := Option.bind_eq_some_iff.mp h
  obtain ⟨_, hmode, h⟩ := Option.bind_eq_some_iff.mp h
  obtain ⟨hpath, rfl⟩ := hfield hrelative
  obtain ⟨hsmall, rfl⟩ := hbytes hmode
  cases hcontent : record.content with
  | link target =>
      rw [hcontent] at h
      obtain ⟨_, htarget, h⟩ := Option.bind_eq_some_iff.mp h
      obtain ⟨hlink, rfl⟩ := hfield htarget
      rw [SourceRecord.parts, hcontent]
      refine ⟨⟨⟨hpath, hsmall⟩, hlink⟩, ?_⟩
      rw [← Option.some.inj h, show encode "L" = [0x4c] by decide]
      simp only [partsWord, Sum.elim_inl, List.append_assoc, List.singleton_append]
  | file data =>
      rw [hcontent] at h
      rw [SourceRecord.parts, hcontent]
      refine ⟨⟨⟨hpath, hsmall⟩, hdata data hcontent⟩, ?_⟩
      rw [← Option.some.inj h, show encode "F" = [0x46] by decide]
      simp only [partsWord, Sum.elim_inr, List.append_assoc, List.singleton_append]

/-- What is fed of a list of records. -/
theorem sourceText_eq_some {sha256 : Bytes → Bytes} {records : List SourceRecord} {text : Bytes}
    {contents : Set Bytes}
    (hdata : ∀ record ∈ records, ∀ data, record.content = .file data → data ∈ contents)
    (h : sourceText sha256 records = some text) :
    (∀ record ∈ records, record.parts ∈ feedable contents) ∧
      (records.map SourceRecord.parts).flatMap (partsWord sha256) = text := by
  obtain ⟨texts, htexts, htext⟩ := Option.bind_eq_some_iff.mp h
  obtain rfl := Option.some.inj htext
  clear h htext
  induction records generalizing texts with
  | nil =>
      obtain rfl : [] = texts := by simpa using htexts
      exact ⟨by simp, rfl⟩
  | cons record records ih =>
      rw [List.forall_mem_cons] at hdata
      rw [List.mapM_cons] at htexts
      obtain ⟨first, hfirst, htexts⟩ := Option.bind_eq_some_iff.mp htexts
      obtain ⟨rest, hrest, htexts⟩ := Option.bind_eq_some_iff.mp htexts
      obtain rfl := Option.some.inj htexts
      obtain ⟨hfeedable, rfl⟩ := recordText_eq_some hdata.1 hfirst
      obtain ⟨hfeed, hflat⟩ := ih hdata.2 rest hrest
      refine ⟨List.forall_mem_cons.mpr ⟨hfeedable, hfeed⟩, ?_⟩
      rw [List.map_cons, List.flatMap_cons, hflat, List.flatten_cons]

/-- **The text of a list of source files determines the list**, and so does the identity, unless
the outer digest collides on the two texts. -/
theorem sourceText_injective {sha256 : Bytes → Bytes} {records records' : List SourceRecord}
    {text text' : Bytes} (hlength : ∀ data, (sha256 data).length = 32)
    (hsha256 : Set.InjOn sha256
      {data | ∃ record ∈ records ++ records', record.content = .file data})
    (h : sourceText sha256 records = some text) (h' : sourceText sha256 records' = some text') :
    (text = text' → records = records') ∧
      (Set.InjOn (fun t => hexText (sha256 t)) {text, text'} →
        hexText (sha256 text) = hexText (sha256 text') → records = records') := by
  have hsame : text = text' → records = records' := by
    rintro rfl
    set contents := {data | ∃ record ∈ records ++ records', record.content = .file data}
    have hdata : ∀ record ∈ records, ∀ data, record.content = .file data → data ∈ contents :=
      fun record hr data hd => ⟨record, List.mem_append_left _ hr, hd⟩
    have hdata' : ∀ record ∈ records', ∀ data, record.content = .file data → data ∈ contents :=
      fun record hr data hd => ⟨record, List.mem_append_right _ hr, hd⟩
    obtain ⟨hfeed, hflat⟩ := sourceText_eq_some hdata h
    obtain ⟨hfeed', hflat'⟩ := sourceText_eq_some hdata' h'
    have hword : ∀ parts, partsWord sha256 parts ≠ [] := by
      rintro ⟨⟨path, mode⟩, target | data⟩ hnil <;> simp [partsWord] at hnil
    have hparts := (partsWord_delimited hlength hsha256).flatMap (fun parts _ => hword parts)
      (List.forall_mem_map.mpr hfeed) (List.forall_mem_map.mpr hfeed') (hflat.trans hflat'.symm)
    exact SourceRecord.parts_injective.list_map hparts
  refine ⟨hsame, fun hidentity heq => hsame ?_⟩
  exact hidentity (Set.mem_insert _ _) (Set.mem_insert_of_mem _ rfl) heq

/-- A tree of an empty file and a link to it. -/
def twoRecords : List SourceRecord :=
  [⟨[[0x61], [0x62]], 0o644, .file [], by decide, by decide⟩,
    ⟨[[0x63]], 0o777, .link [0x61, 0x2f, 0x62], by decide, by decide⟩]

/-- The digest of the empty text. -/
def emptyDigest : Bytes := [
  0xe3, 0xb0, 0xc4, 0x42, 0x98, 0xfc, 0x1c, 0x14, 0x9a, 0xfb, 0xf4,
  0xc8, 0x99, 0x6f, 0xb9, 0x24, 0x27, 0xae, 0x41, 0xe4, 0x64, 0x9b,
  0x93, 0x4c, 0xa4, 0x95, 0x99, 0x1b, 0x78, 0x52, 0xb8, 0x55]

/-- The link makes a difference. -/
theorem twoRecords_distinguished :
    ∃ text text', sourceText (fun _ => emptyDigest) twoRecords = some text ∧
      sourceText (fun _ => emptyDigest) (twoRecords.take 1) = some text' ∧ text ≠ text' := by
  have hfed : (sourceText (fun _ => emptyDigest) twoRecords).isSome = true := by decide
  have hfed' : (sourceText (fun _ => emptyDigest) (twoRecords.take 1)).isSome = true := by decide
  obtain ⟨text, htext⟩ := Option.isSome_iff_exists.mp hfed
  obtain ⟨text', htext'⟩ := Option.isSome_iff_exists.mp hfed'
  have hempty : ∀ record ∈ twoRecords ++ twoRecords.take 1, ∀ data,
      record.content = .file data → data = [] := by
    intro record hrecord data hdata
    simp only [twoRecords, List.take_succ_cons, List.take_zero, List.cons_append, List.nil_append,
      List.mem_cons, List.not_mem_nil, or_false] at hrecord
    rcases hrecord with rfl | rfl | rfl <;> simp_all
  refine ⟨text, text', htext, htext', fun heq => ?_⟩
  have hsame : twoRecords = twoRecords.take 1 := by
    refine (sourceText_injective (fun _ => rfl) ?_ htext htext').1 heq
    rintro data ⟨record, hrecord, hdata⟩ data' ⟨record', hrecord', hdata'⟩ -
    rw [hempty record hrecord data hdata, hempty record' hrecord' data' hdata']
  exact absurd (congrArg List.length hsame) (by decide)

/-! ## The records of an export -/

/-- The record of an entry of the exported tree. -/
def Describes (record : SourceRecord) (entry : RelPath × Node) : Prop :=
  record.path = encode entry.1.text ∧
    match entry.2 with
    | .file f => record.mode = f.mode ∧ record.content = .file f.data
    | .link mode target => record.mode = mode ∧ record.content = .link target

theorem recordText_eq_entryDigest {lib : Library} {record : SourceRecord} {entry : RelPath × Node}
    {b : Bytes} (hrecord : Describes record entry) (h : recordText lib.sha256 record = some b) :
    entryDigest lib entry.1 entry.2 = b := by
  have hany : ∀ data, record.content = .file data → data ∈ Set.univ := fun _ _ => Set.mem_univ _
  obtain ⟨-, rfl⟩ := recordText_eq_some hany h
  obtain ⟨relative, node⟩ := entry
  obtain ⟨hpath, hnode⟩ := hrecord
  have hL : encode "L" = [0x4c] := by decide
  have hF : encode "F" = [0x46] := by decide
  cases node with
  | file f => simp [entryDigest, partsWord, SourceRecord.parts, hpath, hnode.1, hnode.2, hF]
  | link mode target =>
      simp [entryDigest, partsWord, SourceRecord.parts, hpath, hnode.1, hnode.2, hL]

/-- The identity of an exported tree is the digest of the text of its records. -/
theorem treeIdentity_eq {lib : Library} {records : List SourceRecord} {entries : Tree}
    {text : Bytes} (hrecords : List.Forall₂ Describes records entries)
    (h : sourceText lib.sha256 records = some text) :
    treeIdentity lib entries = hexText (lib.sha256 text) := by
  obtain ⟨texts, htexts, htext⟩ := Option.bind_eq_some_iff.mp h
  obtain rfl := Option.some.inj htext
  rw [treeIdentity]
  congr 2
  clear h htext
  induction hrecords generalizing texts with
  | nil =>
      obtain rfl : [] = texts := by simpa using htexts
      rfl
  | cons hrecord _ ih =>
      rw [List.mapM_cons] at htexts
      obtain ⟨first, hfirst, htexts⟩ := Option.bind_eq_some_iff.mp htexts
      obtain ⟨rest, hrest, htexts⟩ := Option.bind_eq_some_iff.mp htexts
      obtain rfl := Option.some.inj htexts
      rw [List.flatMap_cons, List.flatten_cons, recordText_eq_entryDigest hrecord hfirst,
        ih rest hrest]

end Mountin
