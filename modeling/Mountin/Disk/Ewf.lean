import Mountin.Basic.Raising
import Mountin.Basic.Splice
import Mountin.Disk.Chunks
import Mountin.Disk.Exposes

set_option autoImplicit false

/-! # EWF images

An EWF image as a chain of sections: a volume section, the stored chunks and one table of their
offsets. What `EwfReader` makes of it.

* `walkSections_of_chain` : the loop runs over the sections of the chain.
* `ewf_exposed_iff` : the image is exposed as its disk unless a limit is passed or the last
  chunk is short and compressed.
-/

namespace Mountin.Ewf

/-! ## The chain of sections -/

/-- A section descriptor: its position and type. -/
structure Section where
  pos : Nat
  typ : SectionType

section

variable (bytes : Bytes)

/-- The position of the next section, as a descriptor has it. -/
def nextOffset (pos : Nat) : Nat := leField bytes (pos + 16) 8

/-- There is a descriptor of a type at a position. -/
def Described (s : Section) : Prop :=
  s.pos + SECTION_DESCRIPTOR_SIZE ≤ bytes.length ∧ sectionType (bytes.slice s.pos 16) = s.typ

/-- The sections from a position on, each pointing to the next; the last is the `done` section or
points nowhere. -/
inductive Chain : Nat → List Section → Prop where
  | last {s : Section} (described : Described bytes s)
      (ends : s.typ = .done ∨ nextOffset bytes s.pos = s.pos ∨ nextOffset bytes s.pos = 0) :
      Chain s.pos [s]
  | cons {s : Section} {rest : List Section} (described : Described bytes s)
      (goesOn : s.typ ≠ .done) (forward : s.pos < nextOffset bytes s.pos)
      (tail : Chain (nextOffset bytes s.pos) rest) : Chain s.pos (s :: rest)

end

/-- The body of the section loop at a section. -/
def readAtSection (image : Image) (info : SectionInfo) (s : Section) : Except IoError SectionInfo :=
  readSection (fileReader image) s.pos (nextOffset image.bytes s.pos) s.typ info

variable {image : Image}

theorem Chain.head {bytes : Bytes} {pos : Nat} {sections : List Section}
    (h : Chain bytes pos sections) : pos + SECTION_DESCRIPTOR_SIZE ≤ bytes.length := by
  cases h with
  | last described _ => exact described.1
  | cons described _ _ _ => exact described.1

theorem Chain.length_le {bytes : Bytes} {pos : Nat} {sections : List Section}
    (h : Chain bytes pos sections) : sections.length + pos ≤ bytes.length := by
  induction h with
  | last described _ =>
      have := described.1
      simp only [SECTION_DESCRIPTOR_SIZE, List.length_cons, List.length_nil] at this ⊢
      omega
  | cons described goesOn forward tail ih =>
      rw [List.length_cons]
      omega

theorem readLe_eq {off width : Nat} (h : off + width ≤ image.bytes.length) (hwidth : 0 < width) :
    readLe (fileReader image) width off = .ok (leField image.bytes off width) := by
  have hsmall := image.small
  have hoff : wrap off = off := Nat.mod_eq_of_lt (by simp only [FILE_OFFSET_LIMIT] at hsmall; omega)
  rw [readLe, hoff, readExactly_slice _ h hwidth, Except.ok_bind, leField_slice (by omega),
    Nat.add_zero]
  rfl

theorem Chain.le_pos {bytes : Bytes} {pos : Nat} {sections : List Section}
    (h : Chain bytes pos sections) : ∀ s ∈ sections, pos ≤ s.pos := by
  induction h with
  | last described _ =>
      intro s hs
      rw [List.mem_singleton.mp hs]
  | cons described goesOn forward tail ih =>
      intro s hs
      rcases List.mem_cons.mp hs with rfl | hs
      · exact Nat.le_refl _
      · exact forward.le.trans (ih s hs)

/-- The loop runs over the sections of the chain. -/
theorem walkSections_of_chain {pos : Nat} {sections : List Section}
    (h : Chain image.bytes pos sections) : ∀ (fuel : Nat) (info : SectionInfo),
      sections.length ≤ fuel →
      walkSections (fileReader image) fuel pos info = sections.foldlM (readAtSection image) info := by
  have hstep : ∀ (s : Section), Described image.bytes s → ∀ (fuel : Nat) (info : SectionInfo),
      walkSections (fileReader image) (fuel + 1) s.pos info = (do
        let info ← readAtSection image info s
        if s.typ = .done ∨ nextOffset image.bytes s.pos = s.pos ∨ nextOffset image.bytes s.pos = 0 then
          return info
        else if nextOffset image.bytes s.pos < s.pos ∨ (∃ size ∈ (fileReader image).size,
            size - SECTION_DESCRIPTOR_SIZE < nextOffset image.bytes s.pos) then
          .error (.invalidData "invalid EWF section chain")
        else walkSections (fileReader image) fuel (nextOffset image.bytes s.pos) info) := by
    rintro s ⟨hend, htype⟩ fuel info
    simp only [SECTION_DESCRIPTOR_SIZE] at hend
    rw [walkSections, readExactly_slice _ (by omega) (by omega), Except.ok_bind,
      readLe_eq (by omega) (by omega), Except.ok_bind]
    simp only [htype]
    rfl
  induction h with
  | last described ends =>
      intro fuel info hfuel
      obtain ⟨fuel, rfl⟩ := Nat.exists_eq_add_one.mpr (Nat.lt_of_lt_of_le Nat.one_pos hfuel)
      rw [hstep _ described, List.foldlM_cons]
      simp only [if_pos ends]
      rfl
  | cons described goesOn forward tail ih =>
      intro fuel info hfuel
      obtain ⟨fuel, rfl⟩ := Nat.exists_eq_add_one.mpr (Nat.lt_of_lt_of_le (Nat.succ_pos _) hfuel)
      have hhead := tail.head
      rw [hstep _ described, List.foldlM_cons]
      simp only [SECTION_DESCRIPTOR_SIZE] at hhead
      refine congrArg (readAtSection image info _ >>= ·) (funext fun info => ?_)
      rw [if_neg (not_or.mpr ⟨goesOn, not_or.mpr ⟨forward.ne', (Nat.zero_lt_of_lt forward).ne'⟩⟩),
        if_neg (not_or.mpr ⟨Nat.not_lt.mpr forward.le, ?_⟩)]
      · exact ih fuel info (Nat.le_of_succ_le_succ hfuel)
      · rintro ⟨size, hsize, hlt⟩
        obtain rfl : image.bytes.length = size := Option.some.inj hsize
        simp only [SECTION_DESCRIPTOR_SIZE] at hlt
        omega

/-! ## The layout -/

/-- The geometry of an image: the stored chunks lie behind `sectorsPos` and end at the next
section; the table is at `tablePos`. -/
structure Geometry where
  chunkSize : Nat
  sectorsPos : Nat
  tablePos : Nat

section

variable (bytes : Bytes) (g : Geometry)

/-- The entry of a chunk. -/
def tableEntry (i : Nat) : Nat :=
  leField bytes (g.tablePos + SECTION_DESCRIPTOR_SIZE + TABLE_HEADER_SIZE + i * 4) 4

/-- Where the stored chunk starts. -/
def chunkStart (i : Nat) : Nat := g.sectorsPos + tableEntry bytes g i % 2 ^ 31

/-- The top bit of the entry of a chunk. -/
def IsCompressed (i : Nat) : Prop := tableEntry bytes g i / 2 ^ 31 % 2 ≠ 0

instance (i : Nat) : Decidable (IsCompressed bytes g i) := inferInstanceAs (Decidable (_ ≠ _))

/-- Where the stored chunk ends, of `n` chunks: where the next one starts, or with the section. -/
def chunkEnd (n i : Nat) : Nat :=
  if i + 1 < n then chunkStart bytes g (i + 1) else nextOffset bytes g.sectorsPos

/-- The bytes of the stored chunk. -/
def storedChunk (n i : Nat) : Bytes :=
  bytes.slice (chunkStart bytes g i) (chunkEnd bytes g n i - chunkStart bytes g i)

/-- The number of chunks of a disk. -/
def Geometry.chunkCount (D : Bytes) : Nat := (D.length + g.chunkSize - 1) / g.chunkSize

/-- The chunk of a disk; the last holds the remaining sectors. -/
def Geometry.chunk (D : Bytes) (i : Nat) : Bytes := D.slice (i * g.chunkSize) g.chunkSize

/-- The fields of a volume section. -/
structure Volume (pos : Nat) (D : Bytes) : Prop where
  within : pos + SECTION_DESCRIPTOR_SIZE + 24 ≤ bytes.length
  chunkCount : leField bytes (pos + SECTION_DESCRIPTOR_SIZE + 4) 4 = g.chunkCount D
  chunkSize : leField bytes (pos + SECTION_DESCRIPTOR_SIZE + 8) 4 *
    leField bytes (pos + SECTION_DESCRIPTOR_SIZE + 12) 4 = g.chunkSize
  virtualSize : leField bytes (pos + SECTION_DESCRIPTOR_SIZE + 16) 8 *
    leField bytes (pos + SECTION_DESCRIPTOR_SIZE + 12) 4 = D.length

/-- The table has an entry for each chunk. -/
structure Table (D : Bytes) : Prop where
  count : leField bytes (g.tablePos + SECTION_DESCRIPTOR_SIZE) 4 = g.chunkCount D
  within : g.tablePos + SECTION_DESCRIPTOR_SIZE + TABLE_HEADER_SIZE + g.chunkCount D * 4
    ≤ bytes.length

/-- A chunk is stored as a zlib stream or raw, with what may follow it. -/
def Stored (deflated : Bytes → Bytes → Prop) (D : Bytes) (i : Nat) : Prop :=
  if IsCompressed bytes g i then
    deflated (g.chunk D i) (storedChunk bytes g (g.chunkCount D) i)
  else g.chunk D i <+: storedChunk bytes g (g.chunkCount D) i

/-- The sections of an image of the disk `D`: one of the stored chunks, one table, and volume
sections that agree. -/
structure Sections (D : Bytes) (sections : List Section) : Prop where
  chain : Chain bytes FILE_HEADER_SIZE sections
  hasVolume : ∃ s ∈ sections, s.typ = .volume
  volume : ∀ s ∈ sections, s.typ = .volume → Volume bytes g s.pos D
  hasSectors : ∃ s ∈ sections, s.typ = .sectors
  sectors : ∀ s ∈ sections, s.typ = .sectors → s.pos = g.sectorsPos
  hasTable : ∃ s ∈ sections, s.typ = .table
  table : ∀ s ∈ sections, s.typ = .table → s.pos = g.tablePos

/-- An image of the disk `D` with one table. -/
structure Layout (deflated : Bytes → Bytes → Prop) (D : Bytes) : Prop where
  magic : bytes.slice 0 8 = EWF_MAGIC
  chunkSize_pos : 0 < g.chunkSize
  sections : ∃ sections, Sections bytes g D sections
  table : Table bytes g D
  chunks : ∀ i < g.chunkCount D,
    chunkStart bytes g i ≤ chunkEnd bytes g (g.chunkCount D) i ∧
      chunkEnd bytes g (g.chunkCount D) i ≤ bytes.length ∧ Stored bytes g deflated D i

end

/-! ## Opening -/

variable {g : Geometry} {D : Bytes}

/-- The entries of the table. -/
def tableEntries (bytes : Bytes) (g : Geometry) (D : Bytes) : List Nat :=
  (List.range (g.chunkCount D)).map (tableEntry bytes g)

theorem length_tableEntries (bytes : Bytes) (g : Geometry) (D : Bytes) :
    (tableEntries bytes g D).length = g.chunkCount D := by
  rw [tableEntries, List.length_map, List.length_range]

/-- A disk whose chunks can be counted has a `u64` size. -/
theorem Volume.length_lt {pos : Nat} (h : Volume image.bytes g pos D) (hpos : 0 < g.chunkSize)
    (hmax : g.chunkSize ≤ MAX_CHUNK_SIZE) : D.length < 2 ^ 64 := by
  have hcount : g.chunkCount D < 256 ^ 4 := h.chunkCount ▸ leField_lt ..
  have hle : D.length ≤ g.chunkCount D * g.chunkSize := by
    have hdiv := Nat.lt_div_mul_add hpos (a := D.length + g.chunkSize - 1)
    unfold Geometry.chunkCount
    omega
  calc D.length ≤ g.chunkCount D * g.chunkSize := hle
    _ ≤ 256 ^ 4 * MAX_CHUNK_SIZE := Nat.mul_le_mul hcount.le hmax
    _ < 2 ^ 64 := by decide

theorem readVolume_eq_ok_iff {pos : Nat} (h : Volume image.bytes g pos D)
    (hpos : 0 < g.chunkSize) {info info' : SectionInfo} :
    readVolume (fileReader image) pos info = .ok info' ↔ g.chunkSize ≤ MAX_CHUNK_SIZE ∧
      info' = { info with
        chunkCount := g.chunkCount D, chunkSize := g.chunkSize, virtualSize := D.length } := by
  have hwithin := h.within
  simp only [readVolume]
  rw [readLe_eq (by omega) (by omega), Except.ok_bind, readLe_eq (by omega) (by omega),
    Except.ok_bind, readLe_eq (by omega) (by omega), Except.ok_bind,
    readLe_eq (by omega) (by omega), Except.ok_bind]
  simp only [h.chunkCount, h.chunkSize, h.virtualSize, bind_eq_ok, require_eq_ok, pure, Except.pure,
    Except.ok.injEq]
  constructor
  · rintro ⟨-, ⟨-, -, hmax⟩, size, hsize, rfl⟩
    rw [checked, if_pos (h.length_lt hpos hmax)] at hsize
    exact ⟨hmax, by rw [← Except.ok.inj hsize]⟩
  · rintro ⟨hmax, rfl⟩
    exact ⟨(), ⟨hmax.trans_lt (by decide), hpos, hmax⟩, D.length,
      if_pos (h.length_lt hpos hmax), rfl⟩

theorem readTable_eq_ok_iff (h : Table image.bytes g D) {info info' : SectionInfo} :
    readTable (fileReader image) g.tablePos info = .ok info' ↔
      g.chunkCount D * 4 ≤ MAX_TABLE_SIZE ∧
        info' = { info with chunkOffsets := tableEntries image.bytes g D } := by
  have hwithin := h.within
  have hsmall := image.small
  simp only [SECTION_DESCRIPTOR_SIZE, TABLE_HEADER_SIZE, FILE_OFFSET_LIMIT] at hwithin hsmall
  have hcount := h.count
  have hwrap : wrap (g.tablePos + SECTION_DESCRIPTOR_SIZE) = g.tablePos + SECTION_DESCRIPTOR_SIZE :=
    Nat.mod_eq_of_lt (by simp only [SECTION_DESCRIPTOR_SIZE]; omega)
  have hdata : (image.bytes.slice (g.tablePos + 76 + 24) (g.chunkCount D * 4)).length
      = g.chunkCount D * 4 := by
    rw [List.length_slice]
    omega
  have hentries : tableOf leField 4 (image.bytes.slice (g.tablePos + 76 + 24) (g.chunkCount D * 4))
      = tableEntries image.bytes g D := by
    rw [tableOf, hdata, Nat.mul_div_cancel _ (by omega), tableEntries]
    refine List.map_congr_left (fun i hi => ?_)
    have hi' := List.mem_range.mp hi
    rw [leField_slice (by omega)]
    rfl
  simp only [readTable, hwrap]
  rw [readLe_eq (by simp only [SECTION_DESCRIPTOR_SIZE]; omega) (by omega), Except.ok_bind, hcount]
  simp only [SECTION_DESCRIPTOR_SIZE, TABLE_HEADER_SIZE, checkedTableSize, checked_eq_ok, bind_eq_ok,
    require_eq_ok, readExactly_eq_ok, pure, Except.pure, Except.ok.injEq]
  constructor
  · rintro ⟨_, ⟨-, rfl⟩, _, ⟨-, ⟨-, hmax⟩, -, -, -, -, rfl⟩, _, ⟨-, rfl, -⟩, rfl⟩
    exact ⟨hmax, by rw [hentries]⟩
  · rintro ⟨hmax, rfl⟩
    refine ⟨_, ⟨by omega, rfl⟩, _, ⟨(), ⟨?_, hmax⟩, _, ⟨by omega, rfl⟩, (), ?_, rfl⟩, _,
      ⟨by simp only [FILE_OFFSET_LIMIT]; omega, rfl, hdata⟩, by rw [hentries]⟩
    · exact hmax.trans_lt (by decide)
    · rintro size hsize
      obtain rfl : image.bytes.length = size := Option.some.inj hsize
      omega

/-- What the sections of the image set. -/
def sectionInfo (bytes : Bytes) (g : Geometry) (D : Bytes) : SectionInfo where
  sectorsOffset := g.sectorsPos
  sectorsEnd := nextOffset bytes g.sectorsPos
  chunkCount := g.chunkCount D
  chunkSize := g.chunkSize
  virtualSize := D.length
  chunkOffsets := tableEntries bytes g D

section

variable {sections : List Section} (hpos : 0 < g.chunkSize) (htable : Table image.bytes g D)
  (hs : Sections image.bytes g D sections)

/-- The table is not read yet, or is one that may be read. -/
def TableRead (image : Image) (g : Geometry) (D : Bytes) (info : SectionInfo) : Prop :=
  info.chunkOffsets = tableEntries image.bytes g D ∧ g.chunkCount D * 4 ≤ MAX_TABLE_SIZE

include hpos htable hs

/-- What a section sets; the fields of the others stay as they are. -/
theorem readAtSection_eq_ok {info info' : SectionInfo} {s : Section} (hmem : s ∈ sections)
    (hinfo : info.chunkOffsets = [] ∨ TableRead image g D info)
    (h : readAtSection image info s = .ok info') :
    (s.typ = .volume ∧ g.chunkSize ≤ MAX_CHUNK_SIZE ∧ info' = { info with
        chunkCount := g.chunkCount D, chunkSize := g.chunkSize, virtualSize := D.length }) ∨
      (s.typ = .sectors ∧ info' = { info with
        sectorsOffset := g.sectorsPos, sectorsEnd := nextOffset image.bytes g.sectorsPos }) ∨
      (s.typ = .table ∧ TableRead image g D info' ∧
        info' = { info with chunkOffsets := tableEntries image.bytes g D }) ∨
      (s.typ ≠ .volume ∧ s.typ ≠ .sectors ∧ s.typ ≠ .table ∧ info' = info) := by
  unfold readAtSection readSection at h
  split at h
  · next htyp =>
      obtain ⟨hmax, rfl⟩ := (readVolume_eq_ok_iff (hs.volume s hmem htyp) hpos).mp h
      exact .inl ⟨htyp, hmax, rfl⟩
  · next htyp =>
      rw [hs.sectors s hmem htyp] at h
      exact .inr (.inl ⟨htyp, (Except.ok.inj h).symm⟩)
  · next htyp =>
      refine .inr (.inr (.inl ⟨htyp, ?_⟩))
      split_ifs at h with hempty
      · rw [hs.table s hmem htyp] at h
        obtain ⟨hmax, rfl⟩ := (readTable_eq_ok_iff htable).mp h
        exact ⟨⟨rfl, hmax⟩, rfl⟩
      · have hread := hinfo.resolve_left hempty
        obtain rfl := Except.ok.inj h
        exact ⟨hread, by rw [← hread.1]⟩
  · next htyp =>
      exact .inr (.inr (.inr ⟨by simp [htyp], by simp [htyp], by simp [htyp], (Except.ok.inj h).symm⟩))
  · next htyp =>
      exact .inr (.inr (.inr ⟨by simp [htyp], by simp [htyp], by simp [htyp], (Except.ok.inj h).symm⟩))

/-- The table stays unread or as it was read. -/
theorem tableRead_step : ∀ info, ∀ s ∈ sections, ∀ info',
    (info.chunkOffsets = [] ∨ TableRead image g D info) → readAtSection image info s = .ok info' →
      info'.chunkOffsets = [] ∨ TableRead image g D info' := by
  intro info s hmem info' hinfo h
  rcases readAtSection_eq_ok hpos htable hs hmem hinfo h with
    ⟨-, -, rfl⟩ | ⟨-, rfl⟩ | ⟨-, hread, -⟩ | ⟨-, -, -, rfl⟩
  · exact hinfo
  · exact hinfo
  · exact .inr hread
  · exact hinfo

theorem volume_of_foldlM {info : SectionInfo}
    (h : sections.foldlM (readAtSection image) {} = .ok info) :
    g.chunkSize ≤ MAX_CHUNK_SIZE ∧ info.chunkCount = g.chunkCount D ∧
      info.chunkSize = g.chunkSize ∧ info.virtualSize = D.length := by
  obtain ⟨v, hv, hvolume⟩ := hs.hasVolume
  refine List.foldlM_establishes (P := fun info => g.chunkSize ≤ MAX_CHUNK_SIZE ∧
    info.chunkCount = g.chunkCount D ∧ info.chunkSize = g.chunkSize ∧
    info.virtualSize = D.length) (tableRead_step hpos htable hs) ?_ hv ?_ (.inl rfl) h
  · intro info s hmem info' hinfo hP h
    rcases readAtSection_eq_ok hpos htable hs hmem hinfo h with
      ⟨-, -, rfl⟩ | ⟨-, rfl⟩ | ⟨-, -, rfl⟩ | ⟨-, -, -, rfl⟩
    · exact ⟨hP.1, rfl, rfl, rfl⟩
    all_goals exact hP
  · intro info info' hinfo h
    rcases readAtSection_eq_ok hpos htable hs hv hinfo h with
      ⟨-, hmax, rfl⟩ | ⟨htyp, -⟩ | ⟨htyp, -⟩ | ⟨htyp, -⟩
    · exact ⟨hmax, rfl, rfl, rfl⟩
    all_goals simp [hvolume] at htyp

theorem sectors_of_foldlM {info : SectionInfo}
    (h : sections.foldlM (readAtSection image) {} = .ok info) :
    info.sectorsOffset = g.sectorsPos ∧ info.sectorsEnd = nextOffset image.bytes g.sectorsPos := by
  obtain ⟨c, hc, hsectors⟩ := hs.hasSectors
  refine List.foldlM_establishes (P := fun info => info.sectorsOffset = g.sectorsPos ∧
    info.sectorsEnd = nextOffset image.bytes g.sectorsPos)
    (tableRead_step hpos htable hs) ?_ hc ?_ (.inl rfl) h
  · intro info s hmem info' hinfo hP h
    rcases readAtSection_eq_ok hpos htable hs hmem hinfo h with
      ⟨-, -, rfl⟩ | ⟨-, rfl⟩ | ⟨-, -, rfl⟩ | ⟨-, -, -, rfl⟩
    · exact hP
    · exact ⟨rfl, rfl⟩
    all_goals exact hP
  · intro info info' hinfo h
    rcases readAtSection_eq_ok hpos htable hs hc hinfo h with
      ⟨htyp, -⟩ | ⟨-, rfl⟩ | ⟨htyp, -⟩ | ⟨-, htyp, -⟩
    · simp [hsectors] at htyp
    · exact ⟨rfl, rfl⟩
    all_goals simp [hsectors] at htyp

theorem tableRead_of_foldlM {info : SectionInfo}
    (h : sections.foldlM (readAtSection image) {} = .ok info) : TableRead image g D info := by
  obtain ⟨t, ht, htab⟩ := hs.hasTable
  refine List.foldlM_establishes (P := TableRead image g D) (tableRead_step hpos htable hs) ?_ ht ?_
    (.inl rfl) h
  · intro info s hmem info' hinfo hP h
    rcases readAtSection_eq_ok hpos htable hs hmem hinfo h with
      ⟨-, -, rfl⟩ | ⟨-, rfl⟩ | ⟨-, hread, -⟩ | ⟨-, -, -, rfl⟩
    · exact hP
    · exact hP
    · exact hread
    · exact hP
  · intro info info' hinfo h
    rcases readAtSection_eq_ok hpos htable hs ht hinfo h with
      ⟨htyp, -⟩ | ⟨htyp, -⟩ | ⟨-, hread, -⟩ | ⟨-, -, htyp, -⟩
    · simp [htab] at htyp
    · simp [htab] at htyp
    · exact hread
    · simp [htab] at htyp

/-- No section raises under the limits. -/
theorem readAtSection_returns (hmax : g.chunkSize ≤ MAX_CHUNK_SIZE)
    (hmaxTable : g.chunkCount D * 4 ≤ MAX_TABLE_SIZE) (info : SectionInfo) {s : Section}
    (hmem : s ∈ sections) : ∃ info', readAtSection image info s = .ok info' := by
  unfold readAtSection readSection
  split
  · next htyp => exact ⟨_, (readVolume_eq_ok_iff (hs.volume s hmem htyp) hpos).mpr ⟨hmax, rfl⟩⟩
  · exact ⟨_, rfl⟩
  · next htyp =>
      rw [hs.table s hmem htyp]
      split_ifs
      · exact ⟨_, (readTable_eq_ok_iff htable).mpr ⟨hmaxTable, rfl⟩⟩
      · exact ⟨_, rfl⟩
  · exact ⟨_, rfl⟩
  · exact ⟨_, rfl⟩

/-- The loop over the sections returns under its limits, with what they set. -/
theorem foldlM_sections {info : SectionInfo} :
    sections.foldlM (readAtSection image) {} = .ok info ↔
      g.chunkSize ≤ MAX_CHUNK_SIZE ∧ g.chunkCount D * 4 ≤ MAX_TABLE_SIZE ∧
        info = sectionInfo image.bytes g D := by
  have hforward : ∀ info, sections.foldlM (readAtSection image) {} = .ok info →
      g.chunkSize ≤ MAX_CHUNK_SIZE ∧ g.chunkCount D * 4 ≤ MAX_TABLE_SIZE ∧
        info = sectionInfo image.bytes g D := by
    intro info h
    obtain ⟨hmax, hcount, hsize, hvirtual⟩ := volume_of_foldlM hpos htable hs h
    obtain ⟨hstart, hend⟩ := sectors_of_foldlM hpos htable hs h
    obtain ⟨hentries, hmaxTable⟩ := tableRead_of_foldlM hpos htable hs h
    refine ⟨hmax, hmaxTable, ?_⟩
    cases info
    rw [sectionInfo, SectionInfo.mk.injEq]
    exact ⟨hstart, hend, hcount, hsize, hvirtual, hentries⟩
  refine ⟨hforward info, ?_⟩
  rintro ⟨hmax, hmaxTable, rfl⟩
  have hstep : ∀ info, ∀ s ∈ sections, True →
      ∃ info', readAtSection image info s = .ok info' ∧ True := fun info s hmem _ => by
    simpa using readAtSection_returns hpos htable hs hmax hmaxTable info hmem
  obtain ⟨info, h, -⟩ := List.foldlM_returns hstep (b := {}) trivial
  rw [h, (hforward info h).2.2]

end

/-- The reader of the image. -/
def ewfReader (image : Image) (g : Geometry) (D : Bytes) : EwfReader where
  parent := fileReader image
  sectorsOffset := g.sectorsPos
  sectorsEnd := nextOffset image.bytes g.sectorsPos
  chunkOffsets := tableEntries image.bytes g D
  chunkSize := g.chunkSize
  virtualSize := D.length

theorem chunkCount_eq_zero_iff (hpos : 0 < g.chunkSize) : g.chunkCount D = 0 ↔ D = [] := by
  rw [Geometry.chunkCount, Nat.div_eq_zero_iff, ← List.length_eq_zero_iff]
  omega

theorem chunkCount_eq (hpos : 0 < g.chunkSize) : g.chunkCount D =
    D.length / g.chunkSize + if D.length % g.chunkSize = 0 then 0 else 1 := by
  have hmod := Nat.mod_lt D.length hpos
  have hsum : D.length + g.chunkSize - 1
      = D.length % g.chunkSize + g.chunkSize - 1 + g.chunkSize * (D.length / g.chunkSize) := by
    have hsplit := Nat.div_add_mod D.length g.chunkSize
    omega
  rw [Geometry.chunkCount, hsum, Nat.add_mul_div_left _ _ hpos, Nat.add_comm]
  congr 1
  split_ifs with h
  · exact Nat.div_eq_of_lt (by omega)
  · exact Nat.div_eq_of_lt_le (by omega) (by omega)

/-- An image of the disk is accepted under the limits, unless the disk is empty. -/
theorem new_eq_ok_iff {deflated : Bytes → Bytes → Prop} (h : Layout image.bytes g deflated D)
    {r : EwfReader} :
    new (fileReader image) = .ok r ↔ D ≠ [] ∧ g.chunkSize ≤ MAX_CHUNK_SIZE ∧
      g.chunkCount D * 4 ≤ MAX_TABLE_SIZE ∧ r = ewfReader image g D := by
  obtain ⟨sections, hs⟩ := h.sections
  have hpos := h.chunkSize_pos
  have hfuel : sections.length ≤ 2 ^ 64 := by
    have hlen := hs.chain.length_le
    have hsmall := image.small
    simp only [FILE_OFFSET_LIMIT] at hsmall
    omega
  have hstart : g.sectorsPos ≠ 0 := by
    obtain ⟨s, hmem, htyp⟩ := hs.hasSectors
    have hle := hs.chain.le_pos s hmem
    rw [hs.sectors s hmem htyp, FILE_HEADER_SIZE] at hle
    omega
  have hhead := hs.chain.head
  simp only [FILE_HEADER_SIZE, SECTION_DESCRIPTOR_SIZE] at hhead
  have hempty : tableEntries image.bytes g D = [] ↔ D = [] := by
    rw [← chunkCount_eq_zero_iff hpos, ← length_tableEntries image.bytes, List.length_eq_zero_iff]
  simp only [new, parseSections, walkSections_of_chain hs.chain _ _ hfuel]
  rw [readExactly_slice _ (by omega) (by omega), Except.ok_bind, h.magic]
  simp only [bind_eq_ok, require_eq_ok, foldlM_sections hpos h.table hs, pure, Except.pure,
    Except.ok.injEq]
  constructor
  · rintro ⟨-, -, _, ⟨_, ⟨hmax, hmaxTable, rfl⟩, -, ⟨-, hne, -⟩, rfl⟩, -, -, rfl⟩
    exact ⟨mt hempty.mpr hne, hmax, hmaxTable, rfl⟩
  · rintro ⟨hne, hmax, hmaxTable, rfl⟩
    exact ⟨(), trivial, _, ⟨_, ⟨hmax, hmaxTable, rfl⟩, (), ⟨hstart, mt hempty.mp hne, hpos.ne'⟩, rfl⟩,
      (), length_tableEntries _ _ _, rfl⟩

/-! ## Reading -/

/-- What the reader relies on: a zlib stream inflates to what was deflated, and ends there. -/
structure Inflates (deflated : Bytes → Bytes → Prop) (zlib : ReadExact) : Prop where
  full : ∀ d s n, deflated d s → n ≤ d.length → zlib s n = .ok (d.take n)
  short : ∀ d s n, deflated d s → d.length < n → ∃ e, zlib s n = .error e

theorem checked_eq {n : Nat} (e : IoError) (h : n < 2 ^ 64) : checked n e = .ok n :=
  checked_eq_ok.mpr ⟨h, rfl⟩

theorem getElem?_tableEntries {i : Nat} (hi : i < g.chunkCount D) :
    (tableEntries image.bytes g D)[i]? = some (tableEntry image.bytes g i) := by
  rw [tableEntries, List.getElem?_map, List.getElem?_range hi, Option.map_some]

section

variable {deflated : Bytes → Bytes → Prop} {zlib : ReadExact}
  (h : Layout image.bytes g deflated D) {i : Nat} (hi : i < g.chunkCount D)

include h hi

/-- A chunk is read when it is stored in no more than what a zlib stream of it can take. -/
theorem readChunk_eq : (ewfReader image g D).readChunk zlib i =
    if (storedChunk image.bytes g (g.chunkCount D) i).length ≤ zlibBound g.chunkSize then
      if IsCompressed image.bytes g i then
        zlib (storedChunk image.bytes g (g.chunkCount D) i) g.chunkSize
      else .ok (storedChunk image.bytes g (g.chunkCount D) i)
    else .error (.invalidData "invalid EWF chunk offsets") := by
  obtain ⟨horder, hend, -⟩ := h.chunks i hi
  have hsmall := image.small
  simp only [FILE_OFFSET_LIMIT] at hsmall
  have hlen : (storedChunk image.bytes g (g.chunkCount D) i).length
      = chunkEnd image.bytes g (g.chunkCount D) i - chunkStart image.bytes g i := by
    rw [storedChunk, List.length_slice]
    omega
  have hread : readExactly (fileReader image) (chunkStart image.bytes g i)
      (chunkEnd image.bytes g (g.chunkCount D) i - chunkStart image.bytes g i)
      (.unexpectedEof "short EWF chunk read")
        = .ok (storedChunk image.bytes g (g.chunkCount D) i) :=
    readExactly_eq_ok.mpr
      ⟨(horder.trans hend).trans_lt (by simpa only [FILE_OFFSET_LIMIT] using hsmall), rfl, hlen⟩
  -- what follows once the two ends of the stored chunk are known
  have htail : (do
      require (chunkStart image.bytes g i ≤ chunkEnd image.bytes g (g.chunkCount D) i ∧
          chunkEnd image.bytes g (g.chunkCount D) i - chunkStart image.bytes g i
            ≤ zlibBound g.chunkSize) (.invalidData "invalid EWF chunk offsets")
      let raw ← readExactly (fileReader image) (chunkStart image.bytes g i)
        (chunkEnd image.bytes g (g.chunkCount D) i - chunkStart image.bytes g i)
        (.unexpectedEof "short EWF chunk read")
      if tableEntry image.bytes g i / 2 ^ 31 % 2 ≠ 0 then zlib raw g.chunkSize
      else Except.ok raw) =
    if (storedChunk image.bytes g (g.chunkCount D) i).length ≤ zlibBound g.chunkSize then
      if IsCompressed image.bytes g i then
        zlib (storedChunk image.bytes g (g.chunkCount D) i) g.chunkSize
      else .ok (storedChunk image.bytes g (g.chunkCount D) i)
    else .error (.invalidData "invalid EWF chunk offsets") := by
    rw [hread, hlen]
    by_cases hbound : chunkEnd image.bytes g (g.chunkCount D) i - chunkStart image.bytes g i
        ≤ zlibBound g.chunkSize
    · rw [if_pos hbound, require, if_pos ⟨horder, hbound⟩]
      rfl
    · rw [if_neg hbound, require, if_neg (fun hand => hbound hand.2)]
      rfl
  have hstart : chunkStart image.bytes g i < 2 ^ 64 :=
    (horder.trans hend).trans_lt (hsmall.trans (by decide))
  rw [← htail]
  have hentry : (ewfReader image g D).chunkOffsets[i]? = some (tableEntry image.bytes g i) :=
    getElem?_tableEntries hi
  have hbehind : (ewfReader image g D).chunkOffsets[i + 1]? = (tableEntries image.bytes g D)[i + 1]? :=
    rfl
  rw [EwfReader.readChunk, hentry, hbehind]
  refine (congrArg (· >>= _) (checked_eq _ hstart)).trans ?_
  rw [Except.ok_bind]
  by_cases hnext : i + 1 < g.chunkCount D
  · have hfin : chunkEnd image.bytes g (g.chunkCount D) i = chunkStart image.bytes g (i + 1) :=
      if_pos hnext
    rw [hfin] at hend ⊢
    rw [getElem?_tableEntries hnext]
    exact congrArg (· >>= _) (checked_eq _ (hend.trans_lt (hsmall.trans (by decide))))
  · have hfin : chunkEnd image.bytes g (g.chunkCount D) i = nextOffset image.bytes g.sectorsPos :=
      if_neg hnext
    rw [hfin, List.getElem?_eq_none (by rw [length_tableEntries]; omega)]
    rfl

theorem chunk_pos : i * g.chunkSize < D.length := by
  have hpos := h.chunkSize_pos
  have hmul := (Nat.le_div_iff_mul_le hpos).mp (Nat.succ_le_of_lt hi)
  rw [Nat.succ_mul] at hmul
  omega

/-- Only the last chunk can be short. -/
theorem length_chunk_eq_iff : (g.chunk D i).length = g.chunkSize ↔
    i + 1 < g.chunkCount D ∨ D.length % g.chunkSize = 0 := by
  have hpos := h.chunkSize_pos
  have hfull : (g.chunk D i).length = g.chunkSize ↔ i + 1 ≤ D.length / g.chunkSize := by
    rw [Nat.le_div_iff_mul_le hpos, Nat.succ_mul, Geometry.chunk, List.length_slice]
    omega
  rw [chunkCount_eq hpos] at hi ⊢
  rw [hfull]
  split_ifs at hi ⊢ with hmod <;> omega

end

/-- What the code needs of a chunk to read it. -/
def Readable (bytes : Bytes) (g : Geometry) (D : Bytes) (i : Nat) : Prop :=
  (storedChunk bytes g (g.chunkCount D) i).length ≤ zlibBound g.chunkSize ∧
    (IsCompressed bytes g i → (g.chunk D i).length = g.chunkSize)

section

variable {deflated : Bytes → Bytes → Prop} {zlib : ReadExact}
  (h : Layout image.bytes g deflated D) (hzlib : Inflates deflated zlib) {i : Nat}
  (hi : i < g.chunkCount D)

include h hzlib hi

/-- A raw or full chunk is read, with the bytes of the disk. -/
theorem readChunk_of_readable (hread : Readable image.bytes g D i) :
    ∃ buf, (ewfReader image g D).readChunk zlib i = .ok buf ∧ g.chunk D i <+: buf := by
  obtain ⟨-, -, hstored⟩ := h.chunks i hi
  obtain ⟨hbound, hfull⟩ := hread
  rw [readChunk_eq h hi, if_pos hbound]
  unfold Stored at hstored
  split_ifs at hstored ⊢ with hcompressed
  · have hlen := hfull hcompressed
    refine ⟨_, hzlib.full _ _ _ hstored hlen.ge, ?_⟩
    rw [List.take_of_length_le hlen.le]
  · exact ⟨_, rfl, hstored⟩

/-- A chunk that is compressed and short is not read. -/
theorem readable_of_readChunk {buf : Bytes}
    (hread : (ewfReader image g D).readChunk zlib i = .ok buf) : Readable image.bytes g D i := by
  obtain ⟨-, -, hstored⟩ := h.chunks i hi
  rw [readChunk_eq h hi] at hread
  split_ifs at hread with hbound hcompressed
  · rw [Stored, if_pos hcompressed] at hstored
    refine ⟨hbound, fun _ => Nat.le_antisymm ?_ (Nat.le_of_not_lt fun hshort => ?_)⟩
    · rw [Geometry.chunk, List.length_slice]
      exact Nat.min_le_left _ _
    · obtain ⟨e, he⟩ := hzlib.short _ _ _ hstored hshort
      rw [he] at hread
      cases hread
  · exact ⟨hbound, fun hc => absurd hc hcompressed⟩

end

/-- A reader of the image exposes the disk when it can read every chunk. -/
theorem exposes_iff {deflated : Bytes → Bytes → Prop} {zlib : ReadExact}
    (h : Layout image.bytes g deflated D) (hzlib : Inflates deflated zlib) :
    ((ewfReader image g D).map zlib).reader.Exposes D ↔
      ∀ i < g.chunkCount D, Readable image.bytes g D i := by
  have hpos := h.chunkSize_pos
  have hextent : ∀ off p, ((ewfReader image g D).map zlib).piece off = .ok p ↔
      ∃ buf, (ewfReader image g D).readChunk zlib (off / g.chunkSize) = .ok buf ∧
        (⟨off / g.chunkSize * g.chunkSize, g.chunkSize, .unpacked buf⟩ : Piece) = p := by
    intro off p
    show blockPiece g.chunkSize (fun off => ((ewfReader image g D).readChunk zlib
      (off / g.chunkSize)).map Extent.unpacked) off = .ok p ↔ _
    rw [blockPiece]
    cases (ewfReader image g D).readChunk zlib (off / g.chunkSize) <;> simp [Except.map]
  rw [DiskMap.exposes_iff rfl (EwfReader.coherent zlib _ hpos) ?_ ?_]
  · constructor
    · intro hD i hi
      obtain ⟨p, hp, -⟩ := hD.byte (i * g.chunkSize) (chunk_pos h hi)
      obtain ⟨buf, hbuf, -⟩ := (hextent _ _).mp hp
      rw [Nat.mul_div_cancel _ hpos] at hbuf
      exact readable_of_readChunk h hzlib hi hbuf
    · intro hread
      refine ⟨rfl, fun off hoff => ?_⟩
      have hi : off / g.chunkSize < g.chunkCount D := div_lt_div_ceil hpos hoff
      obtain ⟨buf, hbuf, hchunk⟩ := readChunk_of_readable h hzlib hi (hread _ hi)
      refine ⟨_, (hextent off _).mpr ⟨buf, hbuf, rfl⟩, ?_⟩
      have hsplit : off / g.chunkSize * g.chunkSize + off % g.chunkSize = off := by
        rw [Nat.mul_comm, Nat.div_add_mod]
      have hmod := Nat.mod_lt off hpos
      have hk : off % g.chunkSize < (g.chunk D (off / g.chunkSize)).length := by
        rw [Geometry.chunk, List.length_slice]
        omega
      show buf[off - off / g.chunkSize * g.chunkSize]? = D[off]?
      rw [← Nat.mod_eq_sub_div_mul, List.prefix_iff_getElem?.mp hchunk _ hk, ← List.getElem?_eq_getElem hk, Geometry.chunk,
        List.getElem?_slice, if_pos hmod, hsplit]
  · rintro off p - hp
    obtain ⟨buf, -, rfl⟩ := (hextent off p).mp hp
    exact Extent.noConfusion
  · rintro off p physical - hp he
    obtain ⟨buf, -, rfl⟩ := (hextent off p).mp hp
    cases he

/-- What the image exposes: that it is accepted, and read as the disk. -/
def Exposed (zlib : ReadExact) (image : Image) (D : Bytes) : Prop :=
  ∃ r, new (fileReader image) = .ok r ∧ (r.map zlib).reader.Exposes D

/-- **EWF images**: an image of a disk is exposed as that disk exactly when the disk is not empty,
the sizes keep to the limits of the reader and the last chunk is not both short and compressed. -/
theorem ewf_exposed_iff (image : Image) (g : Geometry) (deflated : Bytes → Bytes → Prop)
    (zlib : ReadExact) (D : Bytes) (h : Layout image.bytes g deflated D)
    (hzlib : Inflates deflated zlib) :
    Exposed zlib image D ↔ D ≠ [] ∧ g.chunkSize ≤ MAX_CHUNK_SIZE ∧
      g.chunkCount D * 4 ≤ MAX_TABLE_SIZE ∧
      (∀ i < g.chunkCount D, (storedChunk image.bytes g (g.chunkCount D) i).length
        ≤ zlibBound g.chunkSize) ∧
      (D.length % g.chunkSize = 0 ∨ ¬ IsCompressed image.bytes g (g.chunkCount D - 1)) := by
  have hexposed : Exposed zlib image D ↔ (D ≠ [] ∧ g.chunkSize ≤ MAX_CHUNK_SIZE ∧
      g.chunkCount D * 4 ≤ MAX_TABLE_SIZE) ∧
        ∀ i < g.chunkCount D, Readable image.bytes g D i := by
    rw [← exposes_iff h hzlib, Exposed]
    constructor
    · rintro ⟨r, hr, hexposes⟩
      obtain ⟨hne, hmax, hmaxTable, rfl⟩ := (new_eq_ok_iff h).mp hr
      exact ⟨⟨hne, hmax, hmaxTable⟩, hexposes⟩
    · rintro ⟨⟨hne, hmax, hmaxTable⟩, hexposes⟩
      exact ⟨_, (new_eq_ok_iff h).mpr ⟨hne, hmax, hmaxTable, rfl⟩, hexposes⟩
  rw [hexposed, and_assoc, and_assoc]
  refine and_congr_right (fun hne => and_congr_right (fun _ => and_congr_right (fun _ => ?_)))
  have hcount : g.chunkCount D ≠ 0 := mt (chunkCount_eq_zero_iff h.chunkSize_pos).mp hne
  constructor
  · intro hread
    refine ⟨fun i hi => (hread i hi).1, or_iff_not_imp_right.mpr (fun hcompressed => ?_)⟩
    have hlast : g.chunkCount D - 1 < g.chunkCount D := by omega
    have hfull := (hread _ hlast).2 (not_not.mp hcompressed)
    exact ((length_chunk_eq_iff h hlast).mp hfull).resolve_left (by omega)
  · rintro ⟨hbound, hlast⟩ i hi
    refine ⟨hbound i hi, fun hcompressed => (length_chunk_eq_iff h hi).mpr ?_⟩
    rcases hlast with hmod | hraw
    · exact .inr hmod
    · refine .inl (Nat.lt_of_le_of_ne hi (fun heq => hraw ?_))
      rwa [← heq, Nat.add_sub_cancel]

/-! ## Two disks in chunks of two sectors -/

/-- A zlib stream of one stored block. -/
def StoredStream (d s : Bytes) : Prop :=
  s.slice 0 3 = [0x78, 0x01, 0x01] ∧ leField s 3 2 = d.length ∧ s.slice 7 (leField s 3 2) = d

/-- Inflating a stream of one stored block. -/
def inflateStored (s : Bytes) (n : Nat) : Except IoError Bytes :=
  let d := s.slice 7 (leField s 3 2)
  if n ≤ d.length then .ok (d.take n) else .error (.unexpectedEof "failed to fill whole buffer")

theorem inflates_stored : Inflates StoredStream inflateStored where
  full := by
    rintro d s n ⟨-, -, hd⟩ hn
    rw [inflateStored, hd]
    exact if_pos hn
  short := by
    rintro d s n ⟨-, -, hd⟩ hn
    rw [inflateStored, hd]
    exact ⟨_, if_neg (Nat.not_le.mpr hn)⟩

/-- The little-endian bytes of a number. -/
def leBytes (width n : Nat) : Bytes :=
  (List.range width).map (fun i => UInt8.ofNat (n / 256 ^ i))

/-- A section descriptor. -/
def descriptor (name : Bytes) (next : Nat) : Bytes :=
  name ++ List.replicate (16 - name.length) 0 ++ leBytes 8 next ++ List.replicate 52 0

/-- A disk of so many sectors of zeros. -/
def zeroDisk (sectors : Nat) : Bytes := List.replicate (512 * sectors) 0

/-- The zlib stream of a disk of zeros, with its checksum. -/
def zeroStream (sectors : Nat) : Bytes :=
  [0x78, 0x01, 0x01] ++ leBytes 2 (512 * sectors) ++ leBytes 2 (65535 - 512 * sectors)
    ++ zeroDisk sectors ++ [UInt8.ofNat (2 * sectors), 0, 0, 1]

def tablePos (sectors : Nat) : Nat := 189 + (512 * sectors + 11)

/-- An image of a disk of zeros, one compressed chunk. -/
def zeroBytes (sectors : Nat) : Bytes :=
  EWF_MAGIC ++ [1, 1, 0, 0, 0]
    ++ descriptor [0x76, 0x6f, 0x6c, 0x75, 0x6d, 0x65] 113
    ++ leBytes 4 1 ++ leBytes 4 1 ++ leBytes 4 2 ++ leBytes 4 512 ++ leBytes 8 sectors
    ++ descriptor [0x73, 0x65, 0x63, 0x74, 0x6f, 0x72, 0x73] (tablePos sectors)
    ++ zeroStream sectors
    ++ descriptor [0x74, 0x61, 0x62, 0x6c, 0x65] (tablePos sectors + 104)
    ++ leBytes 4 1 ++ List.replicate 20 0 ++ leBytes 4 (2 ^ 31 + 76)
    ++ descriptor [0x64, 0x6f, 0x6e, 0x65] (tablePos sectors + 104)

def zeroGeometry (sectors : Nat) : Geometry := ⟨1024, 113, tablePos sectors⟩

/-- The sections of the image. -/
def zeroSections (sectors : Nat) : List Section :=
  [⟨13, .volume⟩, ⟨113, .sectors⟩, ⟨tablePos sectors, .table⟩, ⟨tablePos sectors + 104, .done⟩]

theorem chain_zeros {sectors : Nat} (h : sectors = 1 ∨ sectors = 2) :
    Chain (zeroBytes sectors) FILE_HEADER_SIZE (zeroSections sectors) := by
  have hvolume : nextOffset (zeroBytes sectors) 13 = 113 := by
    rcases h with rfl | rfl <;> decide +kernel
  have hsectors : nextOffset (zeroBytes sectors) 113 = tablePos sectors := by
    rcases h with rfl | rfl <;> decide +kernel
  have htable : nextOffset (zeroBytes sectors) (tablePos sectors) = tablePos sectors + 104 := by
    rcases h with rfl | rfl <;> decide +kernel
  have hdescribed : ∀ s ∈ zeroSections sectors, Described (zeroBytes sectors) s := by
    unfold Described
    rcases h with rfl | rfl <;> decide +kernel
  have hpos : 113 < tablePos sectors := by
    unfold tablePos
    omega
  refine .cons (s := ⟨13, .volume⟩) (hdescribed _ (by simp [zeroSections])) (by decide)
    (by rw [hvolume]; decide) (hvolume.symm ▸ ?_)
  refine .cons (s := ⟨113, .sectors⟩) (hdescribed _ (by simp [zeroSections])) (by decide)
    (by rw [hsectors]; exact hpos) (hsectors.symm ▸ ?_)
  refine .cons (s := ⟨tablePos sectors, .table⟩) (hdescribed _ (by simp [zeroSections]))
    SectionType.noConfusion (by rw [htable]; exact Nat.lt_add_of_pos_right (by decide)) (htable.symm ▸ ?_)
  exact .last (s := ⟨tablePos sectors + 104, .done⟩) (hdescribed _ (by simp [zeroSections]))
    (.inl rfl)

theorem layout_zeros {sectors : Nat} (h : sectors = 1 ∨ sectors = 2) :
    Layout (zeroBytes sectors) (zeroGeometry sectors) StoredStream (zeroDisk sectors) := by
  have hcount : (zeroGeometry sectors).chunkCount (zeroDisk sectors) = 1 := by
    rcases h with rfl | rfl <;> decide +kernel
  constructor
  · rcases h with rfl | rfl <;> decide +kernel
  · exact Nat.succ_pos _
  · refine ⟨zeroSections sectors, chain_zeros h, ⟨_, List.mem_cons_self, rfl⟩, ?_,
      ⟨_, List.mem_cons_of_mem _ List.mem_cons_self, rfl⟩, ?_,
      ⟨_, List.mem_cons_of_mem _ (List.mem_cons_of_mem _ List.mem_cons_self), rfl⟩, ?_⟩
    · intro s hs htyp
      simp only [zeroSections, List.mem_cons, List.not_mem_nil, or_false] at hs
      rcases hs with rfl | rfl | rfl | rfl
      · constructor <;> rcases h with rfl | rfl <;> decide +kernel
      all_goals cases htyp
    · intro s hs htyp
      simp only [zeroSections, List.mem_cons, List.not_mem_nil, or_false] at hs
      rcases hs with rfl | rfl | rfl | rfl <;> first | rfl | cases htyp
    · intro s hs htyp
      simp only [zeroSections, List.mem_cons, List.not_mem_nil, or_false] at hs
      rcases hs with rfl | rfl | rfl | rfl <;> first | rfl | cases htyp
  · constructor <;> rcases h with rfl | rfl <;> decide +kernel
  · intro i hi
    rw [hcount] at hi ⊢
    obtain rfl : i = 0 := by omega
    unfold Stored StoredStream
    rcases h with rfl | rfl <;> decide +kernel

def zeroImage (sectors : Nat) (h : sectors = 1 ∨ sectors = 2) : Image where
  bytes := zeroBytes sectors
  small := by rcases h with rfl | rfl <;> decide +kernel

/-- A disk of one sector, half a chunk, is not read. -/
theorem short_chunk_not_read :
    ¬ ∀ (image : Image) (g : Geometry) (deflated : Bytes → Bytes → Prop) (zlib : ReadExact)
      (D : Bytes), Layout image.bytes g deflated D → Inflates deflated zlib →
        Exposed zlib image D := by
  intro h
  obtain ⟨r, hr, hexposes⟩ := h (zeroImage 1 (.inl rfl)) (zeroGeometry 1) StoredStream inflateStored
    (zeroDisk 1) (layout_zeros (.inl rfl)) inflates_stored
  have hlayout : Layout (zeroImage 1 (.inl rfl)).bytes _ _ _ := layout_zeros (.inl rfl)
  obtain ⟨-, -, -, rfl⟩ := (new_eq_ok_iff hlayout).mp hr
  have hread := (exposes_iff hlayout inflates_stored).mp hexposes 0 (by decide +kernel)
  exact absurd (hread.2 (by decide +kernel)) (by decide +kernel)

/-- A disk of two sectors, one chunk, is exposed. -/
theorem full_chunk_exposed : Exposed inflateStored (zeroImage 2 (.inr rfl)) (zeroDisk 2) :=
  (ewf_exposed_iff (zeroImage 2 (.inr rfl)) (zeroGeometry 2) StoredStream inflateStored (zeroDisk 2)
    (layout_zeros (.inr rfl)) inflates_stored).mpr
    ⟨by decide +kernel, by decide, by decide +kernel, by decide +kernel, by decide +kernel⟩

end Mountin.Ewf
