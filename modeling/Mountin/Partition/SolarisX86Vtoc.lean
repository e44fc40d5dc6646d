import Mountin.Basic.Footprint
import Mountin.Detect.Slices
import Mountin.Partition.Labels
import Mountin.Partition.Mbr

set_option autoImplicit false

/-! # A Solaris slice in a partition

`pt/solaris-x86-vtoc/build.py`: a UFS image in a slice of a Solaris x86 label, in a primary partition
of an MBR. The two readers find it again, one in what the other shows.

* `splices_field` : a field of an image is the last thing written there.
* `build_found` : what the readers find in the image.
-/

namespace Mountin.SolarisX86Vtoc

open Partition Tracks Labels

/-! ## The writer -/

/-- `MBR_PARTITION_START`. -/
def MBR_PARTITION_START : Nat := 2048

/-- `SLICE_START`. -/
def SLICE_START : Nat := 128

/-- `SOLARIS2_PARTITION_TYPE`. -/
def SOLARIS2_PARTITION_TYPE : UInt8 := 0xBF

/-- `VTOC_PARTITIONS`. -/
def VTOC_PARTITIONS : Nat := 16

/-- `VTOC_ROOT_TAG`. -/
def VTOC_ROOT_TAG : Nat := 2

/-- `VTOC_BACKUP_TAG`. -/
def VTOC_BACKUP_TAG : Nat := 5

/-- `sectors`, which raises unless the size is aligned. -/
def sectors (size : Nat) : Option Nat :=
  if size % SECTOR_SIZE ≠ 0 then none else some (size / SECTOR_SIZE)

/-- `struct.pack_into` of fields with their widths, one behind the other. -/
def packFields : (off : Nat) → (fields : List (Nat × Nat)) → List (Nat × Bytes)
  | _, [] => []
  | off, (width, n) :: fields => (off, leBytes width n) :: packFields (off + width) fields

/-- What `write_mbr` writes. -/
def mbrWrites (partition_size : Nat) : List (Nat × Bytes) :=
  [(446 + 4, [SOLARIS2_PARTITION_TYPE])] ++
    packFields (446 + 8) [(4, MBR_PARTITION_START), (4, partition_size)] ++
    [(510, [0x55, 0xaa])]

/-- `write_mbr`; the size has to be a `u32`. -/
def writeMbr (image : Bytes) (partition_size : Nat) : Option Bytes :=
  if partition_size < 2 ^ 32 then some (image.splices (mbrWrites partition_size)) else none

/-- "mountin", and a zero. -/
def VOLUME : Bytes := [0x6d, 0x6f, 0x75, 0x6e, 0x74, 0x69, 0x6e, 0]

/-- "mountin Solaris x86". -/
def ASCII_LABEL : Bytes :=
  [0x6d, 0x6f, 0x75, 0x6e, 0x74, 0x69, 0x6e, 0x20, 0x53, 0x6f, 0x6c, 0x61, 0x72, 0x69, 0x73, 0x20,
    0x78, 0x38, 0x36]

/-- What `write_vtoc` writes into the label, but for the checksum. -/
def labelWrites (partition_size slice_size : Nat) : List (Nat × Bytes) :=
  packFields 0 [(4, 0), (4, 0), (4, 0)] ++
    packFields 12 [(4, VTOC_SANITY), (4, 1)] ++
    [(20, VOLUME)] ++
    packFields 28 [(2, SECTOR_SIZE), (2, VTOC_PARTITIONS)] ++
    packFields 72 [(2, VTOC_ROOT_TAG), (2, 0), (4, SLICE_START), (4, slice_size)] ++
    packFields 96 [(2, VTOC_BACKUP_TAG), (2, 1), (4, 0), (4, partition_size)] ++
    [(328, ASCII_LABEL)] ++
    packFields 456 [(4, 1), (4, 1), (2, 0), (2, 0), (4, 1), (4, 63)] ++
    packFields 508 [(2, VTOC_MAGIC)]

/-- The exclusive or of the words of the label. -/
def checksum (label : Bytes) : Nat :=
  (List.range 255).foldl (fun sum i => sum ^^^ leField label (i * 2) 2) 0

/-- The label of `write_vtoc`. -/
def label (partition_size slice_size : Nat) : Bytes :=
  let label := (List.replicate SECTOR_SIZE 0).splices (labelWrites partition_size slice_size)
  label.splice 510 (leBytes 2 (checksum label))

/-- `write_vtoc`; the sizes have to be an `i32`. -/
def writeVtoc (image : Bytes) (partition_size slice_size : Nat) : Option Bytes :=
  if slice_size < 2 ^ 31 ∧ partition_size < 2 ^ 31 then
    some (image.splice ((MBR_PARTITION_START + 1) * SECTOR_SIZE) (label partition_size slice_size))
  else none

/-- The sectors of the partition. -/
def partitionSize (slice_size : Nat) : Nat := SLICE_START + slice_size + 2048

/-- `main`: the image of a source. -/
def build (source : Bytes) : Option Bytes := do
  let slice_size ← sectors source.length
  let partition_size := partitionSize slice_size
  let total_sectors := MBR_PARTITION_START + partition_size + 2048
  let image := List.replicate (total_sectors * SECTOR_SIZE) 0
  let image ← writeMbr image partition_size
  let image ← writeVtoc image partition_size slice_size
  return image.splice ((MBR_PARTITION_START + SLICE_START) * SECTOR_SIZE) source

/-! ## Fields of what was written -/

section

variable {n : Nat} {writes : List (Nat × Bytes)}

/-- A field of an image that was written in order. -/
theorem splices_field (hroom : ∀ w ∈ writes, w.1 + w.2.length ≤ n) (hchain : writes.IsChain Before)
    {w : Nat × Bytes} (hw : w ∈ writes) :
    ((List.replicate n 0).splices writes).slice w.1 w.2.length = w.2 :=
  (List.splices_spec (by simpa using hroom) hchain.apart).2.1 w hw

theorem splices_number (hroom : ∀ w ∈ writes, w.1 + w.2.length ≤ n) (hchain : writes.IsChain Before)
    {off width k : Nat} (hw : (off, leBytes width k) ∈ writes) (hk : k < 256 ^ width) :
    leField ((List.replicate n 0).splices writes) off width = k := by
  have hfield := splices_field hroom hchain hw
  rw [length_leBytes] at hfield
  rw [leField, hfield, le_leBytes hk]

/-- Zeros where nothing was written. -/
theorem splices_zero (hroom : ∀ w ∈ writes, w.1 + w.2.length ≤ n) (hchain : writes.IsChain Before)
    {off width : Nat} (hfit : off + width ≤ n)
    (hfree : ∀ w ∈ writes, off + width ≤ w.1 ∨ w.1 + w.2.length ≤ off) :
    leField ((List.replicate n 0).splices writes) off width = 0 := by
  have hsame : AgreeOn (cells off width) (List.replicate n 0) ((List.replicate n 0).splices writes) :=
    fun i hi => (List.splices_spec (by simpa using hroom) hchain.apart).2.2 i
      fun w hw hmem => by
        have happart := hfree w hw
        rw [mem_cells] at hi hmem
        omega
  rw [leField, hsame.slice (Set.Subset.refl _), List.slice_replicate _ hfit]
  clear hsame hfree hfit
  induction width with
  | zero => rfl
  | succ width ih => rw [List.replicate_succ, Bytes.le, ih]; rfl

end

/-! ## Reads -/

section

variable {r : Reader} {D : Bytes} {bound : Nat}

/-- A number that is there. -/
theorem readLe_of_reads (h : Reads r D bound) (hbound : bound ≤ 2 ^ 64) {width off : Nat}
    (hoff : off < bound) (hwidth : 0 < width) (hfit : off + width ≤ D.length) :
    readLe r width off = .ok (leField D off width) := by
  have hlength : (D.slice off width).length = width := (List.length_slice_eq_iff hwidth).mpr hfit
  rw [readLe, readBytes, wrap_of_lt (hoff.trans_le hbound), readExactly, h off hoff width]
  simp only [bind, Except.bind, require, hlength, if_true]
  rfl

/-- A window of what a reader serves. -/
theorem reads_slice (h : Reads r D bound) (hbound : bound ≤ 2 ^ 64) {offset length : Nat}
    (hfits : offset + length ≤ bound) (hin : offset + length ≤ D.length) (bound' : Nat) :
    Reads (sliceReader r offset length) (D.slice offset length) bound' := by
  intro off hoff len
  have hlength : min length (D.length - offset) = length := Nat.min_eq_left (by omega)
  rw [h.shows.slice hbound hfits bound' off hoff len, List.slice_slice, Nat.zero_add, hlength]

end

/-! ## The label -/

section

variable {P S : Nat}

/-- What is written into the label, with its checksum. -/
def labelled (P S sum : Nat) : List (Nat × Bytes) := labelWrites P S ++ packFields 510 [(2, sum)]

theorem labelled_eq (P S sum : Nat) : labelled P S sum =
    [(0, leBytes 4 0), (4, leBytes 4 0), (8, leBytes 4 0), (12, leBytes 4 VTOC_SANITY),
      (16, leBytes 4 1), (20, VOLUME), (28, leBytes 2 SECTOR_SIZE), (30, leBytes 2 VTOC_PARTITIONS),
      (72, leBytes 2 VTOC_ROOT_TAG), (74, leBytes 2 0), (76, leBytes 4 SLICE_START),
      (80, leBytes 4 S), (96, leBytes 2 VTOC_BACKUP_TAG), (98, leBytes 2 1), (100, leBytes 4 0),
      (104, leBytes 4 P), (328, ASCII_LABEL), (456, leBytes 4 1), (460, leBytes 4 1),
      (464, leBytes 2 0), (466, leBytes 2 0), (468, leBytes 4 1), (472, leBytes 4 63),
      (508, leBytes 2 VTOC_MAGIC), (510, leBytes 2 sum)] := rfl

theorem labelled_chain (P S sum : Nat) : (labelled P S sum).IsChain Before := by
  rw [labelled_eq]
  simp [Before, VOLUME, ASCII_LABEL]

theorem labelled_room (P S sum : Nat) : ∀ w ∈ labelled P S sum, w.1 + w.2.length ≤ SECTOR_SIZE := by
  rw [labelled_eq]
  simp [VOLUME, ASCII_LABEL, SECTOR_SIZE]

theorem label_eq (P S : Nat) : ∃ sum,
    label P S = (List.replicate SECTOR_SIZE 0).splices (labelled P S sum) := by
  refine ⟨checksum ((List.replicate SECTOR_SIZE 0).splices (labelWrites P S)), ?_⟩
  rw [labelled, ← List.splices_append]
  rfl

theorem label_length (P S : Nat) : (label P S).length = SECTOR_SIZE := by
  obtain ⟨sum, h⟩ := label_eq P S
  have hspec := List.splices_spec (l := List.replicate SECTOR_SIZE 0)
    (by simpa using labelled_room P S sum) (labelled_chain P S sum).apart
  rw [h, hspec.1, List.length_replicate]

/-- The fields of the label that the reader looks at. -/
theorem label_fields (hS : S < 2 ^ 31) : leField (label P S) 12 4 = VTOC_SANITY ∧
    leField (label P S) 508 2 = VTOC_MAGIC ∧ leField (label P S) 30 2 = VTOC_PARTITIONS ∧
    leField (label P S) 76 4 = SLICE_START ∧ leField (label P S) 80 4 = S := by
  obtain ⟨sum, h⟩ := label_eq P S
  have number : ∀ {off width k : Nat}, (off, leBytes width k) ∈ labelled P S sum → k < 256 ^ width →
      leField (label P S) off width = k := fun hw hk => by
    rw [h, splices_number (labelled_room P S sum) (labelled_chain P S sum) hw hk]
  refine ⟨number ?_ (by decide), number ?_ (by decide), number ?_ (by decide), number ?_ (by decide),
    number ?_ (by omega)⟩
  all_goals simp [labelled_eq]

/-- The other slots, but for slot 2, are empty. -/
theorem label_empty {i : Nat} (hi : i < 16) (hfirst : i ≠ 0) (hraw : i ≠ 2) :
    leField (label P S) (80 + i * 12) 4 = 0 := by
  obtain ⟨sum, h⟩ := label_eq P S
  rw [h]
  refine splices_zero (labelled_room P S sum) (labelled_chain P S sum) ?_ ?_
  · rw [SECTOR_SIZE]
    omega
  · rw [labelled_eq]
    simp only [List.forall_mem_cons, length_leBytes, VOLUME, ASCII_LABEL, List.length_cons,
      List.length_nil, List.not_mem_nil, false_implies, implies_true, and_true]
    omega

end

/-! ## The image -/

/-- The sectors of a source. -/
def sliceSize (source : Bytes) : Nat := source.length / SECTOR_SIZE

/-- What is written into the image. -/
def imageWrites (source : Bytes) : List (Nat × Bytes) :=
  let P := partitionSize (sliceSize source)
  mbrWrites P ++
    [((MBR_PARTITION_START + 1) * SECTOR_SIZE, label P (sliceSize source)),
      ((MBR_PARTITION_START + SLICE_START) * SECTOR_SIZE, source)]

/-- The length of the image. -/
def imageLength (source : Bytes) : Nat :=
  (MBR_PARTITION_START + partitionSize (sliceSize source) + 2048) * SECTOR_SIZE

/-- The sources of whole sectors that a label can describe. -/
def Fitting (source : Bytes) : Prop :=
  source.length % SECTOR_SIZE = 0 ∧ partitionSize (sliceSize source) < 2 ^ 31

theorem build_eq_some_iff {source image : Bytes} : build source = some image ↔
    Fitting source ∧ image = (List.replicate (imageLength source) 0).splices (imageWrites source) := by
  have hsplices : ∀ l : Bytes, l.splices (imageWrites source) =
      ((l.splices (mbrWrites (partitionSize (sliceSize source)))).splice
        ((MBR_PARTITION_START + 1) * SECTOR_SIZE)
        (label (partitionSize (sliceSize source)) (sliceSize source))).splice
        ((MBR_PARTITION_START + SLICE_START) * SECTOR_SIZE) source := fun l => by
    rw [imageWrites, ← List.splices_append]
    rfl
  by_cases haligned : source.length % SECTOR_SIZE = 0
  · have hsectors : sectors source.length = some (sliceSize source) := if_neg (by simpa using haligned)
    by_cases hsmall : partitionSize (sliceSize source) < 2 ^ 31
    · have hslice : sliceSize source < 2 ^ 31 := by
        rw [partitionSize] at hsmall
        omega
      have hmbr : partitionSize (sliceSize source) < 2 ^ 32 := hsmall.trans (by decide)
      simp only [build, hsectors, Option.bind_eq_bind, Option.bind_some, writeMbr, hmbr, if_true,
        writeVtoc, hslice, hsmall, and_self, pure, Option.some.injEq, Fitting, haligned, true_and]
      rw [hsplices]
      exact eq_comm
    · have hnone : build source = none := by
        simp only [build, hsectors, Option.bind_eq_bind, Option.bind_some, writeVtoc, hsmall,
          and_false, if_false, Option.bind_none, Option.bind_fun_none]
      rw [hnone]
      exact ⟨fun h => (by cases h), fun h => absurd h.1.2 hsmall⟩
  · have hsectors : sectors source.length = none := if_pos haligned
    rw [build, hsectors]
    exact ⟨fun h => (by cases h), fun h => absurd h.1.1 haligned⟩

section

variable {source image : Bytes} {reader : Reader}

theorem Fitting.length (h : Fitting source) : source.length = sliceSize source * 512 := by
  have haligned := h.1
  simp only [SECTOR_SIZE] at haligned
  simp only [sliceSize, SECTOR_SIZE]
  omega

theorem imageWrites_eq (source : Bytes) : imageWrites source =
    [(450, [SOLARIS2_PARTITION_TYPE]), (454, leBytes 4 MBR_PARTITION_START),
      (458, leBytes 4 (partitionSize (sliceSize source))), (510, [0x55, 0xaa]),
      (1049088, label (partitionSize (sliceSize source)) (sliceSize source)),
      (1114112, source)] := rfl

theorem imageWrites_chain (source : Bytes) : (imageWrites source).IsChain Before := by
  rw [imageWrites_eq]
  simp [Before, label_length, SECTOR_SIZE]

theorem imageWrites_room (h : Fitting source) :
    ∀ w ∈ imageWrites source, w.1 + w.2.length ≤ imageLength source := by
  have hlength := h.length
  rw [imageWrites_eq]
  simp only [List.forall_mem_cons, length_leBytes, label_length, List.length_cons, List.length_nil,
    List.not_mem_nil, false_implies, implies_true, and_true, imageLength, partitionSize, SECTOR_SIZE,
    MBR_PARTITION_START, SLICE_START]
  omega

/-- An image that was built. -/
structure Built (source image : Bytes) : Prop where
  length : image.length = imageLength source
  /-- The boot signature, the entry of the partition, and no other. -/
  signature : leField image 510 2 = Mbr.BOOT_SIG
  type_code : leField image 450 1 = 0xBF
  lba_start : leField image 454 4 = MBR_PARTITION_START
  sector_count : leField image 458 4 = partitionSize (sliceSize source)
  empty : ∀ i, i < 4 → i ≠ 0 → leField image (450 + i * 16) 1 = Mbr.TYPE_EMPTY
  label : image.slice 1049088 512 = label (partitionSize (sliceSize source)) (sliceSize source)
  source : image.slice 1114112 source.length = source

theorem built (h : Fitting source) :
    Built source ((List.replicate (imageLength source) 0).splices (imageWrites source)) := by
  have hroom := imageWrites_room h
  have hchain := imageWrites_chain source
  have hP : partitionSize (sliceSize source) < 256 ^ 4 := h.2.trans (by decide)
  have there : ∀ (off : Nat) (d : Bytes), (off, d) ∈ imageWrites source →
      ((List.replicate (imageLength source) 0).splices (imageWrites source)).slice off d.length = d :=
    fun off d hw => splices_field hroom hchain hw
  refine ⟨?_, ?_, ?_, ?_, ?_, fun i hi hfirst => ?_, ?_, ?_⟩
  · have hspec := List.splices_spec (l := List.replicate (imageLength source) 0)
      (by simpa using hroom) hchain.apart
    rw [hspec.1, List.length_replicate]
  · have hfield := there 510 [0x55, 0xaa] (by simp [imageWrites_eq])
    exact congrArg Bytes.le hfield
  · have hfield := there 450 [SOLARIS2_PARTITION_TYPE] (by simp [imageWrites_eq])
    exact congrArg Bytes.le hfield
  · exact splices_number hroom hchain (by simp [imageWrites_eq]) (by decide)
  · exact splices_number hroom hchain (by simp [imageWrites_eq]) hP
  · refine splices_zero hroom hchain ?_ ?_
    · simp only [imageLength, MBR_PARTITION_START, SECTOR_SIZE]
      omega
    · rw [imageWrites_eq]
      simp only [List.forall_mem_cons, length_leBytes, label_length, List.length_cons,
        List.length_nil, List.not_mem_nil, false_implies, implies_true, and_true, SECTOR_SIZE]
      omega
  · have hfield := there 1049088
      (SolarisX86Vtoc.label (partitionSize (sliceSize source)) (sliceSize source))
      (by simp [imageWrites_eq])
    rwa [label_length] at hfield
  · exact there 1114112 source (by simp [imageWrites_eq])

theorem Built.fits (h : Built source image) (hfitting : Fitting source) :
    image.length < 2 ^ 63 ∧
      2048 * 512 + partitionSize (sliceSize source) * 512 ≤ image.length := by
  have hsmall := hfitting.2
  rw [h.length, imageLength]
  simp only [SECTOR_SIZE, MBR_PARTITION_START]
  omega

/-- The source lies in the partition. -/
theorem Fitting.room (h : Fitting source) : 2176 ≤ partitionSize (sliceSize source) ∧
    128 * 512 + source.length ≤ partitionSize (sliceSize source) * 512 := by
  have hlength := h.length
  rw [partitionSize, SLICE_START]
  omega

/-- The entries of the MBR. -/
theorem readEntry_of_reads (hreader : Reads reader image FILE_OFFSET_LIMIT) {i : Nat} (hi : i < 4)
    (hfit : 512 ≤ image.length) : Mbr.readEntry reader 0 i = .ok
      ⟨leField image (450 + i * 16) 1, leField image (454 + i * 16) 4, leField image (458 + i * 16) 4⟩ := by
  have number : ∀ {off width : Nat}, 0 < width → off + width ≤ 512 →
      readLe reader width off = .ok (leField image off width) := fun hwidth hoff =>
    readLe_of_reads hreader (by decide) (by rw [FILE_OFFSET_LIMIT]; omega) hwidth (by omega)
  have htype : 0 + 446 + i * 16 + 4 = 450 + i * 16 := by omega
  have hstart : 0 + 446 + i * 16 + 8 = 454 + i * 16 := by omega
  have hcount : 0 + 446 + i * 16 + 12 = 458 + i * 16 := by omega
  simp only [Mbr.readEntry, htype, hstart, hcount]
  rw [number (by decide) (by omega), number (by decide) (by omega), number (by decide) (by omega)]
  rfl

theorem mbr_of_entries {first second third fourth : Mbr.PartitionEntry}
    (hsig : readLe reader 2 510 = .ok Mbr.BOOT_SIG) (hfirst : Mbr.readEntry reader 0 0 = .ok first)
    (hsecond : Mbr.readEntry reader 0 1 = .ok second) (hthird : Mbr.readEntry reader 0 2 = .ok third)
    (hfourth : Mbr.readEntry reader 0 3 = .ok fourth) : Mbr.MBR reader =
      .ok (Mbr.slotChildren reader [(first, 0), (second, 1), (third, 2), (fourth, 3)]
        Mbr.FIRST_LOGICAL_INDEX) := by
  have htable : Mbr.readPartitionTable reader 0 = .ok #v[first, second, third, fourth] := by
    rw [Mbr.readPartitionTable]
    simp only [Nat.zero_mul, wrap_of_lt (show 0 < 2 ^ 64 by decide), Nat.zero_add, hsig, hfirst,
      hsecond, hthird, hfourth]
    rfl
  rw [Mbr.MBR, htable]
  rfl

/-- The MBR has the one partition. -/
theorem mbr_of_built (h : Built source image) (hfitting : Fitting source)
    (hreader : Reads reader image FILE_OFFSET_LIMIT) : Mbr.MBR reader =
      .ok [window 0 (MBR_PARTITION_START * 512) (partitionSize (sliceSize source) * 512)] := by
  obtain ⟨-, hfit⟩ := h.fits hfitting
  have hlength : 512 ≤ image.length := by omega
  have hsig : readLe reader 2 510 = .ok Mbr.BOOT_SIG := by
    rw [readLe_of_reads hreader (by decide) (by decide) (by decide) (by omega), h.signature]
  have hsmall := hfitting.2
  have hpos : 0 < partitionSize (sliceSize source) := by
    rw [partitionSize]
    omega
  have entry : ∀ i, i < 4 → Mbr.readEntry reader 0 i = .ok ⟨leField image (450 + i * 16) 1,
      leField image (454 + i * 16) 4, leField image (458 + i * 16) 4⟩ :=
    fun i hi => readEntry_of_reads hreader hi hlength
  have hfirst := entry 0 (by decide)
  simp only [Nat.zero_mul, Nat.add_zero, h.type_code, h.lba_start, h.sector_count] at hfirst
  have hsecond := entry 1 (by decide)
  rw [h.empty 1 (by decide) (by decide)] at hsecond
  have hthird := entry 2 (by decide)
  rw [h.empty 2 (by decide) (by decide)] at hthird
  have hfourth := entry 3 (by decide)
  rw [h.empty 3 (by decide) (by decide)] at hfourth
  rw [mbr_of_entries hsig hfirst hsecond hthird hfourth]
  have hstart : wrap (MBR_PARTITION_START * SECTOR_SIZE) = MBR_PARTITION_START * 512 := by decide
  have hcount : wrap (partitionSize (sliceSize source) * SECTOR_SIZE) =
      partitionSize (sliceSize source) * 512 := wrap_of_lt (by rw [SECTOR_SIZE]; omega)
  simp only [Mbr.slotChildren, Mbr.PartitionEntry.isSkipped, Mbr.PartitionEntry.isExtended,
    Mbr.primaryChildren, Mbr.TYPE_EMPTY, Mbr.TYPE_GPT_PROTECTIVE, Mbr.TYPE_EXTENDED_CHS,
    Mbr.TYPE_EXTENDED_LBA, hstart, hcount, hpos]
  rfl

/-- The bytes of the partition. -/
def partitionBytes (source image : Bytes) : Bytes :=
  image.slice (MBR_PARTITION_START * 512) (partitionSize (sliceSize source) * 512)

theorem Built.partition_length (h : Built source image) (hfitting : Fitting source) :
    (partitionBytes source image).length = partitionSize (sliceSize source) * 512 := by
  have hfit := (h.fits hfitting).2
  have hroom := hfitting.room.1
  refine (List.length_slice_eq_iff ?_).mpr ?_
  · omega
  · simp only [MBR_PARTITION_START]
    exact hfit

/-- The slot of the source. -/
def sourceSlot (source : Bytes) : Slot := ⟨0, SLICE_START, 1, sliceSize source, SECTOR_SIZE⟩

/-- A field of the label in the second sector of the partition. -/
theorem readLe_label (h : Built source image) (hfitting : Fitting source)
    (hreader : Reads reader (partitionBytes source image) FILE_OFFSET_LIMIT) {k width : Nat}
    (hwidth : 0 < width) (hk : k + width ≤ 512) : readLe reader width (512 + k) =
      .ok (leField (label (partitionSize (sliceSize source)) (sliceSize source)) k width) := by
  have hroom := hfitting.room.1
  have hlength := h.partition_length hfitting
  have hlimit : 512 + k < FILE_OFFSET_LIMIT := by
    rw [FILE_OFFSET_LIMIT]
    omega
  rw [readLe_of_reads hreader (by decide) hlimit hwidth (by omega),
    partitionBytes, leField_slice (by omega), ← h.label, leField_slice hk]
  simp only [MBR_PARTITION_START]
  congr 2
  omega

/-- The slots of the label: that of the source, unless it is empty. -/
theorem slot_of_built (h : Built source image) (hfitting : Fitting source)
    (hreader : Reads reader (partitionBytes source image) FILE_OFFSET_LIMIT)
    (hsize : reader.size = some (partitionSize (sliceSize source) * 512)) {i : Nat} (hi : i < 16) :
    solarisX86VtocSlot reader i =
      .ok (if i = 0 ∧ sliceSize source ≠ 0 then some (sourceSlot source) else none) := by
  have hsmall : sliceSize source < 2 ^ 31 := by
    have := hfitting.2
    rw [partitionSize] at this
    omega
  obtain ⟨-, -, -, hstart, hcount⟩ :=
    label_fields (P := partitionSize (sliceSize source)) hsmall
  unfold solarisX86VtocSlot
  by_cases hraw : i = 2
  · rw [if_pos hraw, if_neg (by omega)]
    rfl
  rw [if_neg hraw]
  have hstartAt : SECTOR_SIZE + 72 + i * 12 + 4 = 512 + (76 + i * 12) := by
    rw [SECTOR_SIZE]
    omega
  have hcountAt : SECTOR_SIZE + 72 + i * 12 + 8 = 512 + (80 + i * 12) := by
    rw [SECTOR_SIZE]
    omega
  simp only [hstartAt, hcountAt]
  rw [readLe_label h hfitting hreader (by decide) (by omega),
    readLe_label h hfitting hreader (by decide) (by omega)]
  simp only [Except.ok_bind]
  by_cases hfirst : i = 0
  · subst hfirst
    simp only [Nat.zero_mul, Nat.add_zero, hstart, hcount, true_and]
    by_cases hempty : sliceSize source = 0
    · rw [if_pos hempty, if_neg (by omega)]
      rfl
    · have hends : ∀ size ∈ reader.size,
          SLICE_START * SECTOR_SIZE + sliceSize source * SECTOR_SIZE ≤ size := by
        intro size hsize'
        obtain rfl : partitionSize (sliceSize source) * 512 = size :=
          Option.some.inj (hsize.symm.trans hsize')
        rw [partitionSize, SLICE_START, SECTOR_SIZE]
        omega
      have hinside : ∀ e, require (∀ size ∈ reader.size,
          SLICE_START * SECTOR_SIZE + sliceSize source * SECTOR_SIZE ≤ size) e = .ok () :=
        fun e => if_pos hends
      have hcheck : ∀ {n : Nat} {e : IoError}, n < 2 ^ 64 → checked n e = .ok n := fun hn => if_pos hn
      rw [if_neg hempty, if_pos hempty, hcheck (by decide), Except.ok_bind,
        hcheck (by rw [SECTOR_SIZE]; omega), Except.ok_bind,
        hcheck (by rw [SECTOR_SIZE, SLICE_START]; omega), Except.ok_bind, hinside]
      rfl
  · rw [label_empty hi hfirst hraw, if_pos rfl, if_neg (by omega)]
    rfl

/-- What the reader of the label makes of the partition. -/
theorem vtoc_of_built (h : Built source image) (hfitting : Fitting source)
    (hreader : Reads reader (partitionBytes source image) FILE_OFFSET_LIMIT)
    (hsize : reader.size = some (partitionSize (sliceSize source) * 512)) :
    Label.solarisX86Vtoc.children reader =
      if source = [] then .error (.invalidData "empty Solaris x86 VTOC")
      else .ok [window 0 (SLICE_START * 512) source.length] := by
  have hlength := hfitting.length
  have hsmall := hfitting.2
  rw [partitionSize, SLICE_START] at hsmall
  obtain ⟨hsanity, hmagic, hcount, -, -⟩ :=
    label_fields (P := partitionSize (sliceSize source)) (S := sliceSize source) (by omega)
  have field : ∀ k width : Nat, 0 < width → k + width ≤ 512 → readLe reader width (512 + k) =
      .ok (leField (label (partitionSize (sliceSize source)) (sliceSize source)) k width) :=
    fun k width hwidth hk => readLe_label h hfitting hreader hwidth hk
  have hslots : readSlots 16 (solarisX86VtocSlot reader) =
      .ok (if source = [] then [] else [sourceSlot source]) := by
    rw [readSlots, List.mapM_eq_map fun i hi =>
      slot_of_built h hfitting hreader hsize (List.mem_range.mp hi)]
    by_cases hempty : source = []
    · have hzero : sliceSize source = 0 := by simp [sliceSize, hempty]
      simp only [hzero, ne_eq, not_true, and_false, if_false, if_pos hempty]
      rfl
    · have hpos : sliceSize source ≠ 0 := fun hzero =>
        hempty (List.length_eq_zero_iff.mp (by omega))
      simp only [ne_eq, hpos, not_false_iff, and_true, if_neg hempty]
      rfl
  have hread : solarisX86VtocSlots reader =
      if source = [] then .error (.invalidData "empty Solaris x86 VTOC")
      else .ok [sourceSlot source] := by
    rw [solarisX86VtocSlots]
    simp only [SECTOR_SIZE, field 12 4 (by decide) (by decide),
      field 508 2 (by decide) (by decide),
      field 30 2 (by decide) (by decide), hsanity, hmagic, hcount, hslots]
    split <;> rfl
  have hchildren : Label.solarisX86Vtoc.children reader = (solarisX86VtocSlots reader).bind
      fun slots => .ok (slots.map fun s => window s.index s.compute.1 s.compute.2) := rfl
  rw [hchildren, hread]
  split
  · rfl
  · have hwindow : (sourceSlot source).compute = (SLICE_START * 512, source.length) := by
      simp only [Slot.compute, sourceSlot, SLICE_START, SECTOR_SIZE, Nat.mul_one]
      rw [wrap_of_lt (n := 128) (by decide), wrap_of_lt (by decide), wrap_of_lt (by omega), hlength]
    simp only [Except.bind, List.map_cons, List.map_nil, hwindow]
    rfl

end

/-! ## What the readers find -/

/-- **The slice in the partition.** The writer takes the sources of whole sectors whose partition
fits an `i32`, and no others. In an image that it writes, however it is read, the MBR has one
partition; the label there has one slice, which shows the source, or is refused when that is empty. -/
theorem build_found (source : Bytes) :
    ((build source).isSome ↔ source.length % 512 = 0 ∧ source.length / 512 + 2176 < 2 ^ 31) ∧
      ∀ image reader, build source = some image → Reads reader image FILE_OFFSET_LIMIT →
        ∃ partition, Mbr.MBR reader = .ok [partition] ∧
          (source = [] → Label.solarisX86Vtoc.children (partition.view.reader reader) =
            .error (.invalidData "empty Solaris x86 VTOC")) ∧
          (source ≠ [] → ∃ slice,
            Label.solarisX86Vtoc.children (partition.view.reader reader) = .ok [slice] ∧
              ∀ bound, Reads (slice.view.reader (partition.view.reader reader)) source bound) := by
  constructor
  · have hfitting : Fitting source ↔
        source.length % 512 = 0 ∧ source.length / 512 + 2176 < 2 ^ 31 := by
      simp only [Fitting, partitionSize, sliceSize, SECTOR_SIZE, SLICE_START]
      omega
    rw [← hfitting, Option.isSome_iff_exists]
    constructor
    · rintro ⟨image, h⟩
      exact (build_eq_some_iff.mp h).1
    · intro h
      exact ⟨_, build_eq_some_iff.mpr ⟨h, rfl⟩⟩
  · intro image reader hbuild hreader
    obtain ⟨hfitting, rfl⟩ := build_eq_some_iff.mp hbuild
    have hbuilt := built hfitting
    generalize (List.replicate (imageLength source) 0).splices (imageWrites source) = image at *
    obtain ⟨hlimit, hfit⟩ := hbuilt.fits hfitting
    have hroom := hfitting.room.2
    have hpartition := hbuilt.partition_length hfitting
    have hinner : Reads (sliceReader reader (MBR_PARTITION_START * 512)
        (partitionSize (sliceSize source) * 512)) (partitionBytes source image) FILE_OFFSET_LIMIT := by
      refine reads_slice hreader (by decide) ?_ ?_ _
      · simp only [MBR_PARTITION_START, FILE_OFFSET_LIMIT]
        omega
      · simp only [MBR_PARTITION_START]
        exact hfit
    have hvtoc := vtoc_of_built hbuilt hfitting hinner rfl
    refine ⟨_, mbr_of_built hbuilt hfitting hreader, fun hempty => ?_, fun hempty => ?_⟩
    · exact hvtoc.trans (if_pos hempty)
    · refine ⟨_, hvtoc.trans (if_neg hempty), fun bound => ?_⟩
      have hbytes : (partitionBytes source image).slice (SLICE_START * 512) source.length = source := by
        show (image.slice (2048 * 512) (partitionSize (sliceSize source) * 512)).slice (128 * 512)
          source.length = source
        rw [slice_slice_of_le hroom]
        exact hbuilt.source
      have hslice : Reads (sliceReader (sliceReader reader (MBR_PARTITION_START * 512)
          (partitionSize (sliceSize source) * 512)) (SLICE_START * 512) source.length)
            ((partitionBytes source image).slice (SLICE_START * 512) source.length) bound := by
        refine reads_slice hinner (by decide) ?_ ?_ bound
        · simp only [SLICE_START, FILE_OFFSET_LIMIT]
          omega
        · rw [hpartition]
          exact hroom
      rwa [hbytes] at hslice

/-- A source of one sector. -/
def oneSector : Bytes := List.replicate 512 0x55

theorem build_found_oneSector : ∃ image partition slice, build oneSector = some image ∧
    Mbr.MBR (bytesReader image) = .ok [partition] ∧
    Label.solarisX86Vtoc.children (partition.view.reader (bytesReader image)) = .ok [slice] ∧
    ∀ bound, Reads (slice.view.reader (partition.view.reader (bytesReader image))) oneSector bound := by
  have hlength : oneSector.length = 512 := List.length_replicate
  obtain ⟨hsome, hfound⟩ := build_found oneSector
  rw [hlength] at hsome
  obtain ⟨image, himage⟩ := Option.isSome_iff_exists.mp (hsome.mpr (by decide))
  obtain ⟨partition, hmbr, -, hslice⟩ :=
    hfound image (bytesReader image) himage (bytesReader_reads image _)
  obtain ⟨slice, hchildren, hreads⟩ := hslice
    (List.ne_nil_of_length_pos (by rw [hlength]; decide))
  exact ⟨image, partition, slice, himage, hmbr, hchildren, hreads⟩

end Mountin.SolarisX86Vtoc
