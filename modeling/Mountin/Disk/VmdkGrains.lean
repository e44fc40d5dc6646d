import Mountin.Basic.Raising
import Mountin.Basic.Splice
import Mountin.Disk.Exposes
import Mountin.Disk.Vmdk

set_option autoImplicit false

/-! # VMDK grains

What a sparse VMDK image says of each grain of its disk, and what `VmdkReader` reads of it.

* `extent_byte` : a plain grain is looked up as the format has it.
* `sparse_faithful_iff` : what is read is the disk, unless a grain is compressed: its data is read
  from 4 bytes too far on.
-/

namespace Mountin.Vmdk

/-! ## The formats -/

/-- The formats of a sparse image. -/
inductive Format where
  | cowd | kdmv | seSparse

/-- Where a grain is: nowhere, at a position, or compressed behind a marker at a position. -/
inductive Grain where
  | absent
  | stored (position : Nat)
  | compressed (marker : Nat)
  deriving DecidableEq

section

variable (inflate : ReadExact) (bytes : Bytes)

/-- The magic of a format, as the reader has it. -/
def Format.Magic : Format → Prop
  | .cowd => leField bytes 0 4 = VMDK3_MAGIC
  | .kdmv => leField bytes 0 4 = VMDK4_MAGIC
  | .seSparse => bytes.slice 0 8 = [0xbe, 0xba, 0xfe, 0xca, 0, 0, 0, 0]

def Format.grainSize : Format → Nat
  | .cowd => leField bytes 16 4 * 512
  | .kdmv => leField bytes 20 8 * 512
  | .seSparse => leField bytes 24 8

def Format.virtualSize : Format → Nat
  | .cowd => leField bytes 12 4 * 512
  | .kdmv => leField bytes 12 8 * 512
  | .seSparse => leField bytes 16 8

/-- The entries of a grain table, or of an `l1dir`. -/
def Format.tableSize : Format → Nat
  | .cowd => leField bytes 24 4
  | .kdmv => leField bytes 44 4
  | .seSparse => leField bytes 32 8

/-- The position of the grain directory, or of the `l1dir`. -/
def Format.directory : Format → Nat
  | .cowd => leField bytes 20 4 * 512
  | .kdmv => leField bytes 56 8 * 512
  | .seSparse => leField bytes 40 8

/-- The grains of a KDMV image are compressed. -/
def IsCompressed : Prop := leField bytes 8 4 &&& VMDK4_FLAG_COMPRESS ≠ 0

instance : Decidable (IsCompressed bytes) := inferInstanceAs (Decidable (_ ≠ _))

/-- A KDMV image marks grains of zeros in its grain tables. -/
def HasZeroGrain : Prop := leField bytes 8 4 &&& VMDK4_FLAG_ZERO_GRAIN ≠ 0

instance : Decidable (HasZeroGrain bytes) := inferInstanceAs (Decidable (_ ≠ _))

/-- The entry of the grain directory for a grain, of so many bytes. -/
def Format.directoryEntry (f : Format) (width i : Nat) : Nat :=
  leField bytes (f.directory bytes + i / f.tableSize bytes * width) width

/-- The sector of a grain in a KDMV image, 0 where it has none. -/
def kdmvEntry (i : Nat) : Nat :=
  let table := Format.kdmv.directoryEntry bytes 4 i
  if table = 0 then 0
  else leField bytes (table * 512 + i % Format.kdmv.tableSize bytes * 4) 4

/-- The grain with an index. -/
def Format.grain : Format → Nat → Grain
  | .cowd, i =>
      let sector := leField bytes (Format.cowd.directory bytes + i * 4) 4
      if Format.cowd.tableSize bytes ≤ i ∨ sector = 0 then .absent else .stored (sector * 512)
  | .kdmv, i =>
      let sector := kdmvEntry bytes i
      if sector = 0 ∨ (HasZeroGrain bytes ∧ sector = VMDK4_GTE_ZEROED) then .absent
      else if IsCompressed bytes then .compressed (sector * 512)
      else .stored (sector * 512)
  | .seSparse, i =>
      let table := Format.seSparse.directoryEntry bytes 8 i
      let entry := leField bytes (table % 2 ^ 60 + i % Format.seSparse.tableSize bytes * 8) 8
      if (table / 2 ^ 60 % 16 ≠ 0 ∧ table / 2 ^ 60 % 16 ≠ 3) ∨ table % 2 ^ 60 = 0 ∨
          entry / 2 ^ 60 % 16 ≠ 3 then .absent
      else .stored (entry % 2 ^ 60)

/-- The entry of the grain lies in the image, when there is a grain table. -/
def Format.TableWithin : Format → Nat → Prop
  | .cowd, _ => True
  | .kdmv, i =>
      let table := Format.kdmv.directoryEntry bytes 4 i
      table ≠ 0 → table * 512 + i % Format.kdmv.tableSize bytes * 4 + 4 ≤ bytes.length
  | .seSparse, i =>
      let table := Format.seSparse.directoryEntry bytes 8 i
      table % 2 ^ 60 ≠ 0 →
        table % 2 ^ 60 + i % Format.seSparse.tableSize bytes * 8 + 8 ≤ bytes.length

/-- The size that the marker of a compressed grain gives. -/
def compressedSize (marker : Nat) : Nat := leField bytes (marker + 8) 4

/-- Byte `k` of a grain: that of its stored bytes, zero, or that of the inflation of the data behind
its marker of 12 bytes. -/
def Grain.byte (grainSize k : Nat) : Grain → Option UInt8
  | .absent => some 0
  | .stored position => bytes[position + k]?
  | .compressed marker =>
      match inflate (bytes.slice (marker + 12) (compressedSize bytes marker)) grainSize with
      | .ok grain => grain[k]?
      | .error _ => none

/-- A sparse image of the disk `D`. -/
structure SparseImage (f : Format) (D : Bytes) : Prop where
  magic : f.Magic bytes
  virtualSize : f.virtualSize bytes = D.length
  tables : ∀ off < D.length, f.TableWithin bytes (off / f.grainSize bytes)
  content : ∀ off < D.length, (f.grain bytes (off / f.grainSize bytes)).byte inflate bytes
    (f.grainSize bytes) (off % f.grainSize bytes) = D[off]?

/-- What is in a buffer of zeros after a read of so many bytes. -/
def readBuffer (pos size : Nat) : Bytes :=
  bytes.slice pos size ++ List.replicate (size - (bytes.slice pos size).length) 0

/-- What lies 4 bytes behind the start of the data of a grain inflates, if at all, to the bytes of
the disk. -/
def LateDataAgrees (D : Bytes) : Prop :=
  ∀ off < D.length, ∀ marker grain,
    marker = kdmvEntry bytes (off / Format.kdmv.grainSize bytes) * 512 → marker ≠ 0 →
    marker + 16 ≤ bytes.length →
    inflate (readBuffer bytes (marker + 16) (compressedSize bytes marker))
      (Format.kdmv.grainSize bytes) = .ok grain →
    grain[off % Format.kdmv.grainSize bytes]? = D[off]?

end

/-! ## Opening -/

variable {image : Image} {r : VmdkReader} {D : Bytes}

/-- An accepted image of a format: its sizes, and the tables in memory. -/
structure Accepted (image : Image) (f : Format) (r : VmdkReader) (variant : VmdkVariant) : Prop where
  parent : r.parent = fileReader image
  grainSize : r.grainSize = f.grainSize image.bytes
  grainSize_pos : 0 < r.grainSize
  virtualSize : r.virtualSize = f.virtualSize image.bytes
  variant : r.variant = variant

/-- The table of a directory of so many entries. -/
def directoryTable (bytes : Bytes) (f : Format) (width n : Nat) : List Nat :=
  tableOf leField width (bytes.slice (f.directory bytes) (n * width))

theorem getElem?_directoryTable {bytes : Bytes} {f : Format} {width n i : Nat} (hwidth : 0 < width)
    (h : f.directory bytes + n * width ≤ bytes.length) :
    (directoryTable bytes f width n)[i]? =
      if i < n then some (leField bytes (f.directory bytes + i * width) width) else none := by
  have hlen : (bytes.slice (f.directory bytes) (n * width)).length / width = n := by
    rw [List.length_slice, Nat.min_eq_left (by omega), Nat.mul_div_cancel _ hwidth]
  unfold directoryTable
  split_ifs with hi
  · have hend : i * width + width ≤ n * width := by
      rw [← Nat.succ_mul]
      exact Nat.mul_le_mul_right _ hi
    rw [getElem?_tableOf (by rwa [hlen]), leField_slice hend]
  · exact getElem?_tableOf_eq_none (by omega)

theorem parseVmdk3_eq_ok (h : parseVmdk3 (fileReader image) = .ok r) :
    Accepted image .cowd r (.vmdk3 (directoryTable image.bytes .cowd 4
      (Format.cowd.tableSize image.bytes))) ∧
    Format.cowd.directory image.bytes + Format.cowd.tableSize image.bytes * 4
      ≤ image.bytes.length := by
  simp only [parseVmdk3, bind_eq_ok, require_eq_ok, checked_eq_ok, readExactly_eq_ok, pure,
    Except.pure, Except.ok.injEq] at h
  obtain ⟨_, ⟨-, rfl, -⟩, _, ⟨-, rfl⟩, -, hgrain, _, ⟨-, rfl⟩, _, ⟨-, rfl⟩, size, hsize, _,
    ⟨-, rfl, -⟩, rfl⟩ := h
  have hfield : ∀ k w, k + w ≤ 44 → leField (image.bytes.slice 4 44) k w
      = leField image.bytes (4 + k) w := fun k w hk => leField_slice hk
  rw [hfield 16 4 (by omega), hfield 20 4 (by omega)] at hsize
  obtain ⟨rfl, hend⟩ := checkedTableSize_eq_ok hsize
  rw [hfield 12 4 (by omega)] at hgrain
  refine ⟨⟨rfl, ?_, ?_, ?_, ?_⟩, hend⟩
  · exact congrArg (· * 512) (hfield 12 4 (by omega))
  · show 0 < leField _ 12 4 * 512
    rw [hfield 12 4 (by omega)]
    exact Nat.pos_of_ne_zero hgrain
  · exact congrArg (· * 512) (hfield 8 4 (by omega))
  · show VmdkVariant.vmdk3 _ = _
    rw [hfield 16 4 (by omega)]
    rfl

/-- The entries of a directory whose tables cover the disk. -/
def Format.directorySize (f : Format) (bytes : Bytes) : Nat :=
  (f.virtualSize bytes + f.tableSize bytes * f.grainSize bytes - 1) /
    (f.tableSize bytes * f.grainSize bytes)

/-- The variant of a KDMV image. -/
def kdmvVariant (bytes : Bytes) : VmdkVariant :=
  let gd := directoryTable bytes .kdmv 4 (Format.kdmv.directorySize bytes)
  if IsCompressed bytes then .vmdk4Compressed gd (Format.kdmv.tableSize bytes)
  else .vmdk4 gd (Format.kdmv.tableSize bytes) (decide (HasZeroGrain bytes))

theorem parseVmdk4_eq_ok (h : parseVmdk4 (fileReader image) = .ok r) :
    Accepted image .kdmv r (kdmvVariant image.bytes) ∧
    Format.kdmv.directory image.bytes + Format.kdmv.directorySize image.bytes * 4
      ≤ image.bytes.length ∧ 0 < Format.kdmv.tableSize image.bytes := by
  simp only [parseVmdk4, bind_eq_ok, require_eq_ok, checked_eq_ok, readExactly_eq_ok,
    fileReader_readAt_eq_ok, pure, Except.pure, Except.ok.injEq] at h
  obtain ⟨_, ⟨-, rfl, -⟩, _, ⟨-, rfl⟩, -, hgrain, _, ⟨-, rfl⟩, -, htable, _, ⟨-, rfl⟩, _, ⟨-, rfl⟩,
    size, hsize, _, ⟨-, rfl⟩, rfl⟩ := h
  have hfield : ∀ k w, k + w ≤ 80 → leField (image.bytes.slice 0 80) k w
      = leField image.bytes k w := fun k w hk => by rw [leField_slice hk, Nat.zero_add]
  rw [hfield 12 8 (by omega), hfield 20 8 (by omega), hfield 44 4 (by omega),
    hfield 56 8 (by omega)] at hsize
  obtain ⟨rfl, hend⟩ := checkedTableSize_eq_ok hsize
  rw [hfield 20 8 (by omega)] at hgrain
  rw [hfield 44 4 (by omega)] at htable
  refine ⟨⟨rfl, ?_, ?_, ?_, ?_⟩, hend, Nat.pos_of_ne_zero htable⟩
  · exact congrArg (· * 512) (hfield 20 8 (by omega))
  · show 0 < leField _ 20 8 * 512
    rw [hfield 20 8 (by omega)]
    exact Nat.pos_of_ne_zero hgrain
  · exact congrArg (· * 512) (hfield 12 8 (by omega))
  · simp only [hfield 8 4 (by omega), hfield 44 4 (by omega), hfield 56 8 (by omega),
      decide_eq_true_eq]
    rfl

theorem parseSesparse_eq_ok (h : parseSesparse (fileReader image) = .ok r) :
    Accepted image .seSparse r (.seSparse
      (directoryTable image.bytes .seSparse 8 (Format.seSparse.directorySize image.bytes))
      (Format.seSparse.tableSize image.bytes)) ∧
    Format.seSparse.directory image.bytes + Format.seSparse.directorySize image.bytes * 8
      ≤ image.bytes.length ∧ 0 < Format.seSparse.tableSize image.bytes := by
  simp only [parseSesparse, bind_eq_ok, require_eq_ok, checked_eq_ok, readExactly_eq_ok,
    fileReader_readAt_eq_ok, pure, Except.pure, Except.ok.injEq] at h
  obtain ⟨_, ⟨-, rfl, -⟩, _, ⟨-, rfl⟩, -, hcoverage, size, hsize, _, ⟨-, rfl⟩, rfl⟩ := h
  have hfield : ∀ k w, k + w ≤ 64 → leField (image.bytes.slice 0 64) k w
      = leField image.bytes k w := fun k w hk => by rw [leField_slice hk, Nat.zero_add]
  rw [hfield 16 8 (by omega), hfield 24 8 (by omega), hfield 32 8 (by omega),
    hfield 40 8 (by omega)] at hsize
  obtain ⟨rfl, hend⟩ := checkedTableSize_eq_ok hsize
  rw [hfield 24 8 (by omega), hfield 32 8 (by omega)] at hcoverage
  refine ⟨⟨rfl, hfield 24 8 (by omega), ?_, hfield 16 8 (by omega), ?_⟩, hend,
    Nat.pos_of_mul_pos_right (Nat.pos_of_ne_zero hcoverage)⟩
  · show 0 < leField _ 24 8
    rw [hfield 24 8 (by omega)]
    exact Nat.pos_of_mul_pos_left (Nat.pos_of_ne_zero hcoverage)
  · simp only [hfield 32 8 (by omega), hfield 40 8 (by omega)]
    rfl

/-- The parser of a format. -/
def Format.parse : Format → Reader → Except IoError VmdkReader
  | .cowd => parseVmdk3
  | .kdmv => parseVmdk4
  | .seSparse => parseSesparse

/-- The magic selects the parser. -/
theorem parse_of_new {f : Format} (hmagic : f.Magic image.bytes)
    (h : new (fileReader image) = .ok r) : f.parse (fileReader image) = .ok r := by
  simp only [new, bind_eq_ok, require_eq_ok, fileReader_readAt_eq_ok] at h
  obtain ⟨_, ⟨-, rfl⟩, -, hlen, h⟩ := h
  have hfront : leField (image.bytes.slice 0 8 ++
      List.replicate (8 - (image.bytes.slice 0 8).length) 0) 0 4 = leField image.bytes 0 4 := by
    rw [leField, List.slice_append_left _ (by omega), slice_slice_of_le (by omega)]
    rfl
  cases f with
  | cowd => rwa [hfront, show leField image.bytes 0 4 = _ from hmagic, if_pos rfl] at h
  | kdmv =>
      rwa [hfront, show leField image.bytes 0 4 = _ from hmagic, if_neg (by decide), if_pos rfl] at h
  | seSparse =>
      rw [show image.bytes.slice 0 8 = _ from hmagic] at h
      rwa [if_neg (by decide), if_neg (by decide), if_pos (by decide)] at h

/-! ## Looking a grain up -/

variable {inflate : ReadExact} {i : Nat} {e : Extent}

theorem readGtEntry_eq {width off k : Nat} (hwidth : 0 < width)
    (hend : off + k * width + width ≤ image.bytes.length) :
    readGtEntry (fileReader image) width off k
      = .ok (leField image.bytes (off + k * width) width) := by
  have hsmall := image.small
  have hoff : wrap (off + k * width) = off + k * width :=
    Nat.mod_eq_of_lt (by simp only [FILE_OFFSET_LIMIT] at hsmall; omega)
  rw [readGtEntry, hoff, readExactly_slice _ hend hwidth, Except.ok_bind, leField_slice (by omega),
    Nat.add_zero]
  rfl

/-- An extent of the bytes of a grain. -/
def Extent.Is (inflate : ReadExact) (bytes : Bytes) (grainSize : Nat) (e : Extent) (g : Grain) :
    Prop :=
  e ≠ .absent ∧ ∀ k, e.byte bytes k = g.byte inflate bytes grainSize k

theorem extent_cowd (hr : parseVmdk3 (fileReader image) = .ok r)
    (h : r.extent inflate i = .ok e) :
    Extent.Is inflate image.bytes r.grainSize e (Format.cowd.grain image.bytes i) := by
  obtain ⟨haccepted, hend⟩ := parseVmdk3_eq_ok hr
  simp only [VmdkReader.extent, haccepted.variant, getElem?_directoryTable (by decide) hend] at h
  simp only [Format.grain]
  split at h
  · next hnone =>
      have hi : Format.cowd.tableSize image.bytes ≤ i := by
        by_contra hlt
        rw [if_pos (by omega)] at hnone
        cases hnone
      rw [if_pos (.inl hi), ← Except.ok.inj h]
      exact ⟨Extent.noConfusion, fun _ => rfl⟩
  · next sector hsome =>
      split_ifs at hsome with hi
      obtain rfl := Option.some.inj hsome
      split_ifs at h with hzero
      · rw [if_pos (.inr hzero), ← Except.ok.inj h]
        exact ⟨Extent.noConfusion, fun _ => rfl⟩
      · rw [if_neg (by omega), ← Except.ok.inj h]
        exact ⟨Extent.noConfusion, fun _ => rfl⟩

/-- The directory covers the disk. -/
theorem div_lt_directorySize {f : Format} {bytes : Bytes} {off : Nat}
    (hgrain : 0 < f.grainSize bytes) (htable : 0 < f.tableSize bytes)
    (hoff : off < f.virtualSize bytes) :
    off / f.grainSize bytes / f.tableSize bytes < f.directorySize bytes := by
  rw [Nat.div_div_eq_div_mul, Nat.mul_comm]
  exact div_lt_div_ceil (Nat.mul_pos htable hgrain) hoff

theorem getElem?_directory {bytes : Bytes} {f : Format} {width : Nat} (hwidth : 0 < width)
    (hend : f.directory bytes + f.directorySize bytes * width ≤ bytes.length)
    (hi : i / f.tableSize bytes < f.directorySize bytes) :
    (directoryTable bytes f width (f.directorySize bytes))[i / f.tableSize bytes]?
      = some (f.directoryEntry bytes width i) := by
  rw [getElem?_directoryTable hwidth hend, if_pos hi]
  rfl

theorem extent_seSparse (hr : parseSesparse (fileReader image) = .ok r)
    (hi : i / Format.seSparse.tableSize image.bytes < Format.seSparse.directorySize image.bytes)
    (hwithin : Format.seSparse.TableWithin image.bytes i) (h : r.extent inflate i = .ok e) :
    Extent.Is inflate image.bytes r.grainSize e (Format.seSparse.grain image.bytes i) := by
  obtain ⟨haccepted, hend, -⟩ := parseSesparse_eq_ok hr
  simp only [VmdkReader.extent, haccepted.variant, haccepted.parent,
    getElem?_directory (by decide) hend hi] at h
  split_ifs at h with hstate haddr
  · have hgrain : Format.seSparse.grain image.bytes i = .absent := if_pos (.inl hstate)
    rw [hgrain, ← Except.ok.inj h]
    exact ⟨Extent.noConfusion, fun _ => rfl⟩
  · have hgrain : Format.seSparse.grain image.bytes i = .absent := if_pos (.inr (.inl haddr))
    rw [hgrain, ← Except.ok.inj h]
    exact ⟨Extent.noConfusion, fun _ => rfl⟩
  · rw [readGtEntry_eq (by decide) (hwithin haddr), Except.ok_bind] at h
    split_ifs at h with hentry
    · have hgrain : Format.seSparse.grain image.bytes i = .absent := if_pos (.inr (.inr hentry))
      rw [hgrain, ← Except.ok.inj h]
      exact ⟨Extent.noConfusion, fun _ => rfl⟩
    · have hgrain : Format.seSparse.grain image.bytes i = .stored _ :=
        if_neg (not_or.mpr ⟨hstate, not_or.mpr ⟨haddr, hentry⟩⟩)
      rw [hgrain, ← Except.ok.inj h]
      exact ⟨Extent.noConfusion, fun _ => rfl⟩

theorem readCompressedGrain_eq_ok {grainSize sector : Nat} {grain : Bytes} (h : sector < 2 ^ 32) :
    readCompressedGrain inflate (fileReader image) grainSize sector = .ok grain ↔
      sector * 512 + 16 ≤ image.bytes.length ∧
      inflate (readBuffer image.bytes (sector * 512 + 16)
        (compressedSize image.bytes (sector * 512))) grainSize = .ok grain := by
  have hoff : sector * 512 + 16 < FILE_OFFSET_LIMIT := by
    simp only [FILE_OFFSET_LIMIT]
    omega
  have hbuffer : readPadded (fileReader image) (sector * 512 + 16)
      (compressedSize image.bytes (sector * 512))
        = .ok (readBuffer image.bytes (sector * 512 + 16)
          (compressedSize image.bytes (sector * 512))) := by
    rw [readPadded, fileReader_readAt_eq_ok.mpr ⟨hoff, rfl⟩]
    rfl
  have hsize : leField (image.bytes.slice (sector * 512) 16) 8 4
      = compressedSize image.bytes (sector * 512) := leField_slice (by decide)
  have hmarker : (image.bytes.slice (sector * 512) 16).length = 16 ↔
      sector * 512 + 16 ≤ image.bytes.length := List.length_slice_eq_iff (by decide)
  rw [readCompressedGrain, bind_eq_ok]
  constructor
  · rintro ⟨_, hread, hgrain⟩
    obtain ⟨-, rfl, hlen⟩ := readExactly_eq_ok.mp hread
    simp only [hsize, hbuffer, Except.ok_bind] at hgrain
    exact ⟨hmarker.mp hlen, hgrain⟩
  · rintro ⟨hend, hgrain⟩
    refine ⟨_, readExactly_eq_ok.mpr ⟨(Nat.le_add_right _ _).trans_lt hoff, rfl, hmarker.mpr hend⟩, ?_⟩
    simp only [hsize, hbuffer, Except.ok_bind]
    exact hgrain

section

variable (hr : parseVmdk4 (fileReader image) = .ok r)
  (hi : i / Format.kdmv.tableSize image.bytes < Format.kdmv.directorySize image.bytes)
  (hwithin : Format.kdmv.TableWithin image.bytes i)

include hr hi hwithin

/-- The sector of a grain of a plain KDMV image gives its extent. -/
theorem extent_kdmv (hplain : ¬ IsCompressed image.bytes) (h : r.extent inflate i = .ok e) :
    Extent.Is inflate image.bytes r.grainSize e (Format.kdmv.grain image.bytes i) := by
  obtain ⟨haccepted, hend, -⟩ := parseVmdk4_eq_ok hr
  have hentry : kdmvEntry image.bytes i = if Format.kdmv.directoryEntry image.bytes 4 i = 0 then 0
    else leField image.bytes _ 4 := rfl
  simp only [VmdkReader.extent, haccepted.variant, haccepted.parent, kdmvVariant, if_neg hplain,
    getElem?_directory (by decide) hend hi, decide_eq_true_eq] at h
  split_ifs at h hentry with htable
  · have hgrain : Format.kdmv.grain image.bytes i = .absent := if_pos (.inl hentry)
    rw [hgrain, ← Except.ok.inj h]
    exact ⟨Extent.noConfusion, fun _ => rfl⟩
  · rw [readGtEntry_eq (by decide) (hwithin htable), Except.ok_bind, ← hentry] at h
    split_ifs at h with hzero
    · have hgrain : Format.kdmv.grain image.bytes i = .absent := if_pos hzero
      rw [hgrain, ← Except.ok.inj h]
      exact ⟨Extent.noConfusion, fun _ => rfl⟩
    · have hgrain : Format.kdmv.grain image.bytes i = .stored _ :=
        (if_neg hzero).trans (if_neg hplain)
      rw [hgrain, ← Except.ok.inj h]
      exact ⟨Extent.noConfusion, fun _ => rfl⟩

/-- A compressed grain is read from behind a marker of 16 bytes. -/
theorem extent_kdmv_compressed (hcompressed : IsCompressed image.bytes) :
    r.extent inflate i = .ok e ↔
      (kdmvEntry image.bytes i = 0 ∧ .hole = e) ∨
      (kdmvEntry image.bytes i ≠ 0 ∧ ∃ grain, readCompressedGrain inflate (fileReader image)
        r.grainSize (kdmvEntry image.bytes i) = .ok grain ∧ .unpacked grain = e) := by
  obtain ⟨haccepted, hend, -⟩ := parseVmdk4_eq_ok hr
  have hentry : kdmvEntry image.bytes i = if Format.kdmv.directoryEntry image.bytes 4 i = 0 then 0
    else leField image.bytes _ 4 := rfl
  simp only [VmdkReader.extent, haccepted.variant, haccepted.parent, kdmvVariant, if_pos hcompressed,
    getElem?_directory (by decide) hend hi]
  split_ifs at hentry ⊢ with htable
  · simp [hentry]
  · rw [readGtEntry_eq (by decide) (hwithin htable), Except.ok_bind, ← hentry]
    split_ifs with hzero
    · simp [hzero, pure, Except.pure]
    · simp [hzero, bind_eq_ok, pure, Except.pure]

end

/-! ## Reading -/

theorem kdmvEntry_lt (bytes : Bytes) (i : Nat) : kdmvEntry bytes i < 2 ^ 32 := by
  have hlt : ∀ off, leField bytes off 4 < 2 ^ 32 := fun off => leField_lt bytes off 4
  unfold kdmvEntry
  simp only
  split_ifs
  · decide
  · exact hlt _

/-- A piece of the map of an accepted image. -/
theorem piece_eq_ok {f : Format} {variant : VmdkVariant} (h : Accepted image f r variant)
    {off : Nat} {p : Piece} : (r.map inflate).piece off = .ok p ↔
      ∃ e, r.extent inflate (off / f.grainSize image.bytes) = .ok e ∧
        (⟨off / f.grainSize image.bytes * f.grainSize image.bytes, f.grainSize image.bytes, e⟩ : Piece)
          = p := by
  show blockPiece r.grainSize (fun off => r.extent inflate (off / r.grainSize)) off = .ok p ↔ _
  rw [h.grainSize, blockPiece]
  cases r.extent inflate (off / f.grainSize image.bytes) <;> simp

/-- An image whose grains are looked up as the format has them is read as its disk. -/
theorem faithful_of_extent {f : Format} {variant : VmdkVariant} (hr : Accepted image f r variant)
    (h : SparseImage inflate image.bytes f D)
    (hextent : ∀ off < D.length, ∀ e, r.extent inflate (off / f.grainSize image.bytes) = .ok e →
      Extent.Is inflate image.bytes r.grainSize e
        (f.grain image.bytes (off / f.grainSize image.bytes))) :
    (r.map inflate).reader.Faithful D := by
  have hflat : Flat (r.map inflate).parent image.bytes := by
    show Flat r.parent _
    rw [hr.parent]
    exact flat_fileReader image
  refine DiskMap.faithful hflat (VmdkReader.coherent inflate r hr.grainSize_pos)
    (h.virtualSize.symm.trans hr.virtualSize.symm) (fun off hoff p hp => ?_)
  obtain ⟨e, he, rfl⟩ := (piece_eq_ok hr).mp hp
  obtain ⟨hne, hbyte⟩ := hextent off hoff e he
  refine ⟨hne, ?_⟩
  have hmod : off - off / f.grainSize image.bytes * f.grainSize image.bytes
      = off % f.grainSize image.bytes := by
    rw [Nat.mul_comm, Nat.mod_def]
  calc e.byte image.bytes (off - off / f.grainSize image.bytes * f.grainSize image.bytes)
      = e.byte image.bytes (off % f.grainSize image.bytes) := by rw [hmod]
    _ = (f.grain image.bytes (off / f.grainSize image.bytes)).byte inflate image.bytes
          (f.grainSize image.bytes) (off % f.grainSize image.bytes) := by
        rw [hbyte, hr.grainSize]
    _ = D[off]? := h.content off hoff

/-- The pieces of a compressed image. -/
theorem piece_compressed (hr : parseVmdk4 (fileReader image) = .ok r)
    (h : SparseImage inflate image.bytes .kdmv D) (hcompressed : IsCompressed image.bytes) {off : Nat}
    (hoff : off < D.length) :
    r.extent inflate (off / Format.kdmv.grainSize image.bytes) = .ok e ↔
      (kdmvEntry image.bytes (off / Format.kdmv.grainSize image.bytes) = 0 ∧ .hole = e) ∨
      ∃ marker grain, marker = kdmvEntry image.bytes (off / Format.kdmv.grainSize image.bytes) * 512 ∧
        marker ≠ 0 ∧ marker + 16 ≤ image.bytes.length ∧
        inflate (readBuffer image.bytes (marker + 16) (compressedSize image.bytes marker))
          (Format.kdmv.grainSize image.bytes) = .ok grain ∧ .unpacked grain = e := by
  obtain ⟨haccepted, -, htable⟩ := parseVmdk4_eq_ok hr
  have hi := div_lt_directorySize (haccepted.grainSize ▸ haccepted.grainSize_pos) htable
    (h.virtualSize ▸ hoff)
  rw [extent_kdmv_compressed hr hi (h.tables off hoff) hcompressed]
  simp only [readCompressedGrain_eq_ok (kdmvEntry_lt _ _), haccepted.grainSize]
  generalize kdmvEntry image.bytes (off / Format.kdmv.grainSize image.bytes) = sector
  refine or_congr_right ⟨?_, ?_⟩
  · rintro ⟨hne, grain, ⟨hend, hgrain⟩, he⟩
    exact ⟨_, grain, rfl, Nat.mul_ne_zero hne (by decide), hend, hgrain, he⟩
  · rintro ⟨_, grain, rfl, hne, hend, hgrain, he⟩
    exact ⟨fun hzero => hne (by rw [hzero, Nat.zero_mul]), grain, ⟨hend, hgrain⟩, he⟩

/-- A compressed image is read as its disk when what lies 4 bytes behind the start of the data is
read as the disk. -/
theorem compressed_faithful_iff (hinflate : ∀ s n d, inflate s n = .ok d → d.length = n)
    (hr : parseVmdk4 (fileReader image) = .ok r)
    (h : SparseImage inflate image.bytes .kdmv D) (hcompressed : IsCompressed image.bytes) :
    (r.map inflate).reader.Faithful D ↔ LateDataAgrees inflate image.bytes D := by
  have haccepted := (parseVmdk4_eq_ok hr).1
  have hpos : 0 < Format.kdmv.grainSize image.bytes := haccepted.grainSize ▸ haccepted.grainSize_pos
  have hlength : D.length = r.virtualSize := h.virtualSize.symm.trans haccepted.virtualSize.symm
  have hmod : ∀ off, off - off / Format.kdmv.grainSize image.bytes * Format.kdmv.grainSize image.bytes
      = off % Format.kdmv.grainSize image.bytes := fun off => by rw [Nat.mul_comm, Nat.mod_def]
  constructor
  · intro hfaithful off hoff marker grain hmarker hne hend hgrain
    have hextent := (piece_compressed hr h hcompressed hoff).mpr
      (.inr ⟨marker, grain, hmarker, hne, hend, hgrain, rfl⟩)
    have hlt := Nat.mod_lt off hpos
    have hbyte := hfaithful.byte_unpacked hlength hoff ((piece_eq_ok haccepted).mpr ⟨_, hextent, rfl⟩)
      (by rw [← Nat.sub_lt_iff_lt_add' (Nat.div_mul_le_self _ _), hmod]; exact hlt) rfl
      (by rw [hmod, hinflate _ _ _ hgrain]; exact hlt)
    rwa [hmod] at hbyte
  · intro hagrees
    have hflat : Flat (r.map inflate).parent image.bytes := by
      show Flat r.parent _
      rw [haccepted.parent]
      exact flat_fileReader image
    refine DiskMap.faithful hflat (VmdkReader.coherent inflate r haccepted.grainSize_pos) hlength
      (fun off hoff p hp => ?_)
    obtain ⟨e, he, rfl⟩ := (piece_eq_ok haccepted).mp hp
    rcases (piece_compressed hr h hcompressed hoff).mp he with
      ⟨hzero, rfl⟩ | ⟨marker, grain, hmarker, hne, hend, hgrain, rfl⟩
    · have hgrain : Format.kdmv.grain image.bytes (off / Format.kdmv.grainSize image.bytes)
          = .absent := if_pos (.inl hzero)
      have hcontent := h.content off hoff
      rw [hgrain] at hcontent
      exact ⟨Extent.noConfusion, hcontent⟩
    · refine ⟨Extent.noConfusion, ?_⟩
      show grain[off - off / Format.kdmv.grainSize image.bytes * Format.kdmv.grainSize image.bytes]?
        = D[off]?
      rw [hmod]
      exact hagrees off hoff marker grain hmarker hne hend hgrain

/-- **Sparse VMDK images**: what an accepted image is read as is its disk in every format, except
that the data of a compressed grain is read from 4 bytes behind its start. -/
theorem sparse_faithful_iff (image : Image) (f : Format) (inflate : ReadExact) (D : Bytes)
    (r : VmdkReader) (hinflate : ∀ s n d, inflate s n = .ok d → d.length = n)
    (h : SparseImage inflate image.bytes f D) (hr : new (fileReader image) = .ok r) :
    (r.map inflate).reader.Faithful D ↔
      (f = .kdmv → IsCompressed image.bytes → LateDataAgrees inflate image.bytes D) := by
  have hparse := parse_of_new h.magic hr
  cases f with
  | cowd =>
      refine iff_of_true ?_ (by rintro ⟨⟩)
      exact faithful_of_extent (parseVmdk3_eq_ok hparse).1 h
        (fun off hoff e he => extent_cowd hparse he)
  | kdmv =>
      by_cases hcompressed : IsCompressed image.bytes
      · rw [compressed_faithful_iff hinflate hparse h hcompressed]
        exact ⟨fun hagrees _ _ => hagrees, fun hagrees => hagrees rfl hcompressed⟩
      · refine iff_of_true ?_ (fun _ hc => absurd hc hcompressed)
        obtain ⟨haccepted, -, htable⟩ := parseVmdk4_eq_ok hparse
        refine faithful_of_extent haccepted h (fun off hoff e he => ?_)
        have hi := div_lt_directorySize (haccepted.grainSize ▸ haccepted.grainSize_pos) htable
          (h.virtualSize ▸ hoff)
        exact extent_kdmv hparse hi (h.tables off hoff) hcompressed he
  | seSparse =>
      refine iff_of_true ?_ (by rintro ⟨⟩)
      obtain ⟨haccepted, -, htable⟩ := parseSesparse_eq_ok hparse
      refine faithful_of_extent haccepted h (fun off hoff e he => ?_)
      have hi := div_lt_directorySize (haccepted.grainSize ▸ haccepted.grainSize_pos) htable
        (h.virtualSize ▸ hoff)
      exact extent_seSparse hparse hi (h.tables off hoff) he

/-! ## Two disks of three sectors -/

/-- Inflating a stream of one stored block. -/
def inflateStored (s : Bytes) (n : Nat) : Except IoError Bytes :=
  let data := s.slice 5 (leField s 1 2)
  if leField s 0 1 % 8 = 1 ∧ leField s 1 2 + leField s 3 2 = 65535 ∧ n ≤ data.length then
    .ok (data.take n)
  else .error (.unexpectedEof "failed to fill whole buffer")

theorem length_inflateStored (s : Bytes) (n : Nat) (d : Bytes) (h : inflateStored s n = .ok d) :
    d.length = n := by
  simp only [inflateStored] at h
  split_ifs at h with hstored
  rw [← Except.ok.inj h, List.length_take]
  exact Nat.min_eq_left hstored.2.2

/-- A disk of one grain that starts with so many bytes. -/
def startDisk (start : Bytes) : Bytes := start ++ List.replicate (1536 - start.length) 0

/-- A KDMV image of one grain of three sectors: its flags, and what is in sector 3. -/
def grainBytes (flags grain : Bytes) : Bytes :=
  [0x4b, 0x44, 0x4d, 0x56] ++ [1, 0, 0, 0] ++ flags ++ [3, 0, 0, 0, 0, 0, 0, 0]
    ++ [3, 0, 0, 0, 0, 0, 0, 0] ++ List.replicate 16 0 ++ [0, 2, 0, 0] ++ List.replicate 8 0
    ++ [1, 0, 0, 0, 0, 0, 0, 0] ++ List.replicate 448 0
    ++ [2, 0, 0, 0] ++ List.replicate 508 0 ++ [3, 0, 0, 0] ++ List.replicate 508 0 ++ grain

/-- The marker and the stream of a grain: one stored block. -/
def markedGrain (start : Bytes) : Bytes :=
  List.replicate 8 0 ++ [0x05, 0x06, 0, 0] ++ [0x01, 0x00, 0x06, 0xff, 0xf9] ++ startDisk start

/-- A grain whose first bytes are the length of a stored block. -/
def lateStart : Bytes := [0x00, 0x06, 0xff, 0xf9]

/-- An image of one grain. -/
theorem sparseImage_of_grain {inflate : ReadExact} {bytes : Bytes}
    (hmagic : Format.kdmv.Magic bytes) (hvirtual : Format.kdmv.virtualSize bytes = D.length)
    (hsize : Format.kdmv.grainSize bytes = D.length) (htable : Format.kdmv.TableWithin bytes 0)
    (hgrain : ∀ k < D.length, (Format.kdmv.grain bytes 0).byte inflate bytes D.length k = D[k]?) :
    SparseImage inflate bytes .kdmv D where
  magic := hmagic
  virtualSize := hvirtual
  tables off hoff := by
    rw [hsize, Nat.div_eq_of_lt hoff]
    exact htable
  content off hoff := by
    rw [hsize, Nat.div_eq_of_lt hoff, Nat.mod_eq_of_lt hoff]
    exact hgrain off hoff

/-- A stream-optimized image. -/
def lateImage : Image :=
  ⟨grainBytes [0, 0, 1, 0] (markedGrain lateStart), by decide +kernel⟩

theorem sparseImage_late : SparseImage inflateStored lateImage.bytes .kdmv (startDisk lateStart) := by
  have hlen : (startDisk lateStart).length = 1536 := by decide +kernel
  have hgrain : Format.kdmv.grain lateImage.bytes 0 = .compressed 1536 := by decide +kernel
  have hinflate : inflateStored (lateImage.bytes.slice 1548 (compressedSize lateImage.bytes 1536)) 1536
      = .ok (startDisk lateStart) := by decide +kernel
  apply sparseImage_of_grain
  · show leField lateImage.bytes 0 4 = VMDK4_MAGIC
    decide +kernel
  · decide +kernel
  · decide +kernel
  · show Format.kdmv.directoryEntry lateImage.bytes 4 0 ≠ 0 → _
    exact fun _ => by decide +kernel
  · intro k _
    rw [hlen, hgrain]
    simp only [Grain.byte, hinflate]

/-- The data of the grain, read from 4 bytes too far on, inflates to zeros. -/
theorem late_data_not_read :
    ¬ ∀ (image : Image) (f : Format) (inflate : ReadExact) (D : Bytes) (r : VmdkReader),
      (∀ s n d, inflate s n = .ok d → d.length = n) → SparseImage inflate image.bytes f D →
        new (fileReader image) = .ok r → (r.map inflate).reader.Faithful D := by
  intro h
  have haccepted : (new (fileReader lateImage)).isOk = true := by decide +kernel
  cases hr : new (fileReader lateImage) with
  | error e =>
      rw [hr] at haccepted
      cases haccepted
  | ok r =>
      have hparse := parse_of_new sparseImage_late.magic hr
      have hagrees := (compressed_faithful_iff length_inflateStored hparse sparseImage_late
        (by decide +kernel)).mp (h _ _ _ _ r length_inflateStored sparseImage_late hr)
      have hbyte := hagrees 1 (by decide +kernel) 1536 (List.replicate 1536 0) (by decide +kernel)
        (by decide) (by decide +kernel) (by decide +kernel)
      exact absurd hbyte (by decide +kernel)

/-- An image with the same grain, not compressed. -/
def plainImage : Image := ⟨grainBytes [0, 0, 0, 0] (startDisk lateStart), by decide +kernel⟩

theorem sparseImage_plain : SparseImage inflateStored plainImage.bytes .kdmv (startDisk lateStart) := by
  have hgrain : Format.kdmv.grain plainImage.bytes 0 = .stored 1536 := by decide +kernel
  apply sparseImage_of_grain
  · show leField plainImage.bytes 0 4 = VMDK4_MAGIC
    decide +kernel
  · decide +kernel
  · decide +kernel
  · show Format.kdmv.directoryEntry plainImage.bytes 4 0 ≠ 0 → _
    exact fun _ => by decide +kernel
  · intro k _
    have hdrop : plainImage.bytes.drop 1536 = startDisk lateStart := by decide +kernel
    rw [hgrain, ← hdrop, List.getElem?_drop]
    rfl

/-- It is accepted and read as its disk. -/
theorem plain_grain_read : ∃ r, new (fileReader plainImage) = .ok r ∧
    (r.map inflateStored).reader.Faithful (startDisk lateStart) := by
  have haccepted : (new (fileReader plainImage)).isOk = true := by decide +kernel
  cases hr : new (fileReader plainImage) with
  | error e =>
      rw [hr] at haccepted
      cases haccepted
  | ok r =>
      refine ⟨r, rfl, (sparse_faithful_iff plainImage .kdmv inflateStored (startDisk lateStart) r
        length_inflateStored sparseImage_plain hr).mpr (fun _ hcompressed => ?_)⟩
      exact absurd hcompressed (by decide +kernel)

end Mountin.Vmdk
