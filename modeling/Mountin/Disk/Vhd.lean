import Mountin.Disk.BlockMap
import Mountin.Disk.Exposes

set_option autoImplicit false

/-! # VHD images

What `VhdReader` exposes of a fixed and of a dynamic image. `VhdReader::new` reads the footer at
offset 0, where a dynamic image has its copy and a fixed image has the first sector of the disk.

* `fixed_exposed_iff` : a fixed image is exposed as its disk when the disk passes for an image.
-/

namespace Mountin.Vhd

/-- The image is accepted, as an image of the disk `D`. -/
def Exposed (image : Image) (D : Bytes) : Prop :=
  ∃ r, new (fileReader image) = .ok r ∧ r.map.reader.Exposes D

/-- A footer of a fixed image of so many bytes. -/
structure FixedFooter (footer : Bytes) (size : Nat) : Prop where
  length : footer.length = 512
  cookie : footer.slice 0 8 = VHD_MAGIC
  currentSize : beField footer 0x30 8 = size
  diskType : beField footer 0x3c 4 = VHD_FIXED

/-! ## Dynamic images -/

section

variable (bytes : Bytes)

/-- The position of the dynamic header. -/
def dataOffset : Nat := beField bytes 0x10 8

def tableOffset : Nat := beField bytes (dataOffset bytes + 0x10) 8

def maxTableEntries : Nat := beField bytes (dataOffset bytes + 0x1c) 4

def blockSize : Nat := beField bytes (dataOffset bytes + 0x20) 4

/-- An entry of the block allocation table. -/
def tableEntry (k : Nat) : Nat := beField bytes (tableOffset bytes + k * 4) 4

/-- The bytes of the sector bitmap that comes before the data of a block: a bit a sector, in
whole sectors. -/
def bitmapBytes (blockSize : Nat) : Nat := ((blockSize / 512 + 7) / 8 + 511) / 512 * 512

/-- The byte that the block allocation table gives for an offset of the disk. -/
def tableByte (off : Nat) : Option UInt8 :=
  let k := off / blockSize bytes
  if k < maxTableEntries bytes ∧ tableEntry bytes k ≠ VHD_UNALLOCATED then
    bytes[tableEntry bytes k * 512 + bitmapBytes (blockSize bytes) + off % blockSize bytes]?
  else some 0

/-- A dynamic image of the disk `D`: the copy of the footer, the dynamic header, the block
allocation table, and the blocks that it lists. -/
structure DynamicImage (D : Bytes) : Prop where
  footer : 512 ≤ bytes.length
  cookie : bytes.slice 0 8 = VHD_MAGIC
  currentSize : beField bytes 0x30 8 = D.length
  diskType : beField bytes 0x3c 4 = VHD_DYNAMIC ∨ beField bytes 0x3c 4 = VHD_DIFFERENCING
  header : dataOffset bytes + 1024 ≤ bytes.length
  headerCookie : bytes.slice (dataOffset bytes) 8 = VHD_DYNAMIC_MAGIC
  blockSize_ne : blockSize bytes ≠ 0
  -- an empty table can be at any file offset
  table : tableOffset bytes + maxTableEntries bytes * 4 ≤ bytes.length ∨
    maxTableEntries bytes = 0 ∧ tableOffset bytes < FILE_OFFSET_LIMIT
  content : ∀ off < D.length, tableByte bytes off = D[off]?

end

/-! ## Opening -/

theorem new_eq_ok_iff {image : Image} {r : VhdReader} :
    new (fileReader image) = .ok r ↔
      512 ≤ image.bytes.length ∧ image.bytes.slice 0 8 = VHD_MAGIC ∧ r.parent = fileReader image ∧
        r.virtualSize = beField image.bytes 0x30 8 ∧
        readVariant (fileReader image) (dataOffset image.bytes) (beField image.bytes 0x3c 4)
          = .ok r.variant := by
  have hfield : ∀ k w, k + w ≤ 512 →
      beField (image.bytes.slice 0 512) k w = beField image.bytes k w := fun k w h => by
    rw [beField_slice h, Nat.zero_add]
  simp only [new, bind_eq_ok, require_eq_ok, readExactly_eq_ok, pure, Except.pure, Except.ok.injEq]
  constructor
  · rintro ⟨footer, ⟨-, rfl, hlen⟩, -, hcookie, variant, hvariant, rfl⟩
    rw [slice_slice_of_le (by omega)] at hcookie
    rw [hfield _ _ (by omega), hfield _ _ (by omega)] at hvariant
    exact ⟨by rw [List.length_slice_eq_iff (by omega)] at hlen; omega, hcookie, rfl,
      hfield _ _ (by omega), hvariant⟩
  · rintro ⟨hlen, hcookie, hparent, hsize, hvariant⟩
    refine ⟨_, ⟨by decide, rfl, (List.length_slice_eq_iff (by omega)).mpr (by omega)⟩, (), ?_,
      r.variant, ?_, ?_⟩
    · rw [slice_slice_of_le (by omega)]
      exact hcookie
    · rw [hfield _ _ (by omega), hfield _ _ (by omega)]
      exact hvariant
    · rw [hfield _ _ (by omega), ← hsize, ← hparent]

theorem readDynamic_eq_ok_iff {image : Image} {variant : VhdVariant} :
    readDynamic (fileReader image) (dataOffset image.bytes) = .ok variant ↔
      dataOffset image.bytes + 1024 ≤ image.bytes.length ∧
        image.bytes.slice (dataOffset image.bytes) 8 = VHD_DYNAMIC_MAGIC ∧
        blockSize image.bytes ≠ 0 ∧ tableOffset image.bytes < FILE_OFFSET_LIMIT ∧
        (image.bytes.slice (tableOffset image.bytes) (maxTableEntries image.bytes * 4)).length
          = maxTableEntries image.bytes * 4 ∧
        variant = .dynamic (tableOf beField 4
            (image.bytes.slice (tableOffset image.bytes) (maxTableEntries image.bytes * 4)))
          (blockSize image.bytes) (bitmapBytes (blockSize image.bytes)) := by
  have hsmall := image.small
  have hfield : ∀ k w, k + w ≤ 1024 → beField (image.bytes.slice (dataOffset image.bytes) 1024) k w
      = beField image.bytes (dataOffset image.bytes + k) w := fun k w h => beField_slice h
  simp only [readDynamic, bind_eq_ok, require_eq_ok, readExactly_eq_ok, pure, Except.pure,
    Except.ok.injEq]
  constructor
  · rintro ⟨header, ⟨-, rfl, hlen⟩, -, hcookie, -, hblock, table, ⟨hoff, rfl, htable⟩, rfl⟩
    rw [slice_slice_of_le (by omega)] at hcookie
    simp only [hfield _ _ (by omega : 0x10 + 8 ≤ 1024), hfield _ _ (by omega : 0x1c + 4 ≤ 1024),
      hfield _ _ (by omega : 0x20 + 4 ≤ 1024)] at hblock hoff htable ⊢
    exact ⟨(List.length_slice_eq_iff (by omega)).mp hlen, hcookie, hblock, hoff, htable, rfl⟩
  · rintro ⟨hlen, hcookie, hblock, hoff, htable, rfl⟩
    refine ⟨_, ⟨by omega, rfl, (List.length_slice_eq_iff (by omega)).mpr hlen⟩, (), ?_, (), ?_,
      _, ⟨?_, rfl, ?_⟩, ?_⟩
    · rw [slice_slice_of_le (by omega)]
      exact hcookie
    all_goals simp only [hfield _ _ (by omega : 0x10 + 8 ≤ 1024),
      hfield _ _ (by omega : 0x1c + 4 ≤ 1024), hfield _ _ (by omega : 0x20 + 4 ≤ 1024)]
    · exact hblock
    · exact hoff
    · exact htable
    · rfl

/-! ## Reading -/

/-- The byte that the map of a dynamic image gives. -/
theorem byte_extent {bytes : Bytes} (htable :
      (bytes.slice (tableOffset bytes) (maxTableEntries bytes * 4)).length
        = maxTableEntries bytes * 4) (off : Nat) :
    (extent (tableOf beField 4 (bytes.slice (tableOffset bytes) (maxTableEntries bytes * 4)))
      (bitmapBytes (blockSize bytes)) (off / blockSize bytes)).byte bytes (off % blockSize bytes)
      = tableByte bytes off := by
  have hcount : (bytes.slice (tableOffset bytes) (maxTableEntries bytes * 4)).length / 4
      = maxTableEntries bytes := by
    rw [htable]
    omega
  unfold extent tableByte
  by_cases hk : off / blockSize bytes < maxTableEntries bytes
  · rw [getElem?_tableOf (by rwa [hcount]), beField_slice (by omega)]
    by_cases hentry : tableEntry bytes (off / blockSize bytes) = VHD_UNALLOCATED
    · have hentry' := hentry
      unfold tableEntry at hentry'
      simp [hentry, hentry', Extent.byte]
    · have hentry' := hentry
      unfold tableEntry at hentry'
      simp only [if_neg hentry', if_pos (And.intro hk hentry), Extent.byte]
      rfl
  · rw [getElem?_tableOf_eq_none (by omega)]
    simp [hk, Extent.byte]

variable {image : Image} {r : VhdReader} {D : Bytes}

theorem extent_ne_absent (bat : List Nat) (bitmapSize blockIdx : Nat) :
    extent bat bitmapSize blockIdx ≠ .absent := by
  unfold extent
  split
  · exact fun h => by cases h
  · split_ifs <;> exact fun h => by cases h

/-- The places that an entry of 32 bits can stand for are `u64` offsets. -/
theorem extent_stored {bytes : Bytes} {k physical i : Nat} (hi : i < blockSize bytes)
    (h : extent (tableOf beField 4 (bytes.slice (tableOffset bytes) (maxTableEntries bytes * 4)))
      (bitmapBytes (blockSize bytes)) k = .stored physical) : physical + i < 2 ^ 64 := by
  have hblock : blockSize bytes < 256 ^ 4 := beField_lt ..
  have hbitmap : bitmapBytes (blockSize bytes) ≤ blockSize bytes + 512 := by
    unfold bitmapBytes
    omega
  unfold extent at h
  split at h
  · cases h
  next entry hentry =>
    split_ifs at h
    cases h
    obtain ⟨j, -, hj⟩ := List.mem_map.mp (List.mem_of_getElem? hentry)
    have hlt : entry < 256 ^ 4 := hj ▸ beField_lt ..
    omega

theorem denotes_fixed (h : r.variant = .fixed) (P : Bytes) :
    r.map.Denotes P D ↔ D.length = r.virtualSize ∧ ∀ off < D.length, P[off]? = D[off]? := by
  constructor
  · intro hD
    refine ⟨hD.length, fun off hoff => ?_⟩
    obtain ⟨p, hp, hbyte⟩ := hD.byte off hoff
    simp only [VhdReader.map, h, Except.ok.injEq] at hp
    subst hp
    simpa [Extent.byte] using hbyte
  · rintro ⟨hlen, hbytes⟩
    refine ⟨hlen, fun off hoff => ⟨⟨0, r.virtualSize, .stored 0⟩, ?_, ?_⟩⟩
    · simp only [VhdReader.map, h]
    · simpa [Extent.byte] using hbytes off hoff

theorem denotes_dynamic {bat : List Nat} {blockSize bitmapSize : Nat}
    (h : r.variant = .dynamic bat blockSize bitmapSize) (P : Bytes) :
    r.map.Denotes P D ↔ D.length = r.virtualSize ∧ ∀ off < D.length,
      (extent bat bitmapSize (off / blockSize)).byte P (off % blockSize) = D[off]? := by
  have hpiece : ∀ off, r.map.piece off = .ok ⟨off / blockSize * blockSize, blockSize,
      extent bat bitmapSize (off / blockSize)⟩ := fun off => by
    simp only [VhdReader.map, h, blockPiece]
  constructor
  · intro hD
    refine ⟨hD.length, fun off hoff => ?_⟩
    obtain ⟨p, hp, hbyte⟩ := hD.byte off hoff
    rw [hpiece, Except.ok.injEq] at hp
    subst hp
    rwa [← Nat.mod_eq_sub_div_mul] at hbyte
  · rintro ⟨hlen, hbytes⟩
    refine ⟨hlen, fun off hoff => ⟨_, hpiece off, ?_⟩⟩
    rw [← Nat.mod_eq_sub_div_mul]
    exact hbytes off hoff

/-- What an accepted image exposes is what its map describes. -/
theorem exposes_iff_denotes (h : new (fileReader image) = .ok r) :
    r.map.reader.Exposes D ↔ r.map.Denotes image.bytes D := by
  obtain ⟨-, -, hparent, hsize, hvariant⟩ := new_eq_ok_iff.mp h
  have hlimit : r.virtualSize < 256 ^ 8 := hsize ▸ beField_lt ..
  unfold readVariant at hvariant
  split_ifs at hvariant with hfixed hdynamic
  · have hkind : r.variant = .fixed := (Except.ok.inj hvariant).symm
    refine DiskMap.exposes_iff hparent (r.coherent (new_spec h).2) ?_ ?_
    all_goals
      intro off p
      simp only [VhdReader.map, hkind, Except.ok.injEq]
    · rintro - rfl he
      cases he
    · rintro physical hoff rfl he
      cases he
      omega
  · obtain ⟨-, -, hblock, -, -, hkind⟩ := readDynamic_eq_ok_iff.mp hvariant
    refine DiskMap.exposes_iff hparent (r.coherent (new_spec h).2) ?_ ?_
    all_goals
      intro off p
      simp only [VhdReader.map, hkind, blockPiece, Except.ok.injEq]
    · rintro - rfl
      exact extent_ne_absent _ _ _
    · rintro physical - rfl he
      refine extent_stored ?_ he
      have hmod := Nat.mod_lt off (Nat.pos_of_ne_zero hblock)
      rwa [Nat.mul_comm, ← Nat.mod_def]

theorem take_eq_slice (b : Bytes) (n : Nat) : b.take n = b.slice 0 n := rfl

/-- The fields of a footer at offset 0. -/
theorem fixedFooter_take_iff {bytes : Bytes} {size : Nat} :
    FixedFooter (bytes.take 512) size ↔ 512 ≤ bytes.length ∧ bytes.slice 0 8 = VHD_MAGIC ∧
      beField bytes 0x30 8 = size ∧ beField bytes 0x3c 4 = VHD_FIXED := by
  have hfield : ∀ k w, k + w ≤ 512 → beField (bytes.take 512) k w = beField bytes k w :=
    fun k w h => by rw [take_eq_slice, beField_slice h, Nat.zero_add]
  have hcookie : (bytes.take 512).slice 0 8 = bytes.slice 0 8 := by
    rw [take_eq_slice, slice_slice_of_le (by omega)]
  constructor
  · rintro ⟨hlen, hmagic, hsize, htype⟩
    rw [hfield _ _ (by omega)] at hsize htype
    exact ⟨by rw [List.length_take] at hlen; omega, hcookie ▸ hmagic, hsize, htype⟩
  · rintro ⟨hlen, hmagic, hsize, htype⟩
    exact ⟨by rw [List.length_take]; omega, hcookie.trans hmagic,
      (hfield _ _ (by omega)).trans hsize, (hfield _ _ (by omega)).trans htype⟩

theorem table_iff {bytes : Bytes} (hsmall : bytes.length < FILE_OFFSET_LIMIT) :
    (tableOffset bytes + maxTableEntries bytes * 4 ≤ bytes.length ∨
        maxTableEntries bytes = 0 ∧ tableOffset bytes < FILE_OFFSET_LIMIT) ↔
      tableOffset bytes < FILE_OFFSET_LIMIT ∧
        (bytes.slice (tableOffset bytes) (maxTableEntries bytes * 4)).length
          = maxTableEntries bytes * 4 := by
  rw [List.length_slice]
  omega

/-- An image is exposed as `D` exactly when it is a fixed image that starts with its footer, or a
dynamic image. -/
theorem exposed_iff :
    Exposed image D ↔ (FixedFooter (image.bytes.take 512) D.length ∧ D <+: image.bytes) ∨
      DynamicImage image.bytes D := by
  rw [fixedFooter_take_iff, List.prefix_iff_getElem?]
  constructor
  · rintro ⟨r, hr, hexposes⟩
    rw [exposes_iff_denotes hr] at hexposes
    obtain ⟨hlen, hcookie, -, hsize, hvariant⟩ := new_eq_ok_iff.mp hr
    unfold readVariant at hvariant
    split_ifs at hvariant with hfixed hdynamic
    · obtain ⟨hD, hbytes⟩ := (denotes_fixed (Except.ok.inj hvariant).symm _).mp hexposes
      exact .inl ⟨⟨hlen, hcookie, by rw [hD, hsize], hfixed⟩, fun off hoff => by
        rw [hbytes off hoff, List.getElem?_eq_getElem hoff]⟩
    · obtain ⟨hheader, hmagic, hblock, hoff, htable, hkind⟩ := readDynamic_eq_ok_iff.mp hvariant
      obtain ⟨hD, hbytes⟩ := (denotes_dynamic hkind _).mp hexposes
      exact .inr ⟨hlen, hcookie, by rw [hD, hsize], hdynamic, hheader, hmagic, hblock,
        (table_iff image.small).mpr ⟨hoff, htable⟩, fun off h => by
          rw [← byte_extent htable, hbytes off h]⟩
  · rintro (⟨⟨hlen, hcookie, hsize, hfixed⟩, hfront⟩ | h)
    · refine ⟨⟨fileReader image, .fixed, D.length⟩, new_eq_ok_iff.mpr ⟨hlen, hcookie, rfl, hsize.symm,
        ?_⟩, ?_⟩
      · rw [readVariant, if_pos hfixed]
      · rw [exposes_iff_denotes (new_eq_ok_iff.mpr ⟨hlen, hcookie, rfl, hsize.symm, by
          rw [readVariant, if_pos hfixed]⟩), denotes_fixed rfl]
        exact ⟨rfl, fun off hoff => by rw [hfront off hoff, List.getElem?_eq_getElem hoff]⟩
    · obtain ⟨hoff, htable⟩ := (table_iff image.small).mp h.table
      have hvariant := readDynamic_eq_ok_iff.mpr
        ⟨h.header, h.headerCookie, h.blockSize_ne, hoff, htable, rfl⟩
      have hfixed : beField image.bytes 0x3c 4 ≠ VHD_FIXED := by
        rcases h.diskType with h' | h' <;> rw [h'] <;> decide
      have hnew : new (fileReader image) = .ok ⟨fileReader image, _, D.length⟩ :=
        new_eq_ok_iff.mpr ⟨h.footer, h.cookie, rfl, h.currentSize.symm, by
          rw [readVariant, if_neg hfixed, if_pos h.diskType, hvariant]⟩
      refine ⟨_, hnew, ?_⟩
      rw [exposes_iff_denotes hnew, denotes_dynamic rfl]
      exact ⟨rfl, fun off hlt => by rw [byte_extent htable, h.content off hlt]⟩

/-- **VHD images**: the image of a fixed disk `D`, which is `D` and then the footer, is exposed as
`D` exactly when `D` has no first sector or one that announces `D` as a footer would; a dynamic
image is exposed as its disk. -/
theorem fixed_exposed_iff (image : Image) (D footer : Bytes) :
    (image.bytes = D ++ footer → D.length % 512 = 0 → FixedFooter footer D.length →
      (Exposed image D ↔
        D = [] ∨ FixedFooter (D.take 512) D.length ∨ DynamicImage image.bytes D)) ∧
    (DynamicImage image.bytes D → Exposed image D) := by
  refine ⟨fun hbytes hsector hfooter => ?_, fun h => exposed_iff.mpr (.inr h)⟩
  rw [exposed_iff, ← or_assoc]
  refine or_congr_left ?_
  have hfront : D <+: image.bytes := hbytes ▸ List.prefix_append D footer
  rcases Nat.eq_zero_or_pos D.length with hzero | hpos
  · obtain rfl := List.eq_nil_of_length_eq_zero hzero
    have htake : image.bytes.take 512 = footer := by
      rw [hbytes, List.nil_append, List.take_of_length_le hfooter.length.le]
    rw [htake]
    exact iff_of_true ⟨hfooter, hfront⟩ (.inl rfl)
  · have htake : image.bytes.take 512 = D.take 512 := by
      rw [hbytes, List.take_append_of_le_length (by omega)]
    have hne : D ≠ [] := List.ne_nil_of_length_pos hpos
    rw [htake]
    exact ⟨fun h => .inr h.1, fun h => ⟨h.resolve_left hne, hfront⟩⟩

/-! ## Two disks of one sector -/

/-- The footer of a fixed image of a disk of one sector. -/
def sectorFooter : Bytes :=
  VHD_MAGIC ++ List.replicate 40 0 ++ [0, 0, 0, 0, 0, 0, 2, 0] ++ List.replicate 4 0 ++ [0, 0, 0, 2]
    ++ [0xff, 0xff, 0xfc, 0x9e] ++ List.replicate 444 0

theorem fixedFooter_sectorFooter : FixedFooter sectorFooter 512 :=
  ⟨by decide +kernel, by decide +kernel, by decide +kernel, by decide +kernel⟩

/-- The fixed image of a disk of one sector of zeros. -/
def zeroImage : Image := ⟨List.replicate 512 0 ++ sectorFooter, by decide +kernel⟩

/-- A disk of zeros is not accepted: its first sector is not a footer. -/
theorem zero_disk_rejected :
    ¬ ∀ (image : Image) (D footer : Bytes), image.bytes = D ++ footer → D.length % 512 = 0 →
      FixedFooter footer D.length → Exposed image D := by
  intro h
  obtain ⟨r, hr, -⟩ := h zeroImage (List.replicate 512 0) sectorFooter rfl (by decide +kernel)
    (by rw [List.length_replicate]; exact fixedFooter_sectorFooter)
  exact absurd (new_eq_ok_iff.mp hr).2.1 (by decide +kernel)

/-- The fixed image of a disk that is a footer. -/
def footerImage : Image := ⟨sectorFooter ++ sectorFooter, by decide +kernel⟩

/-- A disk that is a footer of its own size is exposed. -/
theorem footer_disk_exposed : Exposed footerImage sectorFooter := by
  have hlen : sectorFooter.length = 512 := fixedFooter_sectorFooter.length
  have hfooter : FixedFooter sectorFooter sectorFooter.length := hlen ▸ fixedFooter_sectorFooter
  refine ((fixed_exposed_iff footerImage sectorFooter sectorFooter).1 rfl (by decide +kernel)
    hfooter).mpr (.inr (.inl ?_))
  rwa [List.take_of_length_le hlen.le]

end Mountin.Vhd
