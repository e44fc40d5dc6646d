import Mountin.Basic.Raising
import Mountin.Basic.Splice
import Mountin.Disk.BlockMap
import Mountin.Disk.Exposes

set_option autoImplicit false

/-! # VHDX images

The block allocation table of a VHDX image has an entry for a sector bitmap after the entries of
every `chunkRatio` blocks. `VhdxReader::read_at` takes the number of a block for its index.

* `new_of_layout` : an image laid out as the format says is accepted, with its table.
* `layout_exposed_iff` : it is exposed as its disk when the two indices of each block agree.
-/

namespace Mountin.Vhdx

/-! ## The layout -/

/-- Where an image has its tables, and its sizes. -/
structure Geometry where
  batOffset : Nat
  batLength : Nat
  metadataOffset : Nat
  blockSize : Nat
  logicalSectorSize : Nat

/-- The number of blocks whose bits fill a block of a sector bitmap. -/
def Geometry.chunkRatio (g : Geometry) : Nat := 2 ^ 23 * g.logicalSectorSize / g.blockSize

/-- The index of the entry of a block. -/
def Geometry.index (g : Geometry) (k : Nat) : Nat := k + k / g.chunkRatio

section

variable (bytes : Bytes)

/-- The position of an entry of the region table. -/
def regionEntry (i : Nat) : Nat := 0x30010 + i * 32

/-- The region table has one BAT region and one metadata region. -/
structure RegionTable (g : Geometry) : Prop where
  signature : leField bytes 0x30000 4 = VHDX_REGION_SIGNATURE
  count : leField bytes 0x30008 4 ≤ 2047
  entries : regionEntry (leField bytes 0x30008 4) ≤ bytes.length
  exists_bat : ∃ i < leField bytes 0x30008 4, bytes.slice (regionEntry i) 16 = BAT_GUID
  bat : ∀ i < leField bytes 0x30008 4, bytes.slice (regionEntry i) 16 = BAT_GUID →
    leField bytes (regionEntry i + 16) 8 = g.batOffset ∧
      leField bytes (regionEntry i + 24) 4 = g.batLength
  exists_metadata : ∃ i < leField bytes 0x30008 4,
    bytes.slice (regionEntry i) 16 = METADATA_GUID
  metadata : ∀ i < leField bytes 0x30008 4, bytes.slice (regionEntry i) 16 = METADATA_GUID →
    leField bytes (regionEntry i + 16) 8 = g.metadataOffset
  batOffset_ne : g.batOffset ≠ 0
  metadataOffset_ne : g.metadataOffset ≠ 0

/-- The number of metadata items. -/
def itemCount (metadataOffset : Nat) : Nat := leField bytes (metadataOffset + 10) 2

/-- The position of an entry of the metadata table. -/
def itemEntry (metadataOffset i : Nat) : Nat := metadataOffset + 32 + i * 32

/-- The metadata items with a GUID hold a value of so many bytes. -/
structure ItemValue (metadataOffset : Nat) (guid : Bytes) (width value : Nat) : Prop where
  exists_item : ∃ i < itemCount bytes metadataOffset,
    bytes.slice (itemEntry metadataOffset i) 16 = guid
  item : ∀ i < itemCount bytes metadataOffset,
    bytes.slice (itemEntry metadataOffset i) 16 = guid →
      8 ≤ leField bytes (itemEntry metadataOffset i + 20) 4 ∧
      metadataOffset + leField bytes (itemEntry metadataOffset i + 16) 4 + 8 ≤ bytes.length ∧
      leField bytes (metadataOffset + leField bytes (itemEntry metadataOffset i + 16) 4) width
        = value
  ne_zero : value ≠ 0

/-- The metadata table gives the sizes. -/
structure MetadataTable (metadataOffset virtualSize blockSize : Nat) : Prop where
  count : itemCount bytes metadataOffset ≤ 2047
  entries : itemEntry metadataOffset (itemCount bytes metadataOffset) ≤ bytes.length
  virtualSize : ItemValue bytes metadataOffset VIRTUAL_DISK_SIZE_GUID 8 virtualSize
  blockSize : ItemValue bytes metadataOffset FILE_PARAMETERS_GUID 4 blockSize

/-- An entry of the block allocation table. -/
def batEntry (g : Geometry) (j : Nat) : Nat := leField bytes (g.batOffset + j * 8) 8

/-- The byte that an entry gives for an offset in a block. -/
def entryByte (entry i : Nat) : Option UInt8 :=
  if entry % 8 = BAT_STATE_FULLY_PRESENT then bytes[entry / 2 ^ 20 * 2 ^ 20 + i]? else some 0

/-- The index of the entry of the last block of a disk. -/
def Geometry.lastIndex (g : Geometry) (D : Bytes) : Nat := g.index ((D.length - 1) / g.blockSize)

/-- An image of the disk `D` as the format lays it out. -/
structure Layout (g : Geometry) (D : Bytes) : Prop where
  signature : bytes.slice 0 8 = VHDX_FILE_SIGNATURE
  regions : RegionTable bytes g
  metadata : MetadataTable bytes g.metadataOffset D.length g.blockSize
  blockSize : g.blockSize ≤ 2 ^ 28
  logicalSectorSize : g.logicalSectorSize = 512 ∨ g.logicalSectorSize = 4096
  bat : g.batOffset + g.batLength ≤ bytes.length
  batLength : (g.lastIndex D + 1) * 8 ≤ g.batLength
  present : ∀ j ≤ g.lastIndex D, batEntry bytes g j % 8 = BAT_STATE_FULLY_PRESENT →
    batEntry bytes g j / 2 ^ 20 * 2 ^ 20 < bytes.length
  content : ∀ off < D.length, entryByte bytes (batEntry bytes g (g.index (off / g.blockSize)))
    (off % g.blockSize) = D[off]?

end

/-! ## Opening -/

/-- What the loop over the first `i` region entries has found. -/
structure RegionsFound (bytes : Bytes) (g : Geometry) (i : Nat) (regions : Regions) : Prop where
  bat : (∃ j < i, bytes.slice (regionEntry j) 16 = BAT_GUID) →
    regions.batOffset = g.batOffset ∧ regions.batLength = g.batLength
  metadata : (∃ j < i, bytes.slice (regionEntry j) 16 = METADATA_GUID) →
    regions.metadataOffset = g.metadataOffset

variable {image : Image} {g : Geometry} {D : Bytes}

theorem exists_lt_succ {p : Nat → Prop} {i : Nat} :
    (∃ j < i + 1, p j) ↔ (∃ j < i, p j) ∨ p i := by
  constructor
  · rintro ⟨j, hj, hp⟩
    rcases Nat.lt_succ_iff_lt_or_eq.mp hj with hlt | rfl
    · exact .inl ⟨j, hlt, hp⟩
    · exact .inr hp
  · rintro (⟨j, hj, hp⟩ | hp)
    · exact ⟨j, Nat.lt_succ_of_lt hj, hp⟩
    · exact ⟨i, Nat.lt_succ_self i, hp⟩

theorem readRegions_spec (h : RegionTable image.bytes g) (left : Nat) :
    ∀ (i : Nat) (regions : Regions), i + left = leField image.bytes 0x30008 4 →
      RegionsFound image.bytes g i regions →
      ∃ regions', readRegions (fileReader image) left i regions = .ok regions' ∧
        RegionsFound image.bytes g (leField image.bytes 0x30008 4) regions' := by
  induction left with
  | zero =>
      rintro i regions rfl hfound
      exact ⟨regions, rfl, hfound⟩
  | succ left ih =>
      intro i regions hi hfound
      have hentries := h.entries
      have hsmall := image.small
      have hend : regionEntry i + 32 ≤ image.bytes.length := by
        simp only [regionEntry] at hentries ⊢
        omega
      have hread : (fileReader image).readAt (0x30000 + 16 + i * 32) 32
          = .ok (image.bytes.slice (regionEntry i) 32) :=
        fileReader_readAt image 32 (by simp only [regionEntry] at hend; omega)
      have hlen : (image.bytes.slice (regionEntry i) 32).length = 32 :=
        (List.length_slice_eq_iff (by omega)).mpr hend
      have hguid : (image.bytes.slice (regionEntry i) 32).slice 0 16
          = image.bytes.slice (regionEntry i) 16 := slice_slice_of_le (by omega)
      have hlt : i < leField image.bytes 0x30008 4 := by omega
      rw [readRegions, hread]
      simp only [Except.ok_bind, hlen, ne_eq, not_true_eq_false, if_false, hguid,
        leField_slice (by omega : 16 + 8 ≤ 32), leField_slice (by omega : 24 + 4 ≤ 32)]
      split_ifs with hbat hmetadata
      · obtain ⟨hoffset, hlength⟩ := h.bat i hlt hbat
        refine ih (i + 1) _ (by omega) ⟨fun _ => ⟨hoffset, hlength⟩, fun hm => ?_⟩
        refine hfound.metadata ((exists_lt_succ.mp hm).resolve_right (fun hi => ?_))
        rw [hbat] at hi
        exact absurd hi (by decide)
      · refine ih (i + 1) _ (by omega) ⟨fun hb => ?_, fun _ => h.metadata i hlt hmetadata⟩
        exact hfound.bat ((exists_lt_succ.mp hb).resolve_right hbat)
      · exact ih (i + 1) _ (by omega)
          ⟨fun hb => hfound.bat ((exists_lt_succ.mp hb).resolve_right hbat),
            fun hm => hfound.metadata ((exists_lt_succ.mp hm).resolve_right hmetadata)⟩

/-- What the loop over the first `i` metadata items has found. -/
structure ItemsFound (bytes : Bytes) (m virtualSize blockSize i : Nat) (sizes : Nat × Nat) :
    Prop where
  virtualSize : (∃ j < i, bytes.slice (itemEntry m j) 16 = VIRTUAL_DISK_SIZE_GUID) →
    sizes.1 = virtualSize
  blockSize : (∃ j < i, bytes.slice (itemEntry m j) 16 = FILE_PARAMETERS_GUID) →
    sizes.2 = blockSize

/-- The value of an item, from a buffer of 8 bytes. -/
theorem readPadded_item {off width : Nat} (h : off + 8 ≤ image.bytes.length) (hwidth : width ≤ 8) :
    ∃ buf, readPadded (fileReader image) (wrap off) 8 = .ok buf ∧
      leField buf 0 width = leField image.bytes off width := by
  have hsmall := image.small
  have hoff : wrap off = off := Nat.mod_eq_of_lt (by simp only [FILE_OFFSET_LIMIT] at hsmall; omega)
  have hlen : (image.bytes.slice off 8).length = 8 := (List.length_slice_eq_iff (by omega)).mpr h
  refine ⟨image.bytes.slice off 8, ?_, by rw [leField_slice (by omega), Nat.add_zero]⟩
  rw [hoff, readPadded, fileReader_readAt image 8 (by omega), Except.ok_bind, hlen]
  simp [pure, Except.pure]

theorem readItems_spec {m virtualSize blockSize : Nat}
    (h : MetadataTable image.bytes m virtualSize blockSize) (left : Nat) :
    ∀ (i : Nat) (sizes : Nat × Nat), i + left = itemCount image.bytes m →
      ItemsFound image.bytes m virtualSize blockSize i sizes →
      ∃ sizes', readItems (fileReader image) m left i sizes = .ok sizes' ∧
        ItemsFound image.bytes m virtualSize blockSize (itemCount image.bytes m) sizes' := by
  induction left with
  | zero =>
      rintro i sizes rfl hfound
      exact ⟨sizes, rfl, hfound⟩
  | succ left ih =>
      intro i sizes hi hfound
      have hentries := h.entries
      have hsmall := image.small
      have hend : itemEntry m i + 32 ≤ image.bytes.length := by
        simp only [itemEntry] at hentries ⊢
        omega
      have hread : (fileReader image).readAt (wrap (m + 32 + i * 32)) 32
          = .ok (image.bytes.slice (itemEntry m i) 32) := by
        have hwrap : wrap (m + 32 + i * 32) = itemEntry m i := Nat.mod_eq_of_lt (by
          simp only [itemEntry, FILE_OFFSET_LIMIT] at hend hsmall
          omega)
        rw [hwrap]
        exact fileReader_readAt image 32 (by omega)
      have hlen : (image.bytes.slice (itemEntry m i) 32).length = 32 :=
        (List.length_slice_eq_iff (by omega)).mpr hend
      have hguid : (image.bytes.slice (itemEntry m i) 32).slice 0 16
          = image.bytes.slice (itemEntry m i) 16 := slice_slice_of_le (by omega)
      have hlt : i < itemCount image.bytes m := by omega
      have hguids : VIRTUAL_DISK_SIZE_GUID ≠ FILE_PARAMETERS_GUID := by decide
      rw [readItems, hread]
      simp only [Except.ok_bind, hlen, ne_eq, not_true_eq_false, if_false, hguid,
        leField_slice (by omega : 16 + 4 ≤ 32), leField_slice (by omega : 20 + 4 ≤ 32)]
      split_ifs with hsize hblock
      · obtain ⟨-, hvalue, heq⟩ := h.virtualSize.item i hlt hsize.1
        obtain ⟨buf, hbuf, hfield⟩ := readPadded_item hvalue (Nat.le_refl 8)
        rw [hbuf, Except.ok_bind]
        refine ih (i + 1) _ (by omega) ⟨fun _ => hfield.trans heq, fun hb => ?_⟩
        refine hfound.blockSize ((exists_lt_succ.mp hb).resolve_right (fun hi => ?_))
        exact hguids (hsize.1.symm.trans hi)
      · obtain ⟨-, hvalue, heq⟩ := h.blockSize.item i hlt hblock.1
        obtain ⟨buf, hbuf, hfield⟩ := readPadded_item hvalue (by omega : 4 ≤ 8)
        rw [hbuf, Except.ok_bind]
        refine ih (i + 1) _ (by omega) ⟨fun hv => ?_, fun _ => hfield.trans heq⟩
        refine hfound.virtualSize ((exists_lt_succ.mp hv).resolve_right (fun hi => ?_))
        exact hguids (hi.symm.trans hblock.1)
      · refine ih (i + 1) _ (by omega) ⟨fun hv => ?_, fun hb => ?_⟩
        · exact hfound.virtualSize ((exists_lt_succ.mp hv).resolve_right
            (fun hi => hsize ⟨hi, (h.virtualSize.item i hlt hi).1⟩))
        · exact hfound.blockSize ((exists_lt_succ.mp hb).resolve_right
            (fun hi => hblock ⟨hi, (h.blockSize.item i hlt hi).1⟩))

theorem parseMetadata_spec {m virtualSize blockSize : Nat}
    (h : MetadataTable image.bytes m virtualSize blockSize) :
    parseMetadata (fileReader image) m = .ok (virtualSize, blockSize) := by
  have hentries := h.entries
  simp only [itemEntry] at hentries
  obtain ⟨sizes, hsizes, hfound⟩ := readItems_spec h (itemCount image.bytes m) 0 (0, 0)
    (Nat.zero_add _) ⟨by simp, by simp⟩
  have hv := hfound.virtualSize h.virtualSize.exists_item
  have hb := hfound.blockSize h.blockSize.exists_item
  rw [parseMetadata, readExactly_slice _ (by omega) (by omega), Except.ok_bind]
  simp only [leField_slice (by omega : 10 + 2 ≤ 32)]
  rw [show min (leField image.bytes (m + 10) 2) 2047 = itemCount image.bytes m from
    Nat.min_eq_left h.count, hsizes, Except.ok_bind, hv, hb, require,
    if_pos ⟨h.virtualSize.ne_zero, h.blockSize.ne_zero⟩]
  exact congrArg Except.ok (Prod.ext hv hb)

/-- An image is accepted with the whole BAT region as its table. -/
theorem new_of_layout (h : Layout image.bytes g D) :
    new (fileReader image) = .ok {
      parent := fileReader image
      bat := tableOf leField 8 (image.bytes.slice g.batOffset (g.batLength / 8 * 8))
      blockSize := g.blockSize, virtualSize := D.length } := by
  have hsmall := image.small
  have hentries := h.regions.entries
  have hbat := h.bat
  simp only [regionEntry] at hentries
  obtain ⟨regions, hregions, hfound⟩ := readRegions_spec h.regions
    (leField image.bytes 0x30008 4) 0 {} (Nat.zero_add _) ⟨by simp, by simp⟩
  obtain ⟨hoffset, hlength⟩ := hfound.bat h.regions.exists_bat
  have hmetadata := hfound.metadata h.regions.exists_metadata
  have hsig : (image.bytes.slice 0 8).length = 8 := by
    rw [h.signature]
    rfl
  rw [new, fileReader_readAt image 8 (by decide), Except.ok_bind, require,
    if_pos ⟨hsig, h.signature⟩, Except.ok_bind, readExactly_slice _ (by omega) (by omega),
    Except.ok_bind]
  simp only [leField_slice (by omega : 0 + 4 ≤ 16), leField_slice (by omega : 8 + 4 ≤ 16)]
  rw [require, Nat.add_zero, if_pos h.regions.signature, Except.ok_bind,
    show min (leField image.bytes (0x30000 + 8) 4) 2047 = leField image.bytes 0x30008 4 from
      Nat.min_eq_left h.regions.count, hregions, Except.ok_bind, require,
    if_pos ⟨hoffset ▸ h.regions.batOffset_ne, hmetadata ▸ h.regions.metadataOffset_ne⟩,
    Except.ok_bind, hmetadata, parseMetadata_spec h.metadata, Except.ok_bind, hoffset, hlength,
    fileReader_readAt image _ (by omega)]
  rfl

/-! ## Reading -/

theorem Geometry.index_le_lastIndex (g : Geometry) {off : Nat} (hoff : off < D.length) :
    g.index (off / g.blockSize) ≤ g.lastIndex D := by
  have hk : off / g.blockSize ≤ (D.length - 1) / g.blockSize := Nat.div_le_div_right (by omega)
  have hq := Nat.div_le_div_right (c := g.chunkRatio) hk
  simp only [Geometry.lastIndex, Geometry.index]
  omega

/-- The number of a block is not above the index of its entry. -/
theorem Geometry.le_lastIndex (g : Geometry) {off : Nat} (hoff : off < D.length) :
    off / g.blockSize ≤ g.lastIndex D :=
  (Nat.le_add_right _ _).trans (g.index_le_lastIndex hoff)

/-- The table holds the entries up to that of the last block. -/
theorem bat_getElem? (h : Layout image.bytes g D) {j : Nat} (hj : j ≤ g.lastIndex D) :
    (tableOf leField 8 (image.bytes.slice g.batOffset (g.batLength / 8 * 8)))[j]?
      = some (batEntry image.bytes g j) := by
  have hbat := h.bat
  have hlength := h.batLength
  have hlt : j < g.batLength / 8 := by omega
  rw [getElem?_tableOf, leField_slice (by omega)]
  · rfl
  · rw [List.length_slice]
    omega

/-- What an accepted image exposes is what the entries at the numbers of the blocks give. -/
theorem exposes_iff (h : Layout image.bytes g D) {r : VhdxReader}
    (hr : new (fileReader image) = .ok r) :
    r.map.reader.Exposes D ↔ ∀ off < D.length,
      entryByte image.bytes (batEntry image.bytes g (off / g.blockSize)) (off % g.blockSize)
        = D[off]? := by
  obtain ⟨hparent, hblock⟩ := new_spec hr
  rw [new_of_layout h, Except.ok.injEq] at hr
  have hbat : ∀ off < D.length,
      r.bat[off / g.blockSize]? = some (batEntry image.bytes g (off / g.blockSize)) :=
    fun off hoff => hr ▸ bat_getElem? h (g.le_lastIndex hoff)
  have hsize : r.blockSize = g.blockSize := hr ▸ rfl
  have hvirtual : r.virtualSize = D.length := hr ▸ rfl
  have hpiece : ∀ off, r.map.piece off = .ok ⟨off / g.blockSize * g.blockSize, g.blockSize,
      r.extent (off / g.blockSize)⟩ := fun off => by
    simp only [VhdxReader.map, blockPiece, hsize]
  have hextent : ∀ off < D.length, r.extent (off / g.blockSize)
      = if batEntry image.bytes g (off / g.blockSize) % 8 ≠ BAT_STATE_FULLY_PRESENT then .hole
        else .stored (batEntry image.bytes g (off / g.blockSize) / 2 ^ 20 * 2 ^ 20) :=
    fun off hoff => by simp only [VhdxReader.extent, hbat off hoff]
  have hbyte : ∀ off < D.length,
      (r.extent (off / g.blockSize)).byte image.bytes (off % g.blockSize)
        = entryByte image.bytes (batEntry image.bytes g (off / g.blockSize)) (off % g.blockSize) :=
    fun off hoff => by
      rw [hextent off hoff, entryByte]
      split_ifs <;> first | rfl | contradiction
  have hdenotes : r.map.Denotes image.bytes D ↔ ∀ off < D.length,
      entryByte image.bytes (batEntry image.bytes g (off / g.blockSize)) (off % g.blockSize)
        = D[off]? := by
    constructor
    · intro hD off hoff
      obtain ⟨p, hp, hb⟩ := hD.byte off hoff
      rw [hpiece, Except.ok.injEq] at hp
      subst hp
      rwa [← Nat.mod_eq_sub_div_mul, hbyte off hoff] at hb
    · intro hD
      refine ⟨hvirtual.symm, fun off hoff => ⟨_, hpiece off, ?_⟩⟩
      rw [← Nat.mod_eq_sub_div_mul, hbyte off hoff]
      exact hD off hoff
  rw [← hdenotes]
  refine DiskMap.exposes_iff hparent (coherent_blockIndex rfl hblock) ?_ ?_
  · intro off p hoff hp he
    rw [hpiece, Except.ok.injEq] at hp
    subst hp
    rw [hextent off (hvirtual ▸ hoff)] at he
    split_ifs at he
  · intro off p physical hoff hp he
    rw [hpiece, Except.ok.injEq] at hp
    subst hp
    have hlt : off < D.length := hvirtual ▸ hoff
    rw [hextent off hlt] at he
    split_ifs at he with hstate
    cases he
    rw [← Nat.mod_eq_sub_div_mul]
    have hpresent := h.present _ (g.le_lastIndex hlt) (not_not.mp hstate)
    have hbase := hpresent.trans image.small
    have hmod := (Nat.mod_lt off (hsize ▸ hblock)).trans_le h.blockSize
    exact (Nat.add_lt_add hbase hmod).trans_le (by decide)

/-- **VHDX images**: an image laid out as the format says is accepted with enough of its table,
and it is exposed as its disk exactly when, at every offset, the entry at the number of the
block gives the byte that the entry of the block gives. -/
theorem layout_exposed_iff (image : Image) (g : Geometry) (D : Bytes) (h : Layout image.bytes g D) :
    ∃ r, new (fileReader image) = .ok r ∧
      (∀ j ≤ g.lastIndex D, r.bat[j]? = some (batEntry image.bytes g j)) ∧
      (r.map.reader.Exposes D ↔ ∀ off < D.length,
        entryByte image.bytes (batEntry image.bytes g (off / g.blockSize)) (off % g.blockSize)
          = entryByte image.bytes (batEntry image.bytes g (g.index (off / g.blockSize)))
              (off % g.blockSize)) := by
  refine ⟨_, new_of_layout h, fun j hj => bat_getElem? h hj, ?_⟩
  rw [exposes_iff h (new_of_layout h)]
  refine forall_congr' (fun off => imp_congr_right (fun hoff => ?_))
  rw [h.content off hoff]

/-- The index of a block in the first chunk is its number. -/
theorem Geometry.index_of_lt {g : Geometry} {k : Nat} (h : k < g.chunkRatio) : g.index k = k := by
  rw [Geometry.index, Nat.div_eq_of_lt h, Nat.add_zero]

/-- A disk of one chunk is exposed. -/
theorem exposes_of_one_chunk (h : Layout image.bytes g D) {r : VhdxReader}
    (hr : new (fileReader image) = .ok r) (hD : D.length ≤ g.chunkRatio * g.blockSize) :
    r.map.reader.Exposes D := by
  rw [exposes_iff h hr]
  intro off hoff
  have hk : off / g.blockSize < g.chunkRatio :=
    (Nat.div_lt_iff_lt_mul (Nat.pos_of_ne_zero h.metadata.blockSize.ne_zero)).mpr (by omega)
  rw [← h.content off hoff, Geometry.index_of_lt hk]

/-! ## A disk of more than one chunk -/

/-- A part of an image, with zeros up to the next. -/
def padTo (n : Nat) (b : Bytes) : Bytes := b ++ List.replicate (n - b.length) 0

theorem length_padTo {n : Nat} {b : Bytes} (h : b.length ≤ n) : (padTo n b).length = n := by
  rw [padTo, List.length_append, List.length_replicate]
  omega

theorem slice_padTo {n k w : Nat} {b : Bytes} (rest : Bytes) (h : k + w ≤ b.length) :
    (padTo n b ++ rest).slice k w = b.slice k w := by
  rw [padTo, List.append_assoc, List.slice_append_left _ h]

/-- A region table with the BAT at 1 MB and the metadata at 2 MB. -/
def twoRegions : Bytes :=
  [0x72, 0x65, 0x67, 0x69, 0, 0, 0, 0, 2, 0, 0, 0, 0, 0, 0, 0]
    ++ BAT_GUID ++ [0, 0, 0x10, 0, 0, 0, 0, 0, 0, 0, 0x10, 0, 1, 0, 0, 0]
    ++ METADATA_GUID ++ [0, 0, 0x20, 0, 0, 0, 0, 0, 0, 0, 0x10, 0, 1, 0, 0, 0]

/-- A table of 17 blocks of 256 MB: the last, at 3 MB, is the first of the second chunk. -/
def twoChunks : Bytes := List.replicate 136 0 ++ [6, 0, 0x30, 0, 0, 0, 0, 0]

/-- A metadata table with two items, at 64 KB from it. -/
def twoItems : Bytes :=
  [0x6d, 0x65, 0x74, 0x61, 0x64, 0x61, 0x74, 0x61, 0, 0, 2, 0] ++ List.replicate 20 0
    ++ VIRTUAL_DISK_SIZE_GUID ++ [0, 0, 1, 0, 8, 0, 0, 0, 0, 0, 0, 0, 0, 0, 0, 0]
    ++ FILE_PARAMETERS_GUID ++ [8, 0, 1, 0, 8, 0, 0, 0, 0, 0, 0, 0, 0, 0, 0, 0]

/-- The size of the disk, 4 GB and a sector, and of a block. -/
def twoSizes : Bytes := [0, 2, 0, 0, 1, 0, 0, 0, 0, 0, 0, 0x10, 0, 0, 0, 0]

/-- The disk: zeros, then a sector in the second chunk. -/
def crossingDisk : Bytes := List.replicate (2 ^ 32) 0 ++ List.replicate 512 1

def crossingBytes : Bytes :=
  padTo 0x30000 VHDX_FILE_SIGNATURE ++ (padTo 0xd0000 twoRegions ++ (padTo 0x100000 twoChunks ++
    (padTo 0x10000 twoItems ++ (padTo 0xf0000 twoSizes ++ List.replicate (2 ^ 28) 1))))

def crossingGeometry : Geometry := ⟨0x100000, 0x100000, 0x200000, 2 ^ 28, 512⟩

theorem crossing_parts :
    (∀ k w, k + w ≤ 8 → crossingBytes.slice k w = VHDX_FILE_SIGNATURE.slice k w) ∧
    (∀ k w, k + w ≤ 80 → crossingBytes.slice (0x30000 + k) w = twoRegions.slice k w) ∧
    (∀ k w, k + w ≤ 144 → crossingBytes.slice (0x100000 + k) w = twoChunks.slice k w) ∧
    (∀ k w, k + w ≤ 96 → crossingBytes.slice (0x200000 + k) w = twoItems.slice k w) ∧
    (∀ k w, k + w ≤ 16 → crossingBytes.slice (0x210000 + k) w = twoSizes.slice k w) ∧
    (∀ i < 2 ^ 28, crossingBytes[0x300000 + i]? = some 1) ∧
    crossingBytes.length = 0x300000 + 2 ^ 28 := by
  have h1 : (padTo 0x30000 VHDX_FILE_SIGNATURE).length = 0x30000 := length_padTo (by decide +kernel)
  have h2 : (padTo 0xd0000 twoRegions).length = 0xd0000 := length_padTo (by decide +kernel)
  have h3 : (padTo 0x100000 twoChunks).length = 0x100000 := length_padTo (by decide +kernel)
  have h4 : (padTo 0x10000 twoItems).length = 0x10000 := length_padTo (by decide +kernel)
  have h5 : (padTo 0xf0000 twoSizes).length = 0xf0000 := length_padTo (by decide +kernel)
  refine ⟨fun k w h => slice_padTo _ h, fun k w h => ?_, fun k w h => ?_, fun k w h => ?_,
    fun k w h => ?_, fun i hi => ?_, ?_⟩
  · rw [crossingBytes, List.slice_append_right _ h1, slice_padTo _ h]
  · rw [crossingBytes, show 0x100000 + k = 0x30000 + (0xd0000 + k) by omega,
      List.slice_append_right _ h1, List.slice_append_right _ h2, slice_padTo _ h]
  · rw [crossingBytes, show 0x200000 + k = 0x30000 + (0xd0000 + (0x100000 + k)) by omega,
      List.slice_append_right _ h1, List.slice_append_right _ h2, List.slice_append_right _ h3,
      slice_padTo _ h]
  · rw [crossingBytes, show 0x210000 + k = 0x30000 + (0xd0000 + (0x100000 + (0x10000 + k))) by omega,
      List.slice_append_right _ h1, List.slice_append_right _ h2, List.slice_append_right _ h3,
      List.slice_append_right _ h4, slice_padTo _ h]
  · rw [crossingBytes, List.getElem?_append_right (by omega), List.getElem?_append_right (by omega),
      List.getElem?_append_right (by omega), List.getElem?_append_right (by omega),
      List.getElem?_append_right (by omega), List.getElem?_replicate, if_pos (by omega)]
  · simp only [crossingBytes, List.length_append, h1, h2, h3, h4, h5, List.length_replicate]
    omega

def crossingImage : Image :=
  ⟨crossingBytes, by rw [crossing_parts.2.2.2.2.2.2]; decide⟩

theorem length_crossingDisk : crossingDisk.length = 2 ^ 32 + 512 := by
  rw [crossingDisk, List.length_append, List.length_replicate, List.length_replicate]

theorem lastIndex_crossing : crossingGeometry.lastIndex crossingDisk = 17 := by
  rw [Geometry.lastIndex, length_crossingDisk]
  rfl

/-- The entry of the block of the second chunk, and the others. -/
theorem batEntry_crossing {j : Nat} (hj : j ≤ 17) :
    batEntry crossingBytes crossingGeometry j = if j = 17 then 0x300006 else 0 := by
  have hslice := crossing_parts.2.2.1 (j * 8) 8 (by omega)
  have hentries : ∀ j ≤ 17, leField twoChunks (j * 8) 8 = if j = 17 then 0x300006 else 0 := by
    decide +kernel
  rw [batEntry, leField, show crossingGeometry.batOffset = 0x100000 from rfl, hslice]
  exact hentries j hj

theorem regionTable_crossing : RegionTable crossingBytes crossingGeometry := by
  obtain ⟨-, hslice, -, -, -, -, hlen⟩ := crossing_parts
  have hfield : ∀ k w, k + w ≤ 80 →
      leField crossingBytes (0x30000 + k) w = leField twoRegions k w :=
    fun k w h => congrArg Bytes.le (hslice k w h)
  have hcount : leField crossingBytes 0x30008 4 = 2 :=
    (hfield 8 4 (by omega)).trans (by decide +kernel)
  -- the BAT, then the metadata
  have h0 : crossingBytes.slice (regionEntry 0) 16 = BAT_GUID :=
    (hslice 16 16 (by omega)).trans (by decide +kernel)
  have h1 : crossingBytes.slice (regionEntry 1) 16 = METADATA_GUID :=
    (hslice 48 16 (by omega)).trans (by decide +kernel)
  have hguids : BAT_GUID ≠ METADATA_GUID := by decide
  constructor
  · exact (hfield 0 4 (by omega)).trans (by decide +kernel)
  · omega
  · rw [hcount, hlen]
    decide
  · exact ⟨0, by omega, h0⟩
  · intro i hi hguid
    obtain rfl | rfl : i = 0 ∨ i = 1 := by omega
    · exact ⟨(hfield 32 8 (by omega)).trans (by decide +kernel),
        (hfield 40 4 (by omega)).trans (by decide +kernel)⟩
    · exact absurd (hguid.symm.trans h1) hguids
  · exact ⟨1, by omega, h1⟩
  · intro i hi hguid
    obtain rfl | rfl : i = 0 ∨ i = 1 := by omega
    · exact absurd (h0.symm.trans hguid) hguids
    · exact (hfield 64 8 (by omega)).trans (by decide +kernel)
  · decide
  · decide

theorem metadataTable_crossing :
    MetadataTable crossingBytes 0x200000 (2 ^ 32 + 512) (2 ^ 28) := by
  obtain ⟨-, -, -, hslice, hsizes, -, hlen⟩ := crossing_parts
  have hfield : ∀ k w, k + w ≤ 96 →
      leField crossingBytes (0x200000 + k) w = leField twoItems k w :=
    fun k w h => congrArg Bytes.le (hslice k w h)
  have hsize : ∀ k w, k + w ≤ 16 →
      leField crossingBytes (0x210000 + k) w = leField twoSizes k w :=
    fun k w h => congrArg Bytes.le (hsizes k w h)
  have hcount : itemCount crossingBytes 0x200000 = 2 :=
    (hfield 10 2 (by omega)).trans (by decide +kernel)
  -- the size of the disk, then that of a block
  have h0 : crossingBytes.slice (itemEntry 0x200000 0) 16 = VIRTUAL_DISK_SIZE_GUID :=
    (hslice 32 16 (by omega)).trans (by decide +kernel)
  have h1 : crossingBytes.slice (itemEntry 0x200000 1) 16 = FILE_PARAMETERS_GUID :=
    (hslice 64 16 (by omega)).trans (by decide +kernel)
  have hguids : VIRTUAL_DISK_SIZE_GUID ≠ FILE_PARAMETERS_GUID := by decide
  have hoff0 : leField crossingBytes (itemEntry 0x200000 0 + 16) 4 = 0x10000 :=
    (hfield 48 4 (by omega)).trans (by decide +kernel)
  have hoff1 : leField crossingBytes (itemEntry 0x200000 1 + 16) 4 = 0x10008 :=
    (hfield 80 4 (by omega)).trans (by decide +kernel)
  refine ⟨by omega, by rw [hcount, hlen]; decide, ⟨⟨0, by omega, h0⟩, ?_, by decide⟩,
    ⟨⟨1, by omega, h1⟩, ?_, by decide⟩⟩
  · intro i hi hguid
    obtain rfl | rfl : i = 0 ∨ i = 1 := by omega
    · rw [hoff0, hlen]
      exact ⟨((hfield 52 4 (by omega)).trans (by decide +kernel)).ge, by decide,
        (hsize 0 8 (by omega)).trans (by decide +kernel)⟩
    · exact absurd (hguid.symm.trans h1) hguids
  · intro i hi hguid
    obtain rfl | rfl : i = 0 ∨ i = 1 := by omega
    · exact absurd (h0.symm.trans hguid) hguids
    · rw [hoff1, hlen]
      exact ⟨((hfield 84 4 (by omega)).trans (by decide +kernel)).ge, by decide,
        (hsize 8 4 (by omega)).trans (by decide +kernel)⟩

theorem layout_crossing : Layout crossingBytes crossingGeometry crossingDisk := by
  obtain ⟨hsig, -, -, -, -, hdata, hlen⟩ := crossing_parts
  constructor
  · exact (hsig 0 8 (by omega)).trans (by decide +kernel)
  · exact regionTable_crossing
  · rw [length_crossingDisk]
    exact metadataTable_crossing
  · exact Nat.le_refl _
  · exact .inl rfl
  · rw [hlen]
    decide
  · rw [lastIndex_crossing]
    decide
  · intro j hj hstate
    rw [lastIndex_crossing] at hj
    rw [batEntry_crossing hj, hlen]
    split_ifs <;> decide
  · intro off hoff
    rw [length_crossingDisk] at hoff
    have hsize : crossingGeometry.blockSize = 2 ^ 28 := rfl
    have hratio : crossingGeometry.chunkRatio = 16 := rfl
    simp only [hsize, Geometry.index, hratio]
    rw [batEntry_crossing (by omega)]
    rcases Nat.lt_or_ge off (2 ^ 32) with hlt | hge
    · rw [if_neg (by omega), crossingDisk, List.getElem?_append_left (by
        rw [List.length_replicate]; exact hlt), List.getElem?_replicate, if_pos hlt]
      rfl
    · rw [if_pos (by omega), crossingDisk, List.getElem?_append_right (by
        rw [List.length_replicate]; exact hge), List.length_replicate, List.getElem?_replicate,
        if_pos (by omega)]
      exact hdata _ (by omega)

/-- The sector in the second chunk reads as zeros. -/
theorem crossing_not_exposed :
    ¬ ∀ (image : Image) (g : Geometry) (D : Bytes), Layout image.bytes g D →
      ∃ r, new (fileReader image) = .ok r ∧ r.map.reader.Exposes D := by
  intro h
  obtain ⟨r, hr, hexposes⟩ := h crossingImage crossingGeometry crossingDisk layout_crossing
  have hbyte := (exposes_iff (show Layout crossingImage.bytes _ _ from layout_crossing) hr).mp
    hexposes (2 ^ 32) (by rw [length_crossingDisk]; decide)
  rw [crossingDisk, List.getElem?_append_right (by rw [List.length_replicate]),
    List.length_replicate] at hbyte
  change entryByte _ (batEntry crossingBytes crossingGeometry 16) _ = _ at hbyte
  rw [batEntry_crossing (by omega)] at hbyte
  exact absurd hbyte (by decide)

/-- The image is accepted with the entry of the block in the second chunk. -/
theorem crossing_exposed_iff : ∃ r, new (fileReader crossingImage) = .ok r ∧
    r.bat[17]? = some 0x300006 := by
  obtain ⟨r, hr, hbat, -⟩ := layout_exposed_iff crossingImage crossingGeometry crossingDisk layout_crossing
  refine ⟨r, hr, ?_⟩
  rw [hbat 17 (by rw [lastIndex_crossing]),
    show batEntry crossingImage.bytes crossingGeometry 17 = _ from batEntry_crossing (Nat.le_refl 17)]
  rfl

end Mountin.Vhdx
