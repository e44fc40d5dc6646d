import Mountin.Disk.Fields
import Mountin.Disk.Map

set_option autoImplicit false

/-! # VDI, VHD, VHDX, Parallels and Bochs images

`vdi.rs`, `vhd.rs`, `vhdx.rs`, `parallels.rs` and `bochs.rs`: one table with an entry for each
block of the disk. In each, `extent` is the body of `read_at` between the test of the virtual
size and the copy.
-/

namespace Mountin

/-- A block map with one table: the source of a block depends on its number only. -/
theorem coherent_blockIndex {m : DiskMap} {blockSize : Nat} {entry : Nat → Extent}
    (hpiece : m.piece = blockPiece blockSize (fun off => .ok (entry (off / blockSize))))
    (hsize : 0 < blockSize) : m.Coherent :=
  coherent_blockPiece hpiece hsize (fun off off' h => by rw [h])

/-! ## VDI -/

namespace Vdi

def VDI_SIGNATURE : Nat := 0xbeda107f
def VDI_UNALLOCATED : Nat := 0xFFFFFFFF
def VDI_DISCARDED : Nat := 0xFFFFFFFE

/-- `VdiReader`. -/
structure VdiReader where
  parent : Reader
  blockMap : List Nat
  blockSize : Nat
  dataOffset : Nat
  virtualSize : Nat

/-- `VdiReader::new`. The header is read into a buffer of `0x188` bytes, of which `0x184` have
to be there. -/
def new (parent : Reader) : Except IoError VdiReader := do
  let buf ← parent.readAt 0 0x188
  require (0x184 ≤ buf.length) (.unexpectedEof "short header read")
  let header := buf ++ List.replicate (0x188 - buf.length) 0
  require (leField header 0x40 4 = VDI_SIGNATURE) (.invalidData "invalid VDI signature")
  let offsetBmap := leField header 0x154 4
  let offsetData := leField header 0x158 4
  let diskSize := leField header 0x170 8
  let blockSize := leField header 0x178 4
  let blocksInImage := leField header 0x180 4
  require (blockSize ≠ 0) (.invalidData "invalid block_size")
  let bmapData ← readExactly parent offsetBmap (blocksInImage * 4)
    (.unexpectedEof "short block map read")
  return {
    parent, blockMap := tableOf leField 4 bmapData, blockSize
    dataOffset := offsetData, virtualSize := diskSize }

variable (r : VdiReader)

/-- The source of a block. -/
def VdiReader.extent (blockIdx : Nat) : Extent :=
  match r.blockMap[blockIdx]? with
  | none => .hole
  | some bmapEntry =>
      if bmapEntry = VDI_UNALLOCATED ∨ bmapEntry = VDI_DISCARDED then .hole
      else .stored (r.dataOffset + bmapEntry * r.blockSize)

/-- The map of a VDI image; its `readAt` is `read_at`. -/
def VdiReader.map : DiskMap where
  parent := r.parent
  virtualSize := r.virtualSize
  piece := blockPiece r.blockSize (fun offset => .ok (r.extent (offset / r.blockSize)))

theorem new_spec {parent : Reader} {r : VdiReader} (h : new parent = .ok r) :
    r.parent = parent ∧ 0 < r.blockSize := by
  simp only [new, bind_eq_ok, require_eq_ok, pure, Except.pure, Except.ok.injEq] at h
  obtain ⟨buf, -, -, -, -, -, -, hsize, -, -, rfl⟩ := h
  exact ⟨rfl, Nat.pos_of_ne_zero hsize⟩

end Vdi

/-! ## VHD -/

namespace Vhd

/-- `VHD_MAGIC`: "conectix". -/
def VHD_MAGIC : Bytes := [0x63, 0x6f, 0x6e, 0x65, 0x63, 0x74, 0x69, 0x78]

/-- `VHD_DYNAMIC_MAGIC`: "cxsparse". -/
def VHD_DYNAMIC_MAGIC : Bytes := [0x63, 0x78, 0x73, 0x70, 0x61, 0x72, 0x73, 0x65]

def VHD_FIXED : Nat := 2
def VHD_DYNAMIC : Nat := 3
def VHD_DIFFERENCING : Nat := 4
def VHD_UNALLOCATED : Nat := 0xFFFFFFFF

/-- `VhdVariant`. -/
inductive VhdVariant where
  | fixed
  | dynamic (bat : List Nat) (blockSize bitmapSize : Nat)

/-- `VhdReader`. -/
structure VhdReader where
  parent : Reader
  variant : VhdVariant
  virtualSize : Nat

/-- The dynamic header at an offset, with its table. -/
def readDynamic (parent : Reader) (dataOffset : Nat) : Except IoError VhdVariant := do
  let dynHeader ← readExactly parent dataOffset 1024 (.unexpectedEof "short dynamic header read")
  require (dynHeader.slice 0 8 = VHD_DYNAMIC_MAGIC)
    (.invalidData "invalid VHD dynamic header magic")
  let tableOffset := beField dynHeader 0x10 8
  let maxTableEntries := beField dynHeader 0x1c 4
  let blockSize := beField dynHeader 0x20 4
  require (blockSize ≠ 0) (.invalidData "invalid block_size")
  -- the sector bitmap of a block, rounded up to a sector
  let bitmapSize := ((blockSize / 512 + 7) / 8 + 511) / 512 * 512
  let batData ← readExactly parent tableOffset (maxTableEntries * 4)
    (.unexpectedEof "short BAT read")
  return .dynamic (tableOf beField 4 batData) blockSize bitmapSize

/-- The variant of a disk type. -/
def readVariant (parent : Reader) (dataOffset diskType : Nat) : Except IoError VhdVariant :=
  if diskType = VHD_FIXED then .ok .fixed
  else if diskType = VHD_DYNAMIC ∨ diskType = VHD_DIFFERENCING then readDynamic parent dataOffset
  else .error (.invalidData "unknown VHD type")

/-- `VhdReader::new`. -/
def new (parent : Reader) : Except IoError VhdReader := do
  let footer ← readExactly parent 0 512 (.unexpectedEof "short footer read")
  require (footer.slice 0 8 = VHD_MAGIC) (.invalidData "invalid VHD magic")
  let dataOffset := beField footer 0x10 8
  let virtualSize := beField footer 0x30 8
  let diskType := beField footer 0x3c 4
  let variant ← readVariant parent dataOffset diskType
  return { parent, variant, virtualSize }

/-- The source of a block of a dynamic image. -/
def extent (bat : List Nat) (bitmapSize blockIdx : Nat) : Extent :=
  match bat[blockIdx]? with
  | none => .hole
  | some batEntry =>
      if batEntry = VHD_UNALLOCATED then .hole
      -- an entry is a sector number; the bitmap comes before the data
      else .stored (batEntry * 512 + bitmapSize)

variable (r : VhdReader)

/-- The map of a VHD image; its `readAt` is `read_at`. A fixed image is one piece, its data at
offset 0. -/
def VhdReader.map : DiskMap where
  parent := r.parent
  virtualSize := r.virtualSize
  piece :=
    match r.variant with
    | .fixed => fun _ => .ok ⟨0, r.virtualSize, .stored 0⟩
    | .dynamic bat blockSize bitmapSize =>
        blockPiece blockSize (fun offset => .ok (extent bat bitmapSize (offset / blockSize)))

theorem VhdReader.coherent
    (h : ∀ bat blockSize bitmapSize, r.variant = .dynamic bat blockSize bitmapSize →
      0 < blockSize) : r.map.Coherent := by
  obtain ⟨parent, variant, virtualSize⟩ := r
  cases variant with
  | fixed =>
      constructor
      · rintro off p hoff hp
        cases hp
        exact ⟨Nat.zero_le _, hoff.trans_le (Nat.zero_add _).ge⟩
      · rintro off p off' _ hp _ _ _
        exact hp
  | dynamic bat blockSize bitmapSize => exact coherent_blockIndex rfl (h _ _ _ rfl)

theorem readDynamic_blockSize_pos {parent : Reader} {dataOffset : Nat} {variant : VhdVariant}
    (h : readDynamic parent dataOffset = .ok variant) :
    ∀ bat blockSize bitmapSize, variant = .dynamic bat blockSize bitmapSize → 0 < blockSize := by
  simp only [readDynamic, bind_eq_ok, require_eq_ok, pure, Except.pure, Except.ok.injEq] at h
  obtain ⟨header, -, -, -, -, hsize, batData, -, rfl⟩ := h
  rintro bat blockSize bitmapSize heq
  cases heq
  exact Nat.pos_of_ne_zero hsize

theorem new_spec {parent : Reader} {r : VhdReader} (h : new parent = .ok r) :
    r.parent = parent ∧
      ∀ bat blockSize bitmapSize, r.variant = .dynamic bat blockSize bitmapSize →
        0 < blockSize := by
  simp only [new, bind_eq_ok, require_eq_ok, pure, Except.pure, Except.ok.injEq] at h
  obtain ⟨footer, -, -, -, variant, hvariant, rfl⟩ := h
  refine ⟨rfl, ?_⟩
  unfold readVariant at hvariant
  split_ifs at hvariant with hfixed hdynamic
  · cases hvariant
    intro bat blockSize bitmapSize heq
    cases heq
  · exact readDynamic_blockSize_pos hvariant

end Vhd

/-! ## VHDX -/

namespace Vhdx

/-- `VHDX_FILE_SIGNATURE`: "vhdxfile". -/
def VHDX_FILE_SIGNATURE : Bytes := [0x76, 0x68, 0x64, 0x78, 0x66, 0x69, 0x6c, 0x65]

def VHDX_REGION_SIGNATURE : Nat := 0x69676572

def BAT_GUID : Bytes :=
  [0x66, 0x77, 0xC2, 0x2D, 0x23, 0xF6, 0x00, 0x42, 0x9D, 0x64, 0x11, 0x5E, 0x9B, 0xFD, 0x4A, 0x08]

def METADATA_GUID : Bytes :=
  [0x06, 0xA2, 0x7C, 0x8B, 0x90, 0x47, 0x9A, 0x4B, 0xB8, 0xFE, 0x57, 0x5F, 0x05, 0x0F, 0x88, 0x6E]

def VIRTUAL_DISK_SIZE_GUID : Bytes :=
  [0x24, 0x42, 0xA5, 0x2F, 0x1B, 0xCD, 0x76, 0x48, 0xB2, 0x11, 0x5D, 0xBE, 0xD8, 0x3B, 0xF4, 0xB8]

def FILE_PARAMETERS_GUID : Bytes :=
  [0x37, 0x67, 0xa1, 0xca, 0x36, 0xfa, 0x43, 0x4d, 0xb3, 0xb6, 0x33, 0xf0, 0xaa, 0x44, 0xe7, 0x6b]

def BAT_STATE_FULLY_PRESENT : Nat := 6

/-- `VhdxReader`. -/
structure VhdxReader where
  parent : Reader
  bat : List Nat
  blockSize : Nat
  virtualSize : Nat

/-- The offset and length of the BAT region and the offset of the metadata region. -/
structure Regions where
  batOffset : Nat := 0
  batLength : Nat := 0
  metadataOffset : Nat := 0

/-- The loop over the region entries, `left` of which remain. -/
def readRegions (parent : Reader) : (left i : Nat) → Regions → Except IoError Regions
  | 0, _, regions => .ok regions
  | left + 1, i, regions => do
      let entry ← parent.readAt (0x30000 + 16 + i * 32) 32
      if entry.length ≠ 32 then return regions
      else
        let guid := entry.slice 0 16
        let fileOffset := leField entry 16 8
        let length := leField entry 24 4
        if guid = BAT_GUID then
          readRegions parent left (i + 1)
            { regions with batOffset := fileOffset, batLength := length }
        else if guid = METADATA_GUID then
          readRegions parent left (i + 1) { regions with metadataOffset := fileOffset }
        else readRegions parent left (i + 1) regions

/-- The loop over the metadata entries, for the virtual size and the block size. -/
def readItems (parent : Reader) (metadataOffset : Nat) :
    (left i : Nat) → Nat × Nat → Except IoError (Nat × Nat)
  | 0, _, sizes => .ok sizes
  | left + 1, i, sizes => do
      let entry ← parent.readAt (wrap (metadataOffset + 32 + i * 32)) 32
      if entry.length ≠ 32 then return sizes
      else
        let guid := entry.slice 0 16
        let itemOffset := leField entry 16 4
        let itemLength := leField entry 20 4
        if guid = VIRTUAL_DISK_SIZE_GUID ∧ 8 ≤ itemLength then
          let buf ← readPadded parent (wrap (metadataOffset + itemOffset)) 8
          readItems parent metadataOffset left (i + 1) (leField buf 0 8, sizes.2)
        else if guid = FILE_PARAMETERS_GUID ∧ 8 ≤ itemLength then
          let buf ← readPadded parent (wrap (metadataOffset + itemOffset)) 8
          readItems parent metadataOffset left (i + 1) (sizes.1, leField buf 0 4)
        else readItems parent metadataOffset left (i + 1) sizes

/-- `parse_metadata`: virtual size and block size. -/
def parseMetadata (parent : Reader) (metadataOffset : Nat) : Except IoError (Nat × Nat) := do
  let header ← readExactly parent metadataOffset 32 (.unexpectedEof "short metadata header")
  let entryCount := leField header 10 2
  let sizes ← readItems parent metadataOffset (min entryCount 2047) 0 (0, 0)
  require (sizes.1 ≠ 0 ∧ sizes.2 ≠ 0)
    (.invalidData "missing virtual size or block size in metadata")
  return sizes

/-- `VhdxReader::new`. -/
def new (parent : Reader) : Except IoError VhdxReader := do
  let sig ← parent.readAt 0 8
  require (sig.length = 8 ∧ sig = VHDX_FILE_SIGNATURE) (.invalidData "invalid VHDX signature")
  let regionHeader ← readExactly parent 0x30000 16 (.unexpectedEof "short region header read")
  require (leField regionHeader 0 4 = VHDX_REGION_SIGNATURE)
    (.invalidData "invalid region table signature")
  let entryCount := leField regionHeader 8 4
  let regions ← readRegions parent (min entryCount 2047) 0 {}
  require (regions.batOffset ≠ 0 ∧ regions.metadataOffset ≠ 0)
    (.invalidData "missing BAT or metadata region")
  let (virtualSize, blockSize) ← parseMetadata parent regions.metadataOffset
  let batData ← parent.readAt regions.batOffset (regions.batLength / 8 * 8)
  return { parent, bat := tableOf leField 8 batData, blockSize, virtualSize }

variable (r : VhdxReader)

/-- The source of a block. -/
def VhdxReader.extent (blockIdx : Nat) : Extent :=
  match r.bat[blockIdx]? with
  | none => .hole
  | some batEntry =>
      let state := batEntry % 8
      if state ≠ BAT_STATE_FULLY_PRESENT then .hole
      -- `BAT_FILE_OFF_MASK`: the offset is in bytes, 1 MB aligned
      else .stored (batEntry / 2 ^ 20 * 2 ^ 20)

/-- The map of a VHDX image; its `readAt` is `read_at`. -/
def VhdxReader.map : DiskMap where
  parent := r.parent
  virtualSize := r.virtualSize
  piece := blockPiece r.blockSize (fun offset => .ok (r.extent (offset / r.blockSize)))

theorem new_spec {parent : Reader} {r : VhdxReader} (h : new parent = .ok r) :
    r.parent = parent ∧ 0 < r.blockSize := by
  simp only [new, parseMetadata, bind_eq_ok, require_eq_ok, pure, Except.pure,
    Except.ok.injEq] at h
  obtain ⟨sig, -, -, -, regionHeader, -, -, -, regions, -, -, -, sizes, hsizes, batData, -, rfl⟩ := h
  obtain ⟨header, -, items, -, -, ⟨-, hblock⟩, rfl⟩ := hsizes
  exact ⟨rfl, Nat.pos_of_ne_zero hblock⟩

end Vhdx

/-! ## Parallels -/

namespace Parallels

def HEADER_SIZE : Nat := 64
def SECTOR_SIZE : Nat := 512

/-- `MAGIC_OLD`: "WithoutFreeSpace". -/
def MAGIC_OLD : Bytes :=
  [0x57, 0x69, 0x74, 0x68, 0x6f, 0x75, 0x74, 0x46, 0x72, 0x65, 0x65, 0x53, 0x70, 0x61, 0x63, 0x65]

/-- `MAGIC_EXT`: "WithouFreSpacExt". -/
def MAGIC_EXT : Bytes :=
  [0x57, 0x69, 0x74, 0x68, 0x6f, 0x75, 0x46, 0x72, 0x65, 0x53, 0x70, 0x61, 0x63, 0x45, 0x78, 0x74]

/-- `ParallelsReader`. -/
structure ParallelsReader where
  parent : Reader
  bat : List Nat
  clusterSize : Nat
  virtualSize : Nat
  extended : Bool

/-- `ParallelsReader::new`. -/
def new (parent : Reader) : Except IoError ParallelsReader := do
  let header ← readExactly parent 0 64 (.unexpectedEof "short header read")
  let magic := header.slice 0 16
  require (magic = MAGIC_EXT ∨ magic = MAGIC_OLD) (.invalidData "invalid Parallels magic")
  let extended := magic = MAGIC_EXT
  require (leField header 16 4 = 2) (.invalidData "unsupported Parallels version")
  let tracks := leField header 28 4
  let batEntries := leField header 32 4
  let nbSectors := leField header 36 8
  let clusterSize ← checked (tracks * SECTOR_SIZE) (.invalidData "invalid Parallels tracks")
  require (clusterSize ≠ 0) (.invalidData "invalid Parallels tracks")
  let virtualSize ← checked (nbSectors * SECTOR_SIZE)
    (.invalidData "Parallels virtual size overflow")
  let batSize ← checkedTableSize parent HEADER_SIZE batEntries 4
  let batBytes ← readExactly parent HEADER_SIZE batSize (.unexpectedEof "short BAT read")
  return {
    parent, bat := tableOf leField 4 batBytes, clusterSize, virtualSize
    extended := decide extended }

variable (r : ParallelsReader)

/-- The source of a cluster; beyond the table the reader returns nothing. -/
def ParallelsReader.extent (clusterIdx : Nat) : Extent :=
  match r.bat[clusterIdx]? with
  | none => .absent
  | some batEntry =>
      if batEntry = 0 then .hole
      else if r.extended then .stored (batEntry * r.clusterSize)
      else .stored (batEntry * SECTOR_SIZE)

/-- The map of a Parallels image; its `readAt` is `read_at`. -/
def ParallelsReader.map : DiskMap where
  parent := r.parent
  virtualSize := r.virtualSize
  piece := blockPiece r.clusterSize (fun offset => .ok (r.extent (offset / r.clusterSize)))

theorem new_spec {parent : Reader} {r : ParallelsReader} (h : new parent = .ok r) :
    r.parent = parent ∧ 0 < r.clusterSize := by
  simp only [new, bind_eq_ok, require_eq_ok, pure, Except.pure, Except.ok.injEq] at h
  obtain ⟨header, -, -, -, -, -, clusterSize, -, -, hsize, -, -, -, -, -, -, rfl⟩ := h
  exact ⟨rfl, Nat.pos_of_ne_zero hsize⟩

end Parallels

/-! ## Bochs -/

namespace Bochs

/-- `BOCHS_MAGIC`: "Bochs Virtual HD Image". -/
def BOCHS_MAGIC : Bytes :=
  [0x42, 0x6f, 0x63, 0x68, 0x73, 0x20, 0x56, 0x69, 0x72, 0x74, 0x75, 0x61, 0x6c, 0x20, 0x48, 0x44,
    0x20, 0x49, 0x6d, 0x61, 0x67, 0x65]

/-- `REDOLOG_TYPE`: "Redolog". -/
def REDOLOG_TYPE : Bytes := [0x52, 0x65, 0x64, 0x6f, 0x6c, 0x6f, 0x67]

/-- `GROWING_SUBTYPE`: "Growing". -/
def GROWING_SUBTYPE : Bytes := [0x47, 0x72, 0x6f, 0x77, 0x69, 0x6e, 0x67]

def CATALOG_UNALLOCATED : Nat := 0xffffffff

/-- `BochsReader`. -/
structure BochsReader where
  parent : Reader
  catalog : List Nat
  extentSize : Nat
  bitmapSize : Nat
  dataOffset : Nat
  virtualSize : Nat

/-- `BochsReader::new`. -/
def new (parent : Reader) : Except IoError BochsReader := do
  let header ← parent.readAt 0 96
  require (96 ≤ header.length) (.unexpectedEof "short Bochs header read")
  require (header.slice 0 22 = BOCHS_MAGIC) (.invalidData "invalid Bochs magic")
  require (header.slice 32 7 = REDOLOG_TYPE) (.invalidData "not a Bochs Redolog image")
  require (header.slice 48 7 = GROWING_SUBTYPE) (.invalidData "not a Bochs Growing image")
  let version := leField header 64 4
  let headerSize := leField header 68 4
  let catalogSize := leField header 72 4
  let bitmapSize := leField header 76 4
  let extentSize := leField header 80 4
  let diskSize := if version = 0x00010000 then leField header 84 8 else leField header 88 8
  require (512 ≤ extentSize ∧ extentSize &&& (extentSize - 1) = 0)
    (.invalidData "invalid Bochs extent_size")
  require (catalogSize ≤ 1024 * 1024) (.invalidData "Bochs catalog too large")
  let catalogBytes := catalogSize * 4
  let catalogData ← readExactly parent headerSize catalogBytes
    (.unexpectedEof "short Bochs catalog read")
  return {
    parent, catalog := tableOf leField 4 catalogData, extentSize
    bitmapSize := (bitmapSize + 511) / 512 * 512
    dataOffset := headerSize + catalogBytes, virtualSize := diskSize }

variable (r : BochsReader)

/-- The source of an extent: each allocated one has a slot for its bitmap and its data. -/
def BochsReader.extent (extentIdx : Nat) : Extent :=
  match r.catalog[extentIdx]? with
  | none => .hole
  | some catalogEntry =>
      if catalogEntry = CATALOG_UNALLOCATED then .hole
      else
        let slotSize := r.bitmapSize + r.extentSize
        .stored (r.dataOffset + catalogEntry * slotSize + r.bitmapSize)

/-- The map of a Bochs image; its `readAt` is `read_at`. -/
def BochsReader.map : DiskMap where
  parent := r.parent
  virtualSize := r.virtualSize
  piece := blockPiece r.extentSize (fun offset => .ok (r.extent (offset / r.extentSize)))

theorem new_spec {parent : Reader} {r : BochsReader} (h : new parent = .ok r) :
    r.parent = parent ∧ 0 < r.extentSize := by
  simp only [new, bind_eq_ok, require_eq_ok, pure, Except.pure, Except.ok.injEq] at h
  obtain ⟨header, -, -, -, -, -, -, -, -, -, -, hsize, -, -, -, -, rfl⟩ := h
  exact ⟨rfl, lt_of_lt_of_le (by decide) hsize.1⟩

end Bochs

end Mountin
