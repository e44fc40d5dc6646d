import Mountin.Disk.Exposes
import Mountin.Disk.Transparent

set_option autoImplicit false

/-! # Tables of disk images

The constructors of the disk readers allocate a buffer for a table whose place and size come from
the header. Some ask `checked_table_size` first, which bounds the buffer and keeps it inside the
image; the others allocate what the header says.

* `TableRequest` : a buffer that is allocated. In each format, `readHeader` is the constructor up to
  the allocation, `TableHeader.table` the buffer, and `new_eq_table` the rest of the constructor.
* `DiskFormat.tables` : the buffers that the constructor of a format allocates.
* `tables_bounded_iff` : all are bounded exactly when the header of a format without the check
  describes such a table.
-/

namespace Mountin

/-- A buffer for a table at an offset: its size as an exact number, and whether a shift, sum or
product on the way to it overflows. -/
structure TableRequest where
  offset : Nat
  bytes : Nat
  overflow : Bool

/-- The buffer is at most `MAX_TABLE_SIZE` bytes, lies inside an image of so many bytes, and its size
was computed without overflow. -/
structure TableRequest.Bounded (t : TableRequest) (size : Nat) : Prop where
  exact : t.overflow = false
  small : t.bytes ≤ MAX_TABLE_SIZE
  inside : t.offset + t.bytes ≤ size

/-- The buffer for a table that `checked_table_size` accepts. -/
def checkedTable (reader : Reader) (offset entries entrySize : Nat) : Except IoError TableRequest := do
  let bytes ← checkedTableSize reader offset entries entrySize
  return ⟨offset, bytes, false⟩

theorem checkedTable_bounded {image : Image} {offset entries entrySize : Nat} {t : TableRequest}
    (h : checkedTable (fileReader image) offset entries entrySize = .ok t) :
    t.Bounded image.bytes.length := by
  obtain ⟨bytes, hbytes, h⟩ := bind_eq_ok.mp h
  obtain rfl := Except.ok.inj h
  obtain ⟨rfl, hinside⟩ := checkedTableSize_eq_ok hbytes
  obtain ⟨_, hsmall, -⟩ := bind_eq_ok.mp hbytes
  exact ⟨rfl, (require_eq_ok.mp hsmall).2, hinside⟩

/-! ## Formats without the check -/

/-- The header of a QCOW2 image. -/
structure Qcow2.TableHeader where
  clusterBits : Nat
  virtualSize : Nat
  l1Size : Nat
  l1TableOffset : Nat

namespace Qcow2

def readHeader (parent : Reader) : Except IoError TableHeader := do
  let header ← readExactly parent 0 0x30 (.unexpectedEof "short header read")
  require (beField header 0 4 = QCOW_MAGIC) (.invalidData "invalid QCOW2 magic")
  require (2 ≤ beField header 4 4) (.invalidData "not QCOW2 (version < 2)")
  let clusterBits := beField header 0x14 4
  let virtualSize := beField header 0x18 8
  let l1Size := beField header 0x24 4
  let l1TableOffset := beField header 0x28 8
  require (9 ≤ clusterBits ∧ clusterBits ≤ 21) (.invalidData "invalid cluster_bits")
  return ⟨clusterBits, virtualSize, l1Size, l1TableOffset⟩

def TableHeader.table (h : TableHeader) : TableRequest := ⟨h.l1TableOffset, h.l1Size * 8, false⟩

theorem new_eq_table (parent : Reader) : new parent = do
    let h ← readHeader parent
    let l1Data ← readExactly parent h.table.offset h.table.bytes (.unexpectedEof "short L1 table read")
    return ⟨parent, tableOf beField 8 l1Data, h.clusterBits, h.virtualSize⟩ := by
  simp only [new, readHeader, bind_assoc, pure_bind, TableHeader.table]

/-- At most `2^23` entries, inside the image. -/
def TableHeader.Admitted (h : TableHeader) (size : Nat) : Prop :=
  h.l1Size ≤ 2 ^ 23 ∧ h.l1TableOffset + h.l1Size * 8 ≤ size

end Qcow2

/-- The header of a QCOW image. -/
structure Qcow.TableHeader where
  virtualSize : Nat
  clusterBits : Nat
  l2Bits : Nat
  l1TableOffset : Nat

namespace Qcow

def readHeader (parent : Reader) : Except IoError TableHeader := do
  let header ← readExactly parent 0 48 (.unexpectedEof "short header read")
  require (beField header 0 4 = QCOW_MAGIC) (.invalidData "invalid QCOW magic")
  require (beField header 4 4 = QCOW_VERSION) (.invalidData "not QCOW v1")
  let virtualSize := beField header 24 8
  let clusterBits := beField header 32 1
  let l2Bits := beField header 33 1
  let l1TableOffset := beField header 40 8
  require (9 ≤ clusterBits ∧ clusterBits ≤ 20) (.invalidData "invalid cluster_bits")
  return ⟨virtualSize, clusterBits, l2Bits, l1TableOffset⟩

/-- What an entry of the table covers. -/
def TableHeader.coverage (h : TableHeader) : Nat := 2 ^ (h.clusterBits + h.l2Bits)

/-- The shifts are by less than a word, and the rounding does not overflow. -/
def TableHeader.table (h : TableHeader) : TableRequest where
  offset := h.l1TableOffset
  bytes := (h.virtualSize + h.coverage - 1) / h.coverage * 8
  overflow := decide (64 ≤ h.clusterBits + h.l2Bits ∨ 2 ^ 64 ≤ h.virtualSize + h.coverage)

/-- `l1_bytes`, as the constructor computes it. -/
def TableHeader.l1Bytes (h : TableHeader) : Nat :=
  wrap (wrap (h.virtualSize + shiftOf (h.clusterBits + h.l2Bits) - 1)
    / shiftOf (h.clusterBits + h.l2Bits) * 8)

theorem new_eq_table (parent : Reader) : new parent = do
    let h ← readHeader parent
    let l1Data ← readExactly parent h.table.offset h.l1Bytes (.unexpectedEof "short L1 table read")
    return ⟨parent, tableOf beField 8 l1Data, h.clusterBits, h.l2Bits, h.virtualSize⟩ := by
  simp only [new, readHeader, bind_assoc, pure_bind, TableHeader.table, TableHeader.l1Bytes]

/-- Without overflow the constructor allocates the exact size. -/
theorem TableHeader.l1Bytes_eq {h : TableHeader} (hexact : h.table.overflow = false)
    (hbits : 3 ≤ h.clusterBits) : h.l1Bytes = h.table.bytes := by
  simp only [table, decide_eq_false_iff_not, not_or, Nat.not_le] at hexact
  obtain ⟨hshift, hsum⟩ := hexact
  have hcoverage : shiftOf (h.clusterBits + h.l2Bits) = h.coverage := by
    rw [shiftOf, Nat.mod_eq_of_lt hshift, coverage]
  have hpos : 2 ^ 3 ≤ h.coverage := Nat.pow_le_pow_right (by decide) (by omega)
  have hround : wrap (h.virtualSize + h.coverage - 1) = h.virtualSize + h.coverage - 1 :=
    Nat.mod_eq_of_lt (by omega)
  have hbytes : (h.virtualSize + h.coverage - 1) / h.coverage * 8 < 2 ^ 64 :=
    calc (h.virtualSize + h.coverage - 1) / h.coverage * 8
        ≤ (h.virtualSize + h.coverage - 1) / h.coverage * h.coverage := Nat.mul_le_mul_left _ hpos
      _ ≤ h.virtualSize + h.coverage - 1 := Nat.div_mul_le_self _ _
      _ < 2 ^ 64 := by omega
  rw [l1Bytes, hcoverage, hround]
  exact Nat.mod_eq_of_lt hbytes

/-- The sum of the bits is below a word, the rounded size is, and the table has at most `2^23`
entries, inside the image. -/
def TableHeader.Admitted (h : TableHeader) (size : Nat) : Prop :=
  h.clusterBits + h.l2Bits < 64 ∧ h.virtualSize + h.coverage < 2 ^ 64 ∧
    h.virtualSize ≤ 2 ^ 23 * h.coverage ∧
    h.l1TableOffset + (h.virtualSize + h.coverage - 1) / h.coverage * 8 ≤ size

end Qcow

/-- The header of a VDI image. -/
structure Vdi.TableHeader where
  offsetBmap : Nat
  offsetData : Nat
  diskSize : Nat
  blockSize : Nat
  blocksInImage : Nat

namespace Vdi

def readHeader (parent : Reader) : Except IoError TableHeader := do
  let buf ← parent.readAt 0 0x188
  require (0x184 ≤ buf.length) (.unexpectedEof "short header read")
  let header := buf ++ List.replicate (0x188 - buf.length) 0
  require (leField header 0x40 4 = VDI_SIGNATURE) (.invalidData "invalid VDI signature")
  let offsetBmap := leField header 0x154 4
  let offsetData := leField header 0x158 4
  let diskSize := leField header 0x170 8
  let blockSize := leField header 0x178 4
  let blocksInImage := leField header 0x180 4
  require (blockSize ≠ 0) (.invalidData "invalid block_size")
  return ⟨offsetBmap, offsetData, diskSize, blockSize, blocksInImage⟩

def TableHeader.table (h : TableHeader) : TableRequest := ⟨h.offsetBmap, h.blocksInImage * 4, false⟩

theorem new_eq_table (parent : Reader) : new parent = do
    let h ← readHeader parent
    let bmapData ← readExactly parent h.table.offset h.table.bytes
      (.unexpectedEof "short block map read")
    return ⟨parent, tableOf leField 4 bmapData, h.blockSize, h.offsetData, h.diskSize⟩ := by
  simp only [new, readHeader, bind_assoc, pure_bind, TableHeader.table]

/-- At most `2^24` entries, inside the image. -/
def TableHeader.Admitted (h : TableHeader) (size : Nat) : Prop :=
  h.blocksInImage ≤ 2 ^ 24 ∧ h.offsetBmap + h.blocksInImage * 4 ≤ size

end Vdi

/-- The dynamic header of a VHD image. -/
structure Vhd.TableHeader where
  tableOffset : Nat
  maxTableEntries : Nat
  blockSize : Nat

namespace Vhd

def readDynamicHeader (parent : Reader) (dataOffset : Nat) : Except IoError TableHeader := do
  let dynHeader ← readExactly parent dataOffset 1024 (.unexpectedEof "short dynamic header read")
  require (dynHeader.slice 0 8 = VHD_DYNAMIC_MAGIC)
    (.invalidData "invalid VHD dynamic header magic")
  let tableOffset := beField dynHeader 0x10 8
  let maxTableEntries := beField dynHeader 0x1c 4
  let blockSize := beField dynHeader 0x20 4
  require (blockSize ≠ 0) (.invalidData "invalid block_size")
  return ⟨tableOffset, maxTableEntries, blockSize⟩

/-- The dynamic header, except in a fixed image. -/
def readHeader (parent : Reader) : Except IoError (Nat × Option TableHeader) := do
  let footer ← readExactly parent 0 512 (.unexpectedEof "short footer read")
  require (footer.slice 0 8 = VHD_MAGIC) (.invalidData "invalid VHD magic")
  let dataOffset := beField footer 0x10 8
  let virtualSize := beField footer 0x30 8
  let diskType := beField footer 0x3c 4
  if diskType = VHD_FIXED then return (virtualSize, none)
  else if diskType = VHD_DYNAMIC ∨ diskType = VHD_DIFFERENCING then
    let h ← readDynamicHeader parent dataOffset
    return (virtualSize, some h)
  else .error (.invalidData "unknown VHD type")

def TableHeader.table (h : TableHeader) : TableRequest :=
  ⟨h.tableOffset, h.maxTableEntries * 4, false⟩

/-- The variant of a header. -/
def variantOf (parent : Reader) : Option TableHeader → Except IoError VhdVariant
  | none => .ok .fixed
  | some h => do
      let batData ← readExactly parent h.table.offset h.table.bytes (.unexpectedEof "short BAT read")
      return .dynamic (tableOf beField 4 batData) h.blockSize
        (((h.blockSize / 512 + 7) / 8 + 511) / 512 * 512)

theorem new_eq_table (parent : Reader) : new parent = do
    let (virtualSize, h) ← readHeader parent
    let variant ← variantOf parent h
    return ⟨parent, variant, virtualSize⟩ := by
  simp only [new, readHeader, bind_assoc, readVariant]
  refine bind_congr fun footer => bind_congr fun _ => ?_
  split
  · rfl
  split
  · simp only [readDynamic, readDynamicHeader, variantOf, bind_assoc, pure_bind, TableHeader.table]
  · rfl

/-- At most `2^24` entries, inside the image. -/
def TableHeader.Admitted (h : TableHeader) (size : Nat) : Prop :=
  h.maxTableEntries ≤ 2 ^ 24 ∧ h.tableOffset + h.maxTableEntries * 4 ≤ size

end Vhd

/-- What the regions and metadata of a VHDX image say. -/
structure Vhdx.TableHeader where
  batOffset : Nat
  batLength : Nat
  virtualSize : Nat
  blockSize : Nat

namespace Vhdx

def readHeader (parent : Reader) : Except IoError TableHeader := do
  let sig ← parent.readAt 0 8
  require (sig.length = 8 ∧ sig = VHDX_FILE_SIGNATURE) (.invalidData "invalid VHDX signature")
  let regionHeader ← readExactly parent 0x30000 16 (.unexpectedEof "short region header read")
  require (leField regionHeader 0 4 = VHDX_REGION_SIGNATURE)
    (.invalidData "invalid region table signature")
  let entryCount := leField regionHeader 8 4
  let regions ← readRegions parent (min entryCount 2047) 0 {}
  require (regions.batOffset ≠ 0 ∧ regions.metadataOffset ≠ 0)
    (.invalidData "missing BAT or metadata region")
  let (virtualSize, blockSize) ← parseMetadata parent regions.metadataOffset
  return ⟨regions.batOffset, regions.batLength, virtualSize, blockSize⟩

def TableHeader.table (h : TableHeader) : TableRequest := ⟨h.batOffset, h.batLength / 8 * 8, false⟩

theorem new_eq_table (parent : Reader) : new parent = do
    let h ← readHeader parent
    let batData ← parent.readAt h.table.offset h.table.bytes
    return ⟨parent, tableOf leField 8 batData, h.blockSize, h.virtualSize⟩ := by
  simp only [new, readHeader, bind_assoc, pure_bind, TableHeader.table]

/-- At most `MAX_TABLE_SIZE` bytes in whole entries, inside the image. -/
def TableHeader.Admitted (h : TableHeader) (size : Nat) : Prop :=
  h.batLength < 2 ^ 26 + 8 ∧ h.batOffset + h.batLength / 8 * 8 ≤ size

end Vhdx

/-- The header of a Bochs image. -/
structure Bochs.TableHeader where
  headerSize : Nat
  catalogSize : Nat
  bitmapSize : Nat
  extentSize : Nat
  diskSize : Nat

namespace Bochs

def readHeader (parent : Reader) : Except IoError TableHeader := do
  let header ← parent.readAt 0 96
  require (96 ≤ header.length) (.unexpectedEof "short Bochs header read")
  require (header.slice 0 22 = BOCHS_MAGIC) (.invalidData "invalid Bochs magic")
  require (header.slice 32 7 = REDOLOG_TYPE) (.invalidData "not a Bochs Redolog image")
  require (header.slice 48 7 = GROWING_SUBTYPE) (.invalidData "not a Bochs Growing image")
  let version := leField header 64 4
  let headerSize := leField header 68 4
  let catalogSize := leField header 72 4
  let bitmapSize := leField header 76 4
  let extentSize := leField header 80 4
  let diskSize := if version = 0x00010000 then leField header 84 8 else leField header 88 8
  require (512 ≤ extentSize ∧ extentSize &&& (extentSize - 1) = 0)
    (.invalidData "invalid Bochs extent_size")
  require (catalogSize ≤ 1024 * 1024) (.invalidData "Bochs catalog too large")
  return ⟨headerSize, catalogSize, bitmapSize, extentSize, diskSize⟩

def TableHeader.table (h : TableHeader) : TableRequest := ⟨h.headerSize, h.catalogSize * 4, false⟩

theorem new_eq_table (parent : Reader) : new parent = do
    let h ← readHeader parent
    let catalogData ← readExactly parent h.table.offset h.table.bytes
      (.unexpectedEof "short Bochs catalog read")
    return ⟨parent, tableOf leField 4 catalogData, h.extentSize, (h.bitmapSize + 511) / 512 * 512,
      h.headerSize + h.table.bytes, h.diskSize⟩ := by
  simp only [new, readHeader, bind_assoc, pure_bind, TableHeader.table]

theorem readHeader_small {parent : Reader} {h : TableHeader} (hread : readHeader parent = .ok h) :
    h.catalogSize ≤ 2 ^ 20 := by
  simp only [readHeader, bind_eq_ok, require_eq_ok, pure, Except.pure, Except.ok.injEq] at hread
  obtain ⟨header, -, -, -, -, -, -, -, -, -, -, -, -, hsize, rfl⟩ := hread
  exact hsize

/-- The catalogue, which the constructor keeps small, is inside the image. -/
def TableHeader.Admitted (h : TableHeader) (size : Nat) : Prop :=
  h.headerSize + h.catalogSize * 4 ≤ size

end Bochs

/-- The trailer of a DMG image, as far as it is about the property list. -/
structure Dmg.TableHeader where
  dataForkOffset : Nat
  xmlOffset : Nat
  xmlLength : Nat

namespace Dmg

def readHeader (parent : Reader) : Except IoError TableHeader := do
  let readable ← probe parent 0
  require (readable = true) (.unexpectedEof "empty file")
  let kolyOffset ← findKoly parent
  let trailer ← readExactly parent kolyOffset 512 (.unexpectedEof "short koly trailer read")
  require (trailer.slice 0 4 = KOLY_MAGIC) (.invalidData "invalid DMG koly magic")
  let dataForkOffset := beField trailer 0x18 8
  let xmlOffset := beField trailer 0xd8 8
  let xmlLength := beField trailer 0xe0 8
  require (xmlLength ≠ 0 ∧ xmlLength ≤ 100 * 1024 * 1024) (.invalidData "invalid XML length")
  return ⟨dataForkOffset, xmlOffset, xmlLength⟩

def TableHeader.table (h : TableHeader) : TableRequest := ⟨h.xmlOffset, h.xmlLength, false⟩

theorem new_eq_table (parent : Reader) : new parent = do
    let h ← readHeader parent
    let xmlData ← readExactly parent h.table.offset h.table.bytes (.unexpectedEof "short XML read")
    let chunks ← parsePlistBlkx xmlData h.dataForkOffset
    let virtualSize ← virtualSizeOf chunks
    return ⟨parent, chunks, virtualSize⟩ := by
  simp only [new, readHeader, bind_assoc, pure_bind, TableHeader.table]

/-- The property list has the bound of tables, not only its own, and is inside the image. -/
def TableHeader.Admitted (h : TableHeader) (size : Nat) : Prop :=
  h.xmlLength ≤ 2 ^ 26 ∧ h.xmlOffset + h.xmlLength ≤ size

end Dmg

/-! ## Formats with the check -/

/-- The header of a cloop image: its block size, the number of blocks, and the table. -/
def Cloop.readHeader (parent : Reader) : Except IoError (Nat × Nat × TableRequest) := do
  let header ← readExactly parent HEADER_OFFSET 8 (.unexpectedEof "short cloop header read")
  let blockSize := beField header 0 4
  let nBlocks := beField header 4 4
  require (blockSize ≠ 0 ∧ blockSize ≤ MAX_BLOCK_SIZE ∧ blockSize % 512 = 0)
    (.invalidData "invalid cloop block_size")
  let tableEntries ← checked (nBlocks + 1) (.invalidData "cloop table size overflow")
  let table ← checkedTable parent (HEADER_OFFSET + 8) tableEntries 8
  return (blockSize, nBlocks, table)

/-- The header of a Parallels image: cluster size, virtual size, whether the image is extended, and
the table. -/
def Parallels.readHeader (parent : Reader) : Except IoError (Nat × Nat × Bool × TableRequest) := do
  let header ← readExactly parent 0 64 (.unexpectedEof "short header read")
  let magic := header.slice 0 16
  require (magic = MAGIC_EXT ∨ magic = MAGIC_OLD) (.invalidData "invalid Parallels magic")
  require (leField header 16 4 = 2) (.invalidData "unsupported Parallels version")
  let tracks := leField header 28 4
  let batEntries := leField header 32 4
  let nbSectors := leField header 36 8
  let clusterSize ← checked (tracks * SECTOR_SIZE) (.invalidData "invalid Parallels tracks")
  require (clusterSize ≠ 0) (.invalidData "invalid Parallels tracks")
  let virtualSize ← checked (nbSectors * SECTOR_SIZE)
    (.invalidData "Parallels virtual size overflow")
  let table ← checkedTable parent HEADER_SIZE batEntries 4
  return (clusterSize, virtualSize, decide (magic = MAGIC_EXT), table)

/-- The header of a QED image: cluster size, entries of a second table, virtual size, and the first
table. -/
def Qed.readHeader (parent : Reader) : Except IoError (Nat × Nat × Nat × TableRequest) := do
  let header ← readExactly parent 0 0x38 (.unexpectedEof "short header read")
  require (leField header 0 4 = QED_MAGIC) (.invalidData "invalid QED magic")
  let clusterSize := leField header 0x04 4
  let tableSize := leField header 0x08 4
  let l1TableOffset := leField header 0x28 8
  let virtualSize := leField header 0x30 8
  require (QED_MIN_CLUSTER_SIZE ≤ clusterSize ∧ clusterSize ≤ QED_MAX_CLUSTER_SIZE ∧
    isPowerOfTwo clusterSize = true) (.invalidData "invalid cluster_size")
  require (tableSize ≠ 0 ∧ tableSize ≤ QED_MAX_TABLE_SIZE ∧ isPowerOfTwo tableSize = true)
    (.invalidData "invalid QED table_size")
  let l1BytesU64 ← checked (tableSize * clusterSize) (.invalidData "QED table size overflow")
  let table ← checkedTable parent l1TableOffset (l1BytesU64 / 8) 8
  return (clusterSize, l1BytesU64 / 8, virtualSize, table)

namespace Vmdk

/-- The header of a COWD image: grain size, virtual size, and the table. -/
def readHeader3 (parent : Reader) : Except IoError (Nat × Nat × TableRequest) := do
  let header ← readExactly parent 4 44 (.unexpectedEof "short VMDK3 header")
  let diskSectors := leField header 8 4
  let granularity := leField header 12 4
  let l1dirOffset := leField header 16 4
  let l1dirSize := leField header 20 4
  let grainSize ← checked (granularity * 512) (.invalidData "invalid VMDK3 granularity")
  require (grainSize ≠ 0) (.invalidData "invalid VMDK3 granularity")
  let virtualSize ← checked (diskSectors * 512) (.invalidData "VMDK3 virtual size overflow")
  let l1Offset ← checked (l1dirOffset * 512) (.invalidData "VMDK3 L1 offset overflow")
  let table ← checkedTable parent l1Offset l1dirSize 4
  return (grainSize, virtualSize, table)

/-- The header of a KDMV image: its flags, the entries of a grain table, grain size, virtual size,
and the grain directory. -/
def readHeader4 (parent : Reader) : Except IoError (Nat × Nat × Nat × Nat × TableRequest) := do
  let header ← readExactly parent 0 80 (.unexpectedEof "short VMDK4 header")
  let flags := leField header 8 4
  let capacity := leField header 12 8
  let granularity := leField header 20 8
  let numGtesPerGt := leField header 44 4
  let gdOffset := leField header 56 8
  let grainSize ← checked (granularity * 512) (.invalidData "invalid VMDK4 granularity")
  require (grainSize ≠ 0) (.invalidData "invalid VMDK4 granularity")
  let virtualSize ← checked (capacity * 512) (.invalidData "VMDK4 virtual size overflow")
  require (numGtesPerGt ≠ 0) (.invalidData "invalid VMDK4 grain table size")
  let gtCoverage ← checked (numGtesPerGt * grainSize)
    (.invalidData "VMDK4 grain table coverage overflow")
  let gdByteOffset ← checked (gdOffset * 512)
    (.invalidData "VMDK4 grain directory offset overflow")
  let table ← checkedTable parent gdByteOffset ((virtualSize + gtCoverage - 1) / gtCoverage) 4
  return (flags, numGtesPerGt, grainSize, virtualSize, table)

/-- The header of a seSparse image: virtual size, grain size, the entries of a grain table, and the
grain directory. -/
def readHeaderSe (parent : Reader) : Except IoError (Nat × Nat × Nat × TableRequest) := do
  let header ← readExactly parent 0 64 (.unexpectedEof "short seSparse header")
  let capacity := leField header 16 8
  let grainSizeBytes := leField header 24 8
  let gtSize := leField header 32 8
  let gdOffset := leField header 40 8
  let gtCoverage ← checked (gtSize * grainSizeBytes)
    (.invalidData "invalid seSparse grain table size")
  require (gtCoverage ≠ 0) (.invalidData "invalid seSparse grain table size")
  let table ← checkedTable parent gdOffset ((capacity + gtCoverage - 1) / gtCoverage) 8
  return (capacity, grainSizeBytes, gtSize, table)

/-- The table of the variant that the magic names. -/
def table (parent : Reader) : Except IoError TableRequest := do
  let buf ← parent.readAt 0 8
  require (4 ≤ buf.length) (.unexpectedEof "short magic read")
  let magicBuf := buf ++ List.replicate (8 - buf.length) 0
  if leField magicBuf 0 4 = VMDK3_MAGIC then return (← readHeader3 parent).2.2
  else if leField magicBuf 0 4 = VMDK4_MAGIC then return (← readHeader4 parent).2.2.2.2
  else if leField magicBuf 0 8 = SESPARSE_MAGIC then return (← readHeaderSe parent).2.2.2
  else .error (.invalidData "invalid VMDK magic")

end Vmdk

namespace Ewf

/-- The buffer for the entries of a table section. -/
def tableAt (reader : Reader) (pos : Nat) : Except IoError TableRequest := do
  let tblStart := wrap (pos + SECTION_DESCRIPTOR_SIZE)
  let tblCount ← readLe reader 4 tblStart
  let entriesStart ← checked (tblStart + TABLE_HEADER_SIZE)
    (.invalidData "EWF table offset overflow")
  checkedTable reader entriesStart tblCount 4

/-- The buffers that the section loop allocates: one for each table section that it comes to before
it has entries. -/
def tablesFrom (reader : Reader) : (fuel pos : Nat) → SectionInfo → List TableRequest
  | 0, _, _ => []
  | fuel + 1, pos, info =>
      match readExactly reader pos 16 (.unexpectedEof "short section descriptor read"),
        readLe reader 8 (pos + 16) with
      | .ok typeBuf, .ok nextOffset =>
          let typ := sectionType typeBuf
          let here :=
            if typ = .table ∧ info.chunkOffsets = [] then (tableAt reader pos).toOption.toList else []
          match readSection reader pos nextOffset typ info with
          | .error _ => here
          | .ok info =>
              if typ = .done ∨ nextOffset = pos ∨ nextOffset = 0 then here
              else if nextOffset < pos ∨
                  (∃ size ∈ reader.size, size - SECTION_DESCRIPTOR_SIZE < nextOffset) then here
              else here ++ tablesFrom reader fuel nextOffset info
      | _, _ => []

end Ewf

section

variable (parent : Reader)

theorem Cloop.new_eq_table : new parent = do
    let (blockSize, nBlocks, t) ← readHeader parent
    let tableData ← readExactly parent t.offset t.bytes (.unexpectedEof "short cloop offset table read")
    let offsets := tableOf beField 8 tableData
    require ((∀ offset ∈ offsets.head?, t.offset + t.bytes ≤ offset) ∧
        (∀ pair ∈ offsets.zip offsets.tail, pair.1 ≤ pair.2) ∧
        ∀ size ∈ parent.size, ∀ offset ∈ offsets.getLast?, offset ≤ size)
      (.invalidData "invalid cloop block offsets")
    return ⟨parent, offsets, blockSize, nBlocks * blockSize⟩ := by
  simp only [new, readHeader, checkedTable, bind_assoc, pure_bind]

theorem Parallels.new_eq_table : new parent = do
    let (clusterSize, virtualSize, extended, t) ← readHeader parent
    let batBytes ← readExactly parent t.offset t.bytes (.unexpectedEof "short BAT read")
    return ⟨parent, tableOf leField 4 batBytes, clusterSize, virtualSize, extended⟩ := by
  simp only [new, readHeader, checkedTable, bind_assoc, pure_bind]

theorem Qed.new_eq_table : new parent = do
    let (clusterSize, l2Entries, virtualSize, t) ← readHeader parent
    let l1Data ← readExactly parent t.offset t.bytes (.unexpectedEof "short L1 table read")
    return ⟨parent, tableOf leField 8 l1Data, clusterSize, l2Entries, virtualSize⟩ := by
  simp only [new, readHeader, checkedTable, bind_assoc, pure_bind]

theorem Vmdk.parseVmdk3_eq : parseVmdk3 parent = do
    let (grainSize, virtualSize, t) ← readHeader3 parent
    let l1Data ← readExactly parent t.offset t.bytes (.unexpectedEof "short VMDK3 L1 read")
    return ⟨parent, .vmdk3 (tableOf leField 4 l1Data), grainSize, virtualSize⟩ := by
  simp only [parseVmdk3, readHeader3, checkedTable, bind_assoc, pure_bind]

theorem Vmdk.parseVmdk4_eq : parseVmdk4 parent = do
    let (flags, numGtesPerGt, grainSize, virtualSize, t) ← readHeader4 parent
    let gdData ← parent.readAt t.offset t.bytes
    let gd := tableOf leField 4 gdData
    let variant :=
      if decide (flags &&& VMDK4_FLAG_COMPRESS ≠ 0) then .vmdk4Compressed gd numGtesPerGt
      else .vmdk4 gd numGtesPerGt (decide (flags &&& VMDK4_FLAG_ZERO_GRAIN ≠ 0))
    return ⟨parent, variant, grainSize, virtualSize⟩ := by
  simp only [parseVmdk4, readHeader4, checkedTable, bind_assoc, pure_bind]

theorem Vmdk.parseSesparse_eq : parseSesparse parent = do
    let (capacity, grainSizeBytes, gtSize, t) ← readHeaderSe parent
    let gdData ← parent.readAt t.offset t.bytes
    return ⟨parent, .seSparse (tableOf leField 8 gdData) gtSize, grainSizeBytes, capacity⟩ := by
  simp only [parseSesparse, readHeaderSe, checkedTable, bind_assoc, pure_bind]

theorem Ewf.readTable_eq (pos : Nat) (info : SectionInfo) : readTable parent pos info = do
    let t ← tableAt parent pos
    let entriesData ← readExactly parent t.offset t.bytes (.unexpectedEof "short table read")
    return { info with chunkOffsets := tableOf leField 4 entriesData } := by
  simp only [readTable, tableAt, checkedTable, bind_assoc, pure_bind]

end

section

variable {image : Image} {t : TableRequest}

theorem Cloop.table_bounded {a b : Nat} (h : readHeader (fileReader image) = .ok (a, b, t)) :
    t.Bounded image.bytes.length := by
  simp only [readHeader, bind_eq_ok, pure, Except.pure, Except.ok.injEq, Prod.mk.injEq] at h
  obtain ⟨_, -, _, -, _, -, t', ht, -, -, rfl⟩ := h
  exact checkedTable_bounded ht

theorem Parallels.table_bounded {a b : Nat} {c : Bool}
    (h : readHeader (fileReader image) = .ok (a, b, c, t)) : t.Bounded image.bytes.length := by
  simp only [readHeader, bind_eq_ok, pure, Except.pure, Except.ok.injEq, Prod.mk.injEq] at h
  obtain ⟨_, -, _, -, _, -, _, -, _, -, _, -, t', ht, -, -, -, rfl⟩ := h
  exact checkedTable_bounded ht

theorem Qed.table_bounded {a b c : Nat} (h : readHeader (fileReader image) = .ok (a, b, c, t)) :
    t.Bounded image.bytes.length := by
  simp only [readHeader, bind_eq_ok, pure, Except.pure, Except.ok.injEq, Prod.mk.injEq] at h
  obtain ⟨_, -, _, -, _, -, _, -, _, -, t', ht, -, -, -, rfl⟩ := h
  exact checkedTable_bounded ht

theorem Vmdk.table_bounded (h : table (fileReader image) = .ok t) :
    t.Bounded image.bytes.length := by
  simp only [table, bind_eq_ok] at h
  obtain ⟨_, -, _, -, h⟩ := h
  split_ifs at h
  · simp only [readHeader3, bind_eq_ok, pure, Except.pure, Except.ok.injEq] at h
    obtain ⟨_, ⟨_, -, _, -, _, -, _, -, _, -, t', ht, rfl⟩, rfl⟩ := h
    exact checkedTable_bounded ht
  · simp only [readHeader4, bind_eq_ok, pure, Except.pure, Except.ok.injEq] at h
    obtain ⟨_, ⟨_, -, _, -, _, -, _, -, _, -, _, -, _, -, t', ht, rfl⟩, rfl⟩ := h
    exact checkedTable_bounded ht
  · simp only [readHeaderSe, bind_eq_ok, pure, Except.pure, Except.ok.injEq] at h
    obtain ⟨_, ⟨_, -, _, -, _, -, t', ht, rfl⟩, rfl⟩ := h
    exact checkedTable_bounded ht

theorem Ewf.tableAt_bounded {pos : Nat} (h : tableAt (fileReader image) pos = .ok t) :
    t.Bounded image.bytes.length := by
  obtain ⟨_, -, h⟩ := bind_eq_ok.mp h
  obtain ⟨_, -, h⟩ := bind_eq_ok.mp h
  exact checkedTable_bounded h

/-- Every table of a chain of sections is bounded. -/
theorem Ewf.tablesFrom_bounded {fuel pos : Nat} {info : SectionInfo}
    (h : t ∈ tablesFrom (fileReader image) fuel pos info) : t.Bounded image.bytes.length := by
  induction fuel generalizing pos info with
  | zero => cases h
  | succ fuel ih =>
      have hhere : ∀ typ : SectionType, t ∈ (if typ = .table ∧ info.chunkOffsets = [] then
          (tableAt (fileReader image) pos).toOption.toList else []) → t.Bounded image.bytes.length := by
        intro typ hmem
        split at hmem
        · cases htable : tableAt (fileReader image) pos with
          | error e =>
              rw [htable] at hmem
              cases hmem
          | ok t' =>
              rw [htable] at hmem
              obtain rfl := List.mem_singleton.mp hmem
              exact tableAt_bounded htable
        · cases hmem
      rw [tablesFrom] at h
      split at h
      · dsimp only at h
        split at h
        · exact hhere _ h
        · split at h
          · exact hhere _ h
          split at h
          · exact hhere _ h
          · rcases List.mem_append.mp h with h | h
            · exact hhere _ h
            · exact ih h
      · cases h

end

/-! ## All formats -/

/-- The table of a header, when there is one. -/
def tableIn {α : Type} (table : α → Option TableRequest) (header : Except IoError α) :
    List TableRequest := (header.toOption.bind table).toList

theorem mem_tableIn {α : Type} {table : α → Option TableRequest} {header : Except IoError α}
    {t : TableRequest} : t ∈ tableIn table header ↔ ∃ h, header = .ok h ∧ table h = some t := by
  cases header with
  | error e => simp [tableIn, Except.toOption]
  | ok h => simp [tableIn, Except.toOption]

/-- The buffers for tables that the constructor of a format allocates. -/
def DiskFormat.tables (reader : Reader) : DiskFormat → List TableRequest
  | .bochs => tableIn (fun h => some h.table) (Bochs.readHeader reader)
  | .cloop => tableIn (fun h => some h.2.2) (Cloop.readHeader reader)
  | .dmg => tableIn (fun h => some h.table) (Dmg.readHeader reader)
  | .ewf =>
      match readExactly reader 0 8 (.unexpectedEof "short EWF header read") with
      | .error _ => []
      | .ok magic =>
          if magic = Ewf.EWF_MAGIC then Ewf.tablesFrom reader (2 ^ 64) Ewf.FILE_HEADER_SIZE {} else []
  | .parallels => tableIn (fun h => some h.2.2.2) (Parallels.readHeader reader)
  | .qcow => tableIn (fun h => some h.table) (Qcow.readHeader reader)
  | .qcow2 => tableIn (fun h => some h.table) (Qcow2.readHeader reader)
  | .qed => tableIn (fun h => some h.2.2.2) (Qed.readHeader reader)
  | .vdi => tableIn (fun h => some h.table) (Vdi.readHeader reader)
  | .vhd => tableIn (fun h => h.2.map Vhd.TableHeader.table) (Vhd.readHeader reader)
  | .vhdx => tableIn (fun h => some h.table) (Vhdx.readHeader reader)
  | .vmdk => tableIn some (Vmdk.table reader)

/-- The condition on an image: the header of a format without the check describes a table that the
check would accept. -/
def DiskFormat.Admitted (image : Image) : DiskFormat → Prop
  | .bochs => ∀ h, Bochs.readHeader (fileReader image) = .ok h → h.Admitted image.bytes.length
  | .dmg => ∀ h, Dmg.readHeader (fileReader image) = .ok h → h.Admitted image.bytes.length
  | .qcow => ∀ h, Qcow.readHeader (fileReader image) = .ok h → h.Admitted image.bytes.length
  | .qcow2 => ∀ h, Qcow2.readHeader (fileReader image) = .ok h → h.Admitted image.bytes.length
  | .vdi => ∀ h, Vdi.readHeader (fileReader image) = .ok h → h.Admitted image.bytes.length
  | .vhd => ∀ size h, Vhd.readHeader (fileReader image) = .ok (size, some h) →
      h.Admitted image.bytes.length
  | .vhdx => ∀ h, Vhdx.readHeader (fileReader image) = .ok h → h.Admitted image.bytes.length
  | .cloop | .ewf | .parallels | .qed | .vmdk => True

theorem TableRequest.bounded_iff {t : TableRequest} {size : Nat} :
    t.Bounded size ↔ t.overflow = false ∧ t.bytes ≤ MAX_TABLE_SIZE ∧ t.offset + t.bytes ≤ size :=
  ⟨fun h => ⟨h.exact, h.small, h.inside⟩, fun h => ⟨h.1, h.2.1, h.2.2⟩⟩

section

variable {size : Nat}

theorem Qcow.bounded_iff (h : TableHeader) : h.table.Bounded size ↔ h.Admitted size := by
  have hpos : 0 < h.coverage := Nat.two_pow_pos _
  have hsmall : (h.virtualSize + h.coverage - 1) / h.coverage * 8 ≤ MAX_TABLE_SIZE ↔
      h.virtualSize ≤ 2 ^ 23 * h.coverage := by
    have hceil : (h.virtualSize + h.coverage - 1) / h.coverage ≤ 2 ^ 23 ↔
        h.virtualSize ≤ 2 ^ 23 * h.coverage := by
      rw [Nat.div_le_iff_le_mul_add_pred hpos, Nat.mul_comm]
      omega
    rw [← hceil]
    simp only [MAX_TABLE_SIZE]
    omega
  simp only [TableRequest.bounded_iff, TableHeader.table, TableHeader.Admitted, hsmall,
    decide_eq_false_iff_not, not_or, Nat.not_le, and_assoc]

theorem Qcow2.bounded_iff (h : TableHeader) : h.table.Bounded size ↔ h.Admitted size := by
  simp only [TableRequest.bounded_iff, TableHeader.table, TableHeader.Admitted, MAX_TABLE_SIZE,
    true_and]
  omega

theorem Vdi.bounded_iff (h : TableHeader) : h.table.Bounded size ↔ h.Admitted size := by
  simp only [TableRequest.bounded_iff, TableHeader.table, TableHeader.Admitted, MAX_TABLE_SIZE,
    true_and]
  omega

theorem Vhd.bounded_iff (h : TableHeader) : h.table.Bounded size ↔ h.Admitted size := by
  simp only [TableRequest.bounded_iff, TableHeader.table, TableHeader.Admitted, MAX_TABLE_SIZE,
    true_and]
  omega

theorem Vhdx.bounded_iff (h : TableHeader) : h.table.Bounded size ↔ h.Admitted size := by
  simp only [TableRequest.bounded_iff, TableHeader.table, TableHeader.Admitted, MAX_TABLE_SIZE,
    true_and]
  omega

theorem Dmg.bounded_iff (h : TableHeader) : h.table.Bounded size ↔ h.Admitted size := by
  simp only [TableRequest.bounded_iff, TableHeader.table, TableHeader.Admitted, MAX_TABLE_SIZE,
    true_and]
  omega

theorem Bochs.bounded_iff {parent : Reader} {h : TableHeader} (hread : readHeader parent = .ok h) :
    h.table.Bounded size ↔ h.Admitted size := by
  have hsmall := readHeader_small hread
  simp only [TableRequest.bounded_iff, TableHeader.table, TableHeader.Admitted, MAX_TABLE_SIZE,
    true_and]
  omega

end

/-- **Bounded tables.** The constructor of a disk format allocates no table of more than
`MAX_TABLE_SIZE` bytes or outside the image, and computes no size with overflow, exactly when the
format asks `checked_table_size` or the header describes such a table. -/
theorem tables_bounded_iff (format : DiskFormat) (image : Image) :
    (∀ t ∈ format.tables (fileReader image), t.Bounded image.bytes.length) ↔ format.Admitted image := by
  -- one header, one table
  have hone : ∀ {α : Type} {table : α → TableRequest} {header : Except IoError α} {P : α → Prop},
      (∀ h, header = .ok h → ((table h).Bounded image.bytes.length ↔ P h)) →
      ((∀ t ∈ tableIn (fun h => some (table h)) header, t.Bounded image.bytes.length) ↔
        ∀ h, header = .ok h → P h) := by
    intro α table header P hiff
    simp only [mem_tableIn, Option.some.injEq]
    constructor
    · exact fun hall h hh => (hiff h hh).mp (hall _ ⟨h, hh, rfl⟩)
    · rintro hall _ ⟨h, hh, rfl⟩
      exact (hiff h hh).mpr (hall h hh)
  -- a header behind the check
  have hchecked : ∀ {α : Type} {table : α → Option TableRequest} {header : Except IoError α},
      (∀ h t, header = .ok h → table h = some t → t.Bounded image.bytes.length) →
      ((∀ t ∈ tableIn table header, t.Bounded image.bytes.length) ↔ True) := by
    intro α table header hbounded
    refine iff_of_true (fun t ht => ?_) trivial
    obtain ⟨h, hh, ht⟩ := mem_tableIn.mp ht
    exact hbounded h t hh ht
  cases format with
  | bochs => exact hone fun h hh => Bochs.bounded_iff hh
  | dmg => exact hone fun h _ => Dmg.bounded_iff h
  | qcow => exact hone fun h _ => Qcow.bounded_iff h
  | qcow2 => exact hone fun h _ => Qcow2.bounded_iff h
  | vdi => exact hone fun h _ => Vdi.bounded_iff h
  | vhdx => exact hone fun h _ => Vhdx.bounded_iff h
  | vhd =>
      simp only [DiskFormat.tables, DiskFormat.Admitted, mem_tableIn, Option.map_eq_some_iff]
      constructor
      · exact fun hall size h hh => (Vhd.bounded_iff h).mp (hall _ ⟨_, hh, h, rfl, rfl⟩)
      · rintro hall _ ⟨⟨vsize, _⟩, hh, h, rfl, rfl⟩
        exact (Vhd.bounded_iff h).mpr (hall vsize h hh)
  | cloop => exact hchecked fun _ _ hh ht => Option.some.inj ht ▸ Cloop.table_bounded hh
  | parallels => exact hchecked fun _ _ hh ht => Option.some.inj ht ▸ Parallels.table_bounded hh
  | qed => exact hchecked fun _ _ hh ht => Option.some.inj ht ▸ Qed.table_bounded hh
  | vmdk => exact hchecked fun _ _ hh ht => Option.some.inj ht ▸ Vmdk.table_bounded hh
  | ewf =>
      refine iff_of_true (fun t ht => ?_) trivial
      simp only [DiskFormat.tables] at ht
      split at ht
      · cases ht
      · split at ht
        · exact Ewf.tablesFrom_bounded ht
        · cases ht

/-! ## A small image with a large table -/

/-- The header of a QCOW2 image of 48 bytes, with an L1 table of as many entries as a `u32` counts. -/
def greedyImage : Image :=
  ⟨[0x51, 0x46, 0x49, 0xfb, 0, 0, 0, 2] ++ List.replicate 12 0 ++ [0, 0, 0, 9] ++
    List.replicate 12 0 ++ [0xff, 0xff, 0xff, 0xff] ++ List.replicate 8 0, by decide⟩

/-- The constructor allocates nearly 32 GiB for it, before it sees that the table is not there. -/
theorem greedy_table :
    ¬ (∀ (format : DiskFormat) (image : Image), ∀ t ∈ format.tables (fileReader image),
        t.Bounded image.bytes.length) ∧
      DiskFormat.qcow2.tables (fileReader greedyImage) = [⟨0, (2 ^ 32 - 1) * 8, false⟩] := by
  have htables : DiskFormat.qcow2.tables (fileReader greedyImage) =
      [⟨0, (2 ^ 32 - 1) * 8, false⟩] := rfl
  refine ⟨fun h => ?_, htables⟩
  have hsmall := (h .qcow2 greedyImage _ (htables ▸ List.mem_singleton_self _)).small
  exact absurd hsmall (by decide)

end Mountin
