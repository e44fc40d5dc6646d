import Mountin.Disk.Fields
import Mountin.Disk.Map

set_option autoImplicit false

/-! # cloop and EWF images

`cloop.rs` and `ewf.rs`: the disk is cut into chunks that are compressed one by one and found
through a table of offsets. Every read unpacks the chunk it starts in.
-/

namespace Mountin

/-! ## cloop -/

namespace Cloop

def HEADER_OFFSET : Nat := 128
def MAX_BLOCK_SIZE : Nat := 64 * 1024 * 1024

/-- `CloopReader`. -/
structure CloopReader where
  parent : Reader
  offsets : List Nat
  blockSize : Nat
  virtualSize : Nat

/-- `CloopReader::new`. -/
def new (parent : Reader) : Except IoError CloopReader := do
  let header ← readExactly parent HEADER_OFFSET 8 (.unexpectedEof "short cloop header read")
  let blockSize := beField header 0 4
  let nBlocks := beField header 4 4
  require (blockSize ≠ 0 ∧ blockSize ≤ MAX_BLOCK_SIZE ∧ blockSize % 512 = 0)
    (.invalidData "invalid cloop block_size")
  let tableEntries ← checked (nBlocks + 1) (.invalidData "cloop table size overflow")
  let tableOffset := HEADER_OFFSET + 8
  let tableBytes ← checkedTableSize parent tableOffset tableEntries 8
  let tableData ← readExactly parent tableOffset tableBytes
    (.unexpectedEof "short cloop offset table read")
  let offsets := tableOf beField 8 tableData
  let tableEnd := tableOffset + tableBytes
  require ((∀ offset ∈ offsets.head?, tableEnd ≤ offset) ∧
      (∀ pair ∈ offsets.zip offsets.tail, pair.1 ≤ pair.2) ∧
      ∀ size ∈ parent.size, ∀ offset ∈ offsets.getLast?, offset ≤ size)
    (.invalidData "invalid cloop block offsets")
  return { parent, offsets, blockSize, virtualSize := nBlocks * blockSize }

variable (zlib : ReadExact) (r : CloopReader)

/-- `decompress_block`. -/
def CloopReader.decompressBlock (blockIdx : Nat) : Except IoError Bytes :=
  match r.offsets[blockIdx]?, r.offsets[blockIdx + 1]? with
  | some start, some fin => do
      require (start ≤ fin ∧ fin - start ≤ zlibBound r.blockSize)
        (.invalidData "invalid cloop compressed block size")
      let compressed ← readExactly r.parent start (fin - start)
        (.unexpectedEof "short cloop block read")
      zlib compressed r.blockSize
  | _, _ => .error (.invalidInput "block index out of range")

/-- The map of a cloop image; its `readAt` is `read_at`. -/
def CloopReader.map : DiskMap where
  parent := r.parent
  virtualSize := r.virtualSize
  piece := blockPiece r.blockSize
    (fun offset => (r.decompressBlock zlib (offset / r.blockSize)).map Extent.unpacked)

theorem new_spec {parent : Reader} {r : CloopReader} (h : new parent = .ok r) :
    r.parent = parent ∧ 0 < r.blockSize := by
  simp only [new, bind_eq_ok, require_eq_ok, pure, Except.pure, Except.ok.injEq] at h
  obtain ⟨header, -, -, hsize, -, -, -, -, -, -, -, -, rfl⟩ := h
  exact ⟨rfl, Nat.pos_of_ne_zero hsize.1⟩

theorem CloopReader.coherent (h : 0 < r.blockSize) : (r.map zlib).Coherent :=
  coherent_blockPiece rfl h (fun off off' hoff => by simp only [hoff])

end Cloop

/-! ## EWF -/

namespace Ewf

def FILE_HEADER_SIZE : Nat := 13
def SECTION_DESCRIPTOR_SIZE : Nat := 76
def TABLE_HEADER_SIZE : Nat := 24
def MAX_CHUNK_SIZE : Nat := 64 * 1024 * 1024

/-- The magic of an EWF v1 file. -/
def EWF_MAGIC : Bytes := [0x45, 0x56, 0x46, 0x09, 0x0d, 0x0a, 0xff, 0x00]

/-- The section types that `parse_sections` distinguishes. -/
inductive SectionType where
  | volume | sectors | table | done | other
  deriving DecidableEq

/-- The type field of a section descriptor, its trailing NULs trimmed. -/
def sectionType (typeBuf : Bytes) : SectionType :=
  let name := (typeBuf.reverse.dropWhile (· = 0)).reverse
  if name = [0x76, 0x6f, 0x6c, 0x75, 0x6d, 0x65] ∨ name = [0x64, 0x61, 0x74, 0x61] then .volume
  else if name = [0x73, 0x65, 0x63, 0x74, 0x6f, 0x72, 0x73] then .sectors
  else if name = [0x74, 0x61, 0x62, 0x6c, 0x65] then .table
  else if name = [0x64, 0x6f, 0x6e, 0x65] then .done
  else .other

/-- `SectionInfo`: what the sections read so far have set. -/
structure SectionInfo where
  sectorsOffset : Nat := 0
  sectorsEnd : Nat := 0
  chunkCount : Nat := 0
  chunkSize : Nat := 0
  virtualSize : Nat := 0
  chunkOffsets : List Nat := []

/-- `read_le_u32` and `read_le_u64`, by their width. -/
def readLe (reader : Reader) (width offset : Nat) : Except IoError Nat := do
  let buf ← readExactly reader (wrap offset) width (.unexpectedEof "short read")
  return leField buf 0 width

/-- The `volume` or `data` section at a position. -/
def readVolume (reader : Reader) (pos : Nat) (info : SectionInfo) :
    Except IoError SectionInfo := do
  let volStart := pos + SECTION_DESCRIPTOR_SIZE
  let chunkCount ← readLe reader 4 (volStart + 4)
  let sectorsPerChunk ← readLe reader 4 (volStart + 8)
  let bytesPerSector ← readLe reader 4 (volStart + 12)
  let sectorCount ← readLe reader 8 (volStart + 16)
  let chunkSize := sectorsPerChunk * bytesPerSector
  require (chunkSize < 2 ^ 32 ∧ 0 < chunkSize ∧ chunkSize ≤ MAX_CHUNK_SIZE)
    (.invalidData "invalid chunk size")
  let virtualSize ← checked (sectorCount * bytesPerSector)
    (.invalidData "EWF virtual size overflow")
  return { info with chunkCount, chunkSize, virtualSize }

/-- The first `table` section, at a position. -/
def readTable (reader : Reader) (pos : Nat) (info : SectionInfo) :
    Except IoError SectionInfo := do
  let tblStart := wrap (pos + SECTION_DESCRIPTOR_SIZE)
  let tblCount ← readLe reader 4 tblStart
  let entriesStart ← checked (tblStart + TABLE_HEADER_SIZE)
    (.invalidData "EWF table offset overflow")
  let entriesBytes ← checkedTableSize reader entriesStart tblCount 4
  let entriesData ← readExactly reader entriesStart entriesBytes
    (.unexpectedEof "short table read")
  return { info with chunkOffsets := tableOf leField 4 entriesData }

/-- The body of the section loop, before it moves on. -/
def readSection (reader : Reader) (pos nextOffset : Nat) (typ : SectionType)
    (info : SectionInfo) : Except IoError SectionInfo :=
  match typ with
  | .volume => readVolume reader pos info
  | .sectors => .ok { info with sectorsOffset := pos, sectorsEnd := nextOffset }
  | .table => if info.chunkOffsets = [] then readTable reader pos info else .ok info
  | .done | .other => .ok info

/-- The section loop of `parse_sections`. The positions increase, so that a `u64` counts the
sections. -/
def walkSections (reader : Reader) : (fuel pos : Nat) → SectionInfo → Except IoError SectionInfo
  | 0, _, _ => .error .panic
  | fuel + 1, pos, info => do
      let typeBuf ← readExactly reader pos 16 (.unexpectedEof "short section descriptor read")
      let nextOffset ← readLe reader 8 (pos + 16)
      let typ := sectionType typeBuf
      let info ← readSection reader pos nextOffset typ info
      if typ = .done ∨ nextOffset = pos ∨ nextOffset = 0 then return info
      else if nextOffset < pos ∨
          (∃ size ∈ reader.size, size - SECTION_DESCRIPTOR_SIZE < nextOffset) then
        .error (.invalidData "invalid EWF section chain")
      else walkSections reader fuel nextOffset info

/-- `parse_sections`. -/
def parseSections (reader : Reader) : Except IoError SectionInfo := do
  let info ← walkSections reader (2 ^ 64) FILE_HEADER_SIZE {}
  require (info.sectorsOffset ≠ 0 ∧ info.chunkOffsets ≠ [] ∧ info.chunkSize ≠ 0)
    (.invalidData "missing required EWF sections")
  return info

/-- `EwfReader`. -/
structure EwfReader where
  parent : Reader
  sectorsOffset : Nat
  sectorsEnd : Nat
  chunkOffsets : List Nat
  chunkSize : Nat
  virtualSize : Nat

/-- `EwfReader::new`. -/
def new (parent : Reader) : Except IoError EwfReader := do
  let magic ← readExactly parent 0 8 (.unexpectedEof "short EWF header read")
  require (magic = EWF_MAGIC) (.invalidData "not an EWF v1 file")
  let info ← parseSections parent
  require (info.chunkOffsets.length = info.chunkCount)
    (.invalidData "table/volume chunk count mismatch")
  return {
    parent, sectorsOffset := info.sectorsOffset, sectorsEnd := info.sectorsEnd
    chunkOffsets := info.chunkOffsets, chunkSize := info.chunkSize
    virtualSize := info.virtualSize }

variable (zlib : ReadExact) (r : EwfReader)

/-- `read_chunk`: the top bit of an entry is `COMPRESSED_FLAG`, the others its offset from the
sectors section. -/
def EwfReader.readChunk (chunkIdx : Nat) : Except IoError Bytes :=
  match r.chunkOffsets[chunkIdx]? with
  | none => .error (.invalidInput "chunk index out of range")
  | some entry => do
      let compressed := entry / 2 ^ 31 % 2
      let absOffset ← checked (r.sectorsOffset + entry % 2 ^ 31)
        (.invalidData "EWF chunk offset overflow")
      let fin ←
        match r.chunkOffsets[chunkIdx + 1]? with
        | some nextEntry =>
            checked (r.sectorsOffset + nextEntry % 2 ^ 31)
              (.invalidData "EWF chunk offset overflow")
        | none => .ok r.sectorsEnd
      require (absOffset ≤ fin ∧ fin - absOffset ≤ zlibBound r.chunkSize)
        (.invalidData "invalid EWF chunk offsets")
      let raw ← readExactly r.parent absOffset (fin - absOffset)
        (.unexpectedEof "short EWF chunk read")
      if compressed ≠ 0 then zlib raw r.chunkSize else .ok raw

/-- The map of an EWF image; its `readAt` is `read_at`. -/
def EwfReader.map : DiskMap where
  parent := r.parent
  virtualSize := r.virtualSize
  piece := blockPiece r.chunkSize
    (fun offset => (r.readChunk zlib (offset / r.chunkSize)).map Extent.unpacked)

theorem new_spec {parent : Reader} {r : EwfReader} (h : new parent = .ok r) :
    r.parent = parent ∧ 0 < r.chunkSize := by
  simp only [new, parseSections, bind_eq_ok, require_eq_ok, pure, Except.pure,
    Except.ok.injEq] at h
  obtain ⟨magic, -, -, -, info, ⟨info', -, -, ⟨-, -, hsize⟩, rfl⟩, -, -, rfl⟩ := h
  exact ⟨rfl, Nat.pos_of_ne_zero hsize⟩

theorem EwfReader.coherent (h : 0 < r.chunkSize) : (r.map zlib).Coherent :=
  coherent_blockPiece rfl h (fun off off' hoff => by simp only [hoff])

end Ewf

end Mountin
