import Mathlib.Data.List.Sort
import Mountin.Basic.BinarySearch
import Mountin.Disk.Fields
import Mountin.Disk.Map

set_option autoImplicit false

/-! # DMG images

`dmg.rs`: a trailer at the end of the file points to a property list; the MISH blocks in it
hold a table of chunks of sectors. The text of the property list is a byte string here: what
`from_utf8_lossy` replaces occurs neither in a tag nor in base64.
-/

namespace Mountin.Dmg

/-- `KOLY_MAGIC`: "koly". -/
def KOLY_MAGIC : Bytes := [0x6b, 0x6f, 0x6c, 0x79]

def MISH_MAGIC : Nat := 0x6d697368
def UDZE : Nat := 0x00000000
def UDRW : Nat := 0x00000001
def UDIG : Nat := 0x00000002
def UDZO : Nat := 0x80000005
def UDBZ : Nat := 0x80000006
def ULFO : Nat := 0x80000007
def COMMENT : Nat := 0x7ffffffe
def LAST_ENTRY : Nat := 0xffffffff
def MAX_CHUNK_SIZE : Nat := 64 * 1024 * 1024

/-- `DmgChunk`. -/
structure DmgChunk where
  chunkType : Nat
  sectorStart : Nat
  sectorCount : Nat
  compressedOffset : Nat
  compressedLength : Nat
  deriving DecidableEq

/-- `DmgReader`. -/
structure DmgReader where
  parent : Reader
  chunks : List DmgChunk
  virtualSize : Nat

/-! ## The trailer -/

/-- Whether a byte can be read at an offset. -/
def probe (parent : Reader) (offset : Nat) : Except IoError Bool :=
  match parent.readAt offset 1 with
  | .error e => .error e
  | .ok buf => .ok (0 < buf.length)

/-- The binary search of `find_koly`; the range halves from 1 TB, so 64 steps are enough. -/
def searchEnd (parent : Reader) : (fuel low high : Nat) → Except IoError Nat
  | 0, _, _ => .error .panic
  | fuel + 1, low, high =>
      if high - low ≤ 512 then .ok low
      else do
        let mid := low + (high - low) / 2
        let readable ← probe parent mid
        if readable then searchEnd parent fuel mid high else searchEnd parent fuel low mid

/-- The scan to the exact size; the offsets are `u64`. -/
def scanEnd (parent : Reader) : (fuel size : Nat) → Except IoError Nat
  | 0, _ => .error .panic
  | fuel + 1, size => do
      let readable ← probe parent size
      if readable then scanEnd parent fuel (size + 1) else return size

/-- `find_koly`. -/
def findKoly (parent : Reader) : Except IoError Nat := do
  let low ← searchEnd parent 64 0 (2 ^ 40)
  let size ← scanEnd parent (2 ^ 64) low
  require (512 ≤ size) (.invalidData "file too small for DMG")
  return size - 512

/-! ## The property list -/

/-- `str::find`: the position of the first occurrence. -/
def findBytes (pat : Bytes) : Bytes → Option Nat
  | [] => if pat.isEmpty then some 0 else none
  | b :: text =>
      if pat.isPrefixOf (b :: text) then some 0 else (findBytes pat text).map (· + 1)

/-- `BASE64_TABLE`. -/
def base64Table : List Char :=
  "ABCDEFGHIJKLMNOPQRSTUVWXYZabcdefghijklmnopqrstuvwxyz0123456789+/".toList

/-- `is_ascii_whitespace`. -/
def isAsciiWhitespace (b : UInt8) : Bool :=
  b == 0x20 || b == 0x09 || b == 0x0a || b == 0x0c || b == 0x0d

/-- The loop of `decode_base64`, with the bits not yet put out. -/
def decodeBits : Bytes → (accum bits : Nat) → Except IoError Bytes
  | [], _, _ => .ok []
  | byte :: input, accum, bits =>
      if byte = 0x3d then decodeBits input accum bits
      else
        match base64Table.findIdx? (fun c => c.toNat = byte.toNat) with
        | some val =>
            let accum := accum * 64 + val
            let bits := bits + 6
            if 8 ≤ bits then
              (decodeBits input (accum % 2 ^ (bits - 8)) (bits - 8)).map
                (fun output => UInt8.ofNat (accum / 2 ^ (bits - 8)) :: output)
            else decodeBits input accum bits
        | none =>
            if isAsciiWhitespace byte then decodeBits input accum bits
            else .error (.invalidData "invalid base64")

/-- `decode_base64`. -/
def decodeBase64 (input : Bytes) : Except IoError Bytes := decodeBits input 0 0

/-- The chunk entry at an offset of a MISH block. -/
def readChunkEntry (data : Bytes) (offset blockSectorStart dataForkOffset : Nat) :
    Except IoError DmgChunk := do
  let sectorStart ← checked (blockSectorStart + beField data (offset + 8) 8)
    (.invalidData "DMG sector offset overflow")
  let sectorCount := beField data (offset + 16) 8
  let _ ← checked (sectorStart + sectorCount) (.invalidData "DMG sector range overflow")
  let compressedOffset ← checked (dataForkOffset + beField data (offset + 24) 8)
    (.invalidData "DMG data offset overflow")
  return {
    chunkType := beField data offset 4, sectorStart, sectorCount, compressedOffset
    compressedLength := beField data (offset + 32) 8 }

/-- The loop over the chunk entries of a MISH block, 40 bytes each. -/
def readEntries (data : Bytes) (blockSectorStart dataForkOffset : Nat) :
    (fuel offset : Nat) → Except IoError (List DmgChunk)
  | 0, _ => .ok []
  | fuel + 1, offset =>
      if data.length < offset + 40 then .ok []
      else
        let chunkType := beField data offset 4
        if chunkType = COMMENT ∨ chunkType = UDIG then
          readEntries data blockSectorStart dataForkOffset fuel (offset + 40)
        else if chunkType = LAST_ENTRY then .ok []
        -- only chunks with actual data
        else if beField data (offset + 16) 8 = 0 then
          readEntries data blockSectorStart dataForkOffset fuel (offset + 40)
        else do
          let chunk ← readChunkEntry data offset blockSectorStart dataForkOffset
          let chunks ← readEntries data blockSectorStart dataForkOffset fuel (offset + 40)
          return chunk :: chunks

/-- `parse_mish_block`. -/
def parseMishBlock (data : Bytes) (dataForkOffset : Nat) : Except IoError (List DmgChunk) := do
  require (204 ≤ data.length) (.invalidData "MISH block too short")
  require (beField data 0 4 = MISH_MAGIC) (.invalidData "invalid MISH magic")
  readEntries data (beField data 8 8) dataForkOffset data.length 204

/-- The bytes of an ASCII text. -/
def ascii (text : String) : Bytes := text.toUTF8.toList

/-- The chunks of the text between two tags; a block that cannot be decoded is left out. -/
def blockChunks (base64 : Bytes) (dataForkOffset : Nat) : List DmgChunk :=
  match decodeBase64 base64 with
  | .error _ => []
  | .ok mish =>
      match parseMishBlock mish dataForkOffset with
      | .error _ => []
      | .ok chunks => chunks

/-- The loop over the `blkx` keys of the rest of the property list. -/
def plistChunks (dataForkOffset : Nat) : (fuel : Nat) → Bytes → List DmgChunk
  | 0, _ => []
  | fuel + 1, xml =>
      match findBytes (ascii "<key>blkx</key>") xml with
      | none => []
      | some keyPos =>
          let rest := xml.drop (keyPos + 15)
          match findBytes (ascii "<data>") rest with
          | none => plistChunks dataForkOffset fuel rest
          | some dataStart =>
              let data := rest.drop (dataStart + 6)
              match findBytes (ascii "</data>") data with
              | none => plistChunks dataForkOffset fuel rest
              | some dataEnd =>
                  blockChunks (data.take dataEnd) dataForkOffset
                    ++ plistChunks dataForkOffset fuel (data.drop dataEnd)

/-- `parse_plist_blkx`: the chunks, in the order of their sectors. Each turn of the loop takes a
key off the text. -/
def parsePlistBlkx (xml : Bytes) (dataForkOffset : Nat) : Except IoError (List DmgChunk) := do
  let chunks := plistChunks dataForkOffset (xml.length + 1) xml
  require (chunks ≠ []) (.invalidData "no valid blkx entries found")
  return chunks.insertionSort (fun a b => a.sectorStart ≤ b.sectorStart)

/-- The end of the last chunk, in bytes. -/
def virtualSizeOf (chunks : List DmgChunk) : Except IoError Nat :=
  chunks.foldlM
    (fun size chunk => do
      let fin ← checked ((chunk.sectorStart + chunk.sectorCount) * 512)
        (.invalidData "DMG virtual size overflow")
      return max size fin) 0

/-- `DmgReader::new`. -/
def new (parent : Reader) : Except IoError DmgReader := do
  let readable ← probe parent 0
  require (readable = true) (.unexpectedEof "empty file")
  let kolyOffset ← findKoly parent
  let trailer ← readExactly parent kolyOffset 512 (.unexpectedEof "short koly trailer read")
  require (trailer.slice 0 4 = KOLY_MAGIC) (.invalidData "invalid DMG koly magic")
  let dataForkOffset := beField trailer 0x18 8
  let xmlOffset := beField trailer 0xd8 8
  let xmlLength := beField trailer 0xe0 8
  require (xmlLength ≠ 0 ∧ xmlLength ≤ 100 * 1024 * 1024) (.invalidData "invalid XML length")
  let xmlData ← readExactly parent xmlOffset xmlLength (.unexpectedEof "short XML read")
  let chunks ← parsePlistBlkx xmlData dataForkOffset
  let virtualSize ← virtualSizeOf chunks
  return { parent, chunks, virtualSize }

theorem new_parent {parent : Reader} {r : DmgReader} (h : new parent = .ok r) :
    r.parent = parent := by
  simp only [new, bind_eq_ok, require_eq_ok, pure, Except.pure, Except.ok.injEq] at h
  obtain ⟨readable, -, -, -, kolyOffset, -, trailer, -, -, -, -, -, xmlData, -, chunks, -,
    virtualSize, -, rfl⟩ := h
  rfl

/-! ## Reading -/

/-- The chunk holds a sector. -/
def DmgChunk.Holds (c : DmgChunk) (sector : Nat) : Prop :=
  c.sectorStart ≤ sector ∧ sector < c.sectorStart + c.sectorCount

instance (c : DmgChunk) (sector : Nat) : Decidable (c.Holds sector) :=
  inferInstanceAs (Decidable (_ ∧ _))

/-- The chunk at an index ends at or before a sector. -/
def endsBefore (chunks : List DmgChunk) (sector i : Nat) : Bool :=
  chunks[i]?.any (fun c => c.sectorStart + c.sectorCount ≤ sector)

variable (decoders : Decoders) (r : DmgReader)

/-- `find_chunk`: `partition_point` on the ends of the chunks. -/
def DmgReader.findChunk (sector : Nat) : Option DmgChunk :=
  match r.chunks[BinarySearch.partitionPoint (endsBefore r.chunks sector) r.chunks.length]? with
  | none => none
  | some chunk => if chunk.Holds sector then some chunk else none

/-- The compressed bytes of a chunk. -/
def DmgReader.readSource (chunk : DmgChunk) (message : String) : Except IoError Bytes :=
  readExactly r.parent chunk.compressedOffset chunk.compressedLength (.unexpectedEof message)

/-- The chunk's type is one of the compressed ones. -/
def isCompressed (chunkType : Nat) : Bool :=
  chunkType == UDZO || chunkType == UDBZ || chunkType == ULFO

/-- `decompress_chunk`. -/
def DmgReader.decompressChunk (chunk : DmgChunk) : Except IoError Bytes := do
  let uncompressedSize := chunk.sectorCount * 512
  require (uncompressedSize < 2 ^ 64 ∧ uncompressedSize ≤ MAX_CHUNK_SIZE)
    (.invalidData "DMG chunk too large")
  require (isCompressed chunk.chunkType = true →
      chunk.compressedLength ≤ MAX_CHUNK_SIZE + 1024 * 1024)
    (.invalidData "DMG compressed chunk too large")
  let sourceSize := if isCompressed chunk.chunkType then chunk.compressedLength else 0
  if sourceSize ≠ 0 then
    let sourceEnd ← checked (chunk.compressedOffset + sourceSize)
      (.invalidData "DMG chunk offset overflow")
    require (∀ size ∈ r.parent.size, sourceEnd ≤ size)
      (.unexpectedEof "DMG chunk extends past end of image")
  if chunk.chunkType = UDZO then
    let compressed ← r.readSource chunk "short DMG zlib chunk read"
    decoders.zlib compressed uncompressedSize
  else if chunk.chunkType = UDBZ then
    let compressed ← r.readSource chunk "short DMG bzip2 chunk read"
    decoders.bzip2 compressed uncompressedSize
  else if chunk.chunkType = ULFO then
    let compressed ← r.readSource chunk "short DMG lzfse chunk read"
    match decoders.lzfse compressed uncompressedSize with
    | none => .error (.invalidData "lzfse decode error")
    | some decompressed =>
        require (uncompressedSize ≤ decompressed.length)
          (.invalidData "lzfse: short decompression")
        return decompressed
  else .error (.invalidData "unsupported DMG compression type")

/-- The source of a chunk. -/
def DmgReader.extent (chunk : DmgChunk) : Except IoError Extent :=
  if chunk.chunkType = UDZE ∨ chunk.chunkType = UDIG ∨ chunk.chunkType = COMMENT then .ok .hole
  else if chunk.chunkType = UDRW then .ok (.raw chunk.compressedOffset)
  else (r.decompressChunk decoders chunk).map .unpacked

/-- The piece of an offset: a chunk, or a sector of zeros where there is none. -/
def DmgReader.piece (offset : Nat) : Except IoError Piece :=
  let sector := offset / 512
  match r.findChunk sector with
  | none => .ok ⟨sector * 512, 512, .hole⟩
  | some chunk =>
      (r.extent decoders chunk).map
        (fun e => ⟨chunk.sectorStart * 512, chunk.sectorCount * 512, e⟩)

/-- The map of a DMG image; its `readAt` is `read_at`. -/
def DmgReader.map : DiskMap where
  parent := r.parent
  virtualSize := r.virtualSize
  piece := r.piece decoders

/-! ## Disjoint chunks -/

/-- The chunks follow one another without overlap: each sector has one source. -/
def DmgReader.Disjoint : Prop :=
  r.chunks.Pairwise (fun a b => a.sectorStart + a.sectorCount ≤ b.sectorStart)

variable {r}

theorem DmgReader.Disjoint.le (h : r.Disjoint) {i j : Nat} {a b : DmgChunk} (hij : i < j)
    (ha : r.chunks[i]? = some a) (hb : r.chunks[j]? = some b) :
    a.sectorStart + a.sectorCount ≤ b.sectorStart := by
  obtain ⟨hi, rfl⟩ := List.getElem?_eq_some_iff.mp ha
  obtain ⟨hj, rfl⟩ := List.getElem?_eq_some_iff.mp hb
  exact List.pairwise_iff_getElem.mp h i j hi hj hij

theorem endsBefore_eq_true {chunks : List DmgChunk} {sector i : Nat} :
    endsBefore chunks sector i = true ↔
      ∃ c, chunks[i]? = some c ∧ c.sectorStart + c.sectorCount ≤ sector := by
  unfold endsBefore
  rw [Option.any_eq_true]
  simp only [decide_eq_true_eq]

theorem DmgReader.Disjoint.partitioned (h : r.Disjoint) (sector : Nat) :
    BinarySearch.Partitioned (endsBefore r.chunks sector) r.chunks.length := by
  intro i j hij hj hends
  rcases Nat.eq_or_lt_of_le hij with rfl | hlt
  · exact hends
  · obtain ⟨b, hb, hle⟩ := endsBefore_eq_true.mp hends
    have ha : r.chunks[i]? = some r.chunks[i] := List.getElem?_eq_getElem (hlt.trans hj)
    have hbefore := h.le hlt ha hb
    exact endsBefore_eq_true.mpr ⟨_, ha, by omega⟩

theorem DmgReader.findChunk_holds {sector : Nat} {c : DmgChunk}
    (h : r.findChunk sector = some c) : c ∈ r.chunks ∧ c.Holds sector := by
  unfold DmgReader.findChunk at h
  split at h
  · cases h
  · next chunk hchunk =>
      rw [Option.ite_none_right_eq_some, Option.some.injEq] at h
      obtain ⟨hholds, rfl⟩ := h
      exact ⟨List.mem_of_getElem? hchunk, hholds⟩

/-- Where the chunks are disjoint, the search finds the chunk that holds a sector. -/
theorem DmgReader.Disjoint.findChunk_eq (h : r.Disjoint) {sector : Nat} {c : DmgChunk}
    (hc : c ∈ r.chunks) (hholds : c.Holds sector) : r.findChunk sector = some c := by
  obtain ⟨i, hi⟩ := List.mem_iff_getElem?.mp hc
  have hlt : i < r.chunks.length := (List.getElem?_eq_some_iff.mp hi).1
  have hpoint : BinarySearch.partitionPoint (endsBefore r.chunks sector) r.chunks.length = i := by
    refine BinarySearch.partitionPoint_eq (h.partitioned sector) hlt (fun j hj => ?_) ?_
    · have hb : r.chunks[j]? = some r.chunks[j] := List.getElem?_eq_getElem (hj.trans hlt)
      exact endsBefore_eq_true.mpr ⟨_, hb, (h.le hj hb hi).trans hholds.1⟩
    · rw [Bool.eq_false_iff]
      intro hends
      obtain ⟨d, hd, hle⟩ := endsBefore_eq_true.mp hends
      rw [hi, Option.some.injEq] at hd
      subst hd
      exact absurd hle (Nat.not_le.mpr hholds.2)
  rw [DmgReader.findChunk, hpoint, hi]
  exact if_pos hholds

variable (r)

theorem DmgReader.coherent (h : r.Disjoint) : (r.map decoders).Coherent := by
  constructor
  · intro off p _ hp
    simp only [DmgReader.map, DmgReader.piece] at hp
    cases hc : r.findChunk (off / 512) with
    | none =>
        simp only [hc, Except.ok.injEq] at hp
        subst hp
        exact ⟨by simp only; omega, by simp only; omega⟩
    | some c =>
        obtain ⟨-, hlo, hhi⟩ := DmgReader.findChunk_holds hc
        cases he : r.extent decoders c with
        | error e => simp [hc, he, Except.map] at hp
        | ok e =>
            simp only [hc, he, Except.map, Except.ok.injEq] at hp
            subst hp
            exact ⟨by simp only; omega, by simp only; omega⟩
  · intro off p off' _ hp hlo hhi _
    simp only [DmgReader.map, DmgReader.piece] at hp ⊢
    cases hc : r.findChunk (off / 512) with
    | none =>
        simp only [hc, Except.ok.injEq] at hp
        subst hp
        simp only at hlo hhi
        have hsector : off' / 512 = off / 512 := by omega
        rw [hsector, hc]
    | some c =>
        obtain ⟨hmem, -⟩ := DmgReader.findChunk_holds hc
        cases he : r.extent decoders c with
        | error e => simp [hc, he, Except.map] at hp
        | ok e =>
            simp only [hc, he, Except.map, Except.ok.injEq] at hp
            subst hp
            simp only at hlo hhi
            have hholds : c.Holds (off' / 512) := ⟨by omega, by omega⟩
            rw [h.findChunk_eq hmem hholds]
            simp only [he, Except.map]

end Mountin.Dmg
