import Mountin.Disk.Fields
import Mountin.Disk.Map

set_option autoImplicit false

/-! # VMDK images

`vmdk.rs`: the sparse variants COWD (one table of grains), KDMV plain and stream-optimized (a
directory of tables of grains) and seSparse (the same with 64-bit entries). `extent` is the
`match` on the variant in `read_at`.
-/

namespace Mountin.Vmdk

def VMDK3_MAGIC : Nat := 0x444F5743
def VMDK4_MAGIC : Nat := 0x564D444B
def SESPARSE_MAGIC : Nat := 0x00000000cafebabe
def VMDK4_FLAG_COMPRESS : Nat := 0x10000
def VMDK4_FLAG_ZERO_GRAIN : Nat := 0x4
def VMDK4_GTE_ZEROED : Nat := 1

/-- `VmdkVariant`. -/
inductive VmdkVariant where
  | vmdk3 (l1Table : List Nat)
  | vmdk4 (gd : List Nat) (numGtesPerGt : Nat) (hasZeroGrain : Bool)
  | vmdk4Compressed (gd : List Nat) (numGtesPerGt : Nat)
  | seSparse (gd : List Nat) (gtSize : Nat)

/-- `VmdkReader`. -/
structure VmdkReader where
  parent : Reader
  variant : VmdkVariant
  grainSize : Nat
  virtualSize : Nat

/-! ## Opening -/

/-- `parse_vmdk3`. -/
def parseVmdk3 (parent : Reader) : Except IoError VmdkReader := do
  let header ← readExactly parent 4 44 (.unexpectedEof "short VMDK3 header")
  let diskSectors := leField header 8 4
  let granularity := leField header 12 4
  let l1dirOffset := leField header 16 4
  let l1dirSize := leField header 20 4
  let grainSize ← checked (granularity * 512) (.invalidData "invalid VMDK3 granularity")
  require (grainSize ≠ 0) (.invalidData "invalid VMDK3 granularity")
  let virtualSize ← checked (diskSectors * 512) (.invalidData "VMDK3 virtual size overflow")
  let l1Offset ← checked (l1dirOffset * 512) (.invalidData "VMDK3 L1 offset overflow")
  let l1Bytes ← checkedTableSize parent l1Offset l1dirSize 4
  let l1Data ← readExactly parent l1Offset l1Bytes (.unexpectedEof "short VMDK3 L1 read")
  return { parent, variant := .vmdk3 (tableOf leField 4 l1Data), grainSize, virtualSize }

/-- `parse_vmdk4`. -/
def parseVmdk4 (parent : Reader) : Except IoError VmdkReader := do
  let header ← readExactly parent 0 80 (.unexpectedEof "short VMDK4 header")
  let flags := leField header 8 4
  let capacity := leField header 12 8
  let granularity := leField header 20 8
  let numGtesPerGt := leField header 44 4
  let gdOffset := leField header 56 8
  let grainSize ← checked (granularity * 512) (.invalidData "invalid VMDK4 granularity")
  require (grainSize ≠ 0) (.invalidData "invalid VMDK4 granularity")
  let virtualSize ← checked (capacity * 512) (.invalidData "VMDK4 virtual size overflow")
  require (numGtesPerGt ≠ 0) (.invalidData "invalid VMDK4 grain table size")
  let isCompressed := decide (flags &&& VMDK4_FLAG_COMPRESS ≠ 0)
  let hasZeroGrain := decide (flags &&& VMDK4_FLAG_ZERO_GRAIN ≠ 0)
  let gtCoverage ← checked (numGtesPerGt * grainSize)
    (.invalidData "VMDK4 grain table coverage overflow")
  let gdEntries := (virtualSize + gtCoverage - 1) / gtCoverage
  let gdByteOffset ← checked (gdOffset * 512)
    (.invalidData "VMDK4 grain directory offset overflow")
  let gdBytes ← checkedTableSize parent gdByteOffset gdEntries 4
  let gdData ← parent.readAt gdByteOffset gdBytes
  let gd := tableOf leField 4 gdData
  let variant :=
    if isCompressed then .vmdk4Compressed gd numGtesPerGt
    else .vmdk4 gd numGtesPerGt hasZeroGrain
  return { parent, variant, grainSize, virtualSize }

/-- `parse_sesparse`. -/
def parseSesparse (parent : Reader) : Except IoError VmdkReader := do
  let header ← readExactly parent 0 64 (.unexpectedEof "short seSparse header")
  let capacity := leField header 16 8
  let grainSizeBytes := leField header 24 8
  let gtSize := leField header 32 8
  let gdOffset := leField header 40 8
  let gtCoverage ← checked (gtSize * grainSizeBytes)
    (.invalidData "invalid seSparse grain table size")
  require (gtCoverage ≠ 0) (.invalidData "invalid seSparse grain table size")
  let gdEntries := (capacity + gtCoverage - 1) / gtCoverage
  let gdBytes ← checkedTableSize parent gdOffset gdEntries 8
  let gdData ← parent.readAt gdOffset gdBytes
  return {
    parent, variant := .seSparse (tableOf leField 8 gdData) gtSize
    grainSize := grainSizeBytes, virtualSize := capacity }

/-- `VmdkReader::new`. The magic is read into a buffer of 8 bytes, of which 4 have to be
there. -/
def new (parent : Reader) : Except IoError VmdkReader := do
  let buf ← parent.readAt 0 8
  require (4 ≤ buf.length) (.unexpectedEof "short magic read")
  let magicBuf := buf ++ List.replicate (8 - buf.length) 0
  let magic32 := leField magicBuf 0 4
  let magic64 := leField magicBuf 0 8
  if magic32 = VMDK3_MAGIC then parseVmdk3 parent
  else if magic32 = VMDK4_MAGIC then parseVmdk4 parent
  else if magic64 = SESPARSE_MAGIC then parseSesparse parent
  else .error (.invalidData "invalid VMDK magic")

theorem new_spec {parent : Reader} {r : VmdkReader} (h : new parent = .ok r) :
    r.parent = parent ∧ 0 < r.grainSize := by
  simp only [new, bind_eq_ok, require_eq_ok] at h
  obtain ⟨buf, -, -, -, h⟩ := h
  split_ifs at h with h3 h4 hse
  · simp only [parseVmdk3, bind_eq_ok, require_eq_ok, pure, Except.pure, Except.ok.injEq] at h
    obtain ⟨header, -, grainSize, -, -, hsize, -, -, -, -, -, -, -, -, rfl⟩ := h
    exact ⟨rfl, Nat.pos_of_ne_zero hsize⟩
  · simp only [parseVmdk4, bind_eq_ok, require_eq_ok, pure, Except.pure, Except.ok.injEq] at h
    obtain ⟨header, -, grainSize, -, -, hsize, -, -, -, -, -, -, -, -, -, -, -, -, rfl⟩ := h
    exact ⟨rfl, Nat.pos_of_ne_zero hsize⟩
  · simp only [parseSesparse, bind_eq_ok, require_eq_ok, pure, Except.pure,
      Except.ok.injEq] at h
    obtain ⟨header, -, gtCoverage, hchecked, -, hsize, -, -, -, -, rfl⟩ := h
    rw [checked] at hchecked
    split_ifs at hchecked
    cases hchecked
    exact ⟨rfl, Nat.pos_of_ne_zero (fun h0 => hsize (Nat.mul_eq_zero.mpr (.inr h0)))⟩

/-! ## Reading -/

/-- `read_gt_entry` and `read_gt_entry_64`, by the width of the entries. -/
def readGtEntry (parent : Reader) (width gtOffset gtIndex : Nat) : Except IoError Nat := do
  let buf ← readExactly parent (wrap (gtOffset + gtIndex * width)) width
    (.unexpectedEof "short GT read")
  return leField buf 0 width

variable (inflate : ReadExact)

/-- `read_compressed_grain`. The data is read into a buffer of its declared size, and what the
read leaves of the buffer stays zero. -/
def readCompressedGrain (parent : Reader) (grainSize grainOffset : Nat) :
    Except IoError Bytes := do
  let marker ← readExactly parent (grainOffset * 512) 16 (.unexpectedEof "short grain marker")
  let compressedSize := leField marker 8 4
  let compressed ← readPadded parent (grainOffset * 512 + 16) compressedSize
  inflate compressed grainSize

variable (r : VmdkReader)

/-- The source of a grain. -/
def VmdkReader.extent (grainIdx : Nat) : Except IoError Extent :=
  match r.variant with
  | .vmdk3 l1Table =>
      match l1Table[grainIdx]? with
      | none => .ok .hole
      | some grainSector =>
          if grainSector = 0 then .ok .hole else .ok (.stored (grainSector * 512))
  | .vmdk4 gd numGtesPerGt hasZeroGrain =>
      match gd[grainIdx / numGtesPerGt]? with
      | none => .ok .hole
      | some gtSector =>
          if gtSector = 0 then .ok .hole
          else do
            let grainSector ← readGtEntry r.parent 4 (gtSector * 512) (grainIdx % numGtesPerGt)
            if grainSector = 0 ∨ (hasZeroGrain = true ∧ grainSector = VMDK4_GTE_ZEROED) then
              return .hole
            else return .stored (grainSector * 512)
  | .vmdk4Compressed gd numGtesPerGt =>
      match gd[grainIdx / numGtesPerGt]? with
      | none => .ok .hole
      | some gtSector =>
          if gtSector = 0 then .ok .hole
          else do
            let grainSector ← readGtEntry r.parent 4 (gtSector * 512) (grainIdx % numGtesPerGt)
            if grainSector = 0 then return .hole
            else
              let decompressed ← readCompressedGrain inflate r.parent r.grainSize grainSector
              return .unpacked decompressed
  | .seSparse gd gtSize =>
      match gd[grainIdx / gtSize]? with
      | none => .ok .hole
      | some gtOffset =>
          -- the top nibble is the state, 0 and 3 being allocated
          let state := gtOffset / 2 ^ 60 % 16
          if state ≠ 0 ∧ state ≠ 3 then .ok .hole
          else
            let gtAddr := gtOffset % 2 ^ 60
            if gtAddr = 0 then .ok .hole
            else do
              let grainEntry ← readGtEntry r.parent 8 gtAddr (grainIdx % gtSize)
              if grainEntry / 2 ^ 60 % 16 ≠ 3 then return .hole
              else return .stored (grainEntry % 2 ^ 60)

/-- The map of a VMDK image; its `readAt` is `read_at`. -/
def VmdkReader.map : DiskMap where
  parent := r.parent
  virtualSize := r.virtualSize
  piece := blockPiece r.grainSize (fun offset => r.extent inflate (offset / r.grainSize))

theorem VmdkReader.coherent (h : 0 < r.grainSize) : (r.map inflate).Coherent :=
  coherent_blockPiece rfl h (fun off off' hoff => by simp only [hoff])

end Mountin.Vmdk
