import Mountin.Disk.Fields
import Mountin.Disk.Map

set_option autoImplicit false

/-! # QCOW2, QCOW and QED images

`qcow2.rs`, `qcow.rs` and `qed.rs`: a table of tables of clusters. In each, `extent` is the
body of `read_at` between the test of the virtual size and the copy.
-/

namespace Mountin

/-- `read_l2_entry`, over the byte order of the format. -/
def readL2Entry (field : Bytes → Nat → Nat → Nat) (parent : Reader) (l2Offset l2Index : Nat) :
    Except IoError Nat := do
  let buf ← readExactly parent (wrap (l2Offset + l2Index * 8)) 8 (.unexpectedEof "short L2 read")
  return field buf 0 8

/-- `read_compressed_cluster`: the low bits of an entry are the host offset, the bits above
them the number of sectors less one. -/
def readCompressedCluster (inflate : ReadExact) (parent : Reader)
    (clusterBits l2Entry : Nat) : Except IoError Bytes := do
  let csizeShift := 63 - clusterBits
  let coffset := l2Entry % 2 ^ csizeShift
  let nbSectors := l2Entry / 2 ^ csizeShift % 2 ^ clusterBits + 1
  let compressed ← parent.readAt coffset (nbSectors * 512)
  inflate compressed (2 ^ clusterBits)

/-! ## QCOW2 -/

namespace Qcow2

def QCOW_MAGIC : Nat := 0x514649fb
def L2E_OFFSET_MASK : Nat := 0x00fffffffffffe00

/-- `Qcow2Reader`; `cluster_size`, `l2_bits` and `l2_size` follow from `cluster_bits`. -/
structure Qcow2Reader where
  parent : Reader
  l1Table : List Nat
  clusterBits : Nat
  virtualSize : Nat

/-- `Qcow2Reader::new`. -/
def new (parent : Reader) : Except IoError Qcow2Reader := do
  let header ← readExactly parent 0 0x30 (.unexpectedEof "short header read")
  require (beField header 0 4 = QCOW_MAGIC) (.invalidData "invalid QCOW2 magic")
  require (2 ≤ beField header 4 4) (.invalidData "not QCOW2 (version < 2)")
  let clusterBits := beField header 0x14 4
  let virtualSize := beField header 0x18 8
  let l1Size := beField header 0x24 4
  let l1TableOffset := beField header 0x28 8
  require (9 ≤ clusterBits ∧ clusterBits ≤ 21) (.invalidData "invalid cluster_bits")
  let l1Data ← readExactly parent l1TableOffset (l1Size * 8)
    (.unexpectedEof "short L1 table read")
  return { parent, l1Table := tableOf beField 8 l1Data, clusterBits, virtualSize }

theorem new_parent {parent : Reader} {r : Qcow2Reader} (h : new parent = .ok r) :
    r.parent = parent := by
  simp only [new, bind_eq_ok, require_eq_ok, pure, Except.pure, Except.ok.injEq] at h
  obtain ⟨header, -, -, -, -, -, -, -, l1Data, -, rfl⟩ := h
  rfl

variable (inflate : ReadExact) (r : Qcow2Reader)

def Qcow2Reader.l2Bits : Nat := r.clusterBits - 3

/-- The source of the cluster of an offset. -/
def Qcow2Reader.extent (offset : Nat) : Except IoError Extent :=
  let l1Index := offset / 2 ^ (r.l2Bits + r.clusterBits)
  let l2Index := offset / 2 ^ r.clusterBits % 2 ^ r.l2Bits
  match r.l1Table[l1Index]? with
  -- beyond the L1 table: sparse
  | none => .ok .hole
  | some l1Entry =>
      let l2Offset := l1Entry &&& L2E_OFFSET_MASK
      if l2Offset = 0 then .ok .hole
      else do
        let l2Entry ← readL2Entry beField r.parent l2Offset l2Index
        if l2Entry % 2 ≠ 0 then return .hole
        else
          let clusterOffset := l2Entry &&& L2E_OFFSET_MASK
          if clusterOffset = 0 then return .hole
          else if l2Entry / 2 ^ 62 % 2 ≠ 0 then
            let decompressed ← readCompressedCluster inflate r.parent r.clusterBits l2Entry
            return .unpacked decompressed
          else return .stored clusterOffset

/-- The map of a QCOW2 image; its `readAt` is `read_at`. -/
def Qcow2Reader.map : DiskMap where
  parent := r.parent
  virtualSize := r.virtualSize
  piece := blockPiece (2 ^ r.clusterBits) (r.extent inflate)

theorem Qcow2Reader.coherent : (r.map inflate).Coherent := by
  refine coherent_blockPiece rfl (Nat.two_pow_pos _) (fun off off' h => ?_)
  have hl1 : ∀ o, o / 2 ^ (r.l2Bits + r.clusterBits) = o / 2 ^ r.clusterBits / 2 ^ r.l2Bits := by
    intro o
    rw [Nat.div_div_eq_div_mul, Nat.add_comm, pow_add]
  simp only [Qcow2Reader.extent, hl1, h]

end Qcow2

/-! ## QCOW -/

namespace Qcow

def QCOW_MAGIC : Nat := 0x514649fb
def QCOW_VERSION : Nat := 1

/-- `QcowReader`; `cluster_size` and `l2_size` follow from the bits. -/
structure QcowReader where
  parent : Reader
  l1Table : List Nat
  clusterBits : Nat
  l2Bits : Nat
  virtualSize : Nat

/-- A `u64` shift takes the amount modulo 64. -/
def shiftOf (bits : Nat) : Nat := 2 ^ (bits % 64)

/-- `QcowReader::new`. -/
def new (parent : Reader) : Except IoError QcowReader := do
  let header ← readExactly parent 0 48 (.unexpectedEof "short header read")
  require (beField header 0 4 = QCOW_MAGIC) (.invalidData "invalid QCOW magic")
  require (beField header 4 4 = QCOW_VERSION) (.invalidData "not QCOW v1")
  let virtualSize := beField header 24 8
  let clusterBits := beField header 32 1
  let l2Bits := beField header 33 1
  let l1TableOffset := beField header 40 8
  require (9 ≤ clusterBits ∧ clusterBits ≤ 20) (.invalidData "invalid cluster_bits")
  let l1Size := wrap (virtualSize + shiftOf (clusterBits + l2Bits) - 1)
    / shiftOf (clusterBits + l2Bits)
  let l1Data ← readExactly parent l1TableOffset (wrap (l1Size * 8))
    (.unexpectedEof "short L1 table read")
  return { parent, l1Table := tableOf beField 8 l1Data, clusterBits, l2Bits, virtualSize }

theorem new_parent {parent : Reader} {r : QcowReader} (h : new parent = .ok r) :
    r.parent = parent := by
  simp only [new, bind_eq_ok, require_eq_ok, pure, Except.pure, Except.ok.injEq] at h
  obtain ⟨header, -, -, -, -, -, -, -, l1Data, -, rfl⟩ := h
  rfl

variable (inflate : ReadExact) (r : QcowReader)

/-- The source of the cluster of an offset. -/
def QcowReader.extent (offset : Nat) : Except IoError Extent :=
  let l1Index := offset / shiftOf (r.l2Bits + r.clusterBits)
  let l2Index := offset / 2 ^ r.clusterBits % shiftOf r.l2Bits
  match r.l1Table[l1Index]? with
  -- beyond the L1 table: sparse
  | none => .ok .hole
  | some l2Offset =>
      if l2Offset = 0 then .ok .hole
      else do
        let clusterOffset ← readL2Entry beField r.parent l2Offset l2Index
        if clusterOffset = 0 then return .hole
        else if clusterOffset / 2 ^ 63 % 2 ≠ 0 then
          let decompressed ← readCompressedCluster inflate r.parent r.clusterBits clusterOffset
          return .unpacked decompressed
        else return .stored clusterOffset

/-- The map of a QCOW image; its `readAt` is `read_at`. -/
def QcowReader.map : DiskMap where
  parent := r.parent
  virtualSize := r.virtualSize
  piece := blockPiece (2 ^ r.clusterBits) (r.extent inflate)

/-- The two levels of the map together shift by less than a word. -/
theorem QcowReader.coherent (h : r.l2Bits + r.clusterBits < 64) : (r.map inflate).Coherent := by
  refine coherent_blockPiece rfl (Nat.two_pow_pos _) (fun off off' hoff => ?_)
  have hl1 : ∀ o, o / shiftOf (r.l2Bits + r.clusterBits)
      = o / 2 ^ r.clusterBits / 2 ^ r.l2Bits := by
    intro o
    rw [shiftOf, Nat.mod_eq_of_lt h, Nat.div_div_eq_div_mul, Nat.add_comm, pow_add]
  simp only [QcowReader.extent, hl1, hoff]

end Qcow

/-! ## QED -/

namespace Qed

def QED_MAGIC : Nat := 0x00444551
def QED_MIN_CLUSTER_SIZE : Nat := 4 * 1024
def QED_MAX_CLUSTER_SIZE : Nat := 64 * 1024 * 1024
def QED_MAX_TABLE_SIZE : Nat := 16

/-- `QedReader`. -/
structure QedReader where
  parent : Reader
  l1Table : List Nat
  clusterSize : Nat
  l2Entries : Nat
  virtualSize : Nat

/-- `QedReader::new`. -/
def new (parent : Reader) : Except IoError QedReader := do
  let header ← readExactly parent 0 0x38 (.unexpectedEof "short header read")
  require (leField header 0 4 = QED_MAGIC) (.invalidData "invalid QED magic")
  let clusterSize := leField header 0x04 4
  let tableSize := leField header 0x08 4
  let l1TableOffset := leField header 0x28 8
  let virtualSize := leField header 0x30 8
  require (QED_MIN_CLUSTER_SIZE ≤ clusterSize ∧ clusterSize ≤ QED_MAX_CLUSTER_SIZE ∧
    isPowerOfTwo clusterSize = true) (.invalidData "invalid cluster_size")
  require (tableSize ≠ 0 ∧ tableSize ≤ QED_MAX_TABLE_SIZE ∧ isPowerOfTwo tableSize = true)
    (.invalidData "invalid QED table_size")
  let l1BytesU64 ← checked (tableSize * clusterSize) (.invalidData "QED table size overflow")
  let l2Entries := l1BytesU64 / 8
  let l1Bytes ← checkedTableSize parent l1TableOffset l2Entries 8
  let l1Data ← readExactly parent l1TableOffset l1Bytes (.unexpectedEof "short L1 table read")
  return { parent, l1Table := tableOf leField 8 l1Data, clusterSize, l2Entries, virtualSize }

variable (r : QedReader)

/-- The source of the cluster of an offset. -/
def QedReader.extent (offset : Nat) : Except IoError Extent :=
  -- each L2 table covers `l2_entries * cluster_size` bytes
  let l2Coverage := r.l2Entries * r.clusterSize
  let l1Index := offset / l2Coverage
  let l2Index := offset % l2Coverage / r.clusterSize
  match r.l1Table[l1Index]? with
  | none => .ok .hole
  | some l2Offset =>
      if l2Offset = 0 then .ok .hole
      else do
        let clusterOffset ← readL2Entry leField r.parent l2Offset l2Index
        if clusterOffset ≤ 1 then return .hole
        else return .stored clusterOffset

/-- The map of a QED image; its `readAt` is `read_at`. -/
def QedReader.map : DiskMap where
  parent := r.parent
  virtualSize := r.virtualSize
  piece := blockPiece r.clusterSize r.extent

theorem new_spec {parent : Reader} {r : QedReader} (h : new parent = .ok r) :
    r.parent = parent ∧ 0 < r.clusterSize := by
  simp only [new, bind_eq_ok, require_eq_ok, pure, Except.pure, Except.ok.injEq] at h
  obtain ⟨header, -, -, -, -, hcluster, -, -, -, -, -, -, -, -, rfl⟩ := h
  exact ⟨rfl, lt_of_lt_of_le (by decide) hcluster.1⟩

theorem QedReader.coherent (h : 0 < r.clusterSize) : r.map.Coherent := by
  refine coherent_blockPiece rfl h (fun off off' hoff => ?_)
  have hl1 : ∀ o, o / (r.l2Entries * r.clusterSize) = o / r.clusterSize / r.l2Entries := by
    intro o
    rw [Nat.div_div_eq_div_mul, Nat.mul_comm]
  have hl2 : ∀ o, o % (r.l2Entries * r.clusterSize) / r.clusterSize
      = o / r.clusterSize % r.l2Entries := by
    intro o
    rw [Nat.mul_comm, Nat.mod_mul_right_div_self]
  simp only [QedReader.extent, hl1, hl2, hoff]

end Qed

end Mountin
