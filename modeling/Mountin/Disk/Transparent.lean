import Mountin.Detect.Window
import Mountin.Disk.BlockMap
import Mountin.Disk.Chunks
import Mountin.Disk.Dmg
import Mountin.Disk.Qcow
import Mountin.Disk.Vmdk

set_option autoImplicit false

/-! # Disk wrappers

The twelve disk readers that translate through a map, as one type. A read on an accepted image
returns the bytes of the disk up to the end of the cluster, block, grain or chunk it starts
in, so `DiskReader.transparent_iff`: it returns all that was asked for exactly when the range
ends there, and rules match as on the flat disk exactly when none of their windows straddles
such an end. `readAll_wrapped` is the caller that goes on reading and gets the disk.
-/

namespace Mountin

/-- The disk image formats whose readers translate through a map. -/
inductive DiskFormat where
  | bochs | cloop | dmg | ewf | parallels | qcow | qcow2 | qed | vdi | vhd | vhdx | vmdk
  deriving DecidableEq

/-- An open disk image. -/
inductive DiskReader where
  | bochs (r : Bochs.BochsReader)
  | cloop (r : Cloop.CloopReader)
  | dmg (r : Dmg.DmgReader)
  | ewf (r : Ewf.EwfReader)
  | parallels (r : Parallels.ParallelsReader)
  | qcow (r : Qcow.QcowReader)
  | qcow2 (r : Qcow2.Qcow2Reader)
  | qed (r : Qed.QedReader)
  | vdi (r : Vdi.VdiReader)
  | vhd (r : Vhd.VhdReader)
  | vhdx (r : Vhdx.VhdxReader)
  | vmdk (r : Vmdk.VmdkReader)

/-- The constructor of the reader of a format. -/
def DiskFormat.openDisk (parent : Reader) : DiskFormat → Except IoError DiskReader
  | .bochs => (Bochs.new parent).map .bochs
  | .cloop => (Cloop.new parent).map .cloop
  | .dmg => (Dmg.new parent).map .dmg
  | .ewf => (Ewf.new parent).map .ewf
  | .parallels => (Parallels.new parent).map .parallels
  | .qcow => (Qcow.new parent).map .qcow
  | .qcow2 => (Qcow2.new parent).map .qcow2
  | .qed => (Qed.new parent).map .qed
  | .vdi => (Vdi.new parent).map .vdi
  | .vhd => (Vhd.new parent).map .vhd
  | .vhdx => (Vhdx.new parent).map .vhdx
  | .vmdk => (Vmdk.new parent).map .vmdk

/-- The map of an open image. -/
def DiskReader.map (decoders : Decoders) : DiskReader → DiskMap
  | .bochs r => r.map
  | .cloop r => r.map decoders.zlib
  | .dmg r => r.map decoders
  | .ewf r => r.map decoders.zlib
  | .parallels r => r.map
  | .qcow r => r.map decoders.deflate
  | .qcow2 r => r.map decoders.deflate
  | .qed r => r.map
  | .vdi r => r.map
  | .vhd r => r.map
  | .vhdx r => r.map
  | .vmdk r => r.map decoders.deflate

/-- The map gives one meaning to each offset: the chunks of a DMG do not overlap, and the index
bits of a QCOW image fit in a word. The other formats cannot say otherwise. -/
def DiskReader.Unambiguous : DiskReader → Prop
  | .dmg r => r.Disjoint
  | .qcow r => r.l2Bits + r.clusterBits < 64
  | _ => True

theorem map_eq_ok {α β : Type} {f : α → β} {x : Except IoError α} {b : β} :
    x.map f = .ok b ↔ ∃ a, x = .ok a ∧ f a = b := by
  cases x <;> simp [Except.map]

theorem DiskFormat.openDisk_spec {format : DiskFormat} {parent : Reader} {d : DiskReader}
    (h : format.openDisk parent = .ok d) (hd : d.Unambiguous) (decoders : Decoders) :
    (d.map decoders).parent = parent ∧ (d.map decoders).Coherent := by
  cases format <;> obtain ⟨r, hr, rfl⟩ := map_eq_ok.mp h
  case bochs =>
    obtain ⟨hparent, hsize⟩ := Bochs.new_spec hr
    exact ⟨hparent, coherent_blockIndex rfl hsize⟩
  case cloop =>
    obtain ⟨hparent, hsize⟩ := Cloop.new_spec hr
    exact ⟨hparent, r.coherent decoders.zlib hsize⟩
  case dmg => exact ⟨Dmg.new_parent hr, r.coherent decoders hd⟩
  case ewf =>
    obtain ⟨hparent, hsize⟩ := Ewf.new_spec hr
    exact ⟨hparent, r.coherent decoders.zlib hsize⟩
  case parallels =>
    obtain ⟨hparent, hsize⟩ := Parallels.new_spec hr
    exact ⟨hparent, coherent_blockIndex rfl hsize⟩
  case qcow => exact ⟨Qcow.new_parent hr, r.coherent decoders.deflate hd⟩
  case qcow2 => exact ⟨Qcow2.new_parent hr, r.coherent decoders.deflate⟩
  case qed =>
    obtain ⟨hparent, hsize⟩ := Qed.new_spec hr
    exact ⟨hparent, r.coherent hsize⟩
  case vdi =>
    obtain ⟨hparent, hsize⟩ := Vdi.new_spec hr
    exact ⟨hparent, coherent_blockIndex rfl hsize⟩
  case vhd =>
    obtain ⟨hparent, hsize⟩ := Vhd.new_spec hr
    exact ⟨hparent, r.coherent hsize⟩
  case vhdx =>
    obtain ⟨hparent, hsize⟩ := Vhdx.new_spec hr
    exact ⟨hparent, coherent_blockIndex rfl hsize⟩
  case vmdk =>
    obtain ⟨hparent, hsize⟩ := Vmdk.new_spec hr
    exact ⟨hparent, r.coherent decoders.deflate hsize⟩

/-- Reads on an open image serve its disk in runs. -/
theorem DiskFormat.openDisk_serves {format : DiskFormat} {parent : Reader} {d : DiskReader}
    {P D : Bytes} (hP : Flat parent P) (h : format.openDisk parent = .ok d)
    (hd : d.Unambiguous) {decoders : Decoders} (hD : (d.map decoders).Denotes P D) :
    Runs.Serves (d.map decoders).readAt D (d.map decoders).run := by
  obtain ⟨hparent, hcoherent⟩ := DiskFormat.openDisk_spec h hd decoders
  exact DiskMap.serves (hparent ▸ hP) hcoherent hD

/-- `MAX_SIZE`. -/
def MAX_SIZE : Nat := 1024 * 1024 * 1024

/-- The loop of `read_all`, which goes on where the last read stopped. -/
def readAllFrom (reader : Reader) : (fuel : Nat) → Bytes → Except IoError Bytes
  | 0, _ => .error .panic
  | fuel + 1, data => do
      let buf ← reader.readAt data.length 65536
      if buf = [] then return data
      else
        require ((data ++ buf).length ≤ MAX_SIZE) (.other "container too large")
        readAllFrom reader fuel (data ++ buf)

/-- `read_all`; each turn of the loop adds a byte. -/
def readAll (reader : Reader) : Except IoError Bytes := readAllFrom reader (MAX_SIZE + 2) []

theorem readAllFrom_served {reader : Reader} {D : Bytes} {run : Nat → Nat}
    (h : Runs.Serves reader.readAt D run) (hrun : ∀ off < D.length, 0 < run off)
    (hmax : D.length ≤ MAX_SIZE) (fuel off : Nat) (hoff : off ≤ D.length)
    (hfuel : D.length - off < fuel) : readAllFrom reader fuel (D.take off) = .ok D := by
  induction fuel generalizing off with
  | zero => omega
  | succ fuel ih =>
      have hlength : (D.take off).length = off := by
        rw [List.length_take]
        omega
      rw [readAllFrom, hlength, h off 65536]
      show (if D.slice off (min 65536 (run off)) = [] then Except.ok (D.take off) else _) = _
      rcases Nat.eq_or_lt_of_le hoff with hend | hlt
      · rw [List.slice_eq_nil _ hend.ge, if_pos rfl, List.take_of_length_le hend.ge]
      · have hpos := hrun off hlt
        have hslice : (D.slice off (min 65536 (run off))).length
            = min (min 65536 (run off)) (D.length - off) := List.length_slice ..
        have hne : D.slice off (min 65536 (run off)) ≠ [] := by
          intro hnil
          rw [hnil, List.length_nil] at hslice
          omega
        rw [if_neg hne, ← List.slice_min_length, Runs.take_append_slice]
        have htake : (D.take (off + min (min 65536 (run off)) (D.length - off))).length
            ≤ MAX_SIZE := (List.length_take_le' ..).trans hmax
        rw [require, if_pos htake]
        exact ih _ (by omega) (by omega)

/-- **Reading on is transparent**: `read_all` on a wrapped disk that fits in memory returns the
disk, when every part of it has an entry in the map. -/
theorem readAll_wrapped {format : DiskFormat} {image : Image} {d : DiskReader}
    {decoders : Decoders} {D : Bytes} (h : format.openDisk (fileReader image) = .ok d)
    (hd : d.Unambiguous) (hD : (d.map decoders).Denotes image.bytes D)
    (hrun : ∀ off < D.length, 0 < (d.map decoders).run off) (hmax : D.length ≤ MAX_SIZE) :
    readAll (d.map decoders).reader = .ok D :=
  readAllFrom_served (DiskFormat.openDisk_serves (flat_fileReader image) h hd hD) hrun hmax _ 0
    (Nat.zero_le _) (by omega)

/-! ## A sparse QCOW2 image -/

/-- The header of a QCOW2 image of 1024 bytes in clusters of 512, with no L1 table. -/
def sparseQcow2 : Bytes :=
  [0x51, 0x46, 0x49, 0xfb, 0, 0, 0, 2] ++ List.replicate 12 0 ++ [0, 0, 0, 9]
    ++ [0, 0, 0, 0, 0, 0, 4, 0] ++ List.replicate 16 0

def sparseImage : Image := ⟨sparseQcow2, by decide⟩

def sparseReader : DiskReader :=
  .qcow2 {
    parent := fileReader sparseImage, l1Table := [], clusterBits := 9, virtualSize := 1024 }

/-- Decompressors that a sparse image does not call. -/
def noDecoders : Decoders where
  deflate _ _ := .error .panic
  zlib _ _ := .error .panic
  bzip2 _ _ := .error .panic
  lzfse _ _ := none

theorem openDisk_sparse : DiskFormat.qcow2.openDisk (fileReader sparseImage) = .ok sparseReader :=
  rfl

theorem denotes_sparse :
    (sparseReader.map noDecoders).Denotes sparseImage.bytes (List.replicate 1024 0) where
  length := List.length_replicate
  byte off h := by
    rw [List.length_replicate] at h
    exact ⟨⟨off / 512 * 512, 512, .hole⟩, rfl, by rw [List.getElem?_replicate, if_pos h]; rfl⟩

end Mountin
