import Mountin.Basic.Dict
import Mountin.Disk.Map
import Mountin.Partition.Windows

set_option autoImplicit false

/-! # UBI images

`ubi.rs`: erase blocks that say which block of which volume they hold. A volume is put together
from the blocks that name it, and holds zeros where none does.
-/

namespace Mountin.Ubi

open Partition
open Tracks (readBe readBytes)

def EC_HDR_MAGIC : Nat := 0x55424923
def VID_HDR_MAGIC : Nat := 0x55424921
def UBI_INTERNAL_VOL_START : Nat := 0x7FFFEFFF
def UBI_LAYOUT_VOLUME_ID : Nat := UBI_INTERNAL_VOL_START
def MAX_PEBS : Nat := 65536
def MAX_VOLUMES : Nat := 128
def VTBL_RECORD_SIZE : Nat := 172

/-- `PEB_SIZES`: the sizes to probe, in this order. -/
def PEB_SIZES : List Nat := [128 * 1024, 256 * 1024, 512 * 1024, 64 * 1024, 1024 * 1024]

/-- `LebMap`: where the data of a logical block are, and their size. -/
abbrev LebMap := Dict Nat (Nat × Nat)

/-- The first of the sizes at which there is another header. -/
def probe (reader : Reader) : List Nat → Nat
  | [] => 128 * 1024
  | peb_size :: rest =>
      match readBe reader 4 peb_size with
      | .ok magic => if magic = EC_HDR_MAGIC then peb_size else probe reader rest
      | .error _ => probe reader rest

/-- `detect_peb_size`. -/
def detectPebSize (reader : Reader) : Except IoError Nat := do
  let magic ← readBe reader 4 0
  require (magic = EC_HDR_MAGIC) (.invalidData "no UBI EC header at offset 0")
  return probe reader PEB_SIZES

/-- What the erase blocks so far have said. -/
structure Scan where
  vol_maps : Dict Nat LebMap := []
  vid_hdr_offset : Nat := 0
  data_offset : Nat := 0

/-- The volume header of an erase block, when it has one. -/
def scanVolume (reader : Reader) (peb_start peb_vid_offset peb_data_offset : Nat) (scan : Scan) :
    Except IoError Scan :=
  let vid_start := peb_start + peb_vid_offset
  match readBe reader 4 vid_start with
  | .error _ => .ok scan
  | .ok vid_magic =>
      if vid_magic ≠ VID_HDR_MAGIC then .ok scan
      else do
        let vol_id ← readBe reader 4 (vid_start + 0x08)
        let lnum ← readBe reader 4 (vid_start + 0x0C)
        let data_size ← readBe reader 4 (vid_start + 0x14)
        -- later blocks overwrite earlier ones
        let leb_map := (scan.vol_maps.getD vol_id []).set lnum (peb_start + peb_data_offset, data_size)
        return { scan with vol_maps := scan.vol_maps.set vol_id leb_map }

/-- The loop over the erase blocks, `left` of which remain. -/
def scanFrom (reader : Reader) (peb_size : Nat) :
    (left peb_num : Nat) → Scan → Except IoError Scan
  | 0, _, scan => .ok scan
  | left + 1, peb_num, scan =>
      let peb_start := peb_num * peb_size
      match readBe reader 4 peb_start with
      | .error _ => .ok scan
      | .ok magic =>
          if magic ≠ EC_HDR_MAGIC then scanFrom reader peb_size left (peb_num + 1) scan
          else do
            let peb_vid_offset ← readBe reader 4 (peb_start + 0x10)
            let peb_data_offset ← readBe reader 4 (peb_start + 0x14)
            let scan :=
              if scan.vid_hdr_offset = 0 then
                { scan with vid_hdr_offset := peb_vid_offset, data_offset := peb_data_offset }
              else scan
            let scan ← scanVolume reader peb_start peb_vid_offset peb_data_offset scan
            scanFrom reader peb_size left (peb_num + 1) scan

/-- `scan_pebs`. -/
def scanPebs (reader : Reader) (peb_size : Nat) : Except IoError Scan := do
  let scan ← scanFrom reader peb_size MAX_PEBS 0 {}
  require (scan.vol_maps ≠ []) (.invalidData "no UBI volumes found")
  return scan

/-- A record of the volume table, which nothing uses: what remains is the error of a read. -/
def readRecord (reader : Reader) (rec_offset : Nat) : Except IoError Unit :=
  match readBe reader 4 rec_offset with
  | .error _ => .ok ()
  | .ok reserved_pebs =>
      if reserved_pebs = 0 then .ok ()
      else
        match readBytes reader (rec_offset + 12) 1, readBe reader 2 (rec_offset + 14) with
        | .ok _, .ok name_len =>
            if 0 < name_len ∧ name_len ≤ 127 then do
              let _ ← reader.readAt (wrap (rec_offset + 16)) name_len
              return ()
            else .ok ()
        | _, _ => .ok ()

/-- `read_volume_table`. -/
def readVolumeTable (reader : Reader) (vol_maps : Dict Nat LebMap) (leb_size : Nat) :
    Except IoError Unit :=
  match (vol_maps.get? UBI_LAYOUT_VOLUME_ID).bind fun layout_map => Dict.get? layout_map 0 with
  | none => .ok ()
  | some (data_offset, _) =>
      (List.range (min (leb_size / VTBL_RECORD_SIZE) MAX_VOLUMES)).forM fun i =>
        readRecord reader (data_offset + i * VTBL_RECORD_SIZE)

/-- `UbiVolumeReader`. -/
structure UbiVolumeReader where
  parent : Reader
  leb_map : LebMap
  leb_size : Nat
  virtual_size : Nat

/-- `UbiVolumeReader::new`: the size follows from the highest block. -/
def UbiVolumeReader.new (parent : Reader) (leb_map : LebMap) (leb_size : Nat) : UbiVolumeReader where
  parent := parent
  leb_map := leb_map
  leb_size := leb_size
  virtual_size :=
    match (Dict.keys leb_map).max? with
    | none => 0
    | some max_leb => wrap ((max_leb + 1) * leb_size)

/-- The source of a block; a number beyond `u32` is cut off. -/
def UbiVolumeReader.extent (r : UbiVolumeReader) (leb_num : Nat) : Extent :=
  match r.leb_map.get? (leb_num % 2 ^ 32) with
  | some (data_offset, _) => .stored data_offset
  | none => .hole

/-- The map of a volume; its `readAt` is `read_at`. -/
def UbiVolumeReader.map (r : UbiVolumeReader) : DiskMap where
  parent := r.parent
  virtualSize := r.virtual_size
  piece := blockPiece r.leb_size (fun offset => .ok (r.extent (offset / r.leb_size)))

/-- The readers of the volumes, in the order of their numbers. -/
def volumes (reader : Reader) : Except IoError (List (Nat × UbiVolumeReader)) := do
  let peb_size ← detectPebSize reader
  let scan ← scanPebs reader peb_size
  let leb_size := wrapSub peb_size scan.data_offset
  readVolumeTable reader scan.vol_maps leb_size
  let user := scan.vol_maps.filter fun e => decide (e.1 < UBI_INTERNAL_VOL_START)
  return (user.map fun e => (e.1, UbiVolumeReader.new reader e.2 leb_size)).mergeSort
    fun a b => decide (a.1 ≤ b.1)

/-- `UBI`. -/
def UBI : Container := fun reader => do
  let vols ← volumes reader
  return vols.map fun vol => ⟨UInt32.ofNat vol.1, 0, .decoded vol.2.map.reader⟩

end Mountin.Ubi
