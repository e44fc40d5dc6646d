import Mountin.Disk.Arithmetic
import Mountin.Disk.Transparent
import Mountin.Partition.Ubi

set_option autoImplicit false

/-! # The arithmetic of UBI images

Opening a UBI image and reading its volumes, with the arithmetic checked as in the disk readers.

* `checkedVolumes_settles` : opening faults exactly when an erase block is smaller than the offset of
  its data.
* `reads_safe_iff` : when opening an image and reading it stays without faults, for the readers of
  EWF, Bochs, VMDK and UBI images.
-/

namespace Mountin

open Checked (Settles)

namespace Ubi

open Tracks (readBe readBytes)

/-- The loop over `PEB_SIZES`. -/
def checkedProbe (reader : Reader) : List Nat → Checked IoError Nat
  | [] => .ok (128 * 1024)
  | peb_size :: rest =>
      match readBe reader 4 peb_size with
      | .ok magic =>
          if magic = EC_HDR_MAGIC then do
            -- the third header is read, and does not matter
            let _ ← Checked.mul 64 peb_size 2
            return peb_size
          else checkedProbe reader rest
      | .error _ => checkedProbe reader rest

/-- `detect_peb_size`. -/
def checkedPebSize (reader : Reader) : Checked IoError Nat := do
  let magic ← Checked.lift (readBe reader 4 0)
  Checked.lift (require (magic = EC_HDR_MAGIC) (.invalidData "no UBI EC header at offset 0"))
  checkedProbe reader PEB_SIZES

/-- A field at an offset of a header. -/
def checkedField (reader : Reader) (start off : Nat) : Checked IoError Nat := do
  let position ← Checked.add 64 start off
  Checked.lift (readBe reader 4 position)

/-- The volume header of an erase block, when it has one. -/
def checkedVolume (reader : Reader) (peb_start peb_vid_offset peb_data_offset : Nat) (scan : Scan) :
    Checked IoError Scan := do
  let vid_start ← Checked.add 64 peb_start peb_vid_offset
  match readBe reader 4 vid_start with
  | .error _ => return scan
  | .ok vid_magic =>
      if vid_magic ≠ VID_HDR_MAGIC then return scan
      else
        let vol_id ← checkedField reader vid_start 0x08
        let lnum ← checkedField reader vid_start 0x0C
        let data_size ← checkedField reader vid_start 0x14
        let abs_data_offset ← Checked.add 64 peb_start peb_data_offset
        let leb_map := (scan.vol_maps.getD vol_id []).set lnum (abs_data_offset, data_size)
        return { scan with vol_maps := scan.vol_maps.set vol_id leb_map }

/-- The loop over the erase blocks, `left` of which remain. -/
def checkedScanFrom (reader : Reader) (peb_size : Nat) :
    (left peb_num : Nat) → Scan → Checked IoError Scan
  | 0, _, scan => .ok scan
  | left + 1, peb_num, scan => do
      let peb_start ← Checked.mul 64 peb_num peb_size
      match readBe reader 4 peb_start with
      | .error _ => return scan
      | .ok magic =>
          if magic ≠ EC_HDR_MAGIC then checkedScanFrom reader peb_size left (peb_num + 1) scan
          else
            let peb_vid_offset ← checkedField reader peb_start 0x10
            let peb_data_offset ← checkedField reader peb_start 0x14
            let scan :=
              if scan.vid_hdr_offset = 0 then
                { scan with vid_hdr_offset := peb_vid_offset, data_offset := peb_data_offset }
              else scan
            let scan ← checkedVolume reader peb_start peb_vid_offset peb_data_offset scan
            checkedScanFrom reader peb_size left (peb_num + 1) scan

/-- `scan_pebs`. -/
def checkedScan (reader : Reader) (peb_size : Nat) : Checked IoError Scan := do
  let scan ← checkedScanFrom reader peb_size MAX_PEBS 0 {}
  Checked.lift (require (scan.vol_maps ≠ []) (.invalidData "no UBI volumes found"))
  return scan

/-- A record of the volume table. -/
def checkedRecord (reader : Reader) (data_offset i : Nat) : Checked IoError Unit := do
  let record ← Checked.mul 64 i VTBL_RECORD_SIZE
  let rec_offset ← Checked.add 64 data_offset record
  match readBe reader 4 rec_offset with
  | .error _ => return ()
  | .ok reserved_pebs =>
      if reserved_pebs = 0 then return ()
      else
        let type_offset ← Checked.add 64 rec_offset 12
        let len_offset ← Checked.add 64 rec_offset 14
        match readBytes reader type_offset 1, readBe reader 2 len_offset with
        | .ok _, .ok name_len =>
            if 0 < name_len ∧ name_len ≤ 127 then
              let name_offset ← Checked.add 64 rec_offset 16
              let _ ← Checked.lift (reader.readAt name_offset name_len)
              return ()
            else return ()
        | _, _ => return ()

/-- `read_volume_table`. -/
def checkedVolumeTable (reader : Reader) (vol_maps : Dict Nat LebMap) (leb_size : Nat) :
    Checked IoError Unit :=
  match (vol_maps.get? UBI_LAYOUT_VOLUME_ID).bind fun layout_map => Dict.get? layout_map 0 with
  | none => .ok ()
  | some (data_offset, _) => do
      let records_per_leb ← Checked.div leb_size VTBL_RECORD_SIZE
      (List.range (min records_per_leb MAX_VOLUMES)).forM fun i => checkedRecord reader data_offset i

/-- `UbiVolumeReader::new`. -/
def checkedReader (parent : Reader) (leb_map : LebMap) (leb_size : Nat) :
    Checked IoError UbiVolumeReader := do
  let virtual_size ←
    match (Dict.keys leb_map).max? with
    | none => .ok 0
    | some max_leb => do
        let count ← Checked.add 64 max_leb 1
        Checked.mul 64 count leb_size
  return { parent, leb_map, leb_size, virtual_size }

/-- `children`: the readers of the volumes, in the order of their numbers. -/
def checkedVolumes (reader : Reader) : Checked IoError (List (Nat × UbiVolumeReader)) := do
  let peb_size ← checkedPebSize reader
  let scan ← checkedScan reader peb_size
  let leb_size ← Checked.sub peb_size scan.data_offset
  checkedVolumeTable reader scan.vol_maps leb_size
  let user := scan.vol_maps.filter fun e => decide (e.1 < UBI_INTERNAL_VOL_START)
  let readers ← user.mapM fun e => do
    let reader ← checkedReader reader e.2 leb_size
    return (e.1, reader)
  return readers.mergeSort fun a b => decide (a.1 ≤ b.1)

/-- `read_at` of a volume. -/
def UbiVolumeReader.readAt (r : UbiVolumeReader) (off len : Nat) : Checked IoError Bytes :=
  readBlock r.leb_size r.virtual_size off len fun leb_num in_leb toRead =>
    match r.leb_map.get? (leb_num % 2 ^ 32) with
    | some (data_offset, _) => do
        let physical ← Checked.add 64 data_offset in_leb
        Checked.lift (r.parent.readAt physical toRead)
    | none => .ok (List.replicate toRead 0)

/-! ## Opening -/

variable {reader : Reader} {peb_size : Nat}

theorem checkedProbe_eq {sizes : List Nat} (h : ∀ size ∈ sizes, size ≤ 2 ^ 20) :
    checkedProbe reader sizes = .ok (probe reader sizes) := by
  induction sizes with
  | nil => rfl
  | cons size rest ih =>
      have hsize := h size List.mem_cons_self
      have hrest := ih fun size' hmem => h size' (List.mem_cons_of_mem _ hmem)
      rw [checkedProbe, probe]
      cases readBe reader 4 size with
      | error e => exact hrest
      | ok magic =>
          dsimp only
          split_ifs
          · rw [Checked.mul_eq (by omega)]
            rfl
          · exact hrest

theorem probe_le {sizes : List Nat} (h : ∀ size ∈ sizes, size ≤ 2 ^ 20) :
    probe reader sizes ≤ 2 ^ 20 := by
  induction sizes with
  | nil => exact (by decide : 128 * 1024 ≤ 2 ^ 20)
  | cons size rest ih =>
      have hrest := ih fun size' hmem => h size' (List.mem_cons_of_mem _ hmem)
      rw [probe]
      split
      · split_ifs
        · exact h size List.mem_cons_self
        · exact hrest
      · exact hrest

theorem checkedPebSize_eq : checkedPebSize reader = Checked.lift (detectPebSize reader) := by
  rw [checkedPebSize, detectPebSize, checkedProbe_eq (by decide)]
  simp only [Checked.lift_bind]
  rfl

theorem detectPebSize_le (h : detectPebSize reader = .ok peb_size) : peb_size ≤ 2 ^ 20 := by
  obtain ⟨_, -, h⟩ := bind_eq_ok.mp h
  obtain ⟨_, -, h⟩ := bind_eq_ok.mp h
  exact Except.ok.inj h ▸ probe_le (by decide)

theorem checkedField_eq {start off : Nat} (h : start + off < 2 ^ 64) :
    checkedField reader start off = Checked.lift (readBe reader 4 (start + off)) := by
  rw [checkedField, Checked.add_eq h, Except.ok_bind]

section

variable {peb_start vid_offset data_offset : Nat} (hstart : peb_start < 2 ^ 36)
  (hvid : vid_offset < 2 ^ 32) (hdata : data_offset < 2 ^ 32)

include hstart hvid hdata

theorem checkedVolume_eq (scan : Scan) :
    checkedVolume reader peb_start vid_offset data_offset scan =
      Checked.lift (scanVolume reader peb_start vid_offset data_offset scan) := by
  rw [checkedVolume, scanVolume, Checked.add_eq (by omega), Except.ok_bind]
  cases readBe reader 4 (peb_start + vid_offset) with
  | error e => rfl
  | ok magic =>
      dsimp only
      split_ifs
      · rfl
      · rw [checkedField_eq (by omega), checkedField_eq (by omega), checkedField_eq (by omega),
          Checked.add_eq (by omega)]
        simp only [Checked.lift_bind]
        rfl

end

/-- Where an erase block starts. -/
theorem start_lt (hsize : peb_size ≤ 2 ^ 20) {peb_num : Nat} (h : peb_num < 2 ^ 16) :
    peb_num * peb_size < 2 ^ 36 :=
  calc peb_num * peb_size ≤ peb_num * 2 ^ 20 := Nat.mul_le_mul_left _ hsize
    _ < 2 ^ 16 * 2 ^ 20 := Nat.mul_lt_mul_of_pos_right h (by decide)

theorem checkedScanFrom_eq (hsize : peb_size ≤ 2 ^ 20) {left peb_num : Nat}
    (hleft : peb_num + left ≤ 2 ^ 16) (scan : Scan) :
    checkedScanFrom reader peb_size left peb_num scan =
      Checked.lift (scanFrom reader peb_size left peb_num scan) := by
  induction left generalizing peb_num scan with
  | zero => rfl
  | succ left ih =>
      have hstart := start_lt hsize (Nat.lt_of_lt_of_le (Nat.lt_add_of_pos_right (Nat.succ_pos _)) hleft)
      rw [checkedScanFrom, scanFrom, Checked.mul_eq (hstart.trans (by decide)), Except.ok_bind]
      generalize peb_num * peb_size = peb_start at hstart ⊢
      cases readBe reader 4 peb_start with
      | error e => rfl
      | ok magic =>
          dsimp only
          by_cases hmagic : magic ≠ EC_HDR_MAGIC
          · rw [if_pos hmagic, if_pos hmagic]
            exact ih (by omega) scan
          · rw [if_neg hmagic, if_neg hmagic, checkedField_eq (by omega), checkedField_eq (by omega)]
            cases hvid : readBe reader 4 (peb_start + 0x10) with
            | error e => rfl
            | ok vid_offset =>
                cases hdata : readBe reader 4 (peb_start + 0x14) with
                | error e => rfl
                | ok data_offset =>
                    have hvid := Partition.readBe_lt hvid
                    have hdata := Partition.readBe_lt hdata
                    show (checkedVolume reader peb_start vid_offset data_offset _ >>= _) =
                      Checked.lift (scanVolume reader peb_start vid_offset data_offset _ >>= _)
                    rw [checkedVolume_eq hstart hvid hdata, Checked.lift_bind]
                    exact congrArg _ (funext fun scan => ih (by omega) scan)

/-- Blocks are numbered by `u32`, and their data begin below the largest sum that the scan forms. -/
def LebMap.Bounded (m : LebMap) : Prop := ∀ e ∈ m, e.1 < 2 ^ 32 ∧ e.2.1 < 2 ^ 37

def Scan.Bounded (scan : Scan) : Prop := ∀ e ∈ scan.vol_maps, LebMap.Bounded e.2

theorem scanVolume_bounded {peb_start vid_offset data_offset : Nat} {scan scan' : Scan}
    (hstart : peb_start < 2 ^ 36) (hdata : data_offset < 2 ^ 32) (hscan : scan.Bounded)
    (h : scanVolume reader peb_start vid_offset data_offset scan = .ok scan') : scan'.Bounded := by
  unfold scanVolume at h
  dsimp only at h
  split at h
  · exact Except.ok.inj h ▸ hscan
  · split_ifs at h
    · exact Except.ok.inj h ▸ hscan
    · obtain ⟨vol_id, -, h⟩ := bind_eq_ok.mp h
      obtain ⟨lnum, hlnum, h⟩ := bind_eq_ok.mp h
      obtain ⟨data_size, -, h⟩ := bind_eq_ok.mp h
      obtain rfl := Except.ok.inj h
      have hnum := Partition.readBe_lt hlnum
      intro e he
      rcases Dict.mem_of_mem_set he with rfl | he
      · intro block hblock
        rcases Dict.mem_of_mem_set hblock with rfl | hblock
        · exact ⟨hnum, by dsimp only; omega⟩
        · rw [Dict.getD] at hblock
          cases hget : scan.vol_maps.get? vol_id with
          | none =>
              rw [hget] at hblock
              cases hblock
          | some leb_map =>
              rw [hget] at hblock
              exact hscan _ (Dict.mem_of_get?_eq_some hget) block hblock
      · exact hscan e he

theorem scanFrom_bounded (hsize : peb_size ≤ 2 ^ 20) {left peb_num : Nat}
    (hleft : peb_num + left ≤ 2 ^ 16) {scan scan' : Scan} (hscan : scan.Bounded)
    (h : scanFrom reader peb_size left peb_num scan = .ok scan') : scan'.Bounded := by
  induction left generalizing peb_num scan with
  | zero => exact Except.ok.inj h ▸ hscan
  | succ left ih =>
      have hstart := start_lt hsize (Nat.lt_of_lt_of_le (Nat.lt_add_of_pos_right (Nat.succ_pos _)) hleft)
      unfold scanFrom at h
      dsimp only at h
      split at h
      · exact Except.ok.inj h ▸ hscan
      · next magic _ =>
        by_cases hmagic : magic ≠ EC_HDR_MAGIC
        · rw [if_pos hmagic] at h
          exact ih (by omega) hscan h
        · rw [if_neg hmagic] at h
          obtain ⟨vid_offset, -, h⟩ := bind_eq_ok.mp h
          obtain ⟨data_offset, hdata, h⟩ := bind_eq_ok.mp h
          obtain ⟨scan₁, hvolume, h⟩ := bind_eq_ok.mp h
          refine ih (by omega) (scanVolume_bounded hstart (Partition.readBe_lt hdata) ?_ hvolume) h
          split_ifs
          · exact hscan
          · exact hscan

theorem checkedScan_eq (hsize : peb_size ≤ 2 ^ 20) :
    checkedScan reader peb_size = Checked.lift (scanPebs reader peb_size) := by
  rw [checkedScan, scanPebs, checkedScanFrom_eq hsize (by decide)]
  simp only [Checked.lift_bind]
  rfl

theorem scanPebs_bounded (hsize : peb_size ≤ 2 ^ 20) {scan : Scan}
    (h : scanPebs reader peb_size = .ok scan) : scan.Bounded := by
  obtain ⟨scan', hscan, h⟩ := bind_eq_ok.mp h
  obtain ⟨_, -, h⟩ := bind_eq_ok.mp h
  obtain rfl := Except.ok.inj h
  refine scanFrom_bounded hsize (by decide) ?_ hscan
  rintro e ⟨⟩

theorem checkedRecord_eq {data_offset i : Nat} (hdata : data_offset < 2 ^ 37) (hi : i < MAX_VOLUMES) :
    checkedRecord reader data_offset i =
      Checked.lift (readRecord reader (data_offset + i * VTBL_RECORD_SIZE)) := by
  simp only [MAX_VOLUMES, VTBL_RECORD_SIZE] at hi ⊢
  rw [checkedRecord, VTBL_RECORD_SIZE, readRecord, Checked.mul_eq (by omega), Except.ok_bind,
    Checked.add_eq (by omega), Except.ok_bind]
  have hwrap : wrap (data_offset + i * 172 + 16) = data_offset + i * 172 + 16 :=
    Partition.wrap_of_lt (by omega)
  have hpast : data_offset + i * 172 + 16 < 2 ^ 64 := by omega
  rw [hwrap]
  generalize data_offset + i * 172 = rec_offset at hpast ⊢
  cases readBe reader 4 rec_offset with
  | error e => rfl
  | ok reserved_pebs =>
      dsimp only
      split_ifs
      · rfl
      · rw [Checked.add_eq (by omega), Except.ok_bind, Checked.add_eq (by omega), Except.ok_bind]
        cases readBytes reader (rec_offset + 12) 1 with
        | error e => rfl
        | ok vol_type =>
            cases readBe reader 2 (rec_offset + 14) with
            | error e => rfl
            | ok name_len =>
                dsimp only
                split_ifs
                · rw [Checked.add_eq hpast, Except.ok_bind, Checked.lift_bind]
                  rfl
                · rfl

theorem checkedVolumeTable_eq {vol_maps : Dict Nat LebMap} (leb_size : Nat)
    (h : ∀ e ∈ vol_maps, LebMap.Bounded e.2) :
    checkedVolumeTable reader vol_maps leb_size =
      Checked.lift (readVolumeTable reader vol_maps leb_size) := by
  rw [checkedVolumeTable, readVolumeTable]
  cases hlayout : vol_maps.get? UBI_LAYOUT_VOLUME_ID with
  | none => rfl
  | some layout_map =>
      rw [Option.bind_some]
      cases hblock : Dict.get? layout_map 0 with
      | none => rfl
      | some block =>
          obtain ⟨data_offset, data_size⟩ := block
          have hdata := (h _ (Dict.mem_of_get?_eq_some hlayout) _ (Dict.mem_of_get?_eq_some hblock)).2
          dsimp only
          rw [Checked.div_eq (by decide), Except.ok_bind]
          refine Checked.forM_eq fun i hi => checkedRecord_eq hdata ?_
          exact (List.mem_range.mp hi).trans_le (Nat.min_le_right _ _)

theorem checkedReader_eq {leb_map : LebMap} {leb_size : Nat} (hmap : leb_map.Bounded)
    (hsize : leb_size ≤ 2 ^ 20) :
    checkedReader reader leb_map leb_size = .ok (UbiVolumeReader.new reader leb_map leb_size) := by
  rw [checkedReader, UbiVolumeReader.new]
  cases hmax : (Dict.keys leb_map).max? with
  | none => rfl
  | some max_leb =>
      obtain ⟨e, he, rfl⟩ := List.mem_map.mp (List.max?_mem hmax)
      have hnum := (hmap e he).1
      have hvirtual : (e.1 + 1) * leb_size < 2 ^ 64 :=
        calc (e.1 + 1) * leb_size ≤ 2 ^ 32 * 2 ^ 20 := Nat.mul_le_mul hnum hsize
          _ < 2 ^ 64 := by decide
      dsimp only
      rw [Checked.add_eq (by omega), Except.ok_bind, Checked.mul_eq hvirtual, Except.ok_bind,
        Partition.wrap_of_lt hvirtual]
      rfl

theorem wrapSub_of_le {a b : Nat} (h : b ≤ a) (ha : a < 2 ^ 64) : Partition.wrapSub a b = a - b := by
  rw [Partition.wrapSub, wrap]
  omega

/-- **Opening a UBI image** faults exactly when an erase block is smaller than the offset of its
data. -/
theorem checkedVolumes_settles (reader : Reader) :
    Settles (∀ peb_size scan, detectPebSize reader = .ok peb_size → scanPebs reader peb_size = .ok scan →
        scan.data_offset ≤ peb_size) (volumes reader) (checkedVolumes reader) := by
  rw [checkedVolumes, volumes, checkedPebSize_eq]
  refine (Settles.lift_bind (d := fun peb_size => ∀ scan, scanPebs reader peb_size = .ok scan →
    scan.data_offset ≤ peb_size) _ fun peb_size hpeb => ?_).congr
      ⟨fun h peb_size scan hpeb => h peb_size hpeb scan, fun h peb_size hpeb scan => h peb_size scan hpeb⟩
  have hsize := detectPebSize_le hpeb
  rw [checkedScan_eq hsize]
  refine Settles.lift_bind _ fun scan hscan => ?_
  have hbounded := scanPebs_bounded hsize hscan
  refine (Settles.sub_bind fun hle => ?_).congr (and_iff_left trivial)
  have hleb := wrapSub_of_le hle (hsize.trans_lt (by decide))
  have hreaders : (scan.vol_maps.filter fun e => decide (e.1 < UBI_INTERNAL_VOL_START)).mapM
      (fun e => checkedReader reader e.2 (peb_size - scan.data_offset) >>= fun r => pure (e.1, r)) =
      (.ok ((scan.vol_maps.filter fun e => decide (e.1 < UBI_INTERNAL_VOL_START)).map fun e =>
        (e.1, UbiVolumeReader.new reader e.2 (peb_size - scan.data_offset))) :
          Checked IoError (List (Nat × UbiVolumeReader))) := by
    refine List.mapM_eq_map fun e he => ?_
    rw [checkedReader_eq (hbounded e (List.mem_of_mem_filter he)) (by omega)]
    rfl
  dsimp only
  rw [hleb, hreaders, checkedVolumeTable_eq _ hbounded]
  exact (Settles.lift_bind _ fun _ _ => Settles.ok _).congr (iff_of_true (fun _ _ => trivial) trivial)

/-- The volumes of an opened image. -/
theorem checkedVolumes_spec {vols : List (Nat × UbiVolumeReader)}
    (h : checkedVolumes reader = .ok vols) : ∀ vol ∈ vols, ∃ leb_map leb_size,
      LebMap.Bounded leb_map ∧ leb_size ≤ 2 ^ 20 ∧
        vol.2 = UbiVolumeReader.new reader leb_map leb_size := by
  obtain ⟨hfits, h⟩ := (checkedVolumes_settles reader).of_ok h
  obtain ⟨peb_size, hpeb, h⟩ := bind_eq_ok.mp h
  obtain ⟨scan, hscan, h⟩ := bind_eq_ok.mp h
  obtain ⟨_, -, h⟩ := bind_eq_ok.mp h
  obtain rfl := Except.ok.inj h
  have hsize := detectPebSize_le hpeb
  have hleb := wrapSub_of_le (hfits peb_size scan hpeb hscan) (hsize.trans_lt (by decide))
  intro vol hvol
  obtain ⟨e, he, rfl⟩ := List.mem_map.mp (List.mem_mergeSort.mp hvol)
  refine ⟨e.2, _, scanPebs_bounded hsize hscan e (List.mem_of_mem_filter he), ?_, rfl⟩
  rw [hleb]
  exact (Nat.sub_le _ _).trans hsize

/-- A read of a volume does not fault. -/
theorem settles {leb_map : LebMap} {leb_size : Nat} (hmap : leb_map.Bounded)
    (hsize : leb_size ≤ 2 ^ 20) (off len : Nat) :
    Settles True ((UbiVolumeReader.new reader leb_map leb_size).map.readAt off len)
      ((UbiVolumeReader.new reader leb_map leb_size).readAt off len) := by
  generalize hr : UbiVolumeReader.new reader leb_map leb_size = r
  have hmap' : r.leb_map = leb_map := hr ▸ rfl
  have hsize' : r.leb_size = leb_size := hr ▸ rfl
  -- a volume of empty blocks is empty
  have hpos : off < r.virtual_size → 0 < r.leb_size := by
    intro hoff
    rw [hsize']
    refine Nat.pos_of_ne_zero fun hzero => ?_
    have hempty : r.virtual_size = 0 := by
      rw [← hr, UbiVolumeReader.new, hzero]
      cases (Dict.keys leb_map).max? <;> rfl
    omega
  refine (@readBlock_settles r.map r.leb_size off len True
    (fun offset => .ok (r.extent (offset / r.leb_size))) _ rfl hpos fun hoff => ?_).congr
      (iff_of_true (fun _ => trivial) trivial)
  rw [Except.ok_bind, UbiVolumeReader.extent]
  cases hblock : r.leb_map.get? (off / r.leb_size % 2 ^ 32) with
  | none => exact Settles.ok _
  | some block =>
      obtain ⟨data_offset, data_size⟩ := block
      rw [hmap'] at hblock
      have hdata := (hmap _ (Dict.mem_of_get?_eq_some hblock)).2
      have hmod := Nat.mod_lt off (hpos hoff)
      exact (stored_settles r.parent data_offset _ _).congr (iff_true_intro (by dsimp only at hdata; omega))

/-! ## The header that gives the data offset -/

section

variable (bytes : Bytes) (peb_size : Nat)

/-- A magic number at a position. -/
def HasMagic (magic position : Nat) : Prop :=
  position + 4 ≤ bytes.length ∧ beField bytes position 4 = magic

instance (magic position : Nat) : Decidable (HasMagic bytes magic position) :=
  inferInstanceAs (Decidable (_ ∧ _))

/-- The first of `PEB_SIZES` at which there is another header. -/
def pebSize : Nat :=
  (PEB_SIZES.find? fun size => decide (HasMagic bytes EC_HDR_MAGIC size)).getD (128 * 1024)

/-- The erase blocks with a header. -/
def headed : List Nat :=
  (List.range MAX_PEBS).filter fun n => decide (HasMagic bytes EC_HDR_MAGIC (n * peb_size))

/-- Where the volume header of an erase block is. -/
def vidOffset (n : Nat) : Nat := beField bytes (n * peb_size + 0x10) 4

/-- Where the data of an erase block are, as its header says. -/
def dataOffset (n : Nat) : Nat := beField bytes (n * peb_size + 0x14) 4

/-- The headers of an erase block are inside the image. -/
def Whole (n : Nat) : Prop :=
  n * peb_size + 0x18 ≤ bytes.length ∧
    (HasMagic bytes VID_HDR_MAGIC (n * peb_size + vidOffset bytes peb_size n) →
      n * peb_size + vidOffset bytes peb_size n + 0x18 ≤ bytes.length)

/-- The header that gives the data offset: the first with an offset for the volume header, or the
last. -/
def deciding (l : List Nat) : Option Nat :=
  (l.find? fun n => decide (vidOffset bytes peb_size n ≠ 0)).or l.getLast?

/-- The image can be scanned, and the header that gives the data offset gives one outside its erase
block. -/
structure Underflows : Prop where
  header : HasMagic bytes EC_HDR_MAGIC 0
  whole : ∀ n ∈ headed bytes (pebSize bytes), Whole bytes (pebSize bytes) n
  volume : ∃ n ∈ headed bytes (pebSize bytes),
    HasMagic bytes VID_HDR_MAGIC (n * pebSize bytes + vidOffset bytes (pebSize bytes) n)
  outside : ∃ n, deciding bytes (pebSize bytes) (headed bytes (pebSize bytes)) = some n ∧
    pebSize bytes < dataOffset bytes (pebSize bytes) n

end

variable {image : Image}

theorem readBe_eq {off : Nat} (h : off < 2 ^ 63) : readBe (fileReader image) 4 off =
    if off + 4 ≤ image.bytes.length then .ok (beField image.bytes off 4)
    else .error (.unexpectedEof "short read") := by
  rw [readBe, readBytes, Partition.wrap_of_lt (by omega)]
  split_ifs with hend
  · rw [readExactly_slice _ hend (by decide)]
    rfl
  · rw [readExactly_short _ h (by decide) (by omega)]
    rfl

theorem probe_eq {sizes : List Nat} (h : ∀ size ∈ sizes, size ≤ 2 ^ 20) :
    probe (fileReader image) sizes =
      (sizes.find? fun size => decide (HasMagic image.bytes EC_HDR_MAGIC size)).getD (128 * 1024) := by
  induction sizes with
  | nil => rfl
  | cons size rest ih =>
      have hsize := h size List.mem_cons_self
      have hrest := ih fun size' hmem => h size' (List.mem_cons_of_mem _ hmem)
      rw [probe, readBe_eq (by omega), List.find?_cons]
      by_cases hend : size + 4 ≤ image.bytes.length
      · rw [if_pos hend]
        by_cases hmagic : beField image.bytes size 4 = EC_HDR_MAGIC
        · have hhas : HasMagic image.bytes EC_HDR_MAGIC size := ⟨hend, hmagic⟩
          simp only [hmagic, if_true, hhas, decide_true, Option.getD_some]
        · have hnot : ¬ HasMagic image.bytes EC_HDR_MAGIC size := fun hhas => hmagic hhas.2
          simp only [hmagic, if_false, hnot, decide_false]
          exact hrest
      · have hnot : ¬ HasMagic image.bytes EC_HDR_MAGIC size := fun hhas => hend hhas.1
        rw [if_neg hend]
        simp only [hnot, decide_false]
        exact hrest

theorem detectPebSize_eq_ok : detectPebSize (fileReader image) = .ok peb_size ↔
    HasMagic image.bytes EC_HDR_MAGIC 0 ∧ pebSize image.bytes = peb_size := by
  rw [detectPebSize, probe_eq (by decide), readBe_eq (by decide), ← pebSize]
  by_cases hend : 0 + 4 ≤ image.bytes.length
  · rw [if_pos hend, Except.ok_bind, bind_eq_ok]
    simp only [require_eq_ok, HasMagic, hend, true_and, exists_const, pure, Except.pure, Except.ok.injEq]
  · rw [if_neg hend]
    exact iff_of_false (by rintro ⟨⟩) fun h => hend h.1.1

/-- What an erase block with a header adds to the scan. -/
def scanBlock (reader : Reader) (peb_size : Nat) (scan : Scan) (n : Nat) : Except IoError Scan := do
  let peb_vid_offset ← readBe reader 4 (n * peb_size + 0x10)
  let peb_data_offset ← readBe reader 4 (n * peb_size + 0x14)
  let scan :=
    if scan.vid_hdr_offset = 0 then
      { scan with vid_hdr_offset := peb_vid_offset, data_offset := peb_data_offset }
    else scan
  scanVolume reader (n * peb_size) peb_vid_offset peb_data_offset scan

/-- The scan runs over the erase blocks with a header. -/
theorem scanFrom_eq (hsize : peb_size ≤ 2 ^ 20) {left peb_num : Nat} (hleft : peb_num + left ≤ 2 ^ 16)
    (scan : Scan) : scanFrom (fileReader image) peb_size left peb_num scan =
      ((List.range' peb_num left).filter fun n =>
        decide (HasMagic image.bytes EC_HDR_MAGIC (n * peb_size))).foldlM
          (scanBlock (fileReader image) peb_size) scan := by
  induction left generalizing peb_num scan with
  | zero => rfl
  | succ left ih =>
      have hstart := start_lt hsize (Nat.lt_of_lt_of_le (Nat.lt_add_of_pos_right (Nat.succ_pos _)) hleft)
      rw [scanFrom, readBe_eq (hstart.trans (by decide)), List.range'_succ, List.filter_cons]
      by_cases hend : peb_num * peb_size + 4 ≤ image.bytes.length
      · rw [if_pos hend]
        by_cases hmagic : beField image.bytes (peb_num * peb_size) 4 = EC_HDR_MAGIC
        · have hhas : HasMagic image.bytes EC_HDR_MAGIC (peb_num * peb_size) := ⟨hend, hmagic⟩
          simp only [hmagic, ne_eq, not_true_eq_false, if_false, hhas, decide_true, if_true,
            List.foldlM_cons, scanBlock, bind_assoc]
          refine congrArg _ (funext fun vid_offset => congrArg _ (funext fun data_offset =>
            congrArg _ (funext fun scan => ?_)))
          exact ih (by omega) scan
        · have hnot : ¬ HasMagic image.bytes EC_HDR_MAGIC (peb_num * peb_size) := fun h => hmagic h.2
          simp only [hmagic, ne_eq, not_false_eq_true, if_true, hnot, decide_false, Bool.false_eq_true,
            if_false]
          exact ih (by omega) scan
      · -- the image has ended: no later block has a header
        have hnone : ∀ n ≥ peb_num, ¬ HasMagic image.bytes EC_HDR_MAGIC (n * peb_size) := by
          intro n hn hhas
          have hmono := Nat.mul_le_mul_right peb_size hn
          have := hhas.1
          omega
        rw [if_neg hend, if_neg (by simpa using hnone peb_num le_rfl), List.filter_eq_nil_iff.mpr]
        · rfl
        · intro n hn
          have := (List.mem_range'_1.mp hn).1
          simpa using hnone n (by omega)

theorem readBe_eq_ok {off v : Nat} (h : off < 2 ^ 63) : readBe (fileReader image) 4 off = .ok v ↔
    off + 4 ≤ image.bytes.length ∧ beField image.bytes off 4 = v := by
  rw [readBe_eq h]
  split_ifs with hend
  · simp only [Except.ok.injEq, hend, true_and]
  · simp only [reduceCtorEq, hend, false_and]

section

variable {start vid_offset data_offset : Nat} {scan : Scan} (hstart : start < 2 ^ 36)
  (hvid : vid_offset < 2 ^ 32)

include hstart hvid

/-- A volume header that begins inside the image has to end there. -/
theorem scanVolume_returns_iff :
    (∃ scan', scanVolume (fileReader image) start vid_offset data_offset scan = .ok scan') ↔
      (HasMagic image.bytes VID_HDR_MAGIC (start + vid_offset) →
        start + vid_offset + 0x18 ≤ image.bytes.length) := by
  rw [scanVolume, readBe_eq (by omega)]
  by_cases hend : start + vid_offset + 4 ≤ image.bytes.length
  · rw [if_pos hend]
    by_cases hmagic : beField image.bytes (start + vid_offset) 4 = VID_HDR_MAGIC
    · have hhas : HasMagic image.bytes VID_HDR_MAGIC (start + vid_offset) := ⟨hend, hmagic⟩
      simp only [hmagic, ne_eq, not_true_eq_false, if_false, hhas, true_imp_iff, bind_eq_ok,
        pure, Except.pure, Except.ok.injEq]
      constructor
      · rintro ⟨_, _, -, _, -, size, hsize, -⟩
        exact ((readBe_eq_ok (by omega)).mp hsize).1
      · intro hwhole
        exact ⟨_, _, (readBe_eq_ok (by omega)).mpr ⟨by omega, rfl⟩, _,
          (readBe_eq_ok (by omega)).mpr ⟨by omega, rfl⟩, _,
          (readBe_eq_ok (by omega)).mpr ⟨by omega, rfl⟩, rfl⟩
    · simp only [ne_eq, hmagic, not_false_eq_true, if_true]
      exact iff_of_true ⟨scan, rfl⟩ fun hhas => absurd hhas.2 hmagic
  · rw [if_neg hend]
    exact iff_of_true ⟨scan, rfl⟩ fun hhas => absurd hhas.1 hend

theorem scanVolume_spec {scan' : Scan}
    (h : scanVolume (fileReader image) start vid_offset data_offset scan = .ok scan') :
    (scan'.vol_maps ≠ [] ↔
        scan.vol_maps ≠ [] ∨ HasMagic image.bytes VID_HDR_MAGIC (start + vid_offset)) ∧
      scan'.vid_hdr_offset = scan.vid_hdr_offset ∧ scan'.data_offset = scan.data_offset := by
  rw [scanVolume, readBe_eq (by omega)] at h
  by_cases hend : start + vid_offset + 4 ≤ image.bytes.length
  · rw [if_pos hend] at h
    by_cases hmagic : beField image.bytes (start + vid_offset) 4 = VID_HDR_MAGIC
    · simp only [hmagic, ne_eq, not_true_eq_false, if_false, bind_eq_ok] at h
      obtain ⟨vol_id, -, _, -, _, -, h⟩ := h
      obtain rfl := Except.ok.inj h
      refine ⟨iff_of_true ?_ (.inr ⟨hend, hmagic⟩), rfl, rfl⟩
      exact List.ne_nil_of_mem (Dict.mem_of_get?_eq_some (Dict.get?_set_self _ vol_id _))
    · simp only [ne_eq, hmagic, not_false_eq_true, if_true] at h
      obtain rfl := Except.ok.inj h
      exact ⟨⟨.inl, fun hor => hor.resolve_right fun hhas => hmagic hhas.2⟩, rfl, rfl⟩
  · rw [if_neg hend] at h
    obtain rfl := Except.ok.inj h
    exact ⟨⟨.inl, fun hor => hor.resolve_right fun hhas => hend hhas.1⟩, rfl, rfl⟩

end

section

variable {n : Nat} (hsize : peb_size ≤ 2 ^ 20) (hn : n < 2 ^ 16)

include hsize hn

/-- A block is scanned when its headers are inside the image. -/
theorem scanBlock_returns_iff (scan : Scan) :
    (∃ scan', scanBlock (fileReader image) peb_size scan n = .ok scan') ↔
      Whole image.bytes peb_size n := by
  have hstart := start_lt hsize hn
  have hvid : vidOffset image.bytes peb_size n < 2 ^ 32 := beField_lt _ _ _
  simp only [scanBlock, bind_eq_ok]
  constructor
  · rintro ⟨scan', _, hvidread, _, hdataread, hvolume⟩
    obtain ⟨-, rfl⟩ := (readBe_eq_ok (by omega)).mp hvidread
    obtain ⟨hend, rfl⟩ := (readBe_eq_ok (by omega)).mp hdataread
    exact ⟨hend, (scanVolume_returns_iff hstart hvid).mp ⟨scan', hvolume⟩⟩
  · rintro ⟨hend, hvolume⟩
    obtain ⟨scan', hscan'⟩ := (scanVolume_returns_iff hstart hvid).mpr hvolume
    exact ⟨scan', _, (readBe_eq_ok (by omega)).mpr ⟨by omega, rfl⟩, _,
      (readBe_eq_ok (by omega)).mpr ⟨hend, rfl⟩, hscan'⟩

/-- What a scanned block sets. -/
theorem scanBlock_spec {scan scan' : Scan}
    (h : scanBlock (fileReader image) peb_size scan n = .ok scan') :
    (scan'.vol_maps ≠ [] ↔ scan.vol_maps ≠ [] ∨
        HasMagic image.bytes VID_HDR_MAGIC (n * peb_size + vidOffset image.bytes peb_size n)) ∧
      (scan.vid_hdr_offset = 0 → scan'.vid_hdr_offset = vidOffset image.bytes peb_size n ∧
        scan'.data_offset = dataOffset image.bytes peb_size n) ∧
      (scan.vid_hdr_offset ≠ 0 → scan'.vid_hdr_offset = scan.vid_hdr_offset ∧
        scan'.data_offset = scan.data_offset) := by
  have hstart := start_lt hsize hn
  have hvid : vidOffset image.bytes peb_size n < 2 ^ 32 := beField_lt _ _ _
  simp only [scanBlock, bind_eq_ok] at h
  obtain ⟨_, hvidread, _, hdataread, hvolume⟩ := h
  obtain ⟨-, rfl⟩ := (readBe_eq_ok (by omega)).mp hvidread
  obtain ⟨-, rfl⟩ := (readBe_eq_ok (by omega)).mp hdataread
  obtain ⟨hmaps, hvidset, hdataset⟩ := scanVolume_spec hstart hvid hvolume
  rw [hmaps, hvidset, hdataset]
  by_cases hzero : scan.vid_hdr_offset = 0
  · rw [if_pos hzero]
    exact ⟨Iff.rfl, fun _ => ⟨rfl, rfl⟩, fun hne => absurd hzero hne⟩
  · rw [if_neg hzero]
    exact ⟨Iff.rfl, fun h0 => absurd h0 hzero, fun _ => ⟨rfl, rfl⟩⟩

end

theorem deciding_cons (bytes : Bytes) (peb_size n : Nat) (rest : List Nat) :
    deciding bytes peb_size (n :: rest) =
      if vidOffset bytes peb_size n = 0 then some ((deciding bytes peb_size rest).getD n) else some n := by
  rw [deciding, deciding, List.find?_cons, List.getLast?_cons]
  by_cases hvid : vidOffset bytes peb_size n = 0
  · simp only [hvid, ne_eq, not_true_eq_false, decide_false, if_true]
    cases rest.find? fun n => decide (vidOffset bytes peb_size n ≠ 0) <;> rfl
  · simp only [hvid, ne_eq, not_false_eq_true, decide_true, if_false]
    rfl

/-- What the scan of blocks sets. -/
theorem scanBlocks_spec (hsize : peb_size ≤ 2 ^ 20) {l : List Nat} (hl : ∀ n ∈ l, n < 2 ^ 16)
    (scan : Scan) :
    ((∃ scan', l.foldlM (scanBlock (fileReader image) peb_size) scan = .ok scan') ↔
        ∀ n ∈ l, Whole image.bytes peb_size n) ∧
      ∀ scan', l.foldlM (scanBlock (fileReader image) peb_size) scan = .ok scan' →
        (scan'.vol_maps ≠ [] ↔ scan.vol_maps ≠ [] ∨ ∃ n ∈ l,
          HasMagic image.bytes VID_HDR_MAGIC (n * peb_size + vidOffset image.bytes peb_size n)) ∧
        scan'.data_offset = if scan.vid_hdr_offset = 0 then
            ((deciding image.bytes peb_size l).map (dataOffset image.bytes peb_size)).getD scan.data_offset
          else scan.data_offset := by
  induction l generalizing scan with
  | nil =>
      refine ⟨iff_of_true ⟨scan, rfl⟩ (by simp), fun scan' h => ?_⟩
      obtain rfl := Except.ok.inj h
      simp [deciding]
  | cons n rest ih =>
      have hn := hl n List.mem_cons_self
      have ih := ih fun m hm => hl m (List.mem_cons_of_mem _ hm)
      simp only [List.foldlM_cons, bind_eq_ok, List.forall_mem_cons]
      refine ⟨?_, ?_⟩
      · rw [← scanBlock_returns_iff hsize hn scan]
        constructor
        · rintro ⟨scan', scan₁, hfirst, hrest⟩
          exact ⟨⟨scan₁, hfirst⟩, (ih scan₁).1.mp ⟨scan', hrest⟩⟩
        · rintro ⟨⟨scan₁, hfirst⟩, hrest⟩
          obtain ⟨scan', hscan'⟩ := (ih scan₁).1.mpr hrest
          exact ⟨scan', scan₁, hfirst, hscan'⟩
      · rintro scan' ⟨scan₁, hfirst, hrest⟩
        obtain ⟨hmaps₁, hzero, hset⟩ := scanBlock_spec hsize hn hfirst
        obtain ⟨hmaps, hdata⟩ := (ih scan₁).2 scan' hrest
        refine ⟨?_, ?_⟩
        · rw [hmaps, hmaps₁]
          simp only [List.mem_cons, exists_eq_or_imp, or_assoc]
        · rw [hdata]
          by_cases hvid : scan.vid_hdr_offset = 0
          · obtain ⟨hvid₁, hdata₁⟩ := hzero hvid
            rw [if_pos hvid, hvid₁, hdata₁, deciding_cons]
            split_ifs
            · cases deciding image.bytes peb_size rest <;> rfl
            · rfl
          · obtain ⟨hvid₁, hdata₁⟩ := hset hvid
            rw [if_neg hvid, hvid₁, if_neg hvid, hdata₁]

theorem headed_lt {bytes : Bytes} {n : Nat} (h : n ∈ headed bytes peb_size) : n < 2 ^ 16 :=
  (List.mem_range.mp (List.mem_of_mem_filter h)).trans_eq (by decide)

theorem scanPebs_eq_ok (hsize : peb_size ≤ 2 ^ 20) {scan : Scan} :
    scanPebs (fileReader image) peb_size = .ok scan ↔
      (headed image.bytes peb_size).foldlM (scanBlock (fileReader image) peb_size) {} = .ok scan ∧
        scan.vol_maps ≠ [] := by
  rw [scanPebs, scanFrom_eq hsize (by decide), ← List.range_eq_range', ← headed]
  simp only [bind_eq_ok, require_eq_ok, pure, Except.pure, Except.ok.injEq]
  constructor
  · rintro ⟨scan', hscan, -, hmaps, rfl⟩
    exact ⟨hscan, hmaps⟩
  · rintro ⟨hscan, hmaps⟩
    exact ⟨scan, hscan, (), hmaps, rfl⟩

/-- Opening does not fault exactly when the offset of the data, if it is used, lies in the block. -/
theorem underflows_iff : ¬ Underflows image.bytes ↔
    ∀ peb_size scan, detectPebSize (fileReader image) = .ok peb_size →
      scanPebs (fileReader image) peb_size = .ok scan → scan.data_offset ≤ peb_size := by
  constructor
  · intro hnot peb_size scan hpeb hscan
    have hsize := detectPebSize_le hpeb
    obtain ⟨hheader, rfl⟩ := detectPebSize_eq_ok.mp hpeb
    obtain ⟨hscan, hmaps⟩ := (scanPebs_eq_ok hsize).mp hscan
    obtain ⟨hreturns, hspec⟩ := @scanBlocks_spec _ image hsize _ (fun n => headed_lt) {}
    obtain ⟨hmapsiff, hdata⟩ := hspec scan hscan
    by_contra hlt
    refine hnot ⟨hheader, hreturns.mp ⟨scan, hscan⟩, (hmapsiff.mp hmaps).resolve_left (by simp), ?_⟩
    rw [if_pos rfl] at hdata
    cases hdeciding : deciding image.bytes (pebSize image.bytes) (headed image.bytes (pebSize image.bytes)) with
    | none =>
        rw [hdeciding] at hdata
        exact absurd (hdata.trans_le (Nat.zero_le _)) hlt
    | some n =>
        rw [hdeciding] at hdata
        have hdata : scan.data_offset = dataOffset image.bytes (pebSize image.bytes) n := hdata
        exact ⟨n, rfl, by omega⟩
  · rintro hall ⟨hheader, hwhole, hvolume, n, hdeciding, houtside⟩
    have hpeb := detectPebSize_eq_ok.mpr ⟨hheader, rfl⟩
    have hsize := detectPebSize_le hpeb
    obtain ⟨hreturns, hspec⟩ := @scanBlocks_spec _ image hsize
      (headed image.bytes (pebSize image.bytes)) (fun n => headed_lt) {}
    obtain ⟨scan, hscan⟩ := hreturns.mpr hwhole
    obtain ⟨hmapsiff, hdata⟩ := hspec scan hscan
    have hle := hall _ scan hpeb ((scanPebs_eq_ok hsize).mpr ⟨hscan, hmapsiff.mpr (.inr hvolume)⟩)
    rw [if_pos rfl, hdeciding] at hdata
    have hdata : scan.data_offset = dataOffset image.bytes (pebSize image.bytes) n := hdata
    omega

end Ubi

/-! ## Every read -/

/-- The formats whose readers are checked here. -/
inductive ReadFormat where
  | ewf | bochs | vmdk | ubi

/-- An opened image, or a volume of one. -/
inductive Opened where
  | ewf (r : Ewf.EwfReader)
  | bochs (r : Bochs.BochsReader)
  | vmdk (r : Vmdk.VmdkReader)
  | ubi (r : Ubi.UbiVolumeReader)

/-- The readers of an image. -/
def ReadFormat.openImage (reader : Reader) : ReadFormat → Checked IoError (List Opened)
  | .ewf => Checked.lift ((Ewf.new reader).map fun r => [.ewf r])
  | .bochs => Checked.lift ((Bochs.new reader).map fun r => [.bochs r])
  | .vmdk => Checked.lift ((Vmdk.new reader).map fun r => [.vmdk r])
  | .ubi => do
      let vols ← Ubi.checkedVolumes reader
      return vols.map fun vol => .ubi vol.2

/-- `read_at`. -/
def Opened.readAt (decoders : Decoders) (off len : Nat) : Opened → Checked IoError Bytes
  | .ewf r => r.readAt decoders.zlib off len
  | .bochs r => r.readAt off len
  | .vmdk r => r.readAt decoders.deflate off len
  | .ubi r => r.readAt off len

def Opened.map (decoders : Decoders) : Opened → DiskMap
  | .ewf r => r.map decoders.zlib
  | .bochs r => r.map
  | .vmdk r => r.map decoders.deflate
  | .ubi r => r.map

/-- The data of an erase block of a UBI image begin inside it. -/
def ReadFormat.OpensWithin (bytes : Bytes) : ReadFormat → Prop
  | .ubi => ¬ Ubi.Underflows bytes
  | _ => True

/-- A raw EWF chunk holds what is read of it, and places are `u64`. -/
def Opened.Fits (bytes : Bytes) (off len : Nat) : Opened → Prop
  | .ewf r => r.Fits bytes off len
  | .bochs r => r.Fits off
  | .vmdk r => r.Fits bytes off
  | .ubi _ => True

section

variable {image : Image} {decoders : Decoders}

theorem openImage_safe_iff (f : ReadFormat) :
    f.openImage (fileReader image) ≠ .error .fault ↔ f.OpensWithin image.bytes := by
  cases f with
  | ubi =>
      refine (((Ubi.checkedVolumes_settles (fileReader image)).bind fun _ _ => Settles.ok _).congr
        ?_).safe_iff
      exact (and_iff_left fun _ _ => trivial).trans Ubi.underflows_iff.symm
  | ewf => exact (Settles.lift _).safe_iff
  | bochs => exact (Settles.lift _).safe_iff
  | vmdk => exact (Settles.lift _).safe_iff

theorem lift_map_eq_ok {α : Type} {y : Except IoError α} {g : α → Opened} {readers : List Opened}
    (h : Checked.lift (y.map fun a => [g a]) = .ok readers) : ∃ a, y = .ok a ∧ readers = [g a] := by
  cases y with
  | error e => cases h
  | ok a => exact ⟨a, rfl, (Except.ok.inj h).symm⟩

/-- A read of an opened image does what its map says, or faults. -/
theorem Opened.settles (hzlib : ∀ s n d, decoders.zlib s n = .ok d → d.length = n)
    (hdeflate : ∀ s n d, decoders.deflate s n = .ok d → d.length = n) {f : ReadFormat}
    {readers : List Opened} (h : f.openImage (fileReader image) = .ok readers) {r : Opened}
    (hr : r ∈ readers) (off len : Nat) :
    Settles (r.Fits image.bytes off len) ((r.map decoders).readAt off len)
      (r.readAt decoders off len) := by
  cases f with
  | ewf =>
      obtain ⟨a, ha, rfl⟩ := lift_map_eq_ok h
      obtain rfl := List.mem_singleton.mp hr
      exact Ewf.settles ha hzlib off len
  | bochs =>
      obtain ⟨a, ha, rfl⟩ := lift_map_eq_ok h
      obtain rfl := List.mem_singleton.mp hr
      exact Bochs.settles ha off len
  | vmdk =>
      obtain ⟨a, ha, rfl⟩ := lift_map_eq_ok h
      obtain rfl := List.mem_singleton.mp hr
      exact Vmdk.settles ha hdeflate off len
  | ubi =>
      obtain ⟨vols, hvols, h⟩ := Except.bind_eq_ok.mp h
      obtain rfl := Except.ok.inj h
      obtain ⟨vol, hvol, rfl⟩ := List.mem_map.mp hr
      obtain ⟨leb_map, leb_size, hmap, hsize, hnew⟩ := Ubi.checkedVolumes_spec hvols vol hvol
      show Settles True (vol.2.map.readAt off len) (vol.2.readAt off len)
      rw [hnew]
      exact Ubi.settles hmap hsize off len

end

/-- A Bochs image of one sector in one extent: the sizes of its bitmap and extent, and its entry. -/
def bochsImage (bitmap extent entry : Bytes) : Bytes :=
  Bochs.BOCHS_MAGIC ++ List.replicate 10 0 ++ Bochs.REDOLOG_TYPE ++ List.replicate 9 0 ++
    Bochs.GROWING_SUBTYPE ++ List.replicate 9 0 ++ [0, 0, 2, 0] ++ [96, 0, 0, 0] ++ [1, 0, 0, 0] ++
    bitmap ++ extent ++ [0, 0, 0, 0] ++ [0, 2, 0, 0, 0, 0, 0, 0] ++ entry

/-- Slots of `2^32 + 2^31` bytes, and an entry of almost `2^32`. -/
def hugeSlotImage : Image :=
  ⟨bochsImage [0xff, 0xff, 0xff, 0xff] [0, 0, 0, 0x80] [0xfe, 0xff, 0xff, 0xff], by decide⟩

def hugeSlotReader : Bochs.BochsReader where
  parent := fileReader hugeSlotImage
  catalog := [2 ^ 32 - 2]
  extentSize := 2 ^ 31
  bitmapSize := 2 ^ 32
  dataOffset := 100
  virtualSize := 512

/-- Slots of two sectors, the first of which is used. -/
def firstSlotImage : Image :=
  ⟨bochsImage [1, 0, 0, 0] [0, 2, 0, 0] [0, 0, 0, 0], by decide⟩

def firstSlotReader : Bochs.BochsReader where
  parent := fileReader firstSlotImage
  catalog := [0]
  extentSize := 512
  bitmapSize := 512
  dataOffset := 100
  virtualSize := 512

end Mountin
