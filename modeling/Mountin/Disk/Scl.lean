import Mountin.Basic.Raising
import Mountin.Basic.Splice
import Mountin.Disk.Fields

set_option autoImplicit false

/-! # SCL images

`scl.rs` expands an SCL container to a TRD disk: the files one after the other from track 1, a
catalogue and a disk specification on track 0. `mkscl.py` packs files into such a container.

* `reconstructTrd_createScl` : what is packed is found on the expanded disk.
-/

namespace Mountin.Scl

/-- "SINCLAIR". -/
def SCL_MAGIC : Bytes := [0x53, 0x49, 0x4e, 0x43, 0x4c, 0x41, 0x49, 0x52]

def SCL_HEADER_LEN : Nat := 9
def SCL_ENTRY_LEN : Nat := 14
def SECTOR : Nat := 256
def SECTORS_PER_TRACK : Nat := 16
def LOGICAL_TRACKS : Nat := 160
def TRD_SIZE : Nat := LOGICAL_TRACKS * SECTORS_PER_TRACK * SECTOR
def MAX_FILES : Nat := 128
def CATALOG_ENTRY_LEN : Nat := 16
def SYSTEM_SECTOR : Nat := 8
def DATA_START_SECTOR : Nat := SECTORS_PER_TRACK
def FREE_SECTORS_TOTAL : Nat := LOGICAL_TRACKS * SECTORS_PER_TRACK - SECTORS_PER_TRACK
def DISK_TYPE_DS80 : UInt8 := 0x16
def TRDOS_ID : UInt8 := 0x10

/-- `buf[off..off + d.len()].copy_from_slice(d)`. -/
def copyAt (buf : Bytes) (off : Nat) (d : Bytes) : Except IoError Bytes :=
  if off + d.length ≤ buf.length then .ok (buf.splice off d) else .error .panic

theorem copyAt_eq {buf d : Bytes} {off : Nat} (h : off + d.length ≤ buf.length) :
    copyAt buf off d = .ok (buf.splice off d) :=
  if_pos h

/-! ## Expanding -/

/-- The variables of the loop of `reconstruct_trd`. -/
structure Cursor where
  trd : Bytes
  dataPos : Nat
  nextSector : Nat
  usedSectors : Nat

/-- One turn of the loop: file `i`. -/
def placeFile (data : Bytes) (i : Nat) (c : Cursor) : Except IoError Cursor := do
  let entry := data.slice (SCL_HEADER_LEN + i * SCL_ENTRY_LEN) SCL_ENTRY_LEN
  let sectors := leField entry 13 1
  let nbytes := sectors * SECTOR
  require (c.dataPos + nbytes ≤ data.length) (.invalidData "SCL truncated in file data")
  require (c.nextSector + sectors ≤ LOGICAL_TRACKS * SECTORS_PER_TRACK)
    (.invalidData "SCL contents overflow TRD disk")
  -- the sectors of the file
  let trd ← copyAt c.trd (c.nextSector * SECTOR) (data.slice c.dataPos nbytes)
  -- its catalogue entry: the 14 bytes, then the placement
  let catOff := i * CATALOG_ENTRY_LEN
  let trd ← copyAt trd catOff entry
  let trd ← copyAt trd (catOff + 14) [UInt8.ofNat (c.nextSector % SECTORS_PER_TRACK)]
  let trd ← copyAt trd (catOff + 15) [UInt8.ofNat (c.nextSector / SECTORS_PER_TRACK)]
  return {
    trd, dataPos := c.dataPos + nbytes, nextSector := c.nextSector + sectors
    usedSectors := c.usedSectors + sectors }

/-- The loop over the files, `left` of which remain. -/
def placeFiles (data : Bytes) : (left i : Nat) → Cursor → Except IoError Cursor
  | 0, _, c => .ok c
  | left + 1, i, c => do
      let c ← placeFile data i c
      placeFiles data left (i + 1) c

/-- The disk specification. -/
def writeSystem (trd : Bytes) (nextSector count free : Nat) : Except IoError Bytes := do
  let sys := SYSTEM_SECTOR * SECTOR
  let trd ← copyAt trd (sys + 0xE1) [UInt8.ofNat (nextSector % SECTORS_PER_TRACK)]
  let trd ← copyAt trd (sys + 0xE2) [UInt8.ofNat (nextSector / SECTORS_PER_TRACK)]
  let trd ← copyAt trd (sys + 0xE3) [DISK_TYPE_DS80]
  let trd ← copyAt trd (sys + 0xE4) [UInt8.ofNat count]
  let trd ← copyAt trd (sys + 0xE5) [UInt8.ofNat (free % 256)]
  let trd ← copyAt trd (sys + 0xE6) [UInt8.ofNat (free / 256 % 256)]
  let trd ← copyAt trd (sys + 0xE7) [TRDOS_ID]
  let trd ← copyAt trd (sys + 0xF4) [0]
  copyAt trd (sys + 0xF5) (List.replicate 8 0x20)

/-- `reconstruct_trd`. -/
def reconstructTrd (data : Bytes) : Except IoError Bytes := do
  require (SCL_HEADER_LEN ≤ data.length ∧ data.slice 0 8 = SCL_MAGIC)
    (.invalidData "not an SCL image")
  let count := leField data 8 1
  require (count ≤ MAX_FILES) (.invalidData "SCL file count exceeds 128")
  let dirEnd := SCL_HEADER_LEN + count * SCL_ENTRY_LEN
  require (dirEnd ≤ data.length) (.invalidData "SCL truncated in catalogue")
  let c ← placeFiles data count 0
    ⟨List.replicate TRD_SIZE 0, dirEnd, DATA_START_SECTOR, 0⟩
  require (c.usedSectors ≤ FREE_SECTORS_TOTAL) (.invalidData "SCL contents overflow TRD disk")
  writeSystem c.trd c.nextSector count (FREE_SECTORS_TOTAL - c.usedSectors)

/-! ## Packing -/

/-- The exceptions of `mkscl.py`. -/
inductive PackError where
  | valueError (message : String)
  | unicodeEncodeError
  | structError
  deriving DecidableEq

def DS80_FREE_SECTORS : Nat := 2544

/-- `sectors_for`. -/
def sectorsFor (length : Nat) : Nat := (length + SECTOR - 1) / SECTOR

/-- `encode("ascii")`. -/
def encodeAscii (s : String) : Except PackError Bytes :=
  if s.toList.all (fun c => c.toNat < 128) then .ok (s.toList.map (fun c => UInt8.ofNat c.toNat))
  else .error .unicodeEncodeError

/-- `ljust`. -/
def ljust (d : Bytes) (width : Nat) (fill : UInt8) : Bytes :=
  d ++ List.replicate (width - d.length) fill

/-- `struct.pack("<H", n)` of a masked number. -/
def packH (n : Nat) : Bytes := [UInt8.ofNat (n % 256), UInt8.ofNat (n / 256 % 256)]

/-- `struct.pack("B", n)`. -/
def packB (n : Nat) : Except PackError Bytes :=
  if n < 256 then .ok [UInt8.ofNat n] else .error .structError

/-- `dir_entry`. -/
def dirEntry (name ftype : String) (param1 : Int) (length : Nat) : Except PackError Bytes := do
  let name ← encodeAscii name
  let ftype ← encodeAscii ftype
  let sectors ← packB (sectorsFor length)
  return ljust name 8 0x20 ++ ftype ++ packH (param1 % 0x10000).toNat ++ packH (length % 0x10000)
    ++ sectors

/-- The data of a file, padded to whole sectors. -/
def padded (d : Bytes) : Bytes := ljust d (sectorsFor d.length * SECTOR) 0

/-- The sectors of some files. -/
def sectorsOf (files : List (String × Bytes)) : Nat :=
  (files.map (fun f => sectorsFor f.2.length)).sum

/-- `create_scl`: the bytes that are written. -/
def createScl (files : List (String × Bytes)) (addr : Int) : Except PackError Bytes :=
  if MAX_FILES < files.length then
    .error (.valueError s!"too many files: {files.length} > {MAX_FILES}")
  else if DS80_FREE_SECTORS < sectorsOf files then
    .error (.valueError
      s!"data needs {sectorsOf files} sectors, DS80 disk holds {DS80_FREE_SECTORS}")
  else do
    let count ← packB files.length
    let entries ← files.mapM (fun f => dirEntry f.1 "C" addr f.2.length)
    let body := SCL_MAGIC ++ count ++ entries.flatten ++ files.flatMap (fun f => padded f.2)
    let sum := (body.map UInt8.toNat).sum
    return body ++ packH (sum % 0x10000) ++ packH (sum / 0x10000 % 0x10000)

/-! ## What is packed -/

/-- A name as `collect` gives it. -/
def Named (name : String) : Prop :=
  1 ≤ name.length ∧ name.length ≤ 8 ∧ ∀ c ∈ name.toList, c.toNat < 128

theorem length_padded (d : Bytes) : (padded d).length = sectorsFor d.length * SECTOR := by
  have hceil : d.length ≤ sectorsFor d.length * SECTOR := by
    simp only [sectorsFor, SECTOR]
    omega
  rw [padded, ljust, List.length_append, List.length_replicate]
  omega

theorem length_encodeAscii {s : String} {d : Bytes} (h : encodeAscii s = .ok d) :
    d.length = s.length := by
  unfold encodeAscii at h
  split at h
  · obtain rfl := Except.ok.inj h
    rw [List.length_map, String.length_toList]
  · simp at h

/-- An entry of a named file has 14 bytes, the last of which is the number of its sectors. -/
theorem dirEntry_spec {name : String} {addr : Int} {length : Nat} {entry : Bytes}
    (hname : Named name) (h : dirEntry name "C" addr length = .ok entry) :
    entry.length = SCL_ENTRY_LEN ∧ leField entry 13 1 = sectorsFor length := by
  obtain ⟨n, hn, h⟩ := Except.bind_eq_ok.mp h
  obtain ⟨t, ht, h⟩ := Except.bind_eq_ok.mp h
  obtain ⟨b, hb, h⟩ := Except.bind_eq_ok.mp h
  obtain rfl := Except.ok.inj h
  have hn8 := length_encodeAscii hn
  have ht1 : t.length = 1 := length_encodeAscii ht
  unfold packB at hb
  split at hb
  case isFalse => simp at hb
  rename_i hsectors
  obtain rfl := Except.ok.inj hb
  have hfront : (ljust n 8 0x20 ++ t ++ packH (addr % 0x10000).toNat ++ packH (length % 0x10000)).length
      = 13 := by
    simp only [ljust, packH, List.length_append, List.length_replicate, List.length_cons,
      List.length_nil]
    have := hname.2.1
    omega
  refine ⟨by rw [List.length_append, hfront]; rfl, ?_⟩
  have hlast := List.slice_append_mid [] hfront (show [UInt8.ofNat (sectorsFor length)].length = 1 from rfl)
  rw [List.append_nil] at hlast
  rw [leField, hlast, Bytes.le_ofNat hsectors]

/-! ## Containers -/

/-- A file of a container: its catalogue entry and its sectors. -/
structure Item where
  entry : Bytes
  data : Bytes
  length_entry : entry.length = SCL_ENTRY_LEN
  length_data : data.length = leField entry 13 1 * SECTOR

/-- The number of sectors of a file. -/
def Item.sectors (item : Item) : Nat := leField item.entry 13 1

/-- The first sector of the file that follows some others. -/
def startAfter (items : List Item) : Nat := DATA_START_SECTOR + (items.map Item.sectors).sum

/-- The bytes of a container, without what follows the data. -/
def container (items : List Item) : Bytes :=
  SCL_MAGIC ++ [UInt8.ofNat items.length] ++ items.flatMap Item.entry ++ items.flatMap Item.data

/-- File `i` is on the disk: its entry with its place, and its data at that place. -/
structure PlacedAt (trd : Bytes) (i start : Nat) (item : Item) : Prop where
  entry : trd.slice (i * 16) 14 = item.entry
  sector : trd.slice (i * 16 + 14) 1 = [UInt8.ofNat (start % 16)]
  track : trd.slice (i * 16 + 15) 1 = [UInt8.ofNat (start / 16)]
  data : trd.slice (start * 256) item.data.length = item.data

/-- All of some files are on the disk, one after the other. -/
def Placed (trd : Bytes) (items : List Item) : Prop :=
  ∀ i item, items[i]? = some item → PlacedAt trd i (startAfter (items.take i)) item

/-- A write elsewhere. -/
theorem PlacedAt.splice {trd d : Bytes} {i start off : Nat} {item : Item}
    (h : PlacedAt trd i start item) (hoff : off ≤ trd.length) (hcat : i * 16 + 16 ≤ off)
    (hdata : off + d.length ≤ start * 256 ∨ start * 256 + item.data.length ≤ off) :
    PlacedAt (trd.splice off d) i start item where
  entry := by rw [List.slice_splice_of_disjoint hoff (.inl (by omega)), h.entry]
  sector := by rw [List.slice_splice_of_disjoint hoff (.inl (by omega)), h.sector]
  track := by rw [List.slice_splice_of_disjoint hoff (.inl (by omega)), h.track]
  data := by rw [List.slice_splice_of_disjoint hoff hdata.symm, h.data]

theorem length_flatMap_entry (items : List Item) :
    (items.flatMap Item.entry).length = items.length * SCL_ENTRY_LEN := by
  induction items with
  | nil => rfl
  | cons item rest ih =>
      rw [List.flatMap_cons, List.length_append, ih, item.length_entry, List.length_cons]
      simp only [SCL_ENTRY_LEN]
      omega

theorem length_flatMap_data (items : List Item) :
    (items.flatMap Item.data).length = (items.map Item.sectors).sum * SECTOR := by
  induction items with
  | nil => rfl
  | cons item rest ih =>
      rw [List.flatMap_cons, List.length_append, ih, item.length_data, List.map_cons,
        List.sum_cons, Nat.add_mul, Item.sectors]

theorem startAfter_append (items : List Item) (item : Item) :
    startAfter (items ++ [item]) = startAfter items + item.sectors := by
  simp [startAfter, Nat.add_assoc]

theorem startAfter_take_le (items : List Item) {i : Nat} {item : Item}
    (h : items[i]? = some item) :
    startAfter (items.take i) + item.sectors ≤ startAfter items := by
  obtain ⟨hi, rfl⟩ := List.getElem?_eq_some_iff.mp h
  have hsplit : items = items.take i ++ items[i] :: items.drop (i + 1) := by
    rw [List.getElem_cons_drop, List.take_append_drop]
  conv_rhs => rw [hsplit]
  simp only [startAfter, List.map_append, List.map_cons, List.sum_append, List.sum_cons]
  omega

/-- Where a container has the entry and the data of a file. -/
theorem container_slices (done : List Item) (item : Item) (rest : List Item) (tail : Bytes) :
    (container (done ++ item :: rest) ++ tail).slice
        (SCL_HEADER_LEN + done.length * SCL_ENTRY_LEN) SCL_ENTRY_LEN = item.entry ∧
    (container (done ++ item :: rest) ++ tail).slice
        (SCL_HEADER_LEN + (done ++ item :: rest).length * SCL_ENTRY_LEN +
          (done.map Item.sectors).sum * SECTOR) item.data.length = item.data ∧
    SCL_HEADER_LEN + (done ++ item :: rest).length * SCL_ENTRY_LEN +
        (done.map Item.sectors).sum * SECTOR + item.data.length ≤
      (container (done ++ item :: rest) ++ tail).length := by
  have hentries := length_flatMap_entry (done ++ item :: rest)
  have hheader : (SCL_MAGIC ++ [UInt8.ofNat (done ++ item :: rest).length]).length = SCL_HEADER_LEN :=
    rfl
  refine ⟨?_, ?_, ?_⟩
  · have hfront : (SCL_MAGIC ++ [UInt8.ofNat (done ++ item :: rest).length] ++
        done.flatMap Item.entry).length = SCL_HEADER_LEN + done.length * SCL_ENTRY_LEN := by
      rw [List.length_append, hheader, length_flatMap_entry]
    rw [show container (done ++ item :: rest) ++ tail = SCL_MAGIC ++
        [UInt8.ofNat (done ++ item :: rest).length] ++ done.flatMap Item.entry ++ item.entry ++
        (rest.flatMap Item.entry ++ ((done ++ item :: rest).flatMap Item.data ++ tail)) by
      simp only [container, List.flatMap_append, List.flatMap_cons, List.append_assoc]]
    exact List.slice_append_mid _ hfront item.length_entry
  · have hfront : (SCL_MAGIC ++ [UInt8.ofNat (done ++ item :: rest).length] ++
        (done ++ item :: rest).flatMap Item.entry ++ done.flatMap Item.data).length =
        SCL_HEADER_LEN + (done ++ item :: rest).length * SCL_ENTRY_LEN +
          (done.map Item.sectors).sum * SECTOR := by
      rw [List.length_append, List.length_append, hheader, hentries, length_flatMap_data]
    rw [show container (done ++ item :: rest) ++ tail = SCL_MAGIC ++
        [UInt8.ofNat (done ++ item :: rest).length] ++ (done ++ item :: rest).flatMap Item.entry ++
        done.flatMap Item.data ++ item.data ++ (rest.flatMap Item.data ++ tail) by
      simp only [container, List.flatMap_append, List.flatMap_cons, List.append_assoc]]
    exact List.slice_append_mid _ hfront rfl
  · simp only [container, List.length_append, List.flatMap_append, List.flatMap_cons] at hentries ⊢
    rw [length_flatMap_data]
    simp only [SCL_MAGIC, SCL_HEADER_LEN, List.length_cons, List.length_nil] at hentries ⊢
    omega

/-- One turn of the loop puts the next file on the disk. -/
theorem placeFile_spec {scl : Bytes} {done : List Item} {item : Item} {rest : List Item}
    {tail : Bytes} (hscl : scl = container (done ++ item :: rest) ++ tail)
    (hcount : done.length < MAX_FILES) (hfit : startAfter (done ++ [item]) ≤ 2560) {c : Cursor}
    (hlen : c.trd.length = TRD_SIZE) (hplaced : Placed c.trd done)
    (hpos : c.dataPos = SCL_HEADER_LEN + (done ++ item :: rest).length * SCL_ENTRY_LEN +
      (done.map Item.sectors).sum * SECTOR)
    (hnext : c.nextSector = startAfter done) :
    ∃ trd, placeFile scl done.length c = .ok {
        trd, dataPos := c.dataPos + item.sectors * SECTOR
        nextSector := c.nextSector + item.sectors
        usedSectors := c.usedSectors + item.sectors } ∧
      trd.length = TRD_SIZE ∧ Placed trd (done ++ [item]) := by
  obtain ⟨hentry, hdata, hbound⟩ := container_slices done item rest tail
  rw [← hscl] at hentry hdata hbound
  rw [← hpos] at hdata hbound
  have hbytes := item.length_data
  rw [startAfter_append] at hfit
  rw [← hnext] at hfit
  simp only [Item.sectors, SECTOR] at hfit hbytes
  have hstart : 16 ≤ c.nextSector := by
    rw [hnext, startAfter]
    exact Nat.le_add_right _ _
  simp only [MAX_FILES, TRD_SIZE, LOGICAL_TRACKS, SECTORS_PER_TRACK, SECTOR] at hcount hlen ⊢
  -- the four writes lie on the disk
  generalize hsector : [UInt8.ofNat (c.nextSector % 16)] = sector
  generalize htrack : [UInt8.ofNat (c.nextSector / 16)] = track
  have hsector1 : sector.length = 1 := by rw [← hsector]; rfl
  have htrack1 : track.length = 1 := by rw [← htrack]; rfl
  have hentry14 : item.entry.length = 14 := item.length_entry
  have h1 : (c.trd.splice (c.nextSector * 256) item.data).length = 655360 := by
    rw [List.length_splice (by omega), hlen]
  have h2 : ((c.trd.splice (c.nextSector * 256) item.data).splice (done.length * 16)
      item.entry).length = 655360 := by
    rw [List.length_splice (by omega), h1]
  have h3 : (((c.trd.splice (c.nextSector * 256) item.data).splice (done.length * 16)
      item.entry).splice (done.length * 16 + 14) sector).length = 655360 := by
    rw [List.length_splice (by omega), h2]
  refine ⟨(((c.trd.splice (c.nextSector * 256) item.data).splice (done.length * 16)
      item.entry).splice (done.length * 16 + 14) sector).splice (done.length * 16 + 15) track,
    ?_, by rw [List.length_splice (by omega), h3], ?_⟩
  · simp only [placeFile, hentry, require, SECTOR, LOGICAL_TRACKS, SECTORS_PER_TRACK,
      CATALOG_ENTRY_LEN, Item.sectors]
    rw [← hbytes, hdata, if_pos hbound, if_pos (by omega), hsector, htrack]
    simp only [Except.ok_bind]
    rw [copyAt_eq (by omega), Except.ok_bind, copyAt_eq (by omega), Except.ok_bind,
      copyAt_eq (by omega), Except.ok_bind, copyAt_eq (by omega), Except.ok_bind]
    rfl
  · intro i other hi
    rcases Nat.lt_or_ge i done.length with hlt | hge
    · -- an earlier file: the writes are elsewhere
      rw [List.getElem?_append_left hlt] at hi
      rw [List.take_append_of_le_length hlt.le]
      have hle := startAfter_take_le done hi
      have hother := other.length_data
      have hfirst : 16 ≤ startAfter (done.take i) := Nat.le_add_right _ _
      simp only [Item.sectors, SECTOR] at hle hother
      rw [← hnext] at hle
      refine ((((hplaced i other hi).splice ?_ ?_ ?_).splice ?_ ?_ ?_).splice ?_ ?_ ?_).splice
        ?_ ?_ ?_ <;> omega
    · -- the file that was written
      have hidx : i = done.length := by
        have := (List.getElem?_eq_some_iff.mp hi).1
        simp only [List.length_append, List.length_cons, List.length_nil] at this
        omega
      subst hidx
      rw [List.getElem?_append_right (Nat.le_refl _), Nat.sub_self] at hi
      obtain rfl : item = other := by simpa using hi
      rw [List.take_left, ← hnext]
      refine ⟨?_, ?_, ?_, ?_⟩
      · rw [List.slice_splice_of_disjoint (by omega) (.inl (by omega)),
          List.slice_splice_of_disjoint (by omega) (.inl (by omega))]
        exact List.slice_splice_self (by omega) hentry14
      · rw [List.slice_splice_of_disjoint (by omega) (.inl (by omega)), hsector]
        exact List.slice_splice_self (by omega) hsector1
      · rw [htrack]
        exact List.slice_splice_self (by omega) htrack1
      · rw [List.slice_splice_of_disjoint (by omega) (.inr (by omega)),
          List.slice_splice_of_disjoint (by omega) (.inr (by omega)),
          List.slice_splice_of_disjoint (by omega) (.inr (by omega)),
          List.slice_splice_self (by omega) rfl]

theorem startAfter_mono (items rest : List Item) : startAfter items ≤ startAfter (items ++ rest) := by
  simp only [startAfter, List.map_append, List.sum_append]
  omega

/-- The loop puts all files on the disk. -/
theorem placeFiles_spec {scl tail : Bytes} (rest : List Item) :
    ∀ {done : List Item} {c : Cursor}, scl = container (done ++ rest) ++ tail →
      (done ++ rest).length ≤ MAX_FILES → startAfter (done ++ rest) ≤ 2560 →
      c.trd.length = TRD_SIZE → Placed c.trd done →
      c.dataPos = SCL_HEADER_LEN + (done ++ rest).length * SCL_ENTRY_LEN +
        (done.map Item.sectors).sum * SECTOR →
      c.nextSector = startAfter done → c.usedSectors = (done.map Item.sectors).sum →
      ∃ c', placeFiles scl rest.length done.length c = .ok c' ∧ c'.trd.length = TRD_SIZE ∧
        Placed c'.trd (done ++ rest) ∧ c'.nextSector = startAfter (done ++ rest) ∧
        c'.usedSectors = ((done ++ rest).map Item.sectors).sum := by
  induction rest with
  | nil =>
      intro done c _ _ _ hlen hplaced _ hnext hused
      rw [List.append_nil]
      exact ⟨c, rfl, hlen, hplaced, hnext, hused⟩
  | cons item rest ih =>
      intro done c hscl hcount hfit hlen hplaced hpos hnext hused
      have hassoc : done ++ item :: rest = done ++ [item] ++ rest := by simp
      have hlt : done.length < MAX_FILES := by
        simp only [List.length_append, List.length_cons] at hcount
        omega
      have hfirst := startAfter_mono (done ++ [item]) rest
      rw [← hassoc] at hfirst
      obtain ⟨trd, hturn, hlen', hplaced'⟩ := placeFile_spec hscl hlt (by omega) hlen hplaced hpos
        hnext
      have hsum : ((done ++ [item]).map Item.sectors).sum =
          (done.map Item.sectors).sum + item.sectors := by simp
      rw [hassoc] at hscl hcount hfit hpos ⊢
      obtain ⟨c', hloop, hspec⟩ := ih (c := {
          trd, dataPos := c.dataPos + item.sectors * SECTOR
          nextSector := c.nextSector + item.sectors
          usedSectors := c.usedSectors + item.sectors })
        hscl hcount hfit hlen' hplaced' (by rw [hpos, hsum, Nat.add_mul, Nat.add_assoc])
        (by rw [hnext, startAfter_append]) (by rw [hused, hsum])
      refine ⟨c', ?_, hspec⟩
      rw [List.length_cons, placeFiles, hturn]
      rwa [List.length_append] at hloop

/-! ## The disk specification -/

/-- The disk specification agrees with so many files of so many sectors. -/
structure DiskInfo (trd : Bytes) (count used : Nat) : Prop where
  firstFreeSector : leField trd (2048 + 0xE1) 1 = (DATA_START_SECTOR + used) % 16
  firstFreeTrack : leField trd (2048 + 0xE2) 1 = (DATA_START_SECTOR + used) / 16
  fileCount : leField trd (2048 + 0xE4) 1 = count
  free : used + leField trd (2048 + 0xE5) 2 = 2544

/-- Two copies next to each other are one. -/
theorem copyAt_copyAt {buf d d' : Bytes} {off off' : Nat} (hoff : off' = off + d.length) :
    (copyAt buf off d >>= fun b => copyAt b off' d') = copyAt buf off (d ++ d') := by
  subst hoff
  simp only [copyAt, List.length_append]
  by_cases h : off + d.length ≤ buf.length
  · rw [if_pos h, Except.ok_bind, List.length_splice h]
    by_cases h' : off + d.length + d'.length ≤ buf.length
    · rw [if_pos h', if_pos (by omega), List.splice_splice_append h]
    · rw [if_neg h', if_neg (by omega)]
  · rw [if_neg h, if_neg (by omega)]
    rfl

theorem copyAt_copyAt_bind {α : Type} {buf d d' : Bytes} {off off' : Nat}
    (f : Bytes → Except IoError α) (hoff : off' = off + d.length) :
    (copyAt buf off d >>= fun b => copyAt b off' d' >>= f) = copyAt buf off (d ++ d') >>= f := by
  rw [← copyAt_copyAt hoff]
  cases copyAt buf off d <;> rfl

/-- The disk specification is two copies. -/
theorem writeSystem_eq (trd : Bytes) (nextSector count free : Nat) :
    writeSystem trd nextSector count free =
      (copyAt trd 2273 [UInt8.ofNat (nextSector % 16), UInt8.ofNat (nextSector / 16), DISK_TYPE_DS80,
        UInt8.ofNat count, UInt8.ofNat (free % 256), UInt8.ofNat (free / 256 % 256), TRDOS_ID] >>=
      fun trd => copyAt trd 2292 (0 :: List.replicate 8 0x20)) := by
  unfold writeSystem
  simp only [SYSTEM_SECTOR, SECTOR, SECTORS_PER_TRACK]
  rw [copyAt_copyAt_bind _ ?_, copyAt_copyAt_bind _ ?_, copyAt_copyAt_bind _ ?_,
    copyAt_copyAt_bind _ ?_, copyAt_copyAt_bind _ ?_, copyAt_copyAt_bind _ ?_]
  · congr 1
    funext b
    exact copyAt_copyAt rfl
  all_goals rfl

/-- The disk specification is written off the catalogue and the data. -/
theorem writeSystem_spec {trd : Bytes} {items : List Item} (hlen : trd.length = TRD_SIZE)
    (hplaced : Placed trd items) (hcount : items.length ≤ MAX_FILES)
    (hused : (items.map Item.sectors).sum ≤ FREE_SECTORS_TOTAL) :
    ∃ trd', writeSystem trd (startAfter items) items.length
        (FREE_SECTORS_TOTAL - (items.map Item.sectors).sum) = .ok trd' ∧
      trd'.length = TRD_SIZE ∧ Placed trd' items ∧
      DiskInfo trd' items.length (items.map Item.sectors).sum := by
  generalize hsum : (items.map Item.sectors).sum = used at hused ⊢
  have hstart : startAfter items = 16 + used := by rw [startAfter, hsum]; rfl
  simp only [TRD_SIZE, LOGICAL_TRACKS, SECTORS_PER_TRACK, SECTOR, FREE_SECTORS_TOTAL,
    MAX_FILES] at hlen hcount hused ⊢
  rw [writeSystem_eq, hstart]
  generalize hspec : [UInt8.ofNat ((16 + used) % 16), UInt8.ofNat ((16 + used) / 16), DISK_TYPE_DS80,
    UInt8.ofNat items.length, UInt8.ofNat ((160 * 16 - 16 - used) % 256),
    UInt8.ofNat ((160 * 16 - 16 - used) / 256 % 256), TRDOS_ID] = spec
  have hspec7 : spec.length = 7 := by rw [← hspec]; rfl
  generalize hlabel : (0 :: List.replicate 8 0x20 : Bytes) = label
  have hlabel9 : label.length = 9 := by rw [← hlabel]; rfl
  have hlen1 : (trd.splice 2273 spec).length = 655360 := by
    rw [List.length_splice (by omega), hlen]
  refine ⟨(trd.splice 2273 spec).splice 2292 label, ?_, ?_, ?_, ?_⟩
  · rw [copyAt_eq (by omega), Except.ok_bind, copyAt_eq (by omega)]
  · rw [List.length_splice (by omega), hlen1]
  · intro i item hi
    have hidx := (List.getElem?_eq_some_iff.mp hi).1
    have hfirst : 16 ≤ startAfter (items.take i) := Nat.le_add_right _ _
    refine ((hplaced i item hi).splice ?_ ?_ ?_).splice ?_ ?_ ?_ <;> omega
  · -- a byte of the specification
    have hfield : ∀ k n, k + n ≤ 7 →
        leField ((trd.splice 2273 spec).splice 2292 label) (2273 + k) n = leField spec k n := by
      intro k n hk
      rw [leField, List.slice_splice_of_disjoint (by omega) (.inl (by omega)),
        List.slice_splice_within (by omega) (by omega)]
      rfl
    subst hspec
    refine ⟨(hfield 0 1 (by omega)).trans ?_, (hfield 1 1 (by omega)).trans ?_,
      (hfield 3 1 (by omega)).trans ?_, ?_⟩
    · exact Bytes.le_ofNat (by omega)
    · exact Bytes.le_ofNat (by omega)
    · exact Bytes.le_ofNat (by omega)
    · rw [show 2048 + 0xE5 = 2273 + 4 from rfl, hfield 4 2 (by omega)]
      have hfree := Bytes.le_ofNat_ofNat (n := 160 * 16 - 16 - used) (by omega)
      change used + Bytes.le [_, _] = 2544
      omega

/-- A container is expanded to a disk that holds its files. -/
theorem reconstructTrd_container (items : List Item) (tail : Bytes)
    (hcount : items.length ≤ MAX_FILES)
    (hused : (items.map Item.sectors).sum ≤ FREE_SECTORS_TOTAL) :
    ∃ trd, reconstructTrd (container items ++ tail) = .ok trd ∧ trd.length = TRD_SIZE ∧
      Placed trd items ∧ DiskInfo trd items.length (items.map Item.sectors).sum := by
  have hbytes : (container items ++ tail).length = SCL_HEADER_LEN + items.length * SCL_ENTRY_LEN +
      (items.map Item.sectors).sum * SECTOR + tail.length := by
    rw [container, List.length_append, List.length_append, List.length_append, length_flatMap_entry,
      length_flatMap_data]
    rfl
  have hmagic : (container items ++ tail).slice 0 8 = SCL_MAGIC := rfl
  have hfield : leField (container items ++ tail) 8 1 = items.length :=
    Bytes.le_ofNat (by simp only [MAX_FILES] at hcount; omega)
  obtain ⟨c, hloop, hlen, hplaced, hnext, hsum⟩ := placeFiles_spec items
    (c := ⟨List.replicate TRD_SIZE 0, SCL_HEADER_LEN + items.length * SCL_ENTRY_LEN,
      DATA_START_SECTOR, 0⟩)
    (show container items ++ tail = container ([] ++ items) ++ tail from rfl) hcount
    (by
      simp only [FREE_SECTORS_TOTAL, LOGICAL_TRACKS, SECTORS_PER_TRACK, startAfter,
        DATA_START_SECTOR, List.nil_append] at hused ⊢
      omega)
    (List.length_replicate ..) (fun i item hi => by simp at hi) (by simp) rfl rfl
  rw [List.length_nil] at hloop
  rw [List.nil_append] at hplaced hnext hsum
  obtain ⟨trd, hsys, hspec⟩ := writeSystem_spec hlen hplaced hcount hused
  refine ⟨trd, ?_, hspec⟩
  simp only [reconstructTrd, require, hfield]
  rw [if_pos ⟨by omega, hmagic⟩, if_pos hcount, if_pos (by omega)]
  simp only [Except.ok_bind]
  rw [hloop, Except.ok_bind, hsum, if_pos hused, hnext]
  exact hsys

/-! ## Packing and expanding -/

/-- The items of the files that `create_scl` packs. -/
theorem exists_items {files : List (String × Bytes)} {addr : Int} {entries : List Bytes}
    (hnamed : ∀ f ∈ files, Named f.1)
    (h : files.mapM (fun f => dirEntry f.1 "C" addr f.2.length) = .ok entries) :
    ∃ items : List Item, List.Forall₂ (fun f item =>
        dirEntry f.1 "C" addr f.2.length = .ok item.entry ∧ item.data = padded f.2 ∧
          item.sectors = sectorsFor f.2.length) files items ∧
      items.map Item.entry = entries := by
  rw [List.mapM_eq_ok_iff] at h
  induction h with
  | nil => exact ⟨[], .nil, rfl⟩
  | @cons f entry files entries hentry _ ih =>
      obtain ⟨items, hitems, hmap⟩ := ih (fun f hf => hnamed f (List.mem_cons_of_mem _ hf))
      obtain ⟨hlen, hsectors⟩ := dirEntry_spec (hnamed f List.mem_cons_self) hentry
      exact ⟨⟨entry, padded f.2, hlen, by rw [length_padded, hsectors]⟩ :: items,
        .cons ⟨hentry, rfl, hsectors⟩ hitems, by rw [List.map_cons, hmap]⟩

/-- File `i` is on the disk: its catalogue entry, in it where the file starts, and there its data. -/
structure FileAt (trd : Bytes) (addr : Int) (i start : Nat) (f : String × Bytes) : Prop where
  entry : dirEntry f.1 "C" addr f.2.length = .ok (trd.slice (i * 16) 14)
  sector : leField trd (i * 16 + 14) 1 = start % 16
  track : leField trd (i * 16 + 15) 1 = start / 16
  data : trd.slice (start * 256) (padded f.2).length = padded f.2

theorem map_eq_of_forall₂ {α β γ : Type} {R : α → β → Prop} {f : α → γ} {g : β → γ}
    (heq : ∀ a b, R a b → f a = g b) {l : List α} {l' : List β} (h : List.Forall₂ R l l') :
    l.map f = l'.map g := by
  induction h with
  | nil => rfl
  | cons hab _ ih => rw [List.map_cons, List.map_cons, heq _ _ hab, ih]

/-- What `create_scl` packs, `reconstruct_trd` lays out from track 1 in the order of the catalogue. -/
theorem reconstructTrd_createScl {files : List (String × Bytes)} {addr : Int} {scl : Bytes}
    (hnamed : ∀ f ∈ files, Named f.1) (h : createScl files addr = .ok scl) :
    ∃ trd, reconstructTrd scl = .ok trd ∧ trd.length = 655360 ∧
      (∀ i f, files[i]? = some f → FileAt trd addr i (16 + sectorsOf (files.take i)) f) ∧
      DiskInfo trd files.length (sectorsOf files) := by
  unfold createScl at h
  split_ifs at h with hmany hroom
  obtain ⟨count, hcount, h⟩ := Except.bind_eq_ok.mp h
  obtain ⟨entries, hentries, h⟩ := Except.bind_eq_ok.mp h
  obtain ⟨items, hitems, rfl⟩ := exists_items hnamed hentries
  obtain rfl := Except.ok.inj h
  have hlen := hitems.length_eq
  have hsectors : ∀ {fs : List (String × Bytes)} {its : List Item}, List.Forall₂ (fun f item =>
      dirEntry f.1 "C" addr f.2.length = .ok item.entry ∧ item.data = padded f.2 ∧
        item.sectors = sectorsFor f.2.length) fs its →
      (its.map Item.sectors).sum = sectorsOf fs := fun hf => by
    rw [sectorsOf, map_eq_of_forall₂ (fun f item hfi => hfi.2.2.symm) hf]
  have hdata : files.flatMap (fun f => padded f.2) = items.flatMap Item.data := by
    rw [List.flatMap_def, List.flatMap_def, map_eq_of_forall₂ (fun f item hfi => hfi.2.1.symm) hitems]
  have hcount' : count = [UInt8.ofNat items.length] := by
    rw [← hlen]
    unfold packB at hcount
    split at hcount
    · exact (Except.ok.inj hcount).symm
    · simp at hcount
  obtain ⟨trd, htrd, hsize, hplaced, hinfo⟩ := reconstructTrd_container items
    (packH (((SCL_MAGIC ++ count ++ (items.map Item.entry).flatten ++
        files.flatMap (fun f => padded f.2)).map UInt8.toNat).sum % 0x10000) ++
      packH (((SCL_MAGIC ++ count ++ (items.map Item.entry).flatten ++
        files.flatMap (fun f => padded f.2)).map UInt8.toNat).sum / 0x10000 % 0x10000))
    (by rw [← hlen]; omega)
    (by
      rw [hsectors hitems]
      simp only [DS80_FREE_SECTORS] at hroom
      simp only [FREE_SECTORS_TOTAL, LOGICAL_TRACKS, SECTORS_PER_TRACK]
      omega)
  refine ⟨trd, ?_, hsize, ?_, by rw [hlen, ← hsectors hitems]; exact hinfo⟩
  · rw [← htrd, container, ← List.flatMap_def, hdata, hcount', List.append_assoc]
  · intro i f hi
    obtain ⟨hlt, rfl⟩ := List.getElem?_eq_some_iff.mp hi
    have hlt' : i < items.length := hlen ▸ hlt
    obtain ⟨hentry, hpadded, hsec⟩ := (List.forall₂_iff_get.mp hitems).2 i hlt hlt'
    have hat := hplaced i items[i] (List.getElem?_eq_getElem hlt')
    have hstart : startAfter (items.take i) = 16 + sectorsOf (files.take i) := by
      rw [startAfter, hsectors (List.forall₂_take i hitems)]
      rfl
    have hfit := startAfter_take_le items (List.getElem?_eq_getElem hlt')
    rw [hstart, startAfter, hsectors hitems] at hfit
    simp only [DS80_FREE_SECTORS, DATA_START_SECTOR, SECTORS_PER_TRACK] at hroom hfit
    rw [hstart] at hat
    rw [List.get_eq_getElem, List.get_eq_getElem] at hentry hpadded
    refine ⟨by rw [hat.entry]; exact hentry, ?_, ?_, by rw [← hpadded]; exact hat.data⟩
    · rw [leField, hat.sector, Bytes.le_ofNat (by omega)]
    · rw [leField, hat.track, Bytes.le_ofNat (by omega)]

/-- Two files: the second starts in the sector after the first. -/
theorem reconstructTrd_createScl_two :
    ∃ scl trd, createScl [("BOOT", [1, 2, 3]), ("NOTE", [4])] 0x8000 = .ok scl ∧
      reconstructTrd scl = .ok trd ∧ FileAt trd 0x8000 0 16 ("BOOT", [1, 2, 3]) ∧
      FileAt trd 0x8000 1 17 ("NOTE", [4]) ∧ DiskInfo trd 2 2 := by
  obtain ⟨scl, hscl⟩ : ∃ scl, createScl [("BOOT", [1, 2, 3]), ("NOTE", [4])] 0x8000 = .ok scl :=
    ⟨_, rfl⟩
  have hnamed : ∀ f ∈ [("BOOT", ([1, 2, 3] : Bytes)), ("NOTE", [4])], Named f.1 := by
    intro f hf
    simp only [List.mem_cons, List.not_mem_nil, or_false] at hf
    rcases hf with rfl | rfl
    · exact ⟨by decide, by decide, by simp⟩
    · exact ⟨by decide, by decide, by simp⟩
  obtain ⟨trd, htrd, -, hfiles, hinfo⟩ := reconstructTrd_createScl hnamed hscl
  exact ⟨scl, trd, hscl, htrd, hfiles 0 _ rfl, hfiles 1 _ rfl, hinfo⟩

end Mountin.Scl
