import Mountin.Basic.Dict
import Mountin.Basic.FirstFit
import Mountin.Basic.ImageUnits
import Mountin.Disk.Fields
import Mountin.Fs.Fields

set_option autoImplicit false

/-! # VZ-DOS volumes

`mkvtech.py`: the sectors of a file form a chain, each with the place of the next one in its last
two bytes, and a bitmap marks them. The length of a file is the difference of two addresses of
16 bits, and the disk has room for more: `vtech_iff` says which files are read back.
-/

namespace Mountin.Vtech

open Volume

def SECTOR : Nat := 128
def SECTORS_PER_TRACK : Nat := 16
def TRACKS : Nat := 40
def IMAGE_SIZE : Nat := 81920
def DIR_TRACK : Nat := 0
def BITMAP_SECTOR : Nat := 15
def DATA_TRACK_START : Nat := 1
def ENTRY_LEN : Nat := 16
def ENTRIES_PER_SECTOR : Nat := 8
def MAX_ENTRIES : Nat := 120
def DATA_PER_SECTOR : Nat := 126
def LINK_TRACK : Nat := 126
def LINK_SECTOR : Nat := 127
def TYPE_END : UInt8 := 0
def TYPE_DELETED : UInt8 := 1
def TYPE_BINARY : UInt8 := 0x42
def SEP : UInt8 := 0x3a
def LOAD_BASE : Nat := 0x7000

/-- `sector_offset`. -/
def sectorOffset (track sector : Nat) : Nat := (track * SECTORS_PER_TRACK + sector) * SECTOR

/-- `vz_name` behind `os.path.basename`; the tables of `str.upper` and `str.isalnum` are
parameters. -/
def vzName (upper : Name → Name) (isalnum : Char → Bool) (base : Name) : Name :=
  let stem := (upper (splitExt base).1).filter isalnum
  (if stem = [] then ['F', 'I', 'L', 'E'] else stem).take 8

/-! ## The bitmap -/

/-- `_is_free`. -/
def isFree (bitmap : Bytes) (track sector : Nat) : Bool :=
  !(byteAt bitmap ((track - 1) * 2 + sector / 8)).toNat.testBit (sector % 8)

/-- `_mark`. -/
def mark (bitmap : Bytes) (track sector : Nat) : Bytes :=
  let b := (track - 1) * 2 + sector / 8
  bitmap.set b (byteAt bitmap b ||| (1 : UInt8) <<< UInt8.ofNat (sector % 8))

/-- The sectors in the order in which the loops of `_alloc` visit them. -/
def trackOf (s : Nat) : Nat := s / SECTORS_PER_TRACK + DATA_TRACK_START
def sectorOf (s : Nat) : Nat := s % SECTORS_PER_TRACK

theorem testBit_set (x : UInt8) {j k : Nat} (hj : j < 8) (hk : k < 8) :
    (x ||| (1 : UInt8) <<< UInt8.ofNat k).toNat.testBit j = (x.toNat.testBit j || decide (j = k)) := by
  rw [UInt8.toNat_or, Nat.testBit_or]
  congr 1
  interval_cases k <;> interval_cases j <;> decide

theorem byteAt_set {b : Bytes} {i : Nat} (hi : i < b.length) (x : UInt8) (j : Nat) :
    byteAt (b.set i x) j = if i = j then x else byteAt b j := by
  simp only [byteAt, List.getD_eq_getElem?_getD, List.getElem?_set, hi, if_true]
  split_ifs <;> rfl

theorem isFree_eq (b : Bytes) (s : Nat) :
    isFree b (trackOf s) (sectorOf s) = !(byteAt b (s / 8)).toNat.testBit (s % 8) := by
  have hbyte : (trackOf s - 1) * 2 + sectorOf s / 8 = s / 8 := by
    simp only [trackOf, sectorOf, SECTORS_PER_TRACK, DATA_TRACK_START]
    omega
  have hbit : sectorOf s % 8 = s % 8 := by
    simp only [sectorOf, SECTORS_PER_TRACK]
    omega
  rw [isFree, hbyte, hbit]

theorem mark_eq (b : Bytes) (s : Nat) : mark b (trackOf s) (sectorOf s)
    = b.set (s / 8) (byteAt b (s / 8) ||| (1 : UInt8) <<< UInt8.ofNat (s % 8)) := by
  have hbyte : (trackOf s - 1) * 2 + sectorOf s / 8 = s / 8 := by
    simp only [trackOf, sectorOf, SECTORS_PER_TRACK, DATA_TRACK_START]
    omega
  have hbit : sectorOf s % 8 = s % 8 := by
    simp only [sectorOf, SECTORS_PER_TRACK]
    omega
  rw [mark, hbyte, hbit]

/-- The sectors of a volume in its bitmap. -/
def freeMap : FreeMap Bytes where
  bound := (TRACKS - DATA_TRACK_START) * SECTORS_PER_TRACK
  isFree b s := isFree b (trackOf s) (sectorOf s)
  markUsed b s := mark b (trackOf s) (sectorOf s)
  Valid b := b.length = (TRACKS - 1) * 2
  valid_markUsed h := by rwa [mark, List.length_set]
  isFree_markUsed {b s t} hb hs ht := by
    simp only [TRACKS, DATA_TRACK_START, SECTORS_PER_TRACK] at hb hs ht
    have hlen : s / 8 < b.length := by omega
    rw [isFree_eq, isFree_eq, mark_eq, byteAt_set hlen]
    by_cases hbyte : s / 8 = t / 8
    · have hiff : (t % 8 = s % 8) ↔ t = s := by omega
      rw [if_pos hbyte, testBit_set _ (by omega) (by omega), hbyte, Bool.not_or, ← decide_not]
      simp only [hiff, ne_eq]
    · have hne : t ≠ s := by
        rintro rfl
        exact hbyte rfl
      rw [if_neg hbyte, decide_eq_true hne, Bool.and_true]

/-! ## Files -/

/-- The tuple that `add_file` appends to `entries`. -/
structure Entry where
  name : Name
  firstTrack : Nat
  firstSector : Nat
  start : Nat
  stop : Nat

/-- `VzDos`. -/
structure VzDos where
  image : Bytes
  bitmap : Bytes
  entries : List Entry

/-- `VzDos.__init__`. -/
def new : VzDos where
  image := List.replicate IMAGE_SIZE 0
  bitmap := List.replicate ((TRACKS - 1) * 2) 0
  entries := []

/-- Where the next sector stands, `(0, 0)` behind the last one. -/
def nextOf (rest : List Nat) : Nat × Nat :=
  match rest with
  | [] => (0, 0)
  | s :: _ => (trackOf s, sectorOf s)

/-- One sector of a chain: the data, then the two bytes of the link. -/
def writeSector (image : Bytes) (s : Nat) (nxt : Nat × Nat) (chunk : Bytes) : Bytes :=
  let off := sectorOffset (trackOf s) (sectorOf s)
  ((image.splice off chunk).splice (off + LINK_TRACK) [UInt8.ofNat nxt.1]).splice (off + LINK_SECTOR)
    [UInt8.ofNat nxt.2]

/-- The loop over a chain: each sector takes the next part of the data. -/
def writeChain : List Nat → Bytes → Bytes → Bytes
  | [], _, image => image
  | s :: rest, data, image =>
      writeChain rest (data.drop DATA_PER_SECTOR)
        (writeSector image s (nextOf rest) (data.take DATA_PER_SECTOR))

/-- The number of sectors of a file. -/
def nsectors (n : Nat) : Nat := max 1 ((n + (DATA_PER_SECTOR - 1)) / DATA_PER_SECTOR)

/-- A file that is given to `add_file`. -/
structure File where
  name : Name
  data : Bytes

/-- The entry of a file in a chain. -/
def File.entry (f : File) (chain : List Nat) : Entry where
  name := f.name
  firstTrack := trackOf (chain.headD 0)
  firstSector := sectorOf (chain.headD 0)
  start := LOAD_BASE
  stop := (LOAD_BASE + f.data.length) % 65536

/-- `add_file`, `none` for its two errors. -/
def VzDos.addFile (disk : VzDos) (f : File) : Option VzDos :=
  if MAX_ENTRIES ≤ disk.entries.length then none
  else do
    let (chain, bitmap) ← freeMap.allocMany (nsectors f.data.length) disk.bitmap
    return {
      image := writeChain chain f.data disk.image
      bitmap := bitmap
      entries := disk.entries ++ [f.entry chain] }

/-- Files that are added one after the other. -/
def VzDos.addAll (disk : VzDos) (files : List File) : Option VzDos :=
  files.foldlM VzDos.addFile disk

/-! ## The image -/

/-- A directory entry. -/
def entryBytes (e : Entry) : Option Bytes := do
  let name ← encodeAscii (ljust e.name 8)
  return [TYPE_BINARY, SEP] ++ (name.take 8 ++ ([UInt8.ofNat e.firstTrack,
    UInt8.ofNat e.firstSector] ++ (word e.start ++ word e.stop)))

/-- Where an entry of the directory stands. -/
def entryOff (k : Nat) : Nat :=
  sectorOffset DIR_TRACK (k / ENTRIES_PER_SECTOR) + k % ENTRIES_PER_SECTOR * ENTRY_LEN

/-- The loop of `build` over the entries from `k` on. -/
def writeEntries : Nat → List Entry → Bytes → Option Bytes
  | _, [], image => some image
  | k, e :: entries, image => do
      let b ← entryBytes e
      writeEntries (k + 1) entries (image.splice (entryOff k) b)

/-- `build`; a name that is not ASCII raises. -/
def VzDos.build (disk : VzDos) : Option Bytes := do
  let image ← writeEntries 0 disk.entries disk.image
  return image.splice (sectorOffset DIR_TRACK BITMAP_SECTOR) disk.bitmap

/-! ## The reader -/

/-- The walk along a chain for the bytes that are left; `guard` goes down from the number of
sectors. -/
def readChain (image : Bytes) : Nat → Nat → Nat → Nat → Option Bytes
  | 0, left, _, _ => if left = 0 then some [] else none
  | guard + 1, left, track, sec =>
      if left = 0 then some []
      else do
        let doff := sectorOffset track sec
        let part := image.slice doff (min DATA_PER_SECTOR left)
        let track ← image[doff + LINK_TRACK]?
        let sec ← image[doff + LINK_SECTOR]?
        let rest ← readChain image guard (left - part.length) track.toNat sec.toNat
        return part ++ rest

/-- `(end - start) & 0xFFFF`, from the image. -/
def lengthField (image : Bytes) (off : Nat) : Nat :=
  (leField image (off + 0xe) 2 + 65536 - leField image (off + 0xc) 2) % 65536

/-- A file of the directory. -/
def readEntry (image : Bytes) (off : Nat) : Option (Name × Bytes) := do
  let name ← decodeAscii (image.slice (off + 2) 8)
  let track ← image[off + 0xa]?
  let sec ← image[off + 0xb]?
  let data ← readChain image (TRACKS * SECTORS_PER_TRACK) (lengthField image off) track.toNat sec.toNat
  return (rstrip name, data)

/-- The loop of `extract` over the slots that are left. -/
def readSlots (image : Bytes) : Nat → Nat → Option (List (Name × Bytes))
  | 0, _ => some []
  | left + 1, k => do
      let ftype ← image[entryOff k]?
      if ftype = TYPE_END then return []
      else if ftype = TYPE_DELETED then readSlots image left (k + 1)
      else do
        let f ← readEntry image (entryOff k)
        let rest ← readSlots image left (k + 1)
        return f :: rest

/-- `extract`. -/
def extract (image : Bytes) : Option (Dict Name Bytes) :=
  (readSlots image MAX_ENTRIES 0).map fun l => Dict.update [] l

/-! ## One sector -/

theorem sectorOffset_eq (s : Nat) : sectorOffset (trackOf s) (sectorOf s) = (s + 16) * 128 := by
  simp only [sectorOffset, trackOf, sectorOf, SECTORS_PER_TRACK, SECTOR, DATA_TRACK_START]
  omega

theorem entryOff_eq (k : Nat) : entryOff k = k * 16 := by
  simp only [entryOff, sectorOffset, DIR_TRACK, ENTRIES_PER_SECTOR, ENTRY_LEN, SECTOR]
  omega

theorem bound_eq : freeMap.bound = 624 := rfl

/-- The data of a sector in an image. -/
def sectorUnits : ImageUnits where
  size := DATA_PER_SECTOR
  limit := IMAGE_SIZE
  off s := sectorOffset (trackOf s) (sectorOf s)
  Valid s := s < freeMap.bound
  room h := by
    simp only [bound_eq] at h
    simp only [sectorOffset_eq, DATA_PER_SECTOR, IMAGE_SIZE]
    omega
  apart _ _ hne := by
    simp only [sectorOffset_eq, DATA_PER_SECTOR]
    omega

section

variable {image chunk : Bytes} {s : Nat} {nxt : Nat × Nat}

theorem length_writeSector (hlen : image.length = IMAGE_SIZE) (hs : s < freeMap.bound)
    (hchunk : chunk.length ≤ DATA_PER_SECTOR) :
    (writeSector image s nxt chunk).length = IMAGE_SIZE := by
  rw [bound_eq] at hs
  have hroom : (s + 16) * 128 + 128 ≤ IMAGE_SIZE := by
    simp only [IMAGE_SIZE]
    omega
  simp only [DATA_PER_SECTOR] at hchunk
  have hkeep : ∀ (l d : Bytes) (off : Nat), l.length = IMAGE_SIZE → off + d.length ≤ IMAGE_SIZE →
      (l.splice off d).length = IMAGE_SIZE := fun l d off hl hd => by
    rw [List.length_splice (hl.symm ▸ hd), hl]
  simp only [writeSector, sectorOffset_eq, LINK_TRACK, LINK_SECTOR]
  refine hkeep _ _ _ (hkeep _ _ _ (hkeep _ _ _ hlen ?_) ?_) ?_
  · omega
  · rw [List.length_singleton]
    omega
  · rw [List.length_singleton]
    omega

theorem getElem?_writeSector (hlen : image.length = IMAGE_SIZE) (hs : s < freeMap.bound)
    (hchunk : chunk.length ≤ DATA_PER_SECTOR) (i : Nat) :
    (writeSector image s nxt chunk)[i]? =
      if i = (s + 16) * 128 + 127 then some (UInt8.ofNat nxt.2)
      else if i = (s + 16) * 128 + 126 then some (UInt8.ofNat nxt.1)
      else if (s + 16) * 128 ≤ i ∧ i < (s + 16) * 128 + chunk.length then chunk[i - (s + 16) * 128]?
      else image[i]? := by
  rw [bound_eq] at hs
  simp only [DATA_PER_SECTOR] at hchunk
  have hroom : (s + 16) * 128 + 128 ≤ image.length := by
    rw [hlen, IMAGE_SIZE]
    omega
  have h1 : (image.splice ((s + 16) * 128) chunk).length = image.length :=
    List.length_splice (by omega)
  have h2 : ((image.splice ((s + 16) * 128) chunk).splice ((s + 16) * 128 + 126)
      [UInt8.ofNat nxt.1]).length = image.length := by
    rw [List.length_splice, h1]
    rw [h1, List.length_singleton]
    omega
  simp only [writeSector, sectorOffset_eq, LINK_TRACK, LINK_SECTOR]
  rw [List.getElem?_splice (by omega), List.getElem?_splice (by omega),
    List.getElem?_splice (by omega)]
  simp only [List.length_singleton]
  by_cases hsec : i = (s + 16) * 128 + 127
  · rw [if_pos (by omega), if_pos hsec, hsec, Nat.sub_self, List.getElem?_cons_zero]
  · rw [if_neg (by omega), if_neg hsec]
    by_cases htrack : i = (s + 16) * 128 + 126
    · rw [if_pos (by omega), if_pos htrack, htrack, Nat.sub_self, List.getElem?_cons_zero]
    · rw [if_neg (by omega), if_neg htrack]

end

/-! ## One chain -/

/-- The links lead along a chain. -/
def Linked (raw : Bytes) : List Nat → Prop
  | [] => True
  | s :: rest =>
      raw[sectorOffset (trackOf s) (sectorOf s) + LINK_TRACK]? = some (UInt8.ofNat (nextOf rest).1) ∧
      raw[sectorOffset (trackOf s) (sectorOf s) + LINK_SECTOR]? = some (UInt8.ofNat (nextOf rest).2) ∧
      Linked raw rest

theorem Linked.congr {raw raw' : Bytes} {chain : List Nat} (h : Linked raw chain)
    (hsame : ∀ s ∈ chain, ∀ i, i / 128 = s + 16 → raw'[i]? = raw[i]?) : Linked raw' chain := by
  induction chain with
  | nil => trivial
  | cons s rest ih =>
      rw [List.forall_mem_cons] at hsame
      refine ⟨(hsame.1 _ ?_).trans h.1, (hsame.1 _ ?_).trans h.2.1, ih h.2.2 hsame.2⟩
      · rw [sectorOffset_eq, LINK_TRACK]
        omega
      · rw [sectorOffset_eq, LINK_SECTOR]
        omega

theorem stored_congr {raw raw' data : Bytes} {chain : List Nat}
    (h : sectorUnits.Stored raw chain data)
    (hsame : ∀ s ∈ chain, ∀ i, i / 128 = s + 16 → raw'[i]? = raw[i]?) :
    sectorUnits.Stored raw' chain data := by
  refine h.congr fun s hs i hlo hhi => hsame s hs i ?_
  simp only [sectorUnits, sectorOffset_eq, DATA_PER_SECTOR] at hlo hhi
  omega

/-- Writing a chain changes its sectors only. They hold the data and the links along the chain. -/
theorem writeChain_spec {chain : List Nat} (data : Bytes) {image : Bytes}
    (hlen : image.length = IMAGE_SIZE) (hnodup : chain.Nodup)
    (hbound : ∀ s ∈ chain, s < freeMap.bound) :
    (writeChain chain data image).length = IMAGE_SIZE ∧
      (∀ i, (∀ s ∈ chain, i / 128 ≠ s + 16) → (writeChain chain data image)[i]? = image[i]?) ∧
      sectorUnits.Stored (writeChain chain data image) chain data ∧
      Linked (writeChain chain data image) chain := by
  induction chain generalizing data image with
  | nil => exact ⟨hlen, fun _ _ => rfl, trivial, trivial⟩
  | cons s rest ih =>
      rw [List.nodup_cons] at hnodup
      rw [List.forall_mem_cons] at hbound
      have hpart : (data.take DATA_PER_SECTOR).length ≤ DATA_PER_SECTOR := List.length_take_le _ _
      have hwrite := @length_writeSector _ _ _ (nextOf rest) hlen hbound.1 hpart
      have hat := @getElem?_writeSector _ _ _ (nextOf rest) hlen hbound.1 hpart
      obtain ⟨hlength, hframe, hstored, hlinked⟩ := ih (data.drop DATA_PER_SECTOR) hwrite hnodup.2
        hbound.2
      have hself : ∀ i, i / 128 = s + 16 → (writeChain rest (data.drop DATA_PER_SECTOR)
          (writeSector image s (nextOf rest) (data.take DATA_PER_SECTOR)))[i]?
            = (writeSector image s (nextOf rest) (data.take DATA_PER_SECTOR))[i]? := by
        intro i hi
        refine hframe i fun t ht heq => hnodup.1 ?_
        obtain rfl : s = t := by omega
        exact ht
      refine ⟨hlength, fun i hi => ?_, ⟨?_, hstored⟩, ?_, ?_, hlinked⟩
      · rw [List.forall_mem_cons] at hi
        have hout := hi.1
        simp only [DATA_PER_SECTOR] at hpart
        rw [writeChain, hframe i hi.2, hat, if_neg (by omega), if_neg (by omega),
          if_neg (by simp only [DATA_PER_SECTOR]; omega)]
      · simp only [DATA_PER_SECTOR] at hpart
        have hoff : sectorUnits.off s = (s + 16) * 128 := sectorOffset_eq s
        have hsize : sectorUnits.size = DATA_PER_SECTOR := rfl
        apply List.ext_getElem?
        intro i
        rw [hoff, hsize, List.getElem?_slice]
        by_cases hi : i < (data.take DATA_PER_SECTOR).length
        · have hi' : i < 126 := by
            simp only [DATA_PER_SECTOR] at hi
            omega
          rw [if_pos hi, writeChain, hself _ (by omega), hat, if_neg (by omega), if_neg (by omega),
            if_pos (by omega), Nat.add_sub_cancel_left]
        · rw [if_neg hi, List.getElem?_eq_none (by omega)]
      · rw [sectorOffset_eq, LINK_TRACK, writeChain, hself _ (by omega), hat, if_neg (by omega),
          if_pos rfl]
      · rw [sectorOffset_eq, LINK_SECTOR, writeChain, hself _ (by omega), hat, if_pos rfl]

theorem nextOf_bounds {rest : List Nat} (h : ∀ s ∈ rest, s < freeMap.bound) :
    (nextOf rest).1 < 256 ∧ (nextOf rest).2 < 256 := by
  cases rest with
  | nil => exact ⟨by decide, by decide⟩
  | cons s rest =>
      have hs := h s List.mem_cons_self
      rw [bound_eq] at hs
      simp only [nextOf, trackOf, sectorOf, SECTORS_PER_TRACK, DATA_TRACK_START]
      omega

/-- The walk along a stored chain gives the data. -/
theorem readChain_spec {raw data : Bytes} {guard : Nat} {chain : List Nat} (hlinked : Linked raw chain)
    (hbound : ∀ s ∈ chain, s < freeMap.bound) (hstored : sectorUnits.Stored raw chain data)
    (hfits : sectorUnits.Fits chain data.length) (hguard : chain.length ≤ guard) :
    readChain raw guard data.length (trackOf (chain.headD 0)) (sectorOf (chain.headD 0))
      = some data := by
  have hempty : ∀ guard track sec, readChain raw guard 0 track sec = some [] := by
    intro guard track sec
    cases guard <;> rfl
  induction chain generalizing data guard with
  | nil => exact absurd rfl hfits.ne_nil
  | cons s rest ih =>
      by_cases hnone : data.length = 0
      · rw [hnone, hempty, List.length_eq_zero_iff.mp hnone]
      rw [List.length_cons] at hguard
      obtain ⟨guard, rfl⟩ : ∃ n, guard = n + 1 := ⟨guard - 1, by omega⟩
      rw [List.forall_mem_cons] at hbound
      obtain ⟨htrack, hsec, hrest⟩ := hlinked
      obtain ⟨hnext1, hnext2⟩ := nextOf_bounds hbound.2
      have hpart : raw.slice (sectorOffset (trackOf s) (sectorOf s)) (min DATA_PER_SECTOR data.length)
          = data.take DATA_PER_SECTOR := by
        rw [← List.length_take]
        exact hstored.1
      have hbehind : readChain raw guard (data.length - (data.take DATA_PER_SECTOR).length)
          (nextOf rest).1 (nextOf rest).2 = some (data.drop DATA_PER_SECTOR) := by
        cases rest with
        | nil =>
            have henough := hfits.enough
            have hsize : sectorUnits.size = DATA_PER_SECTOR := rfl
            rw [List.length_singleton, Nat.one_mul, hsize] at henough
            rw [List.take_of_length_le henough, Nat.sub_self, hempty,
              List.drop_of_length_le henough]
        | cons t rest =>
            obtain ⟨hfull, htail⟩ := hfits.tail
            have hsize : sectorUnits.size = DATA_PER_SECTOR := rfl
            rw [hsize] at hfull htail
            have hnext := @ih (data.drop DATA_PER_SECTOR) guard hrest hbound.2 hstored.2
              (by rwa [List.length_drop]) (by omega)
            rw [List.length_take, Nat.min_eq_left (by omega), ← List.length_drop]
            exact hnext
      have htrackValue : (UInt8.ofNat (nextOf rest).1).toNat = (nextOf rest).1 := by
        rw [UInt8.toNat_ofNat']
        omega
      have hsecValue : (UInt8.ofNat (nextOf rest).2).toNat = (nextOf rest).2 := by
        rw [UInt8.toNat_ofNat']
        omega
      rw [List.headD_cons, readChain, if_neg hnone]
      simp only [hpart, htrack, hsec, Option.bind_eq_bind, Option.bind_some, htrackValue, hsecValue,
        hbehind]
      exact congrArg some (List.take_append_drop _ _)

/-! ## One directory entry -/

theorem entryBytes_spec {e : Entry} {b : Bytes} (h : entryBytes e = some b) :
    b.length = ENTRY_LEN ∧ b[0]? = some TYPE_BINARY ∧
      decodeAscii (b.slice 2 8) = some ((ljust e.name 8).take 8) ∧
      b[0xa]? = some (UInt8.ofNat e.firstTrack) ∧ b[0xb]? = some (UInt8.ofNat e.firstSector) ∧
      b.slice 0xc 2 = word e.start ∧ b.slice 0xe 2 = word e.stop := by
  simp only [entryBytes, Option.bind_eq_bind, Option.bind_eq_some_iff] at h
  obtain ⟨name, hname, hb⟩ := h
  obtain rfl := Option.some.inj hb
  obtain ⟨hnameLen, hnameText⟩ := decode_encode hname 8
  have h8 : (name.take 8).length = 8 := by
    have := length_ljust e.name 8
    rw [List.length_take]
    omega
  generalize hrest : [UInt8.ofNat e.firstTrack, UInt8.ofNat e.firstSector] ++
    (word e.start ++ word e.stop) = rest
  have hbehind : ∀ i, ([TYPE_BINARY, SEP] ++ (name.take 8 ++ rest))[10 + i]? = rest[i]? := by
    intro i
    rw [← List.append_assoc, List.getElem?_append_right]
    · congr 1
      rw [List.length_append, h8]
      show 10 + i - 10 = i
      omega
    · rw [List.length_append, h8]
      show 10 ≤ 10 + i
      omega
  have hwindow : ∀ k w, ([TYPE_BINARY, SEP] ++ (name.take 8 ++ rest)).slice (10 + k) w
      = rest.slice k w := by
    intro k w
    rw [← List.append_assoc]
    exact List.slice_append_right rest (by rw [List.length_append, h8]; rfl) k w
  refine ⟨?_, rfl, ?_, ?_, ?_, ?_, ?_⟩
  · rw [List.length_append, List.length_append, h8, ← hrest]
    rfl
  · rw [← hnameText]
    congr 1
    show (name.take 8 ++ rest).take 8 = name.take 8
    exact List.take_left' h8
  · exact (hbehind 0).trans (by rw [← hrest]; rfl)
  · exact (hbehind 1).trans (by rw [← hrest]; rfl)
  · exact (hwindow 2 2).trans (by rw [← hrest]; rfl)
  · exact (hwindow 4 2).trans (by rw [← hrest]; rfl)

theorem entryBytes_isSome {e : Entry} :
    (entryBytes e).isSome = true ↔ ∀ c ∈ e.name, c.toNat < 128 := by
  rw [← @ljust_ascii e.name 8, ← encodeAscii_isSome, entryBytes]
  cases encodeAscii (ljust e.name 8) <;> simp

/-! ## The directory -/

theorem writeEntries_isSome {k : Nat} {entries : List Entry} {image : Bytes} :
    (writeEntries k entries image).isSome = true ↔
      ∀ e ∈ entries, ∀ c ∈ e.name, c.toNat < 128 := by
  induction entries generalizing k image with
  | nil => simp [writeEntries]
  | cons e entries ih =>
      rw [List.forall_mem_cons, ← entryBytes_isSome, writeEntries]
      cases hb : entryBytes e with
      | none => simp
      | some b =>
          simp only [Option.bind_eq_bind, Option.bind_some, Option.isSome_some, true_and]
          exact ih

/-- Writing the entries from slot `k` on changes their slots only, and these hold them. -/
theorem writeEntries_spec {k : Nat} {entries : List Entry} {image image' : Bytes}
    (h : writeEntries k entries image = some image') (hlen : image.length = IMAGE_SIZE)
    (hk : k + entries.length ≤ MAX_ENTRIES) :
    image'.length = IMAGE_SIZE ∧
      (∀ p, p < k * 16 ∨ (k + entries.length) * 16 ≤ p → image'[p]? = image[p]?) ∧
      ∀ i e, entries[i]? = some e → ∃ b, entryBytes e = some b ∧
        image'.slice ((k + i) * 16) ENTRY_LEN = b := by
  induction entries generalizing k image with
  | nil =>
      obtain rfl := Option.some.inj h
      refine ⟨hlen, fun _ _ => rfl, fun i e he => ?_⟩
      rw [List.getElem?_nil] at he
      cases he
  | cons e entries ih =>
      rw [List.length_cons] at hk
      simp only [writeEntries, Option.bind_eq_bind, Option.bind_eq_some_iff, entryOff_eq] at h
      obtain ⟨b, hb, hrest⟩ := h
      have hsize := (entryBytes_spec hb).1
      simp only [MAX_ENTRIES] at hk
      have hroom : k * 16 + 16 ≤ image.length := by
        rw [hlen, IMAGE_SIZE]
        omega
      simp only [ENTRY_LEN] at hsize
      have hsplice : (image.splice (k * 16) b).length = IMAGE_SIZE := by
        rw [List.length_splice (by omega), hlen]
      obtain ⟨hlength, hframe, hheld⟩ := ih hrest hsplice (by simp only [MAX_ENTRIES]; omega)
      refine ⟨hlength, fun p hp => ?_, fun i e' he => ?_⟩
      · rw [List.length_cons] at hp
        rw [hframe p (by omega), List.getElem?_splice (by omega), hsize, if_neg (by omega)]
      · cases i with
        | zero =>
            obtain rfl := Option.some.inj he
            refine ⟨b, hb, ?_⟩
            rw [Nat.add_zero, ENTRY_LEN, List.slice_congr fun p hlo hhi => hframe p (.inl (by omega))]
            exact List.slice_splice_self (by omega) hsize
        | succ i =>
            rw [show k + (i + 1) = k + 1 + i by omega]
            exact hheld i e' he

/-! ## All files -/

/-- What `add_file` keeps. -/
structure Inv (disk : VzDos) (files : List File) (chains : List (List Nat)) : Prop where
  length : disk.image.length = IMAGE_SIZE
  valid : freeMap.Valid disk.bitmap
  entries : disk.entries = List.zipWith File.entry files chains
  count : chains.length = files.length ∧ files.length ≤ MAX_ENTRIES
  disjoint : chains.flatten.Nodup
  bound : ∀ s ∈ chains.flatten, s < freeMap.bound
  free : ∀ s < freeMap.bound, freeMap.isFree disk.bitmap s = decide (s ∉ chains.flatten)
  directory : ∀ i < 2048, disk.image[i]? = some 0
  fits : ∀ (k : Nat) (f : File) (chain : List Nat), files[k]? = some f → chains[k]? = some chain →
    sectorUnits.Fits chain f.data.length
  stored : ∀ (k : Nat) (f : File) (chain : List Nat), files[k]? = some f → chains[k]? = some chain →
    sectorUnits.Stored disk.image chain f.data ∧ Linked disk.image chain

theorem isFree_new (s : Nat) : freeMap.isFree new.bitmap s = true := by
  show isFree new.bitmap (trackOf s) (sectorOf s) = true
  have hbyte : byteAt new.bitmap (s / 8) = 0 := by
    rw [byteAt, List.getD_eq_getElem?_getD, new, List.getElem?_replicate]
    split_ifs <;> rfl
  rw [isFree_eq, hbyte]
  simp

theorem inv_new : Inv new [] [] := by
  refine ⟨List.length_replicate, List.length_replicate, rfl, ⟨rfl, by decide⟩, List.nodup_nil,
    fun s hs => absurd hs List.not_mem_nil, fun s _ => ?_, fun i hi => ?_, fun k f chain hf => ?_,
    fun k f chain hf => ?_⟩
  · rw [isFree_new]
    simp
  · rw [new, List.getElem?_replicate, if_pos (by rw [IMAGE_SIZE]; omega)]
  · rw [List.getElem?_nil] at hf
    cases hf
  · rw [List.getElem?_nil] at hf
    cases hf

/-- One more file. -/
theorem Inv.addFile {disk disk' : VzDos} {files : List File} {chains : List (List Nat)} {f : File}
    (hinv : Inv disk files chains) (h : disk.addFile f = some disk') :
    ∃ chain, Inv disk' (files ++ [f]) (chains ++ [chain]) := by
  obtain ⟨hlen, hvalid, hentries, ⟨hcount, hfiles⟩, hdisjoint, hbound, hfree, hdir, hfits, hstored⟩ :=
    hinv
  unfold VzDos.addFile at h
  split_ifs at h with hslots
  simp only [Option.bind_eq_bind, Option.bind_eq_some_iff, Prod.exists] at h
  obtain ⟨chain, bitmap, halloc, heq⟩ := h
  obtain rfl := Option.some.inj heq
  obtain ⟨hsize, hnodup, hunits, hvalid', hleft⟩ := FreeMap.allocMany_spec hvalid halloc
  have hchain : ∀ s ∈ chain, s < freeMap.bound := fun s hs => (hunits s hs).1
  have hfresh : ∀ s ∈ chain, s ∉ chains.flatten := by
    intro s hs
    have hfreeAt := (hunits s hs).2
    rw [hfree s (hchain s hs)] at hfreeAt
    exact of_decide_eq_true hfreeAt
  obtain ⟨himage, hframe, hnew, hlinked⟩ := writeChain_spec f.data hlen hnodup hchain
  generalize writeChain chain f.data disk.image = image at *
  have hmem : ∀ s, s ∈ (chains ++ [chain]).flatten ↔ s ∈ chains.flatten ∨ s ∈ chain := by
    intro s
    rw [List.flatten_append, List.flatten_singleton, List.mem_append]
  have hslot : disk.entries.length = files.length := by
    rw [hentries, List.length_zipWith, hcount, Nat.min_self]
  have hnext : (chains ++ [chain])[files.length]? = some chain := by
    rw [← hcount, List.getElem?_concat_length]
  refine ⟨chain, himage, hvalid', ?_, ⟨?_, ?_⟩, ?_, fun s hs => ?_, fun s hs => ?_, fun i hi => ?_,
    fun k f' chain' hf hc => ?_, fun k f' chain' hf hc => ?_⟩
  · show disk.entries ++ [File.entry f chain] = _
    rw [List.zipWith_append hcount.symm, ← hentries]
    rfl
  · rw [List.length_append, List.length_append, hcount, List.length_singleton,
      List.length_singleton]
  · rw [List.length_append, List.length_singleton]
    omega
  · rw [List.flatten_append, List.flatten_singleton, List.nodup_append]
    exact ⟨hdisjoint, hnodup, fun a ha b hb heq => hfresh b hb (heq ▸ ha)⟩
  · exact ((hmem s).mp hs).elim (hbound s) (hchain s)
  · rw [hleft s hs, hfree s hs, ← Bool.decide_and]
    simp only [hmem, not_or]
  · refine (hframe i fun s hs => ?_).trans (hdir i hi)
    omega
  · rcases List.getElem?_snoc hf with ⟨hk, hf'⟩ | ⟨hk, rfl⟩
    · rw [List.getElem?_append_left (by omega)] at hc
      exact hfits k f' chain' hf' hc
    · rw [hk, hnext] at hc
      obtain rfl := Option.some.inj hc
      exact ImageUnits.fits_of_length (by decide) hsize
  · rcases List.getElem?_snoc hf with ⟨hk, hf'⟩ | ⟨hk, rfl⟩
    · rw [List.getElem?_append_left (by omega)] at hc
      obtain ⟨hold, holdLinked⟩ := hstored k f' chain' hf' hc
      have hsame : ∀ s ∈ chain', ∀ i, i / 128 = s + 16 → image[i]? = disk.image[i]? := by
        intro s hs i hi
        refine hframe i fun t ht heq => hfresh t ht ?_
        obtain rfl : s = t := by omega
        exact mem_flatten_of_getElem? hc hs
      exact ⟨stored_congr hold hsame, holdLinked.congr hsame⟩
    · rw [hk, hnext] at hc
      obtain rfl := Option.some.inj hc
      exact ⟨hnew, hlinked⟩

theorem Inv.addAll {disk disk' : VzDos} {files more : List File} {chains : List (List Nat)}
    (hinv : Inv disk files chains) (h : disk.addAll more = some disk') :
    ∃ chains', Inv disk' (files ++ more) chains' := by
  induction more generalizing disk files chains with
  | nil =>
      obtain rfl := Option.some.inj h
      rw [List.append_nil]
      exact ⟨chains, hinv⟩
  | cons f more ih =>
      rw [VzDos.addAll, List.foldlM_cons, Option.bind_eq_bind, Option.bind_eq_some_iff] at h
      obtain ⟨disk₁, hfile, hrest⟩ := h
      obtain ⟨chain, hinv₁⟩ := hinv.addFile hfile
      obtain ⟨chains', hdone⟩ := ih hinv₁ hrest
      rw [List.append_assoc] at hdone
      exact ⟨chains', hdone⟩

/-! ## Reading the image back -/

/-- A name as `vz_name` gives it: what is ASCII is a letter or a digit. -/
structure File.Sanitised (f : File) : Prop where
  length : f.name.length ≤ 8
  alnum : ∀ c ∈ f.name, c.toNat < 128 → c.isAlphanum = true

theorem vzName_sanitised (upper : Name → Name) {isalnum : Char → Bool}
    (halnum : ∀ c : Char, c.toNat < 128 → isalnum c = c.isAlphanum) (base : Name) (data : Bytes) :
    File.Sanitised ⟨vzName upper isalnum base, data⟩ := by
  refine ⟨List.length_take_le _ _, fun c hc hlt => ?_⟩
  have hmem := List.mem_of_mem_take hc
  split_ifs at hmem
  · simp only [List.mem_cons, List.not_mem_nil, or_false] at hmem
    rcases hmem with rfl | rfl | rfl | rfl <;> rfl
  · rw [← halnum c hlt]
    exact (List.mem_filter.mp hmem).2

/-- The bit of a sector in the bitmap of an image. -/
def imageUsed (raw : Bytes) (track sector : Nat) : Bool :=
  (byteAt raw (sectorOffset DIR_TRACK BITMAP_SECTOR + ((track - 1) * 2 + sector / 8))).toNat.testBit
    (sector % 8)

/-- A volume that was built, seen from its image. -/
structure Holds (files : List File) (chains : List (List Nat)) (raw : Bytes) : Prop where
  /-- The chains are disjoint, and lie on the tracks for data. -/
  disjoint : chains.flatten.Nodup
  tracks : ∀ s ∈ chains.flatten, DATA_TRACK_START ≤ trackOf s ∧ trackOf s < TRACKS ∧
    sectorOf s < SECTORS_PER_TRACK
  /-- The bitmap marks the sectors in the chains. -/
  bitmap : ∀ s < freeMap.bound,
    imageUsed raw (trackOf s) (sectorOf s) = decide (s ∈ chains.flatten)
  /-- There is a chain for each file, which begins where its entry says. The links lead along it,
  and the data are in its sectors. -/
  chain : chains.length = files.length ∧ ∀ (k : Nat) (f : File) (chain : List Nat),
    files[k]? = some f → chains[k]? = some chain →
      sectorUnits.Fits chain f.data.length ∧
      raw[entryOff k + 0xa]? = some (UInt8.ofNat (trackOf (chain.headD 0))) ∧
      raw[entryOff k + 0xb]? = some (UInt8.ofNat (sectorOf (chain.headD 0))) ∧
      Linked raw chain ∧ sectorUnits.Stored raw chain f.data
  /-- The addresses of an entry encode the length. -/
  addresses : ∀ (k : Nat) (f : File), files[k]? = some f →
    lengthField raw (entryOff k) = f.data.length
  /-- The reader returns the files. -/
  extract : extract raw = some (files.map fun f => (f.name, f.data))

/-- The loop over the slots: behind the files there is an end. -/
theorem readSlots_spec {raw : Bytes} {left slot : Nat} {files : List (Name × Bytes)}
    (hleft : files.length ≤ left)
    (hfiles : ∀ k f, files[k]? = some f → raw[entryOff (slot + k)]? = some TYPE_BINARY ∧
      readEntry raw (entryOff (slot + k)) = some f)
    (hend : files.length < left → raw[entryOff (slot + files.length)]? = some TYPE_END) :
    readSlots raw left slot = some files := by
  have h1 : TYPE_BINARY ≠ TYPE_END := by decide
  have h2 : TYPE_BINARY ≠ TYPE_DELETED := by decide
  refine @readSlots_of_steps _ (readSlots raw) (fun slot f => raw[entryOff slot]? = some TYPE_BINARY ∧
    readEntry raw (entryOff slot) = some f) (fun slot => raw[entryOff slot]? = some TYPE_END)
    (fun slot => rfl) (fun left slot hmode => ?_) (fun left slot f rest hf hrest => ?_)
    left slot files hleft hfiles hend
  · rw [readSlots, hmode]
    rfl
  · simp only [readSlots, hf.1, Option.bind_eq_bind, Option.bind_some, if_neg h1, if_neg h2, hf.2,
      hrest]
    rfl

/-- The length that the addresses of an entry give: the bits of the length that fit. -/
theorem lengthField_eq {raw b : Bytes} {off : Nat} {f : File} {chain : List Nat}
    (hb : entryBytes (f.entry chain) = some b) (hslice : raw.slice off ENTRY_LEN = b) :
    lengthField raw off = f.data.length % 65536 := by
  obtain ⟨-, -, -, -, -, hstart, hstop⟩ := entryBytes_spec hb
  simp only [ENTRY_LEN] at hslice
  have h1 : leField raw (off + 0xc) 2 = LOAD_BASE := by
    rw [leField, slice_of_window hslice (by omega), hstart]
    exact Bytes.le_ofNat_ofNat (show LOAD_BASE < 65536 by decide)
  have h2 : leField raw (off + 0xe) 2 = (LOAD_BASE + f.data.length) % 65536 := by
    rw [leField, slice_of_window hslice (by omega), hstop]
    exact Bytes.le_ofNat_ofNat (Nat.mod_lt _ (by decide))
  rw [lengthField, h1, h2, LOAD_BASE]
  omega

/-- What `build` leaves in the image. -/
theorem build_spec {disk : VzDos} {raw : Bytes} {files : List File} {chains : List (List Nat)}
    (hinv : Inv disk files chains) (h : disk.build = some raw) :
    (∀ i, 2048 ≤ i → raw[i]? = disk.image[i]?) ∧
      raw.slice 1920 78 = disk.bitmap ∧
      (∀ (k : Nat) (f : File) (chain : List Nat), files[k]? = some f → chains[k]? = some chain →
        ∃ b, entryBytes (f.entry chain) = some b ∧ raw.slice (k * 16) ENTRY_LEN = b) ∧
      (files.length < MAX_ENTRIES → raw[files.length * 16]? = some TYPE_END) := by
  obtain ⟨hlen, hvalid, hentries, ⟨hcount, hfiles⟩, -, -, -, hdir, -, -⟩ := hinv
  simp only [VzDos.build, Option.bind_eq_bind, Option.bind_eq_some_iff] at h
  obtain ⟨image, hwritten, heq⟩ := h
  have hoff : sectorOffset DIR_TRACK BITMAP_SECTOR = 1920 := rfl
  have hsize : disk.bitmap.length = 78 := hvalid
  rw [hoff] at heq
  obtain rfl := Option.some.inj heq
  have hnumber : disk.entries.length = files.length := by
    rw [hentries, List.length_zipWith, hcount, Nat.min_self]
  obtain ⟨hlength, hframe, hheld⟩ := writeEntries_spec hwritten hlen (by omega)
  simp only [Nat.zero_add, hnumber] at hframe hheld
  simp only [MAX_ENTRIES] at hfiles
  have hroom : 1920 ≤ image.length := by
    rw [hlength]
    decide
  refine ⟨fun i hi => ?_, List.slice_splice_self hroom hsize, fun k f chain hf hc => ?_, fun hlt => ?_⟩
  · rw [List.getElem?_splice hroom, if_neg (by omega)]
    exact hframe i (by omega)
  · have hk := (List.getElem?_eq_some_iff.mp hf).1
    obtain ⟨b, hb, hslice⟩ := hheld k (f.entry chain) (by
      rw [hentries, List.getElem?_zipWith, hf, hc])
    refine ⟨b, hb, (List.slice_splice_of_disjoint hroom (.inl ?_)).trans hslice⟩
    rw [ENTRY_LEN]
    omega
  · simp only [MAX_ENTRIES] at hlt
    rw [List.getElem?_splice hroom, if_neg (by omega), hframe _ (by omega)]
    exact hdir _ (by omega)

/-- The files of a volume that was built, when their lengths fit. -/
theorem Inv.holds {disk : VzDos} {raw : Bytes} {files : List File} {chains : List (List Nat)}
    (hinv : Inv disk files chains) (hsan : ∀ f ∈ files, f.Sanitised)
    (hkeys : (files.map File.name).Nodup) (h : disk.build = some raw)
    (hsmall : ∀ f ∈ files, f.data.length < 65536) : Holds files chains raw := by
  obtain ⟨hframe, hbitmap, hentry, hend⟩ := build_spec hinv h
  obtain ⟨hlen, hvalid, hentries, ⟨hcount, hfiles⟩, hdisjoint, hbound, hfree, hdir, hfits, hstored⟩ :=
    hinv
  have hchain : ∀ (k : Nat) (f : File), files[k]? = some f → ∃ chain, chains[k]? = some chain := by
    intro k f hf
    have hk := (List.getElem?_eq_some_iff.mp hf).1
    exact ⟨_, List.getElem?_eq_getElem (by omega)⟩
  have hsame : ∀ s, ∀ i, i / 128 = s + 16 → raw[i]? = disk.image[i]? := fun s i hi =>
    hframe i (by omega)
  have hmemBound : ∀ (k : Nat) (chain : List Nat), chains[k]? = some chain →
      ∀ s ∈ chain, s < freeMap.bound := fun k chain hc s hs =>
    hbound s (mem_flatten_of_getElem? hc hs)
  have hlength : ∀ (k : Nat) (f : File), files[k]? = some f →
      lengthField raw (entryOff k) = f.data.length := by
    intro k f hf
    obtain ⟨chain, hc⟩ := hchain k f hf
    obtain ⟨b, hb, hslice⟩ := hentry k f chain hf hc
    rw [entryOff_eq, lengthField_eq hb hslice]
    exact Nat.mod_eq_of_lt (hsmall f (List.mem_of_getElem? hf))
  have hread : readSlots raw MAX_ENTRIES 0 = some (files.map fun f => (f.name, f.data)) := by
    apply readSlots_spec
    · rw [List.length_map]
      exact hfiles
    · intro k g hg
      rw [List.getElem?_map, Option.map_eq_some_iff] at hg
      obtain ⟨f, hf, rfl⟩ := hg
      obtain ⟨chain, hc⟩ := hchain k f hf
      obtain ⟨b, hb, hslice⟩ := hentry k f chain hf hc
      obtain ⟨-, hmode, hname, htrack, hsec, -, -⟩ := entryBytes_spec hb
      obtain ⟨hold, holdLinked⟩ := hstored k f chain hf hc
      have hshort : chain.length ≤ TRACKS * SECTORS_PER_TRACK := by
        have hsub : chain.Nodup :=
          (List.nodup_flatten.mp hdisjoint).1 chain (List.mem_of_getElem? hc)
        have hle := (hsub.subperm fun s hs => List.mem_range.mpr (hmemBound k chain hc s hs)).length_le
        rw [List.length_range] at hle
        exact hle.trans (by decide)
      have hwalk := readChain_spec (holdLinked.congr fun s _ => hsame s) (hmemBound k chain hc)
        (stored_congr hold fun s _ => hsame s) (hfits k f chain hf hc) hshort
      have hnext : trackOf (chain.headD 0) < 256 ∧ sectorOf (chain.headD 0) < 256 := by
        cases hcons : chain with
        | nil => exact ⟨by decide, by decide⟩
        | cons s rest =>
            have hs := hmemBound k chain hc
            rw [hcons] at hs
            exact nextOf_bounds hs
      have htrackValue : (UInt8.ofNat (trackOf (chain.headD 0))).toNat = trackOf (chain.headD 0) := by
        rw [UInt8.toNat_ofNat']
        omega
      have hsecValue : (UInt8.ofNat (sectorOf (chain.headD 0))).toNat = sectorOf (chain.headD 0) := by
        rw [UInt8.toNat_ofNat']
        omega
      have hf' := hsan f (List.mem_of_getElem? hf)
      have hnameOf : rstrip ((ljust f.name 8).take 8) = f.name :=
        fieldName_of_fits hf'.length (isBlank_of_alnum hf'.alnum)
      rw [Nat.zero_add]
      have hlengthAt := hlength k f hf
      rw [entryOff_eq] at hlengthAt ⊢
      simp only [ENTRY_LEN] at hslice
      refine ⟨?_, ?_⟩
      · have hfirst := getElem?_of_window hslice (show 0 < 16 by omega)
        rw [Nat.add_zero] at hfirst
        exact hfirst.trans hmode
      · simp only [readEntry, slice_of_window hslice (show 2 + 8 ≤ 16 by omega), hname,
          getElem?_of_window hslice (show 0xa < 16 by omega), htrack,
          getElem?_of_window hslice (show 0xb < 16 by omega), hsec, hlengthAt, Option.bind_eq_bind,
          Option.bind_some]
        show (readChain raw (TRACKS * SECTORS_PER_TRACK) f.data.length
          (UInt8.ofNat (trackOf (chain.headD 0))).toNat
            (UInt8.ofNat (sectorOf (chain.headD 0))).toNat).bind _ = _
        rw [htrackValue, hsecValue, hwalk]
        show some (rstrip ((ljust f.name 8).take 8), f.data) = _
        rw [hnameOf]
    · intro hlt
      rw [List.length_map] at hlt ⊢
      rw [Nat.zero_add, entryOff_eq]
      exact hend hlt
  refine ⟨hdisjoint, fun s hs => ?_, fun s hs => ?_, ⟨hcount, fun k f chain hf hc => ?_⟩, hlength, ?_⟩
  · have hs' := hbound s hs
    rw [bound_eq] at hs'
    simp only [trackOf, sectorOf, DATA_TRACK_START, TRACKS, SECTORS_PER_TRACK]
    omega
  · have hfreeAt := hfree s hs
    rw [bound_eq] at hs
    have hbyte : s / 8 < 78 := by omega
    have hindex : (trackOf s - 1) * 2 + sectorOf s / 8 = s / 8 ∧ sectorOf s % 8 = s % 8 := by
      simp only [trackOf, sectorOf, SECTORS_PER_TRACK, DATA_TRACK_START]
      omega
    have hoff : sectorOffset DIR_TRACK BITMAP_SECTOR = 1920 := rfl
    change isFree disk.bitmap (trackOf s) (sectorOf s) = _ at hfreeAt
    rw [isFree_eq] at hfreeAt
    rw [imageUsed, hindex.1, hindex.2, hoff, byteAt_of_window hbitmap hbyte, ← Bool.not_not
      (Nat.testBit _ _), hfreeAt, ← decide_not]
    simp only [not_not]
  · obtain ⟨b, hb, hslice⟩ := hentry k f chain hf hc
    obtain ⟨-, -, -, htrack, hsec, -, -⟩ := entryBytes_spec hb
    obtain ⟨hold, holdLinked⟩ := hstored k f chain hf hc
    simp only [ENTRY_LEN] at hslice
    rw [entryOff_eq]
    exact ⟨hfits k f chain hf hc, (getElem?_of_window hslice (by omega)).trans htrack,
      (getElem?_of_window hslice (by omega)).trans hsec, holdLinked.congr fun s _ => hsame s,
      stored_congr hold fun s _ => hsame s⟩
  · rw [extract, hread, Option.map_some, Dict.update_of_nodup, List.nil_append]
    rw [List.nil_append, Dict.keys, List.map_map]
    exact hkeys

/-- `build` raises on a name that is not ASCII, and on nothing else. -/
theorem Inv.build_isSome {disk : VzDos} {files : List File} {chains : List (List Nat)}
    (hinv : Inv disk files chains) :
    disk.build.isSome = true ↔ ∀ f ∈ files, ∀ c ∈ f.name, c.toNat < 128 := by
  have hentries := hinv.entries
  obtain ⟨hcount, hfiles⟩ := hinv.count
  have hwrite : disk.build.isSome = (writeEntries 0 disk.entries disk.image).isSome := by
    rw [VzDos.build]
    cases writeEntries 0 disk.entries disk.image <;> rfl
  rw [hwrite, writeEntries_isSome, hentries]
  constructor
  · intro h f hf
    obtain ⟨k, hk⟩ := List.mem_iff_getElem?.mp hf
    have hlt := (List.getElem?_eq_some_iff.mp hk).1
    have hc : chains[k]? = some chains[k] := List.getElem?_eq_getElem (by omega)
    refine h (f.entry chains[k]) (List.mem_of_getElem? (i := k) ?_)
    rw [List.getElem?_zipWith, hk, hc]
  · intro h e he
    obtain ⟨k, hk⟩ := List.mem_iff_getElem?.mp he
    rw [List.getElem?_zipWith_eq_some] at hk
    obtain ⟨f, chain, hf, -, rfl⟩ := hk
    exact h f (List.mem_of_getElem? hf)

/-- The addresses of a file that the reader finds say its length. -/
theorem Holds.length_lt {raw : Bytes} {files : List File} {chains : List (List Nat)}
    (hholds : Holds files chains raw) : ∀ f ∈ files, f.data.length < 65536 := by
  intro f hf
  obtain ⟨k, hk⟩ := List.mem_iff_getElem?.mp hf
  have haddress := hholds.addresses k f hk
  rw [← haddress]
  exact Nat.mod_lt _ (by decide)

/-- **VZ-DOS volumes**: files with distinct sanitised names that `add_file` accepts are built into
a volume that holds them exactly when the names are ASCII and the lengths have 16 bits. -/
theorem vtech_iff (files : List File) {disk : VzDos} (hsan : ∀ f ∈ files, f.Sanitised)
    (hkeys : (files.map File.name).Nodup) (hadd : new.addAll files = some disk) :
    (∃ raw chains, disk.build = some raw ∧ Holds files chains raw) ↔
      ∀ f ∈ files, (∀ c ∈ f.name, c.toNat < 128) ∧ f.data.length < 65536 := by
  obtain ⟨chains, hinv⟩ := inv_new.addAll hadd
  rw [List.nil_append] at hinv
  constructor
  · rintro ⟨raw, chains', hbuild, hholds⟩ f hf
    exact ⟨hinv.build_isSome.mp (Option.isSome_iff_exists.mpr ⟨raw, hbuild⟩) f hf,
      hholds.length_lt f hf⟩
  · intro h
    obtain ⟨raw, hbuild⟩ := Option.isSome_iff_exists.mp (hinv.build_isSome.mpr fun f hf => (h f hf).1)
    exact ⟨raw, chains, hbuild, hinv.holds hsan hkeys hbuild fun f hf => (h f hf).2⟩

/-- An empty disk takes any file for which it has sectors. -/
theorem single_accepted (f : File) (h : nsectors f.data.length ≤ 624) :
    ∃ disk, new.addAll [f] = some disk := by
  have hcount : freeMap.freeCount new.bitmap = 624 := by
    rw [FreeMap.freeCount, List.countP_eq_length.mpr fun s _ => isFree_new s, List.length_range]
    rfl
  obtain ⟨chain, bitmap, halloc⟩ := FreeMap.allocMany_isSome inv_new.valid (hcount.symm ▸ h)
  rw [VzDos.addAll, List.foldlM_cons, VzDos.addFile, if_neg (by decide), halloc]
  exact ⟨_, rfl⟩

theorem sanitised_letter (data : Bytes) : File.Sanitised ⟨['A'], data⟩ :=
  ⟨by simp, fun c hc _ => by
    obtain rfl := List.mem_singleton.mp hc
    rfl⟩

/-- A file of three sectors. -/
def sample : File := ⟨['A'], List.replicate 300 7⟩

theorem vtech_sample : ∃ disk, new.addAll [sample] = some disk ∧
    ((∃ raw chains, disk.build = some raw ∧ Holds [sample] chains raw) ↔
      ∀ f ∈ [sample], (∀ c ∈ f.name, c.toNat < 128) ∧ f.data.length < 65536) := by
  obtain ⟨disk, hdisk⟩ := single_accepted sample (by
    rw [sample, List.length_replicate]
    decide)
  exact ⟨disk, hdisk, vtech_iff [sample] (List.forall_mem_singleton.mpr (sanitised_letter _))
    (List.nodup_singleton _) hdisk⟩

/-- A file that fills 521 sectors, and whose length has 17 bits. -/
def wrapping : File := ⟨['A'], List.replicate 65536 7⟩

theorem wrapping_not_held : ∃ disk, wrapping.Sanitised ∧ new.addAll [wrapping] = some disk ∧
    ¬∃ raw chains, disk.build = some raw ∧ Holds [wrapping] chains raw := by
  have hlength : wrapping.data.length = 65536 := List.length_replicate
  obtain ⟨disk, hdisk⟩ := single_accepted wrapping (by
    rw [hlength]
    decide)
  refine ⟨disk, sanitised_letter _, hdisk, ?_⟩
  rintro ⟨raw, chains, -, hholds⟩
  have hlt := hholds.length_lt wrapping List.mem_cons_self
  rw [hlength] at hlt
  exact absurd hlt (Nat.lt_irrefl _)

end Mountin.Vtech
