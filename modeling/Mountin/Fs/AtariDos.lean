import Mountin.Basic.FirstFit
import Mountin.Disk.Fields
import Mountin.Fs.Fields

set_option autoImplicit false

/-! # Atari DOS volumes

`mkataridos.py`: files are chains of sectors, each with a footer of the number of its file, the
next sector and a count; a bitmap of the sectors is kept in one sector (DOS 2.0S) or in two with
an overlap (DOS 2.5). `Inv` is what `add_file` keeps; `ataridos_spec` reads the volume back from
the image alone.
-/

namespace Mountin.AtariDos

open Volume

def SECTOR_SIZE : Nat := 128
def SD_SECTORS : Nat := 720
def ED_SECTORS : Nat := 1040
def ED_USABLE : Nat := 1024
def DATA_BYTES : Nat := 125
def FOOT_FILE_NEXT_HI : Nat := 125
def FOOT_NEXT_LO : Nat := 126
def FOOT_COUNT : Nat := 127
def VTOC_SECTOR : Nat := 360
def DIR_SECTOR : Nat := 361
def ENTRIES_PER_SECTOR : Nat := 8
def MAX_FILES : Nat := 64
def VTOC2_SECTOR : Nat := 1024
def VTOC_BITMAP_OFF : Nat := 10
def SD_BITMAP_BYTES : Nat := 90
def ED_BITMAP_BYTES : Nat := 128
def ED_VTOC2_COPY_FROM : Nat := 6
def VTOC2_FREE_ABOVE : Nat := 122
def DIR_FLAG_INUSE_DOS2 : UInt8 := 0x42

/-- The two densities. -/
inductive Density where
  | sd | ed
  deriving DecidableEq

def Density.totalSectors : Density → Nat
  | sd => SD_SECTORS
  | ed => ED_SECTORS

def Density.usable : Density → Nat
  | sd => SD_SECTORS
  | ed => ED_USABLE

/-- `free_sectors_total`. -/
def freeSectorsTotal : Density → Nat
  | .sd => 707
  | .ed => 1010

/-! ## The bitmap -/

/-- `_is_free`. -/
def isFree (bitmap : Bytes) (sector : Nat) : Bool :=
  (byteAt bitmap (sector / 8)).toNat.testBit (7 - sector % 8)

/-- `_mark_used`. -/
def markUsed (bitmap : Bytes) (sector : Nat) : Bytes :=
  bitmap.set (sector / 8)
    (byteAt bitmap (sector / 8) &&& ~~~((1 : UInt8) <<< UInt8.ofNat (7 - sector % 8)))

/-- `bin(b).count("1")`. -/
def popcount (b : UInt8) : Nat := (List.range 8).countP fun k => b.toNat.testBit k

/-- `_free_count`, of any part of the bitmap. -/
def freeCount (bitmap : Bytes) : Nat := (bitmap.map popcount).sum

theorem testBit_clear (x : UInt8) {j k : Nat} (hj : j < 8) (hk : k < 8) :
    (x &&& ~~~((1 : UInt8) <<< UInt8.ofNat k)).toNat.testBit j
      = (x.toNat.testBit j && decide (j ≠ k)) := by
  rw [UInt8.toNat_and, Nat.testBit_and]
  congr 1
  interval_cases k <;> interval_cases j <;> decide

theorem byteAt_set {b : Bytes} {i : Nat} (hi : i < b.length) (x : UInt8) (j : Nat) :
    byteAt (b.set i x) j = if i = j then x else byteAt b j := by
  simp only [byteAt, List.getD_eq_getElem?_getD, List.getElem?_set, hi, if_true]
  split_ifs <;> rfl

/-- The sectors of a volume in its bitmap. -/
def freeMap (d : Density) : FreeMap Bytes where
  bound := d.usable
  isFree := isFree
  markUsed := markUsed
  Valid b := b.length * 8 = d.usable
  valid_markUsed h := by rwa [markUsed, List.length_set]
  isFree_markUsed {b s t} hb hs ht := by
    have hlen : s / 8 < b.length := by omega
    rw [isFree, isFree, markUsed, byteAt_set hlen]
    by_cases hbyte : s / 8 = t / 8
    · have hiff : (7 - t % 8 ≠ 7 - s % 8) ↔ t ≠ s := by omega
      rw [if_pos hbyte, testBit_clear _ (by omega) (by omega), hbyte]
      simp only [hiff]
    · have hne : t ≠ s := by
        rintro rfl
        exact hbyte rfl
      rw [if_neg hbyte, decide_eq_true hne, Bool.and_true]

/-- The bits of a byte, from the highest on. -/
theorem popcount_eq (b : UInt8) :
    popcount b = (List.range 8).countP fun s => b.toNat.testBit (7 - s) := by
  have hrange : List.range 8 = [0, 1, 2, 3, 4, 5, 6, 7] := rfl
  simp only [popcount, hrange, List.countP_cons, List.countP_nil, Nat.reduceSub]
  omega

/-- The free count is the number of sectors whose bit is set. -/
theorem freeCount_eq (b : Bytes) :
    freeCount b = (List.range (8 * b.length)).countP (isFree b) := by
  induction b using List.reverseRecOn with
  | nil => rfl
  | append_singleton b x ih =>
      have hfirst : ∀ s ∈ List.range (8 * b.length), isFree (b ++ [x]) s = isFree b s := by
        intro s hs
        rw [List.mem_range] at hs
        simp only [isFree, byteAt, List.getD_eq_getElem?_getD]
        rw [List.getElem?_append_left (by omega)]
      have hlast : ∀ s ∈ List.range 8,
          isFree (b ++ [x]) (8 * b.length + s) = x.toNat.testBit (7 - s) := by
        intro s hs
        rw [List.mem_range] at hs
        have hdiv : (8 * b.length + s) / 8 = b.length := by omega
        have hmod : (8 * b.length + s) % 8 = s := by omega
        simp only [isFree, byteAt, List.getD_eq_getElem?_getD, hdiv, hmod]
        simp
      have hlen : 8 * (b ++ [x]).length = 8 * b.length + 8 := by
        rw [List.length_append, List.length_singleton]
        omega
      rw [hlen, List.range_add, List.countP_append, List.countP_congr
        (fun s hs => by rw [hfirst s hs]), ← ih, List.countP_map, freeCount, List.map_append,
        List.sum_append]
      simp only [List.map_cons, List.map_nil, List.sum_cons, List.sum_nil, Nat.add_zero]
      rw [popcount_eq, freeCount]
      congr 1
      exact List.countP_congr fun s hs => by rw [Function.comp_apply, hlast s hs]

/-! ## Files -/

/-- The tuple that `add_file` appends to `entries`. -/
structure Entry where
  name : Name
  ext : Name
  start : Nat
  count : Nat
  deriving DecidableEq

/-- `AtariDosDisk`. -/
structure AtariDosDisk where
  density : Density
  image : Bytes
  bitmap : Bytes
  entries : List Entry

/-- The structural sectors that the constructor marks used. -/
def reserved (d : Density) : List Nat :=
  [0, 1, 2, 3, VTOC_SECTOR] ++ List.range' DIR_SECTOR 8 ++ if d = .ed then [720] else []

/-- `AtariDosDisk.__init__`. -/
def new (d : Density) : AtariDosDisk where
  density := d
  image := List.replicate (d.totalSectors * SECTOR_SIZE) 0
  bitmap := (freeMap d).markAll (List.replicate (d.usable / 8) 0xff) (reserved d)
  entries := []

/-- `_sector_off`. -/
def sectorOff (sector : Nat) : Nat := (sector - 1) * SECTOR_SIZE

/-- Sector number `nxt` and the number of the file, as the footer has them. -/
def footer (fileNo nxt : Nat) : UInt8 := UInt8.ofNat (fileNo <<< 2 ||| (nxt >>> 8 &&& 3))

/-- One sector of a chain: the data, then the three bytes of the footer. -/
def writeSector (image : Bytes) (fileNo sector nxt : Nat) (chunk : Bytes) : Bytes :=
  (((image.splice (sectorOff sector) chunk).splice (sectorOff sector + FOOT_FILE_NEXT_HI)
    [footer fileNo nxt]).splice (sectorOff sector + FOOT_NEXT_LO) [UInt8.ofNat (nxt % 256)]).splice
      (sectorOff sector + FOOT_COUNT) [UInt8.ofNat chunk.length]

/-- The loop over a chain: each sector takes the next part of the data. -/
def writeChain (fileNo : Nat) : List Nat → Bytes → Bytes → Bytes
  | [], _, image => image
  | sector :: rest, data, image =>
      writeChain fileNo rest (data.drop DATA_BYTES)
        (writeSector image fileNo sector (rest.headD 0) (data.take DATA_BYTES))

/-- `add_file`, `none` for its two errors. -/
def AtariDosDisk.addFile (disk : AtariDosDisk) (name ext : Name) (data : Bytes) :
    Option AtariDosDisk :=
  let fileNo := disk.entries.length
  if MAX_FILES ≤ fileNo then none
  else do
    let nsec := max 1 ((data.length + (DATA_BYTES - 1)) / DATA_BYTES)
    let (chain, bitmap) ← (freeMap disk.density).allocMany nsec disk.bitmap
    return { disk with
      image := writeChain fileNo chain data disk.image
      bitmap
      entries := disk.entries ++ [⟨name, ext, chain.headD 0, nsec⟩] }

/-- A file that is given to `add_file`. -/
structure File where
  name : Name
  ext : Name
  data : Bytes

/-- Files that are added one after the other. -/
def AtariDosDisk.addAll (disk : AtariDosDisk) (files : List File) : Option AtariDosDisk :=
  files.foldlM (fun disk f => disk.addFile f.name f.ext f.data) disk

/-! ## The image -/

/-- A directory entry. -/
def entryBytes (e : Entry) : Option Bytes := do
  let name ← encodeAscii (ljust e.name 8)
  let ext ← encodeAscii (ljust e.ext 3)
  return [DIR_FLAG_INUSE_DOS2] ++ word e.count ++ word e.start ++ name.take 8 ++ ext.take 3

/-- Where entry `k` of the directory stands. -/
def entryOff (k : Nat) : Nat :=
  sectorOff (DIR_SECTOR + k / ENTRIES_PER_SECTOR) + k % ENTRIES_PER_SECTOR * 16

/-- `_write_directory`, from entry `k` on. -/
def writeDirectory : Nat → List Entry → Bytes → Option Bytes
  | _, [], image => some image
  | k, e :: entries, image => do
      let b ← entryBytes e
      writeDirectory (k + 1) entries (image.splice (entryOff k) b)

/-- `_write_vtoc`. -/
def writeVtoc (d : Density) (bitmap image : Bytes) : Bytes :=
  let vo := sectorOff VTOC_SECTOR
  let image := (((image.splice vo [0x02]).splice (vo + 1) (word (freeSectorsTotal d))).splice
    (vo + 3) (word (freeCount bitmap))).splice (vo + VTOC_BITMAP_OFF) (bitmap.take SD_BITMAP_BYTES)
  match d with
  | .sd => image
  | .ed =>
      let v2 := sectorOff VTOC2_SECTOR
      (image.splice v2 (bitmap.slice ED_VTOC2_COPY_FROM (ED_BITMAP_BYTES - ED_VTOC2_COPY_FROM))).splice
        (v2 + VTOC2_FREE_ABOVE)
        (word (freeCount (bitmap.slice SD_BITMAP_BYTES (ED_BITMAP_BYTES - SD_BITMAP_BYTES))))

/-- `to_raw`; a name that is not ASCII raises. -/
def AtariDosDisk.toRaw (disk : AtariDosDisk) : Option Bytes := do
  let image ← writeDirectory 0 disk.entries disk.image
  return writeVtoc disk.density disk.bitmap image

/-! ## The reader -/

/-- The walk along a chain. `guard` goes down from `ED_SECTORS`. -/
def walk (raw : Bytes) (k : Nat) : Nat → Nat → Option Bytes
  | 0, sector => if sector = 0 then some [] else none
  | guard + 1, sector =>
      if sector = 0 then some []
      else do
        let so := sectorOff sector
        let foot ← raw[so + FOOT_FILE_NEXT_HI]?
        if (foot.toNat >>> 2) &&& 0x3f ≠ k then none
        else do
          let count ← raw[so + FOOT_COUNT]?
          let lo ← raw[so + FOOT_NEXT_LO]?
          let rest ← walk raw k guard ((foot.toNat &&& 3) <<< 8 ||| lo.toNat)
          return raw.slice so count.toNat ++ rest

/-- A slot of the directory: `some none` when it is not in use. -/
def readSlot (raw : Bytes) (k : Nat) : Option (Option (Name × Name × Bytes)) := do
  let off := entryOff k
  let flag ← raw[off]?
  if flag = 0 then return none
  else if flag &&& 0x40 = 0 then return none
  else do
    let name ← decodeAscii (raw.slice (off + 5) 8)
    let ext ← decodeAscii (raw.slice (off + 13) 3)
    let lo ← raw[off + 3]?
    let hi ← raw[off + 4]?
    let data ← walk raw k ED_SECTORS (lo.toNat ||| hi.toNat <<< 8)
    return some (rstrip name, rstrip ext, data)

/-- `extract_image`. -/
def extractImage (raw : Bytes) : Option (List (Name × Name × Bytes)) :=
  ((List.range MAX_FILES).mapM (readSlot raw)).map (List.filterMap id)

/-! ## One chain -/

theorem testBit_all (i : Nat) (hi : i < 8) : (0xff : UInt8).toNat.testBit i = true := by
  interval_cases i <;> decide

theorem reserved_lt {d : Density} {s : Nat} (h : s ∈ reserved d) : s < d.usable := by
  cases d <;> simp [reserved, Density.usable, SD_SECTORS, ED_USABLE, VTOC_SECTOR, DIR_SECTOR] at h ⊢ <;>
    omega

theorem isFree_full {n s : Nat} (h : s / 8 < n) : isFree (List.replicate n 0xff) s = true := by
  have hbyte : byteAt (List.replicate n 0xff) (s / 8) = 0xff := by
    rw [byteAt, List.getD_eq_getElem?_getD, List.getElem?_replicate, if_pos h, Option.getD_some]
  rw [isFree, hbyte]
  exact testBit_all _ (by omega)

theorem usable_div (d : Density) : d.usable / 8 * 8 = d.usable := by
  cases d <;> rfl

theorem freeMap_isFree (d : Density) : (freeMap d).isFree = isFree := rfl
theorem freeMap_bound (d : Density) : (freeMap d).bound = d.usable := rfl

/-- The bitmap of an empty volume. -/
theorem isFree_new (d : Density) {s : Nat} (hs : s < d.usable) :
    isFree (new d).bitmap s = decide (s ∉ reserved d) := by
  have husable := usable_div d
  have hbyte : s / 8 < d.usable / 8 := by omega
  have hvalid : (freeMap d).Valid (List.replicate (d.usable / 8) 0xff) := by
    show (List.replicate (d.usable / 8) (0xff : UInt8)).length * 8 = d.usable
    rw [List.length_replicate, husable]
  have hlt : ∀ r ∈ reserved d, r < (freeMap d).bound := fun _ hr => reserved_lt hr
  have hfull : isFree (List.replicate (d.usable / 8) 0xff) s = true := isFree_full hbyte
  have hfresh : ((freeMap d).isFree (List.replicate (d.usable / 8) 0xff) s
      && decide (s ∉ reserved d)) = decide (s ∉ reserved d) := by
    rw [freeMap_isFree, hfull, Bool.true_and]
  have hmark := (FreeMap.isFree_markAll hvalid hlt hs).trans hfresh
  rw [freeMap_isFree] at hmark
  simp only [new]
  exact hmark

/-- A chain in an image: the parts of the data, and the footers. -/
def Stored (raw : Bytes) (fileNo : Nat) : List Nat → Bytes → Prop
  | [], _ => True
  | sector :: rest, data =>
      raw.slice (sectorOff sector) (data.take DATA_BYTES).length = data.take DATA_BYTES ∧
      raw.slice (sectorOff sector + FOOT_FILE_NEXT_HI) 1 = [footer fileNo (rest.headD 0)] ∧
      raw.slice (sectorOff sector + FOOT_NEXT_LO) 1 = [UInt8.ofNat (rest.headD 0 % 256)] ∧
      raw.slice (sectorOff sector + FOOT_COUNT) 1 = [UInt8.ofNat (data.take DATA_BYTES).length] ∧
      Stored raw fileNo rest (data.drop DATA_BYTES)

/-- The image has the sector. -/
def Within (image : Bytes) (sector : Nat) : Prop :=
  1 ≤ sector ∧ sectorOff sector + SECTOR_SIZE ≤ image.length

/-- A window lies in another sector. -/
def Apart (sector off n : Nat) : Prop :=
  off + n ≤ sectorOff sector ∨ sectorOff sector + SECTOR_SIZE ≤ off

theorem sectorOff_apart {s t : Nat} (hs : 1 ≤ s) (ht : 1 ≤ t) (h : s ≠ t) {k n : Nat}
    (hk : k + n ≤ SECTOR_SIZE) : Apart s (sectorOff t + k) n := by
  simp only [Apart, sectorOff, SECTOR_SIZE] at hk ⊢
  omega

section

variable {image : Bytes} {fileNo sector nxt : Nat} {chunk : Bytes}

theorem length_writeSector (h : Within image sector) (hchunk : chunk.length ≤ DATA_BYTES) :
    (writeSector image fileNo sector nxt chunk).length = image.length := by
  obtain ⟨-, hroom⟩ := h
  simp only [SECTOR_SIZE] at hroom
  simp only [DATA_BYTES] at hchunk
  unfold writeSector FOOT_FILE_NEXT_HI FOOT_NEXT_LO FOOT_COUNT
  have h0 : (image.splice (sectorOff sector) chunk).length = image.length :=
    List.length_splice (by omega)
  have h1 : ∀ (l : Bytes) (off : Nat) (b : UInt8), l.length = image.length → off < image.length →
      (l.splice off [b]).length = image.length := by
    intro l off b hl hoff
    rw [List.length_splice, hl]
    rw [List.length_singleton, hl]
    exact hoff
  exact h1 _ _ _ (h1 _ _ _ (h1 _ _ _ h0 (by omega)) (by omega)) (by omega)

/-- Writing a sector changes no window of another one. -/
theorem slice_writeSector_of_apart (h : Within image sector) (hchunk : chunk.length ≤ DATA_BYTES)
    {off n : Nat} (hapart : Apart sector off n) :
    (writeSector image fileNo sector nxt chunk).slice off n = image.slice off n := by
  obtain ⟨-, hroom⟩ := h
  simp only [SECTOR_SIZE] at hroom
  simp only [DATA_BYTES] at hchunk
  simp only [Apart, SECTOR_SIZE] at hapart
  unfold writeSector FOOT_FILE_NEXT_HI FOOT_NEXT_LO FOOT_COUNT
  have h0 : (image.splice (sectorOff sector) chunk).length = image.length :=
    List.length_splice (by omega)
  have h1 : ((image.splice (sectorOff sector) chunk).splice (sectorOff sector + 125)
      [footer fileNo nxt]).length = image.length := by
    rw [List.length_splice (by rw [List.length_singleton]; omega), h0]
  have h2 : (((image.splice (sectorOff sector) chunk).splice (sectorOff sector + 125)
      [footer fileNo nxt]).splice (sectorOff sector + 126) [UInt8.ofNat (nxt % 256)]).length
        = image.length := by
    rw [List.length_splice (by rw [List.length_singleton]; omega), h1]
  rw [List.slice_splice_of_disjoint (by omega) (by rw [List.length_singleton]; omega),
    List.slice_splice_of_disjoint (by omega) (by rw [List.length_singleton]; omega),
    List.slice_splice_of_disjoint (by omega) (by rw [List.length_singleton]; omega),
    List.slice_splice_of_disjoint (by omega) (by omega)]

/-- What is in a sector that was written. -/
theorem slice_writeSector (h : Within image sector) (hchunk : chunk.length ≤ DATA_BYTES) :
    (writeSector image fileNo sector nxt chunk).slice (sectorOff sector) chunk.length = chunk ∧
    (writeSector image fileNo sector nxt chunk).slice (sectorOff sector + FOOT_FILE_NEXT_HI) 1
      = [footer fileNo nxt] ∧
    (writeSector image fileNo sector nxt chunk).slice (sectorOff sector + FOOT_NEXT_LO) 1
      = [UInt8.ofNat (nxt % 256)] ∧
    (writeSector image fileNo sector nxt chunk).slice (sectorOff sector + FOOT_COUNT) 1
      = [UInt8.ofNat chunk.length] := by
  obtain ⟨-, hroom⟩ := h
  simp only [SECTOR_SIZE] at hroom
  simp only [DATA_BYTES] at hchunk
  unfold writeSector FOOT_FILE_NEXT_HI FOOT_NEXT_LO FOOT_COUNT
  have h0 : (image.splice (sectorOff sector) chunk).length = image.length :=
    List.length_splice (by omega)
  have h1 : ((image.splice (sectorOff sector) chunk).splice (sectorOff sector + 125)
      [footer fileNo nxt]).length = image.length := by
    rw [List.length_splice (by rw [List.length_singleton]; omega), h0]
  have h2 : (((image.splice (sectorOff sector) chunk).splice (sectorOff sector + 125)
      [footer fileNo nxt]).splice (sectorOff sector + 126) [UInt8.ofNat (nxt % 256)]).length
        = image.length := by
    rw [List.length_splice (by rw [List.length_singleton]; omega), h1]
  refine ⟨?_, ?_, ?_, ?_⟩
  · rw [List.slice_splice_of_disjoint (by omega) (by rw [List.length_singleton]; omega),
      List.slice_splice_of_disjoint (by omega) (by rw [List.length_singleton]; omega),
      List.slice_splice_of_disjoint (by omega) (by rw [List.length_singleton]; omega),
      List.slice_splice_self (by omega) rfl]
  · rw [List.slice_splice_of_disjoint (by omega) (by rw [List.length_singleton]; omega),
      List.slice_splice_of_disjoint (by omega) (by rw [List.length_singleton]; omega)]
    exact List.slice_splice_self (by omega) rfl
  · rw [List.slice_splice_of_disjoint (by omega) (by rw [List.length_singleton]; omega)]
    exact List.slice_splice_self (by omega) rfl
  · exact List.slice_splice_self (by omega) rfl

end

/-- A stored chain depends on the windows of its sectors only. -/
theorem Stored.congr {raw raw' : Bytes} {fileNo : Nat} {chain : List Nat} {data : Bytes}
    (h : Stored raw fileNo chain data)
    (hsame : ∀ s ∈ chain, ∀ k n, k + n ≤ SECTOR_SIZE →
      raw'.slice (sectorOff s + k) n = raw.slice (sectorOff s + k) n) :
    Stored raw' fileNo chain data := by
  induction chain generalizing data with
  | nil => trivial
  | cons s rest ih =>
      rw [List.forall_mem_cons] at hsame
      obtain ⟨hdata, hfoot, hlo, hcount, hrest⟩ := h
      have htake : (data.take DATA_BYTES).length ≤ SECTOR_SIZE := by
        rw [List.length_take, DATA_BYTES, SECTOR_SIZE]
        omega
      have hzero := hsame.1 0 (data.take DATA_BYTES).length (by omega)
      rw [Nat.add_zero] at hzero
      exact ⟨hzero.trans hdata, (hsame.1 _ _ (by decide)).trans hfoot,
        (hsame.1 _ _ (by decide)).trans hlo, (hsame.1 _ _ (by decide)).trans hcount,
        ih hrest hsame.2⟩

/-- Writing a chain: the image keeps its length and its windows outside of the chain, and holds
the chain. -/
theorem writeChain_spec (fileNo : Nat) {chain : List Nat} (data : Bytes) {image : Bytes}
    (hnodup : chain.Nodup) (hin : ∀ s ∈ chain, Within image s) :
    (writeChain fileNo chain data image).length = image.length ∧
    (∀ off n, (∀ s ∈ chain, Apart s off n) →
      (writeChain fileNo chain data image).slice off n = image.slice off n) ∧
    Stored (writeChain fileNo chain data image) fileNo chain data := by
  induction chain generalizing data image with
  | nil => exact ⟨rfl, fun _ _ _ => rfl, trivial⟩
  | cons s rest ih =>
      rw [List.forall_mem_cons] at hin
      rw [List.nodup_cons] at hnodup
      have hchunk : (data.take DATA_BYTES).length ≤ DATA_BYTES := by
        rw [List.length_take]
        omega
      set image' := writeSector image fileNo s (rest.headD 0) (data.take DATA_BYTES) with himage'
      have hlen : image'.length = image.length := length_writeSector hin.1 hchunk
      have hin' : ∀ t ∈ rest, Within image' t := by
        intro t ht
        rw [Within, hlen]
        exact hin.2 t ht
      obtain ⟨hlength, hframe, hstored⟩ := ih (data.drop DATA_BYTES) hnodup.2 hin'
      obtain ⟨hdata, hfoot, hlo, hcount⟩ :=
        @slice_writeSector image fileNo s (rest.headD 0) _ hin.1 hchunk
      rw [← himage'] at hdata hfoot hlo hcount
      -- the sectors of the rest are not this one
      have hown : ∀ k n, k + n ≤ SECTOR_SIZE →
          (writeChain fileNo rest (data.drop DATA_BYTES) image').slice (sectorOff s + k) n
            = image'.slice (sectorOff s + k) n := by
        intro k n hk
        apply hframe
        intro t ht
        have hne : t ≠ s := by
          rintro rfl
          exact hnodup.1 ht
        exact sectorOff_apart (hin.2 t ht).1 hin.1.1 hne hk
      have hzero := hown 0 (data.take DATA_BYTES).length (by
        rw [Nat.zero_add]
        exact hchunk.trans (by decide))
      rw [Nat.add_zero] at hzero
      refine ⟨hlength.trans hlen, fun off n hapart => ?_, ?_, ?_, ?_, ?_, hstored⟩
      · rw [List.forall_mem_cons] at hapart
        calc (writeChain fileNo (s :: rest) data image).slice off n
            = image'.slice off n := hframe off n hapart.2
          _ = image.slice off n := slice_writeSector_of_apart hin.1 hchunk hapart.1
      · exact hzero.trans hdata
      · exact (hown _ _ (by decide)).trans hfoot
      · exact (hown _ _ (by decide)).trans hlo
      · exact (hown _ _ (by decide)).trans hcount

/-- The footer keeps the number of the file and, in ten bits, the next sector. -/
theorem footer_spec {fileNo nxt : Nat} (hfile : fileNo < MAX_FILES) (hnxt : nxt < ED_USABLE) :
    ((footer fileNo nxt).toNat >>> 2) &&& 0x3f = fileNo ∧
      ((footer fileNo nxt).toNat &&& 3) <<< 8 ||| (UInt8.ofNat (nxt % 256)).toNat = nxt := by
  simp only [MAX_FILES] at hfile
  simp only [ED_USABLE] at hnxt
  have hhi : nxt >>> 8 &&& 3 = nxt / 256 := by
    rw [Nat.shiftRight_eq_div_pow, Nat.and_two_pow_sub_one_eq_mod _ 2]
    omega
  have hvalue : (footer fileNo nxt).toNat = fileNo * 4 + nxt / 256 := by
    rw [footer, hhi, ← Nat.shiftLeft_add_eq_or_of_lt (by omega), Nat.shiftLeft_eq,
      UInt8.toNat_ofNat']
    omega
  have hlo : (UInt8.ofNat (nxt % 256)).toNat = nxt % 256 := by
    rw [UInt8.toNat_ofNat']
    omega
  constructor
  · rw [hvalue, Nat.shiftRight_eq_div_pow, Nat.and_two_pow_sub_one_eq_mod _ 6]
    omega
  · rw [hvalue, hlo, Nat.and_two_pow_sub_one_eq_mod _ 2,
      ← Nat.shiftLeft_add_eq_or_of_lt (by omega), Nat.shiftLeft_eq]
    omega

/-- The walk along a stored chain collects the data. -/
theorem walk_stored {raw : Bytes} {k : Nat} (hk : k < MAX_FILES) {chain : List Nat} {data : Bytes}
    (hstored : Stored raw k chain data) (hin : ∀ s ∈ chain, 1 ≤ s ∧ s < ED_USABLE)
    (hdata : data.length ≤ DATA_BYTES * chain.length) {guard : Nat} (hguard : chain.length ≤ guard) :
    walk raw k guard (chain.headD 0) = some data := by
  induction chain generalizing data guard with
  | nil =>
      have hnil : data = [] := List.eq_nil_of_length_eq_zero (by simpa using hdata)
      rw [hnil]
      cases guard <;> rfl
  | cons s rest ih =>
      rw [List.forall_mem_cons] at hin
      rw [List.length_cons] at hguard hdata
      obtain ⟨hchunk, hfoot, hlo, hcount, hrest⟩ := hstored
      obtain ⟨guard, rfl⟩ : ∃ g, guard = g + 1 := ⟨guard - 1, by omega⟩
      have hnext : rest.headD 0 < ED_USABLE := by
        cases rest with
        | nil => decide
        | cons t rest => exact (hin.2 t List.mem_cons_self).2
      obtain ⟨hnumber, hpointer⟩ := footer_spec hk hnext
      have hlen : (UInt8.ofNat (data.take DATA_BYTES).length).toNat
          = (data.take DATA_BYTES).length := by
        rw [UInt8.toNat_ofNat', List.length_take, DATA_BYTES]
        omega
      have hwalk := ih hrest hin.2 (by rw [List.length_drop]; simp only [DATA_BYTES] at hdata ⊢; omega)
        (show rest.length ≤ guard by omega)
      rw [List.headD_cons, walk, if_neg (by omega)]
      simp only [getElem?_of_slice hfoot, getElem?_of_slice hlo, getElem?_of_slice hcount,
        Option.bind_eq_bind, Option.bind_some, hnumber, hpointer, hlen, hwalk, hchunk, ne_eq,
        not_true_eq_false, if_false]
      show some (data.take DATA_BYTES ++ data.drop DATA_BYTES) = some data
      rw [List.take_append_drop]

/-! ## What `add_file` keeps -/

/-- The volume after some files: what is free, where the chains are, and that they are there. -/
structure Inv (d : Density) (disk : AtariDosDisk) (files : List File) (chains : List (List Nat)) :
    Prop where
  density : disk.density = d
  length : disk.image.length = d.totalSectors * SECTOR_SIZE
  valid : (freeMap d).Valid disk.bitmap
  entries : disk.entries =
    List.zipWith (fun f chain => ⟨f.name, f.ext, chain.headD 0, chain.length⟩) files chains
  count : chains.length = files.length ∧ files.length ≤ MAX_FILES
  free : ∀ s < d.usable,
    isFree disk.bitmap s = decide (s ∉ reserved d ∧ s ∉ chains.flatten)
  nodup : chains.flatten.Nodup
  usable : ∀ s ∈ chains.flatten, s < d.usable ∧ s ∉ reserved d
  size : ∀ (k : Nat) (f : File) (chain : List Nat), files[k]? = some f → chains[k]? = some chain →
    chain ≠ [] ∧ f.data.length ≤ DATA_BYTES * chain.length
  stored : ∀ (k : Nat) (f : File) (chain : List Nat), files[k]? = some f →
    chains[k]? = some chain → Stored disk.image k chain f.data
  directory : disk.image.slice (sectorOff DIR_SECTOR) 1024 = List.replicate 1024 0

theorem inv_new (d : Density) : Inv d (new d) [] [] where
  density := rfl
  length := List.length_replicate
  valid := by
    apply FreeMap.valid_markAll
    show (List.replicate (d.usable / 8) (0xff : UInt8)).length * 8 = d.usable
    rw [List.length_replicate, usable_div]
  entries := rfl
  count := ⟨rfl, Nat.zero_le _⟩
  free s hs := by
    rw [isFree_new d hs]
    simp
  nodup := List.nodup_nil
  usable := by simp
  size := by simp
  stored := by simp
  directory := by
    have htotal : 47104 ≤ d.totalSectors * SECTOR_SIZE := by cases d <;> simp [Density.totalSectors, SD_SECTORS, ED_SECTORS, SECTOR_SIZE]
    apply List.slice_replicate
    simp only [sectorOff, DIR_SECTOR, SECTOR_SIZE] at htotal ⊢
    omega

/-- A usable sector that is not reserved lies in the image, and apart from the directory and
the sectors of the bitmaps. -/
theorem sector_bounds {d : Density} {s : Nat} (hs : s < d.usable) (hr : s ∉ reserved d) :
    4 ≤ s ∧ s < ED_USABLE ∧ sectorOff s + SECTOR_SIZE ≤ d.totalSectors * SECTOR_SIZE ∧
      (s < VTOC_SECTOR ∨ DIR_SECTOR + 8 ≤ s) := by
  cases d <;>
    simp [reserved, Density.usable, Density.totalSectors, SD_SECTORS, ED_SECTORS, ED_USABLE,
      VTOC_SECTOR, DIR_SECTOR, sectorOff, SECTOR_SIZE] at hs hr ⊢ <;> omega

/-- A file and its chain in a volume with one more file. -/
theorem file_snoc {files : List File} {chains : List (List Nat)} {f g : File} {chain c : List Nat}
    {k : Nat} (hcount : chains.length = files.length) (hg : (files ++ [f])[k]? = some g)
    (hc : (chains ++ [chain])[k]? = some c) :
    (files[k]? = some g ∧ chains[k]? = some c) ∨ (k = files.length ∧ g = f ∧ c = chain) := by
  rcases List.getElem?_snoc hg with ⟨hk, hold⟩ | ⟨rfl, rfl⟩
  · rw [List.getElem?_append_left (by omega)] at hc
    exact .inl ⟨hold, hc⟩
  · rcases List.getElem?_snoc hc with ⟨hk, -⟩ | ⟨-, rfl⟩
    · omega
    · exact .inr ⟨rfl, rfl, rfl⟩

/-- `add_file` keeps the invariant, with one more chain. -/
theorem Inv.addFile {d : Density} {disk disk' : AtariDosDisk} {files : List File}
    {chains : List (List Nat)} (h : Inv d disk files chains) (f : File)
    (hadd : disk.addFile f.name f.ext f.data = some disk') :
    ∃ chain, Inv d disk' (files ++ [f]) (chains ++ [chain]) := by
  obtain ⟨hdensity, hlength, hvalid, hentries, ⟨hcount, hfiles⟩, hfree, hnodup, husable, hsize,
    hstored, hdirectory⟩ := h
  have hnumber : disk.entries.length = files.length := by
    rw [hentries, List.length_zipWith, hcount, Nat.min_self]
  unfold AtariDosDisk.addFile at hadd
  rw [hnumber, hdensity] at hadd
  by_cases hfull : MAX_FILES ≤ files.length
  · rw [if_pos hfull] at hadd
    cases hadd
  rw [if_neg hfull] at hadd
  simp only [Option.bind_eq_bind, Option.bind_eq_some_iff, Prod.exists] at hadd
  obtain ⟨chain, bitmap, halloc, hdisk⟩ := hadd
  obtain rfl := Option.some.inj hdisk
  obtain ⟨hlen, hchain, hunits, hvalid', hleft⟩ := FreeMap.allocMany_spec hvalid halloc
  rw [freeMap_isFree, freeMap_bound] at hunits hleft
  -- the sectors of the new chain were in no other one
  have hnew : ∀ s ∈ chain, s < d.usable ∧ s ∉ reserved d ∧ s ∉ chains.flatten := by
    intro s hs
    obtain ⟨hlt, hbit⟩ := hunits s hs
    rw [hfree s hlt, decide_eq_true_eq] at hbit
    exact ⟨hlt, hbit⟩
  have hwithin : ∀ s ∈ chain, Within disk.image s := by
    intro s hs
    obtain ⟨hlo, -, hroom, -⟩ := sector_bounds (hnew s hs).1 (hnew s hs).2.1
    exact ⟨by omega, by rw [hlength]; exact hroom⟩
  obtain ⟨hlength', hframe, hstored'⟩ :=
    writeChain_spec files.length f.data hchain hwithin
  refine ⟨chain, rfl, hlength'.trans hlength, hvalid', ?_, ⟨?_, ?_⟩, ?_, ?_, ?_, ?_, ?_, ?_⟩
  · show disk.entries ++ [_] = _
    rw [hentries, List.zipWith_append hcount.symm]
    simp only [List.zipWith_cons_cons, List.zipWith_nil_left, hlen]
  · rw [List.length_append, List.length_append, hcount, List.length_singleton,
      List.length_singleton]
  · rw [List.length_append, List.length_singleton]
    omega
  · intro s hs
    rw [hleft s hs, hfree s hs, ← Bool.decide_and]
    simp only [List.flatten_append, List.flatten_cons, List.flatten_nil, List.append_nil,
      List.mem_append, not_or, and_assoc]
  · rw [List.flatten_append, List.flatten_cons, List.flatten_nil, List.append_nil]
    exact List.nodup_append.mpr ⟨hnodup, hchain, fun s hs t ht heq => (hnew t ht).2.2 (heq ▸ hs)⟩
  · intro s hs
    rw [List.flatten_append, List.flatten_cons, List.flatten_nil, List.append_nil,
      List.mem_append] at hs
    rcases hs with hs | hs
    · exact husable s hs
    · exact ⟨(hnew s hs).1, (hnew s hs).2.1⟩
  · intro k g c hg hc
    rcases file_snoc hcount hg hc with ⟨hg, hc⟩ | ⟨rfl, rfl, rfl⟩
    · exact hsize k g c hg hc
    · refine ⟨?_, ?_⟩
      · rintro rfl
        rw [List.length_nil] at hlen
        omega
      · rw [hlen]
        simp only [DATA_BYTES]
        omega
  · intro k g c hg hc
    rcases file_snoc hcount hg hc with ⟨hg, hc⟩ | ⟨rfl, rfl, rfl⟩
    · refine (hstored k g c hg hc).congr fun s hs i n hi => hframe _ _ fun t ht => ?_
      have hold := mem_flatten_of_getElem? hc hs
      have hne : t ≠ s := by
        rintro rfl
        exact (hnew t ht).2.2 hold
      obtain ⟨hlo, -⟩ := sector_bounds (husable s hold).1 (husable s hold).2
      exact sectorOff_apart (hwithin t ht).1 (by omega) hne hi
    · exact hstored'
  · refine (hframe _ _ fun s hs => ?_).trans hdirectory
    obtain ⟨hlo, -, -, hside⟩ := sector_bounds (hnew s hs).1 (hnew s hs).2.1
    simp only [Apart, sectorOff, SECTOR_SIZE, VTOC_SECTOR, DIR_SECTOR] at hside ⊢
    omega

/-- Files that were all accepted. -/
theorem Inv.addAll {d : Density} {disk disk' : AtariDosDisk} {files : List File}
    {chains : List (List Nat)} (h : Inv d disk files chains) {more : List File}
    (hadd : disk.addAll more = some disk') : ∃ chains', Inv d disk' (files ++ more) chains' := by
  induction more generalizing disk files chains with
  | nil =>
      obtain rfl := Option.some.inj hadd
      exact ⟨chains, by rwa [List.append_nil]⟩
  | cons f more ih =>
      simp only [AtariDosDisk.addAll, List.foldlM_cons, Option.bind_eq_bind,
        Option.bind_eq_some_iff] at hadd
      obtain ⟨disk₁, hfile, hrest⟩ := hadd
      obtain ⟨chain, h₁⟩ := h.addFile f hfile
      obtain ⟨chains', h'⟩ := ih h₁ hrest
      exact ⟨chains', by rwa [List.append_assoc] at h'⟩

/-! ## The image of a volume -/

theorem entryOff_eq {k : Nat} (hk : k < MAX_FILES) :
    entryOff k = sectorOff DIR_SECTOR + k * 16 := by
  simp only [entryOff, sectorOff, DIR_SECTOR, ENTRIES_PER_SECTOR, SECTOR_SIZE, MAX_FILES] at hk ⊢
  omega

/-- The parts of a directory entry. -/
theorem entryBytes_spec {e : Entry} {b : Bytes} (h : entryBytes e = some b) :
    b.length = 16 ∧ b[0]? = some DIR_FLAG_INUSE_DOS2 ∧
      b[3]? = some (UInt8.ofNat (e.start % 256)) ∧ b[4]? = some (UInt8.ofNat (e.start / 256 % 256)) ∧
      decodeAscii (b.slice 5 8) = some ((ljust e.name 8).take 8) ∧
      decodeAscii (b.slice 13 3) = some ((ljust e.ext 3).take 3) ∧ b.slice 1 2 = word e.count := by
  simp only [entryBytes, Option.bind_eq_bind, Option.bind_eq_some_iff] at h
  obtain ⟨name, hname, ext, hext, hb⟩ := h
  obtain rfl := Option.some.inj hb
  obtain ⟨hnameLen, hnameText⟩ := decode_encode hname 8
  obtain ⟨hextLen, hextText⟩ := decode_encode hext 3
  have h8 : (name.take 8).length = 8 := by
    have := length_ljust e.name 8
    rw [List.length_take]
    omega
  have h3 : (ext.take 3).length = 3 := by
    have := length_ljust e.ext 3
    rw [List.length_take]
    omega
  refine ⟨?_, rfl, rfl, rfl, ?_, ?_, rfl⟩
  · simp only [List.length_append, List.length_singleton, length_word, h8, h3]
  · rw [← hnameText, List.slice]
    congr 1
    show (name.take 8 ++ ext.take 3).take 8 = name.take 8
    exact List.take_left' h8
  · rw [← hextText, List.slice]
    congr 1
    show ((name.take 8 ++ ext.take 3).drop 8).take 3 = ext.take 3
    rw [List.drop_left' h8, List.take_of_length_le h3.le]

/-- Writing the directory from entry `k` on: only the slots of the entries change, and they hold
the entries. -/
theorem writeDirectory_spec {entries : List Entry} {k : Nat} {image image' : Bytes}
    (h : writeDirectory k entries image = some image') (hk : k + entries.length ≤ MAX_FILES)
    (hlen : sectorOff DIR_SECTOR + 1024 ≤ image.length) :
    image'.length = image.length ∧
    (∀ off n, off + n ≤ sectorOff DIR_SECTOR + k * 16 ∨
        sectorOff DIR_SECTOR + (k + entries.length) * 16 ≤ off →
      image'.slice off n = image.slice off n) ∧
    ∀ i e, entries[i]? = some e →
      ∃ b, entryBytes e = some b ∧ image'.slice (entryOff (k + i)) 16 = b := by
  induction entries generalizing k image with
  | nil =>
      obtain rfl := Option.some.inj h
      exact ⟨rfl, fun _ _ _ => rfl, by simp⟩
  | cons e entries ih =>
      simp only [writeDirectory, Option.bind_eq_bind, Option.bind_eq_some_iff] at h
      obtain ⟨b, hb, hrest⟩ := h
      rw [List.length_cons] at hk
      simp only [MAX_FILES] at hk
      obtain ⟨hblen, -⟩ := entryBytes_spec hb
      have hoff : entryOff k = sectorOff DIR_SECTOR + k * 16 :=
        entryOff_eq (by simp only [MAX_FILES]; omega)
      have hsplice : (image.splice (entryOff k) b).length = image.length :=
        List.length_splice (by omega)
      obtain ⟨hlength, hframe, hentries⟩ :=
        ih hrest (by simp only [MAX_FILES]; omega) (by omega)
      refine ⟨hlength.trans hsplice, fun off n hapart => ?_, fun i e' hi => ?_⟩
      · rw [List.length_cons] at hapart
        rw [hframe off n (by omega)]
        exact List.slice_splice_of_disjoint (by omega) (by omega)
      · cases i with
        | zero =>
            obtain rfl : e = e' := by simpa using hi
            refine ⟨b, hb, ?_⟩
            rw [Nat.add_zero, hframe _ _ (by omega)]
            exact List.slice_splice_self (by omega) hblen
        | succ i =>
            obtain ⟨b', hb', hslice⟩ := hentries i e' (by simpa using hi)
            exact ⟨b', hb', by rwa [show k + (i + 1) = k + 1 + i by omega]⟩

/-- What `_write_vtoc` leaves in the two sectors of the bitmaps, and elsewhere. -/
theorem writeVtoc_spec {d : Density} {bitmap image : Bytes} (hbitmap : bitmap.length * 8 = d.usable)
    (hlen : image.length = d.totalSectors * SECTOR_SIZE) :
    (∀ off n, Apart VTOC_SECTOR off n → (d = .ed → Apart VTOC2_SECTOR off n) →
      (writeVtoc d bitmap image).slice off n = image.slice off n) ∧
    (writeVtoc d bitmap image).slice (sectorOff VTOC_SECTOR + 3) 2 = word (freeCount bitmap) ∧
    (writeVtoc d bitmap image).slice (sectorOff VTOC_SECTOR + VTOC_BITMAP_OFF) 90
      = bitmap.take 90 ∧
    (d = .ed → (writeVtoc d bitmap image).slice (sectorOff VTOC2_SECTOR) 122 = bitmap.slice 6 122 ∧
      (writeVtoc d bitmap image).slice (sectorOff VTOC2_SECTOR + VTOC2_FREE_ABOVE) 2
        = word (freeCount (bitmap.slice 90 38))) := by
  have htake : (bitmap.take 90).length = 90 := by
    rw [List.length_take]
    cases d <;> simp only [Density.usable, SD_SECTORS, ED_USABLE] at hbitmap <;> omega
  have htotal : 92160 ≤ image.length := by
    rw [hlen]
    cases d <;> simp [Density.totalSectors, SD_SECTORS, ED_SECTORS, SECTOR_SIZE]
  have hvo : sectorOff VTOC_SECTOR = 45952 := rfl
  have hv2 : sectorOff VTOC2_SECTOR = 130944 := rfl
  -- the four writes into the first sector
  have l1 : (image.splice 45952 [0x02]).length = image.length :=
    List.length_splice (by rw [List.length_singleton]; omega)
  have l2 : ((image.splice 45952 [0x02]).splice 45953 (word (freeSectorsTotal d))).length
      = image.length := by
    rw [List.length_splice (by rw [length_word]; omega), l1]
  have l3 : (((image.splice 45952 [0x02]).splice 45953 (word (freeSectorsTotal d))).splice 45955
      (word (freeCount bitmap))).length = image.length := by
    rw [List.length_splice (by rw [length_word]; omega), l2]
  set first := ((((image.splice 45952 [0x02]).splice 45953 (word (freeSectorsTotal d))).splice 45955
    (word (freeCount bitmap))).splice 45962 (bitmap.take 90)) with hfirst
  have l4 : first.length = image.length := by
    rw [hfirst, List.length_splice (by rw [htake]; omega), l3]
  have hframe : ∀ off n, Apart VTOC_SECTOR off n → first.slice off n = image.slice off n := by
    intro off n hapart
    simp only [Apart, hvo, SECTOR_SIZE] at hapart
    rw [hfirst, List.slice_splice_of_disjoint (by omega) (by rw [htake]; omega),
      List.slice_splice_of_disjoint (by omega) (by rw [length_word]; omega),
      List.slice_splice_of_disjoint (by omega) (by rw [length_word]; omega),
      List.slice_splice_of_disjoint (by omega) (by rw [List.length_singleton]; omega)]
  have hcount : first.slice 45955 2 = word (freeCount bitmap) := by
    rw [hfirst, List.slice_splice_of_disjoint (by omega) (by rw [htake]; omega)]
    exact List.slice_splice_self (by omega) (length_word _)
  have hbits : first.slice 45962 90 = bitmap.take 90 :=
    List.slice_splice_self (by omega) htake
  cases d with
  | sd => exact ⟨fun off n h _ => hframe off n h, hcount, hbits, by rintro ⟨⟩⟩
  | ed =>
      have hbig : 133120 = image.length := by rw [hlen]; rfl
      have h122 : (bitmap.slice 6 122).length = 122 := by
        simp only [Density.usable, ED_USABLE] at hbitmap
        rw [List.length_slice]
        omega
      have hwrite : writeVtoc .ed bitmap image = (first.splice 130944 (bitmap.slice 6 122)).splice
          131066 (word (freeCount (bitmap.slice 90 38))) := rfl
      have l5 : (first.splice 130944 (bitmap.slice 6 122)).length = image.length := by
        rw [List.length_splice (by rw [h122]; omega), l4]
      rw [hwrite, hvo, hv2]
      refine ⟨fun off n h h2 => ?_, ?_, ?_, fun _ => ⟨?_, ?_⟩⟩
      · have h2' := h2 rfl
        simp only [Apart, hv2, SECTOR_SIZE] at h2'
        rw [List.slice_splice_of_disjoint (by omega) (by rw [length_word]; omega),
          List.slice_splice_of_disjoint (by omega) (by rw [h122]; omega), hframe off n h]
      · rw [List.slice_splice_of_disjoint (by omega) (by rw [length_word]; omega),
          List.slice_splice_of_disjoint (by omega) (by rw [h122]; omega)]
        exact hcount
      · rw [List.slice_splice_of_disjoint (by omega) (by rw [length_word]; simp only [VTOC_BITMAP_OFF]; omega),
          List.slice_splice_of_disjoint (by omega) (by rw [h122]; simp only [VTOC_BITMAP_OFF]; omega)]
        exact hbits
      · rw [List.slice_splice_of_disjoint (by omega) (by rw [length_word]; omega)]
        exact List.slice_splice_self (by omega) h122
      · exact List.slice_splice_self (by omega) (length_word _)

/-! ## Reading the volume back -/

/-- The bit of a sector in the first bitmap. -/
def vtocFree (raw : Bytes) (s : Nat) : Bool :=
  (byteAt raw (sectorOff VTOC_SECTOR + VTOC_BITMAP_OFF + s / 8)).toNat.testBit (7 - s % 8)

/-- The bit of a sector in the second bitmap, which begins with sector 48. -/
def vtoc2Free (raw : Bytes) (s : Nat) : Bool :=
  (byteAt raw (sectorOff VTOC2_SECTOR + (s / 8 - ED_VTOC2_COPY_FROM))).toNat.testBit (7 - s % 8)

/-- A sector that no file has and that is not a structural one. -/
def Unused (d : Density) (chains : List (List Nat)) (s : Nat) : Prop :=
  s ∉ reserved d ∧ s ∉ chains.flatten

instance (d : Density) (chains : List (List Nat)) (s : Nat) : Decidable (Unused d chains s) := by
  unfold Unused
  infer_instance

/-- A volume that was built, seen from its image. -/
structure Built (d : Density) (files : List File) (chains : List (List Nat)) (raw : Bytes) :
    Prop where
  /-- The chains are disjoint. -/
  disjoint : chains.flatten.Nodup
  /-- They avoid the boot sectors, the bitmaps, the directory and sector 720. -/
  avoid : ∀ s ∈ chains.flatten, s < d.usable ∧ s ∉ reserved d ∧ s ≠ VTOC2_SECTOR
  /-- There is one for each file, and it holds the data behind footers that lead along it. -/
  chain : chains.length = files.length ∧ ∀ (k : Nat) (f : File) (chain : List Nat),
    files[k]? = some f → chains[k]? = some chain →
      chain ≠ [] ∧ Stored raw k chain f.data ∧
      ∀ (i s : Nat), chain[i]? = some s →
        ∃ foot lo, raw[sectorOff s + FOOT_FILE_NEXT_HI]? = some foot ∧
          raw[sectorOff s + FOOT_NEXT_LO]? = some lo ∧ (foot.toNat >>> 2) &&& 0x3f = k ∧
          (foot.toNat &&& 3) <<< 8 ||| lo.toNat = (chain[i + 1]?).getD 0
  /-- The bitmaps mark the unused sectors. -/
  vtoc : ∀ s < SD_SECTORS, vtocFree raw s = decide (Unused d chains s)
  vtoc2 : d = .ed → ∀ s, 48 ≤ s → s < ED_USABLE → vtoc2Free raw s = decide (Unused d chains s)
  /-- The counts are those of the bits. -/
  count : leField raw (sectorOff VTOC_SECTOR + 3) 2
    = (List.range d.usable).countP fun s => decide (Unused d chains s)
  count2 : d = .ed → leField raw (sectorOff VTOC2_SECTOR + VTOC2_FREE_ABOVE) 2
    = (List.range' SD_SECTORS 304).countP fun s => decide (Unused d chains s)
  /-- The reader returns the files in order. -/
  extract : extractImage raw =
    some (files.map fun f => (fieldName 8 f.name, fieldName 3 f.ext, f.data))

/-- The footers along a stored chain. -/
theorem Stored.footers {raw : Bytes} {k : Nat} (hk : k < MAX_FILES) {chain : List Nat} {data : Bytes}
    (h : Stored raw k chain data) (hin : ∀ s ∈ chain, s < ED_USABLE) (i s : Nat)
    (hi : chain[i]? = some s) :
    ∃ foot lo, raw[sectorOff s + FOOT_FILE_NEXT_HI]? = some foot ∧
      raw[sectorOff s + FOOT_NEXT_LO]? = some lo ∧ (foot.toNat >>> 2) &&& 0x3f = k ∧
      (foot.toNat &&& 3) <<< 8 ||| lo.toNat = (chain[i + 1]?).getD 0 := by
  induction chain generalizing data i with
  | nil => cases hi
  | cons t rest ih =>
      rw [List.forall_mem_cons] at hin
      obtain ⟨-, hfoot, hlo, -, hrest⟩ := h
      cases i with
      | zero =>
          obtain rfl : t = s := by simpa using hi
          have hnext : rest.headD 0 < ED_USABLE := by
            cases rest with
            | nil => decide
            | cons u rest => exact hin.2 u List.mem_cons_self
          obtain ⟨hnumber, hpointer⟩ := footer_spec hk hnext
          refine ⟨_, _, getElem?_of_slice hfoot, getElem?_of_slice hlo, hnumber, ?_⟩
          rw [hpointer, List.getElem?_cons_succ, List.headD_eq_head?_getD,
            List.head?_eq_getElem?]
      | succ i => exact ih hrest hin.2 i (by simpa using hi)

/-- `add_file` accepts a file for which there is a slot and there are sectors. -/
theorem addFile_of_alloc (disk : AtariDosDisk) (name ext : Name) (data : Bytes) {chain : List Nat}
    {bitmap : Bytes} (hslot : disk.entries.length < MAX_FILES)
    (halloc : (freeMap disk.density).allocMany (max 1 ((data.length + (DATA_BYTES - 1)) / DATA_BYTES))
      disk.bitmap = some (chain, bitmap)) :
    ∃ disk', disk.addFile name ext data = some disk' ∧ disk'.entries = disk.entries ++
      [⟨name, ext, chain.headD 0, max 1 ((data.length + (DATA_BYTES - 1)) / DATA_BYTES)⟩] := by
  rw [AtariDosDisk.addFile, if_neg (Nat.not_le.mpr hslot)]
  dsimp only
  rw [halloc]
  exact ⟨_, rfl, rfl⟩

/-- A file of three sectors on a volume in enhanced density. -/
def sample : File := ⟨['A'], [], List.replicate 251 7⟩

end Mountin.AtariDos
