import Mountin.Basic.Dict
import Mountin.Basic.FirstFit
import Mountin.Fs.Fields

set_option autoImplicit false

/-! # Oric Jasmin volumes

`mkoricjasmin.py`: a file is one inode sector with the references of its data sectors, ended by
a marker. The inode has room for 125 references, or for 124 and the marker: behind 125 references
the marker lands in the next sector of the image. `jasmin_iff` says on which lists of files that
does no harm.
-/

namespace Mountin.OricJasmin

open Volume

def SECTOR : Nat := 256
def SECTORS_PER_TRACK : Nat := 17
def TRACKS : Nat := 41
def TOTAL_BLOCKS : Nat := 697
def IMAGE_SIZE : Nat := 178432
def BITMAP_BLOCK : Nat := 340
def DIR_BLOCK : Nat := 341
def DIR_ENTRY_BASE : Nat := 4
def DIR_ENTRY_LEN : Nat := 18
def DIR_ENTRIES : Nat := 14
def LOCK_UNLOCKED : UInt8 := 0x55
def FILE_TYPE_SEQ : UInt8 := 0x53
def INODE_LOAD_ADDR : Nat := 0x0501
def INODE_END : Nat := 0xff00
def REF_END : Nat := 0xffff
def MAX_DATA_REFS : Nat := 125
def SIG_OFF : Nat := 0xf6
def VOLNAME_OFF : Nat := 0xf8

/-- `VOLNAME`. -/
def VOLNAME : Name := ['Q', 'M', 'O', 'U', 'N', 'T']

/-- `block_to_cs`. -/
def blockToCs (block : Nat) : Nat :=
  (block / SECTORS_PER_TRACK) <<< 8 ||| (block % SECTORS_PER_TRACK + 1)

/-- `cs_to_block`; sector 0 of track 0 is below the image. -/
def csToBlock (ref : Nat) : Int := ((ref >>> 8) * SECTORS_PER_TRACK + ref % 256 : Nat) - 1

/-- `ref_valid`. -/
def refValid (ref : Nat) : Bool :=
  1 ≤ ref % 256 && ref % 256 ≤ SECTORS_PER_TRACK && ref >>> 8 < TRACKS

/-! ## The bitmap -/

/-- `_bit`: the bit of a block in the word of its track. -/
def bitOf (block : Nat) : Nat := 17 - (block % SECTORS_PER_TRACK + 1)

/-- `_is_free`. -/
def isFree (bitmap : List Nat) (block : Nat) : Bool :=
  (bitmap.getD (block / SECTORS_PER_TRACK) 0).testBit (bitOf block)

/-- `_mark_used`. -/
def markUsed (bitmap : List Nat) (block : Nat) : List Nat :=
  bitmap.set (block / SECTORS_PER_TRACK)
    (bitmap.getD (block / SECTORS_PER_TRACK) 0 &&& ((2 ^ 24 - 1) ^^^ 1 <<< bitOf block))

theorem testBit_clear (v : Nat) {j k : Nat} (hj : j < 24) :
    (v &&& ((2 ^ 24 - 1) ^^^ 1 <<< k)).testBit j = (v.testBit j && decide (j ≠ k)) := by
  rw [Nat.testBit_and, Nat.testBit_xor, Nat.testBit_two_pow_sub_one, Nat.one_shiftLeft,
    Nat.testBit_two_pow, decide_eq_true hj, Bool.true_xor]
  congr 1
  rw [← decide_not]
  simp only [ne_eq, eq_comm]

/-- The blocks of a volume in its bitmap. -/
def freeMap : FreeMap (List Nat) where
  bound := TOTAL_BLOCKS
  isFree := isFree
  markUsed := markUsed
  Valid b := b.length = TRACKS
  valid_markUsed h := by rwa [markUsed, List.length_set]
  isFree_markUsed {b s t} hb hs ht := by
    simp only [TOTAL_BLOCKS] at hs ht
    have hlen : s / 17 < b.length := by rw [hb, TRACKS]; omega
    have hword : ∀ x : Nat, (b.set (s / 17) x).getD (t / 17) 0
        = if s / 17 = t / 17 then x else b.getD (t / 17) 0 := by
      intro x
      simp only [List.getD_eq_getElem?_getD, List.getElem?_set, hlen, if_true]
      split_ifs <;> rfl
    simp only [isFree, markUsed, SECTORS_PER_TRACK, hword, bitOf]
    by_cases htrack : s / 17 = t / 17
    · have hiff : (17 - (t % 17 + 1) ≠ 17 - (s % 17 + 1)) ↔ t ≠ s := by omega
      rw [if_pos htrack, testBit_clear _ (by omega), htrack]
      simp only [hiff]
    · have hne : t ≠ s := by
        rintro rfl
        exact htrack rfl
      rw [if_neg htrack, decide_eq_true hne, Bool.and_true]

/-! ## Files -/

/-- The tuple that `add_file` appends to `entries`. -/
structure Entry where
  name : Name
  ext : Name
  inodeRef : Nat
  sectorCount : Nat

/-- `VolumeImage`. -/
structure VolumeImage where
  image : Bytes
  volname : Name
  bitmap : List Nat
  entries : List Entry

/-- `VolumeImage.__init__`. -/
def new : VolumeImage where
  image := List.replicate IMAGE_SIZE 0
  volname := VOLNAME
  bitmap := freeMap.markAll (List.replicate TRACKS 0x1ffff) [BITMAP_BLOCK, DIR_BLOCK]
  entries := []

/-- `struct.pack` of `">H"`. -/
def beWord (n : Nat) : Bytes := [UInt8.ofNat (n / 256 % 256), UInt8.ofNat (n % 256)]

/-- The loop that lays the data down. -/
def writeData : List Nat → Bytes → Bytes → Bytes
  | [], _, image => image
  | blk :: rest, data, image =>
      writeData rest (data.drop SECTOR) (image.splice (blk * SECTOR) (data.take SECTOR))

/-- The loop over the references. -/
def packRefs (image : Bytes) : Nat → List Nat → Option Bytes
  | _, [] => some image
  | pos, blk :: rest => do
      let image ← packInto image pos (beWord (blockToCs blk))
      packRefs image (pos + 2) rest

/-- The inode sector. -/
def writeInode (image : Bytes) (io n : Nat) (dataBlocks : List Nat) : Option Bytes := do
  let image ← packInto image io (beWord INODE_END)
  let image ← packInto image (io + 2) (word INODE_LOAD_ADDR)
  let image ← packInto image (io + 4) (word n)
  let image ← packRefs image (io + 6) dataBlocks
  packInto image (io + 6 + 2 * dataBlocks.length) (beWord REF_END)

/-- The number of data sectors of a file. -/
def dataSectors (n : Nat) : Nat := max 1 ((n + (SECTOR - 1)) / SECTOR)

/-- `add_file`, `none` for its errors. -/
def VolumeImage.addFile (vol : VolumeImage) (name ext : Name) (data : Bytes) :
    Option VolumeImage :=
  if DIR_ENTRIES ≤ vol.entries.length then none
  else
    let ndata := dataSectors data.length
    if MAX_DATA_REFS < ndata then none
    else do
      let (inodeBlock, bitmap) ← freeMap.alloc vol.bitmap
      let (dataBlocks, bitmap) ← freeMap.allocMany ndata bitmap
      let image ← writeInode (writeData dataBlocks data vol.image) (inodeBlock * SECTOR)
        data.length dataBlocks
      return { vol with
        image
        bitmap
        entries := vol.entries ++ [⟨name, ext, blockToCs inodeBlock, 1 + ndata⟩] }

/-- A file that is given to `add_file`. -/
structure File where
  name : Name
  ext : Name
  data : Bytes

/-- Files that are added one after the other. -/
def VolumeImage.addAll (vol : VolumeImage) (files : List File) : Option VolumeImage :=
  files.foldlM (fun vol f => vol.addFile f.name f.ext f.data) vol

/-! ## The image -/

/-- A directory entry. -/
def entryBytes (e : Entry) : Option Bytes := do
  let fname ← encodeAscii ((ljust e.name 8).take 8 ++ '.' :: (ljust e.ext 3).take 3)
  return beWord e.inodeRef ++ [LOCK_UNLOCKED] ++ fname ++ [FILE_TYPE_SEQ] ++ word e.sectorCount

/-- Where entry `k` of the directory stands. -/
def entryOff (k : Nat) : Nat := DIR_BLOCK * SECTOR + DIR_ENTRY_BASE + k * DIR_ENTRY_LEN

/-- The loop over the entries. -/
def writeEntries : Nat → List Entry → Bytes → Option Bytes
  | _, [], image => some image
  | k, e :: entries, image => do
      let b ← entryBytes e
      writeEntries (k + 1) entries (image.splice (entryOff k) b)

/-- The three bytes of a track in the bitmap. -/
def trackBytes (b : Nat) : Bytes :=
  [UInt8.ofNat (b % 256), UInt8.ofNat (b / 256 % 256), UInt8.ofNat (b / 65536 % 256)]

/-- The volume sector. -/
def writeVolume (vol : VolumeImage) (image : Bytes) : Option Bytes := do
  let vo := BITMAP_BLOCK * SECTOR
  let image := image.splice vo (vol.bitmap.flatMap trackBytes)
  let image := image.splice (vo + SIG_OFF) [0x80, 0x80]
  let volname ← encodeAscii (ljust vol.volname 8)
  return image.splice (vo + VOLNAME_OFF) (volname.take 8)

/-- `build`; a name that is not ASCII raises. -/
def VolumeImage.build (vol : VolumeImage) : Option Bytes := do
  let dirOff := DIR_BLOCK * SECTOR
  let image ← writeEntries 0 vol.entries ((vol.image.splice dirOff (word 0)).splice (dirOff + 2)
    (word 0))
  writeVolume vol image

/-! ## The reader -/

/-- `struct.unpack_from` of two bytes; a negative offset counts from the end. -/
def unpackAt (image : Bytes) (off : Int) : Option (UInt8 × UInt8) :=
  let off := if off < 0 then off + image.length else off
  if 0 ≤ off then do
    let a ← image[off.toNat]?
    let b ← image[off.toNat + 1]?
    return (a, b)
  else none

/-- `struct.unpack_from` of `">H"`. -/
def unpackBe (image : Bytes) (off : Int) : Option Nat :=
  (unpackAt image off).map fun (a, b) => a.toNat * 256 + b.toNat

/-- `struct.unpack_from` of `"<H"`. -/
def unpackLe (image : Bytes) (off : Int) : Option Nat :=
  (unpackAt image off).map fun (a, b) => b.toNat * 256 + a.toNat

/-- The references of an inode. The position grows until the marker or the end of the image. -/
def readRefs (image : Bytes) (io : Int) : Nat → Nat → Option (List Nat)
  | 0, _ => none
  | fuel + 1, pos => do
      let dref ← unpackBe image (io + pos)
      if dref = REF_END then return []
      else do
        let rest ← readRefs image io fuel (pos + 2)
        return dref :: rest

/-- The walk along the chain of inodes. `guard` goes down from `TOTAL_BLOCKS + 1`. -/
def walkInodes (image : Bytes) : Nat → Nat → Option (List Nat)
  | 0, _ => none
  | guard + 1, ref => do
      let io := csToBlock ref * SECTOR
      let nxt ← unpackBe image io
      let refs ← readRefs image io image.length 6
      if nxt = INODE_END then return refs
      else do
        let rest ← walkInodes image guard nxt
        return refs ++ rest

/-- The bytes of a data sector; a slice from below the image is empty. -/
def sectorBytes (image : Bytes) (dref : Nat) : Bytes :=
  let dio := csToBlock dref * SECTOR
  if dio < 0 then [] else image.slice dio.toNat SECTOR

/-- The key of a file. -/
def keyOf (name ext : Name) : Name := name ++ if ext = [] then [] else '.' :: ext

/-- A slot of the directory: `some none` when its reference is invalid. -/
def readSlot (image : Bytes) (k : Nat) : Option (Option (Name × Bytes)) := do
  let off := entryOff k
  let inodeRef ← unpackBe image off
  if !refValid inodeRef then return none
  else do
    let fname ← decodeAscii (image.slice (off + 3) 12)
    let length ← unpackLe image (csToBlock inodeRef * SECTOR + 4)
    let refs ← walkInodes image (TOTAL_BLOCKS + 1) inodeRef
    return some (keyOf (rstrip (fname.take 8)) (rstrip (fname.slice 9 3)),
      (refs.flatMap (sectorBytes image)).take length)

/-- `extract`. -/
def extract (image : Bytes) : Option (Dict Name Bytes) := do
  let slots ← (List.range DIR_ENTRIES).mapM (readSlot image)
  return Dict.update [] (slots.filterMap id)

/-! ## Blocks in the order of their allocation -/

/-- The block that is allocated after `p` others: the volume and the directory sector are
skipped. -/
def blockAt (p : Nat) : Nat := if p < BITMAP_BLOCK then p else p + 2

/-- The blocks from the one after `p` others on are free, and no others. -/
structure Next (bitmap : List Nat) (p : Nat) : Prop where
  valid : freeMap.Valid bitmap
  free : ∀ s < TOTAL_BLOCKS, isFree bitmap s = decide (s ≠ BITMAP_BLOCK ∧ s ≠ DIR_BLOCK ∧
    ∀ q < p, s ≠ blockAt q)

theorem blockAt_ne (p : Nat) : blockAt p ≠ BITMAP_BLOCK ∧ blockAt p ≠ DIR_BLOCK := by
  unfold blockAt BITMAP_BLOCK DIR_BLOCK
  split_ifs <;> omega

theorem blockAt_inj {p q : Nat} (h : blockAt p = blockAt q) : p = q := by
  unfold blockAt BITMAP_BLOCK at h
  split_ifs at h <;> omega

theorem blockAt_lt {p q : Nat} (h : p < q) : blockAt p < blockAt q := by
  unfold blockAt BITMAP_BLOCK
  split_ifs <;> omega

theorem blockAt_surj {s : Nat} (h : s ≠ BITMAP_BLOCK) (h' : s ≠ DIR_BLOCK) :
    ∃ p, s = blockAt p := by
  unfold BITMAP_BLOCK at h
  unfold DIR_BLOCK at h'
  by_cases hlt : s < 340
  · exact ⟨s, by rw [blockAt, if_pos (by unfold BITMAP_BLOCK; exact hlt)]⟩
  · refine ⟨s - 2, ?_⟩
    rw [blockAt, if_neg (by unfold BITMAP_BLOCK; omega)]
    omega

theorem freeMap_isFree : freeMap.isFree = isFree := rfl

theorem isFree_full {s : Nat} (h : s < TOTAL_BLOCKS) :
    isFree (List.replicate TRACKS 0x1ffff) s = true := by
  simp only [TOTAL_BLOCKS] at h
  have htrack : s / 17 < TRACKS := by
    unfold TRACKS
    omega
  have hbit : ∀ k < 17, Nat.testBit 0x1ffff k = true := by decide
  rw [isFree, SECTORS_PER_TRACK, List.getD_eq_getElem?_getD, List.getElem?_replicate,
    if_pos htrack, Option.getD_some]
  refine hbit _ ?_
  unfold bitOf SECTORS_PER_TRACK
  omega

theorem next_new : Next new.bitmap 0 := by
  have hfull : freeMap.Valid (List.replicate TRACKS 0x1ffff) := List.length_replicate
  simp only [new]
  refine ⟨FreeMap.valid_markAll hfull _, fun s hs => ?_⟩
  have hlt : ∀ r ∈ [BITMAP_BLOCK, DIR_BLOCK], r < freeMap.bound := by decide
  have hmark := FreeMap.isFree_markAll hfull hlt hs
  rw [freeMap_isFree] at hmark
  refine hmark.trans ?_
  rw [isFree_full hs, Bool.true_and]
  simp

/-- The allocator takes the next block. -/
theorem Next.alloc {bitmap : List Nat} {p : Nat} (h : Next bitmap p) {s : Nat} {bitmap' : List Nat}
    (halloc : freeMap.alloc bitmap = some (s, bitmap')) : s = blockAt p ∧ Next bitmap' (p + 1) := by
  rw [FreeMap.alloc, Option.map_eq_some_iff] at halloc
  obtain ⟨s', hfind, heq⟩ := halloc
  obtain ⟨rfl, rfl⟩ := Prod.mk.inj heq
  rw [List.find?_range_eq_some] at hfind
  obtain ⟨hfree, hmem, hleast⟩ := hfind
  have hs : s' < TOTAL_BLOCKS := List.mem_range.mp hmem
  rw [freeMap_isFree, h.free s' hs, decide_eq_true_eq] at hfree
  obtain ⟨hne, hne', hlater⟩ := hfree
  obtain ⟨q, rfl⟩ := blockAt_surj hne hne'
  -- the blocks before it are taken, so it is the next one
  have hq : q = p := by
    by_contra hcon
    have hpq : p < q := by
      rcases Nat.lt_or_ge p q with hlt | hge
      · exact hlt
      · exact absurd rfl (hlater q (by omega))
    have hearlier := hleast (blockAt p) (blockAt_lt hpq)
    have hlt : blockAt p < TOTAL_BLOCKS := (blockAt_lt hpq).trans hs
    have hfree : isFree bitmap (blockAt p) = true := by
      rw [h.free _ hlt, decide_eq_true_eq]
      exact ⟨(blockAt_ne p).1, (blockAt_ne p).2, fun r hr heq => absurd (blockAt_inj heq) (by omega)⟩
    rw [freeMap_isFree, hfree] at hearlier
    cases hearlier
  subst hq
  refine ⟨rfl, freeMap.valid_markUsed h.valid, fun t ht => ?_⟩
  have hmark := freeMap.isFree_markUsed h.valid hs ht
  rw [freeMap_isFree] at hmark
  rw [hmark, h.free t ht, ← Bool.decide_and]
  refine decide_eq_decide.mpr ?_
  constructor
  · rintro ⟨⟨hb, hd, hall⟩, hnot⟩
    refine ⟨hb, hd, fun r hr => ?_⟩
    rcases Nat.lt_succ_iff_lt_or_eq.mp hr with hlt | rfl
    · exact hall r hlt
    · exact hnot
  · rintro ⟨hb, hd, hall⟩
    exact ⟨⟨hb, hd, fun r hr => hall r (by omega)⟩, hall q (by omega)⟩

/-- The blocks of an allocation after `p` others. -/
def blocksAt (p n : Nat) : List Nat := (List.range' p n).map blockAt

theorem Next.allocMany {bitmap : List Nat} {p n : Nat} (h : Next bitmap p) {units : List Nat}
    {bitmap' : List Nat} (halloc : freeMap.allocMany n bitmap = some (units, bitmap')) :
    units = blocksAt p n ∧ Next bitmap' (p + n) := by
  induction n generalizing bitmap p units with
  | zero =>
      obtain ⟨rfl, rfl⟩ := Prod.mk.inj (Option.some.inj halloc)
      exact ⟨rfl, h⟩
  | succ n ih =>
      simp only [FreeMap.allocMany, Option.bind_eq_bind, Option.bind_eq_some_iff,
        Prod.exists] at halloc
      obtain ⟨s, b₁, hone, rest, b₂, hrest, heq⟩ := halloc
      obtain ⟨rfl, rfl⟩ := Prod.mk.inj (Option.some.inj heq)
      obtain ⟨rfl, h₁⟩ := h.alloc hone
      obtain ⟨rfl, h₂⟩ := ih h₁ hrest
      refine ⟨?_, by rwa [Nat.add_assoc, Nat.add_comm 1 n] at h₂⟩
      rw [blocksAt, blocksAt, List.range'_succ, List.map_cons]

/-- A block that was allocated lies in the image. -/
theorem alloc_lt {bitmap bitmap' : List Nat} {n : Nat} {units : List Nat}
    (hvalid : freeMap.Valid bitmap) (h : freeMap.allocMany n bitmap = some (units, bitmap')) :
    ∀ s ∈ units, s < TOTAL_BLOCKS :=
  fun s hs => ((FreeMap.allocMany_spec hvalid h).2.2.1 s hs).1

/-! ## Writing one file -/

/-- A window lies outside of a block. -/
def Apart (blk off n : Nat) : Prop := off + n ≤ blk * SECTOR ∨ (blk + 1) * SECTOR ≤ off

theorem apart_of_ne {blk other k n : Nat} (h : blk ≠ other) (hk : k + n ≤ SECTOR) :
    Apart blk (other * SECTOR + k) n := by
  simp only [Apart, SECTOR] at hk ⊢
  omega

/-- Blocks that hold data. -/
def Held (image : Bytes) : List Nat → Bytes → Prop
  | [], _ => True
  | blk :: rest, data =>
      image.slice (blk * SECTOR) (data.take SECTOR).length = data.take SECTOR ∧
        Held image rest (data.drop SECTOR)

theorem Held.congr {image image' : Bytes} {blocks : List Nat} {data : Bytes}
    (h : Held image blocks data)
    (hsame : ∀ blk ∈ blocks, ∀ n ≤ SECTOR,
      image'.slice (blk * SECTOR) n = image.slice (blk * SECTOR) n) :
    Held image' blocks data := by
  induction blocks generalizing data with
  | nil => trivial
  | cons blk rest ih =>
      rw [List.forall_mem_cons] at hsame
      refine ⟨(hsame.1 _ ?_).trans h.1, ih h.2 hsame.2⟩
      rw [List.length_take]
      omega

/-- Laying the data down changes the blocks of the file only. -/
theorem writeData_spec {blocks : List Nat} (data : Bytes) {image : Bytes} (hnodup : blocks.Nodup)
    (hin : ∀ blk ∈ blocks, (blk + 1) * SECTOR ≤ image.length) :
    (writeData blocks data image).length = image.length ∧
    (∀ off n, (∀ blk ∈ blocks, Apart blk off n) →
      (writeData blocks data image).slice off n = image.slice off n) ∧
    Held (writeData blocks data image) blocks data := by
  induction blocks generalizing data image with
  | nil => exact ⟨rfl, fun _ _ _ => rfl, trivial⟩
  | cons blk rest ih =>
      rw [List.forall_mem_cons] at hin
      rw [List.nodup_cons] at hnodup
      have hroom : blk * SECTOR + (data.take SECTOR).length ≤ image.length := by
        have hblk := hin.1
        rw [Nat.succ_mul] at hblk
        rw [List.length_take]
        omega
      have hshort : (data.take SECTOR).length ≤ SECTOR := by
        rw [List.length_take]
        omega
      have hlen : (image.splice (blk * SECTOR) (data.take SECTOR)).length = image.length :=
        List.length_splice hroom
      have hin' : ∀ other ∈ rest,
          (other + 1) * SECTOR ≤ (image.splice (blk * SECTOR) (data.take SECTOR)).length := by
        rw [hlen]
        exact hin.2
      obtain ⟨hlength, hframe, hheld⟩ := ih (data.drop SECTOR) hnodup.2 hin'
      refine ⟨hlength.trans hlen, fun off n hapart => ?_, ?_, hheld⟩
      · rw [List.forall_mem_cons] at hapart
        have hout := hapart.1
        rw [Apart, Nat.succ_mul] at hout
        exact (hframe off n hapart.2).trans
          (List.slice_splice_of_disjoint (by omega) (by omega))
      · refine (hframe _ _ fun other hother => ?_).trans
          (List.slice_splice_self (by omega) rfl)
        have hne : other ≠ blk := by
          rintro rfl
          exact hnodup.1 hother
        have hapart := apart_of_ne (k := 0) (n := (data.take SECTOR).length) hne (by omega)
        rwa [Nat.add_zero] at hapart

/-- The inode sector of a file, up to the marker. -/
def inodeBytes (n : Nat) (dataBlocks : List Nat) : Bytes :=
  beWord INODE_END ++ word INODE_LOAD_ADDR ++ word n ++
    dataBlocks.flatMap fun blk => beWord (blockToCs blk)

theorem length_refs (dataBlocks : List Nat) :
    (dataBlocks.flatMap fun blk => beWord (blockToCs blk)).length = 2 * dataBlocks.length := by
  rw [List.length_flatMap]
  simp only [beWord, List.length_cons, List.length_nil, List.map_const', List.sum_replicate,
    smul_eq_mul]
  omega

theorem length_inodeBytes (n : Nat) (dataBlocks : List Nat) :
    (inodeBytes n dataBlocks).length = 6 + 2 * dataBlocks.length := by
  rw [inodeBytes, List.length_append, length_refs]
  rfl

/-- References next to each other are one copy. -/
theorem packRefs_eq {image image' : Bytes} {pos : Nat} {refs : List Nat}
    (h : packRefs image pos refs = some image') (hpos : pos ≤ image.length) :
    pos + 2 * refs.length ≤ image.length ∧
      image' = image.splice pos (refs.flatMap fun blk => beWord (blockToCs blk)) := by
  induction refs generalizing image pos with
  | nil =>
      obtain rfl := Option.some.inj h
      refine ⟨by simpa using hpos, ?_⟩
      rw [List.flatMap_nil, List.splice, List.length_nil, Nat.add_zero, List.append_nil,
        List.take_append_drop]
  | cons blk rest ih =>
      simp only [packRefs, Option.bind_eq_bind, Option.bind_eq_some_iff] at h
      obtain ⟨image₁, hpack, hrest⟩ := h
      obtain ⟨hroom, rfl⟩ := packInto_eq_some.mp hpack
      have hlen := List.length_splice hroom
      have htwo : (beWord (blockToCs blk)).length = 2 := rfl
      obtain ⟨hfit, heq⟩ := ih hrest (by omega)
      refine ⟨by rw [List.length_cons]; omega, ?_⟩
      rw [heq, List.flatMap_cons, ← List.splice_splice_append hroom, htwo]

/-- The inode and its marker are one copy. -/
theorem writeInode_eq {image image' : Bytes} {io n : Nat} {dataBlocks : List Nat}
    (h : writeInode image io n dataBlocks = some image') :
    io + 8 + 2 * dataBlocks.length ≤ image.length ∧
      image' = image.splice io (inodeBytes n dataBlocks ++ beWord REF_END) := by
  simp only [writeInode, Option.bind_eq_bind, Option.bind_eq_some_iff] at h
  obtain ⟨i₁, h₁, i₂, h₂, i₃, h₃, i₄, h₄, h₅⟩ := h
  obtain ⟨hroom₁, rfl⟩ := packInto_eq_some.mp h₁
  obtain ⟨hroom₂, rfl⟩ := packInto_eq_some.mp h₂
  obtain ⟨hroom₃, rfl⟩ := packInto_eq_some.mp h₃
  have hbe : ∀ n, (beWord n).length = 2 := fun _ => rfl
  rw [hbe] at hroom₁
  rw [length_word] at hroom₂ hroom₃
  -- each field follows the one before it, so the copies are one
  have hjoin₂ : (image.splice io (beWord INODE_END)).splice (io + 2) (word INODE_LOAD_ADDR)
      = image.splice io (beWord INODE_END ++ word INODE_LOAD_ADDR) :=
    List.splice_splice_append (d := beWord INODE_END) (by rw [hbe]; exact hroom₁)
  rw [hjoin₂] at hroom₃ h₄
  have hfour : io + (beWord INODE_END ++ word INODE_LOAD_ADDR).length ≤ image.length := by
    rw [List.length_splice (by rw [hbe]; exact hroom₁)] at hroom₂
    exact hroom₂
  have hjoin₃ : (image.splice io (beWord INODE_END ++ word INODE_LOAD_ADDR)).splice (io + 4)
      (word n) = image.splice io (beWord INODE_END ++ word INODE_LOAD_ADDR ++ word n) :=
    List.splice_splice_append hfour
  rw [List.length_splice hfour] at hroom₃
  have hsix : io + (beWord INODE_END ++ word INODE_LOAD_ADDR ++ word n).length ≤ image.length :=
    hroom₃
  rw [hjoin₃] at h₄
  obtain ⟨hroom₄, rfl⟩ := packRefs_eq h₄ (by rw [List.length_splice hsix]; exact hroom₃)
  rw [List.length_splice hsix] at hroom₄
  have hjoin₄ : (image.splice io (beWord INODE_END ++ word INODE_LOAD_ADDR ++ word n)).splice
      (io + 6) (dataBlocks.flatMap fun blk => beWord (blockToCs blk))
      = image.splice io (inodeBytes n dataBlocks) := List.splice_splice_append hsix
  rw [hjoin₄] at h₅
  obtain ⟨hroom₅, rfl⟩ := packInto_eq_some.mp h₅
  have hinode : io + (inodeBytes n dataBlocks).length ≤ image.length := by
    rw [length_inodeBytes]
    omega
  rw [hbe, List.length_splice hinode] at hroom₅
  refine ⟨by omega, ?_⟩
  have hwhole : (image.splice io (inodeBytes n dataBlocks)).splice
      (io + (inodeBytes n dataBlocks).length) (beWord REF_END)
      = image.splice io (inodeBytes n dataBlocks ++ beWord REF_END) :=
    List.splice_splice_append hinode
  rwa [length_inodeBytes, ← Nat.add_assoc] at hwhole

/-- What an image holds for the data of a file: behind 125 references the marker lies in the
first data sector. -/
def written (data : Bytes) : Bytes :=
  if dataSectors data.length = MAX_DATA_REFS then beWord REF_END ++ data.drop 2 else data

/-- A file in an image, when its inode is the block after `p` others. -/
structure Stored (image : Bytes) (p : Nat) (data : Bytes) : Prop where
  inode : image.slice (blockAt p * SECTOR) (6 + 2 * dataSectors data.length)
    = inodeBytes data.length (blocksAt (p + 1) (dataSectors data.length))
  marker : dataSectors data.length ≠ MAX_DATA_REFS →
    image.slice (blockAt p * SECTOR + (6 + 2 * dataSectors data.length)) 2 = beWord REF_END
  held : Held image (blocksAt (p + 1) (dataSectors data.length)) (written data)

theorem mem_blocksAt {p n s : Nat} :
    s ∈ blocksAt p n ↔ ∃ q, p ≤ q ∧ q < p + n ∧ blockAt q = s := by
  simp only [blocksAt, List.mem_map, List.mem_range'_1, and_assoc]

theorem length_blocksAt (p n : Nat) : (blocksAt p n).length = n := by
  rw [blocksAt, List.length_map, List.length_range']

theorem nodup_blocksAt (p n : Nat) : (blocksAt p n).Nodup :=
  List.Nodup.map (fun _ _ h => blockAt_inj h) List.nodup_range'

theorem blocksAt_succ (p n : Nat) : blocksAt p (n + 1) = blockAt p :: blocksAt (p + 1) n := by
  rw [blocksAt, blocksAt, List.range'_succ, List.map_cons]

/-- The blocks of a file are next to each other, but for the volume and the directory sector. -/
theorem blockAt_succ {p : Nat} (h : p ≠ 339) : blockAt (p + 1) = blockAt p + 1 := by
  unfold blockAt BITMAP_BLOCK
  split_ifs <;> omega

theorem dataSectors_pos (n : Nat) : 1 ≤ dataSectors n := Nat.le_max_left _ _

theorem Stored.congr {image image' : Bytes} {p : Nat} {data : Bytes} (h : Stored image p data)
    (hsmall : dataSectors data.length ≤ MAX_DATA_REFS)
    (hsame : ∀ q, p ≤ q → q < p + (1 + dataSectors data.length) → ∀ k n, k + n ≤ SECTOR →
      image'.slice (blockAt q * SECTOR + k) n = image.slice (blockAt q * SECTOR + k) n) :
    Stored image' p data := by
  have hpos := dataSectors_pos data.length
  simp only [MAX_DATA_REFS] at hsmall
  have hsector : SECTOR = 256 := rfl
  refine ⟨?_, fun hshort => ?_, ?_⟩
  · have hinode := hsame p (le_refl p) (by omega) 0 (6 + 2 * dataSectors data.length) (by omega)
    rw [Nat.add_zero] at hinode
    exact hinode.trans h.inode
  · simp only [MAX_DATA_REFS] at hshort
    exact (hsame p (le_refl p) (by omega) _ 2 (by omega)).trans (h.marker hshort)
  · refine h.held.congr fun blk hblk n hn => ?_
    obtain ⟨q, hlo, hhi, rfl⟩ := mem_blocksAt.mp hblk
    have hblock := hsame q (by omega) (by omega) 0 n (by simpa only [Nat.zero_add] using hn)
    rwa [Nat.add_zero] at hblock

/-- The marker behind 125 references overwrites the first two bytes of the first data sector. -/
theorem Held.overwrite {image : Bytes} {blk : Nat} {rest : List Nat} {data : Bytes}
    (h : Held image (blk :: rest) data) (hlong : SECTOR ≤ data.length) (hrest : blk ∉ rest)
    (hin : blk * SECTOR + 2 ≤ image.length) {off : Nat} {b : Bytes}
    (hoff : off + b.length = blk * SECTOR) (hbefore : ∀ other ∈ rest, Apart other off b.length) :
    Held (image.splice off (b ++ beWord REF_END)) (blk :: rest) (beWord REF_END ++ data.drop 2) := by
  have htwo : (beWord REF_END).length = 2 := rfl
  have hlen : (b ++ beWord REF_END).length = b.length + 2 := by rw [List.length_append, htwo]
  simp only [SECTOR] at hlong
  have hfirst : (beWord REF_END ++ data.drop 2).take SECTOR
      = beWord REF_END ++ (data.take SECTOR).drop 2 := by
    rw [show SECTOR = 2 + 254 from rfl, List.take_append, htwo, List.take_of_length_le (by rw [htwo]; omega),
      List.drop_take]
  have hlater : (beWord REF_END ++ data.drop 2).drop SECTOR = data.drop SECTOR := by
    rw [show SECTOR = 2 + 254 from rfl, ← List.drop_drop, List.drop_left' htwo, List.drop_drop]
  have hblock : image.slice (blk * SECTOR) SECTOR = data.take SECTOR := by
    have hhead := h.1
    rwa [List.length_take, SECTOR, Nat.min_eq_left hlong] at hhead
  refine ⟨?_, ?_⟩
  · have hwidth : ((beWord REF_END ++ data.drop 2).take SECTOR).length = 2 + 254 := by
      rw [List.length_take, List.length_append, htwo, List.length_drop]
      simp only [SECTOR]
      omega
    rw [hwidth, hfirst, List.slice, List.take_add, List.drop_drop]
    congr 1
    · have hmarker : (image.splice off (b ++ beWord REF_END)).slice (off + b.length) 2
          = (b ++ beWord REF_END).slice b.length 2 :=
        List.slice_splice_within (by omega) (by rw [hlen])
      rw [hoff] at hmarker
      refine hmarker.trans ?_
      have hright := List.slice_append_right (a := b) (beWord REF_END) rfl 0 2
      exact hright
    · refine (List.slice_splice_of_disjoint (by omega) (.inr (by rw [hlen]; omega))).trans ?_
      have hsub := slice_of_window hblock (k := 2) (w := 254) (by simp only [SECTOR]; omega)
      rw [hsub, List.slice, List.take_of_length_le]
      rw [List.length_drop, List.length_take]
      simp only [SECTOR]
      omega
  · rw [hlater]
    refine h.2.congr fun other hother n hn => ?_
    apply List.slice_splice_of_disjoint (by omega)
    have hne : other ≠ blk := by
      rintro rfl
      exact hrest hother
    have hout := hbefore other hother
    simp only [Apart, SECTOR] at hout hn hoff
    simp only [SECTOR, hlen]
    omega

/-- What `add_file` leaves, when the next block is the one after `p` others. -/
structure Added (vol vol' : VolumeImage) (f : File) (p : Nat) : Prop where
  room : vol.entries.length < DIR_ENTRIES
  small : dataSectors f.data.length ≤ MAX_DATA_REFS
  bound : p + (1 + dataSectors f.data.length) ≤ 695
  next : Next vol'.bitmap (p + (1 + dataSectors f.data.length))
  entries : vol'.entries =
    vol.entries ++ [⟨f.name, f.ext, blockToCs (blockAt p), 1 + dataSectors f.data.length⟩]
  length : vol'.image.length = vol.image.length
  /-- The write stays in the blocks of the file, but for a marker in the volume sector. -/
  frame : ∀ off n, (∀ blk ∈ blocksAt p (1 + dataSectors f.data.length), Apart blk off n) →
    (dataSectors f.data.length = MAX_DATA_REFS → p = 339 → Apart BITMAP_BLOCK off n) →
    vol'.image.slice off n = vol.image.slice off n
  crossing : dataSectors f.data.length = MAX_DATA_REFS → p = 339 →
    vol'.image.slice (BITMAP_BLOCK * SECTOR) 2 = beWord REF_END
  stored : (dataSectors f.data.length = MAX_DATA_REFS → p ≠ 339) → Stored vol'.image p f.data

theorem blockAt_lt_total {p : Nat} : blockAt p < TOTAL_BLOCKS ↔ p < 695 := by
  unfold blockAt BITMAP_BLOCK TOTAL_BLOCKS
  split_ifs <;> omega

theorem addFile_spec {vol vol' : VolumeImage} {f : File} {p : Nat}
    (hlen : vol.image.length = IMAGE_SIZE) (hnext : Next vol.bitmap p)
    (h : vol.addFile f.name f.ext f.data = some vol') : Added vol vol' f p := by
  simp only [VolumeImage.addFile] at h
  split_ifs at h with hslots hlarge
  simp only [Option.bind_eq_bind, Option.bind_eq_some_iff, Prod.exists] at h
  obtain ⟨s, b₁, hone, units, b₂, hmany, image', hinode, heq⟩ := h
  obtain rfl := Option.some.inj heq
  obtain ⟨rfl, hnext₁⟩ := hnext.alloc hone
  obtain ⟨rfl, hnext₂⟩ := hnext₁.allocMany hmany
  have hin := alloc_lt hnext₁.valid hmany
  have hpos := dataSectors_pos f.data.length
  set nd := dataSectors f.data.length with hnd
  have hbound : p + nd < 695 :=
    blockAt_lt_total.mp (hin _ (mem_blocksAt.mpr ⟨p + nd, by omega, by omega, rfl⟩))
  have hsmall : nd ≤ 125 := Nat.not_lt.mp hlarge
  have hsector : SECTOR = 256 := rfl
  have hsize : IMAGE_SIZE = 697 * 256 := rfl
  have hfits : ∀ blk ∈ blocksAt (p + 1) nd, (blk + 1) * SECTOR ≤ vol.image.length := by
    intro blk hblk
    have hlt := hin blk hblk
    simp only [TOTAL_BLOCKS] at hlt
    rw [hlen, hsize, hsector]
    omega
  obtain ⟨hlen₁, hframe₁, hheld₁⟩ := writeData_spec f.data (nodup_blocksAt (p + 1) nd) hfits
  set image₁ := writeData (blocksAt (p + 1) nd) f.data vol.image with himage₁
  obtain ⟨hroom, rfl⟩ := writeInode_eq hinode
  rw [length_blocksAt] at hroom
  have hbytes : (inodeBytes f.data.length (blocksAt (p + 1) nd)).length = 6 + 2 * nd := by
    rw [length_inodeBytes, length_blocksAt]
  set io := blockAt p * SECTOR with hio
  have hio256 : io = blockAt p * 256 := rfl
  set inode := inodeBytes f.data.length (blocksAt (p + 1) nd) with hinodeBytes
  have htwo : (beWord REF_END).length = 2 := rfl
  have hwhole : (inode ++ beWord REF_END).length = 6 + 2 * nd + 2 := by
    rw [List.length_append, hbytes, htwo]
  have hne : ∀ blk ∈ blocksAt (p + 1) nd, blk ≠ blockAt p := by
    intro blk hblk heq
    obtain ⟨q, hlo, -, rfl⟩ := mem_blocksAt.mp hblk
    exact absurd (blockAt_inj heq) (by omega)
  -- the block behind the inode is the first data block, or the volume sector
  have hafter : p = 339 ∧ blockAt p + 1 = BITMAP_BLOCK ∨
      p ≠ 339 ∧ blocksAt (p + 1) nd = (blockAt p + 1) :: blocksAt (p + 2) (nd - 1) := by
    by_cases hp : p = 339
    · exact .inl ⟨hp, by rw [hp]; rfl⟩
    · refine .inr ⟨hp, ?_⟩
      obtain ⟨m, hm⟩ : ∃ m, nd = m + 1 := ⟨nd - 1, by omega⟩
      rw [hm, blocksAt_succ, blockAt_succ hp, Nat.add_sub_cancel]
  have hmarker : (image₁.splice io (inode ++ beWord REF_END)).slice (io + (6 + 2 * nd)) 2
      = beWord REF_END := by
    refine (List.slice_splice_within (by omega) (by rw [hwhole])).trans ?_
    exact List.slice_append_right (beWord REF_END) hbytes 0 2
  refine ⟨Nat.not_le.mp hslots, hsmall, by omega, ?_, rfl, ?_, fun off n hapart hvolume => ?_,
    fun hfull hp => ?_, fun hsafe => ⟨?_, fun _ => hmarker, ?_⟩⟩
  · rwa [Nat.add_assoc] at hnext₂
  · rw [← hlen₁]
    exact List.length_splice (by rw [hwhole]; omega)
  · rcases Nat.eq_zero_or_pos n with rfl | hn
    · simp only [List.slice, List.take_zero]
    · rw [Nat.add_comm 1 nd, blocksAt_succ, List.forall_mem_cons] at hapart
      rw [List.slice_splice_of_disjoint (by omega), hframe₁ off n hapart.2]
      have hown := hapart.1
      simp only [Apart, hsector] at hown hvolume hapart
      rw [hwhole]
      -- behind 125 references the copy goes on into the next block
      rcases Nat.lt_or_ge nd 125 with hlt | hge
      · omega
      · have hbehind : off + n ≤ (blockAt p + 1) * 256 ∨ (blockAt p + 1 + 1) * 256 ≤ off := by
          rcases hafter with ⟨hp, hblk⟩ | ⟨-, hblk⟩
          · rw [hblk]
            exact hvolume (by simp only [MAX_DATA_REFS]; omega) hp
          · exact hapart.2 _ (by rw [hblk]; exact List.mem_cons_self)
        omega
  · have h125 : nd = 125 := hfull
    have hbehind : io + (6 + 2 * nd) = BITMAP_BLOCK * SECTOR := by
      rw [h125, hio, hp]
      rfl
    rwa [hbehind] at hmarker
  · have hfields : (image₁.splice io (inode ++ beWord REF_END)).slice (io + 0) (6 + 2 * nd)
        = (inode ++ beWord REF_END).slice 0 (6 + 2 * nd) :=
      List.slice_splice_within (by omega) (by rw [hwhole]; omega)
    rw [Nat.add_zero] at hfields
    refine hfields.trans ?_
    rw [List.slice, List.drop_zero]
    exact List.take_left' hbytes
  · rw [written]
    by_cases hfull : nd = MAX_DATA_REFS
    · have h125 : nd = 125 := hfull
      rw [if_pos hfull]
      obtain ⟨-, hblk⟩ := hafter.resolve_left fun hcon => hsafe hfull hcon.1
      have hnodup := nodup_blocksAt (p + 1) nd
      rw [hblk] at hheld₁ hne hnodup hfits ⊢
      rw [List.forall_mem_cons] at hne hfits
      rw [List.nodup_cons] at hnodup
      have hlong : SECTOR ≤ f.data.length := by
        have hmax := hnd.symm.trans h125
        simp only [dataSectors, SECTOR] at hmax ⊢
        omega
      apply hheld₁.overwrite hlong hnodup.1
      · simp only [hsector] at hfits ⊢
        omega
      · rw [hbytes, hsector]
        omega
      · intro other hother
        rw [hbytes]
        have happ := apart_of_ne (k := 0) (n := 6 + 2 * nd) (hne.2 other hother) (by omega)
        rwa [Nat.add_zero] at happ
    · rw [if_neg hfull]
      have hshort : nd ≠ 125 := hfull
      refine hheld₁.congr fun blk hblk n hn => ?_
      apply List.slice_splice_of_disjoint (by omega)
      have hother := hne blk hblk
      simp only [hsector] at hn ⊢
      rw [hwhole]
      omega

/-! ## Accepted files -/

/-- The number of blocks of some files. -/
def used (files : List File) : Nat := (files.map fun f => 1 + dataSectors f.data.length).sum

theorem used_append (files more : List File) : used (files ++ more) = used files + used more := by
  rw [used, List.map_append, List.sum_append, used, used]

theorem used_cons (f : File) (files : List File) :
    used (f :: files) = 1 + dataSectors f.data.length + used files := by
  rw [used, List.map_cons, List.sum_cons, used]

theorem used_singleton (f : File) : used [f] = 1 + dataSectors f.data.length := used_cons f []

theorem used_take {files : List File} {k : Nat} {f : File} (h : files[k]? = some f) :
    used (files.take k) + (1 + dataSectors f.data.length) ≤ used files := by
  obtain ⟨hk, hf⟩ := List.getElem?_eq_some_iff.mp h
  have hsplit : files = files.take k ++ f :: files.drop (k + 1) := by
    rw [← hf, List.cons_getElem_drop_succ, List.take_append_drop]
  have hsum := congrArg used hsplit
  rw [used_append, used_cons] at hsum
  omega

/-- A file whose marker falls into the volume sector. -/
def Crosses (files : List File) (k : Nat) (f : File) : Prop :=
  dataSectors f.data.length = MAX_DATA_REFS ∧ used (files.take k) = 339

/-- A volume with some files. -/
structure Inv (vol : VolumeImage) (files : List File) : Prop where
  length : vol.image.length = IMAGE_SIZE
  next : Next vol.bitmap (used files)
  bound : used files ≤ 695
  count : vol.entries.length = files.length
  full : files.length ≤ DIR_ENTRIES
  small : ∀ f ∈ files, dataSectors f.data.length ≤ MAX_DATA_REFS
  entry : ∀ (k : Nat) (f : File), files[k]? = some f → vol.entries[k]? =
    some ⟨f.name, f.ext, blockToCs (blockAt (used (files.take k))), 1 + dataSectors f.data.length⟩
  stored : ∀ (k : Nat) (f : File), files[k]? = some f → ¬ Crosses files k f →
    Stored vol.image (used (files.take k)) f.data
  directory : vol.image.slice (DIR_BLOCK * SECTOR) SECTOR = List.replicate SECTOR 0
  /-- The volume sector is clear as long as no marker falls into it. -/
  volume : used files ≤ 339 → vol.image.slice (BITMAP_BLOCK * SECTOR) 2 = [0, 0]

theorem inv_new : Inv new [] := by
  have himage : new.image = List.replicate IMAGE_SIZE 0 := by simp only [new]
  refine ⟨?_, next_new, by decide, by simp only [new, List.length_nil], by decide, ?_, ?_, ?_,
    ?_, fun _ => ?_⟩
  · rw [himage, List.length_replicate]
  · rintro f ⟨⟩
  · rintro k f ⟨⟩
  · rintro k f ⟨⟩
  · rw [himage]
    exact List.slice_replicate 0 (by decide)
  · rw [himage]
    exact List.slice_replicate 0 (by decide)

/-- A file in a list with one more file. -/
theorem file_snoc {files : List File} {f g : File} {k : Nat} (h : (files ++ [f])[k]? = some g) :
    (files[k]? = some g ∧ (files ++ [f]).take k = files.take k) ∨
      (k = files.length ∧ g = f ∧ (files ++ [f]).take k = files) := by
  rcases List.getElem?_snoc h with ⟨hlt, hold⟩ | ⟨rfl, rfl⟩
  · exact .inl ⟨hold, List.take_append_of_le_length hlt.le⟩
  · refine .inr ⟨rfl, rfl, ?_⟩
    rw [List.take_append_of_le_length (le_refl _), List.take_length]

/-- `add_file` keeps the invariant. -/
theorem Inv.addFile {vol vol' : VolumeImage} {files : List File} {f : File} (h : Inv vol files)
    (hadd : vol.addFile f.name f.ext f.data = some vol') : Inv vol' (files ++ [f]) := by
  have hadded := addFile_spec h.length h.next hadd
  have hused : used (files ++ [f]) = used files + (1 + dataSectors f.data.length) := by
    rw [used_append, used_singleton]
  -- what is not in the blocks of the file stays
  have hkeep : ∀ blk, (∀ q, used files ≤ q → blockAt q ≠ blk) →
      (dataSectors f.data.length = MAX_DATA_REFS → used files = 339 → BITMAP_BLOCK ≠ blk) →
      ∀ k n, k + n ≤ SECTOR →
        vol'.image.slice (blk * SECTOR + k) n = vol.image.slice (blk * SECTOR + k) n := by
    intro blk hblk hvolume k n hk
    refine hadded.frame _ _ (fun s hs => ?_) fun hfull hp => apart_of_ne (hvolume hfull hp) hk
    obtain ⟨q, hlo, -, rfl⟩ := mem_blocksAt.mp hs
    exact apart_of_ne (hblk q hlo) hk
  refine ⟨hadded.length.trans h.length, hused ▸ hadded.next, hused ▸ hadded.bound, ?_, ?_, ?_, fun k g hg => ?_, fun k g hg hcross => ?_, ?_,
    fun hfew => ?_⟩
  · rw [hadded.entries, List.length_append, List.length_append, h.count, List.length_singleton,
      List.length_singleton]
  · have hroom := hadded.room
    rw [h.count] at hroom
    rw [List.length_append, List.length_singleton]
    exact hroom
  · intro g hg
    rcases List.mem_append.mp hg with hg | hg
    · exact h.small g hg
    · rw [List.mem_singleton.mp hg]
      exact hadded.small
  · rw [hadded.entries]
    rcases file_snoc hg with ⟨hold, htake⟩ | ⟨rfl, rfl, htake⟩
    · have hlt : k < vol.entries.length := by
        rw [h.count]
        exact (List.getElem?_eq_some_iff.mp hold).1
      rw [List.getElem?_append_left hlt, htake]
      exact h.entry k g hold
    · rw [List.getElem?_append_right (by rw [h.count]), h.count, Nat.sub_self, htake]
      rfl
  · rw [Crosses] at hcross
    rcases file_snoc hg with ⟨hold, htake⟩ | ⟨rfl, rfl, htake⟩
    · rw [htake] at hcross ⊢
      have hbefore := used_take hold
      refine (h.stored k g hold hcross).congr (h.small g (List.mem_of_getElem? hold))
        fun q hlo hhi i n hi => hkeep _ (fun r hr heq => ?_) (fun _ _ => ?_) i n hi
      · exact absurd (blockAt_inj heq) (by omega)
      · exact (blockAt_ne q).1.symm
    · rw [htake] at hcross ⊢
      exact hadded.stored fun hfull hp => hcross ⟨hfull, hp⟩
  · have hdir := hkeep DIR_BLOCK (fun q _ => (blockAt_ne q).2) (fun _ _ => by decide) 0 SECTOR
      (by decide)
    exact hdir.trans h.directory
  · have hpos := dataSectors_pos f.data.length
    rw [hused] at hfew
    have hvol := hkeep BITMAP_BLOCK (fun q _ => (blockAt_ne q).1) (fun _ hp => absurd hp (by omega))
      0 2 (by decide)
    exact hvol.trans (h.volume (by omega))

theorem Inv.addAll {vol vol' : VolumeImage} {files more : List File} (h : Inv vol files)
    (hadd : vol.addAll more = some vol') : Inv vol' (files ++ more) := by
  induction more generalizing vol files with
  | nil =>
      obtain rfl := Option.some.inj hadd
      rwa [List.append_nil]
  | cons f more ih =>
      simp only [VolumeImage.addAll, List.foldlM_cons, Option.bind_eq_bind,
        Option.bind_eq_some_iff] at hadd
      obtain ⟨vol₁, hfile, hrest⟩ := hadd
      have h' := ih (h.addFile hfile) hrest
      rwa [List.append_assoc] at h'

/-- The blocks that `add_file` allocates, the inode first. -/
def VolumeImage.allocated (vol : VolumeImage) (f : File) : List Nat :=
  ((freeMap.allocMany (dataSectors f.data.length + 1) vol.bitmap).map Prod.fst).getD []

/-- The blocks of files that are added one after the other. -/
def VolumeImage.chains (vol : VolumeImage) : List File → List (List Nat)
  | [] => []
  | f :: files => vol.allocated f :: match vol.addFile f.name f.ext f.data with
      | some vol' => chains vol' files
      | none => []

theorem Inv.allocated {vol vol' : VolumeImage} {files : List File} {f : File} (h : Inv vol files)
    (hadd : vol.addFile f.name f.ext f.data = some vol') :
    vol.allocated f = blocksAt (used files) (1 + dataSectors f.data.length) := by
  simp only [VolumeImage.addFile] at hadd
  split_ifs at hadd
  simp only [Option.bind_eq_bind, Option.bind_eq_some_iff, Prod.exists] at hadd
  obtain ⟨s, b₁, hone, units, b₂, hmany, -⟩ := hadd
  have hall : freeMap.allocMany (dataSectors f.data.length + 1) vol.bitmap
      = some (s :: units, b₂) := by
    simp only [FreeMap.allocMany, hone, hmany, Option.bind_eq_bind, Option.bind_some]
    rfl
  rw [VolumeImage.allocated, hall, Nat.add_comm 1]
  exact (h.next.allocMany hall).1

/-- The blocks of accepted files follow each other. -/
theorem Inv.chains {vol vol' : VolumeImage} {files more : List File} (h : Inv vol files)
    (hadd : vol.addAll more = some vol') :
    (vol.chains more).flatten = blocksAt (used files) (used more) := by
  induction more generalizing vol files with
  | nil => rfl
  | cons f more ih =>
      simp only [VolumeImage.addAll, List.foldlM_cons, Option.bind_eq_bind,
        Option.bind_eq_some_iff] at hadd
      obtain ⟨vol₁, hfile, hrest⟩ := hadd
      have hone : used (files ++ [f]) = used files + (1 + dataSectors f.data.length) := by
        rw [used_append, used_singleton]
      rw [VolumeImage.chains, hfile, List.flatten_cons, h.allocated hfile,
        ih (h.addFile hfile) hrest, hone, used_cons, blocksAt, blocksAt, blocksAt,
        ← List.map_append, List.range'_append_1]

/-! ## The image of a volume -/

/-- The name in a directory entry. -/
def entryName (name ext : Name) : Name := (ljust name 8).take 8 ++ '.' :: (ljust ext 3).take 3

theorem length_entryName (name ext : Name) : (entryName name ext).length = 12 := by
  have hname := length_ljust name 8
  have hext := length_ljust ext 3
  rw [entryName, List.length_append, List.length_cons, List.length_take, List.length_take]
  omega

/-- The parts of a directory entry. -/
theorem entryBytes_spec {e : Entry} {b : Bytes} (h : entryBytes e = some b) :
    b.length = 18 ∧ b.slice 0 2 = beWord e.inodeRef ∧
      decodeAscii (b.slice 3 12) = some (entryName e.name e.ext) := by
  simp only [entryBytes, Option.bind_eq_bind, Option.bind_eq_some_iff] at h
  obtain ⟨fname, hname, hb⟩ := h
  obtain rfl := Option.some.inj hb
  obtain ⟨hlen, htext⟩ := decode_encode hname 12
  have h12 : fname.length = 12 := hlen.trans (length_entryName e.name e.ext)
  refine ⟨?_, rfl, ?_⟩
  · simp only [List.length_append, List.length_singleton, length_word, h12]
    rfl
  · rw [← entryName, List.take_of_length_le (length_entryName e.name e.ext).le] at htext
    rw [← htext]
    congr 1
    show (fname ++ [FILE_TYPE_SEQ] ++ word e.sectorCount).take 12 = fname.take 12
    rw [List.append_assoc, List.take_left' h12, List.take_of_length_le h12.le]

theorem entryOff_eq (k : Nat) : entryOff k = 87300 + k * 18 := rfl

/-- Writing the directory from entry `k` on: only the slots of the entries change, and they hold
the entries. -/
theorem writeEntries_spec {entries : List Entry} {k : Nat} {image image' : Bytes}
    (h : writeEntries k entries image = some image') (hk : k + entries.length ≤ DIR_ENTRIES)
    (hlen : image.length = IMAGE_SIZE) :
    image'.length = IMAGE_SIZE ∧
    (∀ off n, off + n ≤ entryOff k ∨ entryOff (k + entries.length) ≤ off →
      image'.slice off n = image.slice off n) ∧
    ∀ i e, entries[i]? = some e →
      ∃ b, entryBytes e = some b ∧ image'.slice (entryOff (k + i)) 18 = b := by
  induction entries generalizing k image with
  | nil =>
      obtain rfl := Option.some.inj h
      exact ⟨hlen, fun _ _ _ => rfl, by simp⟩
  | cons e entries ih =>
      simp only [writeEntries, Option.bind_eq_bind, Option.bind_eq_some_iff] at h
      obtain ⟨b, hb, hrest⟩ := h
      rw [List.length_cons] at hk
      obtain ⟨hblen, -⟩ := entryBytes_spec hb
      have hroom : entryOff k + b.length ≤ image.length := by
        simp only [DIR_ENTRIES] at hk
        rw [hlen, hblen, entryOff_eq, IMAGE_SIZE]
        omega
      obtain ⟨hlength, hframe, hentries⟩ :=
        ih hrest (by omega) ((List.length_splice hroom).trans hlen)
      refine ⟨hlength, fun off n hapart => ?_, fun i e' hi => ?_⟩
      · rw [List.length_cons] at hapart
        simp only [entryOff_eq] at hapart hframe hroom ⊢
        rw [hframe off n (by omega)]
        exact List.slice_splice_of_disjoint (by omega) (by omega)
      · cases i with
        | zero =>
            obtain rfl : e = e' := by simpa using hi
            refine ⟨b, hb, ?_⟩
            rw [Nat.add_zero, hframe _ _ (.inl (by simp only [entryOff_eq]; omega))]
            exact List.slice_splice_self (by omega) hblen
        | succ i =>
            obtain ⟨b', hb', hslice⟩ := hentries i e' (by simpa using hi)
            exact ⟨b', hb', by rwa [show k + (i + 1) = k + 1 + i by omega]⟩

/-- The bit of a block in the bitmap of an image. -/
def imageFree (raw : Bytes) (s : Nat) : Bool :=
  let off := BITMAP_BLOCK * SECTOR + 3 * (s / SECTORS_PER_TRACK)
  ((byteAt raw off).toNat + 256 * (byteAt raw (off + 1)).toNat
    + 65536 * (byteAt raw (off + 2)).toNat).testBit (bitOf s)

theorem length_trackBytes (bitmap : List Nat) :
    (bitmap.flatMap trackBytes).length = 3 * bitmap.length := by
  rw [List.length_flatMap]
  simp only [trackBytes, List.length_cons, List.length_nil, List.map_const', List.sum_replicate,
    smul_eq_mul]
  omega

/-- The bytes of a track among those of all tracks. -/
theorem byteAt_trackBytes (bitmap : List Nat) (t : Nat) {i : Nat} (hi : i < 3)
    (ht : t < bitmap.length) :
    byteAt (bitmap.flatMap trackBytes) (3 * t + i) = byteAt (trackBytes (bitmap.getD t 0)) i := by
  induction bitmap generalizing t with
  | nil => exact absurd ht (Nat.not_lt_zero t)
  | cons b bitmap ih =>
      rw [List.flatMap_cons]
      cases t with
      | zero =>
          rw [Nat.mul_zero, Nat.zero_add, byteAt, byteAt, List.getD_eq_getElem?_getD,
            List.getD_eq_getElem?_getD, List.getElem?_append_left hi]
          rfl
      | succ t =>
          rw [List.length_cons] at ht
          have hskip : byteAt (trackBytes b ++ bitmap.flatMap trackBytes) (3 * (t + 1) + i)
              = byteAt (bitmap.flatMap trackBytes) (3 * t + i) := by
            have hthree : (trackBytes b).length = 3 := rfl
            rw [byteAt, byteAt, List.getD_eq_getElem?_getD, List.getD_eq_getElem?_getD,
              List.getElem?_append_right (by omega)]
            congr 2
            omega
          rw [hskip, ih t (by omega)]
          rfl

/-- The bitmap of an image is the bitmap that was written. -/
theorem imageFree_eq {raw : Bytes} {bitmap : List Nat} (hlen : bitmap.length = TRACKS)
    (h : raw.slice (BITMAP_BLOCK * SECTOR) 123 = bitmap.flatMap trackBytes) {s : Nat}
    (hs : s < TOTAL_BLOCKS) : imageFree raw s = isFree bitmap s := by
  simp only [TRACKS, TOTAL_BLOCKS] at hlen hs
  have hbyte : ∀ i < 3, byteAt raw (BITMAP_BLOCK * SECTOR + 3 * (s / SECTORS_PER_TRACK) + i)
      = byteAt (trackBytes (bitmap.getD (s / SECTORS_PER_TRACK) 0)) i := by
    intro i hi
    simp only [SECTORS_PER_TRACK]
    rw [Nat.add_assoc, byteAt_of_window h (by omega)]
    exact byteAt_trackBytes bitmap (s / 17) hi (by omega)
  have hfirst := hbyte 0 (by omega)
  rw [Nat.add_zero] at hfirst
  simp only [imageFree, hfirst, hbyte 1 (by omega), hbyte 2 (by omega), isFree]
  set v := bitmap.getD (s / SECTORS_PER_TRACK) 0 with hv
  have hvalue : (byteAt (trackBytes v) 0).toNat + 256 * (byteAt (trackBytes v) 1).toNat
      + 65536 * (byteAt (trackBytes v) 2).toNat = v % 2 ^ 24 := by
    show (UInt8.ofNat (v % 256)).toNat + 256 * (UInt8.ofNat (v / 256 % 256)).toNat
      + 65536 * (UInt8.ofNat (v / 65536 % 256)).toNat = v % 2 ^ 24
    rw [UInt8.toNat_ofNat', UInt8.toNat_ofNat', UInt8.toNat_ofNat']
    omega
  have hbit : bitOf s < 24 := by
    unfold bitOf
    omega
  rw [hvalue, Nat.testBit_mod_two_pow, decide_eq_true hbit, Bool.true_and]

/-- What the volume sector holds, and that the rest of the image stays. -/
theorem writeVolume_spec {vol : VolumeImage} {image raw : Bytes}
    (h : writeVolume vol image = some raw) (hlen : image.length = IMAGE_SIZE)
    (hbitmap : vol.bitmap.length = TRACKS) :
    raw.length = IMAGE_SIZE ∧
    (∀ off n, Apart BITMAP_BLOCK off n → raw.slice off n = image.slice off n) ∧
    raw.slice (BITMAP_BLOCK * SECTOR) 123 = vol.bitmap.flatMap trackBytes := by
  simp only [writeVolume, Option.bind_eq_bind, Option.bind_eq_some_iff] at h
  obtain ⟨volname, -, hraw⟩ := h
  obtain rfl := Option.some.inj hraw
  have hwidth : (vol.bitmap.flatMap trackBytes).length = 123 := by
    rw [length_trackBytes, hbitmap]
    rfl
  have htwo : ([0x80, 0x80] : Bytes).length = 2 := rfl
  have hname : (volname.take 8).length ≤ 8 := by
    rw [List.length_take]
    omega
  have hsize : IMAGE_SIZE = 178432 := rfl
  have hvo : BITMAP_BLOCK * SECTOR = 87040 := rfl
  have hsig : BITMAP_BLOCK * SECTOR + SIG_OFF = 87286 := rfl
  have hvolname : BITMAP_BLOCK * SECTOR + VOLNAME_OFF = 87288 := rfl
  rw [hsig, hvolname, hvo]
  have l₁ : (image.splice 87040 (vol.bitmap.flatMap trackBytes)).length = IMAGE_SIZE :=
    (List.length_splice (by omega)).trans hlen
  have l₂ : ((image.splice 87040 (vol.bitmap.flatMap trackBytes)).splice 87286 [0x80, 0x80]).length
      = IMAGE_SIZE := (List.length_splice (by omega)).trans l₁
  refine ⟨(List.length_splice (by omega)).trans l₂, fun off n hapart => ?_, ?_⟩
  · simp only [Apart, BITMAP_BLOCK, SECTOR] at hapart
    rw [List.slice_splice_of_disjoint (by omega) (by omega),
      List.slice_splice_of_disjoint (by omega) (by omega),
      List.slice_splice_of_disjoint (by omega) (by omega)]
  · rw [List.slice_splice_of_disjoint (by omega) (by omega),
      List.slice_splice_of_disjoint (by omega) (by omega)]
    exact List.slice_splice_self (by omega) hwidth

/-! ## Reading the volume back -/

/-- A reference in numbers: it is valid, leads to its block and is not the marker. -/
theorem blockToCs_spec {blk : Nat} (h : blk < TOTAL_BLOCKS) :
    refValid (blockToCs blk) = true ∧ csToBlock (blockToCs blk) = blk ∧
      blockToCs blk < 65536 ∧ blockToCs blk ≠ REF_END := by
  simp only [TOTAL_BLOCKS] at h
  have hvalue : blockToCs blk = blk / 17 * 256 + (blk % 17 + 1) := by
    rw [blockToCs, SECTORS_PER_TRACK, ← Nat.shiftLeft_add_eq_or_of_lt (by omega),
      Nat.shiftLeft_eq]
  have hlow : blockToCs blk % 256 = blk % 17 + 1 := by omega
  have hhigh : blockToCs blk >>> 8 = blk / 17 := by
    rw [Nat.shiftRight_eq_div_pow]
    omega
  refine ⟨?_, ?_, by omega, ?_⟩
  · simp only [refValid, hlow, hhigh, SECTORS_PER_TRACK, TRACKS, Bool.and_eq_true,
      decide_eq_true_eq]
    omega
  · rw [csToBlock, hlow, hhigh, SECTORS_PER_TRACK]
    omega
  · rw [REF_END]
    omega

theorem unpackAt_cast (image : Bytes) (off : Nat) :
    unpackAt image (off : Int) = (do
      let a ← image[off]?
      let b ← image[off + 1]?
      return (a, b)) := by
  have hsign : ¬ (off : Int) < 0 := by omega
  simp only [unpackAt, hsign, if_false, Int.natCast_nonneg, if_true, Int.toNat_natCast]

theorem unpackAt_window {image : Bytes} {off : Nat} {a b : UInt8}
    (h : image.slice off 2 = [a, b]) : unpackAt image (off : Int) = some (a, b) := by
  have hfirst := getElem?_of_window h (show 0 < 2 by omega)
  have hsecond := getElem?_of_window h (show 1 < 2 by omega)
  rw [Nat.add_zero] at hfirst
  rw [unpackAt_cast, hfirst, hsecond]
  rfl

theorem byte_value {n : Nat} (h : n < 65536) :
    (UInt8.ofNat (n / 256 % 256)).toNat * 256 + (UInt8.ofNat (n % 256)).toNat = n := by
  rw [UInt8.toNat_ofNat', UInt8.toNat_ofNat']
  omega

theorem unpackBe_window {image : Bytes} {off n : Nat} (h : image.slice off 2 = beWord n)
    (hn : n < 65536) : unpackBe image (off : Int) = some n := by
  rw [unpackBe, unpackAt_window h, Option.map_some]
  exact congrArg some (byte_value hn)

theorem unpackLe_window {image : Bytes} {off n : Nat} (h : image.slice off 2 = word n)
    (hn : n < 65536) : unpackLe image (off : Int) = some n := by
  rw [unpackLe, unpackAt_window h, Option.map_some]
  exact congrArg some (byte_value hn)

/-- The references are read up to the marker. -/
theorem readRefs_spec {image : Bytes} {io pos fuel : Nat} {refs : List Nat}
    (hrefs : image.slice (io + pos) (2 * refs.length)
      = refs.flatMap fun blk => beWord (blockToCs blk))
    (hmarker : image.slice (io + pos + 2 * refs.length) 2 = beWord REF_END)
    (hin : ∀ blk ∈ refs, blk < TOTAL_BLOCKS) (hfuel : refs.length < fuel) :
    readRefs image io fuel pos = some (refs.map blockToCs) := by
  induction refs generalizing pos fuel with
  | nil =>
      obtain ⟨fuel, rfl⟩ : ∃ m, fuel = m + 1 := ⟨fuel - 1, by omega⟩
      have hend := unpackBe_window hmarker (by decide)
      rw [List.length_nil, Nat.mul_zero, Nat.add_zero, Nat.cast_add] at hend
      rw [readRefs, hend]
      rfl
  | cons blk refs ih =>
      obtain ⟨fuel, rfl⟩ : ∃ m, fuel = m + 1 := ⟨fuel - 1, by omega⟩
      rw [List.forall_mem_cons] at hin
      rw [List.length_cons] at hrefs hmarker hfuel
      obtain ⟨-, -, hlt, hne⟩ := blockToCs_spec hin.1
      rw [List.flatMap_cons] at hrefs
      have hhead : image.slice (io + pos) 2 = beWord (blockToCs blk) := by
        have hsub := slice_of_window hrefs (k := 0) (w := 2) (by omega)
        rw [Nat.add_zero] at hsub
        exact hsub
      have htail : image.slice (io + (pos + 2)) (2 * refs.length)
          = refs.flatMap fun blk => beWord (blockToCs blk) := by
        have hsub := slice_of_window hrefs (k := 2) (w := 2 * refs.length) (by omega)
        rw [← Nat.add_assoc, hsub, List.slice,
          List.drop_left' (show (beWord (blockToCs blk)).length = 2 from rfl),
          List.take_of_length_le (length_refs refs).le]
      have hread := unpackBe_window hhead hlt
      rw [Nat.cast_add] at hread
      have hmarker' : image.slice (io + (pos + 2) + 2 * refs.length) 2 = beWord REF_END := by
        rwa [show io + (pos + 2) + 2 * refs.length = io + pos + 2 * (refs.length + 1) by omega]
      have hrest : readRefs image io fuel (pos + 2) = some (refs.map blockToCs) :=
        ih htail hmarker' hin.2 (by omega)
      rw [readRefs, hread, Option.bind_eq_bind, Option.bind_some, if_neg hne, hrest]
      rfl

theorem sectorBytes_eq {blk : Nat} (h : blk < TOTAL_BLOCKS) (image : Bytes) :
    sectorBytes image (blockToCs blk) = image.slice (blk * SECTOR) SECTOR := by
  obtain ⟨-, hblock, -⟩ := blockToCs_spec h
  have hsign : ¬ ((blk : Int) * (SECTOR : Int) < 0) := by
    simp only [SECTOR]
    omega
  have hoff : ((blk : Int) * (SECTOR : Int)).toNat = blk * SECTOR := by
    rw [← Nat.cast_mul, Int.toNat_natCast]
  simp only [sectorBytes, hblock, hsign, if_false, hoff]

/-- The blocks that hold data, read one after the other. -/
theorem Held.read {image : Bytes} {blocks : List Nat} {data : Bytes} (h : Held image blocks data)
    (hlen : data.length ≤ blocks.length * SECTOR) :
    (blocks.flatMap fun blk => image.slice (blk * SECTOR) SECTOR).take data.length = data := by
  induction blocks generalizing data with
  | nil =>
      rw [List.length_nil, Nat.zero_mul, Nat.le_zero, List.length_eq_zero_iff] at hlen
      rw [hlen]
      rfl
  | cons blk blocks ih =>
      obtain ⟨hhead, htail⟩ := h
      rw [List.flatMap_cons]
      rw [List.length_cons, Nat.succ_mul] at hlen
      rcases Nat.lt_or_ge data.length SECTOR with hlt | hge
      · have hall : data.take SECTOR = data := List.take_of_length_le hlt.le
        rw [hall] at hhead
        have hfit : data.length ≤ (image.slice (blk * SECTOR) SECTOR).length := by
          have hwidth := congrArg List.length hhead
          rw [List.length_slice] at hwidth ⊢
          omega
        rw [List.take_append_of_le_length hfit, List.slice, List.take_take,
          Nat.min_eq_left hlt.le]
        exact hhead
      · have hwidth : (data.take SECTOR).length = SECTOR := by
          rw [List.length_take]
          omega
        rw [hwidth] at hhead
        have hrest := ih htail (by rw [List.length_drop]; omega)
        rw [List.length_drop] at hrest
        rw [hhead, List.take_append, hwidth, List.take_of_length_le (by omega), hrest,
          List.take_append_drop]

theorem length_written {data : Bytes} : (written data).length = data.length := by
  rw [written]
  split_ifs with hfull
  · have hlong : 2 ≤ data.length := by
      simp only [dataSectors, SECTOR, MAX_DATA_REFS] at hfull
      omega
    rw [List.length_append, List.length_drop]
    show 2 + (data.length - 2) = data.length
    omega
  · rfl

theorem le_dataSectors (n : Nat) : n ≤ dataSectors n * SECTOR := by
  simp only [dataSectors, SECTOR]
  omega

/-- Behind 125 references the reader meets the marker in the first data sector. -/
theorem Stored.marker_full {raw : Bytes} {p : Nat} {data : Bytes} (h : Stored raw p data)
    (hfull : dataSectors data.length = MAX_DATA_REFS) (hp : p ≠ 339) :
    raw.slice (blockAt p * SECTOR + (6 + 2 * dataSectors data.length)) 2 = beWord REF_END := by
  have hheld := h.held
  have hlong := le_dataSectors data.length
  rw [hfull, show MAX_DATA_REFS = 124 + 1 from rfl, blocksAt_succ, blockAt_succ hp] at hheld
  have hwidth : ((written data).take SECTOR).length = SECTOR := by
    simp only [dataSectors, SECTOR, MAX_DATA_REFS] at hfull
    rw [List.length_take, length_written]
    simp only [SECTOR]
    omega
  have hfirst := hheld.1
  rw [hwidth] at hfirst
  have hsub := slice_of_window hfirst (k := 0) (w := 2) (by simp only [SECTOR]; omega)
  have hoff : blockAt p * SECTOR + (6 + 2 * dataSectors data.length)
      = (blockAt p + 1) * SECTOR + 0 := by
    rw [hfull]
    simp only [SECTOR, MAX_DATA_REFS]
    omega
  rw [hoff, hsub, written, if_pos hfull]
  rfl

theorem entryName_name (name ext : Name) :
    (entryName name ext).take 8 = (ljust name 8).take 8 := by
  have hname := length_ljust name 8
  rw [entryName, List.take_left']
  rw [List.length_take]
  omega

theorem entryName_ext (name ext : Name) :
    (entryName name ext).slice 9 3 = (ljust ext 3).take 3 := by
  have hname := length_ljust name 8
  have hlen : ((ljust name 8).take 8 ++ ['.']).length = 9 := by
    rw [List.length_append, List.length_take, List.length_singleton]
    omega
  rw [entryName, List.slice, ← List.singleton_append, ← List.append_assoc, List.drop_left' hlen,
    List.take_take, Nat.min_self]

/-- What the reader makes of a slot whose inode is in the image. -/
theorem readSlot_stored {raw : Bytes} {k p : Nat} {name ext : Name} {data : Bytes}
    (hstored : Stored raw p data) (hsmall : dataSectors data.length ≤ MAX_DATA_REFS)
    (hsafe : dataSectors data.length = MAX_DATA_REFS → p ≠ 339)
    (hbound : p + (1 + dataSectors data.length) ≤ 695) (hlen : raw.length = IMAGE_SIZE)
    (href : raw.slice (entryOff k) 2 = beWord (blockToCs (blockAt p)))
    (hname : decodeAscii (raw.slice (entryOff k + 3) 12) = some (entryName name ext)) :
    readSlot raw k = some (some (keyOf (fieldName 8 name) (fieldName 3 ext), written data)) := by
  set nd := dataSectors data.length with hnd
  have hblk : blockAt p < TOTAL_BLOCKS := blockAt_lt_total.mpr (by omega)
  obtain ⟨hvalid, hblock, hlt, -⟩ := blockToCs_spec hblk
  have hin : ∀ blk ∈ blocksAt (p + 1) nd, blk < TOTAL_BLOCKS := by
    intro blk hmem
    obtain ⟨q, -, hhi, rfl⟩ := mem_blocksAt.mp hmem
    exact blockAt_lt_total.mpr (by omega)
  have hwidth := length_blocksAt (p + 1) nd
  set io := blockAt p * SECTOR with hio
  have hoff : csToBlock (blockToCs (blockAt p)) * (SECTOR : Int) = (io : Int) := by
    rw [hblock, hio, Nat.cast_mul]
  -- the fields of the inode
  have hnext : unpackBe raw (io : Int) = some INODE_END := by
    have hsub := slice_of_window hstored.inode (k := 0) (w := 2) (by omega)
    rw [Nat.add_zero] at hsub
    exact unpackBe_window hsub (by decide)
  have hlength : unpackLe raw ((io : Int) + 4) = some data.length := by
    have hsub := slice_of_window hstored.inode (k := 4) (w := 2) (by omega)
    have hshort : data.length < 65536 := by
      have hmax := le_dataSectors data.length
      simp only [MAX_DATA_REFS, SECTOR] at hsmall hmax
      omega
    exact unpackLe_window hsub hshort
  have hsize : IMAGE_SIZE = 178432 := rfl
  have hrefs : readRefs raw io raw.length 6 = some ((blocksAt (p + 1) nd).map blockToCs) := by
    apply readRefs_spec
    · have hsub := slice_of_window hstored.inode (k := 6) (w := 2 * nd) (by omega)
      have hfields : (beWord INODE_END ++ word INODE_LOAD_ADDR ++ word data.length).length = 6 := rfl
      rw [hwidth, hsub, inodeBytes, List.slice, List.drop_left' hfields, List.take_of_length_le]
      rw [length_refs, hwidth]
    · rw [hwidth, Nat.add_assoc]
      by_cases hfull : nd = MAX_DATA_REFS
      · exact hstored.marker_full hfull (hsafe hfull)
      · exact hstored.marker hfull
    · exact hin
    · rw [hwidth, hlen, hsize]
      simp only [MAX_DATA_REFS] at hsmall
      omega
  have hwalk : walkInodes raw (TOTAL_BLOCKS + 1) (blockToCs (blockAt p))
      = some ((blocksAt (p + 1) nd).map blockToCs) := by
    simp only [walkInodes, hoff, hnext, hrefs, Option.bind_eq_bind, Option.bind_some, if_true]
    rfl
  have hdata : (((blocksAt (p + 1) nd).map blockToCs).flatMap (sectorBytes raw)).take data.length
      = written data := by
    have hsectors : ((blocksAt (p + 1) nd).map blockToCs).flatMap (sectorBytes raw)
        = (blocksAt (p + 1) nd).flatMap fun blk => raw.slice (blk * SECTOR) SECTOR := by
      rw [List.flatMap_map]
      exact List.flatMap_congr fun blk hmem => sectorBytes_eq (hin blk hmem) raw
    have hread := hstored.held.read (by
      rw [length_written, hwidth]
      exact le_dataSectors data.length)
    rwa [length_written, ← hsectors] at hread
  have hoff' : csToBlock (blockToCs (blockAt p)) * (SECTOR : Int) + 4 = (io : Int) + 4 := by
    rw [hoff]
  simp only [readSlot, unpackBe_window href hlt, hvalid, hname, hoff', hlength, hwalk, hdata,
    Option.bind_eq_bind, Option.bind_some, Bool.not_true, Bool.false_eq_true, if_false,
    entryName_name, entryName_ext]
  rfl

/-- The key of a file as its fields hold the name. -/
def File.fieldKey (f : File) : Name := keyOf (fieldName 8 f.name) (fieldName 3 f.ext)

/-- The slots of the directory in the image of a volume. -/
theorem slots_of_build {vol : VolumeImage} {files : List File} {raw : Bytes} (h : Inv vol files)
    (hbuild : vol.build = some raw) :
    raw.length = IMAGE_SIZE ∧ (∀ s < TOTAL_BLOCKS, imageFree raw s = isFree vol.bitmap s) ∧
    ∀ k < DIR_ENTRIES, (∀ f, files[k]? = some f → ¬ Crosses files k f) →
      readSlot raw k = some (files[k]?.map fun f => (f.fieldKey, written f.data)) := by
  simp only [VolumeImage.build, Option.bind_eq_bind, Option.bind_eq_some_iff] at hbuild
  obtain ⟨image, hentries, hvolume⟩ := hbuild
  have hsize : IMAGE_SIZE = 178432 := rfl
  have hdo : DIR_BLOCK * SECTOR = 87296 := rfl
  have hlen := h.length
  rw [hdo] at hentries
  have l₁ : (vol.image.splice 87296 (word 0)).length = IMAGE_SIZE :=
    (List.length_splice (by rw [length_word]; omega)).trans hlen
  have l₂ : ((vol.image.splice 87296 (word 0)).splice (87296 + 2) (word 0)).length = IMAGE_SIZE :=
    (List.length_splice (by rw [length_word]; omega)).trans l₁
  have hcount : 0 + vol.entries.length ≤ DIR_ENTRIES := by
    rw [Nat.zero_add, h.count]
    exact h.full
  obtain ⟨himage, hframe, hslots⟩ := writeEntries_spec hentries hcount l₂
  obtain ⟨hraw, hvolFrame, hbits⟩ := writeVolume_spec hvolume himage h.next.valid
  -- what lies in neither of the two sectors stays
  have hheader : ∀ off n, off + n ≤ 87296 ∨ 87300 ≤ off →
      ((vol.image.splice 87296 (word 0)).splice (87296 + 2) (word 0)).slice off n
        = vol.image.slice off n := by
    intro off n hout
    rw [List.slice_splice_of_disjoint (by omega) (by rw [length_word]; omega),
      List.slice_splice_of_disjoint (by omega) (by rw [length_word]; omega)]
  have hfull := h.full
  simp only [DIR_ENTRIES] at hfull
  have hkeep : ∀ q k n, k + n ≤ SECTOR →
      raw.slice (blockAt q * SECTOR + k) n = vol.image.slice (blockAt q * SECTOR + k) n := by
    intro q k n hk
    have hdir := apart_of_ne (blockAt_ne q).2.symm hk
    rw [hvolFrame _ _ (apart_of_ne (blockAt_ne q).1.symm hk)]
    simp only [Apart, DIR_BLOCK, SECTOR] at hdir hk
    rw [hframe _ _ (by simp only [entryOff_eq, h.count, SECTOR]; omega)]
    exact hheader _ _ (by simp only [SECTOR]; omega)
  refine ⟨hraw, fun s hs => imageFree_eq h.next.valid hbits hs, fun k hk hcross => ?_⟩
  simp only [DIR_ENTRIES] at hk
  have hslotFrame : ∀ i n, i + n ≤ 18 →
      raw.slice (entryOff k + i) n = image.slice (entryOff k + i) n := by
    intro i n hi
    apply hvolFrame
    simp only [Apart, BITMAP_BLOCK, SECTOR, entryOff_eq]
    omega
  rcases Nat.lt_or_ge k files.length with hlt | hge
  · obtain ⟨f, hf⟩ : ∃ f, files[k]? = some f := ⟨_, List.getElem?_eq_getElem hlt⟩
    obtain ⟨b, hb, hslice⟩ := hslots k _ (h.entry k f hf)
    rw [Nat.zero_add] at hslice
    obtain ⟨-, href, hname⟩ := entryBytes_spec hb
    have hwindow : raw.slice (entryOff k) 18 = b := (hslotFrame 0 18 (by omega)).trans hslice
    have hsmall := h.small f (List.mem_of_getElem? hf)
    have hsafe := hcross f hf
    rw [Crosses, not_and] at hsafe
    have hin := (used_take hf).trans h.bound
    have hstored : Stored raw (used (files.take k)) f.data :=
      (h.stored k f hf (hcross f hf)).congr hsmall fun q _ _ i n hi => hkeep q i n hi
    rw [hf, Option.map_some]
    apply readSlot_stored hstored hsmall hsafe hin hraw
    · have hsub := slice_of_window hwindow (k := 0) (w := 2) (by omega)
      exact hsub.trans href
    · rw [slice_of_window hwindow (by omega)]
      exact hname
  · have hzero : raw.slice (entryOff k) 2 = beWord 0 := by
      have hdir := slice_of_window h.directory (k := 4 + k * 18) (w := 2)
        (by simp only [SECTOR]; omega)
      rw [List.slice_replicate 0 (by simp only [SECTOR]; omega)] at hdir
      have hsame := hslotFrame 0 2 (by omega)
      rw [Nat.add_zero] at hsame
      have hentry : image.slice (entryOff k) 2
          = ((vol.image.splice 87296 (word 0)).splice (87296 + 2) (word 0)).slice (entryOff k) 2 :=
        hframe _ _ (.inr (by simp only [entryOff_eq, h.count]; omega))
      rw [hsame, hentry, hheader _ _ (.inr (by rw [entryOff_eq]; omega)), entryOff_eq]
      rw [hdo, ← Nat.add_assoc] at hdir
      exact hdir
    have hvalid : refValid 0 = false := by decide
    rw [List.getElem?_eq_none hge, readSlot]
    simp only [unpackBe_window hzero (by decide), hvalid, Option.bind_eq_bind, Option.bind_some]
    rfl

/-- What the reader returns when no marker falls into the volume sector. -/
theorem extract_of_build {vol : VolumeImage} {files : List File} {raw : Bytes} (h : Inv vol files)
    (hbuild : vol.build = some raw) (hcross : ∀ k f, files[k]? = some f → ¬ Crosses files k f)
    (hkeys : (files.map File.fieldKey).Nodup) :
    extract raw = some (files.map fun f => (f.fieldKey, written f.data)) := by
  obtain ⟨-, -, hslots⟩ := slots_of_build h hbuild
  have hread := mapM_eq_some fun k hk => hslots k (List.mem_range.mp hk) (hcross k)
  have hnodup : (Dict.keys (([] : Dict Name Bytes) ++
      files.map fun f => (f.fieldKey, written f.data))).Nodup := by
    rw [List.nil_append, Dict.keys, List.map_map]
    exact hkeys
  rw [extract, hread, Option.bind_eq_bind, Option.bind_some, filterMap_getElem? _ files h.full,
    Dict.update_of_nodup hnodup]
  rfl

/-! ## What holds of the volumes -/

/-- A name as `oric_name` makes it: it fits into its field and has no blanks. -/
structure File.Clean (f : File) : Prop where
  name : f.name.length ≤ 8 ∧ ∀ c ∈ f.name, isBlank c = false
  ext : f.ext.length ≤ 3 ∧ ∀ c ∈ f.ext, isBlank c = false

/-- The key of a file in `build_tree`. -/
def File.key (f : File) : Name := keyOf f.name f.ext

theorem File.Clean.fieldKey {f : File} (h : f.Clean) : f.fieldKey = f.key := by
  rw [File.fieldKey, fieldName_of_fits h.name.1 h.name.2, fieldName_of_fits h.ext.1 h.ext.2,
    File.key]

/-- A volume that holds its files. -/
structure Holds (files : List File) (raw : Bytes) : Prop where
  /-- `add_file` changes the blocks only that it allocates. -/
  own : ∀ (k : Nat) (f : File) (vol vol' : VolumeImage), files[k]? = some f →
    new.addAll (files.take k) = some vol → vol.addFile f.name f.ext f.data = some vol' →
    ∀ off, off / SECTOR ∉ vol.allocated f → vol'.image[off]? = vol.image[off]?
  distinct : (new.chains files).flatten.Nodup
  avoid : ∀ s ∈ (new.chains files).flatten, s < TOTAL_BLOCKS ∧ s ≠ BITMAP_BLOCK ∧ s ≠ DIR_BLOCK
  bitmap : ∀ s < TOTAL_BLOCKS, imageFree raw s
    = decide (s ≠ BITMAP_BLOCK ∧ s ≠ DIR_BLOCK ∧ s ∉ (new.chains files).flatten)
  extract : extract raw = some (files.map fun f => (f.key, f.data))

/-- The files that the marker does no harm to: with a reference to spare, or with the bytes of the
marker at their beginning and an inode next to its first data sector. -/
def Unharmed (files : List File) : Prop :=
  ∀ (k : Nat) (f : File), files[k]? = some f →
    f.data.length ≤ 31744 ∨ [0xff, 0xff] <+: f.data ∧ used (files.take k) ≠ 339

/-- Every file is added to the volume of the files before it. -/
theorem addAll_take {vol vol' : VolumeImage} {files : List File}
    (h : vol.addAll files = some vol') {k : Nat} {f : File} (hf : files[k]? = some f) :
    ∃ v v', vol.addAll (files.take k) = some v ∧ v.addFile f.name f.ext f.data = some v' := by
  obtain ⟨hk, heq⟩ := List.getElem?_eq_some_iff.mp hf
  have hsplit : files = files.take k ++ f :: files.drop (k + 1) := by
    rw [← heq, List.cons_getElem_drop_succ, List.take_append_drop]
  rw [hsplit, VolumeImage.addAll, List.foldlM_append, Option.bind_eq_bind,
    Option.bind_eq_some_iff] at h
  obtain ⟨v, htake, hrest⟩ := h
  rw [List.foldlM_cons, Option.bind_eq_bind, Option.bind_eq_some_iff] at hrest
  obtain ⟨v', hfile, -⟩ := hrest
  exact ⟨v, v', htake, hfile⟩

theorem getElem?_eq_of_slice {a b : Bytes} {off : Nat} (h : a.slice off 1 = b.slice off 1) :
    a[off]? = b[off]? := by
  have hfirst := congrArg (fun l : Bytes => l[0]?) h
  simpa only [List.getElem?_slice, Nat.lt_one_iff, if_true, Nat.add_zero] using hfirst

/-- A file stays in its blocks if its marker does not fall into the volume sector. -/
theorem own_blocks {vol vol' : VolumeImage} {files : List File} {k : Nat} {f : File}
    (htake : new.addAll (files.take k) = some vol)
    (hadd : vol.addFile f.name f.ext f.data = some vol') (hcross : ¬ Crosses files k f) {off : Nat}
    (hout : off / SECTOR ∉ vol.allocated f) : vol'.image[off]? = vol.image[off]? := by
  have hinv := inv_new.addAll htake
  rw [List.nil_append] at hinv
  have hadded := addFile_spec hinv.length hinv.next hadd
  rw [hinv.allocated hadd] at hout
  apply getElem?_eq_of_slice
  refine hadded.frame off 1 (fun blk hblk => ?_) fun hfull hp => absurd ⟨hfull, hp⟩ hcross
  have hne : blk ≠ off / SECTOR := by
    rintro rfl
    exact hout hblk
  simp only [Apart, SECTOR] at hne ⊢
  omega

/-- The marker in the volume sector is a write outside of the blocks of the file. -/
theorem not_own_blocks {vol vol' : VolumeImage} {files : List File} {k : Nat} {f : File}
    (htake : new.addAll (files.take k) = some vol)
    (hadd : vol.addFile f.name f.ext f.data = some vol') (hcross : Crosses files k f) :
    ∃ off, off / SECTOR ∉ vol.allocated f ∧ vol'.image[off]? ≠ vol.image[off]? := by
  have hinv := inv_new.addAll htake
  rw [List.nil_append] at hinv
  have hadded := addFile_spec hinv.length hinv.next hadd
  refine ⟨BITMAP_BLOCK * SECTOR, ?_, ?_⟩
  · rw [hinv.allocated hadd]
    intro hmem
    obtain ⟨q, -, -, hq⟩ := mem_blocksAt.mp hmem
    exact (blockAt_ne q).1 hq
  · have hmarker := getElem?_of_window (hadded.crossing hcross.1 hcross.2) (show 0 < 2 by omega)
    have hclear := getElem?_of_window (hinv.volume hcross.2.le) (show 0 < 2 by omega)
    rw [Nat.add_zero] at hmarker hclear
    rw [hmarker, hclear]
    decide

theorem dataSectors_full {n : Nat} (h : dataSectors n ≤ MAX_DATA_REFS) :
    dataSectors n = MAX_DATA_REFS ↔ 31744 < n := by
  simp only [dataSectors, SECTOR, MAX_DATA_REFS] at h ⊢
  omega

theorem packRefs_of_room {image : Bytes} {pos : Nat} {refs : List Nat}
    (h : pos + 2 * refs.length ≤ image.length) : ∃ image', packRefs image pos refs = some image' := by
  induction refs generalizing image pos with
  | nil => exact ⟨image, rfl⟩
  | cons blk refs ih =>
      rw [List.length_cons] at h
      have htwo : (beWord (blockToCs blk)).length = 2 := rfl
      have hroom : pos + (beWord (blockToCs blk)).length ≤ image.length := by omega
      have hpack := packInto_eq_some.mpr ⟨hroom, rfl⟩
      have hlater : pos + 2 + 2 * refs.length
          ≤ (image.splice pos (beWord (blockToCs blk))).length := by
        rw [List.length_splice hroom]
        omega
      obtain ⟨image', hrest⟩ := ih hlater
      exact ⟨image', by rw [packRefs, hpack, Option.bind_eq_bind, Option.bind_some, hrest]⟩

/-- The inode is written when it and the marker lie in the image. -/
theorem writeInode_of_room {image : Bytes} {io n : Nat} {dataBlocks : List Nat}
    (h : io + 8 + 2 * dataBlocks.length ≤ image.length) :
    ∃ image', writeInode image io n dataBlocks = some image' := by
  have hbe : ∀ n, (beWord n).length = 2 := fun _ => rfl
  have hone : io + (beWord INODE_END).length ≤ image.length := by
    rw [hbe]
    omega
  have l₁ := List.length_splice hone
  set i₁ := image.splice io (beWord INODE_END)
  have htwo : io + 2 + (word INODE_LOAD_ADDR).length ≤ i₁.length := by
    rw [length_word]
    omega
  have l₂ := List.length_splice htwo
  set i₂ := i₁.splice (io + 2) (word INODE_LOAD_ADDR)
  have hthree : io + 4 + (word n).length ≤ i₂.length := by
    rw [length_word]
    omega
  have l₃ := List.length_splice hthree
  set i₃ := i₂.splice (io + 4) (word n)
  have hroom : io + 6 + 2 * dataBlocks.length ≤ i₃.length := by omega
  obtain ⟨i₄, hrefs⟩ := packRefs_of_room hroom
  have l₄ : i₄.length = i₃.length := by
    obtain ⟨-, rfl⟩ := packRefs_eq hrefs (by omega)
    exact List.length_splice (by rw [length_refs]; exact hroom)
  have hfive : io + 6 + 2 * dataBlocks.length + (beWord REF_END).length ≤ i₄.length := by
    rw [hbe]
    omega
  refine ⟨i₄.splice (io + 6 + 2 * dataBlocks.length) (beWord REF_END), ?_⟩
  simp only [writeInode, Option.bind_eq_bind, Option.bind_eq_some_iff]
  exact ⟨i₁, packInto_eq_some.mpr ⟨hone, rfl⟩, i₂, packInto_eq_some.mpr ⟨htwo, rfl⟩, i₃,
    packInto_eq_some.mpr ⟨hthree, rfl⟩, i₄, hrefs, packInto_eq_some.mpr ⟨hfive, rfl⟩⟩

/-- A volume of one file whose sectors can be allocated. -/
theorem single_built {f : File} (hsmall : dataSectors f.data.length ≤ MAX_DATA_REFS)
    (halloc : (freeMap.allocMany (dataSectors f.data.length + 1) new.bitmap).isSome = true)
    (hname : ∀ ref count, (entryBytes ⟨f.name, f.ext, ref, count⟩).isSome = true) :
    ∃ vol raw, new.addAll [f] = some vol ∧ vol.build = some raw := by
  obtain ⟨⟨units, b₂⟩, hmany⟩ := Option.isSome_iff_exists.mp halloc
  simp only [FreeMap.allocMany, Option.bind_eq_bind, Option.bind_eq_some_iff,
    Prod.exists] at hmany
  obtain ⟨s, b₁, hone, rest, b₃, hrest, -⟩ := hmany
  obtain ⟨rfl, hnext⟩ := next_new.alloc hone
  obtain ⟨rfl, -⟩ := hnext.allocMany hrest
  have hlength := inv_new.length
  have hin := alloc_lt hnext.valid hrest
  have hfits : ∀ blk ∈ blocksAt (0 + 1) (dataSectors f.data.length),
      (blk + 1) * SECTOR ≤ new.image.length := by
    intro blk hblk
    have hlt := hin blk hblk
    simp only [TOTAL_BLOCKS] at hlt
    rw [hlength, IMAGE_SIZE, SECTOR]
    omega
  obtain ⟨hlen, -⟩ := writeData_spec f.data (nodup_blocksAt _ _) hfits
  have hroom : blockAt 0 * SECTOR + 8 + 2 * (blocksAt (0 + 1) (dataSectors f.data.length)).length
      ≤ (writeData (blocksAt (0 + 1) (dataSectors f.data.length)) f.data new.image).length := by
    have hzero : blockAt 0 * SECTOR = 0 := rfl
    simp only [MAX_DATA_REFS] at hsmall
    rw [hzero, length_blocksAt, hlen, hlength, IMAGE_SIZE]
    omega
  obtain ⟨image, hinode⟩ := writeInode_of_room (n := f.data.length) hroom
  obtain ⟨entry, hentry⟩ := Option.isSome_iff_exists.mp
    (hname (blockToCs (blockAt 0)) (1 + dataSectors f.data.length))
  have hnone : new.entries = [] := by simp only [new]
  have hvolname : new.volname = VOLNAME := by simp only [new]
  have hadd : new.addAll [f] = some { new with
      image
      bitmap := b₃
      entries := [⟨f.name, f.ext, blockToCs (blockAt 0), 1 + dataSectors f.data.length⟩] } := by
    simp only [VolumeImage.addAll, List.foldlM_cons, List.foldlM_nil, VolumeImage.addFile, hnone,
      List.length_nil, List.nil_append]
    rw [if_neg (by decide), if_neg (by omega), hone]
    simp only [Option.bind_eq_bind, Option.bind_some, hrest, hinode]
    rfl
  have hbuild : ∀ vol : VolumeImage, vol.volname = VOLNAME →
      vol.entries = [⟨f.name, f.ext, blockToCs (blockAt 0), 1 + dataSectors f.data.length⟩] →
      ∃ raw, vol.build = some raw := by
    intro vol hvol hentries
    obtain ⟨volname, hascii⟩ := Option.isSome_iff_exists.mp
      (show (encodeAscii (ljust VOLNAME 8)).isSome = true by decide)
    simp only [VolumeImage.build, writeVolume, hvol, hascii, hentries, writeEntries, hentry,
      Option.bind_eq_bind, Option.bind_some]
    exact ⟨_, rfl⟩
  obtain ⟨raw, hraw⟩ := hbuild { new with
      image
      bitmap := b₃
      entries := [⟨f.name, f.ext, blockToCs (blockAt 0), 1 + dataSectors f.data.length⟩] }
    hvolname rfl
  exact ⟨_, raw, hadd, hraw⟩

/-- A file of 125 sectors with zeros. -/
def largest : File := ⟨['A'], [], List.replicate 32000 0⟩

theorem single_name (data : Bytes) (ref count : Nat) :
    (entryBytes ⟨(File.mk ['A'] [] data).name, (File.mk ['A'] [] data).ext, ref, count⟩).isSome
      = true := rfl

end Mountin.OricJasmin
