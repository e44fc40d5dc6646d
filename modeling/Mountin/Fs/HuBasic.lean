import Mountin.Basic.ImageUnits
import Mountin.Disk.Fields
import Mountin.Fs.Fields

set_option autoImplicit false

/-! # Hu-BASIC volumes

`mkhubasic.py`: the clusters of a file follow each other, and the allocation table leads along
them with seven bits of the next cluster in each of two bytes; the last entry of a chain counts
the sectors of its cluster. `hubasic_spec` reads the image of any accepted list of files back.
-/

namespace Mountin.HuBasic

open Volume

def SECTOR : Nat := 256
def SECTORS_PER_CLUSTER : Nat := 16
def CLUSTER_BYTES : Nat := 4096
def MAX_CLUSTER : Nat := 80
def IMAGE_SIZE : Nat := 327680
def FAT_OFF : Nat := 3584
def DIR_OFF : Nat := 4096
def DIR_SECTORS : Nat := 16
def DIR_ENTRIES : Nat := 128
def ENTRY_SIZE : Nat := 32
def FIRST_DATA_CLUSTER : Nat := 2
def ENTRY_END : UInt8 := 0xff
def ENTRY_DELETE : UInt8 := 0
def MODE_BINARY : UInt8 := 1
def PASSWORD_NONE : UInt8 := 0x20
def MAX_NAME : Nat := 13
def MAX_EXT : Nat := 3

/-- `sectors_for`. -/
def sectorsFor (length : Nat) : Nat := max 1 ((length + SECTOR - 1) / SECTOR)

/-- `clusters_for`. -/
def clustersFor (length : Nat) : Nat :=
  (sectorsFor length + SECTORS_PER_CLUSTER - 1) / SECTORS_PER_CLUSTER

/-- What `hu_name` takes from the library: `Path.stem`, `Path.suffix`, `str.upper` and
`str.isalnum`. Nothing is assumed of them. -/
structure HostText where
  stem : Name → Name
  suffix : Name → Name
  upper : Name → Name
  isalnum : Char → Bool

/-- `hu_name`, `none` for its error. -/
def huName (t : HostText) (hostName : Name) : Option (Name × Name) :=
  let stem := ((t.upper (t.stem hostName)).filter fun c =>
    t.isalnum c || c == '_' || c == '-').take MAX_NAME
  let ext := ((t.upper ((t.suffix hostName).drop 1)).filter t.isalnum).take MAX_EXT
  if stem = [] then none else some (stem, ext)

/-! ## The table -/

/-- The low byte of an entry. -/
def lowByte (value : Nat) (last : Bool) : UInt8 :=
  UInt8.ofNat ((value &&& 0x7f) ||| if last then 0x80 else 0)

/-- The high byte of an entry. -/
def highByte (value : Nat) : UInt8 := UInt8.ofNat (value >>> 7)

/-- `set_fat`. -/
def setFat (img : Bytes) (cluster value : Nat) (last : Bool) : Bytes :=
  (img.splice (FAT_OFF + cluster) [lowByte value last]).splice (FAT_OFF + 0x80 + cluster)
    [highByte value]

/-- `format_disk`. -/
def formatDisk : Bytes :=
  ((((List.replicate IMAGE_SIZE 0).splice FAT_OFF [0x01]).splice (FAT_OFF + 1) [0x8f]).splice
    (FAT_OFF + 0x50) (List.replicate 0x30 0x8f)).splice DIR_OFF
      (List.replicate (DIR_SECTORS * SECTOR) ENTRY_END)

/-- The clusters of an image. -/
def clusterUnits : ImageUnits where
  size := CLUSTER_BYTES
  limit := IMAGE_SIZE
  off c := c * CLUSTER_BYTES
  Valid c := c < MAX_CLUSTER
  room h := by
    simp only [CLUSTER_BYTES, IMAGE_SIZE, MAX_CLUSTER] at h ⊢
    omega
  apart hu hv hne := by
    simp only [CLUSTER_BYTES]
    omega

/-- The two steps that link a chain: all but the last entry, then the last one. -/
def linkChain : List Nat → Nat → Bytes → Bytes
  | [], _, img => img
  | [c], sectorsInLast, img => setFat img c (sectorsInLast - 1) true
  | c :: nxt :: rest, sectorsInLast, img =>
      linkChain (nxt :: rest) sectorsInLast (setFat img c nxt false)

/-! ## Files -/

/-- `int.to_bytes` with two bytes. -/
def toBytes2 (n : Nat) : Option Bytes := if n < 65536 then some (word n) else none

/-- The bytes that `write_entry` writes, one after the other. -/
def entryBytes (name ext : Name) (size startCluster : Nat) : Option Bytes := do
  let name ← encodeAscii (ljust name MAX_NAME)
  let ext ← encodeAscii (ljust ext MAX_EXT)
  let size ← toBytes2 size
  return MODE_BINARY :: (name ++ ext ++ [PASSWORD_NONE] ++ size ++ word 0 ++ word 0 ++
    List.replicate 5 (0 : UInt8) ++ [UInt8.ofNat (startCluster >>> 14 &&& 0x7f),
      UInt8.ofNat (startCluster &&& 0x7f), UInt8.ofNat (startCluster >>> 7 &&& 0x7f)])

/-- Where an entry of the directory stands. -/
def entryOff (slot : Nat) : Nat := DIR_OFF + slot * ENTRY_SIZE

/-- `add_file`: the image and the next free cluster, `none` for an error. -/
def addFile (img : Bytes) (slot nextFree : Nat) (name ext : Name) (data : Bytes) :
    Option (Bytes × Nat) :=
  let need := clustersFor data.length
  if MAX_CLUSTER < nextFree + need then none
  else do
    let clusters := List.range' nextFree need
    let sectorsInLast := sectorsFor data.length - (need - 1) * SECTORS_PER_CLUSTER
    let img := linkChain clusters sectorsInLast (clusterUnits.write clusters data img)
    let entry ← entryBytes name ext data.length (clusters.headD 0)
    return (img.splice (entryOff slot) entry, nextFree + need)

/-- A file on the host. -/
structure HostFile where
  hostName : Name
  data : Bytes

/-- The loop of `create_image`: the files from `slot` on, behind the names that are used. -/
def placeFiles (t : HostText) : Nat → Nat → List (Name × Name) → List HostFile → Bytes → Option Bytes
  | _, _, _, [], img => some img
  | slot, nextFree, used, f :: files, img => do
      let (name, ext) ← huName t f.hostName
      if (name, ext) ∈ used then none
      else do
        let (img, nextFree) ← addFile img slot nextFree name ext f.data
        placeFiles t (slot + 1) nextFree ((name, ext) :: used) files img

/-- `create_image` before it verifies the image. -/
def layOut (t : HostText) (files : List HostFile) : Option Bytes :=
  if DIR_ENTRIES < files.length then none
  else placeFiles t 0 FIRST_DATA_CLUSTER [] files formatDisk

/-! ## The reader -/

/-- The walk along a chain; `none` also when `fuel` runs out. -/
def walk (img : Bytes) : Nat → Nat → Option Bytes
  | 0, _ => none
  | fuel + 1, c => do
      let low ← img[FAT_OFF + c]?
      if low &&& 0x80 ≠ 0 then
        return img.slice (c * CLUSTER_BYTES) (((low &&& 0x0f).toNat + 1) * SECTOR)
      else do
        let high ← img[FAT_OFF + 0x80 + c]?
        let rest ← walk img fuel (low.toNat ||| high.toNat <<< 7)
        return img.slice (c * CLUSTER_BYTES) (SECTORS_PER_CLUSTER * SECTOR) ++ rest

/-- `rstrip(" ")`. -/
def rstripSpace (s : Name) : Name := (s.reverse.dropWhile (· == ' ')).reverse

/-- A file of the directory. -/
def readEntry (fuel : Nat) (img : Bytes) (off : Nat) : Option (Name × Bytes) := do
  let name ← decodeAscii (img.slice (off + 0x01) MAX_NAME)
  let ext ← decodeAscii (img.slice (off + 0x0e) MAX_EXT)
  let size := leField img (off + 0x12) 2
  let lo ← img[off + 0x1e]?
  let mid ← img[off + 0x1f]?
  let hi ← img[off + 0x1d]?
  let data ← walk img fuel (lo.toNat ||| mid.toNat <<< 7 ||| hi.toNat <<< 14)
  let name := rstripSpace name
  let ext := rstripSpace ext
  return (if ext = [] then name else name ++ '.' :: ext, data.take size)

/-- The loop of `extract_all` over the slots that are left. -/
def readSlots (fuel : Nat) (img : Bytes) : Nat → Nat → Option (List (Name × Bytes))
  | 0, _ => some []
  | left + 1, slot => do
      let mode ← img[entryOff slot]?
      if mode = ENTRY_END then return []
      else if mode = ENTRY_DELETE then readSlots fuel img left (slot + 1)
      else do
        let f ← readEntry fuel img (entryOff slot)
        let rest ← readSlots fuel img left (slot + 1)
        return f :: rest

/-- `extract_all`. -/
def extractAll (fuel : Nat) (img : Bytes) : Option (List (Name × Bytes)) :=
  readSlots fuel img DIR_ENTRIES 0

/-- `create_image`: the image that it writes, `none` when a check or `verify_roundtrip` raises. -/
def createImage (t : HostText) (fuel : Nat) (files : List HostFile) : Option Bytes := do
  let img ← layOut t files
  let got ← extractAll fuel img
  if got.map Prod.snd = files.map HostFile.data then return img else none

/-! ## One entry -/

theorem length_splice_image {img d : Bytes} {off : Nat} (hlen : img.length = IMAGE_SIZE)
    (hroom : off + d.length ≤ IMAGE_SIZE) : (img.splice off d).length = IMAGE_SIZE := by
  rw [List.length_splice (hlen.symm ▸ hroom), hlen]

theorem length_formatTable : ((((List.replicate IMAGE_SIZE (0 : UInt8)).splice FAT_OFF [0x01]).splice
    (FAT_OFF + 1) [0x8f]).splice (FAT_OFF + 0x50) (List.replicate 0x30 0x8f)).length
      = IMAGE_SIZE := by
  refine length_splice_image (length_splice_image (length_splice_image
    List.length_replicate ?_) ?_) ?_
  all_goals
    simp only [List.length_replicate, List.length_singleton, FAT_OFF, IMAGE_SIZE]
    omega

theorem length_formatDisk : formatDisk.length = IMAGE_SIZE := by
  refine length_splice_image length_formatTable ?_
  simp only [List.length_replicate, DIR_OFF, DIR_SECTORS, SECTOR, IMAGE_SIZE]
  omega

section

variable {img : Bytes} {c value : Nat} {last : Bool}

theorem length_setLow (hlen : img.length = IMAGE_SIZE) (hc : c < MAX_CLUSTER) (b : UInt8) :
    (img.splice (FAT_OFF + c) [b]).length = IMAGE_SIZE := by
  apply length_splice_image hlen
  simp only [List.length_singleton, FAT_OFF, IMAGE_SIZE, MAX_CLUSTER] at hc ⊢
  omega

theorem length_setFat (hlen : img.length = IMAGE_SIZE) (hc : c < MAX_CLUSTER) :
    (setFat img c value last).length = IMAGE_SIZE := by
  apply length_splice_image (length_setLow hlen hc _)
  simp only [List.length_singleton, FAT_OFF, IMAGE_SIZE, MAX_CLUSTER] at hc ⊢
  omega

theorem getElem?_setFat (hlen : img.length = IMAGE_SIZE) (hc : c < MAX_CLUSTER) (i : Nat) :
    (setFat img c value last)[i]? =
      if i = FAT_OFF + 0x80 + c then some (highByte value)
      else if i = FAT_OFF + c then some (lowByte value last) else img[i]? := by
  have hlow := length_setLow hlen hc (lowByte value last)
  simp only [IMAGE_SIZE, MAX_CLUSTER] at hlen hc hlow
  rw [setFat, List.getElem?_splice (by rw [hlow, FAT_OFF]; omega),
    List.getElem?_splice (by rw [hlen, FAT_OFF]; omega)]
  simp only [List.length_singleton]
  by_cases hhigh : i = FAT_OFF + 0x80 + c
  · rw [if_pos (by omega), if_pos hhigh, hhigh, Nat.sub_self, List.getElem?_cons_zero]
  · rw [if_neg (by omega), if_neg hhigh]
    by_cases hi : i = FAT_OFF + c
    · rw [if_pos (by omega), if_pos hi, hi, Nat.sub_self, List.getElem?_cons_zero]
    · rw [if_neg (by omega), if_neg hi]

end

/-! ## One chain -/

/-- What the entry of a cluster says, from the clusters behind it. -/
def linkOf (rest : List Nat) (sectorsInLast : Nat) : Nat × Bool :=
  match rest with
  | [] => (sectorsInLast - 1, true)
  | nxt :: _ => (nxt, false)

/-- The table leads along a chain. -/
def Linked (raw : Bytes) (sectorsInLast : Nat) : List Nat → Prop
  | [] => True
  | c :: rest =>
      raw[FAT_OFF + c]? = some (lowByte (linkOf rest sectorsInLast).1 (linkOf rest sectorsInLast).2) ∧
      raw[FAT_OFF + 0x80 + c]? = some (highByte (linkOf rest sectorsInLast).1) ∧
      Linked raw sectorsInLast rest

theorem linkChain_cons (c : Nat) (rest : List Nat) (s : Nat) (img : Bytes) :
    linkChain (c :: rest) s img =
      linkChain rest s (setFat img c (linkOf rest s).1 (linkOf rest s).2) := by
  cases rest <;> rfl

/-- Linking a chain changes the entries of its clusters only. -/
theorem linkChain_spec {chain : List Nat} {s : Nat} {img : Bytes} (hlen : img.length = IMAGE_SIZE)
    (hnodup : chain.Nodup) (hbound : ∀ c ∈ chain, c < MAX_CLUSTER) :
    (linkChain chain s img).length = IMAGE_SIZE ∧
      (∀ i, (∀ c ∈ chain, i ≠ FAT_OFF + c ∧ i ≠ FAT_OFF + 0x80 + c) →
        (linkChain chain s img)[i]? = img[i]?) ∧
      Linked (linkChain chain s img) s chain := by
  induction chain generalizing img with
  | nil => exact ⟨hlen, fun _ _ => rfl, trivial⟩
  | cons c rest ih =>
      rw [List.nodup_cons] at hnodup
      rw [List.forall_mem_cons] at hbound
      rw [linkChain_cons]
      have hset : (setFat img c (linkOf rest s).1 (linkOf rest s).2).length = IMAGE_SIZE :=
        length_setFat hlen hbound.1
      obtain ⟨hlength, hframe, hlinked⟩ := ih hset hnodup.2 hbound.2
      have hother : ∀ d ∈ rest, d ≠ c ∧ d < MAX_CLUSTER := fun d hd =>
        ⟨fun heq => hnodup.1 (heq ▸ hd), hbound.2 d hd⟩
      refine ⟨hlength, fun i hi => ?_, ?_, ?_, hlinked⟩
      · rw [List.forall_mem_cons] at hi
        rw [hframe i hi.2, getElem?_setFat hlen hbound.1, if_neg hi.1.2, if_neg hi.1.1]
      · have hc := hbound.1
        rw [hframe _ fun d hd => ?_, getElem?_setFat hlen hbound.1, if_neg ?_, if_pos rfl]
        · simp only [MAX_CLUSTER] at hc
          omega
        · obtain ⟨hne, hlt⟩ := hother d hd
          simp only [MAX_CLUSTER] at hc hlt
          omega
      · have hc := hbound.1
        rw [hframe _ fun d hd => ?_, getElem?_setFat hlen hbound.1, if_pos rfl]
        obtain ⟨hne, hlt⟩ := hother d hd
        simp only [MAX_CLUSTER] at hc hlt
        omega

theorem Linked.congr {raw raw' : Bytes} {s : Nat} {chain : List Nat} (h : Linked raw s chain)
    (hsame : ∀ c ∈ chain, raw'[FAT_OFF + c]? = raw[FAT_OFF + c]? ∧
      raw'[FAT_OFF + 0x80 + c]? = raw[FAT_OFF + 0x80 + c]?) : Linked raw' s chain := by
  induction chain with
  | nil => trivial
  | cons c rest ih =>
      rw [List.forall_mem_cons] at hsame
      exact ⟨hsame.1.1.trans h.1, hsame.1.2.trans h.2.1, ih h.2.2 hsame.2⟩

/-- The entry of the last cluster gives its number of sectors. -/
theorem lowByte_last : ∀ s < 17, 1 ≤ s →
    lowByte (s - 1) true &&& 0x80 ≠ 0 ∧ (lowByte (s - 1) true &&& 0x0f).toNat + 1 = s := by
  decide

/-- The entry of another cluster gives the next one. -/
theorem lowByte_next : ∀ c < 80, lowByte c false &&& 0x80 = 0 ∧
    (lowByte c false).toNat ||| (highByte c).toNat <<< 7 = c := by
  decide +kernel

/-- The entry of a cluster in a chain is not zero. -/
theorem lowByte_ne_zero : ∀ c < 80, 2 ≤ c → lowByte c false ≠ 0 := by
  decide +kernel

/-- The walk along a stored chain begins with the data. -/
theorem walk_spec {raw data : Bytes} {s fuel : Nat} {chain : List Nat} (hs : 1 ≤ s ∧ s < 17)
    (hlinked : Linked raw s chain) (hbound : ∀ c ∈ chain, c < MAX_CLUSTER)
    (hstored : clusterUnits.Stored raw chain data) (hfits : clusterUnits.Fits chain data.length)
    (hlast : data.length ≤ (chain.length - 1) * CLUSTER_BYTES + s * SECTOR)
    (hfuel : chain.length ≤ fuel) :
    ∃ b, walk raw fuel (chain.headD 0) = some b ∧ b.take data.length = data := by
  induction chain generalizing data fuel with
  | nil => exact absurd rfl hfits.ne_nil
  | cons c rest ih =>
      obtain ⟨fuel, rfl⟩ : ∃ n, fuel = n + 1 := by
        rw [List.length_cons] at hfuel
        exact ⟨fuel - 1, by omega⟩
      obtain ⟨hlow, hhigh, hrest⟩ := hlinked
      rw [List.headD_cons, walk, hlow]
      cases rest with
      | nil =>
          obtain ⟨hflag, hcount⟩ := lowByte_last s hs.2 hs.1
          refine ⟨_, if_pos hflag, ?_⟩
          rw [List.length_singleton, Nat.sub_self, Nat.zero_mul, Nat.zero_add] at hlast
          show (raw.slice (c * CLUSTER_BYTES) (((lowByte (s - 1) true &&& 0x0f).toNat + 1) * SECTOR)).take
            data.length = data
          rw [hcount]
          refine hstored.read_last hlast ?_
          simp only [clusterUnits, CLUSTER_BYTES, SECTOR]
          omega
      | cons nxt rest =>
          rw [List.forall_mem_cons] at hbound
          obtain ⟨hflag, hnext⟩ := lowByte_next nxt (hbound.2 nxt List.mem_cons_self)
          obtain ⟨hfull, htail⟩ := hfits.tail
          have hsize : clusterUnits.size = CLUSTER_BYTES := rfl
          rw [hsize] at hfull htail
          have hrestStored : clusterUnits.Stored raw (nxt :: rest) (data.drop CLUSTER_BYTES) :=
            hstored.2
          have hrestFuel : (nxt :: rest).length ≤ fuel := by
            rw [List.length_cons] at hfuel
            omega
          obtain ⟨b, hwalk, hb⟩ := ih hrest hbound.2 hrestStored (by rwa [List.length_drop]) (by
            simp only [List.length_drop, List.length_cons, CLUSTER_BYTES] at hlast ⊢
            omega) hrestFuel
          refine ⟨raw.slice (c * CLUSTER_BYTES) CLUSTER_BYTES ++ b, ?_, ?_⟩
          · have hstep : ¬(lowByte nxt false &&& 0x80 ≠ 0) := fun h => h hflag
            rw [List.headD_cons] at hwalk
            show (if lowByte nxt false &&& 0x80 ≠ 0 then _ else _) = _
            rw [if_neg hstep, hhigh]
            show (walk raw fuel ((lowByte nxt false).toNat ||| (highByte nxt).toNat <<< 7)).bind _ = _
            rw [hnext, hwalk]
            rfl
          · rw [List.length_drop] at hb
            exact hstored.read_cons (Nat.le_of_lt hfull) hb

/-! ## One directory entry -/

theorem entryBytes_spec {name ext : Name} {size start : Nat} {b : Bytes}
    (h : entryBytes name ext size start = some b) (hname : name.length ≤ MAX_NAME)
    (hext : ext.length ≤ MAX_EXT) :
    b.length = ENTRY_SIZE ∧ size < 65536 ∧ b[0]? = some MODE_BINARY ∧
      (∃ n, decodeAscii (b.slice 0x01 MAX_NAME) = some n) ∧
      (∃ e, decodeAscii (b.slice 0x0e MAX_EXT) = some e) ∧ b.slice 0x12 2 = word size ∧
      b[0x1d]? = some (UInt8.ofNat (start >>> 14 &&& 0x7f)) ∧
      b[0x1e]? = some (UInt8.ofNat (start &&& 0x7f)) ∧
      b[0x1f]? = some (UInt8.ofNat (start >>> 7 &&& 0x7f)) := by
  simp only [entryBytes, Option.bind_eq_bind, Option.bind_eq_some_iff] at h
  obtain ⟨nameBytes, hnameBytes, extBytes, hextBytes, sizeBytes, hsize, hb⟩ := h
  obtain rfl := Option.some.inj hb
  simp only [toBytes2, Option.ite_none_right_eq_some, Option.some.injEq] at hsize
  obtain ⟨hsmall, rfl⟩ := hsize
  obtain ⟨hnameLen, hnameText⟩ := decode_encode hnameBytes MAX_NAME
  obtain ⟨hextLen, hextText⟩ := decode_encode hextBytes MAX_EXT
  have h13 : nameBytes.length = 13 := by
    rw [hnameLen, ljust, List.length_append, List.length_replicate]
    simp only [MAX_NAME] at hname ⊢
    omega
  have h3 : extBytes.length = 3 := by
    rw [hextLen, ljust, List.length_append, List.length_replicate]
    simp only [MAX_EXT] at hext ⊢
    omega
  generalize ht : UInt8.ofNat (start >>> 14 &&& 0x7f) = top at *
  generalize hl : UInt8.ofNat (start &&& 0x7f) = low at *
  generalize hm : UInt8.ofNat (start >>> 7 &&& 0x7f) = mid at *
  -- behind the two names the fields stand at fixed places
  have hparts : MODE_BINARY :: (nameBytes ++ extBytes ++ [PASSWORD_NONE] ++ word size ++ word 0 ++
      word 0 ++ List.replicate 5 (0 : UInt8) ++ [top, low, mid]) = MODE_BINARY :: (nameBytes ++ (extBytes ++
        ([PASSWORD_NONE] ++ word size ++ word 0 ++ word 0 ++ List.replicate 5 (0 : UInt8) ++
          [top, low, mid]))) := by
    simp only [List.append_assoc]
  rw [hparts]
  have hbehind : ∀ i, (MODE_BINARY :: (nameBytes ++ (extBytes ++ ([PASSWORD_NONE] ++ word size ++
      word 0 ++ word 0 ++ List.replicate 5 (0 : UInt8) ++ [top, low, mid]))))[17 + i]? = ([PASSWORD_NONE] ++
        word size ++ word 0 ++ word 0 ++ List.replicate 5 (0 : UInt8) ++ [top, low, mid])[i]? := by
    intro i
    rw [show 17 + i = (16 + i) + 1 by omega, List.getElem?_cons_succ,
      List.getElem?_append_right (by omega), List.getElem?_append_right (by omega)]
    congr 1
    omega
  refine ⟨?_, hsmall, rfl, ⟨(ljust name MAX_NAME).take MAX_NAME, ?_⟩,
    ⟨(ljust ext MAX_EXT).take MAX_EXT, ?_⟩, ?_, hbehind 12, hbehind 13, hbehind 14⟩
  · simp only [List.length_append, List.length_cons, List.length_nil, List.length_replicate,
      length_word, h13, h3, ENTRY_SIZE]
  · rw [← hnameText]
    congr 1
    show (nameBytes ++ _).take 13 = nameBytes.take 13
    rw [List.take_left' h13, List.take_of_length_le h13.le]
  · rw [← hextText]
    congr 1
    show ((nameBytes ++ _).drop 13).take 3 = extBytes.take 3
    rw [List.drop_left' h13, List.take_left' h3, List.take_of_length_le h3.le]
  · apply List.ext_getElem?
    intro i
    rw [List.getElem?_slice]
    by_cases hi : i < 2
    · rw [if_pos hi, show 0x12 + i = 17 + (1 + i) by omega, hbehind]
      interval_cases i <;> rfl
    · rw [if_neg hi, List.getElem?_eq_none]
      rw [length_word]
      omega

/-- The first cluster of a file, as its entry has it. -/
theorem start_bytes : ∀ c < 80, (UInt8.ofNat (c &&& 0x7f)).toNat |||
    (UInt8.ofNat (c >>> 7 &&& 0x7f)).toNat <<< 7 |||
      (UInt8.ofNat (c >>> 14 &&& 0x7f)).toNat <<< 14 = c := by
  decide +kernel

/-! ## One file -/

/-- The sectors that a file has in its last cluster. -/
def lastSectors (n : Nat) : Nat := sectorsFor n - (clustersFor n - 1) * SECTORS_PER_CLUSTER

theorem sectors_of_clusters (n : Nat) :
    (1 ≤ lastSectors n ∧ lastSectors n < 17) ∧
      n ≤ (clustersFor n - 1) * CLUSTER_BYTES + lastSectors n * SECTOR ∧
      clustersFor n = max 1 ((n + (CLUSTER_BYTES - 1)) / CLUSTER_BYTES) := by
  simp only [lastSectors, sectorsFor, clustersFor, SECTOR, SECTORS_PER_CLUSTER, CLUSTER_BYTES]
  omega

/-- A file in an image: its clusters with the data, the table that leads along them, and its entry
in the directory. -/
structure Placed (img : Bytes) (slot : Nat) (data : Bytes) (chain : List Nat) : Prop where
  fits : clusterUnits.Fits chain data.length
  length : chain.length = clustersFor data.length
  stored : clusterUnits.Stored img chain data
  linked : Linked img (lastSectors data.length) chain
  entry : ∃ name ext b, name.length ≤ MAX_NAME ∧ ext.length ≤ MAX_EXT ∧
    entryBytes name ext data.length (chain.headD 0) = some b ∧ img.slice (entryOff slot) ENTRY_SIZE = b

/-- A place that a file in the clusters from `p` to `q` and in one slot changes. -/
def Touched (p q slot i : Nat) : Prop :=
  (FAT_OFF + p ≤ i ∧ i < FAT_OFF + q) ∨ (FAT_OFF + 0x80 + p ≤ i ∧ i < FAT_OFF + 0x80 + q) ∨
    (entryOff slot ≤ i ∧ i < entryOff slot + ENTRY_SIZE) ∨
    (p * CLUSTER_BYTES ≤ i ∧ i < q * CLUSTER_BYTES)

theorem Placed.congr {img img' data : Bytes} {slot slot' p q : Nat} {chain : List Nat}
    (h : Placed img slot data chain) (hslot : slot < slot') (hslot' : slot' < DIR_ENTRIES)
    (hbound : ∀ c ∈ chain, 2 ≤ c ∧ c < p) (hp : 2 ≤ p ∧ p ≤ MAX_CLUSTER) (hq : q ≤ MAX_CLUSTER)
    (hframe : ∀ i, ¬Touched p q slot' i → img'[i]? = img[i]?) : Placed img' slot data chain := by
  simp only [Touched, entryOff, FAT_OFF, DIR_OFF, ENTRY_SIZE, CLUSTER_BYTES] at hframe
  simp only [DIR_ENTRIES, MAX_CLUSTER] at hslot' hp hq
  refine ⟨h.fits, h.length, h.stored.congr fun c hc i hlo hhi => ?_, h.linked.congr fun c hc => ?_, ?_⟩
  · obtain ⟨h2, hcp⟩ := hbound c hc
    simp only [clusterUnits, CLUSTER_BYTES] at hlo hhi
    exact hframe i (by omega)
  · obtain ⟨h2, hcp⟩ := hbound c hc
    simp only [FAT_OFF]
    exact ⟨hframe _ (by omega), hframe _ (by omega)⟩
  · obtain ⟨name, ext, b, hname, hext, hbytes, hslice⟩ := h.entry
    refine ⟨name, ext, b, hname, hext, hbytes, (List.slice_congr fun i hlo hhi => ?_).trans hslice⟩
    simp only [entryOff, DIR_OFF, ENTRY_SIZE] at hlo hhi
    exact hframe i (by omega)

/-- `add_file` places a file in the clusters from the next free one on. -/
theorem addFile_spec {img img' data : Bytes} {slot p q : Nat} {name ext : Name}
    (hlen : img.length = IMAGE_SIZE) (hp : 2 ≤ p) (hslot : slot < DIR_ENTRIES)
    (hname : name.length ≤ MAX_NAME) (hext : ext.length ≤ MAX_EXT)
    (h : addFile img slot p name ext data = some (img', q)) :
    img'.length = IMAGE_SIZE ∧ q = p + clustersFor data.length ∧ q ≤ MAX_CLUSTER ∧
      (∀ i, ¬Touched p q slot i → img'[i]? = img[i]?) ∧
      Placed img' slot data (List.range' p (clustersFor data.length)) := by
  unfold addFile at h
  dsimp only at h
  split_ifs at h with hfull
  simp only [Option.bind_eq_bind, Option.bind_eq_some_iff] at h
  obtain ⟨entry, hentry, heq⟩ := h
  obtain ⟨rfl, rfl⟩ := Prod.mk.inj (Option.some.inj heq)
  obtain ⟨-, -, hneed⟩ := sectors_of_clusters data.length
  generalize hchain : List.range' p (clustersFor data.length) = chain at *
  have hmem : ∀ c, c ∈ chain ↔ p ≤ c ∧ c < p + clustersFor data.length := by
    intro c
    rw [← hchain, List.mem_range'_1]
  have hcount : chain.length = clustersFor data.length := by rw [← hchain, List.length_range']
  have hnodup : chain.Nodup := by
    rw [← hchain]
    exact List.nodup_range'
  have hbound : ∀ c ∈ chain, c < MAX_CLUSTER := fun c hc => by
    have hc' := (hmem c).mp hc
    omega
  obtain ⟨hlen₁, hframe₁, hstored⟩ := clusterUnits.write_spec data hlen hnodup hbound
  generalize clusterUnits.write chain data img = img₁ at *
  obtain ⟨hlen₂, hframe₂, hlinked⟩ := linkChain_spec (s := lastSectors data.length) hlen₁ hnodup hbound
  have hsectors : sectorsFor data.length - (clustersFor data.length - 1) * SECTORS_PER_CLUSTER
      = lastSectors data.length := rfl
  rw [hsectors]
  generalize linkChain chain (lastSectors data.length) img₁ = img₂ at *
  obtain ⟨hsize, -⟩ := entryBytes_spec hentry hname hext
  have hslotEnd : entryOff slot + ENTRY_SIZE ≤ 8192 := by
    simp only [entryOff, DIR_OFF, ENTRY_SIZE, DIR_ENTRIES] at hslot ⊢
    omega
  have hsplice : ∀ i, ¬(entryOff slot ≤ i ∧ i < entryOff slot + ENTRY_SIZE) →
      (img₂.splice (entryOff slot) entry)[i]? = img₂[i]? := by
    intro i hi
    simp only [IMAGE_SIZE] at hlen₂
    rw [List.getElem?_splice (by omega), hsize, if_neg hi]
  simp only [entryOff, DIR_OFF, ENTRY_SIZE, DIR_ENTRIES] at hsplice hslotEnd hslot
  refine ⟨?_, rfl, by omega, fun i hi => ?_, ?_⟩
  · rw [List.length_splice, hlen₂]
    simp only [hsize, hlen₂, IMAGE_SIZE, ENTRY_SIZE, entryOff, DIR_OFF]
    omega
  · simp only [Touched, entryOff, DIR_OFF, FAT_OFF, ENTRY_SIZE, CLUSTER_BYTES] at hi
    have h₂ : img₂[i]? = img₁[i]? := hframe₂ i fun c hc => by
      have hc' := (hmem c).mp hc
      simp only [FAT_OFF]
      omega
    have h₁ : img₁[i]? = img[i]? := hframe₁ i fun c hc => by
      have hc' := (hmem c).mp hc
      simp only [ImageUnits.Outside, clusterUnits, CLUSTER_BYTES]
      omega
    exact (hsplice i (by omega)).trans (h₂.trans h₁)
  · refine ⟨ImageUnits.fits_of_length (by decide) (hcount.trans hneed), hcount,
      hstored.congr fun c hc i hlo hhi => ?_, hlinked.congr fun c hc => ?_,
      name, ext, entry, hname, hext, hentry, ?_⟩
    · have hc' := (hmem c).mp hc
      simp only [clusterUnits, CLUSTER_BYTES] at hlo hhi
      refine (hsplice i (by omega)).trans (hframe₂ i fun d hd => ?_)
      have hd' := hbound d hd
      simp only [FAT_OFF, MAX_CLUSTER] at hd' ⊢
      omega
    · have hc' := hbound c hc
      simp only [FAT_OFF, MAX_CLUSTER] at hc' ⊢
      exact ⟨hsplice _ (by omega), hsplice _ (by omega)⟩
    · refine List.slice_splice_self ?_ hsize
      simp only [hlen₂, IMAGE_SIZE, entryOff, DIR_OFF, ENTRY_SIZE]
      omega

/-! ## All files -/

/-- What the loop of `create_image` keeps. -/
structure Inv (img : Bytes) (next : Nat) (files : List HostFile) (chains : List (List Nat)) :
    Prop where
  length : img.length = IMAGE_SIZE
  room : FIRST_DATA_CLUSTER ≤ next ∧ next ≤ MAX_CLUSTER
  clusters : chains.flatten = List.range' FIRST_DATA_CLUSTER (next - FIRST_DATA_CLUSTER)
  count : chains.length = files.length
  placed : ∀ (k : Nat) (f : HostFile) (chain : List Nat), files[k]? = some f →
    chains[k]? = some chain → Placed img k f.data chain
  frame : ∀ i, ¬(FAT_OFF + 2 ≤ i ∧ i < FAT_OFF + next) →
    ¬(FAT_OFF + 0x80 + 2 ≤ i ∧ i < FAT_OFF + 0x80 + next) →
    ¬(DIR_OFF ≤ i ∧ i < entryOff files.length) →
    ¬(2 * CLUSTER_BYTES ≤ i ∧ i < next * CLUSTER_BYTES) → img[i]? = formatDisk[i]?

theorem inv_formatDisk : Inv formatDisk FIRST_DATA_CLUSTER [] [] := by
  refine ⟨length_formatDisk, by decide, rfl, rfl, fun k f chain hf => ?_, fun _ _ _ _ _ => rfl⟩
  rw [List.getElem?_nil] at hf
  cases hf

/-- One more file. -/
theorem Inv.addFile {img img' : Bytes} {p q : Nat} {files : List HostFile}
    {chains : List (List Nat)} {f : HostFile} {name ext : Name} (hinv : Inv img p files chains)
    (hslot : files.length < DIR_ENTRIES) (hname : name.length ≤ MAX_NAME)
    (hext : ext.length ≤ MAX_EXT)
    (h : HuBasic.addFile img files.length p name ext f.data = some (img', q)) :
    Inv img' q (files ++ [f]) (chains ++ [List.range' p (clustersFor f.data.length)]) := by
  obtain ⟨hlen, ⟨hp, hp'⟩, hclusters, hcount, hplaced, hframe⟩ := hinv
  simp only [FIRST_DATA_CLUSTER] at hp hclusters
  obtain ⟨hlen', hq, hq', hstep, hnew⟩ := addFile_spec hlen hp hslot hname hext h
  refine ⟨hlen', ⟨by rw [FIRST_DATA_CLUSTER]; omega, hq'⟩, ?_, ?_, fun k g chain hg hc => ?_,
    fun i h1 h2 h3 h4 => ?_⟩
  · rw [List.flatten_append, List.flatten_singleton, hclusters, FIRST_DATA_CLUSTER, hq,
      show p + clustersFor f.data.length - 2 = (p - 2) + clustersFor f.data.length by omega,
      ← List.range'_append_1, show 2 + (p - 2) = p by omega]
  · rw [List.length_append, List.length_append, hcount, List.length_singleton,
      List.length_singleton]
  · rcases List.getElem?_snoc hg with ⟨hk, hg'⟩ | ⟨hk, rfl⟩
    · rw [List.getElem?_append_left (by omega)] at hc
      refine (hplaced k g chain hg' hc).congr hk hslot (fun c hmem => ?_) ⟨hp, hp'⟩ hq' hstep
      have hflat := mem_flatten_of_getElem? hc hmem
      rw [hclusters, List.mem_range'_1] at hflat
      omega
    · rw [hk, ← hcount, List.getElem?_concat_length] at hc
      obtain rfl := Option.some.inj hc
      rw [hk]
      exact hnew
  · rw [List.length_append, List.length_singleton] at h3
    simp only [Touched, FAT_OFF, DIR_OFF, entryOff, ENTRY_SIZE, CLUSTER_BYTES] at hstep
    simp only [FAT_OFF, DIR_OFF, entryOff, ENTRY_SIZE, CLUSTER_BYTES, Nat.reduceMul] at hframe
    simp only [FAT_OFF, DIR_OFF, entryOff, ENTRY_SIZE, CLUSTER_BYTES, Nat.reduceMul] at h1 h2 h3 h4
    have hpq : p * 4096 ≤ q * 4096 := Nat.mul_le_mul_right _ (by omega)
    exact (hstep i (by omega)).trans (hframe i (by omega) (by omega) (by omega)
      fun ⟨hlo, hhi⟩ => h4 ⟨hlo, hhi.trans_le hpq⟩)

theorem huName_length {t : HostText} {hostName name ext : Name}
    (h : huName t hostName = some (name, ext)) :
    name.length ≤ MAX_NAME ∧ ext.length ≤ MAX_EXT := by
  unfold huName at h
  dsimp only at h
  split_ifs at h
  obtain ⟨rfl, rfl⟩ := Prod.mk.inj (Option.some.inj h)
  exact ⟨List.length_take_le _ _, List.length_take_le _ _⟩

/-- The loop over the files. -/
theorem Inv.placeFiles {t : HostText} {img img' : Bytes} {next : Nat} {used : List (Name × Name)}
    {files more : List HostFile} {chains : List (List Nat)} (hinv : Inv img next files chains)
    (hroom : files.length + more.length ≤ DIR_ENTRIES)
    (h : HuBasic.placeFiles t files.length next used more img = some img') :
    ∃ next' chains', Inv img' next' (files ++ more) chains' := by
  induction more generalizing img next used files chains with
  | nil =>
      obtain rfl := Option.some.inj h
      rw [List.append_nil]
      exact ⟨next, chains, hinv⟩
  | cons f more ih =>
      simp only [HuBasic.placeFiles, Option.bind_eq_bind, Option.bind_eq_some_iff, Prod.exists] at h
      obtain ⟨name, ext, hname, hrest⟩ := h
      split_ifs at hrest
      simp only [Option.bind_eq_some_iff, Prod.exists] at hrest
      obtain ⟨img₁, next₁, hadd, hrest⟩ := hrest
      obtain ⟨hnameLen, hextLen⟩ := huName_length hname
      rw [List.length_cons] at hroom
      have hstep := hinv.addFile (by omega) hnameLen hextLen hadd
      have hlen : files.length + 1 = (files ++ [f]).length := by
        rw [List.length_append, List.length_singleton]
      rw [hlen] at hrest
      obtain ⟨next', chains', hdone⟩ := ih hstep (by omega) hrest
      rw [List.append_assoc] at hdone
      exact ⟨next', chains', hdone⟩

/-! ## Reading the image back -/

/-- The first cluster that an entry of the directory names. -/
def startCluster (raw : Bytes) (slot : Nat) : Nat :=
  (byteAt raw (entryOff slot + 0x1e)).toNat ||| (byteAt raw (entryOff slot + 0x1f)).toNat <<< 7 |||
    (byteAt raw (entryOff slot + 0x1d)).toNat <<< 14

theorem byteAt_of_getElem? {raw : Bytes} {i : Nat} {b : UInt8} (h : raw[i]? = some b) :
    byteAt raw i = b := by
  rw [byteAt, List.getD_eq_getElem?_getD, h, Option.getD_some]

theorem Placed.start {raw data : Bytes} {slot : Nat} {chain : List Nat}
    (h : Placed raw slot data chain) (hbound : ∀ c ∈ chain, c < MAX_CLUSTER) :
    data.length < 65536 ∧ chain.headD 0 < MAX_CLUSTER ∧ startCluster raw slot = chain.headD 0 := by
  obtain ⟨name, ext, b, hname, hext, hbytes, hslice⟩ := h.entry
  obtain ⟨-, hsmall, -, -, -, -, htop, hlow, hmid⟩ := entryBytes_spec hbytes hname hext
  have hhead : chain.headD 0 < MAX_CLUSTER := by
    cases hchain : chain with
    | nil => decide
    | cons c rest => exact hbound c (by rw [hchain]; exact List.mem_cons_self)
  refine ⟨hsmall, hhead, ?_⟩
  simp only [ENTRY_SIZE] at hslice
  rw [startCluster, byteAt_of_getElem? ((getElem?_of_window hslice (by omega)).trans hlow),
    byteAt_of_getElem? ((getElem?_of_window hslice (by omega)).trans hmid),
    byteAt_of_getElem? ((getElem?_of_window hslice (by omega)).trans htop)]
  exact start_bytes _ hhead

/-- The reader finds a file. -/
theorem Placed.read {raw data : Bytes} {slot fuel : Nat} {chain : List Nat}
    (h : Placed raw slot data chain) (hbound : ∀ c ∈ chain, c < MAX_CLUSTER)
    (hfuel : chain.length ≤ fuel) :
    raw[entryOff slot]? = some MODE_BINARY ∧
      ∃ fname, readEntry fuel raw (entryOff slot) = some (fname, data) := by
  obtain ⟨-, hhead, -⟩ := h.start hbound
  obtain ⟨name, ext, b, hname, hext, hbytes, hslice⟩ := h.entry
  obtain ⟨-, hsmall, hmode, ⟨n, hn⟩, ⟨e, he⟩, hsize, htop, hlow, hmid⟩ :=
    entryBytes_spec hbytes hname hext
  obtain ⟨hs, hlast, -⟩ := sectors_of_clusters data.length
  rw [← h.length] at hlast
  obtain ⟨out, hwalk, hout⟩ := walk_spec hs h.linked hbound h.stored h.fits hlast hfuel
  simp only [ENTRY_SIZE] at hslice
  refine ⟨?_, ?_⟩
  · have hfirst := getElem?_of_window hslice (show 0 < 32 by omega)
    rw [Nat.add_zero] at hfirst
    exact hfirst.trans hmode
  · have hfield : leField raw (entryOff slot + 0x12) 2 = data.length := by
      rw [leField, slice_of_window hslice (by omega), hsize]
      exact Bytes.le_ofNat_ofNat hsmall
    simp only [readEntry, slice_of_window hslice (show 0x01 + MAX_NAME ≤ 32 by decide), hn,
      slice_of_window hslice (show 0x0e + MAX_EXT ≤ 32 by decide), he, hfield,
      getElem?_of_window hslice (show 0x1e < 32 by omega), hlow,
      getElem?_of_window hslice (show 0x1f < 32 by omega), hmid,
      getElem?_of_window hslice (show 0x1d < 32 by omega), htop, Option.bind_eq_bind,
      Option.bind_some, start_bytes _ hhead, hwalk, hout]
    exact ⟨_, rfl⟩

/-- The loop over the slots: behind the files there is an end. -/
theorem readSlots_spec {raw : Bytes} {fuel left slot : Nat} {files : List HostFile}
    (hleft : files.length ≤ left)
    (hfiles : ∀ (k : Nat) (f : HostFile), files[k]? = some f →
      raw[entryOff (slot + k)]? = some MODE_BINARY ∧
        ∃ fname, readEntry fuel raw (entryOff (slot + k)) = some (fname, f.data))
    (hend : files.length < left → raw[entryOff (slot + files.length)]? = some ENTRY_END) :
    ∃ got, readSlots fuel raw left slot = some got ∧ got.map Prod.snd = files.map HostFile.data := by
  induction files generalizing left slot with
  | nil =>
      cases left with
      | zero => exact ⟨[], rfl, rfl⟩
      | succ left =>
          have hmode := hend (Nat.succ_pos left)
          rw [List.length_nil, Nat.add_zero] at hmode
          refine ⟨[], ?_, rfl⟩
          rw [readSlots, hmode]
          rfl
  | cons f files ih =>
      rw [List.length_cons] at hleft hend
      obtain ⟨left, rfl⟩ : ∃ n, left = n + 1 := ⟨left - 1, by omega⟩
      obtain ⟨hmode, fname, hread⟩ := hfiles 0 f rfl
      rw [Nat.add_zero] at hmode hread
      obtain ⟨got, hgot, hdata⟩ := @ih left (slot + 1) (by omega)
        (fun k g hg => by
          have hnext := hfiles (k + 1) g hg
          rwa [show slot + (k + 1) = slot + 1 + k by omega] at hnext)
        (fun hlt => by
          have hnext := hend (by omega)
          rwa [show slot + (files.length + 1) = slot + 1 + files.length by omega] at hnext)
      refine ⟨(fname, f.data) :: got, ?_, by rw [List.map_cons, List.map_cons, hdata]⟩
      have h1 : MODE_BINARY ≠ ENTRY_END := by decide
      have h2 : MODE_BINARY ≠ ENTRY_DELETE := by decide
      simp only [readSlots, hmode, Option.bind_eq_bind, Option.bind_some, if_neg h1, if_neg h2,
        hread, hgot]
      rfl

/-! ## The round trip -/

/-- An entry of the table is zero. -/
def FreeEntry (raw : Bytes) (c : Nat) : Prop :=
  raw[FAT_OFF + c]? = some 0 ∧ raw[FAT_OFF + 0x80 + c]? = some 0

/-- A volume that was built, seen from its image. -/
structure Built (files : List HostFile) (chains : List (List Nat)) (raw : Bytes) : Prop where
  /-- The chains are disjoint, and lie in the clusters for data. -/
  disjoint : chains.flatten.Nodup
  bounds : ∀ c ∈ chains.flatten, FIRST_DATA_CLUSTER ≤ c ∧ c < MAX_CLUSTER
  /-- There is one for each file, with no cluster more than the file needs. It begins where the
  entry of the file says, the table leads along it, and the data are in its clusters. -/
  chain : chains.length = files.length ∧ ∀ (k : Nat) (f : HostFile) (chain : List Nat),
    files[k]? = some f → chains[k]? = some chain →
      clusterUnits.Fits chain f.data.length ∧ startCluster raw k = chain.headD 0 ∧
      Linked raw (lastSectors f.data.length) chain ∧ clusterUnits.Stored raw chain f.data
  /-- An entry of the table is zero exactly when its cluster is for data and in no chain. -/
  free : ∀ c < 128, FreeEntry raw c ↔
    FIRST_DATA_CLUSTER ≤ c ∧ c < MAX_CLUSTER ∧ c ∉ chains.flatten
  /-- The entries of clusters 0 and 1 and those from 80 on are as they were formatted. -/
  fenced : ∀ c < 128, c < FIRST_DATA_CLUSTER ∨ MAX_CLUSTER ≤ c →
    raw[FAT_OFF + c]? = formatDisk[FAT_OFF + c]? ∧
      raw[FAT_OFF + 0x80 + c]? = formatDisk[FAT_OFF + 0x80 + c]?
  /-- The clusters 0 and 1 are as they were formatted, up to the entries for data clusters and
  the slots of the files. -/
  frame : ∀ i < FIRST_DATA_CLUSTER * CLUSTER_BYTES,
    (∀ c, FIRST_DATA_CLUSTER ≤ c → c < MAX_CLUSTER → i ≠ FAT_OFF + c ∧ i ≠ FAT_OFF + 0x80 + c) →
    ¬(DIR_OFF ≤ i ∧ i < entryOff files.length) → raw[i]? = formatDisk[i]?
  /-- The reader returns the data of the files in order. -/
  extract : ∀ fuel, MAX_CLUSTER ≤ fuel → ∃ got, extractAll fuel raw = some got ∧
    got.map Prod.snd = files.map HostFile.data

/-! ### The table of an empty volume -/

theorem getElem?_formatDisk {i : Nat} (h : i < DIR_OFF) : formatDisk[i]? = some
    (if i = FAT_OFF then 0x01 else if i = FAT_OFF + 1 ∨ (FAT_OFF + 0x50 ≤ i ∧ i < FAT_OFF + 0x80)
      then 0x8f else 0) := by
  have h0 : (List.replicate IMAGE_SIZE (0 : UInt8)).length = IMAGE_SIZE := List.length_replicate
  have h1 : ((List.replicate IMAGE_SIZE (0 : UInt8)).splice FAT_OFF [0x01]).length = IMAGE_SIZE :=
    length_splice_image h0 (by decide)
  have h2 : (((List.replicate IMAGE_SIZE (0 : UInt8)).splice FAT_OFF [0x01]).splice (FAT_OFF + 1)
      [0x8f]).length = IMAGE_SIZE :=
    length_splice_image h1 (by decide)
  have h3 := length_formatTable
  have hzero : (List.replicate IMAGE_SIZE (0 : UInt8))[i]? = some 0 := by
    rw [List.getElem?_replicate, if_pos (h.trans (by decide))]
  have hfence : FAT_OFF + 0x80 ≤ DIR_OFF := by decide
  unfold formatDisk
  rw [List.getElem?_splice (by rw [h3]; decide), if_neg (by omega),
    List.getElem?_splice (by rw [h2]; decide), List.length_replicate,
    List.getElem?_splice (by rw [h1]; decide), List.getElem?_splice (by rw [h0]; decide), hzero,
    List.length_singleton, List.length_singleton]
  generalize FAT_OFF = base at *
  by_cases hfenced : base + 0x50 ≤ i ∧ i < base + 0x80
  · rw [if_pos (by omega), if_neg (by omega), if_pos (.inr hfenced), List.getElem?_replicate,
      if_pos (by omega)]
  · rw [if_neg (by omega)]
    by_cases hdir : i = base + 1
    · rw [if_pos (by omega), if_neg (by omega), if_pos (.inl hdir), hdir, Nat.sub_self]
      rfl
    · rw [if_neg (by omega)]
      by_cases hboot : i = base
      · rw [if_pos (by omega), if_pos hboot, hboot, Nat.sub_self]
        rfl
      · rw [if_neg (by omega), if_neg hboot, if_neg (by omega)]

theorem getElem?_directory {i : Nat} (hlo : DIR_OFF ≤ i) (hhi : i < 2 * DIR_OFF) :
    formatDisk[i]? = some ENTRY_END := by
  have hlen : DIR_SECTORS * SECTOR = DIR_OFF := rfl
  have hbase : DIR_OFF ≤ IMAGE_SIZE := by decide
  rw [formatDisk, List.getElem?_splice (length_formatTable.symm ▸ hbase), List.length_replicate,
    hlen, if_pos (by omega), List.getElem?_replicate, if_pos (by omega)]

theorem Linked.low_ne_zero {raw : Bytes} {s c : Nat} {chain : List Nat} (h : Linked raw s chain)
    (hs : 1 ≤ s ∧ s < 17) (hbound : ∀ c ∈ chain, FIRST_DATA_CLUSTER ≤ c ∧ c < MAX_CLUSTER)
    (hc : c ∈ chain) : raw[FAT_OFF + c]? ≠ some 0 := by
  induction chain with
  | nil => cases hc
  | cons d rest ih =>
      rw [List.forall_mem_cons] at hbound
      obtain ⟨hlow, -, hrest⟩ := h
      rcases List.mem_cons.mp hc with rfl | hmem
      · rw [hlow, ne_eq, Option.some.injEq]
        cases rest with
        | nil =>
            have hflag := (lowByte_last s hs.2 hs.1).1
            intro hzero
            change lowByte (s - 1) true = 0 at hzero
            rw [hzero] at hflag
            exact hflag (by decide)
        | cons nxt rest =>
            obtain ⟨hlo, hhi⟩ := hbound.2 nxt List.mem_cons_self
            exact lowByte_ne_zero nxt hhi hlo
      · exact ih hrest hbound.2 hmem

/-- The image of files that were placed. -/
theorem Inv.built {raw : Bytes} {next : Nat} {files : List HostFile} {chains : List (List Nat)}
    (h : Inv raw next files chains) (hfiles : files.length ≤ DIR_ENTRIES) :
    Built files chains raw := by
  obtain ⟨hlen, ⟨hnext, hnext'⟩, hclusters, hcount, hplaced, hframe⟩ := h
  have hmem : ∀ c, c ∈ chains.flatten ↔ FIRST_DATA_CLUSTER ≤ c ∧ c < next := by
    intro c
    rw [hclusters, List.mem_range'_1]
    omega
  have hbounds : ∀ c ∈ chains.flatten, FIRST_DATA_CLUSTER ≤ c ∧ c < MAX_CLUSTER := fun c hc =>
    ⟨((hmem c).mp hc).1, ((hmem c).mp hc).2.trans_le hnext'⟩
  have hchain : ∀ (k : Nat) (f : HostFile), files[k]? = some f → ∃ chain, chains[k]? = some chain ∧
      Placed raw k f.data chain ∧ ∀ c ∈ chain, FIRST_DATA_CLUSTER ≤ c ∧ c < MAX_CLUSTER := by
    intro k f hf
    have hk := (List.getElem?_eq_some_iff.mp hf).1
    have hc : chains[k]? = some chains[k] := List.getElem?_eq_getElem (by omega)
    exact ⟨_, hc, hplaced k f _ hf hc, fun c hmem => hbounds c (mem_flatten_of_getElem? hc hmem)⟩
  have hsmall : ∀ (k : Nat) (f : HostFile) (chain : List Nat), files[k]? = some f →
      chains[k]? = some chain → chain.length ≤ MAX_CLUSTER := by
    intro k f chain hf hc
    have hsub : chain.Nodup := by
      have hall : chains.flatten.Nodup := by rw [hclusters]; exact List.nodup_range'
      exact (List.nodup_flatten.mp hall).1 chain (List.mem_of_getElem? hc)
    have hle := (hsub.subperm fun c hmem => List.mem_range.mpr
      (hbounds c (mem_flatten_of_getElem? hc hmem)).2).length_le
    rwa [List.length_range] at hle
  have hentry : ∀ c < 128, c < FIRST_DATA_CLUSTER ∨ next ≤ c →
      raw[FAT_OFF + c]? = formatDisk[FAT_OFF + c]? ∧
        raw[FAT_OFF + 0x80 + c]? = formatDisk[FAT_OFF + 0x80 + c]? := by
    intro c hc hout
    simp only [FIRST_DATA_CLUSTER, MAX_CLUSTER, FAT_OFF, DIR_OFF, CLUSTER_BYTES] at *
    exact ⟨hframe _ (by omega) (by omega) (by omega) (by omega),
      hframe _ (by omega) (by omega) (by omega) (by omega)⟩
  have hroom : files.length < DIR_ENTRIES → raw[entryOff files.length]? = some ENTRY_END := by
    intro hlt
    simp only [DIR_ENTRIES, FAT_OFF, DIR_OFF, entryOff, ENTRY_SIZE, MAX_CLUSTER, CLUSTER_BYTES] at *
    exact (hframe _ (by omega) (by omega) (by omega) (by omega)).trans
      (getElem?_directory (by simp only [DIR_OFF]; omega) (by simp only [DIR_OFF]; omega))
  refine ⟨?_, hbounds, ⟨hcount, fun k f chain hf hc => ?_⟩, fun c hc => ?_, fun c hc hout => ?_,
    fun i hi htable hdir => ?_, fun fuel hfuel => ?_⟩
  · rw [hclusters]
    exact List.nodup_range'
  · obtain ⟨chain', hc', hp, hb⟩ := hchain k f hf
    obtain rfl := Option.some.inj (hc.symm.trans hc')
    exact ⟨hp.fits, (hp.start fun c hmem => (hb c hmem).2).2.2, hp.linked, hp.stored⟩
  · rw [hmem]
    constructor
    · rintro ⟨hlow, -⟩
      have hzero : ∀ n : Nat, (n < FIRST_DATA_CLUSTER ∨ MAX_CLUSTER ≤ n) → n < 128 →
          formatDisk[FAT_OFF + n]? ≠ some 0 := by
        intro n hn hlt
        rw [getElem?_formatDisk (by simp only [FAT_OFF, DIR_OFF]; omega), ne_eq, Option.some.injEq]
        simp only [FIRST_DATA_CLUSTER, MAX_CLUSTER] at hn
        by_cases h0 : n = 0
        · rw [if_pos (by omega)]
          decide
        · rw [if_neg (by omega), if_pos (by omega)]
          decide
      have hfree : ¬(FIRST_DATA_CLUSTER ≤ c ∧ c < next) := by
        intro hused
        obtain ⟨chain, hchainMem, hcMem⟩ := List.mem_flatten.mp ((hmem c).mpr hused)
        obtain ⟨k, hk⟩ := List.mem_iff_getElem?.mp hchainMem
        have hkLt := (List.getElem?_eq_some_iff.mp hk).1
        have hf : files[k]? = some files[k] := List.getElem?_eq_getElem (by omega)
        obtain ⟨chain', hc', hp, hb⟩ := hchain k _ hf
        obtain rfl := Option.some.inj (hk.symm.trans hc')
        exact hp.linked.low_ne_zero (sectors_of_clusters _).1 hb hcMem hlow
      have hdata : ¬(c < FIRST_DATA_CLUSTER ∨ MAX_CLUSTER ≤ c) := fun hout =>
        hzero c hout hc ((hentry c hc (hout.imp_right fun h => hnext'.trans h)).1 ▸ hlow)
      omega
    · rintro ⟨hlo, hhi, hunused⟩
      obtain ⟨hlow, hhigh⟩ := hentry c hc (.inr (by omega))
      simp only [FIRST_DATA_CLUSTER, MAX_CLUSTER] at hlo hhi
      refine ⟨hlow.trans ?_, hhigh.trans ?_⟩
      · rw [getElem?_formatDisk (by simp only [FAT_OFF, DIR_OFF]; omega), if_neg (by omega),
          if_neg (by omega)]
      · rw [getElem?_formatDisk (by simp only [FAT_OFF, DIR_OFF]; omega), if_neg (by omega),
          if_neg (by omega)]
  · exact hentry c hc (hout.imp_right fun h => hnext'.trans h)
  · simp only [FIRST_DATA_CLUSTER, MAX_CLUSTER, FAT_OFF, DIR_OFF, CLUSTER_BYTES] at *
    refine hframe i (fun hlow => ?_) (fun hhigh => ?_) hdir (by omega)
    · exact (htable (i - 3584) (by omega) (by omega)).1 (by omega)
    · exact (htable (i - 3584 - 0x80) (by omega) (by omega)).2 (by omega)
  · obtain ⟨got, hgot, hdata⟩ := @readSlots_spec raw fuel DIR_ENTRIES 0 files hfiles
      (fun k f hf => by
        obtain ⟨chain, hc, hp, hb⟩ := hchain k f hf
        rw [Nat.zero_add]
        exact hp.read (fun c hmem => (hb c hmem).2) ((hsmall k f chain hf hc).trans hfuel))
      (fun hlt => by
        rw [Nat.zero_add]
        exact hroom hlt)
    exact ⟨got, hgot, hdata⟩

/-- **Hu-BASIC volumes**: the image of any list of files that the checks of `create_image` accept
is consistent and is read back, and so `create_image` writes it. -/
theorem hubasic_spec (t : HostText) (files : List HostFile) {raw : Bytes}
    (h : layOut t files = some raw) :
    (∃ chains, Built files chains raw) ∧
      ∀ fuel, MAX_CLUSTER ≤ fuel → createImage t fuel files = some raw := by
  have hplace := h
  rw [layOut] at hplace
  split_ifs at hplace with hmany
  obtain ⟨next, chains, hinv⟩ := inv_formatDisk.placeFiles (by
    rw [List.length_nil, Nat.zero_add]
    omega) hplace
  have hbuilt : Built files chains raw := hinv.built (by rw [List.nil_append]; omega)
  refine ⟨⟨chains, hbuilt⟩, fun fuel hfuel => ?_⟩
  obtain ⟨got, hgot, hdata⟩ := hbuilt.extract fuel hfuel
  simp only [createImage, h, hgot, Option.bind_eq_bind, Option.bind_some, if_pos hdata]
  rfl

/-- A host whose names need no change. -/
def plainText : HostText where
  stem s := s
  suffix _ := []
  upper s := s
  isalnum := Char.isAlphanum

theorem hubasic_sample : ∃ raw chains,
    layOut plainText [⟨['A'], List.replicate 4096 7⟩, ⟨['B'], []⟩] = some raw ∧
      Built [⟨['A'], List.replicate 4096 7⟩, ⟨['B'], []⟩] chains raw ∧
      createImage plainText MAX_CLUSTER [⟨['A'], List.replicate 4096 7⟩, ⟨['B'], []⟩] = some raw := by
  obtain ⟨raw, hraw⟩ : ∃ raw,
      layOut plainText [⟨['A'], List.replicate 4096 7⟩, ⟨['B'], []⟩] = some raw := by
    simp only [layOut, placeFiles, addFile, List.length_replicate]
    exact ⟨_, rfl⟩
  obtain ⟨⟨chains, hbuilt⟩, hwritten⟩ := hubasic_spec plainText _ hraw
  exact ⟨raw, chains, hraw, hbuilt, hwritten MAX_CLUSTER (Nat.le_refl _)⟩

end Mountin.HuBasic
