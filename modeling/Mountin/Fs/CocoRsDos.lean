import Mountin.Basic.Dict
import Mountin.Basic.ImageUnits
import Mountin.Fs.Fields

set_option autoImplicit false

/-! # RS-DOS volumes

`mkrsdos.py`: the granules of a file form a chain in the granule map, whose last entry counts the
sectors of the last granule; the directory has the bytes of the last sector. `add_file` takes any
name, and `build` encodes the names as ASCII: `rsdos_iff` says which files are read back.
-/

namespace Mountin.CocoRsDos

open Volume

def SECTOR : Nat := 256
def SECTORS_PER_TRACK : Nat := 18
def IMAGE_SIZE : Nat := 161280
def SECTORS_PER_GRAN : Nat := 9
def GRAN_BYTES : Nat := 2304
def TOTAL_GRANS : Nat := 68
def DIR_TRACK : Nat := 17
def GRANULE_MAP_SECTOR : Nat := 2
def DIR_FIRST_SECTOR : Nat := 3
def ENTRY_LEN : Nat := 32
def MAX_ENTRIES : Nat := 72
def GRAN_FREE : Nat := 0xff
def GRAN_LAST_BASE : Nat := 0xc0
def DIR_END : UInt8 := 0xff
def FT_MACHINE : UInt8 := 2
def FLAG_BINARY : UInt8 := 0

/-- `sector_offset`, of a sector from 1 on. -/
def sectorOffset (track sector : Nat) : Nat := (track * SECTORS_PER_TRACK + (sector - 1)) * SECTOR

/-- `gran_track`. -/
def granTrack (g : Nat) : Nat := if g < 34 then g / 2 else g / 2 + 1

/-- `gran_first_sector`. -/
def granFirstSector (g : Nat) : Nat := if g % 2 = 0 then 1 else 10

/-- `gran_offset`. -/
def granOffset (g : Nat) : Nat := sectorOffset (granTrack g) (granFirstSector g)

/-- Where the granule map and an entry of the directory stand. -/
def gmOff : Nat := sectorOffset DIR_TRACK GRANULE_MAP_SECTOR
def entryOff (i : Nat) : Nat := sectorOffset DIR_TRACK DIR_FIRST_SECTOR + i * ENTRY_LEN

/-- The granules of an image. -/
def granUnits : ImageUnits where
  size := GRAN_BYTES
  limit := IMAGE_SIZE
  off := granOffset
  Valid g := g < TOTAL_GRANS
  room h := by
    simp only [granOffset, sectorOffset, granTrack, granFirstSector, GRAN_BYTES, IMAGE_SIZE,
      TOTAL_GRANS, SECTORS_PER_TRACK, SECTOR] at h ⊢
    split_ifs <;> omega
  apart hu hv hne := by
    simp only [granOffset, sectorOffset, granTrack, granFirstSector, GRAN_BYTES,
      SECTORS_PER_TRACK, SECTOR]
    split_ifs <;> omega

/-! ## Names -/

/-- `rsdos_name` behind `os.path.basename`; the tables of `str.upper` and `str.isalnum` are
parameters. -/
def rsdosName (upper : Name → Name) (isalnum : Char → Bool) (base : Name) : Name × Name :=
  let clean (s : Name) (n : Nat) : Name := ((upper s).filter isalnum).take n
  let name := clean (splitExt base).1 8
  (if name = [] then ['F', 'I', 'L', 'E'] else name, clean (splitExt base).2 3)

/-! ## Files -/

/-- The tuple that `add_file` appends to `entries`. -/
structure Entry where
  name : Name
  ext : Name
  ftype : UInt8
  flag : UInt8
  firstGran : Nat
  bytesLast : Nat

/-- `RsDos`. -/
structure RsDos where
  image : Bytes
  granMap : List Nat
  entries : List Entry

/-- `RsDos.__init__`. -/
def new : RsDos where
  image := List.replicate IMAGE_SIZE 0
  granMap := List.replicate TOTAL_GRANS GRAN_FREE
  entries := []

/-- `_alloc_grans`. -/
def allocGrans (granMap : List Nat) (count : Nat) : Option (List Nat) :=
  let free := (List.range TOTAL_GRANS).filter fun g => granMap.getD g 0 = GRAN_FREE
  if free.length < count then none else some (free.take count)

/-- The two steps that link a chain: all but the last granule, then the last one. -/
def linkChain : List Nat → Nat → List Nat → List Nat
  | [], _, granMap => granMap
  | [g], sectorsInLast, granMap => granMap.set g (GRAN_LAST_BASE + sectorsInLast)
  | g :: nxt :: rest, sectorsInLast, granMap =>
      linkChain (nxt :: rest) sectorsInLast (granMap.set g nxt)

def totalSectors (nbytes : Nat) : Nat := max 1 ((nbytes + (SECTOR - 1)) / SECTOR)

def totalGrans (nbytes : Nat) : Nat :=
  (totalSectors nbytes + (SECTORS_PER_GRAN - 1)) / SECTORS_PER_GRAN

def sectorsInLast (nbytes : Nat) : Nat :=
  totalSectors nbytes - (totalGrans nbytes - 1) * SECTORS_PER_GRAN

def bytesLastSector (nbytes : Nat) : Nat := nbytes - (totalSectors nbytes - 1) * SECTOR

/-- A file that is given to `add_file`. -/
structure File where
  name : Name
  ext : Name
  data : Bytes
  ftype : UInt8 := FT_MACHINE
  flag : UInt8 := FLAG_BINARY

/-- `add_file`, `none` for its two errors. -/
def RsDos.addFile (disk : RsDos) (f : File) : Option RsDos :=
  if MAX_ENTRIES ≤ disk.entries.length then none
  else do
    let chain ← allocGrans disk.granMap (totalGrans f.data.length)
    return {
      image := granUnits.write chain f.data disk.image
      granMap := linkChain chain (sectorsInLast f.data.length) disk.granMap
      entries := disk.entries ++
        [⟨f.name, f.ext, f.ftype, f.flag, chain.headD 0, bytesLastSector f.data.length⟩] }

/-- Files that are added one after the other. -/
def RsDos.addAll (disk : RsDos) (files : List File) : Option RsDos :=
  files.foldlM RsDos.addFile disk

/-! ## The image -/

/-- A directory entry. -/
def entryBytes (e : Entry) : Option Bytes := do
  let name ← encodeAscii (ljust e.name 8)
  let ext ← encodeAscii (ljust e.ext 3)
  return name.take 8 ++ (ext.take 3 ++ ([e.ftype, e.flag, UInt8.ofNat e.firstGran,
    UInt8.ofNat (e.bytesLast / 256 % 256), UInt8.ofNat (e.bytesLast % 256)] ++
      List.replicate 16 (0 : UInt8)))

/-- The loop of `build` over the slots that are left. -/
def writeSlots : Nat → Nat → List Entry → Bytes → Option Bytes
  | 0, _, _, image => some image
  | left + 1, i, [], image => writeSlots left (i + 1) [] (image.splice (entryOff i) [DIR_END])
  | left + 1, i, e :: entries, image => do
      let entry ← entryBytes e
      writeSlots left (i + 1) entries (image.splice (entryOff i) entry)

/-- `build`; a name that is not ASCII raises. -/
def RsDos.build (disk : RsDos) : Option Bytes :=
  writeSlots MAX_ENTRIES 0 disk.entries
    (disk.image.splice gmOff (disk.granMap.map UInt8.ofNat))

/-! ## The reader -/

/-- The walk along a chain: its granules and the count in the last marker. `guard` goes down from
`TOTAL_GRANS`. -/
def follow (granMap : Bytes) : Nat → Nat → Option (List Nat × Nat)
  | 0, _ => none
  | guard + 1, g => do
      let val ← granMap[g]?
      if GRAN_LAST_BASE ≤ val.toNat then return ([g], val.toNat - GRAN_LAST_BASE)
      else do
        let (rest, sectors) ← follow granMap guard val.toNat
        return (g :: rest, sectors)

/-- `data[:length]`; a negative length counts from the end. -/
def sliceTo (data : Bytes) (length : Int) : Bytes :=
  if 0 ≤ length then data.take length.toNat else data.take (data.length - (-length).toNat)

/-- A file of the directory. -/
def readEntry (image : Bytes) (eoff : Nat) : Option ((Name × Name) × Bytes) := do
  let name ← decodeAscii (image.slice eoff 8)
  let ext ← decodeAscii (image.slice (eoff + 8) 3)
  let firstGran ← image[eoff + 13]?
  let hi ← image[eoff + 14]?
  let lo ← image[eoff + 15]?
  let blast := hi.toNat <<< 8 ||| lo.toNat
  let (grans, sectors) ← follow (image.slice gmOff TOTAL_GRANS) TOTAL_GRANS firstGran.toNat
  let total := (grans.length - 1) * SECTORS_PER_GRAN + sectors
  let length : Int := ((total : Int) - 1) * SECTOR + blast
  let data := grans.flatMap fun g => image.slice (granOffset g) GRAN_BYTES
  return ((rstrip name, rstrip ext), sliceTo data length)

/-- The loop of `extract` over the slots that are left. -/
def readSlots (image : Bytes) : Nat → Nat → Option (List ((Name × Name) × Bytes))
  | 0, _ => some []
  | left + 1, i => do
      let first ← image[entryOff i]?
      if first = DIR_END then return []
      else if first = 0 then readSlots image left (i + 1)
      else do
        let f ← readEntry image (entryOff i)
        let rest ← readSlots image left (i + 1)
        return f :: rest

/-- `extract`. -/
def extract (image : Bytes) : Option (Dict (Name × Name) Bytes) :=
  (readSlots image MAX_ENTRIES 0).map fun l => Dict.update [] l

/-! ## The geometry -/

theorem granOffset_eq (g : Nat) : granOffset g = if g < 34 then g * 2304 else g * 2304 + 4608 := by
  simp only [granOffset, sectorOffset, granTrack, granFirstSector, SECTORS_PER_TRACK, SECTOR]
  split_ifs <;> omega

theorem gmOff_eq : gmOff = 78592 := rfl

theorem entryOff_eq (i : Nat) : entryOff i = 78848 + i * 32 := rfl

/-- No granule meets the directory track. -/
theorem granOffset_track (g : Nat) :
    granOffset g + GRAN_BYTES ≤ sectorOffset DIR_TRACK 1 ∨ sectorOffset (DIR_TRACK + 1) 1 ≤ granOffset g := by
  rw [granOffset_eq]
  simp only [GRAN_BYTES, sectorOffset, DIR_TRACK, SECTORS_PER_TRACK, SECTOR]
  split_ifs <;> omega

/-! ## Names -/

/-- A name as `rsdos_name` gives it: what is ASCII is a letter or a digit. -/
structure File.Sanitised (f : File) : Prop where
  name : f.name ≠ [] ∧ f.name.length ≤ 8
  ext : f.ext.length ≤ 3
  alnum : ∀ c ∈ f.name ++ f.ext, c.toNat < 128 → c.isAlphanum = true

theorem rsdosName_sanitised (upper : Name → Name) {isalnum : Char → Bool}
    (halnum : ∀ c : Char, c.toNat < 128 → isalnum c = c.isAlphanum) (base : Name) (data : Bytes) :
    File.Sanitised { name := (rsdosName upper isalnum base).1,
                     ext := (rsdosName upper isalnum base).2, data := data } := by
  have hclean : ∀ (s : Name) (n : Nat), ∀ c ∈ ((upper s).filter isalnum).take n, c.toNat < 128 →
      c.isAlphanum = true := by
    intro s n c hc hlt
    rw [← halnum c hlt]
    exact (List.mem_filter.mp (List.mem_of_mem_take hc)).2
  refine ⟨⟨?_, ?_⟩, List.length_take_le _ _, fun c hc hlt => ?_⟩
  · simp only [rsdosName]
    split_ifs with hempty
    · exact List.cons_ne_nil _ _
    · exact hempty
  · simp only [rsdosName]
    split_ifs
    · decide
    · exact List.length_take_le _ _
  · rcases List.mem_append.mp hc with hname | hext
    · simp only [rsdosName] at hname
      split_ifs at hname
      · simp only [List.mem_cons, List.not_mem_nil, or_false] at hname
        rcases hname with rfl | rfl | rfl | rfl <;> rfl
      · exact hclean _ _ c hname hlt
    · exact hclean _ _ c hext hlt

theorem File.Sanitised.isBlank {f : File} (h : f.Sanitised) :
    ∀ c ∈ f.name ++ f.ext, isBlank c = false :=
  isBlank_of_alnum h.alnum

/-! ## One chain -/

/-- What the map says of a granule, from the granules behind it. -/
def linkOf (rest : List Nat) (sectors : Nat) : Nat :=
  match rest with
  | [] => GRAN_LAST_BASE + sectors
  | nxt :: _ => nxt

/-- The map leads along a chain. -/
def Linked (granMap : List Nat) (sectors : Nat) : List Nat → Prop
  | [] => True
  | g :: rest => granMap[g]? = some (linkOf rest sectors) ∧ Linked granMap sectors rest

theorem linkChain_cons (g : Nat) (rest : List Nat) (s : Nat) (granMap : List Nat) :
    linkChain (g :: rest) s granMap = linkChain rest s (granMap.set g (linkOf rest s)) := by
  cases rest <;> rfl

theorem linkChain_spec {chain : List Nat} {s : Nat} {granMap : List Nat} (hnodup : chain.Nodup)
    (hbound : ∀ g ∈ chain, g < granMap.length) :
    (linkChain chain s granMap).length = granMap.length ∧
      (∀ g, g ∉ chain → (linkChain chain s granMap)[g]? = granMap[g]?) ∧
      Linked (linkChain chain s granMap) s chain := by
  induction chain generalizing granMap with
  | nil => exact ⟨rfl, fun _ _ => rfl, trivial⟩
  | cons g rest ih =>
      rw [List.nodup_cons] at hnodup
      rw [List.forall_mem_cons] at hbound
      rw [linkChain_cons]
      have hset : (granMap.set g (linkOf rest s)).length = granMap.length := List.length_set
      have hrest : ∀ h ∈ rest, h < (granMap.set g (linkOf rest s)).length := fun h hh =>
        hset.symm ▸ hbound.2 h hh
      obtain ⟨hlength, hframe, hlinked⟩ := ih hnodup.2 hrest
      refine ⟨hlength.trans hset, fun h hh => ?_, ?_, hlinked⟩
      · rw [List.mem_cons, not_or] at hh
        rw [hframe h hh.2, List.getElem?_set_ne fun heq => hh.1 heq.symm]
      · rw [hframe g hnodup.1, List.getElem?_set_self hbound.1]

theorem Linked.congr {granMap granMap' : List Nat} {s : Nat} {chain : List Nat}
    (h : Linked granMap s chain) (hsame : ∀ g ∈ chain, granMap'[g]? = granMap[g]?) :
    Linked granMap' s chain := by
  induction chain with
  | nil => trivial
  | cons g rest ih =>
      rw [List.forall_mem_cons] at hsame
      exact ⟨hsame.1.trans h.1, ih h.2 hsame.2⟩

/-- A granule of a chain is not free. -/
theorem Linked.ne_free {granMap : List Nat} {s g : Nat} {chain : List Nat}
    (h : Linked granMap s chain) (hs : s ≤ 9) (hbound : ∀ g ∈ chain, g < TOTAL_GRANS)
    (hg : g ∈ chain) : ∃ v, granMap[g]? = some v ∧ v < GRAN_FREE := by
  induction chain with
  | nil => cases hg
  | cons d rest ih =>
      rw [List.forall_mem_cons] at hbound
      rcases List.mem_cons.mp hg with rfl | hmem
      · refine ⟨_, h.1, ?_⟩
        cases rest with
        | nil =>
            simp only [linkOf, GRAN_LAST_BASE, GRAN_FREE]
            omega
        | cons nxt rest =>
            have hnext := hbound.2 nxt List.mem_cons_self
            simp only [linkOf, TOTAL_GRANS, GRAN_FREE] at hnext ⊢
            omega
      · exact ih h.2 hbound.2 hmem

theorem sectors_spec (n : Nat) :
    (1 ≤ sectorsInLast n ∧ sectorsInLast n ≤ 9) ∧
      (totalGrans n - 1) * SECTORS_PER_GRAN + sectorsInLast n = totalSectors n ∧
      (totalSectors n - 1) * SECTOR + bytesLastSector n = n ∧ 1 ≤ totalSectors n ∧
      bytesLastSector n < 65536 ∧
      totalGrans n = max 1 ((n + (GRAN_BYTES - 1)) / GRAN_BYTES) := by
  simp only [sectorsInLast, bytesLastSector, totalGrans, totalSectors, SECTOR, SECTORS_PER_GRAN,
    GRAN_BYTES]
  omega

theorem allocGrans_spec {granMap chain : List Nat} {count : Nat}
    (h : allocGrans granMap count = some chain) :
    chain.length = count ∧ chain.Nodup ∧
      ∀ g ∈ chain, g < TOTAL_GRANS ∧ granMap.getD g 0 = GRAN_FREE := by
  unfold allocGrans at h
  dsimp only at h
  split_ifs at h with hfew
  obtain rfl := Option.some.inj h
  refine ⟨?_, (List.nodup_range.filter _).sublist (List.take_sublist _ _), fun g hg => ?_⟩
  · rw [List.length_take]
    omega
  · have hmem := List.mem_filter.mp (List.mem_of_mem_take hg)
    exact ⟨List.mem_range.mp hmem.1, of_decide_eq_true hmem.2⟩

/-- The walk along a linked chain. -/
theorem follow_spec {granMap : Bytes} {s guard : Nat} {chain : List Nat} (hs : s ≤ 9)
    (hlinked : ∀ i g, chain[i]? = some g →
      granMap[g]? = some (UInt8.ofNat (linkOf (chain.drop (i + 1)) s)))
    (hbound : ∀ g ∈ chain, g < TOTAL_GRANS) (hne : chain ≠ []) (hguard : chain.length ≤ guard) :
    follow granMap guard (chain.headD 0) = some (chain, s) := by
  induction chain generalizing guard with
  | nil => exact absurd rfl hne
  | cons g rest ih =>
      rw [List.length_cons] at hguard
      obtain ⟨guard, rfl⟩ : ∃ n, guard = n + 1 := ⟨guard - 1, by omega⟩
      have hfirst : granMap[g]? = some (UInt8.ofNat (linkOf rest s)) := hlinked 0 g rfl
      rw [List.forall_mem_cons] at hbound
      rw [List.headD_cons, follow, hfirst]
      show (if GRAN_LAST_BASE ≤ (UInt8.ofNat (linkOf rest s)).toNat then _ else _) = _
      cases rest with
      | nil =>
          have hvalue : (UInt8.ofNat (linkOf [] s)).toNat = GRAN_LAST_BASE + s := by
            simp only [linkOf, GRAN_LAST_BASE, UInt8.toNat_ofNat']
            omega
          rw [if_pos (by rw [hvalue]; omega), hvalue, Nat.add_sub_cancel_left]
          rfl
      | cons nxt rest =>
          have hnext := hbound.2 nxt List.mem_cons_self
          simp only [TOTAL_GRANS] at hnext
          have hvalue : (UInt8.ofNat (linkOf (nxt :: rest) s)).toNat = nxt := by
            simp only [linkOf, UInt8.toNat_ofNat']
            omega
          have hrest := @ih guard (fun i g hg => hlinked (i + 1) g hg) hbound.2
            (List.cons_ne_nil _ _) (by omega)
          rw [List.headD_cons] at hrest
          rw [if_neg (by rw [hvalue, GRAN_LAST_BASE]; omega), hvalue, hrest]
          rfl

/-! ## One directory entry -/

theorem entryBytes_spec {e : Entry} {b : Bytes} (h : entryBytes e = some b) :
    b.length = ENTRY_LEN ∧ decodeAscii (b.slice 0 8) = some ((ljust e.name 8).take 8) ∧
      decodeAscii (b.slice 8 3) = some ((ljust e.ext 3).take 3) ∧
      b[13]? = some (UInt8.ofNat e.firstGran) ∧
      b[14]? = some (UInt8.ofNat (e.bytesLast / 256 % 256)) ∧
      b[15]? = some (UInt8.ofNat (e.bytesLast % 256)) ∧
      ∀ c, (ljust e.name 8)[0]? = some c → b[0]? = some (UInt8.ofNat c.toNat) := by
  simp only [entryBytes, Option.bind_eq_bind, Option.bind_eq_some_iff] at h
  obtain ⟨name, hname, ext, hext, hb⟩ := h
  obtain rfl := Option.some.inj hb
  obtain ⟨hnameLen, hnameText⟩ := decode_encode hname 8
  obtain ⟨hextLen, hextText⟩ := decode_encode hext 3
  have h8 : (name.take 8).length = 8 := by
    have := length_ljust e.name 8
    rw [List.length_take]
    omega
  have h3 : (ext.take 3).length = 3 := by
    have := length_ljust e.ext 3
    rw [List.length_take]
    omega
  generalize hrest : [e.ftype, e.flag, UInt8.ofNat e.firstGran, UInt8.ofNat (e.bytesLast / 256 % 256),
    UInt8.ofNat (e.bytesLast % 256)] ++ List.replicate 16 (0 : UInt8) = rest
  have hbehind : ∀ i, (name.take 8 ++ (ext.take 3 ++ rest))[11 + i]? = rest[i]? := by
    intro i
    rw [List.getElem?_append_right (by omega), List.getElem?_append_right (by omega)]
    congr 1
    omega
  refine ⟨?_, ?_, ?_, ?_, ?_, ?_, fun c hc => ?_⟩
  · rw [List.length_append, List.length_append, h8, h3, ← hrest]
    rfl
  · rw [← hnameText]
    congr 1
    show (name.take 8 ++ _).take 8 = name.take 8
    exact List.take_left' h8
  · rw [← hextText]
    congr 1
    show ((name.take 8 ++ (ext.take 3 ++ rest)).drop 8).take 3 = ext.take 3
    rw [List.drop_left' h8, List.take_left' h3]
  · exact (hbehind 2).trans (by rw [← hrest]; rfl)
  · exact (hbehind 3).trans (by rw [← hrest]; rfl)
  · exact (hbehind 4).trans (by rw [← hrest]; rfl)
  · rw [List.getElem?_append_left (by omega), List.getElem?_take_of_lt (by omega)]
    unfold encodeAscii at hname
    split_ifs at hname
    rw [← Option.some.inj hname, List.getElem?_map, hc]
    rfl

theorem entryBytes_isSome {e : Entry} :
    (entryBytes e).isSome = true ↔ ∀ c ∈ e.name ++ e.ext, c.toNat < 128 := by
  rw [List.forall_mem_append, ← @ljust_ascii e.name 8, ← @ljust_ascii e.ext 3, ← encodeAscii_isSome,
    ← encodeAscii_isSome, entryBytes]
  cases encodeAscii (ljust e.name 8) <;> cases encodeAscii (ljust e.ext 3) <;> simp

/-! ## The directory -/

theorem writeSlots_isSome {left i : Nat} {entries : List Entry} {image : Bytes}
    (hlen : entries.length ≤ left) :
    (writeSlots left i entries image).isSome = true ↔
      ∀ e ∈ entries, ∀ c ∈ e.name ++ e.ext, c.toNat < 128 := by
  induction left generalizing i entries image with
  | zero =>
      obtain rfl := List.length_eq_zero_iff.mp (Nat.le_zero.mp hlen)
      simp [writeSlots]
  | succ left ih =>
      cases entries with
      | nil => rw [writeSlots, ih (Nat.zero_le _)]
      | cons e entries =>
          rw [List.length_cons] at hlen
          rw [List.forall_mem_cons, ← entryBytes_isSome, writeSlots]
          cases hb : entryBytes e with
          | none => simp
          | some b =>
              simp only [Option.bind_eq_bind, Option.bind_some, Option.isSome_some, true_and]
              exact ih (by omega)

/-- Writing the directory from slot `i` on changes nothing before and behind it. The slots of the
entries hold them, and the others begin with the end. -/
theorem writeSlots_spec {left i : Nat} {entries : List Entry} {image image' : Bytes}
    (h : writeSlots left i entries image = some image') (hlen : image.length = IMAGE_SIZE)
    (hleft : i + left = MAX_ENTRIES) (hentries : entries.length ≤ left) :
    image'.length = IMAGE_SIZE ∧
      (∀ p, p < entryOff i ∨ entryOff MAX_ENTRIES ≤ p → image'[p]? = image[p]?) ∧
      (∀ k e, entries[k]? = some e → ∃ b, entryBytes e = some b ∧
        image'.slice (entryOff (i + k)) ENTRY_LEN = b) ∧
      ∀ k, entries.length ≤ k → i + k < MAX_ENTRIES →
        image'[entryOff (i + k)]? = some DIR_END := by
  have hroom : i ≤ MAX_ENTRIES → entryOff i ≤ IMAGE_SIZE := by
    simp only [entryOff_eq, IMAGE_SIZE, MAX_ENTRIES]
    omega
  induction left generalizing i entries image with
  | zero =>
      obtain rfl := Option.some.inj h
      obtain rfl := List.length_eq_zero_iff.mp (Nat.le_zero.mp hentries)
      refine ⟨hlen, fun _ _ => rfl, fun k e he => ?_, fun k _ hk => by omega⟩
      rw [List.getElem?_nil] at he
      cases he
  | succ left ih =>
      have hi : entryOff i ≤ image.length := hlen.symm ▸ hroom (by omega)
      have hnext : i + 1 ≤ MAX_ENTRIES → entryOff (i + 1) ≤ IMAGE_SIZE := by
        simp only [entryOff_eq, IMAGE_SIZE, MAX_ENTRIES]
        omega
      have hstep : entryOff (i + 1) = entryOff i + ENTRY_LEN := by
        simp only [entryOff_eq, ENTRY_LEN]
        omega
      have hend : entryOff i + ENTRY_LEN ≤ IMAGE_SIZE ∧ entryOff i + ENTRY_LEN ≤ entryOff MAX_ENTRIES := by
        simp only [MAX_ENTRIES] at hleft
        simp only [entryOff_eq, IMAGE_SIZE, MAX_ENTRIES, ENTRY_LEN]
        omega
      have hpos : 1 ≤ ENTRY_LEN := by decide
      cases entries with
      | nil =>
          rw [writeSlots] at h
          have hsplice : (image.splice (entryOff i) [DIR_END]).length = IMAGE_SIZE := by
            rw [List.length_splice, hlen]
            rw [List.length_singleton, hlen]
            omega
          obtain ⟨hlength, hframe, -, hslots⟩ := ih h hsplice (by omega) (Nat.zero_le _) hnext
          refine ⟨hlength, fun p hp => ?_, fun k e he => ?_, fun k _ hk => ?_⟩
          · rw [hframe p (by omega), List.getElem?_splice hi, List.length_singleton, if_neg (by omega)]
          · rw [List.getElem?_nil] at he
            cases he
          · cases k with
            | zero =>
                rw [Nat.add_zero, hframe _ (by omega), List.getElem?_splice hi,
                  List.length_singleton, if_pos (by omega), Nat.sub_self]
                rfl
            | succ k =>
                rw [show i + (k + 1) = i + 1 + k by omega]
                exact hslots k (Nat.zero_le _) (by omega)
      | cons e entries =>
          rw [List.length_cons] at hentries
          simp only [writeSlots, Option.bind_eq_bind, Option.bind_eq_some_iff] at h
          obtain ⟨b, hb, hrest⟩ := h
          obtain ⟨hsize, -⟩ := entryBytes_spec hb
          have hsplice : (image.splice (entryOff i) b).length = IMAGE_SIZE := by
            rw [List.length_splice, hlen]
            rw [hsize, hlen]
            omega
          obtain ⟨hlength, hframe, hheld, hslots⟩ := ih hrest hsplice (by omega) (by omega) hnext
          refine ⟨hlength, fun p hp => ?_, fun k e' he => ?_, fun k hk hk' => ?_⟩
          · rw [hframe p (by omega), List.getElem?_splice hi, hsize, if_neg (by omega)]
          · cases k with
            | zero =>
                obtain rfl := Option.some.inj he
                refine ⟨b, hb, ?_⟩
                rw [Nat.add_zero, List.slice_congr fun p hlo hhi => hframe p (.inl (by omega))]
                exact List.slice_splice_self hi hsize
            | succ k =>
                rw [show i + (k + 1) = i + 1 + k by omega]
                exact hheld k e' he
          · rw [List.length_cons] at hk
            obtain ⟨k, rfl⟩ : ∃ m, k = m + 1 := ⟨k - 1, by omega⟩
            rw [show i + (k + 1) = i + 1 + k by omega]
            exact hslots k (by omega) (by omega)

/-! ## All files -/

/-- A file in an image and its map: the granules with the data, and the links along them. -/
structure Placed (image : Bytes) (granMap : List Nat) (data : Bytes) (chain : List Nat) : Prop where
  fits : granUnits.Fits chain data.length
  length : chain.length = totalGrans data.length
  stored : granUnits.Stored image chain data
  linked : Linked granMap (sectorsInLast data.length) chain

/-- The entry of a file, with the chain it was given. -/
def File.entry (f : File) (chain : List Nat) : Entry :=
  ⟨f.name, f.ext, f.ftype, f.flag, chain.headD 0, bytesLastSector f.data.length⟩

/-- What `add_file` keeps. -/
structure Inv (disk : RsDos) (files : List File) (chains : List (List Nat)) : Prop where
  length : disk.image.length = IMAGE_SIZE
  map : disk.granMap.length = TOTAL_GRANS
  entries : disk.entries = List.zipWith File.entry files chains
  count : chains.length = files.length ∧ files.length ≤ MAX_ENTRIES
  disjoint : chains.flatten.Nodup
  bound : ∀ g ∈ chains.flatten, g < TOTAL_GRANS
  free : ∀ g < TOTAL_GRANS, disk.granMap[g]? = some GRAN_FREE ↔ g ∉ chains.flatten
  small : ∀ v ∈ disk.granMap, v < 256
  placed : ∀ (k : Nat) (f : File) (chain : List Nat), files[k]? = some f →
    chains[k]? = some chain → Placed disk.image disk.granMap f.data chain

theorem inv_new : Inv new [] [] := by
  refine ⟨List.length_replicate, List.length_replicate, rfl, by decide, List.nodup_nil,
    fun g hg => absurd hg List.not_mem_nil, fun g hg => ?_, fun v hv => ?_, fun k f chain hf => ?_⟩
  · rw [new, List.getElem?_replicate, if_pos hg]
    simp
  · rw [List.eq_of_mem_replicate hv]
    decide
  · rw [List.getElem?_nil] at hf
    cases hf

/-- One more file. -/
theorem Inv.addFile {disk disk' : RsDos} {files : List File} {chains : List (List Nat)} {f : File}
    (hinv : Inv disk files chains) (h : disk.addFile f = some disk') :
    ∃ chain, Inv disk' (files ++ [f]) (chains ++ [chain]) := by
  obtain ⟨hlen, hmap, hentries, ⟨hcount, hfiles⟩, hdisjoint, hbound, hfree, hsmall, hplaced⟩ := hinv
  unfold RsDos.addFile at h
  split_ifs at h with hslots
  simp only [Option.bind_eq_bind, Option.bind_eq_some_iff] at h
  obtain ⟨chain, halloc, heq⟩ := h
  obtain rfl := Option.some.inj heq
  obtain ⟨hsize, hnodup, hnew⟩ := allocGrans_spec halloc
  obtain ⟨⟨-, hs⟩, -, -, -, -, hneed⟩ := sectors_spec f.data.length
  have hchain : ∀ g ∈ chain, g < TOTAL_GRANS := fun g hg => (hnew g hg).1
  have hfresh : ∀ g ∈ chain, g ∉ chains.flatten := by
    intro g hg
    obtain ⟨hlt, hgetD⟩ := hnew g hg
    rw [← hfree g hlt]
    rw [List.getD_eq_getElem?_getD, List.getElem?_eq_getElem (by rw [hmap]; exact hlt),
      Option.getD_some] at hgetD
    rw [List.getElem?_eq_getElem (by rw [hmap]; exact hlt), hgetD]
  obtain ⟨himage, hframe, hstored⟩ := granUnits.write_spec f.data hlen hnodup hchain
  obtain ⟨hmap', hmapFrame, hlinked⟩ := linkChain_spec (s := sectorsInLast f.data.length) hnodup
    fun g hg => hmap.symm ▸ hchain g hg
  generalize granUnits.write chain f.data disk.image = image at *
  generalize linkChain chain (sectorsInLast f.data.length) disk.granMap = granMap at *
  have hmem : ∀ g, g ∈ (chains ++ [chain]).flatten ↔ g ∈ chains.flatten ∨ g ∈ chain := by
    intro g
    rw [List.flatten_append, List.flatten_singleton, List.mem_append]
  have hslot : disk.entries.length = files.length := by
    rw [hentries, List.length_zipWith, hcount, Nat.min_self]
  refine ⟨chain, himage, hmap'.trans hmap, ?_, ⟨?_, ?_⟩, ?_, ?_, fun g hg => ?_, fun v hv => ?_,
    fun k f' chain' hf hc => ?_⟩
  · show disk.entries ++ [File.entry f chain] = _
    rw [List.zipWith_append hcount.symm, ← hentries]
    rfl
  · rw [List.length_append, List.length_append, hcount, List.length_singleton,
      List.length_singleton]
  · rw [List.length_append, List.length_singleton]
    omega
  · rw [List.flatten_append, List.flatten_singleton, List.nodup_append]
    exact ⟨hdisjoint, hnodup, fun a ha b hb heq => hfresh b hb (heq ▸ ha)⟩
  · intro g hg
    exact ((hmem g).mp hg).elim (hbound g) (hchain g)
  · rw [hmem, not_or]
    by_cases hg' : g ∈ chain
    · obtain ⟨v, hv, hlt⟩ := hlinked.ne_free hs hchain hg'
      refine ⟨fun hfree' => ?_, fun hout => absurd hg' hout.2⟩
      obtain rfl := Option.some.inj (hv.symm.trans hfree')
      exact absurd hlt (Nat.lt_irrefl _)
    · rw [hmapFrame g hg', hfree g hg, and_iff_left hg']
  · obtain ⟨g, hg⟩ := List.mem_iff_getElem?.mp hv
    by_cases hg' : g ∈ chain
    · obtain ⟨w, hw, hlt⟩ := hlinked.ne_free hs hchain hg'
      obtain rfl := Option.some.inj (hg.symm.trans hw)
      exact hlt.trans (by decide)
    · rw [hmapFrame g hg'] at hg
      exact hsmall v (List.mem_of_getElem? hg)
  · rcases List.getElem?_snoc hf with ⟨hk, hf'⟩ | ⟨hk, rfl⟩
    · rw [List.getElem?_append_left (by omega)] at hc
      obtain ⟨hfits, hlength, hold, holdLinked⟩ := hplaced k f' chain' hf' hc
      have hother : ∀ g ∈ chain', g ∉ chain := fun g hg hg' =>
        hfresh g hg' (mem_flatten_of_getElem? hc hg)
      refine ⟨hfits, hlength, hold.congr fun u hu i hlo hhi => ?_,
        holdLinked.congr fun g hg => hmapFrame g (hother g hg)⟩
      exact hframe i fun v hv => ImageUnits.outside_of_ne (hchain v hv)
        (hbound u (mem_flatten_of_getElem? hc hu)) (fun heq => hother u hu (heq ▸ hv)) hlo hhi
    · rw [hk, ← hcount, List.getElem?_concat_length] at hc
      obtain rfl := Option.some.inj hc
      exact ⟨ImageUnits.fits_of_length (by decide) (hsize.trans hneed), hsize, hstored, hlinked⟩

theorem Inv.addAll {disk disk' : RsDos} {files more : List File} {chains : List (List Nat)}
    (hinv : Inv disk files chains) (h : disk.addAll more = some disk') :
    ∃ chains', Inv disk' (files ++ more) chains' := by
  induction more generalizing disk files chains with
  | nil =>
      obtain rfl := Option.some.inj h
      rw [List.append_nil]
      exact ⟨chains, hinv⟩
  | cons f more ih =>
      rw [RsDos.addAll, List.foldlM_cons, Option.bind_eq_bind, Option.bind_eq_some_iff] at h
      obtain ⟨disk₁, hfile, hrest⟩ := h
      obtain ⟨chain, hinv₁⟩ := hinv.addFile hfile
      obtain ⟨chains', hdone⟩ := ih hinv₁ hrest
      rw [List.append_assoc] at hdone
      exact ⟨chains', hdone⟩

/-! ## Reading the image back -/

/-- The key of a file in `build_tree`. -/
def File.key (f : File) : Name × Name := (f.name, f.ext)

/-- The marker of a granule in an image. -/
def marker (raw : Bytes) (g : Nat) : Option UInt8 := raw[gmOff + g]?

/-- A volume that was built, seen from its image. -/
structure Holds (files : List File) (chains : List (List Nat)) (raw : Bytes) : Prop where
  /-- The chains are disjoint. -/
  disjoint : chains.flatten.Nodup
  bound : ∀ g ∈ chains.flatten, g < TOTAL_GRANS
  /-- The granules lie in the image, off the directory track and apart from each other. -/
  inside : ∀ g < TOTAL_GRANS, granOffset g + GRAN_BYTES ≤ raw.length
  track : ∀ g < TOTAL_GRANS, granOffset g + GRAN_BYTES ≤ sectorOffset DIR_TRACK 1 ∨
    sectorOffset (DIR_TRACK + 1) 1 ≤ granOffset g
  apart : ∀ g < TOTAL_GRANS, ∀ h < TOTAL_GRANS, g ≠ h →
    granOffset g + GRAN_BYTES ≤ granOffset h ∨ granOffset h + GRAN_BYTES ≤ granOffset g
  /-- The map is free for the granules in no chain. -/
  free : ∀ g < TOTAL_GRANS, marker raw g = some 0xff ↔ g ∉ chains.flatten
  /-- There is a chain for each file, which begins where its entry says. The markers lead along it
  and the last one counts the sectors of the last granule; the data are in its granules. -/
  chain : chains.length = files.length ∧ ∀ (k : Nat) (f : File) (chain : List Nat),
    files[k]? = some f → chains[k]? = some chain →
      granUnits.Fits chain f.data.length ∧
      raw[entryOff k + 13]? = some (UInt8.ofNat (chain.headD 0)) ∧
      (∀ i g, chain[i]? = some g → marker raw g
        = some (UInt8.ofNat (linkOf (chain.drop (i + 1)) (sectorsInLast f.data.length)))) ∧
      (1 ≤ sectorsInLast f.data.length ∧ sectorsInLast f.data.length ≤ SECTORS_PER_GRAN) ∧
      (chain.length - 1) * SECTORS_PER_GRAN + sectorsInLast f.data.length
        = totalSectors f.data.length ∧
      granUnits.Stored raw chain f.data
  /-- The reader returns the files. -/
  extract : extract raw = some (files.map fun f => (f.key, f.data))

theorem Linked.getElem? {granMap : List Nat} {s : Nat} {chain : List Nat} (h : Linked granMap s chain)
    {i g : Nat} (hg : chain[i]? = some g) :
    granMap[g]? = some (linkOf (chain.drop (i + 1)) s) := by
  induction chain generalizing i with
  | nil => cases hg
  | cons d rest ih =>
      cases i with
      | zero =>
          obtain rfl := Option.some.inj hg
          exact h.1
      | succ i => exact ih h.2 hg

/-- The loop over the slots: behind the files there is an end. -/
theorem readSlots_spec {raw : Bytes} {left slot : Nat} {files : List ((Name × Name) × Bytes)}
    (hleft : files.length ≤ left)
    (hfiles : ∀ k f, files[k]? = some f →
      (∃ b, raw[entryOff (slot + k)]? = some b ∧ b ≠ DIR_END ∧ b ≠ 0) ∧
        readEntry raw (entryOff (slot + k)) = some f)
    (hend : files.length < left → raw[entryOff (slot + files.length)]? = some DIR_END) :
    readSlots raw left slot = some files := by
  refine @readSlots_of_steps _ (readSlots raw) (fun slot f =>
    (∃ b, raw[entryOff slot]? = some b ∧ b ≠ DIR_END ∧ b ≠ 0) ∧
      readEntry raw (entryOff slot) = some f) (fun slot => raw[entryOff slot]? = some DIR_END)
    (fun slot => rfl) (fun left slot hmode => ?_) (fun left slot f rest hf hrest => ?_)
    left slot files hleft hfiles hend
  · rw [readSlots, hmode]
    rfl
  · obtain ⟨⟨b, hb, hend', hdeleted⟩, hread⟩ := hf
    simp only [readSlots, hb, Option.bind_eq_bind, Option.bind_some, if_neg hend',
      if_neg hdeleted, hread, hrest]
    rfl

/-- A file whose name is ASCII is read back from its slot. -/
theorem readEntry_spec {raw b : Bytes} {eoff : Nat} {f : File} {chain : List Nat}
    (hsan : f.Sanitised) (hb : entryBytes (f.entry chain) = some b)
    (hslice : raw.slice eoff ENTRY_LEN = b) (hlen : raw.length = IMAGE_SIZE)
    (hfits : granUnits.Fits chain f.data.length) (hlength : chain.length = totalGrans f.data.length)
    (hbound : ∀ g ∈ chain, g < TOTAL_GRANS) (hcount : chain.length ≤ TOTAL_GRANS)
    (hmarkers : ∀ i g, chain[i]? = some g → marker raw g
      = some (UInt8.ofNat (linkOf (chain.drop (i + 1)) (sectorsInLast f.data.length))))
    (hstored : granUnits.Stored raw chain f.data) :
    (∃ c, raw[eoff]? = some c ∧ c ≠ DIR_END ∧ c ≠ 0) ∧
      readEntry raw eoff = some (f.key, f.data) := by
  obtain ⟨-, hname, hext, hfirst, hhi, hlo, hchar⟩ := entryBytes_spec hb
  obtain ⟨⟨-, hs⟩, htotal, hbytes, hpos, hlast, -⟩ := sectors_spec f.data.length
  have hascii := entryBytes_isSome.mp (Option.isSome_iff_exists.mpr ⟨b, hb⟩)
  have hblank := hsan.isBlank
  simp only [ENTRY_LEN] at hslice
  refine ⟨?_, ?_⟩
  · obtain ⟨c, rest, hcons⟩ := List.exists_cons_of_ne_nil hsan.name.1
    have hmem : c ∈ f.name ++ f.ext := by
      rw [hcons]
      exact List.mem_append_left _ List.mem_cons_self
    obtain ⟨hlo48, hhi122⟩ := isAlphanum_bounds (hsan.alnum c hmem (hascii c hmem))
    have hc : b[0]? = some (UInt8.ofNat c.toNat) := hchar c (by
      show (ljust f.name 8)[0]? = some c
      rw [hcons]
      rfl)
    have hvalue : (UInt8.ofNat c.toNat).toNat = c.toNat := by
      rw [UInt8.toNat_ofNat']
      omega
    have hat := getElem?_of_window hslice (show 0 < 32 by omega)
    rw [Nat.add_zero] at hat
    refine ⟨_, hat.trans hc, fun heq => ?_, fun heq => ?_⟩
    · have hcode := hvalue.symm.trans (congrArg UInt8.toNat heq)
      rw [hcode] at hhi122
      exact absurd hhi122 (by decide)
    · have hcode := hvalue.symm.trans (congrArg UInt8.toNat heq)
      rw [hcode] at hlo48
      exact absurd hlo48 (by decide)
  · have hhead : chain.headD 0 < TOTAL_GRANS := by
      cases hchain : chain with
      | nil => decide
      | cons g rest => exact hbound g (by rw [hchain]; exact List.mem_cons_self)
    have hstart : (UInt8.ofNat (chain.headD 0)).toNat = chain.headD 0 := by
      simp only [TOTAL_GRANS] at hhead
      rw [UInt8.toNat_ofNat']
      omega
    have hmap : ∀ i g, chain[i]? = some g → (raw.slice gmOff TOTAL_GRANS)[g]?
        = some (UInt8.ofNat (linkOf (chain.drop (i + 1)) (sectorsInLast f.data.length))) := by
      intro i g hg
      rw [List.getElem?_slice, if_pos (hbound g (List.mem_of_getElem? hg))]
      exact hmarkers i g hg
    have hfollow := follow_spec hs hmap hbound hfits.ne_nil hcount
    have hnameOf : rstrip ((ljust f.name 8).take 8) = f.name := fieldName_of_fits hsan.name.2
      fun c hc => hblank c (List.mem_append_left _ hc)
    have hextOf : rstrip ((ljust f.ext 3).take 3) = f.ext := fieldName_of_fits hsan.ext
      fun c hc => hblank c (List.mem_append_right _ hc)
    have hblast : (UInt8.ofNat (bytesLastSector f.data.length / 256 % 256)).toNat <<< 8 |||
        (UInt8.ofNat (bytesLastSector f.data.length % 256)).toNat = bytesLastSector f.data.length := by
      rw [Nat.or_comm]
      exact word_or hlast
    have htotal' : (chain.length - 1) * SECTORS_PER_GRAN + sectorsInLast f.data.length
        = totalSectors f.data.length := by
      rw [hlength]
      exact htotal
    have hlength' : ((totalSectors f.data.length : Int) - 1) * SECTOR
        + (bytesLastSector f.data.length : Int) = (f.data.length : Int) := by
      obtain ⟨m, hm⟩ : ∃ m, totalSectors f.data.length = m + 1 :=
        ⟨totalSectors f.data.length - 1, by omega⟩
      rw [hm, Nat.add_sub_cancel] at hbytes
      simp only [SECTOR] at hbytes ⊢
      rw [hm]
      push_cast
      omega
    have hname0 : raw.slice eoff 8 = b.slice 0 8 := by
      have hwindow := slice_of_window hslice (show 0 + 8 ≤ 32 by omega)
      rwa [Nat.add_zero] at hwindow
    simp only [readEntry, hname0, hname, slice_of_window hslice (show 8 + 3 ≤ 32 by omega), hext,
      getElem?_of_window hslice (show 13 < 32 by omega), hfirst,
      getElem?_of_window hslice (show 14 < 32 by omega), hhi,
      getElem?_of_window hslice (show 15 < 32 by omega), hlo, Option.bind_eq_bind, Option.bind_some]
    show (follow (raw.slice gmOff TOTAL_GRANS) TOTAL_GRANS (UInt8.ofNat (chain.headD 0)).toNat).bind _
      = _
    rw [hstart, hfollow]
    show some ((rstrip ((ljust f.name 8).take 8), rstrip ((ljust f.ext 3).take 3)), sliceTo _ _) = _
    rw [hnameOf, hextOf, htotal', show (f.entry chain).bytesLast = bytesLastSector f.data.length
      from rfl, hblast, hlength', sliceTo, if_pos (Int.natCast_nonneg _), Int.toNat_natCast]
    exact congrArg (fun d => some (f.key, d)) (hstored.read hfits)

/-- What `build` leaves in the image. -/
theorem build_spec {disk : RsDos} {raw : Bytes} (h : disk.build = some raw)
    (hlen : disk.image.length = IMAGE_SIZE) (hmap : disk.granMap.length = TOTAL_GRANS)
    (hentries : disk.entries.length ≤ MAX_ENTRIES) :
    raw.length = IMAGE_SIZE ∧
      (∀ p, p < gmOff ∨ entryOff MAX_ENTRIES ≤ p → raw[p]? = disk.image[p]?) ∧
      (∀ g < TOTAL_GRANS, marker raw g = disk.granMap[g]?.map UInt8.ofNat) ∧
      (∀ k e, disk.entries[k]? = some e → ∃ b, entryBytes e = some b ∧
        raw.slice (entryOff k) ENTRY_LEN = b) ∧
      ∀ k, disk.entries.length ≤ k → k < MAX_ENTRIES → raw[entryOff k]? = some DIR_END := by
  have hgm : gmOff ≤ disk.image.length := by
    rw [hlen]
    decide
  have hsize : (disk.granMap.map UInt8.ofNat).length = TOTAL_GRANS := by
    rw [List.length_map, hmap]
  have hsplice : (disk.image.splice gmOff (disk.granMap.map UInt8.ofNat)).length = IMAGE_SIZE := by
    rw [List.length_splice, hlen]
    rw [hsize, hlen]
    decide
  obtain ⟨hlength, hframe, hheld, hslots⟩ := writeSlots_spec h hsplice (Nat.zero_add _) hentries
  simp only [Nat.zero_add] at hheld hslots
  have hbefore : gmOff + TOTAL_GRANS ≤ entryOff 0 := by decide
  have hbehind : entryOff 0 ≤ entryOff MAX_ENTRIES := by decide
  refine ⟨hlength, fun p hp => ?_, fun g hg => ?_, hheld, hslots⟩
  · rw [hframe p (by omega), List.getElem?_splice hgm, hsize, if_neg (by omega)]
  · rw [marker, hframe _ (.inl (by omega)), List.getElem?_splice hgm, hsize, if_pos (by omega),
      Nat.add_sub_cancel_left, List.getElem?_map]

/-- The files of a volume that was built. -/
theorem Inv.holds {disk : RsDos} {raw : Bytes} {files : List File} {chains : List (List Nat)}
    (hinv : Inv disk files chains) (hsan : ∀ f ∈ files, f.Sanitised)
    (hkeys : (files.map File.key).Nodup) (h : disk.build = some raw) : Holds files chains raw := by
  obtain ⟨hlen, hmap, hentries, ⟨hcount, hfiles⟩, hdisjoint, hbound, hfree, hsmall, hplaced⟩ := hinv
  have hnumber : disk.entries.length = files.length := by
    rw [hentries, List.length_zipWith, hcount, Nat.min_self]
  obtain ⟨hlength, hframe, hmarker, hheld, hslots⟩ := build_spec h hlen hmap (by omega)
  have hinside : ∀ g < TOTAL_GRANS, granOffset g + GRAN_BYTES ≤ IMAGE_SIZE := fun g hg =>
    granUnits.room hg
  have hside : ∀ g i, granOffset g ≤ i → i < granOffset g + GRAN_BYTES →
      i < gmOff ∨ entryOff MAX_ENTRIES ≤ i := by
    intro g i hlo hhi
    have htrack := granOffset_track g
    have hfirst : sectorOffset DIR_TRACK 1 ≤ gmOff := by decide
    have hlast : entryOff MAX_ENTRIES ≤ sectorOffset (DIR_TRACK + 1) 1 := by decide
    omega
  have hchain : ∀ (k : Nat) (f : File) (chain : List Nat), files[k]? = some f →
      chains[k]? = some chain → granUnits.Stored raw chain f.data ∧
      (∀ i g, chain[i]? = some g → marker raw g
        = some (UInt8.ofNat (linkOf (chain.drop (i + 1)) (sectorsInLast f.data.length)))) ∧
      chain.length ≤ TOTAL_GRANS := by
    intro k f chain hf hc
    have hp := hplaced k f chain hf hc
    refine ⟨hp.stored.congr fun u _ i hlo hhi => hframe i (hside u i hlo hhi), fun i g hg => ?_, ?_⟩
    · have hlt := hbound g (mem_flatten_of_getElem? hc (List.mem_of_getElem? hg))
      rw [hmarker g hlt, hp.linked.getElem? hg]
      rfl
    · have hsub : chain.Nodup := (List.nodup_flatten.mp hdisjoint).1 chain (List.mem_of_getElem? hc)
      have hle := (hsub.subperm fun g hg => List.mem_range.mpr
        (hbound g (mem_flatten_of_getElem? hc hg))).length_le
      rwa [List.length_range] at hle
  have hentry : ∀ (k : Nat) (f : File) (chain : List Nat), files[k]? = some f →
      chains[k]? = some chain → ∃ b, entryBytes (f.entry chain) = some b ∧
        raw.slice (entryOff k) ENTRY_LEN = b := by
    intro k f chain hf hc
    apply hheld
    rw [hentries, List.getElem?_zipWith, hf, hc]
  have hread : readSlots raw MAX_ENTRIES 0 = some (files.map fun f => (f.key, f.data)) := by
    apply readSlots_spec
    · rw [List.length_map]
      exact hfiles
    · intro k g hg
      rw [List.getElem?_map, Option.map_eq_some_iff] at hg
      obtain ⟨f, hf, rfl⟩ := hg
      have hk := (List.getElem?_eq_some_iff.mp hf).1
      have hc : chains[k]? = some chains[k] := List.getElem?_eq_getElem (by omega)
      obtain ⟨b, hb, hslice⟩ := hentry k f _ hf hc
      obtain ⟨hstored, hmarkers, hsmallChain⟩ := hchain k f _ hf hc
      have hp := hplaced k f _ hf hc
      rw [Nat.zero_add]
      exact readEntry_spec (hsan f (List.mem_of_getElem? hf)) hb hslice hlength hp.fits hp.length
        (fun g hg => hbound g (mem_flatten_of_getElem? hc hg)) hsmallChain hmarkers hstored
    · intro hlt
      rw [List.length_map] at hlt ⊢
      rw [Nat.zero_add]
      exact hslots _ (by omega) hlt
  refine ⟨hdisjoint, hbound, fun g hg => hlength.symm ▸ hinside g hg,
    fun g _ => granOffset_track g, fun g hg h hh hne => granUnits.apart hg hh hne, fun g hg => ?_,
    ⟨hcount, fun k f chain hf hc => ?_⟩, ?_⟩
  · rw [hmarker g hg, ← hfree g hg, List.getElem?_eq_getElem (by rw [hmap]; exact hg),
      Option.map_some, Option.some.injEq, Option.some.injEq]
    have hlt := hsmall _ (List.getElem_mem (l := disk.granMap) (n := g) (by rw [hmap]; exact hg))
    constructor
    · intro heq
      have hvalue := congrArg UInt8.toNat heq
      rw [UInt8.toNat_ofNat', Nat.mod_eq_of_lt hlt] at hvalue
      exact hvalue
    · intro heq
      rw [heq]
      rfl
  · obtain ⟨hstored, hmarkers, -⟩ := hchain k f chain hf hc
    obtain ⟨b, hb, hslice⟩ := hentry k f chain hf hc
    obtain ⟨-, -, -, hfirst, -⟩ := entryBytes_spec hb
    have hp := hplaced k f chain hf hc
    obtain ⟨hs, htotal, -⟩ := sectors_spec f.data.length
    simp only [ENTRY_LEN] at hslice
    refine ⟨hp.fits, (getElem?_of_window hslice (by omega)).trans hfirst, hmarkers, hs, ?_, hstored⟩
    rw [hp.length]
    exact htotal
  · rw [extract, hread, Option.map_some, Dict.update_of_nodup, List.nil_append]
    rw [List.nil_append, Dict.keys, List.map_map]
    exact hkeys

/-- `build` raises on a name that is not ASCII, and on nothing else. -/
theorem Inv.build_isSome {disk : RsDos} {files : List File} {chains : List (List Nat)}
    (hinv : Inv disk files chains) :
    disk.build.isSome = true ↔ ∀ f ∈ files, ∀ c ∈ f.name ++ f.ext, c.toNat < 128 := by
  have hentries := hinv.entries
  obtain ⟨hcount, hfiles⟩ := hinv.count
  have hnumber : disk.entries.length = files.length := by
    rw [hentries, List.length_zipWith, hcount, Nat.min_self]
  rw [RsDos.build, writeSlots_isSome (by omega), hentries]
  constructor
  · intro h f hf
    obtain ⟨k, hk⟩ := List.mem_iff_getElem?.mp hf
    have hlt := (List.getElem?_eq_some_iff.mp hk).1
    have hc : chains[k]? = some chains[k] := List.getElem?_eq_getElem (by omega)
    refine h (f.entry chains[k]) (List.mem_of_getElem? (i := k) ?_)
    rw [List.getElem?_zipWith, hk, hc]
  · intro h e he
    obtain ⟨k, hk⟩ := List.mem_iff_getElem?.mp he
    rw [List.getElem?_zipWith_eq_some] at hk
    obtain ⟨f, chain, hf, -, rfl⟩ := hk
    exact h f (List.mem_of_getElem? hf)

/-- **RS-DOS volumes**: files with distinct sanitised names that `add_file` accepts are built into
a volume that holds them exactly when the names are ASCII. -/
theorem rsdos_iff (files : List File) {disk : RsDos} (hsan : ∀ f ∈ files, f.Sanitised)
    (hkeys : (files.map File.key).Nodup) (hadd : new.addAll files = some disk) :
    (∃ raw chains, disk.build = some raw ∧ Holds files chains raw) ↔
      ∀ f ∈ files, ∀ c ∈ f.name ++ f.ext, c.toNat < 128 := by
  obtain ⟨chains, hinv⟩ := inv_new.addAll hadd
  rw [List.nil_append] at hinv
  rw [← hinv.build_isSome]
  constructor
  · rintro ⟨raw, -, hbuild, -⟩
    exact Option.isSome_iff_exists.mpr ⟨raw, hbuild⟩
  · intro hsome
    obtain ⟨raw, hbuild⟩ := Option.isSome_iff_exists.mp hsome
    exact ⟨raw, chains, hbuild, hinv.holds hsan hkeys hbuild⟩

/-- A file of one granule and one byte. -/
def sample : File := { name := ['A'], ext := ['B'], data := List.replicate 2305 7 }

theorem sample_accepted (name : Name) (data : Bytes) (h : totalGrans data.length ≤ TOTAL_GRANS) :
    ∃ disk, new.addAll [{ name := name, ext := ['B'], data := data }] = some disk := by
  have hfree : ((List.range TOTAL_GRANS).filter fun g => new.granMap.getD g 0 = GRAN_FREE).length
      = TOTAL_GRANS := by
    decide +kernel
  have halloc : allocGrans new.granMap (totalGrans data.length) = some _ :=
    if_neg (by rw [hfree]; omega)
  rw [RsDos.addAll, List.foldlM_cons, RsDos.addFile, if_neg (by decide), halloc]
  exact ⟨_, rfl⟩

theorem rsdos_sample : ∃ disk, new.addAll [sample] = some disk ∧
    ((∃ raw chains, disk.build = some raw ∧ Holds [sample] chains raw) ↔
      ∀ f ∈ [sample], ∀ c ∈ f.name ++ f.ext, c.toNat < 128) := by
  obtain ⟨disk, hdisk⟩ := sample_accepted ['A'] (List.replicate 2305 7) (by
    rw [List.length_replicate]
    decide)
  refine ⟨disk, hdisk, rsdos_iff [sample] (List.forall_mem_singleton.mpr ?_)
    (List.nodup_singleton _) hdisk⟩
  refine ⟨⟨List.cons_ne_nil _ _, by decide⟩, by decide, fun c hc _ => ?_⟩
  simp only [sample, List.cons_append, List.nil_append, List.mem_cons, List.not_mem_nil, or_false] at hc
  rcases hc with rfl | rfl <;> rfl

/-- A name that is sanitised and not ASCII. -/
def accented : File := { name := ['É'], ext := ['B'], data := [] }

theorem accented_not_built : ∃ disk, accented.Sanitised ∧ new.addAll [accented] = some disk ∧
    ¬∃ raw chains, disk.build = some raw ∧ Holds [accented] chains raw := by
  obtain ⟨disk, hdisk⟩ := sample_accepted ['É'] [] (by decide)
  refine ⟨disk, ⟨⟨List.cons_ne_nil _ _, by decide⟩, by decide, fun c hc hlt => ?_⟩, hdisk, ?_⟩
  · simp only [accented, List.cons_append, List.nil_append, List.mem_cons, List.not_mem_nil,
      or_false] at hc
    rcases hc with rfl | rfl
    · exact absurd hlt (by decide)
    · rfl
  · rintro ⟨raw, -, hbuild, -⟩
    obtain ⟨chains, hinv⟩ := inv_new.addAll hdisk
    have hascii := hinv.build_isSome.mp (Option.isSome_iff_exists.mpr ⟨raw, hbuild⟩)
    exact absurd (hascii accented List.mem_cons_self 'É' List.mem_cons_self) (by decide)

end Mountin.CocoRsDos
