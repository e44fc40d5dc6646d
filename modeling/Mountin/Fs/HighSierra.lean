import Mountin.Basic.Splice
import Mountin.Basic.Raising
import Mountin.Basic.Worklist
import Mountin.Build.Metadata

set_option autoImplicit false

/-! # From ISO 9660 to High Sierra

The two formats have the same directories; only the flags of a record are one byte earlier in High
Sierra, and the descriptors have another layout. `convert` walks over the directories of an image,
moves the flags of all records in place, and replaces the two descriptors.

* `highSierra_spec` : what the walk over the result finds, and what is unchanged.
-/

namespace Mountin.HighSierra

open Bytes (le)

/-! ## Images -/

/-- A `bytearray`: the number of its bytes, and the byte at each place. -/
structure Image where
  length : Nat
  byte : Nat → UInt8

/-- `image[off : off + n]`, which the end of the image cuts off. -/
def Image.slice (image : Image) (off n : Nat) : Bytes :=
  (List.range (min n (image.length - off))).map fun i => image.byte (off + i)

/-- `image[off : off + len(data)] = data`, within the image. -/
def Image.put (image : Image) (off : Nat) (data : Bytes) : Image where
  length := image.length
  byte i := if off ≤ i ∧ i < off + data.length then data.getD (i - off) 0 else image.byte i

def SECTOR_SIZE : Nat := 2048
def PVD_SECTOR : Nat := 16
/-- `CD001` -/
def ISO_ID : Bytes := [0x43, 0x44, 0x30, 0x30, 0x31]
/-- `CDROM` -/
def HS_ID : Bytes := [0x43, 0x44, 0x52, 0x4f, 0x4d]

/-- The extent and the size of a directory. -/
abbrev Directory := Nat × Nat

def Directory.start (d : Directory) : Nat := d.1 * SECTOR_SIZE

def Directory.stop (d : Directory) : Nat := d.start + d.2

/-! ## The walk -/

/-- The loop of `directory_records`, over an image that nobody changes: where the records are, and
their lengths. -/
def recordsFrom (image : Image) (stop pos : Nat) : Except Raised (List (Nat × Nat)) :=
  if pos < stop then
    let length := (image.byte pos).toNat
    if length = 0 then recordsFrom image stop ((pos / SECTOR_SIZE + 1) * SECTOR_SIZE)
    else if length < 34 ∨ stop < pos + length then
      .error (.valueError s!"invalid directory record at byte {pos}")
    else do
      let rest ← recordsFrom image stop (pos + length)
      return (pos, length) :: rest
  else .ok []
termination_by stop - pos
decreasing_by
  · simp only [SECTOR_SIZE]
    omega
  · omega

/-- `directory_records`. -/
def directoryRecords (image : Image) (d : Directory) : Except Raised (List (Nat × Nat)) :=
  if image.length < d.stop then
    .error (.valueError s!"directory extent {d.1}+{d.2} is outside image")
  else recordsFrom image d.stop d.start

/-- What a record says. -/
structure Entry where
  flags : UInt8
  extent : Directory
  name : Bytes
deriving DecidableEq

/-- The record at a place. Its flags are at byte 25 in ISO 9660, at byte 24 in High Sierra. -/
def entryAt (flagsAt : Nat) (image : Image) (pos : Nat) : Entry where
  flags := image.byte (pos + flagsAt)
  extent := (le (image.slice (pos + 2) 4), le (image.slice (pos + 10) 4))
  name := image.slice (pos + 33) (image.byte (pos + 32)).toNat

/-- The directory that a record refers to, other than the directory itself and its parent. -/
def Entry.subdirectory? (entry : Entry) : Option Directory :=
  if entry.flags &&& 0x02 ≠ 0 ∧ entry.name ≠ [0x00] ∧ entry.name ≠ [0x01] then some entry.extent
  else none

/-- What a directory adds to `pending`. -/
def subdirectories (flagsAt : Nat) (image : Image) (d : Directory) :
    Except Raised (List Directory) := do
  let records ← directoryRecords image d
  return records.filterMap fun r => (entryAt flagsAt image r.1).subdirectory?

/-- The directory of a root record. -/
def rootDirectory (root : Bytes) : Directory := (le (root.slice 2 4), le (root.slice 10 4))

/-- `collect_directories`, with a bound on the turns of its loop. The directories that it has seen
are those that it has found. -/
def collectDirectories (flagsAt turns : Nat) (image : Image) (root : Bytes) :
    Option (Except Raised (List Directory)) :=
  Worklist.run (subdirectories flagsAt image) turns [rootDirectory root] []

/-! ## The conversion -/

/-- `convert_directory_record`. -/
def convertDirectoryRecord (record : Bytes) : Except Raised Bytes :=
  if record.length < 34 then .error (.valueError "directory record is too short")
  else .ok ((record.set 24 (record.getD 25 0)).set 25 0)

/-- The loop of `convert` over the records of a directory. The lengths are read from the image as
the records before have left it. -/
def convertRecords (stop pos : Nat) (image : Image) : Except Raised Image :=
  if pos < stop then
    let length := (image.byte pos).toNat
    if length = 0 then convertRecords stop ((pos / SECTOR_SIZE + 1) * SECTOR_SIZE) image
    else if length < 34 ∨ stop < pos + length then
      .error (.valueError s!"invalid directory record at byte {pos}")
    else do
      let record ← convertDirectoryRecord (image.slice pos length)
      convertRecords stop (pos + length) (image.put pos record)
  else .ok image
termination_by stop - pos
decreasing_by
  · simp only [SECTOR_SIZE]
    omega
  · omega

/-- The turn of `convert` for a directory. -/
def convertDirectory (image : Image) (d : Directory) : Except Raised Image :=
  if image.length < d.stop then
    .error (.valueError s!"directory extent {d.1}+{d.2} is outside image")
  else convertRecords d.stop d.start image

/-- What comes before the root record in a High Sierra descriptor. -/
def descriptorHead (iso : Bytes) : Bytes :=
  List.replicate 8 0 ++ [1] ++ HS_ID ++ iso.slice 6 1 ++ [0] ++
    -- 16: the names of the system and the volume
    iso.slice 8 32 ++ iso.slice 40 32 ++ iso.slice 72 8 ++ iso.slice 80 8 ++
    -- 96: the escape sequences, the numbers of the volume, and the block size
    iso.slice 88 32 ++ iso.slice 120 4 ++ iso.slice 124 4 ++ iso.slice 128 4 ++
    -- 140: the path table
    iso.slice 132 8 ++ iso.slice 140 4 ++ List.replicate 28 0

/-- `convert_primary_descriptor`. -/
def convertPrimaryDescriptor (iso : Bytes) : Except Raised Bytes :=
  if iso.length ≠ SECTOR_SIZE ∨ iso.slice 1 5 ≠ ISO_ID ∨ iso.slice 0 1 ≠ [1] then
    .error (.valueError "sector 16 is not an ISO 9660 primary descriptor")
  else do
    let root ← convertDirectoryRecord (iso.slice 156 34)
    return descriptorHead iso ++ root ++ iso.slice 190 1834

/-- The loop over the descriptors behind the primary one. It ends in its first turn. -/
def convertTerminator (image : Image) : Except Raised Image :=
  let sector := PVD_SECTOR + 1
  let offset := sector * SECTOR_SIZE
  if offset < image.length then
    let descriptor := image.slice offset SECTOR_SIZE
    if descriptor.slice 1 5 ≠ ISO_ID then
      .error (.valueError s!"unexpected descriptor at sector {sector}")
    else if descriptor.slice 0 1 = [255] then
      .ok (image.put offset (List.replicate 8 0 ++ [255] ++ HS_ID ++ descriptor.slice 6 1 ++
        List.replicate 2033 0))
    else .error (.valueError s!"source contains unsupported descriptor type {descriptor.getD 0 0}")
  else .error (.valueError "source has no volume descriptor terminator")

/-- The sector of the primary descriptor. -/
def isoPvd (source : Image) : Bytes := source.slice (PVD_SECTOR * SECTOR_SIZE) SECTOR_SIZE

/-- The root record. -/
def isoRoot (source : Image) : Bytes := (isoPvd source).slice 156 34

/-- What `convert` does with the directories that it has collected. -/
def convertImage (source : Image) (directories : List Directory) : Except Raised Image := do
  let image ← directories.foldlM convertDirectory source
  let descriptor ← convertPrimaryDescriptor (isoPvd source)
  convertTerminator (image.put (PVD_SECTOR * SECTOR_SIZE) descriptor)

/-- `convert` up to its last line. -/
def converted (turns : Nat) (source : Image) : Option (Except Raised Image) :=
  if source.length % SECTOR_SIZE ≠ 0 then
    some (.error (.valueError "source image size is not a multiple of 2048 bytes"))
  else if (isoPvd source).slice 1 5 ≠ ISO_ID then
    some (.error (.valueError "source does not contain a plain ISO 9660 descriptor"))
  else
    (collectDirectories 25 turns source (isoRoot source)).map fun collected => do
      convertImage source (← collected)

/-- `convert`: what it returns or raises, and what is at the destination then. -/
def convert (turns : Nat) (source : Image) (destination : Option Image) :
    Option (Except Raised Unit × Option Image) :=
  (converted turns source).map fun result =>
    match result with
    | .error e => (.error e, destination)
    | .ok image => (.ok (), some image)

/-! ## Images, by their bytes -/

namespace Image

theorem slice_congr {image image' : Image} {off n : Nat} (hlen : image'.length = image.length)
    (h : ∀ i, off ≤ i → i < off + n → i < image.length → image'.byte i = image.byte i) :
    image'.slice off n = image.slice off n := by
  rw [slice, slice, hlen]
  refine List.map_congr_left fun i hi => ?_
  rw [List.mem_range] at hi
  exact h _ (by omega) (by omega) (by omega)

theorem length_slice (image : Image) (off n : Nat) :
    (image.slice off n).length = min n (image.length - off) := by
  rw [slice, List.length_map, List.length_range]

theorem getElem?_slice {image : Image} {off n i : Nat} (hi : i < n)
    (hin : off + i < image.length) : (image.slice off n)[i]? = some (image.byte (off + i)) := by
  rw [slice, List.getElem?_map, List.getElem?_range (by omega), Option.map_some]

/-- What `convert_directory_record` changes of the record at a place. -/
def moveFlags (image : Image) (pos : Nat) : Image where
  length := image.length
  byte i := if i = pos + 24 then image.byte (pos + 25) else if i = pos + 25 then 0 else image.byte i

theorem byte_moveFlags (image : Image) {pos i : Nat} (h : i ≠ pos + 24 ∧ i ≠ pos + 25) :
    (image.moveFlags pos).byte i = image.byte i := (if_neg h.1).trans (if_neg h.2)

/-- The flags of several records that do not meet. -/
theorem foldl_moveFlags {places : List Nat} {image : Image}
    (hapart : places.Pairwise fun p q => p + 26 ≤ q ∨ q + 26 ≤ p) :
    (places.foldl moveFlags image).length = image.length ∧
      (∀ p ∈ places, (places.foldl moveFlags image).byte (p + 24) = image.byte (p + 25) ∧
        (places.foldl moveFlags image).byte (p + 25) = 0) ∧
      ∀ i, (∀ p ∈ places, i ≠ p + 24 ∧ i ≠ p + 25) →
        (places.foldl moveFlags image).byte i = image.byte i := by
  induction places generalizing image with
  | nil => exact ⟨rfl, fun p hp => absurd hp List.not_mem_nil, fun _ _ => rfl⟩
  | cons p rest ih =>
      rw [List.pairwise_cons] at hapart
      obtain ⟨hlength, hmoved, hframe⟩ := @ih (image.moveFlags p) hapart.2
      rw [List.foldl_cons]
      refine ⟨hlength, fun q hq => ?_, fun i hi => ?_⟩
      · rcases List.mem_cons.mp hq with rfl | hq
        · -- the records behind it leave its flags as they are
          have hfar : ∀ k, k = q + 24 ∨ k = q + 25 → ∀ r ∈ rest, k ≠ r + 24 ∧ k ≠ r + 25 := by
            intro k hk r hr
            have := hapart.1 r hr
            omega
          rw [hframe _ (hfar _ (.inl rfl)), hframe _ (hfar _ (.inr rfl))]
          constructor
          · exact if_pos rfl
          · exact (if_neg (by omega)).trans (if_pos rfl)
        · have hfar := hapart.1 q hq
          rw [(hmoved q hq).1, (hmoved q hq).2, byte_moveFlags _ (by omega)]
          exact ⟨rfl, rfl⟩
      · rw [List.forall_mem_cons] at hi
        rw [hframe i hi.2, byte_moveFlags _ hi.1]

end Image

/-- A record converted in its place. -/
theorem convertDirectoryRecord_slice {image : Image} {pos length : Nat} (hlength : 34 ≤ length)
    (hin : pos + length ≤ image.length) : ∃ record,
      convertDirectoryRecord (image.slice pos length) = .ok record ∧
        image.put pos record = image.moveFlags pos := by
  have hlen : (image.slice pos length).length = length := by
    rw [Image.length_slice]
    omega
  have hget : ∀ i, i < length → (image.slice pos length)[i]? = some (image.byte (pos + i)) :=
    fun i hi => Image.getElem?_slice hi (by omega)
  refine ⟨_, if_neg (by omega), ?_⟩
  rw [Image.put, Image.moveFlags]
  congr 1
  funext i
  rw [List.length_set, List.length_set, hlen, List.getD_eq_getElem?_getD, List.getElem?_set,
    List.getElem?_set, List.length_set, hlen, List.getD_eq_getElem?_getD, hget 25 (by omega)]
  by_cases hwithin : pos ≤ i ∧ i < pos + length
  · rw [if_pos hwithin]
    by_cases h24 : i = pos + 24
    · rw [if_pos h24, if_neg (by omega), if_pos (by omega), if_pos (by omega), Option.getD_some,
        Option.getD_some]
    · rw [if_neg h24]
      by_cases h25 : i = pos + 25
      · rw [if_pos h25, if_pos (by omega), if_pos (by omega), Option.getD_some]
      · rw [if_neg h25, if_neg (by omega), if_neg (by omega), hget _ (by omega), Option.getD_some]
        congr 1
        omega
  · rw [if_neg hwithin, if_neg (by omega), if_neg (by omega)]

/-! ## The records of a directory -/

/-- Where the records of a directory are. -/
theorem recordsFrom_bounds {image : Image} {stop pos : Nat} {records : List (Nat × Nat)}
    (h : recordsFrom image stop pos = .ok records) :
    (∀ r ∈ records, pos ≤ r.1 ∧ 34 ≤ r.2 ∧ r.1 + r.2 ≤ stop) ∧
      records.Pairwise fun r s => r.1 + r.2 ≤ s.1 := by
  fun_induction recordsFrom image stop pos generalizing records with
  | case1 pos hpos length hzero =>
      rename_i ih
      obtain ⟨hbounds, hpairwise⟩ := ih h
      refine ⟨fun r hr => ⟨?_, (hbounds r hr).2⟩, hpairwise⟩
      have := (hbounds r hr).1
      have hsector : SECTOR_SIZE = 2048 := rfl
      rw [hsector] at this
      omega
  | case2 => cases h
  | case3 pos hpos length hzero hvalid =>
      rename_i ih
      obtain ⟨rest, hrest, h⟩ := Except.bind_eq_ok.mp h
      obtain rfl := Except.ok.inj h
      obtain ⟨hbounds, hpairwise⟩ := ih hrest
      refine ⟨List.forall_mem_cons.mpr ⟨⟨le_refl _, by omega, by omega⟩, fun r hr => ?_⟩,
        List.pairwise_cons.mpr ⟨fun r hr => (hbounds r hr).1, hpairwise⟩⟩
      have := hbounds r hr
      omega
  | case4 pos hpos =>
      obtain rfl := Except.ok.inj h
      exact ⟨fun r hr => absurd hr List.not_mem_nil, .nil⟩

/-- An image that differs in the flags of the records only has the same records. -/
theorem recordsFrom_congr {image image' : Image} {stop pos : Nat} {records : List (Nat × Nat)}
    (h : recordsFrom image stop pos = .ok records)
    (hsame : ∀ i, pos ≤ i → i < stop → (∀ r ∈ records, i ≠ r.1 + 24 ∧ i ≠ r.1 + 25) →
      image'.byte i = image.byte i) : recordsFrom image' stop pos = .ok records := by
  have hbounds := (recordsFrom_bounds h).1
  fun_induction recordsFrom image stop pos generalizing records with
  | case1 pos hpos length hzero =>
      rename_i ih
      have hsector : SECTOR_SIZE = 2048 := rfl
      have hbehind := (recordsFrom_bounds h).1
      have hbyte : image'.byte pos = image.byte pos := hsame pos (le_refl _) hpos fun r hr => by
        have := (hbehind r hr).1
        rw [hsector] at this
        omega
      rw [recordsFrom, if_pos hpos, hbyte]
      simp only
      rw [if_pos hzero]
      refine ih h (fun i hi hstop hr => hsame i ?_ hstop hr) hbehind
      rw [hsector] at hi
      omega
  | case2 => cases h
  | case3 pos hpos length hzero hvalid =>
      rename_i ih
      obtain ⟨rest, hrest, h⟩ := Except.bind_eq_ok.mp h
      obtain rfl := Except.ok.inj h
      have hbehind := (recordsFrom_bounds hrest).1
      have hbyte : image'.byte pos = image.byte pos := hsame pos (le_refl _) hpos
        (List.forall_mem_cons.mpr ⟨by dsimp only; omega, fun r hr => by
          have := (hbehind r hr).1
          omega⟩)
      rw [recordsFrom, if_pos hpos, hbyte]
      simp only
      rw [if_neg hzero, if_neg hvalid]
      have htail := ih hrest (fun i hi hstop hr => hsame i (by omega) hstop
        (List.forall_mem_cons.mpr ⟨by dsimp only; omega, hr⟩)) hbehind
      exact Except.bind_eq_ok.mpr ⟨rest, htail, rfl⟩
  | case4 pos hpos =>
      rw [recordsFrom, if_neg hpos]
      exact h

/-- **The loop over a directory** moves the flags of the records that were there before it. -/
theorem convertRecords_eq {source image : Image} {stop pos : Nat} {records : List (Nat × Nat)}
    (h : recordsFrom source stop pos = .ok records) (hstop : stop ≤ image.length)
    (hsame : ∀ i, pos ≤ i → i < stop → image.byte i = source.byte i) :
    convertRecords stop pos image = .ok ((records.map Prod.fst).foldl Image.moveFlags image) := by
  fun_induction recordsFrom source stop pos generalizing records image with
  | case1 pos hpos length hzero =>
      rename_i ih
      have hsector : SECTOR_SIZE = 2048 := rfl
      rw [convertRecords, if_pos hpos, hsame pos (le_refl _) hpos]
      simp only
      rw [if_pos hzero]
      refine ih h hstop fun i hi hlt => hsame i ?_ hlt
      rw [hsector] at hi
      omega
  | case2 => cases h
  | case3 pos hpos length hzero hvalid =>
      rename_i ih
      obtain ⟨rest, hrest, h⟩ := Except.bind_eq_ok.mp h
      obtain rfl := Except.ok.inj h
      obtain ⟨record, hrecord, hput⟩ := @convertDirectoryRecord_slice image pos length
        (by omega) (by omega)
      rw [convertRecords, if_pos hpos, hsame pos (le_refl _) hpos]
      simp only
      rw [if_neg hzero, if_neg hvalid]
      refine Except.bind_eq_ok.mpr ⟨record, hrecord, ?_⟩
      rw [hput]
      refine ih hrest hstop fun i hi hlt => ?_
      rw [Image.byte_moveFlags _ (by omega), hsame i (by omega) hlt]
  | case4 pos hpos =>
      obtain rfl := Except.ok.inj h
      rw [convertRecords, if_neg hpos]
      rfl

/-! ## The directories -/

/-- The bytes of a directory. -/
def Directory.Within (d : Directory) (i : Nat) : Prop := d.start ≤ i ∧ i < d.stop

/-- The records of a directory. -/
def recordsOf (image : Image) (d : Directory) : List (Nat × Nat) :=
  (directoryRecords image d).toOption.getD []

/-- The directory can be walked over. -/
def Walked (image : Image) (d : Directory) : Prop :=
  directoryRecords image d = .ok (recordsOf image d)

/-- Where the records of directories are. -/
def placesOf (image : Image) (directories : List Directory) : List Nat :=
  directories.flatMap fun d => (recordsOf image d).map Prod.fst

section

variable {source image out : Image} {d : Directory} {directories : List Directory}

theorem walked_of_subdirectories {flagsAt : Nat} {next : List Directory}
    (h : subdirectories flagsAt source d = .ok next) : Walked source d := by
  obtain ⟨records, hrecords, -⟩ := Except.bind_eq_ok.mp h
  rw [Walked, recordsOf, hrecords]
  rfl

theorem Walked.within (h : Walked source d) :
    d.stop ≤ source.length ∧ recordsFrom source d.stop d.start = .ok (recordsOf source d) := by
  unfold Walked directoryRecords at h
  by_cases hlen : source.length < d.stop
  · rw [if_pos hlen] at h
    cases h
  · rw [if_neg hlen] at h
    exact ⟨Nat.le_of_not_lt hlen, h⟩

/-- A record lies in its directory. -/
theorem Walked.record (h : Walked source d) {r : Nat × Nat} (hr : r ∈ recordsOf source d) :
    d.start ≤ r.1 ∧ 34 ≤ r.2 ∧ r.1 + r.2 ≤ d.stop :=
  (recordsFrom_bounds h.within.2).1 r hr

/-- A record lies in its directory. -/
theorem Walked.place (h : Walked source d) {p : Nat} (hp : p ∈ (recordsOf source d).map Prod.fst) :
    ∀ i, p ≤ i → i < p + 34 → d.Within i := by
  obtain ⟨r, hr, rfl⟩ := List.mem_map.mp hp
  have := h.record hr
  intro i hlo hhi
  exact ⟨by omega, by omega⟩

/-- The records of directories that do not meet do not meet. -/
theorem placesOf_apart (hnodup : directories.Nodup) (hwalked : ∀ d ∈ directories, Walked source d)
    (hapart : ∀ a ∈ directories, ∀ b ∈ directories, a ≠ b → ∀ i, ¬(a.Within i ∧ b.Within i)) :
    (placesOf source directories).Pairwise fun p q => p + 26 ≤ q ∨ q + 26 ≤ p := by
  rw [placesOf, List.pairwise_flatMap]
  refine ⟨fun d hd => ?_, ?_⟩
  · have hpairwise := (recordsFrom_bounds (hwalked d hd).within.2).2
    rw [List.pairwise_map]
    refine hpairwise.imp_of_mem fun {r s} hr hs h => ?_
    have := (hwalked d hd).record hr
    omega
  · refine hnodup.imp_of_mem fun {a b} ha hb hne p hp q hq => ?_
    have hp' := (hwalked a ha).place hp
    have hq' := (hwalked b hb).place hq
    by_contra hmeet
    rcases Nat.le_total p q with h | h
    · exact hapart a ha b hb hne q ⟨hp' q h (by omega), hq' q (le_refl _) (by omega)⟩
    · exact hapart a ha b hb hne p ⟨hp' p (le_refl _) (by omega), hq' p h (by omega)⟩

/-- **The loop over the directories** moves the flags of all records that were there before it. -/
theorem foldlM_convertDirectory (hnodup : directories.Nodup)
    (hwalked : ∀ d ∈ directories, Walked source d)
    (hapart : ∀ a ∈ directories, ∀ b ∈ directories, a ≠ b → ∀ i, ¬(a.Within i ∧ b.Within i))
    (hlen : image.length = source.length)
    (hsame : ∀ d ∈ directories, ∀ i, d.Within i → image.byte i = source.byte i) :
    directories.foldlM convertDirectory image =
      .ok ((placesOf source directories).foldl Image.moveFlags image) := by
  induction directories generalizing image with
  | nil => rfl
  | cons d rest ih =>
      rw [List.nodup_cons] at hnodup
      rw [List.forall_mem_cons] at hwalked hsame
      obtain ⟨hstop, hrecords⟩ := hwalked.1.within
      have hone : (placesOf source [d]) = (recordsOf source d).map Prod.fst := by
        rw [placesOf, List.flatMap_singleton]
      have hturn : convertDirectory image d =
          .ok ((placesOf source [d]).foldl Image.moveFlags image) := by
        rw [convertDirectory, if_neg (by omega), hone]
        exact convertRecords_eq hrecords (by omega) fun i hlo hhi => hsame.1 i ⟨hlo, hhi⟩
      have hself : (placesOf source [d]).Pairwise fun p q => p + 26 ≤ q ∨ q + 26 ≤ p :=
        placesOf_apart (List.nodup_singleton d) (List.forall_mem_singleton.mpr hwalked.1)
          fun a ha b hb hne => by
            rw [List.mem_singleton] at ha hb
            exact absurd (ha.trans hb.symm) hne
      obtain ⟨hlength, -, hframe⟩ := @Image.foldl_moveFlags _ image hself
      rw [List.foldlM_cons, hturn]
      -- the other directories are as before
      refine (ih hnodup.2 hwalked.2 (fun a ha b hb => hapart a (List.mem_cons_of_mem _ ha) b
        (List.mem_cons_of_mem _ hb)) (hlength.trans hlen) fun b hb i hi => ?_).trans ?_
      · have hne : d ≠ b := fun heq => hnodup.1 (heq ▸ hb)
        rw [hframe i fun p hp => ?_]
        · exact hsame.2 b hb i hi
        · rw [hone] at hp
          have hwithin := hwalked.1.place hp
          have hout := hapart d List.mem_cons_self b (List.mem_cons_of_mem _ hb) hne i
          exact ⟨fun heq => hout ⟨hwithin i (by omega) (by omega), hi⟩,
            fun heq => hout ⟨hwithin i (by omega) (by omega), hi⟩⟩
      · rw [← List.foldl_append, hone]
        rfl

end

/-! ## The two walks -/

/-- A directory of the image. -/
def Reached (source : Image) (d : Directory) : Prop :=
  Relation.ReflTransGen (Worklist.Leads (subdirectories 25 source)) (rootDirectory (isoRoot source)) d

/-- The root record of a High Sierra image. -/
def hsRoot (image : Image) : Bytes :=
  (image.slice (PVD_SECTOR * SECTOR_SIZE) SECTOR_SIZE).slice 180 34

/-- A byte outside the sectors of the two descriptors. -/
def OutsideDescriptors (i : Nat) : Prop :=
  i < PVD_SECTOR * SECTOR_SIZE ∨ (PVD_SECTOR + 2) * SECTOR_SIZE ≤ i

/-- No byte belongs to two directories, or to a directory and a descriptor. -/
structure Apart (source : Image) : Prop where
  directories : ∀ a b, Reached source a → Reached source b → a ≠ b → ∀ i, ¬(a.Within i ∧ b.Within i)
  descriptors : ∀ a, Reached source a → ∀ i, a.Within i → OutsideDescriptors i

/-- An image whose flags are moved in the records of some directories. -/
structure Moved (source out : Image) (directories : List Directory) : Prop where
  length : out.length = source.length
  flags : ∀ p ∈ placesOf source directories,
    out.byte (p + 24) = source.byte (p + 25) ∧ out.byte (p + 25) = 0
  frame : ∀ i, OutsideDescriptors i →
    (∀ p ∈ placesOf source directories, i ≠ p + 24 ∧ i ≠ p + 25) → out.byte i = source.byte i

/-- Directories that are walked over and do not meet each other or the descriptors. -/
structure Disjointed (source : Image) (directories : List Directory) : Prop where
  nodup : directories.Nodup
  walked : ∀ d ∈ directories, Walked source d
  apart : ∀ a ∈ directories, ∀ b ∈ directories, a ≠ b → ∀ i, ¬(a.Within i ∧ b.Within i)
  descriptors : ∀ d ∈ directories, ∀ i, d.Within i → OutsideDescriptors i

section

variable {source image out : Image} {d : Directory} {directories : List Directory}

/-- In a directory only the flags of its own records are different. -/
theorem Moved.within (h : Moved source out directories) (hdirs : Disjointed source directories)
    (hd : d ∈ directories) {i : Nat} (hi : d.Within i)
    (hnone : ∀ r ∈ recordsOf source d, i ≠ r.1 + 24 ∧ i ≠ r.1 + 25) :
    out.byte i = source.byte i := by
  refine h.frame i (hdirs.descriptors d hd i hi) fun p hp => ?_
  obtain ⟨b, hb, hp⟩ := List.mem_flatMap.mp hp
  by_cases hsame : b = d
  · rw [hsame] at hp
    obtain ⟨r, hr, rfl⟩ := List.mem_map.mp hp
    exact hnone r hr
  · have hwithin := (hdirs.walked b hb).place hp
    have hout := hdirs.apart b hb d hd hsame i
    exact ⟨fun heq => hout ⟨hwithin i (by omega) (by omega), hi⟩,
      fun heq => hout ⟨hwithin i (by omega) (by omega), hi⟩⟩

/-- In a record only its own flags are different. -/
theorem Moved.record (h : Moved source out directories) (hdirs : Disjointed source directories)
    (hd : d ∈ directories) {r : Nat × Nat} (hr : r ∈ recordsOf source d) {i : Nat} (hlo : r.1 ≤ i)
    (hhi : i < r.1 + r.2) (hnone : i ≠ r.1 + 24 ∧ i ≠ r.1 + 25) : out.byte i = source.byte i := by
  have hwalked := hdirs.walked d hd
  have hbounds := hwalked.record hr
  refine h.within hdirs hd ⟨by omega, by omega⟩ fun s hs => ?_
  have hs' := hwalked.record hs
  have hpairwise := (recordsFrom_bounds hwalked.within.2).2
  by_cases heq : s = r
  · rwa [heq]
  · have hapart : r.1 + r.2 ≤ s.1 ∨ s.1 + s.2 ≤ r.1 := by
      have hsymm : Std.Symm fun x y : Nat × Nat => x.1 + x.2 ≤ y.1 ∨ y.1 + y.2 ≤ x.1 :=
        ⟨fun _ _ h => h.symm⟩
      have hor : (recordsOf source d).Pairwise fun x y => x.1 + x.2 ≤ y.1 ∨ y.1 + y.2 ≤ x.1 :=
        hpairwise.imp fun h => .inl h
      exact hor.forall hr hs (Ne.symm heq)
    omega

/-- The walk finds the same records. -/
theorem Moved.directoryRecords_eq (h : Moved source out directories)
    (hdirs : Disjointed source directories) (hd : d ∈ directories) :
    directoryRecords out d = .ok (recordsOf source d) := by
  obtain ⟨hstop, hrecords⟩ := (hdirs.walked d hd).within
  rw [directoryRecords, h.length, if_neg (by omega)]
  exact recordsFrom_congr hrecords fun i hlo hhi hnone => h.within hdirs hd ⟨hlo, hhi⟩ hnone

/-- A record says the same, but for a name that goes beyond it. -/
theorem Moved.entryAt_eq (h : Moved source out directories) (hdirs : Disjointed source directories)
    (hd : d ∈ directories) {r : Nat × Nat} (hr : r ∈ recordsOf source d) :
    (entryAt 24 out r.1).flags = (entryAt 25 source r.1).flags ∧
      (entryAt 24 out r.1).extent = (entryAt 25 source r.1).extent ∧
      (33 + (source.byte (r.1 + 32)).toNat ≤ r.2 →
        (entryAt 24 out r.1).name = (entryAt 25 source r.1).name) ∧
      (entryAt 24 out r.1).subdirectory? = (entryAt 25 source r.1).subdirectory? := by
  have hbounds := (hdirs.walked d hd).record hr
  have hbyte : ∀ i, r.1 ≤ i → i < r.1 + r.2 → i ≠ r.1 + 24 ∧ i ≠ r.1 + 25 →
      out.byte i = source.byte i := fun i hlo hhi hnone => h.record hdirs hd hr hlo hhi hnone
  have hplace : r.1 ∈ placesOf source directories :=
    List.mem_flatMap.mpr ⟨d, hd, List.mem_map.mpr ⟨r, hr, rfl⟩⟩
  have hflags : (entryAt 24 out r.1).flags = (entryAt 25 source r.1).flags :=
    (h.flags _ hplace).1
  have hextent : (entryAt 24 out r.1).extent = (entryAt 25 source r.1).extent := by
    have hslice : ∀ k, k + 4 ≤ 24 → out.slice (r.1 + k) 4 = source.slice (r.1 + k) 4 :=
      fun k hk => Image.slice_congr h.length fun i hlo hhi _ =>
        hbyte i (by omega) (by omega) (by omega)
    rw [entryAt, entryAt, hslice 2 (by omega), hslice 10 (by omega)]
  have hlength : out.byte (r.1 + 32) = source.byte (r.1 + 32) :=
    hbyte _ (by omega) (by omega) (by omega)
  have hname : (33 + (source.byte (r.1 + 32)).toNat ≤ r.2 →
      (entryAt 24 out r.1).name = (entryAt 25 source r.1).name) := by
    intro hin
    rw [entryAt, entryAt, hlength]
    exact Image.slice_congr h.length fun i hlo hhi _ => hbyte i (by omega) (by omega) (by omega)
  refine ⟨hflags, hextent, hname, ?_⟩
  -- a name of one byte lies in its record
  have hshort : ∀ b : UInt8, (entryAt 24 out r.1).name = [b] ↔ (entryAt 25 source r.1).name = [b] := by
    intro b
    have hlen' : (entryAt 24 out r.1).name.length = (entryAt 25 source r.1).name.length := by
      rw [entryAt, entryAt, hlength, Image.length_slice, Image.length_slice, h.length]
    by_cases hone : (entryAt 25 source r.1).name.length ≤ 1
    · have hsame : (entryAt 24 out r.1).name = (entryAt 25 source r.1).name := by
        rw [entryAt, Image.length_slice] at hone
        rw [entryAt, entryAt, hlength]
        exact Image.slice_congr h.length fun i hlo hhi hlt =>
          hbyte i (by omega) (by omega) (by omega)
      rw [hsame]
    · constructor
      · intro heq
        rw [heq] at hlen'
        exact absurd (le_of_eq hlen'.symm) hone
      · intro heq
        rw [heq] at hone
        exact absurd (le_refl 1) hone
  rw [Entry.subdirectory?, Entry.subdirectory?, hflags, hextent]
  simp only [ne_eq, hshort]

/-- The walk goes on to the same directories. -/
theorem Moved.subdirectories_eq (h : Moved source out directories)
    (hdirs : Disjointed source directories) (hd : d ∈ directories) :
    subdirectories 24 out d = subdirectories 25 source d := by
  have hwalked : directoryRecords source d = .ok (recordsOf source d) := hdirs.walked d hd
  rw [subdirectories, subdirectories, h.directoryRecords_eq hdirs hd, hwalked]
  refine congrArg Except.ok (List.filterMap_congr fun r hr => ?_)
  exact (h.entryAt_eq hdirs hd hr).2.2.2

end

/-! ## The descriptors -/

theorem length_descriptorHead {iso : Bytes} (h : iso.length = SECTOR_SIZE) :
    (descriptorHead iso).length = 180 := by
  have hsector : SECTOR_SIZE = 2048 := rfl
  rw [hsector] at h
  simp [descriptorHead, List.length_slice, h, HS_ID]

/-- The root record of the new descriptor. -/
theorem convertPrimaryDescriptor_spec {iso descriptor : Bytes}
    (h : convertPrimaryDescriptor iso = .ok descriptor) :
    iso.length = SECTOR_SIZE ∧ descriptor.length = SECTOR_SIZE ∧
      descriptor.slice 180 34 =
        ((iso.slice 156 34).set 24 ((iso.slice 156 34).getD 25 0)).set 25 0 := by
  have hsector : SECTOR_SIZE = 2048 := rfl
  unfold convertPrimaryDescriptor at h
  split at h
  · cases h
  · rename_i hvalid
    have hlen : iso.length = SECTOR_SIZE := by
      by_contra hne
      exact hvalid (.inl hne)
    have hroot : (iso.slice 156 34).length = 34 := by
      rw [List.length_slice, hlen, hsector]
      rfl
    rw [convertDirectoryRecord, if_neg (by omega)] at h
    obtain rfl := Except.ok.inj h
    refine ⟨hlen, ?_, ?_⟩
    · rw [List.length_append, List.length_append, length_descriptorHead hlen, List.length_set,
        List.length_set, hroot, List.length_slice, hlen, hsector]
      rfl
    · exact List.slice_append_mid _ (length_descriptorHead hlen)
        (by rw [List.length_set, List.length_set, hroot])

/-- Moving the flags keeps the directory of a root record. -/
theorem rootDirectory_set (root : Bytes) (a b : UInt8) :
    rootDirectory ((root.set 24 a).set 25 b) = rootDirectory root := by
  have hslice : ∀ k, k + 4 ≤ 24 → ((root.set 24 a).set 25 b).slice k 4 = root.slice k 4 := by
    intro k hk
    apply List.ext_getElem?
    intro i
    rw [List.getElem?_slice, List.getElem?_slice]
    by_cases hi : i < 4
    · rw [if_pos hi, if_pos hi, List.getElem?_set_ne (by omega), List.getElem?_set_ne (by omega)]
    · rw [if_neg hi, if_neg hi]
  rw [rootDirectory, rootDirectory, hslice 2 (by omega), hslice 10 (by omega)]

namespace Image

variable {image : Image} {off : Nat} {data : Bytes}

theorem byte_put_outside {i : Nat} (h : i < off ∨ off + data.length ≤ i) :
    (image.put off data).byte i = image.byte i := if_neg (by omega)

theorem slice_put (h : off + data.length ≤ image.length) :
    (image.put off data).slice off data.length = data := by
  have hlen : ((image.put off data).slice off data.length).length = data.length := by
    rw [length_slice, put]
    dsimp only
    omega
  apply List.ext_getElem?
  intro i
  by_cases hi : i < data.length
  · rw [getElem?_slice hi (by rw [put]; dsimp only; omega)]
    have hbyte : (image.put off data).byte (off + i) = data.getD (off + i - off) 0 :=
      if_pos (by omega)
    rw [hbyte, Nat.add_sub_cancel_left, List.getD_eq_getElem?_getD, List.getElem?_eq_getElem hi,
      Option.getD_some]
  · rw [List.getElem?_eq_none (by omega), List.getElem?_eq_none (by omega)]

end Image

/-- What the terminator changes. -/
theorem convertTerminator_spec {image out : Image} (h : convertTerminator image = .ok out) :
    out.length = image.length ∧
      ∀ i, i < (PVD_SECTOR + 1) * SECTOR_SIZE ∨ (PVD_SECTOR + 2) * SECTOR_SIZE ≤ i →
        out.byte i = image.byte i := by
  have hsector : SECTOR_SIZE = 2048 := rfl
  have hpvd : PVD_SECTOR = 16 := rfl
  unfold convertTerminator at h
  simp only at h
  split at h
  · split at h
    · cases h
    · split at h
      · obtain rfl := Except.ok.inj h
        refine ⟨rfl, fun i hi => Image.byte_put_outside ?_⟩
        have hdata : ∀ six : Bytes, six.length ≤ 1 →
            (List.replicate 8 (0 : UInt8) ++ [255] ++ HS_ID ++ six ++
              List.replicate 2033 0).length ≤ 2048 := by
          intro six hsix
          simp only [HS_ID, List.length_append, List.length_replicate, List.length_cons,
            List.length_nil]
          omega
        have hsix : ∀ b : Bytes, (b.slice 6 1).length ≤ 1 := fun b => List.length_take_le _ _
        have := hdata _ (hsix (image.slice ((PVD_SECTOR + 1) * SECTOR_SIZE) SECTOR_SIZE))
        rw [hsector, hpvd] at hi ⊢
        rw [hsector, hpvd] at this
        omega
      · cases h
  · cases h

/-! ## The conversion as a whole -/

/-- What a conversion is for: the High Sierra image has the directories and files of the ISO 9660
image. -/
structure Preserved (source out : Image) : Prop where
  length : out.length = source.length
  /-- the flags of each record of a directory are moved, once -/
  moved : ∀ d, Reached source d → ∀ r ∈ recordsOf source d,
    out.byte (r.1 + 24) = source.byte (r.1 + 25) ∧ out.byte (r.1 + 25) = 0
  /-- nothing else is changed, but for the descriptors -/
  frame : ∀ i, OutsideDescriptors i →
    (∀ d, Reached source d → ∀ r ∈ recordsOf source d, i ≠ r.1 + 24 ∧ i ≠ r.1 + 25) →
      out.byte i = source.byte i
  /-- the walk from the new root record ends, and visits the same directories -/
  walk : ∃ turns directories, collectDirectories 25 turns source (isoRoot source) =
    some (.ok directories) ∧ collectDirectories 24 turns out (hsRoot out) = some (.ok directories) ∧
      directories.Nodup ∧ ∀ d, d ∈ directories ↔ Reached source d
  /-- they have the same records -/
  records : ∀ d, Reached source d → directoryRecords source d = .ok (recordsOf source d) ∧
    directoryRecords out d = .ok (recordsOf source d)
  /-- which say the same, but for names that go beyond their records -/
  entries : ∀ d, Reached source d → ∀ r ∈ recordsOf source d,
    (entryAt 24 out r.1).flags = (entryAt 25 source r.1).flags ∧
      (entryAt 24 out r.1).extent = (entryAt 25 source r.1).extent ∧
      (33 + (source.byte (r.1 + 32)).toNat ≤ r.2 →
        (entryAt 24 out r.1).name = (entryAt 25 source r.1).name)

section

variable {source out : Image} {directories : List Directory} {turns : Nat}

/-- What has been collected can be walked over. -/
theorem disjointed_of_collected
    (h : collectDirectories 25 turns source (isoRoot source) = some (.ok directories))
    (hapart : Apart source) : Disjointed source directories := by
  have hreached : ∀ d ∈ directories, Reached source d := fun d hd => (Worklist.run_reaches h).mp hd
  obtain ⟨hnodup, -, -, hsucc, -⟩ := Worklist.run_spec h List.nodup_nil
  refine ⟨hnodup, fun d hd => ?_, fun a ha b hb hne => hapart.directories a b (hreached a ha)
    (hreached b hb) hne, fun d hd => hapart.descriptors d (hreached d hd)⟩
  obtain ⟨next, hnext, -⟩ := hsucc d hd List.not_mem_nil
  exact walked_of_subdirectories hnext

/-- The bytes of the converted image, and its root directory. -/
theorem convertImage_spec (hdirs : Disjointed source directories)
    (h : convertImage source directories = .ok out) :
    Moved source out directories ∧ rootDirectory (hsRoot out) = rootDirectory (isoRoot source) := by
  have hsector : SECTOR_SIZE = 2048 := rfl
  have hpvd : PVD_SECTOR = 16 := rfl
  obtain ⟨hlength, hmoved, hframe⟩ := @Image.foldl_moveFlags _ source
    (placesOf_apart hdirs.nodup hdirs.walked hdirs.apart)
  obtain ⟨image, himage, h⟩ := Except.bind_eq_ok.mp h
  rw [foldlM_convertDirectory hdirs.nodup hdirs.walked hdirs.apart rfl fun _ _ _ _ => rfl] at himage
  obtain rfl := Except.ok.inj himage
  obtain ⟨descriptor, hdescriptor, h⟩ := Except.bind_eq_ok.mp h
  obtain ⟨hiso, hdlength, hdroot⟩ := convertPrimaryDescriptor_spec hdescriptor
  obtain ⟨holength, hoframe⟩ := convertTerminator_spec h
  have houtside : ∀ i, OutsideDescriptors i →
      out.byte i = ((placesOf source directories).foldl Image.moveFlags source).byte i := by
    intro i hi
    unfold OutsideDescriptors at hi
    rw [hsector, hpvd] at hi
    rw [hoframe i (by rw [hsector, hpvd]; omega),
      Image.byte_put_outside (by rw [hdlength, hsector, hpvd]; omega)]
  -- the image reaches to the end of the first descriptor
  have hreach : PVD_SECTOR * SECTOR_SIZE + SECTOR_SIZE ≤ source.length := by
    rw [isoPvd, Image.length_slice] at hiso
    rw [hsector, hpvd] at hiso ⊢
    omega
  refine ⟨⟨holength.trans hlength, fun p hp => ?_, fun i hi hnone => ?_⟩, ?_⟩
  · obtain ⟨d, hd, hpd⟩ := List.mem_flatMap.mp hp
    have hwithin := (hdirs.walked d hd).place hpd
    have hout : ∀ k, k < 34 → OutsideDescriptors (p + k) := fun k hk =>
      hdirs.descriptors d hd _ (hwithin _ (by omega) (by omega))
    rw [houtside _ (hout 24 (by omega)), houtside _ (hout 25 (by omega))]
    exact hmoved p hp
  · rw [houtside i hi, hframe i hnone]
  · have hslice : out.slice (PVD_SECTOR * SECTOR_SIZE) SECTOR_SIZE = descriptor := by
      have hput := @Image.slice_put ((placesOf source directories).foldl Image.moveFlags source)
        (PVD_SECTOR * SECTOR_SIZE) descriptor (by rw [hlength, hdlength]; exact hreach)
      rw [hdlength] at hput
      rw [← hput]
      refine Image.slice_congr holength fun i hlo hhi _ => hoframe i (.inl ?_)
      rw [hsector, hpvd] at hhi ⊢
      omega
    rw [hsRoot, hslice, hdroot, rootDirectory_set]
    rfl

/-- The two walks. -/
theorem collectDirectories_moved
    (hcollected : collectDirectories 25 turns source (isoRoot source) = some (.ok directories))
    (hdirs : Disjointed source directories) (h : Moved source out directories)
    (hroot : rootDirectory (hsRoot out) = rootDirectory (isoRoot source)) :
    collectDirectories 24 turns out (hsRoot out) = some (.ok directories) := by
  rw [collectDirectories, hroot]
  exact Worklist.run_congr hcollected List.nodup_nil fun d hd => h.subdirectories_eq hdirs hd

/-- A directory with records lies in the image, so there are finitely many. -/
theorem exists_collectDirectories (flagsAt : Nat) (image : Image) (root : Bytes) :
    ∃ turns r, collectDirectories flagsAt turns image root = some r := by
  refine Worklist.exists_run (S := Finset.range (image.length + 1) ×ˢ Finset.range (image.length + 1))
    (fun d next h => ?_) _ _
  have hstop := (walked_of_subdirectories h).within.1
  have hsector : SECTOR_SIZE = 2048 := rfl
  rw [Directory.stop, Directory.start, hsector] at hstop
  rw [Finset.mem_product, Finset.mem_range, Finset.mem_range]
  omega

/-- An accepted image is converted. -/
theorem converted_spec (h : converted turns source = some (.ok out)) (hapart : Apart source) :
    Preserved source out := by
  unfold converted at h
  split at h
  · cases h
  · split at h
    · cases h
    · obtain ⟨collected, hcollected, h⟩ := Option.map_eq_some_iff.mp h
      obtain ⟨directories, rfl, himage⟩ := Except.bind_eq_ok.mp h
      have hdirs := disjointed_of_collected hcollected hapart
      have hreached : ∀ d, d ∈ directories ↔ Reached source d := fun d =>
        Worklist.run_reaches hcollected
      obtain ⟨hmoved, hroot⟩ := convertImage_spec hdirs himage
      refine ⟨hmoved.length, fun d hd r hr => ?_, fun i hi hnone => ?_, ?_, fun d hd => ?_,
        fun d hd r hr => ?_⟩
      · exact hmoved.flags _ (List.mem_flatMap.mpr
          ⟨d, (hreached d).mpr hd, List.mem_map.mpr ⟨r, hr, rfl⟩⟩)
      · refine hmoved.frame i hi fun p hp => ?_
        obtain ⟨d, hd, hp⟩ := List.mem_flatMap.mp hp
        obtain ⟨r, hr, rfl⟩ := List.mem_map.mp hp
        exact hnone d ((hreached d).mp hd) r hr
      · exact ⟨turns, directories, hcollected,
          collectDirectories_moved hcollected hdirs hmoved hroot, hdirs.nodup, hreached⟩
      · exact ⟨hdirs.walked d ((hreached d).mpr hd),
          hmoved.directoryRecords_eq hdirs ((hreached d).mpr hd)⟩
      · obtain ⟨hflags, hextent, hname, -⟩ := hmoved.entryAt_eq hdirs ((hreached d).mpr hd) hr
        exact ⟨hflags, hextent, hname⟩

end

/-- **The conversion** ends for every image. Where it raises, nothing is written; where it returns
and the directories do not meet, the image at the destination has the same directories and files. -/
theorem highSierra_spec (source : Image) (before : Option Image) :
    (∃ turns outcome, ∀ more, turns ≤ more → convert more source before = some outcome) ∧
    (∀ turns error after, convert turns source before = some (.error error, after) →
      after = before) ∧
    ∀ turns after, convert turns source before = some (.ok (), after) → Apart source →
      ∃ out, after = some out ∧ Preserved source out := by
  refine ⟨?_, fun turns error after h => ?_, fun turns after h hapart => ?_⟩
  · obtain ⟨turns, r, hr⟩ := exists_collectDirectories 25 source (isoRoot source)
    have hmore : ∀ more, turns ≤ more →
        collectDirectories 25 more source (isoRoot source) = some r := fun more hmore =>
      Worklist.run_mono hr hmore
    have hconverted : ∃ result, ∀ more, turns ≤ more → converted more source = some result := by
      unfold converted
      split
      · exact ⟨_, fun _ _ => rfl⟩
      · split
        · exact ⟨_, fun _ _ => rfl⟩
        · exact ⟨_, fun more h => congrArg _ (hmore more h)⟩
    obtain ⟨result, hresult⟩ := hconverted
    exact ⟨turns, _, fun more h => congrArg _ (hresult more h)⟩
  · obtain ⟨result, -, hresult⟩ := Option.map_eq_some_iff.mp h
    cases result with
    | error e => exact (Prod.mk.inj hresult).2.symm
    | ok image => cases hresult
  · obtain ⟨result, hconverted, hresult⟩ := Option.map_eq_some_iff.mp h
    cases result with
    | error e => cases hresult
    | ok out => exact ⟨out, (Prod.mk.inj hresult).2.symm, converted_spec hconverted hapart⟩

/-! ## A name that goes beyond its record -/

/-- A window of a window. -/
theorem Image.slice_slice {image : Image} {off n k w : Nat} (h : k + w ≤ n) :
    (image.slice off n).slice k w = image.slice (off + k) w := by
  apply List.ext_getElem?
  intro i
  rw [List.getElem?_slice]
  by_cases hi : i < w ∧ off + k + i < image.length
  · rw [if_pos hi.1, Image.getElem?_slice (by omega) (by omega), Image.getElem?_slice hi.1 hi.2,
      Nat.add_assoc]
  · have hlen := image.length_slice (off + k) w
    have hlen' := image.length_slice off n
    by_cases hw : i < w
    · rw [if_pos hw, List.getElem?_eq_none (by omega), List.getElem?_eq_none (by omega)]
    · rw [if_neg hw, List.getElem?_eq_none (by omega)]

/-- Two descriptors as they have to be. -/
structure PlainDescriptors (source : Image) : Prop where
  room : (PVD_SECTOR + 2) * SECTOR_SIZE ≤ source.length
  primary : source.slice (PVD_SECTOR * SECTOR_SIZE + 1) 5 = ISO_ID ∧
    source.slice (PVD_SECTOR * SECTOR_SIZE) 1 = [1]
  terminator : source.slice ((PVD_SECTOR + 1) * SECTOR_SIZE + 1) 5 = ISO_ID ∧
    source.slice ((PVD_SECTOR + 1) * SECTOR_SIZE) 1 = [255]

theorem convertImage_returns {source : Image} {directories : List Directory}
    (hdirs : Disjointed source directories) (h : PlainDescriptors source) :
    ∃ out, convertImage source directories = .ok out := by
  have hsector : SECTOR_SIZE = 2048 := rfl
  have hpvd : PVD_SECTOR = 16 := rfl
  have hroom := h.room
  rw [hsector, hpvd] at hroom
  obtain ⟨hlength, -, hframe⟩ := @Image.foldl_moveFlags _ source
    (placesOf_apart hdirs.nodup hdirs.walked hdirs.apart)
  have hiso : (isoPvd source).length = SECTOR_SIZE := by
    rw [isoPvd, Image.length_slice, hsector, hpvd]
    omega
  have hroot : ((isoPvd source).slice 156 34).length = 34 := by
    rw [List.length_slice, hiso, hsector]
    rfl
  have hvalid : ¬((isoPvd source).length ≠ SECTOR_SIZE ∨ (isoPvd source).slice 1 5 ≠ ISO_ID ∨
      (isoPvd source).slice 0 1 ≠ [1]) := by
    rw [isoPvd, Image.slice_slice (by decide), Image.slice_slice (by decide), ← isoPvd]
    exact fun hor => hor.elim (fun hne => hne hiso) fun hor => hor.elim (fun hne => hne h.primary.1)
      fun hne => hne h.primary.2
  obtain ⟨descriptor, hdescriptor⟩ : ∃ d, convertPrimaryDescriptor (isoPvd source) = .ok d := by
    rw [convertPrimaryDescriptor, if_neg hvalid, convertDirectoryRecord, if_neg (by omega)]
    exact ⟨_, rfl⟩
  have hdlength := (convertPrimaryDescriptor_spec hdescriptor).2.1
  -- neither the flags nor the first descriptor reach the terminator
  have hsame : ∀ off n, (PVD_SECTOR + 1) * SECTOR_SIZE ≤ off →
      off + n ≤ (PVD_SECTOR + 2) * SECTOR_SIZE →
      (((placesOf source directories).foldl Image.moveFlags source).put
        (PVD_SECTOR * SECTOR_SIZE) descriptor).slice off n = source.slice off n := by
    intro off n hlo hhi
    rw [hsector, hpvd] at hlo hhi
    refine Image.slice_congr hlength fun i hi hi' _ => ?_
    rw [Image.byte_put_outside (by rw [hdlength, hsector, hpvd]; omega)]
    refine hframe i fun p hp => ?_
    obtain ⟨d, hd, hpd⟩ := List.mem_flatMap.mp hp
    have hwithin := (hdirs.walked d hd).place hpd
    have hout : ∀ k, k < 34 → OutsideDescriptors (p + k) := fun k hk =>
      hdirs.descriptors d hd _ (hwithin _ (by omega) (by omega))
    have h24 := hout 24 (by omega)
    have h25 := hout 25 (by omega)
    unfold OutsideDescriptors at h24 h25
    rw [hsector, hpvd] at h24 h25
    omega
  obtain ⟨out, hout⟩ : ∃ out, convertTerminator
      (((placesOf source directories).foldl Image.moveFlags source).put
        (PVD_SECTOR * SECTOR_SIZE) descriptor) = .ok out := by
    unfold convertTerminator
    simp only
    rw [if_pos, if_neg, if_pos]
    · exact ⟨_, rfl⟩
    · rw [Image.slice_slice (by decide), Nat.add_zero, hsame _ 1 (le_refl _) (by decide)]
      exact h.terminator.2
    · rw [Image.slice_slice (by decide), hsame _ _ (by decide) (by decide), not_not]
      exact h.terminator.1
    · rw [Image.put, hlength, hsector, hpvd]
      omega
  have himage := @foldlM_convertDirectory source source directories hdirs.nodup hdirs.walked
    hdirs.apart rfl fun _ _ _ _ => rfl
  exact ⟨out, Except.bind_eq_ok.mpr
    ⟨_, himage, Except.bind_eq_ok.mpr ⟨descriptor, hdescriptor, hout⟩⟩⟩

/-- The bytes of an image with one directory: a record whose name reaches into the next, which is
that of the directory itself. -/
def overlongBytes : List (Nat × UInt8) :=
  [(32768, 1), (32769, 0x43), (32770, 0x44), (32771, 0x30), (32772, 0x30), (32773, 0x31),
    -- the root record: sector 18, 2048 bytes
    (32926, 18), (32935, 8), (32949, 2),
    (34816, 255), (34817, 0x43), (34818, 0x44), (34819, 0x30), (34820, 0x30), (34821, 0x31),
    (36864, 34), (36896, 27), (36897, 0x41),
    (36898, 34), (36923, 2), (36930, 1)]

def overlongImage : Image := ⟨38912, fun i => (overlongBytes.lookup i).getD 0⟩

theorem recordsFrom_overlong :
    recordsFrom overlongImage 38912 36864 = .ok [(36864, 34), (36898, 34)] := by
  have hend : recordsFrom overlongImage 38912 38912 = .ok [] := by
    rw [recordsFrom, if_neg (by decide)]
  have hpadding : recordsFrom overlongImage 38912 36932 = .ok [] := by
    rw [recordsFrom, if_pos (by decide)]
    exact (if_pos (by decide)).trans hend
  have hsecond : recordsFrom overlongImage 38912 36898 = .ok [(36898, 34)] := by
    rw [recordsFrom, if_pos (by decide)]
    refine (if_neg (by decide)).trans ((if_neg (by decide)).trans ?_)
    exact Except.bind_eq_ok.mpr ⟨[], hpadding, rfl⟩
  rw [recordsFrom, if_pos (by decide)]
  refine (if_neg (by decide)).trans ((if_neg (by decide)).trans ?_)
  exact Except.bind_eq_ok.mpr ⟨_, hsecond, rfl⟩

theorem overlong_root : rootDirectory (isoRoot overlongImage) = (18, 2048) := by
  rw [isoRoot, isoPvd, Image.slice_slice (by decide)]
  decide +kernel

theorem overlong_walked : Walked overlongImage (18, 2048) ∧
    recordsOf overlongImage (18, 2048) = [(36864, 34), (36898, 34)] := by
  have hrecords : directoryRecords overlongImage (18, 2048) = .ok [(36864, 34), (36898, 34)] :=
    (if_neg (by decide)).trans recordsFrom_overlong
  have hof : recordsOf overlongImage (18, 2048) = [(36864, 34), (36898, 34)] := by
    rw [recordsOf, hrecords]
    rfl
  exact ⟨hrecords.trans (congrArg Except.ok hof.symm), hof⟩

theorem overlong_collected :
    collectDirectories 25 1 overlongImage (isoRoot overlongImage) = some (.ok [(18, 2048)]) := by
  have hnext : subdirectories 25 overlongImage (18, 2048) = .ok [] := by
    have hwalked : directoryRecords overlongImage (18, 2048) = .ok _ := overlong_walked.1
    rw [subdirectories, hwalked, overlong_walked.2]
    refine congrArg Except.ok ?_
    decide +kernel
  rw [collectDirectories, overlong_root, Worklist.run_of_new List.not_mem_nil hnext]
  exact Worklist.run_nil

theorem overlong_apart : Apart overlongImage := by
  have hone : ∀ d, Reached overlongImage d → d = (18, 2048) := fun d hd =>
    List.mem_singleton.mp ((Worklist.run_reaches overlong_collected).mpr hd)
  refine ⟨fun a b ha hb hne => absurd ((hone a ha).trans (hone b hb).symm) hne, fun a ha i hi => ?_⟩
  rw [hone a ha] at hi
  exact .inr hi.1

theorem overlong_converted : ∃ out, converted 1 overlongImage = some (.ok out) := by
  obtain ⟨out, hout⟩ := convertImage_returns (disjointed_of_collected overlong_collected
    overlong_apart) ⟨by decide, by decide +kernel, by decide +kernel⟩
  refine ⟨out, ?_⟩
  rw [converted, if_neg (by decide), if_neg, overlong_collected]
  · exact congrArg some hout
  · rw [isoPvd, Image.slice_slice (by decide), not_not]
    decide +kernel

/-- The name of a record that goes beyond it is another one in the result. -/
theorem overlong_name : ∃ out d r, convert 1 overlongImage none = some (.ok (), some out) ∧
    Apart overlongImage ∧ Reached overlongImage d ∧ r ∈ recordsOf overlongImage d ∧
      (entryAt 24 out r.1).name ≠ (entryAt 25 overlongImage r.1).name := by
  obtain ⟨out, hout⟩ := overlong_converted
  have hpreserved := converted_spec hout overlong_apart
  have hreached : Reached overlongImage (18, 2048) :=
    (Worklist.run_reaches overlong_collected).mp (List.mem_singleton_self _)
  have hrecords := overlong_walked.2
  refine ⟨out, (18, 2048), (36864, 34), ?_, overlong_apart, hreached, ?_, fun heq => ?_⟩
  · rw [convert, hout]
    rfl
  · rw [hrecords]
    exact List.mem_cons_self
  · have hflags : out.byte 36923 = 0 := by
      refine (hpreserved.moved _ hreached (36898, 34) ?_).2
      rw [hrecords]
      exact List.mem_cons_of_mem _ (List.mem_singleton_self _)
    have hlength : out.byte 36896 = 27 := by
      refine (hpreserved.frame 36896 (.inr (by decide)) fun d hd r hr => ?_).trans (by decide)
      have hd' := List.mem_singleton.mp ((Worklist.run_reaches overlong_collected).mpr hd)
      rw [hd', hrecords] at hr
      revert r
      decide
    -- the last byte of the name is the flags of the next record
    have hlast := congrArg (fun name : Bytes => name[26]?) heq
    rw [entryAt, entryAt] at hlast
    dsimp only at hlast
    rw [hlength, Image.getElem?_slice (by decide) (by rw [hpreserved.length]; decide),
      Image.getElem?_slice (by decide) (by decide), hflags] at hlast
    exact absurd hlast (by decide)

end Mountin.HighSierra
