import Mountin.Basic.Checked
import Mountin.Disk.Tracks

set_option autoImplicit false

/-! # APRIDISK images

`apridisk.rs` scans a sequence of records, remembers the sectors among them, derives the
geometry from the highest numbers it has seen and puts every sector at its place. `Records`
says what the records of a file are without the scan; `scan_spec` and `place_spec` connect the
two passes with it, and `mkapridisk.py` is read back by `reconstruct_mkapridisk`.
-/

namespace Mountin.Apridisk

open Tracks (leBytes)

/-- `b"ACT Apricot disk image\x1a\x04"`. -/
def MAGIC : Bytes :=
  [0x41, 0x43, 0x54, 0x20, 0x41, 0x70, 0x72, 0x69, 0x63, 0x6f, 0x74, 0x20, 0x64, 0x69, 0x73,
    0x6b, 0x20, 0x69, 0x6d, 0x61, 0x67, 0x65, 0x1a, 0x04]

def HEADER_SIZE : Nat := 128
def RECORD_HEADER_SIZE : Nat := 16
def SECTOR_SIZE : Nat := 512
def MAX_SECTORS : Nat := 2880
def APR_SECTOR : Nat := 0xe31d0001
def APR_UNCOMPRESSED : Nat := 0x9e90
def APR_COMPRESSED : Nat := 0x3e5a
def MAX_TRACK : Nat := 159
def MAX_HEAD : Nat := 1
def MAX_SECTOR : Nat := 64

/-- `invalid`. -/
def invalid {α : Type} (msg : String) : Checked IoError α := .error (.error (.invalidData msg))

/-- `le16` and `le32`: the bytes at an index and behind it. -/
def le (b : Bytes) (o width : Nat) : Checked IoError Nat := do
  let bytes ← Checked.slice b o width
  return Bytes.le bytes

/-- `SectorRec`. -/
structure SectorRec where
  track : Nat
  head : Nat
  sector : Nat
  data : Bytes
  deriving DecidableEq

/-- What the scan has collected. -/
structure Scan where
  recs : List SectorRec := []
  maxTrack : Nat := 0
  maxHead : Nat := 0
  maxSector : Nat := 0

/-- A sector record is added. -/
def Scan.push (s : Scan) (r : SectorRec) : Scan where
  recs := s.recs ++ [r]
  maxTrack := max s.maxTrack r.track
  maxHead := max s.maxHead r.head
  maxSector := max s.maxSector r.sector

/-- The data of a sector record, by its compression mode. -/
def decodeSector (compression : Nat) (payload : Bytes) : Checked IoError Bytes :=
  if compression = APR_UNCOMPRESSED then
    if payload.length < SECTOR_SIZE then invalid "APRIDISK uncompressed sector too short"
    else Checked.slice payload 0 SECTOR_SIZE
  else if compression = APR_COMPRESSED then
    if payload.length < 3 then invalid "APRIDISK compressed sector too short"
    else do
      let count ← le payload 0 2
      if count ≠ SECTOR_SIZE then invalid "APRIDISK compressed length != sector size"
      else do
        let fill ← Checked.index payload 2
        return List.replicate SECTOR_SIZE fill
  else invalid "APRIDISK unknown compression mode"

/-- The body of the scan: how far to advance, and what has been collected. -/
def scanRecord (data : Bytes) (off : Nat) (s : Scan) : Checked IoError (Nat × Scan) := do
  let rtype ← le data off 4
  let compression ← le data (off + 4) 2
  let headerSize ← le data (off + 6) 2
  let dataSize ← le data (off + 8) 4
  if headerSize < RECORD_HEADER_SIZE then invalid "APRIDISK record header too small"
  else do
    let payloadOff ← Checked.lift
      (checked (off + headerSize) (.invalidData "APRIDISK record offset overflow"))
    let next ← Checked.lift
      (checked (payloadOff + dataSize) (.invalidData "APRIDISK record offset overflow"))
    if data.length < next then invalid "APRIDISK record runs past end of file"
    else if rtype = APR_SECTOR then do
      let head ← le data (off + 12) 1
      let sector ← le data (off + 13) 1
      let track ← le data (off + 14) 2
      if MAX_TRACK < track ∨ MAX_HEAD < head ∨ sector = 0 ∨ MAX_SECTOR < sector then
        invalid "APRIDISK sector geometry out of range"
      else do
        let payload ← Checked.slice data payloadOff (next - payloadOff)
        let sec ← decodeSector compression payload
        let s := s.push { track, head, sector, data := sec }
        if MAX_SECTORS < s.recs.length then invalid "APRIDISK sector count exceeds maximum"
        else return (headerSize + dataSize, s)
    else return (headerSize + dataSize, s)

/-- The scan. It ends because every record it goes on from is not empty. -/
def scan (data : Bytes) (off : Nat) (s : Scan) : Checked IoError Scan :=
  if off + RECORD_HEADER_SIZE ≤ data.length then
    match scanRecord data off s with
    | .error e => .error e
    | .ok (advance, s) => if advance = 0 then .ok s else scan data (off + advance) s
  else .ok s
termination_by data.length - off
decreasing_by simp only [RECORD_HEADER_SIZE] at *; omega

/-- The place of a sector: the standard interleave of cylinder, head and sector. -/
def lba (heads spt track head sector : Nat) : Nat := (track * heads + head) * spt + (sector - 1)

/-- A sector is copied to its place. -/
def place (heads spt : Nat) (img : Bytes) (r : SectorRec) : Checked IoError Bytes := do
  let idx ← Checked.sub r.sector 1
  let off := ((r.track * heads + r.head) * spt + idx) * SECTOR_SIZE
  Checked.ensure (off + SECTOR_SIZE ≤ img.length ∧ r.data.length = SECTOR_SIZE)
    (img.splice off r.data)

/-- `reconstruct`. -/
def reconstruct (data : Bytes) : Checked IoError Bytes :=
  if data.length < HEADER_SIZE ∨ data.take MAGIC.length ≠ MAGIC then
    invalid "not an APRIDISK image"
  else do
    let s ← scan data HEADER_SIZE {}
    if s.recs = [] then invalid "APRIDISK contains no sector records"
    else
      let heads := s.maxHead + 1
      let spt := s.maxSector
      let tracks := s.maxTrack + 1
      let totalSectors := tracks * heads * spt
      if totalSectors = 0 ∨ MAX_SECTORS < totalSectors then
        invalid "APRIDISK geometry exceeds maximum disk size"
      else s.recs.foldlM (place heads spt) (List.replicate (totalSectors * SECTOR_SIZE) 0)

/-! ## The records of a file -/

section

variable (data : Bytes) (off : Nat)

def typeAt : Nat := leField data off 4
def compressionAt : Nat := leField data (off + 4) 2
def headerSizeAt : Nat := leField data (off + 6) 2
def dataSizeAt : Nat := leField data (off + 8) 4
def headAt : Nat := leField data (off + 12) 1
def sectorNumberAt : Nat := leField data (off + 13) 1
def trackAt : Nat := leField data (off + 14) 2

/-- The payload of a record. -/
def payloadAt : Bytes := data.slice (off + headerSizeAt data off) (dataSizeAt data off)

/-- A record has a header of at least 16 bytes and lies in the file. -/
structure Framed : Prop where
  room : off + RECORD_HEADER_SIZE ≤ data.length
  header : RECORD_HEADER_SIZE ≤ headerSizeAt data off
  within : off + headerSizeAt data off + dataSizeAt data off ≤ data.length

/-- Where the next record starts. -/
def nextAt : Nat := off + (headerSizeAt data off + dataSizeAt data off)

/-- The numbers of a sector record are those of a disk. -/
def GeometryAt : Prop :=
  trackAt data off ≤ MAX_TRACK ∧ headAt data off ≤ MAX_HEAD ∧
    1 ≤ sectorNumberAt data off ∧ sectorNumberAt data off ≤ MAX_SECTOR

instance : Decidable (GeometryAt data off) := by
  unfold GeometryAt
  infer_instance

end

/-- What a payload decodes to: itself, or a repeated byte. -/
def decoded (compression : Nat) (payload : Bytes) : Option Bytes :=
  if compression = APR_UNCOMPRESSED then
    if SECTOR_SIZE ≤ payload.length then some (payload.take SECTOR_SIZE) else none
  else if compression = APR_COMPRESSED then
    if Bytes.le (payload.take 2) = SECTOR_SIZE then
      payload[2]?.map (List.replicate SECTOR_SIZE)
    else none
  else none

/-- The sector of a well-formed sector record. -/
def sectorAt (data : Bytes) (off : Nat) : Option SectorRec :=
  if GeometryAt data off then
    (decoded (compressionAt data off) (payloadAt data off)).map
      fun sec => ⟨trackAt data off, headAt data off, sectorNumberAt data off, sec⟩
  else none

/-- The sectors that a file holds from an offset on. -/
inductive Records (data : Bytes) : Nat → List SectorRec → Prop where
  | done {off : Nat} (h : data.length < off + RECORD_HEADER_SIZE) : Records data off []
  | other {off : Nat} {recs : List SectorRec} (h : Framed data off)
      (htype : typeAt data off ≠ APR_SECTOR) (rest : Records data (nextAt data off) recs) :
      Records data off recs
  | sector {off : Nat} {r : SectorRec} {recs : List SectorRec} (h : Framed data off)
      (htype : typeAt data off = APR_SECTOR) (hsector : sectorAt data off = some r)
      (rest : Records data (nextAt data off) recs) : Records data off (r :: recs)

/-- The offsets at which the records of a file start. -/
inductive Reached (data : Bytes) : Nat → Prop where
  | first : Reached data HEADER_SIZE
  | next {off : Nat} (h : Reached data off) (hframed : Framed data off) :
      Reached data (nextAt data off)

/-- A record that stands in a sequence of records is well formed. -/
theorem Records.here {data : Bytes} {off : Nat} {recs : List SectorRec}
    (h : Records data off recs) (hroom : off + RECORD_HEADER_SIZE ≤ data.length) :
    Framed data off ∧ (typeAt data off = APR_SECTOR → sectorAt data off ≠ none) := by
  cases h with
  | done h => exact absurd hroom (Nat.not_le.mpr h)
  | other h htype rest => exact ⟨h, fun heq => absurd heq htype⟩
  | sector h htype hsector rest => exact ⟨h, fun _ hnone => by rw [hsector] at hnone; cases hnone⟩

/-- The records of a file are determined by its bytes. -/
theorem Records.unique {data : Bytes} {off : Nat} {recs recs' : List SectorRec}
    (h : Records data off recs) (h' : Records data off recs') : recs = recs' := by
  induction h generalizing recs' with
  | done h =>
      cases h' with
      | done _ => rfl
      | other hframed _ _ => exact absurd hframed.room (Nat.not_le.mpr h)
      | sector hframed _ _ _ => exact absurd hframed.room (Nat.not_le.mpr h)
  | other h htype rest ih =>
      cases h' with
      | done hend => exact absurd h.room (Nat.not_le.mpr hend)
      | other _ _ rest' => exact ih rest'
      | sector _ hsector _ _ => exact absurd hsector htype
  | sector h htype hsector rest ih =>
      cases h' with
      | done hend => exact absurd h.room (Nat.not_le.mpr hend)
      | other _ hother _ => exact absurd htype hother
      | sector _ _ hsector' rest' =>
          obtain rfl := Option.some.inj (hsector.symm.trans hsector')
          rw [ih rest']

/-- From every record that is reached the rest of the file is a sequence of records. -/
theorem Reached.records {data : Bytes} {off : Nat} (h : Reached data off) {all : List SectorRec}
    (hall : Records data HEADER_SIZE all) : ∃ recs, Records data off recs := by
  induction h with
  | first => exact ⟨all, hall⟩
  | next h hframed ih =>
      obtain ⟨recs, hrecs⟩ := ih
      cases hrecs with
      | done hend => exact absurd hframed.room (Nat.not_le.mpr hend)
      | other _ _ rest => exact ⟨_, rest⟩
      | sector _ _ _ rest => exact ⟨_, rest⟩

/-! ## The scan -/

theorem le_eq {b : Bytes} {o width : Nat} (h : o + width ≤ b.length) :
    le b o width = .ok (leField b o width) := by
  rw [le, Checked.slice_eq h]
  rfl

/-- The two ways to decode a payload agree. -/
theorem decodeSector_eq (compression : Nat) (payload : Bytes) :
    (∃ sec, decoded compression payload = some sec ∧ decodeSector compression payload = .ok sec) ∨
    (decoded compression payload = none ∧
      ∃ e, decodeSector compression payload = .error (.error e)) := by
  unfold decoded decodeSector
  by_cases hraw : compression = APR_UNCOMPRESSED
  · rw [if_pos hraw, if_pos hraw]
    by_cases hlen : SECTOR_SIZE ≤ payload.length
    · rw [if_pos hlen, if_neg (Nat.not_lt.mpr hlen), Checked.slice_eq (by omega)]
      exact .inl ⟨_, rfl, rfl⟩
    · rw [if_neg hlen, if_pos (Nat.lt_of_not_le hlen)]
      exact .inr ⟨rfl, _, rfl⟩
  rw [if_neg hraw, if_neg hraw]
  by_cases hrle : compression = APR_COMPRESSED
  · rw [if_pos hrle, if_pos hrle]
    by_cases hlen : payload.length < 3
    · rw [if_pos hlen, List.getElem?_eq_none (by omega)]
      refine .inr ⟨?_, _, rfl⟩
      split_ifs <;> rfl
    · have hfill : payload[2]? = some payload[2] := List.getElem?_eq_getElem (by omega)
      have hcount : leField payload 0 2 = Bytes.le (payload.take 2) := rfl
      rw [if_neg hlen, le_eq (by omega), Except.ok_bind, hcount]
      by_cases h512 : Bytes.le (payload.take 2) = SECTOR_SIZE
      · rw [if_pos h512, if_neg (not_not.mpr h512), Checked.index_eq hfill, hfill]
        exact .inl ⟨_, rfl, rfl⟩
      · rw [if_neg h512, if_pos h512]
        exact .inr ⟨rfl, _, rfl⟩
  · rw [if_neg hrle, if_neg hrle]
    exact .inr ⟨rfl, _, rfl⟩

/-- What the body of the scan does on a record: it advances, with or without a sector, or stops
with an error. -/
theorem scanRecord_cases {data : Bytes} {off : Nat} (s : Scan)
    (hroom : off + RECORD_HEADER_SIZE ≤ data.length) (hsmall : data.length < 2 ^ 63) :
    (Framed data off ∧ typeAt data off ≠ APR_SECTOR ∧
      scanRecord data off s = .ok (headerSizeAt data off + dataSizeAt data off, s)) ∨
    (Framed data off ∧ typeAt data off = APR_SECTOR ∧ ∃ r, sectorAt data off = some r ∧
      s.recs.length < MAX_SECTORS ∧
      scanRecord data off s = .ok (headerSizeAt data off + dataSizeAt data off, s.push r)) ∨
    ((¬ Framed data off ∨ typeAt data off = APR_SECTOR ∧
        (sectorAt data off = none ∨ MAX_SECTORS ≤ s.recs.length)) ∧
      ∃ e, scanRecord data off s = .error (.error e)) := by
  have hlen : off + 16 ≤ data.length := hroom
  have hheader : headerSizeAt data off < 2 ^ 16 := leField_lt data (off + 6) 2
  have hsize : dataSizeAt data off < 2 ^ 32 := leField_lt data (off + 8) 4
  have hchecked : ∀ {n : Nat} (e : IoError), n < 2 ^ 64 → checked n e = .ok n :=
    fun e hn => if_pos hn
  unfold scanRecord
  rw [le_eq (by omega), Except.ok_bind, le_eq (by omega), Except.ok_bind, le_eq (by omega),
    Except.ok_bind, le_eq (by omega), Except.ok_bind,
    show leField data off 4 = typeAt data off from rfl,
    show leField data (off + 4) 2 = compressionAt data off from rfl,
    show leField data (off + 6) 2 = headerSizeAt data off from rfl,
    show leField data (off + 8) 4 = dataSizeAt data off from rfl]
  by_cases hshort : headerSizeAt data off < RECORD_HEADER_SIZE
  · refine .inr (.inr ⟨.inl fun hframed => absurd hframed.header (Nat.not_le.mpr hshort), ?_⟩)
    rw [if_pos hshort]
    exact ⟨_, rfl⟩
  rw [if_neg hshort, hchecked _ (by omega), Checked.lift, Except.ok_bind, hchecked _ (by omega),
    Checked.lift, Except.ok_bind]
  by_cases hpast : data.length < off + headerSizeAt data off + dataSizeAt data off
  · refine .inr (.inr ⟨.inl fun hframed => absurd hframed.within (Nat.not_le.mpr hpast), ?_⟩)
    rw [if_pos hpast]
    exact ⟨_, rfl⟩
  have hframed : Framed data off :=
    ⟨hroom, Nat.le_of_not_lt hshort, Nat.le_of_not_lt hpast⟩
  rw [if_neg hpast]
  by_cases htype : typeAt data off = APR_SECTOR
  swap
  · rw [if_neg htype]
    exact .inl ⟨hframed, htype, rfl⟩
  rw [if_pos htype, le_eq (by omega), Except.ok_bind, le_eq (by omega), Except.ok_bind,
    le_eq (by omega), Except.ok_bind,
    show leField data (off + 12) 1 = headAt data off from rfl,
    show leField data (off + 13) 1 = sectorNumberAt data off from rfl,
    show leField data (off + 14) 2 = trackAt data off from rfl]
  by_cases hgeometry : GeometryAt data off
  swap
  · refine .inr (.inr ⟨.inr ⟨htype, .inl (if_neg hgeometry)⟩, ?_⟩)
    rw [if_pos (by unfold GeometryAt at hgeometry; omega)]
    exact ⟨_, rfl⟩
  have hpayload : off + headerSizeAt data off
      + (off + headerSizeAt data off + dataSizeAt data off - (off + headerSizeAt data off))
      ≤ data.length := by omega
  rw [if_neg (by unfold GeometryAt at hgeometry; omega), Checked.slice_eq hpayload,
    Except.ok_bind, Nat.add_sub_cancel_left]
  rw [show (data.drop (off + headerSizeAt data off)).take (dataSizeAt data off)
    = payloadAt data off from rfl]
  rcases decodeSector_eq (compressionAt data off) (payloadAt data off) with
    ⟨sec, hdecoded, hrun⟩ | ⟨hdecoded, e, hrun⟩
  · have hsector : sectorAt data off
        = some ⟨trackAt data off, headAt data off, sectorNumberAt data off, sec⟩ := by
      rw [sectorAt, if_pos hgeometry, hdecoded, Option.map_some]
    have hlength : ∀ r : SectorRec, (s.push r).recs.length = s.recs.length + 1 :=
      fun r => List.length_append
    rw [hrun, Except.ok_bind]
    by_cases hfull : s.recs.length < MAX_SECTORS
    · refine .inr (.inl ⟨hframed, htype, _, hsector, hfull, ?_⟩)
      exact if_neg (by rw [hlength]; omega)
    · refine .inr (.inr ⟨.inr ⟨htype, .inr (Nat.le_of_not_lt hfull)⟩, ?_⟩)
      exact ⟨_, if_pos (by rw [hlength]; omega)⟩
  · refine .inr (.inr ⟨.inr ⟨htype, .inl ?_⟩, ?_⟩)
    · rw [sectorAt, if_pos hgeometry, hdecoded, Option.map_none]
    · rw [hrun]
      exact ⟨_, rfl⟩

/-- The sectors of a file are added one by one. -/
def Scan.pushAll (s : Scan) (recs : List SectorRec) : Scan := recs.foldl Scan.push s

/-- The scan from an offset: it collects the sectors of a sequence of records, unless there are
too many, and fails where there is no such sequence. The induction is on what is left. -/
theorem scan_spec {data : Bytes} (hsmall : data.length < 2 ^ 63) (off : Nat) (s : Scan) :
    (∃ recs, Records data off recs ∧ (recs = [] ∨ s.recs.length + recs.length ≤ MAX_SECTORS) ∧
      scan data off s = .ok (s.pushAll recs)) ∨
    ((¬ ∃ recs, Records data off recs ∧
        (recs = [] ∨ s.recs.length + recs.length ≤ MAX_SECTORS)) ∧
      ∃ e, scan data off s = .error (.error e)) := by
  induction hleft : data.length - off using Nat.strong_induction_on generalizing off s with
  | _ left ih =>
      subst hleft
      rw [scan]
      by_cases hroom : off + RECORD_HEADER_SIZE ≤ data.length
      swap
      · rw [if_neg hroom]
        exact .inl ⟨[], .done (Nat.lt_of_not_le hroom), .inl rfl, rfl⟩
      rw [if_pos hroom]
      -- a record is never empty, so the rest is shorter
      have hstep : Framed data off → headerSizeAt data off + dataSizeAt data off ≠ 0 ∧
          data.length - nextAt data off < data.length - off := by
        intro hframed
        have hheader := hframed.header
        unfold nextAt
        simp only [RECORD_HEADER_SIZE] at hroom hheader
        omega
      rcases scanRecord_cases s hroom hsmall with
        ⟨hframed, htype, hrun⟩ | ⟨hframed, htype, r, hr, hfull, hrun⟩ | ⟨hbad, e, hrun⟩
      · obtain ⟨hadvance, hless⟩ := hstep hframed
        simp only [hrun, hadvance, if_false]
        rcases ih _ hless (nextAt data off) s rfl with ⟨recs, hrecs, hcount, hscan⟩ | ⟨hnone, hscan⟩
        · exact .inl ⟨recs, .other hframed htype hrecs, hcount, hscan⟩
        · refine .inr ⟨?_, hscan⟩
          rintro ⟨recs, hrecs, hcount⟩
          cases hrecs with
          | done hend => exact absurd hroom (Nat.not_le.mpr hend)
          | other _ _ rest => exact hnone ⟨recs, rest, hcount⟩
          | sector _ hsector _ _ => exact htype hsector
      · obtain ⟨hadvance, hless⟩ := hstep hframed
        have hlength : (s.push r).recs.length = s.recs.length + 1 := List.length_append
        have hcounts : ∀ recs : List SectorRec,
            (recs = [] ∨ (s.push r).recs.length + recs.length ≤ MAX_SECTORS) ↔
              s.recs.length + (r :: recs).length ≤ MAX_SECTORS := by
          intro recs
          rw [hlength, List.length_cons]
          cases recs with
          | nil =>
              rw [List.length_nil]
              exact iff_of_true (.inl rfl) hfull
          | cons r' recs =>
              simp only [reduceCtorEq, false_or]
              omega
        simp only [hrun, hadvance, if_false]
        rcases ih _ hless (nextAt data off) (s.push r) rfl with
          ⟨recs, hrecs, hcount, hscan⟩ | ⟨hnone, hscan⟩
        · exact .inl ⟨r :: recs, .sector hframed htype hr hrecs, .inr ((hcounts recs).mp hcount),
            hscan⟩
        · refine .inr ⟨?_, hscan⟩
          rintro ⟨recs, hrecs, hcount⟩
          cases hrecs with
          | done hend => exact absurd hroom (Nat.not_le.mpr hend)
          | other _ hother _ => exact hother htype
          | sector _ _ hr' rest =>
              obtain rfl := Option.some.inj (hr.symm.trans hr')
              rcases hcount with hnil | hcount
              · cases hnil
              · exact hnone ⟨_, rest, (hcounts _).mpr hcount⟩
      · simp only [hrun]
        refine .inr ⟨?_, e, rfl⟩
        rintro ⟨recs, hrecs, hcount⟩
        obtain ⟨hframed, hwell⟩ := hrecs.here hroom
        rcases hbad with hbad | ⟨htype, hnone | hfull⟩
        · exact hbad hframed
        · exact hwell htype hnone
        · cases hrecs with
          | done hend => exact absurd hroom (Nat.not_le.mpr hend)
          | other _ hother _ => exact hother htype
          | sector _ _ _ rest =>
              rcases hcount with hnil | hcount
              · cases hnil
              · rw [List.length_cons] at hcount
                omega

theorem recs_pushAll (s : Scan) (recs : List SectorRec) :
    (s.pushAll recs).recs = s.recs ++ recs := by
  induction recs generalizing s with
  | nil => exact (List.append_nil _).symm
  | cons r recs ih =>
      show ((s.push r).pushAll recs).recs = _
      rw [ih, Scan.push, List.append_assoc, List.singleton_append]

/-- The highest number among the sectors. -/
def highest (number : SectorRec → Nat) (recs : List SectorRec) : Nat :=
  (recs.map number).foldl max 0

theorem geometry_pushAll (s : Scan) (recs : List SectorRec) :
    (s.pushAll recs).maxTrack = (recs.map SectorRec.track).foldl max s.maxTrack ∧
      (s.pushAll recs).maxHead = (recs.map SectorRec.head).foldl max s.maxHead ∧
      (s.pushAll recs).maxSector = (recs.map SectorRec.sector).foldl max s.maxSector := by
  induction recs generalizing s with
  | nil => exact ⟨rfl, rfl, rfl⟩
  | cons r recs ih => exact ih (s.push r)

theorem le_foldl_max (l : List Nat) (init : Nat) :
    init ≤ l.foldl max init ∧ ∀ n ∈ l, n ≤ l.foldl max init := by
  induction l generalizing init with
  | nil => exact ⟨le_rfl, by rintro n ⟨⟩⟩
  | cons a l ih =>
      obtain ⟨hinit, hall⟩ := ih (max init a)
      refine ⟨(le_max_left init a).trans hinit, ?_⟩
      rw [List.forall_mem_cons]
      exact ⟨(le_max_right init a).trans hinit, hall⟩

theorem le_highest (number : SectorRec → Nat) {recs : List SectorRec} {r : SectorRec}
    (hr : r ∈ recs) : number r ≤ highest number recs :=
  (le_foldl_max _ 0).2 _ (List.mem_map_of_mem hr)

/-! ## The placement -/

/-- A sector of a disk with so many tracks, heads and sectors per track. -/
structure SectorRec.On (tracks heads spt : Nat) (r : SectorRec) : Prop where
  track : r.track < tracks
  head : r.head < heads
  first : 1 ≤ r.sector
  last : r.sector ≤ spt
  data : r.data.length = SECTOR_SIZE

theorem pair_inj {a b c d n : Nat} (hb : b < n) (hd : d < n) (h : a * n + b = c * n + d) :
    a = c ∧ b = d := by
  have hmod : b = d := by
    have hm : (a * n + b) % n = (c * n + d) % n := congrArg (· % n) h
    rwa [Nat.mul_comm a, Nat.mul_comm c, Nat.mul_add_mod, Nat.mul_add_mod, Nat.mod_eq_of_lt hb,
      Nat.mod_eq_of_lt hd] at hm
  subst hmod
  exact ⟨Nat.eq_of_mul_eq_mul_right (by omega) (Nat.add_right_cancel h), rfl⟩

/-- Different sectors have different places. -/
theorem lba_inj {heads spt t h s t' h' s' : Nat} (hh : h < heads) (hh' : h' < heads)
    (hs : 1 ≤ s ∧ s ≤ spt) (hs' : 1 ≤ s' ∧ s' ≤ spt)
    (heq : lba heads spt t h s = lba heads spt t' h' s') : t = t' ∧ h = h' ∧ s = s' := by
  obtain ⟨hcylinder, hsector⟩ := pair_inj (by omega) (by omega) heq
  obtain ⟨htrack, hhead⟩ := pair_inj hh hh' hcylinder
  exact ⟨htrack, hhead, by omega⟩

/-- A place lies on the disk. -/
theorem lba_lt {tracks heads spt t h s : Nat} (ht : t < tracks) (hh : h < heads)
    (hs : 1 ≤ s ∧ s ≤ spt) : lba heads spt t h s < tracks * heads * spt := by
  have hcylinder : t * heads + h + 1 ≤ tracks * heads := by
    calc t * heads + h + 1 ≤ t * heads + heads := by omega
      _ = (t + 1) * heads := by ring
      _ ≤ tracks * heads := Nat.mul_le_mul_right heads ht
  calc lba heads spt t h s < (t * heads + h) * spt + spt := by unfold lba; omega
    _ = (t * heads + h + 1) * spt := by ring
    _ ≤ tracks * heads * spt := Nat.mul_le_mul_right spt hcylinder

/-- The last sector at a place. -/
def lastAt (heads spt l : Nat) (recs : List SectorRec) : Option SectorRec :=
  recs.reverse.find? fun r => lba heads spt r.track r.head r.sector = l

/-- The placement pass over the sectors of a disk does not fault, and leaves at every place the
last sector for it. -/
theorem place_spec {tracks heads spt : Nat} {recs : List SectorRec}
    (hon : ∀ r ∈ recs, r.On tracks heads spt) {img : Bytes}
    (hlen : img.length = tracks * heads * spt * SECTOR_SIZE) :
    ∃ img', recs.foldlM (place heads spt) img = .ok img' ∧
      img'.length = tracks * heads * spt * SECTOR_SIZE ∧
      ∀ l < tracks * heads * spt, img'.slice (l * SECTOR_SIZE) SECTOR_SIZE =
        ((lastAt heads spt l recs).map SectorRec.data).getD
          (img.slice (l * SECTOR_SIZE) SECTOR_SIZE) := by
  induction recs generalizing img with
  | nil => exact ⟨img, rfl, hlen, fun l _ => rfl⟩
  | cons r recs ih =>
      rw [List.forall_mem_cons] at hon
      obtain ⟨hr, hrecs⟩ := hon
      have hlt := lba_lt hr.track hr.head ⟨hr.first, hr.last⟩
      have hfits : lba heads spt r.track r.head r.sector * SECTOR_SIZE + SECTOR_SIZE
          ≤ img.length := by
        rw [hlen, ← Nat.succ_mul]
        exact Nat.mul_le_mul_right _ hlt
      have hplace : place heads spt img r
          = .ok (img.splice (lba heads spt r.track r.head r.sector * SECTOR_SIZE) r.data) := by
        rw [place, Checked.sub_eq hr.first, Except.ok_bind]
        exact Checked.ensure_eq _ ⟨hfits, hr.data⟩
      have hlen' : (img.splice (lba heads spt r.track r.head r.sector * SECTOR_SIZE) r.data).length
          = tracks * heads * spt * SECTOR_SIZE := by
        rw [List.length_splice (by rw [hr.data]; exact hfits), hlen]
      obtain ⟨img', hrun, hlength, hbytes⟩ := ih hrecs hlen'
      refine ⟨img', ?_, hlength, fun l hl => ?_⟩
      · rw [List.foldlM_cons, hplace, Except.ok_bind, hrun]
      · rw [hbytes l hl, lastAt, lastAt, List.reverse_cons, List.find?_append]
        cases recs.reverse.find? fun r => lba heads spt r.track r.head r.sector = l with
        | some r' => rfl
        | none =>
            by_cases heq : lba heads spt r.track r.head r.sector = l
            · rw [Option.none_or, List.find?_cons_of_pos (by simpa using heq), ← heq]
              exact List.slice_splice_self (by omega) hr.data
            · rw [Option.none_or, List.find?_cons_of_neg (by simpa using heq), List.find?_nil]
              apply List.slice_splice_of_disjoint (by omega)
              rw [hr.data]
              -- two places are at least a sector apart
              rcases Nat.lt_or_gt_of_ne heq with hlo | hhi
              · exact .inr (by rw [← Nat.succ_mul]; exact Nat.mul_le_mul_right _ hlo)
              · exact .inl (by rw [← Nat.succ_mul]; exact Nat.mul_le_mul_right _ hhi)

/-! ## Reconstruction -/

/-- The numbers and the data of the sectors of a file. -/
theorem sectorAt_spec {data : Bytes} {off : Nat} {r : SectorRec} (h : sectorAt data off = some r) :
    1 ≤ r.sector ∧ r.data.length = SECTOR_SIZE := by
  unfold sectorAt at h
  split_ifs at h with hgeometry
  rw [Option.map_eq_some_iff] at h
  obtain ⟨sec, hdecoded, rfl⟩ := h
  refine ⟨hgeometry.2.2.1, ?_⟩
  show sec.length = SECTOR_SIZE
  unfold decoded at hdecoded
  split_ifs at hdecoded with hraw hlen hrle hcount
  · obtain rfl := Option.some.inj hdecoded
    rw [List.length_take]
    omega
  · rw [Option.map_eq_some_iff] at hdecoded
    obtain ⟨fill, -, rfl⟩ := hdecoded
    exact List.length_replicate

theorem Records.sectors {data : Bytes} {off : Nat} {recs : List SectorRec}
    (h : Records data off recs) : ∀ r ∈ recs, 1 ≤ r.sector ∧ r.data.length = SECTOR_SIZE := by
  induction h with
  | done h => rintro r ⟨⟩
  | other h htype rest ih => exact ih
  | sector h htype hsector rest ih =>
      rw [List.forall_mem_cons]
      exact ⟨sectorAt_spec hsector, ih⟩

/-- The numbers of tracks, heads and sectors per track that the sectors span. -/
def tracksOf (recs : List SectorRec) : Nat := highest SectorRec.track recs + 1
def headsOf (recs : List SectorRec) : Nat := highest SectorRec.head recs + 1
def sptOf (recs : List SectorRec) : Nat := highest SectorRec.sector recs

theorem Records.on {data : Bytes} {off : Nat} {recs : List SectorRec}
    (h : Records data off recs) :
    ∀ r ∈ recs, r.On (tracksOf recs) (headsOf recs) (sptOf recs) := by
  intro r hr
  obtain ⟨hfirst, hdata⟩ := h.sectors r hr
  exact ⟨Nat.lt_succ_of_le (le_highest _ hr), Nat.lt_succ_of_le (le_highest _ hr), hfirst,
    le_highest SectorRec.sector hr, hdata⟩

/-- The size of a disk in sectors. -/
def sectorsOf (recs : List SectorRec) : Nat := tracksOf recs * headsOf recs * sptOf recs

/-- A file whose records `reconstruct` accepts. -/
structure Accepted (data : Bytes) (recs : List SectorRec) : Prop where
  magic : HEADER_SIZE ≤ data.length ∧ data.take MAGIC.length = MAGIC
  records : Records data HEADER_SIZE recs
  nonempty : recs ≠ []
  count : recs.length ≤ MAX_SECTORS
  size : 0 < sectorsOf recs ∧ sectorsOf recs ≤ MAX_SECTORS

/-- `reconstruct` returns exactly on the accepted files, and otherwise an error. -/
theorem reconstruct_cases {data : Bytes} (hsmall : data.length < 2 ^ 63) :
    (∃ recs, Accepted data recs ∧ reconstruct data =
      recs.foldlM (place (headsOf recs) (sptOf recs))
        (List.replicate (sectorsOf recs * SECTOR_SIZE) 0)) ∨
    ((¬ ∃ recs, Accepted data recs) ∧ ∃ e, reconstruct data = .error (.error e)) := by
  unfold reconstruct
  by_cases hmagic : data.length < HEADER_SIZE ∨ data.take MAGIC.length ≠ MAGIC
  · rw [if_pos hmagic]
    refine .inr ⟨?_, _, rfl⟩
    rintro ⟨recs, haccepted⟩
    rcases hmagic with hshort | hother
    · exact absurd haccepted.magic.1 (Nat.not_le.mpr hshort)
    · exact hother haccepted.magic.2
  rw [if_neg hmagic]
  rw [not_or, not_lt, not_not] at hmagic
  rcases scan_spec hsmall HEADER_SIZE {} with ⟨recs, hrecs, hcount, hscan⟩ | ⟨hnone, e, hscan⟩
  swap
  · rw [hscan]
    refine .inr ⟨?_, e, rfl⟩
    rintro ⟨recs, haccepted⟩
    exact hnone ⟨recs, haccepted.records, .inr (by simpa using haccepted.count)⟩
  have hcollected : ({} : Scan).pushAll recs = ⟨recs, highest SectorRec.track recs,
      highest SectorRec.head recs, highest SectorRec.sector recs⟩ := by
    obtain ⟨htrack, hhead, hsector⟩ := geometry_pushAll {} recs
    have hlist := recs_pushAll {} recs
    rw [List.nil_append] at hlist
    cases hs : ({} : Scan).pushAll recs
    simp only [hs] at htrack hhead hsector hlist
    rw [htrack, hhead, hsector, hlist]
    rfl
  have hbind : ∀ f : Scan → Checked IoError Bytes, (scan data HEADER_SIZE {} >>= f)
      = f ⟨recs, highest SectorRec.track recs, highest SectorRec.head recs,
          highest SectorRec.sector recs⟩ := by
    intro f
    rw [hscan, hcollected, Except.ok_bind]
  rw [hbind]
  have hunique : ∀ {recs'}, Accepted data recs' → recs' = recs :=
    fun haccepted => haccepted.records.unique hrecs
  by_cases hnil : recs = []
  · refine .inr ⟨?_, ?_⟩
    · rintro ⟨recs', haccepted⟩
      exact haccepted.nonempty ((hunique haccepted).trans hnil)
    · exact ⟨_, if_pos hnil⟩
  have hcount' : recs.length ≤ MAX_SECTORS := by
    rcases hcount with hempty | hle
    · exact absurd hempty hnil
    · simpa using hle
  by_cases hsize : sectorsOf recs = 0 ∨ MAX_SECTORS < sectorsOf recs
  · refine .inr ⟨?_, ?_⟩
    · rintro ⟨recs', haccepted⟩
      have hsize' := hunique haccepted ▸ haccepted.size
      omega
    · exact ⟨_, (if_neg hnil).trans (if_pos hsize)⟩
  · refine .inl ⟨recs, ⟨hmagic, hrecs, hnil, hcount', by omega⟩, ?_⟩
    exact (if_neg hnil).trans (if_neg hsize)

/-- What `reconstruct` returns. -/
theorem reconstruct_ok {data img : Bytes} (hsmall : data.length < 2 ^ 63)
    (h : reconstruct data = .ok img) :
    ∃ recs, Accepted data recs ∧ img.length = sectorsOf recs * SECTOR_SIZE ∧
      ∀ l < sectorsOf recs, img.slice (l * SECTOR_SIZE) SECTOR_SIZE =
        ((lastAt (headsOf recs) (sptOf recs) l recs).map SectorRec.data).getD
          (List.replicate SECTOR_SIZE 0) := by
  rcases reconstruct_cases hsmall with ⟨recs, haccepted, hrun⟩ | ⟨-, e, herror⟩
  swap
  · rw [herror] at h
    cases h
  obtain ⟨img', hplaced, hlength, hbytes⟩ := place_spec haccepted.records.on
    (show (List.replicate (sectorsOf recs * SECTOR_SIZE) (0 : UInt8)).length = _ from
      List.length_replicate)
  rw [hrun, hplaced] at h
  obtain rfl := Except.ok.inj h
  refine ⟨recs, haccepted, hlength, fun l hl => ?_⟩
  have hzero : (List.replicate (sectorsOf recs * SECTOR_SIZE) (0 : UInt8)).slice
      (l * SECTOR_SIZE) SECTOR_SIZE = List.replicate SECTOR_SIZE 0 := by
    have hle : (l + 1) * SECTOR_SIZE ≤ sectorsOf recs * SECTOR_SIZE :=
      Nat.mul_le_mul_right _ hl
    rw [Nat.succ_mul] at hle
    exact List.slice_replicate 0 hle
  rw [hbytes l hl, hzero]

/-- `reconstruct` does not index out of range. -/
theorem reconstruct_safe {data : Bytes} (hsmall : data.length < 2 ^ 63) :
    reconstruct data ≠ .error .fault := by
  rcases reconstruct_cases hsmall with ⟨recs, haccepted, hrun⟩ | ⟨-, e, herror⟩
  · obtain ⟨img', hplaced, -⟩ := place_spec haccepted.records.on
      (show (List.replicate (sectorsOf recs * SECTOR_SIZE) (0 : UInt8)).length = _ from
        List.length_replicate)
    rw [hrun, hplaced]
    rintro ⟨⟩
  · rw [herror]
    rintro ⟨⟩

/-! ## `mkapridisk.py` -/

/-- The geometry of `mkapridisk.py`. -/
def HEADS : Nat := 2
def SECTORS_PER_TRACK : Nat := 18
def TRACKS : Nat := 80
def TOTAL : Nat := TRACKS * HEADS * SECTORS_PER_TRACK
def APR_COMMENT : Nat := 0xe31d0002

/-- `b"mountin apridisk test fixture"`. -/
def COMMENT : Bytes :=
  [0x6d, 0x6f, 0x75, 0x6e, 0x74, 0x69, 0x6e, 0x20, 0x61, 0x70, 0x72, 0x69, 0x64, 0x69, 0x73,
    0x6b, 0x20, 0x74, 0x65, 0x73, 0x74, 0x20, 0x66, 0x69, 0x78, 0x74, 0x75, 0x72, 0x65]

/-- `record_header`: `struct.pack` of `"<IHHIBBH"`. -/
def recordHeader (rtype compression dataSize head sector track : Nat) : Bytes :=
  leBytes 4 rtype ++ leBytes 2 compression ++ leBytes 2 16 ++ leBytes 4 dataSize ++
    leBytes 1 head ++ leBytes 1 sector ++ leBytes 2 track

/-- The record of one sector: a single repeated byte is stored as its count and the byte. -/
def sectorRecord (data : Bytes) (idx : Nat) : Bytes :=
  let sec := data.slice (idx * SECTOR_SIZE) SECTOR_SIZE
  let track := idx / (HEADS * SECTORS_PER_TRACK)
  let rem := idx % (HEADS * SECTORS_PER_TRACK)
  let head := rem / SECTORS_PER_TRACK
  let sector := rem % SECTORS_PER_TRACK + 1
  if sec.count (sec.headD 0) = SECTOR_SIZE then
    recordHeader APR_SECTOR APR_COMPRESSED 3 head sector track ++
      (leBytes 2 SECTOR_SIZE ++ [sec.headD 0])
  else recordHeader APR_SECTOR APR_UNCOMPRESSED SECTOR_SIZE head sector track ++ sec

/-- What `main` writes, nothing when the input has another size. -/
def mkapridisk (data : Bytes) : Option Bytes :=
  if data.length ≠ TOTAL * SECTOR_SIZE then none
  else some (MAGIC ++ List.replicate (HEADER_SIZE - MAGIC.length) 0 ++
    (recordHeader APR_COMMENT APR_UNCOMPRESSED COMMENT.length 0 0 0 ++ COMMENT) ++
    (List.range TOTAL).flatMap (sectorRecord data))

theorem length_recordHeader (rtype compression dataSize head sector track : Nat) :
    (recordHeader rtype compression dataSize head sector track).length = 16 := by
  simp [recordHeader]

/-- A field of a record, from the bytes behind which it stands. -/
theorem leField_at (pre : Bytes) {data rest : Bytes} {off k width n : Nat}
    (h : data.drop off = pre ++ (leBytes width n ++ rest)) (hk : pre.length = k)
    (hn : n < 256 ^ width) : leField data (off + k) width = n := by
  rw [leField, List.slice, ← List.drop_drop, h, List.drop_left' hk,
    List.take_left' (Tracks.length_leBytes width n), Tracks.le_leBytes hn]

/-- A record that `mkapridisk.py` writes is framed, and its fields are those of the header. -/
theorem record_at {data payload rest : Bytes} {off rtype compression dataSize head sector track : Nat}
    (h : data.drop off =
      recordHeader rtype compression dataSize head sector track ++ payload ++ rest)
    (hpayload : payload.length = dataSize) (hrtype : rtype < 2 ^ 32)
    (hcompression : compression < 2 ^ 16) (hsize : dataSize < 2 ^ 32) (hhead : head < 256)
    (hsector : sector < 256) (htrack : track < 2 ^ 16) :
    Framed data off ∧ typeAt data off = rtype ∧ compressionAt data off = compression ∧
      headAt data off = head ∧ sectorNumberAt data off = sector ∧ trackAt data off = track ∧
      payloadAt data off = payload ∧ data.drop (nextAt data off) = rest := by
  have hlength : data.length - off = 16 + payload.length + rest.length := by
    rw [← List.length_drop, h, List.length_append, List.length_append, length_recordHeader]
  have htypeAt : typeAt data off = rtype := by
    show leField data (off + 0) 4 = _
    apply leField_at ([])
    · rw [h]
      simp only [recordHeader, List.append_assoc]
      rfl
    · simp
    · omega
  have hcompressionAt : compressionAt data off = compression := by
    apply leField_at (leBytes 4 rtype)
    · rw [h]
      simp only [recordHeader, List.append_assoc]
      rfl
    · simp
    · omega
  have hheaderAt : headerSizeAt data off = 16 := by
    apply leField_at (leBytes 4 rtype ++ leBytes 2 compression)
    · rw [h]
      simp only [recordHeader, List.append_assoc]
      rfl
    · simp
    · omega
  have hsizeAt : dataSizeAt data off = dataSize := by
    apply leField_at (leBytes 4 rtype ++ leBytes 2 compression ++ leBytes 2 16)
    · rw [h]
      simp only [recordHeader, List.append_assoc]
      rfl
    · simp
    · omega
  have hheadAt : headAt data off = head := by
    apply leField_at (leBytes 4 rtype ++ leBytes 2 compression ++ leBytes 2 16 ++ leBytes 4 dataSize)
    · rw [h]
      simp only [recordHeader, List.append_assoc]
      rfl
    · simp
    · omega
  have hsectorAt : sectorNumberAt data off = sector := by
    apply leField_at (leBytes 4 rtype ++ leBytes 2 compression ++ leBytes 2 16 ++ leBytes 4 dataSize
      ++ leBytes 1 head)
    · rw [h]
      simp only [recordHeader, List.append_assoc]
      rfl
    · simp
    · omega
  have htrackAt : trackAt data off = track := by
    apply leField_at (leBytes 4 rtype ++ leBytes 2 compression ++ leBytes 2 16 ++ leBytes 4 dataSize
      ++ leBytes 1 head ++ leBytes 1 sector)
    · rw [h]
      simp only [recordHeader, List.append_assoc]
      rfl
    · simp
    · omega
  have hpayloadAt : payloadAt data off = payload := by
    rw [payloadAt, hheaderAt, hsizeAt, List.slice, ← List.drop_drop, h, List.append_assoc,
      List.drop_left' (length_recordHeader ..), List.take_left' hpayload]
  have hnext : data.drop (nextAt data off) = rest := by
    rw [nextAt, hheaderAt, hsizeAt, ← List.drop_drop, h]
    apply List.drop_left'
    rw [List.length_append, length_recordHeader, hpayload]
  refine ⟨⟨?_, ?_, ?_⟩, htypeAt, hcompressionAt, hheadAt, hsectorAt, htrackAt, hpayloadAt, hnext⟩
  · unfold RECORD_HEADER_SIZE
    omega
  · rw [hheaderAt, RECORD_HEADER_SIZE]
  · rw [hheaderAt, hsizeAt]
    omega

/-- The sector that a record of `mkapridisk.py` holds. -/
def sectorRec (data : Bytes) (idx : Nat) : SectorRec where
  track := idx / (HEADS * SECTORS_PER_TRACK)
  head := idx % (HEADS * SECTORS_PER_TRACK) / SECTORS_PER_TRACK
  sector := idx % (HEADS * SECTORS_PER_TRACK) % SECTORS_PER_TRACK + 1
  data := data.slice (idx * SECTOR_SIZE) SECTOR_SIZE

/-- The place of a sector is its index. -/
theorem lba_sectorRec (data : Bytes) (idx : Nat) :
    lba HEADS SECTORS_PER_TRACK (sectorRec data idx).track (sectorRec data idx).head
      (sectorRec data idx).sector = idx := by
  simp only [lba, sectorRec, HEADS, SECTORS_PER_TRACK, Nat.add_sub_cancel]
  omega

theorem sectorRec_bounds (data : Bytes) {idx : Nat} (h : idx < TOTAL) :
    (sectorRec data idx).track < TRACKS ∧ (sectorRec data idx).head < HEADS ∧
      1 ≤ (sectorRec data idx).sector ∧ (sectorRec data idx).sector ≤ SECTORS_PER_TRACK := by
  simp only [TOTAL, TRACKS, HEADS, SECTORS_PER_TRACK] at h
  simp only [sectorRec, TRACKS, HEADS, SECTORS_PER_TRACK]
  omega

theorem sectorRecord_eq (data : Bytes) (idx : Nat) : sectorRecord data idx =
    let r := sectorRec data idx
    if r.data.count (r.data.headD 0) = SECTOR_SIZE then
      recordHeader APR_SECTOR APR_COMPRESSED 3 r.head r.sector r.track ++
        (leBytes 2 SECTOR_SIZE ++ [r.data.headD 0])
    else recordHeader APR_SECTOR APR_UNCOMPRESSED SECTOR_SIZE r.head r.sector r.track ++ r.data :=
  rfl

/-- The scan reads a sector record back. -/
theorem sectorRecord_at {file data rest : Bytes} {off idx : Nat}
    (hdata : data.length = TOTAL * SECTOR_SIZE) (hidx : idx < TOTAL)
    (h : file.drop off = sectorRecord data idx ++ rest) :
    Framed file off ∧ typeAt file off = APR_SECTOR ∧
      sectorAt file off = some (sectorRec data idx) ∧ file.drop (nextAt file off) = rest := by
  obtain ⟨htrack, hhead, hfirst, hlast⟩ := sectorRec_bounds data hidx
  simp only [TRACKS, HEADS, SECTORS_PER_TRACK] at htrack hhead hlast
  have hsec : (sectorRec data idx).data.length = SECTOR_SIZE := by
    have hle : (idx + 1) * SECTOR_SIZE ≤ TOTAL * SECTOR_SIZE := Nat.mul_le_mul_right _ hidx
    rw [Nat.succ_mul] at hle
    rw [sectorRec, List.length_slice]
    omega
  -- what both kinds of record have in common
  have hrecord : ∀ {compression size : Nat} {payload : Bytes}, compression < 2 ^ 16 →
      payload.length = size → size < 2 ^ 32 →
      decoded compression payload = some (sectorRec data idx).data →
      file.drop off = recordHeader APR_SECTOR compression size (sectorRec data idx).head
        (sectorRec data idx).sector (sectorRec data idx).track ++ payload ++ rest →
      Framed file off ∧ typeAt file off = APR_SECTOR ∧
        sectorAt file off = some (sectorRec data idx) ∧ file.drop (nextAt file off) = rest := by
    intro compression size payload hcompression hlength hsize hdecoded hfile
    obtain ⟨hframed, htype, hcomp, hheadAt, hsectorAt, htrackAt, hpayloadAt, hnext⟩ :=
      record_at hfile hlength (by decide) hcompression hsize (by omega) (by omega) (by omega)
    refine ⟨hframed, htype, ?_, hnext⟩
    have hgeometry : GeometryAt file off := by
      unfold GeometryAt MAX_TRACK MAX_HEAD MAX_SECTOR
      omega
    rw [sectorAt, if_pos hgeometry, hcomp, hpayloadAt, hdecoded, hheadAt, hsectorAt, htrackAt]
    rfl
  rw [sectorRecord_eq] at h
  dsimp only at h
  generalize hr : sectorRec data idx = r at *
  split_ifs at h with hsame
  · -- a repeated byte
    have hfill : r.data = List.replicate SECTOR_SIZE (r.data.headD 0) := by
      rw [List.eq_replicate_iff]
      refine ⟨hsec, fun b hb => ?_⟩
      exact (List.count_eq_length.mp (hsame.trans hsec.symm) b hb).symm
    have hcount : Bytes.le ((leBytes 2 SECTOR_SIZE ++ [r.data.headD 0]).take 2) = SECTOR_SIZE := by
      rw [List.take_left' (Tracks.length_leBytes 2 SECTOR_SIZE)]
      exact Tracks.le_leBytes (by decide)
    refine hrecord (by decide) (by simp) (by decide) ?_ h
    rw [decoded, if_neg (by decide), if_pos rfl, if_pos hcount,
      List.getElem?_append_right (by simp), Tracks.length_leBytes]
    exact congrArg some hfill.symm
  · refine hrecord (by decide) hsec (by decide) ?_ h
    rw [decoded, if_pos rfl, if_pos hsec.ge, List.take_of_length_le hsec.le]

/-- The sector records of a disk, one after the other to the end of the file. -/
theorem records_sectorRecords {file data : Bytes} (hdata : data.length = TOTAL * SECTOR_SIZE)
    (idxs : List Nat) (hidxs : ∀ idx ∈ idxs, idx < TOTAL) {off : Nat}
    (h : file.drop off = idxs.flatMap (sectorRecord data)) :
    Records file off (idxs.map (sectorRec data)) := by
  induction idxs generalizing off with
  | nil =>
      refine .done ?_
      have hend := List.drop_eq_nil_iff.mp h
      unfold RECORD_HEADER_SIZE
      omega
  | cons idx idxs ih =>
      rw [List.forall_mem_cons] at hidxs
      rw [List.flatMap_cons] at h
      obtain ⟨hframed, htype, hsector, hnext⟩ := sectorRecord_at hdata hidxs.1 h
      exact .sector hframed htype hsector (ih hidxs.2 hnext)

/-- The sectors of a disk, in order. -/
def allSectors (data : Bytes) : List SectorRec := (List.range TOTAL).map (sectorRec data)

theorem foldl_max_le {l : List Nat} {init m : Nat} (hinit : init ≤ m) (h : ∀ n ∈ l, n ≤ m) :
    l.foldl max init ≤ m := by
  induction l generalizing init with
  | nil => exact hinit
  | cons a l ih =>
      rw [List.forall_mem_cons] at h
      exact ih (max_le hinit h.1) h.2

/-- The highest number of the sectors of a disk is reached in the last one. -/
theorem highest_eq (data : Bytes) {number : SectorRec → Nat} {m : Nat}
    (h : ∀ idx < TOTAL, number (sectorRec data idx) ≤ m)
    (hlast : number (sectorRec data (TOTAL - 1)) = m) : highest number (allSectors data) = m := by
  apply Nat.le_antisymm
  · apply foldl_max_le (Nat.zero_le m)
    intro n hn
    obtain ⟨r, hr, rfl⟩ := List.mem_map.mp hn
    obtain ⟨idx, hidx, rfl⟩ := List.mem_map.mp hr
    exact h idx (List.mem_range.mp hidx)
  · rw [← hlast]
    exact le_highest number (List.mem_map_of_mem (List.mem_range.mpr (by decide)))

theorem highest_allSectors (data : Bytes) :
    tracksOf (allSectors data) = TRACKS ∧ headsOf (allSectors data) = HEADS ∧
      sptOf (allSectors data) = SECTORS_PER_TRACK := by
  have hbounds := fun idx (hidx : idx < TOTAL) => sectorRec_bounds data hidx
  simp only [TRACKS, HEADS, SECTORS_PER_TRACK] at hbounds
  refine ⟨?_, ?_, ?_⟩
  · rw [tracksOf, highest_eq data (fun idx hidx => Nat.le_of_lt_succ (hbounds idx hidx).1) rfl]
    rfl
  · rw [headsOf, highest_eq data (fun idx hidx => Nat.le_of_lt_succ (hbounds idx hidx).2.1) rfl]
    rfl
  · exact highest_eq data (fun idx hidx => (hbounds idx hidx).2.2.2) rfl

/-- Every place of a disk has its sector. -/
theorem lastAt_allSectors (data : Bytes) {l : Nat} (hl : l < TOTAL) :
    lastAt HEADS SECTORS_PER_TRACK l (allSectors data) = some (sectorRec data l) := by
  have hmem : sectorRec data l ∈ (allSectors data).reverse :=
    List.mem_reverse.mpr (List.mem_map_of_mem (List.mem_range.mpr hl))
  cases hfind : lastAt HEADS SECTORS_PER_TRACK l (allSectors data) with
  | none => exact absurd (lba_sectorRec data l) (by simpa using List.find?_eq_none.mp hfind _ hmem)
  | some r =>
      obtain ⟨idx, -, rfl⟩ := List.mem_map.mp (List.mem_reverse.mp (List.mem_of_find?_eq_some hfind))
      have hplace := List.find?_some hfind
      simp only [decide_eq_true_eq, lba_sectorRec] at hplace
      rw [hplace]

theorem length_sectorRecord_le (data : Bytes) (idx : Nat) :
    (sectorRecord data idx).length ≤ 528 := by
  rw [sectorRecord_eq]
  dsimp only
  split_ifs
  · simp [length_recordHeader]
  · rw [List.length_append, length_recordHeader, sectorRec, List.length_slice, SECTOR_SIZE]
    omega

/-- The file of a disk is accepted, with its sectors. -/
theorem mkapridisk_accepted {data file : Bytes} (h : mkapridisk data = some file) :
    file.length < 2 ^ 63 ∧ data.length = TOTAL * SECTOR_SIZE ∧ Accepted file (allSectors data) := by
  unfold mkapridisk at h
  split_ifs at h with hdata
  rw [not_not] at hdata
  obtain rfl := Option.some.inj h
  set sectors := (List.range TOTAL).flatMap (sectorRecord data) with hsectors
  set comment := recordHeader APR_COMMENT APR_UNCOMPRESSED COMMENT.length 0 0 0 ++ COMMENT
    with hcomment
  set header := MAGIC ++ List.replicate (HEADER_SIZE - MAGIC.length) 0 with hheader
  have hheaderLen : header.length = HEADER_SIZE := by
    rw [hheader, List.length_append, List.length_replicate]
    rfl
  have hcommentLen : comment.length = 45 := by
    rw [hcomment, List.length_append, length_recordHeader]
    rfl
  have hsectorsLen : sectors.length ≤ TOTAL * 528 := by
    rw [hsectors, List.length_flatMap]
    have hsum := List.sum_le_card_nsmul ((List.range TOTAL).map fun idx =>
      (sectorRecord data idx).length) 528 (by
        intro n hn
        obtain ⟨idx, -, rfl⟩ := List.mem_map.mp hn
        exact length_sectorRecord_le data idx)
    simpa using hsum
  have hlen : (header ++ comment ++ sectors).length = HEADER_SIZE + 45 + sectors.length := by
    rw [List.length_append, List.length_append, hheaderLen, hcommentLen]
  have hcommentAt : (header ++ comment ++ sectors).drop HEADER_SIZE = comment ++ sectors := by
    rw [List.append_assoc]
    exact List.drop_left' hheaderLen
  obtain ⟨hframed, htype, -, -, -, -, -, hnext⟩ := record_at hcommentAt rfl (by decide) (by decide)
    (by decide) (by decide) (by decide) (by decide)
  have hrecords : Records (header ++ comment ++ sectors) HEADER_SIZE (allSectors data) := by
    refine .other hframed (by rw [htype]; decide) ?_
    exact records_sectorRecords hdata _ (fun idx hidx => List.mem_range.mp hidx) hnext
  obtain ⟨htracks, hheads, hspt⟩ := highest_allSectors data
  have hsize : sectorsOf (allSectors data) = TOTAL := by
    rw [sectorsOf, htracks, hheads, hspt, TOTAL]
  have hcount : (allSectors data).length = TOTAL := by
    rw [allSectors, List.length_map, List.length_range]
  refine ⟨?_, hdata, ⟨?_, ?_⟩, hrecords, ?_, ?_, ?_⟩
  · have htotal : TOTAL * 528 = 1520640 := rfl
    have h128 : HEADER_SIZE = 128 := rfl
    omega
  · omega
  · rw [hheader, List.append_assoc, List.append_assoc]
    exact List.take_left' rfl
  · intro hnil
    rw [hnil] at hcount
    cases hcount
  · rw [hcount]
    decide
  · rw [hsize]
    decide

/-- What is 512 bytes at a time the same is the same. -/
theorem eq_of_sectors {a b : Bytes} {n : Nat} (ha : a.length = n * SECTOR_SIZE)
    (hb : b.length = n * SECTOR_SIZE)
    (h : ∀ l < n, a.slice (l * SECTOR_SIZE) SECTOR_SIZE = b.slice (l * SECTOR_SIZE) SECTOR_SIZE) :
    a = b := by
  apply List.ext_getElem?
  intro i
  by_cases hi : i < n * SECTOR_SIZE
  · have hl : i / SECTOR_SIZE < n := Nat.div_lt_of_lt_mul (by rwa [Nat.mul_comm])
    have hk : i % SECTOR_SIZE < SECTOR_SIZE := Nat.mod_lt _ (by decide)
    have hsplit : i / SECTOR_SIZE * SECTOR_SIZE + i % SECTOR_SIZE = i := by
      rw [Nat.mul_comm, Nat.div_add_mod]
    have heq := congrArg (fun s : Bytes => s[i % SECTOR_SIZE]?) (h _ hl)
    simpa only [List.getElem?_slice, hk, if_true, hsplit] using heq
  · rw [List.getElem?_eq_none (by omega), List.getElem?_eq_none (by omega)]

/-- Reconstruction gives back what `mkapridisk.py` wrapped. -/
theorem reconstruct_mkapridisk {data file : Bytes} (h : mkapridisk data = some file) :
    reconstruct file = .ok data := by
  obtain ⟨hsmall, hdata, haccepted⟩ := mkapridisk_accepted h
  obtain ⟨htracks, hheads, hspt⟩ := highest_allSectors data
  have hsize : sectorsOf (allSectors data) = TOTAL := by
    rw [sectorsOf, htracks, hheads, hspt, TOTAL]
  cases hrun : reconstruct file with
  | error e =>
      rcases reconstruct_cases hsmall with ⟨recs, hrecs, heq⟩ | ⟨hnone, -⟩
      · obtain ⟨img, hplaced, -⟩ := place_spec hrecs.records.on
          (show (List.replicate (sectorsOf recs * SECTOR_SIZE) (0 : UInt8)).length = _ from
            List.length_replicate)
        rw [heq, hplaced] at hrun
        cases hrun
      · exact absurd ⟨_, haccepted⟩ hnone
  | ok img =>
      obtain ⟨recs, hrecs, hlength, hbytes⟩ := reconstruct_ok hsmall hrun
      have hsectors : recs = allSectors data := hrecs.records.unique haccepted.records
      rw [hsectors, hsize] at hlength hbytes
      refine congrArg _ (eq_of_sectors hlength hdata (fun l hl => ?_))
      have hsector : ((some (sectorRec data l)).map SectorRec.data).getD (List.replicate SECTOR_SIZE 0)
          = data.slice (l * SECTOR_SIZE) SECTOR_SIZE := rfl
      rw [hbytes l hl, hheads, hspt, lastAt_allSectors data hl, hsector]

/-- The position of a sector, by the cylinder, head and sector number. -/
def atPosition (track head sector : Nat) (recs : List SectorRec) : Option SectorRec :=
  recs.reverse.find? fun r => r.track = track ∧ r.head = head ∧ r.sector = sector

/-- On the sectors of a disk a place is a cylinder, a head and a sector. -/
theorem lastAt_eq_atPosition {tracks heads spt t h s : Nat} {recs : List SectorRec}
    (hon : ∀ r ∈ recs, r.On tracks heads spt) (hh : h < heads) (hs : 1 ≤ s ∧ s ≤ spt) :
    lastAt heads spt (lba heads spt t h s) recs = atPosition t h s recs := by
  have hsame : ∀ r ∈ recs.reverse,
      decide (lba heads spt r.track r.head r.sector = lba heads spt t h s)
        = decide (r.track = t ∧ r.head = h ∧ r.sector = s) := by
    intro r hr
    have hr' := hon r (List.mem_reverse.mp hr)
    rw [decide_eq_decide]
    constructor
    · exact lba_inj hr'.head hh ⟨hr'.first, hr'.last⟩ hs
    · rintro ⟨rfl, rfl, rfl⟩
      rfl
  unfold lastAt atPosition
  generalize recs.reverse = l at hsame ⊢
  induction l with
  | nil => rfl
  | cons r l ih =>
      rw [List.forall_mem_cons] at hsame
      rw [List.find?_cons, List.find?_cons, hsame.1, ih hsame.2]

/-- **APRIDISK reconstruction.** -/
theorem apridisk_spec (data : Image) :
    reconstruct data.bytes ≠ .error .fault ∧
    (∀ img, reconstruct data.bytes = .ok img → ∃ recs, Records data.bytes HEADER_SIZE recs ∧
      img.length = tracksOf recs * headsOf recs * sptOf recs * SECTOR_SIZE ∧
      ∀ t < tracksOf recs, ∀ h < headsOf recs, ∀ s, 1 ≤ s ∧ s ≤ sptOf recs →
        img.slice (lba (headsOf recs) (sptOf recs) t h s * SECTOR_SIZE) SECTOR_SIZE =
          ((atPosition t h s recs).map SectorRec.data).getD (List.replicate SECTOR_SIZE 0)) ∧
    (∀ off, Reached data.bytes off → off + RECORD_HEADER_SIZE ≤ data.bytes.length →
      (¬ Framed data.bytes off ∨
        typeAt data.bytes off = APR_SECTOR ∧ (¬ GeometryAt data.bytes off ∨
          decoded (compressionAt data.bytes off) (payloadAt data.bytes off) = none)) →
      ∃ e, reconstruct data.bytes = .error (.error e)) ∧
    (∀ disk : Bytes, disk.length = 1474560 →
      ∃ file, mkapridisk disk = some file ∧ reconstruct file = .ok disk) := by
  have hsmall : data.bytes.length < 2 ^ 63 := data.small
  refine ⟨reconstruct_safe hsmall, fun img himg => ?_, fun off hreached hroom hbad => ?_,
    fun disk hdisk => ?_⟩
  · obtain ⟨recs, haccepted, hlength, hbytes⟩ := reconstruct_ok hsmall himg
    refine ⟨recs, haccepted.records, hlength, fun t ht h hh s hs => ?_⟩
    rw [hbytes _ (lba_lt ht hh hs), lastAt_eq_atPosition haccepted.records.on hh hs]
  · rcases reconstruct_cases hsmall with ⟨recs, haccepted, -⟩ | ⟨-, herror⟩
    · obtain ⟨here, hhere⟩ := hreached.records haccepted.records
      obtain ⟨hframed, hwell⟩ := hhere.here hroom
      rcases hbad with hbad | ⟨htype, hgeometry | hnone⟩
      · exact absurd hframed hbad
      · exact absurd (if_neg hgeometry) (hwell htype)
      · refine absurd ?_ (hwell htype)
        rw [sectorAt, hnone]
        exact ite_self none
    · exact herror
  · have htotal : TOTAL * SECTOR_SIZE = 1474560 := by
      simp only [TOTAL, TRACKS, HEADS, SECTORS_PER_TRACK, SECTOR_SIZE]
    obtain ⟨file, hfile⟩ : ∃ file, mkapridisk disk = some file := by
      rw [mkapridisk, if_neg (not_not.mpr (hdisk.trans htotal.symm))]
      exact ⟨_, rfl⟩
    exact ⟨file, hfile, reconstruct_mkapridisk hfile⟩

/-- A disk of one sector, behind it a comment without a compression mode and three stray
bytes. -/
def commented : Bytes :=
  MAGIC ++ List.replicate 104 0 ++
    (recordHeader APR_SECTOR APR_COMPRESSED 3 0 1 0 ++ [0, 2, 0xaa]) ++
    recordHeader APR_COMMENT 0 0 0 0 0 ++ [1, 2, 3]

theorem commented_records : Records commented HEADER_SIZE
    [⟨0, 0, 1, List.replicate SECTOR_SIZE 0xaa⟩] := by
  have hsecond : nextAt commented HEADER_SIZE = 147 := by decide +kernel
  have hthird : nextAt commented 147 = 163 := by decide +kernel
  refine .sector ⟨?_, ?_, ?_⟩ ?_ ?_ ?_
  · decide +kernel
  · decide +kernel
  · decide +kernel
  · decide +kernel
  · decide +kernel
  · rw [hsecond]
    refine .other ⟨?_, ?_, ?_⟩ ?_ ?_
    · decide +kernel
    · decide +kernel
    · decide +kernel
    · decide +kernel
    · rw [hthird]
      exact .done (by decide +kernel)

/-- A comment is skipped whatever its compression mode. -/
theorem comment_mode_ignored :
    ¬ ∀ (data : Image) (off : Nat), Reached data.bytes off →
      off + RECORD_HEADER_SIZE ≤ data.bytes.length →
      compressionAt data.bytes off ≠ APR_UNCOMPRESSED ∧
        compressionAt data.bytes off ≠ APR_COMPRESSED →
      ∃ e, reconstruct data.bytes = .error (.error e) := by
  intro h
  have hframed : Framed commented HEADER_SIZE := (commented_records.here (by decide +kernel)).1
  have hreached : Reached commented 147 := by
    have hnext : nextAt commented HEADER_SIZE = 147 := by decide +kernel
    exact hnext ▸ Reached.next .first hframed
  obtain ⟨e, he⟩ := h ⟨commented, by decide +kernel⟩ 147 hreached (by decide +kernel)
    (by decide +kernel)
  rcases reconstruct_cases (show commented.length < 2 ^ 63 by decide +kernel) with
    ⟨recs, haccepted, hrun⟩ | ⟨hnone, -⟩
  · obtain ⟨img, hplaced, -⟩ := place_spec haccepted.records.on
      (show (List.replicate (sectorsOf recs * SECTOR_SIZE) (0 : UInt8)).length = _ from
        List.length_replicate)
    rw [hplaced] at hrun
    cases hrun.symm.trans he
  · refine hnone ⟨_, ⟨⟨?_, ?_⟩, commented_records, ?_, ?_, ?_⟩⟩ <;> decide +kernel

end Mountin.Apridisk
