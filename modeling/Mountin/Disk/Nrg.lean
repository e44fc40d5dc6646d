import Mountin.Disk.Tracks

set_option autoImplicit false

/-! # NRG images

`nrg.rs` walks the chunks behind the data of a Nero image, `mknrg.py` writes them. The lengths of
the chunks are read from the image, so that a walk over any bytes has to make progress by itself.

* `parseChunks_ends` : the walk ends over every reader that has nothing behind its end.
* `parseEtnEntries_at` : the entries that were written are read back.
* `nrg_agrees` : the children of an image that was written are its tracks, and every walk ends.
-/

namespace Mountin.Nrg

open Tracks

/-! ## The reader -/

/-- `enum TrackMode`. -/
inductive TrackMode where
  | Mode1
  | Mode2
  | Mode2Xa1
  | Mode2Raw
  | Audio
  | Mode1Raw
  | Mode2Xa1Raw
  | Mode2Xa2Raw
  deriving DecidableEq

/-- `TrackMode::from_code`. -/
def TrackMode.fromCode : Nat → Option TrackMode
  | 0x00 => some Mode1
  | 0x02 => some Mode2
  | 0x03 => some Mode2Xa1
  | 0x06 => some Mode2Raw
  | 0x07 => some Audio
  | 0x0f => some Mode1Raw
  | 0x10 => some Mode2Xa1Raw
  | 0x11 => some Mode2Xa2Raw
  | _ => none

/-- `struct Track`: where it begins and how many bytes it has. -/
structure Track where
  offset : Nat
  length : Nat

/-- The chunk ids that the walk knows: "END!", "DAOX", "DAOI", "ETN2", "ETNF". -/
def END : Bytes := [0x45, 0x4e, 0x44, 0x21]
def DAOX : Bytes := [0x44, 0x41, 0x4f, 0x58]
def DAOI : Bytes := [0x44, 0x41, 0x4f, 0x49]
def ETN2 : Bytes := [0x45, 0x54, 0x4e, 0x32]
def ETNF : Bytes := [0x45, 0x54, 0x4e, 0x46]

/-- The signatures of the footer: "NER5", "NERO". -/
def NER5 : Bytes := [0x4e, 0x45, 0x52, 0x35]
def NERO : Bytes := [0x4e, 0x45, 0x52, 0x4f]

/-- The loop of `parse_dao_chunk` over the entries. An entry of an unknown mode is skipped. -/
def parseDaoEntries (reader : Reader) (chunkId : Bytes) :
    Nat → Nat → Except IoError (List Track)
  | 0, _ => .ok []
  | numEntries + 1, entryPos => do
      let entrySize := if chunkId = DAOX then 18 + 24 else 18 + 12
      let _sectorCode ← readBe reader 2 (entryPos + 12)
      let modeCode ← readBe reader 1 (entryPos + 14)
      if TrackMode.fromCode modeCode = none then
        parseDaoEntries reader chunkId numEntries (entryPos + entrySize)
      else
        let width := if chunkId = DAOX then 8 else 4
        let _pregap ← readBe reader width (entryPos + 18)
        let start ← readBe reader width (entryPos + 18 + width)
        let fin ← readBe reader width (entryPos + 18 + 2 * width)
        let tracks ← parseDaoEntries reader chunkId numEntries (entryPos + entrySize)
        return ⟨start, fin - start⟩ :: tracks

/-- `parse_dao_chunk`. -/
def parseDaoChunk (reader : Reader) (offset length : Nat) (chunkId : Bytes) :
    Except IoError (List Track) :=
  let entrySize := if chunkId = DAOX then 18 + 24 else 18 + 12
  if length < 22 then .ok []
  else parseDaoEntries reader chunkId ((length - 22) / entrySize) (offset + 22)

/-- The loop of `parse_etn_chunk` over the entries; `width` is that of an offset. -/
def parseEtnEntries (reader : Reader) (width : Nat) : Nat → Nat → Except IoError (List Track)
  | 0, _ => .ok []
  | numEntries + 1, entryPos => do
      let off ← readBe reader width entryPos
      let size ← readBe reader width (entryPos + width)
      let modeVal ← readBe reader 4 (entryPos + 2 * width)
      let tracks ← parseEtnEntries reader width numEntries (entryPos + (2 * width + 8))
      -- `mode_val as u8`
      if TrackMode.fromCode (modeVal % 256) = none then return tracks
      else return ⟨off, size⟩ :: tracks

/-- `parse_etn_chunk`: entries of two offsets, a mode and a sector. -/
def parseEtnChunk (reader : Reader) (offset length : Nat) (chunkId : Bytes) :
    Except IoError (List Track) :=
  if chunkId = ETN2 then parseEtnEntries reader 8 (length / 24) offset
  else parseEtnEntries reader 4 (length / 16) offset

/-- What a chunk adds to the tracks. -/
def chunkTracks (reader : Reader) (pos chunkLen : Nat) (chunkId : Bytes) :
    Except IoError (List Track) :=
  if chunkId = DAOX ∨ chunkId = DAOI then parseDaoChunk reader pos chunkLen chunkId
  else if chunkId = ETN2 ∨ chunkId = ETNF then parseEtnChunk reader pos chunkLen chunkId
  else .ok []

/-- A turn of the loop of `parse_chunks`: nothing when the loop breaks, else the tracks of the
chunk and the position behind it. -/
def chunkTurn (reader : Reader) (fileSize pos : Nat) :
    Except IoError (Option (List Track × Nat)) :=
  if wrap (pos + 8) > fileSize then .ok none
  else do
    let chunkId ← readBytes reader pos 4
    let chunkLen ← readBe reader 4 (pos + 4)
    if chunkId = END then return none
    let newTracks ← chunkTracks reader (pos + 8) chunkLen chunkId
    return some (newTracks, wrap (pos + 8 + chunkLen))

/-- `parse_chunks`, in so many turns at most; `none` when these do not suffice. -/
def parseChunks (reader : Reader) (fileSize : Nat) :
    (turns pos : Nat) → Option (Except IoError (List Track))
  | 0, _ => none
  | turns + 1, pos =>
      match chunkTurn reader fileSize pos with
      | .error e => some (.error e)
      | .ok none => some (.ok [])
      | .ok (some (newTracks, pos)) =>
          (parseChunks reader fileSize turns pos).map (Except.map (newTracks ++ ·))

/-- The part of `parse_nrg` before the walk: the size of the image and where the chunks begin. -/
def chunkOffset (reader : Reader) : Except IoError (Nat × Nat) := do
  let fileSize ← fileSizeOf reader
  require (12 ≤ fileSize) (.invalidData "file too small")
  let sig ← readBytes reader (fileSize - 12) 4
  if sig = NER5 then
    let offset ← readBe reader 8 (fileSize - 8)
    return (fileSize, offset)
  else
    -- the old format
    let sig ← readBytes reader (fileSize - 8) 4
    require (sig = NERO) (.invalidData "not an NRG file")
    let offset ← readBe reader 4 (fileSize - 4)
    return (fileSize, offset)

/-- `parse_nrg`, with so many turns of the walk at most. -/
def parseNrg (reader : Reader) (turns : Nat) : Option (Except IoError (List Track)) :=
  match chunkOffset reader with
  | .error e => some (.error e)
  | .ok (fileSize, offset) => parseChunks reader fileSize turns offset

/-- The child of a track. -/
def childOf (idx : Nat) (track : Track) : Child where
  index := UInt32.ofNat idx
  offset := track.offset
  view := .slice track.offset track.length

/-- `NrgContainer::children`, with so many turns of the walk at most. -/
def children (reader : Reader) (turns : Nat) : Option (Except IoError (List Child)) :=
  (parseNrg reader turns).map (Except.map (List.mapIdx childOf))

/-! ## The writer -/

/-- `MODE_CODES`. -/
def modeCode : TrackType → Nat
  | .audio => 0x07
  | .mode1 => 0x00
  | .mode2 => 0x02

/-- `write_chunk`: what it writes. -/
def writeChunk (chunkId data : Bytes) : Option Bytes := do
  let length ← packBe 4 data.length
  return chunkId ++ length ++ data

/-- `write_etn2_entry`. -/
def writeEtn2Entry (offset size mode sector : Nat) : Option Bytes := do
  let offset ← packBe 8 offset
  let size ← packBe 8 size
  let mode ← packBe 4 mode
  let sector ← packBe 4 sector
  return offset ++ size ++ mode ++ sector

/-- `track_entries`, from `current_offset` and `current_sector` on. -/
def trackEntries : List TrackFile → (currentOffset currentSector : Nat) → Option (List Bytes)
  | [], _, _ => some []
  | track :: tracks, currentOffset, currentSector => do
      let size := (padded track).length
      let entry ← writeEtn2Entry currentOffset size (modeCode track.2) currentSector
      let entries ← trackEntries tracks (currentOffset + size)
        (currentSector + size / track.2.sectorSize)
      return entry :: entries

/-- `create_nrg`: the image of a list of tracks, unless `struct.error` is raised. -/
def createNrg (tracks : List TrackFile) : Option Bytes := do
  let data := tracks.flatMap padded
  let entries ← trackEntries tracks 0 0
  let etn2 ← writeChunk ETN2 entries.flatten
  let fin ← writeChunk END []
  let offset ← packBe 8 data.length
  return data ++ etn2 ++ fin ++ NER5 ++ offset

/-! ## The walk ends -/

/-- More turns change nothing once the walk has ended. -/
theorem parseChunks_mono {reader : Reader} {fileSize : Nat} {turns turns' pos : Nat}
    {result : Except IoError (List Track)}
    (h : parseChunks reader fileSize turns pos = some result) (hle : turns ≤ turns') :
    parseChunks reader fileSize turns' pos = some result := by
  induction turns generalizing turns' pos result with
  | zero => cases h
  | succ turns ih =>
      obtain ⟨more, rfl⟩ := Nat.exists_eq_add_of_le' hle
      rw [← Nat.add_assoc, parseChunks]
      rw [parseChunks] at h
      rcases hturn : chunkTurn reader fileSize pos with e | _ | ⟨newTracks, next⟩
      · rwa [hturn] at h
      · rwa [hturn] at h
      · rw [hturn] at h
        obtain ⟨later, hlater, rfl⟩ := Option.map_eq_some_iff.mp h
        exact Option.map_eq_some_iff.mpr ⟨later, ih hlater (Nat.le_add_left _ _), rfl⟩

theorem parseNrg_mono {reader : Reader} {turns turns' : Nat}
    {result : Except IoError (List Track)} (h : parseNrg reader turns = some result)
    (hle : turns ≤ turns') : parseNrg reader turns' = some result := by
  unfold parseNrg at h ⊢
  rcases hoffset : chunkOffset reader with e | ⟨fileSize, offset⟩
  · rwa [hoffset] at h
  · rw [hoffset] at h
    exact parseChunks_mono h hle

/-- A reader of `size` bytes that has nothing behind its end. -/
structure Ends (reader : Reader) (size : Nat) : Prop where
  small : size < 2 ^ 63
  nothing : ∀ off, size ≤ off → ∀ len buf, reader.readAt off len = .ok buf → buf = []

theorem ends_fileReader (image : Image) : Ends (fileReader image) image.bytes.length where
  small := image.small
  nothing off hoff len buf hread := by
    obtain ⟨-, rfl⟩ := fileReader_readAt_eq_ok.mp hread
    exact List.slice_eq_nil _ hoff

theorem ends_bytesReader (image : Image) :
    Ends (bytesReader image.bytes) image.bytes.length where
  small := image.small
  nothing off hoff len buf hread := by
    rw [bytesReader_readAt] at hread
    rw [← Except.ok.inj hread]
    exact List.slice_eq_nil _ hoff

theorem readBe_lt {reader : Reader} {width offset n : Nat}
    (h : readBe reader width offset = .ok n) : n < 256 ^ width := by
  simp only [readBe, readBytes, readExactly, bind_eq_ok, require_eq_ok, pure, Except.pure,
    Except.ok.injEq] at h
  obtain ⟨_, ⟨buf, -, -, hlen, rfl⟩, rfl⟩ := h
  exact hlen ▸ Bytes.be_lt buf

/-- A turn that goes on moves behind the header of a chunk within the image. -/
theorem chunkTurn_progress {reader : Reader} {size pos next : Nat} {newTracks : List Track}
    (hends : Ends reader size) (hpos : pos < 2 ^ 64)
    (h : chunkTurn reader size pos = .ok (some (newTracks, next))) :
    pos < size ∧ pos + 8 ≤ next ∧ next < 2 ^ 64 := by
  have hsmall := hends.small
  unfold chunkTurn at h
  split at h
  · cases h
  obtain ⟨chunkId, hid, h⟩ := bind_eq_ok.mp h
  obtain ⟨chunkLen, hlen, h⟩ := bind_eq_ok.mp h
  -- the id has four bytes, so it was read before the end
  have hbefore : pos < size := by
    by_contra hge
    simp only [readBytes, readExactly, bind_eq_ok, require_eq_ok] at hid
    obtain ⟨buf, hread, -, hfull, -⟩ := hid
    rw [wrap, Nat.mod_eq_of_lt hpos] at hread
    rw [hends.nothing pos (by omega) 4 buf hread] at hfull
    cases hfull
  have hbound : chunkLen < 256 ^ 4 := readBe_lt hlen
  split at h
  · cases h
  obtain ⟨tracks, -, h⟩ := bind_eq_ok.mp h
  have hnext : wrap (pos + 8 + chunkLen) = next :=
    congrArg Prod.snd (Option.some.inj (Except.ok.inj h))
  rw [wrap, Nat.mod_eq_of_lt (by omega)] at hnext
  omega

/-- The walk ends, wherever it begins. -/
theorem parseChunks_ends {reader : Reader} {size : Nat} (hends : Ends reader size) (pos : Nat)
    (hpos : pos < 2 ^ 64) :
    ∃ turns result, ∀ more, turns ≤ more → parseChunks reader size more pos = some result := by
  suffices h : ∃ turns result, parseChunks reader size turns pos = some result by
    obtain ⟨turns, result, hresult⟩ := h
    exact ⟨turns, result, fun more hmore => parseChunks_mono hresult hmore⟩
  -- by induction on what is left of the image
  induction hleft : size - pos using Nat.strong_induction_on generalizing pos with
  | _ left ih =>
      rcases hturn : chunkTurn reader size pos with e | _ | ⟨newTracks, next⟩
      · exact ⟨1, .error e, by rw [parseChunks, hturn]⟩
      · exact ⟨1, .ok [], by rw [parseChunks, hturn]⟩
      · obtain ⟨hbefore, hmoved, hnext⟩ := chunkTurn_progress hends hpos hturn
        obtain ⟨turns, result, hresult⟩ := ih (size - next) (by omega) next hnext rfl
        refine ⟨turns + 1, result.map (newTracks ++ ·), ?_⟩
        rw [parseChunks, hturn]
        exact congrArg (Option.map _) hresult

/-! ## Reading what was written -/

/-- The tracks that the reader makes of an image whose data begin at `offset`. -/
def tracksAt : List TrackFile → Nat → List Track
  | [], _ => []
  | track :: tracks, offset =>
      ⟨offset, (padded track).length⟩ :: tracksAt tracks (offset + (padded track).length)

theorem length_tracksAt (tracks : List TrackFile) (offset : Nat) :
    (tracksAt tracks offset).length = tracks.length := by
  induction tracks generalizing offset with
  | nil => rfl
  | cons track tracks ih => rw [tracksAt, List.length_cons, List.length_cons, ih]

theorem getElem?_tracksAt {tracks : List TrackFile} {i : Nat} {track : TrackFile}
    (h : tracks[i]? = some track) (offset : Nat) :
    (tracksAt tracks offset)[i]? =
      some ⟨offset + trackStart tracks i, (padded track).length⟩ := by
  induction tracks generalizing i offset with
  | nil => simp at h
  | cons first tracks ih =>
      cases i with
      | zero =>
          obtain rfl := Option.some.inj h
          rfl
      | succ i =>
          rw [List.getElem?_cons_succ] at h
          rw [tracksAt, List.getElem?_cons_succ, ih h, trackStart_cons, Nat.add_assoc]

theorem fromCode_modeCode (t : TrackType) : TrackMode.fromCode (modeCode t % 256) ≠ none := by
  cases t <;> decide

theorem writeEtn2Entry_eq_some {offset size mode sector : Nat} {b : Bytes} :
    writeEtn2Entry offset size mode sector = some b ↔
      (offset < 256 ^ 8 ∧ size < 256 ^ 8 ∧ mode < 256 ^ 4 ∧ sector < 256 ^ 4) ∧
        beBytes 8 offset ++ beBytes 8 size ++ beBytes 4 mode ++ beBytes 4 sector = b := by
  simp only [writeEtn2Entry, Option.bind_eq_bind, Option.bind_eq_some_iff, packBe_eq_some,
    Option.pure_def, Option.some.injEq]
  constructor
  · rintro ⟨_, ⟨hoffset, rfl⟩, _, ⟨hsize, rfl⟩, _, ⟨hmode, rfl⟩, _, ⟨hsector, rfl⟩, rfl⟩
    exact ⟨⟨hoffset, hsize, hmode, hsector⟩, rfl⟩
  · rintro ⟨⟨hoffset, hsize, hmode, hsector⟩, rfl⟩
    exact ⟨_, ⟨hoffset, rfl⟩, _, ⟨hsize, rfl⟩, _, ⟨hmode, rfl⟩, _, ⟨hsector, rfl⟩, rfl⟩

theorem length_writeEtn2Entry {offset size mode sector : Nat} {b : Bytes}
    (h : writeEtn2Entry offset size mode sector = some b) : b.length = 24 := by
  rw [← (writeEtn2Entry_eq_some.mp h).2]
  simp only [List.length_append, length_beBytes]

theorem length_trackEntries {tracks : List TrackFile} {offset sector : Nat} {entries : List Bytes}
    (h : trackEntries tracks offset sector = some entries) :
    entries.flatten.length = 24 * tracks.length := by
  induction tracks generalizing offset sector entries with
  | nil =>
      obtain rfl := Option.some.inj h
      rfl
  | cons track tracks ih =>
      simp only [trackEntries, Option.bind_eq_bind, Option.bind_eq_some_iff, Option.pure_def,
        Option.some.injEq] at h
      obtain ⟨entry, hentry, later, hlater, rfl⟩ := h
      rw [List.flatten_cons, List.length_append, length_writeEtn2Entry hentry, ih hlater,
        List.length_cons]
      omega

/-- The entries of all tracks are read back in lockstep. -/
theorem parseEtnEntries_at {image : Image} {tracks : List TrackFile} {offset sector pos : Nat}
    {entries : List Bytes} {rest : Bytes} (hentries : trackEntries tracks offset sector = some entries)
    (hat : image.bytes.drop pos = entries.flatten ++ rest) :
    parseEtnEntries (fileReader image) 8 tracks.length pos = .ok (tracksAt tracks offset) := by
  induction tracks generalizing offset sector pos entries with
  | nil =>
      obtain rfl := Option.some.inj hentries
      rfl
  | cons track tracks ih =>
      simp only [trackEntries, Option.bind_eq_bind, Option.bind_eq_some_iff, Option.pure_def,
        Option.some.injEq] at hentries
      obtain ⟨entry, hentry, later, hlater, rfl⟩ := hentries
      obtain ⟨⟨hoffset, hsize, hmode, -⟩, hbytes⟩ := writeEtn2Entry_eq_some.mp hentry
      rw [List.flatten_cons, List.append_assoc] at hat
      have hnext := drop_add hat (length_writeEtn2Entry hentry)
      have hrest := ih hlater hnext
      -- the fields of the entry
      rw [← hbytes] at hat
      simp only [List.append_assoc] at hat
      have hat8 := drop_add hat (length_beBytes 8 offset)
      have hat16 := drop_add hat8 (length_beBytes 8 (padded track).length)
      have hreadOffset := readBe_at hat hoffset (by decide)
      have hreadSize := readBe_at hat8 hsize (by decide)
      have hreadMode : readBe (fileReader image) 4 (pos + 2 * 8) = .ok (modeCode track.2) :=
        readBe_at hat16 hmode (by decide)
      simp only [List.length_cons, parseEtnEntries, hreadOffset, hreadSize, hreadMode,
        Except.ok_bind]
      rw [hrest, Except.ok_bind, if_neg (fromCode_modeCode track.2)]
      rfl

/-- The parts of an image that was written. -/
theorem createNrg_eq_some {tracks : List TrackFile} {bytes : Bytes}
    (h : createNrg tracks = some bytes) :
    ∃ entries, trackEntries tracks 0 0 = some entries ∧ entries.flatten.length < 256 ^ 4 ∧
      (tracks.flatMap padded).length < 256 ^ 8 ∧
      bytes = tracks.flatMap padded ++ (ETN2 ++ beBytes 4 entries.flatten.length ++ entries.flatten) ++
        (END ++ beBytes 4 0 ++ []) ++ NER5 ++ beBytes 8 (tracks.flatMap padded).length := by
  simp only [createNrg, writeChunk, Option.bind_eq_bind, Option.bind_eq_some_iff, packBe_eq_some,
    Option.pure_def, Option.some.injEq] at h
  obtain ⟨entries, hentries, _, ⟨_, ⟨hlength, rfl⟩, rfl⟩, _, ⟨_, ⟨-, rfl⟩, rfl⟩, _, ⟨hoffset, rfl⟩,
    rfl⟩ := h
  exact ⟨entries, hentries, hlength, hoffset, rfl⟩

/-- An image that was written is read back, in two turns of the walk. -/
theorem parseNrg_createNrg {tracks : List TrackFile} {image : Image}
    (h : createNrg tracks = some image.bytes) :
    parseNrg (fileReader image) 2 = some (.ok (tracksAt tracks 0)) := by
  obtain ⟨entries, hentries, hfits, hoffset, hbytes⟩ := createNrg_eq_some h
  have hsmall := image.small
  simp only [FILE_OFFSET_LIMIT] at hsmall
  have hlength := congrArg List.length hbytes
  set data := tracks.flatMap padded
  have hETN2 : ETN2.length = 4 := rfl
  have hEND : END.length = 4 := rfl
  have hNER5 : NER5.length = 4 := rfl
  simp only [List.length_append, length_beBytes, hETN2, hEND, hNER5, List.length_nil] at hlength
  -- the footer
  have hfooter : image.bytes.drop (image.bytes.length - 12) = NER5 ++ beBytes 8 data.length := by
    rw [hbytes, List.append_assoc]
    refine List.drop_left' ?_
    simp only [List.length_append, length_beBytes, hETN2, hEND, hNER5, List.length_nil]
    omega
  have hlast : image.bytes.drop (image.bytes.length - 8) = beBytes 8 data.length ++ [] := by
    rw [List.append_nil, ← drop_add hfooter hNER5]
    congr 1
    omega
  have hsig := readBytes_at hfooter hNER5 (by decide)
  have hstart := readBe_at hlast hoffset (by decide)
  have hbig : 12 ≤ image.bytes.length := by omega
  have hchunks : chunkOffset (fileReader image) = .ok (image.bytes.length, data.length) := by
    simp only [chunkOffset, fileSizeOf_fileReader, Except.ok_bind, require, hbig, hsig, hstart,
      if_true]
    rfl
  -- the chunk of the entries
  have hetn : image.bytes.drop data.length = ETN2 ++ (beBytes 4 entries.flatten.length ++
      (entries.flatten ++ (END ++ (beBytes 4 0 ++ (NER5 ++ beBytes 8 data.length))))) := by
    rw [hbytes]
    simp only [List.append_assoc, List.nil_append, List.drop_left]
  have hetnLength := drop_add hetn hETN2
  have hentriesAt := drop_add hetnLength (length_beBytes 4 entries.flatten.length)
  have htracks := parseEtnEntries_at hentries hentriesAt
  have hcount := length_trackEntries hentries
  have hetnId := readBytes_at hetn hETN2 (by decide)
  have hetnRead := readBe_at hetnLength hfits (by decide)
  have hentry : entries.flatten.length / 24 = tracks.length := by omega
  have hfirst : chunkTurn (fileReader image) image.bytes.length data.length =
      .ok (some (tracksAt tracks 0, data.length + 8 + entries.flatten.length)) := by
    have hwithin : ¬ wrap (data.length + 8) > image.bytes.length := by
      rw [wrap, Nat.mod_eq_of_lt (by omega)]
      omega
    have hnext : wrap (data.length + 8 + entries.flatten.length) =
        data.length + 8 + entries.flatten.length := by
      rw [wrap, Nat.mod_eq_of_lt (by omega)]
    rw [chunkTurn, if_neg hwithin, hetnId, Except.ok_bind, hetnRead, Except.ok_bind,
      if_neg (by decide), chunkTracks, if_neg (by decide), if_pos (.inl rfl), parseEtnChunk,
      if_pos rfl, hentry, htracks, Except.ok_bind, hnext]
    rfl
  -- the chunk at which the walk ends
  have hendAt := drop_add hentriesAt rfl
  have hendLength := drop_add hendAt hEND
  have hendId := readBytes_at hendAt hEND (by decide)
  have hendRead := readBe_at hendLength (show 0 < 256 ^ 4 by decide) (by decide)
  have hsecond : chunkTurn (fileReader image) image.bytes.length
      (data.length + 8 + entries.flatten.length) = .ok none := by
    have hwithin : ¬ wrap (data.length + 8 + entries.flatten.length + 8) > image.bytes.length := by
      rw [wrap, Nat.mod_eq_of_lt (by omega)]
      omega
    rw [chunkTurn, if_neg hwithin, hendId, Except.ok_bind, hendRead, Except.ok_bind, if_pos rfl]
    rfl
  rw [parseNrg, hchunks]
  simp only [parseChunks, hfirst, hsecond, Option.map_some, Except.map, List.append_nil]

/-- The children of an image that was written are its tracks, and a walk over any bytes ends,
wherever it begins and whether the bytes are in a file or in memory. -/
theorem nrg_agrees :
    (∀ tracks image, createNrg tracks = some image.bytes → ∃ turns kids,
      (∀ more, turns ≤ more → children (fileReader image) more = some (.ok kids)) ∧
        AreTracks image tracks kids) ∧
    ∀ image : Image, ∀ pos < 2 ^ 64,
      ∀ reader ∈ [fileReader image, bytesReader image.bytes], ∃ turns result, ∀ more, turns ≤ more →
        parseChunks reader image.bytes.length more pos = some result := by
  refine ⟨fun tracks image h => ?_, fun image pos hpos reader hreader => ?_⟩
  · refine ⟨2, (tracksAt tracks 0).mapIdx childOf, fun more hmore => ?_, ?_⟩
    · rw [children, parseNrg_mono (parseNrg_createNrg h) hmore]
      rfl
    obtain ⟨entries, hentries, hfits, -, hbytes⟩ := createNrg_eq_some h
    have hcount := length_trackEntries hentries
    simp only [List.append_assoc] at hbytes
    refine areTracks_of_windows hbytes (by omega) ?_ (fun i track htrack => ?_)
    · rw [List.length_mapIdx, length_tracksAt]
    · rw [List.getElem?_mapIdx, getElem?_tracksAt htrack, Option.map_some, childOf, trackChild]
      dsimp only
      rw [Nat.zero_add]
  · rcases List.mem_pair.mp hreader with rfl | rfl
    · exact parseChunks_ends (ends_fileReader image) pos hpos
    · exact parseChunks_ends (ends_bytesReader image) pos hpos

/-- The image of `discTracks`. -/
def discImage : Image := ⟨(createNrg discTracks).getD [], by decide +kernel⟩

theorem discImage_written : createNrg discTracks = some discImage.bytes := by
  have hwritten : createNrg discTracks ≠ none := by decide +kernel
  obtain ⟨bytes, hbytes⟩ := Option.ne_none_iff_exists'.mp hwritten
  simp only [discImage, hbytes, Option.getD_some]

theorem discImage_agrees :
    (∃ turns kids, (∀ more, turns ≤ more →
        children (fileReader discImage) more = some (.ok kids)) ∧
      AreTracks discImage discTracks kids) ∧
    ∃ turns result, ∀ more, turns ≤ more →
      parseChunks (fileReader discImage) discImage.bytes.length more 5 = some result :=
  ⟨nrg_agrees.1 discTracks discImage discImage_written,
    nrg_agrees.2 discImage 5 (by decide) (fileReader discImage) List.mem_cons_self⟩

end Mountin.Nrg
