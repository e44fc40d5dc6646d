import Mountin.Disk.Tracks

set_option autoImplicit false

/-! # CDI images

`cdi.rs` reads the descriptor at the end of a DiscJuggler image, `mkcdi.py` writes one. The
descriptor is a sequence of headers of variable length; the reader has to skip in each of them
what the writer put there, and the positions of the tracks are sums over those before them.

* `parseTrack_at` : a track header that was written is read back.
* `createCdi_children` : the children of an image that was written are its tracks.
-/

namespace Mountin.Cdi

open Tracks

/-! ## The reader -/

/-- `CDI_V2`. -/
def CDI_V2 : Nat := 0x80000004

/-- `CDI_V3`. -/
def CDI_V3 : Nat := 0x80000005

/-- `CDI_V35`. -/
def CDI_V35 : Nat := 0x80000006

/-- `TRACK_MARKER`. -/
def TRACK_MARKER : Bytes := [0x00, 0x00, 0x01, 0x00, 0x00, 0x00, 0xff, 0xff, 0xff, 0xff]

/-- `struct Track`. -/
structure Track where
  sectorSize : Nat
  pregapLength : Nat
  length : Nat
  dataOffset : Nat

/-- The sector size of a code. -/
def sectorSizeOf : Nat → Except IoError Nat
  | 0 => .ok 2048
  | 1 => .ok 2336
  | 2 => .ok 2352
  | _ => .error (.invalidData "unsupported sector size")

/-- `parse_track`: the track whose header begins at `pos`, and where the header ends. Positions
are kept as sums; they wrap where the reader is asked for them. -/
def parseTrack (reader : Reader) (pos version dataPos : Nat) : Except IoError (Track × Nat) := do
  -- extra data of DJ 3.00.780 and later
  let temp ← readLe reader 4 pos
  let pos := if temp ≠ 0 then pos + 4 + 8 else pos + 4
  let marker ← readBytes reader pos 10
  require (marker = TRACK_MARKER) (.invalidData "missing track start marker")
  let pos := pos + 10
  let marker ← readBytes reader pos 10
  require (marker = TRACK_MARKER) (.invalidData "missing second track start marker")
  let pos := pos + 10 + 4
  let filenameLen ← readLe reader 1 pos
  let pos := pos + (1 + filenameLen) + (11 + 4 + 4)
  -- the DJ4 marker
  let temp ← readLe reader 4 pos
  let pos := if temp = 0x80000000 then pos + 4 + 8 else pos + 4
  let pos := pos + 2
  let pregapLength ← readLe reader 4 pos
  let pos := pos + 4
  let length ← readLe reader 4 pos
  let pos := pos + 4 + 6
  let modeVal ← readLe reader 4 pos
  let pos := pos + 4
  require (modeVal ≤ 2) (.invalidData "unsupported track mode")
  let pos := pos + 12
  let _startLba ← readLe reader 4 pos
  let pos := pos + 4
  let _totalLength ← readLe reader 4 pos
  let pos := pos + 4 + 16
  let sectorSizeVal ← readLe reader 4 pos
  let pos := pos + 4
  let sectorSize ← sectorSizeOf sectorSizeVal
  let pos := pos + 29
  let track : Track :=
    { sectorSize := sectorSize, pregapLength := pregapLength, length := length,
      dataOffset := wrap (dataPos + pregapLength * sectorSize) }
  if version = CDI_V2 then return (track, pos)
  let pos := pos + 5
  let temp ← readLe reader 4 pos
  return (track, if temp = 0xffffffff then pos + 4 + 78 else pos + 4)

/-- The loop over the tracks of a session: the tracks, where their headers end, and where the
data of the next track begin. -/
def parseTracks (reader : Reader) (version : Nat) :
    Nat → Nat → Nat → Except IoError (List Track × Nat × Nat)
  | 0, pos, dataPos => .ok ([], pos, dataPos)
  | count + 1, pos, dataPos => do
      let (track, pos) ← parseTrack reader pos version dataPos
      let dataPos := dataPos + (track.pregapLength + track.length) * track.sectorSize
      let (tracks, pos, dataPos) ← parseTracks reader version count pos dataPos
      return (track :: tracks, pos, dataPos)

/-- The loop over the sessions. -/
def parseSessions (reader : Reader) (version : Nat) :
    Nat → Nat → Nat → Except IoError (List Track)
  | 0, _, _ => .ok []
  | sessions + 1, pos, dataPos => do
      let trackCount ← readLe reader 2 pos
      let (tracks, pos, dataPos) ← parseTracks reader version trackCount (pos + 2) dataPos
      -- the session footer
      let pos := if version = CDI_V2 then pos + (4 + 8) else pos + (4 + 8) + 1
      let rest ← parseSessions reader version sessions pos dataPos
      return tracks ++ rest

/-- `parse_cdi`. -/
def parseCdi (reader : Reader) : Except IoError (List Track) := do
  let fileSize ← fileSizeOf reader
  require (8 ≤ fileSize) (.invalidData "file too small")
  let version ← readLe reader 4 (fileSize - 8)
  let headerOffset ← readLe reader 4 (fileSize - 4)
  require (headerOffset ≠ 0) (.invalidData "bad header offset")
  require (version = CDI_V35 ∨ version = CDI_V2 ∨ version = CDI_V3)
    (.invalidData "unknown CDI version")
  let headerPos :=
    if version = CDI_V35 then wrap (fileSize + 2 ^ 64 - headerOffset) else headerOffset
  let sessions ← readLe reader 2 headerPos
  parseSessions reader version sessions (headerPos + 2) 0

/-- The child of a track. -/
def childOf (idx : Nat) (track : Track) : Child where
  index := UInt32.ofNat idx
  offset := track.dataOffset
  view := .slice track.dataOffset (track.length * track.sectorSize)

/-- `CdiContainer::children`. -/
def children : Container := fun reader => do
  let tracks ← parseCdi reader
  return tracks.mapIdx childOf

/-! ## The writer -/

/-- `MODES`. -/
def mode : TrackType → Nat
  | .audio => 0
  | .mode1 => 1
  | .mode2 => 2

/-- `SECTOR_SIZE_CODES`. -/
def sectorSizeCode : TrackType → Nat
  | .mode1 => 0
  | .mode2 => 1
  | .audio => 2

/-- An entry of `track_info`. The sector size and the mode are those of the type, and every
pregap is 0. -/
structure TrackInfo where
  type : TrackType
  length : Nat
  startLba : Nat

/-- The entries of `track_info`, from `current_lba` on. -/
def trackInfo : List TrackFile → Nat → List TrackInfo
  | [], _ => []
  | track :: tracks, currentLba =>
      let numSectors := (padded track).length / track.2.sectorSize
      ⟨track.2, numSectors, currentLba⟩ :: trackInfo tracks (currentLba + numSectors)

/-- So many zero bytes. -/
def zeros (n : Nat) : Bytes := List.replicate n 0

/-- `write_track_header`: what it writes. -/
def writeTrackHeader (info : TrackInfo) : Option Bytes := do
  let pregap ← packLe 4 0
  let length ← packLe 4 info.length
  let mode ← packLe 4 (mode info.type)
  let startLba ← packLe 4 info.startLba
  let totalLength ← packLe 4 (0 + info.length)
  let sectorSize ← packLe 4 (sectorSizeCode info.type)
  return leBytes 4 0 ++ TRACK_MARKER ++ TRACK_MARKER ++ zeros 4 ++ zeros 1 ++ zeros 19 ++
    leBytes 4 0 ++ zeros 2 ++ pregap ++ length ++ zeros 6 ++ mode ++ zeros 12 ++ startLba ++
    totalLength ++ zeros 16 ++ sectorSize ++ zeros 29 ++ zeros 5 ++ leBytes 4 0

/-- `create_cdi`: the image of a list of tracks, unless `struct.error` is raised. -/
def createCdi (tracks : List TrackFile) : Option Bytes := do
  let data := tracks.flatMap padded
  let sessions ← packLe 2 1
  let count ← packLe 2 tracks.length
  let headers ← (trackInfo tracks 0).mapM writeTrackHeader
  let descriptor := sessions ++ count ++ headers.flatten ++ (zeros 4 ++ zeros 8 ++ zeros 1)
  let fileSize := (data ++ descriptor).length + 8
  let version ← packLe 4 CDI_V35
  let headerOffset ← packLe 4 (fileSize - data.length)
  return data ++ descriptor ++ (version ++ headerOffset)

/-! ## Reading what was written -/

/-- A track header. -/
def header (info : TrackInfo) : Bytes :=
  leBytes 4 0 ++ TRACK_MARKER ++ TRACK_MARKER ++ zeros 4 ++ zeros 1 ++ zeros 19 ++
    leBytes 4 0 ++ zeros 2 ++ leBytes 4 0 ++ leBytes 4 info.length ++ zeros 6 ++
    leBytes 4 (mode info.type) ++ zeros 12 ++ leBytes 4 info.startLba ++
    leBytes 4 (0 + info.length) ++ zeros 16 ++ leBytes 4 (sectorSizeCode info.type) ++ zeros 29 ++
    zeros 5 ++ leBytes 4 0

theorem length_header (info : TrackInfo) : (header info).length = 150 := by
  unfold header
  simp only [List.length_append, length_leBytes, TRACK_MARKER, List.length_cons, List.length_nil,
    zeros, List.length_replicate]

theorem writeTrackHeader_eq_some {info : TrackInfo} {b : Bytes} :
    writeTrackHeader info = some b ↔
      (info.length < 256 ^ 4 ∧ info.startLba < 256 ^ 4) ∧ header info = b := by
  have hmode : mode info.type < 256 ^ 4 := by cases info.type <;> decide
  have hcode : sectorSizeCode info.type < 256 ^ 4 := by cases info.type <;> decide
  simp only [writeTrackHeader, Option.bind_eq_bind, Option.bind_eq_some_iff, packLe_eq_some,
    Option.pure_def, Option.some.injEq]
  constructor
  · rintro ⟨_, ⟨-, rfl⟩, _, ⟨hlength, rfl⟩, _, ⟨-, rfl⟩, _, ⟨hlba, rfl⟩, _, ⟨-, rfl⟩, _, ⟨-, rfl⟩,
      rfl⟩
    exact ⟨⟨hlength, hlba⟩, rfl⟩
  · rintro ⟨⟨hlength, hlba⟩, rfl⟩
    refine ⟨_, ⟨by decide, rfl⟩, _, ⟨hlength, rfl⟩, _, ⟨hmode, rfl⟩, _, ⟨hlba, rfl⟩, _, ⟨?_, rfl⟩, _,
      ⟨hcode, rfl⟩, rfl⟩
    rwa [Nat.zero_add]

theorem sectorSizeOf_code (t : TrackType) : sectorSizeOf (sectorSizeCode t) = .ok t.sectorSize := by
  cases t <;> rfl

/-- What the reader makes of a written header: the track, with its data at `dataPos`. -/
def trackOf (info : TrackInfo) (dataPos : Nat) : Track where
  sectorSize := info.type.sectorSize
  pregapLength := 0
  length := info.length
  dataOffset := wrap dataPos

/-- A track header that was written is read back, and skipped as a whole. -/
theorem parseTrack_at {image : Image} {pos : Nat} {info : TrackInfo} {rest : Bytes}
    (dataPos : Nat) (hat : image.bytes.drop pos = header info ++ rest) (hlength : info.length < 256 ^ 4)
    (hlba : info.startLba < 256 ^ 4) :
    parseTrack (fileReader image) pos CDI_V35 dataPos = .ok (trackOf info dataPos, pos + 150) := by
  have hmode : mode info.type < 256 ^ 4 := by cases info.type <;> decide
  have hmode2 : mode info.type ≤ 2 := by cases info.type <;> decide
  have hcode : sectorSizeCode info.type < 256 ^ 4 := by cases info.type <;> decide
  have htotal : 0 + info.length < 256 ^ 4 := by rwa [Nat.zero_add]
  have hzero : (0 : Nat) < 256 ^ 4 := by decide
  have hmarker : TRACK_MARKER.length = 10 := rfl
  have hz : ∀ n, (zeros n).length = n := fun n => List.length_replicate
  -- `hK` says what the image continues with behind `K` bytes of the header
  unfold header at hat
  simp only [List.append_assoc] at hat
  have h4 := drop_add hat (length_leBytes 4 0)
  have h14 := drop_add h4 hmarker
  have h24 := drop_add h14 hmarker
  have h28 := drop_add h24 (hz 4)
  have h29 := drop_add h28 (hz 1)
  have h48 := drop_add h29 (hz 19)
  have h52 := drop_add h48 (length_leBytes 4 0)
  have h54 := drop_add h52 (hz 2)
  have h58 := drop_add h54 (length_leBytes 4 0)
  have h62 := drop_add h58 (length_leBytes 4 info.length)
  have h68 := drop_add h62 (hz 6)
  have h72 := drop_add h68 (length_leBytes 4 (mode info.type))
  have h84 := drop_add h72 (hz 12)
  have h88 := drop_add h84 (length_leBytes 4 info.startLba)
  have h92 := drop_add h88 (length_leBytes 4 (0 + info.length))
  have h108 := drop_add h92 (hz 16)
  have h112 := drop_add h108 (length_leBytes 4 (sectorSizeCode info.type))
  have h141 := drop_add h112 (hz 29)
  have h146 := drop_add h141 (hz 5)
  have hextra := readLe_at hat hzero (by decide)
  have hmarker1 := readBytes_at h4 hmarker (by decide)
  have hmarker2 := readBytes_at h14 hmarker (by decide)
  have hfilename : readLe (fileReader image) 1 (pos + 28) = .ok 0 :=
    readLe_at (n := 0) h28 (by decide) (by decide)
  have hdj4 := readLe_at h48 hzero (by decide)
  have hpregap := readLe_at h54 hzero (by decide)
  have hlen := readLe_at h58 hlength (by decide)
  have hmodeVal := readLe_at h68 hmode (by decide)
  have hstart := readLe_at h84 hlba (by decide)
  have hsum := readLe_at h88 htotal (by decide)
  have hsector := readLe_at h108 hcode (by decide)
  have hlast := readLe_at h146 hzero (by decide)
  simp only [Nat.add_assoc, Nat.reduceAdd] at hmarker1 hmarker2 hdj4 hpregap hlen hmodeVal
  simp only [Nat.add_assoc, Nat.reduceAdd] at hstart hsum hsector hlast
  have hversion : ¬ CDI_V35 = CDI_V2 := by decide
  simp only [parseTrack, hextra, hmarker1, hmarker2, hfilename, hdj4, hpregap, hlen, hmodeVal,
    hstart, hsum, hsector, hlast, hmode2, hversion, sectorSizeOf_code, require, Except.ok_bind,
    Nat.add_assoc, Nat.reduceAdd, ne_eq, not_true_eq_false, if_true, if_false, Nat.zero_mul,
    Nat.add_zero, OfNat.zero_ne_ofNat]
  rfl

/-- The tracks that the reader makes of an image whose data begin at `dataPos`. -/
def tracksAt : List TrackFile → Nat → List Track
  | [], _ => []
  | track :: tracks, dataPos =>
      { sectorSize := track.2.sectorSize, pregapLength := 0,
        length := (padded track).length / track.2.sectorSize, dataOffset := wrap dataPos } ::
      tracksAt tracks (dataPos + (padded track).length)

theorem length_tracksAt (tracks : List TrackFile) (dataPos : Nat) :
    (tracksAt tracks dataPos).length = tracks.length := by
  induction tracks generalizing dataPos with
  | nil => rfl
  | cons track tracks ih => rw [tracksAt, List.length_cons, List.length_cons, ih]

theorem getElem?_tracksAt {tracks : List TrackFile} {i : Nat} {track : TrackFile}
    (h : tracks[i]? = some track) (dataPos : Nat) :
    (tracksAt tracks dataPos)[i]? =
      some { sectorSize := track.2.sectorSize, pregapLength := 0,
             length := (padded track).length / track.2.sectorSize,
             dataOffset := wrap (dataPos + trackStart tracks i) } := by
  induction tracks generalizing i dataPos with
  | nil => simp at h
  | cons first tracks ih =>
      cases i with
      | zero =>
          obtain rfl := Option.some.inj h
          rfl
      | succ i =>
          rw [List.getElem?_cons_succ] at h
          rw [tracksAt, List.getElem?_cons_succ, ih h, trackStart_cons, Nat.add_assoc]

/-- The headers of all tracks are read back in lockstep. -/
theorem parseTracks_at {image : Image} {tracks : List TrackFile} {lba pos : Nat}
    {rest : Bytes} (dataPos : Nat) (hat : image.bytes.drop pos = (trackInfo tracks lba).flatMap header ++ rest)
    (hfits : ∀ info ∈ trackInfo tracks lba, info.length < 256 ^ 4 ∧ info.startLba < 256 ^ 4) :
    ∃ pos' dataPos', parseTracks (fileReader image) CDI_V35 tracks.length pos dataPos =
      .ok (tracksAt tracks dataPos, pos', dataPos') := by
  induction tracks generalizing lba pos dataPos with
  | nil => exact ⟨pos, dataPos, rfl⟩
  | cons track tracks ih =>
      rw [trackInfo] at hat hfits
      rw [List.flatMap_cons, List.append_assoc] at hat
      obtain ⟨hlength, hlba⟩ := hfits _ List.mem_cons_self
      have hfirst := parseTrack_at dataPos hat hlength hlba
      have hnext := drop_add hat (length_header _)
      obtain ⟨pos', dataPos', hrest⟩ := ih (dataPos + (padded track).length) hnext
        (fun info hinfo => hfits info (List.mem_cons_of_mem _ hinfo))
      refine ⟨pos', dataPos', ?_⟩
      -- the data of a track end where those of the next begin
      have hend : (0 + (padded track).length / track.2.sectorSize) * track.2.sectorSize =
          (padded track).length := by
        rw [Nat.zero_add, Nat.div_mul_cancel (sectorSize_dvd_length_padded track)]
      rw [List.length_cons, parseTracks, hfirst, Except.ok_bind]
      simp only [trackOf, hend]
      rw [hrest]
      rfl

/-- What a writer of headers wrote. -/
theorem mapM_writeTrackHeader {infos : List TrackInfo} {headers : List Bytes}
    (h : infos.mapM writeTrackHeader = some headers) :
    headers.flatten = infos.flatMap header ∧
      ∀ info ∈ infos, info.length < 256 ^ 4 ∧ info.startLba < 256 ^ 4 := by
  induction infos generalizing headers with
  | nil =>
      obtain rfl : [] = headers := by simpa using h
      exact ⟨rfl, by simp⟩
  | cons info infos ih =>
      simp only [List.mapM_cons, Option.bind_eq_bind, Option.bind_eq_some_iff, Option.pure_def,
        Option.some.injEq] at h
      obtain ⟨first, hfirst, rest, hrest, rfl⟩ := h
      obtain ⟨hfit, rfl⟩ := writeTrackHeader_eq_some.mp hfirst
      obtain ⟨hflat, hfits⟩ := ih hrest
      refine ⟨by rw [List.flatten_cons, List.flatMap_cons, hflat], ?_⟩
      intro info' hinfo'
      rcases List.mem_cons.mp hinfo' with rfl | hmem
      · exact hfit
      · exact hfits info' hmem

/-- The parts of an image that was written. -/
theorem createCdi_eq_some {tracks : List TrackFile} {bytes : Bytes}
    (h : createCdi tracks = some bytes) :
    ∃ offset, offset < 256 ^ 4 ∧ tracks.length < 256 ^ 2 ∧
      (∀ info ∈ trackInfo tracks 0, info.length < 256 ^ 4 ∧ info.startLba < 256 ^ 4) ∧
      offset = bytes.length - (tracks.flatMap padded).length ∧
      bytes = tracks.flatMap padded ++ (leBytes 2 1 ++ leBytes 2 tracks.length ++
        (trackInfo tracks 0).flatMap header ++ (zeros 4 ++ zeros 8 ++ zeros 1)) ++
        (leBytes 4 CDI_V35 ++ leBytes 4 offset) := by
  simp only [createCdi, Option.bind_eq_bind, Option.bind_eq_some_iff, packLe_eq_some,
    Option.pure_def, Option.some.injEq] at h
  obtain ⟨_, ⟨-, rfl⟩, _, ⟨hcount, rfl⟩, headers, hheaders, _, ⟨-, rfl⟩, _, ⟨hoffset, rfl⟩, rfl⟩ := h
  obtain ⟨hflat, hfits⟩ := mapM_writeTrackHeader hheaders
  rw [hflat] at hoffset ⊢
  refine ⟨_, hoffset, hcount, hfits, ?_, rfl⟩
  simp only [List.length_append, length_leBytes]

/-- An image that was written is read back. -/
theorem parseCdi_createCdi {tracks : List TrackFile} {image : Image}
    (h : createCdi tracks = some image.bytes) :
    parseCdi (fileReader image) = .ok (tracksAt tracks 0) := by
  obtain ⟨offset, hoffset, hcount, hfits, hsize, hbytes⟩ := createCdi_eq_some h
  have hsmall := image.small
  simp only [FILE_OFFSET_LIMIT] at hsmall
  have hlength := congrArg List.length hbytes
  simp only [List.length_append, length_leBytes] at hlength
  set data := tracks.flatMap padded with hdata
  -- the footer
  have hfooter : image.bytes.drop (image.bytes.length - 8) =
      leBytes 4 CDI_V35 ++ leBytes 4 offset := by
    rw [hbytes]
    refine List.drop_left' ?_
    simp only [List.length_append, length_leBytes]
    omega
  have hlast : image.bytes.drop (image.bytes.length - 4) = leBytes 4 offset ++ [] := by
    rw [List.append_nil, ← drop_add hfooter (length_leBytes 4 CDI_V35)]
    congr 1
    omega
  -- the descriptor
  have hdescriptor : image.bytes.drop data.length = leBytes 2 1 ++ (leBytes 2 tracks.length ++
      ((trackInfo tracks 0).flatMap header ++ (zeros 4 ++ zeros 8 ++ zeros 1 ++
        (leBytes 4 CDI_V35 ++ leBytes 4 offset)))) := by
    rw [hbytes, List.append_assoc, List.drop_left]
    simp only [List.append_assoc]
  have hcountAt := drop_add hdescriptor (length_leBytes 2 1)
  have hheadersAt := drop_add hcountAt (length_leBytes 2 tracks.length)
  obtain ⟨pos', dataPos', htracks⟩ := parseTracks_at 0 hheadersAt hfits
  have hpos : wrap (image.bytes.length + 2 ^ 64 - offset) = data.length := by
    rw [hsize, wrap]
    omega
  have hversion := readLe_at hfooter (show CDI_V35 < 256 ^ 4 by decide) (by decide)
  have hheader := readLe_at hlast hoffset (by decide)
  have hsessions := readLe_at hdescriptor (show 1 < 256 ^ 2 by decide) (by decide)
  have hcountRead := readLe_at hcountAt hcount (by decide)
  have hnonzero : offset ≠ 0 := by omega
  have hbig : 8 ≤ image.bytes.length := by omega
  simp only [parseCdi, fileSizeOf_fileReader, Except.ok_bind, require, hbig, hversion,
    hheader, hnonzero, if_true, ne_eq, not_false_eq_true, true_or, hpos, hsessions, parseSessions,
    hcountRead, htracks]
  exact congrArg Except.ok (List.append_nil _)

/-- The children of an image that was written are its tracks. -/
theorem createCdi_children {tracks : List TrackFile} {image : Image}
    (h : createCdi tracks = some image.bytes) :
    ∃ kids, children (fileReader image) = .ok kids ∧ AreTracks image tracks kids := by
  obtain ⟨offset, -, hcount, -, -, hbytes⟩ := createCdi_eq_some h
  have hsmall := image.small
  simp only [FILE_OFFSET_LIMIT] at hsmall
  refine ⟨(tracksAt tracks 0).mapIdx childOf, ?_, ?_⟩
  · rw [children, parseCdi_createCdi h]
    rfl
  rw [List.append_assoc] at hbytes
  refine areTracks_of_windows hbytes (by omega) ?_ (fun i track htrack => ?_)
  · rw [List.length_mapIdx, length_tracksAt]
  have hend := trackStart_add_le htrack
  have hlength := congrArg List.length hbytes
  rw [List.length_append] at hlength
  have hsectors : (padded track).length / track.2.sectorSize * track.2.sectorSize =
      (padded track).length := Nat.div_mul_cancel (sectorSize_dvd_length_padded track)
  have hstart : wrap (0 + trackStart tracks i) = trackStart tracks i := by
    rw [wrap, Nat.zero_add, Nat.mod_eq_of_lt (by omega)]
  rw [List.getElem?_mapIdx, getElem?_tracksAt htrack, Option.map_some, childOf, trackChild]
  dsimp only
  rw [hsectors, hstart]

/-- The image of `discTracks`. -/
def discImage : Image := ⟨(createCdi discTracks).getD [], by decide +kernel⟩

theorem discImage_written : createCdi discTracks = some discImage.bytes := by
  have hwritten : createCdi discTracks ≠ none := by decide +kernel
  obtain ⟨bytes, hbytes⟩ := Option.ne_none_iff_exists'.mp hwritten
  simp only [discImage, hbytes, Option.getD_some]

theorem discImage_children :
    ∃ kids, children (fileReader discImage) = .ok kids ∧ AreTracks discImage discTracks kids :=
  createCdi_children discImage_written

end Mountin.Cdi
