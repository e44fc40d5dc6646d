import Mountin.Basic.Raising
import Mountin.Basic.Splice
import Mountin.Detect.Tree
import Mountin.Disk.Exposes

set_option autoImplicit false

/-! # Images of optical discs

What `cdi.rs` and `nrg.rs` share, and the scripts that make images for them: the tracks of a disc,
padded to whole sectors and laid one after the other, and integers read at a position.

* `trackStart` : where a track begins.
* `slice_track`, `slice_exposes` : the window of a track holds its padded data and shows them.
* `readBytes_at`, `readLe_at`, `readBe_at` : a read where the image continues with a field, behind
  which it continues with the rest (`drop_add`).
-/

namespace Mountin.Tracks

/-- The track types of the scripts. -/
inductive TrackType where
  | audio
  | mode1
  | mode2
  deriving DecidableEq

/-- `SECTOR_SIZES`. -/
def TrackType.sectorSize : TrackType → Nat
  | audio => 2352
  | mode1 => 2048
  | mode2 => 2336

/-- A track file: what it holds, and its type. -/
abbrev TrackFile := Bytes × TrackType

/-- The data of a track, padded to whole sectors. -/
def padded (track : TrackFile) : Bytes :=
  let remainder := track.1.length % track.2.sectorSize
  if remainder ≠ 0 then track.1 ++ List.replicate (track.2.sectorSize - remainder) 0 else track.1

theorem TrackType.sectorSize_pos (t : TrackType) : 0 < t.sectorSize := by
  cases t <;> decide

/-- Padded data are whole sectors. -/
theorem sectorSize_dvd_length_padded (track : TrackFile) :
    track.2.sectorSize ∣ (padded track).length := by
  have hpos := track.2.sectorSize_pos
  unfold padded
  dsimp only
  split
  · rename_i hne
    rw [List.length_append, List.length_replicate]
    have hlt := Nat.mod_lt track.1.length hpos
    have hdiv := Nat.div_add_mod track.1.length track.2.sectorSize
    refine ⟨track.1.length / track.2.sectorSize + 1, ?_⟩
    rw [Nat.mul_succ]
    omega
  · rename_i hzero
    exact Nat.dvd_of_mod_eq_zero (not_ne_iff.mp hzero)

/-- Where track `i` begins. -/
def trackStart (tracks : List TrackFile) (i : Nat) : Nat :=
  ((tracks.take i).flatMap padded).length

theorem trackStart_succ {tracks : List TrackFile} {i : Nat} {track : TrackFile}
    (h : tracks[i]? = some track) :
    trackStart tracks (i + 1) = trackStart tracks i + (padded track).length := by
  rw [trackStart, List.take_add_one, h]
  simp [trackStart]

theorem trackStart_cons (track : TrackFile) (tracks : List TrackFile) (i : Nat) :
    trackStart (track :: tracks) (i + 1) = (padded track).length + trackStart tracks i := by
  rw [trackStart, List.take_succ_cons, List.flatMap_cons, List.length_append, trackStart]

/-- A track lies in the data of all tracks. -/
theorem trackStart_add_le {tracks : List TrackFile} {i : Nat} {track : TrackFile}
    (h : tracks[i]? = some track) :
    trackStart tracks i + (padded track).length ≤ (tracks.flatMap padded).length := by
  rw [← trackStart_succ h, trackStart]
  conv_rhs => rw [← List.take_append_drop (i + 1) tracks]
  rw [List.flatMap_append, List.length_append]
  omega

/-- The bytes of a track in an image that begins with the tracks. -/
theorem slice_track {tracks : List TrackFile} {rest : Bytes} {i : Nat} {track : TrackFile}
    (h : tracks[i]? = some track) :
    (tracks.flatMap padded ++ rest).slice (trackStart tracks i) (padded track).length =
      padded track := by
  have hsplit : tracks = tracks.take i ++ track :: tracks.drop (i + 1) := by
    obtain ⟨hi, rfl⟩ := List.getElem?_eq_some_iff.mp h
    rw [← List.drop_eq_getElem_cons hi, List.take_append_drop]
  have hflat : tracks.flatMap padded ++ rest = (tracks.take i).flatMap padded ++ padded track ++
      ((tracks.drop (i + 1)).flatMap padded ++ rest) := by
    conv_lhs => rw [hsplit]
    simp
  rw [hflat]
  exact List.slice_append_mid _ rfl rfl

/-- The window of some bytes of an image shows these bytes. -/
theorem slice_exposes {image : Image} {off : Nat} {d : Bytes}
    (h : image.bytes.slice off d.length = d) (hoff : off + d.length ≤ image.bytes.length) :
    (sliceReader (fileReader image) off d.length).Exposes d where
  size := rfl
  readAt i len := by
    have hsmall := image.small
    simp only [FILE_OFFSET_LIMIT] at hsmall
    by_cases hi : d.length ≤ i
    · refine ⟨len, Nat.le_refl _, id, ?_⟩
      rw [List.slice_eq_nil _ hi]
      exact if_pos hi
    · refine ⟨min len (d.length - i), Nat.min_le_left _ _, by omega, ?_⟩
      have hread : (sliceReader (fileReader image) off d.length).readAt i len =
          (fileReader image).readAt ((off + i) % 2 ^ 64) (min len (d.length - i)) := if_neg hi
      rw [hread, Nat.mod_eq_of_lt (by omega), fileReader_readAt _ _ (by simp only [FILE_OFFSET_LIMIT]; omega)]
      rw [show d.slice i (min len (d.length - i)) =
        (image.bytes.slice off d.length).slice i (min len (d.length - i)) by rw [h]]
      rw [List.slice_slice, Nat.min_assoc, Nat.min_self]

/-- The children are the tracks of the disc: one for each of them, in order, which begins where the
padded data of those before it end, and shows its own padded data. -/
structure AreTracks (image : Image) (tracks : List TrackFile) (kids : List Child) : Prop where
  length : kids.length = tracks.length
  kid : ∀ i track, tracks[i]? = some track → ∃ kid, kids[i]? = some kid ∧
    kid.index.toNat = i ∧ kid.offset = trackStart tracks i ∧
    kid.view = .slice (trackStart tracks i) (padded track).length ∧
    image.bytes.slice (trackStart tracks i) (padded track).length = padded track ∧
    (kid.view.reader (fileReader image)).Exposes (padded track)

/-- The child that is the window of a track. -/
def trackChild (tracks : List TrackFile) (i : Nat) (track : TrackFile) : Child where
  index := UInt32.ofNat i
  offset := trackStart tracks i
  view := .slice (trackStart tracks i) (padded track).length

/-- Children that are the windows of the tracks, in an image that begins with the data of the
tracks. -/
theorem areTracks_of_windows {image : Image} {tracks : List TrackFile} {rest : Bytes}
    {kids : List Child} (hbytes : image.bytes = tracks.flatMap padded ++ rest)
    (hcount : tracks.length < 2 ^ 32) (hlength : kids.length = tracks.length)
    (hkids : ∀ i track, tracks[i]? = some track →
      kids[i]? = some (trackChild tracks i track)) :
    AreTracks image tracks kids where
  length := hlength
  kid i track htrack := by
    have hi : i < tracks.length := (List.getElem?_eq_some_iff.mp htrack).1
    have hslice : image.bytes.slice (trackStart tracks i) (padded track).length =
        padded track := hbytes ▸ slice_track htrack
    have hend := trackStart_add_le htrack
    have hwithin : (tracks.flatMap padded).length ≤ image.bytes.length := by
      rw [hbytes, List.length_append]
      exact Nat.le_add_right _ _
    have hindex : (UInt32.ofNat i).toNat = i :=
      UInt32.toNat_ofNat_of_lt' (show i < 2 ^ 32 by omega)
    exact ⟨trackChild tracks i track, hkids i track htrack, hindex, rfl, rfl, hslice, slice_exposes hslice (by omega)⟩

/-- A disc of a data track and an audio track, neither of whole sectors. -/
def discTracks : List TrackFile := [([0x43, 0x44, 0x31], .mode1), ([0x7f], .audio)]

/-! ## Integers at a position -/

/-- A number in so many bytes, least significant byte first. -/
def leBytes : (width n : Nat) → Bytes
  | 0, _ => []
  | width + 1, n => UInt8.ofNat n :: leBytes width (n / 256)

/-- A number in so many bytes, most significant byte first. -/
def beBytes (width n : Nat) : Bytes := (leBytes width n).reverse

@[simp] theorem length_leBytes (width n : Nat) : (leBytes width n).length = width := by
  induction width generalizing n with
  | zero => rfl
  | succ width ih => rw [leBytes, List.length_cons, ih]

@[simp] theorem length_beBytes (width n : Nat) : (beBytes width n).length = width := by
  rw [beBytes, List.length_reverse, length_leBytes]

theorem le_leBytes {width n : Nat} (h : n < 256 ^ width) : Bytes.le (leBytes width n) = n := by
  induction width generalizing n with
  | zero =>
      have hzero : n = 0 := by simpa using h
      rw [hzero]
      rfl
  | succ width ih =>
      have hrest : n / 256 < 256 ^ width := by
        rw [pow_succ] at h
        exact Nat.div_lt_of_lt_mul (by omega)
      rw [leBytes, Bytes.le, ih hrest, UInt8.toNat_ofNat']
      omega

theorem be_beBytes {width n : Nat} (h : n < 256 ^ width) : Bytes.be (beBytes width n) = n := by
  rw [beBytes, Bytes.be, List.reverse_reverse, le_leBytes h]

/-- `struct.pack` of one number, which raises `struct.error` when it does not fit. -/
def packLe (width n : Nat) : Option Bytes := if n < 256 ^ width then some (leBytes width n) else none

def packBe (width n : Nat) : Option Bytes := if n < 256 ^ width then some (beBytes width n) else none

theorem packLe_eq_some {width n : Nat} {b : Bytes} :
    packLe width n = some b ↔ n < 256 ^ width ∧ leBytes width n = b := by
  unfold packLe
  split_ifs with h <;> simp [h]

theorem packBe_eq_some {width n : Nat} {b : Bytes} :
    packBe width n = some b ↔ n < 256 ^ width ∧ beBytes width n = b := by
  unfold packBe
  split_ifs with h <;> simp [h]

/-- The size of the image, which both readers need. -/
def fileSizeOf (reader : Reader) : Except IoError Nat :=
  match reader.size with
  | none => .error (.other "cannot determine file size")
  | some fileSize => .ok fileSize

@[simp] theorem fileSizeOf_fileReader (image : Image) :
    fileSizeOf (fileReader image) = .ok image.bytes.length := rfl

/-- `read_bytes`. -/
def readBytes (reader : Reader) (offset len : Nat) : Except IoError Bytes :=
  readExactly reader (wrap offset) len (.unexpectedEof "short read")

/-- `read_u16_le` and `read_u32_le`, by their width. -/
def readLe (reader : Reader) (width offset : Nat) : Except IoError Nat := do
  let buf ← readBytes reader offset width
  return Bytes.le buf

/-- `read_u32_be` and `read_u64_be`, by their width. -/
def readBe (reader : Reader) (width offset : Nat) : Except IoError Nat := do
  let buf ← readBytes reader offset width
  return Bytes.be buf

section

variable {image : Image} {pos width : Nat} {field rest : Bytes}

/-- A read where the image continues with a field. -/
theorem readBytes_at (h : image.bytes.drop pos = field ++ rest) (hlen : field.length = width)
    (hwidth : 0 < width) : readBytes (fileReader image) pos width = .ok field := by
  have hsmall := image.small
  have hlength := congrArg List.length h
  rw [List.length_drop, List.length_append] at hlength
  have hslice : image.bytes.slice pos width = field := by
    rw [List.slice, h, List.take_left' hlen]
  have hpos : pos + width ≤ image.bytes.length := by omega
  simp only [FILE_OFFSET_LIMIT] at hsmall
  rw [readBytes, wrap, Nat.mod_eq_of_lt (by omega), readExactly_slice _ hpos hwidth, hslice]

theorem readLe_at {n : Nat} (h : image.bytes.drop pos = leBytes width n ++ rest)
    (hn : n < 256 ^ width) (hwidth : 0 < width) :
    readLe (fileReader image) width pos = .ok n := by
  rw [readLe, readBytes_at h (length_leBytes width n) hwidth, Except.ok_bind, le_leBytes hn]
  rfl

theorem readBe_at {n : Nat} (h : image.bytes.drop pos = beBytes width n ++ rest)
    (hn : n < 256 ^ width) (hwidth : 0 < width) :
    readBe (fileReader image) width pos = .ok n := by
  rw [readBe, readBytes_at h (length_beBytes width n) hwidth, Except.ok_bind, be_beBytes hn]
  rfl

/-- Behind a field the image continues with what comes after it. -/
theorem drop_add {b : Bytes} {n : Nat} (h : b.drop pos = field ++ rest) (hlen : field.length = n) :
    b.drop (pos + n) = rest := by
  rw [← List.drop_drop, h, List.drop_left' hlen]

end

end Mountin.Tracks
