import Mountin.Basic.Checked
import Mountin.Disk.BlockMap
import Mountin.Disk.Chunks
import Mountin.Disk.Exposes
import Mountin.Disk.Vmdk

set_option autoImplicit false

/-! # The arithmetic of reads

`read_at` of the EWF, Bochs and VMDK readers and of the volumes of a UBI image with every sum,
product, difference, quotient, index and slice checked, as a debug build checks them. `map.readAt` of
the readers is the same without the checks.

* `settles` in each format : a read does what `map.readAt` does, unless a condition on the fields
  fails; then it faults.
* `reads_safe_iff` : the condition for each format.
-/

namespace Mountin

open Checked (Settles)

/-- The front of `read_at`: the block of an offset, the offset in it, and the size of the read. -/
def readBlock (blockSize virtualSize off len : Nat)
    (body : Nat → Nat → Nat → Checked IoError Bytes) : Checked IoError Bytes :=
  if virtualSize ≤ off then .ok []
  else do
    let blockIdx ← Checked.div off blockSize
    let inBlock ← Checked.mod off blockSize
    let remainingInBlock ← Checked.sub blockSize inBlock
    let remainingInDisk ← Checked.sub virtualSize off
    body blockIdx inBlock (min (min len remainingInBlock) remainingInDisk)

/-- The size of a read at an offset. -/
def toRead (blockSize virtualSize off len : Nat) : Nat :=
  min (min len (blockSize - off % blockSize)) (virtualSize - off)

theorem toRead_le {blockSize virtualSize off len : Nat} (h : 0 < blockSize) :
    off % blockSize + toRead blockSize virtualSize off len ≤ blockSize := by
  have hmod := Nat.mod_lt off h
  unfold toRead
  omega

/-- A map of equal blocks is read block by block. -/
theorem DiskMap.readAt_of_blockPiece {m : DiskMap} {blockSize : Nat}
    {extent : Nat → Except IoError Extent} (hpiece : m.piece = blockPiece blockSize extent)
    (off len : Nat) : m.readAt off len =
      if m.virtualSize ≤ off then .ok []
      else extent off >>= fun e =>
        e.read m.parent (off % blockSize) (toRead blockSize m.virtualSize off len) := by
  have hsplit : off / blockSize * blockSize + off % blockSize = off := by
    rw [Nat.mul_comm, Nat.div_add_mod]
  have hin : off - off / blockSize * blockSize = off % blockSize := by omega
  have hrest : off / blockSize * blockSize + blockSize - off = blockSize - off % blockSize := by omega
  rw [DiskMap.readAt, hpiece]
  simp only [blockPiece]
  split_ifs
  · rfl
  · cases extent off with
    | error e => rfl
    | ok e =>
        show e.read m.parent (off - off / blockSize * blockSize)
          (min (min len (off / blockSize * blockSize + blockSize - off)) (m.virtualSize - off)) = _
        rw [hin, hrest]
        rfl

/-- What a body settles in every block, the reader settles. -/
theorem readBlock_settles {m : DiskMap} {blockSize off len : Nat} {c : Prop}
    {extent : Nat → Except IoError Extent} {body : Nat → Nat → Nat → Checked IoError Bytes}
    (hpiece : m.piece = blockPiece blockSize extent) (hpos : off < m.virtualSize → 0 < blockSize)
    (hbody : off < m.virtualSize →
      Settles c (extent off >>= fun e =>
          e.read m.parent (off % blockSize) (toRead blockSize m.virtualSize off len))
        (body (off / blockSize) (off % blockSize) (toRead blockSize m.virtualSize off len))) :
    Settles (off < m.virtualSize → c) (m.readAt off len)
      (readBlock blockSize m.virtualSize off len body) := by
  rw [DiskMap.readAt_of_blockPiece hpiece, readBlock]
  split_ifs with hend
  · exact (Settles.ok _).of_true (fun h => absurd h (Nat.not_lt.mpr hend))
  · have hoff : off < m.virtualSize := Nat.lt_of_not_le hend
    have hmod : off % blockSize ≤ blockSize := (Nat.mod_lt _ (hpos hoff)).le
    rw [Checked.div_eq (hpos hoff), Except.ok_bind, Checked.mod_eq (hpos hoff), Except.ok_bind,
      Checked.sub_eq hmod, Except.ok_bind, Checked.sub_eq hoff.le, Except.ok_bind]
    exact (hbody hoff).congr (imp_iff_right hoff).symm

/-- A read at a sum of a place in the parent and an offset in a block. -/
theorem stored_settles (parent : Reader) (physical inBlock size : Nat) :
    Settles (physical + inBlock < 2 ^ 64) ((Extent.stored physical).read parent inBlock size)
      (Checked.add 64 physical inBlock >>= fun off => Checked.lift (parent.readAt off size)) := by
  constructor
  · intro h
    rw [Checked.add_eq h, Except.ok_bind, Extent.read, Nat.mod_eq_of_lt h]
  · intro h
    rw [Checked.add, Checked.ensure, if_neg h]
    rfl

/-- A slice of an unpacked block. -/
theorem unpacked_settles (parent : Reader) (block : Bytes) (inBlock size : Nat) :
    Settles (inBlock + size ≤ block.length) ((Extent.unpacked block).read parent inBlock size)
      (Checked.slice block inBlock size) := by
  constructor
  · intro h
    rw [Checked.slice_eq h, Extent.read, if_pos h]
    rfl
  · intro h
    exact if_neg h

/-! ## Bochs -/

namespace Bochs

variable (r : BochsReader)

/-- `read_at`. -/
def BochsReader.readAt (off len : Nat) : Checked IoError Bytes :=
  readBlock r.extentSize r.virtualSize off len fun extentIdx inExtent toRead => do
    if r.catalog.length ≤ extentIdx then return List.replicate toRead 0
    else
      let catalogEntry ← Checked.index r.catalog extentIdx
      if catalogEntry = CATALOG_UNALLOCATED then return List.replicate toRead 0
      else
        let slotSize ← Checked.add 64 r.bitmapSize r.extentSize
        let slots ← Checked.mul 64 catalogEntry slotSize
        let slot ← Checked.add 64 r.dataOffset slots
        let data ← Checked.add 64 slot r.bitmapSize
        let physicalOffset ← Checked.add 64 data inExtent
        Checked.lift (r.parent.readAt physicalOffset toRead)

/-- The place of an allocated extent, and the offset in it, is a `u64`. -/
def BochsReader.Fits (off : Nat) : Prop :=
  ∀ entry, off < r.virtualSize → r.catalog[off / r.extentSize]? = some entry →
    entry ≠ CATALOG_UNALLOCATED →
    r.dataOffset + entry * (r.bitmapSize + r.extentSize) + r.bitmapSize + off % r.extentSize < 2 ^ 64

variable {r}

/-- The size of a slot is a `u64`. -/
theorem slotSize_lt {parent : Reader} (h : new parent = .ok r) :
    r.bitmapSize + r.extentSize < 2 ^ 64 := by
  simp only [new, bind_eq_ok, require_eq_ok, pure, Except.pure, Except.ok.injEq] at h
  obtain ⟨header, -, -, -, -, -, -, -, -, -, -, -, -, -, -, -, rfl⟩ := h
  have hbitmap := leField_lt header 76 4
  have hextent := leField_lt header 80 4
  show (leField header 76 4 + 511) / 512 * 512 + leField header 80 4 < 2 ^ 64
  omega

theorem settles {parent : Reader} (h : new parent = .ok r) (off len : Nat) :
    Settles (r.Fits off) (r.map.readAt off len) (r.readAt off len) := by
  obtain ⟨-, hpos⟩ := new_spec h
  have hslot := slotSize_lt h
  have hread := @readBlock_settles r.map r.extentSize off len
    (∀ entry, r.catalog[off / r.extentSize]? = some entry → entry ≠ CATALOG_UNALLOCATED →
      r.dataOffset + entry * (r.bitmapSize + r.extentSize) + r.bitmapSize + off % r.extentSize < 2 ^ 64)
    (fun offset => .ok (r.extent (offset / r.extentSize)))
  refine (hread rfl (fun _ => hpos) (fun hoff => ?_)).congr
    ⟨fun hfits entry hoff => hfits hoff entry, fun hfits hoff entry => hfits entry hoff⟩
  rw [Except.ok_bind, BochsReader.extent]
  split_ifs with hlen
  · rw [List.getElem?_eq_none hlen]
    exact (Settles.ok _).of_true (by rintro entry ⟨⟩)
  · obtain ⟨entry, hentry⟩ : ∃ entry, r.catalog[off / r.extentSize]? = some entry :=
      ⟨_, List.getElem?_eq_getElem (Nat.lt_of_not_le hlen)⟩
    rw [hentry, Checked.index_eq hentry, Except.ok_bind]
    dsimp only
    split_ifs with hnone
    · exact (Settles.ok _).of_true (fun entry' heq hne => absurd hnone (Option.some.inj heq ▸ hne))
    · refine (Settles.add_bind fun _ => Settles.mul_bind fun _ => Settles.add_bind fun _ =>
        Settles.add_bind fun _ => stored_settles r.parent _ _ _).congr ?_
      constructor
      · rintro ⟨-, -, -, -, hfits⟩ entry' heq -
        rwa [← Option.some.inj heq]
      · intro hfits
        have htotal := hfits entry rfl hnone
        generalize entry * (r.bitmapSize + r.extentSize) = slots at htotal ⊢
        omega

end Bochs

/-! ## EWF -/

namespace Ewf

variable (zlib : ReadExact) (r : EwfReader)

/-- `zlib_bound`. -/
def checkedZlibBound (size : Nat) : Checked IoError Nat := do
  let bound ← Checked.add 64 size (size / 2 ^ 12)
  let bound ← Checked.add 64 bound (size / 2 ^ 14)
  let bound ← Checked.add 64 bound (size / 2 ^ 25)
  Checked.add 64 bound 13

/-- `read_chunk`. -/
def EwfReader.checkedChunk (chunkIdx : Nat) : Checked IoError Bytes :=
  if r.chunkOffsets.length ≤ chunkIdx then
    Checked.lift (.error (.invalidInput "chunk index out of range"))
  else do
    let entry ← Checked.index r.chunkOffsets chunkIdx
    let absOffset ← Checked.lift (checked (r.sectorsOffset + entry % 2 ^ 31)
      (.invalidData "EWF chunk offset overflow"))
    let next ← Checked.add 64 chunkIdx 1
    let fin ←
      if next < r.chunkOffsets.length then do
        let nextEntry ← Checked.index r.chunkOffsets next
        Checked.lift (checked (r.sectorsOffset + nextEntry % 2 ^ 31)
          (.invalidData "EWF chunk offset overflow"))
      else .ok r.sectorsEnd
    let bound ← checkedZlibBound r.chunkSize
    Checked.lift (require (absOffset ≤ fin ∧ fin - absOffset ≤ bound)
      (.invalidData "invalid EWF chunk offsets"))
    let raw ← Checked.lift (readExactly r.parent absOffset (fin - absOffset)
      (.unexpectedEof "short EWF chunk read"))
    Checked.lift (if entry / 2 ^ 31 % 2 ≠ 0 then zlib raw r.chunkSize else .ok raw)

/-- `read_at`. -/
def EwfReader.readAt (off len : Nat) : Checked IoError Bytes :=
  readBlock r.chunkSize r.virtualSize off len fun chunkIdx inChunk toRead => do
    let decompressed ← r.checkedChunk zlib chunkIdx
    Checked.slice decompressed inChunk toRead

/-- A chunk that is stored raw, from `start` to `fin`, and that the reader accepts. -/
structure EwfReader.RawChunk (bytes : Bytes) (i start fin : Nat) : Prop where
  begins : ∃ entry, r.chunkOffsets[i]? = some entry ∧ entry / 2 ^ 31 % 2 = 0 ∧
    r.sectorsOffset + entry % 2 ^ 31 = start
  ends : (∃ entry, r.chunkOffsets[i + 1]? = some entry ∧ r.sectorsOffset + entry % 2 ^ 31 = fin) ∨
    (r.chunkOffsets[i + 1]? = none ∧ r.sectorsEnd = fin)
  order : start ≤ fin
  bound : fin - start ≤ zlibBound r.chunkSize
  position : start < FILE_OFFSET_LIMIT
  within : fin = start ∨ fin ≤ bytes.length

/-- A chunk that is stored raw holds what is read of it. -/
def EwfReader.Fits (bytes : Bytes) (off len : Nat) : Prop :=
  ∀ start fin, off < r.virtualSize → r.RawChunk bytes (off / r.chunkSize) start fin →
    off % r.chunkSize + toRead r.chunkSize r.virtualSize off len ≤ fin - start

variable {zlib r} {image : Image}

/-- The bounds that the constructor keeps to. -/
structure SectionInfo.Bounded (info : SectionInfo) : Prop where
  chunkSize : info.chunkSize ≤ MAX_CHUNK_SIZE
  chunkOffsets : info.chunkOffsets.length ≤ MAX_TABLE_SIZE

theorem readSection_bounded {reader : Reader} {pos next : Nat} {typ : SectionType}
    {info info' : SectionInfo} (hinfo : info.Bounded)
    (h : readSection reader pos next typ info = .ok info') : info'.Bounded := by
  cases typ with
  | volume =>
      simp only [readSection, readVolume, bind_eq_ok, require_eq_ok, pure, Except.pure,
        Except.ok.injEq] at h
      obtain ⟨_, -, _, -, _, -, _, -, -, ⟨-, -, hsize⟩, _, -, rfl⟩ := h
      exact ⟨hsize, hinfo.chunkOffsets⟩
  | sectors =>
      rw [← Except.ok.inj h]
      exact ⟨hinfo.chunkSize, hinfo.chunkOffsets⟩
  | table =>
      unfold readSection at h
      split_ifs at h with hempty
      · simp only [readTable, checkedTableSize, readExactly, bind_eq_ok, require_eq_ok, pure,
          Except.pure, Except.ok.injEq] at h
        obtain ⟨_, -, _, -, _, ⟨-, ⟨-, hsize⟩, _, -, -, -, rfl⟩, _, ⟨_, -, -, hlen, rfl⟩, rfl⟩ := h
        refine ⟨hinfo.chunkSize, ?_⟩
        rw [tableOf, List.length_map, List.length_range, hlen]
        exact (Nat.div_le_self _ _).trans hsize
      · exact Except.ok.inj h ▸ hinfo
  | done => exact Except.ok.inj h ▸ hinfo
  | other => exact Except.ok.inj h ▸ hinfo

theorem walkSections_bounded {reader : Reader} {fuel pos : Nat} {info info' : SectionInfo}
    (hinfo : info.Bounded) (h : walkSections reader fuel pos info = .ok info') : info'.Bounded := by
  induction fuel generalizing pos info with
  | zero => cases h
  | succ fuel ih =>
      simp only [walkSections, bind_eq_ok] at h
      obtain ⟨_, -, next, -, info₁, hsection, h⟩ := h
      have hinfo₁ := readSection_bounded hinfo hsection
      split_ifs at h
      · exact Except.ok.inj h ▸ hinfo₁
      · exact ih hinfo₁ h

theorem new_bounded {parent : Reader} (h : new parent = .ok r) :
    r.chunkSize ≤ MAX_CHUNK_SIZE ∧ r.chunkOffsets.length ≤ MAX_TABLE_SIZE := by
  simp only [new, parseSections, bind_eq_ok, require_eq_ok, pure, Except.pure,
    Except.ok.injEq] at h
  obtain ⟨_, -, -, -, info, ⟨_, hwalk, -, -, rfl⟩, -, -, rfl⟩ := h
  have hinfo := walkSections_bounded ⟨Nat.zero_le _, Nat.zero_le _⟩ hwalk
  exact ⟨hinfo.chunkSize, hinfo.chunkOffsets⟩

theorem checkedZlibBound_eq {size : Nat} (h : size ≤ MAX_CHUNK_SIZE) :
    checkedZlibBound size = .ok (zlibBound size) := by
  simp only [MAX_CHUNK_SIZE] at h
  rw [checkedZlibBound, Checked.add_eq (by omega), Except.ok_bind, Checked.add_eq (by omega),
    Except.ok_bind, Checked.add_eq (by omega), Except.ok_bind, Checked.add_eq (by omega), zlibBound]

/-- `read_chunk` does not fault. -/
theorem checkedChunk_eq {parent : Reader} (h : new parent = .ok r) (i : Nat) :
    r.checkedChunk zlib i = Checked.lift (r.readChunk zlib i) := by
  obtain ⟨hsize, hlen⟩ := new_bounded h
  simp only [MAX_TABLE_SIZE] at hlen
  rw [EwfReader.checkedChunk, EwfReader.readChunk]
  split_ifs with hi
  · rw [List.getElem?_eq_none hi]
  · obtain ⟨entry, hentry⟩ : ∃ entry, r.chunkOffsets[i]? = some entry :=
      ⟨_, List.getElem?_eq_getElem (Nat.lt_of_not_le hi)⟩
    rw [hentry, Checked.index_eq hentry, Except.ok_bind, checkedZlibBound_eq hsize,
      Checked.add_eq (by omega)]
    simp only [Checked.lift_bind, Except.ok_bind]
    refine congrArg _ (funext fun absOffset => ?_)
    by_cases hnext : i + 1 < r.chunkOffsets.length
    · obtain ⟨nextEntry, hnextEntry⟩ : ∃ entry, r.chunkOffsets[i + 1]? = some entry :=
        ⟨_, List.getElem?_eq_getElem hnext⟩
      rw [if_pos hnext, hnextEntry, Checked.index_eq hnextEntry]
      simp only [Checked.lift_bind, Except.ok_bind]
    · rw [if_neg hnext, List.getElem?_eq_none (Nat.le_of_not_lt hnext)]
      simp only [Checked.lift_bind]

theorem readChunk_of_raw (hparent : r.parent = fileReader image) {i start fin : Nat}
    (h : r.RawChunk image.bytes i start fin) :
    r.readChunk zlib i = .ok (image.bytes.slice start (fin - start)) ∧
      (image.bytes.slice start (fin - start)).length = fin - start := by
  obtain ⟨⟨entry, hentry, hraw, hstart⟩, hends, horder, hbound, hposition, hwithin⟩ := h
  have hsmall := image.small
  simp only [FILE_OFFSET_LIMIT] at hposition hsmall
  have hlen : (image.bytes.slice start (fin - start)).length = fin - start := by
    rw [List.length_slice]
    omega
  refine ⟨?_, hlen⟩
  have hread : readExactly (fileReader image) start (fin - start)
      (.unexpectedEof "short EWF chunk read") = .ok (image.bytes.slice start (fin - start)) :=
    readExactly_eq_ok.mpr ⟨hposition, rfl, hlen⟩
  have hrequire : require (start ≤ fin ∧ fin - start ≤ zlibBound r.chunkSize)
      (.invalidData "invalid EWF chunk offsets") = .ok () := if_pos ⟨horder, hbound⟩
  rw [EwfReader.readChunk, hentry]
  dsimp only
  rw [hstart, checked, if_pos (by omega), Except.ok_bind, hparent]
  rcases hends with ⟨next, hnext, hfin⟩ | ⟨hnext, hfin⟩
  · rw [hnext]
    dsimp only
    rw [hfin, checked, if_pos (by omega), Except.ok_bind, hrequire, Except.ok_bind, hread]
    exact if_neg (not_not.mpr hraw)
  · rw [hnext]
    dsimp only
    rw [hfin, Except.ok_bind, hrequire, Except.ok_bind, hread]
    exact if_neg (not_not.mpr hraw)

/-- A chunk that is read has the size of a chunk, or is stored raw. -/
theorem length_readChunk (hparent : r.parent = fileReader image)
    (hzlib : ∀ s n d, zlib s n = .ok d → d.length = n) {i : Nat} {chunk : Bytes}
    (h : r.readChunk zlib i = .ok chunk) : chunk.length = r.chunkSize ∨
      ∃ start fin, r.RawChunk image.bytes i start fin ∧ chunk.length = fin - start := by
  have hsmall := image.small
  rw [EwfReader.readChunk] at h
  cases hentry : r.chunkOffsets[i]? with
  | none =>
      rw [hentry] at h
      cases h
  | some entry =>
      rw [hentry] at h
      obtain ⟨start, hstart, h⟩ := bind_eq_ok.mp h
      obtain ⟨-, rfl⟩ := checked_eq_ok.mp hstart
      -- what the branches on the next entry share
      have hrest : ∀ fin, ((r.chunkOffsets[i + 1]? = none ∧ r.sectorsEnd = fin) ∨
            ∃ next, r.chunkOffsets[i + 1]? = some next ∧ r.sectorsOffset + next % 2 ^ 31 = fin) →
          (do
            require (r.sectorsOffset + entry % 2 ^ 31 ≤ fin ∧
              fin - (r.sectorsOffset + entry % 2 ^ 31) ≤ zlibBound r.chunkSize)
              (.invalidData "invalid EWF chunk offsets")
            let raw ← readExactly r.parent (r.sectorsOffset + entry % 2 ^ 31)
              (fin - (r.sectorsOffset + entry % 2 ^ 31)) (.unexpectedEof "short EWF chunk read")
            if entry / 2 ^ 31 % 2 ≠ 0 then zlib raw r.chunkSize else .ok raw) = .ok chunk →
          chunk.length = r.chunkSize ∨
            ∃ start fin, r.RawChunk image.bytes i start fin ∧ chunk.length = fin - start := by
        intro fin hends h
        rw [hparent] at h
        obtain ⟨_, hrequire, h⟩ := bind_eq_ok.mp h
        obtain ⟨horder, hbound⟩ := require_eq_ok.mp hrequire
        obtain ⟨raw, hraw, h⟩ := bind_eq_ok.mp h
        obtain ⟨hposition, hslice, hlen⟩ := readExactly_eq_ok.mp hraw
        split_ifs at h with hcompressed
        · exact .inl (hzlib _ _ _ h)
        · obtain rfl := Except.ok.inj h
          refine .inr ⟨_, fin, ⟨⟨entry, hentry, not_not.mp hcompressed, rfl⟩, hends.symm, horder, hbound,
            hposition, ?_⟩, hlen⟩
          rw [← hslice, List.length_slice] at hlen
          omega
      cases hnext : r.chunkOffsets[i + 1]? with
      | none =>
          rw [hnext] at h
          exact hrest _ (.inl ⟨hnext, rfl⟩) h
      | some next =>
          rw [hnext] at h
          obtain ⟨fin, hfin, h⟩ := bind_eq_ok.mp h
          obtain ⟨-, rfl⟩ := checked_eq_ok.mp hfin
          exact hrest _ (.inr ⟨next, hnext, rfl⟩) h

theorem settles (h : new (fileReader image) = .ok r)
    (hzlib : ∀ s n d, zlib s n = .ok d → d.length = n) (off len : Nat) :
    Settles (r.Fits image.bytes off len) ((r.map zlib).readAt off len) (r.readAt zlib off len) := by
  obtain ⟨hparent, hpos⟩ := new_spec h
  have hread := @readBlock_settles (r.map zlib) r.chunkSize off len
    (∀ chunk, r.readChunk zlib (off / r.chunkSize) = .ok chunk →
      off % r.chunkSize + toRead r.chunkSize r.virtualSize off len ≤ chunk.length)
    (fun offset => (r.readChunk zlib (offset / r.chunkSize)).map Extent.unpacked)
  refine (hread rfl (fun _ => hpos) (fun hoff => ?_)).congr ?_
  · have hmap : ∀ (y : Except IoError Bytes) (w : Extent → Except IoError Bytes),
        (y.map Extent.unpacked >>= w) = y >>= fun chunk => w (.unpacked chunk) := by
      intro y w
      cases y <;> rfl
    rw [checkedChunk_eq h, hmap]
    exact Settles.lift_bind _ (fun chunk _ => unpacked_settles r.parent chunk _ _)
  · constructor
    · intro hfits start fin hoff hraw
      obtain ⟨hchunk, hlen⟩ := @readChunk_of_raw zlib r image hparent _ _ _ hraw
      exact (hfits hoff _ hchunk).trans hlen.le
    · intro hfits hoff chunk hchunk
      rcases length_readChunk hparent hzlib hchunk with hlen | ⟨start, fin, hraw, hlen⟩
      · rw [hlen]
        exact toRead_le hpos
      · exact hlen ▸ hfits start fin hoff hraw

end Ewf

/-! ## VMDK -/

namespace Vmdk

variable (inflate : ReadExact) (r : VmdkReader)

/-- `read_gt_entry` and `read_gt_entry_64`, by the width of the entries. -/
def checkedGtEntry (parent : Reader) (width gtOffset gtIndex : Nat) : Checked IoError Nat := do
  let bytes ← Checked.mul 64 gtIndex width
  let offset ← Checked.add 64 gtOffset bytes
  let buf ← Checked.lift (readExactly parent offset width (.unexpectedEof "short GT read"))
  return leField buf 0 width

/-- `read_compressed_grain`. -/
def checkedCompressedGrain (parent : Reader) (grainSize grainOffset : Nat) :
    Checked IoError Bytes := do
  let position ← Checked.mul 64 grainOffset 512
  let marker ← Checked.lift
    (readExactly parent position 16 (.unexpectedEof "short grain marker"))
  let compressedSize := leField marker 8 4
  let position ← Checked.mul 64 grainOffset 512
  let data ← Checked.add 64 position 16
  let compressed ← Checked.lift (readPadded parent data compressedSize)
  Checked.lift (inflate compressed grainSize)

/-- A read at an offset in a grain that starts at a sector. -/
def readSector (parent : Reader) (grainSector inGrain toRead : Nat) : Checked IoError Bytes := do
  let position ← Checked.mul 64 grainSector 512
  let physical ← Checked.add 64 position inGrain
  Checked.lift (parent.readAt physical toRead)

/-- The entry of the grain directory for a grain and its index in the grain table, or nothing when
the grain has no table. -/
def lookupGt (gd : List Nat) (tableSize grainIdx : Nat) : Checked IoError (Option (Nat × Nat)) := do
  let gdIdx ← Checked.div grainIdx tableSize
  let gtIdx ← Checked.mod grainIdx tableSize
  if gd.length ≤ gdIdx then return none
  else
    let entry ← Checked.index gd gdIdx
    return some (entry, gtIdx)

/-- `read_at`, by the variant. -/
def VmdkReader.readGrain (grainIdx inGrain toRead : Nat) : Checked IoError Bytes :=
  match r.variant with
  | .vmdk3 l1Table =>
      if l1Table.length ≤ grainIdx then .ok (List.replicate toRead 0)
      else do
        let grainSector ← Checked.index l1Table grainIdx
        if grainSector = 0 then return List.replicate toRead 0
        else readSector r.parent grainSector inGrain toRead
  | .vmdk4 gd numGtesPerGt hasZeroGrain => do
      match ← lookupGt gd numGtesPerGt grainIdx with
      | none => return List.replicate toRead 0
      | some (gtSector, gtIdx) =>
          if gtSector = 0 then return List.replicate toRead 0
          else
            let gtOffset ← Checked.mul 64 gtSector 512
            let grainSector ← checkedGtEntry r.parent 4 gtOffset gtIdx
            if grainSector = 0 ∨ (hasZeroGrain = true ∧ grainSector = VMDK4_GTE_ZEROED) then
              return List.replicate toRead 0
            else readSector r.parent grainSector inGrain toRead
  | .vmdk4Compressed gd numGtesPerGt => do
      match ← lookupGt gd numGtesPerGt grainIdx with
      | none => return List.replicate toRead 0
      | some (gtSector, gtIdx) =>
          if gtSector = 0 then return List.replicate toRead 0
          else
            let gtOffset ← Checked.mul 64 gtSector 512
            let grainSector ← checkedGtEntry r.parent 4 gtOffset gtIdx
            if grainSector = 0 then return List.replicate toRead 0
            else
              let decompressed ← checkedCompressedGrain inflate r.parent r.grainSize grainSector
              Checked.slice decompressed inGrain toRead
  | .seSparse gd gtSize => do
      match ← lookupGt gd gtSize grainIdx with
      | none => return List.replicate toRead 0
      | some (gtOffset, gtIdx) =>
          let state := gtOffset / 2 ^ 60 % 16
          if state ≠ 0 ∧ state ≠ 3 then return List.replicate toRead 0
          else
            let gtAddr := gtOffset % 2 ^ 60
            if gtAddr = 0 then return List.replicate toRead 0
            else
              let grainEntry ← checkedGtEntry r.parent 8 gtAddr gtIdx
              if grainEntry / 2 ^ 60 % 16 ≠ 3 then return List.replicate toRead 0
              else
                let physical ← Checked.add 64 (grainEntry % 2 ^ 60) inGrain
                Checked.lift (r.parent.readAt physical toRead)

/-- `read_at`. -/
def VmdkReader.readAt (off len : Nat) : Checked IoError Bytes :=
  readBlock r.grainSize r.virtualSize off len (r.readGrain inflate)

/-- An image has an integer of so many bytes at a position. -/
def HasEntry (bytes : Bytes) (width position entry : Nat) : Prop :=
  position + width ≤ bytes.length ∧ leField bytes position width = entry

/-- The place of a grain and the offset in it, and that of its entry in an seSparse image, are
`u64`. -/
def VmdkVariant.Fits (bytes : Bytes) (grainIdx inGrain : Nat) : VmdkVariant → Prop
  | .vmdk3 _ | .vmdk4Compressed _ _ => True
  | .vmdk4 gd numGtesPerGt hasZeroGrain => ∀ gtSector grainSector,
      gd[grainIdx / numGtesPerGt]? = some gtSector → gtSector ≠ 0 →
      HasEntry bytes 4 (gtSector * 512 + grainIdx % numGtesPerGt * 4) grainSector →
      grainSector ≠ 0 → ¬ (hasZeroGrain = true ∧ grainSector = VMDK4_GTE_ZEROED) →
      grainSector * 512 + inGrain < 2 ^ 64
  | .seSparse gd gtSize => ∀ gtOffset, gd[grainIdx / gtSize]? = some gtOffset →
      gtOffset / 2 ^ 60 % 16 = 0 ∨ gtOffset / 2 ^ 60 % 16 = 3 → gtOffset % 2 ^ 60 ≠ 0 →
      gtOffset % 2 ^ 60 + grainIdx % gtSize * 8 < 2 ^ 64 ∧ ∀ grainEntry,
        HasEntry bytes 8 (gtOffset % 2 ^ 60 + grainIdx % gtSize * 8) grainEntry →
        grainEntry / 2 ^ 60 % 16 = 3 → grainEntry % 2 ^ 60 + inGrain < 2 ^ 64

/-- The read at an offset stays within `u64`. -/
def VmdkReader.Fits (bytes : Bytes) (off : Nat) : Prop :=
  off < r.virtualSize → r.variant.Fits bytes (off / r.grainSize) (off % r.grainSize)

variable {inflate r} {image : Image}

theorem checkedGtEntry_settles (parent : Reader) (width off k : Nat) :
    Settles (off + k * width < 2 ^ 64) (readGtEntry parent width off k)
      (checkedGtEntry parent width off k) := by
  have hread : off + k * width < 2 ^ 64 → Settles True (readGtEntry parent width off k)
      (Checked.lift (readExactly parent (off + k * width) width (.unexpectedEof "short GT read")) >>=
        fun buf => pure (leField buf 0 width)) := by
    intro h
    rw [readGtEntry, wrap, Nat.mod_eq_of_lt h]
    exact (Settles.lift_bind _ fun _ _ => Settles.ok _).congr (iff_of_true (fun _ _ => trivial) trivial)
  refine (Settles.mul_bind fun _ => Settles.add_bind hread).congr ?_
  rw [and_true, and_iff_right_iff_imp]
  exact (Nat.le_add_left _ _).trans_lt

theorem readGtEntry_eq_ok {width off k entry : Nat} (h : off + k * width < 2 ^ 64) (hwidth : 0 < width) :
    readGtEntry (fileReader image) width off k = .ok entry ↔
      HasEntry image.bytes width (off + k * width) entry := by
  have hsmall := image.small
  rw [readGtEntry, wrap, Nat.mod_eq_of_lt h, bind_eq_ok]
  constructor
  · rintro ⟨buf, hbuf, hentry⟩
    obtain ⟨-, rfl, hlen⟩ := readExactly_eq_ok.mp hbuf
    refine ⟨(List.length_slice_eq_iff hwidth).mp hlen, ?_⟩
    rw [← Except.ok.inj hentry, leField_slice (by omega), Nat.add_zero]
  · rintro ⟨hend, rfl⟩
    refine ⟨_, readExactly_slice _ hend hwidth, ?_⟩
    rw [leField_slice (by omega), Nat.add_zero]
    rfl

/-- The sector of a grain is small enough to find its data. -/
theorem checkedCompressedGrain_eq (parent : Reader) (grainSize : Nat) {grainOffset : Nat}
    (h : grainOffset < 2 ^ 32) : checkedCompressedGrain inflate parent grainSize grainOffset =
      Checked.lift (readCompressedGrain inflate parent grainSize grainOffset) := by
  rw [checkedCompressedGrain, readCompressedGrain, Checked.mul_eq (by omega), Except.ok_bind]
  simp only [Except.ok_bind]
  rw [Checked.add_eq (by omega)]
  simp only [Checked.lift_bind, Except.ok_bind]

theorem readSector_settles (parent : Reader) {grainSector : Nat} (inGrain size : Nat) :
    Settles (grainSector * 512 + inGrain < 2 ^ 64)
      ((Extent.stored (grainSector * 512)).read parent inGrain size)
      (readSector parent grainSector inGrain size) := by
  refine (Settles.mul_bind fun _ => stored_settles parent _ _ _).congr ?_
  rw [and_iff_right_iff_imp]
  exact (Nat.le_add_right _ _).trans_lt

theorem lookupGt_eq (gd : List Nat) {tableSize : Nat} (grainIdx : Nat) (h : 0 < tableSize) :
    lookupGt gd tableSize grainIdx =
      .ok ((gd[grainIdx / tableSize]?).map fun entry => (entry, grainIdx % tableSize)) := by
  rw [lookupGt, Checked.div_eq h, Except.ok_bind, Checked.mod_eq h, Except.ok_bind]
  split_ifs with hlen
  · rw [List.getElem?_eq_none hlen]
    rfl
  · rw [Checked.index_eq (List.getElem?_eq_getElem (Nat.lt_of_not_le hlen)), Except.ok_bind,
      List.getElem?_eq_getElem (Nat.lt_of_not_le hlen)]
    rfl

/-- What the constructor ensures of the tables and sizes of a variant. -/
def VmdkVariant.Bounded (grainSize : Nat) : VmdkVariant → Prop
  | .vmdk3 l1Table => grainSize < 2 ^ 41 ∧ ∀ entry ∈ l1Table, entry < 2 ^ 32
  | .vmdk4 gd numGtesPerGt _ | .vmdk4Compressed gd numGtesPerGt =>
      0 < numGtesPerGt ∧ numGtesPerGt < 2 ^ 32 ∧ ∀ entry ∈ gd, entry < 2 ^ 32
  | .seSparse _ gtSize => 0 < gtSize

theorem tableOf_lt {width : Nat} {data : Bytes} : ∀ entry ∈ tableOf leField width data,
    entry < 256 ^ width := by
  intro entry hentry
  obtain ⟨i, -, rfl⟩ := List.mem_map.mp hentry
  exact leField_lt _ _ _

theorem new_bounded {parent : Reader} (h : new parent = .ok r) : r.variant.Bounded r.grainSize := by
  simp only [new, bind_eq_ok, require_eq_ok] at h
  obtain ⟨buf, -, -, -, h⟩ := h
  split_ifs at h with h3 h4 hse
  · simp only [parseVmdk3, bind_eq_ok, require_eq_ok, checked_eq_ok, pure, Except.pure,
      Except.ok.injEq] at h
    obtain ⟨header, -, _, ⟨-, rfl⟩, -, -, -, -, -, -, -, -, -, -, rfl⟩ := h
    refine ⟨?_, tableOf_lt⟩
    have hfield := leField_lt header 12 4
    show leField header 12 4 * 512 < 2 ^ 41
    omega
  · simp only [parseVmdk4, bind_eq_ok, require_eq_ok, pure, Except.pure, Except.ok.injEq] at h
    obtain ⟨header, -, _, -, -, -, -, -, -, hgtes, -, -, -, -, -, -, -, -, rfl⟩ := h
    have hpos := Nat.pos_of_ne_zero hgtes
    have hlt := leField_lt header 44 4
    dsimp only
    split_ifs
    · exact ⟨hpos, hlt, tableOf_lt⟩
    · exact ⟨hpos, hlt, tableOf_lt⟩
  · simp only [parseSesparse, bind_eq_ok, require_eq_ok, checked_eq_ok, pure, Except.pure,
      Except.ok.injEq] at h
    obtain ⟨header, -, _, ⟨-, rfl⟩, -, hsize, -, -, -, -, rfl⟩ := h
    exact Nat.pos_of_mul_pos_right (Nat.pos_of_ne_zero hsize)

section

variable (hparent : r.parent = fileReader image) {grainIdx inGrain size : Nat}

include hparent

/-- A directory of sectors: the entry of a grain in its table, and what is done with it. -/
theorem kdmv_settles {gd : List Nat} {numGtesPerGt : Nat} {c : Nat → Nat → Prop}
    {entry : Nat → Except IoError Extent} {body : Nat → Checked IoError Bytes}
    (hpos : 0 < numGtesPerGt) (hlt : numGtesPerGt < 2 ^ 32) (hgd : ∀ e ∈ gd, e < 2 ^ 32)
    (hbody : ∀ gtSector grainSector, HasEntry image.bytes 4
        (gtSector * 512 + grainIdx % numGtesPerGt * 4) grainSector →
      Settles (c gtSector grainSector) (entry grainSector >>= fun e => e.read r.parent inGrain size)
        (body grainSector)) :
    Settles (∀ gtSector grainSector, gd[grainIdx / numGtesPerGt]? = some gtSector → gtSector ≠ 0 →
        HasEntry image.bytes 4 (gtSector * 512 + grainIdx % numGtesPerGt * 4) grainSector →
        c gtSector grainSector)
      ((match gd[grainIdx / numGtesPerGt]? with
        | none => .ok .hole
        | some gtSector =>
            if gtSector = 0 then .ok .hole
            else do
              let grainSector ← readGtEntry r.parent 4 (gtSector * 512) (grainIdx % numGtesPerGt)
              entry grainSector) >>= fun e => e.read r.parent inGrain size)
      (do
        match ← lookupGt gd numGtesPerGt grainIdx with
        | none => return List.replicate size 0
        | some (gtSector, gtIdx) =>
            if gtSector = 0 then return List.replicate size 0
            else
              let gtOffset ← Checked.mul 64 gtSector 512
              let grainSector ← checkedGtEntry r.parent 4 gtOffset gtIdx
              body grainSector) := by
  rw [lookupGt_eq gd grainIdx hpos, Except.ok_bind]
  cases hentry : gd[grainIdx / numGtesPerGt]? with
  | none => exact (Settles.ok _).of_true (by rintro gtSector grainSector ⟨⟩)
  | some gtSector =>
      dsimp only [Option.map_some]
      have hsector := hgd _ (List.mem_of_getElem? hentry)
      have hidx := (Nat.mod_lt grainIdx hpos).trans hlt
      split_ifs with hzero
      · exact (Settles.ok _).of_true fun gtSector' grainSector heq hne =>
          absurd hzero (Option.some.inj heq ▸ hne)
      · rw [Checked.mul_eq (by omega), Except.ok_bind, bind_assoc]
        have hplace : gtSector * 512 + grainIdx % numGtesPerGt * 4 < 2 ^ 64 := by omega
        refine ((checkedGtEntry_settles r.parent 4 _ _).bind (d := c gtSector)
          fun grainSector hread => ?_).congr ?_
        · rw [hparent, readGtEntry_eq_ok hplace (by decide)] at hread
          exact hbody gtSector grainSector hread
        · rw [and_iff_right hplace, hparent]
          constructor
          · rintro hall gtSector' grainSector heq - hhas
            obtain rfl := Option.some.inj heq
            exact hall grainSector ((readGtEntry_eq_ok hplace (by decide)).mpr hhas)
          · intro hall grainSector hread
            exact hall gtSector grainSector rfl hzero
              ((readGtEntry_eq_ok hplace (by decide)).mp hread)

/-- The grain of every variant. -/
theorem readGrain_settles (hbounded : r.variant.Bounded r.grainSize) (hmod : inGrain < r.grainSize)
    (hin : inGrain + size ≤ r.grainSize) (hinflate : ∀ s n d, inflate s n = .ok d → d.length = n) :
    Settles (r.variant.Fits image.bytes grainIdx inGrain)
      (r.extent inflate grainIdx >>= fun e => e.read r.parent inGrain size)
      (r.readGrain inflate grainIdx inGrain size) := by
  rw [VmdkReader.extent, VmdkReader.readGrain]
  cases hvariant : r.variant with
  | vmdk3 l1Table =>
      rw [hvariant] at hbounded
      obtain ⟨hsize, htable⟩ := hbounded
      refine Settles.of_true ?_ trivial
      dsimp only
      split_ifs with hlen
      · rw [List.getElem?_eq_none hlen]
        exact Settles.ok _
      · obtain ⟨sector, hsector⟩ : ∃ sector, l1Table[grainIdx]? = some sector :=
          ⟨_, List.getElem?_eq_getElem (Nat.lt_of_not_le hlen)⟩
        have hlt := htable sector (List.mem_of_getElem? hsector)
        rw [hsector, Checked.index_eq hsector, Except.ok_bind]
        dsimp only
        split_ifs
        · exact Settles.ok _
        · exact (readSector_settles r.parent inGrain size).congr (iff_true_intro (by omega))
  | vmdk4 gd numGtesPerGt hasZeroGrain =>
      rw [hvariant] at hbounded
      obtain ⟨hpos, hlt, hgd⟩ := hbounded
      refine kdmv_settles (c := fun _ grainSector => grainSector ≠ 0 →
        ¬ (hasZeroGrain = true ∧ grainSector = VMDK4_GTE_ZEROED) →
        grainSector * 512 + inGrain < 2 ^ 64) hparent hpos hlt hgd fun gtSector grainSector _ => ?_
      split_ifs with hzero
      · exact (Settles.ok _).of_true fun hne hnot => absurd hzero (not_or.mpr ⟨hne, hnot⟩)
      · obtain ⟨hne, hnot⟩ := not_or.mp hzero
        exact (readSector_settles r.parent inGrain size).congr
          ⟨fun h _ _ => h, fun h => h hne hnot⟩
  | vmdk4Compressed gd numGtesPerGt =>
      rw [hvariant] at hbounded
      obtain ⟨hpos, hlt, hgd⟩ := hbounded
      refine (kdmv_settles (c := fun _ _ => True) hparent hpos hlt hgd
        fun gtSector grainSector hhas => ?_).congr (iff_of_true (fun _ _ _ _ _ => trivial) trivial)
      split_ifs
      · exact Settles.ok _
      · have hsector : grainSector < 2 ^ 32 := hhas.2 ▸ leField_lt _ _ _
        rw [checkedCompressedGrain_eq r.parent r.grainSize hsector, bind_assoc]
        refine (Settles.lift_bind _ fun grain _ => unpacked_settles r.parent grain inGrain size).congr
          (iff_of_true (fun grain hgrain => ?_) trivial)
        obtain ⟨_, -, hgrain⟩ := bind_eq_ok.mp hgrain
        obtain ⟨_, -, hgrain⟩ := bind_eq_ok.mp hgrain
        exact hinflate _ _ _ hgrain ▸ hin
  | seSparse gd gtSize =>
      rw [hvariant] at hbounded
      dsimp only
      rw [lookupGt_eq gd grainIdx hbounded, Except.ok_bind]
      cases hentry : gd[grainIdx / gtSize]? with
      | none =>
          refine (Settles.ok _).of_true ?_
          intro gtOffset heq
          rw [hentry] at heq
          cases heq
      | some gtOffset =>
          dsimp only [Option.map_some]
          have hfits : (VmdkVariant.seSparse gd gtSize).Fits image.bytes grainIdx inGrain ↔
              (gtOffset / 2 ^ 60 % 16 = 0 ∨ gtOffset / 2 ^ 60 % 16 = 3 → gtOffset % 2 ^ 60 ≠ 0 →
                gtOffset % 2 ^ 60 + grainIdx % gtSize * 8 < 2 ^ 64 ∧ ∀ grainEntry,
                  HasEntry image.bytes 8 (gtOffset % 2 ^ 60 + grainIdx % gtSize * 8) grainEntry →
                  grainEntry / 2 ^ 60 % 16 = 3 → grainEntry % 2 ^ 60 + inGrain < 2 ^ 64) := by
            constructor
            · exact fun h => h gtOffset hentry
            · rintro h gtOffset' heq
              rw [hentry] at heq
              exact Option.some.inj heq ▸ h
          refine Settles.congr ?_ hfits.symm
          split_ifs with hstate haddr
          · exact (Settles.ok _).of_true fun h => absurd h (by omega)
          · exact (Settles.ok _).of_true fun _ hne => absurd haddr hne
          · rw [bind_assoc]
            refine ((checkedGtEntry_settles r.parent 8 _ _).bind (d := fun grainEntry =>
              grainEntry / 2 ^ 60 % 16 = 3 → grainEntry % 2 ^ 60 + inGrain < 2 ^ 64)
              fun grainEntry _ => ?_).congr ?_
            · split_ifs with hgrain
              · exact (Settles.ok _).of_true fun h => absurd h hgrain
              · exact (stored_settles r.parent _ _ _).congr (imp_iff_right (not_not.mp hgrain)).symm
            · rw [hparent]
              have hopen : gtOffset / 2 ^ 60 % 16 = 0 ∨ gtOffset / 2 ^ 60 % 16 = 3 := by omega
              rw [imp_iff_right hopen, imp_iff_right haddr]
              refine and_congr_right fun hplace => forall_congr' fun grainEntry => ?_
              rw [readGtEntry_eq_ok hplace (by decide)]

end

theorem settles (h : new (fileReader image) = .ok r)
    (hinflate : ∀ s n d, inflate s n = .ok d → d.length = n) (off len : Nat) :
    Settles (r.Fits image.bytes off) ((r.map inflate).readAt off len) (r.readAt inflate off len) := by
  obtain ⟨hparent, hpos⟩ := new_spec h
  exact @readBlock_settles (r.map inflate) r.grainSize off len _
    (fun offset => r.extent inflate (offset / r.grainSize)) _ rfl (fun _ => hpos) fun _ =>
      readGrain_settles hparent (new_bounded h) (Nat.mod_lt _ hpos) (toRead_le hpos) hinflate

end Vmdk

end Mountin
