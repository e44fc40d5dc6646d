import Mountin.Disk.Exposes
import Mountin.Disk.Transparent

set_option autoImplicit false

/-! # Disks of equal blocks

What a map of equal blocks is for: a block that is allocated has its bytes somewhere in the image,
and any other part of the disk holds zeros, also where the table has ended (`EqualBlocks.content`).
The Bochs, Parallels, VDI, dynamic VHD and QED readers translate through such maps. A Parallels
image whose table ends before the disk stops there.

* `Reader.readOn` : a caller that reads on after each read.
* `EqualBlocks` : the blocks of a disk, and the content that they give.
* `equalBlocks_iff` : a reader shows the content exactly when its table covers the disk or it goes
  on with zeros.
-/

namespace Mountin

/-! ## Reading on -/

/-- A caller that asks for `len` bytes again and again, and stops where nothing comes back. -/
def Reader.readOn (r : Reader) (len : Nat) : (turns off : Nat) → Except IoError Bytes
  | 0, _ => .ok []
  | turns + 1, off => do
      let buf ← r.readAt off len
      if buf = [] then return []
      else
        let rest ← r.readOn len turns (off + buf.length)
        return buf ++ rest

/-- **Reading on covers a disk that is shown.** -/
theorem Reader.Exposes.readOn {r : Reader} {D : Bytes} (h : r.Exposes D) {len : Nat}
    (hlen : 0 < len) {turns off : Nat} (hturns : D.length - off ≤ turns) :
    r.readOn len turns off = .ok (D.drop off) := by
  induction turns generalizing off with
  | zero => rw [Reader.readOn, List.drop_eq_nil_of_le (by omega)]
  | succ turns ih =>
      obtain ⟨n, -, hpos, hread⟩ := h.readAt off len
      rw [Reader.readOn, hread]
      have hlength : (D.slice off n).length = min n (D.length - off) := List.length_slice ..
      have := hpos hlen
      show (if D.slice off n = [] then Except.ok [] else
        (r.readOn len turns (off + (D.slice off n).length)).bind fun rest =>
          .ok (D.slice off n ++ rest)) = _
      by_cases hoff : off < D.length
      · have hne : D.slice off n ≠ [] := by
          intro hnil
          rw [hnil, List.length_nil] at hlength
          omega
        rw [if_neg hne, ih (by omega), Except.bind]
        refine congrArg Except.ok ?_
        rw [hlength, ← List.drop_drop, ← List.slice_min_length, List.slice, List.take_append_drop]
      · have hnil : D.slice off n = [] := List.slice_eq_nil _ (by omega)
        rw [if_pos hnil, List.drop_eq_nil_of_le (by omega)]

/-! ## Blocks -/

/-- The blocks of a disk. -/
structure EqualBlocks where
  blockSize : Nat
  virtualSize : Nat
  /-- The place of the bytes of a block that is allocated. -/
  place : Nat → Option Nat
  /-- The place and length of a second table, for a block that has its entry there. -/
  table : Nat → Option (Nat × Nat)

namespace EqualBlocks

variable (b : EqualBlocks) (P : Bytes)

/-- A byte of the disk: of the block that is allocated there, and zero elsewhere. -/
def byte (off : Nat) : UInt8 :=
  match b.place (off / b.blockSize) with
  | none => 0
  | some physical => (P[physical + off % b.blockSize]?).getD 0

/-- The disk. -/
def content : Bytes := (List.range b.virtualSize).map (b.byte P)

/-- The blocks of the disk that are allocated are whole in the image, and so are the tables. -/
structure Whole : Prop where
  block : ∀ idx physical, idx * b.blockSize < b.virtualSize → b.place idx = some physical →
    physical + b.blockSize ≤ P.length
  table : ∀ idx off len, idx * b.blockSize < b.virtualSize → b.table idx = some (off, len) →
    off + len ≤ P.length

/-- What a map has for a block: its place, or no bytes. -/
def Source (idx : Nat) (e : Extent) : Prop :=
  match b.place idx with
  | none => e = .hole ∨ e = .absent
  | some physical => e = .stored physical

theorem length_content : (b.content P).length = b.virtualSize := by
  rw [content, List.length_map, List.length_range]

theorem getElem?_content {off : Nat} (h : off < b.virtualSize) :
    (b.content P)[off]? = some (b.byte P off) := by
  rw [content, List.getElem?_map, List.getElem?_range h, Option.map_some]

variable {b} {P}

/-- A map with the sources of the blocks describes the disk. -/
theorem denotes {m : DiskMap} (hsize : 0 < b.blockSize) (hvirtual : m.virtualSize = b.virtualSize)
    (hpiece : ∀ off < b.virtualSize, ∃ e, b.Source (off / b.blockSize) e ∧
      m.piece off = .ok ⟨off / b.blockSize * b.blockSize, b.blockSize, e⟩)
    (hwhole : b.Whole P) : m.Denotes P (b.content P) where
  length := by rw [length_content, hvirtual]
  byte off hoff := by
    rw [length_content] at hoff
    obtain ⟨e, he, hp⟩ := hpiece off hoff
    refine ⟨_, hp, ?_⟩
    have hin : off - off / b.blockSize * b.blockSize = off % b.blockSize := by
      have := Nat.div_add_mod' off b.blockSize
      omega
    rw [getElem?_content b P hoff]
    dsimp only
    rw [hin, byte]
    unfold Source at he
    cases hplace : b.place (off / b.blockSize) with
    | none =>
        rw [hplace] at he
        rcases he with rfl | rfl <;> rfl
    | some physical =>
        rw [hplace] at he
        obtain rfl := he
        have hblock := hwhole.block _ physical
          (Nat.lt_of_le_of_lt (Nat.div_mul_le_self off b.blockSize) hoff) hplace
        have hlt := Nat.mod_lt off hsize
        have hget : physical + off % b.blockSize < P.length := by omega
        simp only [Extent.byte, List.getElem?_eq_getElem hget, Option.getD_some]

end EqualBlocks

/-- A reader shows the disk that its map describes exactly when every read has something. -/
theorem DiskMap.Denotes.exposes_iff {m : DiskMap} {P D : Bytes} (hD : m.Denotes P D)
    (hP : Flat m.parent P) (hm : m.Coherent) :
    m.reader.Exposes D ↔ ∀ off < D.length, 0 < m.run off := by
  refine ⟨fun h off hoff => ?_, DiskMap.exposes hP hm hD⟩
  obtain ⟨n, hn, hpos, hread⟩ := h.readAt off 1
  obtain rfl : n = 1 := by omega
  have hserved := DiskMap.serves hP hm hD off 1
  have hslice := Except.ok.inj (hserved.symm.trans hread)
  rw [Runs.slice_eq_slice_iff] at hslice
  omega

/-! ## The five formats -/

/-- Blocks of one table. -/
def oneTable (blockSize virtualSize : Nat) (place : Nat → Option Nat) : EqualBlocks where
  blockSize := blockSize
  virtualSize := virtualSize
  place := place
  table _ := none

/-- The blocks of a VDI image. -/
def Vdi.VdiReader.blocks (r : VdiReader) : EqualBlocks :=
  oneTable r.blockSize r.virtualSize fun idx =>
    (r.blockMap[idx]?).bind fun entry =>
      if entry = VDI_UNALLOCATED ∨ entry = VDI_DISCARDED then none
      else some (r.dataOffset + entry * r.blockSize)

/-- The blocks of a dynamic VHD image; each has its bitmap before its bytes. -/
def Vhd.VhdReader.blocks (r : VhdReader) : Option EqualBlocks :=
  match r.variant with
  | .fixed => none
  | .dynamic bat blockSize bitmapSize =>
      some (oneTable blockSize r.virtualSize fun idx =>
        (bat[idx]?).bind fun entry =>
          if entry = VHD_UNALLOCATED then none else some (entry * 512 + bitmapSize))

/-- The clusters of a Parallels image. -/
def Parallels.ParallelsReader.blocks (r : ParallelsReader) : EqualBlocks :=
  oneTable r.clusterSize r.virtualSize fun idx =>
    (r.bat[idx]?).bind fun entry =>
      if entry = 0 then none
      else some (entry * if r.extended then r.clusterSize else SECTOR_SIZE)

/-- The extents of a Bochs image; each has its bitmap before its bytes. -/
def Bochs.BochsReader.blocks (r : BochsReader) : EqualBlocks :=
  oneTable r.extentSize r.virtualSize fun idx =>
    (r.catalog[idx]?).bind fun entry =>
      if entry = CATALOG_UNALLOCATED then none
      else some (r.dataOffset + entry * (r.bitmapSize + r.extentSize) + r.bitmapSize)

/-- The second table of a cluster of a QED image. -/
def Qed.QedReader.l2Table (r : QedReader) (idx : Nat) : Option Nat :=
  (r.l1Table[idx / r.l2Entries]?).filter (· ≠ 0)

/-- The clusters of a QED image. -/
def Qed.QedReader.blocks (r : QedReader) (P : Bytes) : EqualBlocks where
  blockSize := r.clusterSize
  virtualSize := r.virtualSize
  place idx := (r.l2Table idx).bind fun l2Offset =>
    (some (leField P (l2Offset + idx % r.l2Entries * 8) 8)).filter (1 < ·)
  table idx := (r.l2Table idx).map fun l2Offset => (l2Offset, r.l2Entries * 8)

/-- The blocks of an open image, for the formats that have them. -/
def DiskReader.blocks (image : Image) : DiskReader → Option EqualBlocks
  | .bochs r => some r.blocks
  | .parallels r => some r.blocks
  | .qed r => some (r.blocks image.bytes)
  | .vdi r => some r.blocks
  | .vhd r => r.blocks
  | _ => none

/-- The table of a Parallels image covers the disk. -/
def DiskReader.TableCovers : DiskReader → Prop
  | .parallels r => r.virtualSize ≤ r.bat.length * r.clusterSize
  | _ => True

/-! ## Sources -/

/-- An open image has the sources of its blocks, and nothing absent if its table covers the disk. -/
structure DiskReader.Sources (d : DiskReader) (decoders : Decoders) (b : EqualBlocks) : Prop where
  size : 0 < b.blockSize
  virtual : (d.map decoders).virtualSize = b.virtualSize
  piece : ∀ off < b.virtualSize, ∃ e, b.Source (off / b.blockSize) e ∧
    (d.map decoders).piece off = .ok ⟨off / b.blockSize * b.blockSize, b.blockSize, e⟩ ∧
    (e = .absent ↔ ∃ r, d = .parallels r ∧ r.bat.length ≤ off / r.clusterSize)

section

variable {format : DiskFormat} {image : Image} {decoders : Decoders}

theorem Vdi.sources {r : VdiReader} (h : new (fileReader image) = .ok r) :
    (DiskReader.vdi r).Sources decoders r.blocks where
  size := (new_spec h).2
  virtual := rfl
  piece off _ := by
    refine ⟨r.extent (off / r.blockSize), ?_, rfl, ?_⟩
    · simp only [EqualBlocks.Source, VdiReader.blocks, oneTable, VdiReader.extent]
      cases r.blockMap[off / r.blockSize]? with
      | none => exact .inl rfl
      | some entry =>
          simp only [Option.bind_some]
          split_ifs
          · exact .inl rfl
          · rfl
    · simp only [VdiReader.extent, reduceCtorEq, false_and, exists_false, iff_false]
      cases r.blockMap[off / r.blockSize]? with
      | none => exact fun h => by cases h
      | some entry =>
          dsimp only
          split_ifs <;> exact fun h => by cases h

theorem Vhd.sources {r : VhdReader} {b : EqualBlocks} (h : new (fileReader image) = .ok r)
    (hb : r.blocks = some b) : (DiskReader.vhd r).Sources decoders b := by
  obtain ⟨parent, variant, virtualSize⟩ := r
  cases variant with
  | fixed => cases hb
  | dynamic bat blockSize bitmapSize =>
      obtain rfl := Option.some.inj hb
      refine ⟨(new_spec h).2 _ _ _ rfl, rfl, fun off _ => ⟨extent bat bitmapSize (off / blockSize), ?_,
        rfl, ?_⟩⟩
      · simp only [EqualBlocks.Source, oneTable, extent]
        cases bat[off / blockSize]? with
        | none => exact .inl rfl
        | some entry =>
            simp only [Option.bind_some]
            split_ifs
            · exact .inl rfl
            · rfl
      · simp only [extent, reduceCtorEq, false_and, exists_false, iff_false]
        cases bat[off / blockSize]? with
        | none => exact fun h => by cases h
        | some entry =>
            dsimp only
            split_ifs <;> exact fun h => by cases h

theorem Bochs.sources {r : BochsReader} (h : new (fileReader image) = .ok r) :
    (DiskReader.bochs r).Sources decoders r.blocks where
  size := (new_spec h).2
  virtual := rfl
  piece off _ := by
    refine ⟨r.extent (off / r.extentSize), ?_, rfl, ?_⟩
    · simp only [EqualBlocks.Source, BochsReader.blocks, oneTable, BochsReader.extent]
      cases r.catalog[off / r.extentSize]? with
      | none => exact .inl rfl
      | some entry =>
          simp only [Option.bind_some]
          split_ifs
          · exact .inl rfl
          · rfl
    · simp only [BochsReader.extent, reduceCtorEq, false_and, exists_false, iff_false]
      cases r.catalog[off / r.extentSize]? with
      | none => exact fun h => by cases h
      | some entry =>
          dsimp only
          split_ifs <;> exact fun h => by cases h

/-- A Parallels image has nothing past its table. -/
theorem Parallels.sources {r : ParallelsReader} (h : new (fileReader image) = .ok r) :
    (DiskReader.parallels r).Sources decoders r.blocks where
  size := (new_spec h).2
  virtual := rfl
  piece off _ := by
    refine ⟨r.extent (off / r.clusterSize), ?_, rfl, ?_⟩
    · simp only [EqualBlocks.Source, ParallelsReader.blocks, oneTable, ParallelsReader.extent]
      cases r.bat[off / r.clusterSize]? with
      | none => exact .inr rfl
      | some entry =>
          simp only [Option.bind_some]
          split_ifs
          · exact .inl rfl
          · rfl
          · rfl
    · have hpast : (∃ r', DiskReader.parallels r = .parallels r' ∧
          r'.bat.length ≤ off / r'.clusterSize) ↔ r.bat.length ≤ off / r.clusterSize := by
        constructor
        · rintro ⟨_, ⟨rfl⟩, hle⟩
          exact hle
        · exact fun hle => ⟨r, rfl, hle⟩
      rw [hpast, ← List.getElem?_eq_none_iff]
      simp only [ParallelsReader.extent]
      cases r.bat[off / r.clusterSize]? with
      | none => simp
      | some entry =>
          dsimp only
          split_ifs <;> simp

theorem Qed.new_l2Entries_pos {parent : Reader} {r : QedReader} (h : new parent = .ok r) :
    0 < r.l2Entries := by
  simp only [new, bind_eq_ok, require_eq_ok, checked_eq_ok, pure, Except.pure, Except.ok.injEq] at h
  obtain ⟨header, -, -, -, -, hcluster, -, htable, _, ⟨-, rfl⟩, -, -, -, -, rfl⟩ := h
  have hsize : QED_MIN_CLUSTER_SIZE ≤ leField header 0x08 4 * leField header 0x04 4 :=
    hcluster.1.trans (Nat.le_mul_of_pos_left _ (Nat.pos_of_ne_zero htable.1))
  exact Nat.div_pos (Nat.le_trans (by decide) hsize) (by decide)

/-- The entry of a cluster in a table that is whole in the image. -/
theorem Qed.readL2Entry_whole {P : Bytes} {l2Offset l2Index entries : Nat} (hP : P = image.bytes)
    (hwhole : l2Offset + entries * 8 ≤ P.length) (hindex : l2Index < entries) :
    readL2Entry leField (fileReader image) l2Offset l2Index =
      .ok (leField P (l2Offset + l2Index * 8) 8) := by
  subst hP
  have hsmall : image.bytes.length < 2 ^ 64 := image.small.trans (by decide)
  have hend : l2Offset + l2Index * 8 + 8 ≤ image.bytes.length := by omega
  have hwrap : wrap (l2Offset + l2Index * 8) = l2Offset + l2Index * 8 := Nat.mod_eq_of_lt (by omega)
  rw [readL2Entry, hwrap, readExactly_slice _ hend (by decide)]
  show Except.ok (leField (image.bytes.slice (l2Offset + l2Index * 8) 8) 0 8) = _
  rw [leField_slice (by decide), Nat.add_zero]

theorem Qed.sources {r : QedReader} (h : new (fileReader image) = .ok r)
    (hwhole : (r.blocks image.bytes).Whole image.bytes) :
    (DiskReader.qed r).Sources decoders (r.blocks image.bytes) where
  size := (new_spec h).2
  virtual := rfl
  piece off hoff := by
    obtain ⟨hparent, hsize⟩ := new_spec h
    have hentries := new_l2Entries_pos h
    -- the two indices of an offset are those of its cluster
    have hl1 : off / (r.l2Entries * r.clusterSize) = off / r.clusterSize / r.l2Entries := by
      rw [Nat.div_div_eq_div_mul, Nat.mul_comm]
    have hl2 : off % (r.l2Entries * r.clusterSize) / r.clusterSize =
        off / r.clusterSize % r.l2Entries := by
      rw [Nat.mul_comm, Nat.mod_mul_right_div_self]
    have hpiece : ∀ e, r.extent off = .ok e → (DiskReader.map decoders (.qed r)).piece off =
        .ok ⟨off / r.clusterSize * r.clusterSize, r.clusterSize, e⟩ := by
      intro e he
      show blockPiece r.clusterSize r.extent off = _
      rw [blockPiece, he]
    have hqed : ∀ e, e = .hole ∨ (∃ physical, e = .stored physical) →
        (e = Extent.absent ↔ ∃ r', DiskReader.qed r = .parallels r' ∧
          r'.bat.length ≤ off / r'.clusterSize) := by
      rintro e he
      constructor
      · rintro rfl
        rcases he with he | ⟨_, he⟩ <;> cases he
      · rintro ⟨_, hd, -⟩
        cases hd
    have htable := hwhole.table (off / r.clusterSize)
    simp only [QedReader.blocks] at htable
    cases hl2Table : r.l2Table (off / r.clusterSize) with
    | none =>
        refine ⟨.hole, ?_, hpiece _ ?_, hqed _ (.inl rfl)⟩
        · simp only [EqualBlocks.Source, QedReader.blocks, hl2Table, Option.bind_none]
          exact .inl trivial
        · unfold QedReader.l2Table at hl2Table
          unfold QedReader.extent
          simp only [hl1]
          cases hentry : r.l1Table[off / r.clusterSize / r.l2Entries]? with
          | none => rfl
          | some l2Offset =>
              rw [hentry] at hl2Table
              have hzero : l2Offset = 0 := by simpa [Option.filter] using hl2Table
              simp only [hzero, if_true]
    | some l2Offset =>
        have hentry : r.l1Table[off / r.clusterSize / r.l2Entries]? = some l2Offset ∧ l2Offset ≠ 0 := by
          simpa [QedReader.l2Table, Option.filter_eq_some_iff] using hl2Table
        have hinside := htable l2Offset (r.l2Entries * 8)
          (Nat.lt_of_le_of_lt (Nat.div_mul_le_self off r.clusterSize) hoff) (by rw [hl2Table]; rfl)
        have hread := readL2Entry_whole rfl hinside (Nat.mod_lt (off / r.clusterSize) hentries)
        have hextent : r.extent off =
            if leField image.bytes (l2Offset + off / r.clusterSize % r.l2Entries * 8) 8 ≤ 1 then
              .ok .hole
            else .ok (.stored
              (leField image.bytes (l2Offset + off / r.clusterSize % r.l2Entries * 8) 8)) := by
          unfold QedReader.extent
          simp only [hl1, hl2, hentry.1, if_neg hentry.2, hparent, hread]
          rfl
        by_cases hsmall :
            leField image.bytes (l2Offset + off / r.clusterSize % r.l2Entries * 8) 8 ≤ 1
        · rw [if_pos hsmall] at hextent
          refine ⟨.hole, ?_, hpiece _ hextent, hqed _ (.inl rfl)⟩
          simp only [EqualBlocks.Source, QedReader.blocks, hl2Table, Option.bind_some]
          rw [Option.filter_some, if_neg (by simpa using hsmall)]
          exact .inl trivial
        · rw [if_neg hsmall] at hextent
          refine ⟨_, ?_, hpiece _ hextent, hqed _ (.inr ⟨_, rfl⟩)⟩
          simp only [EqualBlocks.Source, QedReader.blocks, hl2Table, Option.bind_some]
          rw [Option.filter_some, if_pos (by simpa using hsmall)]

theorem DiskFormat.openDisk_sources {d : DiskReader} {b : EqualBlocks}
    (h : format.openDisk (fileReader image) = .ok d) (hb : d.blocks image = some b)
    (hwhole : b.Whole image.bytes) : d.Sources decoders b := by
  cases format <;> obtain ⟨r, hr, rfl⟩ := map_eq_ok.mp h
  case vhd => exact Vhd.sources hr hb
  case vdi => exact Option.some.inj hb ▸ Vdi.sources hr
  case bochs => exact Option.some.inj hb ▸ Bochs.sources hr
  case parallels => exact Option.some.inj hb ▸ Parallels.sources hr
  case qed =>
    obtain rfl := Option.some.inj hb
    exact Qed.sources hr hwhole
  all_goals cases hb

end

/-! ## Readers -/

/-- The table of an image with blocks covers the disk exactly when nothing of it is absent. -/
theorem DiskReader.tableCovers_iff {d : DiskReader} {image : Image} {b : EqualBlocks}
    (hb : d.blocks image = some b) (hsize : 0 < b.blockSize) :
    d.TableCovers ↔ ∀ off < b.virtualSize, ¬ ∃ r, d = .parallels r ∧ r.bat.length ≤ off / r.clusterSize := by
  cases d with
  | parallels r =>
      obtain rfl := Option.some.inj hb
      replace hsize : 0 < r.clusterSize := hsize
      constructor
      · rintro hcovers off hoff ⟨_, ⟨rfl⟩, hle⟩
        have hlt : off < r.bat.length * r.clusterSize := Nat.lt_of_lt_of_le hoff hcovers
        exact absurd ((Nat.div_lt_iff_lt_mul hsize).mpr hlt) (Nat.not_lt.mpr hle)
      · intro hnone
        by_contra hshort
        refine hnone _ (Nat.not_le.mp hshort) ⟨r, rfl, ?_⟩
        rw [Nat.mul_div_cancel _ hsize]
  | bochs | cloop | dmg | ewf | qcow | qcow2 | qed | vdi | vhd | vhdx | vmdk =>
      refine iff_of_true trivial fun off _ => ?_
      rintro ⟨r, hd, -⟩
      cases hd

/-- **Readers of equal blocks**: on an accepted image whose blocks are whole, each read returns
bytes of the disk, at least one of them, and reading on covers it, exactly when the table covers the
disk or the format goes on with zeros. -/
theorem equalBlocks_iff (format : DiskFormat) (image : Image) (d : DiskReader) (decoders : Decoders)
    (b : EqualBlocks) (h : format.openDisk (fileReader image) = .ok d)
    (hb : d.blocks image = some b) (hwhole : b.Whole image.bytes) :
    ((d.map decoders).reader.Exposes (b.content image.bytes) ∧ ∀ len > 0,
        (d.map decoders).reader.readOn len b.virtualSize 0 = .ok (b.content image.bytes)) ↔
      d.TableCovers := by
  have hsources : d.Sources decoders b := DiskFormat.openDisk_sources h hb hwhole
  have hunambiguous : d.Unambiguous := by
    cases d <;> trivial
  obtain ⟨hparent, hcoherent⟩ := DiskFormat.openDisk_spec h hunambiguous decoders
  have hflat : Flat (d.map decoders).parent image.bytes := hparent ▸ flat_fileReader image
  have hdenotes := EqualBlocks.denotes hsources.size hsources.virtual (fun off hoff =>
    (hsources.piece off hoff).imp fun _ he => ⟨he.1, he.2.1⟩) hwhole
  have hexposes : (d.map decoders).reader.Exposes (b.content image.bytes) ↔ d.TableCovers := by
    rw [hdenotes.exposes_iff hflat hcoherent, EqualBlocks.length_content,
      DiskReader.tableCovers_iff hb hsources.size]
    refine forall₂_congr fun off hoff => ?_
    obtain ⟨e, -, hpiece, habsent⟩ := hsources.piece off hoff
    have hmod := Nat.div_add_mod' off b.blockSize
    have hlt := Nat.mod_lt off hsources.size
    rw [← habsent, DiskMap.run, hpiece]
    cases e with
    | absent => simp [Piece.rest]
    | hole | stored | raw | unpacked =>
        simp only [Piece.rest, reduceCtorEq, not_false_eq_true, iff_true]
        omega
  rw [← hexposes]
  refine and_iff_left_of_imp fun hshown len hlen => ?_
  exact hshown.readOn hlen (by rw [EqualBlocks.length_content, Nat.sub_zero])

/-! ## A Parallels image with an empty table -/

/-- The header of a Parallels image of one sector in clusters of a sector, with a table of so many
entries. -/
def parallelsImage (entries : UInt8) : Bytes :=
  Parallels.MAGIC_OLD ++ [2, 0, 0, 0] ++ List.replicate 8 0 ++ [1, 0, 0, 0] ++ [entries, 0, 0, 0] ++
    [1, 0, 0, 0, 0, 0, 0, 0] ++ List.replicate 20 0

def tablelessImage : Image := ⟨parallelsImage 0, by decide⟩

def tablelessReader : Parallels.ParallelsReader where
  parent := fileReader tablelessImage
  bat := []
  clusterSize := 512
  virtualSize := 512
  extended := false

theorem openDisk_tableless :
    DiskFormat.parallels.openDisk (fileReader tablelessImage) = .ok (.parallels tablelessReader) := rfl

theorem whole_tableless : tablelessReader.blocks.Whole tablelessImage.bytes where
  block idx physical _ h := by
    simp [Parallels.ParallelsReader.blocks, oneTable, tablelessReader] at h
  table idx off len _ h := by cases h

/-- **Past its table a Parallels image stops**: its disk has a sector, all of it zeros, and nothing
of it can be read. -/
theorem tableless_reads_nothing :
    DiskFormat.parallels.openDisk (fileReader tablelessImage) = .ok (.parallels tablelessReader) ∧
      tablelessReader.blocks.Whole tablelessImage.bytes ∧
      tablelessReader.map.reader.size = some 512 ∧ tablelessReader.map.reader.readAt 0 512 = .ok [] :=
  ⟨openDisk_tableless, whole_tableless, rfl, rfl⟩

/-- The same image with an entry for the sector. -/
def sparseParallels : Image := ⟨parallelsImage 1 ++ [0, 0, 0, 0], by decide⟩

def sparseParallelsReader : Parallels.ParallelsReader :=
  { tablelessReader with parent := fileReader sparseParallels, bat := [0] }

theorem sparseParallels_covered :
    sparseParallelsReader.map.reader.readOn 100 512 0 =
      .ok (sparseParallelsReader.blocks.content sparseParallels.bytes) := by
  refine ((equalBlocks_iff .parallels sparseParallels (.parallels sparseParallelsReader) noDecoders
    sparseParallelsReader.blocks rfl rfl ⟨fun idx physical _ h => ?_, fun idx off len _ h => ?_⟩).mpr
    (Nat.le_refl 512)).2 100 (by decide)
  · cases idx <;>
      simp [Parallels.ParallelsReader.blocks, oneTable, sparseParallelsReader] at h
  · cases h

end Mountin
