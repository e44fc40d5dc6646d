import Mountin.Disk.Fields
import Mountin.Disk.Map

set_option autoImplicit false

/-! # Exposing a disk

A reader exposes the disk `D` when a caller that reads on sees `D` and nothing else
(`Reader.Exposes`). For a disk map over an image file that is to describe `D`
(`DiskMap.exposes_iff`): the meaning of the map, and not only the bytes that it happens to
return, is settled by what can be read.
-/

namespace Mountin

/-- The reader shows the disk `D`: its size, and from every offset the bytes of `D`, at least
one of them where there is one. -/
structure Reader.Exposes (r : Reader) (D : Bytes) : Prop where
  size : r.size = some D.length
  readAt : ∀ off len, ∃ n ≤ len, (0 < len → 0 < n) ∧ r.readAt off len = .ok (D.slice off n)

/-! ## Reads of an image file -/

theorem fileReader_readAt_eq_ok {image : Image} {off len : Nat} {buf : Bytes} :
    (fileReader image).readAt off len = .ok buf ↔
      off < FILE_OFFSET_LIMIT ∧ image.bytes.slice off len = buf := by
  simp only [fileReader]
  split_ifs with h <;> simp [h]

theorem readExactly_eq_ok {image : Image} {off len : Nat} {e : IoError} {buf : Bytes} :
    readExactly (fileReader image) off len e = .ok buf ↔
      off < FILE_OFFSET_LIMIT ∧ image.bytes.slice off len = buf ∧ buf.length = len := by
  simp only [readExactly, bind_eq_ok, require_eq_ok, fileReader_readAt_eq_ok, pure, Except.pure,
    Except.ok.injEq]
  constructor
  · rintro ⟨b, ⟨hoff, hslice⟩, -, hlen, rfl⟩
    exact ⟨hoff, hslice, hlen⟩
  · rintro ⟨hoff, hslice, hlen⟩
    exact ⟨buf, ⟨hoff, hslice⟩, (), hlen, rfl⟩

/-- A read of some bytes of an image file that are there. -/
theorem readExactly_slice {image : Image} {off len : Nat} (e : IoError)
    (h : off + len ≤ image.bytes.length) (hlen : 0 < len) :
    readExactly (fileReader image) off len e = .ok (image.bytes.slice off len) := by
  have hsmall := image.small
  exact readExactly_eq_ok.mpr ⟨by omega, rfl, (List.length_slice_eq_iff hlen).mpr h⟩

/-- A read past the end of an image file. -/
theorem readExactly_short {image : Image} {off len : Nat} (e : IoError)
    (hoff : off < FILE_OFFSET_LIMIT) (hlen : 0 < len) (h : image.bytes.length < off + len) :
    readExactly (fileReader image) off len e = .error e := by
  have hslice : (image.bytes.slice off len).length ≠ len := by
    rw [Ne, List.length_slice_eq_iff hlen]
    omega
  rw [readExactly, fileReader_readAt image len hoff]
  simp [require, hslice, bind, Except.bind]

theorem slice_slice_of_le {b : Bytes} {off len k w : Nat} (h : k + w ≤ len) :
    (b.slice off len).slice k w = b.slice (off + k) w := by
  rw [List.slice_slice, Nat.min_eq_left (by omega)]

theorem beField_slice {b : Bytes} {off len k w : Nat} (h : k + w ≤ len) :
    beField (b.slice off len) k w = beField b (off + k) w := by
  rw [beField, slice_slice_of_le h, beField]

theorem leField_slice {b : Bytes} {off len k w : Nat} (h : k + w ≤ len) :
    leField (b.slice off len) k w = leField b (off + k) w := by
  rw [leField, slice_slice_of_le h, leField]

/-- A table that may be read lies in the image. -/
theorem checkedTableSize_eq_ok {image : Image} {off n width size : Nat}
    (h : checkedTableSize (fileReader image) off n width = .ok size) :
    size = n * width ∧ off + n * width ≤ image.bytes.length := by
  simp only [checkedTableSize, bind_eq_ok, require_eq_ok, checked_eq_ok, pure, Except.pure,
    Except.ok.injEq] at h
  obtain ⟨-, -, _, ⟨-, rfl⟩, -, hend, rfl⟩ := h
  exact ⟨rfl, hend _ rfl⟩

/-- An offset below `n` lies in one of the blocks that cover `n`. -/
theorem div_lt_div_ceil {off n block : Nat} (hblock : 0 < block) (h : off < n) :
    off / block < (n + block - 1) / block := by
  rw [← Nat.succ_le_iff, Nat.succ_eq_add_one, ← Nat.add_div_right _ hblock]
  exact Nat.div_le_div_right (by omega)

theorem length_tableOf (field : Bytes → Nat → Nat → Nat) (width : Nat) (data : Bytes) :
    (tableOf field width data).length = data.length / width := by
  rw [tableOf, List.length_map, List.length_range]

theorem getElem?_tableOf {field : Bytes → Nat → Nat → Nat} {width : Nat} {data : Bytes} {k : Nat}
    (h : k < data.length / width) :
    (tableOf field width data)[k]? = some (field data (k * width) width) := by
  rw [tableOf, List.getElem?_map, List.getElem?_range h, Option.map_some]

theorem getElem?_tableOf_eq_none {field : Bytes → Nat → Nat → Nat} {width : Nat} {data : Bytes}
    {k : Nat} (h : data.length / width ≤ k) : (tableOf field width data)[k]? = none :=
  List.getElem?_eq_none (by rwa [length_tableOf])

/-! ## Maps -/

section

variable {m : DiskMap} {D : Bytes}

theorem DiskMap.exposes {P : Bytes} (hP : Flat m.parent P) (hm : m.Coherent) (hD : m.Denotes P D)
    (hpresent : ∀ off < D.length, 0 < m.run off) : m.reader.Exposes D where
  size := congrArg some hD.length.symm
  readAt off len := by
    have hread : m.reader.readAt off len = _ := DiskMap.serves hP hm hD off len
    by_cases hoff : off < D.length
    · have := hpresent off hoff
      exact ⟨min len (m.run off), Nat.min_le_left _ _, by omega, hread⟩
    · refine ⟨len, Nat.le_refl _, id, ?_⟩
      rw [hread, List.slice_eq_nil _ (by omega), List.slice_eq_nil _ (by omega)]

/-- The bytes that were read of an extent are those it stands for. -/
theorem Extent.byte_of_read {image : Image} {e : Extent} {i n : Nat} {buf : Bytes}
    (hne : e ≠ .absent) (hsmall : ∀ physical, e = .stored physical → physical + i < 2 ^ 64)
    (h : e.read (fileReader image) i n = .ok buf) {k : Nat} (hk : k < n) :
    e.byte image.bytes (i + k) = buf[k]? := by
  have hslice : ∀ {l : Bytes} {p : Nat}, l.slice p n = buf → l[p + k]? = buf[k]? :=
    fun {l p} hl => by rw [← hl, List.getElem?_slice, if_pos hk]
  cases e with
  | hole =>
      rw [← Except.ok.inj h, List.getElem?_replicate, if_pos hk]
      rfl
  | absent => exact absurd rfl hne
  | stored physical =>
      rw [Extent.read, Nat.mod_eq_of_lt (hsmall physical rfl), fileReader_readAt_eq_ok] at h
      rw [Extent.byte, ← Nat.add_assoc]
      exact hslice h.2
  | raw physical =>
      rw [Extent.read] at h
      rw [Extent.byte, ← Nat.add_assoc]
      split at h
      · cases h
      split at h
      · cases h
      · next hbuf =>
          split at h
          · rw [fileReader_readAt_eq_ok] at hbuf
            exact hslice (hbuf.2.trans (Except.ok.inj h))
          · cases h
  | unpacked block =>
      rw [Extent.read] at h
      split at h
      · exact hslice (Except.ok.inj h)
      · cases h

/-- A map through which a disk can be read describes it. -/
theorem Reader.Exposes.denotes {image : Image} (hparent : m.parent = fileReader image)
    (hm : m.Coherent)
    (hpresent : ∀ off p, off < m.virtualSize → m.piece off = .ok p → p.extent ≠ .absent)
    (hsmall : ∀ off p physical, off < m.virtualSize → m.piece off = .ok p →
      p.extent = .stored physical → physical + (off - p.start) < 2 ^ 64)
    (h : m.reader.Exposes D) : m.Denotes image.bytes D where
  length := (Option.some.inj h.size).symm
  byte off hoff := by
    have hsize : m.virtualSize = D.length := Option.some.inj h.size
    obtain ⟨n, hn, hpos, hread⟩ := h.readAt off 1
    obtain rfl : n = 1 := by omega
    rw [show D.slice off 1 = [D[off]] by
      rw [List.slice, List.drop_eq_getElem_cons hoff, List.take_succ_cons, List.take_zero]] at hread
    simp only [DiskMap.reader, DiskMap.readAt, if_neg (show ¬ m.virtualSize ≤ off by omega)] at hread
    cases hp : m.piece off with
    | error e => simp [hp] at hread
    | ok p =>
        obtain ⟨hstart, hend⟩ := hm.within off p (by omega) hp
        simp only [hp] at hread
        rw [show min (min 1 (p.start + p.size - off)) (m.virtualSize - off) = 1 by omega, hparent]
          at hread
        refine ⟨p, rfl, ?_⟩
        rw [List.getElem?_eq_getElem hoff]
        exact Extent.byte_of_read (hpresent off p (by omega) hp)
          (fun physical he => hsmall off p physical (by omega) hp he) hread Nat.one_pos

/-- A map without absent entries exposes the disk that it describes, and no other. -/
theorem DiskMap.exposes_iff {image : Image} (hparent : m.parent = fileReader image)
    (hm : m.Coherent)
    (hpresent : ∀ off p, off < m.virtualSize → m.piece off = .ok p → p.extent ≠ .absent)
    (hsmall : ∀ off p physical, off < m.virtualSize → m.piece off = .ok p →
      p.extent = .stored physical → physical + (off - p.start) < 2 ^ 64) :
    m.reader.Exposes D ↔ m.Denotes image.bytes D := by
  refine ⟨fun h => h.denotes hparent hm hpresent hsmall, fun h => ?_⟩
  refine DiskMap.exposes (hparent ▸ flat_fileReader image) hm h (fun off hoff => ?_)
  obtain ⟨p, hp, -⟩ := h.byte off hoff
  have hlt : off < m.virtualSize := h.length ▸ hoff
  obtain ⟨-, hend⟩ := hm.within off p hlt hp
  have hne := hpresent off p hlt hp
  rw [DiskMap.run, hp]
  show 0 < p.rest off
  unfold Piece.rest
  split
  · next he => exact absurd he hne
  · omega

/-! ## Readers that may fail -/

/-- What is read is the disk `D`: a read below its end that returns, returns bytes of `D`, at least
one of them where some are asked for. -/
def Reader.Faithful (r : Reader) (D : Bytes) : Prop :=
  ∀ off < D.length, ∀ len buf, r.readAt off len = .ok buf →
    ∃ n ≤ len, (0 < len → 0 < n) ∧ buf = D.slice off n

/-- A map is faithful when every piece that it finds has the bytes of the disk. -/
theorem DiskMap.faithful {P : Bytes} (hP : Flat m.parent P) (hm : m.Coherent)
    (hlength : D.length = m.virtualSize)
    (hbyte : ∀ off < D.length, ∀ p, m.piece off = .ok p →
      p.extent ≠ .absent ∧ p.extent.byte P (off - p.start) = D[off]?) : m.reader.Faithful D := by
  intro off hoff len buf hread
  cases hp : m.piece off with
  | error e =>
      have herror : m.readAt off len = .error e := by
        rw [DiskMap.readAt, if_neg (by omega), hp]
      cases herror.symm.trans hread
  | ok p =>
      obtain ⟨hstart, hend⟩ := hm.within off p (by omega) hp
      have hbytes : ∀ k < p.start + p.size - off, off + k < D.length →
          p.extent.byte P (off - p.start + k) = D[off + k]? := by
        intro k hk hk'
        have hsame := hm.same off p (off + k) (by omega) hp (by omega) (by omega) (by omega)
        rw [← (hbyte (off + k) hk' p hsame).2, Nat.sub_add_comm hstart]
      have hslice := DiskMap.readAt_of_piece hP hlength hoff hp hend (hbyte off hoff p hp).1 hbytes len
      refine ⟨_, Nat.min_le_left _ _, fun hlen => ?_, Except.ok.inj (hread.symm.trans hslice)⟩
      omega

/-- What a faithful map unpacks is the disk. -/
theorem Reader.Faithful.byte_unpacked (h : m.reader.Faithful D) (hlength : D.length = m.virtualSize)
    {off : Nat} {p : Piece} {block : Bytes} (hoff : off < D.length) (hp : m.piece off = .ok p)
    (hend : off < p.start + p.size) (hblock : p.extent = .unpacked block)
    (hlen : off - p.start < block.length) : block[off - p.start]? = D[off]? := by
  have hread : m.reader.readAt off 1 = .ok (block.slice (off - p.start) 1) := by
    show m.readAt off 1 = _
    unfold DiskMap.readAt
    rw [if_neg (by omega)]
    simp only [hp, hblock, Extent.read]
    rw [show min (min 1 (p.start + p.size - off)) (m.virtualSize - off) = 1 by omega,
      if_pos (Nat.succ_le_of_lt hlen)]
  obtain ⟨n, hn, hpos, hslice⟩ := h off hoff 1 _ hread
  obtain rfl : n = 1 := by omega
  calc block[off - p.start]? = (block.slice (off - p.start) 1)[0]? := by
        rw [List.getElem?_slice, if_pos Nat.one_pos, Nat.add_zero]
    _ = (D.slice off 1)[0]? := by rw [hslice]
    _ = D[off]? := by rw [List.getElem?_slice, if_pos Nat.one_pos, Nat.add_zero]

end

end Mountin
