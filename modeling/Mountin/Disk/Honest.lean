import Mountin.Disk.Transparent
import Mountin.Partition.Ubi

set_option autoImplicit false

/-! # Honest sizes

A child reader says how long it is when it is made, and its bytes come from a parent. The two agree
when every offset below the size is that of a byte (`Source.Present`): a window ends where its
parent has bytes, the entries of a map point at bytes of the parent, and no part of it is missing.

* `Reader.Honest` : below its size a reader has bytes, from there on it has none.
* `Source` : the readers that containers make, one over the other.
* `honest_iff` : a reader is honest exactly when all its bytes are present.
-/

namespace Mountin

/-- Below its size a reader returns some bytes or an error, and from there on nothing. -/
structure Reader.Honest (r : Reader) : Prop where
  below : ∀ s, r.size = some s → ∀ off < s, ∀ len > 0, r.readAt off len ≠ .ok []
  beyond : ∀ s, r.size = some s → ∀ off ≥ s, ∀ len, r.readAt off len = .ok []

/-- A reader of an image, over the readers that it was made from. -/
inductive Source where
  | file (image : Image)
  | bytes (data : Bytes)
  | window (parent : Source) (offset length : Nat)
  | mapped (parent : Source) (m : DiskMap)

/-- The maps that the containers put over a parent. -/
inductive MapOver (parent : Reader) : DiskMap → Prop where
  | disk {format : DiskFormat} {d : DiskReader} (decoders : Decoders)
      (h : format.openDisk parent = .ok d) : MapOver parent (d.map decoders)
  | volume {vols : List (Nat × Ubi.UbiVolumeReader)} {vol : Nat × Ubi.UbiVolumeReader}
      (h : Ubi.volumes parent = .ok vols) (hmem : vol ∈ vols) : MapOver parent vol.2.map

namespace Source

def reader : Source → Reader
  | file image => fileReader image
  | bytes data => bytesReader data
  | window parent offset length => sliceReader parent.reader offset length
  | mapped _ m => m.reader

def size : Source → Nat
  | file image => image.bytes.length
  | bytes data => data.length
  | window _ _ length => length
  | mapped _ m => m.virtualSize

/-- Each map was put over its parent. -/
def Valid : Source → Prop
  | file _ | bytes _ => True
  | window parent _ _ => parent.Valid
  | mapped parent m => parent.Valid ∧ MapOver parent.reader m

/-- The reader of a child; an image file is none. -/
def IsChild : Source → Prop
  | file _ => False
  | bytes _ | window _ _ _ | mapped _ _ => True

/-- There is a byte at an offset, or the file refuses the offset. -/
def Present : Source → Nat → Prop
  | file image, off => off < image.bytes.length ∨ FILE_OFFSET_LIMIT ≤ off
  | bytes data, off => off < data.length
  | window parent offset length, off => off < length ∧ parent.Present ((offset + off) % 2 ^ 64)
  | mapped parent m, off => off < m.virtualSize ∧ ∀ p, m.piece off = .ok p →
      match p.extent with
      | .absent => False
      | .stored physical => parent.Present ((physical + (off - p.start)) % 2 ^ 64)
      | .hole | .raw _ | .unpacked _ => True

theorem size_reader (src : Source) : src.reader.size = some src.size := by
  cases src <;> rfl

end Source

/-! ## Maps -/

/-- An offset of the disk lies before the end of its piece. -/
def DiskMap.Inside (m : DiskMap) : Prop :=
  ∀ off p, off < m.virtualSize → m.piece off = .ok p → off < p.start + p.size

theorem inside_blockPiece {m : DiskMap} {blockSize : Nat} {extent : Nat → Except IoError Extent}
    (hpiece : m.piece = blockPiece blockSize extent)
    (hsize : 0 < m.virtualSize → 0 < blockSize) : m.Inside := by
  intro off p hoff hp
  rw [hpiece, blockPiece] at hp
  split at hp
  · cases hp
  · obtain rfl := Except.ok.inj hp
    have hmod := Nat.mod_lt off (hsize (Nat.zero_lt_of_lt hoff))
    have hdiv := Nat.div_add_mod' off blockSize
    dsimp only
    omega

theorem Dmg.DmgReader.inside (decoders : Decoders) (r : DmgReader) : (r.map decoders).Inside := by
  intro off p _ hp
  simp only [DmgReader.map, DmgReader.piece] at hp
  cases hc : r.findChunk (off / 512) with
  | none =>
      simp only [hc, Except.ok.injEq] at hp
      subst hp
      dsimp only
      omega
  | some c =>
      obtain ⟨-, hlo, hhi⟩ := DmgReader.findChunk_holds hc
      cases he : r.extent decoders c with
      | error e => simp [hc, he, Except.map] at hp
      | ok e =>
          simp only [hc, he, Except.map, Except.ok.injEq] at hp
          subst hp
          dsimp only
          omega

theorem DiskFormat.openDisk_inside {format : DiskFormat} {parent : Reader} {d : DiskReader}
    (h : format.openDisk parent = .ok d) (decoders : Decoders) :
    (d.map decoders).parent = parent ∧ (d.map decoders).Inside := by
  by_cases hd : d.Unambiguous
  · obtain ⟨hparent, hcoherent⟩ := DiskFormat.openDisk_spec h hd decoders
    exact ⟨hparent, fun off p hoff hp => (hcoherent.within off p hoff hp).2⟩
  -- a DMG image with chunks that overlap, or a QCOW image with too many index bits
  · cases format <;> obtain ⟨r, hr, rfl⟩ := map_eq_ok.mp h
    case dmg => exact ⟨Dmg.new_parent hr, r.inside decoders⟩
    case qcow => exact ⟨Qcow.new_parent hr, inside_blockPiece rfl fun _ => Nat.two_pow_pos _⟩
    all_goals exact absurd trivial hd

/-- A volume of blocks without bytes has no bytes. -/
theorem Ubi.new_inside (parent : Reader) (leb_map : LebMap) (leb_size : Nat) :
    (UbiVolumeReader.new parent leb_map leb_size).map.Inside := by
  have hpiece : (UbiVolumeReader.new parent leb_map leb_size).map.piece = blockPiece leb_size
      fun off => .ok ((UbiVolumeReader.new parent leb_map leb_size).extent (off / leb_size)) := rfl
  refine inside_blockPiece hpiece fun hpos => Nat.pos_of_ne_zero ?_
  rintro rfl
  simp only [UbiVolumeReader.map, UbiVolumeReader.new] at hpos
  split at hpos
  · exact absurd hpos (by decide)
  · rw [Nat.mul_zero] at hpos
    exact absurd hpos (by decide)

theorem Ubi.volumes_inside {parent : Reader} {vols : List (Nat × UbiVolumeReader)}
    (h : volumes parent = .ok vols) {vol : Nat × UbiVolumeReader} (hmem : vol ∈ vols) :
    vol.2.map.parent = parent ∧ vol.2.map.Inside := by
  obtain ⟨peb_size, -, h⟩ := bind_eq_ok.mp h
  obtain ⟨scan, -, h⟩ := bind_eq_ok.mp h
  obtain ⟨_, -, h⟩ := bind_eq_ok.mp h
  obtain rfl := Except.ok.inj h
  rw [List.mem_mergeSort] at hmem
  obtain ⟨e, -, rfl⟩ := List.mem_map.mp hmem
  exact ⟨rfl, new_inside _ _ _⟩

theorem MapOver.spec {parent : Reader} {m : DiskMap} (h : MapOver parent m) :
    m.parent = parent ∧ m.Inside := by
  cases h with
  | disk decoders h => exact DiskFormat.openDisk_inside h decoders
  | volume h hmem => exact Ubi.volumes_inside h hmem

/-! ## What is read -/

theorem slice_eq_nil_iff {b : Bytes} {off len : Nat} (hlen : 0 < len) :
    b.slice off len = [] ↔ b.length ≤ off := by
  rw [← List.length_eq_zero_iff, List.length_slice]
  omega

/-- A read of an extent comes back empty only where there is nothing. -/
theorem Extent.read_eq_nil_iff {parent : Reader} {inPiece toRead : Nat} (hpos : 0 < toRead)
    (e : Extent) : e.read parent inPiece toRead = .ok [] ↔
      match e with
      | .absent => True
      | .stored physical => parent.readAt ((physical + inPiece) % 2 ^ 64) toRead = .ok []
      | .hole | .raw _ | .unpacked _ => False := by
  cases e with
  | absent => simp [Extent.read]
  | stored physical => rfl
  | hole =>
      simp only [Extent.read, Except.ok.injEq, iff_false]
      intro hnil
      have hlength := congrArg List.length hnil
      rw [List.length_replicate, List.length_nil] at hlength
      omega
  | raw physical =>
      simp only [Extent.read, iff_false]
      split
      · simp
      · cases parent.readAt (physical + inPiece) toRead with
        | error e => simp
        | ok buf =>
            dsimp only
            split
            · rename_i hlength
              intro hnil
              rw [Except.ok.inj hnil, List.length_nil] at hlength
              omega
            · simp
  | unpacked block =>
      simp only [Extent.read, iff_false]
      split
      · rename_i hend
        intro hnil
        have hlength := congrArg List.length (Except.ok.inj hnil)
        rw [List.length_slice, List.length_nil] at hlength
        omega
      · simp

namespace Source

/-- A read comes back empty exactly where no byte is present. -/
theorem readAt_eq_nil_iff {src : Source} (hsrc : src.Valid) {off len : Nat} (hlen : 0 < len) :
    src.reader.readAt off len = .ok [] ↔ ¬ src.Present off := by
  induction src generalizing off len with
  | file image =>
      simp only [reader, Present, fileReader]
      split
      · rename_i hoff
        rw [Except.ok.injEq, slice_eq_nil_iff hlen]
        omega
      · rename_i hoff
        simp only [reduceCtorEq, false_iff, not_not]
        omega
  | bytes data =>
      rw [reader, bytesReader_readAt, Except.ok.injEq, slice_eq_nil_iff hlen, Present, Nat.not_lt]
  | window parent offset length ih =>
      simp only [reader, sliceReader, Present]
      split
      · rename_i hoff
        simp only [true_iff]
        omega
      · rename_i hoff
        rw [ih hsrc (by omega)]
        simp only [Nat.not_le.mp hoff, true_and]
  | mapped parent m ih =>
      obtain ⟨hparent, hover⟩ := hsrc
      obtain ⟨heq, hinside⟩ := hover.spec
      simp only [reader, DiskMap.reader, DiskMap.readAt, Present]
      split
      · rename_i hoff
        simp only [true_iff]
        omega
      · rename_i hoff
        simp only [Nat.not_le.mp hoff, true_and]
        cases hp : m.piece off with
        | error e => simp
        | ok p =>
            have hend := hinside off p (Nat.not_le.mp hoff) hp
            simp only [Except.ok.injEq, forall_eq']
            rw [Extent.read_eq_nil_iff (by omega), heq]
            cases p.extent with
            | stored physical => exact ih hparent (by omega)
            | absent | hole | raw | unpacked => simp

/-- From its size on a child has nothing. -/
theorem readAt_beyond {src : Source} (hchild : src.IsChild) {off : Nat} (hoff : src.size ≤ off)
    (len : Nat) : src.reader.readAt off len = .ok [] := by
  cases src with
  | file image => cases hchild
  | bytes data => exact if_pos hoff
  | window parent offset length => exact if_pos hoff
  | mapped parent m => exact if_pos hoff

/-- **A child reports an honest size exactly when every byte below it is present.** -/
theorem honest_iff {src : Source} (hsrc : src.Valid) (hchild : src.IsChild) :
    src.reader.Honest ↔ ∀ off < src.size, src.Present off := by
  constructor
  · intro h off hoff
    by_contra hnot
    exact h.below src.size src.size_reader off hoff 1 Nat.one_pos
      ((readAt_eq_nil_iff hsrc Nat.one_pos).mpr hnot)
  · intro h
    refine ⟨fun s hs off hoff len hlen hnil => ?_, fun s hs off hoff len => ?_⟩
    · obtain rfl := Option.some.inj (src.size_reader.symm.trans hs)
      exact (readAt_eq_nil_iff hsrc hlen).mp hnil (h off hoff)
    · obtain rfl := Option.some.inj (src.size_reader.symm.trans hs)
      exact readAt_beyond hchild hoff len

/-- The window of an image below the largest file offset is honest exactly when it lies in the
image. -/
theorem window_honest_iff {image : Image} {offset length : Nat}
    (h : offset + length ≤ FILE_OFFSET_LIMIT) :
    (window (file image) offset length).reader.Honest ↔
      length = 0 ∨ offset + length ≤ image.bytes.length := by
  simp only [FILE_OFFSET_LIMIT] at h
  rw [@honest_iff (window (file image) offset length) trivial trivial]
  simp only [size, Present, FILE_OFFSET_LIMIT]
  constructor
  · intro hall
    rcases Nat.eq_zero_or_pos length with hzero | hpos
    · exact .inl hzero
    · have hlast := hall (length - 1) (by omega)
      rw [Nat.mod_eq_of_lt (by omega)] at hlast
      omega
  · intro hfits off hoff
    rw [Nat.mod_eq_of_lt (by omega)]
    omega

/-- A window that begins below the largest file offset and goes on past the image is not honest. -/
theorem window_not_honest {image : Image} {offset length : Nat} (hoffset : offset < FILE_OFFSET_LIMIT)
    (hpast : image.bytes.length < offset + length) (hpos : 0 < length) :
    ¬ (window (file image) offset length).reader.Honest := by
  have hsmall := image.small
  simp only [FILE_OFFSET_LIMIT] at hoffset hsmall
  rw [@honest_iff (window (file image) offset length) trivial trivial]
  intro hall
  -- the first offset of the window at which the image has ended
  have hfirst := hall (image.bytes.length - offset) (by simp only [size]; omega)
  simp only [Present, FILE_OFFSET_LIMIT] at hfirst
  rw [Nat.mod_eq_of_lt (by omega)] at hfirst
  omega

end Source

end Mountin
