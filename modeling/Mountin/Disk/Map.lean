import Mountin.Basic.Runs
import Mountin.Detect.Reader

set_option autoImplicit false

/-! # Disk maps

The readers of `container/disk` that translate an offset through a map of clusters, blocks,
grains or chunks all read the same way: find the piece of the map that holds the offset, cut
the request at the end of the piece and of the disk, then fill with zeros, read the parent or
copy from an unpacked block (`DiskMap.readAt`). What a map is for is the disk it describes
(`DiskMap.Denotes`). `DiskMap.serves` connects the two: a read serves the disk in runs, each
the rest of the piece it starts in.
-/

namespace Mountin

/-- A reader that shows the bytes `P`, as files, bytes in memory and their windows do. -/
structure Flat (r : Reader) (P : Bytes) : Prop where
  readAt : ∀ off len, off < P.length → r.readAt off len = .ok (P.slice off len)
  size : r.size = some P.length
  small : P.length < 2 ^ 64

theorem flat_fileReader (image : Image) : Flat (fileReader image) image.bytes where
  readAt off len h := fileReader_readAt image len (h.trans image.small)
  size := rfl
  small := image.small.trans (by decide)

/-- Where the bytes of a piece come from. -/
inductive Extent where
  /-- Zeros. -/
  | hole
  /-- No entry in the map: the read stops. -/
  | absent
  /-- A place in the parent. -/
  | stored (physical : Nat)
  /-- A place in the parent, where a short read is an error. -/
  | raw (physical : Nat)
  /-- An unpacked block. -/
  | unpacked (block : Bytes)

/-- A contiguous part of the disk, with the source of its bytes. -/
structure Piece where
  start : Nat
  size : Nat
  extent : Extent

/-- A disk of `virtualSize` bytes described by a map over a parent. -/
structure DiskMap where
  parent : Reader
  virtualSize : Nat
  piece : Nat → Except IoError Piece

/-- The read of `toRead` bytes at `inPiece` of an extent. -/
def Extent.read (parent : Reader) (inPiece toRead : Nat) : Extent → Except IoError Bytes
  | .hole => .ok (List.replicate toRead 0)
  | .absent => .ok []
  | .stored physical => parent.readAt ((physical + inPiece) % 2 ^ 64) toRead
  | .raw physical =>
      if 2 ^ 64 ≤ physical + inPiece then .error (.invalidData "DMG raw chunk offset overflow")
      else
        match parent.readAt (physical + inPiece) toRead with
        | .error e => .error e
        | .ok buf =>
            if buf.length = toRead then .ok buf
            else .error (.unexpectedEof "short DMG raw chunk read")
  | .unpacked block =>
      if inPiece + toRead ≤ block.length then .ok (block.slice inPiece toRead) else .error .panic

/-- `read_at` of a disk reader. -/
def DiskMap.readAt (m : DiskMap) (off len : Nat) : Except IoError Bytes :=
  if m.virtualSize ≤ off then .ok []
  else
    match m.piece off with
    | .error e => .error e
    | .ok p =>
        let remainingInPiece := p.start + p.size - off
        let remainingInDisk := m.virtualSize - off
        p.extent.read m.parent (off - p.start) (min (min len remainingInPiece) remainingInDisk)

/-- A disk map as a reader. -/
def DiskMap.reader (m : DiskMap) : Reader where
  readAt := m.readAt
  size := some m.virtualSize

/-! ## The disk -/

/-- Byte `i` of an extent over the parent bytes `P`. A part of the disk without an entry in
the map holds zeros. -/
def Extent.byte (P : Bytes) (i : Nat) : Extent → Option UInt8
  | .hole | .absent => some 0
  | .stored physical | .raw physical => P[physical + i]?
  | .unpacked block => block[i]?

/-- The map describes the disk `D`: every byte of it is that of the piece that holds it. -/
structure DiskMap.Denotes (m : DiskMap) (P D : Bytes) : Prop where
  length : D.length = m.virtualSize
  byte : ∀ off < D.length, ∃ p, m.piece off = .ok p ∧ p.extent.byte P (off - p.start) = D[off]?

/-- The pieces of a map do not overlap: an offset of the disk lies in its piece, and every
offset of a piece has that piece. -/
structure DiskMap.Coherent (m : DiskMap) : Prop where
  within : ∀ off p, off < m.virtualSize → m.piece off = .ok p →
    p.start ≤ off ∧ off < p.start + p.size
  same : ∀ off p off', off < m.virtualSize → m.piece off = .ok p → p.start ≤ off' →
    off' < p.start + p.size → off' < m.virtualSize → m.piece off' = .ok p

/-- What a read at an offset of a piece can serve: the rest of the piece, and nothing where
the map has no entry. -/
def Piece.rest (p : Piece) (off : Nat) : Nat :=
  match p.extent with
  | .absent => 0
  | _ => p.start + p.size - off

/-- How much of the disk a read at an offset can serve. -/
def DiskMap.run (m : DiskMap) (off : Nat) : Nat :=
  match m.piece off with
  | .ok p => p.rest off
  | .error _ => 0

section

variable {m : DiskMap} {P D : Bytes}

/-- The bytes of the disk in the piece of an offset are those of its extent. -/
theorem DiskMap.Denotes.window (hD : m.Denotes P D) (hm : m.Coherent) {off : Nat} {p : Piece}
    (hp : m.piece off = .ok p) {k : Nat} (hk : k < p.start + p.size - off)
    (hk' : off + k < D.length) :
    p.extent.byte P (off - p.start + k) = D[off + k]? := by
  have hlength := hD.length
  have hoff : off < m.virtualSize := by omega
  obtain ⟨hstart, hend⟩ := hm.within off p hoff hp
  obtain ⟨q, hq, hbyte⟩ := hD.byte (off + k) hk'
  have hsame : m.piece (off + k) = .ok p :=
    hm.same off p (off + k) hoff hp (by omega) (by omega) (by omega)
  have hqp : q = p := by
    rw [hq] at hsame
    exact Except.ok.inj hsame
  rw [← hbyte, hqp]
  congr 1
  omega

/-- Reading an extent gives the bytes it stands for, when they are there. -/
theorem Extent.read_eq {parent : Reader} (hP : Flat parent P) {e : Extent} {inPiece toRead : Nat}
    {buf : Bytes} (hne : e ≠ .absent) (hlen : buf.length = toRead)
    (hfirst : ∃ b, e.byte P inPiece = some b)
    (hbytes : ∀ k < toRead, e.byte P (inPiece + k) = buf[k]?) :
    e.read parent inPiece toRead = .ok buf := by
  have hext : ∀ l : Bytes, l.length = toRead →
      (∀ k < toRead, l[k]? = e.byte P (inPiece + k)) → l = buf := by
    intro l hl hk
    apply List.ext_getElem?
    intro k
    by_cases hlt : k < toRead
    · rw [hk k hlt, hbytes k hlt]
    · rw [List.getElem?_eq_none (by omega), List.getElem?_eq_none (by omega)]
  -- the window of a stored extent lies within the parent
  have hstored : ∀ physical, (∀ i, e.byte P i = P[physical + i]?) →
      physical + inPiece < P.length ∧ P.slice (physical + inPiece) toRead = buf := by
    intro physical he
    obtain ⟨b, hb⟩ := hfirst
    rw [he] at hb
    have hlt : physical + inPiece < P.length := (List.getElem?_eq_some_iff.mp hb).1
    have hend : physical + inPiece + toRead ≤ P.length := by
      rcases Nat.eq_zero_or_pos toRead with hzero | hpos
      · omega
      · have hlast := hbytes (toRead - 1) (by omega)
        rw [he, List.getElem?_eq_getElem (by omega : toRead - 1 < buf.length)] at hlast
        have := (List.getElem?_eq_some_iff.mp hlast).1
        omega
    refine ⟨hlt, hext _ (by rw [List.length_slice]; omega) (fun k hk => ?_)⟩
    rw [List.getElem?_slice, if_pos hk, he, Nat.add_assoc]
  cases e with
  | absent => exact absurd rfl hne
  | hole =>
      refine congrArg Except.ok (hext _ List.length_replicate (fun k hk => ?_))
      rw [List.getElem?_replicate, if_pos hk]
      rfl
  | stored physical =>
      obtain ⟨hlt, hslice⟩ := hstored physical (fun _ => rfl)
      rw [Extent.read, Nat.mod_eq_of_lt (hlt.trans hP.small), hP.readAt _ _ hlt, hslice]
  | raw physical =>
      obtain ⟨hlt, hslice⟩ := hstored physical (fun _ => rfl)
      rw [Extent.read, if_neg (Nat.not_le.mpr (hlt.trans hP.small)), hP.readAt _ _ hlt, hslice]
      exact if_pos hlen
  | unpacked block =>
      have hend : inPiece + toRead ≤ block.length := by
        rcases Nat.eq_zero_or_pos toRead with hzero | hpos
        · obtain ⟨b, hb⟩ := hfirst
          have := (List.getElem?_eq_some_iff.mp hb).1
          omega
        · have hlast := hbytes (toRead - 1) (by omega)
          rw [List.getElem?_eq_getElem (by omega : toRead - 1 < buf.length)] at hlast
          have := (List.getElem?_eq_some_iff.mp hlast).1
          omega
      rw [Extent.read, if_pos hend]
      refine congrArg Except.ok (hext _ (by rw [List.length_slice]; omega) (fun k hk => ?_))
      rw [List.getElem?_slice, if_pos hk]
      rfl

/-- A read serves the rest of the piece it starts in, when the piece has the bytes of the disk. -/
theorem DiskMap.readAt_of_piece (hP : Flat m.parent P) (hlength : D.length = m.virtualSize)
    {off : Nat} {p : Piece} (hoff : off < D.length) (hp : m.piece off = .ok p)
    (hend : off < p.start + p.size) (hne : p.extent ≠ .absent)
    (hbytes : ∀ k < p.start + p.size - off, off + k < D.length →
      p.extent.byte P (off - p.start + k) = D[off + k]?) (len : Nat) :
    m.readAt off len = .ok (D.slice off (min len (p.start + p.size - off))) := by
  unfold DiskMap.readAt
  rw [if_neg (by omega)]
  simp only [hp]
  rw [← List.slice_min_length, hlength]
  apply Extent.read_eq hP hne
  · rw [List.length_slice]
    omega
  · have hfirst := hbytes 0 (by omega) (by omega)
    rw [Nat.add_zero, Nat.add_zero, List.getElem?_eq_getElem hoff] at hfirst
    exact ⟨_, hfirst⟩
  · intro k hk
    rw [List.getElem?_slice, if_pos hk]
    exact hbytes k (by omega) (by omega)

/-- **Disk maps serve their disk in runs**: a read returns the bytes of the disk up to the end
of the piece it starts in. -/
theorem DiskMap.serves (hP : Flat m.parent P) (hm : m.Coherent) (hD : m.Denotes P D) :
    Runs.Serves m.readAt D m.run := by
  intro off len
  unfold DiskMap.run
  have hlength := hD.length
  by_cases hoff : off < D.length
  · obtain ⟨p, hp, -⟩ := hD.byte off hoff
    obtain ⟨-, hend⟩ := hm.within off p (by omega) hp
    simp only [hp]
    by_cases habsent : p.extent = .absent
    · have hrest : p.rest off = 0 := by rw [Piece.rest, habsent]
      rw [hrest, Nat.min_zero, DiskMap.readAt, if_neg (by omega)]
      simp only [hp, habsent]
      rfl
    · have hrest : p.rest off = p.start + p.size - off := by
        unfold Piece.rest
        split
        · next h => exact absurd h habsent
        · rfl
      rw [hrest]
      exact DiskMap.readAt_of_piece hP hlength hoff hp hend habsent
        (fun k hk hk' => hD.window hm hp hk hk') len
  · rw [DiskMap.readAt, if_pos (by omega), List.slice_eq_nil _ (by omega)]

end

/-! ## Maps of equal blocks -/

/-- The map of the blocks of a fixed size: each offset lies in the block it is rounded down to. -/
def blockPiece (blockSize : Nat) (extent : Nat → Except IoError Extent) (off : Nat) :
    Except IoError Piece :=
  match extent off with
  | .error e => .error e
  | .ok e => .ok ⟨off / blockSize * blockSize, blockSize, e⟩

/-- A block map whose entries depend on the block only is coherent. -/
theorem coherent_blockPiece {m : DiskMap} {blockSize : Nat} {extent : Nat → Except IoError Extent}
    (hpiece : m.piece = blockPiece blockSize extent) (hsize : 0 < blockSize)
    (hextent : ∀ off off', off / blockSize = off' / blockSize → extent off = extent off') :
    m.Coherent := by
  have hsplit : ∀ off, off / blockSize * blockSize + off % blockSize = off := fun off => by
    rw [Nat.mul_comm]
    exact Nat.div_add_mod off blockSize
  constructor
  · intro off p _ hp
    rw [hpiece, blockPiece] at hp
    cases he : extent off with
    | error e => simp [he] at hp
    | ok e =>
        simp only [he, Except.ok.injEq] at hp
        subst hp
        have hmod := Nat.mod_lt off hsize
        have := hsplit off
        exact ⟨by simp only; omega, by simp only; omega⟩
  · intro off p off' _ hp hlo hhi _
    rw [hpiece, blockPiece] at hp ⊢
    cases he : extent off with
    | error e => simp [he] at hp
    | ok e =>
        simp only [he, Except.ok.injEq] at hp
        subst hp
        have hdiv : off' / blockSize = off / blockSize := by
          rw [Nat.div_eq_iff hsize]
          simp only at hlo hhi
          constructor <;> omega
        rw [hextent off' off hdiv, he, hdiv]

end Mountin
