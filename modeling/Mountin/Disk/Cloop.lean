import Mountin.Disk.Arithmetic

set_option autoImplicit false

/-! # Reading cloop images

What `CloopReader::new` checks of the table of offsets is enough for every read: the block of
an offset below the virtual size has two entries, in order and inside the image, and
`read_at` with all its arithmetic checked does not fault (`CloopReader.readAt_eq`). What it
returns is the disk that the inflated blocks make up, and `reads_inflated` says when it fails.
-/

namespace Mountin.Cloop

open Ewf (checkedZlibBound checkedZlibBound_eq)

/-- What `CloopReader::new` has checked. -/
structure CloopReader.Accepted (r : CloopReader) (image : Image) : Prop where
  parent : r.parent = fileReader image
  positive : 0 < r.blockSize
  bounded : r.blockSize ≤ MAX_BLOCK_SIZE
  entries : ∃ n < 2 ^ 32, r.offsets.length = n + 1 ∧ r.virtualSize = n * r.blockSize
  sorted : ∀ i a b, r.offsets[i]? = some a → r.offsets[i + 1]? = some b → a ≤ b
  within : ∀ size ∈ r.offsets.getLast?, size ≤ image.bytes.length

theorem new_accepted {image : Image} {r : CloopReader} (h : new (fileReader image) = .ok r) :
    r.Accepted image := by
  simp only [new, checkedTableSize, bind_eq_ok, require_eq_ok, readExactly_eq_ok, checked_eq_ok, pure,
    Except.pure, Except.ok.injEq] at h
  obtain ⟨header, -, -, hsize, _, ⟨-, rfl⟩, tableBytes, ⟨-, -, _, -, -, -, rfl⟩, tableData,
    ⟨-, -, hlen⟩, -, ⟨-, hsorted, hlast⟩, rfl⟩ := h
  have hn : beField header 4 4 < 2 ^ 32 := by
    have := beField_lt header 4 4
    norm_num at this ⊢
    exact this
  refine ⟨rfl, Nat.pos_of_ne_zero hsize.1, hsize.2.1, ⟨_, hn, ?_, rfl⟩, ?_, ?_⟩
  · rw [tableOf, List.length_map, List.length_range, hlen, Nat.mul_div_cancel _ (by omega)]
  · intro i a b ha hb
    apply hsorted (a, b)
    apply List.mem_iff_getElem?.mpr
    exact ⟨i, List.getElem?_zip_eq_some.mpr ⟨ha, by rwa [List.getElem?_tail]⟩⟩
  · exact hlast _ rfl

variable {image : Image} {r : CloopReader}

/-- The entries grow along the table. -/
theorem CloopReader.Accepted.mono (h : r.Accepted image) {i a : Nat}
    (ha : r.offsets[i]? = some a) (d : Nat) {b : Nat} (hb : r.offsets[i + d]? = some b) :
    a ≤ b := by
  induction d generalizing b with
  | zero =>
      rw [Nat.add_zero, ha] at hb
      exact (Option.some.inj hb).le
  | succ d ih =>
      have hlt : i + (d + 1) < r.offsets.length := (List.getElem?_eq_some_iff.mp hb).1
      have hmid : r.offsets[i + d]? = some r.offsets[i + d] :=
        List.getElem?_eq_getElem (by omega)
      exact (ih hmid).trans (h.sorted (i + d) _ _ hmid hb)

/-- Every entry lies in the image. -/
theorem CloopReader.Accepted.entry_le (h : r.Accepted image) {i a : Nat}
    (ha : r.offsets[i]? = some a) : a ≤ image.bytes.length := by
  have hlt : i < r.offsets.length := (List.getElem?_eq_some_iff.mp ha).1
  have hlast : r.offsets.getLast? = some (r.offsets[r.offsets.length - 1]) := by
    rw [List.getLast?_eq_getElem?, List.getElem?_eq_getElem]
  have hentry : r.offsets[i + (r.offsets.length - 1 - i)]?
      = some r.offsets[r.offsets.length - 1] := by
    rw [show i + (r.offsets.length - 1 - i) = r.offsets.length - 1 by omega]
    exact List.getElem?_eq_getElem _
  exact (h.mono ha _ hentry).trans (h.within _ hlast)

/-- The lookup of a block of the disk: two entries, in order. -/
theorem CloopReader.Accepted.lookup (h : r.Accepted image) {off : Nat}
    (hoff : off < r.virtualSize) :
    ∃ start fin, r.offsets[off / r.blockSize]? = some start ∧
      r.offsets[off / r.blockSize + 1]? = some fin ∧ start ≤ fin ∧ fin ≤ image.bytes.length := by
  obtain ⟨n, -, hlen, hsize⟩ := h.entries
  have hblock : off / r.blockSize < n := by
    apply Nat.div_lt_of_lt_mul
    rw [Nat.mul_comm, ← hsize]
    exact hoff
  have hstart : r.offsets[off / r.blockSize]? = some r.offsets[off / r.blockSize] :=
    List.getElem?_eq_getElem (by omega)
  have hfin : r.offsets[off / r.blockSize + 1]? = some r.offsets[off / r.blockSize + 1] :=
    List.getElem?_eq_getElem (by omega)
  exact ⟨_, _, hstart, hfin, h.sorted _ _ _ hstart hfin, h.entry_le hfin⟩

section

variable (zlib : ReadExact) (r)

/-- `decompress_block`. -/
def CloopReader.checkedBlock (blockIdx : Nat) : Checked IoError Bytes := do
  let next ← Checked.add 64 blockIdx 1
  if r.offsets.length ≤ next then
    Checked.lift (.error (.invalidInput "block index out of range"))
  else do
    let start ← Checked.index r.offsets blockIdx
    let fin ← Checked.index r.offsets next
    let bound ← checkedZlibBound r.blockSize
    Checked.lift (require (start ≤ fin ∧ fin - start ≤ bound)
      (.invalidData "invalid cloop compressed block size"))
    let compressed ← Checked.lift (readExactly r.parent start (fin - start)
      (.unexpectedEof "short cloop block read"))
    Checked.lift (zlib compressed r.blockSize)

/-- `read_at`. -/
def CloopReader.readAt (off len : Nat) : Checked IoError Bytes :=
  readBlock r.blockSize r.virtualSize off len fun blockIdx inBlock toRead => do
    let decompressed ← r.checkedBlock zlib blockIdx
    Checked.slice decompressed inBlock toRead

/-- The compressed bytes of a block. -/
def CloopReader.compressed (bytes : Bytes) (i : Nat) : Bytes :=
  let start := (r.offsets[i]?).getD 0
  bytes.slice start ((r.offsets[i + 1]?).getD 0 - start)

end

variable {zlib : ReadExact}

/-- `decompress_block` on a block of the disk does not fault: it refuses a block above
`zlib_bound`, and otherwise inflates the bytes between its two entries. -/
theorem CloopReader.Accepted.checkedBlock_eq (h : r.Accepted image) {off : Nat}
    (hoff : off < r.virtualSize) :
    r.checkedBlock zlib (off / r.blockSize) =
      Checked.lift (if (r.compressed image.bytes (off / r.blockSize)).length ≤ zlibBound r.blockSize
        then zlib (r.compressed image.bytes (off / r.blockSize)) r.blockSize
        else .error (.invalidData "invalid cloop compressed block size")) := by
  obtain ⟨start, fin, hstart, hfin, horder, hin⟩ := h.lookup hoff
  obtain ⟨n, hn, hlen, -⟩ := h.entries
  have hnext : off / r.blockSize + 1 < r.offsets.length := (List.getElem?_eq_some_iff.mp hfin).1
  have hsmall := image.small
  have hcompressed : r.compressed image.bytes (off / r.blockSize)
      = image.bytes.slice start (fin - start) := by
    simp only [CloopReader.compressed, hstart, hfin, Option.getD_some]
  have hlength : (image.bytes.slice start (fin - start)).length = fin - start := by
    rw [List.length_slice]
    omega
  have hread : readExactly r.parent start (fin - start) (.unexpectedEof "short cloop block read")
      = .ok (image.bytes.slice start (fin - start)) := by
    rw [h.parent]
    exact readExactly_eq_ok.mpr ⟨by omega, rfl, hlength⟩
  rw [hcompressed, hlength, CloopReader.checkedBlock, Checked.add_eq (by omega), Except.ok_bind,
    if_neg (Nat.not_le.mpr hnext), Checked.index_eq hstart, Except.ok_bind, Checked.index_eq hfin,
    Except.ok_bind, checkedZlibBound_eq h.bounded, Except.ok_bind, hread]
  by_cases hbound : fin - start ≤ zlibBound r.blockSize
  · rw [require, if_pos ⟨horder, hbound⟩, if_pos hbound]
    rfl
  · rw [require, if_neg (fun hboth => hbound hboth.2), if_neg hbound]
    rfl

/-- `read_at` below the virtual size, when `read_exact` fills its buffer. -/
theorem CloopReader.Accepted.readAt_eq (h : r.Accepted image)
    (hzlib : ∀ s n d, zlib s n = .ok d → d.length = n) {off : Nat} (hoff : off < r.virtualSize)
    (len : Nat) :
    r.readAt zlib off len =
      Checked.lift (if (r.compressed image.bytes (off / r.blockSize)).length ≤ zlibBound r.blockSize
        then (zlib (r.compressed image.bytes (off / r.blockSize)) r.blockSize).map
          (fun block => block.slice (off % r.blockSize) (toRead r.blockSize r.virtualSize off len))
        else .error (.invalidData "invalid cloop compressed block size")) := by
  have hmod : off % r.blockSize ≤ r.blockSize := (Nat.mod_lt _ h.positive).le
  rw [CloopReader.readAt, readBlock, if_neg (Nat.not_le.mpr hoff), Checked.div_eq h.positive,
    Except.ok_bind, Checked.mod_eq h.positive, Except.ok_bind, Checked.sub_eq hmod,
    Except.ok_bind, Checked.sub_eq hoff.le, Except.ok_bind, h.checkedBlock_eq hoff]
  split_ifs with hbound
  · cases hblock : zlib (r.compressed image.bytes (off / r.blockSize)) r.blockSize with
    | error e => rfl
    | ok block =>
        have hfits : off % r.blockSize + toRead r.blockSize r.virtualSize off len
            ≤ block.length := by
          rw [hzlib _ _ _ hblock]
          exact toRead_le h.positive
        exact Checked.slice_eq hfits
  · rfl

/-- A list of blocks of one size: the bytes of a block are those of the whole. -/
theorem slice_flatten {blocks : List Bytes} {size : Nat} (hsize : ∀ b ∈ blocks, b.length = size)
    {i : Nat} {block : Bytes} (hblock : blocks[i]? = some block) {k n : Nat} (hk : k + n ≤ size) :
    blocks.flatten.slice (i * size + k) n = block.slice k n := by
  induction blocks generalizing i with
  | nil => cases hblock
  | cons b rest ih =>
      have hb : b.length = size := hsize b List.mem_cons_self
      rw [List.flatten_cons, List.slice, List.slice]
      cases i with
      | zero =>
          obtain rfl : b = block := by simpa using hblock
          rw [Nat.zero_mul, Nat.zero_add, List.drop_append_of_le_length (by omega),
            List.take_append_of_le_length (by rw [List.length_drop]; omega)]
      | succ i =>
          have hrest := ih (fun b' h' => hsize b' (List.mem_cons_of_mem _ h'))
            (show rest[i]? = some block by simpa using hblock)
          have hskip : (i + 1) * size + k = b.length + (i * size + k) := by
            rw [hb]
            ring
          rw [hskip, List.drop_length_add_append]
          exact hrest

/-- **cloop read-back**: below the virtual size, on every image file that the constructor
accepts, the lookup finds two entries in order and inside the image and no step of `read_at`
faults. What a read returns is a part of the disk made of the inflated blocks, at least one
byte into a buffer that has room for one; it fails exactly on a block that is larger than
`zlib_bound` or does not inflate. -/
theorem reads_inflated {zlib : ReadExact} (hzlib : ∀ s n d, zlib s n = .ok d → d.length = n)
    {image : Image} {r : CloopReader} (h : new (fileReader image) = .ok r) {off : Nat}
    (hoff : off < r.virtualSize) (len : Nat) :
    (∃ start fin, r.offsets[off / r.blockSize]? = some start ∧
      r.offsets[off / r.blockSize + 1]? = some fin ∧ start ≤ fin ∧ fin ≤ image.bytes.length) ∧
    r.readAt zlib off len ≠ .error .fault ∧
    (∀ buf, r.readAt zlib off len = .ok buf →
      (0 < len → 0 < buf.length) ∧
      ∀ blocks : List Bytes, blocks.length * r.blockSize = r.virtualSize →
        (∀ b ∈ blocks, b.length = r.blockSize) →
        (∀ i block, zlib (r.compressed image.bytes i) r.blockSize = .ok block →
          i < blocks.length → blocks[i]? = some block) →
        buf = blocks.flatten.slice off buf.length) ∧
    ((∃ e, r.readAt zlib off len = .error e) ↔
      zlibBound r.blockSize < (r.compressed image.bytes (off / r.blockSize)).length ∨
      ∃ e, zlib (r.compressed image.bytes (off / r.blockSize)) r.blockSize = .error e) := by
  have haccepted := new_accepted h
  have hpos := haccepted.positive
  have hread := haccepted.readAt_eq hzlib hoff len
  refine ⟨haccepted.lookup hoff, ?_, ?_, ?_⟩
  · rw [hread]
    split_ifs
    · cases zlib (r.compressed image.bytes (off / r.blockSize)) r.blockSize <;> rintro ⟨⟩
    · rintro ⟨⟩
  · intro buf hbuf
    rw [hread] at hbuf
    split_ifs at hbuf with hbound
    · cases hblock : zlib (r.compressed image.bytes (off / r.blockSize)) r.blockSize with
      | error e =>
          rw [hblock] at hbuf
          cases hbuf
      | ok block =>
          rw [hblock] at hbuf
          obtain rfl : block.slice (off % r.blockSize) (toRead r.blockSize r.virtualSize off len)
              = buf := Except.ok.inj hbuf
          have hsize := hzlib _ _ _ hblock
          have hin := @toRead_le r.blockSize r.virtualSize off len hpos
          have hlength : (block.slice (off % r.blockSize)
              (toRead r.blockSize r.virtualSize off len)).length
              = toRead r.blockSize r.virtualSize off len := by
            rw [List.length_slice]
            omega
          rw [hlength]
          refine ⟨fun hlen => ?_, fun blocks hcount hblocks hinflated => ?_⟩
          · have hmod := Nat.mod_lt off hpos
            unfold toRead
            omega
          · have hi : off / r.blockSize < blocks.length := by
              apply Nat.div_lt_of_lt_mul
              rw [Nat.mul_comm, hcount]
              exact hoff
            have hsplit : off / r.blockSize * r.blockSize + off % r.blockSize = off := by
              rw [Nat.mul_comm, Nat.div_add_mod]
            calc block.slice (off % r.blockSize) (toRead r.blockSize r.virtualSize off len)
                = blocks.flatten.slice (off / r.blockSize * r.blockSize + off % r.blockSize)
                    (toRead r.blockSize r.virtualSize off len) :=
                  (slice_flatten hblocks (hinflated _ _ hblock hi) hin).symm
              _ = blocks.flatten.slice off (toRead r.blockSize r.virtualSize off len) := by
                  rw [hsplit]
    · cases hbuf
  · rw [hread]
    by_cases hbound : (r.compressed image.bytes (off / r.blockSize)).length ≤ zlibBound r.blockSize
    · have hnot : ¬ zlibBound r.blockSize
          < (r.compressed image.bytes (off / r.blockSize)).length := Nat.not_lt.mpr hbound
      rw [if_pos hbound]
      simp only [hnot, false_or]
      cases zlib (r.compressed image.bytes (off / r.blockSize)) r.blockSize with
      | error e => exact iff_of_true ⟨_, rfl⟩ ⟨_, rfl⟩
      | ok block =>
          refine iff_of_false ?_ ?_
          · rintro ⟨e, he⟩
            cases he
          · rintro ⟨e, he⟩
            cases he
    · rw [if_neg hbound]
      exact iff_of_true ⟨_, rfl⟩ (.inl (Nat.lt_of_not_le hbound))

/-! ## One block with padding behind it -/

/-- `read_exact` on a zlib stream of one stored block. -/
def storedZlib (c : Bytes) (n : Nat) : Except IoError Bytes :=
  match c with
  | 0x78 :: 1 :: 1 :: l0 :: l1 :: _ :: _ :: data =>
      if n ≤ Bytes.le [l0, l1] ∧ Bytes.le [l0, l1] ≤ data.length then .ok (data.take n)
      else .error (.unexpectedEof "failed to fill whole buffer")
  | _ => .error (.unexpectedEof "failed to fill whole buffer")

theorem storedZlib_length (s : Bytes) (n : Nat) (d : Bytes) (h : storedZlib s n = .ok d) :
    d.length = n := by
  unfold storedZlib at h
  split at h
  · split_ifs at h with hlen
    cases h
    rw [List.length_take]
    omega
  · cases h

/-- One block of 512 zeros as a zlib stream with its checksum, `gap` bytes of padding behind
it. -/
def oneBlock (gap : UInt8) : Bytes :=
  [List.replicate 128 0, [0, 0, 2, 0, 0, 0, 0, 1], [0, 0, 0, 0, 0, 0, 0, 152],
    [0, 0, 0, 0, 0, 0, 2, 163 + gap], [0x78, 1, 1, 0, 2, 0xff, 0xfd], List.replicate 512 0,
    [2, 0, 0, 1], List.replicate gap.toNat 0].flatten

theorem length_oneBlock (gap : UInt8) : (oneBlock gap).length < FILE_OFFSET_LIMIT := by
  have hgap := gap.toNat_lt
  simp only [oneBlock, List.flatten_cons, List.flatten_nil, List.length_append,
    List.length_replicate, List.length_cons, List.length_nil, FILE_OFFSET_LIMIT]
  omega

def oneBlockImage (gap : UInt8) : Image := ⟨oneBlock gap, length_oneBlock gap⟩

/-- The reader of such an image, for the two paddings used below. -/
theorem new_oneBlock {gap : UInt8} (hgap : gap = 0 ∨ gap = 3) :
    ∃ r, new (fileReader (oneBlockImage gap)) = .ok r ∧ r.blockSize = 512 ∧
      r.virtualSize = 512 ∧ r.offsets = [152, 675 + gap.toNat] := by
  have hfields : ((new (fileReader (oneBlockImage gap))).toOption.map
      fun r => (r.blockSize, r.virtualSize, r.offsets)) = some (512, 512, [152, 675 + gap.toNat]) := by
    rcases hgap with rfl | rfl <;> decide +kernel
  cases hnew : new (fileReader (oneBlockImage gap)) with
  | error e =>
      rw [hnew] at hfields
      cases hfields
  | ok r =>
      rw [hnew] at hfields
      simp only [Except.toOption, Option.map_some, Option.some.injEq, Prod.mk.injEq] at hfields
      exact ⟨r, rfl, hfields⟩

/-- A block with three bytes of padding inflates, and its reads fail. -/
theorem padded_block_refused :
    ¬ ∀ (zlib : ReadExact), (∀ s n d, zlib s n = .ok d → d.length = n) →
      ∀ (image : Image) (r : CloopReader), new (fileReader image) = .ok r →
        ∀ off < r.virtualSize, ∀ len, (∃ e, r.readAt zlib off len = .error e) →
          ∃ e, zlib (r.compressed image.bytes (off / r.blockSize)) r.blockSize = .error e := by
  intro h
  obtain ⟨r, hnew, hblock, hsize, hoffsets⟩ :=
    new_oneBlock (show (3 : UInt8) = 0 ∨ (3 : UInt8) = 3 from .inr rfl)
  have hcompressed : r.compressed (oneBlock 3) 0 = (oneBlock 3).slice 152 526 := by
    simp only [CloopReader.compressed, hoffsets]
    rfl
  have hlong : (r.compressed (oneBlock 3) (0 / r.blockSize)).length > zlibBound r.blockSize := by
    rw [Nat.zero_div, hcompressed, hblock]
    decide +kernel
  have haccepted := new_accepted hnew
  have hread := haccepted.readAt_eq storedZlib_length (show 0 < r.virtualSize by omega) 512
  rw [show (oneBlockImage 3).bytes = oneBlock 3 from rfl, if_neg (Nat.not_le.mpr hlong)] at hread
  obtain ⟨e, he⟩ := h storedZlib storedZlib_length (oneBlockImage 3) r hnew 0 (by omega) 512
    ⟨_, hread⟩
  have hinflates : storedZlib ((oneBlock 3).slice 152 526) 512 = .ok (List.replicate 512 0) := by
    decide +kernel
  rw [Nat.zero_div, show (oneBlockImage 3).bytes = oneBlock 3 from rfl, hcompressed, hblock,
    hinflates] at he
  cases he

/-- Without padding the block is read. -/
theorem block_read :
    ∃ r, new (fileReader (oneBlockImage 0)) = .ok r ∧
      ¬ ∃ e, r.readAt storedZlib 500 100 = .error e := by
  obtain ⟨r, hnew, hblock, hsize, hoffsets⟩ :=
    new_oneBlock (show (0 : UInt8) = 0 ∨ (0 : UInt8) = 3 from .inl rfl)
  have hfails := (reads_inflated storedZlib_length hnew (show 500 < r.virtualSize by omega) 100).2.2.2
  have hcompressed : r.compressed (oneBlockImage 0).bytes (500 / r.blockSize)
      = (oneBlock 0).slice 152 523 := by
    rw [hblock]
    simp only [CloopReader.compressed, hoffsets]
    rfl
  have hinflates : storedZlib ((oneBlock 0).slice 152 523) 512 = .ok (List.replicate 512 0) := by
    decide +kernel
  refine ⟨r, hnew, fun herror => ?_⟩
  rw [hfails, hcompressed, hblock, hinflates] at herror
  rcases herror with hlong | ⟨e, he⟩
  · revert hlong
    decide +kernel
  · cases he

end Mountin.Cloop
