import Mountin.Basic.Splice
import Mountin.Disk.DmgPlist
import Mountin.Disk.Exposes
import Mountin.Disk.Transparent

set_option autoImplicit false

/-! # The chunk table of a DMG

What `DmgReader` makes of the blocks of a DMG: it finds the trailer, and its table is that of the
first block without the ignored chunks.

* `findKoly_sized` : the search finds the end of the file.
* `new_of_dmg` : the table of an accepted DMG.
* `blkx_complete_iff` : the table is that of all blocks when the first holds all of it.
-/

namespace Mountin.Dmg

/-! ## The end of the file -/

/-- Below a limit, the parent can be read exactly where a file of this size can. -/
def EndsAt (parent : Reader) (limit size : Nat) : Prop :=
  ∀ off < limit, probe parent off = .ok (decide (off < size))

section

variable {parent : Reader} {limit size : Nat}

/-- The binary search ends at or below the end of the file. -/
theorem searchEnd_spec (h : EndsAt parent limit size) (hlimit : 2 ^ 40 ≤ limit) (fuel : Nat) :
    ∀ low high : Nat, high - low ≤ 512 * 2 ^ fuel → high ≤ 2 ^ 40 → low ≤ size →
      ∃ low' ≤ size, searchEnd parent (fuel + 1) low high = .ok low' := by
  induction fuel with
  | zero =>
      intro low high hwidth _ hlow
      exact ⟨low, hlow, by rw [searchEnd, if_pos (by omega)]⟩
  | succ fuel ih =>
      intro low high hwidth hhigh hlow
      rw [searchEnd]
      split_ifs with hdone
      · exact ⟨low, hlow, rfl⟩
      · rw [pow_succ] at hwidth
        have hmid : low + (high - low) / 2 < limit := by omega
        simp only [h _ hmid, Except.ok_bind, decide_eq_true_eq]
        split_ifs with hbelow
        · exact ih _ _ (by omega) hhigh hbelow.le
        · exact ih _ _ (by omega) (by omega) hlow

/-- The scan stops at the end of the file. -/
theorem scanEnd_spec (h : EndsAt parent limit size) (hsize : size < limit) (fuel : Nat) :
    ∀ off ≤ size, size - off < fuel → scanEnd parent fuel off = .ok size := by
  induction fuel with
  | zero => exact fun off _ hfuel => absurd hfuel (Nat.not_lt_zero _)
  | succ fuel ih =>
      intro off hoff hfuel
      simp only [scanEnd, h _ (Nat.lt_of_le_of_lt hoff hsize), Except.ok_bind, decide_eq_true_eq]
      split_ifs with hlt
      · exact ih (off + 1) hlt (by omega)
      · exact congrArg Except.ok (by omega)

theorem findKoly_of_endsAt (h : EndsAt parent limit size) (hlimit : 2 ^ 40 ≤ limit)
    (hsize : size < limit) (hsmall : size < 2 ^ 64) :
    findKoly parent =
      if 512 ≤ size then .ok (size - 512) else .error (.invalidData "file too small for DMG") := by
  obtain ⟨low, hlow, hsearch⟩ :=
    searchEnd_spec h hlimit 63 0 (2 ^ 40) (by decide) (by decide) (Nat.zero_le _)
  have hscan := scanEnd_spec h hsize (2 ^ 64) low hlow (by omega)
  rw [findKoly, hsearch, Except.ok_bind, hscan, Except.ok_bind, require]
  split_ifs <;> rfl

/-- A parent of a size: a read returns a byte exactly below it. -/
def Sized (parent : Reader) (size : Nat) : Prop :=
  ∀ off < 2 ^ 64, ∃ buf, parent.readAt off 1 = .ok buf ∧ (0 < buf.length ↔ off < size)

theorem Sized.endsAt (h : Sized parent size) : EndsAt parent (2 ^ 64) size := by
  intro off hoff
  obtain ⟨buf, hread, hiff⟩ := h off hoff
  rw [probe, hread]
  exact congrArg Except.ok (decide_eq_decide.mpr hiff)

end

/-- **The trailer search finds the last 512 bytes** of every parent that has them, of whatever size,
and refuses every other. -/
theorem findKoly_sized (parent : Reader) (size : Nat) (hsize : size < 2 ^ 64)
    (h : Sized parent size) :
    (512 ≤ size → findKoly parent = .ok (size - 512)) ∧
      (size < 512 → findKoly parent = .error (.invalidData "file too small for DMG")) := by
  rw [findKoly_of_endsAt h.endsAt (by decide) hsize hsize]
  exact ⟨fun hle => if_pos hle, fun hlt => if_neg (Nat.not_le.mpr hlt)⟩

/-- A parent that holds so many zeros. -/
def zeros (size : Nat) : Reader := ⟨fun off _ => .ok (if off < size then [0] else []), none⟩

theorem sized_zeros (size : Nat) : Sized (zeros size) size := by
  intro off _
  refine ⟨_, rfl, ?_⟩
  split_ifs with hlt
  · exact iff_of_true Nat.one_pos hlt
  · exact iff_of_false (Nat.lt_irrefl 0) hlt

/-- A parent above the limit of the binary search. -/
theorem findKoly_terabyte : findKoly (zeros 1099511628289) = .ok 1099511627777 :=
  (findKoly_sized (zeros 1099511628289) 1099511628289 (by decide) (sized_zeros _)).1 (by decide)

section

variable {image : Image}

theorem probe_file {off : Nat} (h : off < FILE_OFFSET_LIMIT) :
    probe (fileReader image) off = .ok (decide (off < image.bytes.length)) := by
  rw [probe, fileReader_readAt image 1 h]
  simp only [Except.ok.injEq, decide_eq_decide, List.length_slice]
  omega

theorem findKoly_eq (h : 512 ≤ image.bytes.length) :
    findKoly (fileReader image) = .ok (image.bytes.length - 512) := by
  have hsmall := image.small
  rw [findKoly_of_endsAt (fun off hoff => probe_file hoff) (by decide) hsmall
    (hsmall.trans (by decide)), if_pos h]

end

/-! ## MISH blocks -/

/-- The chunk of a table entry. -/
def entryChunk (sectorStart dataForkOffset : Nat) (e : Bytes) : DmgChunk where
  chunkType := beField e 0 4
  sectorStart := sectorStart + beField e 8 8
  sectorCount := beField e 16 8
  compressedOffset := dataForkOffset + beField e 24 8
  compressedLength := beField e 32 8

/-- A MISH block: its bytes and the entries of its table, without the last. -/
structure Block where
  mish : Bytes
  entries : List Bytes

/-- An entry holds sectors; a comment does not. -/
def Holding (e : Bytes) : Prop := beField e 0 4 ≠ COMMENT ∧ beField e 16 8 ≠ 0

instance (e : Bytes) : Decidable (Holding e) := inferInstanceAs (Decidable (_ ∧ _))

/-- The chunks of a block. -/
def Block.chunks (dataForkOffset : Nat) (b : Block) : List DmgChunk :=
  (b.entries.filter (fun e => decide (Holding e))).map
    (entryChunk (beField b.mish 8 8) dataForkOffset)

/-- The block is laid out as the format says, and its sectors and data have `u64` positions. -/
structure Block.Valid (dataForkOffset : Nat) (b : Block) : Prop where
  bytes : ∃ header tail, b.mish = header ++ b.entries.flatten ++ tail ∧ header.length = 204 ∧
    (tail.length < 40 ∨ beField tail 0 4 = LAST_ENTRY)
  magic : beField b.mish 0 4 = MISH_MAGIC
  entry : ∀ e ∈ b.entries, e.length = 40 ∧ beField e 0 4 ≠ LAST_ENTRY
  range : ∀ c ∈ b.chunks dataForkOffset, (c.sectorStart + c.sectorCount) * 512 < 2 ^ 64 ∧
    c.compressedOffset < 2 ^ 64

/-- The chunks that the reader takes of a block: it leaves out the ignored ones. -/
def Block.taken (dataForkOffset : Nat) (b : Block) : List DmgChunk :=
  (b.chunks dataForkOffset).filter (fun c => decide (c.chunkType ≠ UDIG))

theorem beField_append {a b c : Bytes} {k w : Nat} (h : k + w ≤ b.length) :
    beField (a ++ b ++ c) (a.length + k) w = beField b k w := by
  rw [beField, List.append_assoc, List.slice_append_right _ rfl, List.slice_append_left _ h, beField]

/-- The chunks of some entries but the ignored ones. -/
def takenChunks (sectorStart dataForkOffset : Nat) (entries : List Bytes) : List DmgChunk :=
  ((entries.filter (fun e => decide (Holding e))).map
    (entryChunk sectorStart dataForkOffset)).filter (fun c => decide (c.chunkType ≠ UDIG))

theorem takenChunks_cons_skip {sectorStart dataForkOffset : Nat} {e : Bytes} {entries : List Bytes}
    (h : beField e 0 4 = COMMENT ∨ beField e 0 4 = UDIG ∨ beField e 16 8 = 0) :
    takenChunks sectorStart dataForkOffset (e :: entries)
      = takenChunks sectorStart dataForkOffset entries := by
  unfold takenChunks
  by_cases he : Holding e
  · have hignored : beField e 0 4 = UDIG := by
      rcases h with h | h | h
      · exact absurd h he.1
      · exact h
      · exact absurd h he.2
    rw [List.filter_cons_of_pos (by simpa using he), List.map_cons,
      List.filter_cons_of_neg (by simp [entryChunk, hignored])]
  · rw [List.filter_cons_of_neg (by simpa using he)]

theorem takenChunks_cons {sectorStart dataForkOffset : Nat} {e : Bytes} {entries : List Bytes}
    (h : Holding e) (hne : beField e 0 4 ≠ UDIG) :
    takenChunks sectorStart dataForkOffset (e :: entries)
      = entryChunk sectorStart dataForkOffset e
        :: takenChunks sectorStart dataForkOffset entries := by
  unfold takenChunks
  rw [List.filter_cons_of_pos (by simpa using h), List.map_cons,
    List.filter_cons_of_pos (by simp [entryChunk, hne])]

/-- The loop over the entries, from the position of the first of them. -/
theorem readEntries_spec (sectorStart dataForkOffset : Nat) (tail : Bytes)
    (htail : tail.length < 40 ∨ beField tail 0 4 = LAST_ENTRY) (entries : List Bytes) :
    ∀ (front : Bytes) (fuel : Nat), entries.length < fuel →
      (∀ e ∈ entries, e.length = 40 ∧ beField e 0 4 ≠ LAST_ENTRY) →
      (∀ e ∈ entries, Holding e →
        (sectorStart + beField e 8 8 + beField e 16 8) * 512 < 2 ^ 64 ∧
          dataForkOffset + beField e 24 8 < 2 ^ 64) →
      readEntries (front ++ entries.flatten ++ tail) sectorStart dataForkOffset fuel front.length
        = .ok (takenChunks sectorStart dataForkOffset entries) := by
  induction entries with
  | nil =>
      intro front fuel hfuel _ _
      obtain ⟨fuel, rfl⟩ := Nat.exists_eq_add_one.mpr hfuel
      rw [readEntries, List.flatten_nil, List.append_nil]
      by_cases hshort : (front ++ tail).length < front.length + 40
      · rw [if_pos hshort]
        rfl
      · have hlast : beField (front ++ tail) front.length 4 = LAST_ENTRY := by
          rw [← htail.resolve_left (by rw [List.length_append] at hshort; omega)]
          exact congrArg Bytes.be (List.slice_append_right tail rfl 0 4)
        rw [if_neg hshort]
        simp only [hlast]
        rfl
  | cons e entries ih =>
      intro front fuel hfuel hentries hrange
      obtain ⟨fuel, rfl⟩ := Nat.exists_eq_add_one.mpr (Nat.zero_lt_of_lt hfuel)
      obtain ⟨he40, hlast⟩ := hentries e List.mem_cons_self
      rw [List.length_cons] at hfuel
      have hnext := ih (front ++ e) fuel (by omega)
        (fun e' he' => hentries e' (List.mem_cons_of_mem _ he'))
        (fun e' he' => hrange e' (List.mem_cons_of_mem _ he'))
      rw [List.length_append, he40] at hnext
      have hbytes : front ++ (e :: entries).flatten ++ tail
          = front ++ e ++ (entries.flatten ++ tail) := by
        rw [List.flatten_cons, List.append_assoc, List.append_assoc, List.append_assoc]
      rw [List.append_assoc (front ++ e)] at hnext
      have hfield : ∀ k w, k + w ≤ 40 → beField (front ++ e ++ (entries.flatten ++ tail))
          (front.length + k) w = beField e k w := fun k w h => beField_append (he40 ▸ h)
      have htype := hfield 0 4 (by omega)
      rw [Nat.add_zero] at htype
      rw [hbytes, readEntries, if_neg (by simp only [List.length_append]; omega)]
      simp only [htype, hfield 16 8 (by omega)]
      by_cases hskip : beField e 0 4 = COMMENT ∨ beField e 0 4 = UDIG
      · rw [if_pos hskip, hnext,
          takenChunks_cons_skip (hskip.imp_right .inl)]
      · rw [not_or] at hskip
        rw [if_neg (not_or.mpr hskip), if_neg hlast]
        by_cases hzero : beField e 16 8 = 0
        · rw [if_pos hzero, hnext, takenChunks_cons_skip (.inr (.inr hzero))]
        · obtain ⟨hsectors, hoffset⟩ := hrange e List.mem_cons_self ⟨hskip.1, hzero⟩
          have hchunk : readChunkEntry (front ++ e ++ (entries.flatten ++ tail)) front.length
              sectorStart dataForkOffset = .ok (entryChunk sectorStart dataForkOffset e) := by
            simp only [readChunkEntry, hfield 8 8 (by omega), hfield 24 8 (by omega),
              hfield 16 8 (by omega), hfield 32 8 (by omega), htype, checked]
            rw [if_pos (by omega), Except.ok_bind, if_pos (by omega), Except.ok_bind,
              if_pos hoffset]
            rfl
          rw [if_neg hzero, hnext, takenChunks_cons ⟨hskip.1, hzero⟩ hskip.2, hchunk]
          rfl

/-- A valid block is parsed to its chunks but the ignored ones. -/
theorem parseMishBlock_of_valid {b : Block} {dataForkOffset : Nat} (h : b.Valid dataForkOffset) :
    parseMishBlock b.mish dataForkOffset = .ok (b.taken dataForkOffset) := by
  obtain ⟨header, tail, hmish, hheader, htail⟩ := h.bytes
  have hlen : b.mish.length = 204 + b.entries.length * 40 + tail.length := by
    rw [hmish, List.length_append, List.length_append, hheader,
      List.length_flatten_of_length (fun e he => (h.entry e he).1)]
  have h204 : 204 ≤ b.mish.length := by
    rw [hlen]
    omega
  have hentries := readEntries_spec (beField b.mish 8 8) dataForkOffset tail htail b.entries header
    b.mish.length (by omega) h.entry (fun e he hholding =>
      h.range (entryChunk (beField b.mish 8 8) dataForkOffset e) (List.mem_map_of_mem
        (List.mem_filter.mpr ⟨he, by simpa using hholding⟩)))
  rw [← hmish, hheader] at hentries
  rw [parseMishBlock, require, if_pos h204, Except.ok_bind, require, if_pos h.magic,
    Except.ok_bind, hentries]
  rfl

/-! ## Opening -/

/-- The end of a chunk, in bytes. -/
def DmgChunk.fin (c : DmgChunk) : Nat := (c.sectorStart + c.sectorCount) * 512

/-- The virtual size is the greatest end of a chunk. -/
theorem virtualSizeOf_spec {chunks : List DmgChunk} (h : ∀ c ∈ chunks, c.fin < 2 ^ 64) :
    ∃ size, virtualSizeOf chunks = .ok size ∧ (∀ c ∈ chunks, c.fin ≤ size) ∧
      (chunks ≠ [] → ∃ c ∈ chunks, c.fin = size) := by
  have hloop : ∀ (l : List DmgChunk) (s : Nat), (∀ c ∈ l, c.fin < 2 ^ 64) →
      ∃ size, l.foldlM (fun size chunk => do
          let fin ← checked ((chunk.sectorStart + chunk.sectorCount) * 512)
            (.invalidData "DMG virtual size overflow")
          return max size fin) s = .ok size ∧ s ≤ size ∧ (∀ c ∈ l, c.fin ≤ size) ∧
        (size = s ∨ ∃ c ∈ l, c.fin = size) := by
    intro l
    induction l with
    | nil => exact fun s _ => ⟨s, rfl, Nat.le_refl s, by simp, .inl rfl⟩
    | cons c l ih =>
        intro s hl
        obtain ⟨size, hsize, hle, hall, hreached⟩ := ih (max s c.fin)
          (fun c' hc' => hl c' (List.mem_cons_of_mem _ hc'))
        refine ⟨size, ?_, (Nat.le_max_left _ _).trans hle, ?_, ?_⟩
        · rw [List.foldlM_cons, checked, if_pos (show (c.sectorStart + c.sectorCount) * 512 < 2 ^ 64 from
            hl c List.mem_cons_self)]
          exact hsize
        · rintro c' hc'
          rcases List.mem_cons.mp hc' with rfl | hmem
          · exact (Nat.le_max_right _ _).trans hle
          · exact hall c' hmem
        · rcases hreached with heq | ⟨c', hc', heq⟩
          · rcases Nat.le_total c.fin s with hcs | hsc
            · exact .inl (heq.trans (Nat.max_eq_left hcs))
            · exact .inr ⟨c, List.mem_cons_self, (heq.trans (Nat.max_eq_right hsc)).symm⟩
          · exact .inr ⟨c', List.mem_cons_of_mem _ hc', heq⟩
  obtain ⟨size, hsize, -, hall, hreached⟩ := hloop chunks 0 h
  refine ⟨size, hsize, hall, fun hne => ?_⟩
  rcases hreached with rfl | hreached
  · obtain ⟨c, hc⟩ := List.exists_mem_of_ne_nil _ hne
    exact ⟨c, hc, Nat.le_zero.mp (hall c hc)⟩
  · exact hreached

section

variable (bytes : Bytes)

/-- The position of the trailer. -/
def trailerOffset : Nat := bytes.length - 512

def xmlOffset : Nat := beField bytes (trailerOffset bytes + 0xd8) 8

def xmlLength : Nat := beField bytes (trailerOffset bytes + 0xe0) 8

/-- A DMG with these blocks under the `blkx` key of its property list. -/
structure Layout (dataForkOffset : Nat) (blocks : List Block) : Prop where
  trailer : 512 ≤ bytes.length
  koly : bytes.slice (trailerOffset bytes) 4 = KOLY_MAGIC
  dataFork : beField bytes (trailerOffset bytes + 0x18) 8 = dataForkOffset
  xml : xmlOffset bytes + xmlLength bytes ≤ bytes.length
  plist : ∃ texts, BlkxPlist (bytes.slice (xmlOffset bytes) (xmlLength bytes)) texts ∧
    List.Forall₂ (fun text b => Base64 text b.mish) texts blocks
  valid : ∀ b ∈ blocks, b.Valid dataForkOffset

end

/-- The limit on the size of a property list. -/
def MAX_XML : Nat := 100 * 1024 * 1024

variable {image : Image} {dataForkOffset : Nat} {b : Block} {blocks : List Block}

/-- The table of an accepted DMG is that of its first block. -/
theorem new_eq_ok_iff (h : Layout image.bytes dataForkOffset (b :: blocks)) {r : DmgReader} :
    new (fileReader image) = .ok r ↔ xmlLength image.bytes ≤ MAX_XML ∧
      b.taken dataForkOffset ≠ [] ∧ r.parent = fileReader image ∧
      r.chunks = (b.taken dataForkOffset).insertionSort (fun a b => a.sectorStart ≤ b.sectorStart) ∧
      virtualSizeOf r.chunks = .ok r.virtualSize := by
  have htrailer := h.trailer
  obtain ⟨texts, hplist, hblocks⟩ := h.plist
  cases hblocks with
  | @cons text _ texts _ hbase64 hrest =>
    have hchunks : plistChunks dataForkOffset
        ((image.bytes.slice (xmlOffset image.bytes) (xmlLength image.bytes)).length + 1)
        (image.bytes.slice (xmlOffset image.bytes) (xmlLength image.bytes))
          = b.taken dataForkOffset := by
      rw [plistChunks_of_blkx hplist, blockChunks, decodeBase64_of_base64 hbase64]
      simp only [parseMishBlock_of_valid (h.valid b List.mem_cons_self)]
    have hxml : xmlLength image.bytes ≠ 0 := by
      intro hzero
      obtain ⟨front, rest, hsplit, -⟩ := hplist.split
      have hlen := congrArg List.length hsplit
      rw [hzero, List.length_slice, List.length_append, List.length_append, length_blkxKey] at hlen
      omega
    have hfield : ∀ k w, k + w ≤ 512 →
        beField (image.bytes.slice (trailerOffset image.bytes) 512) k w
          = beField image.bytes (trailerOffset image.bytes + k) w := fun k w h => beField_slice h
    have hkoly : (image.bytes.slice (trailerOffset image.bytes) 512).slice 0 4 = KOLY_MAGIC := by
      rw [slice_slice_of_le (by omega), Nat.add_zero, h.koly]
    have hprobe : decide (0 < image.bytes.length) = true := decide_eq_true (by omega)
    have hend : trailerOffset image.bytes + 512 ≤ image.bytes.length := by
      unfold trailerOffset
      omega
    have hread : ∀ e, readExactly (fileReader image) (trailerOffset image.bytes) 512 e
        = .ok (image.bytes.slice (trailerOffset image.bytes) 512) :=
      fun e => readExactly_slice e hend (by decide)
    rw [new, probe_file (by decide), Except.ok_bind, require, if_pos hprobe, Except.ok_bind,
      findKoly_eq htrailer, Except.ok_bind,
      show image.bytes.length - 512 = trailerOffset image.bytes from rfl, hread, Except.ok_bind]
    simp only [hfield _ _ (by omega : 0x18 + 8 ≤ 512), hfield _ _ (by omega : 0xd8 + 8 ≤ 512),
      hfield _ _ (by omega : 0xe0 + 8 ≤ 512), h.dataFork]
    rw [require, if_pos hkoly, Except.ok_bind,
      show beField image.bytes (trailerOffset image.bytes + 0xd8) 8 = xmlOffset image.bytes from rfl,
      show beField image.bytes (trailerOffset image.bytes + 0xe0) 8 = xmlLength image.bytes from rfl,
      readExactly_slice _ h.xml (Nat.pos_of_ne_zero hxml)]
    simp only [parsePlistBlkx, bind_eq_ok, require_eq_ok, pure, Except.pure,
      Except.ok.injEq]
    constructor
    · rintro ⟨-, ⟨-, hmax⟩, xml, rfl, chunks, ⟨-, hne, rfl⟩, size, hsize, rfl⟩
      rw [hchunks] at hne hsize
      exact ⟨hmax, hne, rfl, by simp only [hchunks], by simpa only [hchunks] using hsize⟩
    · rintro ⟨hmax, hne, hparent, heq, hsize⟩
      refine ⟨(), ⟨hxml, hmax⟩, _, rfl, _, ⟨(), by rwa [hchunks], rfl⟩, r.virtualSize, ?_, ?_⟩
      · rw [hchunks, ← heq]
        exact hsize
      · rw [hchunks, ← heq, ← hparent]

/-! ## The whole table -/

/-- The chunks of all blocks. -/
def allChunks (dataForkOffset : Nat) (blocks : List Block) : List DmgChunk :=
  blocks.flatMap (Block.chunks dataForkOffset)

/-- The chunks share no sector. -/
def Separate (chunks : List DmgChunk) : Prop :=
  chunks.Pairwise (fun a b => a.sectorStart + a.sectorCount ≤ b.sectorStart ∨
    b.sectorStart + b.sectorCount ≤ a.sectorStart)

variable (decoders : Decoders)

/-- The chunks hold the disk `D`: each byte is that of the chunk of its sector, or zero where
there is none. -/
structure HoldDisk (r : DmgReader) (bytes : Bytes) (chunks : List DmgChunk) (D : Bytes) : Prop where
  length : D.length = r.virtualSize
  byte : ∀ off < D.length,
    (∃ c ∈ chunks, c.Holds (off / 512) ∧ ∃ e, r.extent decoders c = .ok e ∧
      e.byte bytes (off - c.sectorStart * 512) = D[off]?) ∨
    ((∀ c ∈ chunks, ¬ c.Holds (off / 512)) ∧ D[off]? = some 0)

/-- The table of the reader is that of these chunks: they are all in it, in the order of their
sectors; the disk ends with the last of them; and what they hold can be read. -/
structure Complete (r : DmgReader) (bytes : Bytes) (chunks : List DmgChunk) : Prop where
  perm : r.chunks.Perm chunks
  sorted : r.chunks.Pairwise (fun a b => a.sectorStart ≤ b.sectorStart)
  covers : ∀ c ∈ chunks, c.fin ≤ r.virtualSize
  ends : ∃ c ∈ chunks, c.fin = r.virtualSize
  readable : Separate chunks → ∀ D, HoldDisk decoders r bytes chunks D →
    (r.map decoders).reader.Exposes D

theorem Separate.disjoint {r : DmgReader} {chunks : List DmgChunk} (h : Separate chunks)
    (hperm : r.chunks.Perm chunks)
    (hsorted : r.chunks.Pairwise (fun a b => a.sectorStart ≤ b.sectorStart))
    (hpos : ∀ c ∈ chunks, 0 < c.sectorCount) : r.Disjoint := by
  have hsep : Separate r.chunks :=
    (hperm.pairwise_iff (fun {a b} hab => hab.symm)).mpr h
  refine (hsorted.and hsep).imp_of_mem (fun {a b} _ hb hab => ?_)
  have := hpos b (hperm.mem_iff.mp hb)
  omega

variable {decoders}

/-- The source of a chunk is zeros, raw or unpacked. -/
theorem DmgReader.extent_ne {r : DmgReader} {c : DmgChunk} {e : Extent}
    (h : r.extent decoders c = .ok e) : e ≠ .absent ∧ ∀ physical, e ≠ .stored physical := by
  unfold DmgReader.extent at h
  split_ifs at h
  · cases h
    exact ⟨fun h => (by cases h), fun _ h => (by cases h)⟩
  · cases h
    exact ⟨fun h => (by cases h), fun _ h => (by cases h)⟩
  · cases hd : r.decompressChunk decoders c <;> rw [hd] at h <;> cases h
    exact ⟨fun h => (by cases h), fun _ h => (by cases h)⟩

/-- A disk whose chunks are in the table can be read. -/
theorem DmgReader.exposes {r : DmgReader} {chunks : List DmgChunk} {D : Bytes}
    (hparent : r.parent = fileReader image) (hdisjoint : r.Disjoint)
    (hperm : r.chunks.Perm chunks) (hD : HoldDisk decoders r image.bytes chunks D) :
    (r.map decoders).reader.Exposes D := by
  have hextent : ∀ off p, (r.map decoders).piece off = .ok p →
      p.extent ≠ .absent ∧ ∀ physical, p.extent ≠ .stored physical := by
    intro off p hp
    simp only [DmgReader.map, DmgReader.piece] at hp
    split at hp
    · cases hp
      exact ⟨fun h => (by cases h), fun _ h => (by cases h)⟩
    · next c _ =>
        cases he : r.extent decoders c <;> rw [he] at hp <;> cases hp
        exact DmgReader.extent_ne he
  refine (DiskMap.exposes_iff (show (r.map decoders).parent = fileReader image from hparent)
    (r.coherent decoders hdisjoint) (fun off p _ hp => (hextent off p hp).1)
    (fun off p physical _ hp he => absurd he ((hextent off p hp).2 physical))).mpr
    ⟨hD.length, fun off hoff => ?_⟩
  simp only [DmgReader.map, DmgReader.piece]
  rcases hD.byte off hoff with ⟨c, hc, hholds, e, he, hbyte⟩ | ⟨hnone, hzero⟩
  · rw [hdisjoint.findChunk_eq (hperm.mem_iff.mpr hc) hholds]
    exact ⟨_, by simp only [he]; rfl, hbyte⟩
  · have hfind : r.findChunk (off / 512) = none := by
      cases hc : r.findChunk (off / 512) with
      | none => rfl
      | some c =>
          obtain ⟨hmem, hholds⟩ := DmgReader.findChunk_holds hc
          exact absurd hholds (hnone c (hperm.mem_iff.mp hmem))
    rw [hfind]
    exact ⟨_, rfl, hzero.symm⟩

variable (decoders)

/-- **DMG blocks**: a DMG is accepted with the chunks of all its blocks exactly when its property
list is not too long, its first block has a chunk and none to ignore, and the other blocks have
no chunks. -/
theorem blkx_complete_iff (image : Image) (dataForkOffset : Nat) (first : Block)
    (others : List Block) (h : Layout image.bytes dataForkOffset (first :: others)) :
    (∃ r, new (fileReader image) = .ok r ∧
      Complete decoders r image.bytes (allChunks dataForkOffset (first :: others))) ↔
      xmlLength image.bytes ≤ MAX_XML ∧ first.chunks dataForkOffset ≠ [] ∧
        (∀ c ∈ first.chunks dataForkOffset, c.chunkType ≠ UDIG) ∧
        ∀ b ∈ others, b.chunks dataForkOffset = [] := by
  have hall : allChunks dataForkOffset (first :: others)
      = first.chunks dataForkOffset ++ allChunks dataForkOffset others := List.flatMap_cons
  constructor
  · rintro ⟨r, hr, hcomplete⟩
    obtain ⟨hmax, hne, -, hchunks, -⟩ := (new_eq_ok_iff h).mp hr
    have hlen := hcomplete.perm.length_eq
    rw [hchunks, List.length_insertionSort, hall, List.length_append] at hlen
    have hle : (first.taken dataForkOffset).length ≤ (first.chunks dataForkOffset).length :=
      List.length_filter_le ..
    have htaken : first.taken dataForkOffset = first.chunks dataForkOffset :=
      List.filter_sublist.eq_of_length (by
        change (first.taken dataForkOffset).length = _
        omega)
    have hothers : allChunks dataForkOffset others = [] :=
      List.eq_nil_of_length_eq_zero (by omega)
    refine ⟨hmax, htaken ▸ hne, fun c hc => ?_, fun b hb => ?_⟩
    · rw [← htaken] at hc
      simpa using (List.mem_filter.mp hc).2
    · exact List.flatMap_eq_nil_iff.mp hothers b hb
  · rintro ⟨hmax, hne, hignored, hothers⟩
    have htaken : first.taken dataForkOffset = first.chunks dataForkOffset :=
      List.filter_eq_self.mpr (fun c hc => by simpa using hignored c hc)
    have hunion : allChunks dataForkOffset (first :: others) = first.chunks dataForkOffset := by
      rw [hall, show allChunks dataForkOffset others = [] from List.flatMap_eq_nil_iff.mpr hothers,
        List.append_nil]
    have hvalid := h.valid first List.mem_cons_self
    have hperm := List.perm_insertionSort (fun a b : DmgChunk => a.sectorStart ≤ b.sectorStart)
      (first.chunks dataForkOffset)
    obtain ⟨size, hsize, hcovers, hends⟩ := virtualSizeOf_spec
      (fun c hc => (hvalid.range c (hperm.mem_iff.mp hc)).1)
    have hnil : (first.chunks dataForkOffset).insertionSort
        (fun a b : DmgChunk => a.sectorStart ≤ b.sectorStart) ≠ [] := fun hnil =>
      hne (List.eq_nil_of_length_eq_zero (by rw [← hperm.length_eq, hnil]; rfl))
    refine ⟨⟨fileReader image, (first.chunks dataForkOffset).insertionSort
      (fun a b => a.sectorStart ≤ b.sectorStart), size⟩, (new_eq_ok_iff h).mpr
        ⟨hmax, htaken ▸ hne, rfl, htaken ▸ rfl, hsize⟩, ?_⟩
    have hsorted := List.pairwise_insertionSort
      (fun a b : DmgChunk => a.sectorStart ≤ b.sectorStart) (first.chunks dataForkOffset)
    rw [hunion]
    refine ⟨hperm, hsorted, fun c hc => hcovers c (hperm.mem_iff.mpr hc), ?_, fun hsep D hD => ?_⟩
    · obtain ⟨c, hc, heq⟩ := hends hnil
      exact ⟨c, hperm.mem_iff.mp hc, heq⟩
    · refine DmgReader.exposes rfl (hsep.disjoint hperm hsorted (fun c hc => ?_)) hperm hD
      obtain ⟨e, he, rfl⟩ := List.mem_map.mp hc
      have hholding : Holding e := of_decide_eq_true (List.mem_filter.mp he).2
      exact Nat.pos_of_ne_zero hholding.2

/-! ## A DMG of one partition and of two -/

/-- The first 204 bytes of a block that starts at a sector. -/
def mishHeader (sector : UInt8) : Bytes :=
  [0x6d, 0x69, 0x73, 0x68, 0, 0, 0, 1, 0, 0, 0, 0, 0, 0, 0, sector] ++ List.replicate 188 0

/-- The entry of a raw sector, at 512 times a byte of the data fork. -/
def rawEntry (place : UInt8) : Bytes :=
  [0, 0, 0, 1, 0, 0, 0, 0] ++ List.replicate 15 0 ++ [1] ++ [0, 0, 0, 0, 0, 0, place * 2, 0]
    ++ [0, 0, 0, 0, 0, 0, 2, 0]

/-- A partition of one raw sector. -/
def rawBlock (sector : UInt8) : Block where
  mish := mishHeader sector ++ rawEntry sector
    ++ ([0xff, 0xff, 0xff, 0xff] ++ List.replicate 36 0)
  entries := [rawEntry sector]

/-- The array of the blocks. -/
def elements : List Block → Bytes
  | [] => ascii "</array>"
  | b :: blocks =>
      ascii "<dict>" ++ dataTag ++ encodeBase64 b.mish ++ dataEndTag ++ elements blocks

def xmlOf (blocks : List Block) : Bytes := ascii "<plist>" ++ blkxKey ++ elements blocks

/-- Two sectors of data, the property list and the trailer. -/
def dmgOf (blocks : List Block) : Bytes :=
  List.replicate 512 0x11 ++ List.replicate 512 0x22 ++ xmlOf blocks
    ++ (KOLY_MAGIC ++ List.replicate 212 0 ++ [0, 0, 0, 0, 0, 0, 4, 0]
      ++ [0, 0, 0, 0, 0, 0, UInt8.ofNat ((xmlOf blocks).length / 256),
        UInt8.ofNat ((xmlOf blocks).length % 256)] ++ List.replicate 280 0)

theorem valid_rawBlock {sector : UInt8} (h : sector = 0 ∨ sector = 1) :
    (rawBlock sector).Valid 0 := by
  refine ⟨⟨mishHeader sector, [0xff, 0xff, 0xff, 0xff] ++ List.replicate 36 0, ?_, ?_, ?_⟩, ?_, ?_, ?_⟩
  all_goals rcases h with rfl | rfl <;> decide +kernel

theorem base64_rawBlock {sector : UInt8} (h : sector = 0 ∨ sector = 1) :
    Base64 (encodeBase64 (rawBlock sector).mish) (rawBlock sector).mish := by
  unfold Base64
  rcases h with rfl | rfl <;> decide +kernel

def oneDmg : Image := ⟨dmgOf [rawBlock 0], by decide +kernel⟩

def twoDmg : Image := ⟨dmgOf [rawBlock 0, rawBlock 1], by decide +kernel⟩

theorem layout_oneDmg : Layout oneDmg.bytes 0 [rawBlock 0] where
  trailer := by decide +kernel
  koly := by decide +kernel
  dataFork := by decide +kernel
  xml := by decide +kernel
  plist := by
    refine ⟨_, ⟨ascii "<plist>", elements [rawBlock 0], by decide +kernel, ?_, ?_, ?_⟩,
      .cons (base64_rawBlock (.inl rfl)) .nil⟩
    · exact (findBytes_eq_some_iff blkxKey_ne).mp (by decide +kernel)
    · exact not_occurs_of_findBytes blkxKey_ne (by decide +kernel)
    · refine .cons ((findBytes_eq_some_iff dataTag_ne).mp (by decide +kernel))
        ((findBytes_eq_some_iff dataEndTag_ne).mp (by decide +kernel)) (.nil _)
  valid := by
    intro b hb
    obtain rfl := List.mem_singleton.mp hb
    exact valid_rawBlock (.inl rfl)

theorem layout_twoDmg : Layout twoDmg.bytes 0 [rawBlock 0, rawBlock 1] where
  trailer := by decide +kernel
  koly := by decide +kernel
  dataFork := by decide +kernel
  xml := by decide +kernel
  plist := by
    refine ⟨_, ⟨ascii "<plist>", elements [rawBlock 0, rawBlock 1], by decide +kernel, ?_, ?_, ?_⟩,
      .cons (base64_rawBlock (.inl rfl)) (.cons (base64_rawBlock (.inr rfl)) .nil)⟩
    · exact (findBytes_eq_some_iff blkxKey_ne).mp (by decide +kernel)
    · exact not_occurs_of_findBytes blkxKey_ne (by decide +kernel)
    · refine .cons ((findBytes_eq_some_iff dataTag_ne).mp (by decide +kernel))
        ((findBytes_eq_some_iff dataEndTag_ne).mp (by decide +kernel))
        (.cons ((findBytes_eq_some_iff dataTag_ne).mp (by decide +kernel))
          ((findBytes_eq_some_iff dataEndTag_ne).mp (by decide +kernel)) (.nil _))
  valid := by
    intro b hb
    rcases List.mem_pair.mp hb with rfl | rfl
    · exact valid_rawBlock (.inl rfl)
    · exact valid_rawBlock (.inr rfl)

/-- The second partition is not in the table. -/
theorem second_block_left_out :
    ¬ ∀ (decoders : Decoders) (image : Image) (dataForkOffset : Nat) (first : Block)
      (others : List Block), Layout image.bytes dataForkOffset (first :: others) →
      ∃ r, new (fileReader image) = .ok r ∧
        Complete decoders r image.bytes (allChunks dataForkOffset (first :: others)) := by
  intro h
  obtain ⟨r, hr, hcomplete⟩ := h noDecoders twoDmg 0 (rawBlock 0) [rawBlock 1] layout_twoDmg
  obtain ⟨-, -, -, hchunks, -⟩ := (new_eq_ok_iff layout_twoDmg).mp hr
  have hlen := hcomplete.perm.length_eq
  rw [hchunks, List.length_insertionSort] at hlen
  exact absurd hlen (by decide +kernel)

/-- A DMG of one partition is accepted with its chunk. -/
theorem one_block_complete : ∃ r, new (fileReader oneDmg) = .ok r ∧
    Complete noDecoders r oneDmg.bytes (allChunks 0 [rawBlock 0]) :=
  (blkx_complete_iff noDecoders oneDmg 0 (rawBlock 0) [] layout_oneDmg).mpr
    (by decide +kernel)

end Mountin.Dmg
