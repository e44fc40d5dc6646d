import Mountin.Partition.Arithmetic

set_option autoImplicit false

/-! # Where erase blocks lie

Wear levelling puts the blocks of a volume anywhere, and leaves old copies of them behind. The scan
of `ubi.rs` keeps the last copy it meets (`holder`): the sequence numbers of the copies are not read.

* `exposed_eq` : the volumes of an image are those of its last copies.
* `placement` : the order of the blocks does not matter as long as the last copies stay the same.
-/

namespace Mountin.Ubi

open Tracks (readBe)

/-! ## Erase blocks -/

/-- Where the volume header of a block is, as its header says. -/
def vidStart (block : Bytes) : Nat := beField block 0x10 4

/-- The logical block that a block holds: its volume and its number there. -/
def holds (block : Bytes) : Option (Nat × Nat) :=
  if beField block 0 4 = EC_HDR_MAGIC ∧ beField block (vidStart block) 4 = VID_HDR_MAGIC then
    some (beField block (vidStart block + 0x08) 4, beField block (vidStart block + 0x0C) 4)
  else none

/-- The sequence number of a copy, which the scan does not read. -/
def sqnum (block : Bytes) : Nat := beField block (vidStart block + 0x28) 8

/-- An erase block: its volume header lies inside it, and its data begin where those of the others
do. A block without a header is empty or bad. -/
structure Peb (peb_size data_offset : Nat) (block : Bytes) : Prop where
  length : block.length = peb_size
  header : beField block 0 4 = EC_HDR_MAGIC →
    vidStart block + 0x40 ≤ peb_size ∧ beField block 0x14 4 = data_offset

/-- An image of erase blocks. -/
structure Pebs (image : Image) (peb_size data_offset : Nat) (blocks : List Bytes) : Prop where
  bytes : image.bytes = blocks.flatten
  valid : ∀ block ∈ blocks, Peb peb_size data_offset block

/-! ## The volumes -/

/-- The last copy of a logical block. -/
def holder (blocks : List Bytes) (vol lnum : Nat) : Option Bytes :=
  (blocks.filter fun block => decide (holds block = some (vol, lnum))).getLast?

/-- The numbers of the logical blocks of a volume. -/
def lnums (blocks : List Bytes) (vol : Nat) : List Nat :=
  (blocks.filterMap holds).filterMap fun key => if key.1 = vol then some key.2 else none

/-- The size of a volume, and what a read of it returns. -/
abbrev Shown := Nat × (Nat → Nat → Except IoError Bytes)

/-- A read of the volume that the last copies make up. -/
def readHolders (blocks : List Bytes) (data_offset leb_size size vol off len : Nat) :
    Except IoError Bytes :=
  if size ≤ off then .ok []
  else
    let toRead := min (min len (leb_size - off % leb_size)) (size - off)
    match holder blocks vol (off / leb_size) with
    | some block => .ok (block.slice (data_offset + off % leb_size) toRead)
    | none => .ok (List.replicate toRead 0)

/-- The volume that the last copies make up, if there are any. -/
def volumeOf (blocks : List Bytes) (data_offset leb_size vol : Nat) : Option Shown :=
  (lnums blocks vol).max?.map fun max_leb =>
    let size := (max_leb + 1) * leb_size
    (size, readHolders blocks data_offset leb_size size vol)

/-- The volumes of an image, as their readers show them. -/
def exposed (reader : Reader) (peb_size : Nat) : Except IoError (Nat → Option Shown) := do
  let scan ← scanPebs reader peb_size
  return fun vol => (scan.vol_maps.get? vol).map fun leb_map =>
    let r := UbiVolumeReader.new reader leb_map (Partition.wrapSub peb_size scan.data_offset)
    (r.virtual_size, r.map.readAt)

section

variable {blocks : List Bytes} {vol lnum : Nat}

theorem holder_append (block : Bytes) : holder (blocks ++ [block]) vol lnum =
    if holds block = some (vol, lnum) then some block else holder blocks vol lnum := by
  rw [holder, List.filter_append, List.filter_singleton]
  split_ifs with hholds
  · rw [decide_eq_true hholds, cond_true, List.getLast?_concat]
  · rw [decide_eq_false hholds, cond_false, List.append_nil]
    rfl

theorem mem_lnums : lnum ∈ lnums blocks vol ↔ ∃ block ∈ blocks, holds block = some (vol, lnum) := by
  simp only [lnums, List.mem_filterMap, Option.ite_none_right_eq_some, Option.some.injEq, Prod.exists]
  constructor
  · rintro ⟨_, _, ⟨block, hmem, hholds⟩, rfl, rfl⟩
    exact ⟨block, hmem, hholds⟩
  · rintro ⟨block, hmem, hholds⟩
    exact ⟨vol, lnum, ⟨block, hmem, hholds⟩, rfl, rfl⟩

theorem isSome_holder_iff : (holder blocks vol lnum).isSome ↔ lnum ∈ lnums blocks vol := by
  rw [mem_lnums, holder, List.getLast?_isSome, Ne, List.filter_eq_nil_iff]
  simp only [decide_eq_true_eq, not_forall, not_not, exists_prop]

end

/-- The highest of some numbers depends on which they are only. -/
theorem max?_congr {l l' : List Nat} (h : ∀ n, n ∈ l ↔ n ∈ l') : l.max? = l'.max? := by
  ext m
  rw [List.max?_eq_some_iff, List.max?_eq_some_iff]
  simp only [h]

/-- The volumes depend on the last copies only. -/
theorem volumeOf_congr {blocks blocks' : List Bytes}
    (h : ∀ vol lnum, holder blocks vol lnum = holder blocks' vol lnum) :
    volumeOf blocks = volumeOf blocks' := by
  funext data_offset leb_size vol
  have hmax : (lnums blocks vol).max? = (lnums blocks' vol).max? :=
    max?_congr fun lnum => by rw [← isSome_holder_iff, ← isSome_holder_iff, h]
  have hread : ∀ size, readHolders blocks data_offset leb_size size vol =
      readHolders blocks' data_offset leb_size size vol := by
    intro size
    funext off len
    rw [readHolders, readHolders, h]
  simp only [volumeOf, hmax, hread]

/-! ## The scan -/

/-- The place of a logical block, as far as the scan knows. -/
def Scan.place (scan : Scan) (vol lnum : Nat) : Option Nat :=
  (scan.vol_maps.get? vol).bind fun leb_map => (Dict.get? leb_map lnum).map Prod.fst

/-- The scan of some blocks knows the last copies among them. -/
structure Knows (peb_size data_offset : Nat) (blocks : List Bytes) (scan : Scan) : Prop where
  place : ∀ vol lnum, (scan.place vol lnum = none ∧ holder blocks vol lnum = none) ∨
    ∃ before block after, blocks = before ++ block :: after ∧
      scan.place vol lnum = some (before.length * peb_size + data_offset) ∧
      holder blocks vol lnum = some block
  nonempty : ∀ vol leb_map, scan.vol_maps.get? vol = some leb_map → leb_map ≠ []
  data : scan.vid_hdr_offset ≠ 0 ∨ scan.vol_maps ≠ [] → scan.data_offset = data_offset

theorem knows_nil {peb_size data_offset : Nat} : Knows peb_size data_offset [] {} where
  place _ _ := .inl ⟨rfl, rfl⟩
  nonempty _ _ h := by cases h
  data h := by rcases h with h | h <;> exact absurd rfl h

/-- What a volume header adds to the maps. -/
def addBlock (maps : Dict Nat LebMap) (vol lnum : Nat) (entry : Nat × Nat) : Dict Nat LebMap :=
  maps.set vol ((maps.getD vol []).set lnum entry)

section

variable {peb_size data_offset : Nat} {done : List Bytes} {block : Bytes} {scan scan' : Scan}

theorem place_addBlock {vol lnum : Nat} {entry : Nat × Nat}
    (h : scan'.vol_maps = addBlock scan.vol_maps vol lnum entry) (vol' lnum' : Nat) :
    scan'.place vol' lnum' =
      if (vol, lnum) = (vol', lnum') then some entry.1 else scan.place vol' lnum' := by
  rw [Scan.place, h, addBlock, Dict.get?_set]
  by_cases hvol : vol = vol'
  · subst hvol
    rw [if_pos rfl, Option.bind_some, Dict.get?_set]
    by_cases hlnum : lnum = lnum'
    · subst hlnum
      rw [if_pos rfl, if_pos rfl, Option.map_some]
    · have hne : (vol, lnum) ≠ (vol, lnum') := fun heq => hlnum (Prod.mk.inj heq).2
      rw [if_neg hlnum, if_neg hne, Scan.place, Dict.getD]
      cases scan.vol_maps.get? vol <;> rfl
  · have hne : (vol, lnum) ≠ (vol', lnum') := fun heq => hvol (Prod.mk.inj heq).1
    rw [if_neg hvol, if_neg hne, Scan.place]

/-- A place that stays is that of the same copy. -/
theorem Knows.place_append (h : Knows peb_size data_offset done scan) {vol lnum : Nat}
    (hplace : scan'.place vol lnum = scan.place vol lnum) (hne : holds block ≠ some (vol, lnum)) :
    (scan'.place vol lnum = none ∧ holder (done ++ [block]) vol lnum = none) ∨
      ∃ before block' after, done ++ [block] = before ++ block' :: after ∧
        scan'.place vol lnum = some (before.length * peb_size + data_offset) ∧
        holder (done ++ [block]) vol lnum = some block' := by
  rw [hplace, holder_append, if_neg hne]
  refine (h.place vol lnum).imp_right ?_
  rintro ⟨before, block', after, rfl, hbefore, hholder⟩
  exact ⟨before, block', after ++ [block], by simp, hbefore, hholder⟩

/-- A block that holds nothing teaches the scan nothing. -/
theorem Knows.skip (h : Knows peb_size data_offset done scan) (hmaps : scan'.vol_maps = scan.vol_maps)
    (hdata : scan'.vid_hdr_offset ≠ 0 ∨ scan'.vol_maps ≠ [] → scan'.data_offset = data_offset)
    (hnone : holds block = none) : Knows peb_size data_offset (done ++ [block]) scan' where
  place vol lnum := by
    have hplace : scan'.place vol lnum = scan.place vol lnum := by rw [Scan.place, hmaps, ← Scan.place]
    exact h.place_append hplace (by simp [hnone])
  nonempty := by
    rw [hmaps]
    exact h.nonempty
  data := hdata

/-- A block that holds a logical block is its last copy. -/
theorem Knows.add (h : Knows peb_size data_offset done scan) {vol lnum size : Nat}
    (hmaps : scan'.vol_maps =
      addBlock scan.vol_maps vol lnum (done.length * peb_size + data_offset, size))
    (hdata : scan'.data_offset = data_offset) (hholds : holds block = some (vol, lnum)) :
    Knows peb_size data_offset (done ++ [block]) scan' where
  place vol' lnum' := by
    have hplace := place_addBlock hmaps vol' lnum'
    by_cases hkey : (vol, lnum) = (vol', lnum')
    · rw [if_pos hkey] at hplace
      refine .inr ⟨done, block, [], rfl, hplace, ?_⟩
      rw [holder_append, hholds, hkey, if_pos rfl]
    · rw [if_neg hkey] at hplace
      exact h.place_append hplace fun hsame => hkey (Option.some.inj (hholds.symm.trans hsame))
  nonempty vol' leb_map hmap := by
    rw [hmaps, addBlock, Dict.get?_set] at hmap
    split_ifs at hmap
    · obtain rfl := Option.some.inj hmap
      exact List.ne_nil_of_mem (Dict.mem_of_get?_eq_some (Dict.get?_set_self _ lnum _))
    · exact h.nonempty vol' leb_map hmap
  data _ := hdata

end

/-! ## The steps of the scan -/

section

variable {image : Image} {before block tail : Bytes} {start : Nat}

/-- A field of a block of the image. -/
theorem readBe_block (hbytes : image.bytes = before ++ (block ++ tail)) (hstart : before.length = start)
    {off : Nat} (hend : off + 4 ≤ block.length) :
    readBe (fileReader image) 4 (start + off) = .ok (beField block off 4) := by
  have hlength : image.bytes.length = start + (block.length + tail.length) := by
    rw [hbytes, List.length_append, List.length_append, hstart]
  have hsmall : image.bytes.length < 2 ^ 63 := image.small
  refine (readBe_eq_ok (by omega)).mpr ⟨by omega, ?_⟩
  rw [beField, hbytes, List.slice_append_right _ hstart, List.slice_append_left _ hend, ← beField]

variable {peb_size data_offset : Nat} {done : List Bytes} {scan : Scan}

/-- What the scan learns from the volume header of a block. -/
theorem scanVolume_knows (h : Knows peb_size data_offset done scan) (hdata : scan.data_offset = data_offset)
    (hbytes : image.bytes = before ++ (block ++ tail)) (hstart : before.length = done.length * peb_size)
    (hpeb : Peb peb_size data_offset block) (hheader : beField block 0 4 = EC_HDR_MAGIC) :
    ∃ scan', scanVolume (fileReader image) (done.length * peb_size) (vidStart block) data_offset scan =
        .ok scan' ∧ Knows peb_size data_offset (done ++ [block]) scan' := by
  obtain ⟨hinside, -⟩ := hpeb.header hheader
  rw [← hpeb.length] at hinside
  have hfield : ∀ off, off + 4 ≤ 0x40 →
      readBe (fileReader image) 4 (done.length * peb_size + vidStart block + off) =
        .ok (beField block (vidStart block + off) 4) := by
    intro off hoff
    rw [Nat.add_assoc]
    exact readBe_block hbytes hstart (by omega)
  have hmagicRead := hfield 0 (by decide)
  rw [Nat.add_zero, Nat.add_zero] at hmagicRead
  rw [scanVolume, hmagicRead]
  by_cases hmagic : beField block (vidStart block) 4 = VID_HDR_MAGIC
  · have hholds : holds block =
        some (beField block (vidStart block + 0x08) 4, beField block (vidStart block + 0x0C) 4) :=
      if_pos ⟨hheader, hmagic⟩
    simp only [hmagic, ne_eq, not_true_eq_false, if_false, hfield _ (by decide : 0x08 + 4 ≤ 0x40),
      hfield _ (by decide : 0x0C + 4 ≤ 0x40), hfield _ (by decide : 0x14 + 4 ≤ 0x40),
      Except.ok_bind]
    exact ⟨_, rfl, h.add rfl hdata hholds⟩
  · have hnone : holds block = none := if_neg fun hboth => hmagic hboth.2
    simp only [ne_eq, hmagic, not_false_eq_true, if_true]
    exact ⟨scan, rfl, h.skip rfl h.data hnone⟩

/-- The scan goes through the blocks, to the last that is scanned. -/
theorem scanFrom_knows {rest : List Bytes} {left : Nat} (hpeb_size : 0x40 ≤ peb_size)
    (hvalid : ∀ block ∈ done ++ rest, Peb peb_size data_offset block)
    (hbytes : image.bytes = (done ++ rest).flatten ++ tail)
    (hleft : rest.length = left ∨ rest.length ≤ left ∧ tail = [])
    (h : Knows peb_size data_offset done scan) :
    ∃ scan', scanFrom (fileReader image) peb_size left done.length scan = .ok scan' ∧
      Knows peb_size data_offset (done ++ rest) scan' := by
  induction rest generalizing left done scan with
  | nil =>
      rw [List.append_nil] at hvalid hbytes ⊢
      refine ⟨scan, ?_, h⟩
      cases left with
      | zero => rfl
      | succ left =>
          -- the image ends here
          obtain rfl := (hleft.resolve_left (by simp)).2
          have hlength : image.bytes.length = done.length * peb_size := by
            rw [hbytes, List.append_nil, List.length_flatten_of_length fun b hb => (hvalid b hb).length]
          have hsmall : image.bytes.length < 2 ^ 63 := image.small
          rw [scanFrom, readBe_eq (by omega), if_neg (by omega)]
  | cons block rest ih =>
      have hpeb := hvalid block (List.mem_append_right _ List.mem_cons_self)
      have hlength := List.length_flatten_of_length fun b hb =>
        (hvalid b (List.mem_append_left _ hb)).length
      have hblock : image.bytes = done.flatten ++ (block ++ (rest.flatten ++ tail)) := by
        rw [hbytes, List.flatten_append, List.flatten_cons]
        simp only [List.append_assoc]
      have hnext : done ++ block :: rest = done ++ [block] ++ rest := by simp
      have hfield : ∀ off, off + 4 ≤ peb_size →
          readBe (fileReader image) 4 (done.length * peb_size + off) = .ok (beField block off 4) :=
        fun off hoff => readBe_block hblock hlength (by rw [hpeb.length]; exact hoff)
      have hfirst := hfield 0 (by omega)
      rw [Nat.add_zero] at hfirst
      rw [hnext] at hvalid hbytes
      obtain ⟨left, rfl⟩ : ∃ k, left = k + 1 :=
        Nat.exists_eq_add_one.mpr (by simp only [List.length_cons] at hleft; omega)
      simp only [List.length_cons, Nat.succ_le_succ_iff, Nat.add_right_cancel_iff] at hleft
      -- the steps of the scan: this block, then the rest
      have hrest : ∀ scan₁, Knows peb_size data_offset (done ++ [block]) scan₁ → ∃ scan',
          scanFrom (fileReader image) peb_size left (done.length + 1) scan₁ = .ok scan' ∧
            Knows peb_size data_offset (done ++ block :: rest) scan' := by
        intro scan₁ hscan₁
        have hrun := ih hvalid hbytes hleft hscan₁
        rw [List.length_append, List.length_singleton] at hrun
        rw [hnext]
        exact hrun
      rw [scanFrom, hfirst]
      by_cases hheader : beField block 0 4 = EC_HDR_MAGIC
      · simp only [hheader, ne_eq, not_true_eq_false, if_false, hfield 0x10 (by omega),
          hfield 0x14 (by omega), Except.ok_bind, (hpeb.header hheader).2]
        split_ifs with hvid
        · have hset : Knows peb_size data_offset done
              { scan with vid_hdr_offset := beField block 0x10 4, data_offset := data_offset } :=
            ⟨h.place, h.nonempty, fun _ => rfl⟩
          obtain ⟨scan₁, hvolume, hscan₁⟩ := scanVolume_knows hset rfl hblock hlength hpeb hheader
          rw [vidStart] at hvolume
          rw [hvolume]
          exact hrest scan₁ hscan₁
        · obtain ⟨scan₁, hvolume, hscan₁⟩ :=
            scanVolume_knows h (h.data (.inl hvid)) hblock hlength hpeb hheader
          rw [vidStart] at hvolume
          rw [hvolume]
          exact hrest scan₁ hscan₁
      · have hnone : holds block = none := if_neg fun hboth => hheader hboth.1
        simp only [ne_eq, hheader, not_false_eq_true, if_true]
        exact hrest scan (h.skip rfl h.data hnone)

end

/-! ## The readers -/

theorem lnums_lt {blocks : List Bytes} {vol lnum : Nat} (h : lnum ∈ lnums blocks vol) : lnum < 2 ^ 32 := by
  obtain ⟨block, -, hholds⟩ := mem_lnums.mp h
  obtain ⟨-, hkey⟩ := Option.ite_none_right_eq_some.mp hholds
  rw [← (Prod.mk.inj (Option.some.inj hkey)).2]
  exact beField_lt _ _ _

section

variable {image : Image} {peb_size data_offset : Nat} {blocks : List Bytes} {tail : Bytes} {scan : Scan}

/-- What a place in the image holds. -/
theorem readAt_place (hvalid : ∀ block ∈ blocks, Peb peb_size data_offset block)
    (hbytes : image.bytes = blocks.flatten ++ tail) {before after : List Bytes} {block : Bytes}
    (hsplit : blocks = before ++ block :: after) {inner len : Nat}
    (hend : data_offset + inner + len ≤ peb_size) :
    (fileReader image).readAt ((before.length * peb_size + data_offset + inner) % 2 ^ 64) len =
      .ok (block.slice (data_offset + inner) len) := by
  have hlength : before.flatten.length = before.length * peb_size :=
    List.length_flatten_of_length fun b hb =>
      (hvalid b (hsplit ▸ List.mem_append_left _ hb)).length
  have hblock : block.length = peb_size :=
    (hvalid block (hsplit ▸ List.mem_append_right _ List.mem_cons_self)).length
  have hparts : image.bytes = before.flatten ++ (block ++ (after.flatten ++ tail)) := by
    rw [hbytes, hsplit, List.flatten_append, List.flatten_cons]
    simp only [List.append_assoc]
  have hinside : before.length * peb_size + peb_size ≤ image.bytes.length := by
    rw [hparts, List.length_append, List.length_append, hlength, hblock]
    omega
  have hsmall : image.bytes.length < 2 ^ 63 := image.small
  have hroom : before.length * peb_size + data_offset + inner < FILE_OFFSET_LIMIT := by
    have hlimit : FILE_OFFSET_LIMIT = 2 ^ 63 := rfl
    omega
  have hwide : FILE_OFFSET_LIMIT < 2 ^ 64 := by decide
  rw [Nat.mod_eq_of_lt (hroom.trans hwide), fileReader_readAt _ _ hroom, hparts, Nat.add_assoc,
    List.slice_append_right _ hlength, List.slice_append_left _ (by omega)]

/-- A read of a volume returns what the last copies hold. -/
theorem readAt_eq (hvalid : ∀ block ∈ blocks, Peb peb_size data_offset block)
    (hbytes : image.bytes = blocks.flatten ++ tail) (hdata : data_offset ≤ peb_size)
    (hknows : Knows peb_size data_offset blocks scan) {vol max_leb : Nat} {leb_map : LebMap}
    (hmap : scan.vol_maps.get? vol = some leb_map) (hmax : max_leb < 2 ^ 32) (off len : Nat) :
    (UbiVolumeReader.map ⟨fileReader image, leb_map, peb_size - data_offset,
        (max_leb + 1) * (peb_size - data_offset)⟩).readAt off len =
      readHolders blocks data_offset (peb_size - data_offset)
        ((max_leb + 1) * (peb_size - data_offset)) vol off len := by
  generalize hleb : peb_size - data_offset = leb_size
  rw [DiskMap.readAt, readHolders, UbiVolumeReader.map]
  dsimp only
  split_ifs with hend
  · rfl
  · have hpos : 0 < leb_size := Nat.pos_of_ne_zero fun hzero => by
      rw [hzero, Nat.mul_zero] at hend
      exact hend (Nat.zero_le off)
    have hmod := Nat.mod_lt off hpos
    have hdivmod := Nat.div_add_mod' off leb_size
    have hnum : off / leb_size < 2 ^ 32 :=
      ((Nat.div_lt_iff_lt_mul hpos).mpr (Nat.lt_of_not_le hend)).trans_le hmax
    have hinner : off - off / leb_size * leb_size = off % leb_size := by omega
    have hrest : off / leb_size * leb_size + leb_size - off = leb_size - off % leb_size := by omega
    have hplace : scan.place vol (off / leb_size) =
        (Dict.get? leb_map (off / leb_size)).map Prod.fst := by
      rw [Scan.place, hmap, Option.bind_some]
    simp only [blockPiece, UbiVolumeReader.extent, Nat.mod_eq_of_lt hnum, hinner, hrest]
    rcases hknows.place vol (off / leb_size) with ⟨hnone, hholder⟩ | ⟨before, block, after, hsplit, hsome, hholder⟩
    · rw [hplace, Option.map_eq_none_iff] at hnone
      rw [hnone, hholder]
      rfl
    · rw [hplace] at hsome
      obtain ⟨⟨place, data_size⟩, hentry, rfl⟩ := Option.map_eq_some_iff.mp hsome
      rw [hentry, hholder]
      exact readAt_place hvalid hbytes hsplit (by omega)

/-- A volume is shown as its last copies make it up. -/
theorem shown_volume (hvalid : ∀ block ∈ blocks, Peb peb_size data_offset block)
    (hbytes : image.bytes = blocks.flatten ++ tail) (hdata : data_offset ≤ peb_size)
    (hsize : peb_size ≤ 2 ^ 20) (hknows : Knows peb_size data_offset blocks scan) (vol : Nat) :
    ((scan.vol_maps.get? vol).map fun leb_map =>
      ((UbiVolumeReader.new (fileReader image) leb_map (peb_size - data_offset)).virtual_size,
        (UbiVolumeReader.new (fileReader image) leb_map (peb_size - data_offset)).map.readAt)) =
      volumeOf blocks data_offset (peb_size - data_offset) vol := by
  -- a logical block has a place exactly when there is a copy of it
  have hlnums : ∀ lnum, lnum ∈ lnums blocks vol ↔ (scan.place vol lnum).isSome := by
    intro lnum
    rw [← isSome_holder_iff]
    rcases hknows.place vol lnum with ⟨hplace, hholder⟩ | ⟨_, _, _, _, hplace, hholder⟩
    · rw [hplace, hholder]
      exact iff_of_false Bool.false_ne_true Bool.false_ne_true
    · rw [hplace, hholder]
      exact iff_of_true rfl rfl
  cases hmap : scan.vol_maps.get? vol with
  | none =>
      have hempty : lnums blocks vol = [] := List.eq_nil_iff_forall_not_mem.mpr fun lnum hmem => by
        have := (hlnums lnum).mp hmem
        rw [Scan.place, hmap] at this
        exact Bool.false_ne_true this
      rw [volumeOf, hempty]
      rfl
  | some leb_map =>
      have hkeys : (Dict.keys leb_map).max? = (lnums blocks vol).max? := by
        refine max?_congr fun lnum => ?_
        rw [hlnums, Scan.place, hmap, Option.bind_some, Option.isSome_map, Dict.isSome_get?_iff]
      cases hmax : (lnums blocks vol).max? with
      | none =>
          have hnil : leb_map = [] := List.map_eq_nil_iff.mp (List.max?_eq_none_iff.mp (hkeys.trans hmax))
          exact absurd hnil (hknows.nonempty vol leb_map hmap)
      | some max_leb =>
          have hlt := lnums_lt (List.max?_mem hmax)
          have hwrap : wrap ((max_leb + 1) * (peb_size - data_offset)) =
              (max_leb + 1) * (peb_size - data_offset) := by
            refine Partition.wrap_of_lt ?_
            calc (max_leb + 1) * (peb_size - data_offset) ≤ 2 ^ 32 * 2 ^ 20 :=
                  Nat.mul_le_mul hlt (by omega)
              _ < 2 ^ 64 := by decide
          have hnew : UbiVolumeReader.new (fileReader image) leb_map (peb_size - data_offset) =
              ⟨fileReader image, leb_map, peb_size - data_offset,
                (max_leb + 1) * (peb_size - data_offset)⟩ := by
            rw [UbiVolumeReader.new, hkeys, hmax]
            dsimp only
            rw [hwrap]
          rw [Option.map_some, hnew, volumeOf, hmax, Option.map_some]
          refine congrArg some (Prod.ext rfl ?_)
          funext off len
          exact readAt_eq hvalid hbytes hdata hknows hmap hlt off len

end

/-- What an image shows, by the last copies in it. -/
def shown (blocks : List Bytes) (data_offset leb_size : Nat) : Except IoError (Nat → Option Shown) :=
  if blocks.filterMap holds = [] then .error (.invalidData "no UBI volumes found")
  else .ok (volumeOf blocks data_offset leb_size)

/-- Nothing is held exactly when there is no copy of any logical block. -/
theorem filterMap_holds_eq_nil {blocks : List Bytes} :
    blocks.filterMap holds = [] ↔ ∀ vol lnum, holder blocks vol lnum = none := by
  simp only [holder, List.getLast?_eq_none_iff, List.filter_eq_nil_iff, decide_eq_true_eq,
    List.filterMap_eq_nil_iff]
  constructor
  · intro h vol lnum block hmem hholds
    rw [h block hmem] at hholds
    cases hholds
  · intro h block hmem
    exact Option.eq_none_iff_forall_ne_some.mpr fun key => h key.1 key.2 block hmem

theorem shown_congr {blocks blocks' : List Bytes}
    (h : ∀ vol lnum, holder blocks vol lnum = holder blocks' vol lnum) :
    shown blocks = shown blocks' := by
  have hnil : blocks.filterMap holds = [] ↔ blocks'.filterMap holds = [] := by
    simp only [filterMap_holds_eq_nil, h]
  funext data_offset leb_size
  rw [shown, shown, volumeOf_congr h]
  simp only [hnil]

/-- There are maps exactly when something is held. -/
theorem Knows.maps_nil_iff {peb_size data_offset : Nat} {blocks : List Bytes} {scan : Scan}
    (h : Knows peb_size data_offset blocks scan) :
    scan.vol_maps = [] ↔ blocks.filterMap holds = [] := by
  rw [filterMap_holds_eq_nil]
  constructor
  · intro hmaps vol lnum
    rcases h.place vol lnum with ⟨-, hholder⟩ | ⟨_, _, _, _, hplace, _⟩
    · exact hholder
    · rw [Scan.place, hmaps] at hplace
      cases hplace
  · intro hnone
    by_contra hmaps
    obtain ⟨⟨vol, first⟩, hmem⟩ := List.exists_mem_of_ne_nil _ hmaps
    obtain ⟨leb_map, hmap⟩ := Dict.exists_get?_iff.mpr (List.mem_map_of_mem (f := Prod.fst) hmem)
    obtain ⟨⟨lnum, place⟩, hentry⟩ := List.exists_mem_of_ne_nil _ (h.nonempty vol leb_map hmap)
    have hsome : (Dict.get? leb_map lnum).isSome :=
      Dict.isSome_get?_iff.mpr (List.mem_map_of_mem (f := Prod.fst) hentry)
    have hplace : (scan.place vol lnum).isSome := by
      rw [Scan.place, hmap, Option.bind_some, Option.isSome_map]
      exact hsome
    rcases h.place vol lnum with ⟨hno, -⟩ | ⟨_, _, _, _, -, hholder⟩
    · rw [hno] at hplace
      exact Bool.false_ne_true hplace
    · rw [hnone vol lnum] at hholder
      cases hholder

/-- **The volumes of an image** are those of the last copies among the blocks that are scanned. -/
theorem exposed_eq {image : Image} {peb_size data_offset : Nat} {blocks : List Bytes}
    (hsize : peb_size ∈ PEB_SIZES) (hdata : data_offset ≤ peb_size)
    (h : Pebs image peb_size data_offset blocks) :
    exposed (fileReader image) peb_size =
      shown (blocks.take MAX_PEBS) data_offset (peb_size - data_offset) := by
  have hbounds : ∀ size ∈ PEB_SIZES, 0x40 ≤ size ∧ size ≤ 2 ^ 20 := by decide
  obtain ⟨hfour, hlarge⟩ := hbounds peb_size hsize
  have hvalid : ∀ block ∈ blocks.take MAX_PEBS, Peb peb_size data_offset block := fun block hmem =>
    h.valid block (List.mem_of_mem_take hmem)
  have hbytes : image.bytes = (blocks.take MAX_PEBS).flatten ++ (blocks.drop MAX_PEBS).flatten := by
    rw [h.bytes, ← List.flatten_append, List.take_append_drop]
  have hleft : (blocks.take MAX_PEBS).length = MAX_PEBS ∨
      (blocks.take MAX_PEBS).length ≤ MAX_PEBS ∧ (blocks.drop MAX_PEBS).flatten = [] := by
    rw [List.length_take]
    rcases Nat.le_total MAX_PEBS blocks.length with hlong | hshort
    · exact .inl (Nat.min_eq_left hlong)
    · rw [List.drop_eq_nil_of_le hshort]
      exact .inr ⟨Nat.min_le_left _ _, rfl⟩
  obtain ⟨scan, hscan, hknows⟩ :=
    @scanFrom_knows image _ peb_size data_offset [] {} _ _ hfour hvalid hbytes hleft knows_nil
  rw [List.nil_append] at hknows
  rw [List.length_nil] at hscan
  have hvolume := shown_volume hvalid hbytes hdata hlarge hknows
  rw [exposed, scanPebs, hscan, Except.ok_bind, shown]
  by_cases hmaps : scan.vol_maps = []
  · rw [if_pos (hknows.maps_nil_iff.mp hmaps), require, if_neg (fun hne => hne hmaps)]
    rfl
  · rw [if_neg (fun hnil => hmaps (hknows.maps_nil_iff.mpr hnil)), require, if_pos hmaps, Except.ok_bind]
    refine congrArg Except.ok (funext fun vol => ?_)
    rw [hknows.data (.inr hmaps), wrapSub_of_le hdata (hlarge.trans_lt (by decide))]
    exact hvolume vol

/-! ## The order of the blocks -/

/-- When no two blocks hold the same logical block, the last copy is the only one. -/
theorem holder_eq_some_iff {blocks : List Bytes} (h : (blocks.filterMap holds).Nodup) {vol lnum : Nat}
    {block : Bytes} :
    holder blocks vol lnum = some block ↔ block ∈ blocks ∧ holds block = some (vol, lnum) := by
  have hmem : ∀ b, holder blocks vol lnum = some b → b ∈ blocks ∧ holds b = some (vol, lnum) := by
    intro b hb
    have := List.mem_filter.mp (List.mem_of_getLast? hb)
    exact ⟨this.1, of_decide_eq_true this.2⟩
  refine ⟨hmem block, fun ⟨hblock, hholds⟩ => ?_⟩
  have hsome : (holder blocks vol lnum).isSome :=
    isSome_holder_iff.mpr (mem_lnums.mpr ⟨block, hblock, hholds⟩)
  obtain ⟨last, hlast⟩ := Option.isSome_iff_exists.mp hsome
  obtain ⟨hlastmem, hlastholds⟩ := hmem last hlast
  have hpair : blocks.Pairwise fun a b => ∀ k, holds a = some k → ∀ k', holds b = some k' → k ≠ k' :=
    List.pairwise_filterMap.mp h
  have hsymm : Std.Symm fun a b : Bytes =>
      ∀ k, holds a = some k → ∀ k', holds b = some k' → k ≠ k' :=
    ⟨fun _ _ hab k hk k' hk' heq => hab k' hk' k hk heq.symm⟩
  rw [hlast]
  refine congrArg some (by_contra fun hne => ?_)
  exact hpair.forall hlastmem hblock hne (vol, lnum) hlastholds (vol, lnum) hholds rfl

theorem holder_perm {blocks blocks' : List Bytes} (hperm : blocks.Perm blocks')
    (h : (blocks.filterMap holds).Nodup) (vol lnum : Nat) :
    holder blocks vol lnum = holder blocks' vol lnum := by
  have h' : (blocks'.filterMap holds).Nodup := (hperm.filterMap holds).nodup_iff.mp h
  ext block
  rw [holder_eq_some_iff h, holder_eq_some_iff h', hperm.mem_iff]

/-- **Placement**: the volumes of an image are put together from the last copy of each logical block,
whatever the sequence numbers. So two images with the same last copies show the same, and with no two
copies of one logical block the order of the blocks does not matter. -/
theorem placement (peb_size data_offset : Nat) (hsize : peb_size ∈ PEB_SIZES)
    (hdata : data_offset ≤ peb_size) (image image' : Image) (blocks blocks' : List Bytes)
    (h : Pebs image peb_size data_offset blocks) (h' : Pebs image' peb_size data_offset blocks') :
    exposed (fileReader image) peb_size =
        shown (blocks.take MAX_PEBS) data_offset (peb_size - data_offset) ∧
      ((∀ vol lnum, holder (blocks.take MAX_PEBS) vol lnum = holder (blocks'.take MAX_PEBS) vol lnum) →
        exposed (fileReader image) peb_size = exposed (fileReader image') peb_size) ∧
      (blocks.Perm blocks' → blocks.length ≤ MAX_PEBS → (blocks.filterMap holds).Nodup →
        exposed (fileReader image) peb_size = exposed (fileReader image') peb_size) := by
  have hsame : (∀ vol lnum, holder (blocks.take MAX_PEBS) vol lnum =
      holder (blocks'.take MAX_PEBS) vol lnum) →
      exposed (fileReader image) peb_size = exposed (fileReader image') peb_size := by
    intro hholder
    rw [exposed_eq hsize hdata h, exposed_eq hsize hdata h', shown_congr hholder]
  refine ⟨exposed_eq hsize hdata h, hsame, fun hperm hcount hnodup => hsame fun vol lnum => ?_⟩
  rw [List.take_of_length_le hcount, List.take_of_length_le (hperm.length_eq ▸ hcount)]
  exact holder_perm hperm hnodup vol lnum

/-- The headers and the first byte of a copy of block 0 of volume 0. -/
def copyHead (number first : UInt8) : Bytes :=
  [0x55, 0x42, 0x49, 0x23] ++ List.replicate 12 0 ++ [0, 0, 0, 64] ++ [0, 0, 0, 128] ++
    List.replicate 40 0 ++ [0x55, 0x42, 0x49, 0x21] ++ List.replicate 43 0 ++ [number] ++
    List.replicate 16 0 ++ [first]

/-- A copy in a block of 64 KiB. -/
def copyBlock (number first : UInt8) : Bytes :=
  copyHead number first ++ List.replicate (64 * 1024 - 129) 0

theorem length_copyBlock (number first : UInt8) : (copyBlock number first).length = 64 * 1024 := by
  have hhead : (copyHead number first).length = 129 := rfl
  rw [copyBlock, List.length_append, List.length_replicate, hhead]

theorem beField_copyBlock (number first : UInt8) {off width : Nat} (h : off + width ≤ 129) :
    beField (copyBlock number first) off width = beField (copyHead number first) off width := by
  rw [beField, copyBlock, List.slice_append_left _ h, beField]

theorem vidStart_copyBlock (number first : UInt8) : vidStart (copyBlock number first) = 64 :=
  beField_copyBlock number first (by decide)

theorem peb_copyBlock (number first : UInt8) : Peb (64 * 1024) 128 (copyBlock number first) where
  length := length_copyBlock number first
  header _ := by
    rw [vidStart_copyBlock, beField_copyBlock number first (by decide)]
    exact ⟨by decide, rfl⟩

theorem holds_copyBlock (number first : UInt8) : holds (copyBlock number first) = some (0, 0) := by
  have hfield : ∀ off, off + 4 ≤ 129 →
      beField (copyBlock number first) off 4 = beField (copyHead number first) off 4 :=
    fun off hoff => beField_copyBlock number first hoff
  rw [holds, vidStart_copyBlock, hfield 0 (by decide), hfield 64 (by decide), hfield _ (by decide),
    hfield _ (by decide), if_pos ⟨rfl, rfl⟩]
  rfl

theorem sqnum_copyBlock (number first : UInt8) : sqnum (copyBlock number first) = number.toNat := by
  rw [sqnum, vidStart_copyBlock, beField_copyBlock number first (by decide)]
  show number.toNat + 256 * 0 = number.toNat
  rfl

/-- Two copies of one logical block. -/
def twoCopies (number first number' first' : UInt8) : Image :=
  ⟨[copyBlock number first, copyBlock number' first'].flatten, by
    simp only [List.flatten_cons, List.flatten_nil, List.length_append, length_copyBlock,
      List.length_nil]
    decide⟩

theorem pebs_twoCopies (number first number' first' : UInt8) :
    Pebs (twoCopies number first number' first') (64 * 1024) 128
      [copyBlock number first, copyBlock number' first'] where
  bytes := rfl
  valid block hmem := by
    rcases List.mem_pair.mp hmem with rfl | rfl
    · exact peb_copyBlock number first
    · exact peb_copyBlock number' first'

/-- The first byte of the volume is that of the second copy. -/
theorem second_copy_shown (number first number' first' : UInt8) :
    ((exposed (fileReader (twoCopies number first number' first')) (64 * 1024)).map fun vols =>
      (vols 0).map fun vol => vol.2 0 1) = .ok (some (.ok [first'])) := by
  have htake : List.take MAX_PEBS [copyBlock number first, copyBlock number' first'] =
      [copyBlock number first, copyBlock number' first'] :=
    List.take_of_length_le (by simp only [List.length_cons, List.length_nil]; decide)
  have hkeys : [copyBlock number first, copyBlock number' first'].filterMap holds = [(0, 0), (0, 0)] := by
    simp only [List.filterMap_cons, holds_copyBlock, List.filterMap_nil]
  have hholder : holder [copyBlock number first, copyBlock number' first'] 0 0 =
      some (copyBlock number' first') := by
    simp only [holder, List.filter_cons, holds_copyBlock, decide_true, if_true, List.filter_nil]
    rfl
  have hbyte : (copyBlock number' first').slice 128 1 = [first'] := by
    rw [copyBlock, List.slice_append_left _ (by decide : 128 + 1 ≤ 129)]
    rfl
  have hmax : (lnums [copyBlock number first, copyBlock number' first'] 0).max? = some 0 := by
    rw [lnums, hkeys]
    rfl
  rw [exposed_eq (by decide) (by decide) (pebs_twoCopies number first number' first'), htake, shown,
    hkeys, if_neg (List.cons_ne_nil _ _), Except.map, volumeOf, hmax, Option.map_some, Option.map_some]
  dsimp only
  rw [readHolders, if_neg (by decide), Nat.zero_div, hholder]
  exact congrArg (fun byte => Except.ok (some (Except.ok byte))) hbyte

/-- **A stale copy is shown** when it lies behind the one with the higher sequence number. -/
theorem stale_copy_shown :
    Pebs (twoCopies 2 0xAA 1 0xBB) (64 * 1024) 128 [copyBlock 2 0xAA, copyBlock 1 0xBB] ∧
      Pebs (twoCopies 1 0xBB 2 0xAA) (64 * 1024) 128 [copyBlock 1 0xBB, copyBlock 2 0xAA] ∧
      sqnum (copyBlock 1 0xBB) < sqnum (copyBlock 2 0xAA) ∧
      ((exposed (fileReader (twoCopies 2 0xAA 1 0xBB)) (64 * 1024)).map fun vols =>
        (vols 0).map fun vol => vol.2 0 1) = .ok (some (.ok [0xBB])) ∧
      ((exposed (fileReader (twoCopies 1 0xBB 2 0xAA)) (64 * 1024)).map fun vols =>
        (vols 0).map fun vol => vol.2 0 1) = .ok (some (.ok [0xAA])) := by
  refine ⟨pebs_twoCopies _ _ _ _, pebs_twoCopies _ _ _ _, ?_, second_copy_shown _ _ _ _,
    second_copy_shown _ _ _ _⟩
  rw [sqnum_copyBlock, sqnum_copyBlock]
  decide

theorem earlier_copy_hidden :
    exposed (fileReader (twoCopies 2 0xAA 1 0xBB)) (64 * 1024) =
      exposed (fileReader (twoCopies 3 0xCC 1 0xBB)) (64 * 1024) := by
  refine (placement (64 * 1024) 128 (by decide) (by decide) _ _ _ _ (pebs_twoCopies 2 0xAA 1 0xBB)
    (pebs_twoCopies 3 0xCC 1 0xBB)).2.1 fun vol lnum => ?_
  have hpair : ∀ number first number' first' : UInt8,
      List.take MAX_PEBS [copyBlock number first, copyBlock number' first'] =
        [copyBlock number first] ++ [copyBlock number' first'] := fun _ _ _ _ =>
    List.take_of_length_le (by simp only [List.length_cons, List.length_nil]; decide)
  rw [hpair, hpair, holder_append, holder_append, holds_copyBlock]
  split_ifs with hkey
  · rfl
  · have hnone : ∀ number first : UInt8, holder [copyBlock number first] vol lnum = none := by
      intro number first
      rw [← List.nil_append [copyBlock number first], holder_append, holds_copyBlock, if_neg hkey]
      rfl
    rw [hnone, hnone]

end Mountin.Ubi
