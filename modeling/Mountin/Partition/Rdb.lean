import Mountin.Partition.Exact

set_option autoImplicit false

/-! # Amiga rigid disk blocks

`rdb.rs`: a header block in one of the first sectors, and a linked list of partition blocks.
-/

namespace Mountin.Rdb

open Partition Tracks

/-- `RDB_SIGNATURE`: "RDSK". -/
def RDB_SIGNATURE : Bytes := [0x52, 0x44, 0x53, 0x4b]

/-- `PART_SIGNATURE`: "PART". -/
def PART_SIGNATURE : Bytes := [0x50, 0x41, 0x52, 0x54]

/-- `NO_BLOCK`. -/
def NO_BLOCK : Nat := 0xFFFFFFFF

/-- `MAX_RDB_SEARCH`. -/
def MAX_RDB_SEARCH : Nat := 16

/-- `MAX_PARTITIONS`. -/
def MAX_PARTITIONS : Nat := 256

/-- The search for the header in the blocks from `blk` on, so many of them. -/
def findHeader (reader : Reader) : Nat → Nat → Except IoError (Option Nat)
  | 0, _ => .ok none
  | turns + 1, blk => do
      let sig ← reader.readAt (blk * 512) 4
      if sig.length ≠ 4 then return none
      else if sig = RDB_SIGNATURE then return some (blk * 512)
      else findHeader reader turns (blk + 1)

/-- The fields of the header that are used. -/
structure Header where
  block_size : Nat
  part_list : Nat
  cyl_blks : Nat

/-- A partition block: its cylinders, and the next block. -/
structure Part where
  next : Nat
  low_cyl : Nat
  high_cyl : Nat

/-- A partition block, if there is one at its place. -/
def readPart (reader : Reader) (header : Header) (part_blk : Nat) : Except IoError (Option Part) := do
  let part_offset := wrap (part_blk * header.block_size)
  let sig ← reader.readAt part_offset 4
  if sig ≠ PART_SIGNATURE then return none
  else
    let next ← readBe reader 4 (part_offset + 16)
    let low_cyl ← readBe reader 4 (part_offset + 164)
    let high_cyl ← readBe reader 4 (part_offset + 168)
    return some ⟨next, low_cyl, high_cyl⟩

/-- The loop over the list: the blocks, at most so many. -/
def readParts (reader : Reader) (header : Header) : Nat → Nat → Except IoError (List Part)
  | 0, _ => .ok []
  | turns + 1, part_blk =>
    if part_blk = NO_BLOCK then .ok []
    else do
      let part ← readPart reader header part_blk
      match part with
      | none => return []
      | some part => return part :: (← readParts reader header turns part.next)

/-- The header. -/
def readHeader (reader : Reader) : Except IoError Header := do
  match ← findHeader reader MAX_RDB_SEARCH 0 with
  | none => .error (.invalidData "RDSK signature not found")
  | some rdb_offset =>
      let block_size ← readBe reader 4 (rdb_offset + 16)
      let part_list ← readBe reader 4 (rdb_offset + 28)
      let cyl_blks ← readBe reader 4 (rdb_offset + 144)
      return ⟨block_size, part_list, cyl_blks⟩

/-- The header, and the partition blocks of its list. -/
def readList (reader : Reader) : Except IoError (Header × List Part) := do
  let header ← readHeader reader
  let parts ← readParts reader header MAX_PARTITIONS header.part_list
  return (header, parts)

/-- The offset and length of a partition. -/
def Part.compute (header : Header) (p : Part) : Nat × Nat :=
  (wrap (wrap (p.low_cyl * header.cyl_blks) * header.block_size),
    wrap (wrap (wrap (wrapSub p.high_cyl p.low_cyl + 1) * header.cyl_blks) * header.block_size))

/-- `RDB`. -/
def RDB : Container := fun reader => do
  let (header, parts) ← readList reader
  return parts.mapIdx fun i p => window i (p.compute header).1 (p.compute header).2

/-- The extent of a partition: the cylinders from the low to the high one. -/
def Part.extent (header : Header) (p : Part) : ℤ × ℤ :=
  (p.low_cyl * header.cyl_blks * header.block_size,
    (p.high_cyl - p.low_cyl + 1) * header.cyl_blks * header.block_size)

/-- The cylinders are not reversed, hold something, and end below `2^64`. -/
def Part.Admitted (header : Header) (p : Part) : Prop :=
  p.low_cyl ≤ p.high_cyl ∧ 0 < header.cyl_blks * header.block_size ∧
    (p.high_cyl + 1) * header.cyl_blks * header.block_size < 2 ^ 64

theorem Part.sound_iff (header : Header) (p : Part) :
    Sound (p.extent header) (some (p.compute header)) ↔ p.Admitted header := by
  obtain ⟨next, low, high⟩ := p
  obtain ⟨block_size, part_list, cyl_blks⟩ := header
  by_cases hle : low ≤ high
  · obtain ⟨n, rfl⟩ := Nat.exists_eq_add_of_le hle
    have hextent : (⟨next, low, low + n⟩ : Part).extent ⟨block_size, part_list, cyl_blks⟩ =
        (((low * cyl_blks * block_size : ℕ) : ℤ), (((n + 1) * cyl_blks * block_size : ℕ) : ℤ)) := by
      simp only [extent, Prod.mk.injEq]
      push_cast
      exact ⟨rfl, by ring⟩
    have hend : low * cyl_blks * block_size + (n + 1) * cyl_blks * block_size =
        (low + n + 1) * cyl_blks * block_size := by ring
    rw [hextent, sound_natCast_iff, hend]
    simp only [Admitted, compute]
    constructor
    · rintro ⟨hpos, hfits, -⟩
      rw [mul_assoc] at hpos
      exact ⟨hle, Nat.pos_of_mul_pos_left hpos, hfits⟩
    · rintro ⟨-, hblock, hfits⟩
      -- all products are at most the end of the partition
      have hcyl : 0 < cyl_blks := Nat.pos_of_mul_pos_right hblock
      have hsize : 0 < block_size := Nat.pos_of_mul_pos_left hblock
      have hlow : low * cyl_blks ≤ low * cyl_blks * block_size := Nat.le_mul_of_pos_right _ hsize
      have hcount : (n + 1) * cyl_blks ≤ (n + 1) * cyl_blks * block_size :=
        Nat.le_mul_of_pos_right _ hsize
      have hn : n + 1 ≤ (n + 1) * cyl_blks := Nat.le_mul_of_pos_right _ hcyl
      have hsub : wrapSub (low + n) low = n := by
        rw [wrapSub, wrap]
        omega
      refine ⟨?_, hfits, ?_⟩
      · rw [mul_assoc]
        exact Nat.mul_pos (Nat.succ_pos n) hblock
      · rw [hsub, wrap_of_lt (n := low * cyl_blks) (by omega), wrap_of_lt (n := n + 1) (by omega),
          wrap_of_lt (n := (n + 1) * cyl_blks) (by omega), wrap_of_lt (by omega), wrap_of_lt (by omega)]
  · -- the cylinders are reversed
    constructor
    · intro h
      have hpos := (h _ rfl).1.2.1
      simp only [extent] at hpos
      have hnonpos : ((high : ℤ) - low + 1) * cyl_blks * block_size ≤ 0 :=
        Int.mul_nonpos_of_nonpos_of_nonneg (Int.mul_nonpos_of_nonpos_of_nonneg (by omega)
          (Int.natCast_nonneg _)) (Int.natCast_nonneg _)
      exact absurd hpos (not_lt.mpr hnonpos)
    · exact fun h => absurd h.1 hle

/-- The children are the windows of the partition blocks. -/
theorem places_children {reader : Reader} {kids : List Child} (h : RDB reader = .ok kids) :
    ∃ header parts, readList reader = .ok (header, parts) ∧
      kids.map (fun kid => (kid.offset, kid.view)) =
        (parts.filterMap fun p => some (p.compute header)).map placed := by
  obtain ⟨⟨header, parts⟩, hlist, h⟩ := bind_eq_ok.mp h
  refine ⟨header, parts, hlist, ?_⟩
  obtain rfl := Except.ok.inj h
  exact places_mapIdx_window (Part.compute header) parts

end Mountin.Rdb
