import Mountin.Disk.DmgTable

set_option autoImplicit false

/-! # Lookups in a chunk table

`find_chunk` searches the table of a DMG by the ends of its chunks; the parser sorts the table by
their starts. The two orders agree unless a chunk ends before one that starts earlier.

* `lookup_iff` : every lookup is right exactly when the ends are in order.
* `nested_chunk_hides` : a chunk nested in another one hides sectors of it.
-/

namespace Mountin.Dmg

open BinarySearch (Partitioned partitionPoint)

/-- What the documentation of `partition_point` says: the result is an index of the slice or its
length, and on a slice that is not partitioned nothing more. -/
structure PartitionPoint (search : (Nat → Bool) → Nat → Nat) : Prop where
  le : ∀ p n, search p n ≤ n
  below : ∀ p n, Partitioned p n → ∀ i < search p n, p i = true
  above : ∀ p n, Partitioned p n → ∀ i, search p n ≤ i → i < n → p i = false

/-- `find_chunk`, over a `partition_point`. -/
def findChunkBy (search : (Nat → Bool) → Nat → Nat) (chunks : List DmgChunk) (sector : Nat) :
    Option DmgChunk :=
  match chunks[search (endsBefore chunks sector) chunks.length]? with
  | none => none
  | some chunk => if chunk.Holds sector then some chunk else none

theorem findChunk_eq_findChunkBy (r : DmgReader) (sector : Nat) :
    r.findChunk sector = findChunkBy partitionPoint r.chunks sector := rfl

/-- The result of a lookup is right: a chunk that holds the sector, or none where there is none. -/
def Finds (chunks : List DmgChunk) (sector : Nat) (found : Option DmgChunk) : Prop :=
  (∀ c, found = some c → c ∈ chunks ∧ c.Holds sector) ∧
    (found = none → ∀ c ∈ chunks, ¬c.Holds sector)

/-- No chunk ends before one that stands earlier in the table. -/
def EndsInOrder (chunks : List DmgChunk) : Prop :=
  chunks.Pairwise fun a b => a.sectorStart + a.sectorCount ≤ b.sectorStart + b.sectorCount

/-! ## The search -/

theorem partitionPoint_contract : PartitionPoint partitionPoint where
  le := BinarySearch.partitionPoint_le
  below _ _ hp := (BinarySearch.partitionPoint_spec hp).2.1
  above _ _ hp := (BinarySearch.partitionPoint_spec hp).2.2

/-- A `partition_point` that returns the length of a slice that is not partitioned. -/
noncomputable def pessimist (p : Nat → Bool) (n : Nat) : Nat :=
  open Classical in if Partitioned p n then partitionPoint p n else n

theorem pessimist_contract : PartitionPoint pessimist where
  le p n := by
    unfold pessimist
    split_ifs
    · exact partitionPoint_contract.le p n
    · exact Nat.le_refl n
  below p n hp := by
    rw [pessimist, if_pos hp]
    exact partitionPoint_contract.below p n hp
  above p n hp := by
    rw [pessimist, if_pos hp]
    exact partitionPoint_contract.above p n hp

variable {chunks : List DmgChunk}

theorem EndsInOrder.partitioned (h : EndsInOrder chunks) (sector : Nat) :
    Partitioned (endsBefore chunks sector) chunks.length := by
  intro i j hij hj hends
  obtain ⟨b, hb, hle⟩ := endsBefore_eq_true.mp hends
  rcases Nat.eq_or_lt_of_le hij with rfl | hlt
  · exact hends
  · have ha : chunks[i]? = some chunks[i] := List.getElem?_eq_getElem (hlt.trans hj)
    obtain rfl : chunks[j] = b := by
      rw [List.getElem?_eq_getElem hj] at hb
      exact Option.some.inj hb
    exact endsBefore_eq_true.mpr
      ⟨_, ha, (List.pairwise_iff_getElem.mp h i j (hlt.trans hj) hj hlt).trans hle⟩

/-- A lookup never returns a chunk that does not hold the sector. -/
theorem findChunkBy_holds {search : (Nat → Bool) → Nat → Nat} {sector : Nat} {c : DmgChunk}
    (h : findChunkBy search chunks sector = some c) : c ∈ chunks ∧ c.Holds sector := by
  unfold findChunkBy at h
  split at h
  · cases h
  · next chunk hchunk =>
      rw [Option.ite_none_right_eq_some, Option.some.injEq] at h
      obtain ⟨hholds, rfl⟩ := h
      exact ⟨List.mem_of_getElem? hchunk, hholds⟩

/-- Where the ends are in order, the first chunk that ends after the sector holds it, if any does. -/
theorem finds_of_endsInOrder (h : EndsInOrder chunks)
    (hsorted : chunks.Pairwise fun a b => a.sectorStart ≤ b.sectorStart)
    {search : (Nat → Bool) → Nat → Nat} (hsearch : PartitionPoint search) (sector : Nat) :
    Finds chunks sector (findChunkBy search chunks sector) := by
  refine ⟨fun c hc => findChunkBy_holds hc, fun hnone c hc hholds => ?_⟩
  obtain ⟨i, hi, rfl⟩ := List.mem_iff_getElem.mp hc
  have hpart := h.partitioned sector
  -- the search does not go past a chunk that holds the sector
  have hle : search (endsBefore chunks sector) chunks.length ≤ i := by
    by_contra hgt
    obtain ⟨d, hd, hends⟩ := endsBefore_eq_true.mp
      (hsearch.below _ _ hpart i (Nat.not_le.mp hgt))
    rw [List.getElem?_eq_getElem hi, Option.some.injEq] at hd
    exact absurd (hd ▸ hends) (Nat.not_le.mpr hholds.2)
  have hlt := hle.trans_lt hi
  have hget : chunks[search (endsBefore chunks sector) chunks.length]? =
      some chunks[search (endsBefore chunks sector) chunks.length] := List.getElem?_eq_getElem hlt
  have hends := hsearch.above _ _ hpart _ le_rfl hlt
  have hfound : chunks[search (endsBefore chunks sector) chunks.length].Holds sector := by
    refine ⟨?_, ?_⟩
    · rcases Nat.eq_or_lt_of_le hle with heq | hbefore
      · simp only [heq]
        exact hholds.1
      · exact (List.pairwise_iff_getElem.mp hsorted _ i hlt hi hbefore).trans hholds.1
    · by_contra hge
      rw [Bool.eq_false_iff] at hends
      exact hends (endsBefore_eq_true.mpr ⟨_, hget, Nat.not_lt.mp hge⟩)
  rw [findChunkBy, hget] at hnone
  simp only [if_pos hfound, reduceCtorEq] at hnone

/-- Where they are not, a sector is held by a chunk, and the search is left open at it. -/
theorem exists_unpartitioned (h : ¬EndsInOrder chunks)
    (hsorted : chunks.Pairwise fun a b => a.sectorStart ≤ b.sectorStart) :
    ∃ sector, (∃ c ∈ chunks, c.Holds sector) ∧
      ¬Partitioned (endsBefore chunks sector) chunks.length := by
  rw [EndsInOrder, List.pairwise_iff_getElem] at h
  push_neg at h
  obtain ⟨i, j, hi, hj, hij, hlt⟩ := h
  have hstart := List.pairwise_iff_getElem.mp hsorted i j hi hj hij
  refine ⟨chunks[j].sectorStart + chunks[j].sectorCount, ⟨chunks[i], List.getElem_mem hi,
    hstart.trans (Nat.le_add_right _ _), hlt⟩, fun hpart => ?_⟩
  have hends := hpart i j hij.le hj
    (endsBefore_eq_true.mpr ⟨_, List.getElem?_eq_getElem hj, Nat.le_refl _⟩)
  obtain ⟨c, hc, hle⟩ := endsBefore_eq_true.mp hends
  rw [List.getElem?_eq_getElem hi, Option.some.injEq] at hc
  exact absurd (hc ▸ hle) (Nat.not_le.mpr hlt)

/-- The table that is accepted is sorted by the starts of its chunks. -/
theorem sorted_of_parsePlistBlkx {xml : Bytes} {dataForkOffset : Nat}
    (h : parsePlistBlkx xml dataForkOffset = .ok chunks) :
    chunks.Pairwise fun a b => a.sectorStart ≤ b.sectorStart := by
  obtain ⟨_, -, h⟩ := bind_eq_ok.mp h
  obtain rfl := Except.ok.inj h
  exact List.pairwise_insertionSort (fun a b : DmgChunk => a.sectorStart ≤ b.sectorStart) _

/-- **Lookups.** In a table that the parser accepts, all lookups are right, whatever
`partition_point` makes of slices that are not partitioned, exactly when the ends of the chunks are in
order. -/
theorem lookup_iff (xml : Bytes) (dataForkOffset : Nat) (chunks : List DmgChunk)
    (h : parsePlistBlkx xml dataForkOffset = .ok chunks) :
    (∀ search, PartitionPoint search → ∀ sector,
      Finds chunks sector (findChunkBy search chunks sector)) ↔ EndsInOrder chunks := by
  have hsorted := sorted_of_parsePlistBlkx h
  constructor
  · intro hfinds
    by_contra hends
    obtain ⟨sector, ⟨c, hc, hholds⟩, hpart⟩ := exists_unpartitioned hends hsorted
    refine (hfinds pessimist pessimist_contract sector).2 ?_ c hc hholds
    rw [findChunkBy, pessimist, if_neg hpart, List.getElem?_eq_none (Nat.le_refl _)]
  · exact fun hends search hsearch sector => finds_of_endsInOrder hends hsorted hsearch sector

/-! ## A nested chunk -/

/-- The entry of so many raw sectors from a sector on. -/
def spanEntry (sector count : UInt8) : Bytes :=
  [0, 0, 0, 1, 0, 0, 0, 0] ++ List.replicate 7 0 ++ [sector] ++ List.replicate 7 0 ++ [count]
    ++ List.replicate 16 0

/-- A property list with one block, which has these chunks. -/
def spanXml (spans : List (UInt8 × UInt8)) : Bytes :=
  blkxKey ++ dataTag ++ encodeBase64 (mishHeader 0 ++ spans.flatMap (fun s => spanEntry s.1 s.2)) ++
    dataEndTag

/-- A chunk of raw sectors. -/
def spanChunk (sector count : Nat) : DmgChunk := ⟨UDRW, sector, count, 0, 0⟩

theorem nested_accepted :
    parsePlistBlkx (spanXml [(0, 10), (2, 1)]) 0 = .ok [spanChunk 0 10, spanChunk 2 1] := by
  decide +kernel

theorem hidden_nested :
    findChunkBy partitionPoint [spanChunk 0 10, spanChunk 2 1] 5 = none := by
  decide

/-- Sector 5 lies in the first chunk, and the lookup finds none, since the second chunk ends before
it. -/
theorem nested_chunk_hides :
    parsePlistBlkx (spanXml [(0, 10), (2, 1)]) 0 = .ok [spanChunk 0 10, spanChunk 2 1] ∧
      (spanChunk 0 10).Holds 5 ∧
      ∀ parent size, DmgReader.findChunk ⟨parent, [spanChunk 0 10, spanChunk 2 1], size⟩ 5 = none :=
  ⟨nested_accepted, by decide, fun _ _ => (findChunk_eq_findChunkBy _ 5).trans hidden_nested⟩

/-- Chunks one after the other, with a gap. -/
theorem gap_found :
    Finds [spanChunk 0 2, spanChunk 5 1] 5
      (findChunkBy partitionPoint [spanChunk 0 2, spanChunk 5 1] 5) :=
  (lookup_iff (spanXml [(0, 2), (5, 1)]) 0 _ (by decide +kernel)).mpr
    (by
      unfold EndsInOrder
      decide)
    partitionPoint partitionPoint_contract 5

end Mountin.Dmg
