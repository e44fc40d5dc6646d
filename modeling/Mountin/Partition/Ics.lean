import Mountin.Partition.Exact

set_option autoImplicit false

/-! # ICS partition tables

`ics.rs`: a table of starts and signed sizes in sector 0. A negative size stands for a partition of
another system, which may begin with a marker sector.
-/

namespace Mountin.Ics

open Partition

/-- `read_sector`. -/
def readSector (reader : Reader) (sector : Nat) : Except IoError Bytes :=
  readExactly reader (wrap (sector * SECTOR_SIZE)) 512 (.unexpectedEof "short read")

/-- `ics_checksum`. -/
def icsChecksum (data : Bytes) : Bool :=
  (data.take 508).foldl (fun sum b => (sum + b.toNat) % 2 ^ 32) 0x50617274 == leField data 508 4

/-- "LinuxPart". -/
def LINUX_PART : Bytes := [0x4c, 0x69, 0x6e, 0x75, 0x78, 0x50, 0x61, 0x72, 0x74]

/-- An entry: its start, the size, whether the size is negative, and whether the partition begins
with the marker. -/
structure Entry where
  start : Nat
  actual_size : Nat
  marked : Bool

/-- The marker stands in the first sector of the partition. -/
def isMarked (reader : Reader) (start : Nat) : Bool :=
  match readSector reader start with
  | .ok sector => LINUX_PART.isPrefixOf sector
  | .error _ => false

/-- The entry at an offset of the sector: `size as i32`, and `(-size) as u32` where it is negative. -/
def readEntry (reader : Reader) (sector : Bytes) (offset : Nat) : Entry :=
  let start := leField sector offset 4
  let size := leField sector (offset + 4) 4
  let actual_size := if 2 ^ 31 ≤ size then 2 ^ 32 - size else size
  ⟨start, actual_size, decide (2 ^ 31 ≤ size ∧ 1 < actual_size) && isMarked reader start⟩

/-- The loop over the table, which an entry of size zero ends. -/
def readTable (reader : Reader) (sector : Bytes) : Nat → Nat → List Entry
  | 0, _ => []
  | turns + 1, offset =>
    let entry := readEntry reader sector offset
    if entry.actual_size = 0 then [] else entry :: readTable reader sector turns (offset + 8)

/-- The entries of the table: those that end in the first 508 bytes. -/
def readEntries (reader : Reader) : Except IoError (List Entry) := do
  let sector ← readSector reader 0
  require (icsChecksum sector) (.invalidData "invalid ICS checksum")
  return readTable reader sector 63 0

/-- The offset and length of a partition; the marker sector is left out, in `u32` arithmetic. -/
def Entry.compute (e : Entry) : Nat × Nat :=
  let actual_start := if e.marked then (e.start + 1) % 2 ^ 32 else e.start
  let actual_size := if e.marked then e.actual_size - 1 else e.actual_size
  (wrap (actual_start * SECTOR_SIZE), wrap (actual_size * SECTOR_SIZE))

/-- `ICS`. Every entry that the loop takes has a size left. -/
def ICS : Container := fun reader => do
  let entries ← readEntries reader
  return entries.mapIdx fun i e => window i e.compute.1 e.compute.2

/-- The extent of an entry. -/
def Entry.extent (e : Entry) : ℤ × ℤ :=
  if e.marked then ((e.start + 1) * 512, (e.actual_size - 1) * 512)
  else (e.start * 512, e.actual_size * 512)

/-- What the loop takes: `u32` numbers, with a size left behind a marker. -/
def Entry.Taken (e : Entry) : Prop :=
  e.start < 2 ^ 32 ∧ e.actual_size < 2 ^ 32 ∧ 0 < e.actual_size ∧ (e.marked → 1 < e.actual_size)

/-- A partition with a marker does not begin in the last sector that a `u32` counts. -/
def Entry.Admitted (e : Entry) : Prop := e.marked → e.start + 1 < 2 ^ 32

theorem readEntry_taken {reader : Reader} {sector : Bytes} {offset : Nat}
    (h : (readEntry reader sector offset).actual_size ≠ 0) : (readEntry reader sector offset).Taken := by
  have hstart := leField_lt sector offset 4
  have hsize := leField_lt sector (offset + 4) 4
  refine ⟨hstart, ?_, Nat.pos_of_ne_zero h, fun hmarked => ?_⟩
  · simp only [readEntry]
    split_ifs <;> omega
  · simp only [readEntry, Bool.and_eq_true, decide_eq_true_eq] at hmarked
    exact hmarked.1.2

theorem readTable_taken {reader : Reader} {sector : Bytes} (turns offset : Nat) :
    ∀ e ∈ readTable reader sector turns offset, e.Taken := by
  induction turns generalizing offset with
  | zero => simp [readTable]
  | succ turns ih =>
      rw [readTable]
      split
      · simp
      · rename_i hsize
        rw [List.forall_mem_cons]
        exact ⟨readEntry_taken hsize, ih (offset + 8)⟩

theorem Entry.sound_iff {e : Entry} (h : e.Taken) : Sound e.extent (some e.compute) ↔ e.Admitted := by
  obtain ⟨start, size, marked⟩ := e
  obtain ⟨hstart, hsize, hpos, hmarked⟩ := h
  dsimp only at hstart hsize hpos hmarked
  cases marked with
  | false =>
      have hextent : (⟨start, size, false⟩ : Entry).extent =
          (((start * 512 : ℕ) : ℤ), ((size * 512 : ℕ) : ℤ)) := by
        simp [extent]
      rw [hextent, sound_natCast_iff]
      simp only [compute, SECTOR_SIZE, Admitted, Bool.false_eq_true, if_false, false_implies, iff_true]
      rw [wrap_of_lt (by omega), wrap_of_lt (by omega)]
      exact ⟨by omega, by omega, rfl⟩
  | true =>
      have hone := hmarked rfl
      have hextent : (⟨start, size, true⟩ : Entry).extent =
          ((((start + 1) * 512 : ℕ) : ℤ), (((size - 1) * 512 : ℕ) : ℤ)) := by
        simp only [extent, if_true, Prod.mk.injEq]
        omega
      rw [hextent, sound_natCast_iff]
      simp only [compute, SECTOR_SIZE, Admitted, if_true, forall_const]
      rw [wrap_of_lt (n := (start + 1) % 2 ^ 32 * 512) (by omega), wrap_of_lt (by omega)]
      simp only [Prod.mk.injEq, and_true]
      constructor
      · rintro ⟨-, -, heq⟩
        omega
      · intro hlt
        rw [Nat.mod_eq_of_lt hlt]
        exact ⟨by omega, by omega, rfl⟩

/-- The children are the windows of the entries that the loop takes. -/
theorem places_children {reader : Reader} {kids : List Child} (h : ICS reader = .ok kids) :
    ∃ entries, readEntries reader = .ok entries ∧ (∀ e ∈ entries, e.Taken) ∧
      kids.map (fun kid => (kid.offset, kid.view)) =
        (entries.filterMap fun e => some e.compute).map placed := by
  obtain ⟨entries, hentries, h⟩ := bind_eq_ok.mp h
  refine ⟨entries, hentries, ?_, ?_⟩
  · obtain ⟨sector, -, hentries⟩ := bind_eq_ok.mp hentries
    obtain ⟨_, -, hentries⟩ := bind_eq_ok.mp hentries
    obtain rfl := Except.ok.inj hentries
    exact readTable_taken 63 0
  · obtain rfl := Except.ok.inj h
    exact places_mapIdx_window Entry.compute entries

end Mountin.Ics
