import Mountin.Partition.Exact

set_option autoImplicit false

/-! # GUID partition tables

`gpt.rs`: a header with the place and the size of a flat table of entries.
-/

namespace Mountin.Gpt

open Partition Tracks

/-- `HEADER_OFFSET`. -/
def HEADER_OFFSET : Nat := 512

/-- `GPT_SIGNATURE`: "EFI PART". -/
def GPT_SIGNATURE : Bytes := [0x45, 0x46, 0x49, 0x20, 0x50, 0x41, 0x52, 0x54]

/-- `MAX_ENTRIES`. -/
def MAX_ENTRIES : Nat := 256

/-- An entry in use: its number, and its first and last block. -/
structure Entry where
  index : Nat
  first_lba : Nat
  last_lba : Nat

/-- An entry, unless it cannot be read or its type is all zeros. -/
def readEntry (reader : Reader) (entries_offset entry_size i : Nat) : Except IoError (Option Entry) := do
  let entry_offset := wrap (entries_offset + i * entry_size)
  let type_guid ← reader.readAt entry_offset 16
  if type_guid.length ≠ 16 ∨ type_guid = List.replicate 16 0 then return none
  else
    let first_lba ← readLe reader 8 (entry_offset + 32)
    let last_lba ← readLe reader 8 (entry_offset + 40)
    return some ⟨i, first_lba, last_lba⟩

/-- The header, and the entries in use. -/
def readEntries (reader : Reader) : Except IoError (List Entry) := do
  let sig ← reader.readAt HEADER_OFFSET 8
  require (sig = GPT_SIGNATURE) (.invalidData "invalid GPT signature")
  let entries_lba ← readLe reader 8 (HEADER_OFFSET + 72)
  let num_entries ← readLe reader 4 (HEADER_OFFSET + 80)
  let entry_size ← readLe reader 4 (HEADER_OFFSET + 84)
  require (128 ≤ entry_size ∧ num_entries ≤ MAX_ENTRIES) (.invalidData "invalid GPT header values")
  let entries_offset := wrap (entries_lba * SECTOR_SIZE)
  let entries ← (List.range num_entries).mapM (readEntry reader entries_offset entry_size)
  return entries.reduceOption

/-- The offset and length of a partition; an entry whose blocks are reversed is skipped. -/
def Entry.compute (e : Entry) : Option (Nat × Nat) :=
  if e.last_lba < e.first_lba then none
  else
    some (wrap (e.first_lba * SECTOR_SIZE), wrap (wrap (e.last_lba - e.first_lba + 1) * SECTOR_SIZE))

/-- `GPT`. -/
def GPT : Container := fun reader => do
  let entries ← readEntries reader
  return entries.filterMap fun e => e.compute.map fun w => window e.index w.1 w.2

/-- The extent of an entry: the blocks from the first to the last. -/
def Entry.extent (e : Entry) : ℤ × ℤ :=
  (e.first_lba * 512, (e.last_lba - e.first_lba + 1) * 512)

theorem Entry.extent_of_skipped {e : Entry} (h : e.compute = none) : ¬ Fits e.extent := by
  unfold compute at h
  split at h
  · rintro ⟨-, hpos, -⟩
    simp only [extent] at hpos
    omega
  · cases h

/-- The last block of an entry that is not skipped ends below `2^64`. -/
def Entry.Admitted (e : Entry) : Prop := e.last_lba < e.first_lba ∨ (e.last_lba + 1) * 512 < 2 ^ 64

theorem Entry.sound_iff (e : Entry) : Sound e.extent e.compute ↔ e.Admitted := by
  unfold compute Admitted
  by_cases hskip : e.last_lba < e.first_lba
  · simp [Sound, hskip]
  · have hcount : ((e.last_lba - e.first_lba + 1 : ℕ) : ℤ) = e.last_lba - e.first_lba + 1 := by omega
    have hextent : e.extent =
        (((e.first_lba * 512 : ℕ) : ℤ), (((e.last_lba - e.first_lba + 1) * 512 : ℕ) : ℤ)) := by
      rw [extent, Nat.cast_mul, Nat.cast_mul, hcount]
      rfl
    have hend : e.first_lba * 512 + (e.last_lba - e.first_lba + 1) * 512 = (e.last_lba + 1) * 512 := by
      rw [← Nat.add_mul]
      congr 1
      omega
    rw [if_neg hskip, hextent, sound_natCast_iff, hend]
    constructor
    · exact fun h => .inr h.2.1
    · rintro (h | h)
      · exact absurd h hskip
      refine ⟨Nat.mul_pos (Nat.succ_pos _) (by decide), h, ?_⟩
      rw [SECTOR_SIZE, wrap_of_lt (n := e.last_lba - e.first_lba + 1) (by omega),
        wrap_of_lt ((Nat.mul_le_mul_right 512 (by omega)).trans_lt h),
        wrap_of_lt ((Nat.mul_le_mul_right 512 (by omega)).trans_lt h)]

/-- The children are the windows of the entries. -/
theorem places_children {reader : Reader} {kids : List Child} (h : GPT reader = .ok kids) :
    ∃ entries, readEntries reader = .ok entries ∧
      kids.map (fun kid => (kid.offset, kid.view)) = (entries.filterMap Entry.compute).map placed := by
  obtain ⟨entries, hentries, h⟩ := bind_eq_ok.mp h
  refine ⟨entries, hentries, ?_⟩
  obtain rfl := Except.ok.inj h
  exact places_filterMap_window Entry.index Entry.compute entries

end Mountin.Gpt
