import Mountin.Partition.Dasd
import Mountin.Partition.Gpt
import Mountin.Partition.Ics
import Mountin.Partition.Rdb

set_option autoImplicit false

/-! # The extents of partitions

When the children of four partition tables have the extents that their entries denote, as exact
numbers: release builds wrap silently, and only some of the readers check some of their numbers.

* `Table`, `TableEntry` : the four tables, and their entries.
* `extents_exact_iff` : the children are exact if and only if the entries are admitted.
-/

namespace Mountin.Partition

/-- The tables. -/
inductive Table where
  | gpt
  | rdb
  | dasd
  | ics

/-- The container of a table. -/
def Table.container : Table → Container
  | gpt => Gpt.GPT
  | rdb => Rdb.RDB
  | dasd => Dasd.DASD
  | ics => Ics.ICS

/-- An entry of one of the tables. -/
inductive TableEntry where
  | gpt (entry : Gpt.Entry)
  | rdb (header : Rdb.Header) (part : Rdb.Part)
  | dasd (label : Dasd.Label)
  | ics (entry : Ics.Entry)

/-- The entries that a reader finds. -/
def Table.entries (reader : Reader) : Table → Except IoError (List TableEntry)
  | gpt => do return (← Gpt.readEntries reader).map .gpt
  | rdb => do
      let (header, parts) ← Rdb.readList reader
      return parts.map (.rdb header)
  | dasd => do return (← Dasd.readLabels reader [1, 2]).map .dasd
  | ics => do return (← Ics.readEntries reader).map .ics

namespace TableEntry

/-- The extent that an entry denotes. -/
def extent : TableEntry → ℤ × ℤ
  | gpt entry => entry.extent
  | rdb header part => part.extent header
  | dasd label => label.extent
  | ics entry => entry.extent

/-- The condition on an entry: its numbers stay in the range of the arithmetic. -/
def Admitted : TableEntry → Prop
  | gpt entry => entry.Admitted
  | rdb header part => part.Admitted header
  | dasd label => label.Admitted
  | ics entry => entry.Admitted

end TableEntry

/-- **Exact extents.** The children of a table have the extents that its entries denote, and no
entry whose extent is empty or does not fit has a child, if and only if every entry is admitted. -/
theorem extents_exact_iff (table : Table) (reader : Reader) (kids : List Child)
    (h : table.container reader = .ok kids) :
    ∃ entries, table.entries reader = .ok entries ∧
      (Exact (entries.map TableEntry.extent) kids ↔ ∀ entry ∈ entries, entry.Admitted) := by
  cases table with
  | gpt =>
      obtain ⟨entries, hentries, hplaces⟩ := Gpt.places_children h
      refine ⟨entries.map .gpt, by simp only [Table.entries, hentries]; rfl, ?_⟩
      rw [List.forall_mem_map, List.map_map]
      refine (exact_iff (fun _ => Gpt.Entry.extent_of_skipped) hplaces).trans ?_
      exact forall₂_congr fun e _ => e.sound_iff
  | rdb =>
      obtain ⟨header, parts, hlist, hplaces⟩ := Rdb.places_children h
      refine ⟨parts.map (.rdb header), by simp only [Table.entries, hlist]; rfl, ?_⟩
      rw [List.forall_mem_map, List.map_map]
      refine (exact_iff (fun _ hnone => absurd hnone (by simp)) hplaces).trans ?_
      exact forall₂_congr fun p _ => Rdb.Part.sound_iff header p
  | dasd =>
      obtain ⟨labels, hlabels, hplaces⟩ := Dasd.places_children h
      refine ⟨labels.map .dasd, by simp only [Table.entries, hlabels]; rfl, ?_⟩
      rw [List.forall_mem_map, List.map_map]
      refine (exact_iff (fun _ => Dasd.Label.extent_of_skipped) hplaces).trans ?_
      have hsmall := Dasd.readLabels_small (by simp) hlabels
      exact forall₂_congr fun label hlabel => Dasd.Label.sound_iff (hsmall label hlabel)
  | ics =>
      obtain ⟨entries, hentries, htaken, hplaces⟩ := Ics.places_children h
      refine ⟨entries.map .ics, by simp only [Table.entries, hentries]; rfl, ?_⟩
      rw [List.forall_mem_map, List.map_map]
      refine (exact_iff (fun _ hnone => absurd hnone (by simp)) hplaces).trans ?_
      exact forall₂_congr fun e he => Ics.Entry.sound_iff (htaken e he)

/-! ## A disk with reversed cylinders -/

/-- A rigid disk block in a few bytes, with one partition block, which begins at byte 4: its blocks
have four bytes, and its cylinders two blocks. -/
def amigaImage (low_cyl high_cyl : UInt8) : Image :=
  ⟨Rdb.RDB_SIGNATURE ++ Rdb.PART_SIGNATURE ++ List.replicate 8 0 ++ [0, 0, 0, 4] ++
    [0xff, 0xff, 0xff, 0xff] ++ List.replicate 4 0 ++ [0, 0, 0, 1] ++ List.replicate 112 0 ++
    [0, 0, 0, 2] ++ List.replicate 20 0 ++ [0, 0, 0, low_cyl] ++ [0, 0, 0, high_cyl], by
      simp only [Rdb.RDB_SIGNATURE, Rdb.PART_SIGNATURE, List.length_append, List.length_cons,
        List.length_nil, List.length_replicate]
      decide⟩

theorem amigaImage_reversed : Rdb.readList (fileReader (amigaImage 2 0)) =
    .ok (⟨4, 1, 2⟩, [⟨0xffffffff, 2, 0⟩]) := by
  rfl

theorem amigaImage_ordered : Rdb.readList (fileReader (amigaImage 2 3)) =
    .ok (⟨4, 1, 2⟩, [⟨0xffffffff, 2, 3⟩]) := by
  rfl

/-- A partition whose cylinders are reversed becomes a child of nearly `2^64` bytes. -/
theorem reversed_cylinders_wrapped :
    ¬ ∀ (table : Table) (reader : Reader) (kids : List Child), table.container reader = .ok kids →
      ∀ entries, table.entries reader = .ok entries → Exact (entries.map TableEntry.extent) kids := by
  intro h
  have hchildren : Rdb.RDB (fileReader (amigaImage 2 0)) = .ok [window 0 16 (2 ^ 64 - 8)] := by
    rw [Rdb.RDB, amigaImage_reversed]
    rfl
  have hentries : Table.rdb.entries (fileReader (amigaImage 2 0)) =
      .ok [.rdb ⟨4, 1, 2⟩ ⟨0xffffffff, 2, 0⟩] := by
    simp only [Table.entries, amigaImage_reversed]
    rfl
  have hexact := h .rdb (fileReader (amigaImage 2 0)) _ hchildren _ hentries
  have hnone : ([TableEntry.rdb ⟨4, 1, 2⟩ ⟨0xffffffff, 2, 0⟩].map TableEntry.extent).filter
      (fun extent => decide (Fits extent)) = [] := by
    decide
  rw [Exact, hnone] at hexact
  cases hexact

/-- A partition with its cylinders in order has its extent. -/
theorem ordered_cylinders_exact : ∃ entries, Table.rdb.entries (fileReader (amigaImage 2 3)) = .ok entries ∧
    (Exact (entries.map TableEntry.extent) [window 0 16 16] ↔ ∀ entry ∈ entries, entry.Admitted) :=
  extents_exact_iff .rdb (fileReader (amigaImage 2 3)) _ (by
    show Rdb.RDB _ = _
    rw [Rdb.RDB, amigaImage_ordered]
    rfl)

end Mountin.Partition
