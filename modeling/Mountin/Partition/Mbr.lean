import Mountin.Basic.LinkedWalk
import Mountin.Partition.Windows

set_option autoImplicit false

/-! # MBR partition tables

`mbr.rs`: four primary entries, and for each extended partition a chain of EBRs, each with one
logical partition and a link to the next.

* `EbrChain` : the walk of a chain, what the links say.
* `SlotChildren` : the children of one entry of the table.
* `mbr_logical_partitions` : all children, for every image with a boot signature.
-/

namespace Mountin.Mbr

open Partition Tracks

/-- `BOOT_SIG`. -/
def BOOT_SIG : Nat := 0xAA55

def TYPE_EMPTY : Nat := 0x00
def TYPE_GPT_PROTECTIVE : Nat := 0xEE
def TYPE_EXTENDED_CHS : Nat := 0x05
def TYPE_EXTENDED_LBA : Nat := 0x0F

/-- `MAX_LOGICAL`. -/
def MAX_LOGICAL : Nat := 256

/-- `FIRST_LOGICAL_INDEX`: the index after the four primary slots. -/
def FIRST_LOGICAL_INDEX : Nat := 4

/-- `struct PartitionEntry`. -/
structure PartitionEntry where
  type_code : Nat
  lba_start : Nat
  sector_count : Nat
  deriving DecidableEq

/-- One entry of a partition table. -/
def readEntry (reader : Reader) (base i : Nat) : Except IoError PartitionEntry := do
  let entryOffset := base + 446 + i * 16
  let type_code ← readLe reader 1 (entryOffset + 4)
  let lba_start ← readLe reader 4 (entryOffset + 8)
  let sector_count ← readLe reader 4 (entryOffset + 12)
  return ⟨type_code, lba_start, sector_count⟩

/-- `read_partition_table`. -/
def readPartitionTable (reader : Reader) (lba : Nat) : Except IoError (Vector PartitionEntry 4) := do
  let base := wrap (lba * SECTOR_SIZE)
  let sig ← readLe reader 2 (base + 510)
  require (sig = BOOT_SIG) (.invalidData "invalid boot signature")
  let first ← readEntry reader base 0
  let second ← readEntry reader base 1
  let third ← readEntry reader base 2
  let fourth ← readEntry reader base 3
  return #v[first, second, third, fourth]

/-- The window of the logical partition of an EBR: its entry 0 is relative to this EBR. -/
def logicalWindow (extended_start extended_size current : Nat) (logical : PartitionEntry) :
    Option (Nat × Nat) :=
  if logical.type_code ≠ TYPE_EMPTY ∧ 0 < logical.lba_start ∧ 0 < logical.sector_count then
    let partition_lba := wrap (current + logical.lba_start)
    let partition_end_lba := wrap (partition_lba + logical.sector_count)
    -- the partition should be within the extended partition
    if partition_end_lba ≤ wrap (extended_start + extended_size) then
      some (wrap (partition_lba * SECTOR_SIZE), wrap (logical.sector_count * SECTOR_SIZE))
    else none
  else none

/-- The EBR that an EBR points to: its entry 1 is relative to the extended partition. -/
def nextEbr (extended_start extended_size current : Nat) (next : PartitionEntry) : Option Nat :=
  if next.type_code = TYPE_EMPTY ∨ next.lba_start = 0 then none
  else
    let next_lba := wrap (extended_start + next.lba_start)
    if wrap (extended_start + extended_size) ≤ next_lba then none
    -- it must move forward
    else if next_lba ≤ current then none
    else some next_lba

/-- `parse_extended_chain`, with the turns that are left: the children, and `partition_index`. -/
def parseExtendedChain (reader : Reader) (extended_start extended_size : Nat) :
    Nat → Option Nat → Nat → List Child × Nat
  | 0, _, partition_index => ([], partition_index)
  | _ + 1, none, partition_index => ([], partition_index)
  | turns + 1, some current, partition_index =>
    match readPartitionTable reader current with
    | .error _ => ([], partition_index)
    | .ok entries =>
        let next := nextEbr extended_start extended_size current entries[1]
        match logicalWindow extended_start extended_size current entries[0] with
        | none => parseExtendedChain reader extended_start extended_size turns next partition_index
        | some (start, length) =>
            let (kids, index) := parseExtendedChain reader extended_start extended_size turns next
              (partition_index + 1)
            (window partition_index start length :: kids, index)

/-- The types of extended partitions. -/
def PartitionEntry.isExtended (entry : PartitionEntry) : Bool :=
  entry.type_code == TYPE_EXTENDED_CHS || entry.type_code == TYPE_EXTENDED_LBA

/-- The types that are skipped. -/
def PartitionEntry.isSkipped (entry : PartitionEntry) : Bool :=
  entry.type_code == TYPE_EMPTY || entry.type_code == TYPE_GPT_PROTECTIVE

/-- The child of a primary partition, which has the index of its slot. -/
def primaryChildren (entry : PartitionEntry) (slot : Nat) : List Child :=
  if 0 < entry.lba_start ∧ 0 < entry.sector_count then
    [window slot (wrap (entry.lba_start * SECTOR_SIZE)) (wrap (entry.sector_count * SECTOR_SIZE))]
  else []

/-- The loop of `children` over the entries with their slots, with `logical_index`. -/
def slotChildren (reader : Reader) : List (PartitionEntry × Nat) → Nat → List Child
  | [], _ => []
  | (entry, slot) :: rest, logical_index =>
    if entry.isSkipped then slotChildren reader rest logical_index
    else if entry.isExtended then
      let (logical, logical_index) := parseExtendedChain reader entry.lba_start entry.sector_count
        MAX_LOGICAL (some entry.lba_start) logical_index
      logical ++ slotChildren reader rest logical_index
    else primaryChildren entry slot ++ slotChildren reader rest logical_index

/-- `MBR`. -/
def MBR : Container := fun reader => do
  let entries ← readPartitionTable reader 0
  return slotChildren reader entries.toList.zipIdx FIRST_LOGICAL_INDEX

/-! ## The walk of a chain -/

theorem first_entry : 0 < 4 := by decide

theorem second_entry : 1 < 4 := by decide

/-- The walk of the chain of an extended partition: it begins with its first EBR, each EBR it
visits can be read and is the one that the EBR before it points to, further on; it ends where no
EBR is pointed to, where the next cannot be read, or after `MAX_LOGICAL` of them. -/
structure EbrChain (reader : Reader) (extended : PartitionEntry)
    (walk : List (Nat × Vector PartitionEntry 4)) : Prop where
  head : walk.head? =
    (readPartitionTable reader extended.lba_start).toOption.map fun b => (extended.lba_start, b)
  read : ∀ ebr ∈ walk, readPartitionTable reader ebr.1 = .ok ebr.2
  linked : walk.IsChain fun x y =>
    nextEbr extended.lba_start extended.sector_count x.1 (getElem x.2 1 second_entry) = some y.1
  increasing : (walk.map Prod.fst).Pairwise (· < ·)
  stop : walk.length < MAX_LOGICAL → ∀ ebr ∈ walk.getLast?, ∀ lba,
    nextEbr extended.lba_start extended.sector_count ebr.1 (getElem ebr.2 1 second_entry) = some lba →
      ∃ e, readPartitionTable reader lba = .error e

/-- A window lies inside an extended partition. -/
def Inside (extended : PartitionEntry) (offset length : Nat) : Prop :=
  extended.lba_start * 512 ≤ offset ∧
    offset + length ≤ (extended.lba_start + extended.sector_count) * 512

/-- The children of one entry of the table: none, the primary partition, or the logical partitions
of the EBRs of the chain, all inside the extended partition. -/
inductive SlotChildren (reader : Reader) (entry : PartitionEntry) (slot : Nat) :
    List Child → Prop where
  | skipped (h : entry.isSkipped) : SlotChildren reader entry slot []
  | primary (hskip : entry.isSkipped = false) (hext : entry.isExtended = false) :
      SlotChildren reader entry slot
        (if 0 < entry.lba_start ∧ 0 < entry.sector_count then
          [window slot (entry.lba_start * 512) (entry.sector_count * 512)] else [])
  | extended (h : entry.isExtended) (walk : List (Nat × Vector PartitionEntry 4)) (index : Nat)
      (windows : List (Nat × Nat)) (chain : EbrChain reader entry walk)
      (kids : walk.filterMap (fun ebr =>
        logicalWindow entry.lba_start entry.sector_count ebr.1 (getElem ebr.2 0 first_entry)) = windows)
      (inside : ∀ w ∈ windows, Inside entry w.1 w.2) :
      SlotChildren reader entry slot
        (windows.mapIdx fun i w => window (index + i) w.1 w.2)

section

variable {reader : Reader} {extended : PartitionEntry}

/-- A partition table is read: the fields of its entries are bytes and `u32`. -/
def PartitionEntry.Small (entry : PartitionEntry) : Prop :=
  entry.lba_start < 2 ^ 32 ∧ entry.sector_count < 2 ^ 32

theorem readEntry_small {base i : Nat} {entry : PartitionEntry}
    (h : readEntry reader base i = .ok entry) : entry.Small := by
  obtain ⟨_, -, h⟩ := bind_eq_ok.mp h
  obtain ⟨_, hstart, h⟩ := bind_eq_ok.mp h
  obtain ⟨_, hcount, h⟩ := bind_eq_ok.mp h
  obtain rfl := Except.ok.inj h
  exact ⟨readLe_lt hstart, readLe_lt hcount⟩

theorem readPartitionTable_small {lba : Nat} {entries : Vector PartitionEntry 4}
    (h : readPartitionTable reader lba = .ok entries) : ∀ entry ∈ entries.toList, entry.Small := by
  obtain ⟨_, -, h⟩ := bind_eq_ok.mp h
  obtain ⟨_, -, h⟩ := bind_eq_ok.mp h
  obtain ⟨_, hfirst, h⟩ := bind_eq_ok.mp h
  obtain ⟨_, hsecond, h⟩ := bind_eq_ok.mp h
  obtain ⟨_, hthird, h⟩ := bind_eq_ok.mp h
  obtain ⟨_, hfourth, h⟩ := bind_eq_ok.mp h
  obtain rfl := Except.ok.inj h
  intro entry hentry
  simp only [Vector.toList_mk, List.mem_cons, List.not_mem_nil, or_false] at hentry
  rcases hentry with rfl | rfl | rfl | rfl
  · exact readEntry_small hfirst
  · exact readEntry_small hsecond
  · exact readEntry_small hthird
  · exact readEntry_small hfourth

/-- The next EBR lies further on, in the extended partition. -/
theorem nextEbr_spec {start size current lba : Nat} {next : PartitionEntry} (hstart : start < 2 ^ 32)
    (hnext : next.Small) (h : nextEbr start size current next = some lba) :
    current < lba ∧ start ≤ lba ∧ lba < 2 ^ 33 := by
  obtain ⟨hlba, -⟩ := hnext
  unfold nextEbr at h
  split at h
  · cases h
  dsimp only at h
  split at h
  · cases h
  split at h
  · cases h
  rename_i hforward
  obtain rfl := Option.some.inj h
  have hexact : wrap (start + next.lba_start) = start + next.lba_start := wrap_of_lt (by omega)
  rw [hexact] at hforward ⊢
  omega

/-- The window of a logical partition lies inside the extended partition, as exact numbers. -/
theorem logicalWindow_inside {current : Nat} {logical : PartitionEntry} {w : Nat × Nat}
    (hext : extended.Small) (hlogical : logical.Small) (hlower : extended.lba_start ≤ current)
    (hcurrent : current < 2 ^ 33)
    (h : logicalWindow extended.lba_start extended.sector_count current logical = some w) :
    w = ((current + logical.lba_start) * 512, logical.sector_count * 512) ∧
      Inside extended w.1 w.2 := by
  obtain ⟨hstart, hsize⟩ := hext
  obtain ⟨hlba, hcount⟩ := hlogical
  unfold logicalWindow at h
  split at h
  · simp only [SECTOR_SIZE, wrap_of_lt (by omega : current + logical.lba_start < 2 ^ 64),
      wrap_of_lt (by omega : extended.lba_start + extended.sector_count < 2 ^ 64),
      wrap_of_lt (by omega : current + logical.lba_start + logical.sector_count < 2 ^ 64)] at h
    split at h
    · rename_i hend
      obtain rfl := Option.some.inj h
      rw [wrap_of_lt (by omega), wrap_of_lt (by omega)]
      refine ⟨rfl, ?_⟩
      unfold Inside
      dsimp only
      omega
    · cases h
  · cases h

end

/-! ## The children -/

section

variable (reader : Reader)

/-- The table at a place, where it can be read. -/
def readTable (lba : Nat) : Option (Vector PartitionEntry 4) := (readPartitionTable reader lba).toOption

/-- Where the EBR at a place of an extended partition points to. -/
def link (extended : PartitionEntry) (lba : Nat) (entries : Vector PartitionEntry 4) : Option Nat :=
  nextEbr extended.lba_start extended.sector_count lba entries[1]

/-- The EBRs that `parse_extended_chain` goes through. -/
def ebrWalk (extended : PartitionEntry) (turns : Nat) (current : Option Nat) :
    List (Nat × Vector PartitionEntry 4) :=
  LinkedWalk.follow (readTable reader) (link extended) turns current

/-- The logical partition of an EBR of an extended partition. -/
def ebrWindow (extended : PartitionEntry) (ebr : Nat × Vector PartitionEntry 4) : Option (Nat × Nat) :=
  logicalWindow extended.lba_start extended.sector_count ebr.1 ebr.2[0]

/-- The windows of the logical partitions of some EBRs. -/
def logicalWindows (extended : PartitionEntry) (walk : List (Nat × Vector PartitionEntry 4)) :
    List (Nat × Nat) :=
  walk.filterMap (ebrWindow extended)

variable {reader}

theorem readTable_eq_some {lba : Nat} {entries : Vector PartitionEntry 4} :
    readTable reader lba = some entries ↔ readPartitionTable reader lba = .ok entries := by
  unfold readTable
  cases readPartitionTable reader lba <;> simp [Except.toOption]

theorem readTable_eq_none {lba : Nat} :
    readTable reader lba = none ↔ ∃ e, readPartitionTable reader lba = .error e := by
  unfold readTable
  cases readPartitionTable reader lba <;> simp [Except.toOption]

theorem readTable_small {lba : Nat} {entries : Vector PartitionEntry 4}
    (h : readTable reader lba = some entries) :
    (getElem entries 0 first_entry).Small ∧ (getElem entries 1 second_entry).Small := by
  have hsmall := readPartitionTable_small (readTable_eq_some.mp h)
  exact ⟨hsmall _ (by simp), hsmall _ (by simp)⟩

/-- **The loop**: the children are the logical partitions of the walk, numbered from the index on. -/
theorem parseExtendedChain_eq (extended : PartitionEntry) (turns : Nat) (current : Option Nat)
    (index : Nat) :
    parseExtendedChain reader extended.lba_start extended.sector_count turns current index =
      ((logicalWindows extended (ebrWalk reader extended turns current)).mapIdx
          fun i w => window (index + i) w.1 w.2,
        index + (logicalWindows extended (ebrWalk reader extended turns current)).length) := by
  induction turns generalizing current index with
  | zero => rfl
  | succ turns ih =>
      cases current with
      | none => rfl
      | some current =>
          rw [parseExtendedChain]
          cases hread : readPartitionTable reader current with
          | error e =>
              have hwalk : ebrWalk reader extended (turns + 1) (some current) = [] :=
                LinkedWalk.follow_of_unread _ _ (readTable_eq_none.mpr ⟨e, hread⟩) _
              rw [hwalk]
              rfl
          | ok entries =>
              have hwalk : ebrWalk reader extended (turns + 1) (some current) =
                  (current, entries) :: ebrWalk reader extended turns (link extended current entries) :=
                LinkedWalk.follow_of_read _ _ (readTable_eq_some.mpr hread) turns
              rw [hwalk, logicalWindows]
              cases hwindow : ebrWindow extended (current, entries) with
              | none =>
                  have hnone : logicalWindow extended.lba_start extended.sector_count current
                    entries[0] = none := hwindow
                  rw [List.filterMap_cons_none hwindow]
                  simp only [hnone]
                  exact ih _ index
              | some w =>
                  have hsome : logicalWindow extended.lba_start extended.sector_count current
                    entries[0] = some w := hwindow
                  rw [List.filterMap_cons_some hwindow]
                  simp only [hsome]
                  rw [ih, List.mapIdx_cons, List.length_cons]
                  simp only [logicalWindows, link, Nat.add_zero, Nat.add_assoc, Nat.add_comm 1]

/-- What the chain of an extended partition goes through. -/
theorem ebrWalk_chain {extended : PartitionEntry} (hext : extended.Small) :
    EbrChain reader extended (ebrWalk reader extended MAX_LOGICAL (some extended.lba_start)) where
  head := LinkedWalk.head?_follow _ _ 255 extended.lba_start
  read ebr hebr := readTable_eq_some.mp (LinkedWalk.read_of_mem hebr)
  linked := @LinkedWalk.follow_isChain _ _ (readTable reader) (link extended) _ _
  increasing := by
    rw [List.pairwise_map]
    exact LinkedWalk.pairwise_follow (r := (· < ·)) Nat.lt_trans
      (fun _ _ _ hread hnext => (nextEbr_spec hext.1 (readTable_small hread).2 hnext).1) _ _
  stop hlength ebr hebr lba hnext :=
    readTable_eq_none.mp (LinkedWalk.follow_stop hebr hlength hnext)

/-- Every logical partition of the walk lies inside the extended partition. -/
theorem logicalWindows_inside {extended : PartitionEntry} (hext : extended.Small) :
    ∀ w ∈ logicalWindows extended (ebrWalk reader extended MAX_LOGICAL (some extended.lba_start)),
      Inside extended w.1 w.2 := by
  intro w hw
  obtain ⟨ebr, hebr, hwindow⟩ := List.mem_filterMap.mp hw
  obtain ⟨⟨hlower, hupper⟩, hread⟩ := LinkedWalk.forall_mem_follow
    (P := fun lba => extended.lba_start ≤ lba ∧ lba < 2 ^ 33)
    (fun _ _ _ _ hread hnext => (nextEbr_spec hext.1 (readTable_small hread).2 hnext).2)
    (by rintro lba ⟨⟩; have := hext.1; omega) ebr hebr
  exact (logicalWindow_inside hext (readTable_small hread).1 hlower hupper hwindow).2

/-- The logical partitions among the children of some entries. -/
def logicalKids (entries : List (PartitionEntry × Nat)) (kids : List (List Child)) : List Child :=
  ((entries.zip kids).filter fun e => e.1.1.isExtended).flatMap Prod.snd

theorem isSkipped_of_isExtended {entry : PartitionEntry} (h : entry.isExtended) :
    entry.isSkipped = false := by
  unfold PartitionEntry.isExtended TYPE_EXTENDED_CHS TYPE_EXTENDED_LBA at h
  unfold PartitionEntry.isSkipped TYPE_EMPTY TYPE_GPT_PROTECTIVE
  simp only [Bool.or_eq_true, beq_iff_eq] at h
  simp only [Bool.or_eq_false_iff, beq_eq_false_iff_ne]
  omega

/-- The indices of windows that are numbered. -/
theorem index_mapIdx_window (windows : List (Nat × Nat)) (index : Nat) :
    (windows.mapIdx fun i w => window (index + i) w.1 w.2).map Child.index =
      (List.range' index windows.length).map UInt32.ofNat := by
  induction windows generalizing index with
  | nil => rfl
  | cons w rest ih =>
      rw [List.mapIdx_cons, List.map_cons, List.length_cons, List.range'_succ, List.map_cons]
      simp only [← ih (index + 1), window, Nat.add_zero, Nat.add_assoc, Nat.add_comm 1]

/-- **The loop over the entries.** -/
theorem slotChildren_spec (entries : List (PartitionEntry × Nat))
    (hsmall : ∀ e ∈ entries, e.1.Small) (index : Nat) :
    ∃ kids, List.Forall₂ (fun e => SlotChildren reader e.1 e.2) entries kids ∧
      slotChildren reader entries index = kids.flatten ∧
      (logicalKids entries kids).map Child.index =
        (List.range' index (logicalKids entries kids).length).map UInt32.ofNat := by
  induction entries generalizing index with
  | nil => exact ⟨[], .nil, rfl, rfl⟩
  | cons e rest ih =>
      obtain ⟨entry, slot⟩ := e
      rw [List.forall_mem_cons] at hsmall
      obtain ⟨hentry, hrest⟩ := hsmall
      rw [slotChildren]
      by_cases hskip : entry.isSkipped
      · obtain ⟨kids, hkids, heq, hindex⟩ := ih hrest index
        have hext : entry.isExtended = false := by
          by_contra hne
          rw [isSkipped_of_isExtended (by simpa using hne)] at hskip
          cases hskip
        refine ⟨[] :: kids, .cons (.skipped hskip) hkids, ?_, ?_⟩
        · rw [if_pos hskip, heq, List.flatten_cons, List.nil_append]
        · simpa [logicalKids, hext] using hindex
      · rw [if_neg hskip]
        rw [Bool.not_eq_true] at hskip
        by_cases hext : entry.isExtended
        · rw [if_pos hext, parseExtendedChain_eq]
          obtain ⟨kids, hkids, heq, hindex⟩ := ih hrest (index + (logicalWindows entry
            (ebrWalk reader entry MAX_LOGICAL (some entry.lba_start))).length)
          refine ⟨_ :: kids, .cons (.extended hext _ index _ (ebrWalk_chain hentry) rfl
            (logicalWindows_inside hentry)) hkids, ?_, ?_⟩
          · dsimp only
            rw [heq, List.flatten_cons]
            rfl
          · simp only [logicalKids, List.zip_cons_cons, List.filter_cons, hext, if_true,
              List.flatMap_cons, List.map_append, List.length_append, List.length_mapIdx] at hindex ⊢
            rw [hindex, List.range'_append_1.symm, List.map_append]
            congr 1
            exact index_mapIdx_window _ index
        · rw [if_neg hext]
          rw [Bool.not_eq_true] at hext
          obtain ⟨kids, hkids, heq, hindex⟩ := ih hrest index
          refine ⟨_ :: kids, .cons (.primary hskip hext) hkids, ?_, ?_⟩
          · rw [heq, List.flatten_cons, primaryChildren]
            have hstart : entry.lba_start < 2 ^ 32 := hentry.1
            have hcount : entry.sector_count < 2 ^ 32 := hentry.2
            rw [SECTOR_SIZE, wrap_of_lt (by omega), wrap_of_lt (by omega)]
          · simpa [logicalKids, hext] using hindex

end

/-- The boot signature stands at the end of the first sector. -/
def Signed (image : Image) : Prop := image.bytes.slice 510 2 = [0x55, 0xAA]

theorem readPartitionTable_signed {image : Image} (h : Signed image) :
    ∃ entries, readPartitionTable (fileReader image) 0 = .ok entries := by
  have hlength : 512 ≤ image.bytes.length := by
    have := congrArg List.length h
    rw [List.length_slice] at this
    simp only [List.length_cons, List.length_nil] at this
    omega
  have hsig : readLe (fileReader image) 2 510 = .ok BOOT_SIG := by
    rw [readLe_fileReader (by omega) (by omega), leField, show image.bytes.slice 510 2 = _ from h]
    rfl
  have hentry : ∀ i < 4, ∃ entry, readEntry (fileReader image) 0 i = .ok entry := by
    intro i hi
    rw [readEntry, readLe_fileReader (by omega) (by omega), Except.ok_bind,
      readLe_fileReader (by omega) (by omega), Except.ok_bind, readLe_fileReader (by omega) (by omega)]
    exact ⟨_, rfl⟩
  obtain ⟨first, hfirst⟩ := hentry 0 (by omega)
  obtain ⟨second, hsecond⟩ := hentry 1 (by omega)
  obtain ⟨third, hthird⟩ := hentry 2 (by omega)
  obtain ⟨fourth, hfourth⟩ := hentry 3 (by omega)
  refine ⟨#v[first, second, third, fourth], ?_⟩
  have hbase : wrap (0 * SECTOR_SIZE) = 0 := rfl
  unfold readPartitionTable
  dsimp only
  rw [hbase, Nat.zero_add, hsig, Except.ok_bind, require, if_pos rfl, Except.ok_bind, hfirst,
    Except.ok_bind, hsecond, Except.ok_bind, hthird, Except.ok_bind, hfourth]
  rfl

/-- The children of an MBR, by the entries of its table: those of each entry, in the order of the
table; the logical partitions of all extended partitions are numbered from 4 on. -/
structure MbrChildren (image : Image) (entries : Vector PartitionEntry 4) (kids : List (List Child)) :
    Prop where
  table : readPartitionTable (fileReader image) 0 = .ok entries
  children : MBR (fileReader image) = .ok kids.flatten
  slots : List.Forall₂ (fun e => SlotChildren (fileReader image) e.1 e.2) entries.toList.zipIdx kids
  indices : (logicalKids entries.toList.zipIdx kids).map Child.index =
    (List.range' 4 (logicalKids entries.toList.zipIdx kids).length).map UInt32.ofNat

/-- **The children of an MBR.** For every image with a boot signature the table is read, and no
EBR that cannot be read takes a child away that another entry or an EBR before it has. -/
theorem mbr_logical_partitions (image : Image) (h : Signed image) :
    ∃ entries kids, MbrChildren image entries kids := by
  obtain ⟨entries, hentries⟩ := readPartitionTable_signed h
  obtain ⟨kids, hkids, heq, hindex⟩ := @slotChildren_spec (fileReader image)
    entries.toList.zipIdx (fun e he => readPartitionTable_small hentries _
      (List.fst_mem_of_mem_zipIdx he)) FIRST_LOGICAL_INDEX
  refine ⟨entries, kids, hentries, ?_, hkids, hindex⟩
  show (readPartitionTable (fileReader image) 0 >>= _) = _
  rw [hentries, Except.ok_bind, heq]
  rfl

/-- A sector that ends with the boot signature, with one entry: its type, start and count. -/
def entrySector (type_code lba_start sector_count : UInt8) : Bytes :=
  List.replicate 450 0 ++ [type_code, 0, 0, 0, lba_start, 0, 0, 0, sector_count, 0, 0, 0] ++
    List.replicate 48 0 ++ [0x55, 0xAA]

/-- An extended partition of two sectors, with a logical partition of one. -/
def extendedImage : Image :=
  ⟨entrySector 0x05 1 2 ++ entrySector 0x83 1 1 ++ List.replicate 512 0, by decide +kernel⟩

theorem extendedImage_children : ∃ entries kids, MbrChildren extendedImage entries kids :=
  mbr_logical_partitions extendedImage (by unfold Signed; decide +kernel)

end Mountin.Mbr
