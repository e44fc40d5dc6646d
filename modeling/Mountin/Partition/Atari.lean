import Mountin.Basic.LinkedWalk
import Mountin.Basic.Splice
import Mountin.Partition.Windows

set_option autoImplicit false

/-! # Atari partition tables

`atari.rs`: four primary entries in the root sector. An entry of type XGM is a chain of sectors, each
with one partition and a link to the next; without such an entry there may be a second table (ICD).

* `parseXgmChain_eq_ok` : the loop over a chain is a walk.
* `xgm_soft_iff` : when the children are those that can be found.
-/

namespace Mountin.Atari

open Partition Tracks

/-- `PRIMARY_TABLE_OFFSET`. -/
def PRIMARY_TABLE_OFFSET : Nat := 0x1c6

/-- `ICD_TABLE_OFFSET`. -/
def ICD_TABLE_OFFSET : Nat := 0x156

/-- `HD_SIZ_OFFSET`. -/
def HD_SIZ_OFFSET : Nat := 0x1c2

/-- `MAX_XGM_CHAIN`. -/
def MAX_XGM_CHAIN : Nat := 256

/-- `ICD_VALID_IDS`: "GEM", "BGM", "LNX", "SWP", "RAW". -/
def ICD_VALID_IDS : List Bytes :=
  [[0x47, 0x45, 0x4d], [0x42, 0x47, 0x4d], [0x4c, 0x4e, 0x58], [0x53, 0x57, 0x50], [0x52, 0x41, 0x57]]

/-- The type of an extended partition: "XGM". -/
def XGM_ID : Bytes := [0x58, 0x47, 0x4d]

/-- `struct PartitionEntry`. -/
structure PartitionEntry where
  flags : Nat
  id : Bytes
  start : Nat
  size : Nat

/-- `is_ascii_alphanumeric`. -/
def isAsciiAlphanumeric (c : UInt8) : Bool :=
  (0x30 ≤ c && c ≤ 0x39) || (0x41 ≤ c && c ≤ 0x5a) || (0x61 ≤ c && c ≤ 0x7a)

/-- `is_valid_partition`. -/
def isValidPartition (hd_siz : Nat) (entry : PartitionEntry) : Bool :=
  entry.flags % 2 == 1 && entry.id.all isAsciiAlphanumeric && decide (entry.start ≤ hd_siz) &&
    -- `saturating_add`
    decide (min (entry.start + entry.size) (2 ^ 32 - 1) ≤ hd_siz)

/-- `read_partition_entry`. -/
def readPartitionEntry (reader : Reader) (offset : Nat) : Except IoError PartitionEntry := do
  let flags ← readBe reader 1 offset
  let id ← readBytes reader (offset + 1) 3
  let start ← readBe reader 4 (offset + 4)
  let size ← readBe reader 4 (offset + 8)
  return ⟨flags, id, start, size⟩

/-- `add_partition`. -/
def addPartition (entry : PartitionEntry) (index : Nat) : List Child :=
  if entry.start = 0 ∨ entry.size = 0 then []
  else [window index (wrap (entry.start * SECTOR_SIZE)) (wrap (entry.size * SECTOR_SIZE))]

/-- The two entries of a sector of a chain that are used: the partition, and the next sector. -/
def readXgmSector (reader : Reader) (current_sect : Nat) :
    Except IoError (PartitionEntry × PartitionEntry) := do
  let base := wrap (current_sect * SECTOR_SIZE)
  let entry0 ← readPartitionEntry reader (base + PRIMARY_TABLE_OFFSET)
  let entry1 ← readPartitionEntry reader (base + PRIMARY_TABLE_OFFSET + 12)
  return (entry0, entry1)

/-- The window of the partition of a sector: its entry 0 is relative to this sector. -/
def xgmWindow (hd_siz current_sect : Nat) (entry0 : PartitionEntry) : Option (Nat × Nat) :=
  if entry0.flags % 2 = 1 ∧ 0 < entry0.start ∧ 0 < entry0.size then
    let abs_start := current_sect + entry0.start
    if abs_start + entry0.size ≤ hd_siz then
      some (wrap (abs_start * SECTOR_SIZE), wrap (entry0.size * SECTOR_SIZE))
    else none
  else none

/-- The sector that a sector points to: its entry 1 is relative to the first sector of the chain. -/
def nextXgm (hd_siz extension_sect current_sect : Nat) (entry1 : PartitionEntry) : Option Nat :=
  if entry1.id ≠ XGM_ID ∨ entry1.start = 0 then none
  else
    let next_sect := extension_sect + entry1.start
    -- it must move forward
    if next_sect ≤ current_sect ∨ hd_siz ≤ next_sect then none else some next_sect

/-- `parse_xgm_chain`, with the turns that are left: the children, and `partition_index`. -/
def parseXgmChain (reader : Reader) (extension_sect hd_siz : Nat) :
    Nat → Option Nat → Nat → Except IoError (List Child × Nat)
  | 0, _, partition_index => .ok ([], partition_index)
  | _ + 1, none, partition_index => .ok ([], partition_index)
  | turns + 1, some current_sect, partition_index => do
    let (entry0, entry1) ← readXgmSector reader current_sect
    let next := nextXgm hd_siz extension_sect current_sect entry1
    match xgmWindow hd_siz current_sect entry0 with
    | none => parseXgmChain reader extension_sect hd_siz turns next partition_index
    | some (start, length) => do
        let (kids, index) ← parseXgmChain reader extension_sect hd_siz turns next (partition_index + 1)
        return (window partition_index start length :: kids, index)

/-- The loop over the primary entries: the children, `partition_index` and `has_xgm`. -/
def primaryChildren (reader : Reader) (hd_siz : Nat) :
    List Nat → Nat → Except IoError (List Child × Nat × Bool)
  | [], partition_index => .ok ([], partition_index, false)
  | offset :: rest, partition_index => do
    let entry ← readPartitionEntry reader offset
    if !isValidPartition hd_siz entry then primaryChildren reader hd_siz rest partition_index
    else if entry.id = XGM_ID then do
      let (kids, partition_index) ←
        parseXgmChain reader entry.start hd_siz MAX_XGM_CHAIN (some entry.start) partition_index
      let (more, partition_index, _) ← primaryChildren reader hd_siz rest partition_index
      return (kids ++ more, partition_index, true)
    else do
      let (more, partition_index', has_xgm) ← primaryChildren reader hd_siz rest (partition_index + 1)
      return (addPartition entry partition_index ++ more, partition_index', has_xgm)

/-- The loop over the entries of the second table. -/
def icdChildren (reader : Reader) (hd_siz : Nat) : List Nat → Nat → Except IoError (List Child)
  | [], _ => .ok []
  | offset :: rest, partition_index => do
    let entry ← readPartitionEntry reader offset
    if !isValidPartition hd_siz entry then icdChildren reader hd_siz rest partition_index
    else do
      let more ← icdChildren reader hd_siz rest (partition_index + 1)
      return addPartition entry partition_index ++ more

/-- The offsets of the entries of a table. -/
def tableOffsets (offset count : Nat) : List Nat := (List.range count).map fun i => offset + i * 12

/-- `parse_icd_partitions`. -/
def parseIcdPartitions (reader : Reader) (hd_siz partition_index : Nat) :
    Except IoError (List Child) := do
  let first_entry ← readPartitionEntry reader ICD_TABLE_OFFSET
  if first_entry.id ∉ ICD_VALID_IDS then return []
  else icdChildren reader hd_siz (tableOffsets ICD_TABLE_OFFSET 8) partition_index

/-- `ATARI`. -/
def ATARI : Container := fun reader => do
  let hd_siz ← readBe reader 4 HD_SIZ_OFFSET
  let (kids, partition_index, has_xgm) ←
    primaryChildren reader hd_siz (tableOffsets PRIMARY_TABLE_OFFSET 4) 0
  if has_xgm then return kids
  else do
    let icd ← parseIcdPartitions reader hd_siz partition_index
    return kids ++ icd

/-! ## The walk of a chain -/

section

variable (reader : Reader) (hd_siz : Nat)

/-- The entries of a sector, where it can be read. -/
def xgmSector (sect : Nat) : Option (PartitionEntry × PartitionEntry) :=
  (readXgmSector reader sect).toOption

/-- The sector that a sector of the chain of an entry points to. -/
def xgmLink (entry : PartitionEntry) (sect : Nat) (entries : PartitionEntry × PartitionEntry) :
    Option Nat :=
  nextXgm hd_siz entry.start sect entries.2

/-- The sectors of the chain of an entry: up to the first that cannot be read. -/
def xgmWalk (entry : PartitionEntry) (turns : Nat) (sect : Option Nat) :
    List (Nat × (PartitionEntry × PartitionEntry)) :=
  LinkedWalk.follow (xgmSector reader) (xgmLink hd_siz entry) turns sect

/-- The partition of a sector of a chain. -/
def sectorWindow (x : Nat × (PartitionEntry × PartitionEntry)) : Option (Nat × Nat) :=
  xgmWindow hd_siz x.1 x.2.1

/-- The partitions of some sectors of a chain. -/
def xgmWindows (walk : List (Nat × (PartitionEntry × PartitionEntry))) : List (Nat × Nat) :=
  walk.filterMap (sectorWindow hd_siz)

/-- A walk ends at no sector that cannot be read. -/
def WalkReadable (entry : PartitionEntry) (turns : Nat) (sect : Option Nat) : Prop :=
  LinkedWalk.stop (xgmSector reader) (xgmLink hd_siz entry) turns sect = none

variable {reader hd_siz}

theorem xgmSector_eq_some {sect : Nat} {entries : PartitionEntry × PartitionEntry} :
    xgmSector reader sect = some entries ↔ readXgmSector reader sect = .ok entries := by
  rw [xgmSector]
  cases readXgmSector reader sect <;> simp [Except.toOption]

/-- **The loop over a chain** returns when all sectors of the chain can be read: the partitions of the
walk, numbered from the index on. -/
theorem parseXgmChain_eq_ok (entry : PartitionEntry) {turns : Nat} {sect : Option Nat} {index : Nat}
    {found : List Child × Nat} :
    parseXgmChain reader entry.start hd_siz turns sect index = .ok found ↔
      WalkReadable reader hd_siz entry turns sect ∧
        found = (numbered index (xgmWindows hd_siz (xgmWalk reader hd_siz entry turns sect)),
          index + (xgmWindows hd_siz (xgmWalk reader hd_siz entry turns sect)).length) := by
  induction turns generalizing sect index found with
  | zero =>
      rw [parseXgmChain, Except.ok.injEq, and_iff_right (by rfl : WalkReadable reader hd_siz entry 0 sect)]
      exact eq_comm
  | succ turns ih =>
      cases sect with
      | none =>
          rw [parseXgmChain, Except.ok.injEq,
            and_iff_right (by rfl : WalkReadable reader hd_siz entry (turns + 1) none)]
          exact eq_comm
      | some sect =>
          rw [parseXgmChain]
          cases hread : readXgmSector reader sect with
          | error e =>
              have hnone : xgmSector reader sect = none := by rw [xgmSector, hread]; rfl
              refine iff_of_false (by rintro ⟨⟩) fun h => ?_
              have hstop := h.1
              rw [WalkReadable, LinkedWalk.stop, hnone] at hstop
              cases hstop
          | ok entries =>
              have hsome := xgmSector_eq_some.mpr hread
              have hwalk : xgmWalk reader hd_siz entry (turns + 1) (some sect) =
                  (sect, entries) :: xgmWalk reader hd_siz entry turns (xgmLink hd_siz entry sect entries) :=
                LinkedWalk.follow_of_read _ _ hsome turns
              have hstop : WalkReadable reader hd_siz entry (turns + 1) (some sect) ↔
                  WalkReadable reader hd_siz entry turns (xgmLink hd_siz entry sect entries) := by
                rw [WalkReadable, LinkedWalk.stop, hsome, WalkReadable]
              rw [hwalk, hstop, xgmWindows, Except.ok_bind]
              obtain ⟨entry0, entry1⟩ := entries
              cases hwindow : sectorWindow hd_siz (sect, entry0, entry1) with
              | none =>
                  have hnone : xgmWindow hd_siz sect entry0 = none := hwindow
                  rw [List.filterMap_cons_none hwindow]
                  simp only [hnone]
                  exact ih
              | some w =>
                  have hsome : xgmWindow hd_siz sect entry0 = some w := hwindow
                  rw [List.filterMap_cons_some hwindow, numbered_cons, List.length_cons]
                  simp only [hsome, bind_eq_ok, pure, Except.pure, Except.ok.injEq, Prod.exists]
                  constructor
                  · rintro ⟨kids, index', hrest, rfl⟩
                    obtain ⟨hreadable, hfound⟩ := ih.mp hrest
                    obtain ⟨rfl, rfl⟩ := Prod.mk.inj hfound
                    exact ⟨hreadable, Prod.ext rfl (Nat.add_right_comm _ _ _)⟩
                  · rintro ⟨hreadable, rfl⟩
                    exact ⟨_, _, ih.mpr ⟨hreadable, rfl⟩, Prod.ext rfl (Nat.add_right_comm _ _ _)⟩

end

/-! ## The root sector -/

/-- The root sector can be read. -/
structure Root (reader : Reader) (root : Bytes) : Prop where
  length : root.length = 512
  readAt : ∀ off len, off + len ≤ 512 → reader.readAt off len = .ok (root.slice off len)

/-- The entry at an offset of a sector. -/
def entryAt (root : Bytes) (offset : Nat) : PartitionEntry where
  flags := beField root offset 1
  id := root.slice (offset + 1) 3
  start := beField root (offset + 4) 4
  size := beField root (offset + 8) 4

/-- `hd_siz`. -/
def hdSiz (root : Bytes) : Nat := beField root HD_SIZ_OFFSET 4

/-- The valid entries at some offsets. -/
def validEntries (root : Bytes) (offsets : List Nat) : List PartitionEntry :=
  (offsets.map (entryAt root)).filter (isValidPartition (hdSiz root))

/-- The valid primary entries. -/
def primaries (root : Bytes) : List PartitionEntry :=
  validEntries root (tableOffsets PRIMARY_TABLE_OFFSET 4)

/-- The partitions of the chain of an entry, as far as it can be read. -/
def chainWindows (reader : Reader) (hd_siz : Nat) (entry : PartitionEntry) : List (Nat × Nat) :=
  xgmWindows hd_siz (xgmWalk reader hd_siz entry MAX_XGM_CHAIN (some entry.start))

/-- The children of an entry and the index after them. -/
def entryChildren (reader : Reader) (hd_siz : Nat) (entry : PartitionEntry) (index : Nat) :
    List Child × Nat :=
  if entry.id = XGM_ID then
    (numbered index (chainWindows reader hd_siz entry),
      index + (chainWindows reader hd_siz entry).length)
  else (addPartition entry index, index + 1)

/-- The children of some entries and the index after them. -/
def softPrimary (reader : Reader) (hd_siz : Nat) : List PartitionEntry → Nat → List Child × Nat
  | [], index => ([], index)
  | entry :: rest, index =>
      let found := entryChildren reader hd_siz entry index
      let more := softPrimary reader hd_siz rest found.2
      (found.1 ++ more.1, more.2)

/-- The children of the second table. -/
def softIcd (root : Bytes) (index : Nat) : List Child :=
  if (entryAt root ICD_TABLE_OFFSET).id ∈ ICD_VALID_IDS then
    ((validEntries root (tableOffsets ICD_TABLE_OFFSET 8)).mapIdx fun i entry =>
      addPartition entry (index + i)).flatten
  else []

/-- What can be found: every primary partition, and of every chain the partitions before a sector
that cannot be read. -/
def softChildren (reader : Reader) (root : Bytes) : List Child :=
  let found := softPrimary reader (hdSiz root) (primaries root) 0
  if (primaries root).any fun entry => decide (entry.id = XGM_ID) then found.1
  else found.1 ++ softIcd root found.2

section

variable {reader : Reader} {root : Bytes}

theorem Root.readBytes_eq (h : Root reader root) {off len : Nat} (hend : off + len ≤ 512) :
    readBytes reader off len = .ok (root.slice off len) := by
  have hlength : (root.slice off len).length = len := by
    rw [List.length_slice, h.length]
    omega
  rw [readBytes, readExactly, wrap_of_lt (by omega), h.readAt off len hend, Except.ok_bind, require,
    if_pos hlength]
  rfl

theorem Root.readBe_eq (h : Root reader root) {off width : Nat} (hend : off + width ≤ 512) :
    readBe reader width off = .ok (beField root off width) := by
  rw [readBe, h.readBytes_eq hend]
  rfl

theorem Root.readPartitionEntry_eq (h : Root reader root) {offset : Nat} (hend : offset + 12 ≤ 512) :
    readPartitionEntry reader offset = .ok (entryAt root offset) := by
  rw [readPartitionEntry, h.readBe_eq (by omega), Except.ok_bind, h.readBytes_eq (by omega),
    Except.ok_bind, h.readBe_eq (by omega), Except.ok_bind, h.readBe_eq (by omega)]
  rfl

/-- An entry is skipped, or it is the next valid one. -/
theorem validEntries_cons (root : Bytes) (offset : Nat) (rest : List Nat) :
    validEntries root (offset :: rest) =
      if isValidPartition (hdSiz root) (entryAt root offset) then
        entryAt root offset :: validEntries root rest
      else validEntries root rest := by
  rw [validEntries, List.map_cons, List.filter_cons]
  rfl

/-- **The loop over the primary entries** returns when all chains can be read. -/
theorem primaryChildren_eq_ok (h : Root reader root) {offsets : List Nat}
    (hoffsets : ∀ offset ∈ offsets, offset + 12 ≤ 512) {index : Nat} {found : List Child × Nat × Bool} :
    primaryChildren reader (hdSiz root) offsets index = .ok found ↔
      (∀ entry ∈ validEntries root offsets, entry.id = XGM_ID →
        WalkReadable reader (hdSiz root) entry MAX_XGM_CHAIN (some entry.start)) ∧
      found = ((softPrimary reader (hdSiz root) (validEntries root offsets) index).1,
        (softPrimary reader (hdSiz root) (validEntries root offsets) index).2,
        (validEntries root offsets).any fun entry => decide (entry.id = XGM_ID)) := by
  induction offsets generalizing index found with
  | nil =>
      rw [primaryChildren, Except.ok.injEq, eq_comm]
      exact (and_iff_right fun entry hentry => absurd hentry List.not_mem_nil).symm
  | cons offset rest ih =>
      have hentry := h.readPartitionEntry_eq (hoffsets offset List.mem_cons_self)
      have ih := @ih fun offset hmem => hoffsets offset (List.mem_cons_of_mem _ hmem)
      rw [primaryChildren, hentry, Except.ok_bind, validEntries_cons]
      generalize entryAt root offset = entry
      by_cases hvalid : isValidPartition (hdSiz root) entry
      · simp only [hvalid, Bool.not_true, Bool.false_eq_true, if_false, if_true, List.forall_mem_cons,
          List.any_cons, softPrimary]
        by_cases hxgm : entry.id = XGM_ID
        · simp only [hxgm, if_true, true_imp_iff, decide_true, Bool.true_or, entryChildren, bind_eq_ok,
            Prod.exists, parseXgmChain_eq_ok, ih, Prod.mk.injEq, pure, Except.pure, Except.ok.injEq]
          constructor
          · rintro ⟨_, _, ⟨hwalk, rfl, rfl⟩, _, _, _, ⟨hrest, rfl, rfl, -⟩, rfl⟩
            exact ⟨⟨hwalk, hrest⟩, rfl⟩
          · rintro ⟨⟨hwalk, hrest⟩, rfl⟩
            exact ⟨_, _, ⟨hwalk, rfl, rfl⟩, _, _, _, ⟨hrest, rfl, rfl, rfl⟩, rfl⟩
        · simp only [hxgm, if_false, false_imp_iff, true_and, decide_false, Bool.false_or, entryChildren,
            bind_eq_ok, Prod.exists, ih, Prod.mk.injEq, pure, Except.pure, Except.ok.injEq]
          constructor
          · rintro ⟨_, _, _, ⟨hrest, rfl, rfl, rfl⟩, rfl⟩
            exact ⟨hrest, rfl⟩
          · rintro ⟨hrest, rfl⟩
            exact ⟨_, _, _, ⟨hrest, rfl, rfl, rfl⟩, rfl⟩
      · simp only [hvalid, Bool.not_false, if_true, Bool.false_eq_true, if_false]
        exact ih

theorem icdChildren_eq (h : Root reader root) {offsets : List Nat}
    (hoffsets : ∀ offset ∈ offsets, offset + 12 ≤ 512) (index : Nat) :
    icdChildren reader (hdSiz root) offsets index =
      .ok ((validEntries root offsets).mapIdx fun i entry => addPartition entry (index + i)).flatten := by
  induction offsets generalizing index with
  | nil => rfl
  | cons offset rest ih =>
      have hentry := h.readPartitionEntry_eq (hoffsets offset List.mem_cons_self)
      have ih := ih fun offset hmem => hoffsets offset (List.mem_cons_of_mem _ hmem)
      rw [icdChildren, hentry, Except.ok_bind, validEntries_cons]
      by_cases hvalid : isValidPartition (hdSiz root) (entryAt root offset)
      · simp only [hvalid, Bool.not_true, Bool.false_eq_true, if_false, if_true, ih, Except.ok_bind,
          List.mapIdx_cons, List.flatten_cons, Nat.add_zero, Nat.add_assoc, Nat.add_comm 1]
        rfl
      · simp only [hvalid, Bool.not_false, if_true, Bool.false_eq_true, if_false]
        exact ih index

theorem parseIcdPartitions_eq (h : Root reader root) (index : Nat) :
    parseIcdPartitions reader (hdSiz root) index = .ok (softIcd root index) := by
  rw [parseIcdPartitions, h.readPartitionEntry_eq (by decide), Except.ok_bind, softIcd]
  by_cases hid : (entryAt root ICD_TABLE_OFFSET).id ∈ ICD_VALID_IDS
  · rw [if_neg (not_not_intro hid), if_pos hid]
    exact icdChildren_eq h (by decide) index
  · rw [if_pos hid, if_neg hid]
    rfl

/-- The children are found, when all chains can be read. -/
theorem children_eq_ok (h : Root reader root) {kids : List Child} :
    ATARI reader = .ok kids ↔
      (∀ entry ∈ primaries root, entry.id = XGM_ID →
        WalkReadable reader (hdSiz root) entry MAX_XGM_CHAIN (some entry.start)) ∧
      kids = softChildren reader root := by
  have hoffsets : ∀ offset ∈ tableOffsets PRIMARY_TABLE_OFFSET 4, offset + 12 ≤ 512 := by decide
  -- the second table is read without an error
  have hfinish : ∀ (kids : List Child) (index : Nat) (has_xgm : Bool),
      (if has_xgm then return kids
        else do
          let icd ← parseIcdPartitions reader (hdSiz root) index
          return kids ++ icd : Except IoError (List Child)) =
        .ok (if has_xgm then kids else kids ++ softIcd root index) := by
    intro kids index has_xgm
    cases has_xgm
    · rw [if_neg Bool.false_ne_true, if_neg Bool.false_ne_true, parseIcdPartitions_eq h]
      rfl
    · rfl
  rw [ATARI, h.readBe_eq (by decide), Except.ok_bind, ← hdSiz]
  simp only [bind_eq_ok (x := primaryChildren _ _ _ _), Prod.exists, hfinish, Except.ok.injEq,
    primaryChildren_eq_ok h hoffsets, Prod.mk.injEq]
  constructor
  · rintro ⟨_, _, _, ⟨hwalks, rfl, rfl, rfl⟩, rfl⟩
    exact ⟨hwalks, rfl⟩
  · rintro ⟨hwalks, rfl⟩
    exact ⟨_, _, _, ⟨hwalks, rfl, rfl, rfl⟩, rfl⟩

/-- The sectors of a chain lie further and further on. -/
theorem xgmWalk_increasing (entry : PartitionEntry) (hd_siz turns : Nat) (sect : Option Nat) :
    ((xgmWalk reader hd_siz entry turns sect).map Prod.fst).Pairwise (· < ·) := by
  rw [List.pairwise_map]
  refine LinkedWalk.pairwise_follow (r := (· < ·)) Nat.lt_trans (fun sect entries next _ hnext => ?_) _ _
  obtain ⟨-, hnext⟩ := Option.ite_none_left_eq_some.mp hnext
  obtain ⟨hforward, hnext⟩ := Option.ite_none_left_eq_some.mp hnext
  obtain rfl := Option.some.inj hnext
  omega

/-- The partition of a sector of a chain lies on the disk. -/
theorem xgmWindow_inside {hd_siz sect : Nat} {entry : PartitionEntry} {w : Nat × Nat}
    (hsize : hd_siz < 2 ^ 32) (h : xgmWindow hd_siz sect entry = some w) :
    w.1 + w.2 ≤ hd_siz * SECTOR_SIZE := by
  obtain ⟨-, h⟩ := Option.ite_none_right_eq_some.mp h
  obtain ⟨hend, h⟩ := Option.ite_none_right_eq_some.mp h
  obtain rfl := Option.some.inj h
  simp only [SECTOR_SIZE, wrap_of_lt (by omega : (sect + entry.start) * 512 < 2 ^ 64),
    wrap_of_lt (by omega : entry.size * 512 < 2 ^ 64)]
  omega

end

/-- **Chains that fail softly**: the children are all that can be found exactly when no chain comes to
a sector that cannot be read. The sectors of a chain always lie further and further on, and its
partitions on the disk. -/
theorem xgm_soft_iff (reader : Reader) (root : Bytes) (h : Root reader root) :
    (ATARI reader = .ok (softChildren reader root) ↔
      ∀ entry ∈ primaries root, entry.id = XGM_ID →
        WalkReadable reader (hdSiz root) entry MAX_XGM_CHAIN (some entry.start)) ∧
    ∀ entry ∈ primaries root, entry.id = XGM_ID →
      ((xgmWalk reader (hdSiz root) entry MAX_XGM_CHAIN (some entry.start)).map Prod.fst).Pairwise
          (· < ·) ∧
        ∀ w ∈ chainWindows reader (hdSiz root) entry, w.1 + w.2 ≤ hdSiz root * SECTOR_SIZE := by
  refine ⟨(children_eq_ok h).trans (and_iff_left rfl), fun entry _ _ => ⟨xgmWalk_increasing _ _ _ _, ?_⟩⟩
  intro w hw
  obtain ⟨sector, -, hwindow⟩ := List.mem_filterMap.mp hw
  exact xgmWindow_inside (beField_lt _ _ _) hwindow

/-! ## A short image -/

/-- The root sector of a disk of four sectors: a partition in sector 1, and a chain from sector 2 on. -/
def rootBytes : Bytes :=
  List.replicate 0x1c2 0 ++ [0, 0, 0, 4] ++ [1, 0x47, 0x45, 0x4d, 0, 0, 0, 1, 0, 0, 0, 1] ++
    [1, 0x58, 0x47, 0x4d, 0, 0, 0, 2, 0, 0, 0, 2] ++ List.replicate 34 0

theorem root_fileReader {image : Image} {root tail : Bytes} (hbytes : image.bytes = root ++ tail)
    (hlength : root.length = 512) : Root (fileReader image) root where
  length := hlength
  readAt off len hend := by
    have hlimit : FILE_OFFSET_LIMIT = 2 ^ 63 := rfl
    rw [fileReader_readAt _ _ (by omega), hbytes, List.slice_append_left _ (by omega)]

/-- The image ends after the root sector. -/
def shortImage : Image := ⟨rootBytes, by decide +kernel⟩

/-- The chain has one sector, with a partition in the sector after it. -/
def wholeImage : Image :=
  ⟨rootBytes ++ (List.replicate 512 0 ++ List.replicate 0x1c6 0 ++
    [1, 0x47, 0x45, 0x4d, 0, 0, 0, 1, 0, 0, 0, 1] ++ List.replicate 46 0), by decide +kernel⟩

theorem root_shortImage : Root (fileReader shortImage) rootBytes :=
  root_fileReader (List.append_nil rootBytes).symm (by decide +kernel)

theorem root_wholeImage : Root (fileReader wholeImage) rootBytes :=
  root_fileReader rfl (by decide +kernel)

set_option maxRecDepth 4000 in
theorem primaries_rootBytes :
    primaries rootBytes = [⟨1, [0x47, 0x45, 0x4d], 1, 1⟩, ⟨1, XGM_ID, 2, 2⟩] := by
  rfl

set_option maxRecDepth 8000 in
/-- **A chain beyond the end of the image** takes the primary partition away. -/
theorem short_image_fails :
    Root (fileReader shortImage) rootBytes ∧
      softChildren (fileReader shortImage) rootBytes = [window 0 512 512] ∧
      ATARI (fileReader shortImage) = .error (.unexpectedEof "short read") := by
  refine ⟨root_shortImage, ?_, ?_⟩
  · rfl
  · rfl

set_option maxRecDepth 16000 in
theorem whole_image_found :
    ATARI (fileReader wholeImage) = .ok (softChildren (fileReader wholeImage) rootBytes) := by
  refine (xgm_soft_iff (fileReader wholeImage) rootBytes root_wholeImage).1.mpr ?_
  rw [primaries_rootBytes]
  simp only [List.mem_cons, List.not_mem_nil, or_false, forall_eq_or_imp, forall_eq]
  refine ⟨fun hid => absurd hid (by decide), fun _ => ?_⟩
  rfl

end Mountin.Atari
