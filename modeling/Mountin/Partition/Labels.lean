import Mathlib.Data.List.DropRight
import Mathlib.Data.List.ReduceOption
import Mountin.Detect.Rule
import Mountin.Partition.Ics
import Mountin.Partition.Plan9

set_option autoImplicit false

/-! # Disk labels

The labels with one flat table of slots: `sgi.rs`, `sun_sparc.rs`, `disklabel.rs`, `pc98.rs`,
`ultrix.rs`, `sysv68.rs`, `karma.rs`, `acorn/powertec.rs`, `solaris_x86_vtoc.rs` and `apm.rs`. They
differ in where the table is, in the slots that are not in use and in the unit in which a slot counts.
-/

namespace Mountin.Labels

open Partition Tracks

/-- A slot in use: its number, its start in so many units each, and its size in units. -/
structure Slot where
  index : Nat
  start : Nat
  /-- The units in one step of the start. -/
  cylinder : Nat
  size : Nat
  /-- The bytes of a unit. -/
  unit : Nat

/-- The offset and length of a partition. -/
def Slot.compute (s : Slot) : Nat × Nat :=
  (wrap (wrap (s.start * s.cylinder) * s.unit), wrap (s.size * s.unit))

/-- The extent of a slot. -/
def Slot.extent (s : Slot) : ℤ × ℤ :=
  (((s.start * s.cylinder * s.unit : ℕ) : ℤ), ((s.size * s.unit : ℕ) : ℤ))

/-- The partition is not empty and ends below `2^64`. -/
def Slot.Admitted (s : Slot) : Prop :=
  0 < s.size * s.unit ∧ s.start * s.cylinder * s.unit + s.size * s.unit < 2 ^ 64

/-- What the fields of a table can hold. -/
def Slot.Bounded (s : Slot) : Prop :=
  s.start < 2 ^ 32 ∧ s.cylinder < 2 ^ 32 ∧ s.size < 2 ^ 32 ∧ s.unit < 2 ^ 32

/-- A slot in use that counts in sectors. -/
def Slot.Plain (s : Slot) : Prop :=
  s.start < 2 ^ 32 ∧ s.cylinder = 1 ∧ 0 < s.size ∧ s.size < 2 ^ 32 ∧ s.unit = SECTOR_SIZE

theorem Slot.Plain.bounded {s : Slot} (h : s.Plain) : s.Bounded := by
  obtain ⟨hstart, hcylinder, -, hsize, hunit⟩ := h
  rw [Bounded, hcylinder, hunit]
  exact ⟨hstart, by decide, hsize, by decide⟩

theorem Slot.Plain.admitted {s : Slot} (h : s.Plain) : s.Admitted := by
  obtain ⟨hstart, hcylinder, hpos, hsize, hunit⟩ := h
  rw [Admitted, hcylinder, hunit, SECTOR_SIZE]
  omega

theorem mul_lt_u64 {a b : Nat} (ha : a < 2 ^ 32) (hb : b < 2 ^ 32) : a * b < 2 ^ 64 := by
  calc a * b < 2 ^ 32 * 2 ^ 32 := Nat.mul_lt_mul'' ha hb
    _ = 2 ^ 64 := by decide

theorem Slot.sound_iff {s : Slot} (h : s.Bounded) : Sound s.extent (some s.compute) ↔ s.Admitted := by
  obtain ⟨hstart, hcylinder, hsize, hunit⟩ := h
  rw [extent, sound_natCast_iff, compute, wrap_of_lt (mul_lt_u64 hstart hcylinder),
    wrap_of_lt (mul_lt_u64 hsize hunit), Admitted]
  constructor
  · exact fun h => ⟨h.1, h.2.1⟩
  · rintro ⟨hpos, hend⟩
    exact ⟨hpos, hend, by rw [wrap_of_lt ((Nat.le_add_right _ _).trans_lt hend)]⟩

/-- The slots in use among the first so many. -/
def readSlots (count : Nat) (readSlot : Nat → Except IoError (Option Slot)) :
    Except IoError (List Slot) := do
  let slots ← (List.range count).mapM readSlot
  return slots.reduceOption

/-- Slots that are numbered without gaps. -/
def renumber (slots : List Slot) : List Slot := slots.mapIdx fun i s => { s with index := i }

/-! ## The labels -/

/-- `SGI_LABEL_MAGIC`. -/
def SGI_LABEL_MAGIC : Nat := 0x0BE5A941

/-- A slot of an SGI label; the volume header and the whole volume are not partitions. -/
def sgiSlot (reader : Reader) (i : Nat) : Except IoError (Option Slot) := do
  let entry_offset := 312 + i * 12
  let num_blocks ← readBe reader 4 entry_offset
  let first_block ← readBe reader 4 (entry_offset + 4)
  let ptype ← readBe reader 4 (entry_offset + 8)
  if num_blocks = 0 ∨ ptype = 0 ∨ ptype = 6 then return none
  else return some ⟨i, first_block, 1, num_blocks, SECTOR_SIZE⟩

def sgiSlots (reader : Reader) : Except IoError (List Slot) := do
  let magic ← readBe reader 4 0
  require (magic = SGI_LABEL_MAGIC) (.invalidData "SGI DVH magic not found")
  readSlots 16 (sgiSlot reader)

/-- `SUN_LABEL_MAGIC`. -/
def SUN_LABEL_MAGIC : Nat := 0xDABE

/-- A slot of a Sun label, which starts at a cylinder; slot 2 is the whole disk. -/
def sunSparcSlot (reader : Reader) (spc i : Nat) : Except IoError (Option Slot) := do
  let entry_offset := 444 + i * 8
  let start_cyl ← readBe reader 4 entry_offset
  let num_sectors ← readBe reader 4 (entry_offset + 4)
  if num_sectors = 0 ∨ i = 2 then return none
  else return some ⟨i, start_cyl, spc, num_sectors, SECTOR_SIZE⟩

def sunSparcSlots (reader : Reader) : Except IoError (List Slot) := do
  let magic ← readBe reader 2 508
  require (magic = SUN_LABEL_MAGIC) (.invalidData "Sun label magic not found")
  let ntrks ← readBe reader 2 436
  let nsect ← readBe reader 2 438
  let spc := ntrks * nsect
  require (spc ≠ 0) (.invalidData "Invalid geometry")
  readSlots 8 (sunSparcSlot reader spc)

/-- `DISKLABEL_MAGIC`. -/
def DISKLABEL_MAGIC : Nat := 0x82564557

/-- `find_disklabel`: in the first sector or in the second. -/
def findDisklabel (reader : Reader) : Except IoError Nat :=
  if hasMagic 0 then .ok 0
  else if hasMagic 512 then .ok 512
  else .error (.invalidData "disklabel magic not found")
where
  /-- A sector that cannot be read has no magic. -/
  hasMagic (offset : Nat) : Bool :=
    match readLe reader 4 offset with
    | .ok magic => magic == DISKLABEL_MAGIC
    | .error _ => false

/-- A slot of a BSD label; slot 2 is the whole disk. -/
def disklabelSlot (reader : Reader) (base sector_size i : Nat) : Except IoError (Option Slot) := do
  let entry_offset := base + 148 + i * 16
  let size_sectors ← readLe reader 4 entry_offset
  let offset_sectors ← readLe reader 4 (entry_offset + 4)
  let fstype ← readLe reader 1 (entry_offset + 12)
  if fstype = 0 ∨ size_sectors = 0 ∨ i = 2 then return none
  else return some ⟨i, offset_sectors, 1, size_sectors, sector_size⟩

def disklabelSlots (reader : Reader) : Except IoError (List Slot) := do
  let base ← findDisklabel reader
  let magic1 ← readLe reader 4 base
  let magic2 ← readLe reader 4 (base + 132)
  require (magic1 = DISKLABEL_MAGIC ∧ magic2 = DISKLABEL_MAGIC)
    (.invalidData "disklabel magic mismatch")
  let sector_size ← readLe reader 4 (base + 40)
  let npartitions ← readLe reader 2 (base + 138)
  readSlots (min npartitions 22) (disklabelSlot reader base sector_size)

/-- `PC98_MAGIC`. -/
def PC98_MAGIC : Nat := 0xAA55

/-- A slot of a PC-98 table, from its cylinder, head and sector to the end of its last cylinder. -/
def pc98Slot (reader : Reader) (i : Nat) : Except IoError (Option Slot) := do
  let buf ← reader.readAt (512 + i * 32) 32
  let start_sect := (leField buf 10 2 * 8 + leField buf 9 1) * 16 + leField buf 8 1
  let end_sect := (leField buf 14 2 + 1) * 8 * 16
  if buf.length ≠ 32 ∨ leField buf 0 1 = 0 ∨ leField buf 1 1 = 0 ∨ end_sect ≤ start_sect then
    return none
  else return some ⟨i, start_sect, 1, end_sect - start_sect, SECTOR_SIZE⟩

def pc98Slots (reader : Reader) : Except IoError (List Slot) := do
  let magic ← readLe reader 2 510
  require (magic = PC98_MAGIC) (.invalidData "PC-98 magic not found")
  readSlots 16 (pc98Slot reader)

/-- A slot of an Ultrix or a Motorola table: a count and a start, which `read` takes. -/
def blocksSlot (read : Nat → Except IoError Nat) (table_offset i : Nat) :
    Except IoError (Option Slot) := do
  let entry_offset := table_offset + i * 8
  let nblocks ← read entry_offset
  let blkoff ← read (entry_offset + 4)
  if nblocks = 0 then return none
  else return some ⟨i, blkoff, 1, nblocks, SECTOR_SIZE⟩

/-- `LABEL_OFFSET`. -/
def LABEL_OFFSET : Nat := 16312

def ultrixSlots (reader : Reader) : Except IoError (List Slot) := do
  let magic ← readLe reader 4 LABEL_OFFSET
  let valid ← readLe reader 4 (LABEL_OFFSET + 4)
  require (magic = 0x032957 ∧ valid = 1) (.invalidData "Ultrix disklabel not found")
  readSlots 8 (blocksSlot (readLe reader 4) (LABEL_OFFSET + 8))

/-- `MOTOROLA_MAGIC`. -/
def MOTOROLA_MAGIC : Bytes := [0x4d, 0x4f, 0x54, 0x4f, 0x52, 0x4f, 0x4c, 0x41]

/-- The last slice of a Motorola disk is the whole disk. -/
def sysv68Slots (reader : Reader) : Except IoError (List Slot) := do
  let magic ← readBytes reader 248 8
  require (magic = MOTOROLA_MAGIC) (.invalidData "MOTOROLA magic not found")
  let slc_blk ← readBe reader 4 0x180
  let slc_cnt ← readBe reader 2 0x184
  if slc_blk = 0 ∨ slc_cnt = 0 then return []
  else readSlots (slc_cnt - 1) (blocksSlot (readBe reader 4) (slc_blk * SECTOR_SIZE))

/-- `KARMA_MAGIC`. -/
def KARMA_MAGIC : Nat := 0xAB56

/-- `FSTYPE_VALID`. -/
def FSTYPE_VALID : Nat := 0x4D

/-- A slot of a Rio Karma table. -/
def karmaSlot (reader : Reader) (i : Nat) : Except IoError (Option Slot) := do
  let entry_offset := 270 + i * 16
  let fstype ← readLe reader 1 (entry_offset + 4)
  let start_sector ← readLe reader 4 (entry_offset + 8)
  let size_sectors ← readLe reader 4 (entry_offset + 12)
  if fstype ≠ FSTYPE_VALID ∨ size_sectors = 0 then return none
  else return some ⟨i, start_sector, 1, size_sectors, SECTOR_SIZE⟩

def karmaSlots (reader : Reader) : Except IoError (List Slot) := do
  let magic ← readLe reader 2 510
  require (magic = KARMA_MAGIC) (.invalidData "Karma magic not found")
  readSlots 2 (karmaSlot reader)

/-- A slot of a PowerTec table. -/
def powertecSlot (sector : Bytes) (i : Nat) : Option Slot :=
  let start := leField sector (i * 28 + 8) 4
  let size := leField sector (i * 28 + 12) 4
  if 0 < size then some ⟨i, start, 1, size, SECTOR_SIZE⟩ else none

/-- The partitions are numbered without gaps. -/
def powertecSlots (reader : Reader) : Except IoError (List Slot) := do
  let sector ← Ics.readSector reader 0
  require (powertec sector) (.invalidData "invalid PowerTec checksum or MBR detected")
  return renumber ((List.range 12).filterMap (powertecSlot sector))

/-- `VTOC_SANITY`. -/
def VTOC_SANITY : Nat := 0x600DDEEE

/-- `VTOC_MAGIC`. -/
def VTOC_MAGIC : Nat := 0xDABE

/-- A slot of a Solaris x86 label, which has to end in the image; slot 2 is the whole disk. -/
def solarisX86VtocSlot (reader : Reader) (index : Nat) : Except IoError (Option Slot) := do
  if index = 2 then return none
  else
    let entry := SECTOR_SIZE + 72 + index * 12
    let start_sector ← readLe reader 4 (entry + 4)
    let sector_count ← readLe reader 4 (entry + 8)
    if sector_count = 0 then return none
    else
      let start ← checked (start_sector * SECTOR_SIZE)
        (.invalidData "Solaris x86 VTOC slice offset overflow")
      let length ← checked (sector_count * SECTOR_SIZE)
        (.invalidData "Solaris x86 VTOC slice length overflow")
      let fin ← checked (start + length) (.invalidData "Solaris x86 VTOC slice end overflow")
      require (∀ size ∈ reader.size, fin ≤ size)
        (.invalidData "Solaris x86 VTOC slice extends past image")
      return some ⟨index, start_sector, 1, sector_count, SECTOR_SIZE⟩

/-- A label without a slot in use is refused. -/
def solarisX86VtocSlots (reader : Reader) : Except IoError (List Slot) := do
  let sanity ← readLe reader 4 (SECTOR_SIZE + 12)
  require (sanity = VTOC_SANITY) (.invalidData "invalid Solaris x86 VTOC label")
  let magic ← readLe reader 2 (SECTOR_SIZE + 508)
  require (magic = VTOC_MAGIC) (.invalidData "invalid Solaris x86 VTOC label")
  let count ← readLe reader 2 (SECTOR_SIZE + 30)
  require (count = 16) (.invalidData "invalid Solaris x86 VTOC slice count")
  let slots ← readSlots 16 (solarisX86VtocSlot reader)
  require (slots.isEmpty = false) (.invalidData "empty Solaris x86 VTOC")
  return slots

/-- `DDM_SIGNATURE`. -/
def DDM_SIGNATURE : Nat := 0x4552

/-- `PM_SIGNATURE`. -/
def PM_SIGNATURE : Nat := 0x504D

/-- The type of an entry of an Apple partition map is one of the map itself, of a driver or of free
space. A type that is not UTF-8 is none of them. -/
def isApmSkipped (ptype : Bytes) : Bool :=
  let ptype_str := ((Plan9.fromUtf8 ptype).getD []).rdropWhile (· == '\x00')
  ptype_str == "Apple_partition_map".toList || "Apple_Driver".toList.isPrefixOf ptype_str ||
    ptype_str == "Apple_Free".toList

/-- The loop over the map, which the first block without a signature ends. -/
def apmTable (reader : Reader) (block_size : Nat) : Nat → Nat → Except IoError (List Slot)
  | 0, _ => return []
  | turns + 1, i => do
    let entry_offset := i * block_size
    let sig ← readBe reader 2 entry_offset
    if sig ≠ PM_SIGNATURE then return []
    else
      let pblock_start ← readBe reader 4 (entry_offset + 8)
      let pblock_count ← readBe reader 4 (entry_offset + 12)
      let ptype ← readPadded reader (entry_offset + 48) 32
      let rest ← apmTable reader block_size turns (i + 1)
      if isApmSkipped ptype then return rest
      else return ⟨i, pblock_start, 1, pblock_count, block_size⟩ :: rest

def apmSlots (reader : Reader) : Except IoError (List Slot) := do
  let ddm_sig ← readBe reader 2 0
  require (ddm_sig = DDM_SIGNATURE) (.invalidData "DDM signature not found")
  let block_size ← readBe reader 2 2
  let pm_sig ← readBe reader 2 block_size
  require (pm_sig = PM_SIGNATURE) (.invalidData "PM signature not found")
  let map_entries ← readBe reader 4 (block_size + 4)
  let slots ← apmTable reader block_size (min map_entries 64) 1
  return renumber slots

/-- The kinds of labels. -/
inductive Label where
  | sgi
  | sunSparc
  | disklabel
  | pc98
  | ultrix
  | sysv68
  | karma
  | powertec
  | solarisX86Vtoc
  | apm
  deriving DecidableEq

/-- The slots in use of a label. -/
def Label.slots : Label → Reader → Except IoError (List Slot)
  | .sgi => sgiSlots
  | .sunSparc => sunSparcSlots
  | .disklabel => disklabelSlots
  | .pc98 => pc98Slots
  | .ultrix => ultrixSlots
  | .sysv68 => sysv68Slots
  | .karma => karmaSlots
  | .powertec => powertecSlots
  | .solarisX86Vtoc => solarisX86VtocSlots
  | .apm => apmSlots

/-- A Sun label counts in cylinders, a BSD label and an Apple map in units that they state; the
others count in sectors, and skip a slot of size zero. -/
def Label.isPlain : Label → Bool
  | .sunSparc => false
  | .disklabel => false
  | .apm => false
  | _ => true

/-- `SGI`, `SUN_SPARC`, `DISKLABEL`, `PC98`, `ULTRIX`, `SYSV68`, `KARMA`, `POWERTEC`,
`SOLARIS_X86_VTOC` and `APM`: a child for each slot in use. -/
def Label.children (label : Label) : Container := fun reader => do
  let slots ← label.slots reader
  return slots.map fun s => window s.index s.compute.1 s.compute.2

/-! ## What the slots are -/

/-- The slots come in the order of their numbers, which are those of a table. -/
def Numbered (slots : List Slot) : Prop :=
  (slots.map Slot.index).Pairwise (· < ·) ∧ ∀ s ∈ slots, s.index < 2 ^ 16

/-- What a label makes of its table: bounded slots, and plain ones where it counts in sectors. -/
def Label.Makes (label : Label) (s : Slot) : Prop :=
  s.Bounded ∧ (label.isPlain → s.Plain)

theorem Slot.Plain.makes {s : Slot} (h : s.Plain) (label : Label) : label.Makes s :=
  ⟨h.bounded, fun _ => h⟩

/-- The slots of a label that is not plain are just bounded. -/
theorem Slot.Bounded.makes {s : Slot} {label : Label} (h : s.Bounded)
    (hlabel : label.isPlain = false) : label.Makes s :=
  ⟨h, fun hplain => by simp [hlabel] at hplain⟩

section

variable {count : Nat} {readSlot : Nat → Except IoError (Option Slot)} {slots : List Slot}

theorem readSlots_forall {P : Slot → Prop} (h : readSlots count readSlot = .ok slots)
    (hslot : ∀ i s, readSlot i = .ok (some s) → P s) : ∀ s ∈ slots, P s := by
  obtain ⟨read, hread, h⟩ := bind_eq_ok.mp h
  obtain rfl := Except.ok.inj h
  intro s hs
  obtain ⟨i, -, hi⟩ := (List.mem_mapM_iff hread).mp (List.reduceOption_mem_iff.mp hs)
  exact hslot i s hi

/-- The numbers of the slots in use are some of the numbers of the turns. -/
theorem index_sublist {turns : List Nat} {read : List (Option Slot)}
    (h : turns.mapM readSlot = .ok read)
    (hslot : ∀ i s, readSlot i = .ok (some s) → s.index = i) :
    (read.reduceOption.map Slot.index).Sublist turns := by
  rw [List.mapM_eq_ok_iff] at h
  induction h with
  | nil => exact List.Sublist.refl _
  | @cons i slot turns read hi _ ih =>
      cases slot with
      | none =>
          rw [List.reduceOption_cons_of_none]
          exact ih.cons i
      | some s =>
          rw [List.reduceOption_cons_of_some, List.map_cons, hslot i s hi]
          exact ih.cons_cons i

theorem readSlots_numbered (h : readSlots count readSlot = .ok slots) (hcount : count ≤ 2 ^ 16)
    (hslot : ∀ i s, readSlot i = .ok (some s) → s.index = i) : Numbered slots := by
  obtain ⟨read, hread, h⟩ := bind_eq_ok.mp h
  obtain rfl := Except.ok.inj h
  have hsub := index_sublist hread hslot
  refine ⟨List.pairwise_lt_range.sublist hsub, fun s hs => ?_⟩
  exact (List.mem_range.mp (hsub.subset (List.mem_map_of_mem hs))).trans_le hcount

theorem renumber_numbered (h : slots.length ≤ 2 ^ 16) : Numbered (renumber slots) := by
  constructor
  · have hrange : (renumber slots).map Slot.index = List.range slots.length := by
      apply List.ext_getElem <;> simp [renumber]
    rw [hrange]
    exact List.pairwise_lt_range
  · intro s hs
    obtain ⟨i, hi, rfl⟩ := List.mem_mapIdx.mp hs
    exact hi.trans_le h

/-- What does not depend on the number of a slot. -/
theorem renumber_forall {P : Slot → Prop}
    (hP : ∀ (s : Slot) (i : Nat), P s → P { s with index := i }) (h : ∀ s ∈ slots, P s) :
    ∀ s ∈ renumber slots, P s := by
  intro s hs
  obtain ⟨i, hi, rfl⟩ := List.mem_mapIdx.mp hs
  exact hP slots[i] i (h slots[i] (List.getElem_mem hi))

theorem readSlots_spec {label : Label} (h : readSlots count readSlot = .ok slots)
    (hcount : count ≤ 2 ^ 16)
    (hslot : ∀ i s, readSlot i = .ok (some s) → s.index = i ∧ label.Makes s) :
    Numbered slots ∧ ∀ s ∈ slots, label.Makes s :=
  ⟨readSlots_numbered h hcount fun i s hi => (hslot i s hi).1,
    readSlots_forall h fun i s hi => (hslot i s hi).2⟩

end

section

variable {reader : Reader} {s : Slot} {i : Nat} {slots : List Slot}

/-- A slot that is not in use, or one that is. -/
theorem slot_of_ite {p : Prop} [Decidable p] {made : Slot}
    (h : (if p then pure none else pure (some made) : Except IoError (Option Slot)) = .ok (some s)) :
    ¬ p ∧ s = made := by
  split at h
  · cases h
  · rename_i hp
    exact ⟨hp, (Option.some.inj (Except.ok.inj h)).symm⟩

theorem sgiSlot_spec (h : sgiSlot reader i = .ok (some s)) : s.index = i ∧ s.Plain := by
  obtain ⟨num_blocks, hnum, h⟩ := bind_eq_ok.mp h
  obtain ⟨first_block, hfirst, h⟩ := bind_eq_ok.mp h
  obtain ⟨ptype, -, h⟩ := bind_eq_ok.mp h
  obtain ⟨hused, rfl⟩ := slot_of_ite h
  rw [not_or] at hused
  exact ⟨rfl, readBe_lt hfirst, rfl, Nat.pos_of_ne_zero hused.1, readBe_lt hnum, rfl⟩

theorem sunSparcSlot_spec {spc : Nat} (hspc : spc < 2 ^ 32)
    (h : sunSparcSlot reader spc i = .ok (some s)) : s.index = i ∧ s.Bounded := by
  obtain ⟨start_cyl, hstart, h⟩ := bind_eq_ok.mp h
  obtain ⟨num_sectors, hnum, h⟩ := bind_eq_ok.mp h
  obtain ⟨-, rfl⟩ := slot_of_ite h
  exact ⟨rfl, readBe_lt hstart, hspc, readBe_lt hnum, (by decide : SECTOR_SIZE < 2 ^ 32)⟩

theorem disklabelSlot_spec {base sector_size : Nat} (hsector : sector_size < 2 ^ 32)
    (h : disklabelSlot reader base sector_size i = .ok (some s)) : s.index = i ∧ s.Bounded := by
  obtain ⟨size_sectors, hsize, h⟩ := bind_eq_ok.mp h
  obtain ⟨offset_sectors, hoffset, h⟩ := bind_eq_ok.mp h
  obtain ⟨fstype, -, h⟩ := bind_eq_ok.mp h
  obtain ⟨-, rfl⟩ := slot_of_ite h
  exact ⟨rfl, readLe_lt hoffset, (by decide : 1 < 2 ^ 32), readLe_lt hsize, hsector⟩

theorem pc98Slot_spec (h : pc98Slot reader i = .ok (some s)) : s.index = i ∧ s.Plain := by
  obtain ⟨buf, -, h⟩ := bind_eq_ok.mp h
  obtain ⟨hused, rfl⟩ := slot_of_ite h
  have hcyl := leField_lt buf 10 2
  have hhead := leField_lt buf 9 1
  have hsector := leField_lt buf 8 1
  have hend := leField_lt buf 14 2
  simp only [not_or, not_le] at hused
  refine ⟨rfl, ?_, rfl, Nat.sub_pos_of_lt hused.2.2.2, ?_, rfl⟩
  · dsimp only
    omega
  · dsimp only
    omega

theorem blocksSlot_spec {read : Nat → Except IoError Nat} {table_offset : Nat}
    (hread : ∀ off n, read off = .ok n → n < 2 ^ 32)
    (h : blocksSlot read table_offset i = .ok (some s)) : s.index = i ∧ s.Plain := by
  obtain ⟨nblocks, hnblocks, h⟩ := bind_eq_ok.mp h
  obtain ⟨blkoff, hblkoff, h⟩ := bind_eq_ok.mp h
  obtain ⟨hused, rfl⟩ := slot_of_ite h
  exact ⟨rfl, hread _ _ hblkoff, rfl, Nat.pos_of_ne_zero hused, hread _ _ hnblocks, rfl⟩

theorem karmaSlot_spec (h : karmaSlot reader i = .ok (some s)) : s.index = i ∧ s.Plain := by
  obtain ⟨fstype, -, h⟩ := bind_eq_ok.mp h
  obtain ⟨start_sector, hstart, h⟩ := bind_eq_ok.mp h
  obtain ⟨size_sectors, hsize, h⟩ := bind_eq_ok.mp h
  obtain ⟨hused, rfl⟩ := slot_of_ite h
  rw [not_or] at hused
  exact ⟨rfl, readLe_lt hstart, rfl, Nat.pos_of_ne_zero hused.2, readLe_lt hsize, rfl⟩

theorem powertecSlot_plain {sector : Bytes} (h : powertecSlot sector i = some s) : s.Plain := by
  simp only [powertecSlot] at h
  split at h
  · rename_i hsize
    obtain rfl := Option.some.inj h
    exact ⟨leField_lt sector _ 4, rfl, hsize, leField_lt sector _ 4, rfl⟩
  · cases h

theorem powertecSlots_spec (h : powertecSlots reader = .ok slots) :
    Numbered slots ∧ ∀ s ∈ slots, s.Plain := by
  obtain ⟨sector, -, h⟩ := bind_eq_ok.mp h
  obtain ⟨_, -, h⟩ := bind_eq_ok.mp h
  obtain rfl := Except.ok.inj h
  have hlength := List.length_filterMap_le (powertecSlot sector) (List.range 12)
  rw [List.length_range] at hlength
  refine ⟨renumber_numbered (hlength.trans (by decide)), renumber_forall (fun _ _ h => h) ?_⟩
  intro s hs
  obtain ⟨i, -, hi⟩ := List.mem_filterMap.mp hs
  exact powertecSlot_plain hi

/-- A slot of a Solaris x86 label is plain and ends in the image. -/
theorem solarisX86VtocSlot_spec (h : solarisX86VtocSlot reader i = .ok (some s)) :
    s.index = i ∧ s.Plain ∧ ∀ size ∈ reader.size, s.compute.1 + s.compute.2 ≤ size := by
  unfold solarisX86VtocSlot at h
  split at h
  · cases h
  obtain ⟨start_sector, hstart, h⟩ := bind_eq_ok.mp h
  obtain ⟨sector_count, hcount, h⟩ := bind_eq_ok.mp h
  split at h
  · cases h
  rename_i hpos
  obtain ⟨start, hstart', h⟩ := bind_eq_ok.mp h
  obtain ⟨length, hlength', h⟩ := bind_eq_ok.mp h
  obtain ⟨fin, hfin, h⟩ := bind_eq_ok.mp h
  obtain ⟨_, hinside, h⟩ := bind_eq_ok.mp h
  obtain rfl := Option.some.inj (Except.ok.inj h)
  obtain ⟨hstart64, rfl⟩ := checked_eq_ok.mp hstart'
  obtain ⟨hlength64, rfl⟩ := checked_eq_ok.mp hlength'
  obtain ⟨-, rfl⟩ := checked_eq_ok.mp hfin
  refine ⟨rfl, ⟨readLe_lt hstart, rfl, Nat.pos_of_ne_zero hpos, readLe_lt hcount, rfl⟩, ?_⟩
  intro size hsize
  have hend := require_eq_ok.mp hinside size hsize
  have hstart32 : start_sector < 2 ^ 64 := (readLe_lt hstart).trans (by decide)
  simpa only [Slot.compute, Nat.mul_one, wrap_of_lt hstart32, wrap_of_lt hstart64,
    wrap_of_lt hlength64] using hend

/-- A Solaris x86 label has a partition, and all of them end in the image. -/
theorem solarisX86VtocSlots_within (h : solarisX86VtocSlots reader = .ok slots) :
    slots ≠ [] ∧ ∀ s ∈ slots, ∀ size ∈ reader.size, s.compute.1 + s.compute.2 ≤ size := by
  obtain ⟨sanity, -, h⟩ := bind_eq_ok.mp h
  obtain ⟨_, -, h⟩ := bind_eq_ok.mp h
  obtain ⟨magic, -, h⟩ := bind_eq_ok.mp h
  obtain ⟨_, -, h⟩ := bind_eq_ok.mp h
  obtain ⟨count, -, h⟩ := bind_eq_ok.mp h
  obtain ⟨_, -, h⟩ := bind_eq_ok.mp h
  obtain ⟨slots, hslots, h⟩ := bind_eq_ok.mp h
  obtain ⟨_, hempty, h⟩ := bind_eq_ok.mp h
  obtain rfl := Except.ok.inj h
  exact ⟨List.isEmpty_eq_false_iff.mp (require_eq_ok.mp hempty),
    readSlots_forall hslots fun i s hs => (solarisX86VtocSlot_spec hs).2.2⟩

/-- The loop over an Apple map takes at most one slot a turn. -/
theorem apmTable_spec {block_size : Nat} (hblock : block_size < 2 ^ 16) (turns first : Nat)
    (h : apmTable reader block_size turns first = .ok slots) :
    slots.length ≤ turns ∧ ∀ s ∈ slots, s.Bounded := by
  induction turns generalizing first slots with
  | zero =>
      obtain rfl := Except.ok.inj h
      exact ⟨Nat.le_refl _, by simp⟩
  | succ turns ih =>
      obtain ⟨sig, -, h⟩ := bind_eq_ok.mp h
      split at h
      · obtain rfl := Except.ok.inj h
        exact ⟨Nat.zero_le _, by simp⟩
      obtain ⟨pblock_start, hstart, h⟩ := bind_eq_ok.mp h
      obtain ⟨pblock_count, hcount, h⟩ := bind_eq_ok.mp h
      obtain ⟨ptype, -, h⟩ := bind_eq_ok.mp h
      obtain ⟨rest, hrest, h⟩ := bind_eq_ok.mp h
      obtain ⟨hlength, hbounded⟩ := ih (first + 1) hrest
      split at h
      · obtain rfl := Except.ok.inj h
        exact ⟨Nat.le_succ_of_le hlength, hbounded⟩
      · obtain rfl := Except.ok.inj h
        rw [List.forall_mem_cons]
        exact ⟨Nat.succ_le_succ hlength,
          ⟨readBe_lt hstart, (by decide : 1 < 2 ^ 32), readBe_lt hcount, hblock.trans (by decide)⟩,
          hbounded⟩

/-- Every label numbers its slots, and its fields bound them. -/
theorem Label.slots_spec {label : Label} (h : label.slots reader = .ok slots) :
    Numbered slots ∧ ∀ s ∈ slots, label.Makes s := by
  cases label with
  | sgi =>
      obtain ⟨magic, -, h⟩ := bind_eq_ok.mp h
      obtain ⟨_, -, h⟩ := bind_eq_ok.mp h
      exact readSlots_spec h (by decide) fun i s hs => (sgiSlot_spec hs).imp_right fun hp => hp.makes _
  | sunSparc =>
      obtain ⟨magic, -, h⟩ := bind_eq_ok.mp h
      obtain ⟨_, -, h⟩ := bind_eq_ok.mp h
      obtain ⟨ntrks, hntrks, h⟩ := bind_eq_ok.mp h
      obtain ⟨nsect, hnsect, h⟩ := bind_eq_ok.mp h
      obtain ⟨_, -, h⟩ := bind_eq_ok.mp h
      have hspc : ntrks * nsect < 2 ^ 32 := by
        calc ntrks * nsect < 2 ^ 16 * 2 ^ 16 := Nat.mul_lt_mul'' (readBe_lt hntrks) (readBe_lt hnsect)
          _ = 2 ^ 32 := by decide
      exact readSlots_spec h (by decide) fun i s hs =>
        (sunSparcSlot_spec hspc hs).imp_right fun hb => hb.makes rfl
  | disklabel =>
      obtain ⟨base, -, h⟩ := bind_eq_ok.mp h
      obtain ⟨magic1, -, h⟩ := bind_eq_ok.mp h
      obtain ⟨magic2, -, h⟩ := bind_eq_ok.mp h
      obtain ⟨_, -, h⟩ := bind_eq_ok.mp h
      obtain ⟨sector_size, hsector, h⟩ := bind_eq_ok.mp h
      obtain ⟨npartitions, -, h⟩ := bind_eq_ok.mp h
      exact readSlots_spec h ((min_le_right _ _).trans (by decide)) fun i s hs =>
        (disklabelSlot_spec (readLe_lt hsector) hs).imp_right fun hb => hb.makes rfl
  | pc98 =>
      obtain ⟨magic, -, h⟩ := bind_eq_ok.mp h
      obtain ⟨_, -, h⟩ := bind_eq_ok.mp h
      exact readSlots_spec h (by decide) fun i s hs => (pc98Slot_spec hs).imp_right fun hp => hp.makes _
  | ultrix =>
      obtain ⟨magic, -, h⟩ := bind_eq_ok.mp h
      obtain ⟨valid, -, h⟩ := bind_eq_ok.mp h
      obtain ⟨_, -, h⟩ := bind_eq_ok.mp h
      exact readSlots_spec h (by decide) fun i s hs =>
        (blocksSlot_spec (fun _ _ => readLe_lt) hs).imp_right fun hp => hp.makes _
  | sysv68 =>
      obtain ⟨magic, -, h⟩ := bind_eq_ok.mp h
      obtain ⟨_, -, h⟩ := bind_eq_ok.mp h
      obtain ⟨slc_blk, -, h⟩ := bind_eq_ok.mp h
      obtain ⟨slc_cnt, hcnt, h⟩ := bind_eq_ok.mp h
      have hcount : slc_cnt - 1 ≤ 2 ^ 16 := (Nat.sub_le _ _).trans (readBe_lt hcnt).le
      split at h
      · obtain rfl := Except.ok.inj h
        exact ⟨⟨List.Pairwise.nil, by simp⟩, by simp⟩
      · exact readSlots_spec h hcount fun i s hs =>
          (blocksSlot_spec (fun _ _ => readBe_lt) hs).imp_right fun hp => hp.makes _
  | karma =>
      obtain ⟨magic, -, h⟩ := bind_eq_ok.mp h
      obtain ⟨_, -, h⟩ := bind_eq_ok.mp h
      exact readSlots_spec h (by decide) fun i s hs => (karmaSlot_spec hs).imp_right fun hp => hp.makes _
  | powertec => exact (powertecSlots_spec h).imp_right fun hplain s hs => (hplain s hs).makes _
  | solarisX86Vtoc =>
      obtain ⟨sanity, -, h⟩ := bind_eq_ok.mp h
      obtain ⟨_, -, h⟩ := bind_eq_ok.mp h
      obtain ⟨magic, -, h⟩ := bind_eq_ok.mp h
      obtain ⟨_, -, h⟩ := bind_eq_ok.mp h
      obtain ⟨count, -, h⟩ := bind_eq_ok.mp h
      obtain ⟨_, -, h⟩ := bind_eq_ok.mp h
      obtain ⟨slots, hslots, h⟩ := bind_eq_ok.mp h
      obtain ⟨_, -, h⟩ := bind_eq_ok.mp h
      obtain rfl := Except.ok.inj h
      exact readSlots_spec hslots (by decide) fun i s hs =>
        (solarisX86VtocSlot_spec hs).imp_right fun hp => hp.1.makes _
  | apm =>
      obtain ⟨ddm_sig, -, h⟩ := bind_eq_ok.mp h
      obtain ⟨_, -, h⟩ := bind_eq_ok.mp h
      obtain ⟨block_size, hblock, h⟩ := bind_eq_ok.mp h
      obtain ⟨pm_sig, -, h⟩ := bind_eq_ok.mp h
      obtain ⟨_, -, h⟩ := bind_eq_ok.mp h
      obtain ⟨map_entries, -, h⟩ := bind_eq_ok.mp h
      obtain ⟨slots, hslots, h⟩ := bind_eq_ok.mp h
      obtain rfl := Except.ok.inj h
      obtain ⟨hlength, hbounded⟩ := apmTable_spec (readBe_lt hblock) _ _ hslots
      refine ⟨renumber_numbered (hlength.trans ((min_le_right _ _).trans (by decide))), ?_⟩
      exact fun s hs => (renumber_forall (fun _ _ h => h) hbounded s hs).makes rfl

end

/-! ## The children of a label -/

/-- **Labels are exact.** The children of a label have the increasing numbers of its slots, and are
exact when each slot is admitted, as each slot of a plain label is. -/
theorem Label.children_exact (label : Label) (reader : Reader) (kids : List Child)
    (h : label.children reader = .ok kids) :
    ∃ slots, label.slots reader = .ok slots ∧
      (kids.map fun kid => kid.index.toNat) = slots.map Slot.index ∧
      (slots.map Slot.index).Pairwise (· < ·) ∧
      (Exact (slots.map Slot.extent) kids ↔ ∀ s ∈ slots, s.Admitted) ∧
      (label.isPlain → Exact (slots.map Slot.extent) kids) := by
  obtain ⟨slots, hslots, h⟩ := bind_eq_ok.mp h
  obtain rfl := Except.ok.inj h
  obtain ⟨⟨hordered, hsmall⟩, hmakes⟩ := Label.slots_spec hslots
  have hplaces : (slots.map fun s => window s.index s.compute.1 s.compute.2).map
      (fun kid => (kid.offset, kid.view)) =
        (slots.filterMap fun s => some s.compute).map placed := by
    rw [← places_filterMap_window Slot.index]
    simp
  have hexact : Exact (slots.map Slot.extent)
      (slots.map fun s => window s.index s.compute.1 s.compute.2) ↔ ∀ s ∈ slots, s.Admitted := by
    rw [exact_iff (fun _ hnone => by cases hnone) hplaces]
    exact forall₂_congr fun s hs => Slot.sound_iff (hmakes s hs).1
  refine ⟨slots, hslots, ?_, hordered, hexact, fun hplain => hexact.mpr fun s hs => ?_⟩
  · rw [List.map_map]
    refine List.map_congr_left fun s hs => ?_
    have := hsmall s hs
    simp only [Function.comp_apply, window, UInt32.toNat_ofNat']
    omega
  · exact ((hmakes s hs).2 hplain).admitted

/-- A Sun label of the largest geometry, whose last cylinder begins beyond `2^64`. -/
example : ¬ (⟨0, 2 ^ 32 - 1, 65535 * 65535, 1, SECTOR_SIZE⟩ : Slot).Admitted := by
  rintro ⟨-, hend⟩
  exact absurd hend (by decide)

/-- A Rio Karma image with one partition, in its second slot. -/
def karmaReader : Reader where
  readAt offset len :=
    if offset = 510 then .ok [0x56, 0xab]
    else if offset = 290 then .ok [0x4d]
    else if offset = 294 then .ok [2, 0, 0, 0]
    else if offset = 298 then .ok [3, 0, 0, 0]
    else .ok (List.replicate len 0)
  size := none

theorem children_exact_karma :
    Label.karma.children karmaReader = .ok [window 1 1024 1536] ∧
      Exact [(1024, 1536)] [window 1 1024 1536] := by
  have hkids : Label.karma.children karmaReader = .ok [window 1 1024 1536] := rfl
  obtain ⟨slots, hslots, -, -, -, hexact⟩ := Label.children_exact .karma karmaReader _ hkids
  obtain rfl : [⟨1, 2, 1, 3, 512⟩] = slots := Except.ok.inj hslots
  exact ⟨hkids, hexact rfl⟩

end Mountin.Labels
