import Mountin.Disk.Honest
import Mountin.Partition.Extents

set_option autoImplicit false

/-! # EESOX and ADFS partition tables

`eesox.rs` and `adfs.rs`: tables that do not say where their last partition ends. Its window goes on
far past the image.

* `EESOX`, `ADFS` : the two containers.
* `honest_sizes_iff` : what makes the size of a child honest, and that of the last partition never.
-/

namespace Mountin.Acorn

open Partition
open Ics (readSector)

/-- The largest `u64`. -/
def U64_MAX : Nat := 2 ^ 64 - 1

/-- `xor_decrypt`. -/
def xorDecrypt (data key : Bytes) : Bytes := data.mapIdx fun i b => b ^^^ key.getD (i % key.length) 0

/-! ## EESOX -/

/-- `EESOX_KEY`: "Neil Critchell  ". -/
def EESOX_KEY : Bytes :=
  [0x4e, 0x65, 0x69, 0x6c, 0x20, 0x43, 0x72, 0x69, 0x74, 0x63, 0x68, 0x65, 0x6c, 0x6c, 0x20, 0x20]

/-- "Eesox". -/
def EESOX_MAGIC : Bytes := [0x45, 0x65, 0x73, 0x6f, 0x78]

/-- `ENTRY_SIZE`. -/
def ENTRY_SIZE : Nat := 32

/-- The loop over the entries: the starts of those before the first without the magic. -/
def readStarts (decrypted : Bytes) : (turns i : Nat) → List Nat
  | 0, _ => []
  | turns + 1, i =>
      let entry_off := i * ENTRY_SIZE
      if decrypted.slice entry_off 5 ≠ EESOX_MAGIC then []
      else leField decrypted (entry_off + 16) 4 :: readStarts decrypted turns (i + 1)

/-- A partition ends where the next one starts, and the last nowhere. -/
def endSect : List Nat → Nat
  | [] => U64_MAX / SECTOR_SIZE
  | next :: _ => next

/-- The loop over the starts. -/
def startChildren : (i : Nat) → List Nat → List Child
  | _, [] => []
  | i, start :: rest =>
      let size := endSect rest - start
      if 0 < size then
        window i (wrap (start * SECTOR_SIZE)) (wrap (size * SECTOR_SIZE)) :: startChildren (i + 1) rest
      else startChildren (i + 1) rest

/-- `EESOX`. -/
def EESOX : Container := fun reader => do
  let sector ← readSector reader 7
  let decrypted := xorDecrypt (sector.take 256) EESOX_KEY
  let partitions := readStarts decrypted 8 0
  require (partitions ≠ []) (.invalidData "no EESOX partitions found")
  return startChildren 0 partitions

theorem readStarts_lt {decrypted : Bytes} {turns i : Nat} :
    ∀ start ∈ readStarts decrypted turns i, start < 2 ^ 32 := by
  induction turns generalizing i with
  | zero => simp [readStarts]
  | succ turns ih =>
      rw [readStarts]
      split
      · simp
      · rw [List.forall_mem_cons]
        exact ⟨leField_lt _ _ 4, ih⟩

/-- The last partition goes on to the end of the numbers. -/
theorem getLast?_startChildren {starts : List Nat} (hne : starts ≠ [])
    (hsmall : ∀ start ∈ starts, start < 2 ^ 32) (i : Nat) :
    ∃ start < 2 ^ 32, ∃ j, (startChildren i starts).getLast? =
      some (window j (start * 512) ((2 ^ 55 - 1 - start) * 512)) := by
  induction starts generalizing i with
  | nil => exact absurd rfl hne
  | cons start rest ih =>
      rw [List.forall_mem_cons] at hsmall
      rw [startChildren]
      cases rest with
      | nil =>
          refine ⟨start, hsmall.1, i, ?_⟩
          have hsize : endSect [] - start = 2 ^ 55 - 1 - start := rfl
          have hlt := hsmall.1
          rw [hsize, if_pos (by omega), startChildren, SECTOR_SIZE, wrap_of_lt (by omega),
            wrap_of_lt (by omega)]
          rfl
      | cons next rest =>
          obtain ⟨last, hlast, j, hkids⟩ := ih (by simp) hsmall.2 (i + 1)
          refine ⟨last, hlast, j, ?_⟩
          split
          · rw [List.getLast?_cons, hkids]
            rfl
          · exact hkids

/-! ## ADFS -/

/-- `adfs_checksum`: the sum of the bytes from the last but one down, with the carry folded in. -/
def adfsChecksum (data : Bytes) : Bool :=
  let result := (data.take 511).foldr (fun b result =>
    (result % 256 + result / 256 + b.toNat) % 2 ^ 32) 0
  result % 256 == leField data 511 1

/-- `DiscRecord`. -/
structure DiscRecord where
  secspertrack : Nat
  heads : Nat
  lowsector : Nat
  disc_size : Nat
  disc_size_high : Nat

/-- `DiscRecord::parse`, of the boot block. -/
def DiscRecord.parse (data : Bytes) : DiscRecord where
  secspertrack := leField data (0x1c0 + 1) 1
  heads := leField data (0x1c0 + 2) 1
  lowsector := leField data (0x1c0 + 8) 1
  disc_size := leField data (0x1c0 + 16) 4
  disc_size_high := leField data (0x1c0 + 36) 4

/-- `sectors`. -/
def DiscRecord.sectors (dr : DiscRecord) : Nat := dr.disc_size_high * 2 ^ 23 ||| dr.disc_size / 2 ^ 9

/-- `effective_heads`. -/
def DiscRecord.effectiveHeads (dr : DiscRecord) : Nat :=
  dr.heads + if dr.lowsector &&& 0x40 ≠ 0 then 1 else 0

def PARTITION_RISCIX_MFM : Nat := 1
def PARTITION_RISCIX_SCSI : Nat := 2
def PARTITION_LINUX : Nat := 9
def RISCIX_MAGIC : Nat := 0x4a657320
def LINUX_NATIVE_MAGIC : Nat := 0xdeafa1de
def LINUX_SWAP_MAGIC : Nat := 0xdeafab1e

/-- "All", with its NUL. -/
def ALL_NAME : Bytes := [0x41, 0x6c, 0x6c, 0]

/-- A secondary partition of unknown size. -/
def openEnded (start_sect : Nat) : Child :=
  let start := wrap (start_sect * SECTOR_SIZE)
  window 1 start (U64_MAX - start)

/-- The boot area of a secondary partition: its first two sectors. -/
def bootArea (start_sect : Nat) : Child :=
  window 1 (wrap (start_sect * SECTOR_SIZE)) (2 * SECTOR_SIZE)

/-- The loop over the RISCiX entries. -/
def riscixChildren (sector : Bytes) : (turns i slot : Nat) → List Child
  | 0, _, _ => []
  | turns + 1, i, slot =>
      let entry_off := 8 + i * 28
      let start := leField sector entry_off 4
      let length := leField sector (entry_off + 4) 4
      let one := leField sector (entry_off + 8) 4
      let name := sector.slice (entry_off + 12) 16
      if one = 0 ∨ ALL_NAME.isPrefixOf name then riscixChildren sector turns (i + 1) slot
      else if 0 < start ∧ 0 < length then
        window slot (start * SECTOR_SIZE) (length * SECTOR_SIZE) ::
          riscixChildren sector turns (i + 1) (slot + 1)
      else riscixChildren sector turns (i + 1) slot

/-- `parse_riscix`. -/
def parseRiscix (reader : Reader) (start_sect : Nat) : Except IoError (List Child) := do
  let sector ← readSector reader start_sect
  if leField sector 0 4 ≠ RISCIX_MAGIC then return [openEnded start_sect]
  else return bootArea start_sect :: riscixChildren sector 8 0 2

/-- The loop over the Linux entries; 42 of them fit in the sector. -/
def linuxChildren (sector : Bytes) (start_sect : Nat) : (turns offset slot : Nat) → List Child
  | 0, _, _ => []
  | turns + 1, offset, slot =>
      let magic := leField sector offset 4
      if magic ≠ LINUX_NATIVE_MAGIC ∧ magic ≠ LINUX_SWAP_MAGIC then []
      else
        let part_start := leField sector (offset + 4) 4
        let part_size := leField sector (offset + 8) 4
        if 0 < part_start ∧ 0 < part_size then
          window slot (wrap ((start_sect + part_start) * SECTOR_SIZE)) (part_size * SECTOR_SIZE) ::
            linuxChildren sector start_sect turns (offset + 12) (slot + 1)
        else linuxChildren sector start_sect turns (offset + 12) slot

/-- `parse_linux`. -/
def parseLinux (reader : Reader) (start_sect : Nat) : Except IoError (List Child) := do
  let sector ← readSector reader start_sect
  return bootArea start_sect :: linuxChildren sector start_sect 42 0 2

/-- The type and first sector of the secondary partition, where there is one. -/
def secondary (boot : Bytes) : Option (Nat × Nat) :=
  let part_type := leField boot 0x1fc 1 % 16
  let dr := DiscRecord.parse boot
  let cylinder := leField boot 0x1fe 1 * 256 + leField boot 0x1fd 1
  let start_sect := cylinder * (dr.secspertrack * dr.effectiveHeads)
  if part_type ≠ 0 ∧ 0 < start_sect then some (part_type, start_sect) else none

/-- The children of a secondary partition. -/
def secondaryChildren (reader : Reader) (part_type start_sect : Nat) : Except IoError (List Child) :=
  if part_type = PARTITION_RISCIX_MFM ∨ part_type = PARTITION_RISCIX_SCSI then
    parseRiscix reader start_sect
  else if part_type = PARTITION_LINUX then parseLinux reader start_sect
  else .ok [openEnded start_sect]

/-- The primary partition. -/
def primaryChildren (dr : DiscRecord) : List Child :=
  if 0 < dr.sectors then [window 0 0 (wrap (dr.sectors * SECTOR_SIZE))] else []

/-- `ADFS`. -/
def ADFS : Container := fun reader => do
  let boot ← readSector reader 6
  require (adfsChecksum boot) (.invalidData "invalid ADFS checksum")
  let dr := DiscRecord.parse boot
  require (¬ (dr.disc_size = 0 ∧ dr.disc_size_high = 0)) (.invalidData "zero disc size")
  match secondary boot with
  | none => return primaryChildren dr
  | some (part_type, start_sect) =>
      let kids ← secondaryChildren reader part_type start_sect
      return primaryChildren dr ++ kids

/-- The secondary partition is of no known type, or has no table. -/
def Untabled (reader : Reader) (boot : Bytes) : Prop :=
  ∃ part_type start_sect, secondary boot = some (part_type, start_sect) ∧
    if part_type = PARTITION_RISCIX_MFM ∨ part_type = PARTITION_RISCIX_SCSI then
      ∃ sector, readSector reader start_sect = .ok sector ∧ leField sector 0 4 ≠ RISCIX_MAGIC
    else part_type ≠ PARTITION_LINUX

/-- The cylinders of a boot block in sectors. -/
theorem cylinders_lt (boot : Bytes) : (leField boot 0x1fe 1 * 256 + leField boot 0x1fd 1) *
    ((DiscRecord.parse boot).secspertrack * (DiscRecord.parse boot).effectiveHeads) < 2 ^ 40 := by
  have hbyte : ∀ off, leField boot off 1 < 256 := fun off => leField_lt boot off 1
  have hcylinder : leField boot 0x1fe 1 * 256 + leField boot 0x1fd 1 < 2 ^ 16 := by
    have := hbyte 0x1fe
    have := hbyte 0x1fd
    omega
  have hsectscyl : (DiscRecord.parse boot).secspertrack * (DiscRecord.parse boot).effectiveHeads <
      2 ^ 24 := by
    have hheads : (DiscRecord.parse boot).effectiveHeads ≤ 2 ^ 8 := by
      have : (DiscRecord.parse boot).heads < 256 := hbyte (0x1c0 + 2)
      unfold DiscRecord.effectiveHeads
      split <;> omega
    have hsecs : (DiscRecord.parse boot).secspertrack < 2 ^ 8 := hbyte (0x1c0 + 1)
    calc _ ≤ (DiscRecord.parse boot).secspertrack * 2 ^ 8 := Nat.mul_le_mul_left _ hheads
      _ < 2 ^ 8 * 2 ^ 8 := Nat.mul_lt_mul_of_pos_right hsecs (by decide)
      _ < 2 ^ 24 := by decide
  calc _ ≤ (leField boot 0x1fe 1 * 256 + leField boot 0x1fd 1) * 2 ^ 24 :=
        Nat.mul_le_mul_left _ hsectscyl.le
    _ < 2 ^ 16 * 2 ^ 24 := Nat.mul_lt_mul_of_pos_right hcylinder (by decide)
    _ = 2 ^ 40 := by decide

theorem secondary_lt {boot : Bytes} {part_type start_sect : Nat}
    (h : secondary boot = some (part_type, start_sect)) : start_sect < 2 ^ 40 := by
  unfold secondary at h
  dsimp only at h
  split at h
  · obtain ⟨-, rfl⟩ := Prod.mk.inj (Option.some.inj h)
    exact cylinders_lt boot
  · cases h

/-- Such a partition is the last child. -/
theorem getLast?_ADFS {reader : Reader} {boot : Bytes} {kids : List Child}
    (h : ADFS reader = .ok kids) (hboot : readSector reader 6 = .ok boot)
    (huntabled : Untabled reader boot) :
    ∃ start_sect < 2 ^ 40, kids.getLast? = some (openEnded start_sect) := by
  obtain ⟨part_type, start_sect, hsecondary, htype⟩ := huntabled
  have hkids : secondaryChildren reader part_type start_sect = .ok [openEnded start_sect] := by
    unfold secondaryChildren
    split at htype
    · rename_i hriscix
      obtain ⟨sector, hsector, hmagic⟩ := htype
      rw [if_pos hriscix, parseRiscix, hsector]
      exact if_pos hmagic
    · rename_i hriscix
      rw [if_neg hriscix, if_neg htype]
  obtain ⟨boot', hboot', h⟩ := bind_eq_ok.mp h
  obtain rfl := Except.ok.inj (hboot.symm.trans hboot')
  obtain ⟨_, -, h⟩ := bind_eq_ok.mp h
  obtain ⟨_, -, h⟩ := bind_eq_ok.mp h
  simp only [hsecondary, hkids] at h
  obtain rfl := Except.ok.inj h
  exact ⟨start_sect, secondary_lt hsecondary, by simp⟩

/-! ## Honest sizes -/

/-- **Honest sizes.** The size of a child is honest exactly when all its bytes are present: a window
ends where its parent has bytes, and the entries of a map point at some. The last partition of an
EESOX table, and a secondary ADFS partition without a table, are never honest. -/
theorem honest_sizes_iff (src : Source) (hvalid : src.Valid) (hchild : src.IsChild) :
    (src.reader.Honest ↔ ∀ off < src.size, src.Present off) ∧
    (∀ (image : Image) (kids : List Child), EESOX (fileReader image) = .ok kids →
      ∃ last, kids.getLast? = some last ∧ ¬ (last.view.reader (fileReader image)).Honest) ∧
    ∀ (image : Image) (boot : Bytes) (kids : List Child), ADFS (fileReader image) = .ok kids →
      readSector (fileReader image) 6 = .ok boot → Untabled (fileReader image) boot →
        ∃ last, kids.getLast? = some last ∧ ¬ (last.view.reader (fileReader image)).Honest := by
  refine ⟨Source.honest_iff hvalid hchild, fun image kids h => ?_, fun image boot kids h hboot hopen => ?_⟩
  · have hsmall := image.small
    obtain ⟨sector, -, h⟩ := bind_eq_ok.mp h
    obtain ⟨_, hne, h⟩ := bind_eq_ok.mp h
    obtain rfl := Except.ok.inj h
    obtain ⟨start, hstart, j, hlast⟩ :=
      getLast?_startChildren (require_eq_ok.mp hne) readStarts_lt 0
    simp only [FILE_OFFSET_LIMIT] at hsmall
    refine ⟨_, hlast, @Source.window_not_honest image _ _ ?_ ?_ ?_⟩
    · simp only [FILE_OFFSET_LIMIT]
      omega
    · omega
    · omega
  · have hsmall := image.small
    obtain ⟨start_sect, hstart, hlast⟩ := getLast?_ADFS h hboot hopen
    have hwrap : wrap (start_sect * SECTOR_SIZE) = start_sect * 512 :=
      wrap_of_lt (by simp only [SECTOR_SIZE]; omega)
    simp only [FILE_OFFSET_LIMIT] at hsmall
    refine ⟨_, hlast, @Source.window_not_honest image _ _ ?_ ?_ ?_⟩
    · simp only [hwrap, FILE_OFFSET_LIMIT]
      omega
    · simp only [hwrap, U64_MAX]
      omega
    · simp only [hwrap, U64_MAX]
      omega

/-! ## A partition past the end of its image -/

/-- A partition of 254 cylinders in an image that holds fewer: its window says that it has 2032
bytes, and has nothing at byte 1000. -/
theorem past_the_end :
    Rdb.RDB (fileReader (amigaImage 2 255)) = .ok [window 0 16 2032] ∧
      (sliceReader (fileReader (amigaImage 2 255)) 16 2032).size = some 2032 ∧
      (sliceReader (fileReader (amigaImage 2 255)) 16 2032).readAt 1000 1 = .ok [] := by
  refine ⟨?_, rfl, rfl⟩
  have hlist : Rdb.readList (fileReader (amigaImage 2 255)) =
      .ok (⟨4, 1, 2⟩, [⟨0xffffffff, 2, 255⟩]) := by
    rfl
  rw [Rdb.RDB, hlist]
  rfl

/-- The window of an image that lies in it. -/
theorem window_within : (sliceReader (fileReader (amigaImage 2 3)) 16 16).Honest := by
  refine (honest_sizes_iff (.window (.file (amigaImage 2 3)) 16 16) trivial trivial).1.mpr
    fun off hoff => ⟨hoff, .inl ?_⟩
  simp only [Source.size] at hoff
  rw [Nat.mod_eq_of_lt (by omega)]
  have hlength : (amigaImage 2 3).bytes.length = 176 := rfl
  omega

end Mountin.Acorn
