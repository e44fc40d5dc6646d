import Mountin.Partition.Exact

set_option autoImplicit false

/-! # IBM DASD labels

`dasd.rs`: one label in EBCDIC in sector 1 or 2, with one partition.
-/

namespace Mountin.Dasd

open Partition Tracks

/-- `VOL1_EBCDIC`. -/
def VOL1_EBCDIC : Nat := 0xE5D6D3F1

/-- `LNX1_EBCDIC`. -/
def LNX1_EBCDIC : Nat := 0xD3D5E7F1

/-- `CMS1_EBCDIC`. -/
def CMS1_EBCDIC : Nat := 0xC3D4E2F1

/-- `LNX1_VERSION_LARGE`. -/
def LNX1_VERSION_LARGE : Nat := 0xF2

/-- What a label says of its partition. -/
inductive Label where
  /-- The blocks of a formatted volume. -/
  | lnx1 (label_sector size_sectors : Nat)
  | cms1 (label_sector block_size disk_offset block_count : Nat)

/-- The fields of `parse_lnx1`. -/
def readLnx1 (reader : Reader) (label_sector : Nat) : Except IoError Label := do
  let label_offset := label_sector * SECTOR_SIZE
  let version ← readLe reader 1 (label_offset + 0x0A)
  if version = LNX1_VERSION_LARGE then
    let size_sectors ← readBe reader 8 (label_offset + 0x0B)
    return .lnx1 label_sector size_sectors
  else
    -- without large volume support, the size is not known
    return .lnx1 label_sector 0

/-- The fields of `parse_cms1`. -/
def readCms1 (reader : Reader) (label_sector : Nat) : Except IoError Label := do
  let label_offset := label_sector * SECTOR_SIZE
  let block_size ← readBe reader 4 (label_offset + 0x0C)
  let disk_offset ← readBe reader 4 (label_offset + 0x10)
  let block_count ← readBe reader 4 (label_offset + 0x14)
  return .cms1 label_sector block_size disk_offset block_count

/-- The label in one of the sectors; VOL1 labels have no partitions here. -/
def readLabels (reader : Reader) : List Nat → Except IoError (List Label)
  | [] => .error (.invalidData "DASD label not found")
  | label_sector :: rest => do
      let magic ← readBe reader 4 (label_sector * SECTOR_SIZE)
      if magic = VOL1_EBCDIC then return []
      else if magic = LNX1_EBCDIC then return [← readLnx1 reader label_sector]
      else if magic = CMS1_EBCDIC then return [← readCms1 reader label_sector]
      else readLabels reader rest

/-- Where the partition of a regular CMS disk starts. -/
def cmsStart (label_sector secperblk : Nat) : Nat :=
  if label_sector = 1 then 2 * secperblk * SECTOR_SIZE else (label_sector + secperblk) * SECTOR_SIZE

/-- The offset and length of the partition: `parse_lnx1` and `parse_cms1`. -/
def Label.compute : Label → Option (Nat × Nat)
  | .lnx1 label_sector size_sectors =>
      if size_sectors = 0 then none
      else
        let start := (label_sector + 1) * SECTOR_SIZE
        some (start, wrapSub (wrap (size_sectors * SECTOR_SIZE)) start)
  | .cms1 label_sector block_size disk_offset block_count =>
      if block_size = 0 ∨ block_count = 0 then none
      else
        let secperblk := block_size / 512
        if disk_offset ≠ 0 then
          some (wrap (disk_offset * secperblk * SECTOR_SIZE),
            wrap ((block_count - 1) * secperblk * SECTOR_SIZE))
        else
          let start := wrap (cmsStart label_sector secperblk)
          some (start, wrapSub (wrap (block_count * secperblk * SECTOR_SIZE)) start)

/-- `DASD`. -/
def DASD : Container := fun reader => do
  let labels ← readLabels reader [1, 2]
  return labels.filterMap fun label => label.compute.map fun w => window 0 w.1 w.2

/-- The extent of the partition, in exact numbers. -/
def Label.extent : Label → ℤ × ℤ
  | .lnx1 label_sector size_sectors =>
      ((label_sector + 1) * 512, size_sectors * 512 - (label_sector + 1) * 512)
  | .cms1 label_sector block_size disk_offset block_count =>
      let secperblk := block_size / 512
      if disk_offset ≠ 0 then
        ((disk_offset * secperblk * 512 : ℕ), (block_count - 1) * secperblk * 512)
      else
        (cmsStart label_sector secperblk,
          block_count * secperblk * 512 - cmsStart label_sector secperblk)

/-- The fields of a label that was read. -/
def Label.Small : Label → Prop
  | .lnx1 label_sector _ => label_sector ≤ 2
  | .cms1 label_sector block_size disk_offset block_count =>
      label_sector ≤ 2 ∧ block_size < 2 ^ 32 ∧ disk_offset < 2 ^ 32 ∧ block_count < 2 ^ 32

/-- When the numbers of the partition are right: a formatted volume ends behind its label and
below `2^64`; the blocks of a CMS disk are whole sectors, and more than come before the partition;
a minidisk has more than one block and ends below `2^64`. -/
def Label.Admitted : Label → Prop
  | .lnx1 label_sector size_sectors =>
      size_sectors = 0 ∨ label_sector + 1 < size_sectors ∧ size_sectors * 512 < 2 ^ 64
  | .cms1 label_sector block_size disk_offset block_count =>
      block_size = 0 ∨ block_count = 0 ∨
        if disk_offset ≠ 0 then
          512 ≤ block_size ∧ 1 < block_count ∧
            (disk_offset + block_count - 1) * (block_size / 512) * 512 < 2 ^ 64
        else cmsStart label_sector (block_size / 512) < block_count * (block_size / 512) * 512

theorem Label.compute_eq_none {label : Label} : label.compute = none ↔
    match label with
    | .lnx1 _ size_sectors => size_sectors = 0
    | .cms1 _ block_size _ block_count => block_size = 0 ∨ block_count = 0 := by
  cases label with
  | lnx1 label_sector size_sectors => simp [compute]
  | cms1 label_sector block_size disk_offset block_count =>
      simp only [compute]
      split_ifs with hzero <;> simp [hzero]

theorem Label.extent_of_skipped {label : Label} (h : label.compute = none) : ¬ Fits label.extent := by
  rw [compute_eq_none] at h
  rintro ⟨-, hpos, -⟩
  cases label with
  | lnx1 label_sector size_sectors =>
      simp only [extent] at hpos
      omega
  | cms1 label_sector block_size disk_offset block_count =>
      have hproduct : block_count * (block_size / 512) = 0 := by
        rcases h with rfl | rfl <;> simp
      have hcast : (block_count : ℤ) * (block_size / 512 : ℕ) = 0 := by exact_mod_cast hproduct
      simp only [extent] at hpos
      split_ifs at hpos
      · rw [sub_mul, hcast] at hpos
        omega
      · rw [hcast] at hpos
        omega

/-- The blocks and sectors of a CMS label multiply without overflow. -/
theorem product_lt {blocks block_size : Nat} (hblocks : blocks < 2 ^ 32) (hsize : block_size < 2 ^ 32) :
    blocks * (block_size / 512) * 512 < 2 ^ 64 := by
  have hle : block_size / 512 * 512 ≤ 2 ^ 32 := by omega
  calc blocks * (block_size / 512) * 512 = blocks * (block_size / 512 * 512) := by rw [mul_assoc]
    _ ≤ blocks * 2 ^ 32 := Nat.mul_le_mul_left _ hle
    _ < 2 ^ 32 * 2 ^ 32 := Nat.mul_lt_mul_of_pos_right hblocks (by decide)
    _ = 2 ^ 64 := by decide

theorem wrapSub_of_le {a b : Nat} (h : b ≤ a) (ha : a < 2 ^ 64) : wrapSub a b = a - b := by
  rw [wrapSub, wrap]
  omega

theorem cmsStart_lt {label_sector block_size : Nat} (hsector : label_sector ≤ 2)
    (hsize : block_size < 2 ^ 32) : cmsStart label_sector (block_size / 512) < 2 ^ 64 := by
  have hle : block_size / 512 ≤ 2 ^ 23 := by omega
  unfold cmsStart SECTOR_SIZE
  split_ifs <;> omega

theorem Label.sound_iff {label : Label} (hsmall : label.Small) :
    Sound label.extent label.compute ↔ label.Admitted := by
  cases label with
  | lnx1 label_sector size_sectors =>
      simp only [compute, Admitted]
      split_ifs with hzero
      · simp [Sound, hzero]
      simp only [hzero, false_or, SECTOR_SIZE]
      by_cases hlt : label_sector + 1 < size_sectors
      · have hextent : (lnx1 label_sector size_sectors).extent =
            ((((label_sector + 1) * 512 : ℕ) : ℤ),
              ((size_sectors * 512 - (label_sector + 1) * 512 : ℕ) : ℤ)) := by
          simp only [extent, Prod.mk.injEq]
          omega
        have hle : (label_sector + 1) * 512 < size_sectors * 512 :=
          Nat.mul_lt_mul_of_pos_right hlt (by decide)
        rw [hextent, sound_natCast_iff, Nat.add_sub_cancel' hle.le]
        constructor
        · exact fun h => ⟨hlt, h.2.1⟩
        · rintro ⟨-, hend⟩
          refine ⟨Nat.sub_pos_of_lt hle, hend, ?_⟩
          rw [wrap_of_lt hend, wrapSub_of_le hle.le hend]
      · refine ⟨fun h => ?_, fun h => absurd h.1 hlt⟩
        have hpos := (h _ rfl).1.2.1
        simp only [extent] at hpos
        omega
  | cms1 label_sector block_size disk_offset block_count =>
      obtain ⟨hsector, hsize, hoffset, hcount⟩ := hsmall
      simp only [compute, Admitted]
      by_cases hzero : block_size = 0 ∨ block_count = 0
      · simp only [if_pos hzero, Sound, Option.mem_def, reduceCtorEq, false_implies, implies_true,
          true_iff]
        exact hzero.imp_right .inl
      rw [if_neg hzero]
      rw [not_or] at hzero
      by_cases hdisk : disk_offset ≠ 0
      · -- a minidisk
        rw [if_pos hdisk, if_pos hdisk]
        obtain ⟨n, rfl⟩ := Nat.exists_eq_succ_of_ne_zero hzero.2
        have hextent : (cms1 label_sector block_size disk_offset (n + 1)).extent =
            (((disk_offset * (block_size / 512) * 512 : ℕ) : ℤ),
              ((n * (block_size / 512) * 512 : ℕ) : ℤ)) := by
          simp only [extent, if_pos hdisk, Prod.mk.injEq, true_and]
          push_cast
          ring
        have hend : disk_offset * (block_size / 512) * 512 + n * (block_size / 512) * 512 =
            (disk_offset + n) * (block_size / 512) * 512 := by ring
        rw [Nat.succ_eq_add_one, hextent, sound_natCast_iff, hend, SECTOR_SIZE,
          wrap_of_lt (product_lt hoffset hsize), Nat.add_sub_cancel,
          wrap_of_lt (product_lt (by omega) hsize), ← Nat.add_assoc, Nat.add_sub_cancel]
        constructor
        · rintro ⟨hpos, hfits, -⟩
          have hn : 0 < n * (block_size / 512) := Nat.pos_of_mul_pos_right hpos
          have := Nat.pos_of_mul_pos_right hn
          have := Nat.pos_of_mul_pos_left hn
          exact .inr (.inr ⟨by omega, by omega, hfits⟩)
        · rintro (h | h | ⟨hblock, hn, hfits⟩)
          · exact absurd h hzero.1
          · exact absurd h hzero.2
          · exact ⟨Nat.mul_pos (Nat.mul_pos (by omega) (by omega)) (by decide), hfits, rfl⟩
      · -- a regular disk
        rw [if_neg hdisk, if_neg hdisk]
        have hstart := cmsStart_lt hsector hsize
        have hproduct := product_lt hcount hsize
        simp only [hzero.1, hzero.2, false_or, SECTOR_SIZE, wrap_of_lt hstart, wrap_of_lt hproduct]
        by_cases hlt : cmsStart label_sector (block_size / 512) < block_count * (block_size / 512) * 512
        · have hextent : (cms1 label_sector block_size disk_offset block_count).extent =
              ((cmsStart label_sector (block_size / 512) : ℤ), ((block_count * (block_size / 512) * 512 -
                cmsStart label_sector (block_size / 512) : ℕ) : ℤ)) := by
            simp only [extent, if_neg hdisk, Prod.mk.injEq, true_and]
            rw [Nat.cast_sub hlt.le]
            push_cast
            rfl
          rw [hextent, sound_natCast_iff, wrapSub_of_le hlt.le hproduct]
          simp only [hlt, and_true, iff_true]
          omega
        · refine ⟨fun h => ?_, fun h => absurd h hlt⟩
          have hpos := (h _ rfl).1.2.1
          simp only [extent, if_neg hdisk] at hpos
          have hcast : (block_count : ℤ) * (block_size / 512 : ℕ) * 512 =
              (block_count * (block_size / 512) * 512 : ℕ) := by push_cast; rfl
          rw [hcast] at hpos
          omega

/-- The labels that are read have fields of their width. -/
theorem readLabels_small {reader : Reader} {sectors : List Nat} (hsectors : ∀ s ∈ sectors, s ≤ 2)
    {labels : List Label} (h : readLabels reader sectors = .ok labels) : ∀ label ∈ labels, label.Small := by
  induction sectors with
  | nil => cases h
  | cons sector rest ih =>
      rw [List.forall_mem_cons] at hsectors
      obtain ⟨magic, -, h⟩ := bind_eq_ok.mp h
      split_ifs at h
      · obtain rfl := Except.ok.inj h
        simp
      · obtain ⟨label, hlabel, h⟩ := bind_eq_ok.mp h
        obtain rfl := Except.ok.inj h
        obtain ⟨version, -, hlabel⟩ := bind_eq_ok.mp hlabel
        rw [List.forall_mem_singleton]
        split at hlabel
        · obtain ⟨size, -, hlabel⟩ := bind_eq_ok.mp hlabel
          exact Except.ok.inj hlabel ▸ hsectors.1
        · exact Except.ok.inj hlabel ▸ hsectors.1
      · obtain ⟨label, hlabel, h⟩ := bind_eq_ok.mp h
        obtain rfl := Except.ok.inj h
        obtain ⟨block_size, hsize, hlabel⟩ := bind_eq_ok.mp hlabel
        obtain ⟨disk_offset, hoffset, hlabel⟩ := bind_eq_ok.mp hlabel
        obtain ⟨block_count, hcount, hlabel⟩ := bind_eq_ok.mp hlabel
        obtain rfl := Except.ok.inj hlabel
        rw [List.forall_mem_singleton]
        exact ⟨hsectors.1, readBe_lt hsize, readBe_lt hoffset, readBe_lt hcount⟩
      · exact ih hsectors.2 h

/-- The children are the windows of the labels. -/
theorem places_children {reader : Reader} {kids : List Child} (h : DASD reader = .ok kids) :
    ∃ labels, readLabels reader [1, 2] = .ok labels ∧
      kids.map (fun kid => (kid.offset, kid.view)) = (labels.filterMap Label.compute).map placed := by
  obtain ⟨labels, hlabels, h⟩ := bind_eq_ok.mp h
  refine ⟨labels, hlabels, ?_⟩
  obtain rfl := Except.ok.inj h
  exact places_filterMap_window _ _ labels

end Mountin.Dasd
