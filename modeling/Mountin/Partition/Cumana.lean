import Mountin.Basic.LinkedWalk
import Mountin.Partition.Acorn

set_option autoImplicit false

/-! # Cumana partition tables

`cumana.rs`: a chain of ADFS partitions, each with a boot block that says where the next one begins. The
loop counts the position twice: in sectors, and in blocks of two sectors for the boot block.

* `cumanaFrom_eq` : the loop is a walk, and then the tables of the last partition.
* `listed_iff` : when the boot blocks are those of the partitions.
-/

namespace Mountin.Acorn

open Partition
open Ics (readSector)

/-- `MAX_CHAIN`. -/
def MAX_CHAIN : Nat := 64

/-- The boot block in a sector, if it is valid. -/
def bootAt (reader : Reader) (sector_num : Nat) : Option Bytes :=
  match readSector reader sector_num with
  | .error _ => none
  | .ok boot =>
      let dr := DiscRecord.parse boot
      if adfsChecksum boot ∧ ¬(dr.disc_size = 0 ∧ dr.disc_size_high = 0) then some boot else none

/-- The window of the partition of a boot block. -/
def bootWindow (first_sector : Nat) (boot : Bytes) : Option (Nat × Nat) :=
  let nr_sects := (DiscRecord.parse boot).sectors
  if 0 < nr_sects then some (wrap (first_sector * SECTOR_SIZE), wrap (nr_sects * SECTOR_SIZE)) else none

/-- `next_sects`: the cylinders of the partition in sectors. -/
def nextSects (boot : Bytes) : Nat :=
  let dr := DiscRecord.parse boot
  let cylinder := leField boot 0x1fe 1 * 256 + leField boot 0x1fd 1
  cylinder * (dr.secspertrack * dr.effectiveHeads)

/-- `part_type`: what the next partition is. -/
def partType (boot : Bytes) : Nat := leField boot 0x1fc 1 % 16

/-- The boot area of a partition of another system. -/
def cumanaBootArea (start_sect slot : Nat) : Child :=
  window slot (wrap (start_sect * SECTOR_SIZE)) (2 * SECTOR_SIZE)

/-- `parse_riscix_cumana`. -/
def parseRiscixCumana (reader : Reader) (start_sect slot : Nat) : Except IoError (List Child) := do
  let sector ← readSector reader start_sect
  if leField sector 0 4 ≠ RISCIX_MAGIC then return [cumanaBootArea start_sect slot]
  else return cumanaBootArea start_sect slot :: riscixChildren sector 8 0 (slot + 1)

/-- `parse_linux_cumana`. -/
def parseLinuxCumana (reader : Reader) (start_sect slot : Nat) : Except IoError (List Child) := do
  let sector ← readSector reader start_sect
  return cumanaBootArea start_sect slot :: linuxChildren sector start_sect 42 0 (slot + 1)

/-- The children of a partition that is not ADFS; there are none for an unknown type. -/
def otherChildren (reader : Reader) (part_type start_sect slot : Nat) : Except IoError (List Child) :=
  if part_type = PARTITION_RISCIX_MFM ∨ part_type = PARTITION_RISCIX_SCSI then
    parseRiscixCumana reader start_sect slot
  else if part_type = PARTITION_LINUX then parseLinuxCumana reader start_sect slot
  else .ok []

/-- The loop, with the turns that are left. -/
def cumanaFrom (reader : Reader) :
    (turns start_blk first_sector slot : Nat) → Except IoError (List Child)
  | 0, _, _, _ => .ok []
  | turns + 1, start_blk, first_sector, slot =>
    -- the boot block is sector 6 of blocks of 1K
    match bootAt reader (start_blk * 2 + 6) with
    | none => .ok []
    | some boot => do
      let found := (bootWindow first_sector boot).toList
      let next_sects := nextSects boot
      if next_sects = 0 then return numbered slot found
      else
        let first_sector := first_sector + next_sects
        let start_blk := start_blk + next_sects / 2
        let more ←
          if partType boot = 0 then
            cumanaFrom reader turns start_blk first_sector (slot + found.length)
          else otherChildren reader (partType boot) first_sector (slot + found.length)
        return numbered slot found ++ more

/-- `CUMANA`. -/
def CUMANA : Container := fun reader => cumanaFrom reader MAX_CHAIN 0 0 0

/-! ## The walk -/

/-- Another ADFS partition follows. -/
def Followed (boot : Bytes) : Prop := nextSects boot ≠ 0 ∧ partType boot = 0

instance (boot : Bytes) : Decidable (Followed boot) := inferInstanceAs (Decidable (_ ∧ _))

/-- The two variables of the loop. -/
structure Position where
  start_blk : Nat
  first_sector : Nat

/-- The sector that the loop reads the boot block from. -/
def Position.bootSector (p : Position) : Nat := p.start_blk * 2 + 6

/-- The next values of the two variables. -/
def Position.next (p : Position) (boot : Bytes) : Option Position :=
  if Followed boot then some ⟨p.start_blk + nextSects boot / 2, p.first_sector + nextSects boot⟩ else none

section

variable (reader : Reader)

/-- The boot block that the loop reads. -/
def Position.boot (p : Position) : Option Bytes := bootAt reader p.bootSector

/-- The valid boot blocks that so many turns of the loop read. -/
def visits (turns : Nat) (p : Option Position) : List (Position × Bytes) :=
  LinkedWalk.follow (Position.boot reader) Position.next turns p

/-- The positions of all iterations: one more when the last finds no valid boot block. -/
def iterations (turns : Nat) (p : Option Position) : List Position :=
  (visits reader turns p).map Prod.fst ++
    (LinkedWalk.stop (Position.boot reader) Position.next turns p).toList

/-- What follows the last ADFS partition. -/
def tailChildren (found : Option (Position × Bytes)) (slot : Nat) : Except IoError (List Child) :=
  match found with
  | none => .ok []
  | some (p, boot) =>
      if nextSects boot = 0 ∨ partType boot = 0 then .ok []
      else otherChildren reader (partType boot) (p.first_sector + nextSects boot) slot

/-- The windows of the partitions of some boot blocks, each with the first sector. -/
def chainWindows (found : List (Nat × Bytes)) : List (Nat × Nat) :=
  (found.map fun x => (bootWindow x.1 x.2).toList).flatten

/-- What the loop takes for the partitions of the boot blocks. -/
def partitions (found : List (Position × Bytes)) : List (Nat × Bytes) :=
  found.map fun x => (x.1.first_sector, x.2)

variable {reader}

theorem visits_cons {p : Position} {boot : Bytes} (h : p.boot reader = some boot)
    (turns : Nat) : visits reader (turns + 1) (some p) =
      (p, boot) :: visits reader turns (p.next boot) :=
  LinkedWalk.follow_of_read _ _ h turns

/-- The partition of a boot block comes first. -/
theorem chainWindows_cons (p : Position) (boot : Bytes) (rest : List (Position × Bytes)) :
    chainWindows (partitions ((p, boot) :: rest)) =
      (bootWindow p.first_sector boot).toList ++ chainWindows (partitions rest) := by
  rw [partitions, List.map_cons, chainWindows, List.map_cons, List.flatten_cons, chainWindows, partitions]

theorem numbered_append (index : Nat) (w : Option (Nat × Nat)) (windows : List (Nat × Nat)) :
    numbered index (w.toList ++ windows) =
      numbered index w.toList ++ numbered (index + w.toList.length) windows := by
  cases w with
  | none => rfl
  | some w => exact numbered_cons index w windows

/-- An ADFS partition that another follows has no tail of its own. -/
theorem tailChildren_cons {p : Position} {boot : Bytes} (h : Followed boot)
    (rest : List (Position × Bytes)) (slot : Nat) :
    tailChildren reader ((p, boot) :: rest).getLast? slot = tailChildren reader rest.getLast? slot := by
  rw [List.getLast?_cons]
  cases rest.getLast? with
  | none =>
      rw [Option.getD_none, tailChildren, tailChildren]
      exact if_pos (.inr h.2)
  | some x => rfl

/-- **The loop** lists the partitions of the walk, and then what follows the last of them. -/
theorem cumanaFrom_eq (turns : Nat) (p : Position) (slot : Nat) :
    cumanaFrom reader turns p.start_blk p.first_sector slot = (do
      let tail ← tailChildren reader (visits reader turns (some p)).getLast?
        (slot + (chainWindows (partitions (visits reader turns (some p)))).length)
      return numbered slot (chainWindows (partitions (visits reader turns (some p)))) ++ tail) := by
  induction turns generalizing p slot with
  | zero => rfl
  | succ turns ih =>
      rw [cumanaFrom, ← Position.bootSector, ← Position.boot]
      cases hboot : p.boot reader with
      | none =>
          have hnone : visits reader (turns + 1) (some p) = [] :=
            LinkedWalk.follow_of_unread _ _ hboot _
          rw [hnone]
          rfl
      | some boot =>
          rw [visits_cons hboot, chainWindows_cons, numbered_append, List.length_append, ← Nat.add_assoc]
          by_cases hfollowed : Followed boot
          · have hnext : p.next boot =
                some ⟨p.start_blk + nextSects boot / 2, p.first_sector + nextSects boot⟩ :=
              if_pos hfollowed
            rw [hnext, tailChildren_cons hfollowed]
            simp only [hfollowed.1, hfollowed.2, if_false, if_true]
            rw [ih ⟨p.start_blk + nextSects boot / 2, p.first_sector + nextSects boot⟩]
            simp only [bind_assoc, pure_bind, List.append_assoc]
          · have hnext : p.next boot = none := if_neg hfollowed
            have hempty : visits reader turns none = [] := LinkedWalk.follow_none _ _ turns
            have hnil : chainWindows (partitions []) = [] := rfl
            have hnumbered : ∀ index, numbered index [] = [] := fun _ => rfl
            rw [hnext, hempty, List.getLast?_singleton, hnil, hnumbered, List.length_nil, Nat.add_zero,
              List.append_nil, tailChildren]
            dsimp only
            by_cases hzero : nextSects boot = 0
            · rw [if_pos hzero, if_pos (.inl hzero), Except.ok_bind, List.append_nil]
            · have htype : partType boot ≠ 0 := fun htype => hfollowed ⟨hzero, htype⟩
              rw [if_neg hzero, if_neg (not_or.mpr ⟨hzero, htype⟩), if_neg htype]

end

/-! ## The chain -/

/-- The boot block of the partition that begins with a sector. -/
def chainBoot (reader : Reader) (first_sector : Nat) : Option Bytes := bootAt reader (first_sector + 6)

/-- Where the partition begins that another says it is followed by. -/
def chainNext (first_sector : Nat) (boot : Bytes) : Option Nat :=
  if Followed boot then some (first_sector + nextSects boot) else none

/-- The chain of an image: its ADFS partitions up to the first without a valid boot block, or the first
that no other follows. An image has less partitions than bytes. -/
def chain (image : Image) : List (Nat × Bytes) :=
  LinkedWalk.follow (chainBoot (fileReader image)) chainNext (image.bytes.length + 1) (some 0)

/-- The partitions that another one follows, and that so many turns go on from, have an even number of
sectors. -/
def EvenLinks (turns : Nat) (found : List (Nat × Bytes)) : Prop :=
  ∀ i x, found[i]? = some x → i + 1 < turns → Followed x.2 → Even (nextSects x.2)

/-- A partition of another system that has a table follows. -/
def OtherFollows (boot : Bytes) : Prop :=
  nextSects boot ≠ 0 ∧
    (partType boot = PARTITION_RISCIX_MFM ∨ partType boot = PARTITION_RISCIX_SCSI ∨
      partType boot = PARTITION_LINUX)

/-- The table of another system after the last partition can be read. -/
def TableReadable (reader : Reader) (found : List (Nat × Bytes)) : Prop :=
  ∀ x, found.getLast? = some x → OtherFollows x.2 →
    ∃ sector, readSector reader (x.1 + nextSects x.2) = .ok sector

/-- The chain is listed: every boot block is read from sector 6 of the partition whose child is then
emitted, the loop goes through the whole chain, and its partitions are the first children. -/
structure Listed (image : Image) : Prop where
  aligned : ∀ p ∈ iterations (fileReader image) MAX_CHAIN (some ⟨0, 0⟩), p.bootSector = p.first_sector + 6
  whole : partitions (visits (fileReader image) MAX_CHAIN (some ⟨0, 0⟩)) = chain image
  children : ∃ tail, CUMANA (fileReader image) = .ok (numbered 0 (chainWindows (chain image)) ++ tail)

theorem evenLinks_cons {turns : Nat} {x : Nat × Bytes} {rest : List (Nat × Bytes)} :
    EvenLinks (turns + 1) (x :: rest) ↔
      (0 < turns → Followed x.2 → Even (nextSects x.2)) ∧ EvenLinks turns rest := by
  constructor
  · intro h
    refine ⟨fun hturns => h 0 x rfl (Nat.succ_lt_succ hturns), fun i y hy hi => ?_⟩
    exact h (i + 1) y hy (Nat.succ_lt_succ hi)
  · rintro ⟨hfirst, hrest⟩ i y hy hi
    cases i with
    | zero =>
        obtain rfl := Option.some.inj hy
        exact hfirst (Nat.lt_of_succ_lt_succ hi)
    | succ i => exact hrest i y hy (Nat.lt_of_succ_lt_succ hi)

/-- The links that count are those of the first partitions. -/
theorem evenLinks_take (turns : Nat) (found : List (Nat × Bytes)) :
    EvenLinks turns (found.take turns) ↔ EvenLinks turns found := by
  refine forall₂_congr fun i x => ?_
  by_cases hi : i + 1 < turns
  · rw [List.getElem?_take_of_lt (Nat.lt_of_succ_lt hi)]
  · exact iff_of_true (fun _ hlt => absurd hlt hi) fun _ hlt => absurd hlt hi

section

variable {reader : Reader}

theorem iterations_cons (turns : Nat) (p : Position) :
    iterations reader (turns + 1) (some p) =
      p :: (p.boot reader).elim [] fun boot => iterations reader turns (p.next boot) := by
  rw [iterations, visits]
  cases hboot : p.boot reader with
  | none =>
      rw [LinkedWalk.follow_of_unread _ _ hboot, LinkedWalk.stop, hboot]
      rfl
  | some boot =>
      rw [LinkedWalk.follow_of_read _ _ hboot, LinkedWalk.stop, hboot]
      rfl

theorem iterations_none (turns : Nat) : iterations reader turns none = [] := by
  rw [iterations, visits, LinkedWalk.follow_none]
  cases turns <;> rfl

/-- The boot block of an aligned position is that of its partition. -/
theorem boot_of_aligned {p : Position} (h : p.bootSector = p.first_sector + 6) :
    p.boot reader = chainBoot reader p.first_sector := by
  rw [Position.boot, h, chainBoot]

/-- **The two variables stay in step** as long as the partitions have an even number of sectors. -/
theorem aligned_iff (turns : Nat) {p : Position} (hp : p.bootSector = p.first_sector + 6) :
    (∀ q ∈ iterations reader turns (some p), q.bootSector = q.first_sector + 6) ↔
      EvenLinks turns (LinkedWalk.follow (chainBoot reader) chainNext turns (some p.first_sector)) := by
  induction turns generalizing p with
  | zero =>
      refine iff_of_true (fun q hq => ?_) fun i x hx => ?_
      · cases hq
      · cases hx
  | succ turns ih =>
      rw [iterations_cons, List.forall_mem_cons, and_iff_right hp, boot_of_aligned hp]
      cases hboot : chainBoot reader p.first_sector with
      | none =>
          rw [LinkedWalk.follow_of_unread _ _ hboot]
          refine iff_of_true (fun q hq => ?_) fun i x hx => ?_
          · cases hq
          · cases hx
      | some boot =>
          rw [LinkedWalk.follow_of_read _ _ hboot, evenLinks_cons, Option.elim_some]
          by_cases hfollowed : Followed boot
          · have hnext : p.next boot =
                some ⟨p.start_blk + nextSects boot / 2, p.first_sector + nextSects boot⟩ :=
              if_pos hfollowed
            have hchain : chainNext p.first_sector boot = some (p.first_sector + nextSects boot) :=
              if_pos hfollowed
            rw [hnext, hchain, and_congr_left_iff.mpr fun _ => imp_congr_right fun _ => imp_iff_right hfollowed]
            -- the next position is aligned when the number of sectors is even
            have halign : (p.start_blk + nextSects boot / 2) * 2 + 6 = p.first_sector + nextSects boot + 6 ↔
                Even (nextSects boot) := by
              rw [Position.bootSector] at hp
              rw [Nat.even_iff]
              omega
            by_cases heven : Even (nextSects boot)
            · rw [and_iff_right fun _ => heven]
              exact ih (halign.mpr heven)
            · cases turns with
              | zero =>
                  refine iff_of_true (fun q hq => ?_) ⟨fun hlt => absurd hlt (Nat.lt_irrefl 0), ?_⟩
                  · cases hq
                  · intro i x hx
                    cases hx
              | succ turns =>
                  have hmem : ∀ q : Position, q ∈ iterations reader (turns + 1) (some q) := fun q => by
                    rw [iterations_cons]
                    exact List.mem_cons_self
                  exact iff_of_false (fun hall => heven (halign.mp (hall _ (hmem _)))) fun hboth =>
                    heven (hboth.1 (Nat.succ_pos turns))
          · have hnext : p.next boot = none := if_neg hfollowed
            have hchain : chainNext p.first_sector boot = none := if_neg hfollowed
            rw [hnext, hchain, iterations_none, LinkedWalk.follow_none]
            refine iff_of_true (fun q hq => ?_) ⟨fun _ hyes => absurd hyes hfollowed, fun i x hx => ?_⟩
            · cases hq
            · cases hx

/-- A loop in step goes through the chain. -/
theorem partitions_eq (turns : Nat) {p : Position}
    (h : ∀ q ∈ iterations reader turns (some p), q.bootSector = q.first_sector + 6) :
    partitions (visits reader turns (some p)) =
      LinkedWalk.follow (chainBoot reader) chainNext turns (some p.first_sector) := by
  induction turns generalizing p with
  | zero => rfl
  | succ turns ih =>
      rw [iterations_cons, List.forall_mem_cons] at h
      obtain ⟨hp, hrest⟩ := h
      rw [boot_of_aligned hp] at hrest
      cases hboot : chainBoot reader p.first_sector with
      | none =>
          have hunread : p.boot reader = none := (boot_of_aligned hp).trans hboot
          rw [visits, LinkedWalk.follow_of_unread _ _ hboot, LinkedWalk.follow_of_unread _ _ hunread]
          rfl
      | some boot =>
          have hread : p.boot reader = some boot := (boot_of_aligned hp).trans hboot
          rw [hboot, Option.elim_some] at hrest
          rw [visits_cons hread, LinkedWalk.follow_of_read _ _ hboot, partitions, List.map_cons, ← partitions]
          refine congrArg _ ?_
          by_cases hfollowed : Followed boot
          · have hnext : p.next boot =
                some ⟨p.start_blk + nextSects boot / 2, p.first_sector + nextSects boot⟩ :=
              if_pos hfollowed
            have hchain : chainNext p.first_sector boot = some (p.first_sector + nextSects boot) :=
              if_pos hfollowed
            rw [hnext] at hrest ⊢
            rw [hchain]
            exact ih hrest
          · have hnext : p.next boot = none := if_neg hfollowed
            have hchain : chainNext p.first_sector boot = none := if_neg hfollowed
            rw [hnext, hchain, visits, LinkedWalk.follow_none, LinkedWalk.follow_none]
            rfl

theorem nextSects_lt (boot : Bytes) : nextSects boot < 2 ^ 40 := cylinders_lt boot

/-- A boot block that is read lies in the image. -/
theorem chainBoot_inside {image : Image} {first_sector : Nat} {boot : Bytes}
    (hsmall : first_sector < 2 ^ 55 - 6) (h : chainBoot (fileReader image) first_sector = some boot) :
    (first_sector + 6) * 512 + 512 ≤ image.bytes.length := by
  have hsector : ∃ sector, readSector (fileReader image) (first_sector + 6) = .ok sector := by
    rw [chainBoot, bootAt] at h
    cases hread : readSector (fileReader image) (first_sector + 6) with
    | error e =>
        rw [hread] at h
        cases h
    | ok sector => exact ⟨sector, rfl⟩
  obtain ⟨sector, hsector⟩ := hsector
  have hplace : wrap ((first_sector + 6) * SECTOR_SIZE) = (first_sector + 6) * 512 :=
    wrap_of_lt (by rw [SECTOR_SIZE]; omega)
  rw [readSector, hplace] at hsector
  by_contra hend
  by_cases hlimit : (first_sector + 6) * 512 < FILE_OFFSET_LIMIT
  · rw [readExactly_short _ hlimit (by decide) (by omega)] at hsector
    cases hsector
  · rw [readExactly, fileReader] at hsector
    simp only [hlimit, if_false] at hsector
    cases hsector

/-- The chain ends: there are less partitions than bytes. -/
theorem length_chain_le (image : Image) : (chain image).length ≤ image.bytes.length := by
  have hinside : ∀ x ∈ chain image, x.1 < 2 ^ 55 - 6 ∧ chainBoot (fileReader image) x.1 = some x.2 := by
    refine LinkedWalk.forall_mem_follow (P := fun first => first < 2 ^ 55 - 6) ?_ ?_
    · intro first boot next hfirst hboot hnext
      obtain ⟨-, hnext⟩ := Option.ite_none_right_eq_some.mp hnext
      obtain rfl := Option.some.inj hnext
      have hplace := chainBoot_inside hfirst hboot
      have hsmall : image.bytes.length < 2 ^ 63 := image.small
      have hlt := nextSects_lt boot
      omega
    · intro first hfirst
      obtain rfl := Option.some.inj hfirst
      decide
  have hincreasing : ((chain image).map Prod.fst).Pairwise (· < ·) := by
    rw [List.pairwise_map]
    refine LinkedWalk.pairwise_follow (r := (· < ·)) Nat.lt_trans (fun first boot next _ hnext => ?_) _ _
    obtain ⟨hfollowed, hnext⟩ := Option.ite_none_right_eq_some.mp hnext
    obtain rfl := Option.some.inj hnext
    exact Nat.lt_add_of_pos_right (Nat.pos_of_ne_zero hfollowed.1)
  refine (List.length_map (f := Prod.fst)).symm.trans_le ?_
  refine LinkedWalk.length_le_of_nodup_lt (hincreasing.imp fun hlt => Nat.ne_of_lt hlt) fun first hfirst => ?_
  obtain ⟨x, hx, rfl⟩ := List.mem_map.mp hfirst
  have hplace := chainBoot_inside (hinside x hx).1 (hinside x hx).2
  omega

theorem parseRiscixCumana_returns_iff (start_sect slot : Nat) :
    (∃ tail, parseRiscixCumana reader start_sect slot = .ok tail) ↔
      ∃ sector, readSector reader start_sect = .ok sector := by
  rw [parseRiscixCumana]
  cases readSector reader start_sect with
  | error e => exact iff_of_false (by rintro ⟨_, ⟨⟩⟩) (by rintro ⟨_, ⟨⟩⟩)
  | ok sector =>
      refine iff_of_true ?_ ⟨sector, rfl⟩
      rw [Except.ok_bind]
      split_ifs <;> exact ⟨_, rfl⟩

theorem parseLinuxCumana_returns_iff (start_sect slot : Nat) :
    (∃ tail, parseLinuxCumana reader start_sect slot = .ok tail) ↔
      ∃ sector, readSector reader start_sect = .ok sector := by
  rw [parseLinuxCumana]
  cases readSector reader start_sect with
  | error e => exact iff_of_false (by rintro ⟨_, ⟨⟩⟩) (by rintro ⟨_, ⟨⟩⟩)
  | ok sector => exact iff_of_true ⟨_, rfl⟩ ⟨sector, rfl⟩

/-- What follows the last partition fails only where a table cannot be read. -/
theorem tailChildren_returns_iff {found : List (Position × Bytes)} (slot : Nat) :
    (∃ tail, tailChildren reader found.getLast? slot = .ok tail) ↔
      TableReadable reader (partitions found) := by
  rw [TableReadable, partitions, List.getLast?_map]
  cases found.getLast? with
  | none => exact iff_of_true ⟨[], rfl⟩ fun _ hx => by cases hx
  | some x =>
      obtain ⟨p, boot⟩ := x
      simp only [Option.map_some, Option.some.injEq, forall_eq', tailChildren, otherChildren]
      by_cases hnone : nextSects boot = 0 ∨ partType boot = 0
      · rw [if_pos hnone]
        refine iff_of_true ⟨[], rfl⟩ fun hother => ?_
        rcases hnone with hzero | htype
        · exact absurd hzero hother.1
        · rcases hother.2 with h | h | h <;> exact absurd (htype.symm.trans h) (by decide)
      · rw [if_neg hnone]
        split_ifs with hriscix hlinux
        · rw [parseRiscixCumana_returns_iff]
          exact (imp_iff_right ⟨fun hzero => hnone (.inl hzero), hriscix.elim .inl fun h => .inr (.inl h)⟩).symm
        · rw [parseLinuxCumana_returns_iff]
          exact (imp_iff_right ⟨fun hzero => hnone (.inl hzero), .inr (.inr hlinux)⟩).symm
        · refine iff_of_true ⟨[], rfl⟩ fun hother => ?_
          rcases hother.2 with h | h | h
          · exact absurd (.inl h) hriscix
          · exact absurd (.inr h) hriscix
          · exact absurd h hlinux

end

/-- **The Cumana chain** is listed exactly when it has at most 64 partitions, each that another one
follows has an even number of sectors, and the table after the last can be read. It ends where there
is no valid boot block. -/
theorem listed_iff (image : Image) :
    (∀ x, (chain image).getLast? = some x → ∀ first, chainNext x.1 x.2 = some first →
      chainBoot (fileReader image) first = none) ∧
    (Listed image ↔ (chain image).length ≤ MAX_CHAIN ∧ EvenLinks MAX_CHAIN (chain image) ∧
      TableReadable (fileReader image) (chain image)) := by
  have hlength := length_chain_le image
  refine ⟨fun x hx first hnext =>
    LinkedWalk.follow_stop hx (Nat.lt_succ_of_le hlength) hnext, ?_⟩
  -- the loop goes through the beginning of the chain, when it is in step
  have hwalk : LinkedWalk.follow (chainBoot (fileReader image)) chainNext MAX_CHAIN (some 0) =
      (chain image).take MAX_CHAIN := by
    rw [chain, ← LinkedWalk.follow_add (Nat.lt_succ_of_le hlength) MAX_CHAIN,
      Nat.add_comm, LinkedWalk.take_follow]
  have haligned := @aligned_iff (fileReader image) MAX_CHAIN ⟨0, 0⟩ rfl
  rw [hwalk, evenLinks_take] at haligned
  have hpartitions := @partitions_eq (fileReader image) MAX_CHAIN ⟨0, 0⟩
  rw [hwalk] at hpartitions
  have hloop : CUMANA (fileReader image) = _ := @cumanaFrom_eq (fileReader image) MAX_CHAIN ⟨0, 0⟩ 0
  constructor
  · rintro ⟨hstep, hwhole, tail, hchildren⟩
    have hcap : (chain image).length ≤ MAX_CHAIN := by
      rw [← hwhole, hpartitions hstep]
      exact List.length_take_le _ _
    refine ⟨hcap, haligned.mp hstep, ?_⟩
    obtain ⟨found, hfound, -⟩ := bind_eq_ok.mp (hloop.symm.trans hchildren)
    rw [← hwhole]
    exact (tailChildren_returns_iff _).mp ⟨found, hfound⟩
  · rintro ⟨hcap, heven, htable⟩
    have hstep := haligned.mpr heven
    have hwhole : partitions (visits (fileReader image) MAX_CHAIN (some ⟨0, 0⟩)) = chain image := by
      rw [hpartitions hstep, List.take_of_length_le hcap]
    refine ⟨hstep, hwhole, ?_⟩
    rw [← hwhole] at htable ⊢
    obtain ⟨tail, htail⟩ := (tailChildren_returns_iff _).mpr htable
    refine ⟨tail, ?_⟩
    rw [hloop, htail]
    rfl

/-! ## Two partitions -/

/-- A boot block: so many sectors in a track, one head, a disc of three sectors, so many cylinders. -/
def bootBlock (secspertrack cylinders checksum : UInt8) : Bytes :=
  List.replicate 0x1c1 0 ++ [secspertrack, 1] ++ List.replicate 13 0 ++ [0, 6, 0, 0] ++
    List.replicate 41 0 ++ [cylinders, 0, checksum]

/-- The partition of one track, so many sectors between its boot block and the next, and the next. -/
def twoPartitions (secspertrack checksum : UInt8) (between : Nat) : Bytes :=
  List.replicate (6 * 512) 0 ++ bootBlock secspertrack 1 checksum ++ List.replicate (between * 512) 0 ++
    bootBlock 0 0 7

/-- A sector of an image. -/
theorem readSector_eq {image : Image} {before sector tail : Bytes} {n : Nat}
    (h : image.bytes = before ++ sector ++ tail) (hbefore : before.length = n * 512)
    (hsector : sector.length = 512) : readSector (fileReader image) n = .ok sector := by
  have hlength : image.bytes.length = n * 512 + 512 + tail.length := by
    rw [h, List.length_append, List.length_append, hbefore, hsector]
  have hsmall : image.bytes.length < 2 ^ 63 := image.small
  have hplace : wrap (n * SECTOR_SIZE) = n * 512 := wrap_of_lt (by rw [SECTOR_SIZE]; omega)
  rw [readSector, hplace, readExactly_slice _ (by omega) (by decide), h,
    List.slice_append_mid tail hbefore hsector]

theorem bootAt_eq {reader : Reader} {n : Nat} {boot : Bytes} (h : readSector reader n = .ok boot) :
    bootAt reader n = if adfsChecksum boot ∧
      ¬((DiscRecord.parse boot).disc_size = 0 ∧ (DiscRecord.parse boot).disc_size_high = 0) then some boot
      else none := by
  rw [bootAt, h]

theorem length_bootBlock (secspertrack cylinders checksum : UInt8) :
    (bootBlock secspertrack cylinders checksum).length = 512 := by
  simp only [bootBlock, List.length_append, List.length_replicate, List.length_cons, List.length_nil]

theorem length_twoPartitions (secspertrack checksum : UInt8) (between : Nat) :
    (twoPartitions secspertrack checksum between).length = (8 + between) * 512 := by
  simp only [twoPartitions, List.length_append, List.length_replicate, length_bootBlock]
  omega

/-- A boot block with a checksum and a size is valid. -/
theorem bootAt_block {reader : Reader} {n : Nat} {boot : Bytes} (h : readSector reader n = .ok boot)
    (hvalid : adfsChecksum boot = true ∧ (DiscRecord.parse boot).disc_size = 1536) :
    bootAt reader n = some boot := by
  rw [bootAt_eq h]
  refine if_pos ⟨hvalid.1, fun hzero => ?_⟩
  rw [hvalid.2] at hzero
  exact absurd hzero.1 (by decide)

section

variable {image : Image} {secspertrack checksum : UInt8} {between : Nat}

theorem readSector_first (h : image.bytes = twoPartitions secspertrack checksum between) :
    readSector (fileReader image) 6 = .ok (bootBlock secspertrack 1 checksum) := by
  have hbytes : image.bytes = List.replicate (6 * 512) 0 ++ bootBlock secspertrack 1 checksum ++
      (List.replicate (between * 512) 0 ++ bootBlock 0 0 7) := by
    rw [h, twoPartitions, List.append_assoc]
  exact readSector_eq hbytes List.length_replicate (length_bootBlock _ _ _)

theorem readSector_between (h : image.bytes = twoPartitions secspertrack checksum 2) :
    readSector (fileReader image) 8 = .ok (List.replicate 512 0) := by
  have hzeros : List.replicate (2 * 512) (0 : UInt8) =
      List.replicate 512 0 ++ List.replicate 512 0 := by
    rw [← List.replicate_add]
  refine @readSector_eq image
    (List.replicate (6 * 512) 0 ++ bootBlock secspertrack 1 checksum ++ List.replicate 512 0) _
    (bootBlock 0 0 7) 8 ?_ ?_ List.length_replicate
  · rw [h, twoPartitions, hzeros]
    simp only [List.append_assoc]
  · simp only [List.length_append, List.length_replicate, length_bootBlock]

theorem readSector_second (h : image.bytes = twoPartitions secspertrack checksum between) :
    readSector (fileReader image) (7 + between) = .ok (bootBlock 0 0 7) := by
  refine readSector_eq (h.trans (List.append_nil _).symm) ?_ (length_bootBlock _ _ _)
  simp only [List.length_append, List.length_replicate, length_bootBlock]
  omega

end

/-- The second partition begins two sectors after the first. -/
def evenImage : Image := ⟨twoPartitions 2 10 1, by rw [length_twoPartitions]; decide⟩

/-- The second partition begins three sectors after the first. -/
def oddImage : Image := ⟨twoPartitions 3 11 2, by rw [length_twoPartitions]; decide⟩

theorem bootAt_evenImage : bootAt (fileReader evenImage) 6 = some (bootBlock 2 1 10) ∧
    bootAt (fileReader evenImage) 8 = some (bootBlock 0 0 7) := by
  have hbytes : evenImage.bytes = twoPartitions 2 10 1 := rfl
  have hsecond : readSector (fileReader evenImage) (7 + 1) = .ok (bootBlock 0 0 7) :=
    readSector_second hbytes
  exact ⟨bootAt_block (readSector_first hbytes) (by decide +kernel),
    bootAt_block hsecond (by decide +kernel)⟩

theorem bootAt_oddImage : bootAt (fileReader oddImage) 6 = some (bootBlock 3 1 11) ∧
    bootAt (fileReader oddImage) 8 = none ∧ bootAt (fileReader oddImage) 9 = some (bootBlock 0 0 7) := by
  have hbytes : oddImage.bytes = twoPartitions 3 11 2 := rfl
  have hsecond : readSector (fileReader oddImage) (7 + 2) = .ok (bootBlock 0 0 7) :=
    readSector_second hbytes
  refine ⟨bootAt_block (readSector_first hbytes) (by decide +kernel), ?_,
    bootAt_block hsecond (by decide +kernel)⟩
  rw [bootAt_eq (readSector_between hbytes)]
  exact if_neg (by decide +kernel)

theorem nextSects_bootBlock : nextSects (bootBlock 2 1 10) = 2 ∧ nextSects (bootBlock 3 1 11) = 3 ∧
    nextSects (bootBlock 0 0 7) = 0 := by
  decide +kernel

theorem partType_bootBlock : partType (bootBlock 2 1 10) = 0 ∧ partType (bootBlock 3 1 11) = 0 := by
  decide +kernel

/-- A chain of two partitions. -/
theorem chain_two {image : Image} {first second : Bytes} {n : Nat}
    (hfirst : bootAt (fileReader image) 6 = some first)
    (hsecond : bootAt (fileReader image) (n + 6) = some second) (hfollowed : Followed first)
    (hn : nextSects first = n) (hlast : nextSects second = 0) (hlength : 1 ≤ image.bytes.length) :
    chain image = [(0, first), (n, second)] := by
  obtain ⟨fuel, hfuel⟩ := Nat.exists_eq_add_of_le' hlength
  have hnext : chainNext 0 first = some n := by
    rw [chainNext, if_pos hfollowed, hn, Nat.zero_add]
  have hend : chainNext n second = none := if_neg fun hyes => hyes.1 hlast
  have hread : chainBoot (fileReader image) 0 = some first := hfirst
  rw [chain, hfuel, LinkedWalk.follow_of_read _ _ hread, hnext,
    LinkedWalk.follow_of_read _ _ (by exact hsecond), hend, LinkedWalk.follow_none]

/-- **An odd number of sectors**: the boot block of the second partition is looked for in sector 8 of
the disc instead of sector 9, and the partition is lost. -/
theorem odd_partition_loses :
    chain oddImage = [(0, bootBlock 3 1 11), (3, bootBlock 0 0 7)] ∧
      iterations (fileReader oddImage) MAX_CHAIN (some ⟨0, 0⟩) = [⟨0, 0⟩, ⟨1, 3⟩] ∧
      CUMANA (fileReader oddImage) = .ok [window 0 0 1536] := by
  obtain ⟨hfirst, hnone, hsecond⟩ := bootAt_oddImage
  obtain ⟨-, hnext, hlast⟩ := nextSects_bootBlock
  have hfollowed : Followed (bootBlock 3 1 11) := ⟨by rw [hnext]; decide, partType_bootBlock.2⟩
  have hposition : Position.next ⟨0, 0⟩ (bootBlock 3 1 11) = some ⟨1, 3⟩ := by
    rw [Position.next, if_pos hfollowed, hnext]
  have hread : Position.boot (fileReader oddImage) ⟨0, 0⟩ = some (bootBlock 3 1 11) := hfirst
  have hunread : Position.boot (fileReader oddImage) ⟨1, 3⟩ = none := hnone
  refine ⟨chain_two hfirst hsecond hfollowed hnext hlast ?_, ?_, ?_⟩
  · rw [oddImage, length_twoPartitions]
    decide
  · rw [MAX_CHAIN, iterations_cons, hread, Option.elim_some, hposition, iterations_cons, hunread]
    rfl
  · have hloop : CUMANA (fileReader oddImage) = _ := @cumanaFrom_eq (fileReader oddImage) MAX_CHAIN ⟨0, 0⟩ 0
    have hvisits : visits (fileReader oddImage) MAX_CHAIN (some ⟨0, 0⟩) = [(⟨0, 0⟩, bootBlock 3 1 11)] := by
      rw [MAX_CHAIN, visits_cons hread, hposition, visits, LinkedWalk.follow_of_unread _ _ hunread]
    have htail : tailChildren (fileReader oddImage) (some (⟨0, 0⟩, bootBlock 3 1 11)) (0 + 1) = .ok [] := by
      rw [tailChildren]
      exact if_pos (.inr hfollowed.2)
    have hwindows : chainWindows (partitions [(⟨0, 0⟩, bootBlock 3 1 11)]) = [(0, 1536)] := by
      decide +kernel
    rw [hloop, hvisits, hwindows, List.getLast?_singleton, List.length_singleton, htail]
    rfl

theorem even_partition_listed : Listed evenImage := by
  obtain ⟨hfirst, hsecond⟩ := bootAt_evenImage
  obtain ⟨hnext, -, hlast⟩ := nextSects_bootBlock
  have hfollowed : Followed (bootBlock 2 1 10) := ⟨by rw [hnext]; decide, partType_bootBlock.1⟩
  have hchain : chain evenImage = [(0, bootBlock 2 1 10), (2, bootBlock 0 0 7)] := by
    refine chain_two hfirst hsecond hfollowed hnext hlast ?_
    rw [evenImage, length_twoPartitions]
    decide
  refine (listed_iff evenImage).2.mpr ?_
  rw [hchain]
  refine ⟨by decide, fun i x hx _ hyes => ?_, fun x hx hother => ?_⟩
  · rcases List.mem_pair.mp (List.mem_of_getElem? hx) with rfl | rfl
    · rw [hnext]
      decide
    · exact absurd hlast hyes.1
  · obtain rfl := Option.some.inj hx
    exact absurd hlast hother.1

end Mountin.Acorn
