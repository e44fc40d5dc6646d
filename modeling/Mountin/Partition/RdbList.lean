import Mountin.Basic.LinkedWalk
import Mountin.Partition.Rdb

set_option autoImplicit false

/-! # The list of an Amiga disk

The partition blocks of `rdb.rs` are a linked list of block numbers that the image chooses. The reader
follows it for at most `MAX_PARTITIONS` blocks and does not look whether it has been at one of them.

* `children_iff` : when the children are those of the list, each block once.
-/

namespace Mountin.Rdb

open Partition
open LinkedWalk (follow once after stop)

/-- The block with this number; the end-of-list marker is none. -/
def place (blk : Nat) : Option Nat := if blk = NO_BLOCK then none else some blk

theorem eq_of_place_eq_some {blk blk' : Nat} (h : place blk = some blk') : blk = blk' :=
  Option.some.inj (Option.ite_none_left_eq_some.mp h).2

/-- The block that a partition block points to. -/
def nextPlace (_ : Nat) (p : Part) : Option Nat := place p.next

/-- The children for these partition blocks. -/
def reported (header : Header) (parts : List Part) : List Child :=
  parts.mapIdx fun i p => window i (p.compute header).1 (p.compute header).2

section

variable (reader : Reader) (header : Header)

/-- The partition block at a place: there is none without a signature, or with fields that cannot
be read. -/
def partAt (blk : Nat) : Option Part :=
  match readPart reader header blk with
  | .ok part => part
  | .error _ => none

/-- The blocks of the list, each once: up to the first that is repeated or invalid. There are at
most `2^32` of them. -/
def listed : List (Nat × Part) :=
  once (partAt reader header) nextPlace (2 ^ 32 + 1) [] (place header.part_list)

/-- The block at which the list ends. -/
def afterListed : Option Nat := after nextPlace (place header.part_list) (listed reader header)

/-- The list has as many blocks as are read, or it has fewer and ends with the marker or with a
block that has no signature: not with one of its own blocks, nor with a signed block whose fields
cannot be read. -/
def Regular : Prop :=
  (listed reader header).length = MAX_PARTITIONS ∨
    (listed reader header).length < MAX_PARTITIONS ∧
      ∀ blk, afterListed reader header = some blk → readPart reader header blk = .ok none

end

section

variable {reader : Reader} {header : Header}

/-- The loop over the list is a walk, and returns when the walk does not end at a block that cannot
be read. -/
theorem readParts_eq_ok {turns blk : Nat} {parts : List Part} :
    readParts reader header turns blk = .ok parts ↔
      (follow (partAt reader header) nextPlace turns (place blk)).map Prod.snd = parts ∧
        ∀ last, stop (partAt reader header) nextPlace turns (place blk) = some last →
          readPart reader header last = .ok none := by
  induction turns generalizing blk parts with
  | zero =>
      rw [readParts, Except.ok.injEq]
      exact (and_iff_left fun _ hstop => by cases hstop).symm
  | succ turns ih =>
      rw [readParts, place]
      by_cases hend : blk = NO_BLOCK
      · rw [if_pos hend, if_pos hend, LinkedWalk.follow_none, Except.ok.injEq]
        exact (and_iff_left fun _ hstop => by cases hstop).symm
      · rw [if_neg hend, if_neg hend]
        cases hpart : readPart reader header blk with
        | error e =>
            have hnone : partAt reader header blk = none := by rw [partAt, hpart]
            refine iff_of_false (by rintro ⟨⟩) fun hboth => ?_
            have hlast := hboth.2 blk (by rw [stop, hnone])
            rw [hpart] at hlast
            cases hlast
        | ok found =>
            rw [Except.ok_bind]
            cases found with
            | none =>
                have hnone : partAt reader header blk = none := by rw [partAt, hpart]
                rw [LinkedWalk.follow_of_unread _ _ hnone, stop, hnone]
                refine ⟨fun h => ⟨Except.ok.inj h, fun last hlast => ?_⟩, fun h => congrArg _ h.1⟩
                obtain rfl := Option.some.inj hlast
                exact hpart
            | some part =>
                have hsome : partAt reader header blk = some part := by rw [partAt, hpart]
                rw [LinkedWalk.follow_of_read _ _ hsome, stop, hsome, List.map_cons]
                simp only [bind_eq_ok, pure, Except.pure, Except.ok.injEq, ih, nextPlace]
                constructor
                · rintro ⟨_, ⟨rfl, hstop⟩, rfl⟩
                  exact ⟨rfl, hstop⟩
                · rintro ⟨rfl, hstop⟩
                  exact ⟨_, ⟨rfl, hstop⟩, rfl⟩

theorem children_eq_ok (h : readHeader reader = .ok header) {kids : List Child} :
    RDB reader = .ok kids ↔
      ∃ parts, readParts reader header MAX_PARTITIONS header.part_list = .ok parts ∧
        reported header parts = kids := by
  rw [RDB, readList, h, Except.ok_bind]
  simp only [bind_eq_ok, pure, Except.pure, Except.ok.injEq]
  constructor
  · rintro ⟨_, ⟨parts, hparts, rfl⟩, rfl⟩
    exact ⟨parts, hparts, rfl⟩
  · rintro ⟨parts, hparts, rfl⟩
    exact ⟨_, ⟨parts, hparts, rfl⟩, rfl⟩

theorem partAt_next_lt {blk blk' : Nat} {part : Part} (h : partAt reader header blk = some part)
    (hnext : nextPlace blk part = some blk') : blk' < 2 ^ 32 := by
  have hread : readPart reader header blk = .ok (some part) := by
    rw [partAt] at h
    split at h
    · rename_i found hfound
      rw [hfound, h]
    · cases h
  obtain ⟨sig, -, hread⟩ := bind_eq_ok.mp hread
  obtain rfl := eq_of_place_eq_some hnext
  split_ifs at hread with hsig
  · cases hread
  · obtain ⟨next, hnextread, hread⟩ := bind_eq_ok.mp hread
    obtain ⟨_, -, hread⟩ := bind_eq_ok.mp hread
    obtain ⟨_, -, hread⟩ := bind_eq_ok.mp hread
    obtain rfl := Option.some.inj (Except.ok.inj hread)
    exact readBe_lt hnextread

theorem part_list_lt (h : readHeader reader = .ok header) : header.part_list < 2 ^ 32 := by
  obtain ⟨found, -, h⟩ := bind_eq_ok.mp h
  cases found with
  | none => cases h
  | some rdb_offset =>
      obtain ⟨_, -, h⟩ := bind_eq_ok.mp h
      obtain ⟨part_list, hlist, h⟩ := bind_eq_ok.mp h
      obtain ⟨_, -, h⟩ := bind_eq_ok.mp h
      obtain rfl := Except.ok.inj h
      exact readBe_lt hlist

/-- The list ends, and where it ends there is no new block. -/
theorem listed_ends (h : readHeader reader = .ok header) {blk : Nat}
    (hafter : afterListed reader header = some blk) :
    blk ∈ (listed reader header).map Prod.fst ∨ partAt reader header blk = none := by
  have hfirst : ∀ blk ∈ place header.part_list, blk < 2 ^ 32 := fun blk hblk => by
    obtain rfl := eq_of_place_eq_some hblk
    exact part_list_lt h
  have hlength : (listed reader header).length ≤ 2 ^ 32 :=
    LinkedWalk.length_once_le (fun _ _ _ => partAt_next_lt) hfirst _
  exact (LinkedWalk.after_once (Nat.lt_succ_of_le hlength) hafter).resolve_left List.not_mem_nil

/-- A walk ends at once when it may not go on, or begins at a place without signature. -/
theorem follow_eq_nil_iff (more : Nat) (start : Option Nat) :
    follow (partAt reader header) nextPlace more start = [] ∧
        (∀ last, stop (partAt reader header) nextPlace more start = some last →
          readPart reader header last = .ok none) ↔
      more = 0 ∨ ∀ blk, start = some blk → readPart reader header blk = .ok none := by
  cases more with
  | zero => exact iff_of_true ⟨rfl, fun _ hstop => by cases hstop⟩ (.inl rfl)
  | succ more =>
      rw [or_iff_right (Nat.succ_ne_zero more)]
      cases start with
      | none => exact iff_of_true ⟨rfl, fun _ hstop => by cases hstop⟩ fun _ hnone => by cases hnone
      | some blk =>
          simp only [Option.some.injEq, forall_eq']
          cases hpart : partAt reader header blk with
          | some part =>
              refine iff_of_false (fun h => ?_) fun hread => ?_
              · rw [LinkedWalk.follow_of_read _ _ hpart] at h
                exact List.cons_ne_nil _ _ h.1
              · rw [partAt, hread] at hpart
                cases hpart
          | none =>
              rw [LinkedWalk.follow_of_unread _ _ hpart, stop, hpart]
              simp only [Option.some.injEq, forall_eq', true_and]

end

/-- **The list of partitions**: the children are those of the list, each block once up to the first
that is repeated or invalid, exactly when the list is regular. -/
theorem children_iff (reader : Reader) (header : Header) (h : readHeader reader = .ok header) :
    ((listed reader header).map Prod.fst).Nodup ∧
      (∀ blk, afterListed reader header = some blk →
        blk ∈ (listed reader header).map Prod.fst ∨ partAt reader header blk = none) ∧
      (RDB reader = .ok (reported header ((listed reader header).map Prod.snd)) ↔
        Regular reader header) := by
  refine ⟨(LinkedWalk.nodup_once _ _ _).1, fun blk => listed_ends h, ?_⟩
  simp only [children_eq_ok h, readParts_eq_ok]
  -- what is read is the list, and then what follows it
  have hwalk : ∀ more, follow (partAt reader header) nextPlace ((listed reader header).length + more)
      (place header.part_list) = listed reader header ++
        follow (partAt reader header) nextPlace more (afterListed reader header) :=
    fun more => LinkedWalk.follow_once more _ _ _
  have hstop : ∀ more, stop (partAt reader header) nextPlace ((listed reader header).length + more)
      (place header.part_list) =
        stop (partAt reader header) nextPlace more (afterListed reader header) :=
    fun more => LinkedWalk.stop_once more _ _ _
  constructor
  · rintro ⟨parts, ⟨rfl, hends⟩, hkids⟩
    have hlength := congrArg List.length hkids
    simp only [reported, List.length_mapIdx, List.length_map] at hlength
    have hle : (listed reader header).length ≤ MAX_PARTITIONS := by
      rw [← hlength]
      exact LinkedWalk.length_follow_le _ _ _ _
    obtain ⟨more, hmore⟩ := Nat.exists_eq_add_of_le hle
    rw [hmore, hwalk, List.length_append] at hlength
    rw [hmore, hstop] at hends
    have hnil := List.eq_nil_of_length_eq_zero (Nat.add_eq_left.mp hlength)
    rcases (follow_eq_nil_iff more _).mp ⟨hnil, hends⟩ with rfl | hafter
    · exact .inl hmore.symm
    · rcases Nat.eq_or_lt_of_le hle with hcap | hlt
      · exact .inl hcap
      · exact .inr ⟨hlt, hafter⟩
  · intro hregular
    have hle : (listed reader header).length ≤ MAX_PARTITIONS :=
      hregular.elim Nat.le_of_eq fun hboth => Nat.le_of_lt hboth.1
    obtain ⟨more, hmore⟩ := Nat.exists_eq_add_of_le hle
    have hends : more = 0 ∨ ∀ blk, afterListed reader header = some blk →
        readPart reader header blk = .ok none :=
      hregular.imp (fun hcap => by omega) And.right
    obtain ⟨hnil, hlast⟩ := (follow_eq_nil_iff more _).mpr hends
    refine ⟨_, ⟨rfl, ?_⟩, ?_⟩
    · rw [hmore, hstop]
      exact hlast
    · rw [hmore, hwalk, hnil, List.append_nil]

/-- A disk of one partition block, which points to this block. -/
def diskBytes (next : Bytes) : Bytes :=
  RDB_SIGNATURE ++ List.replicate 12 0 ++ [0, 0, 2, 0] ++ List.replicate 8 0 ++ [0, 0, 0, 1] ++
    List.replicate 112 0 ++ [0, 0, 0, 1] ++ List.replicate 364 0 ++
    PART_SIGNATURE ++ List.replicate 12 0 ++ next ++ List.replicate 144 0 ++ [0, 0, 0, 2] ++ [0, 0, 0, 2]

def diskHeader : Header := ⟨512, 1, 1⟩

/-- The list ends with its block. -/
def singleDisk : Image := ⟨diskBytes [0xff, 0xff, 0xff, 0xff], by decide +kernel⟩

/-- The block points to itself. -/
def loopDisk : Image := ⟨diskBytes [0, 0, 0, 1], by decide +kernel⟩

def singlePart : Part := ⟨NO_BLOCK, 2, 2⟩

def loopPart : Part := ⟨1, 2, 2⟩

theorem readHeader_loop : readHeader (fileReader loopDisk) = .ok diskHeader := rfl

theorem readHeader_single : readHeader (fileReader singleDisk) = .ok diskHeader := rfl

set_option maxRecDepth 4000 in
theorem readPart_loop : readPart (fileReader loopDisk) diskHeader 1 = .ok (some loopPart) := rfl

set_option maxRecDepth 4000 in
theorem readPart_single : readPart (fileReader singleDisk) diskHeader 1 = .ok (some singlePart) := rfl

/-- The block is read at every turn. -/
theorem readParts_loop (turns : Nat) :
    readParts (fileReader loopDisk) diskHeader turns 1 = .ok (List.replicate turns loopPart) := by
  induction turns with
  | zero => rfl
  | succ turns ih =>
      rw [readParts, if_neg (by decide), readPart_loop, Except.ok_bind]
      dsimp only
      rw [loopPart, ih]
      rfl

/-- A list of one block. -/
theorem listed_disk {reader : Reader} {part : Part} (hpart : readPart reader diskHeader 1 = .ok (some part))
    (hnext : part.next = NO_BLOCK ∨ part.next = 1) : listed reader diskHeader = [(1, part)] := by
  have hsome : partAt reader diskHeader 1 = some part := by rw [partAt, hpart]
  have hfirst : place diskHeader.part_list = some 1 := rfl
  rw [listed, hfirst, LinkedWalk.once_of_read List.not_mem_nil hsome]
  refine congrArg _ ?_
  rw [nextPlace]
  rcases hnext with hnext | hnext
  · rw [hnext]
    rfl
  · rw [hnext]
    exact LinkedWalk.once_of_mem List.mem_cons_self _

/-- **A partition block that points to itself** is reported 256 times. -/
theorem loop_reported :
    readHeader (fileReader loopDisk) = .ok diskHeader ∧
      listed (fileReader loopDisk) diskHeader = [(1, loopPart)] ∧
      RDB (fileReader loopDisk) = .ok (reported diskHeader (List.replicate 256 loopPart)) := by
  refine ⟨readHeader_loop, listed_disk readPart_loop (.inr rfl), ?_⟩
  exact (children_eq_ok readHeader_loop).mpr ⟨_, readParts_loop MAX_PARTITIONS, rfl⟩

theorem single_reported :
    RDB (fileReader singleDisk) = .ok (reported diskHeader [singlePart]) := by
  have hlisted := listed_disk readPart_single (.inl rfl)
  have hchildren := (children_iff (fileReader singleDisk) diskHeader readHeader_single).2.2.mpr
  rw [hlisted] at hchildren
  refine hchildren (.inr ⟨?_, fun blk hafter => ?_⟩)
  · rw [hlisted]
    decide
  · rw [afterListed, hlisted] at hafter
    cases hafter

end Mountin.Rdb
