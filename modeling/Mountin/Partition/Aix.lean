import Mathlib.Data.List.Chain
import Mountin.Partition.Windows

set_option autoImplicit false

/-! # AIX logical volumes

`aix.rs`: a table of physical partitions, each of which says to which logical volume it belongs and
which of its logical partitions it is. A volume is a child when its partitions lie one after the other.

* `scan_tracks` : what the pass over the table knows of a volume.
* `volumes_iff` : when the children are the volumes of one run.
-/

namespace Mountin.Aix

open Partition Tracks

/-- `LVM_SECTOR`. -/
def LVM_SECTOR : Nat := 7

/-- `MAX_LVS`. -/
def MAX_LVS : Nat := 256

/-- "_LVM". -/
def LVM_MAGIC : Bytes := [0x5f, 0x4c, 0x56, 0x4d]

/-- A physical partition entry: the volume, counted from 1, and its logical partition, or 0. -/
structure Ppe where
  lv_ix : Nat
  lp_ix : Nat
  deriving DecidableEq

/-- What is read of the tables. -/
structure Descriptor where
  pp_size_log2 : Nat
  psn_part1 : Nat
  lv_num_lps : List Nat
  entries : List Ppe
  deriving DecidableEq

/-- A physical partition entry. -/
def readPpe (reader : Reader) (ppe_offset : Nat) : Except IoError Ppe := do
  let lv_ix ← readBe reader 2 ppe_offset
  let lp_ix ← readBe reader 2 (ppe_offset + 6)
  return ⟨lv_ix, lp_ix⟩

/-- The tables, if there are volumes. -/
def readDescriptor (reader : Reader) : Except IoError (Option Descriptor) := do
  let lvm_offset := LVM_SECTOR * SECTOR_SIZE
  let magic ← readBytes reader lvm_offset 4
  require (magic = LVM_MAGIC) (.invalidData "AIX LVM magic not found")
  let pp_size_log2 ← readBe reader 2 (lvm_offset + 0x2E)
  let vgda_sector ← readBe reader 4 (lvm_offset + 0x1C)
  if vgda_sector = 0 ∨ 30 < pp_size_log2 then return none
  else do
    let numlvs ← readBe reader 2 (vgda_sector * SECTOR_SIZE + 0x18)
    if numlvs = 0 ∨ MAX_LVS < numlvs then return none
    else do
      let lvd_offset := (vgda_sector + 1) * SECTOR_SIZE
      let lv_num_lps ← (List.range numlvs).mapM fun i => readBe reader 2 (lvd_offset + i * 32 + 0x0E)
      let pvd_offset := (vgda_sector + 17) * SECTOR_SIZE
      let pp_count ← readBe reader 2 (pvd_offset + 0x10)
      let psn_part1 ← readBe reader 4 (pvd_offset + 0x14)
      let ppe_base := pvd_offset + 0x20
      let entries ← (List.range (min pp_count 1016)).mapM fun i => readPpe reader (ppe_base + i * 32)
      return some ⟨pp_size_log2, psn_part1, lv_num_lps, entries⟩

/-- What is known of a volume: where it begins, how many partitions it has, and whether they lie one
after the other. -/
structure LvState where
  first_pp : Option Nat := none
  lps_found : Nat := 0
  is_contiguous : Bool := true

/-- The state of the pass over the entries. -/
structure Scan where
  lv_state : Nat → LvState := fun _ => {}
  cur_lv_ix : Option Nat := none
  next_lp_ix : Nat := 1

/-- One entry of the pass, the `i`th. -/
def scanStep (s : Scan) (x : Ppe × Nat) : Scan :=
  let (e, i) := x
  if e.lp_ix = 0 then { s with cur_lv_ix := none, next_lp_ix := 1 }
  else
    -- `saturating_sub`
    let lv_idx := e.lv_ix - 1
    if MAX_LVS ≤ lv_idx then { s with cur_lv_ix := none }
    else
      let state := s.lv_state lv_idx
      let lps_found := state.lps_found + 1
      if e.lp_ix = 1 then
        { lv_state := Function.update s.lv_state lv_idx ⟨some i, lps_found, state.is_contiguous⟩
          cur_lv_ix := some lv_idx
          next_lp_ix := 2 }
      else if s.cur_lv_ix = some lv_idx ∧ e.lp_ix = s.next_lp_ix then
        { s with
          lv_state := Function.update s.lv_state lv_idx { state with lps_found := lps_found }
          next_lp_ix := s.next_lp_ix + 1 }
      else
        { lv_state := Function.update s.lv_state lv_idx ⟨state.first_pp, lps_found, false⟩
          cur_lv_ix := none
          next_lp_ix := 1 }

/-- The pass over the entries. -/
def scan (entries : List Ppe) : Scan := entries.zipIdx.foldl scanStep {}

/-- The size of a physical partition. -/
def Descriptor.ppBytes (d : Descriptor) : Nat := 2 ^ d.pp_size_log2

/-- The recorded size of a volume, in partitions. -/
def Descriptor.numLps (d : Descriptor) (lv_idx : Nat) : Nat := d.lv_num_lps.getD lv_idx 0

/-- The window of a volume; the numbers fit into `u64`. -/
def Descriptor.volume (d : Descriptor) (lv_idx : Nat) (state : LvState) : Option (Nat × Nat) :=
  match state.first_pp with
  | none => none
  | some first_pp =>
      if state.is_contiguous = false ∨ state.lps_found = 0 then none
      else if state.lps_found ≠ d.numLps lv_idx then none
      else
        let pp_blocks := d.ppBytes / SECTOR_SIZE
        some ((d.psn_part1 + first_pp * pp_blocks) * SECTOR_SIZE, state.lps_found * d.ppBytes)

/-- Children for the volumes that have a window. -/
def volumesOf (windowOf : Nat → Option (Nat × Nat)) : List Child :=
  (List.range MAX_LVS).filterMap fun lv_idx => (windowOf lv_idx).map fun w => window lv_idx w.1 w.2

/-- The children. -/
def Descriptor.children (d : Descriptor) : List Child :=
  volumesOf fun lv_idx => d.volume lv_idx ((scan d.entries).lv_state lv_idx)

/-- `AIX`. -/
def AIX : Container := fun reader => do
  match ← readDescriptor reader with
  | none => return []
  | some d => return d.children

/-! ## Runs -/

/-- The partitions that the entries of a volume say, with their places; `holds` says which entries
count. -/
def places (holds : Ppe → Bool) (entries : List Ppe) : List (Nat × Nat) :=
  (entries.zipIdx.filter fun x => holds x.1).map fun x => (x.2, x.1.lp_ix)

/-- A run: so many partitions from a place on, numbered from 1. -/
def run (start n : Nat) : List (Nat × Nat) := (List.range n).map fun k => (start + k, k + 1)

/-- A partition lies right after another, and has the number after it. -/
def Follows (a b : Nat × Nat) : Prop := b.1 = a.1 + 1 ∧ b.2 = a.2 + 1

/-- Some runs: each partition has the number 1, or follows the one before it. -/
def IsRuns (l : List (Nat × Nat)) : Prop :=
  (∀ b ∈ l.head?, b.2 = 1) ∧ l.IsChain fun a b => b.2 = 1 ∨ Follows a b

/-- The places where runs begin. -/
def starts (l : List (Nat × Nat)) : List Nat := (l.filter fun b => decide (b.2 = 1)).map Prod.fst

theorem isRuns_concat {l : List (Nat × Nat)} {b : Nat × Nat} :
    IsRuns (l ++ [b]) ↔ IsRuns l ∧ (b.2 = 1 ∨ ∃ a ∈ l.getLast?, Follows a b) := by
  rcases List.eq_nil_or_concat' l with rfl | ⟨rest, a, rfl⟩
  · simp [IsRuns]
  · have hhead : ((rest ++ [a]) ++ [b]).head? = (rest ++ [a]).head? := by
      rw [List.head?_append_of_ne_nil _ (by simp)]
    rw [IsRuns, IsRuns, hhead, List.isChain_append]
    simp only [List.getLast?_concat, Option.mem_some_iff, forall_eq', List.head?_cons,
      List.isChain_singleton, true_and, exists_eq_left', and_assoc]

theorem starts_concat (l : List (Nat × Nat)) (b : Nat × Nat) :
    starts (l ++ [b]) = starts l ++ if b.2 = 1 then [b.1] else [] := by
  rw [starts, List.filter_append, List.map_append, ← starts, List.filter_singleton]
  refine congrArg _ ?_
  by_cases hb : b.2 = 1
  · rw [if_pos hb, decide_eq_true hb, cond_true, List.map_singleton]
  · rw [if_neg hb, decide_eq_false hb, cond_false, List.map_nil]

/-- Runs begin somewhere. -/
theorem starts_ne_nil {l : List (Nat × Nat)} (h : IsRuns l) (hne : l ≠ []) : starts l ≠ [] := by
  obtain ⟨b, rest, rfl⟩ := List.exists_cons_of_ne_nil hne
  have hb : b.2 = 1 := h.1 b rfl
  refine List.ne_nil_of_mem (List.mem_map.mpr ⟨b, List.mem_filter.mpr ⟨List.mem_cons_self, ?_⟩, rfl⟩)
  exact decide_eq_true hb

theorem run_succ (start n : Nat) : run start (n + 1) = run start n ++ [(start + n, n + 1)] := by
  rw [run, List.range_succ, List.map_append, ← run, List.map_singleton]

@[simp] theorem length_run (start n : Nat) : (run start n).length = n := by
  rw [run, List.length_map, List.length_range]

/-- Runs that begin at one place only are one run. -/
theorem eq_run_of_isRuns {l : List (Nat × Nat)} (h : IsRuns l) {start : Nat}
    (hstart : starts l = [start]) : l = run start l.length := by
  induction l using List.reverseRecOn with
  | nil => cases hstart
  | append_singleton rest b ih =>
      obtain ⟨hrest, hb⟩ := isRuns_concat.mp h
      rw [starts_concat] at hstart
      by_cases hone : b.2 = 1
      · -- the last entry begins a run: it is the first
        rw [if_pos hone] at hstart
        obtain ⟨hnone, hfirst⟩ := List.append_eq_singleton_iff.mp hstart |>.resolve_right (by simp)
        have hnil : rest = [] := by_contra fun hne => starts_ne_nil hrest hne hnone
        subst hnil
        obtain rfl := List.singleton_inj.mp hfirst
        rw [List.nil_append, List.length_singleton, run_succ]
        exact congrArg (fun b => [b]) (Prod.ext rfl hone)
      · rw [if_neg hone, List.append_nil] at hstart
        obtain ⟨a, ha, hfollows⟩ := hb.resolve_left hone
        have hrun := ih hrest hstart
        obtain ⟨m, hm⟩ : ∃ m, rest.length = m + 1 :=
          Nat.exists_eq_add_one.mpr (List.length_pos_of_ne_nil (List.ne_nil_of_mem (List.mem_of_getLast? ha)))
        rw [hm] at hrun
        rw [hrun, run_succ, List.getLast?_concat] at ha
        obtain rfl := Option.some.inj ha
        rw [List.length_append, List.length_singleton, hm, run_succ, ← hrun]
        refine congrArg (fun b => rest ++ [b]) (Prod.ext hfollows.1 hfollows.2)

theorem isRuns_run (start n : Nat) : IsRuns (run start n) := by
  induction n with
  | zero => exact ⟨by simp [run], List.isChain_nil⟩
  | succ n ih =>
      rw [run_succ, isRuns_concat]
      refine ⟨ih, ?_⟩
      cases n with
      | zero => exact .inl rfl
      | succ n =>
          refine .inr ⟨(start + n, n + 1), ?_, rfl, rfl⟩
          rw [run_succ, List.getLast?_concat]
          rfl

theorem starts_run (start n : Nat) : starts (run start (n + 1)) = [start] := by
  induction n with
  | zero => rfl
  | succ n ih => rw [run_succ, starts_concat, ih, if_neg (by simp), List.append_nil]

theorem places_concat (holds : Ppe → Bool) (done : List Ppe) (e : Ppe) :
    places holds (done ++ [e]) =
      places holds done ++ if holds e then [(done.length, e.lp_ix)] else [] := by
  rw [places, List.zipIdx_append, List.filter_append, List.map_append, ← places, Nat.zero_add,
    List.zipIdx_singleton, List.filter_singleton]
  refine congrArg _ ?_
  cases holds e <;> rfl

theorem place_lt {holds : Ppe → Bool} {done : List Ppe} {a : Nat × Nat} (h : a ∈ places holds done) :
    a.1 < done.length := by
  obtain ⟨x, hx, rfl⟩ := List.mem_map.mp h
  exact List.snd_lt_of_mem_zipIdx (List.mem_of_mem_filter hx)

/-! ## The pass over the entries -/

/-- The entries that the pass counts for a volume: those with number 0 count for the first. -/
def counted (lv_idx : Nat) (e : Ppe) : Bool := decide (e.lp_ix ≠ 0 ∧ e.lv_ix - 1 = lv_idx)

/-- What the pass knows of a volume after some entries. -/
structure Knows (lv_idx : Nat) (done : List Ppe) (s : Scan) : Prop where
  found : (s.lv_state lv_idx).lps_found = (places (counted lv_idx) done).length
  contiguous : (s.lv_state lv_idx).is_contiguous = true ↔ IsRuns (places (counted lv_idx) done)
  first : (s.lv_state lv_idx).first_pp = (starts (places (counted lv_idx) done)).getLast?
  -- the next entry goes on with the volume when it follows its last entry
  cur : IsRuns (places (counted lv_idx) done) → ∀ lp,
    (s.cur_lv_ix = some lv_idx ∧ lp = s.next_lp_ix) ↔
      ∃ a ∈ (places (counted lv_idx) done).getLast?, Follows a (done.length, lp)

theorem knows_nil (lv_idx : Nat) : Knows lv_idx [] {} where
  found := rfl
  contiguous := iff_of_true rfl ⟨by simp [places], List.isChain_nil⟩
  first := rfl
  cur _ lp := by simp [places]

section

variable {lv_idx : Nat} {done : List Ppe} {s s' : Scan} {e : Ppe}

/-- An entry that does not count for a volume ends its run. -/
theorem Knows.skip (h : Knows lv_idx done s) (hnot : counted lv_idx e = false)
    (hstate : s'.lv_state lv_idx = s.lv_state lv_idx) (hcur : s'.cur_lv_ix ≠ some lv_idx) :
    Knows lv_idx (done ++ [e]) s' := by
  have hsame : places (counted lv_idx) (done ++ [e]) = places (counted lv_idx) done := by
    rw [places_concat, if_neg (by simp [hnot]), List.append_nil]
  constructor
  · rw [hstate, hsame, h.found]
  · rw [hstate, hsame, h.contiguous]
  · rw [hstate, hsame, h.first]
  · intro _ lp
    rw [hsame]
    refine iff_of_false (fun hboth => hcur hboth.1) ?_
    rintro ⟨a, ha, hfollows, -⟩
    have hlt := place_lt (List.mem_of_getLast? ha)
    simp only [List.length_append, List.length_singleton] at hfollows
    omega

/-- An entry that counts for a volume is its last. -/
theorem Knows.count (h : Knows lv_idx done s) (hcounted : counted lv_idx e = true) {state : LvState}
    (hstate : s'.lv_state lv_idx = state)
    (hfound : state.lps_found = (s.lv_state lv_idx).lps_found + 1)
    (hcontiguous : state.is_contiguous = true ↔ (s.lv_state lv_idx).is_contiguous = true ∧
      (e.lp_ix = 1 ∨ s.cur_lv_ix = some lv_idx ∧ e.lp_ix = s.next_lp_ix))
    (hfirst : state.first_pp = if e.lp_ix = 1 then some done.length else (s.lv_state lv_idx).first_pp)
    (hcur : e.lp_ix = 1 ∨ s.cur_lv_ix = some lv_idx ∧ e.lp_ix = s.next_lp_ix →
      s'.cur_lv_ix = some lv_idx ∧ s'.next_lp_ix = e.lp_ix + 1) :
    Knows lv_idx (done ++ [e]) s' := by
  have hnew : places (counted lv_idx) (done ++ [e]) =
      places (counted lv_idx) done ++ [(done.length, e.lp_ix)] := by
    rw [places_concat, if_pos hcounted]
  -- the entry goes on with runs exactly when the state says so
  have hruns : IsRuns (places (counted lv_idx) (done ++ [e])) ↔
      IsRuns (places (counted lv_idx) done) ∧
        (e.lp_ix = 1 ∨ s.cur_lv_ix = some lv_idx ∧ e.lp_ix = s.next_lp_ix) := by
    rw [hnew, isRuns_concat]
    exact and_congr_right fun hold => or_congr_right (h.cur hold e.lp_ix).symm
  constructor
  · rw [hstate, hfound, h.found, hnew, List.length_append, List.length_singleton]
  · rw [hstate, hcontiguous, h.contiguous, hruns]
  · rw [hstate, hfirst, hnew, starts_concat, h.first]
    split_ifs
    · rw [List.getLast?_concat]
    · rw [List.append_nil]
  · intro hall lp
    obtain ⟨hset, hnext⟩ := hcur (hruns.mp hall).2
    rw [hnew, List.getLast?_concat, hset, hnext]
    simp only [Option.mem_some_iff, exists_eq_left', Follows, List.length_append, List.length_singleton,
      true_and]

/-- **One entry** keeps what is known of every volume. -/
theorem Knows.step (h : Knows lv_idx done s) (hidx : lv_idx < MAX_LVS) :
    Knows lv_idx (done ++ [e]) (scanStep s (e, done.length)) := by
  rw [scanStep]
  dsimp only
  by_cases hfree : e.lp_ix = 0
  · rw [if_pos hfree]
    exact h.skip (by simp [counted, hfree]) rfl (by simp)
  · rw [if_neg hfree]
    by_cases hrange : MAX_LVS ≤ e.lv_ix - 1
    · rw [if_pos hrange]
      refine h.skip (decide_eq_false fun hboth => ?_) rfl (by simp)
      rw [← hboth.2] at hidx
      exact absurd hidx (Nat.not_lt.mpr hrange)
    · rw [if_neg hrange]
      by_cases hthis : e.lv_ix - 1 = lv_idx
      · have hcounted : counted lv_idx e = true := decide_eq_true ⟨hfree, hthis⟩
        rw [hthis]
        by_cases hone : e.lp_ix = 1
        · rw [if_pos hone]
          refine h.count hcounted (Function.update_self _ _ _) rfl ?_ (if_pos hone).symm ?_
          · exact (and_iff_left (.inl hone)).symm
          · exact fun _ => ⟨rfl, by rw [hone]⟩
        · rw [if_neg hone]
          by_cases hcont : s.cur_lv_ix = some lv_idx ∧ e.lp_ix = s.next_lp_ix
          · rw [if_pos hcont]
            refine h.count hcounted (Function.update_self _ _ _) rfl ?_ (if_neg hone).symm ?_
            · exact (and_iff_left (.inr hcont)).symm
            · exact fun _ => ⟨hcont.1, by rw [hcont.2]⟩
          · rw [if_neg hcont]
            have hneither := not_or.mpr ⟨hone, hcont⟩
            refine h.count hcounted (Function.update_self _ _ _) rfl ?_ (if_neg hone).symm ?_
            · exact iff_of_false Bool.false_ne_true fun hboth => hneither hboth.2
            · exact fun hor => absurd hor hneither
      · have hnot : counted lv_idx e = false := decide_eq_false fun hboth => hthis hboth.2
        have hother : lv_idx ≠ e.lv_ix - 1 := fun heq => hthis heq.symm
        split_ifs with hone hcont
        · exact h.skip hnot (Function.update_of_ne hother _ _) (by simpa using hthis)
        · refine h.skip hnot (Function.update_of_ne hother _ _) ?_
          rw [hcont.1]
          simpa using hthis
        · exact h.skip hnot (Function.update_of_ne hother _ _) (by simp)

end

/-- **The pass** knows every volume. -/
theorem scan_knows (entries : List Ppe) {lv_idx : Nat} (hidx : lv_idx < MAX_LVS) :
    Knows lv_idx entries (scan entries) := by
  have hrun : ∀ (rest done : List Ppe) (s : Scan), Knows lv_idx done s →
      Knows lv_idx (done ++ rest) ((rest.zipIdx done.length).foldl scanStep s) := by
    intro rest
    induction rest with
    | nil =>
        intro done s h
        rw [List.append_nil]
        exact h
    | cons e rest ih =>
        intro done s h
        rw [List.zipIdx_cons, List.foldl_cons, List.append_cons]
        have hnext := ih (done ++ [e]) (scanStep s (e, done.length)) (h.step hidx)
        rwa [List.length_append, List.length_singleton] at hnext
  exact hrun entries [] {} (knows_nil lv_idx)

/-! ## The volumes of one run -/

/-- The entries of a volume. -/
def owned (lv_idx : Nat) (e : Ppe) : Bool := decide (e.lp_ix ≠ 0 ∧ e.lv_ix = lv_idx + 1)

section

variable (d : Descriptor)

/-- The partitions of a volume. -/
def Descriptor.own (lv_idx : Nat) : List (Nat × Nat) := places (owned lv_idx) d.entries

/-- The partitions that the pass counts for a volume. -/
def Descriptor.all (lv_idx : Nat) : List (Nat × Nat) := places (counted lv_idx) d.entries

/-- The window of a volume whose partitions are one run of its recorded size. -/
def Descriptor.oneRun (lv_idx : Nat) : Option (Nat × Nat) :=
  match (d.own lv_idx).head? with
  | none => none
  | some (start, _) =>
      if d.own lv_idx = run start (d.numLps lv_idx) then
        some (d.psn_part1 * SECTOR_SIZE + start * d.ppBytes, d.numLps lv_idx * d.ppBytes)
      else none

/-- A child for each volume whose partitions are one run of its recorded size. -/
def Descriptor.listed : List Child := volumesOf d.oneRun

/-- There is an entry in use with the volume number 0. -/
def Descriptor.HasZero : Prop := ∃ e ∈ d.entries, e.lv_ix = 0 ∧ e.lp_ix ≠ 0

/-- No volume whose partitions are runs of its recorded size in all has more than one of them; an
entry with the volume number 0 does not meet such runs, nor one run of the first volume; a volume of
one run has physical partitions of whole sectors, or begins with the first of them. -/
structure Descriptor.Clear : Prop where
  starts : ∀ lv_idx < MAX_LVS, IsRuns (d.all lv_idx) → (d.all lv_idx).length = d.numLps lv_idx →
    (starts (d.all lv_idx)).length ≤ 1
  zero : d.HasZero → ¬(IsRuns (d.all 0) ∧ (d.all 0).length = d.numLps 0) ∧
    ∀ start, 0 < d.numLps 0 → d.own 0 ≠ run start (d.numLps 0)
  size : ∀ lv_idx < MAX_LVS, ∀ start, 0 < d.numLps lv_idx →
    d.own lv_idx = run start (d.numLps lv_idx) → 9 ≤ d.pp_size_log2 ∨ start = 0

end

/-- The children say which volumes have a window, and which window. -/
theorem volumesOf_inj {f g : Nat → Option (Nat × Nat)} :
    volumesOf f = volumesOf g ↔ ∀ lv_idx < MAX_LVS, f lv_idx = g lv_idx := by
  have hmem : ∀ (f : Nat → Option (Nat × Nat)) lv_idx w, lv_idx < MAX_LVS →
      (window lv_idx w.1 w.2 ∈ volumesOf f ↔ f lv_idx = some w) := by
    intro f lv_idx w hidx
    have hmax : MAX_LVS < 2 ^ 32 := by decide
    simp only [volumesOf, List.mem_filterMap, List.mem_range, Option.map_eq_some_iff]
    constructor
    · rintro ⟨lv_idx', hidx', w', hw', hwindow⟩
      obtain ⟨hindex, -, hview⟩ := Child.mk.inj hwindow
      obtain ⟨hstart, hlength⟩ := View.slice.inj hview
      have hnat := congrArg UInt32.toNat hindex
      rw [UInt32.toNat_ofNat_of_lt' (hidx'.trans hmax), UInt32.toNat_ofNat_of_lt' (hidx.trans hmax)] at hnat
      rw [← hnat, hw']
      exact congrArg some (Prod.ext hstart hlength)
    · exact fun hw => ⟨lv_idx, hidx, w, hw, rfl⟩
  constructor
  · intro heq lv_idx hidx
    ext w
    rw [← hmem f lv_idx w hidx, ← hmem g lv_idx w hidx, heq]
  · intro hall
    refine List.filterMap_congr fun lv_idx hidx => ?_
    rw [hall lv_idx (List.mem_range.mp hidx)]

theorem mem_places {holds : Ppe → Bool} {entries : List Ppe} {x : Nat × Nat} :
    x ∈ places holds entries ↔ ∃ e, entries[x.1]? = some e ∧ holds e = true ∧ e.lp_ix = x.2 := by
  simp only [places, List.mem_map, List.mem_filter, Prod.exists]
  constructor
  · rintro ⟨e, i, ⟨hmem, hholds⟩, rfl⟩
    exact ⟨e, List.mem_zipIdx_iff_getElem?.mp hmem, hholds, rfl⟩
  · rintro ⟨e, hget, hholds, hlp⟩
    exact ⟨e, x.1, ⟨List.mem_zipIdx_iff_getElem?.mpr hget, hholds⟩, Prod.ext rfl hlp⟩

section

variable {d : Descriptor} {lv_idx : Nat}

theorem counted_of_owned {e : Ppe} (h : owned lv_idx e = true) : counted lv_idx e = true := by
  obtain ⟨hlp, hlv⟩ := of_decide_eq_true h
  exact decide_eq_true ⟨hlp, by omega⟩

theorem own_sublist_all : (d.own lv_idx).Sublist (d.all lv_idx) :=
  (List.monotone_filter_right _ fun _ => counted_of_owned).map _

/-- Without entries of number 0 the pass counts the partitions of the volume. -/
theorem all_eq_own (h : lv_idx ≠ 0 ∨ ¬d.HasZero) : d.all lv_idx = d.own lv_idx := by
  refine congrArg (List.map _) (List.filter_congr fun x hx => ?_)
  have hmem : x.1 ∈ d.entries := List.fst_mem_of_mem_zipIdx hx
  refine decide_eq_decide.mpr (and_congr_right fun hlp => ⟨fun hlv => ?_, fun hlv => by omega⟩)
  rcases h with hidx | hzero
  · omega
  · have hne : x.1.lv_ix ≠ 0 := fun h0 => hzero ⟨x.1, hmem, h0, hlp⟩
    omega

/-- An entry of number 0 is counted for the first volume. -/
theorem length_own_lt (h : d.HasZero) : (d.own 0).length < (d.all 0).length := by
  refine Nat.lt_of_le_of_ne own_sublist_all.length_le fun hlength => ?_
  obtain ⟨e, hmem, hlv, hlp⟩ := h
  obtain ⟨i, hi⟩ := List.mem_iff_getElem?.mp hmem
  have hall : (i, e.lp_ix) ∈ d.all 0 :=
    mem_places.mpr ⟨e, hi, decide_eq_true ⟨hlp, by rw [hlv]⟩, rfl⟩
  rw [← own_sublist_all.eq_of_length hlength] at hall
  obtain ⟨e', hi', howned, -⟩ := mem_places.mp hall
  obtain rfl := Option.some.inj (hi.symm.trans hi')
  have hone := (of_decide_eq_true howned).2
  omega

theorem oneRun_eq_some {w : Nat × Nat} : d.oneRun lv_idx = some w ↔
    ∃ start, 0 < d.numLps lv_idx ∧ d.own lv_idx = run start (d.numLps lv_idx) ∧
      w = (d.psn_part1 * SECTOR_SIZE + start * d.ppBytes, d.numLps lv_idx * d.ppBytes) := by
  have hhead : ∀ start n, (run start (n + 1)).head? = some (start, 1) := by
    intro start n
    rw [run, List.range_succ_eq_map, List.map_cons, List.head?_cons]
    rfl
  rw [Descriptor.oneRun]
  cases hfirst : (d.own lv_idx).head? with
  | none =>
      rw [List.head?_eq_none_iff] at hfirst
      refine iff_of_false (by rintro ⟨⟩) ?_
      rintro ⟨start, hpos, hrun, -⟩
      have hlength := congrArg List.length hrun
      rw [hfirst, length_run, List.length_nil] at hlength
      omega
  | some first =>
      obtain ⟨start, lp⟩ := first
      dsimp only
      constructor
      · intro h
        obtain ⟨hrun, hw⟩ := Option.ite_none_right_eq_some.mp h
        refine ⟨start, ?_, hrun, (Option.some.inj hw).symm⟩
        refine Nat.pos_of_ne_zero fun hzero => ?_
        rw [hrun, hzero] at hfirst
        cases hfirst
      · rintro ⟨start', hpos, hrun, rfl⟩
        obtain ⟨n, hn⟩ := Nat.exists_eq_add_one.mpr hpos
        have hsame := hfirst
        rw [hrun, hn, hhead] at hsame
        obtain ⟨rfl, -⟩ := Prod.mk.inj (Option.some.inj hsame)
        rw [if_pos hrun]

theorem volume_eq_some {w : Nat × Nat} (hidx : lv_idx < MAX_LVS) :
    d.volume lv_idx ((scan d.entries).lv_state lv_idx) = some w ↔
      ∃ first, (starts (d.all lv_idx)).getLast? = some first ∧ IsRuns (d.all lv_idx) ∧
        (d.all lv_idx).length = d.numLps lv_idx ∧
        w = ((d.psn_part1 + first * (d.ppBytes / SECTOR_SIZE)) * SECTOR_SIZE,
          d.numLps lv_idx * d.ppBytes) := by
  obtain ⟨hfound, hcontiguous, hfirst, -⟩ := scan_knows d.entries hidx
  rw [← Descriptor.all] at hfound hcontiguous hfirst
  rw [Descriptor.volume, hfirst, hfound]
  cases hlast : (starts (d.all lv_idx)).getLast? with
  | none => exact iff_of_false (by rintro ⟨⟩) (by rintro ⟨_, ⟨⟩, _⟩)
  | some first =>
      have hne : (d.all lv_idx).length ≠ 0 := by
        intro hzero
        rw [List.eq_nil_of_length_eq_zero hzero] at hlast
        cases hlast
      simp only [Option.some.injEq, exists_eq_left']
      constructor
      · intro h
        obtain ⟨hok, h⟩ := Option.ite_none_left_eq_some.mp h
        obtain ⟨hsize, h⟩ := Option.ite_none_left_eq_some.mp h
        have hlength := not_not.mp hsize
        refine ⟨hcontiguous.mp (by simpa using (not_or.mp hok).1), hlength, ?_⟩
        rw [← hlength]
        exact (Option.some.inj h).symm
      · rintro ⟨hruns, hlength, rfl⟩
        have hyes := hcontiguous.mpr hruns
        rw [if_neg (by simp [hyes, hne]), if_neg (not_not.mpr hlength), hlength]

/-- One run is the last of the runs. -/
theorem last_of_run {start n : Nat} (hpos : 0 < n) : (starts (run start n)).getLast? = some start := by
  obtain ⟨m, rfl⟩ := Nat.exists_eq_add_one.mpr hpos
  rw [starts_run]
  rfl

/-- A place is the same in blocks and in bytes, for partitions of whole sectors. -/
theorem place_eq_iff (psn start log : Nat) :
    (psn + start * (2 ^ log / SECTOR_SIZE)) * SECTOR_SIZE = psn * SECTOR_SIZE + start * 2 ^ log ↔
      9 ≤ log ∨ start = 0 := by
  by_cases hlog : 9 ≤ log
  · have hdvd : SECTOR_SIZE ∣ 2 ^ log := pow_dvd_pow 2 hlog
    rw [Nat.add_mul, Nat.mul_assoc, Nat.div_mul_cancel hdvd]
    exact iff_of_true rfl (.inl hlog)
  · have hsmall : 2 ^ log < SECTOR_SIZE := Nat.pow_lt_pow_right (by decide) (Nat.lt_of_not_le hlog)
    rw [Nat.div_eq_of_lt hsmall, Nat.mul_zero, Nat.add_zero, or_iff_right hlog, eq_comm,
      Nat.add_eq_left, Nat.mul_eq_zero, or_iff_left (Nat.two_pow_pos log).ne']

/-- The child of a volume that the pass counts alone. -/
theorem agree_of_all_eq (hidx : lv_idx < MAX_LVS) (h : d.all lv_idx = d.own lv_idx) :
    d.volume lv_idx ((scan d.entries).lv_state lv_idx) = d.oneRun lv_idx ↔
      (IsRuns (d.all lv_idx) → (d.all lv_idx).length = d.numLps lv_idx →
        (starts (d.all lv_idx)).length ≤ 1) ∧
      ∀ start, 0 < d.numLps lv_idx → d.own lv_idx = run start (d.numLps lv_idx) →
        9 ≤ d.pp_size_log2 ∨ start = 0 := by
  constructor
  · intro heq
    refine ⟨fun hruns hlength => ?_, fun start hpos hrun => ?_⟩
    · cases hlast : (starts (d.all lv_idx)).getLast? with
      | none => rw [List.getLast?_eq_none_iff.mp hlast]; exact Nat.zero_le 1
      | some first =>
          obtain ⟨start, hpos, hrun, -⟩ := oneRun_eq_some.mp
            (heq.symm.trans ((volume_eq_some hidx).mpr ⟨first, hlast, hruns, hlength, rfl⟩))
          obtain ⟨n, hn⟩ := Nat.exists_eq_add_one.mpr hpos
          rw [h, hrun, hn, starts_run]
          exact Nat.le_refl 1
    · obtain ⟨first, hlast, -, -, hw⟩ := (volume_eq_some hidx).mp
        (heq.trans (oneRun_eq_some.mpr ⟨start, hpos, hrun, rfl⟩))
      rw [h, hrun, last_of_run hpos] at hlast
      obtain rfl := Option.some.inj hlast
      exact (place_eq_iff _ _ _).mp (Prod.mk.inj hw).1.symm
  · rintro ⟨hstarts, hsize⟩
    ext w
    rw [volume_eq_some hidx, oneRun_eq_some]
    constructor
    · rintro ⟨first, hlast, hruns, hlength, rfl⟩
      -- there is one start only, so there is one run
      have hone : starts (d.all lv_idx) = [first] := by
        have hle := hstarts hruns hlength
        match hall : starts (d.all lv_idx), hle with
        | [], _ => rw [hall] at hlast; cases hlast
        | [x], _ => rw [hall, List.getLast?_singleton] at hlast; rw [Option.some.inj hlast]
      have hrun := eq_run_of_isRuns hruns hone
      rw [hlength, h] at hrun
      have hpos : 0 < d.numLps lv_idx := by
        rw [← hlength]
        refine List.length_pos_of_ne_nil fun hnil => ?_
        rw [hnil] at hone
        cases hone
      exact ⟨first, hpos, hrun, Prod.ext ((place_eq_iff _ _ _).mpr (hsize first hpos hrun)) rfl⟩
    · rintro ⟨start, hpos, hrun, rfl⟩
      refine ⟨start, ?_, ?_, ?_, Prod.ext ((place_eq_iff _ _ _).mpr (hsize start hpos hrun)).symm rfl⟩
      · rw [h, hrun, last_of_run hpos]
      · rw [h, hrun]
        exact isRuns_run _ _
      · rw [h, hrun, length_run]

/-- Among entries of number 0 there is no child of the first volume in either way. -/
theorem agree_of_hasZero (h : d.HasZero) :
    d.volume 0 ((scan d.entries).lv_state 0) = d.oneRun 0 ↔
      ¬(IsRuns (d.all 0) ∧ (d.all 0).length = d.numLps 0) ∧
        ∀ start, 0 < d.numLps 0 → d.own 0 ≠ run start (d.numLps 0) := by
  have hlt := length_own_lt h
  have hidx : 0 < MAX_LVS := by decide
  constructor
  · intro heq
    refine ⟨fun ⟨hruns, hlength⟩ => ?_, fun start hpos hrun => ?_⟩
    · cases hlast : (starts (d.all 0)).getLast? with
      | none =>
          refine starts_ne_nil hruns (fun hnil => ?_) (List.getLast?_eq_none_iff.mp hlast)
          rw [hnil] at hlt
          exact Nat.not_lt_zero _ hlt
      | some first =>
          obtain ⟨start, -, hrun, -⟩ := oneRun_eq_some.mp
            (heq.symm.trans ((volume_eq_some hidx).mpr ⟨first, hlast, hruns, hlength, rfl⟩))
          rw [hlength, hrun, length_run] at hlt
          exact Nat.lt_irrefl _ hlt
    · obtain ⟨first, -, -, hlength, -⟩ := (volume_eq_some hidx).mp
        (heq.trans (oneRun_eq_some.mpr ⟨start, hpos, hrun, rfl⟩))
      rw [hlength, hrun, length_run] at hlt
      exact Nat.lt_irrefl _ hlt
  · rintro ⟨hcode, hone⟩
    ext w
    rw [volume_eq_some hidx, oneRun_eq_some]
    refine iff_of_false ?_ ?_
    · rintro ⟨_, -, hruns, hlength, -⟩
      exact hcode ⟨hruns, hlength⟩
    · rintro ⟨start, hpos, hrun, -⟩
      exact hone start hpos hrun

end

/-- The children of a volume group. -/
theorem Descriptor.children_eq_iff (d : Descriptor) : d.children = d.listed ↔ d.Clear := by
  rw [Descriptor.children, Descriptor.listed, volumesOf_inj]
  constructor
  · intro hall
    have hzero : d.HasZero → _ := fun hhas => (agree_of_hasZero hhas).mp (hall 0 (by decide))
    have hsame : ∀ lv_idx < MAX_LVS, lv_idx ≠ 0 ∨ ¬d.HasZero → _ := fun lv_idx hidx h =>
      (agree_of_all_eq hidx (all_eq_own h)).mp (hall lv_idx hidx)
    refine ⟨fun lv_idx hidx hruns hlength => ?_, hzero, fun lv_idx hidx start hpos hrun => ?_⟩
    · by_cases h : lv_idx ≠ 0 ∨ ¬d.HasZero
      · exact (hsame lv_idx hidx h).1 hruns hlength
      · obtain ⟨hidx0, hhas⟩ := not_or.mp h
        obtain rfl := not_not.mp hidx0
        exact absurd ⟨hruns, hlength⟩ (hzero (not_not.mp hhas)).1
    · by_cases h : lv_idx ≠ 0 ∨ ¬d.HasZero
      · exact (hsame lv_idx hidx h).2 start hpos hrun
      · obtain ⟨hidx0, hhas⟩ := not_or.mp h
        obtain rfl := not_not.mp hidx0
        exact absurd hrun ((hzero (not_not.mp hhas)).2 start hpos)
  · intro hclear lv_idx hidx
    by_cases h : lv_idx ≠ 0 ∨ ¬d.HasZero
    · exact (agree_of_all_eq hidx (all_eq_own h)).mpr ⟨hclear.starts lv_idx hidx, hclear.size lv_idx hidx⟩
    · obtain ⟨hzero, hhas⟩ := not_or.mp h
      obtain rfl := not_not.mp hzero
      exact (agree_of_hasZero (not_not.mp hhas)).mpr (hclear.zero (not_not.mp hhas))

/-- **The logical volumes** are those of one run exactly when the table is clear. -/
theorem volumes_iff (reader : Reader) (d : Descriptor) (h : readDescriptor reader = .ok (some d)) :
    AIX reader = .ok d.listed ↔ d.Clear := by
  have hchildren : AIX reader = .ok d.children := by
    rw [AIX, h]
    rfl
  rw [hchildren, Except.ok.injEq, d.children_eq_iff]

/-! ## A mirrored volume -/

/-- A disk with one volume of two partitions of 512 bytes, and the entries of two partitions. -/
def diskBytes (first second : Bytes) : Bytes :=
  [List.replicate (512 + 0x18) 0, [0, 1], List.replicate (512 - 0x1a + 0x0E) 0, [0, 2],
    List.replicate (5 * 512 - 0x10) 0, LVM_MAGIC, List.replicate 24 0, [0, 0, 0, 1],
    List.replicate 14 0, [0, 9], List.replicate (11 * 512 - 0x30 + 0x10) 0, [0, 2],
    [0, 0, 0, 0, 0, 100], List.replicate 8 0, first, List.replicate 24 0, second].flatten

def descriptor (first second : Ppe) : Descriptor := ⟨9, 100, [2], [first, second]⟩

/-- Both partitions are the first of the volume. -/
def mirrorImage : Image :=
  ⟨diskBytes [0, 1, 0, 0, 0, 0, 0, 1] [0, 1, 0, 0, 0, 0, 0, 1], by decide +kernel⟩

/-- The partitions of the volume lie one after the other. -/
def wholeImage : Image :=
  ⟨diskBytes [0, 1, 0, 0, 0, 0, 0, 1] [0, 1, 0, 0, 0, 0, 0, 2], by decide +kernel⟩

theorem readDescriptor_mirror :
    readDescriptor (fileReader mirrorImage) = .ok (some (descriptor ⟨1, 1⟩ ⟨1, 1⟩)) := by
  decide +kernel

theorem readDescriptor_whole :
    readDescriptor (fileReader wholeImage) = .ok (some (descriptor ⟨1, 1⟩ ⟨1, 2⟩)) := by
  decide +kernel

theorem places_eq_nil {holds : Ppe → Bool} {entries : List Ppe} (h : ∀ e ∈ entries, holds e = false) :
    places holds entries = [] := by
  rw [places, List.map_eq_nil_iff, List.filter_eq_nil_iff]
  intro x hx
  rw [h x.1 (List.fst_mem_of_mem_zipIdx hx)]
  exact Bool.false_ne_true

/-- Only the first volume has partitions. -/
theorem first_only {first second : Ppe} (h1 : first.lv_ix = 1) (h2 : second.lv_ix = 1) (n : Nat) :
    (descriptor first second).own (n + 1) = [] ∧ (descriptor first second).all (n + 1) = [] := by
  have hnumber : ∀ e ∈ (descriptor first second).entries, e.lv_ix = 1 := by
    intro e he
    rcases List.mem_pair.mp he with rfl | rfl
    · exact h1
    · exact h2
  constructor
  · exact places_eq_nil fun e he => decide_eq_false fun hboth => by
      have hlv := hboth.2
      rw [hnumber e he] at hlv
      omega
  · exact places_eq_nil fun e he => decide_eq_false fun hboth => by
      have hlv := hboth.2
      rw [hnumber e he] at hlv
      omega

/-- The children when only the first volume has a window. -/
theorem volumesOf_first {f : Nat → Option (Nat × Nat)}
    (h : ∀ n, n + 1 < MAX_LVS → f (n + 1) = none) :
    volumesOf f = (f 0).toList.map fun w => window 0 w.1 w.2 := by
  have hrange : List.range MAX_LVS = 0 :: (List.range 255).map Nat.succ := List.range_succ_eq_map
  have hrest : ((List.range 255).map Nat.succ).filterMap
      (fun lv_idx => (f lv_idx).map fun w => window lv_idx w.1 w.2) = [] := by
    rw [List.filterMap_eq_nil_iff]
    intro lv_idx hidx
    obtain ⟨n, hn, rfl⟩ := List.mem_map.mp hidx
    rw [h n (Nat.succ_lt_succ (List.mem_range.mp hn)), Option.map_none]
  rw [volumesOf, hrange, List.filterMap_cons, hrest]
  cases f 0 <;> rfl

/-- **Two copies of a partition** are taken for a volume of two partitions, which begins with the
second copy. -/
theorem mirror_emitted :
    readDescriptor (fileReader mirrorImage) = .ok (some (descriptor ⟨1, 1⟩ ⟨1, 1⟩)) ∧
      (descriptor ⟨1, 1⟩ ⟨1, 1⟩).listed = [] ∧
      AIX (fileReader mirrorImage) = .ok [window 0 (101 * 512) 1024] := by
  have hfirst := @first_only ⟨1, 1⟩ ⟨1, 1⟩ rfl rfl
  refine ⟨readDescriptor_mirror, ?_, ?_⟩
  · have hnone : ∀ n, (descriptor ⟨1, 1⟩ ⟨1, 1⟩).oneRun (n + 1) = none := by
      intro n
      rw [Descriptor.oneRun, (hfirst n).1]
      rfl
    rw [Descriptor.listed, volumesOf_first fun n _ => hnone n]
    rfl
  · have hnone : ∀ n, n + 1 < MAX_LVS → (descriptor ⟨1, 1⟩ ⟨1, 1⟩).volume (n + 1)
        ((scan (descriptor ⟨1, 1⟩ ⟨1, 1⟩).entries).lv_state (n + 1)) = none := by
      intro n hn
      refine Option.eq_none_iff_forall_ne_some.mpr fun w hw => ?_
      obtain ⟨first, hlast, -⟩ := (volume_eq_some hn).mp hw
      rw [(hfirst n).2] at hlast
      cases hlast
    have hchildren : (descriptor ⟨1, 1⟩ ⟨1, 1⟩).children = [window 0 (101 * 512) 1024] := by
      rw [Descriptor.children, volumesOf_first hnone]
      rfl
    rw [AIX, readDescriptor_mirror, ← hchildren]
    rfl

theorem clear_whole : (descriptor ⟨1, 1⟩ ⟨1, 2⟩).Clear where
  starts lv_idx _ _ _ := by
    cases lv_idx with
    | zero => decide
    | succ n =>
        rw [(first_only rfl rfl n).2]
        exact Nat.zero_le 1
  zero hzero := by
    obtain ⟨e, hmem, hlv, -⟩ := hzero
    rcases List.mem_pair.mp hmem with rfl | rfl <;> cases hlv
  size _ _ _ _ _ := .inl (by decide)

theorem whole_emitted : AIX (fileReader wholeImage) = .ok (descriptor ⟨1, 1⟩ ⟨1, 2⟩).listed :=
  (volumes_iff (fileReader wholeImage) _ readDescriptor_whole).mpr clear_whole

end Mountin.Aix
