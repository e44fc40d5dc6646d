import Mountin.Basic.Raising
import Mountin.Disk.Dms

set_option autoImplicit false

/-! # DMS tracks

What `decompress_dms` makes of the tracks of a file: how long each unpacks to, which of them it
checks, and where it puts them.

* `integrity_iff` : an unpacked track is copied unchecked when it is stored short.
* `placement_iff` : the 80 cylinders of a disk come out as that disk when nothing but cylinder 0 is
  written on.
* `tracksOf_rawFile` : a file of raw tracks is read as those tracks.
-/

namespace Mountin.Dms

/-! ## Lengths -/

theorem length_rleExtend {target n : Nat} {output output' : Bytes} {fill : UInt8}
    (h : rleExtend target output fill n = .ok output') : output'.length ≤ target := by
  unfold rleExtend at h
  split_ifs at h with hover
  rw [← Except.ok.inj h, List.length_append, List.length_replicate]
  exact Nat.le_of_not_lt hover

/-- The second pass returns as many bytes as the header declares. -/
theorem length_rleLoop {target : Nat} (input output : Bytes) {result : Bytes}
    (houtput : output.length ≤ target) (h : rleLoop target input output = .ok result) :
    result.length = target := by
  fun_induction rleLoop target input output with
  | case1 => cases h
  | case2 output hfull =>
      rw [← Except.ok.inj h]
      omega
  | case3 a input output hroom _ ih =>
      apply ih _ h
      rw [List.length_append, List.length_singleton]
      omega
  | case4 => cases h
  | case5 a output hroom _ input ih =>
      apply ih _ h
      rw [List.length_append, List.length_singleton]
      omega
  | case6 => cases h
  | case7 a output hroom _ fill hi lo input _ ih =>
      obtain ⟨output', hrun, hrest⟩ := Except.bind_eq_ok.mp h
      exact ih output' (length_rleExtend hrun) hrest
  | case8 => cases h
  | case9 a output hroom _ b _ fill input _ ih =>
      obtain ⟨output', hrun, hrest⟩ := Except.bind_eq_ok.mp h
      exact ih output' (length_rleExtend hrun) hrest
  | case10 a input output hfull =>
      rw [← Except.ok.inj h]
      omega

theorem length_unpackRle {input output : Bytes} {origsize : Nat}
    (h : unpackRle input origsize = .ok output) : output.length = origsize :=
  length_rleLoop input [] (Nat.zero_le _) h

theorem length_copy {size : Nat} : ∀ {n i : Nat} {w w' : Window} {bytes : Bytes},
    Window.copy size n i w = .ok (bytes, w') → bytes.length = n := by
  intro n
  induction n with
  | zero =>
      intro i w w' bytes h
      cases h
      rfl
  | succ n ih =>
      intro i w w' bytes h
      simp only [Window.copy, bind_eq_ok, Prod.exists] at h
      obtain ⟨b, -, w₁, -, rest, w₂, hrest, h⟩ := h
      cases h
      rw [List.length_cons, ih hrest]

/-- A first pass fills its output. -/
theorem length_lzLoop {σ : Type} {decode : σ → BitReader → Except IoError (Token × σ × BitReader)}
    {size : Nat} : ∀ {fuel remaining : Nat} {s s' : σ} {br : BitReader} {w w' : Window}
      {output : Bytes}, lzLoop decode size fuel remaining s br w = .ok (output, s', w') →
        output.length = remaining := by
  intro fuel
  induction fuel with
  | zero =>
      intro remaining s s' br w w' output h
      cases remaining <;> cases h
      rfl
  | succ fuel ih =>
      intro remaining s s' br w w' output h
      cases remaining with
      | zero =>
          cases h
          rfl
      | succ remaining =>
          simp only [lzLoop, bind_eq_ok, Prod.exists] at h
          obtain ⟨token, s₁, br₁, -, h⟩ := h
          cases token with
          | literal b =>
              simp only [bind_eq_ok, Prod.exists] at h
              obtain ⟨w₁, -, rest, s₂, w₂, hrest, h⟩ := h
              cases h
              rw [List.length_cons, ih hrest]
              rfl
          | copy length distance =>
              simp only [bind_eq_ok, Prod.exists] at h
              obtain ⟨bytes, w₁, hbytes, rest, s₂, w₂, hrest, h⟩ := h
              cases h
              rw [List.length_append, length_copy hbytes, ih hrest]
              omega

theorem length_unpackHeavy {s s' : DmsState} {input output : Bytes} {n flags : Nat}
    (h : unpackHeavy s input n flags = .ok (output, s')) : output.length = n := by
  simp only [unpackHeavy, bind_eq_ok, Prod.exists] at h
  obtain ⟨heavy, br, -, rest, heavy', w, hrest, h⟩ := h
  cases h
  exact length_lzLoop hrest

/-- The length that a track unpacks to: a mode without a second pass ends with its input. -/
def decodedLength (pklen1 pklen2 unpklen cmode flags : Nat) : Nat :=
  if cmode = 0 then min unpklen pklen1
  else if (cmode = 5 ∨ cmode = 6) ∧ flags &&& 4 = 0 then min unpklen pklen2
  else unpklen

theorem length_heavySecondPass {tmp output : Bytes} {unpklen flags : Nat}
    (h : heavySecondPass tmp unpklen flags = .ok output) :
    output.length = if flags &&& 4 = 0 then min unpklen tmp.length else unpklen := by
  unfold heavySecondPass at h
  by_cases hpass : flags &&& 4 = 0
  · rw [if_neg (not_not.mpr hpass)] at h
    rw [if_pos hpass, ← Except.ok.inj h, List.length_take]
  · rw [if_pos hpass] at h
    rw [if_neg hpass, length_unpackRle h]

theorem length_unpackMode {s s' : DmsState} {b1 output : Bytes} {pklen2 unpklen cmode flags : Nat}
    (h : unpackMode s b1 pklen2 unpklen cmode flags = .ok (output, s')) :
    output.length = decodedLength b1.length pklen2 unpklen cmode flags := by
  unfold unpackMode at h
  unfold decodedLength
  split at h
  · cases h
    rw [if_pos rfl, List.length_take]
  · simp only [bind_eq_ok] at h
    obtain ⟨output', hrle, h⟩ := h
    cases h
    simpa using length_unpackRle hrle
  · simp only [bind_eq_ok, Prod.exists] at h
    obtain ⟨tmp, s₁, -, output', hrle, h⟩ := h
    cases h
    simpa using length_unpackRle hrle
  · simp only [bind_eq_ok, Prod.exists] at h
    obtain ⟨tmp, s₁, -, output', hrle, h⟩ := h
    cases h
    simpa using length_unpackRle hrle
  · simp only [bind_eq_ok, Prod.exists] at h
    obtain ⟨tmp, s₁, -, output', hrle, h⟩ := h
    cases h
    simpa using length_unpackRle hrle
  · simp only [bind_eq_ok, Prod.exists] at h
    obtain ⟨tmp, s₁, htmp, output', hpass, h⟩ := h
    cases h
    rw [length_heavySecondPass hpass, length_unpackHeavy htmp]
    simp
  · simp only [bind_eq_ok, Prod.exists] at h
    obtain ⟨tmp, s₁, htmp, output', hpass, h⟩ := h
    cases h
    rw [length_heavySecondPass hpass, length_unpackHeavy htmp]
    simp
  · cases h

theorem length_unpackTrack {s s' : DmsState} {b1 output : Bytes} {pklen2 unpklen cmode flags : Nat}
    (h : unpackTrack s b1 pklen2 unpklen cmode flags = .ok (output, s')) :
    output.length = decodedLength b1.length pklen2 unpklen cmode flags := by
  simp only [unpackTrack, bind_eq_ok, Prod.exists] at h
  obtain ⟨output', s₁, hmode, h⟩ := h
  cases h
  exact length_unpackMode hmode

/-! ## Checks -/

/-- What the loop knows of a track that it took. -/
structure Track.Accepted (t : Track) : Prop where
  number : t.header.number < 80
  large : 2048 < t.header.unpklen
  length : t.unpacked.length = decodedLength t.header.pklen1 t.header.pklen2 t.header.unpklen
    t.header.cmode t.header.flags
  sum : t.header.unpklen ≤ t.unpacked.length →
    checksum (t.unpacked.take t.header.unpklen) = t.header.usum

theorem readTracks_accepted {data : Bytes} : ∀ {fuel pos : Nat} {s : DmsState} {tracks : List Track},
    readTracks data fuel pos s = .ok tracks → ∀ t ∈ tracks, t.Accepted := by
  intro fuel
  induction fuel with
  | zero =>
      intro pos s tracks h
      cases h
  | succ fuel ih =>
      intro pos s tracks h
      simp only [readTracks, bind_eq_ok] at h
      obtain ⟨header, -, h⟩ := h
      cases header with
      | none =>
          cases h
          exact fun t ht => absurd ht List.not_mem_nil
      | some th =>
          simp only [bind_eq_ok, require_eq_ok] at h
          obtain ⟨-, -, -, hend, -, -, h⟩ := h
          split_ifs at h with hskip
          · exact ih h
          · simp only [bind_eq_ok, require_eq_ok, Prod.exists] at h
            obtain ⟨unpacked, s', hunpack, -, hsum, rest, hrest, h⟩ := h
            cases h
            intro t ht
            rcases List.mem_cons.mp ht with rfl | ht
            · have hlen : (data.slice (pos + THLEN) th.pklen1).length = th.pklen1 := by
                rw [List.length_slice]
                omega
              obtain ⟨hnumber, hlarge⟩ := not_or.mp hskip
              refine ⟨Nat.lt_of_not_le hnumber, Nat.lt_of_not_le hlarge, ?_, fun hfull => ?_⟩
              · exact (length_unpackTrack hunpack).trans (by rw [hlen])
              · exact not_not.mp (not_and.mp hsum hfull)
            · exact ih hrest t ht

theorem tracksOf_accepted {data : Bytes} {tracks : List Track} (h : tracksOf data = .ok tracks) :
    ∀ t ∈ tracks, t.Accepted := by
  simp only [tracksOf, bind_eq_ok] at h
  obtain ⟨-, -, h⟩ := h
  exact readTracks_accepted h

/-- The data of a track is checked: it has its full length, and the checksum of the header. -/
def Track.Checked (t : Track) : Prop :=
  t.unpacked.length = t.header.unpklen ∧ checksum t.unpacked = t.header.usum

/-- A track is stored short: some of its bytes, in a mode without a second pass. -/
def TrackHeader.Short (th : TrackHeader) : Prop :=
  (th.cmode = 0 ∧ 0 < th.pklen1 ∧ th.pklen1 < th.unpklen) ∨
    ((th.cmode = 5 ∨ th.cmode = 6) ∧ th.flags &&& 4 = 0 ∧ 0 < th.pklen2 ∧ th.pklen2 < th.unpklen)

/-- A track has its place in the output. -/
def TrackHeader.Fits (th : TrackHeader) : Prop := th.number * 11 * 512 + th.unpklen ≤ ADF_SIZE

/-- What is copied of a track is checked unless the track is stored short. -/
theorem Track.Accepted.checked_iff {t : Track} (h : t.Accepted) :
    (t.copied ≠ [] → t.Checked) ↔ (t.header.Fits → ¬ t.header.Short) := by
  have hlarge := h.large
  have hlength := h.length
  have hlen : t.unpacked.length ≤ t.header.unpklen ∧
      (0 < t.unpacked.length ∧ t.unpacked.length < t.header.unpklen ↔ t.header.Short) := by
    rw [hlength]
    unfold decodedLength TrackHeader.Short
    split_ifs <;> omega
  have hcopied : t.copied ≠ [] ↔ t.header.Fits ∧ 0 < t.unpacked.length := by
    unfold Track.copied TrackHeader.Fits Track.offset
    split_ifs with hfits
    · rw [← List.length_pos_iff, List.length_take]
      omega
    · exact iff_of_false (fun hne => hne rfl) (fun hand => hfits hand.1)
  rw [hcopied]
  constructor
  · rintro hchecked hfits hshort
    obtain ⟨hpos, hlt⟩ := hlen.2.mpr hshort
    exact hlt.ne (hchecked ⟨hfits, hpos⟩).1
  · rintro hshort ⟨hfits, hpos⟩
    have hfull : t.unpacked.length = t.header.unpklen :=
      Nat.le_antisymm hlen.1 (Nat.le_of_not_lt fun hlt => hshort hfits (hlen.2.mp ⟨hpos, hlt⟩))
    have hsum := h.sum hfull.ge
    rw [List.take_of_length_le hfull.le] at hsum
    exact ⟨hfull, hsum⟩

/-- **Integrity of DMS tracks**: every track that bytes are copied from has its full length and its
checksum exactly when no track with a place in the output is stored short. -/
theorem integrity_iff (data : Bytes) (tracks : List Track) (h : tracksOf data = .ok tracks) :
    decompressDms data = .ok (tracks.foldl place (List.replicate ADF_SIZE 0)) ∧
    ((∀ t ∈ tracks, t.copied ≠ [] → t.Checked) ↔
      ∀ t ∈ tracks, t.header.Fits → ¬ t.header.Short) := by
  refine ⟨by rw [decompressDms, h]; rfl, forall₂_congr fun t ht => ?_⟩
  exact (tracksOf_accepted h t ht).checked_iff

/-! ## Placement -/

/-- A track covers a position of the output. -/
def Track.Covers (p : Nat) (t : Track) : Prop := t.offset ≤ p ∧ p < t.offset + t.copied.length

instance (p : Nat) (t : Track) : Decidable (t.Covers p) := inferInstanceAs (Decidable (_ ∧ _))

/-- The last track that covers a position. -/
def lastCovering (tracks : List Track) (p : Nat) : Option Track :=
  tracks.reverse.find? (fun t => t.Covers p)

theorem Track.offset_add_copied_le (t : Track) (h : t.copied ≠ []) :
    t.offset + t.copied.length ≤ ADF_SIZE := by
  unfold Track.copied at h ⊢
  split_ifs at h ⊢ with hfits
  · rw [List.length_take]
    omega
  · exact absurd rfl h

theorem length_place {output : Bytes} (h : output.length = ADF_SIZE) (t : Track) :
    (place output t).length = ADF_SIZE := by
  unfold place
  rcases eq_or_ne t.copied [] with hnil | hne
  · rw [hnil, List.splice, List.append_nil, List.length_nil, Nat.add_zero, List.take_append_drop, h]
  · rw [List.length_splice (h ▸ t.offset_add_copied_le hne), h]

theorem getElem?_place {output : Bytes} (h : output.length = ADF_SIZE) (t : Track) (p : Nat) :
    (place output t)[p]? = if t.Covers p then t.copied[p - t.offset]? else output[p]? := by
  unfold place
  rcases eq_or_ne t.copied [] with hnil | hne
  · have hcovers : ¬ t.Covers p := by
      unfold Track.Covers
      rw [hnil, List.length_nil]
      omega
    rw [if_neg hcovers, hnil, List.splice, List.append_nil, List.length_nil, Nat.add_zero,
      List.take_append_drop]
  · rw [List.getElem?_splice (by have := t.offset_add_copied_le hne; omega)]
    rfl

theorem length_foldl_place (tracks : List Track) {output : Bytes} (h : output.length = ADF_SIZE) :
    (tracks.foldl place output).length = ADF_SIZE := by
  induction tracks generalizing output with
  | nil => exact h
  | cons t rest ih => exact ih (length_place h t)

theorem lastCovering_append_singleton (rest : List Track) (t : Track) (p : Nat) :
    lastCovering (rest ++ [t]) p = if t.Covers p then some t else lastCovering rest p := by
  rw [lastCovering, List.reverse_append, List.reverse_singleton, List.singleton_append,
    List.find?_cons]
  by_cases hcovers : t.Covers p
  · rw [if_pos hcovers, decide_eq_true hcovers]
  · rw [if_neg hcovers, decide_eq_false hcovers]
    rfl

theorem lastCovering_eq_some {tracks : List Track} {p : Nat} {t : Track}
    (h : lastCovering tracks p = some t) : t.Covers p ∧ ∃ before after,
      tracks = before ++ t :: after ∧ ∀ u ∈ after, ¬ u.Covers p := by
  obtain ⟨hcovers, after, before, hsplit, hnone⟩ := List.find?_eq_some_iff_append.mp h
  refine ⟨of_decide_eq_true hcovers, before.reverse, after.reverse, ?_, fun u hu hcovers' => ?_⟩
  · have hrev := congrArg List.reverse hsplit
    rwa [List.reverse_reverse, List.reverse_append, List.reverse_cons, List.append_assoc,
      List.singleton_append] at hrev
  · have hu' := hnone u (List.mem_reverse.mp hu)
    rw [decide_eq_true hcovers'] at hu'
    cases hu'

/-- A position of the output holds what the last track that covers it has there. -/
theorem getElem?_foldl_place (tracks : List Track) {output : Bytes} (h : output.length = ADF_SIZE)
    (p : Nat) : (tracks.foldl place output)[p]? =
      match lastCovering tracks p with
      | some t => t.copied[p - t.offset]?
      | none => output[p]? := by
  induction tracks using List.reverseRecOn with
  | nil => rfl
  | append_singleton rest t ih =>
      rw [List.foldl_append, List.foldl_cons, List.foldl_nil,
        getElem?_place (length_foldl_place rest h), ih, lastCovering_append_singleton]
      split_ifs <;> rfl

/-- The bytes of a cylinder: 22 sectors. -/
def CYLINDER : Nat := 22 * 512

/-- The tracks of a file are the 80 cylinders of the disk `D`, in some order. -/
structure Cylinders (tracks : List Track) (D : Bytes) : Prop where
  numbers : (tracks.map (fun t => t.header.number)).Perm (List.range 80)
  unpklen : ∀ t ∈ tracks, t.header.unpklen = CYLINDER
  length : D.length = 80 * CYLINDER
  unpacked : ∀ t ∈ tracks, t.unpacked = D.slice (t.header.number * CYLINDER) CYLINDER

section

variable {tracks : List Track} {D : Bytes} (h : Cylinders tracks D)

include h

theorem Cylinders.number_lt {t : Track} (ht : t ∈ tracks) : t.header.number < 80 :=
  List.mem_range.mp (h.numbers.mem_iff.mp (List.mem_map_of_mem ht))

theorem Cylinders.copied {t : Track} (ht : t ∈ tracks) :
    t.copied = D.slice (t.header.number * CYLINDER) CYLINDER ∧ t.copied.length = CYLINDER := by
  have hlt := h.number_lt ht
  have hunpklen := h.unpklen t ht
  have hlen := h.length
  have hslice : (D.slice (t.header.number * CYLINDER) CYLINDER).length = CYLINDER := by
    rw [List.length_slice, hlen]
    simp only [CYLINDER]
    omega
  have hcopied : t.copied = D.slice (t.header.number * CYLINDER) CYLINDER := by
    unfold Track.copied Track.offset
    rw [if_pos (by rw [hunpklen]; simp only [CYLINDER, ADF_SIZE]; omega), hunpklen, h.unpacked t ht,
      List.take_of_length_le hslice.le]
  exact ⟨hcopied, hcopied ▸ hslice⟩

/-- A track covers half a cylinder of its own number and the next half. -/
theorem Cylinders.covers_iff {t : Track} (ht : t ∈ tracks) {p : Nat} :
    t.Covers p ↔ p / 5632 = t.header.number ∨ p / 5632 = t.header.number + 1 := by
  unfold Track.Covers Track.offset
  rw [(h.copied ht).2]
  simp only [CYLINDER]
  omega

theorem Cylinders.getElem?_copied {t : Track} (ht : t ∈ tracks) {p : Nat} (hp : t.Covers p) :
    t.copied[p - t.offset]? = D[p + t.header.number * 5632]? := by
  have hcovers := hp
  unfold Track.Covers at hcovers
  rw [(h.copied ht).2] at hcovers
  rw [(h.copied ht).1, List.getElem?_slice, if_pos (by omega)]
  congr 1
  simp only [Track.offset, CYLINDER] at hcovers ⊢
  omega

/-- A position of the output is written by the track of its half cylinder or the one before, which
puts there the bytes of the disk from as many half cylinders on; the second half of the output is
not written. -/
theorem Cylinders.getElem?_output {p : Nat} (hp : p < ADF_SIZE) :
    (80 < p / 5632 ∧ (tracks.foldl place (List.replicate ADF_SIZE 0))[p]? = some 0) ∨
    ∃ t, lastCovering tracks p = some t ∧ t ∈ tracks ∧ t.Covers p ∧
      (tracks.foldl place (List.replicate ADF_SIZE 0))[p]? = D[p + t.header.number * 5632]? := by
  rw [getElem?_foldl_place tracks List.length_replicate]
  cases hlast : lastCovering tracks p with
  | none =>
      refine .inl ⟨?_, by rw [List.getElem?_replicate, if_pos hp]⟩
      -- a half cylinder up to 80 is covered by its track or by track 79
      by_contra hle
      have hmem : min (p / 5632) 79 ∈ tracks.map (fun t => t.header.number) :=
        h.numbers.mem_iff.mpr (List.mem_range.mpr (by omega))
      obtain ⟨t, ht, hnumber⟩ := List.mem_map.mp hmem
      have hcovers : t.Covers p := (h.covers_iff ht).mpr (by omega)
      have hnone := List.find?_eq_none.mp hlast t (List.mem_reverse.mpr ht)
      exact hnone (decide_eq_true hcovers)
  | some t =>
      obtain ⟨hcovers, before, after, hsplit, -⟩ := lastCovering_eq_some hlast
      have ht : t ∈ tracks := hsplit ▸ List.mem_append_right _ List.mem_cons_self
      exact .inr ⟨t, rfl, ht, hcovers, h.getElem?_copied ht hcovers⟩

omit h in
theorem idxOf_lt_idxOf {l r : List Nat} {m n : Nat} (hm : m ∈ l) (hn : n ∉ l) :
    (l ++ n :: r).idxOf m < (l ++ n :: r).idxOf n := by
  rw [List.idxOf_append_of_mem hm, List.idxOf_append_of_notMem hn]
  have := List.idxOf_lt_length_of_mem hm
  omega

/-- In the second half of cylinder 0 the later one of the tracks 0 and 1 is seen. -/
theorem Cylinders.lastCovering_one {p : Nat} (hp : p / 5632 = 1) {t : Track}
    (hlast : lastCovering tracks p = some t) :
    t.header.number = 1 ↔ (tracks.map (fun t => t.header.number)).idxOf 0
      < (tracks.map (fun t => t.header.number)).idxOf 1 := by
  obtain ⟨hcovers, before, after, hsplit, hlater⟩ := lastCovering_eq_some hlast
  have ht : t ∈ tracks := hsplit ▸ List.mem_append_right _ List.mem_cons_self
  have hnumber := (h.covers_iff ht).mp hcovers
  have hnodup : (tracks.map (fun t => t.header.number)).Nodup :=
    h.numbers.nodup_iff.mpr List.nodup_range
  -- a track of the other number comes before
  have hbefore : ∀ m < 2, m ≠ t.header.number → m ∈ before.map (fun t => t.header.number) := by
    intro m hm hne
    have hmem : m ∈ tracks.map (fun t => t.header.number) :=
      h.numbers.mem_iff.mpr (List.mem_range.mpr (by omega))
    rw [hsplit, List.map_append, List.mem_append, List.map_cons, List.mem_cons] at hmem
    refine hmem.resolve_right (not_or.mpr ⟨hne, fun hafter => ?_⟩)
    obtain ⟨u, hu, rfl⟩ := List.mem_map.mp hafter
    have hu' : u ∈ tracks := hsplit ▸ List.mem_append_right _ (List.mem_cons_of_mem _ hu)
    exact hlater u hu ((h.covers_iff hu').mpr (by omega))
  rw [hsplit, List.map_append, List.map_cons] at hnodup ⊢
  have hfresh : t.header.number ∉ before.map (fun t => t.header.number) := fun hmem =>
    (List.nodup_append.mp hnodup).2.2 _ hmem _ List.mem_cons_self rfl
  rcases hnumber with hone | hzero
  · have hlt := idxOf_lt_idxOf (r := after.map (fun t => t.header.number))
      (hbefore 0 (by omega) (by omega)) hfresh
    rw [← hone, hp] at hlt ⊢
    exact iff_of_true rfl hlt
  · have hlt := idxOf_lt_idxOf (r := after.map (fun t => t.header.number))
      (hbefore 1 (by omega) (by omega)) hfresh
    have hnumber : t.header.number = 0 := by omega
    rw [hnumber] at hlt ⊢
    exact iff_of_false (by decide) (by omega)

/-- The output is the disk where the half cylinders that the wrong places put there agree. -/
theorem Cylinders.foldl_place_eq_iff :
    tracks.foldl place (List.replicate ADF_SIZE 0) = D ↔
      (∀ p, CYLINDER ≤ p → p < ADF_SIZE → D[p]? = some 0) ∧
      ((tracks.map (fun t => t.header.number)).idxOf 0
          < (tracks.map (fun t => t.header.number)).idxOf 1 →
        ∀ p, CYLINDER / 2 ≤ p → p < CYLINDER → D[p]? = some 0) := by
  have hlen := h.length
  have hcyl : CYLINDER = 11264 := rfl
  have hadf : ADF_SIZE = 901120 := rfl
  constructor
  · intro heq
    have hzero : ∀ k p, ADF_SIZE - p = k → CYLINDER ≤ p → p < ADF_SIZE → D[p]? = some 0 := by
      intro k
      induction k using Nat.strong_induction_on with
      | _ k ih =>
          intro p hk hlo hhi
          rcases h.getElem?_output hhi with ⟨-, hout⟩ | ⟨t, -, ht, hcovers, hout⟩
          · rwa [heq] at hout
          · have hnumber := (h.covers_iff ht).mp hcovers
            have hlt := h.number_lt ht
            rw [heq] at hout
            rw [hout]
            exact ih _ (by omega) (p + t.header.number * 5632) rfl (by omega) (by omega)
    refine ⟨fun p => hzero _ p rfl, fun horder p hlo hhi => ?_⟩
    have hslot : p / 5632 = 1 := by omega
    rcases h.getElem?_output (show p < ADF_SIZE by omega) with
      ⟨hfar, -⟩ | ⟨t, hlast, ht, hcovers, hout⟩
    · omega
    · have hone := (h.lastCovering_one hslot hlast).mpr horder
      rw [heq, hone] at hout
      rw [hout]
      exact hzero _ _ rfl (by omega) (by omega)
  · rintro ⟨hzero, hfirst⟩
    apply List.ext_getElem?
    intro p
    by_cases hp : p < ADF_SIZE
    · rcases h.getElem?_output hp with ⟨hfar, hout⟩ | ⟨t, hlast, ht, hcovers, hout⟩
      · rw [hout, hzero p (by omega) hp]
      · have hnumber := (h.covers_iff ht).mp hcovers
        have hlt := h.number_lt ht
        rw [hout]
        rcases Nat.eq_zero_or_pos t.header.number with hzero' | hpos
        · rw [hzero', Nat.zero_mul, Nat.add_zero]
        · rw [hzero (p + t.header.number * 5632) (by omega) (by omega)]
          by_cases hlo : CYLINDER ≤ p
          · rw [hzero p hlo hp]
          · have hslot : p / 5632 = 1 := by omega
            have horder := (h.lastCovering_one hslot hlast).mp (by omega)
            rw [hfirst horder p (by omega) (by omega)]
    · rw [List.getElem?_eq_none (by rw [length_foldl_place _ List.length_replicate]; omega),
        List.getElem?_eq_none (by omega)]

end

/-- **Placement of DMS tracks**: a file with the 80 cylinders of a disk decompresses to that disk
exactly when the disk holds zeros behind cylinder 0, and in the second half of cylinder 0 as well
where track 1 comes after track 0. -/
theorem placement_iff (data : Bytes) (tracks : List Track) (D : Bytes)
    (hok : tracksOf data = .ok tracks) (h : Cylinders tracks D) :
    decompressDms data = .ok D ↔
      (∀ p, CYLINDER ≤ p → p < ADF_SIZE → D[p]? = some 0) ∧
      ((tracks.map (fun t => t.header.number)).idxOf 0
          < (tracks.map (fun t => t.header.number)).idxOf 1 →
        ∀ p, CYLINDER / 2 ≤ p → p < CYLINDER → D[p]? = some 0) := by
  have hdecompress : decompressDms data
      = .ok (tracks.foldl place (List.replicate ADF_SIZE 0)) := by
    rw [decompressDms, hok]
    rfl
  rw [hdecompress, Except.ok.injEq]
  exact h.foldl_place_eq_iff

/-! ## Files of raw tracks -/

/-- A track stored raw, with the length and the checksum that its header declares. -/
structure RawTrack where
  number : Nat
  unpklen : Nat
  usum : Nat
  data : Bytes
  number_lt : number < 80
  large : 2048 < unpklen
  small : unpklen ≤ TRACK_BUFFER_LEN
  usum_lt : usum < 2 ^ 16
  data_small : data.length ≤ TRACK_BUFFER_LEN
  sum : unpklen ≤ data.length → checksum (data.take unpklen) = usum

/-- Two big-endian bytes. -/
def be2 (n : Nat) : Bytes := [UInt8.ofNat (n / 256), UInt8.ofNat n]

/-- The header of a raw track, up to its CRC. -/
def RawTrack.front (t : RawTrack) : Bytes :=
  [0x54, 0x52] ++ be2 t.number ++ [0, 0] ++ be2 t.data.length ++ [0, 0] ++ be2 t.unpklen ++ [0, 0]
    ++ be2 t.usum ++ be2 (crc16 t.data)

/-- The track in a file. -/
def RawTrack.bytes (t : RawTrack) : Bytes := t.front ++ be2 (crc16 t.front) ++ t.data

/-- The header as it is read. -/
def RawTrack.header (t : RawTrack) : TrackHeader where
  number := t.number
  pklen1 := t.data.length
  pklen2 := 0
  unpklen := t.unpklen
  flags := 0
  cmode := 0
  usum := t.usum
  dcrc := crc16 t.data

/-- The track as it is unpacked. -/
def RawTrack.track (t : RawTrack) : Track := ⟨t.header, t.data.take t.unpklen⟩

/-- A file of raw tracks. -/
def rawFile (tracks : List RawTrack) : Bytes :=
  [0x44, 0x4d, 0x53, 0x21] ++ List.replicate 52 0 ++ tracks.flatMap RawTrack.bytes

theorem be_be2 {n : Nat} (h : n < 2 ^ 16) : Bytes.be (be2 n) = n := by
  show Bytes.le [UInt8.ofNat n, UInt8.ofNat (n / 256)] = n
  rw [← Bytes.le_ofNat_ofNat h]
  simp only [Bytes.le, UInt8.toNat_ofNat']
  omega

theorem crc16_lt (data : Bytes) : crc16 data < 2 ^ 16 := by
  have htable : ∀ x ∈ CRC_TABLE, x < 2 ^ 16 := by decide +kernel
  have hentry : ∀ i, CRC_TABLE.getD i 0 < 2 ^ 16 := by
    intro i
    rw [List.getD_eq_getElem?_getD]
    cases hi : CRC_TABLE[i]? with
    | none => decide
    | some x => exact htable x (List.mem_of_getElem? hi)
  unfold crc16
  induction data using List.reverseRecOn with
  | nil => decide
  | append_singleton rest b _ =>
      rw [List.foldl_append]
      exact Nat.xor_lt_two_pow (hentry _) ((Nat.mod_lt _ (by decide)).trans (by decide))

/-- A field of a header that is in the file. -/
theorem beField_header (t : RawTrack) {k n : Nat}
    (hslice : (t.front ++ be2 (crc16 t.front)).slice k 2 = be2 n) (h : n < 2 ^ 16) :
    beField (t.front ++ be2 (crc16 t.front)) k 2 = n := by
  rw [beField, hslice, be_be2 h]

theorem readTrackHeader_raw (before after : Bytes) (t : RawTrack) :
    readTrackHeader (before ++ (t.bytes ++ after)) before.length = .ok (some t.header) := by
  have hsmall : TRACK_BUFFER_LEN < 2 ^ 16 := by decide
  have hlen : (t.front ++ be2 (crc16 t.front)).length = THLEN := rfl
  have hsplit : before ++ (t.bytes ++ after)
      = before ++ (t.front ++ be2 (crc16 t.front)) ++ (t.data ++ after) := by
    rw [RawTrack.bytes]
    simp only [List.append_assoc]
  have hslice : (before ++ (t.bytes ++ after)).slice before.length THLEN
      = t.front ++ be2 (crc16 t.front) := by
    rw [hsplit, List.slice_append_mid _ rfl hlen]
  have hend : ¬ (before ++ (t.bytes ++ after)).length < before.length + THLEN := by
    rw [hsplit, List.length_append, List.length_append, hlen]
    omega
  have hcrc : crc16 ((t.front ++ be2 (crc16 t.front)).take (THLEN - 2))
      = beField (t.front ++ be2 (crc16 t.front)) (THLEN - 2) 2 := by
    rw [List.take_left' (show t.front.length = THLEN - 2 from rfl)]
    exact (beField_header t rfl (crc16_lt _)).symm
  have hmagic : ¬ (t.front ++ be2 (crc16 t.front)).slice 0 2 ≠ [0x54, 0x52] := not_not.mpr rfl
  unfold readTrackHeader
  rw [if_neg hend]
  simp only [hslice]
  rw [if_neg hmagic, require, if_pos hcrc, Except.ok_bind]
  refine congrArg (fun th => Except.ok (some th)) ?_
  rw [RawTrack.header, TrackHeader.mk.injEq]
  exact ⟨beField_header t rfl (t.number_lt.trans (by decide)),
    beField_header t rfl (t.data_small.trans_lt hsmall), rfl,
    beField_header t rfl (t.small.trans_lt hsmall), rfl, rfl, beField_header t rfl t.usum_lt,
    beField_header t rfl (crc16_lt _)⟩

theorem unpackTrack_raw (s : DmsState) (b1 : Bytes) (pklen2 unpklen : Nat) :
    unpackTrack s b1 pklen2 unpklen 0 0 = .ok (b1.take unpklen, s.reinit) := by
  rw [unpackTrack, unpackMode, Except.ok_bind]
  simp only [Nat.zero_and, if_true]
  rfl

/-- The loop takes a raw track. -/
theorem readTracks_raw (tracks : List RawTrack) : ∀ (before : Bytes) (fuel : Nat) (s : DmsState),
    tracks.length < fuel →
    readTracks (before ++ tracks.flatMap RawTrack.bytes) fuel before.length s
      = .ok (tracks.map RawTrack.track) := by
  induction tracks with
  | nil =>
      intro before fuel s hfuel
      obtain ⟨fuel, rfl⟩ := Nat.exists_eq_add_one.mpr (Nat.zero_lt_of_lt hfuel)
      have hend : (before ++ List.flatMap RawTrack.bytes []).length < before.length + THLEN := by
        rw [List.flatMap_nil, List.append_nil]
        simp only [THLEN]
        omega
      rw [readTracks, readTrackHeader, if_pos hend]
      rfl
  | cons t rest ih =>
      intro before fuel s hfuel
      obtain ⟨fuel, rfl⟩ := Nat.exists_eq_add_one.mpr (Nat.zero_lt_of_lt hfuel)
      have hlen : (t.front ++ be2 (crc16 t.front)).length = THLEN := rfl
      have hdata : (before ++ (t.bytes ++ rest.flatMap RawTrack.bytes)).slice
          (before.length + THLEN) t.data.length = t.data := by
        have hsplit : before ++ (t.bytes ++ rest.flatMap RawTrack.bytes)
            = before ++ (t.front ++ be2 (crc16 t.front)) ++ t.data
              ++ rest.flatMap RawTrack.bytes := by
          rw [RawTrack.bytes]
          simp only [List.append_assoc]
        rw [hsplit, List.slice_append_mid _ (by rw [List.length_append, hlen]) rfl]
      have hbytes : t.bytes.length = THLEN + t.data.length := by
        rw [RawTrack.bytes, List.length_append, hlen]
      have hrest := ih (before ++ t.bytes) fuel s.reinit (Nat.lt_of_succ_lt_succ hfuel)
      rw [List.append_assoc, List.length_append, hbytes, ← Nat.add_assoc] at hrest
      have hsum : ¬ (t.header.unpklen ≤ (t.data.take t.unpklen).length ∧
          checksum ((t.data.take t.unpklen).take t.header.unpklen) ≠ t.header.usum) := by
        show ¬ (t.unpklen ≤ _ ∧ checksum (List.take t.unpklen _) ≠ t.usum)
        rintro ⟨hfull, hne⟩
        rw [List.length_take] at hfull
        rw [List.take_take, Nat.min_self] at hne
        exact hne (t.sum (by omega))
      have hunpack : unpackTrack s ((before ++ (t.bytes ++ rest.flatMap RawTrack.bytes)).slice
          (before.length + THLEN) t.header.pklen1) t.header.pklen2 t.header.unpklen t.header.cmode
          t.header.flags = .ok (t.data.take t.unpklen, s.reinit) := by
        rw [show List.slice _ _ t.header.pklen1 = _ from hdata]
        exact unpackTrack_raw s t.data _ _
      have hskip : ¬ (80 ≤ t.header.number ∨ t.header.unpklen ≤ 2048) :=
        not_or.mpr ⟨Nat.not_le.mpr t.number_lt, Nat.not_le.mpr t.large⟩
      have hsizes : t.header.pklen1 ≤ TRACK_BUFFER_LEN ∧ t.header.pklen2 ≤ TRACK_BUFFER_LEN ∧
          t.header.unpklen ≤ TRACK_BUFFER_LEN := ⟨t.data_small, Nat.zero_le _, t.small⟩
      have hend : before.length + THLEN + t.header.pklen1
          ≤ (before ++ (t.bytes ++ rest.flatMap RawTrack.bytes)).length := by
        have hpklen : t.header.pklen1 = t.data.length := rfl
        rw [List.length_append, List.length_append, hbytes]
        omega
      have hcrc : crc16 ((before ++ (t.bytes ++ rest.flatMap RawTrack.bytes)).slice
          (before.length + THLEN) t.header.pklen1) = t.header.dcrc := congrArg crc16 hdata
      rw [List.flatMap_cons, readTracks, readTrackHeader_raw, Except.ok_bind]
      dsimp only
      rw [require, if_pos hsizes, Except.ok_bind, require, if_pos hend, Except.ok_bind, require,
        if_pos hcrc, Except.ok_bind, if_neg hskip, hunpack, Except.ok_bind]
      dsimp only
      rw [require, if_pos hsum, Except.ok_bind]
      exact congrArg (· >>= _) hrest

theorem checkHeader_rawFile (tracks : List RawTrack) : checkHeader (rawFile tracks) = .ok () := by
  have hfield : ∀ off w, off + w ≤ 56 → (rawFile tracks).slice off w
      = ([0x44, 0x4d, 0x53, 0x21] ++ List.replicate 52 0 : Bytes).slice off w :=
    fun off w h => List.slice_append_left _ h
  have hcrc : beField (rawFile tracks) (HEADLEN - 2) 2 = 0 :=
    (congrArg Bytes.be (hfield _ 2 (by decide))).trans (by decide +kernel)
  have hinfo : beField (rawFile tracks) 10 2 = 0 :=
    (congrArg Bytes.be (hfield _ 2 (by decide))).trans (by decide +kernel)
  have htype : beField (rawFile tracks) 50 2 = 0 :=
    (congrArg Bytes.be (hfield _ 2 (by decide))).trans (by decide +kernel)
  have hlength : HEADLEN ≤ (rawFile tracks).length := by
    rw [rawFile, List.length_append]
    exact Nat.le_add_right _ _
  rw [checkHeader, require, if_pos hlength, Except.ok_bind]
  rw [hfield 0 4 (by decide), hfield 4 (HEADLEN - 6) (by decide), hcrc, hinfo, htype]
  decide +kernel

/-- The tracks of a file of raw tracks. -/
theorem tracksOf_rawFile (tracks : List RawTrack) :
    tracksOf (rawFile tracks) = .ok (tracks.map RawTrack.track) := by
  have hlen : tracks.length ≤ (tracks.flatMap RawTrack.bytes).length := by
    induction tracks with
    | nil => exact Nat.le_refl _
    | cons t rest ih =>
        have hbytes : 0 < t.bytes.length := Nat.succ_pos _
        rw [List.flatMap_cons, List.length_cons, List.length_append]
        omega
  have hread := readTracks_raw tracks ([0x44, 0x4d, 0x53, 0x21] ++ List.replicate 52 0)
    ((rawFile tracks).length + 1) DmsState.new (by
      rw [rawFile, List.length_append]
      omega)
  rw [tracksOf, checkHeader_rawFile tracks, Except.ok_bind]
  exact hread

/-- A track of one byte that declares 2049. -/
def shortTrack : RawTrack :=
  ⟨0, 2049, 0, [7], by decide, by decide, by decide, by decide, by decide, by decide⟩

/-- The byte is copied although its sum is not that of the header. -/
theorem short_track_copied :
    ¬ ∀ (data : Bytes) (tracks : List Track), tracksOf data = .ok tracks →
      ∀ t ∈ tracks, t.copied ≠ [] → t.Checked := by
  intro h
  have hchecked := h _ _ (tracksOf_rawFile [shortTrack]) _ List.mem_cons_self (by decide +kernel)
  exact absurd hchecked.1 (by decide)

/-- A track of 2049 sevens. -/
def fullTrack : RawTrack :=
  ⟨0, 2049, 14343, List.replicate 2049 7, by decide, by decide, by decide, by decide,
    by decide +kernel, by decide +kernel⟩

/-- Its bytes are checked. -/
theorem full_track_checked : fullTrack.track.Checked := by
  refine (integrity_iff _ _ (tracksOf_rawFile [fullTrack])).2.mpr (fun t ht _ hshort => ?_)
    fullTrack.track List.mem_cons_self (by decide +kernel)
  obtain rfl : t = fullTrack.track := List.mem_singleton.mp ht
  rcases hshort with ⟨-, -, hlt⟩ | ⟨hmode, -⟩
  · exact absurd hlt (by decide +kernel)
  · exact absurd hmode (by decide)

/-- The 80 tracks of a disk of one byte, over and over. -/
def uniformTracks (b : UInt8) : List RawTrack :=
  (List.finRange 80).map fun (n : Fin 80) =>
    { number := n, unpklen := CYLINDER, usum := checksum (List.replicate CYLINDER b)
      data := List.replicate CYLINDER b, number_lt := n.isLt, large := by decide, small := by decide
      usum_lt := Nat.mod_lt _ (by decide), data_small := by rw [List.length_replicate]; decide
      sum := fun _ => by rw [List.take_of_length_le (by rw [List.length_replicate])] }

theorem cylinders_uniform (b : UInt8) :
    Cylinders ((uniformTracks b).map RawTrack.track) (List.replicate (80 * CYLINDER) b) := by
  have htrack : ∀ t ∈ (uniformTracks b).map RawTrack.track, ∃ n : Fin 80,
      t.header.number = n ∧ t.header.unpklen = CYLINDER ∧
        t.unpacked = List.replicate CYLINDER b := by
    intro t ht
    obtain ⟨raw, hraw, rfl⟩ := List.mem_map.mp ht
    obtain ⟨n, -, rfl⟩ := List.mem_map.mp hraw
    exact ⟨n, rfl, rfl, List.take_of_length_le (by rw [List.length_replicate])⟩
  constructor
  · have hnumbers : ((uniformTracks b).map RawTrack.track).map (fun t => t.header.number)
        = List.range 80 := by
      rw [uniformTracks, List.map_map, List.map_map]
      exact List.map_coe_finRange_eq_range
    exact hnumbers ▸ List.Perm.refl _
  · intro t ht
    obtain ⟨n, -, hunpklen, -⟩ := htrack t ht
    exact hunpklen
  · exact List.length_replicate
  · intro t ht
    obtain ⟨n, hnumber, -, hunpacked⟩ := htrack t ht
    have hlt := n.isLt
    rw [hunpacked, hnumber, List.slice, List.drop_replicate, List.take_replicate]
    congr 1
    simp only [CYLINDER]
    omega

/-- A disk of ones does not come out: the second half of the output is not written. -/
theorem uniform_disk_misplaced :
    ¬ ∀ (data : Bytes) (tracks : List Track) (D : Bytes), tracksOf data = .ok tracks →
      Cylinders tracks D → decompressDms data = .ok D := by
  intro h
  have hok := tracksOf_rawFile (uniformTracks 1)
  have hdisk := h _ _ _ hok (cylinders_uniform 1)
  have hzero := ((placement_iff _ _ _ hok (cylinders_uniform 1)).mp hdisk).1 CYLINDER
    (Nat.le_refl _) (by decide)
  rw [List.getElem?_replicate, if_pos (by decide)] at hzero
  exact absurd hzero (by decide)

/-- A disk of zeros does. -/
theorem zero_disk_placed :
    decompressDms (rawFile (uniformTracks 0)) = .ok (List.replicate (80 * CYLINDER) 0) := by
  refine (placement_iff _ _ _ (tracksOf_rawFile (uniformTracks 0)) (cylinders_uniform 0)).mpr ?_
  refine ⟨fun p _ hp => ?_, fun _ p _ hp => ?_⟩
  · exact (List.getElem?_replicate).trans (if_pos hp)
  · exact (List.getElem?_replicate).trans (if_pos (hp.trans (by decide)))

end Mountin.Dms
