import Mountin.Detect.Reader
import Mathlib.Tactic.Linarith

set_option autoImplicit false

/-! # Slices of slices

A partition table inside a partition is read through a stack of `SliceReader`s. Every level
cuts a read short at its own end, and the innermost length may promise more than the levels
around it hold. `slices_compose` gives what such a stack shows of the bytes at its bottom.
-/

namespace Mountin

/-- The offset and the length of a `SliceReader`, two `u64`s whose sum is one. -/
structure Window where
  offset : Nat
  length : Nat
  bounded : offset + length < 2 ^ 64

/-- The reader at the top of a stack of slices, the outermost one first. -/
def sliceStack (parent : Reader) : List Window → Reader
  | [] => parent
  | w :: inner => sliceStack (sliceReader parent w.offset w.length) inner

/-- Where the innermost window starts in the bytes at the bottom. -/
def stackStart (ws : List Window) : Nat := (ws.map Window.offset).sum

/-- Position `p` lies in every window of a stack that starts at `base`. -/
def InWindows : Nat → List Window → Nat → Prop
  | _, [], _ => True
  | base, w :: inner, p =>
      (base + w.offset ≤ p ∧ p < base + w.offset + w.length) ∧
        InWindows (base + w.offset) inner p

/-- How many bytes the innermost window really holds, when the parent holds `size`. -/
def stackExtent : Nat → List Window → Nat
  | size, [] => size
  | size, w :: inner => stackExtent (min w.length (size - w.offset)) inner

/-- The reader serves the bytes `D` at the offsets below `bound`. -/
def Reads (r : Reader) (D : Bytes) (bound : Nat) : Prop :=
  ∀ offset < bound, ∀ len, r.readAt offset len = .ok (D.slice offset len)

theorem bytesReader_reads (D : Bytes) (bound : Nat) : Reads (bytesReader D) D bound :=
  fun offset _ len => bytesReader_readAt D offset len

theorem fileReader_reads (image : Image) :
    Reads (fileReader image) image.bytes FILE_OFFSET_LIMIT :=
  fun _ h len => fileReader_readAt image len h

/-- The reader serves, below `bound`, the `extent` bytes of `D` that start at `start`. -/
def Shows (r : Reader) (D : Bytes) (bound start extent : Nat) : Prop :=
  ∀ offset < bound, ∀ len,
    r.readAt offset len = .ok (D.slice (start + offset) (min len (extent - offset)))

theorem Reads.shows {r : Reader} {D : Bytes} {bound : Nat} (h : Reads r D bound) :
    Shows r D bound 0 D.length := by
  intro offset hoffset len
  rw [h offset hoffset len, Nat.zero_add]
  by_cases hin : offset ≤ D.length
  · rw [List.slice_min_length]
  · rw [List.slice_eq_nil len (by omega), List.slice_eq_nil _ (by omega)]

/-- One slice moves the start and cuts the extent. Nothing is asked of the parent at an
offset past the window, so the new reader has no bound of its own. -/
theorem Shows.slice {r : Reader} {D : Bytes} {bound start extent : Nat}
    (h : Shows r D bound start extent) (hbound : bound ≤ 2 ^ 64) {offset length : Nat}
    (hfits : offset + length ≤ bound) (bound' : Nat) :
    Shows (sliceReader r offset length) D bound' (start + offset)
      (min length (extent - offset)) := by
  intro off _ len
  by_cases hend : length ≤ off
  · have hempty : min len (min length (extent - offset) - off) = 0 := by omega
    rw [hempty]
    show (if length ≤ off then Except.ok [] else _) = _
    rw [if_pos hend, List.slice, List.take_zero]
  · have hwrap : (offset + off) % 2 ^ 64 = offset + off := Nat.mod_eq_of_lt (by omega)
    have hlen : min (min len (length - off)) (extent - (offset + off))
        = min len (min length (extent - offset) - off) := by omega
    calc (sliceReader r offset length).readAt off len
        = r.readAt ((offset + off) % 2 ^ 64) (min len (length - off)) := if_neg hend
      _ = .ok (D.slice (start + (offset + off))
            (min (min len (length - off)) (extent - (offset + off)))) := by
          rw [hwrap, h _ (by omega)]
      _ = .ok (D.slice (start + offset + off)
            (min len (min length (extent - offset) - off))) := by
          rw [hlen, Nat.add_assoc]

/-- A stack of slices: induction on the stack, the reader below it being arbitrary. -/
theorem Shows.stack {D : Bytes} {bound : Nat} (hbound : bound ≤ 2 ^ 64) :
    ∀ {ws : List Window} {r : Reader} {start extent : Nat},
      (∀ w ∈ ws, w.offset + w.length ≤ bound) → Shows r D bound start extent →
      Shows (sliceStack r ws) D bound (start + stackStart ws) (stackExtent extent ws)
  | [], r, start, extent, _, h => h
  | w :: inner, r, start, extent, hfits, h => by
      have hw := h.slice hbound (hfits w List.mem_cons_self) bound
      have hinner := Shows.stack hbound (fun v hv => hfits v (List.mem_cons_of_mem w hv)) hw
      have hstart : start + stackStart (w :: inner) = start + w.offset + stackStart inner := by
        rw [stackStart, List.map_cons, List.sum_cons, stackStart, Nat.add_assoc]
      rw [hstart]
      exact hinner

/-- The extent of a stack is what all its windows and the parent have in common. -/
theorem lt_stackExtent_iff (ws : List Window) (base size p : Nat) :
    p < stackExtent size ws ↔
      InWindows base ws (base + stackStart ws + p) ∧ stackStart ws + p < size := by
  induction ws generalizing base size with
  | nil => simp [stackExtent, InWindows, stackStart]
  | cons w inner ih =>
      have hstart : stackStart (w :: inner) = w.offset + stackStart inner := by
        rw [stackStart, List.map_cons, List.sum_cons, stackStart]
      have hsame : base + stackStart (w :: inner) + p
          = base + w.offset + stackStart inner + p := by omega
      have hmin : stackStart inner + p < min w.length (size - w.offset) ↔
          (base + w.offset ≤ base + w.offset + stackStart inner + p ∧
            base + w.offset + stackStart inner + p < base + w.offset + w.length) ∧
          stackStart (w :: inner) + p < size := by omega
      calc p < stackExtent size (w :: inner)
          ↔ InWindows (base + w.offset) inner (base + w.offset + stackStart inner + p) ∧
              stackStart inner + p < min w.length (size - w.offset) := ih _ _
        _ ↔ InWindows base (w :: inner) (base + stackStart (w :: inner) + p) ∧
              stackStart (w :: inner) + p < size := by
            rw [hmin, hsame, InWindows]
            tauto

/-- What a reader shows through a stack of slices, on every parent that serves `D` below
`bound`. -/
theorem Reads.through_stack {parent : Reader} {D : Bytes} {bound : Nat}
    (hparent : Reads parent D bound) (hbound : bound ≤ 2 ^ 64) {ws : List Window}
    (hfits : ∀ w ∈ ws, w.offset + w.length ≤ bound) {offset : Nat} (hoffset : offset < bound)
    (len : Nat) :
    (sliceStack parent ws).readAt offset len
      = .ok (D.slice (stackStart ws + offset) (min len (stackExtent D.length ws - offset))) := by
  have hshows := hparent.shows.stack hbound hfits offset hoffset len
  rwa [Nat.zero_add] at hshows

/-- The bytes of such a read, one by one. -/
theorem getElem?_through_stack (D : Bytes) (ws : List Window) (offset len i : Nat)
    [Decidable (InWindows 0 ws (stackStart ws + offset + i))] :
    (D.slice (stackStart ws + offset) (min len (stackExtent D.length ws - offset)))[i]?
      = if i < len ∧ InWindows 0 ws (stackStart ws + offset + i)
        then D[stackStart ws + offset + i]? else none := by
  have hiff := lt_stackExtent_iff ws 0 D.length (offset + i)
  rw [Nat.zero_add, ← Nat.add_assoc] at hiff
  rw [List.getElem?_slice]
  by_cases hin : stackStart ws + offset + i < D.length
  · have hcond : i < min len (stackExtent D.length ws - offset) ↔
        i < len ∧ InWindows 0 ws (stackStart ws + offset + i) := by
      rw [lt_min_iff, Nat.lt_sub_iff_add_lt', hiff]
      tauto
    simp only [hcond]
  · have hnone : D[stackStart ws + offset + i]? = none := List.getElem?_eq_none (by omega)
    rw [hnone, ite_self, ite_self]

open Classical in
/-- **Nested slices compose**: through any stack of slices a read returns the bytes of `D`
that lie in every window, from the sum of the offsets on; it is empty exactly at or past the
end of what the innermost window holds, and inside it is the direct read. -/
theorem slices_compose {parent : Reader} {D : Bytes} (hparent : Reads parent D (2 ^ 64))
    (ws : List Window) {offset : Nat} (hoffset : offset < 2 ^ 64) (len : Nat) :
    ∃ bs, (sliceStack parent ws).readAt offset len = .ok bs ∧
      (∀ i, bs[i]? = if i < len ∧ InWindows 0 ws (stackStart ws + offset + i)
        then D[stackStart ws + offset + i]? else none) ∧
      (bs = [] ↔ len = 0 ∨ stackExtent D.length ws ≤ offset) ∧
      (∀ p, p < stackExtent D.length ws ↔
        InWindows 0 ws (stackStart ws + p) ∧ stackStart ws + p < D.length) ∧
      (offset + len ≤ stackExtent D.length ws → bs = D.slice (stackStart ws + offset) len) := by
  have hfits : ∀ w ∈ ws, w.offset + w.length ≤ 2 ^ 64 := fun w _ => w.bounded.le
  have hread := hparent.through_stack (le_refl _) hfits hoffset len
  have hextent : ∀ p, p < stackExtent D.length ws ↔
      InWindows 0 ws (stackStart ws + p) ∧ stackStart ws + p < D.length := by
    intro p
    have hiff := lt_stackExtent_iff ws 0 D.length p
    rwa [Nat.zero_add] at hiff
  refine ⟨_, hread, fun i => getElem?_through_stack D ws offset len i, ?_, hextent, ?_⟩
  · -- a nonempty remainder lies inside `D`
    have hsize : offset < stackExtent D.length ws → stackStart ws + offset < D.length :=
      fun h => ((hextent offset).mp h).2
    rw [← List.length_eq_zero_iff, List.length_slice]
    omega
  · intro hfits
    have hlen : min len (stackExtent D.length ws - offset) = len := by omega
    rw [hlen]

/-- A partition of a partition whose table promises more than the disk holds. -/
theorem slices_compose_two :
    ∃ bs, (sliceStack (bytesReader [10, 11, 12, 13, 14])
        [⟨1, 100, by omega⟩, ⟨2, 50, by omega⟩]).readAt 1 8 = .ok bs ∧
      bs[0]? = some 14 ∧ bs[1]? = none := by
  obtain ⟨bs, hread, hbytes, -⟩ := slices_compose (bytesReader_reads [10, 11, 12, 13, 14] (2 ^ 64))
    [⟨1, 100, by omega⟩, ⟨2, 50, by omega⟩] (show 1 < 2 ^ 64 by omega) 8
  refine ⟨bs, hread, ?_, ?_⟩
  · simp [hbytes, InWindows, stackStart]
  · rw [hbytes]
    exact ite_self none

/-- The same over an image file, whose offsets are below `i64::MAX`. -/
theorem slices_of_file (image : Image) {ws : List Window}
    (hfits : ∀ w ∈ ws, w.offset + w.length ≤ FILE_OFFSET_LIMIT) {offset : Nat}
    (hoffset : offset < FILE_OFFSET_LIMIT) (len : Nat) :
    (sliceStack (fileReader image) ws).readAt offset len
      = (sliceStack (bytesReader image.bytes) ws).readAt offset len := by
  have hbound : FILE_OFFSET_LIMIT ≤ 2 ^ 64 := by
    unfold FILE_OFFSET_LIMIT
    omega
  calc (sliceStack (fileReader image) ws).readAt offset len
      = .ok (image.bytes.slice (stackStart ws + offset)
          (min len (stackExtent image.bytes.length ws - offset))) :=
        (fileReader_reads image).through_stack hbound hfits hoffset len
    _ = (sliceStack (bytesReader image.bytes) ws).readAt offset len :=
        ((bytesReader_reads image.bytes FILE_OFFSET_LIMIT).through_stack hbound hfits hoffset
          len).symm

end Mountin
