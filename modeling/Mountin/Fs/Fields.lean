import Mountin.Basic.Splice
import Mountin.Detect.Rule

set_option autoImplicit false

/-! # Fields of a volume

What the scripts that make and read back small volumes have in common: names in fields of a
fixed width, two-byte numbers, and windows of an image whose bytes are known.
-/

namespace Mountin.Volume

/-- A name as it is given. -/
abbrev Name := List Char

/-- `str.ljust`. -/
def ljust (s : Name) (width : Nat) : Name := s ++ List.replicate (width - s.length) ' '

/-- `str.encode("ascii")`. -/
def encodeAscii (s : Name) : Option Bytes :=
  if s.all (fun c => c.toNat < 128) then some (s.map fun c => UInt8.ofNat c.toNat) else none

/-- `struct.pack_into`, which raises behind the end of the buffer. -/
def packInto (image : Bytes) (off : Nat) (b : Bytes) : Option Bytes :=
  if off + b.length ≤ image.length then some (image.splice off b) else none

/-- A number in two bytes. -/
def word (n : Nat) : Bytes := [UInt8.ofNat (n % 256), UInt8.ofNat (n / 256 % 256)]

/-- `bytes.decode("ascii")`. -/
def decodeAscii (b : Bytes) : Option Name :=
  if b.all (fun x => x < 128) then some (b.map fun x => Char.ofNat x.toNat) else none

/-- `str.isspace` on ASCII. -/
def isBlank (c : Char) : Bool :=
  (9 ≤ c.toNat && c.toNat ≤ 13) || (28 ≤ c.toNat && c.toNat ≤ 32)

/-- `str.rstrip`. -/
def rstrip (s : Name) : Name := (s.reverse.dropWhile isBlank).reverse

/-- `s.rsplit(".", 1)` of a name with a dot, else the name and nothing. -/
def splitExt (base : Name) : Name × Name :=
  if '.' ∈ base then
    (((base.reverse.dropWhile (· != '.')).drop 1).reverse,
      (base.reverse.takeWhile (· != '.')).reverse)
  else (base, [])

/-! ## Names and numbers -/

theorem length_word (n : Nat) : (word n).length = 2 := rfl

/-- A name in its field: padded or cut to the width, without the blanks at its end. -/
def fieldName (width : Nat) (s : Name) : Name := rstrip ((ljust s width).take width)

theorem char_lt {c : Char} (h : c.toNat < 128) :
    UInt8.ofNat c.toNat < 128 ∧ Char.ofNat (UInt8.ofNat c.toNat).toNat = c := by
  have hvalue : (UInt8.ofNat c.toNat).toNat = c.toNat := by
    rw [UInt8.toNat_ofNat']
    omega
  refine ⟨?_, ?_⟩
  · rw [UInt8.lt_iff_toNat_lt, hvalue]
    exact h
  · rw [hvalue]
    exact Char.ofNat_toNat c

/-- An encoded name is decoded. -/
theorem decode_encode {s : Name} {b : Bytes} (h : encodeAscii s = some b) (width : Nat) :
    b.length = s.length ∧ decodeAscii (b.take width) = some (s.take width) := by
  unfold encodeAscii at h
  split_ifs at h with hascii
  obtain rfl := Option.some.inj h
  rw [List.all_eq_true] at hascii
  have hsmall : ∀ c ∈ s.take width, c.toNat < 128 := fun c hc =>
    of_decide_eq_true (hascii c (List.mem_of_mem_take hc))
  refine ⟨List.length_map _, ?_⟩
  rw [← List.map_take, decodeAscii, if_pos]
  · rw [List.map_map]
    refine congrArg some ((List.map_congr_left fun c hc => ?_).trans (List.map_id _))
    exact (char_lt (hsmall c hc)).2
  · rw [List.all_map, List.all_eq_true]
    exact fun c hc => decide_eq_true (char_lt (hsmall c hc)).1

/-- A name that fits and has no blanks is what its field says. -/
theorem fieldName_of_fits {width : Nat} {s : Name} (hlen : s.length ≤ width)
    (hspace : ∀ c ∈ s, isBlank c = false) : fieldName width s = s := by
  have hpadded : (ljust s width).take width = ljust s width := by
    apply List.take_of_length_le
    rw [ljust, List.length_append, List.length_replicate]
    omega
  have hblanks : ∀ c ∈ List.replicate (width - s.length) ' ', isBlank c = true := by
    intro c hc
    rw [List.eq_of_mem_replicate hc]
    rfl
  rw [fieldName, hpadded, rstrip, ljust, List.reverse_append, List.reverse_replicate,
    List.dropWhile_append_of_pos hblanks]
  cases hrev : s.reverse with
  | nil => rw [List.reverse_eq_nil_iff.mp hrev]; rfl
  | cons c rest =>
      have hc : c ∈ s := by
        rw [← List.mem_reverse, hrev]
        exact List.mem_cons_self
      rw [List.dropWhile_cons_of_neg (by rw [hspace c hc]; exact Bool.false_ne_true), ← hrev,
        List.reverse_reverse]

theorem encodeAscii_isSome {s : Name} :
    (encodeAscii s).isSome = true ↔ ∀ c ∈ s, c.toNat < 128 := by
  unfold encodeAscii
  split_ifs with h
  · simpa using h
  · simpa using h

theorem isAlphanum_bounds {c : Char} (h : c.isAlphanum = true) : 48 ≤ c.toNat ∧ c.toNat ≤ 122 := by
  have hclasses : ((decide (c.val ≥ 'A'.val ∧ c.val ≤ 'Z'.val) || (c.val ≥ 'a'.val && c.val ≤ 'z'.val)) ||
      (c.val ≥ '0'.val && c.val ≤ '9'.val)) = true := h
  simp only [Bool.or_eq_true, Bool.and_eq_true, decide_eq_true_eq, ge_iff_le,
    UInt32.le_iff_toNat_le] at hclasses
  have htoNat : c.toNat = c.val.toNat := rfl
  rw [htoNat]
  rcases hclasses with (⟨h1, h2⟩ | ⟨h1, h2⟩) | ⟨h1, h2⟩
  · exact ⟨Nat.le_trans (by decide : 48 ≤ 65) h1, Nat.le_trans h2 (by decide : 90 ≤ 122)⟩
  · exact ⟨Nat.le_trans (by decide : 48 ≤ 97) h1, h2⟩
  · exact ⟨h1, Nat.le_trans h2 (by decide : 57 ≤ 122)⟩

/-- Letters and digits are not blanks. -/
theorem isBlank_of_alnum {s : Name} (h : ∀ c ∈ s, c.toNat < 128 → c.isAlphanum = true) :
    ∀ c ∈ s, isBlank c = false := by
  intro c hc
  unfold isBlank
  by_cases hlt : c.toNat < 128
  · obtain ⟨hlo, -⟩ := isAlphanum_bounds (h c hc hlt)
    simp
    omega
  · simp
    omega

theorem ljust_ascii {s : Name} {width : Nat} :
    (∀ c ∈ ljust s width, c.toNat < 128) ↔ ∀ c ∈ s, c.toNat < 128 := by
  refine ⟨fun h c hc => h c (List.mem_append_left _ hc), fun h c hc => ?_⟩
  rcases List.mem_append.mp hc with hs | hpad
  · exact h c hs
  · rw [List.eq_of_mem_replicate hpad]
    decide

theorem length_ljust (s : Name) (width : Nat) : width ≤ (ljust s width).length := by
  rw [ljust, List.length_append, List.length_replicate]
  omega

/-! ## Windows -/

theorem getElem?_of_slice {raw : Bytes} {off : Nat} {b : UInt8} (h : raw.slice off 1 = [b]) :
    raw[off]? = some b := by
  have hfirst := congrArg (fun l : Bytes => l[0]?) h
  simpa [List.getElem?_slice] using hfirst

theorem getElem?_of_window {raw b : Bytes} {off n : Nat} (h : raw.slice off n = b) {i : Nat}
    (hi : i < n) : raw[off + i]? = b[i]? := by
  rw [← h, List.getElem?_slice, if_pos hi]

theorem slice_of_window {raw b : Bytes} {off n : Nat} (h : raw.slice off n = b) {k w : Nat}
    (hk : k + w ≤ n) : raw.slice (off + k) w = b.slice k w := by
  rw [← h, List.slice_slice, Nat.min_eq_left (by omega)]

theorem byteAt_of_window {raw b : Bytes} {off n : Nat} (h : raw.slice off n = b) {i : Nat}
    (hi : i < n) : byteAt raw (off + i) = byteAt b i := by
  rw [byteAt, byteAt, List.getD_eq_getElem?_getD, List.getD_eq_getElem?_getD,
    getElem?_of_window h hi]

theorem packInto_eq_some {image b image' : Bytes} {off : Nat} :
    packInto image off b = some image' ↔
      off + b.length ≤ image.length ∧ image.splice off b = image' := by
  unfold packInto
  split_ifs with h <;> simp [h]

/-! ## Slots -/

/-- A directory that is read slot by slot: what its first slots hold, where behind them there is an
end or no slot. -/
theorem readSlots_of_steps {α : Type} {read : Nat → Nat → Option (List α)} {Holds : Nat → α → Prop}
    {End : Nat → Prop} (hzero : ∀ slot, read 0 slot = some [])
    (hend : ∀ left slot, End slot → read (left + 1) slot = some [])
    (hstep : ∀ left slot a rest, Holds slot a → read left (slot + 1) = some rest →
      read (left + 1) slot = some (a :: rest)) {left slot : Nat} {files : List α}
    (hleft : files.length ≤ left) (hfiles : ∀ k f, files[k]? = some f → Holds (slot + k) f)
    (hbehind : files.length < left → End (slot + files.length)) : read left slot = some files := by
  induction files generalizing left slot with
  | nil =>
      cases left with
      | zero => exact hzero slot
      | succ left => exact hend left slot (hbehind (Nat.succ_pos left))
  | cons f files ih =>
      rw [List.length_cons] at hleft hbehind
      obtain ⟨left, rfl⟩ : ∃ n, left = n + 1 := ⟨left - 1, by omega⟩
      refine hstep left slot f files (hfiles 0 f rfl) (ih (by omega) (fun k g hg => ?_) fun hlt => ?_)
      · have hnext := hfiles (k + 1) g hg
        rwa [show slot + (k + 1) = slot + 1 + k by omega] at hnext
      · have hnext := hbehind (by omega)
        rwa [show slot + (files.length + 1) = slot + 1 + files.length by omega] at hnext

theorem mem_flatten_of_getElem? {chains : List (List Nat)} {k s : Nat} {chain : List Nat}
    (h : chains[k]? = some chain) (hs : s ∈ chain) : s ∈ chains.flatten :=
  List.mem_flatten.mpr ⟨chain, List.mem_of_getElem? h, hs⟩

theorem mapM_eq_some {α β : Type} {f : α → Option β} {g : α → β} {l : List α}
    (h : ∀ a ∈ l, f a = some (g a)) : l.mapM f = some (l.map g) := by
  induction l with
  | nil => rfl
  | cons a l ih =>
      rw [List.forall_mem_cons] at h
      rw [List.mapM_cons, h.1, ih h.2]
      rfl

/-- The entries of a list by their indices. -/
theorem filterMap_getElem? {α β : Type} (g : α → β) (l : List α) {n : Nat} (h : l.length ≤ n) :
    ((List.range n).map fun k => l[k]?.map g).filterMap id = l.map g := by
  induction l generalizing n with
  | nil => simp
  | cons a l ih =>
      rw [List.length_cons] at h
      obtain ⟨n, rfl⟩ : ∃ m, n = m + 1 := ⟨n - 1, by omega⟩
      rw [List.range_succ_eq_map, List.map_cons, List.map_map]
      simp only [List.getElem?_cons_zero, Option.map_some, List.map_cons]
      rw [List.filterMap_cons_some (show id (some (g a)) = some (g a) from rfl)]
      exact congrArg (g a :: ·) (ih (by omega))

theorem word_or {n : Nat} (h : n < 65536) :
    (UInt8.ofNat (n % 256)).toNat ||| (UInt8.ofNat (n / 256 % 256)).toNat <<< 8 = n := by
  have hlo : (UInt8.ofNat (n % 256)).toNat = n % 256 := by
    rw [UInt8.toNat_ofNat']
    omega
  have hhi : (UInt8.ofNat (n / 256 % 256)).toNat = n / 256 := by
    rw [UInt8.toNat_ofNat']
    omega
  rw [hlo, hhi, Nat.or_comm, ← Nat.shiftLeft_add_eq_or_of_lt (by omega), Nat.shiftLeft_eq]
  omega

end Mountin.Volume
