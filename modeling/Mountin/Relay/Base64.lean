import Mountin.Basic.Bytes

set_option autoImplicit false

/-! # The encoding of the relay

`encode64` and `decode64` of `stream64.c`: three bytes as four digits, the last digits of a text
replaced by `=` where bytes are missing.

* `decode64_encode64` : what was encoded is decoded.
* `length_written_le` : `decode64` writes three bytes for four at most, also where it refuses.
-/

namespace Mountin.Stream64

/-- `'='`. -/
def PAD : UInt8 := 0x3d

/-- `alphabet`. -/
def alphabet : Bytes :=
  ("ABCDEFGHIJKLMNOPQRSTUVWXYZabcdefghijklmnopqrstuvwxyz0123456789+/".toList).map fun c =>
    UInt8.ofNat c.toNat

/-- `alphabet[value & 63]`. -/
def digit (value : Nat) : UInt8 := alphabet.getD (value % 64) 0

/-- `encode64`; the shifts of `value` are quotients. -/
def encode64 : Bytes → Bytes
  | [] => []
  | [x] =>
      let value := x.toNat * 2 ^ 16
      [digit (value / 2 ^ 18), digit (value / 2 ^ 12), PAD, PAD]
  | [x, y] =>
      let value := x.toNat * 2 ^ 16 + y.toNat * 2 ^ 8
      [digit (value / 2 ^ 18), digit (value / 2 ^ 12), digit (value / 2 ^ 6), PAD]
  | x :: y :: z :: rest =>
      let value := x.toNat * 2 ^ 16 + y.toNat * 2 ^ 8 + z.toNat
      [digit (value / 2 ^ 18), digit (value / 2 ^ 12), digit (value / 2 ^ 6), digit value] ++
        encode64 rest

/-- `base64_value`; `none` is -1. -/
def base64Value (byte : UInt8) : Option Nat :=
  let b := byte.toNat
  if 65 ≤ b ∧ b ≤ 90 then some (b - 65)
  else if 97 ≤ b ∧ b ≤ 122 then some (b - 97 + 26)
  else if 48 ≤ b ∧ b ≤ 57 then some (b - 48 + 52)
  else if b = 43 then some 62
  else if b = 47 then some 63
  else none

/-- The value of the third or fourth digit of a group. -/
def padValue (byte : UInt8) : Option Nat := if byte = PAD then some 0 else base64Value byte

/-- What `decode64` has written to its output when it returns, and whether it returns 0. -/
structure Decoded where
  written : Bytes
  ok : Bool
deriving DecidableEq

/-- The bytes of a group of four digits; `none` where the loop returns -1. `final` tells whether the
group is the last one. -/
def decodeGroup (i j k l : UInt8) (final : Bool) : Option Bytes := do
  let a ← base64Value i
  let b ← base64Value j
  let c ← padValue k
  let d ← padValue l
  if (k = PAD ∧ l ≠ PAD) ∨ (k = PAD ∧ final = false) ∨ (l = PAD ∧ final = false) then none
  else
    let value := a * 2 ^ 18 + b * 2 ^ 12 + c * 2 ^ 6 + d
    some ([UInt8.ofNat (value / 2 ^ 16)] ++ (if k ≠ PAD then [UInt8.ofNat (value / 2 ^ 8)] else []) ++
      if l ≠ PAD then [UInt8.ofNat value] else [])

/-- The loop of `decode64`. -/
def decodeLoop : Bytes → Decoded
  | i :: j :: k :: l :: rest =>
      match decodeGroup i j k l rest.isEmpty with
      | none => ⟨[], false⟩
      | some group => ⟨group ++ (decodeLoop rest).written, (decodeLoop rest).ok⟩
  | _ => ⟨[], true⟩

/-- `decode64`. -/
def decode64 (input : Bytes) : Decoded :=
  if input.length = 0 ∨ input.length % 4 ≠ 0 then ⟨[], false⟩ else decodeLoop input

/-! ## What is written -/

theorem length_decodeGroup {i j k l : UInt8} {final : Bool} {group : Bytes}
    (h : decodeGroup i j k l final = some group) : group.length ≤ 3 := by
  simp only [decodeGroup, Option.bind_eq_bind, Option.bind_eq_some_iff] at h
  obtain ⟨a, -, b, -, c, -, d, -, h⟩ := h
  split at h
  · cases h
  · rw [← Option.some.inj h, List.length_append, List.length_append]
    split <;> split <;> simp

theorem length_decodeLoop (input : Bytes) :
    (decodeLoop input).written.length ≤ input.length / 4 * 3 := by
  fun_induction decodeLoop input with
  | case1 i j k l rest hgroup => exact Nat.zero_le _
  | case2 i j k l rest group hgroup ih =>
      have hthree := length_decodeGroup hgroup
      simp only [List.length_append, List.length_cons]
      omega
  | case3 => exact Nat.zero_le _

/-- **`decode64` writes three bytes for four at most**, whatever its input is and whatever it
returns. -/
theorem length_written_le (input : Bytes) :
    (decode64 input).written.length ≤ input.length / 4 * 3 := by
  unfold decode64
  split
  · exact Nat.zero_le _
  · exact length_decodeLoop input

/-! ## What was encoded -/

/-- The characters of the alphabet stand for their positions, and are neither padding nor the end
of a line or a string. -/
theorem alphabet_spec : ∀ v < 64, base64Value (alphabet.getD v 0) = some v ∧
    alphabet.getD v 0 ≠ PAD ∧ alphabet.getD v 0 ≠ 0x0a ∧ alphabet.getD v 0 ≠ 0x0d ∧
    alphabet.getD v 0 ≠ 0 := by
  -- over the list itself, which is then computed once
  have hall : alphabet.length = 64 ∧ ∀ e ∈ alphabet.zipIdx, base64Value e.1 = some e.2 ∧
      e.1 ≠ PAD ∧ e.1 ≠ 0x0a ∧ e.1 ≠ 0x0d ∧ e.1 ≠ 0 := by decide +kernel
  intro v hv
  have hlt : v < alphabet.length := hall.1 ▸ hv
  rw [List.getD_eq_getElem?_getD, List.getElem?_eq_getElem hlt, Option.getD_some]
  exact hall.2 (alphabet[v], v) (List.mk_mem_zipIdx_iff_getElem?.mpr (List.getElem?_eq_getElem hlt))

theorem base64Value_digit (value : Nat) : base64Value (digit value) = some (value % 64) :=
  (alphabet_spec _ (Nat.mod_lt _ (by decide))).1

theorem digit_ne_pad (value : Nat) : digit value ≠ PAD :=
  (alphabet_spec _ (Nat.mod_lt _ (by decide))).2.1

theorem padValue_digit (value : Nat) : padValue (digit value) = some (value % 64) := by
  rw [padValue, if_neg (digit_ne_pad value), base64Value_digit]

theorem encode64_ne_nil {input : Bytes} (h : input ≠ []) : encode64 input ≠ [] := by
  fun_cases encode64 input <;> simp_all

theorem length_encode64 (input : Bytes) : (encode64 input).length = (input.length + 2) / 3 * 4 := by
  fun_induction encode64 input with
  | case1 => rfl
  | case2 => simp
  | case3 => simp
  | case4 x y z rest value ih =>
      simp only [List.length_append, List.length_cons, List.length_nil, ih]
      omega

/-- The group of three bytes. -/
theorem decodeGroup_three (x y z : UInt8) (final : Bool) :
    let value := x.toNat * 2 ^ 16 + y.toNat * 2 ^ 8 + z.toNat
    decodeGroup (digit (value / 2 ^ 18)) (digit (value / 2 ^ 12)) (digit (value / 2 ^ 6))
      (digit value) final = some [x, y, z] := by
  intro value
  have hx := x.toNat_lt
  have hy := y.toNat_lt
  have hz := z.toNat_lt
  have hvalue : value / 2 ^ 18 % 64 * 2 ^ 18 + value / 2 ^ 12 % 64 * 2 ^ 12 +
      value / 2 ^ 6 % 64 * 2 ^ 6 + value % 64 = value := by omega
  simp only [decodeGroup, base64Value_digit, padValue_digit, Option.bind_eq_bind, Option.bind_some,
    digit_ne_pad, false_and, or_self, if_false, ne_eq, not_false_eq_true, if_true, hvalue]
  have hhigh : UInt8.ofNat (value / 2 ^ 16) = x := by
    apply UInt8.toNat_inj.mp
    rw [UInt8.toNat_ofNat']
    omega
  have hmid : UInt8.ofNat (value / 2 ^ 8) = y := by
    apply UInt8.toNat_inj.mp
    rw [UInt8.toNat_ofNat']
    omega
  have hlow : UInt8.ofNat value = z := by
    apply UInt8.toNat_inj.mp
    rw [UInt8.toNat_ofNat']
    omega
  rw [hhigh, hmid, hlow]
  rfl

/-- The group of two bytes, which is the last one. -/
theorem decodeGroup_two (x y : UInt8) :
    let value := x.toNat * 2 ^ 16 + y.toNat * 2 ^ 8
    decodeGroup (digit (value / 2 ^ 18)) (digit (value / 2 ^ 12)) (digit (value / 2 ^ 6)) PAD true =
      some [x, y] := by
  intro value
  have hx := x.toNat_lt
  have hy := y.toNat_lt
  have hvalue : value / 2 ^ 18 % 64 * 2 ^ 18 + value / 2 ^ 12 % 64 * 2 ^ 12 +
      value / 2 ^ 6 % 64 * 2 ^ 6 + 0 = value := by omega
  have hpad : padValue PAD = some 0 := rfl
  simp only [decodeGroup, base64Value_digit, padValue_digit, hpad, Option.bind_eq_bind,
    Option.bind_some, digit_ne_pad, and_false, or_self, if_false, ne_eq,
    not_false_eq_true, if_true, hvalue, not_true_eq_false, Bool.true_eq_false]
  have hhigh : UInt8.ofNat (value / 2 ^ 16) = x := by
    apply UInt8.toNat_inj.mp
    rw [UInt8.toNat_ofNat']
    omega
  have hmid : UInt8.ofNat (value / 2 ^ 8) = y := by
    apply UInt8.toNat_inj.mp
    rw [UInt8.toNat_ofNat']
    omega
  rw [hhigh, hmid]
  rfl

/-- The group of one byte, which is the last one. -/
theorem decodeGroup_one (x : UInt8) :
    let value := x.toNat * 2 ^ 16
    decodeGroup (digit (value / 2 ^ 18)) (digit (value / 2 ^ 12)) PAD PAD true = some [x] := by
  intro value
  have hx := x.toNat_lt
  have hvalue : value / 2 ^ 18 % 64 * 2 ^ 18 + value / 2 ^ 12 % 64 * 2 ^ 12 + 0 * 2 ^ 6 + 0 =
      value := by omega
  have hpad : padValue PAD = some 0 := rfl
  simp only [decodeGroup, base64Value_digit, hpad, Option.bind_eq_bind, Option.bind_some, and_false,
    or_self, if_false, ne_eq, hvalue, not_true_eq_false, Bool.true_eq_false]
  have hhigh : UInt8.ofNat (value / 2 ^ 16) = x := by
    apply UInt8.toNat_inj.mp
    rw [UInt8.toNat_ofNat']
    omega
  rw [hhigh]
  rfl

theorem decodeLoop_nil : decodeLoop [] = ⟨[], true⟩ := rfl

/-- One turn of the loop, on a group that is decoded. -/
theorem decodeLoop_group {a b c d : UInt8} {rest bytes : Bytes}
    (h : decodeGroup a b c d rest.isEmpty = some bytes) :
    decodeLoop (a :: b :: c :: d :: rest) =
      ⟨bytes ++ (decodeLoop rest).written, (decodeLoop rest).ok⟩ := by
  rw [decodeLoop, h]

theorem decodeLoop_encode64 (input : Bytes) : decodeLoop (encode64 input) = ⟨input, true⟩ := by
  fun_induction encode64 input with
  | case1 => exact decodeLoop_nil
  | case2 x value =>
      have hgroup : decodeGroup (digit (value / 2 ^ 18)) (digit (value / 2 ^ 12)) PAD PAD
          (List.isEmpty ([] : Bytes)) = some [x] := decodeGroup_one x
      rw [decodeLoop_group hgroup, decodeLoop_nil, List.append_nil]
  | case3 x y value =>
      have hgroup : decodeGroup (digit (value / 2 ^ 18)) (digit (value / 2 ^ 12))
          (digit (value / 2 ^ 6)) PAD (List.isEmpty ([] : Bytes)) = some [x, y] := decodeGroup_two x y
      rw [decodeLoop_group hgroup, decodeLoop_nil, List.append_nil]
  | case4 x y z rest value ih =>
      have hgroup : decodeGroup (digit (value / 2 ^ 18)) (digit (value / 2 ^ 12))
          (digit (value / 2 ^ 6)) (digit value) (encode64 rest).isEmpty = some [x, y, z] :=
        decodeGroup_three x y z _
      rw [List.cons_append, List.cons_append, List.cons_append, List.cons_append, List.nil_append,
        decodeLoop_group hgroup, ih]
      rfl

/-- **What was encoded is decoded.** -/
theorem decode64_encode64 {input : Bytes} (h : input ≠ []) :
    decode64 (encode64 input) = ⟨input, true⟩ := by
  have hlength := length_encode64 input
  have hpos : 0 < (encode64 input).length := List.length_pos_of_ne_nil (encode64_ne_nil h)
  rw [decode64, if_neg (by omega), decodeLoop_encode64]

/-- The digits of a text. -/
theorem mem_encode64 {input : Bytes} {byte : UInt8} (h : byte ∈ encode64 input) :
    byte = PAD ∨ ∃ value, byte = digit value := by
  fun_induction encode64 input with
  | case1 => cases h
  | case2 x value =>
      simp only [List.mem_cons, List.not_mem_nil, or_false] at h
      rcases h with h | h | h | h <;> first | exact .inl h | exact .inr ⟨_, h⟩
  | case3 x y value =>
      simp only [List.mem_cons, List.not_mem_nil, or_false] at h
      rcases h with h | h | h | h <;> first | exact .inl h | exact .inr ⟨_, h⟩
  | case4 x y z rest value ih =>
      rcases List.mem_append.mp h with h | h
      · simp only [List.mem_cons, List.not_mem_nil, or_false] at h
        rcases h with h | h | h | h <;> exact .inr ⟨_, h⟩
      · exact ih h

/-- No byte of a text ends a line or a string. -/
theorem visible_of_mem_encode64 {input : Bytes} {byte : UInt8} (h : byte ∈ encode64 input) :
    byte ≠ 0x0a ∧ byte ≠ 0x0d ∧ byte ≠ 0 := by
  rcases mem_encode64 h with rfl | ⟨value, rfl⟩
  · decide
  · exact (alphabet_spec _ (Nat.mod_lt _ (by decide))).2.2

end Mountin.Stream64
