import Mountin.Detect.Evaluators

set_option autoImplicit false

/-! # Rules behind an xor

An `xor` rule decrypts a region of the image and evaluates its nested rules on the bytes in
memory. `xor_sees_plaintext`: the nested rules see what they would see on an image that
consists of the plaintext alone.
-/

namespace Mountin

/-- Byte `i` of the key repeated, zero for the empty key. -/
def keyStream (key : Bytes) (i : Nat) : UInt8 :=
  if key.isEmpty then 0 else byteAt key (i % key.length)

/-- The image holds the plaintext, xored with the repeated key, from position `pos` on. -/
def StoredXored (image P key : Bytes) (pos : Nat) : Prop :=
  ∀ i (h : i < P.length), image[pos + i]? = some (P[i] ^^^ keyStream key i)

theorem length_xorDecrypt (data key : Bytes) : (xorDecrypt data key).length = data.length := by
  unfold xorDecrypt
  split_ifs
  · rfl
  · rw [List.length_mapIdx]

theorem getElem?_xorDecrypt (data key : Bytes) (i : Nat) :
    (xorDecrypt data key)[i]? = data[i]?.map (fun b => b ^^^ keyStream key i) := by
  unfold xorDecrypt keyStream
  by_cases hkey : key.isEmpty = true
  · have hzero : ∀ b : UInt8, b ^^^ (0 : UInt8) = b := fun b => UInt8.xor_zero
    simp only [hkey, if_true, hzero, Option.map_id']
  · simp only [hkey, if_false, List.getElem?_mapIdx, Bool.false_eq_true]

/-- The stored region has the length of the plaintext. -/
theorem StoredXored.length_slice {image P key : Bytes} {pos : Nat}
    (h : StoredXored image P key pos) : (image.slice pos P.length).length = P.length := by
  rw [List.length_slice]
  by_cases hP : P.length = 0
  · omega
  · have hlast := h (P.length - 1) (by omega)
    have hlt : pos + (P.length - 1) < image.length :=
      (List.getElem?_eq_some_iff.mp hlast).1
    omega

/-- Decryption gives the plaintext back: the key stream cancels byte by byte. -/
theorem StoredXored.decrypt {image P key : Bytes} {pos : Nat}
    (h : StoredXored image P key pos) : xorDecrypt (image.slice pos P.length) key = P := by
  apply List.ext_getElem?
  intro i
  rw [getElem?_xorDecrypt, List.getElem?_slice]
  by_cases hi : i < P.length
  · rw [if_pos hi, h i hi, Option.map_some, UInt8.xor_assoc, UInt8.xor_self, UInt8.xor_zero,
      List.getElem?_eq_getElem hi]
  · rw [if_neg hi, List.getElem?_eq_none (by omega)]
    rfl

theorem StoredXored.readFull {image P key : Bytes} {pos : Nat}
    (h : StoredXored image P key pos) :
    readFull (bytesReader image) pos P.length = some (image.slice pos P.length) := by
  rw [Mountin.readFull, bytesReader_readAt]
  exact if_pos h.length_slice

theorem allDyn_eq_true_iff (regex : RegexMatch) (r : Reader) (rules : List Rule) :
    allDyn regex r rules = true ↔ ∀ s ∈ rules, matchesRuleDyn regex r s = true := by
  induction rules with
  | nil => simp [allDyn]
  | cons s rules ih => rw [allDyn, Bool.and_eq_true, ih, List.forall_mem_cons]

/-- The in-memory evaluator on an `xor` rule runs the nested rules on the plaintext. -/
theorem matchRuleOnBytes_xor (regex : RegexMatch) {image P : Bytes} {f : Leaf} {pos : Nat}
    (thenRules : Option (List Rule)) (htyp : f.typ = .xor)
    (hlen : (f.length.map UInt32.toNat).getD 256 = P.length)
    (hpos : resolveOffset f.offset (some image.length) = some pos)
    (hstored : StoredXored image P (f.key.getD "").toUTF8.toList pos) :
    matchRuleOnBytes regex (.leaf f thenRules) image
      = ((thenOnBytes regex thenRules).map (fun holds => holds P)).getD true := by
  have hchecksum : f.typ ≠ .checksum := by
    rw [htyp]
    decide
  rw [matchRuleOnBytes, bytesReader_size, hpos]
  show matchesLeaf regex (bytesReader image) pos f _ _ = _
  rw [matchesLeaf, if_neg hchecksum, if_pos htyp, hlen, matchXorThen.eq_def]
  cases hthen : thenOnBytes regex thenRules with
  | none => rfl
  | some holds =>
      simp only [hstored.readFull, hstored.decrypt, Option.map_some, Option.getD_some]

/-- **Xor rules see the plaintext**: when an image file stores `P` xored with the repeated key
at the place of an `xor` rule, the rule matches the image exactly when all its nested rules
match the image that is `P` alone. -/
theorem xor_sees_plaintext (regex : RegexMatch) (image P : Image) {f : Leaf} {pos : Nat}
    (thenRules : Option (List Rule)) (htyp : f.typ = .xor)
    (hlen : (f.length.map UInt32.toNat).getD 256 = P.bytes.length)
    (hpos : resolveOffset f.offset (some image.bytes.length) = some pos)
    (hstored : StoredXored image.bytes P.bytes (f.key.getD "").toUTF8.toList pos) :
    matchesRuleDyn regex (fileReader image) (.leaf f thenRules) = true ↔
      ∀ r ∈ thenRules.getD [], matchesRuleDyn regex (fileReader P) r = true := by
  rw [← matchRuleOnBytes_eq_matchesRuleDyn,
    matchRuleOnBytes_xor regex thenRules htyp hlen hpos hstored, thenOnBytes_eq]
  cases thenRules with
  | none => simp [thenDyn]
  | some rules => exact allDyn_eq_true_iff regex (fileReader P) rules

/-- `"IDPV"` behind the key `"!"`, read at the region's own offset zero and from its end. -/
theorem xor_sees_plaintext_region :
    matchesRuleDyn (fun _ _ => none) (fileReader ⟨[9, 0x68, 0x65, 0x71, 0x77], by decide⟩)
      (.leaf { offset := 1, typ := .xor, length := some 4, key := some "!" }
        (some [.leaf { offset := 0, typ := .string, value := some (.bytes [0x49, 0x44]) } none,
          .leaf { offset := -1, typ := .byte, value := some (.uint 0x56) } none])) = true := by
  have hkey : ("!").toUTF8.toList = [0x21] := by decide +kernel
  have hstored : StoredXored [9, 0x68, 0x65, 0x71, 0x77] [0x49, 0x44, 0x50, 0x56]
      ("!").toUTF8.toList 1 := by
    rw [hkey]
    unfold StoredXored
    decide
  apply (xor_sees_plaintext (fun _ _ => none) ⟨[9, 0x68, 0x65, 0x71, 0x77], by decide⟩
    ⟨[0x49, 0x44, 0x50, 0x56], by decide⟩
    (f := { offset := 1, typ := .xor, length := some 4, key := some "!" })
    _ rfl rfl (show resolveOffset 1 (some 5) = some 1 from rfl) hstored).mpr
  simp only [Option.getD_some, List.forall_mem_cons, List.not_mem_nil, false_imp_iff,
    implies_true, and_true]
  decide

end Mountin
