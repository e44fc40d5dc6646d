import Mountin.Detect.Evaluators

set_option autoImplicit false

/-! # Signed rule types

`i8`, `i16`, `i32` and `i64` share their arms of `read_value_generic` with the unsigned types,
so the number that is compared is the unsigned reading of the bytes, and a negative value of
a rule enters as its 64-bit two's complement. `matchesRuleDyn_signed_iff` says on which rules
and images the outcome is still that of the signed numbers.
-/

namespace Mountin

/-- The signed rule types. -/
def RuleType.signed : RuleType → Bool
  | .i8 | .i16 | .i32 | .i64 => true
  | _ => false

/-- The operators that compare by order or equality. -/
def Op.ordering : Op → Bool
  | .eq | .ne | .lt | .gt | .le | .ge => true
  | .and | .xor | .other => false

/-- An operator as a relation of integers. -/
def relates (op : Op) (s v : Int) : Bool :=
  match op with
  | .eq => decide (s = v)
  | .ne => decide (s ≠ v)
  | .lt => decide (s < v)
  | .gt => decide (v < s)
  | .le => decide (s ≤ v)
  | .ge => decide (v ≤ s)
  | .and | .xor | .other => false

/-- The two's-complement value of a number of `width` bytes. -/
def signedNumber (width a : Nat) : Int :=
  if a < 2 ^ (8 * width - 1) then a else (a : Int) - 2 ^ (8 * width)

/-- `Value::Int(i & m as i64)`: the mask of a signed number. -/
def signedMask (s : Int) : Option UInt64 → Int
  | none => s
  | some m => signedNumber 8 (twos s &&& m.toNat)

/-- The signed reading of the bytes under a leaf, masked. -/
def signedReading (f : Leaf) (a : Nat) : Int :=
  signedMask (signedNumber ((f.typ.layout.map Prod.fst).getD 0) a) f.mask

/-- A signed leaf without its nested rules: the number at its position, read as signed, stands
in the relation to the value. -/
def signedLeaf (image : Bytes) (f : Leaf) (v : Int) : Bool :=
  match resolveOffset f.offset (some image.length) with
  | none => false
  | some pos =>
      match docNumber image pos f.typ with
      | none => false
      | some a => relates (f.op.getD .eq) (signedReading f a) v

/-- The unsigned reading `a` and the signed reading `s` lie on different sides of the value,
or the value is negative and the unsigned reading below every negative number. -/
def splits (a : Nat) (s v : Int) : Op → Bool
  | .eq | .ne => if 0 ≤ v then decide (s ≠ a ∧ (v = a ∨ v = s)) else decide (a < 2 ^ 63 ∧ s = v)
  | .lt | .ge =>
      if 0 ≤ v then decide (min (a : Int) s < v ∧ v ≤ max (a : Int) s)
      else decide (a < 2 ^ 63 ∧ v ≤ s)
  | .gt | .le =>
      if 0 ≤ v then decide (min (a : Int) s ≤ v ∧ v < max (a : Int) s)
      else decide (a < 2 ^ 63 ∧ v < s)
  | .and | .xor | .other => false

/-- The leaves whose outcome is not that of the signed number. -/
def missigned (image : Bytes) (f : Leaf) (v : Int) : Bool :=
  match resolveOffset f.offset (some image.length) with
  | none => false
  | some pos =>
      match docNumber image pos f.typ with
      | none => false
      | some a => splits (docMask a f.mask) (signedReading f a) v (f.op.getD .eq)

/-! ## Numbers -/

/-- The comparison of the code against the relation of integers: the value is shifted by
`2 ^ 64` when it is negative, a reading from `2 ^ 63` on is shifted along with it. -/
theorem codeCompare_eq_relates_iff {a : Nat} {s v : Int} (ha : a < 2 ^ 64)
    (hs : 2 ^ 63 ≤ a → s = a - 2 ^ 64) (hv : -2 ^ 63 ≤ v) (hv' : v < 2 ^ 64) {op : Op}
    (hop : op.ordering = true) :
    codeCompare a v op = relates op s v ↔ splits a s v op = false := by
  rw [codeCompare, compareNumbers_ofNat ha (twos_lt v)]
  rcases lt_or_ge v 0 with hneg | hpos
  · have ht : (twos v : Int) = 2 ^ 64 + v := twos_of_neg hneg hv
    have hnot : ¬ 0 ≤ v := by omega
    by_cases hlow : a < 2 ^ 63
    · cases op <;> simp [relates, splits, Op.ordering, hnot, hlow] at hop ⊢ <;> omega
    · have hsv := hs (by omega)
      cases op <;> simp [relates, splits, Op.ordering, hnot, hlow] at hop ⊢ <;> omega
  · have ht : (twos v : Int) = v := twos_of_nonneg hpos hv'
    cases op <;> simp [relates, splits, Op.ordering, hpos] at hop ⊢ <;> omega

theorem docNumber_lt_width {image : Bytes} {pos a : Nat} {typ : RuleType}
    (h : docNumber image pos typ = some a) :
    ∃ width little, typ.layout = some (width, little) ∧ a < 2 ^ (8 * width) := by
  unfold docNumber at h
  cases hlay : typ.layout with
  | none => simp [hlay] at h
  | some wl =>
      obtain ⟨width, little⟩ := wl
      simp only [hlay, Option.bind_some, Option.ite_none_right_eq_some, Option.some.injEq] at h
      obtain ⟨hfit, rfl⟩ := h
      have hlen : (image.slice pos width).length = width := by
        rw [List.length_slice]
        omega
      refine ⟨width, little, rfl, ?_⟩
      calc decodeNumber little (image.slice pos width)
          < 256 ^ (image.slice pos width).length := by
            cases little
            · exact Bytes.be_lt _
            · exact Bytes.le_lt _
        _ = 2 ^ (8 * width) := by
            rw [hlen, pow_mul]
            norm_num

/-- An unsigned reading with the highest of the 64 bits set is that of a negative `i64`. -/
theorem signedReading_of_high {image : Bytes} {pos a : Nat} {f : Leaf}
    (hnum : docNumber image pos f.typ = some a) (hsigned : f.typ.signed = true)
    (hhigh : 2 ^ 63 ≤ docMask a f.mask) :
    signedReading f a = (docMask a f.mask : Nat) - 2 ^ 64 := by
  obtain ⟨width, little, hlay, hlt⟩ := docNumber_lt_width hnum
  have hle : docMask a f.mask ≤ a := by
    cases f.mask with
    | none => exact le_rfl
    | some m => exact Nat.and_le_left
  have hwidth : width = 8 := by
    cases htyp : f.typ <;> simp [htyp, RuleType.signed, RuleType.layout] at hsigned hlay <;>
      (obtain ⟨rfl, -⟩ := hlay; omega)
  subst hwidth
  have hread : signedNumber 8 a = (a : Int) - 2 ^ 64 := by
    rw [signedNumber, if_neg (by omega)]
  have hwrap : twos ((a : Int) - 2 ^ 64) = a := by
    unfold twos
    omega
  rw [signedReading, hlay, Option.map_some, Option.getD_some, hread]
  cases hmask : f.mask with
  | none => rfl
  | some m =>
      have hmasked : docMask a f.mask = a &&& m.toNat := by rw [hmask]; rfl
      rw [hmasked] at hhigh
      show signedNumber 8 (twos ((a : Int) - 2 ^ 64) &&& m.toNat) = (a &&& m.toNat : Nat) - 2 ^ 64
      rw [hwrap, signedNumber, if_neg (by omega)]

/-! ## Leaves -/

/-- What `matches_leaf` computes on a signed leaf. -/
theorem matchesLeaf_signed (regex : RegexMatch) (image : Bytes) (pos : Nat) {f : Leaf} {v : Int}
    (hsigned : f.typ.signed = true) (hv : f.value.bind Value.toInt? = some v)
    (thenHolds : Option Bool) (xorHolds : Option (Bytes → Bool)) :
    matchesLeaf regex (bytesReader image) pos f thenHolds xorHolds =
      ((match docNumber image pos f.typ with
        | none => false
        | some a => codeCompare (docMask a f.mask) v (f.op.getD .eq)) && thenHolds.getD true) := by
  have hc : f.typ ≠ .checksum := by rintro h; rw [h] at hsigned; cases hsigned
  have hx : f.typ ≠ .xor := by rintro h; rw [h] at hsigned; cases hsigned
  have hasc : f.typ ≠ .ascii := by rintro h; rw [h] at hsigned; cases hsigned
  have hstr : f.typ ≠ .string := by rintro h; rw [h] at hsigned; cases hsigned
  rw [Option.bind_eq_some_iff] at hv
  obtain ⟨value, hval, hv⟩ := hv
  simp only [matchesLeaf, hval, hc, hx, hstr, hasc, if_false, readValue_bytesReader]
  cases hnum : docNumber image pos f.typ with
  | none => rfl
  | some a =>
      have huint : ∀ u, numericValue (.uint u) = some u := fun _ => rfl
      simp only [Option.map_some, applyMask_ofNat, compare, numericValue_eq hv, huint, codeCompare]

theorem toInt?_bounds {f : Leaf} {v : Int} (hv : f.value.bind Value.toInt? = some v) :
    -2 ^ 63 ≤ v ∧ v < 2 ^ 64 := by
  rw [Option.bind_eq_some_iff] at hv
  obtain ⟨value, -, hv⟩ := hv
  exact Value.toInt?_bounds hv

/-- **Signed rules**: a rule of a signed type matches an image exactly when the signed number
stands in the relation and the nested rules hold, if and only if the value does not split the
two readings of the bytes (or the nested rules fail). -/
theorem matchesRuleDyn_signed_iff (regex : RegexMatch) (image : Image) {f : Leaf}
    (thenRules : Option (List Rule)) {v : Int} (hsigned : f.typ.signed = true)
    (hop : (f.op.getD .eq).ordering = true) (hv : f.value.bind Value.toInt? = some v) :
    matchesRuleDyn regex (fileReader image) (.leaf f thenRules)
        = (signedLeaf image.bytes f v &&
            (thenDyn regex (fileReader image) thenRules).getD true) ↔
      (missigned image.bytes f v && (thenDyn regex (fileReader image) thenRules).getD true)
        = false := by
  have hthen := thenOnBytes_eq regex image thenRules
  rw [← matchRuleOnBytes_eq_matchesRuleDyn, matchRuleOnBytes, bytesReader_size, hthen]
  unfold signedLeaf missigned
  cases hoff : resolveOffset f.offset (some image.bytes.length) with
  | none => simp
  | some pos =>
      simp only [matchesLeaf_signed regex image.bytes pos hsigned hv]
      cases hnum : docNumber image.bytes pos f.typ with
      | none => simp
      | some a =>
          have hbounds := toInt?_bounds hv
          have hiff := codeCompare_eq_relates_iff (docMask_lt (docNumber_lt hnum) f.mask)
            (signedReading_of_high hnum hsigned) hbounds.1 hbounds.2 hop
          cases (thenDyn regex (fileReader image) thenRules).getD true with
          | false => simp
          | true => simpa using hiff

/-- A stored `-1` and a rule of type `i8` that asks for something below zero. -/
theorem below_zero_missed :
    ¬ ∀ (regex : RegexMatch) (image : Image) (f : Leaf) (thenRules : Option (List Rule)) (v : Int),
      f.typ.signed = true → (f.op.getD .eq).ordering = true →
      f.value.bind Value.toInt? = some v →
      matchesRuleDyn regex (fileReader image) (.leaf f thenRules)
        = (signedLeaf image.bytes f v &&
            (thenDyn regex (fileReader image) thenRules).getD true) := by
  intro h
  have hiff := h (fun _ _ => none) ⟨[0xff], by decide⟩
    { offset := 0, typ := .i8, value := some (.int 0), op := some .lt } none 0 rfl rfl rfl
  revert hiff
  decide

/-- A negative `i64` below a negative value. -/
theorem i64_below_documented :
    matchesRuleDyn (fun _ _ => none)
      (fileReader ⟨[0xfe, 0xff, 0xff, 0xff, 0xff, 0xff, 0xff, 0xff], by decide⟩)
      (.leaf { offset := 0, typ := .i64, value := some (.int (-1)), op := some .lt } none)
      = true := by
  have hiff := matchesRuleDyn_signed_iff (fun _ _ => none)
    ⟨[0xfe, 0xff, 0xff, 0xff, 0xff, 0xff, 0xff, 0xff], by decide⟩
    (f := { offset := 0, typ := .i64, value := some (.int (-1)), op := some .lt }) none (v := -1)
    rfl rfl rfl
  rw [hiff.mpr (by decide)]
  decide

end Mountin
