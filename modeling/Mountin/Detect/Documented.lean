import Mountin.Detect.Matching

set_option autoImplicit false

/-! # The documented meaning of rules

`lib/format/index.md` documents eight data types, seven operators, masks, alternatives and
nested rules. `denote` is that documentation as a function of the image: a negative offset
counts from the end, a value has to lie within the image, numbers are compared as integers.

`matchesLeaf_eq_docLeaf_iff` compares `matches_leaf` with it. A leaf is misread when its offset
is negative and reaches before the start of the image, where `resolve_offset` clamps to the
start instead of failing; when it is an empty string past the end; and when the 64-bit
comparison departs from the integer one: a negative value is compared as its two's complement,
and `^` compares with zero instead of with the value.
-/

namespace Mountin

/-! ## The documentation -/

/-- The data types of the documentation. -/
def RuleType.documented : RuleType → Bool
  | .byte | .le16 | .be16 | .le32 | .be32 | .le64 | .be64 | .string => true
  | _ => false

/-- The comparison operators of the documentation. -/
def Op.documented : Op → Bool
  | .eq | .and | .xor | .lt | .gt | .le | .ge => true
  | .ne | .other => false

/-- The integer a rule value stands for. -/
def Value.toInt? : Value → Option Int
  | .int value => some value.toInt
  | .uint value => some value.toNat
  | _ => none

/-- A leaf written with documented types and operators: a byte string for `string`, an
integer for the numeric types. -/
def Leaf.Documented (f : Leaf) : Prop :=
  f.typ.documented = true ∧ (f.op.getD .eq).documented = true ∧
    if f.typ = .string then
      ∃ v, f.value = some (.bytes v) ∧ ∀ x ∈ v, 0 ≤ x.toInt ∧ x.toInt < 256
    else ∃ v, f.value.bind Value.toInt? = some v

/-- A rule all of whose leaves, nested ones included, are documented. -/
def Rule.Documented (r : Rule) : Prop :=
  ∀ f thenRules, .leaf f thenRules ∈ r.parts → f.Documented

/-- "Byte offset (negative = from end)": `size + offset` for a negative offset, nothing when
that is below zero. -/
def docOffset (offset : Int) (size : Nat) : Option Nat :=
  if 0 ≤ offset then some offset.toNat
  else if 0 ≤ size + offset then some (size + offset).toNat
  else none

/-- "Data type to read": the number of a type at a position, when it fits in the image. -/
def docNumber (image : Bytes) (pos : Nat) (typ : RuleType) : Option Nat :=
  typ.layout.bind fun (width, little) =>
    if pos + width ≤ image.length then some (decodeNumber little (image.slice pos width))
    else none

/-- "Bitmask applied before comparison". -/
def docMask (a : Nat) : Option UInt64 → Nat
  | none => a
  | some m => a &&& m.toNat

/-- The documented operators on integers. The bitwise ones extend a negative value with ones:
its conjunction with a natural number is never negative, and `a ^ ~n` is `~(a ^ n)`. -/
def docCompare (a : Nat) (v : Int) : Op → Bool
  | .eq => decide ((a : Int) = v)
  | .and =>
      match v with
      | .ofNat n => a &&& n == n
      | .negSucc _ => false
  | .xor =>
      match v with
      | .ofNat n => a ^^^ n == n
      | .negSucc n => a ^^^ n == n
  | .lt => decide ((a : Int) < v)
  | .gt => decide (v < (a : Int))
  | .le => decide ((a : Int) ≤ v)
  | .ge => decide (v ≤ (a : Int))
  | .ne | .other => false

/-- "Byte string (exact match)": the string fits in the image at the position and is there. -/
def docString (image : Bytes) (pos : Nat) (v : List Int64) : Bool :=
  decide (pos + v.length ≤ image.length) &&
    (image.slice pos v.length).map (fun b => (b.toNat : Int)) == v.map Int64.toInt

/-- A leaf without its nested rules, evaluated at a position, with a comparison of the number
that was read with the value of the leaf. -/
def leafAt (cmp : Nat → Int → Op → Bool) (image : Bytes) (pos : Nat) (f : Leaf) : Bool :=
  match f.value with
  | some (.bytes v) => f.typ == .string && docString image pos v
  | value =>
      match docNumber image pos f.typ, value.bind Value.toInt? with
      | some a, some v => cmp (docMask a f.mask) v (f.op.getD .eq)
      | _, _ => false

/-- The documented meaning of a leaf without its nested rules. -/
def docLeaf (image : Bytes) (f : Leaf) : Bool :=
  match docOffset f.offset.toInt image.length with
  | none => false
  | some pos => leafAt docCompare image pos f

mutual

/-- The documented meaning of a rule tree. -/
def denote : Rule → Bytes → Bool
  | .any rules, image => denoteAny rules image
  | .all rules, image => denoteAll rules image
  | .leaf f thenRules, image => docLeaf image f && denoteThen thenRules image

def denoteAny : List Rule → Bytes → Bool
  | [], _ => false
  | r :: rules, image => denote r image || denoteAny rules image

def denoteAll : List Rule → Bytes → Bool
  | [], _ => true
  | r :: rules, image => denote r image && denoteAll rules image

def denoteThen : Option (List Rule) → Bytes → Bool
  | none, _ => true
  | some rules, image => denoteAll rules image

end

/-! ## 64-bit comparisons -/

/-- The 64-bit two's complement of an integer. -/
def twos (v : Int) : Nat := (v % 2 ^ 64).toNat

/-- The numbers on which the 64-bit comparison departs from the integer one. -/
def misjudged (a : Nat) (v : Int) : Op → Bool
  | .eq => decide (v < 0) && a == twos v
  | .and => decide (v < 0) && a &&& twos v == twos v
  | .xor => v != 0 && (a == 0 || a == twos v)
  | .lt | .ge => decide (v < 0) && decide (a < twos v)
  | .gt | .le => decide (v < 0) && decide (a ≤ twos v)
  | .ne | .other => false

/-- The comparison of `detect.rs`, on a number that was read and the value of a rule. -/
def codeCompare (a : Nat) (v : Int) (op : Op) : Bool :=
  compareNumbers (UInt64.ofNat a) (UInt64.ofNat (twos v)) op

theorem twos_lt (v : Int) : twos v < 2 ^ 64 := by
  unfold twos
  omega

theorem twos_of_nonneg {v : Int} (h : 0 ≤ v) (h' : v < 2 ^ 64) : (twos v : Int) = v := by
  unfold twos
  omega

theorem twos_of_neg {v : Int} (h : v < 0) (h' : -2 ^ 63 ≤ v) : (twos v : Int) = 2 ^ 64 + v := by
  unfold twos
  omega

theorem xor_eq_right_iff (a n : Nat) : a ^^^ n = n ↔ a = 0 := by
  constructor
  · intro h
    have hxor : a ^^^ n ^^^ n = n ^^^ n := congrArg (· ^^^ n) h
    simpa [Nat.xor_assoc] using hxor
  · rintro rfl
    exact Nat.zero_xor n

theorem docCompare_xor (a : Nat) (v : Int) : docCompare a v .xor = decide (a = 0) := by
  cases v <;> rw [docCompare, beq_eq_decide] <;> simp only [xor_eq_right_iff]

theorem compareNumbers_ofNat {a e : Nat} (ha : a < 2 ^ 64) (he : e < 2 ^ 64) (op : Op) :
    compareNumbers (UInt64.ofNat a) (UInt64.ofNat e) op =
      match op with
      | .eq | .xor => decide (a = e)
      | .ne => decide (a ≠ e)
      | .and => decide (a &&& e = e)
      | .lt => decide (a < e)
      | .gt => decide (e < a)
      | .le => decide (a ≤ e)
      | .ge => decide (e ≤ a)
      | .other => false := by
  have ha' : (UInt64.ofNat a).toNat = a := by simpa using Nat.mod_eq_of_lt ha
  have he' : (UInt64.ofNat e).toNat = e := by simpa using Nat.mod_eq_of_lt he
  cases op with
  | xor =>
      have hinj : UInt64.ofNat a = UInt64.ofNat e ↔ a = e := by
        rw [← UInt64.toNat_inj, ha', he']
      simp only [compareNumbers, beq_eq_decide, UInt64.xor_eq_zero_iff, hinj]
  | _ =>
      simp [compareNumbers, ← UInt64.toNat_inj, UInt64.lt_iff_toNat_lt, UInt64.le_iff_toNat_le,
        ha', he', beq_eq_decide, bne]

theorem docCompare_of_neg (a : Nat) {v : Int} (h : v < 0) (op : Op) :
    docCompare a v op =
      match op with
      | .eq | .and | .lt | .le | .ne | .other => false
      | .gt | .ge => true
      | .xor => decide (a = 0) := by
  obtain ⟨n, rfl⟩ : ∃ n, v = Int.negSucc n := Int.eq_negSucc_of_lt_zero h
  cases op with
  | xor => exact docCompare_xor a _
  | and => rfl
  | _ => simp only [docCompare, decide_eq_false_iff_not, decide_eq_true_eq] <;> omega

theorem docCompare_natCast (a n : Nat) (op : Op) :
    docCompare a n op =
      match op with
      | .eq => decide (a = n)
      | .and => decide (a &&& n = n)
      | .xor => decide (a = 0)
      | .lt => decide (a < n)
      | .gt => decide (n < a)
      | .le => decide (a ≤ n)
      | .ge => decide (n ≤ a)
      | .ne | .other => false := by
  cases op with
  | xor => exact docCompare_xor a _
  | and => exact beq_eq_decide ..
  | _ => simp only [docCompare, Nat.cast_inj, Nat.cast_lt, Nat.cast_le]

/-- The comparison of the code is the documented one except on the misjudged numbers. -/
theorem codeCompare_eq_docCompare_iff {a : Nat} {v : Int} (ha : a < 2 ^ 64)
    (hv : -2 ^ 63 ≤ v) (hv' : v < 2 ^ 64) {op : Op} (hop : op.documented = true) :
    codeCompare a v op = docCompare a v op ↔ misjudged a v op = false := by
  rw [codeCompare, compareNumbers_ofNat ha (twos_lt v)]
  rcases lt_or_ge v 0 with hneg | hpos
  · have he : (twos v : Int) = 2 ^ 64 + v := twos_of_neg hneg hv
    have he0 : twos v ≠ 0 := by omega
    rw [docCompare_of_neg a hneg op]
    cases op <;> simp [misjudged, Op.documented, beq_eq_decide, bne, hneg, hneg.ne] at hop ⊢
    grind
  · have he : (twos v : Int) = v := twos_of_nonneg hpos hv'
    rw [← he, docCompare_natCast]
    have hself : twos (twos v) = twos v := by rw [he]
    cases op <;> simp [misjudged, Op.documented, beq_eq_decide, bne, hself] at hop ⊢
    grind

/-! ## Leaves -/

theorem Value.toInt?_bounds {value : Value} {v : Int} (h : value.toInt? = some v) :
    -2 ^ 63 ≤ v ∧ v < 2 ^ 64 := by
  cases value with
  | int i =>
      have hlo : -2 ^ 63 ≤ i.toInt := i.le_toInt
      have hhi : i.toInt < 2 ^ 63 := i.toInt_lt
      simp only [Value.toInt?, Option.some.injEq] at h
      omega
  | uint u =>
      have hhi : u.toNat < 2 ^ 64 := u.toNat_lt
      simp only [Value.toInt?, Option.some.injEq] at h
      omega
  | bytes _ => cases h
  | string _ => cases h

theorem numericValue_eq {value : Value} {v : Int} (h : value.toInt? = some v) :
    numericValue value = some (UInt64.ofNat (twos v)) := by
  cases value with
  | int i =>
      simp only [Value.toInt?, Option.some.injEq] at h
      subst h
      have hi : i.toUInt64 = UInt64.ofNat (twos i.toInt) := by
        rw [← UInt64.toNat_inj]
        show i.toBitVec.toNat = _
        rw [UInt64.toNat_ofNat', Nat.mod_eq_of_lt (twos_lt _)]
        show _ = (i.toBitVec.toInt % 2 ^ 64).toNat
        have hlt : i.toBitVec.toNat < 2 ^ 64 := i.toBitVec.isLt
        have hmod : ((i.toBitVec.toNat : Int).bmod (2 ^ 64)) % 2 ^ 64
            = (i.toBitVec.toNat : Int) % 2 ^ 64 := Int.bmod_emod ..
        rw [BitVec.toInt_eq_toNat_bmod, hmod]
        omega
      rw [numericValue, hi]
  | uint u =>
      simp only [Value.toInt?, Option.some.injEq] at h
      subst h
      have hu : u = UInt64.ofNat (twos u.toNat) := by
        have hlt : u.toNat < 2 ^ 64 := u.toNat_lt
        have : twos u.toNat = u.toNat := by unfold twos; omega
        rw [this, UInt64.ofNat_toNat]
      rw [numericValue, ← hu]
  | bytes _ => cases h
  | string _ => cases h

theorem docNumber_lt {image : Bytes} {pos a : Nat} {typ : RuleType}
    (h : docNumber image pos typ = some a) : a < 2 ^ 64 := by
  unfold docNumber at h
  cases hlay : typ.layout with
  | none => simp [hlay] at h
  | some wl =>
      obtain ⟨width, little⟩ := wl
      simp only [hlay, Option.bind_some, Option.ite_none_right_eq_some, Option.some.injEq] at h
      obtain ⟨hfit, rfl⟩ := h
      have hwidth : width ≤ 8 := by
        cases typ <;> simp [RuleType.layout] at hlay <;> omega
      have hlen : (image.slice pos width).length = width := by
        rw [List.length_slice]
        omega
      calc decodeNumber little (image.slice pos width)
          < 256 ^ (image.slice pos width).length := by
            cases little
            · exact Bytes.be_lt _
            · exact Bytes.le_lt _
        _ = 256 ^ width := by rw [hlen]
        _ ≤ 256 ^ 8 := Nat.pow_le_pow_right (by omega) hwidth
        _ = 2 ^ 64 := by norm_num

theorem docMask_lt {a : Nat} (h : a < 2 ^ 64) (mask : Option UInt64) : docMask a mask < 2 ^ 64 := by
  cases mask with
  | none => exact h
  | some m => exact lt_of_le_of_lt Nat.and_le_left h

theorem applyMask_ofNat (a : Nat) (mask : Option UInt64) :
    applyMask (.uint (UInt64.ofNat a)) mask = .uint (UInt64.ofNat (docMask a mask)) := by
  cases mask with
  | none => rfl
  | some m =>
      show Value.uint (UInt64.ofNat a &&& m) = .uint (UInt64.ofNat (a &&& m.toNat))
      rw [UInt64.ofNat_and, UInt64.ofNat_toNat]

theorem readFull_bytesReader (image : Bytes) (pos : Nat) {len : Nat} (hlen : 0 < len) :
    readFull (bytesReader image) pos len =
      if pos + len ≤ image.length then some (image.slice pos len) else none := by
  simp only [readFull, bytesReader_readAt, List.length_slice_eq_iff hlen]

theorem readValue_bytesReader (image : Bytes) (pos : Nat) (typ : RuleType) :
    readValue (bytesReader image) pos typ =
      (docNumber image pos typ).map (fun a => .uint (UInt64.ofNat a)) := by
  unfold readValue docNumber
  cases hlay : typ.layout with
  | none => rfl
  | some wl =>
      obtain ⟨width, little⟩ := wl
      have hwidth : 0 < width := by
        cases typ <;> simp [RuleType.layout] at hlay <;> omega
      simp only [readFull_bytesReader image pos hwidth, Option.bind_some]
      split_ifs <;> rfl

/-- The value of a leaf is the byte string of a `string` leaf or the integer of a numeric one. -/
theorem Leaf.Documented.cases {f : Leaf} (h : f.Documented) :
    (f.typ = .string ∧ ∃ v, f.value = some (.bytes v) ∧ ∀ x ∈ v, 0 ≤ x.toInt ∧ x.toInt < 256) ∨
    (f.typ ≠ .string ∧ ∃ value v, f.value = some value ∧ value.toInt? = some v) := by
  obtain ⟨-, -, hvalue⟩ := h
  by_cases htyp : f.typ = .string
  · rw [if_pos htyp] at hvalue
    exact .inl ⟨htyp, hvalue⟩
  · rw [if_neg htyp] at hvalue
    obtain ⟨v, hv⟩ := hvalue
    rw [Option.bind_eq_some_iff] at hv
    obtain ⟨value, hval, hv⟩ := hv
    exact .inr ⟨htyp, value, v, hval, hv⟩

/-- The bytes of a string value are its integers. -/
theorem map_toUInt8_eq {v : List Int64} (hv : ∀ x ∈ v, 0 ≤ x.toInt ∧ x.toInt < 256) :
    (v.map (fun x => x.toUInt64.toUInt8)).map (fun b => (b.toNat : Int)) = v.map Int64.toInt := by
  rw [List.map_map]
  apply List.map_congr_left
  intro x hx
  obtain ⟨hlo, hhi⟩ := hv x hx
  have hvalue : numericValue (.int x) = some (UInt64.ofNat (twos x.toInt)) := numericValue_eq rfl
  simp only [numericValue, Option.some.injEq] at hvalue
  have htwos : (twos x.toInt : Int) = x.toInt := twos_of_nonneg hlo (by omega)
  have hlt : twos x.toInt < 256 := by omega
  simp only [Function.comp_apply, hvalue, UInt64.toNat_toUInt8, UInt64.toNat_ofNat']
  omega

theorem matchBytes_bytesReader (image : Bytes) (pos : Nat) {v : List Int64}
    (hv : ∀ x ∈ v, 0 ≤ x.toInt ∧ x.toInt < 256) :
    matchBytes (bytesReader image) pos (.bytes v) =
      some (docString image pos v || (v.isEmpty && decide (image.length < pos))) := by
  have hinj : ∀ bs : Bytes, (bs == v.map (fun x => x.toUInt64.toUInt8))
      = (bs.map (fun b => (b.toNat : Int)) == v.map Int64.toInt) := by
    intro bs
    rw [← map_toUInt8_eq hv, beq_eq_beq]
    constructor
    · rintro rfl
      rfl
    · intro h
      exact List.map_injective_iff.mpr
        (fun a b hab => UInt8.toNat_inj.mp (by exact_mod_cast hab)) h
  cases v with
  | nil =>
      have hslice : image.slice pos 0 = [] := by simp [List.slice]
      by_cases hlt : image.length < pos <;>
        simp [matchBytes, readFull, bytesReader_readAt, docString, hslice, hlt]
      omega
  | cons x v =>
      have hlen : 0 < (x :: v).length := List.length_pos_of_ne_nil (List.cons_ne_nil x v)
      simp only [matchBytes, List.length_map, readFull_bytesReader image pos hlen]
      by_cases hfit : pos + (x :: v).length ≤ image.length
      · simp only [hfit, if_true, hinj, docString, decide_true, Bool.true_and, List.isEmpty_cons,
          Bool.false_and, Bool.or_false]
      · simp only [hfit, if_false, docString, decide_false, Bool.false_and, List.isEmpty_cons,
          Bool.or_false]

theorem resolveOffset_eq (offset : Int64) (size : Nat) :
    resolveOffset offset (some size) = some ((docOffset offset.toInt size).getD 0) := by
  unfold resolveOffset docOffset
  by_cases hpos : 0 ≤ offset.toInt
  · simp only [hpos, if_true, Option.getD_some]
  · have hlo : -2 ^ 63 ≤ offset.toInt := offset.le_toInt
    have hneg : (-offset).toUInt64.toNat = (-offset.toInt).toNat := by
      have hvalue : numericValue (.int (-offset)) = some (UInt64.ofNat (twos (-offset).toInt)) :=
        numericValue_eq rfl
      simp only [numericValue, Option.some.injEq] at hvalue
      rw [hvalue, UInt64.toNat_ofNat', Nat.mod_eq_of_lt (twos_lt _), Int64.toInt_neg]
      unfold twos
      have hmod : ((-offset.toInt).bmod (2 ^ 64)) % 2 ^ 64 = (-offset.toInt) % 2 ^ 64 :=
        Int.bmod_emod ..
      rw [hmod]
      omega
    simp only [hpos, if_false, Option.map_some, hneg, Option.some.injEq]
    split_ifs with hin
    · rw [Option.getD_some]
      omega
    · rw [Option.getD_none]
      omega

/-- An empty string leaf at a position past the end of the image. -/
def emptyPastEnd (image : Bytes) (pos : Nat) (f : Leaf) : Bool :=
  f.value == some (.bytes []) && decide (image.length < pos)

/-- What `matches_leaf` computes on a documented leaf. -/
theorem matchesLeaf_bytesReader (regex : RegexMatch) (image : Bytes) (pos : Nat) {f : Leaf}
    (hf : f.Documented) (thenHolds : Option Bool) (xorHolds : Option (Bytes → Bool)) :
    matchesLeaf regex (bytesReader image) pos f thenHolds xorHolds =
      ((leafAt codeCompare image pos f || emptyPastEnd image pos f) && thenHolds.getD true) := by
  have htyp : f.typ.documented = true := hf.1
  have hc : f.typ ≠ .checksum := by rintro h; rw [h] at htyp; cases htyp
  have hx : f.typ ≠ .xor := by rintro h; rw [h] at htyp; cases htyp
  have hasc : f.typ ≠ .ascii := by rintro h; rw [h] at htyp; cases htyp
  rcases hf.cases with ⟨hs, v, hval, hv⟩ | ⟨hs, value, v, hval, hv⟩
  · have hempty : emptyPastEnd image pos f = (v.isEmpty && decide (image.length < pos)) := by
      cases v <;> simp [emptyPastEnd, hval]
    simp only [matchesLeaf, leafAt, hval, hs, matchBytes_bytesReader image pos hv, hempty,
      reduceCtorEq, if_false, if_true, BEq.rfl, Bool.true_and]
  · have hempty : emptyPastEnd image pos f = false := by
      cases value <;> simp_all [emptyPastEnd, Value.toInt?]
    have hleaf : leafAt codeCompare image pos f =
        match docNumber image pos f.typ with
        | some a => codeCompare (docMask a f.mask) v (f.op.getD .eq)
        | none => false := by
      cases value with
      | bytes _ => cases hv
      | _ => cases hnum : docNumber image pos f.typ <;> simp [leafAt, hval, hnum, hv]
    simp only [matchesLeaf, hval, hc, hx, hs, hasc, if_false, readValue_bytesReader, hempty,
      Bool.or_false, hleaf]
    cases hnum : docNumber image pos f.typ with
    | none => rfl
    | some a =>
        have huint : ∀ u, numericValue (.uint u) = some u := fun _ => rfl
        simp only [Option.map_some, applyMask_ofNat, compare, numericValue_eq hv, huint,
          codeCompare]

/-- A leaf on which `detect.rs` departs from the documentation. -/
def misread (image : Bytes) (f : Leaf) : Bool :=
  match docOffset f.offset.toInt image.length with
  -- the offset reaches before the start of the image, and the leaf matches at its start
  | none => leafAt codeCompare image 0 f
  | some pos =>
      emptyPastEnd image pos f ||
        match docNumber image pos f.typ, f.value.bind Value.toInt? with
        | some a, some v => misjudged (docMask a f.mask) v (f.op.getD .eq)
        | _, _ => false

theorem leafAt_codeCompare_iff (image : Bytes) (pos : Nat) {f : Leaf} (hf : f.Documented) :
    (leafAt codeCompare image pos f || emptyPastEnd image pos f) = leafAt docCompare image pos f ↔
      (emptyPastEnd image pos f ||
        match docNumber image pos f.typ, f.value.bind Value.toInt? with
        | some a, some v => misjudged (docMask a f.mask) v (f.op.getD .eq)
        | _, _ => false) = false := by
  rcases hf.cases with ⟨hs, v, hval, hv⟩ | ⟨hs, value, v, hval, hv⟩
  · simp only [leafAt, hval, Option.bind_some, Value.toInt?]
    by_cases hempty : emptyPastEnd image pos f = true
    · have hlong : docString image pos v = false := by
        simp only [emptyPastEnd, hval, Bool.and_eq_true, decide_eq_true_eq] at hempty
        have hnot : ¬ pos + v.length ≤ image.length := by omega
        simp only [docString, hnot, decide_false, Bool.false_and]
      simp [hempty, hlong]
    · simp [hempty]
  · have hempty : emptyPastEnd image pos f = false := by
      cases value <;> simp_all [emptyPastEnd, Value.toInt?]
    cases hnum : docNumber image pos f.typ with
    | none =>
        cases value with
        | bytes _ => cases hv
        | _ => simp [leafAt, hval, hnum, hempty]
    | some a =>
        have hbounds := Value.toInt?_bounds hv
        have hiff := codeCompare_eq_docCompare_iff (docMask_lt (docNumber_lt hnum) f.mask)
          hbounds.1 hbounds.2 hf.2.1
        cases value with
        | bytes _ => cases hv
        | _ => simpa [leafAt, hval, hnum, hempty, hv] using hiff

/-- `matches_leaf` follows the documentation except on a misread leaf whose nested rules
hold. -/
theorem matchesLeaf_eq_docLeaf_iff (regex : RegexMatch) (image : Bytes) {f : Leaf}
    (hf : f.Documented) (thenHolds : Option Bool) (xorHolds : Option (Bytes → Bool)) :
    matchesLeaf regex (bytesReader image) ((docOffset f.offset.toInt image.length).getD 0) f
        thenHolds xorHolds = (docLeaf image f && thenHolds.getD true) ↔
      (misread image f && thenHolds.getD true) = false := by
  rw [matchesLeaf_bytesReader regex image _ hf]
  cases hthen : thenHolds.getD true with
  | false => simp
  | true =>
      unfold docLeaf misread
      cases hoff : docOffset f.offset.toInt image.length with
      | none =>
          have hempty : emptyPastEnd image 0 f = false := by simp [emptyPastEnd]
          simp [hempty]
      | some pos =>
          simpa using leafAt_codeCompare_iff image pos hf

end Mountin
