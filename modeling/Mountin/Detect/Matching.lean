import Mountin.Detect.Rule

set_option autoImplicit false

/-! # Matching rules

The matching half of `detect.rs`. `matchesLeaf` is generic in the evaluator of the nested
rules; a closure that the source passes to it appears here as the value the closure would
return: `thenHolds` is `rules.iter().all(recurse)` on the same reader, `xorHolds` the same
on decrypted bytes, both `none` when the leaf has no nested rules.
-/

namespace Mountin

/-- `regex::Regex`: whether a pattern is found in an ASCII text, `none` when the pattern does
not compile. -/
abbrev RegexMatch := String → Bytes → Option Bool

/-- `resolve_offset`: a negative offset counts from the end of the file. -/
def resolveOffset (offset : Int64) (size : Option Nat) : Option Nat :=
  if 0 ≤ offset.toInt then some offset.toInt.toNat
  else size.map (fun s => s - (-offset).toUInt64.toNat)

/-- The bytes of a read that came back at its full length. -/
def readFull (r : Reader) (offset len : Nat) : Option Bytes :=
  match r.readAt offset len with
  | .ok buf => if buf.length = len then some buf else none
  | .error _ => none

/-- `match_bytes_generic`. -/
def matchBytes (r : Reader) (offset : Nat) : Value → Option Bool
  | .bytes expected =>
      let expectedU8 := expected.map (fun x => x.toUInt64.toUInt8)
      match readFull r offset expectedU8.length with
      | some buf => some (buf == expectedU8)
      | none => some false
  | _ => none

/-- `match_ascii_regex`. -/
def matchAsciiRegex (regex : RegexMatch) (r : Reader) (offset len : Nat) (pattern : String) :
    Option Bool :=
  match r.readAt offset len with
  | .error _ => none
  | .ok buf =>
      if buf.length ≠ len then some false
      else if !buf.all (fun b => b < 128) then some false
      else regex pattern buf

/-- The width of a numeric rule type, and whether its bytes are in little-endian order. -/
def RuleType.layout : RuleType → Option (Nat × Bool)
  | .byte | .u8 | .i8 => some (1, true)
  | .le16 | .u16 | .i16 => some (2, true)
  | .be16 => some (2, false)
  | .le32 | .u32 | .i32 => some (4, true)
  | .be32 => some (4, false)
  | .le64 | .u64 | .i64 => some (8, true)
  | .be64 => some (8, false)
  | .string | .ascii | .checksum | .xor | .other => none

/-- The number a numeric rule type reads from bytes of its width. -/
def decodeNumber (little : Bool) (bs : Bytes) : Nat :=
  if little then Bytes.le bs else Bytes.be bs

/-- `read_value_generic` with `read_byte_generic`, `read_le16_generic` and their siblings. -/
def readValue (r : Reader) (offset : Nat) (typ : RuleType) : Option Value :=
  match typ.layout with
  | none => none
  | some (width, little) =>
      (readFull r offset width).map (fun bs => .uint (UInt64.ofNat (decodeNumber little bs)))

/-- `numeric_value`. -/
def numericValue : Value → Option UInt64
  | .int value => some value.toUInt64
  | .uint value => some value
  | _ => none

/-- The comparison of two 64-bit numbers by an operator. -/
def compareNumbers (a e : UInt64) : Op → Bool
  | .eq => a == e
  | .ne => a != e
  | .and => (a &&& e) == e
  | .xor => (a ^^^ e) == 0
  | .lt => decide (a < e)
  | .gt => decide (e < a)
  | .le => decide (a ≤ e)
  | .ge => decide (e ≤ a)
  | .other => false

/-- `compare`. -/
def compare (actual expected : Value) (op : Op) : Bool :=
  match numericValue actual, numericValue expected with
  | some a, some e => compareNumbers a e op
  | _, _ =>
      match actual, expected with
      | .bytes a, .bytes e => a == e
      | _, _ => false

/-- The mask applied to a value that was read. -/
def applyMask (actual : Value) : Option UInt64 → Value
  | none => actual
  | some m =>
      match actual with
      | .int i => .int (i &&& m.toInt64)
      | .uint u => .uint (u &&& m)
      | v => v

/-- `match_checksum`. -/
def matchChecksum (r : Reader) (offset len : Nat) (algorithm : String) : Bool :=
  match checksumGet algorithm with
  | none => false
  | some validator =>
      match readFull r offset len with
      | some buf => validator buf
      | none => false

/-- `match_xor_then`. -/
def matchXorThen (r : Reader) (offset len : Nat) (key : String)
    (xorHolds : Option (Bytes → Bool)) : Bool :=
  match xorHolds with
  | none => true
  | some holds =>
      match readFull r offset len with
      | some buf => holds (xorDecrypt buf key.toUTF8.toList)
      | none => false

/-- `matches_leaf`. -/
def matchesLeaf (regex : RegexMatch) (r : Reader) (offset : Nat) (f : Leaf)
    (thenHolds : Option Bool) (xorHolds : Option (Bytes → Bool)) : Bool :=
  if f.typ = .checksum then
    matchChecksum r offset ((f.length.map UInt32.toNat).getD 512) (f.algorithm.getD "adfs")
  else if f.typ = .xor then
    matchXorThen r offset ((f.length.map UInt32.toNat).getD 256) (f.key.getD "") xorHolds
  else
    match f.value with
    -- no expected value: the leaf only extracts, and always matches
    | none => thenHolds.getD true
    | some expected =>
        if f.typ = .string then
          match matchBytes r offset expected with
          | none => false
          | some matched => matched && thenHolds.getD true
        else if f.typ = .ascii then
          match f.length, expected with
          | some len, .string pattern =>
              match matchAsciiRegex regex r offset len.toNat pattern with
              | none => false
              | some matched => matched && thenHolds.getD true
          | _, _ => false
        else
          match readValue r offset f.typ with
          | none => false
          | some v =>
              compare (applyMask v f.mask) expected (f.op.getD .eq) && thenHolds.getD true

section

variable (regex : RegexMatch)

mutual

/-- `match_rule_on_bytes`: a rule against bytes held in memory. -/
def matchRuleOnBytes : Rule → Bytes → Bool
  | .any rules, data => anyOnBytes rules data
  | .all rules, data => allOnBytes rules data
  | .leaf f thenRules, data =>
      match resolveOffset f.offset (bytesReader data).size with
      | none => false
      | some offset =>
          matchesLeaf regex (bytesReader data) offset f
            ((thenOnBytes thenRules).map (fun holds => holds data)) (thenOnBytes thenRules)

def anyOnBytes : List Rule → Bytes → Bool
  | [], _ => false
  | r :: rules, data => matchRuleOnBytes r data || anyOnBytes rules data

def allOnBytes : List Rule → Bytes → Bool
  | [], _ => true
  | r :: rules, data => matchRuleOnBytes r data && allOnBytes rules data

def thenOnBytes : Option (List Rule) → Option (Bytes → Bool)
  | none => none
  | some rules => some (fun data => allOnBytes rules data)

end

variable (r : Reader)

mutual

/-- `matches_rule_dyn`: a rule against a reader. -/
def matchesRuleDyn : Rule → Bool
  | .any rules => anyDyn rules
  | .all rules => allDyn rules
  | .leaf f thenRules =>
      match resolveOffset f.offset r.size with
      | none => false
      | some offset =>
          matchesLeaf regex r offset f (thenDyn thenRules) (thenOnBytes regex thenRules)

def anyDyn : List Rule → Bool
  | [] => false
  | s :: rules => matchesRuleDyn s || anyDyn rules

def allDyn : List Rule → Bool
  | [] => true
  | s :: rules => matchesRuleDyn s && allDyn rules

def thenDyn : Option (List Rule) → Option Bool
  | none => none
  | some rules => some (allDyn rules)

end

/-- `matches_detect_dyn`. -/
def matchesDetectDyn : Detect → Bool
  | .all rules => allDyn regex r rules
  | .any rules => anyDyn regex r rules

end

end Mountin
