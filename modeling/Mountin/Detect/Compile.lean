import Mountin.Basic.Raising
import Mountin.Build.Metadata
import Mountin.Detect.Priority

set_option autoImplicit false

/-! # Compiled rules

`compile.py` copies the rules of a catalogue field by field into `format.bin`, and `format.rs` reads
them back by trying the shapes of `Rule` and `Value` in order. A msgpack value is the Python object
that was written.

* `SourceRule` : rules as the documentation has them, `SourceRule.Written` the objects that write them.
* `compileRule` : what is read back of a rule is the rule, field by field.
* `compiled_means_source` : a loaded database evaluates every format as its source says.
-/

namespace Mountin

/-! ## `compile.py` -/

/-- The exceptions of `normalize_detect`, with what their messages name. -/
inductive RuleError where
  /-- `TypeError`: a rule that is not a dict. -/
  | notDict (rule : Yaml) (path : List String)
  /-- `KeyError`: a rule without a type. -/
  | noType (rule : Yaml) (path : List String)
  /-- `TypeError` of `enumerate`. -/
  | notIterable (value : Yaml)
  /-- `UnicodeEncodeError`. -/
  | notLatin1 (text : String)

/-- `type(value).__name__`. -/
def Yaml.typeName : Yaml → String
  | .null => "NoneType"
  | .bool _ => "bool"
  | .int _ => "int"
  | .str _ => "str"
  | .list _ => "list"
  | .dict _ => "dict"

/-- `'/'.join(path) or 'root'`. -/
def rulePlace (path : List String) : String :=
  if path = [] then "root" else String.intercalate "/" path

/-- The text of an exception; `repr` is that of Python. -/
def RuleError.text (repr : Yaml → String) : RuleError → String
  | .notDict rule path =>
      "Expected dict, got " ++ rule.typeName ++ ": " ++ repr rule ++ " at " ++ rulePlace path
  -- the text of a `KeyError` is the `repr` of its message
  | .noType rule path =>
      repr (.str ("Missing 'type' in rule at " ++ rulePlace path ++ ": " ++ repr rule))
  | .notIterable value => "'" ++ value.typeName ++ "' object is not iterable"
  | .notLatin1 text => "'latin-1' codec can't encode " ++ repr (.str text)

/-- The `value` of a rule of a type: a string is encoded as its bytes for `string`. -/
def normalizeValue (typ value : Yaml) : Except RuleError Yaml :=
  match typ, value with
  | .str "string", .str text =>
      if text.toList.all fun c => c.toNat < 256 then
        .ok (.list (text.toList.map fun c => .int c.toNat))
      else .error (.notLatin1 text)
  | _, value => .ok value

/-- A field that may be missing. -/
def optionalField (key : String) : Option Yaml → Metadata
  | none => []
  | some value => [(key, value)]

/-- The label of an item: `any[0]`. -/
def itemLabel (label : String) (i : Nat) : String := label ++ "[" ++ toString i ++ "]"

mutual

/-- `normalize_rule`. -/
def normalizeRule (path : List String) : Yaml → Except RuleError Yaml
  | .dict entries =>
      let nested := normalizeFields path entries
      match Dict.get? nested "any" with
      | some rules => do return .dict [("any", .list (← rules))]
      | none =>
          match Dict.get? nested "all" with
          | some rules => do return .dict [("all", .list (← rules))]
          | none =>
              match Dict.get? entries "type" with
              | none => .error (.noType (.dict entries) path)
              | some typ => do
                  let value ← (Dict.get? entries "value").mapM (normalizeValue typ)
                  let thenRules ← (Dict.get? nested "then").mapM id
                  return .dict ([("offset", (Dict.get? entries "offset").getD (.int 0)), ("type", typ)]
                    ++ optionalField "value" value
                    ++ optionalField "length" (Dict.get? entries "length")
                    ++ optionalField "name" (Dict.get? entries "name")
                    ++ optionalField "op" (Dict.get? entries "op")
                    ++ optionalField "mask" (Dict.get? entries "mask")
                    ++ optionalField "algorithm" (Dict.get? entries "algorithm")
                    ++ optionalField "key" (Dict.get? entries "key")
                    ++ optionalField "then" (thenRules.map .list))
  | rule => .error (.notDict rule path)

/-- The rules in each field of a dict, of which the caller uses one. -/
def normalizeFields (path : List String) :
    List (String × Yaml) → Dict String (Except RuleError (List Yaml))
  | [] => []
  | (key, value) :: rest => (key, normalizeEach path key value) :: normalizeFields path rest

/-- `[normalize_rule(r, path + [f"{label}[{i}]"]) for i, r in enumerate(value)]`. -/
def normalizeEach (path : List String) (label : String) : Yaml → Except RuleError (List Yaml)
  | .list items => normalizeItems path label 0 items
  | .dict [] => .ok []
  | .dict ((key, _) :: _) => .error (.notDict (.str key) (path ++ [itemLabel label 0]))
  | .str text =>
      match text.toList with
      | [] => .ok []
      | c :: _ => .error (.notDict (.str (String.ofList [c])) (path ++ [itemLabel label 0]))
  | value => .error (.notIterable value)

def normalizeItems (path : List String) (label : String) (i : Nat) :
    List Yaml → Except RuleError (List Yaml)
  | [] => .ok []
  | item :: rest => do
      let rule ← normalizeRule (path ++ [itemLabel label i]) item
      let rules ← normalizeItems path label (i + 1) rest
      return rule :: rules

end

/-- The block of the rules of a list, `None` for an empty one. -/
def detectBlock (key : String) (rules : List Yaml) : Option Yaml :=
  if rules = [] then none else some (.dict [(key, .list rules)])

/-- `normalize_detect`. -/
def normalizeDetect (detect : Yaml) : Except RuleError (Option Yaml) :=
  match detect with
  | .list _ => do return detectBlock "all" (← normalizeEach [] "detect" detect)
  | .dict entries =>
      match Dict.get? entries "all" with
      | some rules => do return detectBlock "all" (← normalizeEach [] "detect/all" rules)
      | none =>
          match Dict.get? entries "any" with
          | some rules => do return detectBlock "any" (← normalizeEach [] "detect/any" rules)
          | none =>
              if (Dict.get? entries "type").isSome then do
                let rule ← normalizeRule ["detect"] detect
                return some (.dict [("all", .list [rule])])
              else .ok none
  | _ => .ok none

/-! ## `format.rs` -/

/-- The `type` strings that `detect.rs` distinguishes. -/
def ruleType : String → RuleType
  | "byte" => .byte | "u8" => .u8 | "i8" => .i8
  | "le16" => .le16 | "u16" => .u16 | "i16" => .i16 | "be16" => .be16
  | "le32" => .le32 | "u32" => .u32 | "i32" => .i32 | "be32" => .be32
  | "le64" => .le64 | "u64" => .u64 | "i64" => .i64 | "be64" => .be64
  | "string" => .string | "ascii" => .ascii | "checksum" => .checksum | "xor" => .xor
  | _ => .other

/-- The `op` strings that `compare` distinguishes. -/
def ruleOp : String → Op
  | "=" => .eq | "!=" => .ne | "&" => .and | "^" => .xor
  | "<" => .lt | ">" => .gt | "<=" => .le | ">=" => .ge
  | _ => .other

def decodeI64 : Yaml → Option Int64
  | .int n => if -2 ^ 63 ≤ n ∧ n < 2 ^ 63 then some (Int64.ofInt n) else none
  | _ => none

def decodeU64 : Yaml → Option UInt64
  | .int n => if 0 ≤ n ∧ n < 2 ^ 64 then some (UInt64.ofNat n.toNat) else none
  | _ => none

def decodeU32 : Yaml → Option UInt32
  | .int n => if 0 ≤ n ∧ n < 2 ^ 32 then some (UInt32.ofNat n.toNat) else none
  | _ => none

def decodeString : Yaml → Option String
  | .str s => some s
  | _ => none

/-- `Vec<i64>`. -/
def decodeBytes : Yaml → Option (List Int64)
  | .list items => items.mapM decodeI64
  | _ => none

/-- `Value`: the first of its shapes that the object has. -/
def decodeValue (value : Yaml) : Option Value :=
  ((decodeI64 value).map Value.int).or <| ((decodeU64 value).map Value.uint).or <|
    ((decodeBytes value).map Value.bytes).or <| (decodeString value).map Value.string

/-- A field of type `Option`: missing and `nil` are `None`. -/
def decodeField {α : Type} (decode : Yaml → Option α) : Option Yaml → Option (Option α)
  | none | some .null => some none
  | some value => (decode value).map some

/-- `Rule::Leaf`, with its nested rules. -/
def decodeLeaf (entries : Metadata) (thenRules : Option (List Rule)) : Option Rule := do
  let offset ← (entries.get? "offset").bind decodeI64
  let typ ← (entries.get? "type").bind decodeString
  let value ← decodeField decodeValue (entries.get? "value")
  let op ← decodeField decodeString (entries.get? "op")
  let mask ← decodeField decodeU64 (entries.get? "mask")
  let _name ← decodeField decodeString (entries.get? "name")
  let length ← decodeField decodeU32 (entries.get? "length")
  let algorithm ← decodeField decodeString (entries.get? "algorithm")
  let key ← decodeField decodeString (entries.get? "key")
  return .leaf { offset, typ := ruleType typ, value, op := op.map ruleOp, mask, length, algorithm, key }
    thenRules

mutual

/-- `Rule`: the first of its shapes that the object has. -/
def decodeRule : Yaml → Option Rule
  | .dict entries =>
      let nested := decodeFields entries
      ((Dict.get? nested "any").join.map Rule.any).or <| ((Dict.get? nested "all").join.map Rule.all).or <|
        match Dict.get? entries "then", Dict.get? nested "then" with
        | some .null, _ | _, none => decodeLeaf entries none
        | _, some rules => rules.bind fun rules => decodeLeaf entries (some rules)
  | _ => none

/-- The rules in each field of a map, of which the caller uses some. -/
def decodeFields : List (String × Yaml) → Dict String (Option (List Rule))
  | [] => []
  | (key, value) :: rest => (key, decodeList value) :: decodeFields rest

def decodeList : Yaml → Option (List Rule)
  | .list items => decodeItems items
  | _ => none

def decodeItems : List Yaml → Option (List Rule)
  | [] => some []
  | item :: rest => do
      let rule ← decodeRule item
      let rules ← decodeItems rest
      return rule :: rules

end

/-- `Detect`: the first of its shapes that the object has. -/
def decodeDetect : Yaml → Option Detect
  | .dict entries =>
      (((Dict.get? entries "all").bind decodeList).map Detect.all).or
        (((Dict.get? entries "any").bind decodeList).map Detect.any)
  | _ => none

/-- `normalize_detect`, and what `format.rs` reads of its result. -/
def compileDetect (repr : Yaml → String) (detect : Yaml) : Except String (Option Detect) :=
  match normalizeDetect detect with
  | .error e => .error (e.text repr)
  | .ok none => .ok none
  | .ok (some result) =>
      match decodeDetect result with
      | some compiled => .ok (some compiled)
      | none => .error "data did not match any variant of untagged enum Detect"

/-! ## Rules as they are documented -/

/-- The value of a rule. -/
inductive SourceValue where
  | int (n : Int)
  | str (text : String)

/-- The fields of a rule with a type, `then` apart. -/
structure SourceLeaf where
  typ : String
  offset : Option Int := none
  value : Option SourceValue := none
  op : Option String := none
  mask : Option Int := none
  name : Option String := none
  length : Option Int := none
  algorithm : Option String := none
  key : Option String := none

/-- A block with a type, `any` or `all`. -/
inductive SourceRule where
  | any (rules : List SourceRule)
  | all (rules : List SourceRule)
  | leaf (fields : SourceLeaf) (thenRules : Option (List SourceRule))

/-- A `detect` value: a list of rules, a rule, or an `all` or `any` block. -/
inductive SourceDetect where
  | list (rules : List SourceRule)
  | one (fields : SourceLeaf) (thenRules : Option (List SourceRule))
  | all (rules : List SourceRule)
  | any (rules : List SourceRule)

def SourceValue.yaml : SourceValue → Yaml
  | .int n => .int n
  | .str text => .str text

/-- The fields of rules that mean something. -/
def RULE_FIELDS : List String :=
  ["any", "all", "type", "offset", "value", "op", "mask", "length", "algorithm", "key", "then"]

/-- A dict with one of the fields of rules, beside others that mean nothing. -/
def OnlyField (entries : Metadata) (key : String) (value : Yaml) : Prop :=
  entries.get? key = some value ∧ ∀ other ∈ RULE_FIELDS, other ≠ key → entries.get? other = none

/-- The fields of a dict that write those of a rule. -/
structure SourceLeaf.Written (f : SourceLeaf) (entries : Metadata) : Prop where
  any : entries.get? "any" = none
  all : entries.get? "all" = none
  typ : entries.get? "type" = some (.str f.typ)
  offset : entries.get? "offset" = f.offset.map .int
  value : entries.get? "value" = f.value.map SourceValue.yaml
  op : entries.get? "op" = f.op.map .str
  mask : entries.get? "mask" = f.mask.map .int
  name : entries.get? "name" = f.name.map .str
  length : entries.get? "length" = f.length.map .int
  algorithm : entries.get? "algorithm" = f.algorithm.map .str
  key : entries.get? "key" = f.key.map .str

mutual

/-- An object that writes a rule. -/
def SourceRule.Written : SourceRule → Yaml → Prop
  | .any rules, value => ∃ entries items, value = .dict entries ∧
      OnlyField entries "any" (.list items) ∧ writtenAll rules items
  | .all rules, value => ∃ entries items, value = .dict entries ∧
      OnlyField entries "all" (.list items) ∧ writtenAll rules items
  | .leaf fields thenRules, value => ∃ entries, value = .dict entries ∧ fields.Written entries ∧
      writtenThen thenRules (Dict.get? entries "then")

def writtenAll : List SourceRule → List Yaml → Prop
  | [], items => items = []
  | rule :: rules, items => ∃ item rest, items = item :: rest ∧ rule.Written item ∧ writtenAll rules rest

def writtenThen : Option (List SourceRule) → Option Yaml → Prop
  | none, value => value = none
  | some rules, value => ∃ items, value = some (.list items) ∧ writtenAll rules items

end

/-- An object that writes a `detect` value. -/
def SourceDetect.Written : SourceDetect → Yaml → Prop
  | .list rules, value => ∃ items, value = .list items ∧ writtenAll rules items
  | .one fields thenRules, value => (SourceRule.leaf fields thenRules).Written value
  | .all rules, value => (SourceRule.all rules).Written value
  | .any rules, value => (SourceRule.any rules).Written value

mutual

/-- A property of every rule with a type. -/
def SourceRule.Leaves (P : SourceLeaf → Prop) : SourceRule → Prop
  | .any rules | .all rules => leavesAll P rules
  | .leaf fields thenRules => P fields ∧ leavesThen P thenRules

def leavesAll (P : SourceLeaf → Prop) : List SourceRule → Prop
  | [] => True
  | rule :: rules => rule.Leaves P ∧ leavesAll P rules

def leavesThen (P : SourceLeaf → Prop) : Option (List SourceRule) → Prop
  | none => True
  | some rules => leavesAll P rules

end

def SourceDetect.Leaves (P : SourceLeaf → Prop) : SourceDetect → Prop
  | .list rules | .all rules | .any rules => leavesAll P rules
  | .one fields thenRules => (SourceRule.leaf fields thenRules).Leaves P

/-- A value of 64 bits, or of Latin-1. -/
def SourceValue.Fits : SourceValue → Prop
  | .int n => -2 ^ 63 ≤ n ∧ n < 2 ^ 64
  | .str text => ∀ c ∈ text.toList, c.toNat < 256

/-- Integers of 64 bits, signed or not, and strings of Latin-1. -/
structure SourceLeaf.Wide (f : SourceLeaf) : Prop where
  offset : ∀ n ∈ f.offset, -2 ^ 63 ≤ n ∧ n < 2 ^ 64
  mask : ∀ n ∈ f.mask, 0 ≤ n ∧ n < 2 ^ 64
  length : ∀ n ∈ f.length, -2 ^ 63 ≤ n ∧ n < 2 ^ 64
  value : ∀ v ∈ f.value, v.Fits

/-- Integers that the fields of `Rule::Leaf` hold: an offset is signed, a length has 32 bits. -/
structure SourceLeaf.Fits (f : SourceLeaf) : Prop where
  offset : ∀ n ∈ f.offset, -2 ^ 63 ≤ n ∧ n < 2 ^ 63
  mask : ∀ n ∈ f.mask, 0 ≤ n ∧ n < 2 ^ 64
  length : ∀ n ∈ f.length, 0 ≤ n ∧ n < 2 ^ 32
  value : ∀ v ∈ f.value, v.Fits

/-! ## What a source means -/

/-- The value that a rule of a type asks for: bytes for `string`. -/
def SourceValue.meaning (typ : String) : SourceValue → Value
  | .int n => if n < 2 ^ 63 then .int (Int64.ofInt n) else .uint (UInt64.ofNat n.toNat)
  | .str text =>
      if typ = "string" then .bytes (text.toList.map fun c => Int64.ofInt c.toNat) else .string text

/-- The condition of a rule, with the documented defaults. -/
def SourceLeaf.meaning (f : SourceLeaf) : Leaf where
  offset := Int64.ofInt (f.offset.getD 0)
  typ := ruleType f.typ
  value := f.value.map (SourceValue.meaning f.typ)
  op := f.op.map ruleOp
  mask := f.mask.map fun n => UInt64.ofNat n.toNat
  length := f.length.map fun n => UInt32.ofNat n.toNat
  algorithm := f.algorithm
  key := f.key

section

variable (regex : RegexMatch)

mutual

/-- A rule of the source holds of bytes in memory. -/
def SourceRule.holdsOn : SourceRule → Bytes → Bool
  | .any rules, data => anyHoldsOn rules data
  | .all rules, data => allHoldsOn rules data
  | .leaf f thenRules, data =>
      match resolveOffset f.meaning.offset (bytesReader data).size with
      | none => false
      | some offset =>
          matchesLeaf regex (bytesReader data) offset f.meaning
            ((thenHoldsOn thenRules).map (fun holds => holds data)) (thenHoldsOn thenRules)

def anyHoldsOn : List SourceRule → Bytes → Bool
  | [], _ => false
  | rule :: rules, data => rule.holdsOn data || anyHoldsOn rules data

def allHoldsOn : List SourceRule → Bytes → Bool
  | [], _ => true
  | rule :: rules, data => rule.holdsOn data && allHoldsOn rules data

def thenHoldsOn : Option (List SourceRule) → Option (Bytes → Bool)
  | none => none
  | some rules => some fun data => allHoldsOn rules data

end

variable (r : Reader)

mutual

/-- A rule of the source holds of what a reader shows; the rules nested in `xor` see the decrypted
bytes. -/
def SourceRule.holds : SourceRule → Bool
  | .any rules => anyHolds rules
  | .all rules => allHolds rules
  | .leaf f thenRules =>
      match resolveOffset f.meaning.offset r.size with
      | none => false
      | some offset =>
          matchesLeaf regex r offset f.meaning (thenHolds thenRules) (thenHoldsOn regex thenRules)

def anyHolds : List SourceRule → Bool
  | [] => false
  | rule :: rules => rule.holds || anyHolds rules

def allHolds : List SourceRule → Bool
  | [] => true
  | rule :: rules => rule.holds && allHolds rules

def thenHolds : Option (List SourceRule) → Option Bool
  | none => none
  | some rules => some (allHolds rules)

end

/-- A `detect` value of the source holds. -/
def SourceDetect.holds : SourceDetect → Bool
  | .list rules | .all rules => allHolds regex r rules
  | .one f thenRules => (SourceRule.leaf f thenRules).holds regex r
  | .any rules => anyHolds regex r rules

end

/-! ## The compiled rule of a source -/

mutual

/-- The rule of a source, block by block. -/
def SourceRule.rule : SourceRule → Rule
  | .any rules => .any (rulesOf rules)
  | .all rules => .all (rulesOf rules)
  | .leaf f thenRules => .leaf f.meaning (thenOf thenRules)

def rulesOf : List SourceRule → List Rule
  | [] => []
  | rule :: rules => rule.rule :: rulesOf rules

def thenOf : Option (List SourceRule) → Option (List Rule)
  | none => none
  | some rules => some (rulesOf rules)

end

def SourceDetect.compiled : SourceDetect → Detect
  | .list rules | .all rules => .all (rulesOf rules)
  | .one f thenRules => .all [(SourceRule.leaf f thenRules).rule]
  | .any rules => .any (rulesOf rules)

section

variable (regex : RegexMatch)

mutual

theorem matchRuleOnBytes_rule (data : Bytes) :
    ∀ src : SourceRule, matchRuleOnBytes regex src.rule data = src.holdsOn regex data
  | .any rules => anyOnBytes_rulesOf data rules
  | .all rules => allOnBytes_rulesOf data rules
  | .leaf f thenRules => by
      have hthen := thenOnBytes_thenOf thenRules
      cases hoff : resolveOffset f.meaning.offset (bytesReader data).size with
      | none => simp only [SourceRule.rule, matchRuleOnBytes, SourceRule.holdsOn, hoff]
      | some offset => simp only [SourceRule.rule, matchRuleOnBytes, SourceRule.holdsOn, hoff, hthen]

theorem anyOnBytes_rulesOf (data : Bytes) :
    ∀ rules : List SourceRule, anyOnBytes regex (rulesOf rules) data = anyHoldsOn regex rules data
  | [] => rfl
  | rule :: rules => by
      rw [rulesOf, anyOnBytes, anyHoldsOn, matchRuleOnBytes_rule data rule,
        anyOnBytes_rulesOf data rules]

theorem allOnBytes_rulesOf (data : Bytes) :
    ∀ rules : List SourceRule, allOnBytes regex (rulesOf rules) data = allHoldsOn regex rules data
  | [] => rfl
  | rule :: rules => by
      rw [rulesOf, allOnBytes, allHoldsOn, matchRuleOnBytes_rule data rule,
        allOnBytes_rulesOf data rules]

theorem thenOnBytes_thenOf : ∀ thenRules : Option (List SourceRule),
    thenOnBytes regex (thenOf thenRules) = thenHoldsOn regex thenRules
  | none => rfl
  | some rules => by
      rw [thenOf, thenOnBytes, thenHoldsOn]
      exact congrArg some (funext fun data => allOnBytes_rulesOf data rules)

end

variable (r : Reader)

mutual

/-- The evaluator of compiled rules holds where the source does. -/
theorem matchesRuleDyn_rule :
    ∀ src : SourceRule, matchesRuleDyn regex r src.rule = src.holds regex r
  | .any rules => anyDyn_rulesOf rules
  | .all rules => allDyn_rulesOf rules
  | .leaf f thenRules => by
      have hthen := thenDyn_thenOf thenRules
      have hxor := thenOnBytes_thenOf regex thenRules
      cases hoff : resolveOffset f.meaning.offset r.size with
      | none => simp only [SourceRule.rule, matchesRuleDyn, SourceRule.holds, hoff]
      | some offset => simp only [SourceRule.rule, matchesRuleDyn, SourceRule.holds, hoff, hthen, hxor]

theorem anyDyn_rulesOf :
    ∀ rules : List SourceRule, anyDyn regex r (rulesOf rules) = anyHolds regex r rules
  | [] => rfl
  | rule :: rules => by
      rw [rulesOf, anyDyn, anyHolds, matchesRuleDyn_rule rule, anyDyn_rulesOf rules]

theorem allDyn_rulesOf :
    ∀ rules : List SourceRule, allDyn regex r (rulesOf rules) = allHolds regex r rules
  | [] => rfl
  | rule :: rules => by
      rw [rulesOf, allDyn, allHolds, matchesRuleDyn_rule rule, allDyn_rulesOf rules]

theorem thenDyn_thenOf : ∀ thenRules : Option (List SourceRule),
    thenDyn regex r (thenOf thenRules) = thenHolds regex r thenRules
  | none => rfl
  | some rules => by rw [thenOf, thenDyn, thenHolds, allDyn_rulesOf rules]

end

theorem matchesDetectDyn_compiled (src : SourceDetect) :
    matchesDetectDyn regex r src.compiled = src.holds regex r := by
  cases src with
  | list rules => exact allDyn_rulesOf regex r rules
  | all rules => exact allDyn_rulesOf regex r rules
  | any rules => exact anyDyn_rulesOf regex r rules
  | one f thenRules =>
      show (matchesRuleDyn regex r (SourceRule.leaf f thenRules).rule && true) = _
      rw [Bool.and_true, matchesRuleDyn_rule]
      rfl

end

/-! ## Reading back what is written -/

theorem get?_append (d e : Metadata) (key : String) :
    Dict.get? (d ++ e) key = (d.get? key).or (e.get? key) := by
  induction d with
  | nil => rfl
  | cons first rest ih =>
      obtain ⟨k, v⟩ := first
      rw [List.cons_append, Dict.get?_cons, Dict.get?_cons]
      split_ifs
      · rfl
      · exact ih

theorem get?_optionalField (key key' : String) (value : Option Yaml) :
    Dict.get? (optionalField key value) key' = if key = key' then value else none := by
  cases value with
  | none => simp [optionalField]
  | some value => rw [optionalField, Dict.get?_cons, Dict.get?_nil]

theorem get?_normalizeFields (path : List String) (entries : Metadata) (key : String) :
    Dict.get? (normalizeFields path entries) key = (entries.get? key).map (normalizeEach path key) := by
  induction entries with
  | nil => rfl
  | cons first rest ih =>
      obtain ⟨k, v⟩ := first
      rw [normalizeFields, Dict.get?_cons, Dict.get?_cons]
      split_ifs with hkey
      · rw [← hkey]
        rfl
      · exact ih

theorem get?_decodeFields (entries : Metadata) (key : String) :
    Dict.get? (decodeFields entries) key = (entries.get? key).map decodeList := by
  induction entries with
  | nil => rfl
  | cons first rest ih =>
      obtain ⟨k, v⟩ := first
      rw [decodeFields, Dict.get?_cons, Dict.get?_cons]
      split_ifs
      · rfl
      · exact ih

/-- The value of a rule as it is compiled. -/
def SourceValue.normalized (typ : String) : SourceValue → Yaml
  | .int n => .int n
  | .str text => if typ = "string" then .list (text.toList.map fun c => .int c.toNat) else .str text

theorem normalizeValue_yaml (typ : String) {v : SourceValue} (h : v.Fits) :
    normalizeValue (.str typ) v.yaml = .ok (v.normalized typ) := by
  cases v with
  | int n => simp [SourceValue.yaml, SourceValue.normalized, normalizeValue]
  | str text =>
      by_cases htyp : typ = "string"
      · subst htyp
        have hall : text.toList.all (fun c => decide (c.toNat < 256)) = true :=
          List.all_eq_true.mpr fun c hc => decide_eq_true (h c hc)
        simp only [SourceValue.yaml, SourceValue.normalized, normalizeValue, hall, if_true]
      · simp [SourceValue.yaml, SourceValue.normalized, normalizeValue, htyp]

theorem decodeI64_int {n : Int} (h : -2 ^ 63 ≤ n ∧ n < 2 ^ 63) :
    decodeI64 (.int n) = some (Int64.ofInt n) := by
  rw [decodeI64, if_pos h]

theorem decodeI64_of_le {n : Int} (h : 2 ^ 63 ≤ n) : decodeI64 (.int n) = none := by
  rw [decodeI64, if_neg fun hand => absurd hand.2 (Int.not_lt.mpr h)]

theorem decodeU64_int {n : Int} (h : 0 ≤ n ∧ n < 2 ^ 64) :
    decodeU64 (.int n) = some (UInt64.ofNat n.toNat) := by
  rw [decodeU64, if_pos h]

theorem decodeU32_int {n : Int} (h : 0 ≤ n ∧ n < 2 ^ 32) :
    decodeU32 (.int n) = some (UInt32.ofNat n.toNat) := by
  rw [decodeU32, if_pos h]

theorem decode_latin1 {cs : List Char} (h : ∀ c ∈ cs, c.toNat < 256) :
    (cs.map fun c => Yaml.int c.toNat).mapM decodeI64 = some (cs.map fun c => Int64.ofInt c.toNat) := by
  induction cs with
  | nil => rfl
  | cons c rest ih =>
      have hc := h c List.mem_cons_self
      rw [List.map_cons, List.mapM_cons, decodeI64_int ⟨by omega, by omega⟩,
        ih fun c' hc' => h c' (List.mem_cons_of_mem _ hc')]
      rfl

theorem decodeValue_normalized (typ : String) {v : SourceValue} (h : v.Fits) :
    decodeValue (v.normalized typ) = some (v.meaning typ) := by
  cases v with
  | int n =>
      obtain ⟨hlow, hhigh⟩ := h
      rw [SourceValue.normalized, SourceValue.meaning]
      unfold decodeValue
      by_cases hn : n < 2 ^ 63
      · rw [decodeI64_int ⟨hlow, hn⟩, if_pos hn]
        rfl
      · rw [decodeI64_of_le (Int.not_lt.mp hn), decodeU64_int ⟨by omega, hhigh⟩, if_neg hn]
        rfl
  | str text =>
      rw [SourceValue.normalized, SourceValue.meaning]
      unfold decodeValue
      by_cases htyp : typ = "string"
      · have hbytes : decodeBytes (.list (text.toList.map fun c => .int c.toNat)) =
            some (text.toList.map fun c => Int64.ofInt c.toNat) := decode_latin1 h
        rw [if_pos htyp, if_pos htyp, hbytes]
        rfl
      · rw [if_neg htyp, if_neg htyp]
        rfl

/-- A field that is copied is read back. -/
theorem decodeField_map {α β : Type} {decode : Yaml → Option β} {write : α → Yaml} {read : α → β}
    {field : Option α} (hnull : ∀ a, write a ≠ .null)
    (h : ∀ a ∈ field, decode (write a) = some (read a)) :
    decodeField decode (field.map write) = some (field.map read) := by
  cases field with
  | none => rfl
  | some a =>
      have ha := h a rfl
      have hne := hnull a
      rw [Option.map_some, Option.map_some]
      cases hw : write a with
      | null => exact absurd hw hne
      | bool b | int n | str s | list items | dict entries =>
          rw [hw] at ha
          show (decode _).map some = _
          rw [ha]
          rfl

/-- The fields of a rule as they are compiled. -/
def SourceLeaf.normalized (f : SourceLeaf) (thenRules : Option (List Yaml)) : Metadata :=
  [("offset", (f.offset.map Yaml.int).getD (.int 0)), ("type", .str f.typ)]
    ++ optionalField "value" (f.value.map (SourceValue.normalized f.typ))
    ++ optionalField "length" (f.length.map .int)
    ++ optionalField "name" (f.name.map .str)
    ++ optionalField "op" (f.op.map .str)
    ++ optionalField "mask" (f.mask.map .int)
    ++ optionalField "algorithm" (f.algorithm.map .str)
    ++ optionalField "key" (f.key.map .str)
    ++ optionalField "then" (thenRules.map .list)

/-- What the compiled fields have under a key. -/
theorem SourceLeaf.get?_normalized (f : SourceLeaf) (thenRules : Option (List Yaml)) :
    let d := f.normalized thenRules
    d.get? "offset" = some (.int (f.offset.getD 0)) ∧ d.get? "type" = some (.str f.typ) ∧
      d.get? "value" = f.value.map (SourceValue.normalized f.typ) ∧
      d.get? "length" = f.length.map .int ∧ d.get? "name" = f.name.map .str ∧
      d.get? "op" = f.op.map .str ∧ d.get? "mask" = f.mask.map .int ∧
      d.get? "algorithm" = f.algorithm.map .str ∧ d.get? "key" = f.key.map .str ∧
      d.get? "then" = thenRules.map .list ∧ d.get? "any" = none ∧ d.get? "all" = none := by
  have hoffset : (f.offset.map Yaml.int).getD (.int 0) = .int (f.offset.getD 0) := by
    cases f.offset <;> rfl
  simp only [SourceLeaf.normalized, hoffset, get?_append, get?_optionalField, Dict.get?_cons, Dict.get?_nil]
  simp

theorem decodeLeaf_normalized {f : SourceLeaf} (h : f.Fits) (written : Option (List Yaml))
    (thenRules : Option (List Rule)) :
    decodeLeaf (f.normalized written) thenRules = some (.leaf f.meaning thenRules) := by
  obtain ⟨hoffset, htyp, hvalue, hlength, hname, hop, hmask, halgorithm, hkey, -⟩ :=
    f.get?_normalized written
  have hstring : ∀ field : Option String,
      decodeField decodeString (field.map .str) = some (field.map id) := fun field =>
    decodeField_map (fun _ => Yaml.noConfusion) fun _ _ => rfl
  have hrange : -2 ^ 63 ≤ f.offset.getD 0 ∧ f.offset.getD 0 < 2 ^ 63 := by
    cases hf : f.offset with
    | none => decide
    | some n => exact h.offset n hf
  have hvalue' : decodeField decodeValue (f.value.map (SourceValue.normalized f.typ)) =
      some (f.value.map (SourceValue.meaning f.typ)) := by
    refine decodeField_map (fun v => ?_) fun v hv => decodeValue_normalized f.typ (h.value v hv)
    cases v with
    | int n => exact Yaml.noConfusion
    | str text =>
        rw [SourceValue.normalized]
        split_ifs <;> exact Yaml.noConfusion
  have hmask' : decodeField decodeU64 (f.mask.map .int) =
      some (f.mask.map fun n => UInt64.ofNat n.toNat) :=
    decodeField_map (fun _ => Yaml.noConfusion) fun n hn => decodeU64_int (h.mask n hn)
  have hlength' : decodeField decodeU32 (f.length.map .int) =
      some (f.length.map fun n => UInt32.ofNat n.toNat) :=
    decodeField_map (fun _ => Yaml.noConfusion) fun n hn => decodeU32_int (h.length n hn)
  simp only [decodeLeaf, hoffset, htyp, hvalue, hlength, hname, hop, hmask, halgorithm, hkey,
    Option.bind_some, decodeI64_int hrange, decodeString, hvalue', hmask', hlength', hstring,
    Option.map_id_fun, id_eq, bind, pure, SourceLeaf.meaning]

/-- A rule with a type is copied, with what its `then` gives. -/
theorem normalizeRule_leaf {f : SourceLeaf} {entries : Metadata} (hw : f.Written entries) (h : f.Fits)
    (path : List String) {thenRules : Option (List Yaml)}
    (hthen : ((entries.get? "then").map (normalizeEach path "then")).mapM id = .ok thenRules) :
    normalizeRule path (.dict entries) = .ok (.dict (f.normalized thenRules)) := by
  have hvalue : (f.value.map SourceValue.yaml).mapM (normalizeValue (.str f.typ)) =
      .ok (f.value.map (SourceValue.normalized f.typ)) := by
    cases hv : f.value with
    | none => rfl
    | some v =>
        have hval := normalizeValue_yaml f.typ (h.value v hv)
        show (normalizeValue (.str f.typ) v.yaml >>= fun b => pure (some b)) = _
        rw [hval]
        rfl
  rw [normalizeRule]
  simp only [get?_normalizeFields, hw.any, hw.all, hw.typ, Option.map_none, hw.value, hvalue, hthen,
    Except.ok_bind, hw.offset, hw.length, hw.name, hw.op, hw.mask, hw.algorithm, hw.key]
  rfl

mutual

/-- **What is read back of a rule is the rule.** -/
theorem compileRule : ∀ (src : SourceRule) (value : Yaml) (path : List String), src.Written value →
    src.Leaves SourceLeaf.Fits →
    ∃ out, normalizeRule path value = .ok out ∧ decodeRule out = some src.rule
  | .any rules, value, path, hwritten, hfits => by
      obtain ⟨entries, items, rfl, ⟨hany, -⟩, hitems⟩ := hwritten
      obtain ⟨outs, hnormalize, hdecode⟩ := compileRules rules items path "any" 0 hitems hfits
      refine ⟨.dict [("any", .list outs)], ?_, ?_⟩
      · rw [normalizeRule]
        simp only [get?_normalizeFields, hany, Option.map_some, normalizeEach, hnormalize]
        rfl
      · show ((some (decodeItems outs)).join.map Rule.any).or _ = _
        rw [hdecode]
        rfl
  | .all rules, value, path, hwritten, hfits => by
      obtain ⟨entries, items, rfl, ⟨hall, hnone⟩, hitems⟩ := hwritten
      have hany := hnone "any" (by decide) (by decide)
      obtain ⟨outs, hnormalize, hdecode⟩ := compileRules rules items path "all" 0 hitems hfits
      refine ⟨.dict [("all", .list outs)], ?_, ?_⟩
      · rw [normalizeRule]
        simp only [get?_normalizeFields, hany, hall, Option.map_some, Option.map_none, normalizeEach,
          hnormalize]
        rfl
      · show ((some (decodeItems outs)).join.map Rule.all).or _ = _
        rw [hdecode]
        rfl
  | .leaf f thenRules, value, path, hwritten, hfits => by
      obtain ⟨entries, rfl, hleaf, hthen⟩ := hwritten
      obtain ⟨hf, hnested⟩ := hfits
      cases thenRules with
      | none =>
          have hnone : Dict.get? entries "then" = none := hthen
          refine ⟨_, @normalizeRule_leaf f entries hleaf hf path none (by rw [hnone]; rfl), ?_⟩
          obtain ⟨-, -, -, -, -, -, -, -, -, hthen', hany, hall⟩ := f.get?_normalized none
          rw [decodeRule, get?_decodeFields, get?_decodeFields, get?_decodeFields, hany, hall, hthen']
          exact decodeLeaf_normalized hf none none
      | some rules =>
          obtain ⟨items, hsome, hitems⟩ := hthen
          obtain ⟨outs, hnormalize, hdecode⟩ := compileRules rules items path "then" 0 hitems hnested
          refine ⟨_, @normalizeRule_leaf f entries hleaf hf path (some outs) ?_, ?_⟩
          · rw [hsome]
            show (normalizeItems path "then" 0 items >>= fun b => pure (some b)) = _
            rw [hnormalize]
            rfl
          · obtain ⟨-, -, -, -, -, -, -, -, -, hthen', hany, hall⟩ := f.get?_normalized (some outs)
            rw [decodeRule, get?_decodeFields, get?_decodeFields, get?_decodeFields, hany, hall, hthen']
            show (decodeItems outs).bind (fun rules => decodeLeaf _ (some rules)) = _
            rw [hdecode]
            exact decodeLeaf_normalized hf (some outs) (some (rulesOf rules))

theorem compileRules : ∀ (rules : List SourceRule) (items : List Yaml) (path : List String) (label : String)
    (i : Nat), writtenAll rules items → leavesAll SourceLeaf.Fits rules →
    ∃ outs, normalizeItems path label i items = .ok outs ∧ decodeItems outs = some (rulesOf rules)
  | [], items, path, label, i, hwritten, _ => by
      obtain rfl : items = [] := hwritten
      exact ⟨[], rfl, rfl⟩
  | rule :: rules, items, path, label, i, hwritten, hfits => by
      obtain ⟨item, rest, rfl, hitem, hrest⟩ := hwritten
      obtain ⟨out, hnormalize, hdecode⟩ := compileRule rule item (path ++ [itemLabel label i]) hitem hfits.1
      obtain ⟨outs, hnormalizes, hdecodes⟩ := compileRules rules rest path label (i + 1) hrest hfits.2
      refine ⟨out :: outs, ?_, ?_⟩
      · rw [normalizeItems, hnormalize, Except.ok_bind, hnormalizes]
        rfl
      · rw [decodeItems, hdecode, hdecodes]
        rfl

end

/-! ## A catalogue -/

/-- There is a rule. -/
def SourceDetect.Nonempty : SourceDetect → Prop
  | .list rules | .all rules | .any rules => rules ≠ []
  | .one _ _ => True

theorem detectBlock_of_rules {key : String} {rules : List SourceRule} {outs : List Yaml}
    (hdecode : decodeItems outs = some (rulesOf rules)) (hne : rules ≠ []) :
    detectBlock key outs = some (.dict [(key, .list outs)]) := by
  refine if_neg ?_
  rintro rfl
  cases rules with
  | nil => exact hne rfl
  | cons rule rest => cases hdecode

/-- A documented `detect` value is compiled and read back as its source. -/
theorem compileDetect_eq (repr : Yaml → String) {src : SourceDetect} {value : Yaml}
    (hwritten : src.Written value) (hfits : src.Leaves SourceLeaf.Fits) (hne : src.Nonempty) :
    compileDetect repr value = .ok (some src.compiled) := by
  cases src with
  | list rules =>
      obtain ⟨items, rfl, hitems⟩ := hwritten
      obtain ⟨outs, hnormalize, hdecode⟩ := compileRules rules items [] "detect" 0 hitems hfits
      have hdetect : normalizeDetect (.list items) = .ok (some (.dict [("all", .list outs)])) := by
        rw [normalizeDetect, normalizeEach, hnormalize, Except.ok_bind, detectBlock_of_rules hdecode hne]
        rfl
      rw [compileDetect, hdetect]
      simp only [decodeDetect, Dict.get?_cons, if_true, Option.bind_some, decodeList, hdecode,
        Option.map_some, Option.some_or, SourceDetect.compiled]
  | all rules =>
      obtain ⟨entries, items, rfl, ⟨hall, -⟩, hitems⟩ := hwritten
      obtain ⟨outs, hnormalize, hdecode⟩ := compileRules rules items [] "detect/all" 0 hitems hfits
      have hdetect : normalizeDetect (.dict entries) = .ok (some (.dict [("all", .list outs)])) := by
        simp only [normalizeDetect, hall, normalizeEach, hnormalize, Except.ok_bind,
          detectBlock_of_rules hdecode hne]
        rfl
      rw [compileDetect, hdetect]
      simp only [decodeDetect, Dict.get?_cons, if_true, Option.bind_some, decodeList, hdecode,
        Option.map_some, Option.some_or, SourceDetect.compiled]
  | any rules =>
      obtain ⟨entries, items, rfl, ⟨hany, hnone⟩, hitems⟩ := hwritten
      have hall := hnone "all" (by decide) (by decide)
      obtain ⟨outs, hnormalize, hdecode⟩ := compileRules rules items [] "detect/any" 0 hitems hfits
      have hdetect : normalizeDetect (.dict entries) = .ok (some (.dict [("any", .list outs)])) := by
        simp only [normalizeDetect, hall, hany, normalizeEach, hnormalize, Except.ok_bind,
          detectBlock_of_rules hdecode hne]
        rfl
      have hother : ("any" : String) ≠ "all" := by decide
      rw [compileDetect, hdetect]
      simp only [decodeDetect, Dict.get?_cons, if_true, if_neg hother, Dict.get?_nil, Option.bind_none,
        Option.bind_some, decodeList, hdecode, Option.map_none, Option.map_some, Option.none_or,
        SourceDetect.compiled]
  | one f thenRules =>
      obtain ⟨out, hnormalize, hdecode⟩ := compileRule (.leaf f thenRules) value ["detect"] hwritten hfits
      obtain ⟨entries, rfl, hleaf, -⟩ := hwritten
      have hdetect : normalizeDetect (.dict entries) = .ok (some (.dict [("all", .list [out])])) := by
        simp only [normalizeDetect, hleaf.all, hleaf.any, hleaf.typ, Option.isSome_some, if_true,
          hnormalize, Except.ok_bind]
        rfl
      rw [compileDetect, hdetect]
      simp only [decodeDetect, Dict.get?_cons, if_true, Option.bind_some, decodeList, decodeItems,
        hdecode, bind, pure, Option.map_some, Option.some_or, SourceDetect.compiled]

/-- Every format of a catalogue has a documented `detect` value, of the given source, and a name
without a NUL. -/
structure Catalogue.Documents (catalogue : Catalogue Yaml) (source : String → SourceDetect) : Prop where
  written : ∀ entry ∈ catalogue.paths, ∀ key, formatKey entry.1 = some key →
    ∀ value, entry.2.detect = some value → (source key).Written value
  fits : ∀ entry ∈ catalogue.paths, ∀ key, formatKey entry.1 = some key →
    ∀ value, entry.2.detect = some value → (source key).Leaves SourceLeaf.Fits
  nonempty : ∀ entry ∈ catalogue.paths, ∀ key, formatKey entry.1 = some key →
    ∀ value, entry.2.detect = some value → (source key).Nonempty
  nul : ∀ entry ∈ catalogue.paths, ∀ key, formatKey entry.1 = some key → hasNul key = false

/-- The compiled entry of a path. -/
def compiledEntry (source : String → SourceDetect) (entry : String × Meta Yaml) :
    Option (String × Detect × Int) :=
  match formatKey entry.1, entry.2.detect with
  | some key, some _ => some (key, (source key).compiled, entry.2.priority)
  | _, _ => none

theorem compileEntry_eq (repr : Yaml → String) {catalogue : Catalogue Yaml}
    {source : String → SourceDetect} (h : catalogue.Documents source) {entry : String × Meta Yaml}
    (hentry : entry ∈ catalogue.paths) :
    compileEntry (compileDetect repr) entry = .ok (compiledEntry source entry) := by
  unfold compileEntry compiledEntry
  cases hkey : formatKey entry.1 with
  | none => rfl
  | some key =>
      cases hdetect : entry.2.detect with
      | none => rfl
      | some value =>
          have hcompiled := compileDetect_eq repr (h.written entry hentry key hkey value hdetect)
            (h.fits entry hentry key hkey value hdetect) (h.nonempty entry hentry key hkey value hdetect)
          simp only [hcompiled]

/-- **Compiled rules mean what their source says**: a catalogue of documented formats compiles, and
whatever the order in which the database lists them, it loads and evaluates each format on every
image as its source. -/
theorem compiled_means_source (repr : Yaml → String) (catalogue : Catalogue Yaml)
    (source : String → SourceDetect) (h : catalogue.Documents source) :
    ∃ compiled, compileFormats (compileDetect repr) catalogue = .ok compiled ∧
      ∀ order, order.Perm compiled → fromSlice order = .ok order ∧
        ∀ entry ∈ catalogue.paths, ∀ key, formatKey entry.1 = some key → entry.2.detect ≠ none →
          ∃ detect, Dict.get? order key = some detect ∧
            ∀ regex reader, matchesDetectDyn regex reader detect = (source key).holds regex reader := by
  have hentries : catalogue.paths.mapM (compileEntry (compileDetect repr)) =
      .ok (catalogue.paths.map (compiledEntry source)) :=
    List.mapM_eq_map fun entry hentry => compileEntry_eq repr h hentry
  obtain ⟨compiled, hcompiled⟩ : ∃ compiled, compileFormats (compileDetect repr) catalogue = .ok compiled := by
    rw [compileFormats, hentries]
    exact ⟨_, rfl⟩
  have hnodup := compileFormats_nodup hcompiled
  -- an entry of the database is the compiled entry of a path
  have hmem : ∀ key detect, (key, detect) ∈ compiled ↔
      ∃ entry ∈ catalogue.paths, ∃ priority, compiledEntry source entry = some (key, detect, priority) := by
    intro key detect
    rw [compileFormats, hentries] at hcompiled
    obtain rfl := Except.ok.inj hcompiled
    simp only [List.mem_map, List.mem_insertionSort, List.mem_filterMap, id_eq, exists_eq_right]
    constructor
    · rintro ⟨⟨k, d, priority⟩, ⟨entry, hentry, hsome⟩, heq⟩
      cases heq
      exact ⟨entry, hentry, priority, hsome⟩
    · rintro ⟨entry, hentry, priority, hsome⟩
      exact ⟨_, ⟨entry, hentry, hsome⟩, rfl⟩
  refine ⟨compiled, hcompiled, fun order horder => ⟨?_, ?_⟩⟩
  · refine fromSlice_eq_ok.mpr ⟨fun named hnamed => ?_, rfl⟩
    obtain ⟨entry, hentry, priority, hsome⟩ := (hmem named.1 named.2).mp (horder.subset hnamed)
    unfold compiledEntry at hsome
    split at hsome
    · next key _ hkey _ =>
        obtain ⟨rfl, -⟩ := Prod.mk.inj (Option.some.inj hsome)
        exact h.nul entry hentry _ hkey
    · cases hsome
  · intro entry hentry key hkey hdetect
    obtain ⟨value, hvalue⟩ := Option.ne_none_iff_exists'.mp hdetect
    have hin : (key, (source key).compiled) ∈ order := horder.mem_iff.mpr <|
      (hmem _ _).mpr ⟨entry, hentry, entry.2.priority, by simp only [compiledEntry, hkey, hvalue]⟩
    have hkeys : (Dict.keys order).Nodup := (horder.map Prod.fst).nodup_iff.mpr hnodup
    exact ⟨_, (Dict.get?_eq_some_iff hkeys).mpr hin,
      fun regex reader => matchesDetectDyn_compiled regex reader (source key)⟩

/-! ## Two formats -/

/-- A checksum of `2^32` bytes: its length has more bits than the field. -/
def longSource : SourceDetect := .list [.leaf { typ := "checksum", length := some (2 ^ 32) } none]

def longValue : Yaml := .list [.dict [("type", .str "checksum"), ("length", .int (2 ^ 32))]]

/-- The length fits 64 bits, and the rule is not read back. -/
theorem long_length_not_read :
    longSource.Written longValue ∧ longSource.Leaves SourceLeaf.Wide ∧ longSource.Nonempty ∧
      ∀ repr, ¬ ∃ detect, compileDetect repr longValue = .ok (some detect) := by
  refine ⟨⟨_, rfl, _, [], rfl, ⟨_, rfl, ?_, rfl⟩, rfl⟩, ⟨⟨?_, trivial⟩, trivial⟩, List.cons_ne_nil _ _,
    fun repr => ?_⟩
  · constructor <;> rfl
  · constructor
    · rintro n ⟨⟩
    · rintro n ⟨⟩
    · rintro n hn
      obtain rfl : (2 ^ 32 : Int) = n := Option.some.inj hn
      decide
    · rintro v ⟨⟩
  · rintro ⟨detect, hdetect⟩
    have herror : compileDetect repr longValue =
        .error "data did not match any variant of untagged enum Detect" := rfl
    rw [herror] at hdetect
    cases hdetect

/-- The alternatives of `arc/cpio`. -/
def cpioSource : SourceDetect :=
  .any [.leaf { typ := "string", offset := some 0, value := some (.str "070701"), name := some "newc" } none,
    .leaf { typ := "le16", offset := some 0, value := some (.int 0x71c7), name := some "binary_le" } none]

def cpioCatalogue : Catalogue Yaml where
  paths := [("format/arc/cpio", {
    detect := some (.dict [("any", .list [
      .dict [("offset", .int 0), ("type", .str "string"), ("value", .str "070701"), ("name", .str "newc")],
      .dict [("offset", .int 0), ("type", .str "le16"), ("value", .int 0x71c7),
        ("name", .str "binary_le")]])]) })]
  nodup := List.nodup_singleton _

theorem documents_cpio : cpioCatalogue.Documents fun _ => cpioSource := by
  have hone : ∀ entry ∈ cpioCatalogue.paths, entry = cpioCatalogue.paths.head (List.cons_ne_nil _ _) :=
    fun entry hentry => List.mem_singleton.mp hentry
  constructor
  · intro entry hentry key _ value hvalue
    rw [hone entry hentry] at hvalue
    obtain rfl := Option.some.inj hvalue
    refine ⟨_, _, rfl, ⟨rfl, by decide⟩, _, _, rfl, ⟨_, rfl, ?_, rfl⟩, _, _, rfl, ⟨_, rfl, ?_, rfl⟩, rfl⟩
    · constructor <;> rfl
    · constructor <;> rfl
  · intro entry hentry key _ value hvalue
    refine ⟨⟨?_, trivial⟩, ⟨?_, trivial⟩, trivial⟩
    · constructor
      · rintro n hn
        obtain rfl : (0 : Int) = n := Option.some.inj hn
        decide
      · rintro n ⟨⟩
      · rintro n ⟨⟩
      · rintro v hv
        obtain rfl : SourceValue.str "070701" = v := Option.some.inj hv
        have hall : ("070701".toList.all fun c => decide (c.toNat < 256)) = true := by decide +kernel
        exact fun c hc => of_decide_eq_true (List.all_eq_true.mp hall c hc)
    · constructor
      · rintro n hn
        obtain rfl : (0 : Int) = n := Option.some.inj hn
        decide
      · rintro n ⟨⟩
      · rintro n ⟨⟩
      · rintro v hv
        obtain rfl : SourceValue.int 0x71c7 = v := Option.some.inj hv
        exact ⟨by decide, by decide⟩
  · intro entry hentry key _ value _
    exact List.cons_ne_nil _ _
  · intro entry hentry key hkey
    rw [hone entry hentry] at hkey
    obtain rfl : "arc/cpio" = key := Option.some.inj (hkey.symm.trans (by decide)).symm
    decide

theorem cpio_means_source :
    ∃ compiled, compileFormats (compileDetect fun _ => "") cpioCatalogue = .ok compiled ∧
      ∀ order, order.Perm compiled → fromSlice order = .ok order ∧
        ∃ detect, Dict.get? order "arc/cpio" = some detect ∧
          ∀ regex reader, matchesDetectDyn regex reader detect = cpioSource.holds regex reader := by
  obtain ⟨compiled, hcompiled, horder⟩ :=
    compiled_means_source (fun _ => "") cpioCatalogue (fun _ => cpioSource) documents_cpio
  refine ⟨compiled, hcompiled, fun order hperm => ⟨(horder order hperm).1, ?_⟩⟩
  exact (horder order hperm).2 _ (List.mem_singleton_self _) "arc/cpio" (by decide)
    (Option.some_ne_none _)

end Mountin
