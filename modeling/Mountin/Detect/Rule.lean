import Mountin.Detect.Reader

set_option autoImplicit false

/-! # Detection rules

The rule trees of a compiled format catalogue (`format.rs`) and the checksum registry
(`checksum.rs`) their `checksum` and `xor` leaves refer to. The type and the operator of a
leaf are strings in the catalogue; the strings `detect.rs` distinguishes are constructors
here, any other string is `other`.
-/

namespace Mountin

/-- `enum Value`. -/
inductive Value where
  | int (value : Int64)
  | uint (value : UInt64)
  | bytes (value : List Int64)
  | string (value : String)
  deriving DecidableEq

/-- The `type` of a leaf rule. -/
inductive RuleType where
  | byte | u8 | i8
  | le16 | u16 | i16 | be16
  | le32 | u32 | i32 | be32
  | le64 | u64 | i64 | be64
  | string | ascii | checksum | xor | other
  deriving DecidableEq

/-- The `op` of a leaf rule. -/
inductive Op where
  | eq | ne | and | xor | lt | gt | le | ge | other
  deriving DecidableEq

/-- The fields of `Rule::Leaf` other than `then`. -/
structure Leaf where
  offset : Int64
  typ : RuleType
  value : Option Value := none
  op : Option Op := none
  mask : Option UInt64 := none
  length : Option UInt32 := none
  algorithm : Option String := none
  key : Option String := none
  deriving DecidableEq

/-- `enum Rule`. -/
inductive Rule where
  | any (rules : List Rule)
  | all (rules : List Rule)
  | leaf (fields : Leaf) (thenRules : Option (List Rule))

/-- `enum Detect`. -/
inductive Detect where
  | all (rules : List Rule)
  | any (rules : List Rule)

mutual

/-- The rules of a tree that are evaluated against the same bytes as the tree itself. The
rules nested in an `xor` leaf are left out: they see the decrypted bytes. -/
def Rule.parts : Rule → List Rule
  | .any rules => .any rules :: partsOfList rules
  | .all rules => .all rules :: partsOfList rules
  | .leaf f thenRules =>
      .leaf f thenRules :: (if f.typ = .xor then [] else partsOfThen thenRules)

def partsOfList : List Rule → List Rule
  | [] => []
  | r :: rules => r.parts ++ partsOfList rules

def partsOfThen : Option (List Rule) → List Rule
  | none => []
  | some rules => partsOfList rules

end

theorem Rule.self_mem_parts (r : Rule) : r ∈ r.parts := by
  cases r <;> simp [Rule.parts]

theorem mem_partsOfList {s : Rule} {rules : List Rule} :
    s ∈ partsOfList rules ↔ ∃ r ∈ rules, s ∈ r.parts := by
  induction rules with
  | nil => simp [partsOfList]
  | cons r rules ih => simp [partsOfList, ih]

/-! ## Checksums -/

/-- Byte `i` of a block of which the caller has checked the length. -/
def byteAt (data : Bytes) (i : Nat) : UInt8 := data.getD i 0

/-- ADFS boot block checksum: bytes 510 down to 0, accumulated with carry folding. -/
def adfs (data : Bytes) : Bool :=
  if data.length < 512 then false
  else
    let fold (b : UInt8) (result : UInt32) : UInt32 :=
      (result &&& (0xff : UInt32)) + (result >>> 8) + b.toUInt32
    let result := (data.take 511).foldr fold 0
    (result &&& (0xff : UInt32)).toUInt8 == byteAt data 511

/-- Atari TOS boot sector checksum: the 256 big-endian words sum to `0x1234`. -/
def atariBoot (data : Bytes) : Bool :=
  if data.length < 512 then false
  else
    let sum : UInt16 := (List.range 256).foldl
      (fun sum i =>
        sum + ((byteAt data (2 * i)).toUInt16 <<< 8 ||| (byteAt data (2 * i + 1)).toUInt16)) 0
    sum == 0x1234

/-- ICS checksum: the first 508 bytes, added to "Part", give the little-endian word at 508. -/
def ics (data : Bytes) : Bool :=
  if data.length < 512 then false
  else
    let sum : UInt32 := (data.take 508).foldl (fun sum b => sum + b.toUInt32) 0x50617274
    let stored : UInt32 := UInt32.ofNat (Bytes.le (data.slice 508 4))
    sum == stored

/-- PowerTec checksum; a sector with an MBR signature is rejected. -/
def powertec (data : Bytes) : Bool :=
  if data.length < 512 then false
  else if byteAt data 510 == 0x55 && byteAt data 511 == 0xaa then false
  else
    let checksum : UInt8 := (data.take 511).foldl (fun sum b => sum + b) 0x2a
    checksum == byteAt data 511

/-- `checksum::get`: the validator of a name. -/
def checksumGet (name : String) : Option (Bytes → Bool) :=
  if name = "adfs" then some adfs
  else if name = "atari_boot" then some atariBoot
  else if name = "ics" then some ics
  else if name = "powertec" then some powertec
  else none

/-- `xor_decrypt`: the data xored with the repeated key. -/
def xorDecrypt (data key : Bytes) : Bytes :=
  if key.isEmpty then data
  else data.mapIdx (fun i b => b ^^^ byteAt key (i % key.length))

end Mountin
