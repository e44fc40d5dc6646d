import Mountin.Basic.Splice
import Mountin.Disk.Fields

set_option autoImplicit false

/-! # DMS images

`dms.rs`: the tracks of an Amiga disk, each packed in one of seven modes whose decompressors share a
text window, Huffman trees and tables from track to track. An index out of range, an unsigned
subtraction or addition that leaves its type, a shift past the width and a walk that does not end
are panics here. The masks of the text window are powers of two less one: `% size` is the mask.
-/

namespace Mountin.Dms

def ADF_SIZE : Nat := 901120
def HEADLEN : Nat := 56
def THLEN : Nat := 20
def TRACK_BUFFER_LEN : Nat := 32000

/-! ## Arrays and `u16` -/

/-- `xs[i]`. -/
def index {α : Type} (xs : List α) (i : Nat) : Except IoError α :=
  match xs[i]? with
  | some x => .ok x
  | none => .error .panic

/-- `xs[i] = x`. -/
def store {α : Type} (xs : List α) (i : Nat) (x : α) : Except IoError (List α) :=
  if i < xs.length then .ok (xs.set i x) else .error .panic

/-- `a + b` of two `u16`. -/
def add16 (a b : Nat) : Except IoError Nat := if a + b < 2 ^ 16 then .ok (a + b) else .error .panic

/-- `a - b` of two unsigned integers. -/
def sub (a b : Nat) : Except IoError Nat := if b ≤ a then .ok (a - b) else .error .panic

/-! ## CRC and checksum -/

def CRC_TABLE : List Nat :=
  [0x0000, 0xC0C1, 0xC181, 0x0140, 0xC301, 0x03C0, 0x0280, 0xC241, 0xC601, 0x06C0, 0x0780, 0xC741,
   0x0500, 0xC5C1, 0xC481, 0x0440, 0xCC01, 0x0CC0, 0x0D80, 0xCD41, 0x0F00, 0xCFC1, 0xCE81, 0x0E40,
   0x0A00, 0xCAC1, 0xCB81, 0x0B40, 0xC901, 0x09C0, 0x0880, 0xC841, 0xD801, 0x18C0, 0x1980, 0xD941,
   0x1B00, 0xDBC1, 0xDA81, 0x1A40, 0x1E00, 0xDEC1, 0xDF81, 0x1F40, 0xDD01, 0x1DC0, 0x1C80, 0xDC41,
   0x1400, 0xD4C1, 0xD581, 0x1540, 0xD701, 0x17C0, 0x1680, 0xD641, 0xD201, 0x12C0, 0x1380, 0xD341,
   0x1100, 0xD1C1, 0xD081, 0x1040, 0xF001, 0x30C0, 0x3180, 0xF141, 0x3300, 0xF3C1, 0xF281, 0x3240,
   0x3600, 0xF6C1, 0xF781, 0x3740, 0xF501, 0x35C0, 0x3480, 0xF441, 0x3C00, 0xFCC1, 0xFD81, 0x3D40,
   0xFF01, 0x3FC0, 0x3E80, 0xFE41, 0xFA01, 0x3AC0, 0x3B80, 0xFB41, 0x3900, 0xF9C1, 0xF881, 0x3840,
   0x2800, 0xE8C1, 0xE981, 0x2940, 0xEB01, 0x2BC0, 0x2A80, 0xEA41, 0xEE01, 0x2EC0, 0x2F80, 0xEF41,
   0x2D00, 0xEDC1, 0xEC81, 0x2C40, 0xE401, 0x24C0, 0x2580, 0xE541, 0x2700, 0xE7C1, 0xE681, 0x2640,
   0x2200, 0xE2C1, 0xE381, 0x2340, 0xE101, 0x21C0, 0x2080, 0xE041, 0xA001, 0x60C0, 0x6180, 0xA141,
   0x6300, 0xA3C1, 0xA281, 0x6240, 0x6600, 0xA6C1, 0xA781, 0x6740, 0xA501, 0x65C0, 0x6480, 0xA441,
   0x6C00, 0xACC1, 0xAD81, 0x6D40, 0xAF01, 0x6FC0, 0x6E80, 0xAE41, 0xAA01, 0x6AC0, 0x6B80, 0xAB41,
   0x6900, 0xA9C1, 0xA881, 0x6840, 0x7800, 0xB8C1, 0xB981, 0x7940, 0xBB01, 0x7BC0, 0x7A80, 0xBA41,
   0xBE01, 0x7EC0, 0x7F80, 0xBF41, 0x7D00, 0xBDC1, 0xBC81, 0x7C40, 0xB401, 0x74C0, 0x7580, 0xB541,
   0x7700, 0xB7C1, 0xB681, 0x7640, 0x7200, 0xB2C1, 0xB381, 0x7340, 0xB101, 0x71C0, 0x7080, 0xB041,
   0x5000, 0x90C1, 0x9181, 0x5140, 0x9301, 0x53C0, 0x5280, 0x9241, 0x9601, 0x56C0, 0x5780, 0x9741,
   0x5500, 0x95C1, 0x9481, 0x5440, 0x9C01, 0x5CC0, 0x5D80, 0x9D41, 0x5F00, 0x9FC1, 0x9E81, 0x5E40,
   0x5A00, 0x9AC1, 0x9B81, 0x5B40, 0x9901, 0x59C0, 0x5880, 0x9841, 0x8801, 0x48C0, 0x4980, 0x8941,
   0x4B00, 0x8BC1, 0x8A81, 0x4A40, 0x4E00, 0x8EC1, 0x8F81, 0x4F40, 0x8D01, 0x4DC0, 0x4C80, 0x8C41,
   0x4400, 0x84C1, 0x8581, 0x4540, 0x8701, 0x47C0, 0x4680, 0x8641, 0x8201, 0x42C0, 0x4380, 0x8341,
   0x4100, 0x81C1, 0x8081, 0x4040]

/-- `crc16`. -/
def crc16 (data : Bytes) : Nat :=
  data.foldl (fun crc b =>
    CRC_TABLE.getD ((crc ^^^ b.toNat) % 256) 0 ^^^ (crc / 256 % 256)) 0

/-- `checksum`. -/
def checksum (data : Bytes) : Nat := (data.map UInt8.toNat).sum % 2 ^ 16

/-! ## The bit reader -/

/-- `BitReader`, with the bytes from its position on. -/
structure BitReader where
  rest : Bytes
  bitbuf : Nat
  bitcount : Nat

/-- A turn of the loop of `fill`: past the end it shifts in zeros. -/
def BitReader.fillByte (br : BitReader) : BitReader :=
  match br.rest with
  | [] => { br with bitbuf := br.bitbuf * 256 % 2 ^ 32, bitcount := br.bitcount + 8 }
  | b :: rest =>
      { rest, bitbuf := (br.bitbuf * 256 + b.toNat) % 2 ^ 32, bitcount := br.bitcount + 8 }

/-- `fill`: at most two turns. -/
def BitReader.fill (br : BitReader) : BitReader :=
  if br.bitcount < 16 then
    let br := br.fillByte
    if br.bitcount < 16 then br.fillByte else br
  else br

/-- `BitReader::new`. -/
def BitReader.new (data : Bytes) : BitReader := BitReader.fill ⟨data, 0, 0⟩

/-- `peek`. -/
def BitReader.peek (br : BitReader) (n : Nat) : Except IoError Nat :=
  if n ≤ br.bitcount ∧ br.bitcount - n < 32 then
    .ok (br.bitbuf / 2 ^ (br.bitcount - n) % 2 ^ 16)
  else .error .panic

/-- `drop`. -/
def BitReader.drop (br : BitReader) (n : Nat) : Except IoError BitReader :=
  if n ≤ br.bitcount ∧ br.bitcount - n < 32 then
    let bitcount := br.bitcount - n
    .ok (BitReader.fill { br with bitcount, bitbuf := br.bitbuf % 2 ^ bitcount })
  else .error .panic

/-- `get`. -/
def BitReader.get (br : BitReader) (n : Nat) : Except IoError (Nat × BitReader) := do
  let v ← br.peek n
  let br ← br.drop n
  return (v, br)

/-! ## Mode 1: RLE -/

/-- The end of the loop of `unpack_rle`: a run of `n` bytes. -/
def rleExtend (target : Nat) (output : Bytes) (fill : UInt8) (n : Nat) : Except IoError Bytes :=
  if target < output.length + n then .error (.invalidData "RLE: output overflow")
  else .ok (output ++ List.replicate n fill)

/-- The loop of `unpack_rle`, up to `target` bytes. -/
def rleLoop (target : Nat) : (input output : Bytes) → Except IoError Bytes
  | [], output =>
      if output.length < target then .error (.invalidData "RLE: unexpected end of input")
      else .ok output
  | a :: input, output =>
      if output.length < target then
        if a ≠ 0x90 then rleLoop target input (output ++ [a])
        else
          match input with
          | [] => .error (.invalidData "RLE: unexpected end of input")
          | b :: input =>
              if b = 0 then rleLoop target input (output ++ [0x90])
              else
                match input with
                | [] => .error (.invalidData "RLE: unexpected end of input")
                | fill :: input =>
                    if b = 0xff then
                      match input with
                      | hi :: lo :: input => do
                          let output ← rleExtend target output fill (hi.toNat * 256 + lo.toNat)
                          rleLoop target input output
                      | _ => .error (.invalidData "RLE: unexpected end of input")
                    else do
                      let output ← rleExtend target output fill b.toNat
                      rleLoop target input output
      else .ok output

/-- `unpack_rle` into an empty output. -/
def unpackRle (input : Bytes) (origsize : Nat) : Except IoError Bytes := rleLoop origsize input []

/-! ## The text window -/

/-- The text window with the position of a mode, a `u16`. -/
structure Window where
  text : List UInt8
  loc : Nat

/-- The next byte of text, in a ring of `size` bytes. -/
def Window.push (size : Nat) (w : Window) (b : UInt8) : Except IoError Window := do
  let text ← store w.text (w.loc % size) b
  return { text, loc := (w.loc + 1) % 2 ^ 16 }

/-- So many bytes of text again, from position `i` on. -/
def Window.copy (size : Nat) : (n i : Nat) → Window → Except IoError (Bytes × Window)
  | 0, _, w => .ok ([], w)
  | n + 1, i, w => do
      let b ← index w.text (i % size)
      let w ← w.push size b
      let (bytes, w) ← Window.copy size n ((i + 1) % 2 ^ 16) w
      return (b :: bytes, w)

/-- What a mode decodes at a time: a byte, or a length and a distance. -/
inductive Token where
  | literal (byte : UInt8)
  | copy (length distance : Nat)

/-- The loop of `unpack_quick`, `unpack_medium`, `unpack_deep` and `unpack_heavy` over an output of
`remaining` bytes: they differ in how they decode a token and in the size of their ring. A token
gives at least a byte. -/
def lzLoop {σ : Type} (decode : σ → BitReader → Except IoError (Token × σ × BitReader))
    (size : Nat) : (fuel remaining : Nat) → σ → BitReader → Window →
      Except IoError (Bytes × σ × Window)
  | _, 0, s, _, w => .ok ([], s, w)
  | 0, _ + 1, _, _, _ => .error .panic
  | fuel + 1, remaining, s, br, w => do
      let (token, s, br) ← decode s br
      match token with
      | .literal b => do
          let w ← w.push size b
          let (output, s, w) ← lzLoop decode size fuel (remaining - 1) s br w
          return (b :: output, s, w)
      | .copy length distance => do
          -- `wrapping_sub(distance).wrapping_sub(1)`
          let i := (w.loc + 2 ^ 17 - distance - 1) % 2 ^ 16
          let (bytes, w) ← Window.copy size (min length remaining) i w
          let (output, s, w) ← lzLoop decode size fuel (remaining - min length remaining) s br w
          return (bytes ++ output, s, w)

/-! ## Mode 2: Quick -/

def quickToken (br : BitReader) : Except IoError (Token × BitReader) := do
  let bit ← br.peek 1
  let br ← br.drop 1
  if bit ≠ 0 then do
    let (c, br) ← br.get 8
    return (.literal (UInt8.ofNat c), br)
  else do
    let (j, br) ← br.get 2
    let (distance, br) ← br.get 8
    return (.copy (j + 2) distance, br)

/-! ## Mode 3: Medium -/

def D_CODE : List Nat :=
  [0x00, 0x00, 0x00, 0x00, 0x00, 0x00, 0x00, 0x00, 0x00, 0x00, 0x00, 0x00, 0x00, 0x00, 0x00, 0x00,
   0x00, 0x00, 0x00, 0x00, 0x00, 0x00, 0x00, 0x00, 0x00, 0x00, 0x00, 0x00, 0x00, 0x00, 0x00, 0x00,
   0x01, 0x01, 0x01, 0x01, 0x01, 0x01, 0x01, 0x01, 0x01, 0x01, 0x01, 0x01, 0x01, 0x01, 0x01, 0x01,
   0x02, 0x02, 0x02, 0x02, 0x02, 0x02, 0x02, 0x02, 0x02, 0x02, 0x02, 0x02, 0x02, 0x02, 0x02, 0x02,
   0x03, 0x03, 0x03, 0x03, 0x03, 0x03, 0x03, 0x03, 0x03, 0x03, 0x03, 0x03, 0x03, 0x03, 0x03, 0x03,
   0x04, 0x04, 0x04, 0x04, 0x04, 0x04, 0x04, 0x04, 0x05, 0x05, 0x05, 0x05, 0x05, 0x05, 0x05, 0x05,
   0x06, 0x06, 0x06, 0x06, 0x06, 0x06, 0x06, 0x06, 0x07, 0x07, 0x07, 0x07, 0x07, 0x07, 0x07, 0x07,
   0x08, 0x08, 0x08, 0x08, 0x08, 0x08, 0x08, 0x08, 0x09, 0x09, 0x09, 0x09, 0x09, 0x09, 0x09, 0x09,
   0x0A, 0x0A, 0x0A, 0x0A, 0x0A, 0x0A, 0x0A, 0x0A, 0x0B, 0x0B, 0x0B, 0x0B, 0x0B, 0x0B, 0x0B, 0x0B,
   0x0C, 0x0C, 0x0C, 0x0C, 0x0D, 0x0D, 0x0D, 0x0D, 0x0E, 0x0E, 0x0E, 0x0E, 0x0F, 0x0F, 0x0F, 0x0F,
   0x10, 0x10, 0x10, 0x10, 0x11, 0x11, 0x11, 0x11, 0x12, 0x12, 0x12, 0x12, 0x13, 0x13, 0x13, 0x13,
   0x14, 0x14, 0x14, 0x14, 0x15, 0x15, 0x15, 0x15, 0x16, 0x16, 0x16, 0x16, 0x17, 0x17, 0x17, 0x17,
   0x18, 0x18, 0x19, 0x19, 0x1A, 0x1A, 0x1B, 0x1B, 0x1C, 0x1C, 0x1D, 0x1D, 0x1E, 0x1E, 0x1F, 0x1F,
   0x20, 0x20, 0x21, 0x21, 0x22, 0x22, 0x23, 0x23, 0x24, 0x24, 0x25, 0x25, 0x26, 0x26, 0x27, 0x27,
   0x28, 0x28, 0x29, 0x29, 0x2A, 0x2A, 0x2B, 0x2B, 0x2C, 0x2C, 0x2D, 0x2D, 0x2E, 0x2E, 0x2F, 0x2F,
   0x30, 0x31, 0x32, 0x33, 0x34, 0x35, 0x36, 0x37, 0x38, 0x39, 0x3A, 0x3B, 0x3C, 0x3D, 0x3E, 0x3F]

def D_LEN : List Nat :=
  [0x03, 0x03, 0x03, 0x03, 0x03, 0x03, 0x03, 0x03, 0x03, 0x03, 0x03, 0x03, 0x03, 0x03, 0x03, 0x03,
   0x03, 0x03, 0x03, 0x03, 0x03, 0x03, 0x03, 0x03, 0x03, 0x03, 0x03, 0x03, 0x03, 0x03, 0x03, 0x03,
   0x04, 0x04, 0x04, 0x04, 0x04, 0x04, 0x04, 0x04, 0x04, 0x04, 0x04, 0x04, 0x04, 0x04, 0x04, 0x04,
   0x04, 0x04, 0x04, 0x04, 0x04, 0x04, 0x04, 0x04, 0x04, 0x04, 0x04, 0x04, 0x04, 0x04, 0x04, 0x04,
   0x04, 0x04, 0x04, 0x04, 0x04, 0x04, 0x04, 0x04, 0x04, 0x04, 0x04, 0x04, 0x04, 0x04, 0x04, 0x04,
   0x05, 0x05, 0x05, 0x05, 0x05, 0x05, 0x05, 0x05, 0x05, 0x05, 0x05, 0x05, 0x05, 0x05, 0x05, 0x05,
   0x05, 0x05, 0x05, 0x05, 0x05, 0x05, 0x05, 0x05, 0x05, 0x05, 0x05, 0x05, 0x05, 0x05, 0x05, 0x05,
   0x05, 0x05, 0x05, 0x05, 0x05, 0x05, 0x05, 0x05, 0x05, 0x05, 0x05, 0x05, 0x05, 0x05, 0x05, 0x05,
   0x05, 0x05, 0x05, 0x05, 0x05, 0x05, 0x05, 0x05, 0x05, 0x05, 0x05, 0x05, 0x05, 0x05, 0x05, 0x05,
   0x06, 0x06, 0x06, 0x06, 0x06, 0x06, 0x06, 0x06, 0x06, 0x06, 0x06, 0x06, 0x06, 0x06, 0x06, 0x06,
   0x06, 0x06, 0x06, 0x06, 0x06, 0x06, 0x06, 0x06, 0x06, 0x06, 0x06, 0x06, 0x06, 0x06, 0x06, 0x06,
   0x06, 0x06, 0x06, 0x06, 0x06, 0x06, 0x06, 0x06, 0x06, 0x06, 0x06, 0x06, 0x06, 0x06, 0x06, 0x06,
   0x07, 0x07, 0x07, 0x07, 0x07, 0x07, 0x07, 0x07, 0x07, 0x07, 0x07, 0x07, 0x07, 0x07, 0x07, 0x07,
   0x07, 0x07, 0x07, 0x07, 0x07, 0x07, 0x07, 0x07, 0x07, 0x07, 0x07, 0x07, 0x07, 0x07, 0x07, 0x07,
   0x07, 0x07, 0x07, 0x07, 0x07, 0x07, 0x07, 0x07, 0x07, 0x07, 0x07, 0x07, 0x07, 0x07, 0x07, 0x07,
   0x08, 0x08, 0x08, 0x08, 0x08, 0x08, 0x08, 0x08, 0x08, 0x08, 0x08, 0x08, 0x08, 0x08, 0x08, 0x08]

/-- `((c << u) | br.get(u)) & 0xff`, with `u` from `D_LEN`. -/
def extendCode (br : BitReader) (c : Nat) : Except IoError (Nat × BitReader) := do
  let u ← index D_LEN c
  let (v, br) ← br.get u
  return ((c * 2 ^ u ||| v) % 256, br)

def mediumToken (br : BitReader) : Except IoError (Token × BitReader) := do
  let bit ← br.peek 1
  let br ← br.drop 1
  if bit ≠ 0 then do
    let (c, br) ← br.get 8
    return (.literal (UInt8.ofNat c), br)
  else do
    let (c, br) ← br.get 8
    let j ← index D_CODE c
    let (c, br) ← extendCode br c
    let br ← br.drop 0
    let high ← index D_CODE c
    let (low, br) ← extendCode br c
    return (.copy (j + 3) (high * 256 ||| low), br)

/-! ## Mode 4: Deep -/

def F : Nat := 60
def THRESHOLD : Nat := 2
def N_CHAR : Nat := 256 - THRESHOLD + F
def T : Nat := N_CHAR * 2 - 1
def R : Nat := T - 1
def MAX_FREQ : Nat := 0x8000

/-- The dynamic Huffman tree: the nodes by frequency, the parent of each and its first son, or its
character from `T` on. -/
structure DeepTabs where
  freq : List Nat
  prnt : List Nat
  son : List Nat

/-- The parent of the sons `i` and, for an inner node, `i + 1`. -/
def setParent (prnt : List Nat) (i parent : Nat) : Except IoError (List Nat) := do
  let prnt ← store prnt i parent
  if i < T then store prnt (i + 1) parent else .ok prnt

/-- The leaf of a character. -/
def initLeaf (tabs : DeepTabs) (i : Nat) : Except IoError DeepTabs := do
  let freq ← store tabs.freq i 1
  let son ← store tabs.son i (i + T)
  let prnt ← store tabs.prnt (i + T) i
  return { freq, prnt, son }

/-- The `k`-th inner node, over the nodes `2 * k` and `2 * k + 1`. -/
def initInner (tabs : DeepTabs) (k : Nat) : Except IoError DeepTabs := do
  let f₀ ← index tabs.freq (2 * k)
  let f₁ ← index tabs.freq (2 * k + 1)
  let f ← add16 f₀ f₁
  let freq ← store tabs.freq (N_CHAR + k) f
  let son ← store tabs.son (N_CHAR + k) (2 * k)
  let prnt ← setParent tabs.prnt (2 * k) (N_CHAR + k)
  return { freq, prnt, son }

/-- `init_deep_tabs`. -/
def initDeepTabs (tabs : DeepTabs) : Except IoError DeepTabs := do
  let tabs ← (List.range N_CHAR).foldlM initLeaf tabs
  let tabs ← (List.range (N_CHAR - 1)).foldlM initInner tabs
  let freq ← store tabs.freq T 0xffff
  let prnt ← store tabs.prnt R 0
  return { tabs with freq, prnt }

/-- A turn of the first loop of `deep_reconst`: a leaf moves to the front, its frequency halved. -/
def reconstLeaf (state : DeepTabs × Nat) (i : Nat) : Except IoError (DeepTabs × Nat) := do
  let (tabs, j) := state
  let son ← index tabs.son i
  if T ≤ son then do
    let f ← index tabs.freq i
    let freq ← store tabs.freq j ((f + 1) / 2)
    let son ← store tabs.son j son
    return ({ tabs with freq, son }, j + 1)
  else return (tabs, j)

/-- `while f < freq[kk] { kk -= 1 }`. -/
def insertionPoint (freq : List Nat) (f : Nat) : (kk : Nat) → Except IoError Nat
  | 0 => do
      let g ← index freq 0
      if f < g then .error .panic else return 0
  | kk + 1 => do
      let g ← index freq (kk + 1)
      if f < g then insertionPoint freq f kk else return kk + 1

/-- `if l > 0 { copy_within(kk..kk + l, kk + 1) }`. -/
def shiftUp (xs : List Nat) (kk l : Nat) : Except IoError (List Nat) :=
  if l = 0 then .ok xs
  else if kk + 1 + l ≤ xs.length then
    .ok (xs.take (kk + 1) ++ xs.slice kk l ++ xs.drop (kk + 1 + l))
  else .error .panic

/-- A turn of the second loop of `deep_reconst`, which inserts the `k`-th inner node. -/
def reconstInner (tabs : DeepTabs) (k : Nat) : Except IoError DeepTabs := do
  let j := N_CHAR + k
  let f₀ ← index tabs.freq (2 * k)
  let f₁ ← index tabs.freq (2 * k + 1)
  let f ← add16 f₀ f₁
  let freq ← store tabs.freq j f
  let kk ← insertionPoint freq f (j - 1)
  let kk := kk + 1
  let freq ← shiftUp freq kk (j - kk)
  let son ← shiftUp tabs.son kk (j - kk)
  let freq ← store freq kk f
  let son ← store son kk (2 * k)
  return { tabs with freq, son }

/-- A turn of the third loop of `deep_reconst`. -/
def reconnect (tabs : DeepTabs) (i : Nat) : Except IoError DeepTabs := do
  let k ← index tabs.son i
  let prnt ← setParent tabs.prnt k i
  return { tabs with prnt }

/-- `deep_reconst`. -/
def deepReconst (tabs : DeepTabs) : Except IoError DeepTabs := do
  let (tabs, _) ← (List.range T).foldlM reconstLeaf (tabs, 0)
  let tabs ← (List.range (N_CHAR - 1)).foldlM reconstInner tabs
  (List.range T).foldlM reconnect tabs

/-- `while k > freq[l + 1] { l += 1 }`. -/
def lastBelow (freq : List Nat) (k : Nat) : (fuel l : Nat) → Except IoError Nat
  | 0, _ => .error .panic
  | fuel + 1, l => do
      let next ← index freq (l + 1)
      if next < k then lastBelow freq k fuel (l + 1) else return l

/-- Exchange the nodes `c` and `l`; the frequency of `c` is `k`. -/
def exchange (tabs : DeepTabs) (c l k : Nat) : Except IoError DeepTabs := do
  let f ← index tabs.freq l
  let freq ← store tabs.freq c f
  let freq ← store freq l k
  let i ← index tabs.son c
  let prnt ← setParent tabs.prnt i l
  let j ← index tabs.son l
  let son ← store tabs.son l i
  let prnt ← setParent prnt j c
  let son ← store son c j
  return { freq, prnt, son }

/-- The body of the loop of `deep_update`: the node `c` counts one more, and moves up where that
disturbs the order. -/
def raise (tabs : DeepTabs) (c : Nat) : Except IoError (DeepTabs × Nat) := do
  let f ← index tabs.freq c
  let k ← add16 f 1
  let freq ← store tabs.freq c k
  let next ← index freq (c + 1)
  if next < k then do
    let l ← lastBelow freq k T (c + 1)
    let tabs ← exchange { tabs with freq } c l k
    return (tabs, l)
  else return ({ tabs with freq }, c)

/-- The loop of `deep_update`, up to the root. -/
def raiseLoop : (fuel : Nat) → DeepTabs → (c : Nat) → Except IoError DeepTabs
  | 0, _, _ => .error .panic
  | fuel + 1, tabs, c => do
      let (tabs, c) ← raise tabs c
      let p ← index tabs.prnt c
      if p = 0 then return tabs else raiseLoop fuel tabs p

/-- The tree that `deep_update` starts from. -/
def reconstIfFull (tabs : DeepTabs) : Except IoError DeepTabs := do
  let f ← index tabs.freq R
  if f = MAX_FREQ then deepReconst tabs else return tabs

/-- `deep_update`. -/
def deepUpdate (tabs : DeepTabs) (c : Nat) : Except IoError DeepTabs := do
  let tabs ← reconstIfFull tabs
  let c ← index tabs.prnt (c + T)
  raiseLoop T tabs c

/-- The walk of `deep_decode_char` down to a leaf. -/
def deepWalk (son : List Nat) : (fuel c : Nat) → BitReader → Except IoError (Nat × BitReader)
  | 0, _, _ => .error .panic
  | fuel + 1, c, br =>
      if c < T then do
        let (bit, br) ← br.get 1
        let c ← index son (c + bit)
        deepWalk son fuel c br
      else .ok (c, br)

/-- `deep_decode_char`. -/
def deepDecodeChar (tabs : DeepTabs) (br : BitReader) :
    Except IoError (Nat × DeepTabs × BitReader) := do
  let c ← index tabs.son R
  let (c, br) ← deepWalk tabs.son T c br
  let c := c - T
  let tabs ← deepUpdate tabs c
  return (c, tabs, br)

/-- `deep_decode_position`. -/
def deepDecodePosition (br : BitReader) : Except IoError (Nat × BitReader) := do
  let (i, br) ← br.get 8
  let c ← index D_CODE i
  let (low, br) ← extendCode br i
  return (c * 256 ||| low, br)

def deepToken (tabs : DeepTabs) (br : BitReader) :
    Except IoError (Token × DeepTabs × BitReader) := do
  let (c, tabs, br) ← deepDecodeChar tabs br
  if c < 256 then return (.literal (UInt8.ofNat c), tabs, br)
  else do
    let (distance, br) ← deepDecodePosition br
    return (.copy (c - 255 + THRESHOLD) distance, tabs, br)

/-! ## Modes 5 and 6: Heavy -/

def NC : Nat := 510
def NPT : Nat := 20
def OFFSET : Nat := 253

/-- `MkTbl`, without its constants. `next` is the field `c` plus one: the next character to look
at. -/
structure MkTbl where
  tbl : List Nat
  left : List Nat
  right : List Nat
  bit : Nat
  depth : Nat
  len : Nat
  next : Nat
  codeword : Nat
  avail : Nat

/-- The entries from `start` to `stop` of a table set to `x`. -/
def fillRange (tbl : List Nat) (start stop x : Nat) : List Nat :=
  tbl.take start ++ List.replicate (stop - start) x ++ tbl.drop stop

/-- `mktbl`: the subtree of the next codeword, with its root. The two lengths of the table are
`tblsiz` and the depth from which the nodes go to `left` and `right`. -/
def mktbl (n : Nat) (blen : List Nat) (tblsiz maxdepth : Nat) :
    (fuel : Nat) → MkTbl → Except IoError (Nat × MkTbl)
  | 0, _ => .error .panic
  | fuel + 1, s =>
      match if s.len = s.depth then ((blen.take n).drop s.next).findIdx? (· = s.len) else none with
      | some k =>
          -- a leaf: the next character with a codeword of this length
          let c := s.next + k
          let codeword := s.codeword + s.bit
          if tblsiz < codeword then .error (.invalidData "Heavy: table overflow")
          else .ok (c, { s with
            next := c + 1, codeword, tbl := fillRange s.tbl s.codeword codeword c })
      | none => do
          -- no character is left: the codewords get longer
          let s := if s.len = s.depth then { s with next := 0, len := s.len + 1, bit := s.bit / 2 }
            else s
          let s := { s with depth := s.depth + 1 }
          if s.depth < maxdepth then do
            let (_, s) ← mktbl n blen tblsiz maxdepth fuel s
            let (_, s) ← mktbl n blen tblsiz maxdepth fuel s
            return (0, { s with depth := s.depth - 1 })
          else if 32 < s.depth then .error (.invalidData "Heavy: table depth exceeded")
          else do
            let i := s.avail
            let s := { s with avail := s.avail + 1 }
            require (i < 2 * n - 1) (.invalidData "Heavy: table avail exceeded")
            let (l, s) ← mktbl n blen tblsiz maxdepth fuel s
            let left ← store s.left i l
            let s := { s with left }
            let (r, s) ← mktbl n blen tblsiz maxdepth fuel s
            let right ← store s.right i r
            let s := { s with right }
            require (s.codeword < tblsiz) (.invalidData "Heavy: codeword overflow")
            if s.depth = maxdepth then do
              let tbl ← store s.tbl s.codeword i
              return (i, { s with tbl, codeword := s.codeword + 1, depth := s.depth - 1 })
            else return (i, { s with depth := s.depth - 1 })

/-- `make_table`: the table, `left` and `right`. -/
def makeTable (nchar : Nat) (bitlen : List Nat) (tablebits : Nat) (table left right : List Nat) :
    Except IoError (List Nat × List Nat × List Nat) := do
  let tblsiz := 2 ^ tablebits
  let state : MkTbl := {
    tbl := table, left, right, bit := tblsiz / 2, depth := 1, len := 1, next := 0, codeword := 0
    avail := nchar }
  let (_, state) ← mktbl nchar bitlen tblsiz (tablebits + 1) 34 state
  let (_, state) ← mktbl nchar bitlen tblsiz (tablebits + 1) 34 state
  require (state.codeword = tblsiz) (.invalidData "Heavy: incomplete table")
  return (state.tbl, state.left, state.right)

/-- The fields of the heavy modes. -/
structure HeavyTabs where
  left : List Nat
  right : List Nat
  cLen : List Nat
  ptLen : List Nat
  cTable : List Nat
  ptTable : List Nat
  lastlen : Nat
  np : Nat

/-- So many code lengths of `bits` bits. -/
def readLens (bits : Nat) : (k : Nat) → BitReader → Except IoError (List Nat × BitReader)
  | 0, br => .ok ([], br)
  | k + 1, br => do
      let (len, br) ← br.get bits
      let (lens, br) ← readLens bits k br
      return (len :: lens, br)

/-- `heavy_read_tree_c`. -/
def heavyReadTreeC (tabs : HeavyTabs) (br : BitReader) : Except IoError (HeavyTabs × BitReader) := do
  let (n, br) ← br.get 9
  if 0 < n then do
    let (lens, br) ← readLens 5 (min n NC) br
    let cLen := lens ++ List.replicate (NC - n) 0
    let (cTable, left, right) ← makeTable NC cLen 12 tabs.cTable tabs.left tabs.right
    return ({ tabs with cLen, cTable, left, right }, br)
  else do
    let (n, br) ← br.get 9
    return ({ tabs with cLen := List.replicate NC 0, cTable := List.replicate 4096 n }, br)

/-- `heavy_read_tree_p`. -/
def heavyReadTreeP (tabs : HeavyTabs) (br : BitReader) : Except IoError (HeavyTabs × BitReader) := do
  let (n, br) ← br.get 5
  if 0 < n then do
    let (lens, br) ← readLens 4 (min n NPT) br
    let ptLen := lens ++ List.replicate (tabs.np - n) 0 ++ tabs.ptLen.drop (max lens.length tabs.np)
    let (ptTable, left, right) ← makeTable tabs.np ptLen 8 tabs.ptTable tabs.left tabs.right
    return ({ tabs with ptLen, ptTable, left, right }, br)
  else do
    let (n, br) ← br.get 5
    let ptLen := List.replicate tabs.np 0 ++ tabs.ptLen.drop tabs.np
    return ({ tabs with ptLen, ptTable := List.replicate 256 n }, br)

/-- The walk of `heavy_decode_c` and `heavy_decode_p` from the node `j` down to a leaf, a character
below `limit`, by the bits from the mask `m` on. -/
def walkTree (left right : List Nat) (bits limit : Nat) : (fuel m j : Nat) → Except IoError Nat
  | 0, _, _ => .error .panic
  | fuel + 1, m, j => do
      let j ← index (if bits &&& m ≠ 0 then right else left) j
      if j < limit then return j else walkTree left right bits limit fuel (m / 2) j

/-- What `heavy_decode_c` and `heavy_decode_p` share: the table is of `tablebits` bits, and a node
from `limit` on is walked. -/
def decodeSymbol (tabs : HeavyTabs) (table lens : List Nat) (tablebits limit : Nat)
    (br : BitReader) : Except IoError (Nat × BitReader) := do
  let bits ← br.peek tablebits
  let j ← index table bits
  if j < limit then do
    let len ← index lens j
    let br ← br.drop len
    return (j, br)
  else do
    let br ← br.drop tablebits
    let bits ← br.peek 16
    let j ← walkTree tabs.left tabs.right bits limit (2 * NC) 0x8000 j
    let len ← index lens j
    let len ← sub len tablebits
    let br ← br.drop len
    return (j, br)

/-- `heavy_decode_c`. -/
def heavyDecodeC (tabs : HeavyTabs) (br : BitReader) : Except IoError (Nat × BitReader) :=
  decodeSymbol tabs tabs.cTable tabs.cLen 12 NC br

/-- `heavy_decode_p`: the symbol `np - 1` is the last distance again. -/
def heavyDecodeP (tabs : HeavyTabs) (br : BitReader) :
    Except IoError (Nat × HeavyTabs × BitReader) := do
  let (j, br) ← decodeSymbol tabs tabs.ptTable tabs.ptLen 8 tabs.np br
  if j ≠ tabs.np - 1 then
    if 0 < j then do
      let (low, br) ← br.get (j - 1)
      let lastlen := low ||| 2 ^ (j - 1)
      return (lastlen, { tabs with lastlen }, br)
    else return (0, { tabs with lastlen := 0 }, br)
  else return (tabs.lastlen, tabs, br)

def heavyToken (tabs : HeavyTabs) (br : BitReader) :
    Except IoError (Token × HeavyTabs × BitReader) := do
  let (c, br) ← heavyDecodeC tabs br
  if c < 256 then return (.literal (UInt8.ofNat c), tabs, br)
  else do
    let (distance, tabs, br) ← heavyDecodeP tabs br
    return (.copy (c - OFFSET) distance, tabs, br)

/-- The trees that a track of a heavy mode brings with it. -/
def readTrees (tabs : HeavyTabs) (br : BitReader) (flags : Nat) :
    Except IoError (HeavyTabs × BitReader) :=
  if flags &&& 2 ≠ 0 then do
    let (tabs, br) ← heavyReadTreeC tabs br
    heavyReadTreeP tabs br
  else .ok (tabs, br)

/-! ## Tracks -/

/-- `DmsState`. -/
structure DmsState where
  text : List UInt8
  quickTextLoc : Nat
  mediumTextLoc : Nat
  deepTextLoc : Nat
  heavyTextLoc : Nat
  deep : DeepTabs
  initDeep : Bool
  heavy : HeavyTabs

/-- `DmsState::new`. -/
def DmsState.new : DmsState where
  text := List.replicate 0x4000 0
  quickTextLoc := 251
  mediumTextLoc := 0x3fbe
  deepTextLoc := 0x3fc4
  heavyTextLoc := 0
  deep := {
    freq := List.replicate (T + 1) 0, prnt := List.replicate (T + N_CHAR) 0
    son := List.replicate T 0 }
  initDeep := true
  heavy := {
    left := List.replicate (2 * NC - 1) 0, right := List.replicate (2 * NC - 1 + 9) 0
    cLen := List.replicate NC 0, ptLen := List.replicate NPT 0
    cTable := List.replicate 4096 0, ptTable := List.replicate 256 0, lastlen := 0, np := 0 }

/-- `reinit`. -/
def DmsState.reinit (s : DmsState) : DmsState :=
  { s with
    quickTextLoc := 251, mediumTextLoc := 0x3fbe, deepTextLoc := 0x3fc4, heavyTextLoc := 0
    initDeep := true, text := List.replicate 0x3fc8 0 ++ s.text.drop 0x3fc8 }

/-- `unpack_quick` into an output of `n` bytes. -/
def unpackQuick (s : DmsState) (input : Bytes) (n : Nat) : Except IoError (Bytes × DmsState) := do
  let (output, _, w) ← lzLoop (fun (_ : Unit) br => do
      let (token, br) ← quickToken br
      return (token, (), br)) 0x100 n n () (BitReader.new input) ⟨s.text, s.quickTextLoc⟩
  let loc ← add16 w.loc 5
  return (output, { s with text := w.text, quickTextLoc := loc % 0x100 })

/-- `unpack_medium` into an output of `n` bytes. -/
def unpackMedium (s : DmsState) (input : Bytes) (n : Nat) : Except IoError (Bytes × DmsState) := do
  let (output, _, w) ← lzLoop (fun (_ : Unit) br => do
      let (token, br) ← mediumToken br
      return (token, (), br)) 0x4000 n n () (BitReader.new input) ⟨s.text, s.mediumTextLoc⟩
  let loc ← add16 w.loc 66
  return (output, { s with text := w.text, mediumTextLoc := loc % 0x4000 })

/-- The tree that `unpack_deep` starts with. -/
def deepTabsOf (s : DmsState) : Except IoError DeepTabs :=
  if s.initDeep then initDeepTabs s.deep else .ok s.deep

/-- `unpack_deep` into an output of `n` bytes. -/
def unpackDeep (s : DmsState) (input : Bytes) (n : Nat) : Except IoError (Bytes × DmsState) := do
  let deep ← deepTabsOf s
  let (output, deep, w) ←
    lzLoop deepToken 0x4000 n n deep (BitReader.new input) ⟨s.text, s.deepTextLoc⟩
  let loc ← add16 w.loc 60
  return (output, {
    s with text := w.text, deepTextLoc := loc % 0x4000, deep, initDeep := false })

/-- `unpack_heavy` into an output of `n` bytes. -/
def unpackHeavy (s : DmsState) (input : Bytes) (n flags : Nat) :
    Except IoError (Bytes × DmsState) := do
  let np := if flags &&& 8 ≠ 0 then 15 else 14
  let size := if flags &&& 8 ≠ 0 then 0x2000 else 0x1000
  let (heavy, br) ← readTrees { s.heavy with np } (BitReader.new input) flags
  let (output, heavy, w) ← lzLoop heavyToken size n n heavy br ⟨s.text, s.heavyTextLoc⟩
  return (output, { s with text := w.text, heavyTextLoc := w.loc, heavy })

/-- The second pass of the heavy modes, which only some tracks have. -/
def heavySecondPass (tmp : Bytes) (unpklen flags : Nat) : Except IoError Bytes :=
  if flags &&& 4 ≠ 0 then unpackRle tmp unpklen else .ok (tmp.take unpklen)

/-- The modes of `unpack_track`. -/
def unpackMode (s : DmsState) (b1 : Bytes) (pklen2 unpklen cmode flags : Nat) :
    Except IoError (Bytes × DmsState) :=
  match cmode with
  | 0 => .ok (b1.take unpklen, s)
  | 1 => do
      let output ← unpackRle b1 unpklen
      return (output, s)
  | 2 => do
      let (tmp, s) ← unpackQuick s b1 pklen2
      let output ← unpackRle tmp unpklen
      return (output, s)
  | 3 => do
      let (tmp, s) ← unpackMedium s b1 pklen2
      let output ← unpackRle tmp unpklen
      return (output, s)
  | 4 => do
      let (tmp, s) ← unpackDeep s b1 pklen2
      let output ← unpackRle tmp unpklen
      return (output, s)
  | 5 => do
      let (tmp, s) ← unpackHeavy s b1 pklen2 (flags &&& 7)
      let output ← heavySecondPass tmp unpklen flags
      return (output, s)
  | 6 => do
      let (tmp, s) ← unpackHeavy s b1 pklen2 (flags ||| 8)
      let output ← heavySecondPass tmp unpklen flags
      return (output, s)
  | _ => .error (.invalidData s!"DMS: unknown compression mode {cmode}")

/-- `unpack_track`. -/
def unpackTrack (s : DmsState) (b1 : Bytes) (pklen2 unpklen cmode flags : Nat) :
    Except IoError (Bytes × DmsState) := do
  let (output, s) ← unpackMode s b1 pklen2 unpklen cmode flags
  return (output, if flags &&& 1 = 0 then s.reinit else s)

/-! ## Decompression -/

/-- The fields of a track header that `decompress_dms` reads. -/
structure TrackHeader where
  number : Nat
  pklen1 : Nat
  pklen2 : Nat
  unpklen : Nat
  flags : Nat
  cmode : Nat
  usum : Nat
  dcrc : Nat

/-- The track header at a position; nothing at the end of the valid data. -/
def readTrackHeader (data : Bytes) (pos : Nat) : Except IoError (Option TrackHeader) :=
  if data.length < pos + THLEN then .ok none
  else
    let th := data.slice pos THLEN
    if th.slice 0 2 ≠ [0x54, 0x52] then .ok none
    else do
      require (crc16 (th.take (THLEN - 2)) = beField th (THLEN - 2) 2)
        (.invalidData "DMS: track header CRC mismatch")
      return some {
        number := beField th 2 2, pklen1 := beField th 6 2, pklen2 := beField th 8 2
        unpklen := beField th 10 2, flags := beField th 12 1, cmode := beField th 13 1
        usum := beField th 14 2, dcrc := beField th 16 2 }

/-- A track that was unpacked. -/
structure Track where
  header : TrackHeader
  unpacked : Bytes

/-- The loop of `decompress_dms`: the tracks that it unpacks, in the order of the file. A turn
takes a header, so that the length of the file counts the turns. -/
def readTracks (data : Bytes) : (fuel pos : Nat) → DmsState → Except IoError (List Track)
  | 0, _, _ => .error .panic
  | fuel + 1, pos, s => do
      let header ← readTrackHeader data pos
      match header with
      | none => return []
      | some th => do
          let pos := pos + THLEN
          require (th.pklen1 ≤ TRACK_BUFFER_LEN ∧ th.pklen2 ≤ TRACK_BUFFER_LEN ∧
            th.unpklen ≤ TRACK_BUFFER_LEN) (.invalidData "DMS: track data too large")
          require (pos + th.pklen1 ≤ data.length)
            (.unexpectedEof "DMS: unexpected end of track data")
          let trackData := data.slice pos th.pklen1
          let pos := pos + th.pklen1
          require (crc16 trackData = th.dcrc) (.invalidData "DMS: track data CRC mismatch")
          if 80 ≤ th.number ∨ th.unpklen ≤ 2048 then readTracks data fuel pos s
          else do
            let (unpacked, s) ← unpackTrack s trackData th.pklen2 th.unpklen th.cmode th.flags
            require (¬ (th.unpklen ≤ unpacked.length ∧
                checksum (unpacked.take th.unpklen) ≠ th.usum))
              (.invalidData "DMS: track checksum mismatch after decompression")
            let tracks ← readTracks data fuel pos s
            return ⟨th, unpacked⟩ :: tracks

/-- The place of a track in the output. -/
def Track.offset (t : Track) : Nat := t.header.number * 11 * 512

/-- What is copied of a track. -/
def Track.copied (t : Track) : Bytes :=
  if t.offset + t.header.unpklen ≤ ADF_SIZE then t.unpacked.take t.header.unpklen else []

/-- The output with a track copied to its place. -/
def place (output : Bytes) (t : Track) : Bytes := output.splice t.offset t.copied

/-- The checks of the file header. -/
def checkHeader (data : Bytes) : Except IoError Unit := do
  require (HEADLEN ≤ data.length) (.unexpectedEof "DMS: file too short for header")
  require (data.slice 0 4 = [0x44, 0x4d, 0x53, 0x21]) (.invalidData "DMS: invalid magic")
  require (crc16 (data.slice 4 (HEADLEN - 6)) = beField data (HEADLEN - 2) 2)
    (.invalidData "DMS: header CRC mismatch")
  require (beField data 10 2 &&& 2 = 0) (.unsupported "DMS: encrypted archives not supported")
  require (beField data 50 2 ≠ 7) (.invalidData "DMS: FMS archives not supported")

/-- The tracks of a file. -/
def tracksOf (data : Bytes) : Except IoError (List Track) := do
  checkHeader data
  readTracks data (data.length + 1) HEADLEN DmsState.new

/-- `decompress_dms`: the loop does not read its output, so that the tracks are copied after it. -/
def decompressDms (data : Bytes) : Except IoError Bytes := do
  let tracks ← tracksOf data
  return tracks.foldl place (List.replicate ADF_SIZE 0)

end Mountin.Dms
