import Mountin.Basic.Bytes

set_option autoImplicit false

/-! # BinHex 4.0

`mkbinhex.py`: a run-length code whose marker is 0x90, and a code of six bits a character. The
decoders are those of the format; `binhex_inverts` says that they invert the encoders.
-/

namespace Mountin.BinHex

/-- The repeat marker. -/
def MARKER : UInt8 := 0x90

def BINHEX_CHARS : List Char :=
  "!\"#$%&'()*+,-012345689@ABCDEFGHIJKLMNPQRSTUVXYZ[`abcdefhijklmpqr".toList

/-! ## The encoders -/

/-- The inner loop of `rle_encode`: how often `byte` follows, at most `limit` times. -/
def runLength (byte : UInt8) : (limit : Nat) → Bytes → Nat
  | 0, _ => 0
  | _ + 1, [] => 0
  | limit + 1, b :: rest => if b = byte then runLength byte limit rest + 1 else 0

/-- `rle_encode`. -/
def rleEncode : Bytes → Bytes
  | [] => []
  | byte :: rest =>
      if byte = MARKER then MARKER :: 0x00 :: rleEncode rest
      else
        let count := 1 + runLength byte 254 rest
        (if 3 ≤ count then [byte, MARKER, UInt8.ofNat count] else List.replicate count byte) ++
          rleEncode (rest.drop (count - 1))
termination_by data => data.length
decreasing_by
  · exact Nat.lt_succ_self _
  · simp only [List.length_drop, List.length_cons]
    omega

/-- A character for the lowest six bits. -/
def sextet (v : Nat) : Char := BINHEX_CHARS.getD (v &&& 0x3f) '!'

/-- The inner loop of `binhex_encode`: the characters, and the number of bits that are left. -/
def drain (bits : Nat) (n_bits : Nat) : List Char × Nat :=
  if 6 ≤ n_bits then
    let (chars, left) := drain bits (n_bits - 6)
    (sextet (bits >>> (n_bits - 6)) :: chars, left)
  else ([], n_bits)

/-- The loop of `binhex_encode` over the bytes. -/
def encodeLoop : Bytes → (bits n_bits : Nat) → List Char
  | [], bits, n_bits => if 0 < n_bits then [sextet (bits <<< (6 - n_bits))] else []
  | byte :: rest, bits, n_bits =>
      let bits := bits <<< 8 ||| byte.toNat
      let (chars, n_bits) := drain bits (n_bits + 8)
      chars ++ encodeLoop rest bits n_bits

/-- `binhex_encode`. -/
def binhexEncode (data : Bytes) : List Char := encodeLoop data 0 0

/-! ## The decoders of the format -/

/-- The run-length rule: the marker and a zero are a literal marker, the marker and `n` repeat the
byte before to `n` copies. -/
def rleDecode : (prev : Option UInt8) → Bytes → Option Bytes
  | _, [] => some []
  | prev, byte :: rest =>
      if byte = MARKER then
        match rest with
        | [] => none
        | n :: rest =>
            if n = 0 then (rleDecode (some MARKER) rest).map (MARKER :: ·)
            else do
              let b ← prev
              let more ← rleDecode prev rest
              return List.replicate (n.toNat - 1) b ++ more
      else (rleDecode (some byte) rest).map (byte :: ·)

/-- The `n` lowest bits of a number, from the highest on. -/
def lowBits : (n : Nat) → Nat → List Bool
  | 0, _ => []
  | n + 1, v => v.testBit n :: lowBits n v

/-- The number with these bits. -/
def ofBits (bits : List Bool) : Nat := bits.foldl (fun v b => 2 * v + b.toNat) 0

/-- The bytes in some bits; fewer than eight bits at the end are padding. -/
def bytesOf : List Bool → Bytes
  | b7 :: b6 :: b5 :: b4 :: b3 :: b2 :: b1 :: b0 :: rest =>
      UInt8.ofNat (ofBits [b7, b6, b5, b4, b3, b2, b1, b0]) :: bytesOf rest
  | _ => []

/-- The six bits of a character. -/
def charBits (c : Char) : Option (List Bool) :=
  (BINHEX_CHARS.findIdx? (· = c)).map (lowBits 6)

/-- The characters unpacked. -/
def binhexDecode (chars : List Char) : Option Bytes :=
  (chars.mapM charBits).map fun groups => bytesOf groups.flatten

/-! ## The run-length code -/

theorem runLength_le (byte : UInt8) (limit : Nat) (data : Bytes) :
    runLength byte limit data ≤ limit := by
  induction limit generalizing data with
  | zero => exact Nat.le_refl 0
  | succ limit ih =>
      cases data with
      | nil => exact Nat.zero_le _
      | cons b rest =>
          rw [runLength]
          split_ifs
          · exact Nat.succ_le_succ (ih rest)
          · exact Nat.zero_le _

/-- What follows begins with the run. -/
theorem runLength_spec (byte : UInt8) (limit : Nat) (data : Bytes) :
    List.replicate (runLength byte limit data) byte ++ data.drop (runLength byte limit data) = data := by
  induction limit generalizing data with
  | zero => rfl
  | succ limit ih =>
      cases data with
      | nil => rfl
      | cons b rest =>
          rw [runLength]
          split_ifs with hb
          · rw [List.replicate_succ, List.drop_succ_cons, List.cons_append, ih, hb]
          · rfl

/-- Bytes other than the marker stand for themselves. -/
theorem rleDecode_literal {byte : UInt8} (h : byte ≠ MARKER) (prev : Option UInt8) (rest : Bytes) :
    rleDecode prev (byte :: rest) = (rleDecode (some byte) rest).map (byte :: ·) := by
  rw [rleDecode.eq_def]
  exact if_neg h

theorem rleDecode_replicate {byte : UInt8} (h : byte ≠ MARKER) {data rest : Bytes}
    (hrest : ∀ prev, rleDecode prev data = some rest) (count : Nat) :
    ∀ prev, rleDecode prev (List.replicate count byte ++ data)
      = some (List.replicate count byte ++ rest) := by
  induction count with
  | zero => exact hrest
  | succ count ih =>
      intro prev
      rw [List.replicate_succ, List.cons_append, rleDecode_literal h, ih]
      rfl

/-- **The run-length code** is inverted, whatever byte was before. -/
theorem rleDecode_rleEncode (data : Bytes) :
    ∀ prev, rleDecode prev (rleEncode data) = some data := by
  induction data using rleEncode.induct with
  | case1 =>
      intro prev
      rw [rleEncode]
      rfl
  | case2 rest ih =>
      intro prev
      rw [rleEncode, if_pos rfl, rleDecode, if_pos rfl]
      simp only [if_true, ih, Option.map_some]
  | case3 byte rest hbyte count ih =>
      intro prev
      have hrun := runLength_spec byte 254 rest
      have hle := runLength_le byte 254 rest
      have hcount : count - 1 = runLength byte 254 rest := Nat.add_sub_cancel_left 1 _
      rw [hcount] at ih
      rw [rleEncode, if_neg hbyte]
      dsimp only
      rw [show 1 + runLength byte 254 rest - 1 = runLength byte 254 rest from hcount]
      split_ifs with hthree
      · have hvalue : (UInt8.ofNat (1 + runLength byte 254 rest)).toNat
            = 1 + runLength byte 254 rest := by
          rw [UInt8.toNat_ofNat']
          omega
        have hnonzero : UInt8.ofNat (1 + runLength byte 254 rest) ≠ 0 := by
          intro hzero
          have hval := congrArg UInt8.toNat hzero
          rw [hvalue] at hval
          have h0 : (0 : UInt8).toNat = 0 := rfl
          omega
        simp only [List.cons_append, List.nil_append]
        rw [rleDecode_literal hbyte, rleDecode, if_pos rfl]
        simp only [if_neg hnonzero, ih, Option.bind_eq_bind, Option.bind_some, hvalue]
        rw [Nat.add_sub_cancel_left, hrun]
        rfl
      · have hplain := rleDecode_replicate hbyte ih (1 + runLength byte 254 rest) prev
        rw [hplain, Nat.add_comm, List.replicate_succ, List.cons_append, hrun]

/-! ## The six-bit code -/

theorem length_lowBits (n v : Nat) : (lowBits n v).length = n := by
  induction n with
  | zero => rfl
  | succ n ih => rw [lowBits, List.length_cons, ih]

theorem lowBits_congr {n v w : Nat} (h : ∀ i < n, v.testBit i = w.testBit i) :
    lowBits n v = lowBits n w := by
  induction n with
  | zero => rfl
  | succ n ih => rw [lowBits, lowBits, h n (Nat.lt_succ_self n), ih fun i hi => h i (by omega)]

/-- The high bits first, then the low ones. -/
theorem lowBits_add (m n v : Nat) : lowBits (m + n) v = lowBits m (v >>> n) ++ lowBits n v := by
  induction m with
  | zero => rw [Nat.zero_add]; rfl
  | succ m ih =>
      rw [Nat.succ_add, lowBits, lowBits, ih, Nat.testBit_shiftRight, Nat.add_comm n m]
      rfl

theorem lowBits_shiftLeft (m n v : Nat) :
    lowBits (m + n) (v <<< n) = lowBits m v ++ lowBits n 0 := by
  rw [lowBits_add]
  congr 1
  · refine lowBits_congr fun i _ => ?_
    rw [Nat.testBit_shiftRight, Nat.testBit_shiftLeft]
    simp
  · refine lowBits_congr fun i hi => ?_
    rw [Nat.testBit_shiftLeft, Nat.zero_testBit, decide_eq_false (by omega), Bool.false_and]

/-- A byte behind other bits. -/
theorem lowBits_push (m v : Nat) (byte : UInt8) :
    lowBits (m + 8) (v <<< 8 ||| byte.toNat) = lowBits m v ++ lowBits 8 byte.toNat := by
  have hbyte : byte.toNat < 2 ^ 8 := byte.toNat_lt
  rw [lowBits_add]
  congr 1
  · refine lowBits_congr fun i _ => ?_
    rw [Nat.testBit_shiftRight, Nat.testBit_or, Nat.testBit_shiftLeft,
      Nat.testBit_lt_two_pow (hbyte.trans_le (Nat.pow_le_pow_right (by decide) (by omega)))]
    simp
  · refine lowBits_congr fun i hi => ?_
    rw [Nat.testBit_or, Nat.testBit_shiftLeft, decide_eq_false (by omega), Bool.false_and,
      Bool.false_or]

theorem charBits_table : ∀ v < 64, charBits (BINHEX_CHARS.getD v '!') = some (lowBits 6 v) := by
  decide +kernel

/-- A character gives its six bits back. -/
theorem charBits_sextet (v : Nat) : charBits (sextet v) = some (lowBits 6 v) := by
  have hmask : v &&& 0x3f = v % 64 := Nat.and_two_pow_sub_one_eq_mod v 6
  rw [sextet, hmask, charBits_table _ (Nat.mod_lt v (by decide))]
  refine congrArg some (lowBits_congr fun i hi => ?_)
  rw [show 64 = 2 ^ 6 from rfl, Nat.testBit_mod_two_pow, decide_eq_true hi, Bool.true_and]

/-- The bits of some characters. -/
def Reads (chars : List Char) (bits : List Bool) : Prop :=
  ∃ groups, chars.mapM charBits = some groups ∧ groups.flatten = bits

theorem reads_nil : Reads [] [] := ⟨[], rfl, rfl⟩

theorem Reads.cons {chars : List Char} {bits : List Bool} (h : Reads chars bits) (v : Nat) :
    Reads (sextet v :: chars) (lowBits 6 v ++ bits) := by
  obtain ⟨groups, hgroups, rfl⟩ := h
  refine ⟨lowBits 6 v :: groups, ?_, rfl⟩
  rw [List.mapM_cons, charBits_sextet, hgroups]
  rfl

/-- The inner loop takes the high bits and leaves fewer than six. -/
theorem drain_spec (bits n_bits : Nat) :
    (drain bits n_bits).2 < 6 ∧ (drain bits n_bits).2 ≤ n_bits ∧
      ∀ {chars : List Char} {more : List Bool}, Reads chars (lowBits (drain bits n_bits).2 bits ++ more) →
        Reads ((drain bits n_bits).1 ++ chars) (lowBits n_bits bits ++ more) := by
  induction n_bits using Nat.strongRecOn with
  | ind n_bits ih =>
      rw [drain]
      split_ifs with hsix
      · obtain ⟨hsmall, hle, hreads⟩ := ih (n_bits - 6) (by omega)
        refine ⟨hsmall, hle.trans (Nat.sub_le _ _), fun h => ?_⟩
        have hsplit : lowBits n_bits bits
            = lowBits 6 (bits >>> (n_bits - 6)) ++ lowBits (n_bits - 6) bits := by
          rw [← lowBits_add, Nat.add_sub_cancel' hsix]
        rw [hsplit, List.append_assoc]
        exact (hreads h).cons _
      · exact ⟨by simpa using hsix, Nat.le_refl _, fun h => h⟩

/-- The bits of bytes. -/
def bitsOf (data : Bytes) : List Bool := data.flatMap fun byte => lowBits 8 byte.toNat

/-- The loop writes the bits that are left, those of the bytes, and less than a byte of padding. -/
theorem encodeLoop_spec (data : Bytes) : ∀ (bits : Nat) {n_bits : Nat}, n_bits < 6 →
    ∃ padding : List Bool, padding.length < 8 ∧
      Reads (encodeLoop data bits n_bits) (lowBits n_bits bits ++ (bitsOf data ++ padding)) := by
  induction data with
  | nil =>
      intro bits n_bits hsmall
      rw [encodeLoop]
      split_ifs with hpos
      · refine ⟨lowBits (6 - n_bits) 0, by rw [length_lowBits]; omega, ?_⟩
        have hbits := lowBits_shiftLeft n_bits (6 - n_bits) bits
        rw [show n_bits + (6 - n_bits) = 6 by omega] at hbits
        have hreads := reads_nil.cons (bits <<< (6 - n_bits))
        rw [hbits, List.append_nil] at hreads
        exact hreads
      · obtain rfl : n_bits = 0 := by omega
        exact ⟨[], by decide, reads_nil⟩
  | cons byte rest ih =>
      intro bits n_bits hsmall
      obtain ⟨hleft, -, hdrain⟩ := drain_spec (bits <<< 8 ||| byte.toNat) (n_bits + 8)
      obtain ⟨padding, hpadding, hrest⟩ := ih (bits <<< 8 ||| byte.toNat) hleft
      refine ⟨padding, hpadding, ?_⟩
      have hreads := hdrain hrest
      rw [lowBits_push, List.append_assoc] at hreads
      rw [encodeLoop, bitsOf, List.flatMap_cons, List.append_assoc]
      exact hreads

theorem ofBits_lowBits (byte : UInt8) : UInt8.ofNat (ofBits (lowBits 8 byte.toNat)) = byte := by
  have hall : ∀ v < 256, ofBits (lowBits 8 v) = v := by decide +kernel
  rw [hall _ byte.toNat_lt, UInt8.ofNat_toNat]

/-- Bytes come back from their bits, without the padding. -/
theorem bytesOf_bitsOf (data : Bytes) {padding : List Bool} (h : padding.length < 8) :
    bytesOf (bitsOf data ++ padding) = data := by
  induction data with
  | nil =>
      rw [bitsOf, List.flatMap_nil, List.nil_append, bytesOf]
      intro b7 b6 b5 b4 b3 b2 b1 b0 rest hlong
      rw [hlong] at h
      simp only [List.length_cons] at h
      omega
  | cons byte rest ih =>
      have hbyte := ofBits_lowBits byte
      rw [bitsOf, List.flatMap_cons, List.append_assoc, ← bitsOf]
      simp only [lowBits] at hbyte ⊢
      simp only [List.cons_append, List.nil_append, bytesOf]
      rw [hbyte, ih]

/-- **BinHex** encodings are inverted by the decoders of the format. -/
theorem binhex_inverts (x y : Bytes) :
    rleDecode none (rleEncode x) = some x ∧ binhexDecode (binhexEncode y) = some y := by
  refine ⟨rleDecode_rleEncode x none, ?_⟩
  obtain ⟨padding, hpadding, groups, hgroups, hflatten⟩ :=
    encodeLoop_spec y 0 (by decide : 0 < 6)
  rw [binhexDecode, binhexEncode, hgroups, Option.map_some, hflatten, lowBits, List.nil_append,
    bytesOf_bitsOf y hpadding]

end Mountin.BinHex
