import Mountin.Disk.DmsHeavy

set_option autoImplicit false

/-! # The bit reader of the DMS decompressors

`BitReader` keeps 16 to 23 bits in a buffer of 32. `reader_spec` says that any sequence of calls of
at most 16 bits returns the successive bits of the input, followed by zeros, and that no shift or
subtraction on the way is out of range.
-/

namespace Mountin.Dms

/-- A bit of the input, most significant first; zeros past the end. -/
def inputBit (data : Bytes) (i : Nat) : Bool := (data.getD (i / 8) 0).toNat.testBit (7 - i % 8)

/-- The number in `n` bits of the input. -/
def inputBits (data : Bytes) (pos : Nat) : (n : Nat) → Nat
  | 0 => 0
  | n + 1 => 2 * inputBits data pos n + (inputBit data (pos + n)).toNat

/-- A call of the reader. -/
inductive Call where
  | peek (n : Nat)
  | drop (n : Nat)
  | get (n : Nat)

/-- The argument of a call. -/
def Call.bits : Call → Nat
  | .peek n => n
  | .drop n => n
  | .get n => n

/-- How many bits a call takes from the stream. -/
def Call.taken : Call → Nat
  | .peek _ => 0
  | .drop n => n
  | .get n => n

/-- A call: what it returns, and the reader after it. -/
def BitReader.call (br : BitReader) : Call → Except IoError (Option Nat × BitReader)
  | .peek n => do
      let v ← br.peek n
      return (some v, br)
  | .drop n => do
      let br ← br.drop n
      return (none, br)
  | .get n => do
      let (v, br) ← br.get n
      return (some v, br)

/-- Calls one after the other. -/
def BitReader.calls (br : BitReader) : List Call → Except IoError (List (Option Nat) × BitReader)
  | [] => .ok ([], br)
  | c :: cs => do
      let (v, br) ← br.call c
      let (vs, br) ← br.calls cs
      return (v :: vs, br)

/-- What a call returns at a position of the stream. -/
def Call.value (data : Bytes) (pos : Nat) : Call → Option Nat
  | .peek n => some (inputBits data pos n)
  | .drop _ => none
  | .get n => some (inputBits data pos n)

/-- What calls return from a position on. -/
def values (data : Bytes) : (pos : Nat) → List Call → List (Option Nat)
  | _, [] => []
  | pos, c :: cs => c.value data pos :: values data (pos + c.taken) cs

/-! ## The bits of a number -/

theorem inputBits_lt (data : Bytes) (pos n : Nat) : inputBits data pos n < 2 ^ n := by
  induction n with
  | zero => exact Nat.one_pos
  | succ n ih =>
      have hbit : (inputBit data (pos + n)).toNat ≤ 1 := Bool.toNat_le _
      rw [inputBits, pow_succ]
      omega

theorem testBit_inputBits (data : Bytes) (pos : Nat) {n k : Nat} (hk : k < n) :
    (inputBits data pos n).testBit k = inputBit data (pos + (n - 1 - k)) := by
  induction n generalizing k with
  | zero => exact absurd hk (Nat.not_lt_zero k)
  | succ n ih =>
      have hbit : (inputBit data (pos + n)).toNat < 2 ^ 1 := by
        have hle := Bool.toNat_le (inputBit data (pos + n))
        omega
      rw [inputBits, ← pow_one 2, Nat.testBit_two_pow_mul_add _ hbit]
      cases k with
      | zero =>
          rw [if_pos Nat.one_pos, Nat.add_sub_cancel, Nat.sub_zero]
          cases inputBit data (pos + n) <;> rfl
      | succ k =>
          rw [if_neg (by omega), Nat.add_sub_cancel, ih (by omega),
            show n - 1 - k = n + 1 - 1 - (k + 1) by omega]

/-! ## The calls -/

/-- A reader at a position of the stream of its input. -/
structure BitReader.At (br : BitReader) (data : Bytes) (pos : Nat) : Prop extends br.Filled where
  bits : ∀ i, stream br i = inputBit data (pos + i)

variable {br : BitReader} {data : Bytes} {pos : Nat}

theorem new_at (data : Bytes) : (BitReader.new data).At data 0 where
  toFilled := new_filled data
  bits i := by
    rw [BitReader.new, stream_fill (by decide : 0 < 2 ^ 0), stream, if_neg (Nat.not_lt_zero i),
      Nat.zero_add]
    rfl

theorem BitReader.At.peek (h : br.At data pos) {n : Nat} (hn : n ≤ 16) :
    br.peek n = .ok (inputBits data pos n) := by
  obtain ⟨v, hpeek, hv, hbits⟩ := peek_stream h.toFilled hn
  rw [hpeek]
  refine congrArg Except.ok (Nat.eq_of_testBit_eq fun k => ?_)
  by_cases hk : k < n
  · rw [hbits k hk, h.bits, testBit_inputBits data pos hk]
  · have hpow : 2 ^ n ≤ 2 ^ k := Nat.pow_le_pow_right (by decide) (Nat.not_lt.mp hk)
    rw [Nat.testBit_lt_two_pow (hv.trans_le hpow),
      Nat.testBit_lt_two_pow ((inputBits_lt data pos n).trans_le hpow)]

theorem BitReader.At.drop (h : br.At data pos) {n : Nat} (hn : n ≤ 16) :
    ∃ br', br.drop n = .ok br' ∧ br'.At data (pos + n) := by
  obtain ⟨br', hdrop, hfilled, hstream⟩ := drop_stream h.toFilled hn
  refine ⟨br', hdrop, hfilled, fun i => ?_⟩
  rw [hstream, h.bits, Nat.add_assoc, Nat.add_comm n i]

/-- One call. -/
theorem BitReader.At.call (h : br.At data pos) {c : Call} (hc : c.bits ≤ 16) :
    ∃ br', br.call c = .ok (c.value data pos, br') ∧ br'.At data (pos + c.taken) := by
  cases c with
  | peek n =>
      have hn : n ≤ 16 := hc
      refine ⟨br, ?_, h⟩
      rw [BitReader.call, h.peek hn]
      rfl
  | drop n =>
      have hn : n ≤ 16 := hc
      obtain ⟨br', hdrop, hat⟩ := h.drop hn
      refine ⟨br', ?_, hat⟩
      rw [BitReader.call, hdrop]
      rfl
  | get n =>
      have hn : n ≤ 16 := hc
      obtain ⟨br', hdrop, hat⟩ := h.drop hn
      refine ⟨br', ?_, hat⟩
      rw [BitReader.call, BitReader.get, h.peek hn, Except.ok_bind, hdrop]
      rfl

/-- Calls one after the other. -/
theorem BitReader.At.calls (h : br.At data pos) {cs : List Call} (hcs : ∀ c ∈ cs, c.bits ≤ 16) :
    ∃ br', br.calls cs = .ok (values data pos cs, br') ∧
      br'.At data (pos + (cs.map Call.taken).sum) := by
  induction cs generalizing br pos with
  | nil => exact ⟨br, rfl, h⟩
  | cons c cs ih =>
      rw [List.forall_mem_cons] at hcs
      obtain ⟨br₁, hcall, hat₁⟩ := h.call hcs.1
      obtain ⟨br₂, hcalls, hat₂⟩ := ih hat₁ hcs.2
      refine ⟨br₂, ?_, ?_⟩
      · rw [BitReader.calls, hcall, Except.ok_bind]
        dsimp only
        rw [hcalls]
        rfl
      · rw [List.map_cons, List.sum_cons, ← Nat.add_assoc]
        exact hat₂

/-- **The bit reader**: after any calls of at most 16 bits the buffer holds 16 to 23 bits, and the
calls returned the successive bits of the input and of zeros behind it. -/
theorem reader_spec (data : Bytes) (cs : List Call) (hcs : ∀ c ∈ cs, c.bits ≤ 16) :
    ∃ br, (BitReader.new data).calls cs = .ok (values data 0 cs, br) ∧
      16 ≤ br.bitcount ∧ br.bitcount ≤ 23 ∧ br.bitbuf < 2 ^ br.bitcount ∧
      ∀ i, stream br i = inputBit data ((cs.map Call.taken).sum + i) := by
  obtain ⟨br, hcalls, hat⟩ := (new_at data).calls hcs
  rw [Nat.zero_add] at hat
  exact ⟨br, hcalls, hat.low, Nat.le_of_lt_succ hat.high, hat.buf, hat.bits⟩

/-- Three calls that run past the end of one byte. -/
theorem reader_byte :
    ∃ br, (BitReader.new [0xa5]).calls [.get 3, .drop 2, .peek 16]
      = .ok ([some 5, none, some 0xa000], br) := by
  obtain ⟨br, hcalls, -⟩ := reader_spec [0xa5] [.get 3, .drop 2, .peek 16] (by decide)
  exact ⟨br, hcalls⟩

end Mountin.Dms
