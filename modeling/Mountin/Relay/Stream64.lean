import Mathlib.Data.List.TakeWhile
import Mountin.Relay.Base64

set_option autoImplicit false

/-! # The relay

`stream64.c` relays the output of a child as records, one for each read, over a stream of lines, and
turns the records of the other side into the input of the child. A read returns what is there, so
that any fragments of the data can arrive; the lines are put together byte by byte.

* `encodeOutput`, `decodeInput` : the two loops over the reads that they make.
* `decodeLines_prefix`, `decodeLines_eq` : what reaches the child are the payloads of lines, in order.
* `stream64_lossless` : what one relay sends is what the other one passes on.
-/

namespace Mountin.Stream64

/-- `'\\n'`, `'\\r'`. -/
def NEWLINE : UInt8 := 0x0a
def RETURN : UInt8 := 0x0d

/-- `RECORD_PREFIX`: "Q9:". -/
def RECORD_PREFIX : Bytes := [0x51, 0x39, 0x3a]

/-- `READY_RECORD`: "Q9!" and the end of a line. -/
def READY_RECORD : Bytes := [0x51, 0x39, 0x21, NEWLINE]

/-- `RECORD_LIMIT`. -/
def RECORD_LIMIT : Nat := 16 * 1024 * 1024

/-! ## The output of the child -/

/-- What `read` returns: bytes, an interruption (`EINTR`), or a failure. The end of a list of them is
the end of the stream. -/
inductive Read where
  | data (bytes : Bytes)
  | interrupted
  | failed

/-- A record. -/
def recordOf (fragment : Bytes) : Bytes := RECORD_PREFIX ++ encode64 fragment ++ [NEWLINE]

/-- `encode_output`: what it writes to the stream. -/
def encodeOutput : List Read → Bytes
  | [] => []
  | .data fragment :: reads => recordOf fragment ++ encodeOutput reads
  | .interrupted :: reads => encodeOutput reads
  | .failed :: _ => []

/-- The bytes that were read. -/
def dataOf : List Read → Bytes
  | [] => []
  | .data fragment :: reads => fragment ++ dataOf reads
  | .interrupted :: reads => dataOf reads
  | .failed :: _ => []

/-! ## The input of the child -/

/-- What `read` of one byte returns. -/
inductive ReadByte where
  | byte (b : UInt8)
  | interrupted
  | failed

/-- `read_record`: the line, the capacity of its buffer, and the reads to come; `none` where it
returns no line. `record` is what the buffer holds. -/
def readRecord : List ReadByte → (record : Bytes) → (capacity : Nat) →
    Option (Bytes × Nat × List ReadByte)
  | [], _, _ => none
  | .failed :: _, _, _ => none
  | .interrupted :: reads, record, capacity => readRecord reads record capacity
  | .byte b :: reads, record, capacity =>
      if b = NEWLINE then some (record, capacity, reads)
      else if b = RETURN then readRecord reads record capacity
      else if record.length + 1 ≥ capacity then
        if capacity * 2 > RECORD_LIMIT then none
        else readRecord reads (record ++ [b]) (capacity * 2)
      else readRecord reads (record ++ [b]) capacity

/-- What `decode_input` writes to the child for a line. A line is a string of C: it ends before its
first zero byte. -/
def linePayload (record : Bytes) : Bytes :=
  if RECORD_PREFIX.isPrefixOf record then
    let encoded := (record.drop RECORD_PREFIX.length).takeWhile (· ≠ 0)
    let decoded := decode64 encoded
    if decoded.ok then decoded.written else []
  else []

theorem length_readRecord {reads rest : List ReadByte} {record line : Bytes} {capacity next : Nat}
    (h : readRecord reads record capacity = some (line, next, rest)) :
    rest.length < reads.length := by
  fun_induction readRecord reads record capacity with
  | case1 => cases h
  | case2 => cases h
  | case3 _ _ _ ih => exact (ih h).trans (Nat.lt_succ_self _)
  | case4 reads =>
      obtain rfl : reads = rest := (Prod.mk.inj (Prod.mk.inj (Option.some.inj h)).2).2
      exact Nat.lt_succ_self _
  | case5 _ _ _ _ ih => exact (ih h).trans (Nat.lt_succ_self _)
  | case6 => cases h
  | case7 _ _ _ _ _ _ _ _ ih => exact (ih h).trans (Nat.lt_succ_self _)
  | case8 _ _ _ _ _ _ _ ih => exact (ih h).trans (Nat.lt_succ_self _)

/-- The loop of `decode_input`, with the capacity of the buffer. -/
def decodeLines (reads : List ReadByte) (capacity : Nat) : Bytes :=
  match h : readRecord reads [] capacity with
  | none => []
  | some (line, next, rest) => linePayload line ++ decodeLines rest next
termination_by reads.length
decreasing_by exact length_readRecord h

/-- `decode_input`: what it writes to the child. -/
def decodeInput (reads : List ReadByte) : Bytes := decodeLines reads 4096

/-! ## Lines -/

/-- The bytes that arrive before a failure, without carriage returns. -/
def arrived : List ReadByte → Bytes
  | [] => []
  | .failed :: _ => []
  | .interrupted :: reads => arrived reads
  | .byte b :: reads => if b = RETURN then arrived reads else b :: arrived reads

/-- The complete lines of a text; `line` is how the first of them begins. -/
def linesFrom : (line text : Bytes) → List Bytes
  | _, [] => []
  | line, b :: text =>
      if b = NEWLINE then line :: linesFrom [] text else linesFrom (line ++ [b]) text

/-- A line that is read is the next line of what arrives. -/
theorem linesFrom_readRecord {reads rest : List ReadByte} {record line : Bytes} {capacity next : Nat}
    (h : readRecord reads record capacity = some (line, next, rest)) :
    linesFrom record (arrived reads) = line :: linesFrom [] (arrived rest) := by
  fun_induction readRecord reads record capacity with
  | case1 => cases h
  | case2 => cases h
  | case3 _ _ _ ih => exact ih h
  | case4 reads record =>
      obtain ⟨rfl, htail⟩ := Prod.mk.inj (Option.some.inj h)
      obtain rfl : reads = rest := (Prod.mk.inj htail).2
      rw [arrived, if_neg (by decide), linesFrom, if_pos rfl]
  | case5 _ _ _ _ ih =>
      rw [arrived, if_pos rfl]
      exact ih h
  | case6 => cases h
  | case7 b reads record capacity hb hreturn _ _ ih =>
      rw [arrived, if_neg hreturn, linesFrom, if_neg hb]
      exact ih h
  | case8 b reads record capacity hb hreturn _ ih =>
      rw [arrived, if_neg hreturn, linesFrom, if_neg hb]
      exact ih h

theorem prefix_of_linesFrom {record text line : Bytes} {later : List Bytes}
    (h : linesFrom record text = line :: later) : record <+: line := by
  fun_induction linesFrom record text with
  | case1 => cases h
  | case2 record text ih =>
      rw [(List.cons.inj h).1]
  | case3 record b text hb ih => exact (List.prefix_append _ _).trans (ih h)

/-- A buffer that was doubled some times and is within the limit. -/
def Doubled (capacity : Nat) : Prop := ∃ k ≤ 24, capacity = 2 ^ k

theorem Doubled.double {capacity : Nat} (h : Doubled capacity) (hsmall : capacity < 2 ^ 24) :
    Doubled (capacity * 2) ∧ capacity * 2 ≤ RECORD_LIMIT := by
  obtain ⟨k, hk, rfl⟩ := h
  have hlt : k < 24 := (Nat.pow_lt_pow_iff_right (by decide)).mp hsmall
  refine ⟨⟨k + 1, hlt, pow_succ 2 k⟩, ?_⟩
  rw [← pow_succ, show RECORD_LIMIT = 2 ^ 24 by decide]
  exact Nat.pow_le_pow_right (by decide) hlt

/-- A line below the limit is read. -/
theorem exists_readRecord {reads : List ReadByte} {record line : Bytes} {capacity : Nat}
    {later : List Bytes} (hlines : linesFrom record (arrived reads) = line :: later)
    (hline : line.length < RECORD_LIMIT) (hcapacity : Doubled capacity) :
    ∃ next rest, readRecord reads record capacity = some (line, next, rest) ∧ Doubled next := by
  fun_induction readRecord reads record capacity with
  | case1 => cases hlines
  | case2 => cases hlines
  | case3 _ _ _ ih => exact ih hlines hcapacity
  | case4 reads record capacity =>
      rw [arrived, if_neg (by decide), linesFrom, if_pos rfl] at hlines
      exact ⟨capacity, reads, by rw [(List.cons.inj hlines).1], hcapacity⟩
  | case5 _ _ _ _ ih =>
      rw [arrived, if_pos rfl] at hlines
      exact ih hlines hcapacity
  | case6 b reads record capacity hb hreturn hfull hlimit =>
      rw [arrived, if_neg hreturn, linesFrom, if_neg hb] at hlines
      -- the buffer is full before the line has reached the limit
      have hprefix := (prefix_of_linesFrom hlines).length_le
      rw [List.length_append, List.length_singleton] at hprefix
      rw [show RECORD_LIMIT = 2 ^ 24 by decide] at hline
      exact absurd (hcapacity.double (by omega)).2 (Nat.not_le.mpr hlimit)
  | case7 b reads record capacity hb hreturn hfull hlimit ih =>
      rw [arrived, if_neg hreturn, linesFrom, if_neg hb] at hlines
      have hprefix := (prefix_of_linesFrom hlines).length_le
      rw [List.length_append, List.length_singleton] at hprefix
      rw [show RECORD_LIMIT = 2 ^ 24 by decide] at hline
      exact ih hlines (hcapacity.double (by omega)).1
  | case8 b reads record capacity hb hreturn hfull ih =>
      rw [arrived, if_neg hreturn, linesFrom, if_neg hb] at hlines
      exact ih hlines hcapacity

/-- A line that is read is followed by what is left. -/
theorem arrived_readRecord {reads rest : List ReadByte} {record line : Bytes} {capacity next : Nat}
    (h : readRecord reads record capacity = some (line, next, rest)) :
    ∃ text, NEWLINE ∉ text ∧ line = record ++ text ∧ arrived reads = text ++ NEWLINE :: arrived rest := by
  fun_induction readRecord reads record capacity with
  | case1 => cases h
  | case2 => cases h
  | case3 _ _ _ ih => exact ih h
  | case4 reads record =>
      obtain ⟨rfl, htail⟩ := Prod.mk.inj (Option.some.inj h)
      obtain rfl : reads = rest := (Prod.mk.inj htail).2
      exact ⟨[], List.not_mem_nil, (List.append_nil _).symm, by
        rw [arrived, if_neg (by decide), List.nil_append]⟩
  | case5 _ _ _ _ ih =>
      rw [arrived, if_pos rfl]
      exact ih h
  | case6 => cases h
  | case7 b reads record capacity hb hreturn _ _ ih =>
      obtain ⟨text, htext, hline, harrived⟩ := ih h
      refine ⟨b :: text, by rw [List.mem_cons, not_or]; exact ⟨Ne.symm hb, htext⟩, ?_, ?_⟩
      · rw [hline, List.append_assoc, List.singleton_append]
      · rw [arrived, if_neg hreturn, harrived, List.cons_append]
  | case8 b reads record capacity hb hreturn _ ih =>
      obtain ⟨text, htext, hline, harrived⟩ := ih h
      refine ⟨b :: text, by rw [List.mem_cons, not_or]; exact ⟨Ne.symm hb, htext⟩, ?_, ?_⟩
      · rw [hline, List.append_assoc, List.singleton_append]
      · rw [arrived, if_neg hreturn, harrived, List.cons_append]

/-- A line that is read is within the buffer. -/
theorem length_line_lt {reads rest : List ReadByte} {record line : Bytes} {capacity next : Nat}
    (h : readRecord reads record capacity = some (line, next, rest))
    (hrecord : record.length < capacity) (hcapacity : capacity ≤ RECORD_LIMIT) :
    line.length < next ∧ next ≤ RECORD_LIMIT := by
  fun_induction readRecord reads record capacity with
  | case1 => cases h
  | case2 => cases h
  | case3 _ _ _ ih => exact ih h hrecord hcapacity
  | case4 reads record capacity =>
      obtain ⟨rfl, htail⟩ := Prod.mk.inj (Option.some.inj h)
      obtain ⟨rfl, -⟩ := Prod.mk.inj htail
      exact ⟨hrecord, hcapacity⟩
  | case5 _ _ _ _ ih => exact ih h hrecord hcapacity
  | case6 => cases h
  | case7 b reads record capacity hb hreturn hfull hlimit ih =>
      exact ih h (by rw [List.length_append, List.length_singleton]; omega) (Nat.not_lt.mp hlimit)
  | case8 b reads record capacity hb hreturn hfull ih =>
      exact ih h (by rw [List.length_append, List.length_singleton]; omega) hcapacity

/-- What reaches the child are the payloads of lines that arrived, in order, up to the line at which
the loop ends. -/
theorem decodeLines_prefix (reads : List ReadByte) (capacity : Nat) :
    ∃ n, decodeLines reads capacity =
      ((linesFrom [] (arrived reads)).take n).flatMap linePayload := by
  fun_induction decodeLines reads capacity with
  | case1 reads capacity h => exact ⟨0, rfl⟩
  | case2 reads capacity line next rest h ih =>
      obtain ⟨n, hn⟩ := ih
      refine ⟨n + 1, ?_⟩
      rw [linesFrom_readRecord h, List.take_succ_cons, List.flatMap_cons, hn]

/-- What reaches the child are the payloads of all lines, when these are below the limit. -/
theorem decodeLines_eq (reads : List ReadByte) (capacity : Nat) (hcapacity : Doubled capacity)
    (hlines : ∀ line ∈ linesFrom [] (arrived reads), line.length < RECORD_LIMIT) :
    decodeLines reads capacity = (linesFrom [] (arrived reads)).flatMap linePayload := by
  fun_induction decodeLines reads capacity with
  | case1 reads capacity h =>
      rcases hnext : linesFrom [] (arrived reads) with _ | ⟨line, later⟩
      · rfl
      · rw [hnext] at hlines
        obtain ⟨_, _, hread, -⟩ :=
          exists_readRecord hnext (hlines line List.mem_cons_self) hcapacity
        cases h.symm.trans hread
  | case2 reads capacity line next rest h ih =>
      have hnext := linesFrom_readRecord h
      rw [hnext] at hlines ⊢
      rw [List.forall_mem_cons] at hlines
      obtain ⟨_, _, hread, hdoubled⟩ := exists_readRecord hnext hlines.1 hcapacity
      obtain ⟨-, htail⟩ := Prod.mk.inj (Option.some.inj (h.symm.trans hread))
      obtain ⟨rfl, rfl⟩ := Prod.mk.inj htail
      rw [List.flatMap_cons, ih hdoubled hlines.2]

/-! ## What a relay sends -/

theorem linesFrom_line {text : Bytes} (h : NEWLINE ∉ text) (line rest : Bytes) :
    linesFrom line (text ++ [NEWLINE] ++ rest) = (line ++ text) :: linesFrom [] rest := by
  induction text generalizing line with
  | nil => rw [List.nil_append, List.singleton_append, linesFrom, if_pos rfl, List.append_nil]
  | cons b text ih =>
      rw [List.mem_cons, not_or] at h
      rw [List.cons_append, List.cons_append, linesFrom, if_neg (Ne.symm h.1), ih h.2,
        List.append_assoc, List.singleton_append]

/-- The line of a record. -/
def recordLine (fragment : Bytes) : Bytes := RECORD_PREFIX ++ encode64 fragment

theorem newline_notMem_recordLine (fragment : Bytes) : NEWLINE ∉ recordLine fragment := by
  intro h
  rcases List.mem_append.mp h with h | h
  · revert h
    decide
  · exact (visible_of_mem_encode64 h).1 rfl

/-- **The payload of a record is what was read.** -/
theorem linePayload_recordLine {fragment : Bytes} (h : fragment ≠ []) :
    linePayload (recordLine fragment) = fragment := by
  have hprefix : RECORD_PREFIX.isPrefixOf (recordLine fragment) = true :=
    List.isPrefixOf_iff_prefix.mpr (List.prefix_append _ _)
  have hzero : (encode64 fragment).takeWhile (· ≠ 0) = encode64 fragment :=
    List.takeWhile_eq_self_iff.mpr fun b hb => decide_eq_true (visible_of_mem_encode64 hb).2.2
  rw [linePayload, if_pos hprefix, recordLine, List.drop_left, hzero]
  dsimp only
  rw [decode64_encode64 h]
  rfl

/-- The fragments that were read, before a failure. -/
def fragmentsOf : List Read → List Bytes
  | [] => []
  | .data fragment :: reads => fragment :: fragmentsOf reads
  | .interrupted :: reads => fragmentsOf reads
  | .failed :: _ => []

theorem flatten_fragmentsOf (reads : List Read) : (fragmentsOf reads).flatten = dataOf reads := by
  fun_induction fragmentsOf reads with
  | case1 => rfl
  | case2 fragment reads ih => rw [List.flatten_cons, ih, dataOf]
  | case3 reads ih => rw [ih, dataOf]
  | case4 => rfl

theorem linesFrom_encodeOutput (reads : List Read) :
    linesFrom [] (encodeOutput reads) = (fragmentsOf reads).map recordLine := by
  fun_induction fragmentsOf reads with
  | case1 => rfl
  | case2 fragment reads ih =>
      have hnext := linesFrom_line (newline_notMem_recordLine fragment) [] (encodeOutput reads)
      rw [List.nil_append, ih] at hnext
      exact hnext
  | case3 reads ih => rw [encodeOutput, ih]
  | case4 => rfl

theorem mem_of_mem_fragmentsOf {reads : List Read} {fragment : Bytes}
    (h : fragment ∈ fragmentsOf reads) : .data fragment ∈ reads := by
  fun_induction fragmentsOf reads with
  | case1 => cases h
  | case2 first reads ih =>
      rcases List.mem_cons.mp h with rfl | h
      · exact List.mem_cons_self
      · exact List.mem_cons_of_mem _ (ih h)
  | case3 reads ih => exact List.mem_cons_of_mem _ (ih h)
  | case4 => cases h

/-- What `read` into the buffer of `encode_output` can return. -/
def Fits (reads : List Read) : Prop :=
  ∀ fragment, .data fragment ∈ reads → fragment ≠ [] ∧ fragment.length ≤ 4096

theorem flatMap_recordLine {fragments : List Bytes} (h : ∀ fragment ∈ fragments, fragment ≠ []) :
    (fragments.map recordLine).flatMap linePayload = fragments.flatten := by
  induction fragments with
  | nil => rfl
  | cons fragment fragments ih =>
      rw [List.forall_mem_cons] at h
      rw [List.map_cons, List.flatMap_cons, linePayload_recordLine h.1, ih h.2, List.flatten_cons]

/-- What one relay sends, another one passes on. -/
theorem decodeInput_encodeOutput {reads : List Read} (hreads : Fits reads)
    {arrivals : List ReadByte} (h : arrived arrivals = READY_RECORD ++ encodeOutput reads) :
    decodeInput arrivals = dataOf reads := by
  have hlines : linesFrom [] (arrived arrivals) =
      [0x51, 0x39, 0x21] :: (fragmentsOf reads).map recordLine := by
    rw [h, ← linesFrom_encodeOutput]
    have hready : NEWLINE ∉ ([0x51, 0x39, 0x21] : Bytes) := by decide
    exact linesFrom_line hready [] (encodeOutput reads)
  have hfragments : ∀ fragment ∈ fragmentsOf reads, fragment ≠ [] ∧ fragment.length ≤ 4096 :=
    fun fragment hf => hreads fragment (mem_of_mem_fragmentsOf hf)
  have hshort : ∀ line ∈ linesFrom [] (arrived arrivals), line.length < RECORD_LIMIT := by
    rw [hlines, List.forall_mem_cons]
    refine ⟨by decide, fun line hline => ?_⟩
    obtain ⟨fragment, hf, rfl⟩ := List.mem_map.mp hline
    have hsize := (hfragments fragment hf).2
    rw [recordLine, List.length_append, length_encode64, RECORD_LIMIT,
      show RECORD_PREFIX.length = 3 from rfl]
    omega
  rw [decodeInput, decodeLines_eq arrivals 4096 ⟨12, by decide, rfl⟩ hshort, hlines,
    List.flatMap_cons, flatMap_recordLine fun fragment hf => (hfragments fragment hf).1,
    flatten_fragmentsOf]
  rfl

/-- **The relay is lossless.** The payloads of the records that it sends, whatever fragments it reads,
are what it read, and they are what another relay passes on, whatever interrupts the reads of the
bytes. What was encoded is decoded. Only records reach the child: lines with the prefix, as far as
the text behind it is an encoding. And the decoder keeps within its buffer. -/
theorem stream64_lossless :
    (∀ reads, Fits reads →
      (linesFrom [] (encodeOutput reads)).flatMap linePayload = dataOf reads ∧
        ∀ arrivals, arrived arrivals = READY_RECORD ++ encodeOutput reads →
          decodeInput arrivals = dataOf reads) ∧
    (∀ input, input ≠ [] → decode64 (encode64 input) = ⟨input, true⟩) ∧
    (∀ arrivals, ∃ n, decodeInput arrivals =
      ((linesFrom [] (arrived arrivals)).take n).flatMap linePayload) ∧
    (∀ line, linePayload line ≠ [] → RECORD_PREFIX <+: line ∧
      decode64 ((line.drop RECORD_PREFIX.length).takeWhile (· ≠ 0)) = ⟨linePayload line, true⟩) ∧
    ∀ input, (decode64 input).written.length ≤ input.length / 4 * 3 := by
  refine ⟨fun reads hreads => ⟨?_, fun arrivals h => decodeInput_encodeOutput hreads h⟩,
    fun input h => decode64_encode64 h, fun arrivals => decodeLines_prefix arrivals 4096,
    fun line hpayload => ?_, length_written_le⟩
  · rw [linesFrom_encodeOutput, flatMap_recordLine, flatten_fragmentsOf]
    exact fun fragment hf => (hreads fragment (mem_of_mem_fragmentsOf hf)).1
  · unfold linePayload at hpayload ⊢
    split at hpayload
    · rename_i hprefix
      dsimp only at hpayload
      split at hpayload
      · rename_i hok
        refine ⟨List.isPrefixOf_iff_prefix.mp hprefix, ?_⟩
        rw [if_pos hprefix]
        dsimp only
        rw [if_pos hok]
        cases hdecoded : decode64 ((line.drop RECORD_PREFIX.length).takeWhile (· ≠ 0)) with
        | mk written ok =>
            rw [hdecoded] at hok
            rw [show ok = true from hok]
      · exact absurd rfl hpayload
    · exact absurd rfl hpayload

/-- Two fragments, with an interruption between them. -/
def twoReads : List Read := [.data [0x00, 0xff], .interrupted, .data [0x0a]]

theorem twoReads_lossless :
    decodeInput (.interrupted ::
      (READY_RECORD ++ encodeOutput twoReads).map ReadByte.byte) = [0x00, 0xff, 0x0a] := by
  have hfits : Fits twoReads := by
    intro fragment h
    simp only [twoReads, List.mem_cons, Read.data.injEq, reduceCtorEq, List.not_mem_nil, or_false,
      false_or] at h
    rcases h with rfl | rfl <;> decide
  have harrived : arrived (.interrupted ::
      (READY_RECORD ++ encodeOutput twoReads).map ReadByte.byte) =
        READY_RECORD ++ encodeOutput twoReads := by decide +kernel
  exact (stream64_lossless.1 twoReads hfits).2 _ harrived

end Mountin.Stream64
