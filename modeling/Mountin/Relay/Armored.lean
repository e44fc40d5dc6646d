import Mountin.Relay.Messages

set_option autoImplicit false

/-! # Records on the host

`ArmoredStream` of `start-9p.py`: what the guest writes, taken out of the records of `stream64`.

* `reads_readExact` : `read_exact` takes the bytes of the records from the front, in whatever
  fragments the channel delivers them.
-/

namespace Mountin.Relay

open Stream64

/-- `ArmoredStream`, but for its channel. -/
structure ArmoredStream where
  decoded : Bytes
  wire : Bytes
deriving DecidableEq

/-- `base64.b64decode`, with `validate`; `none` is `binascii.Error`. -/
def b64decode (line : Bytes) : Option Bytes :=
  if line = [] then some []
  else if (decode64 line).ok then some (decode64 line).written
  else none

/-- `strip(b"\\r")`. -/
def stripReturns (line : Bytes) : Bytes :=
  ((line.dropWhile (· = RETURN)).reverse.dropWhile (· = RETURN)).reverse

namespace ArmoredStream

/-- The loop of `_fill`: it reads on until there is a whole line. -/
def fillWire (wire : Bytes) (channel : List Fragment) : Except Failure (Bytes × List Fragment) :=
  if NEWLINE ∈ wire then .ok (wire, channel)
  else if (recv 4096 channel).1 = [] then .error .eof
  else fillWire (wire ++ (recv 4096 channel).1) (recv 4096 channel).2
termination_by (text channel).length
decreasing_by
  rename_i _ hchunk
  have hpos := List.length_pos_of_ne_nil hchunk
  have hlength := congrArg List.length (recv_text 4096 channel)
  rw [List.length_append] at hlength
  omega

/-- What `_fill` does with the first line. -/
def takeLine (guest : ArmoredStream) : Except Failure ArmoredStream :=
  let line := stripReturns (guest.wire.takeWhile (· ≠ NEWLINE))
  let remainder := (guest.wire.dropWhile (· ≠ NEWLINE)).drop 1
  if RECORD_PREFIX.isPrefixOf line then
    match b64decode (line.drop RECORD_PREFIX.length) with
    | some bytes => .ok ⟨guest.decoded ++ bytes, remainder⟩
    | none => .error .invalidRecord
  else .ok ⟨guest.decoded, remainder⟩

/-- `_fill`. -/
def fill (guest : ArmoredStream) (channel : List Fragment) :
    Except Failure (ArmoredStream × List Fragment) := do
  let (wire, channel) ← fillWire guest.wire channel
  let guest ← takeLine ⟨guest.decoded, wire⟩
  pure (guest, channel)

/-! ## A line at a time -/

theorem fillWire_ok {wire line remainder : Bytes} {channel : List Fragment}
    (hline : NEWLINE ∉ line) (h : wire ++ text channel = line ++ NEWLINE :: remainder) :
    ∃ after rest, fillWire wire channel = .ok (line ++ NEWLINE :: after, rest) ∧
      after ++ text rest = remainder := by
  fun_induction fillWire wire channel with
  | case1 wire channel hwire =>
      rcases List.append_eq_append_iff.mp h with ⟨more, hlonger, -⟩ | ⟨more, rfl, hmore⟩
      · exact absurd (hlonger ▸ List.mem_append_left more hwire) hline
      · cases more with
        | nil => exact absurd (List.append_nil line ▸ hwire) hline
        | cons b after =>
            obtain ⟨rfl, hrest⟩ := List.cons.inj hmore
            exact ⟨after, channel, rfl, hrest.symm⟩
  | case2 wire channel hwire hchunk =>
      rw [recv_eq_nil_iff (by decide)] at hchunk
      rw [hchunk, List.append_nil] at h
      exact absurd (h ▸ List.mem_append_right line List.mem_cons_self) hwire
  | case3 wire channel hwire hchunk ih =>
      rw [List.append_assoc, recv_text] at ih
      exact ih h

theorem fillWire_eof {wire : Bytes} {channel : List Fragment}
    (h : NEWLINE ∉ wire ++ text channel) : fillWire wire channel = .error .eof := by
  fun_induction fillWire wire channel with
  | case1 wire channel hwire => exact absurd (List.mem_append_left _ hwire) h
  | case2 => rfl
  | case3 wire channel hwire hchunk ih =>
      rw [List.append_assoc, recv_text] at ih
      exact ih h

theorem fillWire_text {wire after : Bytes} {channel rest : List Fragment}
    (h : fillWire wire channel = .ok (after, rest)) :
    NEWLINE ∈ after ∧ after ++ text rest = wire ++ text channel := by
  fun_induction fillWire wire channel with
  | case1 wire channel hwire =>
      obtain ⟨rfl, rfl⟩ := Prod.mk.inj (Except.ok.inj h)
      exact ⟨hwire, rfl⟩
  | case2 => cases h
  | case3 wire channel hwire hchunk ih =>
      rw [List.append_assoc, recv_text] at ih
      exact ih h

theorem takeLine_wire {guest after : ArmoredStream} (h : guest.takeLine = .ok after) :
    after.wire = (guest.wire.dropWhile (· ≠ NEWLINE)).drop 1 := by
  simp only [takeLine] at h
  split at h
  · split at h
    · rw [← Except.ok.inj h]
    · cases h
  · rw [← Except.ok.inj h]

/-- A line leaves the stream. -/
theorem fill_lt {guest after : ArmoredStream} {channel rest : List Fragment}
    (h : guest.fill channel = .ok (after, rest)) :
    after.wire.length + (text rest).length < guest.wire.length + (text channel).length := by
  simp only [fill, bind, Except.bind, pure, Except.pure] at h
  split at h
  · cases h
  · rename_i filled hfilled
    split at h
    · cases h
    · rename_i last hlast
      obtain ⟨rfl, rfl⟩ := Prod.mk.inj (Except.ok.inj h)
      obtain ⟨hmem, htext⟩ := fillWire_text hfilled
      have hlength := congrArg List.length htext
      have hwire := takeLine_wire hlast
      have hne : filled.1.dropWhile (· ≠ NEWLINE) ≠ [] := by
        intro hnil
        rw [List.dropWhile_eq_nil_iff] at hnil
        exact absurd (hnil _ hmem) (by simp)
      have hpos := List.length_pos_of_ne_nil hne
      have hsuffix := (List.dropWhile_suffix (l := filled.1) (· ≠ NEWLINE)).length_le
      rw [List.length_append, List.length_append] at hlength
      rw [hwire, List.length_drop]
      dsimp only
      omega

/-- The loop of `read_exact`: what is decoded suffices. -/
def fillTo (size : Nat) (guest : ArmoredStream) (channel : List Fragment) :
    Except Failure (ArmoredStream × List Fragment) :=
  if guest.decoded.length < size then
    match h : guest.fill channel with
    | .error e => .error e
    | .ok (after, rest) => fillTo size after rest
  else .ok (guest, channel)
termination_by guest.wire.length + (text channel).length
decreasing_by exact fill_lt h

/-- `read_exact`. -/
def readExact (size : Nat) (guest : ArmoredStream × List Fragment) :
    Except Failure (Bytes × ArmoredStream × List Fragment) := do
  let (filled, channel) ← fillTo size guest.1 guest.2
  pure (filled.decoded.take size, ⟨filled.decoded.drop size, filled.wire⟩, channel)

/-- `read_message`. -/
def readMessage (guest : ArmoredStream) (channel : List Fragment) :
    Except Failure (Bytes × ArmoredStream × List Fragment) :=
  readMessageBy readExact (guest, channel)

/-! ## Records -/

/-- The records of fragments. -/
def records (fragments : List Bytes) : Bytes := fragments.flatMap recordOf

theorem recordOf_eq (fragment : Bytes) (rest : Bytes) :
    recordOf fragment ++ rest = recordLine fragment ++ NEWLINE :: rest := by
  rw [recordOf, recordLine, List.append_assoc, List.singleton_append]

theorem dropReturns_of_notMem {line : Bytes} (h : RETURN ∉ line) :
    line.dropWhile (· = RETURN) = line := by
  cases line with
  | nil => rfl
  | cons b line =>
      rw [List.mem_cons, not_or] at h
      rw [List.dropWhile_cons_of_neg (by simpa using Ne.symm h.1)]

theorem stripReturns_of_notMem {line : Bytes} (h : RETURN ∉ line) : stripReturns line = line := by
  rw [stripReturns, dropReturns_of_notMem h, dropReturns_of_notMem (by rwa [List.mem_reverse]),
    List.reverse_reverse]

theorem return_notMem_recordLine (fragment : Bytes) : RETURN ∉ recordLine fragment := by
  intro h
  rcases List.mem_append.mp h with h | h
  · revert h
    decide
  · exact (visible_of_mem_encode64 h).2.1 rfl

theorem b64decode_encode64 {fragment : Bytes} (h : fragment ≠ []) :
    b64decode (encode64 fragment) = some fragment := by
  rw [b64decode, if_neg (encode64_ne_nil h), decode64_encode64 h]
  rfl

/-- A record is taken out. -/
theorem takeLine_record {fragment : Bytes} (h : fragment ≠ []) (decoded remainder : Bytes) :
    takeLine ⟨decoded, recordLine fragment ++ NEWLINE :: remainder⟩ =
      .ok ⟨decoded ++ fragment, remainder⟩ := by
  have hvisible : ∀ b ∈ recordLine fragment, decide (b ≠ NEWLINE) = true := fun b hb =>
    decide_eq_true fun heq => newline_notMem_recordLine fragment (heq ▸ hb)
  have hline : (recordLine fragment ++ NEWLINE :: remainder).takeWhile (· ≠ NEWLINE) =
      recordLine fragment := by
    rw [List.takeWhile_append_of_pos hvisible, List.takeWhile_cons_of_neg (by decide),
      List.append_nil]
  have hrest : (recordLine fragment ++ NEWLINE :: remainder).dropWhile (· ≠ NEWLINE) =
      NEWLINE :: remainder := by
    rw [List.dropWhile_append_of_pos hvisible, List.dropWhile_cons_of_neg (by decide)]
  have hprefix : RECORD_PREFIX.isPrefixOf (recordLine fragment) = true :=
    List.isPrefixOf_iff_prefix.mpr (List.prefix_append _ _)
  simp only [takeLine, hline, hrest, stripReturns_of_notMem (return_notMem_recordLine fragment)]
  rw [if_pos hprefix, recordLine, List.drop_left, b64decode_encode64 h]
  rfl

/-- `_fill` takes the first record of those that are on the way. -/
theorem fill_record {guest : ArmoredStream} {channel : List Fragment} {fragment : Bytes}
    {later : List Bytes} (hfragment : fragment ≠ [])
    (h : guest.wire ++ text channel = records (fragment :: later)) :
    ∃ after rest, guest.fill channel = .ok (⟨guest.decoded ++ fragment, after⟩, rest) ∧
      after ++ text rest = records later := by
  rw [records, List.flatMap_cons, recordOf_eq] at h
  obtain ⟨after, rest, hfill, hrest⟩ := fillWire_ok (newline_notMem_recordLine fragment) h
  refine ⟨after, rest, ?_, hrest⟩
  simp only [fill, hfill, bind, Except.bind, takeLine_record hfragment, pure, Except.pure]

/-- `_fill` waits where nothing is on the way. -/
theorem fill_eof {guest : ArmoredStream} {channel : List Fragment}
    (h : guest.wire ++ text channel = records []) : guest.fill channel = .error .eof := by
  have hnone : NEWLINE ∉ guest.wire ++ text channel := by
    rw [h]
    exact List.not_mem_nil
  simp only [fill, fillWire_eof hnone, bind, Except.bind]

/-- The stream holds these bytes: what is decoded, and records with the rest. -/
def Holds (guest : ArmoredStream × List Fragment) (bytes : Bytes) : Prop :=
  ∃ fragments, (∀ fragment ∈ fragments, fragment ≠ []) ∧
    guest.1.wire ++ text guest.2 = records fragments ∧
    guest.1.decoded ++ fragments.flatten = bytes

/-- `_fill` keeps what the stream holds. -/
theorem Holds.fill {guest after : ArmoredStream} {channel rest : List Fragment} {bytes : Bytes}
    (hholds : Holds (guest, channel) bytes) (h : guest.fill channel = .ok (after, rest)) :
    Holds (after, rest) bytes := by
  obtain ⟨fragments, hfragments, hwire, rfl⟩ := hholds
  cases fragments with
  | nil => cases h.symm.trans (fill_eof hwire)
  | cons fragment later =>
      rw [List.forall_mem_cons] at hfragments
      obtain ⟨wire, left, hfilled, hleft⟩ := fill_record hfragments.1 hwire
      obtain ⟨rfl, rfl⟩ := Prod.mk.inj (Except.ok.inj (h.symm.trans hfilled))
      exact ⟨later, hfragments.2, hleft, by rw [List.flatten_cons, List.append_assoc]⟩

/-- `_fill` fails only where no record is on the way. -/
theorem Holds.fill_error {guest : ArmoredStream} {channel : List Fragment} {bytes : Bytes}
    {e : Failure} (hholds : Holds (guest, channel) bytes) (h : guest.fill channel = .error e) :
    e = .eof ∧ guest.decoded = bytes := by
  obtain ⟨fragments, hfragments, hwire, rfl⟩ := hholds
  cases fragments with
  | nil =>
      cases h.symm.trans (fill_eof hwire)
      exact ⟨rfl, (List.append_nil _).symm⟩
  | cons fragment later =>
      obtain ⟨wire, left, hfilled, -⟩ := fill_record (hfragments _ List.mem_cons_self) hwire
      cases h.symm.trans hfilled

theorem fillTo_ok {size : Nat} {guest : ArmoredStream} {channel : List Fragment} {bytes : Bytes}
    (hholds : Holds (guest, channel) bytes) (h : size ≤ bytes.length) :
    ∃ after rest, fillTo size guest channel = .ok (after, rest) ∧ Holds (after, rest) bytes ∧
      size ≤ after.decoded.length := by
  fun_induction fillTo size guest channel with
  | case1 guest channel hlt e hfill =>
      rw [(hholds.fill_error hfill).2] at hlt
      exact absurd hlt (Nat.not_lt.mpr h)
  | case2 guest channel hlt after rest hfill ih =>
      exact ih (hholds.fill hfill)
  | case3 guest channel hlt => exact ⟨guest, channel, rfl, hholds, Nat.not_lt.mp hlt⟩

theorem fillTo_eof {size : Nat} {guest : ArmoredStream} {channel : List Fragment} {bytes : Bytes}
    (hholds : Holds (guest, channel) bytes) (h : bytes.length < size) :
    fillTo size guest channel = .error .eof := by
  fun_induction fillTo size guest channel with
  | case1 guest channel hlt e hfill => rw [(hholds.fill_error hfill).1]
  | case2 guest channel hlt after rest hfill ih => exact ih (hholds.fill hfill)
  | case3 guest channel hlt =>
      obtain ⟨fragments, -, -, rfl⟩ := hholds
      rw [List.length_append] at h
      exact absurd (Nat.le_add_right _ _) (Nat.not_le.mpr (h.trans_le (Nat.not_lt.mp hlt)))

/-- **`read_exact` takes the bytes of the records from the front**, in whatever fragments the
channel delivers them. -/
theorem reads_readExact : Reads readExact Holds where
  ok := by
    rintro size ⟨guest, channel⟩ bytes hholds h
    obtain ⟨after, rest, hfill, ⟨fragments, hfragments, hwire, hbytes⟩, hsize⟩ := fillTo_ok hholds h
    refine ⟨(⟨after.decoded.drop size, after.wire⟩, rest), ?_, fragments, hfragments, hwire, ?_⟩
    · simp only [readExact, hfill, bind, Except.bind, pure, Except.pure]
      rw [← hbytes, List.take_append_of_le_length hsize]
    · rw [← hbytes, List.drop_append_of_le_length hsize]
  eof := by
    rintro size ⟨guest, channel⟩ bytes hholds h
    simp only [readExact, fillTo_eof hholds h, bind, Except.bind]

end ArmoredStream

end Mountin.Relay
