import Mountin.Basic.Raising
import Mountin.Disk.Dmg

set_option autoImplicit false

/-! # The property list of a DMG

The scan for the blocks under the `blkx` key and the base64 decoder of `dmg.rs`, against what a
property list holds.

* `base64_exact` : the decoder inverts base64, whatever the white space, and refuses other texts.
* `plistChunks_of_blkx` : of the blocks under the key, the scan takes the first.
-/

namespace Mountin.Dmg

/-! ## The first occurrence -/

/-- The pattern occurs first at a position of the text. -/
structure FirstAt (pat text : Bytes) (i : Nat) : Prop where
  occurs : pat <+: text.drop i
  first : ∀ j < i, ¬ pat <+: text.drop j

theorem findBytes_eq_some_iff {pat : Bytes} (hpat : pat ≠ []) {text : Bytes} {i : Nat} :
    findBytes pat text = some i ↔ FirstAt pat text i := by
  induction text generalizing i with
  | nil =>
      have hempty : pat.isEmpty = false := by
        rw [← Bool.not_eq_true, List.isEmpty_iff]
        exact hpat
      rw [findBytes, hempty]
      refine iff_of_false (by simp) (fun h => hpat ?_)
      have hocc := h.occurs
      rwa [List.drop_nil, List.prefix_nil] at hocc
  | cons b text ih =>
      rw [findBytes]
      by_cases hhead : pat <+: b :: text
      · rw [if_pos (List.isPrefixOf_iff_prefix.mpr hhead), Option.some.injEq]
        constructor
        · rintro rfl
          exact ⟨hhead, fun j hj => absurd hj (Nat.not_lt_zero j)⟩
        · intro h
          by_contra hi
          exact h.first 0 (by omega) hhead
      · rw [if_neg (fun h => hhead (List.isPrefixOf_iff_prefix.mp h)), Option.map_eq_some_iff]
        constructor
        · rintro ⟨j, hj, rfl⟩
          obtain ⟨hocc, hfirst⟩ := ih.mp hj
          refine ⟨hocc, fun k hk => ?_⟩
          cases k with
          | zero => exact hhead
          | succ k => exact hfirst k (by omega)
        · intro h
          cases i with
          | zero => exact absurd h.occurs hhead
          | succ i =>
              refine ⟨i, ih.mpr ⟨h.occurs, fun j hj => h.first (j + 1) (by omega)⟩, rfl⟩

theorem findBytes_eq_none {pat text : Bytes} (hpat : pat ≠ [])
    (h : ∀ i, ¬ pat <+: text.drop i) : findBytes pat text = none := by
  cases hfind : findBytes pat text with
  | none => rfl
  | some i => exact absurd ((findBytes_eq_some_iff hpat).mp hfind).occurs (h i)

theorem not_occurs_of_findBytes {pat text : Bytes} (hpat : pat ≠ [])
    (h : findBytes pat text = none) (i : Nat) : ¬ pat <+: text.drop i := by
  classical
  intro hocc
  have hexists : ∃ j, pat <+: text.drop j := ⟨i, hocc⟩
  have hsome := (findBytes_eq_some_iff hpat).mpr
    ⟨Nat.find_spec hexists, fun j hj => Nat.find_min hexists hj⟩
  rw [h] at hsome
  cases hsome

/-! ## Base64 -/

/-- The symbol of six bits. -/
def symbol (v : Nat) : UInt8 := UInt8.ofNat ((base64Table[v]?.getD 'A').toNat)

/-- The base64 text of some bytes. -/
def encodeBase64 : Bytes → Bytes
  | [] => []
  | [a] => [symbol (a.toNat / 4), symbol (a.toNat % 4 * 16), 0x3d, 0x3d]
  | [a, b] =>
      [symbol (a.toNat / 4), symbol (a.toNat % 4 * 16 + b.toNat / 16),
        symbol (b.toNat % 16 * 4), 0x3d]
  | a :: b :: c :: rest =>
      symbol (a.toNat / 4) :: symbol (a.toNat % 4 * 16 + b.toNat / 16)
        :: symbol (b.toNat % 16 * 4 + c.toNat / 64) :: symbol (c.toNat % 64)
        :: encodeBase64 rest

theorem symbol_spec : ∀ v < 64, symbol v ≠ 0x3d ∧
    base64Table.findIdx? (fun c => c.toNat = (symbol v).toNat) = some v := by
  decide +kernel

/-- White space is not a symbol. -/
theorem isAsciiWhitespace_spec : ∀ b : UInt8, isAsciiWhitespace b = true →
    b ≠ 0x3d ∧ base64Table.findIdx? (fun c => c.toNat = b.toNat) = none := by
  intro b hb
  simp only [isAsciiWhitespace, Bool.or_eq_true, beq_iff_eq] at hb
  rcases hb with (((rfl | rfl) | rfl) | rfl) | rfl <;> decide +kernel

theorem decodeBits_symbol {v : Nat} (hv : v < 64) (input : Bytes) (accum bits : Nat) :
    decodeBits (symbol v :: input) accum bits =
      if 8 ≤ bits + 6 then
        (decodeBits input ((accum * 64 + v) % 2 ^ (bits + 6 - 8)) (bits + 6 - 8)).map
          (fun output => UInt8.ofNat ((accum * 64 + v) / 2 ^ (bits + 6 - 8)) :: output)
      else decodeBits input (accum * 64 + v) (bits + 6) := by
  obtain ⟨hne, hindex⟩ := symbol_spec v hv
  rw [decodeBits, if_neg hne, hindex]

theorem decodeBits_pad (input : Bytes) (accum bits : Nat) :
    decodeBits (0x3d :: input) accum bits = decodeBits input accum bits := by
  rw [decodeBits, if_pos rfl]

/-- White space does not count. -/
theorem decodeBits_filter (text : Bytes) : ∀ accum bits : Nat,
    decodeBits text accum bits
      = decodeBits (text.filter (fun b => !isAsciiWhitespace b)) accum bits := by
  induction text with
  | nil => exact fun accum bits => rfl
  | cons b text ih =>
      intro accum bits
      by_cases hb : isAsciiWhitespace b = true
      · obtain ⟨hne, hindex⟩ := isAsciiWhitespace_spec b hb
        rw [List.filter_cons_of_neg (by simp [hb]), decodeBits, if_neg hne, hindex]
        simp only [hb, if_true]
        exact ih accum bits
      · rw [List.filter_cons_of_pos (by simpa using hb), decodeBits, decodeBits]
        simp only [ih]

theorem ofNat_of_eq {n : Nat} {a : UInt8} (h : n = a.toNat) : UInt8.ofNat n = a := by
  rw [h, UInt8.ofNat_toNat]

/-- The decoder inverts base64. -/
theorem decodeBits_encode (m : Bytes) : decodeBits (encodeBase64 m) 0 0 = .ok m := by
  induction m using encodeBase64.induct with
  | case1 => rfl
  | case2 a =>
      have ha := a.toNat_lt
      rw [encodeBase64, decodeBits_symbol (by omega), if_neg (by decide),
        decodeBits_symbol (by omega), if_pos (by decide), decodeBits_pad, decodeBits_pad]
      exact congrArg (fun x => Except.ok [x]) (ofNat_of_eq (by omega))
  | case3 a b =>
      have ha := a.toNat_lt
      have hb := b.toNat_lt
      rw [encodeBase64, decodeBits_symbol (by omega), if_neg (by decide),
        decodeBits_symbol (by omega), if_pos (by decide), decodeBits_symbol (by omega),
        if_pos (by decide), decodeBits_pad]
      exact congrArg₂ (fun x y => Except.ok [x, y]) (ofNat_of_eq (by omega)) (ofNat_of_eq (by omega))
  | case4 a b c rest ih =>
      have ha := a.toNat_lt
      have hb := b.toNat_lt
      have hc := c.toNat_lt
      rw [encodeBase64, decodeBits_symbol (by omega), if_neg (by decide),
        decodeBits_symbol (by omega), if_pos (by decide), decodeBits_symbol (by omega),
        if_pos (by decide), decodeBits_symbol (by omega), if_pos (by decide)]
      -- nothing is left of the group
      rw [show ∀ n, n % 2 ^ (0 + 6 + 6 - 8 + 6 - 8 + 6 - 8) = 0 from fun n => Nat.mod_one n,
        show 0 + 6 + 6 - 8 + 6 - 8 + 6 - 8 = 0 from rfl, ih]
      simp only [Except.map]
      rw [ofNat_of_eq (a := a) (by omega), ofNat_of_eq (a := b) (by omega),
        ofNat_of_eq (a := c) (by omega)]

/-- A text is the base64 of some bytes, with white space anywhere. -/
def Base64 (text m : Bytes) : Prop :=
  text.filter (fun b => !isAsciiWhitespace b) = encodeBase64 m

theorem decodeBase64_of_base64 {text m : Bytes} (h : Base64 text m) : decodeBase64 text = .ok m := by
  rw [decodeBase64, decodeBits_filter, h, decodeBits_encode]

/-- A byte that is neither a symbol, nor padding, nor white space. -/
def Foreign (b : UInt8) : Prop :=
  (∀ c ∈ base64Table, c.toNat ≠ b.toNat) ∧ b ≠ 0x3d ∧ isAsciiWhitespace b = false

theorem decodeBits_foreign {b : UInt8} (hb : Foreign b) {text : Bytes} (h : b ∈ text) :
    ∀ accum bits : Nat, decodeBits text accum bits = .error (.invalidData "invalid base64") := by
  induction text with
  | nil => cases h
  | cons first text ih =>
      intro accum bits
      rcases List.mem_cons.mp h with rfl | hmem
      · obtain ⟨hsymbol, hpad, hspace⟩ := hb
        have hnone : base64Table.findIdx? (fun c => decide (c.toNat = b.toNat)) = none :=
          List.findIdx?_eq_none_iff.mpr fun c hc => decide_eq_false (hsymbol c hc)
        rw [decodeBits, if_neg hpad, hnone]
        simp only [hspace, Bool.false_eq_true, if_false]
      · rw [decodeBits]
        by_cases hpad : first = 0x3d
        · rw [if_pos hpad]
          exact ih hmem accum bits
        · rw [if_neg hpad]
          cases base64Table.findIdx? (fun c => decide (c.toNat = first.toNat)) with
          | some val =>
              dsimp only
              split_ifs
              · rw [ih hmem]
                rfl
              · exact ih hmem _ _
          | none =>
              dsimp only
              split_ifs
              · exact ih hmem accum bits
              · rfl

/-- **The base64 decoder is exact**: it inverts the encoding, wherever white space stands in it, and
refuses every text with a foreign byte. -/
theorem base64_exact :
    (∀ text m, Base64 text m → decodeBase64 text = .ok m) ∧
      ∀ text b, b ∈ text → Foreign b → ∃ e, decodeBase64 text = .error e :=
  ⟨fun _ _ h => decodeBase64_of_base64 h, fun _ _ hmem hb => ⟨_, decodeBits_foreign hb hmem 0 0⟩⟩

/-- A wrapped text, and one with a hyphen. -/
theorem hello_decoded :
    decodeBase64 (ascii "aGVs\n bG8=\n") = .ok (ascii "hello") ∧
      ∃ e, decodeBase64 (ascii "aGV-bG8=") = .error e := by
  refine ⟨base64_exact.1 _ _ ?_, base64_exact.2 _ 0x2d (by decide +kernel) ⟨?_, by decide, by decide⟩⟩
  · unfold Base64
    decide +kernel
  · have hall : (base64Table.all fun c => decide (c.toNat ≠ (0x2d : UInt8).toNat)) = true := by
      decide +kernel
    exact fun c hc => of_decide_eq_true (List.all_eq_true.mp hall c hc)

/-! ## The blocks under the key -/

/-- The key of the blocks. -/
def blkxKey : Bytes := ascii "<key>blkx</key>"

def dataTag : Bytes := ascii "<data>"

def dataEndTag : Bytes := ascii "</data>"

/-- The texts of the first data elements of some text, one after the other. -/
inductive DataElements : Bytes → List Bytes → Prop where
  | nil (rest : Bytes) : DataElements rest []
  | cons {gap text rest : Bytes} {texts : List Bytes}
      (start : FirstAt dataTag (gap ++ dataTag ++ text ++ dataEndTag ++ rest) gap.length)
      (stop : FirstAt dataEndTag (text ++ dataEndTag ++ rest) text.length)
      (next : DataElements rest texts) :
      DataElements (gap ++ dataTag ++ text ++ dataEndTag ++ rest) (text :: texts)

/-- A property list with one `blkx` key, and under it the blocks with these texts. -/
structure BlkxPlist (xml : Bytes) (texts : List Bytes) : Prop where
  split : ∃ front rest, xml = front ++ blkxKey ++ rest ∧ FirstAt blkxKey xml front.length ∧
    (∀ i, ¬ blkxKey <+: rest.drop i) ∧ DataElements rest texts

theorem drop_append_append {a b c : Bytes} {n : Nat} (h : b.length = n) :
    (a ++ b ++ c).drop (a.length + n) = c := by
  rw [← h, ← List.length_append, List.drop_left]

theorem length_blkxKey : blkxKey.length = 15 := by decide +kernel

theorem length_dataTag : dataTag.length = 6 := by decide +kernel

theorem blkxKey_ne : blkxKey ≠ [] := List.ne_nil_of_length_pos (by rw [length_blkxKey]; decide)

theorem dataTag_ne : dataTag ≠ [] := List.ne_nil_of_length_pos (by rw [length_dataTag]; decide)

theorem dataEndTag_ne : dataEndTag ≠ [] := by decide +kernel

/-- Without the key there are no chunks. -/
theorem plistChunks_of_no_key {xml : Bytes} (h : ∀ i, ¬ blkxKey <+: xml.drop i)
    (dataForkOffset fuel : Nat) : plistChunks dataForkOffset fuel xml = [] := by
  cases fuel with
  | zero => rfl
  | succ fuel =>
      rw [plistChunks, show findBytes (ascii "<key>blkx</key>") xml = none from
        findBytes_eq_none blkxKey_ne h]

/-- Of the blocks under the key, the scan takes the first. -/
theorem plistChunks_of_blkx {xml text : Bytes} {texts : List Bytes}
    (h : BlkxPlist xml (text :: texts)) (dataForkOffset : Nat) :
    plistChunks dataForkOffset (xml.length + 1) xml = blockChunks text dataForkOffset := by
  obtain ⟨front, rest, rfl, hkey, hnokey, helements⟩ := h.split
  cases helements with
  | @cons gap text rest' texts start stop next =>
    have hrest : ∀ r, (front ++ blkxKey ++ r).drop (front.length + 15) = r :=
      fun r => drop_append_append length_blkxKey
    have hassoc : gap ++ dataTag ++ text ++ dataEndTag ++ rest'
        = gap ++ dataTag ++ (text ++ dataEndTag ++ rest') := by simp only [List.append_assoc]
    have hdata : (gap ++ dataTag ++ text ++ dataEndTag ++ rest').drop (gap.length + 6)
        = text ++ dataEndTag ++ rest' := by
      rw [hassoc]
      exact drop_append_append length_dataTag
    have htext : (text ++ dataEndTag ++ rest').take text.length = text := by
      rw [List.append_assoc, List.take_left]
    have hfind1 : findBytes (ascii "<key>blkx</key>") _ = some front.length :=
      (findBytes_eq_some_iff blkxKey_ne).mpr hkey
    have hfind2 : findBytes (ascii "<data>") _ = some gap.length :=
      (findBytes_eq_some_iff dataTag_ne).mpr start
    have hfind3 : findBytes (ascii "</data>") _ = some text.length :=
      (findBytes_eq_some_iff dataEndTag_ne).mpr stop
    rw [plistChunks, hfind1]
    simp only [hrest, hfind2, hdata, hfind3, htext]
    -- the rest of the list has no key
    rw [plistChunks_of_no_key (fun i => ?_), List.append_nil]
    rw [← hdata, List.drop_drop, List.drop_drop]
    exact hnokey _

end Mountin.Dmg
