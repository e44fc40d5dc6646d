import Mountin.Basic.Raising
import Mountin.Basic.Splice
import Mountin.Disk.Exposes
import Mountin.Disk.Qcow

set_option autoImplicit false

/-! # QCOW2 entries

What an L2 entry denotes in the QCOW2 format, and what `Qcow2Reader::read_at` makes of it. The
reader looks at the zero flag and at the masked offset before the compressed flag, and splits a
compressed entry seven bits too low.

* `qcow2_readAt_iff` : a cluster is read right when its entry survives this.
-/

namespace Mountin.Qcow2

/-- Bit 62 of an entry. -/
def Compressed (e : Nat) : Prop := e / 2 ^ 62 % 2 ≠ 0

instance (e : Nat) : Decidable (Compressed e) := inferInstanceAs (Decidable (_ ≠ _))

section

variable (inflate : ReadExact) (bytes : Bytes) (clusterBits : Nat)

/-! ## The format -/

/-- The first bit of the length field of a compressed entry. -/
def splitBit : Nat := 62 - (clusterBits - 8)

/-- The host offset of a compressed entry. -/
def hostOffset (e : Nat) : Nat := e % 2 ^ splitBit clusterBits

/-- The size of the data of a compressed entry: up to the end of the sector it starts in, and
the additional sectors. -/
def hostSize (e : Nat) : Nat :=
  (e / 2 ^ splitBit clusterBits % 2 ^ (62 - splitBit clusterBits) + 1) * 512
    - hostOffset clusterBits e % 512

/-- What an entry denotes; nothing where its data cannot be inflated. -/
def denoted (e : Nat) : Option Extent :=
  if Compressed e then
    match inflate (bytes.slice (hostOffset clusterBits e) (hostSize clusterBits e))
      (2 ^ clusterBits) with
    | .ok cluster => some (.unpacked cluster)
    | .error _ => none
  else if e % 2 ≠ 0 ∨ e &&& L2E_OFFSET_MASK = 0 then some .hole
  else some (.stored (e &&& L2E_OFFSET_MASK))

/-! ## The reader -/

/-- What the reader takes for the data of a compressed entry. -/
def takenData (e : Nat) : Bytes :=
  bytes.slice (e % 2 ^ (63 - clusterBits))
    ((e / 2 ^ (63 - clusterBits) % 2 ^ clusterBits + 1) * 512)

/-- The tests of `read_at` on an entry. -/
def taken (e : Nat) : Option Extent :=
  if e % 2 ≠ 0 ∨ e &&& L2E_OFFSET_MASK = 0 then some .hole
  else if Compressed e then
    match inflate (takenData bytes clusterBits e) (2 ^ clusterBits) with
    | .ok cluster => some (.unpacked cluster)
    | .error _ => none
  else some (.stored (e &&& L2E_OFFSET_MASK))

/-- The compressed entry `e` is read right at offset `i` of its cluster, where it holds `b`. Its
host offset is even and not below 512 up to the bits above the mask, and below
`2 ^ (63 - clusterBits)`; or the byte happens to be what the reader makes of it. -/
def Survives (e i : Nat) (b : UInt8) : Prop :=
  if e % 2 ≠ 0 ∨ e &&& L2E_OFFSET_MASK = 0 then b = 0
  else hostOffset clusterBits e < 2 ^ (63 - clusterBits) ∨
    ∃ cluster, inflate (takenData bytes clusterBits e) (2 ^ clusterBits) = .ok cluster ∧
      cluster[i]? = some b

end

variable {inflate : ReadExact} {bytes : Bytes} {clusterBits : Nat}

theorem slice_append_slice (b : Bytes) (off n k : Nat) :
    b.slice off n ++ b.slice (off + n) k = b.slice off (n + k) := by
  rw [List.slice, List.slice, List.slice, ← List.drop_drop, ← List.take_add]

/-- The length that the reader takes has the compressed flag on top of its bits. -/
theorem hostSize_le {e : Nat} (hbits : 9 ≤ clusterBits ∧ clusterBits ≤ 21) (he : Compressed e) :
    hostSize clusterBits e ≤ (e / 2 ^ (63 - clusterBits) % 2 ^ clusterBits + 1) * 512 := by
  have hflag : e / 2 ^ (63 - clusterBits) % 2 ^ clusterBits / 2 ^ (clusterBits - 1)
      = e / 2 ^ 62 % 2 := by
    rw [show 2 ^ clusterBits = 2 ^ (clusterBits - 1) * 2 by
        rw [← pow_succ, Nat.sub_add_cancel (by omega)],
      Nat.mod_mul_right_div_self, Nat.div_div_eq_div_mul, ← pow_add,
      show 63 - clusterBits + (clusterBits - 1) = 62 by omega]
  have htop : 2 ^ (clusterBits - 1) ≤ e / 2 ^ (63 - clusterBits) % 2 ^ clusterBits := by
    have hpos : 0 < e / 2 ^ (63 - clusterBits) % 2 ^ clusterBits / 2 ^ (clusterBits - 1) :=
      hflag ▸ Nat.pos_of_ne_zero he
    exact (Nat.div_pos_iff.mp hpos).2
  have hlow : e / 2 ^ splitBit clusterBits % 2 ^ (62 - splitBit clusterBits)
      < 2 ^ (62 - splitBit clusterBits) := Nat.mod_lt _ (Nat.two_pow_pos _)
  have hpow : 2 ^ (62 - splitBit clusterBits) ≤ 2 ^ (clusterBits - 1) :=
    Nat.pow_le_pow_right (by omega) (by unfold splitBit; omega)
  unfold hostSize
  omega

/-- Where the low bits give the host offset, the reader takes the data and what follows it. -/
theorem takenData_eq (bytes : Bytes) {e : Nat} (hbits : 9 ≤ clusterBits ∧ clusterBits ≤ 21) (he : Compressed e)
    (hlow : hostOffset clusterBits e < 2 ^ (63 - clusterBits)) :
    ∃ rest, takenData bytes clusterBits e
      = bytes.slice (hostOffset clusterBits e) (hostSize clusterBits e) ++ rest := by
  have hoffset : e % 2 ^ (63 - clusterBits) = hostOffset clusterBits e := by
    have hdvd : 2 ^ (63 - clusterBits) ∣ 2 ^ splitBit clusterBits :=
      Nat.pow_dvd_pow 2 (by unfold splitBit; omega)
    rw [hostOffset, ← Nat.mod_mod_of_dvd e hdvd]
    exact Nat.mod_eq_of_lt hlow
  have hsize := hostSize_le hbits he
  obtain ⟨k, hk⟩ := Nat.exists_eq_add_of_le hsize
  exact ⟨bytes.slice (hostOffset clusterBits e + hostSize clusterBits e) k, by
    rw [takenData, hoffset, hk, slice_append_slice]⟩

/-- An entry that denotes a byte is read to denote it exactly when it is not compressed or
survives. -/
theorem taken_byte_iff (hbits : 9 ≤ clusterBits ∧ clusterBits ≤ 21)
    (hinflate : ∀ c rest n d, inflate c n = .ok d → inflate (c ++ rest) n = .ok d)
    {e i : Nat} {b : UInt8} {x : Extent} (hx : denoted inflate bytes clusterBits e = some x)
    (hb : x.byte bytes i = some b) :
    (∃ y, taken inflate bytes clusterBits e = some y ∧ y.byte bytes i = some b) ↔
      (Compressed e → Survives inflate bytes clusterBits e i b) := by
  unfold denoted at hx
  unfold taken Survives
  by_cases he : Compressed e
  · rw [if_pos he] at hx
    simp only [he, true_implies, if_true]
    split_ifs with hzero
    · simp [Extent.byte, eq_comm]
    · cases hdata : inflate (bytes.slice (hostOffset clusterBits e) (hostSize clusterBits e))
        (2 ^ clusterBits) with
      | error error => simp [hdata] at hx
      | ok cluster =>
          simp only [hdata, Option.some.injEq] at hx
          subst hx
          constructor
          · rintro ⟨y, hy, hyb⟩
            cases htaken : inflate (takenData bytes clusterBits e) (2 ^ clusterBits) with
            | error error => simp [htaken] at hy
            | ok cluster' =>
                simp only [htaken, Option.some.injEq] at hy
                subst hy
                exact .inr ⟨cluster', rfl, hyb⟩
          · rintro (hlow | ⟨cluster', htaken, hyb⟩)
            · obtain ⟨rest, hrest⟩ := takenData_eq bytes hbits he hlow
              have htaken := hinflate _ rest _ _ hdata
              rw [← hrest] at htaken
              exact ⟨.unpacked cluster, by rw [htaken], hb⟩
            · exact ⟨.unpacked cluster', by rw [htaken], hyb⟩
  · rw [if_neg he] at hx
    rw [if_neg he]
    exact iff_of_true ⟨x, hx, hb⟩ (fun h => absurd h he)

/-! ## The disk -/

section

variable (inflate : ReadExact) (bytes : Bytes) (r : Qcow2Reader)

/-- The entry of an offset of the disk: zero where its L1 entry is, and nothing where the L2
table does not lie in the image. -/
def l2Entry (off : Nat) : Option Nat :=
  let l1Index := off / 2 ^ (r.l2Bits + r.clusterBits)
  let l2Index := off / 2 ^ r.clusterBits % 2 ^ r.l2Bits
  let l2Offset := (r.l1Table[l1Index]?.getD 0) &&& L2E_OFFSET_MASK
  if l2Offset = 0 then some 0
  else if l2Offset + l2Index * 8 + 8 ≤ bytes.length then
    some (beField bytes (l2Offset + l2Index * 8) 8)
  else none

/-- The byte of the disk at an offset. -/
def diskByte (off : Nat) : Option UInt8 := do
  let e ← l2Entry bytes r off
  let x ← denoted inflate bytes r.clusterBits e
  x.byte bytes (off % 2 ^ r.clusterBits)

end

variable {image : Image} {r : Qcow2Reader} {D : Bytes}

theorem new_clusterBits {parent : Reader} (h : new parent = .ok r) :
    9 ≤ r.clusterBits ∧ r.clusterBits ≤ 21 := by
  simp only [new, bind_eq_ok, require_eq_ok, pure, Except.pure, Except.ok.injEq] at h
  obtain ⟨header, -, -, -, -, -, -, hbits, l1Data, -, rfl⟩ := h
  exact hbits

/-- An image is accepted by the fields of its header. -/
theorem new_eq (hlen : 48 ≤ image.bytes.length) (hmagic : beField image.bytes 0 4 = QCOW_MAGIC)
    (hversion : 2 ≤ beField image.bytes 4 4)
    (hbits : 9 ≤ beField image.bytes 0x14 4 ∧ beField image.bytes 0x14 4 ≤ 21)
    (hsize : 0 < beField image.bytes 0x24 4)
    (hl1 : beField image.bytes 0x28 8 + beField image.bytes 0x24 4 * 8 ≤ image.bytes.length) :
    new (fileReader image) = .ok {
      parent := fileReader image
      l1Table := tableOf beField 8
        (image.bytes.slice (beField image.bytes 0x28 8) (beField image.bytes 0x24 4 * 8))
      clusterBits := beField image.bytes 0x14 4
      virtualSize := beField image.bytes 0x18 8 } := by
  have hfield : ∀ k w, k + w ≤ 48 →
      beField (image.bytes.slice 0 48) k w = beField image.bytes k w := fun k w h => by
    rw [beField_slice h, Nat.zero_add]
  rw [new, readExactly_slice _ (by omega) (by omega), Except.ok_bind]
  simp only [hfield _ _ (by omega : 0 + 4 ≤ 48), hfield _ _ (by omega : 4 + 4 ≤ 48),
    hfield _ _ (by omega : 0x14 + 4 ≤ 48), hfield _ _ (by omega : 0x18 + 8 ≤ 48),
    hfield _ _ (by omega : 0x24 + 4 ≤ 48), hfield _ _ (by omega : 0x28 + 8 ≤ 48)]
  rw [require, if_pos hmagic, Except.ok_bind, require, if_pos hversion, Except.ok_bind, require,
    if_pos hbits, Except.ok_bind, readExactly_slice _ hl1 (by omega)]
  rfl

/-- The reader inflates the data that it takes. -/
theorem readCompressedCluster_eq (e : Nat) (hbits : 9 ≤ clusterBits) :
    readCompressedCluster inflate (fileReader image) clusterBits e
      = inflate (takenData image.bytes clusterBits e) (2 ^ clusterBits) := by
  have hoffset : e % 2 ^ (63 - clusterBits) < FILE_OFFSET_LIMIT :=
    (Nat.mod_lt _ (Nat.two_pow_pos _)).trans_le (Nat.pow_le_pow_right (by omega) (by omega))
  rw [readCompressedCluster, fileReader_readAt image _ hoffset]
  rfl

/-- The tests of `read_at` on an entry are those of `taken`. -/
theorem extent_of_entry (e : Nat) (hbits : 9 ≤ clusterBits) (x : Extent) :
    (if e % 2 ≠ 0 then (pure Extent.hole : Except IoError Extent)
      else if e &&& L2E_OFFSET_MASK = 0 then pure .hole
      else if e / 2 ^ 62 % 2 ≠ 0 then do
        let decompressed ← readCompressedCluster inflate (fileReader image) clusterBits e
        pure (.unpacked decompressed)
      else pure (.stored (e &&& L2E_OFFSET_MASK))) = .ok x ↔
      taken inflate image.bytes clusterBits e = some x := by
  rw [readCompressedCluster_eq e hbits]
  unfold taken
  by_cases hodd : e % 2 ≠ 0
  · rw [if_pos hodd, if_pos (.inl hodd)]
    simp [pure, Except.pure]
  · by_cases hmask : e &&& L2E_OFFSET_MASK = 0
    · rw [if_neg hodd, if_pos hmask, if_pos (.inr hmask)]
      simp [pure, Except.pure]
    · rw [if_neg hodd, if_neg hmask, if_neg (not_or.mpr ⟨hodd, hmask⟩)]
      by_cases hflag : Compressed e
      · rw [if_pos (show e / 2 ^ 62 % 2 ≠ 0 from hflag), if_pos hflag]
        cases inflate (takenData image.bytes clusterBits e) (2 ^ clusterBits) <;>
          simp [pure, Except.pure, bind, Except.bind]
      · rw [if_neg (show ¬ e / 2 ^ 62 % 2 ≠ 0 from hflag), if_neg hflag]
        simp [pure, Except.pure]

/-- The source of a cluster is what the reader takes its entry for. -/
theorem extent_eq_ok_iff (hparent : r.parent = fileReader image)
    (hbits : 9 ≤ r.clusterBits ∧ r.clusterBits ≤ 21) (off : Nat) (x : Extent) :
    r.extent inflate off = .ok x ↔ ∃ e, l2Entry image.bytes r off = some e ∧
      taken inflate image.bytes r.clusterBits e = some x := by
  have htaken0 : taken inflate image.bytes r.clusterBits 0 = some .hole :=
    if_pos (.inr (Nat.zero_and _))
  simp only [Qcow2Reader.extent, l2Entry]
  cases hl1 : r.l1Table[off / 2 ^ (r.l2Bits + r.clusterBits)]? with
  | none => simp [htaken0]
  | some l1Entry =>
      simp only [Option.getD_some]
      by_cases hzero : l1Entry &&& L2E_OFFSET_MASK = 0
      · simp [hzero, htaken0]
      · have hmask : l1Entry &&& L2E_OFFSET_MASK < 2 ^ 56 :=
          Nat.and_le_right.trans_lt (by decide)
        have hindex : off / 2 ^ r.clusterBits % 2 ^ r.l2Bits < 2 ^ 18 :=
          (Nat.mod_lt _ (Nat.two_pow_pos _)).trans_le
            (Nat.pow_le_pow_right (by omega) (by unfold Qcow2Reader.l2Bits; omega))
        generalize l1Entry &&& L2E_OFFSET_MASK = l2Offset at hzero hmask ⊢
        generalize off / 2 ^ r.clusterBits % 2 ^ r.l2Bits = l2Index at hindex ⊢
        have hwrap : wrap (l2Offset + l2Index * 8) = l2Offset + l2Index * 8 :=
          Nat.mod_eq_of_lt (by omega)
        rw [if_neg hzero, if_neg hzero, hparent, readL2Entry, hwrap]
        by_cases hin : l2Offset + l2Index * 8 + 8 ≤ image.bytes.length
        · rw [readExactly_slice _ hin (by omega), if_pos hin]
          simp only [Except.ok_bind, pure_bind, beField_slice (by omega : 0 + 8 ≤ 8), Nat.add_zero,
            Option.some.injEq, exists_eq_left']
          exact extent_of_entry _ hbits.1 x
        · rw [readExactly_short _ ((by omega : _ < 2 ^ 57).trans (by decide)) (by omega) (by omega),
            if_neg hin]
          simp

theorem taken_ne_absent {e : Nat} {x : Extent}
    (h : taken inflate bytes clusterBits e = some x) : x ≠ .absent := by
  unfold taken at h
  split_ifs at h
  · cases h
    exact fun h => by cases h
  · split at h <;> cases h
    exact fun h => by cases h
  · cases h
    exact fun h => by cases h

theorem taken_stored {e physical : Nat}
    (h : taken inflate bytes clusterBits e = some (.stored physical)) : physical < 2 ^ 56 := by
  unfold taken at h
  split_ifs at h
  · cases h
  · split at h <;> cases h
  · cases h
    exact Nat.and_le_right.trans_lt (by decide)

/-- How much a read of `len` bytes at an offset can return: the rest of its cluster. -/
def Qcow2Reader.served (r : Qcow2Reader) (off len : Nat) : Nat :=
  min (min len (2 ^ r.clusterBits - off % 2 ^ r.clusterBits)) (r.virtualSize - off)

/-- A read is that of what the reader takes the entry for. -/
theorem readAt_eq_ok_iff (hparent : r.parent = fileReader image)
    (hbits : 9 ≤ r.clusterBits ∧ r.clusterBits ≤ 21) {off len : Nat} (hoff : off < r.virtualSize)
    (buf : Bytes) :
    (r.map inflate).readAt off len = .ok buf ↔ ∃ e x, l2Entry image.bytes r off = some e ∧
      taken inflate image.bytes r.clusterBits e = some x ∧
        x.read (fileReader image) (off % 2 ^ r.clusterBits) (r.served off len) = .ok buf := by
  have hsub : off - off / 2 ^ r.clusterBits * 2 ^ r.clusterBits = off % 2 ^ r.clusterBits :=
    Nat.mod_eq_sub_div_mul.symm
  have hrest : off / 2 ^ r.clusterBits * 2 ^ r.clusterBits + 2 ^ r.clusterBits - off
      = 2 ^ r.clusterBits - off % 2 ^ r.clusterBits := by
    have hdiv := Nat.div_add_mod off (2 ^ r.clusterBits)
    rw [Nat.mul_comm] at hdiv
    omega
  rw [DiskMap.readAt, if_neg (show ¬ (r.map inflate).virtualSize ≤ off from Nat.not_le.mpr hoff)]
  simp only [Qcow2Reader.map, blockPiece]
  constructor
  · intro h
    cases hx : r.extent inflate off with
    | error e => simp [hx] at h
    | ok x =>
        obtain ⟨e, he, hex⟩ := (extent_eq_ok_iff hparent hbits off x).mp hx
        simp only [hx, hsub, hrest, hparent] at h
        exact ⟨e, x, he, hex, h⟩
  · rintro ⟨e, x, he, hex, h⟩
    have hx := (extent_eq_ok_iff hparent hbits off x).mpr ⟨e, he, hex⟩
    simp only [hx, hsub, hrest, hparent]
    exact h

/-- The offsets of a read lie in one cluster. -/
theorem served_cluster (image : Image) {off len k : Nat} (hk : k < r.served off len) :
    l2Entry image.bytes r (off + k) = l2Entry image.bytes r off ∧
      (off + k) % 2 ^ r.clusterBits = off % 2 ^ r.clusterBits + k := by
  have hk' : off % 2 ^ r.clusterBits + k < 2 ^ r.clusterBits := by
    unfold Qcow2Reader.served at hk
    omega
  have hdiv : (off + k) / 2 ^ r.clusterBits = off / 2 ^ r.clusterBits := by
    rw [← Nat.div_add_mod off (2 ^ r.clusterBits), Nat.add_assoc,
      Nat.mul_add_div (Nat.two_pow_pos _), Nat.mul_add_div (Nat.two_pow_pos _),
      Nat.div_eq_of_lt hk', Nat.div_eq_of_lt (Nat.mod_lt _ (Nat.two_pow_pos _))]
  have hl1 : ∀ o, o / 2 ^ (r.l2Bits + r.clusterBits) = o / 2 ^ r.clusterBits / 2 ^ r.l2Bits := by
    intro o
    rw [Nat.div_div_eq_div_mul, Nat.add_comm, pow_add]
  constructor
  · simp only [l2Entry, hl1, hdiv]
  · rw [Nat.add_mod, Nat.mod_eq_of_lt (Nat.lt_of_le_of_lt (Nat.le_add_left k _) hk'),
      Nat.mod_eq_of_lt hk']

/-- **QCOW2 clusters**: on an accepted image, a read returns the bytes of the disk, up to the end
of the cluster it starts in, exactly when the entry is not compressed or survives the order of
the tests and the split of its bits. -/
theorem qcow2_readAt_iff (inflate : ReadExact)
    (hinflate : ∀ c rest n d, inflate c n = .ok d → inflate (c ++ rest) n = .ok d)
    (image : Image) (r : Qcow2Reader) (h : new (fileReader image) = .ok r) (off len : Nat)
    (hoff : off < r.virtualSize) (hlen : 0 < len) (buf : Bytes)
    (hbuf : buf.length = r.served off len)
    (hD : ∀ k < buf.length, diskByte inflate image.bytes r (off + k) = buf[k]?) :
    (r.map inflate).readAt off len = .ok buf ↔
      ∀ e, l2Entry image.bytes r off = some e → Compressed e → ∀ k b, buf[k]? = some b →
        Survives inflate image.bytes r.clusterBits e (off % 2 ^ r.clusterBits + k) b := by
  have hparent := new_parent h
  have hbits := new_clusterBits h
  have hpos : 0 < buf.length := by
    have hmod := Nat.mod_lt off (Nat.two_pow_pos r.clusterBits)
    rw [hbuf, Qcow2Reader.served]
    omega
  -- every byte of the window is denoted by the one entry of its cluster
  have hdenoted : ∀ k b, buf[k]? = some b → ∃ e x, l2Entry image.bytes r off = some e ∧
      denoted inflate image.bytes r.clusterBits e = some x ∧
        x.byte image.bytes (off % 2 ^ r.clusterBits + k) = some b := fun k b hb => by
    have hk := (List.getElem?_eq_some_iff.mp hb).1
    obtain ⟨hentry, hmod⟩ := served_cluster image (hbuf ▸ hk)
    have hbyte := hD k hk
    simp only [hb, diskByte, hentry, hmod, Option.bind_eq_bind, Option.bind_eq_some_iff] at hbyte
    obtain ⟨e, he, x, hx, hxb⟩ := hbyte
    exact ⟨e, x, he, hx, hxb⟩
  rw [readAt_eq_ok_iff hparent hbits hoff]
  constructor
  · rintro ⟨e, y, he, hy, hread⟩ e' he' hcompressed k b hb
    obtain rfl := Option.some.inj (he'.symm.trans he)
    obtain ⟨e'', x, he'', hx, hxb⟩ := hdenoted k b hb
    obtain rfl := Option.some.inj (he''.symm.trans he)
    have hk := (List.getElem?_eq_some_iff.mp hb).1
    refine (taken_byte_iff hbits hinflate hx hxb).mp ⟨y, hy, ?_⟩ hcompressed
    rw [← hb]
    refine Extent.byte_of_read (taken_ne_absent hy) (fun physical hp => ?_) hread (hbuf ▸ hk)
    have hphysical := taken_stored (hp ▸ hy)
    have hmod : off % 2 ^ r.clusterBits < 2 ^ 21 :=
      (Nat.mod_lt _ (Nat.two_pow_pos _)).trans_le (Nat.pow_le_pow_right (by omega) hbits.2)
    omega
  · intro hsurvives
    have htaken : ∀ k b, buf[k]? = some b → ∃ e y, l2Entry image.bytes r off = some e ∧
        taken inflate image.bytes r.clusterBits e = some y ∧
          y.byte image.bytes (off % 2 ^ r.clusterBits + k) = some b := fun k b hb => by
      obtain ⟨e, x, he, hx, hxb⟩ := hdenoted k b hb
      obtain ⟨y, hy, hyb⟩ := (taken_byte_iff hbits hinflate hx hxb).mpr
        (fun hcompressed => hsurvives e he hcompressed k b hb)
      exact ⟨e, y, he, hy, hyb⟩
    obtain ⟨e, y, he, hy, hyb⟩ := htaken 0 buf[0] (List.getElem?_eq_getElem hpos)
    refine ⟨e, y, he, hy, Extent.read_eq (flat_fileReader image) (taken_ne_absent hy) hbuf
      ⟨_, hyb⟩ (fun k hk => ?_)⟩
    have hlt : k < buf.length := hbuf ▸ hk
    have hb : buf[k]? = some buf[k] := List.getElem?_eq_getElem hlt
    obtain ⟨e', y', he', hy', hyb'⟩ := htaken k _ hb
    obtain rfl := Option.some.inj (he'.symm.trans he)
    obtain rfl := Option.some.inj (hy'.symm.trans hy)
    rw [hb, hyb']

/-! ## A compressed cluster at an odd and at an even offset -/

/-- Inflation of one stored block. -/
def storedInflate (c : Bytes) (n : Nat) : Except IoError Bytes :=
  match c with
  | 1 :: l0 :: l1 :: _ :: _ :: data =>
      if n ≤ Bytes.le [l0, l1] ∧ Bytes.le [l0, l1] ≤ data.length then .ok (data.take n)
      else .error (.unexpectedEof "failed to fill whole buffer")
  | _ => .error (.unexpectedEof "failed to fill whole buffer")

theorem storedInflate_append (c rest : Bytes) (n : Nat) (d : Bytes)
    (h : storedInflate c n = .ok d) : storedInflate (c ++ rest) n = .ok d := by
  unfold storedInflate at h
  split at h
  · next l0 l1 n0 n1 data =>
      split_ifs at h with hlen
      cases h
      show storedInflate (1 :: l0 :: l1 :: n0 :: n1 :: (data ++ rest)) n = _
      rw [storedInflate, if_pos ⟨hlen.1, by rw [List.length_append]; omega⟩,
        List.take_append_of_le_length (hlen.1.trans hlen.2)]
  · cases h

/-- An image of one cluster of `0xaa`, stored in a deflate block that starts `gap` bytes after
the L2 table, at 1536. -/
def oneCluster (gap : UInt8) : Bytes :=
  [0x51, 0x46, 0x49, 0xfb, 0, 0, 0, 2] ++ List.replicate 12 0 ++ [0, 0, 0, 9]
    ++ [0, 0, 0, 0, 0, 0, 2, 0] ++ List.replicate 4 0 ++ [0, 0, 0, 1, 0, 0, 0, 0, 0, 0, 2, 0]
    ++ List.replicate 464 0
    ++ [0, 0, 0, 0, 0, 0, 4, 0] ++ List.replicate 504 0
    ++ [0x60, 0, 0, 0, 0, 0, 6, gap] ++ List.replicate 504 0
    ++ List.replicate gap.toNat 0 ++ [1, 0, 2, 0xff, 0xfd] ++ List.replicate 512 0xaa
    ++ List.replicate 504 0

theorem length_oneCluster_lt (gap : UInt8) : (oneCluster gap).length < FILE_OFFSET_LIMIT := by
  have hgap := gap.toNat_lt
  simp only [oneCluster, List.length_append, List.length_replicate, List.length_cons,
    List.length_nil, FILE_OFFSET_LIMIT]
  omega

def oneClusterImage (gap : UInt8) : Image := ⟨oneCluster gap, length_oneCluster_lt gap⟩

def oneClusterReader (gap : UInt8) : Qcow2Reader where
  parent := fileReader (oneClusterImage gap)
  l1Table := [0x400]
  clusterBits := 9
  virtualSize := 512

theorem new_oneCluster {gap : UInt8} (h : gap = 1 ∨ gap = 2) :
    new (fileReader (oneClusterImage gap)) = .ok (oneClusterReader gap) := by
  rcases h with rfl | rfl
  all_goals
    rw [new_eq (by decide +kernel) (by decide +kernel) (by decide +kernel) (by decide +kernel)
      (by decide +kernel) (by decide +kernel)]
    refine congrArg Except.ok (Qcow2Reader.mk.injEq .. |>.mpr ⟨rfl, ?_, ?_, ?_⟩) <;> decide +kernel

/-- The disk has one entry. -/
theorem l2Entry_oneCluster (gap : UInt8) {off : Nat} (hoff : off < 512) :
    l2Entry (oneCluster gap) (oneClusterReader gap) off
      = l2Entry (oneCluster gap) (oneClusterReader gap) 0 := by
  have hl1 : off / 2 ^ 15 = 0 := Nat.div_eq_of_lt (by omega)
  have hl2 : off / 2 ^ 9 = 0 := Nat.div_eq_of_lt hoff
  simp only [l2Entry, oneClusterReader, Qcow2Reader.l2Bits, Nat.reduceSub, Nat.reduceAdd, hl1, hl2,
    Nat.zero_div]

/-- The cluster of the disk is the data of the block. -/
theorem diskByte_oneCluster {gap : UInt8} {e : Nat}
    (hentry : l2Entry (oneCluster gap) (oneClusterReader gap) 0 = some e) (he : Compressed e)
    (hdata : storedInflate ((oneCluster gap).slice (hostOffset 9 e) (hostSize 9 e)) (2 ^ 9)
      = .ok (List.replicate 512 0xaa)) (off : Nat) (hoff : off < 512) :
    diskByte storedInflate (oneCluster gap) (oneClusterReader gap) off
      = (List.replicate 512 0xaa : Bytes)[off]? := by
  have hoffset : l2Entry (oneCluster gap) (oneClusterReader gap) off = some e :=
    (l2Entry_oneCluster gap hoff).trans hentry
  have hx : denoted storedInflate (oneCluster gap) 9 e = some (.unpacked (List.replicate 512 0xaa)) := by
    rw [denoted, if_pos he]
    simp only [hdata]
  simp only [diskByte, hoffset, Option.bind_eq_bind, Option.bind_some]
  rw [show (oneClusterReader gap).clusterBits = 9 from rfl, hx, Option.bind_some,
    Nat.mod_eq_of_lt (show off < 2 ^ 9 from hoff)]
  rfl

/-- At an odd host offset, a compressed cluster reads as zeros. -/
theorem odd_host_offset_zeros :
    ¬ ∀ (inflate : ReadExact),
      (∀ c rest n d, inflate c n = .ok d → inflate (c ++ rest) n = .ok d) →
      ∀ (image : Image) (r : Qcow2Reader), new (fileReader image) = .ok r →
        ∀ (off len : Nat) (buf : Bytes), off < r.virtualSize → buf.length = r.served off len →
          (∀ k < buf.length, diskByte inflate image.bytes r (off + k) = buf[k]?) →
          (r.map inflate).readAt off len = .ok buf := by
  intro h
  have hentry : l2Entry (oneCluster 1) (oneClusterReader 1) 0 = some 0x6000000000000601 := by
    decide +kernel
  have hread := h storedInflate storedInflate_append (oneClusterImage 1) (oneClusterReader 1)
    (new_oneCluster (.inl rfl)) 0 512 (List.replicate 512 0xaa) (by decide) List.length_replicate
    (fun off hoff => by
      rw [List.length_replicate] at hoff
      rw [Nat.zero_add]
      exact diskByte_oneCluster hentry (by decide) (by decide +kernel) off hoff)
  obtain ⟨e, x, he, hx, hzeros⟩ := (readAt_eq_ok_iff
    (show (oneClusterReader 1).parent = fileReader (oneClusterImage 1) from rfl) (by decide)
    (by decide) _).mp hread
  obtain rfl := Option.some.inj (he.symm.trans hentry)
  obtain rfl := Option.some.inj (hx.symm.trans (if_pos (.inl (by decide))))
  exact absurd (Except.ok.inj hzeros) (by decide +kernel)

/-- At an even host offset, it is read right. -/
theorem even_host_offset_read :
    ((oneClusterReader 2).map storedInflate).readAt 0 512 = .ok (List.replicate 512 0xaa) := by
  have hentry : l2Entry (oneCluster 2) (oneClusterReader 2) 0 = some 0x6000000000000602 := by
    decide +kernel
  refine (qcow2_readAt_iff storedInflate storedInflate_append (oneClusterImage 2)
    (oneClusterReader 2) (new_oneCluster (.inr rfl)) 0 512 (by decide) (by decide)
    (List.replicate 512 0xaa) List.length_replicate (fun off hoff => ?_)).mpr
    (fun e he _ k b hb => ?_)
  · rw [List.length_replicate] at hoff
    rw [Nat.zero_add]
    exact diskByte_oneCluster hentry (by decide) (by decide +kernel) off hoff
  · obtain rfl := Option.some.inj (he.symm.trans hentry)
    rw [Survives, if_neg (by decide)]
    exact .inl (by decide)

end Mountin.Qcow2
