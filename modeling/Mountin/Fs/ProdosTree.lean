import Mountin.Fs.ProdosDirectory

set_option autoImplicit false

/-! # Trees of ProDOS volumes

What the writer has laid down for one entry depends on the blocks it took for it and on the slot of
the entry. `Built` says so of a part of a listing, and parts compose (`Built.trans`).

* `buildTree_spec` : the tree as a whole.
* `layOut_found` : the reader finds the files of the tree and no others.
* `createImage_eq` : the verification at the end never fails.
-/

namespace Mountin.Prodos

open Volume

/-! ## Entries -/

/-- What the reader sees in an entry. -/
structure EntryIs (off storage : Nat) (name : ProdosName) (key eof : Nat) (im : Bytes) : Prop where
  storage_eq : (byteAt im off).toNat >>> 4 = storage
  namelen_eq : (byteAt im off).toNat &&& 0x0f = name.chars.length
  name_eq : decodeAscii (im.slice (off + 0x01) name.chars.length) = some name.chars
  key_eq : leField im (off + 0x11) 2 = key
  eof_eq : leField im (off + 0x15) 3 = eof

theorem nibbles : ∀ s < 16, ∀ l < 16, (UInt8.ofNat (s <<< 4 ||| l)).toNat >>> 4 = s ∧
    (UInt8.ofNat (s <<< 4 ||| l)).toNat &&& 0x0f = l := by
  decide

theorem le_toBytes3 {n : Nat} (h : n < 16777216) : Bytes.le (toBytes3 n) = n := by
  simp only [toBytes3, Bytes.le, UInt8.toNat_ofNat']
  omega

namespace ProdosName

variable (name : ProdosName)

theorem pos : 0 < name.chars.length := by
  have hleading := name.leading
  cases h : name.chars with
  | nil => rw [h] at hleading; cases hleading
  | cons c rest => exact Nat.succ_pos _

theorem ascii {c : Char} (h : c ∈ name.chars) : c.toNat < 128 := by
  rcases name.legal c h with hupper | hdigit | rfl
  · have hclass : c.isAlphanum = ((c.isUpper || c.isLower) || c.isDigit) := rfl
    have hbounds := isAlphanum_bounds (c := c) (by rw [hclass, hupper, Bool.true_or, Bool.true_or])
    omega
  · have hbounds := isAlphanum_bounds (c := c) (by
      simp only [Char.isAlphanum, hdigit, Bool.or_true])
    omega
  · decide

theorem encode_eq : encodeAscii name.chars = some name.encoded := by
  rw [encodeAscii, if_pos (List.all_eq_true.mpr fun c hc => decide_eq_true (name.ascii hc))]
  rfl

theorem length_encoded : name.encoded.length = name.chars.length := List.length_map _

theorem length_field : name.field.length = MAX_NAME := by
  have hshort := name.short
  rw [field, List.length_append, List.length_replicate, length_encoded]
  omega

/-- The first bytes of the field of a name are the name. -/
theorem decode_field : decodeAscii (name.field.take name.chars.length) = some name.chars := by
  have hdecode := (decode_encode name.encode_eq name.chars.length).2
  rw [List.take_length] at hdecode
  rw [field, List.take_append_of_le_length (Nat.le_of_eq name.length_encoded.symm)]
  exact hdecode

end ProdosName

section

variable {img img' : Bytes} {d : Directory}

/-- An entry is written into its slot. -/
theorem writeEntry_spec (m storage key used eof header : Nat) (ftype : UInt8) (name : ProdosName)
    (hok : Ok img) (hd : DirOk img d) (hle : m ≤ d.count) (hstorage : storage < 16)
    (hkey : key < 65536) (heof : eof < 16777216) :
    Grows (slotCells d.blocks m) img
        (img.splices (entryWrites (slotOff d.blocks m) storage name ftype key used eof header)) ∧
      (∀ b, Free (img.splices (entryWrites (slotOff d.blocks m) storage name ftype key used eof header)) b
        ↔ Free img b) ∧
      Local (slotCells d.blocks m) (EntryIs (slotOff d.blocks m) storage name key eof)
        (img.splices (entryWrites (slotOff d.blocks m) storage name ftype key used eof header)) := by
  obtain ⟨b, hb, hoff⟩ := slotOff_eq (hd.slot_lt hle)
  obtain ⟨hbt, hbmap, -, hbused⟩ := hd.valid b (List.mem_of_getElem? hb)
  have hmod := Nat.mod_lt m (show 0 < ENTRIES_PER_BLOCK by decide)
  have hshort := name.short
  have hfield := name.length_field
  have hroom : b * BLOCK ≤ slotOff d.blocks m ∧ slotOff d.blocks m + ENTRY_LEN ≤ b * BLOCK + BLOCK := by
    simp only [BLOCK, ENTRY_BASE, ENTRY_LEN, ENTRIES_PER_BLOCK] at *
    omega
  rw [slotCells]
  generalize slotOff d.blocks m = off at hroom ⊢
  have hwithin : ∀ w ∈ entryWrites off storage name ftype key used eof header,
      off ≤ w.1 ∧ w.1 + w.2.length ≤ off + ENTRY_LEN := by
    simp only [entryWrites, List.forall_mem_cons, List.not_mem_nil, IsEmpty.forall_iff, implies_true,
      and_true, length_word, hfield, toBytes3, List.length_cons, List.length_nil, ENTRY_LEN, MAX_NAME]
    omega
  obtain ⟨hgrows, hfree, hthere⟩ := hok.writes _
    (fun w hw => ⟨b, hbt, hbmap, hbused, by have := hwithin w hw; omega,
      by have := hwithin w hw; omega⟩) (by
    simp only [entryWrites, List.pairwise_cons, List.forall_mem_cons, List.not_mem_nil,
      IsEmpty.forall_iff, implies_true, and_true, List.Pairwise.nil, length_word, hfield, toBytes3,
      List.length_cons, List.length_nil, MAX_NAME]
    omega)
  simp only [entryWrites, List.forall_mem_cons, List.not_mem_nil, IsEmpty.forall_iff, implies_true,
    and_true, List.length_singleton, length_word, hfield] at hthere
  obtain ⟨hfirst, hname, -, hkeys, -, heofs, -, -⟩ := hthere
  refine ⟨hgrows.mono_set ?_, hfree, fun im him => ?_⟩
  · rintro i ⟨w, hw, hmem⟩
    have hbounds := hwithin w hw
    rw [mem_cells] at hmem ⊢
    omega
  · have hslice {p n : Nat} (hlo : off ≤ p) (hhi : p + n ≤ off + ENTRY_LEN) :
        im.slice p n = _ := him.slice fun i hi => by
      rw [mem_cells] at hi ⊢
      omega
    have hb0 := (hslice (p := off + 0x00) (n := 1) (by omega) (by simp only [ENTRY_LEN]; omega)).trans
      hfirst
    rw [Nat.add_zero] at hb0
    have hbyte : byteAt im off = UInt8.ofNat (storage <<< 4 ||| name.chars.length) := by
      rw [byteAt, List.getD_eq_getElem?_getD, getElem?_of_slice hb0, Option.getD_some]
    have hnibbles := nibbles storage hstorage name.chars.length (by
      simp only [MAX_NAME] at hshort
      omega)
    refine ⟨by rw [hbyte]; exact hnibbles.1, by rw [hbyte]; exact hnibbles.2, ?_, ?_, ?_⟩
    · have hwindow := (hslice (p := off + 0x01) (n := MAX_NAME) (by omega)
        (by simp only [ENTRY_LEN, MAX_NAME]; omega)).trans hname
      have hpart := slice_of_window hwindow (k := 0) (w := name.chars.length) (by omega)
      rw [Nat.add_zero] at hpart
      rw [hpart, List.slice, List.drop_zero]
      exact name.decode_field
    · exact leField_word hkey ((hslice (by omega) (by simp only [ENTRY_LEN]; omega)).trans hkeys)
    · rw [leField, (hslice (n := 3) (by omega) (by simp only [ENTRY_LEN]; omega)).trans heofs]
      exact le_toBytes3 heof

/-! ## The walk along a directory -/

theorem extractEntry_empty {im : Bytes} {off : Nat} (h : byteAt im off = 0)
    (recur : Nat → List Name → Dict (List Name) Bytes → Option (Dict (List Name) Bytes))
    (path : List Name) (out : Dict (List Name) Bytes) :
    extractEntry im recur path out off = some out := by
  rw [extractEntry, h, if_pos (.inl rfl)]

theorem extractEntry_file {im data : Bytes} {off storage key eof : Nat} {name : ProdosName}
    (h : EntryIs off storage name key eof im) (hstorage : storage = ST_SEEDLING ∨ storage = ST_SAPLING)
    (hdata : readFile im storage key eof = data)
    (recur : Nat → List Name → Dict (List Name) Bytes → Option (Dict (List Name) Bytes))
    (path : List Name) (out : Dict (List Name) Bytes) :
    extractEntry im recur path out off = some (out.set (path ++ [name.chars]) data) := by
  have hpos := name.pos
  have hne : storage ≠ 0 ∧ storage ≠ ST_SUBDIR := by
    rcases hstorage with rfl | rfl <;> decide
  simp only [extractEntry, h.storage_eq, h.namelen_eq, h.name_eq, h.key_eq, h.eof_eq, hdata]
  rw [if_neg (by omega)]
  simp only [Option.bind_eq_bind, Option.bind_some, if_neg hne.2, if_pos hstorage, Option.pure_def]

theorem extractEntry_subdir {im : Bytes} {off key eof : Nat} {name : ProdosName}
    (h : EntryIs off ST_SUBDIR name key eof im)
    (recur : Nat → List Name → Dict (List Name) Bytes → Option (Dict (List Name) Bytes))
    (path : List Name) (out : Dict (List Name) Bytes) :
    extractEntry im recur path out off = recur key (path ++ [name.chars]) out := by
  have hpos := name.pos
  simp only [extractEntry, h.storage_eq, h.namelen_eq, h.name_eq, h.key_eq]
  rw [if_neg (by simp only [ST_SUBDIR]; omega)]
  simp only [Option.bind_eq_bind, Option.bind_some, if_true]

/-- The entries of a chain, one block after the other. -/
theorem slots_cons (b : Nat) (rest : List Nat) {s : Nat} (hs : s ≤ ENTRIES_PER_BLOCK) :
    (List.range' s (ENTRIES_PER_BLOCK - s)).map (fun ei => b * BLOCK + ENTRY_BASE + ei * ENTRY_LEN) ++
        (List.range' 0 (rest.length * ENTRIES_PER_BLOCK)).map (slotOff rest) =
      (List.range' s ((b :: rest).length * ENTRIES_PER_BLOCK - s)).map (slotOff (b :: rest)) := by
  have hsplit : (b :: rest).length * ENTRIES_PER_BLOCK - s =
      (ENTRIES_PER_BLOCK - s) + rest.length * ENTRIES_PER_BLOCK := by
    rw [List.length_cons, Nat.succ_mul]
    omega
  rw [hsplit, ← List.range'_append_1, List.map_append, Nat.add_sub_cancel' hs]
  refine congrArg₂ (· ++ ·) ?_ ?_
  · refine List.map_congr_left fun ei hei => ?_
    obtain ⟨-, hlt⟩ := List.mem_range'_1.mp hei
    rw [slotOff, Nat.div_eq_of_lt (by omega), Nat.mod_eq_of_lt (by omega), List.getD_cons_zero]
  · have hshift : List.range' ENTRIES_PER_BLOCK (rest.length * ENTRIES_PER_BLOCK) =
        (List.range' 0 (rest.length * ENTRIES_PER_BLOCK)).map (ENTRIES_PER_BLOCK + ·) := by
      rw [List.map_add_range', Nat.add_zero]
    rw [hshift, List.map_map]
    refine List.map_congr_left fun m _ => ?_
    rw [Function.comp_apply, slotOff, slotOff, Nat.add_div_left _ (by decide), Nat.add_mod_left,
      List.getD_cons_succ]

/-- The chain is followed to its end. -/
theorem iterEntries_spec (im : Bytes) (first : Bool) {blocks : List Nat} {fuel : Nat}
    (hchain : ∀ k b, blocks[k]? = some b →
      leField im (b * BLOCK + 2) 2 = blocks.getD (k + 1) 0)
    (hne : ∀ b ∈ blocks, b ≠ 0) (hfuel : blocks.length ≤ fuel) :
    iterEntries im fuel (blocks.headD 0) first =
      some ((List.range' (if first then 1 else 0)
        (blocks.length * ENTRIES_PER_BLOCK - (if first then 1 else 0))).map (slotOff blocks)) := by
  induction blocks generalizing fuel first with
  | nil =>
      rw [List.length_nil, Nat.zero_mul, Nat.zero_sub]
      cases fuel <;> rfl
  | cons b rest ih =>
      rw [List.length_cons] at hfuel
      obtain ⟨fuel, rfl⟩ : ∃ n, fuel = n + 1 := ⟨fuel - 1, by omega⟩
      have hb := hne b List.mem_cons_self
      have hnext : leField im (b * BLOCK + 2) 2 = rest.headD 0 := by
        rw [hchain 0 b rfl]
        cases rest <;> rfl
      have hrest := @ih false fuel (fun k c hk => hchain (k + 1) c hk)
        (fun c hc => hne c (List.mem_cons_of_mem _ hc)) (by omega)
      rw [iterEntries, List.headD_cons, if_neg hb]
      dsimp only
      rw [hnext, hrest]
      simp only [Option.bind_eq_bind, Option.bind_some, Option.pure_def, Bool.false_eq_true, if_false,
        Nat.sub_zero]
      rw [slots_cons b rest (by split <;> decide)]

end

/-! ## What the reader finds -/

/-- The walk over some entries finds some files, with `n` directories to go down. -/
def Finds (n : Nat) (path : List Name) (offs : List Nat) (files : Dict (List Name) Bytes)
    (im : Bytes) : Prop :=
  ∀ fuel, n ≤ fuel → ∀ out,
    offs.foldlM (extractEntry im (extractDir im fuel) path) out = some (Dict.update out files)

/-- The entries of a directory from one count to another. -/
def slotsOf (blocks : List Nat) (p q : Nat) : List Nat :=
  (List.range' (p + 1) (q - p)).map (slotOff blocks)

section

variable {img img' : Bytes} {d : Directory}

theorem update_append {κ α : Type} [DecidableEq κ] (d a b : Dict κ α) :
    Dict.update d (a ++ b) = Dict.update (Dict.update d a) b := by
  rw [Dict.update, Dict.update, Dict.update, List.foldl_append]

theorem Finds.append {n m : Nat} {path : List Name} {offs offs' : List Nat}
    {files files' : Dict (List Name) Bytes} {im : Bytes} (h : Finds n path offs files im)
    (h' : Finds m path offs' files' im) :
    Finds (max n m) path (offs ++ offs') (files ++ files') im := fun fuel hfuel out => by
  rw [List.foldlM_append, h fuel (by omega) out, update_append]
  exact h' fuel (by omega) _

theorem Finds.nil (n : Nat) (path : List Name) (im : Bytes) : Finds n path [] [] im :=
  fun _ _ _ => rfl

theorem Finds.mono {n m : Nat} {path : List Name} {offs : List Nat}
    {files : Dict (List Name) Bytes} {im : Bytes} (h : Finds n path offs files im) (hle : n ≤ m) :
    Finds m path offs files im := fun fuel hfuel => h fuel (hle.trans hfuel)

theorem slotsOf_append (blocks : List Nat) {p q r : Nat} (hpq : p ≤ q) (hqr : q ≤ r) :
    slotsOf blocks p q ++ slotsOf blocks q r = slotsOf blocks p r := by
  have hlen : r - p = (q - p) + (r - q) := by omega
  have hstart : p + 1 + (q - p) = q + 1 := by omega
  rw [slotsOf, slotsOf, slotsOf, ← List.map_append, hlen, ← List.range'_append_1, hstart]

theorem foldlM_empty {im : Bytes} {offs : List Nat} (h : ∀ off ∈ offs, byteAt im off = 0)
    (recur : Nat → List Name → Dict (List Name) Bytes → Option (Dict (List Name) Bytes))
    (path : List Name) (out : Dict (List Name) Bytes) :
    offs.foldlM (extractEntry im recur path) out = some out := by
  induction offs with
  | nil => rfl
  | cons off offs ih =>
      rw [List.forall_mem_cons] at h
      rw [List.foldlM_cons, extractEntry_empty h.1]
      exact ih h.2

/-- A directory is read by its chain and its entries. -/
theorem DirOk.extract {n : Nat} {path : List Name} {files : Dict (List Name) Bytes} {im : Bytes}
    (hd : DirOk img d) (him : AgreeOn d.spare img im)
    (hfinds : Finds n path (slotsOf d.blocks 0 d.count) files im) {fuel : Nat} (hfuel : n < fuel)
    (out : Dict (List Name) Bytes) :
    extractDir im fuel d.keyBlock path out = some (Dict.update out files) := by
  obtain ⟨fuel, rfl⟩ : ∃ k, fuel = k + 1 := ⟨fuel - 1, by omega⟩
  have hwalk := iterEntries_spec im true (fun _ _ hk => hd.chain_congr him hk)
    (fun b hb => (hd.valid b hb).2.2.1) hd.few_blocks
  have hcount := hd.slot_lt (Nat.le_refl d.count)
  have hslots : (List.range' 1 (d.blocks.length * ENTRIES_PER_BLOCK - 1)).map (slotOff d.blocks)
      = slotsOf d.blocks 0 d.count ++
        slotsOf d.blocks d.count (d.blocks.length * ENTRIES_PER_BLOCK - 1) := by
    rw [slotsOf_append _ (Nat.zero_le _) (by omega)]
    rfl
  have hrest : ∀ off ∈ slotsOf d.blocks d.count (d.blocks.length * ENTRIES_PER_BLOCK - 1),
      byteAt im off = 0 := by
    intro off hoff
    obtain ⟨m, hm, rfl⟩ := List.mem_map.mp hoff
    obtain ⟨hlo, hhi⟩ := List.mem_range'_1.mp hm
    exact hd.empty_congr him (by omega) (by omega)
  have hkey : d.keyBlock = d.blocks.headD 0 := rfl
  rw [extractDir, hkey, hwalk]
  simp only [if_true, Option.bind_eq_bind, Option.bind_some]
  rw [hslots, List.foldlM_append, hfinds fuel (by omega) out]
  exact foldlM_empty hrest _ _ _

/-- One entry for a file. -/
theorem finds_file {off storage key : Nat} {name : ProdosName} {data im : Bytes} {path : List Name}
    (h : EntryIs off storage name key data.length im)
    (hstorage : storage = ST_SEEDLING ∨ storage = ST_SAPLING)
    (hdata : readFile im storage key data.length = data) :
    Finds 0 path [off] [(path ++ [name.chars], data)] im := fun fuel _ out => by
  rw [List.foldlM_cons, extractEntry_file h hstorage hdata]
  rfl

/-- One entry for a subdirectory. -/
theorem finds_subdir {off eof n : Nat} {name : ProdosName} {im : Bytes} {path : List Name}
    {files : Dict (List Name) Bytes} (h : EntryIs off ST_SUBDIR name d.keyBlock eof im)
    (hd : DirOk img d) (him : AgreeOn d.spare img im)
    (hfinds : Finds n (path ++ [name.chars]) (slotsOf d.blocks 0 d.count) files im) :
    Finds (n + 1) path [off] files im := fun fuel hfuel out => by
  rw [List.foldlM_cons, extractEntry_subdir h, hd.extract him hfinds hfuel out]
  rfl

end

/-- The files of a tree by their keys. -/
def filesOf (t : Upper) : Listing → List Name → Dict (List Name) Bytes
  | .nil, _ => []
  | .symlink _ rest, path => filesOf t rest path
  | .other _ rest, path => filesOf t rest path
  | .file name data rest, path => (path ++ [(prodosName t name).chars], data) :: filesOf t rest path
  | .dir name children rest, path =>
      filesOf t children (path ++ [(prodosName t name).chars]) ++ filesOf t rest path

/-- What a part of the tree has become: the entries from one state of the directory to another, and
the blocks that were taken besides those of the directory. -/
def footprint (img img' : Bytes) (d d' : Directory) : Set Nat :=
  {i | (Taken img img' (i / BLOCK) ∧ i / BLOCK ∉ d'.blocks) ∨
    ∃ m, d.count < m ∧ m ≤ d'.count ∧ i ∈ slotCells d'.blocks m}

/-- What `build_tree` has done to a directory. -/
structure Built (img img' : Bytes) (d d' : Directory) (n : Nat) (path : List Name)
    (files : Dict (List Name) Bytes) : Prop where
  grows : Grows d.spare img img'
  dir : DirOk img' d'
  extends_ : ∃ ext, d'.blocks = d.blocks ++ ext ∧ ∀ b ∈ ext, Taken img img' b
  count_le : d.count ≤ d'.count
  finds : Local (footprint img img' d d') (Finds n path (slotsOf d'.blocks d.count d'.count) files)
    img'

section

variable {img img₁ img₂ img₃ img' : Bytes} {d d₁ d₂ d' : Directory} {ext : List Nat}

theorem Ok.ne_bitmap (h : Ok img) {b : Nat} (hb : Free img b) : b ≠ BITMAP_BLOCK := fun heq =>
  h.reserved b (by rw [heq]; decide) hb

theorem DirOk.slot_append (h : DirOk img d) (hext : d'.blocks = d.blocks ++ ext) {m : Nat}
    (hm : m ≤ d.count) : slotCells d'.blocks m = slotCells d.blocks m := by
  rw [slotCells, slotCells, hext, slotOff_append (h.slot_lt hm)]

theorem DirOk.slot_block (h : DirOk img d) {m i : Nat} (hm : m ≤ d.count)
    (hi : i ∈ slotCells d.blocks m) : i / BLOCK ∈ d.blocks :=
  List.mem_of_getElem? (mem_slotCells (h.slot_lt hm) hi).1

/-- What a later directory has besides its entries was spare, or is in a new block. -/
theorem DirOk.spare_extends (h : DirOk img d) (hext : d'.blocks = d.blocks ++ ext)
    (hcount : d.count ≤ d'.count) {i : Nat} (hi : i ∈ d'.spare) :
    i ∈ d.spare ∨ i / BLOCK ∈ ext := by
  obtain ⟨hmem, hout⟩ := hi
  rw [hext, List.mem_append] at hmem
  refine hmem.imp_left fun hold => ⟨hold, fun m hm hle => ?_⟩
  rw [← h.slot_append hext hle]
  exact hout m hm (hle.trans hcount)

/-- A new entry is where the directory was spare, or in a new block. -/
theorem DirOk.slot_extends (h : DirOk img d) (h' : DirOk img' d')
    (hext : d'.blocks = d.blocks ++ ext) {m i : Nat} (hlo : d.count < m) (hhi : m ≤ d'.count)
    (hi : i ∈ slotCells d'.blocks m) : i ∈ d.spare ∨ i / BLOCK ∈ ext := by
  have hmem := h'.slot_block hhi hi
  rw [hext, List.mem_append] at hmem
  refine hmem.imp_left fun hold => ⟨hold, fun n hn hle hin => ?_⟩
  rw [← h.slot_append hext hle] at hin
  have heq := slotCells_inj h'.nodup (h'.slot_lt hhi) (h'.slot_lt (by omega)) hi hin
  omega

/-- An entry that is there is not spare. -/
theorem slot_not_spare {m i : Nat} (hm : 1 ≤ m) (hle : m ≤ d.count)
    (hi : i ∈ slotCells d.blocks m) : i ∉ d.spare := fun hs => hs.2 m hm hle hi

/-- One part of a listing after the other. -/
theorem Built.trans {n m : Nat} {path : List Name} {files files' : Dict (List Name) Bytes}
    (hok : Ok img) (hd : DirOk img d) (h : Built img img₁ d d₁ n path files)
    (h' : Built img₁ img₂ d₁ d₂ m path files') :
    Built img img₂ d d₂ (max n m) path (files ++ files') := by
  obtain ⟨ext, hext, htaken⟩ := h.extends_
  obtain ⟨ext', hext', htaken'⟩ := h'.extends_
  have hwhole : Grows d.spare img img₂ := h.grows.trans h'.grows fun i hi =>
    (hd.spare_extends hext h.count_le hi).imp_right fun hmem => (htaken _ hmem).1
  have hslots : slotsOf d₁.blocks d.count d₁.count = slotsOf d₂.blocks d.count d₁.count := by
    refine List.map_congr_left fun k hk => ?_
    obtain ⟨-, hhi⟩ := List.mem_range'_1.mp hk
    have hcount := h.count_le
    rw [hext', slotOff_append (h.dir.slot_lt (by omega))]
  refine ⟨hwhole, h'.dir, ⟨ext ++ ext', by rw [hext', hext, List.append_assoc], fun b hb => ?_⟩,
    h.count_le.trans h'.count_le, ?_⟩
  · rcases List.mem_append.mp hb with hb | hb
    · exact (htaken b hb).of_first h'.grows
    · exact Taken.of_second h.grows (htaken' b hb)
  · have hold : Local (footprint img img₁ d d₁)
        (Finds n path (slotsOf d₁.blocks d.count d₁.count) files) img₂ := by
      refine h'.grows.local h.finds ?_
      rintro i (⟨htake, hout⟩ | ⟨k, hlo, hhi, hmem⟩)
      · exact ⟨hok.ne_bitmap htake.1, htake.2, fun hs => hout hs.1⟩
      · obtain ⟨-, hmap, -, hused⟩ := h.dir.valid _ (h.dir.slot_block hhi hmem)
        exact ⟨hmap, hused, slot_not_spare (by omega) hhi hmem⟩
    refine ((hold.and h'.finds).mono ?_).imp fun im _ hboth => ?_
    · rintro i ((⟨htake, hout⟩ | ⟨k, hlo, hhi, hmem⟩) | ⟨htake, hout⟩ | ⟨k, hlo, hhi, hmem⟩)
      · refine .inl ⟨htake.of_first h'.grows, fun hin => ?_⟩
        rw [hext', List.mem_append] at hin
        exact hin.elim hout fun hnew => htake.2 (htaken' _ hnew).1
      · exact .inr ⟨k, hlo, hhi.trans h'.count_le, by rwa [h.dir.slot_append hext' hhi]⟩
      · exact .inl ⟨Taken.of_second h.grows htake, hout⟩
      · exact .inr ⟨k, Nat.lt_of_le_of_lt h.count_le hlo, hhi, hmem⟩
    · rw [hslots] at hboth
      rw [← slotsOf_append d₂.blocks h.count_le h'.count_le]
      exact hboth.1.append hboth.2

theorem slotsOf_one (blocks : List Nat) (p : Nat) : slotsOf blocks p (p + 1) = [slotOff blocks (p + 1)] := by
  rw [slotsOf, Nat.add_sub_cancel_left]
  rfl

/-- A file of a listing. -/
theorem addFile_spec {t : Upper} {name : ProdosName} {data : Bytes} (hok : Ok img)
    (hd : DirOk img d) (h : addFile t img d name data = .ok (img', d')) (path : List Name) :
    Built img img' d d' 0 path [(path ++ [name.chars], data)] := by
  obtain ⟨⟨⟨storage, key, used⟩, img₁⟩, hfile, hrest⟩ := bind_ok.mp h
  obtain ⟨⟨⟨off, blk, ei⟩, img₂, d₂⟩, hslot, hrest⟩ := bind_ok.mp hrest
  obtain ⟨rfl, rfl⟩ := Prod.mk.inj (Except.ok.inj hrest)
  obtain ⟨hgrows₁, hkey, hstorage, hsize, hread⟩ := writeFileData_spec hok hfile
  have hd₁ : DirOk img₁ d := hd.grows hgrows₁ fun _ hi => absurd hi (Set.notMem_empty _)
  obtain ⟨hgrows₂, hd₂, hcount, rfl, ext, hext, htaken⟩ := allocSlot_spec hgrows₁.ok hd₁ hslot
  have hkeylt := hkey.1.1
  obtain ⟨hgrows₃, -, hentry⟩ := writeEntry_spec (d.count + 1) storage key used data.length d₂.keyBlock
    (fileTypeFor t name) name hgrows₂.ok hd₂ (Nat.le_of_eq hcount.symm)
    (by rcases hstorage with rfl | rfl <;> decide)
    (by simp only [TOTAL_BLOCKS] at hkeylt; omega) (by simp only [SAPLING_MAX] at hsize; omega)
  have hstep : Grows d.spare img img₂ :=
    (hgrows₁.mono_set (Set.empty_subset _)).trans hgrows₂ fun _ hi => .inl hi
  have hnew : ∀ i ∈ slotCells d₂.blocks (d.count + 1), i ∈ d.spare ∨ i / BLOCK ∈ ext := fun i hi =>
    hd₁.slot_extends hd₂ hext (Nat.lt_succ_self _) (Nat.le_of_eq hcount.symm) hi
  have hwhole := hstep.trans hgrows₃ fun i hi =>
    (hnew i hi).imp_right fun hmem => hgrows₁.mono _ (htaken _ hmem).1
  refine ⟨hwhole, hd₂.grows hgrows₃ fun i hi => ?_, ⟨ext, hext, fun b hb => ?_⟩,
    hcount ▸ Nat.le_succ _, ?_⟩
  · exact slot_not_spare (Nat.succ_pos _) (Nat.le_of_eq hcount.symm) hi
  · exact (Taken.of_second hgrows₁ (htaken b hb)).of_first hgrows₃
  · -- neither the slot nor its entry meets the blocks of the data
    have hspare : ∀ i ∈ takenCells img img₁, i ∉ d.spare := fun i hi hs =>
      (hd.valid _ hs.1).2.2.2 hi.1
    have hdata := hgrows₂.local hread fun i hi => ⟨hok.ne_bitmap hi.1, hi.2, hspare i hi⟩
    have hdata' := hgrows₃.local hdata fun i hi => ⟨hok.ne_bitmap hi.1,
      fun hf => hi.2 (hgrows₂.mono _ hf), fun hmem => (hnew i hmem).elim (hspare i hi) fun hnew =>
        hi.2 (htaken _ hnew).1⟩
    refine ((hdata'.and hentry).mono ?_).imp fun im _ hboth => ?_
    · rintro i (hi | hi)
      · refine .inl ⟨(Taken.of_first hi hgrows₂).of_first hgrows₃, fun hmem => ?_⟩
        rw [hext, List.mem_append] at hmem
        exact hmem.elim (fun hold => (hd.valid _ hold).2.2.2 hi.1) fun hnew => hi.2 (htaken _ hnew).1
      · exact .inr ⟨d.count + 1, Nat.lt_succ_self _, Nat.le_of_eq hcount.symm, hi⟩
    · rw [hcount, slotsOf_one]
      exact finds_file hboth.2 hstorage hboth.1

end

/-! ## Subdirectories -/

section

variable {img img₁ img₂ img' : Bytes} {d d' : Directory}

/-- A header has its own entry, but for the count. -/
theorem header_within (key pointer entry : Nat) (name : ProdosName) :
    ∀ w ∈ headerWrites key name pointer entry,
      key * BLOCK + ENTRY_BASE ≤ w.1 ∧ w.1 + w.2.length ≤ key * BLOCK + ENTRY_BASE + ENTRY_LEN ∧
        (w.1 + w.2.length ≤ key * BLOCK + ENTRY_BASE + 0x21 ∨
          key * BLOCK + ENTRY_BASE + 0x23 ≤ w.1) := by
  simp only [headerWrites, List.forall_mem_cons, List.not_mem_nil, IsEmpty.forall_iff, implies_true,
    and_true, List.length_singleton, length_word, name.length_field, ENTRY_LEN, MAX_NAME]
  omega

theorem writeHeader_spec {key : Nat} (pointer entry : Nat) (name : ProdosName) (hok : Ok img)
    (hused : ¬ Free img key) (hmap : key ≠ BITMAP_BLOCK) (hlt : key < TOTAL_BLOCKS) :
    Grows (covered (headerWrites key name pointer entry)) img
        (img.splices (headerWrites key name pointer entry)) ∧
      ∀ b, Free (img.splices (headerWrites key name pointer entry)) b ↔ Free img b := by
  have hwithin := header_within key pointer entry name
  obtain ⟨hgrows, hfree, -⟩ := hok.writes _
    (fun w hw => ⟨key, hlt, hmap, hused, by have := hwithin w hw; omega, by
      have := hwithin w hw
      simp only [BLOCK, ENTRY_BASE, ENTRY_LEN] at *
      omega⟩) (by
    simp only [headerWrites, List.pairwise_cons, List.forall_mem_cons, List.not_mem_nil,
      IsEmpty.forall_iff, implies_true, and_true, List.Pairwise.nil, List.length_singleton,
      length_word, name.length_field, MAX_NAME]
    omega)
  exact ⟨hgrows, hfree⟩

/-- A block that was free and has no more than a header is an empty directory. -/
theorem newDirectory_spec {key : Nat} (pointer entry : Nat) (name : ProdosName) (hok : Ok img)
    (hused : ¬ Free img key) (hmap : key ≠ BITMAP_BLOCK) (hzero : key ≠ 0) (hlt : key < TOTAL_BLOCKS)
    (hempty : ∀ i, i / BLOCK = key → img[i]? = some 0) :
    Grows {i | i / BLOCK = key} img (img.splices (headerWrites key name pointer entry)) ∧
      DirOk (img.splices (headerWrites key name pointer entry)) (Directory.new [key] false) := by
  have hwithin := header_within key pointer entry name
  obtain ⟨hgrows, hfree⟩ := writeHeader_spec pointer entry name hok hused hmap hlt
  generalize headerWrites key name pointer entry = writes at *
  have hstill : ∀ i, i / BLOCK = key →
      (i < key * BLOCK + ENTRY_BASE ∨ key * BLOCK + ENTRY_BASE + ENTRY_LEN ≤ i ∨
        key * BLOCK + ENTRY_BASE + 0x21 ≤ i ∧ i < key * BLOCK + ENTRY_BASE + 0x23) →
      (img.splices writes)[i]? = some 0 := fun i hdiv hout => by
    refine (hgrows.same i (hdiv ▸ hmap) (hdiv ▸ hused) ?_).trans (hempty i hdiv)
    rintro ⟨w, hw, hmem⟩
    have hbounds := hwithin w hw
    rw [mem_cells] at hmem
    omega
  have hfield0 : ∀ p, key * BLOCK ≤ p → (∀ i ∈ cells p 2, (img.splices writes)[i]? = some 0) →
      leField (img.splices writes) p 2 = 0 := fun p _ hp => by
    have hslice : (img.splices writes).slice p 2 = word 0 := by
      apply List.ext_getElem?
      intro i
      rw [List.getElem?_slice]
      split_ifs with hi
      · rw [hp _ ⟨Nat.le_add_right _ _, by omega⟩]
        interval_cases i <;> rfl
      · rw [List.getElem?_eq_none (by rw [length_word]; omega)]
    exact leField_word (by omega) hslice
  refine ⟨hgrows.mono_set ?_, by simp [Directory.new], List.nodup_singleton _, ?_, ?_, rfl,
    by simp only [Directory.new, ENTRIES_PER_BLOCK]; omega, Nat.succ_pos _, ?_, ?_⟩
  · rintro i ⟨w, hw, hmem⟩
    have hbounds := hwithin w hw
    rw [mem_cells] at hmem
    rw [Set.mem_ofPred_eq]
    simp only [BLOCK, ENTRY_BASE, ENTRY_LEN] at *
    omega
  · intro b hb
    obtain rfl := List.mem_singleton.mp hb
    exact ⟨hlt, hmap, hzero, fun hf => hused ((hfree _).mp hf)⟩
  · intro k b hk
    obtain ⟨rfl, rfl⟩ : k = 0 ∧ b = key := by
      cases k with
      | zero => exact ⟨rfl, (Option.some.inj hk).symm⟩
      | succ k => cases hk
    refine hfield0 _ (by omega) fun i hi => ?_
    rw [mem_cells] at hi
    refine hstill i ?_ ?_
    · simp only [BLOCK] at *
      omega
    · simp only [ENTRY_BASE]
      omega
  · intro m hm hlt
    have hm' : 0 < m := hm
    obtain ⟨b, hb, hoff⟩ := slotOff_eq hlt
    have hlt' : m < ENTRIES_PER_BLOCK := by
      simpa [Directory.new] using hlt
    rw [Nat.div_eq_of_lt hlt'] at hb
    obtain rfl : key = b := Option.some.inj hb
    rw [Nat.mod_eq_of_lt hlt'] at hoff
    rw [byteAt, List.getD_eq_getElem?_getD, hoff, hstill _ ?_ ?_, Option.getD_some]
    · simp only [BLOCK, ENTRY_BASE, ENTRY_LEN, ENTRIES_PER_BLOCK] at *
      omega
    · simp only [ENTRY_LEN]
      omega
  · refine hfield0 _ (by simp [Directory.new, Directory.keyBlock]; omega) fun i hi => ?_
    have hkey : (Directory.new [key] false).keyBlock = key := rfl
    rw [hkey, mem_cells] at hi
    refine hstill i ?_ (by omega)
    simp only [BLOCK, ENTRY_BASE] at *
    omega

/-- What `add_subdir` has done: the parent has one entry more, still without its contents, and the
subdirectory is a new block. -/
structure Added (img img' : Bytes) (d d' : Directory) (name : ProdosName) (sub : Subdir) (key : Nat)
    (ext : List Nat) : Prop where
  sub_eq : sub = ⟨Directory.new [key] false, slotOff d'.blocks (d.count + 1), d'.keyBlock, name⟩
  taken : Taken img img' key
  outside : key ∉ d'.blocks
  grows : Grows d.spare img img'
  parent : DirOk img' d'
  dir : DirOk img' (Directory.new [key] false)
  count : d'.count = d.count + 1
  blocks : d'.blocks = d.blocks ++ ext
  ext_taken : ∀ b ∈ ext, Taken img img' b

theorem addSubdir_spec {name : ProdosName} {sub : Subdir} (hok : Ok img) (hd : DirOk img d)
    (h : addSubdir img d name = .ok (img', d', sub)) :
    ∃ key ext, Added img img' d d' name sub key ext := by
  obtain ⟨⟨key, img₁⟩, halloc, hrest⟩ := bind_ok.mp h
  obtain ⟨⟨⟨off, blk, ei⟩, img₂, d₂⟩, hslot, hrest⟩ := bind_ok.mp hrest
  have heq := Except.ok.inj hrest
  simp only [Prod.mk.injEq] at heq
  obtain ⟨rfl, rfl, rfl⟩ := heq
  have htook := allocBlock_spec hok halloc
  have hd₁ : DirOk img₁ d := hd.grows htook.grows fun _ hi => absurd hi (Set.notMem_empty _)
  obtain ⟨hgrows₂, hd₂, hcount, rfl, ext, hext, htaken⟩ := allocSlot_spec htook.grows.ok hd₁ hslot
  have hkd : key ∉ d.blocks := fun hmem => (hd.valid _ hmem).2.2.2 htook.was_free
  have hkd₂ : key ∉ d₂.blocks := by
    rw [hext, List.mem_append, not_or]
    exact ⟨hkd, fun hmem => htook.taken.2 (htaken _ hmem).1⟩
  have hkeyused : ¬ Free img₂ key := fun hf => htook.taken.2 (hgrows₂.mono _ hf)
  have hbound := htook.bound
  have hempty : ∀ i, i / BLOCK = key → img₂[i]? = some 0 := fun i hdiv => by
    refine (hgrows₂.same i (hdiv ▸ htook.ne_bitmap) (hdiv ▸ htook.taken.2) fun hs =>
      hkd (hdiv ▸ hs.1)).trans ((htook.same i (hdiv ▸ htook.ne_bitmap)).trans (hok.zero i ?_))
    exact hdiv ▸ htook.was_free
  obtain ⟨hgrows₃, hsub⟩ := newDirectory_spec blk (ei + 1) name
    hgrows₂.ok hkeyused htook.ne_bitmap
    (by simp only [FIRST_DATA, BITMAP_BLOCK] at hbound; omega) htook.was_free.1 hempty
  have hstep : Grows d.spare img img₂ :=
    (htook.grows.mono_set (Set.empty_subset _)).trans hgrows₂ fun _ hi => .inl hi
  exact ⟨key, ext, rfl, ⟨htook.was_free, fun hf => hkeyused (hgrows₃.mono _ hf)⟩, hkd₂,
    hstep.trans hgrows₃ fun i hi => .inr (hi ▸ htook.was_free),
    hd₂.grows hgrows₃ fun i hi hs => hkd₂ (hi ▸ hs.1), hsub, hcount, hext, fun b hb =>
      (Taken.of_second htook.grows (htaken b hb)).of_first hgrows₃⟩

/-- A subdirectory of a listing, once its own children are laid down. -/
theorem subdir_spec {name : ProdosName} {sub : Subdir} {subdir : Directory} {img₃ : Bytes} {n : Nat}
    {path : List Name} {files : Dict (List Name) Bytes} (hok : Ok img) (hd : DirOk img d)
    (hadd : addSubdir img d name = .ok (img', d', sub))
    (hbuilt : Ok img' → DirOk img' sub.dir →
      Built img' img₃ sub.dir subdir n (path ++ [name.chars]) files) :
    Built img (finalizeSubdir img₃ { sub with dir := subdir }) d d' (n + 1) path files := by
  obtain ⟨key, ext, hadded⟩ := addSubdir_spec hok hd hadd
  obtain ⟨rfl, hkey, hout, hgrows, hd₂, hsub, hcount, hext, htaken⟩ := hadded
  have hb := hbuilt hgrows.ok hsub
  dsimp only at hb
  -- what is spare in the subdirectory is its block
  have hspare : ∀ i ∈ (Directory.new [key] false).spare, i / BLOCK = key := fun i hi =>
    List.mem_singleton.mp hi.1
  have hd₃ : DirOk img₃ d' := hd₂.grows hb.grows fun i hi hs => hout (hspare i hi ▸ hs.1)
  have hfew := hb.dir.few_blocks
  have hkeysub := (hb.dir.valid _ (List.mem_of_getElem? hb.dir.key_mem)).1
  obtain ⟨hgrows₄, -, hentry⟩ := writeEntry_spec (d.count + 1) ST_SUBDIR subdir.keyBlock
    subdir.blocks.length (subdir.blocks.length * BLOCK) d'.keyBlock FT_DIR name hb.grows.ok hd₃
    (Nat.le_of_eq hcount.symm) (by decide) (by simp only [TOTAL_BLOCKS] at hkeysub; omega)
    (by simp only [BLOCK, TOTAL_BLOCKS] at *; omega)
  have hnew : ∀ i ∈ slotCells d'.blocks (d.count + 1), i ∈ d.spare ∨ i / BLOCK ∈ ext := fun i hi =>
    hd.slot_extends hd₂ hext (Nat.lt_succ_self _) (Nat.le_of_eq hcount.symm) hi
  have hstep : Grows d.spare img img₃ := hgrows.trans hb.grows fun i hi =>
    .inr (hspare i hi ▸ hkey.1)
  have hwhole := hstep.trans hgrows₄ fun i hi => (hnew i hi).imp_right fun hmem => (htaken _ hmem).1
  refine ⟨hwhole, hd₃.grows hgrows₄ fun i hi => ?_, ⟨ext, hext, fun b hmem =>
    ((htaken b hmem).of_first hb.grows).of_first hgrows₄⟩, hcount ▸ Nat.le_succ _, ?_⟩
  · exact slot_not_spare (Nat.succ_pos _) (Nat.le_of_eq hcount.symm) hi
  · obtain ⟨ext', hext', htaken'⟩ := hb.extends_
    have hblocks : ∀ b ∈ subdir.blocks, Taken img img₃ b ∧ b ∉ d'.blocks := by
      intro b hmem
      rw [hext', List.mem_append] at hmem
      rcases hmem with hold | hnew'
      · obtain rfl := List.mem_singleton.mp hold
        exact ⟨hkey.of_first hb.grows, hout⟩
      · have htake := htaken' b hnew'
        exact ⟨Taken.of_second hgrows htake, fun hin => (hd₂.valid _ hin).2.2.2 htake.1⟩
    -- the directory itself and what its entries lead to
    have hinner : ∀ i ∈ subdir.spare ∪ footprint img' img₃ (Directory.new [key] false) subdir,
        Taken img img₃ (i / BLOCK) ∧ i / BLOCK ∉ d'.blocks := by
      rintro i (hi | ⟨htake, -⟩ | ⟨k, -, hhi, hmem⟩)
      · exact hblocks _ hi.1
      · exact ⟨Taken.of_second hgrows htake, fun hin => (hd₂.valid _ hin).2.2.2 htake.1⟩
      · exact hblocks _ (hb.dir.slot_block hhi hmem)
    have hagree : Local subdir.spare (fun im => AgreeOn subdir.spare img₃ im) img₃ := fun _ him => him
    have hlocal := hgrows₄.local (hagree.and hb.finds) fun i hi => by
      obtain ⟨htake, hnot⟩ := hinner i hi
      exact ⟨hok.ne_bitmap htake.1, htake.2, fun hmem => hnot
        (hd₃.slot_block (Nat.le_of_eq hcount.symm) hmem)⟩
    refine ((hlocal.and hentry).mono ?_).imp fun im _ hboth => ?_
    · rintro i (hi | hi)
      · obtain ⟨htake, hnot⟩ := hinner i hi
        exact .inl ⟨htake.of_first hgrows₄, hnot⟩
      · exact .inr ⟨d.count + 1, Nat.lt_succ_self _, Nat.le_of_eq hcount.symm, hi⟩
    · rw [hcount, slotsOf_one]
      exact finds_subdir hboth.2 hb.dir hboth.1.1 hboth.1.2

end

/-! ## The whole tree -/

theorem see_eq_ok {s s' : Build} {key : List Name} (h : s.see key = .ok s') :
    key ∉ s.seen ∧ s' = { s with seen := key :: s.seen } := by
  unfold Build.see at h
  split_ifs at h with hmem
  exact ⟨hmem, (Except.ok.inj h).symm⟩

/-- What `build_tree` expects to be found. -/
theorem buildTree_expected (t : Upper) {src : Listing} {path : List Name} {s s' : Build}
    {d d' : Directory} (h : buildTree t src path s d = .ok (s', d')) :
    s'.expected = Dict.update s.expected (filesOf t src path) := by
  induction src generalizing path s d s' d' with
  | nil => obtain ⟨rfl, rfl⟩ := Prod.mk.inj (Except.ok.inj h); rfl
  | symlink name rest ih => exact ih h
  | other name rest ih =>
      obtain ⟨s₁, hsee, hrest⟩ := bind_ok.mp h
      obtain ⟨-, rfl⟩ := see_eq_ok hsee
      exact @ih path ⟨s.img, s.expected, (path ++ [(prodosName t name).chars]) :: s.seen⟩ s' d d'
        hrest
  | file name data rest ih =>
      obtain ⟨s₁, hsee, hrest⟩ := bind_ok.mp h
      obtain ⟨-, rfl⟩ := see_eq_ok hsee
      obtain ⟨⟨img₁, d₁⟩, -, hrest⟩ := bind_ok.mp hrest
      exact ih hrest
  | dir name children rest ih ih' =>
      obtain ⟨s₁, hsee, hrest⟩ := bind_ok.mp h
      obtain ⟨-, rfl⟩ := see_eq_ok hsee
      obtain ⟨⟨img₁, d₁, sub⟩, -, hrest⟩ := bind_ok.mp hrest
      obtain ⟨⟨s₂, subdir⟩, hchildren, hrest⟩ := bind_ok.mp hrest
      have hinner := ih hchildren
      have houter := ih' hrest
      rw [filesOf, update_append, ← hinner]
      exact houter

/-- What `build_tree` lays down is found again. -/
theorem buildTree_spec (t : Upper) {src : Listing} {path : List Name} {s s' : Build}
    {d d' : Directory} (h : buildTree t src path s d = .ok (s', d')) (hok : Ok s.img)
    (hd : DirOk s.img d) : Built s.img s'.img d d' src.depth path (filesOf t src path) := by
  induction src generalizing path s d s' d' with
  | nil =>
      obtain ⟨rfl, rfl⟩ := Prod.mk.inj (Except.ok.inj h)
      refine ⟨Grows.refl hok, hd, ⟨[], (List.append_nil _).symm, by simp⟩, Nat.le_refl _, ?_⟩
      rw [slotsOf, Nat.sub_self]
      exact fun im _ => Finds.nil _ path im
  | symlink name rest ih => exact ih h hok hd
  | other name rest ih =>
      obtain ⟨s₁, hsee, hrest⟩ := bind_ok.mp h
      obtain ⟨-, rfl⟩ := see_eq_ok hsee
      exact @ih path ⟨s.img, s.expected, (path ++ [(prodosName t name).chars]) :: s.seen⟩ s' d d'
        hrest hok hd
  | file name data rest ih =>
      obtain ⟨s₁, hsee, hrest⟩ := bind_ok.mp h
      obtain ⟨-, rfl⟩ := see_eq_ok hsee
      obtain ⟨⟨img₁, d₁⟩, hadd, hrest⟩ := bind_ok.mp hrest
      have hfile := addFile_spec hok hd hadd path
      have hbuilt := @ih path ⟨img₁, _, _⟩ s' d₁ d' hrest hfile.grows.ok hfile.dir
      have hboth := hfile.trans hok hd hbuilt
      rw [Nat.zero_max] at hboth
      exact hboth
  | dir name children rest ih ih' =>
      obtain ⟨s₁, hsee, hrest⟩ := bind_ok.mp h
      obtain ⟨-, rfl⟩ := see_eq_ok hsee
      obtain ⟨⟨img₁, d₁, sub⟩, hadd, hrest⟩ := bind_ok.mp hrest
      obtain ⟨⟨s₂, subdir⟩, hchildren, hrest⟩ := bind_ok.mp hrest
      have hsub := subdir_spec hok hd hadd
        (@ih (path ++ [(prodosName t name).chars]) ⟨img₁, _, _⟩ s₂ sub.dir subdir hchildren)
      have hbuilt := @ih' path ⟨_, s₂.expected, s₂.seen⟩ s' d₁ d' hrest hsub.grows.ok hsub.dir
      exact hsub.trans hok hd hbuilt

/-! ## A fresh volume -/

theorem foldl_markFree (bs : List Nat) (img : Bytes) (hbs : ∀ b ∈ bs, b < TOTAL_BLOCKS)
    (hlen : img.length = TOTAL_BLOCKS * BLOCK) :
    (bs.foldl markFree img).length = TOTAL_BLOCKS * BLOCK ∧
      (∀ i, i / BLOCK ≠ BITMAP_BLOCK → (bs.foldl markFree img)[i]? = img[i]?) ∧
      ∀ t, isFree (bs.foldl markFree img) t = (isFree img t || decide (t ∈ bs)) := by
  induction bs generalizing img with
  | nil => exact ⟨hlen, fun _ _ => rfl, fun t => by simp⟩
  | cons b bs ih =>
      rw [List.forall_mem_cons] at hbs
      obtain ⟨hlen₁, hsame₁, hfree₁⟩ := markFree_spec hlen hbs.1
      obtain ⟨hlen₂, hsame₂, hfree₂⟩ := ih _ hbs.2 hlen₁
      refine ⟨hlen₂, fun i hi => (hsame₂ i hi).trans (hsame₁ i hi), fun t => ?_⟩
      rw [List.foldl_cons, hfree₂, hfree₁, Bool.or_assoc, ← Bool.decide_or]
      simp only [List.mem_cons]

theorem foldl_markUsed (bs : List Nat) (img : Bytes) (hbs : ∀ b ∈ bs, b < TOTAL_BLOCKS)
    (hlen : img.length = TOTAL_BLOCKS * BLOCK) :
    (bs.foldl markUsed img).length = TOTAL_BLOCKS * BLOCK ∧
      (∀ i, i / BLOCK ≠ BITMAP_BLOCK → (bs.foldl markUsed img)[i]? = img[i]?) ∧
      ∀ t, isFree (bs.foldl markUsed img) t = (isFree img t && decide (t ∉ bs)) := by
  induction bs generalizing img with
  | nil => exact ⟨hlen, fun _ _ => rfl, fun t => by simp⟩
  | cons b bs ih =>
      rw [List.forall_mem_cons] at hbs
      obtain ⟨hlen₁, hsame₁, hfree₁⟩ := markUsed_spec hlen hbs.1
      obtain ⟨hlen₂, hsame₂, hfree₂⟩ := ih _ hbs.2 hlen₁
      refine ⟨hlen₂, fun i hi => (hsame₂ i hi).trans (hsame₁ i hi), fun t => ?_⟩
      rw [List.foldl_cons, hfree₂, hfree₁, Bool.and_assoc, ← Bool.decide_and]
      simp only [List.mem_cons, not_or, ne_eq]

/-- The bitmap of a fresh volume: every block from the first data block on is free. -/
theorem initBitmap_spec :
    (initBitmap (List.replicate (TOTAL_BLOCKS * BLOCK) 0)).length = TOTAL_BLOCKS * BLOCK ∧
      (∀ i < TOTAL_BLOCKS * BLOCK, i / BLOCK ≠ BITMAP_BLOCK →
        (initBitmap (List.replicate (TOTAL_BLOCKS * BLOCK) 0))[i]? = some 0) ∧
      ∀ b, Free (initBitmap (List.replicate (TOTAL_BLOCKS * BLOCK) 0)) b ↔
        FIRST_DATA ≤ b ∧ b < TOTAL_BLOCKS := by
  obtain ⟨hlen₁, hsame₁, hfree₁⟩ := foldl_markFree (List.range TOTAL_BLOCKS)
    (List.replicate (TOTAL_BLOCKS * BLOCK) 0) (fun b hb => List.mem_range.mp hb)
    List.length_replicate
  obtain ⟨hlen₂, hsame₂, hfree₂⟩ := foldl_markUsed (List.range FIRST_DATA) _
    (fun b hb => by
      rw [List.mem_range] at hb
      simp only [FIRST_DATA, BITMAP_BLOCK, bitmapBlocks, TOTAL_BLOCKS] at *
      omega) hlen₁
  refine ⟨hlen₂, fun i hi hmap => ?_, fun b => ?_⟩
  · refine ((hsame₂ i hmap).trans (hsame₁ i hmap)).trans ?_
    rw [List.getElem?_replicate, if_pos hi]
  · have hzero : isFree (List.replicate (TOTAL_BLOCKS * BLOCK) 0) b = false := by
      have hbyte : byteAt (List.replicate (TOTAL_BLOCKS * BLOCK) 0) (bitmapOff b) = 0 := by
        rw [byteAt, List.getD_eq_getElem?_getD, List.getElem?_replicate]
        split_ifs <;> rfl
      rw [isFree, hbyte]
      exact Nat.zero_testBit _
    rw [Free, initBitmap, hfree₂, hfree₁, hzero, Bool.false_or, Bool.and_eq_true, decide_eq_true_eq,
      decide_eq_true_eq, List.mem_range, List.mem_range]
    omega

/-- The root directory. -/
def root : Directory := Directory.new (List.range' VOLDIR_START VOLDIR_BLOCKS) true

/-- A write is a pointer, or in the header but for the count. -/
theorem voldirWrites_within (name : ProdosName) :
    ∀ w ∈ voldirWrites name, 2 * BLOCK ≤ w.1 ∧ w.1 < 6 * BLOCK ∧
      (w.1 % BLOCK + w.2.length ≤ ENTRY_BASE ∨ 2 * BLOCK + ENTRY_BASE ≤ w.1 ∧
        w.1 + w.2.length ≤ 2 * BLOCK + ENTRY_BASE + ENTRY_LEN ∧
        (w.1 + w.2.length ≤ 2 * BLOCK + ENTRY_BASE + 0x21 ∨
          2 * BLOCK + ENTRY_BASE + 0x23 ≤ w.1)) := by
  have hfield := name.length_field
  simp only [voldirWrites, List.forall_mem_cons, List.not_mem_nil, IsEmpty.forall_iff,
    implies_true, and_true, List.length_singleton, length_word, hfield, ENTRY_LEN, MAX_NAME, BLOCK,
    ENTRY_BASE, VOLDIR_START]
  omega

theorem ok_initBitmap : Ok (initBitmap (List.replicate (TOTAL_BLOCKS * BLOCK) 0)) := by
  obtain ⟨hlen, hzero, hfree⟩ := initBitmap_spec
  refine ⟨hlen, fun b hb hf => Nat.not_lt.mpr ((hfree b).mp hf).1 hb, fun i hi => ?_⟩
  obtain ⟨hlo, hhi⟩ := (hfree _).mp hi
  refine hzero i ?_ ?_
  · simp only [BLOCK] at *
    omega
  · simp only [FIRST_DATA, BITMAP_BLOCK, bitmapBlocks, TOTAL_BLOCKS] at *
    omega

/-- The slots of the volume directory behind its header. -/
theorem root_slot {m : Nat} (hm : 0 < m) (hlt : m < root.blocks.length * ENTRIES_PER_BLOCK) :
    2 * BLOCK + ENTRY_BASE + ENTRY_LEN ≤ slotOff root.blocks m ∧ slotOff root.blocks m < 6 * BLOCK ∧
      ENTRY_BASE ≤ slotOff root.blocks m % BLOCK := by
  obtain ⟨b, hb, hoff⟩ := slotOff_eq hlt
  have hcell := mem_slotCells hlt (i := slotOff root.blocks m)
    ⟨Nat.le_refl _, Nat.lt_add_of_pos_right (by decide)⟩
  obtain ⟨hlo, hhi⟩ := List.mem_range'_1.mp (List.mem_of_getElem? hb)
  simp only [VOLDIR_START, VOLDIR_BLOCKS] at hlo hhi
  have hfirst : slotOff root.blocks m ∉ slotCells root.blocks 0 := fun hmem => by
    have heq := slotCells_inj (by decide) hlt (by decide) (n := 0)
      ⟨Nat.le_refl _, Nat.lt_add_of_pos_right (by decide)⟩ hmem
    omega
  have hzero0 : slotOff root.blocks 0 = 2 * BLOCK + ENTRY_BASE := rfl
  rw [slotCells, hzero0, mem_cells] at hfirst
  have hmod := Nat.mod_lt m (show 0 < ENTRIES_PER_BLOCK by decide)
  refine ⟨?_, ?_, hcell.2.2⟩
  all_goals
    simp only [BLOCK, ENTRY_BASE, ENTRY_LEN, ENTRIES_PER_BLOCK] at *
    omega

/-- A fresh volume with its empty directory. -/
theorem formatVolume_spec (name : ProdosName) :
    Ok (formatVolume name) ∧ DirOk (formatVolume name) root ∧
      ∀ b, Free (formatVolume name) b ↔ FIRST_DATA ≤ b ∧ b < TOTAL_BLOCKS := by
  obtain ⟨hlen, hzero, hfree⟩ := initBitmap_spec
  have hfield := name.length_field
  have hok := ok_initBitmap
  rw [formatVolume]
  generalize initBitmap (List.replicate (TOTAL_BLOCKS * BLOCK) 0) = img at *
  have hwithin := voldirWrites_within name
  have hused : ∀ b, 2 ≤ b → b < 6 → b < TOTAL_BLOCKS ∧ b ≠ BITMAP_BLOCK ∧ ¬ Free img b :=
    fun b hlo hhi => ⟨by simp only [TOTAL_BLOCKS]; omega, by simp only [BITMAP_BLOCK]; omega,
      hok.reserved b (by
        simp only [FIRST_DATA, BITMAP_BLOCK, bitmapBlocks, TOTAL_BLOCKS]
        omega)⟩
  obtain ⟨hgrows, hfree', hthere⟩ := hok.writes (voldirWrites name)
    (fun w hw => by
      have hbounds := hwithin w hw
      obtain ⟨h1, h2, h3⟩ := hused (w.1 / BLOCK) (by simp only [BLOCK] at *; omega)
        (by simp only [BLOCK] at *; omega)
      refine ⟨w.1 / BLOCK, h1, h2, h3, Nat.div_mul_le_self _ _, ?_⟩
      simp only [BLOCK, ENTRY_BASE, ENTRY_LEN] at *
      omega) (by
    simp only [voldirWrites, List.pairwise_cons, List.forall_mem_cons, List.not_mem_nil,
      IsEmpty.forall_iff, implies_true, and_true, List.Pairwise.nil, List.length_singleton,
      length_word, hfield, MAX_NAME, BLOCK, ENTRY_BASE, VOLDIR_START]
    omega)
  have hstill : ∀ i, 2 * BLOCK ≤ i → i < 6 * BLOCK → ENTRY_BASE ≤ i % BLOCK →
      (2 * BLOCK + ENTRY_BASE + ENTRY_LEN ≤ i ∨ 2 * BLOCK + ENTRY_BASE + 0x21 ≤ i ∧
        i < 2 * BLOCK + ENTRY_BASE + 0x23) →
      (img.splices (voldirWrites name))[i]? = some 0 := by
    intro i hlo hhi hmod hout
    obtain ⟨-, hmap, hfree₁⟩ := hused (i / BLOCK) (by simp only [BLOCK] at *; omega)
      (by simp only [BLOCK] at *; omega)
    refine (hgrows.same i hmap hfree₁ ?_).trans (hzero i
      (by simp only [BLOCK, TOTAL_BLOCKS] at *; omega) hmap)
    rintro ⟨w, hw, hmem⟩
    have hbounds := hwithin w hw
    rw [mem_cells] at hmem
    simp only [BLOCK, ENTRY_BASE, ENTRY_LEN] at *
    omega
  simp only [voldirWrites, List.forall_mem_cons, List.not_mem_nil, IsEmpty.forall_iff, implies_true,
    and_true, length_word] at hthere
  obtain ⟨-, hnext₂, -, hnext₃, -, hnext₄, -, hnext₅, -⟩ := hthere
  refine ⟨hgrows.ok, ⟨by decide, by decide, fun b hb => ?_, fun k b hk => ?_, rfl, by decide, by decide,
    fun m hm hlt => ?_, ?_⟩, fun b => (hfree' b).trans (hfree b)⟩
  · obtain ⟨hlo, hhi⟩ := List.mem_range'_1.mp hb
    simp only [VOLDIR_START, VOLDIR_BLOCKS] at hlo hhi
    obtain ⟨h1, h2, h3⟩ := hused b hlo (by omega)
    exact ⟨h1, h2, by omega, fun hf => h3 ((hfree' b).mp hf)⟩
  · rcases k with _ | _ | _ | _ | k
    · obtain rfl := Option.some.inj hk
      exact leField_word (n := 3) (by omega) hnext₂
    · obtain rfl := Option.some.inj hk
      exact leField_word (n := 4) (by omega) hnext₃
    · obtain rfl := Option.some.inj hk
      exact leField_word (n := 5) (by omega) hnext₄
    · obtain rfl := Option.some.inj hk
      exact leField_word (n := 0) (by omega) hnext₅
    · cases hk
  · obtain ⟨habove, hbelow, hbase⟩ := root_slot hm hlt
    rw [byteAt, List.getD_eq_getElem?_getD, hstill _ (by omega) hbelow hbase (.inl habove),
      Option.getD_some]
  · have hkey : root.keyBlock = 2 := rfl
    have hslice : (img.splices (voldirWrites name)).slice (2 * BLOCK + ENTRY_BASE + 0x21) 2
        = word 0 := by
      apply List.ext_getElem?
      intro i
      rw [List.getElem?_slice]
      split_ifs with hi
      · rw [hstill _ (by omega) (by simp only [BLOCK, ENTRY_BASE]; omega)
          (by simp only [BLOCK, ENTRY_BASE]; omega) (.inr ⟨by omega, by omega⟩)]
        interval_cases i <;> rfl
      · rw [List.getElem?_eq_none (by rw [length_word]; omega)]
    rw [hkey]
    exact leField_word (n := 0) (by omega) hslice

/-! ## The image as a whole -/

/-- The files of a listing have keys of their own: each was new when it was seen. -/
theorem buildTree_keys (t : Upper) {src : Listing} {path : List Name} {s s' : Build}
    {d d' : Directory} (h : buildTree t src path s d = .ok (s', d')) :
    s.seen ⊆ s'.seen ∧ (filesOf t src path).keys.Nodup ∧
      ∀ k ∈ (filesOf t src path).keys, k ∉ s.seen ∧ k ∈ s'.seen := by
  induction src generalizing path s d s' d' with
  | nil =>
      obtain ⟨rfl, rfl⟩ := Prod.mk.inj (Except.ok.inj h)
      exact ⟨List.Subset.refl _, List.nodup_nil, fun k hk => absurd hk List.not_mem_nil⟩
  | symlink name rest ih => exact ih h
  | other name rest ih =>
      obtain ⟨s₁, hsee, hrest⟩ := bind_ok.mp h
      obtain ⟨-, rfl⟩ := see_eq_ok hsee
      obtain ⟨hsub, hnodup, hkeys⟩ := @ih path
        ⟨s.img, s.expected, (path ++ [(prodosName t name).chars]) :: s.seen⟩ s' d d' hrest
      refine ⟨fun k hk => hsub (List.mem_cons_of_mem _ hk), hnodup, fun k hk => ?_⟩
      exact ⟨fun hin => (hkeys k hk).1 (List.mem_cons_of_mem _ hin), (hkeys k hk).2⟩
  | file name data rest ih =>
      obtain ⟨s₁, hsee, hrest⟩ := bind_ok.mp h
      obtain ⟨hnew, rfl⟩ := see_eq_ok hsee
      obtain ⟨⟨img₁, d₁⟩, -, hrest⟩ := bind_ok.mp hrest
      obtain ⟨hsub, hnodup, hkeys⟩ := ih hrest
      refine ⟨fun k hk => hsub (List.mem_cons_of_mem _ hk), ?_, fun k hk => ?_⟩
      · exact List.nodup_cons.mpr ⟨fun hin => (hkeys _ hin).1 List.mem_cons_self, hnodup⟩
      · rcases List.mem_cons.mp hk with rfl | hk
        · exact ⟨hnew, hsub List.mem_cons_self⟩
        · exact ⟨fun hin => (hkeys k hk).1 (List.mem_cons_of_mem _ hin), (hkeys k hk).2⟩
  | dir name children rest ih ih' =>
      obtain ⟨s₁, hsee, hrest⟩ := bind_ok.mp h
      obtain ⟨hnew, rfl⟩ := see_eq_ok hsee
      obtain ⟨⟨img₁, d₁, sub⟩, -, hrest⟩ := bind_ok.mp hrest
      obtain ⟨⟨s₂, subdir⟩, hchildren, hrest⟩ := bind_ok.mp hrest
      obtain ⟨hsub₁, hnodup₁, hkeys₁⟩ := ih hchildren
      obtain ⟨hsub₂, hnodup₂, hkeys₂⟩ := ih' hrest
      have hseen : s.seen ⊆ s₂.seen := fun k hk => hsub₁ (List.mem_cons_of_mem _ hk)
      rw [filesOf, Dict.keys, List.map_append, ← Dict.keys, ← Dict.keys]
      refine ⟨fun k hk => hsub₂ (hseen hk), ?_, fun k hk => ?_⟩
      · rw [List.nodup_append]
        refine ⟨hnodup₁, hnodup₂, fun a ha b hb heq => (hkeys₂ b hb).1 ?_⟩
        exact heq ▸ (hkeys₁ a ha).2
      · rcases List.mem_append.mp hk with hk | hk
        · exact ⟨fun hin => (hkeys₁ k hk).1 (List.mem_cons_of_mem _ hin), hsub₂ (hkeys₁ k hk).2⟩
        · exact ⟨fun hin => (hkeys₂ k hk).1 (hseen hin), (hkeys₂ k hk).2⟩

/-- What a laid down tree is: a volume whose reader finds the files of the tree and no others. -/
theorem layOut_found (t : Upper) (volumeName : Name) (src : Listing) {img : Bytes}
    {expected : Dict (List Name) Bytes} (h : layOut t volumeName src = .ok (img, expected)) :
    expected = filesOf t src [] ∧ expected.keys.Nodup ∧ Ok img ∧
      ∀ fuel, src.depth < fuel →
        extractDir img fuel VOLDIR_START [] [] = some (filesOf t src []) := by
  obtain ⟨⟨s, d⟩, hbuild, hrest⟩ := bind_ok.mp h
  obtain ⟨rfl, rfl⟩ := Prod.mk.inj (Except.ok.inj hrest)
  obtain ⟨hok, hroot, -⟩ := formatVolume_spec (prodosName t volumeName)
  have hbuilt := buildTree_spec t hbuild hok hroot
  obtain ⟨-, hnodup, -⟩ := buildTree_keys t hbuild
  have hfiles : Dict.update [] (filesOf t src []) = filesOf t src [] := by
    rw [Dict.update_of_nodup (by rwa [List.nil_append]), List.nil_append]
  have hexpected : s.expected = filesOf t src [] := (buildTree_expected t hbuild).trans hfiles
  obtain ⟨ext, hext, -⟩ := hbuilt.extends_
  have hkey : d.keyBlock = VOLDIR_START := by
    rw [Directory.keyBlock, hext]
    rfl
  refine ⟨hexpected, hexpected.symm ▸ hnodup, hbuilt.grows.ok, fun fuel hfuel => ?_⟩
  have hread := hbuilt.dir.extract (fun _ _ => rfl) hbuilt.finds.self hfuel []
  rw [hkey, hfiles] at hread
  exact hread

theorem sameFiles_self {d : Dict (List Name) Bytes} (hd : d.keys.Nodup) : sameFiles d d = true := by
  rw [sameFiles, decide_eq_true rfl, Bool.true_and, List.all_eq_true]
  intro e he
  rw [(Dict.get?_eq_some_iff hd).mpr he]
  exact beq_self_eq_true _

/-- The verification at the end never fails: `create_image` is what lays the tree down. -/
theorem createImage_eq (t : Upper) (volumeName : Name) (src : Listing) :
    createImage t (src.depth + 1) volumeName src = (layOut t volumeName src).map Prod.fst := by
  cases h : layOut t volumeName src with
  | error e => rw [createImage, h]; rfl
  | ok r =>
      rcases r with ⟨img, expected⟩
      obtain ⟨rfl, hkeys, -, hread⟩ := layOut_found t volumeName src h
      simp only [createImage, h, hread _ (Nat.lt_succ_self _), sameFiles_self hkeys,
        Except.map, bind, Except.bind, if_true]

end Mountin.Prodos
