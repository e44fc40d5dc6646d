import Mountin.Fs.Prodos

set_option autoImplicit false

/-! # Directories of ProDOS volumes

A directory is a chain of blocks with its entries one after the other. `DirOk` is the invariant of a
directory that the writer fills, and `allocSlot_spec` keeps it: the next slot lies behind those that
are there, and the chain grows by free blocks only.
-/

namespace Mountin.Prodos

open Volume

/-! ## The chain of a directory -/

/-- Where an entry of a directory stands. -/
def slotOff (blocks : List Nat) (m : Nat) : Nat :=
  blocks.getD (m / ENTRIES_PER_BLOCK) 0 * BLOCK + ENTRY_BASE + m % ENTRIES_PER_BLOCK * ENTRY_LEN

/-- The positions of an entry. -/
def slotCells (blocks : List Nat) (m : Nat) : Set Nat := cells (slotOff blocks m) ENTRY_LEN

/-- The positions of a directory besides its entries: the pointers, the header and what is left. -/
def Directory.spare (d : Directory) : Set Nat :=
  {i | i / BLOCK ∈ d.blocks ∧ ∀ m, 1 ≤ m → m ≤ d.count → i ∉ slotCells d.blocks m}

/-- A directory of an image. -/
structure DirOk (img : Bytes) (d : Directory) : Prop where
  ne_nil : d.blocks ≠ []
  nodup : d.blocks.Nodup
  valid : ∀ b ∈ d.blocks, b < TOTAL_BLOCKS ∧ b ≠ BITMAP_BLOCK ∧ b ≠ 0 ∧ ¬ Free img b
  chain : ∀ k b, d.blocks[k]? = some b → leField img (b * BLOCK + 2) 2 = d.blocks.getD (k + 1) 0
  cursor : d.cursor.1 * ENTRIES_PER_BLOCK + d.cursor.2 = d.count + 1
  index : d.cursor.2 ≤ ENTRIES_PER_BLOCK
  block : d.cursor.1 < d.blocks.length
  empty : ∀ m, d.count < m → m < d.blocks.length * ENTRIES_PER_BLOCK →
    byteAt img (slotOff d.blocks m) = 0
  counted : leField img (d.keyBlock * BLOCK + ENTRY_BASE + 0x21) 2 = d.count

section

variable {img img' : Bytes} {d d' : Directory}

theorem slotOff_eq {blocks : List Nat} {m : Nat} (h : m < blocks.length * ENTRIES_PER_BLOCK) :
    ∃ b, blocks[m / ENTRIES_PER_BLOCK]? = some b ∧
      slotOff blocks m = b * BLOCK + ENTRY_BASE + m % ENTRIES_PER_BLOCK * ENTRY_LEN := by
  have hlt : m / ENTRIES_PER_BLOCK < blocks.length := by
    rw [Nat.div_lt_iff_lt_mul (by decide)]
    exact h
  refine ⟨_, List.getElem?_eq_getElem hlt, ?_⟩
  rw [slotOff, List.getD_eq_getElem?_getD, List.getElem?_eq_getElem hlt, Option.getD_some]

/-- An entry stays where it is when the chain grows. -/
theorem slotOff_append {blocks ext : List Nat} {m : Nat}
    (h : m < blocks.length * ENTRIES_PER_BLOCK) : slotOff (blocks ++ ext) m = slotOff blocks m := by
  have hlt : m / ENTRIES_PER_BLOCK < blocks.length := by
    rw [Nat.div_lt_iff_lt_mul (by decide)]
    exact h
  rw [slotOff, slotOff, List.getD_eq_getElem?_getD, List.getD_eq_getElem?_getD,
    List.getElem?_append_left hlt]

theorem mem_slotCells {blocks : List Nat} {m i : Nat} (h : m < blocks.length * ENTRIES_PER_BLOCK)
    (hi : i ∈ slotCells blocks m) :
    blocks[m / ENTRIES_PER_BLOCK]? = some (i / BLOCK) ∧
      (i % BLOCK - ENTRY_BASE) / ENTRY_LEN = m % ENTRIES_PER_BLOCK ∧ ENTRY_BASE ≤ i % BLOCK := by
  obtain ⟨b, hb, hoff⟩ := slotOff_eq h
  have hmod := Nat.mod_lt m (show 0 < ENTRIES_PER_BLOCK by decide)
  rw [slotCells, hoff, mem_cells] at hi
  rw [hb]
  generalize m % ENTRIES_PER_BLOCK = e at *
  obtain ⟨r, hr, rfl⟩ : ∃ r < ENTRY_LEN, i = b * BLOCK + (ENTRY_BASE + (e * ENTRY_LEN + r)) :=
    ⟨i - (b * BLOCK + ENTRY_BASE + e * ENTRY_LEN), by omega, by omega⟩
  have hsmall : ENTRY_BASE + (e * ENTRY_LEN + r) < BLOCK := by
    simp only [BLOCK, ENTRY_BASE, ENTRY_LEN, ENTRIES_PER_BLOCK] at *
    omega
  have hdiv : (b * BLOCK + (ENTRY_BASE + (e * ENTRY_LEN + r))) / BLOCK = b := by
    rw [Nat.mul_comm, Nat.mul_add_div (by decide), Nat.div_eq_of_lt hsmall, Nat.add_zero]
  have hrest : (b * BLOCK + (ENTRY_BASE + (e * ENTRY_LEN + r))) % BLOCK
      = ENTRY_BASE + (e * ENTRY_LEN + r) := by
    rw [Nat.mul_comm, Nat.mul_add_mod, Nat.mod_eq_of_lt hsmall]
  have hentry : (e * ENTRY_LEN + r) / ENTRY_LEN = e := by
    rw [Nat.mul_comm, Nat.mul_add_div (by decide), Nat.div_eq_of_lt hr, Nat.add_zero]
  rw [hdiv, hrest, Nat.add_sub_cancel_left, hentry]
  exact ⟨rfl, rfl, Nat.le_add_right _ _⟩

/-- Entries do not meet. -/
theorem slotCells_inj {blocks : List Nat} (hnodup : blocks.Nodup) {m n i : Nat}
    (hm : m < blocks.length * ENTRIES_PER_BLOCK) (hn : n < blocks.length * ENTRIES_PER_BLOCK)
    (him : i ∈ slotCells blocks m) (hin : i ∈ slotCells blocks n) : m = n := by
  obtain ⟨hbm, hem, -⟩ := mem_slotCells hm him
  obtain ⟨hbn, hen, -⟩ := mem_slotCells hn hin
  have hlt := (List.getElem?_eq_some_iff.mp hbm).1
  have hdiv := (List.getElem?_inj hlt hnodup).mp (hbm.trans hbn.symm)
  rw [← Nat.div_add_mod m ENTRIES_PER_BLOCK, ← Nat.div_add_mod n ENTRIES_PER_BLOCK, hdiv, ← hem,
    ← hen]

theorem DirOk.slot_lt (h : DirOk img d) {m : Nat} (hm : m ≤ d.count) :
    m < d.blocks.length * ENTRIES_PER_BLOCK := by
  have hcursor := h.cursor
  have hindex := h.index
  have hblock := h.block
  simp only [ENTRIES_PER_BLOCK] at *
  omega

/-- Positions that belong to no entry. -/
theorem DirOk.mem_spare (h : DirOk img d) {i : Nat} (hi : i / BLOCK ∈ d.blocks)
    (hout : i % BLOCK < ENTRY_BASE) : i ∈ d.spare :=
  ⟨hi, fun m _ hm hmem => by
    have hlo := (mem_slotCells (h.slot_lt hm) hmem).2.2
    omega⟩

theorem DirOk.key_mem (h : DirOk img d) : d.blocks[0]? = some d.keyBlock := by
  cases hb : d.blocks with
  | nil => exact absurd hb h.ne_nil
  | cons b rest => rw [Directory.keyBlock, hb]; rfl

/-- The header of a directory is no entry. -/
theorem DirOk.header_spare (h : DirOk img d) {i : Nat} (hi : i ∈ slotCells d.blocks 0) :
    i ∈ d.spare := by
  have hzero := h.slot_lt (Nat.zero_le _)
  refine ⟨List.mem_of_getElem? (mem_slotCells hzero hi).1, fun m hm hle hmem => ?_⟩
  have heq := slotCells_inj h.nodup hzero (h.slot_lt hle) hi hmem
  omega

theorem DirOk.empty_spare (h : DirOk img d) {m i : Nat} (hm : d.count < m)
    (hlt : m < d.blocks.length * ENTRIES_PER_BLOCK) (hi : i ∈ slotCells d.blocks m) :
    i ∈ d.spare := by
  refine ⟨List.mem_of_getElem? (mem_slotCells hlt hi).1, fun n hn hle hmem => ?_⟩
  have heq := slotCells_inj h.nodup hlt (h.slot_lt hle) hi hmem
  omega

theorem leField_congr {p n : Nat} (h : AgreeOn (cells p n) img img') :
    leField img' p n = leField img p n := by
  rw [leField, leField, h.slice (Set.Subset.refl _)]

/-- The pointers of a directory. -/
theorem DirOk.pointer_spare (h : DirOk img d) {b i : Nat} (hb : b ∈ d.blocks)
    (hi : i ∈ cells (b * BLOCK) 4) : i ∈ d.spare := by
  have hdiv : i / BLOCK = b ∧ i % BLOCK < 4 := by
    rw [mem_cells] at hi
    simp only [BLOCK] at *
    omega
  exact h.mem_spare (hdiv.1.symm ▸ hb) hdiv.2

theorem DirOk.count_spare (h : DirOk img d) {i : Nat}
    (hi : i ∈ cells (d.keyBlock * BLOCK + ENTRY_BASE + 0x21) 2) : i ∈ d.spare := by
  obtain ⟨b, hb, hoff⟩ := slotOff_eq (h.slot_lt (Nat.zero_le _))
  obtain rfl : d.keyBlock = b := Option.some.inj (h.key_mem.symm.trans hb)
  refine h.header_spare ?_
  rw [slotCells, hoff, mem_cells]
  rw [mem_cells] at hi
  simp only [ENTRY_LEN, Nat.zero_mod]
  omega

theorem DirOk.chain_congr (h : DirOk img d) (hsame : AgreeOn d.spare img img') {k b : Nat}
    (hk : d.blocks[k]? = some b) :
    leField img' (b * BLOCK + 2) 2 = d.blocks.getD (k + 1) 0 := by
  refine (leField_congr (hsame.mono fun i hi => ?_)).trans (h.chain k b hk)
  refine h.pointer_spare (List.mem_of_getElem? hk) ?_
  rw [mem_cells] at hi ⊢
  omega

theorem DirOk.empty_congr (h : DirOk img d) (hsame : AgreeOn d.spare img img') {m : Nat}
    (hm : d.count < m) (hlt : m < d.blocks.length * ENTRIES_PER_BLOCK) :
    byteAt img' (slotOff d.blocks m) = 0 := by
  refine (byteAt_congr (hsame _ (h.empty_spare hm hlt ?_))).trans (h.empty m hm hlt)
  rw [slotCells, mem_cells, ENTRY_LEN]
  omega

/-- A directory depends on what it has besides its entries. -/
theorem DirOk.congr (h : DirOk img d) (hsame : AgreeOn d.spare img img')
    (hmono : ∀ b, Free img' b → Free img b) : DirOk img' d where
  ne_nil := h.ne_nil
  nodup := h.nodup
  valid b hb := by
    obtain ⟨h1, h2, h3, h4⟩ := h.valid b hb
    exact ⟨h1, h2, h3, fun hf => h4 (hmono b hf)⟩
  chain _ _ hk := h.chain_congr hsame hk
  cursor := h.cursor
  index := h.index
  block := h.block
  empty _ hm hlt := h.empty_congr hsame hm hlt
  counted := (leField_congr (hsame.mono fun _ hi => h.count_spare hi)).trans h.counted

/-- A change elsewhere keeps a directory. -/
theorem DirOk.grows (h : DirOk img d) {T : Set Nat} (hg : Grows T img img')
    (hT : ∀ i ∈ T, i ∉ d.spare) : DirOk img' d :=
  h.congr (fun i hi => by
    obtain ⟨-, hmap, -, hused⟩ := h.valid _ hi.1
    exact hg.same i hmap hused fun hmem => hT i hmem hi) hg.mono

theorem DirOk.few_blocks (h : DirOk img d) : d.blocks.length ≤ TOTAL_BLOCKS := by
  have hsub : d.blocks ⊆ List.range TOTAL_BLOCKS := fun b hb =>
    List.mem_range.mpr (h.valid b hb).1
  have hle := (h.nodup.subperm hsub).length_le
  rwa [List.length_range] at hle

end

/-! ## The next slot -/

section

variable {img img' : Bytes} {d d' : Directory}

theorem leField_word {p n : Nat} (hn : n < 65536) (h : img.slice p 2 = word n) :
    leField img p 2 = n := by
  rw [leField, h]
  exact Bytes.le_ofNat_ofNat hn

theorem getLastD_mem {blocks : List Nat} (h : blocks ≠ []) :
    blocks[blocks.length - 1]? = some (blocks.getLastD 0) := by
  rw [← List.getLast?_eq_getElem?, List.getLast?_eq_some_getLast h, List.getLastD_eq_getLast?,
    List.getLast?_eq_some_getLast h, Option.getD_some]

theorem keyBlock_append (hne : d.blocks ≠ []) (ext : List Nat) :
    Directory.keyBlock { d with blocks := d.blocks ++ ext } = d.keyBlock := by
  cases hb : d.blocks with
  | nil => exact absurd hb hne
  | cons b rest => simp only [Directory.keyBlock, hb, List.cons_append, List.headD_cons]

/-- The writes that link a block behind another. -/
def linkWrites (prevb newb : Nat) : List (Nat × Bytes) :=
  [(prevb * BLOCK + 2, word newb), (newb * BLOCK + 0, word prevb), (newb * BLOCK + 2, word 0)]

/-- A block that was free is linked behind the last block of a directory. -/
structure Linked (img img' img'' : Bytes) (d : Directory) (prevb newb : Nat) : Prop where
  last : d.blocks[d.blocks.length - 1]? = some prevb
  was_free : Free img newb
  taken : ¬ Free img' newb
  next : leField img'' (prevb * BLOCK + 2) 2 = newb
  end_mark : leField img'' (newb * BLOCK + 2) 2 = 0
  /-- What neither write covers is as it was before the block was taken. -/
  same : ∀ i, i / BLOCK ≠ BITMAP_BLOCK → ¬ Free img' (i / BLOCK) →
    i ∉ cells (prevb * BLOCK + 2) 2 → i ∉ cells (newb * BLOCK) 4 → img''[i]? = img[i]?

theorem linkWrites_spec {newb : Nat} (hd : DirOk img d) (htook : Took img img' newb) :
    Grows d.spare img (img'.splices (linkWrites (d.blocks.getLastD 0) newb)) ∧
      Linked img img' (img'.splices (linkWrites (d.blocks.getLastD 0) newb)) d
        (d.blocks.getLastD 0) newb ∧
      ∀ b, Free (img'.splices (linkWrites (d.blocks.getLastD 0) newb)) b ↔ Free img' b := by
  have hlast := getLastD_mem hd.ne_nil
  have hprev := List.mem_of_getElem? hlast
  generalize d.blocks.getLastD 0 = prevb at *
  obtain ⟨hpb, hpmap, hpzero, hpused⟩ := hd.valid prevb hprev
  have hne : newb ≠ prevb := fun heq => hpused (heq ▸ htook.was_free)
  have hpused' : ¬ Free img' prevb := fun hf => hpused (htook.grows.mono _ hf)
  have hnew := htook.was_free.1
  have hin : ∀ w ∈ linkWrites prevb newb, InUse img' w := by
    simp only [linkWrites, List.forall_mem_cons, List.not_mem_nil, IsEmpty.forall_iff, implies_true,
      and_true]
    refine ⟨⟨prevb, hpb, hpmap, hpused', ?_⟩, ⟨newb, htook.was_free.1, htook.ne_bitmap,
      htook.taken.2, ?_⟩, ⟨newb, htook.was_free.1, htook.ne_bitmap, htook.taken.2, ?_⟩⟩
    all_goals
      simp only [BLOCK, length_word]
      omega
  obtain ⟨hgrows, hfree, hthere⟩ := htook.grows.ok.writes _ hin (by
    simp only [linkWrites, List.pairwise_cons, List.forall_mem_cons, List.not_mem_nil,
      IsEmpty.forall_iff, implies_true, and_true, List.Pairwise.nil, BLOCK, length_word]
    omega)
  simp only [linkWrites, List.forall_mem_cons, List.not_mem_nil, IsEmpty.forall_iff, implies_true,
    and_true, length_word] at hthere
  obtain ⟨hnext, -, hend⟩ := hthere
  have hcovered : ∀ i ∈ covered (linkWrites prevb newb),
      (i ∈ cells (prevb * BLOCK + 2) 2) ∨ i ∈ cells (newb * BLOCK) 4 := by
    intro i hi
    simp only [linkWrites, covered, List.mem_cons, List.not_mem_nil, or_false, exists_eq_or_imp,
      exists_eq_left, Set.mem_ofPred_eq, mem_cells, length_word] at hi ⊢
    omega
  have hwhole : Grows d.spare img (img'.splices (linkWrites prevb newb)) := by
    refine (htook.grows.mono_set (Set.empty_subset _)).trans hgrows fun i hi => ?_
    rcases hcovered i hi with hi | hi
    · refine .inl (hd.pointer_spare hprev ?_)
      rw [mem_cells] at hi ⊢
      omega
    · have hdiv : i / BLOCK = newb := by
        rw [mem_cells] at hi
        simp only [BLOCK] at *
        omega
      exact .inr (hdiv ▸ htook.was_free)
  refine ⟨hwhole, ⟨hlast, htook.was_free, htook.taken.2, ?_, ?_, ?_⟩, hfree⟩
  · exact leField_word (by simp only [TOTAL_BLOCKS] at hnew; omega) hnext
  · exact leField_word (by omega) hend
  · intro i hmap hused h1 h2
    exact (hgrows.same i hmap hused fun hmem =>
      (hcovered i hmem).elim h1 h2).trans (htook.same i hmap)

section Linked

variable {img'' : Bytes} {prevb newb : Nat}

theorem Linked.not_mem (h : Linked img img' img'' d prevb newb) (hd : DirOk img d) :
    newb ∉ d.blocks :=
  fun hmem => (hd.valid newb hmem).2.2.2 h.was_free

/-- A block of the directory before the last keeps its pointer, the last one points to the new block,
and that one ends the chain. -/
theorem Linked.chain (h : Linked img img' img'' d prevb newb) (hd : DirOk img d)
    (hmono : ∀ b, Free img' b → Free img b) {k b : Nat} (hk : (d.blocks ++ [newb])[k]? = some b) :
    leField img'' (b * BLOCK + 2) 2 = (d.blocks ++ [newb]).getD (k + 1) 0 := by
  have hnot := h.not_mem hd
  rcases List.getElem?_snoc hk with ⟨hlt, hk⟩ | ⟨rfl, rfl⟩
  · have hb := List.mem_of_getElem? hk
    rcases Nat.lt_or_ge (k + 1) d.blocks.length with hmore | hmore
    · have hbp : b ≠ prevb := fun heq => by
        have hinj := (List.getElem?_inj hlt hd.nodup).mp (hk.trans (heq ▸ h.last.symm))
        omega
      have hbn : b ≠ newb := fun heq => hnot (heq ▸ hb)
      obtain ⟨-, hbmap, -, hbused⟩ := hd.valid b hb
      rw [List.getD_eq_getElem?_getD, List.getElem?_append_left hmore,
        ← List.getD_eq_getElem?_getD, ← hd.chain k b hk]
      refine leField_congr fun i hi => ?_
      have hdiv : i / BLOCK = b := by
        rw [mem_cells] at hi
        simp only [BLOCK] at *
        omega
      refine h.same i (hdiv ▸ hbmap) (hdiv ▸ fun hf => hbused (hmono b hf)) ?_ ?_
      · rw [mem_cells] at hi ⊢
        simp only [BLOCK] at *
        omega
      · rw [mem_cells] at hi ⊢
        simp only [BLOCK] at *
        omega
    · obtain rfl : k = d.blocks.length - 1 := by omega
      obtain rfl : prevb = b := Option.some.inj (h.last.symm.trans hk)
      have hidx : d.blocks.length - 1 + 1 = d.blocks.length := by omega
      rw [hidx, List.getD_eq_getElem?_getD, List.getElem?_concat_length, Option.getD_some]
      exact h.next
  · rw [List.getD_eq_getElem?_getD, List.getElem?_eq_none (by simp), Option.getD_none]
    exact h.end_mark

/-- The slots behind the entries are empty, in the new block too. -/
theorem Linked.empty (h : Linked img img' img'' d prevb newb) (hok : Ok img) (hd : DirOk img d)
    (hmono : ∀ b, Free img' b → Free img b) (hmap : newb ≠ BITMAP_BLOCK) {m : Nat} (hm : d.count < m)
    (hlt : m < (d.blocks ++ [newb]).length * ENTRIES_PER_BLOCK) :
    byteAt img'' (slotOff (d.blocks ++ [newb]) m) = 0 := by
  obtain ⟨b, hb, hoff⟩ := slotOff_eq hlt
  have hmod := Nat.mod_lt m (show 0 < ENTRIES_PER_BLOCK by decide)
  have hpos : slotOff (d.blocks ++ [newb]) m / BLOCK = b ∧
      ENTRY_BASE ≤ slotOff (d.blocks ++ [newb]) m % BLOCK := by
    have hcell := mem_slotCells hlt (i := slotOff (d.blocks ++ [newb]) m)
      ⟨Nat.le_refl _, Nat.lt_add_of_pos_right (by decide)⟩
    exact ⟨(Option.some.inj (hb.symm.trans hcell.1)).symm, hcell.2.2⟩
  generalize slotOff (d.blocks ++ [newb]) m = p at *
  have hout : ∀ c, p ∉ cells (c * BLOCK) 4 := fun c hmem => by
    rw [mem_cells] at hmem
    simp only [BLOCK, ENTRY_BASE] at *
    omega
  have hpointer : p ∉ cells (prevb * BLOCK + 2) 2 := fun hmem => hout prevb (by
    rw [mem_cells] at hmem ⊢
    omega)
  rcases List.getElem?_snoc hb with ⟨hk, hb⟩ | ⟨hk, rfl⟩
  · obtain ⟨-, hbmap, -, hbused⟩ := hd.valid b (List.mem_of_getElem? hb)
    have hold : m < d.blocks.length * ENTRIES_PER_BLOCK := by
      rwa [Nat.div_lt_iff_lt_mul (by decide)] at hk
    obtain ⟨b', hb', hoff'⟩ := slotOff_eq hold
    obtain rfl : b = b' := Option.some.inj (hb.symm.trans hb')
    have hzero := hd.empty m hm hold
    rw [hoff', ← hoff] at hzero
    refine (byteAt_congr (h.same p (hpos.1.symm ▸ hbmap) ?_ hpointer (hout newb))).trans hzero
    exact hpos.1.symm ▸ fun hf => hbused (hmono b hf)
  · have hzero : img''[p]? = some 0 :=
      (h.same p (hpos.1.symm ▸ hmap) (hpos.1.symm ▸ h.taken) hpointer
        (hout b)).trans (hok.zero p (hpos.1.symm ▸ h.was_free))
    rw [byteAt, List.getD_eq_getElem?_getD, hzero, Option.getD_some]

/-- The header keeps the number of entries. -/
theorem Linked.counted (h : Linked img img' img'' d prevb newb) (hd : DirOk img d)
    (hmono : ∀ b, Free img' b → Free img b) :
    leField img'' (d.keyBlock * BLOCK + ENTRY_BASE + 0x21) 2 = d.count := by
  obtain ⟨-, hmap, -, hused⟩ := hd.valid _ (List.mem_of_getElem? hd.key_mem)
  have hkn : d.keyBlock ≠ newb := fun heq => h.not_mem hd (heq ▸ List.mem_of_getElem? hd.key_mem)
  rw [← hd.counted]
  refine leField_congr fun i hi => ?_
  have hdiv : i / BLOCK = d.keyBlock := by
    rw [mem_cells] at hi
    simp only [BLOCK, ENTRY_BASE] at *
    omega
  refine h.same i (hdiv ▸ hmap) (hdiv ▸ fun hf => hused (hmono _ hf)) ?_ ?_
  · rw [mem_cells] at hi ⊢
    simp only [BLOCK, ENTRY_BASE] at *
    omega
  · rw [mem_cells] at hi ⊢
    simp only [BLOCK, ENTRY_BASE] at *
    omega

end Linked

/-- The chain of a directory after a block is linked to its end. -/
theorem DirOk.link {newb : Nat} (hok : Ok img) (hd : DirOk img d) (htook : Took img img' newb) :
    Grows d.spare img (img'.splices (linkWrites (d.blocks.getLastD 0) newb)) ∧
      DirOk (img'.splices (linkWrites (d.blocks.getLastD 0) newb))
        { d with blocks := d.blocks ++ [newb] } ∧
      ∀ b, Free (img'.splices (linkWrites (d.blocks.getLastD 0) newb)) b ↔ Free img' b := by
  obtain ⟨hwhole, hlinked, hfree⟩ := linkWrites_spec hd htook
  generalize img'.splices (linkWrites (d.blocks.getLastD 0) newb) = img'' at *
  have hmono := htook.grows.mono
  have hnew := htook.bound
  refine ⟨hwhole, ⟨by simp, ?_, ?_, fun k b hk => hlinked.chain hd hmono hk, hd.cursor, hd.index, ?_,
    fun m hm hlt => hlinked.empty hok hd hmono htook.ne_bitmap hm hlt, ?_⟩, hfree⟩
  · rw [List.nodup_append]
    refine ⟨hd.nodup, List.nodup_singleton _, fun a ha b hb => ?_⟩
    rw [List.mem_singleton] at hb
    exact fun heq => hlinked.not_mem hd (hb ▸ heq ▸ ha)
  · intro b hb
    rcases List.mem_append.mp hb with hb | hb
    · obtain ⟨h1, h2, h3, h4⟩ := hd.valid b hb
      exact ⟨h1, h2, h3, fun hf => h4 (hwhole.mono b hf)⟩
    · obtain rfl := List.mem_singleton.mp hb
      refine ⟨htook.was_free.1, htook.ne_bitmap, ?_, fun hf => htook.taken.2 ((hfree _).mp hf)⟩
      simp only [FIRST_DATA, BITMAP_BLOCK] at hnew
      omega
  · exact Nat.lt_of_lt_of_le hd.block (by simp)
  · rw [keyBlock_append hd.ne_nil [newb]]
    exact hlinked.counted hd hmono

end

section

variable {img img' : Bytes} {d d' : Directory}

theorem nextBlock_spec {bi : Nat} {blocks : List Nat} (hok : Ok img) (hd : DirOk img d)
    (hbi : bi ≤ d.blocks.length) (h : nextBlock img d bi = .ok (img', blocks)) :
    Grows d.spare img img' ∧ DirOk img' { d with blocks := blocks } ∧ bi < blocks.length ∧
      ∃ ext, blocks = d.blocks ++ ext ∧ ∀ b ∈ ext, Taken img img' b := by
  unfold nextBlock at h
  split_ifs at h with hlt hfixed
  · obtain ⟨rfl, rfl⟩ := Prod.mk.inj (Except.ok.inj h)
    exact ⟨Grows.refl hok, hd, hlt, [], (List.append_nil _).symm, by simp⟩
  · obtain ⟨⟨newb, img₁⟩, halloc, hrest⟩ := bind_ok.mp h
    obtain ⟨rfl, rfl⟩ := Prod.mk.inj (Except.ok.inj hrest)
    have htook := allocBlock_spec hok halloc
    obtain ⟨hgrows, hdir, hfree⟩ := hd.link hok htook
    refine ⟨hgrows, hdir, ?_, [newb], rfl, fun b hb => ?_⟩
    · rw [List.length_append, List.length_singleton]
      omega
    · obtain rfl := List.mem_singleton.mp hb
      exact ⟨htook.was_free, fun hf => htook.taken.2 ((hfree _).mp hf)⟩

/-- A directory with one entry more. -/
theorem DirOk.count (cursor : Nat × Nat) (hok : Ok img) (hd : DirOk img d)
    (hcursor : cursor.1 * ENTRIES_PER_BLOCK + cursor.2 = d.count + 2)
    (hindex : cursor.2 ≤ ENTRIES_PER_BLOCK) (hblock : cursor.1 < d.blocks.length) :
    Grows d.spare img (img.splice (d.keyBlock * BLOCK + ENTRY_BASE + 0x21) (word (d.count + 1))) ∧
      DirOk (img.splice (d.keyBlock * BLOCK + ENTRY_BASE + 0x21) (word (d.count + 1)))
        ⟨d.blocks, d.fixed, cursor, d.count + 1⟩ ∧
      ∀ b, Free (img.splice (d.keyBlock * BLOCK + ENTRY_BASE + 0x21) (word (d.count + 1))) b
        ↔ Free img b := by
  obtain ⟨hkb, hkmap, -, hkused⟩ := hd.valid _ (List.mem_of_getElem? hd.key_mem)
  have hin : ∀ w ∈ [(d.keyBlock * BLOCK + ENTRY_BASE + 0x21, word (d.count + 1))], InUse img w := by
    simp only [List.forall_mem_cons, List.not_mem_nil, IsEmpty.forall_iff, implies_true, and_true]
    refine ⟨d.keyBlock, hkb, hkmap, hkused, ?_⟩
    simp only [BLOCK, ENTRY_BASE, length_word]
    omega
  obtain ⟨hgrows, hfree, hthere⟩ := hok.writes _ hin (List.pairwise_singleton _ _)
  have hcount : (img.splice (d.keyBlock * BLOCK + ENTRY_BASE + 0x21) (word (d.count + 1))).slice
      (d.keyBlock * BLOCK + ENTRY_BASE + 0x21) 2 = word (d.count + 1) :=
    hthere _ (List.mem_singleton_self _)
  have hcovered : ∀ i ∈ covered [(d.keyBlock * BLOCK + ENTRY_BASE + 0x21, word (d.count + 1))],
      i ∈ cells (d.keyBlock * BLOCK + ENTRY_BASE + 0x21) 2 := fun i hi => by
    simpa only [covered, List.mem_singleton, exists_eq_left, Set.mem_ofPred_eq,
      length_word] using hi
  have hsmall : d.count + 1 < 65536 := by
    -- a directory has no more blocks than the volume
    have hmany := hd.few_blocks
    simp only [ENTRIES_PER_BLOCK, TOTAL_BLOCKS] at *
    omega
  have hspare := hgrows.mono_set fun i hi => hd.count_spare (hcovered i hi)
  -- nothing but the count has changed
  have hsame : ∀ b ∈ d.blocks, ∀ i, i / BLOCK = b →
      i ∉ cells (d.keyBlock * BLOCK + ENTRY_BASE + 0x21) 2 →
      (img.splice (d.keyBlock * BLOCK + ENTRY_BASE + 0x21) (word (d.count + 1)))[i]? = img[i]? := by
    intro b hb i hdiv hout
    obtain ⟨-, hmap, -, hused⟩ := hd.valid b hb
    exact hgrows.same i (hdiv ▸ hmap) (hdiv ▸ hused) fun hmem => hout (hcovered i hmem)
  refine ⟨hspare, ⟨hd.ne_nil, hd.nodup, fun b hb => ?_, fun k b hk => ?_, hcursor, hindex, hblock,
    fun m hm hlt => ?_, leField_word hsmall hcount⟩, hfree⟩
  · obtain ⟨h1, h2, h3, h4⟩ := hd.valid b hb
    exact ⟨h1, h2, h3, fun hf => h4 ((hfree b).mp hf)⟩
  · rw [← hd.chain k b hk]
    refine leField_congr fun i hi => hsame b (List.mem_of_getElem? hk) i ?_ ?_
    · rw [mem_cells] at hi
      simp only [BLOCK] at *
      omega
    · rw [mem_cells] at hi ⊢
      simp only [BLOCK, ENTRY_BASE] at *
      omega
  · have hm' : d.count + 1 < m := hm
    have hcell : slotOff d.blocks m ∈ slotCells d.blocks m :=
      ⟨Nat.le_refl _, Nat.lt_add_of_pos_right (by decide)⟩
    have hpos := (mem_slotCells hlt hcell).1
    refine (byteAt_congr (hsame _ (List.mem_of_getElem? hpos) _ rfl fun hmem => ?_)).trans
      (hd.empty m (by omega) hlt)
    have hzero : slotOff d.blocks m ∈ slotCells d.blocks 0 := by
      obtain ⟨b₀, hb₀, hoff₀⟩ := slotOff_eq (hd.slot_lt (Nat.zero_le _))
      obtain rfl : d.keyBlock = b₀ := Option.some.inj (hd.key_mem.symm.trans hb₀)
      rw [slotCells, hoff₀, mem_cells]
      rw [mem_cells] at hmem
      simp only [ENTRY_LEN, Nat.zero_mod]
      omega
    have heq := slotCells_inj hd.nodup hlt (hd.slot_lt (Nat.zero_le _)) hcell hzero
    omega

/-- Where the next slot of a directory is. -/
theorem DirOk.next (hd : DirOk img d) :
    (if ENTRIES_PER_BLOCK ≤ d.cursor.2 then (d.cursor.1 + 1, 0) else d.cursor) =
        ((d.count + 1) / ENTRIES_PER_BLOCK, (d.count + 1) % ENTRIES_PER_BLOCK) ∧
      (d.count + 1) / ENTRIES_PER_BLOCK ≤ d.blocks.length := by
  have hcursor := hd.cursor
  have hindex := hd.index
  have hblock := hd.block
  rcases hc : d.cursor with ⟨bi, ei⟩
  rw [hc] at hcursor hindex hblock
  dsimp only at hcursor hindex hblock ⊢
  split_ifs with hfull
  · refine ⟨Prod.ext ?_ ?_, ?_⟩
    all_goals
      simp only [ENTRIES_PER_BLOCK] at *
      omega
  · refine ⟨Prod.ext ?_ ?_, ?_⟩
    all_goals
      simp only [ENTRIES_PER_BLOCK] at *
      omega

/-- `alloc_slot` by the number of entries. -/
theorem allocSlot_eq (hd : DirOk img d) :
    allocSlot img d = (nextBlock img d ((d.count + 1) / ENTRIES_PER_BLOCK) >>= fun r =>
      .ok ((slotOff r.2 (d.count + 1), r.2.getD ((d.count + 1) / ENTRIES_PER_BLOCK) 0,
        (d.count + 1) % ENTRIES_PER_BLOCK),
        r.1.splice (d.keyBlock * BLOCK + ENTRY_BASE + 0x21) (word (d.count + 1)),
        ⟨r.2, d.fixed, ((d.count + 1) / ENTRIES_PER_BLOCK, (d.count + 1) % ENTRIES_PER_BLOCK + 1),
          d.count + 1⟩)) := by
  rw [allocSlot, hd.next.1]
  rfl

/-- The next slot: an entry behind those that are there, in the chain that may have grown. -/
theorem allocSlot_spec {off blk ei : Nat} (hok : Ok img) (hd : DirOk img d)
    (h : allocSlot img d = .ok ((off, blk, ei), img', d')) :
    Grows d.spare img img' ∧ DirOk img' d' ∧ d'.count = d.count + 1 ∧
      off = slotOff d'.blocks (d.count + 1) ∧
      ∃ ext, d'.blocks = d.blocks ++ ext ∧ ∀ b ∈ ext, Taken img img' b := by
  rw [allocSlot_eq hd] at h
  obtain ⟨⟨img₁, blocks⟩, hblocks, hrest⟩ := bind_ok.mp h
  obtain ⟨hgrows, hdir, hlt, ext, hext, htaken⟩ := nextBlock_spec hok hd hd.next.2 hblocks
  have heq := Except.ok.inj hrest
  simp only [Prod.mk.injEq] at heq
  obtain ⟨⟨rfl, -, -⟩, rfl, rfl⟩ := heq
  have hkey : Directory.keyBlock { d with blocks := blocks } = d.keyBlock := by
    rw [hext]
    exact keyBlock_append hd.ne_nil ext
  have hmod := Nat.mod_lt (d.count + 1) (show 0 < ENTRIES_PER_BLOCK by decide)
  have hsplit := Nat.div_add_mod (d.count + 1) ENTRIES_PER_BLOCK
  obtain ⟨hgrows', hdir', -⟩ := hdir.count
    ((d.count + 1) / ENTRIES_PER_BLOCK, (d.count + 1) % ENTRIES_PER_BLOCK + 1) hgrows.ok
    (by
      show (d.count + 1) / ENTRIES_PER_BLOCK * ENTRIES_PER_BLOCK +
        ((d.count + 1) % ENTRIES_PER_BLOCK + 1) = d.count + 2
      rw [Nat.mul_comm]
      omega) hmod hlt
  rw [hkey] at hgrows' hdir'
  have hslots : ∀ m, m ≤ d.count → slotCells blocks m = slotCells d.blocks m := fun m hm => by
    rw [slotCells, slotCells, hext, slotOff_append (hd.slot_lt hm)]
  refine ⟨hgrows.trans hgrows' fun i hi => ?_, hdir', rfl, rfl, ext, hext, fun b hb =>
    (htaken b hb).of_first hgrows'⟩
  obtain ⟨hmem, hout⟩ := hi
  rw [show Directory.blocks { d with blocks := blocks } = d.blocks ++ ext from hext,
    List.mem_append] at hmem
  rcases hmem with hold | hnew
  · exact .inl ⟨hold, fun m hm hle => hslots m hle ▸ hout m hm hle⟩
  · exact .inr (htaken _ hnew).1

end

end Mountin.Prodos
