import Mountin.Fs.ProdosTree

set_option autoImplicit false

/-! # The room of a ProDOS volume

How many blocks a tree takes, and when the writer succeeds: exactly when no two names collide, no
file is too long, the volume directory has a slot for each of its entries, and there are blocks enough
(`createImage_isOk_iff`). Its image then has the files of the tree (`createImage_found`).
-/

namespace Mountin.Prodos

open Volume

/-- The number of free blocks. -/
def freeCount (img : Bytes) : Nat := (List.range TOTAL_BLOCKS).countP (isFree img)

/-- The blocks of a file. -/
def fileBlocks (n : Nat) : Nat := if n ≤ SEEDLING_MAX then 1 else 1 + (n + BLOCK - 1) / BLOCK

/-- The blocks of a directory with so many entries besides its header. -/
def dirBlocks (entries : Nat) : Nat := (entries + ENTRIES_PER_BLOCK) / ENTRIES_PER_BLOCK

/-- The entries of a listing. -/
def Listing.entries : Listing → Nat
  | .nil => 0
  | .symlink _ rest => rest.entries
  | .other _ rest => rest.entries
  | .file _ _ rest => rest.entries + 1
  | .dir _ _ rest => rest.entries + 1

/-- The blocks that the entries of a listing need, besides those of the directory itself. -/
def Listing.need : Listing → Nat
  | .nil => 0
  | .symlink _ rest => rest.need
  | .other _ rest => rest.need
  | .file _ data rest => fileBlocks data.length + rest.need
  | .dir _ children rest => dirBlocks children.entries + children.need + rest.need

/-- No file is too long. -/
def Listing.Small : Listing → Prop
  | .nil => True
  | .symlink _ rest => rest.Small
  | .other _ rest => rest.Small
  | .file _ data rest => data.length ≤ SAPLING_MAX ∧ rest.Small
  | .dir _ children rest => children.Small ∧ rest.Small

/-- The keys of everything in a listing that is no symbolic link. -/
def keysOf (t : Upper) : Listing → List Name → List (List Name)
  | .nil, _ => []
  | .symlink _ rest, path => keysOf t rest path
  | .other name rest, path => (path ++ [(prodosName t name).chars]) :: keysOf t rest path
  | .file name _ rest, path => (path ++ [(prodosName t name).chars]) :: keysOf t rest path
  | .dir name children rest, path =>
      (path ++ [(prodosName t name).chars]) ::
        (keysOf t children (path ++ [(prodosName t name).chars]) ++ keysOf t rest path)

/-- A computation succeeds. -/
def IsOk {α : Type} (x : Except Error α) : Prop := ∃ a, x = .ok a

theorem isOk_bind {α β : Type} {x : Except Error α} {f : α → Except Error β} :
    IsOk (x >>= f) ↔ ∃ a, x = .ok a ∧ IsOk (f a) := by
  constructor
  · rintro ⟨b, hb⟩
    obtain ⟨a, ha, hf⟩ := bind_ok.mp hb
    exact ⟨a, ha, b, hf⟩
  · rintro ⟨a, ha, b, hb⟩
    exact ⟨b, bind_ok.mpr ⟨a, ha, hb⟩⟩

/-- A computation that succeeds exactly when `P` holds and there are `n` free blocks, and takes
these. -/
structure Takes {α : Type} (x : Except Error α) (imgOf : α → Bytes) (img : Bytes) (P : Prop)
    (n : Nat) : Prop where
  isOk : IsOk x ↔ P ∧ n ≤ freeCount img
  count : ∀ a, x = .ok a → freeCount (imgOf a) + n = freeCount img

/-- One computation after the other. -/
theorem Takes.bind {α β : Type} {x : Except Error α} {f : α → Except Error β} {imgOf : α → Bytes}
    {imgOf' : β → Bytes} {img : Bytes} {P Q : Prop} {n m : Nat} (h : Takes x imgOf img P n)
    (h' : ∀ a, x = .ok a → Takes (f a) imgOf' (imgOf a) Q m) :
    Takes (x >>= f) imgOf' img (P ∧ Q) (n + m) := by
  refine ⟨?_, fun b hb => ?_⟩
  · rw [isOk_bind]
    constructor
    · rintro ⟨a, ha, hf⟩
      obtain ⟨hP, hn⟩ := h.isOk.mp ⟨a, ha⟩
      obtain ⟨hQ, hm⟩ := (h' a ha).isOk.mp hf
      have hcount := h.count a ha
      exact ⟨⟨hP, hQ⟩, by omega⟩
    · rintro ⟨⟨hP, hQ⟩, hle⟩
      obtain ⟨a, ha⟩ := h.isOk.mpr ⟨hP, by omega⟩
      have hcount := h.count a ha
      exact ⟨a, ha, (h' a ha).isOk.mpr ⟨hQ, by omega⟩⟩
  · obtain ⟨a, ha, hf⟩ := bind_ok.mp hb
    have hcount := h.count a ha
    have hcount' := (h' a ha).count b hf
    omega

theorem Takes.pure {α : Type} {a : α} {imgOf : α → Bytes} {img : Bytes}
    (h : freeCount (imgOf a) = freeCount img) : Takes (.ok a) imgOf img True 0 where
  isOk := ⟨fun _ => ⟨trivial, Nat.zero_le _⟩, fun _ => ⟨a, rfl⟩⟩
  count b hb := by
    obtain rfl := Except.ok.inj hb
    rw [Nat.add_zero, h]

theorem Takes.error {α : Type} {e : Error} {imgOf : α → Bytes} {img : Bytes} {P : Prop} {n : Nat}
    (h : P → freeCount img < n) : Takes (.error e) imgOf img P n where
  isOk := ⟨fun ⟨_, ha⟩ => (by cases ha), fun ⟨hP, hle⟩ => absurd (h hP) (Nat.not_lt.mpr hle)⟩
  count _ ha := by cases ha

theorem Takes.congr {α : Type} {x : Except Error α} {imgOf : α → Bytes} {img : Bytes} {P Q : Prop}
    {n m : Nat} (h : Takes x imgOf img P n) (hPQ : P ↔ Q) (hnm : Q → n = m) :
    Takes x imgOf img Q m := by
  refine ⟨?_, fun a ha => ?_⟩
  · rw [h.isOk, hPQ]
    exact and_congr_right fun hQ => by rw [hnm hQ]
  · have hQ := hPQ.mp (h.isOk.mp ⟨a, ha⟩).1
    rw [← hnm hQ]
    exact h.count a ha

section

variable {img img' : Bytes} {d d' : Directory}

theorem freeCount_congr (h : ∀ b, Free img' b ↔ Free img b) : freeCount img' = freeCount img :=
  List.countP_congr fun b hb => by
    have hiff := h b
    simp only [Free, List.mem_range.mp hb, true_and] at hiff
    exact hiff

theorem Took.freeCount {b : Nat} (h : Took img img' b) :
    Prodos.freeCount img' + 1 = Prodos.freeCount img := by
  have hsplit := List.countP_eq_countP_filter_add (List.range TOTAL_BLOCKS) (isFree img)
    (fun t => decide (t ≠ b))
  have hrest : (List.range TOTAL_BLOCKS).countP (fun t => isFree img t && decide (t ≠ b))
      = Prodos.freeCount img' := List.countP_congr fun t ht => by
    have hiff := h.free_iff t
    simp only [Free, List.mem_range.mp ht, true_and] at hiff
    rw [Bool.and_eq_true, decide_eq_true_eq]
    exact hiff.symm
  have hone : (List.range TOTAL_BLOCKS).countP (fun t => isFree img t && !decide (t ≠ b)) = 1 := by
    have hsame : (List.range TOTAL_BLOCKS).countP (fun t => isFree img t && !decide (t ≠ b))
        = (List.range TOTAL_BLOCKS).count b := List.countP_congr fun t _ => by
      simp only [ne_eq, decide_not, Bool.not_not, Bool.and_eq_true, decide_eq_true_eq, beq_iff_eq]
      exact ⟨fun hboth => hboth.2, fun heq => ⟨heq ▸ h.was_free.2, heq⟩⟩
    rw [hsame, List.count_eq_one_of_mem List.nodup_range (List.mem_range.mpr h.was_free.1)]
  rw [List.countP_filter, List.countP_filter, hrest, hone] at hsplit
  exact hsplit.symm

theorem allocBlock_takes (hok : Ok img) : Takes (allocBlock img) Prod.snd img True 1 := by
  refine ⟨?_, fun r hr => (allocBlock_spec hok hr).freeCount⟩
  rw [true_and, Nat.one_le_iff_ne_zero, ← Nat.pos_iff_ne_zero, freeCount, List.countP_pos_iff]
  constructor
  · rintro ⟨⟨b, img'⟩, h⟩
    obtain ⟨-, hfree, -⟩ := allocBlock_eq_ok h
    exact ⟨b, List.mem_range.mpr hfree.1, hfree.2⟩
  · rintro ⟨b, hb, hfree⟩
    rw [List.mem_range] at hb
    have hlo : FIRST_DATA ≤ b := Nat.le_of_not_lt fun hlt => hok.reserved b hlt ⟨hb, hfree⟩
    have hsome : ((List.range' FIRST_DATA (TOTAL_BLOCKS - FIRST_DATA)).find? (isFree img)).isSome :=
      List.find?_isSome.mpr ⟨b, List.mem_range'_1.mpr ⟨hlo, by omega⟩, hfree⟩
    obtain ⟨b', hfind⟩ := Option.isSome_iff_exists.mp hsome
    exact ⟨(b', markUsed img b'), by rw [allocBlock, hfind]⟩

/-- The loop over the data blocks takes one block for each. -/
theorem writeBlocks_takes {index n i : Nat} {data : Bytes} (hok : Ok img)
    (hindex : index < TOTAL_BLOCKS) (hmap : index ≠ BITMAP_BLOCK) (hused : ¬ Free img index)
    (hn : i + n ≤ 0x100) : Takes (writeBlocks index n i data img) id img True n := by
  induction n generalizing img i data with
  | zero => exact Takes.pure rfl
  | succ n ih =>
      refine ((allocBlock_takes hok).bind (Q := True) (m := n) fun r hr => ?_).congr
        and_self_iff fun _ => Nat.add_comm 1 n
      rcases r with ⟨db, img₁⟩
      have htook := allocBlock_spec hok hr
      obtain ⟨hgrows, hfree, -⟩ := writeBlock_spec (i := i) data hindex hmap hused (by omega) htook
      have hrest := @ih _ (i + 1) (data.drop BLOCK) hgrows.ok
        (fun hf => hused (htook.grows.mono _ ((hfree _).mp hf))) (by omega)
      have hsame := freeCount_congr hfree
      exact ⟨hsame ▸ hrest.isOk, hsame ▸ hrest.count⟩

/-- The data of a file take its blocks. -/
theorem writeFileData_takes {data : Bytes} (hok : Ok img) :
    Takes (writeFileData img data) Prod.snd img (data.length ≤ SAPLING_MAX)
      (fileBlocks data.length) := by
  unfold writeFileData fileBlocks
  split_ifs with hbig hsmall
  · simp only [SEEDLING_MAX, SAPLING_MAX] at *
    omega
  · exact Takes.error fun hle => absurd hle (Nat.not_le.mpr hbig)
  · refine ((allocBlock_takes hok).bind (Q := True) (m := 0) fun r hr => ?_).congr
      ⟨fun _ => Nat.le_of_not_lt hbig, fun _ => ⟨trivial, trivial⟩⟩ fun _ => rfl
    rcases r with ⟨key, img₁⟩
    have htook := allocBlock_spec hok hr
    obtain ⟨-, hfree, -⟩ := htook.grows.ok.writes [(key * BLOCK, data)] (by
      simp only [List.forall_mem_cons, List.not_mem_nil, IsEmpty.forall_iff, implies_true, and_true]
      exact ⟨key, htook.was_free.1, htook.ne_bitmap, htook.taken.2, Nat.le_refl _,
        Nat.add_le_add_left (by assumption) _⟩) (List.pairwise_singleton _ _)
    exact Takes.pure (freeCount_congr hfree)
  · have hmany : (data.length + BLOCK - 1) / BLOCK ≤ 0x100 := by
      simp only [SAPLING_MAX, BLOCK] at *
      omega
    refine ((allocBlock_takes hok).bind (Q := True ∧ True)
      (m := (data.length + BLOCK - 1) / BLOCK + 0) fun r hr => ?_).congr
      ⟨fun _ => Nat.le_of_not_lt hbig, fun _ => ⟨trivial, trivial, trivial⟩⟩ fun _ => rfl
    rcases r with ⟨index, img₁⟩
    have htook := allocBlock_spec hok hr
    exact (writeBlocks_takes htook.grows.ok htook.was_free.1 htook.ne_bitmap htook.taken.2
      (by rwa [Nat.zero_add])).bind fun img₂ _ => Takes.pure rfl

/-! ## Directories -/

/-- What a directory has in blocks: the volume directory has four, another what its entries need. -/
def Directory.Shape (d : Directory) : Prop :=
  if d.fixed then d.blocks.length = VOLDIR_BLOCKS else d.blocks.length = dirBlocks d.count

/-- There are slots for so many entries in the volume directory. -/
def Directory.Holds (d : Directory) (n : Nat) : Prop :=
  d.fixed = true → d.count + n < VOLDIR_BLOCKS * ENTRIES_PER_BLOCK

/-- The blocks that so many entries more take. -/
def Directory.growth (d : Directory) (n : Nat) : Nat :=
  if d.fixed then 0 else dirBlocks (d.count + n) - dirBlocks d.count

/-- The step to the next block takes one when the chain is full. -/
theorem nextBlock_takes {bi : Nat} (hok : Ok img) (hd : DirOk img d) :
    Takes (nextBlock img d bi) Prod.fst img (bi < d.blocks.length ∨ d.fixed = false)
      (if bi < d.blocks.length then 0 else 1) := by
  unfold nextBlock
  split_ifs with hlt hfixed
  · exact (Takes.pure rfl).congr ⟨fun _ => .inl hlt, fun _ => trivial⟩ fun _ => rfl
  · refine Takes.error fun hP => ?_
    rcases hP with hP | hP
    · exact absurd hP hlt
    · rw [hfixed] at hP
      cases hP
  · refine ((allocBlock_takes hok).bind (Q := True) (m := 0) fun r hr => ?_).congr
      ⟨fun _ => .inr (Bool.eq_false_iff.mpr hfixed), fun _ => ⟨trivial, trivial⟩⟩ fun _ => rfl
    rcases r with ⟨newb, img₁⟩
    exact Takes.pure (freeCount_congr (hd.link hok (allocBlock_spec hok hr)).2.2)

/-- The next slot takes a block when the chain is full. -/
theorem allocSlot_takes (hok : Ok img) (hd : DirOk img d) (hshape : d.Shape) :
    Takes (allocSlot img d) (fun r => r.2.1) img (d.Holds 1) (d.growth 1) := by
  rw [allocSlot_eq hd]
  have hroom : ((d.count + 1) / ENTRIES_PER_BLOCK < d.blocks.length ∨ d.fixed = false) ↔ d.Holds 1 := by
    unfold Directory.Holds
    unfold Directory.Shape at hshape
    cases hf : d.fixed with
    | false => simp
    | true =>
        rw [hf, if_pos rfl] at hshape
        simp only [Bool.true_eq_false, or_false, forall_const]
        rw [hshape, Nat.div_lt_iff_lt_mul (by decide)]
  have hgrowth : d.Holds 1 →
      (if (d.count + 1) / ENTRIES_PER_BLOCK < d.blocks.length then 0 else 1) + 0 = d.growth 1 := by
    intro hholds
    have hroom' := hroom.mpr hholds
    unfold Directory.growth
    unfold Directory.Shape at hshape
    cases hf : d.fixed with
    | false =>
        rw [hf, if_neg Bool.false_ne_true] at hshape
        rw [if_neg Bool.false_ne_true, hshape]
        by_cases hlt : (d.count + 1) / ENTRIES_PER_BLOCK < dirBlocks d.count
        · rw [if_pos hlt]
          simp only [dirBlocks, ENTRIES_PER_BLOCK] at *
          omega
        · rw [if_neg hlt]
          simp only [dirBlocks, ENTRIES_PER_BLOCK] at *
          omega
    | true =>
        rw [hf] at hroom'
        simp only [Bool.true_eq_false, or_false] at hroom'
        rw [if_pos hroom', if_pos rfl]
  refine ((nextBlock_takes hok hd).bind (Q := True) (m := 0) fun r hr => ?_).congr
    ((iff_of_eq (and_true _)).trans hroom) hgrowth
  rcases r with ⟨img₁, blocks⟩
  obtain ⟨hgrows, hdir, -, ext, hext, -⟩ := nextBlock_spec hok hd hd.next.2 hr
  have hmem : d.keyBlock ∈ blocks := by
    rw [hext]
    exact List.mem_append_left _ (List.mem_of_getElem? hd.key_mem)
  obtain ⟨hkb, hkmap, -, hkused⟩ := hdir.valid _ hmem
  obtain ⟨-, hfree, -⟩ := hgrows.ok.writes
    [(d.keyBlock * BLOCK + ENTRY_BASE + 0x21, word (d.count + 1))] (by
      simp only [List.forall_mem_cons, List.not_mem_nil, IsEmpty.forall_iff, implies_true, and_true]
      refine ⟨d.keyBlock, hkb, hkmap, hkused, ?_⟩
      simp only [BLOCK, ENTRY_BASE, length_word]
      omega) (List.pairwise_singleton _ _)
  exact Takes.pure (freeCount_congr hfree)

/-- A directory keeps its shape. -/
theorem allocSlot_shape {r : Nat × Nat × Nat} (hd : DirOk img d) (hshape : d.Shape)
    (h : allocSlot img d = .ok (r, img', d')) :
    d'.Shape ∧ d'.fixed = d.fixed ∧ d'.count = d.count + 1 := by
  rw [allocSlot_eq hd] at h
  obtain ⟨⟨img₁, blocks⟩, hblocks, hrest⟩ := bind_ok.mp h
  have heq := Except.ok.inj hrest
  simp only [Prod.mk.injEq] at heq
  obtain ⟨-, -, rfl⟩ := heq
  refine ⟨?_, rfl, rfl⟩
  unfold Directory.Shape at hshape ⊢
  unfold nextBlock at hblocks
  have hlow := hd.next.2
  split_ifs at hblocks with hlt hfixed
  · obtain ⟨-, rfl⟩ := Prod.mk.inj (Except.ok.inj hblocks)
    cases hf : d.fixed with
    | true =>
        rw [hf] at hshape
        exact hshape
    | false =>
        rw [hf, if_neg Bool.false_ne_true] at hshape
        rw [hshape] at hlt
        rw [if_neg Bool.false_ne_true, hshape]
        simp only [dirBlocks, ENTRIES_PER_BLOCK] at *
        omega
  · obtain ⟨⟨newb, img₂⟩, -, hlink⟩ := bind_ok.mp hblocks
    obtain ⟨-, rfl⟩ := Prod.mk.inj (Except.ok.inj hlink)
    have hf := Bool.eq_false_iff.mpr hfixed
    rw [hf, if_neg Bool.false_ne_true] at hshape
    rw [hf, if_neg Bool.false_ne_true, List.length_append, List.length_singleton, hshape]
    rw [hshape] at hlt
    simp only [dirBlocks, ENTRIES_PER_BLOCK] at *
    omega

/-- A file of a listing. -/
theorem addFile_takes {t : Upper} {name : ProdosName} {data : Bytes} (hok : Ok img)
    (hd : DirOk img d) (hshape : d.Shape) :
    Takes (addFile t img d name data) Prod.fst img (data.length ≤ SAPLING_MAX ∧ d.Holds 1)
      (fileBlocks data.length + d.growth 1) := by
  refine ((writeFileData_takes hok).bind (Q := d.Holds 1 ∧ True) (m := d.growth 1 + 0)
    fun r hr => ?_).congr (by rw [and_true]) fun _ => rfl
  rcases r with ⟨⟨storage, key, used⟩, img₁⟩
  obtain ⟨hgrows₁, hkey, hstorage, hsize, -⟩ := writeFileData_spec hok hr
  have hd₁ : DirOk img₁ d := hd.grows hgrows₁ fun _ hi => absurd hi (Set.notMem_empty _)
  refine (allocSlot_takes hgrows₁.ok hd₁ hshape).bind fun r hr => ?_
  rcases r with ⟨⟨off, blk, ei⟩, img₂, d₂⟩
  obtain ⟨hgrows₂, hd₂, hcount, rfl, -⟩ := allocSlot_spec hgrows₁.ok hd₁ hr
  have hkeylt := hkey.1.1
  obtain ⟨-, hfree, -⟩ := writeEntry_spec (d.count + 1) storage key used data.length d₂.keyBlock
    (fileTypeFor t name) name hgrows₂.ok hd₂ (Nat.le_of_eq hcount.symm)
    (by rcases hstorage with rfl | rfl <;> decide)
    (by simp only [TOTAL_BLOCKS] at hkeylt; omega) (by simp only [SAPLING_MAX] at hsize; omega)
  exact Takes.pure (freeCount_congr hfree)

theorem addFile_shape {t : Upper} {name : ProdosName} {data : Bytes} (hok : Ok img)
    (hd : DirOk img d) (hshape : d.Shape) (h : addFile t img d name data = .ok (img', d')) :
    d'.Shape ∧ d'.fixed = d.fixed ∧ d'.count = d.count + 1 := by
  obtain ⟨⟨⟨storage, key, used⟩, img₁⟩, hfile, hrest⟩ := bind_ok.mp h
  obtain ⟨⟨⟨off, blk, ei⟩, img₂, d₂⟩, hslot, hrest⟩ := bind_ok.mp hrest
  obtain ⟨-, rfl⟩ := Prod.mk.inj (Except.ok.inj hrest)
  obtain ⟨hgrows₁, -⟩ := writeFileData_spec hok hfile
  exact allocSlot_shape (hd.grows hgrows₁ fun _ hi => absurd hi (Set.notMem_empty _)) hshape hslot

/-- A subdirectory takes its first block, and the slot of its entry. -/
theorem addSubdir_takes {name : ProdosName} (hok : Ok img) (hd : DirOk img d) (hshape : d.Shape) :
    Takes (addSubdir img d name) Prod.fst img (d.Holds 1) (1 + d.growth 1) := by
  refine ((allocBlock_takes hok).bind (Q := d.Holds 1 ∧ True) (m := d.growth 1 + 0)
    fun r hr => ?_).congr (by rw [true_and, and_true]) fun _ => rfl
  rcases r with ⟨key, img₁⟩
  have htook := allocBlock_spec hok hr
  have hd₁ : DirOk img₁ d := hd.grows htook.grows fun _ hi => absurd hi (Set.notMem_empty _)
  refine (allocSlot_takes htook.grows.ok hd₁ hshape).bind fun r hr => ?_
  rcases r with ⟨⟨off, blk, ei⟩, img₂, d₂⟩
  obtain ⟨hgrows₂, -⟩ := allocSlot_spec htook.grows.ok hd₁ hr
  have hused : ¬ Free img₂ key := fun hf => htook.taken.2 (hgrows₂.mono _ hf)
  exact Takes.pure (freeCount_congr
    (writeHeader_spec blk (ei + 1) name hgrows₂.ok hused htook.ne_bitmap htook.was_free.1).2)

theorem addSubdir_shape {name : ProdosName} {sub : Subdir} (hok : Ok img) (hd : DirOk img d)
    (hshape : d.Shape) (h : addSubdir img d name = .ok (img', d', sub)) :
    d'.Shape ∧ d'.fixed = d.fixed ∧ d'.count = d.count + 1 := by
  obtain ⟨⟨key, img₁⟩, halloc, hrest⟩ := bind_ok.mp h
  obtain ⟨⟨⟨off, blk, ei⟩, img₂, d₂⟩, hslot, hrest⟩ := bind_ok.mp hrest
  have heq := Except.ok.inj hrest
  simp only [Prod.mk.injEq] at heq
  obtain ⟨-, rfl, -⟩ := heq
  have htook := allocBlock_spec hok halloc
  exact allocSlot_shape (hd.grows htook.grows fun _ hi => absurd hi (Set.notMem_empty _)) hshape hslot

/-- The entry of a subdirectory takes no block. -/
theorem finalizeSubdir_free {name : ProdosName} {sub : Subdir} {subdir : Directory} {img₃ : Bytes}
    {n key : Nat} {path : List Name} {files : Dict (List Name) Bytes} {ext : List Nat}
    (h : Added img img' d d' name sub key ext)
    (hb : Built img' img₃ (Directory.new [key] false) subdir n path files) (b : Nat) :
    Free (finalizeSubdir img₃ { sub with dir := subdir }) b ↔ Free img₃ b := by
  obtain ⟨rfl, -, hout, -, hd₂, -, hcount, -, -⟩ := h
  have hd₃ : DirOk img₃ d' := hd₂.grows hb.grows fun i hi hs =>
    hout (List.mem_singleton.mp hi.1 ▸ hs.1)
  have hfew := hb.dir.few_blocks
  have hkeysub := (hb.dir.valid _ (List.mem_of_getElem? hb.dir.key_mem)).1
  exact (writeEntry_spec (d.count + 1) ST_SUBDIR subdir.keyBlock subdir.blocks.length
    (subdir.blocks.length * BLOCK) d'.keyBlock FT_DIR name hb.grows.ok hd₃ (Nat.le_of_eq hcount.symm) (by decide)
    (by simp only [TOTAL_BLOCKS] at hkeysub; omega)
    (by simp only [BLOCK, TOTAL_BLOCKS] at *; omega)).2.1 b

end

/-! ## Trees -/

theorem see_takes (s : Build) (key : List Name) :
    Takes (s.see key) Build.img s.img (key ∉ s.seen) 0 := by
  unfold Build.see
  split_ifs with hmem
  · exact Takes.error fun hnew => absurd hmem hnew
  · exact (Takes.pure rfl).congr ⟨fun _ => hmem, fun _ => trivial⟩ fun _ => rfl

theorem Takes.of_eq {α : Type} {x : Except Error α} {imgOf : α → Bytes} {img img' : Bytes} {P : Prop}
    {n : Nat} (h : Takes x imgOf img P n) (heq : freeCount img' = freeCount img) :
    Takes x imgOf img' P n where
  isOk := by
    rw [heq]
    exact h.isOk
  count a ha := by
    rw [heq]
    exact h.count a ha

/-- Names that are all new, one after the other. -/
theorem names_cons {key : List Name} {ks seen : List (List Name)} :
    ((key :: ks).Nodup ∧ ∀ k ∈ key :: ks, k ∉ seen) ↔
      key ∉ seen ∧ ks.Nodup ∧ ∀ k ∈ ks, k ∉ key :: seen := by
  simp only [List.nodup_cons, List.mem_cons, not_or, forall_eq_or_imp]
  constructor
  · rintro ⟨⟨hnot, hnodup⟩, hnew, hks⟩
    exact ⟨hnew, hnodup, fun k hk => ⟨fun heq => hnot (heq ▸ hk), hks k hk⟩⟩
  · rintro ⟨hnew, hnodup, hks⟩
    exact ⟨⟨fun hmem => (hks key hmem).1 rfl, hnodup⟩, hnew, fun k hk => (hks k hk).2⟩

theorem names_append {ks ks' seen : List (List Name)} :
    ((ks ++ ks').Nodup ∧ ∀ k ∈ ks ++ ks', k ∉ seen) ↔
      (ks.Nodup ∧ ∀ k ∈ ks, k ∉ seen) ∧ ks'.Nodup ∧ ∀ k ∈ ks', ¬ (k ∈ ks ∨ k ∈ seen) := by
  rw [List.nodup_append, List.forall_mem_append]
  constructor
  · rintro ⟨⟨hnodup, hnodup', hapart⟩, hnew, hnew'⟩
    refine ⟨⟨hnodup, hnew⟩, hnodup', fun k hk hmem => ?_⟩
    exact hmem.elim (fun hks => hapart k hks k hk rfl) (hnew' k hk)
  · rintro ⟨⟨hnodup, hnew⟩, hnodup', hnew'⟩
    refine ⟨⟨hnodup, hnodup', fun a ha b hb heq => ?_⟩, hnew, fun k hk hmem => hnew' k hk (.inr hmem)⟩
    exact hnew' b hb (.inl (heq ▸ ha))

/-- The directory after one entry more, as far as its room goes. -/
theorem room_succ (d d' : Directory) (hfixed : d'.fixed = d.fixed) (hcount : d'.count = d.count + 1)
    (n : Nat) :
    (d.Holds 1 ∧ d'.Holds n ↔ d.Holds (n + 1)) ∧ d.growth 1 + d'.growth n = d.growth (n + 1) := by
  unfold Directory.Holds Directory.growth
  rw [hfixed, hcount]
  cases d.fixed with
  | true =>
      simp only [VOLDIR_BLOCKS, ENTRIES_PER_BLOCK, forall_const, if_true, and_true]
      omega
  | false =>
      simp only [Bool.false_eq_true, false_implies, if_false, and_self, true_and, dirBlocks,
        ENTRIES_PER_BLOCK]
      omega

/-- What a listing has seen: the names that were there, and its own. -/
theorem buildTree_seen (t : Upper) {src : Listing} {path : List Name} {s s' : Build}
    {d d' : Directory} (h : buildTree t src path s d = .ok (s', d')) (k : List Name) :
    k ∈ s'.seen ↔ k ∈ keysOf t src path ∨ k ∈ s.seen := by
  induction src generalizing path s d s' d' with
  | nil =>
      obtain ⟨rfl, rfl⟩ := Prod.mk.inj (Except.ok.inj h)
      simp [keysOf]
  | symlink name rest ih => exact ih h
  | other name rest ih =>
      obtain ⟨s₁, hsee, hrest⟩ := bind_ok.mp h
      obtain ⟨-, rfl⟩ := see_eq_ok hsee
      rw [@ih path ⟨s.img, s.expected, (path ++ [(prodosName t name).chars]) :: s.seen⟩ s' d d' hrest,
        keysOf]
      simp only [List.mem_cons]
      tauto
  | file name data rest ih =>
      obtain ⟨s₁, hsee, hrest⟩ := bind_ok.mp h
      obtain ⟨-, rfl⟩ := see_eq_ok hsee
      obtain ⟨⟨img₁, d₁⟩, -, hrest⟩ := bind_ok.mp hrest
      rw [ih hrest, keysOf]
      simp only [List.mem_cons]
      tauto
  | dir name children rest ih ih' =>
      obtain ⟨s₁, hsee, hrest⟩ := bind_ok.mp h
      obtain ⟨-, rfl⟩ := see_eq_ok hsee
      obtain ⟨⟨img₁, d₁, sub⟩, -, hrest⟩ := bind_ok.mp hrest
      obtain ⟨⟨s₂, subdir⟩, hchildren, hrest⟩ := bind_ok.mp hrest
      rw [ih' hrest, ih hchildren, keysOf]
      simp only [List.mem_cons, List.mem_append]
      tauto

theorem buildTree_shape (t : Upper) {src : Listing} {path : List Name} {s s' : Build}
    {d d' : Directory} (h : buildTree t src path s d = .ok (s', d')) (hok : Ok s.img)
    (hd : DirOk s.img d) (hshape : d.Shape) :
    d'.Shape ∧ d'.fixed = d.fixed ∧ d'.count = d.count + src.entries := by
  induction src generalizing path s d s' d' with
  | nil =>
      obtain ⟨-, rfl⟩ := Prod.mk.inj (Except.ok.inj h)
      exact ⟨hshape, rfl, rfl⟩
  | symlink name rest ih => exact ih h hok hd hshape
  | other name rest ih =>
      obtain ⟨s₁, hsee, hrest⟩ := bind_ok.mp h
      obtain ⟨-, rfl⟩ := see_eq_ok hsee
      exact @ih path ⟨s.img, s.expected, (path ++ [(prodosName t name).chars]) :: s.seen⟩ s' d d'
        hrest hok hd hshape
  | file name data rest ih =>
      obtain ⟨s₁, hsee, hrest⟩ := bind_ok.mp h
      obtain ⟨-, rfl⟩ := see_eq_ok hsee
      obtain ⟨⟨img₁, d₁⟩, hadd, hrest⟩ := bind_ok.mp hrest
      have hfile := addFile_spec hok hd hadd path
      obtain ⟨hshape₁, hfixed₁, hcount₁⟩ := addFile_shape hok hd hshape hadd
      obtain ⟨hshape', hfixed', hcount'⟩ :=
        @ih path ⟨img₁, _, _⟩ s' d₁ d' hrest hfile.grows.ok hfile.dir hshape₁
      refine ⟨hshape', hfixed'.trans hfixed₁, ?_⟩
      rw [hcount', hcount₁, Listing.entries]
      omega
  | dir name children rest ih ih' =>
      obtain ⟨s₁, hsee, hrest⟩ := bind_ok.mp h
      obtain ⟨-, rfl⟩ := see_eq_ok hsee
      obtain ⟨⟨img₁, d₁, sub⟩, hadd, hrest⟩ := bind_ok.mp hrest
      obtain ⟨⟨s₂, subdir⟩, hchildren, hrest⟩ := bind_ok.mp hrest
      have hsub := subdir_spec hok hd hadd fun hok₁ hd₁ => buildTree_spec t hchildren hok₁ hd₁
      obtain ⟨hshape₁, hfixed₁, hcount₁⟩ := addSubdir_shape hok hd hshape hadd
      obtain ⟨hshape', hfixed', hcount'⟩ :=
        @ih' path ⟨_, s₂.expected, s₂.seen⟩ s' d₁ d' hrest hsub.grows.ok hsub.dir hshape₁
      refine ⟨hshape', hfixed'.trans hfixed₁, ?_⟩
      rw [hcount', hcount₁, Listing.entries]
      omega

theorem new_shape (key : Nat) : (Directory.new [key] false).Shape := by
  simp only [Directory.Shape, Directory.new, Bool.false_eq_true, if_false]
  rfl

/-- What a new directory needs for its entries, with its first block. -/
theorem new_growth (key n : Nat) : 1 + (Directory.new [key] false).growth n = dirBlocks n := by
  simp only [Directory.growth, Directory.new, dirBlocks, ENTRIES_PER_BLOCK, Bool.false_eq_true,
    if_false]
  omega

/-- What is asked of the names and the files of a listing. -/
def Listing.Fits (t : Upper) (src : Listing) (path : List Name) (seen : List (List Name)) : Prop :=
  ((keysOf t src path).Nodup ∧ ∀ k ∈ keysOf t src path, k ∉ seen) ∧ src.Small

/-- `build_tree` succeeds exactly when the names are new, no file is too long, and there is room, and
it takes no more blocks than the listing needs. -/
theorem buildTree_takes (t : Upper) {src : Listing} {path : List Name} {s : Build} {d : Directory}
    (hok : Ok s.img) (hd : DirOk s.img d) (hshape : d.Shape) :
    Takes (buildTree t src path s d) (fun r => r.1.img) s.img
      (src.Fits t path s.seen ∧ d.Holds src.entries) (src.need + d.growth src.entries) := by
  induction src generalizing path s d with
  | nil =>
      refine (Takes.pure rfl).congr ⟨fun _ => ⟨⟨⟨List.nodup_nil, fun k hk => absurd hk
        List.not_mem_nil⟩, trivial⟩, fun hfixed => ?_⟩, fun _ => trivial⟩ fun _ => ?_
      · have hlt := hd.slot_lt (Nat.le_refl _)
        unfold Directory.Shape at hshape
        rw [if_pos hfixed] at hshape
        rwa [hshape] at hlt
      · simp only [Listing.need, Listing.entries, Directory.growth, Nat.add_zero, Nat.sub_self, ite_self]
  | symlink name rest ih => exact ih hok hd hshape
  | other name rest ih =>
      refine ((see_takes s _).bind (Q := (((keysOf t rest path).Nodup ∧ ∀ k ∈ keysOf t rest path,
        k ∉ (path ++ [(prodosName t name).chars]) :: s.seen) ∧ rest.Small) ∧ d.Holds rest.entries)
        (m := rest.need + d.growth rest.entries) fun s₁ hs₁ => ?_).congr ?_ fun _ => Nat.zero_add _
      · obtain ⟨-, rfl⟩ := see_eq_ok hs₁
        exact @ih path ⟨s.img, s.expected, (path ++ [(prodosName t name).chars]) :: s.seen⟩ d hok hd
          hshape
      · rw [Listing.Fits, keysOf, names_cons]
        simp only [Listing.Small, Listing.entries]
        tauto
  | file name data rest ih =>
      obtain ⟨hholds, hgrowth⟩ := room_succ d
        ⟨d.blocks, d.fixed, d.cursor, d.count + 1⟩ rfl rfl rest.entries
      refine ((see_takes s _).bind (Q := (data.length ≤ SAPLING_MAX ∧ d.Holds 1) ∧
        (((keysOf t rest path).Nodup ∧ ∀ k ∈ keysOf t rest path,
          k ∉ (path ++ [(prodosName t name).chars]) :: s.seen) ∧ rest.Small) ∧
          Directory.Holds ⟨d.blocks, d.fixed, d.cursor, d.count + 1⟩ rest.entries)
        (m := (fileBlocks data.length + d.growth 1) + (rest.need +
          Directory.growth ⟨d.blocks, d.fixed, d.cursor, d.count + 1⟩ rest.entries))
        fun s₁ hs₁ => ?_).congr ?_ fun _ => ?_
      · obtain ⟨-, rfl⟩ := see_eq_ok hs₁
        refine (addFile_takes (t := t) hok hd hshape).bind fun r hr => ?_
        rcases r with ⟨img₁, d₁⟩
        have hfile := addFile_spec hok hd hr path
        obtain ⟨hshape₁, hfixed₁, hcount₁⟩ := addFile_shape hok hd hshape hr
        have hrest := @ih path ⟨img₁, s.expected.set (path ++ [(prodosName t name).chars]) data,
          (path ++ [(prodosName t name).chars]) :: s.seen⟩ d₁ hfile.grows.ok hfile.dir hshape₁
        unfold Directory.Holds Directory.growth at hrest ⊢
        rw [hfixed₁, hcount₁] at hrest
        exact hrest
      · rw [Listing.Fits, keysOf, names_cons]
        simp only [Listing.Small, Listing.entries, ← hholds]
        tauto
      · simp only [Listing.need, Listing.entries, ← hgrowth]
        omega
  | dir name children rest ih ih' =>
      obtain ⟨hholds, hgrowth⟩ := room_succ d
        ⟨d.blocks, d.fixed, d.cursor, d.count + 1⟩ rfl rfl rest.entries
      refine ((see_takes s _).bind (Q := d.Holds 1 ∧
        (((keysOf t children (path ++ [(prodosName t name).chars])).Nodup ∧
          ∀ k ∈ keysOf t children (path ++ [(prodosName t name).chars]),
            k ∉ (path ++ [(prodosName t name).chars]) :: s.seen) ∧ children.Small) ∧
        (((keysOf t rest path).Nodup ∧ ∀ k ∈ keysOf t rest path,
          ¬ (k ∈ keysOf t children (path ++ [(prodosName t name).chars]) ∨
            k ∈ (path ++ [(prodosName t name).chars]) :: s.seen)) ∧ rest.Small) ∧
          Directory.Holds ⟨d.blocks, d.fixed, d.cursor, d.count + 1⟩ rest.entries)
        (m := (1 + d.growth 1) + ((children.need + (dirBlocks children.entries - 1)) + (rest.need +
          Directory.growth ⟨d.blocks, d.fixed, d.cursor, d.count + 1⟩ rest.entries)))
        fun s₁ hs₁ => ?_).congr ?_ fun _ => ?_
      · obtain ⟨-, rfl⟩ := see_eq_ok hs₁
        refine (addSubdir_takes hok hd hshape).bind fun r hr => ?_
        rcases r with ⟨img₁, d₁, sub⟩
        obtain ⟨key, ext, hadded⟩ := addSubdir_spec hok hd hr
        obtain rfl := hadded.sub_eq
        obtain ⟨hshape₁, hfixed₁, hcount₁⟩ := addSubdir_shape hok hd hshape hr
        have hnew := new_growth key children.entries
        have hinner := @ih (path ++ [(prodosName t name).chars])
          ⟨img₁, s.expected, (path ++ [(prodosName t name).chars]) :: s.seen⟩
          (Directory.new [key] false) hadded.grows.ok hadded.dir (new_shape key)
        refine (hinner.congr (Q := ((keysOf t children (path ++ [(prodosName t name).chars])).Nodup ∧
          ∀ k ∈ keysOf t children (path ++ [(prodosName t name).chars]),
            k ∉ (path ++ [(prodosName t name).chars]) :: s.seen) ∧ children.Small)
          (m := children.need + (dirBlocks children.entries - 1)) ⟨fun h => h.1, fun h => ⟨h, fun hf =>
            (by cases hf)⟩⟩ fun _ => by omega).bind fun r hr' => ?_
        rcases r with ⟨s₂, subdir⟩
        have hbuilt := buildTree_spec t hr' hadded.grows.ok hadded.dir
        have hsub := subdir_spec hok hd hr fun _ _ => hbuilt
        have hrest := @ih' path ⟨_, s₂.expected, s₂.seen⟩ d₁ hsub.grows.ok hsub.dir hshape₁
        have hseen := buildTree_seen t hr'
        have hback := hrest.of_eq (freeCount_congr (finalizeSubdir_free hadded hbuilt)).symm
        unfold Directory.Holds Directory.growth at hback ⊢
        rw [hfixed₁, hcount₁] at hback
        refine hback.congr ?_ fun _ => rfl
        simp only [Listing.Fits, hseen]
      · rw [Listing.Fits, keysOf, names_cons, names_append]
        simp only [Listing.Small, Listing.entries, ← hholds]
        tauto
      · have hpos : 1 ≤ dirBlocks children.entries := by
          simp only [dirBlocks, ENTRIES_PER_BLOCK]
          omega
        simp only [Listing.need, Listing.entries, ← hgrowth]
        omega

theorem freeCount_format (name : ProdosName) :
    freeCount (formatVolume name) = TOTAL_BLOCKS - FIRST_DATA := by
  obtain ⟨-, -, hfree⟩ := formatVolume_spec name
  have hsame : freeCount (formatVolume name)
      = (List.range TOTAL_BLOCKS).countP fun b => decide (FIRST_DATA ≤ b) :=
    List.countP_congr fun b hb => by
      have hiff := hfree b
      simp only [Free, List.mem_range.mp hb, true_and, and_true] at hiff
      rw [decide_eq_true_eq]
      exact hiff
  rw [hsame]
  decide +kernel

/-- **The room of a volume**: `create_image` succeeds exactly when no two names of a directory
collide, no file is longer than an index block can point to, the volume directory has a slot for
each of its entries, and the data and the subdirectories need no more than the free blocks. What it
then leaves free is the rest. -/
theorem layOut_isOk_iff (t : Upper) (volumeName : Name) (src : Listing) :
    (IsOk (layOut t volumeName src) ↔
      (keysOf t src []).Nodup ∧ src.Small ∧
        src.entries < VOLDIR_BLOCKS * ENTRIES_PER_BLOCK ∧ src.need ≤ TOTAL_BLOCKS - FIRST_DATA) ∧
      ∀ r, layOut t volumeName src = .ok r →
        freeCount r.1 + src.need = TOTAL_BLOCKS - FIRST_DATA := by
  obtain ⟨hok, hroot, -⟩ := formatVolume_spec (prodosName t volumeName)
  have hbuild : Takes (layOut t volumeName src) Prod.fst (formatVolume (prodosName t volumeName))
      ((src.Fits t [] [] ∧ root.Holds src.entries) ∧ True) ((src.need + root.growth src.entries) + 0) :=
    (@buildTree_takes t src [] ⟨formatVolume (prodosName t volumeName), [], []⟩ root hok hroot rfl).bind
      fun r _ => Takes.pure rfl
  have hgrowth : root.growth src.entries = 0 := rfl
  have hholds : root.Holds src.entries ↔ src.entries < VOLDIR_BLOCKS * ENTRIES_PER_BLOCK := by
    simp only [Directory.Holds, root, Directory.new, forall_const, Nat.zero_add]
  rw [hgrowth, hholds] at hbuild
  have hfree := freeCount_format (prodosName t volumeName)
  refine ⟨hbuild.isOk.trans ?_, fun r hr => ?_⟩
  · rw [Listing.Fits]
    simp only [hfree, List.not_mem_nil, not_false_eq_true, implies_true, and_true, Nat.add_zero,
      and_assoc]
  · have hcount := hbuild.count r hr
    simp only [hfree, Nat.add_zero] at hcount
    exact hcount

/-- `create_image` fails for want of room or for a name, and never in its verification. -/
theorem createImage_isOk_iff (t : Upper) (volumeName : Name) (src : Listing) :
    IsOk (createImage t (src.depth + 1) volumeName src) ↔
      (keysOf t src []).Nodup ∧ src.Small ∧
        src.entries < VOLDIR_BLOCKS * ENTRIES_PER_BLOCK ∧ src.need ≤ TOTAL_BLOCKS - FIRST_DATA := by
  rw [← (layOut_isOk_iff t volumeName src).1, createImage_eq]
  cases layOut t volumeName src with
  | error e => exact ⟨fun ⟨_, h⟩ => (by cases h), fun ⟨_, h⟩ => (by cases h)⟩
  | ok r => exact ⟨fun _ => ⟨r, rfl⟩, fun _ => ⟨r.1, rfl⟩⟩

/-- **ProDOS volumes**: in the image that `create_image` writes, the reader finds the files of the
tree and no others, each with a key of its own, and the blocks that the tree does not need are free. -/
theorem createImage_found (t : Upper) (volumeName : Name) (src : Listing) {img : Bytes}
    (h : createImage t (src.depth + 1) volumeName src = .ok img) :
    img.length = TOTAL_BLOCKS * BLOCK ∧
      (∀ fuel, src.depth < fuel →
        extractDir img fuel VOLDIR_START [] [] = some (filesOf t src [])) ∧
      (filesOf t src []).keys.Nodup ∧ freeCount img + src.need = TOTAL_BLOCKS - FIRST_DATA := by
  rw [createImage_eq] at h
  cases hlaid : layOut t volumeName src with
  | error e =>
      rw [hlaid] at h
      cases h
  | ok r =>
      rw [hlaid] at h
      obtain rfl := Except.ok.inj h
      obtain ⟨hfiles, hnodup, hok, hread⟩ := layOut_found t volumeName src hlaid
      exact ⟨hok.length, hread, hfiles ▸ hnodup, (layOut_isOk_iff t volumeName src).2 r hlaid⟩

theorem isLower_toUpper (c : Char) : c.toUpper.isLower = false := by
  refine Bool.eq_false_iff.mpr fun h => ?_
  have hlow : (decide (c.toUpper.val ≥ 'a'.val) && decide (c.toUpper.val ≤ 'z'.val)) = true := h
  simp only [Bool.and_eq_true, decide_eq_true_eq, ge_iff_le, UInt32.le_iff_toNat_le] at hlow
  have ha : ('a'.val).toNat = 97 := rfl
  have hz : ('z'.val).toNat = 122 := rfl
  have hshift : ('A'.val - 'a'.val).toNat = 4294967264 := rfl
  unfold Char.toUpper at hlow
  split at hlow
  · rename_i hc
    simp only [UInt32.le_iff_toNat_le, UInt32.toNat_add] at hc hlow
    omega
  · rename_i hc
    simp only [UInt32.le_iff_toNat_le] at hc hlow
    omega

/-- `str.upper` of ASCII. -/
def asciiUpper : Upper where
  upper s := s.map Char.toUpper
  no_lower s c hc := by
    obtain ⟨b, -, rfl⟩ := List.mem_map.mp hc
    exact isLower_toUpper b

/-- A directory with a file of two blocks and their index. -/
def sampleTree : Listing := .dir ['d'] (.file ['a'] (List.replicate 600 7) .nil) .nil

theorem createImage_found_sample : ∃ img,
    createImage asciiUpper 2 ['v'] sampleTree = .ok img ∧ img.length = 819200 ∧
      extractDir img 2 VOLDIR_START [] [] = some (filesOf asciiUpper sampleTree []) ∧
      freeCount img = 1589 := by
  have hneed : sampleTree.need = 4 := by
    simp only [sampleTree, Listing.need, List.length_replicate]
    rfl
  have hsmall : sampleTree.Small := by
    refine ⟨⟨?_, trivial⟩, trivial⟩
    rw [List.length_replicate]
    decide
  have hnames : (keysOf asciiUpper sampleTree []).Nodup := by
    unfold sampleTree
    generalize List.replicate 600 7 = data
    simp [keysOf]
  obtain ⟨r, hr⟩ := (layOut_isOk_iff asciiUpper ['v'] sampleTree).1.mpr
    ⟨hnames, hsmall, by decide, by rw [hneed]; decide⟩
  have himg : createImage asciiUpper 2 ['v'] sampleTree = .ok r.1 := by
    rw [show 2 = sampleTree.depth + 1 from rfl, createImage_eq, hr]
    rfl
  obtain ⟨hlen, hread, -, hfree⟩ := createImage_found asciiUpper ['v'] sampleTree himg
  rw [hneed] at hfree
  have htotal : TOTAL_BLOCKS - FIRST_DATA = 1593 := by decide
  exact ⟨r.1, himg, hlen, hread 2 (by decide), by omega⟩

end Mountin.Prodos
