import Mountin.Basic.Dict
import Mountin.Basic.Footprint
import Mountin.Basic.ImageUnits
import Mountin.Basic.Restrict
import Mountin.Disk.Fields
import Mountin.Fs.Fields

set_option autoImplicit false

/-! # ProDOS volumes

`mkprodos.py`: a bitmap says which blocks are free, a directory is a chain of blocks with thirteen
entries in each, and a file is one block or an index block with its data blocks. The writer lays a
tree of directories into a fresh volume, and the reader walks it again from the volume directory.

This module has the writer and the reader, the allocator and the data of a file: a file is read back
as long as the blocks that were taken for it stay as they are (`writeFileData_spec`).
-/

namespace Mountin.Prodos

open Volume

def BLOCK : Nat := 512
def TOTAL_BLOCKS : Nat := 1600
def VOLDIR_START : Nat := 2
def VOLDIR_BLOCKS : Nat := 4
def BITMAP_BLOCK : Nat := 6
def ENTRY_BASE : Nat := 0x04
def ENTRY_LEN : Nat := 0x27
def ENTRIES_PER_BLOCK : Nat := 0x0d
def ST_SEEDLING : Nat := 0x1
def ST_SAPLING : Nat := 0x2
def ST_SUBDIR : Nat := 0xd
def ST_SUBDIR_HEADER : Nat := 0xe
def ST_VOL_HEADER : Nat := 0xf
def FT_TXT : UInt8 := 0x04
def FT_BIN : UInt8 := 0x06
def FT_DIR : UInt8 := 0x0f
def ACCESS : UInt8 := 0xc3
def SUBDIR_MARKER : UInt8 := 0x75
def SEEDLING_MAX : Nat := 512
def SAPLING_MAX : Nat := 0x20000
def MAX_NAME : Nat := 15

/-- What the writer raises, and what its verification raises. -/
inductive Error
  | volumeFull
  | volumeDirectoryFull
  | treeFile
  | nameCollision (key : List Name)
  | roundTrip
deriving DecidableEq, Repr

/-! ## Names -/

/-- `str.upper`, which leaves no small letter of ASCII. -/
structure Upper where
  upper : Name → Name
  no_lower : ∀ s, ∀ c ∈ upper s, c.isLower = false

/-- `name.replace("..", ".")`. -/
def replaceDots : Name → Name
  | '.' :: '.' :: rest => '.' :: replaceDots rest
  | c :: rest => c :: replaceDots rest
  | [] => []

/-- `".." in name`. -/
def hasDots : Name → Bool
  | '.' :: '.' :: _ => true
  | _ :: rest => hasDots rest
  | [] => false

theorem length_replaceDots (s : Name) :
    (replaceDots s).length ≤ s.length ∧ (hasDots s = true → (replaceDots s).length < s.length) := by
  fun_induction replaceDots s with
  | case1 rest ih =>
      simp only [List.length_cons]
      exact ⟨by omega, fun _ => by omega⟩
  | case2 c rest hne ih =>
      rw [hasDots.eq_2 c rest hne]
      simp only [List.length_cons]
      exact ⟨by omega, fun h => Nat.succ_lt_succ (ih.2 h)⟩
  | case3 => exact ⟨Nat.le_refl _, fun h => by cases h⟩

/-- The loop that squeezes runs of dots. -/
def squeeze (name : Name) : Name :=
  if _h : hasDots name = true then squeeze (replaceDots name) else name
termination_by name.length
decreasing_by exact (length_replaceDots name).2 _h

/-- `name.strip(".")`. -/
def stripDots (name : Name) : Name :=
  ((name.dropWhile (· == '.')).reverse.dropWhile (· == '.')).reverse

/-- The characters of `prodos_name`. -/
def sanitised (t : Upper) (hostName : Name) : Name :=
  let name := stripDots (squeeze ((t.upper hostName).map fun ch =>
    if ch.isAlphanum || ch == '.' then ch else '.'))
  let name := if name.head?.any Char.isAlpha then name else 'A' :: name
  name.take MAX_NAME

/-- A name by the rules of ProDOS. -/
structure ProdosName where
  chars : Name
  short : chars.length ≤ MAX_NAME
  legal : ∀ c ∈ chars, c.isUpper = true ∨ c.isDigit = true ∨ c = '.'
  leading : chars.head?.any Char.isUpper = true

theorem mem_replaceDots {s : Name} {c : Char} (h : c ∈ replaceDots s) : c ∈ s := by
  fun_induction replaceDots s with
  | case1 rest ih =>
      rcases List.mem_cons.mp h with rfl | h
      · exact List.mem_cons_self
      · exact List.mem_cons_of_mem _ (List.mem_cons_of_mem _ (ih h))
  | case2 d rest hne ih =>
      rcases List.mem_cons.mp h with rfl | h
      · exact List.mem_cons_self
      · exact List.mem_cons_of_mem _ (ih h)
  | case3 => exact h

theorem mem_squeeze {s : Name} {c : Char} (h : c ∈ squeeze s) : c ∈ s := by
  fun_induction squeeze s with
  | case1 s hdots ih => exact mem_replaceDots (ih h)
  | case2 s hdots => exact h

theorem mem_stripDots {s : Name} {c : Char} (h : c ∈ stripDots s) : c ∈ s := by
  rw [stripDots, List.mem_reverse] at h
  have hfirst := List.dropWhile_suffix (l := (s.dropWhile (· == '.')).reverse) (· == '.')
  have hrest := List.mem_reverse.mp (hfirst.subset h)
  exact (List.dropWhile_suffix (l := s) (· == '.')).subset hrest

/-- The characters that are left are capital letters, digits and dots. -/
theorem legal_mapped (t : Upper) (hostName : Name) {c : Char}
    (h : c ∈ (t.upper hostName).map fun ch => if ch.isAlphanum || ch == '.' then ch else '.') :
    c.isUpper = true ∨ c.isDigit = true ∨ c = '.' := by
  obtain ⟨ch, hch, rfl⟩ := List.mem_map.mp h
  have hlower := t.no_lower hostName ch hch
  split_ifs with hkeep
  · have hclass : (((ch.isUpper || ch.isLower) || ch.isDigit) || ch == '.') = true := hkeep
    rw [hlower] at hclass
    simp only [Bool.or_false, Bool.or_eq_true, beq_iff_eq] at hclass
    tauto
  · exact .inr (.inr rfl)

theorem not_isAlpha_of_isDigit {c : Char} (h : c.isDigit = true) : c.isAlpha = false := by
  have hdigit : (decide (c.val ≥ '0'.val) && decide (c.val ≤ '9'.val)) = true := h
  simp only [Bool.and_eq_true, decide_eq_true_eq, ge_iff_le, UInt32.le_iff_toNat_le] at hdigit
  refine Bool.eq_false_iff.mpr fun halpha => ?_
  have hletter : (decide (c.val ≥ 'A'.val ∧ c.val ≤ 'Z'.val) ||
      (decide (c.val ≥ 'a'.val) && decide (c.val ≤ 'z'.val))) = true := halpha
  simp only [Bool.or_eq_true, Bool.and_eq_true, decide_eq_true_eq, ge_iff_le,
    UInt32.le_iff_toNat_le] at hletter
  have hnine : ('9'.val).toNat = 57 := rfl
  have hA : ('A'.val).toNat = 65 := rfl
  have ha : ('a'.val).toNat = 97 := rfl
  omega

theorem sanitised_spec (t : Upper) (hostName : Name) :
    (sanitised t hostName).length ≤ MAX_NAME ∧
      (∀ c ∈ sanitised t hostName, c.isUpper = true ∨ c.isDigit = true ∨ c = '.') ∧
      (sanitised t hostName).head?.any Char.isUpper = true := by
  have hlegal : ∀ c ∈ stripDots (squeeze ((t.upper hostName).map fun ch =>
      if ch.isAlphanum || ch == '.' then ch else '.')),
      c.isUpper = true ∨ c.isDigit = true ∨ c = '.' :=
    fun c hc => legal_mapped t hostName (mem_squeeze (mem_stripDots hc))
  rw [sanitised]
  generalize stripDots (squeeze ((t.upper hostName).map fun ch =>
    if ch.isAlphanum || ch == '.' then ch else '.')) = name at hlegal
  refine ⟨List.length_take_le _ _, fun c hc => ?_, ?_⟩
  · have hmem := List.mem_of_mem_take hc
    split_ifs at hmem with hhead
    · exact hlegal c hmem
    · rcases List.mem_cons.mp hmem with rfl | hmem
      · exact .inl rfl
      · exact hlegal c hmem
  · have hkept (s : Name) : (s.take MAX_NAME).head? = s.head? := by
      rw [List.head?_take, if_neg (by decide)]
    rw [hkept]
    split_ifs with hhead
    · cases name with
      | nil => cases hhead
      | cons c rest =>
          rw [List.head?_cons, Option.any_some] at hhead ⊢
          rcases hlegal c List.mem_cons_self with hupper | hdigit | rfl
          · exact hupper
          · rw [not_isAlpha_of_isDigit hdigit] at hhead
            cases hhead
          · revert hhead
            decide
    · rfl

/-- `prodos_name`. -/
def prodosName (t : Upper) (hostName : Name) : ProdosName where
  chars := sanitised t hostName
  short := (sanitised_spec t hostName).1
  legal := (sanitised_spec t hostName).2.1
  leading := (sanitised_spec t hostName).2.2

/-- `name.encode("ascii")`. -/
def ProdosName.encoded (name : ProdosName) : Bytes :=
  name.chars.map fun c => UInt8.ofNat c.toNat

/-- The fifteen bytes of a name in an entry. -/
def ProdosName.field (name : ProdosName) : Bytes :=
  name.encoded ++ List.replicate (MAX_NAME - name.encoded.length) 0

/-- `file_type_for`. -/
def fileTypeFor (t : Upper) (name : ProdosName) : UInt8 :=
  if ['.', 'T', 'X', 'T'] <:+ t.upper name.chars then FT_TXT else FT_BIN

/-! ## The volume -/

/-- `bitmap_blocks`. -/
def bitmapBlocks (total : Nat) : Nat := (total + 4095) / 4096

/-- `first_data`. -/
def FIRST_DATA : Nat := BITMAP_BLOCK + bitmapBlocks TOTAL_BLOCKS

/-- The byte of a block in the bitmap. -/
def bitmapOff (b : Nat) : Nat := BITMAP_BLOCK * BLOCK + b / 8

/-- The loop of `_init_bitmap` over the real blocks, for one of them. -/
def markFree (img : Bytes) (b : Nat) : Bytes :=
  img.splice (bitmapOff b) [byteAt img (bitmapOff b) ||| (0x80 : UInt8) >>> UInt8.ofNat (b % 8)]

/-- `_mark_used`. -/
def markUsed (img : Bytes) (b : Nat) : Bytes :=
  img.splice (bitmapOff b) [byteAt img (bitmapOff b) &&& ~~~((0x80 : UInt8) >>> UInt8.ofNat (b % 8))]

/-- `_is_free`. -/
def isFree (img : Bytes) (b : Nat) : Bool :=
  (byteAt img (bitmapOff b)).toNat.testBit (7 - b % 8)

/-- `_init_bitmap`. -/
def initBitmap (img : Bytes) : Bytes :=
  (List.range FIRST_DATA).foldl markUsed ((List.range TOTAL_BLOCKS).foldl markFree img)

/-- `alloc_block`. -/
def allocBlock (img : Bytes) : Except Error (Nat × Bytes) :=
  match (List.range' FIRST_DATA (TOTAL_BLOCKS - FIRST_DATA)).find? (isFree img) with
  | some b => .ok (b, markUsed img b)
  | none => .error .volumeFull

/-- What `_init_voldir` writes. -/
def voldirWrites (name : ProdosName) : List (Nat × Bytes) :=
  let off := VOLDIR_START * BLOCK + ENTRY_BASE
  [(2 * BLOCK + 0, word 0), (2 * BLOCK + 2, word 3), (3 * BLOCK + 0, word 2),
    (3 * BLOCK + 2, word 4), (4 * BLOCK + 0, word 3), (4 * BLOCK + 2, word 5),
    (5 * BLOCK + 0, word 4), (5 * BLOCK + 2, word 0),
    (off + 0x00, [UInt8.ofNat (ST_VOL_HEADER <<< 4 ||| name.chars.length)]),
    (off + 0x01, name.field), (off + 0x1e, [ACCESS]), (off + 0x1f, [UInt8.ofNat ENTRY_LEN]),
    (off + 0x20, [UInt8.ofNat ENTRIES_PER_BLOCK]), (off + 0x23, word BITMAP_BLOCK),
    (off + 0x25, word TOTAL_BLOCKS)]

/-- `Volume`: a fresh volume. -/
def formatVolume (name : ProdosName) : Bytes :=
  (initBitmap (List.replicate (TOTAL_BLOCKS * BLOCK) 0)).splices (voldirWrites name)

/-! ## Directories -/

/-- `Directory`: its blocks, whether it can grow, the next slot and the number of entries. -/
structure Directory where
  blocks : List Nat
  fixed : Bool
  cursor : Nat × Nat
  count : Nat

/-- `Directory(vol, blocks, fixed)`. -/
def Directory.new (blocks : List Nat) (fixed : Bool) : Directory := ⟨blocks, fixed, (0, 1), 0⟩

/-- `key_block`. -/
def Directory.keyBlock (d : Directory) : Nat := d.blocks.headD 0

/-- The step of `alloc_slot` to the next block, which is taken when the chain has none. -/
def nextBlock (img : Bytes) (d : Directory) (bi : Nat) : Except Error (Bytes × List Nat) :=
  if bi < d.blocks.length then .ok (img, d.blocks)
  else if d.fixed then .error .volumeDirectoryFull
  else do
    let (newb, img) ← allocBlock img
    let prevb := d.blocks.getLastD 0
    return (img.splices [(prevb * BLOCK + 2, word newb), (newb * BLOCK + 0, word prevb),
      (newb * BLOCK + 2, word 0)], d.blocks ++ [newb])

/-- `alloc_slot`: the offset of the slot, its block and its index there. -/
def allocSlot (img : Bytes) (d : Directory) :
    Except Error ((Nat × Nat × Nat) × Bytes × Directory) := do
  let (bi, ei) := if ENTRIES_PER_BLOCK ≤ d.cursor.2 then (d.cursor.1 + 1, 0) else d.cursor
  let (img, blocks) ← nextBlock img d bi
  let block := blocks.getD bi 0
  let off := block * BLOCK + ENTRY_BASE + ei * ENTRY_LEN
  let img := img.splice (d.keyBlock * BLOCK + ENTRY_BASE + 0x21) (word (d.count + 1))
  return ((off, block, ei), img, ⟨blocks, d.fixed, (bi, ei + 1), d.count + 1⟩)

/-! ## Files -/

/-- The loop of `write_file_data` over the data blocks from `i` on, with the data from there. -/
def writeBlocks (index : Nat) : Nat → Nat → Bytes → Bytes → Except Error Bytes
  | 0, _, _, img => .ok img
  | n + 1, i, data, img => do
      let (db, img) ← allocBlock img
      writeBlocks index n (i + 1) (data.drop BLOCK)
        (img.splices [(db * BLOCK, data.take BLOCK), (index * BLOCK + i, [UInt8.ofNat (db &&& 0xff)]),
          (index * BLOCK + 0x100 + i, [UInt8.ofNat (db >>> 8)])])

/-- `write_file_data`: the storage type, the key block and the number of blocks. -/
def writeFileData (img data : Bytes) : Except Error ((Nat × Nat × Nat) × Bytes) :=
  if SAPLING_MAX < data.length then .error .treeFile
  else if data.length ≤ SEEDLING_MAX then do
    let (key, img) ← allocBlock img
    return ((ST_SEEDLING, key, 1), img.splice (key * BLOCK) data)
  else do
    let nblocks := (data.length + BLOCK - 1) / BLOCK
    let (index, img) ← allocBlock img
    let img ← writeBlocks index nblocks 0 data img
    return ((ST_SAPLING, index, 1 + nblocks), img)

/-- `int.to_bytes` with three bytes. -/
def toBytes3 (n : Nat) : Bytes :=
  [UInt8.ofNat (n % 256), UInt8.ofNat (n / 256 % 256), UInt8.ofNat (n / 65536 % 256)]

/-- What `write_file_entry` writes. -/
def entryWrites (off storage : Nat) (name : ProdosName) (ftype : UInt8)
    (key blocksUsed eof headerPtr : Nat) : List (Nat × Bytes) :=
  [(off + 0x00, [UInt8.ofNat (storage <<< 4 ||| name.chars.length)]), (off + 0x01, name.field),
    (off + 0x10, [ftype]), (off + 0x11, word key), (off + 0x13, word blocksUsed),
    (off + 0x15, toBytes3 eof), (off + 0x1e, [ACCESS]), (off + 0x25, word headerPtr)]

/-- What `write_subdir_header` writes. -/
def headerWrites (key : Nat) (name : ProdosName) (parentPointer parentEntry : Nat) :
    List (Nat × Bytes) :=
  let off := key * BLOCK + ENTRY_BASE
  [(off + 0x00, [UInt8.ofNat (ST_SUBDIR_HEADER <<< 4 ||| name.chars.length)]),
    (off + 0x01, name.field), (off + 0x10, [SUBDIR_MARKER]), (off + 0x1e, [ACCESS]),
    (off + 0x1f, [UInt8.ofNat ENTRY_LEN]), (off + 0x20, [UInt8.ofNat ENTRIES_PER_BLOCK]),
    (off + 0x23, word parentPointer), (off + 0x25, [UInt8.ofNat parentEntry]),
    (off + 0x26, [UInt8.ofNat ENTRY_LEN])]

/-- `add_file`. -/
def addFile (t : Upper) (img : Bytes) (d : Directory) (name : ProdosName) (data : Bytes) :
    Except Error (Bytes × Directory) := do
  let ((storage, key, blocksUsed), img) ← writeFileData img data
  let ((off, _, _), img, d) ← allocSlot img d
  return (img.splices (entryWrites off storage name (fileTypeFor t name) key blocksUsed data.length
    d.keyBlock), d)

/-- A subdirectory, with what `finalize_subdir` needs. -/
structure Subdir where
  dir : Directory
  parentEntryOff : Nat
  parentHeader : Nat
  name : ProdosName

/-- `add_subdir`: the image, the parent and the subdirectory. -/
def addSubdir (img : Bytes) (parent : Directory) (name : ProdosName) :
    Except Error (Bytes × Directory × Subdir) := do
  let (key, img) ← allocBlock img
  let ((off, pblock, eidx), img, parent) ← allocSlot img parent
  return (img.splices (headerWrites key name pblock (eidx + 1)), parent,
    ⟨Directory.new [key] false, off, parent.keyBlock, name⟩)

/-- `finalize_subdir`. -/
def finalizeSubdir (img : Bytes) (sub : Subdir) : Bytes :=
  img.splices (entryWrites sub.parentEntryOff ST_SUBDIR sub.name FT_DIR sub.dir.keyBlock
    sub.dir.blocks.length (sub.dir.blocks.length * BLOCK) sub.parentHeader)

/-! ## The tree -/

/-- A directory of the host, in the order in which the loop takes its children. -/
inductive Listing
  | nil
  | symlink (name : Name) (rest : Listing)
  | other (name : Name) (rest : Listing)
  | file (name : Name) (data : Bytes) (rest : Listing)
  | dir (name : Name) (children rest : Listing)

/-- What `build_tree` changes besides the directory: the image, the expected files and the names. -/
structure Build where
  img : Bytes
  expected : Dict (List Name) Bytes
  seen : List (List Name)

/-- The check for a collision. -/
def Build.see (s : Build) (key : List Name) : Except Error Build :=
  if key ∈ s.seen then .error (.nameCollision key) else .ok { s with seen := key :: s.seen }

/-- `build_tree`. -/
def buildTree (t : Upper) : Listing → List Name → Build → Directory → Except Error (Build × Directory)
  | .nil, _, s, d => .ok (s, d)
  | .symlink _ rest, path, s, d => buildTree t rest path s d
  | .other name rest, path, s, d => do
      let s ← s.see (path ++ [(prodosName t name).chars])
      buildTree t rest path s d
  | .file name data rest, path, s, d => do
      let key := path ++ [(prodosName t name).chars]
      let s ← s.see key
      let (img, d) ← addFile t s.img d (prodosName t name) data
      buildTree t rest path { s with img := img, expected := s.expected.set key data } d
  | .dir name children rest, path, s, d => do
      let key := path ++ [(prodosName t name).chars]
      let s ← s.see key
      let (img, d, sub) ← addSubdir s.img d (prodosName t name)
      let (s, subdir) ← buildTree t children key { s with img := img } sub.dir
      buildTree t rest path { s with img := finalizeSubdir s.img { sub with dir := subdir } } d

/-! ## The reader -/

/-- `_iter_entries`: the offsets along the chain of a directory. A chain that does not come to an
end within `fuel` blocks has none. -/
def iterEntries (img : Bytes) : Nat → Nat → Bool → Option (List Nat)
  | 0, blk, _ => if blk = 0 then some [] else none
  | fuel + 1, blk, first =>
      if blk = 0 then some []
      else do
        let base := blk * BLOCK
        let rest ← iterEntries img fuel (leField img (base + 2) 2) false
        let start := if first then 1 else 0
        return (List.range' start (ENTRIES_PER_BLOCK - start)).map
          (fun ei => base + ENTRY_BASE + ei * ENTRY_LEN) ++ rest

/-- `_read_file`. -/
def readFile (img : Bytes) (storage key eof : Nat) : Bytes :=
  if storage = ST_SEEDLING then img.slice (key * BLOCK) eof
  else
    let nblocks := (eof + BLOCK - 1) / BLOCK
    let idx := key * BLOCK
    let data := (List.range nblocks).flatMap fun i =>
      let db := (byteAt img (idx + i)).toNat ||| (byteAt img (idx + 0x100 + i)).toNat <<< 8
      img.slice (db * BLOCK) BLOCK
    data.take eof

/-- The body of the loop of `extract_dir`, for one entry. -/
def extractEntry (img : Bytes) (recur : Nat → List Name → Dict (List Name) Bytes →
    Option (Dict (List Name) Bytes)) (path : List Name) (out : Dict (List Name) Bytes) (off : Nat) :
    Option (Dict (List Name) Bytes) :=
  let b0 := (byteAt img off).toNat
  let storage := b0 >>> 4
  let namelen := b0 &&& 0x0f
  if storage = 0 ∨ namelen = 0 then some out
  else do
    let name ← decodeAscii (img.slice (off + 0x01) namelen)
    let key := leField img (off + 0x11) 2
    if storage = ST_SUBDIR then recur key (path ++ [name]) out
    else if storage = ST_SEEDLING ∨ storage = ST_SAPLING then
      let eof := leField img (off + 0x15) 3
      return out.set (path ++ [name]) (readFile img storage key eof)
    else return out

/-- `extract_dir`, to a depth of `fuel` directories; `none` also when they are not enough. -/
def extractDir (img : Bytes) : Nat → Nat → List Name → Dict (List Name) Bytes →
    Option (Dict (List Name) Bytes)
  | 0, _, _, _ => none
  | fuel + 1, keyBlock, path, out => do
      let offs ← iterEntries img TOTAL_BLOCKS keyBlock true
      offs.foldlM (extractEntry img (extractDir img fuel) path) out

/-- `got == expected`. -/
def sameFiles (got expected : Dict (List Name) Bytes) : Bool :=
  decide (got.length = expected.length) && expected.all fun e => got.get? e.1 == some e.2

/-- How deep the directories of a tree are. -/
def Listing.depth : Listing → Nat
  | .nil => 0
  | .symlink _ rest => rest.depth
  | .other _ rest => rest.depth
  | .file _ _ rest => rest.depth
  | .dir _ children rest => max (children.depth + 1) rest.depth

/-- `create_image` before it verifies the image: the image and the expected files. -/
def layOut (t : Upper) (volumeName : Name) (src : Listing) :
    Except Error (Bytes × Dict (List Name) Bytes) := do
  let vol := formatVolume (prodosName t volumeName)
  let root := Directory.new (List.range' VOLDIR_START VOLDIR_BLOCKS) true
  let (s, _) ← buildTree t src [] ⟨vol, [], []⟩ root
  return (s.img, s.expected)

/-- `create_image`: the image that it writes. The verification has `fuel` directories to go down. -/
def createImage (t : Upper) (fuel : Nat) (volumeName : Name) (src : Listing) :
    Except Error Bytes := do
  let (img, expected) ← layOut t volumeName src
  match extractDir img fuel VOLDIR_START [] [] with
  | none => .error .roundTrip
  | some got => if sameFiles got expected then .ok img else .error .roundTrip

/-! ## Blocks of an image -/

/-- A block that the bitmap gives as free. -/
def Free (img : Bytes) (b : Nat) : Prop := b < TOTAL_BLOCKS ∧ isFree img b = true

/-- What every image on the way has: its length, the reserved blocks in use, and nothing in the
free blocks. -/
structure Ok (img : Bytes) : Prop where
  length : img.length = TOTAL_BLOCKS * BLOCK
  reserved : ∀ b < FIRST_DATA, ¬ Free img b
  zero : ∀ i, Free img (i / BLOCK) → img[i]? = some 0

/-- A later image: blocks are only taken, and of what was in use only `T` can have changed. -/
structure Grows (T : Set Nat) (img img' : Bytes) : Prop where
  ok : Ok img'
  mono : ∀ b, Free img' b → Free img b
  same : ∀ i, i / BLOCK ≠ BITMAP_BLOCK → ¬ Free img (i / BLOCK) → i ∉ T → img'[i]? = img[i]?

/-- The blocks that were taken between two images. -/
def Taken (img img' : Bytes) (b : Nat) : Prop := Free img b ∧ ¬ Free img' b

section

variable {img img' img'' : Bytes} {T U : Set Nat}

theorem Grows.refl (h : Ok img) : Grows T img img := ⟨h, fun _ hb => hb, fun _ _ _ _ => rfl⟩

theorem Grows.trans (h : Grows T img img') (h' : Grows U img' img'')
    (hU : ∀ i ∈ U, i ∈ T ∨ Free img (i / BLOCK)) : Grows T img img'' := by
  refine ⟨h'.ok, fun b hb => h.mono b (h'.mono b hb), fun i hmap hused hT => ?_⟩
  have hU' : i ∉ U := fun hi => (hU i hi).elim hT hused
  exact (h'.same i hmap (fun hfree => hused (h.mono _ hfree)) hU').trans (h.same i hmap hused hT)

theorem Grows.mono_set (h : Grows T img img') (hsub : T ⊆ U) : Grows U img img' :=
  ⟨h.ok, h.mono, fun i hmap hused hU => h.same i hmap hused fun hT => hU (hsub hT)⟩

/-- A fact that depends on positions in use which do not change. -/
theorem Grows.local {S : Set Nat} {P : Bytes → Prop} (h : Grows T img img') (hP : Local S P img)
    (hS : ∀ i ∈ S, i / BLOCK ≠ BITMAP_BLOCK ∧ ¬ Free img (i / BLOCK) ∧ i ∉ T) : Local S P img' :=
  hP.frame fun i hi => h.same i (hS i hi).1 (hS i hi).2.1 (hS i hi).2.2

theorem Grows.slice (h : Grows T img img') {p n b : Nat} (hmap : b ≠ BITMAP_BLOCK)
    (hused : ¬ Free img b) (hlo : b * BLOCK ≤ p) (hhi : p + n ≤ b * BLOCK + BLOCK)
    (hT : ∀ j ∈ cells p n, j ∉ T) : img'.slice p n = img.slice p n := by
  have hagree : AgreeOn (cells p n) img img' := fun j hj => by
    have hdiv : j / BLOCK = b := by
      rw [mem_cells] at hj
      simp only [BLOCK] at *
      omega
    exact h.same j (hdiv ▸ hmap) (hdiv ▸ hused) (hT j hj)
  exact hagree.slice (Set.Subset.refl _)

theorem Taken.of_first {b : Nat} (h : Taken img img' b) (h' : Grows T img' img'') :
    Taken img img'' b := ⟨h.1, fun hfree => h.2 (h'.mono b hfree)⟩

theorem Taken.of_second {b : Nat} (h : Grows T img img') (h' : Taken img' img'' b) :
    Taken img img'' b := ⟨h.mono b h'.1, h'.2⟩

theorem bitmapOff_div {b : Nat} (h : b < TOTAL_BLOCKS) : bitmapOff b / BLOCK = BITMAP_BLOCK := by
  simp only [bitmapOff, BITMAP_BLOCK, BLOCK, TOTAL_BLOCKS] at *
  omega

theorem byteAt_congr {i j : Nat} (h : img'[j]? = img[i]?) : byteAt img' j = byteAt img i := by
  rw [byteAt, byteAt, List.getD_eq_getElem?_getD, List.getD_eq_getElem?_getD, h]

/-- A change outside the bitmap frees no block and takes none. -/
theorem free_congr (h : ∀ i, i / BLOCK = BITMAP_BLOCK → img'[i]? = img[i]?) (b : Nat) :
    Free img' b ↔ Free img b := by
  refine and_congr_right fun hb => ?_
  rw [isFree, isFree, byteAt_congr (h _ (bitmapOff_div hb))]

/-- A change within blocks in use. -/
theorem Ok.change (h : Ok img) {W : Set Nat} (hlen : img'.length = img.length)
    (hsame : ∀ i, i ∉ W → img'[i]? = img[i]?)
    (hW : ∀ i ∈ W, i / BLOCK ≠ BITMAP_BLOCK ∧ ¬ Free img (i / BLOCK)) :
    Grows W img img' ∧ ∀ b, Free img' b ↔ Free img b := by
  have hfree := @free_congr img img' fun i hi => hsame i fun hmem => (hW i hmem).1 hi
  refine ⟨⟨⟨hlen.trans h.length, fun b hb hf => h.reserved b hb ((hfree b).mp hf), fun i hi => ?_⟩,
    fun b hb => (hfree b).mp hb, fun i _ _ hi => hsame i hi⟩, hfree⟩
  have hused : i ∉ W := fun hmem => (hW i hmem).2 ((hfree _).mp hi)
  exact (hsame i hused).trans (h.zero i ((hfree _).mp hi))

/-! ## The allocator -/

theorem testBit_clear (x : UInt8) {j k : Nat} (hj : j < 8) (hk : k < 8) :
    (x &&& ~~~((0x80 : UInt8) >>> UInt8.ofNat k)).toNat.testBit (7 - j)
      = (x.toNat.testBit (7 - j) && decide (j ≠ k)) := by
  rw [UInt8.toNat_and, Nat.testBit_and]
  congr 1
  interval_cases k <;> interval_cases j <;> decide

theorem testBit_set (x : UInt8) {j k : Nat} (hj : j < 8) (hk : k < 8) :
    (x ||| (0x80 : UInt8) >>> UInt8.ofNat k).toNat.testBit (7 - j)
      = (x.toNat.testBit (7 - j) || decide (j = k)) := by
  rw [UInt8.toNat_or, Nat.testBit_or]
  congr 1
  interval_cases k <;> interval_cases j <;> decide

theorem bitmapOff_lt {b : Nat} (hlen : img.length = TOTAL_BLOCKS * BLOCK) (h : b < TOTAL_BLOCKS) :
    bitmapOff b < img.length := by
  simp only [bitmapOff, BITMAP_BLOCK, BLOCK, TOTAL_BLOCKS] at *
  omega

/-- One byte of the bitmap written. -/
theorem byte_written (hlen : img.length = TOTAL_BLOCKS * BLOCK) {b : Nat} (hb : b < TOTAL_BLOCKS)
    (x : UInt8) :
    (img.splice (bitmapOff b) [x]).length = TOTAL_BLOCKS * BLOCK ∧
      (∀ i, i / BLOCK ≠ BITMAP_BLOCK → (img.splice (bitmapOff b) [x])[i]? = img[i]?) ∧
      ∀ j, byteAt (img.splice (bitmapOff b) [x]) j = if j = bitmapOff b then x else byteAt img j := by
  have hlt := bitmapOff_lt hlen hb
  have hget := @List.getElem?_splice _ img [x] (bitmapOff b) (by omega)
  refine ⟨?_, fun i hi => ?_, fun j => ?_⟩
  · rw [List.length_splice (by rw [List.length_singleton]; omega), hlen]
  · have hdiv := bitmapOff_div hb
    rw [hget, if_neg]
    rintro ⟨hlo, hhi⟩
    rw [List.length_singleton] at hhi
    rw [show i = bitmapOff b by omega] at hi
    exact hi hdiv
  · rw [byteAt, List.getD_eq_getElem?_getD, hget, List.length_singleton]
    by_cases hj : j = bitmapOff b
    · rw [if_pos (by omega), if_pos hj, hj, Nat.sub_self]
      rfl
    · rw [if_neg (by omega), if_neg hj, byteAt, List.getD_eq_getElem?_getD]

theorem markUsed_spec (hlen : img.length = TOTAL_BLOCKS * BLOCK) {b : Nat} (hb : b < TOTAL_BLOCKS) :
    (markUsed img b).length = TOTAL_BLOCKS * BLOCK ∧
      (∀ i, i / BLOCK ≠ BITMAP_BLOCK → (markUsed img b)[i]? = img[i]?) ∧
      ∀ t, isFree (markUsed img b) t = (isFree img t && decide (t ≠ b)) := by
  obtain ⟨hlength, hsame, hbyte⟩ := byte_written hlen hb
    (byteAt img (bitmapOff b) &&& ~~~((0x80 : UInt8) >>> UInt8.ofNat (b % 8)))
  refine ⟨hlength, hsame, fun t => ?_⟩
  rw [isFree, isFree, markUsed, hbyte]
  by_cases hoff : bitmapOff t = bitmapOff b
  · have hiff : (t % 8 ≠ b % 8) ↔ t ≠ b := by
      simp only [bitmapOff] at hoff
      omega
    rw [if_pos hoff, testBit_clear _ (Nat.mod_lt _ (by omega)) (Nat.mod_lt _ (by omega)), hoff]
    simp only [hiff]
  · have hne : t ≠ b := fun heq => hoff (by rw [heq])
    rw [if_neg hoff, decide_eq_true hne, Bool.and_true]

theorem markFree_spec (hlen : img.length = TOTAL_BLOCKS * BLOCK) {b : Nat} (hb : b < TOTAL_BLOCKS) :
    (markFree img b).length = TOTAL_BLOCKS * BLOCK ∧
      (∀ i, i / BLOCK ≠ BITMAP_BLOCK → (markFree img b)[i]? = img[i]?) ∧
      ∀ t, isFree (markFree img b) t = (isFree img t || decide (t = b)) := by
  obtain ⟨hlength, hsame, hbyte⟩ := byte_written hlen hb
    (byteAt img (bitmapOff b) ||| (0x80 : UInt8) >>> UInt8.ofNat (b % 8))
  refine ⟨hlength, hsame, fun t => ?_⟩
  rw [isFree, isFree, markFree, hbyte]
  by_cases hoff : bitmapOff t = bitmapOff b
  · have hiff : (t % 8 = b % 8) ↔ t = b := by
      simp only [bitmapOff] at hoff
      omega
    rw [if_pos hoff, testBit_set _ (Nat.mod_lt _ (by omega)) (Nat.mod_lt _ (by omega)), hoff]
    simp only [hiff]
  · have hne : t ≠ b := fun heq => hoff (by rw [heq])
    rw [if_neg hoff, decide_eq_false hne, Bool.or_false]

/-- What an allocation does. -/
structure Took (img img' : Bytes) (b : Nat) : Prop where
  grows : Grows ∅ img img'
  same : ∀ i, i / BLOCK ≠ BITMAP_BLOCK → img'[i]? = img[i]?
  was_free : Free img b
  bound : FIRST_DATA ≤ b
  free_iff : ∀ t, Free img' t ↔ Free img t ∧ t ≠ b

theorem allocBlock_eq_ok {b : Nat} (h : allocBlock img = .ok (b, img')) :
    FIRST_DATA ≤ b ∧ Free img b ∧ img' = markUsed img b := by
  unfold allocBlock at h
  split at h
  · rename_i b₀ hfind
    obtain ⟨rfl, rfl⟩ := Prod.mk.inj (Except.ok.inj h)
    have hmem := List.mem_range'_1.mp (List.mem_of_find?_eq_some hfind)
    exact ⟨hmem.1, ⟨by simp only [FIRST_DATA, TOTAL_BLOCKS, BITMAP_BLOCK, bitmapBlocks] at *; omega,
      List.find?_some hfind⟩, rfl⟩
  · cases h

theorem allocBlock_spec (hok : Ok img) {b : Nat} (h : allocBlock img = .ok (b, img')) :
    Took img img' b := by
  obtain ⟨hge, hfree, rfl⟩ := allocBlock_eq_ok h
  obtain ⟨hlen, hsame, hmark⟩ := markUsed_spec hok.length hfree.1
  have hiff : ∀ t, Free (markUsed img b) t ↔ Free img t ∧ t ≠ b := fun t => by
    rw [Free, Free, hmark, Bool.and_eq_true, decide_eq_true_eq, and_assoc]
  refine ⟨⟨⟨hlen, fun t ht hf => hok.reserved t ht ((hiff t).mp hf).1, fun i hi => ?_⟩,
    fun t ht => ((hiff t).mp ht).1, fun i hi _ _ => hsame i hi⟩, hsame, hfree, hge, hiff⟩
  have hwas := ((hiff _).mp hi).1
  refine (hsame i fun hmap => hok.reserved _ ?_ hwas).trans (hok.zero i hwas)
  rw [hmap]
  decide

end

theorem bind_ok {α β : Type} {x : Except Error α} {f : α → Except Error β} {b : β} :
    (x >>= f) = .ok b ↔ ∃ a, x = .ok a ∧ f a = .ok b := by
  cases x <;> simp [bind, Except.bind]

/-- The positions that some writes cover. -/
def covered (writes : List (Nat × Bytes)) : Set Nat := {i | ∃ w ∈ writes, i ∈ cells w.1 w.2.length}

section

variable {img img' : Bytes}

theorem Took.taken {b : Nat} (h : Took img img' b) : Taken img img' b :=
  ⟨h.was_free, fun hfree => ((h.free_iff b).mp hfree).2 rfl⟩

theorem Took.ne_bitmap {b : Nat} (h : Took img img' b) : b ≠ BITMAP_BLOCK := by
  have hbound := h.bound
  simp only [FIRST_DATA, BITMAP_BLOCK, bitmapBlocks, TOTAL_BLOCKS] at *
  omega

/-- A write lies within a block in use. -/
def InUse (img : Bytes) (w : Nat × Bytes) : Prop :=
  ∃ b < TOTAL_BLOCKS, b ≠ BITMAP_BLOCK ∧ ¬ Free img b ∧ b * BLOCK ≤ w.1 ∧
    w.1 + w.2.length ≤ b * BLOCK + BLOCK

/-- Writes that do not meet, in blocks in use. -/
theorem Ok.writes (hok : Ok img) (writes : List (Nat × Bytes)) (hin : ∀ w ∈ writes, InUse img w)
    (hapart : writes.Pairwise fun v w =>
      v.1 + v.2.length ≤ w.1 ∨ w.1 + w.2.length ≤ v.1) :
    Grows (covered writes) img (img.splices writes) ∧
      (∀ b, Free (img.splices writes) b ↔ Free img b) ∧
      ∀ w ∈ writes, (img.splices writes).slice w.1 w.2.length = w.2 := by
  have hlen := hok.length
  obtain ⟨hlength, hthere, hsame⟩ := List.splices_spec (l := img) (fun w hw => by
    obtain ⟨b, hb, -, -, -, hhi⟩ := hin w hw
    simp only [TOTAL_BLOCKS, BLOCK] at *
    omega) hapart
  have hchange := hok.change (W := covered writes) hlength
    (fun i hi => hsame i fun w hw hmem => hi ⟨w, hw, hmem⟩) (by
      rintro i ⟨w, hw, hmem⟩
      obtain ⟨b, -, hmap, hused, hlo, hhi⟩ := hin w hw
      have hdiv : i / BLOCK = b := by
        rw [mem_cells] at hmem
        simp only [BLOCK] at *
        omega
      rw [hdiv]
      exact ⟨hmap, hused⟩)
  exact ⟨hchange.1, hchange.2, hthere⟩

/-! ## The data of a file -/

/-- The blocks of an image. -/
def blockUnits : ImageUnits where
  size := BLOCK
  limit := TOTAL_BLOCKS * BLOCK
  off b := b * BLOCK
  Valid b := b < TOTAL_BLOCKS
  room h := by
    simp only [BLOCK, TOTAL_BLOCKS] at h ⊢
    omega
  apart hu hv hne := by
    simp only [BLOCK]
    omega

/-- The pointer to a data block in an index block. -/
def pointer (img : Bytes) (idx i : Nat) : Nat :=
  (byteAt img (idx + i)).toNat ||| (byteAt img (idx + 0x100 + i)).toNat <<< 8

theorem pointer_bytes {img : Bytes} {idx i db : Nat} (hdb : db < TOTAL_BLOCKS)
    (hlo : img.slice (idx + i) 1 = [UInt8.ofNat (db &&& 0xff)])
    (hhi : img.slice (idx + 0x100 + i) 1 = [UInt8.ofNat (db >>> 8)]) : pointer img idx i = db := by
  have hmod : db &&& 0xff = db % 256 := Nat.and_two_pow_sub_one_eq_mod db 8
  have hdiv : db >>> 8 = db / 256 % 256 := by
    rw [Nat.shiftRight_eq_div_pow]
    simp only [TOTAL_BLOCKS] at hdb
    omega
  have hword := word_or (n := db) (by
    simp only [TOTAL_BLOCKS] at hdb
    omega)
  rw [pointer, byteAt, byteAt, List.getD_eq_getElem?_getD, List.getD_eq_getElem?_getD,
    getElem?_of_slice hlo, getElem?_of_slice hhi, Option.getD_some, Option.getD_some, hmod, hdiv]
  exact hword

/-- Where the loop over the data blocks writes in the index block. -/
def pointerCells (index i n : Nat) : Set Nat :=
  cells (index * BLOCK + i) n ∪ cells (index * BLOCK + 0x100 + i) n

theorem pointerCells_div {index i n j : Nat} (hn : i + n ≤ 0x100)
    (h : j ∈ pointerCells index i n) : j / BLOCK = index := by
  simp only [pointerCells, Set.mem_union, mem_cells, BLOCK] at *
  omega

/-- What the loop writes for one data block. -/
def blockWrites (index i db : Nat) (data : Bytes) : List (Nat × Bytes) :=
  [(db * BLOCK, data.take BLOCK), (index * BLOCK + i, [UInt8.ofNat (db &&& 0xff)]),
    (index * BLOCK + 0x100 + i, [UInt8.ofNat (db >>> 8)])]

/-- One data block with its pointer. -/
theorem writeBlock_spec {index i db : Nat} {img₁ : Bytes} (data : Bytes) (hindex : index < TOTAL_BLOCKS)
    (hmap : index ≠ BITMAP_BLOCK) (hused : ¬ Free img index) (hi : i < 0x100)
    (htook : Took img img₁ db) :
    Grows (covered (blockWrites index i db data)) img₁ (img₁.splices (blockWrites index i db data)) ∧
      (∀ b, Free (img₁.splices (blockWrites index i db data)) b ↔ Free img₁ b) ∧
      ∀ w ∈ blockWrites index i db data,
        (img₁.splices (blockWrites index i db data)).slice w.1 w.2.length = w.2 := by
  have hdb := htook.was_free.1
  have hne : db ≠ index := fun heq => hused (heq ▸ htook.was_free)
  have hpart : (data.take BLOCK).length ≤ BLOCK := List.length_take_le _ _
  have hused₁ : ¬ Free img₁ index := fun hfree => hused (htook.grows.mono _ hfree)
  refine htook.grows.ok.writes _ ?_ ?_
  · simp only [blockWrites, List.forall_mem_cons, List.not_mem_nil, IsEmpty.forall_iff, implies_true,
      and_true]
    refine ⟨⟨db, hdb, htook.ne_bitmap, htook.taken.2, Nat.le_refl _, Nat.add_le_add_left hpart _⟩,
      ⟨index, hindex, hmap, hused₁, ?_⟩, ⟨index, hindex, hmap, hused₁, ?_⟩⟩
    all_goals
      simp only [BLOCK, List.length_singleton]
      omega
  · simp only [BLOCK] at hpart
    simp only [blockWrites, List.pairwise_cons, List.forall_mem_cons, List.not_mem_nil,
      IsEmpty.forall_iff, implies_true, and_true, List.Pairwise.nil, BLOCK, List.length_singleton]
    omega

/-- The loop over the data blocks: each of them is taken, has its part of the data, and its pointer
is in the index block. -/
theorem writeBlocks_spec {index n i : Nat} {data : Bytes} (hok : Ok img) (hindex : index < TOTAL_BLOCKS)
    (hmap : index ≠ BITMAP_BLOCK) (hused : ¬ Free img index) (hn : i + n ≤ 0x100)
    (h : writeBlocks index n i data img = .ok img') :
    Grows (pointerCells index i n) img img' ∧
      ∃ dbs : List Nat, dbs.length = n ∧ (∀ db ∈ dbs, Taken img img' db) ∧
        (∀ k db, dbs[k]? = some db → pointer img' (index * BLOCK) (i + k) = db) ∧
        blockUnits.Stored img' dbs data := by
  induction n generalizing img i data with
  | zero =>
      obtain rfl := Except.ok.inj h
      exact ⟨Grows.refl hok, [], rfl, by simp, by simp, trivial⟩
  | succ n ih =>
      obtain ⟨⟨db, img₁⟩, halloc, hrest⟩ := bind_ok.mp h
      have htook := allocBlock_spec hok halloc
      have hdb := htook.was_free.1
      have hne : db ≠ index := fun heq => hused (heq ▸ htook.was_free)
      have hpart : (data.take BLOCK).length ≤ BLOCK := List.length_take_le _ _
      have hused₁ : ¬ Free img₁ index := fun hfree => hused (htook.grows.mono _ hfree)
      obtain ⟨hgrows, hfree, hthere⟩ :=
        writeBlock_spec (i := i) data hindex hmap hused (by omega) htook
      have hrest : writeBlocks index n (i + 1) (data.drop BLOCK)
        (img₁.splices (blockWrites index i db data)) = .ok img' := hrest
      simp only [blockWrites, List.forall_mem_cons, List.not_mem_nil, IsEmpty.forall_iff,
        implies_true, and_true, List.length_singleton] at hthere
      obtain ⟨hdata, hlo, hhi⟩ := hthere
      generalize hwritten : img₁.splices (blockWrites index i db data) = img₂ at *
      rw [blockWrites] at hwritten hgrows
      rw [hwritten] at hdata hlo hhi
      have hused₂ : ¬ Free img₂ index := fun hf => hused₁ ((hfree index).mp hf)
      have hdb₂ : ¬ Free img₂ db := fun hf => htook.taken.2 ((hfree db).mp hf)
      obtain ⟨hgrows', dbs, hlen, htaken, hpointer, hstored⟩ :=
        ih (i := i + 1) hgrows.ok hused₂ (by omega) hrest
      have hstep : Grows (pointerCells index i (n + 1)) img img₂ := by
        refine (htook.grows.mono_set (Set.empty_subset _)).trans hgrows fun j hj => ?_
        simp only [covered, List.mem_cons, List.not_mem_nil, or_false, exists_eq_or_imp,
          exists_eq_left, Set.mem_ofPred_eq, mem_cells, List.length_singleton] at hj
        rcases hj with hj | hj
        · have hdiv : j / BLOCK = db := by
            simp only [BLOCK] at *
            omega
          exact .inr (hdiv ▸ htook.was_free)
        · refine .inl ?_
          simp only [pointerCells, Set.mem_union, mem_cells]
          omega
      have hwhole : Grows (pointerCells index i (n + 1)) img img' := by
        refine hstep.trans hgrows' fun j hj => .inl ?_
        simp only [pointerCells, Set.mem_union, mem_cells] at hj ⊢
        omega
      -- the later blocks leave this one and its pointer alone
      have hlo' := (hgrows'.slice (n := 1) hmap hused₂ (p := index * BLOCK + i) (by omega)
        (by simp only [BLOCK]; omega) (fun j hj hmem => by
          simp only [pointerCells, Set.mem_union, mem_cells] at hj hmem
          omega)).trans hlo
      have hhi' := (hgrows'.slice (n := 1) hmap hused₂ (p := index * BLOCK + 0x100 + i) (by omega)
        (by simp only [BLOCK]; omega) (fun j hj hmem => by
          simp only [pointerCells, Set.mem_union, mem_cells] at hj hmem
          omega)).trans hhi
      have hdata' := (hgrows'.slice htook.ne_bitmap hdb₂ (Nat.le_refl _)
        (Nat.add_le_add_left hpart _) (fun j hj hmem => by
          have hdiv := pointerCells_div (by omega) hmem
          rw [mem_cells] at hj
          simp only [BLOCK] at *
          omega)).trans hdata
      refine ⟨hwhole, db :: dbs, by rw [List.length_cons, hlen], ?_, ?_, hdata', hstored⟩
      · rw [List.forall_mem_cons]
        exact ⟨⟨htook.was_free, fun hf => hdb₂ (hgrows'.mono db hf)⟩,
          fun d hd => Taken.of_second hstep (htaken d hd)⟩
      · intro k d hk
        cases k with
        | zero =>
            obtain rfl := Option.some.inj hk
            exact pointer_bytes hdb hlo' hhi'
        | succ k =>
            have hnext := hpointer k d hk
            rwa [show i + 1 + k = i + (k + 1) by omega] at hnext

/-- The positions of the blocks that were taken. -/
def takenCells (img img' : Bytes) : Set Nat := {i | Taken img img' (i / BLOCK)}

theorem mem_takenCells {j b : Nat} (hdiv : j / BLOCK = b) (h : Taken img img' b) :
    j ∈ takenCells img img' := by
  subst hdiv
  exact h

theorem map_pointer {f : Nat → Nat} {dbs : List Nat} (h : ∀ k db, dbs[k]? = some db → f k = db) :
    (List.range dbs.length).map f = dbs := by
  refine List.ext_getElem (by rw [List.length_map, List.length_range]) fun k hk hk' => ?_
  rw [List.getElem_map, List.getElem_range]
  exact h k _ (List.getElem?_eq_getElem hk')

/-- The data that the index block leads to. -/
theorem readFile_sapling {im data : Bytes} {index : Nat} {dbs : List Nat}
    (hlen : dbs.length = (data.length + BLOCK - 1) / BLOCK) (hdata : 0 < data.length)
    (hpointer : ∀ k db, dbs[k]? = some db → pointer im (index * BLOCK) k = db)
    (hstored : blockUnits.Stored im dbs data) :
    readFile im ST_SAPLING index data.length = data := by
  have hfits : blockUnits.Fits dbs data.length :=
    ImageUnits.fits_of_length (by decide) (by
      rw [hlen]
      simp only [blockUnits, BLOCK]
      omega)
  have hread := hstored.read hfits
  rw [← map_pointer hpointer, List.flatMap_map, hlen] at hread
  exact hread

/-- A file is read back as long as the blocks that were taken for it stay as they are. -/
theorem writeFileData_spec {data : Bytes} {storage key used : Nat} (hok : Ok img)
    (h : writeFileData img data = .ok ((storage, key, used), img')) :
    Grows ∅ img img' ∧ Taken img img' key ∧ (storage = ST_SEEDLING ∨ storage = ST_SAPLING) ∧
      data.length ≤ SAPLING_MAX ∧
      Local (takenCells img img') (fun im => readFile im storage key data.length = data) img' := by
  unfold writeFileData at h
  split_ifs at h with hbig hsmall
  · obtain ⟨⟨b, img₁⟩, halloc, hrest⟩ := bind_ok.mp h
    obtain ⟨heq, rfl⟩ := Prod.mk.inj (Except.ok.inj hrest)
    obtain ⟨rfl, rfl⟩ : ST_SEEDLING = storage ∧ b = key := by
      simp only [Prod.mk.injEq] at heq
      exact ⟨heq.1, heq.2.1⟩
    have htook := allocBlock_spec hok halloc
    have hin : ∀ w ∈ [(b * BLOCK, data)], InUse img₁ w := by
      simp only [List.forall_mem_cons, List.not_mem_nil, IsEmpty.forall_iff, implies_true, and_true]
      exact ⟨b, htook.was_free.1, htook.ne_bitmap, htook.taken.2, Nat.le_refl _,
        Nat.add_le_add_left hsmall _⟩
    obtain ⟨hgrows, hfree, hthere⟩ := htook.grows.ok.writes _ hin (List.pairwise_singleton _ _)
    have hread : (img₁.splice (b * BLOCK) data).slice (b * BLOCK) data.length = data :=
      hthere _ (List.mem_singleton_self _)
    have htaken : Taken img (img₁.splice (b * BLOCK) data) b :=
      ⟨htook.was_free, fun hf => htook.taken.2 ((hfree b).mp hf)⟩
    refine ⟨htook.grows.trans hgrows fun j hj => .inr ?_, htaken, .inl rfl, Nat.le_of_not_lt hbig,
      fun im him => ?_⟩
    · simp only [covered, List.mem_singleton, exists_eq_left, Set.mem_ofPred_eq, mem_cells] at hj
      have hdiv : j / BLOCK = b := by
        simp only [BLOCK, SEEDLING_MAX] at *
        omega
      exact hdiv ▸ htook.was_free
    · refine (him.slice fun j hj => ?_).trans hread
      have hdiv : j / BLOCK = b := by
        rw [mem_cells] at hj
        simp only [BLOCK, SEEDLING_MAX] at *
        omega
      exact mem_takenCells hdiv htaken
  · obtain ⟨⟨index, img₁⟩, halloc, hrest⟩ := bind_ok.mp h
    obtain ⟨img₂, hblocks, hrest⟩ := bind_ok.mp hrest
    obtain ⟨heq, rfl⟩ := Prod.mk.inj (Except.ok.inj hrest)
    obtain ⟨rfl, rfl⟩ : ST_SAPLING = storage ∧ index = key := by
      simp only [Prod.mk.injEq] at heq
      exact ⟨heq.1, heq.2.1⟩
    have htook := allocBlock_spec hok halloc
    have hmany : (data.length + BLOCK - 1) / BLOCK ≤ 0x100 := by
      simp only [SAPLING_MAX, BLOCK] at *
      omega
    obtain ⟨hgrows, dbs, hlen, htaken, hpointer, hstored⟩ := writeBlocks_spec htook.grows.ok
      htook.was_free.1 htook.ne_bitmap htook.taken.2 (by rwa [Nat.zero_add]) hblocks
    have hkey : Taken img img₂ index := htook.taken.of_first hgrows
    refine ⟨htook.grows.trans hgrows fun j hj => .inr ?_, hkey, .inr rfl, Nat.le_of_not_lt hbig,
      fun im him => ?_⟩
    · rw [pointerCells_div (by rwa [Nat.zero_add]) hj]
      exact htook.was_free
    · refine readFile_sapling hlen (by simp only [SEEDLING_MAX] at hsmall; omega)
        (fun k db hk => ?_) (hstored.congr fun db hdb i hlo hhi => him i ?_)
      · have hk' : k < 0x100 := by
          have hlt := (List.getElem?_eq_some_iff.mp hk).1
          omega
        have hsame : ∀ j, index * BLOCK ≤ j → j < index * BLOCK + BLOCK →
            byteAt im j = byteAt img₂ j := fun j hlo hhi => byteAt_congr (him j (by
          have hdiv : j / BLOCK = index := by
            simp only [BLOCK] at *
            omega
          exact mem_takenCells hdiv hkey))
        have hwas := hpointer k db hk
        rw [Nat.zero_add] at hwas
        rw [pointer, hsame _ (by omega) (by simp only [BLOCK]; omega),
          hsame _ (by omega) (by simp only [BLOCK]; omega)]
        exact hwas
      · have hdiv : i / BLOCK = db := by
          simp only [blockUnits, BLOCK] at *
          omega
        exact mem_takenCells hdiv (Taken.of_second htook.grows (htaken db hdb))

end

end Mountin.Prodos
