import Mountin.Disk.Tracks
import Mountin.Fs.Fields

set_option autoImplicit false

/-! # Research Unix volumes

`mkresearchunix.py` lays a host tree out in a V6, 32V or V10 file system. The blocks behind the
files are a free list: the superblock has the last chunk, and the first entry of a chunk is the
block in which the chunk before it is written.
-/

namespace Mountin.ResearchUnix

open Volume Tracks

/-- `Layout`. -/
structure Layout where
  blockSize : Nat
  inodeSize : Nat
  rootInode : Nat
  directoryMode : Nat
  regularMode : Nat
  directBlocks : Nat
  totalBytes : Nat
  v6 : Bool

/-- `LAYOUTS["v6"]`. -/
def v6Layout : Layout := ⟨512, 32, 1, 0o140000, 0o100000, 8, 1048576, true⟩

/-- `LAYOUTS["32v"]`. -/
def v32Layout : Layout := ⟨512, 64, 2, 0o040000, 0o100000, 10, 1048576, false⟩

/-- `LAYOUTS["v10"]`. -/
def v10Layout : Layout := ⟨4096, 64, 2, 0o040000, 0o100000, 10, 4194304, false⟩

def LAYOUTS : List Layout := [v6Layout, v32Layout, v10Layout]

def NAME_LENGTH : Nat := 14

/-- `per_block`. -/
def Layout.perBlock (layout : Layout) : Nat := layout.blockSize / layout.inodeSize

/-- The number of blocks of an image. -/
def Layout.totalBlocks (layout : Layout) : Nat := layout.totalBytes / layout.blockSize

/-! ## The tree -/

mutual

/-- A host file. -/
inductive Entry where
  | symlink
  | file (mode : Nat) (data : Bytes)
  | dir (mode : Nat) (children : Listing)
  | other

/-- The entries of a host directory, sorted by name. -/
inductive Listing where
  | nil
  | cons (name : Name) (entry : Entry) (rest : Listing)

end

/-- What a directory knows of an entry. -/
structure Child where
  inode : Nat
  name : Name
  isDirectory : Bool

/-- `Node`, without its path and its blocks. -/
structure Node where
  name : Name
  inode : Nat
  parentInode : Nat
  mode : Nat
  children : List Child
  data : Bytes
  isDirectory : Bool

/-- `encoded_name`. -/
def encodedName (name : Name) : Option Bytes := do
  let raw ← encodeAscii name
  if raw.isEmpty || NAME_LENGTH < raw.length || raw.contains 0x2f || raw.contains 0 then none
  else return raw ++ List.replicate (NAME_LENGTH - raw.length) 0

/-- `disk_name`. -/
def diskName (name : Name) : Option Name := do
  let raw ← encodeAscii name
  if raw.isEmpty || raw.contains 0x2f || raw.contains 0 then none
  else decodeAscii (raw.take NAME_LENGTH)

mutual

/-- `add`: the nodes that it appends; `next` is `next_inode`. -/
def add (layout : Layout) (next : Nat) (name : Name) (parent : Nat) : Entry → Option (List Node)
  | .symlink => some []
  | .file mode data => do
      let _ ← encodedName name
      return [⟨name, next, parent, mode &&& 0o777 ||| layout.regularMode, [], data, false⟩]
  | .dir mode children => do
      let _ ← encodedName name
      let (nodes, entries) ← addChildren layout next (next + 1) [] children
      return ⟨name, next, parent, mode &&& 0o777 ||| layout.directoryMode, entries, [], true⟩ ::
        nodes
  | .other => none

/-- The loop over the entries of a directory; `names` are the names on the disk so far. -/
def addChildren (layout : Layout) (parent next : Nat) (names : List Name) :
    Listing → Option (List Node × List Child)
  | .nil => some ([], [])
  | .cons _ .symlink rest => addChildren layout parent next names rest
  | .cons name entry rest => do
      let onDisk ← diskName name
      if onDisk ∈ names then none
      else do
        let nodes ← add layout next onDisk parent entry
        let (more, entries) ←
          addChildren layout parent (next + nodes.length) (onDisk :: names) rest
        return (nodes ++ more,
          (nodes.head?.map fun node => ⟨node.inode, node.name, node.isDirectory⟩).toList ++ entries)

end

/-- `collect_tree`. -/
def collectTree (layout : Layout) (source : Listing) : Option (List Node) := do
  let root := layout.rootInode
  let (nodes, entries) ← addChildren layout root (root + 1) [] source
  return ⟨[], root, root, layout.directoryMode ||| 0o755, entries, [], true⟩ :: nodes

/-- `directory_data`. -/
def directoryData (node : Node) : Option Bytes := do
  let entries := (node.inode, ['.']) :: (node.parentInode, ['.', '.']) ::
    node.children.map fun child => (child.inode, child.name)
  let parts ← entries.mapM fun (inode, name) => do
    let number ← packLe 2 inode
    let raw ← encodedName name
    return number ++ raw
  return parts.flatten

/-- The bytes of a node. -/
def Node.bytes (node : Node) : Option Bytes :=
  if node.isDirectory then directoryData node else some node.data

/-! ## The image -/

/-- A node and its blocks. -/
structure Placed where
  node : Node
  blocks : List Nat

/-- The chunks of a node, from block `block` on. -/
def writeChunks (layout : Layout) : Nat → Nat → Bytes → Bytes → Bytes
  | 0, _, _, image => image
  | count + 1, block, data, image =>
      writeChunks layout count (block + 1) (data.drop layout.blockSize)
        (image.splice (block * layout.blockSize) (data.take layout.blockSize))

/-- The loop of `create_image` over the nodes: their blocks, the next block and the image. -/
def place (layout : Layout) : List Node → Nat → Bytes → Option (List Placed × Nat × Bytes)
  | [], next, image => some ([], next, image)
  | node :: nodes, next, image => do
      let data ← node.bytes
      let count := max 1 ((data.length + layout.blockSize - 1) / layout.blockSize)
      if layout.directBlocks < count then none
      else if image.length < (next + count) * layout.blockSize then none
      else do
        let (rest, last, image) ←
          place layout nodes (next + count) (writeChunks layout count next data image)
        return (⟨node, List.range' next count⟩ :: rest, last, image)

/-- The number of entries in a chunk of the free list. -/
def Layout.limit (layout : Layout) : Nat := if layout.v6 then 100 else 50

/-- The bytes of an entry. -/
def Layout.width (layout : Layout) : Nat := if layout.v6 then 2 else 4

/-- The numbers in so many bytes each. -/
def entryBytes (width : Nat) (blocks : List Nat) : Bytes := blocks.flatMap (leBytes width)

/-- The loop of `write_free_blocks` over so many blocks down from `block`. -/
def freeLoop (layout : Layout) : Nat → Nat → Bytes × List Nat → Bytes × List Nat
  | 0, _, s => s
  | count + 1, block, (image, stack) =>
      freeLoop layout count (block - 1)
        (if stack.length = layout.limit then
          ((image.splice (block * layout.blockSize) (leBytes 2 stack.length)).splice
            (block * layout.blockSize + 2) (entryBytes layout.width stack), [block])
        else (image, stack ++ [block]))

/-- `write_free_blocks`. -/
def writeFreeBlocks (layout : Layout) (image : Bytes) (firstFree : Nat) : Bytes × List Nat :=
  let total := image.length / layout.blockSize
  freeLoop layout (total - firstFree) (total - 1) (image, [])

/-- `struct.pack_into` of one number. -/
def packNumber (image : Bytes) (off width n : Nat) : Option Bytes := do
  let b ← packLe width n
  packInto image off b

/-- A loop that packs numbers one behind the other. -/
def packNumbers (image : Bytes) (off width : Nat) : List Nat → Option Bytes
  | [] => some image
  | n :: rest => do
      let image ← packNumber image off width n
      packNumbers image (off + width) width rest

/-- `first_inode`. -/
def Layout.firstInode (layout : Layout) : Nat := if layout.v6 then 1 else 2

/-- The inodes from the first one up to the capacity that no node has. -/
def unallocated (layout : Layout) (capacity : Nat) (nodes : List Node) : List Nat :=
  (List.range' layout.firstInode (capacity + 1 - layout.firstInode)).filter
    fun inode => inode ∉ nodes.map Node.inode

/-- `write_superblock`. -/
def writeSuperblock (layout : Layout) (dataStart usedBlocks : Nat) (nodes : List Node)
    (image : Bytes) : Option Bytes := do
  let offset := layout.blockSize
  let total := image.length / layout.blockSize
  let (image, free) := writeFreeBlocks layout image usedBlocks
  let capacity := (dataStart - 2) * layout.perBlock
  let freeInodes := (unallocated layout capacity nodes).take 100
  let image ← packNumber image offset 2 dataStart
  if layout.v6 then do
    let image ← packNumber image (offset + 2) 2 total
    let image ← packNumber image (offset + 4) 2 free.length
    let image ← packNumbers image (offset + 6) 2 free
    let image ← packNumber image (offset + 206) 2 freeInodes.length
    packNumbers image (offset + 208) 2 freeInodes
  else do
    let image ← packNumber image (offset + 2) 4 total
    let image ← packNumber image (offset + 6) 2 free.length
    let image ← packNumbers image (offset + 8) 4 free
    let image ← packNumber image (offset + 208) 2 freeInodes.length
    let image ← packNumbers image (offset + 210) 2 freeInodes
    let image ← packNumber image (offset + 418) 4 (total - usedBlocks)
    packNumber image (offset + 422) 2
      (capacity - (nodes.map Node.inode).dedup.length - (layout.firstInode - 1))

/-- `pack_addresses`. -/
def packAddresses (blocks : List Nat) (count : Nat) : Option Bytes :=
  if count < blocks.length then none
  else return entryBytes 3 blocks ++ List.replicate (40 - 3 * blocks.length) 0

/-- Where an inode stands. -/
def inodeOffset (layout : Layout) (inode : Nat) : Nat :=
  (2 + (inode - 1) / layout.perBlock) * layout.blockSize +
    (inode - 1) % layout.perBlock * layout.inodeSize

/-- `write_inode`. -/
def writeInode (layout : Layout) (p : Placed) (image : Bytes) : Option Bytes := do
  let offset := inodeOffset layout p.node.inode
  let data ← p.node.bytes
  let links := if p.node.isDirectory then 2 + p.node.children.countP Child.isDirectory else 1
  let mode ← packLe 2 p.node.mode
  if layout.v6 then
    if 16777216 ≤ data.length then none
    else do
      let nlink ← packLe 1 links
      let high ← packLe 1 (data.length >>> 16)
      let low ← packLe 2 (data.length &&& 0xffff)
      let image ← packInto image offset (mode ++ nlink ++ [0, 0] ++ high ++ low)
      if layout.directBlocks < p.blocks.length then none
      else packNumbers image (offset + 8) 2 p.blocks
  else do
    let nlink ← packLe 2 links
    let size ← packLe 4 data.length
    let image ← packInto image offset (mode ++ nlink ++ [0, 0, 0, 0] ++ size)
    let addresses ← packAddresses p.blocks layout.directBlocks
    return image.splice (offset + 12) addresses

/-! ## The reader -/

/-- `struct.unpack_from` of one number. -/
def unpackNumber (image : Bytes) (off width : Nat) : Option Nat :=
  if off + width ≤ image.length then some (Bytes.le (image.slice off width)) else none

/-- Some numbers of one width behind each other. -/
def numbersAt (image : Bytes) (off width count : Nat) : List Nat :=
  (List.range count).map fun i => Bytes.le (image.slice (off + i * width) width)

/-- `inode_fields`. -/
def inodeFields (layout : Layout) (image : Bytes) (inode : Nat) :
    Option (Nat × Nat × List Nat) := do
  let offset := inodeOffset layout inode
  let mode ← unpackNumber image offset 2
  if layout.v6 then do
    let high ← image[offset + 5]?
    let low ← unpackNumber image (offset + 6) 2
    if offset + 24 ≤ image.length then
      return (mode, high.toNat <<< 16 ||| low, (numbersAt image (offset + 8) 2 8).filter (· ≠ 0))
    else none
  else do
    let size ← unpackNumber image (offset + 8) 4
    return (mode, size, (numbersAt image (offset + 12) 3 13).filter (· ≠ 0))

/-- What is read of some blocks. -/
def content (layout : Layout) (image : Bytes) (blocks : List Nat) : Bytes :=
  blocks.flatMap fun block => image.slice (block * layout.blockSize) layout.blockSize

/-- The loop of `verify_image`. -/
def verifyNode (layout : Layout) (image : Bytes) (p : Placed) : Option Unit := do
  let (mode, size, blocks) ← inodeFields layout image p.node.inode
  let expected ← p.node.bytes
  if mode ≠ p.node.mode ∨ size ≠ expected.length ∨ (p.blocks ≠ [] ∧ blocks ≠ p.blocks) then none
  else if (content layout image blocks).take size ≠ expected then none
  else return ()

/-- `create_image`, `none` for its errors. -/
def createImage (layout : Layout) (source : Listing) : Option Bytes := do
  let nodes ← collectTree layout source
  let inodeBlocks := ((nodes.map Node.inode).foldr max 0 + layout.perBlock - 1) / layout.perBlock
  let (placed, last, image) ←
    place layout nodes (2 + inodeBlocks) (List.replicate layout.totalBytes 0)
  let image ← writeSuperblock layout (2 + inodeBlocks) last nodes image
  let image ← placed.foldlM (fun image p => writeInode layout p image) image
  let _ ← placed.mapM (verifyNode layout image)
  return image

/-- The numbers of a chunk of the free list, whose count stands at `off`. -/
def readChunk (layout : Layout) (image : Bytes) (off : Nat) : Option (List Nat) := do
  let count ← unpackNumber image off 2
  if count ≤ layout.limit then return numbersAt image (off + 2) layout.width count else none

/-- The chain of chunks: the last number of the stack is the next free block, and when it was the
only one, the stack is the chunk in that block. `fuel` bounds the number of blocks. -/
def drain (layout : Layout) (image : Bytes) : Nat → List Nat → Option (List Nat)
  | 0, _ => none
  | fuel + 1, stack =>
      match stack.getLast? with
      | none => some []
      | some block => do
          let stack ← if stack.dropLast.isEmpty then
              readChunk layout image (block * layout.blockSize)
            else some stack.dropLast
          let rest ← drain layout image fuel stack
          return block :: rest

/-- The free blocks of an image, as a kernel takes them. -/
def freeBlocks (layout : Layout) (image : Bytes) : Option (List Nat) := do
  let off := layout.blockSize + if layout.v6 then 4 else 6
  let count ← unpackNumber image off 2
  drain layout image (layout.totalBlocks + 1) (numbersAt image (off + 2) layout.width count)

/-! ## The layouts -/

/-- What the proofs use of a layout. -/
structure Layout.Good (layout : Layout) : Prop where
  perBlock : layout.perBlock * layout.inodeSize = layout.blockSize
  perBlock_pos : 0 < layout.perBlock
  total : layout.totalBlocks * layout.blockSize = layout.totalBytes
  blocks : layout.totalBlocks ≤ 2048
  superblock : 424 ≤ layout.blockSize
  chunk : 2 + layout.width * layout.limit ≤ layout.blockSize
  root : layout.rootInode = layout.firstInode
  old : layout.v6 = true → layout.inodeSize = 32 ∧ layout.directBlocks = 8
  new : layout.v6 = false → layout.inodeSize = 64 ∧ layout.directBlocks = 10

theorem good_of_mem {layout : Layout} (h : layout ∈ LAYOUTS) : layout.Good := by
  simp only [LAYOUTS, List.mem_cons, List.not_mem_nil, or_false] at h
  rcases h with rfl | rfl | rfl
  all_goals constructor <;> decide

theorem width_bound {layout : Layout} {n : Nat} (h : n < 65536) : n < 256 ^ layout.width := by
  unfold Layout.width
  split_ifs <;> omega

/-! ## Writes that stay in a window -/

/-- The images are the same but for the window from `lo` to `hi`. -/
structure Frame (lo hi : Nat) (image image' : Bytes) : Prop where
  length : image'.length = image.length
  same : ∀ off n, off + n ≤ lo ∨ hi ≤ off → image'.slice off n = image.slice off n

theorem Frame.refl (lo hi : Nat) (image : Bytes) : Frame lo hi image image :=
  ⟨rfl, fun _ _ _ => rfl⟩

theorem Frame.trans {lo hi : Nat} {a b c : Bytes} (h : Frame lo hi a b) (h' : Frame lo hi b c) :
    Frame lo hi a c :=
  ⟨h'.length.trans h.length, fun off n hout => (h'.same off n hout).trans (h.same off n hout)⟩

theorem Frame.mono {lo hi lo' hi' : Nat} {a b : Bytes} (h : Frame lo hi a b) (hlo : lo' ≤ lo)
    (hhi : hi ≤ hi') : Frame lo' hi' a b :=
  ⟨h.length, fun off n hout => h.same off n (by omega)⟩

theorem frame_splice {image d : Bytes} {off : Nat} (h : off + d.length ≤ image.length) :
    Frame off (off + d.length) image (image.splice off d) :=
  ⟨List.length_splice h, fun _ _ hout => List.slice_splice_of_disjoint (by omega) hout⟩

theorem slice_add (image : Bytes) (off a b : Nat) :
    image.slice off (a + b) = image.slice off a ++ image.slice (off + a) b := by
  rw [List.slice, List.take_add, List.drop_drop, List.slice, List.slice]

theorem packInto_spec {image image' b : Bytes} {off : Nat} (h : packInto image off b = some image') :
    Frame off (off + b.length) image image' ∧ image'.slice off b.length = b := by
  obtain ⟨hroom, rfl⟩ := packInto_eq_some.mp h
  exact ⟨frame_splice hroom, List.slice_splice_self (by omega) rfl⟩

theorem packNumber_spec {image image' : Bytes} {off width n : Nat}
    (h : packNumber image off width n = some image') :
    n < 256 ^ width ∧ Frame off (off + width) image image' ∧
      image'.slice off width = leBytes width n := by
  simp only [packNumber, Option.bind_eq_bind, Option.bind_eq_some_iff] at h
  obtain ⟨b, hb, hpack⟩ := h
  obtain ⟨hlt, rfl⟩ := packLe_eq_some.mp hb
  have hspec := packInto_spec hpack
  rw [length_leBytes] at hspec
  exact ⟨hlt, hspec⟩

theorem length_entryBytes (width : Nat) (blocks : List Nat) :
    (entryBytes width blocks).length = width * blocks.length := by
  induction blocks with
  | nil => rfl
  | cons n blocks ih =>
      rw [entryBytes, List.flatMap_cons, List.length_append, length_leBytes, ← entryBytes, ih,
        List.length_cons, Nat.mul_succ, Nat.add_comm]

theorem packNumbers_spec {image image' : Bytes} {off width : Nat} {numbers : List Nat}
    (h : packNumbers image off width numbers = some image') :
    (∀ n ∈ numbers, n < 256 ^ width) ∧
      Frame off (off + width * numbers.length) image image' ∧
      image'.slice off (width * numbers.length) = entryBytes width numbers := by
  induction numbers generalizing image off with
  | nil =>
      obtain rfl := Option.some.inj h
      refine ⟨by simp, Frame.refl _ _ _, ?_⟩
      rw [List.length_nil, Nat.mul_zero, List.slice, List.take_zero]
      rfl
  | cons n numbers ih =>
      simp only [packNumbers, Option.bind_eq_bind, Option.bind_eq_some_iff] at h
      obtain ⟨image₁, hfirst, hrest⟩ := h
      obtain ⟨hlt, hframe₁, hslice₁⟩ := packNumber_spec hfirst
      obtain ⟨hall, hframe, hslice⟩ := ih hrest
      have hwidth : width * (n :: numbers).length = width + width * numbers.length := by
        rw [List.length_cons, Nat.mul_succ, Nat.add_comm]
      rw [hwidth]
      refine ⟨List.forall_mem_cons.mpr ⟨hlt, hall⟩, ?_, ?_⟩
      · exact (hframe₁.mono (le_refl _) (by omega)).trans (hframe.mono (by omega) (by omega))
      · rw [slice_add, hslice, hframe.same off width (.inl (le_refl _)), hslice₁]
        rfl

/-! ## Reading numbers -/

theorem numbersAt_succ (image : Bytes) (off width count : Nat) :
    numbersAt image off width (count + 1)
      = Bytes.le (image.slice off width) :: numbersAt image (off + width) width count := by
  rw [numbersAt, List.range_succ_eq_map, List.map_cons, List.map_map, Nat.zero_mul, Nat.add_zero,
    numbersAt]
  congr 1
  refine List.map_congr_left fun i _ => ?_
  rw [Function.comp_apply, Nat.succ_mul, Nat.add_assoc, Nat.add_comm width]

theorem le_replicate (n : Nat) : Bytes.le (List.replicate n 0) = 0 := by
  induction n with
  | zero => rfl
  | succ n ih =>
      rw [List.replicate_succ, Bytes.le, ih]
      rfl

/-- The numbers that were packed, with zeros behind them. -/
theorem numbersAt_packed {image : Bytes} {off width rest : Nat} {numbers : List Nat}
    (h : image.slice off (width * (numbers.length + rest))
      = entryBytes width numbers ++ List.replicate (width * rest) 0)
    (hlt : ∀ n ∈ numbers, n < 256 ^ width) :
    numbersAt image off width (numbers.length + rest) = numbers ++ List.replicate rest 0 := by
  induction numbers generalizing off with
  | nil =>
      rw [List.length_nil, Nat.zero_add] at h ⊢
      rw [List.nil_append]
      replace h : image.slice off (width * rest) = List.replicate (width * rest) 0 := h
      have hzero : ∀ i < rest, Bytes.le (image.slice (off + i * width) width) = 0 := by
        intro i hi
        have hroom : i * width + width ≤ width * rest := by
          rw [← Nat.succ_mul, Nat.mul_comm width]
          exact Nat.mul_le_mul_right width hi
        rw [slice_of_window h hroom, List.slice_replicate 0 hroom, le_replicate]
      rw [numbersAt, List.map_congr_left fun i hi => hzero i (List.mem_range.mp hi),
        List.map_const', List.length_range]
  | cons n numbers ih =>
      rw [List.forall_mem_cons] at hlt
      have hwidth : width * ((n :: numbers).length + rest)
          = width + width * (numbers.length + rest) := by
        rw [List.length_cons, Nat.add_right_comm, Nat.mul_succ, Nat.add_comm]
      have hparts : entryBytes width (n :: numbers) ++ List.replicate (width * rest) 0
          = leBytes width n ++ (entryBytes width numbers ++ List.replicate (width * rest) 0) := by
        rw [entryBytes, List.flatMap_cons, List.append_assoc, ← entryBytes]
      rw [hwidth, slice_add, hparts] at h
      have hfirst : (image.slice off width).length = width := by
        have hlen := congrArg List.length h
        simp only [List.length_append, List.length_slice, length_leBytes, length_entryBytes,
          List.length_replicate, Nat.mul_add] at hlen ⊢
        omega
      obtain ⟨hhead, htail⟩ := List.append_inj h (by rw [hfirst, length_leBytes])
      rw [List.length_cons, Nat.add_right_comm, numbersAt_succ, hhead, le_leBytes hlt.1,
        ih htail hlt.2]
      rfl

theorem numbersAt_entryBytes {image : Bytes} {off width : Nat} {numbers : List Nat}
    (h : image.slice off (width * numbers.length) = entryBytes width numbers)
    (hlt : ∀ n ∈ numbers, n < 256 ^ width) :
    numbersAt image off width numbers.length = numbers := by
  have hwhole : image.slice off (width * (numbers.length + 0))
      = entryBytes width numbers ++ List.replicate (width * 0) 0 := by
    rw [Nat.add_zero, Nat.mul_zero, h, List.replicate_zero, List.append_nil]
  have hpacked := numbersAt_packed hwhole hlt
  rwa [Nat.add_zero, List.replicate_zero, List.append_nil] at hpacked

theorem unpackNumber_window {image : Bytes} {off width n : Nat}
    (h : image.slice off width = leBytes width n) (hn : n < 256 ^ width)
    (hroom : off + width ≤ image.length) : unpackNumber image off width = some n := by
  rw [unpackNumber, if_pos hroom, h, le_leBytes hn]

/-! ## The free list -/

section Chain

variable {layout : Layout} (hgood : layout.Good) {total : Nat}

/-- Images that are the same in the blocks from `lo` up to `hi`. -/
def Agree (layout : Layout) (lo hi : Nat) (image image' : Bytes) : Prop :=
  image'.length = image.length ∧ ∀ off n, lo * layout.blockSize ≤ off →
    off + n ≤ hi * layout.blockSize → image'.slice off n = image.slice off n

theorem Agree.mono {lo lo' hi : Nat} {a b : Bytes} (h : Agree layout lo hi a b) (hlo : lo ≤ lo') :
    Agree layout lo' hi a b :=
  ⟨h.1, fun off n hoff hn => h.2 off n
    ((Nat.mul_le_mul_right layout.blockSize hlo).trans hoff) hn⟩

theorem Agree.trans {lo hi : Nat} {a b c : Bytes} (h : Agree layout lo hi a b)
    (h' : Agree layout lo hi b c) : Agree layout lo hi a c :=
  ⟨h'.1.trans h.1, fun off n hoff hn => (h'.2 off n hoff hn).trans (h.2 off n hoff hn)⟩

/-- The chain from a stack on: the blocks from `first` on, in order. It lies in these blocks. -/
structure Chained (layout : Layout) (total first : Nat) (image : Bytes) (stack : List Nat) :
    Prop where
  short : stack.length ≤ layout.limit
  small : ∀ n ∈ stack, n < 65536
  empty : stack = [] ↔ first = total
  drains : ∀ image', Agree layout first total image image' → ∀ fuel, total - first < fuel →
    drain layout image' fuel stack = some (List.range' first (total - first))

theorem limit_pos : 0 < layout.limit := by
  unfold Layout.limit
  split_ifs <;> omega

include hgood

/-- One block more: it is pushed, or it takes the full stack and begins the next one. -/
theorem Chained.push {block : Nat} {image : Bytes} {stack : List Nat}
    (h : Chained layout total (block + 1) image stack) (hin : block < total)
    (hlen : image.length = total * layout.blockSize) (htotal : total ≤ 2048)
    (hzero : block + 1 = total → image.slice (block * layout.blockSize) 2 = [0, 0]) :
    ∃ image' stack', (if stack.length = layout.limit then
          ((image.splice (block * layout.blockSize) (leBytes 2 stack.length)).splice
            (block * layout.blockSize + 2) (entryBytes layout.width stack), [block])
        else (image, stack ++ [block])) = (image', stack') ∧
      Frame (block * layout.blockSize) ((block + 1) * layout.blockSize) image image' ∧
      Chained layout total block image' stack' := by
  have hrange : List.range' block (total - block)
      = block :: List.range' (block + 1) (total - (block + 1)) := by
    rw [← List.range'_succ]
    congr 1
    omega
  have hend : (block + 1) * layout.blockSize ≤ total * layout.blockSize :=
    Nat.mul_le_mul_right _ hin
  have hnext : (block + 1) * layout.blockSize = block * layout.blockSize + layout.blockSize :=
    Nat.succ_mul _ _
  have hsuper := hgood.superblock
  have hchunk := hgood.chunk
  have hlimit := @limit_pos layout
  by_cases hfull : stack.length = layout.limit
  · have hcount : (leBytes 2 stack.length).length = 2 := length_leBytes _ _
    have hentries : (entryBytes layout.width stack).length = layout.width * layout.limit := by
      rw [length_entryBytes, hfull]
    set image₁ := image.splice (block * layout.blockSize) (leBytes 2 stack.length) with himage₁
    have hframe₁ : Frame (block * layout.blockSize) (block * layout.blockSize + 2) image image₁ :=
      hcount ▸ frame_splice (by omega)
    have hroom : block * layout.blockSize + 2 + (entryBytes layout.width stack).length
        ≤ image₁.length := by
      rw [hframe₁.length]
      omega
    have hframe₂ := frame_splice hroom
    set image' := image₁.splice (block * layout.blockSize + 2) (entryBytes layout.width stack)
      with himage'
    have hframe : Frame (block * layout.blockSize) ((block + 1) * layout.blockSize) image image' :=
      (hframe₁.mono (le_refl _) (by omega)).trans (hframe₂.mono (by omega) (by omega))
    refine ⟨image', [block], by rw [if_pos hfull], hframe, ?_, ?_, ?_, ?_⟩
    · exact hlimit
    · intro n hn
      rw [List.mem_singleton.mp hn]
      omega
    · simp only [List.cons_ne_nil, false_iff]
      omega
    · intro image'' hagree fuel hfuel
      obtain ⟨fuel, rfl⟩ : ∃ m, fuel = m + 1 := ⟨fuel - 1, by omega⟩
      -- the chunk in the block is the stack
      have hread : readChunk layout image'' (block * layout.blockSize) = some stack := by
        have hfirst : image''.slice (block * layout.blockSize) 2 = leBytes 2 stack.length := by
          rw [hagree.2 _ _ (le_refl _) (by omega), hframe₂.same _ _ (.inl (le_refl _))]
          exact List.slice_splice_self (by omega) hcount
        have hsecond : image''.slice (block * layout.blockSize + 2)
            (layout.width * stack.length) = entryBytes layout.width stack := by
          rw [hagree.2 _ _ (by omega) (by rw [hfull]; omega), ← length_entryBytes]
          exact List.slice_splice_self (by omega) rfl
        have hsmall : stack.length < 256 ^ 2 := by
          rw [hfull]
          unfold Layout.limit
          split_ifs <;> omega
        rw [readChunk, unpackNumber_window hfirst hsmall
          (by rw [hagree.1, hframe.length]; omega), Option.bind_eq_bind, Option.bind_some,
          if_pos h.short, numbersAt_entryBytes hsecond fun n hn => width_bound (h.small n hn)]
        rfl
      have hrest := h.drains image'' ⟨hagree.1.trans hframe.length, fun off n hoff hn => by
        rw [hagree.2 off n (by omega) hn, hframe.same off n (.inr hoff)]⟩ fuel (by omega)
      simp only [drain, List.getLast?_singleton, List.dropLast_singleton, List.isEmpty_nil,
        if_true, hread, Option.bind_eq_bind, Option.bind_some, hrest, hrange]
      rfl
  · refine ⟨image, stack ++ [block], by rw [if_neg hfull], Frame.refl _ _ _, ?_, ?_, ?_, ?_⟩
    · have hshort := h.short
      rw [List.length_append, List.length_singleton]
      omega
    · intro n hn
      rcases List.mem_append.mp hn with hn | hn
      · exact h.small n hn
      · rw [List.mem_singleton.mp hn]
        omega
    · simp only [List.append_eq_nil_iff, List.cons_ne_nil, and_false, false_iff]
      omega
    · intro image' hagree fuel hfuel
      obtain ⟨fuel, rfl⟩ : ∃ m, fuel = m + 1 := ⟨fuel - 1, by omega⟩
      have hrest := h.drains image' (hagree.mono (by omega)) fuel (by omega)
      simp only [drain, List.getLast?_concat, List.dropLast_concat]
      by_cases hempty : stack = []
      · -- the last block of the image ends the chain
        have hlast := h.empty.mp hempty
        have hcount : image'.slice (block * layout.blockSize) 2 = leBytes 2 0 := by
          rw [hagree.2 _ _ (le_refl _) (by omega), hzero hlast]
          rfl
        have hread : readChunk layout image' (block * layout.blockSize) = some [] := by
          rw [readChunk, unpackNumber_window hcount (by omega) (by rw [hagree.1]; omega),
            Option.bind_eq_bind, Option.bind_some, if_pos (Nat.zero_le _)]
          rfl
        rw [hempty] at hrest ⊢
        simp only [List.isEmpty_nil, if_true, hread, Option.bind_eq_bind, Option.bind_some, hrest,
          hrange]
        rfl
      · have hisEmpty : stack.isEmpty = false := by
          rw [List.isEmpty_eq_false_iff]
          exact hempty
        simp only [hisEmpty, Bool.false_eq_true, if_false, Option.bind_eq_bind, Option.bind_some,
          hrest, hrange]
        rfl

/-- The free list is complete, for every number of blocks. -/
theorem freeLoop_spec {first count block : Nat} {image : Bytes} {stack : List Nat}
    (h : Chained layout total (first + count) image stack) (hin : first + count ≤ total)
    (hblock : 0 < count → block + 1 = first + count)
    (hlen : image.length = total * layout.blockSize) (htotal : total ≤ 2048)
    (hzero : 0 < count → first + count = total →
      image.slice ((total - 1) * layout.blockSize) 2 = [0, 0]) :
    Frame (first * layout.blockSize) (total * layout.blockSize) image
        (freeLoop layout count block (image, stack)).1 ∧
      Chained layout total first (freeLoop layout count block (image, stack)).1
        (freeLoop layout count block (image, stack)).2 := by
  induction count generalizing block image stack with
  | zero => exact ⟨Frame.refl _ _ _, h⟩
  | succ count ih =>
      have hlast : block = first + count := by
        have := hblock (Nat.succ_pos _)
        omega
      subst hlast
      have hstart : Chained layout total (first + count + 1) image stack := h
      have hclear : first + count + 1 = total →
          image.slice ((first + count) * layout.blockSize) 2 = [0, 0] := by
        intro hend
        rw [show first + count = total - 1 by omega]
        exact hzero (Nat.succ_pos _) hend
      obtain ⟨image', stack', heq, hframe, hchained⟩ :=
        hstart.push hgood (by omega) hlen htotal hclear
      have hlo : first * layout.blockSize ≤ (first + count) * layout.blockSize :=
        Nat.mul_le_mul_right _ (by omega)
      have hhi : (first + count + 1) * layout.blockSize ≤ total * layout.blockSize :=
        Nat.mul_le_mul_right _ (by omega)
      have hnext : 0 < count → first + count - 1 + 1 = first + count := fun _ => by omega
      have hrest := ih hchained (by omega) hnext (hframe.length.trans hlen) fun _ hend => by omega
      rw [freeLoop, heq]
      exact ⟨(hframe.mono hlo hhi).trans hrest.1, hrest.2⟩

end Chain

/-! ## The inodes of a tree -/

/-- An entry that is not skipped adds its nodes in front of those of the rest. -/
theorem addChildren_cons {layout : Layout} {parent next : Nat} {names : List Name} {name : Name}
    {entry : Entry} {rest : Listing} {nodes : List Node} {entries : List Child}
    (h : addChildren layout parent next names (.cons name entry rest) = some (nodes, entries)) :
    addChildren layout parent next names rest = some (nodes, entries) ∨
      ∃ onDisk nodes₁ nodes₂ entries₂, add layout next onDisk parent entry = some nodes₁ ∧
        addChildren layout parent (next + nodes₁.length) (onDisk :: names) rest
          = some (nodes₂, entries₂) ∧ nodes = nodes₁ ++ nodes₂ := by
  by_cases hlink : entry = .symlink
  · rw [hlink, addChildren] at h
    exact .inl h
  · rw [addChildren] at h
    · simp only [Option.bind_eq_bind, Option.bind_eq_some_iff] at h
      obtain ⟨onDisk, -, h⟩ := h
      split_ifs at h
      simp only [Option.bind_eq_some_iff, Prod.exists] at h
      obtain ⟨nodes₁, hentry, nodes₂, entries₂, hrest, h⟩ := h
      exact .inr ⟨onDisk, nodes₁, nodes₂, entries₂, hentry, hrest,
        (Prod.mk.inj (Option.some.inj h)).1.symm⟩
    · exact hlink

mutual

/-- The nodes of an entry have the inodes from the next one on. -/
theorem add_inodes {layout : Layout} {next parent : Nat} {name : Name} {nodes : List Node} :
    ∀ {entry : Entry}, add layout next name parent entry = some nodes →
      nodes.map Node.inode = List.range' next nodes.length
  | .symlink, h => by
      rw [add] at h
      obtain rfl := Option.some.inj h
      rfl
  | .file mode data, h => by
      simp only [add, Option.bind_eq_bind, Option.bind_eq_some_iff] at h
      obtain ⟨_, -, h⟩ := h
      obtain rfl := Option.some.inj h
      rfl
  | .dir mode children, h => by
      simp only [add, Option.bind_eq_bind, Option.bind_eq_some_iff, Prod.exists] at h
      obtain ⟨_, -, nodes', entries, hchildren, h⟩ := h
      obtain rfl := Option.some.inj h
      rw [List.map_cons, addChildren_inodes hchildren, List.length_cons, List.range'_succ]
  | .other, h => by cases h

theorem addChildren_inodes {layout : Layout} {parent next : Nat} {names : List Name}
    {nodes : List Node} {entries : List Child} :
    ∀ {listing : Listing}, addChildren layout parent next names listing = some (nodes, entries) →
      nodes.map Node.inode = List.range' next nodes.length
  | .nil, h => by
      rw [addChildren] at h
      obtain ⟨rfl, -⟩ := Prod.mk.inj (Option.some.inj h)
      rfl
  | .cons name entry rest, h => by
      rcases addChildren_cons h with hrest | ⟨_, nodes₁, nodes₂, entries₂, hentry, hrest, rfl⟩
      · exact addChildren_inodes hrest
      · rw [List.map_append, add_inodes hentry, addChildren_inodes hrest, List.length_append,
          List.range'_append_1]

end

theorem collectTree_inodes {layout : Layout} {source : Listing} {nodes : List Node}
    (h : collectTree layout source = some nodes) :
    nodes ≠ [] ∧ nodes.map Node.inode = List.range' layout.rootInode nodes.length := by
  simp only [collectTree, Option.bind_eq_bind, Option.bind_eq_some_iff, Prod.exists] at h
  obtain ⟨nodes', entries, hchildren, h⟩ := h
  obtain rfl := Option.some.inj h
  refine ⟨List.cons_ne_nil _ _, ?_⟩
  rw [List.map_cons, addChildren_inodes hchildren, List.length_cons, List.range'_succ]

/-! ## The blocks of the nodes -/

theorem splice_nil (image : Bytes) (off : Nat) : image.splice off [] = image := by
  rw [List.splice, List.length_nil, Nat.add_zero, List.append_nil, List.take_append_drop]

/-- The chunks are one copy. -/
theorem writeChunks_eq (layout : Layout) {count block : Nat} {data image : Bytes}
    (hdata : data.length ≤ count * layout.blockSize)
    (hroom : (block + count) * layout.blockSize ≤ image.length) :
    writeChunks layout count block data image = image.splice (block * layout.blockSize) data := by
  induction count generalizing block data image with
  | zero =>
      rw [Nat.zero_mul, Nat.le_zero, List.length_eq_zero_iff] at hdata
      rw [writeChunks, hdata, splice_nil]
  | succ count ih =>
      have hfirst : block * layout.blockSize + (data.take layout.blockSize).length
          ≤ image.length := by
        have hone : (block + 1) * layout.blockSize ≤ (block + (count + 1)) * layout.blockSize :=
          Nat.mul_le_mul_right _ (by omega)
        rw [Nat.succ_mul] at hone
        rw [List.length_take]
        omega
      have hrest : (data.drop layout.blockSize).length ≤ count * layout.blockSize := by
        rw [Nat.succ_mul] at hdata
        rw [List.length_drop]
        omega
      have hnext : (block + 1 + count) * layout.blockSize
          ≤ (image.splice (block * layout.blockSize) (data.take layout.blockSize)).length := by
        rw [List.length_splice hfirst, Nat.add_right_comm]
        exact hroom
      rw [writeChunks, ih hrest hnext]
      rcases Nat.lt_or_ge data.length layout.blockSize with hlt | hge
      · rw [List.drop_eq_nil_of_le hlt.le, splice_nil, List.take_of_length_le hlt.le]
      · have hwidth : (block + 1) * layout.blockSize
            = block * layout.blockSize + (data.take layout.blockSize).length := by
          rw [List.length_take, Nat.min_eq_left hge, Nat.succ_mul]
        rw [hwidth, List.splice_splice_append hfirst, List.take_append_drop]

/-- A node whose bytes lie in its blocks. -/
structure Holds (layout : Layout) (image : Bytes) (lo hi : Nat) (p : Placed) (data : Bytes)
    (start count : Nat) : Prop where
  bytes : p.node.bytes = some data
  blocks : p.blocks = List.range' start count
  lo_le : lo ≤ start
  le_hi : start + count ≤ hi
  pos : 0 < count
  direct : count ≤ layout.directBlocks
  fits : data.length ≤ count * layout.blockSize
  stored : image.slice (start * layout.blockSize) data.length = data

theorem le_blocks {n size : Nat} (h : 0 < size) : n ≤ (n + size - 1) / size * size := by
  have hsplit := Nat.div_add_mod (n + size - 1) size
  have hrest := Nat.mod_lt (n + size - 1) h
  rw [Nat.mul_comm] at hsplit
  omega

/-- The loop over the nodes: their blocks follow each other and hold their bytes. -/
theorem place_spec {layout : Layout} (hgood : layout.Good) {nodes : List Node} {next last : Nat}
    {image image' : Bytes} {placed : List Placed}
    (h : place layout nodes next image = some (placed, last, image')) :
    placed.map Placed.node = nodes ∧ next ≤ last ∧
      (nodes ≠ [] → last * layout.blockSize ≤ image.length) ∧
      Frame (next * layout.blockSize) (last * layout.blockSize) image image' ∧
      placed.flatMap Placed.blocks = List.range' next (last - next) ∧
      ∀ p ∈ placed, ∃ data start count, Holds layout image' next last p data start count := by
  induction nodes generalizing next image placed with
  | nil =>
      rw [place] at h
      obtain ⟨rfl, hrest⟩ := Prod.mk.inj (Option.some.inj h)
      obtain ⟨rfl, rfl⟩ := Prod.mk.inj hrest
      exact ⟨rfl, le_refl _, fun hne => absurd rfl hne, Frame.refl _ _ _,
        by rw [Nat.sub_self]; rfl, by simp⟩
  | cons node nodes ih =>
      simp only [place, Option.bind_eq_bind, Option.bind_eq_some_iff] at h
      obtain ⟨data, hdata, h⟩ := h
      set count := max 1 ((data.length + layout.blockSize - 1) / layout.blockSize) with hcount
      split_ifs at h with hdirect hroom
      simp only [Option.bind_eq_some_iff, Prod.exists] at h
      obtain ⟨rest, last', image₂, hrest, h⟩ := h
      obtain ⟨rfl, hpair⟩ := Prod.mk.inj (Option.some.inj h)
      obtain ⟨rfl, rfl⟩ := Prod.mk.inj hpair
      have hsize := hgood.superblock
      have hfits : data.length ≤ count * layout.blockSize :=
        (le_blocks (by omega)).trans (Nat.mul_le_mul_right _ (Nat.le_max_right _ _))
      rw [Nat.not_lt] at hroom hdirect
      rw [writeChunks_eq layout hfits hroom] at hrest
      obtain ⟨hnodes, hle, hlast, hframe, hblocks, hholds⟩ := ih hrest
      have hend : next * layout.blockSize + data.length ≤ (next + count) * layout.blockSize := by
        rw [Nat.add_mul]
        omega
      have hmono : (next + count) * layout.blockSize ≤ last' * layout.blockSize :=
        Nat.mul_le_mul_right _ hle
      have hlength : (image.splice (next * layout.blockSize) data).length = image.length :=
        List.length_splice (by omega)
      have hpos : 0 < count := Nat.lt_of_lt_of_le Nat.zero_lt_one (Nat.le_max_left _ _)
      refine ⟨?_, by omega, fun _ => ?_, ?_, ?_, ?_⟩
      · rw [List.map_cons, hnodes]
      · by_cases hnil : nodes = []
        · rw [hnil, place] at hrest
          obtain ⟨-, hpair⟩ := Prod.mk.inj (Option.some.inj hrest)
          rw [← (Prod.mk.inj hpair).1]
          exact hroom
        · rw [← hlength]
          exact hlast hnil
      · have hfirst : Frame (next * layout.blockSize) (next * layout.blockSize + data.length) image
            (image.splice (next * layout.blockSize) data) := frame_splice (by omega)
        exact (hfirst.mono (le_refl _) (by omega)).trans
          (hframe.mono (Nat.mul_le_mul_right _ (by omega)) (le_refl _))
      · rw [List.flatMap_cons, hblocks, show last' - next = count + (last' - (next + count)) by omega]
        exact List.range'_append_1
      · rw [List.forall_mem_cons]
        refine ⟨⟨data, next, count, hdata, rfl, le_refl _, hle, hpos, hdirect, hfits, ?_⟩,
          fun p hp => ?_⟩
        · rw [hframe.same _ _ (.inl hend)]
          exact List.slice_splice_self (by omega) rfl
        · obtain ⟨data', start, count', hp'⟩ := hholds p hp
          exact ⟨data', start, count', { hp' with lo_le := by have := hp'.lo_le; omega }⟩

/-- Blocks next to each other are read as one window. -/
theorem content_range (layout : Layout) (image : Bytes) (start count : Nat) :
    content layout image (List.range' start count)
      = image.slice (start * layout.blockSize) (count * layout.blockSize) := by
  induction count generalizing start with
  | zero => rw [Nat.zero_mul, List.slice, List.take_zero]; rfl
  | succ count ih =>
      rw [List.range'_succ, content, List.flatMap_cons, ← content, ih, Nat.succ_mul start,
        Nat.succ_mul count, Nat.add_comm (count * layout.blockSize), slice_add]

theorem Holds.content_take {layout : Layout} {image : Bytes} {lo hi start count : Nat}
    {p : Placed} {data : Bytes} (h : Holds layout image lo hi p data start count) :
    (content layout image p.blocks).take data.length = data := by
  rw [h.blocks, content_range, List.slice, List.take_take, Nat.min_eq_left h.fits]
  exact h.stored

/-! ## The inodes of an image -/

theorem inodeOffset_eq {layout : Layout} (hgood : layout.Good) (inode : Nat) :
    inodeOffset layout inode = 2 * layout.blockSize + (inode - 1) * layout.inodeSize := by
  have hsplit := Nat.div_add_mod (inode - 1) layout.perBlock
  calc inodeOffset layout inode
      = 2 * layout.blockSize + (layout.perBlock * ((inode - 1) / layout.perBlock)
          + (inode - 1) % layout.perBlock) * layout.inodeSize := by
        rw [inodeOffset, ← hgood.perBlock]
        ring
    _ = 2 * layout.blockSize + (inode - 1) * layout.inodeSize := by rw [hsplit]

/-- Inodes do not overlap. -/
theorem inode_apart {layout : Layout} (hgood : layout.Good) {i j : Nat} (hi : 1 ≤ i) (hj : 1 ≤ j)
    (h : i ≠ j) : inodeOffset layout i + layout.inodeSize ≤ inodeOffset layout j ∨
      inodeOffset layout j + layout.inodeSize ≤ inodeOffset layout i := by
  rw [inodeOffset_eq hgood, inodeOffset_eq hgood]
  rcases Nat.lt_or_gt_of_ne h with hlt | hgt
  · have hmul : (i - 1 + 1) * layout.inodeSize ≤ (j - 1) * layout.inodeSize :=
      Nat.mul_le_mul_right _ (by omega)
    rw [Nat.succ_mul] at hmul
    omega
  · have hmul : (j - 1 + 1) * layout.inodeSize ≤ (i - 1) * layout.inodeSize :=
      Nat.mul_le_mul_right _ (by omega)
    rw [Nat.succ_mul] at hmul
    omega

/-- The inodes up to the capacity lie before the first data block. -/
theorem inode_bounds {layout : Layout} (hgood : layout.Good) {inode inodeBlocks : Nat}
    (hpos : 1 ≤ inode) (hcap : inode ≤ inodeBlocks * layout.perBlock) :
    2 * layout.blockSize ≤ inodeOffset layout inode ∧
      inodeOffset layout inode + layout.inodeSize ≤ (2 + inodeBlocks) * layout.blockSize := by
  have hmul : (inode - 1 + 1) * layout.inodeSize
      ≤ inodeBlocks * layout.perBlock * layout.inodeSize := Nat.mul_le_mul_right _ (by omega)
  rw [Nat.mul_assoc, hgood.perBlock, Nat.succ_mul] at hmul
  rw [inodeOffset_eq hgood, Nat.add_mul]
  omega

/-- The numbers in an inode, without the zeros. -/
theorem numbersAt_filter {image : Bytes} {off width count : Nat} {blocks : List Nat}
    (hcount : blocks.length ≤ count)
    (h : image.slice off (width * count)
      = entryBytes width blocks ++ List.replicate (width * (count - blocks.length)) 0)
    (hlt : ∀ n ∈ blocks, n < 256 ^ width) (hpos : ∀ n ∈ blocks, n ≠ 0) :
    (numbersAt image off width count).filter (· ≠ 0) = blocks := by
  obtain ⟨rest, rfl⟩ : ∃ rest, count = blocks.length + rest := ⟨count - blocks.length, by omega⟩
  rw [Nat.add_sub_cancel_left] at h
  rw [numbersAt_packed h hlt, List.filter_append]
  have hkeep : blocks.filter (· ≠ 0) = blocks :=
    List.filter_eq_self.mpr fun n hn => decide_eq_true (hpos n hn)
  have hdrop : (List.replicate rest 0).filter (· ≠ 0) = [] := by simp
  rw [hkeep, hdrop, List.append_nil]

/-- The fields of an inode are read from its window only. -/
theorem inodeFields_congr {layout : Layout} (hgood : layout.Good) {image image' : Bytes}
    {inode : Nat} (hlen : image'.length = image.length)
    (h : image'.slice (inodeOffset layout inode) layout.inodeSize
      = image.slice (inodeOffset layout inode) layout.inodeSize) :
    inodeFields layout image' inode = inodeFields layout image inode := by
  set offset := inodeOffset layout inode with hoffset
  have hsub : ∀ k w, k + w ≤ layout.inodeSize →
      image'.slice (offset + k) w = image.slice (offset + k) w := by
    intro k w hk
    rw [slice_of_window h hk, slice_of_window rfl hk]
  have hunpack : ∀ k w, k + w ≤ layout.inodeSize →
      unpackNumber image' (offset + k) w = unpackNumber image (offset + k) w := by
    intro k w hk
    rw [unpackNumber, unpackNumber, hlen, hsub k w hk]
  have hnumbers : ∀ k w count, k + count * w ≤ layout.inodeSize →
      numbersAt image' (offset + k) w count = numbersAt image (offset + k) w count := by
    intro k w count hk
    refine List.map_congr_left fun i hi => ?_
    have hroom : i * w + w ≤ count * w := by
      rw [← Nat.succ_mul]
      exact Nat.mul_le_mul_right _ (List.mem_range.mp hi)
    rw [Nat.add_assoc, hsub (k + i * w) w (by omega)]
  have hbyte : ∀ k < layout.inodeSize, image'[offset + k]? = image[offset + k]? := by
    intro k hk
    rw [getElem?_of_window h hk, getElem?_of_window rfl hk]
  rw [inodeFields, inodeFields, ← hoffset]
  cases hv6 : layout.v6 with
  | true =>
      obtain ⟨hsize, -⟩ := hgood.old hv6
      have hmode := hunpack 0 2 (by omega)
      rw [Nat.add_zero] at hmode
      simp only [if_true, hmode, hbyte 5 (by omega), hunpack 6 2 (by omega), hlen,
        hnumbers 8 2 8 (by omega)]
  | false =>
      obtain ⟨hsize, -⟩ := hgood.new hv6
      have hmode := hunpack 0 2 (by omega)
      rw [Nat.add_zero] at hmode
      simp only [Bool.false_eq_true, if_false, hmode, hunpack 8 4 (by omega),
        hnumbers 12 3 13 (by omega)]

theorem size_value {n : Nat} (h : n < 16777216) :
    (UInt8.ofNat (n >>> 16)).toNat <<< 16 ||| (n &&& 0xffff) = n := by
  have hlow : n &&& 0xffff = n % 65536 := Nat.and_two_pow_sub_one_eq_mod n 16
  have hhigh : (UInt8.ofNat (n >>> 16)).toNat = n / 65536 := by
    rw [UInt8.toNat_ofNat', Nat.shiftRight_eq_div_pow]
    omega
  rw [hlow, hhigh, ← Nat.shiftLeft_add_eq_or_of_lt (by omega), Nat.shiftLeft_eq]
  omega

/-- `write_inode` stays in the window of the inode, and the fields are read back. -/
theorem writeInode_spec {layout : Layout} (hgood : layout.Good) {p : Placed} {image image' : Bytes}
    {data : Bytes} (hdata : p.node.bytes = some data)
    (hzero : image.slice (inodeOffset layout p.node.inode) layout.inodeSize
      = List.replicate layout.inodeSize 0)
    (hroom : inodeOffset layout p.node.inode + layout.inodeSize ≤ image.length)
    (hsmall : ∀ n ∈ p.blocks, n < 65536) (hpos : ∀ n ∈ p.blocks, n ≠ 0)
    (h : writeInode layout p image = some image') :
    Frame (inodeOffset layout p.node.inode)
        (inodeOffset layout p.node.inode + layout.inodeSize) image image' ∧
      inodeFields layout image' p.node.inode = some (p.node.mode, data.length, p.blocks) := by
  set offset := inodeOffset layout p.node.inode with hoffset
  simp only [writeInode, hdata, Option.bind_eq_bind, Option.bind_some] at h
  generalize (if p.node.isDirectory = true then 2 + p.node.children.countP Child.isDirectory
    else 1) = links at h
  rw [Option.bind_eq_some_iff] at h
  obtain ⟨mode, hmode, h⟩ := h
  obtain ⟨hmodeLt, rfl⟩ := packLe_eq_some.mp hmode
  cases hv6 : layout.v6 with
  | true =>
      obtain ⟨hsize, hdirect⟩ := hgood.old hv6
      rw [hsize] at hzero hroom ⊢
      rw [hv6, if_pos rfl] at h
      have hlong : ¬ 16777216 ≤ data.length := by
        intro hlong
        rw [if_pos hlong] at h
        cases h
      rw [if_neg hlong] at h
      simp only [Option.bind_eq_some_iff] at h
      obtain ⟨nlink, hlinks, high, hhigh, low, hlow, image₁, hheader, h⟩ := h
      obtain ⟨-, rfl⟩ := packLe_eq_some.mp hlinks
      obtain ⟨-, rfl⟩ := packLe_eq_some.mp hhigh
      obtain ⟨hlowLt, rfl⟩ := packLe_eq_some.mp hlow
      split_ifs at h with hmany
      rw [hdirect, Nat.not_lt] at hmany
      obtain ⟨hframe₁, hslice₁⟩ := packInto_spec hheader
      obtain ⟨-, hframe₂, hslice₂⟩ := packNumbers_spec h
      have height : ∀ links, (leBytes 2 p.node.mode ++ leBytes 1 links ++ ([0, 0] : Bytes) ++
          leBytes 1 (data.length >>> 16) ++ leBytes 2 (data.length &&& 0xffff)).length = 8 :=
        fun _ => rfl
      rw [height] at hframe₁ hslice₁
      have hframe : Frame offset (offset + 32) image image' :=
        (hframe₁.mono (le_refl _) (by omega)).trans (hframe₂.mono (by omega) (by omega))
      refine ⟨hframe, ?_⟩
      have hfields := (hframe₂.same offset 8 (.inl (le_refl _))).trans hslice₁
      have hmodeAt : unpackNumber image' offset 2 = some p.node.mode := by
        have hsub := slice_of_window hfields (k := 0) (w := 2) (by omega)
        rw [Nat.add_zero] at hsub
        exact unpackNumber_window hsub hmodeLt (by rw [hframe.length]; omega)
      have hhighAt : image'[offset + 5]? = some (UInt8.ofNat (data.length >>> 16)) :=
        getElem?_of_window hfields (by omega)
      have hlowAt : unpackNumber image' (offset + 6) 2 = some (data.length &&& 0xffff) := by
        have hsub := slice_of_window hfields (k := 6) (w := 2) (by omega)
        exact unpackNumber_window hsub hlowLt (by rw [hframe.length]; omega)
      have hnumbers : (numbersAt image' (offset + 8) 2 8).filter (· ≠ 0) = p.blocks := by
        refine numbersAt_filter hmany ?_ (fun n hn => hsmall n hn) hpos
        have hrest : image'.slice (offset + 8 + 2 * p.blocks.length) (2 * (8 - p.blocks.length))
            = List.replicate (2 * (8 - p.blocks.length)) 0 := by
          rw [hframe₂.same _ _ (.inr (le_refl _)), hframe₁.same _ _ (.inr (by omega)),
            Nat.add_assoc, slice_of_window hzero (by omega)]
          exact List.slice_replicate 0 (by omega)
        rw [show 2 * 8 = 2 * p.blocks.length + 2 * (8 - p.blocks.length) by omega, slice_add,
          hslice₂, hrest]
      have hin : offset + 24 ≤ image'.length := by
        rw [hframe.length]
        omega
      simp only [inodeFields, ← hoffset, hv6, if_true, hmodeAt, hhighAt, hlowAt, hnumbers, if_pos hin,
        size_value (Nat.not_le.mp hlong), Option.bind_eq_bind, Option.bind_some]
      rfl
  | false =>
      obtain ⟨hsize, hdirect⟩ := hgood.new hv6
      rw [hsize] at hzero hroom ⊢
      rw [hv6] at h
      simp only [Bool.false_eq_true, if_false, Option.bind_eq_some_iff] at h
      obtain ⟨nlink, hlinks, size, hsizeBytes, image₁, hheader, addresses, haddresses, h⟩ := h
      obtain ⟨-, rfl⟩ := packLe_eq_some.mp hlinks
      obtain ⟨hsizeLt, rfl⟩ := packLe_eq_some.mp hsizeBytes
      obtain rfl := Option.some.inj h
      rw [packAddresses, hdirect] at haddresses
      split_ifs at haddresses with hmany
      rw [Nat.not_lt] at hmany
      obtain rfl := Option.some.inj haddresses
      obtain ⟨hframe₁, hslice₁⟩ := packInto_spec hheader
      have htwelve : ∀ links, (leBytes 2 p.node.mode ++ leBytes 2 links ++ ([0, 0, 0, 0] : Bytes) ++
          leBytes 4 data.length).length = 12 := fun _ => rfl
      rw [htwelve] at hframe₁ hslice₁
      have hforty : (entryBytes 3 p.blocks ++
          List.replicate (40 - 3 * p.blocks.length) 0).length = 40 := by
        rw [List.length_append, length_entryBytes, List.length_replicate]
        omega
      set image' := image₁.splice (offset + 12) (entryBytes 3 p.blocks ++
        List.replicate (40 - 3 * p.blocks.length) 0) with himage'
      have hfit : offset + 12 + (entryBytes 3 p.blocks ++
          List.replicate (40 - 3 * p.blocks.length) 0).length ≤ image₁.length := by
        rw [hforty, hframe₁.length]
        omega
      have hframe₂ := frame_splice hfit
      have hslice₂ : image'.slice (offset + 12) 40 = entryBytes 3 p.blocks ++
          List.replicate (40 - 3 * p.blocks.length) 0 :=
        List.slice_splice_self (by omega) hforty
      rw [hforty, ← himage'] at hframe₂
      have hframe : Frame offset (offset + 64) image image' :=
        (hframe₁.mono (le_refl _) (by omega)).trans (hframe₂.mono (by omega) (by omega))
      refine ⟨hframe, ?_⟩
      have hfields := (hframe₂.same offset 12 (.inl (le_refl _))).trans hslice₁
      have hmodeAt : unpackNumber image' offset 2 = some p.node.mode := by
        have hsub := slice_of_window hfields (k := 0) (w := 2) (by omega)
        rw [Nat.add_zero] at hsub
        exact unpackNumber_window hsub hmodeLt (by rw [hframe.length]; omega)
      have hsizeAt : unpackNumber image' (offset + 8) 4 = some data.length := by
        have hsub := slice_of_window hfields (k := 8) (w := 4) (by omega)
        exact unpackNumber_window hsub hsizeLt (by rw [hframe.length]; omega)
      have hnumbers : (numbersAt image' (offset + 12) 3 13).filter (· ≠ 0) = p.blocks := by
        refine numbersAt_filter (by omega) ?_ (fun n hn => ?_) hpos
        · have hsub := slice_of_window hslice₂ (k := 0) (w := 39) (by omega)
          rw [Nat.add_zero] at hsub
          refine hsub.trans ?_
          rw [List.slice, List.drop_zero, List.take_append, length_entryBytes, List.take_replicate,
            List.take_of_length_le (by rw [length_entryBytes]; omega)]
          congr 2
          omega
        · have hn := hsmall n hn
          omega
      simp only [inodeFields, ← hoffset, hv6, Bool.false_eq_true, if_false, hmodeAt, hsizeAt,
        hnumbers, Option.bind_eq_bind, Option.bind_some]
      rfl

/-- The inodes are written next to each other: each is read back, and the others stay as they
were. -/
theorem writeInodes_spec {layout : Layout} (hgood : layout.Good) {placed : List Placed}
    {image image' : Bytes}
    (hnodup : (placed.map fun p => p.node.inode).Nodup) (hinode : ∀ p ∈ placed, 1 ≤ p.node.inode)
    {last : Nat} (hlast : last ≤ 2048) {next : Nat} (hnext : 2 ≤ next)
    (hholds : ∀ p ∈ placed, ∃ image data start count,
      Holds layout image next last p data start count)
    (hzero : ∀ p ∈ placed, image.slice (inodeOffset layout p.node.inode) layout.inodeSize
      = List.replicate layout.inodeSize 0)
    (hroom : ∀ p ∈ placed, inodeOffset layout p.node.inode + layout.inodeSize ≤ next *
      layout.blockSize) (hlen : next * layout.blockSize ≤ image.length)
    (h : placed.foldlM (fun image p => writeInode layout p image) image = some image') :
    Frame (2 * layout.blockSize) (next * layout.blockSize) image image' ∧
      (∀ inode, 1 ≤ inode → (∀ p ∈ placed, p.node.inode ≠ inode) →
        image'.slice (inodeOffset layout inode) layout.inodeSize
          = image.slice (inodeOffset layout inode) layout.inodeSize) ∧
      ∀ p ∈ placed, ∃ data, p.node.bytes = some data ∧
        inodeFields layout image' p.node.inode = some (p.node.mode, data.length, p.blocks) := by
  induction placed generalizing image with
  | nil =>
      obtain rfl := Option.some.inj h
      exact ⟨Frame.refl _ _ _, fun _ _ _ => rfl, by simp⟩
  | cons p placed ih =>
      rw [List.foldlM_cons, Option.bind_eq_bind, Option.bind_eq_some_iff] at h
      obtain ⟨image₁, hfirst, hrest⟩ := h
      rw [List.map_cons, List.nodup_cons] at hnodup
      rw [List.forall_mem_cons] at hinode hholds hzero hroom
      obtain ⟨_, data, start, count, hp⟩ := hholds.1
      have hblocks : ∀ n ∈ p.blocks, n < 65536 ∧ n ≠ 0 := by
        intro n hn
        have hlo := hp.lo_le
        have hhi := hp.le_hi
        rw [hp.blocks, List.mem_range'_1] at hn
        omega
      obtain ⟨hframe₁, hfields₁⟩ := writeInode_spec hgood hp.bytes hzero.1 (by omega)
        (fun n hn => (hblocks n hn).1) (fun n hn => (hblocks n hn).2) hfirst
      -- another inode is not in the window
      have hother : ∀ inode, 1 ≤ inode → p.node.inode ≠ inode →
          image₁.slice (inodeOffset layout inode) layout.inodeSize
            = image.slice (inodeOffset layout inode) layout.inodeSize :=
        fun inode hpos hne => hframe₁.same _ _ (inode_apart hgood hpos hinode.1 (Ne.symm hne))
      have hdiffer : ∀ q ∈ placed, p.node.inode ≠ q.node.inode :=
        fun q hq heq => hnodup.1 (List.mem_map.mpr ⟨q, hq, heq.symm⟩)
      obtain ⟨hframe, hsame, hfields⟩ := ih hnodup.2 hinode.2 hholds.2
        (fun q hq => (hother _ (hinode.2 q hq) (hdiffer q hq)).trans (hzero.2 q hq)) hroom.2
        (by rw [hframe₁.length]; exact hlen) hrest
      have hlo : 2 * layout.blockSize ≤ inodeOffset layout p.node.inode := by
        rw [inodeOffset_eq hgood]
        omega
      refine ⟨(hframe₁.mono hlo hroom.1).trans hframe, fun inode hpos hnot => ?_,
        List.forall_mem_cons.mpr ⟨⟨data, hp.bytes, ?_⟩, hfields⟩⟩
      · rw [List.forall_mem_cons] at hnot
        exact (hsame inode hpos hnot.2).trans (hother inode hpos hnot.1)
      · rw [← hfields₁]
        exact inodeFields_congr hgood hframe.length
          (hsame _ hinode.1 fun q hq => (hdiffer q hq).symm)

/-! ## The superblock -/

/-- Where the count of the stack stands. -/
def countOff (layout : Layout) : Nat := layout.blockSize + if layout.v6 then 4 else 6

/-- What the superblock of an image says. -/
structure Superblock (layout : Layout) (dataStart used : Nat) (nodes : List Node) (image : Bytes)
    (stack : List Nat) : Prop where
  start : image.slice layout.blockSize 2 = leBytes 2 dataStart ∧ dataStart < 256 ^ 2
  count : image.slice (countOff layout) 2 = leBytes 2 stack.length
  entries : image.slice (countOff layout + 2) (layout.width * stack.length)
    = entryBytes layout.width stack
  free : layout.v6 = false → image.slice (layout.blockSize + 418) 4
    = leBytes 4 (layout.totalBlocks - used)
  inodes : layout.v6 = false → ∃ n < 256 ^ 2, n = (dataStart - 2) * layout.perBlock
    - (nodes.map Node.inode).dedup.length - (layout.firstInode - 1) ∧
    image.slice (layout.blockSize + 422) 2 = leBytes 2 n

/-- The free list is complete, from the last block down. -/
theorem writeFreeBlocks_spec {layout : Layout} (hgood : layout.Good) {used : Nat} {image : Bytes}
    (hlen : image.length = layout.totalBytes) (hused : used ≤ layout.totalBlocks)
    (hzero : used < layout.totalBlocks →
      image.slice ((layout.totalBlocks - 1) * layout.blockSize) 2 = [0, 0]) :
    Frame (used * layout.blockSize) (layout.totalBlocks * layout.blockSize) image
        (writeFreeBlocks layout image used).1 ∧
      Chained layout layout.totalBlocks used (writeFreeBlocks layout image used).1
        (writeFreeBlocks layout image used).2 := by
  have hblocks : image.length / layout.blockSize = layout.totalBlocks := by
    rw [hlen, Layout.totalBlocks]
  have hwhole : image.length = layout.totalBlocks * layout.blockSize := by
    rw [hlen, hgood.total]
  have hstart : Chained layout layout.totalBlocks (used + (layout.totalBlocks - used)) image [] := by
    refine ⟨Nat.zero_le _, by simp, by simp only [true_iff]; omega, fun image'' _ fuel hfuel => ?_⟩
    obtain ⟨fuel, rfl⟩ : ∃ m, fuel = m + 1 := ⟨fuel - 1, by omega⟩
    rw [show layout.totalBlocks - (used + (layout.totalBlocks - used)) = 0 by omega]
    rfl
  have hfrom : 0 < layout.totalBlocks - used →
      layout.totalBlocks - 1 + 1 = used + (layout.totalBlocks - used) := by omega
  have hloop := freeLoop_spec hgood hstart (by omega) hfrom hwhole hgood.blocks
    fun _ _ => hzero (by omega)
  rwa [writeFreeBlocks, hblocks]

theorem writeSuperblock_spec {layout : Layout} (hgood : layout.Good) {dataStart used : Nat}
    {nodes : List Node} {image image' : Bytes} (hlen : image.length = layout.totalBytes)
    (hdata : 2 ≤ used) (hused : used ≤ layout.totalBlocks)
    (hzero : used < layout.totalBlocks →
      image.slice ((layout.totalBlocks - 1) * layout.blockSize) 2 = [0, 0])
    (h : writeSuperblock layout dataStart used nodes image = some image') :
    (∀ off n, off + n ≤ layout.blockSize ∨ 2 * layout.blockSize ≤ off ∧
      off + n ≤ used * layout.blockSize → image'.slice off n = image.slice off n) ∧
      image'.length = image.length ∧
      ∃ stack, Superblock layout dataStart used nodes image' stack ∧
        Chained layout layout.totalBlocks used image' stack := by
  have hbs := hgood.superblock
  have hblocks : image.length / layout.blockSize = layout.totalBlocks := by
    rw [hlen, Layout.totalBlocks]
  have hloop := writeFreeBlocks_spec hgood hlen hused hzero
  simp only [writeSuperblock, hblocks] at h
  generalize writeFreeBlocks layout image used = s at h hloop
  obtain ⟨image₀, stack⟩ := s
  obtain ⟨hframe₀, hchained⟩ := hloop
  generalize hcap : (dataStart - 2) * layout.perBlock = capacity at h
  have hinodes : ((unallocated layout capacity nodes).take 100).length ≤ 100 := by
    rw [List.length_take]
    omega
  generalize (unallocated layout capacity nodes).take 100 = freeInodes at h hinodes
  simp only [Option.bind_eq_bind, Option.bind_eq_some_iff] at h
  obtain ⟨image₁, h₁, h⟩ := h
  obtain ⟨hdataLt, hframe₁, hslice₁⟩ := packNumber_spec h₁
  have hshort : stack.length ≤ layout.limit := hchained.short
  have htwo : 2 * layout.blockSize ≤ used * layout.blockSize := Nat.mul_le_mul_right _ hdata
  -- the superblock does not meet the free blocks
  have hfinish : ∀ {raw : Bytes}, Frame (layout.blockSize + 2) (2 * layout.blockSize) image₁ raw →
      (∀ off n, off + n ≤ layout.blockSize ∨ 2 * layout.blockSize ≤ off ∧
        off + n ≤ used * layout.blockSize → raw.slice off n = image.slice off n) ∧
        raw.length = image.length ∧ Chained layout layout.totalBlocks used raw stack ∧
        raw.slice layout.blockSize 2 = leBytes 2 dataStart := by
    intro raw hlater
    have hboth : Frame layout.blockSize (2 * layout.blockSize) image₀ raw :=
      (hframe₁.mono (le_refl _) (by omega)).trans (hlater.mono (by omega) (le_refl _))
    refine ⟨fun off n hout => ?_, hboth.length.trans hframe₀.length, ?_, ?_⟩
    · rw [hboth.same off n (by omega), hframe₀.same off n (by omega)]
    · refine ⟨hchained.short, hchained.small, hchained.empty, fun image'' hagree => ?_⟩
      refine hchained.drains image'' (Agree.trans ⟨hboth.length, fun off n hoff _ => ?_⟩ hagree)
      exact hboth.same off n (.inr (htwo.trans hoff))
    · rw [hlater.same _ _ (.inl (by omega))]
      exact hslice₁
  cases hv6 : layout.v6 with
  | true =>
      have hlimit : layout.limit = 100 ∧ layout.width = 2 := by
        rw [Layout.limit, Layout.width, hv6]
        exact ⟨rfl, rfl⟩
      have hoff : countOff layout = layout.blockSize + 4 := by
        rw [countOff, hv6]
        rfl
      rw [hlimit.1] at hshort
      simp only [hv6, if_true, Option.bind_eq_some_iff] at h
      obtain ⟨image₂, h₂, image₃, h₃, image₄, h₄, image₅, h₅, h₆⟩ := h
      obtain ⟨-, hframe₂, -⟩ := packNumber_spec h₂
      obtain ⟨-, hframe₃, hslice₃⟩ := packNumber_spec h₃
      obtain ⟨-, hframe₄, hslice₄⟩ := packNumbers_spec h₄
      obtain ⟨-, hframe₅, -⟩ := packNumber_spec h₅
      obtain ⟨-, hframe₆, -⟩ := packNumbers_spec h₆
      have hlast : Frame (layout.blockSize + 206) (2 * layout.blockSize) image₄ image' :=
        (hframe₅.mono (le_refl _) (by omega)).trans (hframe₆.mono (by omega) (by omega))
      have hfree : Frame (layout.blockSize + 6) (2 * layout.blockSize) image₃ image' :=
        (hframe₄.mono (le_refl _) (by omega)).trans (hlast.mono (by omega) (le_refl _))
      have hall : Frame (layout.blockSize + 2) (2 * layout.blockSize) image₁ image' :=
        ((hframe₂.mono (le_refl _) (by omega)).trans (hframe₃.mono (by omega) (by omega))).trans
          (hfree.mono (by omega) (le_refl _))
      obtain ⟨hkeep, hlength, hchain, hfirst⟩ := hfinish hall
      refine ⟨hkeep, hlength, stack, ⟨⟨hfirst, hdataLt⟩, ?_, ?_, ?_, ?_⟩, hchain⟩
      · rw [hoff, hfree.same _ _ (.inl (by omega)), hslice₃]
      · rw [hoff, hlimit.2, Nat.add_assoc, hlast.same _ _ (.inl (by omega))]
        exact hslice₄
      · exact fun hcon => absurd (hv6.symm.trans hcon) (by decide)
      · exact fun hcon => absurd (hv6.symm.trans hcon) (by decide)
  | false =>
      have hlimit : layout.limit = 50 ∧ layout.width = 4 := by
        rw [Layout.limit, Layout.width, hv6]
        exact ⟨rfl, rfl⟩
      have hoff : countOff layout = layout.blockSize + 6 := by
        rw [countOff, hv6]
        rfl
      rw [hlimit.1] at hshort
      simp only [hv6, Bool.false_eq_true, if_false, Option.bind_eq_some_iff] at h
      obtain ⟨image₂, h₂, image₃, h₃, image₄, h₄, image₅, h₅, image₆, h₆, image₇, h₇, h₈⟩ := h
      obtain ⟨-, hframe₂, -⟩ := packNumber_spec h₂
      obtain ⟨-, hframe₃, hslice₃⟩ := packNumber_spec h₃
      obtain ⟨-, hframe₄, hslice₄⟩ := packNumbers_spec h₄
      obtain ⟨-, hframe₅, -⟩ := packNumber_spec h₅
      obtain ⟨-, hframe₆, -⟩ := packNumbers_spec h₆
      obtain ⟨-, hframe₇, hslice₇⟩ := packNumber_spec h₇
      obtain ⟨hinodesLt, hframe₈, hslice₈⟩ := packNumber_spec h₈
      have hlast : Frame (layout.blockSize + 208) (2 * layout.blockSize) image₄ image' :=
        (((hframe₅.mono (le_refl _) (by omega)).trans (hframe₆.mono (by omega) (by omega))).trans
          (hframe₇.mono (by omega) (by omega))).trans (hframe₈.mono (by omega) (by omega))
      have hfree : Frame (layout.blockSize + 8) (2 * layout.blockSize) image₃ image' :=
        (hframe₄.mono (le_refl _) (by omega)).trans (hlast.mono (by omega) (le_refl _))
      have hall : Frame (layout.blockSize + 2) (2 * layout.blockSize) image₁ image' :=
        ((hframe₂.mono (le_refl _) (by omega)).trans (hframe₃.mono (by omega) (by omega))).trans
          (hfree.mono (by omega) (le_refl _))
      obtain ⟨hkeep, hlength, hchain, hfirst⟩ := hfinish hall
      refine ⟨hkeep, hlength, stack, ⟨⟨hfirst, hdataLt⟩, ?_, ?_, fun _ => ?_, fun _ => ?_⟩, hchain⟩
      · rw [hoff, hfree.same _ _ (.inl (by omega)), hslice₃]
      · rw [hoff, hlimit.2, Nat.add_assoc, hlast.same _ _ (.inl (by omega))]
        exact hslice₄
      · rw [hframe₈.same _ _ (.inl (by omega)), hslice₇]
      · exact ⟨_, hinodesLt, by rw [hcap], hslice₈⟩

/-! ## What holds of an image -/

/-- The blocks that an inode of an image refers to. -/
def inodeBlocks (layout : Layout) (image : Bytes) (inode : Nat) : List Nat :=
  match inodeFields layout image inode with
  | some (_, _, blocks) => blocks
  | none => []

/-- An image in which every block is accounted for. `dataStart` is the first data block, and
`free` are the blocks of the free list. -/
structure Accounted (layout : Layout) (nodes : List Node) (image : Bytes) (dataStart : Nat)
    (free : List Nat) : Prop where
  start : unpackNumber image layout.blockSize 2 = some dataStart
  freeList : freeBlocks layout image = some free
  /-- A block is referenced by one inode, or it is on the free list once. -/
  once : ∀ b, dataStart ≤ b → b < layout.totalBlocks →
    ((List.range' 1 ((dataStart - 2) * layout.perBlock)).flatMap
      (inodeBlocks layout image)).count b + free.count b = 1
  /-- The totals, which the V6 superblock does not have. -/
  totals : layout.v6 = false →
    unpackNumber image (layout.blockSize + 418) 4 = some free.length ∧
    unpackNumber image (layout.blockSize + 422) 2
      = some (unallocated layout ((dataStart - 2) * layout.perBlock) nodes).length
  /-- The inodes of the nodes are read back. -/
  readBack : ∀ node ∈ nodes, ∃ data blocks, node.bytes = some data ∧
    inodeFields layout image node.inode = some (node.mode, data.length, blocks) ∧
    (content layout image blocks).take data.length = data

theorem le_foldr_max {l : List Nat} {n : Nat} (h : n ∈ l) : n ≤ l.foldr max 0 := by
  induction l with
  | nil => cases h
  | cons a l ih =>
      rw [List.foldr_cons]
      rcases List.mem_cons.mp h with rfl | h
      · exact Nat.le_max_left _ _
      · exact (ih h).trans (Nat.le_max_right _ _)

theorem length_unallocated {layout : Layout} {capacity : Nat} {nodes : List Node}
    (hinodes : nodes.map Node.inode = List.range' layout.firstInode nodes.length)
    (hcap : layout.firstInode + nodes.length ≤ capacity + 1) :
    (unallocated layout capacity nodes).length
      = capacity - nodes.length - (layout.firstInode - 1) := by
  have hsplit : List.range' layout.firstInode (capacity + 1 - layout.firstInode)
      = List.range' layout.firstInode nodes.length ++ List.range'
        (layout.firstInode + nodes.length)
        (capacity + 1 - layout.firstInode - nodes.length) := by
    rw [List.range'_append_1]
    congr 1
    omega
  have hpos : 1 ≤ layout.firstInode := by
    unfold Layout.firstInode
    split_ifs <;> omega
  rw [unallocated, hinodes, hsplit, List.filter_append, List.filter_eq_nil_iff.mpr,
    List.filter_eq_self.mpr, List.nil_append, List.length_range']
  · omega
  · intro n hn
    rw [List.mem_range'_1] at hn
    simp only [List.mem_range'_1, decide_eq_true_eq]
    omega
  · intro n hn
    simp only [hn, not_true_eq_false, decide_false, Bool.false_eq_true, not_false_eq_true]

/-- An inode that was not written refers to no blocks. -/
theorem inodeBlocks_zero {layout : Layout} (hgood : layout.Good) {image : Bytes} {inode : Nat}
    (h : image.slice (inodeOffset layout inode) layout.inodeSize
      = List.replicate layout.inodeSize 0) : inodeBlocks layout image inode = [] := by
  have hnumbers : ∀ k width count, k + width * count ≤ layout.inodeSize →
      (numbersAt image (inodeOffset layout inode + k) width count).filter (· ≠ 0) = [] := by
    intro k width count hk
    refine numbersAt_filter (Nat.zero_le _) ?_ (by simp) (by simp)
    rw [slice_of_window h hk, List.slice_replicate 0 hk]
    rfl
  rw [inodeBlocks, inodeFields]
  cases hv6 : layout.v6 with
  | true =>
      obtain ⟨hsize, -⟩ := hgood.old hv6
      simp only [if_true, hnumbers 8 2 8 (by omega), Option.bind_eq_bind]
      cases unpackNumber image (inodeOffset layout inode) 2 with
      | none => rfl
      | some mode =>
          cases image[inodeOffset layout inode + 5]? with
          | none => rfl
          | some high =>
              cases unpackNumber image (inodeOffset layout inode + 6) 2 with
              | none => rfl
              | some low =>
                  simp only [Option.bind_some]
                  split_ifs <;> rfl
  | false =>
      obtain ⟨hsize, -⟩ := hgood.new hv6
      simp only [Bool.false_eq_true, if_false, hnumbers 12 3 13 (by omega), Option.bind_eq_bind]
      cases unpackNumber image (inodeOffset layout inode) 2 with
      | none => rfl
      | some mode =>
          cases unpackNumber image (inodeOffset layout inode + 8) 4 with
          | none => rfl
          | some size => rfl

/-- The free list is read from a superblock and the chain behind it. -/
theorem freeBlocks_eq {layout : Layout} (hgood : layout.Good) {dataStart used : Nat}
    {nodes : List Node} {image : Bytes} {stack : List Nat}
    (hsuper : Superblock layout dataStart used nodes image stack)
    (hchain : Chained layout layout.totalBlocks used image stack)
    (hroom : 2 * layout.blockSize ≤ image.length) :
    freeBlocks layout image = some (List.range' used (layout.totalBlocks - used)) := by
  have hbs := hgood.superblock
  have hoff : countOff layout + 2 ≤ image.length := by
    rw [countOff]
    split_ifs <;> omega
  have hsmall : stack.length < 256 ^ 2 := by
    have hshort := hchain.short
    rw [Layout.limit] at hshort
    split_ifs at hshort <;> omega
  have hcount := unpackNumber_window hsuper.count hsmall hoff
  have hentries := numbersAt_entryBytes hsuper.entries fun n hn => width_bound (hchain.small n hn)
  rw [freeBlocks, ← countOff]
  simp only [hcount, Option.bind_eq_bind, Option.bind_some, hentries]
  exact hchain.drains image ⟨rfl, fun _ _ _ _ => rfl⟩ _ (by omega)

/-- The image before the check, from a tree. -/
def written (layout : Layout) (nodes : List Node) : Option (List Placed × Bytes) := do
  let inodeBlocks := ((nodes.map Node.inode).foldr max 0 + layout.perBlock - 1) / layout.perBlock
  let (placed, last, image) ←
    place layout nodes (2 + inodeBlocks) (List.replicate layout.totalBytes 0)
  let image ← writeSuperblock layout (2 + inodeBlocks) last nodes image
  let image ← placed.foldlM (fun image p => writeInode layout p image) image
  return (placed, image)

theorem createImage_eq (layout : Layout) (source : Listing) :
    createImage layout source = (collectTree layout source).bind fun nodes =>
      (written layout nodes).bind fun (placed, image) =>
        (placed.mapM (verifyNode layout image)).map fun _ => image := by
  simp only [createImage, written, Option.bind_eq_bind, Option.bind_assoc, Option.pure_def,
    Option.bind_some, Option.map_eq_bind]
  rfl

/-- Every block of what is written is accounted for, and every node is read back. -/
theorem written_spec {layout : Layout} (hgood : layout.Good) {nodes : List Node}
    {placed : List Placed} {image : Bytes} (hne : nodes ≠ [])
    (hinodes : nodes.map Node.inode = List.range' layout.rootInode nodes.length)
    (h : written layout nodes = some (placed, image)) :
    placed.map Placed.node = nodes ∧
    (∃ dataStart free, Accounted layout nodes image dataStart free) ∧
    ∀ p ∈ placed, ∃ data, p.node.bytes = some data ∧
      inodeFields layout image p.node.inode = some (p.node.mode, data.length, p.blocks) ∧
      (content layout image p.blocks).take data.length = data := by
  simp only [written, Option.bind_eq_bind, Option.bind_eq_some_iff, Prod.exists] at h
  generalize hcount : ((nodes.map Node.inode).foldr max 0 + layout.perBlock - 1) / layout.perBlock
    = count at h
  obtain ⟨placed', last, image₁, hplace, image₂, hsuper, image₃, hwrite, heq⟩ := h
  obtain ⟨rfl, rfl⟩ := Prod.mk.inj (Option.some.inj heq)
  have hbs := hgood.superblock
  have hblocks := hgood.blocks
  have htotal := hgood.total
  have hzeros : (List.replicate layout.totalBytes (0 : UInt8)).length = layout.totalBytes :=
    List.length_replicate
  obtain ⟨hnodes, hle, hlast, hframe₁, hflat, hholds⟩ := place_spec hgood hplace
  have hused : last ≤ layout.totalBlocks := by
    have hmul := hlast hne
    rw [hzeros, ← htotal] at hmul
    exact Nat.le_of_mul_le_mul_right hmul (by omega)
  have hend : last * layout.blockSize ≤ layout.totalBytes := by
    rw [← htotal]
    exact Nat.mul_le_mul_right _ hused
  have hlo : 2 * layout.blockSize ≤ (2 + count) * layout.blockSize :=
    Nat.mul_le_mul_right _ (by omega)
  have hhi : (2 + count) * layout.blockSize ≤ last * layout.blockSize :=
    Nat.mul_le_mul_right _ hle
  have hlen₁ : image₁.length = layout.totalBytes := hframe₁.length.trans hzeros
  -- the numbers of the inodes
  have hroot : 1 ≤ layout.rootInode := by
    rw [hgood.root, Layout.firstInode]
    split_ifs <;> omega
  have hmem : ∀ p ∈ placed', layout.rootInode ≤ p.node.inode ∧
      p.node.inode < layout.rootInode + nodes.length := by
    intro p hp
    have hnode : p.node.inode ∈ nodes.map Node.inode := by
      rw [← hnodes, List.map_map]
      exact List.mem_map.mpr ⟨p, hp, rfl⟩
    rw [hinodes, List.mem_range'_1] at hnode
    exact hnode
  have hcap : layout.rootInode + nodes.length ≤ count * layout.perBlock + 1 := by
    have hpos : 0 < nodes.length := List.length_pos_iff.mpr hne
    have hlargest : layout.rootInode + nodes.length - 1 ∈ nodes.map Node.inode := by
      rw [hinodes, List.mem_range'_1]
      omega
    have hbelow := (le_foldr_max hlargest).trans (le_blocks hgood.perBlock_pos)
    rw [hcount] at hbelow
    omega
  have hslot : ∀ inode, 1 ≤ inode → inode ≤ count * layout.perBlock →
      2 * layout.blockSize ≤ inodeOffset layout inode ∧
        inodeOffset layout inode + layout.inodeSize ≤ (2 + count) * layout.blockSize :=
    fun inode hpos hcapacity => inode_bounds hgood hpos hcapacity
  -- the superblock
  have hlastZero : last < layout.totalBlocks →
      image₁.slice ((layout.totalBlocks - 1) * layout.blockSize) 2 = [0, 0] := by
    intro hlt
    have hfrom : last * layout.blockSize ≤ (layout.totalBlocks - 1) * layout.blockSize :=
      Nat.mul_le_mul_right _ (by omega)
    have hto : (layout.totalBlocks - 1 + 1) * layout.blockSize ≤ layout.totalBytes := by
      rw [← htotal]
      exact Nat.mul_le_mul_right _ (by omega)
    rw [Nat.succ_mul] at hto
    rw [hframe₁.same _ _ (.inr hfrom)]
    exact List.slice_replicate 0 (by omega)
  obtain ⟨hkeep₂, hlen₂, stack, hsuperblock, hchain⟩ :=
    writeSuperblock_spec hgood hlen₁ (by omega) hused hlastZero hsuper
  have hslotZero : ∀ inode, 1 ≤ inode → inode ≤ count * layout.perBlock →
      image₂.slice (inodeOffset layout inode) layout.inodeSize
        = List.replicate layout.inodeSize 0 := by
    intro inode hpos hcapacity
    obtain ⟨hfrom, hto⟩ := hslot inode hpos hcapacity
    rw [hkeep₂ _ _ (.inr ⟨hfrom, by omega⟩), hframe₁.same _ _ (.inl hto)]
    exact List.slice_replicate 0 (by omega)
  -- the inodes
  have hnodup : (placed'.map fun p => p.node.inode).Nodup := by
    have hmap : (placed'.map fun p => p.node.inode) = nodes.map Node.inode := by
      rw [← hnodes, List.map_map]
      rfl
    rw [hmap, hinodes]
    exact List.nodup_range'
  obtain ⟨hframe₃, hother, hfields⟩ := writeInodes_spec hgood hnodup
    (fun p hp => hroot.trans (hmem p hp).1) (hused.trans hblocks) (by omega)
    (fun p hp => ⟨image₁, hholds p hp⟩)
    (fun p hp => hslotZero _ (hroot.trans (hmem p hp).1) (by have := hmem p hp; omega))
    (fun p hp => (hslot _ (hroot.trans (hmem p hp).1) (by have := hmem p hp; omega)).2)
    (by rw [hlen₂, hlen₁]; omega) hwrite
  have hlen₃ : image₃.length = layout.totalBytes := hframe₃.length.trans (hlen₂.trans hlen₁)
  have hread : ∀ p ∈ placed', ∃ data, p.node.bytes = some data ∧
      inodeFields layout image₃ p.node.inode = some (p.node.mode, data.length, p.blocks) ∧
      (content layout image₃ p.blocks).take data.length = data := by
    intro p hp
    obtain ⟨data, hbytes, hinode⟩ := hfields p hp
    obtain ⟨data', start, n, hp'⟩ := hholds p hp
    obtain rfl : data = data' := Option.some.inj (hbytes.symm.trans hp'.bytes)
    refine ⟨data, hbytes, hinode, ?_⟩
    have hfrom : (2 + count) * layout.blockSize ≤ start * layout.blockSize :=
      Nat.mul_le_mul_right _ hp'.lo_le
    have hto : start * layout.blockSize + data.length ≤ last * layout.blockSize := by
      have hmul : (start + n) * layout.blockSize ≤ last * layout.blockSize :=
        Nat.mul_le_mul_right _ hp'.le_hi
      have hfits := hp'.fits
      rw [Nat.add_mul] at hmul
      omega
    refine { hp' with stored := ?_ : Holds layout image₃ _ _ p data start n }.content_take
    rw [hframe₃.same _ _ (.inr hfrom), hkeep₂ _ _ (.inr ⟨by omega, hto⟩)]
    exact hp'.stored
  have hsuper₃ : ∀ off n, off + n ≤ 2 * layout.blockSize →
      image₃.slice off n = image₂.slice off n := fun off n hto => hframe₃.same off n (.inl hto)
  have hroom : ∀ k w, k + w ≤ 424 → layout.blockSize + k + w ≤ image₃.length := by
    intro k w hk
    rw [hlen₃]
    omega
  have hfinal : Superblock layout (2 + count) last nodes image₃ stack := by
    have hshort := hchain.short
    have hcountOff : countOff layout + 2 + layout.width * stack.length ≤ 2 * layout.blockSize := by
      rw [countOff, Layout.width]
      rw [Layout.limit] at hshort
      split_ifs at hshort ⊢ <;> omega
    refine ⟨⟨?_, hsuperblock.start.2⟩, ?_, ?_, fun hv6 => ?_, fun hv6 => ?_⟩
    · rw [hsuper₃ _ _ (by omega)]
      exact hsuperblock.start.1
    · rw [hsuper₃ _ _ (by omega)]
      exact hsuperblock.count
    · rw [hsuper₃ _ _ hcountOff]
      exact hsuperblock.entries
    · rw [hsuper₃ _ _ (by omega)]
      exact hsuperblock.free hv6
    · obtain ⟨n, hlt, hn, hslice⟩ := hsuperblock.inodes hv6
      exact ⟨n, hlt, hn, by rw [hsuper₃ _ _ (by omega)]; exact hslice⟩
  have hchain₃ : Chained layout layout.totalBlocks last image₃ stack := by
    refine ⟨hchain.short, hchain.small, hchain.empty, fun image' hagree => ?_⟩
    refine hchain.drains image' (Agree.trans ⟨hframe₃.length, fun off n hoff _ => ?_⟩ hagree)
    exact hframe₃.same off n (.inr (hhi.trans hoff))
  have hfree := freeBlocks_eq hgood hfinal hchain₃ (by rw [hlen₃]; omega)
  refine ⟨hnodes, ⟨2 + count, _, ?_, hfree, fun b hb hbTotal => ?_, fun hv6 => ?_,
    fun node hnode => ?_⟩, hread⟩
  · have hstart := unpackNumber_window hfinal.start.1 hfinal.start.2
      (by have := hroom 0 2 (by omega); omega)
    exact hstart
  · -- the inodes before the root, those of the nodes and those behind them
    rw [Nat.add_sub_cancel_left]
    have hsplit : List.range' 1 (count * layout.perBlock)
        = List.range' 1 (layout.rootInode - 1) ++ (List.range' layout.rootInode nodes.length ++
          List.range' (layout.rootInode + nodes.length)
            (count * layout.perBlock - (layout.rootInode - 1) - nodes.length)) := by
      rw [List.range'_append_1, show layout.rootInode = 1 + (layout.rootInode - 1) by omega,
        Nat.add_sub_cancel_left, List.range'_append_1]
      congr 1
      omega
    have hnone : ∀ inode, 1 ≤ inode → inode ≤ count * layout.perBlock →
        (inode < layout.rootInode ∨ layout.rootInode + nodes.length ≤ inode) →
        inodeBlocks layout image₃ inode = [] := by
      intro inode hpos hcapacity hout
      apply inodeBlocks_zero hgood
      rw [hother inode hpos fun p hp heq => by have := hmem p hp; omega]
      exact hslotZero inode hpos hcapacity
    have hnodesBlocks : (List.range' layout.rootInode nodes.length).flatMap
        (inodeBlocks layout image₃) = List.range' (2 + count) (last - (2 + count)) := by
      rw [← hflat, ← hinodes, ← hnodes, List.map_map, List.flatMap_map]
      refine List.flatMap_congr fun p hp => ?_
      obtain ⟨data, -, hinode, -⟩ := hread p hp
      rw [Function.comp_apply, inodeBlocks, hinode]
    have hbefore : (List.range' 1 (layout.rootInode - 1)).flatMap (inodeBlocks layout image₃)
        = [] := by
      rw [List.flatMap_eq_nil_iff]
      intro inode hinode
      rw [List.mem_range'_1] at hinode
      exact hnone inode hinode.1 (by omega) (.inl (by omega))
    have hafter : (List.range' (layout.rootInode + nodes.length)
        (count * layout.perBlock - (layout.rootInode - 1) - nodes.length)).flatMap
        (inodeBlocks layout image₃) = [] := by
      rw [List.flatMap_eq_nil_iff]
      intro inode hinode
      rw [List.mem_range'_1] at hinode
      exact hnone inode (by omega) (by omega) (.inr hinode.1)
    rw [hsplit, List.flatMap_append, List.flatMap_append, hnodesBlocks, hbefore, hafter,
      List.nil_append, List.append_nil, ← List.count_append]
    have hwhole : List.range' (2 + count) (last - (2 + count)) ++
        List.range' last (layout.totalBlocks - last)
        = List.range' (2 + count) (layout.totalBlocks - (2 + count)) := by
      have happend := @List.range'_append_1 (2 + count) (last - (2 + count))
        (layout.totalBlocks - last)
      rw [show 2 + count + (last - (2 + count)) = last by omega,
        show last - (2 + count) + (layout.totalBlocks - last)
          = layout.totalBlocks - (2 + count) by omega] at happend
      exact happend
    rw [hwhole]
    refine List.count_eq_one_of_mem List.nodup_range' ?_
    rw [List.mem_range'_1]
    omega
  · rw [List.length_range', Nat.add_sub_cancel_left]
    refine ⟨unpackNumber_window (hfinal.free hv6) (by omega) (hroom 418 4 (by omega)), ?_⟩
    obtain ⟨n, hlt, hn, hslice⟩ := hfinal.inodes hv6
    rw [unpackNumber_window hslice hlt (hroom 422 2 (by omega)), hn, Nat.add_sub_cancel_left]
    rw [hgood.root] at hinodes hcap
    rw [length_unallocated hinodes hcap, hinodes, List.Nodup.dedup List.nodup_range',
      List.length_range']
  · rw [← hnodes] at hnode
    obtain ⟨p, hp, rfl⟩ := List.mem_map.mp hnode
    obtain ⟨data, hbytes, hinode, hcontent⟩ := hread p hp
    exact ⟨data, p.blocks, hbytes, hinode, hcontent⟩

/-- The check at the end does not fail. -/
theorem createImage_of_written {layout : Layout} (hlayout : layout ∈ LAYOUTS) {source : Listing}
    {nodes : List Node} {placed : List Placed} {image : Bytes}
    (hnodes : collectTree layout source = some nodes)
    (hwritten : written layout nodes = some (placed, image)) :
    createImage layout source = some image := by
  obtain ⟨hne, hinodes⟩ := collectTree_inodes hnodes
  obtain ⟨-, -, hread⟩ := written_spec (good_of_mem hlayout) hne hinodes hwritten
  have hverify : ∀ p ∈ placed, verifyNode layout image p = some () := by
    intro p hp
    obtain ⟨data, hbytes, hinode, hcontent⟩ := hread p hp
    simp only [verifyNode, hinode, hbytes, hcontent, Option.bind_eq_bind, Option.bind_some,
      ne_eq, not_true_eq_false, and_false, or_self, if_false]
    rfl
  have hall := mapM_eq_some hverify
  simp only [createImage_eq, hnodes, hwritten, Option.bind_some, hall, Option.map_some]

/-! ## An empty tree -/

theorem packNumber_of_room {image : Bytes} {off width n : Nat}
    (hroom : off + width ≤ image.length) (hn : n < 256 ^ width) :
    ∃ image', packNumber image off width n = some image' ∧ image'.length = image.length := by
  have hlen : off + (leBytes width n).length ≤ image.length := by rwa [length_leBytes]
  refine ⟨image.splice off (leBytes width n), ?_, List.length_splice hlen⟩
  rw [packNumber, packLe_eq_some.mpr ⟨hn, rfl⟩]
  exact packInto_eq_some.mpr ⟨hlen, rfl⟩

theorem packNumbers_of_room {image : Bytes} {off width : Nat} {numbers : List Nat}
    (hroom : off + width * numbers.length ≤ image.length) (hn : ∀ n ∈ numbers, n < 256 ^ width) :
    ∃ image', packNumbers image off width numbers = some image' ∧
      image'.length = image.length := by
  induction numbers generalizing image off with
  | nil => exact ⟨image, rfl, rfl⟩
  | cons n numbers ih =>
      rw [List.forall_mem_cons] at hn
      rw [List.length_cons, Nat.mul_succ] at hroom
      obtain ⟨image₁, hfirst, hlen₁⟩ :=
        packNumber_of_room (show off + width ≤ image.length by omega) hn.1
      have hnext : off + width + width * numbers.length ≤ image₁.length := by omega
      obtain ⟨image', hrest, hlen⟩ := ih hnext hn.2
      refine ⟨image', ?_, hlen.trans hlen₁⟩
      rw [packNumbers, hfirst]
      exact hrest

/-- The superblock of a V6 image is written. -/
theorem writeSuperblock_v6 (dataStart : Nat) {used : Nat} (nodes : List Node) {image : Bytes}
    (hlen : image.length = v6Layout.totalBytes) (hused : used ≤ v6Layout.totalBlocks)
    (hzero : used < v6Layout.totalBlocks →
      image.slice ((v6Layout.totalBlocks - 1) * v6Layout.blockSize) 2 = [0, 0])
    (hdata : dataStart ≤ 2048) :
    ∃ image', writeSuperblock v6Layout dataStart used nodes image = some image' ∧
      image'.length = image.length := by
  have hgood : v6Layout.Good := good_of_mem (by simp [LAYOUTS])
  have hblocks : image.length / v6Layout.blockSize = 2048 := by
    rw [hlen]
    rfl
  obtain ⟨hframe₀, hchain⟩ := writeFreeBlocks_spec hgood hlen hused hzero
  simp only [writeSuperblock, hblocks]
  generalize writeFreeBlocks v6Layout image used = s at hframe₀ hchain
  obtain ⟨image₀, stack⟩ := s
  have hcapacity : (dataStart - 2) * v6Layout.perBlock ≤ 2048 * 16 :=
    Nat.mul_le_mul (by omega) (le_refl _)
  have hfreeInodes : ∀ n ∈ (unallocated v6Layout ((dataStart - 2) * v6Layout.perBlock)
      nodes).take 100, n < 256 ^ 2 := by
    intro n hn
    have hmem := (List.mem_filter.mp (List.mem_of_mem_take hn)).1
    rw [List.mem_range'_1, Layout.firstInode, v6Layout, if_pos rfl] at hmem
    simp only [v6Layout] at hcapacity
    omega
  have hfreeCount : ((unallocated v6Layout ((dataStart - 2) * v6Layout.perBlock)
      nodes).take 100).length ≤ 100 := by
    rw [List.length_take]
    omega
  generalize (unallocated v6Layout ((dataStart - 2) * v6Layout.perBlock) nodes).take 100 = inodes
    at hfreeInodes hfreeCount
  have hshort : stack.length ≤ 100 := hchain.short
  have hbytes : v6Layout.totalBytes = 1048576 := rfl
  have hsize : v6Layout.blockSize = 512 := rfl
  have hlen₀ : image₀.length = 1048576 := hframe₀.length.trans hlen
  rw [hsize]
  obtain ⟨image₁, h₁, l₁⟩ := packNumber_of_room
    (show 512 + 2 ≤ image₀.length by omega) (show dataStart < 256 ^ 2 by omega)
  obtain ⟨image₂, h₂, l₂⟩ := packNumber_of_room
    (show 512 + 2 + 2 ≤ image₁.length by omega) (show 2048 < 256 ^ 2 by omega)
  obtain ⟨image₃, h₃, l₃⟩ := packNumber_of_room
    (show 512 + 4 + 2 ≤ image₂.length by omega) (show stack.length < 256 ^ 2 by omega)
  obtain ⟨image₄, h₄, l₄⟩ := packNumbers_of_room
    (show 512 + 6 + 2 * stack.length ≤ image₃.length by omega) fun n hn => hchain.small n hn
  obtain ⟨image₅, h₅, l₅⟩ := packNumber_of_room
    (show 512 + 206 + 2 ≤ image₄.length by omega) (show inodes.length < 256 ^ 2 by omega)
  obtain ⟨image₆, h₆, l₆⟩ := packNumbers_of_room
    (show 512 + 208 + 2 * inodes.length ≤ image₅.length by omega) hfreeInodes
  have hv6 : v6Layout.v6 = true := rfl
  refine ⟨image₆, ?_, by omega⟩
  simp only [h₁, h₂, h₃, h₄, h₅, h₆, hv6, if_true, Option.bind_eq_bind, Option.bind_some]

/-- The node of an empty tree. -/
def emptyRoot : Node := ⟨[], 1, 1, 0o140755, [], [], true⟩

/-- Its directory: the entries `.` and `..`. -/
def emptyDirectory : Bytes :=
  [1, 0, 0x2e] ++ List.replicate 13 0 ++ [1, 0, 0x2e, 0x2e] ++ List.replicate 12 0

theorem bytes_emptyRoot : emptyRoot.bytes = some emptyDirectory := by decide

/-- The directory takes block 3. -/
theorem place_emptyRoot {image : Bytes} (hlen : image.length = 1048576) :
    place v6Layout [emptyRoot] 3 image
      = some ([⟨emptyRoot, [3]⟩], 4, writeChunks v6Layout 1 3 emptyDirectory image) := by
  have hcount : max 1 ((emptyDirectory.length + v6Layout.blockSize - 1) / v6Layout.blockSize)
      = 1 := by decide
  simp only [place, bytes_emptyRoot, hcount, hlen, Option.bind_eq_bind, Option.bind_some]
  rw [if_neg (by decide), if_neg (by decide)]
  rfl

/-- The inode of the directory is written. -/
theorem writeInode_emptyRoot {image : Bytes} (hlen : image.length = 1048576) :
    ∃ image', writeInode v6Layout ⟨emptyRoot, [3]⟩ image = some image' := by
  have hoffset : inodeOffset v6Layout emptyRoot.inode = 1024 := by decide
  have hmode : packLe 2 emptyRoot.mode = some (leBytes 2 emptyRoot.mode) := by decide
  have hlinks : packLe 1 2 = some (leBytes 1 2) := by decide
  have hhigh : packLe 1 (emptyDirectory.length >>> 16)
      = some (leBytes 1 (emptyDirectory.length >>> 16)) := by decide
  have hlow : packLe 2 (emptyDirectory.length &&& 0xffff)
      = some (leBytes 2 (emptyDirectory.length &&& 0xffff)) := by decide
  have hdirectory : emptyRoot.isDirectory = true := rfl
  have hcount : 2 + emptyRoot.children.countP Child.isDirectory = 2 := rfl
  have hv6 : v6Layout.v6 = true := rfl
  set header := leBytes 2 emptyRoot.mode ++ leBytes 1 2 ++ ([0, 0] : Bytes) ++
    leBytes 1 (emptyDirectory.length >>> 16) ++ leBytes 2 (emptyDirectory.length &&& 0xffff)
    with hheader
  have height : header.length = 8 := rfl
  have hroom : 1024 + header.length ≤ image.length := by omega
  have hlen' := List.length_splice hroom
  have hblocks : 1024 + 8 + 2 * [3].length ≤ (image.splice 1024 header).length := by
    rw [hlen', hlen]
    decide
  obtain ⟨image', hnumbers, -⟩ :=
    packNumbers_of_room hblocks (show ∀ n ∈ [3], n < 256 ^ 2 by decide)
  refine ⟨image', ?_⟩
  simp only [writeInode, hoffset, bytes_emptyRoot, hmode, hdirectory, hcount, if_true, hv6, hlinks,
    hhigh, hlow, Option.bind_eq_bind, Option.bind_some]
  rw [if_neg (by decide), ← hheader, packInto_eq_some.mpr ⟨hroom, rfl⟩, Option.bind_some,
    if_neg (by decide), hnumbers]

theorem written_of_steps {layout : Layout} {nodes : List Node} {count last : Nat}
    {placed : List Placed} {image₁ image₂ image₃ : Bytes}
    (hcount : ((nodes.map Node.inode).foldr max 0 + layout.perBlock - 1) / layout.perBlock = count)
    (hplace : place layout nodes (2 + count) (List.replicate layout.totalBytes 0)
      = some (placed, last, image₁))
    (hsuper : writeSuperblock layout (2 + count) last nodes image₁ = some image₂)
    (hwrite : placed.foldlM (fun image p => writeInode layout p image) image₂ = some image₃) :
    written layout nodes = some (placed, image₃) := by
  subst hcount
  simp only [written, hplace, hsuper, hwrite, Option.bind_eq_bind, Option.bind_some]
  rfl

/-- An empty tree becomes an image. -/
theorem empty_written : ∃ placed image, written v6Layout [emptyRoot] = some (placed, image) := by
  have hgood : v6Layout.Good := good_of_mem (by simp [LAYOUTS])
  have hzeros : (List.replicate v6Layout.totalBytes (0 : UInt8)).length = 1048576 :=
    List.length_replicate
  have hplace := place_emptyRoot hzeros
  obtain ⟨-, -, -, hframe, -, -⟩ := place_spec hgood hplace
  generalize writeChunks v6Layout 1 3 emptyDirectory (List.replicate v6Layout.totalBytes 0) = image₁
    at hplace hframe
  have hlen₁ : image₁.length = v6Layout.totalBytes := hframe.length.trans hzeros
  have hlast : image₁.slice ((v6Layout.totalBlocks - 1) * v6Layout.blockSize) 2 = [0, 0] := by
    rw [hframe.same _ _ (.inr (by decide))]
    exact List.slice_replicate 0 (by decide)
  obtain ⟨image₂, hsuper, hlen₂⟩ := writeSuperblock_v6 3 [emptyRoot] hlen₁
    (show 4 ≤ v6Layout.totalBlocks by decide) (fun _ => hlast) (by omega)
  obtain ⟨image₃, hinode⟩ := writeInode_emptyRoot (hlen₂.trans hlen₁)
  have hblocks : (([emptyRoot].map Node.inode).foldr max 0 + v6Layout.perBlock - 1)
      / v6Layout.perBlock = 1 := by decide
  have hwrite : [Placed.mk emptyRoot [3]].foldlM
      (fun image p => writeInode v6Layout p image) image₂ = some image₃ := by
    rw [List.foldlM_cons, hinode]
    rfl
  exact ⟨_, image₃, written_of_steps hblocks hplace hsuper hwrite⟩

/-! ## Every image -/

end Mountin.ResearchUnix
