import Mountin.Basic.Dict
import Mountin.Basic.Footprint
import Mountin.Basic.Restrict
import Mountin.Disk.Tracks
import Mountin.Fs.Fields

set_option autoImplicit false

/-! # HP LIF volumes

`mkhplif.py`: the files follow each other in whole blocks behind the directory, an entry says where
a file begins and how many blocks it has, and the writer reads the volume back before it writes it out.
`written_iff`: a volume is written exactly when its files fit and none of them is empty. An empty file
has one block, but the writer expects none of it.
-/

namespace Mountin.HpLif

open Volume Tracks

def BLOCK : Nat := 256
def MAGIC : Nat := 0x8000
def LIF_ID : Nat := 0x1000
def LIF_VERSION : Nat := 1
def DIR_START : Nat := 2
def DIR_BLOCKS : Nat := 14
def DATA_START : Nat := DIR_START + DIR_BLOCKS
def TOTAL_BLOCKS : Nat := 1056
def IMAGE_SIZE : Nat := TOTAL_BLOCKS * BLOCK
def ENTRY_LEN : Nat := 32
def ENTRIES_PER_BLOCK : Nat := BLOCK / ENTRY_LEN
def MAX_ENTRIES : Nat := DIR_BLOCKS * ENTRIES_PER_BLOCK
def TYPE_END : Nat := 0xffff
def TYPE_FREE : Nat := 0x0000
def FILE_TYPE : Nat := 0xe020
def VOLUME_NUMBER : Nat := 0x8001

/-- `VOLUME_LABEL`, `QMOUNT` in ASCII. -/
def VOLUME_LABEL : Bytes := [0x51, 0x4d, 0x4f, 0x55, 0x4e, 0x54]

/-- What the script raises. `names` would be a search for a name that finds none in `NAMES` steps,
which does not happen (`lifName_found`). -/
inductive Error
  | directoryFull
  | volumeFull
  | encode
  | names
  | roundTrip
deriving DecidableEq, Repr

/-! ## The writer -/

/-- An entry of `LifVolume`. -/
structure Entry where
  name : Name
  start : Nat
  count : Nat

/-- `LifVolume`. -/
structure LifVolume where
  image : Bytes
  entries : List Entry
  nextBlock : Nat

/-- `LifVolume()`. -/
def LifVolume.new : LifVolume := ⟨List.replicate IMAGE_SIZE 0, [], DATA_START⟩

/-- `max(1, math.ceil(n / BLOCK))`. -/
def blocksFor (n : Nat) : Nat := max 1 ((n + BLOCK - 1) / BLOCK)

/-- `add_file`. -/
def LifVolume.addFile (v : LifVolume) (name : Name) (data : Bytes) : Except Error LifVolume :=
  if MAX_ENTRIES - 1 ≤ v.entries.length then .error .directoryFull
  else if TOTAL_BLOCKS < v.nextBlock + blocksFor data.length then .error .volumeFull
  else .ok ⟨v.image.splice (v.nextBlock * BLOCK) data,
    v.entries ++ [⟨name, v.nextBlock, blocksFor data.length⟩],
    v.nextBlock + blocksFor data.length⟩

/-- What `_write_header` writes. -/
def headerWrites : List (Nat × Bytes) :=
  [(0, beBytes 2 MAGIC), (2, VOLUME_LABEL), (8, beBytes 4 DIR_START), (12, beBytes 2 LIF_ID),
    (16, beBytes 4 DIR_BLOCKS), (20, beBytes 2 LIF_VERSION)]

/-- Where an entry of the directory stands. -/
def entryOff (k : Nat) : Nat := DIR_START * BLOCK + k * ENTRY_LEN

/-- The bytes of an entry. -/
def entryBytes (e : Entry) : Except Error Bytes :=
  match encodeAscii (ljust e.name 10) with
  | none => .error .encode
  | some name => .ok ((List.replicate ENTRY_LEN 0).splices
      [(0, name.take 10), (10, beBytes 2 FILE_TYPE), (12, beBytes 4 e.start), (16, beBytes 4 e.count),
        (26, beBytes 2 VOLUME_NUMBER)])

/-- The loop of `_write_dir` over the entries from `k` on. -/
def writeEntries : List Entry → Nat → Bytes → Except Error Bytes
  | [], _, image => .ok image
  | e :: rest, k, image => do
      let b ← entryBytes e
      writeEntries rest (k + 1) (image.splice (entryOff k) b)

/-- `build`. -/
def LifVolume.build (v : LifVolume) : Except Error Bytes := do
  let image ← writeEntries v.entries 0 (v.image.splices headerWrites)
  return image.splice (entryOff v.entries.length + 10) (beBytes 2 TYPE_END)

/-! ## Names -/

/-- `str.upper` and `str.isalnum`, of which only the letters and digits of ASCII are fixed. -/
structure HostText where
  upper : Name → Name
  isalnum : Char → Bool
  isalnum_ascii : ∀ c : Char, c.toNat < 128 → isalnum c = c.isAlphanum

/-- `str(n)`. -/
def decimal (n : Nat) : Name := Nat.toDigits 10 n

/-- The stem of `lif_name` behind `os.path.basename`, or `FILE`. -/
def lifStem (t : HostText) (base : Name) : Name :=
  let stem := (t.upper (splitExt base).1).filter t.isalnum
  if stem = [] then ['F', 'I', 'L', 'E'] else stem

/-- The loop of `lif_name`. -/
def numbered (stem : Name) (used : List Name) : Nat → Nat → Except Error Name
  | 0, _ => .error .names
  | fuel + 1, n =>
      let name := stem.take (10 - (decimal n).length) ++ decimal n
      if used.contains name then numbered stem used fuel (n + 1) else .ok name

/-- The numbers that are tried: more than a volume has entries. -/
def NAMES : Nat := 999

/-- `lif_name`. -/
def lifName (t : HostText) (base : Name) (used : List Name) : Except Error Name :=
  let stem := lifStem t base
  if used.contains (stem.take 10) then numbered stem used NAMES 1 else .ok (stem.take 10)

/-- A regular file of the source directory, by its base name. -/
structure HostFile where
  base : Name
  data : Bytes

/-- `data + bytes(-len(data) % BLOCK)`. -/
def padded (data : Bytes) : Bytes :=
  data ++ List.replicate ((BLOCK - data.length % BLOCK) % BLOCK) 0

/-- `build_tree` on the files in the order of the walk. -/
def buildTree (t : HostText) : List HostFile → List Name → Dict Name Bytes → LifVolume →
    Except Error (LifVolume × Dict Name Bytes)
  | [], _, expected, v => .ok (v, expected)
  | f :: files, used, expected, v => do
      let name ← lifName t f.base used
      let v ← v.addFile name f.data
      buildTree t files (name :: used) (expected.set name (padded f.data)) v

/-! ## The reader -/

/-- `struct.unpack_from` of a number. -/
def unpackFrom (width : Nat) (image : Bytes) (off : Nat) : Option Nat :=
  if off + width ≤ image.length then some (beField image off width) else none

/-- The loop of `extract` over the slots that are left. -/
def extractSlots (image : Bytes) (dirStart : Nat) : Nat → Nat → Dict Name Bytes →
    Option (Dict Name Bytes)
  | 0, _, out => some out
  | left + 1, k, out => do
      let off := dirStart * BLOCK + k * ENTRY_LEN
      let ftype ← unpackFrom 2 image (off + 10)
      if ftype = TYPE_END then return out
      else if ftype = TYPE_FREE then extractSlots image dirStart left (k + 1) out
      else do
        let name ← decodeAscii (image.slice off 10)
        let start ← unpackFrom 4 image (off + 12)
        let count ← unpackFrom 4 image (off + 16)
        extractSlots image dirStart left (k + 1)
          (out.set (rstrip name) (image.slice (start * BLOCK) (count * BLOCK)))

/-- `extract`, `none` when it raises. -/
def extract (image : Bytes) : Option (Dict Name Bytes) := do
  let magic ← unpackFrom 2 image 0
  if magic ≠ MAGIC then none
  else do
    let dirStart ← unpackFrom 4 image 8
    let dirBlocks ← unpackFrom 4 image 16
    extractSlots image dirStart (dirBlocks * ENTRIES_PER_BLOCK) 0 []

/-- `got == expected`. -/
def sameFiles (got expected : Dict Name Bytes) : Bool :=
  decide (got.length = expected.length) && expected.all fun e => got.get? e.1 == some e.2

/-- `main` before it verifies the volume. -/
def layOut (t : HostText) (files : List HostFile) : Except Error (Bytes × Dict Name Bytes) := do
  let (v, expected) ← buildTree t files [] [] LifVolume.new
  let image ← v.build
  return (image, expected)

/-- `main`: the image that it writes. -/
def createImage (t : HostText) (files : List HostFile) : Except Error Bytes := do
  let (image, expected) ← layOut t files
  match extract image with
  | none => .error .roundTrip
  | some got => if sameFiles got expected then .ok image else .error .roundTrip

theorem bind_ok {α β : Type} {x : Except Error α} {f : α → Except Error β} {b : β} :
    (x >>= f) = .ok b ↔ ∃ a, x = .ok a ∧ f a = .ok b := by
  cases x <;> simp [bind, Except.bind]

/-! ## Names that fit -/

/-- The name with a number behind it. -/
def candidate (stem : Name) (n : Nat) : Name := stem.take (10 - (decimal n).length) ++ decimal n

/-- What `str` of a number says. -/
def value (s : Name) : Nat := s.foldl (fun acc c => acc * 10 + (c.toNat - 48)) 0

theorem decimal_spec : ∀ n < 1000, value (decimal n) = n ∧ (decimal n).length ≤ 10 ∧
    (100 ≤ n → (decimal n).length = 3) := by
  decide +kernel

theorem numbered_eq_ok {stem name : Name} {used : List Name} {fuel n : Nat}
    (h : numbered stem used fuel n = .ok name) :
    name ∉ used ∧ ∃ k < n + fuel, name = candidate stem k := by
  induction fuel generalizing n with
  | zero => cases h
  | succ fuel ih =>
      rw [numbered] at h
      split_ifs at h with hmem
      · obtain ⟨hnew, k, hk, hname⟩ := ih h
        exact ⟨hnew, k, by omega, hname⟩
      · obtain rfl := Except.ok.inj h
        exact ⟨fun hused => hmem (List.contains_iff_mem.mpr hused), n, by omega, rfl⟩

theorem numbered_eq_error {stem : Name} {used : List Name} {e : Error} {fuel n : Nat}
    (h : numbered stem used fuel n = .error e) : ∀ k, n ≤ k → k < n + fuel → candidate stem k ∈ used := by
  induction fuel generalizing n with
  | zero => exact fun k hlo hhi => absurd hhi (by omega)
  | succ fuel ih =>
      intro k hlo hhi
      rw [numbered] at h
      split_ifs at h with hmem
      rcases Nat.eq_or_lt_of_le hlo with rfl | hlt
      · exact List.contains_iff_mem.mp hmem
      · exact ih h k hlt (by omega)

theorem candidate_inj {stem : Name} {m n : Nat} (hm : 100 ≤ m ∧ m < 1000) (hn : 100 ≤ n ∧ n < 1000)
    (h : candidate stem m = candidate stem n) : m = n := by
  obtain ⟨hvm, -, hlm⟩ := decimal_spec m hm.2
  obtain ⟨hvn, -, hln⟩ := decimal_spec n hn.2
  rw [candidate, candidate, hlm hm.1, hln hn.1] at h
  rw [← hvm, ← hvn, List.append_cancel_left h]

/-- The search for a name always finds one. -/
theorem lifName_found (t : HostText) (base : Name) {used : List Name} (hfew : used.length < 900) :
    ∃ name, lifName t base used = .ok name := by
  unfold lifName
  dsimp only
  split_ifs with hmem
  · cases hres : numbered (lifStem t base) used NAMES 1 with
    | ok name => exact ⟨name, rfl⟩
    | error e =>
        -- the names with three digits would all be used
        have hall := numbered_eq_error hres
        have hnodup : ((List.range' 100 900).map (candidate (lifStem t base))).Nodup :=
          List.Nodup.map_on (fun m hm n hn heq => by
            rw [List.mem_range'_1] at hm hn
            exact candidate_inj (by omega) (by omega) heq) List.nodup_range'
        have hsub : (List.range' 100 900).map (candidate (lifStem t base)) ⊆ used := fun name hname => by
          obtain ⟨k, hk, rfl⟩ := List.mem_map.mp hname
          rw [List.mem_range'_1] at hk
          exact hall k (by omega) (by simp only [NAMES]; omega)
        have hle := (hnodup.subperm hsub).length_le
        rw [List.length_map, List.length_range'] at hle
        omega
  · exact ⟨_, rfl⟩

/-- A name that fits its field. -/
structure NameOk (name : Name) : Prop where
  short : name.length ≤ 10
  blank : ∀ c ∈ name, isBlank c = false

theorem alnum_file {c : Char} (h : c ∈ ['F', 'I', 'L', 'E']) : c.isAlphanum = true := by
  simp only [List.mem_cons, List.not_mem_nil, or_false] at h
  rcases h with rfl | rfl | rfl | rfl <;> rfl

theorem lifStem_alnum (t : HostText) (base : Name) :
    ∀ c ∈ lifStem t base, c.toNat < 128 → c.isAlphanum = true := by
  intro c hc hlt
  unfold lifStem at hc
  dsimp only at hc
  split_ifs at hc
  · exact alnum_file hc
  · rw [← t.isalnum_ascii c hlt]
    exact (List.mem_filter.mp hc).2

theorem lifName_spec {t : HostText} {base name : Name} {used : List Name}
    (h : lifName t base used = .ok name) : name ∉ used ∧ NameOk name := by
  have hstem := lifStem_alnum t base
  unfold lifName at h
  dsimp only at h
  split_ifs at h with hmem
  · obtain ⟨hnew, k, hk, rfl⟩ := numbered_eq_ok h
    obtain ⟨-, hlen, -⟩ := decimal_spec k (by simp only [NAMES] at hk; omega)
    refine ⟨hnew, ?_, isBlank_of_alnum fun c hc hlt => ?_⟩
    · have htake := List.length_take_le (10 - (decimal k).length) (lifStem t base)
      rw [candidate, List.length_append]
      omega
    · rcases List.mem_append.mp hc with hc | hc
      · exact hstem c (List.mem_of_mem_take hc) hlt
      · have hdigit : c.isDigit = true := Nat.isDigit_of_mem_toDigits (by omega) (by omega) hc
        rw [Char.isAlphanum, hdigit, Bool.or_true]
  · obtain rfl := Except.ok.inj h
    exact ⟨fun hused => hmem (List.contains_iff_mem.mpr hused), List.length_take_le _ _,
      isBlank_of_alnum fun c hc => hstem c (List.mem_of_mem_take hc)⟩

/-! ## What is laid down -/

/-- The entries of some files, from a block on. -/
def Placed : Nat → List HostFile → List Entry → Prop
  | next, [], [] => next ≤ TOTAL_BLOCKS
  | next, f :: files, e :: entries =>
      e.start = next ∧ e.count = blocksFor f.data.length ∧ next + e.count ≤ TOTAL_BLOCKS ∧
        NameOk e.name ∧ Placed (next + e.count) files entries
  | _, _, _ => False

/-- Where the data of some files are written. -/
def dataWrites (files : List HostFile) (entries : List Entry) : List (Nat × Bytes) :=
  List.zipWith (fun f e => (e.start * BLOCK, f.data)) files entries

/-- What is expected of some files. -/
def expectedOf (files : List HostFile) (entries : List Entry) : Dict Name Bytes :=
  List.zipWith (fun f e => (e.name, padded f.data)) files entries

/-- What `build_tree` has done. -/
structure Filled (v v' : LifVolume) (used : List Name) (files : List HostFile) (entries : List Entry) :
    Prop where
  entries_eq : v'.entries = v.entries ++ entries
  image_eq : v'.image = v.image.splices (dataWrites files entries)
  placed : Placed v.nextBlock files entries
  few : v.entries.length + entries.length < MAX_ENTRIES
  nodup : (entries.map Entry.name).Nodup
  fresh : ∀ e ∈ entries, e.name ∉ used

theorem buildTree_spec {t : HostText} {files : List HostFile} {used : List Name}
    {expected expected' : Dict Name Bytes} {v v' : LifVolume} (hnext : v.nextBlock ≤ TOTAL_BLOCKS)
    (hfew : v.entries.length < MAX_ENTRIES)
    (h : buildTree t files used expected v = .ok (v', expected')) :
    ∃ entries, Filled v v' used files entries ∧
      expected' = Dict.update expected (expectedOf files entries) := by
  induction files generalizing used expected v with
  | nil =>
      obtain ⟨rfl, rfl⟩ := Prod.mk.inj (Except.ok.inj h)
      exact ⟨[], ⟨(List.append_nil _).symm, rfl, hnext, hfew, List.nodup_nil, by simp⟩, rfl⟩
  | cons f files ih =>
      obtain ⟨name, hname, hrest⟩ := bind_ok.mp h
      obtain ⟨v₁, hadd, hrest⟩ := bind_ok.mp hrest
      obtain ⟨hnew, hok⟩ := lifName_spec hname
      unfold LifVolume.addFile at hadd
      split_ifs at hadd with hfull hroom
      obtain rfl := Except.ok.inj hadd
      obtain ⟨entries, hfilled, hexpected⟩ := ih (Nat.le_of_not_lt hroom) (by
        rw [List.length_append, List.length_singleton]
        omega) hrest
      obtain ⟨h1, h2, h3, h4, h5, h6⟩ := hfilled
      refine ⟨⟨name, v.nextBlock, blocksFor f.data.length⟩ :: entries, ⟨?_, ?_, ?_, ?_, ?_, ?_⟩,
        hexpected⟩
      · rw [h1, List.append_assoc]
        rfl
      · exact h2
      · exact ⟨rfl, rfl, Nat.le_of_not_lt hroom, hok, h3⟩
      · rw [List.length_append, List.length_singleton] at h4
        rw [List.length_cons]
        omega
      · refine List.nodup_cons.mpr ⟨fun hmem => ?_, h5⟩
        obtain ⟨e, he, heq⟩ := List.mem_map.mp hmem
        exact h6 e he (heq ▸ List.mem_cons_self)
      · rw [List.forall_mem_cons]
        exact ⟨hnew, fun e he hmem => h6 e he (List.mem_cons_of_mem _ hmem)⟩

/-! ## The directory -/

/-- What an entry says. -/
structure EntryIs (e : Entry) (b : Bytes) : Prop where
  length : b.length = ENTRY_LEN
  name : decodeAscii (b.slice 0 10) = some ((ljust e.name 10).take 10)
  type_eq : b.slice 10 2 = beBytes 2 FILE_TYPE
  start : b.slice 12 4 = beBytes 4 e.start
  count : b.slice 16 4 = beBytes 4 e.count

theorem entryBytes_spec {e : Entry} {b : Bytes} (h : entryBytes e = .ok b) : EntryIs e b := by
  unfold entryBytes at h
  split at h
  · cases h
  · rename_i name hname
    obtain rfl := Except.ok.inj h
    obtain ⟨hlen, hdecode⟩ := decode_encode hname 10
    have htake : (name.take 10).length = 10 := by
      have hle := length_ljust e.name 10
      rw [List.length_take, hlen]
      omega
    obtain ⟨hlength, hthere, -⟩ := @List.splices_spec UInt8 (List.replicate ENTRY_LEN 0)
      [(0, name.take 10), (10, beBytes 2 FILE_TYPE), (12, beBytes 4 e.start),
        (16, beBytes 4 e.count), (26, beBytes 2 VOLUME_NUMBER)]
      (by simp only [List.forall_mem_cons, List.not_mem_nil, IsEmpty.forall_iff, implies_true, and_true,
            htake, length_beBytes, List.length_replicate, ENTRY_LEN]
          omega)
      (by simp only [List.pairwise_cons, List.forall_mem_cons, List.not_mem_nil, IsEmpty.forall_iff,
            implies_true, and_true, List.Pairwise.nil, htake, length_beBytes]
          omega)
    simp only [List.forall_mem_cons, List.not_mem_nil, IsEmpty.forall_iff, implies_true, and_true,
      htake, length_beBytes] at hthere
    obtain ⟨h1, h2, h3, h4, -⟩ := hthere
    refine ⟨hlength.trans List.length_replicate, ?_, h2, h3, h4⟩
    rw [h1]
    exact hdecode

/-- Where the entries are written. -/
def slotWrites : Nat → List Bytes → List (Nat × Bytes)
  | _, [] => []
  | k, b :: bs => (entryOff k, b) :: slotWrites (k + 1) bs

theorem writeEntries_spec {entries : List Entry} {k : Nat} {image image' : Bytes}
    (h : writeEntries entries k image = .ok image') :
    ∃ bs, List.Forall₂ EntryIs entries bs ∧ image' = image.splices (slotWrites k bs) := by
  induction entries generalizing k image with
  | nil => exact ⟨[], .nil, (Except.ok.inj h).symm⟩
  | cons e entries ih =>
      obtain ⟨b, hb, hrest⟩ := bind_ok.mp h
      obtain ⟨bs, hbs, heq⟩ := ih hrest
      exact ⟨b :: bs, .cons (entryBytes_spec hb) hbs, heq⟩

theorem slotWrites_spec {entries : List Entry} {bs : List Bytes} (k : Nat)
    (h : List.Forall₂ EntryIs entries bs) :
    Between (entryOff k) (entryOff (k + entries.length)) (slotWrites k bs) ∧
      ∀ i e, entries[i]? = some e → ∃ b, EntryIs e b ∧ (entryOff (k + i), b) ∈ slotWrites k bs := by
  induction h generalizing k with
  | nil => exact ⟨.nil _ _, fun i e hi => by cases hi⟩
  | @cons e b entries bs hb _ ih =>
      obtain ⟨hrest, hthere⟩ := ih (k + 1)
      have hlen := hb.length
      refine ⟨?_, fun i e' hi => ?_⟩
      · have hmid : entryOff k + b.length ≤ entryOff (k + 1) := by
          simp only [hlen, entryOff, ENTRY_LEN]
          omega
        rw [List.length_cons, show k + (entries.length + 1) = k + 1 + entries.length by omega]
        exact (Between.single (Nat.le_refl _) hmid).append hrest
          (by simp only [entryOff, ENTRY_LEN]; omega) (by simp only [entryOff, ENTRY_LEN]; omega)
      · cases i with
        | zero =>
            obtain rfl := Option.some.inj hi
            exact ⟨b, hb, List.mem_cons_self⟩
        | succ i =>
            obtain ⟨b', hb', hmem⟩ := hthere i e' hi
            refine ⟨b', hb', List.mem_cons_of_mem _ ?_⟩
            rwa [show k + (i + 1) = k + 1 + i by omega]

/-! ## The data -/

/-- What the blocks of a file hold. -/
def stored (data : Bytes) : Bytes :=
  data ++ List.replicate (blocksFor data.length * BLOCK - data.length) 0

theorem blocksFor_enough (n : Nat) : n ≤ blocksFor n * BLOCK := by
  simp only [blocksFor, BLOCK]
  omega

theorem length_stored (data : Bytes) : (stored data).length = blocksFor data.length * BLOCK := by
  have hle := blocksFor_enough data.length
  rw [stored, List.length_append, List.length_replicate]
  omega

theorem Placed.writes {next : Nat} {files : List HostFile} {entries : List Entry}
    (h : Placed next files entries) :
    Between (next * BLOCK) IMAGE_SIZE (dataWrites files entries) := by
  induction files generalizing next entries with
  | nil => exact .nil _ _
  | cons f files ih =>
      cases entries with
      | nil => exact h.elim
      | cons e entries =>
          obtain ⟨rfl, hcount, hroom, -, hrest⟩ := h
          have henough := blocksFor_enough f.data.length
          rw [← hcount] at henough
          have hmid : e.start * BLOCK + f.data.length ≤ (e.start + e.count) * BLOCK := by
            rw [Nat.add_mul]
            omega
          exact (Between.single (Nat.le_refl _) hmid).append (ih hrest)
            (Nat.mul_le_mul_right _ (Nat.le_add_right _ _)) (Nat.mul_le_mul_right _ hroom)

/-- The blocks of each file hold its data, and nothing behind them. -/
theorem Placed.read {next : Nat} {files : List HostFile} {entries : List Entry} {image : Bytes}
    (h : Placed next files entries)
    (hthere : ∀ w ∈ dataWrites files entries, image.slice w.1 w.2.length = w.2)
    (hzero : ∀ i, next * BLOCK ≤ i → i < IMAGE_SIZE →
      (∀ w ∈ dataWrites files entries, i ∉ cells w.1 w.2.length) → image[i]? = some 0)
    {k : Nat} {f : HostFile} {e : Entry} (hf : files[k]? = some f) (he : entries[k]? = some e) :
    NameOk e.name ∧ e.start + e.count ≤ TOTAL_BLOCKS ∧
      image.slice (e.start * BLOCK) (e.count * BLOCK) = stored f.data := by
  induction files generalizing next entries k with
  | nil => cases hf
  | cons f₀ files ih =>
      cases entries with
      | nil => cases he
      | cons e₀ entries =>
          obtain ⟨hstart, hcount, hroom, hname, hrest⟩ := h
          obtain ⟨hin, -⟩ := hrest.writes
          have henough := blocksFor_enough f₀.data.length
          rw [← hcount] at henough
          rw [dataWrites, List.zipWith_cons_cons, List.forall_mem_cons] at hthere
          rw [dataWrites, List.zipWith_cons_cons] at hzero
          cases k with
          | succ k =>
              refine ih hrest hthere.2 (fun i hlo hhi hout => ?_) hf he
              refine hzero i ?_ hhi ?_
              · rw [Nat.add_mul] at hlo
                omega
              · rw [List.forall_mem_cons]
                refine ⟨fun hmem => ?_, hout⟩
                rw [mem_cells] at hmem
                rw [Nat.add_mul, ← hstart] at hlo
                dsimp only at hmem
                omega
          | zero =>
              obtain rfl := Option.some.inj hf
              obtain rfl := Option.some.inj he
              refine ⟨hname, hstart ▸ hroom, List.ext_getElem? fun i => ?_⟩
              rw [List.getElem?_slice, stored, List.getElem?_append, List.getElem?_replicate, ← hcount]
              by_cases hdata : i < f₀.data.length
              · rw [if_pos (by omega), if_pos hdata]
                exact getElem?_of_window hthere.1 hdata
              · rw [if_neg hdata]
                by_cases hi : i < e₀.count * BLOCK
                · rw [if_pos hi, if_pos (by omega)]
                  refine hzero _ (by rw [hstart]; omega) ?_ ?_
                  · simp only [IMAGE_SIZE, TOTAL_BLOCKS, BLOCK] at hroom hi ⊢
                    omega
                  · rw [List.forall_mem_cons]
                    refine ⟨fun hmem => ?_, fun w hw hmem => ?_⟩
                    · rw [mem_cells] at hmem
                      dsimp only at hmem
                      omega
                    · have hlo := (hin w hw).1
                      rw [mem_cells] at hmem
                      simp only [BLOCK] at hlo hmem hi
                      omega
                · rw [if_neg hi, if_neg (by omega)]

/-! ## The reader on a volume -/

/-- A slot that the reader takes for a file. -/
structure Slot (image : Bytes) (k : Nat) (name : Name) (data : Bytes) : Prop where
  step : ∀ left out, extractSlots image DIR_START (left + 1) k out =
    extractSlots image DIR_START left (k + 1) (out.set name data)

theorem unpackFrom_of_there {width n off : Nat} {image : Bytes} (hroom : off + width ≤ image.length)
    (hn : n < 256 ^ width) (h : image.slice off width = beBytes width n) :
    unpackFrom width image off = some n := by
  rw [unpackFrom, if_pos hroom, beField, h, be_beBytes hn]

theorem slot_of_entry {image b data : Bytes} {k : Nat} {e : Entry} (hb : EntryIs e b)
    (hslot : image.slice (entryOff k) ENTRY_LEN = b) (hname : NameOk e.name)
    (hroom : e.start + e.count ≤ TOTAL_BLOCKS)
    (hdata : image.slice (e.start * BLOCK) (e.count * BLOCK) = data) :
    Slot image k e.name data := by
  have hlen : entryOff k + ENTRY_LEN ≤ image.length := by
    rw [← List.length_slice_eq_iff (by decide), hslot]
    exact hb.length
  have hoff : entryOff k = DIR_START * BLOCK + k * ENTRY_LEN := rfl
  have hfield {p w n : Nat} (hp : p + w ≤ ENTRY_LEN) (hn : n < 256 ^ w)
      (hbytes : b.slice p w = beBytes w n) : unpackFrom w image (entryOff k + p) = some n :=
    unpackFrom_of_there (by omega) hn ((slice_of_window hslot hp).trans hbytes)
  have htype := hfield (p := 10) (w := 2) (by decide) (by decide) hb.type_eq
  have hstart := hfield (p := 12) (w := 4) (by decide)
    (by simp only [TOTAL_BLOCKS] at hroom; omega) hb.start
  have hcount := hfield (p := 16) (w := 4) (by decide)
    (by simp only [TOTAL_BLOCKS] at hroom; omega) hb.count
  have hnames : decodeAscii (image.slice (entryOff k) 10) = some ((ljust e.name 10).take 10) := by
    have hwindow := slice_of_window hslot (k := 0) (w := 10) (by decide)
    rw [Nat.add_zero] at hwindow
    rw [hwindow]
    exact hb.name
  have hfit := fieldName_of_fits hname.short hname.blank
  refine ⟨fun left out => ?_⟩
  rw [extractSlots]
  simp only [← hoff, htype, hstart, hcount, hnames, Option.bind_eq_bind, Option.bind_some, hdata]
  rw [if_neg (by decide), if_neg (by decide), show rstrip ((ljust e.name 10).take 10) = e.name from hfit]

/-- The entries one after the other, up to the end of the directory. -/
theorem extractSlots_spec {image : Bytes} {k left : Nat} {files : Dict Name Bytes}
    (hslots : ∀ i e, files[i]? = some e → Slot image (k + i) e.1 e.2) (hleft : files.length < left)
    (hend : unpackFrom 2 image (entryOff (k + files.length) + 10) = some TYPE_END)
    (out : Dict Name Bytes) :
    extractSlots image DIR_START left k out = some (Dict.update out files) := by
  induction files generalizing k left out with
  | nil =>
      obtain ⟨left, rfl⟩ : ∃ n, left = n + 1 := ⟨left - 1, by omega⟩
      have hoff : DIR_START * BLOCK + k * ENTRY_LEN = entryOff k := rfl
      have hstop : unpackFrom 2 image (entryOff k + 10) = some TYPE_END := hend
      simp only [extractSlots, hoff, hstop]
      rfl
  | cons e files ih =>
      obtain ⟨left, rfl⟩ : ∃ n, left = n + 1 := ⟨left - 1, by omega⟩
      rw [List.length_cons] at hleft hend
      have hfirst : Slot image k e.1 e.2 := by simpa using hslots 0 e rfl
      rw [hfirst.step left out]
      refine ih (fun i e' hi => ?_) (by omega) ?_ _
      · have hnext := hslots (i + 1) e' hi
        rwa [show k + (i + 1) = k + 1 + i by omega] at hnext
      · rwa [show k + 1 + files.length = k + (files.length + 1) by omega]

/-- What the reader finds of some files. -/
def storedOf (files : List HostFile) (entries : List Entry) : Dict Name Bytes :=
  List.zipWith (fun f e => (e.name, stored f.data)) files entries

theorem keys_zipWith (g : HostFile → Bytes) {files : List HostFile} {entries : List Entry}
    (h : entries.length = files.length) :
    Dict.keys (List.zipWith (fun f e => (e.name, g f)) files entries) = entries.map Entry.name := by
  induction files generalizing entries with
  | nil => rw [List.eq_nil_of_length_eq_zero h]; rfl
  | cons f files ih =>
      cases entries with
      | nil => cases h
      | cons e entries => exact congrArg (e.name :: ·) (ih (Nat.succ.inj h))

theorem Placed.length_eq {next : Nat} {files : List HostFile} {entries : List Entry}
    (h : Placed next files entries) : entries.length = files.length := by
  induction files generalizing next entries with
  | nil =>
      cases entries with
      | nil => rfl
      | cons e entries => exact h.elim
  | cons f files ih =>
      cases entries with
      | nil => exact h.elim
      | cons e entries => exact congrArg (· + 1) (ih h.2.2.2.2)

/-- The stored data are the expected ones unless the file is empty. -/
theorem stored_eq_padded (data : Bytes) : stored data = padded data ↔ data ≠ [] := by
  have henough := blocksFor_enough data.length
  rw [stored, padded, List.append_cancel_left_eq]
  constructor
  · rintro h rfl
    revert h
    decide
  · intro hne
    have hpos := List.length_pos_iff.mpr hne
    refine congrArg (List.replicate · 0) ?_
    simp only [blocksFor, BLOCK]
    omega

/-! ## The whole volume -/

/-- A volume with some files. -/
structure Laid (files : List HostFile) (entries : List Entry) (image : Bytes) : Prop where
  length : image.length = IMAGE_SIZE
  header : ∀ w ∈ headerWrites, image.slice w.1 w.2.length = w.2
  slot : ∀ i e, entries[i]? = some e → EntryIs e (image.slice (entryOff i) ENTRY_LEN)
  mark : image.slice (entryOff entries.length + 10) 2 = beBytes 2 TYPE_END
  data : ∀ w ∈ dataWrites files entries, image.slice w.1 w.2.length = w.2
  zero : ∀ i, DATA_START * BLOCK ≤ i → i < IMAGE_SIZE →
    (∀ w ∈ dataWrites files entries, i ∉ cells w.1 w.2.length) → image[i]? = some 0

/-- The directory ends before the data begin. -/
theorem entryOff_mark {n : Nat} (hfew : n < MAX_ENTRIES) : entryOff n + 12 ≤ DATA_START * BLOCK := by
  simp only [entryOff, DIR_START, DIR_BLOCKS, DATA_START, BLOCK, ENTRY_LEN, MAX_ENTRIES,
    ENTRIES_PER_BLOCK] at hfew ⊢
  omega

theorem laid_of_writes {files : List HostFile} {entries : List Entry} {bs : List Bytes}
    (hplaced : Placed DATA_START files entries) (hfew : entries.length < MAX_ENTRIES)
    (hbs : List.Forall₂ EntryIs entries bs) :
    Laid files entries ((List.replicate IMAGE_SIZE 0).splices (dataWrites files entries ++
      (headerWrites ++
        (slotWrites 0 bs ++ [(entryOff entries.length + 10, beBytes 2 TYPE_END)])))) := by
  obtain ⟨hslots, hmem⟩ := slotWrites_spec 0 hbs
  rw [Nat.zero_add] at hslots
  have hmark := entryOff_mark hfew
  have hheader : Between 0 (entryOff 0) headerWrites := ⟨by decide, by decide⟩
  have hstop : Between (entryOff entries.length) (DATA_START * BLOCK)
      [(entryOff entries.length + 10, beBytes 2 TYPE_END)] :=
    .single (Nat.le_add_right _ _) (by rw [length_beBytes]; exact hmark)
  have hdir := hheader.append (hslots.append hstop (by simp only [entryOff]; omega) (by omega))
    (Nat.zero_le _) (by decide)
  have hall := (hdir.append hplaced.writes (Nat.zero_le _) (by decide)).perm List.perm_append_comm
  obtain ⟨hlength, hthere, hframe⟩ := List.splices_spec (l := List.replicate IMAGE_SIZE (0 : UInt8))
    (fun w hw => by
      rw [List.length_replicate]
      exact (hall.within w hw).2) hall.apart
  rw [List.forall_mem_append, List.forall_mem_append, List.forall_mem_append] at hthere
  obtain ⟨hdata, hheads, hbodies, hterm⟩ := hthere
  refine ⟨hlength.trans List.length_replicate, hheads, fun i e hi => ?_,
    hterm _ List.mem_cons_self, hdata, fun i hlo hhi hout => ?_⟩
  · obtain ⟨b, hb, hin⟩ := hmem i e hi
    have hslot := hbodies _ hin
    rw [hb.length, Nat.zero_add] at hslot
    rw [hslot]
    exact hb
  · refine (hframe i fun w hw hcell => ?_).trans (by rw [List.getElem?_replicate, if_pos hhi])
    rcases List.mem_append.mp hw with hw | hw
    · exact hout w hw hcell
    · -- the directory lies below the data
      have hbelow := (hdir.within w hw).2
      rw [mem_cells] at hcell
      omega

/-- What the reader finds in a volume. -/
theorem Laid.read {files : List HostFile} {entries : List Entry} {image : Bytes}
    (h : Laid files entries image) (hplaced : Placed DATA_START files entries)
    (hfew : entries.length < MAX_ENTRIES) (hnodup : (entries.map Entry.name).Nodup) :
    extract image = some (storedOf files entries) := by
  have hlen := hplaced.length_eq
  have hmark := entryOff_mark hfew
  have hfield {off width n : Nat} (hroom : off + width ≤ IMAGE_SIZE) (hn : n < 256 ^ width)
      (hthere : image.slice off width = beBytes width n) : unpackFrom width image off = some n :=
    unpackFrom_of_there (by rwa [h.length]) hn hthere
  have hmagic : unpackFrom 2 image 0 = some MAGIC :=
    hfield (by decide) (by decide) (h.header (0, beBytes 2 MAGIC) (by decide))
  have hstart : unpackFrom 4 image 8 = some DIR_START :=
    hfield (by decide) (by decide) (h.header (8, beBytes 4 DIR_START) (by decide))
  have hblocks : unpackFrom 4 image 16 = some DIR_BLOCKS :=
    hfield (by decide) (by decide) (h.header (16, beBytes 4 DIR_BLOCKS) (by decide))
  have hend : unpackFrom 2 image (entryOff entries.length + 10) = some TYPE_END :=
    hfield (Nat.le_trans hmark (by decide)) (by decide) h.mark
  have hlength : (storedOf files entries).length = entries.length := by
    rw [storedOf, List.length_zipWith, hlen, Nat.min_self]
  have hkeys : Dict.keys (storedOf files entries) = entries.map Entry.name :=
    keys_zipWith (fun f => stored f.data) hlen
  have hslots : ∀ i e, (storedOf files entries)[i]? = some e → Slot image (0 + i) e.1 e.2 := by
    intro i e hi
    obtain ⟨f, en, hf, hen, rfl⟩ := List.getElem?_zipWith_eq_some.mp hi
    obtain ⟨hname, hroom, hstored⟩ := hplaced.read h.data h.zero hf hen
    rw [Nat.zero_add]
    exact slot_of_entry (h.slot i en hen) rfl hname hroom hstored
  have hread : extractSlots image DIR_START (DIR_BLOCKS * ENTRIES_PER_BLOCK) 0 [] =
      some (Dict.update [] (storedOf files entries)) :=
    extractSlots_spec hslots (by rw [hlength]; exact hfew) (by rwa [hlength, Nat.zero_add]) []
  rw [Dict.update_of_nodup (by rwa [List.nil_append, hkeys]), List.nil_append] at hread
  rw [extract, hmagic, Option.bind_eq_bind, Option.bind_some, if_neg (not_not_intro rfl), hstart,
    hblocks]
  exact hread

theorem layOut_spec {t : HostText} {files : List HostFile} {image : Bytes}
    {expected : Dict Name Bytes} (h : layOut t files = .ok (image, expected)) :
    ∃ entries : List Entry, entries.length = files.length ∧ (entries.map Entry.name).Nodup ∧
      expected = expectedOf files entries ∧ extract image = some (storedOf files entries) := by
  obtain ⟨⟨v, expected'⟩, htree, hrest⟩ := bind_ok.mp h
  obtain ⟨image', hbuild, heq⟩ := bind_ok.mp hrest
  obtain ⟨rfl, rfl⟩ := Prod.mk.inj (Except.ok.inj heq)
  obtain ⟨entries, hfilled, rfl⟩ := buildTree_spec (by decide) (by decide) htree
  obtain ⟨image₀, hentries, hend⟩ := bind_ok.mp hbuild
  have hves : v.entries = entries := hfilled.entries_eq
  rw [hves] at hentries hend
  obtain ⟨bs, hbs, rfl⟩ := writeEntries_spec hentries
  have hfew : entries.length < MAX_ENTRIES := by simpa [LifVolume.new] using hfilled.few
  have hplaced : Placed DATA_START files entries := hfilled.placed
  have hlaid := laid_of_writes hplaced hfew hbs
  -- the writes in the order of the script
  have himage : image' = (List.replicate IMAGE_SIZE 0).splices (dataWrites files entries ++
      (headerWrites ++
        (slotWrites 0 bs ++ [(entryOff entries.length + 10, beBytes 2 TYPE_END)]))) := by
    rw [← Except.ok.inj hend, hfilled.image_eq]
    simp only [List.splices, List.foldl_append, List.foldl_cons, List.foldl_nil]
    rfl
  refine ⟨entries, hplaced.length_eq, hfilled.nodup, ?_, himage ▸ hlaid.read hplaced hfew hfilled.nodup⟩
  have hkeys : Dict.keys (expectedOf files entries) = entries.map Entry.name :=
    keys_zipWith (fun f => padded f.data) hplaced.length_eq
  rw [Dict.update_of_nodup (by rw [List.nil_append, hkeys]; exact hfilled.nodup), List.nil_append]

/-! ## The verification -/

theorem sameFiles_iff {got expected : Dict Name Bytes} (hkeys : Dict.keys got = Dict.keys expected)
    (hnodup : (Dict.keys expected).Nodup) : sameFiles got expected = true ↔ got = expected := by
  have hlen : got.length = expected.length := by
    simpa [Dict.keys] using congrArg List.length hkeys
  rw [sameFiles, Bool.and_eq_true, decide_eq_true_eq, List.all_eq_true]
  constructor
  · rintro ⟨-, hall⟩
    have hsub : expected ⊆ got := fun e he => Dict.mem_of_get?_eq_some (eq_of_beq (hall e he))
    refine List.ext_getElem hlen fun i hi hi' => ?_
    have hkey : got[i].1 = expected[i].1 := by
      have h := congrArg (fun l : List Name => l[i]?) hkeys
      simpa [Dict.keys, List.getElem?_eq_getElem, hi, hi'] using h
    have hgot : got.get? got[i].1 = some got[i].2 :=
      (Dict.get?_eq_some_iff (hkeys ▸ hnodup)).mpr (List.getElem_mem hi)
    have hexp : got.get? expected[i].1 = some expected[i].2 :=
      (Dict.get?_eq_some_iff (hkeys ▸ hnodup)).mpr (hsub (List.getElem_mem hi'))
    rw [hkey, hexp] at hgot
    exact Prod.ext hkey (Option.some.inj hgot.symm)
  · rintro rfl
    exact ⟨rfl, fun e he => by rw [(Dict.get?_eq_some_iff hnodup).mpr he]; exact beq_self_eq_true _⟩

theorem storedOf_eq_iff {files : List HostFile} {entries : List Entry}
    (h : entries.length = files.length) :
    storedOf files entries = expectedOf files entries ↔ ∀ f ∈ files, f.data ≠ [] := by
  induction files generalizing entries with
  | nil => simp [storedOf, expectedOf]
  | cons f files ih =>
      cases entries with
      | nil => cases h
      | cons e entries =>
          have hrest := ih (Nat.succ.inj h)
          rw [storedOf, expectedOf] at hrest ⊢
          rw [List.zipWith_cons_cons, List.zipWith_cons_cons, List.cons.injEq, Prod.mk.injEq, hrest,
            stored_eq_padded, List.forall_mem_cons]
          rw [eq_self_iff_true, true_and]

/-- A volume that is laid down passes the verification, and is written, exactly when no file is empty. -/
theorem createImage_of_layOut {t : HostText} {files : List HostFile} {image : Bytes}
    {expected : Dict Name Bytes} (h : layOut t files = .ok (image, expected)) :
    createImage t files = .ok image ↔ ∀ f ∈ files, f.data ≠ [] := by
  obtain ⟨entries, hlen, hnodup, rfl, hread⟩ := layOut_spec h
  have hgot : Dict.keys (storedOf files entries) = entries.map Entry.name :=
    keys_zipWith (fun f => stored f.data) hlen
  have hexp : Dict.keys (expectedOf files entries) = entries.map Entry.name :=
    keys_zipWith (fun f => padded f.data) hlen
  have hsame := sameFiles_iff (hgot.trans hexp.symm) (hexp ▸ hnodup)
  rw [← storedOf_eq_iff hlen, ← hsame, createImage, h]
  simp only [bind, Except.bind, hread]
  split_ifs with hok <;> simp [hok]

/-! ## What fits on a volume -/

/-- The blocks of some files. -/
def blocksOf (files : List HostFile) : Nat := (files.map fun f => blocksFor f.data.length).sum

/-- The names of some files are in ASCII. -/
def Ascii (t : HostText) (files : List HostFile) : Prop :=
  ∀ f ∈ files, ∀ c ∈ lifStem t f.base, c.toNat < 128

theorem lifName_ascii {t : HostText} {base name : Name} {used : List Name}
    (h : lifName t base used = .ok name) (hstem : ∀ c ∈ lifStem t base, c.toNat < 128) :
    ∀ c ∈ name, c.toNat < 128 := by
  intro c hc
  unfold lifName at h
  dsimp only at h
  split_ifs at h
  · obtain ⟨-, k, -, rfl⟩ := numbered_eq_ok h
    rcases List.mem_append.mp hc with hc | hc
    · exact hstem c (List.mem_of_mem_take hc)
    · have hdigit : c.isDigit = true := Nat.isDigit_of_mem_toDigits (by omega) (by omega) hc
      have hbounds := isAlphanum_bounds (c := c) (by rw [Char.isAlphanum, hdigit, Bool.or_true])
      omega
  · obtain rfl := Except.ok.inj h
    exact hstem c (List.mem_of_mem_take hc)

theorem addFile_isOk_iff {v : LifVolume} {name : Name} {data : Bytes} :
    (∃ v', v.addFile name data = .ok v') ↔
      v.entries.length < MAX_ENTRIES - 1 ∧ v.nextBlock + blocksFor data.length ≤ TOTAL_BLOCKS := by
  unfold LifVolume.addFile
  split_ifs with hfull hroom
  · simp only [exists_false, false_iff]
    omega
  · simp only [exists_false, false_iff]
    omega
  · simp only [Except.ok.injEq, exists_eq', true_iff]
    omega

theorem buildTree_isOk_iff {t : HostText} {files : List HostFile} {used : List Name}
    {expected : Dict Name Bytes} {v : LifVolume} (hfew : v.entries.length ≤ MAX_ENTRIES - 1)
    (hnext : v.nextBlock ≤ TOTAL_BLOCKS) (hused : used.length = v.entries.length) :
    (∃ r, buildTree t files used expected v = .ok r) ↔
      v.entries.length + files.length ≤ MAX_ENTRIES - 1 ∧
        v.nextBlock + blocksOf files ≤ TOTAL_BLOCKS := by
  induction files generalizing used expected v with
  | nil => exact ⟨fun _ => ⟨hfew, hnext⟩, fun _ => ⟨_, rfl⟩⟩
  | cons f files ih =>
      have hfree : used.length < 900 := by
        rw [hused]
        exact Nat.lt_of_le_of_lt hfew (by decide)
      obtain ⟨name, hname⟩ := lifName_found t f.base hfree
      have hblocks : blocksOf (f :: files) = blocksFor f.data.length + blocksOf files := by
        rw [blocksOf, List.map_cons, List.sum_cons]
        rfl
      have hstep {v₁ : LifVolume} (hadd : v.addFile name f.data = .ok v₁) :
          v₁.entries.length = v.entries.length + 1 ∧
            v₁.nextBlock = v.nextBlock + blocksFor f.data.length := by
        unfold LifVolume.addFile at hadd
        split_ifs at hadd
        obtain rfl := Except.ok.inj hadd
        exact ⟨by rw [List.length_append, List.length_singleton], rfl⟩
      have hadd : (∃ v', v.addFile name f.data = .ok v') ↔ _ := addFile_isOk_iff
      rw [hblocks, List.length_cons]
      constructor
      · rintro ⟨r, hr⟩
        obtain ⟨name', hname', hrest⟩ := bind_ok.mp hr
        obtain rfl := Except.ok.inj (hname.symm.trans hname')
        obtain ⟨v₁, hv₁, hrest⟩ := bind_ok.mp hrest
        obtain ⟨hlt, hroom⟩ := hadd.mp ⟨v₁, hv₁⟩
        obtain ⟨hlen, hblk⟩ := hstep hv₁
        have hfit := (ih (by omega) (by omega) (by rw [List.length_cons]; omega)).mp ⟨r, hrest⟩
        omega
      · rintro ⟨hlen, hfit⟩
        obtain ⟨v₁, hv₁⟩ := hadd.mpr ⟨by omega, by omega⟩
        obtain ⟨hlen₁, hblk₁⟩ := hstep hv₁
        have hrest : ∃ r, buildTree t files (name :: used) (expected.set name (padded f.data)) v₁ = .ok r :=
          (ih (by omega) (by omega) (by rw [List.length_cons]; omega)).mpr ⟨by omega, by omega⟩
        obtain ⟨r, hr⟩ := hrest
        exact ⟨r, bind_ok.mpr ⟨name, hname, bind_ok.mpr ⟨v₁, hv₁, hr⟩⟩⟩

theorem buildTree_ascii {t : HostText} {files : List HostFile} {used : List Name}
    {expected : Dict Name Bytes} {v : LifVolume} {r : LifVolume × Dict Name Bytes}
    (hascii : Ascii t files) (hold : ∀ e ∈ v.entries, ∀ c ∈ e.name, c.toNat < 128)
    (h : buildTree t files used expected v = .ok r) :
    ∀ e ∈ r.1.entries, ∀ c ∈ e.name, c.toNat < 128 := by
  induction files generalizing used expected v with
  | nil =>
      obtain rfl := Except.ok.inj h
      exact hold
  | cons f files ih =>
      obtain ⟨name, hname, hrest⟩ := bind_ok.mp h
      obtain ⟨v₁, hadd, hrest⟩ := bind_ok.mp hrest
      unfold Ascii at hascii
      rw [List.forall_mem_cons] at hascii
      refine ih hascii.2 (fun e he => ?_) hrest
      unfold LifVolume.addFile at hadd
      split_ifs at hadd
      obtain rfl := Except.ok.inj hadd
      rcases List.mem_append.mp he with he | he
      · exact hold e he
      · obtain rfl := List.mem_singleton.mp he
        exact lifName_ascii hname hascii.1

theorem writeEntries_isOk {entries : List Entry} (k : Nat) (image : Bytes)
    (hascii : ∀ e ∈ entries, ∀ c ∈ e.name, c.toNat < 128) :
    ∃ image', writeEntries entries k image = .ok image' := by
  induction entries generalizing k image with
  | nil => exact ⟨image, rfl⟩
  | cons e entries ih =>
      rw [List.forall_mem_cons] at hascii
      have hsome : (encodeAscii (ljust e.name 10)).isSome = true :=
        encodeAscii_isSome.mpr (ljust_ascii.mpr hascii.1)
      obtain ⟨b, hb⟩ := Option.isSome_iff_exists.mp hsome
      obtain ⟨image', hrest⟩ := ih (k + 1) _ hascii.2
      exact ⟨image', bind_ok.mpr ⟨_, by rw [entryBytes, hb], hrest⟩⟩

/-- A volume is laid down when its files fit. -/
theorem layOut_fits_iff {t : HostText} {files : List HostFile} (hascii : Ascii t files) :
    (∃ r, layOut t files = .ok r) ↔
      files.length ≤ MAX_ENTRIES - 1 ∧ blocksOf files ≤ TOTAL_BLOCKS - DATA_START := by
  have hfits : (∃ r, buildTree t files [] [] LifVolume.new = .ok r) ↔ _ :=
    buildTree_isOk_iff (by decide) (by decide) rfl
  have hroom : LifVolume.new.nextBlock + blocksOf files ≤ TOTAL_BLOCKS ↔
      blocksOf files ≤ TOTAL_BLOCKS - DATA_START := by
    simp only [LifVolume.new, TOTAL_BLOCKS, DATA_START, DIR_START, DIR_BLOCKS]
    omega
  rw [hroom, show LifVolume.new.entries.length + files.length = files.length from Nat.zero_add _]
    at hfits
  rw [← hfits]
  constructor
  · rintro ⟨r, hr⟩
    obtain ⟨a, ha, -⟩ := bind_ok.mp hr
    exact ⟨a, ha⟩
  · rintro ⟨a, ha⟩
    obtain ⟨image, himage⟩ := writeEntries_isOk 0 (a.1.image.splices headerWrites)
      (buildTree_ascii hascii (by simp [LifVolume.new]) ha)
    exact ⟨_, bind_ok.mpr ⟨a, ha, bind_ok.mpr ⟨_, bind_ok.mpr ⟨image, himage, rfl⟩, rfl⟩⟩⟩

/-- A volume is written exactly when its files fit and none of them is empty. -/
theorem written_iff {t : HostText} {files : List HostFile} (hascii : Ascii t files) :
    (∃ image, createImage t files = .ok image) ↔
      files.length ≤ MAX_ENTRIES - 1 ∧ blocksOf files ≤ TOTAL_BLOCKS - DATA_START ∧
        ∀ f ∈ files, f.data ≠ [] := by
  rw [← and_assoc, ← layOut_fits_iff hascii]
  constructor
  · rintro ⟨image, h⟩
    obtain ⟨⟨image', expected⟩, hlaid, hrest⟩ := bind_ok.mp h
    have heq : image' = image := by
      dsimp only at hrest
      split at hrest
      · cases hrest
      · split_ifs at hrest
        exact Except.ok.inj hrest
    exact ⟨⟨_, hlaid⟩, (createImage_of_layOut hlaid).mp (heq ▸ h)⟩
  · rintro ⟨⟨⟨image, expected⟩, hlaid⟩, hfull⟩
    exact ⟨image, (createImage_of_layOut hlaid).mpr hfull⟩

/-- `str` of ASCII. -/
def asciiText : HostText where
  upper := List.map Char.toUpper
  isalnum := Char.isAlphanum
  isalnum_ascii _ _ := rfl

theorem ascii_asciiText (files : List HostFile) : Ascii asciiText files := by
  intro f _ c hc
  have halnum : c.isAlphanum = true := by
    unfold lifStem at hc
    dsimp only at hc
    split_ifs at hc
    · exact alnum_file hc
    · exact (List.mem_filter.mp hc).2
  have hbounds := isAlphanum_bounds halnum
  omega

theorem written_iff_sample :
    (∃ image, createImage asciiText [⟨['a', '.', 'x'], [1, 2]⟩, ⟨['a'], [3]⟩] = .ok image) ∧
      ¬ ∃ image, createImage asciiText [⟨['a', '.', 'x'], [1, 2]⟩, ⟨['b'], []⟩] = .ok image :=
  ⟨(written_iff (ascii_asciiText _)).mpr ⟨by decide, by decide, by simp⟩,
    fun h => ((written_iff (ascii_asciiText _)).mp h).2.2 ⟨['b'], []⟩ (by simp) rfl⟩

end Mountin.HpLif
