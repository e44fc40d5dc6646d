import Mathlib.Logic.Relation
import Mountin.Basic.Bytes

set_option autoImplicit false

/-! # SZDD compression

`mkszdd.py`: LZSS with a ring of 4096 bytes. The encoder looks for a match in the ring as it is
before the match, the decoder overwrites the ring while it copies. `szdd_iff` says when that comes
to the same.
-/

namespace Mountin.Szdd

def RING_SIZE : Nat := 4096
def MAX_MATCH : Nat := 18
def MIN_MATCH : Nat := 3
def SPACE : UInt8 := 0x20

/-- The ring, by position. -/
abbrev Ring := Nat → UInt8

/-- A byte appended to the ring. -/
def put (ring : Ring) (pos : Nat) (b : UInt8) : Ring := Function.update ring (pos % RING_SIZE) b

/-- Bytes appended to the ring one after the other. -/
def putAll (ring : Ring) : (pos : Nat) → Bytes → Ring
  | _, [] => ring
  | pos, b :: bs => putAll (put ring pos b) (pos + 1) bs

/-! ## The encoder -/

/-- The state of `compress_szdd`: the ring, `ring_pos` and the data from `src` on. -/
structure State where
  ring : Ring
  pos : Nat
  rest : Bytes

/-- The state at the start. -/
def start (data : Bytes) : State := ⟨fun _ => SPACE, RING_SIZE - MAX_MATCH, data⟩

/-- `match_len` of an offset, at most `limit`. -/
def matchLen (ring : Ring) : (limit off : Nat) → Bytes → Nat
  | 0, _, _ => 0
  | _ + 1, _, [] => 0
  | limit + 1, off, b :: rest =>
      if ring (off % RING_SIZE) = b then matchLen ring limit (off + 1) rest + 1 else 0

/-- A turn of the search: a longer match is better. -/
def better (ring : Ring) (rest : Bytes) (best : Nat × Nat) (off : Nat) : Nat × Nat :=
  let match_len := matchLen ring MAX_MATCH off rest
  if best.1 < match_len then (match_len, off) else best

/-- The search over all offsets: `best_len` and `best_off`. -/
@[irreducible] def longestMatch (ring : Ring) (rest : Bytes) : Nat × Nat :=
  (List.range RING_SIZE).foldl (better ring rest) (0, 0)

/-- The two bytes of a back-reference. -/
def reference (best_len best_off : Nat) : Bytes :=
  [UInt8.ofNat (best_off &&& 0xff),
    UInt8.ofNat (best_off >>> 8 &&& 0x0f ||| (best_len - MIN_MATCH) <<< 4)]

/-- How many bytes the next item takes. -/
def State.taken (s : State) : Nat :=
  let best := longestMatch s.ring s.rest
  if MIN_MATCH ≤ best.1 then best.1 else 1

/-- The state after the next item. -/
def State.next (s : State) : State :=
  ⟨putAll s.ring s.pos (s.rest.take s.taken), s.pos + s.taken, s.rest.drop s.taken⟩

/-- The next item is a literal byte. -/
def State.isLiteral (s : State) : Bool := (longestMatch s.ring s.rest).1 < MIN_MATCH

/-- The bytes of the next item. -/
def State.item (s : State) : Bytes :=
  let best := longestMatch s.ring s.rest
  if MIN_MATCH ≤ best.1 then reference best.1 best.2 else s.rest.take 1

/-- The inner loop, for so many more bits: `flag`, `items` and the state. -/
def group : (turns bit : Nat) → State → Nat × Bytes × State
  | 0, _, s => (0, [], s)
  | turns + 1, bit, s =>
      if s.rest = [] then (0, [], s)
      else
        let (flag, items, s') := group turns (bit + 1) s.next
        ((if s.isLiteral then 1 <<< bit else 0) ||| flag, s.item ++ items, s')

/-- The outer loop, for at most so many turns. -/
def compressLoop : (turns : Nat) → State → Bytes
  | 0, _ => []
  | turns + 1, s =>
      if s.rest = [] then []
      else
        let (flag, items, s') := group 8 0 s
        UInt8.ofNat flag :: items ++ compressLoop turns s'

/-- `compress_szdd`. A turn of the outer loop takes a byte, so that the data counts the turns. -/
def compressSzdd (data : Bytes) : Bytes := compressLoop data.length (start data)

/-! ## The decoder of the format -/

/-- A copy out of the ring, byte by byte: what is copied, and the ring. -/
def copyOut : (len : Nat) → Ring → (pos off : Nat) → Bytes × Ring
  | 0, ring, _, _ => ([], ring)
  | len + 1, ring, pos, off =>
      let b := ring (off % RING_SIZE)
      let (more, ring) := copyOut len (put ring pos b) (pos + 1) (off + 1)
      (b :: more, ring)

/-- The bits of a flag byte, the lowest first. -/
def flagBits (flag : UInt8) : List Bool := (List.range 8).map flag.toNat.testBit

/-- The decoder with the flag bits that are left, until `n` more bytes are written. -/
def decode : (input : Bytes) → (flags : List Bool) → (n : Nat) → Ring → (pos : Nat) → Option Bytes
  | [], _, n, _, _ => if n = 0 then some [] else none
  | b :: input, flags, n, ring, pos =>
      if n = 0 then some []
      else
        match flags with
        | [] => decode input (flagBits b) n ring pos
        | true :: flags => (decode input flags (n - 1) (put ring pos b) (pos + 1)).map (b :: ·)
        | false :: flags =>
            match input with
            | [] => none
            | hi :: input =>
                let off := b.toNat ||| (hi.toNat &&& 0x0f) <<< 8
                let len := min n ((hi.toNat >>> 4) + MIN_MATCH)
                let (bytes, ring) := copyOut len ring pos off
                (decode input flags (n - len) ring (pos + len)).map (bytes ++ ·)

/-- The decoder of compressed data for a recorded length. -/
def decompress (compressed : Bytes) (length : Nat) : Option Bytes :=
  decode compressed [] length (fun _ => SPACE) (RING_SIZE - MAX_MATCH)

/-! ## The ring -/

theorem putAll_append (ring : Ring) (pos : Nat) (a b : Bytes) :
    putAll ring pos (a ++ b) = putAll (putAll ring pos a) (pos + a.length) b := by
  induction a generalizing ring pos with
  | nil => rfl
  | cons x a ih =>
      rw [List.cons_append, putAll, putAll, ih, List.length_cons, Nat.add_right_comm, Nat.add_assoc]

/-- Where nothing was written the ring is as it was. -/
theorem putAll_of_ne {ring : Ring} {pos q : Nat} {bs : Bytes}
    (h : ∀ j < bs.length, (pos + j) % RING_SIZE ≠ q) : putAll ring pos bs q = ring q := by
  induction bs generalizing ring pos with
  | nil => rfl
  | cons b bs ih =>
      have hfirst := h 0 (Nat.succ_pos _)
      rw [Nat.add_zero] at hfirst
      rw [putAll, ih fun j hj => by
        rw [Nat.add_assoc, Nat.add_comm 1 j]
        exact h (j + 1) (Nat.succ_lt_succ hj)]
      exact Function.update_of_ne hfirst.symm _ _

/-- Fewer than 4096 bytes do not overwrite each other. -/
theorem putAll_at {ring : Ring} {pos j : Nat} {bs : Bytes} (hlen : bs.length ≤ RING_SIZE)
    (hj : j < bs.length) : putAll ring pos bs ((pos + j) % RING_SIZE) = bs[j] := by
  induction bs generalizing ring pos j with
  | nil => exact absurd hj (Nat.not_lt_zero j)
  | cons b bs ih =>
      rw [List.length_cons] at hlen hj
      rw [putAll]
      cases j with
      | zero =>
          rw [putAll_of_ne fun i hi => by
            simp only [RING_SIZE] at hlen ⊢
            omega]
          exact Function.update_self _ _ _
      | succ j =>
          have hrest := @ih (put ring pos b) (pos + 1) j (by omega) (by omega)
          rw [List.getElem_cons_succ, ← hrest, show pos + (j + 1) = pos + 1 + j by omega]

/-! ## Copies -/

/-- A copy that turns out as it should: each byte is in the ring when it is read. -/
theorem copyOut_eq_iff (want : Bytes) (ring : Ring) (pos off : Nat) :
    (copyOut want.length ring pos off).1 = want ↔
      ∀ k (hk : k < want.length), putAll ring pos (want.take k) ((off + k) % RING_SIZE) = want[k] := by
  induction want generalizing ring pos off with
  | nil => simp [copyOut]
  | cons b want ih =>
      show (copyOut (want.length + 1) ring pos off).1 = b :: want ↔ _
      rw [copyOut]
      dsimp only
      rw [List.cons.injEq]
      constructor
      · rintro ⟨hb, hrest⟩ k hk
        rw [hb, ih] at hrest
        cases k with
        | zero => exact hb
        | succ k =>
            have hat := hrest k (Nat.lt_of_succ_lt_succ hk)
            rw [List.take_succ_cons, putAll, List.getElem_cons_succ, ← hat,
              show off + (k + 1) = off + 1 + k by omega]
      · intro h
        have hb : ring (off % RING_SIZE) = b := h 0 (Nat.succ_pos _)
        refine ⟨hb, ?_⟩
        rw [hb, ih]
        intro k hk
        have hat := h (k + 1) (Nat.succ_lt_succ hk)
        rw [List.take_succ_cons, putAll, List.getElem_cons_succ,
          show off + (k + 1) = off + 1 + k by omega] at hat
        exact hat

theorem length_copyOut (len : Nat) (ring : Ring) (pos off : Nat) :
    (copyOut len ring pos off).1.length = len := by
  induction len generalizing ring pos off with
  | zero => rfl
  | succ len ih => rw [copyOut, List.length_cons, ih]

/-- The ring after a copy has what was copied. -/
theorem copyOut_ring (len : Nat) (ring : Ring) (pos off : Nat) :
    (copyOut len ring pos off).2 = putAll ring pos (copyOut len ring pos off).1 := by
  induction len generalizing ring pos off with
  | zero => rfl
  | succ len ih =>
      rw [copyOut]
      exact ih _ _ _

/-! ## The search -/

theorem matchLen_le (ring : Ring) (limit off : Nat) (rest : Bytes) :
    matchLen ring limit off rest ≤ limit ∧ matchLen ring limit off rest ≤ rest.length := by
  induction limit generalizing off rest with
  | zero => exact ⟨le_refl 0, Nat.zero_le _⟩
  | succ limit ih =>
      cases rest with
      | nil => exact ⟨Nat.zero_le _, le_refl 0⟩
      | cons b rest =>
          rw [matchLen]
          split_ifs
          · exact ⟨Nat.succ_le_succ (ih (off + 1) rest).1, Nat.succ_le_succ (ih (off + 1) rest).2⟩
          · exact ⟨Nat.zero_le _, Nat.zero_le _⟩

/-- The bytes of a match are in the ring. -/
theorem matchLen_spec (ring : Ring) {limit off : Nat} {rest : Bytes} {k : Nat}
    (hk : k < matchLen ring limit off rest) : rest[k]? = some (ring ((off + k) % RING_SIZE)) := by
  induction limit generalizing off rest k with
  | zero => exact absurd hk (Nat.not_lt_zero k)
  | succ limit ih =>
      cases rest with
      | nil => exact absurd hk (Nat.not_lt_zero k)
      | cons b rest =>
          rw [matchLen] at hk
          split_ifs at hk with hb
          · cases k with
            | zero => rw [List.getElem?_cons_zero, Nat.add_zero, hb]
            | succ k =>
                rw [List.getElem?_cons_succ, ih (Nat.lt_of_succ_lt_succ hk),
                  show off + 1 + k = off + (k + 1) by omega]
          · exact absurd hk (Nat.not_lt_zero k)

/-- The best match so far, after a search over some offsets: it is one of them, and no other one is
longer. -/
theorem search_spec (ring : Ring) (rest : Bytes) (offs : List Nat) :
    ∀ best : Nat × Nat, best.1 ≤ (offs.foldl (better ring rest) best).1 ∧
      (∀ off ∈ offs, matchLen ring MAX_MATCH off rest ≤ (offs.foldl (better ring rest) best).1) ∧
      (offs.foldl (better ring rest) best = best ∨
        (offs.foldl (better ring rest) best).2 ∈ offs ∧
        (offs.foldl (better ring rest) best).1
          = matchLen ring MAX_MATCH (offs.foldl (better ring rest) best).2 rest) := by
  induction offs with
  | nil => exact fun best => ⟨le_refl _, by simp, .inl rfl⟩
  | cons off offs ih =>
      intro best
      rw [List.foldl_cons]
      obtain ⟨hle, hall, hone⟩ := ih (better ring rest best off)
      have hstep : best.1 ≤ (better ring rest best off).1 ∧
          matchLen ring MAX_MATCH off rest ≤ (better ring rest best off).1 := by
        rw [better]
        split_ifs with hlt
        · exact ⟨hlt.le, le_refl _⟩
        · exact ⟨le_refl _, Nat.not_lt.mp hlt⟩
      refine ⟨hstep.1.trans hle, ?_, ?_⟩
      · rw [List.forall_mem_cons]
        exact ⟨hstep.2.trans hle, hall⟩
      · rcases hone with hsame | ⟨hmem, hlen⟩
        · rw [hsame, better]
          split_ifs with hlt
          · exact .inr ⟨List.mem_cons_self, rfl⟩
          · exact .inl rfl
        · exact .inr ⟨List.mem_cons_of_mem _ hmem, hlen⟩

/-- What a search over the offsets below a bound finds. -/
theorem search_best (ring : Ring) (rest : Bytes) (n : Nat) :
    (∀ off < n, matchLen ring MAX_MATCH off rest
        ≤ ((List.range n).foldl (better ring rest) (0, 0)).1) ∧
      ((List.range n).foldl (better ring rest) (0, 0) = (0, 0) ∨
        ((List.range n).foldl (better ring rest) (0, 0)).2 < n ∧
        ((List.range n).foldl (better ring rest) (0, 0)).1
          = matchLen ring MAX_MATCH ((List.range n).foldl (better ring rest) (0, 0)).2 rest) := by
  obtain ⟨-, hall, hone⟩ := search_spec ring rest (List.range n) (0, 0)
  refine ⟨fun off hoff => hall off (List.mem_range.mpr hoff), ?_⟩
  rcases hone with hzero | ⟨hmem, hlen⟩
  · exact .inl hzero
  · exact .inr ⟨List.mem_range.mp hmem, hlen⟩

theorem longestMatch_best (ring : Ring) (rest : Bytes) :
    (∀ off < RING_SIZE, matchLen ring MAX_MATCH off rest ≤ (longestMatch ring rest).1) ∧
      (longestMatch ring rest = (0, 0) ∨ (longestMatch ring rest).2 < RING_SIZE ∧
        (longestMatch ring rest).1
          = matchLen ring MAX_MATCH (longestMatch ring rest).2 rest) := by
  unfold longestMatch
  exact search_best ring rest RING_SIZE

/-- A match that is used. -/
theorem longestMatch_spec {ring : Ring} {rest : Bytes}
    (h : MIN_MATCH ≤ (longestMatch ring rest).1) :
    (longestMatch ring rest).2 < RING_SIZE ∧ (longestMatch ring rest).1
      = matchLen ring MAX_MATCH (longestMatch ring rest).2 rest := by
  rcases (longestMatch_best ring rest).2 with hzero | hbest
  · rw [hzero] at h
    exact absurd h (by decide)
  · exact hbest

/-! ## Clean matches -/

/-- A match that can be copied: where it runs into the write position, it finds there what it would
have found in the ring before. -/
def State.Clean (s : State) : Prop :=
  MIN_MATCH ≤ (longestMatch s.ring s.rest).1 →
    ∀ j k, j < k → k < (longestMatch s.ring s.rest).1 →
      ((longestMatch s.ring s.rest).2 + k) % RING_SIZE = (s.pos + j) % RING_SIZE →
      s.rest[j]? = s.rest[k]?

/-- The encoder goes from one state to the other. -/
def Reaches : State → State → Prop :=
  Relation.ReflTransGen fun s s' => s.rest ≠ [] ∧ s' = s.next

/-- All matches from a state on can be copied. -/
def State.AllClean (s : State) : Prop := ∀ t, Reaches s t → t.Clean

/-- A clean match is copied right. -/
theorem clean_iff {s : State} (h : MIN_MATCH ≤ (longestMatch s.ring s.rest).1) :
    (copyOut (longestMatch s.ring s.rest).1 s.ring s.pos (longestMatch s.ring s.rest).2).1
      = s.rest.take (longestMatch s.ring s.rest).1 ↔ s.Clean := by
  obtain ⟨-, hlen⟩ := longestMatch_spec h
  rw [State.Clean]
  generalize longestMatch s.ring s.rest = best at h hlen ⊢
  obtain ⟨len, off⟩ := best
  dsimp only at h hlen ⊢
  obtain ⟨hmax, hroom⟩ := matchLen_le s.ring MAX_MATCH off s.rest
  rw [← hlen] at hmax hroom
  simp only [MAX_MATCH] at hmax
  have hwant : (s.rest.take len).length = len := by
    rw [List.length_take]
    omega
  have hiff := copyOut_eq_iff (s.rest.take len) s.ring s.pos off
  rw [show copyOut (s.rest.take len).length s.ring s.pos off = copyOut len s.ring s.pos off by
    rw [hwant]] at hiff
  rw [hiff]
  have hat : ∀ k, k < len → s.rest[k]? = some (s.ring ((off + k) % RING_SIZE)) := fun k hk =>
    matchLen_spec s.ring (hlen ▸ hk)
  constructor
  · intro hcopy _ j k hjk hk hmeet
    have hread := hcopy k (by omega)
    have hshort : ((s.rest.take len).take k).length = k := by
      rw [List.length_take, hwant]
      omega
    rw [hmeet, putAll_at (by rw [hshort]; simp only [RING_SIZE]; omega) (by rw [hshort]; exact hjk),
      List.getElem_take, List.getElem_take, List.getElem_take] at hread
    rw [List.getElem?_eq_getElem (by omega), List.getElem?_eq_getElem (by omega), hread]
  · intro hclean k hk
    have hkl : k < len := by omega
    have hshort : ((s.rest.take len).take k).length = k := by
      rw [List.length_take, hwant]
      omega
    by_cases hmeet : ∃ j < k, (off + k) % RING_SIZE = (s.pos + j) % RING_SIZE
    · obtain ⟨j, hjk, hmeet⟩ := hmeet
      have hsame := hclean h j k hjk hkl hmeet
      rw [List.getElem?_eq_getElem (by omega), List.getElem?_eq_getElem (by omega)] at hsame
      rw [hmeet, putAll_at (by rw [hshort]; simp only [RING_SIZE]; omega)
        (by rw [hshort]; exact hjk), List.getElem_take, List.getElem_take, List.getElem_take]
      exact Option.some.inj hsame
    · have hfar : ∀ j < ((s.rest.take len).take k).length,
          (s.pos + j) % RING_SIZE ≠ (off + k) % RING_SIZE := by
        intro j hj heq
        rw [hshort] at hj
        exact hmeet ⟨j, hj, heq.symm⟩
      have hold := hat k hkl
      rw [List.getElem?_eq_getElem (by omega)] at hold
      rw [putAll_of_ne hfar, List.getElem_take]
      exact (Option.some.inj hold).symm

/-! ## The items -/

theorem decode_zero (input : Bytes) (flags : List Bool) (ring : Ring) (pos : Nat) :
    decode input flags 0 ring pos = some [] := by
  cases input with
  | nil => rw [decode, if_pos rfl]
  | cons b input => rw [decode.eq_def]; exact if_pos rfl

/-- The two bytes of a reference give the offset and the length back. -/
theorem reference_spec {len off : Nat} (hlo : MIN_MATCH ≤ len) (hhi : len ≤ MAX_MATCH)
    (hoff : off < RING_SIZE) :
    ∃ lo hi : UInt8, reference len off = [lo, hi] ∧
      lo.toNat ||| (hi.toNat &&& 0x0f) <<< 8 = off ∧ (hi.toNat >>> 4) + MIN_MATCH = len := by
  simp only [MIN_MATCH, MAX_MATCH, RING_SIZE] at hlo hhi hoff
  refine ⟨_, _, rfl, ?_, ?_⟩
  · have hlow : (UInt8.ofNat (off &&& 0xff)).toNat = off % 256 := by
      rw [Nat.and_two_pow_sub_one_eq_mod off 8, UInt8.toNat_ofNat']
      omega
    have hhigh : (UInt8.ofNat (off >>> 8 &&& 0x0f ||| (len - MIN_MATCH) <<< 4)).toNat
        = off / 256 + (len - 3) * 16 := by
      rw [Nat.and_two_pow_sub_one_eq_mod _ 4, Nat.shiftRight_eq_div_pow, Nat.or_comm,
        ← Nat.shiftLeft_add_eq_or_of_lt (by omega), Nat.shiftLeft_eq, UInt8.toNat_ofNat']
      simp only [MIN_MATCH]
      omega
    rw [hlow, hhigh, Nat.and_two_pow_sub_one_eq_mod _ 4, Nat.or_comm,
      ← Nat.shiftLeft_add_eq_or_of_lt (by omega), Nat.shiftLeft_eq]
    omega
  · have hhigh : (UInt8.ofNat (off >>> 8 &&& 0x0f ||| (len - MIN_MATCH) <<< 4)).toNat
        = off / 256 + (len - 3) * 16 := by
      rw [Nat.and_two_pow_sub_one_eq_mod _ 4, Nat.shiftRight_eq_div_pow, Nat.or_comm,
        ← Nat.shiftLeft_add_eq_or_of_lt (by omega), Nat.shiftLeft_eq, UInt8.toNat_ofNat']
      simp only [MIN_MATCH]
      omega
    rw [hhigh, Nat.shiftRight_eq_div_pow]
    simp only [MIN_MATCH]
    omega

/-- An item is decoded right if and only if it is clean and the rest is. -/
theorem decode_item {s : State} (hne : s.rest ≠ []) (input : Bytes) (flags : List Bool) :
    decode (s.item ++ input) (s.isLiteral :: flags) s.rest.length s.ring s.pos = some s.rest ↔
      s.Clean ∧ decode input flags s.next.rest.length s.next.ring s.next.pos = some s.next.rest := by
  have hlength : s.rest.length ≠ 0 := fun h => hne (List.length_eq_zero_iff.mp h)
  by_cases hmatch : MIN_MATCH ≤ (longestMatch s.ring s.rest).1
  · have hclean := clean_iff hmatch
    obtain ⟨hoff, hlen⟩ := longestMatch_spec hmatch
    have hliteral : s.isLiteral = false := decide_eq_false (Nat.not_lt.mpr hmatch)
    have htaken : s.taken = (longestMatch s.ring s.rest).1 := if_pos hmatch
    rw [State.item, if_pos hmatch, hliteral, State.next, htaken]
    generalize longestMatch s.ring s.rest = best at hmatch hclean hoff hlen ⊢
    obtain ⟨len, off⟩ := best
    dsimp only at hmatch hclean hoff hlen ⊢
    obtain ⟨hmax, hroom⟩ := matchLen_le s.ring MAX_MATCH off s.rest
    rw [← hlen] at hmax hroom
    obtain ⟨lo, hi, hreference, hoff', hlen'⟩ := reference_spec hmatch hmax hoff
    have hmin : min s.rest.length len = len := Nat.min_eq_right hroom
    rw [hreference, List.cons_append, List.cons_append, List.nil_append, decode.eq_def]
    simp only [hlength, if_false, hoff', hlen', hmin]
    have hsplit : s.rest = s.rest.take len ++ s.rest.drop len := (List.take_append_drop _ _).symm
    have hcopied := length_copyOut len s.ring s.pos off
    have htake : (s.rest.take len).length = len := by
      rw [List.length_take]
      omega
    rw [copyOut_ring, List.length_drop, Option.map_eq_some_iff, ← hclean]
    constructor
    · rintro ⟨more, hmore, heq⟩
      rw [hsplit] at heq
      obtain ⟨hcopy, rfl⟩ := List.append_inj heq (by rw [hcopied, htake])
      rw [hcopy] at hmore
      exact ⟨hcopy, hmore⟩
    · rintro ⟨hcopy, hmore⟩
      rw [hcopy]
      exact ⟨_, hmore, hsplit.symm⟩
  · have hliteral : s.isLiteral = true := decide_eq_true (Nat.not_le.mp hmatch)
    have htaken : s.taken = 1 := if_neg hmatch
    have hclean : s.Clean := fun h => absurd h hmatch
    rw [State.item, if_neg hmatch, hliteral, State.next, htaken, and_iff_right hclean]
    cases hrest : s.rest with
    | nil => exact absurd hrest hne
    | cons b rest =>
        rw [List.take_succ_cons, List.take_zero, List.cons_append, List.nil_append, decode.eq_def]
        simp only [List.length_cons, Nat.succ_ne_zero, if_false, Option.map_eq_some_iff,
          List.cons.injEq, true_and, exists_eq_right]
        rfl

/-! ## The loops -/

theorem clean_of_nil {s : State} (h : s.rest = []) : s.Clean := by
  intro hmatch
  obtain ⟨-, hlen⟩ := longestMatch_spec hmatch
  have hle := (matchLen_le s.ring MAX_MATCH (longestMatch s.ring s.rest).2 s.rest).2
  rw [← hlen] at hle
  have hzero : s.rest.length = 0 := by rw [h]; rfl
  simp only [MIN_MATCH] at hmatch
  omega

theorem allClean_of_nil {s : State} (h : s.rest = []) : s.AllClean := by
  intro t ht
  rcases Relation.ReflTransGen.cases_head_iff.mp ht with rfl | ⟨-, ⟨hne, -⟩, -⟩
  · exact clean_of_nil h
  · exact absurd h hne

theorem allClean_iff {s : State} (h : s.rest ≠ []) : s.AllClean ↔ s.Clean ∧ s.next.AllClean := by
  constructor
  · exact fun hall => ⟨hall s Relation.ReflTransGen.refl,
      fun t ht => hall t (Relation.ReflTransGen.head ⟨h, rfl⟩ ht)⟩
  · rintro ⟨hclean, hall⟩ t ht
    rcases Relation.ReflTransGen.cases_head_iff.mp ht with rfl | ⟨_, ⟨-, rfl⟩, hrest⟩
    · exact hclean
    · exact hall t hrest

/-- What is left of a state is decoded right if and only if its matches are clean. -/
def Decodes (s : State) (input : Bytes) (flags : List Bool) : Prop :=
  decode input flags s.rest.length s.ring s.pos = some s.rest ↔ s.AllClean

theorem decodes_of_nil {s : State} (h : s.rest = []) (input : Bytes) (flags : List Bool) :
    Decodes s input flags := by
  rw [Decodes, h, List.length_nil, decode_zero]
  exact iff_of_true rfl (allClean_of_nil h)

theorem next_lt {s : State} (h : s.rest ≠ []) : s.next.rest.length < s.rest.length := by
  have hpos : 0 < s.rest.length := List.length_pos_iff.mpr h
  have htaken : 1 ≤ s.taken := by
    rw [State.taken]
    split_ifs with hmatch
    · exact le_trans (by decide) hmatch
    · exact le_refl 1
  rw [State.next, List.length_drop]
  omega

theorem group_nil {turns bit : Nat} {s : State} (h : s.rest = []) :
    group turns bit s = (0, [], s) := by
  cases turns with
  | zero => rfl
  | succ turns => rw [group, if_pos h]

/-- A turn of the inner loop. -/
theorem group_succ {turns bit flag : Nat} {s s' : State} {items : Bytes} (h : s.rest ≠ [])
    (hgroup : group (turns + 1) bit s = (flag, items, s')) :
    ∃ flag₁ items₁, group turns (bit + 1) s.next = (flag₁, items₁, s') ∧
      flag = (if s.isLiteral then 1 <<< bit else 0) ||| flag₁ ∧ items = s.item ++ items₁ := by
  rw [group, if_neg h] at hgroup
  cases hrest : group turns (bit + 1) s.next with
  | mk flag₁ more =>
      obtain ⟨items₁, s₁⟩ := more
      rw [hrest] at hgroup
      obtain ⟨hflag, hmore⟩ := Prod.mk.inj hgroup
      obtain ⟨hitems, rfl⟩ := Prod.mk.inj hmore
      exact ⟨flag₁, items₁, rfl, hflag.symm, hitems.symm⟩

/-- The bits of the flag of a group are its own. -/
theorem group_flag {turns : Nat} : ∀ {bit flag i : Nat} {s s' : State} {items : Bytes},
    group turns bit s = (flag, items, s') → flag.testBit i = true → bit ≤ i := by
  induction turns with
  | zero =>
      intro bit flag i s s' items hgroup h
      obtain ⟨rfl, -⟩ := Prod.mk.inj hgroup
      rw [Nat.zero_testBit] at h
      cases h
  | succ turns ih =>
      intro bit flag i s s' items hgroup h
      by_cases hnil : s.rest = []
      · rw [group_nil hnil] at hgroup
        obtain ⟨rfl, -⟩ := Prod.mk.inj hgroup
        rw [Nat.zero_testBit] at h
        cases h
      · obtain ⟨flag₁, items₁, hrest, rfl, -⟩ := group_succ hnil hgroup
        rw [Nat.testBit_or, Bool.or_eq_true] at h
        rcases h with h | h
        · split_ifs at h
          · rw [Nat.shiftLeft_eq, Nat.one_mul, Nat.testBit_two_pow] at h
            exact (of_decide_eq_true h).le
          · rw [Nat.zero_testBit] at h
            cases h
        · exact (Nat.le_succ bit).trans (ih hrest h)

theorem group_le {turns : Nat} : ∀ {bit flag : Nat} {s s' : State} {items : Bytes},
    group turns bit s = (flag, items, s') → s'.rest.length ≤ s.rest.length := by
  induction turns with
  | zero =>
      intro bit flag s s' items hgroup
      obtain ⟨-, hmore⟩ := Prod.mk.inj hgroup
      obtain ⟨-, rfl⟩ := Prod.mk.inj hmore
      exact Nat.le_refl _
  | succ turns ih =>
      intro bit flag s s' items hgroup
      by_cases hnil : s.rest = []
      · rw [group_nil hnil] at hgroup
        obtain ⟨-, hmore⟩ := Prod.mk.inj hgroup
        obtain ⟨-, rfl⟩ := Prod.mk.inj hmore
        exact Nat.le_refl _
      · obtain ⟨flag₁, items₁, hrest, -, -⟩ := group_succ hnil hgroup
        exact Nat.le_trans (ih hrest) (Nat.le_of_lt (next_lt hnil))

/-- A group is decoded right with any flag that has its bits. -/
theorem group_decodes {turns : Nat} : ∀ {bit flag₀ flag : Nat} {s s' : State} {items input : Bytes},
    group turns bit s = (flag₀, items, s') →
    (∀ i, bit ≤ i → i < bit + turns → flag.testBit i = flag₀.testBit i) → Decodes s' input [] →
    Decodes s (items ++ input) ((List.range' bit turns).map flag.testBit) := by
  induction turns with
  | zero =>
      intro bit flag₀ flag s s' items input hgroup _ hrest
      obtain ⟨-, hmore⟩ := Prod.mk.inj hgroup
      obtain ⟨rfl, rfl⟩ := Prod.mk.inj hmore
      exact hrest
  | succ turns ih =>
      intro bit flag₀ flag s s' items input hgroup hflag hrest
      by_cases hnil : s.rest = []
      · exact decodes_of_nil hnil _ _
      · obtain ⟨flag₁, items₁, hgroup₁, rfl, rfl⟩ := group_succ hnil hgroup
        -- the lowest bit is that of the item
        have hfirst : flag.testBit bit = s.isLiteral := by
          have hlater : flag₁.testBit bit = false := by
            by_contra htrue
            have hle := group_flag hgroup₁ (Bool.eq_true_of_not_eq_false htrue)
            omega
          rw [hflag bit (Nat.le_refl _) (by omega), Nat.testBit_or, hlater, Bool.or_false]
          generalize s.isLiteral = literal
          cases literal with
          | false => simp
          | true => simp [Nat.testBit_shiftLeft]
        have hothers : ∀ i, bit + 1 ≤ i → i < bit + 1 + turns →
            flag.testBit i = flag₁.testBit i := by
          intro i hlo hhi
          rw [hflag i (by omega) (by omega), Nat.testBit_or]
          have hother : (if s.isLiteral then 1 <<< bit else 0).testBit i = false := by
            split_ifs
            · rw [Nat.shiftLeft_eq, Nat.one_mul, Nat.testBit_two_pow]
              exact decide_eq_false (by omega)
            · exact Nat.zero_testBit i
          rw [hother, Bool.false_or]
        have hnext := ih hgroup₁ hothers hrest
        rw [Decodes, List.range'_succ, List.map_cons, hfirst, List.append_assoc, decode_item hnil,
          allClean_iff hnil]
        exact and_congr_right fun _ => hnext

/-- The outer loop. -/
theorem compressLoop_decodes {turns : Nat} : ∀ {s : State}, s.rest.length ≤ turns →
    Decodes s (compressLoop turns s) [] := by
  induction turns with
  | zero => exact fun h => decodes_of_nil (List.length_eq_zero_iff.mp (Nat.le_zero.mp h)) _ _
  | succ turns ih =>
      intro s h
      by_cases hnil : s.rest = []
      · exact decodes_of_nil hnil _ _
      · cases hgroup : group 8 0 s with
        | mk flag more =>
            obtain ⟨items, s'⟩ := more
            have hless : s'.rest.length ≤ turns := by
              obtain ⟨flag₁, items₁, hrest, -, -⟩ := group_succ hnil hgroup
              exact Nat.le_of_lt_succ (Nat.lt_of_lt_of_le
                (Nat.lt_of_le_of_lt (group_le hrest) (next_lt hnil)) h)
            have hloop : compressLoop (turns + 1) s
                = UInt8.ofNat flag :: (items ++ compressLoop turns s') := by
              rw [compressLoop, if_neg hnil, hgroup]
              rfl
            have hflag : ∀ i, 0 ≤ i → i < 0 + 8 →
                (UInt8.ofNat flag).toNat.testBit i = flag.testBit i := by
              intro i _ hi
              rw [UInt8.toNat_ofNat', Nat.testBit_mod_two_pow, decide_eq_true (by omega),
                Bool.true_and]
            have hdecodes := group_decodes hgroup hflag (ih hless)
            have hlength : s.rest.length ≠ 0 := fun hzero => hnil (List.length_eq_zero_iff.mp hzero)
            rw [Decodes, hloop, decode.eq_def]
            simp only [hlength, if_false]
            exact hdecodes

/-- **SZDD**: the compressed data is decoded right exactly when no match of the encoder runs into
the write position and finds another byte there. -/
theorem szdd_iff (x : Bytes) :
    decompress (compressSzdd x) x.length = some x ↔ ∀ s, Reaches (start x) s → s.Clean :=
  compressLoop_decodes (s := start x) (le_refl _)

/-- The ring of spaces has the one letter at the write position, and the two spaces behind it. -/
theorem letter_spaces_lost :
    ¬ ∀ x : Bytes, decompress (compressSzdd x) x.length = some x := by
  intro h
  have hclean := (compressLoop_decodes (s := start [0x61, 0x61, 0x20, 0x20]) (le_refl _)).mp
    (h [0x61, 0x61, 0x20, 0x20])
  -- the first letter is not in the ring
  have hliteral : ¬ MIN_MATCH ≤ (longestMatch (start [0x61, 0x61, 0x20, 0x20]).ring
      (start [0x61, 0x61, 0x20, 0x20]).rest).1 := by
    intro hmatch
    obtain ⟨-, hlen⟩ := longestMatch_spec hmatch
    rw [hlen] at hmatch
    have hzero := matchLen_spec _ (lt_of_lt_of_le (by decide : 0 < MIN_MATCH) hmatch)
    exact absurd (Option.some.inj hzero) (by decide)
  have htaken : (start [0x61, 0x61, 0x20, 0x20]).taken = 1 := if_neg hliteral
  have hnext : (start [0x61, 0x61, 0x20, 0x20]).next
      = ⟨put (fun _ => SPACE) 4078 0x61, 4079, [0x61, 0x20, 0x20]⟩ := by
    rw [State.next, htaken]
    rfl
  have hsecond := ((allClean_iff (List.cons_ne_nil _ _)).mp hclean).2 _ Relation.ReflTransGen.refl
  rw [hnext] at hsecond
  have hthree : matchLen (put (fun _ => SPACE) 4078 0x61) MAX_MATCH 4078 [0x61, 0x20, 0x20] = 3 := by
    decide
  have hlong := (longestMatch_best (put (fun _ => SPACE) 4078 0x61) [0x61, 0x20, 0x20]).1 4078
    (by decide)
  rw [hthree] at hlong
  obtain ⟨hoff, hlen⟩ := longestMatch_spec hlong
  -- the letter is at one place only
  have hletter := matchLen_spec _ (lt_of_lt_of_le (by decide : 0 < 3) (hlen ▸ hlong))
  have hplace : (longestMatch (put (fun _ => SPACE) 4078 0x61) [0x61, 0x20, 0x20]).2 = 4078 := by
    by_contra hne
    have hspace : put (fun _ => SPACE) 4078 0x61
        (longestMatch (put (fun _ => SPACE) 4078 0x61) [0x61, 0x20, 0x20]).2 = SPACE :=
      Function.update_of_ne hne _ _
    rw [List.getElem?_cons_zero, Nat.add_zero, Nat.mod_eq_of_lt hoff, hspace] at hletter
    exact absurd (Option.some.inj hletter) (by decide)
  have hsame := hsecond hlong 0 1 (by decide) (by
    show 1 < (longestMatch (put (fun _ => SPACE) 4078 0x61) [0x61, 0x20, 0x20]).1
    omega) (by
    show ((longestMatch (put (fun _ => SPACE) 4078 0x61) [0x61, 0x20, 0x20]).2 + 1) % _ = _
    rw [hplace])
  exact absurd hsame (by decide)

end Mountin.Szdd
