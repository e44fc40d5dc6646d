import Mathlib.Data.Nat.Bitwise
import Mountin.Basic.CodeTree
import Mountin.Basic.Splice
import Mountin.Disk.DmsDeep

set_option autoImplicit false

/-! # The tables of the heavy modes

`make_table` writes a canonical code into a table of 12 bits and a tree behind it. `heavy_table`
says which code lengths it accepts and that `heavy_decode_c` reads the codewords back.
-/

namespace Mountin.Dms

open CodeTree

/-! ## The characters in order -/

/-- The positions of a length, from `pos` on. -/
def charsFrom (len : Nat) : (pos : Nat) → List Nat → List Nat
  | _, [] => []
  | pos, b :: bs => if b = len then pos :: charsFrom len (pos + 1) bs else charsFrom len (pos + 1) bs

/-- The characters of a length with that length. -/
def charsOf (blen : List Nat) (len next : Nat) : List (Nat × Nat) :=
  (charsFrom len next (blen.drop next)).map fun c => (len, c)

/-- The characters that `mktbl` still has to place. -/
def remaining (blen : List Nat) (len next : Nat) : List (Nat × Nat) :=
  charsOf blen len next ++ (List.range' (len + 1) (31 - len)).flatMap fun l => charsOf blen l 0

/-- The characters with a codeword: by length, then by character. -/
def symbols (blen : List Nat) : List (Nat × Nat) :=
  (List.range' 1 31).flatMap fun l => charsOf blen l 0

theorem charsFrom_some {len pos k : Nat} {xs : List Nat}
    (h : xs.findIdx? (· = len) = some k) :
    charsFrom len pos xs = (pos + k) :: charsFrom len (pos + k + 1) (xs.drop (k + 1)) := by
  induction xs generalizing pos k with
  | nil => cases h
  | cons b bs ih =>
      rw [List.findIdx?_cons] at h
      by_cases hb : b = len
      · rw [if_pos (by simpa using hb)] at h
        obtain rfl := Option.some.inj h
        rw [charsFrom, if_pos hb]
        rfl
      · rw [if_neg (by simpa using hb), Option.map_eq_some_iff] at h
        obtain ⟨k', hk, rfl⟩ := h
        rw [charsFrom, if_neg hb, ih hk, List.drop_succ_cons,
          show pos + 1 + k' = pos + (k' + 1) by omega]

theorem charsFrom_none {len pos : Nat} {xs : List Nat} (h : xs.findIdx? (· = len) = none) :
    charsFrom len pos xs = [] := by
  induction xs generalizing pos with
  | nil => rfl
  | cons b bs ih =>
      rw [List.findIdx?_cons] at h
      by_cases hb : b = len
      · rw [if_pos (by simpa using hb)] at h
        cases h
      · rw [if_neg (by simpa using hb), Option.map_eq_none_iff] at h
        rw [charsFrom, if_neg hb, ih h]

theorem mem_charsFrom {len pos c : Nat} {xs : List Nat} (h : c ∈ charsFrom len pos xs) :
    pos ≤ c ∧ xs[c - pos]? = some len := by
  induction xs generalizing pos with
  | nil => cases h
  | cons b bs ih =>
      have hrest : c ∈ charsFrom len (pos + 1) bs → pos ≤ c ∧ (b :: bs)[c - pos]? = some len := by
        intro hc
        obtain ⟨hlo, hat⟩ := ih hc
        refine ⟨by omega, ?_⟩
        rw [show c - pos = c - (pos + 1) + 1 by omega, List.getElem?_cons_succ]
        exact hat
      rw [charsFrom] at h
      split_ifs at h with hb
      · rcases List.mem_cons.mp h with rfl | h
        · refine ⟨le_refl _, ?_⟩
          rw [Nat.sub_self, List.getElem?_cons_zero, hb]
        · exact hrest h
      · exact hrest h

theorem mem_charsOf {blen : List Nat} {len next : Nat} {e : Nat × Nat}
    (h : e ∈ charsOf blen len next) : e.1 = len ∧ blen[e.2]? = some len := by
  obtain ⟨c, hc, rfl⟩ := List.mem_map.mp h
  obtain ⟨hlo, hat⟩ := mem_charsFrom hc
  refine ⟨rfl, ?_⟩
  rw [List.getElem?_drop] at hat
  rwa [show next + (c - next) = c by omega] at hat

theorem mem_remaining {blen : List Nat} {len next : Nat} {e : Nat × Nat}
    (h : e ∈ remaining blen len next) : len ≤ e.1 ∧ blen[e.2]? = some e.1 := by
  rw [remaining, List.mem_append, List.mem_flatMap] at h
  rcases h with h | ⟨l, hl, h⟩
  · obtain ⟨rfl, hat⟩ := mem_charsOf h
    exact ⟨le_refl _, hat⟩
  · rw [List.mem_range'_1] at hl
    obtain ⟨rfl, hat⟩ := mem_charsOf h
    exact ⟨by omega, hat⟩

theorem remaining_start (blen : List Nat) : remaining blen 1 0 = symbols blen := by
  rw [symbols, remaining, show (31 : Nat) = 30 + 1 from rfl, List.range'_succ, List.flatMap_cons]
  rfl

/-- The next character of a length. -/
theorem remaining_some {blen : List Nat} {len next k : Nat}
    (h : (blen.drop next).findIdx? (· = len) = some k) :
    remaining blen len next = (len, next + k) :: remaining blen len (next + k + 1) := by
  rw [remaining, charsOf, charsFrom_some h, List.drop_drop, List.map_cons, List.cons_append,
    remaining, charsOf, show next + (k + 1) = next + k + 1 by omega]

/-- When a length is used up, the next one follows. -/
theorem remaining_none {blen : List Nat} (hsmall : ∀ l ∈ blen, l ≤ 31) {len next : Nat}
    (h : (blen.drop next).findIdx? (· = len) = none) :
    remaining blen len next = remaining blen (len + 1) 0 := by
  rw [remaining, charsOf, charsFrom_none h, List.map_nil, List.nil_append]
  rcases Nat.lt_or_ge len 31 with hlt | hge
  · rw [show 31 - len = 31 - (len + 1) + 1 by omega, List.range'_succ, List.flatMap_cons, remaining]
  · rw [show 31 - len = 0 by omega, List.range'_zero, List.flatMap_nil]
    symm
    rw [List.eq_nil_iff_forall_not_mem]
    intro e he
    obtain ⟨hlo, hat⟩ := mem_remaining he
    have hle := hsmall e.1 (List.mem_of_getElem? hat)
    omega

theorem symbols_sorted (blen : List Nat) : (symbols blen).Pairwise fun a b => a.1 ≤ b.1 := by
  rw [symbols, List.pairwise_flatMap]
  refine ⟨fun l _ => ?_, ?_⟩
  · rw [charsOf, List.pairwise_map]
    exact List.pairwise_of_forall fun _ _ => le_refl _
  · refine (List.pairwise_lt_range' 1 (by decide)).imp fun {a b} hab x hx y hy => ?_
    rw [(mem_charsOf hx).1, (mem_charsOf hy).1]
    exact hab.le

theorem length_charsFrom (len pos : Nat) (xs : List Nat) :
    (charsFrom len pos xs).length = xs.count len := by
  induction xs generalizing pos with
  | nil => rfl
  | cons b bs ih =>
      rw [charsFrom, List.count_cons]
      by_cases hb : b = len
      · rw [if_pos hb, List.length_cons, ih, if_pos (by simpa using hb)]
      · rw [if_neg hb, ih, if_neg (by simpa using hb), Nat.add_zero]

theorem sum_indicator_le {x : Nat} {ls : List Nat} (h : ls.Nodup) :
    (ls.map fun l => if x == l then 1 else 0).sum ≤ 1 := by
  induction ls with
  | nil => exact Nat.zero_le 1
  | cons l ls ih =>
      rw [List.nodup_cons] at h
      rw [List.map_cons, List.sum_cons]
      by_cases hx : x = l
      · have hzero : (ls.map fun l => if x == l then 1 else 0).sum = 0 := by
          rw [List.sum_eq_zero_iff]
          intro n hn
          obtain ⟨l', hl', rfl⟩ := List.mem_map.mp hn
          have hne : x ≠ l' := by
            rintro rfl
            exact h.1 (hx ▸ hl')
          rw [if_neg (by simpa using hne)]
        rw [if_pos (by simpa using hx), hzero]
      · rw [if_neg (by simpa using hx), Nat.zero_add]
        exact ih h.2

theorem sum_count_le {ls : List Nat} (h : ls.Nodup) (xs : List Nat) :
    (ls.map fun l => xs.count l).sum ≤ xs.length := by
  induction xs with
  | nil => simp
  | cons x xs ih =>
      have hsplit : (ls.map fun l => (x :: xs).count l).sum
          = (ls.map fun l => xs.count l).sum + (ls.map fun l => if x == l then 1 else 0).sum := by
        rw [← List.sum_map_add]
        exact congrArg List.sum (List.map_congr_left fun l _ => List.count_cons)
      have hone := sum_indicator_le (x := x) h
      rw [hsplit, List.length_cons]
      omega

/-- There are at most as many symbols as characters. -/
theorem length_symbols_le (blen : List Nat) : (symbols blen).length ≤ blen.length := by
  rw [symbols, List.length_flatMap]
  refine le_trans (le_of_eq ?_) (sum_count_le (List.nodup_range' : (List.range' 1 31).Nodup) blen)
  refine congrArg List.sum (List.map_congr_left fun l _ => ?_)
  rw [charsOf, List.length_map, length_charsFrom, List.drop_zero]

/-! ## One call of `mktbl` -/

/-- The state of a call that found no leaf. -/
def deeper (s : MkTbl) : MkTbl :=
  let s := if s.len = s.depth then { s with next := 0, len := s.len + 1, bit := s.bit / 2 } else s
  { s with depth := s.depth + 1 }

/-- The two subtrees of a call that found no leaf. -/
def branch (n : Nat) (blen : List Nat) (tblsiz maxdepth fuel : Nat) (s : MkTbl) :
    Except IoError (Nat × MkTbl) :=
  if s.depth < maxdepth then do
    let (_, s) ← mktbl n blen tblsiz maxdepth fuel s
    let (_, s) ← mktbl n blen tblsiz maxdepth fuel s
    return (0, { s with depth := s.depth - 1 })
  else if 32 < s.depth then .error (.invalidData "Heavy: table depth exceeded")
  else do
    let i := s.avail
    let s := { s with avail := s.avail + 1 }
    require (i < 2 * n - 1) (.invalidData "Heavy: table avail exceeded")
    let (l, s) ← mktbl n blen tblsiz maxdepth fuel s
    let left ← store s.left i l
    let s := { s with left }
    let (r, s) ← mktbl n blen tblsiz maxdepth fuel s
    let right ← store s.right i r
    let s := { s with right }
    require (s.codeword < tblsiz) (.invalidData "Heavy: codeword overflow")
    if s.depth = maxdepth then do
      let tbl ← store s.tbl s.codeword i
      return (i, { s with tbl, codeword := s.codeword + 1, depth := s.depth - 1 })
    else return (i, { s with depth := s.depth - 1 })

/-- The search of a call for a leaf. -/
def nextLeaf (n : Nat) (blen : List Nat) (s : MkTbl) : Option Nat :=
  if s.len = s.depth then ((blen.take n).drop s.next).findIdx? (· = s.len) else none

theorem mktbl_leaf {n : Nat} {blen : List Nat} {tblsiz maxdepth fuel k : Nat} {s : MkTbl}
    (h : nextLeaf n blen s = some k) :
    mktbl n blen tblsiz maxdepth (fuel + 1) s =
      if tblsiz < s.codeword + s.bit then .error (.invalidData "Heavy: table overflow")
      else .ok (s.next + k, { s with
        next := s.next + k + 1
        codeword := s.codeword + s.bit
        tbl := fillRange s.tbl s.codeword (s.codeword + s.bit) (s.next + k) }) := by
  rw [nextLeaf] at h
  rw [mktbl, h]

theorem mktbl_branch {n : Nat} {blen : List Nat} {tblsiz maxdepth fuel : Nat} {s : MkTbl}
    (h : nextLeaf n blen s = none) :
    mktbl n blen tblsiz maxdepth (fuel + 1) s = branch n blen tblsiz maxdepth fuel (deeper s) := by
  rw [nextLeaf] at h
  rw [mktbl, h]
  rfl

theorem deeper_depth (s : MkTbl) : (deeper s).depth = s.depth + 1 := by
  unfold deeper
  split_ifs <;> rfl

/-- No leaf: the remaining characters are longer than the depth. -/
theorem deeper_spec {n : Nat} {blen : List Nat} (hsmall : ∀ l ∈ blen.take n, l ≤ 31) {s : MkTbl}
    (hlen : s.depth ≤ s.len) (h : nextLeaf n blen s = none) :
    s.depth + 1 ≤ (deeper s).len ∧
      remaining (blen.take n) (deeper s).len (deeper s).next
        = remaining (blen.take n) s.len s.next := by
  rw [nextLeaf] at h
  unfold deeper
  split_ifs at h ⊢ with heq
  · exact ⟨by show s.depth + 1 ≤ s.len + 1; omega, (remaining_none hsmall h).symm⟩
  · exact ⟨by show s.depth + 1 ≤ s.len; omega, rfl⟩

theorem nextLeaf_some {n : Nat} {blen : List Nat} {s : MkTbl} {k : Nat}
    (h : nextLeaf n blen s = some k) : s.len = s.depth ∧
      remaining (blen.take n) s.len s.next
        = (s.len, s.next + k) :: remaining (blen.take n) s.len (s.next + k + 1) := by
  rw [nextLeaf] at h
  split_ifs at h with heq
  exact ⟨heq, remaining_some h⟩

/-- A call without a leaf grows two subtrees. -/
theorem grow_branch {blen : List Nat} {fuel d len next : Nat} {l r : Code}
    {rest₁ rest₂ : List (Nat × Nat)} (hlen : d + 1 ≤ len)
    (hl : grow fuel (d + 1) (remaining blen len next) = some (l, rest₁))
    (hr : grow fuel (d + 1) rest₁ = some (r, rest₂)) :
    grow (fuel + 1) d (remaining blen len next) = some (.node l r, rest₂) := by
  cases hrem : remaining blen len next with
  | nil => rw [hrem, grow_nil] at hl; cases hl
  | cons e rest =>
      have hlo := (mem_remaining (hrem ▸ List.mem_cons_self : e ∈ remaining blen len next)).1
      rw [hrem] at hl
      rw [grow, if_neg (by omega), hl, Option.bind_eq_bind, Option.bind_some]
      simp only [hr, Option.bind_some]
      rfl

theorem ungrow_branch {blen : List Nat} {fuel d len next : Nat} {t : Code}
    {rest : List (Nat × Nat)} (hlen : d + 1 ≤ len)
    (h : grow (fuel + 1) d (remaining blen len next) = some (t, rest)) :
    ∃ l r rest₁, t = .node l r ∧ grow fuel (d + 1) (remaining blen len next) = some (l, rest₁) ∧
      grow fuel (d + 1) rest₁ = some (r, rest) := by
  cases hrem : remaining blen len next with
  | nil => rw [hrem] at h; cases h
  | cons e rest' =>
      have hlo := (mem_remaining (hrem ▸ List.mem_cons_self : e ∈ remaining blen len next)).1
      rw [hrem, grow, if_neg (by omega)] at h
      simp only [Option.bind_eq_bind, Option.bind_eq_some_iff, Prod.exists] at h
      obtain ⟨l, rest₁, hl, r, rest₂, hr, h⟩ := h
      obtain ⟨rfl, rfl⟩ := Prod.mk.inj (Option.some.inj h)
      exact ⟨l, r, rest₁, rfl, hl, hr⟩

/-- A call that returns has taken the symbols of a tree. -/
theorem mktbl_grows {n : Nat} {blen : List Nat} (hsmall : ∀ l ∈ blen.take n, l ≤ 31)
    {tblsiz maxdepth fuel j : Nat} {s s' : MkTbl}
    (h : mktbl n blen tblsiz maxdepth fuel s = .ok (j, s')) (hlen : s.depth ≤ s.len) :
    (∃ t, grow fuel s.depth (remaining (blen.take n) s.len s.next)
      = some (t, remaining (blen.take n) s'.len s'.next)) ∧
      s'.depth = s.depth ∧ s.depth ≤ s'.len := by
  induction fuel generalizing s j s' with
  | zero => cases h
  | succ fuel ih =>
      cases hleaf : nextLeaf n blen s with
      | some k =>
          obtain ⟨heq, hrem⟩ := nextLeaf_some hleaf
          rw [mktbl_leaf hleaf] at h
          split_ifs at h
          obtain ⟨-, rfl⟩ := Prod.mk.inj (Except.ok.inj h)
          refine ⟨⟨.leaf (s.next + k), ?_⟩, rfl, hlen⟩
          rw [hrem, grow, if_pos heq]
      | none =>
          obtain ⟨hdeep, hrem⟩ := deeper_spec hsmall hlen hleaf
          have hdepth := deeper_depth s
          rw [mktbl_branch hleaf, branch] at h
          rw [← hrem]
          generalize deeper s = s₀ at h hdeep hdepth ⊢
          split_ifs at h with hmax hexceeded
          · simp only [Except.bind_eq_ok, Prod.exists] at h
            obtain ⟨l, s₁, hl, r, s₂, hr, h⟩ := h
            obtain ⟨-, rfl⟩ := Prod.mk.inj (Except.ok.inj h)
            obtain ⟨⟨t₁, h₁⟩, hd₁, hl₁⟩ := ih hl (by omega)
            obtain ⟨⟨t₂, h₂⟩, hd₂, hl₂⟩ := ih hr (by omega)
            rw [hdepth] at h₁
            rw [hd₁, hdepth] at h₂
            exact ⟨⟨_, grow_branch hdeep h₁ h₂⟩, by show s₂.depth - 1 = s.depth; omega,
              by show s.depth ≤ s₂.len; omega⟩
          · simp only [Except.bind_eq_ok, Prod.exists] at h
            obtain ⟨_, -, l, s₁, hl, left, hleft, r, s₂, hr, right, hright, _, -, h⟩ := h
            obtain ⟨⟨t₁, h₁⟩, hd₁, hl₁⟩ := ih hl (by show s₀.depth ≤ s₀.len; omega)
            obtain ⟨⟨t₂, h₂⟩, hd₂, hl₂⟩ := ih hr (by show s₁.depth ≤ s₁.len; rw [hd₁]; exact hl₁)
            replace hd₁ : s₁.depth = s₀.depth := hd₁
            replace hd₂ : s₂.depth = s₁.depth := hd₂
            replace hl₂ : s₁.depth ≤ s₂.len := hl₂
            replace h₁ : grow fuel s₀.depth (remaining (blen.take n) s₀.len s₀.next)
              = some (t₁, remaining (blen.take n) s₁.len s₁.next) := h₁
            replace h₂ : grow fuel s₁.depth (remaining (blen.take n) s₁.len s₁.next)
              = some (t₂, remaining (blen.take n) s₂.len s₂.next) := h₂
            rw [hdepth] at h₁
            rw [hd₁, hdepth] at h₂
            have hgrow := grow_branch hdeep h₁ h₂
            split_ifs at h with htop
            · simp only [Except.bind_eq_ok] at h
              obtain ⟨tbl, -, h⟩ := h
              obtain ⟨-, rfl⟩ := Prod.mk.inj (Except.ok.inj h)
              exact ⟨⟨_, hgrow⟩, by show s₂.depth - 1 = s.depth; omega,
                by show s.depth ≤ s₂.len; omega⟩
            · obtain ⟨-, rfl⟩ := Prod.mk.inj (Except.ok.inj h)
              exact ⟨⟨_, hgrow⟩, by show s₂.depth - 1 = s.depth; omega,
                by show s.depth ≤ s₂.len; omega⟩

/-! ## What a call leaves -/

/-- The value `j` stands for a tree whose nodes are between two indices. -/
def Rep (left right : List Nat) (lo hi : Nat) : Code → Nat → Prop
  | .leaf c, j => j = c
  | .node l r, j => lo ≤ j ∧ j < hi ∧
      (∃ jl, left[j]? = some jl ∧ Rep left right (j + 1) hi l jl) ∧
      ∃ jr, right[j]? = some jr ∧ Rep left right (j + 1) hi r jr

/-- The entries of the table from `base` on are those of a tree at depth `d`. -/
def Tab (tbl left right : List Nat) (lo hi : Nat) : Code → (d base : Nat) → Prop
  | .leaf c, d, base => ∀ x, base ≤ x → x < base + 4096 / 2 ^ d → tbl[x]? = some c
  | .node l r, d, base =>
      if d < 12 then
        Tab tbl left right lo hi l (d + 1) base ∧
          Tab tbl left right lo hi r (d + 1) (base + 4096 / 2 ^ (d + 1))
      else ∃ j, tbl[base]? = some j ∧ Rep left right lo hi (.node l r) j

/-- Two arrays agree between two indices. -/
def Agree (a b : List Nat) (lo hi : Nat) : Prop := ∀ i, lo ≤ i → i < hi → b[i]? = a[i]?

theorem Agree.mono {a b : List Nat} {lo hi lo' hi' : Nat} (h : Agree a b lo hi) (hlo : lo ≤ lo')
    (hhi : hi' ≤ hi) : Agree a b lo' hi' :=
  fun i hi hi' => h i (by omega) (by omega)

theorem Agree.trans {a b c : List Nat} {lo hi : Nat} (h : Agree a b lo hi) (h' : Agree b c lo hi) :
    Agree a c lo hi :=
  fun i hlo hhi => (h' i hlo hhi).trans (h i hlo hhi)

theorem Agree.set (a : List Nat) {lo hi i : Nat} (x : Nat) (h : i < lo ∨ hi ≤ i) :
    Agree a (a.set i x) lo hi := by
  intro k hlo hhi
  exact List.getElem?_set_ne (by omega)

theorem Rep.mono {left right left' right' : List Nat} {t : Code} {lo hi lo' hi' j : Nat}
    (h : Rep left right lo hi t j) (hlo : lo' ≤ lo) (hhi : hi ≤ hi')
    (hleft : Agree left left' lo hi) (hright : Agree right right' lo hi) :
    Rep left' right' lo' hi' t j := by
  induction t generalizing lo lo' j with
  | leaf c => exact h
  | node l r ihl ihr =>
      obtain ⟨hj, hj', ⟨jl, hjl, hl⟩, jr, hjr, hr⟩ := h
      refine ⟨by omega, by omega, ⟨jl, (hleft j hj hj').trans hjl, ?_⟩, jr,
        (hright j hj hj').trans hjr, ?_⟩
      · exact ihl hl (le_refl _) (hleft.mono (by omega) (le_refl _))
          (hright.mono (by omega) (le_refl _))
      · exact ihr hr (le_refl _) (hleft.mono (by omega) (le_refl _))
          (hright.mono (by omega) (le_refl _))

theorem width_halves {d : Nat} (h : d < 12) : 4096 / 2 ^ d = 2 * (4096 / 2 ^ (d + 1)) := by
  interval_cases d <;> rfl

theorem width_pos {d : Nat} (h : d ≤ 12) : 0 < 4096 / 2 ^ d := by
  interval_cases d <;> decide

theorem width_zero {d : Nat} (h : 12 < d) : 4096 / 2 ^ d = 0 := by
  apply Nat.div_eq_of_lt
  calc 4096 < 2 ^ 13 := by decide
    _ ≤ 2 ^ d := Nat.pow_le_pow_right (by decide) h

theorem Tab.mono {tbl left right tbl' left' right' : List Nat} {t : Code} {lo hi lo' hi' d base : Nat}
    (h : Tab tbl left right lo hi t d base) (hd : d ≤ 12) (hlo : lo' ≤ lo) (hhi : hi ≤ hi')
    (htbl : Agree tbl tbl' base (base + 4096 / 2 ^ d)) (hleft : Agree left left' lo hi)
    (hright : Agree right right' lo hi) : Tab tbl' left' right' lo' hi' t d base := by
  induction t generalizing d base with
  | leaf c => exact fun x hx hx' => (htbl x hx hx').trans (h x hx hx')
  | node l r ihl ihr =>
      rw [Tab] at h ⊢
      split_ifs at h ⊢ with hdeep
      · have hhalves := width_halves hdeep
        exact ⟨ihl h.1 hdeep (htbl.mono (le_refl _) (by omega)),
          ihr h.2 hdeep (htbl.mono (by omega) (by omega))⟩
      · obtain ⟨j, hj, hrep⟩ := h
        have hwidth := width_pos hd
        exact ⟨j, (htbl base (le_refl _) (by omega)).trans hj, hrep.mono hlo hhi hleft hright⟩

/-- What a call at depth `d` leaves: its table entries and its nodes are those of the tree, and
everything else stays. -/
structure Built (d : Nat) (s s' : MkTbl) (t : Code) (j : Nat) : Prop where
  codeword : s'.codeword = s.codeword + 4096 / 2 ^ d
  bit : s'.bit = 4096 / 2 ^ s'.len
  avail : s.avail ≤ s'.avail ∧ s'.avail ≤ s.avail + t.nodes
  table : s'.tbl.length = s.tbl.length
  lefts : s'.left.length = s.left.length
  rights : s'.right.length = s.right.length
  keepTable : Agree s.tbl s'.tbl 0 s.codeword
  keepLeft : Agree s.left s'.left 0 s.avail
  keepRight : Agree s.right s'.right 0 s.avail
  rep : 12 ≤ d → Rep s'.left s'.right s.avail s'.avail t j
  tab : d ≤ 12 → Tab s'.tbl s'.left s'.right s.avail s'.avail t d s.codeword

/-- A state from which a call at depth `d` for a tree with so many nodes goes through. -/
structure Ready (d nodes : Nat) (s : MkTbl) : Prop where
  bit : s.bit = 4096 / 2 ^ s.len
  codeword : s.codeword + 4096 / 2 ^ d ≤ 4096 ∧ s.codeword < 4096
  avail : s.avail + nodes ≤ 1019
  table : s.tbl.length = 4096
  lefts : s.left.length = 1019
  rights : s.right.length = 1028

theorem fillRange_eq (tbl : List Nat) (start w x : Nat) :
    fillRange tbl start (start + w) x = tbl.splice start (List.replicate w x) := by
  rw [fillRange, List.splice, Nat.add_sub_cancel_left, List.length_replicate]

theorem deeper_bit {s : MkTbl} (h : s.bit = 4096 / 2 ^ s.len) :
    (deeper s).bit = 4096 / 2 ^ (deeper s).len := by
  unfold deeper
  split_ifs
  · show s.bit / 2 = 4096 / 2 ^ (s.len + 1)
    rw [h, Nat.div_div_eq_div_mul, pow_succ]
  · exact h

theorem Ready.deeper {d d' nodes nodes' : Nat} {s : MkTbl} (h : Ready d nodes s)
    (hwidth : 4096 / 2 ^ d' ≤ 4096 / 2 ^ d) (hnodes : nodes' ≤ nodes) :
    Ready d' nodes' (deeper s) := by
  obtain ⟨hbit, hcode, havail, htable, hlefts, hrights⟩ := h
  have hbit' := deeper_bit hbit
  unfold Dms.deeper at hbit' ⊢
  split_ifs at hbit' ⊢
  · exact ⟨hbit', ⟨by dsimp only; omega, hcode.2⟩, by dsimp only; omega, htable, hlefts, hrights⟩
  · exact ⟨hbit', ⟨by dsimp only; omega, hcode.2⟩, by dsimp only; omega, htable, hlefts, hrights⟩

theorem Built.of_deeper {d : Nat} {s s' : MkTbl} {t : Code} {j : Nat}
    (h : Built d (deeper s) s' t j) : Built d s s' t j := by
  obtain ⟨h1, h2, h3, h4, h5, h6, h7, h8, h9, h10, h11⟩ := h
  unfold deeper at h1 h3 h4 h5 h6 h7 h8 h9 h10 h11
  split_ifs at h1 h3 h4 h5 h6 h7 h8 h9 h10 h11 <;>
    exact ⟨h1, h2, h3, h4, h5, h6, h7, h8, h9, h10, h11⟩

/-- A leaf. -/
theorem built_leaf {s : MkTbl} (hready : Ready s.depth 0 s) (heq : s.len = s.depth) (c next : Nat) :
    Built s.depth s { s with
      next, codeword := s.codeword + s.bit
      tbl := fillRange s.tbl s.codeword (s.codeword + s.bit) c } (.leaf c) c := by
  obtain ⟨hbit, hcode, -, htable, -, -⟩ := hready
  rw [heq] at hbit
  have hlen : s.codeword + (List.replicate s.bit c).length ≤ s.tbl.length := by
    rw [List.length_replicate]
    omega
  have hoff : s.codeword ≤ s.tbl.length := by omega
  refine ⟨?_, ?_, ⟨le_refl _, Nat.le_add_right _ _⟩, ?_, rfl, rfl, ?_, fun i _ _ => rfl, fun i _ _ => rfl,
    fun _ => rfl, fun _ => ?_⟩
  · show s.codeword + s.bit = _
    rw [hbit]
  · show s.bit = 4096 / 2 ^ s.len
    rw [hbit, heq]
  · show (fillRange _ _ _ _).length = _
    rw [fillRange_eq, List.length_splice hlen]
  · intro i _ hi
    show (fillRange _ _ _ _)[i]? = _
    rw [fillRange_eq, List.getElem?_splice hoff, if_neg (by omega)]
  · intro x hx hx'
    show (fillRange _ _ _ _)[x]? = _
    rw [fillRange_eq, List.getElem?_splice hoff, List.length_replicate,
      if_pos (by omega), List.getElem?_replicate, if_pos (by omega)]

/-- Two subtrees in the table. -/
theorem built_inner {d k j j₁ j₂ : Nat} (hd : d < 12) {s s₁ s₂ : MkTbl} {l r : Code}
    (b₁ : Built (d + 1) s s₁ l j₁) (b₂ : Built (d + 1) s₁ s₂ r j₂) :
    Built d s { s₂ with depth := k } (.node l r) j := by
  have hhalves := width_halves hd
  have ha₁ := b₁.avail
  have ha₂ := b₂.avail
  refine ⟨?_, b₂.bit, ⟨?_, ?_⟩, b₂.table.trans b₁.table, b₂.lefts.trans b₁.lefts,
    b₂.rights.trans b₁.rights, ?_, ?_, ?_, fun h => absurd h (by omega), fun _ => ?_⟩
  · show s₂.codeword = _
    rw [b₂.codeword, b₁.codeword]
    omega
  · show s.avail ≤ s₂.avail
    omega
  · show s₂.avail ≤ s.avail + (1 + l.nodes + r.nodes)
    omega
  · exact b₁.keepTable.trans (b₂.keepTable.mono (le_refl _) (by rw [b₁.codeword]; omega))
  · exact b₁.keepLeft.trans (b₂.keepLeft.mono (le_refl _) ha₁.1)
  · exact b₁.keepRight.trans (b₂.keepRight.mono (le_refl _) ha₁.1)
  · rw [Tab, if_pos hd]
    have hleft := (b₁.tab (by omega)).mono (by omega) (le_refl _) ha₂.1
      (b₂.keepTable.mono (Nat.zero_le _) (by rw [b₁.codeword]))
      (b₂.keepLeft.mono (Nat.zero_le _) (le_refl _))
      (b₂.keepRight.mono (Nat.zero_le _) (le_refl _))
    have hright : Tab s₂.tbl s₂.left s₂.right s.avail s₂.avail r (d + 1) s₁.codeword :=
      (b₂.tab (by omega)).mono (by omega) ha₁.1 (le_refl _) (fun _ _ _ => rfl) (fun _ _ _ => rfl)
        fun _ _ _ => rfl
    rw [b₁.codeword] at hright
    exact ⟨hleft, hright⟩

/-- The two subtrees of a node and what is stored for them. -/
structure Joined (d : Nat) (s s₁ s₂ : MkTbl) (l r : Code) (jl jr : Nat) : Prop where
  first : Built (d + 1) { s with avail := s.avail + 1 } s₁ l jl
  second : Built (d + 1) { s₁ with left := s₁.left.set s.avail jl } s₂ r jr
  roomLeft : s.avail < s₁.left.length
  roomRight : s.avail < s₂.right.length

theorem Joined.availBounds {d jl jr : Nat} {s s₁ s₂ : MkTbl} {l r : Code}
    (h : Joined d s s₁ s₂ l r jl jr) :
    s.avail + 1 ≤ s₁.avail ∧ s₁.avail ≤ s₂.avail ∧
      s₂.avail ≤ s.avail + (Code.node l r).nodes := by
  have ha₁ : s.avail + 1 ≤ s₁.avail ∧ s₁.avail ≤ s.avail + 1 + l.nodes := h.first.avail
  have ha₂ : s₁.avail ≤ s₂.avail ∧ s₂.avail ≤ s₁.avail + r.nodes := h.second.avail
  rw [Code.nodes]
  omega

theorem Joined.rep {d jl jr : Nat} {s s₁ s₂ : MkTbl} {l r : Code} (hd : 12 ≤ d)
    (h : Joined d s s₁ s₂ l r jl jr) :
    Rep s₂.left (s₂.right.set s.avail jr) s.avail s₂.avail (.node l r) s.avail := by
  obtain ⟨h₁, h₂, -⟩ := h.availBounds
  have hkeepLeft : Agree (s₁.left.set s.avail jl) s₂.left 0 s₁.avail := h.second.keepLeft
  have hkeepRight : Agree s₁.right s₂.right 0 s₁.avail := h.second.keepRight
  have hset : ∀ {lo hi}, s.avail < lo →
      Agree s₂.right (s₂.right.set s.avail jr) lo hi := fun hlo => Agree.set _ _ (.inl hlo)
  have hrepl : Rep s₁.left s₁.right (s.avail + 1) s₁.avail l jl := h.first.rep (by omega)
  have hrepr : Rep s₂.left s₂.right s₁.avail s₂.avail r jr := h.second.rep (by omega)
  refine ⟨le_refl _, by omega, ⟨jl, ?_, ?_⟩, jr, ?_, ?_⟩
  · rw [hkeepLeft s.avail (Nat.zero_le _) (by omega), List.getElem?_set_self h.roomLeft]
  · refine hrepl.mono (le_refl _) h₂ ?_ ?_
    · exact (Agree.set _ _ (.inl (by omega))).trans (hkeepLeft.mono (Nat.zero_le _) (le_refl _))
    · exact (hkeepRight.mono (Nat.zero_le _) (le_refl _)).trans (hset (by omega))
  · exact List.getElem?_set_self h.roomRight
  · exact hrepr.mono (by omega) (le_refl _) (fun _ _ _ => rfl) (hset (by omega))

/-- What a node keeps. -/
theorem Joined.keep {d jl jr : Nat} {s s₁ s₂ : MkTbl} {l r : Code}
    (h : Joined d s s₁ s₂ l r jl jr) :
    Agree s.left s₂.left 0 s.avail ∧ Agree s.right (s₂.right.set s.avail jr) 0 s.avail := by
  obtain ⟨h₁, -, -⟩ := h.availBounds
  have hl₁ : Agree s.left s₁.left 0 (s.avail + 1) := h.first.keepLeft
  have hr₁ : Agree s.right s₁.right 0 (s.avail + 1) := h.first.keepRight
  have hl₂ : Agree (s₁.left.set s.avail jl) s₂.left 0 s₁.avail := h.second.keepLeft
  have hr₂ : Agree s₁.right s₂.right 0 s₁.avail := h.second.keepRight
  constructor
  · refine ((hl₁.mono (le_refl _) (by omega)).trans (Agree.set _ jl (.inr (le_refl _)))).trans ?_
    exact hl₂.mono (le_refl _) (by omega)
  · refine ((hr₁.mono (le_refl _) (by omega)).trans (hr₂.mono (le_refl _) (by omega))).trans ?_
    exact Agree.set _ _ (.inr (le_refl _))

/-- A node below the table. -/
theorem built_below {d k jl jr : Nat} (hd : 12 < d) {s s₁ s₂ : MkTbl} {l r : Code}
    (h : Joined d s s₁ s₂ l r jl jr) :
    Built d s { s₂ with right := s₂.right.set s.avail jr, depth := k } (.node l r) s.avail := by
  obtain ⟨h₁, h₂, h₃⟩ := h.availBounds
  obtain ⟨hleft, hright⟩ := h.keep
  have hc₁ : s₁.codeword = s.codeword + 4096 / 2 ^ (d + 1) := h.first.codeword
  have hc₂ : s₂.codeword = s₁.codeword + 4096 / 2 ^ (d + 1) := h.second.codeword
  rw [width_zero (by omega)] at hc₁ hc₂
  have ht₁ : Agree s.tbl s₁.tbl 0 s.codeword := h.first.keepTable
  have ht₂ : Agree s₁.tbl s₂.tbl 0 s₁.codeword := h.second.keepTable
  refine ⟨?_, h.second.bit, ⟨by show s.avail ≤ s₂.avail; omega, h₃⟩, ?_, ?_, ?_, ?_, hleft, hright,
    fun _ => h.rep (by omega), fun hle => absurd hle (by omega)⟩
  · show s₂.codeword = _
    rw [width_zero hd]
    omega
  · exact h.second.table.trans h.first.table
  · exact (h.second.lefts.trans List.length_set).trans h.first.lefts
  · exact (List.length_set.trans h.second.rights).trans h.first.rights
  · exact ht₁.trans (ht₂.mono (le_refl _) (by omega))

/-- A node that the table points to. -/
theorem built_top {k jl jr : Nat} {s s₁ s₂ : MkTbl} {l r : Code}
    (h : Joined 12 s s₁ s₂ l r jl jr) (hroom : s₂.codeword < s₂.tbl.length) :
    Built 12 s { s₂ with
      right := s₂.right.set s.avail jr, tbl := s₂.tbl.set s₂.codeword s.avail
      codeword := s₂.codeword + 1, depth := k } (.node l r) s.avail := by
  obtain ⟨h₁, h₂, h₃⟩ := h.availBounds
  obtain ⟨hleft, hright⟩ := h.keep
  have hc₁ : s₁.codeword = s.codeword + 4096 / 2 ^ (12 + 1) := h.first.codeword
  have hc₂ : s₂.codeword = s₁.codeword + 4096 / 2 ^ (12 + 1) := h.second.codeword
  rw [width_zero (by omega)] at hc₁ hc₂
  have ht₁ : Agree s.tbl s₁.tbl 0 s.codeword := h.first.keepTable
  have ht₂ : Agree s₁.tbl s₂.tbl 0 s₁.codeword := h.second.keepTable
  have hcode : s₂.codeword = s.codeword := by omega
  refine ⟨?_, h.second.bit, ⟨by show s.avail ≤ s₂.avail; omega, h₃⟩, ?_, ?_, ?_, ?_, hleft, hright,
    fun _ => h.rep (le_refl _), fun _ => ?_⟩
  · show s₂.codeword + 1 = s.codeword + 1
    rw [hcode]
  · exact (List.length_set.trans h.second.table).trans h.first.table
  · exact (h.second.lefts.trans List.length_set).trans h.first.lefts
  · exact (List.length_set.trans h.second.rights).trans h.first.rights
  · exact (ht₁.trans (ht₂.mono (le_refl _) (by omega))).trans
      (Agree.set _ _ (.inr (by omega)))
  · rw [Tab, if_neg (by decide)]
    refine ⟨s.avail, ?_, h.rep (le_refl _)⟩
    show (s₂.tbl.set s₂.codeword s.avail)[s.codeword]? = _
    rw [← hcode, List.getElem?_set_self hroom]

/-! ## The recursion -/

theorem Built.ready {d d' nodes nodes' j : Nat} {s s' : MkTbl} {t : Code} (b : Built d s s' t j)
    (h : Ready d nodes s) (hnodes : t.nodes + nodes' ≤ nodes)
    (hcode : s.codeword + 4096 / 2 ^ d + 4096 / 2 ^ d' ≤ 4096 ∧ s.codeword + 4096 / 2 ^ d < 4096) :
    Ready d' nodes' s' := by
  have havail := b.avail
  have havail' := h.avail
  refine ⟨b.bit, ?_, by omega, b.table.trans h.table, b.lefts.trans h.lefts,
    b.rights.trans h.rights⟩
  rw [b.codeword]
  exact hcode

/-- A call takes the symbols of the tree. -/
theorem mktbl_rest {n : Nat} {blen : List Nat} (hsmall : ∀ l ∈ blen.take n, l ≤ 31)
    {tblsiz maxdepth fuel j : Nat} {s s' : MkTbl} {t : Code} {rest : List (Nat × Nat)}
    (hgrow : grow fuel s.depth (remaining (blen.take n) s.len s.next) = some (t, rest))
    (h : mktbl n blen tblsiz maxdepth fuel s = .ok (j, s')) (hlen : s.depth ≤ s.len) :
    remaining (blen.take n) s'.len s'.next = rest ∧ s'.depth = s.depth ∧ s.depth ≤ s'.len := by
  obtain ⟨⟨t', hgrow'⟩, hdepth, hlen'⟩ := mktbl_grows hsmall h hlen
  rw [hgrow] at hgrow'
  exact ⟨(Prod.mk.inj (Option.some.inj hgrow')).2.symm, hdepth, hlen'⟩

/-- **A call**: if the symbols fill the subtree, it is built. -/
theorem mktbl_builds {blen : List Nat} (hsmall : ∀ l ∈ blen.take NC, l ≤ 31) {fuel : Nat}
    {s : MkTbl} {t : Code} {rest : List (Nat × Nat)}
    (hgrow : grow fuel s.depth (remaining (blen.take NC) s.len s.next) = some (t, rest))
    (hlen : s.depth ≤ s.len) (hready : Ready s.depth t.nodes s) :
    ∃ j s', mktbl NC blen 4096 13 fuel s = .ok (j, s') ∧ Built s.depth s s' t j := by
  induction fuel generalizing s t rest with
  | zero => cases hgrow
  | succ fuel ih =>
      cases hleaf : nextLeaf NC blen s with
      | some k =>
          obtain ⟨heq, hrem⟩ := nextLeaf_some hleaf
          rw [hrem, grow, if_pos heq] at hgrow
          obtain ⟨rfl, -⟩ := Prod.mk.inj (Option.some.inj hgrow)
          have hbit := hready.bit
          have hcode := hready.codeword
          rw [← heq] at hcode
          rw [mktbl_leaf hleaf, if_neg (by omega)]
          exact ⟨_, _, rfl, built_leaf hready heq _ _⟩
      | none =>
          obtain ⟨hdeep, hrem⟩ := deeper_spec hsmall hlen hleaf
          have hdepth := deeper_depth s
          rw [← hrem] at hgrow
          obtain ⟨l, r, rest₁, rfl, hl, hr⟩ := ungrow_branch hdeep hgrow
          have hshallow : s.depth + 1 ≤ 31 := (grow_spec hl fun e he =>
            hsmall e.1 (List.mem_of_getElem? (mem_remaining he).2)).1
          have hready₀ := hready.deeper (le_refl (4096 / 2 ^ s.depth)) (le_refl _)
          rw [mktbl_branch hleaf]
          suffices hbranch : ∃ j s', branch NC blen 4096 13 fuel (deeper s) = .ok (j, s') ∧
              Built s.depth (deeper s) s' (.node l r) j by
            obtain ⟨j, s', hok, hbuilt⟩ := hbranch
            exact ⟨j, s', hok, hbuilt.of_deeper⟩
          generalize deeper s = s₀ at hdeep hdepth hl hready₀ ⊢
          generalize s.depth = d at *
          have hnodes : (Code.node l r).nodes = 1 + l.nodes + r.nodes := rfl
          have hcode := hready₀.codeword
          have havail := hready₀.avail
          rw [branch]
          by_cases hmax : s₀.depth < 13
          · -- both subtrees begin in the table
            have hd : d < 12 := by omega
            have hhalves := width_halves hd
            have hwidth := width_pos (show d + 1 ≤ 12 by omega)
            have hready₁ : Ready s₀.depth l.nodes s₀ := by
              rw [hdepth]
              exact ⟨hready₀.bit, ⟨by omega, hcode.2⟩, by omega, hready₀.table, hready₀.lefts,
                hready₀.rights⟩
            obtain ⟨j₁, s₁, h₁, b₁⟩ := ih (by rw [hdepth]; exact hl) (by omega) hready₁
            obtain ⟨hrest₁, hd₁, hlen₁⟩ := mktbl_rest hsmall (by rw [hdepth]; exact hl) h₁ (by omega)
            have hready₂ : Ready s₁.depth r.nodes s₁ := by
              rw [hdepth] at b₁
              rw [hd₁, hdepth]
              have hall : Ready (d + 1) (Code.node l r).nodes s₀ := ⟨hready₀.bit, ⟨by omega, hcode.2⟩,
                havail, hready₀.table, hready₀.lefts, hready₀.rights⟩
              exact b₁.ready hall (by omega) ⟨by omega, by omega⟩
            obtain ⟨j₂, s₂, h₂, b₂⟩ := ih (by rw [hrest₁, hd₁, hdepth]; exact hr) (by omega) hready₂
            rw [hd₁, hdepth] at b₂
            rw [hdepth] at b₁
            refine ⟨0, { s₂ with depth := s₂.depth - 1 }, ?_, built_inner hd b₁ b₂⟩
            rw [if_pos hmax, h₁, Except.ok_bind]
            dsimp only
            rw [h₂, Except.ok_bind]
            rfl
          · have hd : 12 ≤ d := by omega
            have hroom : s₀.avail < 2 * NC - 1 := by
              simp only [NC]
              omega
            have hwidth₁ : 4096 / 2 ^ (d + 1) = 0 := width_zero (by omega)
            have hready₁ : Ready s₀.depth l.nodes { s₀ with avail := s₀.avail + 1 } := by
              rw [hdepth]
              exact ⟨hready₀.bit, ⟨by dsimp only; omega, hcode.2⟩, by dsimp only; omega,
                hready₀.table, hready₀.lefts, hready₀.rights⟩
            have hl' : grow fuel s₀.depth (remaining (blen.take NC) s₀.len s₀.next)
                = some (l, rest₁) := by rw [hdepth]; exact hl
            have hlen₀ : s₀.depth ≤ s₀.len := by omega
            obtain ⟨jl, s₁, h₁, b₁⟩ := ih (s := { s₀ with avail := s₀.avail + 1 }) hl' hlen₀ hready₁
            obtain ⟨hrest₁, hd₁, hlen₁⟩ := mktbl_rest (s := { s₀ with avail := s₀.avail + 1 }) hsmall hl'
              h₁ hlen₀
            replace hd₁ : s₁.depth = s₀.depth := hd₁
            replace hlen₁ : s₀.depth ≤ s₁.len := hlen₁
            replace b₁ : Built (d + 1) { s₀ with avail := s₀.avail + 1 } s₁ l jl := hdepth ▸ b₁
            have hlefts₁ : s₁.left.length = 1019 := b₁.lefts.trans hready₀.lefts
            have hcode₁ : s₁.codeword = s₀.codeword + 4096 / 2 ^ (d + 1) := b₁.codeword
            have havail₁ : s₁.avail ≤ s₀.avail + 1 + l.nodes := b₁.avail.2
            have hr' : grow fuel s₁.depth (remaining (blen.take NC) s₁.len s₁.next)
                = some (r, rest) := by rw [hrest₁, hd₁, hdepth]; exact hr
            have hready₂ : Ready s₁.depth r.nodes
                { s₁ with left := s₁.left.set s₀.avail jl } := by
              rw [hd₁, hdepth]
              exact ⟨b₁.bit, ⟨by dsimp only; omega, by dsimp only; omega⟩, by dsimp only; omega,
                b₁.table.trans hready₀.table, List.length_set.trans hlefts₁,
                b₁.rights.trans hready₀.rights⟩
            have hlen₂ : s₁.depth ≤ s₁.len := by omega
            obtain ⟨jr, s₂, h₂, b₂⟩ := ih (s := { s₁ with left := s₁.left.set s₀.avail jl }) hr' hlen₂
              hready₂
            obtain ⟨-, hd₂, -⟩ :=
              mktbl_rest (s := { s₁ with left := s₁.left.set s₀.avail jl }) hsmall hr' h₂ hlen₂
            replace hd₂ : s₂.depth = s₁.depth := hd₂
            replace b₂ : Built (d + 1) { s₁ with left := s₁.left.set s₀.avail jl } s₂ r jr := by
              have hd₁' : s₁.depth = d + 1 := hd₁.trans hdepth
              exact hd₁' ▸ b₂
            have hrights₂ : s₂.right.length = 1028 :=
              b₂.rights.trans (b₁.rights.trans hready₀.rights)
            have htable₂ : s₂.tbl.length = 4096 := b₂.table.trans (b₁.table.trans hready₀.table)
            have hcode₂ : s₂.codeword = s₁.codeword + 4096 / 2 ^ (d + 1) := b₂.codeword
            have hjoined : Joined d s₀ s₁ s₂ l r jl jr := ⟨b₁, b₂, by omega, by omega⟩
            rw [if_neg hmax, if_neg (by omega)]
            dsimp only
            rw [require, if_pos hroom, Except.ok_bind, h₁, Except.ok_bind]
            dsimp only
            rw [store_eq _ hjoined.roomLeft, Except.ok_bind, h₂, Except.ok_bind]
            dsimp only
            rw [store_eq _ hjoined.roomRight, Except.ok_bind, require, if_pos (by omega),
              Except.ok_bind]
            by_cases htop : d = 12
            · subst htop
              rw [if_pos (by omega), store_eq _ (by omega), Except.ok_bind]
              exact ⟨_, _, rfl, built_top hjoined (by omega)⟩
            · rw [if_neg (by omega)]
              exact ⟨_, _, rfl, built_below (by omega) hjoined⟩

/-! ## The table -/

theorem mem_symbols {blen : List Nat} {e : Nat × Nat} (h : e ∈ symbols blen) :
    1 ≤ e.1 ∧ blen[e.2]? = some e.1 := by
  rw [← remaining_start] at h
  exact mem_remaining h

/-- **The table**: if the symbols fill the space, `make_table` builds the tree. -/
theorem makeTable_builds {blen table left right : List Nat} (hlen : blen.length = NC)
    (hsmall : ∀ l ∈ blen, l < 32) (htable : table.length = 4096) (hleft : left.length = 2 * NC - 1)
    (hright : right.length = 2 * NC - 1 + 9) {t : Code} {rest : List (Nat × Nat)}
    (hgrow : grow 35 0 (symbols blen) = some (t, rest)) :
    ∃ table' left' right', makeTable NC blen 12 table left right = .ok (table', left', right') ∧
      Tab table' left' right' NC (2 * NC - 1) t 0 0 := by
  have htake : blen.take NC = blen := by rw [← hlen, List.take_length]
  have hsmall' : ∀ l ∈ blen.take NC, l ≤ 31 := by
    rw [htake]
    exact fun l hl => Nat.le_of_lt_succ (hsmall l hl)
  have hNC : NC = 510 := rfl
  -- there are at most as many nodes as free indices
  have hnodes : t.nodes ≤ 509 := by
    obtain ⟨-, taken, heq, -, hleaves⟩ := grow_spec hgrow fun e he =>
      Nat.le_of_lt_succ (hsmall e.1 (List.mem_of_getElem? (mem_symbols he).2))
    have hcount := length_leaves t 0 0
    have hsyms := length_symbols_le blen
    rw [hleaves, length_assign] at hcount
    rw [heq, List.length_append] at hsyms
    omega
  rw [← remaining_start] at hgrow
  obtain ⟨l, r, rest₁, rfl, hl, hr⟩ := ungrow_branch (le_refl 1) hgrow
  rw [Code.nodes] at hnodes
  let s : MkTbl := {
    tbl := table, left, right, bit := 2 ^ 12 / 2, depth := 1, len := 1, next := 0, codeword := 0
    avail := NC }
  have hready : ∀ {nodes}, nodes ≤ 509 → Ready 1 nodes s := fun h =>
    ⟨rfl, ⟨by show 0 + 4096 / 2 ^ 1 ≤ 4096; decide, by show 0 < 4096; decide⟩,
      by show NC + _ ≤ 1019; omega, htable, hleft, hright⟩
  obtain ⟨j₁, s₁, h₁, b₁⟩ := mktbl_builds (s := s) hsmall' (by rw [htake]; exact hl) (le_refl 1)
    (hready (by omega))
  obtain ⟨hrest₁, hd₁, hlen₁⟩ := mktbl_rest hsmall' (by rw [htake]; exact hl) h₁ (le_refl 1)
  have hready₁ : Ready s₁.depth r.nodes s₁ := by
    rw [hd₁]
    exact b₁.ready (hready (show l.nodes + r.nodes ≤ 509 by omega)) (le_refl _)
      ⟨by show 0 + 4096 / 2 ^ 1 + 4096 / 2 ^ 1 ≤ 4096; decide,
        by show 0 + 4096 / 2 ^ 1 < 4096; decide⟩
  obtain ⟨j₂, s₂, h₂, b₂⟩ := mktbl_builds hsmall' (by rw [hrest₁, hd₁]; exact hr)
    (by rw [hd₁]; exact hlen₁) hready₁
  rw [hd₁] at b₂
  have hbuilt := built_inner (k := 0) (j := 0) (by decide : 0 < 12) b₁ b₂
  have hcode : s₂.codeword = 4096 := hbuilt.codeword
  have havail : s₂.avail ≤ NC + (1 + l.nodes + r.nodes) := hbuilt.avail.2
  refine ⟨s₂.tbl, s₂.left, s₂.right, ?_, ?_⟩
  · rw [makeTable]
    dsimp only
    have h₁' : mktbl NC blen (2 ^ 12) (12 + 1) 34 s = .ok (j₁, s₁) := h₁
    have h₂' : mktbl NC blen (2 ^ 12) (12 + 1) 34 s₁ = .ok (j₂, s₂) := h₂
    rw [h₁', Except.ok_bind]
    dsimp only
    rw [h₂', Except.ok_bind]
    dsimp only
    rw [require, if_pos (show s₂.codeword = 2 ^ 12 from hcode)]
    rfl
  · exact (hbuilt.tab (by decide)).mono (by decide) (le_refl _)
      (by show s₂.avail ≤ 2 * NC - 1; omega) (fun _ _ _ => rfl) (fun _ _ _ => rfl) fun _ _ _ => rfl

/-- A table is built only if the symbols fill the space. -/
theorem grow_of_makeTable {blen table left right : List Nat} (hlen : blen.length = NC)
    (hsmall : ∀ l ∈ blen, l < 32) {out : List Nat × List Nat × List Nat}
    (h : makeTable NC blen 12 table left right = .ok out) :
    ∃ t rest, grow 35 0 (symbols blen) = some (t, rest) := by
  have htake : blen.take NC = blen := by rw [← hlen, List.take_length]
  have hsmall' : ∀ l ∈ blen.take NC, l ≤ 31 := by
    rw [htake]
    exact fun l hl => Nat.le_of_lt_succ (hsmall l hl)
  rw [makeTable] at h
  simp only [Except.bind_eq_ok, Prod.exists] at h
  obtain ⟨j₁, s₁, h₁, j₂, s₂, h₂, -⟩ := h
  obtain ⟨⟨l, hl⟩, hd₁, hlen₁⟩ := mktbl_grows hsmall' h₁ (le_refl 1)
  replace hd₁ : s₁.depth = 1 := hd₁
  replace hlen₁ : 1 ≤ s₁.len := hlen₁
  obtain ⟨⟨r, hr⟩, -, -⟩ := mktbl_grows hsmall' h₂ (by omega)
  rw [hd₁] at hr
  rw [htake] at hl hr
  exact ⟨_, _, remaining_start blen ▸ grow_branch (le_refl 1) hl hr⟩

/-- Which vectors are accepted. -/
theorem makeTable_ok_iff {blen table left right : List Nat} (hlen : blen.length = NC)
    (hsmall : ∀ l ∈ blen, l < 32) (htable : table.length = 4096) (hleft : left.length = 2 * NC - 1)
    (hright : right.length = 2 * NC - 1 + 9) :
    (∃ out, makeTable NC blen 12 table left right = .ok out) ↔ 2 ^ 31 ≤ space 31 (symbols blen) := by
  have hle : ∀ e ∈ symbols blen, e.1 ≤ 31 := fun e he =>
    Nat.le_of_lt_succ (hsmall e.1 (List.mem_of_getElem? (mem_symbols he).2))
  constructor
  · rintro ⟨out, h⟩
    obtain ⟨t, rest, hgrow⟩ := grow_of_makeTable hlen hsmall h
    obtain ⟨-, taken, heq, hspace, -⟩ := grow_spec hgrow hle
    rw [heq, space_append, hspace]
    exact Nat.le_add_right _ _
  · intro hspace
    obtain ⟨t, rest, hgrow⟩ := grow_exists (symbols_sorted blen) (fun e _ => Nat.zero_le e.1) hle
      hspace (by decide : 31 < 35 + 0)
    obtain ⟨table', left', right', hok, -⟩ :=
      makeTable_builds hlen hsmall htable hleft hright hgrow
    exact ⟨_, hok⟩

/-! ## The bits of a reader -/

/-- The bits that a reader still has to give: those of its buffer, then those of the bytes, and
zeros past the end. -/
def stream (br : BitReader) (i : Nat) : Bool :=
  if i < br.bitcount then br.bitbuf.testBit (br.bitcount - 1 - i)
  else (br.rest.getD ((i - br.bitcount) / 8) 0).toNat.testBit (7 - (i - br.bitcount) % 8)

/-- The stream begins with a codeword. -/
def Begins (br : BitReader) (len code : Nat) : Prop :=
  ∀ i < len, stream br i = code.testBit (len - 1 - i)

theorem fillByte_eq (br : BitReader) : br.fillByte =
    ⟨br.rest.tail, (2 ^ 8 * br.bitbuf + (br.rest.getD 0 0).toNat) % 2 ^ 32, br.bitcount + 8⟩ := by
  rw [BitReader.fillByte]
  cases br.rest with
  | nil =>
      rw [Nat.mul_comm]
      rfl
  | cons b rest =>
      rw [Nat.mul_comm]
      rfl

/-- A byte that moves into the buffer stays in the stream. -/
theorem stream_fillByte {br : BitReader} (hbuf : br.bitbuf < 2 ^ br.bitcount)
    (hcount : br.bitcount < 24) (i : Nat) : stream br.fillByte i = stream br i := by
  have hb := (br.rest.getD 0 0).toNat_lt
  have hsmall : br.bitbuf < 2 ^ 24 :=
    hbuf.trans_le (Nat.pow_le_pow_right (by decide) hcount.le)
  rw [fillByte_eq, Nat.mod_eq_of_lt (by omega)]
  unfold stream
  dsimp only
  by_cases hin : i < br.bitcount
  · rw [if_pos (by omega), if_pos hin, Nat.testBit_two_pow_mul_add _ hb, if_neg (by omega),
      show br.bitcount + 8 - 1 - i - 8 = br.bitcount - 1 - i by omega]
  · rw [if_neg hin]
    by_cases hbyte : i < br.bitcount + 8
    · rw [if_pos hbyte, Nat.testBit_two_pow_mul_add _ hb, if_pos (by omega),
        show (i - br.bitcount) / 8 = 0 by omega,
        show 7 - (i - br.bitcount) % 8 = br.bitcount + 8 - 1 - i by omega]
    · rw [if_neg hbyte, show (i - br.bitcount) / 8 = (i - (br.bitcount + 8)) / 8 + 1 by omega,
        show (i - br.bitcount) % 8 = (i - (br.bitcount + 8)) % 8 by omega]
      rw [List.getD_eq_getElem?_getD, List.getElem?_tail, List.getD_eq_getElem?_getD]

theorem stream_fill {br : BitReader} (hbuf : br.bitbuf < 2 ^ br.bitcount) (i : Nat) :
    stream br.fill i = stream br i := by
  obtain ⟨hbuf₁, hcount₁⟩ := fillByte_buf hbuf
  rw [BitReader.fill]
  dsimp only
  by_cases hlow : br.bitcount < 16
  · rw [if_pos hlow]
    have hfirst := stream_fillByte hbuf (by omega) i
    by_cases hlow₁ : br.fillByte.bitcount < 16
    · rw [← hcount₁] at hbuf₁
      rw [if_pos hlow₁, stream_fillByte hbuf₁ (by omega), hfirst]
    · rw [if_neg hlow₁, hfirst]
  · rw [if_neg hlow]

/-- `drop` moves the stream. -/
theorem drop_stream {br : BitReader} (h : br.Filled) {n : Nat} (hn : n ≤ 16) :
    ∃ br', br.drop n = .ok br' ∧ br'.Filled ∧ ∀ i, stream br' i = stream br (i + n) := by
  obtain ⟨hlow, hhigh, hbuf⟩ := h
  have hmod : br.bitbuf % 2 ^ (br.bitcount - n) < 2 ^ (br.bitcount - n) :=
    Nat.mod_lt _ (Nat.two_pow_pos _)
  refine ⟨BitReader.fill { br with
    bitcount := br.bitcount - n, bitbuf := br.bitbuf % 2 ^ (br.bitcount - n) }, ?_, ?_, fun i => ?_⟩
  · rw [BitReader.drop, if_pos (by omega)]
  · exact fill_filled hmod (by dsimp only; omega)
  · rw [stream_fill hmod]
    unfold stream
    dsimp only
    by_cases hin : i < br.bitcount - n
    · rw [if_pos hin, if_pos (by omega), Nat.testBit_mod_two_pow, decide_eq_true (by omega),
        Bool.true_and, show br.bitcount - n - 1 - i = br.bitcount - 1 - (i + n) by omega]
    · rw [if_neg hin, if_neg (by omega), show i - (br.bitcount - n) = i + n - br.bitcount by omega]

/-- `peek` sees the first bits of the stream. -/
theorem peek_stream {br : BitReader} (h : br.Filled) {n : Nat} (hn : n ≤ 16) :
    ∃ v, br.peek n = .ok v ∧ v < 2 ^ n ∧ ∀ k < n, v.testBit k = stream br (n - 1 - k) := by
  obtain ⟨hlow, hhigh, hbuf⟩ := h
  have hsplit : 2 ^ br.bitcount = 2 ^ n * 2 ^ (br.bitcount - n) := by
    rw [← pow_add]
    congr 1
    omega
  refine ⟨br.bitbuf / 2 ^ (br.bitcount - n) % 2 ^ 16, ?_, ?_, fun k hk => ?_⟩
  · rw [BitReader.peek, if_pos (by omega)]
  · refine (Nat.mod_le _ _).trans_lt (Nat.div_lt_of_lt_mul ?_)
    rw [Nat.mul_comm, ← hsplit]
    exact hbuf
  · rw [Nat.testBit_mod_two_pow, decide_eq_true (by omega), Bool.true_and, Nat.testBit_div_two_pow,
      stream, if_pos (by omega)]
    congr 1
    omega

/-- The window of a short codeword. -/
theorem window_short {br : BitReader} {n l code v : Nat} (hl : l ≤ n) (hcode : code < 2 ^ l)
    (hbegins : Begins br l code) (hv : v < 2 ^ n)
    (hbits : ∀ k < n, v.testBit k = stream br (n - 1 - k)) : v / 2 ^ (n - l) = code := by
  refine Nat.eq_of_testBit_eq fun k => ?_
  rw [Nat.testBit_div_two_pow]
  by_cases hk : k < l
  · rw [hbits _ (by omega), hbegins _ (by omega)]
    congr 1
    omega
  · have hzero : code.testBit k = false :=
      Nat.testBit_lt_two_pow (hcode.trans_le (Nat.pow_le_pow_right (by decide) (by omega)))
    rw [hzero]
    exact Nat.testBit_lt_two_pow (hv.trans_le (Nat.pow_le_pow_right (by decide) (by omega)))

/-- The window of a long codeword. -/
theorem window_long {br : BitReader} {n l code v : Nat} (hl : n ≤ l) (hcode : code < 2 ^ l)
    (hbegins : Begins br l code) (hv : v < 2 ^ n)
    (hbits : ∀ k < n, v.testBit k = stream br (n - 1 - k)) : v = code / 2 ^ (l - n) := by
  refine Nat.eq_of_testBit_eq fun k => ?_
  rw [Nat.testBit_div_two_pow]
  by_cases hk : k < n
  · rw [hbits _ hk, hbegins _ (by omega)]
    congr 1
    omega
  · have hzero : v.testBit k = false :=
      Nat.testBit_lt_two_pow (hv.trans_le (Nat.pow_le_pow_right (by decide) (by omega)))
    rw [hzero]
    symm
    exact Nat.testBit_lt_two_pow (hcode.trans_le (Nat.pow_le_pow_right (by decide) (by omega)))

/-! ## The lookup -/

theorem width_eq {d : Nat} (h : d ≤ 12) : 4096 / 2 ^ d = 2 ^ (12 - d) := by
  interval_cases d <;> rfl

/-- **The table** leads to the symbol of a short codeword, and to a node above a long one. -/
theorem Tab.lookup {tbl left right : List Nat} {lo hi d base v l c code x : Nat} {t : Code}
    (h : Tab tbl left right lo hi t d base) (hd : d ≤ 12) (hbase : base = v * (4096 / 2 ^ d))
    (hmem : (l, c, code) ∈ leaves t d v) :
    (l ≤ 12 → x / 2 ^ (12 - l) = code → tbl[x]? = some c) ∧
      (12 < l → x = code / 2 ^ (l - 12) → ∃ j tl tr, tbl[x]? = some j ∧
        Rep left right lo hi (.node tl tr) j ∧ (l, c, code) ∈ leaves (.node tl tr) 12 x) := by
  induction t generalizing d base v with
  | leaf c' =>
      rw [leaves, List.mem_singleton] at hmem
      obtain ⟨rfl, hrest⟩ := Prod.mk.inj hmem
      obtain ⟨rfl, rfl⟩ := Prod.mk.inj hrest
      refine ⟨fun _ hx => h x ?_ ?_, fun hl => absurd hl (by omega)⟩
      · rw [hbase, width_eq hd, ← hx]
        exact Nat.div_mul_le_self _ _
      · rw [hbase, width_eq hd, ← hx]
        exact Nat.lt_div_mul_add (Nat.two_pow_pos _)
  | node tl tr ihl ihr =>
      rw [Tab] at h
      split_ifs at h with hdeep
      · have hhalves := width_halves hdeep
        rw [leaves, List.mem_append] at hmem
        rcases hmem with hmem | hmem
        · refine ihl h.1 hdeep ?_ hmem
          rw [hbase, hhalves]
          ring
        · refine ihr h.2 hdeep ?_ hmem
          rw [hbase, hhalves]
          ring
      · obtain rfl : d = 12 := by omega
        obtain ⟨j, hj, hrep⟩ := h
        obtain ⟨hl, hcode⟩ := leaves_front hmem
        have hlong : 12 < l := by
          rw [leaves, List.mem_append] at hmem
          rcases hmem with hmem | hmem
          · exact (leaves_front hmem).1
          · exact (leaves_front hmem).1
        refine ⟨fun hshort => absurd hshort (by omega), fun _ hx => ⟨j, tl, tr, ?_, hrep, ?_⟩⟩
        · rw [hx, hcode, ← hj, hbase]
          congr 1
          omega
        · rw [hx, hcode]
          exact hmem

/-- **The walk** from a node ends at the symbol. -/
theorem Rep.walk {left right : List Nat} {hi l c code bits : Nat} (hl : l ≤ 28) (hc : c < NC)
    (hbits : ∀ k < 16, 28 ≤ l + k → bits.testBit k = code.testBit (l + k - 28)) {t : Code} :
    ∀ {lo' d v j fuel}, NC ≤ lo' → Rep left right lo' hi t j → (l, c, code) ∈ leaves t d v →
      12 ≤ d → l < fuel + d → (∃ tl tr, t = .node tl tr) →
      walkTree left right bits NC fuel (2 ^ (27 - d)) j = .ok c := by
  induction t with
  | leaf c' =>
      rintro _ _ _ _ _ - - - - - ⟨tl, tr, h⟩
      cases h
  | node tl tr ihl ihr =>
      intro lo' d v j fuel hlo' hrep hmem hd hfuel _
      obtain ⟨hj, -, ⟨jl, hjl, hl'⟩, jr, hjr, hr'⟩ := hrep
      rw [leaves, List.mem_append] at hmem
      obtain ⟨fuel, rfl⟩ : ∃ f, fuel = f + 1 := by
        refine ⟨fuel - 1, ?_⟩
        rcases hmem with hmem | hmem
        · have hdeep := (leaves_front hmem).1
          omega
        · have hdeep := (leaves_front hmem).1
          omega
      -- the bit that is tested is the next one of the codeword
      have hbit : ∀ {w : Nat}, d + 1 ≤ l → code / 2 ^ (l - (d + 1)) = w →
          (bits &&& 2 ^ (27 - d) ≠ 0 ↔ w % 2 = 1) := by
        rintro w hdeep rfl
        have htest : bits.testBit (27 - d) = decide (code / 2 ^ (l - (d + 1)) % 2 = 1) := by
          rw [hbits (27 - d) (by omega) (by omega), show l + (27 - d) - 28 = l - (d + 1) by omega,
            Nat.testBit_eq_decide_div_mod_eq]
        have hpow := Nat.two_pow_pos (27 - d)
        rw [Nat.and_two_pow, htest]
        by_cases hone : code / 2 ^ (l - (d + 1)) % 2 = 1
        · rw [decide_eq_true hone, Bool.toNat_true, Nat.one_mul]
          exact iff_of_true hpow.ne' hone
        · rw [decide_eq_false hone, Bool.toNat_false, Nat.zero_mul]
          exact iff_of_false (fun h => h rfl) hone
      -- a child is the symbol, or the walk goes on
      have hchild : ∀ {tc : Code} {jc w : Nat}, Rep left right (j + 1) hi tc jc →
          (l, c, code) ∈ leaves tc (d + 1) w →
          ((∃ a b, tc = .node a b) →
            walkTree left right bits NC fuel (2 ^ (27 - (d + 1))) jc = .ok c) →
          (if jc < NC then .ok jc
            else walkTree left right bits NC fuel (2 ^ (27 - d) / 2) jc) = .ok c := by
        intro tc jc w hrepc hmemc hwalk
        cases tc with
        | leaf c' =>
            rw [leaves, List.mem_singleton] at hmemc
            obtain ⟨-, hrest⟩ := Prod.mk.inj hmemc
            obtain ⟨rfl, -⟩ := Prod.mk.inj hrest
            obtain rfl : jc = c := hrepc
            rw [if_pos hc]
        | node a b =>
            have hdeep : d + 1 + 1 ≤ l := by
              rw [leaves, List.mem_append] at hmemc
              rcases hmemc with hmemc | hmemc
              · exact (leaves_front hmemc).1
              · exact (leaves_front hmemc).1
            have hinner : j + 1 ≤ jc := hrepc.1
            rw [if_neg (by omega), show 2 ^ (27 - d) / 2 = 2 ^ (27 - (d + 1)) by
              rw [show 27 - d = 27 - (d + 1) + 1 by omega, pow_succ, Nat.mul_div_cancel _ (by decide)]]
            exact hwalk ⟨a, b, rfl⟩
      rw [walkTree]
      rcases hmem with hmem | hmem
      · obtain ⟨hdeep, hw⟩ := leaves_front hmem
        rw [if_neg (by rw [hbit hdeep hw]; omega), index, hjl, Except.ok_bind]
        exact hchild hl' hmem (ihl (by omega) hl' hmem (by omega) (by omega))
      · obtain ⟨hdeep, hw⟩ := leaves_front hmem
        rw [if_pos (by rw [hbit hdeep hw]; omega), index, hjr, Except.ok_bind]
        exact hchild hr' hmem (ihr (by omega) hr' hmem (by omega) (by omega))

/-! ## What `heavy_decode_c` reads -/

/-- `heavy_decode_c` reads a codeword of the tree. -/
theorem heavyDecodeC_spec {tabs : HeavyTabs} {t : Code} {l c code : Nat} {br : BitReader}
    (htab : Tab tabs.cTable tabs.left tabs.right NC (2 * NC - 1) t 0 0)
    (hmem : (l, c, code) ∈ leaves t 0 0) (hchar : c < NC) (hlen : tabs.cLen[c]? = some l)
    (hl : l ≤ 28) (hcode : code < 2 ^ l) (hbr : br.Filled) (hbegins : Begins br l code) :
    ∃ br', heavyDecodeC tabs br = .ok (c, br') ∧ br'.Filled ∧
      ∀ i, stream br' i = stream br (i + l) := by
  obtain ⟨x, hpeek, hx, hbits⟩ := peek_stream hbr (by decide : 12 ≤ 16)
  obtain ⟨hshort, hlong⟩ := htab.lookup (x := x) (by decide) (by decide) hmem
  rcases Nat.lt_or_ge 12 l with hdeep | hshallow
  · obtain ⟨j, tl, tr, hj, hrep, hbelow⟩ :=
      hlong hdeep (window_long hdeep.le hcode hbegins hx hbits)
    obtain ⟨br₁, hdrop₁, hbr₁, hstream₁⟩ := drop_stream hbr (by decide : 12 ≤ 16)
    obtain ⟨y, hpeek₁, hy, hbits₁⟩ := peek_stream hbr₁ (by decide : 16 ≤ 16)
    obtain ⟨br₂, hdrop₂, hbr₂, hstream₂⟩ := drop_stream hbr₁ (show l - 12 ≤ 16 by omega)
    have hnode : ¬ j < NC := Nat.not_lt.mpr hrep.1
    have hnext : ∀ k < 16, 28 ≤ l + k → y.testBit k = code.testBit (l + k - 28) := by
      intro k hk hroom
      rw [hbits₁ k hk, hstream₁, hbegins _ (by omega)]
      congr 1
      omega
    have hwalk := Rep.walk hl hchar hnext (le_refl NC) hrep hbelow (le_refl 12)
      (show l < 2 * NC + 12 by simp only [NC]; omega) ⟨tl, tr, rfl⟩
    refine ⟨br₂, ?_, hbr₂, fun i => ?_⟩
    · rw [heavyDecodeC, decodeSymbol, hpeek, Except.ok_bind, index, hj, Except.ok_bind, if_neg hnode,
        hdrop₁, Except.ok_bind, hpeek₁, Except.ok_bind,
        show walkTree tabs.left tabs.right y NC (2 * NC) 0x8000 j = .ok c from hwalk,
        Except.ok_bind, index, hlen, Except.ok_bind, sub, if_pos hdeep.le, Except.ok_bind, hdrop₂,
        Except.ok_bind]
      rfl
    · rw [hstream₂, hstream₁, show i + (l - 12) + 12 = i + l by omega]
  · obtain ⟨br₁, hdrop, hbr₁, hstream⟩ := drop_stream hbr (show l ≤ 16 by omega)
    have hj := hshort hshallow (window_short hshallow hcode hbegins hx hbits)
    refine ⟨br₁, ?_, hbr₁, hstream⟩
    rw [heavyDecodeC, decodeSymbol, hpeek, Except.ok_bind, index, hj, Except.ok_bind, if_pos hchar,
      index, hlen, Except.ok_bind, hdrop, Except.ok_bind]
    rfl

/-- **The heavy table.** `make_table` accepts the vectors whose code is complete or over-full; the
symbols whose canonical codeword fits in its length are read back, in the table or behind it; and
in a complete code every codeword fits. -/
theorem heavy_table (tabs : HeavyTabs) (blen table left right : List Nat) (hlen : blen.length = NC)
    (hsmall : ∀ l ∈ blen, l < 32) (htable : table.length = 4096) (hleft : left.length = 2 * NC - 1)
    (hright : right.length = 2 * NC - 1 + 9) :
    ((∃ out, makeTable NC blen 12 table left right = .ok out) ↔
        2 ^ 31 ≤ space 31 (symbols blen)) ∧
      (∀ cTable left' right', makeTable NC blen 12 table left right = .ok (cTable, left', right') →
        ∀ l c code, (l, c, code) ∈ assign 31 0 (symbols blen) → l ≤ 28 → code < 2 ^ l →
        ∀ br : BitReader, br.Filled → Begins br l code →
          ∃ br', heavyDecodeC { tabs with cLen := blen, cTable, left := left', right := right' } br
              = .ok (c, br') ∧ br'.Filled ∧ ∀ i, stream br' i = stream br (i + l)) ∧
      (space 31 (symbols blen) = 2 ^ 31 →
        ∀ l c code, (l, c, code) ∈ assign 31 0 (symbols blen) → code < 2 ^ l) := by
  have hle : ∀ e ∈ symbols blen, e.1 ≤ 31 := fun e he =>
    Nat.le_of_lt_succ (hsmall e.1 (List.mem_of_getElem? (mem_symbols he).2))
  refine ⟨makeTable_ok_iff hlen hsmall htable hleft hright, ?_, fun hspace l c code hmem => ?_⟩
  · intro cTable left' right' hok l c code hmem hl hcode br hbr hbegins
    obtain ⟨t, rest, hgrow⟩ := grow_of_makeTable hlen hsmall hok
    obtain ⟨cTable', left₁, right₁, hok', htab⟩ :=
      makeTable_builds hlen hsmall htable hleft hright hgrow
    rw [hok] at hok'
    obtain ⟨rfl, hrest⟩ := Prod.mk.inj (Except.ok.inj hok')
    obtain ⟨rfl, rfl⟩ := Prod.mk.inj hrest
    -- a codeword that fits is one of the tree
    obtain ⟨-, taken, heq, hspace, hleaves⟩ := grow_spec hgrow hle
    obtain ⟨hsym, -⟩ := mem_assign hmem
    have hat := (mem_symbols hsym).2
    have htree : (l, c, code) ∈ leaves t 0 0 := by
      rw [heq, assign_append, hspace, List.mem_append] at hmem
      rcases hmem with hmem | hmem
      · rw [hleaves]
        exact hmem
      · have hbig := assign_ge hmem (hle _ hsym) (Nat.le_add_left _ _)
        omega
    have hchar : c < NC := by
      rw [← hlen]
      exact (List.getElem?_eq_some_iff.mp hat).1
    exact heavyDecodeC_spec htab htree hchar hat hl hcode hbr hbegins
  · exact assign_lt hmem (hle _ (mem_assign hmem).1) (by rw [hspace]; decide)

/-- The lengths of a code of so many symbols of one bit. -/
def oneBit (k : Nat) : List Nat := List.replicate k 1 ++ List.replicate (NC - k) 0

/-- Two symbols of one bit: the second is read back. -/
theorem heavy_table_pair :
    ∃ cTable left right br', makeTable NC (oneBit 2) 12 (List.replicate 4096 0)
        (List.replicate (2 * NC - 1) 0) (List.replicate (2 * NC - 1 + 9) 0)
          = .ok (cTable, left, right) ∧
      heavyDecodeC ⟨left, right, oneBit 2, [], cTable, [], 0, 0⟩ (BitReader.new [0x80])
        = .ok (1, br') := by
  obtain ⟨haccepts, hreads, -⟩ := heavy_table ⟨[], [], [], [], [], [], 0, 0⟩ (oneBit 2)
    (List.replicate 4096 0) (List.replicate (2 * NC - 1) 0) (List.replicate (2 * NC - 1 + 9) 0)
    (by decide +kernel) (by decide +kernel) List.length_replicate List.length_replicate
    List.length_replicate
  obtain ⟨⟨cTable, left, right⟩, hok⟩ := haccepts.mpr (by decide +kernel)
  have hbegins : Begins (BitReader.new [0x80]) 1 1 := by
    intro i hi
    obtain rfl : i = 0 := by omega
    decide
  obtain ⟨br', hread, -, -⟩ := hreads cTable left right hok 1 1 1 (by decide +kernel) (by decide)
    (by decide) _ (new_filled _) hbegins
  exact ⟨cTable, left, right, br', hok, hread⟩

/-- Three symbols of one bit are no prefix code, but they are accepted. -/
theorem overfull_accepted :
    ¬ ∀ blen table left right : List Nat, blen.length = NC → (∀ l ∈ blen, l ≤ 28) →
      table.length = 4096 → left.length = 2 * NC - 1 → right.length = 2 * NC - 1 + 9 →
      ((∃ out, makeTable NC blen 12 table left right = .ok out) ↔
        space 31 (symbols blen) = 2 ^ 31) := by
  intro h
  have hlen : (oneBit 3).length = NC := by decide +kernel
  have hspace : space 31 (symbols (oneBit 3)) = 3 * 2 ^ 30 := by decide +kernel
  have hfull := (h (oneBit 3) (List.replicate 4096 0) (List.replicate (2 * NC - 1) 0)
    (List.replicate (2 * NC - 1 + 9) 0) hlen (by decide +kernel) List.length_replicate
    List.length_replicate List.length_replicate).mp ((makeTable_ok_iff hlen (by decide +kernel)
      List.length_replicate List.length_replicate List.length_replicate).mpr
        (by rw [hspace]; decide))
  rw [hspace] at hfull
  exact absurd hfull (by decide)

end Mountin.Dms
