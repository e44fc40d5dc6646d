import Mathlib.Tactic

set_option autoImplicit false

/-! # Canonical prefix codes

Symbols with code lengths, in the order of their lengths, and the binary tree that takes them
from the front. The lengths are at most `L`, and a codeword of length `l` has the space
`2 ^ (L - l)`.

* `grow` : the tree at a depth, and the symbols that are left.
* `assign` : the codewords in order, each where the one before ends.
* `grow_spec`, `grow_exists` : the leaves of the tree have these codewords; it exists if the
  space is filled.
-/

namespace CodeTree

/-- A code tree. -/
inductive Code where
  | leaf (c : Nat)
  | node (left right : Code)

/-- The number of inner nodes. -/
def Code.nodes : Code → Nat
  | .leaf _ => 0
  | .node l r => 1 + l.nodes + r.nodes

/-- The tree at depth `d` from the front of the symbols, which are given with their lengths. -/
def grow : (fuel d : Nat) → List (Nat × Nat) → Option (Code × List (Nat × Nat))
  | 0, _, _ => none
  | _ + 1, _, [] => none
  | fuel + 1, d, e :: rest =>
      if e.1 = d then some (.leaf e.2, rest)
      else do
        let (left, rest₁) ← grow fuel (d + 1) (e :: rest)
        let (right, rest₂) ← grow fuel (d + 1) rest₁
        return (.node left right, rest₂)

/-- The space of some symbols. -/
def space (L : Nat) (syms : List (Nat × Nat)) : Nat := (syms.map fun e => 2 ^ (L - e.1)).sum

/-- The codewords from a position on: length, symbol and codeword. -/
def assign (L : Nat) : (pos : Nat) → List (Nat × Nat) → List (Nat × Nat × Nat)
  | _, [] => []
  | pos, e :: rest => (e.1, e.2, pos / 2 ^ (L - e.1)) :: assign L (pos + 2 ^ (L - e.1)) rest

/-- The leaves of a tree at depth `d` behind the bits `v`: depth, symbol and path. -/
def leaves : Code → (d v : Nat) → List (Nat × Nat × Nat)
  | .leaf c, d, v => [(d, c, v)]
  | .node l r, d, v => leaves l (d + 1) (2 * v) ++ leaves r (d + 1) (2 * v + 1)

theorem grow_nil (fuel d : Nat) : grow fuel d [] = none := by
  cases fuel <;> rfl

theorem space_append (L : Nat) (a b : List (Nat × Nat)) :
    space L (a ++ b) = space L a + space L b := by
  rw [space, List.map_append, List.sum_append, space, space]

theorem space_cons (L : Nat) (e : Nat × Nat) (rest : List (Nat × Nat)) :
    space L (e :: rest) = 2 ^ (L - e.1) + space L rest := by
  rw [space, List.map_cons, List.sum_cons, space]

theorem assign_append (L pos : Nat) (a b : List (Nat × Nat)) :
    assign L pos (a ++ b) = assign L pos a ++ assign L (pos + space L a) b := by
  induction a generalizing pos with
  | nil => rfl
  | cons e a ih =>
      rw [List.cons_append, assign, assign, ih, space_cons, Nat.add_assoc, List.cons_append]

theorem length_leaves (t : Code) (d v : Nat) : (leaves t d v).length = t.nodes + 1 := by
  induction t generalizing d v with
  | leaf c => rfl
  | node l r ihl ihr =>
      rw [leaves, List.length_append, ihl, ihr, Code.nodes]
      omega

theorem length_assign (L pos : Nat) (syms : List (Nat × Nat)) :
    (assign L pos syms).length = syms.length := by
  induction syms generalizing pos with
  | nil => rfl
  | cons e syms ih => rw [assign, List.length_cons, ih, List.length_cons]

theorem two_pow_halves {L d : Nat} (h : d < L) : 2 ^ (L - d) = 2 * 2 ^ (L - (d + 1)) := by
  rw [← pow_succ']
  congr 1
  omega

/-- **The tree**: it fills its space, and the paths to its leaves are the codewords. -/
theorem grow_spec {L fuel d : Nat} {syms rest : List (Nat × Nat)} {t : Code}
    (h : grow fuel d syms = some (t, rest)) (hle : ∀ e ∈ syms, e.1 ≤ L) :
    d ≤ L ∧ ∃ taken, syms = taken ++ rest ∧ space L taken = 2 ^ (L - d) ∧
      ∀ v, leaves t d v = assign L (v * 2 ^ (L - d)) taken := by
  induction fuel generalizing d syms rest t with
  | zero => cases h
  | succ fuel ih =>
      cases syms with
      | nil => cases h
      | cons e syms =>
          rw [grow] at h
          split_ifs at h with hleaf
          · obtain ⟨rfl, rfl⟩ := Prod.mk.inj (Option.some.inj h)
            have hL : e.1 ≤ L := hle e List.mem_cons_self
            rw [hleaf] at hL
            refine ⟨hL, [e], rfl, ?_, fun v => ?_⟩
            · rw [space, List.map_singleton, List.sum_singleton, hleaf]
            · rw [leaves, assign, assign, hleaf, Nat.mul_div_cancel _ (Nat.two_pow_pos _)]
          · simp only [Option.bind_eq_bind, Option.bind_eq_some_iff, Prod.exists] at h
            obtain ⟨l, rest₁, hl, r, rest₂, hr, h⟩ := h
            obtain ⟨rfl, rfl⟩ := Prod.mk.inj (Option.some.inj h)
            obtain ⟨hd, taken₁, heq₁, hspace₁, hleaves₁⟩ := ih hl hle
            have hle₁ : ∀ e' ∈ rest₁, e'.1 ≤ L := fun e' he' => hle e' (by
              rw [heq₁]
              exact List.mem_append_right _ he')
            obtain ⟨-, taken₂, heq₂, hspace₂, hleaves₂⟩ := ih hr hle₁
            have hhalves := two_pow_halves (show d < L by omega)
            refine ⟨by omega, taken₁ ++ taken₂, ?_, ?_, fun v => ?_⟩
            · rw [heq₁, heq₂, List.append_assoc]
            · rw [space_append, hspace₁, hspace₂, hhalves]
              omega
            · have hfirst : v * 2 ^ (L - d) = 2 * v * 2 ^ (L - (d + 1)) := by
                rw [hhalves]
                ring
              have hsecond : v * 2 ^ (L - d) + 2 ^ (L - (d + 1))
                  = (2 * v + 1) * 2 ^ (L - (d + 1)) := by
                rw [hhalves]
                ring
              rw [leaves, assign_append, hspace₁, hsecond, hleaves₁, hleaves₂, hfirst]

/-- The tree exists if the symbols fill its space. -/
theorem grow_exists {L fuel d : Nat} {syms : List (Nat × Nat)}
    (hsorted : syms.Pairwise fun a b => a.1 ≤ b.1) (hd : ∀ e ∈ syms, d ≤ e.1)
    (hle : ∀ e ∈ syms, e.1 ≤ L) (hspace : 2 ^ (L - d) ≤ space L syms) (hfuel : L < fuel + d) :
    ∃ t rest, grow fuel d syms = some (t, rest) := by
  induction fuel generalizing d syms with
  | zero =>
      cases syms with
      | nil =>
          have hpos := Nat.two_pow_pos (L - d)
          rw [space, List.map_nil, List.sum_nil] at hspace
          omega
      | cons e syms =>
          have hlo := hd e List.mem_cons_self
          have hhi := hle e List.mem_cons_self
          omega
  | succ fuel ih =>
      cases syms with
      | nil =>
          have hpos := Nat.two_pow_pos (L - d)
          rw [space, List.map_nil, List.sum_nil] at hspace
          omega
      | cons e syms =>
          rw [grow]
          by_cases hleaf : e.1 = d
          · exact ⟨.leaf e.2, syms, if_pos hleaf⟩
          · have hlo := hd e List.mem_cons_self
            have hhi := hle e List.mem_cons_self
            -- all codewords are longer than the depth
            have hdeep : ∀ e' ∈ e :: syms, d + 1 ≤ e'.1 := by
              intro e' he'
              rcases List.mem_cons.mp he' with rfl | he'
              · omega
              · have hhead := (List.pairwise_cons.mp hsorted).1 e' he'
                omega
            have hhalves := two_pow_halves (show d < L by omega)
            obtain ⟨l, rest₁, hl⟩ := ih hsorted hdeep hle (by omega) (by omega)
            obtain ⟨-, taken, heq, htaken, -⟩ := grow_spec hl hle
            have hmem : ∀ e' ∈ rest₁, e' ∈ e :: syms := fun e' he' => by
              rw [heq]
              exact List.mem_append_right _ he'
            have hsorted₁ : rest₁.Pairwise fun a b => a.1 ≤ b.1 := by
              rw [heq] at hsorted
              exact (List.pairwise_append.mp hsorted).2.1
            have hspace₁ : 2 ^ (L - (d + 1)) ≤ space L rest₁ := by
              rw [heq, space_append, htaken, hhalves] at hspace
              omega
            obtain ⟨r, rest₂, hr⟩ := ih hsorted₁ (fun e' he' => hdeep e' (hmem e' he'))
              (fun e' he' => hle e' (hmem e' he')) hspace₁ (by omega)
            refine ⟨.node l r, rest₂, ?_⟩
            rw [if_neg hleaf, hl, Option.bind_eq_bind, Option.bind_some]
            simp only [hr, Option.bind_some]
            rfl

/-- A path goes on from the bits in front of it. -/
theorem leaves_front {t : Code} {d v l c code : Nat} (h : (l, c, code) ∈ leaves t d v) :
    d ≤ l ∧ code / 2 ^ (l - d) = v := by
  induction t generalizing d v with
  | leaf c' =>
      rw [leaves, List.mem_singleton] at h
      obtain ⟨rfl, hrest⟩ := Prod.mk.inj h
      obtain ⟨-, rfl⟩ := Prod.mk.inj hrest
      refine ⟨le_refl _, ?_⟩
      rw [Nat.sub_self, pow_zero, Nat.div_one]
  | node left right ihl ihr =>
      rw [leaves, List.mem_append] at h
      have hup : ∀ {w : Nat}, d + 1 ≤ l → code / 2 ^ (l - (d + 1)) = w →
          code / 2 ^ (l - d) = w / 2 := by
        rintro w hl rfl
        rw [Nat.div_div_eq_div_mul, ← pow_succ]
        congr 2
        omega
      rcases h with h | h
      · obtain ⟨hl, hcode⟩ := ihl h
        exact ⟨by omega, by rw [hup hl hcode]; omega⟩
      · obtain ⟨hl, hcode⟩ := ihr h
        exact ⟨by omega, by rw [hup hl hcode]; omega⟩

/-- A codeword is one of a symbol, at a position behind the first. -/
theorem mem_assign {L pos l c code : Nat} {syms : List (Nat × Nat)}
    (h : (l, c, code) ∈ assign L pos syms) :
    (l, c) ∈ syms ∧ ∃ p, pos ≤ p ∧ p + 2 ^ (L - l) ≤ pos + space L syms ∧
      code = p / 2 ^ (L - l) := by
  induction syms generalizing pos with
  | nil => cases h
  | cons e syms ih =>
      rw [space_cons]
      rw [assign, List.mem_cons] at h
      rcases h with h | h
      · obtain ⟨rfl, hrest⟩ := Prod.mk.inj h
        obtain ⟨rfl, rfl⟩ := Prod.mk.inj hrest
        exact ⟨List.mem_cons_self, pos, le_refl _, by omega, rfl⟩
      · obtain ⟨hmem, p, hlo, hhi, hcode⟩ := ih h
        exact ⟨List.mem_cons_of_mem _ hmem, p, le_trans (Nat.le_add_right _ _) hlo, by omega, hcode⟩

theorem two_pow_split {L l : Nat} (h : l ≤ L) : 2 ^ L = 2 ^ l * 2 ^ (L - l) := by
  rw [← pow_add, Nat.add_sub_cancel' h]

/-- A codeword behind the space does not fit in its length. -/
theorem assign_ge {L pos l c code : Nat} {syms : List (Nat × Nat)}
    (h : (l, c, code) ∈ assign L pos syms) (hl : l ≤ L) (hpos : 2 ^ L ≤ pos) : 2 ^ l ≤ code := by
  obtain ⟨-, p, hlo, -, rfl⟩ := mem_assign h
  rw [Nat.le_div_iff_mul_le (Nat.two_pow_pos _), ← two_pow_split hl]
  omega

/-- The codewords within the space fit in their lengths. -/
theorem assign_lt {L pos l c code : Nat} {syms : List (Nat × Nat)}
    (h : (l, c, code) ∈ assign L pos syms) (hl : l ≤ L) (hspace : pos + space L syms ≤ 2 ^ L) :
    code < 2 ^ l := by
  obtain ⟨-, p, -, hhi, rfl⟩ := mem_assign h
  have hpos := Nat.two_pow_pos (L - l)
  rw [Nat.div_lt_iff_lt_mul hpos, ← two_pow_split hl]
  omega

end CodeTree
