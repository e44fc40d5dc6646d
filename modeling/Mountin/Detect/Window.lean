import Mountin.Basic.Runs
import Mountin.Detect.Matching

set_option autoImplicit false

/-! # Rules on readers that serve runs

A leaf rule reads one window of the reader and wants all of it. On a reader that serves the
bytes `D` in runs it fails when the window lies in `D` but crosses the end of a run
(`matchesLeaf_of_short`), and otherwise it is what it is on `D` held in memory
(`matchesLeaf_congr_window`). `parts_matches_iff` puts the two together over rule trees.
-/

namespace Mountin

/-- The length of the window that a leaf reads; `nested` says whether it has nested rules. -/
def Leaf.window (f : Leaf) (nested : Bool) : Option Nat :=
  if f.typ = .checksum then some ((f.length.map UInt32.toNat).getD 512)
  else if f.typ = .xor then
    if nested then some ((f.length.map UInt32.toNat).getD 256) else none
  else
    match f.value with
    | none => none
    | some expected =>
        if f.typ = .string then
          match expected with
          | .bytes v => some v.length
          | _ => none
        else if f.typ = .ascii then
          match expected with
          | .string _ => f.length.map UInt32.toNat
          | _ => none
        else f.typ.layout.map Prod.fst

/-- `match_ascii_regex` wants its window in full. -/
theorem matchAsciiRegex_getD (regex : RegexMatch) (r : Reader) (offset len : Nat)
    (pattern : String) :
    (matchAsciiRegex regex r offset len pattern).getD false =
      match readFull r offset len with
      | none => false
      | some buf => buf.all (fun b => b < 128) && (regex pattern buf).getD false := by
  unfold matchAsciiRegex readFull
  cases hread : r.readAt offset len with
  | error e => rfl
  | ok buf =>
      by_cases hlen : buf.length = len
      · cases hall : buf.all (fun b => b < 128) <;> simp [hlen, hall]
      · simp [hlen]

theorem match_getD_and (matched : Option Bool) (holds : Bool) :
    (match matched with
      | none => false
      | some m => m && holds) = (matched.getD false && holds) := by
  cases matched <;> rfl

section

variable (regex : RegexMatch) {r r' : Reader} {offset : Nat} {f : Leaf}
  (thenHolds : Option Bool) (xorHolds : Option (Bytes → Bool))

/-- `matches_leaf` depends on the reader through its window only. -/
theorem matchesLeaf_congr_window
    (h : ∀ len ∈ f.window xorHolds.isSome, readFull r offset len = readFull r' offset len) :
    matchesLeaf regex r offset f thenHolds xorHolds
      = matchesLeaf regex r' offset f thenHolds xorHolds := by
  unfold Leaf.window at h
  unfold matchesLeaf
  by_cases hchecksum : f.typ = .checksum
  · simp only [hchecksum, if_true, Option.mem_some_iff, forall_eq'] at h ⊢
    rw [matchChecksum, matchChecksum, h]
  by_cases hxor : f.typ = .xor
  · simp only [hxor, reduceCtorEq, if_true, if_false] at h ⊢
    cases xorHolds with
    | none => rfl
    | some holds =>
        simp only [Option.isSome_some, if_true, Option.mem_some_iff, forall_eq'] at h
        rw [matchXorThen, matchXorThen, h]
  simp only [hchecksum, hxor, if_false] at h ⊢
  cases hvalue : f.value with
  | none => rfl
  | some expected =>
      simp only [hvalue] at h ⊢
      by_cases hstring : f.typ = .string
      · simp only [hstring, if_true] at h ⊢
        cases expected with
        | bytes v =>
            simp only [Option.mem_some_iff, forall_eq'] at h
            simp only [matchBytes, List.length_map, h]
        | _ => rfl
      by_cases hascii : f.typ = .ascii
      · simp only [hascii, if_true, reduceCtorEq, if_false] at h ⊢
        cases hlength : f.length with
        | none => rfl
        | some len =>
            cases expected with
            | string pattern =>
                simp only [hlength, Option.map_some, Option.mem_some_iff, forall_eq'] at h
                refine (match_getD_and _ _).trans (Eq.trans ?_ (match_getD_and _ _).symm)
                rw [matchAsciiRegex_getD, matchAsciiRegex_getD, h]
            | _ => rfl
      simp only [hstring, hascii, if_false] at h ⊢
      unfold readValue
      cases hlayout : f.typ.layout with
      | none => rfl
      | some layout =>
          simp only [hlayout, Option.map_some, Option.mem_some_iff, forall_eq'] at h
          simp only [h]

/-- A leaf that does not get its window does not match. -/
theorem matchesLeaf_of_short {len : Nat} (hwindow : f.window xorHolds.isSome = some len)
    (hshort : readFull r offset len = none) :
    matchesLeaf regex r offset f thenHolds xorHolds = false := by
  unfold Leaf.window at hwindow
  unfold matchesLeaf
  by_cases hchecksum : f.typ = .checksum
  · simp only [hchecksum, if_true, Option.some.injEq] at hwindow ⊢
    rw [matchChecksum, hwindow, hshort]
    cases checksumGet (f.algorithm.getD "adfs") <;> rfl
  by_cases hxor : f.typ = .xor
  · simp only [hxor, reduceCtorEq, if_true, if_false] at hwindow ⊢
    cases xorHolds with
    | none => cases hwindow
    | some holds =>
        simp only [Option.isSome_some, if_true, Option.some.injEq] at hwindow
        rw [matchXorThen, hwindow, hshort]
  simp only [hchecksum, hxor, if_false] at hwindow ⊢
  cases hvalue : f.value with
  | none => simp [hvalue] at hwindow
  | some expected =>
      simp only [hvalue] at hwindow ⊢
      by_cases hstring : f.typ = .string
      · simp only [hstring, if_true] at hwindow ⊢
        cases expected with
        | bytes v =>
            simp only [Option.some.injEq] at hwindow
            simp only [matchBytes, List.length_map, hwindow, hshort, Bool.false_and]
        | _ => rfl
      by_cases hascii : f.typ = .ascii
      · simp only [hascii, if_true, reduceCtorEq, if_false] at hwindow ⊢
        cases hlength : f.length with
        | none => rfl
        | some n =>
            cases expected with
            | string pattern =>
                simp only [hlength, Option.map_some, Option.some.injEq] at hwindow
                refine (match_getD_and _ _).trans ?_
                rw [matchAsciiRegex_getD, hwindow, hshort, Bool.false_and]
            | _ => rfl
      simp only [hstring, hascii, if_false] at hwindow ⊢
      unfold readValue
      cases hlayout : f.typ.layout with
      | none => rfl
      | some layout =>
          simp only [hlayout, Option.map_some, Option.some.injEq] at hwindow
          simp only [hwindow, hshort, Option.map_none]

end

/-! ## Straddling windows -/

/-- A leaf that holds on `D`, but whose window crosses the end of a run. -/
def Rule.Straddles (regex : RegexMatch) (D : Bytes) (run : Nat → Nat) : Rule → Prop
  | .leaf f thenRules =>
      (∃ offset len, resolveOffset f.offset (some D.length) = some offset ∧
        f.window thenRules.isSome = some len ∧ offset + len ≤ D.length ∧ run offset < len) ∧
      matchesRuleDyn regex (bytesReader D) (.leaf f thenRules) = true
  | .any _ | .all _ => False

section

variable {regex : RegexMatch} {r : Reader} {D : Bytes} {run : Nat → Nat}

/-- A window is served in full when it lies in `D` and in one run, or is empty. -/
theorem readFull_served (h : Runs.Serves r.readAt D run) (offset len : Nat) :
    readFull r offset len =
      if len = 0 ∨ (offset + len ≤ D.length ∧ len ≤ run offset) then some (D.slice offset len)
      else none := by
  rw [readFull, h offset len]
  by_cases hfull : (D.slice offset (min len (run offset))).length = len
  · have hslice : D.slice offset (min len (run offset)) = D.slice offset len := by
      rw [Runs.slice_eq_slice_iff]
      rw [Runs.length_served_iff] at hfull
      omega
    rw [if_pos ((Runs.length_served_iff D offset len (run offset)).mp hfull), hslice]
    exact if_pos (hslice ▸ hfull)
  · rw [if_neg (fun hin => hfull ((Runs.length_served_iff D offset len (run offset)).mpr hin))]
    exact if_neg hfull

theorem readFull_memory (D : Bytes) (offset len : Nat) :
    readFull (bytesReader D) offset len =
      if len = 0 ∨ offset + len ≤ D.length then some (D.slice offset len) else none := by
  rw [readFull, bytesReader_readAt]
  have hiff : (D.slice offset len).length = len ↔ len = 0 ∨ offset + len ≤ D.length := by
    rw [List.length_slice]
    omega
  simp only [hiff]

/-- An `xor` leaf does not evaluate its nested rules on the reader. -/
theorem matchesLeaf_xor {offset : Nat} {f : Leaf} (hxor : f.typ = .xor)
    (thenHolds thenHolds' : Option Bool) (xorHolds : Option (Bytes → Bool)) :
    matchesLeaf regex r offset f thenHolds xorHolds
      = matchesLeaf regex r offset f thenHolds' xorHolds := by
  simp only [matchesLeaf, hxor, reduceCtorEq, if_true, if_false]

/-- One leaf, when its nested rules agree. -/
theorem leaf_matches_iff (hserves : Runs.Serves r.readAt D run) (hsize : r.size = some D.length)
    {f : Leaf} {thenRules : Option (List Rule)}
    (hthen : f.typ ≠ .xor →
      thenDyn regex r thenRules = thenDyn regex (bytesReader D) thenRules) :
    matchesRuleDyn regex r (.leaf f thenRules)
        = matchesRuleDyn regex (bytesReader D) (.leaf f thenRules) ↔
      ¬ (Rule.leaf f thenRules).Straddles regex D run := by
  have hnested : (thenOnBytes regex thenRules).isSome = thenRules.isSome := by
    cases thenRules <;> rfl
  have hleaf : ∀ offset,
      matchesLeaf regex r offset f (thenDyn regex r thenRules) (thenOnBytes regex thenRules)
        = matchesLeaf regex r offset f (thenDyn regex (bytesReader D) thenRules)
            (thenOnBytes regex thenRules) := by
    intro offset
    by_cases hxor : f.typ = .xor
    · exact matchesLeaf_xor hxor _ _ _
    · rw [hthen hxor]
  rw [Rule.Straddles, matchesRuleDyn, matchesRuleDyn, hsize, bytesReader_size, ← hnested]
  simp only [hleaf]
  cases hoffset : resolveOffset f.offset (some D.length) with
  | none => exact iff_of_true rfl (by rintro ⟨⟨offset, len, h, -⟩, -⟩; cases h)
  | some offset =>
      by_cases hshort : ∃ len, f.window (thenOnBytes regex thenRules).isSome = some len ∧
          offset + len ≤ D.length ∧ run offset < len
      · obtain ⟨len, hwindow, hfits, hrun⟩ := hshort
        have hnone : readFull r offset len = none := by
          rw [readFull_served hserves]
          exact if_neg (by omega)
        have hfalse := matchesLeaf_of_short regex (thenDyn regex (bytesReader D) thenRules)
          (thenOnBytes regex thenRules) hwindow hnone
        simp only [hfalse]
        constructor
        · rintro heq ⟨-, htrue⟩
          rw [← heq] at htrue
          cases htrue
        · intro hnot
          rw [eq_comm, Bool.eq_false_iff]
          exact fun htrue => hnot ⟨⟨offset, len, rfl, hwindow, hfits, hrun⟩, htrue⟩
      · have heq := matchesLeaf_congr_window regex (thenDyn regex (bytesReader D) thenRules)
          (thenOnBytes regex thenRules) (fun len hlen => by
            have hlen : f.window (thenOnBytes regex thenRules).isSome = some len := hlen
            have hnot : ¬ (offset + len ≤ D.length ∧ run offset < len) :=
              fun h => hshort ⟨len, hlen, h⟩
            show readFull r offset len = readFull (bytesReader D) offset len
            rw [readFull_served hserves, readFull_memory]
            congr 1
            rw [eq_iff_iff]
            omega)
        refine iff_of_true heq ?_
        rintro ⟨⟨offset', len, hoffset', hwindow⟩, -⟩
        cases hoffset'
        exact hshort ⟨len, hwindow⟩

theorem anyDyn_congr {rules : List Rule}
    (h : ∀ s ∈ rules, matchesRuleDyn regex r s = matchesRuleDyn regex (bytesReader D) s) :
    anyDyn regex r rules = anyDyn regex (bytesReader D) rules := by
  induction rules with
  | nil => rfl
  | cons s rules ih =>
      rw [anyDyn, anyDyn, h s List.mem_cons_self,
        ih (fun t ht => h t (List.mem_cons_of_mem s ht))]

theorem allDyn_congr {rules : List Rule}
    (h : ∀ s ∈ rules, matchesRuleDyn regex r s = matchesRuleDyn regex (bytesReader D) s) :
    allDyn regex r rules = allDyn regex (bytesReader D) rules := by
  induction rules with
  | nil => rfl
  | cons s rules ih =>
      rw [allDyn, allDyn, h s List.mem_cons_self,
        ih (fun t ht => h t (List.mem_cons_of_mem s ht))]

end

section

variable (regex : RegexMatch) {r : Reader} {D : Bytes} {run : Nat → Nat}

mutual

/-- **Rules on a reader that serves runs**: all parts of a rule match as on the bytes held in
memory exactly when no part straddles the end of a run. -/
theorem parts_matches_iff (hserves : Runs.Serves r.readAt D run)
    (hsize : r.size = some D.length) : ∀ rule : Rule,
    (∀ s ∈ rule.parts, matchesRuleDyn regex r s = matchesRuleDyn regex (bytesReader D) s) ↔
      ∀ s ∈ rule.parts, ¬ s.Straddles regex D run
  | .any rules => by
      rw [Rule.parts, List.forall_mem_cons, List.forall_mem_cons,
        ← partsOfList_matches_iff hserves hsize rules]
      refine and_congr_left (fun h => iff_of_true ?_ not_false)
      exact anyDyn_congr (fun s hs => h s (mem_partsOfList.mpr ⟨s, hs, s.self_mem_parts⟩))
  | .all rules => by
      rw [Rule.parts, List.forall_mem_cons, List.forall_mem_cons,
        ← partsOfList_matches_iff hserves hsize rules]
      refine and_congr_left (fun h => iff_of_true ?_ not_false)
      exact allDyn_congr (fun s hs => h s (mem_partsOfList.mpr ⟨s, hs, s.self_mem_parts⟩))
  | .leaf f thenRules => by
      rw [Rule.parts, List.forall_mem_cons, List.forall_mem_cons]
      by_cases hxor : f.typ = .xor
      · rw [if_pos hxor]
        refine and_congr (leaf_matches_iff hserves hsize (fun h => absurd hxor h)) ?_
        simp only [List.not_mem_nil, false_implies, implies_true]
      · rw [if_neg hxor, ← partsOfThen_matches_iff hserves hsize thenRules]
        refine and_congr_left (fun h => leaf_matches_iff hserves hsize (fun _ => ?_))
        cases thenRules with
        | none => rfl
        | some rules =>
            exact congrArg some
              (allDyn_congr (fun s hs => h s (mem_partsOfList.mpr ⟨s, hs, s.self_mem_parts⟩)))

theorem partsOfList_matches_iff (hserves : Runs.Serves r.readAt D run)
    (hsize : r.size = some D.length) : ∀ rules : List Rule,
    (∀ s ∈ partsOfList rules,
        matchesRuleDyn regex r s = matchesRuleDyn regex (bytesReader D) s) ↔
      ∀ s ∈ partsOfList rules, ¬ s.Straddles regex D run
  | [] => by simp [partsOfList]
  | s :: rules => by
      rw [partsOfList, List.forall_mem_append, List.forall_mem_append,
        parts_matches_iff hserves hsize s, partsOfList_matches_iff hserves hsize rules]

theorem partsOfThen_matches_iff (hserves : Runs.Serves r.readAt D run)
    (hsize : r.size = some D.length) : ∀ thenRules : Option (List Rule),
    (∀ s ∈ partsOfThen thenRules,
        matchesRuleDyn regex r s = matchesRuleDyn regex (bytesReader D) s) ↔
      ∀ s ∈ partsOfThen thenRules, ¬ s.Straddles regex D run
  | none => by simp [partsOfThen]
  | some rules => partsOfList_matches_iff hserves hsize rules

end

end

end Mountin
