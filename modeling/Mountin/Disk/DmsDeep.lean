import Mountin.Basic.Raising
import Mountin.Basic.SiblingTree
import Mountin.Disk.Dms

set_option autoImplicit false

/-! # The dynamic Huffman tree of a DMS image

The nodes of `DeepTabs` are those of a sibling tree over the `N_CHAR` characters, through every count
of a character and every halving of the counts.

* `deepUpdate_returns` : a count keeps the tree.
* `deep_tree` : every run of counts from `initDeepTabs`.
-/

namespace Mountin.Dms

open SiblingTree

/-! ## Arrays -/

/-- The numbers of an array. -/
def entry (xs : List Nat) (i : Nat) : Nat := xs.getD i 0

theorem index_eq {xs : List Nat} {i : Nat} (hi : i < xs.length) : index xs i = .ok (entry xs i) := by
  rw [index, entry, List.getD_eq_getElem?_getD, List.getElem?_eq_getElem hi, Option.getD_some]

theorem store_eq {xs : List Nat} {i : Nat} (x : Nat) (hi : i < xs.length) :
    store xs i x = .ok (xs.set i x) := if_pos hi

theorem entry_set {xs : List Nat} {i : Nat} (x : Nat) (hi : i < xs.length) :
    entry (xs.set i x) = Function.update (entry xs) i x := by
  funext q
  by_cases hq : q = i
  · subst hq
    rw [Function.update_self, entry, List.getD_eq_getElem?_getD, List.getElem?_set_self hi,
      Option.getD_some]
  · rw [Function.update_of_ne hq, entry, entry, List.getD_eq_getElem?_getD,
      List.getElem?_set_ne (Ne.symm hq), List.getD_eq_getElem?_getD]

theorem N_CHAR_val : N_CHAR = 314 := rfl
theorem T_val : T = 627 := rfl
theorem R_val : R = 626 := rfl

theorem setParent_eq {prnt : List Nat} (hlength : prnt.length = T + N_CHAR) {i : Nat} (parent : Nat)
    (hi : i < T + N_CHAR) :
    ∃ prnt', setParent prnt i parent = .ok prnt' ∧ prnt'.length = T + N_CHAR ∧
      entry prnt' = link N_CHAR (entry prnt) i parent := by
  have hlt : i < prnt.length := hlength ▸ hi
  have hlength' : (prnt.set i parent).length = T + N_CHAR := by rw [List.length_set, hlength]
  rw [setParent, store_eq _ hlt, Except.ok_bind]
  by_cases hinner : i < T
  · have hlt' : i + 1 < (prnt.set i parent).length := by
      rw [hlength', N_CHAR_val]
      omega
    rw [if_pos hinner, store_eq _ hlt']
    refine ⟨_, rfl, by rw [List.length_set, hlength'], ?_⟩
    rw [entry_set _ hlt', entry_set _ hlt]
    funext x
    rw [link, Function.update_apply, Function.update_apply]
    have hinner' : i < 2 * N_CHAR - 1 := hinner
    by_cases hsecond : x = i + 1
    · rw [if_pos hsecond, if_pos (.inr ⟨hinner', hsecond⟩)]
    · rw [if_neg hsecond]
      exact if_congr (by rw [or_iff_left fun hboth => hsecond hboth.2]) rfl rfl
  · rw [if_neg hinner]
    refine ⟨_, rfl, hlength', ?_⟩
    rw [entry_set _ hlt]
    funext x
    rw [link, Function.update_apply]
    have hleaf : ¬i < 2 * N_CHAR - 1 := hinner
    exact if_congr (by rw [or_iff_left fun hboth => hleaf hboth.1]) rfl rfl

/-! ## The tree of the tables -/

/-- The arrays have their lengths. -/
structure DeepTabs.Sized (tabs : DeepTabs) : Prop where
  freq : tabs.freq.length = T + 1
  prnt : tabs.prnt.length = T + N_CHAR
  son : tabs.son.length = T

/-- The tables hold a tree whose node `short` counts one less than its sons. -/
structure DeepTabs.Holds (tabs : DeepTabs) (short : Option Nat) : Prop extends tabs.Sized where
  forest : Forest N_CHAR (N_CHAR - 1) short (entry tabs.freq) (entry tabs.son)
  parents : Parents N_CHAR (N_CHAR - 1) (entry tabs.son) (entry tabs.prnt)
  root : entry tabs.prnt R = 0
  sentinel : entry tabs.freq T = 0xffff

theorem lastBelow_returns {freq : List Nat} (hlength : freq.length = T + 1) {k : Nat}
    (hsentinel : k ≤ entry freq T) : ∀ {fuel l : Nat}, T ≤ fuel + l → l < T → entry freq l < k →
      ∃ l', lastBelow freq k fuel l = .ok l' ∧ l ≤ l' ∧ l' < T ∧ entry freq l' < k ∧
        k ≤ entry freq (l' + 1)
  | 0, l, hfuel, hl, _ => by omega
  | fuel + 1, l, hfuel, hl, hbelow => by
      rw [lastBelow, index_eq (by omega), Except.ok_bind]
      by_cases hnext : entry freq (l + 1) < k
      · have hl' : l + 1 < T := by
          refine Nat.lt_of_le_of_ne hl fun heq => ?_
          rw [heq] at hnext
          exact absurd hnext (Nat.not_lt.mpr hsentinel)
        rw [if_pos hnext]
        obtain ⟨l', hreturn, hle, hrest⟩ :=
          @lastBelow_returns freq hlength k hsentinel fuel (l + 1) (by omega) hl' hnext
        exact ⟨l', hreturn, by omega, hrest⟩
      · rw [if_neg hnext]
        exact ⟨l, rfl, Nat.le_refl l, hl, hbelow, Nat.not_lt.mp hnext⟩

section

variable {tabs : DeepTabs}

/-- `exchange` gives the nodes each other's sons. -/
theorem exchange_eq (hsized : tabs.Sized) {c l : Nat} (k : Nat) (hcl : c < l) (hl : l < T)
    (hc_son : entry tabs.son c < T + N_CHAR) (hl_son : entry tabs.son l < T + N_CHAR) :
    ∃ tabs', exchange tabs c l k = .ok tabs' ∧ tabs'.Sized ∧
      entry tabs'.freq =
        Function.update (Function.update (entry tabs.freq) c (entry tabs.freq l)) l k ∧
      entry tabs'.son = entry tabs.son ∘ Equiv.swap c l ∧
      entry tabs'.prnt =
        link N_CHAR (link N_CHAR (entry tabs.prnt) (entry tabs.son c) l) (entry tabs.son l) c := by
  have hlf : l < tabs.freq.length := by rw [hsized.freq]; omega
  have hcf : c < tabs.freq.length := hcl.trans hlf
  have hls : l < tabs.son.length := by rw [hsized.son]; exact hl
  have hcs : c < tabs.son.length := hcl.trans hls
  have hlf' : l < (tabs.freq.set c (entry tabs.freq l)).length := by rwa [List.length_set]
  have hcs' : c < (tabs.son.set l (entry tabs.son c)).length := by rwa [List.length_set]
  obtain ⟨prnt₁, hprnt₁, hlength₁, hentry₁⟩ := setParent_eq hsized.prnt l hc_son
  obtain ⟨prnt₂, hprnt₂, hlength₂, hentry₂⟩ := setParent_eq hlength₁ c hl_son
  refine ⟨⟨(tabs.freq.set c (entry tabs.freq l)).set l k, prnt₂,
    (tabs.son.set l (entry tabs.son c)).set c (entry tabs.son l)⟩, ?_, ⟨?_, hlength₂, ?_⟩, ?_, ?_, ?_⟩
  · rw [exchange, index_eq hlf, Except.ok_bind, store_eq _ hcf, Except.ok_bind, store_eq _ hlf',
      Except.ok_bind, index_eq hcs, Except.ok_bind, hprnt₁, Except.ok_bind, index_eq hls,
      Except.ok_bind, store_eq _ hls, Except.ok_bind, hprnt₂, Except.ok_bind, store_eq _ hcs',
      Except.ok_bind]
    rfl
  · rw [List.length_set, List.length_set, hsized.freq]
  · rw [List.length_set, List.length_set, hsized.son]
  · rw [entry_set _ hlf', entry_set _ hcf]
  · rw [entry_set _ hcs', entry_set _ hls]
    funext q
    rw [Function.comp_apply, Equiv.swap_apply_def, Function.update_apply, Function.update_apply]
    split_ifs <;> rfl
  · rw [hentry₂, hentry₁]

/-- A turn of `deep_update` counts one more at the last node `l` of the weight of `c`, with which `c`
has changed places. -/
theorem raise_eq {c : Nat} (h : tabs.Holds (some c)) (hc : c < T)
    (hmax : entry tabs.freq c < MAX_FREQ) :
    ∃ tabs' l, raise tabs c = .ok (tabs', l) ∧ tabs'.Sized ∧ c ≤ l ∧ l < T ∧
      entry tabs.freq l = entry tabs.freq c ∧ entry tabs.freq l < entry tabs.freq (l + 1) ∧
      entry tabs'.freq = Function.update (entry tabs.freq) l (entry tabs.freq l + 1) ∧
      (l = c ∧ tabs'.son = tabs.son ∧ tabs'.prnt = tabs.prnt ∨
        c < l ∧ entry tabs'.son = entry tabs.son ∘ Equiv.swap c l ∧
        entry tabs'.prnt =
          link N_CHAR (link N_CHAR (entry tabs.prnt) (entry tabs.son c) l) (entry tabs.son l) c) := by
  have hmax' : entry tabs.freq c < 0x8000 := hmax
  have hcf : c < tabs.freq.length := by rw [h.freq]; omega
  have hlength : (tabs.freq.set c (entry tabs.freq c + 1)).length = T + 1 := by
    rw [List.length_set, h.freq]
  have hfreq := entry_set (entry tabs.freq c + 1) hcf
  -- the entries after `c` are as they were
  have hafter : ∀ q, c < q → entry (tabs.freq.set c (entry tabs.freq c + 1)) q = entry tabs.freq q := by
    intro q hq
    rw [hfreq, Function.update_of_ne (Nat.ne_of_gt hq)]
  have hsized : ({ tabs with freq := tabs.freq.set c (entry tabs.freq c + 1) } : DeepTabs).Sized :=
    ⟨hlength, h.prnt, h.son⟩
  rw [raise, index_eq hcf, Except.ok_bind, add16, if_pos (by omega), Except.ok_bind,
    store_eq _ hcf, Except.ok_bind, index_eq (by rw [hlength]; omega), Except.ok_bind,
    hafter _ (Nat.lt_add_one c)]
  by_cases hnext : entry tabs.freq (c + 1) < entry tabs.freq c + 1
  · have hc' : c + 1 < T := by
      refine Nat.lt_of_le_of_ne hc fun heq => ?_
      rw [heq, h.sentinel] at hnext
      omega
    obtain ⟨l, hreturn, hle, hl, hbelow, habove⟩ :=
      @lastBelow_returns _ hlength (entry tabs.freq c + 1) (by rw [hafter _ hc, h.sentinel]; omega)
        T (c + 1) (by omega) hc' (by rwa [hafter _ (Nat.lt_add_one c)])
    rw [hafter _ (by omega)] at hbelow habove
    have hsame : entry tabs.freq l = entry tabs.freq c :=
      Nat.le_antisymm (Nat.le_of_lt_succ hbelow) (h.forest.weight_mono (by omega) hl)
    obtain ⟨tabs', hexchange, hsized', hfreq', hson', hprnt'⟩ := exchange_eq hsized
      (entry tabs.freq c + 1) (by omega) hl (h.forest.son_lt (by decide) hc)
      (h.forest.son_lt (by decide) hl)
    refine ⟨tabs', l, ?_, hsized', by omega, hl, hsame, by omega, ?_, .inr ⟨by omega, hson', hprnt'⟩⟩
    · rw [if_pos hnext, hreturn, Except.ok_bind, hexchange, Except.ok_bind]
      rfl
    · -- the weight of `l` at `c` is that of `c`
      rw [hfreq', hafter _ (by omega), hfreq, hsame, Function.update_idem, Function.update_eq_self]
  · refine ⟨_, c, ?_, hsized, Nat.le_refl c, hc, rfl, by omega, hfreq, .inl ⟨rfl, rfl, rfl⟩⟩
    rw [if_neg hnext]
    rfl

/-- **A turn** of `deep_update` counts one more at a node and leaves its parent short, up to the
root. -/
theorem raise_returns {c : Nat} (h : tabs.Holds (some c)) (hc : c < T)
    (hmax : entry tabs.freq R < MAX_FREQ) :
    ∃ tabs' l, raise tabs c = .ok (tabs', l) ∧ c ≤ l ∧ l < T ∧
      (entry tabs'.prnt l = 0 ∧ tabs'.Holds none ∧ entry tabs'.freq R ≤ MAX_FREQ ∨
        l < entry tabs'.prnt l ∧ entry tabs'.prnt l < T ∧ tabs'.Holds (some (entry tabs'.prnt l)) ∧
        entry tabs'.freq R < MAX_FREQ) := by
  have hinner : N_CHAR - 1 < N_CHAR := by decide
  have hweight : entry tabs.freq c ≤ entry tabs.freq R :=
    h.forest.weight_mono (Nat.le_of_lt_succ hc) (by decide)
  obtain ⟨tabs', l, hraise, hsized, hcl, hl, hsame, hlast, hfreq, hmoved⟩ :=
    raise_eq h hc (hweight.trans_lt hmax)
  have hmoved' : Forest N_CHAR (N_CHAR - 1) (some l) (entry tabs.freq) (entry tabs'.son) ∧
      Parents N_CHAR (N_CHAR - 1) (entry tabs'.son) (entry tabs'.prnt) ∧ entry tabs'.prnt R = 0 := by
    rcases hmoved with ⟨rfl, hson, hprnt⟩ | ⟨hlt, hson, hprnt⟩
    · rw [hson, hprnt]
      exact ⟨h.forest, h.parents, h.root⟩
    · have hforest := h.forest.exchange hlt hl hsame.symm
      rw [hson, hprnt]
      refine ⟨hforest, h.parents.exchange h.forest hinner (Nat.ne_of_lt hlt) hc hl, ?_⟩
      have hlink : ∀ (prnt : Nat → Nat) a q, a < T →
          link N_CHAR prnt (entry tabs.son a) q R = prnt R := fun prnt a q ha =>
        h.forest.link_root (by decide) prnt q ha
      rw [hlink _ l c hl, hlink _ c l hc, h.root]
  obtain ⟨hforest, hparents, hroot⟩ := hmoved'
  have hsentinel : entry tabs'.freq T = 0xffff := by
    rw [hfreq, Function.update_of_ne (Nat.ne_of_gt hl), h.sentinel]
  refine ⟨tabs', l, hraise, hcl, hl, ?_⟩
  by_cases htop : l = R
  · -- the root is no son
    subst htop
    have hnone : ∀ q < N_CHAR + (N_CHAR - 1), (none : Option Nat) = some q ↔
        IsSon N_CHAR (entry tabs'.son) q R := by
      intro q hq
      refine iff_of_false (by rintro ⟨⟩) fun hchild => ?_
      have hbefore := hforest.before q hq hchild.1
      have hle : q ≤ R := Nat.le_of_lt_succ hq
      have hson := hchild.2
      omega
    refine .inl ⟨hroot, ⟨hsized, ?_, hparents, hroot, hsentinel⟩, ?_⟩
    · rw [hfreq]
      exact hforest.increment (fun _ => hlast) hnone
    · rw [hfreq, Function.update_self]
      exact hmax
  · obtain ⟨p, hp, hchild⟩ := hforest.exists_parent hinner (x := l) (by
      rw [R_val] at htop
      rw [T_val] at hl
      rw [N_CHAR_val]
      omega)
    have hparent : entry tabs'.prnt l = p := hparents.parent_eq hp hchild
    have hbefore := hforest.before p hp hchild.1
    have hson := hchild.2
    have hiff : ∀ q < N_CHAR + (N_CHAR - 1), some p = some q ↔ IsSon N_CHAR (entry tabs'.son) q l := by
      intro q hq
      rw [Option.some.injEq]
      constructor
      · rintro rfl
        exact hchild
      · exact fun hchild' => hforest.child_unique hinner hp hq hchild hchild'
    rw [hparent]
    refine .inr ⟨by omega, hp, ⟨hsized, ?_, hparents, hroot, hsentinel⟩, ?_⟩
    · rw [hfreq]
      exact hforest.increment (fun _ => hlast) hiff
    · rw [hfreq, Function.update_of_ne (Ne.symm htop)]
      exact hmax

/-- The loop of `deep_update` ends at the root, and no node is short. -/
theorem raiseLoop_returns : ∀ {fuel : Nat} {tabs : DeepTabs} {c : Nat}, tabs.Holds (some c) → c < T →
    T ≤ fuel + c → entry tabs.freq R < MAX_FREQ →
    ∃ tabs', raiseLoop fuel tabs c = .ok tabs' ∧ tabs'.Holds none ∧ entry tabs'.freq R ≤ MAX_FREQ
  | 0, _, c, _, hc, hfuel, _ => by omega
  | fuel + 1, tabs, c, h, hc, hfuel, hmax => by
      obtain ⟨tabs', l, hraise, hcl, hl, hnext⟩ := raise_returns h hc hmax
      have hprnt : l < tabs'.prnt.length := by
        rcases hnext with ⟨-, h', -⟩ | ⟨-, -, h', -⟩ <;> rw [h'.prnt] <;> omega
      rw [raiseLoop, hraise, Except.ok_bind]
      dsimp only
      rw [index_eq hprnt, Except.ok_bind]
      rcases hnext with ⟨hzero, h', hmax'⟩ | ⟨hup, hp, h', hmax'⟩
      · rw [if_pos hzero]
        exact ⟨tabs', rfl, h', hmax'⟩
      · rw [if_neg (by omega)]
        exact raiseLoop_returns h' hp (by omega) hmax'

/-! ## Halving the counts -/

theorem map_range_update (f : Nat → Nat) (j x : Nat) :
    (List.range (j + 1)).map (Function.update f j x) = (List.range j).map f ++ [x] := by
  rw [List.range_succ, List.map_append, List.map_singleton, Function.update_self]
  refine congrArg (· ++ [x]) (List.map_congr_left fun q hq => ?_)
  exact Function.update_of_ne (Nat.ne_of_lt (List.mem_range.mp hq)) _ _

/-- What the first loop of `deep_reconst` has done after `i` turns: the leaves so far stand first, and
the nodes from `i` on are untouched. -/
structure Collected (tabs : DeepTabs) (i : Nat) (state : DeepTabs × Nat) : Prop where
  sized : state.1.Sized
  prnt : state.1.prnt = tabs.prnt
  found : state.2 = (leaves N_CHAR i (entry tabs.son)).length
  freq_after : ∀ q, i ≤ q → entry state.1.freq q = entry tabs.freq q
  son_after : ∀ q, i ≤ q → entry state.1.son q = entry tabs.son q
  freq : (List.range state.2).map (entry state.1.freq) =
    (leaves N_CHAR i (entry tabs.son)).map fun q => (entry tabs.freq q + 1) / 2
  son : (List.range state.2).map (entry state.1.son) =
    (leaves N_CHAR i (entry tabs.son)).map (entry tabs.son)

theorem length_leaves_le (n i : Nat) (son : Nat → Nat) : (leaves n i son).length ≤ i :=
  (List.length_filter_le _ _).trans_eq List.length_range

theorem leaves_succ (n i : Nat) (son : Nat → Nat) :
    leaves n (i + 1) son = leaves n i son ++ if 2 * n - 1 ≤ son i then [i] else [] := by
  rw [leaves, List.range_succ, List.filter_append, ← leaves, List.filter_singleton]
  refine congrArg _ ?_
  by_cases hleaf : 2 * n - 1 ≤ son i
  · rw [decide_eq_true hleaf, if_pos hleaf, cond_true]
  · rw [decide_eq_false hleaf, if_neg hleaf, cond_false]

theorem reconstLeaf_returns {i : Nat} (hi : i < T) {state : DeepTabs × Nat}
    (h : Collected tabs i state) :
    ∃ state', reconstLeaf state i = .ok state' ∧ Collected tabs (i + 1) state' := by
  obtain ⟨s, j⟩ := state
  have hj : j ≤ i := h.found.trans_le (length_leaves_le _ _ _)
  have his : i < s.son.length := by rw [h.sized.son]; exact hi
  have hif : i < s.freq.length := by rw [h.sized.freq]; omega
  have hjs : j < s.son.length := Nat.lt_of_le_of_lt hj his
  have hjf : j < s.freq.length := Nat.lt_of_le_of_lt hj hif
  have hson := h.son_after i (Nat.le_refl i)
  have hfreq := h.freq_after i (Nat.le_refl i)
  have hleaves := leaves_succ N_CHAR i (entry tabs.son)
  rw [reconstLeaf]
  dsimp only at hson hfreq ⊢
  rw [index_eq his, Except.ok_bind, hson]
  by_cases hleaf : T ≤ entry tabs.son i
  · rw [if_pos hleaf, index_eq hif, Except.ok_bind, store_eq _ hjf, Except.ok_bind, store_eq _ hjs,
      Except.ok_bind, hfreq]
    have hleaf' : 2 * N_CHAR - 1 ≤ entry tabs.son i := hleaf
    rw [if_pos hleaf'] at hleaves
    refine ⟨_, rfl, ⟨?_, h.sized.prnt, ?_⟩, h.prnt, ?_, ?_, ?_, ?_, ?_⟩
    · rw [List.length_set, h.sized.freq]
    · rw [List.length_set, h.sized.son]
    · rw [hleaves, List.length_append, List.length_singleton, ← h.found]
    · intro q hq
      dsimp only
      rw [entry_set _ hjf, Function.update_of_ne (by omega)]
      exact h.freq_after q (by omega)
    · intro q hq
      dsimp only
      rw [entry_set _ hjs, Function.update_of_ne (by omega)]
      exact h.son_after q (by omega)
    · dsimp only
      rw [entry_set _ hjf, map_range_update, hleaves, List.map_append, ← h.freq, List.map_singleton]
    · dsimp only
      rw [entry_set _ hjs, map_range_update, hleaves, List.map_append, ← h.son, List.map_singleton]
  · rw [if_neg hleaf]
    have hleaf' : ¬2 * N_CHAR - 1 ≤ entry tabs.son i := hleaf
    rw [if_neg hleaf', List.append_nil] at hleaves
    refine ⟨(s, j), rfl, h.sized, h.prnt, ?_, fun q hq => h.freq_after q (by omega),
      fun q hq => h.son_after q (by omega), ?_, ?_⟩
    · rw [hleaves]
      exact h.found
    · rw [hleaves]
      exact h.freq
    · rw [hleaves]
      exact h.son

/-- What the loops that build the inner nodes keep, after `k` turns. -/
structure DeepTabs.Building (tabs : DeepTabs) (before : List Nat) (k total : Nat) : Prop
    extends tabs.Sized where
  same : tabs.prnt = before
  sentinel : entry tabs.freq T = 0xffff
  forest : Forest N_CHAR k none (entry tabs.freq) (entry tabs.son)
  whole : Whole N_CHAR k total (entry tabs.freq)

/-- The first loop of `deep_reconst`. -/
theorem collect_returns (h : tabs.Holds none) (hmax : entry tabs.freq R ≤ MAX_FREQ) :
    ∃ state total, (List.range T).foldlM reconstLeaf (tabs, 0) = .ok state ∧ total < 0x8000 ∧
      state.1.Building tabs.prnt 0 total := by
  have hstart : Collected tabs 0 (tabs, 0) :=
    ⟨⟨h.freq, h.prnt, h.son⟩, rfl, rfl, fun _ _ => rfl, fun _ _ => rfl, rfl, rfl⟩
  obtain ⟨state, hloop, hdone⟩ := List.foldlM_range_returns
    (fun i hi _ hstate => reconstLeaf_returns hi hstate) hstart
  have hk : N_CHAR - 1 ≤ N_CHAR := by decide
  have hlength : (leaves N_CHAR T (entry tabs.son)).length = N_CHAR := h.forest.length_leaves hk
  have hcount : state.2 = N_CHAR := hdone.found.trans hlength
  have hfreq := hdone.freq
  have hson := hdone.son
  rw [hcount] at hfreq hson
  have hmono : Monotone fun w : Nat => (w + 1) / 2 := fun a b hab =>
    Nat.div_le_div_right (Nat.add_le_add_right hab 1)
  have hforest := h.forest.prune hk hmono (fun w hw => by omega) hfreq hson
  refine ⟨state, ((leaves N_CHAR T (entry tabs.son)).map fun q => (entry tabs.freq q + 1) / 2).sum,
    hloop, ?_, hdone.sized, hdone.prnt, ?_, hforest, ?_⟩
  · -- the leaves count as much as the root
    have hsum := sum_halves_le (leaves N_CHAR T (entry tabs.son)) (entry tabs.freq)
    have hroot : entry tabs.freq R = ((leaves N_CHAR T (entry tabs.son)).map (entry tabs.freq)).sum :=
      (h.forest.leaf_total hk).root (by decide)
    have hmax' : entry tabs.freq R ≤ 0x8000 := hmax
    rw [← hroot, hlength] at hsum
    have hchars := N_CHAR_val
    omega
  · rw [hdone.freq_after T (Nat.le_refl T), h.sentinel]
  · rw [Whole, Nat.add_zero, Nat.mul_zero, Finset.sum_range_zero, Nat.zero_add, sum_range_eq, hfreq]

/-- The search of `deep_reconst` ends at the last node that counts no more than `f`. -/
theorem insertionPoint_returns {freq : List Nat} {f q : Nat} (hq : entry freq q ≤ f) :
    ∀ {kk : Nat}, q ≤ kk → kk < freq.length →
      ∃ i, insertionPoint freq f kk = .ok i ∧ q ≤ i ∧ i ≤ kk ∧ entry freq i ≤ f ∧
        (i < kk → f < entry freq (i + 1))
  | 0, hle, hlt => by
      obtain rfl := Nat.le_zero.mp hle
      rw [insertionPoint, index_eq hlt, Except.ok_bind, if_neg (Nat.not_lt.mpr hq)]
      exact ⟨0, rfl, Nat.le_refl 0, Nat.le_refl 0, hq, fun h => absurd h (Nat.lt_irrefl 0)⟩
  | kk + 1, hle, hlt => by
      rw [insertionPoint, index_eq hlt, Except.ok_bind]
      by_cases hmore : f < entry freq (kk + 1)
      · have hle' : q ≤ kk := by
          refine Nat.le_of_lt_succ (Nat.lt_of_le_of_ne hle ?_)
          rintro rfl
          exact absurd hq (Nat.not_le.mpr hmore)
        rw [if_pos hmore]
        obtain ⟨i, hreturn, hqi, hik, hi, hnext⟩ := insertionPoint_returns hq hle' (Nat.lt_of_succ_lt hlt)
        refine ⟨i, hreturn, hqi, Nat.le_succ_of_le hik, hi, fun _ => ?_⟩
        rcases Nat.lt_or_eq_of_le hik with hlow | rfl
        · exact hnext hlow
        · exact hmore
      · rw [if_neg hmore]
        exact ⟨kk + 1, rfl, hle, Nat.le_refl _, Nat.not_lt.mp hmore, fun h => absurd h (Nat.lt_irrefl _)⟩

/-- `copy_within` and a store insert a number at a place. -/
theorem shiftUp_eq {xs : List Nat} {i j : Nat} (x : Nat) (hij : i ≤ j) (hj : j < xs.length) :
    ∃ ys, shiftUp xs i (j - i) = .ok ys ∧ ys.length = xs.length ∧
      (∀ q ≤ j, entry (ys.set i x) q = insertAt (entry xs) i x q) ∧
      ∀ q, j < q → entry (ys.set i x) q = entry xs q := by
  have hmoved : ∃ ys, shiftUp xs i (j - i) = .ok ys ∧ ys.length = xs.length ∧
      ∀ q, q ≠ i → entry ys q = if i < q ∧ q ≤ j then entry xs (q - 1) else entry xs q := by
    rw [shiftUp]
    by_cases hnone : j - i = 0
    · rw [if_pos hnone]
      refine ⟨xs, rfl, rfl, fun q hq => ?_⟩
      rw [if_neg (by omega)]
    · have hslice : (xs.slice i (j - i)).length = j - i := by
        rw [List.length_slice]
        omega
      have hsplice : xs.take (i + 1) ++ xs.slice i (j - i) ++ xs.drop (i + 1 + (j - i)) =
          xs.splice (i + 1) (xs.slice i (j - i)) := by
        rw [List.splice, hslice]
      rw [if_neg hnone, if_pos (by omega), hsplice]
      refine ⟨_, rfl, List.length_splice (by omega), fun q hq => ?_⟩
      rw [entry, List.getD_eq_getElem?_getD, List.getElem?_splice (by omega), hslice]
      by_cases hin : i < q ∧ q ≤ j
      · rw [if_pos (by omega), if_pos hin, List.getElem?_slice, if_pos (by omega), entry,
          List.getD_eq_getElem?_getD, show i + (q - (i + 1)) = q - 1 by omega]
      · rw [if_neg (by omega), if_neg hin, entry, List.getD_eq_getElem?_getD]
  obtain ⟨ys, hshift, hlength, hentry⟩ := hmoved
  have hi : i < ys.length := by omega
  refine ⟨ys, hshift, hlength, fun q hq => ?_, fun q hq => ?_⟩
  · rw [entry_set _ hi, Function.update_apply, insertAt]
    by_cases hqi : q = i
    · rw [if_pos hqi, if_neg (by omega), if_pos hqi]
    · rw [if_neg hqi, hentry q hqi, if_neg hqi]
      by_cases hlt : q < i
      · rw [if_neg (by omega), if_pos hlt]
      · rw [if_pos (by omega), if_neg hlt]
  · rw [entry_set _ hi, Function.update_of_ne (by omega), hentry q (by omega), if_neg (by omega)]

/-- **A turn** of the second loop of `deep_reconst`. -/
theorem reconstInner_returns {before : List Nat} {k total : Nat} (hk : k < N_CHAR - 1)
    (htotal : total < 0x8000) (h : tabs.Building before k total) :
    ∃ tabs', reconstInner tabs k = .ok tabs' ∧ tabs'.Building before (k + 1) total := by
  have hchars := N_CHAR_val
  have hnodes := T_val
  have hlast : k + 1 < N_CHAR := by omega
  have hpair := h.whole.pair_le (by omega)
  obtain ⟨f, hf⟩ : ∃ f, f = entry tabs.freq (2 * k) + entry tabs.freq (2 * k + 1) := ⟨_, rfl⟩
  have hjf : N_CHAR + k < tabs.freq.length := by rw [h.freq]; omega
  -- the search does not see the new node
  have hlength : (tabs.freq.set (N_CHAR + k) f).length = T + 1 := by rw [List.length_set, h.freq]
  have hold : ∀ q < N_CHAR + k, entry (tabs.freq.set (N_CHAR + k) f) q = entry tabs.freq q := by
    intro q hq
    rw [entry_set _ hjf, Function.update_of_ne (Nat.ne_of_lt hq)]
  obtain ⟨i, hsearch, hlow, hhigh, hbelow, habove⟩ := @insertionPoint_returns
    (tabs.freq.set (N_CHAR + k) f) f (2 * k + 1) (by rw [hold _ (by omega)]; omega)
    (N_CHAR + k - 1) (by omega) (by omega)
  rw [hold _ (by omega)] at hbelow
  obtain ⟨freq', hfreq, hlengthf, hinf, houtf⟩ :=
    @shiftUp_eq (tabs.freq.set (N_CHAR + k) f) (i + 1) (N_CHAR + k) f (by omega) (by omega)
  obtain ⟨son', hson, hlengths, hins, houts⟩ :=
    @shiftUp_eq tabs.son (i + 1) (N_CHAR + k) (2 * k) (by omega) (by rw [h.son]; omega)
  have hweight : ∀ q < N_CHAR + (k + 1),
      entry (freq'.set (i + 1) f) q = insertAt (entry tabs.freq) (i + 1) f q := by
    intro q hq
    rw [hinf q (by omega), insertAt, insertAt]
    split_ifs
    · exact hold q (by omega)
    · rfl
    · exact hold (q - 1) (by omega)
  have hsons : ∀ q < N_CHAR + (k + 1),
      entry (son'.set (i + 1) (2 * k)) q = insertAt (entry tabs.son) (i + 1) (2 * k) q :=
    fun q hq => hins q (by omega)
  have hgrown := h.forest.grow hlast hf (by omega) (by omega : i + 1 ≤ N_CHAR + k)
    (by rwa [Nat.add_sub_cancel]) (fun hlt => by
      have hmore := habove (by omega)
      rw [hold _ hlt] at hmore
      exact Nat.le_of_lt hmore)
  have hwhole := h.whole.grow (by omega : 2 * k + 2 ≤ i + 1) (by omega)
  rw [← hf] at hwhole
  refine ⟨⟨freq'.set (i + 1) f, tabs.prnt, son'.set (i + 1) (2 * k)⟩, ?_, ⟨?_, h.prnt, ?_⟩, h.same, ?_,
    hgrown.congr hweight hsons, hwhole.congr (by omega) hweight⟩
  · rw [reconstInner, index_eq (by omega), Except.ok_bind, index_eq (by omega), Except.ok_bind, add16,
      ← hf, if_pos (by omega), Except.ok_bind]
    dsimp only
    rw [store_eq _ hjf, Except.ok_bind, hsearch, Except.ok_bind, hfreq, Except.ok_bind, hson,
      Except.ok_bind, store_eq _ (by omega), Except.ok_bind, store_eq _ (by rw [hlengths, h.son]; omega),
      Except.ok_bind]
    rfl
  · rw [List.length_set, hlengthf, hlength]
  · rw [List.length_set, hlengths, h.son]
  · rw [houtf T (by omega), entry_set _ hjf, Function.update_of_ne (by omega), h.sentinel]

/-- What the third loop of `deep_reconst` has done after `i` turns. -/
structure DeepTabs.Connected (tabs : DeepTabs) (i : Nat) (tabs' : DeepTabs) : Prop
    extends tabs'.Sized where
  same_freq : tabs'.freq = tabs.freq
  same_son : tabs'.son = tabs.son
  below : ParentsBelow N_CHAR i (entry tabs.son) (entry tabs'.prnt)
  root : entry tabs'.prnt R = entry tabs.prnt R

theorem reconnect_returns {tabs' : DeepTabs}
    (hforest : Forest N_CHAR (N_CHAR - 1) none (entry tabs.freq) (entry tabs.son)) {i : Nat}
    (hi : i < T) (h : tabs.Connected i tabs') :
    ∃ tabs'', reconnect tabs' i = .ok tabs'' ∧ tabs.Connected (i + 1) tabs'' := by
  obtain ⟨prnt', hset, hlength, hentry⟩ := setParent_eq h.prnt i
    (hforest.son_lt (by decide) hi)
  refine ⟨{ tabs' with prnt := prnt' }, ?_, ⟨h.freq, hlength, h.son⟩, h.same_freq, h.same_son, ?_, ?_⟩
  · rw [reconnect, index_eq (by rw [h.son]; exact hi), Except.ok_bind, h.same_son, hset, Except.ok_bind]
    rfl
  · dsimp only
    rw [hentry]
    exact h.below.link hforest (by decide) hi
  · dsimp only
    rw [hentry, ← h.root]
    exact hforest.link_root (by decide) _ i hi

/-- **Halving the counts** keeps the tree. -/
theorem deepReconst_returns (h : tabs.Holds none) (hmax : entry tabs.freq R ≤ MAX_FREQ) :
    ∃ tabs', deepReconst tabs = .ok tabs' ∧ tabs'.Holds none ∧ entry tabs'.freq R < MAX_FREQ := by
  obtain ⟨state, total, hcollect, htotal, hleaves⟩ := collect_returns h hmax
  obtain ⟨tabs₁, hbuild, hbuilt⟩ := List.foldlM_range_returns
    (P := fun k s => DeepTabs.Building s tabs.prnt k total)
    (fun k hk _ hstate => reconstInner_returns hk htotal hstate) hleaves
  have hstart : tabs₁.Connected 0 tabs₁ :=
    ⟨⟨hbuilt.freq, hbuilt.prnt, hbuilt.son⟩, rfl, rfl, fun q hq => absurd hq (Nat.not_lt_zero q), rfl⟩
  obtain ⟨tabs₂, hconnect, hdone⟩ := List.foldlM_range_returns
    (fun i hi _ hstate => reconnect_returns hbuilt.forest hi hstate) hstart
  obtain ⟨s, j⟩ := state
  refine ⟨tabs₂, ?_, ⟨⟨hdone.freq, hdone.prnt, hdone.son⟩, ?_, ?_, ?_, ?_⟩, ?_⟩
  · rw [deepReconst, hcollect, Except.ok_bind]
    dsimp only
    rw [hbuild, Except.ok_bind, hconnect]
  · rw [hdone.same_freq, hdone.same_son]
    exact hbuilt.forest
  · rw [hdone.same_son]
    exact hdone.below.parents
  · rw [hdone.root, hbuilt.same, h.root]
  · rw [hdone.same_freq, hbuilt.sentinel]
  · have hroot : entry tabs₁.freq R = total := hbuilt.whole.root (by decide)
    rw [hdone.same_freq, hroot]
    exact htotal

/-! ## The first tree -/

/-- What the first loop of `init_deep_tabs` has done after `i` turns. -/
structure DeepTabs.Leaves (tabs : DeepTabs) (i : Nat) : Prop extends tabs.Sized where
  one : ∀ q < i, entry tabs.freq q = 1
  leaf : ∀ q < i, entry tabs.son q = q + T
  parent : ∀ q < i, entry tabs.prnt (q + T) = q

/-- A turn that writes an entry of its own. -/
theorem update_below {f g place : Nat → Nat} {i : Nat} (hbelow : ∀ q < i, f (place q) = g q)
    (hplace : ∀ q < i, place q ≠ place i) :
    ∀ q < i + 1, Function.update f (place i) (g i) (place q) = g q := by
  intro q hq
  rcases Nat.lt_succ_iff_lt_or_eq.mp hq with hlt | rfl
  · rw [Function.update_of_ne (hplace q hlt), hbelow q hlt]
  · rw [Function.update_self]

theorem initLeaf_returns {i : Nat} (hi : i < N_CHAR) (h : tabs.Leaves i) :
    ∃ tabs', initLeaf tabs i = .ok tabs' ∧ tabs'.Leaves (i + 1) := by
  have hchars := N_CHAR_val
  have hnodes := T_val
  have hif : i < tabs.freq.length := by rw [h.freq]; omega
  have his : i < tabs.son.length := by rw [h.son]; omega
  have hip : i + T < tabs.prnt.length := by rw [h.prnt]; omega
  refine ⟨⟨tabs.freq.set i 1, tabs.prnt.set (i + T) i, tabs.son.set i (i + T)⟩, ?_, ⟨?_, ?_, ?_⟩,
    ?_, ?_, ?_⟩
  · rw [initLeaf, store_eq _ hif, Except.ok_bind, store_eq _ his, Except.ok_bind, store_eq _ hip,
      Except.ok_bind]
    rfl
  · rw [List.length_set, h.freq]
  · rw [List.length_set, h.prnt]
  · rw [List.length_set, h.son]
  · dsimp only
    rw [entry_set _ hif]
    exact @update_below _ (fun _ => 1) id i h.one fun q hq => Nat.ne_of_lt hq
  · dsimp only
    rw [entry_set _ his]
    exact @update_below _ (· + T) id i h.leaf fun q hq => Nat.ne_of_lt hq
  · dsimp only
    rw [entry_set _ hip]
    exact @update_below _ id (· + T) i h.parent fun q hq => by omega

/-- What the second loop of `init_deep_tabs` has done after `k` turns. -/
structure DeepTabs.Inner (tabs : DeepTabs) (k : Nat) : Prop extends tabs.Leaves N_CHAR where
  inner : ∀ r < k, entry tabs.son (N_CHAR + r) = 2 * r
  parents : ∀ r < k,
    entry tabs.prnt (2 * r) = N_CHAR + r ∧ entry tabs.prnt (2 * r + 1) = N_CHAR + r
  forest : Forest N_CHAR k none (entry tabs.freq) (entry tabs.son)
  whole : Whole N_CHAR k N_CHAR (entry tabs.freq)

theorem inner_zero (h : tabs.Leaves N_CHAR) : tabs.Inner 0 where
  toLeaves := h
  inner r hr := absurd hr (Nat.not_lt_zero r)
  parents r hr := absurd hr (Nat.not_lt_zero r)
  forest := by
    have hleaf : ∀ q < N_CHAR, ¬entry tabs.son q < 2 * N_CHAR - 1 := by
      intro q hq
      rw [h.leaf q hq]
      exact Nat.not_lt.mpr (Nat.le_add_left T q)
    constructor
    · refine List.Perm.of_eq (List.map_congr_left fun q hq => ?_)
      rw [h.leaf q (List.mem_range.mp hq), Nat.add_comm]
      rfl
    · exact fun q hq hinner => absurd hinner (hleaf q hq)
    · intro q hq
      rw [h.one q (Nat.lt_of_succ_lt hq), h.one (q + 1) hq]
    · intro q hq
      rw [h.one q hq]
      exact Nat.one_pos
    · exact fun q hq hinner => absurd hinner (hleaf q hq)
  whole := by
    rw [Whole, Nat.add_zero, Finset.sum_congr rfl fun q hq => h.one q (Finset.mem_range.mp hq),
      Finset.sum_const, Finset.card_range, Nat.mul_zero, Finset.sum_range_zero, Nat.zero_add,
      smul_eq_mul, Nat.mul_one]

/-- **A turn** of the second loop of `init_deep_tabs`: the new node counts no less than the one
before it. -/
theorem initInner_returns {k : Nat} (hk : k < N_CHAR - 1) (h : tabs.Inner k) :
    ∃ tabs', initInner tabs k = .ok tabs' ∧ tabs'.Inner (k + 1) := by
  have hchars := N_CHAR_val
  have hnodes := T_val
  obtain ⟨f, hf⟩ : ∃ f, f = entry tabs.freq (2 * k) + entry tabs.freq (2 * k + 1) := ⟨_, rfl⟩
  have hpair := h.whole.pair_le (by omega)
  have hjf : N_CHAR + k < tabs.freq.length := by rw [h.freq]; omega
  have hjs : N_CHAR + k < tabs.son.length := by rw [h.son]; omega
  obtain ⟨prnt', hset, hlength, hentry⟩ :=
    @setParent_eq tabs.prnt h.prnt (2 * k) (N_CHAR + k) (by omega)
  have hlast : entry tabs.freq (N_CHAR + k - 1) ≤ f := by
    rcases Nat.eq_zero_or_pos k with rfl | hpos
    · rw [h.one (N_CHAR + 0 - 1) (by omega), hf, h.one (2 * 0) (by omega)]
      exact Nat.le_add_right 1 _
    · -- its sons are lighter than those of the new node
      have hson : entry tabs.son (N_CHAR + k - 1) = 2 * (k - 1) := by
        rw [show N_CHAR + k - 1 = N_CHAR + (k - 1) by omega]
        exact h.inner (k - 1) (by omega)
      have hsum := h.forest.sum_eq (q := N_CHAR + k - 1) (by omega) (by omega)
      rw [hson] at hsum
      rw [← hsum, hf]
      exact Nat.add_le_add (h.forest.weight_mono (by omega) (by omega))
        (h.forest.weight_mono (by omega) (by omega))
  have hgrown := h.forest.grow (by omega) hf (by omega) (Nat.le_refl _) hlast
    fun hlt => absurd hlt (Nat.lt_irrefl _)
  have hwhole := h.whole.grow (by omega : 2 * k + 2 ≤ N_CHAR + k) (Nat.le_refl _)
  rw [← hf] at hwhole
  refine ⟨⟨tabs.freq.set (N_CHAR + k) f, prnt', tabs.son.set (N_CHAR + k) (2 * k)⟩, ?_,
    ⟨⟨⟨?_, hlength, ?_⟩, ?_, ?_, ?_⟩, ?_, ?_, ?_, ?_⟩⟩
  · rw [initInner, index_eq (by omega), Except.ok_bind, index_eq (by omega), Except.ok_bind, add16,
      ← hf, if_pos (by omega), Except.ok_bind, store_eq _ hjf, Except.ok_bind, store_eq _ hjs,
      Except.ok_bind, hset, Except.ok_bind]
    rfl
  · rw [List.length_set, h.freq]
  · rw [List.length_set, h.son]
  · intro q hq
    rw [entry_set _ hjf, Function.update_of_ne (by omega), h.one q hq]
  · intro q hq
    rw [entry_set _ hjs, Function.update_of_ne (by omega), h.leaf q hq]
  · intro q hq
    dsimp only
    rw [hentry, link, if_neg (by omega), h.parent q hq]
  · dsimp only
    rw [entry_set _ hjs]
    exact @update_below _ (2 * ·) (N_CHAR + ·) k h.inner fun q hq => by omega
  · intro r hr
    dsimp only
    rw [hentry, link, link]
    rcases Nat.lt_succ_iff_lt_or_eq.mp hr with hlt | rfl
    · rw [if_neg (by omega), if_neg (by omega)]
      exact h.parents r hlt
    · rw [if_pos (.inl rfl), if_pos (.inr ⟨by omega, rfl⟩)]
      exact ⟨rfl, rfl⟩
  · refine hgrown.congr (fun q hq => ?_) fun q hq => ?_
    · rw [entry_set _ hjf, insertAt_of_le _ _ (by omega)]
    · rw [entry_set _ hjs, insertAt_of_le _ _ (by omega)]
  · refine hwhole.congr (by omega) fun q hq => ?_
    rw [entry_set _ hjf, insertAt_of_le _ _ (by omega)]

/-- **The first tree**. -/
theorem initDeepTabs_returns (hsized : tabs.Sized) :
    ∃ tabs', initDeepTabs tabs = .ok tabs' ∧ tabs'.Holds none ∧ entry tabs'.freq R ≤ MAX_FREQ := by
  have hstart : tabs.Leaves 0 := ⟨hsized, fun q hq => absurd hq (Nat.not_lt_zero q),
    fun q hq => absurd hq (Nat.not_lt_zero q), fun q hq => absurd hq (Nat.not_lt_zero q)⟩
  obtain ⟨tabs₁, hleaves, hone⟩ := List.foldlM_range_returns
    (P := fun i s => DeepTabs.Leaves s i) (fun i hi _ hstate => initLeaf_returns hi hstate) hstart
  obtain ⟨tabs₂, hinner, h⟩ := List.foldlM_range_returns
    (P := fun k s => DeepTabs.Inner s k) (fun k hk _ hstate => initInner_returns hk hstate)
    (inner_zero hone)
  have hchars := N_CHAR_val
  have hnodes := T_val
  have htf : T < tabs₂.freq.length := by rw [h.freq]; exact Nat.lt_succ_self T
  have hrp : R < tabs₂.prnt.length := by rw [h.prnt]; decide
  have hparents : Parents N_CHAR (N_CHAR - 1) (entry tabs₂.son) (entry tabs₂.prnt) := by
    constructor
    · intro q hq
      by_cases hleaf : q < N_CHAR
      · rw [h.leaf q hleaf, h.parent q hleaf]
      · have hson := h.inner (q - N_CHAR) (by omega)
        have hparent := h.parents (q - N_CHAR) (by omega)
        rw [show N_CHAR + (q - N_CHAR) = q by omega] at hson hparent
        rw [hson, hparent.1]
    · intro q hq hinner
      by_cases hleaf : q < N_CHAR
      · rw [h.leaf q hleaf] at hinner
        omega
      · have hson := h.inner (q - N_CHAR) (by omega)
        have hparent := h.parents (q - N_CHAR) (by omega)
        rw [show N_CHAR + (q - N_CHAR) = q by omega] at hson hparent
        rw [hson, hparent.2]
  -- the sentinel is no node
  have hfreq : ∀ q < T, entry (tabs₂.freq.set T 0xffff) q = entry tabs₂.freq q := by
    intro q hq
    rw [entry_set _ htf, Function.update_of_ne (Nat.ne_of_lt hq)]
  refine ⟨⟨tabs₂.freq.set T 0xffff, tabs₂.prnt.set R 0, tabs₂.son⟩, ?_,
    ⟨⟨?_, ?_, h.son⟩, ?_, ?_, ?_, ?_⟩, ?_⟩
  · rw [initDeepTabs, hleaves, Except.ok_bind, hinner, Except.ok_bind, store_eq _ htf, Except.ok_bind,
      store_eq _ hrp, Except.ok_bind]
    rfl
  · rw [List.length_set, h.freq]
  · rw [List.length_set, h.prnt]
  · exact h.forest.congr hfreq fun _ _ => rfl
  · dsimp only
    rw [entry_set _ hrp]
    exact hparents.set_root h.forest (by decide) 0
  · rw [entry_set _ hrp, Function.update_self]
  · rw [entry_set _ htf, Function.update_self]
  · have hroot : entry tabs₂.freq R = N_CHAR := h.whole.root (by decide)
    rw [hfreq R (by decide), hroot]
    decide

/-! ## Counting a character -/

/-- A leaf is never short. -/
theorem DeepTabs.Holds.start (h : tabs.Holds none) {c : Nat} (hleaf : T ≤ entry tabs.son c) :
    tabs.Holds (some c) where
  toSized := h.toSized
  forest := by
    refine ⟨h.forest.sons, h.forest.before, h.forest.order, h.forest.positive, fun q hq hinner => ?_⟩
    rw [if_neg (fun heq => ?_)]
    · exact h.forest.sum_eq hq hinner
    · rw [Option.some.inj heq] at hleaf
      exact absurd hinner (Nat.not_lt.mpr hleaf)
  parents := h.parents
  root := h.root
  sentinel := h.sentinel

/-- **A count of a character** keeps the tree. -/
theorem deepUpdate_returns (h : tabs.Holds none) (hmax : entry tabs.freq R ≤ MAX_FREQ) {c : Nat}
    (hc : c < N_CHAR) :
    ∃ tabs', deepUpdate tabs c = .ok tabs' ∧ tabs'.Holds none ∧ entry tabs'.freq R ≤ MAX_FREQ := by
  have hfull : ∃ tabs₁, reconstIfFull tabs = .ok tabs₁ ∧ tabs₁.Holds none ∧
      entry tabs₁.freq R < MAX_FREQ := by
    rw [reconstIfFull, index_eq (by rw [h.freq]; decide), Except.ok_bind]
    by_cases hfreq : entry tabs.freq R = MAX_FREQ
    · rw [if_pos hfreq]
      exact deepReconst_returns h hmax
    · rw [if_neg hfreq]
      exact ⟨tabs, rfl, h, Nat.lt_of_le_of_ne hmax hfreq⟩
  obtain ⟨tabs₁, hreconst, h₁, hmax₁⟩ := hfull
  obtain ⟨q, hq, hson⟩ := h₁.forest.exists_leaf hc
  have hprnt : entry tabs₁.prnt (c + T) = q := by
    rw [Nat.add_comm]
    exact (congrArg _ hson).symm.trans (h₁.parents.first q hq)
  have hleaf : T ≤ entry tabs₁.son q := hson.symm ▸ Nat.le_add_right T c
  rw [deepUpdate, hreconst, Except.ok_bind, index_eq (by rw [h₁.prnt]; omega), Except.ok_bind, hprnt]
  exact raiseLoop_returns (h₁.start hleaf) hq (Nat.le_add_right T q) hmax₁

/-! ## Reading a character -/

/-- A bit reader after `fill`. -/
structure BitReader.Filled (br : BitReader) : Prop where
  low : 16 ≤ br.bitcount
  high : br.bitcount < 24
  buf : br.bitbuf < 2 ^ br.bitcount

theorem fillByte_buf {br : BitReader} (hbuf : br.bitbuf < 2 ^ br.bitcount) :
    br.fillByte.bitbuf < 2 ^ (br.bitcount + 8) ∧ br.fillByte.bitcount = br.bitcount + 8 := by
  rw [BitReader.fillByte, pow_add]
  cases br.rest with
  | nil =>
      refine ⟨(Nat.mod_le _ _).trans_lt ?_, rfl⟩
      omega
  | cons b rest =>
      have hb := b.toNat_lt
      refine ⟨(Nat.mod_le _ _).trans_lt ?_, rfl⟩
      omega

theorem fill_filled {br : BitReader} (hbuf : br.bitbuf < 2 ^ br.bitcount) (hhigh : br.bitcount < 24) :
    br.fill.Filled := by
  obtain ⟨hbuf₁, hcount₁⟩ := fillByte_buf hbuf
  rw [BitReader.fill]
  dsimp only
  by_cases hlow : br.bitcount < 16
  · rw [if_pos hlow]
    rw [← hcount₁] at hbuf₁
    by_cases hlow₁ : br.fillByte.bitcount < 16
    · obtain ⟨hbuf₂, hcount₂⟩ := fillByte_buf hbuf₁
      rw [if_pos hlow₁]
      exact ⟨by omega, by omega, by rwa [← hcount₂] at hbuf₂⟩
    · rw [if_neg hlow₁]
      exact ⟨by omega, by omega, hbuf₁⟩
  · rw [if_neg hlow]
    exact ⟨by omega, hhigh, hbuf⟩

theorem new_filled (data : Bytes) : (BitReader.new data).Filled :=
  fill_filled (by decide : 0 < 2 ^ 0) (by decide : 0 < 24)

/-- Up to 16 bits are there to be read. -/
theorem get_returns {br : BitReader} (h : br.Filled) {n : Nat} (hn : n ≤ 16) :
    ∃ bits br', br.get n = .ok (bits, br') ∧ bits < 2 ^ n ∧ br'.Filled := by
  obtain ⟨hlow, hhigh, hbuf⟩ := h
  have hthere : n ≤ br.bitcount ∧ br.bitcount - n < 32 := by omega
  have hsplit : 2 ^ br.bitcount = 2 ^ n * 2 ^ (br.bitcount - n) := by
    rw [← pow_add, Nat.add_sub_cancel' hthere.1]
  refine ⟨br.bitbuf / 2 ^ (br.bitcount - n) % 2 ^ 16, BitReader.fill {
    br with bitcount := br.bitcount - n, bitbuf := br.bitbuf % 2 ^ (br.bitcount - n) }, ?_, ?_, ?_⟩
  · rw [BitReader.get, BitReader.peek, if_pos hthere, Except.ok_bind, BitReader.drop, if_pos hthere,
      Except.ok_bind]
    rfl
  · refine (Nat.mod_le _ _).trans_lt (Nat.div_lt_of_lt_mul ?_)
    rw [Nat.mul_comm, ← hsplit]
    exact hbuf
  · exact fill_filled (Nat.mod_lt _ (Nat.two_pow_pos _)) (by dsimp only; omega)

/-- **The walk** of `deep_decode_char` ends at a leaf: the sons of a node are before it. -/
theorem deepWalk_returns (h : tabs.Holds none) : ∀ {fuel c : Nat} {br : BitReader}, br.Filled →
    0 < fuel → fuel ≤ T → c < T + N_CHAR → (c < T → c + 1 < fuel) →
    ∃ c' br', deepWalk tabs.son fuel c br = .ok (c', br') ∧ T ≤ c' ∧ c' < T + N_CHAR ∧ br'.Filled
  | 0, _, _, _, hpos, _, _, _ => absurd hpos (Nat.lt_irrefl 0)
  | fuel + 1, c, br, hbr, _, hfuel, hc, hroom => by
      rw [deepWalk]
      by_cases hinner : c < T
      · obtain ⟨bit, br', hget, hbit, hbr'⟩ := get_returns hbr (by decide : 1 ≤ 16)
        have hnode : c + bit < T := by
          have hroom' := hroom hinner
          omega
        have hbefore := h.forest.before (c + bit) hnode
        rw [if_pos hinner, hget, Except.ok_bind]
        dsimp only
        rw [index_eq (by rw [h.son]; exact hnode), Except.ok_bind]
        refine deepWalk_returns h hbr' ?_ (by omega) (h.forest.son_lt (by decide) hnode) fun hson => ?_
        · have hroom' := hroom hinner
          omega
        · have hbefore' := hbefore hson
          have hroom' := hroom hinner
          omega
      · rw [if_neg hinner]
        exact ⟨c, br, rfl, Nat.not_lt.mp hinner, hc, hbr⟩

/-- **A character** is read, and counted. -/
theorem deepDecodeChar_returns (h : tabs.Holds none) (hmax : entry tabs.freq R ≤ MAX_FREQ)
    {br : BitReader} (hbr : br.Filled) :
    ∃ c tabs' br', deepDecodeChar tabs br = .ok (c, tabs', br') ∧ c < N_CHAR ∧ tabs'.Holds none ∧
      entry tabs'.freq R ≤ MAX_FREQ ∧ br'.Filled := by
  have hroot : R < N_CHAR + (N_CHAR - 1) := by decide
  have hnodes : T = R + 1 := rfl
  obtain ⟨c, br', hwalk, hlow, hhigh, hbr'⟩ := deepWalk_returns h hbr (by decide : 0 < T) (Nat.le_refl T)
    (h.forest.son_lt (by decide) hroot) fun hinner => by
      have hbefore := h.forest.before R hroot hinner
      omega
  obtain ⟨tabs', hupdate, h', hmax'⟩ := @deepUpdate_returns tabs h hmax (c - T) (by omega)
  refine ⟨c - T, tabs', br', ?_, by omega, h', hmax', hbr'⟩
  rw [deepDecodeChar, index_eq (by rw [h.son]; decide), Except.ok_bind, hwalk, Except.ok_bind]
  dsimp only
  rw [hupdate, Except.ok_bind]
  rfl

/-! ## Every run -/

/-- `x` is a son of the node `q`. -/
def DeepTabs.Son (tabs : DeepTabs) (q x : Nat) : Prop :=
  entry tabs.son q < T ∧ (x = entry tabs.son q ∨ x = entry tabs.son q + 1)

/-- A tree of the characters, by frequency. A node stores its first son, below `T`, or a character,
from `T` on; `prnt` has the parent of each node, and of each character the leaf. -/
structure DeepTabs.Valid (tabs : DeepTabs) : Prop extends tabs.Sized where
  in_range : ∀ q < T, entry tabs.son q + 1 < T ∨ T ≤ entry tabs.son q ∧ entry tabs.son q < T + N_CHAR
  prnt_son : ∀ q < T, entry tabs.prnt (entry tabs.son q) = q ∧
    (entry tabs.son q < T → entry tabs.prnt (entry tabs.son q + 1) = q)
  son_prnt : ∀ x < T + N_CHAR, x ≠ R → entry tabs.prnt x < T ∧
    (entry tabs.son (entry tabs.prnt x) = x ∨
      entry tabs.son (entry tabs.prnt x) < T ∧ entry tabs.son (entry tabs.prnt x) + 1 = x)
  order : ∀ q < R, entry tabs.freq q ≤ entry tabs.freq (q + 1)
  sums : ∀ q < T, entry tabs.son q < T →
    entry tabs.freq q = entry tabs.freq (entry tabs.son q) + entry tabs.freq (entry tabs.son q + 1)
  precede : ∀ q < T, ∀ x, tabs.Son q x → x < q
  reach : ∀ c < N_CHAR, ∃ q < T, Relation.ReflTransGen tabs.Son R q ∧ entry tabs.son q = T + c

theorem DeepTabs.Holds.valid (h : tabs.Holds none) : tabs.Valid where
  toSized := h.toSized
  in_range q hq := by
    by_cases hinner : entry tabs.son q < T
    · have hbefore := h.forest.before q hq hinner
      omega
    · exact .inr ⟨Nat.not_lt.mp hinner, h.forest.son_lt (by decide) hq⟩
  prnt_son q hq := ⟨h.parents.first q hq, h.parents.second q hq⟩
  son_prnt x hx hroot := by
    have hchars := N_CHAR_val
    have hnodes := T_val
    have htop := R_val
    by_cases hnode : x < T
    · obtain ⟨q, hq, hchild⟩ := h.forest.exists_parent (by decide) (x := x) (by omega)
      rw [h.parents.parent_eq hq hchild]
      exact ⟨hq, hchild.2.imp Eq.symm fun hx => ⟨hchild.1, hx.symm⟩⟩
    · obtain ⟨q, hq, hson⟩ := h.forest.exists_leaf (c := x - T) (by omega)
      have hx' : entry tabs.son q = x := hson.trans (Nat.add_sub_cancel' (Nat.not_lt.mp hnode))
      have hparent := h.parents.first q hq
      rw [hx'] at hparent
      rw [hparent]
      exact ⟨hq, .inl hx'⟩
  order q hq := h.forest.order q (Nat.succ_lt_succ hq)
  sums q hq hinner := (h.forest.sum_eq hq hinner).symm
  precede q hq x hx := by
    have hbefore := h.forest.before q hq hx.1
    have hson := hx.2
    omega
  reach c hc := by
    obtain ⟨q, hq, hson⟩ := h.forest.exists_leaf hc
    exact ⟨q, hq, h.forest.reach (by decide) hq, hson⟩

/-- **The dynamic Huffman tree** is a tree by frequency after every run of counts from the first tree;
no loop runs on and no index leaves its array, in a count or in reading a character. -/
theorem deep_tree (tabs : DeepTabs) (hsized : tabs.Sized) (cs : List Nat) (hcs : ∀ c ∈ cs, c < N_CHAR) :
    ∃ first tabs', initDeepTabs tabs = .ok first ∧ cs.foldlM deepUpdate first = .ok tabs' ∧
      tabs'.Valid ∧ (∀ c < N_CHAR, ∃ tabs'', deepUpdate tabs' c = .ok tabs'') ∧
      ∀ br : BitReader, br.Filled → ∃ c tabs'' br', deepDecodeChar tabs' br = .ok (c, tabs'', br') ∧
        c < N_CHAR ∧ tabs''.Valid ∧ br'.Filled := by
  obtain ⟨first, hinit, hfirst⟩ := initDeepTabs_returns hsized
  obtain ⟨tabs', hrun, h, hmax⟩ := List.foldlM_returns
    (P := fun s => DeepTabs.Holds s none ∧ entry s.freq R ≤ MAX_FREQ)
    (fun _ c hc hs => deepUpdate_returns hs.1 hs.2 (hcs c hc)) hfirst
  refine ⟨first, tabs', hinit, hrun, h.valid, fun c hc => ?_, fun br hbr => ?_⟩
  · obtain ⟨tabs'', hupdate, -⟩ := deepUpdate_returns h hmax hc
    exact ⟨tabs'', hupdate⟩
  · obtain ⟨c, tabs'', br', hdecode, hc, h', -, hbr'⟩ := deepDecodeChar_returns h hmax hbr
    exact ⟨c, tabs'', br', hdecode, hc, h'.valid, hbr'⟩

theorem deep_tree_two :
    ∃ first tabs', initDeepTabs DmsState.new.deep = .ok first ∧
      [65, 313].foldlM deepUpdate first = .ok tabs' ∧ tabs'.Valid := by
  have hsized : DmsState.new.deep.Sized :=
    ⟨List.length_replicate, List.length_replicate, List.length_replicate⟩
  obtain ⟨first, tabs', hinit, hrun, hvalid, -⟩ := deep_tree DmsState.new.deep hsized [65, 313] (by decide)
  exact ⟨first, tabs', hinit, hrun, hvalid⟩

end

end Mountin.Dms
