import Mathlib.Data.Finset.Card
import Mathlib.Data.List.Nodup
import Mathlib.Logic.Relation

set_option autoImplicit false

/-! # Walks with a worklist

A walk over a graph that keeps a stack of vertices still to visit and a list of those it has found.
The successors of a vertex can be refused, which ends the walk.

* `exists_run` : the walk ends when the vertices with successors lie in a finite set.
* `run_reaches` : what a walk finds is what can be reached.
* `run_congr` : the walk reads the successors of what it finds only.
-/

namespace Worklist

variable {α ε : Type} [DecidableEq α]

/-- The loop, with a bound on its turns: `none` when they do not suffice. The vertex that is visited
next is the first of `pending`. -/
def run (succ : α → Except ε (List α)) : Nat → List α → List α → Option (Except ε (List α))
  | _, [], found => some (.ok found)
  | 0, _ :: _, _ => none
  | turns + 1, a :: pending, found =>
      if a ∈ found then run succ turns pending found
      else
        match succ a with
        | .error e => some (.error e)
        | .ok next => run succ turns (next.reverse ++ pending) (found ++ [a])

/-- A step to a successor. -/
def Leads (succ : α → Except ε (List α)) (a b : α) : Prop := ∃ next, succ a = .ok next ∧ b ∈ next

variable {succ succ' : α → Except ε (List α)} {pending found result : List α} {turns : Nat}

theorem run_nil : run succ turns [] found = some (.ok found) := by
  cases turns <;> rfl

theorem run_of_mem {a : α} (h : a ∈ found) :
    run succ (turns + 1) (a :: pending) found = run succ turns pending found := by
  rw [run, if_pos h]

theorem run_of_new {a : α} {next : List α} (h : a ∉ found) (hnext : succ a = .ok next) :
    run succ (turns + 1) (a :: pending) found =
      run succ turns (next.reverse ++ pending) (found ++ [a]) := by
  rw [run, if_neg h, hnext]

theorem run_of_refused {a : α} {e : ε} (h : a ∉ found) (he : succ a = .error e) :
    run succ (turns + 1) (a :: pending) found = some (.error e) := by
  rw [run, if_neg h, he]

omit [DecidableEq α] in
theorem nodup_found {a : α} (h : found.Nodup) (ha : a ∉ found) : (found ++ [a]).Nodup := by
  rw [List.nodup_append]
  refine ⟨h, List.nodup_singleton a, fun x hx y hy => ?_⟩
  rw [List.mem_singleton.mp hy]
  exact fun heq => ha (heq ▸ hx)

/-- More turns change nothing. -/
theorem run_mono {r : Except ε (List α)} (h : run succ turns pending found = some r) {more : Nat}
    (hmore : turns ≤ more) : run succ more pending found = some r := by
  induction turns generalizing pending found more with
  | zero =>
      cases pending with
      | nil => rwa [run_nil] at h ⊢
      | cons a pending => cases h
  | succ turns ih =>
      cases pending with
      | nil => rwa [run_nil] at h ⊢
      | cons a pending =>
          obtain ⟨more, rfl⟩ : ∃ m, more = m + 1 := ⟨more - 1, by omega⟩
          by_cases ha : a ∈ found
          · rw [run_of_mem ha] at h ⊢
            exact ih h (by omega)
          · cases hnext : succ a with
            | error e => rwa [run_of_refused ha hnext] at h ⊢
            | ok next =>
                rw [run_of_new ha hnext] at h ⊢
                exact ih h (by omega)

/-- **A walk ends** when the vertices with successors lie in a finite set: each of them is visited
once, and the stack gets shorter at those seen before. -/
theorem exists_run {S : Finset α} (hS : ∀ a next, succ a = .ok next → a ∈ S)
    (pending found : List α) : ∃ turns r, run succ turns pending found = some r := by
  generalize hn : (S \ found.toFinset).card = n
  induction n using Nat.strong_induction_on generalizing pending found with
  | _ n ih =>
      induction pending with
      | nil => exact ⟨0, _, run_nil⟩
      | cons a pending ihp =>
          by_cases ha : a ∈ found
          · obtain ⟨turns, r, h⟩ := ihp
            exact ⟨turns + 1, r, (run_of_mem ha).trans h⟩
          · cases hnext : succ a with
            | error e => exact ⟨1, _, run_of_refused ha hnext⟩
            | ok next =>
                have hless : (S \ (found ++ [a]).toFinset).card < n := by
                  rw [← hn]
                  refine Finset.card_lt_card ⟨fun x hx => ?_, fun hsub => ?_⟩
                  · rw [Finset.mem_sdiff, List.mem_toFinset] at hx ⊢
                    exact ⟨hx.1, fun h => hx.2 (List.mem_append_left _ h)⟩
                  · have hold : a ∈ S \ found.toFinset :=
                      Finset.mem_sdiff.mpr ⟨hS a next hnext, fun h => ha (List.mem_toFinset.mp h)⟩
                    have hnew := (Finset.mem_sdiff.mp (hsub hold)).2
                    exact hnew (List.mem_toFinset.mpr
                      (List.mem_append_right _ (List.mem_singleton_self a)))
                obtain ⟨turns, r, h⟩ := ih _ hless (next.reverse ++ pending) (found ++ [a]) rfl
                exact ⟨turns + 1, r, (run_of_new ha hnext).trans h⟩

theorem run_nil_spec (h : run succ turns [] found = some (.ok result)) (hnodup : found.Nodup) :
    result.Nodup ∧ found ⊆ result ∧ [] ⊆ result ∧
      (∀ a ∈ result, a ∉ found → ∃ next, succ a = .ok next ∧ next ⊆ result) ∧
      ∀ a ∈ result, a ∈ found ∨ ∃ b ∈ [], Relation.ReflTransGen (Leads succ) b a := by
  rw [run_nil] at h
  obtain rfl := Except.ok.inj (Option.some.inj h)
  exact ⟨hnodup, fun _ h => h, fun _ h => absurd h List.not_mem_nil,
    fun a ha hnew => absurd ha hnew, fun a ha => .inl ha⟩

/-- What a walk has found in the end: each vertex once, what was found before and what was pending,
with all successors of what is new, and nothing that is not led to. -/
theorem run_spec (h : run succ turns pending found = some (.ok result)) (hnodup : found.Nodup) :
    result.Nodup ∧ found ⊆ result ∧ pending ⊆ result ∧
      (∀ a ∈ result, a ∉ found → ∃ next, succ a = .ok next ∧ next ⊆ result) ∧
      ∀ a ∈ result, a ∈ found ∨ ∃ b ∈ pending, Relation.ReflTransGen (Leads succ) b a := by
  induction turns generalizing pending found with
  | zero =>
      cases pending with
      | nil => exact run_nil_spec h hnodup
      | cons a pending => cases h
  | succ turns ih =>
      cases pending with
      | nil => exact run_nil_spec h hnodup
      | cons a pending =>
          by_cases ha : a ∈ found
          · rw [run_of_mem ha] at h
            obtain ⟨hr, hf, hp, hsucc, hreach⟩ := ih h hnodup
            exact ⟨hr, hf, List.cons_subset.mpr ⟨hf ha, hp⟩, hsucc, fun x hx =>
              (hreach x hx).imp_right fun hex => hex.imp fun b hb => ⟨List.mem_cons_of_mem _ hb.1, hb.2⟩⟩
          · cases hnext : succ a with
            | error e =>
                rw [run_of_refused ha hnext] at h
                cases h
            | ok next =>
                rw [run_of_new ha hnext] at h
                obtain ⟨hr, hf, hp, hsucc, hreach⟩ := ih h (nodup_found hnodup ha)
                have hmem : a ∈ result := hf (List.mem_append_right _ (List.mem_singleton_self a))
                refine ⟨hr, fun x hx => hf (List.mem_append_left _ hx),
                  List.cons_subset.mpr ⟨hmem, fun x hx => hp (List.mem_append_right _ hx)⟩,
                  fun x hx hnew => ?_, fun x hx => ?_⟩
                · by_cases hxa : x = a
                  · rw [hxa]
                    exact ⟨next, hnext, fun y hy =>
                      hp (List.mem_append_left _ (List.mem_reverse.mpr hy))⟩
                  · refine hsucc x hx fun hmem => ?_
                    rcases List.mem_append.mp hmem with h | h
                    · exact hnew h
                    · exact hxa (List.mem_singleton.mp h)
                · rcases hreach x hx with h | ⟨b, hb, hpath⟩
                  · rcases List.mem_append.mp h with h | h
                    · exact .inl h
                    · rw [List.mem_singleton.mp h]
                      exact .inr ⟨a, List.mem_cons_self, .refl⟩
                  · rcases List.mem_append.mp hb with hb | hb
                    · exact .inr ⟨a, List.mem_cons_self,
                        .head ⟨next, hnext, List.mem_reverse.mp hb⟩ hpath⟩
                    · exact .inr ⟨b, List.mem_cons_of_mem _ hb, hpath⟩

/-- **What a walk from a vertex finds** is what can be reached from it. -/
theorem run_reaches {root : α} (h : run succ turns [root] [] = some (.ok result)) {a : α} :
    a ∈ result ↔ Relation.ReflTransGen (Leads succ) root a := by
  obtain ⟨-, -, hpending, hsucc, hreach⟩ := run_spec h List.nodup_nil
  constructor
  · intro ha
    obtain ⟨b, hb, hpath⟩ := (hreach a ha).resolve_left List.not_mem_nil
    rwa [List.mem_singleton.mp hb] at hpath
  · intro hpath
    induction hpath with
    | refl => exact hpending (List.mem_singleton_self root)
    | tail _ hstep ih =>
        obtain ⟨next, hnext, hb⟩ := hstep
        obtain ⟨next', hnext', hsub⟩ := hsucc _ ih List.not_mem_nil
        obtain rfl := Except.ok.inj (hnext.symm.trans hnext')
        exact hsub hb

/-- **A walk reads** the successors of what it finds only. -/
theorem run_congr (h : run succ turns pending found = some (.ok result)) (hnodup : found.Nodup)
    (hsame : ∀ a ∈ result, succ' a = succ a) :
    run succ' turns pending found = some (.ok result) := by
  induction turns generalizing pending found with
  | zero =>
      cases pending with
      | nil => rwa [run_nil] at h ⊢
      | cons a pending => cases h
  | succ turns ih =>
      cases pending with
      | nil => rwa [run_nil] at h ⊢
      | cons a pending =>
          have hmem : a ∈ result := (run_spec h hnodup).2.2.1 List.mem_cons_self
          by_cases ha : a ∈ found
          · rw [run_of_mem ha] at h ⊢
            exact ih h hnodup
          · cases hnext : succ a with
            | error e =>
                rw [run_of_refused ha hnext] at h
                cases h
            | ok next =>
                rw [run_of_new ha hnext] at h
                rw [run_of_new ha ((hsame a hmem).trans hnext)]
                exact ih h (nodup_found hnodup ha)

end Worklist
