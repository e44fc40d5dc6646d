import Mathlib.Data.List.TakeWhile

set_option autoImplicit false

/-! # Words of a list

The words of a list are its longest parts without separators.

* `words_eq_nil_iff` : a list without words has separators only.
* `words_eq_cons_iff` : the first word and the rest of a list.
-/

namespace List

variable {α : Type} (p : α → Bool)

/-- The parts between separators that are not empty. -/
def words (l : List α) : List (List α) := (l.splitOnP p).filter fun w => !w.isEmpty

variable {p} {l f rest : List α}

theorem words_cons_sep {x : α} (h : p x = true) (l : List α) : words p (x :: l) = words p l := by
  have hsplit := splitOnP_append_cons (p := p) [] l h
  rw [nil_append] at hsplit
  rw [words, hsplit, filter_append, words]
  rfl

theorem words_append_seps {w : List α} (h : ∀ x ∈ w, p x = true) (l : List α) :
    words p (w ++ l) = words p l := by
  induction w with
  | nil => rfl
  | cons x w ih =>
      rw [forall_mem_cons] at h
      rw [cons_append, words_cons_sep h.1, ih h.2]

theorem words_word (hne : f ≠ []) (hf : ∀ x ∈ f, p x = false)
    (hrest : ∀ x ∈ rest.head?, p x = true) : words p (f ++ rest) = f :: words p rest := by
  have hkeep : (!f.isEmpty) = true := by
    cases f with
    | nil => exact absurd rfl hne
    | cons x f => rfl
  cases rest with
  | nil =>
      rw [append_nil, words, splitOnP_eq_singleton hf, filter_cons, if_pos hkeep]
      rfl
  | cons x rest =>
      have hx := hrest x rfl
      rw [words_cons_sep hx, words, splitOnP_append_cons_of_forall_mem hf x hx,
        filter_cons, if_pos hkeep, words]

/-- A list is separators, a word, and what does not go on with the word. -/
theorem exists_word (l : List α) : (∀ x ∈ l, p x = true) ∨
    ∃ w f rest, l = w ++ (f ++ rest) ∧ (∀ x ∈ w, p x = true) ∧ f ≠ [] ∧ (∀ x ∈ f, p x = false) ∧
      ∀ x ∈ rest.head?, p x = true := by
  cases hdrop : l.dropWhile p with
  | nil => exact .inl (dropWhile_eq_nil_iff.mp hdrop)
  | cons c tail =>
      refine .inr ⟨l.takeWhile p, (c :: tail).takeWhile fun x => !p x,
        (c :: tail).dropWhile fun x => !p x, ?_, fun x hx => mem_takeWhile_imp hx, ?_, fun x hx => ?_,
        fun x hx => ?_⟩
      · rw [takeWhile_append_dropWhile, ← hdrop, takeWhile_append_dropWhile]
      · have hc : p c = false := by
          have hhead := head?_dropWhile_not p l
          rw [hdrop] at hhead
          simpa using hhead
        rw [takeWhile_cons_of_pos (by rw [hc]; rfl)]
        exact cons_ne_nil _ _
      · simpa using mem_takeWhile_imp hx
      · have hhead := head?_dropWhile_not (fun x => !p x) (c :: tail)
        rw [Option.mem_def] at hx
        rw [hx] at hhead
        simpa using hhead

theorem words_eq_nil_iff : words p l = [] ↔ ∀ x ∈ l, p x = true := by
  constructor
  · intro h
    rcases exists_word (p := p) l with hall | ⟨w, f, rest, rfl, hw, hne, hf, hrest⟩
    · exact hall
    · rw [words_append_seps hw, words_word hne hf hrest] at h
      cases h
  · intro h
    have hwords := words_append_seps h []
    rwa [append_nil] at hwords

/-- The first word of a list. -/
theorem words_eq_cons_iff {fs : List (List α)} : words p l = f :: fs ↔
    ∃ w rest, l = w ++ (f ++ rest) ∧ (∀ x ∈ w, p x = true) ∧ f ≠ [] ∧ (∀ x ∈ f, p x = false) ∧
      (∀ x ∈ rest.head?, p x = true) ∧ words p rest = fs := by
  constructor
  · intro h
    rcases exists_word (p := p) l with hall | ⟨w, g, rest, rfl, hw, hne, hg, hrest⟩
    · rw [words_eq_nil_iff.mpr hall] at h
      cases h
    · rw [words_append_seps hw, words_word hne hg hrest] at h
      obtain ⟨rfl, hfs⟩ := cons.inj h
      exact ⟨w, rest, rfl, hw, hne, hg, hrest, hfs⟩
  · rintro ⟨w, rest, rfl, hw, hne, hf, hrest, rfl⟩
    rw [words_append_seps hw, words_word hne hf hrest]

end List
