import Mathlib.Data.List.Basic

set_option autoImplicit false

/-! # Tests on a stream

A reader receives chunks until a test holds of what it has received. It need not keep everything: it
stops where a reader that keeps everything does, as long as what it keeps has the same future.

* `SameFuture` : what follows is tested the same behind either of two texts.
* `online_eq_some_iff`, `online_eq_none_iff` : the chunks play no part in where the test holds.
-/

variable {α : Type} {P : List α → Prop} {a b c : List α}

/-- The test comes out the same, whatever follows. -/
def SameFuture (P : List α → Prop) (a b : List α) : Prop := ∀ more, P (a ++ more) ↔ P (b ++ more)

theorem SameFuture.refl (P : List α → Prop) (a : List α) : SameFuture P a a := fun _ => Iff.rfl

theorem SameFuture.trans (h : SameFuture P a b) (h' : SameFuture P b c) : SameFuture P a c :=
  fun more => (h more).trans (h' more)

theorem SameFuture.append (h : SameFuture P a b) (c : List α) : SameFuture P (a ++ c) (b ++ c) := by
  intro more
  rw [List.append_assoc, List.append_assoc]
  exact h (c ++ more)

/-- Chunks are received until the test holds of what is kept. The result are the chunks behind. -/
def online (P : List α → Prop) [DecidablePred P] (keep : List α → List α) :
    List α → List (List α) → Option (List (List α))
  | _, [] => none
  | kept, c :: cs =>
      if P (kept ++ c) then some cs else online P keep (keep (kept ++ c)) cs

section

variable [DecidablePred P] {keep : List α → List α} {data kept : List α}

/-- The reader stops behind the first chunk with which the test holds of all that was received. -/
theorem online_eq_some_iff (hmono : ∀ a b, P a → P (a ++ b))
    (hkeep : ∀ a, ¬ P a → SameFuture P a (keep a)) (hdata : ¬ P data) (h : SameFuture P data kept)
    {cs rest : List (List α)} :
    online P keep kept cs = some rest ↔ ∃ used c, cs = used ++ c :: rest ∧
      ¬ P (data ++ used.flatten) ∧ P (data ++ used.flatten ++ c) := by
  induction cs generalizing data kept with
  | nil => simp [online]
  | cons c cs ih =>
      rw [online]
      split_ifs with hnow
      · rw [← h c] at hnow
        constructor
        · rintro heq
          obtain rfl := Option.some.inj heq
          exact ⟨[], c, rfl, by simpa using hdata, by simpa using hnow⟩
        · rintro ⟨used, c', heq, hbefore, -⟩
          cases used with
          | nil => rw [(List.cons.inj heq).2]
          | cons u used =>
              obtain rfl := (List.cons.inj heq).1
              rw [List.flatten_cons, ← List.append_assoc] at hbefore
              exact absurd (hmono _ _ hnow) hbefore
      · have hkept := hkeep _ hnow
        rw [← h c] at hnow
        rw [ih hnow ((h.append c).trans hkept)]
        constructor
        · rintro ⟨used, c', rfl, hbefore, hthen⟩
          refine ⟨c :: used, c', rfl, ?_, ?_⟩
          · rwa [List.flatten_cons, ← List.append_assoc]
          · rwa [List.flatten_cons, ← List.append_assoc]
        · rintro ⟨used, c', heq, hbefore, hthen⟩
          cases used with
          | nil =>
              obtain rfl := (List.cons.inj heq).1
              rw [List.flatten_nil, List.append_nil] at hthen
              exact absurd hthen hnow
          | cons u used =>
              obtain ⟨rfl, rfl⟩ := List.cons.inj heq
              rw [List.flatten_cons, ← List.append_assoc] at hbefore hthen
              exact ⟨used, c', rfl, hbefore, hthen⟩

/-- The reader does not stop exactly when the test does not hold of the whole stream. -/
theorem online_eq_none_iff (hmono : ∀ a b, P a → P (a ++ b))
    (hkeep : ∀ a, ¬ P a → SameFuture P a (keep a)) (hdata : ¬ P data) (h : SameFuture P data kept)
    {cs : List (List α)} : online P keep kept cs = none ↔ ¬ P (data ++ cs.flatten) := by
  induction cs generalizing data kept with
  | nil => simpa [online] using hdata
  | cons c cs ih =>
      rw [online, List.flatten_cons, ← List.append_assoc]
      split_ifs with hnow
      · rw [← h c] at hnow
        exact iff_of_false (by simp) (not_not_intro (hmono _ _ hnow))
      · have hkept := hkeep _ hnow
        rw [← h c] at hnow
        exact ih hnow ((h.append c).trans hkept)

end
