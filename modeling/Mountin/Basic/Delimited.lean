import Mathlib.Data.Set.Prod

set_option autoImplicit false

/-! # Codes whose words end by themselves

Records that are written one after the other, without anything between them, can be told apart
when each of them says where it ends.

* `Delimited` : a code of this kind, on the values of a set.
* `Delimited.seq`, `Delimited.tagged`, `delimited_prefixed` : how such codes are made.
* `Delimited.flatMap` : a sequence of values is known from its text.
-/

variable {α β γ : Type}

/-- Words of values of `S` that are continued to the same text are words of the same value, and
the same text follows. -/
def Delimited (S : Set α) (code : α → List β) : Prop :=
  ∀ a ∈ S, ∀ b ∈ S, ∀ rest rest', code a ++ rest = code b ++ rest' → a = b ∧ rest = rest'

/-- Words of one length. -/
theorem delimited_of_length {S : Set α} {code : α → List β} {n : Nat}
    (hlength : ∀ a ∈ S, (code a).length = n) (hinj : Set.InjOn code S) : Delimited S code := by
  intro a ha b hb rest rest' h
  have hword : (code a).length = (code b).length := (hlength a ha).trans (hlength b hb).symm
  obtain ⟨hcode, hrest⟩ := List.append_inj h hword
  exact ⟨hinj ha hb hcode, hrest⟩

/-- A text behind its length. -/
theorem delimited_prefixed {bound : Nat} {length : Nat → List β}
    (h : Delimited {n | n < bound} length) :
    Delimited {v : List β | v.length < bound} fun v => length v.length ++ v := by
  intro v hv v' hv' rest rest' heq
  rw [List.append_assoc, List.append_assoc] at heq
  obtain ⟨hlength, hrest⟩ := h _ hv _ hv' _ _ heq
  exact List.append_inj hrest hlength

namespace Delimited

variable {S : Set α} {T : Set γ}

theorem injOn {code : α → List β} (h : Delimited S code) : Set.InjOn code S := by
  intro a ha b hb heq
  exact (h a ha b hb [] [] (congrArg (· ++ []) heq)).1

/-- One word after the other. -/
theorem seq {f : α → List β} {g : γ → List β} (hf : Delimited S f) (hg : Delimited T g) :
    Delimited (S ×ˢ T) fun p => f p.1 ++ g p.2 := by
  rintro ⟨a, c⟩ ⟨ha, hc⟩ ⟨b, d⟩ ⟨hb, hd⟩ rest rest' heq
  dsimp only at heq
  rw [List.append_assoc, List.append_assoc] at heq
  obtain ⟨rfl, hrest⟩ := hf a ha b hb _ _ heq
  obtain ⟨rfl, hend⟩ := hg c hc d hd _ _ hrest
  exact ⟨rfl, hend⟩

/-- Words of two kinds behind different tags. -/
theorem tagged {f : α → List β} {g : γ → List β} {t u : β} (htag : t ≠ u) (hf : Delimited S f)
    (hg : Delimited T g) :
    Delimited {x : α ⊕ γ | x.elim (· ∈ S) (· ∈ T)}
      fun x => x.elim (fun a => t :: f a) (fun c => u :: g c) := by
  rintro (a | c) hx (b | d) hy rest rest' heq
  · obtain ⟨rfl, hrest⟩ := hf a hx b hy rest rest' (List.cons.inj heq).2
    exact ⟨rfl, hrest⟩
  · exact absurd (List.cons.inj heq).1 htag
  · exact absurd (List.cons.inj heq).1.symm htag
  · obtain ⟨rfl, hrest⟩ := hg c hx d hy rest rest' (List.cons.inj heq).2
    exact ⟨rfl, hrest⟩

/-- **A sequence is known from its text.** -/
theorem flatMap {code : α → List β} (h : Delimited S code) (hne : ∀ a ∈ S, code a ≠ [])
    {l l' : List α} (hl : ∀ a ∈ l, a ∈ S) (hl' : ∀ a ∈ l', a ∈ S)
    (heq : l.flatMap code = l'.flatMap code) : l = l' := by
  induction l generalizing l' with
  | nil =>
      cases l' with
      | nil => rfl
      | cons b rest' =>
          rw [List.flatMap_nil, List.flatMap_cons] at heq
          exact absurd (List.append_eq_nil_iff.mp heq.symm).1 (hne b (hl' b List.mem_cons_self))
  | cons a rest ih =>
      cases l' with
      | nil =>
          rw [List.flatMap_nil, List.flatMap_cons] at heq
          exact absurd (List.append_eq_nil_iff.mp heq).1 (hne a (hl a List.mem_cons_self))
      | cons b rest' =>
          rw [List.forall_mem_cons] at hl hl'
          rw [List.flatMap_cons, List.flatMap_cons] at heq
          obtain ⟨rfl, hrest⟩ := h a hl.1 b hl'.1 _ _ heq
          rw [ih hl.2 hl'.2 hrest]

end Delimited

/-- Names without the separator between them. -/
theorem List.intercalate_injOn [DecidableEq β] (sep : β) :
    Set.InjOn (fun l : List (List β) => [sep].intercalate l)
      {l | l ≠ [] ∧ ∀ part ∈ l, sep ∉ part} := by
  rintro l ⟨hne, hl⟩ l' ⟨hne', hl'⟩ heq
  calc l = ([sep].intercalate l).splitOn sep := (List.splitOn_intercalate sep hl hne).symm
    _ = ([sep].intercalate l').splitOn sep := congrArg (List.splitOn sep) heq
    _ = l' := List.splitOn_intercalate sep hl' hne'
