import Mountin.Basic.Raising

set_option autoImplicit false

/-! # Two runs that a view cannot tell apart

A view `φ` forgets a part of a result. Two fallible programs look alike when both raise the same, or
their results have the same view. Looking alike passes through the parts of a program.

* `Except.map_bind_congr` : through one program after another.
* `Except.map_foldlM_congr`, `Except.map_mapM_congr` : through a loop.
* `Except.map_of_map`, `List.map_of_map` : to what depends on the view.
-/

namespace Except

variable {ε α α' β β' γ δ : Type}

theorem map_bind_congr {x : Except ε α} {y : Except ε α'} {f : α → Except ε β} {g : α' → Except ε β'}
    {φ : α → γ} {φ' : α' → γ} {ψ : β → δ} {ψ' : β' → δ} (h : x.map φ = y.map φ')
    (hfg : ∀ a b, φ a = φ' b → (f a).map ψ = (g b).map ψ') :
    (x >>= f).map ψ = (y >>= g).map ψ' := by
  cases x with
  | error e =>
      cases y with
      | error e' =>
          cases h
          rfl
      | ok b => cases h
  | ok a =>
      cases y with
      | error e' => cases h
      | ok b => exact hfg a b (Except.ok.inj h)

theorem map_foldlM_congr {f g : β → α → Except ε β} {φ : β → γ} {l : List α}
    (hstep : ∀ x ∈ l, ∀ a b, φ a = φ b → (f a x).map φ = (g b x).map φ) {a b : β} (h : φ a = φ b) :
    (l.foldlM f a).map φ = (l.foldlM g b).map φ := by
  induction l generalizing a b with
  | nil => exact congrArg Except.ok h
  | cons x rest ih =>
      rw [List.foldlM_cons, List.foldlM_cons]
      apply map_bind_congr (hstep x List.mem_cons_self a b h)
      intro a' b' h'
      exact ih (fun y hy => hstep y (List.mem_cons_of_mem _ hy)) h'

theorem map_mapM_congr {f g : α → Except ε β} {φ : β → γ} {l : List α}
    (hstep : ∀ x ∈ l, (f x).map φ = (g x).map φ) :
    (l.mapM f).map (List.map φ) = (l.mapM g).map (List.map φ) := by
  induction l with
  | nil => rfl
  | cons x rest ih =>
      rw [List.mapM_cons, List.mapM_cons]
      apply map_bind_congr (hstep x List.mem_cons_self)
      intro a b hab
      apply map_bind_congr (ih fun y hy => hstep y (List.mem_cons_of_mem _ hy))
      intro as bs hrest
      exact congrArg Except.ok (List.cons_eq_cons.mpr ⟨hab, hrest⟩)

/-- Two results that look alike under a view look alike under what depends on it. -/
theorem map_of_map {x : Except ε α} {y : Except ε α'} {φ : α → γ} {φ' : α' → γ} {ψ : α → δ}
    {ψ' : α' → δ} (h : x.map φ = y.map φ') (hψ : ∀ a b, φ a = φ' b → ψ a = ψ' b) :
    x.map ψ = y.map ψ' := by
  cases x with
  | error e =>
      cases y with
      | error e' =>
          cases h
          rfl
      | ok b => cases h
  | ok a =>
      cases y with
      | error e' => cases h
      | ok b => exact congrArg Except.ok (hψ a b (Except.ok.inj h))

end Except

namespace List

variable {α α' γ δ : Type}

/-- Lists that look alike under a view look alike under what depends on it. -/
theorem map_of_map {φ : α → γ} {φ' : α' → γ} {ψ : α → δ} {ψ' : α' → δ}
    (hψ : ∀ a b, φ a = φ' b → ψ a = ψ' b) {l : List α} {l' : List α'} (h : l.map φ = l'.map φ') :
    l.map ψ = l'.map ψ' := by
  induction l generalizing l' with
  | nil =>
      rw [map_nil, eq_comm, map_eq_nil_iff] at h
      rw [h]
      rfl
  | cons a rest ih =>
      cases l' with
      | nil => cases h
      | cons b rest' =>
          rw [map_cons, map_cons, cons_eq_cons] at h
          rw [map_cons, map_cons, hψ a b h.1, ih h.2]

end List
