import Mathlib.Data.List.Perm.Basic

set_option autoImplicit false

/-! # Loops that can raise

A loop over a list whose body can raise, in the `Except` monad.

* `Except.bind_eq_ok`, `Except.bind_eq_error` : a sequence that returned, one that raised.
* `List.foldlM_invariant`, `List.foldlM_establishes` : what every turn of a loop preserves, and
  what one turn brings about.
* `List.mapM_eq_ok_iff`, `List.mapM_perm` : a loop that collects results, in any order.
-/

namespace Except

variable {α β ε : Type}

theorem bind_eq_ok {x : Except ε α} {f : α → Except ε β} {b : β} :
    (x >>= f) = .ok b ↔ ∃ a, x = .ok a ∧ f a = .ok b := by
  cases x <;> simp [bind, Except.bind]

theorem bind_eq_error {x : Except ε α} {f : α → Except ε β} {e : ε} :
    (x >>= f) = .error e ↔ x = .error e ∨ ∃ a, x = .ok a ∧ f a = .error e := by
  cases x <;> simp [bind, Except.bind]

@[simp] theorem ok_bind (a : α) (f : α → Except ε β) : ((.ok a : Except ε α) >>= f) = f a := rfl

@[simp] theorem error_bind (e : ε) (f : α → Except ε β) :
    ((.error e : Except ε α) >>= f) = .error e := rfl

end Except

namespace List

variable {α β ε : Type}

/-- A loop that returns keeps what each of its turns keeps. -/
theorem foldlM_invariant {f : β → α → Except ε β} {P : β → Prop} {l : List α}
    (hstep : ∀ b, ∀ a ∈ l, ∀ b', P b → f b a = .ok b' → P b') {b b' : β} (hb : P b)
    (h : l.foldlM f b = .ok b') : P b' := by
  induction l generalizing b with
  | nil =>
      obtain rfl := Except.ok.inj h
      exact hb
  | cons a rest ih =>
      rw [List.foldlM_cons] at h
      obtain ⟨b₁, hfirst, hrest⟩ := Except.bind_eq_ok.mp h
      have hb₁ := hstep b a List.mem_cons_self b₁ hb hfirst
      exact ih (fun c a' ha' => hstep c a' (List.mem_cons_of_mem _ ha')) hb₁ hrest

/-- A loop returns when none of its turns raises. -/
theorem foldlM_returns {f : β → α → Except ε β} {P : β → Prop} {l : List α}
    (hstep : ∀ b, ∀ a ∈ l, P b → ∃ b', f b a = .ok b' ∧ P b') {b : β} (hb : P b) :
    ∃ b', l.foldlM f b = .ok b' ∧ P b' := by
  induction l generalizing b with
  | nil => exact ⟨b, rfl, hb⟩
  | cons a rest ih =>
      obtain ⟨b₁, hfirst, hb₁⟩ := hstep b a List.mem_cons_self hb
      rw [List.foldlM_cons, hfirst]
      exact ih (fun c a' ha' => hstep c a' (List.mem_cons_of_mem _ ha')) hb₁

/-- A counting loop: every turn returns, and takes what holds of its number to the next. -/
theorem foldlM_range_returns {f : β → Nat → Except ε β} {P : Nat → β → Prop} {m : Nat}
    (hstep : ∀ i < m, ∀ b, P i b → ∃ b', f b i = .ok b' ∧ P (i + 1) b') {b : β} (hb : P 0 b) :
    ∃ b', (List.range m).foldlM f b = .ok b' ∧ P m b' := by
  induction m with
  | zero => exact ⟨b, rfl, hb⟩
  | succ m ih =>
      obtain ⟨b₁, hbefore, hb₁⟩ := ih fun i hi => hstep i (Nat.lt_succ_of_lt hi)
      obtain ⟨b₂, hturn, hb₂⟩ := hstep m (Nat.lt_succ_self m) b₁ hb₁
      refine ⟨b₂, ?_, hb₂⟩
      rw [List.range_succ, List.foldlM_append, hbefore, Except.ok_bind, List.foldlM_cons, hturn]
      rfl

/-- What one turn of a loop establishes and every turn keeps. -/
theorem foldlM_establishes {f : β → α → Except ε β} {P Q : β → Prop} {l : List α}
    (hQ : ∀ b, ∀ a ∈ l, ∀ b', Q b → f b a = .ok b' → Q b')
    (hP : ∀ b, ∀ a ∈ l, ∀ b', Q b → P b → f b a = .ok b' → P b') {a : α} (ha : a ∈ l)
    (hset : ∀ b b', Q b → f b a = .ok b' → P b') {b b' : β} (hb : Q b)
    (h : l.foldlM f b = .ok b') : P b' := by
  obtain ⟨before, after, rfl⟩ := List.append_of_mem ha
  rw [List.foldlM_append] at h
  obtain ⟨b₁, hbefore, h⟩ := Except.bind_eq_ok.mp h
  rw [List.foldlM_cons] at h
  obtain ⟨b₂, hturn, hafter⟩ := Except.bind_eq_ok.mp h
  have hb₁ : Q b₁ := foldlM_invariant (P := Q)
    (fun c d hd => hQ c d (List.mem_append_left _ hd)) hb hbefore
  have hlater : ∀ d ∈ after, d ∈ before ++ a :: after := fun d hd =>
    List.mem_append_right _ (List.mem_cons_of_mem _ hd)
  refine (foldlM_invariant (P := fun c => Q c ∧ P c) (fun c d hd c' hc hstep => ?_)
    ⟨hQ _ _ ha _ hb₁ hturn, hset _ _ hb₁ hturn⟩ hafter).2
  exact ⟨hQ c d (hlater d hd) c' hc.1 hstep, hP c d (hlater d hd) c' hc.1 hc.2 hstep⟩

theorem mapM_eq_ok_iff {f : α → Except ε β} {l : List α} {r : List β} :
    l.mapM f = .ok r ↔ List.Forall₂ (fun a b => f a = .ok b) l r := by
  induction l generalizing r with
  | nil =>
      rw [List.mapM_nil, List.forall₂_nil_left_iff]
      exact ⟨fun h => (Except.ok.inj h).symm, fun h => h ▸ rfl⟩
  | cons a rest ih =>
      rw [List.mapM_cons, List.forall₂_cons_left_iff]
      constructor
      · intro h
        obtain ⟨b, hb, htail⟩ := Except.bind_eq_ok.mp h
        obtain ⟨bs, hbs, heq⟩ := Except.bind_eq_ok.mp htail
        exact ⟨b, bs, hb, ih.mp hbs, (Except.ok.inj heq).symm⟩
      · rintro ⟨b, bs, hb, hbs, rfl⟩
        rw [hb, ih.mpr hbs]
        rfl

/-- Collecting in another order returns the results in another order. -/
theorem mapM_perm {f : α → Except ε β} {l l' : List α} {r : List β} (hp : l'.Perm l)
    (h : l.mapM f = .ok r) : ∃ r', l'.mapM f = .ok r' ∧ r'.Perm r := by
  obtain ⟨r', hr', hperm⟩ := List.perm_comp_forall₂ hp (mapM_eq_ok_iff.mp h)
  exact ⟨r', mapM_eq_ok_iff.mpr hr', hperm⟩

/-- A loop none of whose turns raises. -/
theorem mapM_eq_map {f : α → Except ε β} {g : α → β} {l : List α} (h : ∀ a ∈ l, f a = .ok (g a)) :
    l.mapM f = .ok (l.map g) := by
  induction l with
  | nil => rfl
  | cons a rest ih =>
      rw [List.mapM_cons, h a List.mem_cons_self, ih fun b hb => h b (List.mem_cons_of_mem _ hb)]
      rfl

/-- Every element has its result. -/
theorem exists_of_mem_mapM {f : α → Except ε β} {l : List α} {r : List β} (h : l.mapM f = .ok r)
    {a : α} (ha : a ∈ l) : ∃ b ∈ r, f a = .ok b := by
  rw [mapM_eq_ok_iff] at h
  induction h with
  | nil => simp at ha
  | @cons a' b l r hab _ ih =>
      rcases List.mem_cons.mp ha with rfl | hmem
      · exact ⟨b, List.mem_cons_self, hab⟩
      · obtain ⟨b', hb', h'⟩ := ih hmem
        exact ⟨b', List.mem_cons_of_mem _ hb', h'⟩

theorem mem_mapM_iff {f : α → Except ε β} {l : List α} {r : List β} (h : l.mapM f = .ok r)
    {b : β} : b ∈ r ↔ ∃ a ∈ l, f a = .ok b := by
  rw [mapM_eq_ok_iff] at h
  induction h with
  | nil => simp
  | @cons a b' l r hab _ ih =>
      rw [List.mem_cons, ih, List.exists_mem_cons_iff, hab, Except.ok.injEq, eq_comm]

end List
