import Mathlib.Data.List.Basic

set_option autoImplicit false

/-! # Programs that can be stopped

A program works on a persistent state, one action after the other. It ends with a result or an
exception, or it is stopped on the way; what survives a stop is one of the states it passes
through. Values that the program holds in memory are lost.

* `Prog.Safe` : from states of `P` the program ends in `Q`, and wherever it stops `C` holds.
* `Prog.Safe.bind`, `Prog.safe_act`, `Prog.safe_each` : the rules, one for each construct.
-/

/-- The course of a program: the states after its actions, the last state, and the result. -/
structure Course (σ ε α : Type) where
  passed : List σ
  state : σ
  result : Except ε α

/-- A program over a persistent state. -/
def Prog (σ ε α : Type) : Type := σ → Course σ ε α

namespace Prog

variable {σ ε α β : Type}

/-- A value, without any action. -/
def ret (a : α) : Prog σ ε α := fun s => ⟨[], s, .ok a⟩

/-- One program after the other. -/
def bind (prog : Prog σ ε α) (next : α → Prog σ ε β) : Prog σ ε β := fun s =>
  match (prog s).result with
  | .ok a =>
      ⟨(prog s).passed ++ (next a (prog s).state).passed, (next a (prog s).state).state,
        (next a (prog s).state).result⟩
  | .error e => ⟨(prog s).passed, (prog s).state, .error e⟩

instance : Monad (Prog σ ε) where
  pure := ret
  bind := bind

theorem bind_assoc {γ : Type} (prog : Prog σ ε α) (f : α → Prog σ ε β) (g : β → Prog σ ε γ) :
    (prog >>= f) >>= g = prog >>= fun a => f a >>= g := by
  funext s
  show (prog.bind f).bind g s = prog.bind (fun a => (f a).bind g) s
  unfold bind
  cases (prog s).result with
  | error e => rfl
  | ok a =>
      cases h : (f a (prog s).state).result <;> simp [h]

theorem pure_bind (a : α) (f : α → Prog σ ε β) : (pure a : Prog σ ε α) >>= f = f a := by
  funext s
  show (ret a).bind f s = f a s
  simp [bind, ret]

/-- An action that changes the state at once. -/
def act (f : σ → σ) : Prog σ ε Unit := fun s => ⟨[f s], f s, .ok ()⟩

/-- Looks at the state. -/
def look (f : σ → α) : Prog σ ε α := fun s => ⟨[], s, .ok (f s)⟩

/-- Raises an exception. -/
def raise (e : ε) : Prog σ ε α := fun s => ⟨[], s, .error e⟩

/-- A computation without state that can raise. -/
def lift (x : Except ε α) : Prog σ ε α := fun s => ⟨[], s, x⟩

/-- An action for each element. -/
def each (l : List α) (body : α → Prog σ ε Unit) : Prog σ ε Unit :=
  match l with
  | [] => ret ()
  | a :: rest => bind (body a) fun _ => each rest body

/-- `try … finally`: the handler also runs when an exception stops the body somewhere. -/
def finally' (body : Prog σ ε α) (handler : Prog σ ε Unit) : Prog σ ε α := fun s =>
  ⟨(body s).passed ++ (s :: (body s).passed).flatMap (fun c => (handler c).passed) ++
      (handler (body s).state).passed,
    (handler (body s).state).state, (body s).result⟩

/-- `try … except: …; raise`: the handler runs when an exception stops the body somewhere. -/
def rescue (body : Prog σ ε α) (handler : Prog σ ε Unit) : Prog σ ε α := fun s =>
  let cuts := (s :: (body s).passed).flatMap fun c => (handler c).passed
  match (body s).result with
  | .ok a => ⟨(body s).passed ++ cuts, (body s).state, .ok a⟩
  | .error e => ⟨(body s).passed ++ cuts ++ (handler (body s).state).passed,
      (handler (body s).state).state, .error e⟩

/-- The states in which a stopped or ended program leaves the world. -/
def stops (prog : Prog σ ε α) (s : σ) : List σ := s :: (prog s).passed ++ [(prog s).state]

theorem state_mem_stops (prog : Prog σ ε α) (s : σ) : (prog s).state ∈ prog.stops s := by
  simp [stops]

/-- From a state of `P` the program passes through states of `C` only; it ends in `Q` with its
result, or in `C` with an exception. -/
def Safe (P : σ → Prop) (prog : Prog σ ε α) (Q : α → σ → Prop) (C : σ → Prop) : Prop :=
  ∀ s, P s → (∀ c ∈ (prog s).passed, C c) ∧
    match (prog s).result with
    | .ok a => Q a (prog s).state
    | .error _ => C (prog s).state

variable {P P' : σ → Prop} {Q Q' : α → σ → Prop} {C : σ → Prop}

theorem Safe.weaken {prog : Prog σ ε α} (h : prog.Safe P Q C) (hP : ∀ s, P' s → P s)
    (hQ : ∀ a s, Q a s → Q' a s) : prog.Safe P' Q' C := by
  intro s hs
  obtain ⟨hpassed, hend⟩ := h s (hP s hs)
  refine ⟨hpassed, ?_⟩
  cases hr : (prog s).result with
  | ok a =>
      simp only [hr] at hend
      exact hQ a _ hend
  | error e =>
      simp only [hr] at hend
      exact hend

theorem Safe.pre {prog : Prog σ ε α} (h : prog.Safe P Q C) (hP : ∀ s, P' s → P s) :
    prog.Safe P' Q C :=
  h.weaken hP fun _ _ h => h

theorem Safe.post {prog : Prog σ ε α} (h : prog.Safe P Q C) (hQ : ∀ a s, Q a s → Q' a s) :
    prog.Safe P Q' C :=
  h.weaken (fun _ h => h) hQ

theorem Safe.stop {C' : σ → Prop} {prog : Prog σ ε α} (h : prog.Safe P Q C)
    (hC : ∀ s, C s → C' s) : prog.Safe P Q C' := by
  intro s hs
  obtain ⟨hpassed, hend⟩ := h s hs
  refine ⟨fun c hc => hC c (hpassed c hc), ?_⟩
  cases hr : (prog s).result with
  | ok a =>
      simp only [hr] at hend
      exact hend
  | error e =>
      simp only [hr] at hend
      exact hC _ hend

theorem safe_ret {a : α} (h : ∀ s, P s → Q a s) : Safe P (ret a : Prog σ ε α) Q C :=
  fun s hs => ⟨by simp [ret], h s hs⟩

theorem safe_pure {a : α} (h : ∀ s, P s → Q a s) : Safe P (pure a : Prog σ ε α) Q C :=
  safe_ret h

theorem safe_act {f : σ → σ} {Q : Unit → σ → Prop} (hQ : ∀ s, P s → Q () (f s))
    (hC : ∀ s, P s → C (f s)) : Safe P (act f : Prog σ ε Unit) Q C := by
  intro s hs
  refine ⟨?_, hQ s hs⟩
  intro c hc
  obtain rfl := List.mem_singleton.mp hc
  exact hC s hs

theorem safe_look {f : σ → α} (h : ∀ s, P s → Q (f s) s) : Safe P (look f : Prog σ ε α) Q C :=
  fun s hs => ⟨by simp [look], h s hs⟩

theorem safe_raise {e : ε} (h : ∀ s, P s → C s) : Safe P (raise e : Prog σ ε α) Q C :=
  fun s hs => ⟨by simp [raise], h s hs⟩

theorem safe_lift {x : Except ε α} (hok : ∀ a, x = .ok a → ∀ s, P s → Q a s)
    (herror : ∀ s, P s → C s) : Safe P (lift x : Prog σ ε α) Q C := by
  intro s hs
  refine ⟨by simp [lift], ?_⟩
  cases x with
  | ok a => exact hok a rfl s hs
  | error e => exact herror s hs

/-- A condition that the state does not matter for can be taken out. -/
theorem safe_of_and {prog : Prog σ ε α} {p : Prop} (h : p → prog.Safe P Q C) :
    prog.Safe (fun s => P s ∧ p) Q C :=
  fun s hs => h hs.2 s hs.1

/-- A program of which only the states are known that it leaves behind. -/
theorem safe_of_stops {prog : Prog σ ε α} (h : ∀ s, P s → ∀ c ∈ prog.stops s, C c) :
    prog.Safe P (fun _ => C) C := by
  intro s hs
  have hlast : C (prog s).state := h s hs _ (by simp [stops])
  refine ⟨fun c hc => h s hs c (by simp [stops, hc]), ?_⟩
  cases (prog s).result <;> exact hlast

/-- **One program after the other.** -/
theorem Safe.bind {prog : Prog σ ε α} {next : α → Prog σ ε β} {R : α → σ → Prop}
    {Q : β → σ → Prop} (h : prog.Safe P R C) (hnext : ∀ a, (next a).Safe (R a) Q C) :
    (prog >>= next).Safe P Q C := by
  intro s hs
  obtain ⟨hpassed, hend⟩ := h s hs
  have hunfold : (prog >>= next) s = Prog.bind prog next s := rfl
  rw [hunfold]
  unfold Prog.bind
  cases hr : (prog s).result with
  | error e =>
      simp only [hr] at hend ⊢
      exact ⟨hpassed, hend⟩
  | ok a =>
      simp only [hr] at hend ⊢
      obtain ⟨hpassed', hend'⟩ := hnext a _ hend
      refine ⟨fun c hc => ?_, hend'⟩
      rcases List.mem_append.mp hc with hc | hc
      · exact hpassed c hc
      · exact hpassed' c hc

/-- **A loop** keeps what each of its turns keeps. -/
theorem safe_each {l : List α} {body : α → Prog σ ε Unit} {I : σ → Prop}
    (h : ∀ a ∈ l, (body a).Safe I (fun _ => I) C) : (each l body).Safe I (fun _ => I) C := by
  induction l with
  | nil => exact safe_ret fun _ h => h
  | cons a rest ih =>
      exact (h a List.mem_cons_self).bind fun _ => ih fun b hb => h b (List.mem_cons_of_mem _ hb)

/-- **A final handler** that keeps `C` wherever the body stops, and does not raise. -/
theorem Safe.finally' {body : Prog σ ε α} {handler : Prog σ ε Unit} {R : α → σ → Prop}
    (h : body.Safe P R C) (hPC : ∀ s, P s → C s) (hstop : handler.Safe C (fun _ => C) C)
    (hend : ∀ a, handler.Safe (R a) (fun _ => Q a) C) (hquiet : ∀ s, ∃ u, (handler s).result = .ok u) :
    (body.finally' handler).Safe P Q C := by
  intro s hs
  obtain ⟨hpassed, hresult⟩ := h s hs
  have hcuts : ∀ c ∈ s :: (body s).passed, C c := by
    rw [List.forall_mem_cons]
    exact ⟨hPC s hs, hpassed⟩
  obtain ⟨u, hu⟩ := hquiet (body s).state
  have hlast : (∀ c ∈ (handler (body s).state).passed, C c) ∧
      match (body s).result with
      | .ok a => Q a (handler (body s).state).state
      | .error _ => C (handler (body s).state).state := by
    cases hr : (body s).result with
    | ok a =>
        simp only [hr] at hresult
        have hh := hend a _ hresult
        rwa [hu] at hh
    | error e =>
        simp only [hr] at hresult
        have hh := hstop _ hresult
        rwa [hu] at hh
  refine ⟨fun c hc => ?_, hlast.2⟩
  simp only [Prog.finally', List.mem_append, List.mem_flatMap] at hc
  rcases hc with (hc | ⟨c', hc', hc⟩) | hc
  · exact hpassed c hc
  · exact (hstop c' (hcuts c' hc')).1 c hc
  · exact hlast.1 c hc

/-- **A handler of exceptions** that keeps `C` wherever the body stops. -/
theorem Safe.rescue {body : Prog σ ε α} {handler : Prog σ ε Unit} (h : body.Safe P Q C)
    (hPC : ∀ s, P s → C s) (hstop : handler.Safe C (fun _ => C) C) :
    (body.rescue handler).Safe P Q C := by
  intro s hs
  obtain ⟨hpassed, hresult⟩ := h s hs
  have hcuts : ∀ c ∈ (s :: (body s).passed).flatMap fun c => (handler c).passed, C c := by
    intro c hc
    obtain ⟨c', hc', hmem⟩ := List.mem_flatMap.mp hc
    have hcut : C c' := by
      rcases List.mem_cons.mp hc' with rfl | hc'
      · exact hPC c' hs
      · exact hpassed c' hc'
    exact (hstop c' hcut).1 c hmem
  unfold Prog.rescue
  cases hr : (body s).result with
  | ok a =>
      simp only [hr] at hresult ⊢
      exact ⟨List.forall_mem_append.mpr ⟨hpassed, hcuts⟩, hresult⟩
  | error e =>
      simp only [hr] at hresult ⊢
      obtain ⟨hp, he⟩ := hstop _ hresult
      refine ⟨List.forall_mem_append.mpr ⟨List.forall_mem_append.mpr ⟨hpassed, hcuts⟩, hp⟩, ?_⟩
      cases hh : (handler (body s).state).result <;> simpa [hh] using he

/-- A safe program leaves `C` behind wherever it stops or ends. -/
theorem Safe.stops {prog : Prog σ ε α} (h : prog.Safe P Q C) (hPC : ∀ s, P s → C s)
    (hQC : ∀ a s, Q a s → C s) {s c : σ} (hs : P s) (hc : c ∈ prog.stops s) : C c := by
  obtain ⟨hpassed, hend⟩ := h s hs
  simp only [Prog.stops, List.cons_append, List.mem_cons, List.mem_append,
    List.not_mem_nil, or_false] at hc
  rcases hc with rfl | hc | rfl
  · exact hPC c hs
  · exact hpassed c hc
  · cases hr : (prog s).result with
    | ok a =>
        simp only [hr] at hend
        exact hQC a _ hend
    | error e =>
        simp only [hr] at hend
        exact hend

end Prog
