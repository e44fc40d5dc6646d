import Mathlib.Tactic
import Mountin.Basic.Raising

set_option autoImplicit false

/-! # Checked arithmetic

A computation on words of `w` bits whose sums, products, differences, quotients and slices can
fault, beside errors of its own.

* `Checked.Settles` : a computation faults exactly when a condition fails, and otherwise does what
  one without checks does.
* `Settles.bind`, `Settles.lift`, `Settles.congr` : the rules for such conditions.
* `add_eq`, `mul_eq`, `sub_eq`, `div_eq`, `slice_eq` : operations that cannot fault.
-/

/-- Why a computation stops: an error of its own, or a fault of the arithmetic. -/
inductive Stop (ε : Type) where
  | error (e : ε)
  | fault

/-- A computation with checked arithmetic. -/
abbrev Checked (ε α : Type) := Except (Stop ε) α

namespace Checked

variable {ε α β : Type}

/-- A computation without arithmetic. -/
def lift : Except ε α → Checked ε α
  | .ok a => .ok a
  | .error e => .error (.error e)

theorem lift_bind (y : Except ε α) (w : α → Except ε β) :
    lift (y >>= w) = lift y >>= fun a => lift (w a) := by
  cases y <;> rfl

/-- A loop without faults. -/
theorem forM_eq {l : List α} {f : α → Checked ε PUnit} {g : α → Except ε PUnit}
    (h : ∀ a ∈ l, f a = lift (g a)) : l.forM f = lift (l.forM g) := by
  induction l with
  | nil => rfl
  | cons a rest ih =>
      have hrest := ih fun b hb => h b (List.mem_cons_of_mem _ hb)
      show (f a >>= fun _ => rest.forM f) = lift (g a >>= fun _ => rest.forM g)
      rw [h a List.mem_cons_self, hrest, lift_bind]

/-- A result under a condition that is checked. -/
def ensure (p : Prop) [Decidable p] (a : α) : Checked ε α := if p then .ok a else .error .fault

def add (w a b : Nat) : Checked ε Nat := ensure (a + b < 2 ^ w) (a + b)
def mul (w a b : Nat) : Checked ε Nat := ensure (a * b < 2 ^ w) (a * b)
def sub (a b : Nat) : Checked ε Nat := ensure (b ≤ a) (a - b)
def div (a b : Nat) : Checked ε Nat := ensure (0 < b) (a / b)
def mod (a b : Nat) : Checked ε Nat := ensure (0 < b) (a % b)

/-- The element at an index. -/
def index (l : List α) (i : Nat) : Checked ε α :=
  match l[i]? with
  | some a => .ok a
  | none => .error .fault

/-- `b[off..][..len]`. -/
def slice (b : List α) (off len : Nat) : Checked ε (List α) :=
  ensure (off + len ≤ b.length) ((b.drop off).take len)

theorem ensure_eq {p : Prop} [Decidable p] (a : α) (h : p) : (ensure p a : Checked ε α) = .ok a :=
  if_pos h

section

variable {w a b : Nat}

theorem add_eq (h : a + b < 2 ^ w) : (add w a b : Checked ε Nat) = .ok (a + b) := ensure_eq _ h
theorem mul_eq (h : a * b < 2 ^ w) : (mul w a b : Checked ε Nat) = .ok (a * b) := ensure_eq _ h
theorem sub_eq (h : b ≤ a) : (sub a b : Checked ε Nat) = .ok (a - b) := ensure_eq _ h
theorem div_eq (h : 0 < b) : (div a b : Checked ε Nat) = .ok (a / b) := ensure_eq _ h
theorem mod_eq (h : 0 < b) : (mod a b : Checked ε Nat) = .ok (a % b) := ensure_eq _ h

end

theorem index_eq {l : List α} {i : Nat} {a : α} (h : l[i]? = some a) :
    (index l i : Checked ε α) = .ok a := by
  rw [index, h]

theorem slice_eq {b : List α} {off len : Nat} (h : off + len ≤ b.length) :
    (slice b off len : Checked ε (List α)) = .ok ((b.drop off).take len) := ensure_eq _ h

/-- The computation `x` faults exactly when `c` fails, and otherwise does what `y` does. -/
structure Settles (c : Prop) (y : Except ε α) (x : Checked ε α) : Prop where
  agrees : c → x = lift y
  faults : ¬ c → x = .error .fault

/-- A computation faults unless the condition holds. -/
theorem Settles.safe_iff {c : Prop} {y : Except ε α} {x : Checked ε α} (h : Settles c y x) :
    x ≠ .error .fault ↔ c := by
  refine ⟨fun hx => ?_, fun hc hx => ?_⟩
  · by_contra hc
    exact hx (h.faults hc)
  · rw [h.agrees hc] at hx
    cases y <;> cases hx

/-- A computation that returned did not fault. -/
theorem Settles.of_ok {c : Prop} {y : Except ε α} {x : Checked ε α} (h : Settles c y x) {a : α}
    (ha : x = .ok a) : c ∧ y = .ok a := by
  have hc : c := h.safe_iff.mp (by rintro hfault; cases ha.symm.trans hfault)
  rw [h.agrees hc] at ha
  cases y with
  | error e => cases ha
  | ok b => exact ⟨hc, congrArg _ (Except.ok.inj ha)⟩

theorem Settles.congr {c d : Prop} {y : Except ε α} {x : Checked ε α} (h : Settles c y x)
    (hcd : c ↔ d) : Settles d y x :=
  ⟨fun hd => h.agrees (hcd.mpr hd), fun hd => h.faults (mt hcd.mp hd)⟩

theorem Settles.ok (a : α) : Settles True (.ok a : Except ε α) (.ok a) :=
  ⟨fun _ => rfl, fun h => absurd trivial h⟩

theorem Settles.lift (y : Except ε α) : Settles True y (Checked.lift y) :=
  ⟨fun _ => rfl, fun h => absurd trivial h⟩

/-- What is not executed cannot fault. -/
theorem Settles.of_true {c : Prop} {y : Except ε α} {x : Checked ε α} (h : Settles True y x)
    (hc : c) : Settles c y x := h.congr (iff_of_true trivial hc)

theorem settles_ensure (p : Prop) [Decidable p] (a : α) :
    Settles p (.ok a : Except ε α) (ensure p a) :=
  ⟨fun h => if_pos h, fun h => if_neg h⟩

/-- A sequence faults when its first part does, or the rest of it does on its result. -/
theorem Settles.bind {c : Prop} {d : α → Prop} {y : Except ε α} {x : Checked ε α}
    {w : α → Except ε β} {z : α → Checked ε β} (hx : Settles c y x)
    (hz : ∀ a, y = .ok a → Settles (d a) (w a) (z a)) :
    Settles (c ∧ ∀ a, y = .ok a → d a) (y >>= w) (x >>= z) := by
  constructor
  · rintro ⟨hc, hd⟩
    rw [hx.agrees hc]
    cases y with
    | error e => rfl
    | ok a => exact (hz a rfl).agrees (hd a rfl)
  · intro hnot
    by_cases hc : c
    · rw [hx.agrees hc]
      cases y with
      | error e =>
          refine absurd ⟨hc, ?_⟩ hnot
          rintro a ⟨⟩
      | ok a =>
          refine (hz a rfl).faults (fun hd => hnot ⟨hc, ?_⟩)
          rintro a' heq
          rwa [← Except.ok.inj heq]
    · rw [hx.faults hc]
      rfl

/-- A part without arithmetic comes first. -/
theorem Settles.lift_bind {d : α → Prop} (y : Except ε α) {w : α → Except ε β}
    {z : α → Checked ε β} (hz : ∀ a, y = .ok a → Settles (d a) (w a) (z a)) :
    Settles (∀ a, y = .ok a → d a) (y >>= w) (Checked.lift y >>= z) :=
  ((Settles.lift y).bind hz).congr (and_iff_right trivial)

/-- A checked operation comes first. -/
theorem Settles.ensure_bind {p d : Prop} [Decidable p] {a : α} {w : Except ε β}
    {z : α → Checked ε β} (hz : p → Settles d w (z a)) :
    Settles (p ∧ d) w (ensure p a >>= z) := by
  constructor
  · rintro ⟨hp, hd⟩
    rw [ensure_eq a hp]
    exact (hz hp).agrees hd
  · intro hnot
    by_cases hp : p
    · rw [ensure_eq a hp]
      exact (hz hp).faults (fun hd => hnot ⟨hp, hd⟩)
    · rw [ensure, if_neg hp]
      rfl

section

variable {w a b : Nat} {d : Prop} {y : Except ε β} {z : Nat → Checked ε β}

theorem Settles.add_bind (hz : a + b < 2 ^ w → Settles d y (z (a + b))) :
    Settles (a + b < 2 ^ w ∧ d) y (add w a b >>= z) := Settles.ensure_bind hz

theorem Settles.mul_bind (hz : a * b < 2 ^ w → Settles d y (z (a * b))) :
    Settles (a * b < 2 ^ w ∧ d) y (mul w a b >>= z) := Settles.ensure_bind hz

theorem Settles.sub_bind (hz : b ≤ a → Settles d y (z (a - b))) :
    Settles (b ≤ a ∧ d) y (sub a b >>= z) := Settles.ensure_bind hz

end

end Checked
