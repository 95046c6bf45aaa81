import Mathlib.Data.Nat.Notation
import Mathlib.Logic.Basic

/-!
Functions on a state that may give up. Giving up keeps the changes made so far, as a C function
does that returns an error code. A triple has a postcondition for a value returned and one for
giving up.
-/
namespace ComputerOS

/-- A function on `σ`; `none` is giving up. -/
def Fallible (σ α : Type) : Type := σ → Option α × σ

namespace Fallible

variable {σ α β : Type}

def mk (f : σ → Option α × σ) : Fallible σ α := f

def run (x : Fallible σ α) (s : σ) : Option α × σ := x s

instance : Monad (Fallible σ) where
  pure a := mk fun s => (some a, s)
  bind x f := mk fun s =>
    match x.run s with
    | (some a, s') => (f a).run s'
    | (none, s') => (none, s')

def fail : Fallible σ α := mk fun s => (none, s)

def get : Fallible σ σ := mk fun s => (some s, s)

def modify (f : σ → σ) : Fallible σ Unit := mk fun s => (some (), f s)

/-- Run `x` and hand its result to the caller, who decides what giving up means. -/
def attempt (x : Fallible σ α) : Fallible σ (Option α) := mk fun s => (some (x.run s).1, (x.run s).2)

/-- Do `f` for one item after the other, each with its own answers of the environment, until one
gives up. -/
def each {ε : Type} (f : ε → β → Fallible σ Unit) (env : ℕ → ε) : List β → Fallible σ Unit
  | [] => pure ()
  | b :: l => do
    f (env 0) b
    each f (fun i => env (i + 1)) l

/-- Give up when `c` is false. -/
def check (c : Bool) : Fallible σ Unit := if c then pure () else fail

theorem bind_run (x : Fallible σ α) (f : α → Fallible σ β) (s : σ) :
    (x >>= f).run s = match x.run s with
      | (some a, s') => (f a).run s'
      | (none, s') => (none, s') := rfl

theorem bind_of_some {x : Fallible σ α} {f : α → Fallible σ β} {s s' : σ} {a : α} (h : x.run s = (some a, s')) :
    (x >>= f).run s = (f a).run s' := by
  rw [bind_run, h]

theorem bind_eq_some {x : Fallible σ α} {f : α → Fallible σ β} {s s' : σ} {b : β} (h : (x >>= f).run s = (some b, s')) :
    ∃ a s₁, x.run s = (some a, s₁) ∧ (f a).run s₁ = (some b, s') := by
  rw [bind_run] at h
  rcases hx : x.run s with ⟨_ | a, s₁⟩
  · rw [hx] at h
    cases h
  · rw [hx] at h
    exact ⟨a, s₁, rfl, h⟩

/-- From every state with `P`, a run of `x` that returns `a` ends with `Q a`, and one that gives
up ends with `E`. -/
def Triple (P : σ → Prop) (x : Fallible σ α) (Q : α → σ → Prop) (E : σ → Prop) : Prop :=
  ∀ s, P s → (∀ a, (x.run s).1 = some a → Q a (x.run s).2) ∧ ((x.run s).1 = none → E (x.run s).2)

namespace Triple

variable {P P' E E' : σ → Prop} {Q R : α → σ → Prop} {S : β → σ → Prop}

theorem pure {a : α} (h : ∀ s, P s → Q a s) : Triple P (Pure.pure a : Fallible σ α) Q E := by
  refine fun s hs => ⟨fun b hb => ?_, fun hb => by cases hb⟩
  obtain rfl := Option.some.inj hb
  exact h s hs

theorem fail (h : ∀ s, P s → E s) : Triple P (Fallible.fail : Fallible σ α) Q E :=
  fun s hs => ⟨fun _ ha => (by cases ha), fun _ => h s hs⟩

theorem bind {x : Fallible σ α} {f : α → Fallible σ β} (hx : Triple P x Q E) (hf : ∀ a, Triple (Q a) (f a) S E) :
    Triple P (x >>= f) S E := by
  intro s hs
  obtain ⟨h1, h2⟩ := hx s hs
  rw [bind_run]
  rcases hrun : x.run s with ⟨_ | a, s1⟩
  · rw [hrun] at h2
    exact ⟨fun b hb => (by cases hb), fun _ => h2 rfl⟩
  · rw [hrun] at h1
    exact hf a s1 (h1 a rfl)

theorem mono {x : Fallible σ α} (h : Triple P x Q E) (hP : ∀ s, P' s → P s) (hQ : ∀ a s, Q a s → R a s)
    (hE : ∀ s, E s → E' s) : Triple P' x R E' :=
  fun s hs => ⟨fun a ha => hQ a _ ((h s (hP s hs)).1 a ha), fun hn => hE _ ((h s (hP s hs)).2 hn)⟩

theorem attempt {x : Fallible σ α} (h : Triple P x Q E) :
    Triple P (Fallible.attempt x) (fun r s => (∃ a, r = some a ∧ Q a s) ∨ r = none ∧ E s) E' := by
  refine fun s hs => ⟨fun r hr => ?_, fun hn => by cases hn⟩
  obtain rfl := Option.some.inj hr
  rcases hval : (x.run s).1 with _ | a
  · exact Or.inr ⟨rfl, (h s hs).2 hval⟩
  · exact Or.inl ⟨a, rfl, (h s hs).1 a hval⟩

theorem get : Triple P (Fallible.get : Fallible σ σ) (fun a s => P s ∧ a = s) E :=
  fun _ hs => ⟨fun _ ha => ⟨hs, (Option.some.inj ha).symm⟩, fun hn => by cases hn⟩

theorem modify {f : σ → σ} {Q : Unit → σ → Prop} (h : ∀ s, P s → Q () (f s)) :
    Triple P (Fallible.modify f) Q E :=
  fun s hs => ⟨fun _ _ => h s hs, fun hn => by cases hn⟩

theorem check {c : Bool} {Q : Unit → σ → Prop} (h : ∀ s, c = true → P s → Q () s) (hE : ∀ s, P s → E s) :
    Triple P (Fallible.check c : Fallible σ Unit) Q E := by
  cases c with
  | true => exact pure fun s hs => h s rfl hs
  | false => exact fail hE

/-- An invariant of the loop says what holds with the items still to come. -/
theorem each {ε : Type} {f : ε → β → Fallible σ Unit} {I : List β → σ → Prop} (ok : ε → Prop)
    (hstep : ∀ e b l, ok e → Triple (I (b :: l)) (f e b) (fun _ => I l) E) (l : List β) {env : ℕ → ε}
    (henv : ∀ i, ok (env i)) : Triple (I l) (Fallible.each f env l) (fun _ => I []) E := by
  induction l generalizing env with
  | nil => exact pure fun _ hs => hs
  | cons b l ih => exact bind (hstep (env 0) b l (henv 0)) fun _ => ih fun i => henv (i + 1)

theorem each_keeps {ε : Type} {f : ε → β → Fallible σ Unit} {I : σ → Prop} (ok : ε → Prop) {l : List β}
    (hstep : ∀ e, ok e → ∀ b ∈ l, Triple I (f e b) (fun _ => I) E) {env : ℕ → ε} (henv : ∀ i, ok (env i)) :
    Triple I (Fallible.each f env l) (fun _ => I) E := by
  induction l generalizing env with
  | nil => exact pure fun _ hs => hs
  | cons b l ih =>
    refine bind (hstep (env 0) (henv 0) b (List.mem_cons_self ..)) fun _ => ?_
    exact ih (fun e he c hc => hstep e he c (List.mem_cons_of_mem _ hc)) fun i => henv (i + 1)

/-- A fact that does not depend on the state may be assumed. -/
theorem assume {p : Prop} {x : Fallible σ α} (h : p → Triple P x Q E) : Triple (fun s => p ∧ P s) x Q E :=
  fun s hs => h hs.1 s hs.2

end Triple

end Fallible

end ComputerOS
