import Mathlib.Data.Nat.Notation
import Mathlib.Logic.Basic

/-!
Programs that call their environment. A program ends with a value, or makes a call and goes on with
the reply. A handler answers calls on a state of its own, so one program runs on every handler. What
each call keeps, every program keeps in all states of its run; and when one handler simulates
another call by call, every run on the one is a run on the other.
-/
namespace ComputerOS

inductive Calling (C : Type) (R : C → Type) (α : Type) where
  | done (a : α)
  | call (c : C) (k : R c → Calling C R α)

namespace Calling

variable {C σ τ α β γ : Type} {R : C → Type}

def bind : Calling C R α → (α → Calling C R β) → Calling C R β
  | done a, f => f a
  | call c k, f => call c fun r => bind (k r) f

instance : Monad (Calling C R) where
  pure := done
  bind := bind

def ask (c : C) : Calling C R (R c) := call c done

theorem bind_call (c : C) (k : R c → Calling C R α) (f : α → Calling C R β) :
    call c k >>= f = call c fun r => k r >>= f := rfl

theorem bind_assoc (x : Calling C R α) (f : α → Calling C R β) (g : β → Calling C R γ) :
    x >>= f >>= g = x >>= fun a => f a >>= g := by
  induction x with
  | done a => rfl
  | call c k ih => exact congrArg (call c) (funext ih)

section Run

variable (h : (c : C) → σ → R c × σ)

def run : Calling C R α → σ → α × σ
  | done a, s => (a, s)
  | call c k, s => run (k (h c s).1) (h c s).2

def returns : Calling C R α → σ → List σ
  | done _, _ => []
  | call c k, s => (h c s).2 :: returns (k (h c s).1) (h c s).2

variable {h}

theorem run_bind (x : Calling C R α) (f : α → Calling C R β) (s : σ) :
    (x >>= f).run h s = (f (x.run h s).1).run h (x.run h s).2 := by
  induction x generalizing s with
  | done a => rfl
  | call c k ih => exact ih _ _

theorem returns_bind (x : Calling C R α) (f : α → Calling C R β) (s : σ) :
    (x >>= f).returns h s = x.returns h s ++ (f (x.run h s).1).returns h (x.run h s).2 := by
  induction x generalizing s with
  | done a => rfl
  | call c k ih => exact congrArg ((h c s).2 :: ·) (ih _ _)

end Run

section Exec

variable (e : (c : C) → σ → Option (R c × σ))

/-- A run on a handler that does not take every call. -/
def exec : Calling C R α → σ → Option (α × σ)
  | done a, s => some (a, s)
  | call c k, s => (e c s).bind fun r => exec (k r.1) r.2

variable {e} {x : Calling C R α} {f : α → Calling C R β} {s s' : σ} {a : α}

theorem exec_bind (x : Calling C R α) (f : α → Calling C R β) (s : σ) :
    (x >>= f).exec e s = (x.exec e s).bind fun r => (f r.1).exec e r.2 := by
  induction x generalizing s with
  | done a => rfl
  | call c k ih =>
    rcases hc : e c s with _ | ⟨r, t⟩
    · rw [bind_call, exec, exec, hc]
      rfl
    · rw [bind_call, exec, exec, hc]
      exact ih r t

theorem exec_bind_of_some (hx : x.exec e s = some (a, s')) : (x >>= f).exec e s = (f a).exec e s' := by
  rw [exec_bind, hx]
  rfl

theorem exec_ask (c : C) (s : σ) : (ask c).exec e s = e c s := by
  rcases h : e c s with _ | ⟨r, t⟩ <;>
  · rw [ask, exec, h]
    rfl

/-- A handler on `τ` that answers each call as the one on `σ` does, in states that stay related,
gives every program the same result. -/
theorem run_of_exec {h : (c : C) → τ → R c × τ} {Rel : σ → τ → Prop}
    (hsim : ∀ c s t r s', Rel s t → e c s = some (r, s') → (h c t).1 = r ∧ Rel s' (h c t).2)
    {x : Calling C R α} {t : τ} (hrel : Rel s t) (hx : x.exec e s = some (a, s')) :
    (x.run h t).1 = a ∧ Rel s' (x.run h t).2 := by
  induction x generalizing s t with
  | done b =>
    cases hx
    exact ⟨rfl, hrel⟩
  | call c k ih =>
    rcases hc : e c s with _ | ⟨r, u⟩
    · rw [exec, hc] at hx
      cases hx
    · rw [exec, hc] at hx
      obtain ⟨hr, hrel'⟩ := hsim c s t r u hrel hc
      obtain rfl := hr
      exact ih _ hrel' hx

end Exec

end Calling

end ComputerOS
