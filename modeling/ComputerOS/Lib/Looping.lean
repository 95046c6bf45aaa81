import Mathlib.Data.Nat.Notation
import Mathlib.Logic.Basic
import Mathlib.Order.Basic

/-!
Functions on a state that may give up, with loops that need not end. A loop is given a number of
turns, and a run that needs more has no outcome. A function ends from a state when it has an outcome
there; a loop ends when every turn keeps an invariant and lowers a measure.
-/
namespace ComputerOS

/-- A function on `σ`: no outcome, or a result (`none` is giving up) and the state. -/
def Looping (σ α : Type) : Type := σ → Option (Option α × σ)

namespace Looping

variable {σ α β ρ : Type}

def mk (f : σ → Option (Option α × σ)) : Looping σ α := f

def run (x : Looping σ α) (s : σ) : Option (Option α × σ) := x s

instance : Monad (Looping σ) where
  pure a := mk fun s => some (some a, s)
  bind x f := mk fun s =>
    match x.run s with
    | none => none
    | some (none, s') => some (none, s')
    | some (some a, s') => (f a).run s'

def fail : Looping σ α := mk fun s => some (none, s)

def get : Looping σ σ := mk fun s => some (some s, s)

/-- A function that ends and may give up. -/
def lift (f : σ → Option α × σ) : Looping σ α := mk fun s => some (f s)

def modify (f : σ → σ) : Looping σ Unit := lift fun s => (some (), f s)

/-- Give up when `c` is false. -/
def check (c : Bool) : Looping σ Unit := if c then pure () else fail

/-- Turn after turn until the body answers `inr`, at most as many as given; `inl` is what the next
turn is about. -/
def loop (f : β → Looping σ (β ⊕ ρ)) : ℕ → β → Looping σ ρ
  | 0, _ => mk fun _ => none
  | n + 1, b => do
    match ← f b with
    | .inl b => loop f n b
    | .inr r => pure r

theorem bind_run (x : Looping σ α) (f : α → Looping σ β) (s : σ) : (x >>= f).run s = match x.run s with
    | none => none
    | some (none, s') => some (none, s')
    | some (some a, s') => (f a).run s' := rfl

theorem bind_assoc (x : Looping σ α) (f : α → Looping σ β) (h : β → Looping σ ρ) :
    x >>= f >>= h = x >>= fun a => f a >>= h := by
  funext s
  change ((x >>= f) >>= h).run s = (x >>= fun a => f a >>= h).run s
  rw [bind_run, bind_run, bind_run]
  rcases x.run s with _ | ⟨_ | a, s'⟩ <;> rfl

theorem pure_bind (a : α) (f : α → Looping σ β) : (pure a : Looping σ α) >>= f = f a := rfl

/-- From every state with `P` the function has an outcome, and a result `a` comes with `Q a`. -/
def Ends (P : σ → Prop) (x : Looping σ α) (Q : α → σ → Prop) : Prop :=
  ∀ s, P s → ∃ r s', x.run s = some (r, s') ∧ ∀ a, r = some a → Q a s'

namespace Ends

variable {P P' : σ → Prop} {Q R : α → σ → Prop} {S : β → σ → Prop}

theorem pure {a : α} (h : ∀ s, P s → Q a s) : Ends P (Pure.pure a : Looping σ α) Q := by
  refine fun s hs => ⟨some a, s, rfl, fun b hb => ?_⟩
  obtain rfl := Option.some.inj hb
  exact h s hs

theorem fail : Ends P (Looping.fail : Looping σ α) Q := fun s _ => ⟨none, s, rfl, fun _ ha => by cases ha⟩

theorem lift {f : σ → Option α × σ} (h : ∀ s, P s → ∀ a, (f s).1 = some a → Q a (f s).2) :
    Ends P (Looping.lift f) Q := fun s hs => ⟨(f s).1, (f s).2, rfl, h s hs⟩

theorem modify {f : σ → σ} {Q : Unit → σ → Prop} (h : ∀ s, P s → Q () (f s)) : Ends P (Looping.modify f) Q :=
  lift fun s hs _ _ => h s hs

theorem get : Ends P (Looping.get : Looping σ σ) (fun a s => P s ∧ a = s) :=
  fun s hs => ⟨some s, s, rfl, fun _ ha => ⟨hs, (Option.some.inj ha).symm⟩⟩

theorem check {c : Bool} {Q : Unit → σ → Prop} (h : ∀ s, c = true → P s → Q () s) :
    Ends P (Looping.check c : Looping σ Unit) Q := by
  cases c with
  | true => exact pure fun s hs => h s rfl hs
  | false => exact fail

theorem bind {x : Looping σ α} {f : α → Looping σ β} (hx : Ends P x Q) (hf : ∀ a, Ends (Q a) (f a) S) :
    Ends P (x >>= f) S := by
  intro s hs
  obtain ⟨r, s1, hrun, hQ⟩ := hx s hs
  rw [bind_run, hrun]
  cases r with
  | none => exact ⟨none, s1, rfl, fun _ hb => by cases hb⟩
  | some a => exact hf a s1 (hQ a rfl)

theorem mono {x : Looping σ α} (h : Ends P x Q) (hP : ∀ s, P' s → P s) (hQ : ∀ a s, Q a s → R a s) : Ends P' x R := by
  intro s hs
  obtain ⟨r, s', hrun, hr⟩ := h s (hP s hs)
  exact ⟨r, s', hrun, fun a ha => hQ a s' (hr a ha)⟩

/-- A fact that does not depend on the state may be assumed. -/
theorem assume {p : Prop} {x : Looping σ α} (h : p → Ends P x Q) : Ends (fun s => p ∧ P s) x Q :=
  fun s hs => h hs.1 s hs.2

/-- Every state with the property has some value `v`. -/
theorem exists_value {V : Type} (v : σ → V) {x : Looping σ α} (h : ∀ a, Ends (fun s => v s = a ∧ P s) x Q) :
    Ends P x Q := fun s hs => h (v s) s ⟨rfl, hs⟩

theorem loop {f : β → Looping σ (β ⊕ ρ)} {T : ρ → σ → Prop} (I : β → σ → Prop) (m : β → σ → ℕ)
    (hbody : ∀ b n, Ends (fun s => m b s = n ∧ I b s) (f b) fun r s => match r with
      | .inl b' => I b' s ∧ m b' s < n
      | .inr a => T a s) (n : ℕ) (b : β) :
    Ends (fun s => I b s ∧ m b s < n) (Looping.loop f n b) T := by
  induction n generalizing b with
  | zero => exact fun s hs => absurd hs.2 (Nat.not_lt_zero _)
  | succ n ih =>
    rw [Looping.loop]
    refine exists_value (m b) fun k => ?_
    refine bind (Q := fun r s => match r with
      | .inl b' => I b' s ∧ m b' s < n
      | .inr a => T a s) ?_ ?_
    · intro s hs
      obtain ⟨r, s', hrun, hr⟩ := hbody b k s ⟨hs.1, hs.2.1⟩
      refine ⟨r, s', hrun, fun a ha => ?_⟩
      have hk : k ≤ n := by
        have := hs.2.2
        rw [hs.1] at this
        exact Nat.le_of_lt_succ this
      have hpost := hr a ha
      cases a with
      | inl b' => exact ⟨hpost.1, Nat.lt_of_lt_of_le hpost.2 hk⟩
      | inr a => exact hpost
    · intro r
      cases r with
      | inl b' => exact ih b'
      | inr a => exact pure fun s hs => hs

end Ends

/-- A loop whose turns all keep `I` and go on has no outcome. -/
theorem loop_endless {f : β → Looping σ (β ⊕ ρ)} {I : β → σ → Prop}
    (hbody : ∀ b s, I b s → ∃ b' s', (f b).run s = some (some (.inl b'), s') ∧ I b' s') (n : ℕ)
    {b : β} {s : σ} (h : I b s) :
    (loop f n b).run s = none := by
  induction n generalizing b s with
  | zero => rfl
  | succ n ih =>
    obtain ⟨b', s', hrun, h'⟩ := hbody b s h
    rw [loop, bind_run, hrun]
    exact ih h'

/-- Whatever the state, the function does not give up. -/
def NeverFails (x : Looping σ α) : Prop := ∀ s s', x.run s ≠ some (none, s')

namespace NeverFails

theorem pure (a : α) : NeverFails (Pure.pure a : Looping σ α) := fun _ _ h => by cases h

theorem get : NeverFails (Looping.get : Looping σ σ) := fun _ _ h => by cases h

theorem lift {f : σ → Option α × σ} (h : ∀ s, (f s).1 ≠ none) : NeverFails (Looping.lift f) :=
  fun s _ hrun => h s (congrArg Prod.fst (Option.some.inj hrun))

theorem modify (f : σ → σ) : NeverFails (Looping.modify f) := lift fun _ => Option.some_ne_none _

theorem bind {x : Looping σ α} {f : α → Looping σ β} (hx : NeverFails x)
    (hf : ∀ a, NeverFails (f a)) : NeverFails (x >>= f) := by
  intro s s' hrun
  rw [bind_run] at hrun
  rcases hfirst : x.run s with _ | ⟨_ | a, s₁⟩
  · rw [hfirst] at hrun
    cases hrun
  · exact hx s s₁ hfirst
  · rw [hfirst] at hrun
    exact hf a s₁ s' hrun

theorem loop {f : β → Looping σ (β ⊕ ρ)} (hf : ∀ b, NeverFails (f b)) (n : ℕ) (b : β) :
    NeverFails (Looping.loop f n b) := by
  induction n generalizing b with
  | zero => exact fun _ _ h => by cases h
  | succ n ih =>
    rw [Looping.loop]
    refine (hf b).bind fun r => ?_
    cases r with
    | inl b' => exact ih b'
    | inr a => exact pure a

end NeverFails

/-- The outcome with some number of turns is the outcome with any larger number. -/
def Steady (x : ℕ → Looping σ α) : Prop := ∀ n m s r, n ≤ m → (x n).run s = some r → (x m).run s = some r

namespace Steady

theorem const (x : Looping σ α) : Steady fun _ => x := fun _ _ _ _ _ h => h

theorem bind {x : ℕ → Looping σ α} {f : ℕ → α → Looping σ β} (hx : Steady x) (hf : ∀ a, Steady fun n => f n a) :
    Steady fun n => x n >>= f n := by
  intro n m s r hle hrun
  rw [bind_run] at hrun ⊢
  rcases hfirst : (x n).run s with _ | ⟨_ | a, s'⟩
  · rw [hfirst] at hrun
    cases hrun
  · rw [hfirst] at hrun
    rw [hx n m s _ hle hfirst]
    exact hrun
  · rw [hfirst] at hrun
    rw [hx n m s _ hle hfirst]
    exact hf a n m s' r hle hrun

theorem ite {c : Prop} [Decidable c] {x y : ℕ → Looping σ α} (hx : Steady x) (hy : Steady y) :
    Steady fun n => if c then x n else y n := by
  by_cases h : c
  · simpa only [if_pos h] using hx
  · simpa only [if_neg h] using hy

/-- A loop whose turns are steady is, with as many turns as its body has. -/
theorem loop {f : ℕ → β → Looping σ (β ⊕ ρ)} (hbody : ∀ b, Steady fun n => f n b) (b : β) :
    Steady fun n => Looping.loop (f n) n b := by
  have hall : ∀ k k' n m b s r, k ≤ k' → n ≤ m → (Looping.loop (f n) k b).run s = some r →
      (Looping.loop (f m) k' b).run s = some r := by
    intro k
    induction k with
    | zero =>
      intro k' n m b s r _ _ hrun
      cases hrun
    | succ k ih =>
      intro k' n m b s r hk hle hrun
      obtain ⟨k', rfl⟩ : ∃ j, k' = j + 1 := ⟨k' - 1, by omega⟩
      rw [Looping.loop, bind_run] at hrun ⊢
      rcases hfirst : (f n b).run s with _ | ⟨_ | a, s'⟩
      · rw [hfirst] at hrun
        cases hrun
      · rw [hfirst] at hrun
        rw [hbody b n m s _ hle hfirst]
        exact hrun
      · rw [hfirst] at hrun
        rw [hbody b n m s _ hle hfirst]
        cases a with
        | inl b' => exact ih k' n m b' s' r (by omega) hle hrun
        | inr a => exact hrun
  exact fun n m s r hle => hall n m n m b s r hle hle

end Steady

/-- With enough turns, the function returns `a`. -/
def Returns (x : ℕ → Looping σ α) (s : σ) (a : α) (s' : σ) : Prop := ∃ N, ∀ n, N ≤ n → (x n).run s = some (some a, s')

/-- With enough turns, and enough for those inside its body, the loop returns `r`. -/
def LoopReturns (f : ℕ → β → Looping σ (β ⊕ ρ)) (b : β) (s : σ) (r : ρ) (s' : σ) : Prop :=
  ∃ N, ∀ n k, N ≤ n → N ≤ k → (loop (f n) k b).run s = some (some r, s')

namespace Returns

variable {s s₁ s' : σ} {a : α} {b : β}

theorem of_run {x : Looping σ α} (h : x.run s = some (some a, s')) : Returns (fun _ => x) s a s' := ⟨0, fun _ _ => h⟩

theorem pure (a : α) (s : σ) : Returns (fun _ => (Pure.pure a : Looping σ α)) s a s := of_run rfl

theorem bind {x : ℕ → Looping σ α} {f : ℕ → α → Looping σ β} (hx : Returns x s a s₁)
    (hf : Returns (fun n => f n a) s₁ b s') :
    Returns (fun n => x n >>= f n) s b s' := by
  obtain ⟨N, hx⟩ := hx
  obtain ⟨M, hf⟩ := hf
  refine ⟨N + M, fun n hn => ?_⟩
  rw [bind_run, hx n (by omega)]
  exact hf n (by omega)

/-- What a steady function returns with enough turns, it returns whenever it has an outcome. -/
theorem run_eq {x : ℕ → Looping σ α} (h : Returns x s a s') (hx : Steady x) {n : ℕ}
    {r : Option α × σ} (hrun : (x n).run s = some r) :
    r = (some a, s') := by
  obtain ⟨N, h⟩ := h
  have hmore := hx n (n + N) s r (by omega) hrun
  rw [h _ (by omega)] at hmore
  exact (Option.some.inj hmore).symm

end Returns

namespace LoopReturns

variable {f : ℕ → β → Looping σ (β ⊕ ρ)} {b b' : β} {s s₁ s' : σ} {r : ρ}

theorem stop (h : Returns (fun n => f n b) s (.inr r) s') : LoopReturns f b s r s' := by
  obtain ⟨N, h⟩ := h
  refine ⟨N + 1, fun n k hn hk => ?_⟩
  obtain ⟨k, rfl⟩ : ∃ j, k = j + 1 := ⟨k - 1, by omega⟩
  rw [loop, bind_run, h n (by omega)]
  rfl

theorem turn (h : Returns (fun n => f n b) s (.inl b') s₁) (hrest : LoopReturns f b' s₁ r s') :
    LoopReturns f b s r s' := by
  obtain ⟨N, h⟩ := h
  obtain ⟨M, hrest⟩ := hrest
  refine ⟨N + M + 1, fun n k hn hk => ?_⟩
  obtain ⟨k, rfl⟩ : ∃ j, k = j + 1 := ⟨k - 1, by omega⟩
  rw [loop, bind_run, h n (by omega)]
  exact hrest n k (by omega) (by omega)

theorem returns (h : LoopReturns f b s r s') : Returns (fun n => loop (f n) n b) s r s' := by
  obtain ⟨N, h⟩ := h
  exact ⟨N, fun n hn => h n n hn hn⟩

end LoopReturns

end Looping

end ComputerOS
