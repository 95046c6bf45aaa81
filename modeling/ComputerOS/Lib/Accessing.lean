import Mathlib.Data.Nat.Notation
import Mathlib.Logic.Basic

/-!
Programs as the accesses that they make to a memory of bytes. What a load finds and whether an
access faults is up to the memory, and a program may ask for any other number that its surroundings
know. A property of a program is one of all its runs: every address that it accesses is allowed, and
every value that it returns is as it should be.
-/
namespace ComputerOS

/-- A program with addresses in `A`. A load that faults finds nothing. -/
inductive Accessing (A α : Type) : Type
  | ret (a : α)
  | halt
  | ask (k : ℕ → Accessing A α)
  | load (p : A) (k : Option UInt8 → Accessing A α)
  | store (p : A) (k : Bool → Accessing A α)

/-- The bytes that a load may find, and the addresses at which a store may succeed. -/
structure ByteMem (A : Type) where
  reads : A → UInt8 → Prop
  writes : A → Prop

namespace Accessing

variable {A α β : Type}

def bind : Accessing A α → (α → Accessing A β) → Accessing A β
  | ret a, f => f a
  | halt, _ => halt
  | ask k, f => ask fun n => (k n).bind f
  | load p k, f => load p fun b => (k b).bind f
  | store p k, f => store p fun r => (k r).bind f

instance : Monad (Accessing A) where
  pure := ret
  bind := bind

/-- In every run of `x` all accesses are at addresses with `ok`, and the value returned has `Q`. -/
def All (mem : ByteMem A) (ok : A → Prop) : Accessing A α → (α → Prop) → Prop
  | ret a, Q => Q a
  | halt, _ => True
  | ask k, Q => ∀ n, All mem ok (k n) Q
  | load p k, Q => ok p ∧ All mem ok (k none) Q ∧ ∀ b, mem.reads p b → All mem ok (k (some b)) Q
  | store p k, Q => ok p ∧ All mem ok (k false) Q ∧ (mem.writes p → All mem ok (k true) Q)

/-- Some run of `x` returns `r`. -/
def Returns (mem : ByteMem A) : Accessing A α → α → Prop
  | ret a, r => a = r
  | halt, _ => False
  | ask k, r => ∃ n, Returns mem (k n) r
  | load p k, r => Returns mem (k none) r ∨ ∃ b, mem.reads p b ∧ Returns mem (k (some b)) r
  | store p k, r => Returns mem (k false) r ∨ (mem.writes p ∧ Returns mem (k true) r)

def Only (mem : ByteMem A) (ok : A → Prop) (x : Accessing A α) : Prop := All mem ok x fun _ => True

variable {mem : ByteMem A} {ok : A → Prop} {x y : Accessing A α} {f : α → Accessing A β} {Q R : α → Prop}

@[simp] theorem all_bind {Q : β → Prop} : All mem ok (x >>= f) Q ↔ All mem ok x fun a => All mem ok (f a) Q := by
  change All mem ok (x.bind f) Q ↔ _
  induction x with
  | ret a => exact Iff.rfl
  | halt => exact Iff.rfl
  | ask k ih => exact forall_congr' ih
  | load p k ih => exact and_congr Iff.rfl (and_congr (ih none) (forall_congr' fun b => imp_congr Iff.rfl (ih (some b))))
  | store p k ih => exact and_congr Iff.rfl (and_congr (ih false) (imp_congr Iff.rfl (ih true)))

@[simp] theorem all_ite {c : Prop} [Decidable c] :
    All mem ok (if c then x else y) Q ↔ (c → All mem ok x Q) ∧ (¬ c → All mem ok y Q) := by
  split
  · rename_i h
    exact ⟨fun hx => ⟨fun _ => hx, fun hn => absurd h hn⟩, fun hx => hx.1 h⟩
  · rename_i h
    exact ⟨fun hy => ⟨fun hc => absurd hc h, fun _ => hy⟩, fun hy => hy.2 h⟩

@[simp] theorem returns_pure {a r : α} : Returns mem (pure a) r ↔ a = r := Iff.rfl

@[simp] theorem returns_bind {r : β} : Returns mem (x >>= f) r ↔ ∃ a, Returns mem x a ∧ Returns mem (f a) r := by
  change Returns mem (x.bind f) r ↔ _
  induction x with
  | ret a => exact ⟨fun h => ⟨a, rfl, h⟩, fun ⟨_, ha, h⟩ => ha ▸ h⟩
  | halt => exact ⟨False.elim, fun ⟨_, h, _⟩ => h⟩
  | ask k ih =>
    constructor
    · rintro ⟨n, h⟩
      obtain ⟨a, ha, hr⟩ := (ih n).mp h
      exact ⟨a, ⟨n, ha⟩, hr⟩
    · rintro ⟨a, ⟨n, ha⟩, hr⟩
      exact ⟨n, (ih n).mpr ⟨a, ha, hr⟩⟩
  | load p k ih =>
    constructor
    · rintro (h | ⟨b, hb, h⟩)
      · obtain ⟨a, ha, hr⟩ := (ih none).mp h
        exact ⟨a, Or.inl ha, hr⟩
      · obtain ⟨a, ha, hr⟩ := (ih (some b)).mp h
        exact ⟨a, Or.inr ⟨b, hb, ha⟩, hr⟩
    · rintro ⟨a, ha | ⟨b, hb, ha⟩, hr⟩
      · exact Or.inl ((ih none).mpr ⟨a, ha, hr⟩)
      · exact Or.inr ⟨b, hb, (ih (some b)).mpr ⟨a, ha, hr⟩⟩
  | store p k ih =>
    constructor
    · rintro (h | ⟨hw, h⟩)
      · obtain ⟨a, ha, hr⟩ := (ih false).mp h
        exact ⟨a, Or.inl ha, hr⟩
      · obtain ⟨a, ha, hr⟩ := (ih true).mp h
        exact ⟨a, Or.inr ⟨hw, ha⟩, hr⟩
    · rintro ⟨a, ha | ⟨hw, ha⟩, hr⟩
      · exact Or.inl ((ih false).mpr ⟨a, ha, hr⟩)
      · exact Or.inr ⟨hw, (ih true).mpr ⟨a, ha, hr⟩⟩

theorem All.mono (h : All mem ok x Q) (hQ : ∀ a, Q a → R a) : All mem ok x R := by
  induction x with
  | ret a => exact hQ a h
  | halt => trivial
  | ask k ih => exact fun n => ih n (h n)
  | load p k ih => exact ⟨h.1, ih none h.2.1, fun b hb => ih (some b) (h.2.2 b hb)⟩
  | store p k ih => exact ⟨h.1, ih false h.2.1, fun hw => ih true (h.2.2 hw)⟩

/-- A property of all runs is one of the accesses and one of the values returned. -/
theorem all_iff : All mem ok x Q ↔ Only mem ok x ∧ ∀ r, Returns mem x r → Q r := by
  induction x with
  | ret a => exact ⟨fun h => ⟨trivial, fun r hr => hr ▸ h⟩, fun h => h.2 a rfl⟩
  | halt => exact ⟨fun _ => ⟨trivial, fun _ hr => hr.elim⟩, fun _ => trivial⟩
  | ask k ih =>
    constructor
    · intro h
      exact ⟨fun n => ((ih n).mp (h n)).1, fun r ⟨n, hr⟩ => ((ih n).mp (h n)).2 r hr⟩
    · intro h n
      exact (ih n).mpr ⟨h.1 n, fun r hr => h.2 r ⟨n, hr⟩⟩
  | load p k ih =>
    constructor
    · rintro ⟨hp, hnone, hsome⟩
      refine ⟨⟨hp, ((ih none).mp hnone).1, fun b hb => ((ih (some b)).mp (hsome b hb)).1⟩, fun r hr => ?_⟩
      rcases hr with hr | ⟨b, hb, hr⟩
      · exact ((ih none).mp hnone).2 r hr
      · exact ((ih (some b)).mp (hsome b hb)).2 r hr
    · rintro ⟨⟨hp, hnone, hsome⟩, hr⟩
      exact ⟨hp, (ih none).mpr ⟨hnone, fun r h => hr r (Or.inl h)⟩,
        fun b hb => (ih (some b)).mpr ⟨hsome b hb, fun r h => hr r (Or.inr ⟨b, hb, h⟩)⟩⟩
  | store p k ih =>
    constructor
    · rintro ⟨hp, hfalse, htrue⟩
      refine ⟨⟨hp, ((ih false).mp hfalse).1, fun hw => ((ih true).mp (htrue hw)).1⟩, fun r hr => ?_⟩
      rcases hr with hr | ⟨hw, hr⟩
      · exact ((ih false).mp hfalse).2 r hr
      · exact ((ih true).mp (htrue hw)).2 r hr
    · rintro ⟨⟨hp, hfalse, htrue⟩, hr⟩
      exact ⟨hp, (ih false).mpr ⟨hfalse, fun r h => hr r (Or.inl h)⟩,
        fun hw => (ih true).mpr ⟨htrue hw, fun r h => hr r (Or.inr ⟨hw, h⟩)⟩⟩

/-- A sequence, where the second program runs on the values that the first one may return. -/
theorem only_bind : Only mem ok (x >>= f) ↔ Only mem ok x ∧ ∀ r, Returns mem x r → Only mem ok (f r) :=
  all_bind.trans all_iff

theorem Only.all (h : Only mem ok x) (hQ : ∀ a, Q a) : All mem ok x Q := h.mono fun a _ => hQ a

/-- Rounds `i`, `i + 1`, … of a loop, `n` at most; a round may end the loop with a value. -/
def rounds (f : ℕ → Accessing A (Option α)) : ℕ → ℕ → Accessing A (Option α)
  | 0, _ => pure none
  | n + 1, i => do
    match ← f i with
    | some r => pure (some r)
    | none => rounds f n (i + 1)

theorem only_rounds {f : ℕ → Accessing A (Option α)} (hf : ∀ i, Only mem ok (f i)) (n i : ℕ) :
    Only mem ok (rounds f n i) := by
  induction n generalizing i with
  | zero => trivial
  | succ n ih =>
    refine all_bind.mpr ((hf i).all fun r => ?_)
    cases r with
    | some r => trivial
    | none => exact ih (i + 1)

end Accessing

end ComputerOS
