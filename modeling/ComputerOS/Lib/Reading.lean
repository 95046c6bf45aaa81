import Mathlib.Data.Nat.Notation
import Mathlib.Data.List.Range

/-!
Functions of a buffer of bytes that keep a list of the offsets they read. What such a function
returns depends on the buffer at these offsets only as far as it looks at them; that it stays inside
the first `n` bytes is a property of the list.
-/
namespace ComputerOS

/-- A function of a buffer, and the offsets that it reads there. -/
structure Reading (α : Type) where
  run : (ℕ → UInt8) → List ℕ × α

namespace Reading

variable {α β : Type}

instance : Monad Reading where
  pure a := ⟨fun _ => ([], a)⟩
  bind x f := ⟨fun buf => ((x.run buf).1 ++ ((f (x.run buf).2).run buf).1,
    ((f (x.run buf).2).run buf).2)⟩

def offsets (x : Reading α) (buf : ℕ → UInt8) : List ℕ := (x.run buf).1

/-- What is returned. -/
def value (x : Reading α) (buf : ℕ → UInt8) : α := (x.run buf).2

def byte (p : ℕ) : Reading UInt8 := ⟨fun buf => ([p], buf p)⟩

def bytes (p k : ℕ) : Reading (List UInt8) :=
  ⟨fun buf => ((List.range k).map (p + ·), (List.range k).map fun i => buf (p + i))⟩

def Within (n : ℕ) (x : Reading α) (buf : ℕ → UInt8) : Prop := ∀ p ∈ x.offsets buf, p < n

variable {n p k : ℕ} {buf : ℕ → UInt8} {x y : Reading α} {f : α → Reading β}

@[simp] theorem value_pure (a : α) : (pure a : Reading α).value buf = a := rfl

@[simp] theorem value_bind : (x >>= f).value buf = (f (x.value buf)).value buf := rfl

@[simp] theorem value_byte : (byte p).value buf = buf p := (rfl)

@[simp] theorem value_bytes : (bytes p k).value buf = (List.range k).map fun i => buf (p + i) := rfl

@[simp] theorem value_ite {c : Prop} [Decidable c] :
    (if c then x else y).value buf = if c then x.value buf else y.value buf := by
  split <;> rfl

@[simp] theorem within_pure (a : α) : Within n (pure a : Reading α) buf :=
  fun _ hp => absurd hp List.not_mem_nil

@[simp] theorem within_bind : Within n (x >>= f) buf ↔ Within n x buf ∧ Within n (f (x.value buf)) buf :=
  List.forall_mem_append

@[simp] theorem within_byte : Within n (byte p) buf ↔ p < n :=
  List.forall_mem_singleton

@[simp] theorem within_bytes : Within n (bytes p k) buf ↔ k = 0 ∨ p + k ≤ n := by
  have hmem : ∀ q, q ∈ (bytes p k).offsets buf ↔ ∃ i < k, p + i = q := fun q => by
    simp [offsets, bytes]
  constructor
  · intro h
    rcases k with _ | k
    · exact Or.inl rfl
    · have := h (p + k) ((hmem _).mpr ⟨k, Nat.lt_succ_self k, rfl⟩)
      exact Or.inr (by omega)
  · rintro h q hq
    obtain ⟨i, hi, rfl⟩ := (hmem q).mp hq
    omega

@[simp] theorem within_ite {c : Prop} [Decidable c] :
    Within n (if c then x else y) buf ↔ (c → Within n x buf) ∧ (¬ c → Within n y buf) := by
  split
  · rename_i h
    exact ⟨fun hx => ⟨fun _ => hx, fun hn => absurd h hn⟩, fun hx => hx.1 h⟩
  · rename_i h
    exact ⟨fun hy => ⟨fun hc => absurd hc h, fun _ => hy⟩, fun hy => hy.2 h⟩

end Reading

end ComputerOS
