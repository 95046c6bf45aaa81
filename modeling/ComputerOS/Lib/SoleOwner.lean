import Mathlib.Logic.Function.Basic

/-!
Holders of pointers. In a family of holders where each pointer is live and has one holder, a
holder may drop its pointer or get one to something new; nothing that another holder points to
goes away.
-/
namespace ComputerOS

variable {ι α : Type*} {live live' : α → Prop} {ptr ptr' : ι → Option α} {i : ι}

/-- Every pointer that is held is live and has one holder. -/
structure Sole (live : α → Prop) (ptr : ι → Option α) : Prop where
  live : ∀ i a, ptr i = some a → live a
  one : ∀ i j a, ptr i = some a → ptr j = some a → i = j

namespace Sole

/-- One holder changes: it keeps its pointer, drops it, or gets one that was not live. -/
theorem change (h : Sole live ptr) (hother : ∀ j, j ≠ i → ptr' j = ptr j)
    (hkeep : ∀ j a, j ≠ i → ptr j = some a → live' a)
    (hself : ∀ a, ptr' i = some a → live' a ∧ (ptr i = some a ∨ ¬ live a)) : Sole live' ptr' := by
  have hnew : ∀ j a, j ≠ i → ptr' i = some a → ptr' j ≠ some a := by
    intro j a hj hi hja
    rw [hother j hj] at hja
    rcases (hself a hi).2 with hold | hdead
    · exact hj (h.one j i a hja hold)
    · exact hdead (h.live j a hja)
  refine ⟨fun j a hja => ?_, fun j k a hj hk => ?_⟩
  · by_cases hji : j = i
    · subst hji
      exact (hself a hja).1
    · rw [hother j hji] at hja
      exact hkeep j a hji hja
  · by_cases hji : j = i
    · by_cases hki : k = i
      · rw [hji, hki]
      · exact absurd hk (hnew k a hki (hji ▸ hj))
    · by_cases hki : k = i
      · exact absurd hj (hnew j a hji (hki ▸ hk))
      · rw [hother j hji] at hj
        rw [hother k hki] at hk
        exact h.one j k a hj hk

/-- Holders without a pointer do not matter. -/
theorem mono (h : Sole live ptr) (hptr : ∀ j a, ptr' j = some a → ptr j = some a)
    (hlive : ∀ j a, ptr' j = some a → live' a) :
    Sole live' ptr' :=
  ⟨hlive, fun j k a hj hk => h.one j k a (hptr j a hj) (hptr k a hk)⟩

end Sole

end ComputerOS
