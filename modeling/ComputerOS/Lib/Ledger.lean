import Mathlib.Data.List.Perm.Basic
import Mathlib.Data.List.Nodup
import Mathlib.Logic.Function.Basic

/-!
Holders with lists of what they hold. Each thing that is held is live and in one list, once. A
holder takes things that were not live, and gives back what it holds; the others never notice.
-/
namespace ComputerOS

open Function

variable {ι α : Type*} {alive alive' others : α → Prop} {held held' : List α} {a : α}

/-- One holder beside others. -/
structure Ledger (alive others : α → Prop) (held : List α) : Prop where
  nodup : held.Nodup
  live : ∀ a ∈ held, alive a
  kept : ∀ a, others a → alive a
  apart : ∀ a ∈ held, ¬ others a

namespace Ledger

theorem empty (h : ∀ a, others a → alive a) : Ledger alive others [] where
  nodup := List.nodup_nil
  live a ha := by cases ha
  kept := h
  apart a ha := by cases ha

/-- Something that was not live is taken. -/
theorem take (h : Ledger alive others held) (ha : ¬ alive a) (hlive : ∀ b, alive b → alive' b) (ha' : alive' a)
    (hheld : held'.Perm (a :: held)) : Ledger alive' others held' := by
  have hnot : a ∉ held := fun hmem => ha (h.live a hmem)
  refine ⟨hheld.nodup_iff.mpr (List.nodup_cons.mpr ⟨hnot, h.nodup⟩), fun b hb => ?_,
    fun b hb => hlive b (h.kept b hb), fun b hb => ?_⟩
  · rcases List.mem_cons.mp (hheld.mem_iff.mp hb) with rfl | hmem
    · exact ha'
    · exact hlive b (h.live b hmem)
  · rcases List.mem_cons.mp (hheld.mem_iff.mp hb) with rfl | hmem
    · exact fun hother => ha (h.kept b hother)
    · exact h.apart b hmem

/-- What the others hold is live after everything held was given back. -/
theorem release (h : Ledger alive others held) (hlive : ∀ a, alive a → a ∉ held → alive' a) (a : α) (ha : others a) :
    alive' a :=
  hlive a (h.kept a ha) fun hmem => h.apart a hmem ha

end Ledger

/-- The holders `i` with their lists. -/
def Ledgers (alive : α → Prop) (held : ι → List α) : Prop :=
  ∀ i, Ledger alive (fun a => ∃ j, j ≠ i ∧ a ∈ held j) (held i)

namespace Ledgers

variable {held : ι → List α} {held' : List α} {i j : ι}

theorem live (h : Ledgers alive held) (ha : a ∈ held i) : alive a := (h i).live a ha

theorem apart (h : Ledgers alive held) (hij : i ≠ j) (hi : a ∈ held i) : a ∉ held j :=
  fun hj => (h i).apart a hi ⟨j, hij.symm, hj⟩

/-- A new holder beside all of these. -/
theorem beside (h : Ledgers alive held) : Ledger alive (fun a => ∃ j, a ∈ held j) [] :=
  .empty fun _ ⟨_, hj⟩ => h.live hj

theorem mono (h : Ledgers alive held) (hlive : ∀ i, ∀ a ∈ held i, alive' a) : Ledgers alive' held := fun i =>
  ⟨(h i).nodup, hlive i, fun a ⟨j, _, ha⟩ => hlive j a ha, (h i).apart⟩

/-- One list changes. -/
theorem put [DecidableEq ι] (h : Ledgers alive held) (hi : Ledger alive' (fun a => ∃ j, j ≠ i ∧ a ∈ held j) held') :
    Ledgers alive' (update held i held') := by
  intro j
  by_cases hji : j = i
  · subst hji
    rw [update_self]
    refine ⟨hi.nodup, hi.live, fun a ⟨k, hk, ha⟩ => ?_, fun a ha ⟨k, hk, hak⟩ => ?_⟩
    · rw [update_of_ne hk] at ha
      exact hi.kept a ⟨k, hk, ha⟩
    · rw [update_of_ne hk] at hak
      exact hi.apart a ha ⟨k, hk, hak⟩
  · rw [update_of_ne hji]
    refine ⟨(h j).nodup, fun a ha => hi.kept a ⟨j, hji, ha⟩, fun a ⟨k, hk, ha⟩ => ?_, fun a ha ⟨k, hk, hak⟩ => ?_⟩
    · by_cases hki : k = i
      · subst hki
        rw [update_self] at ha
        exact hi.live a ha
      · rw [update_of_ne hki] at ha
        exact hi.kept a ⟨k, hki, ha⟩
    · by_cases hki : k = i
      · subst hki
        rw [update_self] at hak
        exact hi.apart a hak ⟨j, hji, ha⟩
      · rw [update_of_ne hki] at hak
        exact (h j).apart a ha ⟨k, hk, hak⟩

/-- One holder gives everything back and another list takes its place. -/
theorem replace [DecidableEq ι] {mid : α → Prop} (h : Ledgers alive held)
    (hnew : Ledger mid (fun a => ∃ j, a ∈ held j) held') (hlive : ∀ a, mid a → a ∉ held i → alive' a) :
    Ledgers alive' (update held i held') := by
  refine h.put ⟨hnew.nodup, fun a ha => ?_, fun a ⟨j, hj, ha⟩ => ?_, fun a ha ⟨j, _, hj⟩ => hnew.apart a ha ⟨j, hj⟩⟩
  · exact hlive a (hnew.live a ha) fun hmem => hnew.apart a ha ⟨i, hmem⟩
  · exact hlive a (hnew.kept a ⟨j, ha⟩) (h.apart hj ha)

end Ledgers

end ComputerOS
