import Mathlib.Data.List.Nodup
import Mathlib.Logic.Function.Basic

/-!
Association lists with a unique entry for every key, as the map from keys to values that they show.
An entry put in at any place, taken out or given another value updates that map at one key and keeps
the keys unique.
-/
namespace ComputerOS.Assoc

open Function

variable {κ β : Type} {l l₁ l₂ : List (κ × β)} {k : κ} {v w : β}

/-- Every key is there once. -/
def Unique (l : List (κ × β)) : Prop := (l.map Prod.fst).Nodup

theorem unique_insert : Unique (l₁ ++ (k, v) :: l₂) ↔ k ∉ (l₁ ++ l₂).map Prod.fst ∧ Unique (l₁ ++ l₂) := by
  unfold Unique
  rw [List.map_append, List.map_cons, List.nodup_middle, List.nodup_cons, ← List.map_append]

variable [DecidableEq κ]

def toMap (l : List (κ × β)) (k : κ) : Option β := l.lookup k

theorem toMap_eq_none : toMap l k = none ↔ k ∉ l.map Prod.fst := by
  unfold toMap
  rw [List.lookup_eq_none_iff, List.mem_map]
  constructor
  · rintro h ⟨e, he, rfl⟩
    simpa using h e he
  · intro h e he
    simpa using fun hk : k = e.1 => h ⟨e, he, hk.symm⟩

theorem toMap_append (k : κ) : toMap (l₁ ++ l₂) k = (toMap l₁ k).or (toMap l₂ k) := List.lookup_append

theorem toMap_cons_self : toMap ((k, v) :: l) k = some v := List.lookup_cons_self

theorem toMap_cons_ne {x : κ} (h : x ≠ k) : toMap ((k, v) :: l) x = toMap l x := by
  unfold toMap
  rw [List.lookup_cons, beq_eq_false_iff_ne.mpr h]

/-- An entry with a new key. -/
theorem toMap_insert (h : k ∉ (l₁ ++ l₂).map Prod.fst) :
    toMap (l₁ ++ (k, v) :: l₂) = update (toMap (l₁ ++ l₂)) k (some v) := by
  rw [List.map_append, List.mem_append, not_or] at h
  funext x
  rw [toMap_append]
  by_cases hx : x = k
  · subst hx
    rw [update_self, toMap_eq_none.mpr h.1, toMap_cons_self, Option.none_or]
  · rw [update_of_ne hx, toMap_cons_ne hx, toMap_append]

/-- The entry of a key taken out. -/
theorem toMap_erase (h : Unique (l₁ ++ (k, v) :: l₂)) :
    toMap (l₁ ++ l₂) = update (toMap (l₁ ++ (k, v) :: l₂)) k none := by
  have hk := (unique_insert.mp h).1
  rw [toMap_insert hk, update_idem]
  exact (update_eq_self_iff.mpr (toMap_eq_none.mpr hk).symm).symm

/-- Another value for a key. -/
theorem toMap_replace (h : Unique (l₁ ++ (k, v) :: l₂)) :
    toMap (l₁ ++ (k, w) :: l₂) = update (toMap (l₁ ++ (k, v) :: l₂)) k (some w) := by
  have hk := (unique_insert.mp h).1
  rw [toMap_insert hk, toMap_insert hk, update_idem]

theorem toMap_at (h : Unique (l₁ ++ (k, v) :: l₂)) : toMap (l₁ ++ (k, v) :: l₂) k = some v := by
  rw [toMap_insert (unique_insert.mp h).1, update_self]

end ComputerOS.Assoc
