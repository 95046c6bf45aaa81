import Mathlib.Algebra.BigOperators.Group.Finset.Basic
import Mathlib.Data.Finset.Basic

/-!
Rooted graphs with named edges, as the directories of a file system form them: each
node has a list of named edges, and a node is live when the root reaches it.
-/
namespace ComputerOS.DirGraph

variable {ι ν : Type}

inductive Reach (out : ι → List (ν × ι)) (root : ι) : ι → Prop
  | root : Reach out root root
  | step {n c : ι} {name : ν} (hn : Reach out root n) (he : (name, c) ∈ out n) : Reach out root c

variable {out out' : ι → List (ν × ι)} {root n : ι}

theorem Reach.of_mem {e : ν × ι} (hn : Reach out root n) (he : e ∈ out n) : Reach out root e.2 :=
  @Reach.step ι ν out root n e.2 e.1 hn he

theorem Reach.mono (h : ∀ n, Reach out root n → ∀ e ∈ out n, Reach out' root n → Reach out' root e.2)
    (hn : Reach out root n) : Reach out' root n := by
  induction hn with
  | root => exact .root
  | @step n c name hn he ih => exact h n hn (name, c) he ih

/-- Graphs with the same edges at every live node have the same live nodes. -/
theorem reach_congr (h : ∀ n, Reach out root n → out' n = out n) :
    Reach out' root n ↔ Reach out root n := by
  constructor
  · intro hn
    induction hn with
    | root => exact .root
    | @step n c name _ he ih => exact .step ih (by rwa [h n ih] at he)
  · intro hn
    refine hn.mono fun m hm e he hm' => hm'.of_mem ?_
    rw [h m hm]
    exact he

/-- New edges, all of them to `c` or to live nodes, make `c` live and nothing else. -/
theorem reach_insert {c : ι} (hkeep : ∀ m, Reach out root m → ∀ e ∈ out m, e ∈ out' m)
    (hlive : ∀ m, Reach out root m → ∀ e ∈ out' m, Reach out root e.2 ∨ e.2 = c)
    (hnew : ∀ e ∈ out' c, Reach out root e.2 ∨ e.2 = c)
    (hc : ∃ m, Reach out root m ∧ ∃ e ∈ out' m, e.2 = c) :
    Reach out' root n ↔ Reach out root n ∨ n = c := by
  have hmono : ∀ m, Reach out root m → Reach out' root m :=
    fun m hm => hm.mono fun k hk e he hk' => hk'.of_mem (hkeep k hk e he)
  constructor
  · intro hn
    induction hn with
    | root => exact Or.inl .root
    | @step m k name _ he ih =>
      rcases ih with hm | rfl
      · exact hlive m hm (name, k) he
      · exact hnew (name, k) he
  · rintro (hn | rfl)
    · exact hmono n hn
    · obtain ⟨m, hm, e, he, rfl⟩ := hc
      exact (hmono m hm).of_mem he

/-- Edges to `c` are taken away, and `c` leads back to `p` at most, the only node with an
edge to it: every other live node stays live. -/
theorem reach_erase {c p : ι} (hroot : c ≠ root) (hless : ∀ m, Reach out root m → ∀ e ∈ out' m, e ∈ out m)
    (hkeep : ∀ m, Reach out root m → m ≠ c → ∀ e ∈ out m, e.2 ≠ c → e ∈ out' m)
    (hback : ∀ e ∈ out c, e.2 = c ∨ e.2 = p)
    (honly : out c ≠ [] → ∀ m, Reach out root m → m ≠ c → ∀ e ∈ out m, e.2 = c → m = p) :
    (Reach out' root n → Reach out root n) ∧ (Reach out root n → n ≠ c → Reach out' root n) := by
  have hdown : ∀ m, Reach out' root m → Reach out root m := by
    intro m hm
    induction hm with
    | root => exact .root
    | @step m k name _ he ih => exact ih.of_mem (hless m ih (name, k) he)
  refine ⟨hdown n, fun hn => ?_⟩
  -- once the walk has come to `c`, it has passed through `p`
  have hboth : (n ≠ c → Reach out' root n) ∧ (n = c → out c ≠ [] → Reach out' root p) := by
    induction hn with
    | root => exact ⟨fun _ => .root, fun h => absurd h.symm hroot⟩
    | @step m k name hm he ih =>
      by_cases hmc : m = c
      · subst hmc
        have hne : out m ≠ [] := List.ne_nil_of_mem he
        have hp := ih.2 rfl hne
        refine ⟨fun hk => ?_, fun _ _ => hp⟩
        rcases hback (name, k) he with hkc | hkp
        · exact absurd hkc hk
        · obtain rfl : k = p := hkp
          exact hp
      · have hm' := ih.1 hmc
        refine ⟨fun hk => hm'.of_mem (hkeep m hm hmc (name, k) he hk), fun hk hne => ?_⟩
        rw [← honly hne m hm hmc (name, k) he hk]
        exact hm'
  exact hboth.1

end ComputerOS.DirGraph
