import Mathlib.Data.List.Nodup
import Mathlib.Data.Set.Finite.List
import Mathlib.Logic.Function.Basic

/-!
Linked lists in memory. A map gives the successor of each node, and a segment is what one passes
through on the way from one node to another; a ring is a segment from a node back to itself. Loops
that walk along a list have a bound on their steps, which is never reached on a list that is not
longer.
-/
namespace ComputerOS

open Function

variable {α : Type*}

/-- From `a` on one passes through `l` and arrives at `b`. -/
def Seg (next : α → α) : α → List α → α → Prop
  | a, [], b => a = b
  | a, x :: l, b => a = x ∧ Seg next (next x) l b

/-- The first node from `a` on with `stop`, if it is one of the first `n`. -/
def seek (next : α → α) (stop : α → Bool) : ℕ → α → Option α
  | 0, _ => none
  | n + 1, a => if stop a then some a else seek next stop n (next a)

/-- The same for a walk around a ring with first node `h`, which gives up when it is back there. -/
def seekRound [DecidableEq α] (next : α → α) (stop : α → Bool) (h : α) : ℕ → α → Option (Option α)
  | 0, _ => none
  | n + 1, a =>
    if stop a then some (some a)
    else if next a = h then some none
    else seekRound next stop h n (next a)

variable {next : α → α} {stop : α → Bool} {a b h p q t x y : α} {l l₁ l₂ : List α} {n : ℕ}

@[simp] theorem seg_nil : Seg next a [] b ↔ a = b := Iff.rfl

theorem seg_append : Seg next a (l₁ ++ l₂) b ↔ ∃ c, Seg next a l₁ c ∧ Seg next c l₂ b := by
  induction l₁ generalizing a with
  | nil => exact ⟨fun h => ⟨a, rfl, h⟩, fun ⟨_, ha, h⟩ => ha ▸ h⟩
  | cons x l ih =>
    constructor
    · rintro ⟨ha, h⟩
      obtain ⟨c, h1, h2⟩ := ih.mp h
      exact ⟨c, ⟨ha, h1⟩, h2⟩
    · rintro ⟨c, ⟨ha, h1⟩, h2⟩
      exact ⟨ha, ih.mpr ⟨c, h1, h2⟩⟩

/-- A node in the middle is where the first part ends. -/
theorem seg_middle : Seg next a (l₁ ++ x :: l₂) b ↔ Seg next a l₁ x ∧ Seg next (next x) l₂ b := by
  rw [seg_append]
  constructor
  · rintro ⟨c, h1, rfl, h2⟩
    exact ⟨h1, h2⟩
  · rintro ⟨h1, h2⟩
    exact ⟨x, h1, rfl, h2⟩

theorem Seg.congr {next' : α → α} (h : Seg next a l b) (hl : ∀ x ∈ l, next' x = next x) : Seg next' a l b := by
  induction l generalizing a with
  | nil => exact h
  | cons x l ih =>
    refine ⟨h.1, ?_⟩
    rw [hl x List.mem_cons_self]
    exact ih h.2 fun y hy => hl y (List.mem_cons_of_mem _ hy)

theorem Seg.update [DecidableEq α] (h : Seg next a l b) (hx : x ∉ l) : Seg (update next x y) a l b :=
  h.congr fun _ hz => update_of_ne (ne_of_mem_of_not_mem hz hx) ..

/-- The successors of the nodes are the nodes again, moved by one place. -/
theorem Seg.map_next (h : Seg next a l b) : a :: l.map next = l ++ [b] := by
  induction l generalizing a with
  | nil => exact congrArg (· :: []) h
  | cons x l ih =>
    obtain ⟨rfl, h⟩ := h
    exact congrArg (a :: ·) (ih h)

/-- Walking along a segment whose end has `stop` finds the first such node. -/
theorem Seg.seek (stop : α → Bool) (h : Seg next a l b) (hb : stop b = true) (hn : l.length < n) :
    seek next stop n a = some ((l.find? stop).getD b) := by
  induction l generalizing a n with
  | nil =>
    obtain ⟨m, rfl⟩ := Nat.exists_eq_succ_of_ne_zero (Nat.ne_of_gt hn)
    obtain rfl := h
    rw [ComputerOS.seek, if_pos hb]
    rfl
  | cons x l ih =>
    obtain ⟨m, rfl⟩ := Nat.exists_eq_succ_of_ne_zero (Nat.ne_zero_of_lt hn)
    obtain ⟨rfl, h⟩ := h
    rw [ComputerOS.seek, List.find?_cons]
    by_cases ha : stop a = true
    · rw [if_pos ha, ha]
      rfl
    · rw [if_neg ha, ih h (Nat.lt_of_succ_lt_succ hn), Bool.eq_false_iff.mpr ha]

/-- Walking around a ring finds the first node with `stop`, if there is one. -/
theorem Seg.seekRound [DecidableEq α] (stop : α → Bool) (hs : Seg next p (p :: l) h) (hh : h ∉ l) (hn : l.length < n) :
    seekRound next stop h n p = some ((p :: l).find? stop) := by
  induction l generalizing p n with
  | nil =>
    obtain ⟨m, rfl⟩ := Nat.exists_eq_succ_of_ne_zero (Nat.ne_of_gt hn)
    have hnext : next p = h := hs.2
    rw [ComputerOS.seekRound, List.find?_cons, List.find?_nil, if_pos hnext]
    cases stop p <;> rfl
  | cons x l ih =>
    obtain ⟨m, rfl⟩ := Nat.exists_eq_succ_of_ne_zero (Nat.ne_zero_of_lt hn)
    have hx : next p = x := hs.2.1
    have hxh : x ≠ h := fun heq => hh (heq ▸ List.mem_cons_self)
    rw [ComputerOS.seekRound, hx, if_neg hxh, List.find?_cons,
      ih ⟨rfl, hs.2.2⟩ (fun hm => hh (List.mem_cons_of_mem _ hm)) (Nat.lt_of_succ_lt_succ hn)]
    cases stop p <;> rfl

/-- A ring may be entered at any of its nodes. -/
theorem Seg.rotate (h : Seg next a (l₁ ++ x :: l₂) a) : Seg next x (x :: (l₂ ++ l₁)) x := by
  obtain ⟨h1, h2⟩ := seg_middle.mp h
  exact ⟨rfl, seg_append.mpr ⟨a, h2, h1⟩⟩

/-- No two nodes of a ring have the same successor. -/
theorem Seg.next_inj (h : Seg next a l a) (hl : l.Nodup) (hp : p ∈ l) (hq : q ∈ l) (heq : next p = next q) : p = q := by
  cases l with
  | nil => cases hp
  | cons x l =>
    have hmap : (x :: l).map next = l ++ [x] := by
      obtain ⟨rfl, h⟩ := h
      exact h.map_next
    have hnodup : ((x :: l).map next).Nodup := by
      rw [hmap]
      exact (List.perm_append_singleton x l).nodup_iff.mpr hl
    exact List.inj_on_of_nodup_map hnodup hp hq heq

/-- Every node of a ring is the successor of one. -/
theorem Seg.exists_prev (h : Seg next a l a) (ht : t ∈ l) : ∃ q ∈ l, next q = t := by
  cases l with
  | nil => cases ht
  | cons x l =>
    obtain ⟨rfl, h⟩ := h
    have hmem : t ∈ (a :: l).map next := by
      rw [List.map_cons, h.map_next]
      exact List.mem_append.mpr ((List.mem_cons.mp ht).symm.imp_right List.mem_singleton.mpr)
    exact List.mem_map.mp hmem

/-- A ring of one node. -/
theorem Seg.eq_singleton (h : Seg next a l a) (hl : l.Nodup) (ht : t ∈ l) (hnext : next t = t) : l = [t] := by
  obtain ⟨l₁, l₂, rfl⟩ := List.append_of_mem ht
  have hrot := h.rotate
  have hnodup : (t :: (l₂ ++ l₁)).Nodup := by
    refine (List.Perm.nodup_iff ?_).mp hl
    exact List.perm_middle.trans (List.Perm.cons _ List.perm_append_comm)
  have hnil : l₂ ++ l₁ = [] := by
    cases hrest : l₂ ++ l₁ with
    | nil => rfl
    | cons y r =>
      rw [hrest] at hrot hnodup
      obtain ⟨-, hy, -⟩ := hrot
      exact absurd (List.mem_cons.mpr (Or.inl (hnext.symm.trans hy))) (List.nodup_cons.mp hnodup).1
  obtain ⟨rfl, rfl⟩ := List.append_eq_nil_iff.mp hnil
  rfl

variable [DecidableEq α]

/-- A node put behind the first one. -/
theorem Seg.insert (h : Seg next a (a :: l) a) (hx : x ∉ a :: l) (ha : a ∉ l) :
    Seg (Function.update (Function.update next x (next a)) a x) a (a :: x :: l) a := by
  obtain ⟨hxa, hxl⟩ := List.ne_and_not_mem_of_not_mem_cons hx
  refine ⟨rfl, (update_self ..), ?_⟩
  rw [update_of_ne hxa, update_self]
  exact (h.2.update hxl).update ha

/-- A node taken out of a ring, whose first node becomes the next one if it was the first. -/
theorem Seg.erase (h : Seg next a l a) (hl : l.Nodup) (hq : q ∈ l) (ht : t ∈ l) (hnext : next q = t) (hqt : q ≠ t) :
    Seg (Function.update next q (next t)) (if a = t then next t else a) (l.erase t) (if a = t then next t else a) := by
  obtain ⟨l₁, l₂, rfl⟩ := List.append_of_mem ht
  obtain ⟨h1, h2⟩ := seg_middle.mp h
  have ht1 : t ∉ l₁ := fun hm => List.disjoint_of_nodup_append hl hm List.mem_cons_self
  rw [List.erase_append_right _ ht1, List.erase_cons_head]
  rcases List.eq_nil_or_concat l₁ with rfl | ⟨m, z, rfl⟩
  · obtain rfl : a = t := h1
    rw [if_pos rfl, List.nil_append]
    rcases List.eq_nil_or_concat l₂ with rfl | ⟨r, z, rfl⟩
    · exact absurd (List.mem_singleton.mp hq) hqt
    · rw [List.concat_eq_append] at h2 hl hq ht h ⊢
      obtain ⟨h3, h4⟩ := seg_middle.mp h2
      have hz : z ∈ a :: (r ++ [z]) := by simp
      obtain rfl : q = z := h.next_inj hl hq hz (hnext.trans (show next z = a from h4).symm)
      have hqr : q ∉ r := by
        intro hm
        have := (List.nodup_cons.mp hl).2
        exact List.disjoint_of_nodup_append this hm List.mem_cons_self
      refine seg_middle.mpr ⟨h3.update hqr, ?_⟩
      exact update_self ..
  · rw [List.concat_eq_append] at h1 hl hq ht h ht1 ⊢
    obtain ⟨h3, h4⟩ := seg_middle.mp h1
    have hz : z ∈ m ++ [z] ++ t :: l₂ := by simp
    obtain rfl : q = z := h.next_inj hl hq hz (hnext.trans (show next z = t from h4).symm)
    have hat : a ≠ t := by
      rintro rfl
      cases m with
      | nil => exact ht1 (List.mem_singleton.mpr (show a = q from h3))
      | cons y m => exact ht1 (List.mem_append_left _ (List.mem_cons.mpr (Or.inl h3.1)))
    rw [if_neg hat]
    have hqm : q ∉ m := by
      intro hm
      exact List.disjoint_of_nodup_append (List.nodup_append.mp hl).1 hm List.mem_cons_self
    have hql : q ∉ l₂ := by
      intro hm
      exact List.disjoint_of_nodup_append hl (List.mem_append_right _ List.mem_cons_self) (List.mem_cons_of_mem _ hm)
    rw [List.append_assoc]
    refine seg_middle.mpr ⟨h3.update hqm, ?_⟩
    rw [update_self]
    exact h2.update hql

omit [DecidableEq α] in
/-- Of finitely many nodes one of which has its parent elsewhere, some have no child among them. -/
theorem exists_childless {parent : α → α} (ha : a ∈ l) (hp : parent a ∉ l) : ∃ p ∈ l, ∀ c ∈ l, parent c ≠ p := by
  by_contra hno
  push Not at hno
  choose f hf using fun p : { x // x ∈ l } => hno p.1 p.2
  let g : { x // x ∈ l } → { x // x ∈ l } := fun p => ⟨f p, (hf p).1⟩
  have hinj : Injective g := by
    intro p q hpq
    have heq : f p = f q := congrArg Subtype.val hpq
    exact Subtype.ext ((hf p).2.symm.trans ((congrArg parent heq).trans (hf q).2))
  have : Finite { x // x ∈ l } := l.finite_toSet
  obtain ⟨p, hpa⟩ := Finite.surjective_of_injective hinj ⟨a, ha⟩
  have heq : f p = a := congrArg Subtype.val hpa
  exact hp (heq ▸ (hf p).2 ▸ p.2)

end ComputerOS
