import Mathlib.Data.List.Nodup
import Mathlib.Logic.Function.Basic

/-!
A depth-first walk over a graph with a stack of bounded size. Inner nodes are put on the stack when
they are first met, others are dealt with at once; an inner node that is met while the stack is full
is lost, and what lies below it with it. Over a tree one can say beforehand whether that happens:
the place of a node on the stack is given by the path that leads to it.
-/
namespace ComputerOS

open Function

/-- Which nodes are inner ones, and what a node leads to, in order. -/
structure Branching (α : Type*) where
  inner : α → Bool
  outs : α → List α

namespace Branching

variable {α : Type*} [DecidableEq α]

/-- A walk under way: the nodes met, those to visit, those dealt with and those lost. -/
structure Walk (α : Type*) where
  seen : α → Bool
  stack : List α
  done : List α
  lost : List α

variable (G : Branching α) (cap : ℕ)

/-- A node is met. -/
def meet (w : Walk α) (c : α) : Walk α :=
  if w.seen c then w
  else
    let w := { w with seen := update w.seen c true }
    if G.inner c then
      if w.stack.length < cap then { w with stack := c :: w.stack } else { w with lost := c :: w.lost }
    else { w with done := c :: w.done }

/-- A node is taken from the stack. -/
def visit (w : Walk α) (n : α) : Walk α := (G.outs n).foldl (G.meet cap) { w with done := n :: w.done }

/-- The walk goes on until the stack is empty. -/
def walk : ℕ → Walk α → Option (Walk α)
  | 0, _ => none
  | n + 1, w =>
      match w.stack with
      | [] => some w
      | x :: rest => walk n (G.visit cap { w with stack := rest } x)

def start (root : α) : Walk α where
  seen := update (fun _ => false) root true
  stack := [root]
  done := []
  lost := []

/-- Nodes that can be reached through inner nodes. -/
inductive Reach (root : α) : α → Prop
  | root : Reach root root
  | step {n c : α} (h : Reach root n) (hn : n = root ∨ G.inner n = true) (hc : c ∈ G.outs n) : Reach root c

/-- The inner nodes that a node leads to. -/
def kids (n : α) : List α := (G.outs n).filter G.inner

/-- The place at which a node comes to lie on the stack: below it are the earlier siblings of the
nodes on the path. -/
inductive At (root : α) : α → ℕ → Prop
  | root : At root root 0
  | step {n c : α} {k i : ℕ} (h : At root n k) (hi : (G.kids n)[i]? = some c) : At root c (k + i)

variable {G cap} {root c n x : α} {w w' : Walk α} {l l₁ l₂ : List α} {k m : ℕ}

/-- The nodes that have been met. -/
def Walk.met (w : Walk α) : List α := w.stack ++ (w.done ++ w.lost)

/-- The nodes met are reachable, and each is in one place. -/
structure Walking (G : Branching α) (root : α) (w : Walk α) : Prop where
  seen : ∀ n, w.seen n = true ↔ n ∈ w.met
  nodup : w.met.Nodup
  reach : ∀ n ∈ w.met, G.Reach root n
  inner : ∀ n ∈ w.stack ++ w.lost, n = root ∨ G.inner n = true

theorem walking_start (G : Branching α) (root : α) : Walking G root (start root) := by
  refine ⟨fun n => ?_, by simp [Walk.met, start], fun n hn => ?_, fun n hn => ?_⟩
  · by_cases hn : n = root <;> simp [Walk.met, start, hn]
  · obtain rfl : n = root := by simpa [Walk.met, start] using hn
    exact .root
  · exact Or.inl (by simpa [start] using hn)

/-- The ways a node can be met. -/
theorem meet_cases (G : Branching α) (cap : ℕ) (w : Walk α) (c : α) :
    (w.seen c = true ∧ G.meet cap w c = w) ∨
    (w.seen c = false ∧ G.inner c = true ∧ w.stack.length < cap ∧
      G.meet cap w c = { w with seen := update w.seen c true, stack := c :: w.stack }) ∨
    (w.seen c = false ∧ G.inner c = true ∧ cap ≤ w.stack.length ∧
      G.meet cap w c = { w with seen := update w.seen c true, lost := c :: w.lost }) ∨
    (w.seen c = false ∧ G.inner c = false ∧
      G.meet cap w c = { w with seen := update w.seen c true, done := c :: w.done }) := by
  unfold meet
  cases hs : w.seen c with
  | true => exact Or.inl ⟨rfl, if_pos rfl⟩
  | false =>
    cases hi : G.inner c with
    | false => exact Or.inr (Or.inr (Or.inr ⟨rfl, rfl, by simp⟩))
    | true =>
      by_cases hl : w.stack.length < cap
      · exact Or.inr (Or.inl ⟨rfl, rfl, hl, by simp [hl]⟩)
      · exact Or.inr (Or.inr (Or.inl ⟨rfl, rfl, Nat.le_of_not_lt hl, by simp [hl]⟩))

/-- A node that is met for the first time is the only new one. -/
theorem met_meet (h : w.seen c = false) : (G.meet cap w c).met.Perm (c :: w.met) ∧
    (G.meet cap w c).seen = update w.seen c true := by
  rcases meet_cases G cap w c with ⟨hs, -⟩ | ⟨-, -, -, he⟩ | ⟨-, -, -, he⟩ | ⟨-, -, he⟩
  · rw [h] at hs
    cases hs
  · rw [he]
    exact ⟨List.Perm.refl _, rfl⟩
  · rw [he]
    refine ⟨?_, rfl⟩
    exact (List.perm_middle.append_left w.stack).trans List.perm_middle
  · rw [he]
    exact ⟨List.perm_middle, rfl⟩

theorem meet_of_seen (h : w.seen c = true) : G.meet cap w c = w := if_pos h

theorem Walking.meet (h : Walking G root w) (hc : G.Reach root c) : Walking G root (G.meet cap w c) := by
  cases hs : w.seen c with
  | true =>
    rw [meet_of_seen hs]
    exact h
  | false =>
    obtain ⟨hperm, hseen⟩ := @met_meet _ _ G cap c w hs
    have hnew : c ∉ w.met := fun hm => by
      rw [(h.seen c).mpr hm] at hs
      cases hs
    refine ⟨fun n => ?_, hperm.nodup_iff.mpr (List.nodup_cons.mpr ⟨hnew, h.nodup⟩), fun n hn => ?_, fun n hn => ?_⟩
    · rw [hseen, hperm.mem_iff, List.mem_cons, ← h.seen n]
      by_cases hn : n = c <;> simp [hn]
    · rcases List.mem_cons.mp (hperm.mem_iff.mp hn) with rfl | hn
      · exact hc
      · exact h.reach n hn
    · rcases meet_cases G cap w c with ⟨hs', -⟩ | ⟨-, hi, -, he⟩ | ⟨-, hi, -, he⟩ | ⟨-, -, he⟩
      · rw [hs] at hs'
        cases hs'
      · rw [he] at hn
        rcases List.mem_cons.mp hn with rfl | hn
        · exact Or.inr hi
        · exact h.inner n hn
      · rw [he] at hn
        simp only [List.mem_append, List.mem_cons] at hn
        rcases hn with hn | rfl | hn
        · exact h.inner n (List.mem_append_left _ hn)
        · exact Or.inr hi
        · exact h.inner n (List.mem_append_right _ hn)
      · rw [he] at hn
        exact h.inner n hn

/-- Meeting nodes forgets none. -/
theorem meet_mono (G : Branching α) (cap : ℕ) (c : α) (h : w.seen n = true) : (G.meet cap w c).seen n = true := by
  cases hs : w.seen c with
  | true => rwa [meet_of_seen hs]
  | false =>
    rw [(met_meet hs).2]
    by_cases hn : n = c <;> simp [hn, h]

theorem meet_self (G : Branching α) (cap : ℕ) (w : Walk α) (c : α) : (G.meet cap w c).seen c = true := by
  cases hs : w.seen c with
  | true => rwa [meet_of_seen hs]
  | false => rw [(met_meet hs).2, update_self]

theorem foldl_meet_mono (l : List α) (h : w.seen n = true) : (l.foldl (G.meet cap) w).seen n = true := by
  induction l generalizing w with
  | nil => exact h
  | cons c l ih => exact ih (meet_mono G cap c h)

theorem foldl_meet_seen (l : List α) (hn : n ∈ l) : (l.foldl (G.meet cap) w).seen n = true := by
  induction l generalizing w with
  | nil => cases hn
  | cons c l ih =>
    rcases List.mem_cons.mp hn with rfl | hn
    · exact foldl_meet_mono l (meet_self G cap w n)
    · exact ih hn

theorem mem_foldl_meet_done (l : List α) (hn : n ∈ w.done) : n ∈ (l.foldl (G.meet cap) w).done := by
  induction l generalizing w with
  | nil => exact hn
  | cons c l ih =>
    refine ih ?_
    rcases meet_cases G cap w c with ⟨-, he⟩ | ⟨-, -, -, he⟩ | ⟨-, -, -, he⟩ | ⟨-, -, he⟩
    · rwa [he]
    · rwa [he]
    · rwa [he]
    · rw [he]
      exact List.mem_cons_of_mem _ hn

/-- What is dealt with in a visit, besides the node itself, are leaves that had not been met. -/
theorem foldl_meet_done (l : List α) (hn : n ∈ (l.foldl (G.meet cap) w).done) :
    n ∈ w.done ∨ (G.inner n = false ∧ w.seen n = false) := by
  induction l generalizing w with
  | nil => exact Or.inl hn
  | cons c l ih =>
    have hmono : (G.meet cap w c).seen n = false → w.seen n = false := fun h => by
      refine Bool.eq_false_iff.mpr fun hs => ?_
      rw [meet_mono G cap c hs] at h
      cases h
    refine (ih hn).elim (fun hd => ?_) fun hf => Or.inr ⟨hf.1, hmono hf.2⟩
    rcases meet_cases G cap w c with ⟨-, he⟩ | ⟨-, -, -, he⟩ | ⟨-, -, -, he⟩ | ⟨hs, hi, he⟩
    · rw [he] at hd
      exact Or.inl hd
    · rw [he] at hd
      exact Or.inl hd
    · rw [he] at hd
      exact Or.inl hd
    · rw [he] at hd
      rcases List.mem_cons.mp hd with rfl | hd
      · exact Or.inr ⟨hi, hs⟩
      · exact Or.inl hd

theorem Walking.foldl_meet (h : Walking G root w) (hl : ∀ c ∈ l, G.Reach root c) :
    Walking G root (l.foldl (G.meet cap) w) := by
  induction l generalizing w with
  | nil => exact h
  | cons c l ih => exact ih (h.meet (hl c List.mem_cons_self)) fun d hd => hl d (List.mem_cons_of_mem _ hd)

omit [DecidableEq α] in
/-- A node moves from the stack to those dealt with. -/
theorem Walking.pop {rest : List α} (h : Walking G root w) (hs : w.stack = x :: rest) :
    Walking G root { w with stack := rest, done := x :: w.done } := by
  have hperm : (Walk.met { w with stack := rest, done := x :: w.done }).Perm w.met := by
    unfold Walk.met
    rw [hs]
    exact List.perm_middle
  refine ⟨fun n => (h.seen n).trans hperm.mem_iff.symm, hperm.nodup_iff.mpr h.nodup,
    fun n hn => h.reach n (hperm.mem_iff.mp hn), fun n hn => h.inner n ?_⟩
  rw [hs]
  rcases List.mem_append.mp hn with hn | hn
  · exact List.mem_append_left _ (List.mem_cons_of_mem _ hn)
  · exact List.mem_append_right _ hn

/-- Everything below a node that is dealt with has been met. -/
def Closed (G : Branching α) (root : α) (w : Walk α) : Prop :=
  ∀ n ∈ w.done, n = root ∨ G.inner n = true → ∀ c ∈ G.outs n, w.seen c = true

theorem Walking.visit {rest : List α} (h : Walking G root w) (hroot : w.seen root = true) (hs : w.stack = x :: rest) :
    Walking G root (G.visit cap { w with stack := rest } x) ∧
      (Closed G root w → Closed G root (G.visit cap { w with stack := rest } x)) ∧
      (G.visit cap { w with stack := rest } x).seen root = true := by
  have hx : x = root ∨ G.inner x = true := h.inner x (List.mem_append_left _ (hs ▸ List.mem_cons_self))
  have hreach : G.Reach root x := h.reach x (List.mem_append_left _ (hs ▸ List.mem_cons_self))
  refine ⟨(h.pop hs).foldl_meet fun c hc => hreach.step hx hc, fun hc n hn hin c hcn => ?_, foldl_meet_mono _ hroot⟩
  rcases foldl_meet_done _ hn with hn | ⟨hleaf, hnew⟩
  · rcases List.mem_cons.mp hn with rfl | hn
    · exact foldl_meet_seen _ hcn
    · exact foldl_meet_mono _ (hc n hn hin c hcn)
  · rcases hin with rfl | hin
    · rw [show w.seen n = false from hnew] at hroot
      cases hroot
    · rw [hleaf] at hin
      cases hin

theorem Walking.walk (h : Walking G root w) (hroot : w.seen root = true) (hc : Closed G root w) {fuel : ℕ}
    (hrun : G.walk cap fuel w = some w') :
    Walking G root w' ∧ w'.seen root = true ∧ Closed G root w' ∧ w'.stack = [] := by
  induction fuel generalizing w with
  | zero => cases hrun
  | succ fuel ih =>
    unfold Branching.walk at hrun
    split at hrun
    · rename_i hs
      cases hrun
      exact ⟨h, hroot, hc, hs⟩
    · rename_i x rest hs
      obtain ⟨h', hc', hroot'⟩ := @Walking.visit _ _ G cap _ _ _ _ h hroot hs
      exact ih h' hroot' (hc' hc) hrun

theorem walk_start {fuel : ℕ} (hrun : G.walk cap fuel (start root) = some w) :
    Walking G root w ∧ w.seen root = true ∧ Closed G root w ∧ w.stack = [] :=
  (walking_start G root).walk (by simp [start]) (fun n hn => by cases hn) hrun

/-- When no node has been lost, everything reachable has been dealt with. -/
theorem mem_done_of_reach {fuel : ℕ} (hrun : G.walk cap fuel (start root) = some w) (hlost : w.lost = [])
    (hn : G.Reach root n) : n ∈ w.done := by
  obtain ⟨h, hroot, hc, hs⟩ := walk_start hrun
  have hmet : ∀ n, w.seen n = true → n ∈ w.done := fun n hn => by
    have hm := (h.seen n).mp hn
    simpa [Walk.met, hs, hlost] using hm
  induction hn with
  | root => exact hmet root hroot
  | step _ hin hcn ih => exact hmet _ (hc _ ih hin _ hcn)

/-- A visit deals with one node more at least. -/
theorem length_foldl_meet (w : Walk α) (l : List α) :
    w.done.length + w.lost.length ≤ (l.foldl (G.meet cap) w).done.length + (l.foldl (G.meet cap) w).lost.length := by
  induction l generalizing w with
  | nil => exact Nat.le_refl _
  | cons c l ih =>
    refine Nat.le_trans ?_ (ih _)
    rcases meet_cases G cap w c with ⟨-, he⟩ | ⟨-, -, -, he⟩ | ⟨-, -, -, he⟩ | ⟨-, -, he⟩
    · exact Nat.le_of_eq (by rw [he])
    · exact Nat.le_of_eq (by rw [he])
    · rw [he]
      exact Nat.le_succ _
    · rw [he]
      exact Nat.add_le_add_right (Nat.le_succ _) _

theorem Walking.exists_walk {nodes : List α} (h : Walking G root w) (hroot : w.seen root = true)
    (hnodes : ∀ n, G.Reach root n → n = root ∨ n ∈ nodes) {fuel : ℕ}
    (hfuel : nodes.length + 1 < fuel + (w.done.length + w.lost.length)) : ∃ w', G.walk cap fuel w = some w' := by
  induction fuel generalizing w with
  | zero =>
    exfalso
    have hsub : w.met ⊆ root :: nodes := fun n hn => List.mem_cons.mpr (hnodes n (h.reach n hn))
    have hle := h.nodup.length_le_of_subset hsub
    rw [Walk.met, List.length_append, List.length_append, List.length_cons] at hle
    omega
  | succ fuel ih =>
    unfold Branching.walk
    split
    · exact ⟨w, rfl⟩
    · rename_i x rest hs
      obtain ⟨h', -, hroot'⟩ := @Walking.visit _ _ G cap _ _ _ _ h hroot hs
      refine ih h' hroot' ?_
      have hlen : (x :: w.done).length + w.lost.length ≤ (G.visit cap { w with stack := rest } x).done.length +
          (G.visit cap { w with stack := rest } x).lost.length :=
        @length_foldl_meet _ _ G cap { w with stack := rest, done := x :: w.done } (G.outs x)
      rw [List.length_cons] at hlen
      omega

/-- Over a finite graph the walk ends. -/
theorem exists_walk_start {nodes : List α} (hnodes : ∀ n, G.Reach root n → n = root ∨ n ∈ nodes) :
    ∃ w, G.walk cap (nodes.length + 2) (start root) = some w :=
  (walking_start G root).exists_walk (by simp [start]) hnodes
  (Nat.lt_add_right _ (Nat.lt_succ_self _))

/-- Nodes whose outgoing edges count: the root and the inner nodes that it reaches. -/
def Leading (G : Branching α) (root n : α) : Prop := G.Reach root n ∧ (n = root ∨ G.inner n = true)

/-- Below the root, inner nodes form a tree. -/
structure TreeLike (G : Branching α) (root : α) : Prop where
  parent : ∀ n m c, G.Leading root n → G.Leading root m → c ∈ G.kids n → c ∈ G.kids m → n = m
  nodup : ∀ n, G.Leading root n → (G.kids n).Nodup
  root : ∀ n, G.Leading root n → root ∉ G.kids n

omit [DecidableEq α] in
theorem mem_kids : c ∈ G.kids n ↔ c ∈ G.outs n ∧ G.inner c = true := List.mem_filter

omit [DecidableEq α] in
theorem At.inner (h : G.At root n k) : n = root ∨ G.inner n = true := by
  cases h with
  | root => exact Or.inl rfl
  | step _ hi => exact Or.inr (mem_kids.mp (List.mem_of_getElem? hi)).2

omit [DecidableEq α] in
theorem At.reach (h : G.At root n k) : G.Reach root n := by
  induction h with
  | root => exact .root
  | step h hi ih => exact ih.step h.inner (mem_kids.mp (List.mem_of_getElem? hi)).1

omit [DecidableEq α] in
theorem At.leading (h : G.At root n k) : G.Leading root n := ⟨h.reach, h.inner⟩

omit [DecidableEq α] in
theorem At.unique (ht : TreeLike G root) (h : G.At root n k) (h' : G.At root n m) : k = m := by
  induction h generalizing m with
  | root =>
    cases h' with
    | root => rfl
    | step h₂ hi₂ => exact absurd (List.mem_of_getElem? hi₂) (ht.root _ h₂.leading)
  | @step n c k i h hi ih =>
    cases h' with
    | root => exact absurd (List.mem_of_getElem? hi) (ht.root _ h.leading)
    | @step n' _ k' i' h₂ hi₂ =>
      obtain rfl := ht.parent n n' c h.leading h₂.leading (List.mem_of_getElem? hi) (List.mem_of_getElem? hi₂)
      obtain rfl := ih h₂
      have hlt := (List.getElem?_eq_some_iff.mp hi).1
      obtain rfl := (List.getElem?_inj hlt (ht.nodup n h.leading)).mp (hi.trans hi₂.symm)
      rfl

/-- Every node on the stack lies at its place, and nodes are lost below a node whose place leaves
too little room for its inner nodes, and only there. -/
structure Placed (G : Branching α) (cap : ℕ) (root : α) (w : Walk α) : Prop extends Walking G root w where
  origin : ∀ c, w.seen c = true → c = root ∨ ∃ n ∈ w.done, (n = root ∨ G.inner n = true) ∧ c ∈ G.outs n
  place : ∀ s₁ x s₂, w.stack = s₁ ++ x :: s₂ → G.At root x s₂.length
  room : ∀ n ∈ w.done, n = root ∨ G.inner n = true → w.lost = [] → ∃ k, G.At root n k ∧ k + (G.kids n).length ≤ cap
  lost : w.lost ≠ [] → ∃ n k, G.At root n k ∧ cap < k + (G.kids n).length

/-- While node `x` at place `k` is visited, and `l₁` of what it leads to has been met. -/
structure Visiting (G : Branching α) (cap : ℕ) (root x : α) (k : ℕ) (l₁ : List α) (w₀ w : Walk α) : Prop
    extends Walking G root w where
  origin : ∀ c, w.seen c = true → c = root ∨ c ∈ l₁ ∨ ∃ n ∈ w₀.done, (n = root ∨ G.inner n = true) ∧ c ∈ G.outs n
  place : ∀ s₁ x s₂, w.stack = s₁ ++ x :: s₂ → G.At root x s₂.length
  size : (w.stack.length = k + (l₁.filter G.inner).length ∧ w.lost = w₀.lost) ∨
    (w.stack.length = cap ∧ w.lost ≠ [] ∧ cap < k + (G.kids x).length)
  bound : w.stack.length ≤ cap
  grows : w.lost = [] → w₀.lost = []

theorem Visiting.meet {w₀ : Walk α} (h : Visiting G cap root x k l₁ w₀ w) (ht : TreeLike G root) (hx : G.At root x k)
    (hdone : x ∉ w₀.done) (hw₀ : ∀ n ∈ w₀.done, G.Reach root n) (hl : G.outs x = l₁ ++ c :: l₂) :
    Visiting G cap root x k (l₁ ++ [c]) w₀ (G.meet cap w c) := by
  have hreach : G.Reach root c := hx.reach.step hx.inner (by rw [hl]; simp)
  have hwalk := @Walking.meet _ _ G cap _ _ _ h.toWalking hreach
  have hlen : ((l₁ ++ [c]).filter G.inner).length = (l₁.filter G.inner).length + (if G.inner c then 1 else 0) := by
    rw [List.filter_append, List.length_append, List.filter_cons]
    split <;> rfl
  have horigin : ∀ d, (G.meet cap w c).seen d = true →
      d = root ∨ d ∈ l₁ ++ [c] ∨ ∃ n ∈ w₀.done, (n = root ∨ G.inner n = true) ∧ d ∈ G.outs n := by
    intro d hd
    by_cases hdc : d = c
    · exact Or.inr (Or.inl (by simp [hdc]))
    · have hd' : w.seen d = true := by
        cases hs : w.seen c with
        | true => rwa [meet_of_seen hs] at hd
        | false => rwa [(met_meet hs).2, update_of_ne hdc] at hd
      exact (h.origin d hd').imp_right fun ho => ho.imp_left fun hm => List.mem_append_left _ hm
  -- an inner node is met for the first time, since the tree has no other way to it
  have hnew : G.inner c = true → w.seen c = false := by
    intro hi
    have hkid : c ∈ G.kids x := mem_kids.mpr ⟨by rw [hl]; simp, hi⟩
    refine Bool.eq_false_iff.mpr fun hs => ?_
    rcases h.origin c hs with rfl | hm | ⟨n, hn, hin, hcn⟩
    · exact ht.root x hx.leading hkid
    · have hnodup := ht.nodup x hx.leading
      rw [kids, hl, List.filter_append, List.filter_cons_of_pos hi] at hnodup
      exact List.disjoint_of_nodup_append hnodup (List.mem_filter.mpr ⟨hm, hi⟩) List.mem_cons_self
    · exact hdone (ht.parent n x c ⟨hw₀ n hn, hin⟩ hx.leading (mem_kids.mpr ⟨hcn, hi⟩) hkid ▸ hn)
  have hkids : (l₁.filter G.inner).length + (if G.inner c then 1 else 0) ≤ (G.kids x).length := by
    rw [kids, hl, List.filter_append, List.length_append, List.filter_cons]
    split <;> simp
  rcases meet_cases G cap w c with ⟨hs, he⟩ | ⟨hs, hi, hlt, he⟩ | ⟨hs, hi, hle, he⟩ | ⟨hs, hi, he⟩
  · have hi : G.inner c = false := Bool.eq_false_iff.mpr fun hi => by
      rw [hnew hi] at hs
      cases hs
    refine ⟨hwalk, horigin, ?_, ?_, ?_, ?_⟩
    · rw [he]
      exact h.place
    · rw [he, hlen, hi]
      exact h.size
    · rw [he]
      exact h.bound
    · rw [he]
      exact h.grows
  · obtain ⟨hsize, hlost⟩ := h.size.resolve_right fun hf => by omega
    refine ⟨hwalk, horigin, ?_, ?_, ?_, ?_⟩
    · rw [he]
      intro s₁ y s₂ hstack
      rcases List.cons_eq_append_iff.mp hstack with ⟨rfl, heq⟩ | ⟨s₁', rfl, heq⟩
      · obtain ⟨rfl, rfl⟩ := List.cons.inj heq
        rw [hsize]
        refine .step hx ?_
        rw [kids, hl, List.filter_append, List.filter_cons_of_pos hi,
          List.getElem?_append_right (Nat.le_refl _), Nat.sub_self]
        rfl
      · exact h.place s₁' y s₂ heq
    · rw [he, hlen, if_pos hi]
      exact Or.inl ⟨by rw [List.length_cons, hsize, Nat.add_assoc], hlost⟩
    · rw [he]
      exact hlt
    · rw [he]
      exact h.grows
  · refine ⟨hwalk, horigin, ?_, ?_, ?_, ?_⟩
    · rw [he]
      exact h.place
    · have hbound := h.bound
      rw [if_pos hi] at hkids
      rw [he]
      refine Or.inr ⟨Nat.le_antisymm hbound hle, List.cons_ne_nil _ _, ?_⟩
      rcases h.size with ⟨hsize, -⟩ | ⟨-, -, hroom⟩
      · omega
      · exact hroom
    · rw [he]
      exact h.bound
    · rw [he]
      exact fun hf => absurd hf (List.cons_ne_nil _ _)
  · refine ⟨hwalk, horigin, ?_, ?_, ?_, ?_⟩
    · rw [he]
      exact h.place
    · rw [he, hlen, hi]
      exact h.size
    · rw [he]
      exact h.bound
    · rw [he]
      exact h.grows

theorem Visiting.foldl {w₀ : Walk α} (h : Visiting G cap root x k l₁ w₀ w) (ht : TreeLike G root) (hx : G.At root x k)
    (hdone : x ∉ w₀.done) (hw₀ : ∀ n ∈ w₀.done, G.Reach root n) (hl : G.outs x = l₁ ++ l₂) :
    Visiting G cap root x k (G.outs x) w₀ (l₂.foldl (G.meet cap) w) := by
  induction l₂ generalizing l₁ w with
  | nil =>
    rw [List.append_nil] at hl
    rw [hl]
    exact h
  | cons c l₂ ih => exact ih (h.meet ht hx hdone hw₀ hl) (by rw [hl]; simp)

theorem Placed.visit {rest : List α} (h : Placed G cap root w) (ht : TreeLike G root) (hcap : w.stack.length ≤ cap)
    (hroot : w.seen root = true) (hs : w.stack = x :: rest) :
    Placed G cap root (G.visit cap { w with stack := rest } x) ∧
      (G.visit cap { w with stack := rest } x).stack.length ≤ cap := by
  have hx : G.At root x rest.length := h.place [] x rest hs
  have hreach : ∀ n ∈ w.done, G.Reach root n := fun n hn =>
    h.reach n (List.mem_append_right _ (List.mem_append_left _ hn))
  have hdone : x ∉ w.done := by
    have hn := h.nodup
    rw [Walk.met, hs] at hn
    exact fun hm => (List.nodup_cons.mp hn).1 (List.mem_append_right _ (List.mem_append_left _ hm))
  have hstart : Visiting G cap root x rest.length [] w { w with stack := rest, done := x :: w.done } := by
    refine ⟨h.toWalking.pop hs, fun c hc => (h.origin c hc).imp_right Or.inr, fun s₁ y s₂ heq => ?_,
      ?_, ?_, fun hl => hl⟩
    · exact h.place (x :: s₁) y s₂ (hs.trans (congrArg (x :: ·) heq))
    · exact Or.inl ⟨rfl, rfl⟩
    · rw [hs] at hcap
      exact Nat.le_of_succ_le hcap
  have hv := hstart.foldl ht hx hdone hreach (List.nil_append _).symm
  have hkeep : ∀ n, n ∈ w.done ∨ n = x → n ∈ (G.visit cap { w with stack := rest } x).done := fun n hn =>
    mem_foldl_meet_done _ (List.mem_cons.mpr hn.symm)
  refine ⟨⟨hv.toWalking, fun c hc => ?_, hv.place, fun n hn hin hl => ?_, fun hl => ?_⟩, hv.bound⟩
  · rcases hv.origin c hc with rfl | hm | ⟨n, hn, hin, hcn⟩
    · exact Or.inl rfl
    · exact Or.inr ⟨x, hkeep x (Or.inr rfl), hx.inner, hm⟩
    · exact Or.inr ⟨n, hkeep n (Or.inl hn), hin, hcn⟩
  · rcases foldl_meet_done _ hn with hn | ⟨hleaf, hnew⟩
    · rcases List.mem_cons.mp hn with rfl | hn
      · refine ⟨rest.length, hx, ?_⟩
        rcases hv.size with ⟨hsize, -⟩ | ⟨-, hne, -⟩
        · have hb := hv.bound
          rw [hsize] at hb
          exact hb
        · exact absurd hl hne
      · exact h.room n hn hin (hv.grows hl)
    · rcases hin with rfl | hin
      · rw [show w.seen n = false from hnew] at hroot
        cases hroot
      · rw [hleaf] at hin
        cases hin
  · rcases hv.size with ⟨-, heq⟩ | ⟨-, -, hroom⟩
    · exact h.lost fun h0 => hl (heq.trans h0)
    · exact ⟨x, rest.length, hx, hroom⟩

theorem Placed.walk (h : Placed G cap root w) (ht : TreeLike G root) (hcap : w.stack.length ≤ cap)
    (hroot : w.seen root = true) {fuel : ℕ} (hrun : G.walk cap fuel w = some w') : Placed G cap root w' := by
  induction fuel generalizing w with
  | zero => cases hrun
  | succ fuel ih =>
    unfold Branching.walk at hrun
    split at hrun
    · cases hrun
      exact h
    · rename_i x rest hs
      obtain ⟨h', hcap'⟩ := h.visit ht hcap hroot hs
      exact ih h' hcap' (h.toWalking.visit hroot hs).2.2 hrun

/-- Over a tree, no node is lost when every node has room for its inner nodes at its place, and only
then. -/
theorem lost_eq_nil_iff (ht : TreeLike G root) (hcap : 1 ≤ cap) {fuel : ℕ}
    (hrun : G.walk cap fuel (start root) = some w) :
    w.lost = [] ↔ ∀ n k, G.At root n k → k + (G.kids n).length ≤ cap := by
  have hstart : Placed G cap root (start root) := by
    refine ⟨walking_start G root, fun c hc => ?_, fun s₁ y s₂ heq => ?_, fun n hn => ?_, fun hl => absurd rfl hl⟩
    · by_contra hne
      simp [start, not_or.mp hne] at hc
    · obtain ⟨rfl, rfl⟩ : y = root ∧ s₂ = [] := by
        cases s₁ with
        | nil =>
          obtain ⟨rfl, rfl⟩ := List.cons.inj heq
          exact ⟨rfl, rfl⟩
        | cons z s₁ => simp [start] at heq
      exact .root
    · cases hn
  have hp := hstart.walk ht hcap (by simp [start]) hrun
  refine ⟨fun hl n k hat => ?_, fun hroom => ?_⟩
  · obtain ⟨m, hat', hle⟩ := hp.room n (mem_done_of_reach hrun hl hat.reach) hat.inner hl
    rwa [hat.unique ht hat']
  · by_contra hl
    obtain ⟨n, k, hat, hlt⟩ := hp.lost hl
    exact absurd (hroom n k hat) (Nat.not_le.mpr hlt)

end Branching

end ComputerOS
