import Mathlib.Data.List.Basic
import Mathlib.Data.List.Nodup
import Mathlib.Logic.Function.Basic

/-!
Trees of tables in a flat memory. An entry of a table may point to the next table; a walk
follows one entry of each table on its way and reads an entry of the last one. Every table
has one owner, the root and the indices that lead to it, so that no two walks meet: a table
linked into an empty entry shows nothing new, and a last entry belongs to one walk only.
-/
namespace ComputerOS.TableTree

open Function

variable {ε : Type} (next : ε → Option ℕ) (blank : ε)

/-- The table that the indices lead to. -/
def walk (mem : ℕ → ℕ → ε) : ℕ → List ℕ → Option ℕ
  | t, [] => some t
  | t, i :: is =>
      match next (mem t i) with
      | none => none
      | some u => walk mem u is

/-- Entry `j` of the table that the indices lead to; blank when there is none. -/
def read (mem : ℕ → ℕ → ε) (t : ℕ) (is : List ℕ) (j : ℕ) : ε :=
  match walk next mem t is with
  | none => blank
  | some u => mem u j

/-- Every table knows its root and the indices that lead to it, for tables at most `depth`
steps from a root; `ok` says which entries belong to the tree. -/
def Owned (ok : List ℕ → ℕ → Prop) (depth : ℕ) (owner : ℕ → Option (ℕ × List ℕ)) (mem : ℕ → ℕ → ε) : Prop :=
  ∀ t r p i u, owner t = some (r, p) → p.length < depth → ok p i → next (mem t i) = some u →
    owner u = some (r, p ++ [i])

/-- Every step of the indices `is` after `p` stays inside the tree. -/
def Inside (ok : List ℕ → ℕ → Prop) : List ℕ → List ℕ → Prop
  | _, [] => True
  | p, i :: is => ok p i ∧ Inside ok (p ++ [i]) is

variable {next blank} {ok : List ℕ → ℕ → Prop} {depth : ℕ} {owner : ℕ → Option (ℕ × List ℕ)}
  {mem mem' : ℕ → ℕ → ε} {t r : ℕ} {p is : List ℕ}

theorem walk_cons_of_some {i u : ℕ} (h : next (mem t i) = some u) :
    walk next mem t (i :: is) = walk next mem u is := by
  rw [walk, h]

theorem walk_cons_of_none {i : ℕ} (h : next (mem t i) = none) : walk next mem t (i :: is) = none := by
  rw [walk, h]

theorem read_nil (j : ℕ) : read next blank mem t [] j = mem t j := rfl

theorem read_cons_of_some {i u : ℕ} (h : next (mem t i) = some u) (j : ℕ) :
    read next blank mem t (i :: is) j = read next blank mem u is j := by
  rw [read, read, walk_cons_of_some h]

theorem read_cons_of_none {i : ℕ} (h : next (mem t i) = none) (j : ℕ) :
    read next blank mem t (i :: is) j = blank := by
  rw [read, walk_cons_of_none h]

/-- A walk reads the tables on its way only. -/
theorem walk_congr (h : ∀ js ks u, is = js ++ ks → walk next mem t js = some u → mem' u = mem u) :
    walk next mem' t is = walk next mem t is := by
  induction is generalizing t with
  | nil => rfl
  | cons i is ih =>
    have hsame : mem' t i = mem t i := congrFun (h [] (i :: is) t rfl rfl) i
    cases hnext : next (mem t i) with
    | none => rw [walk_cons_of_none hnext, walk_cons_of_none (by rw [hsame, hnext])]
    | some u =>
      rw [walk_cons_of_some hnext, walk_cons_of_some (by rw [hsame, hnext])]
      refine ih fun js ks w hjs hw => h (i :: js) ks w (by rw [hjs]; rfl) ?_
      rw [walk_cons_of_some hnext, hw]

theorem read_congr (h : ∀ js ks u, is = js ++ ks → walk next mem t js = some u → mem' u = mem u) (j : ℕ) :
    read next blank mem' t is j = read next blank mem t is j := by
  rw [read, read, walk_congr h]
  cases hwalk : walk next mem t is with
  | none => rfl
  | some u => exact congrFun (h is [] u (List.append_nil is).symm hwalk) j

/-- A walk through the tree ends at the table whose owner it names. -/
theorem Owned.walk (h : Owned next ok depth owner mem) (ht : owner t = some (r, p))
    (hlen : p.length + is.length ≤ depth) (hin : Inside ok p is) {u : ℕ}
    (hwalk : walk next mem t is = some u) : owner u = some (r, p ++ is) := by
  induction is generalizing t p with
  | nil =>
    obtain rfl : t = u := by simpa [TableTree.walk] using hwalk
    rw [List.append_nil]
    exact ht
  | cons i is ih =>
    rw [List.length_cons] at hlen
    cases hnext : next (mem t i) with
    | none => simp [walk_cons_of_none hnext] at hwalk
    | some w =>
      rw [walk_cons_of_some hnext] at hwalk
      have hw := h t r p i w ht (by omega) hin.1 hnext
      have := ih hw (by simp; omega) hin.2 hwalk
      rwa [List.append_assoc, List.singleton_append] at this

/-- The memory with the empty table `f` linked into entry `i` of table `t`. -/
structure Linked (next : ε → Option ℕ) (blank : ε) (mem mem' : ℕ → ℕ → ε) (t i f : ℕ) : Prop where
  absent : next (mem t i) = none
  entry : next (mem' t i) = some f
  empty : ∀ j, next (mem' f j) = none
  shown : ∀ j, mem' f j = blank
  other : ∀ x j, x ≠ f → (x = t → j ≠ i) → mem' x j = mem x j

variable {i f : ℕ} {q : List ℕ}

theorem Linked.owned (hl : Linked next blank mem mem' t i f) (h : Owned next ok depth owner mem)
    (ht : owner t = some (r, p)) (hf : owner f = none) :
    Owned next ok depth (update owner f (some (r, p ++ [i]))) mem' := by
  intro x r' q j u hx hlen hok hnext
  by_cases hxf : x = f
  · rw [hxf, hl.empty j] at hnext
    cases hnext
  · rw [update_of_ne hxf] at hx
    by_cases hslot : x = t ∧ j = i
    · obtain ⟨rfl, rfl⟩ := hslot
      rw [hl.entry] at hnext
      cases hnext
      rw [ht] at hx
      cases hx
      exact update_self f _ owner
    · rw [hl.other x j hxf fun he hj => hslot ⟨he, hj⟩] at hnext
      have hu := h x r' q j u hx hlen hok hnext
      rw [update_of_ne, hu]
      rintro rfl
      rw [hf] at hu
      cases hu

/-- A table linked into an empty entry shows nothing new. -/
theorem Linked.read (hl : Linked next blank mem mem' t i f) (h : Owned next ok depth owner mem)
    (ht : owner t = some (r, p)) (hlt : p.length < depth) (hf : owner f = none) {x r' : ℕ}
    (hx : owner x = some (r', q)) (hlen : q.length + is.length = depth) (hin : Inside ok q is) (j : ℕ) :
    read next blank mem' x is j = read next blank mem x is j := by
  induction is generalizing x q with
  | nil =>
    rw [read_nil, read_nil]
    refine hl.other x j (fun he => ?_) fun he => ?_
    · rw [he, hf] at hx
      cases hx
    · -- the last table of a walk is not one that tables are linked into
      rw [he, ht] at hx
      cases hx
      rw [List.length_nil] at hlen
      omega
  | cons k is ih =>
    rw [List.length_cons] at hlen
    have hxf : x ≠ f := fun he => by rw [he, hf] at hx; cases hx
    by_cases hslot : x = t ∧ k = i
    · obtain ⟨rfl, rfl⟩ := hslot
      rw [read_cons_of_some hl.entry, read_cons_of_none hl.absent]
      cases is with
      | nil => exact hl.shown j
      | cons k' is => exact read_cons_of_none (hl.empty k') j
    · have hsame := hl.other x k hxf fun he hk => hslot ⟨he, hk⟩
      cases hnext : next (mem x k) with
      | none => rw [read_cons_of_none hnext, read_cons_of_none (by rw [hsame, hnext])]
      | some u =>
        rw [read_cons_of_some hnext, read_cons_of_some (by rw [hsame, hnext])]
        exact ih (h x r' q k u hx (by omega) hin.1 hnext) (by simp; omega) hin.2

section Leaf

variable (h : Owned next ok depth owner mem) (ht : owner t = some (r, p)) (hdepth : p.length = depth)
  (hother : ∀ x j, (x = t → j ≠ i) → mem' x j = mem x j)

include h ht hdepth hother

theorem Owned.writeLeaf : Owned next ok depth owner mem' := by
  intro x r' q j u hx hlen hok hnext
  rw [hother x j fun he => ?_] at hnext
  · exact h x r' q j u hx hlen hok hnext
  · rw [he, ht] at hx
    cases hx
    omega

theorem Owned.walk_writeLeaf {x r' : ℕ} (hx : owner x = some (r', q)) (hlen : q.length + is.length ≤ depth)
    (hin : Inside ok q is) : TableTree.walk next mem' x is = TableTree.walk next mem x is := by
  induction is generalizing x q with
  | nil => rfl
  | cons k is ih =>
    rw [List.length_cons] at hlen
    have hsame : mem' x k = mem x k := by
      refine hother x k fun he => ?_
      rw [he, ht] at hx
      cases hx
      omega
    cases hnext : next (mem x k) with
    | none => rw [walk_cons_of_none hnext, walk_cons_of_none (by rw [hsame, hnext])]
    | some u =>
      rw [walk_cons_of_some hnext, walk_cons_of_some (by rw [hsame, hnext])]
      exact ih (h x r' q k u hx (by omega) hin.1 hnext) (by simp; omega) hin.2

/-- A last entry is read by the one walk that its table belongs to. -/
theorem Owned.read_writeLeaf {x r' : ℕ} (hx : owner x = some (r', q)) (hlen : q.length + is.length = depth)
    (hin : Inside ok q is) (j : ℕ) (hne : (r', q ++ is) ≠ (r, p) ∨ j ≠ i) :
    read next blank mem' x is j = read next blank mem x is j := by
  induction is generalizing x q with
  | nil =>
    rw [read_nil, read_nil]
    refine hother x j fun he => ?_
    rw [he, ht] at hx
    cases hx
    rw [List.append_nil] at hne
    exact hne.resolve_left fun h => h rfl
  | cons k is ih =>
    rw [List.length_cons] at hlen
    have hsame : mem' x k = mem x k := by
      refine hother x k fun he => ?_
      rw [he, ht] at hx
      cases hx
      omega
    cases hnext : next (mem x k) with
    | none => rw [read_cons_of_none hnext, read_cons_of_none (by rw [hsame, hnext])]
    | some u =>
      rw [read_cons_of_some hnext, read_cons_of_some (by rw [hsame, hnext])]
      refine ih (h x r' q k u hx (by omega) hin.1 hnext) (by simp; omega) hin.2 ?_
      rwa [List.append_assoc, List.singleton_append]

end Leaf

theorem walk_append (is js : List ℕ) :
    walk next mem t (is ++ js) = (walk next mem t is).bind fun u => walk next mem u js := by
  induction is generalizing t with
  | nil => rfl
  | cons i is ih =>
    rw [List.cons_append]
    cases hnext : next (mem t i) with
    | none => rw [walk_cons_of_none hnext, walk_cons_of_none hnext, Option.bind_none]
    | some u => rw [walk_cons_of_some hnext, walk_cons_of_some hnext, ih]

/-- A walk is still there when the entries of the tree that point somewhere are. -/
theorem Owned.walk_kept (h : Owned next ok depth owner mem)
    (hkept : ∀ x j, owner x ≠ none → next (mem x j) ≠ none → mem' x j = mem x j) (ht : owner t = some (r, p))
    (hlen : p.length + is.length ≤ depth) (hin : Inside ok p is) {u : ℕ}
    (hwalk : TableTree.walk next mem t is = some u) : TableTree.walk next mem' t is = some u := by
  induction is generalizing t p with
  | nil => exact hwalk
  | cons i is ih =>
    rw [List.length_cons] at hlen
    cases hnext : next (mem t i) with
    | none =>
      rw [walk_cons_of_none hnext] at hwalk
      cases hwalk
    | some w =>
      rw [walk_cons_of_some hnext] at hwalk
      have hsame : mem' t i = mem t i :=
        hkept t i (by rw [ht]; exact Option.some_ne_none _) (by rw [hnext]; exact Option.some_ne_none _)
      rw [walk_cons_of_some (by rw [hsame, hnext])]
      refine ih (h t r p i w ht (by omega) hin.1 hnext) ?_ hin.2 hwalk
      rw [List.length_append, List.length_singleton]
      omega

/-- The indices stay below the widths of the tables on the way. -/
def Below : List ℕ → List ℕ → Prop
  | _, [] => True
  | [], _ :: _ => False
  | n :: ns, i :: is => i < n ∧ Below ns is

theorem below_nil (ns : List ℕ) : Below ns [] := by
  cases ns <;> exact trivial

theorem Below.concat {ns : List ℕ} {n i : ℕ} (h : Below ns is) (hn : ns[is.length]? = some n) (hi : i < n) :
    Below ns (is ++ [i]) := by
  induction is generalizing ns with
  | nil =>
    cases ns with
    | nil => simp at hn
    | cons m ns => exact ⟨by simp at hn; omega, below_nil ns⟩
  | cons j is ih =>
    cases ns with
    | nil => cases h
    | cons m ns => exact ⟨h.1, ih h.2 (by simpa using hn)⟩

theorem Below.length_le {ns : List ℕ} (h : Below ns is) : is.length ≤ ns.length := by
  induction is generalizing ns with
  | nil => exact Nat.zero_le _
  | cons i is ih =>
    cases ns with
    | nil => cases h
    | cons n ns => exact Nat.succ_le_succ (ih h.2)

variable (next) in
/-- The table `t` behind all tables below it, of the given widths. -/
def subtables (mem : ℕ → ℕ → ε) : List ℕ → ℕ → List ℕ
  | [], t => [t]
  | n :: ns, t => ((List.range n).flatMap fun i =>
      match next (mem t i) with
      | none => []
      | some u => subtables mem ns u) ++ [t]

theorem mem_subtables {ns : List ℕ} {u : ℕ} :
    u ∈ subtables next mem ns t ↔ ∃ is, Below ns is ∧ walk next mem t is = some u := by
  induction ns generalizing t with
  | nil =>
    rw [subtables, List.mem_singleton]
    constructor
    · rintro rfl
      exact ⟨[], trivial, rfl⟩
    · rintro ⟨is, hbelow, hwalk⟩
      cases is with
      | nil => exact (Option.some.inj hwalk).symm
      | cons i is => cases hbelow
  | cons n ns ih =>
    rw [subtables, List.mem_append, List.mem_flatMap, List.mem_singleton]
    constructor
    · rintro (⟨i, hi, hu⟩ | rfl)
      · cases hnext : next (mem t i) with
        | none => simp [hnext] at hu
        | some w =>
          rw [hnext] at hu
          obtain ⟨is, hbelow, hwalk⟩ := ih.mp hu
          exact ⟨i :: is, ⟨List.mem_range.mp hi, hbelow⟩, by rw [walk_cons_of_some hnext, hwalk]⟩
      · exact ⟨[], trivial, rfl⟩
    · rintro ⟨is, hbelow, hwalk⟩
      cases is with
      | nil => exact Or.inr (Option.some.inj hwalk).symm
      | cons i is =>
        refine Or.inl ⟨i, List.mem_range.mpr hbelow.1, ?_⟩
        cases hnext : next (mem t i) with
        | none =>
          rw [walk_cons_of_none hnext] at hwalk
          cases hwalk
        | some w =>
          rw [walk_cons_of_some hnext] at hwalk
          exact ih.mpr ⟨is, hbelow.2, hwalk⟩

section Below

variable {n i : ℕ} {ns : List ℕ} {w : ℕ} (h : Owned next ok depth owner mem) (ht : owner t = some (r, p))
  (hlen : p.length + (n :: ns).length ≤ depth) (hin : ∀ is, Below (n :: ns) is → Inside ok p is)
  (hi : i < n) (hnext : next (mem t i) = some w)

include h ht hlen hin hi hnext

/-- The table behind an entry has the same room below it. -/
theorem Owned.child : owner w = some (r, p ++ [i]) ∧ (p ++ [i]).length + ns.length ≤ depth ∧
    ∀ is, Below ns is → Inside ok (p ++ [i]) is := by
  rw [List.length_cons] at hlen
  have hone := hin [i] ⟨hi, below_nil ns⟩
  refine ⟨h t r p i w ht (by omega) hone.1 hnext, ?_, fun is hbelow => (hin (i :: is) ⟨hi, hbelow⟩).2⟩
  rw [List.length_append, List.length_singleton]
  omega

theorem Owned.owner_below {u : ℕ} (hu : u ∈ subtables next mem ns w) : ∃ is, owner u = some (r, p ++ i :: is) := by
  obtain ⟨hw, hlen', hin'⟩ := h.child ht hlen hin hi hnext
  obtain ⟨is, hbelow, hwalk⟩ := mem_subtables.mp hu
  refine ⟨is, ?_⟩
  rw [h.walk hw (Nat.le_trans (Nat.add_le_add_left hbelow.length_le _) hlen') (hin' is hbelow)
    hwalk, List.append_assoc, List.singleton_append]

end Below

/-- In a tree no table occurs twice below a table. -/
theorem Owned.nodup_subtables {ns : List ℕ} (h : Owned next ok depth owner mem) (ht : owner t = some (r, p))
    (hlen : p.length + ns.length ≤ depth) (hin : ∀ is, Below ns is → Inside ok p is) :
    (subtables next mem ns t).Nodup := by
  induction ns generalizing t p with
  | nil => exact List.nodup_singleton t
  | cons n ns ih =>
    -- what stands behind an entry has an owner that names the entry
    have hname : ∀ i ∈ List.range n, ∀ u ∈ (match next (mem t i) with
        | none => []
        | some w => subtables next mem ns w), ∃ is, owner u = some (r, p ++ i :: is) := by
      intro i hi u hu
      cases hnext : next (mem t i) with
      | none => simp [hnext] at hu
      | some w =>
        rw [hnext] at hu
        exact h.owner_below ht hlen hin (List.mem_range.mp hi) hnext hu
    rw [subtables, List.nodup_append, List.nodup_flatMap]
    refine ⟨⟨fun i hi => ?_, ?_⟩, List.nodup_singleton t, ?_⟩
    · cases hnext : next (mem t i) with
      | none => exact List.nodup_nil
      | some w =>
        obtain ⟨hw, hlen', hin'⟩ := h.child ht hlen hin (List.mem_range.mp hi) hnext
        exact ih hw hlen' hin'
    · refine List.nodup_range.imp_of_mem fun {i j} hi hj hne u hui huj => hne ?_
      obtain ⟨is, hu⟩ := hname i hi u hui
      obtain ⟨js, hu'⟩ := hname j hj u huj
      have heq := hu.symm.trans hu'
      simp only [Option.some.injEq, Prod.mk.injEq, List.append_cancel_left_eq, List.cons.injEq, true_and] at heq
      exact heq.1
    · intro u hu v hv
      rw [List.mem_singleton] at hv
      rintro rfl
      obtain ⟨i, hi, hu⟩ := List.mem_flatMap.mp hu
      obtain ⟨is, howner⟩ := hname i hi u hu
      rw [hv, ht] at howner
      simp at howner

end ComputerOS.TableTree
