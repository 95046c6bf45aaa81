import ComputerOS.Loader.Recorded
import Mathlib.Order.Nat

/-!
`brk`. A break that is granted lies in the heap, and a break that is not granted changes nothing.
What the call returns is the break, except for a break that is asked for below the heap. The pages
below the break stay mapped when they are, and in a new program they are; but a page may be mapped
without a record, and `fork` does not copy it.
-/
namespace ComputerOS.Loader

open Function Fallible

variable {e : PageEnv} {env : ℕ → PageEnv} {v n p : ℕ} {content : ℕ → UInt8} {u u₀ : Space}
    {m m' : Frames} {w w' : View}
  {o : Option Unit × View}

/-- The heap's bounds are those of `u₀`, and what was mapped there is mapped. -/
structure Grown (u₀ : Space) (w : View) : Prop where
  base : w.u.heapBase = u₀.heapBase
  brk : w.u.heapBrk = u₀.heapBrk
  max : w.u.heapMax = u₀.heapMax
  pages : ∀ p, (u₀.pd p).isSome → (w.u.pd p).isSome

theorem Grown.refl (w : View) : Grown w.u w := ⟨rfl, rfl, rfl, fun _ => id⟩

theorem Grown.trans (h : Grown u₀ w) (h' : Grown w.u w') : Grown u₀ w' :=
  ⟨h'.base.trans h.base, h'.brk.trans h.brk, h'.max.trans h.max, fun p hp =>
  h'.pages p (h.pages p hp)⟩

theorem grown_mapIn (w : View) (v f : ℕ) : Grown w.u (w.mapIn v f) := by
  unfold View.mapIn
  split
  · refine ⟨rfl, rfl, rfl, fun p hp => ?_⟩
    dsimp only
    by_cases h : p = page v
    · rw [h, update_self]
      rfl
    · rw [update_of_ne h]
      exact hp
  · exact ⟨rfl, rfl, rfl, fun _ => id⟩

theorem Placed.grown (h : Placed e v content w o) : Grown w.u o.2 := by
  have hmap := grown_mapIn w v e.frame
  cases h with
  | refused bytes hbytes => exact ⟨rfl, rfl, rfl, fun _ => id⟩
  | lost hfree hrec => exact ⟨hmap.base, hmap.brk, hmap.max, hmap.pages⟩
  | done blocks hfree h0 hrec => exact ⟨hmap.base, hmap.brk, hmap.max, hmap.pages⟩

theorem Placed.mapped (h : Placed e v content w o) (hv : page v < USER_PAGES) (hok : o.1 = some ()) :
    (o.2.u.pd (page v)).isSome := by
  cases h with
  | refused bytes hbytes => cases hok
  | lost hfree hrec => cases hok
  | done blocks hfree h0 hrec =>
    have hpd : (w.place v e.frame content blocks).u.pd = (w.mapIn v e.frame).u.pd := rfl
    rw [hpd, mapIn_user w e.frame hv]
    dsimp only
    rw [update_self]
    rfl

theorem grown_new : Triple (Grown u₀) (allocUserPage e v) (fun _ => Grown u₀) (Grown u₀) :=
  triple_placed id (fun _ _ => 0) (fun w _ => placed_alloc e v w)
    fun _ _ hw hp => ⟨fun _ => hw.trans hp.grown, fun _ => hw.trans hp.grown⟩

theorem grown_anon : Triple (Grown u₀) (loaderMapAnonPage e v) (fun _ => Grown u₀) (Grown u₀) :=
  triple_anon (fun _ hw _ => hw) (grown_new.mono (fun _ hw => hw.1) (fun _ _ => id) fun _ => id)

theorem grown_eachNew (env : ℕ → PageEnv) (l : List ℕ) :
    Triple (Grown u₀) (each allocUserPage env l) (fun _ => Grown u₀) (Grown u₀) :=
  Triple.each_keeps (fun _ => True) (fun _ _ _ _ => grown_new) fun _ => trivial

/-- The pages of `all` that are not still to come are mapped. -/
structure Mapping (u₀ : Space) (all l : List ℕ) (w : View) : Prop extends Grown u₀ w where
  sub : ∀ v ∈ l, v ∈ all
  done : ∀ v ∈ all, v ∉ l → (w.u.pd (page v)).isSome

theorem mapping_anon {all l : List ℕ} (huser : ∀ v ∈ all, page v < USER_PAGES) :
    Triple (Mapping u₀ all (v :: l)) (loaderMapAnonPage e v) (fun _ => Mapping u₀ all l) (Grown u₀) := by
  have hnext : ∀ {w w' : View}, Mapping u₀ all (v :: l) w → Grown w.u w' →
    (w'.u.pd (page v)).isSome → Mapping u₀ all l w' := by
    intro w w' hw hgrown hv
    refine ⟨hw.toGrown.trans hgrown, fun x hx => hw.sub x (List.mem_cons_of_mem v hx), fun x hx hxl => ?_⟩
    by_cases hxv : x = v
    · rw [hxv]
      exact hv
    · exact hgrown.pages _ (hw.done x hx fun h => (List.mem_cons.mp h).elim hxv hxl)
  refine triple_anon (fun w hw hseen => hnext hw (Grown.refl w) ?_) ?_
  · rwa [resolve_user w (huser v (hw.sub v List.mem_cons_self))] at hseen
  · refine triple_placed id (fun _ _ => 0) (fun w _ => placed_alloc e v w) fun w o hw hp => ⟨fun hok => ?_, fun _ => ?_⟩
    · exact hnext hw.1 hp.grown (hp.mapped (huser v (hw.1.sub v List.mem_cons_self)) hok)
    · exact hw.1.toGrown.trans hp.grown

/-- All pages are mapped, or the call gives up with the break where it was. -/
theorem mapping_each (env : ℕ → PageEnv) {all : List ℕ} (huser : ∀ v ∈ all, page v < USER_PAGES) :
    Triple (fun w => w.u = u₀) (each loaderMapAnonPage env all) (fun _ => Mapping u₀ all []) (Grown u₀) := by
  refine (Triple.each (fun _ => True) (fun _ _ _ _ => mapping_anon huser) all fun _ => trivial).mono
    (fun w hw => ?_) (fun _ _ => id) fun _ => id
  rw [← hw]
  exact ⟨Grown.refl w, fun _ => id, fun v hv hn => absurd hv hn⟩

def Beside (dom : ℕ → Prop) (u₀ : Space) (w : View) : Prop := ∀ p, ¬ dom p → w.u.pd p = u₀.pd p

theorem Placed.beside {dom : ℕ → Prop} (h : Placed e v content w o) (hw : Beside dom u₀ w) (hv : dom (page v)) :
    Beside dom u₀ o.2 := by
  have hmap : ∀ p, ¬ dom p → (w.mapIn v e.frame).u.pd p = w.u.pd p :=
    fun p hp => mapIn_pd w v e.frame fun heq => hp (heq ▸ hv)
  intro p hp
  rw [← hw p hp]
  cases h with
  | refused bytes hbytes => rfl
  | lost hfree hrec => exact hmap p hp
  | done blocks hfree h0 hrec => exact hmap p hp

theorem beside_anon {dom : ℕ → Prop} (hv : dom (page v)) :
    Triple (Beside dom u₀) (loaderMapAnonPage e v) (fun _ => Beside dom u₀) (Beside dom u₀) :=
  triple_anon (fun _ hw _ => hw) <|
    triple_placed id (fun _ _ => 0) (fun w _ => placed_alloc e v w)
      fun _ _ hw hp => ⟨fun _ => hp.beside hw.1 hv, fun _ => hp.beside hw.1 hv⟩

theorem beside_each {dom : ℕ → Prop} (env : ℕ → PageEnv) {l : List ℕ} (hl : ∀ v ∈ l, dom (page v)) :
    Triple (Beside dom u₀) (each loaderMapAnonPage env l) (fun _ => Beside dom u₀) (Beside dom u₀) :=
  Triple.each_keeps (fun _ => True) (fun _ _ v hv => beside_anon (hl v hv)) fun _ => trivial

/-- The heap has its bounds, and the break lies between them. -/
structure HeapIn (w : View) : Prop where
  base : w.u.heapBase = LOADER_HEAP_BASE
  max : w.u.heapMax = LOADER_HEAP_BASE + LOADER_HEAP_MAX
  lower : LOADER_HEAP_BASE ≤ w.u.heapBrk
  upper : w.u.heapBrk ≤ LOADER_HEAP_BASE + LOADER_HEAP_MAX

/-- The page of every address of the heap below `top` is mapped. -/
def Backed (w : View) (top : ℕ) : Prop := ∀ v, LOADER_HEAP_BASE ≤ v → v < top → (w.u.pd (page v)).isSome

theorem Backed.mono {x y : ℕ} (h : Backed w y) (hle : x ≤ y) : Backed w x := fun v h1 h2 => h v h1 (h2.trans_le hle)

theorem Backed.grown {x : ℕ} (h : Backed w x) (hw : Grown w.u w') : Backed w' x :=
  fun v h1 h2 => hw.pages _ (h v h1 h2)

/-- A space with the initial break. -/
theorem Grown.heapIn (h : Grown {} w) : HeapIn w where
  base := h.base
  max := h.max
  lower := h.brk.ge
  upper := h.brk.le.trans (Nat.le_add_right _ _)

/-- The initial break is the start of the heap. -/
theorem Grown.backed (h : Grown {} w) : Backed w w.u.heapBrk :=
  fun _ h1 h2 => absurd (h2.trans_eq h.brk) (Nat.not_lt.mpr h1)

theorem HeapIn.grown (h : HeapIn w) (hw : Grown w.u w') : HeapIn w' where
  base := hw.base.trans h.base
  max := hw.max.trans h.max
  lower := h.lower.trans_eq hw.brk.symm
  upper := hw.brk.le.trans h.upper

theorem HeapIn.moved (h : HeapIn w) (h1 : LOADER_HEAP_BASE ≤ n) (h2 : n ≤ LOADER_HEAP_BASE + LOADER_HEAP_MAX) :
    HeapIn { w with u := { w.u with heapBrk := n } } where
  base := h.base
  max := h.max
  lower := h1
  upper := h2

/-- The page of an address is one of those that are gone over, when it is not below the old break.
-/
theorem page_mem_pagesIn {brk : ℕ} (hn : n ≤ LOADER_HEAP_BASE + LOADER_HEAP_MAX) (h1 : pageUp brk ≤ v) (h2 : v < n) :
    v / 0x1000 * 0x1000 ∈ pagesIn (pageUp brk) (pageUp n) := by
  unfold LOADER_HEAP_BASE LOADER_HEAP_MAX at hn
  unfold pageUp at h1
  refine List.mem_map.mpr ⟨(v - pageUp brk) / 0x1000, List.mem_range.mpr ?_, ?_⟩ <;>
  · unfold pageUp
    omega

theorem page_start (v : ℕ) : page (v / 0x1000 * 0x1000) = page v := by
  unfold page
  omega

/-- Between the break and the end of its page there is no other page. -/
theorem page_below_pageUp {brk : ℕ} (hpos : 0 < brk) (hbrk : brk ≤ LOADER_HEAP_BASE + LOADER_HEAP_MAX) (h1 : brk ≤ v)
    (h2 : v < pageUp brk) : page v = page (brk - 1) := by
  unfold LOADER_HEAP_BASE LOADER_HEAP_MAX at hbrk
  unfold pageUp at h2
  unfold page
  omega

/-- What the loop goes over lies behind the break. -/
theorem pagesIn_above {brk x : ℕ} (hbrk : brk ≤ LOADER_HEAP_BASE + LOADER_HEAP_MAX)
    (hn : n ≤ LOADER_HEAP_BASE + LOADER_HEAP_MAX) (h1 : v < brk) (hx : x ∈ pagesIn (pageUp brk) (pageUp n)) :
    page x ≠ page v := by
  obtain ⟨i, hi, rfl⟩ := List.mem_map.mp hx
  rw [List.mem_range] at hi
  unfold LOADER_HEAP_BASE LOADER_HEAP_MAX at hn hbrk
  unfold pageUp at *
  unfold page
  omega

/-- When all pages up to the new break have been gone over, those below it are mapped if those below
the old one were. -/
theorem Backed.raised (h : HeapIn w) (hb : Backed w w.u.heapBrk)
    (hw : Mapping w.u (pagesIn (pageUp w.u.heapBrk) (pageUp n)) [] w') (h2 : n ≤ LOADER_HEAP_BASE + LOADER_HEAP_MAX) :
    Backed w' n := by
  have hold := hb.grown hw.toGrown
  intro v hv hlt
  have hlower := h.lower
  have hpos : 0 < w.u.heapBrk := by
    unfold LOADER_HEAP_BASE at hlower
    omega
  by_cases hbelow : v < w.u.heapBrk
  · exact hold v hv hbelow
  by_cases hpage : v < pageUp w.u.heapBrk
  · rw [page_below_pageUp hpos h.upper (Nat.not_lt.mp hbelow) hpage]
    by_cases hfirst : w.u.heapBrk = LOADER_HEAP_BASE
    · -- the heap begins with a page, so its first page is not below the break
      rw [hfirst] at hpage hbelow
      have haligned : pageUp LOADER_HEAP_BASE = LOADER_HEAP_BASE := by decide
      omega
    · exact hold _ (by omega) (by omega)
  · have hdone := hw.done _ (page_mem_pagesIn h2 (Nat.not_lt.mp hpage) hlt) (List.not_mem_nil)
    rwa [page_start] at hdone

/-- The break stays or moves to `n`, and the pages below it are mapped when those below both breaks
were before. -/
structure Moves (n : ℕ) (w w' : View) : Prop where
  heap : HeapIn w'
  brk : w'.u.heapBrk = n ∨ w'.u.heapBrk = w.u.heapBrk
  backed : Backed w' w'.u.heapBrk ↔ Backed w (min w.u.heapBrk w'.u.heapBrk)

theorem HeapIn.stays (h : HeapIn w) (n : ℕ) : Moves n w w := ⟨h, Or.inr rfl, by rw [Nat.min_self]⟩

/-- Pages below the break are as before. -/
theorem Backed.of_beside (hin : HeapIn w) (hn : n ≤ LOADER_HEAP_BASE + LOADER_HEAP_MAX)
    (hw : Beside (fun p => ∃ x ∈ pagesIn (pageUp w.u.heapBrk) (pageUp n), p = page x) w.u w')
    (h : Backed w' w.u.heapBrk) : Backed w w.u.heapBrk := by
  intro v h1 h2
  have hsame : w'.u.pd (page v) = w.u.pd (page v) := by
    refine hw _ ?_
    rintro ⟨x, hx, heq⟩
    exact pagesIn_above hin.upper hn h2 hx heq.symm
  rw [← hsame]
  exact h v h1 h2

/-- `loader_sbrk64`: the break goes up with its pages, or stays. -/
theorem HeapIn.sbrk64 (h : HeapIn w) {delta : ℤ} (hdelta : delta < 2 ^ 63) :
    Moves (w.u.heapBrk + delta.toNat) w (loaderSbrk64 delta env w).2 := by
  unfold loaderSbrk64
  dsimp only
  split
  · exact h.stays _
  split
  · exact h.stays _
  rename_i hpos hmax
  have hupper := h.upper
  rw [h.max, Nat.not_lt] at hmax
  have hsum : (w.u.heapBrk + delta.toNat) % 2 ^ 64 = w.u.heapBrk + delta.toNat := by
    unfold LOADER_HEAP_BASE LOADER_HEAP_MAX at hupper
    omega
  rw [hsum] at hmax ⊢
  have huser : ∀ v ∈ pagesIn (pageUp w.u.heapBrk) (pageUp (w.u.heapBrk + delta.toNat)), page v < USER_PAGES :=
    fun v hv => heap_user hmax hv
  have hloop := mapping_each env huser w rfl
  have hside := beside_each env (fun v hv =>
    show ∃ x ∈ pagesIn (pageUp w.u.heapBrk) (pageUp (w.u.heapBrk + delta.toNat)),
    page v = page x from ⟨v, hv, rfl⟩) w fun p (_ : ¬ ∃ x ∈ _, p = page x) =>
    (rfl : w.u.pd p = w.u.pd p)
  rcases hrun : (each loaderMapAnonPage env
    (pagesIn (pageUp w.u.heapBrk) (pageUp (w.u.heapBrk + delta.toNat)))).run w with
    ⟨_ | _, w'⟩
  · rw [hrun] at hloop hside
    have hgrown := hloop.2 rfl
    have hbrk : w'.u.heapBrk = w.u.heapBrk := hgrown.brk
    refine ⟨h.grown hgrown, Or.inr hbrk, ?_⟩
    dsimp only
    rw [hbrk, Nat.min_self]
    exact ⟨fun hb => hb.of_beside h hmax (hside.2 rfl), fun hb => hb.grown hgrown⟩
  · rw [hrun] at hloop hside
    have hmapping := hloop.1 () rfl
    refine ⟨(h.grown hmapping.toGrown).moved (h.lower.trans (Nat.le_add_right _ _)) hmax, Or.inl rfl, ?_⟩
    dsimp only
    rw [Nat.min_eq_left (Nat.le_add_right _ _)]
    constructor
    · intro hb
      refine Backed.of_beside h hmax (hside.1 () rfl) fun v h1 h2 => ?_
      exact hb v h1 (h2.trans_le (Nat.le_add_right _ _))
    · exact fun hb => show Backed w' _ from hb.raised h hmapping hmax

theorem toInt64_lt (x : ℕ) (hx : x < 2 ^ 64) : toInt64 x < 2 ^ 63 := by
  unfold toInt64
  split <;> omega

/-- `loader_brk`: the break is the one that was asked for, or stays. -/
theorem HeapIn.brk (h : HeapIn w) (hn : n < 2 ^ 64) : Moves n w (loaderBrk n env w).2 := by
  unfold loaderBrk
  dsimp only
  split
  · exact h.stays _
  split
  · rename_i hle
    unfold loaderSetBrk
    rw [h.base]
    split
    · rename_i hin
      refine ⟨h.moved hin.1 (hle.trans h.upper), Or.inl rfl, ?_⟩
      dsimp only
      rw [Nat.min_eq_right hle]
      exact Iff.rfl
    · exact h.stays _
  · rename_i h0 hle
    obtain ⟨hheap, hbrk, hbacked⟩ := @HeapIn.sbrk64 env w h _ (toInt64_lt (n - w.u.heapBrk) (by omega))
    refine ⟨hheap, ?_, hbacked⟩
    rcases hbrk with hbrk | hbrk
    · by_cases hlarge : n - w.u.heapBrk < 2 ^ 63
      · refine Or.inl (hbrk.trans ?_)
        rw [toInt64, if_pos hlarge]
        omega
      · refine Or.inr (hbrk.trans ?_)
        rw [toInt64, if_neg hlarge]
        omega
    · exact Or.inr hbrk

/-- Each page of the heap below the break has a record with a frame. -/
def Covered (u : Space) : Prop :=
  ∀ v, LOADER_HEAP_BASE ≤ v → v < u.heapBrk → ∃ r ∈ u.records, r.2 ≠ 0 ∧ page r.1 = page v

/-- A task's own space and the frames: after a load, an `exec`, or a `fork` of a task with `P`,
whatever `brk` calls it makes and whatever other tasks do to the frames. -/
inductive HeapRun (P : Space → Prop) : View → Prop
  | load {u : Space} {m m' : Frames} {env : LoadEnv} (h : loaderRunArgs env m = (some u, m')) : HeapRun P ⟨u, m'⟩
  | exec {u : Space} {m m' : Frames} {linuxAbi : Bool} {env : LoadEnv} (h : doExec linuxAbi env m = (some u, m')) :
    HeapRun P ⟨u, m'⟩
  | fork {pr u : Space} {m m' : Frames} {env : ForkEnv} (hpr : HeapRun P ⟨pr, m⟩) (hP : P pr)
      (h : loaderFork pr env m = (some u, m')) : HeapRun P ⟨u, m'⟩
  | brk {w : View} (h : HeapRun P w) (n : ℕ) (hn : n < 2 ^ 64) (env : ℕ → PageEnv) : HeapRun P (loaderBrk n env w).2
  | others {u : Space} {m : Frames} (h : HeapRun P ⟨u, m⟩) (m' : Frames) : HeapRun P ⟨u, m'⟩

theorem grown_image {image : Image} {env : ℕ → ℕ → ℕ → PageEnv} :
    Triple (fun w => w = ⟨{}, m⟩) (loadImage image env) (fun _ => Grown {}) fun _ => True := by
  refine loadImage_triple (fun w hw => ?_) (fun _ _ => trivial)
    (fun e v _ => grown_anon.mono (fun _ => id) (fun _ _ => id) fun _ _ => trivial)
    fun filesz _ env => (grown_eachNew env flatPages).mono (fun w hw => ?_) (fun _ _ => id) fun _ _ => trivial
  all_goals
    rw [hw]
    exact ⟨rfl, rfl, rfl, fun _ => id⟩

theorem grown_load {env : LoadEnv} (h : loaderRunArgs env m = (some u, m')) : Grown {} ⟨u, m'⟩ := by
  have hout : Outcome (Grown {}) (fun _ => True) (loaderRunArgs env m) := by
    refine loaderRunArgs_outcome (I := Grown {}) trivial (fun image _ => grown_image) ?_ fun _ _ => trivial
    exact (grown_eachNew _ stackPages).mono (fun _ => id) (fun _ _ => id) fun _ _ => trivial
  rw [h] at hout
  exact hout

theorem grown_exec {linuxAbi : Bool} {env : LoadEnv} (h : doExec linuxAbi env m = (some u, m')) : Grown {} ⟨u, m'⟩ := by
  have hout : Outcome (Grown {}) (fun _ => True) (doExec linuxAbi env m) := by
    refine doExec_outcome (I := Grown {}) trivial (fun image _ => grown_image) ?_ fun _ _ => trivial
    cases linuxAbi with
    | true => exact (grown_eachNew _ stackPages).mono (fun _ => id) (fun _ _ => id) fun _ _ => trivial
    | false => exact grown_new.mono (fun _ => id) (fun _ _ => id) fun _ _ => trivial
  rw [h] at hout
  exact hout

/-- The clones of the records that are not still to come are mapped. -/
structure Cloning (pr : Space) (l : List (ℕ × ℕ)) (w : View) : Prop extends Grown (childSpace pr) w where
  sub : ∀ r ∈ l, r ∈ pr.records
  done : ∀ r ∈ pr.records, r ∉ l → r.2 ≠ 0 → page r.1 < USER_PAGES → (w.u.pd (page r.1)).isSome

theorem cloning_step {pr : Space} {r : ℕ × ℕ} {l : List (ℕ × ℕ)} :
    Triple (Cloning pr (r :: l)) (clonePage e r) (fun _ => Cloning pr l) fun _ => True := by
  have hsub : ∀ {w : View}, Cloning pr (r :: l) w → ∀ x ∈ l, x ∈ pr.records :=
    fun hw x hx => hw.sub x (List.mem_cons_of_mem r hx)
  have hnot : ∀ {x : ℕ × ℕ}, x ≠ r → x ∉ l → x ∉ r :: l := fun hxr hxl h => (List.mem_cons.mp h).elim hxr hxl
  by_cases h0 : r.2 = 0
  · intro w hw
    have hrun : (clonePage e r).run w = (some (), w) := if_pos h0
    rw [hrun]
    refine ⟨fun _ _ => ⟨hw.toGrown, hsub hw, fun x hx hxl hx0 => ?_⟩, fun _ => trivial⟩
    exact hw.done x hx (hnot (fun h => hx0 (h ▸ h0)) hxl) hx0
  · refine triple_placed Prod.fst (fun w => w.m.bytes r.2) (fun w _ => placed_clone e h0 w)
      fun w o hw hp => ⟨fun hok => ⟨hw.toGrown.trans hp.grown, hsub hw, fun x hx hxl hx0 hxu => ?_⟩, fun _ => trivial⟩
    by_cases hxr : x = r
    · rw [hxr] at hxu ⊢
      exact hp.mapped hxu hok
    · exact hp.grown.pages _ (hw.done x hx (hnot hxr hxl) hx0 hxu)

/-- Of the parent's records the child gets the pages, and it gets the parent's break. -/
theorem cloning_fork {pr : Space} {env : ForkEnv} (h : loaderFork pr env m = (some u, m')) : Cloning pr [] ⟨u, m'⟩ := by
  have hout : Outcome (Cloning pr []) (fun _ => True) (loaderFork pr env m) := by
    refine loaderFork_outcome trivial ?_ fun _ _ => trivial
    refine (Triple.each (fun _ => True) (fun _ _ _ _ => cloning_step) pr.records fun _ => trivial).mono (fun w hw => ?_)
      (fun _ _ => id) fun _ _ => trivial
    rw [hw]
    exact ⟨Grown.refl ⟨childSpace pr, m⟩, fun _ => id, fun r hr hn => absurd hr hn⟩
  rw [h] at hout
  exact hout

theorem HeapIn.fork {pr : Space} {env : ForkEnv} (hpr : HeapIn ⟨pr, m⟩) (h : loaderFork pr env m = (some u, m')) :
    HeapIn ⟨u, m'⟩ := by
  have hgrown := (cloning_fork h).toGrown
  exact ⟨hgrown.base.trans hpr.base, hgrown.max.trans hpr.max, hpr.lower.trans_eq hgrown.brk.symm,
    hgrown.brk.le.trans hpr.upper⟩

theorem Covered.backed_fork {pr : Space} {env : ForkEnv} (hcov : Covered pr) (hpr : HeapIn ⟨pr, m⟩)
    (h : loaderFork pr env m = (some u, m')) : Backed ⟨u, m'⟩ u.heapBrk := by
  have hclone := cloning_fork h
  intro v hv hlt
  have hlt' : v < pr.heapBrk := hlt.trans_eq hclone.brk
  obtain ⟨r, hr, hr0, hpage⟩ := hcov v hv hlt'
  have huser : page v < USER_PAGES := by
    have hupper : pr.heapBrk ≤ LOADER_HEAP_BASE + LOADER_HEAP_MAX := hpr.upper
    refine page_user (hlt'.trans_le (hupper.trans ?_))
    unfold LOADER_HEAP_BASE LOADER_HEAP_MAX
    omega
  rw [← hpage] at huser ⊢
  exact hclone.done r hr List.not_mem_nil hr0 huser

variable {P : Space → Prop}

/-- Whatever breaks are asked for, the break stays in the heap. -/
theorem HeapRun.heapIn (h : HeapRun P w) : HeapIn w := by
  induction h with
  | load h => exact (grown_load h).heapIn
  | exec h => exact (grown_exec h).heapIn
  | fork hpr hP h ih => exact ih.fork h
  | brk h n hn env ih => exact (ih.brk hn).heap
  | others h m' ih => exact ⟨ih.base, ih.max, ih.lower, ih.upper⟩

/-- When the tasks that fork have their heaps recorded, the pages below the break are mapped. -/
theorem HeapRun.backed (h : HeapRun P w) (hP : ∀ u, P u → Covered u) : Backed w w.u.heapBrk := by
  induction h with
  | load h => exact (grown_load h).backed
  | exec h => exact (grown_exec h).backed
  | fork hpr hpP h ih => exact (hP _ hpP).backed_fork hpr.heapIn h
  | brk h n hn env ih => exact (h.heapIn.brk hn).backed.mpr (ih.mono (Nat.min_le_left _ _))
  | others h m' ih => exact ih

/-- The call `brk(n)` returns the break that it leaves, which is in the heap with its pages mapped;
when it does not grant `n`, the break is as before. -/
structure BrkOk (n : ℕ) (env : ℕ → PageEnv) (w : View) : Prop where
  honest : (loaderBrk n env w).1 = toInt64 (loaderBrk n env w).2.u.heapBrk
  lower : w.u.heapBase ≤ (loaderBrk n env w).2.u.heapBrk
  upper : (loaderBrk n env w).2.u.heapBrk ≤ w.u.heapMax
  mapped : ∀ v, w.u.heapBase ≤ v → v < (loaderBrk n env w).2.u.heapBrk → ((loaderBrk n env w).2.resolve v).isSome
  unchanged : (loaderBrk n env w).2.u.heapBrk = n ∨ (loaderBrk n env w).2.u.heapBrk = w.u.heapBrk

/-- The break that a call that is honest leaves below the old one, or at it. -/
def kept (n : ℕ) (w : View) : ℕ := if n = 0 then w.u.heapBrk else min n w.u.heapBrk

/-- The return value is the break, except below the heap. -/
theorem HeapIn.honest_iff (h : HeapIn w) :
    (loaderBrk n env w).1 = toInt64 (loaderBrk n env w).2.u.heapBrk ↔ n = 0 ∨ LOADER_HEAP_BASE ≤ n := by
  have hsmall : ∀ x, x ≤ LOADER_HEAP_BASE + LOADER_HEAP_MAX → toInt64 x = x := by
    intro x hx
    unfold LOADER_HEAP_BASE LOADER_HEAP_MAX at hx
    rw [toInt64, if_pos (by omega)]
  have hlower := h.lower
  have hupper := h.upper
  unfold loaderBrk
  dsimp only
  split
  · rename_i h0
    exact ⟨fun _ => Or.inl h0, fun _ => rfl⟩
  split
  · rename_i h0 hle
    rw [loaderSetBrk, h.base]
    by_cases hin : LOADER_HEAP_BASE ≤ n
    · rw [if_pos ⟨hin, hle⟩]
      exact ⟨fun _ => Or.inr hin, fun _ => rfl⟩
    · rw [if_neg (fun hc => hin hc.1), hsmall n (hle.trans hupper), hsmall _ hupper]
      constructor
      · intro heq
        omega
      · intro hor
        omega
  · rename_i h0 hle
    exact ⟨fun _ => Or.inr (by omega), fun _ => rfl⟩

/-- Below the old break and the new one lies what the call keeps. -/
theorem HeapIn.min_eq_kept (h : HeapIn w) (hc : n = 0 ∨ LOADER_HEAP_BASE ≤ n)
    (hbrk : (loaderBrk n env w).2.u.heapBrk = n ∨ (loaderBrk n env w).2.u.heapBrk = w.u.heapBrk) :
    min w.u.heapBrk (loaderBrk n env w).2.u.heapBrk = kept n w := by
  unfold kept
  split
  · rename_i h0
    have hstay : (loaderBrk n env w).2.u.heapBrk = w.u.heapBrk := by rw [h0]; rfl
    rw [hstay, Nat.min_self]
  · rename_i h0
    rcases Nat.lt_or_ge w.u.heapBrk n with hlt | hle
    · rw [Nat.min_eq_right hlt.le]
      omega
    · have hset : (loaderBrk n env w).2.u.heapBrk = n := by
        unfold loaderBrk
        dsimp only
        rw [if_neg h0, if_pos hle]
        unfold loaderSetBrk
        rw [if_pos ⟨h.base.le.trans (hc.resolve_left h0), hle⟩]
      rw [hset, Nat.min_comm]

/-- In every state that a task's `brk` calls lead to, the next call is honest if and only if it does
not ask for a break below the heap and the pages of the heap that it keeps are mapped; they are,
when only tasks whose heaps are recorded have forked. -/
theorem brk_honest_iff (h : HeapRun P w) (hn : n < 2 ^ 64) :
    (BrkOk n env w ↔ (n = 0 ∨ LOADER_HEAP_BASE ≤ n) ∧ Backed w (kept n w)) ∧
      ((∀ u, P u → Covered u) → Backed w (kept n w)) := by
  have hok := h.heapIn
  obtain ⟨hheap, hbrk, hbacked⟩ := @HeapIn.brk env n w hok hn
  have hresolve : ∀ v, v < (loaderBrk n env w).2.u.heapBrk →
      (loaderBrk n env w).2.resolve v = (loaderBrk n env w).2.u.pd (page v) := by
    intro v hlt
    refine resolve_user _ (page_user (hlt.trans_le (hheap.upper.trans ?_)))
    unfold LOADER_HEAP_BASE LOADER_HEAP_MAX
    omega
  refine ⟨⟨fun hb => ?_, fun hc => ?_⟩, fun hP => (h.backed hP).mono ?_⟩
  · have hc := hok.honest_iff.mp hb.honest
    refine ⟨hc, ?_⟩
    rw [← hok.min_eq_kept hc hbrk]
    refine hbacked.mp fun v hv hlt => ?_
    rw [← hresolve v hlt]
    exact hb.mapped v (hok.base.le.trans hv) hlt
  · obtain ⟨hc, hkept⟩ := hc
    rw [← hok.min_eq_kept hc hbrk] at hkept
    refine ⟨hok.honest_iff.mpr hc, hok.base.le.trans hheap.lower, hheap.upper.trans_eq hok.max.symm,
      fun v hv hlt => ?_, hbrk⟩
    rw [hresolve v hlt]
    exact hbacked.mpr hkept v (hok.base.ge.trans hv) hlt
  · unfold kept
    split
    · exact le_rfl
    · exact Nat.min_le_right _ _

theorem HeapRun.of_isSome {env : LoadEnv} (h : (loaderRunArgs env m).1.isSome) :
    HeapRun P ⟨(loaderRunArgs env m).1.getD {}, (loaderRunArgs env m).2⟩ := by
  rcases hrun : loaderRunArgs env m with ⟨_ | u, m'⟩
  · rw [hrun] at h
    cases h
  · exact HeapRun.load hrun

/-- What `fork` makes of a space. -/
def forked (w : View) (env : ForkEnv) : View := ⟨(loaderFork w.u env w.m).1.getD {}, (loaderFork w.u env w.m).2⟩

theorem HeapRun.of_forked {env : ForkEnv} (hw : HeapRun P w) (hP : P w.u) (h : (loaderFork w.u env w.m).1.isSome) :
    HeapRun P (forked w env) := by
  unfold forked
  rcases hrun : loaderFork w.u env w.m with ⟨_ | u, m'⟩
  · rw [hrun] at h
    cases h
  · exact HeapRun.fork hw hP hrun

/-- A program that has been loaded on an empty machine. -/
def loadedSpace : View := ⟨((loaderRunArgs onePageLoad freeMachine).1).getD {},
    (loaderRunArgs onePageLoad freeMachine).2⟩

theorem loadedSpace_run : HeapRun P loadedSpace :=
  HeapRun.of_isSome (by decide +kernel)

/-- Its heap with one page. -/
def grownSpace : View := (loaderBrk 0x02001000 (fun _ => { frame := 0x400000 }) loadedSpace).2

theorem grownSpace_run : HeapRun P grownSpace := .brk loadedSpace_run 0x02001000 (by decide) _

def cloneEnv : ForkEnv where
  pages i := { frame := 0x800000 + i * 0x1000 }

theorem grownSpace_covered : Covered grownSpace.u := by
  intro v h1 h2
  have hbrk : grownSpace.u.heapBrk = 0x02001000 := by decide +kernel
  have hrec : (0x02000000, 0x400000) ∈ grownSpace.u.records := by decide +kernel
  rw [hbrk] at h2
  refine ⟨_, hrec, by decide, ?_⟩
  unfold LOADER_HEAP_BASE at h1
  unfold page
  omega

def childOf : View := forked grownSpace cloneEnv

theorem childOf_run : HeapRun Covered childOf :=
  HeapRun.of_forked grownSpace_run grownSpace_covered (by decide +kernel)

/-- The child of a task with a page of heap asks for another page. -/
theorem brk_honest_forked : BrkOk 0x02002000 (fun _ => { frame := 0x600000 }) childOf := by
  have h : (BrkOk 0x02002000 (fun _ => { frame := 0x600000 }) childOf ↔ _) ∧ _ :=
    brk_honest_iff childOf_run (by decide)
  exact h.1.mpr ⟨Or.inr (by decide), h.2 fun _ => id⟩

/-- A heap of 55 pages, of which the last could not be recorded: the second call has found it
mapped. -/
def unrecordedSpace : View :=
  (loaderBrk 0x02037000 (fun _ => {})
    (loaderBrk 0x02037000 (fun i => { frame := 0x400000 + i * 0x1000, recOk := false }) loadedSpace).2).2

theorem unrecordedSpace_run : HeapRun P unrecordedSpace :=
  .brk (.brk loadedSpace_run 0x02037000 (by decide) _) 0x02037000 (by decide) _

def shortChild : View := forked unrecordedSpace cloneEnv

theorem shortChild_run : HeapRun (fun _ => True) shortChild :=
  HeapRun.of_forked unrecordedSpace_run trivial (by decide +kernel)

/-- Asked for the break 4096 the call returns 4096, but the break stays at the start of the heap.
The child of a task with an unrecorded page has the parent's break without that page. -/
theorem brk_lies :
    ((loaderBrk 0x1000 (fun _ => {}) loadedSpace).1 = 0x1000 ∧
      (loaderBrk 0x1000 (fun _ => {}) loadedSpace).2.u.heapBrk = LOADER_HEAP_BASE ∧
      ¬ BrkOk 0x1000 (fun _ => {}) loadedSpace) ∧
    shortChild.u.heapBrk = 0x02037000 ∧ shortChild.resolve 0x02036000 = none ∧ ¬ BrkOk 0 (fun _ => {}) shortChild := by
  have hlies : ¬ BrkOk 0x1000 (fun _ => {}) loadedSpace := by
    intro h
    have := (loadedSpace_run (P := fun _ => True)).heapIn.honest_iff.mp h.honest
    revert this
    decide
  have hbrk : shortChild.u.heapBrk = 0x02037000 := by decide +kernel
  have hnone : shortChild.resolve 0x02036000 = none := by decide +kernel
  refine ⟨⟨by decide +kernel, by decide +kernel, hlies⟩, hbrk, hnone, fun h => ?_⟩
  have hmapped := h.mapped 0x02036000
  rw [shortChild_run.heapIn.base] at hmapped
  have hstay : (loaderBrk 0 (fun _ => {}) shortChild).2 = shortChild := rfl
  rw [hstay, hnone, hbrk] at hmapped
  exact absurd (hmapped (by decide) (by decide)) (by decide)

end ComputerOS.Loader
