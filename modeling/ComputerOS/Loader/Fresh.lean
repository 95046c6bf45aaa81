import ComputerOS.Loader.Placed
import Mathlib.Data.List.Nodup

/-!
Where anonymous mappings lie. `mmap_next` only grows, so what a task has between the start of the
mappings and the address of position-independent programs is its stack or lies below `mmap_next`. A
mapping that starts there is fresh, as long as it does not meet the stack.
-/
namespace ComputerOS.Loader

open Function Fallible

variable {α : Type} {env : ℕ → PageEnv} {e : PageEnv} {next next' v : ℕ} {content : ℕ → UInt8} {u : Space} {m : Frames}
  {w : View} {o : Option Unit × View} {s : Sys} {t : ℕ}

/-- Pages below `mmap_next`, of the stack, or from the base of position-independent programs on. -/
def Outside (next p : ℕ) : Prop :=
  p * 0x1000 < next ∨ (LOADER_STACK_TOP - 0x8000 ≤ p * 0x1000 ∧ p * 0x1000 ≤ LOADER_STACK_TOP) ∨
  LOADER_PIE_BASE ≤ p * 0x1000

theorem Outside.mono {p : ℕ} (h : Outside next p) (hle : next ≤ next') : Outside next' p :=
  h.imp_left fun hlt => Nat.lt_of_lt_of_le hlt hle

/-- All that a space maps and records is outside. -/
structure Clear (next : ℕ) (u : Space) : Prop where
  pages : ∀ p, u.pd p ≠ none → Outside next p
  recs : ∀ r ∈ u.records, Outside next (page r.1)
  heap : u.heapMax = LOADER_HEAP_BASE + LOADER_HEAP_MAX

theorem Clear.mono (h : Clear next u) (hle : next ≤ next') : Clear next' u :=
  ⟨fun p hp => (h.pages p hp).mono hle, fun r hr => (h.recs r hr).mono hle, h.heap⟩

theorem clear_empty (next : ℕ) : Clear next {} where
  pages _ hp := absurd rfl hp
  recs _ hr := by cases hr
  heap := rfl

theorem Placed.clear (hp : Placed e v content w o) (h : Clear next w.u)
    (hv : Outside next (page v)) : Clear next o.2.u := by
  refine ⟨fun p hmapped => ?_, fun r hr => ?_, hp.heapMax.trans h.heap⟩
  · by_cases hpv : p = page v
    · rw [hpv]
      exact hv
    · rw [hp.pd hpv] at hmapped
      exact h.pages p hmapped
  · cases hp with
    | refused bytes hbytes => exact h.recs r hr
    | lost hfree hrec =>
      have hrecords : (w.mapIn v e.frame).u.records = w.u.records := by
        rw [Space.records, Space.records, mapIn_blocks]
      change r ∈ (w.mapIn v e.frame).u.records at hr
      rw [hrecords] at hr
      exact h.recs r hr
    | done blocks hfree h0 hrec =>
      rcases List.mem_cons.mp (hrec.mem_iff.mp hr) with rfl | hold
      · exact hv
      · exact h.recs r hold

theorem clear_new (hv : Outside next (page v)) :
    Triple (fun w => Clear next w.u) (allocUserPage e v) (fun _ w => Clear next w.u) fun w => Clear next w.u :=
  triple_placed id (fun _ _ => 0) (fun w _ => placed_alloc e v w)
    fun _ _ hw hp => ⟨fun _ => hp.clear hw hv, fun _ => hp.clear hw hv⟩

theorem clear_anon (hv : Outside next (page v)) :
    Triple (fun w => Clear next w.u) (loaderMapAnonPage e v) (fun _ w => Clear next w.u) fun w => Clear next w.u :=
  triple_anon (fun _ hw _ => hw) ((clear_new hv).mono (fun _ hw => hw.1) (fun _ _ => id) fun _ =>
  id)

theorem clear_eachNew (env : ℕ → PageEnv) {l : List ℕ} (hl : ∀ v ∈ l, Outside next (page v)) :
    Triple (fun w => Clear next w.u) (each allocUserPage env l) (fun _ w => Clear next w.u) fun w => Clear next w.u :=
  Triple.each_keeps (fun _ => True) (fun _ _ v hv => clear_new (hl v hv)) fun _ => trivial

theorem clear_eachAnon (env : ℕ → PageEnv) {l : List ℕ} (hl : ∀ v ∈ l, Outside next (page v)) :
    Triple (fun w => Clear next w.u) (each loaderMapAnonPage env l) (fun _ w => Clear next w.u)
    fun w => Clear next w.u :=
  Triple.each_keeps (fun _ => True) (fun _ _ v hv => clear_anon (hl v hv)) fun _ => trivial

/-- The pages of the program lie in the user half, outside the range of the mappings from `next` on.
-/
def Image.Outside (next : ℕ) (image : Image) : Prop :=
  ∀ v ∈ image.pages, page v < USER_PAGES ∧ Loader.Outside next (page v)

theorem clear_loadImage {image : Image} {env : ℕ → ℕ → ℕ → PageEnv} (himage : image.Outside next) :
    Triple (fun w => Clear next w.u) (loadImage image env) (fun _ w => Clear next w.u) fun w => Clear next w.u := by
  refine loadImage_triple (I := fun w => Clear next w.u) (fun _ => id) (fun _ => id)
    (fun e v hv => clear_anon (himage v hv).2) ?_
  rintro filesz rfl env
  exact clear_eachNew _ fun v hv => (himage v hv).2

theorem stackPages_outside : ∀ v ∈ stackPages, Outside next (page v) := by
  have hstack : ∀ v ∈ stackPages, LOADER_STACK_TOP - 0x8000 ≤ page v * 0x1000 ∧ page v * 0x1000 ≤ LOADER_STACK_TOP := by
    decide +kernel
  exact fun v hv => Or.inr (Or.inl (hstack v hv))

theorem clear_execStack (linuxAbi : Bool) (env : ℕ → PageEnv) :
    Triple (fun w => Clear next w.u) (execStack linuxAbi env) (fun _ w => Clear next w.u) fun w => Clear next w.u := by
  cases linuxAbi with
  | true => exact clear_eachNew _ stackPages_outside
  | false => exact clear_new (stackPages_outside LOADER_STACK_PAGE (by decide +kernel))

abbrev MadeClear (next : ℕ) : Option Space × Frames → Prop := Outcome (fun w => Clear next w.u) fun _ => True

theorem clear_load {env : LoadEnv} (himage : ∀ image, env.image = some image → image.Outside next) :
    MadeClear next (loaderRunArgs env m) := by
  refine loaderRunArgs_outcome (I := fun w => Clear next w.u) trivial (fun image h => ?_) ?_ fun _ _ => trivial
  · refine (clear_loadImage (himage image h)).mono (fun w hw => ?_) (fun _ _ => id) fun _ _ => trivial
    rw [hw]
    exact clear_empty next
  · exact (clear_eachNew _ stackPages_outside).mono (fun _ => id) (fun _ _ => id) fun _ _ => trivial

theorem clear_exec {linuxAbi : Bool} {env : LoadEnv} (himage : ∀ image, env.image = some image → image.Outside next) :
    MadeClear next (doExec linuxAbi env m) := by
  refine doExec_outcome (I := fun w => Clear next w.u) trivial (fun image h => ?_) ?_ fun _ _ => trivial
  · refine (clear_loadImage (himage image h)).mono (fun w hw => ?_) (fun _ _ => id) fun _ _ => trivial
    rw [hw]
    exact clear_empty next
  · exact (clear_execStack linuxAbi env.stack).mono (fun _ => id) (fun _ _ => id) fun _ _ => trivial

theorem clear_clone {r : ℕ × ℕ} (hr : Outside next (page r.1)) :
    Triple (fun w => Clear next w.u) (clonePage e r) (fun _ w => Clear next w.u) fun w => Clear next w.u := by
  by_cases h0 : r.2 = 0
  · intro w hw
    have hrun : (clonePage e r).run w = (some (), w) := if_pos h0
    rw [hrun]
    exact ⟨fun _ _ => hw, fun hn => by cases hn⟩
  · exact triple_placed Prod.fst (fun w => w.m.bytes r.2) (fun w _ => placed_clone e h0 w)
      fun _ _ hw hp => ⟨fun _ => hp.clear hw hr, fun _ => hp.clear hw hr⟩

theorem clear_fork {pr : Space} {env : ForkEnv} (h : Clear next pr) : MadeClear next (loaderFork pr env m) := by
  have hclone : Triple (fun w => Clear next w.u) (cloneResources pr env.pages) (fun _ w => Clear next w.u)
      fun w => Clear next w.u :=
    Triple.each_keeps (fun _ => True) (fun _ _ r hr => clear_clone (h.recs r hr)) fun _ => trivial
  refine loaderFork_outcome trivial (hclone.mono (fun w hw => ?_) (fun _ _ => id) fun _ _ => trivial) fun _ _ => trivial
  rw [hw]
  exact ⟨fun _ hp => absurd rfl hp, fun _ hr => (by cases hr), h.heap⟩

/-- Pages up to the end of the heap are below all mappings. -/
theorem heap_outside {start brk : ℕ} (hnext : 0x40000000 ≤ next) (hbrk : brk ≤ LOADER_HEAP_BASE + LOADER_HEAP_MAX)
    (hv : v ∈ pagesIn start (pageUp brk)) : Outside next (page v) := by
  obtain ⟨i, hi, rfl⟩ := List.mem_map.mp hv
  have hlt := List.mem_range.mp hi
  left
  unfold LOADER_HEAP_BASE LOADER_HEAP_MAX at hbrk
  unfold pageUp at hlt
  unfold page
  omega

theorem Clear.setBrk (h : Clear next u) (brk : ℕ) : Clear next { u with heapBrk := brk } := ⟨h.pages, h.recs, h.heap⟩

theorem Clear.loaderSbrk64 (h : Clear next w.u) (hnext : 0x40000000 ≤ next) (delta : ℤ) :
    Clear next (loaderSbrk64 delta env w).2.u := by
  unfold Loader.loaderSbrk64
  dsimp only
  split
  · exact h
  split
  · exact h
  · rename_i hmax
    rw [h.heap, Nat.not_lt] at hmax
    have hloop := clear_eachAnon env (l := pagesIn (pageUp w.u.heapBrk) (pageUp ((w.u.heapBrk + delta.toNat) % 2 ^ 64)))
      (fun v hv => heap_outside hnext hmax hv) w h
    rcases hrun : (each loaderMapAnonPage env (pagesIn (pageUp w.u.heapBrk)
        (pageUp ((w.u.heapBrk + delta.toNat) % 2 ^ 64)))).run w with ⟨_ | _, w'⟩
    · rw [hrun] at hloop
      exact hloop.2 rfl
    · rw [hrun] at hloop
      exact (hloop.1 () rfl).setBrk _

theorem Clear.loaderBrk (h : Clear next w.u) (hnext : 0x40000000 ≤ next) (newBrk : ℕ) :
    Clear next (loaderBrk newBrk env w).2.u := by
  unfold Loader.loaderBrk
  dsimp only
  split
  · exact h
  split
  · unfold loaderSetBrk
    split
    · exact h.setBrk newBrk
    · exact h
  · exact h.loaderSbrk64 hnext _

theorem Clear.loaderSbrk (h : Clear next w.u) (hnext : 0x40000000 ≤ next) (delta : ℤ) :
    Clear next (loaderSbrk delta env w).2.u := by
  unfold Loader.loaderSbrk
  dsimp only
  split
  · exact h
  split
  · exact h
  · rename_i hmax
    rw [h.heap, Nat.not_lt] at hmax
    have hloop := clear_eachNew env (l := pagesIn (pageUp w.u.heapBrk) (pageUp ((w.u.heapBrk + delta.toNat) % 2 ^ 64)))
      (fun v hv => heap_outside hnext hmax hv) w h
    rcases hrun : (each allocUserPage env (pagesIn (pageUp w.u.heapBrk)
        (pageUp ((w.u.heapBrk + delta.toNat) % 2 ^ 64)))).run w with ⟨_ | _, w'⟩
    · rw [hrun] at hloop
      exact hloop.2 rfl
    · rw [hrun] at hloop
      exact (hloop.1 () rfl).setBrk _

/-- `mmap_next` is the address of a page, and every task is clear of what lies above it. -/
structure Bumped (s : Sys) : Prop where
  aligned : s.mmapNext % 0x1000 = 0
  lower : 0x40000000 ≤ s.mmapNext
  clear : ∀ t u, s.tasks t = some u → Clear s.mmapNext u

theorem bumped_boot (m : Frames) : Bumped (boot m) where
  aligned := by
    change 0x40000000 % 0x1000 = 0
    decide
  lower := Nat.le_refl _
  clear _ _ hu := by cases hu

namespace Bumped

theorem put (h : Bumped s) (hw : Clear s.mmapNext w.u) : Bumped (s.put t w) where
  aligned := h.aligned
  lower := h.lower
  clear j u hu := by
    change update s.tasks t (some w.u) j = some u at hu
    by_cases hj : j = t
    · subst hj
      rw [update_self] at hu
      obtain rfl := Option.some.inj hu
      exact hw
    · rw [update_of_ne hj] at hu
      exact h.clear j u hu

theorem setFrames (h : Bumped s) (m : Frames) : Bumped { s with frames := m } := ⟨h.aligned, h.lower, h.clear⟩

theorem spawn (h : Bumped s) {o : Option Space × Frames} (ho : MadeClear s.mmapNext o) : Bumped (s.spawn t o) := by
  rcases o with ⟨_ | u, m⟩
  · exact h.setFrames m
  · exact h.put (w := ⟨u, m⟩) ho

theorem onTask (h : Bumped s) {f : View → View} (hf : ∀ u, s.tasks t = some u → Clear s.mmapNext (f ⟨u, s.frames⟩).u) :
    Bumped (s.onTask t f) := by
  unfold Sys.onTask
  rcases hu : s.tasks t with _ | u
  · exact h
  · exact h.put (hf u hu)

/-- The pages of a mapping lie below the next one. -/
theorem mmapPages_lt {base length : ℕ} (hwrap : base + mmapCount length * 0x1000 < 2 ^ 64)
    (hv : v ∈ mmapPages base length) :
    v < base + mmapCount length * 0x1000 := by
  obtain ⟨i, hi, rfl⟩ := List.mem_map.mp hv
  have hlt := List.mem_range.mp hi
  have hmod := Nat.mod_le (i * 0x1000) (2 ^ 32)
  omega

theorem sysLinuxMmap (h : Bumped s) {length flags : ℕ} {fd : ℤ}
    (hwrap : fd = -1 ∨ flags.testBit 5 → s.mmapNext + mmapCount length * 0x1000 < 2 ^ 64) :
    Bumped (sysLinuxMmap t length flags fd env s).2 := by
  unfold Loader.sysLinuxMmap
  split
  · rename_i hanon
    have hlt := hwrap hanon
    have hmod : (s.mmapNext + mmapCount length * 0x1000) % 2 ^ 64 = s.mmapNext + mmapCount length * 0x1000 :=
      Nat.mod_eq_of_lt hlt
    dsimp only
    rw [hmod]
    have hnext : Bumped { s with mmapNext := s.mmapNext + mmapCount length * 0x1000 } := by
      refine ⟨?_, Nat.le_trans h.lower (Nat.le_add_right _ _), fun j u hu => (h.clear j u hu).mono
        (Nat.le_add_right _ _)⟩
      have := h.aligned
      dsimp only
      omega
    rcases hu : s.tasks t with _ | u
    · exact hnext
    · have hpages : ∀ v ∈ mmapPages s.mmapNext length, Outside (s.mmapNext + mmapCount length * 0x1000) (page v) := by
        intro v hv
        have hv' := mmapPages_lt hlt hv
        left
        unfold page
        omega
      have hloop := clear_eachAnon env hpages ⟨u, s.frames⟩ (hnext.clear t u hu)
      dsimp only
      rcases hrun : (each loaderMapAnonPage env (mmapPages s.mmapNext length)).run ⟨u, s.frames⟩ with ⟨_ | _, w⟩
      · rw [hrun] at hloop
        exact hnext.put (hloop.2 rfl)
      · rw [hrun] at hloop
        exact hnext.put (hloop.1 () rfl)
  · exact h

theorem store (h : Bumped s) (bytes : ℕ → ℕ → UInt8) : Bumped (s.store bytes) := ⟨h.aligned, h.lower, h.clear⟩

end Bumped

/-- A call that loads no program into the kernel's half or the range of the mappings still to come,
and does not make `mmap_next` start over at 0. -/
def Op.Apart : Op → Sys → Prop
  | .load _ env, s => ∀ image, env.image = some image → image.Outside s.mmapNext
  | .exec _ _ env, s => ∀ image, env.image = some image → image.Outside s.mmapNext
  | .mmap _ length flags fd _, s => fd = -1 ∨ flags.testBit 5 → s.mmapNext + mmapCount length * 0x1000 < 2 ^ 64
  | .mremap _ _ oldSize newSize _ _, s => oldSize < newSize → s.mmapNext + mmapCount newSize * 0x1000 < 2 ^ 64
  | _, _ => True

theorem Bumped.step (h : Bumped s) (op : Op) (hop : op.Apart s) : Bumped (op.run s) := by
  cases op with
  | load t env => exact h.spawn (clear_load hop)
  | fork t child env =>
    rcases hu : s.tasks t with _ | u
    · rw [Op.run, hu]
      exact h
    · rw [Op.run, hu]
      exact h.spawn (clear_fork (h.clear t u hu))
  | exec t linuxAbi env =>
    rcases hu : s.tasks t with _ | old
    · rw [Op.run, hu]
      exact h
    · rw [Op.run, hu]
      have hmade : MadeClear s.mmapNext (doExec linuxAbi env s.frames) := clear_exec hop
      dsimp only
      rcases hexec : doExec linuxAbi env s.frames with ⟨_ | u, m⟩
      · exact h.setFrames m
      · rw [hexec] at hmade
        exact h.put (w := ⟨u, releaseResources old m⟩) hmade
  | brk t newBrk env =>
    exact h.onTask (f := fun w => (loaderBrk newBrk env w).2) fun u hu =>
      Clear.loaderBrk (w := ⟨u, s.frames⟩) (h.clear t u hu) h.lower newBrk
  | sbrk t delta env =>
    exact h.onTask (f := fun w => (loaderSbrk delta env w).2) fun u hu =>
      Clear.loaderSbrk (w := ⟨u, s.frames⟩) (h.clear t u hu) h.lower delta
  | mmap t length flags fd env => exact h.sysLinuxMmap hop
  | mremap t oldAddr oldSize newSize env bytes =>
    rw [Op.run, mremap]
    split
    · exact h
    · rename_i hlt
      have hmmap : Bumped (Loader.sysLinuxMmap t newSize 0x22 (-1) env s).2 :=
        h.sysLinuxMmap fun _ => hop (Nat.not_le.mp hlt)
      dsimp only
      split
      · exact hmmap
      · exact hmmap.store bytes
  | munmap t addr length => exact h
  | exit t =>
    rcases hu : s.tasks t with _ | u
    · rw [Op.run, hu]
      exact h
    · rw [Op.run, hu]
      refine ⟨h.aligned, h.lower, fun j u' hu' => ?_⟩
      change update s.tasks t none j = some u' at hu'
      by_cases hj : j = t
      · subst hj
        rw [update_self] at hu'
        cases hu'
      · rw [update_of_ne hj] at hu'
        exact h.clear j u' hu'
  | store bytes => exact h.store bytes

theorem Bumped.run (h : Run Op.Apart s) : Bumped s := by
  induction h with
  | boot m => exact bumped_boot m
  | step op _ hop ih => exact ih.step op hop

/-- A page that holds zeros. -/
def Zeroed (w : View) (v : ℕ) : Prop :=
  ∃ f, w.u.pd (page v) = some f ∧ w.m.allocated f = true ∧ w.m.bytes f = fun _ => 0

theorem Placed.zeroed {v' : ℕ} (hp : Placed e v (fun _ => 0) w o) (hok : o.1 = some ()) (hv : page v < USER_PAGES)
    (hne : page v' ≠ page v → Zeroed w v') : Zeroed o.2 v' := by
  cases hp with
  | refused bytes hbytes => cases hok
  | lost hfree hrec => cases hok
  | done blocks hfree h0 hrec =>
    have hpd : (w.place v e.frame (fun _ => 0) blocks).u.pd = update w.u.pd (page v) (some e.frame) := by
      rw [View.place, mapIn_user w e.frame hv]
    by_cases hsame : page v' = page v
    · refine ⟨e.frame, ?_, update_self .., update_self ..⟩
      rw [hpd, hsame, update_self]
    · obtain ⟨f, hf, hlive, hbytes⟩ := hne hsame
      have hframe : f ≠ e.frame := by
        rintro rfl
        rw [hfree] at hlive
        cases hlive
      refine ⟨f, ?_, (update_of_ne hframe _ _).trans hlive, (update_of_ne hframe _ _).trans hbytes⟩
      rw [hpd, update_of_ne hsame, hf]

/-- Of the pages `all`, those in `l` are still to come and the others hold zeros. -/
structure Filling (all l : List ℕ) (w : View) : Prop where
  sub : ∀ v ∈ l, v ∈ all
  nodup : (l.map page).Nodup
  todo : ∀ v ∈ l, w.u.pd (page v) = none
  done : ∀ v ∈ all, v ∉ l → Zeroed w v

theorem filling_each (env : ℕ → PageEnv) {all : List ℕ} (huser : ∀ v ∈ all, page v < USER_PAGES) :
    Triple (Filling all all) (each loaderMapAnonPage env all) (fun _ => Filling all []) fun _ => True := by
  refine Triple.each (I := Filling all) (fun _ => True) (fun e v l _ => ?_) all fun _ => trivial
  refine triple_anon (fun w hw hseen => ?_) ?_
  · have hv := hw.sub v (List.mem_cons_self ..)
    rw [resolve_user w (huser v hv), hw.todo v (List.mem_cons_self ..)] at hseen
    cases hseen
  · refine triple_placed id (fun _ _ => 0) (fun w _ => placed_alloc e v w)
      fun w o hw hp => ⟨fun hok => ?_, fun _ => trivial⟩
    obtain ⟨⟨hsub, hnodup, htodo, hdone⟩, -⟩ := hw
    obtain ⟨hnot, hrest⟩ := List.nodup_cons.mp hnodup
    have hv := hsub v (List.mem_cons_self ..)
    refine ⟨fun x hx => hsub x (List.mem_cons_of_mem _ hx), hrest, fun x hx => ?_, fun x hx hxl => ?_⟩
    · have hne : page x ≠ page v := fun heq => hnot (List.mem_map.mpr ⟨x, hx, heq⟩)
      rw [hp.pd hne]
      exact htodo x (List.mem_cons_of_mem _ hx)
    · have hold : page x ≠ page v → Zeroed w x := fun hne => hdone x hx fun hmem => by
        rcases List.mem_cons.mp hmem with rfl | hmem
        · exact hne rfl
        · exact hxl hmem
      exact hp.zeroed hok (huser v hv) hold

/-- The mapping is at most 4 GiB long, ends below the position-independent programs and does not
meet the stack. -/
def Roomy (length : ℕ) (s : Sys) : Prop :=
  length ≤ 2 ^ 32 ∧ s.mmapNext + mmapCount length * 0x1000 ≤ LOADER_PIE_BASE ∧
    (s.mmapNext + mmapCount length * 0x1000 ≤ LOADER_STACK_TOP - 0x8000 ∨ LOADER_STACK_TOP + 0x1000 ≤ s.mmapNext)

/-- Every address of the range is in the lower half, was not mapped, and is now, to zeros. -/
def Fresh (s s' : Sys) (t base length : ℕ) : Prop :=
  ∃ u u', s.tasks t = some u ∧ s'.tasks t = some u' ∧ ∀ a, base ≤ a → a < base + length →
    a < 2 ^ 47 ∧ View.resolve ⟨u, s.frames⟩ a = none ∧
      ∃ f, View.resolve ⟨u', s'.frames⟩ a = some f ∧ s'.frames.bytes f = fun _ => 0

theorem mmapCount_eq {length : ℕ} (h : length ≤ 2 ^ 32) : mmapCount length = (length + 0xFFF) / 0x1000 := by
  unfold mmapCount
  omega

/-- The pages of a mapping of at most 4 GiB. -/
theorem mem_mmapPages {base length : ℕ} (h : length ≤ 2 ^ 32)
    (hbase : base + mmapCount length * 0x1000 ≤ LOADER_PIE_BASE) :
    v ∈ mmapPages base length ↔ ∃ i < mmapCount length, v = base + i * 0x1000 := by
  have hcount := mmapCount_eq h
  unfold LOADER_PIE_BASE at hbase
  have hplain : ∀ i < mmapCount length, (base + i * 0x1000 % 2 ^ 32) % 2 ^ 64 = base + i * 0x1000 := by
    intro i hi
    omega
  unfold mmapPages
  rw [List.mem_map]
  constructor
  · rintro ⟨i, hi, rfl⟩
    exact ⟨i, List.mem_range.mp hi, hplain i (List.mem_range.mp hi)⟩
  · rintro ⟨i, hi, rfl⟩
    exact ⟨i, List.mem_range.mpr hi, hplain i hi⟩

theorem mmapPages_nodup {base length : ℕ} (h : length ≤ 2 ^ 32)
    (hbase : base + mmapCount length * 0x1000 ≤ LOADER_PIE_BASE) : ((mmapPages base length).map page).Nodup := by
  have hcount := mmapCount_eq h
  unfold LOADER_PIE_BASE at hbase
  unfold mmapPages
  rw [List.map_map]
  refine List.Nodup.map_on (fun i hi j hj heq => ?_) List.nodup_range
  have hi' := List.mem_range.mp hi
  have hj' := List.mem_range.mp hj
  simp only [comp_apply, page] at heq
  omega

/-- What is mapped above `mmap_next` is the stack or above the mappings. -/
theorem Clear.none_of_le (h : Clear next u) (hnext : next % 0x1000 = 0) {a : ℕ} (hle : next ≤ a)
    (hlt : a < LOADER_PIE_BASE)
    (hstack : a < LOADER_STACK_TOP - 0x8000 ∨ LOADER_STACK_TOP + 0x1000 ≤ a) : u.pd (page a) = none := by
  by_contra hmapped
  have hout := h.pages (page a) hmapped
  unfold Outside page LOADER_STACK_TOP at hout
  unfold LOADER_STACK_TOP at hstack
  unfold LOADER_PIE_BASE at hlt hout
  omega

/-- A call that maps pages and does not fail. -/
theorem sysLinuxMmap_mapped {length flags : ℕ} {fd : ℤ} (hcount : mmapCount length ≠ 0)
    (hret : 0 ≤ (sysLinuxMmap t length flags fd env s).1) :
    ∃ u w, s.tasks t = some u ∧ (each loaderMapAnonPage env (mmapPages s.mmapNext length)).run
      ⟨u, s.frames⟩ = (some (), w) ∧ sysLinuxMmap t length flags fd env s = (toInt64 s.mmapNext,
        Sys.put { s with mmapNext := (s.mmapNext + mmapCount length * 0x1000) % 2 ^ 64 } t w) := by
  unfold sysLinuxMmap at hret ⊢
  by_cases hanon : fd = -1 ∨ flags.testBit 5
  swap
  · rw [if_neg hanon] at hret
    exact absurd hret (show ¬ (0 : ℤ) ≤ EINVAL by decide)
  rw [if_pos hanon] at hret ⊢
  dsimp only at hret ⊢
  rcases hu : s.tasks t with _ | u
  · rw [hu] at hret
    dsimp only at hret
    rw [if_neg hcount] at hret
    exact absurd hret (show ¬ (0 : ℤ) ≤ ENOMEM by decide)
  rw [hu] at hret
  dsimp only at hret ⊢
  rcases hrun : (each loaderMapAnonPage env (mmapPages s.mmapNext length)).run ⟨u, s.frames⟩ with ⟨_ | _, w⟩
  · rw [hrun] at hret
    exact absurd hret (show ¬ (0 : ℤ) ≤ ENOMEM by decide)
  · exact ⟨u, w, rfl, hrun, rfl⟩

/-- In a state that calls lead to that keep programs out of the range of mappings, a mapping with
room is fresh. -/
theorem mmap_fresh (h : Run Op.Apart s) {length flags : ℕ} {fd : ℤ} (hlen : 0 < length) (hroom : Roomy length s)
    (hret : 0 ≤ (sysLinuxMmap t length flags fd env s).1) :
    Fresh s (sysLinuxMmap t length flags fd env s).2 t (sysLinuxMmap t length flags fd env s).1.toNat length := by
  obtain ⟨h32, hpie, hstack⟩ := hroom
  have hb := Bumped.run h
  have hcount := mmapCount_eq h32
  have hlow : s.mmapNext + mmapCount length * 0x1000 ≤ 0x555555554000 := hpie
  obtain ⟨u, w, hu, hrun, hcall⟩ := sysLinuxMmap_mapped (by omega) hret
  have hbase : (toInt64 s.mmapNext).toNat = s.mmapNext := by
    rw [toInt64, if_pos (by omega), Int.toNat_natCast]
  have hnone : ∀ a, s.mmapNext ≤ a → a < s.mmapNext + mmapCount length * 0x1000 → u.pd (page a) = none := by
    intro a hle hlt
    refine (hb.clear t u hu).none_of_le hb.aligned hle (Nat.lt_of_lt_of_le hlt hpie) ?_
    rcases hstack with hbelow | habove
    · exact Or.inl (Nat.lt_of_lt_of_le hlt hbelow)
    · exact Or.inr (Nat.le_trans habove hle)
  have huser : ∀ a, a < s.mmapNext + mmapCount length * 0x1000 → page a < USER_PAGES := by
    intro a hlt
    unfold page USER_PAGES
    omega
  have hpages : ∀ v ∈ mmapPages s.mmapNext length, s.mmapNext ≤ v ∧ v < s.mmapNext + mmapCount length * 0x1000 := by
    intro v hv
    obtain ⟨i, hi, rfl⟩ := (mem_mmapPages h32 hpie).mp hv
    omega
  have hloop := filling_each env (fun v hv => huser v (hpages v hv).2)
    ⟨u, s.frames⟩ ⟨fun _ hv => hv, mmapPages_nodup h32 hpie, fun v hv => hnone v (hpages v hv).1
      (hpages v hv).2, fun v hv hnot => absurd hv hnot⟩
  rw [hrun] at hloop
  rw [hcall, hbase]
  refine ⟨u, w.u, hu, update_self .., fun a hle hlt => ?_⟩
  have hlt' : a < s.mmapNext + mmapCount length * 0x1000 := by omega
  refine ⟨by omega, ?_, ?_⟩
  · rw [resolve_user _ (huser a hlt')]
    exact hnone a hle hlt'
  · have hpage : page (s.mmapNext + (a - s.mmapNext) / 0x1000 * 0x1000) = page a := by
      have halign := hb.aligned
      unfold page
      omega
    have hmem := (mem_mmapPages h32 hpie).mpr ⟨(a - s.mmapNext) / 0x1000, by omega, rfl⟩
    obtain ⟨f, hf, -, hzero⟩ := (hloop.1 () rfl).done _ hmem (List.not_mem_nil)
    refine ⟨f, ?_, hzero⟩
    rw [hpage] at hf
    change View.resolve ⟨w.u, w.m⟩ a = some f
    rw [resolve_user _ (huser a hlt')]
    exact hf

/-- The program is outside the range of mappings. -/
theorem onePage_outside : ∀ image, onePageLoad.image = some image → image.Outside 0x40000000 := by
  rintro image himage
  obtain rfl := Option.some.inj himage
  have hlow : ∀ v ∈ onePage.pages, page v < USER_PAGES ∧ page v * 0x1000 < 0x40000000 := by decide +kernel
  exact fun v hv => ⟨(hlow v hv).1, Or.inl (hlow v hv).2⟩

def loadedTask : Sys := Op.run (.load 1 onePageLoad) (boot freeMachine)

theorem loadedTask_fresh : Fresh loadedTask
    (sysLinuxMmap 1 0x2000 0x22 (-1) (fun i => { frame := 0x300000 + i * 0x1000 }) loadedTask).2 1
    0x40000000 0x2000 := by
  have hret : (sysLinuxMmap 1 0x2000 0x22 (-1) (fun i => { frame := 0x300000 + i * 0x1000 })
    loadedTask).1 = 0x40000000 := by
    decide +kernel
  have hroom : Roomy 0x2000 loadedTask := by
    unfold Roomy
    decide +kernel
  have hfresh := mmap_fresh (t := 1)
    (.step (.load 1 onePageLoad) (.boot freeMachine) onePage_outside) (by decide) hroom (by
      change 0 ≤ (sysLinuxMmap 1 0x2000 0x22 (-1) (fun i => { frame := 0x300000 + i * 0x1000 }) loadedTask).1
      rw [hret]
      decide)
  change Fresh loadedTask _ 1 (sysLinuxMmap 1 0x2000 0x22 (-1) _ loadedTask).1.toNat 0x2000 at hfresh
  rw [hret] at hfresh
  exact hfresh

/-- Of the length 2 ^ 44 no page is left in 32 bits: nothing is mapped. -/
theorem huge_mapping_empty : (sysLinuxMmap 1 (2 ^ 44) 0x22 (-1) (fun _ => {}) loadedTask).1 =
    0x40000000 ∧ ((sysLinuxMmap 1 (2 ^ 44) 0x22 (-1) (fun _ => {}) loadedTask).2.tasks 1).any
    (fun u => u.pd (page 0x40000000) = none) := by
  decide +kernel

theorem mapping_not_fresh : ¬ ∀ s t length flags fd env, Run (fun _ _ => True) s → 0 < length →
    0 ≤ (sysLinuxMmap t length flags fd env s).1 →
    Fresh s (sysLinuxMmap t length flags fd env s).2 t (sysLinuxMmap t length flags fd env s).1.toNat length := by
  intro h
  obtain ⟨hret, hempty⟩ := huge_mapping_empty
  have hfresh := h loadedTask 1 (2 ^ 44) 0x22 (-1) (fun _ => {}) (.step _ (.boot freeMachine) trivial) (by decide)
    (by rw [hret]; decide)
  rw [hret] at hfresh
  obtain ⟨u, u', -, hu', hall⟩ := hfresh
  obtain ⟨-, -, f, hf, -⟩ := hall 0x40000000 (Nat.le_refl _) (by decide)
  rw [resolve_user _ (by decide)] at hf
  rw [hu'] at hempty
  have hnone : u'.pd (page 0x40000000) = none := of_decide_eq_true hempty
  rw [hnone] at hf
  cases hf

end ComputerOS.Loader
