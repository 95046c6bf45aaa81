import ComputerOS.Loader.Owners

/-!
Ownership over whole runs. Every frame mapped in the lower half of a task is in the task's records,
once, and in no other task's, and every record is the mapping of its page, in every state that
loads, forks, calls and exits lead to, however memory runs out. This needs that no page is mapped
over another one and that the record of a new page of a running task is not lost.
-/
namespace ComputerOS.Loader

open Function Fallible

variable {others : ℕ → Prop} {env : ℕ → PageEnv} {u : Space} {w : View} {s : Sys} {t v : ℕ}

theorem mem_pagesIn {start stop : ℕ} (h : v ∈ pagesIn start stop) : start ≤ v ∧ v + 0x1000 ≤ stop := by
  obtain ⟨i, hi, rfl⟩ := List.mem_map.mp h
  have hlt := List.mem_range.mp hi
  omega

theorem page_user (hv : v < 2 ^ 47) : page v < USER_PAGES := by
  unfold page USER_PAGES
  omega

/-- The break is rounded up to the end of the heap at most. -/
theorem pageUp_le {brk : ℕ} (h : brk ≤ LOADER_HEAP_BASE + LOADER_HEAP_MAX) :
    pageUp brk ≤ LOADER_HEAP_BASE + LOADER_HEAP_MAX := by
  unfold LOADER_HEAP_BASE LOADER_HEAP_MAX at h ⊢
  unfold pageUp
  omega

theorem heap_user {start brk : ℕ} (hbrk : brk ≤ LOADER_HEAP_BASE + LOADER_HEAP_MAX)
    (hv : v ∈ pagesIn start (pageUp brk)) : page v < USER_PAGES := by
  have hle := pageUp_le hbrk
  have hlt := (mem_pagesIn hv).2
  unfold LOADER_HEAP_BASE LOADER_HEAP_MAX at hle
  exact page_user (by omega)

/-- A view of a running task. -/
abbrev Whole (others : ℕ → Prop) : View → Prop := Kept others fun _ => True

theorem Whole.setBrk (h : Whole others w) (brk : ℕ) : Whole others { w with u := { w.u with heapBrk := brk } } :=
  ⟨h.ledger, ⟨h.sound.current, h.sound.recorded, h.sound.heap⟩, h.within⟩

theorem Whole.loaderSbrk64 (h : Whole others w) (hrec : ∀ i, (env i).recOk = true) (delta : ℤ) :
    Whole others (loaderSbrk64 delta env w).2 := by
  unfold Loader.loaderSbrk64
  dsimp only
  split
  · exact h
  split
  · exact h
  · rename_i hmax
    rw [h.sound.heap, Nat.not_lt] at hmax
    have hloop := kept_eachAnon True
      (l := pagesIn (pageUp w.u.heapBrk) (pageUp ((w.u.heapBrk + delta.toNat) % 2 ^ 64)))
      (fun v hv => ⟨heap_user hmax hv, trivial⟩) (fun i _ => hrec i) w h
    rcases hrun : (each loaderMapAnonPage env (pagesIn (pageUp w.u.heapBrk)
        (pageUp ((w.u.heapBrk + delta.toNat) % 2 ^ 64)))).run w with ⟨_ | _, w'⟩
    · rw [hrun] at hloop
      exact (hloop.2 rfl).2 trivial
    · rw [hrun] at hloop
      exact Whole.setBrk (hloop.1 () rfl) _

theorem Whole.loaderSetBrk (h : Whole others w) (brk : ℕ) : Whole others (loaderSetBrk brk w) := by
  unfold Loader.loaderSetBrk
  split
  · exact h.setBrk brk
  · exact h

theorem Whole.loaderBrk (h : Whole others w) (hrec : ∀ i, (env i).recOk = true) (newBrk : ℕ) :
    Whole others (loaderBrk newBrk env w).2 := by
  unfold Loader.loaderBrk
  dsimp only
  split
  · exact h
  split
  · exact h.loaderSetBrk newBrk
  · exact h.loaderSbrk64 hrec _

def sbrkPages (delta : ℤ) (u : Space) : List ℕ :=
  if delta ≤ 0 ∨ u.heapMax < (u.heapBrk + delta.toNat) % 2 ^ 64 then []
  else pagesIn (pageUp u.heapBrk) (pageUp ((u.heapBrk + delta.toNat) % 2 ^ 64))

/-- Different pages of a range in the lower half have different indices. -/
theorem pagesIn_nodup {start stop : ℕ} (hstop : stop ≤ 2 ^ 47) : ((pagesIn start stop).map page).Nodup := by
  unfold pagesIn
  rw [List.map_map]
  refine List.Nodup.map_on (fun i hi j hj heq => ?_) List.nodup_range
  have hi' := List.mem_range.mp hi
  have hj' := List.mem_range.mp hj
  simp only [comp_apply, page] at heq
  omega

theorem Whole.loaderSbrk {delta : ℤ} (h : Whole others w) (hrec : ∀ i, (env i).recOk = true)
    (hnew : ∀ v ∈ sbrkPages delta w.u, w.u.pd (page v) = none) : Whole others (loaderSbrk delta env w).2 := by
  unfold Loader.loaderSbrk
  dsimp only
  split
  · exact h
  split
  · exact h
  · rename_i hdelta hmax
    rw [sbrkPages, if_neg (not_or.mpr ⟨hdelta, hmax⟩)] at hnew
    rw [h.sound.heap, Nat.not_lt] at hmax
    have hstop : pageUp ((w.u.heapBrk + delta.toNat) % 2 ^ 64) ≤ 2 ^ 47 := by
      have hle := pageUp_le hmax
      unfold LOADER_HEAP_BASE LOADER_HEAP_MAX at hle
      omega
    have hloop := kept_eachNew True (fun i _ => hrec i) w
      ⟨h, fun v hv => ⟨heap_user hmax hv, trivial⟩, pagesIn_nodup hstop, hnew⟩
    rcases hrun : (each allocUserPage env (pagesIn (pageUp w.u.heapBrk)
        (pageUp ((w.u.heapBrk + delta.toNat) % 2 ^ 64)))).run w with ⟨_ | _, w'⟩
    · rw [hrun] at hloop
      exact (hloop.2 rfl).2 trivial
    · rw [hrun] at hloop
      exact Whole.setBrk (hloop.1 () rfl) _

def Sys.held (s : Sys) (t : ℕ) : List ℕ := (s.tasks t).elim [] Space.frames

/-- Every space is sound, and no frame is held twice. -/
structure Accounted (s : Sys) : Prop where
  ledgers : Ledgers (live s.frames) s.held
  sound : ∀ t u, s.tasks t = some u → Sound u

theorem held_of_some (hu : s.tasks t = some u) : s.held t = u.frames := by
  rw [Sys.held, hu, Option.elim_some]

theorem held_update (s : Sys) (t : ℕ) (o : Option Space) (m : Frames) :
    Sys.held { s with frames := m, tasks := update s.tasks t o } = update s.held t (o.elim [] Space.frames) := by
  funext j
  by_cases hj : j = t
  · subst hj
    rw [update_self, Sys.held]
    dsimp only
    rw [update_self]
  · rw [update_of_ne hj, Sys.held, Sys.held]
    dsimp only
    rw [update_of_ne hj]

namespace Accounted

theorem boot (m : Frames) : Accounted (boot m) where
  ledgers t := Ledger.empty fun _ ⟨_, _, hj⟩ => by cases hj
  sound t u hu := by cases hu

theorem view (h : Accounted s) (hu : s.tasks t = some u) :
    Whole (fun g => ∃ j, j ≠ t ∧ g ∈ s.held j) ⟨u, s.frames⟩ where
  ledger := by
    have hl := h.ledgers t
    rwa [held_of_some hu] at hl
  sound := h.sound t u hu
  within _ _ := trivial

/-- One task's space changes. -/
theorem update (h : Accounted s) {o : Option Space} {m : Frames}
    (hl : Ledgers (live m) (update s.held t (o.elim [] Space.frames))) (hsound : ∀ u, o = some u → Sound u) :
    Accounted { s with frames := m, tasks := Function.update s.tasks t o } where
  ledgers := by
    rw [held_update]
    exact hl
  sound j u hu := by
    dsimp only at hu
    by_cases hj : j = t
    · subst hj
      rw [update_self] at hu
      exact hsound u hu
    · rw [update_of_ne hj] at hu
      exact h.sound j u hu

theorem put (h : Accounted s) (hw : Whole (fun g => ∃ j, j ≠ t ∧ g ∈ s.held j) w) : Accounted (s.put t w) :=
  h.update (o := some w.u) (h.ledgers.put hw.ledger) fun _ hu => Option.some.inj hu ▸ hw.sound

/-- Nothing changes but that more or other frames are allocated. -/
theorem setFrames (h : Accounted s) {m : Frames} (hm : ∀ g, (∃ j, g ∈ s.held j) → live m g) :
    Accounted { s with frames := m } where
  ledgers := h.ledgers.mono fun j g hg => hm g ⟨j, hg⟩
  sound := h.sound

theorem onTask (h : Accounted s) {f : View → View}
    (hf : ∀ u, s.tasks t = some u → Whole (fun g => ∃ j, j ≠ t ∧ g ∈ s.held j) (f ⟨u, s.frames⟩)) :
    Accounted (s.onTask t f) := by
  unfold Sys.onTask
  rcases hu : s.tasks t with _ | u
  · exact h
  · exact h.put (hf u hu)

theorem spawn (h : Accounted s) {o : Option Space × Frames} (ho : Made (fun g => ∃ j, g ∈ s.held j) o) :
    Accounted (s.spawn t o) := by
  rcases o with ⟨_ | u, m⟩
  · exact h.setFrames ho
  · exact h.update (o := some u) (h.ledgers.replace ho.ledger fun _ hg _ => hg) fun _ hu =>
      Option.some.inj hu ▸ ho.sound

/-- A space takes the place of the one that the task had, whose frames are freed. -/
theorem replace (h : Accounted s) {old : Space} (hold : s.tasks t = some old)
    (hw : Whole (fun g => ∃ j, g ∈ s.held j) w) : Accounted (s.put t ⟨w.u, releaseResources old w.m⟩) := by
  refine h.update (o := some w.u) (h.ledgers.replace hw.ledger fun g hg hnot => ?_) fun _ hu =>
    Option.some.inj hu ▸ hw.sound
  rw [held_of_some hold] at hnot
  exact live_release hg hnot

theorem exit (h : Accounted s) (hu : s.tasks t = some u) :
    Accounted { s with frames := releaseResources u s.frames, tasks := Function.update s.tasks t none } := by
  refine h.update (o := none) (h.ledgers.replace h.ledgers.beside fun g hg hnot => ?_) fun _ hn => by cases hn
  rw [held_of_some hu] at hnot
  exact live_release hg hnot

theorem setNext (h : Accounted s) (next : ℕ) : Accounted { s with mmapNext := next } := ⟨h.ledgers, h.sound⟩

theorem sysLinuxMmap (h : Accounted s) {length flags : ℕ} {fd : ℤ} (hrec : ∀ i, (env i).recOk = true)
    (huser : ∀ v ∈ mmapPages s.mmapNext length, page v < USER_PAGES) :
    Accounted (sysLinuxMmap t length flags fd env s).2 := by
  unfold Loader.sysLinuxMmap
  split
  · have hnext := h.setNext ((s.mmapNext + mmapCount length * 0x1000) % 2 ^ 64)
    dsimp only
    rcases hu : s.tasks t with _ | u
    · exact hnext
    · have hloop := kept_eachAnon True (l := mmapPages s.mmapNext length)
        (fun v hv => ⟨huser v hv, trivial⟩) (fun i _ => hrec i) ⟨u, s.frames⟩ (h.view hu)
      dsimp only
      rcases hrun : (each loaderMapAnonPage env (mmapPages s.mmapNext length)).run ⟨u, s.frames⟩ with ⟨_ | _, w⟩
      · rw [hrun] at hloop
        exact hnext.put ((hloop.2 rfl).2 trivial)
      · rw [hrun] at hloop
        exact hnext.put (hloop.1 () rfl)
  · exact h

theorem store (h : Accounted s) (bytes : ℕ → ℕ → UInt8) : Accounted (s.store bytes) := ⟨h.ledgers, h.sound⟩

end Accounted

/-- A call that maps no page of the lower half twice, maps none of the upper half, and loses no
record of a page: the image of a program is in the lower half away from the stack, `mmap` stays in
the lower half, `sbrk` grows over pages that are not mapped, and `kmalloc` has memory for the
records of new pages of a running task. -/
def Op.Tracked : Op → Sys → Prop
  | .load _ env, _ => ∀ image, env.image = some image → image.Fits stackPages
  | .exec _ linuxAbi env, _ => ∀ image, env.image = some image → image.Fits (execStackPages linuxAbi)
  | .brk _ _ env, _ => ∀ i, (env i).recOk = true
  | .sbrk t delta env, s => (∀ i, (env i).recOk = true) ∧
      ∀ u, s.tasks t = some u → ∀ v ∈ sbrkPages delta u, u.pd (page v) = none
  | .mmap _ length _ _ env, s => (∀ i, (env i).recOk = true) ∧ ∀ v ∈ mmapPages s.mmapNext length, page v < USER_PAGES
  | .mremap _ _ _ newSize env _, s =>
      (∀ i, (env i).recOk = true) ∧ ∀ v ∈ mmapPages s.mmapNext newSize, page v < USER_PAGES
  | _, _ => True

/-- One call keeps the accounts. -/
theorem Accounted.step (h : Accounted s) (op : Op) (hop : op.Tracked s) : Accounted (op.run s) := by
  have hlive : ∀ g, (∃ j, g ∈ s.held j) → live s.frames g := fun g ⟨_, hj⟩ => h.ledgers.live hj
  cases op with
  | load t env => exact h.spawn (made_load hop hlive)
  | fork t child env =>
    rcases hu : s.tasks t with _ | u
    · rw [Op.run, hu]
      exact h
    · rw [Op.run, hu]
      have hview := h.view hu
      exact h.spawn (made_fork hview.sound hview.ledger.nodup (fun g hg => (hview.ledger.live g hg).2) hlive)
  | exec t linuxAbi env =>
    rcases hu : s.tasks t with _ | old
    · rw [Op.run, hu]
      exact h
    · rw [Op.run, hu]
      have hmade := made_exec hop hlive
      dsimp only
      rcases hexec : doExec linuxAbi env s.frames with ⟨_ | u, m⟩
      · rw [hexec] at hmade
        exact h.setFrames hmade
      · rw [hexec] at hmade
        exact h.replace (w := ⟨u, m⟩) hu hmade
  | brk t newBrk env =>
    exact h.onTask (f := fun w => (loaderBrk newBrk env w).2) fun u hu => (h.view hu).loaderBrk hop
      newBrk
  | sbrk t delta env =>
    exact h.onTask (f := fun w => (loaderSbrk delta env w).2) fun u hu => (h.view hu).loaderSbrk
      hop.1 (hop.2 u hu)
  | mmap t length flags fd env => exact h.sysLinuxMmap hop.1 hop.2
  | mremap t oldAddr oldSize newSize env bytes =>
    rw [Op.run, mremap]
    split
    · exact h
    · have hmmap : Accounted (Loader.sysLinuxMmap t newSize 0x22 (-1) env s).2 := h.sysLinuxMmap hop.1 hop.2
      dsimp only
      split
      · exact hmmap
      · exact hmmap.store bytes
  | munmap t addr length => exact h
  | exit t =>
    rcases hu : s.tasks t with _ | u
    · rw [Op.run, hu]
      exact h
    · rw [Op.run, hu]
      exact h.exit hu
  | store bytes => exact h.store bytes

theorem Accounted.run (h : Run Op.Tracked s) : Accounted s := by
  induction h with
  | boot m => exact Accounted.boot m
  | step op _ hop ih => exact ih.step op hop

/-- The frames of the lower half and the records say the same, and no frame is recorded twice. -/
structure Recorded (s : Sys) : Prop where
  once : ∀ t u p f, s.tasks t = some u → p < USER_PAGES → u.pd p = some f → u.frames.count f = 1 ∧
    (∀ t' u', s.tasks t' = some u' → t' ≠ t → f ∉ u'.frames) ∧ s.frames.allocated f = true
  current : ∀ t u v f, s.tasks t = some u → (v, f) ∈ u.records → View.resolve ⟨u, s.frames⟩ v = some f
  nodup : ∀ t u, s.tasks t = some u → u.frames.Nodup

theorem Accounted.recorded (h : Accounted s) : Recorded s where
  once t u p f hu _ hp := by
    have hview := h.view hu
    obtain ⟨v, -, hmem⟩ := hview.sound.recorded p f hp
    have hf : f ∈ u.frames := List.mem_map_of_mem hmem
    refine ⟨List.count_eq_one_of_mem hview.ledger.nodup hf, fun t' u' hu' hne hf' => ?_, (hview.ledger.live f hf).1⟩
    rw [← held_of_some hu'] at hf'
    exact hview.ledger.apart f hf ⟨t', hne, hf'⟩
  current t u v f hu hmem := by
    obtain ⟨huser, hpd⟩ := (h.sound t u hu).current v f hmem
    rw [resolve_user _ huser]
    exact hpd
  nodup t u hu := (h.view hu).ledger.nodup

/-- In every state that tracked calls lead to, the frames mapped for a task are those that it has
recorded, each once and by no other task. -/
theorem user_pages_recorded (h : Run Op.Tracked s) : Recorded s := (Accounted.run h).recorded

theorem onePage_fits : ∀ image, onePageLoad.image = some image → image.Fits stackPages := by
  rintro image himage
  obtain rfl := Option.some.inj himage
  unfold Image.Fits
  decide +kernel

/-- A task that has loaded the program and mapped two more pages. -/
def mappedTask : Sys :=
  Op.run (.mmap 1 0x2000 0x22 (-1) fun i => { frame := 0x300000 + i * 0x1000 })
  (Op.run (.load 1 onePageLoad) (boot freeMachine))

theorem mappedTask_recorded : Recorded mappedTask ∧
    (mappedTask.tasks 1).any (fun u => u.pd (page 0x40001000) = some 0x301000 ∧ u.frames.length = 12) := by
  refine ⟨user_pages_recorded (.step _ (.step _ (.boot freeMachine) onePage_fits)
    ⟨fun _ => rfl, ?_⟩), by decide +kernel⟩
  decide +kernel

/-- The second page of an `sbrk` finds no frame, and the next `sbrk` starts over at the first. -/
def sbrkTwice : Sys :=
  Op.run (.sbrk 1 0x1000 fun _ => { frame := 0x301000 })
    (Op.run (.sbrk 1 0x2000 fun i => { frame := if i = 0 then 0x300000 else 0 })
    (Op.run (.load 1 onePageLoad) (boot freeMachine)))

theorem sbrkTwice_stale : (sbrkTwice.tasks 1).any (fun u =>
    (0x02000000, 0x300000) ∈ u.records ∧ View.resolve ⟨u, sbrkTwice.frames⟩ 0x02000000 = some 0x301000) := by
  decide +kernel

/-- After an `sbrk` that failed half-way, `loader_sbrk` maps a page that is mapped already. -/
theorem page_mapped_twice : ¬ ∀ s, Run (fun _ _ => True) s → Recorded s := by
  intro h
  have hrec := h sbrkTwice (.step _ (.step _ (.step _ (.boot freeMachine) trivial) trivial) trivial)
  obtain ⟨u, hu, hstale⟩ := (Option.any_eq_true _ _).mp sbrkTwice_stale
  obtain ⟨hmem, hres⟩ := of_decide_eq_true hstale
  have hcur := hrec.current 1 u 0x02000000 0x300000 hu hmem
  rw [hres] at hcur
  revert hcur
  decide

end ComputerOS.Loader
