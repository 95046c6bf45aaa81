import ComputerOS.Tasks.Waiting

/-!
What a step can do to the tasks: nearly every one only changes who runs and frees zombies that need
not be kept. The others make a task, give it a parent, end it, or report its end.
-/
namespace ComputerOS.Tasks

open Function

variable {k p q z nx : Ptr} {s s' s₁ s₂ : St} {ring zs : List Ptr} {op : Op} {pid code : ℤ} {nohang : Bool}
  {t t' : Task} {r : WaitResult}

/-- The tasks differ only in whether they run and in the flag of a wait. -/
def Same (t t' : Task) : Prop := ∃ st w, t' = { t with state := st, waitAny := w }

theorem Same.refl (t : Task) : Same t t := ⟨t.state, t.waitAny, rfl⟩

theorem Same.trans {t₁ t₂ t₃ : Task} (h : Same t₁ t₂) (h' : Same t₂ t₃) : Same t₁ t₃ := by
  obtain ⟨st, w, rfl⟩ := h
  obtain ⟨st', w', rfl⟩ := h'
  exact ⟨st', w', rfl⟩

namespace Same

variable (h : Same t t')
include h

theorem id : t'.id = t.id := by
  obtain ⟨st, w, rfl⟩ := h
  rfl

theorem parent : t'.parent = t.parent := by
  obtain ⟨st, w, rfl⟩ := h
  rfl

theorem exitCode : t'.exitCode = t.exitCode := by
  obtain ⟨st, w, rfl⟩ := h
  rfl

theorem hasExited : t'.hasExited = t.hasExited := by
  obtain ⟨st, w, rfl⟩ := h
  rfl

theorem reapedByParent : t'.reapedByParent = t.reapedByParent := by
  obtain ⟨st, w, rfl⟩ := h
  rfl

end Same

/-- Nothing happens to the tasks except that zombies with `reaped_by_parent` may all be freed. -/
structure Moved (s s' : St) : Prop where
  nextId : s'.nextId = s.nextId
  pc : ∀ p, s'.pc p = .entry → s.pc p = .entry
  live : ∀ p, s'.live p = true → s.live p = true ∧ Same (s.task p) (s'.task p)
  freed : ∀ q, s.live q = true → s'.live q = false → (s.task q).hasExited = true ∧ (s.task q).reapedByParent = true ∧
    ∀ p, s.live p = true → (s.task p).hasExited = true → (s.task p).reapedByParent = true → s'.live p = false

namespace Moved

/-- A step that frees nothing. -/
theorem of_same (hid : s'.nextId = s.nextId) (hpc : ∀ p, s'.pc p = .entry → s.pc p = .entry) (hlive : s'.live = s.live)
    (htask : ∀ p, s.live p = true → Same (s.task p) (s'.task p)) : Moved s s' := by
  refine ⟨hid, hpc, fun p hp => ?_, fun q hq hno => ?_⟩
  · rw [hlive] at hp
    exact ⟨hp, htask p hp⟩
  · rw [hlive, hq] at hno
    cases hno

theorem refl (s : St) : Moved s s := of_same rfl (fun _ hp => hp) rfl fun _ _ => Same.refl _

theorem setPc (c : Pc) (hc : c ≠ .entry) : Moved s (s.setPc p c) := by
  refine of_same rfl (fun q hq => ?_) rfl fun _ _ => Same.refl _
  change update s.pc p c q = .entry at hq
  by_cases hqp : q = p
  · subst hqp
    rw [update_self] at hq
    exact absurd hq hc
  · rwa [update_of_ne hqp] at hq

theorem setTask (f : Task → Task) (hf : Same (s.task p) (f (s.task p))) : Moved s (s.setTask p f) := by
  refine of_same rfl (fun _ hq => hq) rfl fun q _ => ?_
  by_cases hqp : q = p
  · subst hqp
    rw [St.setTask_self]
    exact hf
  · rw [St.setTask_of_ne hqp]
    exact Same.refl _

theorem not_live (h : Moved s s') (hp : s.live p = false) : s'.live p = false := by
  refine Bool.eq_false_iff.mpr fun hl => ?_
  rw [(h.live p hl).1] at hp
  cases hp

theorem trans (h : Moved s s₁) (h' : Moved s₁ s') : Moved s s' := by
  refine ⟨h'.nextId.trans h.nextId, fun p hp => h.pc p (h'.pc p hp), fun p hp => ?_, fun q hq hno => ?_⟩
  · obtain ⟨hl, hsame⟩ := h'.live p hp
    obtain ⟨hl', hsame'⟩ := h.live p hl
    exact ⟨hl', hsame'.trans hsame⟩
  · cases hq1 : s₁.live q with
    | false =>
      obtain ⟨hexit, hreap, hall⟩ := h.freed q hq hq1
      exact ⟨hexit, hreap, fun p hp hpe hpr => h'.not_live (hall p hp hpe hpr)⟩
    | true =>
      obtain ⟨hexit, hreap, hall⟩ := h'.freed q hq1 hno
      have hsame := (h.live q hq1).2
      refine ⟨hsame.hasExited ▸ hexit, hsame.reapedByParent ▸ hreap, fun p hp hpe hpr => ?_⟩
      cases hp1 : s₁.live p with
      | false => exact h'.not_live hp1
      | true =>
        have hsame' := (h.live p hp1).2
        exact hall p hp1 (hsame'.hasExited.trans hpe) (hsame'.reapedByParent.trans hpr)

end Moved

theorem moved_switchTo (s : St) (nx : Ptr) : Moved s (switchTo s nx) := by
  refine Moved.of_same rfl (fun p hp => ?_) rfl fun p _ => ?_
  · change update s.pc nx (if s.pc nx = .entry then .free else s.pc nx) p = .entry at hp
    by_cases hpn : p = nx
    · subst hpn
      rw [update_self] at hp
      split at hp
      · cases hp
      · assumption
    · rwa [update_of_ne hpn] at hp
  · obtain ⟨st, heq⟩ := switchTo_task s nx p
    exact ⟨st, (s.task p).waitAny, heq⟩

theorem moved_schedule (h : schedule s = some s') : Moved s s' := by
  unfold schedule at h
  obtain ⟨nx, -, rfl⟩ := Option.map_eq_some_iff.mp h
  split
  · exact Moved.refl s
  · exact moved_switchTo s nx

theorem moved_schedulerTick (h : schedulerTick s = some s') : Moved s s' := by
  unfold schedulerTick at h
  split at h
  · cases h
    exact Moved.refl s
  · exact moved_schedule h

theorem Base.moved_reapZombies (h : Base k s ring zs) (hrun : Tasks.reapZombies s = some s') : Moved s s' := by
  obtain ⟨s1, hrun', -, hsw⟩ := h.toListed.reapZombies
  rw [hrun] at hrun'
  cases hrun'
  have hin : ∀ p, s.live p = true → (s.task p).hasExited = true → p ∈ zs := by
    intro p hp hexit
    refine (List.mem_append.mp ((h.live p).mpr hp)).resolve_left fun hr => ?_
    rw [(h.alive p hr).1] at hexit
    cases hexit
  refine ⟨hsw.nextId, fun p hp => hsw.pc ▸ hp, fun p hp => ?_, fun q hq hno => ?_⟩
  · obtain ⟨hl, hgone⟩ := (hsw.live p).mp hp
    rw [hsw.task p hgone]
    exact ⟨hl, Same.refl _⟩
  · have hgone : q ∈ zs ∧ (s.task q).reapedByParent = true := by
      by_contra hn
      rw [(hsw.live q).mpr ⟨hq, hn⟩] at hno
      cases hno
    refine ⟨(h.gone q hgone.1).1, hgone.2, fun p hp hexit hreap => Bool.eq_false_iff.mpr fun hl => ?_⟩
    exact ((hsw.live p).mp hl).2 ⟨hin p hp hexit, hreap⟩

theorem Base.moved_yield (h : Base k s ring zs) (hrun : Tasks.yield s = some s') : Moved s s' := by
  unfold Tasks.yield at hrun
  obtain ⟨s1, hreap, hrun⟩ := Option.bind_eq_some_iff.mp hrun
  have hmoved := h.moved_reapZombies hreap
  split at hrun
  · cases hrun
    exact hmoved
  · exact hmoved.trans (moved_schedule hrun)

/-- A step of `op` from `s`, by what happens to the tasks. -/
inductive Effect (k : Ptr) (s : St) (op : Op) : St → Prop
  | moved {s' : St} (hev : op.events s = []) (h : Moved s s') : Effect k s op s'
  | spawned {s' : St} {a : Ptr} {user : Bool} (hop : op = .spawn a user) (ha0 : a ≠ 0) (ha : s.live a = false)
      (htask : s'.task = update s.task a { id := s.nextId, isUser := user }) (hlive : s'.live = update s.live a true)
      (hid : s'.nextId = s.nextId + 1) (hpc : s'.pc = update s.pc a .entry) : Effect k s op s'
  | linked {c : Ptr} (hop : op = .link c) (hc : s.live c = true) (h0 : (s.task c).parent = 0) (hne : c ≠ s.current) :
      Effect k s op (s.setTask c fun t => { t with parent := s.current })
  | exited {s' : St} {nx : Ptr} {code : ℤ} (hop : op = .exit code) (hpc : s.pc s.current = .free)
      (h : Exits s s' nx code) : Effect k s op s'
  | waited {z : Ptr} (hev : op.events s = [.waited (s.task s.current).id (s.task z).id (s.task z).exitCode])
      (hop : ∀ c, op ≠ .link c) (hop' : ∀ code, op ≠ .exit code) (hz : s.live z = true)
      (hexit : (s.task z).hasExited = true)
      (hparent : (s.task z).parent = s.current) (hreap : (s.task z).reapedByParent = false) :
      Effect k s op ((s.setTask z fun t => { t with reapedByParent := true }).setPc s.current .free)

/-- A check of a wait either finds a child, or changes nothing that matters here. -/
theorem Base.effect_check (h : Base k s ring zs) (hc : Checked s ring zs pid nohang r s')
    (hrun : Tasks.waitCheck s pid nohang = some (r, s')) (hev : op.events s = waitEvents s pid nohang)
    (hop : ∀ c, op ≠ .link c) (hop' : ∀ code, op ≠ .exit code) : Effect k s op s' := by
  unfold waitEvents at hev
  rw [hrun] at hev
  cases hc with
  | child hz hexit hu =>
    simp only [unreaped, Bool.and_eq_true, beq_iff_eq, Bool.not_eq_true'] at hu
    exact .waited hev hop hop' ((h.live _).mp (List.mem_append_right _ hz)) hexit hu.1.1 hu.1.2
  | noChild hz hp => exact .moved hev (Moved.setPc .free (by decide))
  | notYet hz hp ha hno => exact .moved hev (Moved.setPc .free (by decide))
  | block hz hp ha hno => exact .moved hev ((Moved.setTask _ ⟨_, _, rfl⟩).trans (Moved.setPc _ (by simp)))

theorem Sane.effect (h : Sane k s ring zs) (hen : op.Enabled k s) (hrun : op.run s = some s') : Effect k s op s' := by
  cases op with
  | tick => exact .moved rfl (moved_schedulerTick hrun)
  | enablePreemption =>
    cases hrun
    exact .moved rfl (Moved.of_same rfl (fun _ hp => hp) rfl fun _ _ => Same.refl _)
  | spawn a user =>
    cases hrun
    obtain ⟨r, -, -, hready⟩ := h.ring_eq h.kmain
    obtain ⟨htask, hlive, -, hpc⟩ := @taskSpawn_eq s a user hready
    exact .spawned rfl hen.2.1 hen.2.2 htask hlive (taskSpawn_nextId hready) hpc
  | link c =>
    cases hrun
    exact .linked rfl hen.2.1 hen.2.2.2.1 hen.2.2.2.2
  | yield => exact .moved rfl (h.toBase.moved_yield hrun)
  | exit code =>
    obtain ⟨s1, nx, hrun', -, hexits⟩ := h.exit code hen.2
    obtain rfl : s1 = s' := Option.some.inj (hrun'.symm.trans hrun)
    exact .exited rfl hen.1 hexits
  | wait pid nohang =>
    obtain ⟨r, s1, hrun', hc⟩ := h.toBase.waitCheck pid nohang
    obtain rfl : s1 = s' := by
      rw [Op.run, hrun'] at hrun
      exact Option.some.inj hrun
    exact h.toBase.effect_check hc hrun' rfl (by simp) (by simp)
  | resume =>
    change Tasks.resume s = some s' at hrun
    unfold Tasks.resume at hrun
    split at hrun
    · rename_i hpc
      cases hrun
      exact .moved (by rw [Op.events, hpc]) (Moved.refl s)
    · rename_i hpc
      cases hrun
      exact .moved (by rw [Op.events, hpc]) (Moved.refl s)
    · rename_i pid hpc
      obtain ⟨r, s1, hrun', hc⟩ := h.toBase.waitCheck pid false
      obtain rfl : s1 = s' := by
        rw [hrun'] at hrun
        exact Option.some.inj hrun
      exact h.toBase.effect_check hc hrun' (by rw [Op.events, hpc]) (by simp) (by simp)
    · rename_i pid hpc
      refine .moved (by rw [Op.events, hpc]) ?_
      exact (Moved.setPc (.awake pid) (by simp)).trans ((h.toBase.setAwake hpc).moved_yield hrun)
    · rename_i pid hpc
      cases hrun
      exact .moved (by rw [Op.events, hpc]) ((Moved.setTask _ ⟨_, _, rfl⟩).trans (Moved.setPc _ (by simp)))
  | scribble p t =>
    cases hrun
    refine .moved rfl (Moved.of_same rfl (fun _ hp => hp) rfl fun q hq => ?_)
    rw [St.setTask_of_ne]
    · exact Same.refl _
    · rintro rfl
      rw [hen] at hq
      cases hq

end ComputerOS.Tasks
