import ComputerOS.Tasks.Reports

/-!
Where the parent field of a task leads. An exit leaves the tasks alone whose parent it ends, so when
a child is still running, or has not been reported, its parent may be freed before it. In runs in
which no task with such children exits, every parent field stays valid.
-/
namespace ComputerOS.Tasks

open Function

variable {k a c p q z nx : Ptr} {s s' : St} {ring zs : List Ptr} {op : Op} {code : ℤ} {user : Bool} {T : List Event}

/-- A task exits only when all its children have exited and need not be kept. -/
def Tidy (s : St) : Op → Prop
  | .exit _ => ∀ p, s.live p = true → (s.task p).parent = s.current →
    (s.task p).hasExited = true ∧ (s.task p).reapedByParent = true
  | _ => True

structure Lineage (T : List Event) (s : St) : Prop where
  parent : ∀ p, s.live p = true → (s.task p).parent ≠ 0 → s.live (s.task p).parent = true ∧
    .linked (s.task (s.task p).parent).id (s.task p).id ∈ T ∧
    ((s.task (s.task p).parent).hasExited = true → (s.task p).hasExited = true ∧ (s.task p).reapedByParent = true)
  only : ∀ par p, s.live p = true → .linked par (s.task p).id ∈ T →
    (s.task p).parent ≠ 0 ∧ (s.task (s.task p).parent).id = par

section

variable (h : Lineage T s)
include h

theorem Lineage.moved (hm : Moved s s') : Lineage T s' := by
  have hparent : ∀ p, s'.live p = true → (s.task p).parent ≠ 0 → s'.live (s.task p).parent = true := by
    intro p hp h0
    obtain ⟨hl, -, hx⟩ := h.parent p (hm.live p hp).1 h0
    by_contra hno
    -- a parent is freed together with all children that it leaves
    obtain ⟨hexit, -, hall⟩ := hm.freed _ hl (Bool.eq_false_iff.mpr hno)
    obtain ⟨hpe, hpr⟩ := hx hexit
    rw [hall p (hm.live p hp).1 hpe hpr] at hp
    cases hp
  refine ⟨fun p hp h0 => ?_, fun par p hp hl => ?_⟩
  · obtain ⟨hpl, hsame⟩ := hm.live p hp
    rw [hsame.parent] at h0 ⊢
    have hl' := hparent p hp h0
    obtain ⟨-, hsame'⟩ := hm.live _ hl'
    rw [hsame.id, hsame'.id, hsame'.hasExited, hsame.hasExited, hsame.reapedByParent]
    exact ⟨hl', (h.parent p hpl h0).2⟩
  · obtain ⟨hpl, hsame⟩ := hm.live p hp
    rw [hsame.id] at hl
    obtain ⟨h0, hid⟩ := h.only par p hpl hl
    rw [hsame.parent]
    exact ⟨h0, (hm.live _ (hparent p hp h0)).2.id.trans hid⟩

theorem Lineage.spawned (hk : Known k T s) (ha : s.live a = false)
    (htask : s'.task = update s.task a { id := s.nextId, isUser := user }) (hlive : s'.live = update s.live a true) :
    Lineage T s' := by
  have hnew : s'.task a = { id := s.nextId, isUser := user } := by rw [htask, update_self]
  have hstay : ∀ p, s.live p = true → s'.live p = true ∧ s'.task p = s.task p := by
    intro p hp
    have hpa : p ≠ a := by
      rintro rfl
      rw [hp] at ha
      cases ha
    rw [hlive, htask, update_of_ne hpa, update_of_ne hpa]
    exact ⟨hp, rfl⟩
  have hold : ∀ p, s'.live p = true → p = a ∨ s.live p = true := by
    intro p hp
    by_cases hpa : p = a
    · exact Or.inl hpa
    · rw [hlive, update_of_ne hpa] at hp
      exact Or.inr hp
  refine ⟨fun p hp h0 => ?_, fun par p hp hl => ?_⟩
  · rcases hold p hp with rfl | hpl
    · rw [hnew] at h0
      exact absurd rfl h0
    · rw [(hstay p hpl).2] at h0 ⊢
      obtain ⟨hl, hrest⟩ := h.parent p hpl h0
      rw [(hstay _ hl).2]
      exact ⟨(hstay _ hl).1, hrest⟩
  · rcases hold p hp with rfl | hpl
    · rw [hnew] at hl
      exact absurd (hk.below _ hl).2 (Nat.lt_irrefl _)
    · rw [(hstay p hpl).2] at hl ⊢
      obtain ⟨h0, hid⟩ := h.only par p hpl hl
      rw [(hstay _ (h.parent p hpl h0).1).2]
      exact ⟨h0, hid⟩

theorem Lineage.linked (hs : Sane k s ring zs) (hk : Known k T s) (hc : s.live c = true) (h0 : (s.task c).parent = 0) :
    Lineage (.linked (s.task s.current).id (s.task c).id :: T)
    (s.setTask c fun t => { t with parent := s.current }) := by
  have hself : (s.setTask c fun t => { t with parent := s.current }).task c = { s.task c with parent := s.current } :=
    St.setTask_self ..
  refine ⟨fun p hp hp0 => ?_, fun par p hp hl => ?_⟩
  · by_cases hpc : p = c
    · subst hpc
      rw [hself]
      obtain ⟨q, heq, -⟩ := linked_task s p s.current
      rw [heq]
      refine ⟨hs.live_current, List.mem_cons_self, fun hx => ?_⟩
      rw [(hs.alive _ hs.current).1] at hx
      cases hx
    · rw [St.setTask_of_ne hpc] at hp0 ⊢
      obtain ⟨hl, hmem, hx⟩ := h.parent p hp hp0
      obtain ⟨q, heq, -⟩ := linked_task s c (s.task p).parent
      rw [heq]
      exact ⟨hl, List.mem_cons_of_mem _ hmem, hx⟩
  · by_cases hpc : p = c
    · subst hpc
      rw [hself] at hl ⊢
      obtain ⟨q, heq, -⟩ := linked_task s p s.current
      rw [heq]
      refine ⟨hs.ring_ne_zero hs.current, ?_⟩
      rcases List.mem_cons.mp hl with hl | hl
      · injection hl with hpar
        exact hpar.symm
      · exact absurd h0 (h.only par p hp hl).1
    · rw [St.setTask_of_ne hpc] at hl ⊢
      rcases List.mem_cons.mp hl with hl | hl
      · injection hl with _ hid
        exact absurd (hk.inj p c hp hc hid) hpc
      · obtain ⟨hp0, hid⟩ := h.only par p hp hl
        obtain ⟨q, heq, -⟩ := linked_task s c (s.task p).parent
        rw [heq]
        exact ⟨hp0, hid⟩

theorem Lineage.exited (hs : Sane k s ring zs) (hx : Exits s s' nx code) (hok : Tidy s (.exit code)) :
    Lineage (.exited (s.task s.current).id code :: T) s' := by
  have hrun := (hs.alive _ hs.current).1
  refine ⟨fun p hp hp0 => ?_, fun par p hp hl => ?_⟩
  · rw [hx.live] at hp
    rw [hx.parent] at hp0 ⊢
    obtain ⟨hl, hmem, hexit⟩ := h.parent p hp hp0
    rw [hx.live, hx.id, hx.id]
    refine ⟨hl, List.mem_cons_of_mem _ hmem, fun hpx => ?_⟩
    have hdone : (s.task p).hasExited = true ∧ (s.task p).reapedByParent = true := by
      by_cases hcur : (s.task p).parent = s.current
      · exact hok p hp hcur
      · obtain ⟨st, heq⟩ := hx.other _ hcur
        rw [heq] at hpx
        exact hexit hpx
    have hpc : p ≠ s.current := by
      rintro rfl
      rw [hrun] at hdone
      cases hdone.1
    obtain ⟨st, heq⟩ := hx.other p hpc
    rw [heq]
    exact hdone
  · rw [hx.live] at hp
    rw [hx.id] at hl
    rw [hx.parent, hx.id]
    exact h.only par p hp (by simpa using hl)

theorem Lineage.waited (hexit : (s.task z).hasExited = true) :
    Lineage (.waited (s.task s.current).id (s.task z).id (s.task z).exitCode :: T)
      ((s.setTask z fun t => { t with reapedByParent := true }).setPc s.current .free) := by
  have hself : ((s.setTask z fun t => { t with reapedByParent := true }).setPc s.current .free).task
      z = { s.task z with reapedByParent := true } := update_self ..
  refine ⟨fun p hp hp0 => ?_, fun par p hp hl => ?_⟩
  · obtain ⟨r, heq, hr⟩ := waited_task s z p
    rw [heq] at hp0 ⊢
    obtain ⟨r', heq', -⟩ := waited_task s z (s.task p).parent
    rw [heq']
    obtain ⟨hl, hmem, hx⟩ := h.parent p hp hp0
    refine ⟨hl, List.mem_cons_of_mem _ hmem, fun hpx => ⟨(hx hpx).1, ?_⟩⟩
    by_cases hpz : p = z
    · subst hpz
      rw [hself] at heq
      exact (congrArg Task.reapedByParent heq).symm
    · exact (hr hpz).trans (hx hpx).2
  · obtain ⟨r, heq, -⟩ := waited_task s z p
    rw [heq] at hl ⊢
    obtain ⟨r', heq', -⟩ := waited_task s z (s.task p).parent
    rw [heq']
    exact h.only par p hp (by simpa using hl)

theorem Lineage.step (hs : Sane k s ring zs) (hk : Known k T s) (hok : Tidy s op) (he : Effect k s op s') :
    Lineage (op.events s ++ T) s' := by
  cases he with
  | moved hev hm => exact hev ▸ h.moved hm
  | spawned hop ha0 ha htask hlive hid hpc => exact hop ▸ h.spawned hk ha htask hlive
  | linked hop hc h0 hne => exact hop ▸ h.linked hs hk hc h0
  | exited hop hpc hx =>
    subst hop
    exact h.exited hs hx hok
  | waited hev hop hop' hz hexit hparent hreap => exact hev ▸ h.waited hexit

end

theorem Run.lineage (hk : k ≠ 0) (h : Run Tidy k T s) : Lineage T s := by
  induction h with
  | init =>
    refine ⟨fun p _ h0 => ?_, by simp⟩
    by_cases hp : p = k
    · subst hp
      simp [taskingInit] at h0
    · simp [taskingInit, hp] at h0
  | step h' hen hok hrun ih =>
    obtain ⟨ring, zs, hs⟩ := h'.sane hk
    exact ih.step hs (h'.known hk) hok (hs.effect hen hrun)

theorem parents_valid (hk : k ≠ 0) (h : Run Tidy k T s) (hp : s.live p = true) :
    ((s.task p).parent = 0 ∨ s.live (s.task p).parent = true ∧
      .linked (s.task (s.task p).parent).id (s.task p).id ∈ T) ∧
    ((s.task p).hasExited = true → ∀ par e, .linked par (s.task p).id ∈ T → .exited par e ∈ T →
      (∀ q, s.live q = true → (s.task q).id ≠ par) → (s.task p).reapedByParent = true) := by
  have hlin := h.lineage hk
  refine ⟨?_, fun _ par e hl _ hgone => ?_⟩
  · by_cases h0 : (s.task p).parent = 0
    · exact Or.inl h0
    · exact Or.inr ⟨(hlin.parent p hp h0).1, (hlin.parent p hp h0).2.1⟩
  · obtain ⟨h0, hid⟩ := hlin.only par p hp hl
    exact absurd hid (hgone _ (hlin.parent p hp h0).1)

/-- A child has been linked and exits: it has no children, and its parent goes on. -/
theorem parents_valid_of_exit : ∃ T s, Run Tidy 1 T s ∧ .exited 1 7 ∈ T ∧ s.live 2 = true ∧
    ((s.task 2).parent = 0 ∨ s.live (s.task 2).parent = true) := by
  obtain ⟨T, s, hrun, hpc, hcur, hid, ⟨hl1, hid1, hp1⟩, hl2, hid2, hp2⟩ :=
    @Run.exists_of_play (fun _ op => match op with | .exit _ => False | _ => True)
      (fun _ op => by cases op <;> infer_instance) 1 [.spawn 2 true, .link 2, .yield] (fun _ s => s.pc s.current = .free ∧ s.current = 2 ∧
        s.nextId = 2 ∧ (s.live 1 = true ∧ (s.task 1).id = 0 ∧ (s.task 1).parent = 0) ∧
        s.live 2 = true ∧ (s.task 2).id = 1 ∧ (s.task 2).parent = 1) _ (by decide)
  have hT : Run Tidy 1 T s := hrun.imp fun s op hop => by
    cases op with
    | exit code => cases hop
    | _ => trivial
  have hknown := hT.known (by decide)
  have hok : Tidy s (.exit 7) := by
    intro p hp hparent
    have hlt := hknown.lt p hp
    rw [hid] at hlt
    rw [hcur] at hparent
    rcases Nat.lt_succ_iff_lt_or_eq.mp hlt with h0 | h1
    · obtain rfl := hknown.inj p 1 hp hl1 ((Nat.lt_one_iff.mp h0).trans hid1.symm)
      rw [hp1] at hparent
      cases hparent
    · obtain rfl := hknown.inj p 2 hp hl2 (h1.trans hid2.symm)
      rw [hp2] at hparent
      cases hparent
  obtain ⟨ring, zs, hs⟩ := hT.sane (by decide)
  have hen : (Op.exit 7).Enabled 1 s := ⟨hpc, by rw [hcur]; decide⟩
  obtain ⟨s', nx, hexit, -, hx⟩ := hs.exit 7 hen.2
  have hrun' : Run Tidy 1 ((Op.exit 7).events s ++ T) s' := hT.step hen hok hexit
  have hlive : s'.live 2 = true := by
    rw [hx.live]
    exact hl2
  obtain ⟨hvalid, -⟩ := parents_valid (by decide) hrun' hlive
  refine ⟨_, s', hrun', ?_, hlive, hvalid.imp_right And.left⟩
  change _ ∈ Event.exited (s.task s.current).id 7 :: T
  rw [hcur, hid2]
  exact List.mem_cons_self

/-- The child at 3 of the task at 2 runs on when that exits, is reported and is freed. It exits with
a parent field that leads nowhere, and will never be freed. -/
theorem parent_dangles : ∃ T s, Run (fun _ _ => True) 1 T s ∧ s.live 3 = true ∧ (s.task 3).hasExited = true ∧
    (s.task 3).parent ≠ 0 ∧ s.live (s.task 3).parent = false ∧ (s.task 3).reapedByParent = false := by
  exact @Run.exists_of_play (fun _ _ => True) _ 1
    [.spawn 2 true, .link 2, .yield, .spawn 3 true, .link 3, .exit 0, .wait (-1) true, .yield, .exit 0]
    (fun _ s => s.live 3 = true ∧ (s.task 3).hasExited = true ∧ (s.task 3).parent ≠ 0 ∧
      s.live (s.task 3).parent = false ∧ (s.task 3).reapedByParent = false) _ (by decide)

end ComputerOS.Tasks
