import ComputerOS.Tasks.Lists

/-!
What holds of the tasks in every run. The ring holds the current task and all that have not exited;
a task that is blocked has a child there. As the first task neither exits nor has a parent, some
task of the ring is never blocked, so the system never runs out of tasks to switch to.
-/
namespace ComputerOS.Tasks

open Function

variable {k a c p q z nx : Ptr} {s s' : St} {ring zs ring' zs' : List Ptr} {op : Op} {pid code : ℤ} {user nohang : Bool}

/-- A blocked task `p` is in a wait that a child of it may end, and no exited child is there for it.
-/
structure Waits (s : St) (ring zs : List Ptr) (p : Ptr) : Prop where
  flag : (s.task p).waitAny = true
  child : ∃ c ∈ ring, (s.task c).parent = p
  pid : ∃ pid, (s.pc p = .sleeping pid ∨ s.pc p = .awake pid) ∧
    ∀ z ∈ zs, (s.task z).parent = p → (s.task z).reapedByParent = false → waitMatch (s.task z) pid = false

/-- The lists and the states of the tasks on them, whatever the current task is about to do. -/
structure Base (k : Ptr) (s : St) (ring zs : List Ptr) : Prop extends Listed s ring zs where
  kmain : k ∈ ring
  orphan : (s.task k).parent = 0
  kernel : (s.task k).isUser = false
  current : s.current ∈ ring
  alive : ∀ p ∈ ring, (s.task p).hasExited = false ∧ (s.task p).state ≠ .dead
  gone : ∀ z ∈ zs, (s.task z).hasExited = true ∧ (s.task z).state = .dead
  running : ∀ p ∈ ring, p ≠ s.current → (s.task p).state ≠ .running
  status : (s.task s.current).state ≠ .ready
  asleep : ∀ p ∈ ring, (s.task p).state = .blocked → Waits s ring zs p

/-- Between two steps the current task is running, or about to give up the processor in a wait. -/
structure Sane (k : Ptr) (s : St) (ring zs : List Ptr) : Prop extends Base k s ring zs where
  at_yield : (s.task s.current).state = .blocked → ∃ pid, s.pc s.current = .sleeping pid

theorem Waits.mono (h : Waits s ring zs p) (hflag : (s'.task p).waitAny = (s.task p).waitAny)
    (hchild : ∀ c ∈ ring, (s.task c).parent = p → c ∈ ring' ∧ (s'.task c).parent = p) (hpc : s'.pc p = s.pc p)
    (hz : ∀ z ∈ zs', (s'.task z).parent = p → (s'.task z).reapedByParent = false →
      z ∈ zs ∧ (s.task z).parent = p ∧ (s.task z).reapedByParent = false ∧ (s'.task z).id = (s.task z).id) :
    Waits s' ring' zs' p := by
  obtain ⟨c, hc, hp⟩ := h.child
  obtain ⟨pid, hpid, hno⟩ := h.pid
  refine ⟨hflag.trans h.flag, ⟨c, hchild c hc hp⟩, pid, hpc ▸ hpid, fun z hmem hparent hreap => ?_⟩
  obtain ⟨hmem', hparent', hreap', hid⟩ := hz z hmem hparent hreap
  unfold waitMatch
  rw [hid]
  exact hno z hmem' hparent' hreap'

theorem Base.runnable_ready (h : Base k s ring zs) (hp : p ∈ ring) (hne : p ≠ s.current)
    (hrun : (s.task p).state ≠ .blocked) : (s.task p).state = .ready := by
  have halive := (h.alive p hp).2
  have hrunning := h.running p hp hne
  cases hstate : (s.task p).state with
  | ready => rfl
  | running => exact absurd hstate hrunning
  | blocked => exact absurd hstate hrun
  | dead => exact absurd hstate halive

theorem Base.exists_ready (h : Base k s ring zs) (hblocked : (s.task s.current).state = .blocked) :
    ∃ p ∈ ring, p ≠ s.current ∧ (s.task p).state = .ready := by
  have hk : (s.task k).parent ∉ ring := by
    rw [h.orphan]
    exact fun hm => h.ring_ne_zero hm rfl
  obtain ⟨p, hp, hno⟩ := @exists_childless _ k ring (fun p => (s.task p).parent) h.kmain hk
  have hnot : (s.task p).state ≠ .blocked := by
    intro hb
    obtain ⟨c, hc, hparent⟩ := (h.asleep p hp hb).child
    exact hno c hc hparent
  have hne : p ≠ s.current := by
    rintro rfl
    exact hnot hblocked
  exact ⟨p, hp, hne, h.runnable_ready hp hne hnot⟩

theorem switchTo_task (s : St) (nx p : Ptr) : ∃ st, (switchTo s nx).task p = { s.task p with state := st } := by
  unfold switchTo St.setTask
  dsimp only
  by_cases hp : p = nx
  · subst hp
    rw [update_self]
    by_cases hc : p = s.current
    · subst hc
      rw [update_self]
      split <;> exact ⟨_, rfl⟩
    · rw [update_of_ne hc]
      exact ⟨_, rfl⟩
  · rw [update_of_ne hp]
    by_cases hc : p = s.current
    · subst hc
      rw [update_self]
      split
      · exact ⟨_, rfl⟩
      · exact ⟨(s.task s.current).state, rfl⟩
    · rw [update_of_ne hc]
      exact ⟨(s.task p).state, rfl⟩

theorem switchTo_next (s : St) (nx : Ptr) : ((switchTo s nx).task nx).state = .running := by
  unfold switchTo St.setTask
  dsimp only
  rw [update_self]

theorem switchTo_other (hp : p ≠ nx) (hc : p ≠ s.current) : (switchTo s nx).task p = s.task p := by
  unfold switchTo St.setTask
  dsimp only
  rw [update_of_ne hp, update_of_ne hc]

theorem switchTo_current (hne : s.current ≠ nx) : ((switchTo s nx).task s.current).state =
    if (s.task s.current).state = .running then .ready else (s.task s.current).state := by
  unfold switchTo St.setTask
  dsimp only
  rw [update_of_ne hne, update_self]
  split <;> rfl

theorem Base.switchTo (h : Base k s ring zs) (hnx : nx ∈ ring) (hne : nx ≠ s.current) :
    Sane k (switchTo s nx) ring zs := by
  have hrun := switchTo_next s nx
  have hcur := switchTo_current (s := s) hne.symm
  have hkeep := switchTo_task s nx
  have hsame : ∀ p ≠ nx, ((Tasks.switchTo s nx).task p).state = .blocked → (s.task p).state = .blocked := by
    intro p hp hb
    by_cases hc : p = s.current
    · subst hc
      rw [hcur] at hb
      split at hb
      · cases hb
      · exact hb
    · rwa [switchTo_other hp hc] at hb
  have hparent : ∀ p, ((Tasks.switchTo s nx).task p).parent = (s.task p).parent := fun p => by
    obtain ⟨st, heq⟩ := hkeep p
    rw [heq]
  refine ⟨⟨h.toListed.switchTo nx, h.kmain, (hparent k).trans h.orphan, ?_, hnx, fun p hp => ?_,
    fun z hz => ?_, fun p hp hpn => ?_, ?_, fun p hp hb => ?_⟩, fun hb => ?_⟩
  · obtain ⟨st, heq⟩ := hkeep k
    rw [heq]
    exact h.kernel
  · constructor
    · obtain ⟨st, heq⟩ := hkeep p
      rw [heq]
      exact (h.alive p hp).1
    · by_cases hpn : p = nx
      · subst hpn
        rw [hrun]
        decide
      · by_cases hc : p = s.current
        · subst hc
          rw [hcur]
          split
          · decide
          · exact (h.alive _ hp).2
        · rw [switchTo_other hpn hc]
          exact (h.alive p hp).2
  · have hzr : ∀ p ∈ ring, z ≠ p := fun p hp heq => h.disjoint hp (heq ▸ hz)
    rw [switchTo_other (hzr nx hnx) (hzr _ h.current)]
    exact h.gone z hz
  · change p ≠ nx at hpn
    by_cases hc : p = s.current
    · subst hc
      rw [hcur]
      split
      · decide
      · assumption
    · rw [switchTo_other hpn hc]
      exact h.running p hp hc
  · change ((Tasks.switchTo s nx).task nx).state ≠ .ready
    rw [hrun]
    decide
  · have hpn : p ≠ nx := by
      rintro rfl
      rw [hrun] at hb
      cases hb
    refine (h.asleep p hp (hsame p hpn hb)).mono ?_ (fun c hc hcp => ⟨hc, (hparent c).trans hcp⟩) (update_of_ne hpn ..)
      fun z hz hzp hzr => ⟨hz, (hparent z).symm.trans hzp, ?_, ?_⟩
    · obtain ⟨st, heq⟩ := hkeep p
      rw [heq]
    · obtain ⟨st, heq⟩ := hkeep z
      rw [heq] at hzr
      exact hzr
    · obtain ⟨st, heq⟩ := hkeep z
      rw [heq]
  · change ((Tasks.switchTo s nx).task nx).state = .blocked at hb
    rw [hrun] at hb
    cases hb

/-- The choice of a task always ends with one that runs. -/
theorem Base.schedule (h : Base k s ring zs) : ∃ s', schedule s = some s' ∧ Sane k s' ring zs ∧ s'.live = s.live := by
  obtain ⟨nx, hnx, hpick, -, hself⟩ := h.toListed.pickNext h.current
  unfold Tasks.schedule
  rw [hpick]
  by_cases hne : nx = s.current
  · refine ⟨s, congrArg some (if_pos hne), ⟨h, fun hb => ?_⟩, rfl⟩
    obtain ⟨p, hp, hpc, hready⟩ := h.exists_ready hb
    have hno := hself hne p hp hpc
    rw [Task.runnable, hready] at hno
    cases hno
  · exact ⟨Tasks.switchTo s nx, congrArg some (if_neg hne), h.switchTo hnx hne, rfl⟩

theorem Base.reapZombies (h : Base k s ring zs) : ∃ s', reapZombies s = some s' ∧ s'.pc = s.pc ∧
    s'.current = s.current ∧ Base k s' ring (zs.filter fun q => !(s.task q).reapedByParent) ∧
    ∀ q, s'.live q = true ↔ s.live q = true ∧ ¬ (q ∈ zs ∧ (s.task q).reapedByParent = true) := by
  obtain ⟨s', hrun, hlists, hsw⟩ := h.toListed.reapZombies
  have hring : ∀ p ∈ ring, s'.task p = s.task p := fun p hp => hsw.task p fun hm => h.disjoint hp hm.1
  have hkept : ∀ z ∈ zs.filter fun q => !(s.task q).reapedByParent, z ∈ zs ∧ s'.task z = s.task z := by
    intro z hz
    obtain ⟨hmem, hreap⟩ := List.mem_filter.mp hz
    exact ⟨hmem, hsw.task z fun hm => by simp [hm.2] at hreap⟩
  refine ⟨s', hrun, hsw.pc, hsw.current,
    ⟨hlists, h.kmain, ?_, ?_, ?_, fun p hp => ?_, fun z hz => ?_, fun p hp hpc => ?_, ?_,
    fun p hp hb => ?_⟩, hsw.live⟩
  · rw [hring k h.kmain]
    exact h.orphan
  · rw [hring k h.kmain]
    exact h.kernel
  · rw [hsw.current]
    exact h.current
  · rw [hring p hp]
    exact h.alive p hp
  · obtain ⟨hmem, heq⟩ := hkept z hz
    rw [heq]
    exact h.gone z hmem
  · rw [hsw.current] at hpc
    rw [hring p hp]
    exact h.running p hp hpc
  · rw [hsw.current, hring _ h.current]
    exact h.status
  · rw [hring p hp] at hb
    refine (h.asleep p hp hb).mono (by rw [hring p hp]) (fun c hc hcp => ⟨hc, by rwa [hring c hc]⟩) (by rw [hsw.pc])
      fun z hz hzp hzr => ?_
    obtain ⟨hmem, heq⟩ := hkept z hz
    rw [heq] at hzp hzr
    exact ⟨hmem, hzp, hzr, by rw [heq]⟩

/-- A task is freed by `yield` only, and then it is a zombie that need not be kept. -/
def FreesReaped (s s' : St) (zs : List Ptr) : Prop :=
  ∀ q, s.live q = true → s'.live q = true ∨ (q ∈ zs ∧ (s.task q).reapedByParent = true)

theorem freesReaped_of_live (h : s'.live = s.live) : FreesReaped s s' zs := fun _ hq => Or.inl (h ▸ hq)

theorem Base.yield (h : Base k s ring zs) :
    ∃ s' zs', yield s = some s' ∧ Sane k s' ring zs' ∧ FreesReaped s s' zs := by
  obtain ⟨s1, hreap, -, -, hbase, hlive⟩ := h.reapZombies
  obtain ⟨s2, hsched, hsane, heq⟩ := hbase.schedule
  obtain ⟨r, -, -, hready⟩ := hbase.ring_eq hbase.current
  refine ⟨s2, _, ?_, hsane, fun q hq => ?_⟩
  · rw [Tasks.yield, hreap]
    exact (if_neg (not_or.mpr ⟨hbase.ring_ne_zero hbase.current, hready⟩)).trans hsched
  · by_cases hm : q ∈ zs ∧ (s.task q).reapedByParent = true
    · exact Or.inr hm
    · rw [heq]
      exact Or.inl ((hlive q).mpr ⟨hq, hm⟩)

theorem Sane.schedulerTick (h : Sane k s ring zs) :
    ∃ s', schedulerTick s = some s' ∧ Sane k s' ring zs ∧ s'.live = s.live := by
  unfold Tasks.schedulerTick
  split
  · exact ⟨s, rfl, h, rfl⟩
  · exact h.toBase.schedule

theorem Sane.spawn (h : Sane k s ring zs) (user : Bool) (ha : s.live a = false) (ha0 : a ≠ 0) :
    ∃ ring', Sane k (taskSpawn s a user) ring' zs ∧ FreesReaped s (taskSpawn s a user) zs := by
  obtain ⟨r, rfl, hlists⟩ := h.toListed.taskSpawn user h.kmain ha ha0
  obtain ⟨htask, hlive, hcur, hpc⟩ := taskSpawn_eq user (h.ring_ne_zero List.mem_cons_self)
  have hnew : ∀ p ∈ (s.ready :: r) ++ zs, p ≠ a := by
    rintro p hp rfl
    have hl := (h.live p).mp hp
    rw [ha] at hl
    cases hl
  have hring : ∀ p ∈ s.ready :: r, (taskSpawn s a user).task p = s.task p := fun p hp => by
    rw [htask, update_of_ne (hnew p (List.mem_append_left _ hp))]
  have hzs : ∀ z ∈ zs, (taskSpawn s a user).task z = s.task z := fun z hz => by
    rw [htask, update_of_ne (hnew z (List.mem_append_right _ hz))]
  have hmem : ∀ p ∈ s.ready :: r, p ∈ s.ready :: a :: r := by
    intro p hp
    simp only [List.mem_cons] at hp ⊢
    exact hp.imp_right Or.inr
  have hcases : ∀ p ∈ s.ready :: a :: r, p = a ∨ p ∈ s.ready :: r := by
    intro p hp
    simp only [List.mem_cons] at hp ⊢
    tauto
  have hself : (taskSpawn s a user).task a = { id := s.nextId, isUser := user } := by
    rw [htask, update_self]
  refine ⟨_, ⟨⟨hlists, hmem k h.kmain, ?_, ?_, ?_, fun p hp => ?_, fun z hz => ?_, fun p hp hne =>
    ?_, ?_, fun p hp hb => ?_⟩, fun hb => ?_⟩, fun q hq => Or.inl ?_⟩
  · rw [hring k h.kmain]
    exact h.orphan
  · rw [hring k h.kmain]
    exact h.kernel
  · rw [hcur]
    exact hmem _ h.current
  · rcases hcases p hp with rfl | hp
    · rw [hself]
      exact ⟨rfl, fun hd => by cases hd⟩
    · rw [hring p hp]
      exact h.alive p hp
  · rw [hzs z hz]
    exact h.gone z hz
  · rw [hcur] at hne
    rcases hcases p hp with rfl | hp
    · rw [hself]
      exact fun hd => by cases hd
    · rw [hring p hp]
      exact h.running p hp hne
  · rw [hcur, hring _ h.current]
    exact h.status
  · rcases hcases p hp with rfl | hp
    · rw [hself] at hb
      cases hb
    · rw [hring p hp] at hb
      refine (h.asleep p hp hb).mono (by rw [hring p hp]) (fun c hc hcp => ⟨hmem c hc, by rwa [hring c hc]⟩) ?_
        fun z hz hzp hzr => ?_
      · rw [hpc, update_of_ne (hnew p (List.mem_append_left _ hp))]
      · rw [hzs z hz] at hzp hzr ⊢
        exact ⟨hz, hzp, hzr, rfl⟩
  · rw [hcur, hring _ h.current] at hb
    rw [hcur, hpc, update_of_ne (hnew _ (List.mem_append_left _ h.current))]
    exact h.at_yield hb
  · rw [hlive, update_apply]
    split
    · rfl
    · exact hq

theorem Sane.link (h : Sane k s ring zs) (hen : (Op.link c).Enabled k s) :
    Sane k (s.setTask c fun t => { t with parent := s.current }) ring zs := by
  obtain ⟨hfree, -, huser, hp0, -⟩ := hen
  have hk : k ≠ c := by
    rintro rfl
    rw [h.kernel] at huser
    cases huser
  have hawake : (s.task s.current).state ≠ .blocked := by
    intro hb
    obtain ⟨pid, hpc⟩ := h.at_yield hb
    rw [hfree] at hpc
    cases hpc
  have hkeep : ∀ p, ∃ q, (s.setTask c fun t => { t with parent := s.current }).task p =
      { s.task p with parent := q } ∧ (q = (s.task p).parent ∨ q = s.current) := by
    intro p
    by_cases hp : p = c
    · subst hp
      exact ⟨_, St.setTask_self .., Or.inr rfl⟩
    · exact ⟨_, St.setTask_of_ne hp, Or.inl rfl⟩
  refine ⟨⟨h.toListed.setTask .., h.kmain, ?_, ?_, h.current, fun p hp => ?_, fun z hz => ?_,
    fun p hp hne => ?_, ?_, fun p hp hb => ?_⟩, fun hb => ?_⟩
  · rw [St.setTask_of_ne hk]
    exact h.orphan
  · rw [St.setTask_of_ne hk]
    exact h.kernel
  · obtain ⟨q, heq, -⟩ := hkeep p
    rw [heq]
    exact h.alive p hp
  · obtain ⟨q, heq, -⟩ := hkeep z
    rw [heq]
    exact h.gone z hz
  · obtain ⟨q, heq, -⟩ := hkeep p
    rw [heq]
    exact h.running p hp hne
  · obtain ⟨q, heq, -⟩ := hkeep s.current
    change ((s.setTask c fun t => { t with parent := s.current }).task s.current).state ≠ .ready
    rw [heq]
    exact h.status
  · have hb' : (s.task p).state = .blocked := by
      obtain ⟨q, heq, -⟩ := hkeep p
      rw [heq] at hb
      exact hb
    have hpc : p ≠ s.current := by
      rintro rfl
      exact hawake hb'
    -- a child of a blocked task has a parent already, so it is not the one linked
    refine (h.asleep p hp hb').mono ?_ (fun d hd hdp => ⟨hd, ?_⟩) rfl fun z hz hzp hzr => ⟨hz, ?_, ?_, ?_⟩
    · obtain ⟨q, heq, -⟩ := hkeep p
      rw [heq]
    · have hdc : d ≠ c := by
        rintro rfl
        exact h.ring_ne_zero hp (hdp.symm.trans hp0)
      rwa [St.setTask_of_ne hdc]
    · obtain ⟨q, heq, hq⟩ := hkeep z
      rw [heq] at hzp
      rcases hq with rfl | rfl
      · exact hzp
      · exact absurd hzp.symm hpc
    · obtain ⟨q, heq, -⟩ := hkeep z
      rw [heq] at hzr
      exact hzr
    · obtain ⟨q, heq, -⟩ := hkeep z
      rw [heq]
  · obtain ⟨q, heq, -⟩ := hkeep s.current
    change ((s.setTask c fun t => { t with parent := s.current }).task s.current).state = .blocked at hb
    rw [heq] at hb
    exact h.at_yield hb

theorem wake_eq (s : St) (p : Ptr) : wake s p = { s with task := (wake s p).task } := by
  unfold wake
  split <;> rfl

theorem bury_eq (s : St) (c : Ptr) :
    bury s c = { s with task := (bury s c).task, next := update s.next c s.zombie, zombie := c } := by
  unfold bury
  dsimp only
  rw [wake_eq]
  split <;> rfl

/-- Only a parent that sleeps in a wait is woken. -/
theorem wake_task (s : St) (p q : Ptr) : (wake s p).task q = s.task q ∨
    (q = p ∧ (s.task q).state = .blocked ∧ (wake s p).task q = { s.task q with state := .ready }) := by
  unfold wake
  split
  · rename_i hp
    by_cases hq : q = p
    · subst hq
      exact Or.inr ⟨rfl, hp.2.1, St.setTask_self ..⟩
    · exact Or.inl (St.setTask_of_ne hq)
  · exact Or.inl rfl

theorem wake_parent (hp : p ≠ 0) (hflag : (s.task p).waitAny = true) : ((wake s p).task p).state ≠ .blocked := by
  unfold wake
  split
  · rw [St.setTask_self]
    exact fun hd => by cases hd
  · intro hb
    rename_i hno
    exact hno ⟨hp, hb, hflag⟩

theorem bury_task (s : St) (hq : q ≠ c) : (bury s c).task q = (wake s (s.task c).parent).task q := by
  unfold bury
  dsimp only
  split
  · exact St.setTask_of_ne hq
  · rfl

theorem bury_self (hc : (s.task c).state = .dead) :
    (bury s c).task c = { s.task c with reapedByParent := (s.task c).reapedByParent || (s.task c).parent == 0 } := by
  have hwake : (wake s (s.task c).parent).task c = s.task c := by
    refine (wake_task s _ c).resolve_right fun h => ?_
    rw [hc] at h
    cases h.2.1
  unfold bury
  dsimp only
  split
  · rename_i h0
    rw [St.setTask_self, hwake, h0]
    simp
  · rename_i h0
    change (wake s (s.task c).parent).task c = _
    rw [hwake, beq_false_of_ne h0, Bool.or_false]

/-- A task of the ring is neither dead nor blocked. -/
theorem dispatch_spec (hring : Seg s.next s.ready (s.ready :: ring) s.ready)
    (hnodup : s.ready ∉ ring) (h0 : s.ready ≠ 0)
    (hlen : ring.length < s.fuel)
    (hq : ∃ q ∈ s.ready :: ring, (s.task q).state ≠ .dead ∧ (s.task q).state ≠ .blocked) :
    ∃ nx ∈ s.ready :: ring, (s.task nx).state ≠ .dead ∧ (s.task nx).state ≠ .blocked ∧
      dispatch s = some { s.setTask nx fun t => { t with state := .running } with
        current := nx, pc := update s.pc nx (if s.pc nx = .entry then .free else s.pc nx) } := by
  have hseek := hring.seekRound (fun q => !((s.task q).state == .dead || (s.task q).state == .blocked)) hnodup hlen
  obtain ⟨q, hmem, hdead, hblocked⟩ := hq
  cases hf : (s.ready :: ring).find? fun q => !((s.task q).state == .dead || (s.task q).state == .blocked) with
  | none =>
    have hno := List.find?_eq_none.mp hf q hmem
    simp [hdead, hblocked] at hno
  | some nx =>
    have hnx := List.find?_some (p := fun q => !((s.task q).state == .dead || (s.task q).state == .blocked)) hf
    simp only [Bool.not_eq_true', Bool.or_eq_false_iff, beq_eq_false_iff_ne] at hnx
    refine ⟨nx, List.mem_of_find?_eq_some hf, hnx.1, hnx.2, ?_⟩
    unfold dispatch
    rw [if_neg h0, hseek, hf]
    rfl

/-- What an exit does to the tasks: the current one is dead, `nx` runs, and only states change else.
-/
structure Exits (s s' : St) (nx : Ptr) (code : ℤ) : Prop where
  current : s'.current = nx
  live : s'.live = s.live
  nextId : s'.nextId = s.nextId
  pc : s'.pc = update s.pc nx (if s.pc nx = .entry then .free else s.pc nx)
  self : s'.task s.current = { s.task s.current with
    exitCode := code, hasExited := true, state := .dead,
    reapedByParent := (s.task s.current).reapedByParent || (s.task s.current).parent == 0 }
  other : ∀ p ≠ s.current, ∃ st, s'.task p = { s.task p with state := st }

/-- The tasks when the current one is among the zombies and the next one is not yet chosen. -/
structure Buried (k : Ptr) (s b : St) (ring zs : List Ptr) (code : ℤ) : Prop where
  listed : Listed b (ring.erase s.current) (s.current :: zs)
  eq : b = { s with task := b.task, next := b.next, ready := b.ready, zombie := b.zombie }
  self : b.task s.current = { s.task s.current with
    exitCode := code, hasExited := true, state := .dead,
    reapedByParent := (s.task s.current).reapedByParent || (s.task s.current).parent == 0 }
  other : ∀ p ≠ s.current, b.task p = s.task p ∨
    (p = (s.task s.current).parent ∧ (s.task p).state = .blocked ∧ b.task p = { s.task p with state := .ready })
  woken : ∀ p ≠ s.current, p = (s.task s.current).parent → p ≠ 0 → (s.task p).waitAny = true →
    (b.task p).state ≠ .blocked

theorem Sane.buried (h : Sane k s ring zs) (code : ℤ) (hk : s.current ≠ k) :
    ∃ b, taskExitCode s code = dispatch b ∧ Buried k s b ring zs code := by
  set s1 := s.setTask s.current fun t => { t with exitCode := code, hasExited := true, state := .dead } with hs1
  have hlists : Listed s1 ring zs := h.toListed.setTask ..
  obtain ⟨s2, hrem, heq, hseg, hnext⟩ := hlists.readyRemove h.current h.kmain hk.symm
  have htask : s2.task = s1.task := by rw [heq]
  have hself : s2.task s.current = { s.task s.current with exitCode := code, hasExited := true, state := .dead } := by
    rw [htask]
    exact St.setTask_self ..
  have hother : ∀ p ≠ s.current, s2.task p = s.task p := fun p hp => by
    rw [htask]
    exact St.setTask_of_ne hp
  have hwake : ∀ p ≠ s.current, (bury s2 s.current).task p =
    (wake s2 (s.task s.current).parent).task p := fun p hp => by
    rw [bury_task s2 hp, hself]
  have hb := bury_eq s2 s.current
  have hsame : bury s2 s.current = { s with
      task := (bury s2 s.current).task
      next := update s2.next s.current s.zombie
      ready := s2.ready
      zombie := s.current } := by
    rw [hb, heq]
    rfl
  have hcz : s.current ∉ zs := h.disjoint h.current
  refine ⟨bury s2 s.current, ?_, ?_, ?_, ?_, fun p hp => ?_, fun p hp hpp hp0 hflag => ?_⟩
  · unfold taskExitCode
    dsimp only
    rw [← hs1, hrem]
    rfl
  · rw [hsame]
    refine ⟨?_, ⟨rfl, ?_⟩, ?_, fun p => ?_, h.null, ?_⟩
    · exact hseg.update fun hm => (List.Nodup.mem_erase_iff h.ring_nodup).mp hm |>.1 rfl
    · dsimp only
      rw [update_self]
      exact (h.chain.congr fun z hz => hnext z fun hm => h.disjoint hm hz).update hcz
    · exact (List.perm_middle.trans ((List.perm_cons_erase h.current).symm.append_right zs)).nodup_iff.mpr h.nodup
    · rw [← h.live p]
      exact (List.perm_middle.trans ((List.perm_cons_erase h.current).symm.append_right zs)).mem_iff
    · rw [(List.perm_middle.trans ((List.perm_cons_erase h.current).symm.append_right zs)).length_eq]
      exact h.count
  · rw [hsame]
  · rw [bury_self (by rw [hself]), hself]
  · rw [hwake p hp, ← hother p hp]
    exact wake_task s2 _ p
  · rw [hwake p hp, ← hpp]
    refine wake_parent hp0 ?_
    rw [hother p hp]
    exact hflag

/-- Somebody in the ring goes on: a task without children there, whose last child may just have
exited. -/
theorem Buried.exists_runnable (h : Sane k s ring zs) (hk : s.current ≠ k) (hb : Buried k s s' ring zs code) :
    ∃ q ∈ ring.erase s.current, (s'.task q).state ≠ .dead ∧ (s'.task q).state ≠ .blocked := by
  have hkm : k ∈ ring.erase s.current := (List.mem_erase_of_ne hk.symm).mpr h.kmain
  have hk0 : (s.task k).parent ∉ ring.erase s.current := by
    rw [h.orphan]
    exact fun hm => h.ring_ne_zero (List.mem_of_mem_erase hm) rfl
  obtain ⟨q, hq, hno⟩ := @exists_childless _ k (ring.erase s.current) (fun p => (s.task p).parent) hkm hk0
  obtain ⟨hqc, hqr⟩ := (List.Nodup.mem_erase_iff h.ring_nodup).mp hq
  refine ⟨q, hq, ?_, fun hblocked => ?_⟩
  · rcases hb.other q hqc with heq | ⟨-, -, heq⟩
    · rw [heq]
      exact (h.alive q hqr).2
    · rw [heq]
      exact fun hd => by cases hd
  · have hbefore : (s.task q).state = .blocked := by
      rcases hb.other q hqc with heq | ⟨-, hstate, -⟩
      · rwa [heq] at hblocked
      · exact hstate
    have hwaits := h.asleep q hqr hbefore
    obtain ⟨d, hd, hdq⟩ := hwaits.child
    have hdc : d = s.current := by
      by_contra hne
      exact hno d ((List.mem_erase_of_ne hne).mpr hd) hdq
    subst hdc
    exact hb.woken q hqc hdq.symm (h.ring_ne_zero hqr) hwaits.flag hblocked

theorem Sane.exit (h : Sane k s ring zs) (code : ℤ) (hk : s.current ≠ k) :
    ∃ s' nx, taskExitCode s code = some s' ∧ Sane k s' (ring.erase s.current) (s.current :: zs) ∧
    Exits s s' nx code := by
  obtain ⟨b, hrun, hb⟩ := h.buried code hk
  obtain ⟨q, hq, hdead, hblocked⟩ := Buried.exists_runnable h hk hb
  obtain ⟨r, hr, hrn, hr0⟩ := hb.listed.ring_eq hq
  have hlen := hb.listed.ring_lt
  rw [hr] at hq hlen
  obtain ⟨nx, hnx, hnd, hnb, hgo⟩ :=
    dispatch_spec (hr ▸ hb.listed.circular) hrn hr0 (Nat.lt_of_succ_lt hlen) ⟨q, hq, hdead, hblocked⟩
  rw [← hr] at hnx
  have hin : ∀ p ∈ ring.erase s.current, p ≠ s.current ∧ p ∈ ring := fun p hp =>
    (List.Nodup.mem_erase_iff h.ring_nodup).mp hp
  have hpc : b.pc = s.pc := by rw [hb.eq]
  have hcn : s.current ≠ nx := (hin nx hnx).1.symm
  have hzn : ∀ z ∈ zs, z ≠ nx ∧ z ≠ s.current := by
    refine fun z hz => ⟨?_, ?_⟩
    · rintro rfl
      exact h.disjoint (hin z hnx).2 hz
    · rintro rfl
      exact h.disjoint h.current hz
  set s' : St := { b.setTask nx fun t => { t with state := .running } with
    current := nx, pc := update b.pc nx (if b.pc nx = .entry then .free else b.pc nx) } with hs'
  have hrest : ∀ p ≠ nx, s'.task p = b.task p := fun p hp => update_of_ne hp ..
  have hself : s'.task s.current = b.task s.current := hrest _ hcn
  have hnxt : s'.task nx = { b.task nx with state := .running } := update_self ..
  have hkeep : ∀ p ≠ s.current, ∃ st, s'.task p = { s.task p with state := st } := by
    intro p hp
    have hbp : ∃ st, b.task p = { s.task p with state := st } := by
      rcases hb.other p hp with heq | ⟨-, -, heq⟩
      · exact ⟨_, heq⟩
      · exact ⟨_, heq⟩
    obtain ⟨st, heq⟩ := hbp
    by_cases hpn : p = nx
    · subst hpn
      exact ⟨.running, by rw [hnxt, heq]⟩
    · exact ⟨st, by rw [hrest p hpn, heq]⟩
  refine ⟨s', nx, hrun.trans hgo, ⟨⟨hb.listed.of_eq rfl rfl rfl rfl rfl, ?_, ?_, ?_, hnx,
    fun p hp => ?_, fun z hz => ?_, fun p hp hpn => ?_, ?_, fun p hp hblk => ?_⟩, fun hblk => ?_⟩,
    rfl, ?_, ?_, ?_, ?_, hkeep⟩
  · exact (List.mem_erase_of_ne hk.symm).mpr h.kmain
  · obtain ⟨st, heq⟩ := hkeep k hk.symm
    rw [heq]
    exact h.orphan
  · obtain ⟨st, heq⟩ := hkeep k hk.symm
    rw [heq]
    exact h.kernel
  · obtain ⟨hpc', hpr⟩ := hin p hp
    constructor
    · obtain ⟨st, heq⟩ := hkeep p hpc'
      rw [heq]
      exact (h.alive p hpr).1
    · by_cases hpn : p = nx
      · subst hpn
        rw [hnxt]
        exact fun hd => by cases hd
      · rw [hrest p hpn]
        rcases hb.other p hpc' with heq | ⟨-, -, heq⟩
        · rw [heq]
          exact (h.alive p hpr).2
        · rw [heq]
          exact fun hd => by cases hd
  · rcases List.mem_cons.mp hz with rfl | hz
    · rw [hself, hb.self]
      exact ⟨rfl, rfl⟩
    · have hgone := h.gone z hz
      rw [hrest z (hzn z hz).1]
      rcases hb.other z (hzn z hz).2 with heq | ⟨-, hstate, -⟩
      · rw [heq]
        exact hgone
      · rw [hgone.2] at hstate
        cases hstate
  · obtain ⟨hpc', hpr⟩ := hin p hp
    rw [hrest p hpn]
    rcases hb.other p hpc' with heq | ⟨-, -, heq⟩
    · rw [heq]
      exact h.running p hpr hpc'
    · rw [heq]
      exact fun hd => by cases hd
  · change (s'.task nx).state ≠ .ready
    rw [hnxt]
    exact fun hd => by cases hd
  · obtain ⟨hpc', hpr⟩ := hin p hp
    have hpn : p ≠ nx := by
      rintro rfl
      rw [hnxt] at hblk
      cases hblk
    rw [hrest p hpn] at hblk
    have hbefore : (s.task p).state = .blocked := by
      rcases hb.other p hpc' with heq | ⟨-, hstate, -⟩
      · rwa [heq] at hblk
      · exact hstate
    have hwaits := h.asleep p hpr hbefore
    -- the parent of the task that exits has been woken
    have hnot : (s.task s.current).parent ≠ p := fun heq =>
      hb.woken p hpc' heq.symm (h.ring_ne_zero hpr) hwaits.flag hblk
    refine hwaits.mono ?_ (fun d hd hdp => ?_) ?_ fun z hz hzp hzr => ?_
    · obtain ⟨st, heq⟩ := hkeep p hpc'
      rw [heq]
    · have hdc : d ≠ s.current := by
        rintro rfl
        exact hnot hdp
      obtain ⟨st, heq⟩ := hkeep d hdc
      rw [heq]
      exact ⟨(List.mem_erase_of_ne hdc).mpr hd, hdp⟩
    · change update b.pc nx _ p = s.pc p
      rw [update_of_ne hpn, hpc]
    · rcases List.mem_cons.mp hz with rfl | hz
      · rw [hself, hb.self] at hzp
        exact absurd hzp hnot
      · obtain ⟨st, heq⟩ := hkeep z (hzn z hz).2
        rw [heq] at hzp hzr ⊢
        exact ⟨hz, hzp, hzr, rfl⟩
  · change (s'.task nx).state = .blocked at hblk
    rw [hnxt] at hblk
    cases hblk
  · change b.live = s.live
    rw [hb.eq]
  · change b.nextId = s.nextId
    rw [hb.eq]
  · change update b.pc nx _ = _
    rw [hpc]
  · rw [hself, hb.self]

end ComputerOS.Tasks
