import ComputerOS.Tasks.Ring

/-!
The check of `task_wait_child_ex`, and with it every step of the system. The check finds an exited
child when there is one, and blocks the caller only when it has a child in the ring and none to
report.
-/
namespace ComputerOS.Tasks

open Function

variable {k p q z : Ptr} {s s' : St} {ring zs : List Ptr} {op : Op} {pid code : ℤ} {nohang : Bool}
  {ok : St → Op → Prop} {T : List Event} {r : WaitResult}

theorem Listed.findDeadChild (h : Listed s ring zs) (pid : ℤ) :
    (∃ z ∈ zs, findDeadChild s pid = some z ∧ (s.task z).hasExited = true ∧ unreaped s pid z = true) ∨
      (findDeadChild s pid = some 0 ∧ ∀ z ∈ zs, (s.task z).hasExited = true → unreaped s pid z = false) := by
  have hseek := h.chain.seek (fun z => z == 0 || ((s.task z).hasExited && unreaped s pid z)) rfl h.zombies_lt
  unfold Tasks.findDeadChild
  rw [hseek]
  cases hf : zs.find? fun z => z == 0 || ((s.task z).hasExited && unreaped s pid z) with
  | none =>
    refine Or.inr ⟨rfl, fun z hz hexit => ?_⟩
    have hno := List.find?_eq_none.mp hf z hz
    simp only [hexit, Bool.true_and, Bool.or_eq_true, not_or, Bool.not_eq_true] at hno
    exact hno.2
  | some z =>
    have hmem := List.mem_of_find?_eq_some hf
    have hz := List.find?_some (p := fun z => z == 0 || ((s.task z).hasExited && unreaped s pid z)) hf
    simp only [Bool.or_eq_true, beq_iff_eq, h.zombie_ne_zero hmem, false_or, Bool.and_eq_true] at hz
    exact Or.inl ⟨z, hmem, rfl, hz⟩

theorem Listed.hasAnyChild (h : Listed s ring zs) (pid : ℤ) (hp : p ∈ ring) : ∃ b, hasAnyChild s pid = some b ∧
    (b = true ↔ (∃ p ∈ ring, alive s pid p = true) ∨ ∃ z ∈ zs, unreaped s pid z = true) := by
  obtain ⟨r, rfl, hr, h0⟩ := h.ring_eq hp
  have hround := h.circular.seekRound (alive s pid) hr (Nat.lt_of_succ_lt h.ring_lt)
  have hseek := h.chain.seek (fun z => z == 0 || unreaped s pid z) rfl h.zombies_lt
  unfold Tasks.hasAnyChild
  rw [if_neg h0, hround, hseek]
  cases hf : (s.ready :: r).find? (alive s pid) with
  | some p =>
    refine ⟨true, rfl, iff_of_true rfl (Or.inl ⟨p, List.mem_of_find?_eq_some hf, List.find?_some hf⟩)⟩
  | none =>
    have hno : ¬ ∃ p ∈ s.ready :: r, alive s pid p = true := fun ⟨p, hp, ha⟩ => List.find?_eq_none.mp hf p hp ha
    refine ⟨_, rfl, ?_⟩
    rw [or_iff_right hno]
    cases hz : zs.find? fun z => z == 0 || unreaped s pid z with
    | none =>
      refine iff_of_false (by simp) ?_
      rintro ⟨z, hmem, hu⟩
      have := List.find?_eq_none.mp hz z hmem
      simp [hu] at this
    | some z =>
      have hmem := List.mem_of_find?_eq_some hz
      have hu := List.find?_some (p := fun z => z == 0 || unreaped s pid z) hz
      simp only [Bool.or_eq_true, beq_iff_eq, h.zombie_ne_zero hmem, false_or] at hu
      exact iff_of_true (by simpa using h.zombie_ne_zero hmem) ⟨z, hmem, hu⟩

/-- The outcomes of a check, and when each of them comes. -/
inductive Checked (s : St) (ring zs : List Ptr) (pid : ℤ) (nohang : Bool) : WaitResult → St → Prop
  | child {z : Ptr} (hz : z ∈ zs) (hexit : (s.task z).hasExited = true) (hu : unreaped s pid z = true) :
    Checked s ring zs pid nohang (.child (s.task z).id (s.task z).exitCode)
      ((s.setTask z fun t => { t with reapedByParent := true }).setPc s.current .free)
  | noChild (hz : ∀ z ∈ zs, unreaped s pid z = false) (hp : ∀ p ∈ ring, alive s pid p = false) :
    Checked s ring zs pid nohang .noChild (s.setPc s.current .free)
  | notYet {p : Ptr} (hz : ∀ z ∈ zs, unreaped s pid z = false) (hp : p ∈ ring) (ha : alive s pid p = true)
      (hno : nohang = true) : Checked s ring zs pid nohang .notYet (s.setPc s.current .free)
  | block {p : Ptr} (hz : ∀ z ∈ zs, unreaped s pid z = false) (hp : p ∈ ring) (ha : alive s pid p = true)
      (hno : nohang = false) : Checked s ring zs pid nohang .block
        ((s.setTask s.current fun t => { t with waitAny := true, state := .blocked }).setPc s.current (.sleeping pid))

theorem Base.waitCheck (h : Base k s ring zs) (pid : ℤ) (nohang : Bool) : ∃ r s',
    waitCheck s pid nohang = some (r, s') ∧ Checked s ring zs pid nohang r s' := by
  unfold Tasks.waitCheck
  rcases h.toListed.findDeadChild pid with ⟨z, hz, hrun, hexit, hu⟩ | ⟨hrun, hno⟩
  · refine ⟨_, _, ?_, .child hz hexit hu⟩
    rw [hrun]
    exact if_pos (h.zombie_ne_zero hz)
  · have hz : ∀ z ∈ zs, unreaped s pid z = false := fun z hz => hno z hz (h.gone z hz).1
    obtain ⟨b, hany, hb⟩ := h.toListed.hasAnyChild pid h.current
    have hnone : ¬ ∃ z ∈ zs, unreaped s pid z = true := by
      rintro ⟨z, hmem, hu⟩
      rw [hz z hmem] at hu
      cases hu
    rw [or_iff_left hnone] at hb
    rw [hrun, hany]
    cases b with
    | false =>
      refine ⟨_, _, rfl, .noChild hz fun p hp => Bool.eq_false_iff.mpr fun ha => ?_⟩
      cases hb.mpr ⟨p, hp, ha⟩
    | true =>
      obtain ⟨p, hp, ha⟩ := hb.mp rfl
      cases nohang with
      | true => exact ⟨_, _, rfl, .notYet hz hp ha rfl⟩
      | false => exact ⟨_, _, rfl, .block hz hp ha rfl⟩

theorem Base.setPc (h : Base k s ring zs) (hb : (s.task s.current).state ≠ .blocked) (c : Pc) :
    Sane k (s.setPc s.current c) ring zs := by
  refine ⟨⟨h.toListed.setPc .., h.kmain, h.orphan, h.kernel, h.current, h.alive, h.gone, h.running,
    h.status, fun p hp hbp => ?_⟩, fun hbc => absurd hbc hb⟩
  have hne : p ≠ s.current := by
    rintro rfl
    exact hb hbp
  exact (h.asleep p hp hbp).mono rfl (fun c hc hcp => ⟨hc, hcp⟩) (update_of_ne hne ..)
    fun z hz hzp hzr => ⟨hz, hzp, hzr, rfl⟩

theorem Base.reaped (h : Base k s ring zs) (hz : z ∈ zs) :
    Base k (s.setTask z fun t => { t with reapedByParent := true }) ring zs := by
  have hring : ∀ p ∈ ring, (s.setTask z fun t => { t with reapedByParent := true }).task p = s.task p := fun p hp =>
    St.setTask_of_ne fun heq => h.disjoint hp (heq ▸ hz)
  have hcur := hring _ h.current
  refine ⟨h.toListed.setTask .., h.kmain, ?_, ?_, h.current, fun p hp => ?_, fun q hq => ?_,
    fun p hp hne => ?_, ?_, fun p hp hb => ?_⟩
  · rw [hring k h.kmain]
    exact h.orphan
  · rw [hring k h.kmain]
    exact h.kernel
  · rw [hring p hp]
    exact h.alive p hp
  · by_cases hqz : q = z
    · subst hqz
      rw [St.setTask_self]
      exact h.gone q hq
    · rw [St.setTask_of_ne hqz]
      exact h.gone q hq
  · rw [hring p hp]
    exact h.running p hp hne
  · change ((s.setTask z fun t => { t with reapedByParent := true }).task s.current).state ≠ .ready
    rw [hcur]
    exact h.status
  · rw [hring p hp] at hb
    refine (h.asleep p hp hb).mono (by rw [hring p hp]) (fun c hc hcp => ⟨hc, by rwa [hring c hc]⟩) rfl
      fun q hq hqp hqr => ?_
    by_cases hqz : q = z
    · subst hqz
      rw [St.setTask_self] at hqr
      cases hqr
    · rw [St.setTask_of_ne hqz] at hqp hqr ⊢
      exact ⟨hq, hqp, hqr, rfl⟩

/-- The caller blocks: it has a child in the ring, and no zombie is there for it. -/
theorem Base.block (h : Base k s ring zs) (hz : ∀ z ∈ zs, unreaped s pid z = false) (hp : p ∈ ring)
    (ha : Tasks.alive s pid p = true) :
    Sane k ((s.setTask s.current fun t => { t with waitAny := true, state := .blocked }).setPc
    s.current (.sleeping pid))
      ring zs := by
  set s' := (s.setTask s.current fun t => { t with waitAny := true, state := .blocked }).setPc s.current (.sleeping pid)
    with hs'
  have hself : s'.task s.current = { s.task s.current with waitAny := true, state := .blocked } := update_self ..
  have hother : ∀ q ≠ s.current, s'.task q = s.task q := fun q hq => update_of_ne hq ..
  have hparent : ∀ q, (s'.task q).parent = (s.task q).parent := fun q => by
    by_cases hq : q = s.current
    · subst hq
      rw [hself]
    · rw [hother q hq]
  have hzs : ∀ z ∈ zs, s'.task z = s.task z := fun z hz => hother z fun heq => h.disjoint h.current (heq ▸ hz)
  refine ⟨⟨(h.toListed.setTask ..).setPc .., h.kmain, (hparent k).trans h.orphan, ?_, h.current, fun q hq => ?_,
    fun z hz => ?_, fun q hq hne => ?_, ?_, fun q hq hb => ?_⟩, fun _ => ⟨pid, update_self ..⟩⟩
  · by_cases hk : k = s.current
    · have hker := h.kernel
      rw [hk] at hker ⊢
      rw [hself]
      exact hker
    · rw [hother k hk]
      exact h.kernel
  · by_cases hqc : q = s.current
    · subst hqc
      rw [hself]
      exact ⟨(h.alive _ hq).1, fun hd => by cases hd⟩
    · rw [hother q hqc]
      exact h.alive q hq
  · rw [hzs z hz]
    exact h.gone z hz
  · rw [hother q hne]
    exact h.running q hq hne
  · change (s'.task s.current).state ≠ .ready
    rw [hself]
    exact fun hd => by cases hd
  · by_cases hqc : q = s.current
    · subst hqc
      simp only [Tasks.alive, Bool.and_eq_true, beq_iff_eq] at ha
      refine ⟨by rw [hself], ⟨p, hp, (hparent p).trans ha.1.1.1⟩, pid, Or.inl (update_self
        ..), fun z hmem hzp hzr => ?_⟩
      rw [hzs z hmem] at hzp hzr ⊢
      have hu := hz z hmem
      rw [unreaped, hzp, hzr] at hu
      simpa using hu
    · rw [hother q hqc] at hb
      refine (h.asleep q hq hb).mono (by rw [hother q hqc]) (fun c hc hcp => ⟨hc, (hparent c).trans hcp⟩)
        (update_of_ne hqc ..) fun z hz hzp hzr => ?_
      rw [hzs z hz] at hzp hzr ⊢
      exact ⟨hz, hzp, hzr, rfl⟩

theorem Base.checked (h : Base k s ring zs) (hb : (s.task s.current).state ≠ .blocked)
    (hc : Checked s ring zs pid nohang r s') : Sane k s' ring zs ∧ s'.live = s.live := by
  cases hc with
  | child hz hexit hu =>
    refine ⟨(h.reaped hz).setPc ?_ .free, rfl⟩
    have hcur := St.setTask_of_ne (f := fun t => { t with reapedByParent := true })
      (show s.current ≠ _ from fun heq => h.disjoint h.current (heq ▸ hz)) (s := s)
    change ((s.setTask _ fun t => { t with reapedByParent := true }).task s.current).state ≠ .blocked
    rw [hcur]
    exact hb
  | noChild hz hp => exact ⟨h.setPc hb .free, rfl⟩
  | notYet hz hp ha hno => exact ⟨h.setPc hb .free, rfl⟩
  | block hz hp ha hno => exact ⟨h.block hz hp ha, rfl⟩

/-- The current task is not blocked unless it is about to give up the processor. -/
theorem Sane.not_blocked (h : Sane k s ring zs) (hpc : ∀ pid, s.pc s.current ≠ .sleeping pid) :
    (s.task s.current).state ≠ .blocked := by
  intro hb
  obtain ⟨pid, hs⟩ := h.at_yield hb
  exact hpc pid hs

theorem Sane.not_blocked_of_free (h : Sane k s ring zs) (hpc : s.pc s.current = .free) :
    (s.task s.current).state ≠ .blocked := h.not_blocked fun pid hs => by
  rw [hpc] at hs
  cases hs

/-- A task that has blocked itself gives up the processor. -/
theorem Base.setAwake (h : Base k s ring zs) (hpc : s.pc s.current = .sleeping pid) :
    Base k (s.setPc s.current (.awake pid)) ring zs := by
  refine ⟨h.toListed.setPc .., h.kmain, h.orphan, h.kernel, h.current, h.alive, h.gone, h.running,
    h.status, fun p hp hb => ?_⟩
  by_cases hne : p = s.current
  · subst hne
    obtain ⟨hflag, hchild, q, hq, hno⟩ := h.asleep _ hp hb
    rw [hpc] at hq
    obtain rfl : pid = q := by
      rcases hq with hq | hq
      · exact Pc.sleeping.inj hq
      · cases hq
    exact ⟨hflag, hchild, pid, Or.inr (update_self ..), hno⟩
  · exact (h.asleep p hp hb).mono rfl (fun c hc hcp => ⟨hc, hcp⟩) (update_of_ne hne ..)
      fun z hz hzp hzr => ⟨hz, hzp, hzr, rfl⟩

theorem Sane.resume (h : Sane k s ring zs) :
    ∃ s' zs', resume s = some s' ∧ Sane k s' ring zs' ∧ FreesReaped s s' zs := by
  unfold Tasks.resume
  cases hpc : s.pc s.current with
  | entry => exact ⟨s, zs, rfl, h, freesReaped_of_live rfl⟩
  | free => exact ⟨s, zs, rfl, h, freesReaped_of_live rfl⟩
  | checking pid =>
    obtain ⟨r, s', hrun, hc⟩ := h.toBase.waitCheck pid false
    obtain ⟨hsane, hlive⟩ := h.toBase.checked (h.not_blocked fun q hs => by rw [hpc] at hs; cases hs) hc
    refine ⟨s', zs, ?_, hsane, freesReaped_of_live hlive⟩
    dsimp only
    rw [hrun]
    rfl
  | sleeping pid =>
    obtain ⟨s', zs', hrun, hsane, hfree⟩ := (h.toBase.setAwake hpc).yield
    exact ⟨s', zs', hrun, hsane, hfree⟩
  | awake pid =>
    have hb := h.not_blocked fun q hs => by rw [hpc] at hs; cases hs
    set s1 := s.setTask s.current fun t => { t with waitAny := false } with hs1
    have hself : s1.task s.current = { s.task s.current with waitAny := false } := update_self ..
    have hother : ∀ q ≠ s.current, s1.task q = s.task q := fun q hq => update_of_ne hq ..
    have hkeep : ∀ q, ∃ w, s1.task q = { s.task q with waitAny := w } := fun q => by
      by_cases hq : q = s.current
      · subst hq
        exact ⟨_, hself⟩
      · exact ⟨_, hother q hq⟩
    have hbase : Base k s1 ring zs := by
      refine ⟨h.toListed.setTask .., h.kmain, ?_, ?_, h.current, fun p hp => ?_, fun z hz => ?_,
        fun p hp hne => ?_, ?_, fun p hp hbp => ?_⟩
      · obtain ⟨w, heq⟩ := hkeep k
        rw [heq]
        exact h.orphan
      · obtain ⟨w, heq⟩ := hkeep k
        rw [heq]
        exact h.kernel
      · obtain ⟨w, heq⟩ := hkeep p
        rw [heq]
        exact h.alive p hp
      · obtain ⟨w, heq⟩ := hkeep z
        rw [heq]
        exact h.gone z hz
      · rw [hother p hne]
        exact h.running p hp hne
      · change (s1.task s.current).state ≠ .ready
        rw [hself]
        exact h.status
      · have hne : p ≠ s.current := by
          rintro rfl
          rw [hself] at hbp
          exact hb hbp
        rw [hother p hne] at hbp
        refine (h.asleep p hp hbp).mono (by rw [hother p hne]) (fun c hc hcp => ⟨hc, ?_⟩) rfl fun z hz hzp hzr => ?_
        · obtain ⟨w, heq⟩ := hkeep c
          rw [heq]
          exact hcp
        · obtain ⟨w, heq⟩ := hkeep z
          rw [heq] at hzp hzr ⊢
          exact ⟨hz, hzp, hzr, rfl⟩
    refine ⟨s1.setPc s.current (.checking pid), zs, rfl, ?_, freesReaped_of_live rfl⟩
    refine hbase.setPc ?_ (.checking pid)
    change (s1.task s.current).state ≠ .blocked
    rw [hself]
    exact hb

theorem Sane.scribble (h : Sane k s ring zs) (hp : s.live p = false) (t : Task) :
    Sane k (s.setTask p fun _ => t) ring zs := by
  have hin : ∀ q ∈ ring ++ zs, (s.setTask p fun _ => t).task q = s.task q := fun q hq => St.setTask_of_ne fun heq => by
    have hlive := (h.live q).mp hq
    rw [heq, hp] at hlive
    cases hlive
  have hring : ∀ q ∈ ring, (s.setTask p fun _ => t).task q = s.task q := fun q hq => hin q (List.mem_append_left _ hq)
  have hzs : ∀ q ∈ zs, (s.setTask p fun _ => t).task q = s.task q := fun q hq => hin q (List.mem_append_right _ hq)
  have hcur := hring _ h.current
  refine ⟨⟨h.toListed.setTask .., h.kmain, ?_, ?_, h.current, fun q hq => ?_, fun z hz => ?_,
    fun q hq hne => ?_, ?_, fun q hq hb => ?_⟩, fun hb => ?_⟩
  · rw [hring k h.kmain]
    exact h.orphan
  · rw [hring k h.kmain]
    exact h.kernel
  · rw [hring q hq]
    exact h.alive q hq
  · rw [hzs z hz]
    exact h.gone z hz
  · rw [hring q hq]
    exact h.running q hq hne
  · change ((s.setTask p fun _ => t).task s.current).state ≠ .ready
    rw [hcur]
    exact h.status
  · rw [hring q hq] at hb
    refine (h.asleep q hq hb).mono (by rw [hring q hq]) (fun c hc hcp => ⟨hc, by rwa [hring c hc]⟩)
      rfl fun z hz hzp hzr => ?_
    rw [hzs z hz] at hzp hzr ⊢
    exact ⟨hz, hzp, hzr, rfl⟩
  · change ((s.setTask p fun _ => t).task s.current).state = .blocked at hb
    rw [hcur] at hb
    exact h.at_yield hb

/-- Every step returns, keeps the tasks in order, and frees only zombies that need not be kept. -/
theorem Sane.run (h : Sane k s ring zs) (hen : op.Enabled k s) :
    ∃ s' ring' zs', op.run s = some s' ∧ Sane k s' ring' zs' ∧ FreesReaped s s' zs := by
  cases op with
  | tick =>
    obtain ⟨s', hrun, hsane, hlive⟩ := h.schedulerTick
    exact ⟨s', ring, zs, hrun, hsane, freesReaped_of_live hlive⟩
  | enablePreemption =>
    refine ⟨_, ring, zs, rfl, ⟨⟨h.toListed.of_eq rfl rfl rfl rfl rfl, h.kmain, h.orphan, h.kernel, h.current, h.alive,
      h.gone, h.running, h.status, fun p hp hb => ?_⟩, h.at_yield⟩, freesReaped_of_live rfl⟩
    exact (h.asleep p hp hb).mono rfl (fun c hc hcp => ⟨hc, hcp⟩) rfl fun z hz hzp hzr => ⟨hz, hzp, hzr, rfl⟩
  | spawn a user =>
    obtain ⟨-, ha0, ha⟩ := hen
    obtain ⟨ring', hsane, hfree⟩ := h.spawn user ha ha0
    exact ⟨_, ring', zs, rfl, hsane, hfree⟩
  | link c => exact ⟨_, ring, zs, rfl, h.link hen, freesReaped_of_live rfl⟩
  | yield =>
    obtain ⟨s', zs', hrun, hsane, hfree⟩ := h.toBase.yield
    exact ⟨s', ring, zs', hrun, hsane, hfree⟩
  | exit code =>
    obtain ⟨s', nx, hrun, hsane, hexits⟩ := h.exit code hen.2
    exact ⟨s', _, _, hrun, hsane, freesReaped_of_live hexits.live⟩
  | wait pid nohang =>
    obtain ⟨r, s', hrun, hc⟩ := h.toBase.waitCheck pid nohang
    obtain ⟨hsane, hlive⟩ := h.toBase.checked (h.not_blocked_of_free hen) hc
    refine ⟨s', ring, zs, ?_, hsane, freesReaped_of_live hlive⟩
    rw [Op.run, hrun]
    rfl
  | resume =>
    obtain ⟨s', zs', hrun, hsane, hfree⟩ := h.resume
    exact ⟨s', ring, zs', hrun, hsane, hfree⟩
  | scribble p t => exact ⟨_, ring, zs, rfl, h.scribble hen t, freesReaped_of_live rfl⟩

theorem sane_taskingInit (hk : k ≠ 0) : Sane k (taskingInit k) [k] [] := by
  have hself : (taskingInit k).task k = { state := .running } := by simp [taskingInit]
  refine ⟨⟨⟨⟨rfl, by simp [taskingInit]⟩,
    rfl, by simp, fun p => ?_, by simp [taskingInit,
    hk.symm], Nat.le_refl 1⟩, by simp, by rw [hself],
    by rw [hself], by simp [taskingInit], ?_, by simp, ?_, ?_, ?_⟩, fun hb => ?_⟩
  · by_cases hp : p = k <;> simp [taskingInit, hp]
  · intro p hp
    rw [List.mem_singleton.mp hp, hself]
    exact ⟨rfl, fun hd => by cases hd⟩
  · exact fun p hp hne => absurd (List.mem_singleton.mp hp) hne
  · change ((taskingInit k).task k).state ≠ .ready
    rw [hself]
    exact fun hd => by cases hd
  · intro p hp hb
    rw [List.mem_singleton.mp hp, hself] at hb
    cases hb
  · change ((taskingInit k).task k).state = .blocked at hb
    rw [hself] at hb
    cases hb

theorem Run.sane (hk : k ≠ 0) (h : Run ok k T s) : ∃ ring zs, Sane k s ring zs := by
  induction h with
  | init => exact ⟨_, _, sane_taskingInit hk⟩
  | step _ hen _ hrun ih =>
    obtain ⟨ring, zs, hsane⟩ := ih
    obtain ⟨s', ring', zs', hrun', hsane', -⟩ := hsane.run hen
    rw [hrun] at hrun'
    cases hrun'
    exact ⟨ring', zs', hsane'⟩

theorem lists_of_run (hk : k ≠ 0) (h : Run ok k T s) :
    ∃ ring zs, Seg s.next s.ready ring s.ready ∧ ring.Nodup ∧ s.current ∈ ring ∧
      (∀ p, p ∈ ring ↔ s.live p = true ∧ (s.task p).hasExited = false) ∧ (∀ p ∈ ring, (s.task p).state ≠ .dead) ∧
      (∀ p, s.live p = true → p ≠ s.current → (s.task p).state ≠ .running) ∧
      Seg s.next s.zombie zs 0 ∧ zs.Nodup ∧ ring.Disjoint zs ∧
      ∀ op : Op, op.Enabled k s → ∃ s', op.run s = some s' ∧ ∀ q, s.live q = true →
        s'.live q = false → q ∈ zs ∧ (s.task q).reapedByParent = true ∧ q ≠ s.current := by
  obtain ⟨ring, zs, hs⟩ := h.sane hk
  refine ⟨ring, zs, hs.circular, hs.ring_nodup, hs.current, fun p => ?_, fun p hp =>
    (hs.alive p hp).2, fun p hp hne => ?_, hs.chain, hs.zombies_nodup, fun p hp => hs.disjoint hp,
    fun op hen => ?_⟩
  · refine ⟨fun hp => ⟨(hs.live p).mp (List.mem_append_left _ hp), (hs.alive p hp).1⟩, fun ⟨hl, hrun⟩ => ?_⟩
    refine (List.mem_append.mp ((hs.live p).mpr hl)).resolve_right fun hz => ?_
    rw [(hs.gone p hz).1] at hrun
    cases hrun
  · rcases List.mem_append.mp ((hs.live p).mpr hp) with hr | hz
    · exact hs.running p hr hne
    · rw [(hs.gone p hz).2]
      exact fun hd => by cases hd
  · obtain ⟨s', -, -, hrun, -, hfree⟩ := hs.run hen
    refine ⟨s', hrun, fun q hq hno => ?_⟩
    obtain ⟨hz, hreap⟩ := (hfree q hq).resolve_left fun hl => by
      rw [hno] at hl
      cases hl
    exact ⟨hz, hreap, fun heq => hs.disjoint hs.current (heq ▸ hz)⟩

/-- A user task has been spawned and linked, and has exited; the next yield frees nothing. -/
theorem lists_of_run_of_exit : ∃ s, Run (fun _ _ => True) 1 [.exited 1 7, .linked 0 1] s ∧
    ∃ zs, Seg s.next s.zombie zs 0 ∧ 2 ∈ zs ∧ (Op.yield.run s).isSome = true := by
  obtain ⟨T, s, hrun, rfl, hlive, hz, hfree⟩ := @Run.exists_of_play (fun _ _ => True) _ 1
    [.spawn 2 true, .link 2, .yield, .exit 7] (fun T s => T = [.exited 1 7, .linked 0 1] ∧
      s.live 2 = true ∧ s.zombie = 2 ∧ Op.yield.Enabled 1 s) _ (by decide)
  obtain ⟨ring, zs, -, -, -, -, -, -, hchain, -, -, hrest⟩ := lists_of_run (by decide) hrun
  obtain ⟨s', hs', -⟩ := hrest .yield hfree
  refine ⟨s, hrun, zs, hchain, ?_, by rw [hs']; rfl⟩
  cases zs with
  | nil =>
    rw [hz] at hchain
    cases hchain
  | cons z zs => exact hz ▸ hchain.1 ▸ List.mem_cons_self

end ComputerOS.Tasks
