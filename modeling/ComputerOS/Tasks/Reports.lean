import ComputerOS.Tasks.History

/-!
Waits report the exit of every child once. While neither the child has been reported nor its parent
has exited, the child is in memory with its parent field leading to the parent.
-/
namespace ComputerOS.Tasks

open Function

variable {k a c p q z nx : Ptr} {s s' : St} {ring zs : List Ptr} {op : Op} {pid code : ℤ} {user nohang : Bool}
  {ok : St → Op → Prop} {T : List Event} {par : ℕ}

/-- What the events say about children. -/
structure Reports (T : List Event) (s : St) : Prop where
  linked : ∀ par c, .linked par c ∈ T → ∀ p, s.live p = true → (s.task p).id = c → (s.task p).parent ≠ 0
  waited : ∀ par c code, .waited par c code ∈ T →
    .exited c code ∈ T ∧ ∀ p, s.live p = true → (s.task p).id = c → (s.task p).reapedByParent = true
  once : (T.filterMap Event.reported).Nodup
  kept : ∀ par c, .linked par c ∈ T → (∀ e, .exited par e ∉ T) → (∀ q e, .waited q c e ∉ T) →
    ∃ p q, s.live p = true ∧ s.live q = true ∧ (s.task p).id = c ∧ (s.task q).id = par ∧
      (s.task p).parent = q ∧ (s.task p).reapedByParent = false
  owner : ∀ par c, .linked par c ∈ T → (∀ e, .exited par e ∉ T) → ∀ q code, .waited q c code ∈ T → q = par

theorem reported_iff {c : ℕ} : c ∈ T.filterMap Event.reported ↔ ∃ q code, .waited q c code ∈ T := by
  rw [List.mem_filterMap]
  constructor
  · rintro ⟨e, he, hc⟩
    cases e with
    | linked par c => cases hc
    | exited id code => cases hc
    | waited q c' code =>
      obtain rfl : c' = c := Option.some.inj hc
      exact ⟨q, code, he⟩
  · rintro ⟨q, code, he⟩
    exact ⟨_, he, rfl⟩

section

variable (h : Reports T s) (hk : Known k T s)
include h hk

theorem Reports.moved (hm : Moved s s') : Reports T s' := by
  refine ⟨fun par c hl p hp hc => ?_, fun par c code hw =>
    ⟨(h.waited par c code hw).1, fun p hp hc => ?_⟩, h.once, fun par c hl hpar hno => ?_, h.owner⟩
  · obtain ⟨hlive, hsame⟩ := hm.live p hp
    rw [hsame.id] at hc
    rw [hsame.parent]
    exact h.linked par c hl p hlive hc
  · obtain ⟨hlive, hsame⟩ := hm.live p hp
    rw [hsame.id] at hc
    rw [hsame.reapedByParent]
    exact (h.waited par c code hw).2 p hlive hc
  · obtain ⟨p, q, hp, hq, hpc, hqp, hparent, hreap⟩ := h.kept par c hl hpar hno
    have hp' : s'.live p = true := by
      by_contra hf
      rw [(hm.freed p hp (Bool.eq_false_iff.mpr hf)).2.1] at hreap
      cases hreap
    -- the parent has not exited, so it is no zombie
    have hq' : s'.live q = true := by
      by_contra hf
      have hexit := (hm.freed q hq (Bool.eq_false_iff.mpr hf)).1
      exact hpar _ (hqp ▸ (hk.ended q _ hq).mpr ⟨hexit, rfl⟩)
    have hsame := (hm.live p hp').2
    exact ⟨p, q, hp', hq', hsame.id.trans hpc, (hm.live q hq').2.id.trans hqp,
      hsame.parent.trans hparent, hsame.reapedByParent.trans hreap⟩

theorem Reports.spawned (ha : s.live a = false) (htask : s'.task = update s.task a { id := s.nextId, isUser := user })
    (hlive : s'.live = update s.live a true) : Reports T s' := by
  have hnew : s'.task a = { id := s.nextId, isUser := user } := by rw [htask, update_self]
  have hold : ∀ p, s'.live p = true → p = a ∨ s.live p = true ∧ s'.task p = s.task p := by
    intro p hp
    by_cases hpa : p = a
    · exact Or.inl hpa
    · rw [hlive, update_of_ne hpa] at hp
      exact Or.inr ⟨hp, by rw [htask, update_of_ne hpa]⟩
  have hstay : ∀ p, s.live p = true → s'.live p = true ∧ s'.task p = s.task p := by
    intro p hp
    have hpa : p ≠ a := by
      rintro rfl
      rw [hp] at ha
      cases ha
    rw [hlive, htask, update_of_ne hpa, update_of_ne hpa]
    exact ⟨hp, rfl⟩
  refine ⟨fun par c hl p hp hc => ?_, fun par c code hw =>
    ⟨(h.waited par c code hw).1, fun p hp hc => ?_⟩, h.once, fun par c hl hpar hno => ?_, h.owner⟩
  · rcases hold p hp with rfl | ⟨hpl, heq⟩
    · rw [hnew] at hc
      exact absurd (hk.below _ hl).2 (hc ▸ Nat.lt_irrefl _)
    · rw [heq] at hc ⊢
      exact h.linked par c hl p hpl hc
  · rcases hold p hp with rfl | ⟨hpl, heq⟩
    · rw [hnew] at hc
      exact absurd (hk.below _ hw).2 (hc ▸ Nat.lt_irrefl _)
    · rw [heq] at hc ⊢
      exact (h.waited par c code hw).2 p hpl hc
  · obtain ⟨p, q, hp, hq, hpc, hqp, hparent, hreap⟩ := h.kept par c hl hpar hno
    obtain ⟨hp', heq⟩ := hstay p hp
    obtain ⟨hq', heq'⟩ := hstay q hq
    refine ⟨p, q, hp', hq', ?_⟩
    rw [heq, heq']
    exact ⟨hpc, hqp, hparent, hreap⟩

theorem Reports.linkedTo (hs : Sane k s ring zs) (hc : s.live c = true) (h0 : (s.task c).parent = 0)
    (hentry : s.pc c = .entry) :
    Reports (.linked (s.task s.current).id (s.task c).id :: T)
    (s.setTask c fun t => { t with parent := s.current }) := by
  have hcur := hs.live_current
  have hexit : (s.task c).hasExited = false := by
    by_contra hx
    exact hk.begun c hc (Bool.eq_true_of_not_eq_false hx) hentry
  have hreap : (s.task c).reapedByParent = false := by
    by_contra hr
    rw [hk.reaped c hc (Bool.eq_true_of_not_eq_false hr)] at hexit
    cases hexit
  have hself : (s.setTask c fun t => { t with parent := s.current }).task c = { s.task c with parent := s.current } :=
    St.setTask_self ..
  refine ⟨fun par d hl p hp hd => ?_, fun par d code hw => ⟨?_, fun p hp hd => ?_⟩, h.once,
    fun par d hl hpar hno => ?_, fun par d hl hpar q code hw => ?_⟩
  · by_cases hpc : p = c
    · subst hpc
      rw [hself]
      exact hs.ring_ne_zero hs.current
    · rw [St.setTask_of_ne hpc] at hd ⊢
      rcases List.mem_cons.mp hl with heq | hl
      · injection heq with _ hcd
        exact absurd (hk.inj p c hp hc (hd.trans hcd)) hpc
      · exact h.linked par d hl p hp hd
  · exact List.mem_cons_of_mem _ (h.waited par d code (by simpa using hw)).1
  · obtain ⟨q, heq, -⟩ := linked_task s c p
    rw [heq] at hd ⊢
    exact (h.waited par d code (by simpa using hw)).2 p hp hd
  · rcases List.mem_cons.mp hl with heq | hl
    · injection heq with hpar' hd
      refine ⟨c, s.current, hc, hcur, ?_⟩
      obtain ⟨q, heq, -⟩ := linked_task s c s.current
      rw [hself, heq]
      exact ⟨hd.symm, hpar'.symm, rfl, hreap⟩
    · obtain ⟨p, q, hp, hq, hpd, hqp, hparent, hpr⟩ := h.kept par d hl (fun e he => hpar e (List.mem_cons_of_mem _ he))
        fun q e he => hno q e (List.mem_cons_of_mem _ he)
      have hpc : p ≠ c := by
        rintro rfl
        exact hs.ne_zero ((hs.live q).mpr hq) (hparent.symm.trans h0)
      obtain ⟨q', heq', -⟩ := linked_task s c q
      refine ⟨p, q, hp, hq, ?_⟩
      rw [St.setTask_of_ne hpc, heq']
      exact ⟨hpd, hqp, hparent, hpr⟩
  · have hw' : .waited q d code ∈ T := by simpa using hw
    rcases List.mem_cons.mp hl with heq | hl
    · injection heq with hpar' hd
      rw [(h.waited q d code hw').2 c hc hd.symm] at hreap
      cases hreap
    · exact h.owner par d hl (fun e he => hpar e (List.mem_cons_of_mem _ he)) q code hw'

omit hk in
theorem Reports.exited (hs : Sane k s ring zs) (hx : Exits s s' nx code) :
    Reports (.exited (s.task s.current).id code :: T) s' := by
  refine ⟨fun par c hl p hp hc => ?_, fun par c code' hw => ⟨?_, fun p hp hc => ?_⟩, h.once,
    fun par c hl hpar hno => ?_, fun par c hl hpar q code' hw => ?_⟩
  · rw [hx.live] at hp
    rw [hx.id] at hc
    rw [hx.parent]
    exact h.linked par c (by simpa using hl) p hp hc
  · exact List.mem_cons_of_mem _ (h.waited par c code' (by simpa using hw)).1
  · rw [hx.live] at hp
    rw [hx.id] at hc
    have hr := (h.waited par c code' (by simpa using hw)).2 p hp hc
    by_cases hpc : p = s.current
    · subst hpc
      rw [hx.self, hr, Bool.true_or]
    · obtain ⟨st, heq⟩ := hx.other p hpc
      rw [heq]
      exact hr
  · obtain ⟨p, q, hp, hq, hpc, hqp, hparent, hpr⟩ := h.kept par c (by simpa using hl)
      (fun e he => hpar e (List.mem_cons_of_mem _ he)) fun q e he => hno q e (List.mem_cons_of_mem _ he)
    refine ⟨p, q, ?_⟩
    rw [hx.live, hx.id, hx.id, hx.parent]
    refine ⟨hp, hq, hpc, hqp, hparent, ?_⟩
    by_cases hcur : p = s.current
    · subst hcur
      have hq0 : (s.task s.current).parent ≠ 0 := hparent ▸ hs.ne_zero ((hs.live q).mpr hq)
      rw [hx.self, hpr, beq_false_of_ne hq0, Bool.or_self]
    · obtain ⟨st, heq⟩ := hx.other p hcur
      rw [heq]
      exact hpr
  · exact h.owner par c (by simpa using hl) (fun e he => hpar e (List.mem_cons_of_mem _ he)) q code' (by simpa using hw)

theorem Reports.waitedFor (hz : s.live z = true) (hexit : (s.task z).hasExited = true)
    (hparent : (s.task z).parent = s.current) (hreap : (s.task z).reapedByParent = false) :
    Reports (.waited (s.task s.current).id (s.task z).id (s.task z).exitCode :: T)
      ((s.setTask z fun t => { t with reapedByParent := true }).setPc s.current .free) := by
  have hnone : ∀ q e, .waited q (s.task z).id e ∉ T := by
    intro q e hw
    rw [(h.waited q _ e hw).2 z hz rfl] at hreap
    cases hreap
  have hself : ((s.setTask z fun t => { t with reapedByParent := true }).setPc s.current .free).task
      z = { s.task z with reapedByParent := true } := update_self ..
  refine ⟨fun par c hl p hp hc => ?_, fun par c code hw => ⟨?_, fun p hp hc => ?_⟩, ?_,
    fun par c hl hpar hno => ?_, fun par c hl hpar q code hw => ?_⟩
  · obtain ⟨r, heq, -⟩ := waited_task s z p
    rw [heq] at hc ⊢
    exact h.linked par c (by simpa using hl) p hp hc
  · rcases List.mem_cons.mp hw with heq | hw
    · injection heq with _ hc hcode
      rw [hc, hcode]
      exact List.mem_cons_of_mem _ ((hk.ended z _ hz).mpr ⟨hexit, rfl⟩)
    · exact List.mem_cons_of_mem _ (h.waited par c code hw).1
  · obtain ⟨r, heq, hr⟩ := waited_task s z p
    by_cases hpz : p = z
    · subst hpz
      rw [hself]
    · rw [heq] at hc ⊢
      rcases List.mem_cons.mp hw with heq' | hw
      · injection heq' with _ hc' _
        exact absurd (hk.inj p z hp hz (hc.trans hc')) hpz
      · exact (hr hpz).trans ((h.waited par c code hw).2 p hp hc)
  · change ((s.task z).id :: T.filterMap Event.reported).Nodup
    refine List.nodup_cons.mpr ⟨fun hm => ?_, h.once⟩
    obtain ⟨q, code, hw⟩ := reported_iff.mp hm
    exact hnone q code hw
  · obtain ⟨p, q, hp, hq, hpc, hqp, hpq, hpr⟩ := h.kept par c (by simpa using hl)
      (fun e he => hpar e (List.mem_cons_of_mem _ he)) fun q e he => hno q e (List.mem_cons_of_mem _ he)
    have hpz : p ≠ z := by
      rintro rfl
      refine hno (s.task s.current).id (s.task p).exitCode ?_
      rw [← hpc]
      exact List.mem_cons_self
    obtain ⟨r, heq, hr⟩ := waited_task s z p
    obtain ⟨r', heq', -⟩ := waited_task s z q
    refine ⟨p, q, hp, hq, ?_⟩
    rw [heq, heq']
    exact ⟨hpc, hqp, hpq, (hr hpz).trans hpr⟩
  · have hpar' : ∀ e, .exited par e ∉ T := fun e he => hpar e (List.mem_cons_of_mem _ he)
    have hl' : .linked par c ∈ T := by simpa using hl
    rcases List.mem_cons.mp hw with heq | hw
    · injection heq with hq hc _
      obtain ⟨p, q', hp, hq', hpc, hqp, hpq, -⟩ := h.kept par c hl' hpar' (hc ▸ hnone)
      obtain rfl := hk.inj p z hp hz (hpc.trans hc)
      rw [hq, ← hqp, ← hpq, hparent]
    · exact h.owner par c hl' hpar' q code hw

theorem Reports.step (hs : Sane k s ring zs) (hok : LinkedFirst s op) (he : Effect k s op s') :
    Reports (op.events s ++ T) s' := by
  cases he with
  | moved hev hm => exact hev ▸ h.moved hk hm
  | spawned hop ha0 ha htask hlive hid hpc => exact hop ▸ h.spawned hk ha htask hlive
  | linked hop hc h0 hne =>
    subst hop
    exact h.linkedTo hk hs hc h0 hok
  | exited hop hpc hx => exact hop ▸ h.exited hs hx
  | waited hev hop hop' hz hexit hparent hreap => exact hev ▸ h.waitedFor hk hz hexit hparent hreap

end

theorem Run.known (hk : k ≠ 0) (h : Run ok k T s) : Known k T s := by
  induction h with
  | init =>
    have hself : (taskingInit k).task k = { state := .running } := by simp [taskingInit]
    have hlive : ∀ p, (taskingInit k).live p = true → p = k := fun p hp => by
      by_contra hne
      simp [taskingInit, hne] at hp
    refine ⟨⟨by simp [taskingInit], by rw [hself]⟩, fun p hp => ?_, fun p q hp hq _ =>
      (hlive p hp).trans (hlive q hq).symm,
      by simp, fun p code hp => ?_, fun p hp hr => ?_, fun p hp hx => ?_⟩
    · rw [hlive p hp, hself]
      exact Nat.one_pos
    · rw [hlive p hp, hself]
      simp
    · rw [hlive p hp, hself] at hr
      cases hr
    · rw [hlive p hp, hself] at hx
      cases hx
  | step h' hen _ hrun ih =>
    obtain ⟨ring, zs, hs⟩ := h'.sane hk
    exact ih.step hs (hs.effect hen hrun)

theorem Run.reports (hk : k ≠ 0) (h : Run LinkedFirst k T s) : Reports T s := by
  induction h with
  | init => exact ⟨by simp, by simp, List.nodup_nil, by simp, by simp⟩
  | step h' hen hok hrun ih =>
    obtain ⟨ring, zs, hs⟩ := h'.sane hk
    exact ih.step (h'.known hk) hs hok (hs.effect hen hrun)

theorem Sane.mem_zombies (h : Sane k s ring zs) (hz : s.live z = true)
    (hexit : (s.task z).hasExited = true) : z ∈ zs := by
  refine (List.mem_append.mp ((h.live z).mpr hz)).resolve_left fun hr => ?_
  rw [(h.alive z hr).1] at hexit
  cases hexit

theorem Sane.mem_ring (h : Sane k s ring zs) (hp : s.live p = true)
    (hrun : (s.task p).hasExited = false) : p ∈ ring := by
  refine (List.mem_append.mp ((h.live p).mpr hp)).resolve_right fun hz => ?_
  rw [(h.gone p hz).1] at hrun
  cases hrun

/-- Without a child to report and without one in the ring there is none at all. -/
theorem Sane.noChild (h : Sane k s ring zs) (hrun : waitCheck s pid nohang = some (.noChild, s')) (hc : s.live c = true)
    (hparent : (s.task c).parent = s.current) (hne : c ≠ s.current) (hm : waitMatch (s.task c) pid = true) :
    (s.task c).hasExited = true ∧ (s.task c).reapedByParent = true := by
  obtain ⟨r, s1, hrun', hch⟩ := h.toBase.waitCheck pid nohang
  obtain ⟨rfl, rfl⟩ := Prod.mk.inj (Option.some.inj (hrun.symm.trans hrun'))
  cases hch with
  | noChild hz hp =>
    cases hexit : (s.task c).hasExited with
    | false =>
      have hr := h.mem_ring hc hexit
      have hno := hp c hr
      simp only [alive, hparent, hm, beq_self_eq_true, bne_iff_ne.mpr hne, bne_iff_ne.mpr (h.alive c hr).2] at hno
      cases hno
    | true =>
      have hno := hz c (h.mem_zombies hc hexit)
      simp only [unreaped, hparent, hm, beq_self_eq_true, Bool.true_and, Bool.and_true, Bool.not_eq_false'] at hno
      exact ⟨rfl, hno⟩

theorem Sane.notYet (h : Sane k s ring zs) (hrun : waitCheck s pid nohang = some (.notYet, s')) :
    nohang = true ∧ ∃ c, s.live c = true ∧ (s.task c).hasExited = false ∧
      (s.task c).parent = s.current ∧ waitMatch (s.task c) pid = true := by
  obtain ⟨r, s1, hrun', hch⟩ := h.toBase.waitCheck pid nohang
  obtain ⟨rfl, rfl⟩ := Prod.mk.inj (Option.some.inj (hrun.symm.trans hrun'))
  cases hch with
  | @notYet p hz hp ha hno =>
    simp only [alive, Bool.and_eq_true, beq_iff_eq] at ha
    exact ⟨hno, p, (h.live p).mp (List.mem_append_left _ hp), (h.alive p hp).1, ha.1.1.1, ha.1.2⟩

theorem Sane.wait_child (h : Sane k s ring zs) (hk : Known k T s) (hz : s.live z = true)
    (hexit : (s.task z).hasExited = true) (hparent : (s.task z).parent = s.current)
    (hreap : (s.task z).reapedByParent = false) :
    ∃ s', waitCheck s (s.task z).id nohang = some (.child (s.task z).id (s.task z).exitCode, s') := by
  have hu : unreaped s (s.task z).id z = true := by simp [unreaped, hparent, hreap, waitMatch]
  have hzk : (s.task z).id ≠ 0 := by
    intro h0
    have hzk := hk.inj z k hz hk.root.1 (h0.trans hk.root.2.symm)
    rw [hzk, (h.alive k h.kmain).1] at hexit
    cases hexit
  have hmem := h.mem_zombies hz hexit
  obtain ⟨r, s1, hrun, hch⟩ := h.toBase.waitCheck (s.task z).id nohang
  have hno : ¬ ∀ q ∈ zs, unreaped s (s.task z).id q = false := by
    intro hall
    rw [hall z hmem] at hu
    cases hu
  cases hch with
  | @child q hq hqe hqu =>
    simp only [unreaped, waitMatch, Bool.and_eq_true, Bool.or_eq_true, decide_eq_true_eq, beq_iff_eq] at hqu
    have hid : (s.task q).id = (s.task z).id := by omega
    obtain rfl := hk.inj q z ((h.live q).mp (List.mem_append_right _ hq)) hz hid
    exact ⟨_, hrun⟩
  | noChild hq hp => exact absurd hq hno
  | notYet hq hp ha hn => exact absurd hq hno
  | block hq hp ha hn => exact absurd hq hno

theorem wait_reports_once (hk : k ≠ 0) (h : Run LinkedFirst k T s) :
    (T.filterMap Event.reported).Nodup ∧
    (∀ par c code, .waited par c code ∈ T → .exited c code ∈ T ∧
      ∀ q, .linked q c ∈ T → (∀ e, .exited q e ∉ T) → par = q) ∧
    (∀ par c code, .linked par c ∈ T → (∀ e, .exited par e ∉ T) → .exited c code ∈ T →
      (∀ q e, .waited q c e ∉ T) → ∃ p z, s.live p = true ∧ (s.task p).hasExited = false ∧
        (s.task p).id = par ∧ s.live z = true ∧ (s.task z).hasExited = true ∧ (s.task z).id = c ∧
        (s.task z).exitCode = code ∧ (s.task z).parent = p ∧ (s.task z).reapedByParent = false ∧
        (s.current = p → ∀ nohang, ∃ s', waitCheck s c nohang = some (.child c code, s'))) ∧
    (∀ pid nohang s', waitCheck s pid nohang = some (.noChild, s') → ∀ c, s.live c = true →
      (s.task c).parent = s.current → c ≠ s.current → waitMatch (s.task c) pid = true →
      (s.task c).hasExited = true ∧ (s.task c).reapedByParent = true) ∧
    (∀ pid nohang s', waitCheck s pid nohang = some (.notYet, s') → nohang = true ∧ ∃ c, s.live c = true ∧
      (s.task c).hasExited = false ∧ (s.task c).parent = s.current ∧ waitMatch (s.task c) pid = true) ∧
    (∀ p, s.live p = true → (s.task p).state = .blocked → ∃ pid, (s.pc p = .sleeping pid ∨ s.pc p = .awake pid) ∧
      ∀ z, s.live z = true → (s.task z).hasExited = true → (s.task z).parent = p → (s.task z).reapedByParent = false →
        waitMatch (s.task z) pid = false) := by
  obtain ⟨ring, zs, hs⟩ := h.sane hk
  have hknown := h.known hk
  have hrep := h.reports hk
  refine ⟨hrep.once, fun par c code hw =>
    ⟨(hrep.waited par c code hw).1, fun q hl hq => hrep.owner q c hl hq par code hw⟩,
    fun par c code hl hpar hx hno => ?_, fun pid nohang s' hrun c hc hp hne hm =>
    hs.noChild hrun hc hp hne hm, fun pid nohang s' hrun => hs.notYet hrun, fun p hp hb => ?_⟩
  · obtain ⟨z, p, hz, hp, rfl, rfl, rfl, hreap⟩ := hrep.kept par c hl hpar hno
    obtain ⟨hexit, rfl⟩ := (hknown.ended z code hz).mp hx
    have hrun : (s.task (s.task z).parent).hasExited = false := by
      by_contra hx
      exact hpar _ ((hknown.ended _ _ hp).mpr ⟨Bool.eq_true_of_not_eq_false hx, rfl⟩)
    exact ⟨_, z, hp, hrun, rfl, hz, hexit, rfl, rfl, rfl, hreap,
      fun hcur nohang => hs.wait_child hknown hz hexit hcur.symm hreap⟩
  · have hrun : (s.task p).hasExited = false := by
      by_contra hx
      rw [(hs.gone p (hs.mem_zombies hp (Bool.eq_true_of_not_eq_false hx))).2] at hb
      cases hb
    obtain ⟨-, -, pid, hpid, hno⟩ := hs.asleep p (hs.mem_ring hp hrun) hb
    exact ⟨pid, hpid, fun z hz hexit hzp hzr => hno z (hs.mem_zombies hz hexit) hzp hzr⟩

/-- A task is spawned and linked, and exits with 7 before it has been waited for. -/
theorem wait_reports_once_of_exit : ∃ T s, Run LinkedFirst 1 T s ∧ T = [.exited 1 7, .linked 0 1] ∧
    (T.filterMap Event.reported).Nodup ∧ ∃ s', waitCheck s 1 true = some (.child 1 7, s') := by
  obtain ⟨T, s, hrun, rfl, hcur⟩ := @Run.exists_of_play LinkedFirst _ 1 [.spawn 2 true, .link 2, .yield, .exit 7]
    (fun T s => T = [.exited 1 7, .linked 0 1] ∧ (s.task s.current).id = 0) _ (by decide)
  obtain ⟨ring, zs, hs⟩ := hrun.sane (by decide)
  obtain ⟨hnodup, -, hkept, -⟩ := wait_reports_once (by decide) hrun
  obtain ⟨p, z, hp, -, hid, -, -, -, -, -, -, hwait⟩ := hkept 0 1 7 (by simp) (by simp) (by simp) (by simp)
  have hself := (hrun.known (by decide)).inj s.current p hs.live_current hp (hcur.trans hid.symm)
  exact ⟨_, s, hrun, rfl, hnodup, hwait hself true⟩

end ComputerOS.Tasks
