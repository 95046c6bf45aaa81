import ComputerOS.Tasks.Effects

/-!
What has happened in a run, and what the tasks still show of it. Ids tell tasks apart for ever,
while addresses are used again. An exited child that has not been reported is kept as long as its
parent has not exited, and its parent field still leads there.
-/
namespace ComputerOS.Tasks

open Function

variable {k a c p q z nx : Ptr} {s s' : St} {ring zs : List Ptr} {op : Op} {pid code : ℤ} {user nohang : Bool}
  {ok : St → Op → Prop} {T : List Event} {par : ℕ}

/-- All ids of the event have been given out. -/
def Event.Below (n : ℕ) : Event → Prop
  | .linked par c => par < n ∧ c < n
  | .exited id _ => id < n
  | .waited par c _ => par < n ∧ c < n

theorem Event.Below.mono {m n : ℕ} {e : Event} (h : e.Below m) (hmn : m ≤ n) : e.Below n := by
  cases e with
  | linked par c => exact ⟨h.1.trans_le hmn, h.2.trans_le hmn⟩
  | exited id code => exact h.trans_le hmn
  | waited par c code => exact ⟨h.1.trans_le hmn, h.2.trans_le hmn⟩

/-- The child a wait has returned. -/
def Event.reported : Event → Option ℕ
  | .waited _ c _ => some c
  | _ => none

/-- The parent field of a task is set before the task first runs. -/
def LinkedFirst (s : St) : Op → Prop
  | .link c => s.pc c = .entry
  | _ => True

instance {s : St} : ∀ op, Decidable (LinkedFirst s op)
  | .link _ => inferInstanceAs (Decidable (_ = _))
  | .tick | .enablePreemption | .spawn .. | .yield | .exit _ | .wait .. | .resume | .scribble .. =>
      inferInstanceAs (Decidable True)

/-- The ids of the tasks, and what they say about events. -/
structure Known (k : Ptr) (T : List Event) (s : St) : Prop where
  root : s.live k = true ∧ (s.task k).id = 0
  lt : ∀ p, s.live p = true → (s.task p).id < s.nextId
  inj : ∀ p q, s.live p = true → s.live q = true → (s.task p).id = (s.task q).id → p = q
  below : ∀ e ∈ T, e.Below s.nextId
  ended : ∀ p code, s.live p = true →
    (.exited (s.task p).id code ∈ T ↔ (s.task p).hasExited = true ∧ (s.task p).exitCode = code)
  reaped : ∀ p, s.live p = true → (s.task p).reapedByParent = true → (s.task p).hasExited = true
  begun : ∀ p, s.live p = true → (s.task p).hasExited = true → s.pc p ≠ .entry

theorem linked_task (s : St) (c p : Ptr) : ∃ q, (s.setTask c fun t => { t with parent := s.current }).task p =
    { s.task p with parent := q } ∧ (p ≠ c → q = (s.task p).parent) := by
  by_cases hp : p = c
  · subst hp
    exact ⟨_, St.setTask_self .., fun hne => absurd rfl hne⟩
  · exact ⟨_, St.setTask_of_ne hp, fun _ => rfl⟩

theorem waited_task (s : St) (z p : Ptr) :
    ∃ r, ((s.setTask z fun t => { t with reapedByParent := true }).setPc s.current .free).task p =
      { s.task p with reapedByParent := r } ∧ (p ≠ z → r = (s.task p).reapedByParent) := by
  by_cases hp : p = z
  · subst hp
    exact ⟨true, update_self .., fun hne => absurd rfl hne⟩
  · exact ⟨_, update_of_ne hp .., fun _ => rfl⟩

theorem Exits.id (h : Exits s s' nx code) (p : Ptr) : (s'.task p).id = (s.task p).id := by
  by_cases hp : p = s.current
  · subst hp
    rw [h.self]
  · obtain ⟨st, heq⟩ := h.other p hp
    rw [heq]

theorem Exits.parent (h : Exits s s' nx code) (p : Ptr) : (s'.task p).parent = (s.task p).parent := by
  by_cases hp : p = s.current
  · subst hp
    rw [h.self]
  · obtain ⟨st, heq⟩ := h.other p hp
    rw [heq]

theorem Exits.entry (h : Exits s s' nx code) (hpc : s.pc s.current = .free) (hp : s'.pc p = .entry) :
    p ≠ s.current ∧ s.pc p = .entry := by
  rw [h.pc, update_apply] at hp
  split at hp
  · split at hp
    · cases hp
    · contradiction
  · refine ⟨?_, hp⟩
    rintro rfl
    rw [hpc] at hp
    cases hp

theorem Sane.live_current (h : Sane k s ring zs) : s.live s.current = true :=
  (h.live _).mp (List.mem_append_left _ h.current)

section

variable (h : Known k T s)
include h

theorem Known.moved (hs : Sane k s ring zs) (hm : Moved s s') : Known k T s' := by
  refine ⟨?_, fun p hp => ?_, fun p q hp hq heq => ?_, fun e he => ?_, fun p code hp => ?_,
    fun p hp hr => ?_, fun p hp hx hpc => ?_⟩
  · have hk : s'.live k = true := by
      by_contra hno
      have hexit := (hm.freed k h.root.1 (Bool.eq_false_iff.mpr hno)).1
      rw [(hs.alive k hs.kmain).1] at hexit
      cases hexit
    exact ⟨hk, (hm.live k hk).2.id.trans h.root.2⟩
  · obtain ⟨hl, hsame⟩ := hm.live p hp
    rw [hsame.id, hm.nextId]
    exact h.lt p hl
  · obtain ⟨hl, hsame⟩ := hm.live p hp
    obtain ⟨hl', hsame'⟩ := hm.live q hq
    rw [hsame.id, hsame'.id] at heq
    exact h.inj p q hl hl' heq
  · rw [hm.nextId]
    exact h.below e he
  · obtain ⟨hl, hsame⟩ := hm.live p hp
    rw [hsame.id, hsame.hasExited, hsame.exitCode]
    exact h.ended p code hl
  · obtain ⟨hl, hsame⟩ := hm.live p hp
    rw [hsame.reapedByParent] at hr
    rw [hsame.hasExited]
    exact h.reaped p hl hr
  · obtain ⟨hl, hsame⟩ := hm.live p hp
    rw [hsame.hasExited] at hx
    exact h.begun p hl hx (hm.pc p hpc)

theorem Known.spawned (ha : s.live a = false) (htask : s'.task = update s.task a { id := s.nextId, isUser := user })
    (hlive : s'.live = update s.live a true) (hid : s'.nextId = s.nextId + 1) (hpc : s'.pc = update s.pc a .entry) :
    Known k T s' := by
  have hnew : s'.task a = { id := s.nextId, isUser := user } := by rw [htask, update_self]
  have hold : ∀ p, s'.live p = true → p = a ∨ p ≠ a ∧ s.live p = true ∧ s'.task p = s.task p ∧ s'.pc p = s.pc p := by
    intro p hp
    by_cases hpa : p = a
    · exact Or.inl hpa
    · rw [hlive, update_of_ne hpa] at hp
      exact Or.inr ⟨hpa, hp, by rw [htask, update_of_ne hpa], by rw [hpc, update_of_ne hpa]⟩
  refine ⟨?_, fun p hp => ?_, fun p q hp hq heq => ?_, fun e he => ?_, fun p code hp => ?_,
    fun p hp hr => ?_, fun p hp hx => ?_⟩
  · have hka : k ≠ a := by
      rintro rfl
      rw [h.root.1] at ha
      cases ha
    rw [hlive, htask, update_of_ne hka, update_of_ne hka]
    exact h.root
  · rw [hid]
    rcases hold p hp with rfl | ⟨-, hl, heq, -⟩
    · rw [hnew]
      exact Nat.lt_succ_self _
    · rw [heq]
      exact Nat.lt_succ_of_lt (h.lt p hl)
  · rcases hold p hp with rfl | ⟨-, hl, hp', -⟩
    · rcases hold q hq with rfl | ⟨-, hl', hq', -⟩
      · rfl
      · rw [hnew, hq'] at heq
        exact absurd heq (Nat.ne_of_gt (h.lt q hl'))
    · rcases hold q hq with rfl | ⟨-, hl', hq', -⟩
      · rw [hnew, hp'] at heq
        exact absurd heq (Nat.ne_of_lt (h.lt p hl))
      · rw [hp', hq'] at heq
        exact h.inj p q hl hl' heq
  · rw [hid]
    exact (h.below e he).mono (Nat.le_succ _)
  · rcases hold p hp with rfl | ⟨-, hl, hp', -⟩
    · rw [hnew]
      refine iff_of_false (fun hm => ?_) (fun hx => by cases hx.1)
      exact Nat.lt_irrefl _ (h.below _ hm)
    · rw [hp']
      exact h.ended p code hl
  · rcases hold p hp with rfl | ⟨-, hl, hp', -⟩
    · rw [hnew] at hr
      cases hr
    · rw [hp'] at hr ⊢
      exact h.reaped p hl hr
  · rcases hold p hp with rfl | ⟨-, hl, hp', hpc'⟩
    · rw [hnew] at hx
      cases hx
    · rw [hp'] at hx
      rw [hpc']
      exact h.begun p hl hx

theorem Known.linked (hs : Sane k s ring zs) (hc : s.live c = true) :
    Known k (.linked (s.task s.current).id (s.task c).id :: T)
    (s.setTask c fun t => { t with parent := s.current }) := by
  refine ⟨⟨h.root.1, ?_⟩, fun p hp => ?_, fun p q hp hq heq => ?_, fun e he => ?_, fun p code hp =>
    ?_, fun p hp hr => ?_, fun p hp hx => ?_⟩
  · obtain ⟨q, hq, -⟩ := linked_task s c k
    rw [hq]
    exact h.root.2
  · obtain ⟨q, hq, -⟩ := linked_task s c p
    rw [hq]
    exact h.lt p hp
  · obtain ⟨q', hq', -⟩ := linked_task s c q
    obtain ⟨p', hp', -⟩ := linked_task s c p
    rw [hq', hp'] at heq
    exact h.inj p q hp hq heq
  · rcases List.mem_cons.mp he with rfl | he
    · exact ⟨h.lt _ hs.live_current, h.lt c hc⟩
    · exact h.below e he
  · obtain ⟨q, hq, -⟩ := linked_task s c p
    rw [hq]
    refine Iff.trans ?_ (h.ended p code hp)
    simp
  · obtain ⟨q, hq, -⟩ := linked_task s c p
    rw [hq] at hr ⊢
    exact h.reaped p hp hr
  · obtain ⟨q, hq, -⟩ := linked_task s c p
    rw [hq] at hx
    exact h.begun p hp hx

theorem Known.exited (hs : Sane k s ring zs) (hpc : s.pc s.current = .free) (hx : Exits s s' nx code) :
    Known k (.exited (s.task s.current).id code :: T) s' := by
  refine ⟨?_, fun p hp => ?_, fun p q hp hq heq => ?_, fun e he => ?_, fun p code' hp => ?_,
    fun p hp hr => ?_, fun p hp hxp hpc' => ?_⟩
  · rw [hx.live, hx.id]
    exact h.root
  · rw [hx.live] at hp
    rw [hx.id, hx.nextId]
    exact h.lt p hp
  · rw [hx.live] at hp hq
    rw [hx.id, hx.id] at heq
    exact h.inj p q hp hq heq
  · rw [hx.nextId]
    rcases List.mem_cons.mp he with rfl | he
    · exact h.lt _ hs.live_current
    · exact h.below e he
  · rw [hx.live] at hp
    rw [hx.id]
    rw [List.mem_cons, h.ended p code' hp]
    by_cases hpc : p = s.current
    · subst hpc
      rw [hx.self, (hs.alive _ hs.current).1]
      simp only [Event.exited.injEq, true_and, Bool.false_eq_true, false_and, or_false]
      exact eq_comm
    · have hne : (s.task p).id ≠ (s.task s.current).id := fun heq => hpc (h.inj p _ hp hs.live_current heq)
      obtain ⟨st, heq⟩ := hx.other p hpc
      rw [heq]
      simp [hne]
  · rw [hx.live] at hp
    by_cases hpc : p = s.current
    · subst hpc
      rw [hx.self]
    · obtain ⟨st, heq⟩ := hx.other p hpc
      rw [heq] at hr ⊢
      exact h.reaped p hp hr
  · rw [hx.live] at hp
    obtain ⟨hne, hpe⟩ := hx.entry hpc hpc'
    obtain ⟨st, heq⟩ := hx.other p hne
    rw [heq] at hxp
    exact h.begun p hp hxp hpe

theorem Known.waited (hs : Sane k s ring zs) (hz : s.live z = true) (hexit : (s.task z).hasExited = true) :
    Known k (.waited (s.task s.current).id (s.task z).id (s.task z).exitCode :: T)
      ((s.setTask z fun t => { t with reapedByParent := true }).setPc s.current .free) := by
  refine ⟨⟨h.root.1, ?_⟩, fun p hp => ?_, fun p q hp hq heq => ?_, fun e he => ?_, fun p code hp =>
    ?_, fun p hp hr => ?_, fun p hp hx hpc => ?_⟩
  · obtain ⟨r, hr, -⟩ := waited_task s z k
    rw [hr]
    exact h.root.2
  · obtain ⟨r, hr, -⟩ := waited_task s z p
    rw [hr]
    exact h.lt p hp
  · obtain ⟨r, hr, -⟩ := waited_task s z p
    obtain ⟨r', hr', -⟩ := waited_task s z q
    rw [hr, hr'] at heq
    exact h.inj p q hp hq heq
  · rcases List.mem_cons.mp he with rfl | he
    · exact ⟨h.lt _ hs.live_current, h.lt z hz⟩
    · exact h.below e he
  · obtain ⟨r, hr, -⟩ := waited_task s z p
    rw [hr]
    refine Iff.trans ?_ (h.ended p code hp)
    simp
  · obtain ⟨r, heq, hother⟩ := waited_task s z p
    rw [heq] at hr ⊢
    by_cases hpz : p = z
    · subst hpz
      exact hexit
    · exact h.reaped p hp ((hother hpz).symm.trans hr)
  · obtain ⟨r, heq, -⟩ := waited_task s z p
    rw [heq] at hx
    change update s.pc s.current .free p = .entry at hpc
    rw [update_apply] at hpc
    split at hpc
    · cases hpc
    · exact h.begun p hp hx hpc

theorem Known.step (hs : Sane k s ring zs) (he : Effect k s op s') : Known k (op.events s ++ T) s' := by
  cases he with
  | moved hev hm => exact hev ▸ h.moved hs hm
  | spawned hop ha0 ha htask hlive hid hpc => exact hop ▸ h.spawned ha htask hlive hid hpc
  | linked hop hc h0 hne => exact hop ▸ h.linked hs hc
  | exited hop hpc hx => exact hop ▸ h.exited hs hpc hx
  | waited hev hop hop' hz hexit hparent hreap => exact hev ▸ h.waited hs hz hexit

end

end ComputerOS.Tasks
