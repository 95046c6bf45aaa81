import ComputerOS.Tasks.Model

/-!
The two lists of tasks as lists: the ring from `ready` on and the zombies. What each function of the
model does to them, and what it leaves alone.
-/
namespace ComputerOS.Tasks

open Function

variable {s s' : St} {ring zs todo done : List Ptr} {a p q t z prev : Ptr} {user : Bool} {n : ℕ}

theorem taskSpawn_eq (user : Bool) (h : s.ready ≠ 0) : (taskSpawn s a user).task = update s.task a
    { id := s.nextId, isUser := user } ∧ (taskSpawn s a user).live = update s.live a true ∧
    (taskSpawn s a user).current = s.current ∧ (taskSpawn s a user).pc = update s.pc a .entry := by
  unfold taskSpawn readyInsert
  simp only [if_neg h, and_self]

theorem taskSpawn_nextId (h : s.ready ≠ 0) : (taskSpawn s a user).nextId = s.nextId + 1 := by
  unfold taskSpawn readyInsert
  simp only [if_neg h]

/-- The tasks in the ring and the zombies; together they are all tasks there are. -/
structure Listed (s : St) (ring zs : List Ptr) : Prop where
  circular : Seg s.next s.ready ring s.ready
  chain : Seg s.next s.zombie zs 0
  nodup : (ring ++ zs).Nodup
  live : ∀ p, p ∈ ring ++ zs ↔ s.live p = true
  null : s.live 0 = false
  count : (ring ++ zs).length ≤ s.nextId

namespace Listed

theorem of_eq (h : Listed s ring zs) (hnext : s'.next = s.next) (hready : s'.ready = s.ready)
    (hzombie : s'.zombie = s.zombie) (hlive : s'.live = s.live) (hid : s'.nextId = s.nextId) : Listed s' ring zs := by
  refine ⟨?_, ?_, h.nodup, ?_, ?_, ?_⟩
  · rw [hnext, hready]
    exact h.circular
  · rw [hnext, hzombie]
    exact h.chain
  · rw [hlive]
    exact h.live
  · rw [hlive]
    exact h.null
  · rw [hid]
    exact h.count

theorem setTask (h : Listed s ring zs) (p : Ptr) (f : Task → Task) : Listed (s.setTask p f) ring zs :=
  h.of_eq rfl rfl rfl rfl rfl

theorem setPc (h : Listed s ring zs) (p : Ptr) (c : Pc) : Listed (s.setPc p c) ring zs := h.of_eq rfl rfl rfl rfl rfl

theorem switchTo (h : Listed s ring zs) (nx : Ptr) : Listed (switchTo s nx) ring zs := h.of_eq rfl rfl rfl rfl rfl

variable (h : Listed s ring zs)
include h

theorem ring_nodup : ring.Nodup := (List.nodup_append.mp h.nodup).1

theorem zombies_nodup : zs.Nodup := (List.nodup_append.mp h.nodup).2.1

theorem disjoint (hp : p ∈ ring) : p ∉ zs := fun hz => List.disjoint_of_nodup_append h.nodup hp hz

theorem ne_zero (hp : p ∈ ring ++ zs) : p ≠ 0 := by
  rintro rfl
  have hlive := (h.live 0).mp hp
  rw [h.null] at hlive
  cases hlive

theorem ring_ne_zero (hp : p ∈ ring) : p ≠ 0 := h.ne_zero (List.mem_append_left _ hp)

theorem zombie_ne_zero (hz : z ∈ zs) : z ≠ 0 := h.ne_zero (List.mem_append_right _ hz)

theorem ring_lt : ring.length < s.fuel := by
  have hcount := h.count
  rw [List.length_append] at hcount
  unfold St.fuel
  omega

theorem zombies_lt : zs.length < s.fuel := by
  have hcount := h.count
  rw [List.length_append] at hcount
  unfold St.fuel
  omega

theorem ring_eq (hp : p ∈ ring) : ∃ r, ring = s.ready :: r ∧ s.ready ∉ r ∧ s.ready ≠ 0 := by
  obtain ⟨x, r, rfl⟩ := List.exists_cons_of_ne_nil (List.ne_nil_of_mem hp)
  obtain rfl : s.ready = x := h.circular.1
  exact ⟨r, rfl, (List.nodup_cons.mp h.ring_nodup).1, h.ring_ne_zero List.mem_cons_self⟩

theorem taskSpawn (user : Bool) (hp : p ∈ ring) (ha : s.live a = false) (ha0 : a ≠ 0) :
    ∃ r, ring = s.ready :: r ∧ Listed (taskSpawn s a user) (s.ready :: a :: r) zs := by
  obtain ⟨r, rfl, hr, h0⟩ := h.ring_eq hp
  refine ⟨r, rfl, ?_⟩
  have hnew : a ∉ (s.ready :: r) ++ zs := by
    intro hm
    have hlive := (h.live a).mp hm
    rw [ha] at hlive
    cases hlive
  have hnot := fun hm => hnew (List.mem_append_left _ hm)
  have hzs := fun hm => hnew (List.mem_append_right _ hm)
  have hrun : Tasks.taskSpawn s a user = { s with
      task := update s.task a { id := s.nextId, isUser := user }
      live := update s.live a true
      nextId := s.nextId + 1
      pc := update s.pc a .entry
      next := update (update s.next a (s.next s.ready)) s.ready a } := if_neg h0
  rw [hrun]
  refine ⟨h.circular.insert hnot hr, (h.chain.update hzs).update (h.disjoint List.mem_cons_self),
    ?_, fun q => ?_, ?_, ?_⟩
  · refine (List.Perm.nodup_iff ?_).mpr (List.nodup_cons.mpr ⟨hnew, h.nodup⟩)
    exact List.Perm.swap ..
  · have hlive := h.live q
    dsimp only
    by_cases hq : q = a
    · subst hq
      rw [update_self]
      exact iff_of_true (by simp) rfl
    · rw [update_of_ne hq, ← hlive]
      simp [hq]
  · dsimp only
    rw [update_of_ne ha0.symm]
    exact h.null
  · have hcount := h.count
    simp only [List.length_append, List.length_cons] at hcount ⊢
    omega

/-- The current task leaves the ring, in which there are others. -/
theorem readyRemove (ht : t ∈ ring) (hp : p ∈ ring) (hpt : p ≠ t) :
    ∃ s', readyRemove s t = some s' ∧ s' = { s with next := s'.next, ready := s'.ready } ∧
      Seg s'.next s'.ready (ring.erase t) s'.ready ∧ ∀ x ∉ ring, s'.next x = s.next x := by
  obtain ⟨r, rfl, hr, h0⟩ := h.ring_eq hp
  have ht0 := h.ring_ne_zero ht
  obtain ⟨w, hw, hnext⟩ := h.circular.exists_prev ht
  have hfound := h.circular.seekRound (fun q => s.next q == t) hr (Nat.lt_of_succ_lt h.ring_lt)
  have hfind : ((s.ready :: r).find? fun q => s.next q == t) = some w := by
    cases hf : (s.ready :: r).find? fun q => s.next q == t with
    | none =>
      have hno := List.find?_eq_none.mp hf w hw
      exact absurd (beq_iff_eq.mpr hnext) hno
    | some v =>
      have hv : s.next v = t := beq_iff_eq.mp (List.find?_some (p := fun q => s.next q == t) hf)
      exact congrArg some (h.circular.next_inj h.ring_nodup (List.mem_of_find?_eq_some hf) hw (hv.trans hnext.symm))
  have hwt : w ≠ t := by
    rintro rfl
    have hone := h.circular.eq_singleton h.ring_nodup ht hnext
    rw [hone] at hp
    exact hpt (List.mem_singleton.mp hp)
  have hrun : Tasks.readyRemove s t = some { s with
      next := update (update s.next w (s.next t)) t 0
      ready := if s.ready = t then s.next t else s.ready } := by
    rw [Tasks.readyRemove, if_neg (not_or.mpr ⟨h0, ht0⟩), hfound, hfind]
    exact congrArg some (if_neg hwt)
  have hseg := h.circular.erase h.ring_nodup hw ht hnext hwt
  refine ⟨_, hrun, rfl, hseg.update fun hm => ?_, fun x hx => ?_⟩
  · exact (List.Nodup.mem_erase_iff h.ring_nodup).mp hm |>.1 rfl
  · dsimp only
    rw [update_of_ne (ne_of_mem_of_not_mem ht hx).symm, update_of_ne (ne_of_mem_of_not_mem hw hx).symm]

/-- The next task to run: another one of the ring that may, or the same when there is none. -/
theorem pickNext (hp : p ∈ ring) : ∃ nx ∈ ring, pickNext s p = some nx ∧ (nx ≠ p → (s.task nx).runnable = true) ∧
    (nx = p → ∀ q ∈ ring, q ≠ p → (s.task q).runnable = false) := by
  obtain ⟨l₁, l₂, rfl⟩ := List.append_of_mem hp
  obtain ⟨r, hr, -, -⟩ := h.ring_eq hp
  obtain ⟨-, hrot⟩ := h.circular.rotate
  have hlen : (l₂ ++ l₁).length < s.fuel := by
    have hlt := h.ring_lt
    simp only [List.length_append, List.length_cons] at hlt ⊢
    omega
  have hrun := hrot.seek (fun q => q == p || (s.task q).runnable) (by simp) hlen
  refine ⟨_, ?_, hrun, ?_, ?_⟩
  all_goals cases hf : (l₂ ++ l₁).find? fun q => q == p || (s.task q).runnable with
    | none => ?_
    | some w => ?_
  · exact hp
  · have hw := List.mem_of_find?_eq_some hf
    simp only [List.mem_append, List.mem_cons] at hw ⊢
    exact hw.symm.imp_right Or.inr
  · exact fun hne => absurd rfl hne
  · intro hne
    have hw := List.find?_some hf
    exact (Bool.or_eq_true_iff.mp hw).resolve_left fun heq => hne (beq_iff_eq.mp heq)
  · intro _ q hq hqp
    have hmem : q ∈ l₂ ++ l₁ := by
      simp only [List.mem_append, List.mem_cons, hqp, false_or] at hq ⊢
      exact hq.symm
    simpa [hqp] using List.find?_eq_none.mp hf q hmem
  · intro heq
    have hnodup := h.ring_nodup
    have hw := List.mem_of_find?_eq_some hf
    rw [Option.getD_some] at heq
    subst heq
    exfalso
    have hperm := (List.perm_middle.trans (List.Perm.cons w List.perm_append_comm)).nodup_iff.mp hnodup
    exact (List.nodup_cons.mp hperm).1 hw

end Listed

/-- `s'` is `s` without the tasks with `gone`. -/
structure Swept (s s' : St) (gone : Ptr → Prop) : Prop where
  current : s'.current = s.current
  ready : s'.ready = s.ready
  nextId : s'.nextId = s.nextId
  preempt : s'.preempt = s.preempt
  pc : s'.pc = s.pc
  task : ∀ q, ¬ gone q → s'.task q = s.task q
  live : ∀ q, s'.live q = true ↔ s.live q = true ∧ ¬ gone q

theorem freeZombie_swept (s : St) (prev z : Ptr) : Swept s (freeZombie s prev z) fun q => q = z := by
  refine ⟨rfl, rfl, rfl, rfl, rfl, fun q hq => ?_, fun q => ?_⟩
  · unfold freeZombie
    dsimp only
    split
    · exact update_of_ne hq ..
    · rfl
  · unfold freeZombie
    dsimp only
    by_cases hq : q = z
    · simp [hq]
    · simp [hq]

/-- The task freed was the first one of the list, or came behind `prev`. -/
theorem freeZombie_chain (h : Seg s.next s.zombie (done ++ z :: todo) 0) (hnodup : (done ++ z :: todo).Nodup)
    (h0 : 0 ∉ done) : Seg (freeZombie s (done.getLastD 0) z).next
      (freeZombie s (done.getLastD 0) z).zombie (done ++ todo) 0 ∧ ∀ q ∉ done,
      (freeZombie s (done.getLastD 0) z).next q = s.next q := by
  unfold freeZombie
  obtain ⟨h1, h2⟩ := seg_middle.mp h
  rcases List.eq_nil_or_concat done with rfl | ⟨d, w, rfl⟩
  · exact ⟨h2, fun _ _ => rfl⟩
  · rw [List.concat_eq_append] at h0 h1 hnodup ⊢
    have hw : w ≠ 0 := by
      rintro rfl
      simp at h0
    rw [List.getLastD_concat]
    simp only [if_neg hw]
    refine ⟨?_, fun q hq => ?_⟩
    · obtain ⟨h3, h4⟩ := seg_middle.mp h1
      rw [List.append_assoc] at hnodup
      have hd : w ∉ d := fun hm => List.disjoint_of_nodup_append hnodup hm (by simp)
      have hrest := (List.nodup_append.mp hnodup).2.1
      have ht : w ∉ todo := fun hm => (List.nodup_cons.mp hrest).1 (List.mem_cons_of_mem _ hm)
      rw [List.append_assoc]
      refine seg_middle.mpr ⟨h3.update hd, ?_⟩
      rw [update_self]
      exact h2.update ht
    · refine update_of_ne ?_ ..
      rintro rfl
      simp at hq

theorem reapFrom_spec (h : Seg s.next s.zombie (done ++ todo) 0) (hz : Seg s.next z todo 0)
    (hnodup : (done ++ todo).Nodup) (h0 : 0 ∉ done ++ todo) (hn : todo.length < n) :
    ∃ s', reapFrom n (done.getLastD 0) z s = some s' ∧
      Seg s'.next s'.zombie (done ++ todo.filter fun q => !(s.task q).reapedByParent) 0 ∧
      (∀ q ∉ done ++ todo, s'.next q = s.next q) ∧
      Swept s s' fun q => q ∈ todo ∧ (s.task q).reapedByParent = true := by
  induction todo generalizing s done z n with
  | nil =>
    obtain ⟨m, rfl⟩ := Nat.exists_eq_succ_of_ne_zero (Nat.ne_of_gt hn)
    obtain rfl : z = 0 := hz
    refine ⟨s, if_pos rfl, h, fun _ _ => rfl, rfl, rfl, rfl, rfl, rfl, fun _ _ => rfl, fun q => ?_⟩
    simp
  | cons x todo ih =>
    obtain ⟨m, rfl⟩ := Nat.exists_eq_succ_of_ne_zero (Nat.ne_zero_of_lt hn)
    obtain ⟨rfl, hz⟩ := hz
    have hz0 : z ≠ 0 := by
      rintro rfl
      simp at h0
    have hlen : todo.length < m := Nat.lt_of_succ_lt_succ hn
    rw [reapFrom, if_neg hz0]
    by_cases hreap : (s.task z).reapedByParent = true
    · rw [if_pos hreap]
      have hdone : 0 ∉ done := fun hm => h0 (List.mem_append_left _ hm)
      obtain ⟨hchain, hkeep⟩ := freeZombie_chain h hnodup hdone
      have hswept := freeZombie_swept s (done.getLastD 0) z
      have hperm : (z :: (done ++ todo)).Nodup := List.perm_middle.nodup_iff.mp hnodup
      have hzt : z ∉ done ++ todo := (List.nodup_cons.mp hperm).1
      have htodo : ∀ q ∈ todo, (freeZombie s (done.getLastD 0) z).task q = s.task q := fun q hq =>
        hswept.task q fun heq => hzt (List.mem_append_right _ (heq ▸ hq))
      have hseg : Seg (freeZombie s (done.getLastD 0) z).next (s.next z) todo 0 := by
        refine hz.congr fun q hq => hkeep q fun hm => ?_
        exact List.disjoint_of_nodup_append (List.nodup_cons.mp hperm).2 hm hq
      obtain ⟨s', hrun, hlist, hnext, hsw⟩ := ih hchain hseg (List.nodup_cons.mp hperm).2
        (fun hm => h0 (by
          rw [List.mem_append] at hm ⊢
          exact hm.imp_right (List.mem_cons_of_mem _))) hlen
      refine ⟨s', hrun, ?_, fun q hq => ?_, hsw.current.trans hswept.current,
        hsw.ready.trans hswept.ready, hsw.nextId.trans hswept.nextId,
        hsw.preempt.trans hswept.preempt, hsw.pc.trans hswept.pc, fun q hq => ?_, fun q => ?_⟩
      · rw [List.filter_cons, hreap]
        rw [List.filter_congr fun q hq => by rw [htodo q hq]] at hlist
        exact hlist
      · rw [List.mem_append, List.mem_cons, not_or, not_or] at hq
        rw [hnext q (fun hm => (List.mem_append.mp hm).elim hq.1 hq.2.2), hkeep q hq.1]
      · have hqz : q ≠ z := fun heq => hq ⟨heq ▸ List.mem_cons_self, heq ▸ hreap⟩
        have hsame := hswept.task q hqz
        rw [hsw.task q fun hm => hq ⟨List.mem_cons_of_mem _ hm.1, hsame ▸ hm.2⟩, hsame]
      · rw [hsw.live, hswept.live]
        by_cases hqz : q = z
        · subst hqz
          simp [hreap]
        · have hsame := hswept.task q hqz
          rw [hsame]
          simp [hqz]
    · rw [if_neg hreap]
      have hfalse : (s.task z).reapedByParent = false := Bool.eq_false_iff.mpr hreap
      have hmove : done ++ z :: todo = done ++ [z] ++ todo := by simp
      obtain ⟨s', hrun, hlist, hnext, hsw⟩ := ih (hmove ▸ h) hz (hmove ▸ hnodup) (hmove ▸ h0) hlen
      rw [List.getLastD_concat] at hrun
      refine ⟨s', hrun, ?_, fun q hq => hnext q (hmove ▸ hq), hsw.current, hsw.ready, hsw.nextId, hsw.preempt, hsw.pc,
        fun q hq => hsw.task q fun hm => hq ⟨List.mem_cons_of_mem _ hm.1, hm.2⟩, fun q => ?_⟩
      · rw [List.filter_cons, hfalse]
        simpa using hlist
      · rw [hsw.live]
        refine and_congr_right fun _ => not_congr ⟨fun hm => ⟨List.mem_cons_of_mem _ hm.1, hm.2⟩, fun hm => ?_⟩
        rcases List.mem_cons.mp hm.1 with rfl | hmem
        · exact absurd hm.2 hreap
        · exact ⟨hmem, hm.2⟩

theorem Listed.reapZombies (h : Listed s ring zs) :
    ∃ s', reapZombies s = some s' ∧ Listed s' ring (zs.filter fun q => !(s.task q).reapedByParent) ∧
      Swept s s' fun q => q ∈ zs ∧ (s.task q).reapedByParent = true := by
  have h0 : 0 ∉ zs := fun hm => h.zombie_ne_zero hm rfl
  obtain ⟨s', hrun, hlist, hnext, hsw⟩ :=
    reapFrom_spec (show Seg s.next s.zombie ([] ++ zs) 0 from h.chain) h.chain h.zombies_nodup h0 h.zombies_lt
  refine ⟨s', hrun, ⟨?_, hlist, ?_, fun q => ?_, ?_, ?_⟩, hsw⟩
  · rw [hsw.ready]
    exact h.circular.congr fun q hq => hnext q (h.disjoint hq)
  · exact h.nodup.sublist (List.Sublist.append_left List.filter_sublist _)
  · rw [hsw.live, ← h.live, List.mem_append, List.mem_append, List.mem_filter]
    by_cases hq : q ∈ ring
    · simp [hq, h.disjoint hq]
    · by_cases hz : q ∈ zs <;> simp [hq, hz]
  · refine Bool.eq_false_iff.mpr fun hlive => ?_
    have := ((hsw.live 0).mp hlive).1
    rw [h.null] at this
    cases this
  · rw [hsw.nextId]
    refine Nat.le_trans ?_ h.count
    rw [List.length_append, List.length_append]
    exact Nat.add_le_add_left (List.length_filter_le ..) _

end ComputerOS.Tasks
