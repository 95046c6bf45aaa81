import ComputerOS.Fat32.Safe

/-!
Every step of the operations on other names keeps an entry safe, whether it succeeds or gives up.
The clusters of the directory stay as they are until the new entry is written.
-/
namespace ComputerOS.Fat32

open Function Fallible

section Steps

variable {p : Vol → Prop} {E : St → Prop}

theorem kmalloc_keeps (p : Vol → Prop) (E : St → Prop) :
    Triple (fun s => p s.vol) kmalloc (fun _ s => p s.vol) E :=
  fun _ hs => ⟨fun _ _ => hs, fun hn => by cases hn⟩

theorem getVol_keeps (p : Vol → Prop) (E : St → Prop) :
    Triple (fun s => p s.vol) getVol (fun v s => p s.vol ∧ v = s.vol) E :=
  fun _ hs => ⟨fun _ ha => ⟨hs, (Option.some.inj ha).symm⟩, fun hn => by cases hn⟩

theorem setVol_spec {f : Vol → Vol} {q : Vol → Prop} (h : ∀ v, p v → q (f v)) :
    Triple (fun s => p s.vol) (setVol f) (fun _ s => q s.vol) E := Triple.modify fun s hs => h s.vol hs

theorem needBuf_keeps (h : ∀ s : St, p s.vol → E s) : Triple (fun s => p s.vol) needBuf (fun _ s => p s.vol) E := by
  refine (kmalloc_keeps p E).bind fun b => ?_
  split
  · exact Triple.pure fun s hs => hs
  · exact Triple.fail h

theorem lookup_keeps (p : Vol → Prop) (E : St → Prop) (find : Vol → Option Visit) :
    Triple (fun s => p s.vol) (lookup find) (fun r s => p s.vol ∧ ∀ u, r = some u → find s.vol = some u) E := by
  refine (kmalloc_keeps p E).bind fun b => ?_
  split
  · refine (kmalloc_keeps p E).bind fun b' => ?_
    split
    · refine (getVol_keeps p E).bind fun v => Triple.pure fun s hs => ⟨hs.1, fun u hu => ?_⟩
      rw [← hs.2]
      exact hu
    · exact Triple.pure fun s hs => ⟨hs, fun u hu => by cases hu⟩
  · exact Triple.pure fun s hs => ⟨hs, fun u hu => by cases hu⟩

end Steps

variable {g : Geom} {v₀ v : Vol} {F : ℕ → Prop} {n dir c i last : ℕ} {w u : Visit} {D : List ℕ} {s : St}

theorem allocCluster_eq (g : Geom) (s : St) : (allocCluster g).run s =
    ((List.range' 2 (g.fatEntries - 2)).find? (isFree s.vol)).elim (some none, s)
      fun c => (some (some c), { s with vol := setEntry g c FAT32_EOC s.vol }) := by
  have hget : getVol.run s = (some s.vol, s) := rfl
  rw [allocCluster, bind_of_some hget]
  cases (List.range' 2 (g.fatEntries - 2)).find? (isFree s.vol) <;> rfl

theorem allocCluster_run (g : Geom) (s : St) : (allocCluster g).run s = (some none, s) ∨
    ∃ c, 2 ≤ c ∧ c < g.fatEntries ∧ isFree s.vol c = true ∧
      (allocCluster g).run s = (some (some c), { s with vol := setEntry g c FAT32_EOC s.vol }) := by
  rw [allocCluster_eq]
  rcases hfind : (List.range' 2 (g.fatEntries - 2)).find? (isFree s.vol) with _ | c
  · exact Or.inl rfl
  · have hmem := List.mem_range'_1.mp (List.mem_of_find?_eq_some hfind)
    exact Or.inr ⟨c, hmem.1, by omega, List.find?_some hfind, rfl⟩

/-- The entry is safe and the directory is as it was. -/
structure Before (g : Geom) (v₀ : Vol) (F : ℕ → Prop) (n dir : ℕ) (w : Visit) (D : List ℕ) (v : Vol) : Prop extends
    Safe g v₀ F dir w D v where
  small : D.length ≤ n
  same : ∀ c ∈ D, v.disk (realCluster g c) = v₀.disk (realCluster g c)

/-- The entry is safe in a directory that may have grown. -/
def Survives (g : Geom) (v₀ : Vol) (F : ℕ → Prop) (dir : ℕ) (w : Visit) (s : St) : Prop :=
  ∃ D, Safe g v₀ F dir w D s.vol

namespace Before

theorem setEntry {x y : ℕ} (h : Before g v₀ F n dir w D v) (hx : ¬ Guarded g F D x) :
    Before g v₀ F n dir w D (setEntry g x y v) :=
  ⟨h.toSafe.setEntry hx, h.small, fun c hc => by rw [disk_setEntry]; exact h.same c hc⟩

theorem writeCell {x : ℕ} {cell : Mem} (h : Before g v₀ F n dir w D v) (hx : ¬ Guarded g F D x) :
    Before g v₀ F n dir w D { v with disk := update v.disk x cell } := by
  refine ⟨h.toSafe.writeCell hx, h.small, fun c hc => ?_⟩
  dsimp only
  rw [update_of_ne, h.same c hc]
  rintro rfl
  exact hx (Or.inr (List.mem_map_of_mem hc))

theorem chain_eq (h : Before g v₀ F n dir w D v) : Fat32.chain g v n dir = D := h.chain n h.small

theorem survives (h : Before g v₀ F n dir w D s.vol) : Survives g v₀ F dir w s := ⟨D, h.toSafe⟩

end Before

theorem allocCluster_before (E : St → Prop) : Triple (fun s => Before g v₀ F n dir w D s.vol) (allocCluster g)
    (fun r s => Before g v₀ F n dir w D s.vol ∧ ∀ c, r = some c → ¬ Guarded g F D c ∧ isFree s.vol c = false) E := by
  intro s hs
  rcases allocCluster_run g s with hrun | ⟨c, -, hlt, hfree, hrun⟩
  · rw [hrun]
    refine ⟨fun r hr => ?_, fun hn => by cases hn⟩
    obtain rfl := Option.some.inj hr
    exact ⟨hs, fun c hc => by cases hc⟩
  · rw [hrun]
    have hnot := hs.toSafe.not_guarded hfree
    refine ⟨fun r hr => ?_, fun hn => by cases hn⟩
    obtain rfl := Option.some.inj hr
    refine ⟨hs.setEntry hnot, fun x hx => ?_⟩
    obtain rfl := Option.some.inj hx
    refine ⟨hnot, ?_⟩
    unfold isFree
    dsimp only
    rw [fat_setEntry_self hlt]
    decide

/-- Writing the new clusters of a file; the last one is linked to the next. -/
theorem writeLoop_before (fuel : ℕ) (data : Str) (first : ℕ) (hlast : first ≠ 0 → ¬ Guarded g F D last) :
    Triple (fun s => Before g v₀ F n dir w D s.vol) (writeLoop g fuel data first last)
      (fun _ s => Before g v₀ F n dir w D s.vol) (Survives g v₀ F dir w) := by
  induction fuel generalizing data first last with
  | zero => exact Triple.pure fun s hs => hs
  | succ fuel ih =>
    rw [writeLoop]
    split
    · exact Triple.pure fun s hs => hs
    · refine (allocCluster_before _).bind fun r => ?_
      rcases r with _ | c
      · exact Triple.fail fun s hs => hs.1.survives
      · refine Triple.mono (P := fun s => ¬ Guarded g F D c ∧ Before g v₀ F n dir w D s.vol)
          (Triple.assume fun hc => ?_) (fun s hs => ⟨(hs.2 c rfl).1, hs.1⟩) (fun _ _ h => h) fun _ h => h
        have hrest : Triple (fun s => Before g v₀ F n dir w D s.vol)
            (setVol (setEntry g c FAT32_EOC) >>= fun _ => writeCluster c (cellOf (data.take g.bytesPerCluster)) >>=
              fun _ => writeLoop g fuel (data.drop g.bytesPerCluster) (if first = 0 then c else first) c)
            (fun _ s => Before g v₀ F n dir w D s.vol) (Survives g v₀ F dir w) := by
          refine (setVol_spec fun v hv => hv.setEntry hc).bind fun _ => ?_
          refine (setVol_spec fun v hv => hv.writeCell hc).bind fun _ => ?_
          exact ih _ _ fun _ => hc
        dsimp only
        by_cases hf : first ≠ 0
        · rw [if_pos hf]
          exact (setVol_spec fun v hv => hv.setEntry (hlast hf)).bind fun _ => hrest
        · rw [if_neg hf]
          exact hrest

/-- Freeing a file that shares no cluster with what is guarded. -/
theorem freeChain_before (hg : g.fatEntries ≤ FAT32_EOC) {start : ℕ} (hv : Before g v₀ F n dir w D v)
    (hstart : ∀ x, Guarded g F D x → ¬ Reach g v start x) :
    Before g v₀ F n dir w D (freeLoop g (g.totalClusters + 2) start v) := by
  refine ⟨hv.toSafe.of_unguarded (fun x hx => freeLoop_other hg (hstart x hx))
    fun x _ => by rw [disk_freeLoop], hv.small, fun c hc => ?_⟩
  rw [disk_freeLoop]
  exact hv.same c hc

theorem flushFat_keeps : Triple (Survives g v₀ F dir w) (flushFat g)
    (fun _ => Survives g v₀ F dir w) (Survives g v₀ F dir w) :=
  Triple.modify fun _ ⟨D, hD⟩ => ⟨D, hD.of_unguarded (fun _ _ => rfl) fun _ _ => rfl⟩

/-- Free slots for a new entry, in a cluster of the directory. -/
def FreeAt (g : Geom) (v₀ : Vol) (F : ℕ → Prop) (dir : ℕ) (w : Visit) (count : ℕ) (p : ℕ × ℕ) (s : St) : Prop :=
  ∃ D, Safe g v₀ F dir w D s.vol ∧ p.1 ∈ D ∧
    ∀ j < count, slotFree (slotOf (s.vol.disk (realCluster g p.1)) (p.2 + j)) = true

theorem growDir_freeAt (hg : g.fatEntries ≤ FAT32_EOC) (count : ℕ) (hlast : D.getLast? = some last) :
    Triple (fun s => Safe g v₀ F dir w D s.vol) (growDir g last)
      (fun p s => p.2 = 0 ∧ FreeAt g v₀ F dir w count p s) (Survives g v₀ F dir w) := by
  intro s hs
  rcases allocCluster_run g s with hrun | ⟨c, h2, hlt, hfree, hrun⟩
  · have hgrow : (growDir g last).run s = (none, s) := by
      have hext : (extendChain g (realCluster g last)).run s = (some none, s) := by
        rw [extendChain, bind_of_some hrun]
        rfl
      rw [growDir, bind_of_some hext]
      rfl
    rw [hgrow]
    exact ⟨fun p hp => (by cases hp), fun _ => ⟨D, hs⟩⟩
  · obtain ⟨V, hV⟩ : ∃ V, setEntry g c FAT32_EOC (setEntry g (realCluster g last) c
        (setEntry g c FAT32_EOC s.vol)) = V := ⟨_, rfl⟩
    have hVdisk : V.disk = s.vol.disk := by
      rw [← hV]
      simp only [disk_setEntry]
    have hgrow : (growDir g last).run s =
        (some (c, 0), { s with vol := { V with disk := update V.disk c fun _ => 0 } }) := by
      have hext : (extendChain g (realCluster g last)).run s = (some (some c), { s with vol := V }) := by
        rw [extendChain, bind_of_some hrun, ← hV]
        rfl
      rw [growDir, bind_of_some hext]
      rfl
    rw [hgrow]
    refine ⟨fun p hp => ?_, fun hn => by cases hn⟩
    obtain rfl := Option.some.inj hp
    have hsafe := hs.grow hg hlast h2 hlt hfree
    rw [hV] at hsafe
    refine ⟨rfl, D ++ [c], by rw [hVdisk]; exact hsafe, by simp, fun j _ => ?_⟩
    dsimp only
    rw [realCluster_of_ne (by omega), update_self]
    rfl

theorem Safe.exists_last (h : Safe g v₀ F dir w D v) : ∃ last, D.getLast? = some last := by
  cases hD : D.getLast? with
  | some last => exact ⟨last, rfl⟩
  | none =>
    rw [List.getLast?_eq_none_iff] at hD
    have hseen := h.seen
    rw [hD] at hseen
    cases hseen

theorem Before.getLastD_eq (h : Before g v₀ F n dir w D v) (hlast : D.getLast? = some last) :
    (Fat32.chain g v n dir).getLastD dir = last := by
  rw [h.chain_eq, List.getLastD_eq_getLast?, hlast]
  rfl

theorem dirAllocSlot_freeAt (hg : g.fatEntries ≤ FAT32_EOC) (hroom : 0 < entriesPerCluster g) :
    Triple (fun s => Before g v₀ F n dir w D s.vol) (dirAllocSlot g n dir)
      (fun p s => p.2 < entriesPerCluster g ∧ FreeAt g v₀ F dir w 1 p s) (Survives g v₀ F dir w) := by
  refine (needBuf_keeps fun s hs => hs.survives).bind fun _ => ?_
  refine (getVol_keeps _ _).bind fun v => ?_
  split
  · rename_i p hfind
    refine Triple.pure fun s hs => ?_
    obtain ⟨hb, rfl⟩ := hs
    rw [hb.chain_eq] at hfind
    obtain ⟨hchunk, hidx, hentry⟩ := mem_slots (List.mem_of_find?_eq_some hfind)
    refine ⟨hidx, D, hb.toSafe, hchunk, fun j hj => ?_⟩
    obtain rfl : j = 0 := by omega
    have hfree := List.find?_some hfind
    rw [Nat.add_zero, ← hentry]
    exact hfree
  · intro s hs
    obtain ⟨hb, rfl⟩ := hs
    obtain ⟨last, hlast⟩ := hb.toSafe.exists_last
    rw [hb.getLastD_eq hlast]
    have hgrow := growDir_freeAt hg 1 hlast s hb.toSafe
    refine ⟨fun p hp => ⟨?_, (hgrow.1 p hp).2⟩, hgrow.2⟩
    rw [(hgrow.1 p hp).1]
    exact hroom

theorem slotOf_unmarkEnd (g : Geom) (cell : Mem) (j : ℕ) :
    slotOf (unmarkEnd g cell) j = slotOf cell j ∨ cell (32 * j) = 0 := by
  by_cases h0 : cell (32 * j) = 0
  · exact Or.inr h0
  · refine Or.inl (funext fun k => ?_)
    unfold slotOf unmarkEnd
    by_cases hk : k < 32
    · rw [if_pos hk, if_pos hk, if_neg]
      rintro ⟨hmod, -, hzero⟩
      obtain rfl : k = 0 := by omega
      exact h0 hzero
    · rw [if_neg hk, if_neg hk]

theorem freeRun_spec {cell : Mem} {count : ℕ} (h : freeRun g cell count = some i) :
    ∀ j < count, slotFree (slotOf cell (i + j)) = true := by
  have := List.find?_some h
  rw [decide_eq_true_iff] at this
  exact this.2

theorem allocSlotsLoop_spec (count : ℕ) {L : List ℕ} (hL : ∀ c ∈ L, c ∈ D) :
    Triple (fun s => Safe g v₀ F dir w D s.vol) (allocSlotsLoop g count L)
      (fun r s => Safe g v₀ F dir w D s.vol ∧ ∀ p, r = some p → FreeAt g v₀ F dir w count p s)
      (Survives g v₀ F dir w) := by
  induction L with
  | nil => exact Triple.pure fun s hs => ⟨hs, fun p hp => by cases hp⟩
  | cons c rest ih =>
    have hc := hL c List.mem_cons_self
    have hrest := ih fun x hx => hL x (List.mem_cons_of_mem _ hx)
    refine (getVol_keeps _ _).bind fun v => ?_
    split
    · rename_i i hrun
      refine Triple.pure fun s hs => ?_
      obtain ⟨hs, rfl⟩ := hs
      refine ⟨hs, fun p hp => ?_⟩
      obtain rfl := Option.some.inj hp
      exact ⟨D, hs, hc, freeRun_spec hrun⟩
    · dsimp only
      split
      · refine Triple.bind (Q := fun _ s => Safe g v₀ F dir w D s.vol) ?_ fun _ => hrest
        refine Triple.modify fun s hs => ?_
        obtain ⟨hs, rfl⟩ := hs
        exact hs.rewrite hc (mem_scan_unmark hs.nodup hc hs.seen fun j => slotOf_unmarkEnd g _ j)
      · exact hrest.mono (fun s hs => hs.1) (fun _ _ h => h) fun _ h => h

theorem dirAllocSlots_freeAt (hg : g.fatEntries ≤ FAT32_EOC) (count : ℕ) :
    Triple (fun s => Before g v₀ F n dir w D s.vol) (dirAllocSlots g n dir count)
      (fun p s => FreeAt g v₀ F dir w count p s) (Survives g v₀ F dir w) := by
  refine (needBuf_keeps fun s hs => hs.survives).bind fun _ => ?_
  refine (getVol_keeps _ _).bind fun v => ?_
  intro s hs
  obtain ⟨hb, rfl⟩ := hs
  obtain ⟨last, hlast⟩ := hb.toSafe.exists_last
  rw [hb.getLastD_eq hlast, hb.chain_eq]
  refine ((allocSlotsLoop_spec count fun c hc => hc).bind fun r => ?_) s hb.toSafe
  rcases r with _ | p
  · exact (growDir_freeAt hg count hlast).mono (fun s hs => hs.1) (fun p s hp => hp.2) fun _ h => h
  · exact Triple.pure fun s hs => hs.2 p rfl

theorem trim_of_lt {e : Mem} {j : ℕ} (hj : j < 32) : trim e j = e j := if_pos hj

theorem resets_trim {e : Mem} (h : attr e ≠ ATTR_LFN) : Resets (trim e) := by
  right
  unfold attr
  rw [trim_of_lt (by omega)]
  exact h

theorem putSlot_first {cell e : Mem} (h : e 0 ≠ 0) : putSlot cell i e (32 * i) ≠ 0 := by
  have hslot := congrFun (slotOf_putSlot cell i e i) 0
  rw [slotOf_zero, if_pos rfl, trim_of_lt (by omega)] at hslot
  rw [hslot]
  exact h

/-- A free slot is filled. -/
theorem dirPutEntry_fill {p : ℕ × ℕ} {e : Mem} (h0 : e 0 ≠ 0) (hattr : attr e ≠ ATTR_LFN)
    (hp : p.2 < entriesPerCluster g) :
    Triple (FreeAt g v₀ F dir w 1 p) (dirPutEntry g p.1 p.2 e) (fun _ => Survives g v₀ F dir w)
    (Survives g v₀ F dir w) := by
  rintro s ⟨D, hsafe, hc, hfree⟩
  have hput : Triple (fun s' : St => s'.vol = s.vol) (dirPutEntry g p.1 p.2 e) (fun _ => Survives g v₀ F dir w)
      (Survives g v₀ F dir w) := by
    refine (needBuf_keeps (p := fun v => v = s.vol) fun s' hs' => ⟨D, by rw [hs']; exact hsafe⟩).bind fun _ => ?_
    refine (getVol_keeps (fun v => v = s.vol) _).bind fun v => ?_
    refine Triple.modify fun s' hs' => ⟨D, ?_⟩
    obtain ⟨hs', rfl⟩ := hs'
    dsimp only
    rw [hs']
    refine hsafe.fill hc (i := p.2) (m := 0) (by omega) (fun j hj => hfree j (by omega)) (fun j hj => ?_)
      (fun j h1 h2 => ?_) ?_
    · rw [slotOf_putSlot, if_neg (by omega)]
      rfl
    · obtain rfl : j = p.2 := by omega
      exact putSlot_first h0
    · rw [Nat.add_zero, slotOf_putSlot, if_pos rfl]
      exact resets_trim hattr
  exact hput s rfl

theorem dirPutEntry_rewrite {e : Mem} (h0 : e 0 ≠ 0) (hattr : attr e ≠ ATTR_LFN) (hu : u ∈ scan [] (slots g v₀ D))
    (hne : u.chunk ≠ w.chunk ∨ u.idx ≠ w.idx) :
    Triple (fun s => Before g v₀ F n dir w D s.vol) (dirPutEntry g u.chunk u.idx e) (fun _ => Survives g v₀ F dir w)
      (Survives g v₀ F dir w) := by
  obtain ⟨hslot, -, -, hlfn⟩ := mem_scan hu
  obtain ⟨hc, hidx, hentry⟩ := mem_slots hslot
  dsimp only at hc hidx hentry
  refine (needBuf_keeps fun s hs => hs.survives).bind fun _ => ?_
  refine (getVol_keeps _ _).bind fun v => ?_
  refine Triple.modify fun s hs => ⟨D, ?_⟩
  obtain ⟨hs, rfl⟩ := hs
  have hold : slotOf (s.vol.disk (realCluster g u.chunk)) u.idx = u.entry := by
    rw [hs.same _ hc, hentry]
  refine hs.toSafe.rewrite hc (mem_scan_update hs.nodup hc hs.seen (i := u.idx) (m := 0) (by omega)
    (fun j hj => ?_) (fun hw => ?_) (fun j h1 h2 => ?_) (fun _ => ?_) ?_)
  · rw [slotOf_putSlot, if_neg (by omega)]
    rfl
  · omega
  · obtain rfl : j = u.idx := by omega
    exact putSlot_first h0
  · rw [Nat.add_zero, hold]
    exact Or.inr hlfn
  · rw [Nat.add_zero, slotOf_putSlot, if_pos rfl]
    exact resets_trim hattr

theorem lfnBefore_spec (cell : Mem) (i : ℕ) : lfnBefore cell i ≤ i ∧
    ∀ j, i - lfnBefore cell i ≤ j → j < i → attr (slotOf cell j) = ATTR_LFN := by
  induction i with
  | zero => exact ⟨le_rfl, fun j _ hj => by omega⟩
  | succ i ih =>
    rw [lfnBefore]
    split
    · exact ⟨by omega, fun j h1 h2 => by omega⟩
    · rename_i hlfn
      rw [not_or, not_not] at hlfn
      refine ⟨by omega, fun j h1 h2 => ?_⟩
      rcases Nat.lt_succ_iff_lt_or_eq.mp h2 with hlt | rfl
      · exact ih.2 j (by omega) hlt
      · exact hlfn.2

theorem slotOf_eraseSlots {cell : Mem} {j : ℕ} (h : ¬ (i - lfnBefore cell i ≤ j ∧ j ≤ i)) :
    slotOf (eraseSlots cell i) j = slotOf cell j := by
  funext k
  unfold slotOf eraseSlots
  by_cases hk : k < 32
  · rw [if_pos hk, if_pos hk, if_neg]
    rw [show (32 * j + k) / 32 = j by omega]
    exact fun hin => h hin.2
  · rw [if_neg hk, if_neg hk]

theorem eraseSlots_first {cell : Mem} {j : ℕ} (h : i - lfnBefore cell i ≤ j ∧ j ≤ i) :
    eraseSlots cell i (32 * j) = 0xE5 := by
  unfold eraseSlots
  rw [if_pos]
  rw [show 32 * j / 32 = j by omega]
  exact ⟨by omega, h⟩

/-- The entry of another file is deleted with its long name. -/
theorem dirDeleteSlot_keeps (hu : u ∈ scan [] (slots g v₀ D)) (hne : u.chunk ≠ w.chunk ∨ u.idx ≠ w.idx) :
    Triple (fun s => Before g v₀ F n dir w D s.vol) (dirDeleteSlot g u.chunk u.idx) (fun _ => Survives g v₀ F dir w)
      (Survives g v₀ F dir w) := by
  obtain ⟨hslot, -, -, hlfn⟩ := mem_scan hu
  obtain ⟨hc, hidx, hentry⟩ := mem_slots hslot
  dsimp only at hc hidx hentry
  refine (needBuf_keeps fun s hs => hs.survives).bind fun _ => ?_
  refine (getVol_keeps _ _).bind fun v => ?_
  refine Triple.modify fun s hs => ⟨D, ?_⟩
  obtain ⟨hs, rfl⟩ := hs
  have hold : slotOf (s.vol.disk (realCluster g u.chunk)) u.idx = u.entry := by
    rw [hs.same _ hc, hentry]
  obtain ⟨hle, hbefore⟩ := lfnBefore_spec (s.vol.disk (realCluster g u.chunk)) u.idx
  obtain ⟨k, hk⟩ : ∃ k, lfnBefore (s.vol.disk (realCluster g u.chunk)) u.idx = k := ⟨_, rfl⟩
  rw [hk] at hle hbefore
  have hlast : u.idx - k + k = u.idx := by omega
  refine hs.toSafe.rewrite hc (mem_scan_update hs.nodup hc hs.seen (i := u.idx - k) (m := k)
    (by omega) (fun j hj => ?_) (fun hw => ?_) (fun j h1 h2 => ?_) (fun _ => ?_) ?_)
  · refine slotOf_eraseSlots ?_
    rw [chunkOf, hk]
    omega
  · -- what is erased before the entry is part of a long name
    obtain ⟨hchunk, hlo, hhi⟩ := hw
    obtain ⟨hplace, -, -, hwlfn⟩ := hs.toSafe.place
    have hlt : w.idx < u.idx := by omega
    refine hwlfn ?_
    rw [hplace, hchunk]
    exact hbefore _ hlo hlt
  · rw [eraseSlots_first (by rw [chunkOf, hk]; omega)]
    decide
  · rw [hlast, hold]
    exact Or.inr hlfn
  · left
    rw [hlast, slotOf_zero]
    exact eraseSlots_first (by rw [chunkOf, hk]; omega)

end ComputerOS.Fat32
