import ComputerOS.Fat32.Runs

/-!
A name that is inserted and deleted again, whatever the heap answers. The directory has one entry
more in between, which is listed under the name; the other entries have the slots, the bytes and the
long names that they had.
-/
namespace ComputerOS.Fat32

open Function Fallible

variable {g : Geom} {v v' : Vol} {n d c i count : ℕ} {T X : List ℕ} {s s' : St} {A : Str} {e cell : Mem}

/-- A byte of a name that can be printed, and is no blank. -/
def Printable (c : UInt8) : Prop := 33 ≤ c ∧ c ≤ 126

instance (c : UInt8) : Decidable (Printable c) := inferInstanceAs (Decidable (_ ∧ _))

theorem forall_byte {p : UInt8 → Prop} (h : ∀ n < 256, p (UInt8.ofNat n)) (c : UInt8) : p c := by
  have := h c.toNat c.toNat_lt
  rwa [UInt8.ofNat_toNat] at this

theorem lower_upper (c : UInt8) : lower (upper c) = lower c :=
  forall_byte (p := fun c => lower (upper c) = lower c) (by decide +kernel) c

theorem lower_lower (c : UInt8) : lower (lower c) = lower c :=
  forall_byte (p := fun c => lower (lower c) = lower c) (by decide +kernel) c

theorem Printable.ascii {c : UInt8} (h : Printable c) : Ascii c :=
  forall_byte (p := fun c => Printable c → c ≠ 0 ∧ c < 128) (by decide +kernel) c h

theorem Printable.upper_ne {c : UInt8} (h : Printable c) : upper c ≠ 32 :=
  forall_byte (p := fun c => Printable c → upper c ≠ 32) (by decide +kernel) c h

theorem Printable.lower_ne {c : UInt8} (h : Printable c) : lower c ≠ 0 :=
  forall_byte (p := fun c => Printable c → lower c ≠ 0) (by decide +kernel) c h

theorem map_lower_map_upper (A : Str) : (A.map upper).map lower = A.map lower := by
  rw [List.map_map]
  exact List.map_congr_left fun c _ => lower_upper c

theorem stem_dot_ext (h : 46 ∈ A) : A = stemOf A ++ 46 :: extOf A := by
  obtain ⟨r, hr⟩ : ∃ r, A.reverse.dropWhile (· ≠ 46) = 46 :: r := by
    cases hd : A.reverse.dropWhile (· ≠ 46) with
    | nil =>
      have := List.dropWhile_eq_nil_iff.mp hd 46 (List.mem_reverse.mpr h)
      simp at this
    | cons b r =>
      have hb := List.head?_dropWhile_not (fun c : UInt8 => decide (c ≠ 46)) A.reverse
      rw [hd] at hb
      have hdot : decide (b ≠ 46) = false := hb
      exact ⟨r, by rw [not_not.mp (of_decide_eq_false hdot)]⟩
  have hsplit : A = r.reverse ++ 46 :: extOf A := by
    rw [extOf, if_pos h, ← List.reverse_inj, List.reverse_append, List.reverse_cons, List.reverse_reverse,
      List.reverse_reverse, List.append_assoc, List.singleton_append, ← hr, List.takeWhile_append_dropWhile]
  have hstem : stemOf A = r.reverse := by
    have hlen := congrArg List.length hsplit
    rw [List.length_append, List.length_cons] at hlen
    rw [stemOf, if_pos h, show A.length - (extOf A).length - 1 = r.reverse.length by omega]
    conv_lhs => rw [hsplit]
    rw [List.take_left]
  rw [hstem]
  exact hsplit

theorem takeWhile_padTo {m : ℕ} {l : Str} (h : ∀ c ∈ l, c ≠ 32) : (padTo m l).takeWhile (· ≠ 32) = l := by
  rw [padTo, List.takeWhile_append_of_pos fun c hc => decide_eq_true (h c hc)]
  have : (List.replicate (m - l.length) (32 : UInt8)).takeWhile (· ≠ 32) = [] := by
    cases m - l.length with
    | zero => rfl
    | succ k => rfl
  rw [this, List.append_nil]

/-- A short name is listed as the name that it was made of, in lower case. -/
theorem format83_build83 (he : shortName e = build83 A) (hA : ∀ c ∈ A, Printable c) (hdot : A.getLast? ≠ some 46)
    (hshort : needsLfn A = false) : format83 e = A.map lower := by
  have hlen : (stemOf A).length ≤ 8 ∧ (extOf A).length ≤ 3 := by
    unfold needsLfn at hshort
    rw [Bool.or_eq_false_iff, decide_eq_false_iff_not, decide_eq_false_iff_not] at hshort
    omega
  have hplain : build83 A = padTo 8 ((stemOf A).map upper) ++ padTo 3 ((extOf A).map upper) := by
    rw [build83, if_neg, List.take_of_length_le hlen.1, List.take_of_length_le hlen.2]
    rintro (rfl | rfl) <;> exact hdot rfl
  have hup : ∀ l : Str, (∀ c ∈ l, c ∈ A) → ∀ c ∈ l.map upper, c ≠ 32 := fun l hl =>
    forall_map_upper fun c hc => (hA c (hl c hc)).upper_ne
  have h8 : (padTo 8 ((stemOf A).map upper)).length = 8 := length_padTo (by rw [List.length_map]; exact hlen.1)
  have htake : (shortName e).take 8 = padTo 8 ((stemOf A).map upper) := by
    rw [he, hplain, List.take_left' h8]
  have hdrop : (shortName e).drop 8 = padTo 3 ((extOf A).map upper) := by
    rw [he, hplain, List.drop_left' h8]
  have he8 : e 8 = (padTo 3 ((extOf A).map upper)).getD 0 0 := by
    rw [← hdrop]
    rfl
  have hlow : ∀ l : Str, (l.map upper).map lower = l.map lower := map_lower_map_upper
  have hall : (stemOf A ++ if 46 ∈ A then 46 :: extOf A else []) = A := by
    split
    · rename_i h
      exact (stem_dot_ext h).symm
    · rename_i h
      rw [List.append_nil, stemOf, if_neg h]
  have hext : (if e 8 ≠ 32 then 46 :: (extOf A).map upper else []) = if 46 ∈ A then 46 ::
    (extOf A).map upper else [] := by
    by_cases h : 46 ∈ A
    · cases hx : extOf A with
      | nil =>
        have hsplit := stem_dot_ext h
        rw [hx] at hsplit
        rw [hsplit, List.getLast?_concat] at hdot
        exact absurd rfl hdot
      | cons b l =>
        have hb : e 8 = upper b := by
          rw [he8, hx]
          rfl
        rw [if_pos h, if_pos (by rw [hb]; exact (hA b (extOf_sub A b (hx ▸ List.mem_cons_self))).upper_ne)]
    · have hx : extOf A = [] := if_neg h
      have hb : e 8 = 32 := by
        rw [he8, hx]
        rfl
      rw [if_neg h, if_neg (by rw [hb]; decide)]
  rw [format83, htake, hdrop, takeWhile_padTo (hup _ (stemOf_sub A)), takeWhile_padTo (hup _ (extOf_sub A)), hext]
  have hmap : ((stemOf A).map upper ++ if 46 ∈ A then 46 :: (extOf A).map upper else []).map lower = A.map lower := by
    conv_rhs => rw [← hall]
    rw [List.map_append, List.map_append, hlow]
    congr 1
    split
    · rw [List.map_cons, List.map_cons, hlow]
    · rfl
  rw [hmap]
  refine List.takeWhile_eq_self_iff.mpr fun c hc => decide_eq_true ?_
  obtain ⟨b, hb, rfl⟩ := List.mem_map.mp hc
  exact (hA b hb).lower_ne

/-- What succeeds with the answers that the heap gives succeeds in the same way when it never
refuses. -/
def Lifts {α : Type} (x : M α) : Prop :=
  ∀ s a s', x.run s = (some a, s') → x.run (full s.vol s.cwd) = (some a, full s'.vol s'.cwd)

namespace Lifts

variable {α β : Type}

theorem pure (a : α) : Lifts (Pure.pure a : M α) := by
  rintro s b s' h
  obtain ⟨hb, rfl⟩ := Prod.mk.inj h
  rw [← hb]
  rfl

theorem fail : Lifts (Fallible.fail : M α) := fun s a s' h => by cases (Prod.mk.inj h).1

theorem bind {x : M α} {f : α → M β} (hx : Lifts x) (hf : ∀ a, Lifts (f a)) : Lifts (x >>= f) := by
  intro s b s' h
  rcases hrun : x.run s with ⟨_ | a, s1⟩
  · rw [bind_run, hrun] at h
    cases (Prod.mk.inj h).1
  · rw [bind_of_some hrun] at h
    rw [bind_of_some (hx s a s1 hrun)]
    exact hf a s1 b s' h

theorem getVol : Lifts getVol := by
  rintro s b s' h
  obtain ⟨hb, rfl⟩ := Prod.mk.inj h
  rw [← hb]
  rfl

theorem setVol (f : Vol → Vol) : Lifts (setVol f) := by
  rintro s b s' h
  obtain ⟨-, rfl⟩ := Prod.mk.inj h
  rfl

theorem needBuf : Lifts needBuf := by
  rintro s b s' h
  rw [Fat32.needBuf, bind_of_some (x := kmalloc) rfl] at h
  split at h
  · obtain ⟨-, rfl⟩ := Prod.mk.inj h
    rfl
  · cases (Prod.mk.inj h).1

theorem writeChunk (g : Geom) (c : ℕ) (cell : Mem) : Lifts (writeChunk g c cell) :=
  setVol fun v => { v with disk := update v.disk (realCluster g c) cell }

theorem growDir (g : Geom) (last : ℕ) : Lifts (growDir g last) := by
  have halloc : Lifts (allocCluster g) := by
    refine getVol.bind fun v => ?_
    split
    · exact (setVol _).bind fun _ => pure _
    · exact pure _
  have hext : Lifts (extendChain g (realCluster g last)) := by
    refine halloc.bind fun r => ?_
    cases r with
    | none => exact pure _
    | some c => exact (setVol _).bind fun _ => pure _
  refine hext.bind fun r => ?_
  cases r with
  | none => exact fail
  | some c => exact (setVol _).bind fun _ => pure _

theorem dirAllocSlot (g : Geom) (n d : ℕ) : Lifts (dirAllocSlot g n d) := by
  refine needBuf.bind fun _ => getVol.bind fun v => ?_
  split
  · exact pure _
  · exact growDir g _

theorem allocSlotsLoop (g : Geom) (count : ℕ) (D : List ℕ) : Lifts (allocSlotsLoop g count D) := by
  induction D with
  | nil => exact pure _
  | cons c D ih =>
    refine getVol.bind fun v => ?_
    split
    · exact pure _
    · split
      · exact (writeChunk g c _).bind fun _ => ih
      · exact (pure ()).bind fun _ => ih

theorem dirAllocSlots (g : Geom) (n d count : ℕ) : Lifts (dirAllocSlots g n d count) := by
  refine needBuf.bind fun _ => getVol.bind fun v => (allocSlotsLoop g count _).bind fun r => ?_
  cases r with
  | none => exact growDir g _
  | some p => exact pure p

theorem dirPutEntry (g : Geom) (c i : ℕ) (e : Mem) : Lifts (dirPutEntry g c i e) :=
  needBuf.bind fun _ => getVol.bind fun _ => writeChunk g c _

theorem dirDeleteSlot (g : Geom) (c i : ℕ) : Lifts (dirDeleteSlot g c i) :=
  needBuf.bind fun _ => getVol.bind fun _ => writeChunk g c _

end Lifts

/-- Every part of a long name is followed by another one or by an entry, in the same cluster. -/
def Complete (g : Geom) (cell : Mem) : Prop := ∀ j < entriesPerCluster g, IsLong (slotOf cell j) →
  j + 1 < entriesPerCluster g ∧ slotFree (slotOf cell (j + 1)) = false

theorem NoOrphan.append {X Y : List Slot} (hX : NoOrphan X) (hY : NoOrphan Y) : NoOrphan (X ++ Y) := by
  induction X with
  | nil => exact hY
  | cons p X ih =>
    cases X with
    | nil =>
      cases Y with
      | nil => exact hX
      | cons q Y => exact ⟨fun hp => absurd hp hX, hY⟩
    | cons q X => exact ⟨hX.1, ih hX.2⟩

theorem Complete.noOrphan (h : Complete g cell) (c : ℕ) {m : ℕ} (hm : i + m = entriesPerCluster g) :
    NoOrphan (block cell c i m) := by
  induction m generalizing i with
  | zero => trivial
  | succ m ih =>
    have hrest := ih (i := i + 1) (by omega)
    rw [block, List.range'_succ, List.map_cons]
    cases m with
    | zero =>
      intro hlong
      have := (h i (by omega) hlong).1
      omega
    | succ m =>
      rw [List.range'_succ, List.map_cons]
      rw [block, List.range'_succ, List.map_cons] at hrest
      exact ⟨fun hlong => (h i (by omega) hlong).2, hrest⟩

theorem noOrphan_slots {D : List ℕ} (h : ∀ c ∈ D, Complete g (v.disk (realCluster g c))) : NoOrphan (slots g v D) := by
  induction D with
  | nil => trivial
  | cons c D ih =>
    refine NoOrphan.append ?_ (ih fun x hx => h x (List.mem_cons_of_mem _ hx))
    rw [slotsIn_eq]
    exact (h c List.mem_cons_self).noOrphan c (Nat.zero_add _)

theorem complete_zero (g : Geom) : Complete g fun _ => 0 := by
  intro j _ hlong
  have := (slotFree_eq_false.mp hlong.1).2
  rw [slotOf_zero] at this
  exact absurd rfl this

theorem Complete.unmarkEnd (h : Complete g cell) : Complete g (unmarkEnd g cell) := by
  have hfirst : ∀ j < entriesPerCluster g, slotOf (Fat32.unmarkEnd g cell) j 0 = if slotOf cell j 0 = 0 then 0xE5 else
      slotOf cell j 0 := by
    intro j hj
    rw [slotOf_zero, slotOf_zero, Fat32.unmarkEnd]
    simp only [Nat.mul_mod_right, Nat.mul_div_cancel_left j (show 0 < 32 by omega), hj, true_and]
  have hattr : ∀ j, attr (slotOf (Fat32.unmarkEnd g cell) j) = attr (slotOf cell j) :=
    attr_of_first fun j hj => if_neg fun h => hj h.1
  have hused : ∀ j < entriesPerCluster g, slotFree (slotOf (Fat32.unmarkEnd g cell) j) = slotFree (slotOf cell j) := by
    intro j hj
    unfold slotFree
    rw [hfirst j hj]
    by_cases h0 : slotOf cell j 0 = 0
    · rw [if_pos h0, h0]
      rfl
    · rw [if_neg h0]
  intro j hj hlong
  obtain ⟨h1, h2⟩ := h j hj ⟨by rw [← hused j hj]; exact hlong.1, by rw [← hattr]; exact hlong.2⟩
  exact ⟨h1, by rw [hused _ h1]; exact h2⟩

/-- A run of long name entries and an entry after it are written to free slots. -/
theorem Complete.fill {cell' : Mem} {segs : ℕ} (h : Complete g cell) (hroom : i + segs < entriesPerCluster g)
    (hout : ∀ j, ¬ (i ≤ j ∧ j ≤ i + segs) → slotOf cell' j = slotOf cell j)
    (hin : ∀ j, i ≤ j → j ≤ i + segs → slotFree (slotOf cell' j) = false)
    (hlast : attr (slotOf cell' (i + segs)) ≠ ATTR_LFN) : Complete g cell' := by
  intro j hj hlong
  rcases Nat.lt_trichotomy j (i + segs) with hlt | rfl | hgt
  · refine ⟨by omega, ?_⟩
    by_cases hi : i ≤ j + 1
    · exact hin (j + 1) hi (by omega)
    · rw [hout j (by omega)] at hlong
      rw [hout (j + 1) (by omega)]
      exact (h j hj hlong).2
  · exact absurd hlong.2 hlast
  · rw [hout j (by omega)] at hlong
    rw [hout (j + 1) (by omega)]
    exact h j hj hlong

/-- The run that is deleted with an entry is a whole one. -/
theorem lfnBefore_max (cell : Mem) (i : ℕ) (h : lfnBefore cell i < i) :
    ¬ IsLong (slotOf cell (i - lfnBefore cell i - 1)) := by
  induction i with
  | zero => omega
  | succ i ih =>
    rw [lfnBefore] at h ⊢
    split
    · rename_i hstop
      rintro ⟨hused, hattr⟩
      rw [show i + 1 - 0 - 1 = i by omega] at hused hattr
      rcases hstop with hfree | hne
      · rw [hused] at hfree
        cases hfree
      · exact hne hattr
    · rename_i hgo
      rw [if_neg hgo] at h
      rw [show i + 1 - (lfnBefore cell i + 1) - 1 = i - lfnBefore cell i - 1 by omega]
      exact ih (by omega)

/-- An entry is deleted with the run before it. -/
theorem Complete.eraseSlots (h : Complete g cell) (i : ℕ) : Complete g (eraseSlots cell i) := by
  have hmax := lfnBefore_max cell i
  intro j hj hlong
  by_cases hin : i - lfnBefore cell i ≤ j ∧ j ≤ i
  · have hfree := (slotFree_eq_false.mp hlong.1).1
    rw [slotOf_zero, eraseSlots_first hin] at hfree
    exact absurd rfl hfree
  · rw [slotOf_eraseSlots hin] at hlong
    obtain ⟨h1, h2⟩ := h j hj hlong
    refine ⟨h1, ?_⟩
    by_cases hnext : i - lfnBefore cell i ≤ j + 1 ∧ j + 1 ≤ i
    · -- the slot before the run that is deleted
      refine absurd hlong ?_
      rw [show j = i - lfnBefore cell i - 1 by omega]
      exact hmax (by omega)
    · rw [slotOf_eraseSlots hnext]
      exact h2

/-- The directory with the clusters `T` after its first one: its chain ends, after an end mark there
are only end marks, and every run of long name entries is followed by its entry in the same cluster.
-/
structure WellFormed (g : Geom) (v : Vol) (d : ℕ) (T : List ℕ) : Prop where
  chain : Linked g v (realCluster g d) (realCluster g d :: T)
  tidy : Tidy (slots g v (d :: T))
  complete : ∀ c ∈ realCluster g d :: T, Complete g (v.disk c)

theorem real_mem (h : Linked g v (realCluster g d) (realCluster g d :: T)) (hc : c ∈ d :: T) :
    realCluster g c ∈ realCluster g d :: T := by
  rw [← map_real_of_linked h rfl]
  exact List.mem_map_of_mem hc

theorem WellFormed.clean (h : WellFormed g v d T) : NoOrphan (slots g v (d :: T)) :=
  noOrphan_slots fun _ hc => h.complete _ (real_mem h.chain hc)

/-- Some slots without an end mark stand before others. -/
theorem tidy_around {B M Z : List Slot} (hB : NoEnd B) (hM : NoEnd M) (hZ : Tidy Z) : Tidy (B ++ (M ++ Z)) := by
  have hafter : ∀ {L : List Slot}, NoEnd L → ∀ {Y : List Slot}, Tidy Y → Tidy (L ++ Y) := fun hL _ hY =>
    List.pairwise_append.mpr ⟨List.pairwise_of_forall_mem_list fun p hp _ _ h0 =>
      absurd h0 (hL p hp), hY, fun p hp _ _ h0 => absurd h0 (hL p hp)⟩
  exact hafter hB (hafter hM hZ)

section Found

variable {cwd : ℕ} {p : ℕ × ℕ} (hg : g.Ok) (hn : g.totalClusters ≤ n) (hspare : NoSpare g v) (hwf : WellFormed g v d T)

include hg hn hspare hwf

/-- Looking for a free slot leaves the runs of every cluster complete. -/
theorem dirAllocSlot_complete (hrun : (dirAllocSlot g n d).run (full v cwd) = (some p, s)) :
    ∃ L, Linked g s.vol (realCluster g d) L ∧ ∀ x ∈ L, Complete g (s.vol.disk x) := by
  rw [dirAllocSlot, bind_of_some needBuf_full, bind_of_some getVol_full, chain_dir hg hn hwf.chain] at hrun
  split at hrun
  · obtain ⟨-, rfl⟩ := Prod.mk.inj hrun
    exact ⟨_, hwf.chain, hwf.complete⟩
  · obtain ⟨x, v', rfl, -, -, hfree, hgrown, -, hdisk, -⟩ := growDir_full hg hspare.allots hwf.chain hrun
    refine ⟨_, hgrown, fun y hy => ?_⟩
    rw [show (full v' cwd).vol.disk = _ from hdisk]
    by_cases hyx : y = x
    · rw [hyx, update_self]
      exact complete_zero g
    · rw [update_of_ne hyx]
      exact hwf.complete y ((List.mem_append.mp hy).resolve_right fun h => hyx (List.mem_singleton.mp h))

theorem dirAllocSlots_complete (hrun : (dirAllocSlots g n d count).run (full v cwd) = (some p, s)) :
    ∃ L, Linked g s.vol (realCluster g d) L ∧ ∀ x ∈ L, Complete g (s.vol.disk x) := by
  have h := hwf.chain
  rw [dirAllocSlots, bind_of_some needBuf_full, bind_of_some getVol_full, chain_dir hg hn h] at hrun
  rcases hloop : (allocSlotsLoop g count (d :: T)).run (full v cwd) with ⟨_ | r, s1⟩
  · rw [bind_run, hloop] at hrun
    cases hrun
  obtain ⟨D1, D2, v1, rfl, hD, hfat, -, hun, hother, -, -⟩ := allocSlotsLoop_full (nodup_dir hg hwf.chain) hloop
  have hlink1 : Linked g v1 (realCluster g d) (realCluster g d :: T) := h.congr fun x _ => by unfold getEntry; rw [hfat]
  have hcomplete1 : ∀ x ∈ realCluster g d :: T, Complete g (v1.disk x) := by
    intro x hx
    by_cases hmem : x ∈ D1.map (realCluster g)
    · obtain ⟨y, hy, rfl⟩ := List.mem_map.mp hmem
      rw [hun y hy]
      exact (hwf.complete _ hx).unmarkEnd
    · rw [hother x hmem]
      exact hwf.complete x hx
  rw [bind_of_some hloop] at hrun
  cases r with
  | some q =>
    obtain ⟨-, rfl⟩ := Prod.mk.inj hrun
    exact ⟨_, hlink1, hcomplete1⟩
  | none =>
    have hspare1 : NoSpare g v1 := hspare.congr fun x _ => by rw [hfat]
    obtain ⟨x, v', rfl, -, -, -, hgrown, -, hdisk, -⟩ := growDir_full hg hspare1.allots hlink1 hrun
    refine ⟨_, hgrown, fun y hy => ?_⟩
    rw [show (full v' cwd).vol.disk = _ from hdisk]
    by_cases hyx : y = x
    · rw [hyx, update_self]
      exact complete_zero g
    · rw [update_of_ne hyx]
      exact hcomplete1 y ((List.mem_append.mp hy).resolve_right fun h => hyx (List.mem_singleton.mp h))

end Found

/-- A directory to which an entry has been added is well formed. -/
theorem Filled.wellFormed {v1 : Vol} {segs ck : ℕ} (h : Filled g v v1 v' d T X A e segs ck c i)
    (hcomplete : ∀ x ∈ realCluster g d :: T ++ X, Complete g (v1.disk x)) (h0 : e 0 ≠ 0) (h1 : e 0 ≠ 0xE5)
    (hattr : attr e ≠ ATTR_LFN) : WellFormed g v' d (T ++ X) := by
  obtain ⟨cell, hcell⟩ : ∃ cell, cell = putSlot
    (lfnWriteEntries g (v1.disk (realCluster g c)) i segs A ck) (i + segs) e :=
    ⟨_, rfl⟩
  have hv' : v' = { v1 with disk := update v1.disk (realCluster g c) cell } := by rw [hcell]; exact h.written
  have hroom := h.room
  have hfew := h.few
  have hslot : ∀ j, slotOf cell j = if j = i + segs then trim e else if i ≤ j ∧ j < i + segs then
      trim (lfnEntry A ck segs (segs - 1 - (j - i))) else slotOf (v1.disk (realCluster g c)) j := fun j => by
    rw [hcell, slotOf_written _ _ _ _ (by omega)]
  have hout : ∀ j, ¬ (i ≤ j ∧ j < i + (segs + 1)) →
    slotOf cell j = slotOf (v1.disk (realCluster g c)) j := fun j hj => by
    rw [hslot, if_neg (by omega), if_neg (by omega)]
  have hin : ∀ j, i ≤ j → j ≤ i + segs → slotFree (slotOf cell j) = false := by
    intro j hj hj'
    rw [hslot]
    split
    · exact slotFree_trim h0 h1
    · rw [if_pos (by omega)]
      exact slotFree_trim (lfnEntry_first (by omega)) (lfnEntry_used (by omega))
  have hlast : attr (slotOf cell (i + segs)) ≠ ATTR_LFN := by
    rw [hslot, if_pos rfl, attr_trim]
    exact hattr
  obtain ⟨B, Z, -, hend, -, htidy, -, hupd⟩ := h.placed.split (by omega)
  refine ⟨?_, ?_, fun x hx => ?_⟩
  · exact h.placed.grown.congr fun x _ => by rw [hv']; rfl
  · have hnew := hupd cell hout
    rw [← hv'] at hnew
    rw [← List.cons_append, hnew]
    refine tidy_around hend (fun q hq => ?_) htidy.of_append.2
    obtain ⟨-, h1, h2, he⟩ := mem_block hq
    rw [he]
    exact (slotFree_eq_false.mp (hin _ h1 (by omega))).2
  · rw [hv']
    dsimp only
    by_cases hxc : x = realCluster g c
    · rw [hxc, update_self]
      exact (hcomplete _ (mem_real h.placed.grown h.placed.chunk)).fill hroom (fun j hj => hout j (by omega)) hin hlast
    · rw [update_of_ne hxc]
      exact hcomplete x hx

/-- A directory from which an entry has been deleted is well formed. -/
theorem WellFormed.erase (hg : g.Ok) (h : WellFormed g v d T) {u : Visit} (hu : u ∈ scan [] (slots g v (d :: T)))
    (hv' : v' = { v with
      disk := update v.disk (realCluster g u.chunk) (eraseSlots (v.disk (realCluster g u.chunk)) u.idx) }) :
    WellFormed g v' d T := by
  obtain ⟨hle, -⟩ := lfnBefore_spec (v.disk (realCluster g u.chunk)) u.idx
  obtain ⟨B, Z, hslots, hend, hupd⟩ := slots_around (nodup_dir hg h.chain) hu hle
  have htidy := h.tidy
  rw [hslots] at htidy
  refine ⟨h.chain.congr fun x _ => by rw [hv']; rfl, ?_, fun x hx => ?_⟩
  · rw [hv', hupd _ fun j hj => slotOf_eraseSlots hj]
    refine tidy_around hend (fun q hq => ?_) htidy.of_append.2.of_append.2
    obtain ⟨-, h1, h2, he⟩ := mem_block hq
    rw [he, slotOf_zero, eraseSlots_first (by omega)]
    decide
  · rw [hv']
    dsimp only
    by_cases hxc : x = realCluster g u.chunk
    · rw [hxc, update_self]
      exact (h.complete _ (real_mem h.chain (mem_slots (mem_scan hu).1).1)).eraseSlots u.idx
    · rw [update_of_ne hxc]
      exact h.complete x hx

theorem Lifts.insertShort (g : Geom) (n d : ℕ) (e : Mem) : Lifts (insertShort g n d e) :=
  (Lifts.dirAllocSlot g n d).bind fun p => Lifts.dirPutEntry g p.1 p.2 e

theorem Lifts.insertLong (g : Geom) (n d : ℕ) (A raw83 : Str) (e : Mem) : Lifts (insertLong g n d A raw83 e) := by
  refine (Lifts.dirAllocSlots g n d _).bind fun p => Lifts.needBuf.bind fun _ => Lifts.getVol.bind fun v => ?_
  split
  · exact Lifts.fail
  · exact Lifts.writeChunk g p.1 _

/-- Directory `d`, well formed before and after, has the entry `new` more. -/
def Gains (g : Geom) (v v' : Vol) (n d : ℕ) (T : List ℕ) (new : Visit) : Prop :=
  ∃ X, WellFormed g v' d (T ++ X) ∧ ∃ P Q, visits g v n d = P ++ Q ∧ visits g v' n d = P ++ new :: Q

theorem Filled.gains {v1 : Vol} {segs ck : ℕ} {L : List ℕ} (hg : g.Ok) (hn : g.totalClusters ≤ n)
    (h : Filled g v v1 v' d T X A e segs ck c i) (hwf : WellFormed g v d T) (hL : Linked g v1 (realCluster g d) L)
    (hcomplete : ∀ x ∈ L, Complete g (v1.disk x)) (h0 : e 0 ≠ 0) (h1 : e 0 ≠ 0xE5) (hattr : attr e ≠ ATTR_LFN) :
    Gains g v v' n d T ⟨c, i + segs, trim e,
      lfnReconstruct ((List.range segs).map fun k => trim (lfnEntry A ck segs (segs - 1 - k)))⟩ := by
  have hwf' := h.wellFormed (hL.unique hg h.placed.grown ▸ hcomplete) h0 h1 hattr
  obtain ⟨P, Q, hold, hnew⟩ := (h.inserted h0 h1 hattr).entries
  exact ⟨X, hwf', P, Q, by rw [visits_dir hg hn hwf.chain, hold], by rw [visits_dir hg hn
    hwf'.chain, ← List.cons_append, hnew]⟩

/-- Inserting an entry, whatever the heap answers. -/
theorem dirInsertNamed_gains (hg : g.Ok) (hn : g.totalClusters ≤ n) (hspare : NoSpare g s.vol)
    (hwf : WellFormed g s.vol d T)
    {ne : Str → Mem} (hA : ∀ c ∈ A, c ≠ 0 ∧ c < 128) (hlen : A.length ≤ 255)
    (hne : ∀ raw83 t, raw83 = build83 A ∨ raw83 = build83Tail A t →
      ne raw83 0 ≠ 0 ∧ ne raw83 0 ≠ 0xE5 ∧ attr (ne raw83) ≠ ATTR_LFN)
    (hrun : (dirInsertNamed g n d A ne).run s = (some (), s')) :
    ∃ new, Gains g s.vol s'.vol n d T new ∧ (needsLfn A = false ∧ new.lfn = [] ∧ new.entry = trim (ne (build83 A)) ∨
      needsLfn A = true ∧ new.lfn = A ∧ ∃ t, new.entry = trim (ne (build83Tail A t))) := by
  unfold dirInsertNamed at hrun
  cases hlfn : needsLfn A with
  | false =>
    rw [if_pos hlfn] at hrun
    have hfull := Lifts.insertShort g n d (ne (build83 A)) s () s' hrun
    obtain ⟨X, v1, v', c, i, halloc, hs, hfilled⟩ := insertShort_full hg hn hspare hwf.chain hwf.tidy hwf.clean hfull A
    obtain rfl : s'.vol = v' := congrArg St.vol hs
    obtain ⟨L, hL, hcomplete⟩ := dirAllocSlot_complete hg hn hspare hwf halloc
    obtain ⟨h0, h1, hattr⟩ := hne (build83 A) 0 (Or.inl rfl)
    exact ⟨_, hfilled.gains hg hn hwf hL hcomplete h0 h1 hattr, Or.inl ⟨rfl, rfl, rfl⟩⟩
  | true =>
    rw [if_neg (by rw [hlfn]; decide), bind_run] at hrun
    have hfree : Triple (fun s' => s'.vol = s.vol) (freeAlias g n d A 999 1)
      (fun _ s' => s'.vol = s.vol) fun _ => True :=
      freeAlias_keeps (· = s.vol) (fun _ _ => trivial) 999 1
    have hkeeps := hfree s rfl
    rcases halias : (freeAlias g n d A 999 1).run s with ⟨_ | t, s1⟩
    · rw [halias] at hrun
      cases hrun
    rw [halias] at hrun hkeeps
    have hvol : s1.vol = s.vol := hkeeps.1 t rfl
    have hfull := Lifts.insertLong g n d A (build83Tail A t) (ne (build83Tail A t)) s1 () s' hrun
    rw [hvol] at hfull
    obtain ⟨X, v1, v', c, i, halloc, hs, hfilled⟩ :=
      insertLong_full hg hn hspare hwf.chain hwf.tidy hwf.clean hlen hfull
    obtain rfl : s'.vol = v' := congrArg St.vol hs
    obtain ⟨L, hL, hcomplete⟩ := dirAllocSlots_complete hg hn hspare hwf halloc
    obtain ⟨h0, h1, hattr⟩ := hne (build83Tail A t) t (Or.inr rfl)
    exact ⟨_, hfilled.gains hg hn hwf hL hcomplete h0 h1 hattr,
      Or.inr ⟨rfl, lfnReconstruct_lfnEntries hA hlen rfl, t, rfl⟩⟩

/-- Deleting the entry that a directory has gained, whatever the heap answers. -/
theorem Gains.undo {new : Visit} {v₀ : Vol} (hg : g.Ok) (hn : g.totalClusters ≤ n) (h : Gains g v₀ s.vol n d T new)
    (hrun : (dirDeleteSlot g new.chunk new.idx).run s = (some (), s')) :
    (∃ X, WellFormed g s'.vol d (T ++ X)) ∧ visits g s'.vol n d = visits g v₀ n d := by
  obtain ⟨X, hwf, P, Q, hold, hnew⟩ := h
  have hfull := Lifts.dirDeleteSlot g new.chunk new.idx s () s' hrun
  rw [dirDeleteSlot_full] at hfull
  have hvol : ({ s.vol with disk := update s.vol.disk (realCluster g new.chunk) (eraseSlots
      (s.vol.disk (realCluster g new.chunk)) new.idx) } : Vol) = s'.vol := congrArg St.vol (Prod.mk.inj hfull).2
  have hscan : visits g s.vol n d = scan [] (slots g s.vol (d :: (T ++ X))) := visits_dir hg hn hwf.chain
  have hu : new ∈ scan [] (slots g s.vol (d :: (T ++ X))) := by
    rw [← hscan, hnew]
    simp
  have hwf' := hwf.erase hg hu hvol.symm
  obtain ⟨P', Q', hbefore, hafter⟩ := erase_entries (nodup_dir hg hwf.chain) hu rfl
  refine ⟨⟨X, hwf'⟩, ?_⟩
  rw [visits_dir hg hn hwf'.chain, ← hvol, hold]
  refine hafter.trans ?_
  -- the entry stands in the list once
  have hnodup := nodup_visits hg hn hwf.chain
  rw [hnew, List.map_append, List.map_cons, List.nodup_middle, List.nodup_cons, ← List.map_append] at hnodup
  have hnot : new ∉ P ++ Q := fun hmem => hnodup.1 (List.mem_map_of_mem hmem)
  rw [← hscan, hnew] at hbefore
  rw [List.mem_append, not_or] at hnot
  obtain ⟨rfl, -, rfl⟩ := (List.append_cons_inj_of_notMem hnot.1 hnot.2).mp hbefore
  rfl

def Geom.whole (g : Geom) : Geom := { g with totalClusters := g.fatEntries - 2 }

theorem whole_ok (hsize : g.fatEntries ≤ FAT32_BAD) (htwo : 2 ≤ g.fatEntries)
    (hroom : 512 ≤ g.bytesPerCluster) : g.whole.Ok where
  covers := by
    change g.fatEntries - 2 + 2 ≤ g.fatEntries
    omega
  size := hsize.trans (by decide)
  marks := by
    change g.fatEntries - 2 + 2 ≤ FAT32_BAD
    omega
  room := hroom

theorem whole_noSpare (g : Geom) (v : Vol) : NoSpare g.whole v := by
  intro c h1 h2
  change g.fatEntries - 2 + 2 ≤ c at h1
  change c < g.fatEntries at h2
  omega

theorem chain_whole (g : Geom) (v : Vol) (n d : ℕ) : chain g.whole v n d = chain g v n d := by
  induction n generalizing d with
  | zero => rfl
  | succ n ih =>
    rw [chain, chain, ih]
    rfl

theorem visits_whole (g : Geom) (v : Vol) (n d : ℕ) : visits g.whole v n d = visits g v n d := by
  rw [visits, visits, chain_whole]
  rfl

theorem dirAllocSlot_whole (g : Geom) (n d : ℕ) : dirAllocSlot g.whole n d = dirAllocSlot g n d := by
  unfold dirAllocSlot
  simp only [chain_whole]
  rfl

theorem allocSlotsLoop_whole (g : Geom) (count : ℕ) (D : List ℕ) : allocSlotsLoop g.whole count D =
    allocSlotsLoop g count D := by
  induction D with
  | nil => rfl
  | cons c D ih =>
    rw [allocSlotsLoop, allocSlotsLoop, ih]
    rfl

theorem dirAllocSlots_whole (g : Geom) (n d count : ℕ) : dirAllocSlots g.whole n d count =
    dirAllocSlots g n d count := by
  unfold dirAllocSlots
  simp only [chain_whole, allocSlotsLoop_whole]
  rfl

theorem dirFind_whole (g : Geom) (v : Vol) (n d : ℕ) (raw83 : Str) : dirFind g.whole v n d raw83 =
    dirFind g v n d raw83 := by
  rw [dirFind, dirFind, visits_whole]

theorem freeAlias_whole (g : Geom) (n d : ℕ) (A : Str) (fuel t : ℕ) :
    freeAlias g.whole n d A fuel t = freeAlias g n d A fuel t := by
  induction fuel generalizing t with
  | zero => rfl
  | succ fuel ih => simp only [freeAlias, dirFind_whole, ih]

theorem dirInsertNamed_whole (g : Geom) (n d : ℕ) (A : Str) (ne : Str → Mem) :
    dirInsertNamed g.whole n d A ne = dirInsertNamed g n d A ne := by
  unfold dirInsertNamed
  simp only [dirAllocSlot_whole, freeAlias_whole, dirAllocSlots_whole]
  rfl

/-- An entry that is given its short name. -/
def named (e : Mem) (raw83 : Str) : Mem := fun j => if j < 11 then raw83.getD j 0 else e j

theorem shortName_named {raw83 : Str} (h : raw83.length = 11) : shortName (named e raw83) = raw83 := by
  unfold shortName
  refine List.ext_getElem (by simp [h]) fun j h1 h2 => ?_
  rw [List.getElem_map, List.getElem_range, named, if_pos (by omega), List.getD_eq_getElem _ _ h2]

theorem named_plain (hA : ∀ c ∈ A, Ascii c) (hattr : attr e ≠ ATTR_LFN) (raw83 : Str) (t : ℕ)
    (hraw : raw83 = build83 A ∨ raw83 = build83Tail A t) :
    named e raw83 0 ≠ 0 ∧ named e raw83 0 ≠ 0xE5 ∧ attr (named e raw83) ≠ ATTR_LFN := by
  obtain ⟨hlen, hascii⟩ := ascii_short hA hraw
  have hfirst : Ascii (named e raw83 0) := by
    rw [named, if_pos (by omega), List.getD_eq_getElem _ _ (by omega)]
    exact hascii _ (List.getElem_mem _)
  refine ⟨hfirst.1, fun h => ?_, hattr⟩
  rw [h] at hfirst
  exact absurd hfirst.2 (by decide)

/-- The names under which the entry is listed that has been inserted under the name `A`. -/
def ListedAs (A : Str) (new : Visit) : Prop :=
  (needsLfn A = true → listName new = A) ∧
  (needsLfn A = false → (listName new).map lower = A.map lower)

theorem listedAs_of_named {ne : Str → Mem} (hA : ∀ c ∈ A, Printable c) (hlen : A.length ≤ 255)
    (hdot : A.getLast? ≠ some 46)
    (hne : shortName (ne (build83 A)) = build83 A) {new : Visit}
    (hnew : needsLfn A = false ∧ new.lfn = [] ∧ new.entry = trim (ne (build83 A)) ∨
      needsLfn A = true ∧ new.lfn = A ∧ ∃ t, new.entry = trim (ne (build83Tail A t))) : ListedAs A new := by
  constructor
  · intro hlong
    obtain ⟨-, hlfn, -⟩ := hnew.resolve_left fun h => by rw [hlong] at h; cases h.1
    have hnil : A ≠ [] := by
      rintro rfl
      cases hlong
    rw [listName, hlfn, if_pos hnil, List.take_of_length_le hlen]
  · intro hshort
    obtain ⟨-, hlfn, hentry⟩ := hnew.resolve_right fun h => by rw [hshort] at h; cases h.1
    have hname : shortName new.entry = build83 A := by rw [hentry, shortName_trim, hne]
    rw [listName, hlfn, if_neg (not_not_intro rfl), format83_build83 hname hA hdot hshort, List.map_map]
    exact List.map_congr_left fun c _ => lower_lower c

/-- Directory `d` has got the entry `new`, listed as `A`, and no other one; deleting it gives the
entries back. -/
structure Undoable (g : Geom) (v v' : Vol) (n d : ℕ) (T : List ℕ) (A : Str) (e : Mem) (new : Visit) : Prop where
  gains : ∃ P Q, visits g v n d = P ++ Q ∧ visits g v' n d = P ++ new :: Q
  wellFormed : ∃ X, WellFormed g.whole v' d (T ++ X)
  listed : ListedAs A new
  fields : ∀ j, 11 ≤ j → j < 32 → new.entry j = e j
  undo : ∀ s s' : St, s.vol = v' → (dirDeleteSlot g new.chunk new.idx).run s = (some (), s') →
    visits g s'.vol n d = visits g v n d ∧ ∃ X, WellFormed g.whole s'.vol d (T ++ X)

/-- A name that is inserted into a well-formed directory is listed, nothing else in the directory
changes, and deleting the entry gives back what was there. -/
theorem name_survives (hsize : g.fatEntries ≤ FAT32_BAD) (hroom : 512 ≤ g.bytesPerCluster) (hn : g.fatEntries ≤ n)
    (hwf : WellFormed g.whole s.vol d T) (hA : ∀ c ∈ A, Printable c) (hlen : A.length ≤ 255)
    (hdot : A.getLast? ≠ some 46)
    (hattr : attr e ≠ ATTR_LFN) (hrun : (dirInsertNamed g n d A (named e)).run s = (some (), s')) :
    ∃ new, Undoable g s.vol s'.vol n d T A e new := by
  have htwo : realCluster g d < g.fatEntries - 2 + 2 := hwf.chain.2.1.2
  have hle : 2 ≤ realCluster g d := hwf.chain.2.1.1
  have hg : g.whole.Ok := whole_ok hsize (by omega) hroom
  have hn' : g.whole.totalClusters ≤ n := (Nat.sub_le _ _).trans hn
  have hascii : ∀ c ∈ A, Ascii c := fun c hc => (hA c hc).ascii
  rw [← dirInsertNamed_whole] at hrun
  obtain ⟨new, hgains, hnew⟩ :=
    dirInsertNamed_gains hg hn' (whole_noSpare g s.vol) hwf hascii hlen (named_plain hascii hattr) hrun
  refine ⟨new, ?_, ?_, ?_, fun j h1 h2 => ?_, fun s1 s2 hs hdel => ?_⟩
  · obtain ⟨X, -, P, Q, hold, hnew⟩ := hgains
    rw [visits_whole] at hold hnew
    exact ⟨P, Q, hold, hnew⟩
  · obtain ⟨X, hwf', -⟩ := hgains
    exact ⟨X, hwf'⟩
  · exact listedAs_of_named hA hlen hdot (shortName_named (length_build83 A)) hnew
  · have hentry : ∃ raw83, new.entry = trim (named e raw83) := by
      rcases hnew with ⟨-, -, he⟩ | ⟨-, -, t, he⟩
      · exact ⟨_, he⟩
      · exact ⟨_, he⟩
    obtain ⟨raw83, he⟩ := hentry
    rw [he, trim, if_pos h2, named, if_neg (by omega)]
  · rw [← hs] at hgains
    obtain ⟨hwf', hvisits⟩ := hgains.undo hg hn' hdel
    rw [visits_whole, visits_whole] at hvisits
    exact ⟨hvisits, hwf'⟩

/-- The directory `longdirname` in an empty root directory. -/
theorem name_survives_long : ∃ s', (dirInsertNamed longGeom 128 0 [108, 111, 110, 103, 100, 105, 114, 110, 97, 109, 101]
      (named (newEntry [] ATTR_DIRECTORY 5 0))).run (full emptyVol 0) = (some (), s') ∧
    ∃ new, Undoable longGeom emptyVol s'.vol 128 0 [] [108, 111, 110, 103, 100, 105, 114, 110, 97, 109, 101]
      (newEntry [] ATTR_DIRECTORY 5 0) new := by
  have hrun : ((dirInsertNamed longGeom 128 0 [108, 111, 110, 103, 100, 105, 114, 110, 97, 109, 101]
      (named (newEntry [] ATTR_DIRECTORY 5 0))).run (full emptyVol 0)).1 = some () := by decide +kernel
  have hwf : WellFormed longGeom.whole (full emptyVol 0).vol 0 [] :=
    ⟨⟨rfl, ⟨by decide, by decide⟩, show isEndOfChain _ = true by decide⟩, tidy_of_zero fun p hp => by
      rw [(mem_slots hp).2.2, slotOf_zero]
      rfl, fun _ _ => complete_zero _⟩
  exact ⟨_, Prod.ext hrun rfl, name_survives (by decide) (by decide) (by decide) hwf
    (by decide +kernel) (by decide) (by decide) (by decide) (Prod.ext hrun rfl)⟩

end ComputerOS.Fat32
