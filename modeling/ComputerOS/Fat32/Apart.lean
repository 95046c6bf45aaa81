import ComputerOS.Fat32.Keeps

/-!
Writing, deleting and making a directory under one name, and what that leaves of the file under
another one. The file is kept unless its short name is the short form of the other name, which
is cut to eight and three bytes.
-/
namespace ComputerOS.Fat32

open Function Fallible

variable {g : Geom} {v₀ v : Vol} {F : ℕ → Prop} {n dir c i : ℕ} {w u : Visit} {D : List ℕ} {s : St} {A : Str}

theorem upper_ne_zero {c : UInt8} (h : c ≠ 0) : upper c ≠ 0 := by
  unfold upper
  split
  · rename_i hletter
    intro h0
    have hle : (97 : ℕ) ≤ c.toNat := UInt8.le_iff_toNat_le.mp hletter.1
    have h32 : (32 : UInt8).toNat = 32 := rfl
    have hle' : (32 : UInt8) ≤ c := UInt8.le_iff_toNat_le.mpr (by omega)
    have hsub := UInt8.toNat_sub_of_le c 32 hle'
    rw [h0, h32] at hsub
    have h00 : (0 : UInt8).toNat = 0 := rfl
    omega
  · exact h

/-- A padded name does not begin with a zero byte. -/
theorem padTo_ne_zero {m : ℕ} {s : Str} (h : 0 ∉ s) : 0 ∉ padTo m s := by
  unfold padTo
  rw [List.mem_append, not_or]
  refine ⟨h, fun hmem => ?_⟩
  have := List.eq_of_mem_replicate hmem
  cases this

theorem stemOf_sub (A : Str) : ∀ c ∈ stemOf A, c ∈ A := by
  intro c hc
  unfold stemOf at hc
  split at hc
  · exact List.mem_of_mem_take hc
  · exact hc

theorem extOf_sub (A : Str) : ∀ c ∈ extOf A, c ∈ A := by
  intro c hc
  unfold extOf at hc
  split at hc
  · exact List.mem_reverse.mp ((List.takeWhile_sublist _).mem (List.mem_reverse.mp hc))
  · cases hc

theorem map_upper_ne_zero {s : Str} (h : 0 ∉ s) : 0 ∉ s.map upper := by
  intro hmem
  obtain ⟨c, hc, hz⟩ := List.mem_map.mp hmem
  exact upper_ne_zero (fun h0 => h (h0 ▸ hc)) hz

theorem build83_ne_zero (h : 0 ∉ A) : 0 ∉ build83 A := by
  unfold build83
  split
  · exact padTo_ne_zero h
  · rw [List.mem_append, not_or]
    refine ⟨padTo_ne_zero (map_upper_ne_zero fun h0 => ?_), padTo_ne_zero (map_upper_ne_zero fun h0 => ?_)⟩
    · exact h (stemOf_sub A 0 (List.mem_of_mem_take h0))
    · exact h (extOf_sub A 0 (List.mem_of_mem_take h0))

theorem revDigits_ne_zero (f m : ℕ) : 0 ∉ revDigits f m := by
  induction f generalizing m with
  | zero => simp [revDigits]
  | succ f ih =>
    rw [revDigits]
    split
    · simp
    · rw [List.mem_cons, not_or]
      refine ⟨fun h0 => ?_, ih _⟩
      have hlt := Nat.mod_lt m (show 0 < 10 by omega)
      have := congrArg UInt8.toNat h0
      rw [UInt8.toNat_ofNat', Nat.mod_eq_of_lt (by omega)] at this
      have h0 : (0 : UInt8).toNat = 0 := rfl
      omega

theorem build83Tail_ne_zero (h : 0 ∉ A) (t : ℕ) : 0 ∉ build83Tail A t := by
  unfold build83Tail
  rw [List.mem_append, not_or]
  refine ⟨padTo_ne_zero ?_, padTo_ne_zero (map_upper_ne_zero fun h0 => h (extOf_sub A 0 (List.mem_of_mem_take h0)))⟩
  rw [List.mem_append, not_or]
  refine ⟨map_upper_ne_zero fun h0 => h (stemOf_sub A 0 (List.mem_of_mem_take h0)), ?_⟩
  rw [List.mem_cons, not_or]
  refine ⟨by decide, ?_⟩
  split
  · decide
  · rw [List.mem_reverse]
    exact revDigits_ne_zero 7 t

/-- The first byte of a new entry is the first one of its short name. -/
theorem newEntry_zero (raw83 : Str) (a cl size : ℕ) : newEntry raw83 a cl size 0 = raw83.getD 0 0 := by
  unfold newEntry
  rw [Mem.setLE_ne _ (by omega), Mem.setLE_ne _ (by omega), Mem.setLE_ne _ (by omega), Mem.setLE_ne _ (by omega)]
  rfl

theorem newEntry_first {raw83 : Str} {a cl size : ℕ} (h : 0 ∉ raw83) (hne : raw83 ≠ []) :
    newEntry raw83 a cl size 0 ≠ 0 := by
  rw [newEntry_zero]
  cases raw83 with
  | nil => exact absurd rfl hne
  | cons b rest =>
    intro h0
    exact h (by rw [← h0]; simp)

theorem attr_newEntry (raw83 : Str) {a : ℕ} (cl size : ℕ) (ha : a < 256) : attr (newEntry raw83 a cl size) = a := by
  have hget : (newEntry raw83 a cl size).getLE 11 1 = a := by
    unfold newEntry
    rw [Mem.getLE_setLE_ne _ (by omega), Mem.getLE_setLE_ne _ (by omega),
      Mem.getLE_setLE_ne _ (by omega), Mem.getLE_setLE_same, Nat.mod_eq_of_lt (by omega)]
  simpa [attr, Mem.getLE] using hget

theorem build83_ne_nil (A : Str) : build83 A ≠ [] := by
  unfold build83
  split
  · rename_i h
    rcases h with rfl | rfl <;> decide
  · intro hnil
    have := congrArg List.length hnil
    simp [padTo] at this

theorem build83Tail_ne_nil (A : Str) (t : ℕ) : build83Tail A t ≠ [] := by
  unfold build83Tail
  intro hnil
  have := congrArg List.length hnil
  simp [padTo] at this

/-- The first byte of a long name entry is its number. -/
theorem lfnEntry_order {name : Str} {ck segs seg : ℕ} (h : seg + 1 + 0x40 < 256) :
    (lfnEntry name ck segs seg 0).toNat = seg + 1 + if seg + 1 = segs then 0x40 else 0 := by
  have hfold : ∀ (l : List (ℕ × ℕ)) (e : Mem), (∀ p ∈ l, 0 < p.1) →
      l.foldl (fun e p => e.setLE p.1 2 p.2) e 0 = e 0 := by
    intro l
    induction l with
    | nil => exact fun e _ => rfl
    | cons p l ih =>
      intro e hl
      rw [List.foldl_cons, ih _ fun q hq => hl q (List.mem_cons_of_mem _ hq)]
      exact Mem.setLE_ne _ (Or.inl (hl p List.mem_cons_self))
  obtain ⟨order, horder, hlt⟩ : ∃ order, order = seg + 1 + (if seg + 1 = segs then 0x40 else 0) ∧ order < 256 := by
    refine ⟨_, rfl, ?_⟩
    split <;> omega
  unfold lfnEntry
  rw [← horder, hfold, Mem.setLE_ne _ (by omega), Mem.setLE_ne _ (by omega),
    Mem.setLE_ne _ (by omega), Mem.setLE_ne _ (by omega)]
  · have hget := Mem.getLE_setLE_same (fun _ => 0xFF) 0 1 order
    rw [Nat.mod_eq_of_lt (by omega)] at hget
    simpa only [Mem.getLE, Nat.mul_zero, Nat.add_zero] using hget
  · intro p hp
    have hmem : p.1 ∈ [1, 3, 5, 7, 9, 14, 16, 18, 20, 22, 24, 28, 30] := (List.of_mem_zip hp).1
    have hpos : ∀ o ∈ [1, 3, 5, 7, 9, 14, 16, 18, 20, 22, 24, 28, 30], 0 < o := by decide
    exact hpos _ hmem

theorem lfnEntry_first {name : Str} {ck segs seg : ℕ} (h : seg + 1 + 0x40 < 256) : lfnEntry name ck segs seg 0 ≠ 0 := by
  intro h0
  have horder := @lfnEntry_order name ck segs _ h
  rw [h0] at horder
  have h00 : (0 : UInt8).toNat = 0 := rfl
  omega

theorem slotOf_lfnWriteEntries (cell : Mem) {start segs : ℕ} (name : Str) (ck : ℕ)
    (hroom : start + segs ≤ entriesPerCluster g) (j : ℕ) :
    slotOf (lfnWriteEntries g cell start segs name ck) j =
      if start ≤ j ∧ j < start + segs then trim
        (lfnEntry name ck segs (segs - 1 - (j - start))) else slotOf cell j := by
  have hfold : ∀ m ≤ segs, slotOf ((List.range m).foldl (fun cell k =>
      if start + k < entriesPerCluster g then putSlot cell (start + k) (lfnEntry name ck segs (segs - 1 - k)) else cell)
      cell) j = if start ≤ j ∧ j < start + m then trim (lfnEntry name ck segs (segs - 1 - (j - start)))
        else slotOf cell j := by
    intro m
    induction m with
    | zero =>
      intro _
      rw [if_neg (by omega)]
      rfl
    | succ m ih =>
      intro hm
      rw [List.range_succ, List.foldl_append, List.foldl_cons, List.foldl_nil, if_pos (by omega),
        slotOf_putSlot, ih (by omega)]
      by_cases hj : j = start + m
      · subst hj
        rw [if_pos rfl, if_pos (by omega), Nat.add_sub_cancel_left]
      · rw [if_neg hj]
        by_cases hin : start ≤ j ∧ j < start + m
        · rw [if_pos hin, if_pos (by omega)]
        · rw [if_neg hin, if_neg (by omega)]
  exact hfold segs le_rfl

theorem freeAlias_keeps (p : Vol → Prop) {E : St → Prop} (hE : ∀ s : St, p s.vol → E s) (fuel t : ℕ) :
    Triple (fun s => p s.vol) (freeAlias g n dir A fuel t) (fun _ s => p s.vol) E := by
  induction fuel generalizing t with
  | zero => exact Triple.fail hE
  | succ fuel ih =>
    refine (lookup_keeps p E _).bind fun r => ?_
    rcases r with _ | u
    · exact Triple.pure fun s hs => hs.1
    · exact (ih (t + 1)).mono (fun s hs => hs.1) (fun _ _ h => h) fun _ h => h

/-- The entries of a long name and the entry after them. -/
theorem Safe.insert (h : Safe g v₀ F dir w D v) (hc : c ∈ D) {segs ck : ℕ} {e cell : Mem}
    (hroom : i + segs < entriesPerCluster g) (hsegs : segs ≤ 20)
    (hfree : ∀ j < segs + 1, slotFree (slotOf (v.disk (realCluster g c)) (i + j)) = true) (h0 : e 0 ≠ 0)
    (hattr : attr e ≠ ATTR_LFN)
    (hcell : cell = putSlot (lfnWriteEntries g (v.disk (realCluster g c)) i segs A ck) (i + segs) e) :
    Safe g v₀ F dir w D { v with disk := update v.disk (realCluster g c) cell } := by
  subst hcell
  refine h.fill hc (i := i) (m := segs) hroom (fun j hj => hfree j (by omega)) (fun j hj => ?_) (fun j h1 h2 => ?_) ?_
  · rw [slotOf_putSlot, if_neg (by omega), slotOf_lfnWriteEntries _ _ _ (by omega), if_neg (by omega)]
  · by_cases hj : j = i + segs
    · rw [hj]
      exact putSlot_first h0
    · have hslot := congrFun (slotOf_putSlot
        (lfnWriteEntries g (v.disk (realCluster g c)) i segs A ck) (i + segs) e j) 0
      rw [slotOf_zero, if_neg hj, slotOf_lfnWriteEntries _ _ _ (by omega), if_pos (by omega),
        trim_of_lt (by omega)] at hslot
      rw [hslot]
      exact lfnEntry_first (by omega)
  · rw [slotOf_putSlot, if_pos rfl]
    exact resets_trim hattr

theorem dirInsertNamed_keeps (hg : g.fatEntries ≤ FAT32_EOC) (hroom : 0 < entriesPerCluster g) (hA : A.length ≤ 255)
    {ne : Str → Mem} (h0 : ∀ t, ne (build83 A) 0 ≠ 0 ∧ ne (build83Tail A t) 0 ≠ 0)
    (hattr : ∀ raw83, attr (ne raw83) ≠ ATTR_LFN) :
    Triple (fun s => Before g v₀ F n dir w D s.vol) (dirInsertNamed g n dir A ne) (fun _ => Survives g v₀ F dir w)
      (Survives g v₀ F dir w) := by
  unfold dirInsertNamed
  split
  · refine (dirAllocSlot_freeAt hg hroom).bind fun p => ?_
    exact Triple.assume fun hp => dirPutEntry_fill (h0 0).1 (hattr _) hp
  · refine (freeAlias_keeps _ (fun s hs => hs.survives) 999 1).bind fun t => ?_
    refine (dirAllocSlots_freeAt hg _).bind fun p => ?_
    rintro s ⟨D', hsafe, hc, hfree⟩
    have hrest := needBuf_keeps (p := fun v => v = s.vol) (E := Survives g v₀ F dir w) fun s' hs' =>
      ⟨D', by rw [hs']; exact hsafe⟩
    refine (hrest.bind fun _ => (getVol_keeps (fun v => v = s.vol) _).bind fun v => ?_) s rfl
    dsimp only
    split
    · exact Triple.fail fun s' hs' => ⟨D', by rw [hs'.1]; exact hsafe⟩
    · rename_i hfit
      refine Triple.modify fun s' hs' => ⟨D', ?_⟩
      obtain ⟨hs', rfl⟩ := hs'
      dsimp only
      rw [hs']
      refine hsafe.insert hc (by omega) ?_ hfree (h0 t).2 (hattr _) rfl
      unfold lfnEntryCount
      omega

theorem resolveComponent_keeps (p : Vol → Prop) {E : St → Prop} (hE : ∀ s : St, p s.vol → E s) (d : ℕ) (comp : Str) :
    Triple (fun s => p s.vol) (resolveComponent g n d comp) (fun _ s => p s.vol) E := by
  unfold resolveComponent
  split
  · exact Triple.pure fun s hs => hs
  · refine (lookup_keeps p E _).bind fun found => ?_
    split
    · rcases found with _ | u
      · exact Triple.pure fun s hs => hs.1
      · exact Triple.pure fun s hs => hs.1
    · rcases found with _ | u
      · exact Triple.fail fun s hs => hE s hs.1
      · dsimp only
        split
        · exact Triple.pure fun s hs => hs.1
        · exact Triple.fail fun s hs => hE s hs.1

theorem foldlM_keeps (p : Vol → Prop) {E : St → Prop} (hE : ∀ s : St, p s.vol → E s) (comps : List Str) (d : ℕ) :
    Triple (fun s => p s.vol) (comps.foldlM (resolveComponent g n) d) (fun _ s => p s.vol) E := by
  induction comps generalizing d with
  | nil => exact Triple.pure fun s hs => hs
  | cons comp comps ih =>
    rw [List.foldlM_cons]
    exact (resolveComponent_keeps p hE d comp).bind fun d' => ih d'

theorem resolveDir_keeps (p : Vol → Prop) {E : St → Prop} (hE : ∀ s : St, p s.vol → E s) (path : Str) :
    Triple (fun s => p s.vol) (resolveDir g n path) (fun _ s => p s.vol) E :=
  Triple.get.bind fun _ => (foldlM_keeps p hE _ _).mono (fun _ hs => hs.1) (fun _ _ h => h)
  fun _ h => h

/-- Walking a path changes nothing on the volume. -/
theorem resolveParent_keeps (p : Vol → Prop) {E : St → Prop} (hE : ∀ s : St, p s.vol → E s) (path : Str) :
    Triple (fun s => p s.vol) (resolveParent g n path) (fun _ s => p s.vol) E := by
  refine (Triple.get (P := fun s : St => p s.vol)).bind fun s => ?_
  split
  · extract_lets base slash plen
    by_cases hlong : 256 ≤ plen
    · rw [if_pos hlong]
      exact Triple.fail fun s hs => hE s hs.1
    · rw [if_neg hlong]
      refine Triple.mono (P := fun s => p s.vol) ?_ (fun _ hs => hs.1) (fun _ _ h => h) fun _ h => h
      exact (resolveDir_keeps p hE _).bind fun d => Triple.pure fun s hs => hs
  · exact Triple.pure fun s hs => hs.1

/-- A volume in which directory `dir` is well formed: its chain ends and its clusters and those
of its files are in use, each by one of them. -/
structure Sound (g : Geom) (v : Vol) (n dir : ℕ) : Prop where
  size : g.fatEntries ≤ FAT32_EOC
  room : 32 ≤ g.bytesPerCluster
  ends : chain g v (n + 1) dir = chain g v n dir
  nodup : ((chain g v n dir).map (realCluster g)).Nodup
  used : ∀ c ∈ chain g v n dir, realCluster g c < g.fatEntries ∧ isFree v (realCluster g c) = false
  files : ∀ u ∈ visits g v n dir, isDirectory u.entry = false → ∀ x, Reach g v (entryCluster u.entry) x →
    isFree v x = false ∧ x ∉ (chain g v n dir).map (realCluster g)
  apart : ∀ u ∈ visits g v n dir, ∀ w ∈ visits g v n dir, isDirectory u.entry = false →
    isDirectory w.entry = false → (u.chunk ≠ w.chunk ∨ u.idx ≠ w.idx) →
      ∀ x, Reach g v (entryCluster u.entry) x → ¬ Reach g v (entryCluster w.entry) x

def File (g : Geom) (v : Vol) (w : Visit) (x : ℕ) : Prop := Reach g v (entryCluster w.entry) x

/-- The entry is still in the directory, and its file has the same bytes. -/
def Intact (g : Geom) (dir : ℕ) (w : Visit) (v v' : Vol) : Prop :=
  (∃ n, ∀ m ≥ n, w ∈ visits g v' m dir) ∧ ∀ max, contentOf g v' w.entry max = contentOf g v w.entry
  max

/-- What is done under the name `A` of directory `dir` leaves the entry `w` alone. -/
structure Separate (g : Geom) (v : Vol) (n dir : ℕ) (w : Visit) (A : Str) : Prop where
  write : ∀ (s s' : St) (path data : Str), s.vol = v → (resolveParent g n path).run s = (some (dir, A), s') →
    Intact g dir w v ((fat32WriteFile g n path data).run s).2.vol
  delete : ∀ (s s' : St) (path : Str), s.vol = v → (resolveParent g n path).run s = (some (dir, A), s') →
    Intact g dir w v ((fat32DeleteFile g n path).run s).2.vol
  mkdir : ∀ (s s' : St) (path : Str), s.vol = v → (resolveParent g n path).run s = (some (dir, A), s') →
    Intact g dir w v ((fat32Mkdir g n path).run s).2.vol
  read : ∀ u, readFinds g v n dir A = some u → u.chunk ≠ w.chunk ∨ u.idx ≠ w.idx

theorem chain_of_length (h : chain g v (n + 1) c = chain g v n c) {m : ℕ} (hm : (chain g v n c).length ≤ m) :
    chain g v m c = chain g v n c := by
  induction n generalizing c m with
  | zero => rw [chain_succ] at h; cases h
  | succ n ih =>
    rw [chain_succ g v (n + 1) c, chain_succ g v n c] at h
    rw [chain_succ] at hm ⊢
    obtain ⟨m, rfl⟩ : ∃ k, m = k + 1 := ⟨m - 1, by rw [List.length_cons] at hm; omega⟩
    rw [chain_succ]
    split at hm
    · rw [if_pos ‹_›, if_pos ‹_›]
    · rename_i hend
      rw [if_neg hend, if_neg hend] at h
      rw [if_neg hend, if_neg hend, ih (List.cons.inj h).2 (by rw [List.length_cons] at hm; omega)]

theorem length_chain_le (g : Geom) (v : Vol) (n c : ℕ) : (chain g v n c).length ≤ n := by
  induction n generalizing c with
  | zero => exact le_rfl
  | succ n ih =>
    rw [chain_succ, List.length_cons]
    split
    · simp
    · have := ih (getEntry g v (realCluster g c))
      omega

theorem Sound.before (h : Sound g v n dir) (hw : w ∈ visits g v n dir) (hfile : isDirectory w.entry = false) :
    Before g v (File g v w) n dir w (chain g v n dir) v where
  chain _ hm := chain_of_length h.ends hm
  nodup := h.nodup
  used := h.used
  file x hx := ⟨(h.files w hw hfile x hx).1, rfl, rfl⟩
  apart _ hc hx := (h.files w hw hfile _ hx).2 (List.mem_map_of_mem hc)
  seen := hw
  small := length_chain_le g v n dir
  same _ _ := rfl

theorem Survives.intact (h : Survives g v₀ (File g v₀ w) dir w s) : Intact g dir w v₀ s.vol := by
  obtain ⟨D, hD⟩ := h
  refine ⟨⟨D.length, fun m hm => ?_⟩, fun max => readLoop_congr fun x hx => (hD.file x hx).2⟩
  rw [visits_eq, hD.chain m hm]
  exact hD.seen

section Operations

variable (hs : Sound g v n dir) (hw : w ∈ visits g v n dir) (hfile : isDirectory w.entry = false)
  (hlen : A.length ≤ 255) (h0 : 0 ∉ A)
  (hread : ∀ u, readFinds g v n dir A = some u → u.chunk ≠ w.chunk ∨ u.idx ≠ w.idx)

include hs in
theorem Sound.entries_pos : 0 < entriesPerCluster g := by
  have := hs.room
  unfold entriesPerCluster
  omega

include h0 in
theorem newEntry_keeps {a : ℕ} (ha : a < 256) (hlfn : a ≠ ATTR_LFN) (cl size : ℕ) :
    (∀ t, newEntry (build83 A) a cl size 0 ≠ 0 ∧ newEntry (build83Tail A t) a cl size 0 ≠ 0) ∧
      ∀ raw83, attr (newEntry raw83 a cl size) ≠ ATTR_LFN := by
  refine ⟨fun t => ⟨newEntry_first (build83_ne_zero h0) (build83_ne_nil A),
    newEntry_first (build83Tail_ne_zero h0 t) (build83Tail_ne_nil A t)⟩, fun raw83 => ?_⟩
  rw [attr_newEntry _ _ _ ha]
  exact hlfn

include hs hw hfile in
theorem Sound.freeChain_before (hu : u ∈ visits g v n dir) (hufile : isDirectory u.entry = false)
    (hne : u.chunk ≠ w.chunk ∨ u.idx ≠ w.idx) :
    Before g v (File g v w) n dir w (chain g v n dir) (freeLoop g (g.totalClusters + 2) (entryCluster u.entry) v) := by
  refine Fat32.freeChain_before hs.size (hs.before hw hfile) fun x hx hux => ?_
  rcases hx with hx | hx
  · exact hs.apart u hu w hw hufile hfile hne x hux hx
  · exact (hs.files u hu hufile x hux).2 hx

include hs hw hfile hlen h0 hread in
theorem writeIn_keeps (data : Str) : Triple (fun s => s.vol = v) (writeIn g n dir A data)
    (fun _ => Survives g v (File g v w) dir w) (Survives g v (File g v w) dir w) := by
  have hbefore := hs.before hw hfile
  have hnew := fun cl => newEntry_keeps h0 (show ATTR_ARCHIVE < 256 by decide) (by decide) cl data.length
  have hend : Triple (Survives g v (File g v w) dir w) (flushFat g >>= fun _ => pure data.length)
    (fun _ => Survives g v (File g v w) dir w)
      (Survives g v (File g v w) dir w) := flushFat_keeps.bind fun _ => Triple.pure fun _ h => h
  refine (lookup_keeps (fun v' => v' = v) _ _).bind fun found => ?_
  rcases found with _ | u
  · refine Triple.mono (P := fun s => Before g v (File g v w) n dir w (chain g v n dir) s.vol) ?_
      (fun s hv => by rw [hv.1]; exact hbefore) (fun _ _ h => h) fun _ h => h
    rw [if_neg (by decide)]
    refine (needBuf_keeps fun s hb => hb.survives).bind fun _ => ?_
    refine (writeLoop_before _ _ 0 fun h => absurd rfl h).bind fun first => ?_
    exact (dirInsertNamed_keeps hs.size hs.entries_pos hlen (hnew first).1 (hnew first).2).bind fun _ => hend
  · refine Triple.mono (P := fun s => writeFinds g v n dir A = some u ∧ s.vol = v) (Triple.assume fun hfind => ?_)
      (fun s hv => ⟨hv.1 ▸ hv.2 u rfl, hv.1⟩) (fun _ _ h => h) fun _ h => h
    have hu : u ∈ visits g v n dir := List.mem_of_find?_eq_some hfind
    have hne := hread u hfind
    cases hdir : isDirectory u.entry with
    | true =>
      rw [if_pos (by rw [Option.any_some, hdir])]
      exact Triple.fail fun s hv => ⟨_, by rw [hv]; exact hbefore.toSafe⟩
    | false =>
      rw [if_neg (by rw [Option.any_some, hdir]; decide)]
      have hrest : Triple (fun s => Before g v (File g v w) n dir w (chain g v n dir) s.vol)
          (needBuf >>= fun _ => writeLoop g data.length data 0 0 >>= fun first =>
            dirPutEntry g u.chunk u.idx (newEntry (shortName u.entry) ATTR_ARCHIVE first data.length) >>= fun _ =>
              flushFat g >>= fun _ => pure data.length)
          (fun _ => Survives g v (File g v w) dir w) (Survives g v (File g v w) dir w) := by
        refine (needBuf_keeps fun s hb => hb.survives).bind fun _ => ?_
        refine (writeLoop_before _ _ 0 fun h => absurd rfl h).bind fun first => ?_
        refine (dirPutEntry_rewrite ?_ ((hnew first).2 _) hu hne).bind fun _ => hend
        rw [newEntry_zero]
        exact (mem_scan hu).2.1
      dsimp only
      split
      · refine Triple.bind (Q := fun _ s => Before g v (File g v w) n dir w (chain g v n dir) s.vol) ?_ fun _ => hrest
        exact Triple.modify fun s hv => hv ▸ hs.freeChain_before hw hfile hu hdir hne
      · exact hrest.mono (fun s hv => by rw [hv]; exact hbefore) (fun _ _ h => h) fun _ h => h

include hs hw hfile hread in
theorem deleteIn_keeps : Triple (fun s => s.vol = v) (deleteIn g n dir A)
    (fun _ => Survives g v (File g v w) dir w) (Survives g v (File g v w) dir w) := by
  have hbefore := hs.before hw hfile
  have hkept : ∀ s : St, s.vol = v → Survives g v (File g v w) dir w s :=
    fun s hv => ⟨_, by rw [hv]; exact hbefore.toSafe⟩
  refine (lookup_keeps (fun v' => v' = v) _ _).bind fun found => ?_
  rcases found with _ | u
  · exact Triple.fail fun s hv => hkept s hv.1
  · refine Triple.mono (P := fun s => deleteFinds g v n dir A = some u ∧ s.vol = v) (Triple.assume fun hfind => ?_)
      (fun s hv => ⟨hv.1 ▸ hv.2 u rfl, hv.1⟩) (fun _ _ h => h) fun _ h => h
    have hu : u ∈ visits g v n dir := List.mem_of_find?_eq_some hfind
    have hne := hread u hfind
    dsimp only
    cases hdir : isDirectory u.entry with
    | true => exact Triple.fail hkept
    | false =>
      have hrest : Triple (fun s => Before g v (File g v w) n dir w (chain g v n dir) s.vol)
          (attempt (dirDeleteSlot g u.chunk u.idx) >>= fun _ => flushFat g) (fun _ => Survives g v (File g v w) dir w)
          (Survives g v (File g v w) dir w) := by
        refine (dirDeleteSlot_keeps hu hne).attempt.bind fun r => ?_
        refine flushFat_keeps.mono (fun s hr => ?_) (fun _ _ h => h) fun _ h => h
        rcases hr with ⟨_, -, hkeep⟩ | ⟨-, hkeep⟩
        · exact hkeep
        · exact hkeep
      rw [if_neg (by decide)]
      split
      · refine Triple.bind (Q := fun _ s => Before g v (File g v w) n dir w (chain g v n dir) s.vol) ?_ fun _ => hrest
        exact Triple.modify fun s hv => hv ▸ hs.freeChain_before hw hfile hu hdir hne
      · exact hrest.mono (fun s hv => by rw [hv]; exact hbefore) (fun _ _ h => h) fun _ h => h

include hs hlen h0 in
/-- The entry of a new directory, whose cluster `c` is kept with the file until it is known whether
the entry fits. -/
theorem mkdirInsert_keeps : Triple (fun s => Before g v (File g v w) n dir w (chain g v n dir)
      s.vol ∧ ¬ Guarded g (File g v w) (chain g v n dir) c ∧ isFree s.vol c = false)
    (attempt (dirInsertNamed g n dir A fun raw83 => newEntry raw83 ATTR_DIRECTORY c 0) >>= fun r =>
      match r with
      | some _ => flushFat g
      | none => setVol (setEntry g c FAT32_FREE) >>= fun _ => fail)
    (fun _ => Survives g v (File g v w) dir w) (Survives g v (File g v w) dir w) := by
  rintro s ⟨hb, hnot, hused⟩
  have hnew := newEntry_keeps h0 (show ATTR_DIRECTORY < 256 by decide) (by decide) c 0
  have hins := @dirInsertNamed_keeps g s.vol (fun x => File g v w x ∨ x = c) n dir w
    (chain g v n dir) _ hs.size hs.entries_pos hlen
    _ hnew.1 hnew.2
  have hback : ∀ s', Survives g s.vol (fun x => File g v w x ∨ x = c) dir w s' → ∃ D,
      Safe g v (File g v w) dir w D s'.vol ∧ ¬ Guarded g (File g v w) D c := by
    rintro s' ⟨D, hD⟩
    refine ⟨D, ⟨hD.chain, hD.nodup, hD.used, fun x hx => ?_, fun d hd hx => hD.apart d hd (Or.inl hx), hD.seen⟩, ?_⟩
    · obtain ⟨hfree, hent, hdisk⟩ := hD.file x (Or.inl hx)
      obtain ⟨-, hent', hdisk'⟩ := hb.file x hx
      exact ⟨hfree, hent.trans hent', hdisk.trans hdisk'⟩
    · rintro (hx | hx)
      · exact hnot (Or.inl hx)
      · obtain ⟨d, hd, heq⟩ := List.mem_map.mp hx
        exact hD.apart d hd (Or.inr heq)
  refine (hins.attempt.bind fun r => ?_) s ?_
  · rcases r with _ | _
    · refine Triple.bind (Q := fun _ => Survives g v (File g v w) dir w) (Triple.modify fun s' hr => ?_) fun _ =>
        Triple.fail fun _ h => h
      obtain ⟨_, hcontra, -⟩ | ⟨-, hr⟩ := hr
      · cases hcontra
      · obtain ⟨D, hD, hnotD⟩ := hback s' hr
        exact ⟨D, hD.setEntry hnotD⟩
    · refine flushFat_keeps.mono (fun s' hr => ?_) (fun _ _ h => h) fun _ h => h
      obtain ⟨_, -, hr⟩ | ⟨hcontra, -⟩ := hr
      · obtain ⟨D, hD, -⟩ := hback s' hr
        exact ⟨D, hD⟩
      · cases hcontra
  · refine ⟨⟨hb.chain, hb.nodup, hb.used, fun x hx => ⟨?_, rfl, rfl⟩, fun d hd hx => ?_, hb.seen⟩,
      hb.small, fun _ _ => rfl⟩
    · rcases hx with hx | rfl
      · exact (hb.file x hx).1
      · exact hused
    · rcases hx with hx | hx
      · exact hb.apart d hd hx
      · exact hnot (Or.inr (hx ▸ List.mem_map_of_mem hd))

include hs hw hfile hlen h0 in
theorem mkdirIn_keeps : Triple (fun s => s.vol = v) (mkdirIn g n dir A)
    (fun _ => Survives g v (File g v w) dir w) (Survives g v (File g v w) dir w) := by
  have hbefore := hs.before hw hfile
  refine (lookup_keeps (fun v' => v' = v) _ _).bind fun found => ?_
  split
  · exact Triple.fail fun s hv => ⟨_, by rw [hv.1]; exact hbefore.toSafe⟩
  · refine Triple.mono (P := fun s => Before g v (File g v w) n dir w (chain g v n dir) s.vol) ?_
      (fun s hv => by rw [hv.1]; exact hbefore) (fun _ _ h => h) fun _ h => h
    refine (allocCluster_before _).bind fun r => ?_
    rcases r with _ | c
    · exact Triple.fail fun s hb => hb.1.survives
    · refine Triple.mono (P := fun s => ¬ Guarded g (File g v w) (chain g v n dir) c ∧
        (Before g v (File g v w) n dir w (chain g v n dir) s.vol ∧ isFree s.vol c = false))
        (Triple.assume fun hnot => ?_)
        (fun s hb => ⟨(hb.2 c rfl).1, hb.1, (hb.2 c rfl).2⟩) (fun _ _ h => h) fun _ h => h
      refine (needBuf_keeps (p := fun v' => Before g v (File g v w) n dir w (chain g v n dir) v' ∧
        isFree v' c = false) fun s hb => hb.1.survives).bind fun _ => ?_
      refine Triple.bind (Q := fun _ s => Before g v (File g v w) n dir w (chain g v n dir) s.vol ∧
        ¬ Guarded g (File g v w) (chain g v n dir) c ∧ isFree s.vol c = false) (Triple.modify fun s hb => ?_) fun _ =>
          mkdirInsert_keeps hs hlen h0
      exact ⟨hb.1.writeCell hnot, hnot, hb.2⟩

end Operations

/-- An operation on a path runs in the parent directory on the last name. -/
theorem at_parent {α : Type} {f : ℕ × Str → M α} {path : Str} {s s' : St} {Q : St → Prop}
    (hp : (resolveParent g n path).run s = (some (dir, A), s'))
    (hf : Triple (fun s'' => s''.vol = s.vol) (f (dir, A)) (fun _ => Q) Q) :
    Q ((resolveParent g n path >>= f).run s).2 := by
  have hvol := (resolveParent_keeps (g := g) (n := n) (fun v' => v' = s.vol) (E := fun _ => True)
    (fun _ _ => trivial) path s rfl).1 (dir, A) (by rw [hp])
  rw [hp] at hvol
  rw [bind_of_some hp]
  rcases hrun : (f (dir, A)).run s' with ⟨_ | a, s''⟩
  · have := (hf s' hvol).2
    rw [hrun] at this
    exact this rfl
  · have := (hf s' hvol).1
    rw [hrun] at this
    exact this a rfl

theorem places_scan (segs : List Mem) (L : List Slot) :
    ((scan segs L).map fun u => (u.chunk, u.idx)).Sublist (L.map fun p => (p.chunk, p.idx)) := by
  induction L generalizing segs with
  | nil => exact List.Sublist.refl _
  | cons p L ih =>
    rw [scan]
    split
    · exact List.nil_sublist _
    · split
      · exact (ih _).cons _
      · split
        · exact (ih _).cons _
        · exact (ih _).cons_cons _

theorem nodup_slots (hD : D.Nodup) : ((slots g v D).map fun p => (p.chunk, p.idx)).Nodup := by
  unfold slots
  rw [List.map_flatMap, List.nodup_flatMap]
  refine ⟨fun c _ => ?_, ?_⟩
  · unfold slotsIn
    rw [List.map_map]
    refine List.Nodup.map (fun i j hij => ?_) List.nodup_range
    exact (Prod.mk.inj hij).2
  · refine List.Pairwise.imp (fun {c d} hcd => ?_) hD
    intro p hp hq
    simp only [slotsIn, List.map_map] at hp hq
    obtain ⟨i, -, rfl⟩ := List.mem_map.mp hp
    obtain ⟨j, -, hj⟩ := List.mem_map.mp hq
    exact hcd (Prod.mk.inj hj).1.symm

/-- Every place in a directory is visited at most once. -/
theorem nodup_places (hD : D.Nodup) : ((scan [] (slots g v D)).map fun u => (u.chunk, u.idx)).Nodup :=
  (nodup_slots hD).sublist (places_scan _ _)

theorem Sound.eq_of_place (h : Sound g v n dir) (hu : u ∈ visits g v n dir) (hw : w ∈ visits g v n dir)
    (hc : u.chunk = w.chunk) (hi : u.idx = w.idx) : u = w :=
  List.inj_on_of_nodup_map (nodup_places (List.Nodup.of_map _ h.nodup)) hu hw (Prod.ext hc hi)

theorem short_of_found (hname : (listName w).map lower ≠ A.map lower) (hlen : A.length ≤ 255)
    (hfind : readFinds g v n dir A = some w) : shortName w.entry = build83 A := by
  have hmatch := List.find?_some hfind
  rw [Bool.or_eq_true] at hmatch
  rcases hmatch with hshort | hlong
  · exact of_decide_eq_true hshort
  · simp only [matchesLong, Bool.and_eq_true, decide_eq_true_eq, ne_eq, List.take_of_length_le hlen] at hlong
    obtain ⟨⟨-, hlfn⟩, hlower⟩ := hlong
    refine absurd ?_ hname
    have hlen' : w.lfn.length ≤ 255 := by
      have := congrArg List.length hlower
      rw [List.length_map, List.length_map] at this
      omega
    rw [listName, if_pos hlfn, List.take_of_length_le hlen', hlower]

/-- The file under another name is left alone exactly when its short name is not the one to which
the name is cut, or an entry before it has the name. -/
theorem names_apart_iff (hs : Sound g v n dir) (hw : w ∈ visits g v n dir) (hfile : isDirectory w.entry = false)
    (hlen : A.length ≤ 255) (h0 : 0 ∉ A) (hname : (listName w).map lower ≠ A.map lower) :
    Separate g v n dir w A ↔ ∀ pre post, visits g v n dir = pre ++ w :: post → shortName w.entry = build83 A →
      ∃ u ∈ pre, matchesShort (build83 A) u = true ∨ matchesLong A u = true := by
  have htake : A.take 255 = A := List.take_of_length_le hlen
  constructor
  · intro h pre post heq hshort
    by_contra hnone
    push Not at hnone
    have hfind : readFinds g v n dir A = some w := by
      unfold readFinds dirFindLfn
      rw [heq, List.find?_append, htake, List.find?_eq_none.mpr, Option.none_or, List.find?_cons]
      · simp [matchesShort, hshort]
      · intro u hu
        have := hnone u hu
        simp [this.1, this.2]
    rcases h.read w hfind with hne | hne
    · exact hne rfl
    · exact hne rfl
  · intro h
    have hread : ∀ u, readFinds g v n dir A = some u → u.chunk ≠ w.chunk ∨ u.idx ≠ w.idx := by
      intro u hfind
      by_contra hplace
      rw [not_or, not_not, not_not] at hplace
      have hu : u ∈ visits g v n dir := List.mem_of_find?_eq_some hfind
      obtain rfl := hs.eq_of_place hu hw hplace.1 hplace.2
      obtain ⟨-, pre, post, heq, hpre⟩ := List.find?_eq_some_iff_append.mp hfind
      obtain ⟨x, hx, hmatch⟩ := h pre post heq (short_of_found hname hlen hfind)
      have := hpre x hx
      rw [htake] at this
      rcases hmatch with hm | hm <;> simp [hm] at this
    refine ⟨fun s s' path data hv hp => ?_, fun s s' path hv hp => ?_, fun s s' path hv hp => ?_, hread⟩
    · subst hv
      exact Survives.intact (at_parent hp (writeIn_keeps hs hw hfile hlen h0 hread data))
    · subst hv
      exact Survives.intact (at_parent hp (deleteIn_keeps hs hw hfile hread))
    · subst hv
      exact Survives.intact (at_parent hp (mkdirIn_keeps hs hw hfile hlen h0))

/-- `longfile.txt`, of four bytes. -/
def nameEntry : Mem := fun j =>
  ([76, 79, 78, 71, 70, 73, 76, 69, 84, 88, 84, 0x20, 0, 0, 0, 0, 0, 0, 0, 0, 0, 0, 0, 0, 0, 0, 3,
  0, 4] : Str).getD j 0

def nameVol : Vol where
  fat := fun c => if c < 4 then FAT32_EOC else 0
  copies := fun _ c => if c < 4 then FAT32_EOC else 0
  disk := fun c => if c = 2 then nameEntry else fun _ => 0

/-- The entry of `longfile.txt`. -/
def nameVisit : Visit where
  chunk := 0
  idx := 0
  entry := slotOf (nameVol.disk 2) 0
  lfn := []

theorem visits_nameVol : visits longGeom nameVol 1 0 = [nameVisit] := rfl

theorem reach_nameVisit {x : ℕ} (h : Reach longGeom nameVol (entryCluster nameVisit.entry) x) : x = 3 := by
  have hcluster : entryCluster nameVisit.entry = 3 := by decide
  rw [hcluster] at h
  obtain ⟨m, hm⟩ := h
  rcases m with _ | _ | m
  · cases hm
  · exact List.mem_singleton.mp hm
  · have hfollow : follow longGeom nameVol (m + 2) 3 = [3] := rfl
    rw [hfollow] at hm
    exact List.mem_singleton.mp hm

theorem sound_nameVol : Sound longGeom nameVol 1 0 where
  size := by decide
  room := by decide
  ends := rfl
  nodup := by decide
  used := by decide
  files := by
    intro u hu _ x hx
    rw [visits_nameVol, List.mem_singleton] at hu
    rw [hu] at hx
    rw [reach_nameVisit hx]
    decide
  apart := by
    intro u hu w hw _ _ hne
    rw [visits_nameVol, List.mem_singleton] at hu hw
    rw [hu, hw] at hne
    simp at hne

/-- Nothing that is done under the name `other.txt` touches `longfile.txt`. -/
theorem other_apart : Separate longGeom nameVol 1 0 nameVisit [111, 116, 104, 101, 114, 46, 116, 120, 116] := by
  refine (names_apart_iff sound_nameVol (by rw [visits_nameVol]; exact List.mem_singleton_self _)
    (by decide) (by decide) (by decide) (by decide)).mpr fun pre post _ hshort => ?_
  exact absurd hshort (by decide)

/-- Reading `longfilename.txt` finds `longfile.txt`. -/
theorem cut_name_not_apart : ¬ ∀ (g : Geom) (v : Vol) (n dir : ℕ) (w : Visit) (A : Str),
    Sound g v n dir → w ∈ visits g v n dir → isDirectory w.entry = false → A ≠ [] → A.length ≤ 255 →
    0 ∉ A → (listName w).map lower ≠ A.map lower → Separate g v n dir w A := by
  intro h
  have hsep := h longGeom nameVol 1 0 nameVisit [108, 111, 110, 103, 102, 105, 108, 101, 110, 97,
    109, 101, 46, 116, 120, 116]
    sound_nameVol (by rw [visits_nameVol]; exact List.mem_singleton_self _) (by decide) (by decide)
    (by decide) (by decide)
    (by decide)
  rcases hsep.read nameVisit rfl with hne | hne
  · exact hne rfl
  · exact hne rfl

end ComputerOS.Fat32
