import ComputerOS.Fat32.Runs

/-!
Moving a file, with enough heap. The new entry goes to the first free slot of the directory under
the short form of its name; whether there is an entry with that name already, and what a long name
loses, is not looked at.
-/
namespace ComputerOS.Fat32

open Function Fallible

variable {g : Geom} {v v1 v2 v' : Vol} {n cwd d e c : ℕ} {src dst path A B : Str} {s : St} {u w r new : Visit}
  {T X D O : List ℕ} {p : ℕ × ℕ} {L P Q : List Visit}

/-- The path that is written to: under `dst` if that is a directory. -/
def dstOf (g : Geom) (v : Vol) (n cwd : ℕ) (dst base : Str) : Option Str :=
  match (walked dst).foldlM (compDir g v n) (if dst.head? = some 47 then 0 else cwd) with
  | some _ => if 256 ≤ dst.length + 1 + base.length then none else some (dst ++ 47 :: base)
  | none => if 256 ≤ dst.length then none else some dst

theorem dstPath_full (dst base : Str) : (dstPath g n dst base).run (full v cwd) =
    (dstOf g v n cwd dst base, full v cwd) := by
  have hdir : (resolveDir g n dst).run (full v cwd) =
      ((walked dst).foldlM (compDir g v n) (if dst.head? = some 47 then 0 else cwd), full v cwd) := foldlM_full _ _
  have hatt : (attempt (resolveDir g n dst)).run (full v cwd) =
      (some ((resolveDir g n dst).run (full v cwd)).1, ((resolveDir g n dst).run (full v cwd)).2) := rfl
  rw [hdir] at hatt
  rw [dstPath, bind_of_some hatt, dstOf]
  dsimp only
  cases (walked dst).foldlM (compDir g v n) (if dst.head? = some 47 then 0 else cwd) with
  | none =>
    dsimp only
    split <;> rfl
  | some x =>
    dsimp only
    split <;> rfl

/-- The entry under the short form of another name. -/
def renamed (entry : Mem) (B : Str) : Mem := fun j => if j < 11 then (build83 B).getD j 0 else entry j

/-- The slot `p` is filled. -/
def putVol (g : Geom) (v : Vol) (p : ℕ × ℕ) (entry : Mem) : Vol :=
  { v with disk := update v.disk (realCluster g p.1) (putSlot (chunkOf g v p.1) p.2 entry) }

def eraseVol (g : Geom) (v : Vol) (w : Visit) : Vol :=
  { v with disk := update v.disk (realCluster g w.chunk) (eraseSlots (chunkOf g v w.chunk) w.idx) }

/-- What a move that succeeds has done. -/
theorem mv_steps (hsrc : parentOf g v n cwd src = some (d, A)) (hdst : dstOf g v n cwd dst A = some path)
    (hparent : parentOf g v n cwd path = some (e, B))
    (hrun : (fat32Mv g n src dst).run (full v cwd) = (some (), s)) :
    ∃ w p s1, mvFinds g v n d A = some w ∧ isDirectory w.entry = false ∧
      (dirAllocSlot g n e).run (full v cwd) = (some p, s1) ∧
      ∀ v1, s1 = full v1 cwd → s = full (flushed g (eraseVol g (putVol g v1 p (renamed w.entry B)) w)) cwd := by
  rw [fat32Mv, bind_run, resolveParent_full, hsrc] at hrun
  dsimp only at hrun
  rw [bind_of_some (lookup_full _)] at hrun
  cases hfind : mvFinds g v n d A with
  | none =>
    rw [hfind] at hrun
    cases hrun
  | some w =>
  rw [hfind] at hrun
  dsimp only at hrun
  cases hfile : isDirectory w.entry with
  | true =>
    rw [if_pos hfile] at hrun
    cases hrun
  | false =>
  rw [if_neg (by rw [hfile]; decide), bind_run, dstPath_full, hdst] at hrun
  dsimp only at hrun
  rw [bind_run, resolveParent_full, hparent] at hrun
  dsimp only at hrun
  rw [bind_run] at hrun
  rcases halloc : (dirAllocSlot g n e).run (full v cwd) with ⟨_ | p, s1⟩
  · rw [halloc] at hrun
    cases hrun
  refine ⟨w, p, s1, rfl, hfile, rfl, fun v1 hs1 => ?_⟩
  rw [halloc, hs1] at hrun
  dsimp only at hrun
  rw [bind_of_some (dirPutEntry_full _ _ _), bind_of_some (dirDeleteSlot_full _ _), flushFat_full] at hrun
  exact (Prod.mk.inj hrun).2.symm

def away (w : Visit) (L : List Visit) : List Visit := L.filter fun u => decide ((u.chunk, u.idx) ≠ (w.chunk, w.idx))

theorem mem_away : u ∈ away w L ↔ u ∈ L ∧ (u.chunk, u.idx) ≠ (w.chunk, w.idx) := by
  unfold away
  rw [List.mem_filter, decide_eq_true_iff]

theorem away_append (w : Visit) (P Q : List Visit) : away w (P ++ Q) = away w P ++ away w Q := List.filter_append ..

theorem away_cons_of_ne (h : (u.chunk, u.idx) ≠ (w.chunk, w.idx)) : away w (u :: L) = u :: away w L :=
  List.filter_cons_of_pos (decide_eq_true h)

theorem away_of_forall (h : ∀ u ∈ L, (u.chunk, u.idx) ≠ (w.chunk, w.idx)) : away w L = L :=
  List.filter_eq_self.mpr fun u hu => decide_eq_true (h u hu)

theorem away_split (h : ((P ++ w :: Q).map fun u => (u.chunk, u.idx)).Nodup) : away w (P ++ w :: Q) = P ++ Q := by
  rw [List.map_append, List.map_cons, List.nodup_middle, List.nodup_cons, ← List.map_append] at h
  have hne : ∀ u ∈ P ++ Q, (u.chunk, u.idx) ≠ (w.chunk, w.idx) := fun u hu heq =>
    h.1 (heq ▸ List.mem_map_of_mem (f := fun u : Visit => (u.chunk, u.idx)) hu)
  rw [away_append, away, away, List.filter_cons_of_neg (by simp)]
  exact (away_append w P Q).symm.trans (away_of_forall hne)

/-- The entries of a directory after one of them has been erased. -/
theorem scan_eraseVol (hnodup : (D.map (realCluster g)).Nodup) (hw : w ∈ scan [] (slots g v D)) :
    scan [] (slots g (eraseVol g v w) D) = away w (scan [] (slots g v D)) := by
  obtain ⟨P, Q, hscan, hscan'⟩ := erase_entries hnodup hw rfl
  have hplaces := nodup_places (g := g) (v := v) (List.Nodup.of_map _ hnodup)
  rw [hscan] at hplaces
  rw [hscan, away_split hplaces]
  exact hscan'

/-- The new entry stands behind those before the first free slot. -/
theorem scan_putVol {entry : Mem} (hg : g.Ok) (hn : g.totalClusters ≤ n)
    (hT : Linked g v (realCluster g e) (realCluster g e :: T))
    (hplaced : Placed g v v1 e T X 1 p.1 p.2) (hroom : p.2 + 1 ≤ entriesPerCluster g)
    (hfirst : ∃ e' Z, slots g v1 (e :: T ++ X) = usedSlots g v (e :: T) ++ ⟨p.1, p.2, e'⟩ :: Z) (h0 : entry 0 ≠ 0)
    (h1 : entry 0 ≠ 0xE5) (hattr : attr entry ≠ ATTR_LFN) :
    ∃ Q, visits g v n e = scan [] (usedSlots g v (e :: T)) ++ Q ∧
      scan [] (slots g (putVol g v1 p entry) (e :: T ++ X)) =
        scan [] (usedSlots g v (e :: T)) ++ ⟨p.1, p.2, trim entry, []⟩ :: Q := by
  obtain ⟨C, Z, hsplit, hend, hcoll, htidy, hfree, hupd⟩ := hplaced.split hroom
  have hgrown := hplaced.grown
  rw [List.cons_append] at hgrown
  have hnodup : (e :: T ++ X).Nodup := List.Nodup.of_map _ (nodup_dir hg hgrown)
  -- the slots before the first free one are those before the new entry
  have hC : C = usedSlots g v (e :: T) := by
    obtain ⟨e', Z', hfirst⟩ := hfirst
    have hslots := nodup_slots (g := g) (v := v1) hnodup
    have hmem : (⟨p.1, p.2, e'⟩ : Slot) ∈ slots g v1 (e :: T ++ X) := by
      rw [hfirst]
      exact List.mem_append_right _ List.mem_cons_self
    have hentry : e' = slotOf (v1.disk (realCluster g p.1)) p.2 := (mem_slots hmem).2.2
    rw [hsplit, block_one, List.singleton_append] at hfirst hslots
    have hnot := List.Nodup.of_map _ hslots
    rw [List.nodup_middle, List.nodup_cons, List.mem_append, not_or] at hnot
    rw [hentry] at hfirst
    exact ((List.append_cons_inj_of_notMem hnot.1.1 hnot.1.2).mp hfirst).1
  have hnew := hupd (putSlot (chunkOf g v1 p.1) p.2 entry) fun j hj => by
    rw [slotOf_putSlot, if_neg (by omega)]
    rfl
  rw [block_one, slotOf_putSlot, if_pos rfl] at hnew
  have hfill := scan_fill (p := ⟨p.1, p.2, trim entry⟩) (L := []) hend hcoll hfree (List.cons_ne_nil _ _) htidy
    (fun q hq => by cases hq) (Nat.zero_le _) (slotFree_trim h0 h1) (by rwa [attr_trim])
  rw [← hsplit, hC, hplaced.same, ← visits_dir hg hn hT] at hfill
  refine ⟨scan [] Z, hfill.1, ?_⟩
  rw [← hC, putVol, hnew, hC]
  exact hfill.2

/-- What a move leaves: directory `e`, with the clusters `T` behind its first one, has got the
clusters `X` and, behind the entries `P`, the entry `new`; and `w` of directory `d` is gone. -/
structure Moved (g : Geom) (v v' : Vol) (n : ℕ) (w new : Visit) (e : ℕ) (T X : List ℕ) (P Q : List Visit) : Prop where
  grown : Linked g v' (realCluster g e) (realCluster g e :: T ++ X)
  fresh : ∀ x ∈ X, DataCluster g x ∧ isFree v x = true
  table : ∀ x, x ∉ X → x ∉ realCluster g e :: T → v'.fat x = v.fat x
  cells : ∀ x, x ∉ X → x ∉ realCluster g e :: T → x ≠ realCluster g w.chunk → v'.disk x = v.disk x
  erased : realCluster g w.chunk ∉ realCluster g e :: T →
    v'.disk (realCluster g w.chunk) = eraseSlots (v.disk (realCluster g w.chunk)) w.idx
  before : visits g v n e = P ++ Q
  after : visits g v' n e = away w (P ++ new :: Q)
  places : ((P ++ new :: Q).map fun u => (u.chunk, u.idx)).Nodup
  apart : (new.chunk, new.idx) ≠ (w.chunk, w.idx)

section Entries

variable (hg : g.Ok) (hn : g.totalClusters ≤ n) (hv : Consistent g v n) (hd : IsDir g v n d) (he : IsDir g v n e)
  (hw : w ∈ visits g v n d) (hT : Linked g v (realCluster g e) (realCluster g e :: T))

include hg hn hw in
/-- The cluster of an entry is one of its directory. -/
theorem real_chunk {D : List ℕ} (hD : Linked g v (realCluster g d) (realCluster g d :: D)) :
    w.chunk ∈ d :: D ∧ realCluster g w.chunk ∈ realCluster g d :: D := by
  have hmem := (mem_slots (mem_scan (visits_dir hg hn hD ▸ hw)).1).1
  refine ⟨hmem, ?_⟩
  rw [← map_real_of_linked hD rfl]
  exact List.mem_map_of_mem hmem

include hg hn hv hd he hw hT in
/-- Entries of different directories have different places. -/
theorem places_apart (hne : d ≠ e) (hu : u ∈ visits g v n e) : (u.chunk, u.idx) ≠ (w.chunk, w.idx) := by
  obtain ⟨D, hD⟩ := hv.dirChain hd
  intro heq
  refine hv.dirs_apart hg hd he hne hD hT _ (real_chunk hg hn hw hD).2 ?_
  rw [← (Prod.mk.inj heq).1]
  exact (real_chunk hg hn hu hT).2

include hg hn hv hd he hw hT in
theorem moved_of_steps (hok : TakesEntry g v n e) {entry : Mem} (h0 : entry 0 ≠ 0) (h1 : entry 0 ≠ 0xE5)
    (hattr : attr entry ≠ ATTR_LFN) (halloc : (dirAllocSlot g n e).run (full v cwd) = (some p, s)) :
    ∃ v1 X Q, s = full v1 cwd ∧ Moved g v (flushed g (eraseVol g (putVol g v1 p entry) w)) n w
    ⟨p.1, p.2, trim entry, []⟩ e T X
      (scan [] (usedSlots g v (e :: T))) Q := by
  obtain ⟨⟨htidy, hclean⟩, hspare⟩ := hok
  rw [chain_dir hg hn hT] at htidy hclean hspare
  obtain ⟨X, v1, rfl, hplaced, hroom, hfirst⟩ := dirAllocSlot_full hg hn hspare hT htidy hclean halloc
  obtain ⟨Q, hbefore, hafter⟩ := scan_putVol hg hn hT hplaced hroom hfirst h0 h1 hattr
  obtain ⟨v2, hv2⟩ : ∃ v2, putVol g v1 p entry = v2 := ⟨_, rfl⟩
  have hgrown := hplaced.grown
  have hput : ∀ x, x ∉ X → x ∉ realCluster g e :: T → v2.disk x = v.disk x := by
    intro x hX hx
    have hmem := mem_real hplaced.grown hplaced.chunk
    rw [← hv2, putVol, ← hplaced.cells x hX hx]
    refine update_of_ne ?_ _ _
    rintro rfl
    rcases List.mem_append.mp hmem with hmem | hmem
    · exact hx hmem
    · exact hX hmem
  -- the cluster of the old entry is not one that the directory has grown by
  have hused : realCluster g w.chunk ∉ X := by
    intro hX
    obtain ⟨D, hD⟩ := hv.dirChain hd
    have hfree := (hplaced.fresh _ hX).2
    rw [hD.not_free hg (real_chunk hg hn hw hD).2] at hfree
    cases hfree
  rw [hv2] at hafter
  refine ⟨v1, X, Q, rfl, ?_⟩
  rw [hv2]
  have hgrown' : Linked g (flushed g (eraseVol g v2 w)) (realCluster g e) (realCluster g e :: T ++ X) := by
    refine hgrown.congr fun x _ => ?_
    rw [← hv2]
    rfl
  have hnodup : ((e :: T ++ X).map (realCluster g)).Nodup := by
    rw [List.cons_append] at hgrown' ⊢
    exact nodup_dir hg hgrown'
  have hplaces := nodup_places (g := g) (v := v2) (List.Nodup.of_map _ hnodup)
  rw [hafter] at hplaces
  have hother : d ≠ e → ∀ x ∈ e :: T ++ X, realCluster g x ≠ realCluster g w.chunk := by
    obtain ⟨D, hD⟩ := hv.dirChain hd
    intro hde x hx heq
    have hmem := mem_real hplaced.grown hx
    rw [heq] at hmem
    rcases List.mem_append.mp hmem with hmem | hmem
    · exact hv.dirs_apart hg hd he hde hD hT _ (real_chunk hg hn hw hD).2 hmem
    · exact hused hmem
  refine ⟨hgrown', hplaced.fresh, fun x hX hx => ?_, fun x hX hx hne => ?_, fun hout => ?_, hbefore, ?_, hplaces, ?_⟩
  · rw [← hplaced.table x hX hx, ← hv2]
    rfl
  · rw [← hput x hX hx]
    exact update_of_ne hne _ _
  · rw [← hput _ hused hout]
    exact update_self ..
  · rw [List.cons_append] at hgrown'
    rw [visits_dir hg hn hgrown', ← hafter]
    have hslots : slots g (flushed g (eraseVol g v2 w)) (e :: (T ++ X)) = slots g (eraseVol g v2 w) (e :: (T ++ X)) :=
      slots_congr fun _ _ => rfl
    rw [hslots, ← List.cons_append]
    by_cases hde : d = e
    · refine scan_eraseVol hnodup ?_
      rw [hde, hbefore, List.mem_append] at hw
      rw [hafter, List.mem_append, List.mem_cons]
      rcases hw with hw | hw
      · exact Or.inl hw
      · exact Or.inr (Or.inr hw)
    · rw [slots_congr fun x hx => update_of_ne (hother hde x hx) _ _]
      refine (away_of_forall fun u hu heq => ?_).symm
      exact hother hde u.chunk (mem_slots (mem_scan hu).1).1 (by rw [(Prod.mk.inj heq).1])
  · by_cases hde : d = e
    · rw [List.map_append, List.map_cons, List.nodup_middle, List.nodup_cons, ← List.map_append] at hplaces
      intro heq
      refine hplaces.1 (heq ▸ List.mem_map_of_mem (f := fun u : Visit => (u.chunk, u.idx)) ?_)
      rw [← hbefore, ← hde]
      exact hw
    · exact fun heq => hother hde p.1 hplaced.chunk (congrArg (realCluster g) (Prod.mk.inj heq).1)

end Entries

/-- The volume without the clusters of an entry. -/
def freedVol (g : Geom) (v : Vol) (w : Visit) : Vol :=
  if 2 ≤ entryCluster w.entry then freeLoop g (g.totalClusters + 2) (entryCluster w.entry) v else v

def Vol.withDisk (v : Vol) (disk : ℕ → Mem) : Vol := { v with disk := disk }

@[simp]
theorem fat_withDisk (v : Vol) (disk : ℕ → Mem) : (v.withDisk disk).fat = v.fat := rfl

@[simp]
theorem disk_withDisk (v : Vol) (disk : ℕ → Mem) : (v.withDisk disk).disk = disk := rfl

/-- The volume without the entry and its clusters. -/
def withoutVol (g : Geom) (v : Vol) (w : Visit) : Vol :=
  (freedVol g v w).withDisk (update v.disk (realCluster g w.chunk)
  (eraseSlots (v.disk (realCluster g w.chunk)) w.idx))

namespace Moved

variable (h : Moved g v v' n w new e T X P Q) (hg : g.Ok) (hn : g.totalClusters ≤ n) (hv : Consistent g v n)
  (hd : IsDir g v n d) (he : IsDir g v n e) (hw : w ∈ live g v n d)
  (hfile : isDirectory w.entry = false)
  (hT : Linked g v (realCluster g e) (realCluster g e :: T))
  (hO : FileChain g v (entryCluster w.entry) O)

include h hg hn hv hd he hw hT in
/-- The entries of the old directory, if it is another one. -/
theorem source (hne : d ≠ e) : visits g v' n d = away w (visits g v n d) := by
  obtain ⟨D, hD⟩ := hv.dirChain hd
  have hout : ∀ x ∈ realCluster g d :: D, x ∉ X ∧ x ∉ realCluster g e :: T := by
    refine fun x hx => ⟨fun hX => ?_, hv.dirs_apart hg hd he hne hD hT x hx⟩
    have hfree := (h.fresh x hX).2
    rw [hD.not_free hg hx] at hfree
    cases hfree
  have hD' : Linked g v' (realCluster g d) (realCluster g d :: D) := by
    refine hD.congr fun x hx => ?_
    unfold getEntry
    rw [h.table x (hout x hx).1 (hout x hx).2]
  have hchunk := real_chunk hg hn (mem_live.mp hw).1 hD
  have hmem : w ∈ scan [] (slots g v (d :: D)) := by
    rw [← visits_dir hg hn hD]
    exact (mem_live.mp hw).1
  rw [visits_dir hg hn hD', visits_dir hg hn hD, ← scan_eraseVol (nodup_dir hg hD) hmem]
  congr 1
  refine slots_congr fun x hx => ?_
  have hxD : realCluster g x ∈ realCluster g d :: D := by
    rw [← map_real_of_linked hD rfl]
    exact List.mem_map_of_mem hx
  by_cases hxw : realCluster g x = realCluster g w.chunk
  · rw [hxw, h.erased (hout _ hchunk.2).2]
    exact (update_self (realCluster g w.chunk) (eraseSlots (v.disk (realCluster g w.chunk)) w.idx) v.disk).symm
  · rw [h.cells _ (hout _ hxD).1 (hout _ hxD).2 hxw]
    exact (update_of_ne hxw _ _).symm

include hg hn hv hd hw hfile hO in
theorem taken : ∃ D, Change g n v (withoutVol g v w) d D [] O [] (some w) none := by
  obtain ⟨D, hD⟩ := hv.dirChain hd
  exact ⟨_, remove_change hg hn hv hd hD hw hfile hO (show freedVol g v w = _ from rfl)
    (fat_withDisk _ _) (disk_withDisk _ _)⟩

include hg hO in
theorem table_without : (∀ x ∈ O, isFree (withoutVol g v w) x = true) ∧
    ∀ x ∉ O, (withoutVol g v w).fat x = v.fat x := by
  obtain ⟨hfreed, hfat, -⟩ := freed_file hg hO (show freedVol g v w = _ from rfl)
  unfold isFree at hfreed ⊢
  rw [withoutVol, fat_withDisk]
  exact ⟨hfreed, hfat⟩

include hg hn hv hd he hw hfile hT hO in
/-- The entries of a directory without the entry. -/
theorem visits_without : visits g (withoutVol g v w) n e = away w (visits g v n e) := by
  obtain ⟨D, htaken⟩ := taken hg hn hv hd hw hfile hO
  by_cases hde : d = e
  · subst hde
    have hTO := hv.dir_apart_file hg hd hT ⟨hd, hw⟩ hfile hO
    have hT' : Linked g (withoutVol g v w) (realCluster g d) (realCluster g d :: T) := by
      refine hT.congr fun x hx => ?_
      unfold getEntry
      rw [(table_without hg hO).2 x (hTO x hx)]
    have hmem : w ∈ scan [] (slots g v (d :: T)) := by
      rw [← visits_dir hg hn hT]
      exact (mem_live.mp hw).1
    rw [visits_dir hg hn hT', visits_dir hg hn hT, ← scan_eraseVol (nodup_dir hg hT) hmem]
    exact congrArg (scan []) (slots_congr fun _ _ => rfl)
  · rw [htaken.visits_other hg hn hv he (Ne.symm hde)]
    exact (away_of_forall fun u hu => places_apart hg hn hv hd he (mem_live.mp hw).1 hT hde hu).symm

include h hg hn hv hd he hw hfile hT hO in
theorem put (hlen : O.length = clustersFor g (entrySize w.entry))
    (hfields : entryCluster new.entry = entryCluster w.entry ∧ entrySize new.entry = entrySize w.entry ∧
      isDirectory new.entry = false) (hplain : isDot new.entry = false) :
    Change g n (withoutVol g v w) v' e (realCluster g e :: T) X [] O none (some new) := by
  obtain ⟨D, htaken⟩ := taken hg hn hv hd hw hfile hO
  obtain ⟨hfreed, hfat⟩ := table_without hg hO
  have hTO := hv.dir_apart_file hg he hT ⟨hd, hw⟩ hfile hO
  have hTmid : Linked g (withoutVol g v w) (realCluster g e) (realCluster g e :: T) := by
    refine hT.congr fun x hx => ?_
    unfold getEntry
    rw [hfat x (hTO x hx)]
  have hused : ∀ c ∈ O, isFree v c = false := by
    intro c hc
    rcases hO with ⟨rfl, -⟩ | ⟨-, hL⟩
    · cases hc
    · exact hL.not_free hg hc
  -- the table with the clusters of the entry is the one before
  obtain ⟨v2, hv2⟩ : ∃ v2 : Vol, v2 = { withoutVol g v w with fat := v.fat } := ⟨_, rfl⟩
  have hfat2 : v2.fat = v.fat := by rw [hv2]
  have hO2 : FileChain g v2 (entryCluster w.entry) O := by
    rcases hO with hnil | ⟨hne, hL⟩
    · exact Or.inl hnil
    · exact Or.inr ⟨hne, hL.congr fun c _ => by unfold getEntry; rw [hfat2]⟩
  have hedited : Edited g v2 v' e T X := by
    refine ⟨h.grown, fun x hx => ?_, fun x hX hx => by rw [h.table x hX hx, hfat2], fun x hX hx => ?_⟩
    · obtain ⟨hdata, hfree⟩ := h.fresh x hx
      unfold isFree at hfree ⊢
      exact ⟨hdata, by rw [hfat2]; exact hfree⟩
    · have hdisk : v2.disk = update v.disk (realCluster g w.chunk)
        (eraseSlots (v.disk (realCluster g w.chunk)) w.idx) := by
        rw [hv2]
        rfl
      rw [hdisk]
      by_cases hxw : x = realCluster g w.chunk
      · rw [hxw, update_self]
        exact h.erased (hxw ▸ hx)
      · rw [update_of_ne hxw]
        exact h.cells x hX hx hxw
  have hedit : Edit (visits g (withoutVol g v w) n e) (scan [] (slots g v' (e :: T ++ X))) none (some new) := by
    have hgrown := h.grown
    rw [List.cons_append] at hgrown
    rw [List.cons_append, ← visits_dir hg hn hgrown, h.after, visits_without hg hn hv hd he hw hfile
      hT hO, h.before, away_append, away_append, away_cons_of_ne h.apart]
    exact Edit.add _ _ new
  have hfat1 : ∀ x ∉ ([] : List ℕ), (withoutVol g v w).fat x = (withoutVol g v w).fat x := fun _ _ => rfl
  refine change_of_edit hg hn (htaken.consistent hg hn hv) (htaken.isDir_of hg hn hv he) hTmid (fun u hu => by cases hu)
    (fun _ => rfl) (fun x hx => by cases hx) hfat1 rfl (fun c hc => ⟨hO.clusters c hc, hfreed c hc⟩) (fun c hc => ?_)
    (fun x hx => by rw [hfat2, hfat x hx]) (fun x _ => by rw [hv2]) hedited hedit
    (fun u hu hdir => ?_) (fun u hu _ => ?_)
    (fun hu => by cases hu) fun u hu => ?_
  · rw [← hused c hc]
    unfold isFree
    rw [hfat2]
  · obtain rfl := Option.some.inj hu
    rw [hfields.2.2] at hdir
    cases hdir
  · obtain rfl := Option.some.inj hu
    rw [hfields.1, hfields.2.1]
    exact ⟨hO2, hlen⟩
  · obtain rfl := Option.some.inj hu
    exact hplain

end Moved

end ComputerOS.Fat32
