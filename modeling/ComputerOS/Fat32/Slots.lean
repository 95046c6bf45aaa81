import Mathlib.Data.List.TakeWhile
import ComputerOS.Fat32.Full

/-!
Finding free slots for a new entry, with enough heap: where they are, what stands before and
after them, and that finding them changes no entry of the directory.
-/
namespace ComputerOS.Fat32

open Function Fallible

variable {g : Geom} {v v' : Vol} {n cwd d c i count : ℕ} {L T X D : List ℕ} {s : St} {p : ℕ × ℕ}

theorem slots_block {D1 D2 : List ℕ} {m : ℕ} (hnodup : ((D1 ++ c :: D2).map (realCluster g)).Nodup)
    (him : i + m ≤ entriesPerCluster g) {cell : Mem}
    (hcell : ∀ j, ¬ (i ≤ j ∧ j < i + m) → slotOf cell j = slotOf (v.disk (realCluster g c)) j) :
    slots g { v with disk := update v.disk (realCluster g c) cell } (D1 ++ c :: D2) =
      slots g v D1 ++ block (v.disk (realCluster g c)) c 0 i ++ (block cell c i m ++
        (block (v.disk (realCluster g c)) c (i + m) (entriesPerCluster g - (i + m)) ++ slots g v D2)) := by
  have hbefore : block cell c 0 i = block (v.disk (realCluster g c)) c 0 i :=
    block_congr (fun j _ hj => hcell j (by omega)) c
  have hafter : block cell c (i + m) (entriesPerCluster g - (i + m)) =
      block (v.disk (realCluster g c)) c (i + m) (entriesPerCluster g - (i + m)) :=
    block_congr (fun j hj _ => hcell j (by omega)) c
  rw [slots_update hnodup, block_split _ c him, hbefore, hafter]
  simp only [List.append_assoc]

theorem chain_dir (hg : g.Ok) (hn : g.totalClusters ≤ n) (h : Linked g v (realCluster g d) (realCluster g d :: T)) :
    chain g v n d = d :: T := by
  have := h.length_le hg
  rw [List.length_cons] at this
  exact chain_of_linked hg h (by omega)

/-- Free slots `i .. i + count` of a cluster `c`, found for directory `d` of `v`: the directory now
has the clusters `X` besides, its entries are the same, and none of them is cut off by the slots. -/
structure Placed (g : Geom) (v v' : Vol) (d : ℕ) (T X : List ℕ) (count c i : ℕ) : Prop where
  grown : Linked g v' (realCluster g d) (realCluster g d :: T ++ X)
  fresh : ∀ x ∈ X, DataCluster g x ∧ isFree v x = true
  table : ∀ x, x ∉ X → x ∉ realCluster g d :: T → v'.fat x = v.fat x
  cells : ∀ x, x ∉ X → x ∉ realCluster g d :: T → v'.disk x = v.disk x
  copies : v'.copies = v.copies
  chunk : c ∈ d :: T ++ X
  split : i + count ≤ entriesPerCluster g → ∃ A Z,
    slots g v' (d :: T ++ X) = A ++ (block (v'.disk (realCluster g c)) c i count ++ Z) ∧ NoEnd A ∧
      collected [] A = [] ∧ Tidy (block (v'.disk (realCluster g c)) c i count ++ Z) ∧
      (∀ p ∈ block (v'.disk (realCluster g c)) c i count, slotFree p.entry = true) ∧
      ∀ cell, (∀ j, ¬ (i ≤ j ∧ j < i + count) → slotOf cell j = slotOf (v'.disk (realCluster g c))
        j) → slots g { v' with disk := update v'.disk (realCluster g c) cell } (d :: T ++ X) = A ++
        (block cell c i count ++ Z)
  same : scan [] (slots g v' (d :: T ++ X)) = scan [] (slots g v (d :: T))

theorem slotsIn_zero (hc : v.disk (realCluster g c) = fun _ => 0) {p : Slot}
    (hp : p ∈ slotsIn g v c) : p.entry 0 = 0 := by
  rw [slotsIn_eq, hc] at hp
  rw [(mem_block hp).2.2.2, slotOf_zero]

theorem slots_append (g : Geom) (v : Vol) (D D' : List ℕ) : slots g v (D ++ D') = slots g v D ++ slots g v D' :=
  List.flatMap_append

theorem tidy_of_zero {L : List Slot} (h : ∀ p ∈ L, p.entry 0 = 0) : Tidy L :=
  List.pairwise_iff_forall_sublist.mpr fun hsub _ => h _ (hsub.subset (by simp))

theorem growDir_full (hg : g.Ok) (hspare : Allots g v) (h : Linked g v (realCluster g d) (realCluster g d :: T))
    (hrun : (growDir g ((d :: T).getLastD d)).run (full v cwd) = (some p, s)) :
    ∃ x v', s = full v' cwd ∧ p = (x, 0) ∧ DataCluster g x ∧ isFree v x = true ∧
      Linked g v' (realCluster g d) (realCluster g d :: T ++ [x]) ∧
      (∀ y, y ≠ x → y ∉ realCluster g d :: T → v'.fat y = v.fat y) ∧ v'.disk = update v.disk x (fun _ => 0) ∧
      v'.copies = v.copies := by
  rcases halloc : (allocCluster g).run (full v cwd) with ⟨_ | _ | x, s1⟩
  · rw [growDir, extendChain, bind_run, bind_run, halloc] at hrun
    cases hrun
  · rw [growDir, extendChain, bind_run, bind_run, halloc] at hrun
    cases hrun
  obtain ⟨hdata, hlt, hfree, rfl⟩ := allocCluster_full hspare halloc
  obtain ⟨last, hlast⟩ : ∃ last, (d :: T).getLastD d = last := ⟨_, rfl⟩
  obtain ⟨V, hV⟩ : ∃ V, V = setEntry g x FAT32_EOC (setEntry g (realCluster g last) x (setEntry g x FAT32_EOC v)) :=
    ⟨_, rfl⟩
  have hext : (extendChain g (realCluster g last)).run (full v cwd) = (some (some x), full V cwd) := by
    rw [extendChain, bind_of_some halloc]
    dsimp only
    rw [bind_of_some (setVol_full _), hV]
    rfl
  rw [hlast, growDir, bind_of_some hext] at hrun
  dsimp only at hrun
  rw [writeCluster, bind_of_some (setVol_full _)] at hrun
  obtain ⟨hp, rfl⟩ := Prod.mk.inj hrun
  obtain rfl := Option.some.inj hp
  -- the last cluster, as a member of the chain
  obtain ⟨I, hI⟩ : ∃ I, d :: T = I ++ [last] := by
    refine ⟨(d :: T).dropLast, ?_⟩
    rw [← hlast, List.getLastD_cons, ← List.getLast_eq_getLastD, List.dropLast_append_getLast]
    exact List.cons_ne_nil _ _
  have hL : realCluster g d :: T = I.map (realCluster g) ++ [realCluster g last] := by
    rw [← map_real_of_linked h rfl, hI, List.map_append, List.map_singleton]
  have hnodup := h.nodup hg
  have hlastmem : realCluster g last ∈ realCluster g d :: T := by
    rw [hL]
    simp
  have hne : ∀ y ∈ realCluster g d :: T, y ≠ x := by
    rintro y hy rfl
    rw [h.not_free hg hy] at hfree
    cases hfree
  have hfat : ∀ y, y ≠ x → y ≠ realCluster g last → V.fat y = v.fat y := by
    intro y h1 h2
    rw [hV, fat_setEntry_ne h1, fat_setEntry_ne h2, fat_setEntry_ne h1]
  refine ⟨x, _, rfl, rfl, hdata, hfree, ?_, fun y h1 h2 => ?_, ?_, ?_⟩
  · rw [hL, List.append_assoc]
    rw [hL] at h hnodup
    refine h.append (fun y hy => ?_) (y := x) ?_ ⟨rfl, hdata, ?_⟩
    · have hyx : y ≠ x := hne y (by rw [hL]; exact List.mem_append_left _ hy)
      have hyl : y ≠ realCluster g last := by
        rintro rfl
        exact (List.nodup_append.mp hnodup).2.2 _ hy _ (List.mem_singleton_self _) rfl
      unfold getEntry
      dsimp only
      rw [hfat y hyx hyl]
    · have hlastdata := h.data (realCluster g last) (by simp)
      rw [getEntry_of_lt (hlastdata.lt hg)]
      dsimp only
      rw [hV, fat_setEntry_ne (hne _ hlastmem), fat_setEntry_self (hlastdata.lt hg)]
      have h1 := hdata.2
      have h2 := hg.marks
      exact Nat.mod_eq_of_lt (by unfold FAT32_BAD at h2; omega)
    · have hent : getEntry g { V with disk := update V.disk x fun _ => 0 } x = FAT32_EOC := by
        rw [getEntry_of_lt hlt]
        dsimp only
        rw [hV, fat_setEntry_self hlt]
        rfl
      rw [hent]
      exact isEndOfChain_eoc
  · refine hfat y h1 ?_
    rintro rfl
    exact h2 hlastmem
  · dsimp only
    rw [hV]
    simp only [disk_setEntry]
  · dsimp only
    rw [hV]
    simp only [copies_setEntry]

section Places

variable {v1 : Vol} {D1 D2 : List ℕ} (hlink : Linked g v (realCluster g d) (realCluster g d :: T))
  (hfat : v1.fat = v.fat) (hcopies : v1.copies = v.copies)
  (hcells : ∀ x ∉ realCluster g d :: T, v1.disk x = v.disk x)
  (hrel : List.Forall₂ Unmarked (slots g v (d :: T)) (slots g v1 (d :: T)))
  (htidy : Tidy (slots g v (d :: T))) (hclean : NoOrphan (slots g v (d :: T))) (hg : g.Ok)

include hg hlink hfat hcopies hcells hrel htidy hclean

/-- Free slots in a cluster of the directory, with no end mark before them. -/
theorem placed_of_run (hD : d :: T = D1 ++ c :: D2)
    (hsame : ∀ x ∈ c :: D2, v1.disk (realCluster g x) = v.disk (realCluster g x)) (hcount : 0 < count)
    (hend : NoEnd (slots g v1 D1 ++ block (v.disk (realCluster g c)) c 0 i))
    (hfree : ∀ p ∈ block (v.disk (realCluster g c)) c i count, slotFree p.entry = true) :
    Placed g v v1 d T [] count c i where
  grown := by
    rw [List.append_nil]
    exact hlink.congr fun x _ => by unfold getEntry; rw [hfat]
  fresh x hx := by cases hx
  table x _ _ := by rw [hfat]
  cells x _ hx := hcells x hx
  copies := hcopies
  chunk := by
    rw [List.append_nil, hD]
    simp
  same := by
    rw [List.append_nil]
    exact scan_unmarked hrel htidy
  split := by
    intro hroom
    have hc := hsame c List.mem_cons_self
    have hD2 : slots g v1 D2 = slots g v D2 := slots_congr fun x hx => hsame x (List.mem_cons_of_mem _ hx)
    have hsplit : ∀ u : Vol, u.disk (realCluster g c) = v.disk (realCluster g c) → slots g u (d :: T) =
        slots g u D1 ++ block (v.disk (realCluster g c)) c 0 i ++ (block (v.disk (realCluster g c)) c i count ++
          (block (v.disk (realCluster g c)) c (i + count) (entriesPerCluster g - (i + count)) ++ slots g u D2)) := by
      intro u hu
      rw [hD, slots_split, hu, block_split _ c hroom]
      simp only [List.append_assoc]
    rw [List.append_nil, hc]
    refine ⟨slots g v1 D1 ++ block (v.disk (realCluster g c)) c 0 i, _, hsplit v1 hc, hend, ?_, ?_,
      hfree, fun cell hcell => ?_⟩
    · have hclean' := hclean.unmarked hrel
      rw [hsplit v1 hc] at hclean'
      obtain ⟨q, Y, hq⟩ : ∃ q Y, block (v.disk (realCluster g c)) c i count = q :: Y := by
        cases hb : block (v.disk (realCluster g c)) c i count with
        | nil =>
          have := congrArg List.length hb
          simp [block] at this
          omega
        | cons q Y => exact ⟨q, Y, rfl⟩
      rw [hq, List.cons_append] at hclean'
      exact collected_of_noOrphan hend hclean' (hfree q (by rw [hq]; exact List.mem_cons_self))
    · rw [hD2]
      rw [hsplit v rfl] at htidy
      exact htidy.of_append.2
    · have hnodup : ((D1 ++ c :: D2).map (realCluster g)).Nodup := by
        rw [← hD, map_real_of_linked hlink rfl]
        exact hlink.nodup hg
      rw [hD, slots_block hnodup hroom (by rw [hc]; exact hcell), hc]

theorem placed_of_grow {x : ℕ} (hend : NoEnd (slots g v1 (d :: T))) (hdata : DataCluster g x)
    (hxfree : isFree v x = true)
    (hgrown : Linked g v' (realCluster g d) (realCluster g d :: T ++ [x]))
    (hfat' : ∀ y, y ≠ x → y ∉ realCluster g d :: T → v'.fat y = v1.fat y)
    (hdisk' : v'.disk = update v1.disk x fun _ => 0) (hcopies' : v'.copies = v1.copies) :
    Placed g v v' d T [x] count x 0 := by
  have hx : x ∉ realCluster g d :: T := fun hmem => by
    have hnodup := hgrown.nodup hg
    exact (List.nodup_append.mp hnodup).2.2 _ hmem _ (List.mem_singleton_self _) rfl
  have hreal : realCluster g x = x := hdata.real
  have hcell : v'.disk (realCluster g x) = fun _ => 0 := by
    rw [hreal, hdisk', update_self]
  have hold : slots g v' (d :: T) = slots g v1 (d :: T) := by
    refine slots_congr fun y hy => ?_
    have hmem : realCluster g y ∈ (d :: T).map (realCluster g) := List.mem_map_of_mem hy
    rw [map_real_of_linked hlink rfl] at hmem
    rw [hdisk', update_of_ne]
    rintro rfl
    exact hx hmem
  have hslots : slots g v' (d :: T ++ [x]) = slots g v1 (d :: T) ++ slotsIn g v' x := by
    rw [slots_append, hold]
    unfold slots
    rw [List.flatMap_singleton]
  refine ⟨hgrown, fun y hy => ?_, fun y h1 h2 => ?_, fun y h1 h2 => ?_,
    hcopies'.trans hcopies, by simp, fun hroom => ?_, ?_⟩
  · obtain rfl := List.mem_singleton.mp hy
    exact ⟨hdata, hxfree⟩
  · rw [hfat' y (fun heq => h1 (by simp [heq])) h2, hfat]
  · rw [hdisk', update_of_ne (fun heq => h1 (by simp [heq]))]
    exact hcells y h2
  · rw [Nat.zero_add] at hroom
    refine ⟨slots g v1 (d :: T), block (v'.disk (realCluster g x)) x count (entriesPerCluster g - count), ?_, hend,
      collected_end_of_noOrphan hend (hclean.unmarked hrel), ?_, fun p hp => ?_, fun cell hc => ?_⟩
    · rw [hslots, slotsIn_eq, ← Nat.add_sub_cancel' hroom, block_append, Nat.zero_add, Nat.add_sub_cancel' hroom]
    · refine tidy_of_zero fun p hp => slotsIn_zero hcell ?_
      rw [slotsIn_eq, ← Nat.add_sub_cancel' hroom, block_append, Nat.zero_add]
      exact hp
    · rw [(mem_block hp).2.2.2, hcell]
      rfl
    · have hnodup : ((d :: T ++ x :: []).map (realCluster g)).Nodup := by
        rw [List.map_append, map_real_of_linked hlink rfl, List.map_singleton, hreal]
        exact hgrown.nodup hg
      have hblock := slots_block (v := v') (m := count) (i := 0) hnodup (by omega) hc
      rw [hblock, hold, Nat.zero_add]
      simp [block, slots]
  · rw [hslots, ← scan_unmarked hrel htidy, scan_append hend,
      scan_free fun p hp => slotFree_iff.mpr (Or.inr (slotsIn_zero hcell hp)), List.append_nil]

end Places

theorem unmarked_refl (L : List Slot) : List.Forall₂ Unmarked L L :=
  List.forall₂_same.mpr fun _ _ => ⟨rfl, rfl, Or.inl rfl⟩

theorem mem_block_of {cell : Mem} {j : ℕ} (h1 : i ≤ j) (h2 : j < i + count) :
    ⟨c, j, slotOf cell j⟩ ∈ block cell c i count :=
  List.mem_map.mpr ⟨j, List.mem_range'_1.mpr ⟨h1, h2⟩, rfl⟩

def usedSlots (g : Geom) (v : Vol) (D : List ℕ) : List Slot := (slots g v D).takeWhile fun p => slotFree p.entry = false

/-- The first free slot of a directory. -/
theorem dirAllocSlot_full (hg : g.Ok) (hn : g.totalClusters ≤ n)
    (hspare : (∀ p ∈ slots g v (d :: T), slotFree p.entry = false) → Allots g v)
    (h : Linked g v (realCluster g d) (realCluster g d :: T)) (htidy : Tidy (slots g v (d :: T)))
    (hclean : NoOrphan (slots g v (d :: T))) (hrun : (dirAllocSlot g n d).run (full v cwd) = (some p, s)) :
    ∃ X v', s = full v' cwd ∧ Placed g v v' d T X 1 p.1 p.2 ∧ p.2 + 1 ≤ entriesPerCluster g ∧
      ∃ e Z, slots g v' (d :: T ++ X) = usedSlots g v (d :: T) ++ ⟨p.1, p.2, e⟩ :: Z := by
  rw [dirAllocSlot, bind_of_some needBuf_full, bind_of_some getVol_full, chain_dir hg hn h] at hrun
  have hslots : (d :: T).flatMap (slotsIn g v) = slots g v (d :: T) := rfl
  rw [hslots] at hrun
  cases hfind : (slots g v (d :: T)).find? fun p => slotFree p.entry with
  | some q =>
    rw [hfind] at hrun
    obtain ⟨hp, rfl⟩ := Prod.mk.inj hrun
    obtain rfl := Option.some.inj hp
    have hfree := List.find?_some hfind
    obtain ⟨hc, hidx, hentry⟩ := mem_slots (List.mem_of_find?_eq_some hfind)
    obtain ⟨D1, D2, hD⟩ := List.append_of_mem hc
    have hnodup : (d :: T).Nodup := by
      refine List.Nodup.of_map (realCluster g) ?_
      rw [map_real_of_linked h rfl]
      exact h.nodup hg
    have hsplit : slots g v (d :: T) = slots g v D1 ++ block (v.disk (realCluster g q.chunk)) q.chunk 0 q.idx ++
        (block (v.disk (realCluster g q.chunk)) q.chunk q.idx 1 ++ (block (v.disk (realCluster g q.chunk)) q.chunk
          (q.idx + 1) (entriesPerCluster g - (q.idx + 1)) ++ slots g v D2)) := by
      rw [hD, slots_split, block_split _ _ (show q.idx + 1 ≤ entriesPerCluster g by omega)]
      simp only [List.append_assoc]
    -- no slot before the one that is found is free
    have hbefore : ∀ r ∈ slots g v D1 ++ block (v.disk (realCluster g q.chunk)) q.chunk 0 q.idx,
        slotFree r.entry = false := by
      rw [hsplit, List.find?_append] at hfind
      cases hfirst : (slots g v D1 ++ block (v.disk (realCluster g q.chunk)) q.chunk 0 q.idx).find?
          fun p => slotFree p.entry with
      | none =>
        intro r hr
        have := List.find?_eq_none.mp hfirst r hr
        simpa using this
      | some r =>
        rw [hfirst, Option.some_or] at hfind
        obtain rfl := Option.some.inj hfind
        rcases List.mem_append.mp (List.mem_of_find?_eq_some hfirst) with hr | hr
        · rw [hD, List.nodup_middle, List.nodup_cons, List.mem_append, not_or] at hnodup
          exact absurd (mem_slots hr).1 hnodup.1.1
        · have := (mem_block hr).2.2.1
          omega
    refine ⟨[], v, rfl, ?_, by omega, q.entry, block (v.disk (realCluster g q.chunk)) q.chunk (q.idx + 1)
      (entriesPerCluster g - (q.idx + 1)) ++ slots g v D2, ?_⟩
    · refine placed_of_run h rfl rfl (fun _ _ => rfl) (unmarked_refl _) htidy hclean hg hD (fun _ _ => rfl) (by omega)
        (fun r hr => (slotFree_eq_false.mp (hbefore r hr)).2) fun r hr => ?_
      obtain ⟨-, h1, h2, he⟩ := mem_block hr
      obtain heq : r.idx = q.idx := by omega
      rw [he, heq, ← hentry]
      exact hfree
    · have hone : block (v.disk (realCluster g q.chunk)) q.chunk q.idx 1 = [q] := by
        change [(⟨q.chunk, q.idx, slotOf (v.disk (realCluster g q.chunk)) q.idx⟩ : Slot)] = [q]
        rw [← hentry]
      rw [List.append_nil, usedSlots, hsplit, List.takeWhile_append_of_pos fun r hr => by simpa using hbefore r hr, hone,
        List.singleton_append, List.takeWhile_cons_of_neg (by simpa using hfree), List.append_nil]
  | none =>
    rw [hfind] at hrun
    have hused : ∀ r ∈ slots g v (d :: T), slotFree r.entry = false := fun r hr => by
      have := List.find?_eq_none.mp hfind r hr
      rwa [Bool.not_eq_true] at this
    obtain ⟨x, v', rfl, rfl, hdata, hxfree, hgrown, hfat, hdisk, hcopies⟩ := growDir_full hg (hspare hused) h hrun
    have hroom : 1 ≤ entriesPerCluster g := by
      have := hg.room
      unfold entriesPerCluster
      omega
    refine ⟨[x], v', rfl, ?_, hroom, slotOf (v'.disk (realCluster g x)) 0,
      block (v'.disk (realCluster g x)) x (0 + 1) (entriesPerCluster g - (0 + 1)), ?_⟩
    · refine placed_of_grow h rfl rfl (fun _ _ => rfl) (unmarked_refl _) htidy hclean hg
        (fun r hr => ?_) hdata hxfree hgrown
        hfat hdisk hcopies
      exact (slotFree_eq_false.mp (hused r hr)).2
    · have hsame : slots g v' (d :: T) = slots g v (d :: T) := by
        refine slots_congr fun c hc => ?_
        have hmem : realCluster g c ∈ (d :: T).map (realCluster g) := List.mem_map_of_mem hc
        rw [map_real_of_linked h rfl] at hmem
        rw [hdisk, update_of_ne]
        rintro rfl
        rw [h.not_free hg hmem] at hxfree
        cases hxfree
      have hfirst : slots g v' [x] = ⟨x, 0, slotOf (v'.disk (realCluster g x)) 0⟩ ::
          block (v'.disk (realCluster g x)) x (0 + 1) (entriesPerCluster g - (0 + 1)) := by
        rw [slots, List.flatMap_singleton, slotsIn_eq, block_split _ x (show 0 + 1 ≤ entriesPerCluster g from hroom)]
        rfl
      have hall : usedSlots g v (d :: T) = slots g v (d :: T) := by
        rw [usedSlots, List.takeWhile_eq_self_iff]
        exact fun r hr => by simpa using hused r hr
      rw [slots_append, hsame, hfirst, hall]

theorem unmarkEnd_eq (h : (List.range (entriesPerCluster g)).any (fun i => (chunkOf g v c) (32 * i) = 0) = false) :
    unmarkEnd g (chunkOf g v c) = chunkOf g v c := by
  funext j
  unfold unmarkEnd
  rw [if_neg]
  rintro ⟨hmod, hlt, hzero⟩
  rw [List.any_eq_false] at h
  refine h (j / 32) (List.mem_range.mpr hlt) ?_
  rw [decide_eq_true_iff, show 32 * (j / 32) = j by omega]
  exact hzero

/-- The walk of `dir_alloc_slots`: the clusters `D1` before the run have their end marks turned into
free slots. -/
theorem allocSlotsLoop_full {r : Option (ℕ × ℕ)} (hnodup : (D.map (realCluster g)).Nodup)
    (hrun : (allocSlotsLoop g count D).run (full v cwd) = (some r, s)) :
    ∃ D1 D2 v1, s = full v1 cwd ∧ D = D1 ++ D2 ∧ v1.fat = v.fat ∧ v1.copies = v.copies ∧
      (∀ x ∈ D1, v1.disk (realCluster g x) = unmarkEnd g (v.disk (realCluster g x))) ∧
      (∀ y ∉ D1.map (realCluster g), v1.disk y = v.disk y) ∧ (r = none → D2 = []) ∧
      ∀ p, r = some p → ∃ D3, D2 = p.1 :: D3 ∧ freeRun g (v.disk (realCluster g p.1)) count = some p.2 := by
  induction D generalizing v with
  | nil =>
    obtain ⟨hr, rfl⟩ := Prod.mk.inj hrun
    obtain rfl := Option.some.inj hr
    exact ⟨[], [], v, rfl, rfl, rfl, rfl, fun x hx => (by cases hx), fun _ _ => rfl, fun _ => rfl,
      fun p hp => by cases hp⟩
  | cons c rest ih =>
    rw [List.map_cons, List.nodup_cons] at hnodup
    rw [allocSlotsLoop, bind_of_some getVol_full] at hrun
    cases hfind : freeRun g (chunkOf g v c) count with
    | some i =>
      rw [hfind] at hrun
      obtain ⟨hr, rfl⟩ := Prod.mk.inj hrun
      obtain rfl := Option.some.inj hr
      refine ⟨[], c :: rest, v, rfl, rfl, rfl, rfl, fun x hx => (by cases hx), fun _ _ => rfl,
        fun hn => (by cases hn), fun p hp => ?_⟩
      obtain rfl := Option.some.inj hp
      exact ⟨rest, rfl, hfind⟩
    | none =>
      rw [hfind] at hrun
      obtain ⟨u, hu⟩ : ∃ u : Vol, u = { v with disk := update v.disk (realCluster g c) (unmarkEnd g
        (chunkOf g v c)) } :=
        ⟨_, rfl⟩
      have hrun' : (allocSlotsLoop g count rest).run (full u cwd) = (some r, s) := by
        dsimp only at hrun
        cases hany : (List.range (entriesPerCluster g)).any (fun i => (chunkOf g v c) (32 * i) = 0) with
        | true =>
          rw [if_pos hany, writeChunk, writeCluster, bind_of_some (setVol_full _)] at hrun
          rw [hu]
          exact hrun
        | false =>
          rw [if_neg (by rw [hany]; decide)] at hrun
          have huv : u = v := by
            rw [hu, unmarkEnd_eq hany, chunkOf, update_eq_self]
          rw [huv]
          exact hrun
      obtain ⟨D1, D2, v1, hs, hD, hfat, hcopies, hun, hother, hnone, hsome⟩ := ih hnodup.2 hrun'
      have hudisk : ∀ y, y ≠ realCluster g c → u.disk y = v.disk y := fun y hy => by
        rw [hu]
        exact update_of_ne hy _ _
      have hD1 : realCluster g c ∉ D1.map (realCluster g) := fun hc => by
        refine hnodup.1 ?_
        rw [hD, List.map_append]
        exact List.mem_append_left _ hc
      refine ⟨c :: D1, D2, v1, hs, by rw [hD, List.cons_append], by rw [hfat, hu], by rw [hcopies,
        hu], fun x hx => ?_, fun y hy => ?_, hnone, fun p hp => ?_⟩
      · rcases List.mem_cons.mp hx with rfl | hx
        · rw [hother _ hD1, hu]
          exact update_self _ _ _
        · rw [hun x hx, hudisk]
          intro heq
          exact hD1 (heq ▸ List.mem_map_of_mem hx)
      · rw [List.map_cons, List.mem_cons, not_or] at hy
        rw [hother y hy.2, hudisk y hy.1]
      · obtain ⟨D3, hD3, hrunp⟩ := hsome p hp
        refine ⟨D3, hD3, ?_⟩
        rw [hudisk] at hrunp
        · exact hrunp
        · intro heq
          refine hnodup.1 ?_
          rw [hD, hD3, ← heq]
          exact List.mem_map_of_mem (by simp)

/-- Slots whose end marks have been turned into free slots. -/
theorem unmarked_slots {v1 : Vol} (h : ∀ x ∈ D, v1.disk (realCluster g x) = unmarkEnd g (v.disk (realCluster g x))) :
    List.Forall₂ Unmarked (slots g v D) (slots g v1 D) ∧ NoEnd (slots g v1 D) := by
  have hslot : ∀ x ∈ D, ∀ j, slotOf (v1.disk (realCluster g x)) j = slotOf
      (v.disk (realCluster g x)) j ∨ slotOf (v.disk (realCluster g x)) j 0 = 0 ∧
      slotOf (v1.disk (realCluster g x)) j 0 = 0xE5 ∨ entriesPerCluster g ≤ j := by
    intro x hx j
    rw [h x hx]
    rcases slotOf_unmarkEnd g (v.disk (realCluster g x)) j with heq | h0
    · exact Or.inl heq
    · by_cases hj : j < entriesPerCluster g
      · refine Or.inr (Or.inl ⟨by rw [slotOf_zero]; exact h0, ?_⟩)
        rw [slotOf_zero, unmarkEnd, if_pos]
        exact ⟨by omega, by omega, h0⟩
      · exact Or.inr (Or.inr (by omega))
  constructor
  · unfold slots
    induction D with
    | nil => exact List.Forall₂.nil
    | cons c D ih =>
      rw [List.flatMap_cons, List.flatMap_cons]
      refine List.rel_append ?_ (ih (fun x hx => h x (List.mem_cons_of_mem _ hx))
        fun x hx => hslot x (List.mem_cons_of_mem _ hx))
      rw [slotsIn, slotsIn, List.forall₂_map_left_iff, List.forall₂_map_right_iff, List.forall₂_same]
      intro j hj
      rcases hslot c List.mem_cons_self j with heq | heq | hle
      · exact ⟨rfl, rfl, Or.inl heq⟩
      · exact ⟨rfl, rfl, Or.inr heq⟩
      · have := List.mem_range.mp hj
        omega
  · intro p hp
    obtain ⟨hc, hidx, he⟩ := mem_slots hp
    rw [he, slotOf_zero, h _ hc]
    unfold unmarkEnd
    split
    · decide
    · rename_i hnot
      intro h0
      exact hnot ⟨by omega, by omega, h0⟩

theorem freeRun_min {cell : Mem} (h : freeRun g cell count = some i) : i + count ≤ entriesPerCluster
    g ∧ (∀ j < count, slotFree (slotOf cell (i + j)) = true) ∧
    ∀ k < i, ¬ ∀ j < count, slotFree (slotOf cell (k + j)) = true := by
  obtain ⟨hfit, -, hmin⟩ := List.find?_range_eq_some.mp h
  obtain ⟨hroom, hfree⟩ := of_decide_eq_true hfit
  refine ⟨hroom, hfree, fun k hk hall => ?_⟩
  have := hmin k hk
  rw [Bool.not_eq_true', decide_eq_false_iff_not] at this
  exact this ⟨by omega, hall⟩

/-- Free slots for an entry with a long name. -/
theorem dirAllocSlots_full (hg : g.Ok) (hn : g.totalClusters ≤ n) (hspare : NoSpare g v)
    (h : Linked g v (realCluster g d) (realCluster g d :: T)) (htidy : Tidy (slots g v (d :: T)))
    (hclean : NoOrphan (slots g v (d :: T))) (hcount : 0 < count)
    (hrun : (dirAllocSlots g n d count).run (full v cwd) = (some p, s)) :
    ∃ X v', s = full v' cwd ∧ Placed g v v' d T X count p.1 p.2 := by
  rw [dirAllocSlots, bind_of_some needBuf_full, bind_of_some getVol_full, chain_dir hg hn h] at hrun
  have hreal : (d :: T).map (realCluster g) = realCluster g d :: T := map_real_of_linked h rfl
  have hnodup : ((d :: T).map (realCluster g)).Nodup := by
    rw [hreal]
    exact h.nodup hg
  rcases hloop : (allocSlotsLoop g count (d :: T)).run (full v cwd) with ⟨_ | r, s1⟩
  · rw [bind_run, hloop] at hrun
    cases hrun
  obtain ⟨D1, D2, v1, rfl, hD, hfat, hcopies, hun, hother, hnone, hsome⟩ := allocSlotsLoop_full hnodup hloop
  obtain ⟨hrel1, hend1⟩ := unmarked_slots hun
  have hcells : ∀ x ∉ realCluster g d :: T, v1.disk x = v.disk x := by
    intro x hx
    refine hother x fun hmem => hx ?_
    rw [← hreal, hD, List.map_append]
    exact List.mem_append_left _ hmem
  have hD2 : ∀ x ∈ D2, v1.disk (realCluster g x) = v.disk (realCluster g x) := by
    intro x hx
    refine hother _ fun hmem => ?_
    rw [hD, List.map_append, List.nodup_append] at hnodup
    exact hnodup.2.2 _ hmem _ (List.mem_map_of_mem hx) rfl
  have hrel : List.Forall₂ Unmarked (slots g v (d :: T)) (slots g v1 (d :: T)) := by
    rw [hD, slots_append, slots_append, slots_congr hD2]
    exact List.rel_append hrel1 (unmarked_refl _)
  rw [bind_of_some hloop] at hrun
  cases r with
  | some q =>
    obtain ⟨hp, rfl⟩ := Prod.mk.inj hrun
    obtain rfl := Option.some.inj hp
    obtain ⟨D3, rfl, hfind⟩ := hsome q rfl
    obtain ⟨hroom, hfree, hmin⟩ := freeRun_min hfind
    refine ⟨[], v1, rfl, placed_of_run h hfat hcopies hcells hrel htidy hclean hg hD hD2 hcount
      (fun r hr => ?_) fun r hr => ?_⟩
    · rcases List.mem_append.mp hr with hr | hr
      · exact hend1 r hr
      · -- an end mark before the run would begin an earlier run
        obtain ⟨-, -, hidx, he⟩ := mem_block hr
        rw [Nat.zero_add] at hidx
        intro h0
        refine hmin r.idx hidx fun j hj => ?_
        rw [hD, slots_split, block_split _ _ (show r.idx + 1 ≤ entriesPerCluster g by omega),
          List.append_assoc, List.append_assoc, List.append_assoc] at htidy
        rcases Nat.eq_zero_or_pos j with rfl | hpos
        · rw [Nat.add_zero, ← he]
          exact slotFree_iff.mpr (Or.inr h0)
        · refine slotFree_iff.mpr (Or.inr ?_)
          have hlater := (List.pairwise_append.mp htidy.of_append.2.of_append.2).2.2
          refine hlater ⟨q.1, r.idx, slotOf (v.disk (realCluster g q.1)) r.idx⟩ (mem_block_of le_rfl (by omega))
            ⟨q.1, r.idx + j, slotOf (v.disk (realCluster g q.1)) (r.idx + j)⟩
            (List.mem_append_left _ (mem_block_of (by omega) (by omega))) ?_
          rw [he] at h0
          exact h0
    · obtain ⟨-, h1, h2, he⟩ := mem_block hr
      have := hfree (r.idx - q.2) (by omega)
      rwa [Nat.add_sub_cancel' h1, ← he] at this
  | none =>
    rw [hnone rfl, List.append_nil] at hD
    rw [← hD] at hend1
    have hlink1 : Linked g v1 (realCluster g d) (realCluster g d :: T) :=
      h.congr fun x _ => by unfold getEntry; rw [hfat]
    have hspare1 : NoSpare g v1 := hspare.congr fun x _ => by rw [hfat]
    obtain ⟨x, v', rfl, rfl, hdata, hxfree, hgrown, hfat', hdisk, hcopies'⟩ :=
      growDir_full hg hspare1.allots hlink1 hrun
    refine ⟨[x], v', rfl, placed_of_grow h hfat hcopies hcells hrel htidy hclean hg hend1 hdata ?_
      hgrown hfat' hdisk hcopies'⟩
    unfold isFree at hxfree ⊢
    rwa [hfat] at hxfree

end ComputerOS.Fat32
