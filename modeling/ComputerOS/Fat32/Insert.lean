import ComputerOS.Fat32.LongName
import ComputerOS.Fat32.Slots

/-!
Inserting an entry, with enough heap: the directory has one entry more, with the name that was
asked for, and nothing else has changed.
-/
namespace ComputerOS.Fat32

open Function Fallible

variable {g : Geom} {v v1 v' : Vol} {n cwd d c i segs ck : ℕ} {T X : List ℕ} {s : St} {A : Str}
    {e cell : Mem} {new : Visit}

/-- Only directory `d` has changed, and has perhaps got the clusters `X`. -/
structure Edited (g : Geom) (v v' : Vol) (d : ℕ) (T X : List ℕ) : Prop where
  grown : Linked g v' (realCluster g d) (realCluster g d :: T ++ X)
  fresh : ∀ x ∈ X, DataCluster g x ∧ isFree v x = true
  table : ∀ x, x ∉ X → x ∉ realCluster g d :: T → v'.fat x = v.fat x
  cells : ∀ x, x ∉ X → x ∉ realCluster g d :: T → v'.disk x = v.disk x

structure Inserted (g : Geom) (v v' : Vol) (d : ℕ) (T X : List ℕ) (new : Visit) : Prop extends Edited g v v' d T X where
  entries : ∃ P Q, scan [] (slots g v (d :: T)) = P ++ Q ∧ scan [] (slots g v' (d :: T ++ X)) = P ++ new :: Q

theorem slotFree_trim {e : Mem} (h0 : e 0 ≠ 0) (h1 : e 0 ≠ 0xE5) : slotFree (trim e) = false := by
  rw [slotFree_eq_false, trim_of_lt (by omega)]
  exact ⟨h1, h0⟩

theorem attr_trim (e : Mem) : attr (trim e) = attr e := by
  unfold attr
  rw [trim_of_lt (by omega)]

theorem attr_lfnEntry (name : Str) (ck segs seg : ℕ) : attr (lfnEntry name ck segs seg) = ATTR_LFN := by
  have hfold : ∀ (l : List (ℕ × ℕ)) (e : Mem), (∀ p ∈ l, p.1 + 2 ≤ 11 ∨ 12 ≤ p.1) →
      (l.foldl (fun e p => e.setLE p.1 2 p.2) e).getLE 11 1 = e.getLE 11 1 := by
    intro l
    induction l with
    | nil => exact fun e _ => rfl
    | cons p l ih =>
      intro e hl
      rw [List.foldl_cons, ih _ fun q hq => hl q (List.mem_cons_of_mem _ hq)]
      exact Mem.getLE_setLE_ne _ ((hl p List.mem_cons_self).symm)
  have hget : (lfnEntry name ck segs seg).getLE 11 1 = ATTR_LFN := by
    unfold lfnEntry
    rw [hfold, Mem.getLE_setLE_ne _ (by omega), Mem.getLE_setLE_ne _ (by omega),
      Mem.getLE_setLE_ne _ (by omega), Mem.getLE_setLE_same]
    · rfl
    · intro p hp
      have hmem := (List.of_mem_zip hp).1
      have : ∀ o ∈ [1, 3, 5, 7, 9, 14, 16, 18, 20, 22, 24, 28, 30], o + 2 ≤ 11 ∨ 12 ≤ o := by decide
      exact this _ hmem
  simpa [attr, Mem.getLE] using hget

/-- The first byte of a long name entry marks no free slot. -/
theorem lfnEntry_used {name : Str} {seg : ℕ} (h : seg < 20) : lfnEntry name ck segs seg 0 ≠ 0xE5 := by
  intro h0
  have horder := @lfnEntry_order name ck segs _ (show seg + 1 + 0x40 < 256 by omega)
  rw [h0] at horder
  have h229 : (0xE5 : UInt8).toNat = 229 := rfl
  split at horder <;> omega

theorem slotOf_written (cell e : Mem) (A : Str) (ck : ℕ) (hroom : i + segs ≤ entriesPerCluster g) (j : ℕ) :
    slotOf (putSlot (lfnWriteEntries g cell i segs A ck) (i + segs) e) j = if j = i + segs then trim e
      else if i ≤ j ∧ j < i + segs then trim (lfnEntry A ck segs (segs - 1 - (j - i))) else slotOf cell j := by
  rw [slotOf_putSlot, slotOf_lfnWriteEntries _ _ _ hroom]

/-- An entry and the parts of its long name are written to free slots. -/
theorem Placed.insert (h : Placed g v v1 d T X (segs + 1) c i) (hreal : realCluster g c ∈ realCluster g d :: T ++ X)
    (hroom : i + segs < entriesPerCluster g) (hsegs : segs ≤ 20) (h0 : e 0 ≠ 0) (h1 : e 0 ≠ 0xE5)
    (hattr : attr e ≠ ATTR_LFN)
    (hcell : cell = putSlot (lfnWriteEntries g (v1.disk (realCluster g c)) i segs A ck) (i + segs) e)
    (hv' : v' = { v1 with disk := update v1.disk (realCluster g c) cell }) :
    Inserted g v v' d T X ⟨c, i + segs, trim e,
      lfnReconstruct ((List.range segs).map fun k => trim (lfnEntry A ck segs (segs - 1 - k)))⟩ := by
  have hfat : v'.fat = v1.fat := by rw [hv']
  refine ⟨⟨h.grown.congr fun x _ => by unfold getEntry; rw [hfat], h.fresh,
    fun x hX hT => by rw [hfat]; exact h.table x hX hT, fun x hX hT => ?_⟩, ?_⟩
  · rw [← h.cells x hX hT, hv']
    refine update_of_ne ?_ _ _
    rintro rfl
    rcases List.mem_append.mp hreal with hmem | hmem
    · exact hT hmem
    · exact hX hmem
  · obtain ⟨B, Z, hsplit, hend, hcoll, htidy, hfree, hupd⟩ := h.split (by omega)
    have hslot : ∀ j, slotOf cell j = if j = i + segs then trim e else if i ≤ j ∧ j < i + segs then
        trim (lfnEntry A ck segs (segs - 1 - (j - i))) else slotOf (v1.disk (realCluster g c)) j := by
      intro j
      rw [hcell, slotOf_written _ _ _ _ (by omega)]
    have hblock : block cell c i (segs + 1) = ((List.range segs).map fun k =>
        ⟨c, i + k, trim (lfnEntry A ck segs (segs - 1 - k))⟩) ++ [⟨c, i + segs, trim e⟩] := by
      rw [block_concat, hslot, if_pos rfl]
      congr 1
      rw [block, List.range'_eq_map_range, List.map_map]
      refine List.map_congr_left fun k hk => ?_
      have := List.mem_range.mp hk
      dsimp only [Function.comp]
      rw [hslot, if_neg (by omega), if_pos (by omega), Nat.add_sub_cancel_left]
    have hnew := hupd cell fun j hj => by rw [hslot, if_neg (by omega), if_neg (by omega)]
    rw [← hv', hblock, List.append_assoc, List.singleton_append] at hnew
    have hne : block (v1.disk (realCluster g c)) c i (segs + 1) ≠ [] := by
      rw [block_concat]
      simp
    have hlong : ∀ q ∈ (List.range segs).map (fun k =>
        (⟨c, i + k, trim (lfnEntry A ck segs (segs - 1 - k))⟩ : Slot)), IsLong q.entry := by
      intro q hq
      obtain ⟨k, hk, rfl⟩ := List.mem_map.mp hq
      have := List.mem_range.mp hk
      refine ⟨slotFree_trim (lfnEntry_first (by omega)) (lfnEntry_used (by omega)), ?_⟩
      rw [attr_trim, attr_lfnEntry]
    obtain ⟨hscan, hscan'⟩ := scan_fill (p := ⟨c, i + segs, trim e⟩) hend hcoll hfree hne htidy hlong
      (by rw [List.length_map, List.length_range]; exact hsegs) (slotFree_trim h0 h1) (by rw [attr_trim]; exact hattr)
    refine ⟨scan [] B, scan [] Z, ?_, ?_⟩
    · rw [← h.same, hsplit, hscan]
    · rw [hnew, hscan', List.map_map]
      rfl

theorem freeAlias_full {fuel t t' : ℕ} (h : (freeAlias g n d A fuel t).run (full v cwd) = (some t', s)) :
    s = full v cwd ∧ dirFind g v n d (build83Tail A t') = none := by
  induction fuel generalizing t with
  | zero => cases h
  | succ fuel ih =>
    rw [freeAlias, bind_of_some (lookup_full _)] at h
    cases hfind : dirFind g v n d (build83Tail A t) with
    | none =>
      rw [hfind] at h
      obtain ⟨ht, hs⟩ := Prod.mk.inj h
      obtain rfl := Option.some.inj ht
      exact ⟨hs.symm, hfind⟩
    | some u =>
      rw [hfind] at h
      exact ih h

/-- The entry that is inserted under a name: with the short form of the name, or with the name as a
long name and a short name that no other entry has. -/
def NamedBy (g : Geom) (v : Vol) (n d : ℕ) (A : Str) (ne : Str → Mem) (new : Visit) : Prop :=
  needsLfn A = false ∧ new.lfn = [] ∧ new.entry = trim (ne (build83 A)) ∨
    needsLfn A = true ∧ new.lfn = A ∧ ∃ t, new.entry = trim (ne (build83Tail A t)) ∧
      dirFind g v n d (build83Tail A t) = none

theorem mem_real (h : Linked g v (realCluster g d) (realCluster g d :: T ++ X)) (hc : c ∈ d :: T ++ X) :
    realCluster g c ∈ realCluster g d :: T ++ X := by
  have hmap := map_real_of_linked (L := T ++ X) h rfl
  rw [List.cons_append, ← hmap]
  exact List.mem_map_of_mem hc

/-- An entry and the parts of a name have been written to slots that were found for them. -/
structure Filled (g : Geom) (v v1 v' : Vol) (d : ℕ) (T X : List ℕ) (A : Str) (e : Mem) (segs ck c i : ℕ) : Prop where
  placed : Placed g v v1 d T X (segs + 1) c i
  room : i + segs < entriesPerCluster g
  few : segs ≤ 20
  written : v' = { v1 with
    disk := update v1.disk (realCluster g c)
      (putSlot (lfnWriteEntries g (v1.disk (realCluster g c)) i segs A ck) (i + segs) e) }

theorem Filled.inserted (h : Filled g v v1 v' d T X A e segs ck c i) (h0 : e 0 ≠ 0) (h1 : e 0 ≠ 0xE5)
    (hattr : attr e ≠ ATTR_LFN) : Inserted g v v' d T X ⟨c, i + segs, trim e,
      lfnReconstruct ((List.range segs).map fun k => trim (lfnEntry A ck segs (segs - 1 - k)))⟩ :=
  h.placed.insert (mem_real h.placed.grown h.placed.chunk) h.room h.few h0 h1 hattr rfl h.written

/-- The part of `dir_insert_named` for a name that fits into a short one. -/
def insertShort (g : Geom) (n d : ℕ) (e : Mem) : M Unit := do
  let p ← dirAllocSlot g n d
  dirPutEntry g p.1 p.2 e

/-- The part of `dir_insert_named` after a short name has been found for a long one. -/
def insertLong (g : Geom) (n d : ℕ) (A raw83 : Str) (e : Mem) : M Unit := do
  let segs := lfnEntryCount A.length
  let p ← dirAllocSlots g n d (segs + 1)
  needBuf
  let v ← getVol
  let cell := lfnWriteEntries g (chunkOf g v p.1) p.2 segs A (lfnChecksum raw83)
  if entriesPerCluster g ≤ p.2 + segs then fail
  else writeChunk g p.1 (putSlot cell (p.2 + segs) e)

section Parts

variable (hg : g.Ok) (hn : g.totalClusters ≤ n) (hspare : NoSpare g v)
  (h : Linked g v (realCluster g d) (realCluster g d :: T)) (htidy : Tidy (slots g v (d :: T)))
  (hclean : NoOrphan (slots g v (d :: T)))

include hg hn hspare h htidy hclean

theorem insertShort_full (hrun : (insertShort g n d e).run (full v cwd) = (some (), s)) (A : Str) :
    ∃ X v1 v' c i, (dirAllocSlot g n d).run (full v cwd) = (some (c, i), full v1 cwd) ∧
      s = full v' cwd ∧ Filled g v v1 v' d T X A e 0 0 c i := by
  rw [insertShort, bind_run] at hrun
  rcases halloc : (dirAllocSlot g n d).run (full v cwd) with ⟨_ | ⟨c, i⟩, s1⟩
  · rw [halloc] at hrun
    cases hrun
  rw [halloc] at hrun
  obtain ⟨X, v1, rfl, hplaced, hroom, -⟩ := dirAllocSlot_full hg hn (fun _ => hspare.allots) h htidy hclean halloc
  dsimp only at hrun
  rw [dirPutEntry, bind_of_some needBuf_full, bind_of_some getVol_full, writeChunk, writeCluster, setVol_full] at hrun
  obtain ⟨-, rfl⟩ := Prod.mk.inj hrun
  exact ⟨X, v1, _, c, i, rfl, rfl, hplaced, hroom, by omega, rfl⟩

theorem insertLong_full {raw83 : Str} (hlen : A.length ≤ 255)
    (hrun : (insertLong g n d A raw83 e).run (full v cwd) = (some (), s)) :
    ∃ X v1 v' c i, (dirAllocSlots g n d (lfnEntryCount A.length + 1)).run (full v cwd) = (some (c, i), full v1 cwd) ∧
      s = full v' cwd ∧ Filled g v v1 v' d T X A e (lfnEntryCount A.length) (lfnChecksum raw83) c i := by
  rw [insertLong, bind_run] at hrun
  rcases halloc : (dirAllocSlots g n d (lfnEntryCount A.length + 1)).run (full v cwd) with ⟨_ | ⟨c, i⟩, s1⟩
  · rw [halloc] at hrun
    cases hrun
  rw [halloc] at hrun
  obtain ⟨X, v1, rfl, hplaced⟩ := dirAllocSlots_full hg hn hspare h htidy hclean (by omega) halloc
  dsimp only at hrun
  rw [bind_of_some needBuf_full, bind_of_some getVol_full] at hrun
  by_cases hfit : entriesPerCluster g ≤ i + lfnEntryCount A.length
  · rw [if_pos hfit] at hrun
    cases hrun
  rw [if_neg hfit, writeChunk, writeCluster, setVol_full] at hrun
  obtain ⟨-, rfl⟩ := Prod.mk.inj hrun
  refine ⟨X, v1, _, c, i, rfl, rfl, hplaced, by omega, ?_, rfl⟩
  unfold lfnEntryCount
  omega

end Parts

theorem dirInsertNamed_full (hg : g.Ok) (hn : g.totalClusters ≤ n) (hspare : NoSpare g v)
    (h : Linked g v (realCluster g d) (realCluster g d :: T)) (htidy : Tidy (slots g v (d :: T)))
    (hclean : NoOrphan (slots g v (d :: T))) {ne : Str → Mem} (hA : ∀ c ∈ A, c ≠ 0 ∧ c < 128) (hlen : A.length ≤ 255)
    (hne : ∀ raw83 t, raw83 = build83 A ∨ raw83 = build83Tail A t →
      ne raw83 0 ≠ 0 ∧ ne raw83 0 ≠ 0xE5 ∧ attr (ne raw83) ≠ ATTR_LFN)
    (hrun : (dirInsertNamed g n d A ne).run (full v cwd) = (some (), s)) :
    ∃ X v' new, s = full v' cwd ∧ Inserted g v v' d T X new ∧ NamedBy g v n d A ne new := by
  unfold dirInsertNamed at hrun
  cases hlfn : needsLfn A with
  | false =>
    rw [if_pos hlfn] at hrun
    obtain ⟨X, v1, v', c, i, -, rfl, hfilled⟩ := insertShort_full hg hn hspare h htidy hclean hrun A
    obtain ⟨h0, h1, hattr⟩ := hne (build83 A) 0 (Or.inl rfl)
    exact ⟨X, v', _, rfl, hfilled.inserted h0 h1 hattr, Or.inl ⟨hlfn, rfl, rfl⟩⟩
  | true =>
    rw [if_neg (by rw [hlfn]; decide), bind_run] at hrun
    rcases halias : (freeAlias g n d A 999 1).run (full v cwd) with ⟨_ | t, s1⟩
    · rw [halias] at hrun
      cases hrun
    obtain ⟨rfl, hunique⟩ := freeAlias_full halias
    rw [halias] at hrun
    obtain ⟨X, v1, v', c, i, -, rfl, hfilled⟩ := insertLong_full hg hn hspare h htidy hclean hlen hrun
    obtain ⟨h0, h1, hattr⟩ := hne (build83Tail A t) t (Or.inr rfl)
    exact ⟨X, v', _, rfl, hfilled.inserted h0 h1 hattr,
      Or.inr ⟨hlfn, lfnReconstruct_lfnEntries hA hlen rfl, t, rfl, hunique⟩⟩

end ComputerOS.Fat32
