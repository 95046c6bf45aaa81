import ComputerOS.Fat32.Insert

/-!
Rewriting and deleting an entry of a directory: the entry is replaced, or gone, and the other
ones are as they were.
-/
namespace ComputerOS.Fat32

open Function

variable {g : Geom} {v : Vol} {c i k : ℕ} {D : List ℕ} {u : Visit} {e cell : Mem} {A Y : List Slot}

/-- Before an entry that is found there is no end mark. -/
theorem noEnd_before (hu : u ∈ scan [] (A ++ Y)) (hA : ∀ q ∈ A, ¬ (q.chunk = u.chunk ∧ q.idx = u.idx)) : NoEnd A := by
  by_contra hend
  rw [scan_append_of_end hend] at hu
  exact hA _ (mem_scan hu).1 ⟨rfl, rfl⟩

/-- The slots of a directory around a block that ends with an entry that is found. -/
theorem slots_around (hnodup : (D.map (realCluster g)).Nodup) (hu : u ∈ scan [] (slots g v D)) (hk : k ≤ u.idx) :
    ∃ B Z, slots g v D = B ++ (block (v.disk (realCluster g u.chunk)) u.chunk (u.idx - k) (k + 1) ++ Z) ∧ NoEnd B ∧
      ∀ cell, (∀ j, ¬ (u.idx - k ≤ j ∧ j ≤ u.idx) → slotOf cell j = slotOf (v.disk (realCluster g u.chunk)) j) →
        slots g { v with disk := update v.disk (realCluster g u.chunk) cell } D =
          B ++ (block cell u.chunk (u.idx - k) (k + 1) ++ Z) := by
  obtain ⟨hmem, -⟩ := mem_scan hu
  obtain ⟨hc, hidx, -⟩ := mem_slots hmem
  dsimp only at hc hidx
  obtain ⟨D1, D2, rfl⟩ := List.append_of_mem hc
  have hroom : u.idx - k + (k + 1) ≤ entriesPerCluster g := by omega
  have hsplit : slots g v (D1 ++ u.chunk :: D2) =
      slots g v D1 ++ block (v.disk (realCluster g u.chunk)) u.chunk 0 (u.idx - k) ++
        (block (v.disk (realCluster g u.chunk)) u.chunk (u.idx - k) (k + 1) ++
          (block (v.disk (realCluster g u.chunk)) u.chunk (u.idx - k + (k + 1))
            (entriesPerCluster g - (u.idx - k + (k + 1))) ++ slots g v D2)) := by
    rw [slots_split, block_split _ _ hroom]
    simp only [List.append_assoc]
  refine ⟨_, _, hsplit, ?_, fun cell hcell => slots_block hnodup hroom fun j hj => hcell j (by omega)⟩
  rw [hsplit] at hu
  refine noEnd_before hu fun q hq => ?_
  rintro ⟨h1, h2⟩
  have hD : (D1 ++ u.chunk :: D2).Nodup := List.Nodup.of_map _ hnodup
  rw [List.nodup_middle, List.nodup_cons, List.mem_append, not_or] at hD
  rcases List.mem_append.mp hq with hq | hq
  · exact hD.1.1 (h1 ▸ (mem_slots hq).1)
  · have := (mem_block hq).2.2.1
    omega

/-- In a list of entries with different places, one at a given place is the one that is found. -/
theorem eq_of_split {P Q : List Visit} {u w : Visit} (hnodup : ((P ++ w :: Q).map fun u => (u.chunk, u.idx)).Nodup)
    (hu : u ∈ P ++ w :: Q) (hc : u.chunk = w.chunk) (hi : u.idx = w.idx) : u = w :=
  List.inj_on_of_nodup_map hnodup hu (by simp) (Prod.ext hc hi)

theorem block_one (cell : Mem) (c i : ℕ) : block cell c i 1 = [⟨c, i, slotOf cell i⟩] := rfl

theorem rewrite_entries (hnodup : (D.map (realCluster g)).Nodup) (hu : u ∈ scan [] (slots g v D)) (h0 : e 0 ≠ 0)
    (h1 : e 0 ≠ 0xE5) (hattr : attr e ≠ ATTR_LFN) (hcell : cell = putSlot (v.disk (realCluster g u.chunk)) u.idx e) :
    ∃ P Q, scan [] (slots g v D) = P ++ u :: Q ∧
      scan [] (slots g { v with disk := update v.disk (realCluster g u.chunk) cell } D) =
        P ++ ⟨u.chunk, u.idx, trim e, u.lfn⟩ :: Q := by
  have hplaces := nodup_places (g := g) (v := v) (List.Nodup.of_map _ hnodup)
  obtain ⟨hmem, hu0, hu1, hulfn⟩ := mem_scan hu
  have hentry := (mem_slots hmem).2.2
  dsimp only at hentry
  obtain ⟨B, Z, hslots, hend, hupd⟩ := slots_around hnodup hu (k := 0) (by omega)
  rw [Nat.sub_zero, Nat.zero_add, block_one, ← hentry, List.singleton_append] at hslots
  have hnew := hupd cell fun j hj => by rw [hcell, slotOf_putSlot, if_neg (by omega)]
  rw [Nat.sub_zero, Nat.zero_add, block_one, hcell, slotOf_putSlot, if_pos rfl, List.singleton_append, ← hcell] at hnew
  have hscan := @scan_entry _ Z [] ⟨u.chunk, u.idx, u.entry⟩ hend (slotFree_eq_false.mpr ⟨hu1, hu0⟩)
    hulfn
  have hscan' := @scan_entry _ Z [] ⟨u.chunk, u.idx, trim e⟩ hend (slotFree_trim h0 h1)
    (by rw [attr_trim]; exact hattr)
  rw [← hslots] at hscan
  rw [hscan] at hplaces hu
  have heq := eq_of_split hplaces hu rfl rfl
  have hlfn : u.lfn = lfnReconstruct (collected [] B) := congrArg Visit.lfn heq
  refine ⟨scan [] B, scan [] Z, ?_, ?_⟩
  · rw [hscan, ← hlfn]
  · rw [hnew, hscan', ← hlfn]

theorem lfnBefore_used (cell : Mem) (i : ℕ) : ∀ j, i - lfnBefore cell i ≤ j → j < i →
    slotFree (slotOf cell j) = false := by
  induction i with
  | zero => exact fun j _ hj => by omega
  | succ i ih =>
    intro j h1 h2
    rw [lfnBefore] at h1
    split at h1
    · omega
    · rename_i hlfn
      rw [not_or, not_not, Bool.not_eq_true] at hlfn
      rcases Nat.lt_succ_iff_lt_or_eq.mp h2 with hlt | rfl
      · exact ih j (by omega) hlt
      · exact hlfn.1

/-- The entry is deleted with its long name. -/
theorem erase_entries (hnodup : (D.map (realCluster g)).Nodup) (hu : u ∈ scan [] (slots g v D))
    (hcell : cell = eraseSlots (v.disk (realCluster g u.chunk)) u.idx) :
    ∃ P Q, scan [] (slots g v D) = P ++ u :: Q ∧
      scan [] (slots g { v with disk := update v.disk (realCluster g u.chunk) cell } D) = P ++ Q := by
  have hplaces := nodup_places (g := g) (v := v) (List.Nodup.of_map _ hnodup)
  obtain ⟨hmem, hu0, hu1, hulfn⟩ := mem_scan hu
  have hentry := (mem_slots hmem).2.2
  dsimp only at hentry
  obtain ⟨hle, hattr⟩ := lfnBefore_spec (v.disk (realCluster g u.chunk)) u.idx
  have hused := lfnBefore_used (v.disk (realCluster g u.chunk)) u.idx
  obtain ⟨k, hk⟩ : ∃ k, lfnBefore (v.disk (realCluster g u.chunk)) u.idx = k := ⟨_, rfl⟩
  rw [hk] at hle hattr hused
  obtain ⟨B, Z, hslots, hend, hupd⟩ := slots_around hnodup hu hle
  have hnew := hupd cell fun j hj => by
    rw [hcell]
    exact slotOf_eraseSlots (by rw [hk]; exact hj)
  have hlast : u.idx - k + k = u.idx := by omega
  rw [block_concat, hlast, ← hentry, List.append_assoc, List.singleton_append] at hslots
  have hlong : ∀ q ∈ block (v.disk (realCluster g u.chunk)) u.chunk (u.idx - k) k, IsLong q.entry := by
    intro q hq
    obtain ⟨-, h1, h2, he⟩ := mem_block hq
    rw [he]
    exact ⟨hused _ h1 (by omega), hattr _ h1 (by omega)⟩
  have herased : ∀ q ∈ block cell u.chunk (u.idx - k) (k + 1), q.entry 0 = 0xE5 := by
    intro q hq
    obtain ⟨-, h1, h2, he⟩ := mem_block hq
    rw [he, slotOf_zero, hcell]
    exact eraseSlots_first (by rw [hk]; omega)
  obtain ⟨lfn, hscan, hscan'⟩ := scan_erase (p := ⟨u.chunk, u.idx, u.entry⟩) (Y := Z) hend hlong
    (slotFree_eq_false.mpr ⟨hu1, hu0⟩) hulfn herased (by rw [block_concat]; simp)
  rw [← hslots] at hscan
  rw [hscan] at hplaces hu
  have heq := eq_of_split hplaces hu rfl rfl
  exact ⟨scan [] B, scan [] Z, by rw [hscan, ← heq], by rw [hnew, hscan']⟩

end ComputerOS.Fat32

namespace ComputerOS.Fat32

variable {raw83 A : Str} {a cl size t : ℕ} {p : UInt8 → Prop}

theorem forall_padTo {m : ℕ} {s : Str} (h32 : p 32) (h : ∀ c ∈ s, p c) : ∀ c ∈ padTo m s, p c := by
  intro c hc
  rcases List.mem_append.mp hc with hc | hc
  · exact h c hc
  · rw [List.eq_of_mem_replicate hc]
    exact h32

theorem forall_map_upper {s : Str} (h : ∀ c ∈ s, p (upper c)) : ∀ c ∈ s.map upper, p c := by
  intro c hc
  obtain ⟨b, hb, rfl⟩ := List.mem_map.mp hc
  exact h b hb

/-- What holds of a blank and of the characters of a name, also in upper case, holds of its short
form. -/
theorem forall_build83 (h32 : p 32) (hA : ∀ c ∈ A, p c ∧ p (upper c)) : ∀ c ∈ build83 A, p c := by
  intro c hc
  unfold build83 at hc
  split at hc
  · exact forall_padTo h32 (fun c hc => (hA c hc).1) c hc
  · rcases List.mem_append.mp hc with hc | hc
    · exact forall_padTo h32 (forall_map_upper fun b hb => (hA b (stemOf_sub A b (List.mem_of_mem_take hb))).2) c hc
    · exact forall_padTo h32 (forall_map_upper fun b hb => (hA b (extOf_sub A b (List.mem_of_mem_take hb))).2) c hc

theorem revDigits_range (f m : ℕ) : ∀ c ∈ revDigits f m, 48 ≤ c.toNat ∧ c.toNat ≤ 57 := by
  induction f generalizing m with
  | zero => exact fun c hc => by cases hc
  | succ f ih =>
    intro c hc
    rw [revDigits] at hc
    split at hc
    · cases hc
    · rcases List.mem_cons.mp hc with rfl | hc
      · have hlt := Nat.mod_lt m (show 0 < 10 by omega)
        rw [UInt8.toNat_ofNat', Nat.mod_eq_of_lt (by omega)]
        omega
      · exact ih _ c hc

theorem forall_build83Tail (h32 : p 32) (h126 : p 126) (hdigit : ∀ c : UInt8, 48 ≤ c.toNat → c.toNat ≤ 57 → p c)
    (hA : ∀ c ∈ A, p (upper c)) : ∀ c ∈ build83Tail A t, p c := by
  intro c hc
  unfold build83Tail at hc
  rcases List.mem_append.mp hc with hc | hc
  · refine forall_padTo h32 (fun b hb => ?_) c hc
    rcases List.mem_append.mp hb with hb | hb
    · exact forall_map_upper (fun b hb => hA b (stemOf_sub A b (List.mem_of_mem_take hb))) b hb
    · rcases List.mem_cons.mp hb with rfl | hb
      · exact h126
      · split at hb
        · rw [List.mem_singleton.mp hb]
          exact hdigit 48 (by decide) (by decide)
        · have := revDigits_range 7 t b (List.mem_reverse.mp hb)
          exact hdigit b this.1 this.2
  · exact forall_padTo h32 (forall_map_upper fun b hb => hA b (extOf_sub A b (List.mem_of_mem_take hb))) c hc

/-- A byte of a name in ASCII. -/
def Ascii (c : UInt8) : Prop := c ≠ 0 ∧ c < 128

theorem ascii_upper {c : UInt8} (h : Ascii c) : Ascii (upper c) := by
  refine ⟨upper_ne_zero h.1, ?_⟩
  have h128 : (128 : UInt8).toNat = 128 := rfl
  have hlt := UInt8.lt_iff_toNat_lt.mp h.2
  rw [h128] at hlt
  rw [UInt8.lt_iff_toNat_lt, h128]
  unfold upper
  split
  · rename_i hletter
    have hle : (97 : ℕ) ≤ c.toNat := UInt8.le_iff_toNat_le.mp hletter.1
    have h32 : (32 : UInt8).toNat = 32 := rfl
    rw [UInt8.toNat_sub_of_le c 32 (UInt8.le_iff_toNat_le.mpr (by omega)), h32]
    omega
  · exact hlt

theorem length_padTo {m : ℕ} {s : Str} (h : s.length ≤ m) : (padTo m s).length = m := by
  unfold padTo
  rw [List.length_append, List.length_replicate]
  omega

theorem length_build83 (A : Str) : (build83 A).length = 11 := by
  unfold build83
  split
  · rename_i h
    rcases h with rfl | rfl <;> rfl
  · rw [List.length_append, length_padTo, length_padTo]
    · rw [List.length_map, List.length_take]
      omega
    · rw [List.length_map, List.length_take]
      omega

theorem length_revDigits_le (f m : ℕ) : (revDigits f m).length ≤ f := by
  induction f generalizing m with
  | zero => exact le_rfl
  | succ f ih =>
    rw [revDigits]
    split
    · simp
    · rw [List.length_cons]
      have := ih (m / 10)
      omega

theorem length_build83Tail (A : Str) (t : ℕ) : (build83Tail A t).length = 11 := by
  unfold build83Tail
  have hdigits : (if t = 0 then [48] else (revDigits 7 t).reverse : Str).length ≤ 7 := by
    split
    · simp
    · rw [List.length_reverse]
      exact length_revDigits_le 7 t
  rw [List.length_append, length_padTo, length_padTo]
  · rw [List.length_map, List.length_take]
    omega
  · rw [List.length_append, List.length_map, List.length_take, List.length_cons]
    omega

theorem shortName_trim (e : Mem) : shortName (trim e) = shortName e :=
  List.map_congr_left fun _ hi => trim_of_lt (by have := List.mem_range.mp hi; omega)

theorem shortName_newEntry (h : raw83.length = 11) : shortName (newEntry raw83 a cl size) = raw83 := by
  unfold shortName newEntry
  refine List.ext_getElem (by simp [h]) fun i h1 h2 => ?_
  have hi : i < 11 := by omega
  rw [List.getElem_map, List.getElem_range, Mem.setLE_ne _ (by omega), Mem.setLE_ne _ (by omega),
    Mem.setLE_ne _ (by omega), Mem.setLE_ne _ (by omega), if_pos hi, List.getD_eq_getElem _ _ h2]

theorem entryCluster_newEntry (h : cl < 2 ^ 32) : entryCluster (trim (newEntry raw83 a cl size)) = cl := by
  unfold entryCluster
  rw [getLE_trim (by omega), getLE_trim (by omega)]
  unfold newEntry
  rw [Mem.getLE_setLE_ne _ (by omega), Mem.getLE_setLE_ne _ (by omega), Mem.getLE_setLE_same,
    Mem.getLE_setLE_ne _ (by omega), Mem.getLE_setLE_same]
  omega

theorem entrySize_newEntry (h : size < 2 ^ 32) : entrySize (trim (newEntry raw83 a cl size)) = size := by
  unfold entrySize
  rw [getLE_trim (by omega)]
  unfold newEntry
  rw [Mem.getLE_setLE_same, Nat.mod_eq_of_lt (by omega)]

theorem isDirectory_newEntry (h : a < 256) : isDirectory (trim (newEntry raw83 a cl size)) = decide
    (a / 16 % 2 = 1) := by
  unfold isDirectory
  rw [attr_trim, attr_newEntry _ _ _ h]

theorem isDot_newEntry (h : raw83.length = 11) : isDot (trim (newEntry raw83 a cl size)) = true ↔
    raw83 = padTo 11 [46] ∨ raw83 = padTo 11 [46, 46] := by
  unfold isDot
  rw [shortName_trim, shortName_newEntry h, Bool.or_eq_true, decide_eq_true_iff, decide_eq_true_iff]

/-- A short name with a number is not that of `.` or `..`. -/
theorem build83Tail_not_dot (A : Str) (t : ℕ) : build83Tail A t ≠ padTo 11 [46] ∧
    build83Tail A t ≠ padTo 11 [46, 46] := by
  have hmem : (126 : UInt8) ∈ build83Tail A t := by
    unfold build83Tail padTo
    simp
  refine ⟨fun heq => ?_, fun heq => ?_⟩
  · rw [heq] at hmem
    exact absurd hmem (by decide)
  · rw [heq] at hmem
    exact absurd hmem (by decide)

theorem ascii_short (hA : ∀ c ∈ A, Ascii c) (hraw : raw83 = build83 A ∨ raw83 = build83Tail A t) :
    raw83.length = 11 ∧ ∀ c ∈ raw83, Ascii c := by
  rcases hraw with rfl | rfl
  · exact ⟨length_build83 A, forall_build83 ⟨by decide, by decide⟩ fun c hc => ⟨hA c hc, ascii_upper (hA c hc)⟩⟩
  · refine ⟨length_build83Tail A t, forall_build83Tail ⟨by decide, by decide⟩ ⟨by decide, by decide⟩
      (fun c h1 h2 => ⟨?_, ?_⟩) fun c hc => ascii_upper (hA c hc)⟩
    · rintro rfl
      exact absurd h1 (by decide)
    · rw [UInt8.lt_iff_toNat_lt]
      have h128 : (128 : UInt8).toNat = 128 := rfl
      omega

/-- The entries that are written for a name in ASCII are in use and no parts of long names. -/
theorem newEntry_plain (hA : ∀ c ∈ A, Ascii c) (ha : a < 256) (hlfn : a ≠ ATTR_LFN) (raw83 : Str) (t : ℕ)
    (hraw : raw83 = build83 A ∨ raw83 = build83Tail A t) : newEntry raw83 a cl size 0 ≠ 0 ∧
      newEntry raw83 a cl size 0 ≠ 0xE5 ∧ attr (newEntry raw83 a cl size) ≠ ATTR_LFN := by
  obtain ⟨hlen, hascii⟩ := ascii_short hA hraw
  have hfirst : Ascii (newEntry raw83 a cl size 0) := by
    rw [newEntry_zero, List.getD_eq_getElem _ _ (by omega)]
    exact hascii _ (List.getElem_mem _)
  refine ⟨hfirst.1, fun h => ?_, by rw [attr_newEntry _ _ _ ha]; exact hlfn⟩
  rw [h] at hfirst
  exact absurd hfirst.2 (by decide)

end ComputerOS.Fat32
