import Mathlib.Data.List.TakeWhile
import ComputerOS.Fat32.Apart

/-!
A long name read back from the entries that were written for it: the entries hold its characters
thirteen at a time, the last ones first.
-/
namespace ComputerOS.Fat32

variable {name : Str} {ck segs seg : ℕ}

theorem getLE_trim {e : Mem} {o w : ℕ} (h : o + w ≤ 32) : (trim e).getLE o w = e.getLE o w :=
  Mem.getLE_congr fun i hi => trim_of_lt (by omega)

/-- Fields behind `o` do not matter for it. -/
theorem getLE_foldl_ne {l : List (ℕ × ℕ)} {o : ℕ} (h : ∀ p ∈ l, o + 2 ≤ p.1) (e : Mem) :
    (l.foldl (fun e p => e.setLE p.1 2 p.2) e).getLE o 2 = e.getLE o 2 := by
  induction l generalizing e with
  | nil => rfl
  | cons p l ih =>
    rw [List.foldl_cons, ih fun q hq => h q (List.mem_cons_of_mem _ hq)]
    exact Mem.getLE_setLE_ne _ (Or.inl (h p List.mem_cons_self))

/-- Fields that do not overlap hold what was written to them. -/
theorem getLE_foldl {offs vals : List ℕ} (hlen : offs.length = vals.length) (hpair : offs.Pairwise fun a b => a + 2 ≤ b)
    (e : Mem) : (offs.map fun o => ((offs.zip vals).foldl (fun e p => e.setLE p.1 2 p.2) e).getLE o
      2) = vals.map (· % 65536) := by
  induction offs generalizing vals e with
  | nil =>
    cases vals with
    | nil => rfl
    | cons x vals => cases hlen
  | cons o offs ih =>
    cases vals with
    | nil => cases hlen
    | cons x vals =>
      obtain ⟨ho, hpair⟩ := List.pairwise_cons.mp hpair
      rw [List.zip_cons_cons, List.foldl_cons, List.map_cons, List.map_cons, ih (Nat.succ.inj hlen) hpair]
      congr 1
      rw [getLE_foldl_ne fun p hp => ho _ (List.of_mem_zip hp).1, Mem.getLE_setLE_same]
      rfl

theorem lfnChar_lt (name : Str) (i : ℕ) : lfnChar name i < 65536 := by
  unfold lfnChar
  split
  · have := UInt8.toNat_lt (name.getD i 0)
    omega
  · split <;> omega

theorem lfnChars_lfnEntry : lfnChars (trim (lfnEntry name ck segs seg)) =
    (List.range 13).map fun i => lfnChar name (seg * 13 + i) := by
  have htrim : lfnChars (trim (lfnEntry name ck segs seg)) = lfnChars (lfnEntry name ck segs seg) := by
    unfold lfnChars
    refine List.map_congr_left fun o ho => getLE_trim ?_
    have : ∀ o ∈ [1, 3, 5, 7, 9, 14, 16, 18, 20, 22, 24, 28, 30], o + 2 ≤ 32 := by decide
    exact this o ho
  rw [htrim, lfnChars, lfnEntry, getLE_foldl (by simp) (by decide), List.map_map]
  exact List.map_congr_left fun i _ => Nat.mod_eq_of_lt (lfnChar_lt name _)

theorem flatMap_range (f : ℕ → ℕ) (m : ℕ) :
    ((List.range m).flatMap fun k => (List.range 13).map fun i => f (k * 13 + i)) = (List.range (m * 13)).map f := by
  induction m with
  | zero => rfl
  | succ m ih =>
    have hlast : List.range (m + 1) = List.range m ++ [m] := List.range_succ
    rw [hlast, List.flatMap_append, ih, List.flatMap_singleton, Nat.succ_mul, List.range_add,
      List.map_append, List.map_map]
    rfl

theorem map_lfnChar {m : ℕ} (hm : name.length ≤ m) : ∃ pad, (List.range m).map (lfnChar name) =
    name.map UInt8.toNat ++ pad ∧ (pad = [] ∨ pad.head? = some 0) := by
  obtain ⟨k, rfl⟩ : ∃ k, m = name.length + k := ⟨m - name.length, by omega⟩
  refine ⟨(List.range k).map fun i => lfnChar name (name.length + i), ?_, ?_⟩
  · rw [List.range_add, List.map_append, List.map_map]
    congr 1
    refine List.ext_getElem (by simp) fun i h1 h2 => ?_
    rw [List.length_map] at h2
    simp [lfnChar, h2]
  · cases k with
    | zero => exact Or.inl rfl
    | succ k =>
      right
      rw [List.range_succ_eq_map, List.map_cons]
      simp [lfnChar]

theorem takeWhile_ne_zero {l pad : List ℕ} (hl : ∀ c ∈ l, c ≠ 0) (hpad : pad = [] ∨ pad.head? = some 0) :
    (l ++ pad).takeWhile (· ≠ 0) = l := by
  rw [List.takeWhile_append_of_pos fun c hc => decide_eq_true (hl c hc)]
  have : pad.takeWhile (· ≠ 0) = [] := by
    rcases hpad with rfl | h
    · rfl
    · cases pad with
      | nil => rfl
      | cons x pad =>
        obtain rfl := Option.some.inj h
        rfl
  rw [this, List.append_nil]

theorem lfnReconstruct_lfnEntries (hascii : ∀ c ∈ name, c ≠ 0 ∧ c < 128) (hlen : name.length ≤ 255)
    (hsegs : segs = lfnEntryCount name.length) :
    lfnReconstruct ((List.range segs).map fun k => trim (lfnEntry name ck segs (segs - 1 - k))) = name := by
  have hchars : (((List.range segs).map fun k =>
      trim (lfnEntry name ck segs (segs - 1 - k))).reverse.flatMap lfnChars) =
      (List.range (segs * 13)).map (lfnChar name) := by
    rw [← flatMap_range, ← List.map_reverse, List.flatMap_map]
    have hrev : (List.range segs).reverse = (List.range segs).map (segs - 1 - ·) := by
      refine List.ext_getElem (by simp) fun i h1 h2 => ?_
      simp
    rw [hrev, List.flatMap_map]
    refine List.flatMap_congr fun k hk => ?_
    have := List.mem_range.mp hk
    rw [lfnChars_lfnEntry, show segs - 1 - (segs - 1 - k) = k by omega]
  have hroom : name.length ≤ segs * 13 := by
    rw [hsegs, lfnEntryCount]
    omega
  obtain ⟨pad, hpad, hhead⟩ := map_lfnChar hroom
  have hnat : ∀ c ∈ name.map UInt8.toNat, c ≠ 0 ∧ c < 128 := by
    intro c hc
    obtain ⟨b, hb, rfl⟩ := List.mem_map.mp hc
    refine ⟨fun h0 => (hascii b hb).1 (UInt8.toNat.inj h0), ?_⟩
    exact UInt8.lt_iff_toNat_lt.mp (hascii b hb).2
  unfold lfnReconstruct
  rw [hchars, hpad, takeWhile_ne_zero (fun c hc => (hnat c hc).1) hhead]
  dsimp only
  rw [List.filter_eq_self.mpr fun c hc => decide_eq_true (by have := (hnat c hc).2; omega), List.map_map]
  have hback : name.map ((fun c => UInt8.ofNat (c % 128)) ∘ UInt8.toNat) = name := by
    refine (List.map_congr_left fun c hc => ?_).trans (List.map_id _)
    have := (hnat c.toNat (List.mem_map_of_mem hc)).2
    rw [Function.comp_apply, Nat.mod_eq_of_lt this, UInt8.ofNat_toNat]
    rfl
  rw [hback, List.take_of_length_le hlen]
  exact List.takeWhile_eq_self_iff.mpr fun c hc => decide_eq_true (hascii c hc).1

end ComputerOS.Fat32
