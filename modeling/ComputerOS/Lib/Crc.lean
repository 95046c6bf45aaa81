import Mathlib.Logic.Function.Iterate
import Mathlib.Data.List.GetD

/-!
Reflected cyclic redundancy checks: a shift register of any width that a message enters bit by bit,
with any polynomial whose top bit is set. The register is linear in the message, and it never
forgets a bit, so two messages that differ within one window as wide as the register leave it in
different states.
-/
namespace ComputerOS.Crc

variable {w : ℕ} (poly : BitVec w)

/-- The register moves by one place. -/
def shift (c : BitVec w) : BitVec w := (c >>> 1) ^^^ (if c.getLsbD 0 then poly else 0#w)

/-- One bit of the message enters. -/
def feed (c : BitVec w) (b : Bool) : BitVec w := shift poly (c ^^^ (BitVec.ofBool b).setWidth w)

def run (c : BitVec w) (bits : List Bool) : BitVec w := bits.foldl (feed poly) c

variable {poly} {b : Bool} {bits bits' : List Bool} {p n : ℕ}

theorem shift_xor (a c : BitVec w) : shift poly (a ^^^ c) = shift poly a ^^^ shift poly c := by
  unfold shift
  rw [BitVec.ushiftRight_xor_distrib, BitVec.getLsbD_xor]
  cases a.getLsbD 0 <;> cases c.getLsbD 0
  · simp
  · simp [BitVec.xor_assoc]
  · simp only [Bool.xor_false, if_true, Bool.false_eq_true, if_false]
    rw [BitVec.xor_zero, BitVec.xor_assoc, BitVec.xor_assoc, BitVec.xor_comm (c >>> 1)]
  · have hswap : poly ^^^ (c >>> 1 ^^^ poly) = c >>> 1 := by
      rw [BitVec.xor_comm (c >>> 1), ← BitVec.xor_assoc, BitVec.xor_self, BitVec.zero_xor]
    simp [BitVec.xor_assoc, hswap]

theorem shift_zero : shift poly 0#w = 0#w := by
  simp [shift]

theorem iterate_shift_zero (n : ℕ) : (shift poly)^[n] 0#w = 0#w := Function.iterate_fixed shift_zero n

theorem run_append (c : BitVec w) (bits bits' : List Bool) :
    run poly c (bits ++ bits') = run poly (run poly c bits) bits' := List.foldl_append

theorem run_xor (a c : BitVec w) (h : bits.length = bits'.length) :
    run poly (a ^^^ c) (List.zipWith xor bits bits') = run poly a bits ^^^ run poly c bits' := by
  induction bits generalizing a c bits' with
  | nil =>
    obtain rfl := List.length_eq_zero_iff.mp h.symm
    rfl
  | cons b bits ih =>
    obtain _ | ⟨b', bits'⟩ := bits'
    · cases h
    have hfeed : feed poly (a ^^^ c) (xor b b') = feed poly a b ^^^ feed poly c b' := by
      have hbit : (BitVec.ofBool (xor b b')).setWidth w =
          (BitVec.ofBool b).setWidth w ^^^ (BitVec.ofBool b').setWidth w := by
        cases b <;> cases b' <;> simp
      rw [feed, feed, feed, ← shift_xor, hbit]
      congr 1
      rw [BitVec.xor_assoc, BitVec.xor_assoc, ← BitVec.xor_assoc c, ← BitVec.xor_assoc _ c, BitVec.xor_comm c]
    change run poly (feed poly (a ^^^ c) (xor b b')) (List.zipWith xor bits bits') = _
    rw [hfeed, ih _ _ (Nat.succ.inj h)]
    rfl

/-- A register that a shift empties was empty. -/
theorem eq_zero_of_shift (hpoly : poly.getLsbD (w - 1) = true) {c : BitVec w} (h : shift poly c = 0#w) : c = 0#w := by
  have htop : (shift poly c).getLsbD (w - 1) = c.getLsbD 0 := by
    unfold shift
    rw [BitVec.getLsbD_xor, BitVec.getLsbD_ushiftRight, BitVec.getLsbD_of_ge c _ (by omega), Bool.false_xor]
    cases c.getLsbD 0 <;> simp [hpoly]
  have hlow : c.getLsbD 0 = false := by rw [← htop, h, BitVec.getLsbD_zero]
  refine BitVec.eq_of_getLsbD_eq fun i _ => ?_
  obtain _ | i := i
  · rw [hlow, BitVec.getLsbD_zero]
  · have hi : (shift poly c).getLsbD i = c.getLsbD (i + 1) := by
      simp [shift, hlow, Nat.add_comm 1 i]
    rw [← hi, h, BitVec.getLsbD_zero, BitVec.getLsbD_zero]

theorem iterate_shift_ne (hpoly : poly.getLsbD (w - 1) = true) {c : BitVec w} (hc : c ≠ 0#w) (n : ℕ) :
    (shift poly)^[n] c ≠ 0#w := by
  induction n with
  | zero => exact hc
  | succ n ih =>
    rw [Function.iterate_succ_apply']
    exact fun h => ih (eq_zero_of_shift hpoly h)

/-- The register with the given bits, the lowest first. -/
def word (w : ℕ) : List Bool → BitVec w
  | [] => 0#w
  | b :: bits => (BitVec.ofBool b).setWidth w ^^^ (word w bits) <<< 1

theorem word_bit (bits : List Bool) (i : ℕ) : (word w bits).getLsbD i = (decide (i < w) && bits.getD i false) := by
  induction bits generalizing i with
  | nil => simp [word]
  | cons b bits ih =>
    rw [word, BitVec.getLsbD_xor, BitVec.getLsbD_shiftLeft, BitVec.getLsbD_setWidth, BitVec.getLsbD_ofBool]
    obtain _ | i := i
    · simp
    · rw [Nat.add_sub_cancel, ih]
      by_cases hi : i + 1 < w
      · simp [hi, Nat.lt_of_succ_lt hi]
      · simp [hi]

theorem run_word (c : BitVec w) (h : bits.length ≤ w) :
    run poly c bits = (shift poly)^[bits.length] (c ^^^ word w bits) := by
  induction bits generalizing c with
  | nil => simp [run, word]
  | cons b bits ih =>
    have hlen : bits.length < w := h
    have hshift : shift poly (word w bits <<< 1) = word w bits := by
      have hlow : (word w bits <<< 1).getLsbD 0 = false := by simp
      rw [shift, hlow, if_neg Bool.false_ne_true, BitVec.xor_zero]
      refine BitVec.eq_of_getLsbD_eq fun i hi => ?_
      rw [BitVec.getLsbD_ushiftRight, BitVec.getLsbD_shiftLeft, word_bit, word_bit]
      by_cases htop : 1 + i < w
      · simp [htop, hi]
      · -- the top bit of the word is beyond its bits
        rw [List.getD_eq_default _ _ (show bits.length ≤ i by omega)]
        simp [htop]
    change run poly (feed poly c b) bits = _
    rw [ih _ (Nat.le_of_lt hlen), List.length_cons, Function.iterate_succ_apply, word,
      ← BitVec.xor_assoc, shift_xor, hshift]
    rfl

theorem run_false (c : BitVec w) (h : ∀ b ∈ bits, b = false) : run poly c bits = (shift poly)^[bits.length] c := by
  induction bits generalizing c with
  | nil => rfl
  | cons b bits ih =>
    obtain rfl := h b List.mem_cons_self
    have hfeed : feed poly c false = shift poly c := by simp [feed]
    change run poly (feed poly c false) bits = _
    rw [hfeed, ih _ fun b hb => h b (List.mem_cons_of_mem _ hb)]
    rfl

theorem run_burst_ne (hpoly : poly.getLsbD (w - 1) = true) (hin : ∀ k, bits.getD k false = true → p ≤ k ∧ k < p + w)
    (hset : ∃ k, bits.getD k false = true) : run poly 0#w bits ≠ 0#w := by
  have hsplit : bits = bits.take p ++ ((bits.drop p).take w ++ (bits.drop p).drop w) := by
    rw [List.take_append_drop, List.take_append_drop]
  have hbit : ∀ {l : List Bool} {b}, b ∈ l → (∀ k, l.getD k false = true → False) → b = false := fun {l b} hb hl => by
    obtain ⟨k, hk, rfl⟩ := List.getElem_of_mem hb
    refine Bool.eq_false_iff.mpr fun h => hl k ?_
    rwa [List.getD_eq_getElem _ _ hk]
  have hbefore : ∀ b ∈ bits.take p, b = false := fun b hb => hbit hb fun k hk => by
    rw [List.getD_eq_getElem?_getD, List.getElem?_take] at hk
    split at hk
    · next hlt =>
      rw [← List.getD_eq_getElem?_getD] at hk
      have := hin k hk
      omega
    · cases hk
  have hafter : ∀ b ∈ (bits.drop p).drop w, b = false := fun b hb => hbit hb fun k hk => by
    rw [List.drop_drop, List.getD_eq_getElem?_getD, List.getElem?_drop, ← List.getD_eq_getElem?_getD] at hk
    have := hin _ hk
    omega
  have hword : word w ((bits.drop p).take w) ≠ 0#w := by
    obtain ⟨k, hk⟩ := hset
    obtain ⟨hle, hlt⟩ := hin k hk
    intro h
    have hzero := congrArg (·.getLsbD (k - p)) h
    have hmid : ((bits.drop p).take w).getD (k - p) false = bits.getD k false := by
      rw [List.getD_eq_getElem?_getD, List.getD_eq_getElem?_getD, List.getElem?_take,
        if_pos (by omega), List.getElem?_drop, Nat.add_sub_cancel' hle]
    simp only [word_bit, hmid, hk, BitVec.getLsbD_zero, Bool.and_true, decide_eq_false_iff_not] at hzero
    exact hzero (by omega)
  rw [hsplit, run_append, run_append, run_false 0#w hbefore, iterate_shift_zero,
    run_word _ (List.length_take_le _ _), run_false _ hafter, BitVec.zero_xor]
  exact iterate_shift_ne hpoly (iterate_shift_ne hpoly hword _) _

/-- Messages of one length that differ, and only within `w` consecutive bits, leave the register in
different states. -/
theorem run_ne (hpoly : poly.getLsbD (w - 1) = true) (c : BitVec w) (hlen : bits.length = bits'.length)
    (hin : ∀ k, bits.getD k false ≠ bits'.getD k false → p ≤ k ∧ k < p + w)
    (hne : ∃ k, bits.getD k false ≠ bits'.getD k false) : run poly c bits ≠ run poly c bits' := by
  have hdiff : ∀ k, (List.zipWith xor bits bits').getD k false = true ↔
    bits.getD k false ≠ bits'.getD k false := fun k => by
    by_cases hk : k < bits.length
    · rw [List.getD_eq_getElem _ _ (by simpa [← hlen] using hk), List.getD_eq_getElem _ _ hk,
        List.getD_eq_getElem _ _ (hlen ▸ hk), List.getElem_zipWith]
      exact bne_iff_ne
    · rw [List.getD_eq_default _ _ (by simp; omega), List.getD_eq_default _ _ (by omega),
        List.getD_eq_default _ _ (by omega)]
      exact ⟨fun h => absurd h Bool.false_ne_true, fun h => absurd rfl h⟩
  have hxor : run poly (c ^^^ c) (List.zipWith xor bits bits') = _ := run_xor c c hlen
  rw [BitVec.xor_self] at hxor
  intro h
  rw [h, BitVec.xor_self] at hxor
  exact run_burst_ne hpoly (fun k hk => hin k ((hdiff k).mp hk)) (hne.imp fun k hk => (hdiff k).mpr hk) hxor

/-- Different states stay different. -/
theorem run_ne_of_ne (hpoly : poly.getLsbD (w - 1) = true) {a c : BitVec w} (h : a ≠ c) (bits : List Bool) :
    run poly a bits ≠ run poly c bits := by
  have hzip : ∀ b ∈ List.zipWith xor bits bits, b = false := fun b hb => by
    obtain ⟨k, hk, rfl⟩ := List.getElem_of_mem hb
    rw [List.getElem_zipWith, Bool.xor_self]
  have hxor : run poly (a ^^^ c) (List.zipWith xor bits bits) = _ := run_xor a c rfl
  rw [run_false _ hzip] at hxor
  intro heq
  rw [heq, BitVec.xor_self] at hxor
  exact iterate_shift_ne hpoly (fun hzero => h (BitVec.xor_eq_zero_iff.mp hzero)) _ hxor

/-- Bit `k` of a byte string, the lowest bit of each byte first. -/
def bitAt (data : List UInt8) (k : ℕ) : Bool := (data.getD (k / 8) 0).toBitVec.getLsbD (k % 8)

def bitsOf (data : List UInt8) : List Bool := (List.range (8 * data.length)).map (bitAt data)

theorem bitsOf_cons (x : UInt8) (data : List UInt8) :
    bitsOf (x :: data) = (List.range 8).map x.toBitVec.getLsbD ++ bitsOf data := by
  have hlen : 8 * (x :: data).length = 8 + 8 * data.length := by
    rw [List.length_cons]
    omega
  rw [bitsOf, hlen, List.range_add, List.map_append, List.map_map]
  refine congrArg₂ (· ++ ·) (List.map_congr_left fun k hk => ?_) (List.map_congr_left fun k _ => ?_)
  · have hlt := List.mem_range.mp hk
    rw [bitAt, Nat.div_eq_of_lt hlt, Nat.mod_eq_of_lt hlt]
    rfl
  · rw [Function.comp_apply, bitAt, Nat.add_div_left k (by decide), Nat.add_mod_left]
    rfl

theorem getD_bitsOf (data : List UInt8) (k : ℕ) : (bitsOf data).getD k false = bitAt data k := by
  by_cases hk : k < 8 * data.length
  · rw [List.getD_eq_getElem _ _ (by simpa [bitsOf] using hk)]
    simp [bitsOf]
  · rw [List.getD_eq_default _ _ (by simp [bitsOf]; omega), bitAt, List.getD_eq_default _ _ (by omega)]
    exact BitVec.getLsbD_zero.symm

/-- A byte enters as one word. -/
theorem run_byte (hw : 8 ≤ w) (c : BitVec w) (x : UInt8) :
    run poly c ((List.range 8).map x.toBitVec.getLsbD) = (shift poly)^[8] (c ^^^ x.toBitVec.setWidth w) := by
  rw [run_word c (by simpa using hw), List.length_map, List.length_range]
  congr 2
  refine BitVec.eq_of_getLsbD_eq fun i hi => ?_
  rw [word_bit, BitVec.getLsbD_setWidth]
  by_cases h8 : i < 8
  · rw [List.getD_eq_getElem _ _ (by simpa using h8)]
    simp
  · rw [List.getD_eq_default _ _ (by simpa using h8), BitVec.getLsbD_of_ge x.toBitVec i (by omega)]

/-- Two byte strings of one length differ, and only within a window of `n` consecutive bits. -/
structure Burst (n : ℕ) (data data' : List UInt8) : Prop where
  length : data.length = data'.length
  window : ∃ p, ∀ k, bitAt data k ≠ bitAt data' k → p ≤ k ∧ k < p + n
  differs : data ≠ data'

theorem exists_bit_ne {data data' : List UInt8} (hlen : data.length = data'.length) (hne : data ≠ data') :
    ∃ k, bitAt data k ≠ bitAt data' k := by
  by_contra hall
  rw [not_exists] at hall
  refine hne (List.ext_getElem hlen fun i hi hi' => UInt8.toBitVec_inj.mp (BitVec.eq_of_getLsbD_eq fun k hk => ?_))
  have hbit := not_not.mp (hall (8 * i + k))
  have hdiv : (8 * i + k) / 8 = i := by omega
  have hmod : (8 * i + k) % 8 = k := by omega
  rwa [bitAt, bitAt, hdiv, hmod, List.getD_eq_getElem _ _ hi, List.getD_eq_getElem _ _ hi'] at hbit

/-- A burst no longer than the register changes its final state. -/
theorem Burst.run_ne {data data' : List UInt8} (hpoly : poly.getLsbD (w - 1) = true)
    (h : Burst w data data') (c : BitVec w) :
    run poly c (bitsOf data) ≠ run poly c (bitsOf data') := by
  obtain ⟨p, hp⟩ := h.window
  refine Crc.run_ne (p := p) hpoly c (by simp [bitsOf, h.length]) (fun k hk => ?_) ?_
  · rw [getD_bitsOf, getD_bitsOf] at hk
    exact hp k hk
  · obtain ⟨k, hk⟩ := exists_bit_ne h.length h.differs
    exact ⟨k, by rwa [getD_bitsOf, getD_bitsOf]⟩

end ComputerOS.Crc
