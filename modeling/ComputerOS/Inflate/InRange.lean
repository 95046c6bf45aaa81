import ComputerOS.Inflate.Accesses

/-!
Every array access of the decompressor is in range and every shift is by less than 32, on every
input. Between two reads the bits that have been taken, with those in the buffer, are the bytes that
have been read, and zero bytes behind the end of the input only when all bytes have been read. So
after a stream that goes on behind the end no trailer is left.
-/
namespace ComputerOS.Inflate

open Looping

variable {bs : Bitstream} {n d : ℕ} {lengths : List ℕ} {l₁ l₂ : List Event}

/-- All accesses and shifts are as they should be. -/
def AllOk (events : List Event) : Prop := ∀ e ∈ events, e.Ok

theorem AllOk.append (h₁ : AllOk l₁) (h₂ : AllOk l₂) : AllOk (l₁ ++ l₂) := List.forall_mem_append.mpr ⟨h₁, h₂⟩

theorem AllOk.cons {e : Event} (he : e.Ok) (h : AllOk l₁) : AllOk (e :: l₁) := List.forall_mem_cons.mpr ⟨he, h⟩

theorem shift_ok (h : n < 32) : (Event.shift n).Ok := h

theorem allOk_nil : AllOk [] := fun e he => by cases he

theorem dropped_append (l₁ l₂ : List Event) : dropped (l₁ ++ l₂) = dropped l₁ + dropped l₂ := by
  rw [dropped, dropped, dropped, List.map_append, List.sum_append]

theorem dropped_cons (e : Event) (l : List Event) : dropped (e :: l) = e.bits + dropped l := by
  rw [dropped, dropped, List.map_cons, List.sum_cons]

theorem dropped_of_none (h : ∀ e ∈ l₁, e.bits = 0) : dropped l₁ = 0 := by
  induction l₁ with
  | nil => rfl
  | cons e l ih =>
    rw [dropped_cons, h e List.mem_cons_self, ih fun x hx => h x (List.mem_cons_of_mem e hx)]

/-- `d` bits have been taken: with those in the buffer they are whole bytes, and zero bytes are
among them only when the input is at its end. -/
structure Bitstream.Counted (d : ℕ) (bs : Bitstream) : Prop where
  ready : bs.Ready
  within : bs.srcPos ≤ bs.src.length
  taken : ∃ zeros, d + bs.nbits = 8 * (bs.srcPos + zeros) ∧ (zeros = 0 ∨ bs.srcPos = bs.src.length)

theorem counted_start (src : List UInt8) : (Bitstream.mk src 0 0 0).Counted 0 :=
  ⟨ready_start src, Nat.zero_le _, 0, rfl, Or.inl rfl⟩

/-- Filling the buffer takes no bits, and reads the input in range. -/
theorem bsFillTurns_counted (turns : ℕ) (hn : n ≤ 24) (hin : bs.srcPos ≤ bs.src.length)
    (htaken : ∃ zeros, d + bs.nbits = 8 * (bs.srcPos + zeros) ∧ (zeros = 0 ∨ bs.srcPos = bs.src.length)) :
    (bsFillTurns n turns bs).src = bs.src ∧ (bsFillTurns n turns bs).srcPos ≤ bs.src.length ∧
    (∃ zeros, d + (bsFillTurns n turns bs).nbits = 8 * ((bsFillTurns n turns bs).srcPos + zeros) ∧
      (zeros = 0 ∨ (bsFillTurns n turns bs).srcPos = bs.src.length)) ∧
    AllOk (Accesses.bsFillEvents n turns bs) ∧ dropped (Accesses.bsFillEvents n turns bs) = 0 := by
  induction turns generalizing bs with
  | zero => exact ⟨rfl, hin, htaken, allOk_nil, rfl⟩
  | succ turns ih =>
    unfold bsFillTurns Accesses.bsFillEvents
    by_cases hlt : bs.nbits < n
    · rw [if_pos hlt, if_pos hlt]
      obtain ⟨zeros, htake, hzeros⟩ := htaken
      by_cases hpos : bs.srcPos < bs.src.length
      · have hz : zeros = 0 := hzeros.resolve_right (by omega)
        obtain ⟨hsrc, hnext, hnbits⟩ : (bsFillByte bs).src = bs.src ∧
            (bsFillByte bs).srcPos = bs.srcPos + 1 ∧ (bsFillByte bs).nbits = bs.nbits + 8 := by
          unfold bsFillByte
          rw [if_pos hpos]
          exact ⟨rfl, rfl, rfl⟩
        have hpos' : (bsFillByte bs).srcPos ≤ (bsFillByte bs).src.length := by
          rw [hsrc, hnext]
          exact hpos
        have hrest := ih hpos' ⟨0, by omega, Or.inl rfl⟩
        rw [hsrc] at hrest
        obtain ⟨h1, h2, h3, h4, h5⟩ := hrest
        rw [if_pos hpos]
        refine ⟨h1, h2, h3, AllOk.append (AllOk.cons hpos (AllOk.cons (shift_ok (by omega)) allOk_nil)) h4, ?_⟩
        rw [dropped_append, h5]
        rfl
      · obtain ⟨hsrc, hnext, hnbits⟩ : (bsFillByte bs).src = bs.src ∧
            (bsFillByte bs).srcPos = bs.srcPos ∧ (bsFillByte bs).nbits = bs.nbits + 8 := by
          unfold bsFillByte
          rw [if_neg hpos]
          exact ⟨rfl, rfl, rfl⟩
        have hin' : (bsFillByte bs).srcPos ≤ (bsFillByte bs).src.length := by
          rw [hsrc, hnext]
          exact hin
        have hrest := ih hin' ⟨zeros + 1, by omega, Or.inr (by rw [hsrc, hnext]; omega)⟩
        rw [hsrc] at hrest
        rw [if_neg hpos]
        exact hrest
    · rw [if_neg hlt, if_neg hlt]
      exact ⟨rfl, hin, htaken, allOk_nil, rfl⟩

theorem bsRead_counted (h : bs.Counted d) (hn : n ≤ 24) : (bsRead n bs).2.Counted (d + n) ∧
    (bsRead n bs).2.src = bs.src ∧ AllOk (Accesses.bsReadEvents n bs) ∧
    dropped (Accesses.bsReadEvents n bs) = n := by
  obtain ⟨-, -, hready⟩ := bsRead_spec h.ready hn
  obtain ⟨-, -, -, hle⟩ := bsFill_spec h.ready hn
  obtain ⟨hsrc, hin, ⟨zeros, htake, hzeros⟩, hok, hdrop⟩ := bsFillTurns_counted n hn h.within h.taken
  have hpos : (bsRead n bs).2.srcPos = (bsFillTurns n n bs).srcPos := rfl
  have hnbits : (bsRead n bs).2.nbits = (bsFillTurns n n bs).nbits - n := rfl
  have hle' : n ≤ (bsFillTurns n n bs).nbits := hle
  have hsrc' : (bsRead n bs).2.src = bs.src := hsrc
  refine ⟨⟨hready, by rw [hsrc', hpos]; exact hin, zeros, ?_, ?_⟩, hsrc', ?_, ?_⟩
  · rw [hpos, hnbits]
    omega
  · rw [hsrc', hpos]
    exact hzeros
  · have hshift : (Event.shift n).Ok := shift_ok (by omega)
    exact hok.append (AllOk.cons hshift (AllOk.cons hshift (AllOk.cons trivial allOk_nil)))
  · rw [Accesses.bsReadEvents, dropped_append, hdrop]
    simp [dropped, Event.bits]

/-- What is in the buffer is discarded. -/
theorem bsAlign_counted (h : bs.Counted d) : (bsAlign bs).Counted (d + bs.nbits) ∧ (bsAlign bs).src = bs.src ∧
    (bsAlign bs).nbits = 0 ∧ AllOk (Accesses.bsAlignEvents bs) ∧ dropped (Accesses.bsAlignEvents bs) = bs.nbits := by
  have hall : bs.nbits &&& 7 = bs.nbits := by
    rw [show (7 : ℕ) = 2 ^ 3 - 1 by rfl, Nat.and_two_pow_sub_one_eq_mod]
    exact Nat.mod_eq_of_lt h.ready.small
  have hsmall := h.ready.small
  have hnbits : (bsAlign bs).nbits = 0 := by
    change bs.nbits - (bs.nbits &&& 7) = 0
    rw [hall, Nat.sub_self]
  obtain ⟨zeros, htake, hzeros⟩ := h.taken
  refine ⟨⟨(bsAlign_spec h.ready).2, h.within, zeros, ?_, hzeros⟩, rfl, hnbits, ?_, ?_⟩
  · rw [hnbits]
    exact htake
  · rw [Accesses.bsAlignEvents, hall]
    exact AllOk.cons (shift_ok (by omega)) (AllOk.cons trivial allOk_nil)
  · rw [Accesses.bsAlignEvents, hall]
    simp [dropped, Event.bits]

theorem perLength_ok {i : ℕ} (h : i ≤ HUFF_MAX_BITS) : (Accesses.perLength i).Ok := Nat.lt_succ_of_le h

/-- A symbol that is decoded stands in the table. -/
theorem huffDecodeFrom_counted {h : Huffman} (hsyms : h.nsyms ≤ HUFF_MAX_SYMS) {lens : List ℕ}
    (hlens : ∀ len ∈ lens, len ≤ HUFF_MAX_BITS) (code : ℕ) (hbs : bs.Counted d) :
    (huffDecodeFrom h lens code bs).2.Counted (d + dropped (Accesses.huffDecodeEvents h lens code bs)) ∧
    (huffDecodeFrom h lens code bs).2.src = bs.src ∧ AllOk (Accesses.huffDecodeEvents h lens code bs) := by
  induction lens generalizing code bs d with
  | nil => exact ⟨hbs, rfl, allOk_nil⟩
  | cons len lens ih =>
    obtain ⟨hcount, hsrc, hok, hdrop⟩ := bsRead_counted hbs (n := 1) (by decide)
    have hlen : (Accesses.perLength len).Ok := perLength_ok (hlens len List.mem_cons_self)
    have hshift : (Event.shift 1).Ok := shift_ok (by decide)
    have hrest := fun code => ih (fun x hx => hlens x (List.mem_cons_of_mem len hx)) code hcount
    unfold huffDecodeFrom Accesses.huffDecodeEvents
    dsimp only
    have hbits : ∀ l, dropped (Accesses.bsReadEvents 1 bs ++ Event.shift 1 :: Accesses.perLength
      len :: l) = 1 + dropped l := by
      intro l
      rw [dropped_append, hdrop, dropped_cons, dropped_cons]
      change 1 + (0 + (0 + dropped l)) = _
      omega
    have hall : ∀ l, AllOk l → AllOk (Accesses.bsReadEvents 1 bs ++ Event.shift 1 :: Accesses.perLength len :: l) :=
      fun l hl => hok.append (AllOk.cons hshift (AllOk.cons hlen hl))
    rw [hbits, ← Nat.add_assoc]
    split_ifs with h0 hin hidx
    · obtain ⟨h1, h2, h3⟩ := hrest ((code <<< 1) ||| (bsRead 1 bs).1)
      exact ⟨h1, h2.trans hsrc, hall _ h3⟩
    · exact ⟨hcount, hsrc, hall _ (AllOk.cons hlen allOk_nil)⟩
    · refine ⟨hcount, hsrc, hall _ (AllOk.cons hlen (AllOk.cons ?_ allOk_nil))⟩
      exact (Nat.not_le.mp hidx).trans_le hsyms
    · obtain ⟨h1, h2, h3⟩ := hrest ((code <<< 1) ||| (bsRead 1 bs).1)
      exact ⟨h1, h2.trans hsrc, hall _ h3⟩

theorem sum_count_le (lengths : List ℕ) (m : ℕ) :
    ((List.range' 1 m).map fun k => lengths.count k).sum + lengths.countP (m < ·) ≤ lengths.length := by
  induction m with
  | zero =>
    rw [List.range'_zero, List.map_nil, List.sum_nil, Nat.zero_add]
    exact List.countP_le_length
  | succ m ih =>
    have hsplit : lengths.count (1 + m) + lengths.countP (m + 1 < ·) ≤ lengths.countP (m < ·) := by
      clear ih
      induction lengths with
      | nil => simp
      | cons l lengths ih =>
        rw [List.count_cons, List.countP_cons, List.countP_cons]
        simp only [decide_eq_true_eq, beq_iff_eq]
        split_ifs <;> omega
    rw [List.range'_concat, List.map_append, List.sum_append, List.map_singleton, List.sum_singleton, Nat.one_mul]
    omega

theorem getD_count {c : List ℕ} (h : ∀ l ∈ lengths, l < c.length) {k : ℕ} (hk : k < c.length) :
    (lengths.foldl (fun count l => count.set l (count.getD l 0 + 1)) c).length = c.length ∧
    (lengths.foldl (fun count l => count.set l (count.getD l 0 + 1)) c).getD k 0 = c.getD k 0 + lengths.count k := by
  induction lengths generalizing c with
  | nil => exact ⟨rfl, rfl⟩
  | cons l lengths ih =>
    have hset : (c.set l (c.getD l 0 + 1)).length = c.length := List.length_set
    obtain ⟨h1, h2⟩ := ih (c := c.set l (c.getD l 0 + 1))
      (fun x hx => by rw [hset]; exact h x (List.mem_cons_of_mem l hx)) (by rw [hset]; exact hk)
    rw [List.foldl_cons, h1, h2, hset]
    refine ⟨rfl, ?_⟩
    rw [List.count_cons]
    by_cases hlk : l = k
    · subst hlk
      simp [List.getD_eq_getElem?_getD, hk]
      omega
    · simp [List.getD_eq_getElem?_getD, List.getElem?_set_ne hlk, hlk]

theorem getD_sums (count base : List ℕ) {m : ℕ} (hm : m < base.length) :
    ((List.range' 1 m).foldl (fun (base, idx) i => (base.set i idx, idx + count.getD i 0))
    (base, 0)).1.length = base.length ∧
    ((List.range' 1 m).foldl (fun (base, idx) i => (base.set i idx, idx + count.getD i 0))
      (base, 0)).2 = ((List.range' 1 m).map fun k => count.getD k 0).sum ∧
    ∀ k, 1 ≤ k → k ≤ m →
      ((List.range' 1 m).foldl (fun (base, idx) i => (base.set i idx, idx + count.getD i 0))
        (base, 0)).1.getD k 0 = ((List.range' 1 (k - 1)).map fun k => count.getD k 0).sum := by
  induction m with
  | zero => exact ⟨rfl, rfl, fun k h1 h2 => by omega⟩
  | succ m ih =>
    obtain ⟨h1, h2, h3⟩ := ih (by omega)
    rw [List.range'_concat, List.foldl_append, List.foldl_cons, List.foldl_nil, Nat.one_mul]
    generalize (List.range' 1 m).foldl (fun (base, idx) i => (base.set i idx, idx + count.getD i 0)) (base, 0) = r at *
    obtain ⟨b, idx⟩ := r
    dsimp only at h1 h2 h3 ⊢
    refine ⟨by rw [List.length_set, h1], ?_, fun k hk hk' => ?_⟩
    · rw [List.map_append, List.sum_append, h2, List.map_singleton, List.sum_singleton]
    · by_cases hlast : k = 1 + m
      · subst hlast
        rw [h2]
        simp [List.getD_eq_getElem?_getD, show 1 + m < b.length by omega]
      · rw [← h3 k hk (by omega)]
        simp [List.getD_eq_getElem?_getD, List.getElem?_set_ne (Ne.symm hlast)]

theorem getD_counts (hall : ∀ l ∈ lengths, l ≤ HUFF_MAX_BITS) {k : ℕ} (h1 : 1 ≤ k) (h2 : k ≤ HUFF_MAX_BITS) :
    ((lengths.foldl (fun count l => count.set l (count.getD l 0 + 1)) Huffman.blank.count).set 0
      0).getD k 0 = lengths.count k := by
  have hblank : Huffman.blank.count.length = HUFF_MAX_BITS + 1 := rfl
  obtain ⟨-, hk⟩ := getD_count (c := Huffman.blank.count)
    (fun l hl => by rw [hblank]; exact Nat.lt_succ_of_le (hall l hl))
    (k := k) (by rw [hblank]; omega)
  have hzero : Huffman.blank.count.getD k 0 = 0 := by
    change (List.replicate (HUFF_MAX_BITS + 1) 0).getD k 0 = 0
    rw [List.getD_eq_getElem?_getD, List.getElem?_replicate_of_lt (by omega)]
    rfl
  rw [List.getD_eq_getElem?_getD, List.getElem?_set_ne (by omega), ← List.getD_eq_getElem?_getD, hk,
    hzero, Nat.zero_add]

/-- A table that has been built: it has a symbol for each length, and the places of a length begin
behind those of the smaller ones. -/
theorem huffBuild_some {h : Huffman} (hb : huffBuild lengths = some h) : (∀ l ∈ lengths, l ≤ HUFF_MAX_BITS) ∧
    h.nsyms = lengths.length ∧ h.baseSym.length = HUFF_MAX_BITS + 1 ∧
    ∀ l, 1 ≤ l → l ≤ HUFF_MAX_BITS → h.baseSym.getD l 0 + lengths.count l ≤ lengths.length := by
  unfold huffBuild at hb
  split at hb
  · cases hb
  · rename_i hlarge
    have hall : ∀ l ∈ lengths, l ≤ HUFF_MAX_BITS := fun l hl => by
      by_contra hgt
      exact hlarge (List.any_eq_true.mpr ⟨l, hl, decide_eq_true (by omega)⟩)
    obtain ⟨count, hcount⟩ : ∃ count, count = (lengths.foldl (fun count l => count.set l (count.getD l 0 + 1))
        Huffman.blank.count).set 0 0 := ⟨_, rfl⟩
    have hbase : Huffman.blank.baseSym.length = HUFF_MAX_BITS + 1 := rfl
    have hget : ∀ k, 1 ≤ k → k ≤ HUFF_MAX_BITS → count.getD k 0 = lengths.count k := fun k h1 h2 => by
      rw [hcount, getD_counts hall h1 h2]
    obtain ⟨hlen, -, hsums⟩ := getD_sums count Huffman.blank.baseSym (m := HUFF_MAX_BITS) (by rw [hbase]; omega)
    have hsym : h.baseSym = ((List.range' 1 HUFF_MAX_BITS).foldl
        (fun (base, idx) i => (base.set i idx, idx + count.getD i 0))
        (Huffman.blank.baseSym, 0)).1 := by
      rw [hcount]
      exact (congrArg Huffman.baseSym (Option.some.inj hb)).symm
    refine ⟨hall, (congrArg Huffman.nsyms (Option.some.inj hb)).symm, by rw [hsym, hlen, hbase], fun l h1 h2 => ?_⟩
    rw [hsym, hsums l h1 h2]
    have hle := sum_count_le lengths l
    obtain ⟨m, rfl⟩ : ∃ m, l = m + 1 := ⟨l - 1, by omega⟩
    rw [List.range'_concat, List.map_append, List.sum_append, List.map_singleton,
      List.sum_singleton, Nat.one_mul, Nat.add_comm 1 m] at hle
    have hmap : (List.range' 1 (m + 1 - 1)).map (fun k => count.getD k 0) = (List.range' 1 m).map
      fun k => lengths.count k := by
      rw [Nat.add_sub_cancel]
      refine List.map_congr_left fun k hk => ?_
      have := List.mem_range'_1.mp hk
      exact hget k this.1 (by omega)
    rw [hmap]
    omega

def Event.Quiet (e : Event) : Prop := e.Ok ∧ e.bits = 0

def AllQuiet (events : List Event) : Prop := ∀ e ∈ events, e.Quiet

namespace AllQuiet

theorem append (h₁ : AllQuiet l₁) (h₂ : AllQuiet l₂) : AllQuiet (l₁ ++ l₂) := List.forall_mem_append.mpr ⟨h₁, h₂⟩

theorem cons {e : Event} (he : e.Quiet) (h : AllQuiet l₁) : AllQuiet (e :: l₁) := List.forall_mem_cons.mpr ⟨he, h⟩

theorem map {l : List ℕ} {f : ℕ → Event} (h : ∀ i ∈ l, (f i).Quiet) : AllQuiet (l.map f) := List.forall_mem_map.mpr h

theorem allOk (h : AllQuiet l₁) : AllOk l₁ := fun e he => (h e he).1

theorem dropped (h : AllQuiet l₁) : dropped l₁ = 0 := dropped_of_none fun e he => (h e he).2

end AllQuiet

theorem allQuiet_nil : AllQuiet [] := fun e he => by cases he

theorem access_quiet {i size : ℕ} (h : i < size) : (Event.access i size).Quiet := ⟨h, rfl⟩

theorem shift_quiet (h : n < 32) : (Event.shift n).Quiet := ⟨h, rfl⟩

theorem perLength_quiet {i : ℕ} (h : i ≤ HUFF_MAX_BITS) : (Accesses.perLength i).Quiet := ⟨perLength_ok h, rfl⟩

theorem countEvents_quiet {size : ℕ} (i : ℕ) (h : i + lengths.length ≤ size) :
    AllQuiet (Accesses.countEvents size i lengths) := by
  induction lengths generalizing i with
  | nil => exact allQuiet_nil
  | cons l lengths ih =>
    rw [List.length_cons] at h
    rw [Accesses.countEvents]
    refine AllQuiet.cons (access_quiet (by omega)) ?_
    split
    · exact allQuiet_nil
    · exact AllQuiet.cons (perLength_quiet (by omega)) (ih (i + 1) (by omega))

/-- The symbol table is filled within its bounds: for each length the next place and the symbols
that remain stay within. -/
theorem fillEvents_quiet {size : ℕ} (i : ℕ) (h : i + lengths.length ≤ size) (hall : ∀ l ∈ lengths, l ≤ HUFF_MAX_BITS)
    {offsets : List ℕ} (hlen : offsets.length = HUFF_MAX_BITS + 1)
    (hroom : ∀ l, 1 ≤ l → l ≤ HUFF_MAX_BITS → offsets.getD l 0 + lengths.count l ≤ HUFF_MAX_SYMS) :
    AllQuiet (Accesses.fillEvents size i lengths offsets) := by
  induction lengths generalizing i offsets with
  | nil => exact allQuiet_nil
  | cons l lengths ih =>
    rw [List.length_cons] at h
    have hl := hall l List.mem_cons_self
    have hall' : ∀ x ∈ lengths, x ≤ HUFF_MAX_BITS := fun x hx => hall x (List.mem_cons_of_mem l hx)
    rw [Accesses.fillEvents]
    refine AllQuiet.cons (access_quiet (by omega)) ?_
    split
    · rename_i hpos
      have hplace := hroom l hpos hl
      rw [List.count_cons_self] at hplace
      refine AllQuiet.cons (perLength_quiet hl) (AllQuiet.cons (access_quiet (by omega)) ?_)
      refine ih (i + 1) (by omega) hall' (by rw [List.length_set, hlen]) fun k h1 h2 => ?_
      have hk := hroom k h1 h2
      rw [List.count_cons] at hk
      by_cases hlk : l = k
      · subst hlk
        rw [beq_self_eq_true, if_pos rfl] at hk
        rw [List.getD_eq_getElem?_getD, List.getElem?_set_self (by omega), Option.getD_some]
        omega
      · rw [List.getD_eq_getElem?_getD, List.getElem?_set_ne hlk, ← List.getD_eq_getElem?_getD]
        omega
    · refine ih (i + 1) (by omega) hall' hlen fun k h1 h2 => ?_
      have hk := hroom k h1 h2
      rw [List.count_cons] at hk
      omega

theorem huffBuildEvents_quiet {base size : ℕ} (h : base + lengths.length ≤ size)
    (hsyms : lengths.length ≤ HUFF_MAX_SYMS) :
    AllQuiet (Accesses.huffBuildEvents base size lengths):= by
  have hrange : ∀ i ∈ List.range' 1 HUFF_MAX_BITS, (Accesses.perLength i).Quiet := fun i hi => by
    have := List.mem_range'_1.mp hi
    exact perLength_quiet (by omega)
  unfold Accesses.huffBuildEvents
  refine ((AllQuiet.map fun i hi => ?_).append (countEvents_quiet base h)).append ?_
  · exact perLength_quiet (Nat.le_of_lt_succ (List.mem_range.mp hi))
  · cases hb : huffBuild lengths with
    | none => exact allQuiet_nil
    | some t =>
      obtain ⟨hall, -, hlen, hroom⟩ := huffBuild_some hb
      refine AllQuiet.append (AllQuiet.append
        (AllQuiet.append (AllQuiet.cons (perLength_quiet (Nat.zero_le _)) fun e he => ?_)
        (AllQuiet.map hrange)) (AllQuiet.map hrange)) ?_
      · obtain ⟨i, hi, he⟩ := List.mem_flatMap.mp he
        exact AllQuiet.cons (hrange i hi) (AllQuiet.cons (shift_quiet (by decide)) allQuiet_nil) e he
      · exact fillEvents_quiet base h hall hlen fun l h1 h2 => (hroom l h1 h2).trans hsyms

end ComputerOS.Inflate
