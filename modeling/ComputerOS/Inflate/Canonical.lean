import ComputerOS.Inflate.InRange
import ComputerOS.Inflate.Termination
import ComputerOS.Lib.CanonicalCode

/-!
The Huffman decoder and the canonical code. The table that `huff_build` makes holds for each length
the first code and the first place of its symbols; `huff_decode` compares the bits read so far with
the codes of each length in turn. As the codes of a length lie before all longer ones that are cut
to it, the comparison succeeds at the length of the code and not before.
-/
namespace ComputerOS.Inflate

open CanonicalCode

/-- The bits still to be read begin with the code, most significant bit first. -/
def Bitstream.StartsWith (bs : Bitstream) (code len : ℕ) : Prop :=
  ∀ i < len, bs.value / 2 ^ i % 2 = code / 2 ^ (len - 1 - i) % 2

/-- The bit stream after `n` bits have been read. -/
def afterBits : ℕ → Bitstream → Bitstream
  | 0, bs => bs
  | n + 1, bs => afterBits n (bsRead 1 bs).2

/-- What `huff_build` has written. -/
structure Table (lengths : List ℕ) (h : Huffman) : Prop where
  nsyms : h.nsyms = lengths.length
  count : ∀ l, 1 ≤ l → l ≤ HUFF_MAX_BITS → h.count.getD l 0 = lengths.count l
  baseCode : ∀ l, 1 ≤ l → l ≤ HUFF_MAX_BITS → h.baseCode.getD l 0 = nextCode lengths l
  baseSym : ∀ l, 1 ≤ l → l ≤ HUFF_MAX_BITS → h.baseSym.getD l 0 = firstPlace lengths l
  symbols : ∀ s < lengths.length, lengths.getD s 0 ≠ 0 → h.symbols.getD (place lengths s) 0 = s

variable {lengths : List ℕ} {h : Huffman} {bs : Bitstream} {s : ℕ}

theorem getD_set_self {l : List ℕ} {i a : ℕ} (h : i < l.length) : (l.set i a).getD i 0 = a := by
  rw [List.getD_eq_getElem?_getD, List.getElem?_set_self h, Option.getD_some]

theorem getD_set_ne {l : List ℕ} {i j a : ℕ} (h : i ≠ j) : (l.set i a).getD j 0 = l.getD j 0 := by
  rw [List.getD_eq_getElem?_getD, List.getElem?_set_ne h, ← List.getD_eq_getElem?_getD]

theorem getD_baseCodes (count base : List ℕ) {m : ℕ} (hm : m < base.length)
    (hcount : ∀ l, 1 ≤ l → l ≤ m → count.getD l 0 = lengths.count l) :
    ((List.range' 1 m).foldl (fun (base, code) i =>
      (base.set i code, (code + count.getD i 0) <<< 1)) (base, 0)).1.length = base.length ∧
    ((List.range' 1 m).foldl (fun (base, code) i =>
      (base.set i code, (code + count.getD i 0) <<< 1)) (base, 0)).2 = nextCode lengths (m + 1) ∧
    ∀ l, 1 ≤ l → l ≤ m →
      ((List.range' 1 m).foldl (fun (base, code) i =>
        (base.set i code, (code + count.getD i 0) <<< 1)) (base, 0)).1.getD l 0 = nextCode lengths
        l := by
  induction m with
  | zero => exact ⟨rfl, rfl, fun l h1 h2 => by omega⟩
  | succ m ih =>
    obtain ⟨h1, h2, h3⟩ := ih (by omega) fun l h h' => hcount l h (by omega)
    rw [List.range'_concat, List.foldl_append, List.foldl_cons, List.foldl_nil, Nat.one_mul]
    generalize (List.range' 1 m).foldl (fun (base, code) i =>
      (base.set i code, (code + count.getD i 0) <<< 1)) (base, 0) = r at *
    obtain ⟨b, code⟩ := r
    dsimp only at h1 h2 h3 ⊢
    refine ⟨by rw [List.length_set, h1], ?_, fun l hl hl' => ?_⟩
    · rw [nextCode, blCount_of_pos (Nat.succ_pos m), h2, Nat.add_comm 1 m,
        hcount (m + 1) (by omega) le_rfl, Nat.shiftLeft_eq, pow_one]
    · by_cases hlast : l = 1 + m
      · subst hlast
        rw [getD_set_self (by omega), h2, Nat.add_comm]
      · rw [getD_set_ne (Ne.symm hlast)]
        exact h3 l hl (by omega)

/-- The loop that fills the table of the symbols, after the first `k` of them. -/
theorem getD_symbols (hmax : ∀ l ∈ lengths, l ≤ HUFF_MAX_BITS) {symbols offsets : List ℕ}
    (hplace : ∀ s < lengths.length, lengths.getD s 0 ≠ 0 → place lengths s < symbols.length)
    (hlen : offsets.length = HUFF_MAX_BITS + 1)
    (hoffsets : ∀ l, 1 ≤ l → l ≤ HUFF_MAX_BITS → offsets.getD l 0 = firstPlace lengths l) {k : ℕ}
    (hk : k ≤ lengths.length)
    {r : List ℕ × List ℕ} (hr : r = (lengths.take k).zipIdx.foldl (fun (symbols, offsets) (l, i) =>
      if 0 < l then (symbols.set (offsets.getD l 0) i, offsets.set l (offsets.getD l 0 + 1)) else (symbols, offsets))
      (symbols, offsets)) :
    r.1.length = symbols.length ∧ r.2.length = HUFF_MAX_BITS + 1 ∧
    (∀ l, 1 ≤ l → l ≤ HUFF_MAX_BITS → r.2.getD l 0 = firstPlace lengths l + (lengths.take k).count l) ∧
    ∀ s < k, lengths.getD s 0 ≠ 0 → r.1.getD (place lengths s) 0 = s := by
  induction k generalizing r with
  | zero =>
    subst hr
    exact ⟨rfl, hlen, fun l h h' => by simpa using hoffsets l h h', fun s hs => absurd hs (Nat.not_lt_zero s)⟩
  | succ k ih =>
    obtain ⟨h1, h2, h3, h4⟩ := ih (by omega) rfl
    have hget : lengths.getD k 0 = lengths[k] := by
      rw [List.getD_eq_getElem?_getD, List.getElem?_eq_getElem (by omega), Option.getD_some]
    have htake : lengths.take (k + 1) = lengths.take k ++ [lengths.getD k 0] := by
      rw [hget, List.take_append_getElem]
    have hcount (l : ℕ) : (lengths.take (k + 1)).count l = (lengths.take k).count l +
      if lengths.getD k 0 = l then 1 else 0 := by
      rw [htake, List.count_append, List.count_singleton]
      simp only [beq_iff_eq]
    rw [htake, List.zipIdx_append, List.foldl_append, List.zipIdx_singleton, List.foldl_cons,
      List.foldl_nil, List.length_take, min_eq_left (by omega)] at hr
    generalize (lengths.take k).zipIdx.foldl (fun (symbols, offsets) (l, i) =>
      if 0 < l then (symbols.set (offsets.getD l 0) i, offsets.set l (offsets.getD l 0 + 1)) else (symbols, offsets))
      (symbols, offsets) = before at *
    obtain ⟨sym, off⟩ := before
    dsimp only at h1 h2 h3 h4 hr
    by_cases hused : 0 < lengths.getD k 0
    · have hbits : lengths.getD k 0 ≤ HUFF_MAX_BITS := by
        rw [hget]
        exact hmax _ (List.getElem_mem _)
      have hnext : off.getD (lengths.getD k 0) 0 = place lengths k := h3 _ hused hbits
      rw [Nat.zero_add, if_pos hused, hnext] at hr
      subst hr
      refine ⟨by rw [List.length_set, h1], by rw [List.length_set, h2], fun l hl hl' => ?_, fun s hs hs' => ?_⟩
      · by_cases hsame : lengths.getD k 0 = l
        · rw [hcount, if_pos hsame, ← hsame, getD_set_self (by omega)]
          rfl
        · rw [hcount, if_neg hsame, getD_set_ne hsame, h3 l hl hl', Nat.add_zero]
      · rcases Nat.lt_succ_iff_lt_or_eq.1 hs with hlt | rfl
        · have hne : place lengths k ≠ place lengths s := fun heq =>
            hlt.ne (place_inj (by omega) (by omega) hs' hused.ne' heq.symm)
          rw [getD_set_ne hne]
          exact h4 s hlt hs'
        · exact getD_set_self (by rw [h1]; exact hplace s (by omega) hs')
    · rw [if_neg hused] at hr
      subst hr
      refine ⟨h1, h2, fun l hl hl' => ?_, fun s hs hs' => ?_⟩
      · rw [hcount, if_neg (by omega), Nat.add_zero]
        exact h3 l hl hl'
      · rcases Nat.lt_succ_iff_lt_or_eq.1 hs with hlt | rfl
        · exact h4 s hlt hs'
        · omega

theorem place_lt (hs : s < lengths.length) (hused : lengths.getD s 0 ≠ 0) :
    place lengths s < lengths.length := by
  have hrank := rank_lt hs
  have hsum := sum_count_le lengths (lengths.getD s 0)
  have hplaces : ((List.range' 1 (lengths.getD s 0)).map fun k => lengths.count k).sum =
      firstPlace lengths (lengths.getD s 0) + lengths.count (lengths.getD s 0) := by
    rw [← firstPlace_succ (Nat.pos_of_ne_zero hused)]
    rfl
  unfold place
  omega

theorem huffBuild_table (hsyms : lengths.length ≤ HUFF_MAX_SYMS) (hmax : ∀ l ∈ lengths, l ≤ HUFF_MAX_BITS) :
    ∃ h, huffBuild lengths = some h ∧ Table lengths h := by
  have hany : ¬lengths.any (HUFF_MAX_BITS < ·) = true := fun hany => by
    obtain ⟨l, hl, hlt⟩ := List.any_eq_true.mp hany
    exact absurd (hmax l hl) (Nat.not_le.2 (of_decide_eq_true hlt))
  refine ⟨_, by rw [huffBuild, if_neg hany], ?_⟩
  have hcount : ∀ l, 1 ≤ l → l ≤ HUFF_MAX_BITS → ((lengths.foldl (fun count l => count.set l (count.getD l 0 + 1))
      Huffman.blank.count).set 0 0).getD l 0 = lengths.count l := fun l => getD_counts hmax
  generalize (lengths.foldl (fun count l => count.set l (count.getD l 0 + 1))
    Huffman.blank.count).set 0 0 = count at hcount ⊢
  obtain ⟨-, -, hcodes⟩ := getD_baseCodes count Huffman.blank.baseCode (m := HUFF_MAX_BITS) (by decide) hcount
  obtain ⟨hlen, -, hsums⟩ := getD_sums count Huffman.blank.baseSym (m := HUFF_MAX_BITS) (by decide)
  have hplaces : ∀ l, 1 ≤ l → l ≤ HUFF_MAX_BITS → ((List.range' 1 HUFF_MAX_BITS).foldl (fun (base, idx) i =>
      (base.set i idx, idx + count.getD i 0)) (Huffman.blank.baseSym, 0)).1.getD l 0 = firstPlace lengths l := by
    intro l hl hl'
    rw [hsums l hl hl', firstPlace]
    refine congrArg List.sum (List.map_congr_left fun k hk => ?_)
    have := List.mem_range'_1.mp hk
    exact hcount k this.1 (by omega)
  have hblank : Huffman.blank.symbols.length = HUFF_MAX_SYMS := List.length_replicate
  obtain ⟨-, -, -, hsymbols⟩ := getD_symbols hmax
    (fun s hs hused => hblank.symm ▸ (place_lt hs hused).trans_le hsyms) (hlen.trans (by decide)) hplaces le_rfl
    (congrArg (fun l : List ℕ => l.zipIdx.foldl _ _) (List.take_length (l := lengths)).symm)
  exact ⟨rfl, hcount, hcodes, hplaces, hsymbols⟩

theorem afterBits_spec (n : ℕ) (hbs : bs.Ready) : (afterBits n bs).value = bs.value / 2 ^ n ∧
    (afterBits n bs).Ready := by
  induction n generalizing bs with
  | zero => exact ⟨by simp [afterBits], hbs⟩
  | succ n ih =>
    obtain ⟨-, hvalue, hready⟩ := bsRead_spec hbs (n := 1) (by decide)
    obtain ⟨h1, h2⟩ := ih hready
    refine ⟨?_, h2⟩
    rw [afterBits, h1, hvalue, Nat.div_div_eq_div_mul, ← Nat.pow_add, Nat.add_comm]

/-- The next bit of a code: the code read so far is the code without the bits that are still to be
read. -/
theorem code_bit (c d : ℕ) : ((c / 2 ^ (d + 1)) <<< 1) ||| (c / 2 ^ d % 2) = c / 2 ^ d := by
  have hhalf : c / 2 ^ (d + 1) = c / 2 ^ d / 2 := by rw [Nat.div_div_eq_div_mul, ← Nat.pow_succ]
  have hbit : c / 2 ^ d % 2 < 2 ^ 1 := by
    rw [pow_one]
    exact Nat.mod_lt _ Nat.two_pos
  rw [← Nat.shiftLeft_add_eq_or_of_lt hbit, Nat.shiftLeft_eq, hhalf, pow_one]
  omega

/-- What is behind the first bit of the code. -/
theorem Bitstream.StartsWith.read {code d : ℕ} (hstarts : bs.StartsWith code (d + 1)) (hbs : bs.Ready) :
    (bsRead 1 bs).1 = code / 2 ^ d % 2 ∧ (bsRead 1 bs).2.StartsWith code d := by
  obtain ⟨hbit, hvalue, -⟩ := bsRead_spec hbs (n := 1) (by decide)
  refine ⟨?_, fun i hi => ?_⟩
  · have hfirst := hstarts 0 (Nat.succ_pos d)
    rw [pow_zero, Nat.div_one, Nat.add_sub_cancel, Nat.sub_zero] at hfirst
    rw [hbit, pow_one, hfirst]
  · have hnext := hstarts (i + 1) (by omega)
    have hindex : d + 1 - 1 - (i + 1) = d - 1 - i := by omega
    rw [hvalue, Nat.div_div_eq_div_mul, ← Nat.pow_add, Nat.add_comm 1 i, hnext, hindex]

/-- From the code read so far, with `d + 1` bits to come, to its symbol. The lengths before the last
one do not match, because the code, cut to such a length, lies behind all codes of it. -/
theorem huffDecodeFrom_code (ht : Table lengths h) (hs : s < lengths.length) (hused : lengths.getD s 0 ≠ 0)
    (hbits : lengths.getD s 0 ≤ HUFF_MAX_BITS) {d k : ℕ} (hk : k + d + 1 = lengths.getD s 0) (hbs : bs.Ready)
    (hstarts : bs.StartsWith ((codes lengths).getD s 0) (d + 1)) :
    huffDecodeFrom h (List.range' (k + 1) (HUFF_MAX_BITS - k))
      ((codes lengths).getD s 0 / 2 ^ (d + 1)) bs = (some s, afterBits (d + 1) bs) := by
  induction d generalizing k bs with
  | zero =>
    obtain ⟨hbit, -⟩ := hstarts.read hbs
    obtain ⟨m, hm⟩ : ∃ m, HUFF_MAX_BITS - k = m + 1 := ⟨HUFF_MAX_BITS - k - 1, by omega⟩
    have hlen : k + 1 = lengths.getD s 0 := hk
    have hrank := rank_lt hs
    rw [hm, List.range'_succ, huffDecodeFrom]
    dsimp only
    rw [hbit, code_bit, pow_zero, Nat.div_one, hlen, ht.count _ (by omega) hbits, ht.baseCode _ (by omega) hbits,
      ht.baseSym _ (by omega) hbits, getD_codes hs, if_neg (by omega), if_pos (by omega), Nat.add_sub_cancel_left,
      if_neg (by rw [ht.nsyms]; exact Nat.not_le.2 (place_lt hs hused))]
    exact congrArg (fun x => (some x, _)) (ht.symbols s hs hused)
  | succ d ih =>
    obtain ⟨hbit, hrest⟩ := hstarts.read hbs
    obtain ⟨-, -, hready⟩ := bsRead_spec hbs (n := 1) (by decide)
    obtain ⟨m, hm⟩ : ∃ m, HUFF_MAX_BITS - k = m + 1 := ⟨HUFF_MAX_BITS - k - 1, by omega⟩
    have hnext := ih (k := k + 1) (by omega) hready hrest
    have hm' : HUFF_MAX_BITS - (k + 1) = m := by omega
    have hcut := codes_le_prefix (l := k + 1) hs (by omega)
    have hexp : lengths.getD s 0 - (k + 1) = d + 1 := by omega
    rw [blCount_of_pos k.succ_pos, Nat.succ_eq_add_one, hexp] at hcut
    rw [hm'] at hnext
    rw [hm, List.range'_succ, huffDecodeFrom]
    dsimp only
    rw [hbit, code_bit, ht.count _ (by omega) (by omega), ht.baseCode _ (by omega) (by omega)]
    generalize (codes lengths).getD s 0 / 2 ^ (d + 1) = cut at hcut hnext ⊢
    split_ifs
    · exact hnext
    · omega
    · omega
    · exact hnext

theorem huffDecodeFrom_used (ht : Table lengths h) {lens : List ℕ} (hlens : ∀ l ∈ lens, 1 ≤ l ∧
    l ≤ HUFF_MAX_BITS) {code : ℕ}
    (hr : (huffDecodeFrom h lens code bs).1 = some s) : s < lengths.length ∧ lengths.getD s 0 ≠ 0 := by
  induction lens generalizing code bs with
  | nil => cases hr
  | cons l lens ih =>
    obtain ⟨hl, hl'⟩ := hlens l List.mem_cons_self
    have hlens' : ∀ x ∈ lens, 1 ≤ x ∧ x ≤ HUFF_MAX_BITS := fun x hx => hlens x (List.mem_cons_of_mem l hx)
    rw [huffDecodeFrom] at hr
    dsimp only at hr
    rw [ht.count l hl hl', ht.baseCode l hl hl', ht.baseSym l hl hl'] at hr
    split_ifs at hr with hnone hrange hidx
    · exact ih hlens' hr
    · obtain ⟨s', hs', hget, hrank⟩ := exists_rank lengths
        (j := (code <<< 1 ||| (bsRead 1 bs).1) - nextCode lengths l) (l := l) (by omega)
      have hused : lengths.getD s' 0 ≠ 0 := by omega
      have hplace : place lengths s' = firstPlace lengths l +
        ((code <<< 1 ||| (bsRead 1 bs).1) - nextCode lengths l) := by
        rw [place, hget, hrank]
      rw [← hplace, ht.symbols s' hs' hused] at hr
      cases hr
      exact ⟨hs', hused⟩
    · exact ih hlens' hr

/-- The decoder is the inverse of the canonical code: with a Kraft sum of at most one, the code of a
used symbol is read to its last bit and no further, and answers the symbol. With any lengths there
is no answer other than a used symbol. -/
theorem huffDecode_canonical (lengths : List ℕ) (hsyms : lengths.length ≤ HUFF_MAX_SYMS)
    (hmax : ∀ l ∈ lengths, l ≤ HUFF_MAX_BITS) : ∃ h, huffBuild lengths = some h ∧
    (kraft lengths ≤ 1 → ∀ s < lengths.length, lengths.getD s 0 ≠ 0 → ∀ bs : Bitstream, bs.Ready →
      bs.StartsWith ((codes lengths).getD s 0) (lengths.getD s 0) →
      huffDecode h bs = (some s, afterBits (lengths.getD s 0) bs) ∧
        (huffDecode h bs).2.value = bs.value / 2 ^ lengths.getD s 0) ∧
    ∀ bs : Bitstream, (huffDecode h bs).1 = none ∨
      ∃ s < lengths.length, lengths.getD s 0 ≠ 0 ∧ (huffDecode h bs).1 = some s := by
  obtain ⟨h, hbuild, ht⟩ := huffBuild_table hsyms hmax
  refine ⟨h, hbuild, fun hkraft s hs hused bs hbs hstarts => ?_, fun bs => ?_⟩
  · have hget : lengths.getD s 0 = lengths[s] := by
      rw [List.getD_eq_getElem?_getD, List.getElem?_eq_getElem hs, Option.getD_some]
    have hbits : lengths.getD s 0 ≤ HUFF_MAX_BITS := hget ▸ hmax _ (List.getElem_mem hs)
    obtain ⟨d, hd⟩ : ∃ d, lengths.getD s 0 = d + 1 := ⟨lengths.getD s 0 - 1, by omega⟩
    have hfits := (code_lt hs hused).trans_le (codes_fit hkraft (lengths.getD s 0))
    have hzero : (codes lengths).getD s 0 / 2 ^ (d + 1) = 0 := Nat.div_eq_of_lt (hd ▸ hfits)
    have hdecode := huffDecodeFrom_code ht hs hused hbits (d := d) (k := 0) (by omega) hbs (hd ▸ hstarts)
    rw [hzero, ← hd] at hdecode
    have hall : huffDecode h bs = (some s, afterBits (lengths.getD s 0) bs) := hdecode
    exact ⟨hall, by rw [hall]; exact (afterBits_spec _ hbs).1⟩
  · cases hr : (huffDecode h bs).1 with
    | none => exact Or.inl rfl
    | some s =>
      obtain ⟨hs, hused⟩ := huffDecodeFrom_used ht (fun l hl => by
        have := List.mem_range'_1.mp hl
        omega) hr
      exact Or.inr ⟨s, hs, hused, rfl⟩

/-- Four symbols with the codes 0, 10, 110 and 111: the bits 011 of the byte 3 are those of the
third one. -/
theorem huffDecode_canonical_four : ∃ h, huffBuild [1, 2, 3, 3] = some h ∧
    huffDecode h ⟨[3], 0, 0, 0⟩ = (some 2, afterBits 3 ⟨[3], 0, 0, 0⟩) := by
  obtain ⟨h, hbuild, hcode, -⟩ := huffDecode_canonical [1, 2, 3, 3] (by decide) (by decide)
  refine ⟨h, hbuild, (hcode ?_ 2 (by decide) (by decide) ⟨[3], 0, 0, 0⟩ (ready_start [3]) ?_).1⟩
  · norm_num [kraft]
  · unfold Bitstream.StartsWith
    decide +kernel

end ComputerOS.Inflate
