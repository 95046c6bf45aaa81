import ComputerOS.Inflate.Canonical
import ComputerOS.Inflate.Format

/-!
What `inflate_gzip` makes of a well-formed member. The bits that are still to be read are a list;
each function of the decoder takes the bits of its part of the format from the front of it and
leaves the rest, so that the functions compose as the format does.
-/
namespace ComputerOS.Inflate

open Looping CanonicalCode Crc

variable {n v : ℕ} {a l : List Bool} {bs : Bitstream} {lengths : List ℕ}

@[simp] theorem length_numBits (n v : ℕ) : (numBits n v).length = n := by
  rw [numBits, List.length_map, List.length_range]

@[simp] theorem length_codeBits (n v : ℕ) : (codeBits n v).length = n := by
  rw [codeBits, List.length_reverse, length_numBits]

theorem numBits_succ (n v : ℕ) : numBits (n + 1) v = v.testBit 0 :: numBits n (v / 2) := by
  rw [numBits, List.range_succ_eq_map, List.map_cons, List.map_map]
  refine congrArg (_ :: ·) (List.map_congr_left fun i _ => ?_)
  rw [Function.comp_apply, Nat.testBit_succ]

theorem numBits_add (m n v : ℕ) : numBits (m + n) v = numBits m v ++ numBits n (v / 2 ^ m) := by
  rw [numBits, List.range_add, List.map_append, List.map_map]
  refine congrArg (numBits m v ++ ·) (List.map_congr_left fun i _ => ?_)
  rw [Function.comp_apply, Nat.testBit_div_two_pow, Nat.add_comm]

theorem ofBits_numBits (n v : ℕ) : ofBits (numBits n v) = v % 2 ^ n := by
  induction n generalizing v with
  | zero => rw [pow_zero, Nat.mod_one]; rfl
  | succ n ih =>
    have hbit : (v.testBit 0).toNat = v % 2 := by
      rw [Nat.testBit_zero]
      rcases Nat.mod_two_eq_zero_or_one v with h | h <;> simp [h]
    rw [numBits_succ, ofBits, ih, hbit, pow_succ', Nat.mod_mul]

theorem ofBits_append (a l : List Bool) : ofBits (a ++ l) = ofBits a + 2 ^ a.length * ofBits l := by
  induction a with
  | nil => simp [ofBits]
  | cons b a ih =>
    rw [List.cons_append, ofBits, ofBits, ih, List.length_cons, pow_succ]
    ring

theorem ofBits_lt (a : List Bool) : ofBits a < 2 ^ a.length := by
  induction a with
  | nil => exact Nat.one_pos
  | cons b a ih =>
    have hb := Bool.toNat_le b
    rw [ofBits, List.length_cons, pow_succ]
    omega

theorem ofBits_mod (a l : List Bool) : ofBits (a ++ l) % 2 ^ a.length = ofBits a := by
  rw [ofBits_append, Nat.add_mul_mod_self_left, Nat.mod_eq_of_lt (ofBits_lt a)]

theorem ofBits_div (a l : List Bool) : ofBits (a ++ l) / 2 ^ a.length = ofBits l := by
  rw [ofBits_append, Nat.add_mul_div_left _ _ (Nat.two_pow_pos _), Nat.div_eq_of_lt (ofBits_lt a), Nat.zero_add]

theorem ofBits_bit (l : List Bool) (i : ℕ) : ofBits l / 2 ^ i % 2 = (l.getD i false).toNat := by
  induction l generalizing i with
  | nil => simp [ofBits]
  | cons b l ih =>
    cases i with
    | zero =>
      have hb := Bool.toNat_le b
      rw [pow_zero, Nat.div_one, ofBits, List.getD_cons_zero]
      omega
    | succ i =>
      have hb := Bool.toNat_le b
      have hhalf : (b.toNat + 2 * ofBits l) / 2 = ofBits l := by omega
      rw [ofBits, pow_succ', ← Nat.div_div_eq_div_mul, hhalf, List.getD_cons_succ, ih]

theorem byte_bits (x : UInt8) : (List.range 8).map x.toBitVec.getLsbD = numBits 8 x.toNat := rfl

theorem ofBits_bitsOf (data : List UInt8) : ofBits (bitsOf data) = Nat.ofDigits 256 (data.map UInt8.toNat) := by
  induction data with
  | nil => rfl
  | cons x data ih =>
    rw [bitsOf_cons, byte_bits, ofBits_append, ofBits_numBits, length_numBits, ih, List.map_cons,
      Nat.ofDigits_cons, Nat.mod_eq_of_lt x.toNat_lt]
    norm_num

theorem length_bitsOf (data : List UInt8) : (bitsOf data).length = 8 * data.length := by
  rw [bitsOf, List.length_map, List.length_range]

theorem getD_codeBits {i : ℕ} (hi : i < n) : (codeBits n v).getD i false = v.testBit (n - 1 - i) := by
  have hlen : i < (numBits n v).reverse.length := by rwa [List.length_reverse, length_numBits]
  rw [codeBits, List.getD_eq_getElem _ _ hlen, List.getElem_reverse]
  simp [numBits]

/-- The bits of the stream still to be read. -/
structure Bitstream.Holds (bs : Bitstream) (src : List UInt8) (l : List Bool) : Prop where
  src_eq : bs.src = src
  counted : ∃ d, bs.Counted d ∧ d + l.length = 8 * src.length
  value : bs.value = ofBits l

theorem holds_start (src : List UInt8) : (Bitstream.mk src 0 0 0).Holds src (bitsOf src) where
  src_eq := rfl
  counted := ⟨0, counted_start src, by rw [length_bitsOf, Nat.zero_add]⟩
  value := by rw [ofBits_bitsOf]; simp [Bitstream.value, Bitstream.ahead]

variable {src : List UInt8}

theorem Bitstream.Holds.ready (h : bs.Holds src l) : bs.Ready := by
  obtain ⟨d, hd, -⟩ := h.counted
  exact hd.ready

theorem Bitstream.Holds.read (h : bs.Holds src (a ++ l)) (hn : a.length ≤ 24) :
    (bsRead a.length bs).1 = ofBits a ∧ (bsRead a.length bs).2.Holds src l := by
  obtain ⟨d, hd, hlen⟩ := h.counted
  obtain ⟨hread, hvalue, -⟩ := bsRead_spec hd.ready hn
  obtain ⟨hcounted, hsrc, -⟩ := bsRead_counted hd hn
  refine ⟨by rw [hread, h.value, ofBits_mod], hsrc.trans h.src_eq, ⟨_, hcounted, ?_⟩, by rw [hvalue,
    h.value, ofBits_div]⟩
  rw [List.length_append] at hlen
  omega

theorem Bitstream.Holds.align (h : bs.Holds src (a ++ l)) (ha : a.length < 8) (hl : l.length % 8 = 0) :
    (bsAlign bs).Holds src l ∧ (bsAlign bs).nbits = 0 := by
  obtain ⟨d, hd, hlen⟩ := h.counted
  obtain ⟨hcounted, hsrc, hnbits, -⟩ := bsAlign_counted hd
  obtain ⟨zeros, htake, -⟩ := hd.taken
  have hsmall := hd.ready.small
  rw [List.length_append] at hlen
  have heq : bs.nbits = a.length := by omega
  refine ⟨⟨hsrc.trans h.src_eq, ⟨_, hcounted, by omega⟩, ?_⟩, hnbits⟩
  rw [(bsAlign_spec hd.ready).1, h.value, heq, ofBits_div]

/-- Behind the whole bytes that have been read. -/
theorem Bitstream.Holds.srcPos (h : bs.Holds src l) (hnbits : bs.nbits = 0) :
    8 * bs.srcPos + l.length = 8 * src.length := by
  obtain ⟨d, hd, hlen⟩ := h.counted
  obtain ⟨zeros, htake, hzeros⟩ := hd.taken
  have hin := hd.within
  rw [h.src_eq] at hzeros hin
  omega

theorem Bitstream.Holds.afterBits (h : bs.Holds src (a ++ l)) : (afterBits a.length bs).Holds src l := by
  induction a generalizing bs with
  | nil => exact h
  | cons b a ih => exact ih (Bitstream.Holds.read (a := [b]) (l := a ++ l) h (Nat.one_le_ofNat)).2

variable {α β ρ : Type} {cap : ℕ} {out out₁ out' : List UInt8} {l₁ l' : List Bool}

/-- The bits still to be read, and the output so far. -/
structure At (src : List UInt8) (cap : ℕ) (l : List Bool) (out : List UInt8) (s : St) : Prop where
  bits : s.bs.Holds src l
  data : s.out = ⟨out, cap⟩

/-- With the bits `l` to come and the output `out`, the function returns `x`, and leaves `l'` and
`out'`. -/
def Reads (src : List UInt8) (cap : ℕ) (f : ℕ → Looping St α) (l : List Bool) (out : List UInt8)
    (x : α) (l' : List Bool)
    (out' : List UInt8) : Prop := ∀ s, At src cap l out s → ∃ s', Returns f s x s' ∧ At src cap l' out' s'

theorem Reads.bind {f : ℕ → Looping St α} {g : ℕ → α → Looping St β} {x : α} {y : β}
    (hf : Reads src cap f l out x l₁ out₁)
    (hg : Reads src cap (fun n => g n x) l₁ out₁ y l' out') : Reads src cap (fun n => f n >>= g n) l out y l' out' := by
  intro s hs
  obtain ⟨s₁, hreturn, hs₁⟩ := hf s hs
  obtain ⟨s', hreturn', hs'⟩ := hg s₁ hs₁
  exact ⟨s', hreturn.bind hreturn', hs'⟩

theorem Reads.pure (x : α) : Reads src cap (fun _ => Pure.pure x) l out x l out := fun s hs => ⟨s, Returns.pure x s, hs⟩

theorem Reads.check {c : Bool} (hc : c = true) : Reads src cap (fun _ => check c) l out () l out := by
  subst hc
  exact Reads.pure ()

theorem readBits_reads (ha : a.length ≤ 24) (hn : n = a.length) :
    Reads src cap (fun _ => readBits n) (a ++ l) out (ofBits a) l out := by
  subst hn
  intro s hs
  obtain ⟨hread, hholds⟩ := hs.bits.read ha
  exact ⟨_, Returns.of_run (congrArg (fun x => some (some x, _)) hread), hholds, hs.data⟩

/-- The same for a loop, from what its next turn is about. -/
def LoopReads (src : List UInt8) (cap : ℕ) (f : ℕ → β → Looping St (β ⊕ ρ)) (b : β) (l : List Bool)
    (out : List UInt8) (x : ρ)
    (l' : List Bool) (out' : List UInt8) : Prop :=
    ∀ s, At src cap l out s → ∃ s', LoopReturns f b s x s' ∧ At src cap l' out' s'

theorem LoopReads.stop {f : ℕ → β → Looping St (β ⊕ ρ)} {b : β} {x : ρ}
    (h : Reads src cap (fun n => f n b) l out (.inr x) l' out') : LoopReads src cap f b l out x l' out' := by
  intro s hs
  obtain ⟨s', hreturn, hs'⟩ := h s hs
  exact ⟨s', .stop hreturn, hs'⟩

theorem LoopReads.turn {f : ℕ → β → Looping St (β ⊕ ρ)} {b b' : β} {x : ρ}
    (h : Reads src cap (fun n => f n b) l out (.inl b') l₁ out₁)
    (hrest : LoopReads src cap f b' l₁ out₁ x l' out') : LoopReads src cap f b l out x l' out' := by
  intro s hs
  obtain ⟨s₁, hreturn, hs₁⟩ := h s hs
  obtain ⟨s', hreturn', hs'⟩ := hrest s₁ hs₁
  exact ⟨s', .turn hreturn hreturn', hs'⟩

theorem LoopReads.reads {f : ℕ → β → Looping St (β ⊕ ρ)} {b : β} {x : ρ} (h : LoopReads src cap f b l out x l' out') :
    Reads src cap (fun n => loop (f n) n b) l out x l' out' := by
  intro s hs
  obtain ⟨s', hreturn, hs'⟩ := h s hs
  exact ⟨s', hreturn.returns, hs'⟩

/-- A number of `n` bits. -/
theorem readNum {m : ℕ} (hm : m = n) (hn : n ≤ 24) (hv : v < 2 ^ n) :
    Reads src cap (fun _ => readBits m) (numBits n v ++ l) out v l out := by
  subst hm
  have h : Reads src cap (fun _ => readBits m) (numBits m v ++ l) out (ofBits (numBits m v)) l out :=
    readBits_reads (by rwa [length_numBits]) (length_numBits m v).symm
  rwa [ofBits_numBits, Nat.mod_eq_of_lt hv] at h

theorem align_reads (ha : a.length < 8) (hl : l.length % 8 = 0) : Reads src cap (fun _ => align)
    (a ++ l) out () l out :=
  fun _ hs => ⟨_, Returns.of_run rfl, (hs.bits.align ha hl).1, hs.data⟩

theorem outByte_reads (b : UInt8) (hcap : out.length < cap) : Reads src cap (fun _ => outByte b) l
    out () l (out ++ [b]) := by
  intro s hs
  have hdata : s.out.data = out := by rw [hs.data]
  have hroom : s.out.cap = cap := by rw [hs.data]
  refine ⟨{ s with out := { s.out with data := s.out.data ++ [b] } }, Returns.of_run ?_, hs.bits, ?_⟩
  · change some (if s.out.cap ≤ s.out.data.length then _ else _) = _
    rw [hdata, hroom, if_neg (Nat.not_le.2 hcap)]
  · rw [hdata, hs.data]

theorem decode_reads {h : Huffman} (hcode : IsCode lengths) (hbuild : huffBuild lengths = some h) {x : ℕ}
    (hused : lengths.getD x 0 ≠ 0) : Reads src cap (fun _ => decode h) (symBits lengths x ++ l) out x l out := by
  obtain ⟨h', hbuild', ht⟩ := huffBuild_table hcode.syms hcode.bits
  obtain rfl := Option.some.inj (hbuild'.symm.trans hbuild)
  have hx : x < lengths.length := by
    by_contra hge
    exact hused (List.getD_eq_default _ _ (Nat.not_lt.1 hge))
  have hbits : lengths.getD x 0 ≤ HUFF_MAX_BITS := by
    rw [List.getD_eq_getElem?_getD, List.getElem?_eq_getElem hx]
    exact hcode.bits _ (List.getElem_mem hx)
  obtain ⟨d, hd⟩ : ∃ d, lengths.getD x 0 = d + 1 := ⟨lengths.getD x 0 - 1, by omega⟩
  have hfits := (code_lt hx hused).trans_le (codes_fit hcode.kraft (lengths.getD x 0))
  have hzero : (codes lengths).getD x 0 / 2 ^ (d + 1) = 0 := Nat.div_eq_of_lt (hd ▸ hfits)
  intro s hs
  have hlen : (symBits lengths x).length = d + 1 := by rw [symBits, length_codeBits, hd]
  have hstarts : s.bs.StartsWith ((codes lengths).getD x 0) (d + 1) := by
    intro i hi
    have hbit := ofBits_bit (symBits lengths x ++ l) i
    rw [← hs.bits.value, List.getD_append _ _ _ _ (by omega), symBits, hd, getD_codeBits hi, Nat.toNat_testBit] at hbit
    exact hbit
  have hdecode := huffDecodeFrom_code ht hx hused hbits (d := d) (k := 0) (by omega) hs.bits.ready hstarts
  rw [hzero] at hdecode
  refine ⟨{ s with bs := afterBits (d + 1) s.bs }, Returns.of_run ?_, hlen ▸ hs.bits.afterBits, hs.data⟩
  exact congrArg (fun r : Option ℕ × Bitstream => some (r.1, { s with bs := r.2 })) hdecode

theorem lenTables {i : ℕ} (h : i < 29) : lenExtra.getD i 0 = (lengthCode i).1 ∧
    lenBase.getD i 0 = (lengthCode i).2 := by
  have hall : ∀ j < 29, lenExtra.getD j 0 = (lengthCode j).1 ∧ lenBase.getD j 0 = (lengthCode j).2 := by decide
  exact hall i h

theorem distTables {i : ℕ} (h : i < 30) : distExtra.getD i 0 = (distanceCode i).1 ∧
    distBase.getD i 0 = (distanceCode i).2 := by
  have hall : ∀ j < 30, distExtra.getD j 0 = (distanceCode j).1 ∧ distBase.getD j 0 = (distanceCode j).2 := by decide
  exact hall i h

theorem length_copied (out : List UInt8) (dist len : ℕ) : (copied out dist len).length = len := by
  rw [copied, List.length_map, List.length_range]

/-- The bytes that the loop of `out_copy` reads are those of the copy: `k` of them have been
written. -/
theorem copied_byte {dist k len : ℕ} (hpos : 0 < dist) (hdist : dist ≤ out.length) (hk : k < len) :
    (out ++ (copied out dist len).take k).getD ((out ++ (copied out dist len).take k).length - dist)
      0 = (copied out dist len).getD k 0 := by
  have hlen : (out ++ (copied out dist len).take k).length = out.length + k := by
    rw [List.length_append, List.length_take, length_copied, min_eq_left hk.le]
  have hcopied (j : ℕ) (hj : j < len) : (copied out dist len).getD j 0 = out.getD (out.length - dist + j % dist) 0 := by
    rw [copied, List.getD_eq_getElem _ _ (by rwa [List.length_map, List.length_range]),
      List.getElem_map, List.getElem_range]
  rw [hlen, hcopied k hk]
  by_cases hlow : k < dist
  · rw [List.getD_append _ _ _ _ (by omega), Nat.mod_eq_of_lt hlow]
    congr 1
    omega
  · have hidx : out.length + k - dist - out.length = k - dist := by omega
    rw [List.getD_append_right _ _ _ _ (by omega), hidx, List.getD_eq_getElem?_getD,
      List.getElem?_take_of_lt (by omega), ← List.getD_eq_getElem?_getD, hcopied _ (by omega),
      Nat.mod_eq_sub_mod (Nat.not_lt.1 hlow)]

theorem outCopyBytes_reads {dist len k rest : ℕ} (hpos : 0 < dist) (hdist : dist ≤ out.length) (hk : k + rest = len)
    (hcap : out.length + len ≤ cap) :
    Reads src cap (fun _ => outCopyBytes dist rest) l (out ++ (copied out dist len).take k) () l
    (out ++ copied out dist len) := by
  induction rest generalizing k with
  | zero =>
    rw [List.take_of_length_le (by rw [length_copied]; omega)]
    exact Reads.pure ()
  | succ rest ih =>
    have hlt : k < (copied out dist len).length := by rw [length_copied]; omega
    have htake : out ++ (copied out dist len).take k ++ [(copied out dist len).getD k 0] = out ++
      (copied out dist len).take (k + 1) := by
      rw [List.append_assoc, List.getD_eq_getElem _ _ hlt, List.take_append_getElem]
    intro s hs
    have hdata : s.out.data = out ++ (copied out dist len).take k := by rw [hs.data]
    have hbyte : s.out.data.getD (s.out.data.length - dist) 0 = (copied out dist len).getD k 0 := by
      rw [hdata, copied_byte hpos hdist (by omega)]
    have hroom : (out ++ (copied out dist len).take k).length < cap := by
      rw [List.length_append, List.length_take, length_copied]
      omega
    have hnext : Reads src cap (fun _ => outByte ((copied out dist len).getD k 0) >>= fun _ => outCopyBytes dist rest) l
        (out ++ (copied out dist len).take k) () l (out ++ copied out dist len) :=
      (outByte_reads _ hroom).bind (htake ▸ ih (k := k + 1) (by omega))
    obtain ⟨s', hreturn, hs'⟩ := hnext s hs
    refine ⟨s', (Returns.of_run rfl : Returns (fun _ => get) s s s).bind ?_, hs'⟩
    rw [hbyte]
    exact hreturn

theorem outCopy_reads {dist len : ℕ} (hpos : 0 < dist) (hdist : dist ≤ out.length) (hcap : out.length + len ≤ cap) :
    Reads src cap (fun _ => outCopy dist len) l out () l (out ++ copied out dist len) := by
  intro s hs
  have hdata : s.out.data = out := by rw [hs.data]
  have hcopy : Reads src cap (fun _ => outCopyBytes dist len) l
    (out ++ (copied out dist len).take 0) () l (out ++ copied out dist len) :=
    outCopyBytes_reads hpos hdist (Nat.zero_add len) hcap
  rw [List.take_zero, List.append_nil] at hcopy
  have hwhole : Reads src cap (fun _ => check (decide (dist ≤ s.out.data.length)) >>= fun _ =>
    outCopyBytes dist len) l out () l
      (out ++ copied out dist len) := (Reads.check (decide_eq_true (by rwa [hdata]))).bind hcopy
  obtain ⟨s', hreturn, hs'⟩ := hwhole s hs
  exact ⟨s', (Returns.of_run rfl : Returns (fun _ => get) s s s).bind hreturn, hs'⟩

section Tokens

variable {lit dist : List ℕ} {litH distH : Huffman} {t : Token} {ts : List Token}

theorem distance_pos (d extraDist : ℕ) : 0 < copyDistance d extraDist := by
  unfold copyDistance distanceCode
  split
  · exact Nat.lt_of_lt_of_le (Nat.succ_pos d) (Nat.le_add_right _ _)
  · exact Nat.lt_of_lt_of_le (Nat.succ_pos _) (Nat.le_add_right _ _)

/-- One turn decodes one token. -/
theorem symbolTurn_reads (hlit : IsCode lit) (hdist : IsCode dist) (hlitH : huffBuild lit = some litH)
    (hdistH : huffBuild dist = some distH) (ht : t.Valid lit dist out) (hcap : (t.expand out).length ≤ cap) :
    Reads src cap (fun _ => symbolTurn litH distH) (t.bits lit dist ++ l) out (.inl ()) l (t.expand out) := by
  cases t with
  | literal b =>
    refine (decode_reads hlit hlitH ht).bind ?_
    rw [if_pos b.toNat_lt]
    have hroom : out.length < cap := by
      have : (out ++ [b]).length ≤ cap := hcap
      rw [List.length_append, List.length_singleton] at this
      omega
    have hbyte : UInt8.ofNat b.toNat = b := UInt8.ofNat_toNat
    rw [hbyte]
    exact (outByte_reads b hroom).bind (Reads.pure _)
  | copy c extra d extraDist =>
    obtain ⟨hc, hused, hextra, hd, husedDist, hextraDist, hback⟩ := ht
    have hroom : out.length + copyLength c extra ≤ cap := by
      have : (out ++ copied out (copyDistance d extraDist) (copyLength c extra)).length ≤ cap := hcap
      rwa [List.length_append, length_copied] at this
    obtain ⟨hlenExtra, hlenBase⟩ := lenTables hc
    obtain ⟨hdistExtra, hdistBase⟩ := distTables hd
    have hbits : (Token.copy c extra d extraDist).bits lit dist ++ l = symBits lit (257 + c) ++
        (numBits (lengthCode c).1 extra ++
        (symBits dist d ++ (numBits (distanceCode d).1 extraDist ++ l))) := by
      simp only [Token.bits, List.append_assoc]
    rw [hbits]
    refine (decode_reads hlit hlitH hused).bind ?_
    rw [if_neg (by omega), if_neg (by omega), Nat.add_sub_cancel_left]
    refine Reads.bind (x := ()) ?_ (Reads.pure _)
    refine (Reads.check (decide_eq_true hc)).bind ?_
    refine (readNum hlenExtra (by rw [← hlenExtra]; exact lenExtra_le c) hextra).bind ?_
    refine (decode_reads hdist hdistH husedDist).bind ?_
    refine (Reads.check (decide_eq_true hd)).bind ?_
    refine (readNum hdistExtra (by rw [← hdistExtra]; exact distExtra_le d) hextraDist).bind ?_
    rw [hdistBase, hlenBase]
    exact outCopy_reads (distance_pos d extraDist) hback hroom

theorem length_le_expand (out : List UInt8) (t : Token) : out.length ≤ (t.expand out).length := by
  cases t <;> simp [Token.expand]

theorem length_le_foldl (ts : List Token) (out : List UInt8) : out.length ≤ (ts.foldl Token.expand out).length := by
  induction ts generalizing out with
  | nil => exact le_rfl
  | cons t ts ih => exact (length_le_expand out t).trans (ih _)

/-- The tokens of a block, and its end. -/
theorem inflateBlock_reads (hlit : IsCode lit) (hdist : IsCode dist) (hlitH : huffBuild lit = some litH)
    (hdistH : huffBuild dist = some distH) (hend : lit.getD 256 0 ≠ 0) (hts : TokensValid lit dist out ts)
    (hcap : (ts.foldl Token.expand out).length ≤ cap) :
    Reads src cap (fun n => inflateBlock n litH distH) (tokensBits lit dist ts ++ l) out () l
    (ts.foldl Token.expand out) := by
  refine LoopReads.reads (f := fun _ _ => symbolTurn litH distH) ?_
  induction ts generalizing out with
  | nil =>
    refine LoopReads.stop ((decode_reads hlit hlitH hend).bind ?_)
    rw [if_neg (by omega), if_pos rfl]
    exact Reads.pure _
  | cons t ts ih =>
    have hbits : tokensBits lit dist (t :: ts) ++ l = t.bits lit dist ++ (tokensBits lit dist ts ++ l) := by
      simp only [tokensBits, List.flatMap_cons, List.append_assoc]
    rw [hbits]
    exact LoopReads.turn (symbolTurn_reads hlit hdist hlitH hdistH hts.1
      ((length_le_foldl ts _).trans hcap)) (ih hts.2 hcap)

end Tokens

theorem getD_setLengths (cl : List ℕ) (places lens : List ℕ) (hplaces : ∀ p ∈ places, p < lens.length) (p : ℕ) :
    (places.foldl (fun lens p => lens.set p (cl.getD p 0)) lens).getD p 0 = if p ∈
    places then cl.getD p 0 else lens.getD p 0 := by
  induction places generalizing lens with
  | nil => rfl
  | cons q places ih =>
    rw [List.foldl_cons, ih _ fun p hp => by rw [List.length_set]; exact hplaces p (List.mem_cons_of_mem q hp)]
    by_cases hp : p ∈ places
    · rw [if_pos hp, if_pos (List.mem_cons_of_mem q hp)]
    · rw [if_neg hp]
      by_cases hq : p = q
      · rw [if_pos (hq ▸ List.mem_cons_self), hq, getD_set_self (hplaces q List.mem_cons_self)]
      · rw [if_neg (List.not_mem_cons_of_ne_of_not_mem hq hp), getD_set_ne (Ne.symm hq)]

theorem length_setLengths (cl : List ℕ) (places lens : List ℕ) :
    (places.foldl (fun lens p => lens.set p (cl.getD p 0)) lens).length = lens.length := by
  induction places generalizing lens with
  | nil => rfl
  | cons q places ih => rw [List.foldl_cons, ih, List.length_set]

theorem setLengths_eq (c : Codes) :
    (clOrder.take c.sent).foldl (fun lens p => lens.set p (c.cl.getD p 0)) (List.replicate 19 0) = c.cl := by
  have hall : ∀ p ∈ clOrder, p < 19 := by decide
  have hlen := length_setLengths c.cl (clOrder.take c.sent) (List.replicate 19 0)
  rw [List.length_replicate] at hlen
  refine List.ext_getElem (hlen.trans c.cl_size.1.symm) fun p hp hp' => ?_
  rw [← List.getD_eq_getElem _ 0 hp, ← List.getD_eq_getElem _ 0 hp',
    getD_setLengths _ _ _ fun p hp => by rw [List.length_replicate]; exact hall p (List.mem_of_mem_take hp)]
  split_ifs with hmem
  · rfl
  · have hcover : ∀ p < 19, p ∈ clOrder := by decide
    have hrest : p ∈ clOrder.drop c.sent := by
      have hp19 := hcover p (by omega)
      rw [← List.take_append_drop c.sent clOrder] at hp19
      exact (List.mem_append.1 hp19).resolve_left hmem
    rw [c.unsent p hrest, List.getD_eq_getElem _ _ (by rw [List.length_replicate]; omega), List.getElem_replicate]

theorem readClLengths_reads {cl : List ℕ} (hcl : ∀ l ∈ cl, l ≤ 7) (places lens : List ℕ) :
    Reads src cap (fun _ => readClLengths places lens) (places.flatMap (fun p => numBits 3 (cl.getD p 0)) ++ l) out
      (places.foldl (fun lens p => lens.set p (cl.getD p 0)) lens) l out := by
  induction places generalizing lens with
  | nil => exact Reads.pure _
  | cons p places ih =>
    have hlt : cl.getD p 0 < 2 ^ 3 := by
      by_cases hp : p < cl.length
      · rw [List.getD_eq_getElem _ _ hp]
        exact Nat.lt_succ_of_le (hcl _ (List.getElem_mem hp))
      · rw [List.getD_eq_default _ _ (Nat.not_lt.1 hp)]
        decide
    rw [List.flatMap_cons, List.append_assoc]
    exact (readNum rfl (by decide) hlt).bind (ih _)

theorem repeatLength_eq {total x rep : ℕ} {lens : List ℕ} (h : lens.length + rep ≤ total) :
    repeatLength total x rep lens = lens ++ List.replicate rep x := by
  induction rep generalizing lens with
  | zero => rw [repeatLength, List.replicate_zero, List.append_nil]
  | succ rep ih =>
    rw [repeatLength, if_pos (by omega),
      ih (by rw [List.length_append, List.length_singleton]; omega), List.append_assoc,
      List.replicate_succ]
    rfl

theorem LengthRun.length_expand_le (lens : List ℕ) (r : LengthRun) : lens.length ≤ (r.expand lens).length := by
  cases r <;> simp [LengthRun.expand]

theorem length_le_runs (runs : List LengthRun) (lens : List ℕ) :
    lens.length ≤ (runs.foldl LengthRun.expand lens).length := by
  induction runs generalizing lens with
  | nil => exact le_rfl
  | cons r runs ih => exact (r.length_expand_le lens).trans (ih _)

variable {cl : List ℕ} {clTree : Huffman}

theorem codeLengthTurn_reads (hcl : IsCode cl) (hbuild : huffBuild cl = some clTree) {total : ℕ}
    {lens : List ℕ} {r : LengthRun}
    (hr : r.Valid cl lens) (htotal : (r.expand lens).length ≤ total) :
    Reads src cap (fun _ => codeLengthTurn clTree total lens) (r.bits cl ++ l) out (.inl (r.expand lens)) l out := by
  unfold codeLengthTurn
  cases r with
  | one x =>
    rw [LengthRun.expand, List.length_append, List.length_singleton] at htotal
    rw [if_neg (by omega)]
    refine (decode_reads hcl hbuild hr.2).bind ?_
    rw [if_pos hr.1]
    exact Reads.pure _
  | again k =>
    obtain ⟨hne, hlow, hhigh, hused⟩ := hr
    rw [LengthRun.expand, List.length_append, List.length_replicate] at htotal
    rw [if_neg (by omega), LengthRun.bits, List.append_assoc]
    refine (decode_reads hcl hbuild hused).bind ?_
    rw [if_neg (by decide), if_pos rfl]
    have hlen : lens.length ≠ 0 := fun h => hne (List.length_eq_zero_iff.1 h)
    refine (Reads.check (decide_eq_true hlen)).bind ?_
    refine (readNum rfl (by decide) (by omega)).bind ?_
    rw [repeatLength_eq (by omega), Nat.sub_add_cancel hlow]
    exact Reads.pure _
  | zeros k =>
    obtain ⟨hlow, hhigh, hused⟩ := hr
    rw [LengthRun.expand, List.length_append, List.length_replicate] at htotal
    rw [if_neg (by omega), LengthRun.bits, List.append_assoc]
    refine (decode_reads hcl hbuild hused).bind ?_
    rw [if_neg (by decide), if_neg (by decide), if_pos rfl]
    refine (readNum rfl (by decide) (by omega)).bind ?_
    rw [repeatLength_eq (by omega), Nat.sub_add_cancel hlow]
    exact Reads.pure _
  | manyZeros k =>
    obtain ⟨hlow, hhigh, hused⟩ := hr
    rw [LengthRun.expand, List.length_append, List.length_replicate] at htotal
    rw [if_neg (by omega), LengthRun.bits, List.append_assoc]
    refine (decode_reads hcl hbuild hused).bind ?_
    rw [if_neg (by decide), if_neg (by decide), if_neg (by decide), if_pos rfl]
    refine (readNum rfl (by decide) (by omega)).bind ?_
    rw [repeatLength_eq (by omega), Nat.sub_add_cancel hlow]
    exact Reads.pure _

theorem codeLengths_read (hcl : IsCode cl) (hbuild : huffBuild cl = some clTree) {lens : List ℕ} {runs : List LengthRun}
    (hruns : RunsValid cl lens runs) {total : ℕ} (htotal : (runs.foldl LengthRun.expand lens).length = total) :
    LoopReads src cap (fun _ => codeLengthTurn clTree total) lens (runs.flatMap (LengthRun.bits cl) ++ l) out
      (runs.foldl LengthRun.expand lens) l out := by
  induction runs generalizing lens with
  | nil =>
    have hdone : total ≤ lens.length := htotal.ge
    refine LoopReads.stop ?_
    rw [codeLengthTurn, if_pos hdone]
    exact Reads.pure _
  | cons r runs ih =>
    rw [List.flatMap_cons, List.append_assoc]
    exact LoopReads.turn (codeLengthTurn_reads hcl hbuild hruns.1
      ((length_le_runs runs _).trans htotal.le)) (ih hruns.2 htotal)

theorem build_reads {h : Huffman} (hbuild : huffBuild lengths = some h) :
    Reads src cap (fun _ => build lengths) l out h l out := fun s hs =>
  ⟨s, Returns.of_run (congrArg (fun r => some (r, s)) hbuild), hs⟩

theorem exists_table (h : IsCode lengths) : ∃ table, huffBuild lengths = some table := by
  obtain ⟨table, hbuild, -⟩ := huffBuild_table h.syms h.bits
  exact ⟨table, hbuild⟩

theorem inflateDynamic_reads (c : Codes) {ts : List Token} (hts : TokensValid c.lit c.dist out ts)
    (hcap : (ts.foldl Token.expand out).length ≤ cap) :
    Reads src cap inflateDynamic (c.bits ++ tokensBits c.lit c.dist ts ++ l) out () l (ts.foldl Token.expand out) := by
  obtain ⟨clTree, hclTree⟩ := exists_table c.cl_code
  obtain ⟨litTree, hlitTree⟩ := exists_table c.lit_code
  obtain ⟨distTree, hdistTree⟩ := exists_table c.dist_code
  have hlit := c.lit_size
  have hdist := c.dist_size
  have hsent := c.sent_size
  have hbits : c.bits ++ tokensBits c.lit c.dist ts ++ l = numBits 5 (c.lit.length - 257) ++
      (numBits 5 (c.dist.length - 1) ++ (numBits 4 (c.sent - 4) ++
      ((clOrder.take c.sent).flatMap (fun p => numBits 3 (c.cl.getD p 0)) ++
      (c.runs.flatMap (LengthRun.bits c.cl) ++ (tokensBits c.lit c.dist ts ++ l))))) := by
    simp only [Codes.bits, List.append_assoc]
  have hlens : c.runs.foldl LengthRun.expand [] = c.lit ++ c.dist := c.runs_expand
  rw [hbits]
  unfold inflateDynamic
  refine (readNum rfl (by decide) (by omega)).bind ?_
  refine (readNum rfl (by decide) (by omega)).bind ?_
  refine (readNum rfl (by decide) (by omega)).bind ?_
  rw [Nat.sub_add_cancel hlit.1, Nat.sub_add_cancel hdist.1, Nat.sub_add_cancel hsent.1]
  refine (Reads.check (by simp only [Bool.and_eq_true, decide_eq_true_eq]; omega)).bind ?_
  refine (readClLengths_reads c.cl_size.2 _ _).bind ?_
  have hset : (codelenOrder.take c.sent).foldl (fun lens p => lens.set p (c.cl.getD p 0))
    (List.replicate 19 0) = c.cl := setLengths_eq c
  rw [hset]
  refine (build_reads hclTree).bind ?_
  refine (codeLengths_read c.cl_code hclTree c.runs_valid (by rw [hlens, List.length_append])).reads.bind ?_
  rw [hlens, List.take_left, List.drop_left]
  exact (build_reads hlitTree).bind ((build_reads hdistTree).bind
    (inflateBlock_reads c.lit_code c.dist_code hlitTree hdistTree c.ends hts hcap))

theorem storedBytes_reads (data : List UInt8) (hcap : (out ++ data).length ≤ cap) :
    Reads src cap (fun _ => storedBytes data.length) (bitsOf data ++ l) out () l (out ++ data) := by
  induction data generalizing out with
  | nil =>
    rw [List.append_nil]
    exact Reads.pure ()
  | cons b data ih =>
    have hroom : out.length < cap := by
      rw [List.length_append, List.length_cons] at hcap
      omega
    have hbyte : UInt8.ofNat b.toNat = b := UInt8.ofNat_toNat
    rw [bitsOf_cons, byte_bits, List.append_assoc]
    refine (readNum rfl (by decide) b.toNat_lt).bind ?_
    rw [hbyte]
    have hsplit : out ++ b :: data = out ++ [b] ++ data := (List.append_assoc out [b] data).symm
    rw [hsplit] at hcap ⊢
    exact (outByte_reads b hroom).bind (ih hcap)

theorem readU16_reads (hv : v < 2 ^ 16) (hl : l.length % 8 = 0) :
    Reads src cap (fun _ => readU16) (numBits 16 v ++ l) out v l out := by
  have hvalue : v % 2 ^ 8 ||| (v / 2 ^ 8) <<< 8 = v := by
    rw [Nat.or_comm, ← Nat.shiftLeft_add_eq_or_of_lt (Nat.mod_lt v (Nat.two_pow_pos 8)), Nat.shiftLeft_eq]
    omega
  have hlen : (numBits 16 v ++ l).length % 8 = 0 := by
    rw [List.length_append, length_numBits]
    omega
  refine (align_reads (a := []) (by decide) hlen).bind ?_
  rw [numBits_add 8 8, List.append_assoc]
  refine (readBits_reads (by rw [length_numBits]; decide) (length_numBits 8 v).symm).bind ?_
  rw [ofBits_numBits]
  refine (readNum rfl (by decide) (by omega)).bind ?_
  rw [hvalue]
  exact Reads.pure v

/-- The length of a stored block and its complement. -/
theorem xor_complement (h : v < 2 ^ 16) : v ^^^ (65535 - v) = 0xFFFF := by
  have hsub : 65535 - v = 2 ^ 16 - (v + 1) := by omega
  refine Nat.eq_of_testBit_eq fun i => ?_
  rw [Nat.testBit_xor, hsub, Nat.testBit_two_pow_sub_succ h,
    show 0xFFFF = 2 ^ 16 - 1 by rfl, Nat.testBit_two_pow_sub_one]
  by_cases hi : i < 16
  · simp [hi]
  · have hhigh : v.testBit i = false :=
      Nat.testBit_lt_two_pow (h.trans_le (Nat.pow_le_pow_right Nat.two_pos (Nat.not_lt.1 hi)))
    simp [hi, hhigh]

theorem storedBlock_reads {pad : List Bool} {data : List UInt8} (hpad : pad.length < 8) (hl : l.length % 8 = 0)
    (hdata : data.length < 65536) (hcap : (out ++ data).length ≤ cap) :
    Reads src cap (fun _ => storedBlock)
    (pad ++ numBits 16 data.length ++ numBits 16 (65535 - data.length) ++ bitsOf data ++ l) out ()
      l (out ++ data) := by
  have hbytes := length_bitsOf data
  simp only [List.append_assoc]
  refine (align_reads hpad (by simp only [List.length_append, length_numBits]; omega)).bind ?_
  refine (readU16_reads (by omega) (by simp only [List.length_append, length_numBits]; omega)).bind ?_
  refine (readU16_reads (by omega) (by simp only [List.length_append]; omega)).bind ?_
  exact (Reads.check (decide_eq_true (xor_complement hdata))).bind (storedBytes_reads data hcap)

theorem fixedLit_code : IsCode fixedLit where
  syms := by
    rw [fixedLit]
    simp only [List.length_append, List.length_replicate]
    decide
  bits l hl := by
    rw [fixedLit] at hl
    simp only [List.mem_append, List.mem_replicate] at hl
    omega
  kraft := by
    rw [fixedLit, kraft]
    simp only [List.map_append, List.map_replicate, List.sum_append, List.sum_replicate]
    norm_num

theorem fixedDistance_code : IsCode fixedDistance where
  syms := by
    rw [fixedDistance, List.length_replicate]
    decide
  bits l hl := by
    rw [fixedDistance, List.mem_replicate] at hl
    omega
  kraft := by
    rw [fixedDistance, kraft]
    simp only [List.map_replicate, List.sum_replicate]
    norm_num

theorem fixedTable_build (h : IsCode lengths) : huffBuild lengths = some (fixedTable lengths) := by
  obtain ⟨table, hbuild⟩ := exists_table h
  rw [fixedTable, hbuild, Option.getD_some]

theorem fixedLitlen_build : huffBuild fixedLit = some fixedLitlen := fixedTable_build fixedLit_code

theorem fixedDist_build : huffBuild fixedDistance = some fixedDist := fixedTable_build fixedDistance_code

/-- The data that a block adds fit into the output. -/
theorem block_reads {b : Block} {pos : ℕ} (hb : b.Valid pos out) (hpos : (pos + 1 + b.bits.length + l.length) % 8 = 0)
    (hcap : (b.expand out).length ≤ cap) :
    Reads src cap (fun n => do
      let btype ← readBits 2
      block n btype) (b.bits ++ l) out () l (b.expand out) := by
  cases b with
  | stored pad data =>
    obtain ⟨hpad, halign, hdata⟩ := hb
    have hbits : (Block.stored pad data).bits ++ l =
        numBits 2 0 ++ (pad ++ numBits 16 data.length ++ numBits 16 (65535 - data.length) ++ bitsOf data ++ l) := by
      simp only [Block.bits, List.append_assoc]
    have hl : l.length % 8 = 0 := by
      have hbytes := length_bitsOf data
      simp only [Block.bits, List.length_append, length_numBits] at hpos
      omega
    rw [hbits]
    refine (readNum rfl (by decide) (by decide)).bind ?_
    exact storedBlock_reads hpad hl hdata hcap
  | fixed ts =>
    rw [Block.bits, List.append_assoc]
    refine (readNum rfl (by decide) (by decide)).bind ?_
    exact inflateBlock_reads fixedLit_code fixedDistance_code fixedLitlen_build fixedDist_build (by decide) hb hcap
  | dynamic c ts =>
    rw [Block.bits, List.append_assoc, List.append_assoc]
    refine (readNum rfl (by decide) (by decide)).bind ?_
    rw [← List.append_assoc]
    exact inflateDynamic_reads c hb hcap

end ComputerOS.Inflate
