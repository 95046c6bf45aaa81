import ComputerOS.Inflate.Model
import Mathlib.Data.Nat.Digits.Lemmas
import Mathlib.Data.Nat.Size

/-!
The bit stream as a number. The bits that are still to be read, from the buffer and then from the
input, are the binary digits of one number, lowest first, and behind the end of the input there are
zeros. Filling the buffer does not change the number; reading `n` bits divides it by `2 ^ n` and
answers the remainder.
-/
namespace ComputerOS.Inflate

/-- The bytes that have not been put into the buffer, as a number. -/
def Bitstream.ahead (bs : Bitstream) : ℕ := Nat.ofDigits 256 ((bs.src.drop bs.srcPos).map UInt8.toNat)

/-- The bits still to be read, as a number. -/
def Bitstream.value (bs : Bitstream) : ℕ := bs.bits + 2 ^ bs.nbits * bs.ahead

/-- Between two reads less than a byte is in the buffer, and nothing above its bits. -/
structure Bitstream.Ready (bs : Bitstream) : Prop where
  bits : bs.bits < 2 ^ bs.nbits
  small : bs.nbits < 8

variable {bs : Bitstream} {n : ℕ}

/-- A byte moves from the input to the buffer, or zeros do. -/
theorem bsFillByte_value (hbits : bs.bits < 2 ^ bs.nbits) (hlt : bs.nbits < 24) :
    (bsFillByte bs).value = bs.value ∧ (bsFillByte bs).bits < 2 ^ (bsFillByte bs).nbits := by
  have hmono : 2 ^ bs.nbits ≤ 2 ^ (bs.nbits + 8) := Nat.pow_le_pow_right (by decide) (by omega)
  unfold bsFillByte
  by_cases hin : bs.srcPos < bs.src.length
  · rw [if_pos hin]
    have hget : bs.src.getD bs.srcPos 0 = bs.src[bs.srcPos] := by
      rw [List.getD_eq_getElem?_getD, List.getElem?_eq_getElem hin, Option.getD_some]
    obtain ⟨x, hx⟩ : ∃ x, bs.src[bs.srcPos] = x := ⟨_, rfl⟩
    have hbyte : x.toNat < 256 := x.toNat_lt
    have hahead : bs.ahead = x.toNat + 256 * Nat.ofDigits 256 ((bs.src.drop (bs.srcPos + 1)).map UInt8.toNat) := by
      rw [Bitstream.ahead, List.drop_eq_getElem_cons hin, hx, List.map_cons, Nat.ofDigits_cons]
    have hshift : x.toNat <<< bs.nbits = 2 ^ bs.nbits * x.toNat := by rw [Nat.shiftLeft_eq, Nat.mul_comm]
    have hmul : 2 ^ bs.nbits * x.toNat + 2 ^ bs.nbits ≤ 2 ^ (bs.nbits + 8) := by
      rw [← Nat.mul_succ, Nat.pow_add]
      exact Nat.mul_le_mul_left _ hbyte
    have hwide : 2 ^ (bs.nbits + 8) ≤ 2 ^ 32 := Nat.pow_le_pow_right (by decide) (by omega)
    have hor : bs.bits ||| u32 (x.toNat <<< bs.nbits) = bs.bits + 2 ^ bs.nbits * x.toNat := by
      rw [u32, Nat.mod_eq_of_lt (by rw [hshift]; omega), Nat.or_comm,
        ← Nat.shiftLeft_add_eq_or_of_lt hbits, hshift, Nat.add_comm]
    rw [hget, hx, hor]
    refine ⟨?_, by dsimp only; omega⟩
    rw [Bitstream.value, Bitstream.value, hahead, Bitstream.ahead, Nat.pow_add]
    dsimp only
    ring
  · rw [if_neg hin]
    have hnil : bs.src.drop bs.srcPos = [] := List.drop_eq_nil_of_le (Nat.not_lt.mp hin)
    refine ⟨?_, hbits.trans_le hmono⟩
    simp [Bitstream.value, Bitstream.ahead, hnil]

theorem bsFillByte_nbits (bs : Bitstream) : (bsFillByte bs).nbits = bs.nbits + 8 := by
  unfold bsFillByte
  split <;> rfl

theorem bsFillTurns_spec (turns : ℕ) (hn : n ≤ 24) (hbits : bs.bits < 2 ^ bs.nbits) (hnbits : bs.nbits < n + 8) :
    (bsFillTurns n turns bs).value = bs.value ∧
    (bsFillTurns n turns bs).bits < 2 ^ (bsFillTurns n turns bs).nbits ∧
    (bsFillTurns n turns bs).nbits < n + 8 ∧
    (n ≤ bs.nbits + 8 * turns → n ≤ (bsFillTurns n turns bs).nbits) := by
  induction turns generalizing bs with
  | zero => exact ⟨rfl, hbits, hnbits, fun h => h⟩
  | succ turns ih =>
    unfold bsFillTurns
    by_cases hlt : bs.nbits < n
    · rw [if_pos hlt]
      obtain ⟨hvalue, hbits'⟩ := bsFillByte_value hbits (hlt.trans_le hn)
      have hnext := bsFillByte_nbits bs
      obtain ⟨h1, h2, h3, h4⟩ := ih hbits' (by omega)
      exact ⟨h1.trans hvalue, h2, h3, fun h => h4 (by omega)⟩
    · rw [if_neg hlt]
      exact ⟨rfl, hbits, hnbits, fun _ => Nat.not_lt.mp hlt⟩

/-- The loop of `bs_fill` has ended, with enough bits. -/
theorem bsFill_spec (hbs : bs.Ready) (hn : n ≤ 24) : (bsFill n bs).value = bs.value ∧
    (bsFill n bs).bits < 2 ^ (bsFill n bs).nbits ∧ (bsFill n bs).nbits < n + 8 ∧ n ≤ (bsFill n bs).nbits := by
  have hsmall := hbs.small
  obtain ⟨h1, h2, h3, h4⟩ := bsFillTurns_spec n hn hbs.bits (by omega)
  exact ⟨h1, h2, h3, h4 (by omega)⟩

/-- Dropping bits that are in the buffer divides the number. -/
theorem bsDrop_value (h : n ≤ bs.nbits) : (bsDrop n bs).value = bs.value / 2 ^ n := by
  have hpow : 2 ^ bs.nbits = 2 ^ n * 2 ^ (bs.nbits - n) := by rw [← Nat.pow_add, Nat.add_sub_cancel' h]
  have hahead : (bsDrop n bs).ahead = bs.ahead := rfl
  rw [Bitstream.value, Bitstream.value, hahead, hpow, Nat.mul_assoc,
    Nat.add_mul_div_left _ _ (Nat.two_pow_pos n), ← Nat.shiftRight_eq_div_pow]
  rfl

theorem bsDrop_bits (h : n ≤ bs.nbits) (hbits : bs.bits < 2 ^ bs.nbits) :
    (bsDrop n bs).bits < 2 ^ (bsDrop n bs).nbits := by
  have hpow : 2 ^ bs.nbits = 2 ^ n * 2 ^ (bs.nbits - n) := by rw [← Nat.pow_add, Nat.add_sub_cancel' h]
  rw [bsDrop]
  dsimp only
  rw [Nat.shiftRight_eq_div_pow]
  exact Nat.div_lt_of_lt_mul (by rwa [← hpow])

theorem bsRead_spec (hbs : bs.Ready) (hn : n ≤ 24) :
    (bsRead n bs).1 = bs.value % 2 ^ n ∧ (bsRead n bs).2.value = bs.value / 2 ^ n ∧ (bsRead n bs).2.Ready := by
  obtain ⟨hvalue, hbits, hlt, hle⟩ := bsFill_spec hbs hn
  have hpow : 2 ^ (bsFill n bs).nbits = 2 ^ n * 2 ^ ((bsFill n bs).nbits - n) := by
    rw [← Nat.pow_add, Nat.add_sub_cancel' hle]
  refine ⟨?_, ?_, bsDrop_bits hle hbits, ?_⟩
  · have hmask : (bsRead n bs).1 = (bsFill n bs).bits % 2 ^ n := by
      rw [← Nat.and_two_pow_sub_one_eq_mod, bsRead, bsPeek, Nat.one_shiftLeft]
    rw [hmask, ← hvalue, Bitstream.value, hpow, Nat.mul_assoc, Nat.add_mul_mod_self_left]
  · exact (bsDrop_value hle).trans (by rw [hvalue])
  · have hnbits : (bsRead n bs).2.nbits = (bsFill n bs).nbits - n := rfl
    omega

theorem bsAlign_spec (hbs : bs.Ready) : (bsAlign bs).value = bs.value / 2 ^ bs.nbits ∧ (bsAlign bs).Ready := by
  have hall : bs.nbits &&& 7 = bs.nbits := by
    rw [show (7 : ℕ) = 2 ^ 3 - 1 by rfl, Nat.and_two_pow_sub_one_eq_mod]
    exact Nat.mod_eq_of_lt hbs.small
  have heq : bsAlign bs = bsDrop bs.nbits bs := by rw [bsAlign, hall, bsDrop]
  rw [heq]
  exact ⟨bsDrop_value le_rfl, bsDrop_bits le_rfl hbs.bits, by rw [bsDrop, Nat.sub_self]; exact Nat.zero_lt_succ 7⟩

/-- What is left after a Huffman symbol is no more than before. -/
theorem huffDecodeFrom_spec (h : Huffman) (lens : List ℕ) (code : ℕ) (hbs : bs.Ready) :
    (huffDecodeFrom h lens code bs).2.value ≤ bs.value ∧ (huffDecodeFrom h lens code bs).2.Ready := by
  induction lens generalizing code bs with
  | nil => exact ⟨le_rfl, hbs⟩
  | cons len lens ih =>
    obtain ⟨-, hvalue, hready⟩ := bsRead_spec hbs (n := 1) (by decide)
    have hle : (bsRead 1 bs).2.value ≤ bs.value := hvalue ▸ Nat.div_le_self _ _
    have hrest := fun code => ih code hready
    unfold huffDecodeFrom
    dsimp only
    split_ifs
    · exact ⟨(hrest _).1.trans hle, (hrest _).2⟩
    · exact ⟨hle, hready⟩
    · exact ⟨hle, hready⟩
    · exact ⟨(hrest _).1.trans hle, (hrest _).2⟩

/-- A stream begins with all the bits of the input. -/
theorem value_start_lt (src : List UInt8) : (Bitstream.mk src 0 0 0).value < 2 ^ (8 * src.length) := by
  have hlt : Nat.ofDigits 256 (src.map UInt8.toNat) < 256 ^ (src.map UInt8.toNat).length := by
    refine Nat.ofDigits_lt_base_pow_length (by decide) fun x hx => ?_
    obtain ⟨b, -, rfl⟩ := List.mem_map.mp hx
    exact b.toNat_lt
  rw [Nat.pow_mul]
  simpa [Bitstream.value, Bitstream.ahead] using hlt

theorem ready_start (src : List UInt8) : (Bitstream.mk src 0 0 0).Ready := ⟨Nat.one_pos, Nat.zero_lt_succ 7⟩

end ComputerOS.Inflate

-- Every loop of `inflate_gzip` ends. A turn over the symbols of a block writes to the output or
-- ends the block, and a turn over the code lengths decodes one at least. A block that does not fail
-- has read a bit of a number that was not 0, since behind the end of the input a block is a stored
-- one whose length check fails. So the blocks are not more than the bits of the input.
namespace ComputerOS.Inflate

open Looping

/-- The stream has at most the number `v` left to read, and at most `c` bytes fit into the output.
-/
structure Within (v c : ℕ) (s : St) : Prop where
  ready : s.bs.Ready
  value : s.bs.value ≤ v
  room : s.out.cap - s.out.data.length ≤ c

theorem Within.mono {v v' c c' : ℕ} {s : St} (h : Within v c s) (hv : v ≤ v') (hc : c ≤ c') : Within v' c' s :=
  ⟨h.ready, h.value.trans hv, h.room.trans hc⟩

variable {v c n fuel : ℕ}

theorem readBits_ends (hn : n ≤ 24) :
    Ends (Within v c) (readBits n) fun a s => a ≤ v ∧ Within (v / 2 ^ n) c s := by
  refine Ends.lift fun s hs a ha => ?_
  obtain ⟨hread, hvalue, hready⟩ := bsRead_spec hs.ready hn
  obtain rfl := Option.some.inj ha
  refine ⟨?_, hready, ?_, hs.room⟩
  · rw [hread]
    exact (Nat.mod_le _ _).trans hs.value
  · rw [hvalue]
    exact Nat.div_le_div_right hs.value

theorem readBits_keeps (hn : n ≤ 24) : Ends (Within v c) (readBits n) fun _ => Within v c :=
  (readBits_ends hn).mono (fun _ h => h) fun _ _ h => h.2.mono (Nat.div_le_self _ _) le_rfl

theorem align_keeps : Ends (Within v c) align fun _ => Within v c := by
  refine Ends.modify fun s hs => ?_
  obtain ⟨hvalue, hready⟩ := bsAlign_spec hs.ready
  exact ⟨hready, by rw [hvalue]; exact (Nat.div_le_self _ _).trans hs.value, hs.room⟩

/-- At the end of the input the number read is 0. -/
theorem readU16_ends : Ends (Within v c) readU16 fun a s => (v = 0 → a = 0) ∧ Within v c s := by
  refine align_keeps.bind fun _ => (readBits_ends (by decide)).bind fun lo => Ends.assume fun hlo => ?_
  refine (readBits_ends (by decide)).bind fun hi => Ends.assume fun hhi => Ends.pure fun s hs => ⟨fun h0 => ?_, ?_⟩
  · subst h0
    obtain rfl : lo = 0 := Nat.le_zero.mp hlo
    obtain rfl : hi = 0 := Nat.le_zero.mp (hhi.trans (Nat.zero_div _).le)
    rfl
  · exact hs.mono ((Nat.div_le_self _ _).trans (Nat.div_le_self _ _)) le_rfl

theorem decode_keeps (h : Huffman) : Ends (Within v c) (decode h) fun _ => Within v c := by
  refine Ends.lift fun s hs a _ => ?_
  obtain ⟨hvalue, hready⟩ := huffDecodeFrom_spec h (List.range' 1 HUFF_MAX_BITS) 0 hs.ready
  exact ⟨hready, hvalue.trans hs.value, hs.room⟩

theorem build_keeps (lengths : List ℕ) : Ends (Within v c) (build lengths) fun _ => Within v c :=
  Ends.lift fun _ hs _ _ => hs

/-- A byte that is written takes room. -/
theorem outByte_ends (b : UInt8) : Ends (Within v c) (outByte b) fun _ s => 0 < c ∧ Within v (c - 1) s := by
  refine Ends.lift fun s hs a ha => ?_
  by_cases hfull : s.out.cap ≤ s.out.data.length
  · rw [if_pos hfull] at ha
    cases ha
  · rw [if_neg hfull]
    have hroom := hs.room
    refine ⟨by omega, hs.ready, hs.value, ?_⟩
    change s.out.cap - (s.out.data ++ [b]).length ≤ c - 1
    rw [List.length_append, List.length_singleton]
    omega

theorem outCopyBytes_ends (dist len : ℕ) :
    Ends (Within v c) (outCopyBytes dist len) fun _ s => len ≤ c ∧ Within v (c - len) s := by
  induction len generalizing c with
  | zero => exact Ends.pure fun s hs => ⟨Nat.zero_le c, hs⟩
  | succ len ih =>
    refine Ends.get.bind fun s₀ => ?_
    refine ((outByte_ends _).mono (fun s hs => hs.1) fun _ _ h => h).bind fun _ => Ends.assume fun hc => ?_
    refine ih.mono (fun _ h => h) fun _ s h => ⟨by omega, h.2.mono le_rfl (by omega)⟩

theorem outCopy_ends (dist : ℕ) {len : ℕ} (hlen : 0 < len) :
    Ends (Within v c) (outCopy dist len) fun _ s => 0 < c ∧ Within v (c - 1) s := by
  refine Ends.get.bind fun s₀ => (Ends.check (Q := fun _ => Within v c) fun s _ hs => hs.1).bind fun _ => ?_
  exact (outCopyBytes_ends dist len).mono (fun _ h => h) fun _ s h => ⟨by omega, h.2.mono le_rfl (by omega)⟩

theorem lenExtra_le (i : ℕ) : lenExtra.getD i 0 ≤ 24 := by
  have hall : ∀ x ∈ lenExtra, x ≤ 24 := by decide
  rw [List.getD_eq_getElem?_getD]
  cases hget : lenExtra[i]? with
  | none => exact Nat.zero_le _
  | some x => exact hall x (List.mem_of_getElem? hget)

theorem distExtra_le (i : ℕ) : distExtra.getD i 0 ≤ 24 := by
  have hall : ∀ x ∈ distExtra, x ≤ 24 := by decide
  rw [List.getD_eq_getElem?_getD]
  cases hget : distExtra[i]? with
  | none => exact Nat.zero_le _
  | some x => exact hall x (List.mem_of_getElem? hget)

theorem lenBase_pos {i : ℕ} (h : i < 29) : 0 < lenBase.getD i 0 := by
  have hall : ∀ j < 29, 0 < lenBase.getD j 0 := by decide
  exact hall i h

theorem backReference_ends (distH : Huffman) (lcode : ℕ) :
    Ends (Within v c) (backReference distH lcode) fun _ s => 0 < c ∧ Within v (c - 1) s := by
  refine (Ends.check (Q := fun _ s => lcode < 29 ∧ Within v c s) fun s hc hs => ⟨of_decide_eq_true hc, hs⟩).bind
    fun _ => Ends.assume fun hcode => ?_
  refine (readBits_keeps (lenExtra_le lcode)).bind fun extra => (decode_keeps distH).bind fun dcode => ?_
  refine (Ends.check (Q := fun _ => Within v c) fun s _ hs => hs).bind fun _ => ?_
  refine (readBits_keeps (distExtra_le dcode)).bind fun extraDist => ?_
  exact outCopy_ends _ (Nat.lt_of_lt_of_le (lenBase_pos hcode) (Nat.le_add_right _ _))

/-- A turn writes something, unless the block ends. -/
theorem symbolTurn_ends (litlen distH : Huffman) : Ends (Within v c) (symbolTurn litlen distH) fun r s => match r with
    | .inl _ => 0 < c ∧ Within v (c - 1) s
    | .inr _ => Within v c s := by
  refine (decode_keeps litlen).bind fun sym => ?_
  split_ifs
  · exact (outByte_ends _).bind fun _ => Ends.pure fun _ h => h
  · exact Ends.pure fun _ h => h
  · exact (backReference_ends distH _).bind fun _ => Ends.pure fun _ h => h

theorem inflateBlock_ends (litlen distH : Huffman) (hfuel : c < fuel) :
    Ends (Within v c) (inflateBlock fuel litlen distH) fun _ => Within v c := by
  have hloop := Ends.loop (T := fun _ => Within v c) (fun (_ : Unit) => Within v c)
    (fun _ s => s.out.cap - s.out.data.length) (f := fun _ => symbolTurn litlen distH) (fun _ n => ?_) fuel ()
  · exact hloop.mono (fun s hs => ⟨hs, hs.room.trans_lt hfuel⟩) fun _ _ h => h
  · intro s hs
    obtain ⟨hroom, hw⟩ := hs
    have hn : n ≤ c := hroom ▸ hw.room
    obtain ⟨r, s', hrun, hr⟩ := symbolTurn_ends litlen distH s ⟨hw.ready, hw.value, hroom.le⟩
    refine ⟨r, s', hrun, fun a ha => ?_⟩
    have hpost := hr a ha
    cases a with
    | inl _ => exact ⟨hpost.2.mono le_rfl (by omega), by have := hpost.2.room; omega⟩
    | inr _ => exact hpost.mono le_rfl hn

theorem readClLengths_keeps (places lens : List ℕ) :
    Ends (Within v c) (readClLengths places lens) fun _ => Within v c := by
  induction places generalizing lens with
  | nil => exact Ends.pure fun _ h => h
  | cons place places ih => exact (readBits_keeps (by decide)).bind fun l => ih _

theorem repeatLength_le (total x rep : ℕ) (lens : List ℕ) : lens.length ≤ (repeatLength total x rep lens).length := by
  induction rep generalizing lens with
  | zero => exact le_rfl
  | succ rep ih =>
    unfold repeatLength
    split
    · exact (by simp : lens.length ≤ (lens ++ [x]).length).trans (ih _)
    · exact le_rfl

theorem repeatLength_lt {total : ℕ} (x : ℕ) {rep : ℕ} (hrep : 0 < rep) {lens : List ℕ} (h : lens.length < total) :
    lens.length < (repeatLength total x rep lens).length := by
  obtain ⟨rep, rfl⟩ : ∃ k, rep = k + 1 := ⟨rep - 1, by omega⟩
  rw [repeatLength, if_pos h]
  exact Nat.lt_of_lt_of_le (by simp) (repeatLength_le total x rep _)

theorem codeLengthTurn_ends (clTree : Huffman) (total : ℕ) (lens : List ℕ) :
    Ends (Within v c) (codeLengthTurn clTree total lens) fun r s => match r with
      | .inl lens' => (lens.length < total ∧ lens.length < lens'.length) ∧ Within v c s
      | .inr _ => Within v c s := by
  unfold codeLengthTurn
  by_cases hall : total ≤ lens.length
  · rw [if_pos hall]
    exact Ends.pure fun _ h => h
  rw [if_neg hall]
  have hlt : lens.length < total := Nat.not_le.mp hall
  have hrepeat : ∀ x rep, 0 < rep → lens.length < total ∧ lens.length < (repeatLength total x rep lens).length :=
    fun x rep hrep => ⟨hlt, repeatLength_lt x hrep hlt⟩
  refine (decode_keeps clTree).bind fun sym => ?_
  split_ifs
  · exact Ends.pure fun _ h => ⟨⟨hlt, by simp⟩, h⟩
  · refine (Ends.check (Q := fun _ => Within v c) fun _ _ h => h).bind fun _ => ?_
    exact (readBits_keeps (by decide)).bind fun rep => Ends.pure fun _ h => ⟨hrepeat _ _ (by omega), h⟩
  · exact (readBits_keeps (by decide)).bind fun rep => Ends.pure fun _ h => ⟨hrepeat _ _ (by omega), h⟩
  · exact (readBits_keeps (by decide)).bind fun rep => Ends.pure fun _ h => ⟨hrepeat _ _ (by omega), h⟩
  · exact Ends.fail

theorem codeLengths_end (clTree : Huffman) {total : ℕ} (hfuel : total < fuel) :
    Ends (Within v c) (loop (codeLengthTurn clTree total) fuel []) fun _ => Within v c := by
  have hloop := Ends.loop (T := fun _ => Within v c) (fun (_ : List ℕ) => Within v c)
    (fun lens _ => total - lens.length) (f := codeLengthTurn clTree total) (fun lens n => ?_) fuel []
  · exact hloop.mono (fun s hs => ⟨hs, hfuel⟩) fun _ _ h => h
  · refine Ends.assume fun hn => (codeLengthTurn_ends clTree total lens).mono (fun _ h => h) fun r s hr => ?_
    cases r with
    | inl lens' =>
      obtain ⟨⟨hlt, hgrow⟩, hw⟩ := hr
      exact ⟨hw, by omega⟩
    | inr _ => exact hr

theorem inflateDynamic_ends (hfuel : c < fuel) (hfuel' : 316 < fuel) :
    Ends (Within v c) (inflateDynamic fuel) fun _ => Within v c := by
  refine (readBits_keeps (by decide)).bind fun hlit => (readBits_keeps (by decide)).bind fun hdist => ?_
  refine (readBits_keeps (by decide)).bind fun hclen => ?_
  refine (Ends.check (Q := fun _ s => (hlit + 257 ≤ 286 ∧ hdist + 1 ≤ 30) ∧ Within v c s) fun s hc hs => ?_).bind
    fun _ => Ends.assume fun hsmall => ?_
  · simp only [Bool.and_eq_true, decide_eq_true_eq] at hc
    exact ⟨hc.1, hs⟩
  refine (readClLengths_keeps _ _).bind fun clLengths => (build_keeps _).bind fun clTree => ?_
  refine (codeLengths_end clTree (by omega)).bind fun lens => (build_keeps _).bind fun litlenTree => ?_
  exact (build_keeps _).bind fun distTree => inflateBlock_ends litlenTree distTree hfuel

theorem storedBytes_keep (n : ℕ) : Ends (Within v c) (storedBytes n) fun _ => Within v c := by
  induction n with
  | zero => exact Ends.pure fun _ h => h
  | succ n ih =>
    refine (readBits_keeps (by decide)).bind fun b => ((outByte_ends _).mono (fun _ h => h) ?_).bind fun _ => ih
    exact fun _ s h => h.2.mono le_rfl (Nat.sub_le c 1)

/-- Behind the end of the input the length check of a stored block fails. -/
theorem storedBlock_ends : Ends (Within v c) storedBlock fun _ s => v ≠ 0 ∧ Within v c s := by
  refine align_keeps.bind fun _ => readU16_ends.bind fun blen => Ends.assume fun hblen => ?_
  refine readU16_ends.bind fun bnlen => Ends.assume fun hbnlen => ?_
  refine (Ends.check (Q := fun _ s => v ≠ 0 ∧ Within v c s) fun s hc hs => ⟨fun h0 => ?_, hs⟩).bind fun _ => ?_
  · rw [hblen h0, hbnlen h0] at hc
    cases of_decide_eq_true hc
  · exact Ends.assume fun h0 => (storedBytes_keep blen).mono (fun _ h => h) fun _ _ h => ⟨h0, h⟩

theorem block_ends (btype : ℕ) (hfuel : c < fuel) (hfuel' : 316 < fuel) :
    Ends (Within v c) (block fuel btype) fun _ s => (btype = 0 → v ≠ 0) ∧ Within v c s := by
  unfold block
  split_ifs with h0 h1 h2
  · exact storedBlock_ends.mono (fun _ h => h) fun _ _ h => ⟨fun _ => h.1, h.2⟩
  · exact (inflateBlock_ends _ _ hfuel).mono (fun _ h => h) fun _ _ h => ⟨fun h => absurd h h0, h⟩
  · exact (inflateDynamic_ends hfuel hfuel').mono (fun _ h => h) fun _ _ h => ⟨fun h => absurd h h0, h⟩
  · exact Ends.fail

/-- A block that does not fail halves what is left to read, and that was not 0. -/
theorem blockTurn_ends (hfuel : c < fuel) (hfuel' : 316 < fuel) :
    Ends (Within v c) (blockTurn fuel) fun _ s => v ≠ 0 ∧ Within (v / 2) c s := by
  refine (readBits_ends (n := 1) (by decide)).bind fun finalBlock => Ends.assume fun _ => ?_
  refine (readBits_ends (n := 2) (by decide)).bind fun btype => Ends.assume fun hbtype => ?_
  refine (block_ends btype hfuel hfuel').bind fun _ => Ends.pure fun s hs => ⟨fun h0 => ?_, ?_⟩
  · subst h0
    exact hs.1 (Nat.le_zero.mp hbtype) rfl
  · exact hs.2.mono (Nat.div_le_self _ _) le_rfl

theorem size_half_lt {w : ℕ} (h : w ≠ 0) : Nat.size (w / 2) < Nat.size w := by
  have hpos : 0 < Nat.size w := Nat.size_pos.mpr (Nat.pos_of_ne_zero h)
  have hle : Nat.size (w / 2) ≤ Nat.size w - 1 := by
    refine Nat.size_le.mpr (Nat.div_lt_of_lt_mul ?_)
    rw [← Nat.pow_succ', Nat.succ_eq_add_one, Nat.sub_add_cancel hpos]
    exact Nat.lt_size_self w
  omega

theorem blocks_end {k : ℕ} (hv : v < 2 ^ k) (hk : k < fuel) (hfuel : c < fuel) (hfuel' : 316 < fuel) :
    Ends (Within v c) (loop (fun _ => blockTurn fuel) fuel ()) fun _ => Within v c := by
  have hloop := Ends.loop (T := fun _ => Within v c) (fun (_ : Unit) => Within v c)
    (fun _ s => Nat.size s.bs.value) (f := fun _ => blockTurn fuel) (fun _ n => ?_) fuel ()
  · refine hloop.mono (fun s hs => ⟨hs, lt_of_le_of_lt ?_ hk⟩) fun _ _ h => h
    exact Nat.size_le.mpr (hs.value.trans_lt hv)
  · intro s hs
    obtain ⟨hsize, hw⟩ := hs
    obtain ⟨r, s', hrun, hr⟩ := blockTurn_ends hfuel hfuel' s ⟨hw.ready, le_rfl, hw.room⟩
    refine ⟨r, s', hrun, fun a ha => ?_⟩
    obtain ⟨hne, hhalf⟩ := hr a ha
    have hkeep : Within v c s' := hhalf.mono ((Nat.div_le_self _ _).trans hw.value) le_rfl
    cases a with
    | inl _ => exact ⟨hkeep, hsize ▸ (Nat.size_le_size hhalf.value).trans_lt (size_half_lt hne)⟩
    | inr _ => exact hkeep

section Header

variable {P : St → Prop} {inp : List UInt8} (hin : inp.length < 2 ^ 32) (hfuel : inp.length < fuel)

include hin hfuel

/-- The position moves up to the end of the input at most, where it does not wrap. -/
theorem skipText_ends (pos : ℕ) : Ends P (skipText inp fuel pos) fun _ => P := by
  have hloop := Ends.loop (T := fun (_ : ℕ) => P) (fun (_ : ℕ) => P) (fun pos _ => inp.length - pos)
    (f := fun pos => pure (if pos < inp.length ∧ inp.getD pos 0 ≠ 0 then .inl (u32 (pos + 1))
      else .inr (u32 (pos + 1)))) (fun pos n => Ends.assume fun hn => Ends.pure fun s hs => ?_) fuel pos
  · exact hloop.mono (fun s hs => ⟨hs, by omega⟩) fun _ _ h => h
  · by_cases hmore : pos < inp.length ∧ inp.getD pos 0 ≠ 0
    · have hnext : u32 (pos + 1) = pos + 1 := Nat.mod_eq_of_lt (by omega)
      rw [if_pos hmore]
      exact ⟨hs, by omega⟩
    · rw [if_neg hmore]
      exact hs

theorem gzipHeader_ends : Ends P (gzipHeader inp fuel) fun _ => P := by
  have hskip : ∀ flag pos, Ends P (skipField flag inp fuel pos) fun _ => P := by
    intro flag pos
    unfold skipField
    split_ifs
    · exact skipText_ends hin hfuel pos
    · exact Ends.pure fun _ h => h
  have hcheck : ∀ c, Ends P (check c) fun _ => P := fun c => Ends.check fun _ _ h => h
  unfold gzipHeader
  refine (hcheck _).bind fun _ => (hcheck _).bind fun _ => (hcheck _).bind fun _ => (hcheck _).bind fun _ => ?_
  refine (hskip _ _).bind fun pos => (hskip _ _).bind fun pos' => (hcheck _).bind fun _ => ?_
  exact Ends.pure fun _ h => h

end Header

theorem gzipTrailer_ends (inp : List UInt8) (pos : ℕ) : Ends (Within v c) (gzipTrailer inp pos) fun _ _ => True := by
  have hcheck : ∀ c, Ends (fun _ : St => True) (check c) fun _ _ => True := fun c => Ends.check fun _ _ h => h
  refine align_keeps.bind fun _ => Ends.get.bind fun s => ?_
  refine Ends.mono (P := fun _ => True) (Q := fun _ _ => True) ?_ (fun _ _ => trivial) fun _ _ h => h
  exact (hcheck _).bind fun _ => (hcheck _).bind fun _ => (hcheck _).bind fun _ => Ends.pure fun _ h => h

theorem gzipBody_ends {inp : List UInt8} {outCap : ℕ} (hin : inp.length < 2 ^ 32)
    (hfuel : 8 * inp.length + outCap + 317 ≤ fuel) :
    Ends (fun s => s.out = ⟨[], outCap⟩) (gzipBody inp fuel) fun _ _ => True := by
  refine (gzipHeader_ends hin (by omega)).bind fun pos => ?_
  have hlen : 8 * (inp.drop pos).length ≤ 8 * inp.length := by
    rw [List.length_drop]
    omega
  refine (Ends.modify (Q := fun _ => Within (Bitstream.mk (inp.drop pos) 0 0 0).value outCap) fun s hs => ?_).bind
    fun _ => (blocks_end (value_start_lt (inp.drop pos)) (by omega) (by omega) (by omega)).bind fun _ => ?_
  · exact ⟨ready_start _, le_rfl, by rw [hs]; exact Nat.sub_le _ _⟩
  · exact gzipTrailer_ends inp pos

theorem inflateBlock_steady (litlen distH : Huffman) : Steady fun n => inflateBlock n litlen distH :=
  Steady.loop (fun _ => .const (symbolTurn litlen distH)) ()

theorem inflateDynamic_steady : Steady inflateDynamic := by
  have hlens : ∀ clTree total, Steady fun n => loop (codeLengthTurn clTree total) n [] := fun clTree total =>
    Steady.loop (fun lens => .const (codeLengthTurn clTree total lens)) []
  unfold inflateDynamic
  refine (Steady.const _).bind fun hlit => (Steady.const _).bind fun hdist => (Steady.const _).bind fun hclen => ?_
  refine (Steady.const _).bind fun _ => (Steady.const _).bind fun _ => (Steady.const _).bind fun clTree => ?_
  refine (hlens clTree _).bind fun lens => (Steady.const _).bind fun litlenTree => ?_
  exact (Steady.const _).bind fun distTree => inflateBlock_steady litlenTree distTree

theorem blockTurn_steady : Steady blockTurn := by
  have hblock : ∀ btype, Steady fun n => block n btype := by
    intro btype
    unfold block
    exact (Steady.const _).ite ((inflateBlock_steady _ _).ite (inflateDynamic_steady.ite (.const _)))
  unfold blockTurn
  exact (Steady.const _).bind fun _ => (Steady.const _).bind fun btype => (hblock btype).bind fun _ => .const _

theorem gzipBody_steady (inp : List UInt8) : Steady (gzipBody inp) := by
  have hskip : ∀ flag pos, Steady fun n => skipField flag inp n pos := fun flag pos =>
    Steady.ite (Steady.loop (fun pos => .const (pure _)) pos) (.const (pure pos))
  have hheader : Steady (gzipHeader inp) := by
    unfold gzipHeader
    refine (Steady.const _).bind fun _ => (Steady.const _).bind fun _ => (Steady.const _).bind fun _ => ?_
    refine (Steady.const _).bind fun _ => (hskip _ _).bind fun pos => (hskip _ _).bind fun pos' => ?_
    exact (Steady.const _).bind fun _ => .const _
  unfold gzipBody
  refine hheader.bind fun pos => (Steady.const _).bind fun _ => ?_
  exact (Steady.loop (fun _ => blockTurn_steady) ()).bind fun _ => .const _

/-- On every input and for every size of the output buffer, the loops of `inflate_gzip` end: with a
turn for each bit of the input and each byte of the buffer and some more, there is an outcome, and
it is the same with more turns. -/
theorem inflateGzip_ends (inp : List UInt8) (outCap : ℕ) (hin : inp.length < 2 ^ 32) :
    ∃ r, ∀ fuel, 8 * inp.length + outCap + 317 ≤ fuel → inflateGzip fuel inp outCap = some r := by
  obtain ⟨r, s, hrun, -⟩ := gzipBody_ends hin le_rfl { bs := ⟨[], 0, 0, 0⟩, out := ⟨[], outCap⟩ } rfl
  refine ⟨(r.getD (-1), s.out.data), fun fuel hfuel => ?_⟩
  rw [inflateGzip, gzipBody_steady inp _ _ _ _ hfuel hrun]
  rfl

/-- Dynamic blocks that never end: 18 bytes of input, and behind them zeros. -/
theorem inflateGzip_truncated : ∃ r, ∀ fuel, 8 * 18 + 10 + 317 ≤ fuel →
    inflateGzip fuel [31, 139, 8, 0, 0, 0, 0, 0, 2, 3, 4, 0, 0, 0, 0, 0, 0, 0] 10 = some r :=
  inflateGzip_ends [31, 139, 8, 0, 0, 0, 0, 0, 2, 3, 4, 0, 0, 0, 0, 0, 0, 0] 10 (by decide)

end ComputerOS.Inflate
