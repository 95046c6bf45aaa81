import ComputerOS.Inflate.Decode

/-!
What `inflate_gzip` returns for a well-formed member, whatever follows it: the loop over the blocks,
the header with its optional fields, and the trailer.
-/
namespace ComputerOS.Inflate

open Looping CanonicalCode Crc

variable {cap pos : ℕ} {src out : List UInt8} {l : List Bool}

theorem Block.length_expand_le (out : List UInt8) (b : Block) : out.length ≤ (b.expand out).length := by
  cases b with
  | stored pad data =>
    rw [Block.expand, List.length_append]
    exact Nat.le_add_right _ _
  | fixed ts => exact length_le_foldl ts out
  | dynamic c ts => exact length_le_foldl ts out

theorem length_le_blocks (blocks : List Block) (out : List UInt8) :
    out.length ≤ (blocks.foldl Block.expand out).length := by
  induction blocks generalizing out with
  | nil => exact le_rfl
  | cons b blocks ih => exact (b.length_expand_le out).trans (ih _)

theorem blockTurn_reads {b : Block} (last : Bool) (hb : b.Valid pos out)
    (hpos : (pos + 1 + b.bits.length + l.length) % 8 = 0)
    (hcap : (b.expand out).length ≤ cap) :
    Reads src cap blockTurn (last :: (b.bits ++ l)) out (if last then .inr () else .inl ()) l (b.expand out) := by
  have hturn (fuel : ℕ) : blockTurn fuel = readBits 1 >>= fun finalBlock => (readBits 2 >>= block fuel) >>= fun _ =>
      pure (if finalBlock = 0 then .inl () else .inr ()) := by
    refine congrArg (readBits 1 >>= ·) (funext fun finalBlock => ?_)
    rw [Looping.bind_assoc]
  rw [show blockTurn = _ from funext hturn]
  refine (readBits_reads (a := [last]) Nat.one_le_ofNat rfl).bind ?_
  refine (block_reads hb hpos hcap).bind ?_
  cases last <;> exact Reads.pure _

theorem blocks_read {blocks : List Block} (hne : blocks ≠ []) (hblocks : BlocksValid pos out blocks)
    (hpos : (pos + (streamBits blocks).length + l.length) % 8 = 0)
    (hcap : (blocks.foldl Block.expand out).length ≤ cap) :
    LoopReads src cap (fun fuel _ => blockTurn fuel) () (streamBits blocks ++ l) out () l
    (blocks.foldl Block.expand out) := by
  induction blocks generalizing pos out with
  | nil => exact absurd rfl hne
  | cons b blocks ih =>
    obtain ⟨hb, hrest⟩ := hblocks
    have hbits : streamBits (b :: blocks) ++ l = blocks.isEmpty :: (b.bits ++ (streamBits blocks ++ l)) := by
      rw [streamBits, List.cons_append, List.append_assoc]
    have hlen : (streamBits (b :: blocks)).length = 1 + b.bits.length + (streamBits blocks).length := by
      rw [streamBits, List.length_cons, List.length_append]
      omega
    rw [hlen] at hpos
    have hturn : Reads src cap blockTurn (blocks.isEmpty :: (b.bits ++ (streamBits blocks ++ l))) out
        (if blocks.isEmpty then .inr () else .inl ()) (streamBits blocks ++ l) (b.expand out) :=
      blockTurn_reads _ hb (by rw [List.length_append]; omega) ((length_le_blocks blocks _).trans hcap)
    rw [hbits]
    cases blocks with
    | nil => exact LoopReads.stop hturn
    | cons b' blocks =>
      exact LoopReads.turn hturn (ih (List.cons_ne_nil _ _) hrest (by omega) hcap)

theorem check_returns {c : Bool} (hc : c = true) {s : St} : Returns (fun _ => check c) s () s := by
  subst hc
  exact Returns.pure () s

@[simp] theorem length_numBytes (n v : ℕ) : (numBytes n v).length = n := by
  rw [numBytes, List.length_map, List.length_range]

theorem skipText_returns {text : List UInt8} (htext : 0 ∉ text) (pre post : List UInt8)
    (hlen : (pre ++ (text ++ 0 :: post)).length < 2 ^ 32) (s : St) :
    LoopReturns (fun _ pos => (Pure.pure (if pos < (pre ++ (text ++ 0 :: post)).length ∧
    (pre ++ (text ++ 0 :: post)).getD pos 0 ≠ 0
      then .inl (u32 (pos + 1)) else .inr (u32 (pos + 1))) : Looping St (ℕ ⊕ ℕ))) pre.length s
        (pre.length + text.length + 1) s := by
  induction text generalizing pre with
  | nil =>
    rw [List.length_append] at hlen
    have hget : (pre ++ ([] ++ 0 :: post)).getD pre.length 0 = 0 := by
      rw [List.getD_append_right _ _ _ _ le_rfl, Nat.sub_self]
      rfl
    have hnext : u32 (pre.length + 1) = pre.length + ([] : List UInt8).length + 1 := by
      rw [u32, Nat.mod_eq_of_lt (by rw [List.nil_append, List.length_cons] at hlen; omega)]
      rfl
    refine LoopReturns.stop ?_
    rw [if_neg (fun h => h.2 hget), hnext]
    exact Returns.pure _ s
  | cons x text ih =>
    rw [List.mem_cons, not_or] at htext
    have hsplit : pre ++ (x :: text ++ 0 :: post) = pre ++ [x] ++ (text ++ 0 :: post) := by
      rw [List.append_assoc]
      rfl
    have hget : (pre ++ (x :: text ++ 0 :: post)).getD pre.length 0 = x := by
      rw [List.getD_append_right _ _ _ _ le_rfl, Nat.sub_self]
      rfl
    have hlt : pre.length < (pre ++ (x :: text ++ 0 :: post)).length := by
      rw [List.length_append, List.cons_append, List.length_cons]
      omega
    have hnext : u32 (pre.length + 1) = (pre ++ [x]).length := by
      rw [u32, Nat.mod_eq_of_lt (by omega), List.length_append, List.length_singleton]
    have hrest := ih htext.2 (pre ++ [x]) (hsplit ▸ hlen)
    rw [← hsplit] at hrest
    have hend : (pre ++ [x]).length + text.length + 1 = pre.length + (x :: text).length + 1 := by
      rw [List.length_append, List.length_singleton, List.length_cons]
      omega
    rw [hend] at hrest
    refine LoopReturns.turn ?_ hrest
    rw [if_pos ⟨hlt, hget.trans_ne (Ne.symm htext.1)⟩, hnext]
    exact Returns.pure _ s

theorem skipField_returns {text : Option (List UInt8)} (htext : ∀ t ∈ text, 0 ∉ t) {inp pre post : List UInt8}
    (hinp : inp = pre ++ (textBytes text ++ post)) (hlen : inp.length < 2 ^ 32) (s : St) :
    Returns (fun n => skipField text.isSome inp n pre.length) s (pre ++ textBytes text).length s := by
  subst hinp
  cases text with
  | none =>
    have hpre : pre ++ textBytes none = pre := List.append_nil pre
    rw [hpre]
    exact Returns.pure _ s
  | some t =>
    have hbytes : pre ++ (textBytes (some t) ++ post) = pre ++ (t ++ 0 :: post) := by
      rw [textBytes, Option.elim_some, List.append_assoc]
      rfl
    have hend : (pre ++ textBytes (some t)).length = pre.length + t.length + 1 := by
      rw [textBytes, Option.elim_some, List.length_append, List.length_append, List.length_singleton]
      rfl
    rw [hbytes] at hlen ⊢
    rw [hend]
    exact (skipText_returns (htext t rfl) pre post hlen s).returns

theorem flags_bits (m : Member) : (m.flags &&& 0x02 = 0 ↔ m.headerCrc.isSome = false) ∧
    (m.flags &&& 0x04 = 0 ↔ m.extra.isSome = false) ∧
    (m.flags &&& 0x08 ≠ 0 : Bool) = m.name.isSome ∧
    (m.flags &&& 0x10 ≠ 0 : Bool) = m.comment.isSome := by
  rw [Member.flags]
  generalize m.text = text
  generalize m.headerCrc.isSome = hcrc
  generalize m.extra.isSome = extra
  generalize m.name.isSome = name
  generalize m.comment.isSome = comment
  revert text hcrc extra name comment
  decide

theorem toNat_numByte (v i : ℕ) : (UInt8.ofNat (v / 256 ^ i)).toNat = v / 256 ^ i % 256 := UInt8.toNat_ofNat'

def Member.extraBytes (m : Member) : List UInt8 := m.extra.elim [] fun l => numBytes 2 l.length ++ l

/-- What follows the ten bytes that every header begins with. -/
def Member.optional (m : Member) : List UInt8 :=
  m.extraBytes ++ textBytes m.name ++ textBytes m.comment ++ m.headerCrc.getD []

def Member.start (m : Member) : List UInt8 := [0x1F, 0x8B, 8, m.flags] ++ m.info

theorem Member.header_eq (m : Member) : m.header = m.start ++ m.optional := by
  simp only [Member.header, Member.start, Member.optional, Member.extraBytes, List.append_assoc]

theorem Member.length_start (m : Member) : m.start.length = 10 := by
  rw [Member.start, List.length_append, m.info_size]
  rfl

/-- The position behind the extra field. -/
theorem extra_pos (m : Member) {inp tail : List UInt8} (hinp : inp = m.start ++ (m.extraBytes ++ tail)) :
    (m.flags &&& 0x04 = 0 || 12 ≤ inp.length) = true ∧
    (if m.flags &&& 0x04 = 0 then 10 else 12 + ((inp.getD 10 0).toNat ||| (inp.getD 11 0).toNat <<< 8)) =
      (m.start ++ m.extraBytes).length := by
  have hstart := m.length_start
  have hflag := (flags_bits m).2.1
  rcases hextra : m.extra with _ | l
  · have hzero : m.flags &&& 0x04 = 0 := hflag.2 (by rw [hextra]; rfl)
    have hbytes : m.extraBytes = [] := by rw [Member.extraBytes, hextra]; rfl
    rw [if_pos hzero, hbytes, List.append_nil, hstart, decide_eq_true hzero]
    exact ⟨rfl, rfl⟩
  · have hset : ¬m.flags &&& 0x04 = 0 := fun h => by
      have := hflag.1 h
      rw [hextra] at this
      cases this
    have hbytes : m.extraBytes = UInt8.ofNat (l.length / 256 ^ 0) :: UInt8.ofNat (l.length / 256 ^ 1) :: l := by
      rw [Member.extraBytes, hextra]
      rfl
    have hsize := m.extra_size l hextra
    have hlow : inp.getD 10 0 = UInt8.ofNat (l.length / 256 ^ 0) := by
      rw [hinp, hbytes, List.getD_append_right _ _ _ _ hstart.le, hstart]
      rfl
    have hhigh : inp.getD 11 0 = UInt8.ofNat (l.length / 256 ^ 1) := by
      rw [hinp, hbytes, List.getD_append_right _ _ _ _ (by omega), hstart]
      rfl
    have hlen : (m.start ++ m.extraBytes).length = 12 + l.length := by
      rw [hbytes, List.length_append, hstart, List.length_cons, List.length_cons]
      omega
    have hin : 12 ≤ inp.length := by
      rw [hinp, ← List.append_assoc, List.length_append, hlen]
      omega
    have hvalue : l.length / 256 ^ 0 % 256 ||| (l.length / 256 ^ 1 % 256) <<< 8 = l.length := by
      rw [Nat.or_comm, ← Nat.shiftLeft_add_eq_or_of_lt (i := 8) (Nat.mod_lt _ (by decide)), Nat.shiftLeft_eq]
      omega
    rw [if_neg hset, hlow, hhigh, toNat_numByte, toNat_numByte, hvalue, hlen, decide_eq_true hin, Bool.or_true]
    exact ⟨rfl, rfl⟩

theorem gzipHeader_returns (m : Member) {inp tail : List UInt8} (hinp : inp = m.header ++ tail)
    (hlen : inp.length < 2 ^ 32)
    (htail : 8 < tail.length) (s : St) : Returns (gzipHeader inp) s m.header.length s := by
  obtain ⟨hcrcFlag, -, hname, hcomment⟩ := flags_bits m
  have hstart := m.length_start
  have hlayout : inp = m.start ++ (m.extraBytes ++
    (textBytes m.name ++ (textBytes m.comment ++ (m.headerCrc.getD [] ++ tail)))) := by
    rw [hinp, m.header_eq, Member.optional]
    simp only [List.append_assoc]
  have hbehindExtra : inp = m.start ++ m.extraBytes ++
    (textBytes m.name ++ (textBytes m.comment ++ (m.headerCrc.getD [] ++ tail))) := by
    rw [hlayout, List.append_assoc]
  have hbehindName : inp = m.start ++ m.extraBytes ++ textBytes m.name ++
    (textBytes m.comment ++ (m.headerCrc.getD [] ++ tail)) := by
    rw [hbehindExtra]
    simp only [List.append_assoc]
  have hmagic : inp.getD 0 0 = 0x1F ∧ inp.getD 1 0 = 0x8B ∧ inp.getD 2 0 = 8 ∧ inp.getD 3 0 = m.flags := by
    rw [hlayout]
    exact ⟨rfl, rfl, rfl, rfl⟩
  have htotal : inp.length = m.header.length + tail.length := by rw [hinp, List.length_append]
  have hheader : m.header.length = 10 + m.optional.length := by rw [m.header_eq, List.length_append, hstart]
  obtain ⟨hextra, hpos⟩ := extra_pos m hlayout
  unfold gzipHeader
  rw [hmagic.1, hmagic.2.1, hmagic.2.2.1, hmagic.2.2.2]
  refine (check_returns (decide_eq_true (by omega))).bind ?_
  refine (check_returns rfl).bind ?_
  refine (check_returns rfl).bind ?_
  refine (check_returns hextra).bind ?_
  simp only
  rw [hpos, hname, hcomment]
  refine (skipField_returns m.name_text hbehindExtra hlen s).bind ?_
  refine (skipField_returns m.comment_text hbehindName hlen s).bind ?_
  have hend : (if m.flags &&& 0x02 = 0 then (m.start ++ m.extraBytes ++ textBytes m.name ++ textBytes m.comment).length
      else u32 ((m.start ++ m.extraBytes ++ textBytes m.name ++ textBytes m.comment).length + 2)) =
        m.header.length := by
    have hheader' : m.header = m.start ++ m.extraBytes ++ textBytes m.name ++ textBytes m.comment ++
      m.headerCrc.getD [] := by
      rw [m.header_eq, Member.optional]
      simp only [List.append_assoc]
    rcases hsome : m.headerCrc with _ | l
    · rw [if_pos (hcrcFlag.2 (by rw [hsome]; rfl)), hheader', hsome, Option.getD_none, List.append_nil]
    · have hset : ¬m.flags &&& 0x02 = 0 := fun h => by
        have := hcrcFlag.1 h
        rw [hsome] at this
        cases this
      have hlast := m.headerCrc_size l hsome
      rw [hsome, Option.getD_some] at hheader'
      have hsum : m.header.length = (m.start ++ m.extraBytes ++ textBytes m.name ++ textBytes
        m.comment).length + 2 := by
        rw [hheader', List.length_append, hlast]
      rw [if_neg hset, u32, Nat.mod_eq_of_lt (by omega), hsum]
  rw [hend]
  refine (check_returns (decide_eq_true (by omega))).bind ?_
  exact Returns.pure _ s

theorem crc32Step_toBitVec (crc : UInt32) : (crc32Step crc).toBitVec = shift (0xEDB88320#32) crc.toBitVec := by
  have hbit : crc &&& 1 = 0 ↔ crc.toBitVec.getLsbD 0 = false := by
    rw [← UInt32.toBitVec_inj, UInt32.toBitVec_and, show (1 : UInt32).toBitVec = 1#32 from rfl,
      BitVec.and_one_eq_setWidth_ofBool_getLsbD]
    cases crc.toBitVec.getLsbD 0 <;> decide
  rw [crc32Step, UInt32.toBitVec_xor, shift]
  refine congrArg₂ (· ^^^ ·) (by simp) ?_
  by_cases h : crc &&& 1 = 0
  · rw [if_pos h, hbit.1 h]
    rfl
  · rw [if_neg h, Bool.of_not_eq_false fun hf => h (hbit.2 hf)]
    rfl

theorem crc32_eq (data : List UInt8) : (crc32 data).toNat = dataCrc data := by
  have hrounds (n : ℕ) (c : UInt32) : (Nat.repeat crc32Step n c).toBitVec = (shift (0xEDB88320#32))^[n] c.toBitVec := by
    induction n with
    | zero => rfl
    | succ n ih => rw [Nat.repeat, crc32Step_toBitVec, ih, Function.iterate_succ_apply']
  have hfold (c : UInt32) : (data.foldl (fun crc b => Nat.repeat crc32Step 8 (crc ^^^ b.toUInt32))
      c).toBitVec = Crc.run (0xEDB88320#32) c.toBitVec (bitsOf data) := by
    induction data generalizing c with
    | nil => rfl
    | cons x data ih =>
      rw [List.foldl_cons, ih, bitsOf_cons, run_append, run_byte (by decide), hrounds, UInt32.toBitVec_xor]
      rfl
  rw [crc32, ← UInt32.toNat_toBitVec, UInt32.toBitVec_xor, hfold, dataCrc, ← BitVec.xor_allOnes]
  rfl

theorem le32_numBytes (pre post : List UInt8) {v : ℕ} (hv : v < 2 ^ 32) :
    le32 (pre ++ (numBytes 4 v ++ post)) pre.length = v := by
  have hbyte (i : ℕ) (hi : i < 4) : ((pre ++ (numBytes 4 v ++ post)).getD (pre.length + i) 0).toNat
    = v / 256 ^ i % 256 := by
    have hlt : i < (numBytes 4 v).length := by rwa [length_numBytes]
    rw [List.getD_append_right _ _ _ _ (Nat.le_add_right _ _), Nat.add_sub_cancel_left,
      List.getD_append _ _ _ _ hlt, List.getD_eq_getElem _ _ hlt, ← toNat_numByte]
    simp only [numBytes, List.getElem_map, List.getElem_range]
  have hor (n a b : ℕ) (ha : a < 2 ^ n) : a ||| b <<< n = a + b * 2 ^ n := by
    rw [Nat.or_comm, ← Nat.shiftLeft_add_eq_or_of_lt ha, Nat.shiftLeft_eq, Nat.add_comm]
  have h₀ := hbyte 0 (by decide)
  rw [Nat.add_zero] at h₀
  rw [le32, h₀, hbyte 1 (by decide), hbyte 2 (by decide), hbyte 3 (by decide), hor 8 _ _ (by omega),
    hor 16 _ _ (by omega), hor 24 _ _ (by omega)]
  omega

theorem gzipTrailer_returns (m : Member) {inp pre rest : List UInt8}
    (hinp : inp = pre ++ (m.body ++ (numBytes 4 (dataCrc m.data) ++
    (numBytes 4 m.data.length ++ rest)))) (hlen : inp.length < 2 ^ 32)
    (hdata : m.data.length < 2 ^ 31) {s : St}
    (hs : At (inp.drop pre.length) cap (m.pad ++ bitsOf
    (numBytes 4 (dataCrc m.data) ++ (numBytes 4 m.data.length ++ rest))) m.data s) :
    ∃ s', Returns (fun _ => gzipTrailer inp pre.length) s (m.data.length : ℤ) s' ∧ s'.out.data = m.data := by
  have hdrop : inp.drop pre.length = m.body ++ (numBytes 4 (dataCrc m.data) ++ (numBytes 4 m.data.length ++ rest)) := by
    rw [hinp, List.drop_left]
  rw [hdrop] at hs
  obtain ⟨haligned, hnbits⟩ := hs.bits.align m.pad_lt (by rw [length_bitsOf]; omega)
  have hpos := haligned.srcPos hnbits
  have htotal := congrArg List.length hinp
  simp only [List.length_append, length_numBytes] at htotal hpos
  rw [length_bitsOf, List.length_append, List.length_append, length_numBytes, length_numBytes] at hpos
  set s₁ : St := { s with bs := bsAlign s.bs } with hs₁
  have hout : s₁.out.data = m.data := by rw [hs₁, hs.data]
  have htrailer : u32 (pre.length + (s₁.bs.srcPos + (2 ^ 32 - s₁.bs.nbits / 8))) = (pre ++ m.body).length := by
    have hsrc : s₁.bs.srcPos = m.body.length := by
      change (bsAlign s.bs).srcPos = _
      omega
    have hbits : s₁.bs.nbits = 0 := hnbits
    rw [hsrc, hbits, Nat.zero_div, Nat.sub_zero, u32, List.length_append]
    omega
  have hcrc : le32 inp (pre ++ m.body).length = dataCrc m.data := by
    rw [hinp, ← List.append_assoc]
    exact le32_numBytes _ _ (BitVec.isLt _)
  have hsize : le32 inp ((pre ++ m.body).length + 4) = m.data.length := by
    have hbehind : inp = pre ++ m.body ++ numBytes 4 (dataCrc m.data) ++ (numBytes 4 m.data.length ++ rest) := by
      rw [hinp]
      simp only [List.append_assoc]
    have hat : (pre ++ m.body).length + 4 = (pre ++ m.body ++ numBytes 4 (dataCrc m.data)).length := by
      simp only [List.length_append, length_numBytes]
    rw [hat, hbehind]
    exact le32_numBytes _ _ (by omega)
  refine ⟨s₁, (Returns.of_run rfl : Returns (fun _ => align) s () s₁).bind ?_, hout⟩
  refine (Returns.of_run rfl : Returns (fun _ => get) s₁ s₁ s₁).bind ?_
  simp only
  rw [htrailer, hcrc, hsize, hout]
  refine (check_returns (decide_eq_true ?_)).bind ?_
  · rw [u32, List.length_append]
    omega
  refine (check_returns (decide_eq_true rfl)).bind ?_
  refine (check_returns (decide_eq_true ?_)).bind ?_
  · rw [← crc32_eq, UInt32.ofNat_toNat]
  · have hint : int32 m.data.length = m.data.length := by
      rw [int32, BitVec.toInt_ofNat', Int.bmod_eq_of_le (by omega) (by omega)]
    rw [hint]
    exact Returns.pure _ s₁

theorem bitsOf_append (a b : List UInt8) : bitsOf (a ++ b) = bitsOf a ++ bitsOf b := by
  induction a with
  | nil => rfl
  | cons x a ih => rw [List.cons_append, bitsOf_cons, bitsOf_cons, ih, List.append_assoc]

/-- `inflate_gzip` decodes every well-formed member that fits, whatever its blocks and the fields of
its header are, and whatever follows it: it returns the length of the data, and the output buffer
holds the data. -/
theorem inflateGzip_decodes (m : Member) (rest : List UInt8) {outCap : ℕ} (hlen : (m.bytes ++ rest).length < 2 ^ 32)
    (hdata : m.data.length < 2 ^ 31) (hcap : m.data.length ≤ outCap) :
    ∀ fuel, 8 * (m.bytes ++ rest).length + outCap + 317 ≤ fuel →
      inflateGzip fuel (m.bytes ++ rest) outCap = some ((m.data.length : ℤ), m.data) := by
  set tail := numBytes 4 (dataCrc m.data) ++ (numBytes 4 m.data.length ++ rest) with htail
  have hinp : m.bytes ++ rest = m.header ++ (m.body ++ tail) := by
    rw [Member.bytes, htail]
    simp only [List.append_assoc]
  have hbody : m.body ≠ [] := by
    intro hnil
    have hbits := congrArg List.length m.body_bits
    rw [hnil, length_bitsOf, List.length_append] at hbits
    obtain ⟨b, blocks, hblocks⟩ := List.exists_cons_of_ne_nil m.blocks_ne
    rw [hblocks, streamBits, List.length_cons] at hbits
    simp only [List.length_nil] at hbits
    omega
  have hlong : 8 < (m.body ++ tail).length := by
    have hpos := List.length_pos_iff.2 hbody
    rw [htail, List.length_append, List.length_append, List.length_append, length_numBytes, length_numBytes]
    omega
  set s₀ : St := { bs := ⟨[], 0, 0, 0⟩, out := ⟨[], outCap⟩ } with hs₀
  set s₁ : St := { s₀ with bs := { src := (m.bytes ++ rest).drop m.header.length, srcPos := 0, bits := 0, nbits := 0 } } with hs₁
  have hdrop : (m.bytes ++ rest).drop m.header.length = m.body ++ tail := by rw [hinp, List.drop_left]
  have hbits : bitsOf (m.body ++ tail) = streamBits m.blocks ++ (m.pad ++ bitsOf tail) := by
    rw [bitsOf_append, m.body_bits, List.append_assoc]
  have hat : At ((m.bytes ++ rest).drop m.header.length) outCap
    (streamBits m.blocks ++ (m.pad ++ bitsOf tail)) [] s₁ := by
    refine ⟨?_, rfl⟩
    rw [← hbits, ← hdrop]
    exact holds_start _
  have haligned : (0 + (streamBits m.blocks).length + (m.pad ++ bitsOf tail).length) % 8 = 0 := by
    have hsize := congrArg List.length hbits
    rw [length_bitsOf] at hsize
    simp only [List.length_append] at hsize ⊢
    omega
  obtain ⟨s₂, hblocks, hs₂⟩ := (blocks_read m.blocks_ne m.blocks_valid haligned hcap).reads s₁ hat
  obtain ⟨s₃, htrailer, hout⟩ := gzipTrailer_returns m hinp hlen hdata hs₂
  have hreturns : Returns (gzipBody (m.bytes ++ rest)) s₀ (m.data.length : ℤ) s₃ :=
    (gzipHeader_returns m hinp hlen hlong s₀).bind
      ((Returns.of_run rfl : Returns (fun _ => modify _) s₀ () s₁).bind (hblocks.bind htrailer))
  intro fuel hfuel
  obtain ⟨r, s, hrun, -⟩ := gzipBody_ends hlen hfuel s₀ rfl
  have heq := hreturns.run_eq (gzipBody_steady (m.bytes ++ rest)) hrun
  obtain ⟨rfl, rfl⟩ := Prod.mk.inj heq
  rw [inflateGzip, hrun]
  exact congrArg (fun data => some ((m.data.length : ℤ), data)) hout

def fourLetters : Member where
  text := false
  info := List.replicate 6 0
  extra := none
  name := some [97]
  comment := none
  headerCrc := none
  blocks := [.fixed [.literal 97, .copy 0 0 0 0]]
  body := [75, 4, 2, 0]
  pad := [false, false]
  info_size := rfl
  extra_size := fun _ h => by cases h
  name_text := fun _ h => by
    obtain rfl := Option.some.inj h
    decide
  comment_text := fun _ h => by cases h
  headerCrc_size := fun _ h => by cases h
  blocks_ne := List.cons_ne_nil _ _
  blocks_valid := by
    have hletter : fixedLit.getD 97 0 ≠ 0 := by decide
    exact ⟨⟨hletter, ⟨by decide, by decide, by decide, by decide, by decide, by decide, by decide⟩, trivial⟩, trivial⟩
  body_bits := by decide +kernel
  pad_lt := by decide

theorem inflateGzip_decodes_fourLetters : inflateGzip 521 (fourLetters.bytes ++ [0]) 4 = some
    (4, [97, 97, 97, 97]) := by
  have hdata : fourLetters.data = [97, 97, 97, 97] := by decide
  have hroom : fourLetters.data.length ≤ 4 := by rw [hdata]; decide
  have h := inflateGzip_decodes fourLetters [0] (by decide) (by rw [hdata]; decide) hroom
  rw [hdata] at h
  exact h 521 (by decide)

end ComputerOS.Inflate
