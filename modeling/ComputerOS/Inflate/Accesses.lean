import ComputerOS.Inflate.Termination
import ComputerOS.Lib.Traced

/-!
The decompressor with the places of the arrays that it reads and writes, the widths of its shifts,
and the bits that it takes from the stream. What the functions compute is left to those of the
model; without the events they are the same.
-/
namespace ComputerOS.Inflate

open Looping

inductive Event where
  /-- Element `i` of an array of `size` elements. -/
  | access (i size : ℕ)
  /-- A shift of a 32-bit number. -/
  | shift (n : ℕ)
  /-- Bits are taken from the stream. -/
  | drop (n : ℕ)
deriving DecidableEq

def Event.Ok : Event → Prop
  | access i size => i < size
  | shift n => n < 32
  | drop _ => True

def Event.bits : Event → ℕ
  | drop n => n
  | _ => 0

/-- The bits that have been taken from the stream. -/
def dropped (log : List Event) : ℕ := (log.map Event.bits).sum

namespace Accesses

open Event

abbrev T := Looping (Traced St Event)

def bsFillEvents (n : ℕ) : ℕ → Bitstream → List Event
  | 0, _ => []
  | turns + 1, bs =>
      if bs.nbits < n then
        (if bs.srcPos < bs.src.length then [access bs.srcPos bs.src.length, shift bs.nbits] else [])
          ++ bsFillEvents n turns (bsFillByte bs)
      else []

def bsReadEvents (n : ℕ) (bs : Bitstream) : List Event := bsFillEvents n n bs ++ [shift n, shift n, drop n]

def bsAlignEvents (bs : Bitstream) : List Event := [shift (bs.nbits &&& 7), drop (bs.nbits &&& 7)]

def readBits (n : ℕ) : T ℕ := traced (fun s => bsReadEvents n s.bs) (Inflate.readBits n)

def align : T Unit := traced (fun s => bsAlignEvents s.bs) Inflate.align

def readU16 : T ℕ := do
  align
  let lo ← readBits 8
  let hi ← readBits 8
  note [shift 8]
  pure (lo ||| hi <<< 8)

/-- An array with an element for each length. -/
def perLength (i : ℕ) : Event := access i (HUFF_MAX_BITS + 1)

/-- The loop that counts, over the lengths from place `i` on. -/
def countEvents (size : ℕ) : ℕ → List ℕ → List Event
  | _, [] => []
  | i, l :: lens => access i size :: if HUFF_MAX_BITS < l then [] else perLength l :: countEvents size (i + 1) lens

/-- The loop that fills the symbol table, over the lengths from place `i` on. -/
def fillEvents (size : ℕ) : ℕ → List ℕ → List ℕ → List Event
  | _, [], _ => []
  | i, l :: lens, offsets =>
      access i size :: if 0 < l then perLength l :: access (offsets.getD l 0) HUFF_MAX_SYMS ::
        fillEvents size (i + 1) lens (offsets.set l (offsets.getD l 0 + 1))
      else fillEvents size (i + 1) lens offsets

def huffBuildEvents (base size : ℕ) (lengths : List ℕ) : List Event :=
  (List.range (HUFF_MAX_BITS + 1)).map perLength ++ countEvents size base lengths ++
    match huffBuild lengths with
    | none => []
    | some h =>
        perLength 0 :: (List.range' 1 HUFF_MAX_BITS).flatMap (fun i => [perLength i, shift 1]) ++
          (List.range' 1 HUFF_MAX_BITS).map perLength ++ (List.range' 1 HUFF_MAX_BITS).map perLength ++
          fillEvents size base lengths h.baseSym

def huffDecodeEvents (h : Huffman) : List ℕ → ℕ → Bitstream → List Event
  | [], _, _ => []
  | len :: lens, code, bs =>
      let r := bsRead 1 bs
      let code := (code <<< 1) ||| r.1
      bsReadEvents 1 bs ++ shift 1 :: perLength len ::
        if h.count.getD len 0 = 0 then huffDecodeEvents h lens code r.2
        else if h.baseCode.getD len 0 ≤ code ∧ code < h.baseCode.getD len 0 + h.count.getD len 0 then
          let idx := h.baseSym.getD len 0 + (code - h.baseCode.getD len 0)
          perLength len :: if h.nsyms ≤ idx then [] else [access idx HUFF_MAX_SYMS]
        else huffDecodeEvents h lens code r.2

def decode (h : Huffman) : T ℕ :=
  traced (fun s => huffDecodeEvents h (List.range' 1 HUFF_MAX_BITS) 0 s.bs) (Inflate.decode h)

def build (base size : ℕ) (lengths : List ℕ) : T Huffman :=
  traced (fun _ => huffBuildEvents base size lengths) (Inflate.build lengths)

/-- `build_fixed_tables`, when the tables are not there yet. -/
def fixedEvents : List Event :=
  (List.range HUFF_MAX_SYMS).map (access · 288) ++
    huffBuildEvents 0 288 (List.replicate 144 8 ++ List.replicate 112 9 ++ List.replicate 24 7 ++ List.replicate 8 8) ++
    (List.range 30).map (access · 288) ++ huffBuildEvents 0 288 (List.replicate 30 5)

/-- The state, for the functions that look at it. -/
def getSt : T St := traced (fun _ => []) get

def outByte (b : UInt8) : T Unit := traced
  (fun s => if s.out.cap ≤ s.out.data.length then [] else [access s.out.data.length s.out.cap])
  (Inflate.outByte b)

def outCopyBytes (dist : ℕ) : ℕ → T Unit
  | 0 => pure ()
  | len + 1 => do
    let s ← getSt
    note [access (u32 (s.out.data.length + (2 ^ 32 - dist))) s.out.cap]
    outByte (s.out.data.getD (s.out.data.length - dist) 0)
    outCopyBytes dist len

def outCopy (dist len : ℕ) : T Unit := do
  let s ← getSt
  check (dist ≤ s.out.data.length)
  outCopyBytes dist len

def backReference (distH : Huffman) (lcode : ℕ) : T Unit := do
  check (lcode < 29)
  note [access lcode 29, access lcode 29]
  let extra ← readBits (lenExtra.getD lcode 0)
  let dcode ← decode distH
  check (dcode < 30)
  note [access dcode 30, access dcode 30]
  let extraDist ← readBits (distExtra.getD dcode 0)
  outCopy (distBase.getD dcode 0 + extraDist) (lenBase.getD lcode 0 + extra)

def symbolTurn (litlen distH : Huffman) : T (Unit ⊕ Unit) := do
  let sym ← decode litlen
  if sym < 256 then do
    outByte (UInt8.ofNat sym)
    pure (.inl ())
  else if sym = 256 then pure (.inr ())
  else do
    backReference distH (sym - 257)
    pure (.inl ())

def inflateBlock (fuel : ℕ) (litlen distH : Huffman) : T Unit := loop (fun _ => symbolTurn litlen distH) fuel ()

/-- The lengths of the code length alphabet, from place `i` of the order on. -/
def readClLengths : ℕ → List ℕ → List ℕ → T (List ℕ)
  | _, [], lens => pure lens
  | i, place :: places, lens => do
    let l ← readBits 3
    note [access i 19, access place 19]
    readClLengths (i + 1) places (lens.set place l)

def allLengths (i : ℕ) : Event := access i (286 + 30)

def repeatEvents (total : ℕ) : ℕ → ℕ → List Event
  | 0, _ => []
  | rep + 1, i => if i < total then allLengths i :: repeatEvents total rep (i + 1) else []

def codeLengthTurn (clTree : Huffman) (total : ℕ) (lens : List ℕ) : T (List ℕ ⊕ List ℕ) :=
  if total ≤ lens.length then pure (.inr lens)
  else do
    let sym ← decode clTree
    if sym < 16 then do
      note [allLengths lens.length]
      pure (.inl (lens ++ [sym]))
    else if sym = 16 then do
      check (lens.length ≠ 0)
      let rep ← readBits 2
      note (allLengths (lens.length - 1) :: repeatEvents total (rep + 3) lens.length)
      pure (.inl (repeatLength total (lens.getD (lens.length - 1) 0) (rep + 3) lens))
    else if sym = 17 then do
      let rep ← readBits 3
      note (repeatEvents total (rep + 3) lens.length)
      pure (.inl (repeatLength total 0 (rep + 3) lens))
    else if sym = 18 then do
      let rep ← readBits 7
      note (repeatEvents total (rep + 11) lens.length)
      pure (.inl (repeatLength total 0 (rep + 11) lens))
    else fail

def inflateDynamic (fuel : ℕ) : T Unit := do
  let hlit := (← readBits 5) + 257
  let hdist := (← readBits 5) + 1
  let hclen := (← readBits 4) + 4
  check (hlit ≤ 286 && hdist ≤ 30 && hclen ≤ 19)
  note ((List.range 19).map (access · 19))
  let clLengths ← readClLengths 0 (codelenOrder.take hclen) (List.replicate 19 0)
  let clTree ← build 0 19 clLengths
  let lens ← loop (codeLengthTurn clTree (hlit + hdist)) fuel []
  let litlenTree ← build 0 (286 + 30) (lens.take hlit)
  let distTree ← build hlit (286 + 30) (lens.drop hlit)
  inflateBlock fuel litlenTree distTree

def storedBytes : ℕ → T Unit
  | 0 => pure ()
  | n + 1 => do
    let b ← readBits 8
    outByte (UInt8.ofNat b)
    storedBytes n

def storedBlock : T Unit := do
  align
  let blen ← readU16
  let bnlen ← readU16
  check (blen ^^^ bnlen = 0xFFFF)
  storedBytes blen

def block (fuel btype : ℕ) : T Unit :=
  if btype = 0 then storedBlock
  else if btype = 1 then inflateBlock fuel fixedLitlen fixedDist
  else if btype = 2 then inflateDynamic fuel
  else fail

def blockTurn (fuel : ℕ) : T (Unit ⊕ Unit) := do
  let finalBlock ← readBits 1
  let btype ← readBits 2
  block fuel btype
  pure (if finalBlock = 0 then .inl () else .inr ())

def skipText (inp : List UInt8) (fuel pos : ℕ) : T ℕ :=
  loop (fun pos => do
    note (if pos < inp.length then [access pos inp.length] else [])
    pure (if pos < inp.length ∧ inp.getD pos 0 ≠ 0 then .inl (u32 (pos + 1)) else .inr (u32 (pos + 1)))) fuel pos

def skipField (flag : Bool) (inp : List UInt8) (fuel pos : ℕ) : T ℕ :=
  if flag then skipText inp fuel pos else pure pos

def gzipHeader (inp : List UInt8) (fuel : ℕ) : T ℕ := do
  check (18 ≤ inp.length)
  note [access 0 inp.length, access 1 inp.length]
  check (inp.getD 0 0 = 0x1F && inp.getD 1 0 = 0x8B)
  note [access 2 inp.length]
  check (inp.getD 2 0 = 8)
  note [access 3 inp.length]
  let flags := inp.getD 3 0
  check (flags &&& 0x04 = 0 || 12 ≤ inp.length)
  note (if flags &&& 0x04 = 0 then [] else [access 10 inp.length, access 11 inp.length, shift 8])
  let xlen := (inp.getD 10 0).toNat ||| (inp.getD 11 0).toNat <<< 8
  let pos := if flags &&& 0x04 = 0 then 10 else 12 + xlen
  let pos ← skipField (flags &&& 0x08 ≠ 0) inp fuel pos
  let pos ← skipField (flags &&& 0x10 ≠ 0) inp fuel pos
  let pos := if flags &&& 0x02 = 0 then pos else u32 (pos + 2)
  check (pos < inp.length)
  pure pos

/-- A 32-bit number of the trailer. -/
def le32Events (inp : List UInt8) (pos : ℕ) : List Event :=
  [access pos inp.length, access (pos + 1) inp.length, shift 8, access (pos + 2) inp.length,
    shift 16, access (pos + 3) inp.length, shift 24]

def crc32Events (len cap : ℕ) : List Event :=
  (List.range len).flatMap fun i => access i cap :: List.replicate 8 (shift 1)

def gzipTrailer (inp : List UInt8) (pos : ℕ) : T ℤ := do
  align
  let s ← getSt
  let trailerPos := u32 (pos + (s.bs.srcPos + (2 ^ 32 - s.bs.nbits / 8)))
  check (u32 (trailerPos + 8) ≤ inp.length)
  note (le32Events inp trailerPos ++ le32Events inp (trailerPos + 4))
  check (le32 inp (trailerPos + 4) = s.out.data.length)
  note (crc32Events s.out.data.length s.out.cap)
  check (crc32 s.out.data = UInt32.ofNat (le32 inp trailerPos))
  pure (int32 s.out.data.length)

/-- All before the trailer: the position behind the header. -/
def gzipDeflate (inp : List UInt8) (fuel : ℕ) : T ℕ := do
  note fixedEvents
  let pos ← gzipHeader inp fuel
  traced (fun _ => []) (modify fun s => { s with bs := { src := inp.drop pos, srcPos := 0, bits := 0, nbits := 0 } })
  loop (fun _ => blockTurn fuel) fuel ()
  pure pos

def gzipBody (inp : List UInt8) (fuel : ℕ) : T ℤ := do
  let pos ← gzipDeflate inp fuel
  gzipTrailer inp pos

theorem readBits_erases (n : ℕ) : Erases (readBits n) (Inflate.readBits n) := Erases.traced _ _

theorem align_erases : Erases align Inflate.align := Erases.traced _ _

theorem readU16_erases : Erases readU16 Inflate.readU16 :=
  align_erases.bind fun _ => (readBits_erases 8).bind fun _ => (readBits_erases 8).bind fun _ =>
    Erases.note_bind (Erases.pure _)

theorem decode_erases (h : Huffman) : Erases (decode h) (Inflate.decode h) := Erases.traced _ _

theorem build_erases (base size : ℕ) (lengths : List ℕ) : Erases (build base size lengths) (Inflate.build lengths) :=
  Erases.traced _ _

theorem getSt_erases : Erases getSt get := Erases.traced _ _

theorem outByte_erases (b : UInt8) : Erases (outByte b) (Inflate.outByte b) := Erases.traced _ _

theorem outCopyBytes_erases (dist len : ℕ) : Erases (outCopyBytes dist len) (Inflate.outCopyBytes dist len) := by
  induction len with
  | zero => exact Erases.pure ()
  | succ len ih => exact getSt_erases.bind fun s => Erases.note_bind ((outByte_erases _).bind fun _ => ih)

theorem outCopy_erases (dist len : ℕ) : Erases (outCopy dist len) (Inflate.outCopy dist len) :=
  getSt_erases.bind fun _ => (Erases.check _).bind fun _ => outCopyBytes_erases dist len

theorem backReference_erases (distH : Huffman) (lcode : ℕ) :
    Erases (backReference distH lcode) (Inflate.backReference distH lcode) :=
  (Erases.check _).bind fun _ => Erases.note_bind <| (readBits_erases _).bind fun _ =>
  (decode_erases distH).bind fun _ =>
    (Erases.check _).bind fun _ => Erases.note_bind <| (readBits_erases _).bind fun _ => outCopy_erases _ _

theorem symbolTurn_erases (litlen distH : Huffman) : Erases (symbolTurn litlen distH)
    (Inflate.symbolTurn litlen distH) := by
  refine (decode_erases litlen).bind fun sym => ?_
  refine Erases.ite ((outByte_erases _).bind fun _ => Erases.pure _) (Erases.ite (Erases.pure _) ?_)
  exact (backReference_erases distH _).bind fun _ => Erases.pure _

theorem inflateBlock_erases (fuel : ℕ) (litlen distH : Huffman) :
    Erases (inflateBlock fuel litlen distH) (Inflate.inflateBlock fuel litlen distH) :=
  Erases.loop (fun _ => symbolTurn_erases litlen distH) fuel ()

theorem readClLengths_erases (i : ℕ) (places lens : List ℕ) :
    Erases (readClLengths i places lens) (Inflate.readClLengths places lens) := by
  induction places generalizing i lens with
  | nil => exact Erases.pure _
  | cons place places ih => exact (readBits_erases 3).bind fun l => Erases.note_bind (ih _ _)

theorem codeLengthTurn_erases (clTree : Huffman) (total : ℕ) (lens : List ℕ) :
    Erases (codeLengthTurn clTree total lens) (Inflate.codeLengthTurn clTree total lens) := by
  refine Erases.ite (Erases.pure _) ((decode_erases clTree).bind fun sym => ?_)
  refine Erases.ite (Erases.note_bind (Erases.pure _)) (Erases.ite ?_ (Erases.ite ?_ (Erases.ite ?_ Erases.fail)))
  · exact (Erases.check _).bind fun _ => (readBits_erases 2).bind fun _ => Erases.note_bind (Erases.pure _)
  · exact (readBits_erases 3).bind fun _ => Erases.note_bind (Erases.pure _)
  · exact (readBits_erases 7).bind fun _ => Erases.note_bind (Erases.pure _)

theorem inflateDynamic_erases (fuel : ℕ) : Erases (inflateDynamic fuel) (Inflate.inflateDynamic fuel) := by
  refine (readBits_erases 5).bind fun _ => (readBits_erases 5).bind fun _ => (readBits_erases 4).bind fun _ => ?_
  refine (Erases.check _).bind fun _ => Erases.note_bind ((readClLengths_erases _ _ _).bind fun _ => ?_)
  refine (build_erases _ _ _).bind fun clTree => ?_
  refine (Erases.loop (codeLengthTurn_erases clTree _) fuel []).bind fun lens => ?_
  exact (build_erases _ _ _).bind fun _ => (build_erases _ _ _).bind fun _ => inflateBlock_erases fuel _ _

theorem storedBytes_erases (n : ℕ) : Erases (storedBytes n) (Inflate.storedBytes n) := by
  induction n with
  | zero => exact Erases.pure ()
  | succ n ih => exact (readBits_erases 8).bind fun _ => (outByte_erases _).bind fun _ => ih

theorem storedBlock_erases : Erases storedBlock Inflate.storedBlock :=
  align_erases.bind fun _ => readU16_erases.bind fun _ => readU16_erases.bind fun _ =>
  (Erases.check _).bind fun _ =>
    storedBytes_erases _

theorem block_erases (fuel btype : ℕ) : Erases (block fuel btype) (Inflate.block fuel btype) :=
  Erases.ite storedBlock_erases (Erases.ite (inflateBlock_erases _ _ _)
  (Erases.ite (inflateDynamic_erases _) Erases.fail))

theorem blockTurn_erases (fuel : ℕ) : Erases (blockTurn fuel) (Inflate.blockTurn fuel) :=
  (readBits_erases 1).bind fun _ => (readBits_erases 2).bind fun btype =>
  (block_erases fuel btype).bind fun _ => Erases.pure _

theorem skipField_erases (flag : Bool) (inp : List UInt8) (fuel pos : ℕ) :
    Erases (skipField flag inp fuel pos) (Inflate.skipField flag inp fuel pos) :=
  Erases.ite (Erases.loop (fun _ => Erases.note_bind (Erases.pure _)) fuel pos) (Erases.pure _)

theorem gzipHeader_erases (inp : List UInt8) (fuel : ℕ) : Erases (gzipHeader inp fuel)
    (Inflate.gzipHeader inp fuel) := by
  refine (Erases.check _).bind fun _ => Erases.note_bind <| (Erases.check _).bind fun _ => Erases.note_bind ?_
  refine (Erases.check _).bind fun _ => Erases.note_bind <| (Erases.check _).bind fun _ => Erases.note_bind ?_
  refine (skipField_erases _ inp fuel _).bind fun _ => (skipField_erases _ inp fuel _).bind fun _ => ?_
  exact (Erases.check _).bind fun _ => Erases.pure _

theorem gzipTrailer_erases (inp : List UInt8) (pos : ℕ) : Erases (gzipTrailer inp pos)
    (Inflate.gzipTrailer inp pos) := by
  refine align_erases.bind fun _ => getSt_erases.bind fun s => (Erases.check _).bind fun _ => Erases.note_bind ?_
  exact (Erases.check _).bind fun _ => Erases.note_bind <| (Erases.check _).bind fun _ => Erases.pure _

theorem gzipBody_erases (inp : List UInt8) (fuel : ℕ) : Erases (gzipBody inp fuel) (Inflate.gzipBody inp fuel) := by
  have hsplit : Inflate.gzipBody inp fuel = (do
      let pos ← Inflate.gzipHeader inp fuel
      modify fun s => { s with bs := { src := inp.drop pos, srcPos := 0, bits := 0, nbits := 0 } }
      loop (fun _ => Inflate.blockTurn fuel) fuel ()
      pure pos) >>= Inflate.gzipTrailer inp := by
    simp only [bind_assoc, pure_bind]
    rfl
  rw [hsplit]
  refine Erases.bind (Erases.note_bind ?_) fun pos => gzipTrailer_erases inp pos
  refine (gzipHeader_erases inp fuel).bind fun pos => (Erases.traced _ _).bind fun _ => ?_
  exact (Erases.loop (fun _ => blockTurn_erases fuel) fuel ()).bind fun _ => Erases.pure _

end Accesses

end ComputerOS.Inflate
