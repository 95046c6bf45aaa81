import ComputerOS.Lib.Looping
import Mathlib.Data.Int.Notation
import Mathlib.Algebra.Ring.Nat
import Mathlib.Algebra.Ring.Int.Defs

/-!
The DEFLATE decompressor and the gzip format around it. Bits come from a buffer that is filled byte
by byte, and with zeros behind the end of the input; Huffman tables are built from code lengths and
read bit by bit. A loop of the source whose end is not in sight is a `Looping.loop`, with `fuel`
turns; one with a counter is a recursion on the counter. What is printed on errors is left out.
-/
namespace ComputerOS.Inflate

open Looping

def u32 (n : ℕ) : ℕ := n % 2 ^ 32

def int32 (n : ℕ) : ℤ := (BitVec.ofNat 32 n).toInt

/-- `bitstream_t`; `src_len` is the length of `src`. -/
structure Bitstream where
  src : List UInt8
  srcPos : ℕ
  bits : ℕ
  nbits : ℕ
deriving DecidableEq

def bsFillByte (bs : Bitstream) : Bitstream :=
  if bs.srcPos < bs.src.length then
    { bs with bits := bs.bits ||| u32 ((bs.src.getD bs.srcPos 0).toNat <<<
              bs.nbits), srcPos := bs.srcPos + 1, nbits := bs.nbits + 8 }
  else { bs with nbits := bs.nbits + 8 }

/-- The loop of `bs_fill`, for the given number of turns at most. -/
def bsFillTurns (n : ℕ) : ℕ → Bitstream → Bitstream
  | 0, bs => bs
  | turns + 1, bs => if bs.nbits < n then bsFillTurns n turns (bsFillByte bs) else bs

/-- `bs_fill`: as each turn adds 8 bits, `n` turns are enough. -/
def bsFill (n : ℕ) (bs : Bitstream) : Bitstream := bsFillTurns n n bs

def bsPeek (n : ℕ) (bs : Bitstream) : ℕ × Bitstream :=
  let bs := bsFill n bs
  (bs.bits &&& (1 <<< n - 1), bs)

def bsDrop (n : ℕ) (bs : Bitstream) : Bitstream := { bs with bits := bs.bits >>> n, nbits := bs.nbits - n }

def bsRead (n : ℕ) (bs : Bitstream) : ℕ × Bitstream :=
  let (v, bs) := bsPeek n bs
  (v, bsDrop n bs)

def bsAlign (bs : Bitstream) : Bitstream :=
  let discard := bs.nbits &&& 7
  { bs with bits := bs.bits >>> discard, nbits := bs.nbits - discard }

def HUFF_MAX_BITS : ℕ := 15

def HUFF_MAX_SYMS : ℕ := 288

structure Huffman where
  count : List ℕ
  baseCode : List ℕ
  baseSym : List ℕ
  symbols : List ℕ
  nsyms : ℕ
deriving DecidableEq

/-- The arrays as they are before anything is written to them. -/
def Huffman.blank : Huffman where
  count := List.replicate (HUFF_MAX_BITS + 1) 0
  baseCode := List.replicate (HUFF_MAX_BITS + 1) 0
  baseSym := List.replicate (HUFF_MAX_BITS + 1) 0
  symbols := List.replicate HUFF_MAX_SYMS 0
  nsyms := 0

/-- `huff_build`, without a table when a length is too large. -/
def huffBuild (lengths : List ℕ) : Option Huffman :=
  if lengths.any (HUFF_MAX_BITS < ·) then none
  else
    let h := Huffman.blank
    let count := lengths.foldl (fun count l => count.set l (count.getD l 0 + 1)) h.count
    let count := count.set 0 0
    let (baseCode, _) := (List.range' 1 HUFF_MAX_BITS).foldl
      (fun (base, code) i => (base.set i code, (code + count.getD i 0) <<< 1)) (h.baseCode, 0)
    let (baseSym, _) := (List.range' 1 HUFF_MAX_BITS).foldl
      (fun (base, idx) i => (base.set i idx, idx + count.getD i 0)) (h.baseSym, 0)
    let (symbols, _) := lengths.zipIdx.foldl (fun (symbols, offsets) (l, i) =>
      if 0 < l then (symbols.set (offsets.getD l 0) i, offsets.set l (offsets.getD l 0 + 1)) else (symbols, offsets))
      (h.symbols, baseSym)
    some { count, baseCode, baseSym, symbols, nsyms := lengths.length }

/-- The loop of `huff_decode` over the code lengths that remain, with the code read so far. -/
def huffDecodeFrom (h : Huffman) : List ℕ → ℕ → Bitstream → Option ℕ × Bitstream
  | [], _, bs => (none, bs)
  | len :: lens, code, bs =>
      let (b, bs) := bsRead 1 bs
      let code := (code <<< 1) ||| b
      if h.count.getD len 0 = 0 then huffDecodeFrom h lens code bs
      else if h.baseCode.getD len 0 ≤ code ∧ code < h.baseCode.getD len 0 + h.count.getD len 0 then
        let idx := h.baseSym.getD len 0 + (code - h.baseCode.getD len 0)
        if h.nsyms ≤ idx then (none, bs) else (some (h.symbols.getD idx 0), bs)
      else huffDecodeFrom h lens code bs

def huffDecode (h : Huffman) (bs : Bitstream) : Option ℕ × Bitstream :=
  huffDecodeFrom h (List.range' 1 HUFF_MAX_BITS) 0 bs

def fixedTable (lengths : List ℕ) : Huffman := (huffBuild lengths).getD .blank

def fixedLitlen : Huffman :=
  fixedTable (List.replicate 144 8 ++ List.replicate 112 9 ++ List.replicate 24 7 ++ List.replicate
  8 8)

def fixedDist : Huffman := fixedTable (List.replicate 30 5)

def lenExtra : List ℕ := [0, 0, 0, 0, 0, 0, 0, 0, 1, 1, 1, 1, 2, 2, 2, 2, 3, 3, 3, 3, 4, 4, 4, 4, 5, 5, 5, 5, 0]

def lenBase : List ℕ :=
  [3, 4, 5, 6, 7, 8, 9, 10, 11, 13, 15, 17, 19, 23, 27, 31, 35, 43, 51, 59, 67, 83, 99, 115, 131,
  163, 195, 227, 258]

def distExtra : List ℕ :=
  [0, 0, 0, 0, 1, 1, 2, 2, 3, 3, 4, 4, 5, 5, 6, 6, 7, 7, 8, 8, 9, 9, 10, 10, 11, 11, 12, 12, 13, 13]

def distBase : List ℕ :=
  [1, 2, 3, 4, 5, 7, 9, 13, 17, 25, 33, 49, 65, 97, 129, 193, 257, 385, 513, 769, 1025, 1537, 2049,
    3073, 4097, 6145, 8193, 12289, 16385, 24577]

def codelenOrder : List ℕ := [16, 17, 18, 0, 8, 7, 9, 6, 10, 5, 11, 4, 12, 3, 13, 2, 14, 1, 15]

/-- `outbuf_t`; `pos` is the length of `data`. -/
structure Outbuf where
  data : List UInt8
  cap : ℕ
deriving DecidableEq

/-- The bit stream and the output buffer. -/
structure St where
  bs : Bitstream
  out : Outbuf
deriving DecidableEq

def readBits (n : ℕ) : Looping St ℕ := lift fun s => (some (bsRead n s.bs).1, { s with bs := (bsRead n s.bs).2 })

def align : Looping St Unit := modify fun s => { s with bs := bsAlign s.bs }

def readU16 : Looping St ℕ := do
  align
  let lo ← readBits 8
  let hi ← readBits 8
  pure (lo ||| hi <<< 8)

/-- `huff_decode`, with -1 as giving up. -/
def decode (h : Huffman) : Looping St ℕ := lift fun s => ((huffDecode h s.bs).1, { s with bs := (huffDecode h s.bs).2 })

def outByte (b : UInt8) : Looping St Unit := lift fun s =>
  if s.out.cap ≤ s.out.data.length then (none, s)
  else (some (), { s with out := { s.out with data := s.out.data ++ [b] } })

def outCopyBytes (dist : ℕ) : ℕ → Looping St Unit
  | 0 => pure ()
  | len + 1 => do
    let s ← get
    outByte (s.out.data.getD (s.out.data.length - dist) 0)
    outCopyBytes dist len

def outCopy (dist len : ℕ) : Looping St Unit := do
  let s ← get
  check (dist ≤ s.out.data.length)
  outCopyBytes dist len

/-- A length and distance pair, from its length code on. -/
def backReference (distH : Huffman) (lcode : ℕ) : Looping St Unit := do
  check (lcode < 29)
  let extra ← readBits (lenExtra.getD lcode 0)
  let dcode ← decode distH
  check (dcode < 30)
  let extraDist ← readBits (distExtra.getD dcode 0)
  outCopy (distBase.getD dcode 0 + extraDist) (lenBase.getD lcode 0 + extra)

/-- One turn of `inflate_block`. -/
def symbolTurn (litlen distH : Huffman) : Looping St (Unit ⊕ Unit) := do
  let sym ← decode litlen
  if sym < 256 then do
    outByte (UInt8.ofNat sym)
    pure (.inl ())
  else if sym = 256 then pure (.inr ())
  else do
    backReference distH (sym - 257)
    pure (.inl ())

def inflateBlock (fuel : ℕ) (litlen distH : Huffman) : Looping St Unit :=
  loop (fun _ => symbolTurn litlen distH) fuel ()

/-- The lengths of the code length alphabet, for the places in the order that remain. -/
def readClLengths : List ℕ → List ℕ → Looping St (List ℕ)
  | [], lens => pure lens
  | place :: places, lens => do
    let l ← readBits 3
    readClLengths places (lens.set place l)

/-- `all_lengths[i++] = v`, `rep` times at most. -/
def repeatLength (total v : ℕ) : ℕ → List ℕ → List ℕ
  | 0, lens => lens
  | rep + 1, lens => if lens.length < total then repeatLength total v rep (lens ++ [v]) else lens

/-- One turn of the loop over the code lengths, with those decoded so far. -/
def codeLengthTurn (clTree : Huffman) (total : ℕ) (lens : List ℕ) : Looping St (List ℕ ⊕ List ℕ) :=
  if total ≤ lens.length then pure (.inr lens)
  else do
    let sym ← decode clTree
    if sym < 16 then pure (.inl (lens ++ [sym]))
    else if sym = 16 then do
      check (lens.length ≠ 0)
      let rep ← readBits 2
      pure (.inl (repeatLength total (lens.getD (lens.length - 1) 0) (rep + 3) lens))
    else if sym = 17 then do
      let rep ← readBits 3
      pure (.inl (repeatLength total 0 (rep + 3) lens))
    else if sym = 18 then do
      let rep ← readBits 7
      pure (.inl (repeatLength total 0 (rep + 11) lens))
    else fail

/-- `huff_build`, with -1 as giving up. -/
def build (lengths : List ℕ) : Looping St Huffman := lift fun s => (huffBuild lengths, s)

def inflateDynamic (fuel : ℕ) : Looping St Unit := do
  let hlit := (← readBits 5) + 257
  let hdist := (← readBits 5) + 1
  let hclen := (← readBits 4) + 4
  check (hlit ≤ 286 && hdist ≤ 30 && hclen ≤ 19)
  let clLengths ← readClLengths (codelenOrder.take hclen) (List.replicate 19 0)
  let clTree ← build clLengths
  let lens ← loop (codeLengthTurn clTree (hlit + hdist)) fuel []
  let litlenTree ← build (lens.take hlit)
  let distTree ← build (lens.drop hlit)
  inflateBlock fuel litlenTree distTree

def storedBytes : ℕ → Looping St Unit
  | 0 => pure ()
  | n + 1 => do
    let b ← readBits 8
    outByte (UInt8.ofNat b)
    storedBytes n

def storedBlock : Looping St Unit := do
  align
  let blen ← readU16
  let bnlen ← readU16
  check (blen ^^^ bnlen = 0xFFFF)
  storedBytes blen

/-- The block of the type that was read. -/
def block (fuel btype : ℕ) : Looping St Unit :=
  if btype = 0 then storedBlock
  else if btype = 1 then inflateBlock fuel fixedLitlen fixedDist
  else if btype = 2 then inflateDynamic fuel
  else fail

def blockTurn (fuel : ℕ) : Looping St (Unit ⊕ Unit) := do
  let finalBlock ← readBits 1
  let btype ← readBits 2
  block fuel btype
  pure (if finalBlock = 0 then .inl () else .inr ())

/-- Skip a text that ends with 0. -/
def skipText (inp : List UInt8) (fuel pos : ℕ) : Looping St ℕ :=
  loop (fun pos => pure (if pos < inp.length ∧
  inp.getD pos 0 ≠ 0 then .inl (u32 (pos + 1)) else .inr (u32 (pos + 1))))
    fuel pos

/-- A field of the header that is there when its flag is set. -/
def skipField (flag : Bool) (inp : List UInt8) (fuel pos : ℕ) : Looping St ℕ :=
  if flag then skipText inp fuel pos else pure pos

def gzipHeader (inp : List UInt8) (fuel : ℕ) : Looping St ℕ := do
  check (18 ≤ inp.length)
  check (inp.getD 0 0 = 0x1F && inp.getD 1 0 = 0x8B)
  check (inp.getD 2 0 = 8)
  let flags := inp.getD 3 0
  check (flags &&& 0x04 = 0 || 12 ≤ inp.length)
  let xlen := (inp.getD 10 0).toNat ||| (inp.getD 11 0).toNat <<< 8
  let pos := if flags &&& 0x04 = 0 then 10 else 12 + xlen
  let pos ← skipField (flags &&& 0x08 ≠ 0) inp fuel pos
  let pos ← skipField (flags &&& 0x10 ≠ 0) inp fuel pos
  let pos := if flags &&& 0x02 = 0 then pos else u32 (pos + 2)
  check (pos < inp.length)
  pure pos

/-- A 32-bit little-endian number. -/
def le32 (inp : List UInt8) (pos : ℕ) : ℕ :=
  (inp.getD pos 0).toNat ||| (inp.getD (pos + 1) 0).toNat <<< 8 ||| (inp.getD (pos + 2) 0).toNat <<<
    16 ||| (inp.getD (pos + 3) 0).toNat <<< 24

def crc32Step (crc : UInt32) : UInt32 := (crc >>> 1) ^^^ (if crc &&& 1 = 0 then 0 else 0xEDB88320)

def crc32 (data : List UInt8) : UInt32 :=
  data.foldl (fun crc b => Nat.repeat crc32Step 8 (crc ^^^ b.toUInt32)) 0xFFFFFFFF ^^^ 0xFFFFFFFF

/-- The trailer is compared with the output: the return value. -/
def gzipTrailer (inp : List UInt8) (pos : ℕ) : Looping St ℤ := do
  align
  let s ← get
  let trailerPos := u32 (pos + (s.bs.srcPos + (2 ^ 32 - s.bs.nbits / 8)))
  check (u32 (trailerPos + 8) ≤ inp.length)
  check (le32 inp (trailerPos + 4) = s.out.data.length)
  check (crc32 s.out.data = UInt32.ofNat (le32 inp trailerPos))
  pure (int32 s.out.data.length)

def gzipBody (inp : List UInt8) (fuel : ℕ) : Looping St ℤ := do
  let pos ← gzipHeader inp fuel
  modify fun s => { s with bs := { src := inp.drop pos, srcPos := 0, bits := 0, nbits := 0 } }
  loop (fun _ => blockTurn fuel) fuel ()
  gzipTrailer inp pos

/-- `inflate_gzip`: the return value, -1 on errors, and what the output buffer holds; nothing when a
loop would need more than `fuel` turns. -/
def inflateGzip (fuel : ℕ) (inp : List UInt8) (outCap : ℕ) : Option (ℤ × List UInt8) :=
  ((gzipBody inp fuel).run { bs := ⟨[], 0, 0, 0⟩, out := ⟨[], outCap⟩ }).map fun (r, s) =>
  (r.getD (-1), s.out.data)

end ComputerOS.Inflate
