import ComputerOS.Lib.CanonicalCode
import ComputerOS.Lib.Crc
import Mathlib.Data.Nat.Digits.Lemmas

/-!
The formats: DEFLATE, RFC 1951, and gzip, RFC 1952. A stream is a sequence of blocks; a block is
stored, or it is a sequence of literals and of copies from the output, coded with the fixed codes or
with codes that the block describes. The bits of a block and the data that it stands for are defined
here without the decoder.
-/
namespace ComputerOS.Inflate

open CanonicalCode Crc

/-- The `n` lowest bits of a number, lowest first. -/
def numBits (n v : ℕ) : List Bool := (List.range n).map v.testBit

def codeBits (n v : ℕ) : List Bool := (numBits n v).reverse

def symBits (lengths : List ℕ) (s : ℕ) : List Bool := codeBits (lengths.getD s 0) ((codes lengths).getD s 0)

/-- The number that the bits stand for, lowest first. -/
def ofBits : List Bool → ℕ
  | [] => 0
  | b :: l => b.toNat + 2 * ofBits l

/-- The number of extra bits of a length code, counted from 257, and the smallest length, RFC 1951,
3.2.5. -/
def lengthCode (l : ℕ) : ℕ × ℕ :=
  if l < 4 then (0, l + 3) else if l = 28 then (0, 258) else (l / 4 - 1, 2 ^ (l / 4 - 1) * (4 + l % 4) + 3)

/-- The number of extra bits of a distance code, and the smallest distance. -/
def distanceCode (d : ℕ) : ℕ × ℕ := if d < 2 then (0, d + 1) else (d / 2 - 1, 2 ^ (d / 2 - 1) * (2 + d % 2) + 1)

/-- A byte, or a copy with its codes and their extra bits. -/
inductive Token
  | literal (b : UInt8)
  | copy (l extra d extraDist : ℕ)

def copyLength (l extra : ℕ) : ℕ := (lengthCode l).2 + extra

def copyDistance (d extraDist : ℕ) : ℕ := (distanceCode d).2 + extraDist

/-- The copy of `len` bytes from `dist` bytes back; where it reaches its own output, it repeats. -/
def copied (out : List UInt8) (dist len : ℕ) : List UInt8 :=
  (List.range len).map fun i => out.getD (out.length - dist + i % dist) 0

def Token.expand (out : List UInt8) : Token → List UInt8
  | .literal b => out ++ [b]
  | .copy l extra d extraDist => out ++ copied out (copyDistance d extraDist) (copyLength l extra)

def Token.bits (lit dist : List ℕ) : Token → List Bool
  | .literal b => symBits lit b.toNat
  | .copy l extra d extraDist => symBits lit (257 + l) ++ numBits (lengthCode l).1 extra ++ symBits dist d ++
      numBits (distanceCode d).1 extraDist

/-- The token can be coded, and does not reach behind the output. -/
def Token.Valid (lit dist : List ℕ) (out : List UInt8) : Token → Prop
  | .literal b => lit.getD b.toNat 0 ≠ 0
  | .copy l extra d extraDist =>
    l < 29 ∧ lit.getD (257 + l) 0 ≠ 0 ∧ extra < 2 ^ (lengthCode l).1 ∧ d < 30 ∧ dist.getD d 0 ≠ 0 ∧
      extraDist < 2 ^ (distanceCode d).1 ∧ copyDistance d extraDist ≤ out.length

def TokensValid (lit dist : List ℕ) : List UInt8 → List Token → Prop
  | _, [] => True
  | out, t :: ts => t.Valid lit dist out ∧ TokensValid lit dist (t.expand out) ts

/-- The tokens and the end of the block. -/
def tokensBits (lit dist : List ℕ) (ts : List Token) : List Bool := ts.flatMap (Token.bits lit dist) ++ symBits lit 256

structure IsCode (lengths : List ℕ) : Prop where
  syms : lengths.length ≤ 288
  bits : ∀ l ∈ lengths, l ≤ 15
  kraft : kraft lengths ≤ 1

/-- The lengths of the fixed codes, RFC 1951, 3.2.6. -/
def fixedLit : List ℕ := List.replicate 144 8 ++ List.replicate 112 9 ++ List.replicate 24 7 ++ List.replicate 8 8

def fixedDistance : List ℕ := List.replicate 30 5

/-- One code length, or several that are the last one again, or zeros. -/
inductive LengthRun
  | one (l : ℕ)
  | again (n : ℕ)
  | zeros (n : ℕ)
  | manyZeros (n : ℕ)

def LengthRun.expand (lens : List ℕ) : LengthRun → List ℕ
  | .one l => lens ++ [l]
  | .again n => lens ++ List.replicate n (lens.getD (lens.length - 1) 0)
  | .zeros n => lens ++ List.replicate n 0
  | .manyZeros n => lens ++ List.replicate n 0

def LengthRun.bits (cl : List ℕ) : LengthRun → List Bool
  | .one l => symBits cl l
  | .again n => symBits cl 16 ++ numBits 2 (n - 3)
  | .zeros n => symBits cl 17 ++ numBits 3 (n - 3)
  | .manyZeros n => symBits cl 18 ++ numBits 7 (n - 11)

def LengthRun.Valid (cl lens : List ℕ) : LengthRun → Prop
  | .one l => l < 16 ∧ cl.getD l 0 ≠ 0
  | .again n => lens ≠ [] ∧ 3 ≤ n ∧ n ≤ 6 ∧ cl.getD 16 0 ≠ 0
  | .zeros n => 3 ≤ n ∧ n ≤ 10 ∧ cl.getD 17 0 ≠ 0
  | .manyZeros n => 11 ≤ n ∧ n ≤ 138 ∧ cl.getD 18 0 ≠ 0

def RunsValid (cl : List ℕ) : List ℕ → List LengthRun → Prop
  | _, [] => True
  | lens, r :: rs => r.Valid cl lens ∧ RunsValid cl (r.expand lens) rs

/-- The order of the code length alphabet. -/
def clOrder : List ℕ := [16, 17, 18, 0, 8, 7, 9, 6, 10, 5, 11, 4, 12, 3, 13, 2, 14, 1, 15]

/-- The codes of a dynamic block: the two codes, the code of their lengths with the number of its
lengths that are sent, and the runs that they are sent as. -/
structure Codes where
  lit : List ℕ
  dist : List ℕ
  cl : List ℕ
  sent : ℕ
  runs : List LengthRun
  lit_code : IsCode lit
  dist_code : IsCode dist
  cl_code : IsCode cl
  lit_size : 257 ≤ lit.length ∧ lit.length ≤ 286
  dist_size : 1 ≤ dist.length ∧ dist.length ≤ 30
  cl_size : cl.length = 19 ∧ ∀ l ∈ cl, l ≤ 7
  sent_size : 4 ≤ sent ∧ sent ≤ 19
  unsent : ∀ p ∈ clOrder.drop sent, cl.getD p 0 = 0
  runs_valid : RunsValid cl [] runs
  runs_expand : runs.foldl LengthRun.expand [] = lit ++ dist
  ends : lit.getD 256 0 ≠ 0

def Codes.bits (c : Codes) : List Bool :=
  numBits 5 (c.lit.length - 257) ++ numBits 5 (c.dist.length - 1) ++ numBits 4 (c.sent - 4) ++
    (clOrder.take c.sent).flatMap (fun p => numBits 3 (c.cl.getD p 0)) ++ c.runs.flatMap (LengthRun.bits c.cl)

inductive Block
  | stored (pad : List Bool) (data : List UInt8)
  | fixed (ts : List Token)
  | dynamic (c : Codes) (ts : List Token)

def Block.bits : Block → List Bool
  | .stored pad data => numBits 2 0 ++ pad ++ numBits 16 data.length ++ numBits 16 (65535 - data.length) ++ bitsOf data
  | .fixed ts => numBits 2 1 ++ tokensBits fixedLit fixedDistance ts
  | .dynamic c ts => numBits 2 2 ++ c.bits ++ tokensBits c.lit c.dist ts

def Block.expand (out : List UInt8) : Block → List UInt8
  | .stored _ data => out ++ data
  | .fixed ts => ts.foldl Token.expand out
  | .dynamic _ ts => ts.foldl Token.expand out

/-- The block, whose first bit is bit `pos` of the stream, is well formed; a stored block begins at
a byte. -/
def Block.Valid (pos : ℕ) (out : List UInt8) : Block → Prop
  | .stored pad data => pad.length < 8 ∧ (pos + 3 + pad.length) % 8 = 0 ∧ data.length < 65536
  | .fixed ts => TokensValid fixedLit fixedDistance out ts
  | .dynamic c ts => TokensValid c.lit c.dist out ts

/-- The blocks, each behind the bit that says whether it is the last one. -/
def streamBits : List Block → List Bool
  | [] => []
  | b :: bs => bs.isEmpty :: (b.bits ++ streamBits bs)

def BlocksValid : ℕ → List UInt8 → List Block → Prop
  | _, _, [] => True
  | pos, out, b :: bs => b.Valid pos out ∧ BlocksValid (pos + 1 + b.bits.length) (b.expand out) bs

/-- A member: the header, the compressed blocks as bytes, and the unused bits of the last byte. -/
structure Member where
  text : Bool
  info : List UInt8
  extra : Option (List UInt8)
  name : Option (List UInt8)
  comment : Option (List UInt8)
  headerCrc : Option (List UInt8)
  blocks : List Block
  body : List UInt8
  pad : List Bool
  info_size : info.length = 6
  extra_size : ∀ l ∈ extra, l.length < 65536
  name_text : ∀ l ∈ name, 0 ∉ l
  comment_text : ∀ l ∈ comment, 0 ∉ l
  headerCrc_size : ∀ l ∈ headerCrc, l.length = 2
  blocks_ne : blocks ≠ []
  blocks_valid : BlocksValid 0 [] blocks
  body_bits : bitsOf body = streamBits blocks ++ pad
  pad_lt : pad.length < 8

def Member.data (m : Member) : List UInt8 := m.blocks.foldl Block.expand []

def Member.flags (m : Member) : UInt8 :=
  (if m.text then 1 else 0) ||| (if m.headerCrc.isSome then 2 else 0) ||| (if m.extra.isSome then 4 else 0) |||
    (if m.name.isSome then 8 else 0) ||| (if m.comment.isSome then 16 else 0)

def numBytes (n v : ℕ) : List UInt8 := (List.range n).map fun i => UInt8.ofNat (v / 256 ^ i)

def textBytes (text : Option (List UInt8)) : List UInt8 := text.elim [] (· ++ [0])

def Member.header (m : Member) : List UInt8 :=
  [0x1F, 0x8B, 8, m.flags] ++ m.info ++ m.extra.elim [] (fun l => numBytes 2 l.length ++ l) ++
    textBytes m.name ++ textBytes m.comment ++ m.headerCrc.getD []

/-- The CRC of the data, with the polynomial of RFC 1952. -/
def dataCrc (data : List UInt8) : ℕ := (~~~Crc.run (0xEDB88320#32) (BitVec.allOnes 32) (bitsOf data)).toNat

def Member.bytes (m : Member) : List UInt8 :=
  m.header ++ m.body ++ numBytes 4 (dataCrc m.data) ++ numBytes 4 m.data.length

end ComputerOS.Inflate
