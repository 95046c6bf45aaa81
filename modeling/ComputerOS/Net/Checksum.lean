import ComputerOS.Lib.OnesComplement
import ComputerOS.Lib.Bytes
import ComputerOS.Net.Packets

/-!
The checksum of IP, ICMP and TCP. The words are taken in network byte order, summed in 32 bits and
folded to 16; the result is stored through `htons`, so that it stands in the data in network byte
order again.
-/
namespace ComputerOS.Net

open Bytes (leBytes)

def htons (v : ℕ) : ℕ := v % 256 * 256 + v / 256 % 256

/-- The loop over the words, and the last byte of an odd length. -/
def sumLoop (sum : ℕ) : List UInt8 → ℕ
  | a :: b :: p => sumLoop (u32 (sum + (a.toNat * 256 + b.toNat))) p
  | [a] => u32 (sum + a.toNat * 256)
  | [] => sum

/-- `while (sum >> 16) sum = (sum & 0xFFFF) + (sum >> 16)`, with at most `n` looks at the sum. -/
def foldLoop : ℕ → ℕ → Option ℕ
  | 0, _ => none
  | n + 1, sum => if sum / 65536 ≠ 0 then foldLoop n (u32 (sum % 65536 + sum / 65536)) else some sum

/-- `checksum16`; a loop that needs more than `n` looks has no outcome. -/
def checksum16 (n : ℕ) (data : List UInt8) : Option ℕ :=
  (foldLoop n (sumLoop 0 data)).map fun sum => 65535 - sum % 65536

/-- A 16-bit store at offset `off`. -/
def store16 (data : List UInt8) (off v : ℕ) : List UInt8 :=
  (data.set off (UInt8.ofNat v)).set (off + 1) (UInt8.ofNat (v / 256))

def tcpBuffer (srcIp dstIp : ℕ) (seg : List UInt8) : List UInt8 :=
  let buf := leBytes 4 srcIp ++ leBytes 4 dstIp ++ [0, UInt8.ofNat IP_PROTO_TCP] ++ leBytes 2
    (htons (seg.length % 65536)) ++ seg
  if (12 + seg.length) % 2 = 1 then buf ++ [0] else buf

def tcpChecksum (n srcIp dstIp : ℕ) (seg : List UInt8) : Option ℕ :=
  if 1500 < seg.length then some 0 else checksum16 n (tcpBuffer srcIp dstIp seg)

/-- The words in network byte order; an odd length is padded with a zero byte. -/
def words : List UInt8 → List ℕ
  | a :: b :: p => (a.toNat * 256 + b.toNat) :: words p
  | [a] => [a.toNat * 256]
  | [] => []

def complementSum (data : List UInt8) : ℕ := 65535 - onesSum 65535 (words data)

/-- The header in front of the segment, as the checksum sees it. -/
def pseudoHeader (src dst : List UInt8) (len : ℕ) : List UInt8 :=
  src ++ dst ++ [0, UInt8.ofNat IP_PROTO_TCP, UInt8.ofNat (len / 256), UInt8.ofNat (len % 256)]

variable {data : List UInt8} {off n s sum : ℕ}

theorem words_le : ∀ data : List UInt8, ∀ w ∈ words data, w ≤ 65535
  | a :: b :: p => by
      have ha := a.toNat_lt
      have hb := b.toNat_lt
      exact List.forall_mem_cons.2 ⟨by omega, words_le p⟩
  | [a] => by
      have ha := a.toNat_lt
      exact List.forall_mem_singleton.2 (by omega)
  | [] => by simp [words]

theorem sum_words_le : ∀ data : List UInt8, (words data).sum ≤ 65535 * ((data.length + 1) / 2)
  | a :: b :: p => by
      have ha := a.toNat_lt
      have hb := b.toNat_lt
      have hp := sum_words_le p
      rw [words, List.sum_cons, List.length_cons, List.length_cons]
      omega
  | [a] => by
      have ha := a.toNat_lt
      rw [words, List.sum_singleton, List.length_singleton]
      omega
  | [] => by simp [words]

theorem sumLoop_eq (h : sum + (words data).sum < 2 ^ 32) : sumLoop sum data = sum + (words data).sum := by
  induction data using words.induct generalizing sum with
  | case1 a b p ih =>
    rw [words, List.sum_cons] at h ⊢
    rw [← Nat.add_assoc] at h
    have hnow : u32 (sum + (a.toNat * 256 + b.toNat)) = sum + (a.toNat * 256 + b.toNat) :=
      Nat.mod_eq_of_lt (lt_of_le_of_lt (Nat.le_add_right _ _) h)
    rw [sumLoop, hnow, ih h, Nat.add_assoc]
  | case2 a =>
    rw [words, List.sum_singleton] at h ⊢
    rw [sumLoop]
    exact Nat.mod_eq_of_lt h
  | case3 => rw [sumLoop, words, List.sum_nil, Nat.add_zero]

theorem sum_words_lt (hlen : data.length ≤ 65535) : (words data).sum < 2 ^ 32 := by
  have := sum_words_le data
  omega

/-- Folding ends after two turns, with the ones-complement number. -/
theorem foldLoop_eq (hn : 3 ≤ n) (hs : s < 2 ^ 32) : foldLoop n s = some (residue 65535 s) := by
  have turn : ∀ (n s : ℕ), s < 2 ^ 32 → foldLoop (n + 1) s =
      if s < 65536 then some (residue 65535 s) else foldLoop n (s % 65536 + s / 65536) := by
    intro n s hs
    rw [foldLoop]
    split_ifs
    · omega
    · exact congrArg (foldLoop n) (Nat.mod_eq_of_lt (by omega))
    · exact congrArg some (residue_of_le (by omega)).symm
    · omega
  obtain ⟨n, rfl⟩ : ∃ k, n = k + 1 + 1 + 1 := ⟨n - 3, by omega⟩
  have hcarry : ∀ s, residue 65535 (s % 65536 + s / 65536) = residue 65535 s := residue_carry 65535
  rw [turn _ s hs]
  split_ifs
  · rfl
  · rw [turn _ _ (by omega), hcarry]
    split_ifs
    · rfl
    · rw [turn _ _ (by omega), if_pos (by omega), hcarry, hcarry]

theorem checksum16_eq (hn : 3 ≤ n) (hlen : data.length ≤ 65535) : checksum16 n data = some (complementSum data) := by
  have hsum := sum_words_lt hlen
  have hloop := @sumLoop_eq data 0 (by omega)
  have hle := residue_le (m := 65535) (by decide) (words data).sum
  rw [Nat.zero_add] at hloop
  rw [checksum16, hloop, foldLoop_eq hn hsum, Option.map_some, complementSum,
    onesSum_eq (by decide) (words_le data), Nat.mod_eq_of_lt (by omega)]

/-- The bytes change places. -/
theorem htons_bytes {c : ℕ} (h : c < 65536) : htons c % 256 = c / 256 ∧ htons c / 256 = c % 256 := by
  have hlo := Nat.mod_lt c (show 0 < 256 by decide)
  have hhi : c / 256 < 256 := by omega
  unfold htons
  rw [Nat.mod_eq_of_lt hhi]
  omega

theorem toNat_ofNat_byte (v : ℕ) : (UInt8.ofNat v).toNat = v % 256 := UInt8.toNat_ofNat'

/-- A store into a zero field at an even offset adds the word to the sum. -/
theorem sum_words_store {k c : ℕ} (hc : c < 65536) (h₀ : data[2 * k]? = some 0) (h₁ : data[2 * k + 1]? = some 0) :
    (words (store16 data (2 * k) (htons c))).sum = (words data).sum + c := by
  induction k generalizing data with
  | zero =>
    match data, h₀, h₁ with
    | a :: b :: p, h₀, h₁ =>
      obtain rfl : a = 0 := Option.some.inj h₀
      obtain rfl : b = 0 := Option.some.inj h₁
      change (((UInt8.ofNat (htons c)).toNat * 256 + (UInt8.ofNat (htons c / 256)).toNat) :: words
        p).sum = (((0 : UInt8).toNat * 256 + (0 : UInt8).toNat) :: words p).sum + c
      have hzero : (0 : UInt8).toNat = 0 := rfl
      obtain ⟨hlo, hhi⟩ := htons_bytes hc
      rw [List.sum_cons, List.sum_cons, toNat_ofNat_byte, toNat_ofNat_byte, hzero, hlo, hhi]
      omega
  | succ k ih =>
    match data, h₀, h₁ with
    | a :: b :: p, h₀, h₁ =>
      have hrest := @ih p h₀ h₁
      change ((a.toNat * 256 + b.toNat) :: words (store16 p (2 * k) (htons c))).sum =
        ((a.toNat * 256 + b.toNat) :: words p).sum + c
      rw [List.sum_cons, List.sum_cons, hrest]
      omega

theorem length_store16 (data : List UInt8) (off v : ℕ) : (store16 data off v).length = data.length := by
  rw [store16, List.length_set, List.length_set]

theorem complementSum_store {k : ℕ} (h₀ : data[2 * k]? = some 0) (h₁ : data[2 * k + 1]? = some 0) :
    complementSum (store16 data (2 * k) (htons (complementSum data))) = 0 := by
  have hpos : 0 < 65535 := by decide
  have hlt : complementSum data < 65536 := by
    unfold complementSum
    omega
  rw [complementSum, onesSum_eq hpos (words_le _), sum_words_store hlt h₀ h₁, complementSum,
    onesSum_eq hpos (words_le _), residue_add_complement hpos]

theorem tcpBuffer_eq {seg : List UInt8} (srcIp dstIp : ℕ) (hlen : seg.length ≤ 1500) : tcpBuffer srcIp dstIp seg =
    pseudoHeader (leBytes 4 srcIp) (leBytes 4 dstIp) seg.length ++ seg ++ if seg.length % 2 = 1 then [0] else [] := by
  have hfield : leBytes 2 (htons (seg.length % 65536)) = [UInt8.ofNat (seg.length / 256),
    UInt8.ofNat (seg.length % 256)] := by
    obtain ⟨hlo, hhi⟩ := htons_bytes (show seg.length < 65536 by omega)
    have hfirst : UInt8.ofNat (htons seg.length) = UInt8.ofNat (seg.length / 256) := by
      refine UInt8.toNat_inj.1 ?_
      rw [toNat_ofNat_byte, toNat_ofNat_byte, hlo]
      omega
    rw [Nat.mod_eq_of_lt (show seg.length < 65536 by omega)]
    change [UInt8.ofNat (htons seg.length), UInt8.ofNat (htons seg.length / 256)] = _
    rw [hfirst, hhi]
  have hhead : leBytes 4 srcIp ++ leBytes 4 dstIp ++ [0, UInt8.ofNat IP_PROTO_TCP] ++ leBytes 2
      (htons (seg.length % 65536)) = pseudoHeader (leBytes 4 srcIp) (leBytes 4 dstIp) seg.length :=
      by
    rw [hfield, pseudoHeader, List.append_assoc]
    rfl
  unfold tcpBuffer
  dsimp only
  rw [hhead]
  by_cases hodd : seg.length % 2 = 1
  · rw [if_pos (by omega), if_pos hodd]
  · rw [if_neg (by omega), if_neg hodd, List.append_nil]

theorem tcpChecksum_eq {seg : List UInt8} (hn : 3 ≤ n) (srcIp dstIp : ℕ) (hlen : seg.length ≤ 1500) :
    tcpChecksum n srcIp dstIp seg = some (complementSum
      (pseudoHeader (leBytes 4 srcIp) (leBytes 4 dstIp) seg.length ++ seg ++ if seg.length % 2 =
      1 then [0] else [])) := by
  rw [tcpChecksum, if_neg (Nat.not_lt.2 hlen), tcpBuffer_eq srcIp dstIp hlen, checksum16_eq hn]
  rw [List.length_append, List.length_append, pseudoHeader, List.length_append, List.length_append,
    Bytes.length_leBytes, Bytes.length_leBytes]
  simp only [List.length_cons, List.length_nil]
  split
  · simp only [List.length_cons, List.length_nil]
    omega
  · simp only [List.length_nil]
    omega

/-- Data whose checksum is stored in it has checksum 0; the sum fits its 32 bits, and three looks at
it are enough; and the checksum of a segment is the one of pseudo header, segment and padding. -/
theorem checksum_verifies :
    (∀ (data : List UInt8) (off : ℕ), data.length ≤ 65535 → off % 2 = 0 → data[off]? = some 0 →
      data[off + 1]? = some 0 → ∃ c, (∀ n, 3 ≤ n → checksum16 n data = some c) ∧
        ∀ n, 3 ≤ n → checksum16 n (store16 data off (htons c)) = some 0) ∧
    (∀ data : List UInt8, data.length ≤ 65535 → (words data).sum < 2 ^ 32 ∧
      sumLoop 0 data = (words data).sum ∧ ∀ n, 3 ≤ n → foldLoop n (sumLoop 0 data) ≠ none) ∧
    ∀ (srcIp dstIp : ℕ) (seg : List UInt8), seg.length ≤ 1500 → ∀ n, 3 ≤ n →
      tcpChecksum n srcIp dstIp seg = some (complementSum
        (pseudoHeader (leBytes 4 srcIp) (leBytes 4 dstIp) seg.length ++ seg ++ if seg.length % 2 =
        1 then [0] else [])) := by
  refine ⟨fun data off hlen heven h₀ h₁ => ?_, fun data hlen => ?_, fun srcIp dstIp seg hlen n hn =>
    tcpChecksum_eq hn srcIp dstIp hlen⟩
  · obtain ⟨k, rfl⟩ : ∃ k, off = 2 * k := ⟨off / 2, by omega⟩
    refine ⟨complementSum data, fun n hn => checksum16_eq hn hlen, fun n hn => ?_⟩
    rw [checksum16_eq hn (by rwa [length_store16]), complementSum_store h₀ h₁]
  · have hsum := sum_words_lt hlen
    have hloop := @sumLoop_eq data 0 (by omega)
    rw [Nat.zero_add] at hloop
    refine ⟨hsum, hloop, fun n hn => ?_⟩
    rw [hloop, foldLoop_eq hn hsum]
    exact Option.some_ne_none _

/-- Four bytes with their checksum in the last two. -/
theorem checksum_of_four : ∃ c, checksum16 3 [0x45, 0x12, 0, 0] = some c ∧
    checksum16 3 (store16 [0x45, 0x12, 0, 0] 2 (htons c)) = some 0 := by
  obtain ⟨c, hc, hzero⟩ := checksum_verifies.1 [0x45, 0x12, 0, 0] 2 (by decide) rfl rfl rfl
  exact ⟨c, hc 3 (le_refl 3), hzero 3 (le_refl 3)⟩

end ComputerOS.Net
