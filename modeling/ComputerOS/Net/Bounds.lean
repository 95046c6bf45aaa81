import ComputerOS.Net.Packets

/-!
What the parsers read of a received frame. They check the length of the frame against the smallest
headers only, so the length fields of the frame decide whether they stay inside it.
-/
namespace ComputerOS.Net

open Reading

variable {buf : ℕ → UInt8} {c : Conn} {n p id seq port max protocol : ℕ}

/-- The big-endian number in the two bytes at offset `p`. -/
def be16 (buf : ℕ → UInt8) (p : ℕ) : ℕ := (buf p).toNat * 256 + (buf (p + 1)).toNat

def be32 (buf : ℕ → UInt8) (p : ℕ) : ℕ := be16 buf p * 65536 + be16 buf (p + 2)

/-- The length that the IP header gives for itself. -/
def ihl (buf : ℕ → UInt8) : ℕ := (buf 14).toNat % 16 * 4

/-- The length that the TCP header gives for itself. -/
def tcpHlen (buf : ℕ → UInt8) : ℕ := (buf (14 + ihl buf + 12)).toNat / 16 * 4

/-- The frame is an IPv4 packet of the protocol. -/
def IsIpv4 (protocol : ℕ) (buf : ℕ → UInt8) : Prop :=
  be16 buf 12 = ETHERTYPE_IPV4 ∧ (buf 14).toNat / 16 = 4 ∧ (buf 23).toNat = protocol

def OfConn (c : Conn) (buf : ℕ → UInt8) : Prop :=
  be16 buf (14 + ihl buf + 2) = c.srcPort ∧ be16 buf (14 + ihl buf) = c.dstPort

instance : Decidable (IsIpv4 protocol buf) := inferInstanceAs (Decidable (_ ∧ _))

instance : Decidable (OfConn c buf) := inferInstanceAs (Decidable (_ ∧ _))

@[simp] theorem value_field16 : (field16 p).value buf = be16 buf p := (rfl)

@[simp] theorem value_field32 : (field32 p).value buf = be32 buf p := (rfl)

@[simp] theorem within_field16 : Within n (field16 p) buf ↔ p + 1 < n := by
  unfold field16
  simp only [within_bind, within_byte, within_pure, and_true]
  omega

@[simp] theorem within_field32 : Within n (field32 p) buf ↔ p + 3 < n := by
  unfold field32
  simp only [within_bind, within_field16, within_pure, and_true]
  omega

theorem within_ipHeader (hn : 24 ≤ n) : Within n (ipHeader protocol) buf := by
  unfold ipHeader
  simp only [within_bind, within_field16, within_ite, within_pure, within_byte]
  exact ⟨by omega, fun _ => trivial, fun _ => ⟨by omega, fun _ => trivial,
    fun _ => ⟨by omega, fun _ => trivial, fun _ => trivial⟩⟩⟩

theorem value_ipHeader : (ipHeader protocol).value buf = if IsIpv4 protocol buf then some (ihl buf) else none := by
  unfold ipHeader
  simp only [value_bind, value_field16, value_ite, value_pure, value_byte]
  by_cases hip : IsIpv4 protocol buf
  · obtain ⟨h1, h2, h3⟩ := id hip
    rw [if_neg (not_not.mpr h1), if_neg (not_not.mpr h2), if_neg (not_not.mpr h3), if_pos hip]
    rfl
  · rw [if_neg hip]
    split
    · rfl
    split
    · rfl
    split
    · rfl
    · rename_i h1 h2 h3
      exact absurd ⟨not_not.mp h1, not_not.mp h2, not_not.mp h3⟩ hip

/-- The fields of the reply that are looked at lie inside the frame. -/
def EchoFits (id n : ℕ) (buf : ℕ → UInt8) : Prop :=
  42 ≤ n → IsIpv4 IP_PROTO_ICMP buf → 14 + ihl buf < n ∧ ((buf (14 + ihl buf)).toNat = ICMP_ECHO_REPLY →
    14 + ihl buf + 6 ≤ n ∧ (be16 buf (14 + ihl buf + 4) = id → 14 + ihl buf + 8 ≤ n))

/-- The fields of the datagram that are looked at and the body that is copied lie inside the frame.
-/
def UdpFits (port max n : ℕ) (buf : ℕ → UInt8) : Prop :=
  42 ≤ n → IsIpv4 IP_PROTO_UDP buf → 14 + ihl buf + 4 ≤ n ∧ (be16 buf (14 + ihl buf + 2) = port →
    14 + ihl buf + 6 ≤ n ∧ (8 < be16 buf (14 + ihl buf + 4) → 0 < max →
      14 + ihl buf + 8 + min (be16 buf (14 + ihl buf + 4) - 8) max ≤ n))

theorem echo_within_iff : Within n (pollEchoReply n id seq) buf ↔ EchoFits id n buf := by
  unfold pollEchoReply EchoFits
  by_cases hn : n < 14 + 20 + 8
  · rw [if_pos hn]
    exact iff_of_true (within_pure _) fun h => by omega
  have h42 : 42 ≤ n := by omega
  rw [if_neg hn]
  simp only [within_bind, within_ipHeader (by omega : 24 ≤ n), value_ipHeader, true_and]
  by_cases hip : IsIpv4 IP_PROTO_ICMP buf
  · simp only [if_pos hip, within_bind, within_byte, value_byte, within_ite, within_pure, value_field16, within_field16]
    constructor
    · rintro ⟨h1, -, h2⟩ - -
      refine ⟨h1, fun ht => ?_⟩
      obtain ⟨h3, -, h4⟩ := h2 (not_not.mpr ht)
      exact ⟨by omega, fun hid => by have := (h4 (not_not.mpr hid)).1; omega⟩
    · intro h
      obtain ⟨h1, h2⟩ := h h42 hip
      refine ⟨h1, fun _ => trivial, fun ht => ?_⟩
      obtain ⟨h3, h4⟩ := h2 (not_not.mp ht)
      refine ⟨by omega, fun _ => trivial, fun hid => ?_⟩
      have := h4 (not_not.mp hid)
      exact ⟨by omega, trivial⟩
  · simp only [if_neg hip, within_pure]
    exact iff_of_true trivial fun _ h => absurd h hip

theorem udp_within_iff : Within n (pollUdp n port max) buf ↔ UdpFits port max n buf := by
  unfold pollUdp UdpFits
  by_cases hn : n < 14 + 20 + 8
  · rw [if_pos hn]
    exact iff_of_true (within_pure _) fun h => by omega
  have h42 : 42 ≤ n := by omega
  rw [if_neg hn]
  simp only [within_bind, within_ipHeader (by omega : 24 ≤ n), value_ipHeader, true_and]
  by_cases hip : IsIpv4 IP_PROTO_UDP buf
  · simp only [if_pos hip, within_bind, within_ite, within_pure, value_field16, within_field16, within_bytes]
    constructor
    · rintro ⟨h1, -, h2⟩ - -
      refine ⟨by omega, fun hp => ?_⟩
      obtain ⟨h3, -, h4⟩ := h2 (not_not.mpr hp)
      refine ⟨by omega, fun hlen hmax => ?_⟩
      have := h4 (by omega)
      omega
    · intro h
      obtain ⟨h1, h2⟩ := h h42 hip
      refine ⟨by omega, fun _ => trivial, fun hp => ?_⟩
      obtain ⟨h3, h4⟩ := h2 (not_not.mp hp)
      refine ⟨by omega, fun _ => trivial, fun hlen => ?_⟩
      by_cases hbody : 8 < be16 buf (14 + ihl buf + 4) ∧ 0 < max
      · exact Or.inr (h4 hbody.1 hbody.2)
      · omega
  · simp only [if_neg hip, within_pure]
    exact iff_of_true trivial fun _ h => absurd h hip

/-- The segment that the fields of the frame describe. -/
def segmentOf (buf : ℕ → UInt8) : Segment where
  flags := buf (14 + ihl buf + 13)
  seq := be32 buf (14 + ihl buf + 4)
  ack := be32 buf (14 + ihl buf + 8)
  payload := 14 + ihl buf + tcpHlen buf
  plen := u32 (be16 buf 16 + 2 ^ 32 - ihl buf - tcpHlen buf)

/-- The fields of the segment that are looked at lie inside the frame, and so does the payload when
`taken`. -/
def TcpFits (c : Conn) (n : ℕ) (buf : ℕ → UInt8) (taken : Prop) : Prop :=
  54 ≤ n → IsIpv4 IP_PROTO_TCP buf → 14 + ihl buf + 4 ≤ n ∧ (OfConn c buf → 14 + ihl buf + 14 ≤ n ∧
    (taken → ihl buf + tcpHlen buf < be16 buf 16 → 14 + be16 buf 16 ≤ n))

/-- `tcp_poll_segment` reads inside the frame, and a segment that its caller takes has its payload
there. -/
def PollInside (c : Conn) (n : ℕ) (buf : ℕ → UInt8) : Prop :=
  Within n (tcpPollSegment c n) buf ∧ ∀ s, (tcpPollSegment c n).value buf = some s →
    s.taken = true → s.plen = 0 ∨ s.payload + s.plen ≤ n

theorem ihl_le (buf : ℕ → UInt8) : ihl buf ≤ 60 := by
  unfold ihl
  omega

theorem tcpHlen_le (buf : ℕ → UInt8) : tcpHlen buf ≤ 60 := by
  unfold tcpHlen
  have := (buf (14 + ihl buf + 12)).toNat_lt
  omega

theorem be16_lt (buf : ℕ → UInt8) (p : ℕ) : be16 buf p < 2 ^ 16 := by
  have h1 := (buf p).toNat_lt
  have h2 := (buf (p + 1)).toNat_lt
  unfold be16
  omega

/-- The length of a segment is not negative when the headers fit into the packet, and it is the rest
of the packet then. -/
theorem taken_iff (buf : ℕ → UInt8) : (segmentOf buf).taken = true ↔ ihl buf + tcpHlen buf ≤ be16 buf 16 := by
  have h1 := ihl_le buf
  have h2 := tcpHlen_le buf
  have h3 := be16_lt buf 16
  have hplen : (segmentOf buf).plen = (be16 buf 16 + 2 ^ 32 - ihl buf - tcpHlen buf) % 2 ^ 32 := rfl
  rw [Segment.taken, decide_eq_true_iff, hplen]
  omega

theorem plen_eq (hle : ihl buf + tcpHlen buf ≤ be16 buf 16) :
    (segmentOf buf).plen = be16 buf 16 - (ihl buf + tcpHlen buf) := by
  have h3 := be16_lt buf 16
  have hplen : (segmentOf buf).plen = (be16 buf 16 + 2 ^ 32 - ihl buf - tcpHlen buf) % 2 ^ 32 := rfl
  omega

theorem value_tcpPollSegment (c : Conn) (n : ℕ) (buf : ℕ → UInt8) : (tcpPollSegment c n).value buf =
    if 54 ≤ n ∧ IsIpv4 IP_PROTO_TCP buf ∧ OfConn c buf then some (segmentOf buf) else none := by
  unfold tcpPollSegment
  by_cases hn : n < 14 + 20 + 20
  · rw [if_pos hn, if_neg (by omega)]
    rfl
  rw [if_neg hn]
  simp only [value_bind, value_ipHeader]
  by_cases hip : IsIpv4 IP_PROTO_TCP buf
  · simp only [if_pos hip, value_bind, value_field16, value_field32, value_ite, value_pure, value_byte]
    by_cases hc : OfConn c buf
    · obtain ⟨h1, h2⟩ := id hc
      rw [if_neg (not_not.mpr h1), if_neg (not_not.mpr h2), if_pos ⟨by omega, hip, hc⟩]
      rfl
    · have hno : ¬ (54 ≤ n ∧ IsIpv4 IP_PROTO_TCP buf ∧ OfConn c buf) := fun h => hc h.2.2
      rw [if_neg hno]
      split
      · rfl
      split
      · rfl
      · rename_i h1 h2
        exact absurd ⟨not_not.mp h1, not_not.mp h2⟩ hc
  · have hno : ¬ (54 ≤ n ∧ IsIpv4 IP_PROTO_TCP buf ∧ OfConn c buf) := fun h => hip h.2.1
    rw [if_neg hip, if_neg hno]
    rfl

theorem tcp_within_iff : Within n (tcpPollSegment c n) buf ↔ TcpFits c n buf False := by
  unfold tcpPollSegment TcpFits
  by_cases hn : n < 14 + 20 + 20
  · rw [if_pos hn]
    exact iff_of_true (within_pure _) fun h => by omega
  have h54 : 54 ≤ n := by omega
  rw [if_neg hn]
  simp only [within_bind, within_ipHeader (by omega : 24 ≤ n), value_ipHeader, true_and]
  by_cases hip : IsIpv4 IP_PROTO_TCP buf
  · simp only [if_pos hip, within_bind, within_byte, within_ite, within_pure, value_field16,
      within_field16, within_field32]
    constructor
    · rintro ⟨h1, -, h2⟩ - -
      refine ⟨by omega, fun hc => ⟨?_, fun hf => hf.elim⟩⟩
      obtain ⟨h3, -, h4⟩ := h2 (not_not.mpr hc.1)
      have := h4 (not_not.mpr hc.2)
      omega
    · intro h
      obtain ⟨h1, h2⟩ := h h54 hip
      refine ⟨by omega, fun _ => trivial, fun hd => ⟨by omega, fun _ => trivial, fun hs => ?_⟩⟩
      have := (h2 ⟨not_not.mp hd, not_not.mp hs⟩).1
      exact ⟨by omega, by omega, by omega, by omega, by omega, trivial⟩
  · simp only [if_neg hip, within_pure]
    exact iff_of_true trivial fun _ h => absurd h hip

theorem tcpFits_and {taken : Prop} : TcpFits c n buf taken ↔ TcpFits c n buf False ∧
    (54 ≤ n → IsIpv4 IP_PROTO_TCP buf → OfConn c buf → taken → ihl buf + tcpHlen buf < be16 buf 16 →
    14 + be16 buf 16 ≤ n) := by
  unfold TcpFits
  constructor
  · exact fun h => ⟨fun hn hip => ⟨(h hn hip).1,
      fun hc => ⟨((h hn hip).2 hc).1, fun hf => hf.elim⟩⟩, fun hn hip hc => ((h hn hip).2 hc).2⟩
  · exact fun h hn hip => ⟨(h.1 hn hip).1, fun hc => ⟨((h.1 hn hip).2 hc).1, h.2 hn hip hc⟩⟩

theorem payload_inside_iff (hle : ihl buf + tcpHlen buf ≤ be16 buf 16) :
    ((segmentOf buf).plen = 0 ∨ (segmentOf buf).payload + (segmentOf buf).plen ≤ n) ↔
      (ihl buf + tcpHlen buf < be16 buf 16 → 14 + be16 buf 16 ≤ n) := by
  have hpay : (segmentOf buf).payload = 14 + ihl buf + tcpHlen buf := rfl
  rw [plen_eq hle, hpay]
  omega

theorem poll_inside_iff : PollInside c n buf ↔ TcpFits c n buf True := by
  rw [PollInside, tcpFits_and, tcp_within_iff, value_tcpPollSegment]
  refine and_congr_right fun _ => ?_
  by_cases hs : 54 ≤ n ∧ IsIpv4 IP_PROTO_TCP buf ∧ OfConn c buf
  · rw [if_pos hs]
    obtain ⟨h1, h2, h3⟩ := hs
    constructor
    · intro h _ _ _ _ hlt
      exact (payload_inside_iff hlt.le).mp (h _ rfl ((taken_iff buf).mpr hlt.le)) hlt
    · intro h s hs ht
      obtain rfl : segmentOf buf = s := Option.some.inj hs
      exact (payload_inside_iff ((taken_iff buf).mp ht)).mpr (h h1 h2 h3 trivial)
  · rw [if_neg hs]
    exact iff_of_true (fun s h => by cases h) fun h1 h2 h3 => absurd ⟨h1, h2, h3⟩ hs

/-- The segment is the next one of the stream, and not a reset. -/
def InOrder (c : Conn) (buf : ℕ → UInt8) : Prop :=
  buf (14 + ihl buf + 13) &&& TCP_RST = 0 ∧ be32 buf (14 + ihl buf + 4) = c.rcvNxt

theorem within_spill {rem : ℕ} (hrem : rem ≤ RX_BUF) : Within n (spill p rem) buf ↔ rem = 0 ∨ p + rem ≤ n := by
  rw [spill, if_pos hrem, within_bytes]

/-- Of a segment in order all of the payload is copied, of any other one nothing. -/
theorem recv_within_iff : Within n (recvRound c max n) buf ↔ TcpFits c n buf (InOrder c buf) := by
  rw [recvRound, within_bind, tcpFits_and, tcp_within_iff, value_tcpPollSegment]
  refine and_congr_right fun _ => ?_
  by_cases hs : 54 ≤ n ∧ IsIpv4 IP_PROTO_TCP buf ∧ OfConn c buf
  · rw [if_pos hs]
    obtain ⟨h1, h2, h3⟩ := hs
    have hplen_lt := be16_lt buf 16
    simp only [within_ite, within_pure, within_bind, within_bytes]
    constructor
    · intro h _ _ _ hin hlt
      have hplen := plen_eq hlt.le
      have htaken : ¬ (segmentOf buf).taken = false := by
        rw [(taken_iff buf).mpr hlt.le]
        decide
      obtain ⟨hout, hrest, -⟩ := ((h.2 htaken).2 (not_not.mpr hin.1)).1 ⟨by omega, hin.2⟩
      rw [within_spill (by unfold RX_BUF; omega)] at hrest
      exact (payload_inside_iff hlt.le).mp (by omega) hlt
    · intro h
      refine ⟨fun _ => trivial, fun ht =>
        ⟨fun _ => trivial, fun hrst => ⟨fun hseq => ?_,
        fun _ => ⟨fun _ => trivial, fun _ => trivial⟩⟩⟩⟩
      have hle := (taken_iff buf).mp (Bool.not_eq_false _ ▸ ht)
      have hplen := plen_eq hle
      have hin := (payload_inside_iff hle).mpr (h h1 h2 h3 ⟨not_not.mp hrst, hseq.2⟩)
      refine ⟨by omega, ?_, trivial⟩
      rw [within_spill (by unfold RX_BUF; omega)]
      omega
  · rw [if_neg hs]
    exact iff_of_true (within_pure _) fun h1 h2 h3 => absurd ⟨h1, h2, h3⟩ hs

/-- In each round of `tcp_recv` the frame is read inside its bounds. -/
def RecvInside (max : ℕ) : ℕ → Conn → (ℕ → Frame) → Prop
  | 0, _, _ => True
  | rounds + 1, c, frames => Within (frames 0).len (recvRound c max (frames 0).len) (frames 0).buf ∧
      ∀ c', (recvRound c max (frames 0).len).value (frames 0).buf = .again c' →
        RecvInside max rounds c' fun i => frames (i + 1)

def RecvFits (max : ℕ) : ℕ → Conn → (ℕ → Frame) → Prop
  | 0, _, _ => True
  | rounds + 1, c, frames => TcpFits c (frames 0).len (frames 0).buf (InOrder c (frames 0).buf) ∧
      ∀ c', (recvRound c max (frames 0).len).value (frames 0).buf = .again c' →
        RecvFits max rounds c' fun i => frames (i + 1)

theorem recv_inside_iff (max rounds : ℕ) (c : Conn) (frames : ℕ → Frame) :
    RecvInside max rounds c frames ↔ RecvFits max rounds c frames := by
  induction rounds generalizing c frames with
  | zero => exact Iff.rfl
  | succ rounds ih => exact and_congr recv_within_iff (forall_congr' fun c' => imp_congr_right fun _ => ih c' _)

/-- What the parsers read of a frame of `n` bytes, and what they hand on, lies inside it, exactly
when its fields say so. -/
theorem packets_inside_iff (c : Conn) (n id seq port max : ℕ) (buf : ℕ → UInt8) :
    (PollInside c n buf ↔ TcpFits c n buf True) ∧
    (∀ rounds frames, RecvInside max rounds c frames ↔ RecvFits max rounds c frames) ∧
    (Within n (pollUdp n port max) buf ↔ UdpFits port max n buf) ∧
    (Within n (pollEchoReply n id seq) buf ↔ EchoFits id n buf) :=
  ⟨poll_inside_iff, fun rounds frames => recv_inside_iff max rounds c frames, udp_within_iff,
  echo_within_iff⟩

/-- A buffer with the given bytes, zero behind them. -/
def bufferOf (l : List (ℕ × UInt8)) (p : ℕ) : UInt8 := (l.lookup p).getD 0

/-- A datagram to port 0x5000 that says it has 1000 bytes. -/
def shortDatagram : ℕ → UInt8 :=
  bufferOf [(12, 0x08), (14, 0x45), (23, 17), (36, 0x50), (38, 0x03), (39, 0xE8)]

/-- A segment from port 80 to port 0xD000 in a packet that says it has 1000 bytes. -/
def shortSegment : ℕ → UInt8 :=
  bufferOf [(12, 0x08), (14, 0x45), (16, 0x03), (17, 0xE8), (23, 6), (35, 80), (36, 0xD0),
  (46, 0x50), (47, 0x10)]

/-- Frames of 42 and 54 bytes, of which more is copied than was received. -/
theorem short_frames_overread : ¬ Within 42 (pollUdp 42 0x5000 512) shortDatagram ∧
    ¬ Within 54 (recvRound ⟨true, 80, 0xD000, 0, false, [], 0, []⟩ 100 54) shortSegment ∧
    ¬ PollInside ⟨true, 80, 0xD000, 0, false, [], 0, []⟩ 54 shortSegment := by
  rw [udp_within_iff, recv_within_iff, poll_inside_iff]
  unfold UdpFits TcpFits InOrder
  exact ⟨by decide, by decide, by decide⟩

end ComputerOS.Net
