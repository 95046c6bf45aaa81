import ComputerOS.Net.Checksum
import ComputerOS.Net.Stream

/-!
The sending side of TCP. A segment is built with its headers, checksums and payload in one frame;
`tcp_send` cuts the data into segments of at most 1460 bytes, and `tcp_close` sends the FIN. What
the receiving side makes of these frames is the data again.
-/
namespace ComputerOS.Net

open Reading Bytes

def NET_OUR_IP : ℕ := 0x0A00020F

/-- `htonl`, and `ip_to_net` -/
def htonl (v : ℕ) : ℕ := v % 256 * 2 ^ 24 + v / 2 ^ 8 % 256 * 2 ^ 16 + v / 2 ^ 16 % 256 * 2 ^ 8 + v / 2 ^ 24 % 256

/-- The six bytes of an address. -/
def macBytes (m : Fin 6 → UInt8) : List UInt8 := [m 0, m 1, m 2, m 3, m 4, m 5]

structure TcpConn extends Conn where
  dstIp : ℕ
  sndNxt : ℕ
  gwMac : Fin 6 → UInt8

def ethHeaderOf (dst src : Fin 6 → UInt8) : List UInt8 :=
  macBytes dst ++ macBytes src ++ leBytes 2 (htons ETHERTYPE_IPV4)

def ipHeaderOf (total dstIp checksum : ℕ) : List UInt8 :=
  [0x45, 0] ++ leBytes 2 (htons total) ++ leBytes 2 (htons 0x5555) ++ leBytes 2 (htons 0x4000) ++
    [64, UInt8.ofNat IP_PROTO_TCP] ++ leBytes 2 checksum ++ leBytes 4 (htonl NET_OUR_IP) ++ leBytes
    4 (htonl dstIp)

def tcpHeaderOf (c : TcpConn) (flags : UInt8) (checksum : ℕ) : List UInt8 :=
  leBytes 2 (htons c.srcPort) ++ leBytes 2 (htons c.dstPort) ++ leBytes 4 (htonl c.sndNxt) ++
    leBytes 4 (htonl c.rcvNxt) ++ [(5 : UInt8) <<< 4, flags] ++ leBytes 2 (htons (2 * 1460)) ++
    leBytes 2 checksum ++ leBytes 2 0

/-- `tcp_send_segment` up to the NIC: the frame. The loops of the checksums may look at their sums
`n` times. -/
def tcpSendSegment (n : ℕ) (mac : Fin 6 → UInt8) (c : TcpConn) (flags : UInt8)
    (payload : List UInt8) : Option (List UInt8) :=
  if 1460 < payload.length then none
  else do
    let total := 20 + (20 + payload.length)
    let ipSum ← checksum16 n (ipHeaderOf total c.dstIp 0)
    let tcpSum ← tcpChecksum n (htonl NET_OUR_IP) (htonl c.dstIp) (tcpHeaderOf c flags 0 ++ payload)
    pure (ethHeaderOf c.gwMac mac ++ ipHeaderOf total c.dstIp (htons ipSum) ++ tcpHeaderOf c flags
      (htons tcpSum) ++ payload)

/-- The loop of `tcp_send` over the data that remain; `ok` are the answers of the NIC. The frames
that it took come with it. -/
def sendLoop (n : ℕ) (mac : Fin 6 → UInt8) (ok : ℕ → Bool) (c : TcpConn) (data : List UInt8) :
    Bool × List (List UInt8) × TcpConn :=
  if data = [] then (true, [], c)
  else
    match tcpSendSegment n mac c (TCP_PSH ||| TCP_ACK) (data.take 1460) with
    | none => (false, [], c)
    | some frame =>
      if ok 0 = false then (false, [], c)
      else
        let r := sendLoop n mac (fun i => ok (i + 1))
          { c with sndNxt := u32 (c.sndNxt + (data.take 1460).length) } (data.drop 1460)
        (r.1, frame :: r.2.1, r.2.2)
termination_by data.length
decreasing_by
  rw [List.length_drop]
  have := List.length_pos_of_ne_nil ‹_›
  omega

def tcpSend (n : ℕ) (mac : Fin 6 → UInt8) (ok : ℕ → Bool) (c : TcpConn) (data : List UInt8) :
    ℤ × List (List UInt8) × TcpConn :=
  if c.used = false then (-1, [], c)
  else
    let r := sendLoop n mac ok c data
    (if r.1 then (BitVec.ofNat 32 data.length).toInt else -1, r.2)

/-- The numbers have the widths of their fields. -/
structure TcpConn.InRange (c : TcpConn) : Prop where
  srcPort : c.srcPort < 2 ^ 16
  dstPort : c.dstPort < 2 ^ 16
  sndNxt : c.sndNxt < 2 ^ 32
  rcvNxt : c.rcvNxt < 2 ^ 32

/-- The frame is in the buffer, and what the NIC has put behind it does not matter. -/
structure Frame.Holds (f : Frame) (l : List UInt8) : Prop where
  len : l.length ≤ f.len
  same : ∀ i < l.length, f.buf i = l.getD i 0

def segmentFrame (mac : Fin 6 → UInt8) (c : TcpConn) (flags : UInt8) (payload : List UInt8)
    (ipSum tcpSum : ℕ) : List UInt8 :=
  ethHeaderOf c.gwMac mac ++ ipHeaderOf (20 + (20 + payload.length)) c.dstIp (htons ipSum) ++
    tcpHeaderOf c flags (htons tcpSum) ++ payload

variable {n : ℕ} {mac : Fin 6 → UInt8} {c : TcpConn} {flags : UInt8} {payload frame : List UInt8} {f : Frame}

theorem length_ipHeaderOf (total dstIp checksum : ℕ) : (ipHeaderOf total dstIp checksum).length = 20 := rfl

theorem length_tcpHeaderOf (c : TcpConn) (flags : UInt8) (checksum : ℕ) :
    (tcpHeaderOf c flags checksum).length = 20 := rfl

theorem length_segmentFrame (ipSum tcpSum : ℕ) :
    (segmentFrame mac c flags payload ipSum tcpSum).length = 54 + payload.length := by
  have hhead : (ethHeaderOf c.gwMac mac ++ ipHeaderOf (20 + (20 + payload.length)) c.dstIp
      (htons ipSum) ++ tcpHeaderOf c flags (htons tcpSum)).length = 54 := rfl
  rw [segmentFrame, List.length_append, hhead]

/-- The bytes that the checksum of the segment is about. -/
def summed (c : TcpConn) (seg : List UInt8) : List UInt8 :=
  pseudoHeader (leBytes 4 (htonl NET_OUR_IP)) (leBytes 4 (htonl c.dstIp)) seg.length ++ seg ++
  if seg.length % 2 = 1 then [0] else []

theorem sent_short (hsend : tcpSendSegment n mac c flags payload = some frame) : payload.length ≤ 1460 := by
  by_contra hlong
  rw [tcpSendSegment, if_pos (by omega)] at hsend
  cases hsend

/-- Every segment that is not too long is sent. -/
theorem tcpSendSegment_eq (hn : 3 ≤ n) (mac : Fin 6 → UInt8) (c : TcpConn) (flags : UInt8)
    (hlen : payload.length ≤ 1460) :
    tcpSendSegment n mac c flags payload = some (segmentFrame mac c flags payload
      (complementSum (ipHeaderOf (20 + (20 + payload.length)) c.dstIp 0))
      (complementSum (summed c (tcpHeaderOf c flags 0 ++ payload)))) := by
  have hseg : (tcpHeaderOf c flags 0 ++ payload).length ≤ 1500 := by
    rw [List.length_append, length_tcpHeaderOf]
    omega
  rw [tcpSendSegment, if_neg (Nat.not_lt.2 hlen)]
  dsimp only
  rw [checksum16_eq hn (by rw [length_ipHeaderOf]; decide),
    tcpChecksum_eq hn _ _ hseg]
  rfl

/-- A 16-bit field in network byte order. -/
theorem be16_of_bytes {buf : ℕ → UInt8} {p v : ℕ} (hv : v < 2 ^ 16) (h₀ : buf p = UInt8.ofNat (htons v))
    (h₁ : buf (p + 1) = UInt8.ofNat (htons v / 256)) : be16 buf p = v := by
  obtain ⟨hlo, hhi⟩ := htons_bytes (c := v) (by omega)
  rw [be16, h₀, h₁, toNat_ofNat_byte, toNat_ofNat_byte, hlo, hhi]
  omega

theorem htonl_bytes {v : ℕ} (hv : v < 2 ^ 32) : htonl v % 256 = v / 2 ^ 24 ∧ htonl v / 256 % 256 = v / 2 ^ 16 % 256 ∧
    htonl v / 256 / 256 % 256 = v / 2 ^ 8 % 256 ∧ htonl v / 256 / 256 / 256 % 256 = v % 256 := by
  have h₀ : v % 256 < 256 := Nat.mod_lt _ (by decide)
  have h₁ : v / 2 ^ 8 % 256 < 256 := Nat.mod_lt _ (by decide)
  have h₂ : v / 2 ^ 16 % 256 < 256 := Nat.mod_lt _ (by decide)
  have h₃ : v / 2 ^ 24 < 256 := by omega
  rw [htonl, Nat.mod_eq_of_lt h₃]
  generalize v % 256 = a at h₀ ⊢
  generalize v / 2 ^ 8 % 256 = b at h₁ ⊢
  generalize v / 2 ^ 16 % 256 = c at h₂ ⊢
  generalize v / 2 ^ 24 = d at h₃ ⊢
  omega

theorem be32_of_bytes {buf : ℕ → UInt8} {p v : ℕ} (hv : v < 2 ^ 32) (h₀ : buf p = UInt8.ofNat (htonl v))
    (h₁ : buf (p + 1) = UInt8.ofNat (htonl v / 256)) (h₂ : buf (p + 2) = UInt8.ofNat (htonl v / 256 / 256))
    (h₃ : buf (p + 3) = UInt8.ofNat (htonl v / 256 / 256 / 256)) : be32 buf p = v := by
  obtain ⟨hb₀, hb₁, hb₂, hb₃⟩ := htonl_bytes hv
  rw [be32, be16, be16, h₀, h₁, h₂, h₃, toNat_ofNat_byte, toNat_ofNat_byte, toNat_ofNat_byte,
    toNat_ofNat_byte, hb₀, hb₁, hb₂, hb₃]
  omega

/-- A checksum field with its sum in it. -/
theorem store16_append (a b : List UInt8) (v : ℕ) : store16 (a ++ [0, 0] ++ b) a.length v = a ++ leBytes 2 v ++ b := by
  induction a with
  | nil => rfl
  | cons x a ih =>
    have hstep : store16 (x :: (a ++ [0, 0] ++ b)) (a.length + 1) v = x :: store16 (a ++ [0, 0] ++ b) a.length v := rfl
    rw [List.cons_append, List.cons_append, List.length_cons, hstep, ih]
    rfl

theorem complementSum_field {a b : List UInt8} (ha : a.length % 2 = 0) :
    complementSum (a ++ leBytes 2 (htons (complementSum (a ++ leBytes 2 0 ++ b))) ++ b) = 0 := by
  change complementSum (a ++ leBytes 2 (htons (complementSum (a ++ [0, 0] ++ b))) ++ b) = 0
  obtain ⟨k, hk⟩ : ∃ k, a.length = 2 * k := ⟨a.length / 2, by omega⟩
  have hzero : ∀ j < 2, (a ++ [0, 0] ++ b)[2 * k + j]? = some 0 := by
    intro j hj
    rw [List.append_assoc, List.getElem?_append_right (by omega), hk, Nat.add_sub_cancel_left]
    rcases j with _ | _ | j
    · rfl
    · rfl
    · omega
  rw [← store16_append, hk]
  exact complementSum_store (hzero 0 (by decide)) (hzero 1 (by decide))

theorem ipHeaderOf_verifies (total dstIp : ℕ) :
    complementSum (ipHeaderOf total dstIp (htons (complementSum (ipHeaderOf total dstIp 0)))) = 0 := by
  have hshape : ∀ s, ipHeaderOf total dstIp s = ([0x45, 0] ++ leBytes 2 (htons total) ++ leBytes 2 (htons 0x5555) ++
      leBytes 2 (htons 0x4000) ++ [64, UInt8.ofNat IP_PROTO_TCP]) ++ leBytes 2 s ++
      (leBytes 4 (htonl NET_OUR_IP) ++ leBytes 4 (htonl dstIp)) := by
    intro s
    rw [ipHeaderOf]
    simp only [List.append_assoc]
  rw [hshape, hshape 0]
  exact complementSum_field (by simp only [List.length_append, length_leBytes, List.length_cons, List.length_nil])

theorem segment_verifies (c : TcpConn) (flags : UInt8) (payload : List UInt8) :
    complementSum (summed c (tcpHeaderOf c flags
      (htons (complementSum (summed c (tcpHeaderOf c flags 0 ++ payload)))) ++ payload)) = 0 := by
  have hshape : ∀ s, summed c (tcpHeaderOf c flags s ++ payload) =
      pseudoHeader (leBytes 4 (htonl NET_OUR_IP)) (leBytes 4 (htonl c.dstIp))
        (20 + payload.length) ++ (leBytes 2 (htons c.srcPort) ++ leBytes 2 (htons c.dstPort) ++
          leBytes 4 (htonl c.sndNxt) ++ leBytes 4 (htonl c.rcvNxt) ++ [(5 : UInt8) <<< 4, flags] ++
        leBytes 2 (htons (2 * 1460))) ++ leBytes 2 s ++
        (leBytes 2 0 ++ payload ++ if (20 + payload.length) % 2 = 1 then [0] else []) := by
    intro s
    rw [summed, List.length_append, length_tcpHeaderOf, tcpHeaderOf]
    simp only [List.append_assoc]
  rw [hshape, hshape 0]
  exact complementSum_field (by
    simp only [pseudoHeader, List.length_append, length_leBytes, List.length_cons, List.length_nil])

theorem Frame.Holds.part {a b l : List UInt8} (hf : f.Holds l) (heq : l = a ++ payload ++ b) :
    (bytes a.length payload.length).value f.buf = payload := by
  subst heq
  rw [value_bytes]
  refine List.ext_getElem (by rw [List.length_map, List.length_range]) fun i hi hi' => ?_
  rw [List.getElem_map, List.getElem_range, hf.same _ (by simp only [List.length_append]; omega), List.append_assoc,
    List.getD_append_right _ _ _ _ (by omega), Nat.add_sub_cancel_left, List.getD_append _ _ _ _ hi']
  exact (List.getElem_eq_getD 0).symm

/-- The parser finds the fields and the payload of the frame that was built, and both checksums
verify. -/
theorem segment_received (hn : 3 ≤ n) (hc : c.InRange) (hsend : tcpSendSegment n mac c flags payload = some frame)
    (hf : f.Holds frame) {q : Conn} (hq : q.srcPort = c.dstPort ∧ q.dstPort = c.srcPort) :
    (tcpPollSegment q f.len).value f.buf = some ⟨flags, c.sndNxt, c.rcvNxt, 54, payload.length⟩ ∧
      (bytes 54 payload.length).value f.buf = payload ∧ checksum16 n ((bytes 14 20).value f.buf) = some 0 ∧
      tcpChecksum n (htonl NET_OUR_IP) (htonl c.dstIp) ((bytes 34 (20 + payload.length)).value f.buf) = some 0 := by
  have hlen := sent_short hsend
  rw [tcpSendSegment_eq hn mac c flags hlen] at hsend
  generalize hip : complementSum (ipHeaderOf (20 + (20 + payload.length)) c.dstIp 0) = ipSum at hsend
  generalize htcp : complementSum (summed c (tcpHeaderOf c flags 0 ++ payload)) = tcpSum at hsend
  obtain rfl := Option.some.inj hsend
  have hsize := hf.len
  rw [length_segmentFrame] at hsize
  have hb : ∀ i < 54, f.buf i = (segmentFrame mac c flags payload ipSum tcpSum).getD i 0 := fun i hi =>
    hf.same i (by rw [length_segmentFrame]; omega)
  simp only [segmentFrame, ethHeaderOf, macBytes, ipHeaderOf, tcpHeaderOf, leBytes,
    List.cons_append, List.nil_append] at hb
  have htype : be16 f.buf 12 = ETHERTYPE_IPV4 := be16_of_bytes (by decide) (hb 12 (by decide)) (hb 13 (by decide))
  have htotal : be16 f.buf 16 = 20 + (20 + payload.length) :=
    be16_of_bytes (by omega) (hb 16 (by decide)) (hb 17 (by decide))
  have hver : f.buf 14 = 0x45 := hb 14 (by decide)
  have hproto : f.buf 23 = UInt8.ofNat IP_PROTO_TCP := hb 23 (by decide)
  have hoff : f.buf 46 = (5 : UInt8) <<< 4 := hb 46 (by decide)
  have hihl : ihl f.buf = 20 := by
    rw [ihl, hver]
    rfl
  have hhlen : tcpHlen f.buf = 20 := by
    rw [tcpHlen, hihl, hoff]
    rfl
  have hsrc : be16 f.buf 34 = c.srcPort := be16_of_bytes hc.srcPort (hb 34 (by decide)) (hb 35 (by decide))
  have hdst : be16 f.buf 36 = c.dstPort := be16_of_bytes hc.dstPort (hb 36 (by decide)) (hb 37 (by decide))
  have hseq : be32 f.buf 38 = c.sndNxt :=
    be32_of_bytes hc.sndNxt (hb 38 (by decide)) (hb 39 (by decide)) (hb 40 (by decide)) (hb 41 (by decide))
  have hack : be32 f.buf 42 = c.rcvNxt :=
    be32_of_bytes hc.rcvNxt (hb 42 (by decide)) (hb 43 (by decide)) (hb 44 (by decide)) (hb 45 (by decide))
  have hflags : f.buf 47 = flags := hb 47 (by decide)
  have hpart (a mid b : List UInt8) (heq : _ = a ++ mid ++ b) := Frame.Holds.part hf heq
  refine ⟨?_, ?_, ?_, ?_⟩
  · rw [value_tcpPollSegment, if_pos ⟨by omega, ⟨htype, by rw [hver]; rfl, by rw [hproto]; rfl⟩, by
      rw [OfConn, hihl, hq.1, hq.2]
      exact ⟨hdst, hsrc⟩⟩]
    have hplen : u32 (be16 f.buf 16 + 2 ^ 32 - 20 - 20) = payload.length := by
      rw [htotal, u32]
      omega
    rw [segmentOf, hihl, hhlen, hplen, hseq, hack, hflags]
  · exact hpart (ethHeaderOf c.gwMac mac ++ ipHeaderOf (20 + (20 + payload.length)) c.dstIp
      (htons ipSum) ++ tcpHeaderOf c flags (htons tcpSum)) payload [] (List.append_nil _).symm
  · have hread := hpart (ethHeaderOf c.gwMac mac) (ipHeaderOf (20 + (20 + payload.length)) c.dstIp (htons ipSum))
      (tcpHeaderOf c flags (htons tcpSum) ++ payload) (by simp only [segmentFrame, List.append_assoc])
    have hsum := ipHeaderOf_verifies (20 + (20 + payload.length)) c.dstIp
    rw [hip] at hsum
    change (bytes 14 20).value f.buf = _ at hread
    rw [hread, checksum16_eq hn (by rw [length_ipHeaderOf]; decide), hsum]
  · have hread := hpart (ethHeaderOf c.gwMac mac ++ ipHeaderOf (20 + (20 + payload.length)) c.dstIp (htons ipSum))
      (tcpHeaderOf c flags (htons tcpSum) ++ payload) []
      (by simp only [segmentFrame, List.append_assoc, List.append_nil])
    have hsum := segment_verifies c flags payload
    rw [htcp] at hsum
    have hsize : (tcpHeaderOf c flags (htons tcpSum) ++ payload).length = 20 + payload.length := List.length_append
    rw [hsize] at hread
    change (bytes 34 (20 + payload.length)).value f.buf = _ at hread
    rw [hread, tcpChecksum_eq hn _ _ (by rw [List.length_append, length_tcpHeaderOf]; omega)]
    exact congrArg some hsum

theorem sent_payload (hn : 3 ≤ n) (hsend : tcpSendSegment n mac c flags payload = some frame) :
    frame.drop 54 = payload := by
  rw [tcpSendSegment_eq hn mac c flags (sent_short hsend)] at hsend
  obtain rfl := Option.some.inj hsend
  rfl

/-- The rounds of `tcp_close` behind its FIN: the number that is acknowledged when the peer's FIN
comes. -/
def closeRounds (c : Conn) : ℕ → (ℕ → Frame) → Option ℕ
  | 0, _ => none
  | rounds + 1, frames =>
      match (tcpPollSegment c (frames 0).len).value (frames 0).buf with
      | none => closeRounds c rounds fun i => frames (i + 1)
      | some s =>
        if s.taken = true ∧ s.flags &&& TCP_FIN ≠ 0 then some (u32 (s.seq + s.plen + 1))
        else closeRounds c rounds fun i => frames (i + 1)

def tcpClose (n : ℕ) (mac : Fin 6 → UInt8) (c : TcpConn) (frames : ℕ → Frame) : List (List UInt8) × TcpConn :=
  if c.used = false then ([], c)
  else
    let fin := (tcpSendSegment n mac c (TCP_FIN ||| TCP_ACK) []).toList
    let c := { c with sndNxt := u32 (c.sndNxt + 1) }
    match closeRounds c.toConn 50 frames with
    | none => (fin, { c with used := false })
    | some ack =>
      let c := { c with rcvNxt := ack }
      (fin ++ (tcpSendSegment n mac c TCP_ACK []).toList, { c with used := false })

/-- The acknowledgements that `tcp_recv` sends: `acks` are their numbers. -/
def ackFrames (n : ℕ) (mac : Fin 6 → UInt8) (c : TcpConn) (acks : List ℕ) : List (List UInt8) :=
  acks.filterMap fun a => tcpSendSegment n mac { c with rcvNxt := a } TCP_ACK []

/-- What `tcp_send` accepts of the data: as many bytes as it returns; when it fails, those of the
frames that the NIC took. -/
def accepted (more : List UInt8) (out : ℤ × List (List UInt8) × TcpConn) : List UInt8 :=
  more.take (if 0 ≤ out.1 then out.1.toNat else 1460 * out.2.1.length)

/-- Calls on a connection: the connection, the frames that the NIC has taken, the data that was
accepted, and whether it is closed. -/
inductive Sent (n : ℕ) (mac : Fin 6 → UInt8) (c₀ : TcpConn) : TcpConn → List (List UInt8) → List UInt8 → Bool → Prop
  | start : Sent n mac c₀ c₀ [] [] false
  | send {c : TcpConn} {wire : List (List UInt8)} {data : List UInt8} (more : List UInt8) (ok : ℕ → Bool)
      (h : Sent n mac c₀ c wire data false) (hlen : more.length < 2 ^ 32) : Sent n mac c₀ (tcpSend n mac ok c more).2.2
        (wire ++ (tcpSend n mac ok c more).2.1) (data ++ accepted more (tcpSend n mac ok c more)) false
  | recv {c : TcpConn} {wire acks : List (List UInt8)} {data : List UInt8} (max timeoutMs : ℕ) (frames : ℕ → Frame)
      (h : Sent n mac c₀ c wire data false)
      (hacks : acks.Sublist (ackFrames n mac c (tcpRecv c.toConn max timeoutMs frames).2.2.acks.reverse)) :
      Sent n mac c₀ { c with toConn := { (tcpRecv c.toConn max timeoutMs
      frames).2.2 with acks := [] } } (wire ++ acks) data false
  | close {c : TcpConn} {wire last : List (List UInt8)} {data : List UInt8} (frames : ℕ → Frame)
      (h : Sent n mac c₀ c wire data false) (hlast : last.Sublist (tcpClose n mac c frames).1) :
      Sent n mac c₀ (tcpClose n mac c frames).2 (wire ++ last) data true

def TcpConn.Same (c c₀ : TcpConn) : Prop := c.srcPort = c₀.srcPort ∧ c.dstPort = c₀.dstPort ∧ c.dstIp = c₀.dstIp

def Carries (n : ℕ) (mac : Fin 6 → UInt8) (c₀ : TcpConn) (data : List UInt8) (closed : Bool)
    (frame : List UInt8) : Prop :=
  ∃ (c : TcpConn) (flags : UInt8) (payload : List UInt8), c.InRange ∧ c.Same c₀ ∧
    tcpSendSegment n mac c flags payload = some frame ∧ flags &&& TCP_RST = 0 ∧
    ((payload = [] ∧ flags &&& TCP_FIN = 0) ∨ ∃ off, c.sndNxt = u32 (c₀.sndNxt + off) ∧
      payload <+: data.drop off ∧ off ≤ data.length ∧
      (flags &&& TCP_FIN ≠ 0 → closed = true ∧ off + payload.length = data.length))

variable {c₀ c' : TcpConn} {data more acc : List UInt8} {closed : Bool} {wire : List (List UInt8)} {q q' : Conn}

/-- The connection is between the same ports, and its numbers have 32 bits if they had. -/
def Conn.Leads (q q' : Conn) : Prop := q'.used = q.used ∧ q'.srcPort = q.srcPort ∧
  q'.dstPort = q.dstPort ∧ (q.rcvNxt < 2 ^ 32 ∧ (∀ a ∈ q.acks, a < 2 ^ 32) → q'.rcvNxt < 2 ^ 32 ∧
  ∀ a ∈ q'.acks, a < 2 ^ 32)

theorem leads_sendAck (q : Conn) : q.Leads q.sendAck := by
  refine ⟨rfl, rfl, rfl, fun h => ⟨h.1, fun a ha => ?_⟩⟩
  rcases List.mem_cons.1 ha with rfl | ha
  · exact h.1
  · exact h.2 a ha

theorem Conn.Leads.trans {q'' : Conn} (h : q.Leads q') (h' : q'.Leads q'') : q.Leads q'' :=
  ⟨h'.1.trans h.1, h'.2.1.trans h.2.1, h'.2.2.1.trans h.2.2.1, fun hq => h'.2.2.2 (h.2.2.2 hq)⟩

theorem leads_accept (q : Conn) (plen : ℕ) (rest : List UInt8) : q.Leads (q.accept flags plen rest) := by
  obtain ⟨hused, hsrc, hdst⟩ := accept_same q flags plen rest
  have hnum : (q.accept flags plen rest).rcvNxt < 2 ^ 32 := by
    rw [accept_rcvNxt]
    exact Nat.mod_lt _ (Nat.two_pow_pos 32)
  refine ⟨hused, hsrc, hdst, fun h => ⟨hnum, fun a ha => ?_⟩⟩
  rw [accept_acks] at ha
  rcases List.mem_cons.1 ha with rfl | ha
  · exact hnum
  · exact h.2 a ha

def Round.conn : Round → Conn
  | .again q => q
  | .done _ _ q => q

theorem recvRound_leads (q : Conn) (max : ℕ) (f : Frame) : q.Leads ((recvRound q max f.len).value f.buf).conn := by
  have hrefl : q.Leads q := ⟨rfl, rfl, rfl, id⟩
  unfold recvRound
  rw [value_bind]
  cases (tcpPollSegment q f.len).value f.buf with
  | none => exact hrefl
  | some s =>
    dsimp only
    simp only [value_ite, value_pure, value_bind, Conn.onFin]
    split_ifs
    · exact hrefl
    · exact hrefl
    · exact leads_accept q s.plen _
    · exact leads_sendAck q
    · have hlt : u32 (s.seq + 1) < 2 ^ 32 := Nat.mod_lt _ (Nat.two_pow_pos 32)
      refine ⟨rfl, rfl, rfl, fun h => ⟨hlt, fun a ha => ?_⟩⟩
      rcases List.mem_cons.1 ha with rfl | ha
      · exact hlt
      · exact h.2 a ha
    · exact hrefl

theorem tcpRecv_leads (q : Conn) (max timeoutMs : ℕ) (frames : ℕ → Frame) :
    q.Leads (tcpRecv q max timeoutMs frames).2.2 := by
  have hrefl : q.Leads q := ⟨rfl, rfl, rfl, id⟩
  have hloop : ∀ (rounds : ℕ) (q : Conn) (frames : ℕ → Frame), q.Leads (recvLoop max rounds q frames).2.2 := by
    intro rounds
    induction rounds with
    | zero => exact fun q _ => ⟨rfl, rfl, rfl, id⟩
    | succ rounds ih =>
      intro q frames
      have hround := recvRound_leads q max (frames 0)
      rw [recvLoop]
      split
      · rename_i heq
        rw [heq] at hround
        exact hround
      · rename_i heq
        rw [heq] at hround
        exact hround.trans (ih _ _)
  unfold tcpRecv
  split_ifs
  · exact hrefl
  · simp only [Conn.drain]
    split_ifs <;> exact ⟨rfl, rfl, rfl, id⟩
  · exact hrefl
  · exact hloop _ _ _

theorem Carries.mono (h : Carries n mac c₀ data false frame) (more : List UInt8) (closed : Bool) :
    Carries n mac c₀ (data ++ more) closed frame := by
  obtain ⟨c, flags, payload, hc, hsame, hsend, hrst, hbare | ⟨off, hseq, hpre, hoff, hfin⟩⟩ := h
  · exact ⟨c, flags, payload, hc, hsame, hsend, hrst, Or.inl hbare⟩
  · refine ⟨c, flags, payload, hc, hsame, hsend, hrst, Or.inr ⟨off, hseq, ?_, ?_, fun h => ?_⟩⟩
    · rw [List.drop_append_of_le_length hoff]
      exact hpre.trans (List.prefix_append _ _)
    · rw [List.length_append]
      omega
    · exact absurd (hfin h).1 Bool.false_ne_true

theorem sndNxt_same (hc : c.InRange) : { c with sndNxt := u32 (c.sndNxt + 0) } = c := by
  rw [Nat.add_zero, u32, Nat.mod_eq_of_lt hc.sndNxt]

/-- The loop of `tcp_send` puts the data into frames, as far as the NIC takes them. -/
theorem sendLoop_spec (hn : 3 ≤ n) (ok : ℕ → Bool) (hc : c.InRange) (hsame : c.Same c₀)
    (hseq : c.sndNxt = u32 (c₀.sndNxt + acc.length)) {k : ℕ} {r : Bool × List (List UInt8) × TcpConn}
    (hr : sendLoop n mac ok c data = r) (hk : k = 1460 * r.2.1.length) :
    r.2.2 = { c with sndNxt := u32 (c.sndNxt + (data.take k).length) } ∧ r.2.1.flatMap (List.drop 54) = data.take k ∧
      (∀ l ∈ r.2.1, Carries n mac c₀ (acc ++ data.take k) false l) ∧ (r.1 = true → data.take k = data) := by
  induction ok, c, data using sendLoop.induct n mac generalizing acc k r with
  | case1 ok c =>
    rw [sendLoop, if_pos rfl] at hr
    subst hr
    rw [List.take_nil]
    exact ⟨(sndNxt_same hc).symm, rfl, fun l hl => absurd hl List.not_mem_nil, fun _ => rfl⟩
  | case2 ok c data hne hfail =>
    rw [sendLoop, if_neg hne, hfail] at hr
    subst hr
    subst hk
    exact ⟨(sndNxt_same hc).symm, rfl, fun l hl => absurd hl List.not_mem_nil, fun h => absurd h Bool.false_ne_true⟩
  | case3 ok c data hne frame hframe hok =>
    rw [sendLoop, if_neg hne, hframe] at hr
    dsimp only at hr
    rw [if_pos hok] at hr
    subst hr
    subst hk
    exact ⟨(sndNxt_same hc).symm, rfl, fun l hl => absurd hl List.not_mem_nil, fun h => absurd h Bool.false_ne_true⟩
  | case4 ok c data hne frame hframe hok ih =>
    obtain ⟨c₁, hc₁⟩ : ∃ c₁ : TcpConn, c₁ = { c with sndNxt := u32 (c.sndNxt + (data.take 1460).length) } := ⟨_, rfl⟩
    have hrange : c₁.InRange := hc₁ ▸ ⟨hc.srcPort, hc.dstPort, Nat.mod_lt _ (Nat.two_pow_pos 32), hc.rcvNxt⟩
    have hseq₁ : c₁.sndNxt = u32 (c₀.sndNxt + (acc ++ data.take 1460).length) := by
      rw [hc₁, hseq, List.length_append]
      unfold u32
      dsimp only
      omega
    obtain ⟨r₁, hr₁⟩ : ∃ r₁, sendLoop n mac (fun i => ok (i + 1)) c₁ (data.drop 1460) = r₁ := ⟨_, rfl⟩
    rw [← hc₁] at ih
    obtain ⟨hlast, hpay, hall, hdone⟩ := ih hrange (by rw [hc₁]; exact hsame) hseq₁ hr₁ rfl
    rw [sendLoop, if_neg hne, hframe] at hr
    dsimp only at hr
    rw [if_neg hok, ← hc₁, hr₁] at hr
    subst hr
    obtain rfl : k = 1460 + 1460 * r₁.2.1.length := by
      simp only [List.length_cons] at hk
      omega
    have hsplit : data.take (1460 + 1460 * r₁.2.1.length) = data.take 1460 ++ (data.drop 1460).take
      (1460 * r₁.2.1.length) :=
      List.take_add
    have hacc : acc ++ data.take (1460 + 1460 * r₁.2.1.length) =
        acc ++ data.take 1460 ++ (data.drop 1460).take (1460 * r₁.2.1.length) := by rw [hsplit, List.append_assoc]
    refine ⟨?_, ?_, fun l hl => ?_, fun hall' => by rw [hsplit, hdone hall', List.take_append_drop]⟩
    · rw [hlast, hsplit, List.length_append, hc₁]
      congr 1
      unfold u32
      dsimp only
      omega
    · rw [List.flatMap_cons, sent_payload hn hframe, hpay, hsplit]
    · rw [hacc]
      rcases List.mem_cons.1 hl with rfl | hl
      · refine (?_ : Carries n mac c₀ (acc ++ data.take 1460) false l).mono _ false
        refine ⟨c, _, _, hc, hsame, hframe, by decide, Or.inr ⟨acc.length, hseq, ?_, ?_, fun hfin => ?_⟩⟩
        · have hdrop : (acc ++ data.take 1460).drop acc.length = data.take 1460 := List.drop_left
          exact (congrArg (List.IsPrefix (data.take 1460)) hdrop).mpr List.prefix_rfl
        · rw [List.length_append]
          exact Nat.le_add_right _ _
        · exact absurd (by decide : (TCP_PSH ||| TCP_ACK) &&& TCP_FIN = 0) hfin
      · exact hall l hl

/-- What holds between the calls. -/
structure Sending (n : ℕ) (mac : Fin 6 → UInt8) (c₀ c : TcpConn) (wire : List (List UInt8))
    (data : List UInt8) (closed : Bool) :
    Prop where
  used : closed = false → c.used = true
  range : c.InRange
  same : c.Same c₀
  next : c.sndNxt = u32 (c₀.sndNxt + data.length + closed.toNat)
  acks : c.acks = []
  carried : wire.flatMap (List.drop 54) = data
  carries : ∀ l ∈ wire, Carries n mac c₀ data closed l

theorem bare_frames (h : Sending n mac c₀ c wire data closed) {l : List UInt8} {a : ℕ}
    (ha : a < 2 ^ 32) {x : ℕ} (hx : x < 2 ^ 32)
    (hsend : tcpSendSegment n mac { c with sndNxt := x, rcvNxt := a } TCP_ACK [] = some l) :
    Carries n mac c₀ data closed l :=
  ⟨{ c with sndNxt := x, rcvNxt := a }, TCP_ACK, [], ⟨h.range.srcPort, h.range.dstPort, hx, ha⟩,
  h.same, hsend,
    by decide, Or.inl ⟨rfl, by decide⟩⟩

/-- A call that returns a count has put all of the data into its frames. -/
theorem accepted_eq (hn : 3 ≤ n) (h : Sending n mac c₀ c wire data false) (ok : ℕ → Bool)
    (hlen : more.length < 2 ^ 32) :
    accepted more (tcpSend n mac ok c more) = more.take (1460 * (tcpSend n mac ok c more).2.1.length) := by
  have hseq : c.sndNxt = u32 (c₀.sndNxt + data.length) := h.next
  obtain ⟨-, -, -, hdone⟩ := sendLoop_spec hn ok h.range h.same hseq (rfl : sendLoop n mac ok c more = _) rfl
  unfold accepted
  split_ifs with hcount
  · unfold tcpSend at hcount ⊢
    rw [if_neg (by rw [h.used rfl]; exact nofun)] at hcount ⊢
    dsimp only at hcount ⊢
    split_ifs at hcount ⊢ with hall
    · have hint : (BitVec.ofNat 32 more.length).toInt.toNat = more.length := by
        rw [BitVec.toInt_eq_toNat_bmod, BitVec.toNat_ofNat, Nat.mod_eq_of_lt hlen, Int.bmod_def] at hcount ⊢
        split_ifs at hcount ⊢ <;> omega
      rw [hint, List.take_length, hdone hall]
    · exact absurd hcount (by decide)
  · rfl

theorem sending_send (hn : 3 ≤ n) (h : Sending n mac c₀ c wire data false) (more : List UInt8) (ok : ℕ → Bool)
    (hlen : more.length < 2 ^ 32) :
    Sending n mac c₀ (tcpSend n mac ok c more).2.2 (wire ++ (tcpSend n mac ok c more).2.1)
      (data ++ accepted more (tcpSend n mac ok c more)) false := by
  rw [accepted_eq hn h ok hlen]
  unfold tcpSend
  split_ifs
  · dsimp only
    rw [List.append_nil, List.length_nil, Nat.mul_zero, List.take_zero, List.append_nil]
    exact h
  · dsimp only
    have hseq : c.sndNxt = u32 (c₀.sndNxt + data.length) := h.next
    obtain ⟨hlast, hpay, hall, -⟩ := sendLoop_spec hn ok h.range h.same hseq (rfl : sendLoop n mac ok c more = _) rfl
    rw [hlast]
    refine ⟨h.used, ⟨h.range.srcPort, h.range.dstPort, Nat.mod_lt _ (Nat.two_pow_pos 32),
      h.range.rcvNxt⟩, h.same, ?_, h.acks,
      by rw [List.flatMap_append, h.carried, hpay], fun l hl => ?_⟩
    · have hnext := h.next
      rw [List.length_append]
      unfold u32 at hnext ⊢
      rw [Bool.toNat_false] at hnext ⊢
      dsimp only
      omega
    · rcases List.mem_append.1 hl with hl | hl
      · exact (h.carries l hl).mono _ false
      · exact hall l hl

theorem sending_recv (hn : 3 ≤ n) (h : Sending n mac c₀ c wire data false) (max timeoutMs : ℕ) (frames : ℕ → Frame)
    {acks : List (List UInt8)} (hacks : acks.Sublist
    (ackFrames n mac c (tcpRecv c.toConn max timeoutMs frames).2.2.acks.reverse)) :
    Sending n mac c₀ { c with toConn := { (tcpRecv c.toConn max timeoutMs
    frames).2.2 with acks := [] } } (wire ++ acks) data false := by
  obtain ⟨hused, hsrc, hdst, hnums⟩ := tcpRecv_leads c.toConn max timeoutMs frames
  obtain ⟨hlt, hall⟩ := hnums ⟨h.range.rcvNxt, by rw [h.acks]; exact fun a ha => absurd ha List.not_mem_nil⟩
  have hframe : ∀ l ∈ acks, ∃ a < 2 ^ 32, tcpSendSegment n mac { c with rcvNxt := a } TCP_ACK [] = some l := by
    intro l hl
    obtain ⟨a, ha, hsend⟩ := List.mem_filterMap.1 (hacks.subset hl)
    exact ⟨a, hall a (List.mem_reverse.1 ha), hsend⟩
  have hnone : acks.flatMap (List.drop 54) = [] := by
    refine List.flatMap_eq_nil_iff.2 fun l hl => ?_
    obtain ⟨a, -, hsend⟩ := hframe l hl
    exact sent_payload hn hsend
  refine ⟨fun hopen => hused.trans (h.used hopen), ⟨by rw [hsrc]; exact h.range.srcPort,
    by rw [hdst]; exact h.range.dstPort, h.range.sndNxt, hlt⟩, ⟨hsrc.trans h.same.1, hdst.trans h.same.2.1, h.same.2.2⟩, h.next,
    rfl, by rw [List.flatMap_append, h.carried, hnone, List.append_nil], fun l hl => ?_⟩
  rcases List.mem_append.1 hl with hl | hl
  · exact h.carries l hl
  · obtain ⟨a, ha, hsend⟩ := hframe l hl
    exact bare_frames h ha h.range.sndNxt hsend

theorem closeRounds_lt (q : Conn) (rounds : ℕ) (frames : ℕ → Frame) {a : ℕ} (h : closeRounds q rounds frames = some a) :
    a < 2 ^ 32 := by
  induction rounds generalizing frames with
  | zero => cases h
  | succ rounds ih =>
    rw [closeRounds] at h
    split at h
    · exact ih _ h
    · split_ifs at h
      · cases h
        exact Nat.mod_lt _ (Nat.two_pow_pos 32)
      · exact ih _ h

theorem close_frames (frames : ℕ → Frame) {l : List UInt8} (hl : l ∈ (tcpClose n mac c frames).1) :
    tcpSendSegment n mac c (TCP_FIN ||| TCP_ACK) [] = some l ∨ ∃ a < 2 ^ 32,
      tcpSendSegment n mac { c with sndNxt := u32 (c.sndNxt + 1), rcvNxt := a } TCP_ACK [] = some l := by
  unfold tcpClose at hl
  split_ifs at hl
  · exact absurd hl List.not_mem_nil
  · dsimp only at hl
    split at hl
    · exact Or.inl (Option.mem_toList.1 hl)
    · rename_i a hrounds
      rcases List.mem_append.1 hl with hl | hl
      · exact Or.inl (Option.mem_toList.1 hl)
      · exact Or.inr ⟨a, closeRounds_lt _ _ _ hrounds, Option.mem_toList.1 hl⟩

theorem sending_close (hn : 3 ≤ n) (h : Sending n mac c₀ c wire data false) (frames : ℕ → Frame)
    {last : List (List UInt8)} (hlast : last.Sublist (tcpClose n mac c frames).1) :
    Sending n mac c₀ (tcpClose n mac c frames).2 (wire ++ last) data true := by
  have hone : u32 (c.sndNxt + 1) < 2 ^ 32 := Nat.mod_lt _ (Nat.two_pow_pos 32)
  have hnext : u32 (c.sndNxt + 1) = u32 (c₀.sndNxt + data.length + true.toNat) := by
    rw [h.next]
    unfold u32
    rw [Bool.toNat_true, Bool.toNat_false]
    omega
  have hnone : last.flatMap (List.drop 54) = [] := by
    refine List.flatMap_eq_nil_iff.2 fun l hl => ?_
    rcases close_frames frames (hlast.subset hl) with hsend | ⟨a, -, hsend⟩
    · exact sent_payload hn hsend
    · exact sent_payload hn hsend
  have hcarries : ∀ l ∈ wire ++ last, Carries n mac c₀ data true l := by
    intro l hl
    rcases List.mem_append.1 hl with hl | hl
    · have hmore := (h.carries l hl).mono [] true
      rwa [List.append_nil] at hmore
    · rcases close_frames frames (hlast.subset hl) with hsend | ⟨a, ha, hsend⟩
      · exact ⟨c, _, [], h.range, h.same, hsend, by decide,
          Or.inr ⟨data.length, h.next, List.nil_prefix, le_rfl, fun _ => ⟨rfl, rfl⟩⟩⟩
      · exact ⟨{ c with sndNxt := u32 (c.sndNxt + 1), rcvNxt := a }, TCP_ACK, [],
          ⟨h.range.srcPort, h.range.dstPort, hone, ha⟩, h.same, hsend, by decide, Or.inl ⟨rfl, by decide⟩⟩
  have hcarried : (wire ++ last).flatMap (List.drop 54) = data := by
    rw [List.flatMap_append, h.carried, hnone, List.append_nil]
  unfold tcpClose
  rw [if_neg (by rw [h.used rfl]; exact nofun)]
  dsimp only
  split
  · exact ⟨nofun, ⟨h.range.srcPort, h.range.dstPort, hone, h.range.rcvNxt⟩, h.same, hnext, h.acks, hcarried, hcarries⟩
  · rename_i a hrounds
    exact ⟨nofun, ⟨h.range.srcPort, h.range.dstPort, hone, closeRounds_lt _ _ _ hrounds⟩, h.same,
      hnext, h.acks, hcarried, hcarries⟩

theorem Sent.sending (hn : 3 ≤ n) (hrange : c₀.InRange) (hused : c₀.used = true) (hacks : c₀.acks = [])
    (h : Sent n mac c₀ c wire data closed) : Sending n mac c₀ c wire data closed := by
  induction h with
  | start =>
    refine ⟨fun _ => hused, hrange, ⟨rfl, rfl, rfl⟩, ?_, hacks, rfl, fun l hl => absurd hl List.not_mem_nil⟩
    exact (Nat.mod_eq_of_lt hrange.sndNxt).symm
  | send more ok _ hlen ih => exact sending_send hn ih more ok hlen
  | recv max timeoutMs frames _ hsub ih => exact sending_recv hn ih max timeoutMs frames hsub
  | close frames _ hsub ih => exact sending_close hn ih frames hsub

/-- The connection as the one who receives the data sees it. -/
def TcpConn.peer (c₀ : TcpConn) (data : List UInt8) (closed : Bool) : Peer where
  port := c₀.srcPort
  ourPort := c₀.dstPort
  bytes := data
  fin := closed
  isn := c₀.sndNxt
  resets := false

/-- Calls of `tcp_recv` at the other end: each frame is one of the wire, or there is none. -/
inductive Delivered (wire : List (List UInt8)) (q₀ : Conn) : Conn → List UInt8 → Prop
  | start : Delivered wire q₀ q₀ []
  | recv {q : Conn} {out : List UInt8} (max timeoutMs : ℕ) (frames : ℕ → Frame) (h : Delivered wire q₀ q out)
      (hf : ∀ i, (frames i).len = 0 ∨ ∃ l ∈ wire, (frames i).Holds l) :
      Delivered wire q₀ (tcpRecv q max timeoutMs frames).2.2 (out ++ (tcpRecv q max timeoutMs frames).2.1)

theorem Carries.genuine (hn : 3 ≤ n) {l : List UInt8} (h : Carries n mac c₀ data closed l) (hf : f.Holds l) :
    Genuine (c₀.peer data closed) f := by
  intro q hq s hs
  obtain ⟨c, flags, payload, hc, hsame, hsend, hrst, hpart⟩ := h
  obtain ⟨hpoll, hbytes, -⟩ := segment_received hn hc hsend hf (q := q)
    ⟨hq.1.trans hsame.2.1.symm, hq.2.trans hsame.1.symm⟩
  obtain rfl := Option.some.inj (hpoll.symm.trans hs)
  refine Or.inr ⟨hrst, ?_⟩
  rcases hpart with ⟨rfl, hfin⟩ | ⟨off, hseq, hpre, hoff, hfin⟩
  · exact Or.inl ⟨rfl, hfin⟩
  · have hlen := hpre.length_le
    rw [List.length_drop] at hlen
    refine Or.inr ⟨off, by dsimp only [TcpConn.peer]; omega, hseq, fun i hi => ?_, hfin⟩
    dsimp only at hi ⊢
    have hget := congrArg (fun l => l.getD i 0) hbytes
    have hmap : ((bytes 54 payload.length).value f.buf).getD i 0 = f.buf (54 + i) := by
      rw [value_bytes, List.getD_eq_getElem?_getD, List.getElem?_map, List.getElem?_range hi]
      rfl
    rw [← hmap, hget, List.prefix_iff_eq_take.1 hpre, List.getD_eq_getElem?_getD,
      List.getElem?_take_of_lt hi, List.getElem?_drop, ← List.getD_eq_getElem?_getD]
    rfl

/-- Whatever is sent, received and closed on a connection, the frames that the NIC takes carry the
accepted data in order, their checksums verify, and whatever the network does with them, `tcp_recv`
at the other end returns a prefix of the data, and reports the end behind all of it only. -/
theorem tcpSend_stream (hn : 3 ≤ n) (hrange : c₀.InRange) (hused : c₀.used = true) (hacks : c₀.acks = [])
    (h : Sent n mac c₀ c wire data closed) :
    wire.flatMap (List.drop 54) = data ∧ c.sndNxt = u32 (c₀.sndNxt + data.length + closed.toNat) ∧
    (∀ l ∈ wire, ∀ f : Frame, f.Holds l → checksum16 n ((bytes 14 20).value f.buf) = some 0 ∧
      tcpChecksum n (htonl NET_OUR_IP) (htonl c₀.dstIp) ((bytes 34 (l.length - 34)).value f.buf) = some 0) ∧
    ∀ (q₀ q : Conn) (out : List UInt8), Opened (c₀.peer data closed) q₀ → data.length < 2 ^ 31 →
      Delivered wire q₀ q out → out <+: data ∧ ∀ (max timeoutMs : ℕ) (frames : ℕ → Frame),
        (∀ i, (frames i).len = 0 ∨ ∃ l ∈ wire, (frames i).Holds l) → (tcpRecv q max timeoutMs frames).1 = -1 →
        closed = true ∧ out = data := by
  have hsending := h.sending hn hrange hused hacks
  have hgenuine : ∀ f : Frame, (f.len = 0 ∨ ∃ l ∈ wire, f.Holds l) → Genuine (c₀.peer data closed) f := by
    rintro f (hnone | ⟨l, hl, hf⟩)
    · intro q _ s hs
      rw [value_tcpPollSegment, if_neg (by omega)] at hs
      cases hs
    · exact (hsending.carries l hl).genuine hn hf
  refine ⟨hsending.carried, hsending.next, fun l hl f hf => ?_, fun q₀ q out hopen hlen hdelivered => ?_⟩
  · obtain ⟨c', flags, payload, hc, hsame, hsend, -, -⟩ := hsending.carries l hl
    obtain ⟨-, -, hip, htcp⟩ := segment_received hn hc hsend hf
      (q := { dstPort := c'.srcPort, srcPort := c'.dstPort, rcvNxt := 0 }) ⟨rfl, rfl⟩
    have hsize : l.length - 34 = 20 + payload.length := by
      rw [tcpSendSegment_eq hn mac c' flags (sent_short hsend)] at hsend
      rw [← Option.some.inj hsend, length_segmentFrame]
      omega
    rw [hsize, ← hsame.2.2]
    exact ⟨hip, htcp⟩
  · have hreceived : Received (c₀.peer data closed) q₀ q out := by
      induction hdelivered with
      | start => exact .start
      | recv max timeoutMs frames _ hf ih => exact .recv max timeoutMs frames ih fun i => hgenuine _ (hf i)
    obtain ⟨k, eof, hold⟩ := hreceived.holding hlen hopen
    refine ⟨⟨q.pending ++ data.drop k, ?_⟩, fun max timeoutMs frames hf hminus => ?_⟩
    · rw [← List.append_assoc, hold.kept]
      exact List.take_append_drop k data
    · exact (tcpRecv_holding hlen max timeoutMs (fun i => hgenuine _ (hf i)) hold).all hminus rfl

/-- Two bytes are sent and the connection is closed. -/
def sendConn : TcpConn := { dstPort := 80, srcPort := 0xD000, rcvNxt := 9, dstIp := 0x0A000202, sndNxt := 7, gwMac := fun _ => 2 }

theorem tcpSend_stream_twoBytes : (tcpSend 3 (fun _ => 1) (fun _ => true) sendConn [72, 105]).1 = 2 ∧
    (tcpSend 3 (fun _ => 1) (fun _ => true) sendConn [72, 105]).2.1.flatMap (List.drop 54) = [72, 105] := by
  have hdone : (sendLoop 3 (fun _ => 1) (fun _ => true) sendConn [72, 105]).1 = true := by
    rw [sendLoop, if_neg nofun, tcpSendSegment_eq le_rfl _ _ _ (by decide)]
    dsimp only
    rw [if_neg nofun, sendLoop, if_pos (by decide)]
  have hcount : (tcpSend 3 (fun _ => 1) (fun _ => true) sendConn [72, 105]).1 = 2 := by
    rw [tcpSend, if_neg nofun]
    dsimp only
    rw [hdone]
    rfl
  have hsent := (tcpSend_stream (n := 3) le_rfl ⟨by decide, by decide, by decide, by decide⟩ rfl rfl
    (.send [72, 105] (fun _ => true) (Sent.start : Sent 3 (fun _ => 1) sendConn sendConn [] [] false) (by decide))).1
  unfold accepted at hsent
  rw [hcount] at hsent
  exact ⟨hcount, hsent⟩

/-- The rounds of `tcp_connect` behind its SYN: the number behind the peer's SYN, and nothing when
the peer refuses or does not answer. -/
def connectRounds (c : Conn) : ℕ → (ℕ → Frame) → Option ℕ
  | 0, _ => none
  | rounds + 1, frames =>
      match (tcpPollSegment c (frames 0).len).value (frames 0).buf with
      | none => connectRounds c rounds fun i => frames (i + 1)
      | some s =>
        if s.taken = false then connectRounds c rounds fun i => frames (i + 1)
        else if s.flags &&& TCP_RST ≠ 0 then none
        else if s.flags &&& TCP_SYN ≠ 0 ∧ s.flags &&& TCP_ACK ≠ 0 then some (u32 (s.seq + 1))
        else connectRounds c rounds fun i => frames (i + 1)

def synConn (dstIp dstPort port seq : ℕ) (gwMac : Fin 6 → UInt8) : TcpConn :=
  { dstPort, srcPort := 0xD000 + port % 0x1000, rcvNxt := 0, dstIp, sndNxt := u32 (0x1000 + u32
  (u32 seq * 7)), gwMac }

/-- `tcp_connect`, with the address of the gateway when ARP finds it, and the answers of the NIC:
the connection and its frames. -/
def tcpConnect (n : ℕ) (mac : Fin 6 → UInt8) (gateway : Option (Fin 6 → UInt8)) (ok : ℕ → Bool)
    (dstIp dstPort port seq : ℕ)
    (frames : ℕ → Frame) : Option (TcpConn × List (List UInt8)) := do
  let gwMac ← gateway
  let c := synConn dstIp dstPort port seq gwMac
  let syn ← tcpSendSegment n mac c TCP_SYN []
  if ok 0 = false then none
  else
    let c := { c with sndNxt := u32 (c.sndNxt + 1) }
    let rcvNxt ← connectRounds c.toConn 1000 frames
    let c := { c with rcvNxt := rcvNxt }
    let ack ← tcpSendSegment n mac c TCP_ACK []
    if ok 1 = false then none else some (c, [syn, ack])

theorem connectRounds_spec {a rounds : ℕ} {frames : ℕ → Frame} (h : connectRounds q rounds frames = some a) :
    ∃ i < rounds, ∃ s, (tcpPollSegment q (frames i).len).value (frames i).buf = some s ∧
      s.flags &&& TCP_SYN ≠ 0 ∧ s.flags &&& TCP_ACK ≠ 0 ∧ a = u32 (s.seq + 1) ∧
      ∀ j ≤ i, ∀ s', (tcpPollSegment q (frames j).len).value (frames j).buf = some s' →
      s'.taken = true → s'.flags &&& TCP_RST = 0 := by
  induction rounds generalizing frames with
  | zero => cases h
  | succ rounds ih =>
    have hnext (h : connectRounds q rounds (fun i => frames (i + 1)) = some a)
        (hfirst : ∀ s, (tcpPollSegment q (frames 0).len).value (frames 0).buf = some s →
        s.taken = true → s.flags &&& TCP_RST = 0) :
        ∃ i < rounds + 1, ∃ s, (tcpPollSegment q (frames i).len).value (frames i).buf = some s ∧
          s.flags &&& TCP_SYN ≠ 0 ∧ s.flags &&& TCP_ACK ≠ 0 ∧ a = u32 (s.seq + 1) ∧ ∀ j ≤ i, ∀ s',
          (tcpPollSegment q (frames j).len).value (frames j).buf = some s' → s'.taken = true →
          s'.flags &&& TCP_RST = 0 := by
      obtain ⟨i, hi, s, hpoll, hsyn, hack, ha, hrst⟩ := ih h
      refine ⟨i + 1, by omega, s, hpoll, hsyn, hack, ha, fun j hj => ?_⟩
      cases j with
      | zero => exact hfirst
      | succ j => exact hrst j (by omega)
    rw [connectRounds] at h
    split at h
    · rename_i hpoll
      exact hnext h fun s hs => by rw [hpoll] at hs; cases hs
    · rename_i s hpoll
      split_ifs at h with htaken hrst hsyn
      · exact hnext h fun s' hs ht => by rw [hpoll] at hs; cases hs; rw [htaken] at ht; cases ht
      · cases h
        refine ⟨0, Nat.succ_pos _, s, hpoll, hsyn.1, hsyn.2, rfl, fun j hj s' hs _ => ?_⟩
        obtain rfl := Nat.le_zero.1 hj
        rw [hpoll] at hs
        cases hs
        exact not_not.1 hrst
      · exact hnext h fun s' hs _ => by rw [hpoll] at hs; cases hs; exact not_not.1 hrst

/-- A connection is open only behind a SYN-ACK with no RST before it; its next byte is the one
behind the peer's SYN, and the two frames sent are the SYN and, with the next number, the
acknowledgement of the peer's. -/
theorem tcpConnect_opened (hn : 3 ≤ n) {gateway : Option (Fin 6 → UInt8)} {ok : ℕ → Bool} {dstIp dstPort port seq : ℕ}
    {frames : ℕ → Frame} (hport : dstPort < 2 ^ 16)
    (h : tcpConnect n mac gateway ok dstIp dstPort port seq frames = some (c, wire)) :
    c.InRange ∧ c.used = true ∧ c.acks = [] ∧ c.dstPort = dstPort ∧ c.dstIp = dstIp ∧
    (∀ p : Peer, c.To p → c.rcvNxt = u32 p.isn → Opened p c.toConn) ∧
    (∃ i < 1000, ∃ s, (tcpPollSegment c.toConn (frames i).len).value (frames i).buf = some s ∧
      s.flags &&& TCP_SYN ≠ 0 ∧ s.flags &&& TCP_ACK ≠ 0 ∧ c.rcvNxt = u32 (s.seq + 1) ∧
      ∀ j ≤ i, ∀ s', (tcpPollSegment c.toConn (frames j).len).value (frames j).buf = some s' →
      s'.taken = true → s'.flags &&& TCP_RST = 0) ∧
    ∃ syn ack, wire = [syn, ack] ∧ (∀ f : Frame, f.Holds syn → ∀ q : Conn, q.srcPort = dstPort → q.dstPort = c.srcPort →
        ∃ isn, c.sndNxt = u32 (isn + 1) ∧ (tcpPollSegment q f.len).value f.buf = some ⟨TCP_SYN, isn, 0, 54, 0⟩) ∧
      ∀ f : Frame, f.Holds ack → ∀ q : Conn, q.srcPort = dstPort → q.dstPort = c.srcPort →
        (tcpPollSegment q f.len).value f.buf = some ⟨TCP_ACK, c.sndNxt, c.rcvNxt, 54, 0⟩ := by
  have hpow : 0 < 2 ^ 32 := Nat.two_pow_pos 32
  unfold tcpConnect at h
  obtain ⟨gwMac, -, h⟩ := Option.bind_eq_some_iff.1 h
  obtain ⟨syn, hsyn, h⟩ := Option.bind_eq_some_iff.1 h
  split at h
  · cases h
  obtain ⟨a, hrounds, h⟩ := Option.bind_eq_some_iff.1 h
  obtain ⟨ack, hack, h⟩ := Option.bind_eq_some_iff.1 h
  split at h
  · cases h
  obtain ⟨hc, rfl⟩ := Prod.mk.inj (Option.some.inj h)
  have hfirst : (synConn dstIp dstPort port seq gwMac).InRange :=
    ⟨by dsimp only [synConn]; omega, hport, Nat.mod_lt _ hpow, hpow⟩
  obtain ⟨i, hi, s, hpoll, hs, hs', ha, hrst⟩ := connectRounds_spec hrounds
  have hlt : a < 2 ^ 32 := ha ▸ Nat.mod_lt _ hpow
  have hrange : c.InRange := hc ▸ ⟨hfirst.srcPort, hport, Nat.mod_lt _ hpow, hlt⟩
  subst hc
  refine ⟨hrange, rfl, rfl, rfl, rfl, fun p hto hnum => ⟨rfl, hto, hnum, rfl, rfl, rfl⟩,
    ⟨i, hi, s, hpoll, hs, hs', ha, hrst⟩, syn, ack, rfl, fun f hf q hsrc hdst => ⟨_, rfl, ?_⟩,
    fun f hf q hsrc hdst => ?_⟩
  · exact (segment_received hn hfirst hsyn hf ⟨hsrc, hdst⟩).1
  · exact (segment_received hn hrange hack hf ⟨hsrc, hdst⟩).1

/-- The SYN-ACK of a peer at port 80. -/
def synAckFrame : Frame := ⟨fun i => List.getD
  (List.replicate 12 0 ++ [8, 0, 0x45, 0, 0, 40, 0, 0, 0, 0, 64, 6] ++ List.replicate 10 0 ++
  [0, 80, 0xD0, 0, 0, 0, 0, 41, 0, 0, 0x10, 1, 0x50, 0x12, 0, 0, 0, 0, 0, 0]) i 0, 60⟩

theorem tcpConnect_opened_port80 : ∃ c wire, tcpConnect 3 (fun _ => 1) (some fun _ => 2)
    (fun _ => true) 0x0A000202 80 0 0
    (fun _ => synAckFrame) = some (c, wire) ∧ Opened ⟨80, 0xD000, [72, 105], true, 42, false⟩ c.toConn := by
  have hrounds : ∀ c : Conn, c.srcPort = 0xD000 → c.dstPort = 80 →
    connectRounds c 1000 (fun _ => synAckFrame) = some 42 := by
    intro c hsrc hdst
    have hof : OfConn c synAckFrame.buf := by
      rw [OfConn, hsrc, hdst]
      decide
    rw [connectRounds, value_tcpPollSegment, if_pos ⟨by decide, by decide, hof⟩]
    rfl
  have hframe : ∀ c flags, ∃ l, tcpSendSegment 3 (fun _ => 1) c flags [] = some l := fun c flags =>
    ⟨_, tcpSendSegment_eq le_rfl _ c flags (Nat.zero_le _)⟩
  obtain ⟨c, hc⟩ : ∃ c, c = { synConn 0x0A000202 80 0 0 (fun _ => 2) with sndNxt := 0x1001, rcvNxt := 42 } := ⟨_, rfl⟩
  obtain ⟨syn, hsyn⟩ := hframe (synConn 0x0A000202 80 0 0 fun _ => 2) TCP_SYN
  obtain ⟨ack, hack⟩ := hframe c TCP_ACK
  have h : tcpConnect 3 (fun _ => 1) (some fun _ => 2) (fun _ => true) 0x0A000202 80 0 0
      (fun _ => synAckFrame) = some (c, [syn, ack]) := by
    rw [tcpConnect, Option.bind_eq_bind, Option.bind_some]
    dsimp only
    rw [hsyn, Option.bind_eq_bind, Option.bind_some, if_neg nofun, hrounds _ rfl rfl,
      Option.bind_eq_bind, Option.bind_some]
    subst hc
    exact congrArg (fun o => Option.bind o _) hack
  obtain ⟨-, -, -, -, -, hopen, -⟩ := tcpConnect_opened le_rfl (by decide) h
  exact ⟨c, [syn, ack], h, hopen ⟨80, 0xD000, [72, 105], true, 42, false⟩ (hc ▸ ⟨rfl, rfl⟩) (hc ▸ rfl)⟩

end ComputerOS.Net
