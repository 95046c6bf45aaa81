import ComputerOS.Lib.Reading
import Mathlib.Algebra.Ring.Nat
import Mathlib.Algebra.Ring.Int.Defs

/-!
Received frames. A frame is what `e1000_receive_poll` puts into the buffer, with its length; behind
the frame the buffer holds what was there before. The headers are packed and in network byte order,
and their fields are read by offset.
-/
namespace ComputerOS.Net

open Reading

def u32 (x : ℕ) : ℕ := x % 2 ^ 32

def ETHERTYPE_IPV4 : ℕ := 0x0800
def IP_PROTO_ICMP : ℕ := 1
def IP_PROTO_TCP : ℕ := 6
def IP_PROTO_UDP : ℕ := 17
def ICMP_ECHO_REPLY : ℕ := 0

def TCP_FIN : UInt8 := 0x01
def TCP_SYN : UInt8 := 0x02
def TCP_RST : UInt8 := 0x04
def TCP_PSH : UInt8 := 0x08
def TCP_ACK : UInt8 := 0x10

def field16 (p : ℕ) : Reading ℕ := do
  let hi ← byte p
  let lo ← byte (p + 1)
  pure (hi.toNat * 256 + lo.toNat)

def field32 (p : ℕ) : Reading ℕ := do
  let hi ← field16 p
  let lo ← field16 (p + 2)
  pure (hi * 65536 + lo)

/-- The length of the IP header, when the frame is an IPv4 packet of the protocol. -/
def ipHeader (protocol : ℕ) : Reading (Option ℕ) := do
  let ethertype ← field16 12
  if ethertype ≠ ETHERTYPE_IPV4 then pure none
  else
    let verIhl ← byte 14
    if verIhl.toNat / 16 ≠ 4 then pure none
    else
      let proto ← byte 23
      if proto.toNat ≠ protocol then pure none
      else pure (some (verIhl.toNat % 16 * 4))

def pollEchoReply (len id seq : ℕ) : Reading Bool := do
  if len < 14 + 20 + 8 then pure false
  else
    match ← ipHeader IP_PROTO_ICMP with
    | none => pure false
    | some ihl =>
      let type ← byte (14 + ihl)
      if type.toNat ≠ ICMP_ECHO_REPLY then pure false
      else
        let id' ← field16 (14 + ihl + 4)
        if id' ≠ id then pure false
        else
          let seq' ← field16 (14 + ihl + 6)
          pure (decide (seq' = seq))

/-- `poll_udp` on a frame of `n` bytes: the body that is copied out. -/
def pollUdp (n ourPort max : ℕ) : Reading (List UInt8) := do
  if n < 14 + 20 + 8 then pure []
  else
    match ← ipHeader IP_PROTO_UDP with
    | none => pure []
    | some ihl =>
      let dstPort ← field16 (14 + ihl + 2)
      if dstPort ≠ ourPort then pure []
      else
        let bodyLen ← field16 (14 + ihl + 4)
        if bodyLen < 8 then pure []
        else bytes (14 + ihl + 8) (min (bodyLen - 8) max)

/-- `struct tcp_conn`: the bytes stored in `rx_buf` and how many of them are consumed. `acks` are
the values of `rcv_nxt` that were sent, the last one first. -/
structure Conn where
  used : Bool := true
  dstPort : ℕ
  srcPort : ℕ
  rcvNxt : ℕ
  peerFin : Bool := false
  rxBuf : List UInt8 := []
  rxPos : ℕ := 0
  acks : List ℕ := []

def RX_BUF : ℕ := 524288

/-- What `tcp_poll_segment` writes through its pointers: `payload` is an offset into the buffer. -/
structure Segment where
  flags : UInt8
  seq : ℕ
  ack : ℕ
  payload : ℕ
  plen : ℕ

/-- `tcp_poll_segment` on a frame of `n` bytes. The length is returned as an `int`. -/
def tcpPollSegment (c : Conn) (n : ℕ) : Reading (Option Segment) := do
  if n < 14 + 20 + 20 then pure none
  else
    match ← ipHeader IP_PROTO_TCP with
    | none => pure none
    | some ihl =>
      let tcp := 14 + ihl
      let dstPort ← field16 (tcp + 2)
      if dstPort ≠ c.srcPort then pure none
      else
        let srcPort ← field16 tcp
        if srcPort ≠ c.dstPort then pure none
        else
          let dataOff ← byte (tcp + 12)
          let tcpHlen := dataOff.toNat / 16 * 4
          let ipTotal ← field16 16
          let flags ← byte (tcp + 13)
          let seq ← field32 (tcp + 4)
          let ack ← field32 (tcp + 8)
          pure (some ⟨flags, seq, ack, tcp + tcpHlen, u32 (ipTotal + 2 ^ 32 - ihl - tcpHlen)⟩)

/-- The caller takes a segment when the length is not negative as an `int`. -/
def Segment.taken (s : Segment) : Bool := decide (s.plen < 2 ^ 31)

/-- One round of the loop of `tcp_recv`: it goes on, or returns a number and the bytes that it has
copied out. -/
inductive Round
  | again (c : Conn)
  | done (ret : ℤ) (out : List UInt8) (c : Conn)

def Conn.sendAck (c : Conn) : Conn := { c with acks := c.rcvNxt :: c.acks }

/-- `plen` bytes are accepted; what the caller has no room for is stored. -/
def Conn.accept (c : Conn) (flags : UInt8) (plen : ℕ) (rest : List UInt8) : Conn :=
  let c := if rest ≠ [] then { c with rxBuf := rest, rxPos := 0 } else c
  let c := { c with rcvNxt := u32 (c.rcvNxt + plen) }
  let c := if flags &&& TCP_FIN ≠ 0 then { c with rcvNxt := u32 (c.rcvNxt + 1), peerFin := true } else c
  c.sendAck

/-- The FIN branch of `tcp_recv`, for a segment without data. -/
def Conn.onFin (c : Conn) (s : Segment) : Round :=
  if s.flags &&& TCP_FIN ≠ 0 ∧ s.plen = 0 ∧ s.seq = c.rcvNxt then
    .done (-1) [] { (({ c with rcvNxt := u32 (s.seq + 1) } : Conn).sendAck) with peerFin := true }
  else .again c

/-- The rest of `rem` bytes behind the first `n` is copied when it fits into `rx_buf`. -/
def spill (p rem : ℕ) : Reading (List UInt8) := if rem ≤ RX_BUF then bytes p rem else pure []

/-- What `tcp_recv` does with a frame of `len` bytes. -/
def recvRound (c : Conn) (max len : ℕ) : Reading Round := do
  match ← tcpPollSegment c len with
  | none => pure (.again c)
  | some s =>
    if s.taken = false then pure (.again c)
    else if s.flags &&& TCP_RST ≠ 0 then pure (.done (-1) [] { c with peerFin := true })
    else if 0 < s.plen ∧ s.seq = c.rcvNxt then
      let n := min s.plen max
      let out ← bytes s.payload n
      let rest ← spill (s.payload + n) (s.plen - n)
      pure (.done n out (c.accept s.flags s.plen rest))
    else if 0 < s.plen then pure (.again c.sendAck)
    else pure (c.onFin s)

/-- A frame in the buffer, and its length. -/
structure Frame where
  buf : ℕ → UInt8
  len : ℕ

/-- The loop of `tcp_recv`, one frame a round; a round without a frame has one of length 0. -/
def recvLoop (max : ℕ) : ℕ → Conn → (ℕ → Frame) → ℤ × List UInt8 × Conn
  | 0, c, _ => (0, [], c)
  | rounds + 1, c, frames =>
      match (recvRound c max (frames 0).len).value (frames 0).buf with
      | .done ret out c => (ret, out, c)
      | .again c => recvLoop max rounds c fun i => frames (i + 1)

/-- The bytes in `rx_buf` are handed out first. -/
def Conn.drain (c : Conn) (max : ℕ) : ℤ × List UInt8 × Conn :=
  let out := (c.rxBuf.drop c.rxPos).take max
  let c := { c with rxPos := c.rxPos + out.length }
  (out.length, out, if c.rxBuf.length ≤ c.rxPos then { c with rxBuf := [], rxPos := 0 } else c)

/-- `tcp_recv`: the number returned, and the bytes copied out. -/
def tcpRecv (c : Conn) (max timeoutMs : ℕ) (frames : ℕ → Frame) : ℤ × List UInt8 × Conn :=
  if c.used = false then (-1, [], c)
  else if c.rxPos < c.rxBuf.length then c.drain max
  else if c.peerFin then (-1, [], c)
  else recvLoop max ((timeoutMs + 4) / 5) c frames

end ComputerOS.Net
