import ComputerOS.Net.Bounds

/-!
The byte stream of a TCP connection. The network may lose, repeat and reorder the segments of the
peer's stream in any way; what the calls of `tcp_recv` return is a prefix of the stream all the
same, because only the segment that begins at the next byte is accepted, and what the caller has no
room for is kept for the next call.
-/
namespace ComputerOS.Net

open Reading

/-- What the peer sends: the bytes, whether a FIN ends them, and the number of the first byte.
`resets` says whether there may be segments with RST. -/
structure Peer where
  port : ℕ
  ourPort : ℕ
  bytes : List UInt8
  fin : Bool
  isn : ℕ
  resets : Bool

structure Segment.PartOf (s : Segment) (p : Peer) (buf : ℕ → UInt8) (off : ℕ) : Prop where
  le : off + s.plen ≤ p.bytes.length
  seq : s.seq = u32 (p.isn + off)
  payload : ∀ i < s.plen, buf (s.payload + i) = p.bytes.getD (off + i) 0
  fin : s.flags &&& TCP_FIN ≠ 0 → p.fin = true ∧ off + s.plen = p.bytes.length

def Conn.To (c : Conn) (p : Peer) : Prop := c.srcPort = p.ourPort ∧ c.dstPort = p.port

/-- The segment is an acknowledgement only. -/
def Segment.Bare (s : Segment) : Prop := s.plen = 0 ∧ s.flags &&& TCP_FIN = 0

/-- A frame that the connection takes for one of its segments carries RST, or a part of the stream,
or nothing. -/
def Genuine (p : Peer) (f : Frame) : Prop :=
  ∀ c : Conn, c.To p → ∀ s, (tcpPollSegment c f.len).value f.buf = some s →
    (s.flags &&& TCP_RST ≠ 0 ∧ p.resets = true) ∨ (s.flags &&& TCP_RST = 0 ∧ (s.Bare ∨ ∃ off, s.PartOf p f.buf off))

/-- The bytes in `rx_buf` that are still to be handed out. -/
def Conn.pending (c : Conn) : List UInt8 := c.rxBuf.drop c.rxPos

/-- The connection has accepted `k` bytes of the stream, and the FIN when `eof`; the caller has got
`out`. -/
structure Holding (p : Peer) (c : Conn) (out : List UInt8) (k : ℕ) (eof : Bool) : Prop where
  used : c.used = true
  peer : c.To p
  le : k ≤ p.bytes.length
  next : c.rcvNxt = u32 (p.isn + k + eof.toNat)
  kept : out ++ c.pending = p.bytes.take k
  ended : eof = true → p.fin = true ∧ k = p.bytes.length ∧ c.peerFin = true
  closed : c.peerFin = true → eof = true ∨ p.resets = true
  acks : ∀ a ∈ c.acks, ∃ j ≤ k + eof.toNat, a = u32 (p.isn + j)

variable {p : Peer} {c c' : Conn} {f : Frame} {out : List UInt8} {k max : ℕ} {s : Segment} {eof : Bool}

theorem poll_eq (hs : (tcpPollSegment c f.len).value f.buf = some s) : s = segmentOf f.buf ∧ OfConn c f.buf := by
  rw [value_tcpPollSegment] at hs
  split_ifs at hs with h
  exact ⟨(Option.some.inj hs).symm, h.2.2⟩

/-- What a frame holds is the same for all connections that take it. -/
theorem Genuine.of_part {off : ℕ} (hrst : (segmentOf f.buf).flags &&& TCP_RST = 0)
    (hpart : (segmentOf f.buf).PartOf p f.buf off) :
    Genuine p f := by
  intro c _ s hs
  obtain ⟨rfl, -⟩ := poll_eq hs
  exact Or.inr ⟨hrst, Or.inr ⟨off, hpart⟩⟩

/-- A payload of which the caller takes notice is shorter than a packet. -/
theorem plen_lt (hs : (tcpPollSegment c f.len).value f.buf = some s) (hlt : s.plen < 2 ^ 31) : s.plen < 65536 := by
  obtain ⟨rfl, -⟩ := poll_eq hs
  have hle := (taken_iff f.buf).1 (decide_eq_true hlt)
  have hbe := be16_lt f.buf 16
  rw [plen_eq hle]
  omega

/-- Of the parts of the stream only the one that begins at the next byte has its number. -/
theorem part_unique {off : ℕ} (hlen : p.bytes.length < 2 ^ 31) (hk : k ≤ p.bytes.length) (hoff : off ≤ p.bytes.length)
    (h : u32 (p.isn + off) = u32 (p.isn + k)) : off = k := by
  unfold u32 at h
  omega

theorem Holding.sendAck (h : Holding p c out k eof) : Holding p c.sendAck out k eof where
  used := h.used
  peer := h.peer
  le := h.le
  next := h.next
  kept := h.kept
  ended := h.ended
  closed := h.closed
  acks a ha := by
    rcases List.mem_cons.1 ha with rfl | ha
    · exact ⟨k + eof.toNat, le_rfl, by rw [h.next, Nat.add_assoc]⟩
    · exact h.acks a ha

section accept

variable (c : Conn) (flags : UInt8) (plen : ℕ) (rest : List UInt8)

theorem accept_same : (c.accept flags plen rest).used = c.used ∧ (c.accept flags plen rest).srcPort = c.srcPort ∧
    (c.accept flags plen rest).dstPort = c.dstPort := by
  simp only [Conn.accept, Conn.sendAck]
  split_ifs <;> exact ⟨rfl, rfl, rfl⟩

theorem accept_rcvNxt : (c.accept flags plen rest).rcvNxt = u32
    (c.rcvNxt + plen + (decide (flags &&& TCP_FIN ≠ 0)).toNat) := by
  simp only [Conn.accept, Conn.sendAck]
  split_ifs with h₁ h₂ <;> simp_all [u32]

theorem accept_pending : (c.accept flags plen rest).pending = if rest ≠ [] then rest else c.pending := by
  simp only [Conn.accept, Conn.sendAck, Conn.pending]
  split_ifs <;> rfl

theorem accept_peerFin : (c.accept flags plen rest).peerFin = (decide (flags &&& TCP_FIN ≠ 0) || c.peerFin) := by
  simp only [Conn.accept, Conn.sendAck]
  split_ifs <;> simp_all

theorem accept_acks : (c.accept flags plen rest).acks = (c.accept flags plen rest).rcvNxt :: c.acks := by
  simp only [Conn.accept, Conn.sendAck]
  split_ifs <;> rfl

end accept

theorem length_bytes (off n : ℕ) (buf : ℕ → UInt8) : ((bytes off n).value buf).length = n := by
  rw [value_bytes, List.length_map, List.length_range]

/-- The bytes of a part of the stream, as they are copied out of the buffer. -/
theorem payload_eq {buf : ℕ → UInt8} {off i n : ℕ} (hs : s.PartOf p buf off) (hn : i + n ≤ s.plen) :
    (bytes (s.payload + i) n).value buf = (p.bytes.drop (off + i)).take n := by
  have hle := hs.le
  rw [value_bytes]
  refine List.ext_getElem (by rw [List.length_map, List.length_range, List.length_take, List.length_drop]; omega) fun j hj _ => ?_
  rw [List.length_map, List.length_range] at hj
  have hbyte := hs.payload (i + j) (by omega)
  rw [List.getElem_map, List.getElem_range, List.getElem_take, List.getElem_drop, Nat.add_assoc,
    hbyte, List.getD_eq_getElem?_getD, List.getElem?_eq_getElem (by omega), Option.getD_some]
  congr 1
  omega

/-- The next part of the stream is accepted: what the caller has room for goes to it, and the rest
is kept. -/
theorem Holding.accept (h : Holding p c out k false) (hdrained : c.pending = []) {buf : ℕ → UInt8}
    (hs : s.PartOf p buf k)
    (hplen : s.plen < 65536) :
    Holding p (c.accept s.flags s.plen ((spill (s.payload + min s.plen max) (s.plen - min s.plen max)).value buf))
      (out ++ (bytes s.payload (min s.plen max)).value buf) (k + s.plen) (decide (s.flags &&& TCP_FIN ≠ 0)) := by
  obtain ⟨n, hn⟩ : ∃ n, n = min s.plen max := ⟨_, rfl⟩
  have hle : n ≤ s.plen := by omega
  have hrest : (spill (s.payload + n) (s.plen - n)).value buf = (p.bytes.drop (k + n)).take (s.plen - n) := by
    rw [spill, if_pos (by unfold RX_BUF; omega), payload_eq hs (by omega)]
  have hout : (bytes s.payload n).value buf = (p.bytes.drop k).take n := payload_eq hs (i := 0) (by omega)
  rw [← hn, hrest, hout]
  obtain ⟨rest, hr⟩ : ∃ rest, rest = (p.bytes.drop (k + n)).take (s.plen - n) := ⟨_, rfl⟩
  rw [← hr]
  have hwhole : out ++ (p.bytes.drop k).take n ++ rest = p.bytes.take (k + s.plen) := by
    have hgot := h.kept
    rw [hdrained, List.append_nil] at hgot
    have hsplit : s.plen = n + (s.plen - n) := by omega
    rw [hgot, hr, hsplit, ← Nat.add_assoc, List.take_add, List.take_add, Nat.add_sub_cancel_left]
  have hkept : (c.accept s.flags s.plen rest).pending = rest := by
    rw [accept_pending]
    by_cases hnil : rest = []
    · rw [if_neg (not_not.2 hnil), hdrained, hnil]
    · rw [if_pos hnil]
  have hnext := h.next
  have hfin := hs.fin
  obtain ⟨hused, hsrc, hdst⟩ := accept_same c s.flags s.plen rest
  have hnum : (c.accept s.flags s.plen rest).rcvNxt =
      u32 (p.isn + (k + s.plen) + (decide (s.flags &&& TCP_FIN ≠ 0)).toNat) := by
    rw [accept_rcvNxt, hnext]
    unfold u32
    simp only [Bool.toNat_false]
    omega
  refine ⟨hused.trans h.used, ⟨hsrc.trans h.peer.1, hdst.trans h.peer.2⟩, hs.le,
    hnum, by rw [hkept, hwhole], fun he => ?_, fun hclosed => ?_, fun a ha => ?_⟩
  · have hflag := of_decide_eq_true he
    exact ⟨(hfin hflag).1, (hfin hflag).2, by rw [accept_peerFin, he, Bool.true_or]⟩
  · rw [accept_peerFin, Bool.or_eq_true] at hclosed
    rcases hclosed with hclosed | hclosed
    · exact Or.inl hclosed
    · exact Or.inr ((h.closed hclosed).resolve_left Bool.false_ne_true)
  · rw [accept_acks] at ha
    rcases List.mem_cons.1 ha with rfl | ha
    · exact ⟨k + s.plen + (decide (s.flags &&& TCP_FIN ≠ 0)).toNat, le_rfl, by rw [hnum, Nat.add_assoc p.isn]⟩
    · obtain ⟨j, hj, rfl⟩ := h.acks a ha
      exact ⟨j, by rw [Bool.toNat_false] at hj; omega, rfl⟩

/-- What a call returns: the number of the bytes, or -1 when there is nothing more. -/
def Returned (p : Peer) (out : List UInt8) (r : ℤ × List UInt8 × Conn) : Prop :=
  ∃ k eof, Holding p r.2.2 (out ++ r.2.1) k eof ∧
    (r.1 = r.2.1.length ∨ r.1 = -1 ∧ r.2.1 = [] ∧ r.2.2.pending = [] ∧ r.2.2.peerFin = true)

theorem recvRound_holding (max : ℕ) (hlen : p.bytes.length < 2 ^ 31) (h : Holding p c out k false)
    (hopen : c.peerFin = false)
    (hdrained : c.pending = []) (hg : Genuine p f) : match (recvRound c max f.len).value f.buf with
    | .again c' => Holding p c' out k false ∧ c'.peerFin = false ∧ c'.pending = []
    | .done ret got c' => Returned p out (ret, got, c') ∧ (ret = -1 ∨ (0 < max → 0 < ret)) := by
  unfold recvRound
  rw [value_bind]
  cases hpoll : (tcpPollSegment c f.len).value f.buf with
  | none => exact ⟨h, hopen, hdrained⟩
  | some s =>
    dsimp only
    rcases hg c h.peer s hpoll with ⟨hrst, hresets⟩ | ⟨hrst, hbare | ⟨off, hpart⟩⟩
    · by_cases htaken : s.taken = false
      · rw [if_pos htaken]
        exact ⟨h, hopen, hdrained⟩
      · rw [if_neg htaken, if_pos hrst]
        exact ⟨⟨k, false, ⟨h.used, h.peer, h.le, h.next, by rw [List.append_nil]; exact h.kept,
          fun he => absurd he Bool.false_ne_true, fun _ => Or.inr hresets, h.acks⟩, Or.inr ⟨rfl, rfl, hdrained, rfl⟩⟩, Or.inl rfl⟩
    · have hzero := hbare.1
      have htaken : s.taken = true := decide_eq_true (by omega)
      rw [if_neg (by rw [htaken]; exact nofun), if_neg (not_not.2 hrst), if_neg (by omega),
        if_neg (by omega), value_pure, Conn.onFin, if_neg fun hfin => hfin.1 hbare.2]
      exact ⟨h, hopen, hdrained⟩
    · have hle := hpart.le
      have hlt : s.plen < 2 ^ 31 := by omega
      have htaken : s.taken = true := decide_eq_true hlt
      have hplen := plen_lt hpoll hlt
      rw [if_neg (by rw [htaken]; exact nofun), if_neg (not_not.2 hrst)]
      have hnext : c.rcvNxt = u32 (p.isn + k) := h.next
      by_cases hin : 0 < s.plen ∧ s.seq = c.rcvNxt
      · rw [if_pos hin]
        obtain rfl : off = k := part_unique hlen h.le (by omega) (by rw [← hpart.seq, hin.2, hnext])
        exact ⟨⟨_, _, h.accept hdrained hpart hplen,
          Or.inl (congrArg Nat.cast (length_bytes _ _ f.buf).symm)⟩, Or.inr fun hmax => by omega⟩
      · rw [if_neg hin]
        by_cases hpos : 0 < s.plen
        · rw [if_pos hpos]
          exact ⟨h.sendAck, hopen, hdrained⟩
        · rw [if_neg hpos, value_pure, Conn.onFin]
          split_ifs with hfin
          · obtain ⟨hflag, hzero, hseq⟩ := hfin
            obtain rfl : off = k := part_unique hlen h.le (by omega) (by rw [← hpart.seq, hseq, hnext])
            obtain ⟨hf, hend⟩ := hpart.fin hflag
            have hnum : u32 (s.seq + 1) = u32 (p.isn + off + 1) := by
              rw [hpart.seq]
              unfold u32
              omega
            refine ⟨⟨off, true, ⟨h.used, h.peer, h.le,
              hnum, by rw [List.append_nil]; exact h.kept, fun _ => ⟨hf,
              by omega, rfl⟩, fun _ => Or.inl rfl, fun a ha => ?_⟩, Or.inr ⟨rfl, rfl, hdrained,
              rfl⟩⟩, Or.inl rfl⟩
            rcases List.mem_cons.1 ha with rfl | ha
            · exact ⟨off + 1, le_rfl, by rw [hnum, Nat.add_assoc]⟩
            · obtain ⟨j, hj, rfl⟩ := h.acks a ha
              exact ⟨j, hj.trans (Nat.le_succ _), rfl⟩
          · exact ⟨h, hopen, hdrained⟩

theorem recvLoop_holding (hlen : p.bytes.length < 2 ^ 31) (rounds : ℕ) {frames : ℕ → Frame}
    (hg : ∀ i, Genuine p (frames i))
    (h : Holding p c out k false) (hopen : c.peerFin = false) (hdrained : c.pending = []) :
    Returned p out (recvLoop max rounds c frames) := by
  induction rounds generalizing c frames with
  | zero => exact ⟨k, false, by rw [recvLoop, List.append_nil]; exact h, Or.inl rfl⟩
  | succ rounds ih =>
    have hround := recvRound_holding max hlen h hopen hdrained (hg 0)
    rw [recvLoop]
    split at hround
    · rename_i c' heq
      rw [heq]
      exact ih (fun i => hg (i + 1)) hround.1 hround.2.1 hround.2.2
    · rename_i ret got c' heq
      rw [heq]
      exact hround.1

/-- The bytes that were kept are handed out in order. -/
theorem drain_holding (max : ℕ) (h : Holding p c out k eof) : Returned p out (c.drain max) := by
  have hpending : (c.drain max).2.1 ++ (c.drain max).2.2.pending = c.pending := by
    obtain ⟨got, hgot⟩ : ∃ got, got = (c.rxBuf.drop c.rxPos).take max := ⟨_, rfl⟩
    have hrest : got ++ c.rxBuf.drop (c.rxPos + got.length) = c.rxBuf.drop c.rxPos := by
      rw [← List.drop_drop]
      exact List.prefix_iff_eq_append.1 (hgot ▸ List.take_prefix max _)
    simp only [Conn.drain, Conn.pending, ← hgot]
    split_ifs with hall
    · rw [← hrest, List.drop_nil, List.drop_eq_nil_of_le hall]
    · exact hrest
  have hsame : (c.drain max).2.2.used = c.used ∧ (c.drain max).2.2.To p = c.To p ∧ (c.drain max).2.2.rcvNxt = c.rcvNxt ∧
      (c.drain max).2.2.peerFin = c.peerFin ∧ (c.drain max).2.2.acks = c.acks := by
    simp only [Conn.drain, Conn.To]
    split_ifs <;> exact ⟨rfl, rfl, rfl, rfl, rfl⟩
  obtain ⟨h₁, h₂, h₃, h₄, h₅⟩ := hsame
  refine ⟨k, eof, ⟨h₁.trans h.used, h₂ ▸ h.peer, h.le, h₃.trans h.next, ?_, fun he => ?_,
    fun hc => h.closed (h₄ ▸ hc), fun a ha => h.acks a (h₅ ▸ ha)⟩, Or.inl rfl⟩
  · rw [List.append_assoc, hpending, h.kept]
  · rw [h₄]
    exact h.ended he

theorem tcpRecv_holding (hlen : p.bytes.length < 2 ^ 31) (max timeoutMs : ℕ) {frames : ℕ → Frame}
    (hg : ∀ i, Genuine p (frames i)) (h : Holding p c out k eof) : Returned p out (tcpRecv c max timeoutMs frames) := by
  unfold tcpRecv
  rw [if_neg (by rw [h.used]; exact nofun)]
  by_cases hkept : c.rxPos < c.rxBuf.length
  · rw [if_pos hkept]
    exact drain_holding max h
  · have hdrained : c.pending = [] := List.drop_eq_nil_of_le (Nat.not_lt.1 hkept)
    rw [if_neg hkept]
    by_cases hclosed : c.peerFin = true
    · rw [if_pos hclosed]
      exact ⟨k, eof, by rw [List.append_nil]; exact h, Or.inr ⟨rfl, rfl, hdrained, hclosed⟩⟩
    · rw [if_neg hclosed]
      have heof : eof = false := by
        cases eof with
        | false => rfl
        | true => exact absurd (h.ended rfl).2.2 hclosed
      subst heof
      exact recvLoop_holding hlen _ hg h (Bool.not_eq_true _ ▸ hclosed) hdrained

/-- The state of a connection behind the handshake: the next byte is the first one of the stream. -/
structure Opened (p : Peer) (c : Conn) : Prop where
  used : c.used = true
  peer : c.To p
  next : c.rcvNxt = u32 p.isn
  rxBuf : c.rxBuf = []
  peerFin : c.peerFin = false
  acks : c.acks = []

/-- Calls of `tcp_recv` one after the other, and all that they have returned. -/
inductive Received (p : Peer) (c₀ : Conn) : Conn → List UInt8 → Prop
  | start : Received p c₀ c₀ []
  | recv {c : Conn} {out : List UInt8} (max timeoutMs : ℕ) (frames : ℕ → Frame) (h : Received p c₀ c out)
      (hg : ∀ i, Genuine p (frames i)) :
      Received p c₀ (tcpRecv c max timeoutMs frames).2.2 (out ++ (tcpRecv c max timeoutMs frames).2.1)

theorem Opened.holding (h : Opened p c) : Holding p c [] 0 false where
  used := h.used
  peer := h.peer
  le := Nat.zero_le _
  next := h.next
  kept := by rw [Conn.pending, h.rxBuf, List.drop_nil, List.take_zero, List.append_nil]
  ended he := absurd he Bool.false_ne_true
  closed hc := absurd (h.peerFin ▸ hc) Bool.false_ne_true
  acks a ha := by rw [h.acks] at ha; exact absurd ha List.not_mem_nil

theorem Received.holding {c₀ : Conn} (hlen : p.bytes.length < 2 ^ 31) (ho : Opened p c₀) (h : Received p c₀ c out) :
    ∃ k eof, Holding p c out k eof := by
  induction h with
  | start => exact ⟨0, false, ho.holding⟩
  | recv max timeoutMs frames _ hg ih =>
    obtain ⟨k, eof, hold⟩ := ih
    obtain ⟨k', eof', hold', -⟩ := tcpRecv_holding hlen max timeoutMs hg hold
    exact ⟨k', eof', hold'⟩

/-- The end is reported behind the last byte only. -/
theorem Returned.all {r : ℤ × List UInt8 × Conn} (h : Returned p out r) (hminus : r.1 = -1)
    (hresets : p.resets = false) :
    p.fin = true ∧ out = p.bytes := by
  obtain ⟨k, eof, hold, hret⟩ := h
  obtain ⟨-, hnone, hdrained, hclosed⟩ := hret.resolve_left fun hlen => by omega
  have heof : eof = true := (hold.closed hclosed).resolve_right (by rw [hresets]; exact Bool.false_ne_true)
  obtain ⟨hfin, hend, -⟩ := hold.ended heof
  have hgot := hold.kept
  rw [hnone, List.append_nil, hdrained, List.append_nil, hend, List.take_length] at hgot
  exact ⟨hfin, hgot⟩

/-- Whatever the network does, the bytes returned are a prefix of the stream, the number of the next
byte counts the bytes that are kept, no acknowledgement covers more, and without RST the end is
reported behind the last byte only. -/
theorem tcpRecv_stream {c₀ : Conn} (hlen : p.bytes.length < 2 ^ 31) (ho : Opened p c₀) (h : Received p c₀ c out) :
    out <+: p.bytes ∧
    (∃ k ≤ p.bytes.length, ∃ eof : Bool, out ++ c.pending = p.bytes.take k ∧ c.rcvNxt = u32 (p.isn + k + eof.toNat) ∧
      (eof = true → p.fin = true ∧ k = p.bytes.length) ∧ ∀ a ∈ c.acks, ∃ j ≤ k + eof.toNat, a = u32 (p.isn + j)) ∧
    ∀ (max timeoutMs : ℕ) (frames : ℕ → Frame), (∀ i, Genuine p (frames i)) →
      ((tcpRecv c max timeoutMs frames).1 = (tcpRecv c max timeoutMs frames).2.1.length ∨
        (tcpRecv c max timeoutMs frames).1 = -1 ∧ (tcpRecv c max timeoutMs frames).2.1 = [] ∧
          (p.resets = false → p.fin = true ∧ out = p.bytes)) := by
  obtain ⟨k, eof, hold⟩ := h.holding hlen ho
  refine ⟨⟨c.pending ++ p.bytes.drop k, by rw [← List.append_assoc, hold.kept,
    List.take_append_drop]⟩, ⟨k, hold.le, eof, hold.kept, hold.next,
    fun he => ⟨(hold.ended he).1, (hold.ended he).2.1⟩, hold.acks⟩, fun max timeoutMs frames hg =>
    ?_⟩
  obtain ⟨k', eof', hold', hret⟩ := tcpRecv_holding hlen max timeoutMs hg hold
  rcases hret with hret | ⟨hminus, hnone, hrest⟩
  · exact Or.inl hret
  · exact Or.inr ⟨hminus, hnone, Returned.all ⟨k', eof', hold', Or.inr ⟨hminus, hnone, hrest⟩⟩ hminus⟩

def twoBytes : Peer := ⟨80, 0xD000, [72, 105], true, 7, false⟩

/-- All of it in one segment. -/
def twoBytesFrame : Frame := ⟨fun i => List.getD
  (List.replicate 12 0 ++ [8, 0, 0x45, 0, 0, 42, 0, 0, 0, 0, 64, 6] ++ List.replicate 10 0 ++
  [0, 80, 0xD0, 0, 0, 0, 0, 7, 0, 0, 0, 0, 0x50, 0x11, 0, 0, 0, 0, 0, 0, 72, 105]) i 0, 56⟩

def twoBytesConn : Conn := { dstPort := 80, srcPort := 0xD000, rcvNxt := 7 }

theorem twoBytes_part : (segmentOf twoBytesFrame.buf).PartOf twoBytes twoBytesFrame.buf 0 :=
  ⟨by decide, by decide, by decide, fun _ => ⟨rfl, by decide⟩⟩

theorem twoBytes_opened : Opened twoBytes twoBytesConn := ⟨rfl, ⟨rfl, rfl⟩, rfl, rfl, rfl, rfl⟩

theorem tcpRecv_stream_twoBytes : [] ++ (tcpRecv twoBytesConn 1 5 fun _ => twoBytesFrame).2.1 <+: twoBytes.bytes :=
  (tcpRecv_stream (by decide) twoBytes_opened
  (.recv 1 5 _ .start fun _ => .of_part (by decide) twoBytes_part)).1

def Brings (p : Peer) (k : ℕ) (f : Frame) : Prop :=
  ∀ c : Conn, c.To p → ∃ s, (tcpPollSegment c f.len).value f.buf = some s ∧
  s.flags &&& TCP_RST = 0 ∧ 0 < s.plen ∧ s.PartOf p f.buf k

theorem recvRound_brings (max : ℕ) (hlen : p.bytes.length < 2 ^ 31) (h : Holding p c out k false) (hb : Brings p k f) :
    ∃ ret got c', (recvRound c max f.len).value f.buf = .done ret got c' := by
  obtain ⟨s, hpoll, hrst, hpos, hpart⟩ := hb c h.peer
  have hle := hpart.le
  have htaken : s.taken = true := decide_eq_true (by omega)
  unfold recvRound
  rw [value_bind, hpoll]
  dsimp only
  rw [if_neg (by rw [htaken]; exact nofun), if_neg (not_not.2 hrst),
    if_pos ⟨hpos, hpart.seq.trans h.next.symm⟩]
  exact ⟨_, _, _, rfl⟩

theorem recvLoop_progress (hlen : p.bytes.length < 2 ^ 31) (hmax : 0 < max) (hresets : p.resets = false) {rounds i : ℕ}
    (hi : i < rounds) {frames : ℕ → Frame} (hg : ∀ i, Genuine p (frames i)) (hb : Brings p k (frames i))
    (h : Holding p c out k false) (hopen : c.peerFin = false) (hdrained : c.pending = []) :
    0 < (recvLoop max rounds c frames).1 := by
  have hless : k < p.bytes.length := by
    obtain ⟨s, -, -, hpos, hpart⟩ := hb c h.peer
    have := hpart.le
    omega
  have hgot : out = p.bytes.take k := by rw [← h.kept, hdrained, List.append_nil]
  induction rounds generalizing c frames i with
  | zero => exact absurd hi (Nat.not_lt_zero i)
  | succ rounds ih =>
    have hround := recvRound_holding max hlen h hopen hdrained (hg 0)
    have hfirst := fun h0 : i = 0 => recvRound_brings max hlen h (h0 ▸ hb)
    rw [recvLoop]
    split at hround
    · rename_i c' heq
      rw [heq] at hfirst ⊢
      cases i with
      | zero =>
        obtain ⟨ret, got, c'', hdone⟩ := hfirst rfl
        cases hdone
      | succ i => exact ih (by omega) (fun i => hg (i + 1)) hb hround.1 hround.2.1 hround.2.2
    · rename_i ret got c' heq
      rw [heq]
      rcases hround.2 with hminus | hret
      · have hall := (hround.1.all hminus hresets).2
        rw [hgot] at hall
        have := congrArg List.length hall
        rw [List.length_take] at this
        omega
      · exact hret hmax

/-- As long as there are bytes to come, a call returns some of those that are kept, or of those that
a frame brings in time. -/
theorem tcpRecv_progress {c₀ : Conn} (hlen : p.bytes.length < 2 ^ 31) (hresets : p.resets = false) (ho : Opened p c₀)
    (h : Received p c₀ c out) (hmax : 0 < max) (timeoutMs : ℕ) {frames : ℕ → Frame} (hg : ∀ i, Genuine p (frames i))
    (hb : c.pending ≠ [] ∨ ∃ i < (timeoutMs + 4) / 5, Brings p out.length (frames i)) :
    0 < (tcpRecv c max timeoutMs frames).1 := by
  obtain ⟨k, eof, hold⟩ := h.holding hlen ho
  unfold tcpRecv
  rw [if_neg (by rw [hold.used]; exact nofun)]
  by_cases hkept : c.rxPos < c.rxBuf.length
  · rw [if_pos hkept, Conn.drain]
    simp only [List.length_take, List.length_drop]
    omega
  · have hdrained : c.pending = [] := List.drop_eq_nil_of_le (Nat.not_lt.1 hkept)
    obtain ⟨i, hi, hbrings⟩ := hb.resolve_left (not_not.2 hdrained)
    have hgot : out = p.bytes.take k := by rw [← hold.kept, hdrained, List.append_nil]
    have hk : out.length = k := by
      rw [hgot, List.length_take]
      exact min_eq_left hold.le
    rw [hk] at hbrings
    have hless : k < p.bytes.length := by
      obtain ⟨s, -, -, hpos, hpart⟩ := hbrings c hold.peer
      have := hpart.le
      omega
    have heof : eof = false := by
      cases eof with
      | false => rfl
      | true =>
        have := (hold.ended rfl).2.1
        omega
    subst heof
    have hopen : c.peerFin = false := by
      cases hfin : c.peerFin with
      | false => rfl
      | true =>
        rcases hold.closed hfin with he | he
        · exact absurd he Bool.false_ne_true
        · rw [hresets] at he
          exact absurd he Bool.false_ne_true
    rw [if_neg hkept, if_neg (by rw [hopen]; exact Bool.false_ne_true)]
    exact recvLoop_progress hlen hmax hresets hi hg hbrings hold hopen hdrained

theorem tcpRecv_progress_twoBytes : 0 < (tcpRecv twoBytesConn 1 5 fun _ => twoBytesFrame).1 := by
  have hbrings : Brings twoBytes 0 twoBytesFrame := by
    intro c hc
    have hof : OfConn c twoBytesFrame.buf := ⟨hc.1.symm, hc.2.symm⟩
    refine ⟨segmentOf twoBytesFrame.buf, ?_, by decide, by decide, twoBytes_part⟩
    rw [value_tcpPollSegment, if_pos ⟨by decide, by decide, hof⟩]
  exact tcpRecv_progress (by decide) rfl twoBytes_opened .start Nat.one_pos 5
    (fun _ => .of_part (by decide) twoBytes_part)
    (Or.inr ⟨0, by decide, hbrings⟩)

end ComputerOS.Net
