import ComputerOS.Lib.Ring
import Mathlib.Data.Int.Init

/-!
The bytes of one pipe. Any number of reads and writes run at the same time; each pass through one
of their loops is one step, and between two steps any other call may run. Copies to and from the
user do not fail, and the slot of the pipe is not given to another one.
-/
namespace ComputerOS.Linux

open Function

def PIPE_BUF_SIZE : ℕ := 4096

def LX_EPIPE : ℤ := -32

structure PipeT where
  ring : RingBuf UInt8
  readOpen : ℤ
  writeOpen : ℤ

/-- What `pipe_alloc` leaves in a slot. -/
def freshPipe : PipeT := ⟨⟨fun _ => 0, 0, 0, 0⟩, 1, 1⟩

/-- What the history records: a byte taken from a writer, a byte given to a reader, and that a
reader has left its wait loop. -/
inductive Event
  | accept (k : ℕ) (c : UInt8)
  | deliver (k : ℕ) (c : UInt8)
  | leave (k : ℕ)
deriving DecidableEq, Repr

/-- Where a read stands: in its wait loop, in its copy loop, or returned. -/
inductive ReadAt
  | wait | copy | done (ret : ℤ)
deriving DecidableEq, Repr

structure Reader where
  count : ℕ
  got : List UInt8
  pc : ReadAt
deriving DecidableEq, Repr

def pipeRead (count : ℕ) : Reader := ⟨count, [], if count = 0 then .done 0 else .wait⟩

/-- One pass through a loop of `pipe_read`, by call `k`. -/
def readIter (k : ℕ) (p : PipeT) (r : Reader) : PipeT × Reader × List Event :=
  match r.pc with
  | .wait =>
      if p.ring.used = 0 then
        if p.writeOpen = 0 then (p, { r with pc := .done 0 }, []) else (p, r, [])
      else (p, { r with pc := .copy }, [.leave k])
  | .copy =>
      if r.got.length < r.count ∧ 0 < p.ring.used then
        let c := p.ring.buf p.ring.head
        ({ p with ring := p.ring.pop PIPE_BUF_SIZE }, { r with got := r.got ++ [c] }, [.deliver k c])
      else (p, { r with pc := .done r.got.length }, [])
  | .done _ => (p, r, [])

structure Writer where
  data : List UInt8
  sent : ℕ
  ret : Option ℤ
deriving DecidableEq, Repr

def pipeWrite (data : List UInt8) : Writer := ⟨data, 0, none⟩

/-- One pass through the loop of `pipe_write`, by call `k`. -/
def writeIter (k : ℕ) (p : PipeT) (w : Writer) : PipeT × Writer × List Event :=
  if w.ret.isSome then (p, w, [])
  else
    match w.data[w.sent]? with
    | none => (p, { w with ret := some w.data.length }, [])
    | some c =>
        if p.readOpen = 0 then (p, { w with ret := some (if 0 < w.sent then w.sent else LX_EPIPE) }, [])
        else if p.ring.used = PIPE_BUF_SIZE then (p, w, [])
        else ({ p with ring := p.ring.push PIPE_BUF_SIZE c }, { w with sent := w.sent + 1 }, [.accept k c])

inductive PipeCall
  | read (r : Reader)
  | write (w : Writer)
deriving DecidableEq, Repr

/-- The pipe, the calls that have begun, and the history. -/
structure Piping where
  pipe : PipeT
  calls : ℕ → Option PipeCall
  log : List Event

namespace Piping

def start : Piping := ⟨freshPipe, fun _ => none, []⟩

/-- One pass of call `k`. -/
def iter (s : Piping) (k : ℕ) : Piping :=
  match s.calls k with
  | none => s
  | some (.read r) =>
      let (p, r', es) := readIter k s.pipe r
      ⟨p, update s.calls k (some (.read r')), s.log ++ es⟩
  | some (.write w) =>
      let (p, w', es) := writeIter k s.pipe w
      ⟨p, update s.calls k (some (.write w')), s.log ++ es⟩

def begin (s : Piping) (k : ℕ) (c : PipeCall) : Piping := { s with calls := update s.calls k (some c) }

def setOpen (s : Piping) (r w : ℤ) : Piping := { s with pipe := { s.pipe with readOpen := r, writeOpen := w } }

/-- The states that any order of steps leads to. -/
inductive Reach : Piping → Prop
  | start : Reach start
  | read {s : Piping} (h : Reach s) (k count : ℕ) (hk : s.calls k = none) : Reach (s.begin k (.read (pipeRead count)))
  | write {s : Piping} (h : Reach s) (k : ℕ) (data : List UInt8) (hk : s.calls k = none) :
      Reach (s.begin k (.write (pipeWrite data)))
  | iter {s : Piping} (h : Reach s) (k : ℕ) : Reach (s.iter k)
  | setOpen {s : Piping} (h : Reach s) (r w : ℤ) : Reach (s.setOpen r w)

end Piping

def accepts (log : List Event) : List (ℕ × UInt8) := log.filterMap fun
  | .accept k c => some (k, c)
  | _ => none

def delivers (log : List Event) : List (ℕ × UInt8) := log.filterMap fun
  | .deliver k c => some (k, c)
  | _ => none

/-- The bytes taken from writers, in their order. -/
def accepted (log : List Event) : List UInt8 := (accepts log).map Prod.snd

/-- The bytes given to readers, in their order. -/
def delivered (log : List Event) : List UInt8 := (delivers log).map Prod.snd

def acceptedBy (k : ℕ) (log : List Event) : List UInt8 := ((accepts log).filter fun x => x.1 = k).map Prod.snd

def deliveredBy (k : ℕ) (log : List Event) : List UInt8 := ((delivers log).filter fun x => x.1 = k).map Prod.snd

/-- Since call `k` left its wait loop, another reader has taken a byte. -/
def Overtaken (k : ℕ) (log : List Event) : Prop :=
  ∃ pre post j c, log = pre ++ .leave k :: post ∧ .deliver j c ∈ post ∧ j ≠ k

variable {log es : List Event} {k j n : ℕ} {c : UInt8} {s : Piping} {p : PipeT} {r r' : Reader} {w : Writer}

@[simp]
theorem accepts_append (log es : List Event) : accepts (log ++ es) = accepts log ++ accepts es := List.filterMap_append

@[simp]
theorem delivers_append (log es : List Event) : delivers (log ++ es) = delivers log ++ delivers es :=
  List.filterMap_append

@[simp]
theorem accepted_append (log es : List Event) : accepted (log ++ es) = accepted log ++ accepted es := by
  simp [accepted]

@[simp]
theorem delivered_append (log es : List Event) : delivered (log ++ es) = delivered log ++ delivered es := by
  simp [delivered]

@[simp]
theorem acceptedBy_append (k : ℕ) (log es : List Event) :
    acceptedBy k (log ++ es) = acceptedBy k log ++ acceptedBy k es := by
  simp [acceptedBy]

@[simp]
theorem deliveredBy_append (k : ℕ) (log es : List Event) :
    deliveredBy k (log ++ es) = deliveredBy k log ++ deliveredBy k es := by
  simp [deliveredBy]

theorem mem_delivers : (j, c) ∈ delivers log ↔ Event.deliver j c ∈ log := by
  unfold delivers
  rw [List.mem_filterMap]
  constructor
  · rintro ⟨e, he, heq⟩
    cases e with
    | deliver i b =>
      obtain ⟨rfl, rfl⟩ := Prod.mk.inj (Option.some.inj heq)
      exact he
    | accept => cases heq
    | leave => cases heq
  · exact fun h => ⟨_, h, rfl⟩

def Silent (k : ℕ) (es : List Event) : Prop := acceptedBy k es = [] ∧ deliveredBy k es = []

/-- What the history says about a call. -/
def CallOk (k : ℕ) (log : List Event) : Option PipeCall → Prop
  | none => Silent k log
  | some (.read r) => acceptedBy k log = [] ∧ deliveredBy k log = r.got ∧
      match r.pc with
      | .wait => 0 < r.count ∧ r.got = []
      | .copy => 0 < r.count ∧ ∃ pre post, log = pre ++ .leave k :: post ∧ (delivered pre).length < (accepted pre).length
      | .done ret => ret = r.got.length
  | some (.write w) => deliveredBy k log = [] ∧ acceptedBy k log = w.data.take w.sent ∧ w.sent ≤ w.data.length ∧
      ∀ ret, w.ret = some ret → ret = w.sent ∨ ret = LX_EPIPE ∧ w.sent = 0

structure Piping.Inv (s : Piping) : Prop where
  valid : s.pipe.ring.Valid PIPE_BUF_SIZE
  fifo : accepted s.log = delivered s.log ++ s.pipe.ring.contents PIPE_BUF_SIZE
  calls : ∀ k, CallOk k s.log (s.calls k)

/-- Events of other calls change nothing. -/
theorem CallOk.append {c : Option PipeCall} (h : CallOk k log c) (hes : Silent k es) : CallOk k (log ++ es) c := by
  obtain ⟨ha, hd⟩ := hes
  match c, h with
  | none, h => exact ⟨by rw [acceptedBy_append, h.1, ha]; rfl, by rw [deliveredBy_append, h.2, hd]; rfl⟩
  | some (.read r), ⟨h1, h2, h3⟩ =>
    refine ⟨by rw [acceptedBy_append, h1, ha]; rfl, by rw [deliveredBy_append, h2, hd, List.append_nil], ?_⟩
    cases hpc : r.pc with
    | wait =>
      rw [hpc] at h3
      exact h3
    | copy =>
      rw [hpc] at h3
      obtain ⟨hcount, pre, post, heq, hlt⟩ := h3
      exact ⟨hcount, pre, post ++ es, by rw [heq, List.append_assoc, List.cons_append], hlt⟩
    | done ret =>
      rw [hpc] at h3
      exact h3
  | some (.write w), ⟨h1, h2, h3⟩ =>
    exact ⟨by rw [deliveredBy_append, h1, hd]; rfl, by rw [acceptedBy_append, h2, ha, List.append_nil], h3⟩

theorem Piping.Inv.start : Piping.start.Inv :=
  ⟨⟨Nat.zero_le _, by decide, rfl⟩, rfl, fun _ => ⟨rfl, rfl⟩⟩

theorem Piping.Inv.setOpen (h : s.Inv) (r w : ℤ) : (s.setOpen r w).Inv := ⟨h.valid, h.fifo, h.calls⟩

theorem Piping.Inv.begin {c : PipeCall} (h : s.Inv) (hc : CallOk k s.log (some c)) : (s.begin k c).Inv := by
  refine ⟨h.valid, h.fifo, fun j => ?_⟩
  by_cases hj : j = k
  · subst hj
    change CallOk j s.log (update s.calls j (some c) j)
    rwa [update_self]
  · change CallOk j s.log (update s.calls k (some c) j)
    rw [update_of_ne hj]
    exact h.calls j

/-- A step of call `k` that keeps the queue and leaves the other calls alone. -/
theorem Piping.Inv.next {p' : PipeT} {c' : PipeCall} (h : s.Inv) (hvalid : p'.ring.Valid PIPE_BUF_SIZE)
    (hfifo : accepted (s.log ++ es) = delivered (s.log ++ es) ++ p'.ring.contents PIPE_BUF_SIZE)
    (hother : ∀ j, j ≠ k → Silent j es) (hcall : CallOk k (s.log ++ es) (some c')) :
    Piping.Inv ⟨p', update s.calls k (some c'), s.log ++ es⟩ := by
  refine ⟨hvalid, hfifo, fun j => ?_⟩
  by_cases hj : j = k
  · subst hj
    change CallOk j (s.log ++ es) (update s.calls j (some c') j)
    rwa [update_self]
  · change CallOk j (s.log ++ es) (update s.calls k (some c') j)
    rw [update_of_ne hj]
    exact (h.calls j).append (hother j hj)

theorem silent_nil (k : ℕ) : Silent k [] := ⟨rfl, rfl⟩

theorem silent_leave (j k : ℕ) : Silent j [.leave k] := ⟨rfl, rfl⟩

theorem silent_deliver (h : j ≠ k) (c : UInt8) : Silent j [.deliver k c] := by
  refine ⟨rfl, ?_⟩
  simp [deliveredBy, delivers, Ne.symm h]

theorem silent_accept (h : j ≠ k) (c : UInt8) : Silent j [.accept k c] := by
  refine ⟨?_, rfl⟩
  simp [acceptedBy, accepts, Ne.symm h]

theorem Piping.Inv.readIter (h : s.Inv) (hk : s.calls k = some (.read r)) : (s.iter k).Inv := by
  have hcall := h.calls k
  rw [hk] at hcall
  obtain ⟨hacc, hdel, hpc⟩ := hcall
  unfold Piping.iter
  rw [hk]
  dsimp only
  unfold Linux.readIter
  cases hat : r.pc with
  | wait =>
    rw [hat] at hpc
    obtain ⟨hcount, hgot⟩ := hpc
    dsimp only
    by_cases hempty : s.pipe.ring.used = 0
    · rw [if_pos hempty]
      by_cases hopen : s.pipe.writeOpen = 0
      · rw [if_pos hopen]
        refine h.next h.valid (by rw [List.append_nil]; exact h.fifo) (fun j _ => silent_nil j) ?_
        rw [List.append_nil]
        exact ⟨hacc, hdel, by rw [hgot]; rfl⟩
      · rw [if_neg hopen]
        refine h.next h.valid (by rw [List.append_nil]; exact h.fifo) (fun j _ => silent_nil j) ?_
        rw [List.append_nil]
        exact ⟨hacc, hdel, by rw [hat]; exact ⟨hcount, hgot⟩⟩
    · rw [if_neg hempty]
      refine h.next h.valid ?_ (fun j _ => silent_leave j k) ⟨?_, ?_, hcount, s.log, [], rfl, ?_⟩
      · rw [accepted_append, delivered_append, h.fifo]
        simp [accepted, accepts, delivered, delivers]
      · rw [acceptedBy_append, hacc]
        rfl
      · rw [deliveredBy_append, hdel]
        exact List.append_nil _
      · have hlen := congrArg List.length h.fifo
        rw [List.length_append, RingBuf.length_contents] at hlen
        omega
  | copy =>
    rw [hat] at hpc
    obtain ⟨hcount, pre, post, heq, hlt⟩ := hpc
    dsimp only
    by_cases hmore : r.got.length < r.count ∧ 0 < s.pipe.ring.used
    · rw [if_pos hmore]
      refine h.next (h.valid.pop hmore.2) ?_ (fun j hj => silent_deliver hj _) ⟨?_, ?_, ?_⟩
      · rw [accepted_append, delivered_append, h.fifo, RingBuf.contents_pop hmore.2, Nat.mod_eq_of_lt h.valid.head_lt]
        simp [accepted, accepts, delivered, delivers]
      · rw [acceptedBy_append, hacc]
        rfl
      · rw [deliveredBy_append, hdel]
        simp [deliveredBy, delivers]
      · exact ⟨hcount, pre, post ++ [.deliver k (s.pipe.ring.buf s.pipe.ring.head)],
          by rw [heq, List.append_assoc, List.cons_append], hlt⟩
    · rw [if_neg hmore]
      refine h.next h.valid (by rw [List.append_nil]; exact h.fifo) (fun j _ => silent_nil j) ?_
      rw [List.append_nil]
      exact ⟨hacc, hdel, rfl⟩
  | done ret =>
    rw [hat] at hpc
    refine h.next h.valid (by rw [List.append_nil]; exact h.fifo) (fun j _ => silent_nil j) ?_
    rw [List.append_nil]
    exact ⟨hacc, hdel, by rw [hat]; exact hpc⟩

theorem Piping.Inv.writeIter (h : s.Inv) (hk : s.calls k = some (.write w)) : (s.iter k).Inv := by
  have hcall := h.calls k
  rw [hk] at hcall
  obtain ⟨hdel, hacc, hsent, hret⟩ := hcall
  have hstay : ∀ w', CallOk k s.log (some (.write w')) →
      Piping.Inv ⟨s.pipe, update s.calls k (some (.write w')), s.log ++ []⟩ := by
    intro w' hw'
    refine h.next h.valid (by rw [List.append_nil]; exact h.fifo) (fun j _ => silent_nil j) ?_
    rwa [List.append_nil]
  unfold Piping.iter
  rw [hk]
  dsimp only
  unfold Linux.writeIter
  by_cases hdone : w.ret.isSome
  · rw [if_pos hdone]
    exact hstay w ⟨hdel, hacc, hsent, hret⟩
  rw [if_neg hdone]
  cases hget : w.data[w.sent]? with
  | none =>
    have hall : w.sent = w.data.length := Nat.le_antisymm hsent (List.getElem?_eq_none_iff.mp hget)
    refine hstay _ ⟨hdel, hacc, hsent, fun ret heq => Or.inl ?_⟩
    rw [← Option.some.inj heq, hall]
  | some c =>
    dsimp only
    by_cases hopen : s.pipe.readOpen = 0
    · rw [if_pos hopen]
      refine hstay _ ⟨hdel, hacc, hsent, fun ret heq => ?_⟩
      rw [← Option.some.inj heq]
      by_cases hpos : 0 < w.sent
      · rw [if_pos hpos]
        exact Or.inl rfl
      · rw [if_neg hpos]
        exact Or.inr ⟨rfl, Nat.eq_zero_of_not_pos hpos⟩
    rw [if_neg hopen]
    by_cases hfull : s.pipe.ring.used = PIPE_BUF_SIZE
    · rw [if_pos hfull]
      exact hstay w ⟨hdel, hacc, hsent, hret⟩
    rw [if_neg hfull]
    have hroom : s.pipe.ring.used < PIPE_BUF_SIZE := Nat.lt_of_le_of_ne h.valid.used_le hfull
    obtain ⟨hlt, hc⟩ := List.getElem?_eq_some_iff.mp hget
    refine h.next (h.valid.push hroom c) ?_ (fun j hj => silent_accept hj c) ⟨?_, ?_, hlt, fun ret heq => ?_⟩
    · rw [accepted_append, delivered_append, RingBuf.contents_push h.valid hroom, h.fifo,
        List.append_assoc, List.append_assoc]
      rfl
    · rw [deliveredBy_append, hdel]
      rfl
    · rw [acceptedBy_append, hacc, List.take_add_one, hget]
      simp [acceptedBy, accepts]
    · dsimp only at heq
      rw [heq] at hdone
      exact absurd rfl hdone

theorem Piping.Reach.inv (h : s.Reach) : s.Inv := by
  induction h with
  | start => exact Piping.Inv.start
  | @read s _ k count hk ih =>
    have hcall := ih.calls k
    rw [hk] at hcall
    refine ih.begin ⟨hcall.1, hcall.2, ?_⟩
    unfold pipeRead
    by_cases hcount : count = 0
    · simp [hcount]
    · simp only [hcount, if_false]
      exact ⟨Nat.pos_of_ne_zero hcount, trivial⟩
  | @write s _ k data hk ih =>
    have hcall := ih.calls k
    rw [hk] at hcall
    exact ih.begin ⟨hcall.2, hcall.1, Nat.zero_le _, fun ret heq => by cases heq⟩
  | @iter s _ k ih =>
    cases hk : s.calls k with
    | none =>
      have hsame : s.iter k = s := by
        unfold Piping.iter
        rw [hk]
      rw [hsame]
      exact ih
    | some c =>
      cases c with
      | read r => exact ih.readIter hk
      | write w => exact ih.writeIter hk
  | setOpen _ r w ih => exact ih.setOpen r w

/-- No byte is lost, doubled or reordered, and a write that returns has given as many bytes as it
says. -/
structure Piping.Lossless (s : Piping) : Prop where
  order : delivered s.log <+: accepted s.log
  bounded : s.pipe.ring.used ≤ PIPE_BUF_SIZE
  count : s.pipe.ring.used + (delivered s.log).length = (accepted s.log).length
  writes : ∀ k w (n : ℕ), s.calls k = some (.write w) → w.ret = some (n : ℤ) →
    n ≤ w.data.length ∧ acceptedBy k s.log = w.data.take n

/-- A read of at least one byte that returns 0 in its next pass. -/
def Piping.ReadsNothing (s : Piping) (k : ℕ) : Prop :=
  ∃ r r', s.calls k = some (.read r) ∧ (∀ ret, r.pc ≠ .done ret) ∧
  (s.iter k).calls k = some (.read r') ∧ r'.pc = .done 0

theorem Piping.Inv.lossless (h : s.Inv) : s.Lossless := by
  refine ⟨⟨_, h.fifo.symm⟩, h.valid.used_le, ?_, fun k w n hk hret => ?_⟩
  · have hlen := congrArg List.length h.fifo
    rw [List.length_append, RingBuf.length_contents] at hlen
    omega
  · have hcall := h.calls k
    rw [hk] at hcall
    obtain ⟨-, hacc, hsent, hr⟩ := hcall
    rcases hr _ hret with heq | ⟨heq, -⟩
    · obtain rfl := Int.ofNat.inj heq
      exact ⟨hsent, hacc⟩
    · unfold LX_EPIPE at heq
      omega

/-- A read that returns 0 found the pipe empty, without writers or because another reader was
faster. -/
theorem Piping.Inv.readsNothing (h : s.Inv) (hk : s.ReadsNothing k) :
    s.pipe.ring.used = 0 ∧ (s.pipe.writeOpen = 0 ∨ Overtaken k s.log) := by
  obtain ⟨r, r', hr, hrun, hr', hzero⟩ := hk
  have hcall := h.calls k
  rw [hr] at hcall
  obtain ⟨-, hdel, hpc⟩ := hcall
  have hstep : (Linux.readIter k s.pipe r).2.1 = r' := by
    unfold Piping.iter at hr'
    rw [hr] at hr'
    dsimp only at hr'
    rw [update_self] at hr'
    exact PipeCall.read.inj (Option.some.inj hr')
  unfold Linux.readIter at hstep
  cases hat : r.pc with
  | wait =>
    rw [hat] at hstep
    dsimp only at hstep
    by_cases hempty : s.pipe.ring.used = 0
    · rw [if_pos hempty] at hstep
      by_cases hopen : s.pipe.writeOpen = 0
      · exact ⟨hempty, Or.inl hopen⟩
      · rw [if_neg hopen] at hstep
        rw [← hstep] at hzero
        exact absurd hzero (hrun 0)
    · rw [if_neg hempty] at hstep
      rw [← hstep] at hzero
      cases hzero
  | copy =>
    rw [hat] at hstep hpc
    obtain ⟨hcount, pre, post, heq, hlt⟩ := hpc
    dsimp only at hstep
    by_cases hmore : r.got.length < r.count ∧ 0 < s.pipe.ring.used
    · rw [if_pos hmore] at hstep
      rw [← hstep] at hzero
      cases hzero
    · rw [if_neg hmore] at hstep
      rw [← hstep] at hzero
      have hgot : r.got = [] := by
        have := ReadAt.done.inj hzero
        exact List.length_eq_zero_iff.mp (by omega)
      have hused : s.pipe.ring.used = 0 := by
        rw [hgot, not_and] at hmore
        exact Nat.eq_zero_of_not_pos (hmore hcount)
      -- all bytes have been delivered, so one of them after this reader left its wait loop
      have hlen := congrArg List.length h.fifo
      rw [List.length_append, RingBuf.length_contents, hused, heq, accepted_append,
        delivered_append, List.length_append, List.length_append] at hlen
      have hpost : 0 < (delivered post).length := by
        have hcons : delivered (.leave k :: post) = delivered post := rfl
        rw [hcons] at hlen
        omega
      obtain ⟨⟨j, c⟩, hmem⟩ : ∃ x, x ∈ delivers post := by
        refine List.exists_mem_of_length_pos ?_
        rwa [delivered, List.length_map] at hpost
      refine ⟨hused, Or.inr ⟨pre, post, j, c, heq, mem_delivers.mp hmem, ?_⟩⟩
      rintro rfl
      rw [hgot] at hdel
      have hin : (j, c) ∈ (delivers s.log).filter fun x => x.1 = j := by
        refine List.mem_filter.mpr ⟨?_, by simp⟩
        rw [mem_delivers, heq]
        exact List.mem_append_right _ (List.mem_cons_of_mem _ (mem_delivers.mp hmem))
      have : c ∈ deliveredBy j s.log := List.mem_map.mpr ⟨(j, c), hin, rfl⟩
      rw [hdel] at this
      cases this
  | done ret => exact absurd hat (hrun ret)

/-- In every order of the steps no byte is lost, and a read of at least one byte returns 0 only when
the pipe is empty, and has no writer unless another reader took what this one had waited for. -/
theorem pipe_fifo (h : s.Reach) : s.Lossless ∧ ∀ k, s.ReadsNothing k →
    s.pipe.ring.used = 0 ∧ (s.pipe.writeOpen = 0 ∨ Overtaken k s.log) :=
  ⟨h.inv.lossless, fun _ hk => h.inv.readsNothing hk⟩

/-- Two reads wait on an empty pipe; one byte is written, both leave their wait loops, and one of
them takes it. -/
def twoReaders : Piping :=
  ((((((((Piping.start.begin 1 (.read (pipeRead 1))).begin 2 (.read (pipeRead 1))).iter 1).iter 2).begin 0
    (.write (pipeWrite [7]))).iter 0).iter 1).iter 2).iter 2

theorem reach_twoReaders : twoReaders.Reach :=
  ((((((((Piping.Reach.start.read 1 1 rfl).read 2 1 rfl).iter 1).iter 2).write 0 [7] rfl).iter
  0).iter 1).iter 2).iter 2

theorem twoReaders_fifo : twoReaders.Lossless ∧ ∀ k, twoReaders.ReadsNothing k →
    twoReaders.pipe.ring.used = 0 ∧ (twoReaders.pipe.writeOpen = 0 ∨ Overtaken k twoReaders.log) :=
  pipe_fifo reach_twoReaders

/-- The other one returns 0, although the writer's end is still open. -/
theorem read_not_end : ¬ ∀ s : Piping, s.Reach → s.Lossless ∧ ∀ k, s.ReadsNothing k →
    s.pipe.ring.used = 0 ∧ s.pipe.writeOpen = 0 := by
  intro h
  have hend := ((h twoReaders reach_twoReaders).2 1
    ⟨⟨1, [], .copy⟩, ⟨1, [], .done 0⟩, by decide, fun _ => ReadAt.noConfusion,
    by decide, rfl⟩).2
  revert hend
  decide

end ComputerOS.Linux
