import ComputerOS.Linux.Signals
import Mathlib.Data.List.TakeWhile

/-!
Signal handlers that return. A signal frame lies below the red zone of the code that is interrupted,
so the frame of a handler that is interrupted in its turn stays as it is, and each `rt_sigreturn`
restores what the last delivery interrupted.
-/
namespace ComputerOS.Linux.Signals

variable {w : Word → Bool} {k : Kernel} {m m' : Machine} {sig n i : ℕ} {hd p : Word}

theorem getLE_of_digits {b : Bytes n} {off : ℕ} (width : ℕ) {x : ℕ}
    (h : ∀ j < width, b.byte (off + j) = UInt8.ofNat (x / 256 ^ j)) : b.getLE off width = x % 256 ^ width := by
  induction width generalizing off x with
  | zero => rw [Bytes.getLE, pow_zero, Nat.mod_one]
  | succ width ih =>
    have htail : b.getLE (off + 1) width = x / 256 % 256 ^ width := ih fun j hj => by
      rw [Nat.add_assoc, Nat.add_comm 1 j, h (j + 1) (by omega), Nat.div_div_eq_div_mul, ← pow_succ']
    have hhead : (b.byte off).toNat = x % 256 := by
      have h0 := h 0 (by omega)
      rw [Nat.add_zero, pow_zero, Nat.div_one] at h0
      rw [h0]
      exact UInt8.toNat_ofNat'
    rw [Bytes.getLE, hhead, htail, pow_succ' 256 width, Nat.mod_mul]

theorem word_ofWords {l : List Word} (h : 8 * i + 8 ≤ n) : word (ofWords n l) i = l.getD i 0 := by
  have hfield : (ofWords n l).getLE (8 * i) 8 = (l.getD i 0).toNat % 256 ^ 8 := getLE_of_digits 8 fun j hj => by
    rw [ofWords, Bytes.byte_ofFn _ (by omega), show (8 * i + j) / 8 = i by omega, show (8 * i + j) % 8 = j by omega]
  have hlt : (l.getD i 0).toNat < 256 ^ 8 := (l.getD i 0).isLt
  rw [word, hfield, Nat.mod_eq_of_lt hlt, BitVec.ofNat_toNat, BitVec.setWidth_eq]

theorem ofBytes_bytes (f : SigFrame) : SigFrame.ofBytes f.bytes = f := by
  have hword : ∀ i, 8 * i + 8 ≤ 168 → word f.bytes i = [f.retAddr, f.r8, f.r9, f.r10, f.r11, f.r12,
      f.r13, f.r14, f.r15, f.rdi, f.rsi, f.rbp, f.rbx, f.rdx, f.rax, f.rcx, f.rip, f.rflags, f.rsp,
      f.blocked, f.signo].getD i 0 :=
    fun i h => word_ofWords h
  unfold SigFrame.ofBytes
  rw [hword 0 (by decide), hword 1 (by decide), hword 2 (by decide), hword 3 (by decide), hword 4 (by decide), hword 5
    (by decide), hword 6 (by decide), hword 7 (by decide), hword 8 (by decide), hword 9 (by decide), hword 10
    (by decide), hword 11 (by decide), hword 12 (by decide), hword 13 (by decide), hword 14 (by decide), hword
    15 (by decide), hword 16 (by decide), hword 17 (by decide), hword 18 (by decide), hword 19 (by decide),
    hword 20 (by decide)]
  rfl

def Stands (mem : Mem) (p : Word) (b : Bytes n) : Prop := ∀ i < n, mem (p + BitVec.ofNat 64 i) = some (b.byte i)

theorem copyFromUser_of_stands {mem : Mem} {b : Bytes n} (hp : userRangeOk p n = true) (h : Stands mem p b) :
    copyFromUser mem p n = some b := by
  unfold copyFromUser
  rw [hp, Bool.true_and, if_pos]
  · refine congrArg some (Bytes.ext_byte fun i hi => ?_)
    rw [Bytes.byte_ofFn _ hi, h i hi, Option.getD_some]
  · refine List.all_eq_true.mpr fun i hi => ?_
    rw [h i (List.mem_range.mp hi)]
    rfl

theorem stands_copyToUser {mem : Mem} {b : Bytes n} (hn : n ≤ 2 ^ 64) (h : canStore w p n = true) :
    Stands (copyToUser w mem p b) p b := by
  unfold canStore at h
  rw [Bool.and_eq_true] at h
  have hall : (List.range n).takeWhile (fun i => w (p + BitVec.ofNat 64 i)) = List.range n := by
    rw [List.takeWhile_eq_self_iff]
    exact List.all_eq_true.mp h.2
  intro i hi
  have hoff : (p + BitVec.ofNat 64 i - p).toNat = i := by
    rw [BitVec.add_comm, BitVec.add_sub_cancel, BitVec.toNat_ofNat]
    exact Nat.mod_eq_of_lt (by omega)
  unfold copyToUser
  rw [if_pos h.1, hall, List.length_range, hoff, if_pos hi]

/-- Nothing else changes. -/
theorem copyToUser_ne {mem : Mem} {b : Bytes n} {a : Word} (h : n ≤ (a - p).toNat) :
    copyToUser w mem p b a = mem a := by
  unfold copyToUser
  split
  · dsimp only
    have hle := ((List.range n).takeWhile_sublist fun i => w (p + BitVec.ofNat 64 i)).length_le
    rw [List.length_range] at hle
    rw [if_neg (by omega)]
  · rfl

theorem toNat_and_not15 (x : Word) : (x &&& ~~~15#64).toNat = x.toNat / 16 * 16 := by
  have hmask : ∀ i, (15#64).getLsbD i = decide (i < 4) := by
    intro i
    rw [BitVec.getLsbD_ofNat, show (15 : ℕ) = 2 ^ 4 - 1 by rfl, Nat.testBit_two_pow_sub_one]
    by_cases h : i < 4
    · rw [decide_eq_true h, Bool.and_true, decide_eq_true (by omega)]
    · rw [decide_eq_false h, Bool.and_false]
  refine Nat.eq_of_testBit_eq fun i => ?_
  rw [BitVec.testBit_toNat, BitVec.getLsbD_and, BitVec.getLsbD_not, hmask, show (16 : ℕ) = 2 ^ 4 by rfl,
    Nat.testBit_mul_two_pow, Nat.testBit_div_two_pow, BitVec.testBit_toNat]
  by_cases h : i < 4
  · simp [h]
  · rw [show i - 4 + 4 = i by omega]
    by_cases h64 : i < 64
    · simp [h, h64, Nat.le_of_not_lt h]
    · simp [BitVec.getLsbD_of_ge x i (by omega)]

/-- A frame that is aligned as for a call and ends below the red zone. -/
structure WellPlaced (userRsp sp : Word) : Prop where
  aligned : (sp.toNat + 8) % 16 = 0
  below : sp.toNat + 168 + 128 ≤ userRsp.toNat

/-- The pointer is aligned at once. -/
theorem signalSp_eq (r : Word) : signalSp r = ((r - 128) &&& ~~~15#64) - 168 := by
  have haligned : (((r - 128) &&& ~~~15#64) - 168 + 8) &&& 15#64 = 0 := by
    have hmask := toNat_and_not15 (r - 128)
    generalize (r - 128) &&& ~~~15#64 = sp at *
    refine BitVec.eq_of_toNat_eq ?_
    have hlow : ∀ x : Word, (x &&& 15#64).toNat = x.toNat % 16 := fun x => by
      rw [BitVec.toNat_and]
      exact Nat.and_two_pow_sub_one_eq_mod x.toNat 4
    rw [hlow]
    bv_omega
  exact if_neg (not_not.mpr haligned)

theorem userRangeOk_of_canStore (h : canStore w p n = true) : userRangeOk p n = true := by
  unfold canStore at h
  rw [Bool.and_eq_true] at h
  exact h.1

theorem userRangeOk_le (h : userRangeOk p 168 = true) : p.toNat + 168 ≤ 2 ^ 47 := by
  unfold userRangeOk at h
  simp only [Bool.and_eq_true, Bool.or_eq_true, decide_eq_true_eq] at h
  omega

theorem signalSp_wellPlaced {r : Word} (h : canStore w (signalSp r) 168 = true) : WellPlaced r (signalSp r) := by
  have hrange := userRangeOk_le (userRangeOk_of_canStore h)
  have hmask := toNat_and_not15 (r - 128)
  rw [signalSp_eq] at hrange ⊢
  generalize (r - 128) &&& ~~~15#64 = sp at *
  constructor <;> bv_omega

/-- A delivery that has not been undone: the state before it and the signal. -/
structure Delivery where
  before : Machine
  sig : ℕ

def Delivery.sp (d : Delivery) : Word := signalSp d.before.frame.userRsp

def Delivery.frame (d : Delivery) : SigFrame := signalFrame d.before d.sig

/-- Runs of a task, with the deliveries that have not been undone, the last one first. What the task
and its system calls do in between leaves the signal frames alone, and signals arrive while the
stack pointer is not above the frames. -/
inductive Run : Machine → List Delivery → Prop
  | start (m : Machine) : Run m []
  | user {m m' : Machine} {live : List Delivery} (h : Run m live)
      (hsame : ∀ d ∈ live, ∀ i < 168, m'.mem (d.sp + BitVec.ofNat 64 i) = m.mem
      (d.sp + BitVec.ofNat 64 i)) : Run m' live
  | deliver {w : Word → Bool} {m m' : Machine} {live : List Delivery} {sig : ℕ} {hd : Word} (h : Run m live)
      (hact : signalAction m.task = .enter sig hd) (hw : canStore w (signalSp m.frame.userRsp) 168 = true)
      (hbelow : ∀ d ∈ live, m.frame.userRsp.toNat ≤ d.sp.toNat + 8) (hm : deliverSignals w m = .returned m') :
      Run m' (⟨m, sig⟩ :: live)
  | sigreturn {k : Kernel} {m m' : Machine} {d : Delivery} {live : List Delivery} (h : Run m (d :: live))
      (hrax : m.frame.rax = 15) (hrsp : m.frame.userRsp = d.sp + 8)
      (hquiet : signalAction { m.task with blocked := d.before.task.blocked } = .nothing)
      (hm : linuxSyscallHandler k m = .returned m') : Run m' live

/-- The frame stands where it was pushed. -/
structure InPlace (mem : Mem) (d : Delivery) : Prop where
  range : userRangeOk d.sp 168 = true
  stands : Stands mem d.sp d.frame.bytes

/-- The state in which a handler is entered. -/
theorem deliverSignals_enter (hact : signalAction m.task = .enter sig hd)
    (hw : canStore w (signalSp m.frame.userRsp) 168 = true) : ∃ m', deliverSignals w m = .returned
      m' ∧ m'.frame.rcx = hd ∧ m'.frame.userRsp = signalSp m.frame.userRsp ∧
      m'.mem = copyToUser w m.mem (signalSp m.frame.userRsp) (signalFrame m sig).bytes := by
  unfold deliverSignals
  dsimp only
  rw [hact]
  dsimp only
  rw [if_pos hw]
  exact ⟨_, rfl, rfl, rfl, rfl⟩

theorem sigreturn_restores {d : Delivery} (hd : InPlace m.mem d) (hrax : m.frame.rax = 15)
    (hrsp : m.frame.userRsp = d.sp + 8)
    (hquiet : signalAction { m.task with blocked := d.before.task.blocked } = .nothing) :
    ∃ m', linuxSyscallHandler k m = .returned m' ∧ m'.frame = d.before.frame ∧
      m'.saved = d.before.saved ∧ m'.task.blocked = d.before.task.blocked ∧ m'.mem = m.mem := by
  have hsp : m.frame.userRsp - 8 = d.sp := by rw [hrsp, BitVec.add_sub_cancel]
  have hsf : sigFrameAt m = some d.frame := by
    unfold sigFrameAt
    rw [hsp, copyFromUser_of_stands hd.range hd.stands, Option.map_some, ofBytes_bytes]
  have hblocked : (d.frame.blocked).setWidth 32 = d.before.task.blocked := by
    change (d.before.task.blocked.setWidth 64).setWidth 32 = d.before.task.blocked
    rw [BitVec.setWidth_setWidth_of_le _ (by decide), BitVec.setWidth_eq]
  have hintact : Intact k m.frame := intact_of_signal (Or.inr (Or.inr hrax))
  have hdispatch : dispatch k m = some (sysRtSigreturn m) := by
    unfold dispatch
    dsimp only
    rw [if_neg (by rw [hrax]; decide), if_neg (by rw [hrax]; decide), if_pos hrax, if_pos hintact]
  unfold linuxSyscallHandler
  rw [hdispatch]
  unfold sysRtSigreturn
  rw [hsf]
  dsimp only
  unfold deliverSignals
  dsimp only
  rw [hblocked, hquiet]
  refine ⟨_, rfl, ?_, rfl, rfl, rfl⟩
  dsimp only
  rw [BitVec.ofInt_toInt]
  rfl

theorem Run.inPlace {live : List Delivery} (h : Run m live) : ∀ d ∈ live, InPlace m.mem d := by
  induction h with
  | start m => exact fun d hd => by cases hd
  | user h hsame ih => exact fun d hd => ⟨(ih d hd).range, fun i hi => (hsame d hd i hi).trans ((ih d hd).stands i hi)⟩
  | deliver h hact hw hbelow hm ih =>
    obtain ⟨m₁, hm₁, -, -, hmem⟩ := deliverSignals_enter hact hw
    rw [hm₁] at hm
    cases hm
    intro d hd
    rw [hmem]
    rcases List.mem_cons.mp hd with rfl | hold
    · exact ⟨userRangeOk_of_canStore hw, stands_copyToUser (by decide) hw⟩
    · have hrange := userRangeOk_le (ih d hold).range
      have hplaced := (signalSp_wellPlaced hw).below
      have hle := hbelow d hold
      refine ⟨(ih d hold).range, fun i hi => (copyToUser_ne ?_).trans ((ih d hold).stands i hi)⟩
      -- the new frame ends below the older one
      generalize signalSp _ = sp at *
      have hi' : (BitVec.ofNat 64 i).toNat = i := by
        rw [BitVec.toNat_ofNat]
        exact Nat.mod_eq_of_lt (by omega)
      generalize BitVec.ofNat 64 i = x at *
      bv_omega
  | sigreturn h hrax hrsp hquiet hm ih =>
    obtain ⟨m₁, hm₁, -, -, -, hmem⟩ := sigreturn_restores (ih _ List.mem_cons_self) hrax hrsp hquiet
    rw [hm₁] at hm
    cases hm
    intro d hd
    rw [hmem]
    exact ih d (List.mem_cons_of_mem _ hd)

/-- In every run, a signal that is delivered enters its handler with an aligned stack and its frame
below the red zone, and `rt_sigreturn` behind the frame that was pushed last restores the registers,
the flags and the mask of before that delivery. -/
theorem delivery_undone {live : List Delivery} (h : Run m live) :
    (∀ w sig hd, signalAction m.task = .enter sig hd → canStore w (signalSp m.frame.userRsp) 168 = true →
      ∃ m', deliverSignals w m = .returned m' ∧ m'.frame.rcx = hd ∧ WellPlaced m.frame.userRsp m'.frame.userRsp) ∧
    ∀ d rest k, live = d :: rest → m.frame.rax = 15 → m.frame.userRsp = d.sp + 8 →
      signalAction { m.task with blocked := d.before.task.blocked } = .nothing →
        ∃ m', linuxSyscallHandler k m = .returned m' ∧ m'.frame = d.before.frame ∧
          m'.saved = d.before.saved ∧ m'.task.blocked = d.before.task.blocked := by
  refine ⟨fun w sig hd hact hw => ?_, fun d rest k hlive hrax hrsp hquiet => ?_⟩
  · obtain ⟨m', hm', hrcx, hrsp, -⟩ := deliverSignals_enter hact hw
    refine ⟨m', hm', hrcx, ?_⟩
    rw [hrsp]
    exact signalSp_wellPlaced hw
  · have hd := h.inPlace d (by rw [hlive]; exact List.mem_cons_self)
    obtain ⟨m', hm', hframe, hsaved, hblocked, -⟩ := sigreturn_restores (k := k) hd hrax hrsp hquiet
    exact ⟨m', hm', hframe, hsaved, hblocked⟩

/-- A task with signal 10 pending, and a handler for it. -/
def interrupted : Machine where
  frame := { rax := 7, rcx := 0x400123, r11 := 0x246, rbx := 5, userRsp := 0x7ffe0ff0 }
  saved := { rbp := 0x7ffe1000, r12 := 12 }
  task := { pending := bit32 10, handlers := fun _ => 0x401000, restorer := 0x402000 }
  mem := fun _ => some 0

/-- Its handler has come to `rt_sigreturn`. -/
def handled : Machine where
  frame := { rax := 15, userRsp := signalSp interrupted.frame.userRsp + 8 }
  saved := {}
  task := { handlers := fun _ => 0x401000, restorer := 0x402000, blocked := bit32 10 }
  mem := copyToUser (fun _ => true) interrupted.mem (signalSp interrupted.frame.userRsp)
    (signalFrame interrupted 10).bytes

theorem handled_run : Run handled [⟨interrupted, 10⟩] := by
  have hact : signalAction interrupted.task = .enter 10 0x401000 := by decide +kernel
  have hw : canStore (fun _ => true) (signalSp interrupted.frame.userRsp) 168 = true := by decide +kernel
  obtain ⟨m', hm', -, -, hmem⟩ := deliverSignals_enter hact hw
  have hrun : Run m' [⟨interrupted, 10⟩] :=
    Run.deliver (Run.start interrupted) hact hw (fun d hd => (List.not_mem_nil hd).elim) hm'
  refine hrun.user fun d _ i _ => ?_
  rw [hmem]
  simp only [handled]

/-- The interrupted code goes on. -/
theorem delivery_undone_once : ∃ m', linuxSyscallHandler quiet handled = .returned m' ∧ m'.frame = interrupted.frame ∧
    m'.saved = interrupted.saved ∧ m'.task.blocked = interrupted.task.blocked :=
  (delivery_undone handled_run).2 ⟨interrupted, 10⟩ [] quiet rfl rfl rfl (by decide +kernel)

end ComputerOS.Linux.Signals
