import ComputerOS.Linux.UserAccess

/-!
Programs that access nothing but the user's half of the address space. The copy helpers are of this
kind, and so is every system call that goes through them alone, whatever its arguments.
-/
namespace ComputerOS.Linux.UserAccess

open Accessing Signals

/-- An address in the half of the address space that programs may use. -/
def UserHalf (p : Word) : Prop := p.toNat < 2 ^ 47

/-- Every address that `x` accesses is one of the user's half. -/
class User (mem : ByteMem Word) {α : Type} (x : M α) : Prop where
  only : Only mem UserHalf x

variable {α β : Type} {mem : ByteMem Word}

section Combinators

variable {x y : M α} {f : α → M β} {k : M ℤ} {err : ℤ}

theorem user_iff : User mem x ↔ Only mem UserHalf x := ⟨fun h => h.only, fun h => ⟨h⟩⟩

instance (a : α) : User mem (pure a : M α) := ⟨trivial⟩

instance : User mem (.halt : M α) := ⟨trivial⟩

instance [hx : User mem x] [hf : ∀ a, User mem (f a)] : User mem (x >>= f) :=
  ⟨all_bind.mpr (hx.only.all fun a => (hf a).only)⟩

theorem user_bind_iff [hf : ∀ a, User mem (f a)] : User mem (x >>= f) ↔ User mem x :=
  ⟨fun h => ⟨(only_bind.mp h.only).1⟩, fun _ => inferInstance⟩

instance {c : Prop} [Decidable c] [hx : User mem x] [hy : User mem y] : User mem (if c then x else y) :=
  ⟨all_ite.mpr ⟨fun _ => hx.only, fun _ => hy.only⟩⟩

instance : User mem answer := ⟨fun _ => trivial⟩

instance : User mem choose := ⟨fun _ => trivial⟩

instance [User mem x] : User mem (discard x) := inferInstanceAs (User mem (x >>= fun _ => pure _))

instance : User mem result := by
  unfold result
  infer_instance

instance : User mem kernelAddress := by
  unfold kernelAddress
  infer_instance

instance [User mem k] : User mem (require err k) := by
  unfold require
  infer_instance

instance {r : Option β} {k : β → M ℤ} [hk : ∀ b, User mem (k b)] : User mem (r.elim (pure err) k) := by
  cases r with
  | none => exact inferInstanceAs (User mem (pure err))
  | some b => exact hk b

instance {x : M (Option β)} {k : β → M ℤ} [User mem x] [∀ b, User mem (k b)] : User mem (orReturn x err k) := by
  unfold orReturn
  infer_instance

instance {f : ℕ → M (Option α)} [hf : ∀ i, User mem (f i)] (n i : ℕ) : User mem (rounds f n i) :=
  ⟨only_rounds (fun i => (hf i).only) n i⟩

/-- After a check the rest runs on what it returned. -/
theorem user_orReturn_iff {x : M (Option β)} {k : β → M ℤ} :
    User mem (orReturn x err k) ↔ User mem x ∧ ∀ b, Returns mem x (some b) → User mem (k b) := by
  simp only [user_iff, orReturn, only_bind]
  refine and_congr Iff.rfl ⟨fun h b hb => h (some b) hb, fun h r hr => ?_⟩
  cases r with
  | none => trivial
  | some b => exact h b hr

theorem user_require_iff : User mem (require err k) ↔ User mem k := by
  refine ⟨fun h => ?_, fun h => inferInstance⟩
  exact ⟨h.only 1⟩

end Combinators

theorem toNat_add_one {p : Word} (h : p.toNat + 1 < 2 ^ 64) : (p + 1).toNat = p.toNat + 1 := by
  rw [BitVec.toNat_add]
  exact Nat.mod_eq_of_lt h

theorem user_loads {p : Word} {n : ℕ} (h : p.toNat + n ≤ 2 ^ 47) : User mem (loads p n) := by
  induction n generalizing p with
  | zero => exact inferInstanceAs (User mem (pure _))
  | succ n ih =>
    have hp : UserHalf p := by
      unfold UserHalf
      omega
    have := ih (p := p + 1) (by rw [toNat_add_one (by omega)]; omega)
    have hrest (b : UInt8) : User mem (do let rest ← loads (p + 1) n; pure (rest.map (b :: ·))) := inferInstance
    exact ⟨hp, trivial, fun b _ => (hrest b).only⟩

instance (p : Word) (n : ℕ) : User mem (copyFromUser p n) := by
  unfold copyFromUser
  split
  · rename_i h
    simp only [userRangeOk, Bool.and_eq_true, decide_eq_true_eq, Bool.or_eq_true] at h
    exact user_loads (by omega)
  · infer_instance

theorem user_stores {p : Word} {n : ℕ} (h : p.toNat + n ≤ 2 ^ 47) : User mem (stores p n) := by
  induction n generalizing p with
  | zero => exact inferInstanceAs (User mem (pure _))
  | succ n ih =>
    have hp : UserHalf p := by
      unfold UserHalf
      omega
    exact ⟨hp, trivial, fun _ => (ih (p := p + 1) (by rw [toNat_add_one (by omega)]; omega)).only⟩

instance (p : Word) (n : ℕ) : User mem (copyToUser p n) := by
  unfold copyToUser
  split
  · rename_i h
    simp only [userRangeOk, Bool.and_eq_true, decide_eq_true_eq, Bool.or_eq_true] at h
    exact user_stores (by omega)
  · infer_instance

instance {p : Word} {n : ℕ} {k : M ℤ} [User mem k] : User mem (copyOut p n k) := by
  unfold copyOut
  infer_instance

instance (buf : Word) (n : ℕ) : User mem (copyOutBytes buf n) := by
  unfold copyOutBytes
  infer_instance

instance (ubuf count : Word) : User mem (ttyRead ubuf count) := by
  unfold ttyRead
  infer_instance

instance (buf count : Word) : User mem (sysLinuxRead buf count) := by
  unfold sysLinuxRead
  infer_instance

instance (buf count : Word) (fuel total : ℕ) : User mem (ttyWrite buf count fuel total) := by
  induction fuel generalizing total with
  | zero => exact inferInstanceAs (User mem .halt)
  | succ fuel ih =>
    have (r : Option (List UInt8)) (n : ℕ) : User mem (match r with
      | none => pure (if 0 < total then (total : ℤ) else EFAULT)
      | some _ => ttyWrite buf count fuel (total + n)) := by
      cases r with
      | none => exact inferInstanceAs (User mem (pure _))
      | some _ => exact ih _
    unfold ttyWrite
    infer_instance

instance (buf count : Word) : User mem (sysLinuxWrite buf count) := by
  unfold sysLinuxWrite
  infer_instance

instance (buf count : Word) : User mem (pipeRead buf count) := by
  unfold pipeRead
  infer_instance

instance (buf count : Word) : User mem (pipeWrite buf count) := by
  have (i : ℕ) (r : Option (List UInt8)) : User mem (match r with
    | none => (pure (some (if 0 < i then (i : ℤ) else EFAULT)) : M (Option ℤ))
    | some _ => pure none) := by
    cases r with
    | none => exact inferInstanceAs (User mem (pure _))
    | some _ => exact inferInstanceAs (User mem (pure _))
  unfold pipeWrite
  infer_instance

instance (uaddr : Word) : User mem (sysLinuxConnect uaddr) := by
  unfold sysLinuxConnect
  infer_instance

instance (ubuf len uaddr : Word) : User mem (sysLinuxSendto ubuf len uaddr) := by
  have hdatagram : User mem (do
      if ← choose then
        require ENOMEM <| do
          discard (copyFromUser ubuf (uint32 len))
          pure (len.toNat : ℤ)
      else pure (len.toNat : ℤ)) := inferInstance
  have hstream (r : ℤ) : User mem (if r < 0 then pure r
      else require (-111) <| require ENOTCONN <| require ENOMEM <|
        orReturn (copyFromUser ubuf (uint32 len)) EFAULT fun _ => require EIO (pure len.toNat)) := inferInstance
  unfold sysLinuxSendto
  dsimp only
  infer_instance

instance (ubuf len uaddr uaddrlen : Word) : User mem (sysLinuxRecvfrom ubuf len uaddr uaddrlen) := by
  unfold sysLinuxRecvfrom
  dsimp only
  infer_instance

instance (buf count : Word) : User mem (fdReadAny buf count) := by
  unfold fdReadAny
  infer_instance

instance (buf count : Word) : User mem (fdWriteAny buf count) := by
  unfold fdWriteAny
  infer_instance

instance {io : Word → Word → M ℤ} [∀ p n, User mem (io p n)] (uiov : Word) (n i : ℕ) (total : ℤ) :
    User mem (vecLoop io uiov n i total) := by
  induction n generalizing i total with
  | zero => exact inferInstanceAs (User mem (pure _))
  | succ n ih =>
    unfold vecLoop
    infer_instance

instance (uiov : Word) (iovcnt : ℤ) : User mem (sysLinuxReadv uiov iovcnt) := by
  unfold sysLinuxReadv
  infer_instance

instance (uiov : Word) (iovcnt : ℤ) : User mem (sysLinuxWritev uiov iovcnt) := by
  unfold sysLinuxWritev
  infer_instance

instance (buf count : Word) (isWrite : Bool) : User mem (sysLinuxPread buf count isWrite) := by
  unfold sysLinuxPread
  infer_instance

instance (ustat : Word) : User mem (fillStat ustat) := by
  unfold fillStat
  infer_instance

instance (ustat : Word) : User mem (sysLinuxFstat ustat) := by
  unfold sysLinuxFstat
  infer_instance

instance (ubuf : Word) (count n written : ℕ) : User mem (getdents ubuf count n written) := by
  induction n generalizing written with
  | zero => exact inferInstanceAs (User mem (pure _))
  | succ n ih =>
    unfold getdents
    dsimp only
    infer_instance

instance (ubuf count : Word) : User mem (sysLinuxGetdents64 ubuf count) := by
  unfold sysLinuxGetdents64
  infer_instance

instance (p : Word) (n : ℕ) : User mem (copyStruct p n) := by
  unfold copyStruct
  infer_instance

instance (p : Word) (n : ℕ) : User mem (copyStructOpt p n) := by
  unfold copyStructOpt
  infer_instance

instance (ubuf : Word) : User mem (sysLinuxUname ubuf) := inferInstanceAs (User mem (copyStruct _ _))

instance (utp : Word) : User mem (sysLinuxClockGettime utp) := inferInstanceAs (User mem (copyStruct _ _))

instance (utv : Word) : User mem (sysLinuxGettimeofday utv) := inferInstanceAs (User mem (copyStructOpt _ _))

instance (utp : Word) : User mem (sysLinuxClockGetres utp) := inferInstanceAs (User mem (copyStructOpt _ _))

instance (ubuf : Word) : User mem (sysLinuxStatfs ubuf) := inferInstanceAs (User mem (copyStruct _ _))

instance (ubuf : Word) : User mem (sysLinuxGetrlimit ubuf) := inferInstanceAs (User mem (copyStruct _ _))

instance (ubuf : Word) : User mem (sysLinuxSysinfo ubuf) := inferInstanceAs (User mem (copyStruct _ _))

instance (ustatus : Word) : User mem (sysLinuxWait4 ustatus) := by
  unfold sysLinuxWait4
  infer_instance

instance (rem : Word) : User mem (sysLinuxNanosleep rem) := by
  unfold sysLinuxNanosleep
  dsimp only
  infer_instance

instance (upipefd : Word) : User mem (sysLinuxPipe upipefd) := by
  unfold sysLinuxPipe
  infer_instance

instance (sz : ℤ) (ulist : Word) : User mem (sysLinuxGetgroups sz ulist) := by
  unfold sysLinuxGetgroups
  dsimp only
  infer_instance

instance (uold : Word) : User mem (sysLinuxPrlimit uold) := by
  unfold sysLinuxPrlimit
  infer_instance

instance (op : ℤ) (a2 : Word) : User mem (sysLinuxPrctl op a2) := by
  unfold sysLinuxPrctl
  dsimp only
  infer_instance

instance (uoffset count : Word) : User mem (sysLinuxSendfile uoffset count) := by
  unfold sysLinuxSendfile
  dsimp only
  infer_instance

instance (len : Word) : User mem (sysLinuxSplice len) := by
  unfold sysLinuxSplice
  dsimp only
  infer_instance

instance (len umask : Word) : User mem (sysLinuxSchedGetaffinity len umask) := by
  unfold sysLinuxSchedGetaffinity
  infer_instance

instance (uaddr ulen : Word) : User mem (sysLinuxGetsockname uaddr ulen) := by
  unfold sysLinuxGetsockname
  infer_instance

instance (opt : ℤ) (uval ulen : Word) : User mem (sysLinuxGetsockopt opt uval ulen) := by
  unfold sysLinuxGetsockopt
  dsimp only
  infer_instance

instance (code : ℤ) (addr : Word) : User mem (sysLinuxArchPrctl code addr) := by
  unfold sysLinuxArchPrctl
  infer_instance

instance (ubuf size : Word) : User mem (sysLinuxGetcwd ubuf size) := by
  unfold sysLinuxGetcwd
  infer_instance

instance (req arg : Word) : User mem (sysLinuxIoctl req arg) := by
  have (isTty : Bool) : User mem (match req.toNat with
    | 0x5401 => if isTty then copyStruct arg 36 else pure ENOTTY
    | 0x5402 | 0x5403 | 0x5404 =>
      if isTty then orReturn (copyFromUser arg 36) EFAULT fun _ => pure 0 else pure ENOTTY
    | 0x5413 => if isTty then copyStruct arg 8 else pure ENOTTY
    | 0x540F => if isTty then copyStruct arg 4 else pure ENOTTY
    | 0x541B => copyStruct arg 4
    | 0x5421 | 0x5451 | 0x5450 => pure 0
    | 0x5414 | 0x5410 | 0x540E => pure (if isTty then 0 else ENOTTY)
    | _ => pure (if isTty then EINVAL else ENOTTY)) := by
    split <;> infer_instance
  unfold sysLinuxIoctl
  infer_instance

instance (new old : Word) (n : ℕ) : User mem (exchange new old n) := by
  unfold exchange
  infer_instance

instance (act oact : Word) : User mem (sysLinuxRtSigaction act oact) := inferInstanceAs (User mem (exchange _ _ _))

instance (set oset : Word) : User mem (sysLinuxRtSigprocmask set oset) := inferInstanceAs (User mem (exchange _ _ _))

instance (userRsp : Word) : User mem (sysLinuxRtSigreturn userRsp) := by
  unfold sysLinuxRtSigreturn
  infer_instance

/-- An entry that is read, changed and written back. -/
theorem user_entry (p : Word) (n : ℕ) (r : Option (List UInt8)) : User mem (match r with
    | none => (pure none : M (Option Unit))
    | some _ => do
      discard (copyToUser p n)
      pure none) := by
  cases r with
  | none => exact inferInstanceAs (User mem (pure _))
  | some _ => exact inferInstanceAs (User mem (discard _ >>= fun _ => pure _))

instance (fds : Word) (nfds : ℤ) : User mem (poll fds nfds) := by
  have := @user_entry mem
  unfold poll
  infer_instance

instance (nfds : ℤ) (rfds wfds efds : Word) : User mem (pselect6 nfds rfds wfds efds) := by
  have := @user_entry mem
  unfold pselect6
  dsimp only
  infer_instance

instance (p : Word) : User mem (time p) := by
  unfold time
  dsimp only
  infer_instance

instance (uaddr op : Word) : User mem (futex uaddr op) := by
  unfold futex
  infer_instance

instance (msg : Word) (k : List UInt8 → List UInt8 → M ℤ) [∀ mh iov, User mem (k mh iov)] :
    User mem (withMsg msg k) := by
  unfold withMsg
  infer_instance

instance (msg : Word) : User mem (sendmsg msg) := by
  unfold sendmsg
  infer_instance

instance (msg : Word) : User mem (recvmsg msg) := by
  unfold recvmsg
  infer_instance

instance : User mem deliverSignals := by
  unfold deliverSignals
  infer_instance

end ComputerOS.Linux.UserAccess
