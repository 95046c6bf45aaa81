import ComputerOS.Linux.UserHalf

/-!
Which system calls stay in the user's half of the address space. A string is copied from any
address, `getrandom` stores and `mremap` loads without a check: for these, exactly the arguments
with which they stay there.
-/
namespace ComputerOS.Linux.UserAccess

open Accessing Signals

variable {β : Type} {mem : ByteMem Word}

/-- A string of up to `n` bytes may be found at `p`, in the user's half up to its end. -/
def Readable (mem : ByteMem Word) : Word → ℕ → Prop
  | _, 0 => True
  | p, n + 1 => UserHalf p ∧ ∃ b, mem.reads p b ∧ (b = 0 ∨ Readable mem (p + 1) n)

/-- These bytes may be found from `p` on. -/
def Holds (mem : ByteMem Word) : Word → List UInt8 → Prop
  | _, [] => True
  | p, b :: bs => mem.reads p b ∧ Holds mem (p + 1) bs

theorem returns_load {p : Word} {r : Option UInt8} :
    Returns mem (load p) r ↔ r = none ∨ ∃ b, mem.reads p b ∧ r = some b := by
  simp only [load, Returns, eq_comm]

theorem returns_choose (b : Bool) : Returns mem choose b := by
  cases b with
  | false => exact ⟨0, rfl⟩
  | true => exact ⟨1, rfl⟩

theorem returns_loads {p : Word} {n : ℕ} {bs : List UInt8} :
    Returns mem (loads p n) (some bs) ↔ bs.length = n ∧ Holds mem p bs := by
  induction n generalizing p bs with
  | zero =>
    simp only [loads, returns_pure, Option.some.injEq, List.length_eq_zero_iff]
    constructor
    · rintro rfl
      exact ⟨rfl, trivial⟩
    · exact fun h => h.1.symm
  | succ n ih =>
    simp only [loads, returns_bind, returns_load]
    constructor
    · rintro ⟨r, rfl | ⟨b, hb, rfl⟩, h⟩
      · simp at h
      · obtain ⟨rest, hrest, h⟩ := returns_bind.mp h
        obtain ⟨tail, rfl, rfl⟩ := Option.map_eq_some_iff.mp h
        obtain ⟨hlen, htail⟩ := ih.mp hrest
        exact ⟨congrArg (· + 1) hlen, hb, htail⟩
    · rintro ⟨hlen, h⟩
      cases bs with
      | nil => cases hlen
      | cons b tail =>
        refine ⟨some b, Or.inr ⟨b, h.1, rfl⟩, returns_bind.mpr ⟨some tail, ih.mpr ⟨?_, h.2⟩, rfl⟩⟩
        exact Nat.succ.inj hlen

theorem returns_copyFromUser {p : Word} {n : ℕ} {bs : List UInt8} :
    Returns mem (copyFromUser p n) (some bs) ↔ userRangeOk p n ∧ bs.length = n ∧ Holds mem p bs := by
  unfold copyFromUser
  split
  · rename_i h
    simp only [h, returns_loads, true_and]
  · rename_i h
    simp [h]

theorem rangeOk_one {p : Word} : userRangeOk p 1 ↔ UserHalf p := by
  simp only [userRangeOk, UserHalf, Bool.and_eq_true, decide_eq_true_eq, Bool.or_eq_true]
  omega

theorem returns_copyByte {p : Word} {bs : List UInt8} :
    Returns mem (copyFromUser p 1) (some bs) ↔ UserHalf p ∧ ∃ b, bs = [b] ∧ mem.reads p b := by
  rw [returns_copyFromUser, rangeOk_one]
  constructor
  · rintro ⟨hp, hlen, h⟩
    obtain ⟨b, rfl⟩ := List.length_eq_one_iff.mp hlen
    exact ⟨hp, b, rfl, h.1⟩
  · rintro ⟨hp, b, rfl, hb⟩
    exact ⟨hp, rfl, hb, trivial⟩

theorem returns_copyChars {p : Word} {n : ℕ} :
    (∃ s, Returns mem (copyChars p n) (some s)) ↔ Readable mem p n := by
  induction n generalizing p with
  | zero => exact ⟨fun _ => trivial, fun _ => ⟨[], rfl⟩⟩
  | succ n ih =>
    simp only [copyChars, returns_bind, Readable]
    constructor
    · rintro ⟨s, r, hr, h⟩
      cases r with
      | none => simp at h
      | some bs =>
        obtain ⟨hp, b, rfl, hb⟩ := returns_copyByte.mp hr
        refine ⟨hp, b, hb, ?_⟩
        by_cases h0 : b = 0
        · exact Or.inl h0
        · replace h : Returns mem (if b = 0 then _ else _) (some s) := h
          rw [if_neg h0] at h
          obtain ⟨rest, hrest, h⟩ := returns_bind.mp h
          obtain ⟨tail, rfl, -⟩ := Option.map_eq_some_iff.mp h
          exact Or.inr (ih.mp ⟨tail, hrest⟩)
    · rintro ⟨hp, b, hb, h⟩
      have hr := returns_copyByte.mpr ⟨hp, b, rfl, hb⟩
      by_cases h0 : b = 0
      · refine ⟨[], some [b], hr, ?_⟩
        change Returns mem (if b = 0 then _ else _) _
        rw [if_pos h0]
        rfl
      · obtain ⟨s, hs⟩ := ih.mpr (h.resolve_left h0)
        refine ⟨b :: s, some [b], hr, ?_⟩
        change Returns mem (if b = 0 then _ else _) _
        rw [if_neg h0]
        exact returns_bind.mpr ⟨some s, hs, rfl⟩

theorem returns_copyStr {p : Word} {max : ℕ} (hp : UserHalf p) :
    (∃ s, Returns mem (copyStrFromUser (.user p) max) (some s)) ↔ Readable mem p max := by
  unfold copyStrFromUser
  rw [← returns_copyChars]
  simp only [if_neg (Nat.not_le.mpr hp), returns_bind, returns_pure, Option.map_eq_some_iff]
  constructor
  · rintro ⟨_, _, h, s, rfl, -⟩
    exact ⟨s, h⟩
  · rintro ⟨s, h⟩
    exact ⟨_, some s, h, s, rfl, rfl⟩

instance (p : Word) (n : ℕ) : User mem (copyChars p n) := by
  induction n generalizing p with
  | zero => exact inferInstanceAs (User mem (pure _))
  | succ n ih =>
    have (r : Option (List UInt8)) : User mem (match r with
      | none => (pure none : M (Option (List UInt8)))
      | some bytes =>
        let c := bytes.headD 0
        if c = 0 then pure (some [])
        else do
          let rest ← copyChars (p + 1) n
          pure (rest.map (c :: ·))) := by
      cases r with
      | none => exact inferInstanceAs (User mem (pure _))
      | some bytes =>
        dsimp only
        infer_instance
    unfold copyChars
    infer_instance

instance (s : List UInt8) (max : ℕ) : User mem (copyStrFromUser (.kernel s) max) :=
  inferInstanceAs (User mem (pure _))

/-- A string is copied from where it is said to be, at least its first byte. -/
theorem user_copyStr {p : Word} {max : ℕ} (hmax : 0 < max) :
    User mem (copyStrFromUser (.user p) max) ↔ UserHalf p := by
  obtain ⟨n, rfl⟩ := Nat.exists_eq_succ_of_ne_zero (Nat.pos_iff_ne_zero.mp hmax)
  unfold copyStrFromUser
  by_cases hp : UserHalf p
  · simp only [if_neg (Nat.not_le.mpr hp), hp, iff_true]
    infer_instance
  · simp only [if_pos (Nat.not_lt.mp hp)]
    exact ⟨fun h => h.only.1, fun h => absurd h hp⟩

section Paths

variable {p : Word} {G : Prop} {err : ℤ}

/-- A call that copies a string first: the address, and then, if there can be a string, the rest. -/
theorem user_orCopyStr_iff {max : ℕ} {k : List UInt8 → M ℤ} (hmax : 0 < max) (hk : ∀ s, User mem (k s) ↔ G) :
    User mem (orReturn (copyStrFromUser (.user p) max) err k) ↔ UserHalf p ∧ (Readable mem p max → G) := by
  rw [user_orReturn_iff, user_copyStr hmax]
  refine and_congr_right fun hp => ?_
  rw [← returns_copyStr hp]
  constructor
  · rintro h ⟨s, hs⟩
    exact (hk s).mp (h s hs)
  · exact fun h s hs => (hk s).mpr (h ⟨s, hs⟩)

theorem user_orCopyStr {max : ℕ} {k : List UInt8 → M ℤ} (hmax : 0 < max) [hk : ∀ s, User mem (k s)] :
    User mem (orReturn (copyStrFromUser (.user p) max) err k) ↔ UserHalf p := by
  simpa using user_orCopyStr_iff hmax fun s => iff_true_intro (hk s)

theorem user_resolve : User mem (resolveUserPath (.user p)) ↔ UserHalf p :=
  user_bind_iff.trans (user_copyStr (by decide))

theorem returns_resolve (hp : UserHalf p) :
    Returns mem (resolveUserPath (.user p)) (some ()) ↔ Readable mem p 512 := by
  rw [← returns_copyStr hp]
  simp only [resolveUserPath, returns_bind, returns_pure]
  constructor
  · rintro ⟨r, hr, _, _, h⟩
    obtain ⟨s, rfl, -⟩ := Option.bind_eq_some_iff.mp h
    exact ⟨s, hr⟩
  · rintro ⟨s, hs⟩
    exact ⟨some s, hs, true, returns_choose true, rfl⟩

theorem user_orResolve_iff {k : Unit → M ℤ} (hk : User mem (k ()) ↔ G) :
    User mem (orReturn (resolveUserPath (.user p)) err k) ↔ UserHalf p ∧ (Readable mem p 512 → G) := by
  rw [user_orReturn_iff, user_resolve]
  refine and_congr_right fun hp => ?_
  rw [← returns_resolve hp, ← hk]
  exact ⟨fun h => h (), fun h _ => h⟩

theorem user_orResolve {k : Unit → M ℤ} [hk : User mem (k ())] :
    User mem (orReturn (resolveUserPath (.user p)) err k) ↔ UserHalf p := by
  simpa using user_orResolve_iff (iff_true_intro hk)

theorem user_atJoinPath_iff {k : Src → M ℤ} (hk : ∀ s, User mem (k (.kernel s)) ↔ G) :
    User mem (atJoinPath p k) ↔ UserHalf p ∧ (Readable mem p 256 → G) := by
  refine user_orCopyStr_iff (by decide) fun s => ?_
  rw [← hk s]
  constructor
  · exact fun h => ⟨h.only 1⟩
  · intro h
    infer_instance

theorem user_atJoinPath {k : Src → M ℤ} [hk : ∀ s, User mem (k (.kernel s))] :
    User mem (atJoinPath p k) ↔ UserHalf p := by
  simpa using user_atJoinPath_iff fun s => iff_true_intro (hk s)

end Paths

instance (s : List UInt8) : User mem (resolveUserPath (.kernel s)) := by
  unfold resolveUserPath
  infer_instance

instance (s : List UInt8) (err : ℤ) : User mem (onPath (.kernel s) err) := by
  unfold onPath
  infer_instance

theorem user_onPath {p : Word} {err : ℤ} : User mem (onPath (.user p) err) ↔ UserHalf p := user_orResolve

instance (s : List UInt8) : User mem (sysLinuxOpen (.kernel s)) := by
  have (c : Bool) : User mem (resolveUserPath (if c then Src.kernel "/tmp/.vhosts".toUTF8.toList else .kernel s)) := by
    cases c <;> exact inferInstanceAs (User mem (resolveUserPath (.kernel _)))
  unfold sysLinuxOpen
  dsimp only
  infer_instance

theorem user_open {p : Word} : User mem (sysLinuxOpen (.user p)) ↔ UserHalf p := by
  constructor
  · exact fun h => (user_copyStr (by decide)).mp ⟨(only_bind.mp h.only).1⟩
  · intro hp
    have : User mem (copyStrFromUser (.user p) 64) := (user_copyStr (by decide)).mpr hp
    have (c : Bool) : User mem (resolveUserPath (if c then Src.kernel "/tmp/.vhosts".toUTF8.toList else .user p)) := by
      cases c with
      | false => exact user_resolve.mpr hp
      | true => exact inferInstanceAs (User mem (resolveUserPath (.kernel _)))
    unfold sysLinuxOpen
    dsimp only
    infer_instance

theorem user_stat {p ustat : Word} : User mem (sysLinuxStat (.user p) ustat) ↔ UserHalf p := user_orResolve

instance (s : List UInt8) (ustat : Word) : User mem (sysLinuxStat (.kernel s) ustat) := by
  unfold sysLinuxStat
  infer_instance

theorem user_readlink {p ubuf bufsz : Word} : User mem (sysLinuxReadlink p ubuf bufsz) ↔ UserHalf p :=
  user_orCopyStr (by decide)

theorem user_rename {p q : Word} :
    User mem (sysLinuxRename (.user p) (.user q)) ↔ UserHalf p ∧ (Readable mem p 512 → UserHalf q) :=
  user_orResolve_iff user_orResolve

instance (s t : List UInt8) : User mem (sysLinuxRename (.kernel s) (.kernel t)) := by
  unfold sysLinuxRename
  infer_instance

theorem user_renameat {p q : Word} :
    User mem (sysLinuxRenameat p q) ↔ UserHalf p ∧ (Readable mem p 256 → UserHalf q) :=
  user_atJoinPath_iff fun _ => user_atJoinPath

theorem user_unlinkat {p : Word} {removeDir : Bool} : User mem (sysLinuxUnlinkat p removeDir) ↔ UserHalf p := by
  have (s : List UInt8) : User mem (if removeDir then sysLinuxRmdir (.kernel s) else sysLinuxUnlink (.kernel s)) := by
    unfold sysLinuxRmdir sysLinuxUnlink
    infer_instance
  exact user_atJoinPath

theorem user_mkdirat {p : Word} : User mem (sysLinuxMkdirat p) ↔ UserHalf p := by
  unfold sysLinuxMkdirat sysLinuxMkdir
  exact user_atJoinPath

theorem user_faccessat {p : Word} : User mem (sysLinuxFaccessat p) ↔ UserHalf p := by
  unfold sysLinuxFaccessat sysLinuxAccess
  exact user_atJoinPath

theorem user_symlink {p q : Word} :
    User mem (sysLinuxSymlink p q) ↔ UserHalf p ∧ (Readable mem p 280 → UserHalf q) :=
  user_orCopyStr_iff (by decide) fun _ => user_orCopyStr (by decide)

theorem user_symlinkat {p q : Word} :
    User mem (sysLinuxSymlinkat p q) ↔ UserHalf p ∧ (Readable mem p 280 → UserHalf q) :=
  user_orCopyStr_iff (by decide) fun _ => user_atJoinPath

theorem user_link {p q : Word} :
    User mem (sysLinuxLink p q) ↔ UserHalf p ∧ (Readable mem p 512 → UserHalf q) :=
  user_orResolve_iff (user_orCopyStr (by decide))

theorem user_openat {p : Word} : User mem (sysLinuxOpenat p) ↔ UserHalf p := user_atJoinPath

theorem user_newfstatat {p ustat : Word} : User mem (sysLinuxNewfstatat p ustat) ↔ UserHalf p := user_atJoinPath

/-- The path of these calls is copied twice. -/
theorem user_twice {p : Word} {max : ℕ} {err : ℤ} {k : List UInt8 → M ℤ} (hmax : 0 < max)
    (hk : UserHalf p → ∀ s, User mem (k s)) :
    User mem (orReturn (copyStrFromUser (.user p) max) err k) ↔ UserHalf p := by
  constructor
  · exact fun h => (user_copyStr hmax).mp (user_orReturn_iff.mp h).1
  · intro hp
    exact user_orReturn_iff.mpr ⟨(user_copyStr hmax).mpr hp, fun s _ => hk hp s⟩

theorem user_readlinkat {p ubuf bufsz : Word} : User mem (sysLinuxReadlinkat p ubuf bufsz) ↔ UserHalf p := by
  refine user_twice (by decide) fun hp s => ?_
  have (k : Src → M ℤ) [∀ s, User mem (k (.kernel s))] : User mem (atJoinPath p k) := user_atJoinPath.mpr hp
  infer_instance

theorem user_statx {p ubuf : Word} {emptyPath : Bool} : User mem (sysLinuxStatx p ubuf emptyPath) ↔ UserHalf p := by
  refine user_twice (by decide) fun hp s => ?_
  have (k : Src → M ℤ) [∀ s, User mem (k (.kernel s))] : User mem (atJoinPath p k) := user_atJoinPath.mpr hp
  infer_instance

def MayHold (mem : ByteMem Word) (p w : Word) : Prop :=
  userRangeOk p 8 ∧ ∃ bs, bs.length = 8 ∧ Holds mem p bs ∧ wordAt bs 0 = w

/-- The strings of an array from entry `i` on, `n` at most, that may be reached are in the user's
half. -/
def StringsUser (mem : ByteMem Word) (uvec : Word) : ℕ → ℕ → Prop
  | 0, _ => True
  | n + 1, i => ∀ w, MayHold mem (uvec + ofNat (8 * i)) w → w ≠ 0 →
    UserHalf w ∧ (Readable mem w 4096 → StringsUser mem uvec n (i + 1))

/-- The array may be read to its end. -/
def StringsReadable (mem : ByteMem Word) (uvec : Word) : ℕ → ℕ → Prop
  | 0, i => MayHold mem (uvec + ofNat (8 * i)) 0
  | n + 1, i => MayHold mem (uvec + ofNat (8 * i)) 0 ∨
    ∃ w, MayHold mem (uvec + ofNat (8 * i)) w ∧ w ≠ 0 ∧ Readable mem w 4096 ∧
      StringsReadable mem uvec n (i + 1)

theorem returns_copyWord {p w : Word} :
    (∃ bs, Returns mem (copyFromUser p 8) (some bs) ∧ wordAt bs 0 = w) ↔ MayHold mem p w := by
  simp only [returns_copyFromUser, MayHold, and_assoc, exists_and_left]

theorem returns_require {err r : ℤ} {k : M ℤ} : Returns mem (require err k) r ↔ Returns mem k r ∨ err = r := by
  simp only [require, returns_bind]
  constructor
  · rintro ⟨c, -, h⟩
    cases c with
    | false => exact Or.inr h
    | true => exact Or.inl h
  · rintro (h | h)
    · exact ⟨true, returns_choose true, h⟩
    · exact ⟨false, returns_choose false, h⟩

theorem returns_orReturn {x : M (Option β)} {err r : ℤ} {k : β → M ℤ} (herr : err ≠ r) :
    Returns mem (orReturn x err k) r ↔ ∃ b, Returns mem x (some b) ∧ Returns mem (k b) r := by
  simp only [orReturn, returns_bind]
  constructor
  · rintro ⟨a, ha, h⟩
    cases a with
    | none => exact absurd h herr
    | some b => exact ⟨b, ha, h⟩
  · rintro ⟨b, hb, h⟩
    exact ⟨some b, hb, h⟩

theorem execCopyVec_eq (uvec : Word) (n i : ℕ) : execCopyVec uvec n i =
    orReturn (copyFromUser (uvec + ofNat (8 * i)) 8) EFAULT fun bytes =>
      if wordAt bytes 0 = 0 then pure 0
      else match n with
        | 0 => pure E2BIG
        | n + 1 => orReturn (copyStrFromUser (.user (wordAt bytes 0)) 4096) EFAULT fun _ =>
          require E2BIG (execCopyVec uvec n (i + 1)) := by
  conv_lhs => unfold execCopyVec
  refine congrArg (copyFromUser (uvec + ofNat (8 * i)) 8 >>= ·) (funext fun r => ?_)
  cases r <;> rfl

theorem user_execCopyVec {uvec : Word} {n i : ℕ} :
    User mem (execCopyVec uvec n i) ↔ StringsUser mem uvec n i := by
  induction n generalizing i with
  | zero =>
    rw [execCopyVec_eq]
    exact iff_of_true inferInstance trivial
  | succ n ih =>
    have hentry (w : Word) : User mem (if w = 0 then pure 0
        else orReturn (copyStrFromUser (.user w) 4096) EFAULT fun _ => require E2BIG (execCopyVec uvec n (i + 1))) ↔
        (w ≠ 0 → UserHalf w ∧ (Readable mem w 4096 → StringsUser mem uvec n (i + 1))) := by
      by_cases hw : w = 0
      · rw [if_pos hw]
        exact iff_of_true inferInstance fun h => absurd hw h
      · rw [if_neg hw, user_orCopyStr_iff (by decide) fun _ => user_require_iff.trans ih]
        exact ⟨fun h _ => h, fun h => h hw⟩
    rw [execCopyVec_eq, user_orReturn_iff]
    constructor
    · rintro ⟨-, h⟩ w hold
      obtain ⟨bs, hbs, rfl⟩ := returns_copyWord.mpr hold
      exact (hentry _).mp (h bs hbs)
    · intro h
      exact ⟨inferInstance, fun bs hbs => (hentry _).mpr (h _ (returns_copyWord.mp ⟨bs, hbs, rfl⟩))⟩

theorem returns_execCopyVec {uvec : Word} {n i : ℕ} (h : StringsUser mem uvec n i) :
    Returns mem (execCopyVec uvec n i) 0 ↔ StringsReadable mem uvec n i := by
  induction n generalizing i with
  | zero =>
    rw [execCopyVec_eq, returns_orReturn (by decide), StringsReadable, ← returns_copyWord]
    refine exists_congr fun bs => and_congr_right fun _ => ?_
    by_cases hw : wordAt bs 0 = 0
    · rw [if_pos hw]
      exact iff_of_true rfl hw
    · rw [if_neg hw]
      exact iff_of_false (show E2BIG ≠ 0 by decide) hw
  | succ n ih =>
    have hentry (w : Word) (hold : MayHold mem (uvec + ofNat (8 * i)) w) : Returns mem (if w = 0 then pure 0
        else orReturn (copyStrFromUser (.user w) 4096) EFAULT fun _ => require E2BIG (execCopyVec uvec n (i + 1))) 0 ↔
        w = 0 ∨ (w ≠ 0 ∧ Readable mem w 4096 ∧ StringsReadable mem uvec n (i + 1)) := by
      by_cases hw : w = 0
      · rw [if_pos hw]
        exact iff_of_true rfl (Or.inl hw)
      · obtain ⟨huser, hnext⟩ := h w hold hw
        rw [if_neg hw, returns_orReturn (by decide), or_iff_right hw, and_iff_right hw,
          exists_and_right, returns_copyStr huser]
        refine and_congr_right fun hread => ?_
        rw [returns_require, ih (hnext hread)]
        simp [E2BIG]
    rw [execCopyVec_eq, returns_orReturn (by decide), StringsReadable]
    constructor
    · rintro ⟨bs, hbs, hr⟩
      have hold := returns_copyWord.mp ⟨bs, hbs, rfl⟩
      rcases (hentry _ hold).mp hr with hw | hw
      · exact Or.inl (hw ▸ hold)
      · exact Or.inr ⟨_, hold, hw⟩
    · intro hr
      have ⟨w, hold, hw⟩ : ∃ w, MayHold mem (uvec + ofNat (8 * i)) w ∧
          (w = 0 ∨ (w ≠ 0 ∧ Readable mem w 4096 ∧ StringsReadable mem uvec n (i + 1))) := by
        rcases hr with hold | ⟨w, hold, hw⟩
        · exact ⟨0, hold, Or.inl rfl⟩
        · exact ⟨w, hold, Or.inr hw⟩
      obtain ⟨bs, hbs, rfl⟩ := returns_copyWord.mpr hold
      exact ⟨bs, hbs, (hentry _ hold).mpr hw⟩

theorem user_execVec {uvec : Word} : User mem (execVec uvec) ↔ (uvec ≠ 0 → StringsUser mem uvec 256 0) := by
  unfold execVec
  by_cases h : uvec = 0
  · rw [if_pos h]
    exact iff_of_true inferInstance fun hn => absurd h hn
  · rw [if_neg h, user_execCopyVec]
    exact ⟨fun hs _ => hs, fun hs => hs h⟩

theorem returns_execVec {uvec : Word} (hu : uvec ≠ 0 → StringsUser mem uvec 256 0) :
    Returns mem (execVec uvec) 0 ↔ (uvec ≠ 0 → StringsReadable mem uvec 256 0) := by
  unfold execVec
  by_cases h : uvec = 0
  · rw [if_pos h]
    exact iff_of_true rfl fun hn => absurd h hn
  · rw [if_neg h, returns_execCopyVec (hu h)]
    exact ⟨fun hs _ => hs, fun hs => hs h⟩

/-- What follows a step that has to give 0. -/
theorem user_bind_zero {x k : M ℤ} :
    User mem (x >>= fun r => if r ≠ 0 then pure r else k) ↔ User mem x ∧ (Returns mem x 0 → User mem k) := by
  simp only [user_iff, only_bind]
  refine and_congr_right fun _ => ⟨fun h h0 => ?_, fun h r hr => ?_⟩
  · exact h 0 h0
  · by_cases h0 : r = 0
    · subst h0
      exact h hr
    · rw [if_pos h0]
      trivial

theorem user_execve {upath uargv uenvp : Word} :
    User mem (sysLinuxExecve upath uargv uenvp) ↔ UserHalf upath ∧ (Readable mem upath 256 →
      (uargv ≠ 0 → StringsUser mem uargv 256 0) ∧
      ((uargv ≠ 0 → StringsReadable mem uargv 256 0) → uenvp ≠ 0 → StringsUser mem uenvp 256 0)) := by
  refine user_require_iff.trans (user_orCopyStr_iff (by decide) fun _ => ?_)
  rw [user_bind_zero, user_bind_zero, user_execVec, user_execVec]
  refine and_congr_right fun hargv => ?_
  rw [returns_execVec hargv]
  exact imp_congr_right fun _ => and_iff_left fun _ => inferInstance

/-- The bytes from `p` on are in the user's half, up to the first one without `W`. -/
def UserUpTo (W : Word → Prop) (p : Word) (n : ℕ) : Prop :=
  ∀ i < n, (∀ j < i, W (p + ofNat j)) → UserHalf (p + ofNat i)

theorem add_ofNat_succ (p : Word) (i : ℕ) : p + ofNat (i + 1) = p + 1 + ofNat i := by
  rw [BitVec.add_assoc, ofNat, Nat.add_comm, BitVec.ofNat_add]
  rfl

theorem add_ofNat_zero (p : Word) : p + ofNat 0 = p := BitVec.add_zero p

theorem userUpTo_succ {W : Word → Prop} {p : Word} {n : ℕ} :
    UserUpTo W p (n + 1) ↔ UserHalf p ∧ (W p → UserUpTo W (p + 1) n) := by
  constructor
  · intro h
    have hfirst := h 0 (Nat.succ_pos n) fun j hj => absurd hj (Nat.not_lt_zero j)
    refine ⟨add_ofNat_zero p ▸ hfirst, fun hp i hi hW => ?_⟩
    rw [← add_ofNat_succ]
    refine h (i + 1) (Nat.succ_lt_succ hi) fun j hj => ?_
    cases j with
    | zero => exact (add_ofNat_zero p).symm ▸ hp
    | succ j => exact (add_ofNat_succ p j).symm ▸ hW j (Nat.lt_of_succ_lt_succ hj)
  · rintro ⟨hp, h⟩ i hi hW
    cases i with
    | zero => exact (add_ofNat_zero p).symm ▸ hp
    | succ i =>
      rw [add_ofNat_succ]
      refine h (add_ofNat_zero p ▸ hW 0 (Nat.succ_pos i)) i (Nat.lt_of_succ_lt_succ hi) fun j hj => ?_
      exact add_ofNat_succ p j ▸ hW (j + 1) (Nat.succ_lt_succ hj)

theorem user_randomBytes {p : Word} {n : ℕ} : User mem (randomBytes p n) ↔ UserUpTo mem.writes p n := by
  induction n generalizing p with
  | zero => exact iff_of_true (inferInstanceAs (User mem (pure ()))) fun i hi => absurd hi (Nat.not_lt_zero i)
  | succ n ih =>
    rw [userUpTo_succ, ← ih]
    constructor
    · exact fun h => ⟨h.only.1, fun hw => ⟨h.only.2.2 hw⟩⟩
    · exact fun h => ⟨h.1, trivial, fun hw => (h.2 hw).only⟩

theorem user_copyOld {p : Word} {n : ℕ} :
    User mem (copyOld p n) ↔ UserUpTo (fun q => ∃ b, mem.reads q b) p n := by
  induction n generalizing p with
  | zero => exact iff_of_true (inferInstanceAs (User mem (pure ()))) fun i hi => absurd hi (Nat.not_lt_zero i)
  | succ n ih =>
    rw [userUpTo_succ, ← ih]
    constructor
    · exact fun h => ⟨h.only.1, fun ⟨b, hb⟩ => ⟨h.only.2.2 b hb⟩⟩
    · exact fun h => ⟨h.1, trivial, fun b hb => (h.2 ⟨b, hb⟩).only⟩

theorem user_getrandom {buf len : Word} :
    User mem (getrandom buf len) ↔ (buf ≠ 0 → UserUpTo mem.writes buf len.toNat) := by
  unfold getrandom
  rw [← user_randomBytes]
  by_cases h : buf ≠ 0 ∧ len ≠ 0
  · simp only [if_pos h]
    exact user_bind_iff.trans ⟨fun hr _ => hr, fun hr => hr h.1⟩
  · simp only [if_neg h]
    refine iff_of_true inferInstance fun hbuf => ?_
    have hlen : len = 0 := not_not.mp fun hn => h ⟨hbuf, hn⟩
    exact hlen ▸ inferInstanceAs (User mem (pure ()))

theorem user_mremap {oldAddr oldSize newSize : Word} :
    User mem (mremap oldAddr oldSize newSize) ↔
      (oldSize < newSize → UserUpTo (fun q => ∃ b, mem.reads q b) oldAddr oldSize.toNat) := by
  unfold mremap
  rw [← user_copyOld]
  by_cases h : newSize ≤ oldSize
  · rw [if_pos h]
    exact iff_of_true inferInstance fun hlt => absurd h (BitVec.not_le.mpr hlt)
  · rw [if_neg h]
    exact (user_require_iff.trans user_bind_iff).trans ⟨fun hc _ => hc, fun hc => hc (BitVec.not_le.mp h)⟩

/-- What the arguments have to be. -/
def Guarded (mem : ByteMem Word) (num : ℕ) (a : Args) : Prop :=
  match num with
  | 2 | 4 | 6 | 21 | 76 | 80 | 83 | 84 | 87 | 89 | 161 => UserHalf a.a1
  | 257 | 258 | 262 | 263 | 267 | 269 | 332 | 439 => UserHalf a.a2
  | 82 | 86 => UserHalf a.a1 ∧ (Readable mem a.a1 512 → UserHalf a.a2)
  | 88 => UserHalf a.a1 ∧ (Readable mem a.a1 280 → UserHalf a.a2)
  | 266 => UserHalf a.a1 ∧ (Readable mem a.a1 280 → UserHalf a.a3)
  | 264 | 316 => UserHalf a.a2 ∧ (Readable mem a.a2 256 → UserHalf a.a4)
  | 25 => a.a2 < a.a3 → UserUpTo (fun p => ∃ b, mem.reads p b) a.a1 a.a2.toNat
  | 59 => UserHalf a.a1 ∧ (Readable mem a.a1 256 →
    (a.a2 ≠ 0 → StringsUser mem a.a2 256 0) ∧
    ((a.a2 ≠ 0 → StringsReadable mem a.a2 256 0) → a.a3 ≠ 0 → StringsUser mem a.a3 256 0))
  | 318 => a.a1 ≠ 0 → UserUpTo mem.writes a.a1 a.a2.toNat
  | _ => True

theorem user_syscall (num : ℕ) (a : Args) : User mem (syscall num a) ↔ Guarded mem num a := by
  unfold syscall
  split
  rotate_right
  · -- any other number
    refine iff_of_true inferInstance ?_
    unfold Guarded
    split <;> trivial
  -- the calls that use the copy helpers alone
  all_goals try exact iff_of_true inferInstance trivial
  all_goals simp only [Guarded, sysLinuxAccess, sysLinuxChdir, sysLinuxMkdir, sysLinuxUnlink, sysLinuxRmdir,
    sysLinuxTruncate, sysLinuxChroot, user_onPath, user_open, user_stat, user_readlink, user_rename, user_link,
    user_symlink, user_openat, user_mkdirat, user_newfstatat, user_unlinkat, user_readlinkat, user_faccessat,
    user_statx, user_renameat, user_symlinkat, user_execve, user_mremap, user_getrandom]

/-- A call of the system reads and writes nothing outside the user's half exactly with these
arguments. -/
theorem user_linuxSyscallHandler (mem : ByteMem Word) (num : ℕ) (a : Args) :
    User mem (linuxSyscallHandler num a) ↔ Guarded mem num a := user_bind_iff.trans (user_syscall num a)

/-- `open` with a path in the kernel's half reads the kernel's memory. -/
theorem open_reads_kernel :
    ¬ ∀ (mem : ByteMem Word) (num : ℕ) (a : Args), User mem (linuxSyscallHandler num a) := by
  intro h
  have hopen := h { reads := fun _ _ => True, writes := fun _ => True } 2 { a1 := 0xffffffff80000000 }
  have hhalf : UserHalf 0xffffffff80000000 := user_open.mp (user_bind_iff.mp hopen)
  exact absurd hhalf (show ¬ _ < _ by decide)

end ComputerOS.Linux.UserAccess
