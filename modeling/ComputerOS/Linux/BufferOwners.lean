import ComputerOS.Lib.SoleOwner
import ComputerOS.Linux.FileCalls

/-!
Who holds the write buffers. A call on one descriptor leaves every other live buffer alone, and
a buffer it gets was not in use before. So each buffer has one holder, as long as no entry with a
buffer is copied by assignment.
-/
namespace ComputerOS.Linux.Files

open Function

/-- The buffer that an open descriptor holds. -/
def Fd.buffer (e : Fd) : Option ℕ := if e.flags.used then e.wbuf else none

theorem Fd.buffer_used {e : Fd} (h : e.flags.used = true) : e.buffer = e.wbuf := if_pos h

theorem Fd.buffer_unused {e : Fd} (h : e.flags.used = false) : e.buffer = none := if_neg (by rw [h]; decide)

variable {env : Env} {heap heap' : Heap} {s : FileSt} {a b : ℕ}

theorem kmalloc_some {cap : ℕ} (h : kmalloc env cap heap = some (a, heap')) :
    heap a = none ∧ ∃ junk, heap' = update heap a (some ⟨given cap, junk⟩) := by
  unfold kmalloc at h
  cases hg : env.grant with
  | none =>
    rw [hg] at h
    cases h
  | some g =>
    rw [hg] at h
    dsimp only at h
    split at h
    · rename_i hfree
      obtain ⟨rfl, rfl⟩ := Prod.mk.inj (Option.some.inj h)
      exact ⟨Option.isNone_iff_eq_none.mp hfree, g.2, rfl⟩
    · cases h

/-- There is memory for a write buffer. -/
def hasRoom (env : Env) (heap : Heap) : Bool := (kmalloc env 0 heap).isSome

theorem hasRoom_of_kmalloc {cap : ℕ} {m : ℕ × Heap} (h : kmalloc env cap heap = some m) : hasRoom env heap = true := by
  unfold hasRoom kmalloc
  unfold kmalloc at h
  cases hg : env.grant with
  | none =>
    rw [hg] at h
    cases h
  | some g =>
    rw [hg] at h
    dsimp only at h ⊢
    split at h
    · rename_i hfree
      rw [if_pos hfree]
      rfl
    · cases h

theorem store_of_ne (pos : ℕ) (data : List UInt8) (h : b ≠ a) : store heap a pos data b = heap b := by
  unfold store
  cases heap a with
  | none => rfl
  | some blk => exact update_of_ne h _ _

theorem store_some {blk : Block} (pos : ℕ) (data : List UInt8) (h : heap a = some blk) :
    store heap a pos data = update heap a (some { blk with
      bytes := fun i => if pos ≤ i ∧ i < pos + data.length then data.getD (i - pos) 0 else blk.bytes i }) := by
  unfold store
  rw [h]

theorem isSome_store (pos : ℕ) (data : List UInt8) : (store heap a pos data b).isSome = (heap b).isSome := by
  by_cases hb : b = a
  · subst hb
    cases hblk : heap b with
    | none =>
      unfold store
      rw [hblk]
      dsimp only
      rw [hblk]
    | some blk =>
      rw [store_some pos data hblk, update_self]
      rfl
  · rw [store_of_ne pos data hb]

theorem store_new (cap : ℕ) (junk : ℕ → UInt8) (pos : ℕ) (data : List UInt8) :
    store (update heap a (some ⟨cap, junk⟩)) a pos data = update heap a (some ⟨cap,
      fun i => if pos ≤ i ∧ i < pos + data.length then data.getD (i - pos) 0 else junk i⟩) := by
  rw [store_some pos data (update_self _ _ _), update_idem]

/-- The state with another write buffer. -/
def FileSt.withBuffer (s : FileSt) (a cap : ℕ) (heap : Heap) : FileSt :=
  { s with fd := { s.fd with wbuf := some a, wbufCap := cap }, heap := heap }

inductive Ensured (env : Env) (need : ℕ) (s : FileSt) : Option ℤ × FileSt × List Access → Prop
  | failed (err : ℤ) (used : List Access)
      (hused : used = [] ∨ hasRoom env s.heap = true ∧ s.fd.wbuf = none ∧ s.fd.wbufCap < need ∧
        used = [⟨s.fd.size, given (growTo need)⟩]) :
      Ensured env need s (some err, s, used)
  | kept (b : ℕ) (hb : s.fd.wbuf = some b) (hneed : need ≤ s.fd.wbufCap) : Ensured env need s (none, s, [])
  | bare (a : ℕ) (junk : ℕ → UInt8) (hroom : hasRoom env s.heap = true) (hfree : s.heap a = none)
      (hb : s.fd.wbuf = none)
      (hneed : need ≤ s.fd.wbufCap) :
      Ensured env need s (none, s.withBuffer a 4096 (update s.heap a (some ⟨given 4096, junk⟩)), [])
  | loaded (a : ℕ) (bytes : ℕ → UInt8) (hroom : hasRoom env s.heap = true) (hfree : s.heap a = none)
      (hb : s.fd.wbuf = none) (hneed : s.fd.wbufCap < need)
      (hbytes : 0 < s.fd.size → ∃ d, vfsRead env s s.fd.size = some d ∧ ∀ i < d.length, bytes i = d.getD i 0) :
      Ensured env need s (none, s.withBuffer a (growTo need) (update s.heap a (some ⟨given (growTo need), bytes⟩)),
        if 0 < s.fd.size then [⟨s.fd.size, given (growTo need)⟩] else [])
  | moved (a b : ℕ) (bytes : ℕ → UInt8) (hroom : hasRoom env s.heap = true) (hfree : s.heap a = none)
      (hb : s.fd.wbuf = some b) (hneed : s.fd.wbufCap < need)
      (hbytes : ∀ i < s.fd.size, bytes i = bytesOf s.heap b i) :
      Ensured env need s
        (none, s.withBuffer a (growTo need) (kfree (update s.heap a (some ⟨given (growTo need), bytes⟩)) b),
          if 0 < s.fd.size then [⟨s.fd.size, capOf s.heap b⟩, ⟨s.fd.size, given (growTo need)⟩] else [])

theorem length_firstOf (heap : Heap) (a n : ℕ) : (firstOf heap a n).length = n := by
  unfold firstOf
  rw [List.length_map, List.length_range]

theorem getD_firstOf (heap : Heap) (a : ℕ) {n i : ℕ} (hi : i < n) : (firstOf heap a n).getD i 0 = bytesOf heap a i := by
  unfold firstOf
  rw [List.getD_eq_getElem?_getD, List.getElem?_map, List.getElem?_range hi]
  rfl

theorem ensured (env : Env) (need : ℕ) (s : FileSt) : Ensured env need s (ensure env need s) := by
  unfold ensure
  dsimp only
  by_cases hneed : s.fd.wbufCap < need
  · rw [if_pos hneed]
    cases hk : kmalloc env (growTo need) s.heap with
    | none => exact .failed _ _ (Or.inl rfl)
    | some m =>
      obtain ⟨a, heap⟩ := m
      have hroom := hasRoom_of_kmalloc hk
      obtain ⟨hfree, junk, rfl⟩ := kmalloc_some hk
      dsimp only
      cases hb : s.fd.wbuf with
      | some b =>
        dsimp only
        by_cases hsize : 0 < s.fd.size
        · have hcase := Ensured.moved a b (fun i => if 0 ≤ i ∧ i < 0 + (firstOf s.heap b s.fd.size).length then
            (firstOf s.heap b s.fd.size).getD (i - 0) 0 else junk i) hroom hfree hb hneed fun i hi => by
              rw [if_pos ⟨Nat.zero_le i, by rw [length_firstOf]; omega⟩, Nat.sub_zero, getD_firstOf _ _ hi]
          rw [if_pos hsize] at hcase ⊢
          rw [store_new]
          exact hcase
        · have hcase := Ensured.moved a b junk hroom hfree hb hneed fun i hi => by omega
          rw [if_neg hsize] at hcase ⊢
          exact hcase
      | none =>
        dsimp only
        by_cases hsize : 0 < s.fd.size
        · rw [if_pos hsize]
          cases hd : vfsRead env s s.fd.size with
          | none => exact .failed _ _ (Or.inr ⟨hroom, hb, hneed, rfl⟩)
          | some d =>
            have hcase := Ensured.loaded a (fun i => if 0 ≤ i ∧ i < 0 + d.length then d.getD (i - 0) 0 else junk i)
              hroom hfree hb hneed fun _ => ⟨d, hd, fun i hi => by rw [if_pos ⟨Nat.zero_le i, by omega⟩, Nat.sub_zero]⟩
            rw [if_pos hsize] at hcase
            dsimp only
            rw [store_new]
            exact hcase
        · have hcase := Ensured.loaded a junk hroom hfree hb hneed fun h => absurd h hsize
          rw [if_neg hsize] at hcase ⊢
          exact hcase
  · rw [if_neg hneed]
    cases hb : s.fd.wbuf with
    | some b => exact .kept b hb (by omega)
    | none =>
      dsimp only
      cases hk : kmalloc env 4096 s.heap with
      | none => exact .failed _ _ (Or.inl rfl)
      | some m =>
        obtain ⟨a, heap⟩ := m
        have hroom := hasRoom_of_kmalloc hk
        obtain ⟨hfree, junk, rfl⟩ := kmalloc_some hk
        exact .bare a junk hroom hfree hb (by omega)

/-- The holder of `old` ends up with `s'`: every other live buffer is as before, and a buffer it got
was not in use. -/
structure Touch (old : Option ℕ) (heap : Heap) (s' : FileSt) : Prop where
  others : ∀ a b, old ≠ some a → heap a = some b → s'.heap a = some b
  own : ∀ a, s'.fd.buffer = some a → (s'.heap a).isSome ∧ (old = some a ∨ heap a = none)

def Live (s : FileSt) : Prop := ∀ a, s.fd.buffer = some a → (s.heap a).isSome

variable {s' : FileSt} {old : Option ℕ}

theorem Touch.same (hlive : ∀ a, old = some a → (heap a).isSome) (hheap : s'.heap = heap)
    (hbuf : ∀ a, s'.fd.buffer = some a → old = some a) : Touch old heap s' := by
  refine ⟨fun a b _ h => by rwa [hheap], fun a ha => ⟨?_, Or.inl (hbuf a ha)⟩⟩
  rw [hheap]
  exact hlive a (hbuf a ha)

theorem Touch.of_none (h : Touch none heap s') (old : Option ℕ) : Touch old heap s' :=
  ⟨fun a b _ hb => h.others a b (by simp) hb, fun a ha =>
  ⟨(h.own a ha).1, (h.own a ha).2.imp_left fun hn => by cases hn⟩⟩

theorem touch_ensure (hlive : Live s) (hused : s.fd.flags.used = true) (need : ℕ) :
    Touch s.fd.buffer s.heap (ensure env need s).2.1 := by
  have hnew : ∀ a cap bytes, s.heap a = none → s.fd.wbuf = none →
      Touch s.fd.buffer s.heap (s.withBuffer a cap (update s.heap a (some ⟨given cap, bytes⟩))) := by
    intro a cap bytes hfree hb
    refine ⟨fun c blk _ hc => ?_, fun c hc => ?_⟩
    · exact (update_of_ne (by rintro rfl; rw [hfree] at hc; cases hc) _ _).trans hc
    · obtain rfl : a = c := by
        rw [Fd.buffer_used (e := (s.withBuffer a cap _).fd) hused] at hc
        exact Option.some.inj hc
      exact ⟨by simp [FileSt.withBuffer], Or.inr hfree⟩
  generalize hout : ensure env need s = out
  have hcase := ensured env need s
  rw [hout] at hcase
  cases hcase with
  | failed err used => exact Touch.same hlive rfl fun _ h => h
  | kept b hb hneed => exact Touch.same hlive rfl fun _ h => h
  | bare a junk hroom hfree hb => exact hnew a 4096 junk hfree hb
  | loaded a bytes hroom hfree hb => exact hnew a _ bytes hfree hb
  | moved a b bytes hroom hfree hb =>
    have hown : s.fd.buffer = some b := by rw [Fd.buffer_used hused, hb]
    have hab : a ≠ b := by
      rintro rfl
      have := hlive a hown
      rw [hfree] at this
      cases this
    refine ⟨fun c blk hne hc => ?_, fun c hc => ?_⟩
    · rw [hown] at hne
      have hcb : c ≠ b := fun h => hne (congrArg some h.symm)
      have hca : c ≠ a := by
        rintro rfl
        rw [hfree] at hc
        cases hc
      change update (update s.heap a _) b none c = some blk
      rw [update_of_ne hcb, update_of_ne hca, hc]
    · obtain rfl : a = c := by
        rw [Fd.buffer_used (e := (s.withBuffer a _ _).fd) hused] at hc
        exact Option.some.inj hc
      refine ⟨?_, Or.inr hfree⟩
      change (update (update s.heap a _) b none a).isSome
      rw [update_of_ne hab, update_self]
      rfl

theorem flags_ensure (env : Env) (need : ℕ) (s : FileSt) : (ensure env need s).2.1.fd.flags = s.fd.flags := by
  generalize hout : ensure env need s = out
  have hcase := ensured env need s
  rw [hout] at hcase
  cases hcase <;> rfl

/-- Without an error there is a buffer. -/
theorem ensure_wbuf {need : ℕ} {used : List Access} (h : ensure env need s = (none, s', used)) : s'.fd.wbuf.isSome := by
  have hcase := ensured env need s
  rw [h] at hcase
  cases hcase with
  | kept b hb hneed => rw [hb]; rfl
  | bare => rfl
  | loaded => rfl
  | moved => rfl

theorem Touch.store (h : Touch old heap s) (hused : s.fd.flags.used = true) (ha : s.fd.wbuf = some a) (pos : ℕ)
    (data : List UInt8) {e : Fd} (hflags : e.flags = s.fd.flags) (hbuf : e.wbuf = s.fd.wbuf) :
    Touch old heap { s with fd := e, heap := store s.heap a pos data } := by
  have hbuffer : e.buffer = some a := by rw [Fd.buffer_used (by rw [hflags, hused]), hbuf, ha]
  have hown := h.own a (by rw [Fd.buffer_used hused, ha])
  refine ⟨fun c blk hne hc => ?_, fun c hc => ?_⟩
  · have hca : c ≠ a := by
      rintro rfl
      rcases hown.2 with hold | hfree
      · exact hne hold
      · rw [hfree] at hc
        cases hc
    exact (store_of_ne pos data hca).trans (h.others c blk hne hc)
  · change e.buffer = some c at hc
    rw [hbuffer] at hc
    obtain rfl := Option.some.inj hc
    exact ⟨by rw [isSome_store]; exact hown.1, hown.2⟩

theorem touch_put (h : Touch old heap s) (hused : s.fd.flags.used = true) (ha : s.fd.wbuf.isSome)
    (data : List UInt8) (n : ℕ)
    (used : List Access) : Touch old heap (put env data n s used).st := by
  obtain ⟨a, ha⟩ := Option.isSome_iff_exists.mp ha
  unfold put
  dsimp only
  rw [show s.fd.wbuf.getD 0 = a by rw [ha]; rfl]
  cases env.copied with
  | none => exact h.store hused ha _ _ rfl rfl
  | some m => exact h.store hused ha _ _ rfl rfl

theorem touch_sysWrite (hlive : Live s) (hused : s.fd.flags.used = true) (data : List UInt8) :
    Touch s.fd.buffer s.heap (sysWrite env data s).st := by
  have hself : Touch s.fd.buffer s.heap s := Touch.same hlive rfl fun _ h => h
  unfold sysWrite
  split
  · exact hself
  split
  · exact hself
  dsimp only
  generalize hn : (s.fd.offset + data.length % 2 ^ 32) % 2 ^ 32 = need
  have htouch := @touch_ensure env _ hlive hused need
  have hflags := flags_ensure env need s
  cases hout : ensure env need s with
  | mk err out =>
    obtain ⟨s', used⟩ := out
    rw [hout] at htouch hflags
    cases err with
    | some err => exact htouch
    | none => exact touch_put htouch (by rw [hflags, hused]) (ensure_wbuf hout) data _ used

/-- Reading moves the position at most. -/
theorem sysRead_st (env : Env) (count : ℕ) (s : FileSt) :
    ∃ offset, (sysRead env count s).st = { s with fd := { s.fd with offset := offset } } := by
  have hself : ∃ offset, s = { s with fd := { s.fd with offset := offset } } := ⟨s.fd.offset, rfl⟩
  have hout : ∀ data used, ∃ offset, (handOut env s data used).st =
    { s with fd := { s.fd with offset := offset } } := by
    intro data used
    unfold handOut
    split
    · exact hself
    · exact ⟨_, rfl⟩
  unfold sysRead
  dsimp only
  repeat' split
  all_goals first | exact hself | exact hout _ _

theorem touch_sysRead (hlive : Live s) (count : ℕ) : Touch s.fd.buffer s.heap (sysRead env count s).st := by
  obtain ⟨offset, hst⟩ := sysRead_st env count s
  rw [hst]
  exact Touch.same hlive rfl fun _ h => h

theorem touch_sysPread (hlive : Live s) (off : ℤ) {io : FileSt → Out}
    (hio : ∀ offset, Touch s.fd.buffer s.heap (io { s with fd := { s.fd with offset := offset } }).st) :
    Touch s.fd.buffer s.heap (sysPread off io s).st := by
  have hself : Touch s.fd.buffer s.heap s := Touch.same hlive rfl fun _ h => h
  unfold sysPread
  dsimp only
  split
  · exact hself
  split
  · exact hself
  · exact ⟨(hio _).others, (hio _).own⟩

theorem touch_pread (hlive : Live s) (off : ℤ) (count : ℕ) :
    Touch s.fd.buffer s.heap (sysPread off (sysRead env count) s).st :=
  touch_sysPread hlive off fun offset =>
  touch_sysRead (s := { s with fd := { s.fd with offset := offset } }) hlive count

theorem touch_pwrite (hlive : Live s) (hused : s.fd.flags.used = true) (off : ℤ) (data : List UInt8) :
    Touch s.fd.buffer s.heap (sysPread off (sysWrite env data) s).st :=
  touch_sysPread hlive off fun offset =>
    touch_sysWrite (s := { s with fd := { s.fd with offset := offset } }) hlive hused data

theorem touch_sysLseek (hlive : Live s) (offset whence : ℤ) : Touch s.fd.buffer s.heap
    (sysLseek offset whence s).st := by
  unfold sysLseek
  repeat' split
  all_goals exact Touch.same hlive rfl fun _ h => h

theorem heap_vfsWrite (env : Env) (s : FileSt) (data : List UInt8) : (vfsWrite env s data).heap = s.heap := by
  unfold vfsWrite
  split <;> rfl

theorem fd_vfsWrite (env : Env) (s : FileSt) (data : List UInt8) : (vfsWrite env s data).fd = s.fd := by
  unfold vfsWrite
  split <;> rfl

theorem touch_sysFtruncate (hlive : Live s) (length : ℤ) : Touch s.fd.buffer s.heap (sysFtruncate env length s).st := by
  unfold sysFtruncate
  split
  · exact Touch.same hlive rfl fun _ h => h
  split
  · exact Touch.same hlive rfl fun _ h => h
  · refine Touch.same hlive (by dsimp only; rw [heap_vfsWrite]) fun a ha => ?_
    dsimp only at ha
    rwa [fd_vfsWrite] at ha

theorem touch_sysFsync (hlive : Live s) : Touch s.fd.buffer s.heap (sysFsync env s).st := by
  unfold sysFsync
  split
  · exact Touch.same hlive rfl fun _ h => h
  split
  · exact Touch.same hlive (by dsimp only; rw [heap_vfsWrite]) fun a ha => by dsimp only at ha; rwa [fd_vfsWrite] at ha
  · exact Touch.same hlive rfl fun _ h => h

theorem heap_fdFlush {blk : Block} (env : Env) (hne : s.fd.wbuf ≠ some a) (ha : s.heap a = some blk) :
    (fdFlush env s).1.heap a = some blk := by
  unfold fdFlush
  cases hb : s.fd.wbuf with
  | none => exact ha
  | some c =>
    dsimp only
    split
    · rw [hb] at hne
      have hac : a ≠ c := fun h => hne (congrArg some h.symm)
      change update s.heap c none a = some blk
      rw [update_of_ne hac, ha]
    · exact ha

theorem touch_fdCloseEntry (hlive : Live s) : Touch s.fd.buffer s.heap (fdCloseEntry env s).1 := by
  unfold fdCloseEntry
  split
  · exact Touch.same hlive rfl fun _ h => h
  · rename_i hused
    rw [Bool.not_eq_false] at hused
    rw [Fd.buffer_used hused]
    have hflags : ∀ e : FileSt, (fdFlush env e).1.fd.flags = e.fd.flags := fun e => by
      unfold fdFlush
      repeat' split
      all_goals rfl
    refine ⟨fun a blk hne ha => ?_, fun a ha => ?_⟩
    · exact heap_fdFlush (s := { s with fd := { s.fd with flags := {} } }) env hne ha
    · dsimp only at ha
      rw [Fd.buffer_unused (by dsimp only; rw [hflags])] at ha
      cases ha

theorem touch_dup2Close (hlive : Live s) : Touch s.fd.buffer s.heap (dup2Close env s).1 := by
  unfold dup2Close
  split
  · rename_i hused
    rw [Fd.buffer_used hused]
    refine ⟨fun a blk hne ha => ?_, fun a ha => ?_⟩
    · exact heap_fdFlush (s := { s with fd := { s.fd with flags := { s.fd.flags with pipeR := false, pipeW := false } } })
        env hne ha
    · rw [Fd.buffer_unused rfl] at ha
      cases ha
  · exact Touch.same hlive rfl fun _ h => h

/-- The child's entry gets a buffer of its own. -/
theorem touch_cloneBuf (env : Env) (s : FileSt) : Touch none s.heap (cloneBuf env s).1 := by
  have hself : ∀ e : Fd, e.buffer = none → Touch none s.heap { s with fd := e } := fun e he =>
    ⟨fun _ _ _ h => h, fun a ha => by rw [he] at ha; cases ha⟩
  unfold cloneBuf
  cases hb : s.fd.wbuf with
  | none =>
    refine hself s.fd ?_
    unfold Fd.buffer
    rw [hb]
    exact ite_self none
  | some b =>
    dsimp only
    split
    · rename_i hused
      generalize (if s.fd.wbufCap = 0 then 1 else s.fd.wbufCap) = cap
      cases hk : kmalloc env cap s.heap with
      | none =>
        refine hself { s.fd with wbuf := none, wbufCap := 0 } ?_
        unfold Fd.buffer
        exact ite_self none
      | some m =>
        obtain ⟨a, heap⟩ := m
        obtain ⟨hfree, junk, rfl⟩ := kmalloc_some hk
        dsimp only
        refine ⟨fun c blk _ hc => ?_, fun c hc => ?_⟩
        · have hca : c ≠ a := by
            rintro rfl
            rw [hfree] at hc
            cases hc
          exact (store_of_ne _ _ hca).trans ((update_of_ne hca _ _).trans hc)
        · change (if s.fd.flags.used then some a else none) = some c at hc
          rw [if_pos hused] at hc
          obtain rfl := Option.some.inj hc
          refine ⟨?_, Or.inr hfree⟩
          rw [isSome_store, update_self]
          rfl
    · rename_i hused
      exact hself s.fd (Fd.buffer_unused (Bool.not_eq_true _ ▸ hused))

variable {S : Sys} {k i : ℕ}

theorem table_setEntry (S : Sys) (k i : ℕ) (e : Fd) (k' i' : ℕ) :
    (S.setEntry k i e).table k' i' = if k' = k ∧ i' = i then e else S.table k' i' := by
  unfold Sys.setEntry Sys.setTable Sys.table
  dsimp only
  by_cases hk : k' = k
  · subst hk
    rw [update_self]
    by_cases hi : i' = i
    · subst hi
      rw [if_pos ⟨rfl, rfl⟩]
      exact update_self _ _ _
    · rw [if_neg fun h => hi h.2]
      exact update_of_ne hi _ _
  · rw [update_of_ne hk, if_neg fun h => hk h.1]

/-- Every buffer of an open descriptor is live and has no other holder. -/
def Held (S : Sys) : Prop :=
  Sole (fun a => (S.heap a).isSome) fun h : ℕ × ℕ => (S.table h.1 h.2).buffer

theorem Held.live (h : Held S) (k i : ℕ) : Live (S.view k i) := fun a ha => Sole.live h (k, i) a ha

/-- The holder of one entry changes. -/
theorem Held.back (h : Held S) {f : FileSt} (ht : Touch (S.table k i).buffer S.heap f) : Held (S.back k i f) := by
  have hother : ∀ j : ℕ × ℕ, j ≠ (k, i) → ((S.back k i f).table j.1 j.2) = S.table j.1 j.2 := fun j hj =>
    (table_setEntry S k i f.fd j.1 j.2).trans (if_neg fun hji => hj (Prod.ext hji.1 hji.2))
  have hself : (S.back k i f).table k i = f.fd := (table_setEntry S k i f.fd k i).trans (if_pos ⟨rfl, rfl⟩)
  refine Sole.change (i := (k, i)) h (fun j hj => by rw [hother j hj]) (fun j a hj ha => ?_) fun a ha => ?_
  · obtain ⟨b, hb⟩ := Option.isSome_iff_exists.mp (Sole.live h j a ha)
    have hne : (S.table k i).buffer ≠ some a := fun hown => hj (Sole.one h j (k, i) a ha hown)
    change (f.heap a).isSome
    rw [ht.others a b hne hb]
    rfl
  · dsimp only at ha
    rw [hself] at ha
    refine ⟨(ht.own a ha).1, (ht.own a ha).2.imp_right fun hfree => ?_⟩
    rw [hfree]
    decide

/-- Buffers are only let go. -/
theorem Held.mono (h : Held S) {S' : Sys} (hheap : S'.heap = S.heap)
    (hbuf : ∀ k i a, (S'.table k i).buffer = some a → (S.table k i).buffer = some a) : Held S' :=
  Sole.mono h (fun j a ha => hbuf j.1 j.2 a ha) fun j a ha => by rw [hheap]; exact Sole.live h j a (hbuf j.1 j.2 a ha)

theorem Held.setEntry (h : Held S) {e : Fd} (he : e.buffer = none) : Held (S.setEntry k i e) := by
  refine h.mono rfl fun k' i' a ha => ?_
  rw [table_setEntry] at ha
  split at ha
  · rw [he] at ha
    cases ha
  · exact ha

theorem Held.setTable (h : Held S) {tab : ℕ → Fd} (htab : ∀ i, (tab i).buffer = none) : Held (S.setTable k tab) := by
  refine h.mono rfl fun k' i' a ha => ?_
  unfold Sys.setTable Sys.table at ha
  dsimp only at ha
  by_cases hk : k' = k
  · rw [hk, update_self] at ha
    have hnone := htab i'
    rw [← hnone, Option.getD_some, hnone] at ha
    cases ha
  · rwa [update_of_ne hk] at ha

/-- A table goes away. -/
theorem Held.dropTable (h : Held S) (k tasks : ℕ) (isUser : ℕ → Bool) :
    Held { S with tables := update S.tables k none, tasks := tasks, isUser := isUser } := by
  refine h.mono rfl fun k' i' a ha => ?_
  unfold Sys.table at ha
  dsimp only at ha
  by_cases hk : k' = k
  · rw [hk, update_self] at ha
    cases ha
  · rwa [update_of_ne hk] at ha

theorem Held.curFdt (h : Held S) (t : ℕ) (ok : Bool) : Held (curFdt t ok S).2 := by
  unfold Files.curFdt
  repeat' split
  all_goals first | exact h | skip
  refine h.setTable fun i => ?_
  unfold fdtNew Fd.buffer
  split <;> rfl

theorem Held.onFile (h : Held S) (fd : ℤ) {f : FileSt → Out}
    (hf : ∀ s : FileSt, Live s → s.fd.flags.used = true → Touch s.fd.buffer s.heap (f s).st) :
    Held (onFile k fd f S).1 := by
  unfold Files.onFile
  split
  · rename_i hfd
    exact h.back (hf _ (h.live k fd.toNat) hfd.2.2)
  · exact h

/-- A loop over the entries, each step of which keeps the holders. -/
theorem Held.foldl {f : Sys × List Access → ℕ → Sys × List Access} (hf : ∀ s i, Held s.1 → Held (f s i).1) (l : List ℕ)
    (s : Sys × List Access) (h : Held s.1) : Held (l.foldl f s).1 := by
  induction l generalizing s with
  | nil => exact h
  | cons i l ih => exact ih _ (hf s i h)

theorem Held.closeAt (s : Sys × List Access) (k : ℕ) (envs : ℕ → Env) (i : ℕ) (h : Held s.1) :
    Held (closeAt k envs s i).1 :=
  h.back (touch_fdCloseEntry (h.live k i))

theorem Held.cloneAt (s : Sys × List Access) (parent child : ℕ) (envs : ℕ → Env) (i : ℕ) (h : Held s.1) :
    Held (cloneAt parent child envs s i).1 :=
  h.back ((touch_cloneBuf (envs i) (s.1.view parent i)).of_none _)

theorem Held.linuxFdtClone (h : Held S) (parent : ℕ) (tableOk : Bool) (envs : ℕ → Env) :
    Held (linuxFdtClone parent tableOk envs S).1 := by
  have hnew := h.dropTable S.tasks (S.tasks + 1) (update S.isUser S.tasks true)
  unfold Files.linuxFdtClone
  dsimp only
  split
  · exact hnew
  split
  · exact Held.foldl (fun s i hs => Held.cloneAt s parent S.tasks envs i hs) _ _ (hnew.setTable fun _ => rfl)
  · exact hnew

theorem Held.linuxFdtRelease (h : Held S) (t : ℕ) (envs : ℕ → Env) : Held (linuxFdtRelease t envs S).1 := by
  unfold Files.linuxFdtRelease
  split
  · exact h
  · exact (Held.foldl (fun s i hs => Held.closeAt s t envs i hs) _ (S, []) h).dropTable t _ _

theorem Held.fdtCloseOnExec (h : Held S) (k : ℕ) (envs : ℕ → Env) : Held (fdtCloseOnExec k envs S).1 := by
  refine Held.foldl (fun s i hs => ?_) _ (S, []) h
  split
  · exact Held.closeAt s k envs i hs
  · exact hs

/-- A new entry has no buffer. -/
theorem sysOpen_entry {env : OpenEnv} {flags : ℕ} {old : Option Fd} {files files' : Path → Option (List UInt8)} {e : Fd}
    (h : sysOpen env flags old files = (.inr e, files')) : e.wbuf = none ∧ e.wbufCap = 0 := by
  unfold sysOpen at h
  dsimp only at h
  repeat' split at h
  all_goals first | (obtain rfl := Sum.inr.inj (Prod.mk.inj h).1; exact ⟨rfl, rfl⟩) | cases h

theorem buffer_none {e : Fd} (h : e.wbuf = none) : e.buffer = none := by
  unfold Fd.buffer
  rw [h]
  exact ite_self none

theorem Held.openFile (h : Held S) (k : ℕ) (env : OpenEnv) (flags : ℕ) : Held (openFile k env flags S) := by
  have hfiles : ∀ files, Held { S with files := files } := fun files => h.mono rfl fun _ _ _ ha => ha
  unfold Files.openFile
  dsimp only
  split
  · rename_i e files i hopen _
    exact (h.setEntry (k := k) (i := i) (buffer_none (sysOpen_entry hopen).1)).mono rfl fun _ _ _ ha => ha
  · exact hfiles _

def callTable (t : ℕ) (ok : Bool) (s : Sys) : ℕ → Fd := (curFdt t ok s).2.table (curFdt t ok s).1

/-- The call copies no entry that has a write buffer, other than by `fork`. -/
def Op.NoShare : Op → Sys → Prop
  | .dup t ok oldfd, s => fdValid (entries (callTable t ok s)) oldfd → (fdAlloc (entries (callTable t ok s))).isSome →
      (callTable t ok s oldfd.toNat).wbuf = none
  | .dup2 t ok _ oldfd newfd _, s => fdValid (entries (callTable t ok s)) oldfd →
      ¬ (newfd < 0 ∨ (FD_MAX : ℤ) ≤ newfd ∨ newfd = oldfd) → (callTable t ok s oldfd.toNat).wbuf = none
  | .fcntl t ok fd cmd arg, s => fdValid (entries (callTable t ok s)) fd → cmd = 0 ∨ cmd = 1030 → arg < FD_MAX →
      ((List.range' arg (FD_MAX - arg)).find? fun i => !(callTable t ok s i).flags.used).isSome →
        (callTable t ok s fd.toNat).wbuf = none
  | _, _ => True

theorem buffer_copy {e : Fd} (h : e.wbuf = none) (cloexec : Bool) : (e.copy cloexec).buffer = none := buffer_none h

theorem Held.sysDup (h : Held S) {oldfd : ℤ} (hop : fdValid (entries (S.table k)) oldfd →
    (fdAlloc (entries (S.table k))).isSome → (S.table k oldfd.toNat).wbuf = none) : Held (sysDup k oldfd S) := by
  unfold Files.sysDup
  split
  · rename_i hold
    split
    · exact h
    · rename_i nfd hnfd
      exact h.setEntry (buffer_copy (hop hold (by rw [hnfd]; rfl)) false)
  · exact h

theorem Held.sysDup2 (h : Held S) (env : Env) {oldfd newfd : ℤ} (cloexec : Bool)
    (hop : fdValid (entries (S.table k)) oldfd →
    ¬ (newfd < 0 ∨ (FD_MAX : ℤ) ≤ newfd ∨ newfd = oldfd) → (S.table k oldfd.toNat).wbuf = none) :
    Held (sysDup2 k env oldfd newfd cloexec S).1 := by
  unfold Files.sysDup2
  split
  · rename_i hold
    split
    · exact h
    · rename_i hnew
      have hclosed : Held (S.back k newfd.toNat (dup2Close env (S.view k newfd.toNat)).1) :=
        h.back (touch_dup2Close (h.live k newfd.toNat))
      have hne : oldfd.toNat ≠ newfd.toNat := by
        have := hold.1
        omega
      have hentry : (S.back k newfd.toNat (dup2Close env (S.view k newfd.toNat)).1).table k
          oldfd.toNat = S.table k oldfd.toNat :=
        (table_setEntry S k newfd.toNat _ k oldfd.toNat).trans (if_neg fun heq => hne heq.2)
      refine hclosed.setEntry ?_
      rw [hentry]
      exact buffer_copy (hop hold hnew) cloexec
  · exact h

theorem Held.sysFcntl (h : Held S) {fd : ℤ} {cmd arg : ℕ} (hop : fdValid (entries (S.table k)) fd →
    cmd = 0 ∨ cmd = 1030 → arg < FD_MAX →
      ((List.range' arg (FD_MAX - arg)).find? fun i => !(S.table k i).flags.used).isSome →
      (S.table k fd.toNat).wbuf = none) : Held (sysFcntl k fd cmd arg S) := by
  unfold Files.sysFcntl
  split
  · rename_i hfd
    dsimp only
    split
    · rename_i hcmd
      split
      · exact h
      · rename_i harg
        split
        · exact h
        · rename_i nfd hnfd
          exact h.setEntry (buffer_copy (hop hfd hcmd (by omega) (by rw [hnfd]; rfl)) _)
    · split
      · -- `F_SETFD`: the entry keeps its buffer
        exact h.back (f := { S.view k fd.toNat with fd := (S.table k fd.toNat).copy (arg % 2 = 1) })
          (Touch.same (h.live k fd.toNat) rfl fun _ ha => ha)
      · exact h
  · exact h

/-- One call keeps the holders. -/
theorem Held.step (h : Held S) (op : Op) (hop : op.NoShare S) : Held (op.run S).1 := by
  cases op with
  | openFile t ok env flags => exact (h.curFdt t ok).openFile _ env flags
  | read t ok env fd count =>
    refine (h.curFdt t ok).onFile fd fun s hs _ => ?_
    unfold fdAny
    split
    · exact Touch.same hs rfl fun _ h => h
    · exact touch_sysRead hs count
  | write t ok env fd data =>
    refine (h.curFdt t ok).onFile fd fun s hs hused => ?_
    unfold fdAny
    split
    · exact Touch.same hs rfl fun _ h => h
    · exact touch_sysWrite hs hused data
  | pread t ok env fd count off =>
    exact (h.curFdt t ok).onFile fd fun s hs _ => touch_pread hs off count
  | pwrite t ok env fd data off =>
    exact (h.curFdt t ok).onFile fd fun s hs hused => touch_pwrite hs hused off data
  | lseek t ok fd offset whence => exact (h.curFdt t ok).onFile fd fun s hs _ => touch_sysLseek hs offset whence
  | ftruncate t ok env fd length => exact (h.curFdt t ok).onFile fd fun s hs _ => touch_sysFtruncate hs length
  | fsync t ok env fd => exact (h.curFdt t ok).onFile fd fun s hs _ => touch_sysFsync hs
  | dup t ok oldfd => exact (h.curFdt t ok).sysDup hop
  | dup2 t ok env oldfd newfd cloexec => exact (h.curFdt t ok).sysDup2 env cloexec hop
  | fcntl t ok fd cmd arg => exact (h.curFdt t ok).sysFcntl hop
  | close t ok env fd => exact (h.curFdt t ok).onFile fd fun s hs _ => touch_fdCloseEntry hs
  | fork t tableOk envs =>
    unfold Op.run
    dsimp only
    split
    · exact h.linuxFdtClone t tableOk envs
    · exact h
  | exec t ok envs =>
    unfold Op.run onTable
    exact (h.curFdt t ok).fdtCloseOnExec _ envs
  | exit t envs =>
    unfold Op.run
    dsimp only
    split
    · exact h.linuxFdtRelease t envs
    · exact h
  | spawn user => exact h.dropTable _ _ _

theorem held_boot (files : Path → Option (List UInt8)) : Held (boot files) := by
  have hbuf : ∀ k i a, ((boot files).table k i).buffer ≠ some a := by
    intro k i a ha
    unfold boot Sys.table at ha
    dsimp only at ha
    by_cases hk : k = 0
    · rw [hk, update_self, Option.getD_some] at ha
      unfold fdtNew Fd.buffer at ha
      repeat' split at ha
      all_goals cases ha
    · rw [update_of_ne hk] at ha
      cases ha
  exact ⟨fun j a ha => absurd ha (hbuf j.1 j.2 a), fun j _ a ha => absurd ha (hbuf j.1 j.2 a)⟩

/-- As long as no call copies an entry with a write buffer, each buffer of an open descriptor is
live and has one holder. -/
theorem buffers_held {used : List Access} (h : Run Op.NoShare S used) : Held S := by
  induction h with
  | boot files => exact held_boot files
  | step _ op hop ih => exact ih.step op hop

def newFile (t : ℕ) : Op :=
  .openFile t true { path := some [47, 97], list := fun dir => if dir = [47] then some [] else none } 0x42

def twoBytes (t : ℕ) : Op := .write t true { grant := some (8, fun _ => 0) } 3 [1, 2]

/-- A descriptor is copied, then the old one is written to, and the task forks. -/
def forkedRun : List Op :=
  [.spawn true, newFile 1, .dup 1 true 3, twoBytes 1, .fork 1 true fun _ =>
  { grant := some (16, fun _ => 0) }]

def afterCalls (calls : List Op) : Sys := calls.foldl (fun S op => (op.run S).1) (boot fun _ => none)

/-- Parent and child each hold a buffer of their own, and the copy of the descriptor holds none. -/
theorem forked_held : Held (afterCalls forkedRun) ∧ ((afterCalls forkedRun).table 1 3).buffer = some 8 ∧
    ((afterCalls forkedRun).table 1 4).buffer = none ∧ ((afterCalls forkedRun).table 2 3).buffer = some 16 := by
  have hopened : Run Op.NoShare (afterCalls [.spawn true, newFile 1]) _ :=
    .step (.step (.boot _) (.spawn true) trivial) (newFile 1) trivial
  have hplain : (callTable 1 true (afterCalls [.spawn true, newFile 1]) 3).wbuf = none := by decide +kernel
  have hcopied := hopened.step (.dup 1 true 3) fun _ _ => hplain
  have hforked := (hcopied.step (twoBytes 1) trivial).step
    (.fork 1 true fun _ => { grant := some (16, fun _ => 0) }) trivial
  exact ⟨buffers_held hforked, by decide +kernel, by decide +kernel, by decide +kernel⟩

/-- The failing run: `open`, `write`, `dup`, and `close` of the original. -/
def sharedRun : Sys := afterCalls [newFile 0, twoBytes 0, .dup 0 true 3, .close 0 true {} 3]

/-- After `dup` and `close`, the copy points to the freed buffer. -/
theorem shared_buffer_freed : ¬ ∀ S used, Run (fun _ _ => True) S used → Held S := by
  intro h
  have hheld : Held sharedRun := h _ _ (.step (.step (.step (.step (.boot _) (newFile 0) trivial) (twoBytes 0) trivial)
    (.dup 0 true 3) trivial) (.close 0 true {} 3) trivial)
  have hlive : (sharedRun.heap 8).isSome := Sole.live hheld (0, 4) 8 (by decide +kernel)
  revert hlive
  decide +kernel

end ComputerOS.Linux.Files
