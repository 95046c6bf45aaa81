import ComputerOS.Linux.BufferOwners

/-!
How far the write buffers are used. The capacity of a buffer comes from the position and the
length of a write, in 32 bits; reading, flushing and copying go as far as the size of the file
says. While every size fits its buffer, no access is outside.
-/
namespace ComputerOS.Linux.Files

open Function

/-- The buffer of a descriptor is as large as recorded and holds the file. -/
structure Fits (heap : Heap) (e : Fd) : Prop where
  block : ∀ a, e.wbuf = some a → ∃ b, heap a = some b ∧ e.wbufCap ≤ b.cap ∧ e.size ≤ e.wbufCap
  none : e.wbuf = none → e.wbufCap = 0
  small : e.wbufCap + 7 < 2 ^ 32

variable {env : Env} {heap heap' : Heap} {s s' : FileSt} {a b : ℕ} {e e' : Fd}

/-- A size that `ALIGN8` does not wrap is given in full. -/
theorem given_eq {n : ℕ} (h : n + 7 < 2 ^ 32) : given n = n := by
  unfold given Kheap.align8 Kheap.u32
  rw [Nat.mod_eq_of_lt h]
  omega

theorem fits_none (hb : e.wbuf = none) (hcap : e.wbufCap = 0) : Fits heap e :=
  ⟨fun a ha => (by rw [hb] at ha; cases ha), fun _ => hcap, by omega⟩

theorem Fits.capOf (h : Fits heap e) (ha : e.wbuf = some a) : e.size ≤ capOf heap a ∧ e.wbufCap ≤ capOf heap a := by
  obtain ⟨b, hb, hcap, hsize⟩ := h.block a ha
  unfold Files.capOf
  rw [hb]
  exact ⟨Nat.le_trans hsize hcap, hcap⟩

/-- What only the buffer, its capacity and the size say. -/
theorem Fits.congr (h : Fits heap e) (hheap : heap' = heap) (hb : e'.wbuf = e.wbuf) (hcap : e'.wbufCap = e.wbufCap)
    (hsize : e'.size = e.size) : Fits heap' e' := by
  subst hheap
  refine ⟨fun a ha => ?_, fun hn => ?_, ?_⟩
  · rw [hcap, hsize]
    exact h.block a (hb ▸ ha)
  · rw [hcap]
    exact h.none (hb ▸ hn)
  · rw [hcap]
    exact h.small

/-- Storing bytes changes no capacity. -/
theorem Fits.store (h : Fits heap e) (c pos : ℕ) (data : List UInt8) : Fits (store heap c pos data) e := by
  refine ⟨fun a ha => ?_, h.none, h.small⟩
  obtain ⟨b, hb, hcap, hsize⟩ := h.block a ha
  by_cases hac : a = c
  · subst hac
    rw [store_some pos data hb]
    exact ⟨_, update_self _ _ _, hcap, hsize⟩
  · exact ⟨b, by rw [store_of_ne pos data hac, hb], hcap, hsize⟩

/-- The accesses of a call are inside, and the buffer still fits. -/
structure Sound (out : FileSt) (used : List Access) : Prop where
  ok : ∀ x ∈ used, x.Ok
  fits : out.fd.flags.used = true → Fits out.heap out.fd

theorem sound_nil (h : s.fd.flags.used = true → Fits s.heap s.fd) : Sound s [] := ⟨fun x hx => (by cases hx), h⟩

theorem ok_one {x : Access} (h : x.Ok) : ∀ y ∈ [x], y.Ok := fun y hy => by rw [List.mem_singleton.mp hy]; exact h

theorem ok_append {l l' : List Access} (h : ∀ x ∈ l, x.Ok) (h' : ∀ x ∈ l', x.Ok) : ∀ x ∈ l ++ l', x.Ok :=
  fun x hx => (List.mem_append.mp hx).elim (h x) (h' x)

/-- The position and the count, in 32 bits, do not wrap when a buffer is read, and a file that is
read into a new block is not so large that `ALIGN8` wraps. -/
def ReadOk (env : Env) (count : ℕ) (e : Fd) : Prop :=
  e.flags.dir = false → e.offset < e.size → env.kbuf = true →
    (e.wbuf.isSome → e.offset + count % 2 ^ 32 < 2 ^ 32) ∧
      (e.wbuf = none → env.filebuf = true → e.size + 7 < 2 ^ 32)

theorem sound_handOut (h : Fits s.heap s.fd) (data : List UInt8) {used : List Access} (hused : ∀ x ∈ used, x.Ok) :
    Sound (handOut env s data used).st (handOut env s data used).used := by
  unfold handOut
  split
  · exact ⟨hused, fun _ => h⟩
  · exact ⟨hused, fun _ => h.congr rfl rfl rfl rfl⟩

theorem sound_sysRead (h : Fits s.heap s.fd) {count : ℕ} (hok : ReadOk env count s.fd) :
    Sound (sysRead env count s).st (sysRead env count s).used := by
  have hself : Sound s [] := sound_nil fun _ => h
  unfold sysRead
  dsimp only
  split
  · exact hself
  split
  · exact hself
  split
  · exact hself
  rename_i hdir
  split
  · exact hself
  rename_i hsize
  split
  · exact hself
  rename_i hkbuf
  rw [not_or] at hkbuf
  split
  · rename_i b hb
    refine sound_handOut h _ (ok_one ?_)
    have hcap := (h.capOf hb).1
    have hwrap := (hok (by simpa using hdir) (by omega) (by simpa using hkbuf.1)).1 (by rw [hb]; rfl)
    change min (s.fd.offset + toRead s.fd count) (2 ^ 32) ≤ capOf s.heap b
    unfold toRead
    split <;> omega
  · rename_i hb
    split
    · exact hself
    rename_i hfilebuf
    have hsmall := (hok (by simpa using hdir) (by omega) (by simpa using hkbuf.1)).2 hb (by simpa using hfilebuf)
    have hfile : ∀ x ∈ [(⟨s.fd.size, given s.fd.size⟩ : Access)], x.Ok := ok_one (given_eq hsmall).ge
    split
    · exact ⟨hfile, fun _ => h⟩
    split
    · exact ⟨hfile, fun _ => h⟩
    · exact sound_handOut h _ hfile

/-- The capacity of the buffer that a write of `n` bytes uses. -/
def capFor (e : Fd) (n : ℕ) : ℕ :=
  if e.wbufCap < (e.offset + n) % 2 ^ 32 then growTo ((e.offset + n) % 2 ^ 32)
  else if e.wbuf.isSome then e.wbufCap else 4096

/-- A write of `n` bytes that has its buffer, or memory for a new one, stays inside: the file fits
the buffer, and so does what is written, and the size of the buffer is not so large that `ALIGN8`
wraps. -/
def WriteOk (env : Env) (n : ℕ) (s : FileSt) : Prop :=
  (s.fd.wbuf.isSome ∧ (s.fd.offset + n) % 2 ^ 32 ≤ s.fd.wbufCap) ∨ hasRoom env s.heap = true →
    s.fd.size ≤ capFor s.fd n ∧ capFor s.fd n + 7 < 2 ^ 32 ∧
      (env.copied = none ∨ copyLen env n ≠ 0 → s.fd.offset + copyLen env n ≤ capFor s.fd n)

/-- A new buffer that is large enough. -/
theorem fits_withBuffer {cap : ℕ} {heap : Heap} {blk : Block} (hblk : heap a = some blk) (hcap : blk.cap = given cap)
    (hsize : s.fd.size ≤ cap) (hsmall : cap + 7 < 2 ^ 32) :
    Fits (s.withBuffer a cap heap).heap (s.withBuffer a cap heap).fd := by
  refine ⟨fun c hc => ?_, (fun hn => by cases hn), hsmall⟩
  obtain rfl := Option.some.inj hc
  exact ⟨blk, hblk, by rw [hcap, given_eq hsmall]; exact le_rfl, hsize⟩

/-- Making the buffer large enough, with what it needs to know of the size. -/
theorem sound_ensure (h : Fits s.heap s.fd) (hlive : Live s) (hused : s.fd.flags.used = true) {n : ℕ}
    (hok : WriteOk env n s) {err : Option ℤ} {used : List Access}
    (hout : ensure env ((s.fd.offset + n) % 2 ^ 32) s = (err, s', used)) :
    (∀ x ∈ used, x.Ok) ∧ Fits s'.heap s'.fd ∧ (err = none → s'.fd.wbufCap = capFor s.fd n ∧
      s'.fd.offset = s.fd.offset ∧ s'.fd.size = s.fd.size ∧
        ((s.fd.wbuf.isSome ∧ (s.fd.offset + n) % 2 ^ 32 ≤ s.fd.wbufCap) ∨ hasRoom env s.heap = true)) := by
  have hcase := ensured env ((s.fd.offset + n) % 2 ^ 32) s
  rw [hout] at hcase
  have hgrow : s.fd.wbufCap < (s.fd.offset + n) % 2 ^ 32 → growTo ((s.fd.offset + n) % 2 ^ 32) = capFor s.fd n :=
    fun hneed => (if_pos hneed).symm
  cases hcase with
  | failed err used hcases =>
    refine ⟨fun x hx => ?_, h, fun hnone => by cases hnone⟩
    rcases hcases with rfl | ⟨hroom, -, hneed, rfl⟩
    · cases hx
    · rw [List.mem_singleton.mp hx, hgrow hneed]
      obtain ⟨hsize, hsmall, -⟩ := hok (Or.inr hroom)
      change s.fd.size ≤ given _
      rw [given_eq hsmall]
      exact hsize
  | kept b hb hneed =>
    refine ⟨fun x hx => (by cases hx), h, fun _ => ⟨?_, rfl, rfl, Or.inl ⟨by rw [hb]; rfl, hneed⟩⟩⟩
    unfold capFor
    rw [if_neg (by omega), if_pos (by rw [hb]; rfl)]
  | bare a junk hroom hfree hb hneed =>
    have hcap : (4096 : ℕ) = capFor s.fd n := by
      unfold capFor
      rw [if_neg (by omega), hb]
      rfl
    refine ⟨fun x hx => (by cases hx), ?_, fun _ => ⟨hcap, rfl, rfl, Or.inr hroom⟩⟩
    refine fits_withBuffer (update_self _ _ _) rfl ?_ (by omega)
    rw [hcap]
    exact (hok (Or.inr hroom)).1
  | loaded a bytes hroom hfree hb hneed hbytes =>
    obtain ⟨hsize, hsmall, -⟩ := hok (Or.inr hroom)
    rw [← hgrow hneed] at hsize hsmall
    refine ⟨fun x hx => ?_, fits_withBuffer (update_self _ _ _) rfl hsize hsmall,
      fun _ => ⟨hgrow hneed, rfl, rfl, Or.inr hroom⟩⟩
    split at hx
    · rw [List.mem_singleton.mp hx, given_eq hsmall]
      exact hsize
    · cases hx
  | moved a b bytes hroom hfree hb hneed hbytes =>
    obtain ⟨hsize, hsmall, -⟩ := hok (Or.inr hroom)
    rw [← hgrow hneed] at hsize hsmall
    have hab : a ≠ b := by
      rintro rfl
      have := hlive a (by rw [Fd.buffer_used hused, hb])
      rw [hfree] at this
      cases this
    refine ⟨fun x hx => ?_, fits_withBuffer ((update_of_ne hab _ _).trans (update_self _ _ _)) rfl
      hsize hsmall, fun _ => ⟨hgrow hneed, rfl, rfl, Or.inr hroom⟩⟩
    split at hx
    · rcases List.mem_cons.mp hx with rfl | hx
      · exact (h.capOf hb).1
      · rw [List.mem_singleton.mp hx, given_eq hsmall]
        exact hsize
    · cases hx

theorem copyLen_none (h : env.copied = none) (n : ℕ) : copyLen env n = n := by
  unfold copyLen
  rw [h]
  exact Nat.min_self n

/-- Copying the user's bytes into a buffer that is large enough. -/
theorem sound_put (h : Fits s.heap s.fd) (ha : s.fd.wbuf.isSome) (data : List UInt8) {n : ℕ} {used : List Access}
    (hused : ∀ x ∈ used, x.Ok) (hroom : env.copied = none ∨ copyLen env n ≠ 0 →
    s.fd.offset + copyLen env n ≤ s.fd.wbufCap) :
    Sound (put env data n s used).st (put env data n s used).used := by
  obtain ⟨a, ha⟩ := Option.isSome_iff_exists.mp ha
  have hall : ∀ x ∈ used ++ (if copyLen env n = 0 then [] else [⟨s.fd.offset + copyLen env n,
    capOf s.heap a⟩]), x.Ok := by
    refine ok_append hused fun x hx => ?_
    split at hx
    · cases hx
    · rename_i hlen
      rw [List.mem_singleton.mp hx]
      exact Nat.le_trans (hroom (Or.inr hlen)) (h.capOf ha).2
  unfold put
  dsimp only
  rw [show s.fd.wbuf.getD 0 = a by rw [ha]; rfl]
  cases hc : env.copied with
  | some m => exact ⟨hall, fun _ => h.store a _ _⟩
  | none =>
    refine ⟨hall, fun _ => ?_⟩
    have hend := hroom (Or.inl hc)
    rw [copyLen_none hc] at hend
    obtain ⟨b, hb, hcap, hsize⟩ := (h.store a s.fd.offset (data.take n)).block a ha
    refine ⟨fun c hcw => ?_, fun hn => ?_, h.small⟩
    · obtain rfl : a = c := Option.some.inj (ha.symm.trans hcw)
      refine ⟨b, hb, hcap, ?_⟩
      dsimp only
      split
      · exact Nat.le_trans (Nat.mod_le _ _) hend
      · exact hsize
    · dsimp only at hn
      rw [ha] at hn
      cases hn

theorem sound_sysWrite (h : Fits s.heap s.fd) (hlive : Live s) (hused : s.fd.flags.used = true) {data : List UInt8}
    (hok : data ≠ [] → s.fd.flags.tty = false → WriteOk env (data.length % 2 ^ 32) s) :
    Sound (sysWrite env data s).st (sysWrite env data s).used := by
  unfold sysWrite
  split
  · exact sound_nil fun _ => h
  rename_i hdata
  split
  · exact sound_nil fun _ => h
  rename_i htty
  have hw := hok hdata (by simpa using htty)
  dsimp only
  cases hout : ensure env ((s.fd.offset + data.length % 2 ^ 32) % 2 ^ 32) s with
  | mk err out =>
    obtain ⟨s', used⟩ := out
    obtain ⟨hacc, hfits, hmade⟩ := sound_ensure h hlive hused hw hout
    cases err with
    | some err => exact ⟨hacc, fun _ => hfits⟩
    | none =>
      obtain ⟨hcap, hoffset, -, hroom⟩ := hmade rfl
      refine sound_put hfits (ensure_wbuf hout) data hacc fun hc => ?_
      rw [hoffset, hcap]
      exact (hw hroom).2.2 hc

theorem sound_sysPread (h : Fits s.heap s.fd) (off : ℤ) {io : FileSt → Out}
    (hio : 0 ≤ off → Fits s.heap { s.fd with offset := off.toNat % 2 ^ 32 } →
      Sound (io { s with fd := { s.fd with offset := off.toNat % 2 ^ 32 } }).st
        (io { s with fd := { s.fd with offset := off.toNat % 2 ^ 32 } }).used) :
    Sound (sysPread off io s).st (sysPread off io s).used := by
  unfold sysPread
  dsimp only
  split
  · exact sound_nil fun _ => h
  split
  · exact sound_nil fun _ => h
  · rename_i hoff
    have hout := hio (by omega) (h.congr rfl rfl rfl rfl)
    exact ⟨hout.ok, fun hused => (hout.fits hused).congr rfl rfl rfl rfl⟩

theorem sound_pread (h : Fits s.heap s.fd) {off : ℤ} {count : ℕ}
    (hok : 0 ≤ off → ReadOk env count { s.fd with offset := off.toNat % 2 ^ 32 }) :
    Sound (sysPread off (sysRead env count) s).st (sysPread off (sysRead env count) s).used :=
  sound_sysPread h off fun hoff hfits =>
    sound_sysRead (s := { s with fd := { s.fd with offset := off.toNat % 2 ^ 32 } }) hfits (hok hoff)

theorem sound_pwrite (h : Fits s.heap s.fd) (hlive : Live s) (hused : s.fd.flags.used = true)
    {off : ℤ} {data : List UInt8}
    (hok : data ≠ [] → s.fd.flags.tty = false → 0 ≤ off →
      WriteOk env (data.length % 2 ^ 32) { s with fd := { s.fd with offset := off.toNat % 2 ^ 32 } }) :
    Sound (sysPread off (sysWrite env data) s).st (sysPread off (sysWrite env data) s).used :=
  sound_sysPread h off fun hoff hfits =>
    sound_sysWrite (s := { s with fd := { s.fd with offset := off.toNat % 2 ^ 32 } }) hfits hlive hused
      fun hdata htty => hok hdata htty hoff

theorem sound_sysLseek (h : Fits s.heap s.fd) (offset whence : ℤ) :
    Sound (sysLseek offset whence s).st (sysLseek offset whence s).used := by
  unfold sysLseek
  split
  · exact sound_nil fun _ => h
  split
  · exact sound_nil fun _ => h
  · exact ⟨fun x hx => (by cases hx), fun _ => h.congr rfl rfl rfl rfl⟩

/-- The new length is within the buffer, if there is one, and the old file is not so large that
`ALIGN8` wraps where it is read. -/
def TruncOk (env : Env) (length : ℤ) (e : Fd) : Prop :=
  0 ≤ length → env.kbuf = true → (e.wbuf.isSome → length.toNat % 2 ^ 32 ≤ e.wbufCap) ∧
    (0 < length.toNat % 2 ^ 32 → env.filebuf = true → e.size + 7 < 2 ^ 32)

theorem sound_sysFtruncate (h : Fits s.heap s.fd) {length : ℤ} (hok : TruncOk env length s.fd) :
    Sound (sysFtruncate env length s).st (sysFtruncate env length s).used := by
  unfold sysFtruncate
  split
  · exact sound_nil fun _ => h
  rename_i hlen
  split
  · exact sound_nil fun _ => h
  rename_i hkbuf
  obtain ⟨hbuf, hread⟩ := hok (by omega) (by simpa using (not_or.mp hkbuf).1)
  refine ⟨fun x hx => ?_, fun _ => ?_⟩
  · dsimp only at hx
    split at hx
    · rename_i hcopy
      rw [List.mem_singleton.mp hx]
      exact (given_eq (hread hcopy.2.1 hcopy.2.2)).ge
    · cases hx
  dsimp only
  rw [heap_vfsWrite, fd_vfsWrite]
  refine ⟨fun a ha => ?_, h.none, h.small⟩
  obtain ⟨b, hb, hcap, -⟩ := h.block a ha
  exact ⟨b, hb, hcap, hbuf (by rw [ha]; rfl)⟩

theorem sound_sysFsync (h : Fits s.heap s.fd) : Sound (sysFsync env s).st (sysFsync env s).used := by
  unfold sysFsync
  split
  · exact sound_nil fun _ => h
  rename_i b hb
  split
  · refine ⟨ok_one (h.capOf hb).1, fun _ => ?_⟩
    rw [heap_vfsWrite, fd_vfsWrite]
    exact h
  · exact sound_nil fun _ => h

theorem ok_fdFlush (h : Fits s.heap s.fd) : ∀ x ∈ (fdFlush env s).2, x.Ok := by
  unfold fdFlush
  split
  · intro x hx
    cases hx
  · rename_i b hb
    split
    · exact ok_one (h.capOf hb).1
    · intro x hx
      cases hx

theorem sound_fdCloseEntry (h : s.fd.flags.used = true → Fits s.heap s.fd) :
    Sound (fdCloseEntry env s).1 (fdCloseEntry env s).2 := by
  unfold fdCloseEntry
  split
  · rename_i hused
    exact sound_nil fun hu => by rw [hused] at hu; cases hu
  · rename_i hused
    exact ⟨ok_fdFlush ((h (by simpa using hused)).congr rfl rfl rfl rfl), fun _ => fits_none rfl rfl⟩

theorem ok_dup2Close (h : s.fd.flags.used = true → Fits s.heap s.fd) : ∀ x ∈ (dup2Close env s).2, x.Ok := by
  unfold dup2Close
  split
  · rename_i hused
    exact ok_fdFlush ((h hused).congr rfl rfl rfl rfl)
  · intro x hx
    cases hx

/-- The child's buffer is as large as the parent's. -/
theorem sound_cloneBuf (h : s.fd.flags.used = true → Fits s.heap s.fd) : Sound (cloneBuf env s).1
    (cloneBuf env s).2 := by
  unfold cloneBuf
  split
  · rename_i b hb
    split
    · rename_i hused
      have hfits := h hused
      generalize hcap : (if s.fd.wbufCap = 0 then 1 else s.fd.wbufCap) = cap
      have hsmall := hfits.small
      have hle : s.fd.wbufCap ≤ given cap := by
        rw [← hcap]
        split
        · rw [given_eq (by decide)]
          omega
        · rw [given_eq hsmall]
      dsimp only
      split
      · rename_i a heap hk
        obtain ⟨hfree, junk, rfl⟩ := kmalloc_some hk
        refine ⟨fun x hx => ?_, fun _ => ?_⟩
        · rcases List.mem_cons.mp hx with rfl | hx
          · exact (hfits.capOf hb).2
          · rw [List.mem_singleton.mp hx]
            exact hle
        · refine ⟨fun c hc => ?_, (fun hn => by cases hn), hsmall⟩
          obtain rfl := Option.some.inj hc
          obtain ⟨-, -, -, hsize⟩ := hfits.block b hb
          rw [store_new]
          exact ⟨_, update_self _ _ _, hle, hsize⟩
      · exact sound_nil fun _ => fits_none rfl rfl
    · rename_i hused
      exact sound_nil fun hu => absurd hu hused
  · exact sound_nil h

variable {S : Sys} {k i : ℕ}

/-- Each buffer has one holder and fits it. -/
structure AllFit (S : Sys) : Prop where
  held : Held S
  fits : ∀ k i, (S.table k i).flags.used = true → Fits S.heap (S.table k i)

/-- One call on one entry: what was touched, and the buffers afterwards. -/
theorem AllFit.back (h : AllFit S) {f : FileSt} (ht : Touch (S.table k i).buffer S.heap f)
    (hf : f.fd.flags.used = true → Fits f.heap f.fd) : AllFit (S.back k i f) := by
  refine ⟨h.held.back ht, fun k' i' hused => ?_⟩
  have htable : (S.back k i f).table k' i' = if k' = k ∧ i' = i then f.fd else S.table k' i' :=
    table_setEntry S k i f.fd k' i'
  rw [htable] at hused ⊢
  split
  · rename_i hki
    rw [if_pos hki] at hused
    exact hf hused
  · rename_i hki
    rw [if_neg hki] at hused
    have hfits := h.fits k' i' hused
    refine ⟨fun a ha => ?_, hfits.none, hfits.small⟩
    obtain ⟨b, hb, hcap, hsize⟩ := hfits.block a ha
    refine ⟨b, ht.others a b (fun hown => ?_) hb, hcap, hsize⟩
    have hother : (S.table k' i').buffer = some a := by rw [Fd.buffer_used hused, ha]
    have := Sole.one h.held (k', i') (k, i) a hother hown
    exact hki ⟨congrArg Prod.fst this, congrArg Prod.snd this⟩

/-- Entries are only replaced by ones without a buffer. -/
theorem AllFit.mono (h : AllFit S) {S' : Sys} (hheld : Held S') (hheap : S'.heap = S.heap)
    (htable : ∀ k i, (S'.table k i).flags.used = true → S'.table k i = S.table k i ∨
      (S'.table k i).wbuf = none ∧ (S'.table k i).wbufCap = 0) : AllFit S' := by
  refine ⟨hheld, fun k i hused => ?_⟩
  rw [hheap]
  rcases htable k i hused with heq | ⟨hb, hcap⟩
  · rw [heq] at hused ⊢
    exact h.fits k i hused
  · exact fits_none hb hcap

theorem AllFit.setEntry (h : AllFit S) {e : Fd} (hb : e.wbuf = none) (hcap : e.wbufCap = 0) :
    AllFit (S.setEntry k i e) := by
  refine h.mono (h.held.setEntry (buffer_none hb)) rfl fun k' i' _ => ?_
  rw [table_setEntry]
  split
  · exact Or.inr ⟨hb, hcap⟩
  · exact Or.inl rfl

theorem AllFit.setTable (h : AllFit S) {tab : ℕ → Fd} (hb : ∀ i, (tab i).wbuf = none)
    (hcap : ∀ i, (tab i).wbufCap = 0) :
    AllFit (S.setTable k tab) := by
  refine h.mono (h.held.setTable fun i => buffer_none (hb i)) rfl fun k' i' _ => ?_
  unfold Sys.setTable Sys.table
  dsimp only
  by_cases hk : k' = k
  · rw [hk, update_self]
    exact Or.inr ⟨hb i', hcap i'⟩
  · rw [update_of_ne hk]
    exact Or.inl rfl

theorem AllFit.dropTable (h : AllFit S) (k tasks : ℕ) (isUser : ℕ → Bool) :
    AllFit { S with tables := update S.tables k none, tasks := tasks, isUser := isUser } := by
  refine h.mono (h.held.dropTable k tasks isUser) rfl fun k' i' _ => ?_
  unfold Sys.table
  dsimp only
  by_cases hk : k' = k
  · rw [hk, update_self]
    exact Or.inr ⟨rfl, rfl⟩
  · rw [update_of_ne hk]
    exact Or.inl rfl

theorem AllFit.curFdt (h : AllFit S) (t : ℕ) (ok : Bool) : AllFit (curFdt t ok S).2 := by
  unfold Files.curFdt
  repeat' split
  all_goals first | exact h | skip
  refine h.setTable (fun i => ?_) fun i => ?_ <;> unfold fdtNew <;> split <;> rfl

/-- What the accesses and the state after a call must be. -/
def Good (out : Sys × List Access) : Prop := AllFit out.1 ∧ ∀ x ∈ out.2, x.Ok

theorem good_nil (h : AllFit S) : Good (S, []) := ⟨h, fun x hx => by cases hx⟩

theorem AllFit.onFile (h : AllFit S) {fd : ℤ} {f : FileSt → Out}
    (hf : fdValid (entries (S.table k)) fd → let s := S.view k fd.toNat
      Live s → Fits s.heap s.fd → Touch s.fd.buffer s.heap (f s).st ∧ Sound (f s).st (f s).used) :
      Good (onFile k fd f S) := by
  unfold Files.onFile
  split
  · rename_i hfd
    obtain ⟨ht, hs⟩ := hf hfd (h.held.live k fd.toNat) (h.fits k fd.toNat hfd.2.2)
    exact ⟨h.back ht hs.fits, hs.ok⟩
  · exact good_nil h

theorem Good.foldl {f : Sys × List Access → ℕ → Sys × List Access} (hf : ∀ s i, Good s → Good (f s i)) (l : List ℕ)
    (s : Sys × List Access) (h : Good s) : Good (l.foldl f s) := by
  induction l generalizing s with
  | nil => exact h
  | cons i l ih => exact ih _ (hf s i h)

theorem Good.closeAt {s : Sys × List Access} (h : Good s) (k : ℕ) (envs : ℕ → Env) (i : ℕ) :
    Good (closeAt k envs s i) := by
  have hs := @sound_fdCloseEntry (envs i) (s.1.view k i) (h.1.fits k i)
  exact ⟨h.1.back (touch_fdCloseEntry (h.1.held.live k i)) hs.fits, ok_append h.2 hs.ok⟩

theorem Good.cloneAt {s : Sys × List Access} (h : Good s) (parent child : ℕ) (envs : ℕ → Env) (i : ℕ) :
    Good (cloneAt parent child envs s i) := by
  have hs := @sound_cloneBuf (envs i) (s.1.view parent i) (h.1.fits parent i)
  exact ⟨h.1.back ((touch_cloneBuf (envs i) (s.1.view parent i)).of_none _) hs.fits, ok_append h.2 hs.ok⟩

theorem AllFit.linuxFdtClone (h : AllFit S) (parent : ℕ) (tableOk : Bool) (envs : ℕ → Env) :
    Good (linuxFdtClone parent tableOk envs S) := by
  have hnew := h.dropTable S.tasks (S.tasks + 1) (update S.isUser S.tasks true)
  unfold Files.linuxFdtClone
  dsimp only
  split
  · exact good_nil hnew
  split
  · exact Good.foldl (fun s i hs => hs.cloneAt parent S.tasks envs i) _ _
      (good_nil (hnew.setTable (fun _ => rfl) fun _ => rfl))
  · exact good_nil hnew

theorem AllFit.linuxFdtRelease (h : AllFit S) (t : ℕ) (envs : ℕ → Env) : Good (linuxFdtRelease t envs S) := by
  unfold Files.linuxFdtRelease
  split
  · exact good_nil h
  · have hclosed := Good.foldl (fun s i hs => hs.closeAt t envs i) (List.range FD_MAX) (S, []) (good_nil h)
    exact ⟨hclosed.1.dropTable t _ _, hclosed.2⟩

theorem AllFit.fdtCloseOnExec (h : AllFit S) (k : ℕ) (envs : ℕ → Env) : Good (fdtCloseOnExec k envs S) := by
  refine Good.foldl (fun s i hs => ?_) _ (S, []) (good_nil h)
  split
  · exact hs.closeAt k envs i
  · exact hs

theorem AllFit.openFile (h : AllFit S) (k : ℕ) (env : OpenEnv) (flags : ℕ) : Good (openFile k env flags S, []) := by
  have hheld := h.held.openFile k env flags
  revert hheld
  unfold Files.openFile
  dsimp only
  split
  · rename_i e files i hopen _
    have he := sysOpen_entry hopen
    intro hheld
    exact good_nil ((h.setEntry (k := k) (i := i) he.1 he.2).mono hheld rfl fun _ _ _ => Or.inl rfl)
  · exact fun hheld => good_nil (h.mono hheld rfl fun _ _ _ => Or.inl rfl)

theorem AllFit.setCopy (h : AllFit S) {j : ℕ} (hused : (S.table k j).flags.used = true) (hb : (S.table k j).wbuf = none)
    {k' : ℕ} (cloexec : Bool) : AllFit (S.setEntry k' i ((S.table k j).copy cloexec)) :=
  h.setEntry hb ((h.fits k j hused).none hb)

theorem AllFit.sysDup (h : AllFit S) {oldfd : ℤ} (hop : fdValid (entries (S.table k)) oldfd →
    (fdAlloc (entries (S.table k))).isSome → (S.table k oldfd.toNat).wbuf = none) : Good (sysDup k oldfd S, []) := by
  unfold Files.sysDup
  split
  · rename_i hold
    split
    · exact good_nil h
    · rename_i nfd hnfd
      exact good_nil (h.setCopy hold.2.2 (hop hold (by rw [hnfd]; rfl)) false)
  · exact good_nil h

theorem AllFit.sysDup2 (h : AllFit S) (env : Env) {oldfd newfd : ℤ} (cloexec : Bool)
    (hop : fdValid (entries (S.table k)) oldfd → ¬ (newfd < 0 ∨ (FD_MAX : ℤ) ≤ newfd ∨ newfd = oldfd) →
      (S.table k oldfd.toNat).wbuf = none) : Good (sysDup2 k env oldfd newfd cloexec S) := by
  unfold Files.sysDup2
  split
  · rename_i hold
    split
    · exact good_nil h
    · rename_i hnew
      have hclosed : AllFit (S.back k newfd.toNat (dup2Close env (S.view k newfd.toNat)).1) := by
        refine h.back (touch_dup2Close (h.held.live k newfd.toNat)) fun hused => ?_
        unfold dup2Close at hused ⊢
        split
        · rename_i hused'
          rw [if_pos hused'] at hused
          cases hused
        · rename_i hused'
          rw [if_neg hused'] at hused
          exact absurd hused hused'
      have hne : oldfd.toNat ≠ newfd.toNat := by
        have := hold.1
        omega
      have hentry : (S.back k newfd.toNat (dup2Close env (S.view k newfd.toNat)).1).table k
          oldfd.toNat = S.table k oldfd.toNat :=
        (table_setEntry S k newfd.toNat _ k oldfd.toNat).trans (if_neg fun heq => hne heq.2)
      refine ⟨hclosed.setCopy (j := oldfd.toNat) ?_ ?_ cloexec, ok_dup2Close (h.fits k newfd.toNat)⟩
      · rw [hentry]
        exact hold.2.2
      · rw [hentry]
        exact hop hold hnew
  · exact good_nil h

theorem AllFit.sysFcntl (h : AllFit S) {fd : ℤ} {cmd arg : ℕ}
    (hop : fdValid (entries (S.table k)) fd → cmd = 0 ∨ cmd = 1030 → arg < FD_MAX →
      ((List.range' arg (FD_MAX - arg)).find? fun i => !(S.table k i).flags.used).isSome →
        (S.table k fd.toNat).wbuf = none) : Good (sysFcntl k fd cmd arg S, []) := by
  unfold Files.sysFcntl
  split
  · rename_i hfd
    dsimp only
    split
    · rename_i hcmd
      split
      · exact good_nil h
      · rename_i harg
        split
        · exact good_nil h
        · rename_i nfd hnfd
          exact good_nil (h.setCopy hfd.2.2 (hop hfd hcmd (by omega) (by rw [hnfd]; rfl)) _)
    · split
      · -- `F_SETFD`: the entry keeps its buffer
        exact good_nil (h.back (f := { S.view k fd.toNat with fd := (S.table k fd.toNat).copy (arg % 2 = 1) })
          (Touch.same (h.held.live k fd.toNat) rfl fun _ ha => ha)
            fun _ => (h.fits k fd.toNat hfd.2.2).congr rfl rfl rfl rfl)
      · exact good_nil h
  · exact good_nil h

/-- A call on an open descriptor finds it so that the sizes still fit afterwards. -/
def onEntry (t : ℕ) (ok : Bool) (fd : ℤ) (P : FileSt → Prop) (s : Sys) : Prop :=
  fdValid (entries (callTable t ok s)) fd → P ((curFdt t ok s).2.view (curFdt t ok s).1 fd.toNat)

/-- The call stays inside the buffers: a read does not wrap, what is written and the file fit the
buffer, and a file with a buffer is not made longer than the buffer by `ftruncate`. -/
def Op.InBounds : Op → Sys → Prop
  | .read t ok env fd count, s => onEntry t ok fd (fun f => ReadOk env count f.fd) s
  | .write t ok env fd data, s => onEntry t ok fd (fun f => data ≠ [] → f.fd.flags.tty = false →
      f.fd.isPipeOrSock = false → WriteOk env (data.length % 2 ^ 32) f) s
  | .pread t ok env fd count off, s => onEntry t ok fd (fun f => 0 ≤ off →
      ReadOk env count { f.fd with offset := off.toNat % 2 ^ 32 }) s
  | .pwrite t ok env fd data off, s => onEntry t ok fd (fun f => data ≠ [] → f.fd.flags.tty = false → 0 ≤ off →
      WriteOk env (data.length % 2 ^ 32) { f with fd := { f.fd with offset := off.toNat % 2 ^ 32 } }) s
  | .ftruncate t ok env fd length, s => onEntry t ok fd (fun f => TruncOk env length f.fd) s
  | _, _ => True

/-- One call stays inside and keeps the sizes. -/
theorem AllFit.step (h : AllFit S) (op : Op) (hshare : op.NoShare S) (hin : op.InBounds S) : Good (op.run S) := by
  cases op with
  | openFile t ok env flags => exact (h.curFdt t ok).openFile _ env flags
  | read t ok env fd count =>
    refine (h.curFdt t ok).onFile fun hfd => fun hlive hfits => ?_
    unfold fdAny
    split
    · exact ⟨Touch.same hlive rfl fun _ h => h, sound_nil fun _ => hfits⟩
    · exact ⟨touch_sysRead hlive count, sound_sysRead hfits (hin hfd)⟩
  | write t ok env fd data =>
    refine (h.curFdt t ok).onFile fun hfd => fun hlive hfits => ?_
    unfold fdAny
    split
    · exact ⟨Touch.same hlive rfl fun _ h => h, sound_nil fun _ => hfits⟩
    · rename_i hpipe
      exact ⟨touch_sysWrite hlive hfd.2.2 data,
        sound_sysWrite hfits hlive hfd.2.2 fun hdata htty => hin hfd hdata htty (by simpa using hpipe)⟩
  | pread t ok env fd count off =>
    exact (h.curFdt t ok).onFile fun hfd => fun hlive hfits =>
      ⟨touch_pread hlive off count, sound_pread hfits (hin hfd)⟩
  | pwrite t ok env fd data off =>
    exact (h.curFdt t ok).onFile fun hfd => fun hlive hfits =>
      ⟨touch_pwrite hlive hfd.2.2 off data, sound_pwrite hfits hlive hfd.2.2 (hin hfd)⟩
  | lseek t ok fd offset whence =>
    exact (h.curFdt t ok).onFile fun _ => fun hlive hfits =>
      ⟨touch_sysLseek hlive offset whence, sound_sysLseek hfits offset whence⟩
  | ftruncate t ok env fd length =>
    exact (h.curFdt t ok).onFile fun hfd => fun hlive hfits =>
      ⟨touch_sysFtruncate hlive length, sound_sysFtruncate hfits (hin hfd)⟩
  | fsync t ok env fd =>
    exact (h.curFdt t ok).onFile fun _ => fun hlive hfits => ⟨touch_sysFsync hlive, sound_sysFsync hfits⟩
  | dup t ok oldfd => exact (h.curFdt t ok).sysDup hshare
  | dup2 t ok env oldfd newfd cloexec => exact (h.curFdt t ok).sysDup2 env cloexec hshare
  | fcntl t ok fd cmd arg => exact (h.curFdt t ok).sysFcntl hshare
  | close t ok env fd =>
    exact (h.curFdt t ok).onFile fun _ => fun hlive hfits =>
      ⟨touch_fdCloseEntry hlive, sound_fdCloseEntry fun _ => hfits⟩
  | fork t tableOk envs =>
    unfold Op.run
    dsimp only
    split
    · exact h.linuxFdtClone t tableOk envs
    · exact good_nil h
  | exec t ok envs =>
    unfold Op.run onTable
    exact (h.curFdt t ok).fdtCloseOnExec _ envs
  | exit t envs =>
    unfold Op.run
    dsimp only
    split
    · exact h.linuxFdtRelease t envs
    · exact good_nil h
  | spawn user => exact good_nil (h.dropTable _ _ _)

theorem allFit_boot (files : Path → Option (List UInt8)) : AllFit (boot files) := by
  refine ⟨held_boot files, fun k i _ => ?_⟩
  unfold boot Sys.table
  dsimp only
  by_cases hk : k = 0
  · rw [hk, update_self, Option.getD_some]
    unfold fdtNew
    split <;> exact fits_none rfl rfl
  · rw [update_of_ne hk]
    exact fits_none rfl rfl

/-- In a run whose calls all share no buffer and stay in bounds, every access to a buffer is inside
it. -/
theorem buffers_in_bounds {used : List Access} (h : Run (fun op s => op.NoShare s ∧ op.InBounds s) S used) :
    ∀ x ∈ used, x.Ok := by
  have hgood : Good (S, used) := by
    induction h with
    | boot files => exact good_nil (allFit_boot files)
    | step _ op hop ih =>
      have hstep := ih.1.step op hop.1 hop.2
      exact ⟨hstep.1, ok_append ih.2 hstep.2⟩
  exact hgood.2

theorem newFile_in_bounds : (((twoBytes 0).run ((newFile 0).run (boot fun _ => none)).1).2 =
    [⟨2, 4096⟩]) ∧ ∀ x ∈ [] ++ ((newFile 0).run (boot fun _ => none)).2 ++
    ((twoBytes 0).run ((newFile 0).run (boot fun _ => none)).1).2, x.Ok := by
  refine ⟨by decide +kernel, buffers_in_bounds (.step
    (.step (.boot _) (newFile 0) ⟨trivial, trivial⟩) (twoBytes 0) ⟨trivial, ?_⟩)⟩
  intro _ _ _ _ _
  decide +kernel

/-- A file of 5000 bytes. -/
def largeFiles (path : Path) : Option (List UInt8) := if path = [47, 97] then some (List.replicate 5000 0) else none

def openLarge : Op :=
  .openFile 0 true { path := some [47, 97], list := fun dir => if dir = [47] then some [⟨[97],
  5000⟩] else none } 2

/-- Two bytes written at the start of the file make a buffer of 4096 bytes, into which all of the
file is read. -/
theorem large_file_overruns : ¬ ∀ S used, Run (fun _ _ => True) S used → ∀ x ∈ used, x.Ok := by
  intro h
  have hall := h _ _ (.step (.step (.boot largeFiles) openLarge trivial) (twoBytes 0) trivial)
  have hused : ((twoBytes 0).run (openLarge.run (boot largeFiles)).1).2 = [⟨5000, 4096⟩, ⟨2, 4096⟩] := by decide +kernel
  have hmem : (⟨5000, 4096⟩ : Access) ∈ ((twoBytes 0).run (openLarge.run (boot largeFiles)).1).2 := by
    rw [hused]
    exact List.mem_cons_self
  have hok := hall _ (List.mem_append_right _ hmem)
  exact absurd hok (by decide)

end ComputerOS.Linux.Files
