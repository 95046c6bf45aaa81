import ComputerOS.Linux.Runs

/-!
The table of sockets. A descriptor of a socket holds its index where one of a file holds the
position, and the entry says only whether it is used: copies are not counted, and closing any of
them gives the socket back. As long as a descriptor is closed or overwritten only when it is not
one of several, a socket is in use exactly when some descriptor refers to it.
-/
namespace ComputerOS.Linux

open Function

def SOCK_MAX : ℕ := 8

def ENOENT : ℤ := -2

def EAFNOSUPPORT : ℤ := -97

def AF_UNIX : ℤ := 1

def AF_INET6 : ℤ := 10

/-- `socks i` is `sock_table[i].used`. -/
structure SockSt where
  st : St
  socks : ℕ → Bool

def dropSock (socks : ℕ → Bool) (e : FdEntry) : ℕ → Bool :=
  if e.flags.used ∧ e.flags.pipeR = false ∧ e.flags.pipeW = false ∧ e.flags.sock ∧ e.offset < SOCK_MAX then
    update socks e.offset false
  else socks

def sockAlloc (socks : ℕ → Bool) : Option ℕ := (List.range SOCK_MAX).find? fun i => !socks i

def sysSocket (k : ℕ) (domain : ℤ) (s : SockSt) : ℤ × SockSt :=
  if domain = AF_UNIX then (ENOENT, s)
  else if domain = AF_INET6 then (EAFNOSUPPORT, s)
  else
    match sockAlloc s.socks with
    | none => (ENOMEM, s)
    | some si =>
      match fdAlloc (s.st.table k) with
      | none => (EMFILE, s)
      | some fd =>
        (fd, ⟨s.st.setEntry k fd { s.st.table k fd with
            flags := { used := true, sock := true }, offset := si, size := 0 },
          update s.socks si true⟩)

namespace SockSt

/-- A call that leaves the sockets alone. -/
def files (f : St → St) (s : SockSt) : SockSt := { s with st := f s.st }

def sysClose (k : ℕ) (fd : ℤ) (s : SockSt) : SockSt :=
  ⟨(Linux.sysClose k fd s.st).2,
    if fdValid (s.st.table k) fd then dropSock s.socks (s.st.table k fd.toNat) else s.socks⟩

def linuxFdtRelease (t : ℕ) (s : SockSt) : SockSt :=
  ⟨Linux.linuxFdtRelease t s.st,
    match s.st.tables t with
    | none => s.socks
    | some tab => (List.range FD_MAX).foldl (fun socks i => dropSock socks (tab i)) s.socks⟩

def onTable (t : ℕ) (ok : Bool) (f : ℕ → SockSt → SockSt) (s : SockSt) : SockSt :=
  f (curFdt t ok s.st).1 ⟨(curFdt t ok s.st).2, s.socks⟩

end SockSt

/-- What a task can ask for. -/
inductive SockOp
  | socket (t : ℕ) (ok : Bool) (domain : ℤ)
  | dup (t : ℕ) (ok : Bool) (oldfd : ℤ)
  | dup2 (t : ℕ) (ok : Bool) (oldfd newfd : ℤ)
  | fcntl (t : ℕ) (ok : Bool) (fd : ℤ) (cmd arg : ℕ)
  | lseek (t : ℕ) (ok : Bool) (fd offset whence : ℤ)
  | close (t : ℕ) (ok : Bool) (fd : ℤ)
  | fork (t : ℕ) (tableOk : Bool) (bufOk : ℕ → Bool)
  | exit (t : ℕ)
  | spawn (user : Bool)

def SockOp.run : SockOp → SockSt → SockSt
  | .socket t ok domain => SockSt.onTable t ok fun k s => (sysSocket k domain s).2
  | .dup t ok oldfd => SockSt.files (Op.dup t ok oldfd).run
  | .dup2 t ok oldfd newfd => SockSt.files (Op.dup2 t ok oldfd newfd).run
  | .fcntl t ok fd cmd arg => SockSt.files (Op.fcntl t ok fd cmd arg).run
  | .lseek t ok fd offset whence => SockSt.files (Op.lseek t ok fd offset whence).run
  | .close t ok fd => SockSt.onTable t ok fun k s => s.sysClose k fd
  | .fork t tableOk bufOk => SockSt.files (Op.fork t tableOk bufOk).run
  | .exit t => fun s => if s.st.isUser t then s.linuxFdtRelease t else s
  | .spawn user => SockSt.files (Op.spawn user).run

def isSock (p : ℕ) (e : FdEntry) : Bool := e.flags.used && e.flags.sock && e.offset == p

def RefersAt (s : St) (p k i : ℕ) : Prop := i < FD_MAX ∧ s.tables k ≠ none ∧ isSock p (s.table k i) = true

def Held (s : St) (p : ℕ) : Prop := ∃ k i, RefersAt s p k i

def HeldElsewhere (s : St) (p k i : ℕ) : Prop := ∃ k' i', RefersAt s p k' i' ∧ (k' ≠ k ∨ i' ≠ i)

variable {s s' : St} {p t k i : ℕ} {e : FdEntry}

theorem isSock_unused (h : e.flags.used = false) (p : ℕ) : isSock p e = false := by
  simp [isSock, h]

theorem isSock_copy (e : FdEntry) (c : Bool) (p : ℕ) : isSock p (e.copy c) = isSock p e := rfl

theorem isSock_iff : isSock p e = true ↔ e.flags.used = true ∧ e.flags.sock = true ∧ e.offset = p := by
  simp [isSock, and_assoc]

theorem table_setEntry_of_ne {k' i' : ℕ} (h : k' ≠ k ∨ i' ≠ i) (e : FdEntry) :
    (s.setEntry k i e).table k' i' = s.table k' i' := by
  by_cases hk : k' = k
  · subst hk
    rw [table_setEntry, update_of_ne (h.resolve_left (fun hne => hne rfl))]
  · unfold St.setEntry St.setTable St.table
    dsimp only
    rw [update_of_ne hk]

theorem tables_setEntry_iff {k' : ℕ} (htab : s.tables k ≠ none) (e : FdEntry) :
    (s.setEntry k i e).tables k' ≠ none ↔ s.tables k' ≠ none := by
  refine ⟨fun h => ?_, tables_setEntry_ne_none e⟩
  by_cases hk : k' = k
  · rwa [hk]
  · unfold St.setEntry St.setTable at h
    dsimp only at h
    rwa [update_of_ne hk] at h

theorem refersAt_setEntry {k' i' : ℕ} (h : k' ≠ k ∨ i' ≠ i) (htab : s.tables k ≠ none) (e : FdEntry) :
    RefersAt (s.setEntry k i e) p k' i' ↔ RefersAt s p k' i' := by
  unfold RefersAt
  rw [table_setEntry_of_ne h, tables_setEntry_iff htab]

theorem held_setEntry (htab : s.tables k ≠ none) (hi : i < FD_MAX) (e : FdEntry) (p : ℕ) :
    Held (s.setEntry k i e) p ↔ isSock p e = true ∨ HeldElsewhere s p k i := by
  constructor
  · rintro ⟨k', i', hr⟩
    by_cases hsame : k' ≠ k ∨ i' ≠ i
    · exact Or.inr ⟨k', i', (refersAt_setEntry hsame htab e).mp hr, hsame⟩
    · rw [not_or, not_not, not_not] at hsame
      obtain ⟨rfl, rfl⟩ := hsame
      have := hr.2.2
      rw [table_setEntry, update_self] at this
      exact Or.inl this
  · rintro (he | ⟨k', i', hr, hne⟩)
    · exact ⟨k, i, hi, (tables_setEntry_iff htab e).mpr htab, by rw [table_setEntry, update_self]; exact he⟩
    · exact ⟨k', i', (refersAt_setEntry hne htab e).mpr hr⟩

theorem held_iff (htab : s.tables k ≠ none) (hi : i < FD_MAX) (p : ℕ) :
    Held s p ↔ isSock p (s.table k i) = true ∨ HeldElsewhere s p k i := by
  constructor
  · rintro ⟨k', i', hr⟩
    by_cases hsame : k' ≠ k ∨ i' ≠ i
    · exact Or.inr ⟨k', i', hr, hsame⟩
    · rw [not_or, not_not, not_not] at hsame
      obtain ⟨rfl, rfl⟩ := hsame
      exact Or.inl hr.2.2
  · rintro (he | ⟨k', i', hr, -⟩)
    · exact ⟨k, i, hi, htab, he⟩
    · exact ⟨k', i', hr⟩

/-- Only the tables matter. -/
theorem held_congr (h : s'.tables = s.tables) (p : ℕ) : Held s' p ↔ Held s p := by
  unfold Held RefersAt St.table
  rw [h]

/-- What the tables look like, whatever the sockets are. -/
structure Tables (s : St) : Prop where
  flags : ∀ k, s.tables k ≠ none → ∀ i, (s.table k i).flags.sock = true →
    (s.table k i).flags.pipeR = false ∧ (s.table k i).flags.pipeW = false
  boot : s.tables 0 ≠ none ∧ s.isUser 0 = false
  bound : ∀ k, s.tables k ≠ none → k < s.tasks
  users : ∀ k, s.isUser k = true → k < s.tasks

/-- A socket is in use exactly when a descriptor refers to it. -/
structure SocketsLive (s : SockSt) : Prop where
  tables : Tables s.st
  live : ∀ p < SOCK_MAX, s.socks p = true ↔ Held s.st p

theorem Tables.setEntry (h : Tables s) (htab : s.tables k ≠ none)
    (he : e.flags.sock = true → e.flags.pipeR = false ∧ e.flags.pipeW = false) : Tables (s.setEntry k i e) := by
  refine ⟨fun k' hk' i' => ?_, ⟨tables_setEntry_ne_none e h.boot.1, h.boot.2⟩, fun k' hk' => ?_, h.users⟩
  · rw [tables_setEntry_iff htab] at hk'
    by_cases hsame : k' ≠ k ∨ i' ≠ i
    · rw [table_setEntry_of_ne hsame]
      exact h.flags k' hk' i'
    · rw [not_or, not_not, not_not] at hsame
      obtain ⟨rfl, rfl⟩ := hsame
      rw [table_setEntry, update_self]
      exact he
  · rw [tables_setEntry_iff htab] at hk'
    exact h.bound k' hk'

theorem Tables.congr (h : Tables s) (htables : s'.tables = s.tables) (htasks : s'.tasks = s.tasks)
    (huser : s'.isUser = s.isUser) : Tables s' := by
  refine ⟨?_, by rw [htables, huser]; exact h.boot, by rw [htables, htasks]; exact h.bound, by rw [huser, htasks]; exact h.users⟩
  unfold St.table
  rw [htables]
  exact h.flags

theorem held_newTable {tab : FdTable} (hnone : s.tables k = none) (hnew : ∀ i, (tab i).flags.sock = false) (p : ℕ) :
    Held (s.setTable k tab) p ↔ Held s p := by
  have hself : (s.setTable k tab).tables k = some tab := update_self _ _ _
  have hother : ∀ j, j ≠ k → (s.setTable k tab).tables j = s.tables j := fun j hj => update_of_ne hj _ _
  constructor
  · rintro ⟨k', i', hi', htab', hsock⟩
    by_cases hk : k' = k
    · rw [hk] at hsock
      unfold St.table at hsock
      rw [hself] at hsock
      have := (isSock_iff.mp hsock).2.1
      rw [Option.getD_some, hnew] at this
      cases this
    · unfold St.table at hsock
      rw [hother k' hk] at hsock htab'
      exact ⟨k', i', hi', htab', hsock⟩
  · rintro ⟨k', i', hi', htab', hsock⟩
    have hk : k' ≠ k := by
      rintro rfl
      exact htab' hnone
    refine ⟨k', i', hi', by rwa [hother k' hk], ?_⟩
    unfold St.table
    rwa [hother k' hk]

theorem Tables.newTable {tab : FdTable} (h : Tables s) (hk : k < s.tasks) (hnew : ∀ i, (tab i).flags.sock = false) :
    Tables (s.setTable k tab) := by
  have hself : (s.setTable k tab).tables k = some tab := update_self _ _ _
  have hother : ∀ j, j ≠ k → (s.setTable k tab).tables j = s.tables j := fun j hj => update_of_ne hj _ _
  refine ⟨fun j hj i hsock => ?_, ⟨?_, h.boot.2⟩, fun j hj => ?_, h.users⟩
  · by_cases hjk : j = k
    · rw [hjk] at hsock
      unfold St.table at hsock
      rw [hself, Option.getD_some, hnew] at hsock
      cases hsock
    · rw [hother j hjk] at hj
      unfold St.table at hsock ⊢
      rw [hother j hjk] at hsock ⊢
      exact h.flags j hj i hsock
  · by_cases h0 : 0 = k
    · rw [h0, hself]
      exact Option.some_ne_none _
    · rw [hother 0 h0]
      exact h.boot.1
  · by_cases hjk : j = k
    · rwa [hjk]
    · rw [hother j hjk] at hj
      exact h.bound j hj

theorem fdtNew_sock (i : ℕ) : (fdtNew i).flags.sock = false := by
  unfold fdtNew
  split <;> rfl

/-- The table that a call works on. -/
theorem SocketsLive.curFdt {s : SockSt} (h : SocketsLive s) (t : ℕ) (ok : Bool) :
    SocketsLive ⟨(curFdt t ok s.st).2, s.socks⟩ ∧ (curFdt t ok s.st).2.tables (curFdt t ok s.st).1 ≠ none := by
  unfold Linux.curFdt
  by_cases huser : s.st.isUser t = true
  · rw [if_pos huser]
    cases htab : s.st.tables t with
    | some tab => exact ⟨h, by rw [htab]; exact Option.some_ne_none _⟩
    | none =>
      dsimp only
      by_cases hok : ok = true
      · rw [if_pos hok]
        refine ⟨⟨h.tables.newTable (h.tables.users t huser) fdtNew_sock, fun p hp => ?_⟩, ?_⟩
        · rw [held_newTable htab fdtNew_sock]
          exact h.live p hp
        · unfold St.setTable
          dsimp only
          rw [update_self]
          exact Option.some_ne_none _
      · rw [if_neg hok]
        exact ⟨h, h.tables.boot.1⟩
  · rw [if_neg huser]
    exact ⟨h, h.tables.boot.1⟩

theorem SocketsLive.setEntry {s : SockSt} (h : SocketsLive s) (htab : s.st.tables k ≠ none) (hi : i < FD_MAX)
    (he : e.flags.sock = true → e.flags.pipeR = false ∧ e.flags.pipeW = false)
    (hrefers : ∀ p, isSock p e = true ∨ HeldElsewhere s.st p k i ↔ Held s.st p) :
    SocketsLive ⟨s.st.setEntry k i e, s.socks⟩ := by
  refine ⟨h.tables.setEntry htab he, fun p hp => ?_⟩
  rw [held_setEntry htab hi, hrefers]
  exact h.live p hp

theorem SocketsLive.congr {s : SockSt} {st : St} (h : SocketsLive s) (htables : st.tables = s.st.tables)
    (htasks : st.tasks = s.st.tasks) (huser : st.isUser = s.st.isUser) : SocketsLive ⟨st, s.socks⟩ :=
  ⟨h.tables.congr htables htasks huser, fun p hp => by rw [held_congr htables]; exact h.live p hp⟩

/-- A free entry becomes a copy of another one. -/
theorem SocketsLive.copy {s : SockSt} {j : ℕ} (h : SocketsLive s) (htab : s.st.tables k ≠ none) (hi : i < FD_MAX)
    (hj : j < FD_MAX) (hfree : (s.st.table k i).flags.used = false) (c : Bool) :
    SocketsLive ⟨s.st.setEntry k i ((s.st.table k j).copy c), s.socks⟩ := by
  refine h.setEntry htab hi (h.tables.flags k htab j) fun p => ?_
  rw [held_iff htab hi, isSock_unused hfree, isSock_copy]
  constructor
  · rintro (hsock | hother)
    · have hji : j ≠ i := by
        rintro rfl
        rw [isSock_unused hfree] at hsock
        cases hsock
      exact Or.inr ⟨k, j, ⟨hj, htab, hsock⟩, Or.inr hji⟩
    · exact Or.inr hother
  · rintro (hfalse | hother)
    · cases hfalse
    · exact Or.inr hother

theorem SocketsLive.sysDup {s : SockSt} (h : SocketsLive s) (htab : s.st.tables k ≠ none) (oldfd : ℤ) :
    SocketsLive ⟨(sysDup k oldfd s.st).2, s.socks⟩ := by
  unfold Linux.sysDup
  by_cases hvalid : fdValid (s.st.table k) oldfd
  · rw [if_pos hvalid]
    cases hfd : fdAlloc (s.st.table k) with
    | none => exact h
    | some nfd =>
      obtain ⟨hlt, hfree⟩ := fdAlloc_some hfd
      exact (h.copy htab hlt hvalid.lt hfree false).congr rfl rfl rfl
  · rw [if_neg hvalid]
    exact h

/-- The descriptor that is overwritten is not the last one of a socket. -/
def OverwriteOk (s : St) (k : ℕ) (oldfd newfd : ℤ) : Prop :=
  fdValid (s.table k) oldfd → 0 ≤ newfd → newfd < FD_MAX → newfd ≠ oldfd → ∀ p < SOCK_MAX,
    isSock p (s.table k newfd.toNat) = true → HeldElsewhere s p k newfd.toNat

theorem tables_setEntry_twice (pool pool' : Pool) (a b : FdEntry) :
    (St.setEntry { St.setEntry { s with pool := pool } k i a with pool := pool' } k i b).tables =
      (s.setEntry k i b).tables := by
  refine (tables_setEntry_congr (s := St.setEntry { s with pool := pool } k i a) rfl b).trans ?_
  rw [setEntry_idem]
  exact tables_setEntry_congr rfl b

theorem sysDup2_tables (htab : s.tables k ≠ none) {oldfd newfd : ℤ} (hold : fdValid (s.table k) oldfd)
    (hnew : ¬ (newfd < 0 ∨ (FD_MAX : ℤ) ≤ newfd)) (hne : newfd ≠ oldfd) :
    (sysDup2 k oldfd newfd s).2.tables = (s.setEntry k newfd.toNat ((s.table k oldfd.toNat).copy false)).tables ∧
      (sysDup2 k oldfd newfd s).2.tasks = s.tasks ∧ (sysDup2 k oldfd newfd s).2.isUser = s.isUser := by
  have hnat : oldfd.toNat ≠ newfd.toNat := by
    have := hold.1
    omega
  have hsame : (dup2Close k newfd.toNat s).table k oldfd.toNat = s.table k oldfd.toNat :=
    (dup2Close_spec htab).2.2 _ hnat
  unfold sysDup2
  rw [if_pos hold, if_neg hnew, if_neg hne]
  dsimp only
  rw [hsame]
  unfold dup2Close
  dsimp only
  split
  · exact ⟨tables_setEntry_twice _ _ _ _, rfl, rfl⟩
  · exact ⟨rfl, rfl, rfl⟩

theorem SocketsLive.sysDup2 {s : SockSt} (h : SocketsLive s) (htab : s.st.tables k ≠ none) {oldfd newfd : ℤ}
    (hok : OverwriteOk s.st k oldfd newfd) : SocketsLive ⟨(sysDup2 k oldfd newfd s.st).2, s.socks⟩ := by
  by_cases hvalid : fdValid (s.st.table k) oldfd
  · by_cases hnew : newfd < 0 ∨ (FD_MAX : ℤ) ≤ newfd
    · unfold Linux.sysDup2
      rw [if_pos hvalid, if_pos hnew]
      exact h
    by_cases hne : newfd = oldfd
    · unfold Linux.sysDup2
      rw [if_pos hvalid, if_neg hnew, if_pos hne]
      exact h
    obtain ⟨htables, htasks, huser⟩ := sysDup2_tables htab hvalid hnew hne
    rw [not_or, not_lt, not_le] at hnew
    have hi : newfd.toNat < FD_MAX := by omega
    have hnat : oldfd.toNat ≠ newfd.toNat := by
      have := hvalid.1
      omega
    have hset : Tables (s.st.setEntry k newfd.toNat ((s.st.table k oldfd.toNat).copy false)) :=
      h.tables.setEntry htab (h.tables.flags k htab oldfd.toNat)
    refine ⟨hset.congr htables htasks huser, fun p hp => ?_⟩
    rw [held_congr htables, held_setEntry htab hi, isSock_copy, h.live p hp, held_iff htab hi]
    constructor
    · rintro (hsock | hother)
      · exact Or.inr (hok hvalid hnew.1 hnew.2 hne p hp hsock)
      · exact Or.inr hother
    · rintro (hsock | hother)
      · exact Or.inr ⟨k, oldfd.toNat, ⟨hvalid.lt, htab, hsock⟩, Or.inr hnat⟩
      · exact Or.inr hother
  · unfold Linux.sysDup2
    rw [if_neg hvalid]
    exact h

theorem SocketsLive.sysFcntl {s : SockSt} (h : SocketsLive s) (htab : s.st.tables k ≠ none) (fd : ℤ) (cmd arg : ℕ) :
    SocketsLive ⟨(sysFcntl k fd cmd arg s.st).2, s.socks⟩ := by
  unfold Linux.sysFcntl
  by_cases hvalid : fdValid (s.st.table k) fd
  · rw [if_pos hvalid]
    dsimp only
    by_cases hdup : cmd = 0 ∨ cmd = 1030
    · rw [if_pos hdup]
      by_cases harg : FD_MAX ≤ arg
      · rw [if_pos harg]
        exact h
      rw [if_neg harg]
      cases hfind : (List.range' arg (FD_MAX - arg)).find? fun i => !(s.st.table k i).flags.used with
      | none => exact h
      | some nfd =>
        have hmem := List.mem_range'_1.mp (List.mem_of_find?_eq_some hfind)
        have hfree : (s.st.table k nfd).flags.used = false := by
          have := List.find?_some hfind
          simpa using this
        exact (h.copy htab (by omega) hvalid.lt hfree _).congr rfl rfl rfl
    rw [if_neg hdup]
    by_cases h1 : cmd = 1
    · rw [if_pos h1]
      exact h
    rw [if_neg h1]
    by_cases h2 : cmd = 2
    · rw [if_pos h2]
      refine h.setEntry htab hvalid.lt (h.tables.flags k htab fd.toNat) fun p => ?_
      rw [isSock_copy, ← held_iff htab hvalid.lt]
    rw [if_neg h2]
    repeat' split
    all_goals exact h
  · rw [if_neg hvalid]
    exact h

/-- The index of a socket stays where it is. -/
def SeekOk (tab : FdTable) (fd offset whence : ℤ) : Prop :=
  fdValid tab fd → (tab fd.toNat).flags.sock = true → ∀ pos, seekPos (tab fd.toNat) offset whence =
    some pos → 0 ≤ pos → pos.toNat % 2 ^ 32 = (tab fd.toNat).offset

theorem SocketsLive.sysLseek {s : SockSt} (h : SocketsLive s) (htab : s.st.tables k ≠ none) {fd offset whence : ℤ}
    (hok : SeekOk (s.st.table k) fd offset whence) : SocketsLive ⟨(sysLseek k fd offset whence s.st).2, s.socks⟩ := by
  unfold Linux.sysLseek
  by_cases hvalid : fdValid (s.st.table k) fd
  · rw [if_pos hvalid]
    dsimp only
    cases hpos : seekPos (s.st.table k fd.toNat) offset whence with
    | none => exact h
    | some pos =>
      dsimp only
      by_cases hneg : pos < 0
      · rw [if_pos hneg]
        exact h
      rw [if_neg hneg]
      refine h.setEntry htab hvalid.lt (h.tables.flags k htab fd.toNat) fun p => ?_
      rw [held_iff htab hvalid.lt]
      have hsame : isSock p { s.st.table k fd.toNat with offset := pos.toNat % 2 ^ 32 } = isSock p
        (s.st.table k fd.toNat) := by
        unfold isSock
        dsimp only
        cases hsock : (s.st.table k fd.toNat).flags.sock with
        | false => simp
        | true => rw [hok hvalid hsock pos hpos (not_lt.mp hneg)]
      rw [hsame]
  · rw [if_neg hvalid]
    exact h

/-- Closing an entry frees the socket that it refers to. -/
theorem dropSock_eq (socks : ℕ → Bool) (he : e.flags.sock = true → e.flags.pipeR = false ∧ e.flags.pipeW = false)
    (hp : p < SOCK_MAX) : dropSock socks e p = (socks p && !isSock p e) := by
  cases hsock : isSock p e with
  | true =>
    obtain ⟨hused, hs, rfl⟩ := isSock_iff.mp hsock
    unfold dropSock
    rw [if_pos ⟨hused, (he hs).1, (he hs).2, hs, hp⟩, update_self, Bool.not_true, Bool.and_false]
  | false =>
    rw [Bool.not_false, Bool.and_true]
    unfold dropSock
    split
    · rename_i h
      have hne : p ≠ e.offset := by
        rintro rfl
        rw [isSock_iff.mpr ⟨h.1, h.2.2.2.1, rfl⟩] at hsock
        cases hsock
      rw [update_of_ne hne]
    · rfl

theorem foldl_dropSock {tab : FdTable} (htab : ∀ i, (tab i).flags.sock = true →
    (tab i).flags.pipeR = false ∧ (tab i).flags.pipeW = false)
    (hp : p < SOCK_MAX) (n : ℕ) (socks : ℕ → Bool) :
    (List.range n).foldl (fun socks i => dropSock socks (tab i)) socks p =
      (socks p && !(List.range n).any fun i => isSock p (tab i)) := by
  induction n with
  | zero => simp
  | succ n ih =>
    rw [List.range_succ, List.foldl_append, List.foldl_cons, List.foldl_nil,
      dropSock_eq _ (htab n) hp, ih, List.any_append, List.any_cons, List.any_nil, Bool.or_false,
      Bool.not_or, Bool.and_assoc]

/-- A socket's descriptor that is closed is the only one. -/
def CloseOk (s : St) (k : ℕ) (fd : ℤ) : Prop :=
  fdValid (s.table k) fd → ∀ p < SOCK_MAX, isSock p (s.table k fd.toNat) = true →
  ¬ HeldElsewhere s p k fd.toNat

theorem SocketsLive.sysClose {s : SockSt} (h : SocketsLive s) (htab : s.st.tables k ≠ none) {fd : ℤ}
    (hok : CloseOk s.st k fd) : SocketsLive (s.sysClose k fd) := by
  unfold SockSt.sysClose Linux.sysClose
  by_cases hvalid : fdValid (s.st.table k) fd
  · rw [if_pos hvalid, if_pos hvalid]
    have hunused := fdCloseEntry_unused s.st.pool hvalid.2.2
    have hflags : (fdCloseEntry s.st.pool (s.st.table k fd.toNat)).2.flags = {} := by
      unfold fdCloseEntry
      rw [if_neg (by simp [hvalid.2.2])]
      dsimp only
      rw [fdFlush_flags]
    have htables : (closeAt k s.st fd.toNat).tables =
        (s.st.setEntry k fd.toNat (fdCloseEntry s.st.pool (s.st.table k fd.toNat)).2).tables :=
        tables_setEntry_congr rfl _
    have hset : Tables (s.st.setEntry k fd.toNat (fdCloseEntry s.st.pool (s.st.table k fd.toNat)).2) :=
      h.tables.setEntry htab fun hsock => by
        rw [hflags] at hsock
        cases hsock
    refine ⟨hset.congr htables rfl rfl, fun p hp => ?_⟩
    dsimp only
    rw [held_congr htables, held_setEntry htab hvalid.lt, isSock_unused hunused,
      dropSock_eq _ (h.tables.flags k htab fd.toNat) hp, Bool.and_eq_true, h.live p hp, held_iff htab hvalid.lt]
    cases hsock : isSock p (s.st.table k fd.toNat) with
    | true => simp [hok hvalid p hp hsock]
    | false => simp
  · rw [if_neg hvalid, if_neg hvalid]
    exact h

/-- The sockets of a task that exits are its own. -/
def ExitOk (s : St) (t : ℕ) : Prop :=
  ∀ p < SOCK_MAX, ∀ i, RefersAt s p t i → ∀ k' i', k' ≠ t → ¬ RefersAt s p k' i'

theorem foldl_closeAt_other (t : ℕ) (l : List ℕ) (s : St) :
    (∀ k', k' ≠ t → (l.foldl (closeAt t) s).tables k' = s.tables k') ∧
      (l.foldl (closeAt t) s).tasks = s.tasks ∧ (l.foldl (closeAt t) s).isUser = s.isUser := by
  induction l generalizing s with
  | nil => exact ⟨fun _ _ => rfl, rfl, rfl⟩
  | cons i l ih =>
    obtain ⟨h1, h2, h3⟩ := ih (closeAt t s i)
    refine ⟨fun k' hk' => ?_, h2, h3⟩
    rw [List.foldl_cons, h1 k' hk']
    exact update_of_ne hk' _ _

theorem linuxFdtRelease_tables (t : ℕ) (s : St) : (linuxFdtRelease t s).tables = update s.tables t
    none ∧ (linuxFdtRelease t s).tasks = s.tasks ∧ (linuxFdtRelease t s).isUser = s.isUser := by
  unfold linuxFdtRelease
  cases htab : s.tables t with
  | none =>
    exact ⟨(update_eq_self_iff.mpr htab.symm).symm, rfl, rfl⟩
  | some tab =>
    obtain ⟨h1, h2, h3⟩ := foldl_closeAt_other t (List.range FD_MAX) s
    refine ⟨funext fun k' => ?_, h2, h3⟩
    dsimp only
    by_cases hk' : k' = t
    · rw [hk', update_self, update_self]
    · rw [update_of_ne hk', update_of_ne hk', h1 k' hk']

theorem refersAt_release {k' i' : ℕ} (hs : s'.tables = update s.tables t none) :
    RefersAt s' p k' i' ↔ k' ≠ t ∧ RefersAt s p k' i' := by
  unfold RefersAt St.table
  rw [hs]
  by_cases hk' : k' = t
  · rw [hk', update_self]
    simp
  · rw [update_of_ne hk']
    simp [hk']

theorem SocketsLive.linuxFdtRelease {s : SockSt} (h : SocketsLive s) (ht : s.st.isUser t = true) (hok : ExitOk s.st t) :
    SocketsLive (s.linuxFdtRelease t) := by
  obtain ⟨htables, htasks, huser⟩ := linuxFdtRelease_tables t s.st
  have ht0 : (0 : ℕ) ≠ t := by
    rintro rfl
    rw [h.tables.boot.2] at ht
    cases ht
  have hother : ∀ k', (Linux.linuxFdtRelease t s.st).tables k' ≠ none → k' ≠ t ∧ s.st.tables k' ≠ none := by
    intro k' hk'
    rw [htables] at hk'
    by_cases heq : k' = t
    · rw [heq, update_self] at hk'
      exact absurd rfl hk'
    · rw [update_of_ne heq] at hk'
      exact ⟨heq, hk'⟩
  refine ⟨⟨fun k' hk' i => ?_, ⟨?_, ?_⟩, fun k' hk' => ?_, fun k' hk' => ?_⟩, fun p hp => ?_⟩
  · obtain ⟨hne, hsome⟩ := hother k' hk'
    have hflags := h.tables.flags k' hsome i
    have htable : (Linux.linuxFdtRelease t s.st).table k' = s.st.table k' := by
      unfold St.table
      rw [htables, update_of_ne hne]
    rw [← htable] at hflags
    exact hflags
  · change (Linux.linuxFdtRelease t s.st).tables 0 ≠ none
    rw [htables, update_of_ne ht0]
    exact h.tables.boot.1
  · change (Linux.linuxFdtRelease t s.st).isUser 0 = false
    rw [huser]
    exact h.tables.boot.2
  · change k' < (Linux.linuxFdtRelease t s.st).tasks
    rw [htasks]
    exact h.tables.bound k' (hother k' hk').2
  · change k' < (Linux.linuxFdtRelease t s.st).tasks
    rw [htasks]
    change (Linux.linuxFdtRelease t s.st).isUser k' = true at hk'
    rw [huser] at hk'
    exact h.tables.users k' hk'
  · have hheld : Held (Linux.linuxFdtRelease t s.st) p ↔ ∃ k' i', k' ≠ t ∧ RefersAt s.st p k' i' := by
      refine exists_congr fun k' => exists_congr fun i' => ?_
      exact refersAt_release htables
    change (match s.st.tables t with
      | none => s.socks
      | some tab => (List.range FD_MAX).foldl (fun socks i => dropSock socks (tab i)) s.socks) p = true ↔
        Held (Linux.linuxFdtRelease t s.st) p
    rw [hheld]
    cases htab : s.st.tables t with
    | none =>
      rw [h.live p hp]
      refine exists_congr fun k' => exists_congr fun i' => ⟨fun hr => ⟨?_, hr⟩, fun hr => hr.2⟩
      rintro rfl
      exact hr.2.1 htab
    | some tab =>
      have htable : s.st.table t = tab := table_of_some htab
      have hsome : s.st.tables t ≠ none := by
        rw [htab]
        exact Option.some_ne_none _
      dsimp only
      rw [foldl_dropSock (htable ▸ h.tables.flags t hsome) hp, Bool.and_eq_true, h.live p hp]
      constructor
      · rintro ⟨⟨k', i', hr⟩, hnone⟩
        refine ⟨k', i', ?_, hr⟩
        rintro rfl
        have hany : ((List.range FD_MAX).any fun i => isSock p (tab i)) = true :=
          List.any_eq_true.mpr ⟨i', List.mem_range.mpr hr.1, htable ▸ hr.2.2⟩
        rw [hany] at hnone
        cases hnone
      · rintro ⟨k', i', hne, hr⟩
        refine ⟨⟨k', i', hr⟩, ?_⟩
        rw [Bool.not_eq_true', Bool.eq_false_iff]
        intro hany
        obtain ⟨i, hi, hsock⟩ := List.any_eq_true.mp hany
        exact hok p hp i ⟨List.mem_range.mp hi, hsome, by rw [htable]; exact hsock⟩ k' i' hne hr

/-- A new task whose entries refer to sockets that are referred to. -/
theorem SocketsLive.addTask {s : SockSt} (h : SocketsLive s) (user : Bool) {o : Option FdTable} (pool : Pool)
    (hflags : ∀ tab, o = some tab → ∀ i, (tab i).flags.sock = true → (tab i).flags.pipeR = false ∧
    (tab i).flags.pipeW = false)
    (hheld : ∀ tab, o = some tab → ∀ i < FD_MAX, ∀ p, isSock p (tab i) = true → Held s.st p) :
    SocketsLive ⟨Linux.addTask s.st user o pool, s.socks⟩ := by
  have hself : (Linux.addTask s.st user o pool).tables s.st.tasks = o := update_self _ _ _
  have hother : ∀ k', k' ≠ s.st.tasks → (Linux.addTask s.st user o pool).tables k' = s.st.tables k' :=
    fun k' hk' => update_of_ne hk' _ _
  have hnew : ∀ k', s.st.tables k' ≠ none → k' ≠ s.st.tasks := fun k' hk' => (h.tables.bound k' hk').ne
  have h0 := hnew 0 h.tables.boot.1
  refine ⟨⟨fun k' hk' i => ?_, ⟨?_, ?_⟩, fun k' hk' => ?_, fun k' hk' => ?_⟩, fun p hp => ?_⟩
  · change (Linux.addTask s.st user o pool).tables k' ≠ none at hk'
    by_cases heq : k' = s.st.tasks
    · rw [heq, hself] at hk'
      obtain ⟨tab, rfl⟩ := Option.ne_none_iff_exists'.mp hk'
      have hnewflags := hflags tab rfl i
      have htable : (Linux.addTask s.st user (some tab) pool).table k' = tab := table_of_some (heq ▸ hself)
      rw [← htable] at hnewflags
      exact hnewflags
    · rw [hother k' heq] at hk'
      have holdflags := h.tables.flags k' hk' i
      have htable : (Linux.addTask s.st user o pool).table k' = s.st.table k' := by
        unfold St.table
        rw [hother k' heq]
      rw [← htable] at holdflags
      exact holdflags
  · change (Linux.addTask s.st user o pool).tables 0 ≠ none
    rw [hother 0 h0]
    exact h.tables.boot.1
  · change update s.st.isUser s.st.tasks user 0 = false
    rw [update_of_ne h0]
    exact h.tables.boot.2
  · change k' < s.st.tasks + 1
    by_cases heq : k' = s.st.tasks
    · omega
    · change (Linux.addTask s.st user o pool).tables k' ≠ none at hk'
      rw [hother k' heq] at hk'
      have := h.tables.bound k' hk'
      omega
  · change k' < s.st.tasks + 1
    by_cases heq : k' = s.st.tasks
    · omega
    · change update s.st.isUser s.st.tasks user k' = true at hk'
      rw [update_of_ne heq] at hk'
      have := h.tables.users k' hk'
      omega
  · refine (h.live p hp).trans ⟨?_, ?_⟩
    · rintro ⟨k', i', hi', htab', hsock⟩
      refine ⟨k', i', hi', ?_, ?_⟩
      · rwa [hother k' (hnew k' htab')]
      · unfold St.table
        rwa [hother k' (hnew k' htab')]
    · rintro ⟨k', i', hi', htab', hsock⟩
      unfold St.table at hsock
      by_cases heq : k' = s.st.tasks
      · rw [heq, hself] at hsock htab'
        cases o with
        | none => exact absurd rfl htab'
        | some tab => exact hheld tab rfl i' hi' p hsock
      · rw [hother k' heq] at hsock htab'
        exact ⟨k', i', hi', htab', hsock⟩

theorem SocketsLive.spawn {s : SockSt} (h : SocketsLive s) (user : Bool) : SocketsLive ⟨spawn user s.st, s.socks⟩ :=
  h.addTask user (o := none) s.st.pool (fun _ hn => by cases hn) fun _ hn => by cases hn

theorem SocketsLive.linuxFdtClone {s : SockSt} (h : SocketsLive s) (ht : s.st.isUser t = true) (tableOk : Bool)
    (bufOk : ℕ → Bool) : SocketsLive ⟨linuxFdtClone t tableOk bufOk s.st, s.socks⟩ := by
  have hplain := h.spawn true
  have htt : t ≠ s.st.tasks := (h.tables.users t ht).ne
  unfold Linux.linuxFdtClone
  dsimp only
  rw [update_of_ne htt]
  cases htab : s.st.tables t with
  | none => exact hplain
  | some tab =>
    dsimp only
    by_cases hok : tableOk = true
    · rw [if_pos hok]
      have hsome : s.st.tables t ≠ none := by
        rw [htab]
        exact Option.some_ne_none _
      have htable : s.st.table t = tab := table_of_some htab
      have hnew := h.addTask true (o := some fun i => cloneEntry bufOk i (tab i))
        ((List.range FD_MAX).foldl (fun pool i => if (tab i).flags.used then bumpBoth pool (tab i) else pool) s.st.pool)
        (fun tab' htab' i hsock => by
          cases htab'
          rw [(cloneEntry_flags bufOk i (tab i)).1] at hsock ⊢
          rw [← htable] at hsock ⊢
          exact h.tables.flags t hsome i hsock)
        (fun tab' htab' i hi p hsock => by
          cases htab'
          obtain ⟨hf, ho, -⟩ := cloneEntry_flags bufOk i (tab i)
          unfold isSock at hsock
          rw [hf, ho] at hsock
          exact ⟨t, i, hi, hsome, by rw [htable]; exact hsock⟩)
      unfold Linux.addTask at hnew
      unfold St.setTable
      dsimp only
      rw [update_idem]
      exact hnew
    · rw [if_neg hok]
      exact hplain

theorem sockAlloc_some {socks : ℕ → Bool} (h : sockAlloc socks = some i) : i < SOCK_MAX ∧ socks i = false := by
  have hmem := List.mem_range.mp (List.mem_of_find?_eq_some h)
  have hfree := List.find?_some h
  exact ⟨hmem, by simpa using hfree⟩

theorem SocketsLive.sysSocket {s : SockSt} (h : SocketsLive s) (htab : s.st.tables k ≠ none) (domain : ℤ) :
    SocketsLive (sysSocket k domain s).2 := by
  unfold Linux.sysSocket
  by_cases hunix : domain = AF_UNIX
  · rw [if_pos hunix]
    exact h
  rw [if_neg hunix]
  by_cases hinet6 : domain = AF_INET6
  · rw [if_pos hinet6]
    exact h
  rw [if_neg hinet6]
  cases hsi : sockAlloc s.socks with
  | none => exact h
  | some si =>
    dsimp only
    cases hfd : fdAlloc (s.st.table k) with
    | none => exact h
    | some fd =>
      obtain ⟨hlt, hfree⟩ := fdAlloc_some hfd
      refine ⟨h.tables.setEntry htab fun _ => ⟨rfl, rfl⟩, fun p hp => ?_⟩
      dsimp only
      have hlive := h.live p hp
      rw [held_iff htab hlt, isSock_unused hfree] at hlive
      rw [held_setEntry htab hlt]
      by_cases hps : p = si
      · subst hps
        rw [update_self]
        exact iff_of_true rfl (Or.inl (isSock_iff.mpr ⟨rfl, rfl, rfl⟩))
      · rw [update_of_ne hps, hlive]
        have hno : isSock p { s.st.table k fd with
            flags := { used := true, sock := true }, offset := si, size := 0 } = false := by
          simp [isSock, Ne.symm hps]
        rw [hno]

/-- No descriptor is closed or overwritten that is one of several, or the last one that is
overwritten, and none has its index moved. -/
def SockOp.Careful : SockOp → SockSt → Prop
  | .socket .., _ => True
  | .dup .., _ => True
  | .dup2 t ok oldfd newfd, s => OverwriteOk (curFdt t ok s.st).2 (curFdt t ok s.st).1 oldfd newfd
  | .fcntl .., _ => True
  | .lseek t ok fd offset whence, s => SeekOk ((curFdt t ok s.st).2.table (curFdt t ok s.st).1) fd offset whence
  | .close t ok fd, s => CloseOk (curFdt t ok s.st).2 (curFdt t ok s.st).1 fd
  | .fork .., _ => True
  | .exit t, s => ExitOk s.st t
  | .spawn _, _ => True

/-- The states reached from the first one by calls that all satisfy `C`. -/
inductive SockRun (C : SockOp → SockSt → Prop) : SockSt → Prop
  | boot : SockRun C ⟨boot, fun _ => false⟩
  | step {s : SockSt} (h : SockRun C s) (op : SockOp) (hop : C op s) : SockRun C (op.run s)

theorem socketsLive_boot : SocketsLive ⟨boot, fun _ => false⟩ := by
  have hsock : ∀ k i, (boot.table k i).flags.sock = false := by
    intro k i
    unfold boot St.table
    dsimp only
    by_cases hk : k = 0
    · rw [hk, update_self]
      exact fdtNew_sock i
    · rw [update_of_ne hk]
      rfl
  refine ⟨⟨fun k _ i h => ?_, exact_boot.boot, exact_boot.bound, exact_boot.users⟩, fun p _ => ?_⟩
  · change (boot.table k i).flags.sock = true at h
    rw [hsock] at h
    cases h
  · refine iff_of_false Bool.false_ne_true ?_
    rintro ⟨k, i, -, -, h⟩
    have := (isSock_iff.mp h).2.1
    change (boot.table k i).flags.sock = true at this
    rw [hsock] at this
    cases this

/-- One call keeps the sockets and the descriptors together. -/
theorem SocketsLive.step {s : SockSt} (h : SocketsLive s) (op : SockOp) (hop : op.Careful s) :
    SocketsLive (op.run s) := by
  cases op with
  | socket t ok domain =>
    obtain ⟨hx, htab⟩ := h.curFdt t ok
    exact hx.sysSocket htab domain
  | dup t ok oldfd =>
    obtain ⟨hx, htab⟩ := h.curFdt t ok
    exact hx.sysDup htab oldfd
  | dup2 t ok oldfd newfd =>
    obtain ⟨hx, htab⟩ := h.curFdt t ok
    exact hx.sysDup2 htab hop
  | fcntl t ok fd cmd arg =>
    obtain ⟨hx, htab⟩ := h.curFdt t ok
    exact hx.sysFcntl htab fd cmd arg
  | lseek t ok fd offset whence =>
    obtain ⟨hx, htab⟩ := h.curFdt t ok
    exact hx.sysLseek htab hop
  | close t ok fd =>
    obtain ⟨hx, htab⟩ := h.curFdt t ok
    exact hx.sysClose htab hop
  | fork t tableOk bufOk =>
    unfold SockOp.run SockSt.files Op.run
    dsimp only
    by_cases ht : s.st.isUser t = true
    · rw [if_pos ht]
      exact h.linuxFdtClone ht tableOk bufOk
    · rw [if_neg ht]
      exact h
  | exit t =>
    unfold SockOp.run
    dsimp only
    by_cases ht : s.st.isUser t = true
    · rw [if_pos ht]
      exact h.linuxFdtRelease ht hop
    · rw [if_neg ht]
      exact h
  | spawn user => exact h.spawn user

theorem SockRun.live {s : SockSt} (h : SockRun SockOp.Careful s) : SocketsLive s := by
  induction h with
  | boot => exact socketsLive_boot
  | step _ op hop ih => exact ih.step op hop

/-- In every state that careful calls reach, a socket is in use exactly when a descriptor refers to
it, so that a new socket never takes a slot that a descriptor refers to. -/
theorem sockets_live {s : SockSt} (h : SockRun SockOp.Careful s) :
    (∀ p < SOCK_MAX, s.socks p = true ↔ Held s.st p) ∧ ∀ p, sockAlloc s.socks = some p → ¬ Held s.st p := by
  refine ⟨h.live.live, fun p hp hheld => ?_⟩
  obtain ⟨hlt, hfree⟩ := sockAlloc_some hp
  rw [(h.live.live p hlt).mpr hheld] at hfree
  cases hfree

def copiedSocket : SockSt :=
  (SockOp.dup 1 true 3).run ((SockOp.socket 1 true 2).run
  ((SockOp.spawn true).run ⟨boot, fun _ => false⟩))

theorem copiedSocket_live : SockRun SockOp.Careful copiedSocket ∧ copiedSocket.socks 0 = true ∧
    Held copiedSocket.st 0 := by
  have hrun : SockRun SockOp.Careful copiedSocket := ((SockRun.boot.step (.spawn true) trivial).step (.socket 1 true 2)
    trivial).step (.dup 1 true 3) trivial
  have hused : copiedSocket.socks 0 = true := by decide
  exact ⟨hrun, hused, ((sockets_live hrun).1 0 (by decide)).mp hused⟩

/-- One of the copies is closed: the other one refers to a socket that is free. -/
theorem copied_socket_lost : ¬ ∀ s, SockRun (fun _ _ => True) s → ∀ p < SOCK_MAX, s.socks p = true ↔ Held s.st p := by
  intro h
  have hrun : SockRun (fun _ _ => True) ((SockOp.close 1 true 3).run copiedSocket) :=
    (((SockRun.boot.step (.spawn true) trivial).step (.socket 1 true 2) trivial).step (.dup 1 true 3) trivial).step
      (.close 1 true 3) trivial
  have hheld : Held ((SockOp.close 1 true 3).run copiedSocket).st 0 := ⟨1, 4, by decide, by decide, by decide⟩
  have hused := (h _ hrun 0 (by decide)).mpr hheld
  revert hused
  decide

end ComputerOS.Linux
