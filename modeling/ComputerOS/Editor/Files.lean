import ComputerOS.Editor.Refine
import ComputerOS.Lib.Looping
import ComputerOS.Vfs.Ramfs

/-!
Loading and saving a file. The loader reads into the whole block and doubles the block while the
file fills it, up to 512 KiB; what is saved is the text. A file of more than 512 KiB is cut off
there.
-/
namespace ComputerOS.Editor

open Looping

/-- The calls of the VFS for the editor's path, on the state `σ` of the mounts: `vfs_read_file` puts
the first bytes of the file into the buffer or fails, and `vfs_write_file` makes the bytes it is
given the file or fails. A read that succeeds with fewer bytes than the file has and the buffer
takes, as FAT32 does at a bad sector, is left out. -/
structure FileCalls (σ : Type) where
  content : σ → Option (List UInt8)
  read : σ → ℕ → Option (List UInt8)
  write : σ → List UInt8 → ℤ × σ
  read_take : ∀ st max bs, read st max = some bs → ∃ whole, content st = some whole ∧ bs = whole.take max
  write_content : ∀ st bs, 0 ≤ (write st bs).1 → content (write st bs).2 = some bs

/-- `if (!(cap < try_cap)) break; if (grow() < 0) return -1`; `alloc n` is what `kmalloc(n)` gives.
-/
def growTurn (alloc : ℕ → Option Mem) (tryCap : ℕ) (_ : Unit) : Looping GapBuffer (Unit ⊕ Unit) :=
  Looping.lift fun s =>
    if s.cap < tryCap then
      let (r, s) := s.grow (alloc (u32 (s.cap * 2)))
      (if r < 0 then none else some (.inl ()), s)
    else (some (.inr ()), s)

/-- A turn of the loop of `load_file`; the inner loop has at most `n` turns. -/
def loadTurn (n : ℕ) (alloc : ℕ → Option Mem) (read : ℕ → Option (List UInt8)) (tryCap : ℕ) :
    Looping GapBuffer (ℕ ⊕ Unit) := do
  Looping.loop (growTurn alloc tryCap) n ()
  let s ← Looping.get
  match read s.cap with
  | none => Looping.fail
  | some bs => do
      Looping.modify fun s => { s with buf := s.buf.put 0 bs }
      if bs.length < s.cap then do
        Looping.modify fun s => { s with gapStart := bs.length, gapEnd := s.cap }
        pure (.inr ())
      else if 512 * 1024 < u32 (s.cap * 2) then do
        Looping.modify fun s => { s with gapStart := bs.length, gapEnd := s.cap }
        pure (.inr ())
      else pure (.inl (u32 (s.cap * 2)))

def loadFile (n : ℕ) (alloc : ℕ → Option Mem) (read : ℕ → Option (List UInt8)) : Looping GapBuffer Unit := do
  let s ← Looping.get
  Looping.loop (loadTurn n alloc read) n s.cap

/-- The bytes that `save_file` puts together in a new block. -/
def GapBuffer.flatten (s : GapBuffer) (tmp : Mem) : List UInt8 :=
  let n := s.textLen
  let tmp := tmp.blit 0 s.buf 0 s.gapStart
  let tmp := tmp.blit s.gapStart s.buf s.gapEnd (sub32 n s.gapStart)
  (List.range n).map tmp

variable {σ : Type}

def GapBuffer.saveFile (s : GapBuffer) (alloc : Option Mem) (write : List UInt8 → ℤ × σ) (st : σ) : ℤ × σ :=
  match alloc with
  | none => (-1, st)
  | some tmp =>
      let (rc, st) := write (s.flatten tmp)
      (if rc < 0 then -1 else 0, st)

/-- `load_file` in the buffer that `editor_run` made returns: `some ()` is 0, `none` is -1. -/
def Loads (alloc : ℕ → Option Mem) (read : ℕ → Option (List UInt8)) (buf : Mem) (r : Option Unit)
    (s : GapBuffer) : Prop :=
  ∃ n, (loadFile n alloc read).run (editorOpen buf) = some (r, s)

variable {alloc : ℕ → Option Mem} {read : ℕ → Option (List UInt8)} {buf : Mem} {s : GapBuffer} {tryCap : ℕ}
  {whole : List UInt8}

theorem WellFormed.flatten (h : WellFormed s) (tmp : Mem) : s.flatten tmp = s.text := by
  have hlen := h.textLen_eq
  have := h.start_le
  have := h.end_le
  have := h.cap_lt
  unfold GapBuffer.flatten GapBuffer.text
  dsimp only
  refine List.map_congr_left fun i hi => ?_
  have hlt := List.mem_range.1 hi
  rw [h.textAt_eq hlt, GapBuffer.place, sub32_of_le (by omega) (by omega)]
  by_cases hlo : i < s.gapStart
  · have hat : tmp.blit 0 s.buf 0 s.gapStart (0 + i) = s.buf (0 + i) := Mem.blit_at hlo
    rw [Nat.zero_add] at hat
    rw [if_pos hlo, Mem.blit_ne (by omega), hat]
  · obtain ⟨k, rfl⟩ : ∃ k, i = s.gapStart + k := ⟨i - s.gapStart, by omega⟩
    rw [if_neg hlo, Mem.blit_at (by omega), Nat.add_sub_cancel_left, Nat.add_comm]

theorem saveFile_content (F : FileCalls σ) (h : WellFormed s) {tmp : Option Mem} {st st' : σ}
    (hsave : s.saveFile tmp (F.write st) st = (0, st')) : F.content st' = some s.text := by
  unfold GapBuffer.saveFile at hsave
  cases tmp with
  | none => cases hsave
  | some tmp =>
    dsimp only at hsave
    rw [h.flatten tmp] at hsave
    obtain ⟨hret, rfl⟩ := Prod.mk.inj hsave
    refine F.write_content st _ (not_lt.1 fun hneg => ?_)
    rw [if_pos hneg] at hret
    omega

/-- The text is empty, and the block is about to have `try_cap` bytes. -/
structure Loading (tryCap : ℕ) (s : GapBuffer) : Prop where
  doubled : ∃ k, s.cap = INITIAL_CAP * 2 ^ k
  le : s.cap ≤ 512 * 1024
  gapStart : s.gapStart = 0
  gapEnd : s.gapEnd = s.cap
  next : tryCap = s.cap ∨ tryCap = 2 * s.cap ∧ tryCap ≤ 512 * 1024

/-- The buffer holds the first 512 KiB of the file. -/
structure Loaded (whole : List UInt8) (s : GapBuffer) : Prop where
  opened : Opened s
  text : s.text = whole.take (512 * 1024)

theorem Loading.opened (h : Loading tryCap s) : Opened s :=
  ⟨h.doubled, by have := h.le; omega, by rw [h.gapStart]; exact Nat.zero_le _, h.gapEnd⟩

/-- One block more is enough. -/
theorem growLoop_ends (alloc : ℕ → Option Mem) (n : ℕ) : Ends (fun s => Loading tryCap s ∧ tryCap - s.cap < n)
    (Looping.loop (growTurn alloc tryCap) n ()) fun _ s => Loading tryCap s ∧ s.cap = tryCap := by
  refine Ends.loop (fun _ s => Loading tryCap s) (fun _ s => tryCap - s.cap)
    (fun u m => Ends.lift fun s hs a ha => ?_) n ()
  obtain ⟨rfl, h⟩ := hs
  have hnext := h.next
  by_cases hless : s.cap < tryCap
  · rw [if_pos hless] at ha ⊢
    rcases halloc : alloc (u32 (s.cap * 2)) with _ | nb
    · rw [halloc] at ha
      cases ha
    · rw [halloc] at ha
      have hle := h.le
      obtain ⟨hret, -, -, hstart, -, hcap⟩ := h.opened.wellFormed.grow_some (by omega) nb
      have hend : (s.grow (some nb)).2.gapEnd = (s.grow (some nb)).2.cap := by
        change sub32 (u32 (s.cap * 2)) (sub32 s.cap s.gapEnd) = u32 (s.cap * 2)
        rw [h.gapEnd, sub32_of_le (Nat.le_refl _) (by omega), Nat.sub_self, u32_of_lt (by omega),
          sub32_of_le (Nat.zero_le _) (by omega), Nat.sub_zero]
      dsimp only at ha ⊢
      rw [hret, if_neg (by decide)] at ha
      cases ha
      obtain ⟨k, hk⟩ := h.doubled
      have hkeep : Loading tryCap (s.grow (some nb)).2 := by
        refine ⟨⟨k + 1, ?_⟩, by omega, hstart.trans h.gapStart, hend, Or.inl (by omega)⟩
        rw [hcap, hk, Nat.pow_succ, Nat.mul_assoc]
      exact ⟨hkeep, by omega⟩
  · rw [if_neg hless] at ha ⊢
    cases ha
    have hpos := h.opened.wellFormed.cap_pos
    exact ⟨h, show s.cap = tryCap by omega⟩

theorem text_of_put (h : WellFormed s) (hend : s.gapEnd = s.cap) {bs : List UInt8} (hlen : bs.length = s.gapStart)
    (hbuf : s.buf = buf.put 0 bs) : s.text = bs := by
  rw [h.text_eq, hend, Nat.sub_self, List.range_zero, List.map_nil, List.append_nil, hbuf, ← hlen]
  refine List.ext_getElem (by rw [List.length_map, List.length_range]) fun i hi hi' => ?_
  have hat := buf.put_at (a := 0) hi'
  rw [Nat.zero_add] at hat
  rw [List.getElem_map, List.getElem_range, hat, List.getD_eq_getElem _ _ hi']

/-- What was read is kept when the file does not fill the block, and when the block has its last
size. -/
theorem Loading.loaded (h : Loading tryCap s) {bs : List UInt8} (hbs : bs = whole.take s.cap)
    (hlast : bs.length < s.cap ∨ 512 * 1024 < u32 (s.cap * 2)) :
    Loaded whole { s with buf := s.buf.put 0 bs, gapStart := bs.length, gapEnd := s.cap } := by
  have hle := h.le
  have hopen : Opened { s with buf := s.buf.put 0 bs, gapStart := bs.length, gapEnd := s.cap } :=
    ⟨h.doubled, h.opened.cap_lt, hbs ▸ List.length_take_le _ _, rfl⟩
  refine ⟨hopen, (text_of_put hopen.wellFormed rfl rfl rfl).trans ?_⟩
  rcases hlast with hshort | hlimit
  · rw [hbs, List.length_take] at hshort
    rw [hbs, List.take_of_length_le (by omega), List.take_of_length_le (by omega)]
  · obtain ⟨k, hk⟩ := h.doubled
    have hfull : s.cap = 512 * 1024 := by
      rw [u32_of_lt (by omega)] at hlimit
      unfold INITIAL_CAP at hk
      rcases Nat.lt_or_ge k 3 with hsmall | hlarge
      · have := Nat.pow_le_pow_right (show 0 < 2 by decide) (Nat.le_of_lt_succ hsmall)
        omega
      · have := Nat.pow_le_pow_right (show 0 < 2 by decide) hlarge
        omega
    rw [hbs, hfull]

theorem loadTurn_ends (tryCap : ℕ) (alloc : ℕ → Option Mem) (hread : ∀ max bs, read max = some bs →
    bs = whole.take max) {n : ℕ}
    (hn : 512 * 1024 < n) (m : ℕ) : Ends (fun s => 512 * 1024 - tryCap = m ∧ Loading tryCap s)
    (loadTurn n alloc read tryCap)
      fun r s => match r with
        | .inl tryCap' => Loading tryCap' s ∧ 512 * 1024 - tryCap' < m
        | .inr _ => Loaded whole s := by
  refine Ends.assume fun hm => ?_
  unfold loadTurn
  refine ((growLoop_ends alloc n).mono (fun s hs => ⟨hs, ?_⟩) fun _ _ h => h).bind fun _ => Ends.get.bind fun s₁ => ?_
  · have hnext := hs.next
    have hle := hs.le
    omega
  · rcases hgot : read s₁.cap with _ | bs
    · exact Ends.fail
    · have hbs := hread _ _ hgot
      dsimp only
      refine (Ends.modify (Q := fun _ s' => ∃ s, ((Loading tryCap s ∧ s.cap = tryCap) ∧ s₁ = s) ∧
        s' = { s with buf := s.buf.put 0 bs }) fun s hs => ⟨s, hs, rfl⟩).bind fun _ => ?_
      split_ifs with hall hlimit
      · refine (Ends.modify (Q := fun _ s => Loaded whole s) ?_).bind fun _ => Ends.pure fun _ h => h
        rintro s' ⟨s, ⟨⟨h, -⟩, rfl⟩, rfl⟩
        exact h.loaded hbs (Or.inl hall)
      · refine (Ends.modify (Q := fun _ s => Loaded whole s) ?_).bind fun _ => Ends.pure fun _ h => h
        rintro s' ⟨s, ⟨⟨h, -⟩, rfl⟩, rfl⟩
        exact h.loaded hbs (Or.inr hlimit)
      · refine Ends.pure fun s' hs' => ?_
        obtain ⟨s, ⟨⟨h, hcap⟩, rfl⟩, rfl⟩ := hs'
        have hle := h.le
        have hpos := h.opened.wellFormed.cap_pos
        rw [u32_of_lt (by omega)] at hlimit ⊢
        exact ⟨⟨h.doubled, hle, h.gapStart, h.gapEnd, Or.inr ⟨Nat.mul_comm _ _, Nat.not_lt.1 hlimit⟩⟩, by omega⟩

theorem loading_editorOpen (buf : Mem) : Loading INITIAL_CAP (editorOpen buf) :=
  ⟨⟨0, rfl⟩, show INITIAL_CAP ≤ 512 * 1024 by decide, rfl, rfl, Or.inl rfl⟩

theorem loadFile_ends (alloc : ℕ → Option Mem) (hread : ∀ max bs, read max = some bs → bs = whole.take max) {n : ℕ}
    (hn : 512 * 1024 < n) : Ends (fun s => s = editorOpen buf) (loadFile n alloc read) fun _ s => Loaded whole s := by
  unfold loadFile
  refine Ends.get.bind fun s₁ => ?_
  refine (Ends.loop (T := fun _ => Loaded whole) Loading (fun tryCap _ => 512 * 1024 - tryCap)
    (fun tryCap m => ?_) n s₁.cap).mono ?_ fun _ _ h => h
  · refine (loadTurn_ends tryCap alloc hread hn m).mono (fun _ h => h) fun r s h => ?_
    cases r with
    | inl tryCap' => exact h
    | inr _ => exact h
  rintro s ⟨rfl, rfl⟩
  exact ⟨loading_editorOpen buf, by omega⟩

theorem loadFile_steady (alloc : ℕ → Option Mem) (read : ℕ → Option (List UInt8)) : Steady fun n =>
    loadFile n alloc read := by
  unfold loadFile
  refine (Steady.const _).bind fun s => Steady.loop (fun tryCap => ?_) s.cap
  unfold loadTurn
  refine (Steady.loop (fun u => Steady.const _) ()).bind fun _ => ?_
  exact Steady.const _

theorem loads (alloc : ℕ → Option Mem) (buf : Mem) (hread : ∀ max bs, read max = some bs → bs = whole.take max) :
    (∃ r s, Loads alloc read buf r s) ∧ ∀ s, Loads alloc read buf (some ()) s → Loaded whole s := by
  obtain ⟨r, s, hrun, hloaded⟩ := loadFile_ends alloc hread (Nat.lt_succ_self _) (editorOpen buf) rfl
  refine ⟨⟨r, s, _, hrun⟩, fun s' hs' => ?_⟩
  obtain ⟨n, hrun'⟩ := hs'
  have hsteady := loadFile_steady alloc read
  have h := hsteady _ _ _ _ (Nat.le_max_left _ n) hrun
  have h' := hsteady _ _ _ _ (Nat.le_max_right (512 * 1024 + 1) n) hrun'
  obtain ⟨rfl, rfl⟩ := Prod.mk.inj (Option.some.inj (h.symm.trans h'))
  exact hloaded () rfl

theorem FileCalls.reads (F : FileCalls σ) (st : σ) :
    ∃ whole, (∀ max bs, F.read st max = some bs → bs = whole.take max) ∧ ∀ w, F.content st = some w → whole = w := by
  rcases hcontent : F.content st with _ | whole
  · refine ⟨[], fun max bs hread => ?_, nofun⟩
    obtain ⟨w, hw, -⟩ := F.read_take st max bs hread
    rw [hcontent] at hw
    cases hw
  · refine ⟨whole, fun max bs hread => ?_, fun w hw => Option.some.inj hw⟩
    obtain ⟨w, hw, hbs⟩ := F.read_take st max bs hread
    rw [hcontent] at hw
    cases hw
    exact hbs

/-- What is saved right after loading is the first 512 KiB of the file. -/
theorem saved_take (F : FileCalls σ) {st st' : σ} {tmp : Option Mem} {whole : List UInt8}
    (hwhole : F.content st = some whole)
    (hload : Loads alloc (F.read st) buf (some ()) s) (hsave : s.saveFile tmp (F.write st) st = (0, st')) :
    F.content st' = some (whole.take (512 * 1024)) := by
  obtain ⟨w, hread, hw⟩ := F.reads st
  obtain rfl := hw whole hwhole
  have hloaded := (loads alloc buf hread).2 s hload
  rw [saveFile_content F hloaded.opened.wellFormed hsave, hloaded.text]

/-- Loading ends, and what is saved after it is the file, when the file has at most 512 KiB. -/
theorem load_save (F : FileCalls σ) (st : σ) (alloc : ℕ → Option Mem) (buf : Mem) :
    (∃ r s, Loads alloc (F.read st) buf r s) ∧
      ∀ (whole : List UInt8) (s : GapBuffer) (tmp : Option Mem) (st' : σ),
        F.content st = some whole → whole.length ≤ 512 * 1024 →
        Loads alloc (F.read st) buf (some ()) s → s.saveFile tmp (F.write st) st = (0, st') →
        F.content st' = F.content st := by
  obtain ⟨w, hread, -⟩ := F.reads st
  refine ⟨(loads alloc buf hread).1, fun whole s tmp st' hwhole hlen hload hsave => ?_⟩
  rw [saved_take F hwhole hload hsave, hwhole, List.take_of_length_le hlen]

/-- What is saved after editing is what the edits make of the first 512 KiB of the file, with the
cursor at their end. -/
theorem saved_edits (F : FileCalls σ) {st st' : σ} {s' : GapBuffer} {tmp : Option Mem} {trace : List (Op × ℤ)}
    (hwhole : F.content st = some whole) (hload : Loads alloc (F.read st) buf (some ()) s) (hrun : Run s trace s')
    (hsave : s'.saveFile tmp (F.write st) st = (0, st')) :
    F.content st' = some (trace.foldl (fun d e => e.1.apply d e.2)
    (⟨whole.take (512 * 1024), _, le_rfl⟩ : Doc UInt8)).text := by
  obtain ⟨w, hread, hw⟩ := F.reads st
  obtain rfl := hw whole hwhole
  have hloaded := (loads alloc buf hread).2 s hload
  have hshows : Shows s ⟨w.take (512 * 1024), (w.take (512 * 1024)).length, le_rfl⟩ := by
    have hend : s.gapStart = s.text.length := by
      rw [length_text, hloaded.opened.wellFormed.textLen_eq, hloaded.opened.gapEnd, Nat.sub_self, Nat.add_zero]
    exact ⟨hloaded.text, hend.trans (congrArg List.length hloaded.text)⟩
  obtain ⟨h', hd'⟩ := hrun.refines hloaded.opened.wellFormed hshows
  rw [saveFile_content F h' hsave, hd'.1]

open Vfs

theorem ramfsReadFile_eq {files : List File} (hfiles : RamfsReached files) {path : Str}
    (hroot : isRoot path = false) (max : ℕ) :
    ramfsReadFile files path max =
      ((lookFile files (bare path)).bind fun f => f.2.map fun data => data.take f.1).map fun bs => bs.take max := by
  have hu := reached_unique hfiles
  unfold ramfsReadFile
  rw [if_neg (by rw [hroot]; decide)]
  rcases hfind : findFile files (bare path) with _ | i
  · rw [show lookFile files (bare path) = none from Assoc.toMap_eq_none.2 (findFile_none hfind)]
    rfl
  · obtain ⟨pre, f, post, rfl, hused, hname, hget, -⟩ := findFile_some hfind
    rw [filesIn_used hused] at hu
    rw [lookFile, filesIn_used hused, ← hname, Assoc.toMap_at hu]
    simp only [Option.bind_eq_bind, Option.bind_some, hget]
    rcases f.data with _ | data
    · rfl
    · rw [Option.bind_some, Option.map_some, Option.map_some, List.take_take]
      refine congrArg (fun n => some (data.take n)) ?_
      split <;> omega

/-- The files in memory, at one path; `alloc` says which requests `kmalloc` grants. -/
def ramfsCalls (alloc : ℕ → Bool) (path : Str) : FileCalls {files : List File // RamfsReached files} where
  content files := if isRoot path then none else (lookFile files (bare path)).bind fun f =>
    f.2.map fun data => data.take f.1
  read files max := ramfsReadFile files path max
  write files data :=
    ((ramfsWriteFile alloc files path data).1,
    ⟨(ramfsWriteFile alloc files path data).2, files.2.write alloc path data⟩)
  read_take := by
    intro files max bs hread
    cases hroot : isRoot path with
    | true =>
      unfold ramfsReadFile at hread
      rw [if_pos hroot] at hread
      cases hread
    | false =>
      rw [ramfsReadFile_eq files.2 hroot, Option.map_eq_some_iff] at hread
      obtain ⟨whole, hwhole, rfl⟩ := hread
      exact ⟨whole, hwhole, rfl⟩
  write_content := by
    intro files data hret
    dsimp only at hret ⊢
    cases hroot : isRoot path with
    | true =>
      unfold ramfsWriteFile at hret
      rw [if_pos hroot] at hret
      cases hret
    | false =>
      have hwritten := ramfsWriteFile_written alloc files path data
      rcases hwritten.atomic (reached_unique files.2) with ⟨hfail, -⟩ | ⟨-, hlook, -⟩
      · omega
      · rw [if_neg (by decide)]
        change (Assoc.toMap (filesIn (ramfsWriteFile alloc files path data).2) (bare path)).bind _ = _
        rw [hlook, Function.update_self]
        exact congrArg some (List.take_of_length_le (Nat.le_refl _))

theorem ramfsWriteFile_first {data : List UInt8} (hlen : data.length ≤ RAMFS_MAX_SIZE) :
    (ramfsWriteFile (fun _ => true) ramfsInit [slash, 102] data).1 = data.length := by
  have hfind : findFile ramfsInit (bare [slash, 102]) = none := by decide
  have hslot : (ramfsInit.findIdx? fun f => !f.used) = some 0 := by decide
  unfold ramfsWriteFile
  rw [if_neg (by decide), if_neg (Nat.not_lt.2 hlen), if_neg (by decide), hfind, hslot]
  rfl

theorem ramfsWriteFile_again {files : List File} {data : List UInt8} (hlen : data.length ≤ RAMFS_MAX_SIZE)
    (hexist : lookFile files (bare [slash, 102]) ≠ none) :
    (ramfsWriteFile (fun _ => true) files [slash, 102] data).1 = data.length := by
  have hover : Overwrites files [slash, 102] data := ⟨by decide, hlen, by decide, hexist⟩
  have hwritten := ramfsWriteFile_written (fun _ => true) files [slash, 102] data
  generalize filesIn (ramfsWriteFile (fun _ => true) files [slash, 102] data).2 = l at hwritten
  generalize (ramfsWriteFile (fun _ => true) files [slash, 102] data).1 = r at hwritten ⊢
  cases hwritten with
  | refused hold => exact (hold hover).elim
  | lost _ _ halloc => cases halloc
  | replaced => rfl
  | created => rfl

/-- The files in memory with `/f` only, which holds these bytes. -/
def ramfsWith (data : List UInt8) : {files : List File // RamfsReached files} :=
  ⟨(ramfsWriteFile (fun _ => true) ramfsInit [slash, 102] data).2, RamfsReached.init.write _ _ _⟩

theorem ramfsWith_content {data : List UInt8} (hlen : data.length ≤ RAMFS_MAX_SIZE) :
    (ramfsCalls (fun _ => true) [slash, 102]).content (ramfsWith data) = some data := by
  refine (ramfsCalls (fun _ => true) [slash, 102]).write_content ⟨ramfsInit, .init⟩ data ?_
  change 0 ≤ (ramfsWriteFile (fun _ => true) ramfsInit [slash, 102] data).1
  rw [ramfsWriteFile_first hlen]
  exact Int.natCast_nonneg _

/-- Nothing fails: every request for memory is granted, and the file is read. -/
theorem loads_of_grants {read : ℕ → Option (List UInt8)} (buf nb : Mem)
    (hread : ∀ max, read max = some (whole.take max)) :
    ∃ s, Loads (fun _ => some nb) read buf (some ()) s := by
  have hnever : ∀ n, NeverFails (loadFile n (fun _ => some nb) read) := by
    intro n
    refine NeverFails.get.bind fun s => NeverFails.loop (fun tryCap => ?_) n s.cap
    refine (NeverFails.loop (fun u => NeverFails.lift fun s => ?_) n ()).bind fun _ => NeverFails.get.bind fun s => ?_
    · split
      · exact Option.some_ne_none _
      · exact Option.some_ne_none _
    · rw [hread]
      refine (NeverFails.modify _).bind fun _ => ?_
      split_ifs
      · exact (NeverFails.modify _).bind fun _ => NeverFails.pure _
      · exact (NeverFails.modify _).bind fun _ => NeverFails.pure _
      · exact NeverFails.pure _
  have htake : ∀ max bs, read max = some bs → bs = whole.take max := fun max bs hbs => by
    rw [hread] at hbs
    exact (Option.some.inj hbs).symm
  obtain ⟨⟨r, s, n, hrun⟩, -⟩ := loads (fun _ => some nb) buf htake
  cases r with
  | none => exact (hnever n _ _ hrun).elim
  | some u => exact ⟨s, n, hrun⟩

theorem load_save_runs {data : List UInt8} (hlen : data.length ≤ RAMFS_MAX_SIZE) : ∃ s st',
    Loads (fun _ => some fun _ => 0) ((ramfsCalls (fun _ => true) [slash, 102]).read
      (ramfsWith data)) (fun _ => 0) (some ()) s ∧
        s.saveFile (some fun _ => 0) ((ramfsCalls (fun _ => true) [slash, 102]).write
        (ramfsWith data)) (ramfsWith data) = (0, st') := by
  have hcontent := ramfsWith_content hlen
  have hread : ∀ max, (ramfsCalls (fun _ => true) [slash, 102]).read (ramfsWith data) max = some (data.take max) := by
    intro max
    change ramfsReadFile (ramfsWith data).1 [slash, 102] max = _
    rw [ramfsReadFile_eq (ramfsWith data).2 (by decide)]
    exact congrArg (Option.map fun bs => bs.take max) hcontent
  obtain ⟨s, hload⟩ := loads_of_grants (fun _ => 0) (fun _ => 0) hread
  have hloaded := (loads _ _ fun max bs hbs => by rw [hread] at hbs; exact (Option.some.inj hbs).symm).2 s hload
  refine ⟨s, _, hload, Prod.ext ?_ rfl⟩
  change (if (ramfsWriteFile (fun _ => true) (ramfsWith data).1 [slash, 102]
    (s.flatten fun _ => 0)).1 < 0 then (-1 : ℤ) else 0) = 0
  rw [ramfsWriteFile_again, if_neg (by omega)]
  · rw [hloaded.opened.wellFormed.flatten, hloaded.text, List.length_take]
    omega
  · intro hnone
    change (lookFile (ramfsWith data).1 (bare [slash, 102])).bind _ = _ at hcontent
    rw [hnone] at hcontent
    cases hcontent

/-- A file that does not fit into the first block: the block is doubled before the file is read
whole. -/
theorem load_save_long : ∃ s st', Loads (fun _ => some fun _ => 0)
      ((ramfsCalls (fun _ => true) [slash, 102]).read (ramfsWith (List.replicate 100000 7))) (fun _ => 0) (some ()) s ∧
    s.saveFile (some fun _ => 0) ((ramfsCalls (fun _ => true) [slash, 102]).write (ramfsWith (List.replicate 100000 7)))
      (ramfsWith (List.replicate 100000 7)) = (0, st') ∧
    (ramfsCalls (fun _ => true) [slash, 102]).content st' = some (List.replicate 100000 7) := by
  obtain ⟨data, hdata⟩ : ∃ data : List UInt8, data = List.replicate 100000 7 := ⟨_, rfl⟩
  have hlen : data.length = 100000 := by rw [hdata, List.length_replicate]
  rw [← hdata]
  have hmax : data.length ≤ RAMFS_MAX_SIZE := hlen.trans_le (by decide)
  have hcontent := ramfsWith_content hmax
  obtain ⟨s, st', hload, hsave⟩ := load_save_runs hmax
  refine ⟨s, st', hload, hsave, ?_⟩
  rw [(load_save (ramfsCalls (fun _ => true) [slash, 102]) (ramfsWith data) _ _).2 data s _ st'
    hcontent (hlen.trans_le (by decide)) hload hsave]
  exact hcontent

theorem ramfsWith_look {data : List UInt8} (hlen : data.length ≤ RAMFS_MAX_SIZE) :
    lookFile (ramfsWith data).1 (bare [slash, 102]) ≠ none := by
  intro hnone
  have hcontent := ramfsWith_content hlen
  change (lookFile (ramfsWith data).1 (bare [slash, 102])).bind _ = _ at hcontent
  rw [hnone] at hcontent
  cases hcontent

/-- A byte is typed behind the two bytes of a file. -/
theorem saved_edits_typed : ∃ s s' st', Loads (fun _ => some fun _ => 0)
      ((ramfsCalls (fun _ => true) [slash, 102]).read (ramfsWith [7, 8])) (fun _ => 0) (some ()) s ∧
    Run s [(.insertChar 9 none, 0)] s' ∧
    s'.saveFile (some fun _ => 0) ((ramfsCalls (fun _ => true) [slash, 102]).write
    (ramfsWith [7, 8])) (ramfsWith [7, 8]) = (0, st') ∧
    (ramfsCalls (fun _ => true) [slash, 102]).content st' = some [7, 8, 9] := by
  have hcontent : (ramfsCalls (fun _ => true) [slash, 102]).content (ramfsWith [7, 8]) = some
    [7, 8] := ramfsWith_content (by decide)
  have hread : (ramfsCalls (fun _ => true) [slash, 102]).read (ramfsWith [7, 8]) = fun max =>
    some ([7, 8].take max) := by
    funext max
    change ramfsReadFile (ramfsWith [7, 8]).1 [slash, 102] max = _
    rw [ramfsReadFile_eq (ramfsWith [7, 8]).2 (by decide)]
    exact congrArg (Option.map fun bs => bs.take max) hcontent
  obtain ⟨s, hs⟩ : ∃ s : GapBuffer, s = { editorOpen (fun _ => 0) with
      buf := (editorOpen fun _ => 0).buf.put 0 [7, 8], gapStart := 2, gapEnd := INITIAL_CAP } := ⟨_, rfl⟩
  have hload : Loads (fun _ => some fun _ => 0)
    ((ramfsCalls (fun _ => true) [slash, 102]).read (ramfsWith [7, 8])) (fun _ => 0)
      (some ()) s := by
    refine ⟨1, ?_⟩
    rw [hread, hs]
    rfl
  have hrun : Run s [(.insertChar 9 none, 0)] (s.putChar 9) := by
    have hstep := Run.step (.insertChar 9 none) (.start : Run s [] s) (by rw [hs]; decide) trivial
    have hop : (Op.insertChar 9 none).run s = (0, s.putChar 9) := by
      rw [hs]
      rfl
    rwa [hop] at hstep
  have hloaded : Loaded [7, 8] s := (loads _ _
    fun max bs hbs => by rw [hread] at hbs; exact (Option.some.inj hbs).symm).2 s hload
  obtain ⟨hwf, htext, -⟩ := hrun.refines hloaded.opened.wellFormed
    (⟨hloaded.text, by rw [hs]⟩ : Shows s ⟨[7, 8].take (512 * 1024), 2, by decide⟩)
  have hsave : (s.putChar 9).saveFile (some fun _ => 0)
    ((ramfsCalls (fun _ => true) [slash, 102]).write (ramfsWith [7, 8]))
      (ramfsWith [7, 8]) = (0, ((ramfsCalls (fun _ => true) [slash, 102]).write (ramfsWith [7, 8])
      ((s.putChar 9).flatten fun _ => 0)).2) := by
    refine Prod.ext ?_ rfl
    change (if (ramfsWriteFile (fun _ => true) (ramfsWith [7, 8]).1 [slash, 102]
      ((s.putChar 9).flatten fun _ => 0)).1 < 0
      then (-1 : ℤ) else 0) = 0
    rw [ramfsWriteFile_again, if_neg (by omega)]
    · rw [hwf.flatten, htext]
      decide
    · exact ramfsWith_look (by decide)
  exact ⟨s, s.putChar 9, _, hload, hrun, hsave, saved_edits _ hcontent hload hrun hsave⟩

/-- A file of 512 KiB and one byte loses the byte. -/
theorem load_save_cuts : ¬ ∀ (whole : List UInt8) (s : GapBuffer) (tmp : Option Mem)
    (st st' : {files : List File // RamfsReached files}),
    (ramfsCalls (fun _ => true) [slash, 102]).content st = some whole →
    Loads (fun _ => some fun _ => 0) ((ramfsCalls (fun _ => true) [slash, 102]).read st) (fun _ => 0) (some ()) s →
    s.saveFile tmp ((ramfsCalls (fun _ => true) [slash, 102]).write st) st = (0, st') →
    (ramfsCalls (fun _ => true) [slash, 102]).content st' = (ramfsCalls (fun _ => true) [slash, 102]).content st := by
  intro hall
  have hlen : (List.replicate (512 * 1024 + 1) (7 : UInt8)).length = 512 * 1024 + 1 := List.length_replicate
  generalize List.replicate (512 * 1024 + 1) (7 : UInt8) = data at hlen
  have hmax : data.length ≤ RAMFS_MAX_SIZE := by
    rw [hlen]
    decide
  obtain ⟨s, st', hload, hsave⟩ := load_save_runs hmax
  have hcontent := ramfsWith_content hmax
  have hsame := hall data s _ (ramfsWith data) st' hcontent hload hsave
  rw [saved_take _ hcontent hload hsave, hcontent] at hsame
  have hcut := congrArg List.length (Option.some.inj hsame)
  rw [List.length_take, hlen] at hcut
  omega

end ComputerOS.Editor
