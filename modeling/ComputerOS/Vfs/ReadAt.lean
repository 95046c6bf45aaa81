import ComputerOS.Vfs.Copy
import ComputerOS.Vfs.Ramfs

/-!
Reading a part of a file. A mount without `read_file_at` is read from the start into a buffer that
ends with the part, and the part is copied out of the buffer. The buffer's size is a sum in 32 bits,
and the answer of `read_file` is compared with the offset as signed numbers.
-/
namespace ComputerOS.Vfs

def asInt (n : ℕ) : ℤ := if n % 2 ^ 32 < 2 ^ 31 then n % 2 ^ 32 else n % 2 ^ 32 - 2 ^ 32

def asUnsigned (z : ℤ) : ℕ := (z % 2 ^ 32).toNat

/-- The operations of a mount that read. `readFile` gives the bytes it puts into the buffer, `none`
when it returns a negative number; a byte that `readFileAt` does not know is `none`. -/
structure ReadOps where
  readFile : Option (Str → ℕ → Option (List UInt8))
  readFileAt : Option (Str → ℕ → ℕ → ℤ × List (Option UInt8))

/-- What the fallback copies out of a buffer that starts with `data`: the number of bytes and the
bytes. -/
def copyPart (data : Option (List UInt8)) (offset len : ℕ) : ℤ × List (Option UInt8) :=
  let nr : ℤ := match data with
    | none => -1
    | some d => asInt d.length
  if asInt offset < nr then
    -- the difference of two `int`s, as the machine subtracts
    let got := asInt (asUnsigned (nr - asInt offset))
    let got := if len < asUnsigned got then asInt len else got
    (got, (List.range got.toNat).map fun i => (data.getD [])[(offset + i) % 2 ^ 32]?)
  else (0, [])

/-- `vfs_read_at`; `alloc` says which requests `kmalloc` grants. -/
def vfsReadAt (mounts : List Mount) (ops : ℕ → ReadOps) (alloc : ℕ → Bool) (cwd path : Str) (offset len : ℕ) :
    ℤ × List (Option UInt8) :=
  if len = 0 then (0, [])
  else
    match resolveRoute mounts cwd path 256 with
    | none => (-1, [])
    | some (i, sub) =>
        match (ops i).readFileAt with
        | some readAt => readAt sub offset len
        | none =>
            match (ops i).readFile with
            | none => (-1, [])
            | some read =>
                let total := (offset + len) % 2 ^ 32
                if alloc total then copyPart (read sub total) offset len else (-1, [])

/-- The bytes that a read with a buffer of `max` gives of the content `c`. A generator of `/proc`
keeps the last byte of the buffer for a terminator. -/
inductive Filled (terminated : Bool) (c : List UInt8) (max : ℕ) : List UInt8 → Prop
  | all (h : c.length < max) : Filled terminated c max c
  | cut (h : max ≤ c.length) (hterm : terminated = false) : Filled terminated c max (c.take max)
  | short {r : List UInt8} (hpos : 0 < max) (h : max ≤ c.length) (hterm : terminated = true)
      (hr : r.length = max - 1) : Filled terminated c max r

def Reads (terminated : Bool) (file : Option (List UInt8)) (max : ℕ) (r : Option (List UInt8)) : Prop :=
  match file with
  | none => r = none
  | some c => ∃ d, r = some d ∧ Filled terminated c max d

/-- The end of `gen_version` and the other generators of `/proc`, with the text they have made. -/
def genText (text : List UInt8) (max : ℕ) : List UInt8 := text.take (if max ≤ text.length then max - 1 else text.length)

theorem genText_reads (text : List UInt8) {max : ℕ} (hmax : 0 < max) :
    Reads true (some text) max (some (genText text max)) := by
  refine ⟨_, rfl, ?_⟩
  unfold genText
  split
  · rename_i hcut
    refine .short hmax hcut rfl ?_
    rw [List.length_take]
    omega
  · rename_i hfit
    rw [List.take_length]
    exact .all (Nat.lt_of_not_le hfit)

structure SizedFile (f : File) : Prop where
  sized : ∀ d ∈ f.data, d.length = f.size

theorem ramfsReadFile_reads {files : List File} {path : Str} (hsized : ∀ f ∈ files, SizedFile f) (max : ℕ)
    (hroot : isRoot path = false) :
    Reads false ((findFile files (bare path)).bind fun i => (files.getD i default).data) max
      (ramfsReadFile files path max) := by
  unfold ramfsReadFile
  rw [if_neg (by simp [hroot])]
  cases hfind : findFile files (bare path) with
  | none => rfl
  | some i =>
    obtain ⟨pre, f, post, rfl, -, -, hget, -⟩ := findFile_some hfind
    dsimp only [Option.bind, bind]
    rw [hget]
    cases hdata : f.data with
    | none => rfl
    | some d =>
      have hsize : d.length = f.size := (hsized f (by simp)).sized d hdata
      refine ⟨_, rfl, ?_⟩
      rw [← hsize]
      by_cases h : d.length < max
      · rw [if_pos h, List.take_length]
        exact .all h
      · rw [if_neg h]
        exact .cut (Nat.not_lt.mp h) rfl

theorem reached_sized {files : List File} (h : RamfsReached files) : ∀ f ∈ files, SizedFile f := by
  have hset : ∀ {l : List File} {i : ℕ} {f : File}, (∀ f ∈ l, SizedFile f) → SizedFile f →
      ∀ f' ∈ l.set i f, SizedFile f' := by
    intro l i f hl hf f' hf'
    rcases List.mem_or_eq_of_mem_set hf' with hold | rfl
    · exact hl f' hold
    · exact hf
  have hnone : ∀ {f : File}, f.data = none → SizedFile f := fun hf => ⟨fun d hd => by rw [hf] at hd; cases hd⟩
  have hfill : ∀ {alloc : ℕ → Bool} {data : List UInt8} {f : File}, SizedFile (fillFile alloc data f).2 := by
    intro alloc data f
    cases halloc : alloc (requestOf data) with
    | true => rw [fillFile_granted halloc]; exact ⟨fun d hd => by cases hd; rfl⟩
    | false => rw [fillFile_refused halloc]; exact hnone rfl
  induction h with
  | init =>
    intro f hf
    rw [List.eq_of_mem_replicate hf]
    exact hnone rfl
  | @write files _ alloc path data ih =>
    unfold ramfsWriteFile
    split_ifs
    · exact ih
    · exact ih
    · exact ih
    cases findFile files (bare path) with
    | some i => exact hset ih hfill
    | none =>
      cases files.findIdx? fun f => !f.used with
      | none => exact ih
      | some i => exact hset ih hfill
  | @delete files _ path ih =>
    unfold ramfsDeleteFile
    split_ifs
    · exact ih
    cases findFile files (bare path) with
    | none => exact ih
    | some i => exact hset ih (hnone rfl)

section Signed

variable {n : ℕ}

theorem asInt_of_lt (h : n < 2 ^ 31) : asInt n = n := by
  unfold asInt
  rw [Nat.mod_eq_of_lt (by omega), if_pos h, Int.emod_eq_of_lt (by omega) (by omega)]

theorem asInt_of_le (h : 2 ^ 31 ≤ n) (hn : n < 2 ^ 32) : asInt n = n - 2 ^ 32 := by
  unfold asInt
  rw [Nat.mod_eq_of_lt hn, if_neg (Nat.not_lt.mpr h), Int.emod_eq_of_lt (by omega) (by omega)]

theorem asInt_ne_zero (hpos : 0 < n) (hn : n < 2 ^ 32) : asInt n ≠ 0 := by
  rcases Nat.lt_or_ge n (2 ^ 31) with h | h
  · rw [asInt_of_lt h]
    omega
  · rw [asInt_of_le h hn]
    omega

theorem asUnsigned_of_lt {z : ℤ} (hpos : 0 ≤ z) (hz : z < 2 ^ 32) : asUnsigned z = z.toNat := by
  rw [asUnsigned, Int.emod_eq_of_lt hpos hz]

end Signed

variable {terminated : Bool} {c d : List UInt8} {offset len : ℕ}

def partOf (c : List UInt8) (offset len : ℕ) : ℤ × List (Option UInt8) :=
  ((min len (c.length - offset) : ℕ), ((c.drop offset).take len).map some)

/-- Below `2 ^ 31` the part of what the buffer holds is copied. -/
theorem copyPart_low (hoff : offset < 2 ^ 31) (hlen : len < 2 ^ 32) (hd : d.length < 2 ^ 31) :
    copyPart (some d) offset len = partOf d offset len := by
  unfold copyPart partOf
  rw [asInt_of_lt hoff]
  dsimp only
  rw [asInt_of_lt hd]
  by_cases hin : offset < d.length
  · rw [if_pos (by exact_mod_cast hin)]
    have hgot : asUnsigned ((d.length : ℤ) - offset) = d.length - offset := by
      rw [asUnsigned_of_lt (by omega) (by omega)]
      omega
    rw [hgot]
    have hcount : (if len < asUnsigned (asInt (d.length - offset)) then asInt len else asInt
        (d.length - offset)) = ((min len (d.length - offset) : ℕ) : ℤ) := by
      rw [asInt_of_lt (show d.length - offset < 2 ^ 31 by omega), asUnsigned_of_lt (by omega) (by omega)]
      by_cases hcut : len < d.length - offset
      · rw [if_pos (by simpa using hcut), asInt_of_lt (by omega), Nat.min_eq_left hcut.le]
      · rw [if_neg (by simpa using hcut), Nat.min_eq_right (Nat.not_lt.mp hcut)]
    rw [hcount, Int.toNat_natCast]
    refine Prod.ext rfl (List.ext_getElem (by simp) fun i h₁ h₂ => ?_)
    have hi : i < min len (d.length - offset) := by simpa using h₁
    have hmod : (offset + i) % 2 ^ 32 = offset + i := Nat.mod_eq_of_lt (by omega)
    have hget : offset + i < d.length := by omega
    simp only [List.getElem_map, List.getElem_range, List.getElem_take, List.getElem_drop, Option.getD_some]
    rw [hmod, List.getElem?_eq_getElem hget]
  · rw [if_neg (by exact_mod_cast hin), List.drop_eq_nil_of_le (Nat.not_lt.mp hin),
      Nat.sub_eq_zero_of_le (Nat.not_lt.mp hin), Nat.min_zero, List.take_nil]
    rfl

/-- From `2 ^ 31` on the offset is negative, and something is copied whatever the file. -/
theorem copyPart_high (hoff : 2 ^ 31 ≤ offset) (hoff' : offset < 2 ^ 32) (hpos : 0 < len) (hlen : len < 2 ^ 32)
    (hd : d.length < 2 ^ 31) : (copyPart (some d) offset len).1 ≠ 0 := by
  unfold copyPart
  rw [asInt_of_le hoff hoff']
  dsimp only
  have hgot : asUnsigned ((d.length : ℤ) - (offset - 2 ^ 32)) = d.length + (2 ^ 32 - offset) := by
    rw [asUnsigned_of_lt (by omega) (by omega)]
    omega
  rw [asInt_of_lt hd, if_pos (by omega), hgot]
  dsimp only
  split
  · exact asInt_ne_zero hpos hlen
  · exact asInt_ne_zero (by omega) (by omega)

theorem copyPart_none (hoff : offset < 2 ^ 32) : 0 ≤ (copyPart none offset len).1 := by
  unfold copyPart
  dsimp only
  by_cases hneg : asInt offset < -1
  · rw [if_pos hneg]
    have hhigh : 2 ^ 31 ≤ offset := by
      by_contra hlow
      rw [asInt_of_lt (by omega)] at hneg
      omega
    have hgot : asUnsigned (-1 - ((offset : ℤ) - 2 ^ 32)) = 2 ^ 32 - 1 - offset := by
      rw [asUnsigned_of_lt (by omega) (by omega)]
      omega
    have hcount : asUnsigned (((2 ^ 32 - 1 - offset : ℕ) : ℤ)) = 2 ^ 32 - 1 - offset := by
      rw [asUnsigned_of_lt (by omega) (by omega), Int.toNat_natCast]
    rw [asInt_of_le hhigh hoff, hgot, asInt_of_lt (show 2 ^ 32 - 1 - offset < 2 ^ 31 by omega)]
    dsimp only
    rw [hcount]
    split
    · have hsmall := asInt_of_lt (show len < 2 ^ 31 by omega)
      omega
    · omega
  · simp only [if_neg hneg, Int.le_refl]

/-- The answer that a read of a part of a file, or of none, should give. -/
def ReadAtCorrect (file : Option (List UInt8)) (offset len : ℕ) (r : ℤ × List (Option UInt8)) : Prop :=
  match file with
  | none => r.1 < 0
  | some c => r = partOf c offset len

/-- The fallback can answer for the part of the content `c`: it ends inside the first `2 ^ 32`
bytes, and inside the file there is a byte to spare for a terminator. -/
def InReach (terminated : Bool) (c : List UInt8) (offset len : ℕ) : Prop :=
  len = 0 ∨ (offset < 2 ^ 31 ∧
    (c.length ≤ offset ∨ (offset + len < 2 ^ 32 ∧ (terminated = true → c.length < offset + len))))

theorem partOf_beyond (h : c.length ≤ offset) : partOf c offset len = (0, []) := by
  rw [partOf, List.drop_eq_nil_of_le h, Nat.sub_eq_zero_of_le h, Nat.min_zero, List.take_nil]
  rfl

theorem wrapped_le (hlen : len < 2 ^ 32) (hwrap : 2 ^ 32 ≤ offset + len) :
    (offset + len) % 2 ^ 32 ≤ offset := by
  rw [Nat.mod_eq_sub_mod hwrap]
  exact (Nat.mod_le _ _).trans (by omega)

theorem Filled.length_lt {max n : ℕ} (h : Filled terminated c max d) (hc : c.length < n) : d.length < n := by
  cases h with
  | all => exact hc
  | cut => exact (List.length_take_le' ..).trans_lt hc
  | short hpos h _ hr => omega

/-- The buffer gives the part of what was asked when the part is in reach. -/
theorem Filled.part_iff (h : Filled terminated c ((offset + len) % 2 ^ 32) d) (hoff : offset < 2 ^ 31)
    (hpos : 0 < len) (hlen : len < 2 ^ 32) :
    partOf d offset len = partOf c offset len ↔ InReach terminated c offset len := by
  -- bytes beyond the file are in reach, others when the sum does not wrap
  have hreach : InReach terminated c offset len ↔ c.length ≤ offset ∨
      (offset + len < 2 ^ 32 ∧ (terminated = true → c.length < offset + len)) :=
    ⟨fun hr => (hr.resolve_left (by omega)).2, fun hr => Or.inr ⟨hoff, hr⟩⟩
  rw [hreach]
  rcases Nat.lt_or_ge (offset + len) (2 ^ 32) with hfit | hwrap
  · rw [Nat.mod_eq_of_lt hfit] at h
    cases h with
    | all h => exact ⟨fun _ => Or.inr ⟨hfit, fun _ => h⟩, fun _ => rfl⟩
    | cut h hterm =>
      refine ⟨fun _ => Or.inr ⟨hfit, fun ht => absurd (hterm.symm.trans ht) (by decide)⟩, fun _ => ?_⟩
      have hcount : min (offset + len) c.length - offset = len := by omega
      rw [partOf, partOf, List.drop_take, List.take_take, List.length_take, hcount]
      simp only [Nat.add_sub_cancel_left, Nat.min_self]
      rw [Nat.min_eq_left (by omega)]
    | short hpos' h hterm hd =>
      refine ⟨fun heq => ?_, fun hr => ?_⟩
      · have hcount := congrArg Prod.fst heq
        simp only [partOf, hd] at hcount
        omega
      · rcases hr with hr | ⟨-, hr⟩
        · omega
        · exact absurd (hr hterm) (Nat.not_lt.mpr h)
  · have hle := wrapped_le hlen hwrap
    have hbeyond : d.length ≤ offset := by
      cases h with
      | all h => exact h.le.trans hle
      | cut h => exact (List.length_take_le ..).trans hle
      | short _ h _ hd => omega
    have hiff : partOf d offset len = partOf c offset len ↔ c.length ≤ offset := by
      rw [partOf_beyond hbeyond]
      refine ⟨fun heq => ?_, fun hc => (partOf_beyond hc).symm⟩
      have hcount := congrArg Prod.fst heq
      simp only [partOf] at hcount
      omega
    rw [hiff]
    exact ⟨Or.inl, fun hr => hr.resolve_right fun hfit => by omega⟩

/-- Without `read_file_at`, a part of a file is read as it should be exactly when there is a file
and the part is in reach. -/
theorem vfsReadAt_iff {mounts : List Mount} {ops : ℕ → ReadOps} {alloc : ℕ → Bool} {cwd path sub : Str} {i : ℕ}
    {read : Str → ℕ → Option (List UInt8)} (terminated : Bool) (file : Option (List UInt8)) (offset len : ℕ)
    (hroute : resolveRoute mounts cwd path 256 = some (i, sub)) (hnative : (ops i).readFileAt = none)
    (hop : (ops i).readFile = some read) (hoff : offset < 2 ^ 32) (hlen : len < 2 ^ 32)
    (halloc : alloc ((offset + len) % 2 ^ 32) = true)
    (hread : Reads terminated file ((offset + len) % 2 ^ 32) (read sub ((offset + len) % 2 ^ 32)))
    (hsize : ∀ c ∈ file, c.length < 2 ^ 31) :
    ReadAtCorrect file offset len (vfsReadAt mounts ops alloc cwd path offset len) ↔
      ∃ c, file = some c ∧ InReach terminated c offset len := by
  have hrun : vfsReadAt mounts ops alloc cwd path offset len =
      if len = 0 then (0, []) else copyPart (read sub ((offset + len) % 2 ^ 32)) offset len := by
    simp only [vfsReadAt, hroute, hnative, hop, halloc, if_true]
  rw [hrun]
  cases file with
  | none =>
    have hnone : read sub ((offset + len) % 2 ^ 32) = none := hread
    refine ⟨fun hneg => ?_, fun hex => absurd hex.choose_spec.1 nofun⟩
    rw [hnone, ReadAtCorrect] at hneg
    split at hneg
    · exact absurd hneg (Int.lt_irrefl 0)
    · exact absurd hneg (Int.not_lt.mpr (copyPart_none hoff))
  | some c =>
    obtain ⟨d, hd, hfill⟩ := hread
    have hc : c.length < 2 ^ 31 := hsize c rfl
    have hiff : ReadAtCorrect (some c) offset len (if len = 0 then (0, []) else copyPart (some d) offset len) ↔
        InReach terminated c offset len := by
      by_cases hzero : len = 0
      · rw [if_pos hzero, hzero]
        exact ⟨fun _ => Or.inl rfl, fun _ => by simp [ReadAtCorrect, partOf]⟩
      rw [if_neg hzero, ReadAtCorrect]
      have hpos : 0 < len := Nat.pos_of_ne_zero hzero
      rcases Nat.lt_or_ge offset (2 ^ 31) with hlow | hhigh
      · rw [copyPart_low hlow hlen (hfill.length_lt hc)]
        exact hfill.part_iff hlow hpos hlen
      · refine ⟨fun heq => ?_, fun hr => absurd (hr.resolve_left hzero).1 (Nat.not_lt.mpr hhigh)⟩
        rw [partOf_beyond (by omega)] at heq
        exact absurd (congrArg Prod.fst heq) (copyPart_high hhigh hoff hpos hlen (hfill.length_lt hc))
    rw [hd, hiff]
    refine ⟨fun h => ⟨c, rfl, h⟩, ?_⟩
    rintro ⟨_, hsome, h⟩
    exact Option.some.inj hsome ▸ h

def ramfsReadOps (files : List File) : ReadOps where
  readFile := some (ramfsReadFile files)
  readFileAt := none

/-- A part of the file `/t/f`, and of a file that is not there. -/
theorem vfsReadAt_one :
    (ReadAtCorrect (some [7]) 0 4 (vfsReadAt twoMounts (fun _ => ramfsReadOps ramfsOne) (fun _ => true) [slash]
        [slash, 116, slash, 102] 0 4) ↔ ∃ c, some [7] = some c ∧ InReach false c 0 4) ∧
    (ReadAtCorrect none 0 4 (vfsReadAt twoMounts (fun _ => ramfsReadOps ramfsOne) (fun _ => true)
        [slash] [slash, 116, slash, 103] 0 4) ↔ ∃ c, none = some c ∧ InReach false c 0 4) := by
  have hreads : ∀ path, isRoot path = false →
      Reads false ((findFile ramfsOne (bare path)).bind fun i => (ramfsOne.getD i default).data) 4
        (ramfsReadFile ramfsOne path 4) := fun _ => ramfsReadFile_reads (reached_sized (.write .init _ _ _)) 4
  constructor
  · exact @vfsReadAt_iff _ _ _ _ _ [slash, 102] 1 _ false (some [7]) 0 4 (by decide) rfl rfl (by decide) (by decide) rfl
      (hreads [slash, 102] (by decide)) (by simp)
  · exact @vfsReadAt_iff _ _ _ _ _ [slash, 103] 1 _ false none 0 4 (by decide) rfl rfl (by decide) (by decide) rfl
      (hreads [slash, 103] (by decide)) (by simp)

/-- Of a missing file the fallback reads 0 bytes; at the offset `2 ^ 32 - 4` it copies bytes that
nothing filled. -/
theorem vfsReadAt_fails :
    ¬ ReadAtCorrect none 0 1 (vfsReadAt twoMounts (fun _ => ramfsReadOps ramfsOne) (fun _ => true)
      [slash] [slash, 116, slash, 103] 0 1) ∧
    vfsReadAt twoMounts (fun _ => ramfsReadOps ramfsOne) (fun _ => true) [slash]
      [slash, 116, slash, 102] (2 ^ 32 - 4) 8 = (5, [none, none, none, none, some 7]) ∧
    ¬ ReadAtCorrect (some [7]) (2 ^ 32 - 4) 8 (vfsReadAt twoMounts (fun _ => ramfsReadOps ramfsOne) (fun _ => true)
      [slash] [slash, 116, slash, 102] (2 ^ 32 - 4) 8) := by
  have hmissing : vfsReadAt twoMounts (fun _ => ramfsReadOps ramfsOne) (fun _ => true) [slash] [slash, 116, slash, 103]
      0 1 = (0, []) := by decide
  have hstray : vfsReadAt twoMounts (fun _ => ramfsReadOps ramfsOne) (fun _ => true) [slash] [slash, 116, slash, 102]
      (2 ^ 32 - 4) 8 = (5, [none, none, none, none, some 7]) := by decide
  refine ⟨?_, hstray, ?_⟩
  · rw [hmissing]
    exact Int.lt_irrefl 0
  · rw [hstray]
    intro h
    exact absurd (congrArg Prod.fst (show ((5 : ℤ), _) = partOf [7] (2 ^ 32 - 4) 8 from h)) (by decide)

end ComputerOS.Vfs
