import ComputerOS.Tar.Progress
import ComputerOS.Tar.Contain
import Mathlib.Algebra.Order.BigOperators.Group.List
import Mathlib.Algebra.Order.Ring.Nat

/-!
What an archive says, and that extraction does it. A well-formed archive is a chain of headers with
their data up to two zero blocks; the walk meets its entries one after the other. Each entry has its
directories made, and is written under the destination; the root, which is always there, is not
made.
-/
namespace ComputerOS.Tar

open ComputerOS.Path Vfs

inductive Kind
  | file
  | hardLink
  | symLink
  | dir
deriving DecidableEq, Repr

def Kind.flag : Kind → UInt8
  | file => 48
  | hardLink => 49
  | symLink => 50
  | dir => 53

def Kind.isLink : Kind → Bool
  | hardLink | symLink => true
  | file | dir => false

structure Entry where
  kind : Kind
  name : Str
  link : Str
  data : Str
deriving DecidableEq, Repr

/-- What is written for a file or a link. -/
def Entry.content (e : Entry) : Str := if e.kind.isLink = true ∧ e.data = [] then e.link else e.data

/-- The field begins with octal digits for `n`, and what follows is no digit. -/
def OctalField (field : Str) (n : ℕ) : Prop :=
  ∃ digits rest, field = digits ++ rest ∧ (∀ c ∈ digits, 48 ≤ c ∧ c ≤ 55) ∧
    (∀ c, rest.head? = some c → ¬ (48 ≤ c ∧ c ≤ 55)) ∧ digits.foldl (fun v c => v * 8 + (c.toNat - 48)) 0 = n

/-- The sum of the bytes of a header, with its checksum as spaces. -/
def checksum (img : Image) (pos : ℕ) : ℕ :=
  ((List.range TAR_BLOCK).map fun i => if 148 ≤ i ∧
  i < 156 then 32 else (img.byte (pos + i)).toNat).sum

/-- A valid header with its type and the size of its data. -/
structure Header (img : Image) (pos : ℕ) (flag : UInt8) (size : ℕ) : Prop where
  flag : img.byte (pos + 156) = flag
  size : OctalField (img.bytes (pos + 124) 12) size
  checksum : OctalField (img.bytes (pos + 148) 8) (checksum img pos)

/-- The position behind a header and its data. -/
def behind (pos size : ℕ) : ℕ := pos + TAR_BLOCK + (size + 511) / TAR_BLOCK * TAR_BLOCK

/-- The header holds the path, as a plain name or as one with a prefix. -/
def StoresPath (img : Image) (pos : ℕ) (path : Str) : Prop :=
  (img.bytes (pos + 257) 5 ≠ [117, 115, 116, 97, 114] ∧ path.length ≤ 99 ∧ Holds (img.bytes pos 100) path) ∨
    ∃ pre name link, UstarHeader img pos pre name link ∧ name.length ≤ 99 ∧ path = ustarPath pre name

/-- An entry, but for its name. -/
structure Stored (img : Image) (pos : ℕ) (e : Entry) : Prop where
  header : Header img pos e.kind.flag e.data.length
  data : img.bytes (pos + TAR_BLOCK) e.data.length = e.data
  link : e.kind.isLink = true → Holds (img.bytes (pos + 157) 100) e.link ∧ e.link.length ≤ 99
  dir : e.kind = .dir → e.data = []

/-- From `pos` on the archive consists of these entries. -/
inductive Archive (img : Image) : ℕ → List Entry → Prop
  | finish {pos : ℕ} : (∀ i < 2 * TAR_BLOCK, img.byte (pos + i) = 0) →
      pos + 2 * TAR_BLOCK ≤ img.size → Archive img pos []
  | entry {pos : ℕ} {e : Entry} {es : List Entry} : StoresPath img pos e.name → Stored img pos e →
      Archive img (behind pos e.data.length) es → Archive img pos (e :: es)
  -- the name is in the data of the block before
  | long {pos size : ℕ} {e : Entry} {es : List Entry} : Header img pos 76 size →
      Holds (img.bytes (pos + TAR_BLOCK) size) e.name → e.name.length ≤ 510 → Stored img (behind pos size) e →
      Archive img (behind (behind pos size) e.data.length) es → Archive img pos (e :: es)
  | pax {pos size : ℕ} {flag : UInt8} {es : List Entry} : flag = 103 ∨ flag = 120 →
      Header img pos flag size → Archive img (behind pos size) es → Archive img pos es

variable {img : Image} {pos size k n : ℕ} {flag : UInt8} {name dst field : Str} {w : Walk} {e : Entry} {es : List Entry}

theorem le_behind (pos size : ℕ) : pos ≤ behind pos size := by
  unfold behind
  omega

theorem Archive.room (h : Archive img pos es) : pos + 2 * TAR_BLOCK ≤ img.size := by
  induction h with
  | finish _ hroom => exact hroom
  | entry _ _ _ ih => exact (Nat.add_le_add_right (le_behind _ _) _).trans ih
  | long _ _ _ _ _ ih => exact (Nat.add_le_add_right ((le_behind _ _).trans (le_behind _ _)) _).trans ih
  | pax _ _ _ ih => exact (Nat.add_le_add_right (le_behind _ _) _).trans ih

theorem le_octal (digits : Str) (v : ℕ) : v ≤ digits.foldl (fun v c => v * 8 + (c.toNat - 48)) v := by
  induction digits generalizing v with
  | nil => exact le_rfl
  | cons c digits ih =>
    have hstep : v ≤ v * 8 + (c.toNat - 48) := by omega
    exact hstep.trans (ih _)

/-- Reading an octal field whose number fits 32 bits. -/
theorem octalToUint_eq (h : OctalField field n) (hn : n < 2 ^ 32) : octalToUint field = n := by
  obtain ⟨digits, rest, rfl, hdigits, hrest, hvalue⟩ := h
  have htake : (digits ++ rest).takeWhile (fun c => decide (48 ≤ c ∧ c ≤ 55)) = digits := by
    rw [List.takeWhile_append_of_pos fun c hc => decide_eq_true (hdigits c hc)]
    cases rest with
    | nil => rw [List.takeWhile_nil, List.append_nil]
    | cons c rest => rw [List.takeWhile_cons_of_neg (by simpa using hrest c rfl), List.append_nil]
  have hfold : ∀ v, digits.foldl (fun v c => v * 8 + (c.toNat - 48)) v < 2 ^ 32 →
      digits.foldl (fun v c => v * 8 % 2 ^ 32 + (c.toNat - 48)) v =
        digits.foldl (fun v c => v * 8 + (c.toNat - 48)) v := by
    clear htake hvalue hdigits
    induction digits with
    | nil => exact fun v _ => rfl
    | cons c digits ih =>
      intro v hv
      have hle := le_octal digits (v * 8 + (c.toNat - 48))
      rw [List.foldl_cons] at hv
      have hmod : v * 8 % 2 ^ 32 = v * 8 := Nat.mod_eq_of_lt (by omega)
      rw [List.foldl_cons, List.foldl_cons, hmod]
      exact ih _ hv
  rw [octalToUint, htake, hfold 0 (by rwa [hvalue]), hvalue]

theorem checksum_lt (img : Image) (pos : ℕ) : checksum img pos < 2 ^ 32 := by
  refine lt_of_le_of_lt (List.sum_le_card_nsmul _ 255 fun x hx => ?_) ?_
  · obtain ⟨i, -, rfl⟩ := List.mem_map.mp hx
    split
    · decide
    · have := (img.byte (pos + i)).toNat_lt
      omega
  · rw [List.length_map, List.length_range]
    decide

section Round

variable (h : Header img w.pos flag size) (hflag : flag ≠ 0) (hroom : behind w.pos size ≤ img.size)
  (himg : img.size < 2 ^ 31)

include h hflag hroom himg

theorem step_header : step img w =
    (let next : Walk := { pos := behind w.pos size, entries := w.entries }
    if flag = 76 then
      some ({ next with longname := some (cstr 511 (img.bytes (w.pos + TAR_BLOCK) (min size 511))) }, none)
    else if flag = 75 then
      some ({ next with longlink := some (cstr 511 (img.bytes (w.pos + TAR_BLOCK) (min size 511))) }, none)
    else if flag = 103 ∨ flag = 120 then some (next, none)
    else if flag = 53 then some ({ pos := w.pos + TAR_BLOCK, entries := w.entries + 1 }, some (.dir (entryName img w)))
    else if flag = 48 ∨ flag = 49 ∨ flag = 50 then
      some ({ next with entries := w.entries + 1 }, some (.file (entryName img w)
        (if (flag = 49 ∨ flag = 50) ∧ size = 0 ∧ linkTarget img w ≠ [] then linkTarget img w
          else img.bytes (w.pos + TAR_BLOCK) size)))
    else some (next, none)) := by
  have hbehind : w.pos + TAR_BLOCK + size ≤ behind w.pos size := by
    unfold behind TAR_BLOCK
    omega
  have hpos : (w.pos + TAR_BLOCK) % 2 ^ 32 = w.pos + TAR_BLOCK := Nat.mod_eq_of_lt (by omega)
  have hin : ¬ img.size < w.pos + TAR_BLOCK := by omega
  have hzero : ¬ blockIsZero img w.pos = true := by
    intro hz
    have hmem : img.byte (w.pos + 156) ∈ img.bytes w.pos TAR_BLOCK :=
      List.mem_map.mpr ⟨156, List.mem_range.mpr (by decide), rfl⟩
    exact hflag (h.flag ▸ of_decide_eq_true (List.all_eq_true.mp hz _ hmem))
  have hsum : ¬ checksumOk img w.pos = false := by
    rw [Bool.not_eq_false, checksumOk, decide_eq_true_eq, octalToUint_eq h.checksum (checksum_lt img w.pos)]
    rfl
  have hsize : fileSize img w.pos = size := octalToUint_eq h.size (by omega)
  have htype : typeflag img w.pos = flag := by rw [typeflag, h.flag, if_neg hflag]
  have hpad : (w.pos + TAR_BLOCK + padded size) % 2 ^ 32 = behind w.pos size := by
    have hnext : w.pos + TAR_BLOCK + padded size = behind w.pos size := by
      unfold padded behind TAR_BLOCK at *
      omega
    rw [hnext]
    exact Nat.mod_eq_of_lt (by omega)
  rw [step_eq]
  dsimp only
  rw [hpos, if_neg hin, if_neg hzero, if_neg hsum, hsize, htype, hpad]

end Round

theorem buildName_of_stores (h : StoresPath img pos name) : buildName img pos = name := by
  obtain ⟨hmagic, hlen, hfield⟩ | ⟨pre, short, link, hheader, hlen, rfl⟩ := h
  · rw [buildName, if_neg fun hc => hmagic hc.1, cstr_eq_take hfield, List.take_of_length_le hlen]
  · rw [buildName_eq hheader, ustarPath, List.take_of_length_le hlen]

theorem take_bytes (n m : ℕ) : (img.bytes pos n).take m = img.bytes pos (min m n) := by
  rw [Image.bytes, ← List.map_take, List.take_range, Image.bytes]

/-- What the walk makes of an entry. -/
def Entry.member (e : Entry) : Member := if e.kind = .dir then .dir e.name else .file e.name e.content

theorem step_entry (h : Stored img w.pos e) (hname : entryName img w = e.name) (hlink : w.longlink = none)
    (hroom : behind w.pos e.data.length ≤ img.size) (himg : img.size < 2 ^ 31) :
    step img w = some ({ pos := behind w.pos e.data.length, entries := w.entries + 1 }, some e.member) := by
  have hflag : e.kind.flag ≠ 0 := by cases e.kind <;> decide
  have hisLink : (e.kind.flag = 49 ∨ e.kind.flag = 50) ↔ e.kind.isLink = true := by cases e.kind <;> decide
  -- an empty link has its target as content
  have hcontent : (if (e.kind.flag = 49 ∨ e.kind.flag = 50) ∧ e.data.length = 0 ∧
      linkTarget img w ≠ [] then linkTarget img w else e.data) = e.content := by
    unfold Entry.content
    by_cases hempty : e.kind.isLink = true ∧ e.data = []
    · have htarget : linkTarget img w = e.link := by
        rw [linkTarget, hlink]
        exact (cstr_eq_take (h.link hempty.1).1 99).trans (List.take_of_length_le (h.link hempty.1).2)
      rw [if_pos hempty, htarget, hempty.2]
      by_cases hnone : e.link = []
      · rw [if_neg fun hc => hc.2.2 hnone, hnone]
      · rw [if_pos ⟨hisLink.mpr hempty.1, rfl, hnone⟩]
    · rw [if_neg hempty, if_neg fun hc => hempty ⟨hisLink.mp hc.1, List.length_eq_zero_iff.mp hc.2.1⟩]
  rw [step_header h.header hflag hroom himg, hname, h.data, hcontent]
  by_cases hdir : e.kind = .dir
  · have hbehind : behind w.pos e.data.length = w.pos + TAR_BLOCK := by
      rw [h.dir hdir]
      exact Nat.add_zero _
    rw [hbehind, Entry.member, if_pos hdir, hdir]
    rfl
  · rw [Entry.member, if_neg hdir]
    cases hkind : e.kind with
    | dir => exact absurd hkind hdir
    | file => rfl
    | hardLink => rfl
    | symLink => rfl

/-- The number of entries that `tar_process` returns, if its loop ends within `n` rounds. -/
def tarEntries (img : Image) : ℕ → Walk → Option ℕ
  | 0, _ => none
  | n + 1, w => (step img w).elim (some w.entries) fun r => tarEntries img n r.1

theorem walk_next {w' : Walk} {m : Option Member} {ms : List Member} {c : ℕ} (hstep : step img w = some (w', m))
    (h : ∀ r, n ≤ r → members img r w' = ms ∧ tarEntries img r w' = some c) :
    ∀ r, n + 1 ≤ r → members img r w = m.toList ++ ms ∧ tarEntries img r w = some c := by
  intro r hr
  obtain ⟨r, rfl⟩ : ∃ j, r = j + 1 := ⟨r - 1, by omega⟩
  obtain ⟨hmembers, hentries⟩ := h r (by omega)
  rw [members, tarEntries, hstep, Option.elim_some, Option.elim_some, hmembers, hentries]
  exact ⟨rfl, rfl⟩

theorem archive_walk (h : Archive img pos es) (himg : img.size < 2 ^ 31) (k : ℕ) : ∃ n, ∀ m, n ≤ m →
    members img m { pos := pos, entries := k } = es.map Entry.member ∧
      tarEntries img m { pos := pos, entries := k } = some (k + es.length) := by
  induction h generalizing k with
  | @finish pos hzero hroom =>
    refine ⟨2, fun r hr => ?_⟩
    obtain ⟨r, rfl⟩ : ∃ j, r = j + 2 := ⟨r - 2, by omega⟩
    have hblock : ∀ i, i + TAR_BLOCK ≤ 2 * TAR_BLOCK → blockIsZero img (pos + i) = true := by
      intro i hi
      refine List.all_eq_true.mpr fun b hb => ?_
      obtain ⟨j, hj, rfl⟩ := List.mem_map.mp hb
      rw [Nat.add_assoc]
      exact decide_eq_true (hzero (i + j) (by have := List.mem_range.mp hj; omega))
    have hblock0 : blockIsZero img pos = true := hblock 0 (by decide)
    have hfirst : step img { pos := pos, entries := k } =
        some ({ pos := pos + TAR_BLOCK, entries := k, zeroBlocks := 1 }, none) := by
      rw [step_eq]
      dsimp only
      rw [Nat.mod_eq_of_lt (by omega), if_neg (by omega), if_pos hblock0, if_neg (by decide)]
    have hsecond : step img { pos := pos + TAR_BLOCK, entries := k, zeroBlocks := 1 } = none := by
      rw [step_eq]
      dsimp only
      rw [Nat.mod_eq_of_lt (by omega), if_neg (by omega), if_pos (hblock TAR_BLOCK (by decide)), if_pos (by decide)]
    rw [members, tarEntries, hfirst, Option.elim_some, Option.elim_some, members, tarEntries, hsecond]
    exact ⟨rfl, rfl⟩
  | @entry pos e es hname hstored hrest ih =>
    have hroom : behind pos e.data.length ≤ img.size := le_trans (Nat.le_add_right _ _) hrest.room
    have hstep := step_entry (w := { pos := pos, entries := k }) hstored (buildName_of_stores hname) rfl hroom himg
    obtain ⟨n, hn⟩ := ih (k + 1)
    rw [List.length_cons, Nat.add_comm es.length, ← Nat.add_assoc]
    exact ⟨n + 1, walk_next hstep hn⟩
  | @long pos size e es hheader hname hlen hstored hrest ih =>
    have hroom : behind (behind pos size) e.data.length ≤ img.size := le_trans (Nat.le_add_right _ _) hrest.room
    have hcopied : cstr 511 (img.bytes (pos + TAR_BLOCK) (min size 511)) = e.name := by
      rw [Nat.min_comm, ← take_bytes, cstr, List.take_take, Nat.min_self]
      exact (cstr_eq_take hname 511).trans (List.take_of_length_le (by omega))
    have hfirst := step_header (w := { pos := pos, entries := k }) hheader (by decide)
      ((le_behind _ _).trans hroom) himg
    have hsecond := step_entry (w := { pos := behind pos size, entries := k, longname := some e.name }) hstored rfl rfl
      hroom himg
    dsimp only at hfirst
    rw [if_pos rfl, hcopied] at hfirst
    obtain ⟨n, hn⟩ := ih (k + 1)
    rw [List.length_cons, Nat.add_comm es.length, ← Nat.add_assoc]
    exact ⟨n + 1 + 1, walk_next hfirst (walk_next hsecond hn)⟩
  | @pax pos size flag es hflag hheader hrest ih =>
    have hroom : behind pos size ≤ img.size := le_trans (Nat.le_add_right _ _) hrest.room
    have hstep : step img { pos := pos, entries := k } = some ({ pos := behind pos size, entries := k }, none) := by
      have hround := step_header (w := { pos := pos, entries := k }) hheader
        (by obtain rfl | rfl := hflag <;> decide) hroom himg
      obtain rfl | rfl := hflag <;> exact hround
    obtain ⟨n, hn⟩ := ih k
    exact ⟨n + 1, walk_next hstep hn⟩

/-- What an entry is extracted to, before it is cut to its buffer. -/
def target (dst name : Str) : Str := strip (strip dst ++ slash :: name.dropWhile (· = slash))

/-- The names on the way to what a path resolves to. -/
def resolved (p : Str) : List Str := normalise dot [] (components slash p)

variable {s t : Str}

theorem strip_append_replicate (hne : s ≠ []) (k : ℕ) : strip (s ++ List.replicate k slash) = strip s := by
  induction k with
  | zero => rw [List.replicate_zero, List.append_nil]
  | succ k ih =>
    have hne' : s ++ List.replicate k slash ≠ [] := fun h => hne (List.append_eq_nil_iff.mp h).1
    rw [List.replicate_succ', ← List.append_assoc, strip_concat hne', ih]

theorem strip_strip (s : Str) : strip (strip s) = strip s := by
  obtain ⟨k, -, hend | hend, -⟩ := strip_spec s
  · match strip s, hend with
    | [], _ => rfl
    | [c], _ => rfl
  · exact strip_of_getLast hend

/-- A path that is cut behind its last component only loses slashes. -/
theorem strip_take (hne : s ≠ []) (hlen : (strip s).length ≤ n) : strip (s.take n) = strip s := by
  obtain ⟨k, hs, -, hne'⟩ := strip_spec s
  have htake : s.take n = strip s ++ List.replicate (min (n - (strip s).length) k) slash := by
    conv_lhs => rw [hs]
    rw [List.take_append, List.take_of_length_le hlen, List.take_replicate]
  rw [htake, strip_append_replicate (hne' hne), strip_strip]

theorem length_le_of_append {d r : Str} {j : ℕ} (hd : d.length ≤ 1 ∨ d.getLast? ≠ some slash) (ht : t ≠ [])
    (h : d ++ r = t ++ List.replicate j slash) : d.length ≤ t.length := by
  have hpos := List.length_pos_iff.mpr ht
  by_contra hlt
  obtain hd | hd := hd
  · omega
  have hlen := congrArg List.length h
  rw [List.length_append, List.length_append, List.length_replicate] at hlen
  have hlast := congrArg (fun l : Str => l[d.length - 1]?) h
  rw [List.getElem?_append_left (by omega), List.getElem?_append_right (by omega),
    List.getElem?_replicate_of_lt (by omega), ← List.getLast?_eq_getElem?] at hlast
  exact hd hlast

variable (hdst : dst.head? = some slash)

include hdst

theorem strip_dst_ne_nil : strip dst ≠ [] := by
  obtain ⟨-, -, -, hne⟩ := strip_spec dst
  refine hne fun h => ?_
  rw [h] at hdst
  cases hdst

theorem joinPath_eq (hfit : (target dst name).length ≤ 255) : joinPath dst name 256 = target dst name := by
  have hne : strip dst ++ slash :: name.dropWhile (· = slash) ≠ [] := by simp
  have hlen : (strip dst).length ≤ 255 := by
    obtain ⟨j, hj, -, hne'⟩ := strip_spec (strip dst ++ slash :: name.dropWhile (· = slash))
    obtain ⟨-, -, hend, -⟩ := strip_spec dst
    exact (length_le_of_append hend (hne' hne) hj).trans hfit
  have hdst' : dst ≠ [] := fun h => by rw [h] at hdst; cases hdst
  have hcut : target dst name = strip ((strip dst ++ slash :: name.dropWhile (· = slash)).take 255) :=
    (strip_take hne hfit).symm
  unfold joinPath
  dsimp only [Nat.add_one_sub_one]
  rw [strip_take hdst' hlen, hcut, List.take_append, List.take_of_length_le hlen]
  by_cases hfull : (strip dst).length < 255
  · obtain ⟨k, hk⟩ : ∃ k, 255 - (strip dst).length = k + 1 := ⟨254 - (strip dst).length, by omega⟩
    have hk' : 255 - (strip dst ++ [slash]).length = k := by
      rw [List.length_append, List.length_singleton]
      omega
    rw [if_pos hfull, hk, hk', List.take_succ_cons, List.append_assoc, List.singleton_append]
  · have hk : 255 - (strip dst).length = 0 := by omega
    rw [if_neg hfull, hk, List.take_zero, List.take_zero]

theorem target_head (name : Str) : (target dst name).head? = some slash := by
  rw [target, head?_strip, List.head?_append_of_ne_nil _ (strip_dst_ne_nil hdst), head?_strip, hdst]

omit hdst

theorem components_dropWhile (s : Str) : components slash (s.dropWhile (· = slash)) = components slash s := by
  induction s with
  | nil => rfl
  | cons c s ih =>
    by_cases hc : c = slash
    · rw [List.dropWhile_cons_of_pos (by simpa using hc), ih, hc, components_sep_cons]
    · rw [List.dropWhile_cons_of_neg (by simpa using hc)]

theorem components_target (dst name : Str) : components slash (target dst name) = components slash
    (dst ++ slash :: name) := by
  rw [target, components_strip, components_append_sep, components_append_sep, components_strip, components_dropWhile]

/-- The calls for an entry: for every directory above it, but the root, there is a path to it that
is made; then the entry itself is made or written. -/
def Extracts (dst : Str) (e : Entry) (calls : List Call) : Prop :=
  let place := dst ++ slash :: e.name
  ∃ dirs : List Str, (∀ P, P <+: resolved place → P ≠ resolved place → P ≠ [] → ∃ q ∈ dirs,
  resolved q = P) ∧
    if e.kind = .dir then calls = dirs.map .mkdir ∧
      (components slash place ≠ [] → ∃ q ∈ dirs, resolved q = resolved place)
    else ∃ path, calls = dirs.map .mkdir ++ [.write path e.content] ∧ resolved path = resolved place

/-- A directory above the destination's entry is reached by some first components, but not by all.
-/
theorem above_place {P : List Str} (h : P <+: resolved (dst ++ slash :: name))
    (hne : P ≠ resolved (dst ++ slash :: name)) :
    ∃ ds, ds <+: (components slash (target dst name)).dropLast ∧ normalise dot [] ds = P := by
  rw [resolved, ← components_target] at h hne
  obtain ⟨ds, hds, hnorm⟩ := exists_prefix_normalise h
  refine ⟨ds, prefix_dropLast hds (lt_of_le_of_ne hds.length_le fun hlen => hne ?_), hnorm⟩
  rw [← hds.eq_of_length hlen, hnorm]

section Place

variable (hdst : dst.head? = some slash) (hfit : (target dst name).length ≤ 255)

include hdst hfit

/-- Everything on the way to a joined path is made by `mkdir_p`. -/
theorem mkdirP_target {ds : List Str} (hds : ds <+: components slash (target dst name)) (hne : ds ≠ []) :
    ∃ q ∈ mkdirP (target dst name), resolved q = normalise dot [] ds := by
  obtain ⟨q, hq, hcomp⟩ := mkdirP_mem (target_head hdst name) hfit hds hne
  exact ⟨q, hq, by rw [resolved, hcomp]⟩

/-- Everything above a joined path is made before it is written. -/
theorem mkdirParents_target {ds : List Str}
    (hds : ds <+: (components slash (target dst name)).dropLast) (hne : ds ≠ []) :
    ∃ q ∈ mkdirParents (target dst name), resolved q = normalise dot [] ds := by
  obtain ⟨-, -, hend, -⟩ := strip_spec (strip dst ++ slash :: name.dropWhile (· = slash))
  unfold mkdirParents
  obtain ⟨par, b, hpar, hhead, heq, hcomp⟩ | ⟨-, hnil⟩ := parentOf_spec (target_head hdst name) hend
  · have hlen : par.length ≤ 255 := by
      rw [heq, List.length_append] at hfit
      omega
    rw [← hcomp] at hds
    obtain ⟨q, hq, hqcomp⟩ := mkdirP_mem hhead hlen hds hne
    rw [hpar]
    exact ⟨q, hq, by rw [resolved, hqcomp]⟩
  · rw [hnil] at hds
    exact absurd (List.prefix_nil.mp hds) hne

end Place

/-- What is done for an entry whose joined path fits. -/
theorem dispatch_extracts (hdst : dst.head? = some slash) (hfit : (target dst e.name).length ≤ 255) :
    Extracts dst e (dispatch dst e.member) := by
  have hplace : resolved (target dst e.name) = resolved (dst ++ slash :: e.name) := by
    rw [resolved, resolved, components_target]
  have hnil : ∀ ds : List Str, normalise dot [] ds ≠ [] → ds ≠ [] := fun ds h hds => h (by rw [hds]; rfl)
  unfold Entry.member
  by_cases hdir : e.kind = .dir
  · rw [if_pos hdir, dispatch, joinPath_eq hdst hfit]
    refine ⟨mkdirP (target dst e.name), fun P hP hlt hne => ?_, ?_⟩
    · obtain ⟨ds, hds, rfl⟩ := above_place hP hlt
      exact mkdirP_target hdst hfit (hds.trans (List.dropLast_prefix _)) (hnil ds hne)
    · rw [if_pos hdir]
      refine ⟨rfl, fun hne => ?_⟩
      rw [← components_target] at hne
      obtain ⟨q, hq, hres⟩ := mkdirP_target hdst hfit List.prefix_rfl hne
      exact ⟨q, hq, hres.trans hplace⟩
  · rw [if_neg hdir, dispatch, joinPath_eq hdst hfit]
    refine ⟨mkdirParents (target dst e.name), fun P hP hlt hne => ?_, ?_⟩
    · obtain ⟨ds, hds, rfl⟩ := above_place hP hlt
      exact mkdirParents_target hdst hfit hds (hnil ds hne)
    · rw [if_neg hdir]
      exact ⟨target dst e.name, rfl, hplace⟩

/-- A well-formed archive is extracted entry by entry: each file or link is written once, with its
bytes and under the destination, after the directories above it have been made; each directory is
made; and the entries are counted. -/
theorem extraction_faithful (himg : img.size < 2 ^ 31) (h : Archive img 0 es) (hdst : dst.head? = some slash)
    (hfit : ∀ e ∈ es, (target dst e.name).length ≤ 255) : ∃ n, ∀ r, n ≤ r → tarEntries img r {} = some es.length ∧
      ∃ calls, tarProcess img dst true r = calls.flatten ∧ List.Forall₂ (Extracts dst) es calls := by
  obtain ⟨n, hn⟩ := archive_walk h himg 0
  refine ⟨n, fun r hr => ?_⟩
  obtain ⟨hmembers, hentries⟩ := hn r hr
  refine ⟨by rw [hentries, Nat.zero_add], es.map fun e => dispatch dst e.member, ?_, ?_⟩
  · rw [tarProcess, if_pos rfl, hmembers, List.flatMap_map, List.flatMap_def]
  · rw [List.forall₂_map_right_iff, List.forall₂_same]
    exact fun e he => dispatch_extracts hdst (hfit e he)

theorem octalField_of_zeros (digits : Str) (k : ℕ) {v : ℕ} (hfield : field = digits ++ List.replicate k 0)
    (hdigits : (digits.all fun c => decide (48 ≤ c ∧ c ≤ 55)) = true)
    (hvalue : digits.foldl (fun v c => v * 8 + (c.toNat - 48)) 0 = v) :
    OctalField field v := by
  refine ⟨digits, List.replicate k 0, hfield, by simpa using hdigits, fun c hc => ?_, hvalue⟩
  obtain rfl := List.eq_of_mem_replicate (List.mem_of_head? hc)
  decide

/-- An archive of one directory, whose name is a slash. -/
def slashDir : Image where
  byte := fun i =>
    if i = 0 then 47
    else if 148 ≤ i ∧ i < 151 then [53, 52, 52].getD (i - 148) 0
    else if i = 156 then 53
    else 0
  size := 1536

theorem slashDir_zero {i : ℕ} (h : 157 ≤ i) : slashDir.byte i = 0 := by
  simp only [slashDir]
  rw [if_neg (by omega), if_neg (by omega), if_neg (by omega)]

theorem slashDir_archive : Archive slashDir 0 [⟨.dir, [slash], [], []⟩] := by
  have hsize : OctalField (slashDir.bytes 124 12) 0 :=
    octalField_of_zeros [] 12 (by decide +kernel) (by decide) rfl
  have hsum : OctalField (slashDir.bytes 148 8) (checksum slashDir 0) :=
    octalField_of_zeros [53, 52, 52] 5 (by decide +kernel) (by decide) (by decide +kernel)
  refine .entry (Or.inl ⟨by decide +kernel, by decide, holds_of_zero (k := 99) (by decide) (by decide +kernel)⟩)
    ⟨⟨rfl, hsize, hsum⟩, rfl, fun h => (by cases h), fun _ => rfl⟩ (.finish (fun i _ => ?_) le_rfl)
  refine slashDir_zero ?_
  unfold behind TAR_BLOCK
  omega

theorem slashDir_member {r : ℕ} {m : Member} (h : m ∈ members slashDir r {}) : m = .dir [slash] := by
  have hfirst : step slashDir {} = some ({ pos := 512, entries := 1 }, some (.dir [slash])) := by decide +kernel
  have hsecond : step slashDir { pos := 512, entries := 1 } =
      some ({ pos := 1024, entries := 1, zeroBlocks := 1 }, none) := by decide +kernel
  have hthird : step slashDir { pos := 1024, entries := 1, zeroBlocks := 1 } = none := by decide +kernel
  obtain _ | _ | _ | r := r
  · cases h
  · simpa [members, hfirst] using h
  · simpa [members, hfirst, hsecond] using h
  · simpa [members, hfirst, hsecond, hthird] using h

theorem root_not_made : ¬ ∀ (img : Image) (dst : Str) (es : List Entry), img.size < 2 ^ 31 →
    Archive img 0 es → dst.head? = some slash → (∀ e ∈ es, (target dst e.name).length ≤ 255) →
    ∃ n, ∀ r, n ≤ r → ∃ calls, tarProcess img dst true r = calls.flatten ∧
      List.Forall₂ (fun e cs => e.kind = .dir → ∃ q, Call.mkdir q ∈ cs ∧ resolved q = resolved (dst ++ slash :: e.name))
        es calls := by
  intro h
  obtain ⟨n, hn⟩ := h slashDir [slash] _ (by decide) slashDir_archive rfl (by decide)
  obtain ⟨calls, hcalls, hall⟩ := hn n le_rfl
  have hnone : tarProcess slashDir [slash] true n = [] := by
    rw [tarProcess, if_pos rfl, List.flatMap_eq_nil_iff]
    intro m hm
    rw [slashDir_member hm]
    decide
  cases hall with
  | cons hfirst _ =>
    obtain ⟨q, hq, -⟩ := hfirst rfl
    rw [hnone, List.flatten_cons] at hcalls
    rw [(List.append_eq_nil_iff.mp hcalls.symm).1] at hq
    cases hq

/-- The bytes of an archive that is zero but for some pieces. -/
def pieces (l : List (ℕ × Str)) (i : ℕ) : UInt8 :=
  ((l.find? fun p => p.1 ≤ i ∧ i < p.1 + p.2.length).map fun p => p.2.getD (i - p.1) 0).getD 0

/-- A name that only an `L` entry can give. -/
def longName : Str := [100, slash] ++ List.replicate 120 97

/-- An archive of a directory `d`, a file in it with a long name and two bytes, and a link `d/l` to
`x`. -/
def savedTree : Image where
  byte := pieces [(0, [100]), (148, [54, 51, 49]), (156, [53]), (636, [49, 55, 51]), (660, [55, 52, 55]), (668, [76]),
    (1024, longName), (1660, [50]), (1684, [53, 52, 50]), (1692, [48]), (2048, [104, 105]), (2560, [100, slash, 108]),
    (2708, [49, 50, 53, 49]), (2716, [50, 120])]
  size := 4096

def savedEntries : List Entry := [⟨.dir, [100], [], []⟩, ⟨.file, longName, [], [104, 105]⟩,
    ⟨.symLink, [100, slash, 108], [120], []⟩]

theorem savedTree_archive : Archive savedTree 0 savedEntries := by
  have hd : Header savedTree 0 53 0 := ⟨by decide +kernel,
    octalField_of_zeros [] 12 (by decide +kernel) (by decide) rfl,
    octalField_of_zeros [54, 51, 49] 5 (by decide +kernel) (by decide) (by decide +kernel)⟩
  have hlong : Header savedTree 512 76 123 := ⟨by decide +kernel,
    octalField_of_zeros [49, 55, 51] 9 (by decide +kernel) (by decide) rfl,
    octalField_of_zeros [55, 52, 55] 5 (by decide +kernel) (by decide) (by decide +kernel)⟩
  have hfile : Header savedTree 1536 48 2 := ⟨by decide +kernel,
    octalField_of_zeros [50] 11 (by decide +kernel) (by decide) rfl,
    octalField_of_zeros [53, 52, 50] 5 (by decide +kernel) (by decide) (by decide +kernel)⟩
  have hlink : Header savedTree 2560 50 0 := ⟨by decide +kernel,
    octalField_of_zeros [] 12 (by decide +kernel) (by decide) rfl,
    octalField_of_zeros [49, 50, 53, 49] 4 (by decide +kernel) (by decide) (by decide +kernel)⟩
  refine .entry (Or.inl ⟨by decide +kernel, by decide, holds_of_zero (k := 99) (by decide) (by decide +kernel)⟩)
    ⟨hd, rfl, fun h => (by cases h), fun _ => rfl⟩ ?_
  refine .long hlong (holds_of_zero (k := 1) (by decide) (by decide +kernel)) (by decide)
    ⟨hfile, by decide +kernel, fun h => (by cases h), fun h => (by cases h)⟩ ?_
  refine .entry (Or.inl ⟨by decide +kernel, by decide, holds_of_zero (k := 97) (by decide) (by decide +kernel)⟩)
    ⟨hlink, rfl, fun _ => ⟨holds_of_zero (k := 99) (by decide) (by decide +kernel), by decide⟩, fun _ => rfl⟩ ?_
  exact .finish (by decide +kernel) le_rfl

theorem savedTree_extracted : savedTree.size < 2 ^ 31 ∧ ∃ n, ∀ r, n ≤ r →
    tarEntries savedTree r {} = some 3 ∧ ∃ calls, tarProcess savedTree [slash, 116] true r =
      calls.flatten ∧ List.Forall₂ (Extracts [slash, 116]) savedEntries calls :=
  ⟨by decide, extraction_faithful (by decide) savedTree_archive rfl (by decide +kernel)⟩

end ComputerOS.Tar
