import ComputerOS.Fat32.Fields

/-!
Writing a file, deleting one and making a directory, with enough heap: each that succeeds is a
change of one directory, and the copies of the table are then the table.
-/
namespace ComputerOS.Fat32

open Function Fallible

variable {g : Geom} {v v' : Vol} {n cwd d c r : ℕ} {T X : List ℕ} {s : St} {A data : Str} {u new : Visit}

/-- The copies of the table on disk are the table. -/
def Flushed (g : Geom) (v : Vol) : Prop := ∀ i < g.numFats, v.copies i = v.fat

/-- How the entries of a directory change: one is added, replaced or taken out. -/
inductive Edit : List Visit → List Visit → Option Visit → Option Visit → Prop
  | add (P Q : List Visit) (new : Visit) : Edit (P ++ Q) (P ++ new :: Q) none (some new)
  | replace (P Q : List Visit) (u new : Visit) : Edit (P ++ u :: Q) (P ++ new :: Q) (some u) (some new)
  | remove (P Q : List Visit) (u : Visit) : Edit (P ++ u :: Q) (P ++ Q) (some u) none

/-- The entries after an edit of a list without double places. -/
theorem Edit.mem_iff {L L' : List Visit} {old new : Option Visit} (h : Edit L L' old new)
    (hnodup : (L.map fun u => (u.chunk, u.idx)).Nodup) : u ∈ L' ↔ u ∈ L ∧ old ≠ some u ∨ new = some u := by
  have hnot : ∀ {P Q : List Visit} {w : Visit},
      ((P ++ w :: Q).map fun u => (u.chunk, u.idx)).Nodup → ∀ x, x ∈ P ++ Q → w ≠ x := by
    rintro P Q w hnd x hx rfl
    rw [List.map_append, List.map_cons, List.nodup_middle, List.nodup_cons, ← List.map_append] at hnd
    exact hnd.1 (List.mem_map_of_mem hx)
  cases h with
  | add P Q new =>
    simp only [List.mem_append, List.mem_cons, Option.some.injEq, ne_eq, reduceCtorEq, not_false_eq_true, and_true]
    tauto
  | replace P Q w new =>
    have := hnot hnodup u
    simp only [List.mem_append, List.mem_cons, Option.some.injEq, ne_eq] at this ⊢
    constructor
    · rintro (h | rfl | h)
      · exact Or.inl ⟨Or.inl h, this (Or.inl h)⟩
      · exact Or.inr rfl
      · exact Or.inl ⟨Or.inr (Or.inr h), this (Or.inr h)⟩
    · rintro (⟨h | rfl | h, hne⟩ | rfl)
      · exact Or.inl h
      · exact absurd rfl hne
      · exact Or.inr (Or.inr h)
      · exact Or.inr (Or.inl rfl)
  | remove P Q w =>
    have := hnot hnodup u
    simp only [List.mem_append, List.mem_cons, Option.some.injEq, ne_eq, reduceCtorEq, or_false] at this ⊢
    constructor
    · rintro (h | h)
      · exact ⟨Or.inl h, this (Or.inl h)⟩
      · exact ⟨Or.inr (Or.inr h), this (Or.inr h)⟩
    · rintro ⟨h | rfl | h, hne⟩
      · exact Or.inl h
      · exact absurd rfl hne
      · exact Or.inr h

section Steps

variable (hg : g.Ok) (hn : g.totalClusters ≤ n) (hspare : NoSpare g v) (hv : Consistent g v n) (hd : IsDir g v n d)
  (hT : Linked g v (realCluster g d) (realCluster g d :: T))

theorem nodup_dir (hg : g.Ok) (hT : Linked g v (realCluster g d) (realCluster g d :: T)) :
    ((d :: T).map (realCluster g)).Nodup := by
  rw [map_real_of_linked hT rfl]
  exact hT.nodup hg

theorem visits_dir (hg : g.Ok) (hn : g.totalClusters ≤ n) (hT : Linked g v (realCluster g d) (realCluster g d :: T)) :
    visits g v n d = scan [] (slots g v (d :: T)) := by
  rw [visits_eq, chain_dir hg hn hT]

theorem nodup_visits (hg : g.Ok) (hn : g.totalClusters ≤ n) (hT : Linked g v (realCluster g d) (realCluster g d :: T)) :
    ((visits g v n d).map fun u => (u.chunk, u.idx)).Nodup := by
  rw [visits_dir hg hn hT]
  exact nodup_places (List.Nodup.of_map _ (nodup_dir hg hT))

theorem freed_file (hg : g.Ok) {O : List ℕ} (hO : FileChain g v (entryCluster u.entry) O) {v1 : Vol}
    (hv1 : v1 = if 2 ≤ entryCluster u.entry then freeLoop g (g.totalClusters + 2) (entryCluster u.entry) v else v) :
    (∀ x ∈ O, isFree v1 x = true) ∧ (∀ x ∉ O, v1.fat x = v.fat x) ∧ v1.disk = v.disk ∧ v1.copies = v.copies := by
  rcases hO with ⟨rfl, hlt⟩ | ⟨hne, hO⟩
  · rw [if_neg (by omega)] at hv1
    rw [hv1]
    exact ⟨fun x hx => (by cases hx), fun _ _ => rfl, rfl, rfl⟩
  · have h2 : 2 ≤ entryCluster u.entry := by
      cases O with
      | nil => exact absurd rfl hne
      | cons x O =>
        rw [hO.1]
        exact hO.2.1.1
    rw [if_pos h2] at hv1
    rw [hv1]
    exact freeLoop_linked hg hO (by have := hO.length_le hg; omega)

theorem FileChain.clusters {s : ℕ} {O : List ℕ} (hO : FileChain g v s O) : ∀ c ∈ O, DataCluster g c := by
  rcases hO with ⟨rfl, -⟩ | ⟨-, hO⟩
  · exact fun c hc => by cases hc
  · exact hO.data

include hg hn hv hd hT

omit hn in
/-- The directory has none of the clusters that are freed and allocated. -/
theorem dir_untouched {v1 : Vol} {O N : List ℕ} {old : Option Visit}
    (hold : ∀ u, old = some u → u ∈ live g v n d ∧ isDirectory u.entry = false ∧ FileChain g v (entryCluster u.entry) O)
    (hnone : old = none → O = []) (hfat1 : ∀ x ∉ O, v1.fat x = v.fat x)
    (hfresh : ∀ c ∈ N, DataCluster g c ∧ isFree v1 c = true) : ∀ c ∈ realCluster g d :: T, c ∉ O ∧ c ∉ N := by
  intro c hc
  have hO : c ∉ O := by
    cases hcase : old with
    | none =>
      rw [hnone hcase]
      simp
    | some u =>
      obtain ⟨hu, hufile, hO⟩ := hold u hcase
      exact hv.dir_apart_file hg hd hT ⟨hd, hu⟩ hufile hO c hc
  refine ⟨hO, fun hcN => ?_⟩
  have hfree := (hfresh c hcN).2
  unfold isFree at hfree
  rw [hfat1 c hO] at hfree
  have hnot := hT.not_free hg hc
  unfold isFree at hnot
  rw [hnot] at hfree
  cases hfree

/-- A change put together: the chain `O` is freed, then the chain `N` is allocated, then the
directory is edited. -/
theorem change_of_edit {v1 v2 : Vol} {X O N : List ℕ} {old new : Option Visit}
    (hold : ∀ u, old = some u → u ∈ live g v n d ∧ isDirectory u.entry = false ∧ FileChain g v (entryCluster u.entry) O)
    (hnone : old = none → O = []) (hfreed : ∀ x ∈ O, isFree v1 x = true) (hfat1 : ∀ x ∉ O, v1.fat x = v.fat x)
    (hdisk1 : v1.disk = v.disk) (hfresh : ∀ c ∈ N, DataCluster g c ∧ isFree v1 c = true)
    (hused : ∀ c ∈ N, isFree v2 c = false) (hfat2 : ∀ x ∉ N, v2.fat x = v1.fat x)
    (hdisk2 : ∀ x ∉ N, v2.disk x = v1.disk x) (hedited : Edited g v2 v' d T X)
    (hedit : Edit (visits g v n d) (scan [] (slots g v' (d :: T ++ X))) old new)
    (hdir : ∀ u, new = some u → isDirectory u.entry = true →
      N ≠ [] ∧ Linked g v2 (entryCluster u.entry) N ∧ live g v' n (entryCluster u.entry) = [])
    (hfile : ∀ u, new = some u → isDirectory u.entry = false →
      FileChain g v2 (entryCluster u.entry) N ∧ N.length = clustersFor g (entrySize u.entry))
    (hnew : new = none → N = []) (hdot : ∀ u, new = some u → isDot u.entry = false) :
    Change g n v v' d (realCluster g d :: T) X O N old new := by
  have hD := dir_untouched hg hv hd hT hold hnone hfat1 hfresh
  have hfree1 : ∀ c, c ∉ O → isFree v1 c = isFree v c := fun c hc => by
    unfold isFree
    rw [hfat1 c hc]
  have hXN : ∀ c ∈ X, c ∉ N := by
    intro c hc hcN
    have hfree := (hedited.fresh c hc).2
    rw [hused c hcN] at hfree
    cases hfree
  have hkeep : ∀ c ∈ N, getEntry g v' c = getEntry g v2 c := by
    intro c hc
    unfold getEntry
    rw [hedited.table c (fun hX => hXN c hX hc) (fun hcD => (hD c hcD).2 hc)]
  have hnodup := nodup_visits hg hn hT
  have hvisits' : visits g v' n d = scan [] (slots g v' (d :: T ++ X)) := by
    have hgrown := hedited.grown
    rw [List.cons_append] at hgrown
    rw [visits_dir hg hn hgrown, List.cons_append]
  refine ⟨hd, hT, hedited.grown, hold, hnone, fun c hc => ?_, hXN, fun u hu hudir => ?_,
    fun u hu hufile => ?_, hnew, hdot, fun c hX hO hN hcD => ?_, fun c hO hX hN => ?_,
    fun c hX hN hcD => ?_, fun u => ?_⟩
  · have hfree : DataCluster g c ∧ isFree v1 c = true := by
      rcases List.mem_append.mp hc with hc | hc
      · obtain ⟨hdata, hfree⟩ := hedited.fresh c hc
        refine ⟨hdata, ?_⟩
        unfold isFree at hfree ⊢
        rwa [hfat2 c (hXN c hc)] at hfree
      · exact hfresh c hc
    refine ⟨hfree.1, ?_⟩
    by_cases hO : c ∈ O
    · exact Or.inr hO
    · exact Or.inl (hfree1 c hO ▸ hfree.2)
  · obtain ⟨hne, hL, hlive⟩ := hdir u hu hudir
    exact ⟨hne, hL.congr hkeep, hlive⟩
  · obtain ⟨hL, hlen⟩ := hfile u hu hufile
    refine ⟨?_, hlen⟩
    rcases hL with hL | ⟨hne, hL⟩
    · exact Or.inl hL
    · exact Or.inr ⟨hne, hL.congr hkeep⟩
  · rw [hedited.table c hX hcD, hfat2 c hN, hfat1 c hO]
  · have hcD : c ∉ realCluster g d :: T := fun hcD => (hD c hcD).1 hO
    have := hfreed c hO
    unfold isFree at this ⊢
    rwa [hedited.table c hX hcD, hfat2 c hN]
  · rw [hedited.cells c hX hcD, hdisk2 c hN, hdisk1]
  · rw [hvisits']
    exact hedit.mem_iff hnodup

/-- An entry and its clusters are taken out. -/
theorem remove_change {O : List ℕ} {v1 : Vol} (hlive : u ∈ live g v n d) (hfile : isDirectory u.entry = false)
    (hO : FileChain g v (entryCluster u.entry) O)
    (hv1 : v1 = if 2 ≤ entryCluster u.entry then freeLoop g (g.totalClusters + 2) (entryCluster u.entry) v else v)
    (hfat : v'.fat = v1.fat)
    (hdisk : v'.disk = update v.disk (realCluster g u.chunk) (eraseSlots (v.disk (realCluster g u.chunk)) u.idx)) :
    Change g n v v' d (realCluster g d :: T) [] O [] (some u) none := by
  have hvis := visits_dir hg hn hT
  have hu := (mem_live.mp hlive).1
  obtain ⟨hfreed, hfat1, hdisk1, -⟩ := freed_file hg hO hv1
  have hold : ∀ w, some u = some w → w ∈ live g v n d ∧ isDirectory w.entry = false ∧
      FileChain g v (entryCluster w.entry) O := by
    intro w hw
    obtain rfl := Option.some.inj hw
    exact ⟨hlive, hfile, hO⟩
  have hD := dir_untouched hg hv hd hT (N := []) hold (fun h => by cases h) hfat1 (fun c hc => by cases hc)
  have hchunk : realCluster g u.chunk ∈ realCluster g d :: T := by
    rw [← map_real_of_linked hT rfl]
    exact List.mem_map_of_mem (mem_slots (mem_scan (hvis ▸ hu)).1).1
  obtain ⟨P, Q, hscan, hscan'⟩ := erase_entries (nodup_dir hg hT) (hvis ▸ hu) rfl
  have hedited : Edited g v1 v' d T [] := by
    refine ⟨?_, fun x hx => (by cases hx), fun x _ _ => by rw [hfat], fun x _ hx => ?_⟩
    · rw [List.append_nil]
      refine hT.congr fun c hc => ?_
      unfold getEntry
      rw [hfat, hfat1 c (hD c hc).1]
    · rw [hdisk, update_of_ne, hdisk1]
      rintro rfl
      exact hx hchunk
  have hedit : Edit (visits g v n d) (scan [] (slots g v' (d :: T ++ []))) (some u) none := by
    rw [List.append_nil, hvis, hscan, slots_congr (v := { v with
      disk := update v.disk (realCluster g u.chunk) (eraseSlots (v.disk (realCluster g u.chunk)) u.idx) })
      fun x _ => by rw [hdisk], hscan']
    exact Edit.remove P Q u
  exact change_of_edit hg hn hv hd hT hold (fun h => by cases h) hfreed hfat1 hdisk1 (fun c hc => by cases hc)
    (fun c hc => by cases hc) (fun _ _ => rfl) (fun _ _ => rfl) hedited hedit (fun w hw => by cases hw)
    (fun w hw => by cases hw) (fun _ => rfl) (fun w hw => by cases hw)

end Steps

/-- A name under which a file or directory may be made or found: in ASCII, and such that what it
finds or makes is no entry `.` or `..`. -/
structure NameOk (g : Geom) (v : Vol) (n d : ℕ) (A : Str) : Prop where
  nonempty : A ≠ []
  ascii : ∀ c ∈ A, Ascii c
  length : A.length ≤ 255
  made : needsLfn A = false → build83 A ≠ padTo 11 [46] ∧ build83 A ≠ padTo 11 [46, 46]
  found : ∀ u, readFinds g v n d A = some u → isDot u.entry = false

/-- A directory whose free slots can be filled: no entry is hidden behind an end mark, and no long
name is left without its entry. -/
def DirOk (g : Geom) (v : Vol) (n d : ℕ) : Prop :=
  Tidy (slots g v (chain g v n d)) ∧ NoOrphan (slots g v (chain g v n d))

/-- A directory in which a new entry stands by itself: it is in order, and when it is full the
cluster that it grows by is one of the volume. -/
def TakesEntry (g : Geom) (v : Vol) (n d : ℕ) : Prop :=
  DirOk g v n d ∧ ((∀ p ∈ slots g v (chain g v n d), slotFree p.entry = false) → Allots g v)

def NewNames (A : Str) (new : Visit) : Prop :=
  shortName new.entry = build83 A ∧ new.lfn = [] ∨ new.lfn = A ∧
  ∃ t, shortName new.entry = build83Tail A t

structure FileWritten (g : Geom) (v' : Vol) (data : Str) (new : Visit) : Prop where
  file : isDirectory new.entry = false
  size : entrySize new.entry = data.length
  holds : ∃ N, FileChain g v' (entryCluster new.entry) N ∧ Stored g v' N data

/-- An entry made for the name `A` or, in place of `u`, one with the same names. -/
def Names (A : Str) (new : Visit) : Option Visit → Prop
  | none => NewNames A new
  | some u => isDirectory u.entry = false ∧ shortName new.entry = shortName u.entry ∧ new.lfn = u.lfn

theorem named_new {ne : Str → Mem} {a cl size : ℕ} (h : NamedBy g v n d A ne new)
    (hne : ne = fun raw83 => newEntry raw83 a cl size)
    (hA : needsLfn A = false → build83 A ≠ padTo 11 [46] ∧ build83 A ≠ padTo 11 [46, 46]) :
    (∃ raw83, raw83.length = 11 ∧ new.entry = trim (newEntry raw83 a cl size)) ∧
      isDot new.entry = false ∧ NewNames A new := by
  subst hne
  rcases h with ⟨hlfn, hnil, hentry⟩ | ⟨-, hlfn, t, hentry, -⟩
  · refine ⟨⟨_, length_build83 A, hentry⟩, ?_, Or.inl ⟨?_, hnil⟩⟩
    · rw [hentry, Bool.eq_false_iff, ne_eq, isDot_newEntry (length_build83 A), not_or]
      exact hA hlfn
    · rw [hentry, shortName_trim, shortName_newEntry (length_build83 A)]
  · refine ⟨⟨_, length_build83Tail A t, hentry⟩, ?_, Or.inr ⟨hlfn, t, ?_⟩⟩
    · rw [hentry, Bool.eq_false_iff, ne_eq, isDot_newEntry (length_build83Tail A t), not_or]
      exact build83Tail_not_dot A t
    · rw [hentry, shortName_trim, shortName_newEntry (length_build83Tail A t)]

/-- The clusters of a file that has been written. -/
theorem Wrote.chain (hg : g.Ok) {v2 : Vol} {f : ℕ} {N : List ℕ} (h : Wrote g v v2 0 0 f N data) :
    FileChain g v2 f N ∧ N.length = clustersFor g data.length ∧ (∀ c ∈ N, isFree v2 c = false) ∧ f < 2 ^ 32 := by
  have hlen := stored_length hg h.stored
  by_cases hN : N = []
  · obtain ⟨-, rfl⟩ := h.none hN
    exact ⟨Or.inl ⟨hN, by omega⟩, hlen, by rw [hN]; exact fun c hc => (by cases hc), by omega⟩
  · have hL := h.begin hN rfl
    refine ⟨Or.inr ⟨hN, hL⟩, hlen, fun c hc => hL.not_free hg hc, ?_⟩
    cases N with
    | nil => exact absurd rfl hN
    | cons x N =>
      have h1 := hL.2.1.2
      have h2 := hg.marks
      rw [hL.1]
      unfold FAT32_BAD at h2
      omega

@[simp]
theorem dirPutEntry_full (chunk idx : ℕ) (e : Mem) : (dirPutEntry g chunk idx e).run (full v cwd) =
    (some (), full { v with disk := update v.disk (realCluster g chunk) (putSlot (chunkOf g v chunk) idx e) } cwd) := by
  rw [dirPutEntry, bind_of_some needBuf_full, bind_of_some getVol_full, writeChunk, writeCluster, setVol_full]

@[simp]
theorem dirDeleteSlot_full (chunk idx : ℕ) : (dirDeleteSlot g chunk idx).run (full v cwd) = (some (), full { v with
    disk := update v.disk (realCluster g chunk) (eraseSlots (chunkOf g v chunk) idx) } cwd) := by
  rw [dirDeleteSlot, bind_of_some needBuf_full, bind_of_some getVol_full, writeChunk, writeCluster, setVol_full]

/-- The volume after the table has been written to disk. -/
def flushed (g : Geom) (v : Vol) : Vol := { v with copies := fun i => if i < g.numFats then v.fat else v.copies i }

@[simp]
theorem flushFat_full : (flushFat g).run (full v cwd) = (some (), full (flushed g v) cwd) := rfl

theorem flushed_flushed (g : Geom) (v : Vol) : Flushed g (flushed g v) := fun _ hi => if_pos hi

section Writes

variable (hg : g.Ok) (hn : g.totalClusters ≤ n) (hspare : NoSpare g v) (hv : Consistent g v n) (hd : IsDir g v n d)
  (hA : NameOk g v n d A) (hdata : data.length < 2 ^ 32)

include hg hn hspare hv hd hA hdata

/-- Writing a file that is there. -/
theorem writeOver_full (hfind : writeFinds g v n d A = some u)
    (hrun : (writeIn g n d A data).run (full v cwd) = (some r, s)) :
    ∃ v' D O N new, s = full v' cwd ∧ Change g n v v' d D [] O N (some u) (some new) ∧
      Edit (visits g v n d) (visits g v' n d) (some u) (some new) ∧ Flushed g v' ∧ FileWritten g v' data new ∧
      Names A new (some u) := by
  obtain ⟨T, hT⟩ := hv.dirChain hd
  have hvis := visits_dir hg hn hT
  have hu : u ∈ visits g v n d := List.mem_of_find?_eq_some hfind
  have hlive : u ∈ live g v n d := mem_live.mpr ⟨hu, hA.found u hfind⟩
  obtain ⟨hmem, hu0, hu1, hulfn⟩ := mem_scan (hvis ▸ hu)
  rw [writeIn, bind_of_some (lookup_full _), hfind] at hrun
  cases hfile : isDirectory u.entry with
  | true =>
    rw [if_pos (by rw [Option.any_some, hfile])] at hrun
    cases hrun
  | false =>
  rw [if_neg (by rw [Option.any_some, hfile]; decide)] at hrun
  obtain ⟨O, hO, -⟩ := hv.files d u ⟨hd, hlive⟩ hfile
  obtain ⟨v1, hv1⟩ : ∃ v1, v1 = if 2 ≤ entryCluster u.entry then
      freeLoop g (g.totalClusters + 2) (entryCluster u.entry) v else v := ⟨_, rfl⟩
  obtain ⟨hfreed, hfat1, hdisk1, -⟩ := freed_file hg hO hv1
  have hspare1 : NoSpare g v1 := hspare.congr fun c hc => hfat1 c fun hmem => by
    have := (hO.clusters c hmem).2
    omega
  have hrest : (writeLoop g data.length data 0 0 >>= fun first =>
      dirPutEntry g u.chunk u.idx (newEntry (shortName u.entry) ATTR_ARCHIVE first data.length) >>= fun _ =>
        flushFat g >>= fun _ => pure data.length).run (full v1 cwd) = (some r, s) := by
    rw [hv1, ← hrun]
    dsimp only
    split
    · rw [freeChain, bind_of_some (setVol_full _), bind_of_some needBuf_full]
    · rw [bind_of_some needBuf_full]
  rw [bind_run] at hrest
  rcases hloop : (writeLoop g data.length data 0 0).run (full v1 cwd) with ⟨_ | f, s2⟩
  · rw [hloop] at hrest
    cases hrest
  obtain ⟨N, v2, rfl, hw⟩ := writeLoop_full hg hspare1 le_rfl (fun h => absurd rfl h) hloop
  obtain ⟨hchain, hlen, hused, hf⟩ := hw.chain hg
  rw [hloop] at hrest
  dsimp only at hrest
  rw [bind_of_some (dirPutEntry_full _ _ _), bind_of_some flushFat_full] at hrest
  obtain ⟨-, rfl⟩ := Prod.mk.inj hrest
  have hold : ∀ w, some u = some w → w ∈ live g v n d ∧ isDirectory w.entry = false ∧
      FileChain g v (entryCluster w.entry) O := by
    intro w hw
    obtain rfl := Option.some.inj hw
    exact ⟨hlive, hfile, hO⟩
  have hD := dir_untouched hg hv hd hT hold (fun h => by cases h) hfat1 hw.fresh
  have hchunk : realCluster g u.chunk ∈ realCluster g d :: T := by
    rw [← map_real_of_linked hT rfl]
    exact List.mem_map_of_mem (mem_slots hmem).1
  obtain ⟨e, he⟩ : ∃ e, newEntry (shortName u.entry) ATTR_ARCHIVE f data.length = e := ⟨_, rfl⟩
  have he0 : e 0 = u.entry 0 := by
    rw [← he, newEntry_zero]
    rfl
  have hattr : attr e ≠ ATTR_LFN := by
    rw [← he, attr_newEntry _ _ _ (by decide)]
    decide
  have hcells : ∀ x ∈ realCluster g d :: T, v2.disk x = v.disk x := fun x hx => by
    rw [hw.cells x (hD x hx).2, hdisk1]
  obtain ⟨P, Q, hscan, hscan'⟩ := rewrite_entries (nodup_dir hg hT) (hvis ▸ hu) (by rw [he0]; exact hu0)
    (by rw [he0]; exact hu1) hattr rfl
  rw [he, chunkOf, hcells _ hchunk]
  obtain ⟨v4, hv4⟩ : ∃ v4, flushed g { v2 with
    disk := update v2.disk (realCluster g u.chunk) (putSlot (v.disk (realCluster g u.chunk)) u.idx e) } = v4 := ⟨_, rfl⟩
  have hfat4 : v4.fat = v2.fat := by rw [← hv4]; rfl
  have hdisk4 : v4.disk = update v2.disk (realCluster g u.chunk)
    (putSlot (v.disk (realCluster g u.chunk)) u.idx e) := by
    rw [← hv4]
    rfl
  have hslots : slots g v4 (d :: T) = slots g { v with
      disk := update v.disk (realCluster g u.chunk) (putSlot (v.disk (realCluster g u.chunk)) u.idx e) } (d :: T) := by
    refine slots_congr fun x hx => ?_
    have hmem : realCluster g x ∈ (d :: T).map (realCluster g) := List.mem_map_of_mem hx
    rw [map_real_of_linked hT rfl] at hmem
    rw [hdisk4]
    dsimp only
    by_cases hxu : realCluster g x = realCluster g u.chunk
    · rw [hxu, update_self, update_self]
    · rw [update_of_ne hxu, update_of_ne hxu, hcells _ hmem]
  have hedited : Edited g v2 v4 d T [] := by
    refine ⟨?_, fun x hx => (by cases hx), fun x _ _ => by rw [hfat4], fun x _ hx => ?_⟩
    · rw [List.append_nil]
      refine hT.congr fun c hc => ?_
      unfold getEntry
      rw [hfat4, hw.table c (hD c hc).2 (Or.inl rfl), hfat1 c (hD c hc).1]
    · rw [hdisk4, update_of_ne]
      rintro rfl
      exact hx hchunk
  obtain ⟨new, hnew⟩ : ∃ new : Visit, ⟨u.chunk, u.idx, trim e, u.lfn⟩ = new := ⟨_, rfl⟩
  have hentry : new.entry = trim (newEntry (shortName u.entry) ATTR_ARCHIVE f data.length) := by rw [← hnew, he]
  have hlen11 : (shortName u.entry).length = 11 := by simp [shortName]
  have hnewfile : isDirectory new.entry = false := by
    rw [hentry, isDirectory_newEntry (by decide)]
    decide
  have hshort : shortName new.entry = shortName u.entry := by
    rw [hentry, shortName_trim, shortName_newEntry hlen11]
  have hcluster : entryCluster new.entry = f := by rw [hentry, entryCluster_newEntry hf]
  have hsize : entrySize new.entry = data.length := by rw [hentry, entrySize_newEntry hdata]
  have hedit : Edit (visits g v n d) (scan [] (slots g v4 (d :: T ++ []))) (some u) (some new) := by
    rw [List.append_nil, hvis, hscan, hslots, hscan', hnew]
    exact Edit.replace P Q u new
  have hchange := change_of_edit hg hn hv hd hT hold (fun h => by cases h) hfreed hfat1 hdisk1 hw.fresh hused
    (fun x hx => hw.table x hx (Or.inl rfl)) hw.cells hedited hedit
    (fun w hnw hwdir => by obtain rfl := Option.some.inj hnw; rw [hnewfile] at hwdir; cases hwdir)
    (fun w hnw _ => by obtain rfl := Option.some.inj hnw; rw [hcluster, hsize]; exact ⟨hchain, hlen⟩)
    (fun h => by cases h)
    (fun w hnw => by
      obtain rfl := Option.some.inj hnw
      have := hA.found u hfind
      unfold isDot at this ⊢
      rwa [hshort])
  have hvis4 : visits g v4 n d = scan [] (slots g v4 (d :: T ++ [])) := by
    rw [List.append_nil]
    refine visits_dir hg hn ?_
    have := hedited.grown
    rwa [List.append_nil] at this
  refine ⟨v4, _, O, N, new, by rw [hv4], hchange, by rw [hvis4]; exact hedit, by rw [← hv4]; exact flushed_flushed g _,
    ⟨hnewfile, hsize, N, (hchange.makes_file new rfl hnewfile).1, hw.stored.congr fun c hc => ?_⟩, hfile, hshort,
    by rw [← hnew]⟩
  rw [hdisk4, update_of_ne]
  rintro rfl
  exact (hD _ hchunk).2 hc

/-- Writing a file that is not there. -/
theorem writeNew_full (hok : DirOk g v n d) (hfind : writeFinds g v n d A = none)
    (hrun : (writeIn g n d A data).run (full v cwd) = (some r, s)) :
    ∃ v' D X N new, s = full v' cwd ∧ Change g n v v' d D X [] N none (some new) ∧
      Edit (visits g v n d) (visits g v' n d) none (some new) ∧ Flushed g v' ∧ FileWritten g v' data new ∧
      Names A new none := by
  obtain ⟨T, hT⟩ := hv.dirChain hd
  have hvis := visits_dir hg hn hT
  rw [writeIn, bind_of_some (lookup_full _), hfind, if_neg (by decide)] at hrun
  dsimp only at hrun
  rw [bind_of_some needBuf_full, bind_run] at hrun
  rcases hloop : (writeLoop g data.length data 0 0).run (full v cwd) with ⟨_ | f, s2⟩
  · rw [hloop] at hrun
    cases hrun
  obtain ⟨N, v2, rfl, hw⟩ := writeLoop_full hg hspare le_rfl (fun h => absurd rfl h) hloop
  obtain ⟨hchain, hlen, hused, hf⟩ := hw.chain hg
  rw [hloop] at hrun
  dsimp only at hrun
  rw [bind_run] at hrun
  rcases hins : (dirInsertNamed g n d A fun raw83 => newEntry raw83 ATTR_ARCHIVE f data.length).run (full v2 cwd) with
    ⟨_ | _, s3⟩
  · rw [hins] at hrun
    cases hrun
  have hold : ∀ w, (none : Option Visit) = some w → w ∈ live g v n d ∧ isDirectory w.entry = false ∧
      FileChain g v (entryCluster w.entry) [] := fun w hw => by cases hw
  have hD := dir_untouched hg hv hd hT (O := []) hold (fun _ => rfl) (fun _ _ => rfl) hw.fresh
  have hslots : slots g v2 (d :: T) = slots g v (d :: T) := by
    refine slots_congr fun x hx => ?_
    have hmem : realCluster g x ∈ (d :: T).map (realCluster g) := List.mem_map_of_mem hx
    rw [map_real_of_linked hT rfl] at hmem
    exact hw.cells _ (hD _ hmem).2
  have hT2 : Linked g v2 (realCluster g d) (realCluster g d :: T) := by
    refine hT.congr fun c hc => ?_
    unfold getEntry
    rw [hw.table c (hD c hc).2 (Or.inl rfl)]
  have hspare2 : NoSpare g v2 := hspare.congr fun c hc => hw.table c (fun hmem => by
    have := (hw.fresh c hmem).1.2
    omega) (Or.inl rfl)
  unfold DirOk at hok
  rw [chain_dir hg hn hT, ← hslots] at hok
  obtain ⟨X, v3, new, rfl, hinserted, hnamed⟩ := dirInsertNamed_full hg hn hspare2 hT2 hok.1 hok.2 hA.ascii hA.length
    (fun raw83 t => newEntry_plain hA.ascii (by decide) (by decide) raw83 t) hins
  rw [hins] at hrun
  dsimp only at hrun
  rw [bind_of_some flushFat_full] at hrun
  obtain ⟨-, rfl⟩ := Prod.mk.inj hrun
  obtain ⟨⟨raw83, hraw, hentry⟩, hdot, hnames⟩ := named_new hnamed rfl hA.made
  have hnewfile : isDirectory new.entry = false := by
    rw [hentry, isDirectory_newEntry (by decide)]
    decide
  have hcluster : entryCluster new.entry = f := by rw [hentry, entryCluster_newEntry hf]
  have hsize : entrySize new.entry = data.length := by rw [hentry, entrySize_newEntry hdata]
  obtain ⟨v4, hv4⟩ : ∃ v4, flushed g v3 = v4 := ⟨_, rfl⟩
  have hfat4 : v4.fat = v3.fat := by rw [← hv4]; rfl
  have hdisk4 : v4.disk = v3.disk := by rw [← hv4]; rfl
  have hedited : Edited g v2 v4 d T X :=
    ⟨hinserted.grown.congr fun c _ => by unfold getEntry; rw [hfat4], hinserted.fresh,
      fun x hX hx => by rw [hfat4, hinserted.table x hX hx], fun x hX hx => by rw [hdisk4, hinserted.cells x hX hx]⟩
  have hedit : Edit (visits g v n d) (scan [] (slots g v4 (d :: T ++ X))) none (some new) := by
    obtain ⟨P, Q, h1, h2⟩ := hinserted.entries
    rw [hvis, ← hslots, h1, slots_congr (v := v3) fun x _ => by rw [hdisk4], h2]
    exact Edit.add P Q new
  have hchange := change_of_edit hg hn hv hd hT hold (fun _ => rfl) (fun x hx => by cases hx)
    (fun _ _ => rfl) rfl hw.fresh
    hused (fun x hx => hw.table x hx (Or.inl rfl)) hw.cells hedited hedit
    (fun w hnw hwdir => by obtain rfl := Option.some.inj hnw; rw [hnewfile] at hwdir; cases hwdir)
    (fun w hnw _ => by obtain rfl := Option.some.inj hnw; rw [hcluster, hsize]; exact ⟨hchain, hlen⟩)
    (fun h => by cases h) (fun w hnw => by obtain rfl := Option.some.inj hnw; exact hdot)
  have hvis4 : visits g v4 n d = scan [] (slots g v4 (d :: T ++ X)) := by
    have hgrown := hedited.grown
    rw [List.cons_append] at hgrown
    rw [visits_dir hg hn hgrown, List.cons_append]
  refine ⟨v4, _, X, N, new, by rw [hv4], hchange, by rw [hvis4]; exact hedit, by rw [← hv4]; exact flushed_flushed g _,
    ⟨hnewfile, hsize, N, (hchange.makes_file new rfl hnewfile).1, hw.stored.congr fun c hc => ?_⟩, hnames⟩
  rw [hdisk4]
  refine hinserted.cells c (fun hX => ?_) fun hcD => (hD c hcD).2 hc
  have := (hinserted.fresh c hX).2
  rw [hused c hc] at this
  cases this

omit hdata hspare in
theorem deleteIn_full (hrun : (deleteIn g n d A).run (full v cwd) = (some (), s)) :
    ∃ v' D O u, s = full v' cwd ∧ Change g n v v' d D [] O [] (some u) none ∧ Flushed g v' := by
  obtain ⟨T, hT⟩ := hv.dirChain hd
  rw [deleteIn, bind_of_some (lookup_full _)] at hrun
  cases hfind : deleteFinds g v n d A with
  | none =>
    rw [hfind] at hrun
    cases hrun
  | some u =>
  rw [hfind] at hrun
  dsimp only at hrun
  have hu : u ∈ visits g v n d := List.mem_of_find?_eq_some hfind
  have hlive : u ∈ live g v n d := mem_live.mpr ⟨hu, hA.found u hfind⟩
  cases hfile : isDirectory u.entry with
  | true =>
    rw [if_pos hfile] at hrun
    cases hrun
  | false =>
  rw [if_neg (by rw [hfile]; decide)] at hrun
  obtain ⟨O, hO, -⟩ := hv.files d u ⟨hd, hlive⟩ hfile
  obtain ⟨v1, hv1⟩ : ∃ v1, v1 = if 2 ≤ entryCluster u.entry then
      freeLoop g (g.totalClusters + 2) (entryCluster u.entry) v else v := ⟨_, rfl⟩
  have herase : (attempt (dirDeleteSlot g u.chunk u.idx)).run (full v1 cwd) = (some (some ()), full { v1 with
      disk := update v1.disk (realCluster g u.chunk) (eraseSlots (v1.disk (realCluster g u.chunk)) u.idx) } cwd) := by
    have hatt : (attempt (dirDeleteSlot g u.chunk u.idx)).run (full v1 cwd) =
        (some ((dirDeleteSlot g u.chunk u.idx).run (full v1 cwd)).1,
          ((dirDeleteSlot g u.chunk u.idx).run (full v1 cwd)).2) := rfl
    rw [hatt, dirDeleteSlot_full]
    rfl
  have hrest : (attempt (dirDeleteSlot g u.chunk u.idx) >>= fun _ => flushFat g).run (full v1 cwd) = (some (), s) := by
    rw [hv1, ← hrun]
    split
    · rw [freeChain, bind_of_some (setVol_full _)]
    · rfl
  rw [bind_of_some herase, flushFat_full] at hrest
  obtain ⟨-, rfl⟩ := Prod.mk.inj hrest
  have hdisk1 := (freed_file hg hO hv1).2.2.1
  exact ⟨_, realCluster g d :: T, O, u, rfl, remove_change hg hn hv hd hT hlive hfile hO hv1 rfl
    (by rw [← hdisk1]; rfl), flushed_flushed g _⟩

end Writes

/-- In a new directory there are only `.` and `..`. -/
theorem live_newDir {v : Vol} {parent : ℕ} (hcell : v.disk (realCluster g c) = newDir g c parent) :
    ∀ u ∈ scan [] (slots g v [c]), isDot u.entry = true := by
  intro u hu
  obtain ⟨hmem, h0, -⟩ := mem_scan hu
  obtain ⟨hc, -, hentry⟩ := mem_slots hmem
  dsimp only at hc hentry
  rw [List.mem_singleton.mp hc, hcell, newDir, slotOf_putSlot, slotOf_putSlot] at hentry
  split at hentry
  · rw [hentry, isDot_newEntry rfl]
    exact Or.inr rfl
  · split at hentry
    · rw [hentry, isDot_newEntry rfl]
      exact Or.inl rfl
    · rw [hentry, slotOf_zero] at h0
      exact absurd rfl h0

section Mkdir

variable (hg : g.Ok) (hn : g.totalClusters ≤ n) (hspare : NoSpare g v) (hv : Consistent g v n) (hd : IsDir g v n d)
  (hA : NameOk g v n d A)

include hg hn hspare hv hd hA

/-- Making a directory. -/
theorem mkdirIn_full (hok : DirOk g v n d) (hrun : (mkdirIn g n d A).run (full v cwd) = (some (), s)) :
    ∃ v' D X c new, s = full v' cwd ∧ Change g n v v' d D X [] [c] none (some new) ∧ Flushed g v' ∧ NewNames A new := by
  obtain ⟨T, hT⟩ := hv.dirChain hd
  have hvis := visits_dir hg hn hT
  rw [mkdirIn, bind_of_some (lookup_full _)] at hrun
  cases hfind : dirFindLfn g v n d (build83 A) A with
  | some u =>
    rw [hfind] at hrun
    cases hrun
  | none =>
  rw [hfind, if_neg (by decide), bind_run] at hrun
  rcases halloc : (allocCluster g).run (full v cwd) with ⟨_ | _ | c, s1⟩
  · rw [halloc] at hrun
    cases hrun
  · rw [halloc] at hrun
    cases hrun
  obtain ⟨hdata, hlt, hfree, rfl⟩ := allocCluster_full hspare.allots halloc
  rw [halloc] at hrun
  dsimp only at hrun
  rw [bind_of_some needBuf_full, writeCluster, bind_of_some (setVol_full _)] at hrun
  obtain ⟨v2, hv2⟩ : ∃ v2 : Vol, v2 = { setEntry g c FAT32_EOC v with
    disk := update (setEntry g c FAT32_EOC v).disk c (newDir g c d) } := ⟨_, rfl⟩
  rw [← hv2] at hrun
  have hfat2 : ∀ x, x ≠ c → v2.fat x = v.fat x := fun x hx => by
    rw [hv2]
    exact fat_setEntry_ne hx
  have hdisk2 : v2.disk = update v.disk c (newDir g c d) := by
    rw [hv2]
    dsimp only
    rw [disk_setEntry]
  have hc2 : getEntry g v2 c = FAT32_EOC := by
    rw [getEntry_of_lt hlt, hv2]
    dsimp only
    rw [fat_setEntry_self hlt]
    rfl
  have hlinkc : Linked g v2 c [c] := ⟨rfl, hdata, by rw [hc2]; exact isEndOfChain_eoc⟩
  have hfresh : ∀ x ∈ [c], DataCluster g x ∧ isFree v x = true := by
    intro x hx
    rw [List.mem_singleton.mp hx]
    exact ⟨hdata, hfree⟩
  have hold : ∀ w, (none : Option Visit) = some w → w ∈ live g v n d ∧ isDirectory w.entry = false ∧
      FileChain g v (entryCluster w.entry) [] := fun w hw => by cases hw
  have hD := dir_untouched hg hv hd hT (O := []) hold (fun _ => rfl) (fun _ _ => rfl) hfresh
  have hDc : ∀ x ∈ realCluster g d :: T, x ≠ c := fun x hx heq => (hD x hx).2 (by simp [heq])
  have hslots : slots g v2 (d :: T) = slots g v (d :: T) := by
    refine slots_congr fun x hx => ?_
    have hmem : realCluster g x ∈ (d :: T).map (realCluster g) := List.mem_map_of_mem hx
    rw [map_real_of_linked hT rfl] at hmem
    rw [hdisk2, update_of_ne (hDc _ hmem)]
  have hT2 : Linked g v2 (realCluster g d) (realCluster g d :: T) := by
    refine hT.congr fun x hx => ?_
    unfold getEntry
    rw [hfat2 x (hDc x hx)]
  have hspare2 : NoSpare g v2 := hspare.congr fun x hx => hfat2 x (by have := hdata.2; omega)
  unfold DirOk at hok
  rw [chain_dir hg hn hT, ← hslots] at hok
  obtain ⟨ins, hins⟩ : ∃ ins, (dirInsertNamed g n d A fun raw83 => newEntry raw83 ATTR_DIRECTORY c
      0).run (full v2 cwd) = ins := ⟨_, rfl⟩
  have hatt : (attempt (dirInsertNamed g n d A fun raw83 => newEntry raw83 ATTR_DIRECTORY c 0)).run
      (full v2 cwd) = (some ins.1, ins.2) := by
    rw [← hins]
    rfl
  rw [bind_of_some hatt] at hrun
  rcases ins with ⟨_ | _, s3⟩
  · cases hrun
  obtain ⟨X, v3, new, rfl, hinserted, hnamed⟩ := dirInsertNamed_full hg hn hspare2 hT2 hok.1 hok.2 hA.ascii hA.length
    (fun raw83 t => newEntry_plain hA.ascii (by decide) (by decide) raw83 t) hins
  dsimp only at hrun
  rw [flushFat_full] at hrun
  obtain ⟨-, rfl⟩ := Prod.mk.inj hrun
  obtain ⟨⟨raw83, hraw, hentry⟩, hdot, hnames⟩ := named_new hnamed rfl hA.made
  have hnewdir : isDirectory new.entry = true := by
    rw [hentry, isDirectory_newEntry (by decide)]
    decide
  have hcluster : entryCluster new.entry = c := by
    rw [hentry, entryCluster_newEntry]
    have h1 := hdata.2
    have h2 := hg.marks
    unfold FAT32_BAD at h2
    omega
  obtain ⟨v4, hv4⟩ : ∃ v4, flushed g v3 = v4 := ⟨_, rfl⟩
  have hfat4 : v4.fat = v3.fat := by rw [← hv4]; rfl
  have hdisk4 : v4.disk = v3.disk := by rw [← hv4]; rfl
  have hcX : c ∉ X := fun hX => by
    have := (hinserted.fresh c hX).2
    rw [hlinkc.not_free hg (List.mem_singleton_self c)] at this
    cases this
  have hcD : c ∉ realCluster g d :: T := fun hmem => hDc c hmem rfl
  have hedited : Edited g v2 v4 d T X :=
    ⟨hinserted.grown.congr fun c _ => by unfold getEntry; rw [hfat4], hinserted.fresh,
      fun x hX hx => by rw [hfat4, hinserted.table x hX hx], fun x hX hx => by rw [hdisk4, hinserted.cells x hX hx]⟩
  have hedit : Edit (visits g v n d) (scan [] (slots g v4 (d :: T ++ X))) none (some new) := by
    obtain ⟨P, Q, h1, h2⟩ := hinserted.entries
    rw [hvis, ← hslots, h1, slots_congr (v := v3) fun x _ => by rw [hdisk4], h2]
    exact Edit.add P Q new
  have hlive : live g v4 n c = [] := by
    have hlink4 : Linked g v4 (realCluster g c) (realCluster g c :: []) := by
      rw [hdata.real]
      refine hlinkc.congr fun x hx => ?_
      rw [List.mem_singleton.mp hx]
      unfold getEntry
      rw [hedited.table c hcX hcD]
    unfold live
    rw [List.filter_eq_nil_iff, visits_dir hg hn hlink4]
    intro u hu
    rw [live_newDir (by rw [hdata.real, hedited.cells c hcX hcD, hdisk2, update_self]) u hu]
    decide
  refine ⟨v4, realCluster g d :: T, X, c, new, by rw [hv4], ?_, by rw [← hv4]; exact flushed_flushed g _, hnames⟩
  exact change_of_edit hg hn hv hd hT hold (fun _ => rfl) (fun x hx => by cases hx) (fun _ _ => rfl) rfl hfresh
    (fun x hx => by rw [List.mem_singleton.mp hx]; exact hlinkc.not_free hg (List.mem_singleton_self c))
    (fun x hx => hfat2 x fun heq => hx (by simp [heq]))
    (fun x hx => by rw [hdisk2, update_of_ne fun heq => hx (by simp [heq])]) hedited hedit
    (fun w hw _ => by
      obtain rfl := Option.some.inj hw
      rw [hcluster]
      exact ⟨List.cons_ne_nil _ _, hlinkc, hlive⟩)
    (fun w hw hwfile => by obtain rfl := Option.some.inj hw; rw [hnewdir] at hwfile; cases hwfile)
    (fun h => by cases h) (fun w hw => by obtain rfl := Option.some.inj hw; exact hdot)

end Mkdir

end ComputerOS.Fat32
