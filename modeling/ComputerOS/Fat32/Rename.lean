import ComputerOS.Fat32.Move

/-!
When moving a file renames it: the new name leads to the file, the old one to nothing, and no
directory has two entries with one name.
-/
namespace ComputerOS.Fat32

open Function Fallible

def SameName (u w : Visit) : Prop :=
  shortName u.entry = shortName w.entry ∨ (listName u).map lower = (listName w).map lower

def NamesUnique (g : Geom) (v : Vol) (n : ℕ) : Prop :=
  ∀ d, IsDir g v n d → (visits g v n d).Pairwise fun u w => ¬ SameName u w

/-- Entries that differ in their short names only. -/
def SameFile (x y : Mem) : Prop := ∀ j, 11 ≤ j → j < 32 → x j = y j

/-- The two tests of `find_cb`. -/
def matchesName (A : Str) (u : Visit) : Bool := matchesShort (build83 A) u || matchesLong (A.take 255) u

def shortForm (B : Str) : Mem := fun j => (build83 B).getD j 0

/-- The entry has the short form of a name, or is listed under it. -/
def HasShortForm (B : Str) (u : Visit) : Prop :=
  shortName u.entry = build83 B ∨ (listName u).map lower = (format83 (shortForm B)).map lower

/-- The file `r`, which was `A` in directory `d`, has become `B` in directory `e`. -/
structure Renames (g : Geom) (n : ℕ) (v v' : Vol) (d : ℕ) (A : Str) (r : Visit) (e : ℕ) (B : Str) : Prop where
  reads : ∃ u, u ∈ live g v' n e ∧ readFinds g v' n e B = some u ∧ u ∉ visits g v n e ∧
    SameFile u.entry r.entry ∧ ∀ m, contentOf g v' u.entry m = contentOf g v r.entry m
  gone : d = e ∧ A.map lower = B.map lower ∨ readFinds g v' n d A = none
  unique : NamesUnique g v' n
  consistent : Consistent g v' n

/-- What has to be so before, where `w` is the entry that `fat32_mv` finds for the file `r`. -/
structure Movable (g : Geom) (n : ℕ) (v : Vol) (d : ℕ) (A : Str) (r w : Visit) (e : ℕ) (B : Str) : Prop where
  file : SameFile w.entry r.entry
  gone : d = e ∧ A.map lower = B.map lower ∨
    (∀ u ∈ visits g v n d, u ≠ w → matchesName A u = false) ∧ (d = e → build83 A ≠ build83 B)
  free : ∀ u ∈ visits g v n e, u ≠ w → ¬ HasShortForm B u
  plain : build83 B ≠ padTo 11 [46] ∧ build83 B ≠ padTo 11 [46, 46]
  first : ∀ u ∈ scan [] (usedSlots g v (chain g v n e)), u ≠ w → matchesLong (B.take 255) u = false

variable {g : Geom} {v v' : Vol} {n cwd d e s m fuel : ℕ} {src dst path A B : Str}
    {u w r new : Visit} {x y : Mem} {s' : St}
  {T X L O : List ℕ} {P Q : List Visit}

namespace SameFile

theorem getLE {o k : ℕ} (h : SameFile x y) (h11 : 11 ≤ o) (h32 : o + k ≤ 32) : x.getLE o k = y.getLE o k :=
  Mem.getLE_congr fun i hi => h (o + i) (by omega) (by omega)

theorem cluster (h : SameFile x y) : entryCluster x = entryCluster y := by
  rw [entryCluster, entryCluster, h.getLE (by omega) (by omega), h.getLE (by omega) (by omega)]

theorem size (h : SameFile x y) : entrySize x = entrySize y := h.getLE (by omega) (by omega)

theorem attr (h : SameFile x y) : attr x = attr y := congrArg UInt8.toNat (h 11 (by omega) (by omega))

theorem isDirectory (h : SameFile x y) : isDirectory x = isDirectory y := by
  rw [Fat32.isDirectory, Fat32.isDirectory, h.attr]

end SameFile

theorem sameFile_renamed (entry : Mem) (B : Str) : SameFile (trim (renamed entry B)) entry := by
  intro j h11 h32
  rw [trim_of_lt h32, renamed, if_neg (by omega)]

theorem shortName_of {raw : Str} (hlen : raw.length = 11) (h : ∀ j < 11, x j = raw.getD j 0) : shortName x = raw := by
  refine List.ext_getElem (by rw [shortName, List.length_map, List.length_range, hlen]) fun j hj hj' => ?_
  rw [hlen] at hj'
  simp [shortName, h j hj', hlen, hj']

theorem shortName_renamed (entry : Mem) (B : Str) : shortName (trim (renamed entry B)) = build83 B := by
  rw [shortName_trim]
  exact shortName_of (length_build83 B) fun j hj => if_pos hj

theorem shortName_shortForm (B : Str) : shortName (shortForm B) = build83 B :=
  shortName_of (length_build83 B) fun _ _ => rfl

theorem format83_congr (h : shortName x = shortName y) : format83 x = format83 y := by
  have h8 : x 8 = y 8 := by
    have hget := congrArg (fun s : Str => s[8]?) h
    simpa [shortName] using hget
  rw [format83, format83, h, h8]

theorem listName_renamed {c i : ℕ} (entry : Mem) (B : Str) :
    listName ⟨c, i, trim (renamed entry B), []⟩ = format83 (shortForm B) := by
  rw [listName, if_neg (by simp)]
  exact format83_congr ((shortName_renamed entry B).trans (shortName_shortForm B).symm)

/-- A renamed entry is in use and no part of a long name. -/
theorem renamed_plain (hB : ∀ c ∈ B, Ascii c) (hattr : attr x ≠ ATTR_LFN) :
    renamed x B 0 ≠ 0 ∧ renamed x B 0 ≠ 0xE5 ∧ attr (renamed x B) ≠ ATTR_LFN := by
  have hascii : ∀ c ∈ build83 B, Ascii c :=
    forall_build83 ⟨by decide, by decide⟩ fun c hc => ⟨hB c hc, ascii_upper (hB c hc)⟩
  have hlen := length_build83 B
  have hmem : renamed x B 0 ∈ build83 B := by
    rw [renamed, if_pos (by omega), List.getD_eq_getElem _ _ (by omega)]
    exact List.getElem_mem _
  obtain ⟨h0, h128⟩ := hascii _ hmem
  refine ⟨h0, fun h => ?_, hattr⟩
  rw [h] at h128
  exact absurd h128 (by decide)

/-- Reading a file whose clusters are as they were. -/
theorem readLoop_same (hL : Linked g v s L) (hfat : ∀ c ∈ L, getEntry g v' c = getEntry g v c)
    (hdisk : ∀ c ∈ L, v'.disk c = v.disk c) : readLoop g v' fuel s m = readLoop g v fuel s m := by
  induction fuel generalizing s m L with
  | zero => rfl
  | succ fuel ih =>
    cases L with
    | nil =>
      have hend : isEndOfChain s = true := hL
      have hstop : ¬ (0 < m ∧ 2 ≤ s ∧ isEndOfChain s = false) := by
        rw [hend]
        exact fun h => by cases h.2.2
      rw [readLoop, readLoop, if_neg hstop, if_neg hstop]
    | cons c L =>
      obtain ⟨rfl, -, hrest⟩ := hL
      rw [readLoop, readLoop, hdisk s List.mem_cons_self, hfat s List.mem_cons_self,
        ih hrest (fun c hc => hfat c (List.mem_cons_of_mem _ hc)) fun c hc => hdisk c (List.mem_cons_of_mem _ hc)]

theorem readFinds_eq (g : Geom) (v : Vol) (n d : ℕ) (A : Str) : readFinds g v n d A =
    (visits g v n d).find? (matchesName A) :=
  rfl

theorem matchesName_renamed {c i : ℕ} (A B : Str) (entry : Mem) :
    matchesName A ⟨c, i, trim (renamed entry B), []⟩ = decide (build83 B = build83 A) := by
  rw [matchesName, matchesShort, matchesLong, shortName_renamed]
  simp

theorem sameName_renamed {c i : ℕ} (u : Visit) (B : Str) (entry : Mem) :
    SameName u ⟨c, i, trim (renamed entry B), []⟩ ↔ HasShortForm B u := by
  rw [SameName, HasShortForm, shortName_renamed, listName_renamed]

theorem SameName.symm (h : SameName u w) : SameName w u := h.imp Eq.symm Eq.symm

section Move

variable (hg : g.Ok) (hn : g.totalClusters ≤ n) (hv : Consistent g v n) (hd : IsDir g v n d) (he : IsDir g v n e)
  (hw : w ∈ live g v n d) (hfile : isDirectory w.entry = false)
  (hT : Linked g v (realCluster g e) (realCluster g e :: T)) (h : Moved g v v' n w new e T X P Q)
  (hnew : new.entry = trim (renamed w.entry B)) (hlfn : new.lfn = [])

include hg hn hv hd he hw hT in
/-- The entries other than the one that is moved. -/
theorem away_iff (hu : u ∈ visits g v n e) : (u.chunk, u.idx) ≠ (w.chunk, w.idx) ↔ u ≠ w := by
  constructor
  · rintro hne rfl
    exact hne rfl
  · intro hne
    by_cases hde : d = e
    · subst hde
      exact fun heq => hne (List.inj_on_of_nodup_map (nodup_visits hg hn hT) hu (mem_live.mp hw).1 heq)
    · exact places_apart hg hn hv hd he (mem_live.mp hw).1 hT hde hu

include hg hn hv hd he hw hT h in
theorem mem_parts : (∀ u, u ∈ away w P ↔ u ∈ P ∧ u ≠ w) ∧ ∀ u, u ∈ away w P ∨ u ∈ away w Q ↔
    u ∈ visits g v n e ∧ u ≠ w := by
  have hbefore := h.before
  have hP : ∀ u, u ∈ away w P ↔ u ∈ P ∧ u ≠ w := fun u => by
    rw [mem_away]
    exact and_congr_right fun hu =>
      away_iff hg hn hv hd he hw hT (hbefore ▸ List.mem_append_left _ hu)
  refine ⟨hP, fun u => ?_⟩
  rw [hP, mem_away, hbefore, List.mem_append, or_and_right]
  exact or_congr_right (and_congr_right fun hu =>
    away_iff hg hn hv hd he hw hT (hbefore ▸ List.mem_append_right _ hu))

include h in
theorem visits_after : visits g v' n e = away w P ++ new :: away w Q := by
  rw [h.after, away_append, away_cons_of_ne h.apart]

include h in
/-- The new entry is none of those before. -/
theorem new_not_mem : new ∉ P ∧ new ∉ Q := by
  have hplaces := h.places
  rw [List.map_append, List.map_cons, List.nodup_middle, List.nodup_cons, ← List.map_append] at hplaces
  constructor
  · exact fun hmem => hplaces.1 (List.mem_map_of_mem (List.mem_append_left _ hmem))
  · exact fun hmem => hplaces.1 (List.mem_map_of_mem (List.mem_append_right _ hmem))

include hg hn hv hd he hw hfile hT h hnew in
/-- The volume is consistent and has the same directories. -/
theorem consistent_after (hplain : isDot new.entry = false) : Consistent g v' n ∧
    (∀ x, IsDir g v' n x ↔ IsDir g v n x) ∧ ∀ x, IsDir g v n x → x ≠ d → x ≠ e →
    visits g v' n x = visits g v n x := by
  obtain ⟨O, hO, hlen⟩ := hv.files d w ⟨hd, hw⟩ hfile
  have hsame := sameFile_renamed w.entry B
  rw [← hnew] at hsame
  have hdir : isDirectory new.entry = false := by rw [hsame.isDirectory, hfile]
  obtain ⟨D, htaken⟩ := Moved.taken hg hn hv hd hw hfile hO
  have hput := h.put hg hn hv hd he hw hfile hT hO hlen ⟨hsame.cluster, hsame.size, hdir⟩ hplain
  have hmid := htaken.consistent hg hn hv
  refine ⟨hput.consistent hg hn hmid, fun x => ⟨fun hx => ?_, fun hx => ?_⟩, fun x hx hxd hxe => ?_⟩
  · rcases hput.isDir_cases hg hn hmid hx with hx | ⟨u, hu, hudir, -⟩
    · rcases htaken.isDir_cases hg hn hv hx with hx | ⟨u, hu, -⟩
      · exact hx
      · cases hu
    · rw [← Option.some.inj hu, hdir] at hudir
      cases hudir
  · exact hput.isDir_of hg hn hmid (htaken.isDir_of hg hn hv hx)
  · rw [hput.visits_other hg hn hmid (htaken.isDir_of hg hn hv hx) hxe, htaken.visits_other hg hn hv hx hxd]

include hg hn hv hd he hw hfile hT h hnew in
/-- The bytes of the file are as they were. -/
theorem content_after (hsame : SameFile w.entry r.entry) (m : ℕ) :
    contentOf g v' new.entry m = contentOf g v r.entry m := by
  have hnr : SameFile new.entry r.entry := by
    rw [hnew]
    exact fun j h1 h2 => (sameFile_renamed w.entry B j h1 h2).trans (hsame j h1 h2)
  obtain ⟨O, hO, hlen⟩ := hv.files d w ⟨hd, hw⟩ hfile
  obtain ⟨D, hD⟩ := hv.dirChain hd
  have hchunk := (real_chunk hg hn (mem_live.mp hw).1 hD).2
  have hTO := hv.dir_apart_file hg he hT ⟨hd, hw⟩ hfile hO
  have hDO := hv.dir_apart_file hg hd hD ⟨hd, hw⟩ hfile hO
  rw [contentOf, contentOf, hnr.size, hnr.cluster, ← hsame.cluster]
  rcases hO with ⟨rfl, hlt⟩ | ⟨-, hL⟩
  · have hnone : ∀ v : Vol, ∀ k k', readLoop g v k (entryCluster w.entry) k' = [] := by
      intro v k k'
      cases k with
      | zero => rfl
      | succ k => exact if_neg fun hc => absurd hc.2.1 (by omega)
    rw [hnone, hnone]
  · have hout : ∀ c ∈ O, c ∉ X ∧ c ∉ realCluster g e :: T ∧ c ≠ realCluster g w.chunk := by
      intro c hc
      refine ⟨fun hX => ?_, fun hcT => hTO c hcT hc, fun heq => hDO _ hchunk (heq ▸ hc)⟩
      have hfree := (h.fresh c hX).2
      rw [hL.not_free hg hc] at hfree
      cases hfree
    refine readLoop_same hL (fun c hc => ?_) fun c hc => h.cells c (hout c hc).1 (hout c hc).2.1 (hout c hc).2.2
    unfold getEntry
    rw [h.table c (hout c hc).1 (hout c hc).2.1]

include hg hn hv hd he hw hT h hnew hlfn in
/-- What a name finds in the new directory. -/
theorem find_after (A : Str) : readFinds g v' n e A = none ↔
    (∀ u ∈ visits g v n e, u ≠ w → matchesName A u = false) ∧ build83 B ≠ build83 A := by
  have hmatch : matchesName A new = decide (build83 B = build83 A) := by
    rw [← matchesName_renamed A B w.entry, ← hnew, ← hlfn]
  obtain ⟨-, hparts⟩ := mem_parts hg hn hv hd he hw hT h
  rw [readFinds_eq, visits_after h, List.find?_eq_none]
  constructor
  · intro hnone
    refine ⟨fun u hu hne => ?_, fun heq => ?_⟩
    · have hmem : u ∈ away w P ++ new :: away w Q := by
        rw [List.mem_append, List.mem_cons]
        rcases (hparts u).mpr ⟨hu, hne⟩ with hP | hQ
        · exact Or.inl hP
        · exact Or.inr (Or.inr hQ)
      exact Bool.not_eq_true _ ▸ hnone u hmem
    · refine hnone new (List.mem_append_right _ List.mem_cons_self) ?_
      rw [hmatch, heq, decide_eq_true rfl]
  · rintro ⟨hother, hne⟩ u hu
    rw [List.mem_append, List.mem_cons] at hu
    rcases hu with hu | rfl | hu
    · have hu' := (hparts u).mp (Or.inl hu)
      rw [hother u hu'.1 hu'.2]
      exact Bool.false_ne_true
    · rw [hmatch, decide_eq_false hne]
      exact Bool.false_ne_true
    · have hu' := (hparts u).mp (Or.inr hu)
      rw [hother u hu'.1 hu'.2]
      exact Bool.false_ne_true

include hg hn hv hd he hw hT h hnew in
theorem finds_new : readFinds g v' n e B = some new ↔ ∀ u ∈ P, u ≠ w → matchesName B u = false := by
  obtain ⟨hP, -⟩ := mem_parts hg hn hv hd he hw hT h
  rw [readFinds_eq, visits_after h, List.find?_append]
  constructor
  · intro hfind u hu hne
    cases hbefore : (away w P).find? (matchesName B) with
    | some x =>
      rw [hbefore, Option.some_or] at hfind
      obtain rfl := Option.some.inj hfind
      exact absurd ((hP x).mp (List.mem_of_find?_eq_some hbefore)).1 (new_not_mem h).1
    | none => exact Bool.not_eq_true _ ▸ List.find?_eq_none.mp hbefore u ((hP u).mpr ⟨hu, hne⟩)
  · intro hother
    have hbefore : (away w P).find? (matchesName B) = none := by
      refine List.find?_eq_none.mpr fun u hu => ?_
      rw [hother u ((hP u).mp hu).1 ((hP u).mp hu).2]
      exact Bool.false_ne_true
    have hmatch : matchesName B new = true := by
      rw [matchesName, matchesShort, hnew, shortName_renamed, decide_eq_true rfl, Bool.true_or]
    rw [hbefore, Option.none_or, List.find?_cons_of_pos hmatch]

include hg hn hv hd he hw hfile hT h hnew hlfn in
/-- No directory has two entries with one name if and only if the short form of the new name was
free. -/
theorem unique_after (hplain : isDot new.entry = false) (hunique : NamesUnique g v n) :
    NamesUnique g v' n ↔ ∀ u ∈ visits g v n e, u ≠ w → ¬ HasShortForm B u := by
  obtain ⟨-, hparts⟩ := mem_parts hg hn hv hd he hw hT h
  obtain ⟨-, hdirs, hothers⟩ := consistent_after hg hn hv hd he hw hfile hT h hnew hplain
  have hname : ∀ u, SameName u new ↔ HasShortForm B u := fun u => by
    rw [← sameName_renamed (c := new.chunk) (i := new.idx) u B w.entry, ← hnew, ← hlfn]
  have hsplit := visits_after h
  constructor
  · intro hafter u hu hne hform
    have hpair := hafter e ((hdirs e).mpr he)
    rw [hsplit, List.pairwise_middle fun hxy hyx => hxy hyx.symm, List.pairwise_cons] at hpair
    refine hpair.1 u ?_ ((hname u).mpr hform).symm
    rw [List.mem_append]
    exact (hparts u).mpr ⟨hu, hne⟩
  · intro hfree x hx
    have hx := (hdirs x).mp hx
    by_cases hxe : x = e
    · rw [hxe, hsplit, List.pairwise_middle fun hxy hyx => hxy hyx.symm, List.pairwise_cons]
      refine ⟨fun u hu hsame => ?_, ?_⟩
      · obtain ⟨hmem, hne⟩ := (hparts u).mp (List.mem_append.mp hu)
        exact hfree u hmem hne ((hname u).mp hsame.symm)
      · have hpair := hunique e he
        rw [h.before] at hpair
        rw [← away_append]
        exact hpair.sublist List.filter_sublist
    · by_cases hxd : x = d
      · rw [hxd, h.source hg hn hv hd he hw hT (hxd ▸ hxe)]
        exact (hunique d hd).sublist List.filter_sublist
      · rw [hothers x hx hxd hxe]
        exact hunique x hx

include hg hn hv hd he hw hT h hnew hlfn in
/-- The old name finds nothing. -/
theorem gone_after (A : Str) : readFinds g v' n d A = none ↔
    (∀ u ∈ visits g v n d, u ≠ w → matchesName A u = false) ∧ (d = e → build83 A ≠ build83 B) := by
  by_cases hde : d = e
  · subst hde
    rw [find_after hg hn hv hd he hw hT h hnew hlfn]
    exact and_congr_right fun _ => ⟨fun hne _ => Ne.symm hne, fun hne => Ne.symm (hne rfl)⟩
  · obtain ⟨D, hD⟩ := hv.dirChain hd
    rw [readFinds_eq, h.source hg hn hv hd he hw hT hde, List.find?_eq_none, and_iff_left fun heq => absurd heq hde]
    refine forall_congr' fun u => ?_
    rw [mem_away, and_imp]
    refine forall_congr' fun hu => ?_
    rw [away_iff hg hn hv hd hd hw hD hu, Bool.not_eq_true]

end Move

theorem isDot_renamed {c i : ℕ} (entry : Mem) (B : Str) :
    isDot (⟨c, i, trim (renamed entry B), []⟩ : Visit).entry = false ↔
      build83 B ≠ padTo 11 [46] ∧ build83 B ≠ padTo 11 [46, 46] := by
  dsimp only
  rw [isDot, shortName_renamed, Bool.or_eq_false_iff, decide_eq_false_iff_not, decide_eq_false_iff_not]

/-- Where the directory takes a new entry, a move that succeeds renames the file if and only if it
has found that file, nothing else has the old name, the short form of the new name is free, and no
entry before the first free slot has the new name as its long name. -/
theorem mv_renames_iff (hg : g.Ok) (hn : g.totalClusters ≤ n) (hv : Consistent g v n)
    (hdots : ∀ x u, IsDir g v n x → u ∈ visits g v n x → isDot u.entry = true → isDirectory u.entry = true)
    (hunique : NamesUnique g v n) (hsrc : parentOf g v n cwd src = some (d, A)) (hd : IsDir g v n d)
    (hdst : dstOf g v n cwd dst A = some path) (hparent : parentOf g v n cwd path = some (e, B)) (he : IsDir g v n e)
    (hB : ∀ c ∈ B, Ascii c) (hrun : (fat32Mv g n src dst).run (full v cwd) = (some (), s')) :
    TakesEntry g v n e ∧ Renames g n v s'.vol d A r e B ↔
      TakesEntry g v n e ∧ ∃ w, mvFinds g v n d A = some w ∧ Movable g n v d A r w e B := by
  refine and_congr_right fun hok => ?_
  obtain ⟨w, p, s1, hfind, hfile, halloc, hlast⟩ := mv_steps hsrc hdst hparent hrun
  have hwv : w ∈ visits g v n d := List.mem_of_find?_eq_some hfind
  have hw : w ∈ live g v n d := by
    refine mem_live.mpr ⟨hwv, Bool.eq_false_iff.mpr fun hdot => ?_⟩
    rw [hdots d w hd hwv hdot] at hfile
    cases hfile
  obtain ⟨T, hT⟩ := hv.dirChain he
  obtain ⟨h0, h1, hattr⟩ := renamed_plain hB (mem_scan hwv).2.2.2
  obtain ⟨v1, X, Q, hs1, hmoved⟩ := moved_of_steps hg hn hv hd he hwv hT hok h0 h1 hattr halloc
  rw [hlast v1 hs1]
  change Renames g n v (flushed g (eraseVol g (putVol g v1 p (renamed w.entry B)) w)) d A r e B ↔ _
  generalize flushed g (eraseVol g (putVol g v1 p (renamed w.entry B)) w) = v' at hmoved
  obtain ⟨new, hn'⟩ : ∃ new : Visit, new = ⟨p.1, p.2, trim (renamed w.entry B), []⟩ := ⟨_, rfl⟩
  have hplain := isDot_renamed (c := p.1) (i := p.2) w.entry B
  rw [← hn'] at hmoved hplain
  have hnew : new.entry = trim (renamed w.entry B) := by rw [hn']
  have hlfn : new.lfn = [] := by rw [hn']
  obtain ⟨-, hparts⟩ := mem_parts hg hn hv hd he hw hT hmoved
  have hchain := chain_dir hg hn hT
  have hfresh : new ∉ visits g v n e := by
    rw [hmoved.before, List.mem_append, not_or]
    exact new_not_mem hmoved
  have hgone := gone_after hg hn hv hd he hw hT hmoved hnew hlfn A
  have hfinds := finds_new hg hn hv hd he hw hT hmoved hnew
  constructor
  · intro hren
    obtain ⟨u, hu, hufind, hufresh, hsame, -⟩ := hren.reads
    -- the entry that the new name finds is the new one
    have hnu : u = new := by
      have hmem := (mem_live.mp hu).1
      rw [visits_after hmoved, List.mem_append, List.mem_cons] at hmem
      rcases hmem with hmem | heq | hmem
      · exact absurd ((hparts u).mp (Or.inl hmem)).1 hufresh
      · exact heq
      · exact absurd ((hparts u).mp (Or.inr hmem)).1 hufresh
    subst hnu
    have hdot := (mem_live.mp hu).2
    refine ⟨w, hfind, fun j h1 h2 => ?_, hren.gone.imp_right hgone.mp,
      (unique_after hg hn hv hd he hw hfile hT hmoved hnew hlfn hdot hunique).mp hren.unique, hplain.mp hdot,
      fun x hx hne => ?_⟩
    · rw [← hsame j h1 h2, hnew]
      exact (sameFile_renamed w.entry B j h1 h2).symm
    · rw [hchain] at hx
      have hmatch := hfinds.mp hufind x hx hne
      rw [matchesName, Bool.or_eq_false_iff] at hmatch
      exact hmatch.2
  · rintro ⟨w', hfind', hmov⟩
    rw [hfind] at hfind'
    obtain rfl := Option.some.inj hfind'
    have hdot := hplain.mpr hmov.plain
    have hfound : readFinds g v' n e B = some new := by
      refine hfinds.mpr fun u hu hne => ?_
      have hu' : u ∈ visits g v n e := hmoved.before ▸ List.mem_append_left _ hu
      rw [matchesName, hmov.first u (by rw [hchain]; exact hu) hne, Bool.or_false, matchesShort,
        decide_eq_false_iff_not]
      exact fun heq => hmov.free u hu' hne (Or.inl heq)
    refine ⟨⟨new, mem_live.mpr ⟨List.mem_of_find?_eq_some hfound, hdot⟩, hfound, hfresh, ?_,
        content_after hg hn hv hd he hw hfile hT hmoved hnew hmov.file⟩, hmov.gone.imp_right hgone.mpr,
      (unique_after hg hn hv hd he hw hfile hT hmoved hnew hlfn hdot hunique).mpr hmov.free,
      (consistent_after hg hn hv hd he hw hfile hT hmoved hnew hdot).1⟩
    rw [hnew]
    exact fun j h1 h2 => (sameFile_renamed w.entry B j h1 h2).trans (hmov.file j h1 h2)

theorem nameVol_noSpare : NoSpare longGeom nameVol := by
  intro c h1 h2
  change 126 + 2 ≤ c at h1
  change c < 128 at h2
  omega

theorem nameVol_unique : NamesUnique longGeom nameVol 126 := by
  intro d hd
  have h0 := isDir_of_files (fun u hu => by rw [live_nameVol, List.mem_singleton] at hu; rw [hu]; decide) hd
  rw [h0, visits_nameVol_all]
  exact List.pairwise_singleton ..

theorem nameVol_dots (d : ℕ) (u : Visit) (hd : IsDir longGeom nameVol 126 d) (hu : u ∈ visits longGeom nameVol 126 d)
    (hdot : isDot u.entry = true) : isDirectory u.entry = true := by
  have h0 := isDir_of_files (fun u hu => by rw [live_nameVol, List.mem_singleton] at hu; rw [hu]; decide) hd
  rw [h0, visits_nameVol_all, List.mem_singleton] at hu
  rw [hu] at hdot
  exact absurd hdot (by decide)

theorem nameVol_dirOk : DirOk longGeom nameVol 126 0 := by
  refine ⟨?_, noOrphan_of_short fun p hp hlong => ?_⟩
  · exact (show ((slots longGeom nameVol (chain longGeom nameVol 126 0)).Pairwise fun p q =>
      p.entry 0 = 0 → q.entry 0 = 0) by decide +kernel)
  · have hall : ∀ p ∈ slots longGeom nameVol (chain longGeom nameVol 126 0),
      attr p.entry ≠ ATTR_LFN := by decide +kernel
    exact hall p hp hlong.2

/-- `longfile.txt` gets the name `b`. -/
theorem mv_renames_short : Renames longGeom 126 nameVol
    ((fat32Mv longGeom 126 [108, 111, 110, 103, 102, 105, 108, 101, 46, 116, 120, 116] [98]).run
    (full nameVol 0)).2.vol 0
    [108, 111, 110, 103, 102, 105, 108, 101, 46, 116, 120, 116] nameVisit 0 [98] := by
  have hone : ∀ u ∈ visits longGeom nameVol 126 0, u = nameVisit := fun u hu => by
    rw [visits_nameVol_all] at hu
    exact List.mem_singleton.mp hu
  have hfirst : scan [] (usedSlots longGeom nameVol (chain longGeom nameVol 126 0)) = [nameVisit] := rfl
  have hdst : dstOf longGeom nameVol 126 0 [98] [108, 111, 110, 103, 102, 105, 108, 101, 46, 116,
    120, 116] = some [98] := by
    decide +kernel
  refine ((mv_renames_iff longGeom_ok (by decide) nameVol_consistent nameVol_dots nameVol_unique rfl
    IsDir.root hdst rfl IsDir.root (by simp [Ascii]) (Prod.ext (by decide +kernel) rfl)).mpr
      ⟨⟨nameVol_dirOk, fun _ => nameVol_noSpare.allots⟩, nameVisit, rfl, fun _ _ _ => rfl,
      Or.inr ⟨fun u hu hne => ?_, ?_⟩, fun u hu hne => ?_, by decide, fun u hu hne => ?_⟩).2
  · exact absurd (hone u hu) hne
  · exact fun _ => by decide
  · exact absurd (hone u hu) hne
  · have hu' : u ∈ scan [] (usedSlots longGeom nameVol (chain longGeom nameVol 126 0)) := hu
    rw [hfirst] at hu'
    exact absurd (List.mem_singleton.mp hu') hne

/-- Moved to `longfilename.txt`, `longfile.txt` is still there. -/
theorem old_name_stays : ¬ ∀ (g : Geom) (v : Vol) (n cwd d e : ℕ) (src dst path A B : Str)
    (r : Visit) (s : St), g.Ok → g.totalClusters ≤ n → NoSpare g v → Consistent g v n →
    (∀ x u, IsDir g v n x → u ∈ visits g v n x → isDot u.entry = true → isDirectory u.entry = true) →
    NamesUnique g v n → parentOf g v n cwd src = some (d, A) → IsDir g v n d → readFinds g v n d A = some r →
    isDirectory r.entry = false → 1 ≤ dst.length → dst.length ≤ 255 → (∀ c ∈ dst, Ascii c) →
    dstOf g v n cwd dst A = some path → parentOf g v n cwd path = some (e, B) → IsDir g v n e → DirOk g v n e →
    (fat32Mv g n src dst).run (full v cwd) = (some (), s) → Renames g n v s.vol d A r e B := by
  intro h
  have hren := h longGeom nameVol 126 0 0 0 [108, 111, 110, 103, 102, 105, 108, 101, 46, 116, 120, 116]
    [108, 111, 110, 103, 102, 105, 108, 101, 110, 97, 109, 101, 46, 116, 120, 116]
    [108, 111, 110, 103, 102, 105, 108, 101, 110, 97, 109, 101, 46, 116, 120, 116]
    [108, 111, 110, 103, 102, 105, 108, 101, 46, 116, 120, 116]
    [108, 111, 110, 103, 102, 105, 108, 101, 110, 97, 109, 101, 46, 116, 120, 116] nameVisit
    ((fat32Mv longGeom 126 [108, 111, 110, 103, 102, 105, 108, 101, 46, 116, 120, 116]
      [108, 111, 110, 103, 102, 105, 108, 101, 110, 97, 109, 101, 46, 116, 120, 116]).run
      (full nameVol 0)).2 longGeom_ok
    (by decide) nameVol_noSpare nameVol_consistent nameVol_dots nameVol_unique rfl IsDir.root rfl
    (by decide) (by decide)
    (by decide) (by simp [Ascii]) (by decide +kernel) rfl IsDir.root nameVol_dirOk (Prod.ext (by decide +kernel) rfl)
  have hstays : (readFinds longGeom ((fat32Mv longGeom 126 [108, 111, 110, 103, 102, 105, 108, 101, 46, 116, 120, 116]
      [108, 111, 110, 103, 102, 105, 108, 101, 110, 97, 109, 101, 46, 116, 120, 116]).run (full nameVol 0)).2.vol 126 0
      [108, 111, 110, 103, 102, 105, 108, 101, 46, 116, 120, 116]).isSome = true := by decide +kernel
  rcases hren.gone with ⟨-, hsame⟩ | hgone
  · exact absurd hsame (by decide)
  · rw [hgone] at hstays
    cases hstays

end ComputerOS.Fat32
