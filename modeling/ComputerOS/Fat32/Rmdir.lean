import ComputerOS.Fat32.Runs

/-!
Removing a directory. Whether it is empty is decided on the first bytes of the short names in it: an
entry that begins with a dot does not count, and a name such as `.a.b` has such a short name.
-/
namespace ComputerOS.Fat32

open Function Fallible

/-- The steps of `fat32_rmdir` up to the entry of the directory. -/
def rmdirTarget (g : Geom) (n : ℕ) (path : Str) : M Visit := do
  let p ← resolveParent g n path
  if p.2 = [46] ∨ p.2 = [46, 46] then fail
  else
    match ← lookup fun v => rmdirFinds g v n p.1 p.2 with
    | none => fail
    | some w => if isDirectory w.entry = false then fail else pure w

/-- The steps after it. -/
def rmdirRest (g : Geom) (n : ℕ) (w : Visit) : M Unit := do
  if ← dirBusy g n (entryCluster w.entry) then fail
  else do
    freeChain g (entryCluster w.entry)
    let _ ← attempt (dirDeleteSlot g w.chunk w.idx)
    flushFat g

/-- If a directory is removed, it has no entry but `.` and `..`. -/
def RemovesEmpty (g : Geom) (n : ℕ) (path : Str) (s : St) : Prop :=
  ((fat32Rmdir g n path).run s).1 = some () →
    ∀ w s', (rmdirTarget g n path).run s = (some w, s') → live g s.vol n (entryCluster w.entry) = []

/-- An entry in the directory counts. -/
def Busy (g : Geom) (v : Vol) (n d : ℕ) : Prop := ∃ u ∈ visits g v n d, u.entry 0 ≠ 46

variable {g : Geom} {v v' v1 : Vol} {n cwd d : ℕ} {A path : Str} {call : Call} {s s' : St} {u w new : Visit}

theorem rmdirTarget_vol (h : (rmdirTarget g n path).run s = (some w, s')) : s'.vol = s.vol := by
  have hkeeps : Triple (fun t : St => t.vol = s.vol) (rmdirTarget g n path) (fun _ t => t.vol = s.vol)
      (fun t => t.vol = s.vol) := by
    refine (resolveParent_keeps (· = s.vol) (fun _ ht => ht) path).bind fun p => ?_
    split
    · exact Triple.fail fun t ht => ht
    · refine (lookup_keeps (· = s.vol) _ _).bind fun r => ?_
      cases r with
      | none => exact Triple.fail fun t ht => ht.1
      | some u =>
        dsimp only
        split
        · exact Triple.fail fun t ht => ht.1
        · exact Triple.pure fun t ht => ht.1
  have hrun := (hkeeps s rfl).1 w
  rw [h] at hrun
  exact hrun rfl

/-- The entries that count are found. -/
theorem any_counts (segs : List Mem) (L : List Slot) :
    ((L.takeWhile fun p => p.entry 0 ≠ 0).any fun p => counts p.entry) = true ↔ ∃ u ∈ scan segs L, u.entry 0 ≠ 46 := by
  induction L generalizing segs with
  | nil => simp [scan]
  | cons p L ih =>
    rw [scan]
    by_cases h0 : p.entry 0 = 0
    · simp [h0]
    rw [List.takeWhile_cons_of_pos (by simp [h0]), if_neg h0, List.any_cons, Bool.or_eq_true]
    by_cases h1 : p.entry 0 = 0xE5
    · rw [if_pos h1, ← ih [], or_iff_right]
      simp [counts, slotFree, h1]
    · rw [if_neg h1]
      by_cases hattr : attr p.entry = ATTR_LFN
      · rw [if_pos hattr, ← ih, or_iff_right]
        simp [counts, hattr]
      · rw [if_neg hattr, ih []]
        simp [counts, slotFree, h0, h1, hattr]

theorem dirBusy_run (g : Geom) (n d : ℕ) (s : St) : (dirBusy g n d).run s =
    (some (s.heap 0 && (((chain g s.vol n d).flatMap (slotsIn g s.vol)).takeWhile fun p =>
      p.entry 0 ≠ 0).any fun p => counts p.entry), { s with heap := fun i => s.heap (i + 1) }) := by
  have hmalloc : kmalloc.run s = (some (s.heap 0), { s with heap := fun i => s.heap (i + 1) }) := rfl
  rw [dirBusy, bind_of_some hmalloc]
  cases s.heap 0 <;> rfl

theorem rmdir_run (g : Geom) (n : ℕ) (path : Str) (s : St) : (fat32Rmdir g n path).run s =
    match (rmdirTarget g n path).run s with
    | (some w, s') => (rmdirRest g n w).run s'
    | (none, s') => (none, s') := by
  rw [fat32Rmdir, rmdirTarget, bind_run, bind_run]
  rcases (resolveParent g n path).run s with ⟨_ | p, s1⟩
  · rfl
  dsimp only
  split
  · rfl
  rw [bind_run, bind_run]
  rcases (lookup fun v => rmdirFinds g v n p.1 p.2).run s1 with ⟨_ | _ | w, s2⟩
  · rfl
  · rfl
  dsimp only
  split <;> rfl

/-- The call succeeds if and only if the path leads to a directory in which nothing counts. -/
theorem rmdir_some : ((fat32Rmdir g n path).run s).1 = some () ↔
    ∃ w s', (rmdirTarget g n path).run s = (some w, s') ∧
    ¬ (s'.heap 0 = true ∧ Busy g s.vol n (entryCluster w.entry)) := by
  rw [rmdir_run]
  rcases htarget : (rmdirTarget g n path).run s with ⟨_ | w, s'⟩
  · simp
  have hcounts := any_counts [] ((chain g s.vol n (entryCluster w.entry)).flatMap (slotsIn g s.vol))
  have hrest : ((rmdirRest g n w).run s').1 = some () ↔
    ¬ (s'.heap 0 = true ∧ Busy g s.vol n (entryCluster w.entry)) := by
    rw [rmdirRest, bind_of_some (dirBusy_run g n _ s'), rmdirTarget_vol htarget, Busy, visits,
      ← hcounts, ← Bool.and_eq_true]
    split
    · rename_i hbusy
      exact iff_of_false (fun h => by cases h) (not_not_intro hbusy)
    · rename_i hbusy
      exact iff_of_true rfl hbusy
  constructor
  · intro h
    exact ⟨w, s', rfl, hrest.mp h⟩
  · rintro ⟨w', s'', heq, hfree⟩
    obtain ⟨hw, rfl⟩ := Prod.mk.inj heq
    obtain rfl := Option.some.inj hw
    exact hrest.mpr hfree

/-- Only an empty directory is removed if and only if the one that the path leads to is empty or,
with a buffer to look for it, has an entry that counts. -/
theorem removesEmpty_iff : RemovesEmpty g n path s ↔ ∀ w s', (rmdirTarget g n path).run s = (some w, s') →
    live g s.vol n (entryCluster w.entry) = [] ∨ s'.heap 0 = true ∧ Busy g s.vol n (entryCluster w.entry) := by
  constructor
  · intro h w s' htarget
    by_cases hbusy : s'.heap 0 = true ∧ Busy g s.vol n (entryCluster w.entry)
    · exact Or.inr hbusy
    · exact Or.inl (h (rmdir_some.mpr ⟨w, s', htarget, hbusy⟩) w s' htarget)
  · intro h hrun w s' htarget
    obtain ⟨w', s'', htarget', hfree⟩ := rmdir_some.mp hrun
    rw [htarget] at htarget'
    obtain ⟨hw, rfl⟩ := Prod.mk.inj htarget'
    obtain rfl := Option.some.inj hw
    exact (h w s' htarget).resolve_right hfree

/-- What stands before the last dot begins with a dot. -/
def Hides (A : Str) : Prop := (stemOf A).head? = some 46

instance (A : Str) : Decidable (Hides A) := inferInstanceAs (Decidable (_ = _))

theorem upper_eq_dot {c : UInt8} (h : upper c = 46) : c = 46 := by
  unfold upper at h
  split at h
  · rename_i hsmall
    have hc : c = 78 := by rw [← UInt8.sub_add_cancel c 32, h]; rfl
    rw [hc] at hsmall
    exact absurd hsmall.1 (by decide)
  · exact h

theorem head_upper {X rest : Str} {k : ℕ} (hrest : X.take k = [] → rest.head? ≠ some 46)
    (h : ((X.take k).map upper ++ rest).head? = some 46) : X.head? = some 46 := by
  cases hX : X.take k with
  | nil =>
    rw [hX, List.map_nil, List.nil_append] at h
    exact absurd h (hrest hX)
  | cons c Y =>
    rw [hX, List.map_cons, List.cons_append, List.head?_cons] at h
    have hc : c = 46 := upper_eq_dot (Option.some.inj h)
    have hhead : (X.take k).head? = some 46 := by rw [hX, List.head?_cons, hc]
    rw [List.head?_take] at hhead
    split at hhead
    · cases hhead
    · exact hhead

theorem hides_of_build83 (hA : build83 A ≠ padTo 11 [46] ∧ build83 A ≠ padTo 11 [46, 46])
    (h : (build83 A).head? = some 46) : Hides A := by
  have hplain : ¬ (A = [46] ∨ A = [46, 46]) := by
    rintro (rfl | rfl)
    · exact hA.1 rfl
    · exact hA.2 rfl
  rw [build83, if_neg hplain, padTo, List.append_assoc] at h
  refine head_upper (fun hnil => ?_) h
  rw [hnil, List.map_nil, List.length_nil]
  simp

theorem hides_of_build83Tail {t : ℕ} (h : (build83Tail A t).head? = some 46) : Hides A := by
  rw [build83Tail, padTo, List.append_assoc, List.append_assoc] at h
  exact head_upper (fun _ => by simp) h

theorem head_shortName (e : Mem) : (shortName e).head? = some (e 0) := rfl

theorem NewNames.counts (h : NewNames A new) (hdot : isDot new.entry = false) (hshown : ¬ Hides A) :
    new.entry 0 ≠ 46 := by
  intro h46
  have hhead : (shortName new.entry).head? = some 46 := by rw [head_shortName, h46]
  rcases h with ⟨hshort, -⟩ | ⟨-, t, hshort⟩
  · rw [isDot, Bool.or_eq_false_iff, decide_eq_false_iff_not, decide_eq_false_iff_not, hshort] at hdot
    rw [hshort] at hhead
    exact hshown (hides_of_build83 hdot hhead)
  · rw [hshort] at hhead
    exact hshown (hides_of_build83Tail hhead)

def AllCount (g : Geom) (v : Vol) (n : ℕ) : Prop := ∀ d u, InTree g v n d u → u.entry 0 ≠ 46

/-- The volumes that calls lead to, as in `Reaches`, when no name that is made begins with a dot. -/
inductive Builds (g : Geom) (n cwd : ℕ) (v : Vol) : Vol → Prop
  | refl : Builds g n cwd v v
  | step {v1 v2 : Vol} {call : Call} : Builds g n cwd v v1 → call.Fits → Meets g v1 n cwd call →
      (∀ d A, parentOf g v1 n cwd call.path = some (d, A) → call.Makes g v1 n d A → ¬ Hides A) →
      (call.run g n).run (full v1 cwd) = (some (), full v2 cwd) → Builds g n cwd v v2

theorem Builds.reaches (h : Builds g n cwd v v') : Reaches g n cwd v v' := by
  induction h with
  | refl => exact Reaches.refl
  | step _ hfits hmeets _ hrun ih => exact Reaches.step ih hfits hmeets hrun

section Runs

variable (hg : g.Ok) (hn : g.totalClusters ≤ n) (hspare : NoSpare g v) (hv : Consistent g v n)

include hg hn hv in
theorem AllCount.change {D X O N : List ℕ} {old new : Option Visit} (hall : AllCount g v n)
    (h : Change g n v v' d D X O N old new) (hnew : ∀ u, new = some u → u.entry 0 ≠ 46) : AllCount g v' n := by
  intro e u hu
  rcases (h.inTree_iff hg hn hv).mp hu with ⟨hu, -⟩ | ⟨-, hu⟩
  · exact hall e u hu
  · exact hnew u hu

include hg hn hspare hv

theorem AllCount.step (hall : AllCount g v n) (hfits : call.Fits) (hmeets : Meets g v n cwd call)
    (hshown : ∀ d A, parentOf g v n cwd call.path = some (d, A) → call.Makes g v n d A → ¬ Hides A)
    (hrun : (call.run g n).run (full v cwd) = (some (), full v' cwd)) : AllCount g v' n := by
  obtain ⟨e, A, v2, D, X, O, N, old, new, hparent, hs, hchange, -, hnew⟩ :=
    call_change hg hn hspare hv hfits hmeets hrun
  obtain rfl : v' = v2 := congrArg St.vol hs
  refine hall.change hg hn hv hchange fun u hu => ?_
  obtain ⟨hnames, hmakes⟩ := hnew u hu
  cases old with
  | none => exact hnames.counts (hchange.named u hu) (hshown e A hparent (hmakes rfl))
  | some w =>
    have hw := hall e w ⟨hchange.dir, (hchange.gives w rfl).1⟩
    have hhead := head_shortName u.entry
    rw [hnames.2.1, head_shortName] at hhead
    rwa [← Option.some.inj hhead]

/-- In every volume that is built, every entry counts. -/
theorem AllCount.run (hall : AllCount g v n) (h : Builds g n cwd v v') : AllCount g v' n := by
  induction h with
  | refl => exact hall
  | step hbuilds hfits hmeets hshown hrun ih =>
    obtain ⟨hv1, hspare1⟩ := hbuilds.reaches.keeps hg hn hspare hv
    exact ih.step hg hn hspare1 hv1 hfits hmeets hshown hrun

end Runs

/-- With enough heap the walk leads to the entry that the path names. -/
theorem rmdirTarget_full (h : (rmdirTarget g n path).run (full v cwd) = (some w, s)) :
    s = full v cwd ∧ isDirectory w.entry = true ∧
      ∃ d A, parentOf g v n cwd path = some (d, A) ∧ rmdirFinds g v n d A = some w := by
  obtain ⟨d, A, hparent, hrun⟩ := resolveParent_some h
  dsimp only at hrun
  split at hrun
  · cases hrun
  rw [bind_of_some (lookup_full _)] at hrun
  cases hfind : rmdirFinds g v n d A with
  | none =>
    rw [hfind] at hrun
    cases hrun
  | some u =>
    rw [hfind] at hrun
    dsimp only at hrun
    split at hrun
    · cases hrun
    rename_i hdir
    obtain ⟨hu, rfl⟩ := Prod.mk.inj hrun
    obtain rfl := Option.some.inj hu
    exact ⟨rfl, Bool.not_eq_false _ ▸ hdir, d, A, hparent, hfind⟩

theorem AllCount.removesEmpty (hall : AllCount g v n) (hinside : Inside g v n (parentStart cwd path) (parentComps path))
    (hnamed : ∀ d A u, parentOf g v n cwd path = some (d, A) → rmdirFinds g v n d A = some u → isDot u.entry = false) :
    RemovesEmpty g n path (full v cwd) := by
  refine removesEmpty_iff.mpr fun w s' htarget => ?_
  obtain ⟨rfl, hdir, d, A, hparent, hfind⟩ := rmdirTarget_full htarget
  have hd := isDir_parentOf hinside hparent
  have hw : w ∈ live g v n d := by
    refine mem_live.mpr ⟨?_, hnamed d A w hparent hfind⟩
    unfold rmdirFinds at hfind
    split at hfind
    · cases hfind
    · exact List.mem_of_find?_eq_some hfind
  have he : IsDir g v n (entryCluster w.entry) := IsDir.sub hd hw hdir
  cases hlive : live g v n (entryCluster w.entry) with
  | nil => exact Or.inl hlive
  | cons u L =>
    have hu : u ∈ live g v n (entryCluster w.entry) := by
      rw [hlive]
      exact List.mem_cons_self
    exact Or.inr ⟨rfl, u, (mem_live.mp hu).1, hall _ u ⟨he, hu⟩⟩

/-- A directory with one entry is not removed. -/
theorem RemovesEmpty.not_removed (h : RemovesEmpty g n path s) (hone : (((rmdirTarget g n path).run s).1.any fun w =>
    (live g s.vol n (entryCluster w.entry)).length = 1) = true) : ((fat32Rmdir g n path).run s).1 = none := by
  by_contra hsome
  obtain ⟨⟨⟩, hdone⟩ := Option.ne_none_iff_exists'.mp hsome
  rcases htarget : (rmdirTarget g n path).run s with ⟨_ | w, s'⟩
  · rw [htarget] at hone
    cases hone
  · rw [htarget] at hone
    have hlen := of_decide_eq_true hone
    rw [h hdone w s' htarget] at hlen
    cases hlen

def dirVol : Vol := ((Call.run longGeom 126 (.mkdir [100])).run (full emptyVol 0)).2.vol

/-- And after one byte is written to `d/ab`. -/
def fileVol : Vol := ((Call.run longGeom 126 (.write [100, 47, 97, 98] [7])).run (full dirVol 0)).2.vol

/-- The directory `d` is the cluster after the root's. -/
theorem dirVol_isDir : IsDir longGeom dirVol 126 3 := by
  have hsub : ((live longGeom dirVol 126 0).any fun u => isDirectory u.entry && entryCluster u.entry = 3) = true := by
    decide +kernel
  obtain ⟨u, hu, hboth⟩ := List.any_eq_true.mp hsub
  obtain ⟨hdir, hcluster⟩ := (Bool.and_eq_true _ _).mp hboth
  rw [← of_decide_eq_true hcluster]
  exact IsDir.sub IsDir.root hu hdir

theorem meets_mkdir : Meets longGeom emptyVol 126 0 (.mkdir [100]) :=
  meets_plain (by decide) (show (Call.mkdir [100]).path = [100] from rfl) IsDir.root
    (nameOk_of_none (by decide +kernel) (by decide)
    (show ∀ c ∈ ([100] : Str), Ascii c by simp [Ascii]) (by decide)
    fun _ => by decide) emptyVol_dirOk

theorem parentOf_dirVol (h : parentOf longGeom dirVol 126 0 [100, 47, 97, 98] = some (d, A)) :
    d = 3 ∧ A = [97, 98] := by
  have hparent : parentOf longGeom dirVol 126 0 [100, 47, 97, 98] = some (3, [97, 98]) := by decide +kernel
  rw [hparent] at h
  obtain ⟨rfl, rfl⟩ := Prod.mk.inj (Option.some.inj h)
  exact ⟨rfl, rfl⟩

theorem meets_write : Meets longGeom dirVol 126 0 (.write [100, 47, 97, 98] [7]) := by
  have hcomps : parentComps [100, 47, 97, 98] = [[100]] := by decide
  have hcomp : compDir longGeom dirVol 126 0 [100] = some 3 := by decide +kernel
  refine ⟨?_, fun d A hA => ?_, fun d A hA _ => ?_, fun d A hA _ => ?_⟩
  · change Inside longGeom dirVol 126 0 (parentComps [100, 47, 97, 98])
    rw [hcomps]
    intro pre post x heq hx
    cases pre with
    | nil =>
      obtain rfl := Option.some.inj hx
      exact IsDir.root
    | cons c pre =>
      obtain ⟨rfl, htail⟩ := List.cons.inj heq
      obtain ⟨rfl, -⟩ := List.append_eq_nil_iff.mp htail.symm
      rw [List.foldlM_cons, hcomp] at hx
      obtain rfl := Option.some.inj hx
      exact dirVol_isDir
  · obtain ⟨rfl, rfl⟩ := parentOf_dirVol hA
    exact nameOk_of_none (by decide +kernel) (by decide)
      (show ∀ c ∈ ([97, 98] : Str), Ascii c by simp [Ascii]) (by decide)
      fun _ => by decide
  · obtain ⟨rfl, rfl⟩ := parentOf_dirVol hA
    have hlong : ∀ p ∈ slots longGeom dirVol (chain longGeom dirVol 126 3), attr p.entry ≠ ATTR_LFN := by decide +kernel
    exact ⟨(show (slots longGeom dirVol (chain longGeom dirVol 126 3)).Pairwise fun p q =>
      p.entry 0 = 0 → q.entry 0 = 0 by
      decide +kernel), noOrphan_of_short fun p hp h => hlong p hp h.2⟩
  · obtain ⟨rfl, rfl⟩ := parentOf_dirVol hA
    change Clear longGeom dirVol 126 0 3 [97, 98] (parentComps [100, 47, 97, 98])
    rw [hcomps]
    intro pre comp post heq hx
    -- the only component is looked up in the root
    cases pre with
    | nil => cases hx
    | cons c pre =>
      obtain ⟨-, htail⟩ := List.cons.inj heq
      exact absurd htail (by simp)

end ComputerOS.Fat32
