import ComputerOS.Fat32.Walk

/-!
Runs of calls that write files, make directories and delete files, with enough heap. A call that
succeeds and meets `Meets` keeps the volume consistent, and a file that it writes reads back.
-/
namespace ComputerOS.Fat32

open Function Fallible

inductive Call where
  | write (path data : Str)
  | mkdir (path : Str)
  | delete (path : Str)

def Call.path : Call → Str
  | write path _ => path
  | mkdir path => path
  | delete path => path

def Call.run (g : Geom) (n : ℕ) : Call → M Unit
  | write path data => do
      let _ ← fat32WriteFile g n path data
      pure ()
  | mkdir path => fat32Mkdir g n path
  | delete path => fat32DeleteFile g n path

def runCalls (g : Geom) (n : ℕ) : List Call → M Unit
  | [] => pure ()
  | call :: calls => do
      call.run g n
      runCalls g n calls

/-- The length of a file fits in 32 bits. -/
def Call.Fits : Call → Prop
  | write _ data => data.length < 2 ^ 32
  | _ => True

def Call.Makes (g : Geom) (v : Vol) (n d : ℕ) (A : Str) : Call → Prop
  | delete _ => False
  | _ => readFinds g v n d A = none

/-- What a call needs of its path, in the volume that it finds: the walk stays in the tree, the name
finds or makes no entry `.` or `..`, and where a new entry is made, the directory is in order and
the entry is not found on the way. -/
structure Meets (g : Geom) (v : Vol) (n cwd : ℕ) (call : Call) : Prop where
  inside : Inside g v n (parentStart cwd call.path) (parentComps call.path)
  name : ∀ d A, parentOf g v n cwd call.path = some (d, A) → NameOk g v n d A
  tidy : ∀ d A, parentOf g v n cwd call.path = some (d, A) → call.Makes g v n d A → DirOk g v n d
  clear : ∀ d A, parentOf g v n cwd call.path = some (d, A) → call.Makes g v n d A →
    Clear g v n (parentStart cwd call.path) d A (parentComps call.path)

/-- The volumes that calls which succeed lead to, when each of them meets the condition. -/
inductive Reaches (g : Geom) (n cwd : ℕ) (v : Vol) : Vol → Prop
  | refl : Reaches g n cwd v v
  | step {v1 v2 : Vol} {call : Call} : Reaches g n cwd v v1 → call.Fits → Meets g v1 n cwd call →
      (call.run g n).run (full v1 cwd) = (some (), full v2 cwd) → Reaches g n cwd v v2

/-- What a call that succeeds leaves. -/
structure Kept (g : Geom) (n cwd : ℕ) (call : Call) (v : Vol) : Prop where
  consistent : Consistent g v n
  spare : NoSpare g v
  flushed : Flushed g v
  reads : ∀ path data, call = .write path data → ∀ max, data.length ≤ max →
    (fat32ReadFile g n path max).run (full v cwd) = (some data, full v cwd)

variable {g : Geom} {v v' v1 v2 : Vol} {n cwd d : ℕ} {A path data : Str} {call : Call} {s : St}

section Step

variable (hg : g.Ok) (hn : g.totalClusters ≤ n) (hspare : NoSpare g v) (hv : Consistent g v n)

/-- Where the parent directory is found, the call goes on in it. -/
theorem resolveParent_some {α : Type} {f : ℕ × Str → M α} {a : α}
    (h : (resolveParent g n path >>= f).run (full v cwd) = (some a, s)) :
    ∃ d A, parentOf g v n cwd path = some (d, A) ∧ (f (d, A)).run (full v cwd) = (some a, s) := by
  rw [bind_run, resolveParent_full] at h
  cases hparent : parentOf g v n cwd path with
  | none =>
    rw [hparent] at h
    cases h
  | some p =>
    rw [hparent] at h
    exact ⟨p.1, p.2, rfl, h⟩

theorem spare_of_change (hspare : NoSpare g v) {D X O N : List ℕ} {old new : Option Visit}
    (h : Change g n v v' d D X O N old new) :
    NoSpare g v' := by
  refine hspare.congr fun c hc => h.table c (fun hX => ?_) (fun hO => ?_) (fun hN => ?_) (fun hD => ?_)
  · have := (h.fresh c (List.mem_append_left _ hX)).1.2
    omega
  · obtain ⟨u, -, -, -, -, hlink⟩ := h.owns_of_mem hO
    have := (hlink.data c hO).2
    omega
  · have := (h.fresh c (List.mem_append_right _ hN)).1.2
    omega
  · have := (h.before.data c hD).2
    omega

include hg hn hspare hv

/-- Writing a file, which makes an entry or replaces one. -/
theorem write_change (hfits : data.length < 2 ^ 32) (hmeets : Meets g v n cwd (.write path data))
    (hrun : (fat32WriteFile g n path data).run (full v cwd) = (some d, s)) :
    ∃ e A v' D X O N old new, parentOf g v n cwd path = some (e, A) ∧ s = full v' cwd ∧
      Change g n v v' e D X O N old (some new) ∧ Edit (visits g v n e) (visits g v' n e) old (some new) ∧
      Flushed g v' ∧ FileWritten g v' data new ∧ Names A new old ∧ writeFinds g v n e A = old := by
  obtain ⟨e, A, hparent, hwrite⟩ := resolveParent_some hrun
  have he := isDir_parentOf hmeets.inside hparent
  have hA := hmeets.name e A hparent
  cases hfind : writeFinds g v n e A with
  | none =>
    obtain ⟨v', D, X, N, new, hs, hchange, hedit, hflush, hw, hnames⟩ :=
      writeNew_full hg hn hspare hv he hA hfits (hmeets.tidy e A hparent hfind) hfind hwrite
    exact ⟨e, A, v', D, X, [], N, none, new, hparent, hs, hchange, hedit, hflush, hw, hnames, hfind⟩
  | some u =>
    obtain ⟨v', D, O, N, new, hs, hchange, hedit, hflush, hw, hnames⟩ :=
      writeOver_full hg hn hspare hv he hA hfits hfind hwrite
    exact ⟨e, A, v', D, [], O, N, some u, new, hparent, hs, hchange, hedit, hflush, hw, hnames, hfind⟩

theorem write_kept (hfits : data.length < 2 ^ 32) (hmeets : Meets g v n cwd (.write path data))
    (hrun : (fat32WriteFile g n path data).run (full v cwd) = (some d, s)) :
    ∃ v', s = full v' cwd ∧ Kept g n cwd (.write path data) v' := by
  obtain ⟨e, A, v', D, X, O, N, old, new, hparent, hs, hchange, hedit, hflush, hw, hnames, hfind⟩ :=
    write_change hg hn hspare hv hfits hmeets hrun
  have hA := hmeets.name e A hparent
  obtain ⟨T, hT⟩ := hv.dirChain (isDir_parentOf hmeets.inside hparent)
  have hparent' := parentOf_kept hg hn hv hchange hedit hnames hmeets.inside
    (fun hnone => hmeets.clear e A hparent (hfind.trans hnone)) hparent
  have hfound := readFinds_written (nodup_visits hg hn hT) hedit hnames hfind hA.nonempty hA.length
  refine ⟨v', hs, hchange.consistent hg hn hv, spare_of_change hspare hchange, hflush, fun p d' heq max hmax => ?_⟩
  obtain ⟨rfl, rfl⟩ := Call.write.inj heq
  exact read_written hg hparent' hfound hw hmax

omit hg hn hspare hv in
theorem write_run (hrun : ((Call.write path data).run g n).run (full v cwd) = (some (), s)) :
    ∃ r, (fat32WriteFile g n path data).run (full v cwd) = (some r, s) := by
  rw [Call.run, bind_run] at hrun
  rcases hwrite : (fat32WriteFile g n path data).run (full v cwd) with ⟨_ | r, s1⟩
  · rw [hwrite] at hrun
    cases hrun
  · rw [hwrite] at hrun
    obtain ⟨-, rfl⟩ := Prod.mk.inj hrun
    exact ⟨r, rfl⟩

theorem call_change (hfits : call.Fits) (hmeets : Meets g v n cwd call)
    (hrun : (call.run g n).run (full v cwd) = (some (), s)) :
    ∃ e A v' D X O N old new, parentOf g v n cwd call.path = some (e, A) ∧ s = full v' cwd ∧
      Change g n v v' e D X O N old new ∧ Flushed g v' ∧
      ∀ u, new = some u → Names A u old ∧ (old = none → call.Makes g v n e A) := by
  cases call with
  | write path data =>
    obtain ⟨r, hwrite⟩ := write_run hrun
    obtain ⟨e, A, v', D, X, O, N, old, new, hparent, hs, hchange, -, hflush, -, hnames, hfind⟩ :=
      write_change hg hn hspare hv hfits hmeets hwrite
    refine ⟨e, A, v', D, X, O, N, old, some new, hparent, hs, hchange, hflush, fun u hu => ?_⟩
    obtain rfl := Option.some.inj hu
    exact ⟨hnames, fun hnone => hfind.trans hnone⟩
  | mkdir path =>
    obtain ⟨e, A, hparent, hmk⟩ := resolveParent_some (f := fun p => mkdirIn g n p.1 p.2) hrun
    have he := isDir_parentOf hmeets.inside hparent
    have hnone : readFinds g v n e A = none := by
      rw [mkdirIn, bind_of_some (lookup_full _)] at hmk
      cases hfind : dirFindLfn g v n e (build83 A) A with
      | none => exact hfind
      | some u =>
        rw [hfind] at hmk
        cases hmk
    obtain ⟨v', D, X, c, new, hs, hchange, hflush, hnames⟩ :=
      mkdirIn_full hg hn hspare hv he (hmeets.name e A hparent) (hmeets.tidy e A hparent hnone) hmk
    refine ⟨e, A, v', D, X, [], [c], none, some new, hparent, hs, hchange, hflush, fun u hu => ?_⟩
    obtain rfl := Option.some.inj hu
    exact ⟨hnames, fun _ => hnone⟩
  | delete path =>
    obtain ⟨e, A, hparent, hdel⟩ := resolveParent_some (f := fun p => deleteIn g n p.1 p.2) hrun
    have he := isDir_parentOf hmeets.inside hparent
    obtain ⟨v', D, O, u, hs, hchange, hflush⟩ := deleteIn_full hg hn hv he (hmeets.name e A hparent) hdel
    exact ⟨e, A, v', D, [], O, [], some u, none, hparent, hs, hchange, hflush, fun u hu => by cases hu⟩

theorem call_kept (hfits : call.Fits) (hmeets : Meets g v n cwd call)
    (hrun : (call.run g n).run (full v cwd) = (some (), s)) : ∃ v', s = full v' cwd ∧ Kept g n cwd call v' := by
  obtain ⟨e, A, v', D, X, O, N, old, new, -, hs, hchange, hflush, -⟩ := call_change hg hn hspare hv hfits hmeets hrun
  refine ⟨v', hs, hchange.consistent hg hn hv, spare_of_change hspare hchange, hflush, fun path data heq => ?_⟩
  subst heq
  obtain ⟨r, hwrite⟩ := write_run hrun
  obtain ⟨v2, hs2, hkept⟩ := write_kept hg hn hspare hv hfits hmeets hwrite
  rw [show v' = v2 from congrArg St.vol (hs.symm.trans hs2)]
  exact hkept.reads path data rfl

/-- The same, where only the answer of the call is known. -/
theorem call_kept_of_fst (hfits : call.Fits) (hmeets : Meets g v n cwd call)
    (hrun : ((call.run g n).run (full v cwd)).1 = some ()) :
    (call.run g n).run (full v cwd) = (some (), full ((call.run g n).run (full v cwd)).2.vol cwd) ∧
      Kept g n cwd call ((call.run g n).run (full v cwd)).2.vol := by
  obtain ⟨v', hs, hkept⟩ := call_kept hg hn hspare hv hfits hmeets (Prod.ext hrun rfl)
  rw [show ((call.run g n).run (full v cwd)).2.vol = v' from congrArg St.vol hs]
  exact ⟨Prod.ext hrun hs, hkept⟩

end Step

theorem Reaches.keeps (hg : g.Ok) (hn : g.totalClusters ≤ n) (hspare : NoSpare g v) (hv : Consistent g v n)
    (h : Reaches g n cwd v v') : Consistent g v' n ∧ NoSpare g v' := by
  induction h with
  | refl => exact ⟨hv, hspare⟩
  | step _ hfits hmeets hrun ih =>
    obtain ⟨v2, hs, hkept⟩ := call_kept hg hn ih.2 ih.1 hfits hmeets hrun
    obtain rfl : _ = v2 := congrArg St.vol hs
    exact ⟨hkept.consistent, hkept.spare⟩

/-- After every call of such a run the volume is consistent, the copies of the table on disk are the
cached table, and a file that was written reads back. -/
theorem runs_keep_volume (hg : g.Ok) (hn : g.totalClusters ≤ n) (hspare : NoSpare g v) (hv : Consistent g v n)
    (hreach : Reaches g n cwd v v1) (hfits : call.Fits) (hmeets : Meets g v1 n cwd call)
    (hrun : (call.run g n).run (full v1 cwd) = (some (), s)) : ∃ v2, s = full v2 cwd ∧ Kept g n cwd call v2 := by
  obtain ⟨hv1, hspare1⟩ := hreach.keeps hg hn hspare hv
  exact call_kept hg hn hspare1 hv1 hfits hmeets hrun

/-- Below an empty root there is no directory. -/
theorem isDir_of_empty (hlive : live g v n 0 = []) (h : IsDir g v n d) : d = 0 := by
  induction h with
  | root => rfl
  | sub _ hu _ ih =>
    rw [ih, hlive] at hu
    cases hu

theorem consistent_of_empty (hroot : Linked g v g.rootCluster [g.rootCluster]) (hlive : live g v n 0 = [])
    (hfree : ∀ c, DataCluster g c → c ≠ g.rootCluster → getEntry g v c = FAT32_FREE) : Consistent g v n := by
  have hnone : ∀ e u, ¬ InTree g v n e u := by
    rintro e u ⟨he, hu⟩
    rw [isDir_of_empty hlive he, hlive] at hu
    cases hu
  refine ⟨⟨[], hroot⟩, fun d u h => absurd h (hnone d u), fun d u h => absurd h (hnone d u),
    fun d u _ _ h => absurd h (hnone d u), fun d u h => absurd h (hnone d u), fun c hc hused _ => ?_⟩
  have hcroot : c = g.rootCluster := by
    by_contra hne
    exact hused (hfree c hc hne)
  refine ⟨g.rootCluster, ⟨Or.inl rfl, [g.rootCluster], hroot, List.mem_singleton.mpr hcroot⟩, ?_⟩
  rintro s ⟨hs | ⟨e, u, hu, -⟩, -⟩
  · exact hs
  · exact absurd hu (hnone e u)

theorem isDir_of_files (hlive : ∀ u ∈ live g v n 0, isDirectory u.entry = false) (h : IsDir g v n d) : d = 0 := by
  induction h with
  | root => rfl
  | sub _ hu hdir ih =>
    rw [ih] at hu
    rw [hlive _ hu] at hdir
    cases hdir

theorem consistent_of_file {u : Visit} (hg : g.Ok) (hroot : Linked g v g.rootCluster [g.rootCluster])
    (hlive : live g v n 0 = [u]) (hfile : isDirectory u.entry = false)
    (hchain : Linked g v (entryCluster u.entry) [entryCluster u.entry]) (hne : entryCluster u.entry ≠ g.rootCluster)
    (hsize : clustersFor g (entrySize u.entry) = 1)
    (hfree : ∀ c, DataCluster g c → c ≠ g.rootCluster → c ≠ entryCluster u.entry → getEntry g v c = FAT32_FREE) :
    Consistent g v n := by
  have hone : ∀ e w, InTree g v n e w → e = 0 ∧ w = u := by
    rintro e w ⟨he, hw⟩
    have h0 := isDir_of_files (fun w hw => by rw [hlive, List.mem_singleton] at hw; rw [hw, hfile]) he
    rw [h0, hlive, List.mem_singleton] at hw
    exact ⟨h0, hw⟩
  have hu : InTree g v n 0 u := ⟨IsDir.root, by rw [hlive]; exact List.mem_singleton_self u⟩
  refine ⟨⟨[], hroot⟩, fun e w h hdir => ?_, fun e w h _ => ?_, fun e w e' w' h h' _ _ => ?_,
    fun e w h => ?_, fun c hc hused _ => ?_⟩
  · rw [(hone e w h).2, hfile] at hdir
    cases hdir
  · rw [(hone e w h).2]
    exact ⟨[entryCluster u.entry], Or.inr ⟨List.cons_ne_nil _ _, hchain⟩, hsize.symm⟩
  · obtain ⟨rfl, rfl⟩ := hone e w h
    obtain ⟨rfl, rfl⟩ := hone e' w' h'
    exact ⟨rfl, rfl⟩
  · rw [(hone e w h).2]
    exact hne
  · have hstart : ∀ s, Start g v n s → Owns g v s c → s = c := by
      rintro s hs ⟨L, hL, hmem⟩
      rcases hs with rfl | ⟨e, w, hw, rfl, -⟩
      · rw [hL.unique hg hroot, List.mem_singleton] at hmem
        exact hmem.symm
      · rw [(hone e w hw).2] at hL ⊢
        rw [hL.unique hg hchain, List.mem_singleton] at hmem
        exact hmem.symm
    refine ⟨c, ⟨?_, ?_⟩, fun s hs => hstart s hs.1 hs.2⟩
    · by_cases hcroot : c = g.rootCluster
      · exact Or.inl hcroot
      · have hcu : c = entryCluster u.entry := by
          by_contra hother
          exact hused (hfree c hc hcroot hother)
        exact Or.inr ⟨0, u, hu, hcu.symm, hc.1⟩
    · by_cases hcroot : c = g.rootCluster
      · exact ⟨[g.rootCluster], by rw [hcroot]; exact hroot, List.mem_singleton.mpr hcroot⟩
      · have hcu : c = entryCluster u.entry := by
          by_contra hother
          exact hused (hfree c hc hcroot hother)
        exact ⟨[entryCluster u.entry], by rw [hcu]; exact hchain, List.mem_singleton.mpr hcu⟩

theorem noOrphan_of_short {L : List Slot} (h : ∀ p ∈ L, ¬ IsLong p.entry) : NoOrphan L := by
  induction L with
  | nil => trivial
  | cons p L ih =>
    cases L with
    | nil => exact h p (List.mem_singleton_self p)
    | cons q L =>
      exact ⟨fun hlong => absurd hlong (h p List.mem_cons_self), ih fun x hx => h x (List.mem_cons_of_mem _ hx)⟩

/-- Slots with end marks are in order. -/
theorem dirOk_of_zero (h : ∀ p ∈ slots g v (chain g v n d), p.entry 0 = 0) : DirOk g v n d := by
  refine ⟨List.pairwise_of_forall_mem_list fun _ _ q hq _ => h q hq, noOrphan_of_short fun p hp hlong => ?_⟩
  exact (slotFree_eq_false.mp hlong.1).2 (h p hp)

def emptyVol : Vol where
  fat := fun c => if c < 3 then FAT32_EOC else 0
  copies := fun _ c => if c < 3 then FAT32_EOC else 0
  disk := fun _ _ => 0

theorem longGeom_ok : longGeom.Ok := ⟨by decide, by decide, by decide, by decide⟩

theorem emptyVol_consistent : Consistent longGeom emptyVol 126 := by
  refine consistent_of_empty ⟨rfl, ⟨by decide, by decide⟩, show isEndOfChain _ = true by decide⟩ ?_ fun c hc hne => ?_
  · exact List.length_eq_zero_iff.mp (by decide +kernel)
  · have hroot : longGeom.rootCluster = 2 := rfl
    have hc3 : ¬ c < 3 := by
      have := hc.1
      omega
    rw [getEntry_of_lt (hc.lt longGeom_ok)]
    change (if c < 3 then FAT32_EOC else 0) % 2 ^ 28 = FAT32_FREE
    rw [if_neg hc3]
    rfl

theorem emptyVol_noSpare : NoSpare longGeom emptyVol := by
  intro c h1 h2
  change 126 + 2 ≤ c at h1
  change c < 128 at h2
  omega

/-- A file with the name `...` is stored as an entry `..`, and its cluster belongs to no file. -/
theorem volume_not_kept : ¬ ∀ (g : Geom) (v : Vol) (n cwd : ℕ) (calls : List Call), g.Ok →
    g.totalClusters ≤ n → NoSpare g v → Consistent g v n → IsDir g v n cwd →
    (∀ call ∈ calls, call.Fits ∧ ∀ v d A, parentOf g v n cwd call.path = some (d, A) →
      (∀ c ∈ A, Ascii c) ∧ 1 ≤ A.length ∧ A.length ≤ 255 ∧ A ≠ [46] ∧ A ≠ [46, 46]) →
    ((runCalls g n calls).run (full v cwd)).1 = some () →
    Consistent g ((runCalls g n calls).run (full v cwd)).2.vol n := by
  intro h
  have hcons := h longGeom emptyVol 126 0 [.write [46, 46, 46] [7]] longGeom_ok (by decide) emptyVol_noSpare
    emptyVol_consistent IsDir.root (fun call hcall => ?_) (by decide +kernel)
  · have hlive : (live longGeom ((runCalls longGeom 126 [.write [46, 46, 46] [7]]).run
      (full emptyVol 0)).2.vol 126 0).length
        = 0 := by decide +kernel
    have hend : isEndOfChain (getEntry longGeom
        ((runCalls longGeom 126 [.write [46, 46, 46] [7]]).run (full emptyVol 0)).2.vol 2) = true := by decide +kernel
    have hused : getEntry longGeom ((runCalls longGeom 126 [.write [46, 46, 46] [7]]).run
        (full emptyVol 0)).2.vol 3 = FAT32_EOC := by decide +kernel
    generalize ((runCalls longGeom 126 [.write [46, 46, 46] [7]]).run (full emptyVol 0)).2.vol = v1 at *
    obtain ⟨s, ⟨hs, L, hL, h3⟩, -⟩ := hcons.owned 3 ⟨by decide, by decide⟩ (by rw [hused]; decide)
      (by rw [hused]; decide)
    rcases hs with rfl | ⟨e, u, ⟨he, hu⟩, -⟩
    · have hroot : Linked longGeom v1 2 [2] := ⟨rfl, ⟨by decide, by decide⟩, hend⟩
      rw [Linked.unique longGeom_ok hL hroot] at h3
      simp at h3
    · have hnil := List.length_eq_zero_iff.mp hlive
      rw [isDir_of_empty hnil he, hnil] at hu
      cases hu
  · rw [List.mem_singleton.mp hcall]
    refine ⟨show 1 < 2 ^ 32 by decide, fun v d A hA => ?_⟩
    obtain ⟨-, rfl⟩ := Prod.mk.inj (Option.some.inj hA)
    exact ⟨(show ∀ c ∈ ([46, 46, 46] : Str), Ascii c by simp [Ascii]), by decide, by decide, by decide, by decide⟩

theorem Inside.nil {e : ℕ} (he : IsDir g v n e) : Inside g v n e [] := by
  intro pre post x heq hx
  obtain ⟨rfl, -⟩ := List.append_eq_nil_iff.mp heq.symm
  obtain rfl := Option.some.inj hx
  exact he

section Plain

variable {path : Str} (hplain : 47 ∉ path)

include hplain

theorem parentComps_plain : parentComps path = [] := if_neg hplain

theorem parentStart_plain : parentStart cwd path = cwd := if_neg fun h => hplain h.1

/-- A name without a slash stands in the directory itself. -/
theorem parentOf_plain : parentOf g v n cwd path = some (cwd, path.take 255) := by
  rw [parentOf, if_neg fun h => hplain h.1, if_neg hplain, parentComps_plain hplain, parentStart_plain hplain]
  rfl

theorem meets_plain (hpath : call.path = path) (hcwd : IsDir g v n cwd) (hname : NameOk g v n cwd (path.take 255))
    (hdir : DirOk g v n cwd) : Meets g v n cwd call := by
  subst hpath
  have hparent : ∀ d A, parentOf g v n cwd call.path = some (d, A) → d = cwd ∧ A = call.path.take 255 := by
    intro d A h
    rw [parentOf_plain hplain] at h
    obtain ⟨rfl, rfl⟩ := Prod.mk.inj (Option.some.inj h)
    exact ⟨rfl, rfl⟩
  refine ⟨?_, fun d A hA => ?_, fun d A hA _ => ?_, fun d A hA _ pre comp post heq => ?_⟩
  · rw [parentComps_plain hplain, parentStart_plain hplain]
    exact Inside.nil hcwd
  · obtain ⟨rfl, rfl⟩ := hparent d A hA
    exact hname
  · obtain ⟨rfl, rfl⟩ := hparent d A hA
    exact hdir
  · rw [parentComps_plain hplain] at heq
    exact absurd heq (by simp)

end Plain

theorem emptyVol_dirOk : DirOk longGeom emptyVol 126 0 := by
  refine dirOk_of_zero fun p hp => ?_
  obtain ⟨-, -, hentry⟩ := mem_slots hp
  rw [hentry, slotOf_zero]
  rfl

/-- A name that is not there can be made. -/
theorem nameOk_of_none (hnone : (readFinds g v n d A).isNone = true) (hne : A ≠ []) (hascii : ∀ c ∈ A, Ascii c)
    (hlen : A.length ≤ 255) (hmade : needsLfn A = false → build83 A ≠ padTo 11 [46] ∧ build83 A ≠ padTo 11 [46, 46]) :
    NameOk g v n d A :=
  ⟨hne, hascii, hlen, hmade, fun u hu => by rw [Option.isNone_iff_eq_none.mp hnone] at hu; cases hu⟩

theorem meets_emptyVol : Meets longGeom emptyVol 126 0 (.write [97] [7]) :=
  meets_plain (by decide) (show (Call.write [97] [7]).path = [97] from rfl) IsDir.root
    (nameOk_of_none (by decide +kernel) (by decide)
    (show ∀ c ∈ ([97] : Str), Ascii c by simp [Ascii]) (by decide)
    fun _ => by decide) emptyVol_dirOk

theorem runs_keep_volume_one : ∃ v2, (Call.run longGeom 126 (.write [97] [7])).run
    (full emptyVol 0) = (some (), full v2 0) ∧ Kept longGeom 126 0 (.write [97] [7]) v2 := by
  have hrun : ((Call.run longGeom 126 (.write [97] [7])).run (full emptyVol 0)).1 = some () := by decide +kernel
  obtain ⟨v2, hs, hkept⟩ := runs_keep_volume longGeom_ok (by decide) emptyVol_noSpare emptyVol_consistent
    Reaches.refl (show Call.Fits (.write [97] [7]) from show 1 < 2 ^ 32 by decide) meets_emptyVol (Prod.ext hrun rfl)
  exact ⟨v2, Prod.ext hrun hs, hkept⟩

theorem visits_nameVol_all : visits longGeom nameVol 126 0 = [nameVisit] := rfl

theorem live_nameVol : live longGeom nameVol 126 0 = [nameVisit] := by
  unfold live
  rw [visits_nameVol_all, List.filter_singleton]
  rfl

theorem linked_nameVol : Linked longGeom nameVol 3 [3] :=
  ⟨rfl, ⟨by decide, by decide⟩, show isEndOfChain _ = true by decide⟩

theorem nameVol_consistent : Consistent longGeom nameVol 126 := by
  refine consistent_of_file longGeom_ok ⟨rfl, ⟨by decide, by decide⟩, show isEndOfChain _ = true by decide⟩ live_nameVol
    (by decide) linked_nameVol (by decide) (by decide) fun c hc hroot hfile => ?_
  have hroot' : c ≠ 2 := hroot
  have hfile' : c ≠ 3 := hfile
  have h4 : ¬ c < 4 := by
    have := hc.1
    omega
  rw [getEntry_of_lt (hc.lt longGeom_ok)]
  change (if c < 4 then FAT32_EOC else 0) % 2 ^ 28 = FAT32_FREE
  rw [if_neg h4]
  rfl

theorem nameVol_inTree : InTree longGeom nameVol 126 0 nameVisit :=
  ⟨IsDir.root, by rw [live_nameVol]; exact List.mem_singleton_self _⟩

end ComputerOS.Fat32
