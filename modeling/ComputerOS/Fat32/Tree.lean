import ComputerOS.Fat32.Entries
import ComputerOS.Fat32.Linked

/-!
The tree of a volume: the directories that are reached from the root, the entries that stand in
them, and who owns which cluster. A change of one directory, with the chains of one old and one
new entry, keeps the volume consistent.
-/
namespace ComputerOS.Fat32

/-- The entry is `.` or `..`. -/
def isDot (e : Mem) : Bool := shortName e = padTo 11 [46] || shortName e = padTo 11 [46, 46]

def live (g : Geom) (v : Vol) (n d : ℕ) : List Visit := (visits g v n d).filter fun u => !isDot u.entry

/-- The directories that are reached from the root. -/
inductive IsDir (g : Geom) (v : Vol) (n : ℕ) : ℕ → Prop
  | root : IsDir g v n 0
  | sub {d : ℕ} {u : Visit} : IsDir g v n d → u ∈ live g v n d → isDirectory u.entry = true →
      IsDir g v n (entryCluster u.entry)

/-- Entry `u` stands in directory `d`, which is reached from the root. -/
def InTree (g : Geom) (v : Vol) (n d : ℕ) (u : Visit) : Prop := IsDir g v n d ∧ u ∈ live g v n d

def Start (g : Geom) (v : Vol) (n s : ℕ) : Prop :=
  s = g.rootCluster ∨ ∃ d u, InTree g v n d u ∧ entryCluster u.entry = s ∧ 2 ≤ s

/-- Cluster `c` is in the chain from `s`. -/
def Owns (g : Geom) (v : Vol) (s c : ℕ) : Prop := ∃ L, Linked g v s L ∧ c ∈ L

def FileChain (g : Geom) (v : Vol) (s : ℕ) (L : List ℕ) : Prop := L = [] ∧ s < 2 ∨ L ≠ [] ∧ Linked g v s L

def clustersFor (g : Geom) (size : ℕ) : ℕ := (size + g.bytesPerCluster - 1) / g.bytesPerCluster

/-- Every cluster that is in use is in exactly one chain, every chain starts at the root or at one
entry and ends in an end mark, and files have the clusters that their size asks for. -/
structure Consistent (g : Geom) (v : Vol) (n : ℕ) : Prop where
  root : ∃ L, Linked g v g.rootCluster (g.rootCluster :: L)
  dirs : ∀ d u, InTree g v n d u → isDirectory u.entry = true →
    ∃ L, Linked g v (entryCluster u.entry) (entryCluster u.entry :: L)
  files : ∀ d u, InTree g v n d u → isDirectory u.entry = false →
    ∃ L, FileChain g v (entryCluster u.entry) L ∧ L.length = clustersFor g (entrySize u.entry)
  once : ∀ d u d' u', InTree g v n d u → InTree g v n d' u' →
    entryCluster u.entry = entryCluster u'.entry → 2 ≤ entryCluster u.entry → d = d' ∧ u = u'
  notRoot : ∀ d u, InTree g v n d u → entryCluster u.entry ≠ g.rootCluster
  owned : ∀ c, DataCluster g c → getEntry g v c ≠ FAT32_FREE → getEntry g v c ≠ FAT32_BAD →
    ∃! s, Start g v n s ∧ Owns g v s c

variable {g : Geom} {v v' : Vol} {n d e s s' c : ℕ} {u w : Visit} {L D X O N : List ℕ} {old new : Option Visit}

theorem mem_live : u ∈ live g v n d ↔ u ∈ visits g v n d ∧ isDot u.entry = false := by
  unfold live
  rw [List.mem_filter, Bool.not_eq_true']

namespace Consistent

theorem dirChain (h : Consistent g v n) (hd : IsDir g v n d) : ∃ L,
    Linked g v (realCluster g d) (realCluster g d :: L) := by
  cases hd with
  | root => exact h.root
  | sub hd hu hdir =>
    obtain ⟨L, hL⟩ := h.dirs _ _ ⟨hd, hu⟩ hdir
    have hreal := (hL.data _ List.mem_cons_self).real
    exact ⟨L, by rw [hreal]; exact hL⟩

theorem dirStart (h : Consistent g v n) (hd : IsDir g v n d) : Start g v n (realCluster g d) := by
  cases hd with
  | root => exact Or.inl rfl
  | sub hd hu hdir =>
    obtain ⟨L, hL⟩ := h.dirs _ _ ⟨hd, hu⟩ hdir
    have hdata := hL.data _ List.mem_cons_self
    exact Or.inr ⟨_, _, ⟨hd, hu⟩, hdata.real.symm, by rw [hdata.real]; exact hdata.1⟩

theorem real_inj (h : Consistent g v n) (hd : IsDir g v n d) (he : IsDir g v n e)
    (heq : realCluster g d = realCluster g e) : d = e := by
  have hreal : ∀ {d}, IsDir g v n d → d = 0 ∨ realCluster g d = d ∧ d ≠ g.rootCluster := by
    intro d hd
    cases hd with
    | root => exact Or.inl rfl
    | sub hd hu hdir =>
      obtain ⟨L, hL⟩ := h.dirs _ _ ⟨hd, hu⟩ hdir
      exact Or.inr ⟨(hL.data _ List.mem_cons_self).real, h.notRoot _ _ ⟨hd, hu⟩⟩
  have hzero : realCluster g 0 = g.rootCluster := rfl
  rcases hreal hd with rfl | ⟨hd1, hd2⟩
  · rcases hreal he with rfl | ⟨he1, he2⟩
    · rfl
    · rw [he1, hzero] at heq
      exact absurd heq.symm he2
  · rcases hreal he with rfl | ⟨he1, he2⟩
    · rw [hd1, hzero] at heq
      exact absurd heq hd2
    · rw [hd1, he1] at heq
      exact heq

/-- Two chains with a common cluster are the same. -/
theorem start_unique (hg : g.Ok) (h : Consistent g v n) (hs : Start g v n s) (hs' : Start g v n s') (hc : Owns g v s c)
    (hc' : Owns g v s' c) : s = s' := by
  obtain ⟨L, hL, hmem⟩ := hc
  obtain ⟨hfree, hbad⟩ := hL.getEntry_ne hg hmem
  exact (h.owned c (hL.data c hmem) hfree hbad).unique ⟨hs, L, hL, hmem⟩ ⟨hs', hc'⟩

/-- Every chain that starts somewhere has clusters. -/
theorem start_linked (h : Consistent g v n) (hs : Start g v n s) : ∃ L, Linked g v s (s :: L) := by
  rcases hs with rfl | ⟨d, u, hu, rfl, h2⟩
  · exact h.root
  · cases hdir : isDirectory u.entry with
    | true => exact h.dirs d u hu hdir
    | false =>
      obtain ⟨L, hL, -⟩ := h.files d u hu hdir
      rcases hL with ⟨-, hlt⟩ | ⟨hne, hL⟩
      · omega
      · cases L with
        | nil => exact absurd rfl hne
        | cons c L =>
          obtain rfl := hL.1
          exact ⟨L, hL⟩

/-- No chain is that of a directory and of a file. -/
theorem dir_ne_file (h : Consistent g v n) (he : IsDir g v n e) (hu : InTree g v n d u)
    (hfile : isDirectory u.entry = false) : realCluster g e ≠ entryCluster u.entry := by
  intro heq
  cases he with
  | root => exact h.notRoot d u hu heq.symm
  | sub he hw hdir =>
    obtain ⟨L, hL⟩ := h.dirs _ _ ⟨he, hw⟩ hdir
    have hdata := hL.data _ List.mem_cons_self
    rw [hdata.real] at heq
    obtain ⟨-, rfl⟩ := h.once _ _ _ _ ⟨he, hw⟩ hu heq hdata.1
    rw [hdir] at hfile
    cases hfile

/-- Two directories have no cluster in common. -/
theorem dirs_apart (hg : g.Ok) (h : Consistent g v n) (hd : IsDir g v n d) (he : IsDir g v n e) (hne : d ≠ e)
    (hL : Linked g v (realCluster g d) L) {M : List ℕ} (hM : Linked g v (realCluster g e) M) : ∀ c ∈ L, c ∉ M :=
  fun _ hc hcM => hne (h.real_inj hd he (h.start_unique hg (h.dirStart hd) (h.dirStart he)
  ⟨L, hL, hc⟩ ⟨M, hM, hcM⟩))

theorem dir_apart_file (hg : g.Ok) (h : Consistent g v n) (he : IsDir g v n e) (hL : Linked g v (realCluster g e) L)
    (hu : InTree g v n d u) (hfile : isDirectory u.entry = false) (hO : FileChain g v (entryCluster u.entry) O) :
    ∀ c ∈ L, c ∉ O := by
  intro c hc hcO
  rcases hO with ⟨rfl, -⟩ | ⟨hne, hO⟩
  · cases hcO
  · refine h.dir_ne_file he hu hfile (h.start_unique hg (h.dirStart he) (Or.inr ⟨d, u, hu, rfl, ?_⟩)
      ⟨L, hL, hc⟩ ⟨O, hO, hcO⟩)
    cases O with
    | nil => exact absurd rfl hne
    | cons x O =>
      rw [hO.1]
      exact hO.2.1.1

end Consistent

/-- Directory `d`, with the clusters `D`, gets the clusters `X`; the clusters `O` of the entry `old`
are given up, and those of the entry `new` are `N`. -/
structure Change (g : Geom) (n : ℕ) (v v' : Vol) (d : ℕ) (D X O N : List ℕ) (old new : Option Visit) : Prop where
  dir : IsDir g v n d
  before : Linked g v (realCluster g d) D
  grown : Linked g v' (realCluster g d) (D ++ X)
  gives : ∀ u, old = some u → u ∈ live g v n d ∧ isDirectory u.entry = false ∧ FileChain g v (entryCluster u.entry) O
  gives_none : old = none → O = []
  fresh : ∀ c ∈ X ++ N, DataCluster g c ∧ (isFree v c = true ∨ c ∈ O)
  apart : ∀ c ∈ X, c ∉ N
  makes_dir : ∀ u, new = some u → isDirectory u.entry = true →
    N ≠ [] ∧ Linked g v' (entryCluster u.entry) N ∧ live g v' n (entryCluster u.entry) = []
  makes_file : ∀ u, new = some u → isDirectory u.entry = false →
    FileChain g v' (entryCluster u.entry) N ∧ N.length = clustersFor g (entrySize u.entry)
  makes_none : new = none → N = []
  named : ∀ u, new = some u → isDot u.entry = false
  table : ∀ c, c ∉ X → c ∉ O → c ∉ N → c ∉ D → v'.fat c = v.fat c
  gone : ∀ c ∈ O, c ∉ X → c ∉ N → isFree v' c = true
  cells : ∀ c, c ∉ X → c ∉ N → c ∉ D → v'.disk c = v.disk c
  seen : ∀ u, u ∈ visits g v' n d ↔ u ∈ visits g v n d ∧ old ≠ some u ∨ new = some u

namespace Change

variable (hg : g.Ok) (hn : g.totalClusters ≤ n) (hv : Consistent g v n) (h : Change g n v v' d D X O N old new)

include hg hv h

omit hg hv in
theorem owns_of_mem (hc : c ∈ O) : ∃ u, old = some u ∧ InTree g v n d u ∧ isDirectory u.entry = false ∧
    2 ≤ entryCluster u.entry ∧ Linked g v (entryCluster u.entry) O := by
  cases hold : old with
  | none =>
    rw [h.gives_none hold] at hc
    cases hc
  | some u =>
    obtain ⟨hu, hfile, hchain⟩ := h.gives u hold
    rcases hchain with ⟨rfl, -⟩ | ⟨-, hL⟩
    · cases hc
    · refine ⟨u, rfl, ⟨h.dir, hu⟩, hfile, ?_, hL⟩
      cases O with
      | nil => cases hc
      | cons x O =>
        rw [hL.1]
        exact hL.2.1.1

/-- A chain of another entry or directory is kept. -/
theorem keeps (hs : Start g v n s) (hne : s ≠ realCluster g d)
    (hold : ∀ u, old = some u → InTree g v n d u → s ≠ entryCluster u.entry) (hL : Linked g v s L) :
    Linked g v' s L ∧ ∀ c ∈ L, c ∉ X ∧ c ∉ N ∧ c ∉ O ∧ c ∉ D ∧ v'.disk c = v.disk c := by
  have hout : ∀ c ∈ L, c ∉ X ∧ c ∉ N ∧ c ∉ O ∧ c ∉ D := by
    intro c hc
    have hO : c ∉ O := by
      intro hcO
      obtain ⟨u, hu, htree, -, h2, hLO⟩ := h.owns_of_mem hcO
      refine hold u hu htree ?_
      exact hv.start_unique hg hs (Or.inr ⟨d, u, htree, rfl, h2⟩) ⟨L, hL, hc⟩ ⟨O, hLO, hcO⟩
    have hfresh : c ∉ X ++ N := by
      intro hcXN
      rcases (h.fresh c hcXN).2 with hfree | hcO
      · rw [hL.not_free hg hc] at hfree
        cases hfree
      · exact hO hcO
    rw [List.mem_append, not_or] at hfresh
    refine ⟨hfresh.1, hfresh.2, hO, fun hD => hne ?_⟩
    exact hv.start_unique hg hs (hv.dirStart h.dir) ⟨L, hL, hc⟩ ⟨D, h.before, hD⟩
  refine ⟨hL.congr fun c hc => ?_, fun c hc => ?_⟩
  · obtain ⟨h1, h2, h3, h4⟩ := hout c hc
    unfold getEntry
    rw [h.table c h1 h3 h2 h4]
  · obtain ⟨h1, h2, h3, h4⟩ := hout c hc
    exact ⟨h1, h2, h3, h4, h.cells c h1 h2 h4⟩

omit hg in
/-- No directory is given up. -/
theorem old_ne (he : IsDir g v n e) (hu : old = some u) : realCluster g e ≠ entryCluster u.entry :=
  hv.dir_ne_file he ⟨h.dir, (h.gives u hu).1⟩ (h.gives u hu).2.1

include hn

/-- Another directory has the same entries. -/
theorem visits_other (he : IsDir g v n e) (hne : e ≠ d) : visits g v' n e = visits g v n e := by
  obtain ⟨L, hL⟩ := hv.dirChain he
  obtain ⟨hL', hcells⟩ := h.keeps hg hv (hv.dirStart he) (fun heq => hne (hv.real_inj he h.dir heq))
    (fun u hu _ => h.old_ne hv he hu) hL
  have hlen := hL.length_le hg
  rw [List.length_cons] at hlen
  rw [visits_eq, visits_eq, chain_of_linked hg hL (by omega), chain_of_linked hg hL' (by omega)]
  congr 1
  refine slots_congr fun x hx => ?_
  have hmem : realCluster g x ∈ (e :: L).map (realCluster g) := List.mem_map_of_mem hx
  rw [map_real_of_linked hL rfl] at hmem
  exact (hcells _ hmem).2.2.2.2

theorem live_other (he : IsDir g v n e) (hne : e ≠ d) : live g v' n e = live g v n e := by
  unfold live
  rw [h.visits_other hg hn hv he hne]

omit hg hn hv in
theorem mem_live' : u ∈ live g v' n d ↔ u ∈ live g v n d ∧ old ≠ some u ∨ new = some u := by
  rw [mem_live, mem_live, h.seen]
  constructor
  · rintro ⟨⟨hu, hold⟩ | hnew, hdot⟩
    · exact Or.inl ⟨⟨hu, hdot⟩, hold⟩
    · exact Or.inr hnew
  · rintro (⟨⟨hu, hdot⟩, hold⟩ | hnew)
    · exact ⟨Or.inl ⟨hu, hold⟩, hdot⟩
    · exact ⟨Or.inr hnew, h.named u hnew⟩

/-- A directory of the volume stays one. -/
theorem isDir_of (he : IsDir g v n e) : IsDir g v' n e := by
  induction he with
  | root => exact IsDir.root
  | @sub e u he hu hdir ih =>
    refine IsDir.sub ih ?_ hdir
    by_cases hed : e = d
    · subst hed
      refine h.mem_live'.mpr (Or.inl ⟨hu, fun hold => ?_⟩)
      rw [(h.gives u hold).2.1] at hdir
      cases hdir
    · rw [h.live_other hg hn hv he hed]
      exact hu

/-- The directories after the change: those before, and the new one. -/
theorem isDir_cases (he : IsDir g v' n e) :
    IsDir g v n e ∨ ∃ u, new = some u ∧ isDirectory u.entry = true ∧ e = entryCluster u.entry := by
  induction he with
  | root => exact Or.inl IsDir.root
  | @sub e u _ hu hdir ih =>
    rcases ih with he | ⟨w, hw, hwdir, rfl⟩
    · by_cases hed : e = d
      · subst hed
        rcases h.mem_live'.mp hu with ⟨hu, -⟩ | hnew
        · exact Or.inl (IsDir.sub he hu hdir)
        · exact Or.inr ⟨u, hnew, hdir, rfl⟩
      · rw [h.live_other hg hn hv he hed] at hu
        exact Or.inl (IsDir.sub he hu hdir)
    · rw [(h.makes_dir w hw hwdir).2.2] at hu
      cases hu

/-- The entries after the change. -/
theorem inTree_iff : InTree g v' n e u ↔
    InTree g v n e u ∧ ¬ (e = d ∧ old = some u) ∨ e = d ∧ new = some u := by
  constructor
  · rintro ⟨he, hu⟩
    rcases h.isDir_cases hg hn hv he with he | ⟨w, hw, hwdir, rfl⟩
    · by_cases hed : e = d
      · subst hed
        rcases h.mem_live'.mp hu with ⟨hu, hold⟩ | hnew
        · exact Or.inl ⟨⟨he, hu⟩, fun hboth => hold hboth.2⟩
        · exact Or.inr ⟨rfl, hnew⟩
      · rw [h.live_other hg hn hv he hed] at hu
        exact Or.inl ⟨⟨he, hu⟩, fun hboth => hed hboth.1⟩
    · rw [(h.makes_dir w hw hwdir).2.2] at hu
      cases hu
  · rintro (⟨⟨he, hu⟩, hold⟩ | ⟨rfl, hnew⟩)
    · refine ⟨h.isDir_of hg hn hv he, ?_⟩
      by_cases hed : e = d
      · subst hed
        exact h.mem_live'.mpr (Or.inl ⟨hu, fun ho => hold ⟨rfl, ho⟩⟩)
      · rw [h.live_other hg hn hv he hed]
        exact hu
    · exact ⟨h.isDir_of hg hn hv h.dir, h.mem_live'.mpr (Or.inr hnew)⟩

omit hn in
/-- The directory's clusters are none of those that change hands. -/
theorem dir_apart (hc : c ∈ D) : c ∉ X ∧ c ∉ N ∧ c ∉ O := by
  have hO : c ∉ O := by
    intro hcO
    obtain ⟨u, hu, htree, -, h2, hLO⟩ := h.owns_of_mem hcO
    exact h.old_ne hv h.dir hu
      (hv.start_unique hg (hv.dirStart h.dir) (Or.inr ⟨d, u, htree, rfl, h2⟩) ⟨D, h.before, hc⟩ ⟨O, hLO, hcO⟩)
  have hfresh : c ∉ X ++ N := by
    intro hcXN
    rcases (h.fresh c hcXN).2 with hfree | hcO
    · rw [h.before.not_free hg hc] at hfree
      cases hfree
    · exact hO hcO
  rw [List.mem_append, not_or] at hfresh
  exact ⟨hfresh.1, hfresh.2, hO⟩

/-- The chains after the change: the directory's, those that are kept, and the new entry's. -/
theorem start_cases (hs : Start g v' n s) : s = realCluster g d ∧ Linked g v' s (D ++ X) ∨
    (Start g v n s ∧ s ≠ realCluster g d ∧
      ∃ L, Linked g v s L ∧ Linked g v' s L ∧ ∀ c ∈ L, c ∉ X ∧ c ∉ N ∧ c ∉ O ∧ c ∉ D) ∨
    ∃ u, new = some u ∧ s = entryCluster u.entry ∧ Linked g v' s N ∧ N ≠ [] := by
  have hkeep : Start g v n s → s ≠ realCluster g d → (∀ u, old = some u → InTree g v n d u → s ≠ entryCluster u.entry) →
      ∃ L, Linked g v s L ∧ Linked g v' s L ∧ ∀ c ∈ L, c ∉ X ∧ c ∉ N ∧ c ∉ O ∧ c ∉ D := by
    intro hs hne hold
    obtain ⟨L, hL⟩ := hv.start_linked hs
    obtain ⟨hL', hout⟩ := h.keeps hg hv hs hne hold hL
    exact ⟨_, hL, hL', fun c hc => ⟨(hout c hc).1, (hout c hc).2.1, (hout c hc).2.2.1, (hout c hc).2.2.2.1⟩⟩
  by_cases hrd : s = realCluster g d
  · exact Or.inl ⟨hrd, by rw [hrd]; exact h.grown⟩
  rcases hs with rfl | ⟨e, u, htree, rfl, h2⟩
  · exact Or.inr (Or.inl ⟨Or.inl rfl, hrd, hkeep (Or.inl rfl) hrd fun u _ htree heq => hv.notRoot d u htree heq.symm⟩)
  · rcases (h.inTree_iff hg hn hv).mp htree with ⟨htree, hnot⟩ | ⟨-, hnew⟩
    · have hs : Start g v n (entryCluster u.entry) := Or.inr ⟨e, u, htree, rfl, h2⟩
      refine Or.inr (Or.inl ⟨hs, hrd, hkeep hs hrd fun w hw hwtree heq => ?_⟩)
      obtain ⟨rfl, rfl⟩ := hv.once _ _ _ _ htree hwtree heq h2
      exact hnot ⟨rfl, hw⟩
    · refine Or.inr (Or.inr ⟨u, hnew, rfl, ?_⟩)
      cases hdir : isDirectory u.entry with
      | true => exact ⟨(h.makes_dir u hnew hdir).2.1, (h.makes_dir u hnew hdir).1⟩
      | false =>
        rcases (h.makes_file u hnew hdir).1 with ⟨-, hlt⟩ | ⟨hne, hL⟩
        · omega
        · exact ⟨hL, hne⟩

/-- A start that is not given up stays one. -/
theorem start_kept (hs : Start g v n s) (hold : ∀ u, old = some u → s ≠ entryCluster u.entry) : Start g v' n s := by
  rcases hs with rfl | ⟨e, u, htree, rfl, h2⟩
  · exact Or.inl rfl
  · exact Or.inr ⟨e, u, (h.inTree_iff hg hn hv).mpr (Or.inl ⟨htree, fun hboth => hold u hboth.2 rfl⟩), rfl, h2⟩

theorem linked_of_start (hs : Start g v' n s) : ∃ L, Linked g v' s (s :: L) := by
  have hcons : ∀ L, Linked g v' s L → L ≠ [] → ∃ L, Linked g v' s (s :: L) := by
    intro L hL hne
    cases L with
    | nil => exact absurd rfl hne
    | cons c L =>
      obtain rfl := hL.1
      exact ⟨L, hL⟩
  rcases h.start_cases hg hn hv hs with ⟨rfl, hL⟩ | ⟨hs, -, L, hL, hL', -⟩ | ⟨u, -, -, hL, hne⟩
  · obtain ⟨L, hL'⟩ := hv.dirChain h.dir
    exact hcons _ hL (by rw [h.before.unique hg hL']; simp)
  · obtain ⟨L', hL''⟩ := hv.start_linked hs
    exact hcons _ hL' (by rw [hL.unique hg hL'']; simp)
  · exact hcons _ hL hne

omit hg hn hv in
theorem new_cluster (hnew : new = some u) (h2 : 2 ≤ entryCluster u.entry) : entryCluster u.entry ∈ N := by
  have hcons : Linked g v' (entryCluster u.entry) N → N ≠ [] → entryCluster u.entry ∈ N := by
    intro hL hne
    cases N with
    | nil => exact absurd rfl hne
    | cons c N =>
      rw [hL.1]
      exact List.mem_cons_self
  cases hdir : isDirectory u.entry with
  | true => exact hcons (h.makes_dir u hnew hdir).2.1 (h.makes_dir u hnew hdir).1
  | false =>
    rcases (h.makes_file u hnew hdir).1 with ⟨-, hlt⟩ | ⟨hne, hL⟩
    · omega
    · exact hcons hL hne

omit hn in
theorem new_ne (hs : Start g v n s) (hold : ∀ w, old = some w → InTree g v n d w → s ≠ entryCluster w.entry)
    (hnew : new = some u) (h2 : 2 ≤ s) : s ≠ entryCluster u.entry := by
  intro heq
  have hN := h.new_cluster hnew (heq ▸ h2)
  rw [← heq] at hN
  obtain ⟨L, hL⟩ := hv.start_linked hs
  by_cases hrd : s = realCluster g d
  · obtain ⟨L', hL'⟩ := hv.dirChain h.dir
    rw [← hrd] at hL'
    refine (h.dir_apart hg hv ?_).2.1 hN
    rw [h.before.unique hg (hrd ▸ hL'), ← hrd]
    exact List.mem_cons_self
  · exact ((h.keeps hg hv hs hrd hold hL).2 s List.mem_cons_self).2.1 hN

theorem owns_cases (hs : Start g v' n s) (hc : Owns g v' s c) : s = realCluster g d ∧ (c ∈ D ∨ c ∈ X) ∨
    (Start g v n s ∧ Owns g v s c ∧ c ∉ X ∧ c ∉ N ∧ c ∉ D) ∨ ∃ u, new = some u ∧ s = entryCluster u.entry ∧ c ∈ N := by
  obtain ⟨L, hL, hmem⟩ := hc
  rcases h.start_cases hg hn hv hs with ⟨rfl, hL'⟩ | ⟨hs, -, L', hL', hL'', hout⟩ | ⟨u, hnew, heq, hN, -⟩
  · rw [hL.unique hg hL', List.mem_append] at hmem
    exact Or.inl ⟨rfl, hmem⟩
  · rw [hL.unique hg hL''] at hmem
    obtain ⟨h1, h2, -, h4⟩ := hout c hmem
    exact Or.inr (Or.inl ⟨hs, ⟨L', hL', hmem⟩, h1, h2, h4⟩)
  · rw [hL.unique hg hN] at hmem
    exact Or.inr (Or.inr ⟨u, hnew, heq, hmem⟩)

theorem owns_unique (hs : Start g v' n s) (hc : Owns g v' s c) (hs' : Start g v' n s') (hc' : Owns g v' s' c) :
    s = s' := by
  rcases h.owns_cases hg hn hv hs hc with ⟨rfl, hmem⟩ | ⟨hs, hc, hX, hN, hD⟩ | ⟨u, hnew, rfl, hN⟩
  · rcases h.owns_cases hg hn hv hs' hc' with ⟨rfl, -⟩ | ⟨-, -, hX', -, hD'⟩ | ⟨u', -, -, hN'⟩
    · rfl
    · rcases hmem with hmem | hmem
      · exact absurd hmem hD'
      · exact absurd hmem hX'
    · rcases hmem with hmem | hmem
      · exact absurd hN' (h.dir_apart hg hv hmem).2.1
      · exact absurd hN' (h.apart c hmem)
  · rcases h.owns_cases hg hn hv hs' hc' with ⟨rfl, hmem'⟩ | ⟨hs', hc', -, -, -⟩ | ⟨u', -, -, hN'⟩
    · rcases hmem' with hmem' | hmem'
      · exact absurd hmem' hD
      · exact absurd hmem' hX
    · exact hv.start_unique hg hs hs' hc hc'
    · exact absurd hN' hN
  · rcases h.owns_cases hg hn hv hs' hc' with ⟨rfl, hmem'⟩ | ⟨-, -, -, hN', -⟩ | ⟨u', hnew', rfl, -⟩
    · rcases hmem' with hmem' | hmem'
      · exact absurd hN (h.dir_apart hg hv hmem').2.1
      · exact absurd hN (h.apart c hmem')
    · exact absurd hN hN'
    · rw [hnew] at hnew'
      rw [Option.some.inj hnew']

/-- Every cluster in use after the change is owned. -/
theorem owns_exists (hdata : DataCluster g c) (hfree : getEntry g v' c ≠ FAT32_FREE)
    (hbad : getEntry g v' c ≠ FAT32_BAD) :
    ∃ s, Start g v' n s ∧ Owns g v' s c := by
  have hdir : Start g v' n (realCluster g d) :=
    h.start_kept hg hn hv (hv.dirStart h.dir) fun u hu => h.old_ne hv h.dir hu
  by_cases hDX : c ∈ D ++ X
  · exact ⟨_, hdir, _, h.grown, hDX⟩
  rw [List.mem_append, not_or] at hDX
  by_cases hN : c ∈ N
  · cases hnew : new with
    | none =>
      rw [h.makes_none hnew] at hN
      cases hN
    | some u =>
      have hL : Linked g v' (entryCluster u.entry) N := by
        cases hdir : isDirectory u.entry with
        | true => exact (h.makes_dir u hnew hdir).2.1
        | false =>
          rcases (h.makes_file u hnew hdir).1 with ⟨rfl, -⟩ | ⟨-, hL⟩
          · cases hN
          · exact hL
      refine ⟨_, Or.inr ⟨d, u, (h.inTree_iff hg hn hv).mpr (Or.inr ⟨rfl, hnew⟩), rfl, ?_⟩, N, hL, hN⟩
      cases N with
      | nil => cases hN
      | cons x N =>
        rw [hL.1]
        exact hL.2.1.1
  by_cases hO : c ∈ O
  · exact absurd ((isFree_eq (hdata.lt hg)).mp (h.gone c hO hDX.2 hN)) hfree
  · have hsame : getEntry g v' c = getEntry g v c := by
      unfold getEntry
      rw [h.table c hDX.2 hO hN hDX.1]
    rw [hsame] at hfree hbad
    obtain ⟨s, ⟨hs, hc⟩, -⟩ := hv.owned c hdata hfree hbad
    have hold : ∀ u, old = some u → s ≠ entryCluster u.entry := by
      rintro u hu rfl
      obtain ⟨L, hL, hmem⟩ := hc
      rcases (h.gives u hu).2.2 with ⟨-, hlt⟩ | ⟨-, hLO⟩
      · obtain ⟨L', hL'⟩ := hv.start_linked hs
        have := (hL'.data _ List.mem_cons_self).1
        omega
      · rw [hL.unique hg hLO] at hmem
        exact hO hmem
    have hs' := h.start_kept hg hn hv hs hold
    refine ⟨s, hs', ?_⟩
    rcases h.start_cases hg hn hv hs' with ⟨rfl, hL'⟩ | ⟨-, -, L, hL, hL', -⟩ | ⟨u, hnew, heq, -, -⟩
    · obtain ⟨L, hL, hmem⟩ := hc
      rw [hL.unique hg h.before] at hmem
      exact absurd hmem hDX.1
    · obtain ⟨L'', hL'', hmem⟩ := hc
      rw [hL''.unique hg hL] at hmem
      exact ⟨L, hL', hmem⟩
    · obtain ⟨L, hL⟩ := hv.start_linked hs
      exact absurd heq (h.new_ne hg hv hs (fun w hw _ => hold w hw) hnew (hL.data _ List.mem_cons_self).1)

/-- A change of a directory keeps the volume consistent. -/
theorem consistent : Consistent g v' n where
  root := h.linked_of_start hg hn hv (Or.inl rfl)
  dirs e u htree hdir := by
    refine h.linked_of_start hg hn hv (Or.inr ⟨e, u, htree, rfl, ?_⟩)
    rcases (h.inTree_iff hg hn hv).mp htree with ⟨htree, -⟩ | ⟨-, hnew⟩
    · obtain ⟨L, hL⟩ := hv.dirs e u htree hdir
      exact (hL.data _ List.mem_cons_self).1
    · obtain ⟨hne, hL, -⟩ := h.makes_dir u hnew hdir
      cases N with
      | nil => exact absurd rfl hne
      | cons c N =>
        rw [hL.1]
        exact hL.2.1.1
  files e u htree hfile := by
    rcases (h.inTree_iff hg hn hv).mp htree with ⟨htree, hnot⟩ | ⟨-, hnew⟩
    · obtain ⟨L, hL, hlen⟩ := hv.files e u htree hfile
      refine ⟨L, ?_, hlen⟩
      rcases hL with hL | ⟨hne, hL⟩
      · exact Or.inl hL
      · refine Or.inr ⟨hne, ?_⟩
        have h2 : 2 ≤ entryCluster u.entry := by
          cases L with
          | nil => exact absurd rfl hne
          | cons c L =>
            rw [hL.1]
            exact hL.2.1.1
        refine (h.keeps hg hv (Or.inr ⟨e, u, htree, rfl, h2⟩) (fun heq => ?_) (fun w hw hwtree heq => ?_) hL).1
        · exact hv.dir_ne_file h.dir htree hfile heq.symm
        · obtain ⟨rfl, rfl⟩ := hv.once _ _ _ _ htree hwtree heq h2
          exact hnot ⟨rfl, hw⟩
    · exact ⟨N, h.makes_file u hnew hfile⟩
  once e u e' u' htree htree' heq h2 := by
    have hother : ∀ {e u u'}, InTree g v n e u → ¬ (e = d ∧ old = some u) → new = some u' →
        2 ≤ entryCluster u.entry → entryCluster u.entry ≠ entryCluster u'.entry := by
      intro e u u' htree hnot hnew h2
      refine h.new_ne hg hv (Or.inr ⟨e, u, htree, rfl, h2⟩) (fun w hw hwtree heq => ?_) hnew h2
      obtain ⟨rfl, rfl⟩ := hv.once _ _ _ _ htree hwtree heq h2
      exact hnot ⟨rfl, hw⟩
    rcases (h.inTree_iff hg hn hv).mp htree with ⟨ht, hnot⟩ | ⟨rfl, hnew⟩
    · rcases (h.inTree_iff hg hn hv).mp htree' with ⟨ht', -⟩ | ⟨-, hnew'⟩
      · exact hv.once _ _ _ _ ht ht' heq h2
      · exact absurd heq (hother ht hnot hnew' h2)
    · rcases (h.inTree_iff hg hn hv).mp htree' with ⟨ht', hnot'⟩ | ⟨rfl, hnew'⟩
      · exact absurd heq.symm (hother ht' hnot' hnew (heq ▸ h2))
      · rw [hnew] at hnew'
        exact ⟨rfl, Option.some.inj hnew'⟩
  notRoot e u htree heq := by
    rcases (h.inTree_iff hg hn hv).mp htree with ⟨htree, -⟩ | ⟨-, hnew⟩
    · exact hv.notRoot e u htree heq
    · obtain ⟨L, hL⟩ := hv.root
      exact h.new_ne hg hv (Or.inl rfl) (fun w _ hwtree heq => hv.notRoot d w hwtree heq.symm) hnew
        (hL.data _ List.mem_cons_self).1 heq.symm
  owned c hdata hfree hbad := by
    obtain ⟨s, hs, hc⟩ := h.owns_exists hg hn hv hdata hfree hbad
    exact ⟨s, ⟨hs, hc⟩, fun s' ⟨hs', hc'⟩ => h.owns_unique hg hn hv hs' hc' hs hc⟩

end Change

end ComputerOS.Fat32
