import ComputerOS.Lib.DirGraph
import ComputerOS.Cfs.DirSpec
import Mathlib.Data.List.TakeWhile

/-!
The name tree of a volume, and path resolution over it. The edges of an inode are the
entries of its directory blocks; a path is resolved by following names from the root.
-/
namespace ComputerOS.Cfs

open M Bytes Function

namespace Vol

/-- The entries of inode `n`: none unless it is a directory. -/
def out (v : Vol) (n : ℕ) : List Ent := if (v.ino n).isDir then v.ents (v.ino n) else []

abbrev Reach (v : Vol) (n : ℕ) : Prop := DirGraph.Reach v.out CFS_ROOT_INO n

/-- Follow names from inode `n` on; 0 when a name is missing. -/
def walk (v : Vol) (n : ℕ) : List Name → ℕ
  | [] => n
  | c :: cs =>
      if CFS_NAME_MAX < c.length then 0
      else if lookupEnt (v.out n) c = 0 then 0
      else walk v (lookupEnt (v.out n) c) cs

/-- The inode a path names; 0 when there is none. -/
def resolve (v : Vol) (path : List UInt8) : ℕ := v.walk CFS_ROOT_INO (components path)

theorem out_of_isDir {v : Vol} {n : ℕ} (h : (v.ino n).isDir = true) : v.out n = v.ents (v.ino n) := by
  rw [out, if_pos h]

theorem out_of_not_dir {v : Vol} {n : ℕ} (h : (v.ino n).isDir = false) : v.out n = [] := by
  rw [out, if_neg (by simp [h])]

end Vol

/-- Every reachable inode is in the table, and the blocks of every reachable directory are
data blocks. -/
structure Readable (g : Geom) (v : Vol) : Prop where
  pos : ∀ n, v.Reach n → n ≠ 0
  lt : ∀ n, v.Reach n → n < g.totalInodes
  data : ∀ n, v.Reach n → (v.ino n).isDir = true → ∀ b ∈ (v.ino n).dirBlocks, g.IsData b

theorem lookupEnt_mem {l : List Ent} {name : Name} (h : lookupEnt l name ≠ 0) :
    (name, lookupEnt l name) ∈ l := by
  unfold lookupEnt at h ⊢
  cases hf : l.find? (fun e => decide (e.1 = name)) with
  | none => simp [hf] at h
  | some e =>
    have hmem := List.mem_of_find?_eq_some hf
    have hname : e.1 = name := by simpa using List.find?_some hf
    simpa [← hname] using hmem

theorem lookupEnt_eq {l : List Ent} {name : Name} {c : ℕ} (hu : (l.map Prod.fst).Nodup)
    (h : (name, c) ∈ l) : lookupEnt l name = c := by
  induction l with
  | nil => simp at h
  | cons e l ih =>
    rw [List.map_cons, List.nodup_cons] at hu
    unfold lookupEnt
    rw [List.find?_cons]
    by_cases he : e.1 = name
    · rcases List.mem_cons.mp h with heq | hmem
      · simp [← heq]
      · exact absurd (List.mem_map.mpr ⟨(name, c), hmem, rfl⟩) (by rw [← he]; exact hu.1)
    · rcases List.mem_cons.mp h with heq | hmem
      · exact absurd (by rw [← heq]) he
      · simpa [he, lookupEnt] using ih hu.2 hmem

theorem lookupEnt_eq_zero {l : List Ent} {name : Name} (h0 : ∀ e ∈ l, e.2 ≠ 0) :
    lookupEnt l name = 0 ↔ name ∉ l.map Prod.fst := by
  constructor
  · intro h hmem
    obtain ⟨e, he, rfl⟩ := List.mem_map.mp hmem
    unfold lookupEnt at h
    cases hf : l.find? (fun x => decide (x.1 = e.1)) with
    | none =>
      have := List.find?_eq_none.mp hf e he
      simp at this
    | some x =>
      rw [hf] at h
      exact h0 x (List.mem_of_find?_eq_some hf) h
  · intro h
    by_contra hne
    exact h (List.mem_map.mpr ⟨_, lookupEnt_mem hne, rfl⟩)

/-- Live records name an inode. -/
theorem dirEnts_ne_zero {blk : Block} {e : Ent} (h : e ∈ dirEnts blk) : e.2 ≠ 0 := by
  obtain ⟨off, -, hent⟩ := List.mem_filterMap.mp h
  unfold recEnt at hent
  split at hent
  · simp at hent
  · next hne =>
    rw [← Option.some.inj hent]
    exact hne

theorem ents_ne_zero {v : Vol} {d : DInode} {e : Ent} (h : e ∈ v.ents d) : e.2 ≠ 0 := by
  obtain ⟨b, -, hb⟩ := List.mem_flatMap.mp h
  exact dirEnts_ne_zero hb

theorem out_ne_zero {v : Vol} {n : ℕ} {e : Ent} (h : e ∈ v.out n) : e.2 ≠ 0 := by
  unfold Vol.out at h
  split at h
  · exact ents_ne_zero h
  · simp at h

section Resolve

variable {g : Geom} {s : St}

theorem vol_data (hs : s.Mounted g) {b : ℕ} (hb : g.IsData b) : s.vol.data b = s.view b := by
  have hb' : s.fs.IsData b := by rw [hs.geom]; exact hb
  simp [St.vol, Fs.image, hb']

theorem entsIn_view (hs : s.Mounted g) {d : DInode} (h : ∀ b ∈ d.dirBlocks, g.IsData b) :
    entsIn s.view d = s.vol.ents d :=
  entsIn_congr fun b hb => (vol_data hs (h b hb)).symm

theorem dirLookup_vol (hs : s.Mounted g) (hv : Readable g s.vol) {n : ℕ} (hn : s.vol.Reach n)
    (hd : (s.vol.ino n).isDir = true) (name : Name) :
    (dirLookup (s.vol.ino n) name).run s = (some (lookupEnt (s.vol.out n) name), s) := by
  rw [dirLookup_run hs.reads, entsIn_view hs (hv.data n hn hd), Vol.out_of_isDir hd]

theorem walk_run (hs : s.Mounted g) (hv : Readable g s.vol) (cs : List Name) {n : ℕ}
    (hn : s.vol.Reach n) : (walk n cs).run s = (some (s.vol.walk n cs), s) := by
  induction cs generalizing n with
  | nil => rfl
  | cons c cs ih =>
    rw [walk, Vol.walk]
    split
    · rfl
    · have hread := readDinode_run hs ⟨hv.pos n hn, hv.lt n hn⟩
      rw [bind_of_some (attempt_run _ s), hread]
      dsimp only
      by_cases hd : (s.vol.ino n).isDir = true
      · rw [if_neg (by simp [hd]), bind_of_some (dirLookup_vol hs hv hn hd c)]
        by_cases hz : lookupEnt (s.vol.out n) c = 0
        · rw [if_pos hz, if_pos hz]
          rfl
        · rw [if_neg hz, if_neg hz]
          exact ih (.step hn (lookupEnt_mem hz))
      · have hd' : (s.vol.ino n).isDir = false := by simpa using hd
        have hz : lookupEnt (s.vol.out n) c = 0 := by
          rw [Vol.out_of_not_dir hd']
          rfl
        rw [if_pos hd', if_pos hz]
        rfl

theorem resolveIno_run (hg : g.Wf) (hs : s.Mounted g) (hv : Readable g s.vol) (path : List UInt8) :
    (resolveIno path).run s = (some (s.vol.resolve path), s) := by
  have hroot : s.fs.rootIno = CFS_ROOT_INO := by
    rw [hs.geom]
    exact hg.rootIno
  rw [resolveIno, bind_of_some (getFs_run s), hroot]
  exact walk_run hs hv _ .root

theorem walk_reach {v : Vol} (cs : List Name) {n : ℕ} (hn : v.Reach n) (h : v.walk n cs ≠ 0) :
    v.Reach (v.walk n cs) := by
  induction cs generalizing n with
  | nil => exact hn
  | cons c cs ih =>
    rw [Vol.walk] at h ⊢
    split at h
    · simp at h
    · next hlen =>
      split at h
      · simp at h
      · next hz =>
        rw [if_neg hlen, if_neg hz]
        exact ih (.step hn (lookupEnt_mem hz)) h

theorem resolve_reach {v : Vol} {path : List UInt8} (h : v.resolve path ≠ 0) :
    v.Reach (v.resolve path) :=
  walk_reach _ .root h

/-- The parent and the leaf name that `resolve_parent` finds for a path. -/
structure Located (v : Vol) (path : List UInt8) (p : ℕ) (leaf : Name) : Prop where
  leaf_eq : leaf = leafOf path
  leaf_ne : leaf.length ≠ 0
  leaf_le : leaf.length ≤ 255
  parent_le : (parentOf path).length < 256
  parent_eq : p = v.resolve (parentOf path)
  reach : v.Reach p
  isDir : (v.ino p).isDir = true

/-- A successful `resolve_parent` found a reachable directory and a usable leaf name. -/
theorem resolveParent_some (hg : g.Wf) (hs : s.Mounted g) (hv : Readable g s.vol)
    {path : List UInt8} {p : ℕ} {leaf : Name} {s' : St}
    (h : (resolveParent path).run s = (some (p, leaf), s')) :
    s' = s ∧ leaf = leafOf path ∧ leaf.length ≠ 0 ∧ leaf.length ≤ 255 ∧ (parentOf path).length < 256 ∧
      p = s.vol.resolve (parentOf path) ∧ s.vol.Reach p ∧ (s.vol.ino p).isDir = true := by
  obtain ⟨_, s1, h1, k1⟩ := bind_eq_some h
  obtain ⟨hleaf, rfl⟩ := ensure_eq_some h1
  obtain ⟨_, s2, h2, k2⟩ := bind_eq_some k1
  obtain ⟨hpar, rfl⟩ := ensure_eq_some h2
  rw [bind_of_some (resolveIno_run hg hs hv _)] at k2
  obtain ⟨_, s3, h3, k3⟩ := bind_eq_some k2
  obtain ⟨hne, rfl⟩ := ensure_eq_some h3
  obtain ⟨d, s4, h4, k4⟩ := bind_eq_some k3
  obtain ⟨-, rfl, rfl⟩ := readDinode_some hs h4
  obtain ⟨_, s5, h5, k5⟩ := bind_eq_some k4
  obtain ⟨hdir, rfl⟩ := ensure_eq_some h5
  simp only [pure_run, Prod.mk.injEq, Option.some.injEq] at k5
  obtain ⟨⟨rfl, rfl⟩, rfl⟩ := k5
  exact ⟨rfl, rfl, hleaf.1, hleaf.2, hpar, rfl, resolve_reach hne, hdir⟩

theorem resolveParent_located (hg : g.Wf) (hs : s.Mounted g) (hv : Readable g s.vol)
    {path : List UInt8} {p : ℕ} {leaf : Name} {s' : St}
    (h : (resolveParent path).run s = (some (p, leaf), s')) : s' = s ∧ Located s.vol path p leaf := by
  obtain ⟨rfl, h1, h2, h3, h4, h5, h6, h7⟩ := resolveParent_some hg hs hv h
  exact ⟨rfl, h1, h2, h3, h4, h5, h6, h7⟩

theorem resolveParent_run (hg : g.Wf) (hs : s.Mounted g) (hv : Readable g s.vol) {path : List UInt8}
    (hleaf : (leafOf path).length ≠ 0 ∧ (leafOf path).length ≤ CFS_NAME_MAX)
    (hpar : (parentOf path).length < 256) (hp : s.vol.resolve (parentOf path) ≠ 0)
    (hd : (s.vol.ino (s.vol.resolve (parentOf path))).isDir = true) :
    (resolveParent path).run s = (some (s.vol.resolve (parentOf path), leafOf path), s) := by
  rw [resolveParent, bind_of_some (ensure_pos hleaf s), bind_of_some (ensure_pos hpar s),
    bind_of_some (resolveIno_run hg hs hv _), bind_of_some (ensure_pos hp s),
    bind_of_some (readDinode_run hs ⟨hp, hv.lt _ (resolve_reach hp)⟩),
    bind_of_some (ensure_pos hd s), pure_run]

end Resolve

theorem components_eq {path : List UInt8} (h : leafOf path ≠ []) :
    components path = components (parentOf path) ++ [leafOf path] := by
  have hleaf : (47 : UInt8) ∉ leafOf path := by
    intro hmem
    have := List.mem_takeWhile_imp (List.mem_reverse.mp hmem)
    simp at this
  have hsplit : (path.reverse.dropWhile (· ≠ 47)).reverse ++ leafOf path = path := by
    rw [leafOf, ← List.reverse_append, List.takeWhile_append_dropWhile, List.reverse_reverse]
  have hself : components (leafOf path) = [leafOf path] := by
    rw [components, List.splitOn_eq_singleton hleaf, List.filter_cons_of_pos (by simpa using h)]
    rfl
  have hroot : components [47] = [] := by decide
  cases hr : path.reverse.dropWhile (· ≠ 47) with
  | nil =>
    rw [hr] at hsplit
    have hpath : path = leafOf path := hsplit.symm
    have hparent : parentOf path = [47] := by
      simp only [parentOf, hr]
      rfl
    rw [hparent, hroot, List.nil_append, ← hself]
    exact congrArg components hpath
  | cons c r =>
    have hc : c = 47 := by
      have hhead := List.head?_dropWhile_not (fun x : UInt8 => decide (x ≠ 47)) path.reverse
      rw [hr] at hhead
      simpa using hhead
    subst hc
    have hparent : components (parentOf path) = components r.reverse := by
      simp only [parentOf, hr, List.tail_cons]
      cases hrev : r.reverse with
      | nil => rfl
      | cons a l => rfl
    rw [hr, List.reverse_cons, List.append_assoc, List.singleton_append] at hsplit
    calc components path = components (r.reverse ++ 47 :: leafOf path) := by rw [hsplit]
      _ = components r.reverse ++ components (leafOf path) := by
        rw [components, List.splitOn_append_cons_self, List.filter_append]
        rfl
      _ = components (parentOf path) ++ [leafOf path] := by rw [hparent, hself]

theorem walk_append {v : Vol} (cs : List Name) {n : ℕ} (hn : n ≠ 0) (c : Name) :
    v.walk n (cs ++ [c]) = if v.walk n cs = 0 then 0 else v.walk (v.walk n cs) [c] := by
  induction cs generalizing n with
  | nil => rw [List.nil_append, Vol.walk, if_neg hn]
  | cons a cs ih =>
    rw [List.cons_append, Vol.walk, Vol.walk]
    split
    · rfl
    · split
      · rfl
      · next hz => exact ih hz

/-- The inode that the leaf of a path names in the parent directory. -/
def Vol.target (v : Vol) (path : List UInt8) : ℕ :=
  lookupEnt (v.out (v.resolve (parentOf path))) (leafOf path)

theorem resolve_eq_target {v : Vol} {path : List UInt8} (h0 : (leafOf path).length ≠ 0)
    (h255 : (leafOf path).length ≤ 255) (hp : v.resolve (parentOf path) ≠ 0) :
    v.resolve path = v.target path := by
  have hleaf : leafOf path ≠ [] := fun h => h0 (by rw [h]; rfl)
  unfold Vol.resolve at hp ⊢
  rw [components_eq hleaf, walk_append _ (by decide), if_neg hp, Vol.walk,
    if_neg (by rw [CFS_NAME_MAX]; omega)]
  unfold Vol.target Vol.resolve
  split
  · next hz => exact hz.symm
  · rfl

end ComputerOS.Cfs
