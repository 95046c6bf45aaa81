import ComputerOS.Cfs.Entry
import ComputerOS.Cfs.Flat
import ComputerOS.Cfs.Succeeds

/-!
Hard links. A link adds one name and counts it, an unlink takes one away and frees the
inode with the last; as long as the sixteen bits of the link count do not wrap, the count
is the number of names in every state of a run, and no inode is freed while it has a name.
-/
namespace ComputerOS.Cfs

open M Bytes Function

variable {g : Geom} {v u w : Vol} {n p : ℕ} {leaf : Name} {F : List ℕ}

theorem file_ne_dir (hdir : (v.ino p).isDir = true) (hfile : (v.ino n).isDir = false) : n ≠ p := by
  rintro rfl
  rw [hdir] at hfile
  cases hfile

namespace Gained

variable (h : Gained g leaf n p F v u)

include h

theorem bbit_mono {b : ℕ} (hb : v.bbit b = true) : u.bbit b = true := by
  rw [h.bbit, hb, Bool.true_or]

theorem nodup : F.Nodup := by
  rcases h.short with rfl | ⟨b, rfl⟩
  · exact List.nodup_nil
  · exact List.nodup_singleton b

/-- The directory itself is good, if the name is new. -/
theorem good_self (hp : Good g v p) (hname : leaf ∉ (v.out p).map Prod.fst) : Good g u p := by
  refine ⟨hp.inTable, h.shaped, ?_, ?_, fun _ => h.tiled, ?_, ?_, ?_⟩
  · intro b hb
    rw [h.blocks, List.mem_append] at hb
    exact hb.elim (hp.inRange b) fun hb => (h.fresh b hb).1
  · rw [h.blocks]
    refine List.nodup_append.mpr ⟨hp.once, h.nodup, ?_⟩
    rintro b hb c hc rfl
    have := (h.fresh b hc).2
    rw [hp.used b hb] at this
    cases this
  · obtain ⟨l₁, l₂, hold, hnew⟩ := h.out
    have hnames := hp.names
    rw [hold] at hnames hname
    rw [hnew, List.map_append, List.map_cons]
    rw [List.map_append] at hnames hname
    exact List.nodup_middle.mpr (List.nodup_cons.mpr ⟨hname, hnames⟩)
  · rw [h.ibit]
    exact hp.ibit
  · intro b hb
    rw [h.blocks, List.mem_append] at hb
    rcases hb with hb | hb
    · exact h.bbit_mono (hp.used b hb)
    · rw [h.bbit, decide_eq_true hb, Bool.or_true]

variable (hv : Tree g v) (hp : v.Reach p)

include hv hp

/-- The blocks of other inodes are not touched. -/
theorem data_other {m : ℕ} (hm : v.Reach m) (hne : m ≠ p) {b : ℕ} (hb : b ∈ (v.ino m).blocks) :
    u.data b = v.data b := by
  refine h.data b fun hmem => ?_
  rw [h.blocks, List.mem_append] at hmem
  rcases hmem with hmem | hmem
  · exact hv.apart m p hm hp hne b hb hmem
  · have := (h.fresh b hmem).2
    rw [(hv.good m hm).used b hb] at this
    cases this

theorem out_other {m : ℕ} (hm : v.Reach m) (hne : m ≠ p) : u.out m = v.out m :=
  out_frame (hv.good m hm).shaped.extents (by rw [h.ino m hne]; exact .refl _) fun _ hb =>
    h.data_other hv hp hm hne hb

theorem good_other {m : ℕ} (hm : v.Reach m) (hne : m ≠ p) : Good g u m := by
  refine (hv.good m hm).frame (by rw [h.ino m hne]; exact .refl _) (fun b hb => h.data_other hv hp hm hne hb)
    ?_ fun b hb => h.bbit_mono ((hv.good m hm).used b hb)
  rw [h.ibit]
  exact (hv.good m hm).ibit

variable (hn : v.Reach n) (hne : n ≠ p)

include hn hne

/-- A name for an inode in use: the tree is the same but for that name. -/
theorem reach_iff {m : ℕ} : u.Reach m ↔ v.Reach m := by
  obtain ⟨l₁, l₂, hold, hnew⟩ := h.out
  have hout := h.out_other hv hp hn hne
  refine (reach_gain hp hold hnew (fun k hk hkp _ => h.out_other hv hp hk hkp) (fun e he => ?_)
    fun _ => ⟨hne, hout⟩).trans ⟨?_, Or.inl⟩
  · rw [hout] at he
    exact Or.inl (hn.of_mem he)
  · rintro (hm | rfl)
    · exact hm
    · exact hn

theorem refs_eq (c : ℕ) : u.refs g c = v.refs g c + if c = n then 1 else 0 := by
  obtain ⟨l₁, l₂, hold, hnew⟩ := h.out
  have hout := h.out_other hv hp hn hne
  rw [refs_gain hp hold hnew (fun k hk hkp _ => h.out_other hv hp hk hkp)
    (fun e he => Or.inl (hn.of_mem (by rwa [hout] at he))) hne (fun _ => hout)
    (fun k hk => (hv.good k ((h.reach_iff hv hp hn hne).mp hk)).inTable) c, if_pos hn, Nat.add_zero]

theorem apart {k m : ℕ} (hk : u.Reach k) (hm : u.Reach m) (hkm : k ≠ m) {b : ℕ} (hb : b ∈ (u.ino k).blocks) :
    b ∉ (u.ino m).blocks := by
  rw [h.reach_iff hv hp hn hne] at hk hm
  intro hb'
  by_cases hkp : k = p
  · subst hkp
    rw [h.ino m hkm.symm] at hb'
    rw [h.blocks, List.mem_append] at hb
    rcases hb with hb | hb
    · exact hv.apart k m hk hm hkm b hb hb'
    · have := (h.fresh b hb).2
      rw [(hv.good m hm).used b hb'] at this
      cases this
  · rw [h.ino k hkp] at hb
    by_cases hmp : m = p
    · subst hmp
      rw [h.blocks, List.mem_append] at hb'
      rcases hb' with hb' | hb'
      · exact hv.apart k m hk hm hkm b hb hb'
      · have := (h.fresh b hb').2
        rw [(hv.good k hk).used b hb] at this
        cases this
    · rw [h.ino m hmp] at hb'
      exact hv.apart k m hk hm hkm b hb hb'

theorem tree (hname : leaf ∉ (v.out p).map Prod.fst) : Tree g u := by
  refine ⟨?_, fun m hm => ?_, fun k m hk hm hkm b hb => h.apart hv hp hn hne hk hm hkm hb,
    fun b hb => h.bbit_mono (hv.reserved b hb)⟩
  · by_cases hroot : CFS_ROOT_INO = p
    · rw [hroot]
      exact h.isDir
    · rw [h.ino _ hroot]
      exact hv.root
  · rw [h.reach_iff hv hp hn hne] at hm
    by_cases hmp : m = p
    · rw [hmp]
      exact h.good_self (hv.good _ hp) hname
    · exact h.good_other hv hp hm hmp

end Gained

namespace Shed

variable (h : Shed leaf n p v u)

include h

theorem blocks_self (hp : Good g v p) : (u.ino p).blocks = (v.ino p).blocks := h.like.blocks hp.shaped.extents

theorem good_self (hp : Good g v p) : Good g u p := by
  have hblocks := h.blocks_self hp
  refine ⟨hp.inTable, h.like.shaped hp.shaped, ?_, ?_, fun _ => h.tiled, ?_, ?_, ?_⟩
  · rw [hblocks]
    exact hp.inRange
  · rw [hblocks]
    exact hp.once
  · obtain ⟨l₁, l₂, hold, hnew⟩ := h.out
    have hnames := hp.names
    rw [hold, List.map_append, List.map_cons] at hnames
    rw [hnew, List.map_append]
    exact (List.nodup_cons.mp (List.nodup_middle.mp hnames)).2
  · rw [h.ibit]
    exact hp.ibit
  · rw [hblocks, h.bbit]
    exact hp.used

variable (hv : Tree g v) (hp : v.Reach p)

include hv hp

theorem data_other {m : ℕ} (hm : v.Reach m) (hne : m ≠ p) {b : ℕ} (hb : b ∈ (v.ino m).blocks) :
    u.data b = v.data b := by
  refine h.data b fun hmem => ?_
  rw [h.blocks_self (hv.good p hp)] at hmem
  exact hv.apart m p hm hp hne b hb hmem

theorem out_other {m : ℕ} (hm : v.Reach m) (hne : m ≠ p) : u.out m = v.out m :=
  out_frame (hv.good m hm).shaped.extents (by rw [h.ino m hne]; exact .refl _) fun _ hb =>
    h.data_other hv hp hm hne hb

theorem good {m : ℕ} (hm : v.Reach m) : Good g u m := by
  by_cases hne : m = p
  · subst hne
    exact h.good_self (hv.good m hm)
  · refine (hv.good m hm).frame (by rw [h.ino m hne]; exact .refl _)
      (fun b hb => h.data_other hv hp hm hne hb) ?_ fun b hb => ?_
    · rw [h.ibit]
      exact (hv.good m hm).ibit
    · rw [h.bbit]
      exact (hv.good m hm).used b hb

theorem blocks_eq {m : ℕ} (hm : v.Reach m) : (u.ino m).blocks = (v.ino m).blocks := by
  by_cases hne : m = p
  · subst hne
    exact h.blocks_self (hv.good m hm)
  · rw [h.ino m hne]

variable (hn : v.Reach n) (hdir : (v.ino p).isDir = true) (hfile : (v.ino n).isDir = false)

include hn hdir hfile

/-- Only the file itself may have gone out of use. -/
theorem reach_iff {m : ℕ} : (u.Reach m → v.Reach m) ∧ (v.Reach m → m ≠ n → u.Reach m) := by
  obtain ⟨l₁, l₂, hold, hnew⟩ := h.out
  have hne := file_ne_dir hdir hfile
  have hnil := Vol.out_of_not_dir hfile
  exact reach_loss hp hold hnew (fun k hk hkp _ => h.out_other hv hp hk hkp) (file_ne_dir hv.root hfile)
    (h.out_other hv hp hn hne) (by rw [hnil]; simp) fun hnot => absurd hnil hnot

theorem refs_eq (c : ℕ) : v.refs g c = u.refs g c + if c = n then 1 else 0 := by
  classical
  obtain ⟨l₁, l₂, hold, hnew⟩ := h.out
  have hne := file_ne_dir hdir hfile
  have hnil := Vol.out_of_not_dir hfile
  have hrefs := refs_loss hp hold hnew (fun k hk hkp _ => h.out_other hv hp hk hkp) (file_ne_dir hv.root hfile) hne
    (h.out_other hv hp hn hne) (by rw [hnil]; simp) (fun hnot => absurd hnil hnot) hn
    (fun k hk => (hv.good k hk).inTable) c
  rw [hrefs, hnil, List.countP_nil, ite_self, Nat.add_zero]

theorem tree : Tree g u := by
  have hold : ∀ m, u.Reach m → v.Reach m := fun m => (h.reach_iff hv hp hn hdir hfile).1
  refine ⟨?_, fun m hm => h.good hv hp (hold m hm), fun k m hk hm hkm b hb => ?_, ?_⟩
  · by_cases hroot : CFS_ROOT_INO = p
    · rw [hroot, h.like.isDir]
      exact hdir
    · rw [h.ino _ hroot]
      exact hv.root
  · rw [h.blocks_eq hv hp (hold k hk)] at hb
    rw [h.blocks_eq hv hp (hold m hm)]
    exact hv.apart k m (hold k hk) (hold m hm) hkm b hb
  · rw [h.bbit]
    exact hv.reserved

/-- The file has gone out of use exactly when it has no name left. -/
theorem reach_file : u.Reach n ↔ u.refs g n ≠ 0 := by
  have hin : ∀ m, u.Reach m → m < g.totalInodes :=
    fun m hm => (hv.good m ((h.reach_iff hv hp hn hdir hfile).1 hm)).inTable
  rw [ne_eq, refs_eq_zero hin]
  constructor
  · intro hreach hnone
    cases hreach with
    | root => exact file_ne_dir hv.root hfile rfl
    | step hm he => exact hnone _ hm _ he rfl
  · intro hsome
    by_contra hnot
    refine hsome fun m hm e he hen => hnot ?_
    rw [← hen]
    exact hm.of_mem he

end Shed

theorem getLE_links (d : DInode) (k : ℕ) (hk : k < 65536) : (d.setLinks k).links = k := by
  rw [DInode.setLinks, DInode.links, getLE_setLE_same _ _ (by omega), Nat.mod_eq_of_lt (by omega)]

theorem links_lt (d : DInode) : d.links < 65536 := getLE_lt d 2 2

/-- What a link makes of the volume: one more entry, and one more link in the record. -/
structure Linked (g : Geom) (v w : Vol) (n p : ℕ) (leaf : Name) : Prop where
  parent : v.Reach p
  isDir : (v.ino p).isDir = true
  reach : v.Reach n
  file : (v.ino n).isDir = false
  fresh : leaf ∉ (v.out p).map Prod.fst
  gained : ∃ F u, Gained g leaf n p F v u ∧ DInode.SameHead (v.ino p) (u.ino p) ∧ Retagged u w ∧
    (∀ m, m ≠ n → w.ino m = u.ino m) ∧ (w.ino n).links = ((v.ino n).links + 1) % 65536

theorem Effect.linked {env : Env} {k : Prop} {oldpath newpath : List UInt8} (hg : g.Wf) (hv : Tree g v)
    (h : Effect g env k v (.link oldpath newpath) w)
    (hlen : (v.ino (v.resolve (parentOf newpath))).blocks.length + 1 < 2 ^ 32) :
    Linked g v w (v.resolve oldpath) (v.resolve (parentOf newpath)) (leafOf newpath) := by
  cases h with
  | @link _ _ p n leaf pd v₁ hold hn hfile hat hmay hlook hadd =>
    subst hold
    obtain rfl := hat.parent_eq
    obtain rfl := hat.leaf_eq
    have hn' : v.Reach (v.resolve oldpath) := resolve_reach hn
    have hne := file_ne_dir hat.isDir hfile
    have hn64 : v.resolve oldpath < 2 ^ 64 := by
      have := (hv.good _ hn').inTable
      have := hg.tableBytes
      omega
    obtain ⟨F, hgain⟩ := hadd.gained hg (hv.good _ hat.reach) hat.isDir (DInode.Alike.stamp g.flags pd)
      hat.leaf_le hn hn64 hlen
    refine ⟨hat.reach, hat.isDir, hn', hfile, (lookupEnt_eq_zero fun e he => out_ne_zero he).mp
      hlook, F, _, hgain, ?_, Retagged.setIno ?_, fun m hm => Vol.ino_setIno_ne _ _ hm, ?_⟩
    · rw [Vol.ino_setIno_same]
      exact hadd.head.trans (.stamp _ _)
    · rw [hgain.ino _ hne]
      exact ((DInode.Alike.setLE _ _ (by omega)).trans (DInode.Alike.setLE _ _ (by omega))).trans
        (DInode.Alike.stamp _ _)
    · rw [Vol.ino_setIno_same, DInode.links, getLE_stamp _ _ (by omega), DInode.setCtime,
        getLE_setLE_ne _ (by omega), DInode.setLinks, getLE_setLE_same _ _ (by omega)]
      rfl

namespace Linked

variable (h : Linked g v w n p leaf)

include h

theorem ne_parent : n ≠ p := file_ne_dir h.isDir h.file

theorem tree (hv : Tree g v) : Tree g w := by
  obtain ⟨F, u, hgain, -, hr, -⟩ := h.gained
  exact (hgain.tree hv h.parent h.reach h.ne_parent h.fresh).retag hr

/-- The directory has one entry more. -/
theorem out_parent (hv : Tree g v) : ∃ l₁ l₂, v.out p = l₁ ++ l₂ ∧ w.out p = l₁ ++ (leaf, n) :: l₂ := by
  obtain ⟨F, u, hgain, -, hr, -⟩ := h.gained
  have hu := hgain.tree hv h.parent h.reach h.ne_parent h.fresh
  have hp : u.Reach p := (hgain.reach_iff hv h.parent h.reach h.ne_parent).mpr h.parent
  rw [hr.out_eq (fun m hm => (hu.good m hm).shaped.extents) hp]
  exact hgain.out

theorem sound (hv : Sound g v) (hroom : (v.ino n).links < 65535) : Sound g w := by
  obtain ⟨F, u, hgain, hhead, hr, hother, hlinks⟩ := h.gained
  have hu := hgain.tree hv.toTree h.parent h.reach h.ne_parent h.fresh
  refine hu.retag_sound hr fun m hm => ?_
  rw [hgain.reach_iff hv.toTree h.parent h.reach h.ne_parent] at hm
  rw [hgain.refs_eq hv.toTree h.parent h.reach h.ne_parent, ← hv.links m hm]
  by_cases hmn : m = n
  · rw [hmn, hlinks, if_pos rfl]
    exact Nat.mod_eq_of_lt (by omega)
  · rw [hother m hmn, if_neg hmn, Nat.add_zero]
    by_cases hmp : m = p
    · rw [hmp]
      exact hhead.links
    · rw [hgain.ino m hmp]

end Linked

/-- What giving an inode's blocks and bit back changes. -/
theorem Freed.bits {k : Prop} {d : DInode} (h : Freed g k n d v w) :
    ∃ F, F ⊆ d.blocks ∧ (∀ b ∈ F, g.IsData b) ∧ w.ino = v.ino ∧ w.data = v.data ∧
      (∀ b, w.bbit b = (decide (b ∉ F) && v.bbit b)) ∧ ∀ m, m ≠ n → w.ibit m = v.ibit m := by
  cases h with
  | @all F hF hdata hall =>
    refine ⟨F, hF, hdata, ?_⟩
    unfold Vol.dropInode
    split
    · exact ⟨v.giveBlocks_ino F, v.giveBlocks_data F, v.giveBlocks_bbit F,
        fun m _ => by rw [Vol.giveBlocks_ibit]⟩
    · refine ⟨v.giveBlocks_ino F, v.giveBlocks_data F, v.giveBlocks_bbit F, fun m hm => ?_⟩
      simp [Vol.giveInode, hm]
  | @blocks F hF hdata hk =>
    exact ⟨F, hF, hdata, v.giveBlocks_ino F, v.giveBlocks_data F, v.giveBlocks_bbit F,
      fun m _ => by rw [Vol.giveBlocks_ibit]⟩

/-- Giving back an inode that is out of use, and blocks that no inode in use covers. -/
theorem Sound.freed {k : Prop} {d : DInode} (hv : Sound g v) (h : Freed g k n d v w) (hdead : ¬ v.Reach n)
    (hown : ∀ m, v.Reach m → ∀ b ∈ (v.ino m).blocks, b ∉ d.blocks) : Sound g w := by
  obtain ⟨F, hF, hdata, hino, hdata', hbbit, hibit⟩ := h.bits
  have hlike : ∀ m, v.Reach m → DInode.Alike (v.ino m) (w.ino m) := fun m _ => by rw [hino]; exact .refl _
  have hsame : ∀ m, v.Reach m → ∀ b ∈ (v.ino m).blocks, w.data b = v.data b := fun m _ b _ => by rw [hdata']
  have hreach : ∀ m, w.Reach m ↔ v.Reach m := fun m => alike_reach hlike hsame hv.good
  refine ⟨⟨?_, fun m hm => ?_, fun k m hk hm hkm b hb => ?_, fun b hb => ?_⟩, fun m hm => ?_⟩
  · rw [hino]
    exact hv.root
  · rw [hreach] at hm
    refine (hv.good m hm).frame (hlike m hm) (hsame m hm) ?_ fun b hb => ?_
    · rw [hibit m fun hmn => hdead (hmn ▸ hm)]
      exact (hv.good m hm).ibit
    · have hnot : b ∉ F := fun hbF => hown m hm b hb (hF hbF)
      rw [hbbit, (hv.good m hm).used b hb, decide_eq_true hnot, Bool.true_and]
  · rw [hreach] at hk hm
    rw [hino] at hb ⊢
    exact hv.apart k m hk hm hkm b hb
  · have hnot : b ∉ F := fun hbF => by
      have := (hdata b hbF).1
      omega
    rw [hbbit, hv.reserved b hb, decide_eq_true hnot, Bool.true_and]
  · rw [hreach] at hm
    rw [hino, alike_refs hlike hsame hv.good]
    exact hv.links m hm

theorem Sound.synced {k : Prop} (hv : Sound g v) (h : Synced g k v w) : Sound g w := by
  cases h with
  | sync =>
    have hr : Retagged v (v.setSuper (superWith g.flags v.freeBlocks v.freeInodes v.super)) :=
      ⟨fun n _ => .refl _, rfl, rfl, rfl, rfl, rfl⟩
    exact hv.toTree.retag_sound hr hv.links
  | refused => exact hv

section Unlink

variable (hv : Sound g v) (hp : v.Reach p) (hdir : (v.ino p).isDir = true) (hn : v.Reach n)
  (hfile : (v.ino n).isDir = false) (hshed : Shed leaf n p v u)
  (hhead : DInode.SameHead (v.ino p) (u.ino p))

include hv hp hdir hn hfile hshed hhead

theorem shed_links {m : ℕ} (hm : v.Reach m) (hmn : m ≠ n) : (u.ino m).links = u.refs g m := by
  have hrefs := hshed.refs_eq hv.toTree hp hn hdir hfile m
  rw [if_neg hmn, Nat.add_zero] at hrefs
  rw [← hrefs, ← hv.links m hm]
  by_cases hmp : m = p
  · rw [hmp]
    exact hhead.links
  · rw [hshed.ino m hmp]

/-- One name less of several. -/
theorem more_sound {d : DInode} (hlike : DInode.Alike (v.ino n) d) (hlinks : d.links = (v.ino n).links - 1) :
    Sound g (u.setIno n d) := by
  have hrefs := hshed.refs_eq hv.toTree hp hn hdir hfile n
  rw [if_pos rfl, ← hv.links n hn] at hrefs
  have hr : Retagged u (u.setIno n d) := by
    refine Retagged.setIno ?_
    rw [hshed.ino n (file_ne_dir hdir hfile)]
    exact hlike
  refine (hshed.tree hv.toTree hp hn hdir hfile).retag_sound hr fun m hm => ?_
  by_cases hmn : m = n
  · subst hmn
    rw [Vol.ino_setIno_same]
    omega
  · rw [Vol.ino_setIno_ne _ _ hmn]
    exact shed_links hv hp hdir hn hfile hshed hhead ((hshed.reach_iff hv.toTree hp hn hdir hfile).1 hm) hmn

/-- The last name gone: blocks and bit are those of no other inode in use. -/
theorem last_sound {k : Prop} {d : DInode} (hlast : (v.ino n).links ≤ 1) (hblocks : d.blocks = (v.ino n).blocks)
    (hfreed : Freed g k n d u w) : Sound g w := by
  have hrefs := hshed.refs_eq hv.toTree hp hn hdir hfile n
  rw [if_pos rfl, ← hv.links n hn] at hrefs
  have hdead : ¬ u.Reach n := fun h => (hshed.reach_file hv.toTree hp hn hdir hfile).mp h (by omega)
  have hold : ∀ m, u.Reach m → v.Reach m ∧ m ≠ n := fun m hm =>
    ⟨(hshed.reach_iff hv.toTree hp hn hdir hfile).1 hm, fun h => hdead (h ▸ hm)⟩
  have hu : Sound g u := ⟨hshed.tree hv.toTree hp hn hdir hfile, fun m hm =>
    shed_links hv hp hdir hn hfile hshed hhead (hold m hm).1 (hold m hm).2⟩
  refine hu.freed hfreed hdead fun m hm b hb => ?_
  rw [hshed.blocks_eq hv.toTree hp (hold m hm).1] at hb
  rw [hblocks]
  exact hv.apart m n (hold m hm).1 hn (hold m hm).2 b hb

end Unlink

/-- An inode that is freed had no name left. -/
theorem unlink_sound {env : Env} {k : Prop} {path : List UInt8} (hg : g.Wf) (hv : Sound g v)
    (h : Effect g env k v (.unlink path) w) : Sound g w := by
  cases h with
  | @unlink _ p n leaf v₁ v₂ _ hat hmay hlook hn hfile hrem hdrop hsync =>
    have hp := hat.reach
    have hdir := hat.isDir
    have hn' : v.Reach n := by
      rw [← hlook] at hn ⊢
      exact .step hp (lookupEnt_mem hn)
    have hlike : DInode.Alike (v.ino p) (stamp g.flags ((v.ino p).restamp env.now)) :=
      (DInode.Alike.restamp _ _).trans (DInode.Alike.stamp _ _)
    have hshed := hrem.shed hg (hv.good p hp) hdir hlike hlook
    have hhead : DInode.SameHead (v.ino p)
        ((v₁.setIno p (stamp g.flags ((v.ino p).restamp env.now))).ino p) := by
      rw [Vol.ino_setIno_same]
      exact (DInode.SameHead.restamp _ _).trans (.stamp _ _)
    have hsame : DInode.Alike (v.ino n) ((v.ino n).setLinks ((v.ino n).links - 1)) := DInode.Alike.setLE _ _ (by omega)
    have hlinks : ((v.ino n).setLinks ((v.ino n).links - 1)).links = (v.ino n).links - 1 :=
      getLE_links _ _ (by have := links_lt (v.ino n); omega)
    refine Sound.synced ?_ hsync
    cases hdrop with
    | last hlast hfreed =>
      exact last_sound hv hp hdir hn' hfile hshed hhead (by omega)
        (hsame.blocks (hv.good n hn').shaped.extents) hfreed
    | more hmore =>
      refine more_sound hv hp hdir hn' hfile hshed hhead (hsame.trans (DInode.Alike.stamp _ _)) ?_
      rw [DInode.links, getLE_stamp _ _ (by omega)]
      exact hlinks

def Call.IsLinkOp : Call → Prop
  | .link _ _ => True
  | .unlink _ => True
  | _ => False

/-- The call gives one more name to an inode whose link count is at its limit (or grows a
directory whose extent count is at its own). -/
structure LinkOverflows (env : Env) (v : Vol) (oldpath newpath : List UInt8) : Prop where
  named : v.resolve oldpath ≠ 0
  file : (v.ino (v.resolve oldpath)).isDir = false
  located : Located v newpath (v.resolve (parentOf newpath)) (leafOf newpath)
  may : mayAccess env (v.ino (v.resolve (parentOf newpath))) (CFS_W + CFS_X) = true
  fresh : v.target newpath = 0
  full : (v.ino (v.resolve oldpath)).links = 65535 ∨
    2 ^ 32 ≤ (v.ino (v.resolve (parentOf newpath))).blocks.length + 1

def Call.Overflows (env : Env) (v : Vol) : Call → Prop
  | .link oldpath newpath => LinkOverflows env v oldpath newpath
  | _ => False

/-- The states that link and unlink calls lead to, none of which overflows a count. -/
inductive LinkRun (s : St) : St → Prop
  | start : LinkRun s s
  | call {t : St} (env : Env) (c : Call) (h : LinkRun s t) (hop : c.IsLinkOp)
      (hfits : ¬ c.Overflows env t.vol) : LinkRun s ((c.exec env).run t).2

variable {s t : St} {env : Env} {c : Call}

theorem effect_sound (hg : g.Wf) (hv : Sound g v) {k : Prop} (hop : c.IsLinkOp)
    (hfits : ¬ c.Overflows env v) (h : Effect g env k v c w) : Sound g w := by
  cases c with
  | link oldpath newpath =>
    have hcopy := h
    cases h with
    | @link _ _ p n leaf pd v₁ hold hn hfile hat hmay hlook hadd =>
      subst hold
      obtain rfl := hat.parent_eq
      obtain rfl := hat.leaf_eq
      have hnot : ¬ ((v.ino (v.resolve oldpath)).links = 65535 ∨
          2 ^ 32 ≤ (v.ino (v.resolve (parentOf newpath))).blocks.length + 1) :=
        fun hfull => hfits ⟨hn, hfile, hat, hmay, hlook, hfull⟩
      rw [not_or] at hnot
      have hlt := links_lt (v.ino (v.resolve oldpath))
      exact (hcopy.linked hg hv.toTree (by omega)).sound hv (by omega)
  | unlink path => exact unlink_sound hg hv h
  | _ => exact hop.elim

/-- One call, whether it succeeds or not. -/
theorem linkOp_sound (hg : g.Wf) (hs : t.Idle g) (hw : t.WritesOk) (hv : Sound g t.vol) (hop : c.IsLinkOp)
    (hfits : ¬ c.Overflows env t.vol) :
    ((c.exec env).run t).2.Idle g ∧ ((c.exec env).run t).2.WritesOk ∧ Sound g ((c.exec env).run t).2.vol := by
  cases hok : ((c.exec env).run t).1 with
  | some rc =>
    obtain ⟨s1, hcom, hidle, hvol, hwrites⟩ := exec_commit hg hs hok
    refine ⟨hidle, hwrites hw, ?_⟩
    rw [hvol]
    exact effect_sound hg hv hop hfits (commitState_effect hg hs hv.toTree.usable hcom)
  | none =>
    have hcom := commitState_eq_none hw hok
    obtain ⟨hidle, hdisk, -⟩ := aborted_state hs hcom
    refine ⟨hidle, ?_, ?_⟩
    · rw [exec_aborts hcom]
      exact ((Call.body_ordered env c).device t.begun).2 hw
    · have hsafe : Safe (t.begun.vol.bbit · = true) (c.body env) t.begun := by
        cases c with
        | link oldpath newpath =>
          refine doLink_untouched hg hs.begun_fresh ?_ env oldpath newpath
          rw [hs.begun_vol]
          exact hv.toTree.usable.toReadable
        | unlink path => exact Safe.buffered (doUnlink_buffered env path) hs.begun_fresh.toInTxn
        | _ => exact hop.elim
      refine hv.sameTree (sameTree_of_disk hg hs hidle hv.reserved
        (fun n hn b hb => ⟨(hv.good n hn).inRange b hb, (hv.good n hn).used b hb⟩) fun b hb => ?_)
      rw [hdisk]
      exact hsafe b (by rw [hs.begun_vol]; exact hb)

theorem linkRun_sound (hg : g.Wf) (hs : s.Idle g) (hw : s.WritesOk) (hv : Sound g s.vol) (h : LinkRun s t) :
    t.Idle g ∧ t.WritesOk ∧ Sound g t.vol := by
  induction h with
  | start => exact ⟨hs, hw, hv⟩
  | call env c _ hop hfits ih => exact linkOp_sound hg ih.1 ih.2.1 ih.2.2 hop hfits

/-- No inode that an entry names has been freed, and its link count is the number of its names. -/
def NamedKept (g : Geom) (v : Vol) : Prop :=
  ∀ m name n, v.Reach m → (name, n) ∈ v.out m → v.ibit n = true ∧
    (∀ b ∈ (v.ino n).blocks, v.bbit b = true) ∧ (v.ino n).links = v.refs g n

/-- In every run of links and unlinks in which no count overflows, an inode is freed only
when no entry names it any more. -/
theorem named_never_freed (hg : g.Wf) (hs : s.Idle g) (hw : s.WritesOk) (hv : WellFormed g s.vol)
    (h : LinkRun s t) : NamedKept g t.vol := by
  obtain ⟨-, -, hsound⟩ := linkRun_sound hg hs hw (hv.sound hg) h
  intro m name n hm he
  have hn : t.vol.Reach n := .step hm he
  exact ⟨(hsound.good n hn).ibit, (hsound.good n hn).used, hsound.links n hn⟩

theorem Freed.ibit_self {k : Prop} {d : DInode} (h : Freed g k n d v w) (hk : k) (h2 : 2 ≤ n)
    (hlt : n < g.totalInodes) : w.ibit n = false := by
  cases h with
  | all =>
    rw [Vol.dropInode, if_neg (by omega)]
    simp [Vol.giveInode]
  | blocks _ _ hnk => exact absurd hk hnk

/-- An unlink at a count of at most one frees the inode, whatever other names it has. -/
theorem Effect.unlink_frees {k : Prop} {path : List UInt8} (hg : g.Wf) (hv : Tree g v) (hk : k)
    (h : Effect g env k v (.unlink path) w) (hlinks : (v.ino (v.target path)).links ≤ 1) {name : Name}
    (hname : (name, v.target path) ∈ v.out (v.resolve (parentOf path))) (hne : name ≠ leafOf path) :
    (name, v.target path) ∈ w.out (v.resolve (parentOf path)) ∧ w.ibit (v.target path) = false := by
  cases h with
  | @unlink _ p n leaf v₁ v₂ _ hat hmay hlook hn hfile hrem hdrop hsync =>
    obtain rfl := hat.parent_eq
    obtain rfl := hat.leaf_eq
    have htarget : v.target path = n := hlook
    rw [htarget] at hlinks hname ⊢
    have hlike : DInode.Alike (v.ino (v.resolve (parentOf path)))
        (stamp g.flags ((v.ino (v.resolve (parentOf path))).restamp env.now)) :=
      (DInode.Alike.restamp _ _).trans (DInode.Alike.stamp _ _)
    obtain ⟨l₁, l₂, hold, hnew⟩ := (hrem.shed hg (hv.good _ hat.reach) hat.isDir hlike hlook).out
    have hroot : n ≠ CFS_ROOT_INO := fun h => by rw [h, hv.root] at hfile; cases hfile
    have hlt := (hv.good n (.step hat.reach hname)).inTable
    cases hdrop with
    | more hmore =>
      refine absurd ?_ hmore
      rw [getLE_links _ _ (by omega)]
      omega
    | last _ hfreed =>
      obtain ⟨_, -, -, hino, hdata, -⟩ := hfreed.bits
      constructor
      · have hmem : (name, n) ∈ l₁ ++ l₂ := by
          rw [hold] at hname
          simpa [hne] using hname
        rw [← hnew] at hmem
        unfold Vol.out Vol.ents
        rw [hsync.ino, hsync.data, hino, hdata]
        exact hmem
      · have h2 : 2 ≤ n := by
          have : CFS_ROOT_INO = 1 := rfl
          omega
        rw [hsync.ibit]
        exact hfreed.ibit_self hk h2 hlt

/-- As `smallGeom`, with room for the directory. -/
def manyGeom : Geom := { smallGeom with totalBlocks := 512 }

theorem manyGeom_wf : manyGeom.Wf := by
  refine ⟨rfl, rfl, ?_, ?_, ?_, ?_, ?_, ?_, ?_, ?_, ?_, ?_⟩ <;> decide

theorem manyGeom_roomy : manyGeom.Roomy := by
  rw [Geom.Roomy]
  decide

def manyName (i : ℕ) : Name :=
  [UInt8.ofNat (48 + i / 4096 % 16), UInt8.ofNat (48 + i / 256 % 16),
    UInt8.ofNat (48 + i / 16 % 16), UInt8.ofNat (48 + i % 16)]

/-- The first name of directory block `r`: sixteen bytes a name, and two dot entries. -/
def manyCut (r : ℕ) : ℕ := min (256 * r - 2) 65535

def manyRow (r : ℕ) : List Name := (List.range' (manyCut r) (manyCut (r + 1) - manyCut r)).map manyName

def manyRows : List (List Name) := (List.range 257).map manyRow

theorem length_manyName (i : ℕ) : (manyName i).length = 4 := rfl

theorem manyName_inj {i j : ℕ} (hi : i < 65536) (hj : j < 65536) (h : manyName i = manyName j) : i = j := by
  have hdigit : ∀ a b : ℕ, UInt8.ofNat (48 + a % 16) = UInt8.ofNat (48 + b % 16) → a % 16 = b % 16 := by
    intro a b hab
    have := congrArg UInt8.toNat hab
    rw [UInt8.toNat_ofNat', UInt8.toNat_ofNat'] at this
    omega
  simp only [manyName, List.cons.injEq, and_true] at h
  obtain ⟨h1, h2, h3, h4⟩ := h
  have := hdigit _ _ h1
  have := hdigit _ _ h2
  have := hdigit _ _ h3
  have := hdigit _ _ h4
  omega

theorem flatten_cuts {f : ℕ → ℕ} (hf : Monotone f) (m : ℕ) :
    ((List.range m).map fun r => List.range' (f r) (f (r + 1) - f r)).flatten = List.range' (f 0) (f m - f 0) := by
  induction m with
  | zero => simp
  | succ m ih =>
    have h1 := hf (Nat.zero_le m)
    have h2 : f m ≤ f (m + 1) := hf (Nat.le_succ m)
    rw [List.range_succ, List.map_append, List.flatten_append, ih, List.map_singleton, List.flatten_singleton]
    have hstart : f m = f 0 + 1 * (f m - f 0) := by omega
    have hlen : f (m + 1) - f 0 = (f m - f 0) + (f (m + 1) - f m) := by omega
    rw [hlen]
    nth_rewrite 2 [hstart]
    exact List.range'_append

theorem manyRows_flatten : manyRows.flatten = (List.range' 0 65535).map manyName := by
  have hmono : Monotone manyCut := fun a b hab => min_le_min (by omega) le_rfl
  have h := flatten_cuts hmono 257
  have h0 : manyCut 0 = 0 := rfl
  have h257 : manyCut 257 = 65535 := rfl
  rw [h0, h257] at h
  have hrow : manyRows = ((List.range 257).map fun r =>
      List.range' (manyCut r) (manyCut (r + 1) - manyCut r)).map (List.map manyName) := by
    rw [manyRows, List.map_map]
    rfl
  rw [hrow, ← List.map_flatten, h]

theorem length_manyRows : manyRows.flatten.length = 65535 := by
  rw [manyRows_flatten, List.length_map, List.length_range']

theorem mem_manyRows {name : Name} : name ∈ manyRows.flatten ↔ ∃ i < 65535, manyName i = name := by
  rw [manyRows_flatten, List.mem_map]
  simp [List.mem_range'_1]

theorem entsLen_manyRow (r c : ℕ) :
    entsLen ((manyRow r).map fun name => (name, c)) = 16 * (manyCut (r + 1) - manyCut r) := by
  have hmap : ((manyRow r).map fun name => (name, c)).map (fun e : Ent => align8 (12 + e.1.length)) =
      List.replicate (manyCut (r + 1) - manyCut r) 16 := by
    rw [List.eq_replicate_iff]
    refine ⟨by simp [manyRow], fun x hx => ?_⟩
    simp only [manyRow, List.map_map, List.mem_map] at hx
    obtain ⟨i, -, rfl⟩ := hx
    change align8 (12 + (manyName i).length) = 16
    rw [length_manyName]
    decide
  rw [entsLen, hmap, List.sum_replicate_nat, Nat.mul_comm]

theorem getD_manyRows {r : ℕ} (hr : r < 257) : manyRows.getD r [] = manyRow r := by
  simp [manyRows, hr]

theorem manyOk : WideOk manyGeom manyRows 1 := by
  refine ⟨manyGeom_wf, rfl, by decide, ?_, by simp [manyRows], ?_, ?_, ?_, ?_, ?_, ?_, by decide, by decide⟩
  · intro row hrow hnil
    obtain ⟨r, hr, rfl⟩ := List.mem_map.mp hrow
    have hr' : r < 257 := List.mem_range.mp hr
    have hlen := congrArg List.length hnil
    simp only [manyRow, List.length_map, List.length_range', List.length_nil, manyCut] at hlen
    omega
  · rw [manyRows_flatten]
    refine List.Nodup.map_on (fun i hi j hj h => ?_) List.nodup_range'
    rw [List.mem_range'_1] at hi hj
    exact manyName_inj (by omega) (by omega) h
  · intro name hname hdot
    obtain ⟨i, -, rfl⟩ := mem_manyRows.mp hname
    rcases hdot with h | h <;> simpa [manyName] using congrArg List.length h
  · intro name hname
    obtain ⟨i, -, rfl⟩ := mem_manyRows.mp hname
    rw [length_manyName]
    omega
  · intro r hr
    have hr' : r < 257 := by simpa [manyRows] using hr
    rw [wideRow, getD_manyRows hr']
    unfold entsLen
    rw [List.map_append, List.sum_append]
    have := entsLen_manyRow r 2
    unfold entsLen at this
    rw [this, manyCut, manyCut]
    by_cases h0 : r = 0
    · rw [if_pos h0, h0]
      decide
    · rw [if_neg h0, List.map_nil, List.sum_nil]
      omega
  · rw [length_manyRows]
    omega
  · simp [wideUsed, manyRows, manyGeom, smallGeom]

/-- A file with 65535 names. -/
def manyState : St := wideState manyGeom manyRows 1 fun _ => zero

section Many

variable {v w : Vol} (hvol : v = wideVol manyGeom manyRows 1 fun _ => zero)

include hvol

theorem manyVol_out : v.out 1 = wideEnts manyRows := by rw [hvol, wideVol_out_root manyOk]

theorem manyVol_first : (manyName 0, 2) ∈ v.out 1 := by
  rw [manyVol_out hvol, mem_wideEnts]
  exact Or.inr (Or.inr ⟨mem_manyRows.mpr ⟨0, by omega, rfl⟩, rfl⟩)

theorem manyVol_target : v.resolve [47, 48, 48, 48, 48] = 2 := by
  have hcomp : components [47, 48, 48, 48, 48] = [manyName 0] := by decide
  have hnames : ((v.out 1).map Prod.fst).Nodup := by rw [manyVol_out hvol]; exact wideEnts_names manyOk
  have hlook : lookupEnt (v.out 1) (manyName 0) = 2 := lookupEnt_eq hnames (manyVol_first hvol)
  rw [Vol.resolve, hcomp, Vol.walk, CFS_ROOT_INO, hlook, if_neg (by decide), if_neg (by decide), Vol.walk]

theorem manyVol_fresh : lookupEnt (v.out 1) [120] = 0 := by
  refine (lookupEnt_eq_zero fun e he => out_ne_zero he).mpr fun hmem => ?_
  obtain ⟨e, he, hname⟩ := List.mem_map.mp hmem
  rw [manyVol_out hvol, mem_wideEnts] at he
  rcases he with rfl | rfl | ⟨he, -⟩
  · simp at hname
  · simp at hname
  · obtain ⟨i, -, hi⟩ := mem_manyRows.mp he
    simpa [← hi, length_manyName] using congrArg List.length hname

theorem manyVol_fits : ∃ b ∈ (v.ino 1).dirBlocks, (dirRecs (v.data b) 0).find?
    (fitsAt (v.data b) (align8 (12 + List.length [(120 : UInt8)]))) ≠ none := by
  have hlen : manyRows.length = 257 := by rw [manyRows, List.length_map, List.length_range]
  refine ⟨manyGeom.dataStart + 256, ?_, ?_⟩
  · rw [hvol, wideVol_root_dirBlocks manyOk, List.mem_range'_1]
    omega
  · have hrow : packDir (wideRow manyRows 256) = freshDirBlock 2 CFS_FT_REG (manyName 65534) := by
      rw [wideRow, getD_manyRows (by omega)]
      rfl
    rw [hvol, wideVol_data_row (by omega), hrow]
    exact freshDirBlock_fits (by rw [length_manyName]; omega) (by omega) (by omega) (by decide)

theorem manyVol_links : (v.ino 2).links = 65535 ∧ (v.ino 2).isDir = false := by
  constructor
  · rw [hvol, wideVol_file, DInode.links, getLE_stamp _ _ (by omega)]
    have h := @wideFile_links manyRows.flatten.length (manyGeom.dataStart + manyRows.length) 1
      (by rw [length_manyRows]; omega)
    rw [DInode.links] at h
    rw [h, length_manyRows]
  · rw [hvol]
    exact wideVol_isDir (by omega)

end Many

theorem located_x {v : Vol} (hdir : (v.ino CFS_ROOT_INO).isDir = true) : Located v [47, 120] 1 [120] :=
  ⟨by decide, by decide, by decide, by decide, rfl, .root, hdir⟩

/-- One more link makes the count 0; every old name stays. -/
theorem many_linked {s : St} (hs : s.Idle manyGeom) (hw : s.WritesOk)
    (hvol : s.vol = wideVol manyGeom manyRows 1 fun _ => zero) :
    ∃ t, t = (((Call.link [47, 48, 48, 48, 48] [47, 120]).exec ⟨0, 0, 0⟩).run s).2 ∧
      t.Idle manyGeom ∧ t.WritesOk ∧ Tree manyGeom t.vol ∧ (manyName 0, 2) ∈ t.vol.out 1 ∧
      ([120], 2) ∈ t.vol.out 1 ∧ (t.vol.ino 2).links = 0 ∧ (t.vol.ino 2).isDir = false := by
  have hv : Tree manyGeom s.vol := by
    rw [hvol]
    exact ((wideVol_wellFormed manyOk).sound manyGeom_wf).toTree
  obtain ⟨hlinks, hfile⟩ := manyVol_links hvol
  have hat := located_x hv.root
  have hok : (((Call.link [47, 48, 48, 48, 48] [47, 120]).exec ⟨0, 0, 0⟩).run s).1 ≠ none :=
    link_succeeds manyGeom_wf hs hw hv.usable (manyVol_target hvol) (by omega) hfile hat rfl
      (manyVol_fresh hvol) (manyVol_fits hvol)
  obtain ⟨rc, hrc⟩ := Option.ne_none_iff_exists'.mp hok
  obtain ⟨s1, hcom, hidle, hvol1, hwrites⟩ := exec_commit manyGeom_wf hs hrc
  have heff := commitState_effect manyGeom_wf hs hv.usable hcom
  have hroot : s.vol.resolve (parentOf [47, 120]) = 1 := rfl
  have hlen : (s.vol.ino (s.vol.resolve (parentOf [47, 120]))).blocks.length + 1 < 2 ^ 32 := by
    rw [hroot, hvol, wideVol_root_blocks manyOk, List.length_range', manyRows, List.length_map, List.length_range]
    omega
  have hlinked := heff.linked manyGeom_wf hv hlen
  rw [manyVol_target hvol, hroot] at hlinked
  obtain ⟨F, u, hgain, -, hr, -, hcount⟩ := hlinked.gained
  obtain ⟨l₁, l₂, hold, hnew⟩ := hlinked.out_parent hv
  refine ⟨_, rfl, hidle, hwrites hw, ?_⟩
  rw [hvol1]
  refine ⟨hlinked.tree hv, ?_, ?_, ?_, ?_⟩
  · have hfirst := manyVol_first hvol
    rw [hold] at hfirst
    rw [hnew]
    rcases List.mem_append.mp hfirst with h | h
    · exact List.mem_append_left _ h
    · exact List.mem_append_right _ (List.mem_cons_of_mem _ h)
  · rw [hnew]
    exact List.mem_append_right _ List.mem_cons_self
  · rw [hcount, hlinks]
  · have hreach := (hgain.reach_iff hv hlinked.parent hlinked.reach hlinked.ne_parent).mpr hlinked.reach
    rw [(hr.ino 2 hreach).isDir, hgain.ino 2 hlinked.ne_parent]
    exact hfile

/-- One more link to the file with 65535 names makes its count 0, and the next unlink frees
it: the inode is free while every old name still names it. -/
theorem many_names_freed : WellFormed manyGeom manyState.vol ∧ manyState.Idle manyGeom ∧
    manyState.WritesOk ∧ ∃ t, t = (((Call.unlink [47, 120]).exec ⟨0, 0, 0⟩).run
        (((Call.link [47, 48, 48, 48, 48] [47, 120]).exec ⟨0, 0, 0⟩).run manyState).2).2 ∧
      (manyName 0, 2) ∈ t.vol.out 1 ∧ t.vol.ibit 2 = false ∧ ¬ NamedKept manyGeom t.vol := by
  refine ⟨wideState_wellFormed manyOk, wideState_idle, wideState_writesOk, ?_⟩
  obtain ⟨s, hs, hidle, hw, hv, hfirst, hx, hlinks, hfile⟩ :=
    many_linked wideState_idle wideState_writesOk (wideState_vol manyOk)
  rw [manyState, ← hs]
  have hlook : lookupEnt (s.vol.out 1) [120] = 2 := lookupEnt_eq (hv.good 1 .root).names hx
  have hlt := (hv.good 2 (.step .root hx)).inTable
  have hok : (((Call.unlink [47, 120]).exec ⟨0, 0, 0⟩).run s).1 ≠ none :=
    unlink_succeeds manyGeom_wf hidle hw hv.usable (located_x hv.root) rfl hlook (by omega) hlt hfile
  obtain ⟨rc, hrc⟩ := Option.ne_none_iff_exists'.mp hok
  obtain ⟨s1, hcom, -, hvol1, -⟩ := exec_commit manyGeom_wf hidle hrc
  have heff := commitState_effect manyGeom_wf hidle hv.usable hcom
  have hroot : s.vol.resolve (parentOf [47, 120]) = 1 := rfl
  have htarget : s.vol.target [47, 120] = 2 := hlook
  have hmem : (manyName 0, s.vol.target [47, 120]) ∈ s.vol.out (s.vol.resolve (parentOf [47, 120])) := by
    rw [htarget, hroot]
    exact hfirst
  have hfrees := heff.unlink_frees manyGeom_wf hv (commitState_kept manyGeom_roomy hidle.toMounted hcom)
    (by rw [htarget]; omega) hmem (by decide)
  rw [htarget, hroot, ← hvol1] at hfrees
  refine ⟨_, rfl, hfrees.1, hfrees.2, fun hkept => ?_⟩
  have := (hkept 1 _ 2 .root hfrees.1).1
  rw [hfrees.2] at this
  cases this

theorem many_names_unlink : NamedKept manyGeom
    (((Call.unlink [47, 48, 48, 48, 48]).exec ⟨0, 0, 0⟩).run manyState).2.vol :=
  named_never_freed manyGeom_wf wideState_idle wideState_writesOk (wideState_wellFormed manyOk)
    (.call ⟨0, 0, 0⟩ (.unlink [47, 48, 48, 48, 48]) .start trivial id)

end ComputerOS.Cfs
