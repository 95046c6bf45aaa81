import ComputerOS.Cfs.Rewrite
import Mathlib.Algebra.Order.BigOperators.Group.Finset

/-!
Sound volumes: what a consistent volume keeps also when the buffer refused to free
something. Each inode in use is good on its own, no two share a block, and the links count
the names; bits may be set that nothing uses. A change to a volume is judged inode by
inode, and most inodes it leaves alone.
-/
namespace ComputerOS.Cfs

open Bytes Function

/-- Inode `n` and what it covers are as the format has them, and marked in use. -/
structure Good (g : Geom) (v : Vol) (n : ℕ) : Prop where
  inTable : n < g.totalInodes
  shaped : Shaped (v.ino n)
  inRange : ∀ b ∈ (v.ino n).blocks, g.IsData b
  once : (v.ino n).blocks.Nodup
  tiled : (v.ino n).isDir = true → ∀ b ∈ (v.ino n).blocks, Tiled (v.data b)
  names : ((v.out n).map Prod.fst).Nodup
  ibit : v.ibit n = true
  used : ∀ b ∈ (v.ino n).blocks, v.bbit b = true

/-- The inodes in use are good, and no two of them share a block. -/
structure Tree (g : Geom) (v : Vol) : Prop where
  root : (v.ino CFS_ROOT_INO).isDir = true
  good : ∀ n, v.Reach n → Good g v n
  apart : ∀ n m, v.Reach n → v.Reach m → n ≠ m → ∀ b ∈ (v.ino n).blocks, b ∉ (v.ino m).blocks
  reserved : ∀ b < g.dataStart, v.bbit b = true

/-- As `Tree`, and the link counts are the numbers of names. -/
structure Sound (g : Geom) (v : Vol) : Prop extends Tree g v where
  links : ∀ n, v.Reach n → (v.ino n).links = v.refs g n

variable {g : Geom} {v w : Vol} {n p : ℕ}

theorem isData_ne_zero (hg : g.Wf) {b : ℕ} (h : g.IsData b) : b ≠ 0 := by
  have h1 := hg.super
  have h2 := hg.blockBitmap
  have h3 := hg.inodeBitmap
  have h4 := hg.inodeTable
  have h5 := h.1
  omega

theorem Good.dirBlocks (hg : g.Wf) (h : Good g v n) (hd : (v.ino n).isDir = true) :
    (v.ino n).dirBlocks = (v.ino n).blocks :=
  dirBlocks_eq (h.shaped.dir hd).1 (h.shaped.dir hd).2 fun b hb =>
  isData_ne_zero hg (h.inRange b hb)

/-- An inode whose record is alike and whose blocks are the same has the same entries. -/
theorem out_frame (hx : (v.ino n).nextents ≤ 12) (hlike : DInode.Alike (v.ino n) (w.ino n))
    (hdata : ∀ b ∈ (v.ino n).blocks, w.data b = v.data b) : w.out n = v.out n := by
  unfold Vol.out
  rw [hlike.isDir]
  split
  · rw [Vol.ents, Vol.ents, entsIn, entsIn, hlike.dirBlocks hx]
    exact entsIn_congr fun b hb => hdata b (mem_dirBlocks hb)
  · rfl

theorem Good.frame (h : Good g v n) (hlike : DInode.Alike (v.ino n) (w.ino n))
    (hdata : ∀ b ∈ (v.ino n).blocks, w.data b = v.data b) (hibit : w.ibit n = true)
    (hused : ∀ b ∈ (v.ino n).blocks, w.bbit b = true) : Good g w n := by
  have hx := h.shaped.extents
  have hblocks := hlike.blocks hx
  refine ⟨h.inTable, hlike.shaped h.shaped, ?_, ?_, ?_, ?_, hibit, ?_⟩
  · rw [hblocks]
    exact h.inRange
  · rw [hblocks]
    exact h.once
  · intro hd b hb
    rw [hlike.isDir] at hd
    rw [hblocks] at hb
    rw [hdata b hb]
    exact h.tiled hd b hb
  · rw [out_frame hx hlike hdata]
    exact h.names
  · rw [hblocks]
    exact hused

theorem WellFormed.sound (hg : g.Wf) (h : WellFormed g v) : Sound g v := by
  refine ⟨⟨h.dotted.root, fun n hn => ?_, h.apart, fun b hb => ?_⟩, h.links⟩
  · refine ⟨h.inTable n hn, h.shaped n hn, h.inRange n hn, h.once n hn, fun hd b hb => ?_, h.names n hn,
      (h.ibits n (h.inTable n hn)).mpr (Or.inr hn), fun b hb => h.toConsistent.used hn hb⟩
    refine h.tiled n hn hd b ?_
    rwa [h.dirBlocks hg hn hd]
  · exact (h.bbits b (by have := hg.dataStart; omega)).mpr (Or.inl hb)

theorem Tree.usable (h : Tree g v) : Usable g v := by
  refine ⟨⟨fun n hn => reach_ne_zero hn, fun n hn => (h.good n hn).inTable, fun n hn hd b hb => ?_⟩,
    fun n hn hd b hb => ?_⟩
  · exact (h.good n hn).inRange b (mem_dirBlocks hb)
  · exact (h.good n hn).used b (mem_dirBlocks hb)

section Alike

variable (hino : ∀ m, v.Reach m → DInode.Alike (v.ino m) (w.ino m))
  (hdata : ∀ m, v.Reach m → ∀ b ∈ (v.ino m).blocks, w.data b = v.data b)
  (hgood : ∀ m, v.Reach m → Good g v m)

include hino hdata hgood

theorem alike_out {m : ℕ} (hm : v.Reach m) : w.out m = v.out m :=
  out_frame (hgood m hm).shaped.extents (hino m hm) (hdata m hm)

theorem alike_reach {m : ℕ} : w.Reach m ↔ v.Reach m :=
  DirGraph.reach_congr fun _ hk => alike_out hino hdata hgood hk

theorem alike_refs (c : ℕ) : w.refs g c = v.refs g c := by
  classical
  unfold Vol.refs
  refine Finset.sum_congr (Finset.filter_congr fun m _ => alike_reach hino hdata hgood) fun m hm => ?_
  rw [alike_out hino hdata hgood (Finset.mem_filter.mp hm).2]

/-- Records that are alike, over the same blocks. -/
theorem tree_of_alike (hv : Tree g v) (hbbit : w.bbit = v.bbit) (hibit : w.ibit = v.ibit) : Tree g w := by
  have hx : ∀ m, v.Reach m → (v.ino m).nextents ≤ 12 := fun m hm => (hgood m hm).shaped.extents
  have hreach : ∀ m, w.Reach m ↔ v.Reach m := fun m => alike_reach hino hdata hgood
  refine ⟨?_, fun m hm => ?_, fun n m hn hm hne b hb => ?_, fun b hb => ?_⟩
  · rw [(hino _ .root).isDir]
    exact hv.root
  · rw [hreach] at hm
    refine (hgood m hm).frame (hino m hm) (hdata m hm) ?_ fun b hb => ?_
    · rw [hibit]
      exact (hgood m hm).ibit
    · rw [hbbit]
      exact (hgood m hm).used b hb
  · rw [hreach] at hn hm
    rw [(hino n hn).blocks (hx n hn)] at hb
    rw [(hino m hm).blocks (hx m hm)]
    exact hv.apart n m hn hm hne b hb
  · rw [hbbit]
    exact hv.reserved b hb

end Alike

theorem Tree.retag (hv : Tree g v) (hr : Retagged v w) : Tree g w :=
  tree_of_alike hr.ino (fun _ _ b _ => congrFun hr.data b) hv.good hv hr.bbit hr.ibit

/-- Records that are alike except for their links. -/
theorem Tree.retag_sound (hv : Tree g v) (hr : Retagged v w)
    (hlinks : ∀ m, v.Reach m → (w.ino m).links = v.refs g m) : Sound g w := by
  have hx : ∀ m, v.Reach m → (v.ino m).nextents ≤ 12 := fun m hm => (hv.good m hm).shaped.extents
  refine ⟨hv.retag hr, fun m hm => ?_⟩
  rw [hr.refs_eq hx]
  exact hlinks m ((hr.reach_iff hx).mp hm)

theorem Sound.sameTree (hv : Sound g v) (h : SameTree v w) : Sound g w := by
  have hino : ∀ m, v.Reach m → DInode.Alike (v.ino m) (w.ino m) :=
    fun m hm => by rw [h.ino m hm]; exact .refl _
  refine ⟨tree_of_alike hino h.data hv.good hv.toTree h.bbit h.ibit, fun m hm => ?_⟩
  have hm' := (alike_reach hino h.data hv.good).mp hm
  rw [h.ino m hm', alike_refs hino h.data hv.good]
  exact hv.links m hm'

/-- The names of an inode, counted over any set that holds the inodes in use. -/
theorem refs_eq_sum {S : Finset ℕ} (hS : ∀ m, m ∈ S ↔ v.Reach m) (hin : ∀ m, v.Reach m → m < g.totalInodes)
    (c : ℕ) : v.refs g c = ∑ m ∈ S, (v.out m).countP fun e => e.2 = c := by
  classical
  unfold Vol.refs
  refine Finset.sum_congr (Finset.ext fun m => ?_) fun _ _ => rfl
  rw [Finset.mem_filter, Finset.mem_range, hS]
  exact ⟨fun h => h.2, fun h => ⟨hin m h, h⟩⟩

/-- An inode without names: no entry of an inode in use names it. -/
theorem refs_eq_zero (hin : ∀ m, v.Reach m → m < g.totalInodes) {c : ℕ} :
    v.refs g c = 0 ↔ ∀ m, v.Reach m → ∀ e ∈ v.out m, e.2 ≠ c := by
  classical
  unfold Vol.refs
  rw [Finset.sum_eq_zero_iff]
  constructor
  · intro h m hm e he hc
    have h0 := h m (Finset.mem_filter.mpr ⟨Finset.mem_range.mpr (hin m hm), hm⟩)
    rw [List.countP_eq_zero] at h0
    exact h0 e he (by simpa using hc)
  · intro h m hm
    rw [List.countP_eq_zero]
    intro e he
    simpa using h m (Finset.mem_filter.mp hm).2 e he

end ComputerOS.Cfs
