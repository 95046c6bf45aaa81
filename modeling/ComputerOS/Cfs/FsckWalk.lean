import ComputerOS.Lib.BoundedWalk
import ComputerOS.Cfs.Fsck

/-!
The walk of `cfs_fsck` on a device that answers every read is a bounded depth-first walk over the
tree of directory entries. What it has marked is what the inodes cover that it has dealt with, and
an index leaves its array exactly when one of them has too many extents or is not read whole, or the
superblock is wrong.
-/
namespace ComputerOS.Cfs

open M Bytes Function

variable {g : Geom} {s : St} {ino : ℕ → DInode} {V : ℕ → Block} {w w' w'' : Fsck} {d : DInode} {b e n root : ℕ}
  {l l₁ l₂ : List ℕ} {X Y : Prop}

/-- The volume is small enough for the working sets. -/
def Geom.Capped (g : Geom) : Prop := g.totalBlocks ≤ CFS_FSCK_MAX_BLOCKS ∧ g.totalInodes ≤ CFS_FSCK_MAX_INODES

/-- The blocks listed have been marked, those outside of the data region apart; an index has left
its array when `X` holds. -/
structure Marked (g : Geom) (w w' : Fsck) (l : List ℕ) (X : Prop) : Prop where
  ibm : w'.ibm = w.ibm
  refs : w'.refs = w.refs
  stack : w'.stack = w.stack
  bbm : ∀ b, w'.bbm b = true ↔ w.bbm b = true ∨ g.IsData b ∧ b ∈ l
  wild : w'.wild = true ↔ w.wild = true ∨ X

theorem Marked.trans (h₁ : Marked g w w' l₁ X) (h₂ : Marked g w' w'' l₂ Y) : Marked g w w'' (l₁ ++ l₂) (X ∨ Y) := by
  refine ⟨h₂.ibm.trans h₁.ibm, h₂.refs.trans h₁.refs, h₂.stack.trans h₁.stack, fun b => ?_, ?_⟩
  · rw [h₂.bbm, h₁.bbm, List.mem_append, and_or_left, or_assoc]
  · rw [h₂.wild, h₁.wild, or_assoc]

theorem Marked.congr (h : Marked g w w' l X) (hX : X ↔ Y) : Marked g w w' l Y :=
  ⟨h.ibm, h.refs, h.stack, h.bbm, h.wild.trans (or_congr_right hX)⟩

theorem Marked.refl (g : Geom) (w : Fsck) : Marked g w w [] False :=
  ⟨rfl, rfl, rfl, fun b => by simp, by simp⟩

theorem access_wild (w : Fsck) (ok : Bool) : (w.access ok).wild = true ↔ w.wild = true ∨ ok = false := by
  unfold Fsck.access
  cases ok <;> simp

theorem fsckMark_spec (hg : g.Capped) (w : Fsck) (b : ℕ) : Marked g w (fsckMark g w b) [b] False := by
  unfold fsckMark
  split
  · rename_i hout
    refine ⟨rfl, rfl, rfl, fun x => ?_, by simp [Fsck.count]⟩
    refine ⟨Or.inl, fun hx => hx.resolve_right ?_⟩
    rintro ⟨⟨hlo, hhi⟩, hx⟩
    rw [List.mem_singleton.mp hx] at hlo hhi
    omega
  · rename_i hin
    have hlt : b < CFS_FSCK_MAX_BLOCKS := by
      have := hg.1
      omega
    have hdata : g.IsData b := ⟨by omega, by omega⟩
    dsimp only
    split
    · rename_i hset
      refine ⟨rfl, rfl, rfl, fun x => ?_, by simp [Fsck.count, Fsck.access, hlt]⟩
      refine ⟨Or.inl, fun hx => hx.elim id ?_⟩
      rintro ⟨-, hx⟩
      rw [List.mem_singleton.mp hx]
      exact hset
    · refine ⟨rfl, rfl, rfl, fun x => ?_, by simp [Fsck.setBlock, Fsck.access, hlt]⟩
      unfold Fsck.setBlock Fsck.access
      dsimp only
      by_cases hx : x = b
      · subst hx
        simp [hdata]
      · simp [hx]

theorem foldl_marked {α : Type} {f : Fsck → α → Fsck} {at' : α → List ℕ} {X : α → Prop}
    (hf : ∀ w a, Marked g w (f w a) (at' a) (X a)) (w : Fsck) (l : List α) :
    Marked g w (l.foldl f w) (l.flatMap at') (∃ a ∈ l, X a) := by
  induction l generalizing w with
  | nil => exact (Marked.refl g w).congr (by simp)
  | cons a l ih =>
    rw [List.foldl_cons, List.flatMap_cons]
    exact ((hf w a).trans (ih _)).congr (by simp)

theorem fsckMarkExtent_spec (hg : g.Capped) (d : DInode) (w : Fsck) (e : ℕ) :
    Marked g w (fsckMarkExtent g d w e) (d.extentBlocks e) (12 ≤ e) := by
  have haccess : Marked g w (w.access (e < CFS_INLINE_EXTENTS)) [] (12 ≤ e) := by
    refine ⟨rfl, rfl, rfl, fun b => by simp [Fsck.access], ?_⟩
    rw [access_wild, decide_eq_false_iff_not, Nat.not_lt]
    rfl
  unfold fsckMarkExtent DInode.extentBlocks
  dsimp only
  split
  · exact haccess
  · have hfold := foldl_marked (fun w k => fsckMark_spec hg w ((d.extentStart e + k) % 2 ^ 64))
      (w.access (e < CFS_INLINE_EXTENTS)) (List.range (d.extentCount e))
    rw [← List.map_eq_flatMap] at hfold
    exact (haccess.trans hfold).congr (by simp)

theorem fsckMarkBlocks_spec (hg : g.Capped) (d : DInode) (w : Fsck) :
    Marked g w (fsckMarkBlocks g d w) d.blocks (12 < d.nextents) := by
  refine (foldl_marked (fsckMarkExtent_spec hg d) w (List.range d.nextents)).congr ?_
  constructor
  · rintro ⟨e, he, hle⟩
    exact Nat.lt_of_le_of_lt hle (List.mem_range.mp he)
  · exact fun hlt => ⟨12, List.mem_range.mpr hlt, Nat.le_refl _⟩

/-- `read_dinode` gives a record for this number. -/
def Geom.InTable (g : Geom) (n : ℕ) : Prop := n ≠ 0 ∧ n < g.totalInodes

instance (g : Geom) (n : ℕ) : Decidable (g.InTable n) := inferInstanceAs (Decidable (_ ∧ _))

def entriesOf (g : Geom) (ino : ℕ → DInode) (V : ℕ → Block) (n : ℕ) : List Ent :=
  if g.InTable n then entsIn V (ino n) else []

/-- An entry leads the walk on. -/
def Geom.Leads (g : Geom) (e : Ent) : Prop := ¬ IsDotName e.1 ∧ e.2 < g.totalInodes

instance (g : Geom) (e : Ent) : Decidable (g.Leads e) := inferInstanceAs (Decidable (_ ∧ _))

/-- Directories and what their entries lead to. -/
def entryTree (g : Geom) (ino : ℕ → DInode) (V : ℕ → Block) : Branching ℕ where
  inner n := (ino n).isDir
  outs n := ((entriesOf g ino V n).filter g.Leads).map Prod.snd

def fsckEnt (g : Geom) (ino : ℕ → DInode) (w : Fsck) (e : Ent) : Fsck :=
  let w := if e.2 < CFS_FSCK_MAX_INODES then { w with refs := update w.refs e.2 ((w.refs e.2 + 1) % 2 ^ 16) } else w
  if IsDotName e.1 then w
  else if g.totalInodes ≤ e.2 then w.count fun r => { r with inodeBadref := r.inodeBadref + 1 }
  else
    let w := w.access (e.2 < CFS_FSCK_MAX_INODES)
    if w.ibm e.2 then w
    else
      let w := w.setInode e.2
      if (ino e.2).isDir then
        if w.stack.length < CFS_FSCK_MAX_STACK then { w with stack := e.2 :: w.stack }
        else w.count fun r => { r with sbBad := r.sbBad + 1 }
      else fsckMarkInode g e.2 (ino e.2) w

def fsckBlk (g : Geom) (ino : ℕ → DInode) (V : ℕ → Block) (d : DInode) (w : Fsck) (fb : ℕ) : Fsck :=
  let w := w.access ((extentsRead d fb 0 d.nextents 0).all (· < CFS_INLINE_EXTENTS))
  if mapFileblock d fb = 0 then w else (dirEnts (V (mapFileblock d fb))).foldl (fsckEnt g ino) w

def fsckVisit (g : Geom) (ino : ℕ → DInode) (V : ℕ → Block) (w : Fsck) (n : ℕ) : Fsck :=
  if g.InTable n then (List.range ((ino n).size / 4096)).foldl (fsckBlk g ino V (ino n)) (fsckMarkInode g n (ino n) w)
  else w

theorem foldlM_run {α β : Type} {f : β → α → M β} {h : β → α → β} (hf : ∀ b a, (f b a).run s = (some (h b a), s))
    (b : β) (l : List α) : (l.foldlM f b).run s = (some (l.foldl h b), s) := by
  induction l generalizing b with
  | nil => rfl
  | cons a l ih => rw [List.foldlM_cons, bind_of_some (hf b a), ih, List.foldl_cons]

section Device

variable (hs : s.Idle g)
include hs

theorem fsckEntry_run (blk : Block) (w : Fsck) (off : ℕ) : (fsckEntry blk w off).run s =
    (some (match recEnt blk off with
      | none => w
      | some e => fsckEnt g s.vol.ino w e), s) := by
  have hgeom : s.fs.totalInodes = g.totalInodes := congrArg Geom.totalInodes hs.geom
  have hdots : isDots blk off = decide (IsDotName (Dirent.name blk off)) := by
    rw [Bool.eq_iff_iff, isDots_iff, decide_eq_true_eq]
  rw [fsckEntry, bind_of_some (getFs_run s), hdots, hgeom]
  unfold recEnt
  generalize Dirent.inode blk off = c
  generalize Dirent.name blk off = nm
  dsimp only
  by_cases h0 : c = 0
  · rw [if_pos h0, if_pos h0, pure_run]
  · rw [if_neg h0, if_neg h0]
    dsimp only
    unfold fsckEnt
    dsimp only
    generalize (if c < CFS_FSCK_MAX_INODES then _ else w : Fsck) = w₁
    by_cases hdot : IsDotName nm
    · rw [if_pos hdot, if_pos (decide_eq_true hdot), pure_run]
    · rw [if_neg hdot, if_neg (mt of_decide_eq_true hdot)]
      by_cases hle : g.totalInodes ≤ c
      · rw [if_pos hle, if_pos hle, pure_run]
      · rw [if_neg hle, if_neg hle]
        generalize w₁.access (c < CFS_FSCK_MAX_INODES) = w₂
        split
        · rw [pure_run]
        · rw [bind_of_some (attempt_some (readDinode_run hs.toMounted ⟨h0, Nat.lt_of_not_le hle⟩))]
          dsimp only
          split
          · split <;> rw [pure_run]
          · rw [pure_run, hs.geom]

theorem fsckBlock_run (d : DInode) (w : Fsck) (fb : ℕ) :
    (fsckBlock d w fb).run s = (some (fsckBlk g s.vol.ino s.disk d w fb), s) := by
  unfold fsckBlock fsckBlk
  dsimp only
  split
  · rw [pure_run]
  · rw [bind_of_some (attempt_some (rawReadBlock_ok _ hs.reads))]
    dsimp only
    rw [foldlM_run (fsckEntry_run hs _), dirEnts, List.foldl_filterMap]
    refine congrArg (fun f => (some (List.foldl f _ _), s)) (funext₂ fun b a => ?_)
    cases recEnt (s.disk (mapFileblock d fb)) a <;> rfl

theorem fsckDir_run (w : Fsck) (n : ℕ) : (fsckDir w n).run s = (some (fsckVisit g s.vol.ino s.disk w n), s) := by
  rw [fsckDir, bind_of_some (getFs_run s)]
  unfold fsckVisit
  split
  · rename_i hn
    rw [bind_of_some (attempt_some (readDinode_run hs.toMounted hn)), hs.geom]
    exact foldlM_run (fsckBlock_run hs _) _ _
  · rename_i hn
    rw [bind_of_some (attempt_none (readDinode_none hs.toMounted hn)), pure_run]

/-- The loop over the stack. -/
def fsckRounds (g : Geom) (ino : ℕ → DInode) (V : ℕ → Block) : ℕ → Fsck → Option Fsck
  | 0, _ => none
  | n + 1, w =>
      match w.stack with
      | [] => some w
      | dno :: rest => fsckRounds g ino V n (fsckVisit g ino V { w with stack := rest } dno)

theorem fsckWalk_run (fuel : ℕ) (w : Fsck) :
    (fsckWalk fuel w).run s = (some (fsckRounds g s.vol.ino s.disk fuel w), s) := by
  induction fuel generalizing w with
  | zero => rfl
  | succ fuel ih =>
    unfold fsckWalk fsckRounds
    cases w.stack with
    | nil => rfl
    | cons dno rest =>
      dsimp only
      rw [bind_of_some (fsckDir_run hs _ _), ih]

end Device

/-- An inode whose extents cannot be used as they are: too many, or not read whole. -/
def Geom.Overruns (g : Geom) (ino : ℕ → DInode) (n : ℕ) : Prop := 12 < (ino n).nextents ∨ g.recordInside n = false

theorem fsckMarkInode_spec (hg : g.Capped) (n : ℕ) (w : Fsck) :
    Marked g w (fsckMarkInode g n (ino n) w) (ino n).blocks (g.Overruns ino n) := by
  have haccess : Marked g w (w.access (g.recordInside n)) [] (g.recordInside n = false) :=
    ⟨rfl, rfl, rfl, fun b => by simp [Fsck.access], access_wild w _⟩
  exact (haccess.trans (fsckMarkBlocks_spec hg (ino n) _)).congr or_comm

/-- The working sets when the walk over the tree is at `t` and the entries `es` have been read; an
index has left its array when `X` holds, or by an inode with too many extents or with a part of its
record only. -/
structure Tracks (g : Geom) (ino : ℕ → DInode) (X : Prop) (t : Branching.Walk ℕ) (es : List Ent) (w : Fsck) : Prop where
  ibm : w.ibm = t.seen
  stack : w.stack = t.stack
  refs : ∀ c < CFS_FSCK_MAX_INODES, w.refs c = (es.countP fun e => e.2 = c) % 2 ^ 16
  bbm : ∀ b, w.bbm b = true ↔ b < g.dataStart ∨ ∃ n ∈ t.done, g.InTable n ∧ g.IsData b ∧ b ∈ (ino n).blocks
  wild : w.wild = true ↔ X ∨ ∃ n ∈ t.done, g.InTable n ∧ g.Overruns ino n

variable {t t' : Branching.Walk ℕ} {es : List Ent}

/-- Marking the blocks of an inode that has been dealt with. -/
theorem Tracks.mark (h : Tracks g ino X t es w) (hg : g.Capped) (hn : g.InTable n) :
    Tracks g ino X { t with done := n :: t.done } es (fsckMarkInode g n (ino n) w) := by
  have hm := @fsckMarkInode_spec g ino hg n w
  refine ⟨hm.ibm.trans h.ibm, hm.stack.trans h.stack, fun c hc => by rw [hm.refs, h.refs c hc], fun b => ?_, ?_⟩
  · rw [hm.bbm, h.bbm, or_assoc]
    simp only [List.mem_cons, exists_eq_or_imp, hn, true_and, or_comm]
  · rw [hm.wild, h.wild, or_assoc]
    simp only [List.mem_cons, exists_eq_or_imp, hn, true_and, or_comm]

/-- An inode that is not in the table has nothing to mark. -/
theorem Tracks.skip (h : Tracks g ino X t es w) (hn : ¬ g.InTable n) :
    Tracks g ino X { t with done := n :: t.done } es w := by
  refine ⟨h.ibm, h.stack, h.refs, fun b => ?_, ?_⟩
  · rw [h.bbm]
    simp [hn]
  · rw [h.wild]
    simp [hn]

/-- The reference that an entry makes is counted. -/
theorem Tracks.refer (h : Tracks g ino X t es w) (e : Ent) : Tracks g ino X t (es ++ [e])
    (if e.2 < CFS_FSCK_MAX_INODES then { w with refs := update w.refs e.2 ((w.refs e.2 + 1) % 2 ^ 16) } else w) := by
  have hcount : ∀ c, (es ++ [e]).countP (fun e => e.2 = c) = es.countP (fun e => e.2 = c) + if e.2 =
    c then 1 else 0 := by
    intro c
    rw [List.countP_append, List.countP_singleton]
    simp
  split
  · refine ⟨h.ibm, h.stack, fun c hc => ?_, h.bbm, h.wild⟩
    rw [hcount]
    dsimp only
    by_cases hec : e.2 = c
    · subst hec
      rw [update_self, h.refs _ hc, if_pos rfl, Nat.mod_add_mod]
    · rw [update_of_ne (Ne.symm hec), h.refs c hc, if_neg hec, Nat.add_zero]
  · rename_i hlt
    refine ⟨h.ibm, h.stack, fun c hc => ?_, h.bbm, h.wild⟩
    rw [hcount, if_neg (fun hec : e.2 = c => hlt (hec ▸ hc)), Nat.add_zero]
    exact h.refs c hc

/-- One entry is one step of the walk over the tree. -/
theorem Tracks.entry (h : Tracks g ino X t es w) (hg : g.Capped) {e : Ent} (he : e.2 ≠ 0) :
    Tracks g ino X (if g.Leads e then (entryTree g ino V).meet CFS_FSCK_MAX_STACK t e.2 else t) (es ++ [e])
      (fsckEnt g ino w e) := by
  have h₁ := h.refer e
  unfold fsckEnt
  dsimp only
  generalize (if e.2 < CFS_FSCK_MAX_INODES then _ else w : Fsck) = w₁ at h₁ ⊢
  by_cases hdot : IsDotName e.1
  · rw [if_pos hdot, if_neg fun hl => hl.1 hdot]
    exact h₁
  · rw [if_neg hdot]
    by_cases hle : g.totalInodes ≤ e.2
    · rw [if_pos hle, if_neg fun hl => Nat.not_lt.mpr hle hl.2]
      exact ⟨h₁.ibm, h₁.stack, h₁.refs, h₁.bbm, h₁.wild⟩
    · have hlt : e.2 < g.totalInodes := Nat.lt_of_not_le hle
      have hmax : e.2 < CFS_FSCK_MAX_INODES := Nat.lt_of_lt_of_le hlt hg.2
      rw [if_neg hle, if_pos ⟨hdot, hlt⟩]
      have hacc : w₁.access (e.2 < CFS_FSCK_MAX_INODES) = w₁ := by simp [Fsck.access, hmax]
      have hset : w₁.setInode e.2 = { w₁ with ibm := update w₁.ibm e.2 true } := by simp [Fsck.setInode, hacc]
      rw [hacc, hset]
      have hdir : (ino e.2).isDir = (entryTree g ino V).inner e.2 := rfl
      rw [hdir]
      dsimp only
      rcases Branching.meet_cases (entryTree g ino V) CFS_FSCK_MAX_STACK t e.2 with
        ⟨hs, he'⟩ | ⟨hs, hi, hlen, he'⟩ | ⟨hs, hi, hlen, he'⟩ | ⟨hs, hi, he'⟩
      · rw [if_pos (by rw [h₁.ibm, hs]), he']
        exact h₁
      · rw [if_neg (by rw [h₁.ibm, hs]; exact Bool.false_ne_true), he', if_pos hi, if_pos (by rw [h₁.stack]; exact hlen)]
        exact ⟨by rw [← h₁.ibm], by rw [← h₁.stack], h₁.refs, h₁.bbm, h₁.wild⟩
      · rw [if_neg (by rw [h₁.ibm, hs]; exact Bool.false_ne_true), he', if_pos hi,
          if_neg (by rw [h₁.stack]; exact Nat.not_lt.mpr hlen)]
        exact ⟨by rw [← h₁.ibm]; rfl, h₁.stack, h₁.refs, h₁.bbm, h₁.wild⟩
      · rw [if_neg (by rw [h₁.ibm, hs]; exact Bool.false_ne_true), he',
          if_neg (by rw [hi]; exact Bool.false_ne_true)]
        have h₂ : Tracks g ino X { t with seen := update t.seen e.2 true } (es ++ [e])
            { w₁ with ibm := update w₁.ibm e.2 true } := ⟨by rw [← h₁.ibm], h₁.stack, h₁.refs, h₁.bbm, h₁.wild⟩
        exact h₂.mark hg ⟨he, hlt⟩

abbrev leadsTo (g : Geom) (l : List Ent) : List ℕ := (l.filter g.Leads).map Prod.snd

theorem Tracks.entries (h : Tracks g ino X t es w) (hg : g.Capped) {l : List Ent} (hl : ∀ e ∈ l, e.2 ≠ 0) :
    Tracks g ino X ((leadsTo g l).foldl ((entryTree g ino V).meet CFS_FSCK_MAX_STACK) t) (es ++ l)
      (l.foldl (fsckEnt g ino) w) := by
  induction l generalizing t es w with
  | nil =>
    rw [List.append_nil]
    exact h
  | cons e l ih =>
    have h' := @ih _ _ _ (h.entry hg (hl e List.mem_cons_self) (V := V)) fun e he => hl e (List.mem_cons_of_mem _ he)
    rw [List.append_assoc, List.singleton_append] at h'
    rw [List.foldl_cons, leadsTo, List.filter_cons]
    by_cases he : g.Leads e
    · rw [if_pos he] at h'
      rw [if_pos (decide_eq_true he), List.map_cons, List.foldl_cons]
      exact h'
    · rw [if_neg he] at h'
      rw [if_neg (mt of_decide_eq_true he)]
      exact h'

/-- Looking up a block of a file reads the inode's own extents. -/
theorem extentsRead_lt (d : DInode) (fb : ℕ) {e n : ℕ} (logical : ℕ) (he : e + n ≤ 12) :
    ∀ i ∈ extentsRead d fb e n logical, i < 12 := by
  induction n generalizing e logical with
  | zero =>
    intro i hi
    cases hi
  | succ n ih =>
    intro i hi
    unfold extentsRead at hi
    split at hi
    · rw [List.mem_singleton.mp hi]
      omega
    · rcases List.mem_cons.mp hi with rfl | hi
      · omega
      · exact ih (e := e + 1) _ (by omega) i hi

/-- Reading a block map leaves the arrays only for an inode with too many extents. -/
theorem Tracks.lookup (h : Tracks g ino X t es w) (hn : g.InTable n) (hdone : n ∈ t.done) (fb : ℕ) :
    Tracks g ino X t es (w.access ((extentsRead (ino n) fb 0 (ino n).nextents 0).all (· < CFS_INLINE_EXTENTS))) := by
  refine ⟨h.ibm, h.stack, h.refs, h.bbm, ?_⟩
  rw [access_wild, h.wild]
  refine or_iff_left_of_imp fun hall => ?_
  by_cases hle : (ino n).nextents ≤ 12
  · have hok := @extentsRead_lt (ino n) fb 0 (ino n).nextents 0 (by rw [Nat.zero_add]; exact hle)
    rw [List.all_eq_false] at hall
    obtain ⟨i, hi, hlt⟩ := hall
    exact absurd (decide_eq_true (hok i hi)) hlt
  · exact Or.inr ⟨n, hdone, hn, Or.inl (Nat.lt_of_not_le hle)⟩

/-- The entries in the given file blocks of an inode. -/
def entriesAt (V : ℕ → Block) (d : DInode) (fbs : List ℕ) : List Ent := (mappedAt d fbs).flatMap fun b => dirEnts (V b)

theorem entriesAt_cons (V : ℕ → Block) (d : DInode) (fb : ℕ) (fbs : List ℕ) :
    entriesAt V d (fb :: fbs) = (if mapFileblock d fb = 0 then [] else dirEnts
      (V (mapFileblock d fb))) ++ entriesAt V d fbs := by
  unfold entriesAt
  split
  · rename_i h0
    rw [mappedAt_zero fbs h0, List.nil_append]
  · rename_i h0
    rw [mappedAt_pos fbs h0, List.flatMap_cons]

theorem leadsTo_append (g : Geom) (l l' : List Ent) : leadsTo g (l ++ l') = leadsTo g l ++ leadsTo g l' := by
  rw [leadsTo, List.filter_append, List.map_append]

theorem Tracks.blocks (h : Tracks g ino X t es w) (hg : g.Capped) (hn : g.InTable n)
    (hdone : n ∈ t.done) (fbs : List ℕ) :
    Tracks g ino X ((leadsTo g (entriesAt V (ino n) fbs)).foldl ((entryTree g ino V).meet CFS_FSCK_MAX_STACK) t)
      (es ++ entriesAt V (ino n) fbs) (fbs.foldl (fsckBlk g ino V (ino n)) w) := by
  induction fbs generalizing t es w with
  | nil => simpa [entriesAt, mappedAt, leadsTo] using h
  | cons fb fbs ih =>
    have hstep : Tracks g ino X ((leadsTo g
        (if mapFileblock (ino n) fb = 0 then [] else dirEnts (V (mapFileblock (ino n) fb)))).foldl
        ((entryTree g ino V).meet CFS_FSCK_MAX_STACK) t)
        (es ++ if mapFileblock (ino n) fb = 0 then [] else dirEnts (V (mapFileblock (ino n) fb)))
        (fsckBlk g ino V (ino n) w fb) := by
      have hacc := h.lookup hn hdone fb
      unfold fsckBlk
      dsimp only
      split
      · rw [List.append_nil]
        exact hacc
      · exact hacc.entries hg fun e he => dirEnts_ne_zero he
    rw [entriesAt_cons, leadsTo_append, List.foldl_append, List.foldl_cons, ← List.append_assoc]
    exact ih hstep (Branching.mem_foldl_meet_done _ hdone)

/-- A visit reads all entries of the inode. -/
theorem Tracks.visit (h : Tracks g ino X t es w) (hg : g.Capped) (n : ℕ) :
    Tracks g ino X ((entryTree g ino V).visit CFS_FSCK_MAX_STACK t n) (es ++ entriesOf g ino V n)
      (fsckVisit g ino V w n) := by
  unfold fsckVisit Branching.visit entryTree entriesOf
  dsimp only
  split
  · rename_i hn
    exact (h.mark hg hn).blocks hg hn List.mem_cons_self (List.range ((ino n).size / 4096))
  · rename_i hn
    rw [List.append_nil]
    exact h.skip hn

/-- The entries that have been read are those of the inodes dealt with, leaves apart. -/
def ReadUp (g : Geom) (ino : ℕ → DInode) (V : ℕ → Block) (root : ℕ) (t : Branching.Walk ℕ) (es : List Ent) : Prop :=
  es.Perm ((t.done.filter fun n => n = root ∨ (ino n).isDir = true).flatMap (entriesOf g ino V))

theorem filter_foldl_meet (hroot : t.seen root = true) (l : List ℕ) :
    (l.foldl ((entryTree g ino V).meet CFS_FSCK_MAX_STACK) t).done.filter (fun n => n = root ∨
      (ino n).isDir = true) = t.done.filter (fun n => n = root ∨ (ino n).isDir = true) := by
  induction l generalizing t with
  | nil => rfl
  | cons c l ih =>
    rw [List.foldl_cons, ih (Branching.meet_mono _ _ c hroot)]
    rcases Branching.meet_cases (entryTree g ino V) CFS_FSCK_MAX_STACK t c with
      ⟨-, he⟩ | ⟨-, -, -, he⟩ | ⟨-, -, -, he⟩ | ⟨hs, hi, he⟩
    · rw [he]
    · rw [he]
    · rw [he]
    · have hc : ¬ (c = root ∨ (ino c).isDir = true) := by
        rintro (rfl | hd)
        · rw [hroot] at hs
          cases hs
        · rw [show (ino c).isDir = false from hi] at hd
          cases hd
      rw [he, List.filter_cons_of_neg (by simpa using hc)]

theorem ReadUp.visit (h : ReadUp g ino V root t es) (hroot : t.seen root = true)
    (hn : n = root ∨ (ino n).isDir = true) :
    ReadUp g ino V root ((entryTree g ino V).visit CFS_FSCK_MAX_STACK t n) (es ++ entriesOf g ino V n) := by
  unfold ReadUp Branching.visit
  rw [filter_foldl_meet (show ({ t with done := n :: t.done } : Branching.Walk ℕ).seen root =
    true from hroot), List.filter_cons_of_pos (by simpa using hn), List.flatMap_cons]
  exact List.perm_append_comm.trans (h.append_left _)

/-- The loop over the stack is the walk over the tree. -/
theorem Tracks.rounds (h : Tracks g ino X t es w) (hg : g.Capped) (hw : Branching.Walking (entryTree g ino V) root t)
    (hroot : t.seen root = true) (he : ReadUp g ino V root t es) {fuel : ℕ}
    (hrun : (entryTree g ino V).walk CFS_FSCK_MAX_STACK fuel t = some t') :
    ∃ es' w', fsckRounds g ino V fuel w = some w' ∧ Tracks g ino X t' es' w' ∧ ReadUp g ino V root t' es' := by
  induction fuel generalizing t es w with
  | zero => cases hrun
  | succ fuel ih =>
    unfold Branching.walk at hrun
    unfold fsckRounds
    rw [h.stack]
    cases hs : t.stack with
    | nil =>
      rw [hs] at hrun
      cases hrun
      exact ⟨es, w, rfl, h, he⟩
    | cons x rest =>
      rw [hs] at hrun
      dsimp only at hrun ⊢
      have hpop : Tracks g ino X { t with stack := rest } es { w with stack := rest } :=
        ⟨h.ibm, rfl, h.refs, h.bbm, h.wild⟩
      have hx : x = root ∨ (ino x).isDir = true := hw.inner x (List.mem_append_left _ (hs ▸ List.mem_cons_self))
      have he' : ReadUp g ino V root { t with stack := rest } es := he
      obtain ⟨hw', -, hroot'⟩ := @Branching.Walking.visit _ _ _ CFS_FSCK_MAX_STACK _ _ _ _ hw hroot hs
      exact ih (hpop.visit hg x) hw' hroot' (he'.visit hroot hx) hrun

/-- The superblock keeps the first marks inside the arrays. -/
def Geom.Rooted (g : Geom) : Prop := g.dataStart ≤ CFS_FSCK_MAX_BLOCKS ∧ g.rootIno < CFS_FSCK_MAX_INODES

theorem setBlock_spec (w : Fsck) (n : ℕ) : (w.setBlock n).ibm = w.ibm ∧
    (w.setBlock n).refs = w.refs ∧ (∀ b, (w.setBlock n).bbm b = true ↔ w.bbm b = true ∨ b = n) ∧
    ((w.setBlock n).wild = true ↔ w.wild = true ∨ CFS_FSCK_MAX_BLOCKS ≤ n) := by
  refine ⟨rfl, rfl, fun b => ?_, ?_⟩
  · change update w.bbm n true b = true ↔ _
    by_cases hb : b = n
    · simp [hb]
    · simp [hb]
  · change (w.access _).wild = true ↔ _
    rw [access_wild, decide_eq_false_iff_not, Nat.not_lt]

theorem foldl_setBlock (w : Fsck) (n : ℕ) : ((List.range n).foldl Fsck.setBlock w).ibm = w.ibm ∧
    ((List.range n).foldl Fsck.setBlock w).refs = w.refs ∧
    (∀ b, ((List.range n).foldl Fsck.setBlock w).bbm b = true ↔ w.bbm b = true ∨ b < n) ∧
    (((List.range n).foldl Fsck.setBlock w).wild = true ↔ w.wild = true ∨ CFS_FSCK_MAX_BLOCKS < n) := by
  induction n with
  | zero => simp
  | succ n ih =>
    rw [List.range_succ, List.foldl_append, List.foldl_cons, List.foldl_nil]
    obtain ⟨h₁, h₂, h₃, h₄⟩ := ih
    obtain ⟨k₁, k₂, k₃, k₄⟩ := setBlock_spec ((List.range n).foldl Fsck.setBlock w) n
    refine ⟨k₁.trans h₁, k₂.trans h₂, fun b => ?_, ?_⟩
    · rw [k₃, h₃, or_assoc, Nat.lt_succ_iff_lt_or_eq]
    · rw [k₄, h₄, or_assoc, Nat.lt_succ_iff]
      exact or_congr_right ⟨fun h => h.elim Nat.le_of_lt id, Or.inr⟩

theorem tracks_init (g : Geom) (ino : ℕ → DInode) :
    Tracks g ino (¬ g.Rooted) (Branching.start g.rootIno) [] (fsckInit g) := by
  obtain ⟨h₁, h₂, h₃, h₄⟩ := foldl_setBlock ⟨fun _ => false, fun _ => false, fun _ => 0, [], {}, false⟩ g.dataStart
  have hwild : (fsckInit g).wild = true ↔ ¬ g.Rooted := by
    unfold fsckInit
    dsimp only
    change (Fsck.access _ _).wild = true ↔ _
    rw [access_wild, h₄, decide_eq_false_iff_not, Nat.not_lt, Geom.Rooted, not_and_or, Nat.not_le, Nat.not_lt]
    simp
  refine ⟨congrArg (fun f : ℕ → Bool => (update f g.rootIno true : ℕ → Bool)) h₁, rfl, fun c _ =>
    congrFun h₂ c, fun b => (h₃ b).trans ?_, hwild.trans ?_⟩
  · simp [Branching.start]
  · simp [Branching.start]

theorem readUp_start (g : Geom) (ino : ℕ → DInode) (V : ℕ → Block) (root : ℕ) :
    ReadUp g ino V root (Branching.start root) [] := List.Perm.refl _

/-- Everything below the root has a record in the table. -/
theorem lt_of_reach (h : (entryTree g ino V).Reach root n) : n = root ∨ n ∈ List.range g.totalInodes := by
  cases h with
  | root => exact Or.inl rfl
  | step _ _ hc =>
    obtain ⟨e, he, rfl⟩ := List.mem_map.mp hc
    exact Or.inr (List.mem_range.mpr (of_decide_eq_true (List.mem_filter.mp he).2).2)

/-- `cfs_fsck` walks the tree of entries, and the loop ends. -/
theorem fsckWalk_tracks (hs : s.Idle g) (hg : g.Capped) : ∃ t es w,
    (entryTree g s.vol.ino s.disk).walk CFS_FSCK_MAX_STACK (g.totalInodes + 2) (Branching.start g.rootIno) = some t ∧
    (fsckWalk (g.totalInodes + 2) (fsckInit g)).run s = (some (some w), s) ∧
    Tracks g s.vol.ino (¬ g.Rooted) t es w ∧ ReadUp g s.vol.ino s.disk g.rootIno t es := by
  obtain ⟨t, ht⟩ := @Branching.exists_walk_start _ _ _ CFS_FSCK_MAX_STACK _ _
    fun n hn => @lt_of_reach g s.vol.ino s.disk n g.rootIno hn
  rw [List.length_range] at ht
  obtain ⟨es, w, hrun, htr, hread⟩ := (tracks_init g s.vol.ino).rounds hg (Branching.walking_start _ _)
    (by simp [Branching.start]) (readUp_start g s.vol.ino s.disk g.rootIno) ht
  exact ⟨t, es, w, ht, by rw [fsckWalk_run hs, hrun], htr, hread⟩

end ComputerOS.Cfs
