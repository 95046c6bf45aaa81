import ComputerOS.Cfs.FsckWalk
import ComputerOS.Cfs.Mount
import ComputerOS.Cfs.Comb

/-!
`cfs_fsck` and the bounds of its arrays. It ends on every device, since every directory it puts on
its stack is met for the first time. On a device that answers, no index leaves its array exactly
when the superblock keeps the first marks inside and no inode that is dealt with has too many
extents or a record that crosses the end of its block.
-/
namespace ComputerOS.Cfs

open M Bytes Function

variable {g : Geom} {s : St} {w w' w'' : Fsck} {α β : Type} {P : α → Prop} {Q : β → Prop}

/-- Whatever the device answers, `x` returns a value with `P`, and the geometry stays. -/
def Returns (g : Geom) (P : α → Prop) (x : M α) : Prop :=
  ∀ s : St, s.fs.toGeom = g → ∃ a s', x.run s = (some a, s') ∧ s'.fs.toGeom = g ∧ P a

namespace Returns

theorem pure {a : α} (h : P a) : Returns g P (Pure.pure a : M α) := fun s hs => ⟨a, s, rfl, hs, h⟩

theorem bind {x : M α} {f : α → M β} (hx : Returns g P x) (hf : ∀ a, P a → Returns g Q (f a)) :
    Returns g Q (x >>= f) := by
  intro s hs
  obtain ⟨a, s', hrun, hs', ha⟩ := hx s hs
  rw [bind_of_some hrun]
  exact hf a ha s' hs'

theorem mono {x : M α} {P' : α → Prop} (hx : Returns g P x) (h : ∀ a, P a → P' a) : Returns g P' x := by
  intro s hs
  obtain ⟨a, s', hrun, hs', ha⟩ := hx s hs
  exact ⟨a, s', hrun, hs', h a ha⟩

theorem attempt {x : M α} (hx : Keeps Framed x) : Returns g (fun _ => True) (M.attempt x) :=
  fun s hs => ⟨_, _, attempt_run x s, (hx s).geom.trans hs, trivial⟩

theorem getFs : Returns g (fun fs : Fs => fs.toGeom = g) M.getFs := fun s hs => ⟨s.fs, s, rfl, hs, hs⟩

theorem setCounts (c : Fs → ℕ × ℕ) : Returns g (fun _ => True) (Cfs.setCounts c) := fun _ hs => ⟨_, _, rfl, hs, trivial⟩

/-- A loop keeps what each of its steps keeps. -/
theorem foldlM {R : β → β → Prop} {f : β → α → M β} (hr : ∀ b, R b b) (ht : ∀ a b c, R a b → R b c → R a c)
    (b : β) (l : List α) (hf : ∀ b, ∀ a ∈ l, Returns g (R b) (f b a)) : Returns g (R b) (l.foldlM f b) := by
  induction l generalizing b with
  | nil => exact pure (hr b)
  | cons a l ih =>
    rw [List.foldlM_cons]
    refine (hf b a List.mem_cons_self).bind fun b' hb' => ?_
    exact (ih b' fun b a ha => hf b a (List.mem_cons_of_mem _ ha)).mono fun c hc => ht _ _ _ hb' hc

end Returns

theorem rawReadBlock_framed (b : ℕ) : Keeps Framed (rawReadBlock b) := fun _ => ⟨rfl, rfl, rfl, rfl, rfl⟩

theorem readDinode_framed (n : ℕ) : Keeps Framed (readDinode n) := (Ordered.buffered (readDinode_buffered n)).framed

theorem writeDinode_framed (n : ℕ) (d : DInode) : Keeps Framed (writeDinode n d) :=
  (Ordered.buffered (writeDinode_buffered n d)).framed

/-- The directories that may still be visited: those on the stack and the inodes not yet met. -/
def Fsck.pending (g : Geom) (w : Fsck) : ℕ := w.stack.length + (List.range g.totalInodes).countP fun n => !w.ibm n

theorem countP_update {p : ℕ → Bool} {n c : ℕ} (hc : c < n) (hp : p c = false) :
    (List.range n).countP (fun m => !update p c true m) + 1 = (List.range n).countP fun m => !p m := by
  induction n with
  | zero => omega
  | succ n ih =>
    rw [List.range_succ, List.countP_append, List.countP_append, List.countP_singleton, List.countP_singleton]
    rcases Nat.lt_succ_iff_lt_or_eq.mp hc with hlt | rfl
    · rw [update_of_ne (Nat.ne_of_gt hlt), ← ih hlt]
      omega
    · have hsame : (List.range c).countP (fun m => !update p c true m) = (List.range c).countP fun m => !p m := by
        refine List.countP_congr fun m hm => ?_
        rw [update_of_ne (Nat.ne_of_lt (List.mem_range.mp hm))]
      rw [hsame, update_self, hp]
      rfl

theorem fsckMarkInode_pending (hg : g.Capped) (n : ℕ) (d : DInode) (w : Fsck) :
    (fsckMarkInode g n d w).pending g = w.pending g := by
  have hm := @fsckMarkInode_spec g (fun _ => d) hg n w
  rw [Fsck.pending, hm.stack, hm.ibm, Fsck.pending]

theorem fsckEntry_pending (hg : g.Capped) (blk : Block) (w : Fsck) (off : ℕ) :
    Returns g (fun w' => w'.pending g ≤ w.pending g) (fsckEntry blk w off) := by
  unfold fsckEntry
  refine Returns.getFs.bind fun fs hfs => ?_
  have hgeom : fs.totalInodes = g.totalInodes := congrArg Geom.totalInodes hfs
  rw [hgeom, hfs]
  generalize Dirent.inode blk off = c
  generalize isDots blk off = dots
  dsimp only
  by_cases h0 : c = 0
  · rw [if_pos h0]
    exact .pure (Nat.le_refl _)
  rw [if_neg h0]
  have hp : (if c < CFS_FSCK_MAX_INODES then { w with refs := update w.refs c ((w.refs c + 1) % 2 ^
      16) } else w).pending g = w.pending g := by split <;> rfl
  generalize (if c < CFS_FSCK_MAX_INODES then _ else w : Fsck) = w₁ at hp ⊢
  split
  · exact .pure (Nat.le_of_eq hp)
  split
  · exact .pure (Nat.le_of_eq hp)
  rename_i hle
  split
  · exact .pure (Nat.le_of_eq hp)
  rename_i hnew
  -- the inode is met for the first time, which leaves room for it on the stack
  have hset : ((w₁.access (c < CFS_FSCK_MAX_INODES)).setInode c).pending g + 1 = w.pending g := by
    have hcount := countP_update (Nat.lt_of_not_le hle) (Bool.eq_false_iff.mpr hnew)
    rw [← hp, Fsck.pending, Fsck.pending, Nat.add_assoc]
    exact congrArg (w₁.stack.length + ·) hcount
  generalize (w₁.access (c < CFS_FSCK_MAX_INODES)).setInode c = w₂ at hset ⊢
  refine (Returns.attempt (readDinode_framed c)).bind fun o _ => ?_
  cases o with
  | none => exact .pure (by omega)
  | some cd =>
    dsimp only
    split
    · split
      · refine .pure ?_
        unfold Fsck.pending at hset ⊢
        dsimp only
        rw [List.length_cons]
        omega
      · exact .pure (Nat.le_of_succ_le (Nat.le_of_eq hset))
    · refine .pure ?_
      rw [fsckMarkInode_pending hg]
      omega

theorem fsckDir_pending (hg : g.Capped) (w : Fsck) (n : ℕ) :
    Returns g (fun w' => w'.pending g ≤ w.pending g) (fsckDir w n) := by
  have hloop : ∀ {α : Type} {f : Fsck → α → M Fsck} (w : Fsck) (l : List α),
      (∀ w a, Returns g (fun w' => w'.pending g ≤ w.pending g) (f w a)) →
      Returns g (fun w' => w'.pending g ≤ w.pending g) (l.foldlM f w) := by
    intro α f w l hf
    exact Returns.foldlM (R := fun w w' => w'.pending g ≤ w.pending g) (fun _ => Nat.le_refl _)
      (fun _ _ _ h₁ h₂ => Nat.le_trans h₂ h₁)
      w l fun w a _ => hf w a
  unfold fsckDir
  refine Returns.getFs.bind fun fs hfs => ?_
  rw [hfs]
  refine (Returns.attempt (readDinode_framed n)).bind fun o _ => ?_
  cases o with
  | none => exact .pure (Nat.le_refl _)
  | some d =>
    dsimp only
    rw [← fsckMarkInode_pending hg n d w]
    refine hloop _ _ fun w fb => ?_
    unfold fsckBlock
    dsimp only
    split
    · exact .pure (Nat.le_refl _)
    · refine (Returns.attempt (rawReadBlock_framed _)).bind fun o _ => ?_
      cases o with
      | none => exact .pure (Nat.le_refl _)
      | some blk => exact hloop (w.access _) _ fun w off => fsckEntry_pending hg blk w off

theorem fsckWalk_ends (hg : g.Capped) {fuel : ℕ} (hfuel : w.pending g < fuel) :
    Returns g (fun o => ∃ w', o = some w') (fsckWalk fuel w) := by
  induction fuel generalizing w with
  | zero => omega
  | succ fuel ih =>
    unfold fsckWalk
    cases hs : w.stack with
    | nil => exact .pure ⟨w, rfl⟩
    | cons dno rest =>
      dsimp only
      have hpop : ({ w with stack := rest } : Fsck).pending g + 1 = w.pending g := by
        unfold Fsck.pending
        dsimp only
        rw [hs, List.length_cons]
        omega
      exact (fsckDir_pending hg _ dno).bind fun w' hw' => ih (by omega)

/-- The working sets are the same; the counters need not be. -/
structure SameSets (w w' : Fsck) : Prop where
  bbm : w'.bbm = w.bbm
  ibm : w'.ibm = w.ibm
  refs : w'.refs = w.refs
  wild : w'.wild = w.wild

theorem SameSets.refl (w : Fsck) : SameSets w w := ⟨rfl, rfl, rfl, rfl⟩

theorem SameSets.trans (h₁ : SameSets w w') (h₂ : SameSets w' w'') : SameSets w w'' :=
  ⟨h₂.bbm.trans h₁.bbm, h₂.ibm.trans h₁.ibm, h₂.refs.trans h₁.refs, h₂.wild.trans h₁.wild⟩

theorem SameSets.count (w : Fsck) (f : FsckResult → FsckResult) : SameSets w (w.count f) := ⟨rfl, rfl, rfl, rfl⟩

theorem SameSets.access (w : Fsck) {ok : Bool} (h : ok = true) : SameSets w (w.access ok) :=
  ⟨rfl, rfl, rfl, by simp [Fsck.access, h]⟩

theorem SameSets.ite (w : Fsck) (c : Prop) [Decidable c] (f : FsckResult → FsckResult) :
    SameSets w (if c then w.count f else w) := by
  split
  · exact .count w f
  · exact .refl w

theorem fsckBit_sets {c : BitmapCheck} (hc : ∀ i, c.inArray i = true) (repair : Bool) (base : ℕ)
    (x : Block × Bool × Fsck)
    (i : ℕ) : SameSets x.2.2 (fsckBit c repair base x i).2.2 := by
  obtain ⟨buf, dirty, w⟩ := x
  unfold fsckBit
  dsimp only
  have hacc := SameSets.access w (hc (base + i))
  generalize w.access (c.inArray (base + i)) = w₁ at hacc ⊢
  have hcount : SameSets w₁ (if c.counted (base + i) then
      if c.want (base + i) && !buf.bit i then w₁.count c.missing
      else if !c.want (base + i) && buf.bit i then w₁.count c.extra else w₁
    else w₁) := by
    split
    · split
      · exact .count _ _
      · exact .ite _ _ _
    · exact .refl _
  split
  · exact hacc.trans hcount
  · exact hacc.trans hcount

theorem foldl_fsckBit_sets {c : BitmapCheck} (hc : ∀ i, c.inArray i = true) (repair : Bool) (base : ℕ)
    (x : Block × Bool × Fsck) (l : List ℕ) : SameSets x.2.2 (l.foldl (fsckBit c repair base) x).2.2 := by
  induction l generalizing x with
  | nil => exact .refl _
  | cons i l ih => exact (fsckBit_sets hc repair base x i).trans (ih _)

theorem fsckBitmap_sets {c : BitmapCheck} (hc : ∀ i, c.inArray i = true) (repair : Bool) (bbs : List ℕ) (w : Fsck) :
    Returns g (SameSets w) (fsckBitmap c repair bbs w) := by
  induction bbs generalizing w with
  | nil => exact .pure (.refl w)
  | cons bb bbs ih =>
    unfold fsckBitmap
    refine (Returns.attempt (rawReadBlock_framed _)).bind fun o _ => ?_
    cases o with
    | none => exact .pure (.refl w)
    | some buf =>
      dsimp only
      have hbits : SameSets w (fsckBits c repair (bb * 32768) buf w).2.2 :=
        foldl_fsckBit_sets hc repair _ (buf, false, w) _
      generalize fsckBits c repair (bb * 32768) buf w = x at hbits ⊢
      split
      · exact (Returns.attempt (rawWriteBlock_framed _ _)).bind fun _ _ => (ih x.2.2).mono fun _ h => hbits.trans h
      · exact (ih x.2.2).mono fun _ h => hbits.trans h

theorem fsckLinks_sets (repair : Bool) {ns : List ℕ} (hns : ∀ n ∈ ns, n < CFS_FSCK_MAX_INODES) (w : Fsck) :
    Returns g (SameSets w) (fsckLinks repair ns w) := by
  induction ns generalizing w with
  | nil => exact .pure (.refl w)
  | cons n ns ih =>
    have hrest := ih fun m hm => hns m (List.mem_cons_of_mem _ hm)
    unfold fsckLinks
    have hacc := SameSets.access w (decide_eq_true (hns n List.mem_cons_self))
    dsimp only
    generalize w.access (n < CFS_FSCK_MAX_INODES) = w₁ at hacc ⊢
    split
    · exact (hrest w₁).mono fun _ h => hacc.trans h
    refine (Returns.attempt (readDinode_framed n)).bind fun o _ => ?_
    cases o with
    | none => exact (hrest w₁).mono fun _ h => hacc.trans h
    | some d =>
      refine Returns.getFs.bind fun fs _ => ?_
      have hlinks := SameSets.ite w₁ (d.links ≠ w₁.refs n) fun r => { r with linkcountBad := r.linkcountBad + 1 }
      generalize (if d.links ≠ w₁.refs n then _ else w₁ : Fsck) = w₂ at hlinks ⊢
      have hcsum := SameSets.ite w₂ (csumWrong fs.flags (fixLinks repair (w₂.refs n) d) = true)
        fun r => { r with inodeCsumBad := r.inodeCsumBad + 1 }
      generalize (if csumWrong fs.flags (fixLinks repair (w₂.refs n) d) = true then _ else w₂ : Fsck) = w₃ at hcsum ⊢
      have hall := (hacc.trans hlinks).trans hcsum
      split
      · exact (Returns.attempt (writeDinode_framed n _)).bind fun _ _ => (hrest w₃).mono fun _ h => hall.trans h
      · exact (hrest w₃).mono fun _ h => hall.trans h

theorem fsckSuper_sets (repair : Bool) (fb fi : ℕ) (w : Fsck) : Returns g (SameSets w) (fsckSuper repair fb fi w) := by
  unfold fsckSuper
  refine (Returns.attempt (rawReadBlock_framed _)).bind fun o _ => ?_
  cases o with
  | none => exact .pure (.refl w)
  | some sb =>
    refine Returns.getFs.bind fun fs _ => ?_
    dsimp only
    have hfree := SameSets.ite w ((decide (Super.freeBlocks sb ≠ fb) || decide (Super.freeInodes sb ≠ fi)) = true)
      fun r => { r with freecountBad := r.freecountBad + 1 }
    generalize (if (decide (Super.freeBlocks sb ≠ fb) || decide (Super.freeInodes sb ≠ fi)) =
      true then _ else w : Fsck) = w₁
      at hfree ⊢
    have hcsum := SameSets.ite w₁ (superWrong fs.flags (fixFree repair fb fi sb) = true)
      fun r => { r with sbCsumBad := r.sbCsumBad + 1 }
    split
    · refine (Returns.attempt (rawWriteBlock_framed _ _)).bind fun _ _ => ?_
      exact (Returns.setCounts _).bind fun _ _ => .pure (hfree.trans hcsum)
    · exact .pure (hfree.trans hcsum)

theorem fsckCompare_sets (hg : g.Capped) (repair : Bool) (w : Fsck) : Returns g (SameSets w)
    (fsckCompare repair w) := by
  unfold fsckCompare
  refine Returns.getFs.bind fun fs hfs => ?_
  have hb : fs.totalBlocks = g.totalBlocks := congrArg Geom.totalBlocks hfs
  have hi : fs.totalInodes = g.totalInodes := congrArg Geom.totalInodes hfs
  rw [hb, hi, hfs]
  have hblocks : ∀ i, (w.blockCheck g).inArray i = true := fun i => by
    exact decide_eq_true fun h => Nat.lt_of_lt_of_le h hg.1
  refine (fsckBitmap_sets hblocks repair _ w).bind fun w₁ h₁ => ?_
  have hall : ∀ {n m : ℕ}, n ≤ m → ((List.range n).all (· < m)) = true := fun h =>
    List.all_eq_true.mpr fun i hi => decide_eq_true (Nat.lt_of_lt_of_le (List.mem_range.mp hi) h)
  have h₂ := h₁.trans (.access w₁ (hall hg.1))
  dsimp only
  generalize w₁.access ((List.range g.totalBlocks).all (· < CFS_FSCK_MAX_BLOCKS)) = w₂ at h₂ ⊢
  have hinodes : ∀ i, (w₂.inodeCheck g).inArray i = true := fun i => by
    exact decide_eq_true fun _ h => Nat.lt_of_lt_of_le h hg.2
  refine (fsckBitmap_sets hinodes repair _ w₂).bind fun w₃ h₃ => ?_
  have h₄ := (h₂.trans h₃).trans (.access w₃ (hall hg.2))
  generalize w₃.access ((List.range g.totalInodes).all (· < CFS_FSCK_MAX_INODES)) = w₄ at h₄ ⊢
  refine (fsckLinks_sets repair (fun n hn => ?_) w₄).bind fun w₅ h₅ => ?_
  · have hlt := List.mem_range'_1.mp hn
    have := hg.2
    omega
  refine (fsckSuper_sets repair _ _ w₅).bind fun w₆ h₆ => ?_
  exact .pure (((h₄.trans h₅).trans h₆).trans (.count _ _))

/-- The walk deals with inode `n` and reads its record. -/
def Examined (g : Geom) (ino : ℕ → DInode) (V : ℕ → Block) (n : ℕ) : Prop := ∃ t,
  (entryTree g ino V).walk CFS_FSCK_MAX_STACK (g.totalInodes + 2) (Branching.start g.rootIno) = some
    t ∧ n ∈ t.done ∧ g.InTable n

/-- The volume is refused, or the superblock keeps the first marks inside the arrays and every inode
that is dealt with has no more extents than an inode has, in a record that ends in its block. -/
def IndexSafe (g : Geom) (ino : ℕ → DInode) (V : ℕ → Block) : Prop :=
  ¬ g.Capped ∨ g.Rooted ∧ ∀ n, Examined g ino V n → (ino n).nextents ≤ CFS_INLINE_EXTENTS ∧
  g.inodeOff n + 224 ≤ 4096

theorem not_capped_iff (hs : s.fs.toGeom = g) :
    CFS_FSCK_MAX_BLOCKS < s.fs.totalBlocks ∨ CFS_FSCK_MAX_INODES < s.fs.totalInodes ↔ ¬ g.Capped := by
  rw [← hs, Geom.Capped, not_and_or, Nat.not_le, Nat.not_le]

/-- A volume that is too large is refused. -/
theorem cfsFsck_refused (hs : s.fs.toGeom = g) (hg : ¬ g.Capped) (repair : Bool) :
    ∃ w ret, (cfsFsck repair).run s = (some (some (w, ret)), s) ∧ w.wild = false := by
  rw [cfsFsck, bind_of_some (getFs_run s), if_pos ((not_capped_iff hs).mpr hg)]
  exact ⟨_, _, rfl, rfl⟩

theorem cfsFsck_capped (hs : s.fs.toGeom = g) (hg : g.Capped) (repair : Bool) : (cfsFsck repair).run
    s = (do
      match ← fsckWalk (g.totalInodes + 2) (fsckInit g) with
      | none => pure none
      | some w => do
          let w ← fsckCompare repair w
          pure (some (w, (w.out.total : ℤ)))).run s := by
  subst hs
  rw [cfsFsck, bind_of_some (getFs_run s)]
  exact congrArg (fun x : M (Option (Fsck × ℤ)) => x.run s) (if_neg (mt (not_capped_iff rfl).mp (not_not.mpr hg)))

theorem cfsFsck_ends (hs : s.fs.toGeom = g) (repair : Bool) :
    ∃ w ret s', (cfsFsck repair).run s = (some (some (w, ret)), s') := by
  by_cases hg : g.Capped
  · have hpending : (fsckInit g).pending g < g.totalInodes + 2 := by
      have hcount := List.countP_le_length (p := fun n => !(fsckInit g).ibm n) (l := List.range g.totalInodes)
      rw [List.length_range] at hcount
      have hstack : (fsckInit g).stack = [g.rootIno] := rfl
      rw [Fsck.pending, hstack, List.length_singleton]
      omega
    rw [cfsFsck_capped hs hg]
    have hall : Returns g (fun o => ∃ w ret, o = some (w, ret)) (do
        match ← fsckWalk (g.totalInodes + 2) (fsckInit g) with
        | none => pure none
        | some w => do
            let w ← fsckCompare repair w
            pure (some (w, (w.out.total : ℤ)))) := by
      refine (fsckWalk_ends hg hpending).bind fun o ho => ?_
      obtain ⟨w, rfl⟩ := ho
      exact (fsckCompare_sets hg repair w).bind fun w' _ => .pure ⟨w', _, rfl⟩
    obtain ⟨o, s', hrun, -, w, ret, rfl⟩ := hall s hs
    exact ⟨w, ret, s', hrun⟩
  · obtain ⟨w, ret, hrun, -⟩ := cfsFsck_refused hs hg repair
    exact ⟨w, ret, s, hrun⟩

/-- On a device that answers, the indices are those of the walk over the tree. -/
theorem cfsFsck_wild (hs : s.Idle g) (hg : g.Capped) (repair : Bool) {w : Fsck} {ret : ℤ} {s' : St}
    (hrun : (cfsFsck repair).run s = (some (some (w, ret)), s')) :
    w.wild = true ↔ ¬ g.Rooted ∨ ∃ n, Examined g s.vol.ino s.disk n ∧ g.Overruns s.vol.ino n := by
  obtain ⟨t, es, w₁, ht, hwalk, htr, -⟩ := fsckWalk_tracks hs hg
  obtain ⟨w₂, s₂, hcmp, -, hsets⟩ := fsckCompare_sets hg repair w₁ s hs.geom
  rw [cfsFsck_capped hs.geom hg, bind_of_some hwalk] at hrun
  dsimp only at hrun
  rw [bind_of_some hcmp, pure_run] at hrun
  obtain ⟨⟨rfl, -⟩, -⟩ : (w₂ = w ∧ (w₂.out.total : ℤ) = ret) ∧ s₂ = s' := by simpa using hrun
  rw [hsets.wild, htr.wild]
  refine or_congr_right ⟨?_, ?_⟩
  · rintro ⟨n, hn, hin, hlt⟩
    exact ⟨n, ⟨t, ht, hn, hin⟩, hlt⟩
  · rintro ⟨n, ⟨t', ht', hn, hin⟩, hlt⟩
    obtain rfl : t = t' := Option.some.inj (ht.symm.trans ht')
    exact ⟨n, hn, hin, hlt⟩

/-- An image that is accepted is mounted with the geometry its superblock states. -/
theorem idle_of_mount {s₀ : St} (hr : s₀.ReadsOk) (hmount : cfsMountBd.run s₀ = (some (), s)) : s.Idle s.fs.toGeom := by
  have hread : (rawReadBlock 0).run { s₀ with txnActive := false, txn := [], fs := default } =
      (some (s₀.disk 0), { s₀ with txnActive := false, txn := [], fs := default }) := rawReadBlock_ok 0 hr
  rw [cfsMountBd, bind_of_some (modify_run _ s₀), bind_of_some hread] at hmount
  obtain ⟨u₁, s₁, h₁, hmount⟩ := bind_eq_some hmount
  obtain ⟨-, rfl⟩ := ensure_eq_some h₁
  obtain ⟨u₂, s₂, h₂, hmount⟩ := bind_eq_some hmount
  obtain ⟨-, rfl⟩ := ensure_eq_some h₂
  obtain ⟨u₃, s₃, h₃, hmount⟩ := bind_eq_some hmount
  obtain ⟨-, rfl⟩ := ensure_eq_some h₃
  rw [bind_of_some (modify_run _ _)] at hmount
  obtain ⟨fs, hfs⟩ : ∃ fs, mountedFs (s₀.disk 0) = fs := ⟨_, rfl⟩
  rw [hfs] at hmount
  have hs : St.Idle fs.toGeom { s₀ with txnActive := false, txn := [], fs := fs } := ⟨⟨rfl, hr⟩, rfl⟩
  obtain ⟨s', hrun, hidle, -⟩ := recover_reload hs
  obtain rfl : s' = s := congrArg Prod.snd (hrun.symm.trans hmount)
  rw [hidle.geom]
  exact hidle

/-- On every image that is mounted `cfs_fsck` ends, and all its indices are in range exactly when
the image is safe. -/
theorem fsck_in_range {s₀ : St} (hmount : cfsMountBd.run s₀ = (some (), s)) (repair : Bool) :
    ∃ w ret s', (cfsFsck repair).run s = (some (some (w, ret)), s') ∧
      (s₀.ReadsOk → (w.wild = false ↔ IndexSafe s.fs.toGeom s.vol.ino s.disk)) := by
  obtain ⟨w, ret, s', hrun⟩ := cfsFsck_ends (g := s.fs.toGeom) rfl repair
  refine ⟨w, ret, s', hrun, fun hr => ?_⟩
  have hs := idle_of_mount hr hmount
  by_cases hg : s.fs.toGeom.Capped
  · have hwild := cfsFsck_wild hs hg repair hrun
    rw [← Bool.not_eq_true, hwild, IndexSafe, not_or, not_not, not_exists]
    constructor
    · rintro ⟨hroot, hle⟩
      refine Or.inr ⟨hroot, fun n hn => ⟨Nat.le_of_not_lt fun hlt => hle n ⟨hn, Or.inl hlt⟩, ?_⟩⟩
      by_contra hcross
      exact hle n ⟨hn, Or.inr (decide_eq_false hcross)⟩
    · rintro (hno | ⟨hroot, hle⟩)
      · exact absurd hg hno
      · refine ⟨hroot, fun n hn => ?_⟩
        rcases hn.2 with hlt | hcross
        · exact Nat.not_lt.mpr (hle n hn.1).1 hlt
        · exact of_decide_eq_false hcross (hle n hn.1).2
  · obtain ⟨w', ret', hrun', hwild⟩ := cfsFsck_refused (g := s.fs.toGeom) rfl hg repair
    obtain ⟨⟨rfl, -⟩, -⟩ : (w = w' ∧ ret = ret') ∧ s' = s := by simpa using hrun.symm.trans hrun'
    exact ⟨fun _ => Or.inl hg, fun _ => hwild⟩

theorem combGeom_capped : combGeom.Capped := ⟨by decide, by decide⟩

/-- A volume with three directories is mounted as it stands. -/
theorem combState_mounts : ∃ s, cfsMountBd.run (combState combGeom 3) = (some (), s) ∧
    s.Idle combGeom ∧ s.vol.ino = (combState combGeom 3).vol.ino := by
  have hsuper := (combState_wellFormed combOk_three).super
  rw [St.vol, (combState_idle combGeom 3).view_eq, Fs.image] at hsuper
  obtain ⟨s, hmount, hs, -, hdisk, -⟩ := cfsMountBd_run (s := combState combGeom 3) rfl hsuper
  have hnone : recoverOn combGeom (combState combGeom 3).wr (combState combGeom 3).disk =
    (combState combGeom 3).disk := by
    rw [recoverOn_eq, recoverBody, bind_of_none (ensure_neg (by decide) _), St.boot]
  have hino : ∀ (fs : Fs) (V : ℕ → Block), fs.toGeom = combGeom → (fs.image V).ino = fun n =>
      if n < combGeom.totalInodes then (V (combGeom.inodeBlock n)).sub (combGeom.inodeOff n) else zero := by
    intro fs V hgeom
    rw [← hgeom, Fs.image]
  refine ⟨s, hmount, hs, ?_⟩
  rw [St.vol, hs.view_eq, hdisk, hnone, St.vol, (combState_idle combGeom 3).view_eq, hino _ _ hs.geom, hino _ _ rfl]

/-- Its indices are all in range. -/
theorem fsck_in_range_comb : ∃ s, cfsMountBd.run (combState combGeom 3) = (some (), s) ∧
    ∃ w ret s', (cfsFsck true).run s = (some (some (w, ret)), s') ∧ w.wild = false := by
  obtain ⟨s, hmount, hs, hino⟩ := combState_mounts
  obtain ⟨w, ret, s', hrun, hiff⟩ := fsck_in_range hmount true
  refine ⟨s, hmount, w, ret, s', hrun, (hiff rfl).mpr (Or.inr ?_)⟩
  rw [hs.geom, hino, combState_vol combOk_three]
  refine ⟨⟨by decide, by decide⟩, fun n _ => ⟨?_, ?_⟩⟩
  · by_cases hn : 1 ≤ n ∧ n ≤ 3
    · exact (combVol_shaped combOk_three hn).extents
    · have hz : (combVol combGeom 3).ino n = zero := if_neg hn
      rw [hz, DInode.nextents, getLE_zero]
      exact Nat.zero_le _
  · change n * 256 % 4096 + 224 ≤ 4096
    omega

/-- A volume whose data region is said to begin behind the last block. -/
def overrunGeom : Geom where
  inodeSize := 256
  totalBlocks := 64
  totalInodes := 64
  blockBitmapStart := 1
  inodeBitmapStart := 2
  inodeTableStart := 3
  dataStart := 65537
  rootIno := 1
  journalStart := 0
  journalBlocks := 0
  flags := 1

def overrunImage : St := St.boot overrunGeom
    (fun b => if b = 0 then formatSuper overrunGeom [] 0 else zero) fun _ => .ok

theorem overrunImage_mounted : ∃ s, cfsMountBd.run overrunImage = (some (), s) ∧ s.Idle overrunGeom := by
  have hsuper : SuperOf overrunGeom (overrunImage.disk 0) :=
    (formatSuper_spec [] 0 rfl rfl rfl (by decide) (by decide) (by decide) (by decide) (by decide)
      (by decide) (by decide) (by decide)).1
  obtain ⟨s, hmount, hs, -⟩ := @cfsMountBd_run _ overrunImage rfl hsuper
  exact ⟨s, hmount, hs⟩

/-- The image is mounted, and marking its metadata region writes behind the bitmap. -/
theorem overrun_wild : ∃ s, cfsMountBd.run overrunImage = (some (), s) ∧
    ∃ w ret s', (cfsFsck true).run s = (some (some (w, ret)), s') ∧ w.wild = true := by
  obtain ⟨s, hmount, hs⟩ := overrunImage_mounted
  obtain ⟨w, ret, s', hrun⟩ := cfsFsck_ends hs.geom true
  refine ⟨s, hmount, w, ret, s', hrun, (cfsFsck_wild hs ⟨by decide, by decide⟩ true hrun).mpr (Or.inl ?_)⟩
  exact fun h => absurd h.1 (by decide)

end ComputerOS.Cfs
