import ComputerOS.Cfs.DirChange
import ComputerOS.Cfs.Store

/-!
The first half of `do_write_file`: the target is an existing file, which is truncated,
or a new one, which is entered in its parent.
-/
namespace ComputerOS.Cfs

open M Bytes Function

variable {g : Geom} {s s' : St} {U : ℕ → Prop}

/-- A body that has buffered no directory block yet. -/
structure St.Fresh (g : Geom) (s : St) : Prop extends s.InTxn g where
  unbuffered : ∀ b, g.IsData b → txnFind s.txn b = none

theorem St.Fresh.working (h : s.Fresh g) : s.Working g :=
  ⟨h.toInTxn, fun b hb _ => h.unbuffered b hb⟩

/-- The inode a write starts from when the file exists. -/
def truncated (d : DInode) (mode : ℕ) : DInode := ((d.setNextents 0).setSize 0).setMode mode

/-- How `do_write_file` finds or makes its target: inode `n`, starting from `din`. -/
inductive Opened (g : Geom) (env : Env) (p : ℕ) (leaf : Name) (mode ftype : ℕ) (v : Vol) :
    ℕ → DInode → Vol → Prop
  | old {n : ℕ} {F : List ℕ} (hlook : lookupEnt (v.out p) leaf = n) (hn : n ≠ 0)
      (hfile : (v.ino n).isDir = false) (hmay : mayAccess env (v.ino n) CFS_W = true)
      (hF : F ⊆ (v.ino n).blocks) (hdata : ∀ b ∈ F, g.IsData b) :
      Opened g env p leaf mode ftype v n (truncated (v.ino n) mode) (v.giveBlocks F)
  | new {n : ℕ} {v₁ : Vol} {pd : DInode} (hlook : lookupEnt (v.out p) leaf = 0) (hn : 2 ≤ n)
      (hlt : n < g.totalInodes) (hfree : v.ibit n = false)
      (hadd : Added g leaf n ftype (v.takeInode n) (v.ino p) v₁ pd) :
      Opened g env p leaf mode ftype v n (newFileInode env mode) (v₁.setIno p (stamp g.flags pd))

/-- As `Opened`, with the checks on the caller; `k` stands for "no buffered write was
refused", and then every block of an existing file is given back. -/
inductive Target (g : Geom) (env : Env) (k : Prop) (p : ℕ) (leaf : Name) (mode ftype : ℕ) (v : Vol) :
    ℕ → DInode → Vol → Prop
  | old {n : ℕ} {F : List ℕ} (hlook : lookupEnt (v.out p) leaf = n) (hn : n ≠ 0)
      (hfile : (v.ino n).isDir = false) (hmay : mayAccess env (v.ino n) CFS_W = true)
      (hF : F ⊆ (v.ino n).blocks) (hdata : ∀ b ∈ F, g.IsData b)
      (hall : k → F = (v.ino n).blocks.filter fun b => g.IsData b) :
      Target g env k p leaf mode ftype v n (truncated (v.ino n) mode) (v.giveBlocks F)
  | new {n : ℕ} {v₁ : Vol} {pd : DInode} (hlook : lookupEnt (v.out p) leaf = 0)
      (hmay : mayAccess env (v.ino p) (CFS_W + CFS_X) = true) (hn : 2 ≤ n)
      (hlt : n < g.totalInodes) (hfree : v.ibit n = false)
      (hadd : Added g leaf n ftype (v.takeInode n) (v.ino p) v₁ pd) :
      Target g env k p leaf mode ftype v n (newFileInode env mode) (v₁.setIno p (stamp g.flags pd))

theorem Target.opened {env : Env} {k : Prop} {p mode ftype n : ℕ} {leaf : Name} {v w : Vol} {din : DInode}
    (h : Target g env k p leaf mode ftype v n din w) : Opened g env p leaf mode ftype v n din w := by
  cases h with
  | old hlook hn hfile hmay hF hdata hall => exact .old hlook hn hfile hmay hF hdata
  | new hlook hmay hn hlt hfree hadd => exact .new hlook hn hlt hfree hadd

/-- What is known when more was refused is known when less was. -/
theorem Target.mono {env : Env} {k k' : Prop} {p mode ftype n : ℕ} {leaf : Name} {v w : Vol}
    {din : DInode} (h : Target g env k p leaf mode ftype v n din w) (hk : k' → k) :
    Target g env k' p leaf mode ftype v n din w := by
  cases h with
  | old hlook hn hfile hmay hF hdata hall =>
    exact .old hlook hn hfile hmay hF hdata fun h => hall (hk h)
  | new hlook hmay hn hlt hfree hadd => exact .new hlook hmay hn hlt hfree hadd

theorem orUndo_eq_some {α : Type} {x : M α} {undo : M Unit} {a : α}
    (h : (orUndo x undo).run s = (some a, s')) : x.run s = (some a, s') := by
  unfold M.orUndo at h
  rw [bind_of_some (attempt_run _ s)] at h
  rcases hx : x.run s with ⟨_ | b, s1⟩
  · rw [hx] at h
    obtain ⟨_, _, _, k⟩ := bind_eq_some h
    simp [fail_run] at k
  · rw [hx, pure_run] at h
    exact h

section Open

variable (hg : g.Wf) (hs : s.Fresh g) (hc : Usable g s.vol) {p : ℕ} (hp : s.vol.Reach p)
  (hd : (s.vol.ino p).isDir = true)

include hg hs hc hp hd

omit hg hs in
theorem parent_blocks : ∀ b ∈ (s.vol.ino p).dirBlocks, g.IsData b ∧ s.vol.bbit b = true := by
  intro b hb
  exact ⟨hc.data p hp hd b hb, hc.used p hp hd b hb⟩

omit hg hc in
/-- What a write sees of the target before it changes anything. -/
theorem openForWrite_split (hv : Readable g s.vol) (env : Env) (leaf : Name) (mode ftype : ℕ) :
    ((lookupEnt (s.vol.out p) leaf ≠ 0) ∧
      (openForWrite env p (s.vol.ino p) leaf mode ftype).run s = (do
        let din ← readDinode (lookupEnt (s.vol.out p) leaf)
        ensure (din.isDir = false)
        ensure (mayAccess env din CFS_W = true)
        let din ← inodeFreeData din
        pure (lookupEnt (s.vol.out p) leaf, din.setMode mode) : M (ℕ × DInode)).run s) ∨
    ((lookupEnt (s.vol.out p) leaf = 0) ∧
      (openForWrite env p (s.vol.ino p) leaf mode ftype).run s = (do
        ensure (mayAccess env (s.vol.ino p) (CFS_W + CFS_X) = true)
        let ino ← allocInode
        ensure (ino ≠ 0)
        let pdin ← orUndo (dirAdd (s.vol.ino p) leaf ino ftype) (freeInode ino)
        writeDinode p pdin
        pure (ino, newFileInode env mode) : M (ℕ × DInode)).run s) := by
  have hlook := dirLookup_vol hs.toMounted hv hp hd leaf
  by_cases hz : lookupEnt (s.vol.out p) leaf = 0
  · refine Or.inr ⟨hz, ?_⟩
    rw [openForWrite, bind_of_some hlook, if_neg (by simpa using hz)]
  · refine Or.inl ⟨hz, ?_⟩
    rw [openForWrite, bind_of_some hlook, if_pos (by simpa using hz)]

theorem openForWrite_target {env : Env} {leaf : Name} {mode ftype n : ℕ} {din : DInode}
    (h : (openForWrite env p (s.vol.ino p) leaf mode ftype).run s = (some (n, din), s')) :
    s'.Working g ∧ (s.lost = true → s'.lost = true) ∧
      Target g env (s'.lost = false) p leaf mode ftype s.vol n din s'.vol := by
  rcases openForWrite_split hs hp hd hc.toReadable env leaf mode ftype with ⟨hz, hrun⟩ | ⟨hz, hrun⟩
  · rw [hrun] at h
    have hr : s.vol.Reach (lookupEnt (s.vol.out p) leaf) := .step hp (lookupEnt_mem hz)
    obtain ⟨d, s1, h1, k1⟩ := bind_eq_some h
    obtain ⟨-, rfl, rfl⟩ := readDinode_some hs.toMounted h1
    obtain ⟨_, s2, h2, k2⟩ := bind_eq_some k1
    obtain ⟨hfile, rfl⟩ := ensure_eq_some h2
    obtain ⟨_, s3, h3, k3⟩ := bind_eq_some k2
    obtain ⟨hmay, rfl⟩ := ensure_eq_some h3
    obtain ⟨s4, F, hrun4, hstep, hF, hdata, hvol, hall⟩ :=
      inodeFreeData_spec hg hs.toInTxn (s3.vol.ino (lookupEnt (s3.vol.out p) leaf))
    rw [bind_of_some hrun4, pure_run] at k3
    obtain ⟨heq, rfl⟩ := Prod.mk.inj k3
    obtain ⟨rfl, rfl⟩ := Prod.mk.inj (Option.some.inj heq)
    refine ⟨hstep.working_of_clean hs.working fun b hb _ => Or.inr (hs.unbuffered b hb), hstep.lost, ?_⟩
    rw [hvol]
    exact .old rfl hz hfile hmay hF hdata hall
  · rw [hrun] at h
    obtain ⟨_, s1, h1, k1⟩ := bind_eq_some h
    obtain ⟨hmay, rfl⟩ := ensure_eq_some h1
    obtain ⟨n', s2, h2, k2⟩ := bind_eq_some k1
    obtain ⟨_, s3, h3, k3⟩ := bind_eq_some k2
    obtain ⟨hne, rfl⟩ := ensure_eq_some h3
    obtain ⟨hstep, hw, hn2, hlt, hfree, hvol⟩ := allocInode_some hg hs.working hne h2
    obtain ⟨pd, s4, h4, k4⟩ := bind_eq_some k3
    have hadd := orUndo_eq_some h4
    have hblocks : ∀ b ∈ (s1.vol.ino p).dirBlocks, g.IsData b ∧ s3.vol.bbit b = true := by
      intro b hb
      rw [hvol]
      exact parent_blocks hc hp hd b hb
    obtain ⟨hw4, hadded, hlost4⟩ := dirAdd_some hg hw hblocks hadd
    obtain ⟨_, s5, h5, k5⟩ := bind_eq_some k4
    obtain ⟨-, hstep5, hw5, hvol5⟩ := writeDinode_working hg hw4 h5
    rw [pure_run] at k5
    obtain ⟨heq, rfl⟩ := Prod.mk.inj k5
    obtain ⟨rfl, rfl⟩ := Prod.mk.inj (Option.some.inj heq)
    refine ⟨hw5, fun hl => hstep5.lost (hlost4 (hstep.lost hl)), ?_⟩
    rw [hvol5]
    rw [hvol] at hadded
    exact .new hz hmay hn2 hlt hfree hadded

theorem openForWrite_some {env : Env} {leaf : Name} {mode ftype n : ℕ} {din : DInode}
    (h : (openForWrite env p (s.vol.ino p) leaf mode ftype).run s = (some (n, din), s')) :
    s'.Working g ∧ Opened g env p leaf mode ftype s.vol n din s'.vol := by
  obtain ⟨hw, -, htarget⟩ := openForWrite_target hg hs hc hp hd h
  exact ⟨hw, htarget.opened⟩

end Open

end ComputerOS.Cfs
