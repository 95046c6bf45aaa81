import ComputerOS.Cfs.Consistent

/-!
The functions that write blocks straight to the device. Such a block is one the
allocator just returned, so it was free: a block in use is never touched, whatever the
device answers, and the block is not buffered, so the core sees what was written.
-/
namespace ComputerOS.Cfs

open M Bytes Function

/-- Inside a transaction, with no free block in the buffer. -/
structure St.Working (g : Geom) (s : St) : Prop extends s.InTxn g where
  clean : ∀ b, g.IsData b → s.vol.bbit b = false → txnFind s.txn b = none

variable {g : Geom} {s s' : St}

theorem Step.working (h : Step g s s') (hs : s.Working g)
    (hbits : ∀ b, s.vol.bbit b = true → s'.vol.bbit b = true) : s'.Working g := by
  refine ⟨h.inTxn hs.toInTxn, fun b hb hfree => h.clean b hb (hs.clean b hb ?_)⟩
  by_contra hne
  have hused : s.vol.bbit b = true := by simpa using hne
  simp [hbits b hused] at hfree

/-- A freed block that is not buffered stays so. -/
theorem Step.working_of_clean (h : Step g s s') (hs : s.Working g)
    (hbits : ∀ b, g.IsData b → s'.vol.bbit b = false →
      s.vol.bbit b = false ∨ txnFind s.txn b = none) : s'.Working g := by
  refine ⟨h.inTxn hs.toInTxn, fun b hb hfree => h.clean b hb ?_⟩
  rcases hbits b hb hfree with h1 | h1
  · exact hs.clean b hb h1
  · exact h1

/-- Running `x` from `s` leaves the blocks of `U` on the disk alone. -/
def Safe {α : Type} (U : ℕ → Prop) (x : M α) (s : St) : Prop :=
  ∀ b, U b → (x.run s).2.disk b = s.disk b

theorem Buffered.disk {α : Type} {x : M α} (h : Buffered x) :
    Keeps (fun s s' => s.txnActive = true → s'.disk = s.disk ∧ s'.txnActive = true) x := by
  refine h.keeps ?_ ?_ ?_ ?_ ?_ ?_
  · exact fun s ha => ⟨rfl, ha⟩
  · intro a b c h1 h2 ha
    obtain ⟨hd, hb⟩ := h1 ha
    obtain ⟨hd', hc⟩ := h2 hb
    exact ⟨hd'.trans hd, hc⟩
  · exact fun b s ha => ⟨rfl, ha⟩
  · intro b s ha
    rw [bdReadBlock_eq]
    split
    · exact ⟨rfl, ha⟩
    · exact ⟨rfl, ha⟩
  · intro b v s ha
    rcases bdWriteBlock_cases ha b v with hw | hw
    · rw [hw]
      exact ⟨rfl, ha⟩
    · rw [hw]
      exact ⟨rfl, ha⟩
  · exact fun c s ha => ⟨rfl, ha⟩

/-- A device that answers the next reads and accepts the next writes goes on so. -/
theorem Ordered.device {α : Type} {x : M α} (h : Ordered x) :
    Keeps (fun s s' => (s.ReadsOk → s'.ReadsOk) ∧ (s.WritesOk → s'.WritesOk)) x := by
  have hread : ∀ (b : ℕ) (s : St), s.ReadsOk → ((rawReadBlock b).run s).2.ReadsOk := by
    intro b s hr
    rw [rawReadBlock_ok b hr]
    exact hr
  have hput : ∀ (b : ℕ) (v : Block) (s : St),
      (s.ReadsOk → ((rawWriteBlock b v).run s).2.ReadsOk) ∧
      (s.WritesOk → ((rawWriteBlock b v).run s).2.WritesOk) := by
    intro b v s
    rw [rawWriteBlock_run]
    constructor
    · intro hr
      split
      · exact hr
      · exact hr
    · intro hw
      have hnext : (fun i => s.wr (i + 1)) = fun _ => Outcome.ok := by rw [hw]
      split
      · exact hnext
      · exact hnext
  refine h.keeps ?_ ?_ ?_ ?_ ?_ ?_ ?_
  · exact fun s => ⟨id, id⟩
  · exact fun a b c h1 h2 => ⟨h2.1 ∘ h1.1, h2.2 ∘ h1.2⟩
  · exact fun b s => ⟨hread b s, id⟩
  · intro b s
    rw [bdReadBlock_eq]
    split
    · exact ⟨id, id⟩
    · exact ⟨hread b s, id⟩
  · intro b v s
    rw [bdWriteBlock_eq]
    split
    · split
      · exact ⟨id, id⟩
      · exact ⟨id, id⟩
    · exact hput b v s
  · exact fun c s => ⟨id, id⟩
  · exact hput

/-- A refused write is never forgotten. -/
theorem Ordered.lost {α : Type} {x : M α} (h : Ordered x) :
    Keeps (fun s s' => s.lost = true → s'.lost = true) x := by
  have hput : ∀ (b : ℕ) (v : Block) (s : St), s.lost = true → ((rawWriteBlock b v).run s).2.lost = true := by
    intro b v s hl
    rw [rawWriteBlock_run]
    split
    · exact hl
    · exact hl
  refine h.keeps ?_ ?_ ?_ ?_ ?_ ?_ ?_
  · exact fun s => id
  · exact fun a b c h1 h2 => h2 ∘ h1
  · exact fun b s => id
  · intro b s hl
    rw [bdReadBlock_eq]
    split
    · exact hl
    · exact hl
  · intro b v s hl
    rw [bdWriteBlock_eq]
    split
    · split
      · rfl
      · exact hl
    · exact hput b v s hl
  · exact fun c s => id
  · exact hput

/-- A body stays inside its transaction, however it ends. -/
theorem Ordered.inTxn {α : Type} {x : M α} (h : Ordered x) (hs : s.InTxn g) :
    (x.run s).2.InTxn g :=
  ⟨⟨(h.framed s).geom.trans hs.geom, (h.device s).1 hs.reads⟩, (h.framed s).active.trans hs.active⟩

theorem Ordered.inTxn_of_run {α : Type} {x : M α} (h : Ordered x) (hs : s.InTxn g) {r : Option α}
    (hrun : x.run s = (r, s')) : s'.InTxn g := by
  have hin := h.inTxn hs
  rwa [hrun] at hin

theorem Buffered.inTxn_of_run {α : Type} {x : M α} (h : Buffered x) (hs : s.InTxn g) {r : Option α}
    (hrun : x.run s = (r, s')) : s'.InTxn g := (Ordered.buffered h).inTxn_of_run hs hrun

variable {U : ℕ → Prop}

theorem Safe.buffered {α : Type} {x : M α} (h : Buffered x) (hs : s.InTxn g) : Safe U x s := by
  intro b _
  rw [(h.disk s hs.active).1]

theorem Safe.bind {α β : Type} {x : M α} {f : α → M β} (hx : Safe U x s)
    (hf : ∀ a s', x.run s = (some a, s') → Safe U (f a) s') : Safe U (x >>= f) s := by
  intro b hb
  have h1 := hx b hb
  rw [bind_run]
  rcases h : x.run s with ⟨_ | a, s1⟩
  · rw [h] at h1
    exact h1
  · rw [h] at h1
    exact (hf a s1 h b hb).trans h1

theorem Safe.orUndo {α : Type} {x : M α} {undo : M Unit} (hs : s.txnActive = true) (hx : Safe U x s)
    (hact : Keeps Framed x) (hu : Buffered undo) : Safe U (orUndo x undo) s := by
  intro b hb
  have h1 := hx b hb
  unfold M.orUndo
  rw [bind_of_some (attempt_run x s)]
  rcases h : x.run s with ⟨_ | a, s1⟩
  · rw [h] at h1
    have ha : s1.txnActive = true := by
      have := (hact s).active
      rw [h] at this
      exact this.trans hs
    have hd := (Buffered.bind hu (fun _ => @Buffered.fail α)).disk s1 ha
    exact (congrFun hd.1 b).trans h1
  · rw [h] at h1
    exact h1

theorem Safe.rawWrite {b : ℕ} (v : Block) (hb : ¬ U b) : Safe U (rawWriteBlock b v) s := by
  intro x hx
  refine rawWriteBlock_disk s b v ?_
  rintro rfl
  exact hb hx

section Alloc

variable (hg : g.Wf) (hs : s.Working g)

include hg hs

theorem allocBlock_some {b : ℕ} (hb : b ≠ 0) (h : allocBlock.run s = (some b, s')) :
    Step g s s' ∧ s'.Working g ∧ g.IsData b ∧ s.vol.bbit b = false ∧
      (∀ x, g.dataStart ≤ x → x < b → s.vol.bbit x = true) ∧ s'.vol = s.vol.takeBlock b ∧
      txnFind s'.txn b = none := by
  obtain ⟨b', hb', hstep, ⟨h0, -⟩ | ⟨-, hdata, hfree, hfirst, hvol⟩⟩ :=
    allocBlock_spec hg hs.toInTxn h
  · exact absurd (Option.some.inj hb') (by rw [h0]; exact hb)
  · obtain rfl := Option.some.inj hb'
    refine ⟨hstep, hstep.working hs ?_, hdata, hfree, hfirst, hvol,
      hstep.clean b hdata (hs.clean b hdata hfree)⟩
    intro x hx
    rw [hvol, Vol.takeBlock]
    by_cases hxb : x = b
    · simp [hxb]
    · simpa [hxb] using hx

theorem allocInode_some {n : ℕ} (hn : n ≠ 0) (h : allocInode.run s = (some n, s')) :
    Step g s s' ∧ s'.Working g ∧ 2 ≤ n ∧ n < g.totalInodes ∧ s.vol.ibit n = false ∧
      s'.vol = s.vol.takeInode n := by
  obtain ⟨n', hn', hstep, ⟨h0, -⟩ | ⟨h2, hlt, hfree, hvol⟩⟩ := allocInode_spec hg hs.toInTxn h
  · exact absurd (Option.some.inj hn') (by rw [h0]; exact hn)
  · obtain rfl := Option.some.inj hn'
    refine ⟨hstep, hstep.working hs ?_, h2, hlt, hfree, hvol⟩
    intro x hx
    rw [hvol]
    exact hx

theorem rawWriteBlock_working {b : ℕ} {v : Block} {u : Unit} (hb : g.IsData b)
    (hclean : txnFind s.txn b = none) (h : (rawWriteBlock b v).run s = (some u, s')) :
    s'.Working g ∧ s'.vol = s.vol.setData b v ∧ s'.lost = s.lost := by
  obtain ⟨hvol, htxn, -, hlost, heq⟩ := rawWriteBlock_data hg hs.toInTxn hb hclean h
  refine ⟨⟨htxn, fun x hx hfree => ?_⟩, hvol, hlost⟩
  rw [heq]
  rw [hvol] at hfree
  exact hs.clean x hx hfree

/-- The first free block is taken and filled. -/
theorem filledBlock_some {α : Type} {v : Block} {k : ℕ → M α} {r : α}
    (h : (do
      let b ← allocBlock
      ensure (b ≠ 0)
      rawWriteBlock b v
      k b).run s = (some r, s')) :
    ∃ b s₁, s₁.Working g ∧ (s.lost = true → s₁.lost = true) ∧ g.IsData b ∧ s.vol.bbit b = false ∧
      (∀ x, g.dataStart ≤ x → x < b → s.vol.bbit x = true) ∧ s₁.vol = (s.vol.takeBlock b).setData b v ∧
      (k b).run s₁ = (some r, s') := by
  obtain ⟨b, s1, h1, k1⟩ := bind_eq_some h
  obtain ⟨_, s2, h2, k2⟩ := bind_eq_some k1
  obtain ⟨hb, rfl⟩ := ensure_eq_some h2
  obtain ⟨hstep, hw, hdata, hfree, hfirst, hvol, hclean⟩ := allocBlock_some hg hs hb h1
  obtain ⟨_, s3, h3, k3⟩ := bind_eq_some k2
  obtain ⟨hw3, hvol3, hlost⟩ := rawWriteBlock_working hg hw hdata hclean h3
  exact ⟨b, s3, hw3, fun hl => by rw [hlost]; exact hstep.lost hl, hdata, hfree, hfirst, hvol3.trans (by rw [hvol]), k3⟩

theorem writeDinode_working {n : ℕ} {d : DInode} {u : Unit}
    (h : (writeDinode n d).run s = (some u, s')) :
    (n ≠ 0 ∧ n < g.totalInodes) ∧ Step g s s' ∧ s'.Working g ∧
      s'.vol = s.vol.setIno n (stamp g.flags d) := by
  obtain ⟨hn, hstep, hvol⟩ := writeDinode_some hg hs.toInTxn h
  refine ⟨hn, hstep, hstep.working hs fun b hb => ?_, hvol⟩
  rw [hvol]
  exact hb

end Alloc

end ComputerOS.Cfs
