import ComputerOS.Cfs.OpenWrite

/-!
Which blocks the body of a public call may overwrite before its commit. Only freshly
allocated blocks are written straight to the device, and these were free, with one
exception: a write to an existing file frees the file's blocks first, so that first fit
may hand them out again while the old inode still refers to them.
-/
namespace ComputerOS.Cfs

open M Bytes Function

/-- The first clear bit of the data area. -/
def Geom.firstFree (g : Geom) (bits : ℕ → Bool) : Option ℕ :=
  (List.range' g.dataStart (g.totalBlocks - g.dataStart)).find? fun b => !bits b

/-- The blocks that first fit hands to `n` data blocks of a file, up to the one for
which the extent array has no room. -/
def handedBlocks (g : Geom) (bits : ℕ → Bool) (din : DInode) : ℕ → List ℕ
  | 0 => []
  | n + 1 =>
      match g.firstFree bits with
      | none => []
      | some b => b ::
          match inodePushExtent din b 1 with
          | none => []
          | some din => handedBlocks g (update bits b true) din n

/-- The blocks that first fit hands to the contents of a file with inode `din`. -/
def handed (g : Geom) (bits : ℕ → Bool) (din : DInode) (data : List UInt8) : List ℕ :=
  if isLink data then
    if (data.drop 10).length ≤ 144 then [] else (g.firstFree bits).toList
  else if data.length ≤ CFS_INLINE_MAX then []
  else
    handedBlocks g bits (din.setFlags (din.flags &&& (2 ^ 32 - 1 - CFS_FL_INLINE)))
      ((data.length + 4095) % 2 ^ 32 / 4096)

def Vol.bitsWithout (v : Vol) (n b : ℕ) : Bool := decide (b ∉ (v.ino n).blocks) && v.bbit b

/-- A write replaces an existing file: it passes every check before it frees the blocks. -/
structure Replaces (env : Env) (v : Vol) (path data : List UInt8) : Prop where
  leaf : (leafOf path).length ≠ 0 ∧ (leafOf path).length ≤ CFS_NAME_MAX
  parent : (parentOf path).length < 256 ∧ v.resolve (parentOf path) ≠ 0
  target : v.target path ≠ 0
  file : (v.ino (v.target path)).isDir = false
  may : mayAccess env (v.ino (v.target path)) CFS_W = true
  link : isLink data = true → data.length - 10 ≤ 4095

/-- The blocks that first fit hands to a write that replaces a file. -/
def Vol.handed (g : Geom) (v : Vol) (path data : List UInt8) : List ℕ :=
  Cfs.handed g (v.bitsWithout (v.target path))
    (truncated (v.ino (v.target path)) (writeMode data)) data

/-- The call replaces a file, and first fit hands out blocks of that very file. -/
def Call.Reuses (g : Geom) (env : Env) (v : Vol) : Call → Prop
  | .writeFile path data => Replaces env v path data ∧
      ∃ b ∈ v.handed g path data, b ∈ (v.ino (v.target path)).blocks
  | _ => False

theorem firstFree_eq_some {g : Geom} {bits : ℕ → Bool} {b : ℕ} :
    g.firstFree bits = some b ↔
      g.IsData b ∧ bits b = false ∧ ∀ x, g.dataStart ≤ x → x < b → bits x = true := by
  unfold Geom.firstFree Geom.IsData
  rw [List.find?_range'_eq_some, List.mem_range'_1]
  constructor
  · rintro ⟨h1, ⟨h2, h3⟩, h4⟩
    exact ⟨⟨h2, by omega⟩, by simpa using h1, fun x hx hxb => by simpa using h4 x hx hxb⟩
  · rintro ⟨⟨h1, h2⟩, h3, h4⟩
    exact ⟨by simpa using h3, ⟨h1, by omega⟩, fun x hx hxb => by simpa using h4 x hx hxb⟩

theorem handedBlocks_clear {g : Geom} {bits : ℕ → Bool} {din : DInode} {n b : ℕ}
    (h : b ∈ handedBlocks g bits din n) : g.IsData b ∧ bits b = false := by
  induction n generalizing bits din with
  | zero => simp [handedBlocks] at h
  | succ n ih =>
    rw [handedBlocks] at h
    cases hf : g.firstFree bits with
    | none => simp [hf] at h
    | some x =>
      obtain ⟨hdata, hfree, -⟩ := firstFree_eq_some.mp hf
      rw [hf] at h
      rcases List.mem_cons.mp h with rfl | h
      · exact ⟨hdata, hfree⟩
      · cases hp : inodePushExtent din x 1 with
        | none => simp [hp] at h
        | some d =>
          rw [hp] at h
          obtain ⟨h1, h2⟩ := ih h
          refine ⟨h1, ?_⟩
          by_cases hbx : b = x
          · simp [hbx] at h2
          · simpa [hbx] using h2

theorem handed_clear {g : Geom} {bits : ℕ → Bool} {din : DInode} {data : List UInt8} {b : ℕ}
    (h : b ∈ handed g bits din data) : g.IsData b ∧ bits b = false := by
  unfold handed at h
  split at h
  · split at h
    · simp at h
    · obtain ⟨h1, h2, -⟩ := firstFree_eq_some.mp (Option.mem_toList.mp h)
      exact ⟨h1, h2⟩
  · split at h
    · simp at h
    · exact handedBlocks_clear h

theorem Vol.handed_clear {g : Geom} {v : Vol} {path data : List UInt8} {b : ℕ}
    (h : b ∈ v.handed g path data) :
    g.IsData b ∧ (b ∈ (v.ino (v.target path)).blocks ∨ v.bbit b = false) := by
  obtain ⟨hdata, hclear⟩ := Cfs.handed_clear h
  refine ⟨hdata, ?_⟩
  by_cases hb : b ∈ (v.ino (v.target path)).blocks
  · exact Or.inl hb
  · exact Or.inr (by simpa [Vol.bitsWithout, hb] using hclear)

section Store

variable {g : Geom} {s : St} {U : ℕ → Prop} {bits : ℕ → Bool}

structure Between (g : Geom) (U : ℕ → Prop) (bits : ℕ → Bool) (s : St) : Prop where
  lower : ∀ b, g.IsData b → s.vol.bbit b = false → bits b = false
  upper : ∀ b, g.IsData b → bits b = false → s.vol.bbit b = false ∨ U b

/-- While first fit over `bits` avoids `U`, the allocator finds the same block. -/
theorem Between.alloc {b : ℕ} (h : Between g U bits s) (hdata : g.IsData b)
    (hfree : s.vol.bbit b = false) (hfirst : ∀ x, g.dataStart ≤ x → x < b → s.vol.bbit x = true)
    (hU : ∀ x, g.firstFree bits = some x → ¬ U x) : g.firstFree bits = some b := by
  refine firstFree_eq_some.mpr ⟨hdata, h.lower b hdata hfree, ?_⟩
  by_contra hne
  have hex : ∃ x, g.firstFree bits = some x ∧ x < b := by
    cases hf : g.firstFree bits with
    | none =>
      have hnone := List.find?_eq_none.mp hf b (by
        rw [List.mem_range'_1]
        exact ⟨hdata.1, by have := hdata.2; omega⟩)
      simp [h.lower b hdata hfree] at hnone
    | some x =>
      obtain ⟨_, _, hmin⟩ := firstFree_eq_some.mp hf
      refine ⟨x, rfl, ?_⟩
      by_contra hge
      exact hne fun y hy hyb => hmin y hy (by omega)
  obtain ⟨x, hx, hlt⟩ := hex
  obtain ⟨hxd, hxf, -⟩ := firstFree_eq_some.mp hx
  rcases h.upper x hxd hxf with hclear | hu
  · simp [hfirst x hxd.1 hlt] at hclear
  · exact hU x hx hu

theorem writeBlocks_untouched (hg : g.Wf) (hs : s.Working g) (data : List UInt8) (fbs : List ℕ)
    {din : DInode} (hb : Between g U bits s)
    (hU : ∀ b ∈ handedBlocks g bits din fbs.length, ¬ U b) : Safe U (writeBlocks data fbs din) s := by
  induction fbs generalizing s din bits with
  | nil => exact Safe.buffered (.pure din) hs.toInTxn
  | cons fb fbs ih =>
    rw [writeBlocks]
    refine Safe.bind (Safe.buffered allocBlock_buffered hs.toInTxn) fun b s1 h1 => ?_
    have hs1 := allocBlock_buffered.inTxn_of_run hs.toInTxn h1
    refine Safe.bind (Safe.buffered (Buffered.ensure _) hs1) fun _ s2 h2 => ?_
    obtain ⟨hne, rfl⟩ := ensure_eq_some h2
    obtain ⟨-, hw, hdata, hfree, hfirst, hvol, hclean⟩ := allocBlock_some hg hs hne h1
    rw [List.length_cons, handedBlocks] at hU
    have hff : g.firstFree bits = some b := by
      refine hb.alloc hdata hfree hfirst fun x hx => hU x ?_
      simp [hx]
    rw [hff] at hU
    refine Safe.bind (Safe.rawWrite _ (hU b (by simp))) fun _ s3 h3 => ?_
    obtain ⟨hw3, hvol3, -⟩ := rawWriteBlock_working hg hw hdata hclean h3
    cases hp : inodePushExtent din b 1 with
    | none => exact Safe.buffered .fail hw3.toInTxn
    | some d =>
      refine @ih s3 (update bits b true) hw3 d ⟨fun x hx hxf => ?_, fun x hx hxf => ?_⟩ fun x hx => ?_
      · rw [hvol3, hvol] at hxf
        by_cases hxb : x = b
        · simp [Vol.setData, Vol.takeBlock, hxb] at hxf
        · simpa [hxb] using hb.lower x hx (by simpa [Vol.setData, Vol.takeBlock, hxb] using hxf)
      · rw [hvol3, hvol]
        by_cases hxb : x = b
        · simp [hxb] at hxf
        · simpa [Vol.setData, Vol.takeBlock, hxb] using hb.upper x hx (by simpa [hxb] using hxf)
      · refine hU x (List.mem_cons_of_mem b ?_)
        rw [hp]
        exact hx

theorem storeData_untouched (hg : g.Wf) (hs : s.Working g) {din : DInode} {data : List UInt8}
    (hb : Between g U bits s) (hU : ∀ b ∈ handed g bits din data, ¬ U b) :
    Safe U (storeData din data) s := by
  unfold storeData
  unfold handed at hU
  by_cases hlink : isLink data = true
  · rw [if_pos hlink] at hU ⊢
    unfold storeTarget
    by_cases hlen : (data.drop 10).length ≤ 144
    · rw [if_pos hlen]
      exact Safe.buffered (.pure _) hs.toInTxn
    · rw [if_neg hlen] at hU ⊢
      refine Safe.bind (Safe.buffered allocBlock_buffered hs.toInTxn) fun b s1 h1 => ?_
      have hs1 := allocBlock_buffered.inTxn_of_run hs.toInTxn h1
      refine Safe.bind (Safe.buffered (Buffered.ensure _) hs1) fun _ s2 h2 => ?_
      obtain ⟨hne, rfl⟩ := ensure_eq_some h2
      obtain ⟨-, hw, hdata, hfree, hfirst, -, hclean⟩ := allocBlock_some hg hs hne h1
      have hff : g.firstFree bits = some b :=
        hb.alloc hdata hfree hfirst fun x hx => hU x (by simp [hx])
      refine Safe.bind (Safe.rawWrite _ (hU b (by simp [hff]))) fun _ s3 h3 => ?_
      obtain ⟨hw3, -, -⟩ := rawWriteBlock_working hg hw hdata hclean h3
      exact Safe.buffered (.pure _) hw3.toInTxn
  · rw [if_neg hlink] at hU ⊢
    by_cases hlen : data.length ≤ CFS_INLINE_MAX
    · rw [if_pos hlen]
      exact Safe.buffered (.pure _) hs.toInTxn
    · rw [if_neg hlen] at hU ⊢
      refine writeBlocks_untouched hg hs data _ hb ?_
      rwa [List.length_range]

end Store

section Body

variable {g : Geom} {s : St} (hg : g.Wf) (hs : s.Fresh g) (hc : Consistent g s.vol)

include hg hs hc

theorem openForWrite_untouched {p : ℕ} (hp : s.vol.Reach p) (hd : (s.vol.ino p).isDir = true)
    (env : Env) (leaf : Name) (mode ftype : ℕ) :
    Safe (s.vol.bbit · = true) (openForWrite env p (s.vol.ino p) leaf mode ftype) s := by
  intro b hb
  rcases openForWrite_split hs hp hd hc.readable env leaf mode ftype with ⟨-, hrun⟩ | ⟨-, hrun⟩
  · rw [hrun]
    refine @Safe.buffered g s (s.vol.bbit · = true) _ _ ?_ hs.toInTxn b hb
    exact .bind (readDinode_buffered _) fun _ => .bind (.ensure _) fun _ => .bind (.ensure _) fun _ =>
      .bind (inodeFreeData_buffered _) fun _ => .pure _
  · rw [hrun]
    revert b
    refine Safe.bind (Safe.buffered (.ensure _) hs.toInTxn) fun _ s1 h1 => ?_
    obtain ⟨-, rfl⟩ := ensure_eq_some h1
    refine Safe.bind (Safe.buffered allocInode_buffered hs.toInTxn) fun n s2 h2 => ?_
    have hs2 := allocInode_buffered.inTxn_of_run hs.toInTxn h2
    refine Safe.bind (Safe.buffered (.ensure _) hs2) fun _ s3 h3 => ?_
    obtain ⟨hne, rfl⟩ := ensure_eq_some h3
    obtain ⟨-, hw, -, -, -, hvol⟩ := allocInode_some hg hs.working hne h2
    have hU3 : ∀ b, s1.vol.bbit b = true → s3.vol.bbit b = true := by
      intro b hb
      rw [hvol]
      exact hb
    have hord := dirAdd_ordered (s1.vol.ino p) leaf n ftype
    refine Safe.bind (Safe.orUndo hw.active (dirAdd_safe hg hw hU3 _ _ _ _) hord.framed
      (freeInode_buffered n)) fun pd s4 h4 => ?_
    have hs4 := (Ordered.orUndo hord (freeInode_buffered n)).inTxn_of_run hw.toInTxn h4
    exact Safe.buffered (.bind (writeDinode_buffered _ _) fun _ => .pure _) hs4

omit hs in
/-- Storing the contents, when the blocks handed out are none of the replaced file's. -/
theorem stored_untouched {env : Env} {path data : List UInt8} {n : ℕ} {din : DInode} {s' : St}
    {ftype : ℕ} (hp : s.vol.Reach (s.vol.resolve (parentOf path)))
    (hw : s'.Working g) (hopen : Opened g env (s.vol.resolve (parentOf path)) (leafOf path)
      (writeMode data) ftype s.vol n din s'.vol)
    (hH : s.vol.target path ≠ 0 → (s.vol.ino (s.vol.target path)).isDir = false →
      mayAccess env (s.vol.ino (s.vol.target path)) CFS_W = true →
      ∀ b ∈ s.vol.handed g path data, b ∉ (s.vol.ino (s.vol.target path)).blocks) :
    Safe (s.vol.bbit · = true) (storeData din data) s' := by
  generalize hv : s'.vol = v at hopen
  cases hopen with
  | @old F hlook hn hfile hmay hF hdata =>
    obtain rfl : s.vol.target path = n := hlook
    have hr : s.vol.Reach (s.vol.target path) := .step hp (lookupEnt_mem hn)
    refine @storeData_untouched g s' _ (s.vol.bitsWithout (s.vol.target path)) hg hw _ data
      ⟨fun b hb hfree => ?_, fun b hb hfree => ?_⟩ fun b hb hused => ?_
    · rw [hv, Vol.giveBlocks_bbit] at hfree
      unfold Vol.bitsWithout
      by_cases hbF : b ∈ F
      · simp [hF hbF]
      · have hclear : s.vol.bbit b = false := by simpa [hbF] using hfree
        simp [hclear]
    · unfold Vol.bitsWithout at hfree
      by_cases hbv : b ∈ (s.vol.ino (s.vol.target path)).blocks
      · exact Or.inr (hc.used hr hbv)
      · have hclear : s.vol.bbit b = false := by simpa [hbv] using hfree
        left
        rw [hv, Vol.giveBlocks_bbit, hclear, Bool.and_false]
    · rcases (Vol.handed_clear hb).2 with h1 | h1
      · exact hH hn hfile hmay b hb h1
      · simp [hused] at h1
  | new hlook hn hlt hfree hadd =>
    refine storeData_safe hg hw (fun b hb => ?_) _ _
    rw [hv]
    cases hadd with
    | place hblocks hfind => exact hb
    | @grow x d' hdata hfree hpush =>
      by_cases hbx : b = x
      · simp [Vol.setIno, Vol.setData, Vol.takeBlock, hbx]
      · simpa [Vol.setIno, Vol.setData, Vol.takeBlock, Vol.takeInode, hbx] using hb

theorem doWriteFile_untouched {env : Env} {path data : List UInt8}
    (hH : ¬ (Call.writeFile path data).Reuses g env s.vol) :
    Safe (s.vol.bbit · = true) (doWriteFile env path data) s := by
  refine Safe.bind (Safe.buffered (resolveParent_buffered _) hs.toInTxn) fun r s1 h1 => ?_
  obtain ⟨p, leaf⟩ := r
  obtain ⟨rfl, rfl, hl0, hl255, hpar, rfl, hp, hd⟩ := resolveParent_some hg hs.toMounted hc.readable h1
  refine Safe.bind (Safe.buffered (readDinode_buffered _) hs.toInTxn) fun d s2 h2 => ?_
  obtain ⟨-, rfl, rfl⟩ := readDinode_some hs.toMounted h2
  refine Safe.bind (Safe.buffered (.ensure _) hs.toInTxn) fun _ s3 h3 => ?_
  obtain ⟨hlink, rfl⟩ := ensure_eq_some h3
  refine Safe.bind (openForWrite_untouched hg hs hc hp hd _ _ _ _) fun r s4 h4 => ?_
  obtain ⟨n, din⟩ := r
  obtain ⟨hw, hopen⟩ := openForWrite_some hg hs hc.usable hp hd h4
  have hH' : s3.vol.target path ≠ 0 → (s3.vol.ino (s3.vol.target path)).isDir = false →
      mayAccess env (s3.vol.ino (s3.vol.target path)) CFS_W = true →
      ∀ b ∈ s3.vol.handed g path data, b ∉ (s3.vol.ino (s3.vol.target path)).blocks := by
    intro ht hf hm b hb hmem
    exact hH ⟨⟨⟨hl0, hl255⟩, ⟨hpar, reach_ne_zero hp⟩, ht, hf, hm, hlink⟩, b, hb, hmem⟩
  refine Safe.bind (stored_untouched hg hc hp hw hopen hH') fun din' s5 h5 => ?_
  have hs5 := (storeData_ordered din data).inTxn_of_run hw.toInTxn h5
  exact Safe.buffered (.bind (writeDinode_buffered _ _) fun _ => .bind syncSuper_buffered fun _ =>
    .pure _) hs5

theorem doMkdir_untouched (env : Env) (path : List UInt8) :
    Safe (s.vol.bbit · = true) (doMkdir env path) s := by
  refine Safe.bind (Safe.buffered (resolveParent_buffered _) hs.toInTxn) fun r s1 h1 => ?_
  obtain ⟨p, leaf⟩ := r
  obtain ⟨rfl, rfl, -, -, -, rfl, hp, hd⟩ := resolveParent_some hg hs.toMounted hc.readable h1
  refine Safe.bind (Safe.buffered (readDinode_buffered _) hs.toInTxn) fun d s2 h2 => ?_
  obtain ⟨-, rfl, rfl⟩ := readDinode_some hs.toMounted h2
  refine Safe.bind (Safe.buffered (.ensure _) hs.toInTxn) fun _ s3 h3 => ?_
  obtain ⟨-, rfl⟩ := ensure_eq_some h3
  refine Safe.bind (Safe.buffered (dirLookup_buffered _ _) hs.toInTxn) fun _ s4 h4 => ?_
  rw [dirLookup_vol hs.toMounted hc.readable hp hd] at h4
  obtain rfl : s3 = s4 := congrArg Prod.snd h4
  refine Safe.bind (Safe.buffered (.ensure _) hs.toInTxn) fun _ s5 h5 => ?_
  obtain ⟨-, rfl⟩ := ensure_eq_some h5
  refine Safe.bind (Safe.buffered allocInode_buffered hs.toInTxn) fun n s6 h6 => ?_
  have hs6 := allocInode_buffered.inTxn_of_run hs.toInTxn h6
  refine Safe.bind (Safe.buffered (.ensure _) hs6) fun _ s7 h7 => ?_
  obtain ⟨hne, rfl⟩ := ensure_eq_some h7
  obtain ⟨-, hw7, -, -, -, hvol7⟩ := allocInode_some hg hs.working hne h6
  refine Safe.bind (Safe.buffered allocBlock_buffered hw7.toInTxn) fun b s8 h8 => ?_
  have hs8 := allocBlock_buffered.inTxn_of_run hw7.toInTxn h8
  split
  · exact Safe.buffered (.bind (freeInode_buffered n) fun _ => .fail) hs8
  · next hb =>
    obtain ⟨-, hw8, hdata, hfree, -, hvol8, hclean⟩ := allocBlock_some hg hw7 hb h8
    rw [hvol7] at hfree
    refine Safe.bind (Safe.rawWrite _ fun hu => ?_) fun _ s9 h9 => ?_
    · exact absurd (hu.symm.trans hfree) (by simp)
    obtain ⟨hw9, hvol9, -⟩ := rawWriteBlock_working hg hw8 hdata hclean h9
    refine Safe.bind (Safe.buffered (writeDinode_buffered _ _) hw9.toInTxn) fun _ s10 h10 => ?_
    obtain ⟨-, -, hw10, hvol10⟩ := writeDinode_working hg hw9 h10
    have hU10 : ∀ x, s5.vol.bbit x = true → s10.vol.bbit x = true := by
      intro x hx
      rw [hvol10, hvol9, hvol8, hvol7]
      by_cases hxb : x = b
      · simp [Vol.setIno, Vol.setData, Vol.takeBlock, hxb]
      · simpa [Vol.setIno, Vol.setData, Vol.takeBlock, Vol.takeInode, hxb] using hx
    have hord := dirAdd_ordered (s5.vol.ino (s5.vol.resolve (parentOf path))) (leafOf path) n CFS_FT_DIR
    have hundo : Buffered (do freeBlock b; freeInode n) :=
      .bind (freeBlock_buffered b) fun _ => freeInode_buffered n
    refine Safe.bind (Safe.orUndo hw10.active (dirAdd_safe hg hw10 hU10 _ _ _ _) hord.framed hundo)
      fun pd s11 h11 => ?_
    have hs11 := (Ordered.orUndo hord hundo).inTxn_of_run hw10.toInTxn h11
    exact Safe.buffered (.bind (writeDinode_buffered _ _) fun _ => .bind syncSuper_buffered fun _ =>
      .pure _) hs11

omit hc in
theorem doLink_untouched (hv : Readable g s.vol) (env : Env) (oldpath newpath : List UInt8) :
    Safe (s.vol.bbit · = true) (doLink env oldpath newpath) s := by
  refine Safe.bind (Safe.buffered (resolveIno_buffered _) hs.toInTxn) fun o s1 h1 => ?_
  rw [resolveIno_run hg hs.toMounted hv] at h1
  obtain rfl : s = s1 := congrArg Prod.snd h1
  refine Safe.bind (Safe.buffered (.ensure _) hs.toInTxn) fun _ s2 h2 => ?_
  obtain ⟨-, rfl⟩ := ensure_eq_some h2
  refine Safe.bind (Safe.buffered (readDinode_buffered _) hs.toInTxn) fun od s3 h3 => ?_
  obtain ⟨-, rfl, rfl⟩ := readDinode_some hs.toMounted h3
  refine Safe.bind (Safe.buffered (.ensure _) hs.toInTxn) fun _ s4 h4 => ?_
  obtain ⟨-, rfl⟩ := ensure_eq_some h4
  refine Safe.bind (Safe.buffered (resolveParent_buffered _) hs.toInTxn) fun r s5 h5 => ?_
  obtain ⟨p, leaf⟩ := r
  obtain ⟨rfl, rfl, -, -, -, rfl, hp, hd⟩ := resolveParent_some hg hs.toMounted hv h5
  refine Safe.bind (Safe.buffered (readDinode_buffered _) hs.toInTxn) fun d s6 h6 => ?_
  obtain ⟨-, rfl, rfl⟩ := readDinode_some hs.toMounted h6
  refine Safe.bind (Safe.buffered (.ensure _) hs.toInTxn) fun _ s7 h7 => ?_
  obtain ⟨-, rfl⟩ := ensure_eq_some h7
  refine Safe.bind (Safe.buffered (dirLookup_buffered _ _) hs.toInTxn) fun _ s8 h8 => ?_
  rw [dirLookup_vol hs.toMounted hv hp hd] at h8
  obtain rfl : s7 = s8 := congrArg Prod.snd h8
  refine Safe.bind (Safe.buffered (.ensure _) hs.toInTxn) fun _ s9 h9 => ?_
  obtain ⟨-, rfl⟩ := ensure_eq_some h9
  refine Safe.bind (dirAdd_safe hg hs.working (fun _ => id) _ _ _ _) fun pd s10 h10 => ?_
  have hs10 := (dirAdd_ordered _ _ _ _).inTxn_of_run hs.toInTxn h10
  exact Safe.buffered (.bind (writeDinode_buffered _ _) fun _ => .bind (writeDinode_buffered _ _)
    fun _ => .pure _) hs10

/-- Before its commit, a call leaves every block in use alone, unless first fit hands out
blocks of a file that the call replaces. -/
theorem body_untouched {env : Env} {c : Call}
    (hH : ¬ c.Reuses g env s.vol) : Safe (s.vol.bbit · = true) (c.body env) s := by
  cases c with
  | writeFile path data => exact doWriteFile_untouched hg hs hc hH
  | mkdir path => exact doMkdir_untouched hg hs hc env path
  | rmdir path => exact Safe.buffered (doRmdir_buffered env path) hs.toInTxn
  | unlink path => exact Safe.buffered (doUnlink_buffered env path) hs.toInTxn
  | link oldpath newpath => exact doLink_untouched hg hs hc.readable env oldpath newpath
  | chmod path perm => exact Safe.buffered (doChmod_buffered env path perm) hs.toInTxn
  | chown path uid gid => exact Safe.buffered (doChown_buffered env path uid gid) hs.toInTxn

end Body

end ComputerOS.Cfs
