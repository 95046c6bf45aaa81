import ComputerOS.Cfs.Mount

/-!
Disks that hold a given volume. Every volume whose structures stay inside its geometry
is what some disk encodes, and every short enough list of entries is what some tiled
directory block holds.
-/
namespace ComputerOS.Cfs

open M Bytes Function

def putBits (f : ℕ → Bool) (l : List ℕ) (b : Block) : Block := l.foldl (fun b i => b.setBit i (f i)) b

theorem bit_putBits (f : ℕ → Bool) {l : List ℕ} (hl : ∀ i ∈ l, i < 32768) (b : Block) (i : ℕ) :
    (putBits f l b).bit i = if i ∈ l then f i else b.bit i := by
  induction l generalizing b with
  | nil => simp [putBits]
  | cons j l ih =>
    have hstep : putBits f (j :: l) b = putBits f l (b.setBit j (f j)) := by
      rw [putBits, putBits, List.foldl_cons]
    have hj : j < 8 * 4096 := hl j List.mem_cons_self
    rw [hstep, ih (fun i hi => hl i (List.mem_cons_of_mem _ hi)), bit_setBit _ _ hj]
    by_cases hij : j = i
    · subst hij
      simp
    · have hij' : ¬ i = j := fun h => hij h.symm
      simp [hij, hij']

def bitBlock (f : ℕ → Bool) : Block := putBits f (List.range 32768) zero

theorem bit_bitBlock (f : ℕ → Bool) {i : ℕ} (h : i < 32768) : (bitBlock f).bit i = f i := by
  rw [bitBlock, bit_putBits f (fun i hi => List.mem_range.mp hi), if_pos (List.mem_range.mpr h)]

/-- The inode table block that holds sixteen inodes from `ino 0` on. -/
def inodeTableBlock (ino : ℕ → DInode) : Block := ofFn fun i => (ino (i / 256)).byte (i % 256)

theorem sub_inodeTableBlock (ino : ℕ → DInode) {k : ℕ} (h : k < 16) :
    (inodeTableBlock ino).sub (256 * k) = ino k := by
  apply ext_byte
  intro i hi
  rw [byte_sub _ hi, inodeTableBlock, byte_ofFn _ (by omega)]
  rw [show (256 * k + i) / 256 = k by omega, show (256 * k + i) % 256 = i by omega]

/-- Write the entries one after another from `off` on; the last record takes the rest. -/
def packEnts : ℕ → List Ent → Block → Block
  | _, [], blk => blk
  | off, [e], blk => (putEntry blk off e.2 CFS_FT_REG e.1).setLE (off + 8) 2 (4096 - off)
  | off, e :: e' :: rest, blk =>
      packEnts (off + align8 (12 + e.1.length)) (e' :: rest)
        ((putEntry blk off e.2 CFS_FT_REG e.1).setLE (off + 8) 2 (align8 (12 + e.1.length)))

/-- The bytes that records of these entries take at least. -/
def entsLen (l : List Ent) : ℕ := (l.map fun e => align8 (12 + e.1.length)).sum

theorem packEnts_byte (l : List Ent) {off i : ℕ} (h : i < off) (blk : Block) :
    (packEnts off l blk).byte i = blk.byte i := by
  induction l generalizing off blk with
  | nil => rfl
  | cons e rest ih =>
    cases rest with
    | nil => rw [packEnts, byte_setLE_ne _ (by omega), byte_putEntry_ne _ _ _ _ _ (by omega)]
    | cons e' rest =>
      rw [packEnts, ih (by omega), byte_setLE_ne _ (by omega), byte_putEntry_ne _ _ _ _ _ (by omega)]

theorem packEnts_spec {l : List Ent} (hne : l ≠ []) (hname : ∀ e ∈ l, e.1.length ≤ 255)
    (hino : ∀ e ∈ l, e.2 < 2 ^ 64 ∧ e.2 ≠ 0) {off : ℕ} (halign : off % 8 = 0)
    (hlen : off + entsLen l ≤ 4096) (blk : Block) :
    ∃ offs, Tiles (packEnts off l blk) off 4096 offs ∧
      offs.filterMap (recEnt (packEnts off l blk)) = l := by
  induction l generalizing off blk with
  | nil => exact absurd rfl hne
  | cons e rest ih =>
    have hn := hname e List.mem_cons_self
    obtain ⟨hc, hc0⟩ := hino e List.mem_cons_self
    rw [entsLen, List.map_cons, List.sum_cons] at hlen
    have hmod := align8_mod (12 + e.1.length)
    cases rest with
    | nil =>
      rw [List.map_nil, List.sum_nil] at hlen
      obtain ⟨ht, hent⟩ := @fresh_spec blk off e.2 (4096 - off) 4096 e.1 CFS_FT_REG hn hc hc0
        (by omega) (by omega) (by omega) (by omega)
      rw [packEnts]
      refine ⟨[off], ht, ?_⟩
      rw [List.filterMap_cons, hent, List.filterMap_nil]
    | cons e' rest =>
      obtain ⟨ht, hent⟩ := @fresh_spec blk off e.2 (align8 (12 + e.1.length))
        (off + align8 (12 + e.1.length)) e.1 CFS_FT_REG hn hc hc0 (by omega) hmod rfl (by omega)
      obtain ⟨offs, hoffs, hents⟩ := ih (by simp) (fun x hx => hname x (List.mem_cons_of_mem _ hx))
        (fun x hx => hino x (List.mem_cons_of_mem _ hx))
        (show (off + align8 (12 + e.1.length)) % 8 = 0 by omega) (by rw [entsLen]; omega)
        ((putEntry blk off e.2 CFS_FT_REG e.1).setLE (off + 8) 2 (align8 (12 + e.1.length)))
      rw [packEnts]
      -- the first record lies below the bytes that the rest of the list writes
      obtain ⟨ht', hent'⟩ := ht.congr _ fun i h1 h2 => packEnts_byte (e' :: rest) h2 _
      refine ⟨[off] ++ offs, ht'.append hoffs, ?_⟩
      have hfirst : [off].filterMap (recEnt ((putEntry blk off e.2 CFS_FT_REG e.1).setLE (off + 8) 2
          (align8 (12 + e.1.length)))) = [e] := by
        rw [List.filterMap_cons, hent, List.filterMap_nil]
      rw [List.filterMap_append, hent', hfirst, hents, List.singleton_append]

/-- A directory block with the given entries. -/
def packDir (l : List Ent) : Block := packEnts 0 l zero

theorem packDir_spec {l : List Ent} (hne : l ≠ []) (hname : ∀ e ∈ l, e.1.length ≤ 255)
    (hino : ∀ e ∈ l, e.2 < 2 ^ 64 ∧ e.2 ≠ 0) (hlen : entsLen l ≤ 4096) :
    Tiled (packDir l) ∧ dirEnts (packDir l) = l := by
  obtain ⟨offs, ht, hents⟩ := packEnts_spec hne hname hino (show 0 % 8 = 0 by omega) (by omega) zero
  obtain ⟨htiled, hrecs⟩ := ht.tiled
  refine ⟨htiled, ?_⟩
  rw [packDir, dirEnts, hrecs]
  exact hents

/-- The structures of a volume stay inside its geometry. -/
structure Vol.Within (g : Geom) (v : Vol) : Prop where
  bbit : ∀ b, g.totalBlocks ≤ b → v.bbit b = true
  ibit : ∀ n, g.totalInodes ≤ n → v.ibit n = true
  ino : ∀ n, g.totalInodes ≤ n → v.ino n = zero
  data : ∀ b, ¬ g.IsData b → v.data b = zero

theorem Vol.Within.setIno {g : Geom} {v : Vol} (h : v.Within g) {n : ℕ} (hn : n < g.totalInodes)
    (d : DInode) : (v.setIno n d).Within g := by
  refine ⟨h.bbit, h.ibit, fun m hm => ?_, h.data⟩
  rw [Vol.ino_setIno_ne _ _ (by omega)]
  exact h.ino m hm

/-- A disk that holds the volume, with an empty journal. -/
def Vol.encode (g : Geom) (v : Vol) : Disk := fun b =>
  if b = 0 then v.super
  else if b < g.blockBitmapStart then zero
  else if b < g.inodeBitmapStart then
    bitBlock fun i => v.bbit ((b - g.blockBitmapStart) * 32768 + i)
  else if b < g.inodeTableStart then
    bitBlock fun i => v.ibit ((b - g.inodeBitmapStart) * 32768 + i)
  else if b < g.dataStart then
    inodeTableBlock fun k => v.ino ((b - g.inodeTableStart) * 16 + k)
  else v.data b

/-- Every volume inside its geometry is what a disk encodes. -/
theorem image_encode {fs : Fs} {v : Vol} (hg : fs.Wf) (hv : v.Within fs.toGeom)
    (hfb : v.freeBlocks = fs.freeBlocks) (hfi : v.freeInodes = fs.freeInodes) :
    fs.image (v.encode fs.toGeom) = v := by
  have hs := hg.super
  have hb := hg.blockBitmap
  have hi := hg.inodeBitmap
  have ht := hg.inodeTable
  refine Vol.ext ?_ ?_ ?_ ?_ ?_ hfb.symm hfi.symm
  · simp only [Fs.image, Vol.encode, if_true]
  · funext b
    simp only [Fs.image]
    split
    · rw [Vol.encode, if_neg (by omega), if_neg (by omega), if_pos (by omega),
        bit_bitBlock _ (by omega)]
      congr 1
      omega
    · rw [hv.bbit b (by omega)]
  · funext n
    simp only [Fs.image]
    split
    · rw [Vol.encode, if_neg (by omega), if_neg (by omega), if_neg (by omega), if_pos (by omega),
        bit_bitBlock _ (by omega)]
      congr 1
      omega
    · rw [hv.ibit n (by omega)]
  · funext n
    simp only [Fs.image, hg.inodeBlock_eq, hg.inodeOff_eq]
    split
    · rw [Vol.encode, if_neg (by omega), if_neg (by omega), if_neg (by omega), if_neg (by omega),
        if_pos (by omega), show n * 256 % 4096 = 256 * (n % 16) by omega,
        sub_inodeTableBlock _ (by omega)]
      congr 1
      omega
    · rw [hv.ino n (by omega)]
  · funext b
    simp only [Fs.image]
    by_cases hd : fs.IsData b
    · obtain ⟨h1, h2⟩ := hd
      rw [if_pos ⟨h1, h2⟩, Vol.encode, if_neg (by omega), if_neg (by omega), if_neg (by omega),
        if_neg (by omega), if_neg (by omega)]
    · rw [if_neg hd, hv.data b hd]

/-- A mounted volume on a device that never fails. -/
def Vol.mounted (g : Geom) (v : Vol) : St :=
  { disk := v.encode g, rd := fun _ => true, wr := fun _ => .ok,
    fs := { g with freeBlocks := v.freeBlocks, freeInodes := v.freeInodes, csumOk := true },
    txnActive := false, txn := [], txnFreeBlocks := 0, txnFreeInodes := 0, jseq := 1, lost := false }

theorem Vol.mounted_idle (g : Geom) (v : Vol) : (v.mounted g).Idle g := ⟨⟨rfl, rfl⟩, rfl⟩

theorem Vol.mounted_vol {g : Geom} {v : Vol} (hg : g.Wf) (hv : v.Within g) :
    (v.mounted g).vol = v := by
  have hview : (v.mounted g).view = v.encode g := (Vol.mounted_idle g v).view_eq
  rw [St.vol, hview]
  exact image_encode hg hv rfl rfl

end ComputerOS.Cfs
