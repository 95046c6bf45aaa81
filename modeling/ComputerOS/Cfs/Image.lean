import ComputerOS.Cfs.Core

/-!
A volume as the structures its blocks encode: the superblock, the two bitmaps, the
inode table, the data blocks and the free counts. The regions of a well-formed
geometry are disjoint, so each metadata write of the core changes one of these
structures in one place. Everything above this module reasons about volumes only.
-/
namespace ComputerOS.Cfs

open Bytes Function

/-- The regions as `cfs_format` lays them out, all of it addressable. -/
structure Geom.Wf (g : Geom) : Prop where
  inodeSize : g.inodeSize = 256
  rootIno : g.rootIno = CFS_ROOT_INO
  root_lt : CFS_ROOT_INO < g.totalInodes
  super : 0 < g.blockBitmapStart
  journal : g.journalStart ≠ 0 → g.journalStart + g.journalBlocks ≤ g.blockBitmapStart
  blockBitmap : g.blockBitmapStart + (g.totalBlocks + 32767) / 32768 ≤ g.inodeBitmapStart
  inodeBitmap : g.inodeBitmapStart + (g.totalInodes + 32767) / 32768 ≤ g.inodeTableStart
  inodeTable : g.inodeTableStart + (g.totalInodes * 256 + 4095) / 4096 ≤ g.dataStart
  dataStart : g.dataStart ≤ g.totalBlocks
  sectors : 8 * g.totalBlocks < 2 ^ 64
  tableBytes : g.totalInodes * 256 < 2 ^ 64
  journalAt : g.journalBlocks ≠ 0 → g.journalStart ≠ 0

/-- What the blocks of a volume encode. Outside the volume every bit counts as
set, and there are no inodes and no data. -/
@[ext] structure Vol where
  super : Block
  bbit : ℕ → Bool
  ibit : ℕ → Bool
  ino : ℕ → DInode
  data : ℕ → Block
  freeBlocks : ℕ
  freeInodes : ℕ

namespace Vol

def setIno (v : Vol) (n : ℕ) (d : DInode) : Vol := { v with ino := update v.ino n d }

def setData (v : Vol) (b : ℕ) (blk : Block) : Vol := { v with data := update v.data b blk }

def setBbit (v : Vol) (b : ℕ) (val : Bool) : Vol := { v with bbit := update v.bbit b val }

def setIbit (v : Vol) (n : ℕ) (val : Bool) : Vol := { v with ibit := update v.ibit n val }

def setSuper (v : Vol) (sb : Block) : Vol := { v with super := sb }

def setFree (v : Vol) (c : ℕ × ℕ) : Vol := { v with freeBlocks := c.1, freeInodes := c.2 }

theorem ino_setIno_same (v : Vol) (n : ℕ) (d : DInode) : (v.setIno n d).ino n = d := by
  simp [setIno]

theorem ino_setIno_ne (v : Vol) {n m : ℕ} (d : DInode) (h : m ≠ n) : (v.setIno n d).ino m = v.ino m := by
  simp [setIno, h]

end Vol

/-- Block `b` holds file or directory contents. -/
def Geom.IsData (g : Geom) (b : ℕ) : Prop := g.dataStart ≤ b ∧ b < g.totalBlocks

instance (g : Geom) (b : ℕ) : Decidable (g.IsData b) := inferInstanceAs (Decidable (_ ∧ _))

/-- The volume that blocks `V` encode under the mount structure `fs`. -/
def Fs.image (fs : Fs) (V : ℕ → Block) : Vol where
  super := V 0
  bbit b := if b < fs.totalBlocks then (V (fs.blockBitmapStart + b / 32768)).bit
    (b % 32768) else true
  ibit n := if n < fs.totalInodes then (V (fs.inodeBitmapStart + n / 32768)).bit
    (n % 32768) else true
  ino n := if n < fs.totalInodes then (V (fs.inodeBlock n)).sub (fs.inodeOff n) else zero
  data b := if fs.IsData b then V b else zero
  freeBlocks := fs.freeBlocks
  freeInodes := fs.freeInodes

/-- The volume as the core sees it in state `s`. -/
def St.vol (s : St) : Vol := s.fs.image s.view

section Regions

variable {fs : Fs} {V W : ℕ → Block}

theorem Geom.Wf.inodeBlock_eq (hg : fs.Wf) (n : ℕ) :
    fs.inodeBlock n = fs.inodeTableStart + n * 256 / 4096 := by
  rw [Geom.inodeBlock, hg.inodeSize]

theorem Geom.Wf.inodeOff_eq (hg : fs.Wf) (n : ℕ) : fs.inodeOff n = n * 256 % 4096 := by
  rw [Geom.inodeOff, hg.inodeSize]

theorem update_block_ne (V : ℕ → Block) {b x : ℕ} (v : Block) (h : x ≠ b) :
    update V b v x = V x := update_of_ne h v V

theorem image_bbit_congr
    (h : ∀ x, fs.blockBitmapStart ≤ x →
      x < fs.blockBitmapStart + (fs.totalBlocks + 32767) / 32768 → V x = W x) :
    (fs.image V).bbit = (fs.image W).bbit := by
  funext b
  simp only [Fs.image]
  split
  · rw [h _ (by omega) (by omega)]
  · rfl

theorem image_ibit_congr
    (h : ∀ x, fs.inodeBitmapStart ≤ x →
      x < fs.inodeBitmapStart + (fs.totalInodes + 32767) / 32768 → V x = W x) :
    (fs.image V).ibit = (fs.image W).ibit := by
  funext n
  simp only [Fs.image]
  split
  · rw [h _ (by omega) (by omega)]
  · rfl

theorem image_ino_congr (hg : fs.Wf)
    (h : ∀ x, fs.inodeTableStart ≤ x →
      x < fs.inodeTableStart + (fs.totalInodes * 256 + 4095) / 4096 → V x = W x) :
    (fs.image V).ino = (fs.image W).ino := by
  funext n
  simp only [Fs.image, hg.inodeBlock_eq]
  split
  · rw [h _ (by omega) (by omega)]
  · rfl

theorem image_data_congr (h : ∀ x, fs.IsData x → V x = W x) :
    (fs.image V).data = (fs.image W).data := by
  funext b
  simp only [Fs.image]
  split
  · next hd => exact h b hd
  · rfl

/-- Blocks that agree outside the journal encode the same volume. -/
theorem image_congr (hg : fs.Wf) (h0 : V 0 = W 0)
    (h : ∀ b, fs.blockBitmapStart ≤ b → b < fs.totalBlocks → V b = W b) :
    fs.image V = fs.image W := by
  have hb := hg.blockBitmap
  have hi := hg.inodeBitmap
  have ht := hg.inodeTable
  have hd := hg.dataStart
  refine Vol.ext h0 (image_bbit_congr ?_) (image_ibit_congr ?_) (image_ino_congr hg ?_)
    (image_data_congr ?_) rfl rfl
  · exact fun x h1 h2 => h x (by omega) (by omega)
  · exact fun x h1 h2 => h x (by omega) (by omega)
  · exact fun x h1 h2 => h x (by omega) (by omega)
  · rintro x ⟨h1, h2⟩
    exact h x (by omega) h2

theorem image_update_super (hg : fs.Wf) (sb : Block) :
    fs.image (update V 0 sb) = (fs.image V).setSuper sb := by
  have hb := hg.blockBitmap
  have hi := hg.inodeBitmap
  have ht := hg.inodeTable
  have hs := hg.super
  refine Vol.ext (by simp [Fs.image, Vol.setSuper]) (image_bbit_congr ?_) (image_ibit_congr ?_)
    (image_ino_congr hg ?_) (image_data_congr ?_) rfl rfl
  · exact fun x h1 h2 => update_block_ne V sb (by omega)
  · exact fun x h1 h2 => update_block_ne V sb (by omega)
  · exact fun x h1 h2 => update_block_ne V sb (by omega)
  · rintro x ⟨h1, h2⟩
    exact update_block_ne V sb (by omega)

theorem image_update_data (hg : fs.Wf) {b : ℕ} (hd : fs.IsData b) (v : Block) :
    fs.image (update V b v) = (fs.image V).setData b v := by
  have hb := hg.blockBitmap
  have hi := hg.inodeBitmap
  have ht := hg.inodeTable
  have hs := hg.super
  obtain ⟨hlo, hhi⟩ := hd
  refine Vol.ext ?_ (image_bbit_congr ?_) (image_ibit_congr ?_) (image_ino_congr hg ?_) ?_ rfl rfl
  · exact update_block_ne V v (by omega)
  · exact fun x h1 h2 => update_block_ne V v (by omega)
  · exact fun x h1 h2 => update_block_ne V v (by omega)
  · exact fun x h1 h2 => update_block_ne V v (by omega)
  · funext i
    by_cases h : i = b
    · subst h
      simp [Fs.image, Vol.setData, Geom.IsData, hlo, hhi]
    · simp [Fs.image, Vol.setData, h]

/-- One bit of the bitmap that begins at block `start` gets a new value. -/
theorem bitmap_update (V : ℕ → Block) {start total i : ℕ} (hlt : i < total) (val : Bool) :
    (fun b => if b < total then (update V (start + i / 32768)
        ((V (start + i / 32768)).setBit (i % 32768) val) (start + b / 32768)).bit (b % 32768) else true) =
      update (fun b => if b < total then (V (start + b / 32768)).bit (b % 32768) else true) i val := by
  funext b
  by_cases h : b = i
  · subst h
    rw [update_self, update_self, if_pos hlt, bit_setBit _ _ (by omega), if_pos rfl]
  · rw [update_of_ne h]
    by_cases hblk : b / 32768 = i / 32768
    · have hne : ¬ i % 32768 = b % 32768 := by omega
      rw [hblk, update_self, bit_setBit _ _ (by omega), if_neg hne]
    · rw [update_of_ne (by omega)]

theorem image_update_bbit (hg : fs.Wf) {b : ℕ} (hlt : b < fs.totalBlocks) (val : Bool) :
    fs.image (update V (fs.blockBitmapStart + b / 32768)
      ((V (fs.blockBitmapStart + b / 32768)).setBit (b % 32768) val)) =
    (fs.image V).setBbit b val := by
  have hb := hg.blockBitmap
  have hi := hg.inodeBitmap
  have ht := hg.inodeTable
  have hs := hg.super
  refine Vol.ext (update_block_ne V _ (by omega)) (bitmap_update V hlt val) (image_ibit_congr ?_)
    (image_ino_congr hg ?_) (image_data_congr ?_) rfl rfl
  · exact fun x h1 h2 => update_block_ne V _ (by omega)
  · exact fun x h1 h2 => update_block_ne V _ (by omega)
  · rintro x ⟨h1, h2⟩
    exact update_block_ne V _ (by omega)

theorem image_update_ibit (hg : fs.Wf) {n : ℕ} (hlt : n < fs.totalInodes) (val : Bool) :
    fs.image (update V (fs.inodeBitmapStart + n / 32768)
      ((V (fs.inodeBitmapStart + n / 32768)).setBit (n % 32768) val)) =
    (fs.image V).setIbit n val := by
  have hb := hg.blockBitmap
  have hi := hg.inodeBitmap
  have ht := hg.inodeTable
  have hs := hg.super
  refine Vol.ext (update_block_ne V _ (by omega)) (image_bbit_congr ?_) (bitmap_update V hlt val)
    (image_ino_congr hg ?_) (image_data_congr ?_) rfl rfl
  · exact fun x h1 h2 => update_block_ne V _ (by omega)
  · exact fun x h1 h2 => update_block_ne V _ (by omega)
  · rintro x ⟨h1, h2⟩
    exact update_block_ne V _ (by omega)

theorem image_update_ino (hg : fs.Wf) {n : ℕ} (hlt : n < fs.totalInodes) (d : DInode) :
    fs.image (update V (fs.inodeBlock n) ((V (fs.inodeBlock n)).paste (fs.inodeOff n) d)) =
    (fs.image V).setIno n d := by
  have hb := hg.blockBitmap
  have hi := hg.inodeBitmap
  have ht := hg.inodeTable
  have hs := hg.super
  have hblock := hg.inodeBlock_eq
  rw [hblock n, hg.inodeOff_eq n]
  refine Vol.ext (update_block_ne V _ (by omega)) (image_bbit_congr ?_) (image_ibit_congr ?_) ?_
    (image_data_congr ?_) rfl rfl
  · exact fun x h1 h2 => update_block_ne V _ (by omega)
  · exact fun x h1 h2 => update_block_ne V _ (by omega)
  · funext m
    simp only [Fs.image, Vol.setIno, hblock, hg.inodeOff_eq]
    by_cases h : m = n
    · subst h
      rw [if_pos hlt, update_self, update_self, sub_paste_same _ _ (by omega)]
    · rw [update_of_ne h]
      by_cases hblk : m * 256 / 4096 = n * 256 / 4096
      · rw [hblk, update_self, sub_paste_ne _ _ (by omega)]
      · rw [update_of_ne (by omega)]
  · rintro x ⟨h1, h2⟩
    exact update_block_ne V _ (by omega)

end Regions

end ComputerOS.Cfs
