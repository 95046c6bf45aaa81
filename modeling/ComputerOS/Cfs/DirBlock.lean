import ComputerOS.Cfs.Dir

/-!
Directory blocks as lists of entries. The records of a well-formed block tile it;
adding an entry reuses or splits one record and inserts the entry at its place, and
removing an entry widens the record before it or marks the first one free.
-/
namespace ComputerOS.Cfs

open Bytes

/-- A directory entry: a name and the inode it names. -/
abbrev Ent := Name × ℕ

/-- The entry of the record at `off`, if the record is live. -/
def recEnt (blk : Block) (off : ℕ) : Option Ent :=
  if Dirent.inode blk off = 0 then none else some (Dirent.name blk off, Dirent.inode blk off)

/-- The entries of a block, in order. -/
def dirEnts (blk : Block) : List Ent := (dirRecs blk 0).filterMap (recEnt blk)

structure GoodRec (blk : Block) (off : ℕ) : Prop where
  aligned : Dirent.recLen blk off % 8 = 0
  header : 12 ≤ Dirent.recLen blk off
  fits : Dirent.inode blk off ≠ 0 → usedLen blk off ≤ Dirent.recLen blk off

/-- The records at `offs` tile the bytes from `a` to `z`. -/
inductive Tiles (blk : Block) : ℕ → ℕ → List ℕ → Prop
  | nil (a : ℕ) : Tiles blk a a []
  | cons {a z : ℕ} {offs : List ℕ} (h : GoodRec blk a)
      (rest : Tiles blk (a + Dirent.recLen blk a) z offs) : Tiles blk a z (a :: offs)

def Tiled (blk : Block) : Prop := Tiles blk 0 4096 (dirRecs blk 0)

namespace Tiles

variable {blk blk' : Block} {a m z : ℕ} {offs pre post : List ℕ}

theorem le (h : Tiles blk a z offs) : a ≤ z := by
  induction h with
  | nil a => exact le_refl a
  | cons _ _ ih => omega

theorem append (h₁ : Tiles blk a m pre) (h₂ : Tiles blk m z post) : Tiles blk a z (pre ++ post) := by
  induction h₁ with
  | nil a => exact h₂
  | cons hrec _ ih => exact .cons hrec (ih h₂)

theorem split (h : Tiles blk a z (pre ++ post)) : ∃ m, Tiles blk a m pre ∧ Tiles blk m z post := by
  induction pre generalizing a with
  | nil => exact ⟨a, .nil a, h⟩
  | cons o pre ih =>
    rw [List.cons_append] at h
    cases h with
    | cons hrec rest =>
      obtain ⟨m, h₁, h₂⟩ := ih rest
      exact ⟨m, .cons hrec h₁, h₂⟩

/-- A tiled tail of the block is what the walk visits. -/
theorem dirRecs_eq (h : Tiles blk a 4096 offs) : dirRecs blk a = offs := by
  generalize hz : 4096 = z at h
  induction h with
  | nil a =>
    subst hz
    rw [dirRecs, if_neg (by omega)]
  | @cons a z offs hrec rest ih =>
    subst hz
    have hle := rest.le
    have hlen := hrec.header
    rw [dirRecs, if_pos (by omega), dif_neg (by omega), ih rfl]

theorem tiled (h : Tiles blk 0 4096 offs) : Tiled blk ∧ dirRecs blk 0 = offs := by
  have heq := h.dirRecs_eq
  refine ⟨?_, heq⟩
  unfold Tiled
  rw [heq]
  exact h

end Tiles

section Congr

variable {blk blk' : Block} {a z : ℕ} {offs : List ℕ}

theorem inode_congr {off : ℕ} (h : ∀ i, off ≤ i → i < off + 8 → blk'.byte i = blk.byte i) :
    Dirent.inode blk' off = Dirent.inode blk off :=
  getLE_congr fun i hi => h (off + i) (by omega) (by omega)

theorem recLen_congr {off : ℕ} (h : ∀ i, off + 8 ≤ i → i < off + 10 → blk'.byte i = blk.byte i) :
    Dirent.recLen blk' off = Dirent.recLen blk off :=
  getLE_congr fun i hi => h (off + 8 + i) (by omega) (by omega)

theorem nameLen_congr {off : ℕ} (h : ∀ i, off + 10 ≤ i → i < off + 11 → blk'.byte i = blk.byte i) :
    Dirent.nameLen blk' off = Dirent.nameLen blk off :=
  getLE_congr fun i hi => h (off + 10 + i) (by omega) (by omega)

/-- A live record's entry is determined by the bytes the record uses, its length apart. -/
theorem recEnt_congr {off : ℕ} (h1 : ∀ i, off ≤ i → i < off + 8 → blk'.byte i = blk.byte i)
    (h2 : Dirent.inode blk off ≠ 0 →
      ∀ i, off + 10 ≤ i → i < off + usedLen blk off → blk'.byte i = blk.byte i) :
    recEnt blk' off = recEnt blk off := by
  have hino := inode_congr h1
  unfold recEnt
  rw [hino]
  by_cases hz : Dirent.inode blk off = 0
  · rw [if_pos hz, if_pos hz]
  · have hused := le_align8 (12 + Dirent.nameLen blk off)
    have hlen : Dirent.nameLen blk' off = Dirent.nameLen blk off :=
      nameLen_congr fun i h3 h4 => h2 hz i (by omega) (by unfold usedLen; omega)
    have hname : Dirent.name blk' off = Dirent.name blk off := by
      unfold Dirent.name
      rw [hlen]
      exact slice_congr fun i hi => h2 hz (off + 12 + i) (by omega) (by unfold usedLen; omega)
    rw [if_neg hz, if_neg hz, hname]

theorem GoodRec.congr {off : ℕ} (hrec : GoodRec blk off)
    (h : ∀ i, off ≤ i → i < off + Dirent.recLen blk off → blk'.byte i = blk.byte i) :
    GoodRec blk' off ∧ Dirent.recLen blk' off = Dirent.recLen blk off ∧
      recEnt blk' off = recEnt blk off := by
  have hhdr := hrec.header
  have hlen : Dirent.recLen blk' off = Dirent.recLen blk off :=
    recLen_congr fun i h1 h2 => h i (by omega) (by omega)
  have hino : Dirent.inode blk' off = Dirent.inode blk off :=
    inode_congr fun i h1 h2 => h i (by omega) (by omega)
  have hnl : Dirent.nameLen blk' off = Dirent.nameLen blk off :=
    nameLen_congr fun i h1 h2 => h i (by omega) (by omega)
  refine ⟨⟨by rw [hlen]; exact hrec.aligned, by rw [hlen]; exact hhdr, ?_⟩, hlen, ?_⟩
  · rw [hino, hlen]
    unfold usedLen
    rw [hnl]
    exact hrec.fits
  · refine recEnt_congr (fun i h1 h2 => h i h1 (by omega)) fun hz i h1 h2 => ?_
    have hfits := hrec.fits hz
    exact h i (by omega) (by omega)

theorem Tiles.congr (t : Tiles blk a z offs) (blk' : Block)
    (h : ∀ i, a ≤ i → i < z → blk'.byte i = blk.byte i) :
    Tiles blk' a z offs ∧ offs.filterMap (recEnt blk') = offs.filterMap (recEnt blk) := by
  induction t with
  | nil a => exact ⟨.nil a, by rw [List.filterMap_nil, List.filterMap_nil]⟩
  | @cons a z offs hrec rest ih =>
    have hle := rest.le
    obtain ⟨hgood, hlen, hent⟩ := hrec.congr fun i h1 h2 => h i h1 (by omega)
    obtain ⟨htail, hents⟩ := ih fun i h1 h2 => h i (by omega) h2
    refine ⟨.cons hgood (by rw [hlen]; exact htail), ?_⟩
    rw [List.filterMap_cons, List.filterMap_cons, hent, hents]

end Congr

section PutEntry

variable (blk : Block) (off child type : ℕ) (name : Name)

theorem byte_putEntry_ne {i : ℕ} (h : i < off ∨ off + 12 + name.length ≤ i) :
    (putEntry blk off child type name).byte i = blk.byte i := by
  unfold putEntry
  rw [byte_put_of_not _ (by omega), byte_setLE_ne _ (by omega), byte_setLE_ne _ (by omega),
    byte_setLE_ne _ (by omega)]

theorem recLen_putEntry : Dirent.recLen (putEntry blk off child type name) off =
    Dirent.recLen blk off := by
  unfold putEntry Dirent.recLen
  rw [getLE_put_ne _ (by omega), getLE_setLE_ne _ (by omega), getLE_setLE_ne _ (by omega),
    getLE_setLE_ne _ (by omega)]

theorem inode_putEntry (h : off + 12 ≤ 4096) (hc : child < 2 ^ 64) :
    Dirent.inode (putEntry blk off child type name) off = child := by
  unfold putEntry Dirent.inode
  rw [getLE_put_ne _ (by omega), getLE_setLE_ne _ (by omega), getLE_setLE_ne _ (by omega),
    getLE_setLE_same _ _ (by omega)]
  exact Nat.mod_eq_of_lt (by omega)

theorem nameLen_putEntry (h : off + 12 ≤ 4096) (hn : name.length ≤ 255) :
    Dirent.nameLen (putEntry blk off child type name) off = name.length := by
  unfold putEntry Dirent.nameLen
  rw [getLE_put_ne _ (by omega), getLE_setLE_ne _ (by omega), getLE_setLE_same _ _ (by omega)]
  exact Nat.mod_eq_of_lt (by omega)

theorem name_putEntry (h : off + 12 + name.length ≤ 4096) (hn : name.length ≤ 255) :
    Dirent.name (putEntry blk off child type name) off = name := by
  unfold Dirent.name
  rw [nameLen_putEntry blk off child type name (by omega) hn]
  unfold putEntry
  exact slice_put_same _ _ _ h

theorem recEnt_putEntry (h : off + 12 + name.length ≤ 4096) (hn : name.length ≤ 255)
    (hc : child < 2 ^ 64) (hz : child ≠ 0) :
    recEnt (putEntry blk off child type name) off = some (name, child) := by
  unfold recEnt
  rw [inode_putEntry blk off child type name (by omega) hc, if_neg hz,
    name_putEntry blk off child type name h hn]

end PutEntry

section Add

variable {blk : Block} {off child : ℕ} {name : Name}

/-- Reusing a free record puts the entry in its place. -/
theorem reuse_spec {z : ℕ} (type : ℕ) (hrec : GoodRec blk off)
    (hz : off + Dirent.recLen blk off = z) (hle : z ≤ 4096)
    (hroom : align8 (12 + name.length) ≤ Dirent.recLen blk off) (hn : name.length ≤ 255)
    (hc : child < 2 ^ 64) (hc0 : child ≠ 0) :
    Tiles (putEntry blk off child type name) off z [off] ∧
      recEnt (putEntry blk off child type name) off = some (name, child) := by
  have hlen := le_align8 (12 + name.length)
  have hent := recEnt_putEntry blk off child type name (by omega) hn hc hc0
  have hrl := recLen_putEntry blk off child type name
  refine ⟨.cons ⟨by rw [hrl]; exact hrec.aligned, by rw [hrl]; exact hrec.header, fun _ => ?_⟩ ?_, hent⟩
  · unfold usedLen
    rw [nameLen_putEntry blk off child type name (by omega) hn, hrl]
    exact hroom
  · rw [hrl, hz]
    exact .nil z

/-- The block with the record at `off` cut down to what it uses and a record of the
rest behind it, before the new entry is written there. -/
def splitRec (blk : Block) (off : ℕ) : Block :=
  (Dirent.setRecLen blk off (usedLen blk off)).setLE (off + usedLen blk off + 8) 2
    (Dirent.recLen blk off - usedLen blk off)

theorem byte_splitRec {i : ℕ} (h1 : i < off + 8 ∨ off + 10 ≤ i)
    (h2 : i < off + usedLen blk off + 8 ∨ off + usedLen blk off + 10 ≤ i) :
    (splitRec blk off).byte i = blk.byte i := by
  unfold splitRec
  rw [byte_setLE_ne _ (by omega), Dirent.setRecLen, byte_setLE_ne _ (by omega)]

theorem recLen_splitRec (h : off + 12 ≤ 4096) :
    Dirent.recLen (splitRec blk off) off = usedLen blk off := by
  have hused := le_align8 (12 + Dirent.nameLen blk off)
  have hlt := align8_lt (12 + Dirent.nameLen blk off)
  have hnl : Dirent.nameLen blk off < 256 ^ 1 := getLE_lt blk (off + 10) 1
  unfold splitRec Dirent.recLen
  rw [getLE_setLE_ne _ (by unfold usedLen; omega), Dirent.setRecLen, getLE_setLE_same _ _ (by omega)]
  exact Nat.mod_eq_of_lt (by unfold usedLen; omega)

theorem recLen_splitRec_new (h : off + usedLen blk off + 12 ≤ 4096) :
    Dirent.recLen (splitRec blk off) (off + usedLen blk off) =
      Dirent.recLen blk off - usedLen blk off := by
  have hlt : Dirent.recLen blk off < 256 ^ 2 := getLE_lt blk (off + 8) 2
  unfold splitRec
  rw [Dirent.recLen, getLE_setLE_same _ _ (by omega)]
  exact Nat.mod_eq_of_lt (by omega)

/-- Splitting a live record keeps its entry and puts the new one behind it. -/
theorem split_spec {z : ℕ} (type : ℕ) (hrec : GoodRec blk off) (hlive : Dirent.inode blk off ≠ 0)
    (hz : off + Dirent.recLen blk off = z) (hle : z ≤ 4096)
    (hroom : align8 (12 + name.length) ≤ Dirent.recLen blk off - usedLen blk off)
    (hn : name.length ≤ 255) (hc : child < 2 ^ 64) (hc0 : child ≠ 0) :
    Tiles (putEntry (splitRec blk off) (off + usedLen blk off) child type name) off z
        [off, off + usedLen blk off] ∧
      recEnt (putEntry (splitRec blk off) (off + usedLen blk off) child type name) off =
        recEnt blk off ∧
      recEnt (putEntry (splitRec blk off) (off + usedLen blk off) child type name)
        (off + usedLen blk off) = some (name, child) := by
  have hused := le_align8 (12 + Dirent.nameLen blk off)
  have hfits := hrec.fits hlive
  have hlen := le_align8 (12 + name.length)
  have hmod := align8_mod (12 + Dirent.nameLen blk off)
  have halign := hrec.aligned
  have husedEq : usedLen blk off = align8 (12 + Dirent.nameLen blk off) := rfl
  generalize hu : usedLen blk off = u at *
  -- below the new record only the length field of the old one has changed
  have hbyte : ∀ i, i < off + u → (i < off + 8 ∨ off + 10 ≤ i) →
      (putEntry (splitRec blk off) (off + u) child type name).byte i = blk.byte i := by
    intro i h1 h2
    rw [byte_putEntry_ne _ _ _ _ _ (by omega), byte_splitRec h2 (by omega)]
  have hrl : Dirent.recLen (putEntry (splitRec blk off) (off + u) child type name) off = u := by
    have hold := @recLen_splitRec blk off (by omega)
    rw [hu] at hold
    exact (recLen_congr fun i h1 h2 => byte_putEntry_ne _ _ _ _ _ (by omega)).trans hold
  have hino : Dirent.inode (putEntry (splitRec blk off) (off + u) child type name) off =
      Dirent.inode blk off := inode_congr fun i h1 h2 => hbyte i (by omega) (by omega)
  have hnl : Dirent.nameLen (putEntry (splitRec blk off) (off + u) child type name) off =
      Dirent.nameLen blk off := nameLen_congr fun i h1 h2 => hbyte i (by omega) (by omega)
  have hrl' : Dirent.recLen (putEntry (splitRec blk off) (off + u) child type name) (off + u) =
      Dirent.recLen blk off - u := by
    rw [recLen_putEntry, ← hu, recLen_splitRec_new (by omega)]
  have hent := recEnt_putEntry (splitRec blk off) (off + u) child type name (by omega) hn hc hc0
  refine ⟨.cons ⟨?_, ?_, fun _ => ?_⟩ ?_, ?_, hent⟩
  · rw [hrl]
    omega
  · rw [hrl]
    omega
  · rw [hrl]
    unfold usedLen
    rw [hnl]
    omega
  · rw [hrl]
    refine .cons ⟨?_, ?_, fun _ => ?_⟩ ?_
    · rw [hrl']
      omega
    · rw [hrl']
      omega
    · rw [hrl']
      unfold usedLen
      rw [nameLen_putEntry _ _ _ _ _ (by omega) hn]
      exact hroom
    · rw [hrl', show off + u + (Dirent.recLen blk off - u) = z by omega]
      exact .nil z
  · refine recEnt_congr (fun i h1 h2 => hbyte i (by omega) (by omega)) fun _ i h1 h2 => ?_
    rw [hu] at h2
    exact hbyte i h2 (by omega)

/-- Adding an entry to the record `dir_add` finds inserts it into the block's entries. -/
theorem addAt_spec (type : ℕ) (ht : Tiled blk) (hn : name.length ≤ 255)
    (hc : child < 2 ^ 64) (hc0 : child ≠ 0)
    (hfind : (dirRecs blk 0).find? (fitsAt blk (align8 (12 + name.length))) = some off) :
    Tiled (addAt blk off child type name) ∧
      ∃ l₁ l₂, dirEnts blk = l₁ ++ l₂ ∧
        dirEnts (addAt blk off child type name) = l₁ ++ (name, child) :: l₂ := by
  obtain ⟨hfit, pre, post, hrecs, -⟩ := List.find?_eq_some_iff_append.mp hfind
  have ht' := ht
  unfold Tiled at ht'
  rw [hrecs] at ht'
  obtain ⟨m, hpre, hrest⟩ := ht'.split
  cases hrest with
  | @cons _ _ _ hrec hpost =>
    have hle := hpost.le
    have hents : dirEnts blk = pre.filterMap (recEnt blk) ++
        ((recEnt blk off).toList ++ post.filterMap (recEnt blk)) := by
      rw [dirEnts, hrecs, List.filterMap_append, List.filterMap_cons]
      cases recEnt blk off <;> rfl
    have hlen := le_align8 (12 + name.length)
    by_cases hfree : Dirent.inode blk off = 0
    · have hroom : align8 (12 + name.length) ≤ Dirent.recLen blk off := by
        simpa [fitsAt, hfree] using hfit
      have hadd : addAt blk off child type name = putEntry blk off child type name := by
        rw [addAt, if_pos hfree]
      rw [hadd]
      obtain ⟨hmid, hent⟩ := reuse_spec type hrec rfl hle hroom hn hc hc0
      obtain ⟨hpre', hpreEnts⟩ := hpre.congr (putEntry blk off child type name)
        fun i h1 h2 => byte_putEntry_ne _ _ _ _ _ (by omega)
      obtain ⟨hpost', hpostEnts⟩ := hpost.congr (putEntry blk off child type name)
        fun i h1 h2 => byte_putEntry_ne _ _ _ _ _ (by omega)
      obtain ⟨htiled, hrecs'⟩ := (hpre'.append (hmid.append hpost')).tiled
      have hnone : recEnt blk off = none := by rw [recEnt, if_pos hfree]
      refine ⟨htiled, pre.filterMap (recEnt blk), post.filterMap (recEnt blk), ?_, ?_⟩
      · rw [hents, hnone]
        rfl
      · rw [dirEnts, hrecs', List.filterMap_append, List.filterMap_append, hpreEnts, hpostEnts,
          List.filterMap_cons, hent, List.filterMap_nil]
        rfl
    · have hfits := hrec.fits hfree
      have hlt : Dirent.recLen blk off < 256 ^ 2 := getLE_lt blk (off + 8) 2
      have hsub : sub32 (Dirent.recLen blk off) (usedLen blk off) =
          Dirent.recLen blk off - usedLen blk off := by
        unfold sub32
        omega
      have hroom : align8 (12 + name.length) ≤ Dirent.recLen blk off - usedLen blk off := by
        simpa [fitsAt, hfree, hsub] using hfit
      have hadd : addAt blk off child type name =
          putEntry (splitRec blk off) (off + usedLen blk off) child type name := by
        rw [addAt, if_neg hfree, splitRec, ← hsub]
      have hused := le_align8 (12 + Dirent.nameLen blk off)
      have husedEq : usedLen blk off = align8 (12 + Dirent.nameLen blk off) := rfl
      rw [hadd]
      obtain ⟨hmid, hentOld, hentNew⟩ := split_spec type hrec hfree rfl hle hroom hn hc hc0
      obtain ⟨hpre', hpreEnts⟩ := hpre.congr
        (putEntry (splitRec blk off) (off + usedLen blk off) child type name)
        fun i h1 h2 => by
          rw [byte_putEntry_ne _ _ _ _ _ (by omega), byte_splitRec (by omega) (by omega)]
      obtain ⟨hpost', hpostEnts⟩ := hpost.congr
        (putEntry (splitRec blk off) (off + usedLen blk off) child type name)
        fun i h1 h2 => by
          rw [byte_putEntry_ne _ _ _ _ _ (by omega), byte_splitRec (by omega) (by omega)]
      obtain ⟨htiled, hrecs'⟩ := (hpre'.append (hmid.append hpost')).tiled
      refine ⟨htiled, pre.filterMap (recEnt blk) ++ (recEnt blk off).toList,
        post.filterMap (recEnt blk), by rw [hents, List.append_assoc], ?_⟩
      rw [dirEnts, hrecs', List.filterMap_append, List.filterMap_append, hpreEnts, hpostEnts,
        List.filterMap_cons, hentOld, List.filterMap_cons, hentNew, List.filterMap_nil,
        List.append_assoc]
      cases recEnt blk off <;> rfl

end Add

section Remove

variable {blk : Block} {name : Name}

/-- The block without the record at `off`, given the record before it. -/
def dropRec (blk : Block) (off : ℕ) : Option ℕ → Block
  | some p => Dirent.setRecLen blk p (Dirent.recLen blk p + Dirent.recLen blk off)
  | none => Dirent.setInode blk off 0

theorem removeFrom_cons (prev : Option ℕ) (off : ℕ) (rest : List ℕ) :
    removeFrom blk name prev (off :: rest) =
      if nameEq blk name off then some (dropRec blk off prev)
      else removeFrom blk name (some off) rest := by
  rw [removeFrom.eq_def]
  cases prev <;> rfl

/-- `dir_remove` drops the first record that has the name. -/
theorem removeFrom_eq_some {prev : Option ℕ} {offs : List ℕ} {blk' : Block}
    (h : removeFrom blk name prev offs = some blk') :
    ∃ pre off post, offs = pre ++ off :: post ∧ nameEq blk name off = true ∧
      (∀ o ∈ pre, nameEq blk name o = false) ∧
      blk' = dropRec blk off ((pre.getLast?).or prev) := by
  induction offs generalizing prev with
  | nil => simp [removeFrom] at h
  | cons o offs ih =>
    rw [removeFrom_cons] at h
    by_cases hm : nameEq blk name o = true
    · rw [if_pos hm] at h
      exact ⟨[], o, offs, rfl, hm, by simp, (Option.some.inj h).symm⟩
    · rw [if_neg hm] at h
      obtain ⟨pre, off, post, hoffs, hmatch, hpre, hblk⟩ := ih h
      refine ⟨o :: pre, off, post, by rw [hoffs, List.cons_append], hmatch, ?_, ?_⟩
      · intro x hx
        rcases List.mem_cons.mp hx with rfl | hx
        · simpa using hm
        · exact hpre x hx
      · rw [hblk]
        cases hl : pre.getLast? with
        | none =>
          rw [List.getLast?_eq_none_iff] at hl
          subst hl
          simp
        | some p => rw [List.getLast?_cons, hl]; simp

theorem nameEq_iff {off : ℕ} :
    nameEq blk name off = true ↔ recEnt blk off = some (name, Dirent.inode blk off) ∧
      Dirent.inode blk off ≠ 0 := by
  unfold nameEq recEnt Dirent.name
  constructor
  · intro h
    simp only [decide_eq_true_eq, ne_eq] at h
    obtain ⟨h1, h2, h3⟩ := h
    rw [if_neg h1, h2, h3]
    exact ⟨rfl, h1⟩
  · rintro ⟨h1, h2⟩
    rw [if_neg h2] at h1
    simp only [Option.some.injEq, Prod.mk.injEq, and_true] at h1
    have hlen : Dirent.nameLen blk off = name.length := by
      rw [← h1, length_slice]
    simp only [decide_eq_true_eq, ne_eq]
    refine ⟨h2, hlen, ?_⟩
    rw [← hlen, h1]

theorem recEnt_name_ne {off : ℕ} (h : nameEq blk name off = false) {e : Ent}
    (he : recEnt blk off = some e) : e.1 ≠ name := by
  intro hname
  have hlive : Dirent.inode blk off ≠ 0 := by
    intro hz
    simp [recEnt, hz] at he
  have : nameEq blk name off = true := by
    refine nameEq_iff.mpr ⟨?_, hlive⟩
    rw [he, ← hname]
    have h2 : e = (Dirent.name blk off, Dirent.inode blk off) := by
      rw [recEnt, if_neg hlive] at he
      exact (Option.some.inj he).symm
    rw [h2]
  simp [h] at this

/-- Widening the record before it makes a record disappear. -/
theorem widen_spec {p off z : ℕ} (hp : GoodRec blk p) (hoff : GoodRec blk off)
    (hnext : p + Dirent.recLen blk p = off) (hz : off + Dirent.recLen blk off = z) (hle : z ≤ 4096) :
    Tiles (dropRec blk off (some p)) p z [p] ∧
      recEnt (dropRec blk off (some p)) p = recEnt blk p := by
  have hph := hp.header
  have hlen : Dirent.recLen (dropRec blk off (some p)) p =
      Dirent.recLen blk p + Dirent.recLen blk off := by
    rw [Dirent.recLen, dropRec, Dirent.setRecLen, getLE_setLE_same _ _ (by omega)]
    exact Nat.mod_eq_of_lt (by omega)
  have hbyte : ∀ i, (i < p + 8 ∨ p + 10 ≤ i) → (dropRec blk off (some p)).byte i = blk.byte i :=
    fun i h => byte_setLE_ne _ (by omega)
  have hent : recEnt (dropRec blk off (some p)) p = recEnt blk p :=
    recEnt_congr (fun i h1 h2 => hbyte i (by omega)) fun _ i h1 _ => hbyte i (by omega)
  refine ⟨.cons ⟨?_, ?_, fun hlive => ?_⟩ ?_, hent⟩
  · rw [hlen]
    have h1 := hp.aligned
    have h2 := hoff.aligned
    omega
  · rw [hlen]
    omega
  · have hino : Dirent.inode (dropRec blk off (some p)) p = Dirent.inode blk p :=
      inode_congr fun i h1 h2 => hbyte i (by omega)
    have hnl : Dirent.nameLen (dropRec blk off (some p)) p = Dirent.nameLen blk p :=
      nameLen_congr fun i h1 h2 => hbyte i (by omega)
    have hfits := hp.fits (by rwa [hino] at hlive)
    unfold usedLen at hfits ⊢
    rw [hnl, hlen]
    omega
  · rw [hlen, show p + (Dirent.recLen blk p + Dirent.recLen blk off) = z by omega]
    exact .nil z

/-- Marking the record at `off` free takes its entry away. -/
theorem clear_spec {off z : ℕ} (hoff : GoodRec blk off) (hz : off + Dirent.recLen blk off = z)
    (hle : z ≤ 4096) :
    Tiles (dropRec blk off none) off z [off] ∧ recEnt (dropRec blk off none) off = none := by
  have hhdr := hoff.header
  have hino : Dirent.inode (dropRec blk off none) off = 0 := by
    unfold dropRec Dirent.inode Dirent.setInode
    rw [getLE_setLE_same _ _ (by omega)]
    rfl
  have hlen : Dirent.recLen (dropRec blk off none) off = Dirent.recLen blk off :=
    recLen_congr fun i h1 h2 => byte_setLE_ne _ (by omega)
  refine ⟨.cons ⟨by rw [hlen]; exact hoff.aligned, by rw [hlen]; exact hhdr, fun h => absurd hino h⟩ ?_,
    by rw [recEnt, if_pos hino]⟩
  rw [hlen, hz]
  exact .nil z

/-- `dir_remove` takes the first entry with the name out of the block's entries. -/
theorem removeFrom_spec {blk' : Block} (ht : Tiled blk)
    (h : removeFrom blk name none (dirRecs blk 0) = some blk') :
    Tiled blk' ∧ ∃ l₁ c l₂, dirEnts blk = l₁ ++ (name, c) :: l₂ ∧ dirEnts blk' = l₁ ++ l₂ := by
  obtain ⟨pre, off, post, hrecs, hmatch, -, rfl⟩ := removeFrom_eq_some h
  obtain ⟨hent, -⟩ := nameEq_iff.mp hmatch
  have ht' := ht
  unfold Tiled at ht'
  rw [hrecs] at ht'
  obtain ⟨m, hpre, hrest⟩ := ht'.split
  rw [Option.or_none]
  cases hrest with
  | @cons _ _ _ hrec hpost =>
    have hle := hpost.le
    have hents : dirEnts blk = pre.filterMap (recEnt blk) ++
        (name, Dirent.inode blk off) :: post.filterMap (recEnt blk) := by
      rw [dirEnts, hrecs, List.filterMap_append, List.filterMap_cons, hent]
    rcases List.eq_nil_or_concat pre with rfl | ⟨front, p, rfl⟩
    · cases hpre
      obtain ⟨hmid, hnone⟩ := clear_spec hrec rfl hle
      obtain ⟨hpost', hpostEnts⟩ := hpost.congr (dropRec blk 0 none)
        fun i h1 h2 => by
          have := hrec.header
          exact byte_setLE_ne _ (by omega)
      obtain ⟨htiled, hrecs'⟩ := (hmid.append hpost').tiled
      refine ⟨htiled, [], _, post.filterMap (recEnt blk), hents, ?_⟩
      rw [List.getLast?_nil, dirEnts, hrecs', List.filterMap_append, List.filterMap_cons, hnone,
        List.filterMap_nil, hpostEnts]
    · rw [List.concat_eq_append] at *
      obtain ⟨m, hfront, hlast⟩ := hpre.split
      cases hlast with
      | @cons _ _ _ hp hnil =>
        cases hnil
        have hplen := hp.header
        have hofflen := hrec.header
        rw [List.getLast?_append, List.getLast?_singleton, Option.some_or]
        obtain ⟨hmid, hsame⟩ := widen_spec hp hrec rfl rfl hle
        obtain ⟨hfront', hfrontEnts⟩ := hfront.congr
          (dropRec blk (p + Dirent.recLen blk p) (some p)) fun i h1 h2 => byte_setLE_ne _ (by omega)
        obtain ⟨hpost', hpostEnts⟩ := hpost.congr
          (dropRec blk (p + Dirent.recLen blk p) (some p)) fun i h1 h2 => byte_setLE_ne _ (by omega)
        obtain ⟨htiled, hrecs'⟩ := (hfront'.append (hmid.append hpost')).tiled
        refine ⟨htiled, (front ++ [p]).filterMap (recEnt blk), _, post.filterMap (recEnt blk), hents, ?_⟩
        rw [dirEnts, hrecs', List.filterMap_append, List.filterMap_append, List.filterMap_append,
          hfrontEnts, hpostEnts, List.filterMap_cons, List.filterMap_cons, hsame, List.filterMap_nil,
          List.filterMap_nil, List.append_assoc]

end Remove

section Fresh

/-- A record written from scratch: its entry, then its length. -/
theorem fresh_spec {blk : Block} {off child len z : ℕ} {name : Name} (type : ℕ)
    (hn : name.length ≤ 255) (hc : child < 2 ^ 64) (hc0 : child ≠ 0)
    (hlen : align8 (12 + name.length) ≤ len) (halign : len % 8 = 0) (hz : off + len = z)
    (hle : z ≤ 4096) :
    Tiles ((putEntry blk off child type name).setLE (off + 8) 2 len) off z [off] ∧
      recEnt ((putEntry blk off child type name).setLE (off + 8) 2 len) off = some (name, child) := by
  have hle8 := le_align8 (12 + name.length)
  have hent : recEnt ((putEntry blk off child type name).setLE (off + 8) 2 len) off =
      some (name, child) := by
    rw [← recEnt_putEntry blk off child type name (by omega) hn hc hc0]
    exact recEnt_congr (fun i h1 h2 => byte_setLE_ne _ (by omega))
      fun _ i h1 _ => byte_setLE_ne _ (by omega)
  have hrl : Dirent.recLen ((putEntry blk off child type name).setLE (off + 8) 2 len) off = len := by
    rw [Dirent.recLen, getLE_setLE_same _ _ (by omega)]
    exact Nat.mod_eq_of_lt (by omega)
  have hnl : Dirent.nameLen ((putEntry blk off child type name).setLE (off + 8) 2 len) off =
      name.length := by
    rw [← nameLen_putEntry blk off child type name (by omega) hn]
    exact nameLen_congr fun i h1 h2 => byte_setLE_ne _ (by omega)
  refine ⟨.cons ⟨by rw [hrl]; exact halign, by rw [hrl]; omega, fun _ => ?_⟩ ?_, hent⟩
  · unfold usedLen
    rw [hnl, hrl]
    exact hlen
  · rw [hrl, hz]
    exact .nil z

theorem freshDirBlock_spec {child : ℕ} {name : Name} (type : ℕ) (hn : name.length ≤ 255)
    (hc : child < 2 ^ 64) (hc0 : child ≠ 0) :
    Tiled (freshDirBlock child type name) ∧ dirEnts (freshDirBlock child type name) = [(name, child)] := by
  have hlt := align8_lt (12 + name.length)
  obtain ⟨ht, hent⟩ := @fresh_spec zero 0 child 4096 4096 name type hn hc hc0 (by omega) (by omega)
    (by omega) (by omega)
  obtain ⟨htiled, hrecs⟩ := ht.tiled
  refine ⟨htiled, ?_⟩
  unfold freshDirBlock
  rw [dirEnts, hrecs, List.filterMap_cons, hent, List.filterMap_nil]

end Fresh

theorem find_nameEq (blk : Block) (name : Name) (offs : List ℕ) :
    (offs.find? (nameEq blk name)).map (Dirent.inode blk) =
      ((offs.filterMap (recEnt blk)).find? (fun e => e.1 = name)).map Prod.snd := by
  induction offs with
  | nil => rw [List.filterMap_nil, List.find?_nil, List.find?_nil, Option.map_none, Option.map_none]
  | cons o offs ih =>
    rw [List.filterMap_cons, List.find?_cons]
    by_cases hm : nameEq blk name o = true
    · obtain ⟨hent, -⟩ := nameEq_iff.mp hm
      rw [hm, hent]
      simp
    · have hm' : nameEq blk name o = false := by simpa using hm
      rw [hm']
      cases hent : recEnt blk o with
      | none => simpa using ih
      | some e =>
        have hne := recEnt_name_ne hm' hent
        rw [List.find?_cons]
        simpa [hne] using ih

theorem removeFrom_eq_none {blk : Block} {name : Name} {prev : Option ℕ} {offs : List ℕ}
    (h : removeFrom blk name prev offs = none) : ∀ e ∈ offs.filterMap (recEnt blk), e.1 ≠ name := by
  induction offs generalizing prev with
  | nil => simp
  | cons o offs ih =>
    rw [removeFrom_cons] at h
    by_cases hm : nameEq blk name o = true
    · simp [hm] at h
    · rw [if_neg hm] at h
      intro e he
      obtain ⟨x, hx, hent⟩ := List.mem_filterMap.mp he
      rcases List.mem_cons.mp hx with rfl | hx
      · exact recEnt_name_ne (by simpa using hm) hent
      · exact ih h e (List.mem_filterMap.mpr ⟨x, hx, hent⟩)

def IsDotName (name : Name) : Prop := name = [46] ∨ name = [46, 46]

instance (name : Name) : Decidable (IsDotName name) := inferInstanceAs (Decidable (_ ∨ _))

theorem isDots_iff (blk : Block) (off : ℕ) :
    isDots blk off = true ↔ IsDotName (Dirent.name blk off) := by
  unfold isDots IsDotName Dirent.name slice
  simp only [decide_eq_true_eq]
  constructor
  · rintro (⟨h1, h2⟩ | ⟨h1, h2, h3⟩)
    · left
      rw [h1]
      simp [h2]
    · right
      rw [h1]
      simp [List.range_succ, h2, h3]
  · rintro (h | h)
    · have hlen : Dirent.nameLen blk off = 1 := by simpa using congrArg List.length h
      rw [hlen] at h
      left
      simpa [hlen] using h
    · have hlen : Dirent.nameLen blk off = 2 := by simpa using congrArg List.length h
      rw [hlen] at h
      right
      simpa [List.range_succ, hlen] using h

/-- What `dir_is_empty` asks of a block: every entry is a dot entry. -/
theorem all_dots_iff (blk : Block) :
    (dirRecs blk 0).all (fun off => Dirent.inode blk off = 0 ∨ isDots blk off) = true ↔
      ∀ e ∈ dirEnts blk, IsDotName e.1 := by
  simp only [List.all_eq_true, decide_eq_true_eq, isDots_iff, dirEnts, List.mem_filterMap]
  constructor
  · rintro h e ⟨off, hoff, hent⟩
    unfold recEnt at hent
    split at hent
    · simp at hent
    · next hlive =>
      rw [← Option.some.inj hent]
      exact (h off hoff).resolve_left hlive
  · intro h off hoff
    by_cases hlive : Dirent.inode blk off = 0
    · exact Or.inl hlive
    · refine Or.inr (h (Dirent.name blk off, Dirent.inode blk off) ⟨off, hoff, ?_⟩)
      rw [recEnt, if_neg hlive]

end ComputerOS.Cfs
