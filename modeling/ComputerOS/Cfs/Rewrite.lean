import ComputerOS.Cfs.Effect
import ComputerOS.Cfs.Spoils

/-!
A write over an existing file. It changes one inode and the blocks it stores the contents
in, which were free or the file's own: every directory and every other file stay as they
are, and every path names the inode it named.
-/
namespace ComputerOS.Cfs

open M Bytes Function

/-- Volume `w` is `v` with the contents of file `n` replaced by `data`, stored in blocks `l`
under the record `d`. -/
structure Rewritten (g : Geom) (env : Env) (data : List UInt8) (n : ℕ) (l : List (ℕ × Block))
    (d : DInode) (v w : Vol) : Prop where
  file : (v.ino n).isDir = false
  link : isLink data = true → data.length - 10 ≤ 4095
  laid : Laid (truncated (v.ino n) (writeMode data)) data l d
  self : w.ino n = stamp g.flags (touch d (writeSize data) env.now)
  ino : ∀ m, m ≠ n → w.ino m = v.ino m
  fresh : ∀ e ∈ l, g.IsData e.1 ∧ (e.1 ∈ (v.ino n).blocks ∨ v.bbit e.1 = false)
  nodup : (l.map Prod.fst).Nodup
  stored : ∀ e ∈ l, w.data e.1 = e.2
  data : ∀ b, b ∉ l.map Prod.fst → w.data b = v.data b

theorem pushAll_head {d d' : DInode} {bs : List ℕ} (h : pushAll d bs = some d') :
    DInode.SameHead d d' := by
  induction bs generalizing d with
  | nil =>
    obtain rfl := Option.some.inj h
    exact .refl d
  | cons b bs ih =>
    rw [pushAll] at h
    cases hp : inodePushExtent d b 1 with
    | none => simp [hp] at h
    | some d₁ =>
      rw [hp] at h
      exact (DInode.SameHead.push hp).trans (ih h)

/-- Storing contents leaves mode, links and owner of the record alone. -/
theorem Laid.head {din d : DInode} {data : List UInt8} {l : List (ℕ × Block)}
    (h : Laid din data l d) : DInode.SameHead din d := by
  cases h with
  | fast hlink hlen => exact (DInode.SameHead.setExtentBytes _ _).trans (.setLE _ _ _ (by omega))
  | slow hlink hlen =>
    exact ((DInode.SameHead.setLE _ _ _ (by omega)).trans (.setLE _ _ _ (by omega))).trans
      (.setLE _ _ _ (by omega))
  | inline hlink hlen =>
    exact ((DInode.SameHead.setExtentBytes _ _).trans (.setLE _ _ _ (by omega))).trans
      (.setLE _ _ _ (by omega))
  | blocks hlink hlen hchunks hpush =>
    exact (DInode.SameHead.setLE _ _ _ (by omega)).trans (pushAll_head hpush)

theorem writeMode_lt (data : List UInt8) : writeMode data < 2 ^ 16 := by
  unfold writeMode
  split <;> decide

theorem writeMode_not_dir (data : List UInt8) : writeMode data &&& CFS_S_IFMT ≠ CFS_S_IFDIR := by
  unfold writeMode
  split <;> decide

theorem truncated_mode (d : DInode) (data : List UInt8) :
    (truncated d (writeMode data)).mode = writeMode data := by
  rw [truncated, DInode.mode, getLE_setLE_same _ _ (by omega)]
  exact Nat.mod_eq_of_lt (writeMode_lt data)

namespace Synced

variable {g : Geom} {k : Prop} {v w : Vol} (h : Synced g k v w)

include h

theorem ino : w.ino = v.ino := by cases h <;> rfl

theorem data : w.data = v.data := by cases h <;> rfl

theorem bbit : w.bbit = v.bbit := by cases h <;> rfl

theorem ibit : w.ibit = v.ibit := by cases h <;> rfl

end Synced

variable {g : Geom} {env : Env} {data : List UInt8} {n : ℕ} {l : List (ℕ × Block)} {d : DInode}
  {v w : Vol}

/-- A successful write to a name that exists replaces that file. -/
theorem Effect.rewritten {k : Prop} {path : List UInt8} (h : Effect g env k v (.writeFile path data) w)
    (ht : v.target path ≠ 0) : ∃ l d, Rewritten g env data (v.target path) l d v w := by
  cases h with
  | @write _ _ p n leaf din d v₁ v₂ _ l hat hlink hopen hstore hlaid hn hsync =>
    obtain rfl := hat.leaf_eq
    obtain rfl := hat.parent_eq
    cases hopen with
    | new hlook => exact absurd hlook ht
    | @old F hlook hne hfile hmay hF hdata hall =>
      obtain rfl : v.target path = n := hlook
      have hfree := hstore.free
      refine ⟨l, d, hfile, hlink, hlaid, ?_, ?_, ?_, hstore.nodup, ?_, ?_⟩
      · rw [hsync.ino, Vol.ino_setIno_same]
      · intro m hm
        rw [hsync.ino, Vol.ino_setIno_ne _ _ hm, hstore.same.1, Vol.giveBlocks_ino]
      · intro e he
        obtain ⟨hdata', hbit⟩ := hfree e he
        refine ⟨hdata', ?_⟩
        rw [Vol.giveBlocks_bbit] at hbit
        by_cases heF : e.1 ∈ F
        · exact Or.inl (hF heF)
        · exact Or.inr (by simpa [heF] using hbit)
      · intro e he
        rw [hsync.data]
        exact hstore.data_of_mem he
      · intro b hb
        rw [hsync.data]
        exact (hstore.data_of_not_mem hb).trans (by rw [Vol.giveBlocks_data])

namespace Rewritten

variable (h : Rewritten g env data n l d v w)

include h

theorem head : DInode.SameHead (truncated (v.ino n) (writeMode data)) (w.ino n) := by
  rw [h.self]
  exact (h.laid.head.trans (.touch _ _ _)).trans (.stamp _ _)

theorem mode : (w.ino n).mode = writeMode data := h.head.mode.trans (truncated_mode _ _)

theorem not_dir : (w.ino n).isDir = false := by
  rw [DInode.isDir, h.mode]
  simpa using writeMode_not_dir data

variable (hc : Consistent g v) (hn : v.Reach n)

include hc hn

/-- The blocks of every other file stay as they are. -/
theorem data_eq {m b : ℕ} (hm : v.Reach m) (hne : m ≠ n) (hb : b ∈ (v.ino m).blocks) :
    w.data b = v.data b := by
  refine h.data b fun hmem => ?_
  obtain ⟨e, he, rfl⟩ := List.mem_map.mp hmem
  rcases (h.fresh e he).2 with hown | hfree
  · exact hc.apart m n hm hn hne e.1 hb hown
  · rw [hc.used hm hb] at hfree
    cases hfree

theorem out_eq {m : ℕ} (hm : v.Reach m) : w.out m = v.out m := by
  by_cases hne : m = n
  · subst hne
    rw [Vol.out_of_not_dir h.not_dir, Vol.out_of_not_dir h.file]
  · unfold Vol.out
    rw [h.ino m hne]
    split
    · exact entsIn_congr fun b hb => h.data_eq hc hn hm hne (mem_dirBlocks hb)
    · rfl

theorem reach_iff {m : ℕ} : w.Reach m ↔ v.Reach m := DirGraph.reach_congr fun _ hm => h.out_eq hc hn hm

end Rewritten

/-- The new contents of a file find room: a short target or file needs no block, a long
target one, and the blocks of a large file have to fit and its length in the result. -/
def Vol.Takes (g : Geom) (v : Vol) (path data : List UInt8) : Prop :=
  if isLink data then
    (data.drop 10).length ≤ 144 ∨ g.firstFree (v.bitsWithout (v.target path)) ≠ none
  else data.length ≤ CFS_INLINE_MAX ∨ (v.fits g path data = true ∧ data.length % 2 ^ 32 < 2 ^ 31)

variable {s : St}

/-- Contents that need no block are always stored. -/
theorem replaced_small_run (hg : g.Wf) (hs : s.Fresh g) (hc : Consistent g s.vol) {path : List UInt8}
    (hr : Replaces env s.vol path data) {r : Option ℤ} {s' : St}
    (hrun : (doWriteFile env path data).run s = (r, s')) (hl : s'.lost = false)
    (hsmall : if isLink data then (data.drop 10).length ≤ 144 else data.length ≤ CFS_INLINE_MAX) :
    r = some (toInt32 data.length) := by
  obtain ⟨s4, hopen, -, hw4, -⟩ := doWriteFile_replaces hg hs hc hr
  rw [hopen] at hrun
  have hstore : ∃ d,
      (storeData (truncated (s.vol.ino (s.vol.target path)) (writeMode data)) data).run s4 = (some d, s4) := by
    unfold storeData storeTarget
    split at hsmall
    · next hlink =>
      rw [if_pos hlink, if_pos hsmall, pure_run]
      exact ⟨_, rfl⟩
    · next hlink =>
      rw [if_neg hlink, if_pos hsmall, pure_run]
      exact ⟨_, rfl⟩
  obtain ⟨d, hstore⟩ := hstore
  rw [bind_of_some hstore] at hrun
  have hn : s.vol.target path ≠ 0 ∧ s.vol.target path < g.totalInodes :=
    ⟨hr.target, hc.inTable _ (.step (resolve_reach hr.parent.2) (lookupEnt_mem hr.target))⟩
  exact (finish_run hg hw4.toInTxn hn hrun hl).1

section Takes

variable {path : List UInt8} (hg : g.Wf) (hs : s.Idle g) (hw : s.WritesOk) (hv : WellFormed g s.vol)
  (hroom : g.Roomy) (hr : Replaces env s.vol path data)

include hg hs hw hv hroom hr

theorem replaced_small_exec
    (hsmall : if isLink data then (data.drop 10).length ≤ 144 else data.length ≤ CFS_INLINE_MAX) :
    (((Call.writeFile path data).exec env).run s).1 ≠ none := by
  have hlost := body_not_lost hroom hs.toMounted env (.writeFile path data)
  have hvol := hs.begun_vol
  have hrc : (((Call.writeFile path data).body env).run s.begun).1 = some (toInt32 data.length) :=
    replaced_small_run hg hs.begun_fresh (by rw [hvol]; exact hv.toConsistent)
      (by rw [hvol]; exact hr) (Prod.mk.eta).symm hlost hsmall
  refine exec_ne_none hw hrc ?_
  have hneg := @toInt32_neg data.length
  split at hsmall
  · rw [List.length_drop] at hsmall
    omega
  · have : CFS_INLINE_MAX = 144 := rfl
    omega

omit hw in
/-- A long target for which first fit finds no block is refused. -/
theorem replaced_link_full (hlink : isLink data = true) (hlong : ¬ (data.drop 10).length ≤ 144)
    (hfull : g.firstFree (s.vol.bitsWithout (s.vol.target path)) = none) :
    (((Call.writeFile path data).exec env).run s).1 = none := by
  have hlost := body_not_lost hroom hs.toMounted env (.writeFile path data)
  have hvol := hs.begun_vol
  rw [← hvol] at hr hfull
  have hc : Consistent g s.begun.vol := by rw [hvol]; exact hv.toConsistent
  obtain ⟨s4, hopen, hstep4, hw4, hbits⟩ := doWriteFile_replaces hg hs.begun_fresh hc hr
  rcases ha : allocBlock.run s4 with ⟨o, s1⟩
  obtain ⟨b, rfl, hstep, hcase⟩ := allocBlock_spec hg hw4.toInTxn ha
  have hstore : (storeData (truncated (s.begun.vol.ino (s.begun.vol.target path)) (writeMode data))
      data).run s4 = (do
        ensure (b ≠ 0)
        rawWriteBlock b (zero.put 0 (data.drop 10))
        pure ((((truncated (s.begun.vol.ino (s.begun.vol.target path)) (writeMode data)).setNextents
          1).setExtentStart 0 b).setExtentCount 0 1) : M DInode).run s1 := by
    rw [storeData, if_pos hlink, storeTarget, if_neg hlong, bind_of_some ha]
  rcases hcase with ⟨rfl, -, -⟩ | ⟨hb, hdata, hfree, -⟩
  · have hbody : (doWriteFile env path data).run s.begun = (none, s1) := by
      rw [hopen, bind_of_none (hstore.trans (bind_of_none (ensure_neg (by simp) s1)))]
    have hcom : commitState env (.writeFile path data) s = none := by
      unfold commitState
      rw [show ((Call.writeFile path data).body env).run s.begun = (none, s1) from hbody]
    rw [exec_aborts hcom]
  · exfalso
    have htail : Ordered (do
        let din ← storeData (truncated (s.begun.vol.ino (s.begun.vol.target path)) (writeMode data)) data
        writeDinode (s.begun.vol.target path) (touch din (writeSize data) env.now)
        syncSuper
        pure (toInt32 data.length) : M ℤ) :=
      .bind (storeData_ordered _ _) fun _ => .buffered (.bind (writeDinode_buffered _ _) fun _ =>
        .bind syncSuper_buffered fun _ => .pure _)
    have h4 : s4.lost = false := by
      by_contra h4
      have := htail.lost s4 (by simpa using h4)
      rw [← hopen] at this
      exact Bool.false_ne_true (hlost.symm.trans this)
    rw [hbits h4] at hfree
    have := List.find?_eq_none.mp hfull b (by
      rw [List.mem_range'_1]
      obtain ⟨h1, h2⟩ := hdata
      omega)
    simp [hfree] at this

/-- A write that replaces a file succeeds exactly when the new contents find room. -/
theorem takes_iff : (((Call.writeFile path data).exec env).run s).1 ≠ none ↔ s.vol.Takes g path data := by
  unfold Vol.Takes
  split
  · next hlink =>
    constructor
    · intro hok
      by_contra hno
      rw [not_or, not_not] at hno
      exact hok (replaced_link_full hg hs hv hroom hr hlink hno.1 hno.2)
    · intro h
      by_cases hshort : (data.drop 10).length ≤ 144
      · exact replaced_small_exec hg hs hw hv hroom hr (by rwa [if_pos hlink])
      · refine replaced_link_exec hg hs hw hv hroom hr hlink ?_
        unfold Vol.handed Cfs.handed
        rw [if_pos hlink, if_neg hshort]
        simpa using h.resolve_left hshort
  · next hlink =>
    by_cases hsmall : data.length ≤ CFS_INLINE_MAX
    · have hok := replaced_small_exec hg hs hw hv hroom hr (by rwa [if_neg hlink])
      exact iff_of_true hok (Or.inl hsmall)
    · have hiff := replaced_exec hg hs hw hv hroom hr (by simpa using hlink) (by omega)
      rw [ne_eq, hiff, not_or]
      simp [hsmall]

/-- A write that replaces a file and fails leaves every inode as it was. -/
theorem refused_ino (hf : (((Call.writeFile path data).exec env).run s).1 = none) {n : ℕ}
    (hn : s.vol.Reach n) : (((Call.writeFile path data).exec env).run s).2.vol.ino n = s.vol.ino n := by
  obtain ⟨hidle, -, -⟩ := aborted_state hs (commitState_eq_none hw hf)
  by_cases hne : s.vol.handed g path data = []
  · have hreuse : ¬ (Call.writeFile path data).Reuses g env s.vol := by
      rintro ⟨-, b, hb, -⟩
      simp [hne] at hb
    exact (aborted_keeps hg hs hv.toConsistent hreuse (commitState_eq_none hw hf)).ino n hn
  · by_cases hlink : isLink data = true
    · exact absurd hf (replaced_link_exec hg hs hw hv hroom hr hlink hne)
    · have hbig : CFS_INLINE_MAX < data.length := by
        by_contra hsmall
        refine hne ?_
        unfold Vol.handed Cfs.handed
        rw [if_neg hlink, if_pos (by omega)]
      have hdisk := (replaced_disk hg hs hw hv hroom hr (by simpa using hlink) hbig hf).2
      refine congrFun (sameMeta_of_disk hg hs hidle fun b hb => hdisk b fun hmem => ?_).1 n
      have := (Vol.handed_clear hmem).1.1
      omega

end Takes

end ComputerOS.Cfs
