import ComputerOS.Cfs.Working

/-!
Storing file contents: symlink targets, inline data and data blocks. Every block of the
contents is allocated, written and pushed in turn, so the blocks stored are distinct,
were free before and end up as the blocks the inode covers.
-/
namespace ComputerOS.Cfs

open M Bytes Function

/-- A run of first-fit allocations, each filled with its block. -/
inductive Stored (g : Geom) : Vol → List (ℕ × Block) → Vol → Prop
  | nil (v : Vol) : Stored g v [] v
  | cons {v w : Vol} {b : ℕ} {blk : Block} {l : List (ℕ × Block)} (hdata : g.IsData b)
      (hfree : v.bbit b = false) (hfirst : ∀ x, g.dataStart ≤ x → x < b → v.bbit x = true)
      (rest : Stored g ((v.takeBlock b).setData b blk) l w) : Stored g v ((b, blk) :: l) w

namespace Stored

variable {g : Geom} {v w : Vol} {l : List (ℕ × Block)}

theorem free (h : Stored g v l w) : ∀ e ∈ l, g.IsData e.1 ∧ v.bbit e.1 = false := by
  induction h with
  | nil v => simp
  | @cons v w b blk l hdata hfree hfirst rest ih =>
    intro e he
    rcases List.mem_cons.mp he with rfl | he
    · exact ⟨hdata, hfree⟩
    · obtain ⟨h1, h2⟩ := ih e he
      refine ⟨h1, ?_⟩
      by_cases heb : e.1 = b
      · simp [Vol.setData, Vol.takeBlock, heb] at h2
      · simpa [Vol.setData, Vol.takeBlock, heb] using h2

theorem nodup (h : Stored g v l w) : (l.map Prod.fst).Nodup := by
  induction h with
  | nil v => simp
  | @cons v w b blk l hdata hfree hfirst rest ih =>
    rw [List.map_cons, List.nodup_cons]
    refine ⟨fun hmem => ?_, ih⟩
    obtain ⟨e, he, hb⟩ := List.mem_map.mp hmem
    obtain ⟨-, h2⟩ := rest.free e he
    simp [Vol.setData, Vol.takeBlock, hb] at h2

theorem data_of_not_mem (h : Stored g v l w) {b : ℕ} (hb : b ∉ l.map Prod.fst) :
    w.data b = v.data b := by
  induction h with
  | nil v => rfl
  | @cons v w x blk l hdata hfree hfirst rest ih =>
    rw [List.map_cons, List.mem_cons, not_or] at hb
    rw [ih hb.2]
    simp [Vol.setData, Vol.takeBlock, hb.1]

theorem data_of_mem (h : Stored g v l w) {b : ℕ} {blk : Block} (hb : (b, blk) ∈ l) :
    w.data b = blk := by
  induction h with
  | nil v => simp at hb
  | @cons v w x blk' l hdata hfree hfirst rest ih =>
    rcases List.mem_cons.mp hb with heq | hmem
    · rw [Prod.mk.injEq] at heq
      obtain ⟨rfl, rfl⟩ := heq
      have hnot : b ∉ l.map Prod.fst := by
        have hnd := (Stored.cons hdata hfree hfirst rest).nodup
        rw [List.map_cons, List.nodup_cons] at hnd
        exact hnd.1
      rw [rest.data_of_not_mem hnot]
      simp [Vol.setData]
    · exact ih hmem

theorem same (h : Stored g v l w) :
    w.ino = v.ino ∧ w.ibit = v.ibit ∧ w.super = v.super ∧ w.freeInodes = v.freeInodes := by
  induction h with
  | nil v => exact ⟨rfl, rfl, rfl, rfl⟩
  | cons hdata hfree hfirst rest ih => exact ih

end Stored

def pushAll (d : DInode) : List ℕ → Option DInode
  | [] => some d
  | b :: bs =>
      match inodePushExtent d b 1 with
      | none => none
      | some d => pushAll d bs

variable {g : Geom} {s s' : St} {U : ℕ → Prop}

theorem writeBlocks_safe (hg : g.Wf) (hs : s.Working g) (hU : ∀ b, U b → s.vol.bbit b = true)
    (data : List UInt8) (fbs : List ℕ) (din : DInode) : Safe U (writeBlocks data fbs din) s := by
  induction fbs generalizing s din with
  | nil => exact Safe.buffered (.pure din) hs.toInTxn
  | cons fb fbs ih =>
    rw [writeBlocks]
    refine Safe.bind (Safe.buffered allocBlock_buffered hs.toInTxn) fun b s1 h1 => ?_
    have hs1 := allocBlock_buffered.inTxn_of_run hs.toInTxn h1
    refine Safe.bind (Safe.buffered (Buffered.ensure _) hs1) fun _ s2 h2 => ?_
    obtain ⟨hb, rfl⟩ := ensure_eq_some h2
    obtain ⟨-, hw, hdata, hfree, -, hvol, hclean⟩ := allocBlock_some hg hs hb h1
    refine Safe.bind (Safe.rawWrite _ fun hu => ?_) fun _ s3 h3 => ?_
    · simp [hU b hu] at hfree
    · obtain ⟨hw3, hvol3, -⟩ := rawWriteBlock_working hg hw hdata hclean h3
      split
      · exact Safe.buffered .fail hw3.toInTxn
      · refine ih hw3 (fun x hx => ?_) _
        rw [hvol3, hvol]
        by_cases hxb : x = b
        · simp [Vol.setData, Vol.takeBlock, hxb]
        · simpa [Vol.setData, Vol.takeBlock, hxb] using hU x hx

theorem storeData_safe (hg : g.Wf) (hs : s.Working g) (hU : ∀ b, U b → s.vol.bbit b = true)
    (din : DInode) (data : List UInt8) : Safe U (storeData din data) s := by
  unfold storeData
  split
  · unfold storeTarget
    split
    · exact Safe.buffered (.pure _) hs.toInTxn
    · refine Safe.bind (Safe.buffered allocBlock_buffered hs.toInTxn) fun b s1 h1 => ?_
      have hs1 := allocBlock_buffered.inTxn_of_run hs.toInTxn h1
      refine Safe.bind (Safe.buffered (Buffered.ensure _) hs1) fun _ s2 h2 => ?_
      obtain ⟨hb, rfl⟩ := ensure_eq_some h2
      obtain ⟨-, hw, hdata, hfree, -, -, hclean⟩ := allocBlock_some hg hs hb h1
      refine Safe.bind (Safe.rawWrite _ fun hu => ?_) fun _ s3 h3 => ?_
      · simp [hU b hu] at hfree
      · obtain ⟨hw3, -, -⟩ := rawWriteBlock_working hg hw hdata hclean h3
        exact Safe.buffered (.pure _) hw3.toInTxn
  · split
    · exact Safe.buffered (.pure _) hs.toInTxn
    · exact writeBlocks_safe hg hs hU data _ _

theorem writeBlocks_some (hg : g.Wf) (hs : s.Working g) {data : List UInt8} {fbs : List ℕ}
    {din d' : DInode} (h : (writeBlocks data fbs din).run s = (some d', s')) :
    s'.Working g ∧ (s.lost = true → s'.lost = true) ∧
      ∃ l, Stored g s.vol l s'.vol ∧ l.map Prod.snd = fbs.map (chunkBlock data) ∧
        pushAll din (l.map Prod.fst) = some d' := by
  induction fbs generalizing s din with
  | nil =>
    rw [writeBlocks, pure_run] at h
    simp only [Prod.mk.injEq, Option.some.injEq] at h
    obtain ⟨rfl, rfl⟩ := h
    exact ⟨hs, id, [], .nil _, rfl, rfl⟩
  | cons fb fbs ih =>
    rw [writeBlocks] at h
    obtain ⟨b, s3, hw3, hlost, hdata, hfree, hfirst, hvol3, k3⟩ := filledBlock_some hg hs h
    cases hpush : inodePushExtent din b 1 with
    | none =>
      rw [hpush] at k3
      simp [fail_run] at k3
    | some d1 =>
      rw [hpush] at k3
      obtain ⟨hw', hl', l, hstored, hblocks, hall⟩ := ih hw3 k3
      refine ⟨hw', fun hl => hl' (hlost hl),
        (b, chunkBlock data fb) :: l, ?_, ?_, ?_⟩
      · rw [hvol3] at hstored
        exact .cons hdata hfree hfirst hstored
      · rw [List.map_cons, List.map_cons, hblocks]
      · rw [List.map_cons, pushAll, hpush]
        exact hall

/-- What `do_write_file` makes of the inode when it stores the data in blocks `l`. -/
inductive Laid (din : DInode) (data : List UInt8) : List (ℕ × Block) → DInode → Prop
  | fast (hlink : isLink data = true) (hlen : data.length - 10 ≤ 144) :
      Laid din data [] ((din.setExtentBytes (data.drop 10)).setNextents 0)
  | slow {b : ℕ} (hlink : isLink data = true) (hlen : 144 < data.length - 10) :
      Laid din data [(b, zero.put 0 (data.drop 10))]
        (((din.setNextents 1).setExtentStart 0 b).setExtentCount 0 1)
  | inline (hlink : isLink data = false) (hlen : data.length ≤ CFS_INLINE_MAX) :
      Laid din data []
        (((din.setExtentBytes data).setFlags (din.flags ||| CFS_FL_INLINE)).setNextents 0)
  | blocks {l : List (ℕ × Block)} {d' : DInode} (hlink : isLink data = false)
      (hlen : CFS_INLINE_MAX < data.length)
      (hchunks : l.map Prod.snd =
        (List.range ((data.length + 4095) % 2 ^ 32 / 4096)).map (chunkBlock data))
      (hpush : pushAll (din.setFlags (din.flags &&& (2 ^ 32 - 1 - CFS_FL_INLINE)))
        (l.map Prod.fst) = some d') :
      Laid din data l d'

theorem storeData_some (hg : g.Wf) (hs : s.Working g) {din d' : DInode} {data : List UInt8}
    (h : (storeData din data).run s = (some d', s')) :
    s'.Working g ∧ (s.lost = true → s'.lost = true) ∧
      ∃ l, Stored g s.vol l s'.vol ∧ Laid din data l d' := by
  unfold storeData at h
  by_cases hlink : isLink data = true
  · rw [if_pos hlink] at h
    unfold storeTarget at h
    by_cases hlen : (data.drop 10).length ≤ 144
    · rw [if_pos hlen, pure_run] at h
      simp only [Prod.mk.injEq, Option.some.injEq] at h
      obtain ⟨rfl, rfl⟩ := h
      rw [List.length_drop] at hlen
      exact ⟨hs, id, [], .nil _, .fast hlink hlen⟩
    · rw [if_neg hlen] at h
      obtain ⟨b, s3, hw3, hlost, hdata, hfree, hfirst, hvol3, k3⟩ := filledBlock_some hg hs h
      rw [pure_run] at k3
      simp only [Prod.mk.injEq, Option.some.injEq] at k3
      obtain ⟨rfl, rfl⟩ := k3
      rw [List.length_drop] at hlen
      refine ⟨hw3, hlost, [(b, zero.put 0 (data.drop 10))], ?_, .slow hlink (by omega)⟩
      rw [hvol3]
      exact .cons hdata hfree hfirst (.nil _)
  · rw [if_neg hlink] at h
    have hlink' : isLink data = false := by simpa using hlink
    by_cases hlen : data.length ≤ CFS_INLINE_MAX
    · rw [if_pos hlen, pure_run] at h
      simp only [Prod.mk.injEq, Option.some.injEq] at h
      obtain ⟨rfl, rfl⟩ := h
      exact ⟨hs, id, [], .nil _, .inline hlink' hlen⟩
    · rw [if_neg hlen] at h
      obtain ⟨hw, hl, l, hstored, hchunks, hpush⟩ := writeBlocks_some hg hs h
      exact ⟨hw, hl, l, hstored, .blocks hlink' (by omega) hchunks hpush⟩

end ComputerOS.Cfs
