import ComputerOS.Fat32.Runs

/-!
Reading a part of a file. The clusters of the file are walked; of each one that the part meets a
window of the cluster buffer is copied. Sums are 32-bit, and where they wrap the window is too large
or the cluster is skipped.
-/
namespace ComputerOS.Fat32

open Fallible

def u32 (n : ℕ) : ℕ := n % 2 ^ 32

def toInt (n : ℕ) : ℤ := if n < 2 ^ 31 then n else n - 2 ^ 32

/-- What is copied out of the cluster buffer at once: the cluster that it holds, and the bytes from
`start` on. -/
structure Window where
  cluster : ℕ
  start : ℕ
  len : ℕ
deriving DecidableEq, Repr

/-- The loop of `fat32_read_file_at`: the number of bytes copied, and the windows. -/
def readAtLoop (g : Geom) (v : Vol) (offset len : ℕ) : ℕ → ℕ → ℕ → ℕ → ℕ × List Window
  | 0, _, _, written => (written, [])
  | fuel + 1, cluster, filePos, written =>
      if written < len ∧ 2 ≤ cluster ∧ isEndOfChain cluster = false then
        let clusterEnd := u32 (filePos + g.bytesPerCluster)
        if clusterEnd ≤ offset then readAtLoop g v offset len fuel (getEntry g v cluster) clusterEnd written
        else
          let cStart := if filePos < offset then offset - filePos else 0
          let cEnd := if u32 (offset + len) < u32 (filePos + g.bytesPerCluster) then
              u32 (u32 (offset + len) + (2 ^ 32 - filePos))
            else g.bytesPerCluster
          let copyLen := u32 (cEnd + (2 ^ 32 - cStart))
          let rest := readAtLoop g v offset len fuel (getEntry g v cluster) clusterEnd (u32 (written + copyLen))
          (rest.1, ⟨cluster, cStart, copyLen⟩ :: rest.2)
      else (written, [])

def fat32ReadFileAt (g : Geom) (n : ℕ) (path : Str) (offset len : ℕ) : M (ℤ × List Window) := do
  if len = 0 then pure (0, [])
  else
    let p ← resolveParent g n path
    match ← lookup fun v => readFinds g v n p.1 p.2 with
    | none => fail
    | some w =>
        if isDirectory w.entry then fail
        else if entrySize w.entry ≤ offset then pure (0, [])
        else do
          let len := if entrySize w.entry < u32 (offset + len) then entrySize w.entry - offset else len
          needBuf
          let v ← getVol
          let r := readAtLoop g v offset len n (entryCluster w.entry) 0 0
          pure (toInt r.1, r.2)

/-- The cluster buffer with a cluster in it, and the memory behind it. -/
def bufferOf (g : Geom) (v : Vol) (beyond : Mem) (c : ℕ) : Mem := fun i =>
  if i < g.bytesPerCluster then v.disk c i else beyond i

def Window.bytes (g : Geom) (v : Vol) (beyond : Mem) (w : Window) : Str :=
  (List.range w.len).map fun i => bufferOf g v beyond w.cluster (w.start + i)

def clusterBytes (g : Geom) (v : Vol) (L : List ℕ) : Str :=
  L.flatMap fun c => (List.range g.bytesPerCluster).map (v.disk c)

structure ReadsPart (g : Geom) (v : Vol) (beyond : Mem) (content : Str) (offset len : ℕ)
    (r : ℤ × List Window) : Prop where
  count : r.1 = (min len (content.length - offset) : ℕ)
  bytes : r.2.flatMap (Window.bytes g v beyond) = (content.drop offset).take len
  room : (r.2.map Window.len).sum ≤ len
  inside : ∀ w ∈ r.2, w.start + w.len ≤ g.bytesPerCluster

variable {g : Geom} {v : Vol} {n cwd d s c p fuel offset len : ℕ} {A B L : List ℕ} {beyond : Mem}

theorem u32_of_lt {m : ℕ} (h : m < 2 ^ 32) : u32 m = m := Nat.mod_eq_of_lt h

theorem length_clusterBytes (g : Geom) (v : Vol) (L : List ℕ) : (clusterBytes g v L).length =
    L.length * g.bytesPerCluster := by
  induction L with
  | nil => rw [clusterBytes, List.flatMap_nil, List.length_nil, List.length_nil, Nat.zero_mul]
  | cons c L ih =>
    rw [clusterBytes, List.flatMap_cons, List.length_append, List.length_map, List.length_range,
      List.length_cons, Nat.succ_mul, Nat.add_comm, ← ih]
    rfl

theorem clusterBytes_append (g : Geom) (v : Vol) (A B : List ℕ) :
    clusterBytes g v (A ++ B) = clusterBytes g v A ++ clusterBytes g v B := List.flatMap_append

theorem readAtLoop_done (h : len ≤ p) (fuel s filePos : ℕ) : readAtLoop g v offset len fuel s filePos p = (p, []) := by
  cases fuel with
  | zero => rfl
  | succ fuel => exact if_neg fun hc => Nat.not_lt.mpr h hc.1

theorem readAtLoop_end (hs : isEndOfChain s = true) (fuel filePos written : ℕ) :
    readAtLoop g v offset len fuel s filePos written = (written, []) := by
  cases fuel with
  | zero => rfl
  | succ fuel => exact if_neg fun hc => by rw [hs] at hc; exact absurd hc.2.2 (by decide)

theorem bytes_window {w : Window} (h : w.start + w.len ≤ g.bytesPerCluster) :
    w.bytes g v beyond = (((List.range g.bytesPerCluster).map (v.disk w.cluster)).drop w.start).take w.len := by
  refine List.ext_getElem ?_ fun i hi _ => ?_
  · simp [Window.bytes]
    omega
  · have hlt : i < w.len := by simpa [Window.bytes] using hi
    have hin : w.start + i < g.bytesPerCluster := by omega
    simp [Window.bytes, bufferOf, hin]

theorem readAtLoop_skip (hg : g.Ok) (hdata : DataCluster g c) (hlen : 0 < len) (hend : p + g.bytesPerCluster ≤ offset)
    (hoff : offset < 2 ^ 32) (fuel : ℕ) : readAtLoop g v offset len (fuel + 1) c p 0 =
      readAtLoop g v offset len fuel (getEntry g v c) (p + g.bytesPerCluster) 0 := by
  have hsum : u32 (p + g.bytesPerCluster) = p + g.bytesPerCluster := u32_of_lt (by omega)
  rw [readAtLoop, if_pos ⟨hlen, hdata.1, hdata.not_end hg⟩]
  dsimp only
  rw [hsum, if_pos hend]

/-- A cluster with a byte of the part, when no sum wraps. -/
theorem readAtLoop_read (hg : g.Ok) (hdata : DataCluster g c) (hsum : offset + len < 2 ^ 32)
    (hfit : p + g.bytesPerCluster < 2 ^ 32) (hmeet : offset < p + g.bytesPerCluster) (hmore : p < offset + len)
    (hlen : 0 < len) (fuel : ℕ) : readAtLoop g v offset len (fuel + 1) c p (p - offset) =
      (let copied := min (offset + len - p) g.bytesPerCluster - (offset - p)
      let rest := readAtLoop g v offset len fuel (getEntry g v c) (p + g.bytesPerCluster) (p - offset + copied)
      (rest.1, ⟨c, offset - p, copied⟩ :: rest.2)) := by
  have hstart : (if p < offset then offset - p else 0) = offset - p := by
    split <;> omega
  have hclusterEnd : u32 (p + g.bytesPerCluster) = p + g.bytesPerCluster := u32_of_lt hfit
  have hend : (if u32 (offset + len) < p + g.bytesPerCluster then u32 (u32 (offset + len) + (2 ^ 32 - p))
      else g.bytesPerCluster) = min (offset + len - p) g.bytesPerCluster := by
    rw [u32_of_lt hsum, u32]
    split <;> omega
  have hcopied : u32 (min (offset + len - p) g.bytesPerCluster + (2 ^ 32 - (offset - p))) =
      min (offset + len - p) g.bytesPerCluster - (offset - p) := by
    unfold u32
    omega
  have hwritten : u32 (p - offset + (min (offset + len - p) g.bytesPerCluster - (offset - p))) =
      p - offset + (min (offset + len - p) g.bytesPerCluster - (offset - p)) := u32_of_lt (by omega)
  rw [readAtLoop, if_pos ⟨by omega, hdata.1, hdata.not_end hg⟩]
  dsimp only
  rw [hclusterEnd, if_neg (by omega), hstart, hend, hcopied, hwritten]

/-- The table entry behind the clusters `A` of a chain that begins at `s`. -/
def entryAfter (g : Geom) (v : Vol) : ℕ → List ℕ → ℕ
  | s, [] => s
  | _, c :: A => entryAfter g v (getEntry g v c) A

theorem Linked.after (h : Linked g v s (A ++ B)) : Linked g v (entryAfter g v s A) B := by
  induction A generalizing s with
  | nil => exact h
  | cons c A ih => exact ih h.2.2

theorem map_disk_length (g : Geom) (v : Vol) (c : ℕ) : ((List.range g.bytesPerCluster).map (v.disk c)).length =
    g.bytesPerCluster := by rw [List.length_map, List.length_range]

theorem drop_behind {X Y : Str} {k m : ℕ} (hX : X.length = k) (hm : k ≤ m) : Y.drop (m - k) = (X ++ Y).drop m := by
  rw [List.drop_append, List.drop_eq_nil_of_le (hX.trans_le hm), List.nil_append, hX]

/-- A part that begins in the first of two texts. -/
theorem part_append {X Y : Str} {k m : ℕ} (hX : X.length = k) (hm : m ≤ k) (t : ℕ) :
    ((X ++ Y).drop m).take t = (X.drop m).take (min t (k - m)) ++ Y.take (t - (k - m)) := by
  have hlen : (X.drop m).length = k - m := by rw [List.length_drop, hX]
  rw [List.drop_append, hX, Nat.sub_eq_zero_of_le hm, List.drop_zero, List.take_append, hlen]
  congr 1
  by_cases ht : t ≤ k - m
  · rw [Nat.min_eq_left ht]
  · rw [Nat.min_eq_right (by omega), List.take_of_length_le (by omega), List.take_of_length_le (by omega)]

/-- The first clusters of a file, when no sum wraps: what is copied of them is what they hold of the
part. -/
theorem readAtLoop_append (hg : g.Ok) (hlink : Linked g v s (A ++ B)) (hsum : offset + len < 2 ^ 32) (hlen : 0 < len)
    (hfit : p + A.length * g.bytesPerCluster < 2 ^ 32) (fuel : ℕ) :
    ∃ ws, readAtLoop g v offset len (fuel + A.length) s p (min (p - offset) len) =
        (let rest := readAtLoop g v offset len fuel (entryAfter g v s A)
          (p + A.length * g.bytesPerCluster) (min (p + A.length * g.bytesPerCluster - offset) len)
        (rest.1, ws ++ rest.2)) ∧
      ws.flatMap (Window.bytes g v beyond) =
        ((clusterBytes g v A).drop (offset - p)).take (offset + len - max p offset) ∧
      (∀ w ∈ ws, w.start + w.len ≤ g.bytesPerCluster) ∧
      (ws.map Window.len).sum + min (p - offset) len = min (p + A.length * g.bytesPerCluster - offset) len := by
  induction A generalizing s p with
  | nil =>
    refine ⟨[], by rw [List.length_nil, Nat.zero_mul]; rfl, by simp [clusterBytes], fun w hw => (by cases hw), ?_⟩
    rw [List.map_nil, List.sum_nil, List.length_nil, Nat.zero_mul, Nat.zero_add, Nat.add_zero]
  | cons c A ih =>
    obtain ⟨rfl, hdata, hrest⟩ := hlink
    rw [List.length_cons, Nat.succ_mul] at hfit ⊢
    have hbytes : clusterBytes g v (s :: A) = (List.range g.bytesPerCluster).map (v.disk s) ++ clusterBytes g v A := rfl
    have hone := map_disk_length g v s
    have hnext : p + (A.length * g.bytesPerCluster + g.bytesPerCluster) =
        p + g.bytesPerCluster + A.length * g.bytesPerCluster := by omega
    rw [hnext, ← Nat.add_assoc]
    obtain ⟨ws, hrun, hcopied, hin, hcount⟩ := ih (p := p + g.bytesPerCluster) hrest (by omega)
    by_cases hover : offset + len ≤ p
    · -- everything has been read
      refine ⟨[], ?_, ?_, fun w hw => (by cases hw), ?_⟩
      · rw [Nat.min_eq_right (by omega), Nat.min_eq_right (by omega), readAtLoop_done le_rfl, readAtLoop_done le_rfl]
        rfl
      · rw [Nat.sub_eq_zero_of_le (by omega : offset + len ≤ max p offset), List.take_zero]
        rfl
      · rw [List.map_nil, List.sum_nil]
        omega
    by_cases hskip : p + g.bytesPerCluster ≤ offset
    · refine ⟨ws, ?_, ?_, hin, ?_⟩
      · rw [Nat.min_eq_left (by omega), Nat.sub_eq_zero_of_le (by omega : p ≤ offset),
          readAtLoop_skip hg hdata hlen hskip (by omega)]
        rw [Nat.min_eq_left (by omega), Nat.sub_eq_zero_of_le hskip] at hrun
        exact hrun
      · have hdrop : (clusterBytes g v (s :: A)).drop (offset - p) =
            (clusterBytes g v A).drop (offset - (p + g.bytesPerCluster)) := by
          rw [hbytes, ← Nat.sub_sub, ← drop_behind hone (by omega)]
        rw [hcopied, hdrop, Nat.max_eq_right hskip, Nat.max_eq_right (by omega)]
      · omega
    · refine ⟨⟨s, offset - p, min (offset + len - p) g.bytesPerCluster - (offset - p)⟩ :: ws, ?_, ?_, ?_, ?_⟩
      · rw [Nat.min_eq_left (by omega), readAtLoop_read hg hdata hsum (by omega) (by omega) (by omega) hlen]
        dsimp only
        rw [show p - offset + (min (offset + len - p) g.bytesPerCluster - (offset - p)) =
          min (p + g.bytesPerCluster - offset) len by omega, hrun]
        rfl
      · have hin1 : offset - p + (min (offset + len - p) g.bytesPerCluster - (offset - p)) ≤
          g.bytesPerCluster := by omega
        have hrest0 : offset - (p + g.bytesPerCluster) = 0 := by omega
        rw [List.flatMap_cons, hcopied, hrest0, List.drop_zero, bytes_window hin1, hbytes,
          part_append hone (by omega : offset - p ≤ g.bytesPerCluster)]
        dsimp only
        congr 2
        · omega
        · omega
      · intro w hw
        obtain rfl | hw := List.mem_cons.mp hw
        · dsimp only
          omega
        · exact hin w hw
      · rw [List.map_cons, List.sum_cons]
        dsimp only
        omega

theorem length_windows (g : Geom) (v : Vol) (beyond : Mem) (ws : List Window) :
    (ws.flatMap (Window.bytes g v beyond)).length = (ws.map Window.len).sum := by
  induction ws with
  | nil => rfl
  | cons w ws ih =>
    rw [List.flatMap_cons, List.length_append, ih, List.map_cons, List.sum_cons, Window.bytes,
      List.length_map, List.length_range]

/-- Clusters before the part are skipped, whatever its length. -/
theorem readAtLoop_skips (hg : g.Ok) (hlink : Linked g v s (A ++ B)) (hlen : 0 < len) (hoff : offset < 2 ^ 32)
    (hend : p + A.length * g.bytesPerCluster ≤ offset) (fuel : ℕ) :
    readAtLoop g v offset len (fuel + A.length) s p 0 =
      readAtLoop g v offset len fuel (entryAfter g v s A) (p + A.length * g.bytesPerCluster) 0 := by
  induction A generalizing s p with
  | nil => rw [List.length_nil, Nat.zero_mul]; rfl
  | cons c A ih =>
    obtain ⟨rfl, hdata, hrest⟩ := hlink
    rw [List.length_cons, Nat.succ_mul] at hend ⊢
    rw [← Nat.add_assoc, readAtLoop_skip hg hdata hlen (by omega) hoff, ih hrest (by omega)]
    congr 1
    omega

/-- The return value for the entry that the path leads to. -/
def readAtOf (g : Geom) (v : Vol) (n : ℕ) (e : Mem) (offset len : ℕ) : ℤ × List Window :=
  if len = 0 ∨ entrySize e ≤ offset then (0, [])
  else
    let r := readAtLoop g v offset (if entrySize e < u32 (offset + len) then entrySize e - offset else len) n
      (entryCluster e) 0 0
    (toInt r.1, r.2)

/-- No sum wraps on the way to the end of the part: neither that of its offset and length nor the
end of the cluster with its last byte, and the number of bytes is no negative `int`. -/
def PartFits (g : Geom) (size offset len : ℕ) : Prop :=
  offset + len < 2 ^ 32 ∧
    ((offset + min len (size - offset) - 1) / g.bytesPerCluster + 1) * g.bytesPerCluster < 2 ^ 32 ∧
    min len (size - offset) < 2 ^ 31

section Part

variable {L : List ℕ} {size : ℕ} (hg : g.Ok) (hB : g.bytesPerCluster < 2 ^ 32) (hn : L.length ≤ n)
  (hlink : Linked g v s L) (hcount : L.length = clustersFor g size) (hsize : size < 2 ^ 32)
  (hoff : offset < size)

include hg hcount in
/-- The clusters of a file hold all of it, and no cluster is too many. -/
theorem clusters_bounds : size ≤ L.length * g.bytesPerCluster ∧
    L.length * g.bytesPerCluster < size + g.bytesPerCluster := by
  have hroom := hg.room
  rw [hcount, clustersFor]
  have h1 := Nat.div_mul_le_self (size + g.bytesPerCluster - 1) g.bytesPerCluster
  have h2 := Nat.lt_div_mul_add (a := size + g.bytesPerCluster - 1) (b := g.bytesPerCluster) (by omega)
  omega

include hg hlink hn hcount in
/-- A part that ends in a cluster whose end does not wrap is read. -/
theorem readAtLoop_fits (hlen : 0 < len) (hin : offset + len ≤ size)
    (hend : ((offset + len - 1) / g.bytesPerCluster + 1) * g.bytesPerCluster < 2 ^ 32) :
    ∃ ws, readAtLoop g v offset len n s 0 0 = (len, ws) ∧
      ws.flatMap (Window.bytes g v beyond) = ((clusterBytes g v L).drop offset).take len ∧
      ∀ w ∈ ws, w.start + w.len ≤ g.bytesPerCluster := by
  have hroom := hg.room
  obtain ⟨hall, -⟩ := clusters_bounds hg hcount
  obtain ⟨k, hk⟩ : ∃ k, (offset + len - 1) / g.bytesPerCluster + 1 = k := ⟨_, rfl⟩
  have hlast := Nat.lt_div_mul_add (a := offset + len - 1) (b := g.bytesPerCluster) (by omega)
  have hmul : k * g.bytesPerCluster = (offset + len - 1) / g.bytesPerCluster * g.bytesPerCluster +
    g.bytesPerCluster := by
    rw [← hk, Nat.succ_mul]
  have hkL : k ≤ L.length := by
    rw [← hk]
    exact (Nat.div_lt_iff_lt_mul (by omega)).mpr (by omega)
  have htake : (L.take k).length = k := List.length_take_of_le hkL
  have hsplit : L = L.take k ++ L.drop k := (List.take_append_drop k L).symm
  rw [hk] at hend
  rw [hsplit] at hlink
  have hsum : offset + len < 2 ^ 32 := by omega
  have hfit : 0 + (L.take k).length * g.bytesPerCluster < 2 ^ 32 := by rwa [htake, Nat.zero_add]
  obtain ⟨ws, hrun, hbytes, hinside, -⟩ := readAtLoop_append hg hlink hsum hlen hfit (n - k)
  rw [htake, Nat.sub_add_cancel (hkL.trans hn), Nat.zero_sub, Nat.zero_min, Nat.zero_add,
    Nat.min_eq_right (by omega : len ≤ k * g.bytesPerCluster - offset), readAtLoop_done le_rfl] at hrun
  refine ⟨ws ++ [], hrun, ?_, by rw [List.append_nil]; exact hinside⟩
  have hlenA : (clusterBytes g v (L.take k)).length = k * g.bytesPerCluster := by rw [length_clusterBytes, htake]
  rw [List.append_nil, hbytes, Nat.sub_zero, Nat.zero_max, Nat.add_sub_cancel_left, hsplit,
    clusterBytes_append, ← hsplit, part_append hlenA (by omega), Nat.min_eq_left (by omega),
    Nat.sub_eq_zero_of_le (by omega : len ≤ k * g.bytesPerCluster - offset), List.take_zero, List.append_nil]

include hg hB hlink hn hcount hsize hoff in
/-- When the offset and the length wrap, nothing is read, or more than the cluster buffer holds. -/
theorem readAtLoop_wraps (hlen : len < 2 ^ 32) (hwrap : 2 ^ 32 ≤ offset + len) :
    (readAtLoop g v offset len n s 0 0).2 = [] ∨
      ∃ w ∈ (readAtLoop g v offset len n s 0 0).2, g.bytesPerCluster < w.start + w.len := by
  have hroom := hg.room
  obtain ⟨hall, hfew⟩ := clusters_bounds hg hcount
  obtain ⟨k, hk⟩ : ∃ k, offset / g.bytesPerCluster = k := ⟨_, rfl⟩
  have hdiv := Nat.div_add_mod offset g.bytesPerCluster
  have hmod := Nat.mod_lt offset (show 0 < g.bytesPerCluster by omega)
  rw [hk, Nat.mul_comm] at hdiv
  have hkL : k < L.length := by
    by_contra hge
    have := Nat.mul_le_mul_right g.bytesPerCluster (Nat.not_lt.mp hge)
    omega
  have htake : (L.take k).length = k := List.length_take_of_le hkL.le
  have hsplit : L = L.take k ++ L[k] :: L.drop (k + 1) := by
    rw [← List.drop_eq_getElem_cons hkL, List.take_append_drop]
  rw [hsplit] at hlink
  have hlen0 : 0 < len := by omega
  have hoff' : offset < 2 ^ 32 := by omega
  have hend : 0 + (L.take k).length * g.bytesPerCluster ≤ offset := by
    rw [htake, Nat.zero_add]
    omega
  have hskip := readAtLoop_skips hg hlink hlen0 hoff' hend (n - k)
  obtain ⟨hhead, hdata, hrest⟩ := hlink.after
  rw [htake, Nat.sub_add_cancel (hkL.le.trans hn), Nat.zero_add, hhead,
    show n - k = n - k - 1 + 1 by omega, readAtLoop, if_pos ⟨hlen0, hdata.1, hdata.not_end hg⟩] at hskip
  dsimp only at hskip
  rw [hskip]
  by_cases hover : 2 ^ 32 ≤ k * g.bytesPerCluster + g.bytesPerCluster
  · -- the end of the last cluster wraps, and the cluster is skipped
    have hclusterEnd : u32 (k * g.bytesPerCluster + g.bytesPerCluster) ≤ offset := by
      unfold u32
      omega
    have hnil : L.drop (k + 1) = [] := by
      refine List.drop_eq_nil_of_le (Nat.not_lt.mp fun hlt => ?_)
      have := Nat.mul_le_mul_right g.bytesPerCluster (show k + 2 ≤ L.length from hlt)
      rw [Nat.add_mul, Nat.two_mul] at this
      omega
    rw [hnil] at hrest
    rw [if_pos hclusterEnd, readAtLoop_end hrest]
    exact Or.inl rfl
  · have hclusterEnd : u32 (k * g.bytesPerCluster + g.bytesPerCluster) = k * g.bytesPerCluster + g.bytesPerCluster :=
      u32_of_lt (by omega)
    have hstart : (if k * g.bytesPerCluster < offset then offset - k * g.bytesPerCluster else 0) =
        offset - k * g.bytesPerCluster := by
      split <;> omega
    have hsmall : u32 (offset + len) < k * g.bytesPerCluster + g.bytesPerCluster := by
      unfold u32
      omega
    have hcopied : u32 (u32 (u32 (offset + len) + (2 ^ 32 - k * g.bytesPerCluster)) +
        (2 ^ 32 - (offset - k * g.bytesPerCluster))) = len := by
      unfold u32
      omega
    rw [hclusterEnd, if_neg (by omega), if_pos hsmall, hstart, hcopied]
    refine Or.inr ⟨_, List.mem_cons_self, ?_⟩
    dsimp only
    omega

include hg hB hlink hn hcount hsize in
/-- When the end of the last cluster wraps, too little is read, or too much. -/
theorem readAtLoop_late (hlen : 0 < len) (hin : offset + len ≤ size)
    (hend : 2 ^ 32 ≤ ((offset + len - 1) / g.bytesPerCluster + 1) * g.bytesPerCluster) :
    ((readAtLoop g v offset len n s 0 0).2.map Window.len).sum ≠ len := by
  have hroom := hg.room
  obtain ⟨hall, hfew⟩ := clusters_bounds hg hcount
  obtain ⟨k, hk⟩ : ∃ k, (offset + len - 1) / g.bytesPerCluster = k := ⟨_, rfl⟩
  have hdiv := Nat.div_add_mod (offset + len - 1) g.bytesPerCluster
  rw [hk, Nat.mul_comm] at hdiv
  rw [hk, Nat.succ_mul] at hend
  have hkL : k < L.length := by
    by_contra hge
    have := Nat.mul_le_mul_right g.bytesPerCluster (Nat.not_lt.mp hge)
    omega
  have hnil : L.drop (k + 1) = [] := by
    refine List.drop_eq_nil_of_le (Nat.not_lt.mp fun hlt => ?_)
    have := Nat.mul_le_mul_right g.bytesPerCluster (show k + 2 ≤ L.length from hlt)
    rw [Nat.add_mul, Nat.two_mul] at this
    omega
  have htake : (L.take k).length = k := List.length_take_of_le hkL.le
  have hsplit : L = L.take k ++ L[k] :: L.drop (k + 1) := by
    rw [← List.drop_eq_getElem_cons hkL, List.take_append_drop]
  rw [hsplit] at hlink
  have hsum : offset + len < 2 ^ 32 := by omega
  have hfit : 0 + (L.take k).length * g.bytesPerCluster < 2 ^ 32 := by
    rw [htake]
    omega
  have hfirst := @readAtLoop_append g v s 0 offset len (L.take k) (L[k] :: L.drop (k + 1)) (fun _ => 0)
  obtain ⟨ws, hrun, -, -, hcopied⟩ := hfirst hg hlink hsum hlen hfit (n - k)
  obtain ⟨hhead, hdata, hrest⟩ := hlink.after
  have hmin : min (k * g.bytesPerCluster - offset) len = k * g.bytesPerCluster - offset := by omega
  rw [hnil] at hrest
  rw [htake, Nat.zero_sub, Nat.zero_min, Nat.zero_add, Nat.add_zero, hmin] at hcopied
  rw [htake, Nat.sub_add_cancel (hkL.le.trans hn), Nat.zero_sub, Nat.zero_min, Nat.zero_add, hmin, hhead,
    show n - k = n - k - 1 + 1 by omega, readAtLoop, if_pos ⟨by omega, hdata.1, hdata.not_end hg⟩] at hrun
  dsimp only at hrun
  rw [hrun, List.map_append, List.sum_append, hcopied, readAtLoop_end hrest, readAtLoop_end hrest]
  have hclusterEnd : u32 (k * g.bytesPerCluster + g.bytesPerCluster) =
      k * g.bytesPerCluster + g.bytesPerCluster - 2 ^ 32 := by
    unfold u32
    omega
  rw [hclusterEnd]
  split
  · rw [List.map_nil, List.sum_nil]
    omega
  · rename_i hmore
    have hlarge : ¬ u32 (offset + len) < k * g.bytesPerCluster + g.bytesPerCluster - 2 ^ 32 := by
      unfold u32
      omega
    have hstart : (if k * g.bytesPerCluster < offset then offset - k * g.bytesPerCluster else 0) = 0 := by
      rw [if_neg (by omega)]
    have hcluster : u32 (g.bytesPerCluster + (2 ^ 32 - 0)) = g.bytesPerCluster := by
      unfold u32
      omega
    rw [if_neg hlarge, hstart, hcluster, List.map_cons, List.sum_cons, List.map_nil, List.sum_nil]
    dsimp only
    omega

include hg hB hn hcount hsize in
/-- The part is read if and only if it is empty or no sum wraps. -/
theorem readsPart_iff (beyond : Mem) {e : Mem} (he : entrySize e = size)
    (hs : FileChain g v (entryCluster e) L) (hoff : offset < 2 ^ 32)
    (hlen : len < 2 ^ 32) : ReadsPart g v beyond ((clusterBytes g v L).take size) offset len
      (readAtOf g v n e offset len) ↔ len = 0 ∨ size ≤ offset ∨ PartFits g size offset len := by
  obtain ⟨hall, -⟩ := clusters_bounds hg hcount
  have hsizeL : ((clusterBytes g v L).take size).length = size := by
    rw [List.length_take, length_clusterBytes, Nat.min_eq_left hall]
  have hpart : ((((clusterBytes g v L).take size).drop offset).take len).length = min len (size - offset) := by
    rw [List.length_take, List.length_drop, hsizeL]
  rw [← or_assoc]
  by_cases hnone : len = 0 ∨ size ≤ offset
  · refine iff_of_true ?_ (Or.inl hnone)
    have hzero : min len (size - offset) = 0 := by omega
    rw [readAtOf, he, if_pos hnone]
    refine ⟨by rw [hsizeL, hzero]; rfl, ?_, Nat.zero_le _, fun w hw => (by cases hw)⟩
    exact (List.eq_nil_of_length_eq_zero (hpart.trans hzero)).symm
  rw [or_iff_right hnone, readAtOf, he, if_neg hnone]
  dsimp only
  have hlink : Linked g v (entryCluster e) L := by
    rcases hs with ⟨rfl, -⟩ | ⟨-, hlink⟩
    · rw [List.length_nil, Nat.zero_mul] at hall
      omega
    · exact hlink
  by_cases hwrap : 2 ^ 32 ≤ offset + len
  · refine iff_of_false (fun h => ?_) fun h => Nat.not_lt.mpr hwrap h.1
    have hkept : ¬ size < u32 (offset + len) := by
      unfold u32
      omega
    rw [if_neg hkept] at h
    rcases readAtLoop_wraps hg hB hn hlink hcount hsize (by omega) hlen hwrap with hnil | ⟨w, hw, hout⟩
    · have hbytes := congrArg List.length h.bytes
      rw [hnil, hpart] at hbytes
      rw [List.flatMap_nil, List.length_nil] at hbytes
      omega
    · exact Nat.not_lt.mpr (h.inside w hw) hout
  have hclip : (if size < u32 (offset + len) then size - offset else len) = min len (size - offset) := by
    rw [u32_of_lt (by omega)]
    split <;> omega
  rw [hclip]
  have hpos : 0 < min len (size - offset) := by omega
  by_cases hlate : 2 ^ 32 ≤ ((offset + min len (size - offset) - 1) / g.bytesPerCluster + 1) * g.bytesPerCluster
  · refine iff_of_false (fun h => ?_) fun h => Nat.not_lt.mpr hlate h.2.1
    have hcopied := readAtLoop_late hg hB hn hlink hcount hsize hpos (by omega) hlate
    refine hcopied ?_
    rw [← length_windows g v beyond, h.bytes, hpart]
  obtain ⟨ws, hrun, hbytes, hinside⟩ : ∃ ws, readAtLoop g v offset (min len (size - offset)) n
      (entryCluster e) 0 0 = (min len (size - offset), ws) ∧ ws.flatMap (Window.bytes g v beyond) =
        ((clusterBytes g v L).drop offset).take (min len (size - offset)) ∧
      ∀ w ∈ ws, w.start + w.len ≤ g.bytesPerCluster :=
    readAtLoop_fits hg hn hlink hcount hpos (by omega) (Nat.not_le.mp hlate)
  rw [hrun]
  dsimp only
  have hgiven : ws.flatMap (Window.bytes g v beyond) = (((clusterBytes g v L).take size).drop offset).take len := by
    rw [hbytes, List.drop_take, List.take_take]
  have hroom : (ws.map Window.len).sum ≤ len := by
    rw [← length_windows g v beyond, hgiven, hpart]
    omega
  constructor
  · intro h
    refine ⟨Nat.not_le.mp hwrap, Nat.not_le.mp hlate, Nat.not_le.mp fun hneg => ?_⟩
    have hcount := h.count
    rw [hsizeL, toInt, if_neg (by omega)] at hcount
    omega
  · intro h
    refine ⟨?_, hgiven, hroom, hinside⟩
    rw [hsizeL]
    exact if_pos h.2.2

end Part

/-- The content of a file: what its clusters hold, up to its size. -/
def FileContent (g : Geom) (v : Vol) (e : Mem) (content : Str) : Prop :=
  ∃ L, FileChain g v (entryCluster e) L ∧ content = (clusterBytes g v L).take (entrySize e)

theorem FileChain.unique (hg : g.Ok) {L' : List ℕ} (h : FileChain g v s L) (h' : FileChain g v s L') : L = L' := by
  have hdata : ∀ {L : List ℕ}, L ≠ [] → Linked g v s L → 2 ≤ s := by
    intro L hne hlink
    cases L with
    | nil => exact absurd rfl hne
    | cons c L => exact hlink.1 ▸ hlink.2.1.1
  rcases h with ⟨rfl, hs⟩ | ⟨hne, hlink⟩ <;> rcases h' with ⟨rfl, hs'⟩ | ⟨hne', hlink'⟩
  · rfl
  · have := hdata hne' hlink'
    omega
  · have := hdata hne hlink
    omega
  · exact hlink.unique hg hlink'

theorem FileChain.length_le (hg : g.Ok) (h : FileChain g v s L) : L.length ≤ g.totalClusters := by
  rcases h with ⟨rfl, -⟩ | ⟨-, hlink⟩
  · exact Nat.zero_le _
  · exact hlink.length_le hg

/-- Where the path leads to a file, the loop runs over its clusters. -/
theorem fat32ReadFileAt_full {path : Str} {A : Str} {u : Visit} (hparent : parentOf g v n cwd path = some (d, A))
    (hfind : readFinds g v n d A = some u) (hfile : isDirectory u.entry = false) :
    (fat32ReadFileAt g n path offset len).run (full v cwd) =
    (some (readAtOf g v n u.entry offset len), full v cwd) := by
  unfold fat32ReadFileAt readAtOf
  by_cases hlen : len = 0
  · rw [if_pos hlen, if_pos (Or.inl hlen)]
    rfl
  rw [if_neg hlen, bind_run, resolveParent_full, hparent]
  dsimp only
  rw [bind_run, lookup_full, hfind]
  dsimp only
  rw [hfile, if_neg Bool.false_ne_true]
  by_cases hend : entrySize u.entry ≤ offset
  · rw [if_pos hend, if_pos (Or.inr hend)]
    rfl
  · rw [if_neg hend, if_neg (not_or.mpr ⟨hlen, hend⟩)]
    rfl

/-- A part of a file is read if and only if it is empty or no sum wraps on the way to its end. -/
theorem read_part_iff {path : Str} {A content : Str} {u : Visit} (hg : g.Ok) (hB : g.bytesPerCluster < 2 ^ 32)
    (hn : g.totalClusters ≤ n) (hv : Consistent g v n) (hparent : parentOf g v n cwd path = some (d, A))
    (hfind : readFinds g v n d A = some u) (hu : InTree g v n d u) (hfile : isDirectory u.entry = false)
    (hcontent : FileContent g v u.entry content) (hoff : offset < 2 ^ 32) (hlen : len < 2 ^ 32) :
    (∃ r, (fat32ReadFileAt g n path offset len).run (full v cwd) = (some r, full v cwd) ∧
        ReadsPart g v beyond content offset len r) ↔
      len = 0 ∨ entrySize u.entry ≤ offset ∨ PartFits g (entrySize u.entry) offset len := by
  obtain ⟨L, hL, rfl⟩ := hcontent
  obtain ⟨L', hL', hcount⟩ := hv.files d u hu hfile
  rw [← hL.unique hg hL'] at hcount
  have hsize : entrySize u.entry < 2 ^ 32 := Mem.getLE_lt _ _ _
  rw [fat32ReadFileAt_full hparent hfind hfile,
    ← readsPart_iff hg hB ((hL.length_le hg).trans hn) hcount hsize beyond rfl hL hoff hlen]
  constructor
  · rintro ⟨r, hr, hread⟩
    rwa [Option.some.inj (Prod.mk.inj hr).1]
  · exact fun h => ⟨_, rfl, h⟩

theorem nameVol_content : FileContent longGeom nameVol nameVisit.entry [0, 0, 0, 0] :=
  ⟨[3], Or.inr ⟨List.cons_ne_nil _ _, linked_nameVol⟩, by decide +kernel⟩

/-- With an offset of 1 and a length of `2 ^ 32 - 1` all of the length is copied out of the cluster
buffer. -/
theorem part_leaves_buffer : ¬ ∀ (g : Geom) (v : Vol) (n cwd d offset len : ℕ) (beyond : Mem) (path A content : Str)
    (u : Visit), g.Ok → g.bytesPerCluster < 2 ^ 32 → g.totalClusters ≤ n → Consistent g v n →
    parentOf g v n cwd path = some (d, A) → readFinds g v n d A = some u → InTree g v n d u →
    isDirectory u.entry = false → FileContent g v u.entry content → offset < 2 ^ 32 → len < 2 ^ 32 →
    ∃ r, (fat32ReadFileAt g n path offset len).run (full v cwd) = (some r, full v cwd) ∧
      ReadsPart g v beyond content offset len r := by
  intro h
  have hfind : readFinds longGeom nameVol 126 0 [108, 111, 110, 103, 102, 105, 108, 101, 46, 116,
      120, 116] = some nameVisit := rfl
  obtain ⟨r, hr, hread⟩ := h longGeom nameVol 126 0 0 1 (2 ^ 32 - 1) (fun _ => 0)
    [108, 111, 110, 103, 102, 105, 108, 101, 46, 116, 120, 116]
    [108, 111, 110, 103, 102, 105, 108, 101, 46, 116, 120, 116] [0, 0, 0, 0] nameVisit longGeom_ok
    (by decide) (by decide)
    nameVol_consistent rfl hfind nameVol_inTree (by decide) nameVol_content (by decide) (by decide)
  rw [fat32ReadFileAt_full rfl hfind (by decide)] at hr
  have hr' := Option.some.inj (Prod.mk.inj hr).1
  have hwindows : (readAtOf longGeom nameVol 126 nameVisit.entry 1 (2 ^ 32 - 1)).2 = [⟨3, 1, 2 ^ 32 - 1⟩] := by
    decide +kernel
  have hin := hread.inside ⟨3, 1, 2 ^ 32 - 1⟩ (by rw [← hr', hwindows]; exact List.mem_singleton_self _)
  exact absurd hin (by decide)

/-- Two bytes from the second one on. -/
theorem read_part_two : ∃ r, (fat32ReadFileAt longGeom 126
    [108, 111, 110, 103, 102, 105, 108, 101, 46, 116, 120, 116] 1 2).run (full nameVol 0) = (some r, full nameVol 0) ∧
    ReadsPart longGeom nameVol (fun _ => 0) [0, 0, 0, 0] 1 2 r :=
  (read_part_iff longGeom_ok (by decide) (by decide) nameVol_consistent
    (show parentOf longGeom nameVol 126 0 [108, 111, 110, 103, 102, 105, 108, 101, 46, 116, 120,
    116] = some (0, _) from rfl) (show _ = some nameVisit from rfl)
    nameVol_inTree (by decide) nameVol_content (by decide) (by decide)).mpr
    (Or.inr (Or.inr ⟨by decide, by decide, by decide⟩))

end ComputerOS.Fat32
