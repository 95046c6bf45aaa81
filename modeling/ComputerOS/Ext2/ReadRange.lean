import ComputerOS.Ext2.Coherent

/-!
`read_range` reads whole runs of blocks in one device request. It gives the caller the bytes that
the loop gives which asks for every block by itself, when the blocks of a request, which follow each
other by number, follow each other on the device.
-/
namespace ComputerOS.Ext2

open Prog

variable {g : Geom} {D : ℕ → Mem} {ind : Inode} {rel level blk lb : ℕ}

section Map

variable (g : Geom) (D : ℕ → Mem)

/-- Entry `i` of an indirect block. -/
def pointer (p : Mem) (i : ℕ) : ℕ := p.getLE (4 * i) 4

/-- The data block below an indirect block, when `D` gives the bytes of the blocks. -/
def mapDown (rel : ℕ) : ℕ → ℕ → ℕ
  | 0, blk => blk
  | level + 1, blk =>
      let next := pointer (D blk) (rel / g.span level % g.ppb)
      if next = 0 then 0 else mapDown rel level next

/-- The block that holds logical block `lb`, 0 for a hole. -/
def mapBlock (ind : Inode) (lb : ℕ) : ℕ :=
  if lb < EXT2_NDIR then ind.block lb
  else match g.treeOf lb with
    | none => 0
    | some (depth, rel) => if ind.block (11 + depth) = 0 then 0 else mapDown g D rel depth (ind.block (11 + depth))

/-- The indirect blocks on the way to a data block have `P`. -/
def WayIn (P : ℕ → Prop) (rel : ℕ) : ℕ → ℕ → Prop
  | 0, _ => True
  | level + 1, blk =>
      let next := pointer (D blk) (rel / g.span level % g.ppb)
      P blk ∧ (next ≠ 0 → WayIn P rel level next)

/-- The indirect blocks that `bmap` reads for logical block `lb` have `P`. -/
def MapIn (P : ℕ → Prop) (ind : Inode) (lb : ℕ) : Prop :=
  EXT2_NDIR ≤ lb → ∀ depth rel, g.treeOf lb = some (depth, rel) → ind.block (11 + depth) ≠ 0 →
    WayIn g D P rel depth (ind.block (11 + depth))

end Map

theorem mapDown_lt (hblk : blk < 2 ^ 32) : mapDown g D rel level blk < 2 ^ 32 := by
  induction level generalizing blk with
  | zero => exact hblk
  | succ level ih =>
    unfold mapDown
    dsimp only
    split
    · decide
    · exact ih (Mem.getLE_lt _ _ 4)

theorem mapBlock_lt (lb : ℕ) : mapBlock g D ind lb < 2 ^ 32 := by
  have hblock : ∀ i, ind.block i < 2 ^ 32 := fun i => Mem.getLE_lt _ _ 4
  unfold mapBlock
  split
  · exact hblock _
  · split
    · decide
    · split
      · decide
      · exact mapDown_lt (hblock _)

section Exec

variable {σ : Type} {e : (c : Call) → σ → Option (c.Reply × σ)} {s : σ} {P : ℕ → Prop}

theorem exec_call {α : Type} (c : Call) {r : c.Reply} {s' : σ} (h : e c s = some (r, s')) (k : c.Reply → Prog α) :
    (Calling.ask c >>= k).exec e s = (k r).exec e s' :=
  Calling.exec_bind_of_some ((Calling.exec_ask c s).trans h)

variable (hD : ∀ blk, P blk → e (.bread blk) s = some (some (D blk), s))

include hD

theorem exec_bmapDown (goal : ℕ) (h : WayIn g D P rel level blk) :
    (bmapDown g goal rel false level blk ind).exec e s = some ((mapDown g D rel level blk, ind), s) := by
  induction level generalizing blk with
  | zero => rfl
  | succ level ih =>
    unfold bmapDown mapDown Prog.bread
    rw [exec_call _ (hD blk h.1)]
    by_cases hnext : pointer (D blk) (rel / g.span level % g.ppb) = 0
    · have hnext' : (D blk).getLE (4 * (rel / g.span level % g.ppb)) 4 = 0 := hnext
      rw [if_pos hnext]
      simp only [hnext', ne_eq, not_true_eq_false, if_false, if_true]
      rfl
    · have hnext' : (D blk).getLE (4 * (rel / g.span level % g.ppb)) 4 ≠ 0 := hnext
      rw [if_neg hnext]
      simp only [hnext', ne_eq, not_false_eq_true, if_true]
      exact ih (h.2 hnext)

/-- Without allocation `bmap` only reads. -/
theorem exec_bmap (goal : ℕ) (h : MapIn g D P ind lb) :
    (bmap g ind goal lb false).exec e s = some ((mapBlock g D ind lb, ind), s) := by
  unfold bmap mapBlock
  by_cases hdir : lb < EXT2_NDIR
  · rw [if_pos hdir, if_pos hdir, if_neg (fun hc => Bool.false_ne_true hc.2)]
    rfl
  · rw [if_neg hdir, if_neg hdir]
    rcases htree : g.treeOf lb with _ | ⟨depth, rel⟩
    · rfl
    · dsimp only
      by_cases hroot : ind.block (11 + depth) = 0
      · rw [if_pos hroot, if_neg (not_not.mpr hroot), if_pos rfl]
        rfl
      · rw [if_neg hroot, if_pos hroot]
        exact exec_bmapDown hD goal (h (Nat.not_lt.mp hdir) depth rel htree hroot)

end Exec

def blockOn (g : Geom) (disk : Mem) (blk : ℕ) : Mem := readSectors disk (g.sector blk) g.spb

def reading (g : Geom) (disk : Mem) : (c : Call) → Unit → Option (c.Reply × Unit)
  | .bread blk, u => some (some (blockOn g disk blk), u)
  | .devRead blk count, u => some (some (readSectors disk (g.sector blk) (count * g.spb)), u)
  | _, _ => none

/-- A machine with this disk, a coherent cache, and a device that never fails. -/
structure Serves (g : Geom) (disk : Mem) (m : Machine) : Prop where
  disk_eq : m.disk = disk
  coherent : Coherent g m.cache m.disk
  works : ∀ i, m.io i = .ok

theorem Serves.bread {disk : Mem} {m : Machine} (h : Serves g disk m) (blk : ℕ) :
    (m.bread g blk).1 = some (blockOn g disk blk) ∧ Serves g disk (m.bread g blk).2 := by
  unfold Machine.bread
  rcases hf : m.cacheFind blk with _ | i
  · dsimp only [Machine.setEnt, Machine.devRead]
    rw [h.works 0]
    have hdata : readSectors m.disk (g.sector blk) (1 * g.spb) = blockOn g disk blk := by
      rw [Nat.one_mul, h.disk_eq]
      rfl
    refine ⟨congrArg some hdata, h.disk_eq, ?_, fun i => h.works (i + 1)⟩
    have hfree : Coherent g (Function.update m.cache m.cacheVictim
      { m.cache m.cacheVictim with valid := false }) m.disk :=
      h.coherent.invalidate rfl
    refine hfree.install (fun j hj hne hv => ?_) (by rw [Nat.one_mul])
    rw [Function.update_of_ne hne] at hv ⊢
    exact cacheFind_none hf hj hv
  · obtain ⟨hi, hv, hblk⟩ := cacheFind_some hf
    refine ⟨?_, h.disk_eq, h.coherent.restamp _, h.works⟩
    have hdata := h.coherent.current i hi hv
    rw [hblk, h.disk_eq] at hdata
    exact congrArg some hdata

/-- What a reading program finds on the disk it finds through the cache. -/
theorem Serves.run {disk : Mem} {m : Machine} (h : Serves g disk m) {α : Type} {x : Prog α} {a : α}
    (hx : x.exec (reading g disk) () = some (a, ())) : (x.run (cached g) m).1 = a := by
  suffices hsim : ∀ c (u : Unit) (m : Machine) r u', Serves g disk m →
      reading g disk c u = some (r, u') → (cached g c m).1 = r ∧ Serves g disk (cached g c m).2 from
    (Calling.run_of_exec hsim h hx).1
  intro c u m r u' hm hc
  cases c with
  | bread blk =>
    obtain ⟨hr, hm'⟩ := hm.bread blk
    cases hc
    exact ⟨hr, hm'⟩
  | devRead blk count =>
    cases hc
    refine ⟨?_, ?_⟩
    · dsimp only [cached, Machine.devRead]
      rw [hm.works 0, hm.disk_eq]
    · dsimp only [cached, Machine.devRead]
      rw [hm.works 0]
      exact ⟨hm.disk_eq, hm.coherent, fun i => hm.works (i + 1)⟩
  | _ => cases hc

/-- The loop that reads every logical block by itself. -/
def plainLoop (g : Geom) (ind : Inode) (off len : ℕ) : ℕ → ℕ → Mem → Prog (Bool × Mem)
  | 0, _, out => pure (true, out)
  | n + 1, done, out =>
      if done < len then do
        let pos := off + done
        let boff := pos % g.blockSize
        let chunk := min (g.blockSize - boff) (len - done)
        let (pb, _) ← bmap g ind 0 (pos / g.blockSize) false
        if pb = 0 then plainLoop g ind off len n (done + chunk) (out.blit done (fun _ => 0) 0 chunk)
        else do
          match ← devRead pb 1 with
          | none => pure (false, out)
          | some p => plainLoop g ind off len n (done + chunk) (out.blit done p boff chunk)
      else pure (true, out)

def plainRange (g : Geom) (ind : Inode) (out : Mem) (off len : ℕ) : Prog (Option ℕ × Mem) := do
  if ind.size ≤ off then pure (some 0, out)
  else do
    let len := min len (ind.size - off)
    let (ok, out) ← plainLoop g ind off len len 0 out
    pure (if ok then some len else none, out)

def byteAt (g : Geom) (disk : Mem) (ind : Inode) (pos : ℕ) : UInt8 :=
  let pb := mapBlock g (blockOn g disk) ind (pos / g.blockSize)
  if pb = 0 then 0 else blockOn g disk pb (pos % g.blockSize)

/-- The buffer with bytes `done` to `len - 1` read. -/
def filled (g : Geom) (disk : Mem) (ind : Inode) (off len done : ℕ) (out : Mem) : Mem := fun i =>
  if done ≤ i ∧ i < len then byteAt g disk ind (off + i) else out i

section Loops

variable {disk out : Mem} {off len done n pb chunk : ℕ}

theorem reads_bmap (goal lb : ℕ) : (bmap g ind goal lb false).exec (reading g disk) () =
    some ((mapBlock g (blockOn g disk) ind lb, ind), ()) := by
  have hway : ∀ rel level blk, WayIn g (blockOn g disk) (fun _ => True) rel level blk := by
    intro rel level
    induction level with
    | zero => exact fun _ => trivial
    | succ level ih => exact fun blk => ⟨trivial, fun _ => ih _⟩
  exact exec_bmap (fun blk _ => rfl) goal fun _ depth rel _ _ => hway _ _ _

/-- Bytes that go on where the buffer is filled from. -/
theorem filled_blit {src : Mem} {b : ℕ} (hle : done + chunk ≤ len)
    (hsrc : ∀ j, j < chunk → src (b + j) = byteAt g disk ind (off + (done + j))) :
    filled g disk ind off len (done + chunk) (out.blit done src b chunk) = filled g disk ind off len done out := by
  funext i
  unfold filled
  by_cases hlow : i < done
  · rw [if_neg (by omega), if_neg (by omega), Mem.blit_ne (Or.inl hlow)]
  · by_cases hin : i < done + chunk
    · have hj := hsrc (i - done) (by omega)
      rw [Nat.add_sub_cancel' (by omega)] at hj
      rw [if_neg (by omega), if_pos (by omega), ← hj]
      have hat : out.blit done src b chunk (done + (i - done)) = src (b + (i - done)) := Mem.blit_at (by omega)
      rwa [Nat.add_sub_cancel' (by omega)] at hat
    · by_cases hlen : i < len
      · rw [if_pos (by omega), if_pos (by omega)]
      · rw [if_neg (by omega), if_neg (by omega), Mem.blit_ne (Or.inr (by omega))]

theorem filled_done (h : len ≤ done) : filled g disk ind off len done out = out := by
  funext i
  exact if_neg (by omega)

theorem byteAt_chunk {j : ℕ} (hj : j < min (g.blockSize - (off + done) % g.blockSize) (len - done)) :
    (off + (done + j)) / g.blockSize = (off + done) / g.blockSize ∧
      (off + (done + j)) % g.blockSize = (off + done) % g.blockSize + j := by
  have hlt := Nat.mod_lt (off + done) g.blockSize_pos
  have hsum : off + (done + j) = (off + done) % g.blockSize + j + g.blockSize * ((off + done) / g.blockSize) := by
    have := Nat.mod_add_div (off + done) g.blockSize
    omega
  rw [hsum, Nat.add_mul_div_left _ _ g.blockSize_pos, Nat.add_mul_mod_self_left,
    Nat.div_eq_of_lt (by omega), Nat.mod_eq_of_lt (by omega)]
  exact ⟨Nat.zero_add _, rfl⟩

theorem chunk_pos (g : Geom) (off : ℕ) (h : done < len) :
    0 < min (g.blockSize - (off + done) % g.blockSize) (len - done) := by
  have hlt := Nat.mod_lt (off + done) g.blockSize_pos
  omega

/-- The bytes of one block, up to its end or to that of the buffer. -/
theorem filled_chunk {src : Mem} {b : ℕ} (hlt : done < len)
    (hchunk : chunk = min (g.blockSize - (off + done) % g.blockSize) (len - done))
    (hsrc : ∀ j, src (b + j) = if mapBlock g (blockOn g disk) ind ((off + done) / g.blockSize) = 0 then 0
      else blockOn g disk (mapBlock g (blockOn g disk) ind ((off + done) / g.blockSize))
        ((off + done) % g.blockSize + j)) :
    filled g disk ind off len (done + chunk) (out.blit done src b chunk) = filled g disk ind off len done out := by
  subst hchunk
  refine filled_blit (by omega) fun j hj => ?_
  obtain ⟨hdiv, hmod⟩ := byteAt_chunk hj
  unfold byteAt
  rw [hdiv, hmod]
  exact hsrc j

theorem plainLoop_fills (hn : len ≤ done + n) :
    (plainLoop g ind off len n done out).exec (reading g disk) () = some
    ((true, filled g disk ind off len done out), ()) := by
  induction n generalizing done out with
  | zero => rw [filled_done (by omega)]; rfl
  | succ n ih =>
    unfold plainLoop
    by_cases hlt : done < len
    · rw [if_pos hlt]
      dsimp only
      rw [Calling.exec_bind_of_some (reads_bmap 0 _)]
      have hpos := chunk_pos g off hlt
      by_cases hpb : mapBlock g (blockOn g disk) ind ((off + done) / g.blockSize) = 0
      · rw [if_pos hpb, ih (by omega), filled_chunk hlt rfl fun _ => (if_pos hpb).symm]
      · rw [if_neg hpb]
        unfold Prog.devRead
        rw [exec_call _ rfl]
        dsimp only
        rw [ih (by omega), filled_chunk hlt rfl]
        intro j
        rw [if_neg hpb, Nat.one_mul]
        rfl
    · rw [if_neg hlt, filled_done (by omega)]
      rfl

/-- Logical block `lb` lies behind the start of the range, and the block after it has the next
number. -/
def Chained (g : Geom) (disk : Mem) (ind : Inode) (off lb : ℕ) : Prop :=
  off ≤ lb * g.blockSize ∧ mapBlock g (blockOn g disk) ind lb ≠ 0 ∧
    mapBlock g (blockOn g disk) ind (lb + 1) = u32 (mapBlock g (blockOn g disk) ind lb + 1)

instance (g : Geom) (disk : Mem) (ind : Inode) (off lb : ℕ) : Decidable (Chained g disk ind off lb) :=
  inferInstanceAs (Decidable (_ ∧ _))

/-- How many blocks of the range stand before `lb` in its chain. -/
def place (g : Geom) (disk : Mem) (ind : Inode) (off : ℕ) : ℕ → ℕ
  | 0 => 0
  | lb + 1 => if Chained g disk ind off lb then place g disk ind off lb + 1 else 0

/-- Neighbours in one request, which takes 128 blocks of a chain at most, are neighbours on the
device. -/
def Follows (g : Geom) (disk : Mem) (ind : Inode) (off len : ℕ) : Prop :=
  ∀ lb, (lb + 2) * g.blockSize ≤ off + len → Chained g disk ind off lb →
  place g disk ind off lb % 128 ≠ 127 →
    let next := mapBlock g (blockOn g disk) ind (lb + 1)
    next ≠ 0 ∧ g.sector next = g.sector (mapBlock g (blockOn g disk) ind lb) + g.spb

/-- A run that has been found: `count` blocks from logical block `lb` on, in the buffer from `done`
on. -/
structure Run (g : Geom) (disk : Mem) (ind : Inode) (lb pb done len count : ℕ) : Prop where
  follow : ∀ k, k < count → mapBlock g (blockOn g disk) ind (lb + k) = u32 (pb + k)
  room : done + count * g.blockSize ≤ len
  bound : 1 ≤ count ∧ count ≤ 128

/-- The run is as long as it can be. -/
def Ends (g : Geom) (disk : Mem) (ind : Inode) (lb pb done len count : ℕ) : Prop :=
  count = 128 ∨ len < done + (count + 1) * g.blockSize ∨
  mapBlock g (blockOn g disk) ind (lb + count) ≠ u32 (pb + count)

theorem runLength_finds {lb pb count : ℕ} (hlen : len < 2 ^ 31) (hn : 128 ≤ n + count)
    (h : Run g disk ind lb pb done len count) :
    ∃ count', (runLength g ind lb pb done len n count).exec (reading g disk) () = some (count', ()) ∧
      Run g disk ind lb pb done len count' ∧ Ends g disk ind lb pb done len count' := by
  have hbound := h.bound
  induction n generalizing count with
  | zero => exact ⟨count, rfl, h, Or.inl (by omega)⟩
  | succ n ih =>
    have hroom := h.room
    have hfit : (count + 1) * g.blockSize ≤ 129 * 4096 :=
      Nat.mul_le_mul (by omega) (by rcases g.block_size with h | h | h <;> omega)
    have hsum : u32 (done + (count + 1) * g.blockSize) = done + (count + 1) * g.blockSize :=
      Nat.mod_eq_of_lt (by omega)
    unfold runLength
    rw [hsum]
    by_cases hmore : count < 128 ∧ done + (count + 1) * g.blockSize ≤ len
    · rw [if_pos hmore, Calling.exec_bind_of_some (reads_bmap 0 _)]
      dsimp only
      by_cases hnext : mapBlock g (blockOn g disk) ind (lb + count) = u32 (pb + count)
      · rw [if_pos hnext]
        refine ih (by omega) ⟨fun k hk => ?_, hmore.2, by omega⟩ (by omega)
        rcases Nat.lt_succ_iff_lt_or_eq.mp hk with hlt | rfl
        · exact h.follow k hlt
        · exact hnext
      · rw [if_neg hnext]
        exact ⟨count, rfl, h, Or.inr (Or.inr hnext)⟩
    · rw [if_neg hmore]
      refine ⟨count, rfl, h, ?_⟩
      unfold Ends
      omega

section Place

variable {lb pb count : ℕ}

/-- The blocks of a run are neighbours on the device, and stand in their chain one after the other.
-/
theorem Run.sectors (h : Run g disk ind lb pb done len count) (hf : Follows g disk ind off len)
    (hstart : off + done = lb * g.blockSize) (hplace : place g disk ind off lb % 128 = 0)
    (hpb : mapBlock g (blockOn g disk) ind lb = pb) (h0 : pb ≠ 0) (k : ℕ) (hk : k < count) :
    mapBlock g (blockOn g disk) ind (lb + k) ≠ 0 ∧ place g disk ind off (lb + k) = place g disk ind off lb + k ∧
      g.sector (mapBlock g (blockOn g disk) ind (lb + k)) = g.sector pb + k * g.spb := by
  induction k with
  | zero =>
    rw [Nat.add_zero, hpb, Nat.zero_mul]
    exact ⟨h0, rfl, rfl⟩
  | succ k ih =>
    obtain ⟨hne, hat, hsector⟩ := ih (by omega)
    have hnext : mapBlock g (blockOn g disk) ind (lb + k + 1) = u32 (mapBlock g (blockOn g disk) ind (lb + k) + 1) := by
      have hfollow := h.follow (k + 1) hk
      rw [h.follow k (by omega), Nat.add_assoc, hfollow]
      unfold u32
      omega
    have hend : (lb + k + 2) * g.blockSize ≤ off + len := by
      have hroom := h.room
      have hle : (k + 2) * g.blockSize ≤ count * g.blockSize := Nat.mul_le_mul_right _ hk
      rw [Nat.add_assoc, Nat.add_mul]
      omega
    have hlow : off ≤ (lb + k) * g.blockSize := by
      rw [Nat.add_mul]
      omega
    have hchained : Chained g disk ind off (lb + k) := ⟨hlow, hne, hnext⟩
    have hinside : place g disk ind off (lb + k) % 128 ≠ 127 := by
      have hbound := h.bound
      omega
    obtain ⟨hne', hsector'⟩ := hf (lb + k) hend hchained hinside
    refine ⟨hne', ?_, ?_⟩
    · rw [← Nat.add_assoc, place, if_pos hchained, hat, Nat.add_assoc]
    · rw [← Nat.add_assoc, hsector', hsector, Nat.succ_mul, Nat.add_assoc]

/-- Behind a run that is as long as it can be, another request begins. -/
theorem Run.place_end (h : Run g disk ind lb pb done len count) (hf : Follows g disk ind off len)
    (hend : Ends g disk ind lb pb done len count) (hstart : off + done = lb * g.blockSize)
    (hplace : place g disk ind off lb % 128 = 0) (hpb : mapBlock g (blockOn g disk) ind lb = pb) (h0 : pb ≠ 0)
    (hmore : (lb + count + 1) * g.blockSize ≤ off + len) : place g disk ind off (lb + count) % 128 = 0 := by
  obtain ⟨c, rfl⟩ : ∃ c, count = c + 1 := ⟨count - 1, by have := h.bound; omega⟩
  obtain ⟨-, hat, -⟩ := h.sectors hf hstart hplace hpb h0 c (Nat.lt_succ_self c)
  rw [← Nat.add_assoc, place]
  split
  · rename_i hchained
    rcases hend with hfull | hroom | hbreak
    · rw [hat]
      omega
    · rw [Nat.add_assoc, Nat.add_mul, ← hstart] at hmore
      omega
    · refine absurd ?_ hbreak
      rw [← Nat.add_assoc, hchained.2.2, h.follow c (Nat.lt_succ_self c)]
      unfold u32
      omega
  · rfl

end Place

theorem Run.bytes {lb pb count : ℕ} (h : Run g disk ind lb pb done len count) (hf : Follows g disk ind off len)
    (hstart : off + done = lb * g.blockSize) (hplace : place g disk ind off lb % 128 = 0)
    (hpb : mapBlock g (blockOn g disk) ind lb = pb) (h0 : pb ≠ 0) (j : ℕ) (hj : j < count * g.blockSize) :
    readSectors disk (g.sector pb) (count * g.spb) (0 + j) = byteAt g disk ind (off + (done + j)) := by
  have hsize := g.blockSize_pos
  have hk : j / g.blockSize < count := Nat.div_lt_of_lt_mul (by rwa [Nat.mul_comm])
  have hmod := Nat.mod_lt j hsize
  have hsum : off + (done + j) = j + g.blockSize * lb := by
    rw [Nat.mul_comm g.blockSize lb]
    omega
  obtain ⟨hne, -, hsector⟩ := h.sectors hf hstart hplace hpb h0 (j / g.blockSize) hk
  have hdiv : (off + (done + j)) / g.blockSize = lb + j / g.blockSize := by
    rw [hsum, Nat.add_mul_div_left _ _ hsize, Nat.add_comm]
  have hoff : (off + (done + j)) % g.blockSize = j % g.blockSize := by rw [hsum, Nat.add_mul_mod_self_left]
  have hbytes : 512 * (count * g.spb) = count * g.blockSize := by
    rw [← g.sectors_eq]
    ring
  unfold byteAt
  rw [hdiv, hoff]
  dsimp only
  rw [if_neg hne, Nat.zero_add, readSectors, Mem.clip_of_lt (by rwa [hbytes]), blockOn, readSectors,
    Mem.clip_of_lt (by rwa [g.sectors_eq]), hsector]
  refine congrArg disk ?_
  calc
    512 * g.sector pb + j = 512 * g.sector pb + (j / g.blockSize * g.blockSize + j % g.blockSize) := by
      rw [Nat.div_add_mod']
    _ = 512 * (g.sector pb + j / g.blockSize * g.spb) + j % g.blockSize := by
      rw [← g.sectors_eq]
      ring

/-- The first whole block from `done` on begins a request. -/
def AtRequest (g : Geom) (disk : Mem) (ind : Inode) (off len done : ℕ) : Prop :=
  ∀ lb, off + done ≤ lb * g.blockSize → lb * g.blockSize < off + done + g.blockSize →
    (lb + 1) * g.blockSize ≤ off + len → place g disk ind off lb % 128 = 0

theorem atRequest_zero : AtRequest g disk ind off len 0 := by
  intro lb _ hlt _
  cases lb with
  | zero => rfl
  | succ lb =>
    have hnot : ¬ Chained g disk ind off lb := by
      intro h
      have hle := h.1
      rw [Nat.add_mul] at hlt
      omega
    rw [place, if_neg hnot]

/-- Behind a part of a block, or a hole, the same holds. -/
theorem AtRequest.behind (h : AtRequest g disk ind off len done)
    (hnot : ¬ Chained g disk ind off ((off + done) / g.blockSize) ∨ ¬ ((off + done) % g.blockSize = 0 ∧
      min (g.blockSize - (off + done) % g.blockSize) (len - done) = g.blockSize)) :
    AtRequest g disk ind off len (done + min (g.blockSize - (off + done) % g.blockSize) (len - done)) := by
  intro lb hlow hlt hmore
  have hpos := g.blockSize_pos
  have hmod := Nat.mod_add_div (off + done) g.blockSize
  have hrem := Nat.mod_lt (off + done) hpos
  rw [Nat.mul_comm] at hmod
  rw [Nat.add_mul] at hmore
  -- the chunk ends with its block, since the range does not end there
  have hend : off + (done + min (g.blockSize - (off + done) % g.blockSize) (len - done)) =
      ((off + done) / g.blockSize + 1) * g.blockSize := by
    rw [Nat.add_mul]
    omega
  rw [hend] at hlow hlt
  obtain rfl : (off + done) / g.blockSize + 1 = lb := by
    have h1 := Nat.le_of_mul_le_mul_right hlow hpos
    have h2 : lb < (off + done) / g.blockSize + 1 + 1 :=
      Nat.lt_of_mul_lt_mul_right (a := g.blockSize) (by rwa [Nat.add_mul, one_mul])
    omega
  rw [Nat.add_mul] at hend
  by_cases hzero : (off + done) % g.blockSize = 0
  · have hchained : ¬ Chained g disk ind off ((off + done) / g.blockSize) :=
      hnot.resolve_right (not_not.mpr ⟨hzero, by omega⟩)
    rw [place, if_neg hchained]
  · exact h _ (by rw [Nat.add_mul]; omega) (by rw [Nat.add_mul]; omega) (by rw [Nat.add_mul]; omega)

theorem readLoop_fills (hlen : len < 2 ^ 31) (hf : Follows g disk ind off len) (hn : len ≤ done + n)
    (hat : AtRequest g disk ind off len done) :
    (readLoop g ind off len n done out).exec (reading g disk) () =
      some ((true, filled g disk ind off len done out), ()) := by
  induction n generalizing done out with
  | zero => rw [filled_done (by omega)]; rfl
  | succ n ih =>
    unfold readLoop
    by_cases hlt : done < len
    · rw [if_pos hlt]
      dsimp only
      rw [Calling.exec_bind_of_some (reads_bmap 0 _)]
      have hpos := chunk_pos g off hlt
      by_cases hpb : mapBlock g (blockOn g disk) ind ((off + done) / g.blockSize) = 0
      · rw [if_pos hpb, ih (by omega) (hat.behind (Or.inl fun h => h.2.1 hpb)),
          filled_chunk hlt rfl fun _ => (if_pos hpb).symm]
      rw [if_neg hpb]
      dsimp only
      by_cases hwhole : (off + done) % g.blockSize = 0 ∧
          min (g.blockSize - (off + done) % g.blockSize) (len - done) = g.blockSize
      · rw [if_pos hwhole]
        obtain ⟨h0, hchunk⟩ := hwhole
        have hstart : off + done = (off + done) / g.blockSize * g.blockSize := by
          have := Nat.mod_add_div (off + done) g.blockSize
          rw [Nat.mul_comm] at this
          omega
        have hfirst := hat _ hstart.le (by omega) (by rw [Nat.add_mul]; omega)
        have hone : Run g disk ind ((off + done) / g.blockSize)
            (mapBlock g (blockOn g disk) ind ((off + done) / g.blockSize)) done len 1 := by
          refine ⟨fun k hk => ?_, by omega, by omega⟩
          obtain rfl : k = 0 := by omega
          exact (Nat.mod_eq_of_lt (mapBlock_lt _)).symm
        obtain ⟨count, hcount, hrun, hend⟩ := runLength_finds hlen le_rfl hone
        have hroom := hrun.room
        have hbytes : 1 * g.blockSize ≤ count * g.blockSize := Nat.mul_le_mul_right _ hrun.bound.1
        have hafter : AtRequest g disk ind off len (done + count * g.blockSize) := by
          intro lb hlow hlt hmore
          have hblock : lb = (off + done) / g.blockSize + count := by
            rw [← Nat.add_assoc, hstart, ← Nat.add_mul] at hlow hlt
            have h1 := Nat.le_of_mul_le_mul_right hlow g.blockSize_pos
            have h2 : lb < (off + done) / g.blockSize + count + 1 :=
              Nat.lt_of_mul_lt_mul_right (a := g.blockSize) (by rwa [Nat.add_mul _ 1, one_mul])
            omega
          rw [hblock] at hmore ⊢
          exact hrun.place_end hf hend hstart hfirst rfl hpb hmore
        rw [Calling.exec_bind_of_some hcount]
        unfold Prog.devRead
        rw [exec_call _ rfl]
        dsimp only
        rw [ih (by omega) hafter, filled_blit hroom]
        exact hrun.bytes hf hstart hfirst rfl hpb
      · rw [if_neg hwhole]
        unfold Prog.bread
        rw [exec_call _ rfl]
        dsimp only
        rw [ih (by omega) (hat.behind (Or.inr hwhole)), filled_chunk hlt rfl fun _ => (if_neg hpb).symm]
    · rw [if_neg hlt, filled_done (by omega)]
      rfl

end Loops

section Range

variable {disk out : Mem} {off len : ℕ}

theorem readRange_fills (hsize : ind.size < 2 ^ 31) (hf : Follows g disk ind off (min len (ind.size - off))) :
    (readRange g ind out off len).exec (reading g disk) () =
      some ((some (min len (ind.size - off)), filled g disk ind off (min len (ind.size - off)) 0 out), ()) := by
  unfold readRange
  by_cases hoff : ind.size ≤ off
  · rw [if_pos hoff, Nat.sub_eq_zero_of_le hoff, Nat.min_zero, filled_done le_rfl]
    rfl
  · rw [if_neg hoff]
    dsimp only
    rw [Calling.exec_bind_of_some (readLoop_fills (by omega) hf (by omega) atRequest_zero)]
    rfl

theorem plainRange_fills : (plainRange g ind out off len).exec (reading g disk) () =
    some ((some (min len (ind.size - off)), filled g disk ind off (min len (ind.size - off)) 0 out), ()) := by
  unfold plainRange
  by_cases hoff : ind.size ≤ off
  · rw [if_pos hoff, Nat.sub_eq_zero_of_le hoff, Nat.min_zero, filled_done le_rfl]
    rfl
  · rw [if_neg hoff]
    dsimp only
    rw [Calling.exec_bind_of_some (plainLoop_fills (by omega))]
    rfl

/-- On a device that never fails and with a coherent cache, `read_range` and the plain loop fill the
same bytes and leave the rest of the buffer alone. -/
theorem readRange_plain {m : Machine} (hm : Serves g disk m) (hsize : ind.size < 2 ^ 31)
    (hf : Follows g disk ind off (min len (ind.size - off))) :
    ((readRange g ind out off len).run (cached g) m).1 = ((plainRange g ind out off len).run (cached g) m).1 ∧
      ((readRange g ind out off len).run (cached g) m).1.1 = some (min len (ind.size - off)) ∧
      ∀ i, min len (ind.size - off) ≤ i → ((readRange g ind out off len).run (cached g) m).1.2 i = out i := by
  rw [hm.run (readRange_fills hsize hf), hm.run plainRange_fills]
  exact ⟨rfl, rfl, fun i hi => if_neg (by omega)⟩

end Range

/-- A file of two blocks, the second of which starts at sector 2^32. -/
def borderFile : Inode := Inode.setBlock (Inode.setBlock (Inode.setSize zeros 8192) (2 ^ 29 - 1) 0) (2 ^ 29) 1

/-- A device with a 7 behind sector 2^32. -/
def borderMachine : Machine where
  cache := fun _ => ⟨0, 0, false, zeros⟩
  clock := 0
  disk := Function.update zeros (512 * 2 ^ 32) 7
  md := ⟨zeros, zeros, false, none⟩
  io := fun _ => .ok
  times := fun _ => 0
  heap := fun _ => true
  log := []

theorem borderMachine_serves : Serves wideGeom borderMachine.disk borderMachine where
  disk_eq := rfl
  coherent := ⟨fun _ _ _ _ hv _ _ => (by cases hv), fun _ _ hv => by cases hv⟩
  works _ := rfl

/-- A file of four blocks and fifty bytes: two neighbours, a hole, and a last block that is read in
part. -/
def mixedFile : Inode :=
  Inode.setBlock (Inode.setBlock (Inode.setBlock (Inode.setBlock (Inode.setSize zeros 16434) 77 0)
    (2 ^ 29 - 3) 1) (2 ^ 29 - 2) 2) (2 ^ 29 - 1) 4

/-- From byte 100 on the neighbours are read in one request, the first block and the last one by
themselves. -/
theorem readRange_plain_mixed :
    ((readRange wideGeom mixedFile zeros 100 20000).run (cached wideGeom) borderMachine).1 =
        ((plainRange wideGeom mixedFile zeros 100 20000).run (cached wideGeom) borderMachine).1 ∧
      ((readRange wideGeom mixedFile zeros 100 20000).run (cached wideGeom) borderMachine).1.1 =
        some (min 20000 (mixedFile.size - 100)) ∧
      ∀ i, min 20000 (mixedFile.size - 100) ≤ i →
        ((readRange wideGeom mixedFile zeros 100 20000).run (cached wideGeom) borderMachine).1.2 i = zeros i := by
  refine readRange_plain borderMachine_serves (by decide) fun lb hle hchain _ => ?_
  have hlen : min 20000 (mixedFile.size - 100) = 16334 := by decide
  have hsize : wideGeom.blockSize = 4096 := rfl
  have hlow := hchain.1
  rw [hlen, hsize] at hle
  rw [hsize] at hlow
  have hlb : lb = 1 ∨ lb = 2 := by omega
  rcases hlb with rfl | rfl
  · decide
  · exact absurd hchain (by decide)

/-- The two blocks in one request, and each by itself. -/
theorem readRange_border : Serves wideGeom borderMachine.disk borderMachine ∧ borderFile.size < 2 ^ 31 ∧
    ((readRange wideGeom borderFile zeros 0 8192).run (cached wideGeom) borderMachine).1.2 4096 = 7 ∧
    ((plainRange wideGeom borderFile zeros 0 8192).run (cached wideGeom) borderMachine).1.2 4096 = 0 :=
  ⟨borderMachine_serves, by decide, by decide +kernel, by decide +kernel⟩

end ComputerOS.Ext2
