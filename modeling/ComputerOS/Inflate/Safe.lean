import ComputerOS.Inflate.InRange

/-!
The functions of the decompressor keep their accesses in range, the bits counted and the output
within its buffer. With that the trailer that is compared stands directly behind the bits that were
taken, all of which are in the input.
-/
namespace ComputerOS.Inflate

open Looping Accesses

variable {src : List UInt8} {cap n fuel : ℕ} {events : List Event}

/-- Between two functions that read from `src` and write to a buffer of `cap` bytes. -/
structure Sound (src : List UInt8) (cap : ℕ) (t : Traced St Event) : Prop where
  ok : AllOk t.log
  counted : t.st.bs.Counted (dropped t.log)
  source : t.st.bs.src = src
  size : t.st.out.cap = cap
  room : t.st.out.data.length ≤ cap

theorem Sound.note {t : Traced St Event} (h : Sound src cap t) (he : AllQuiet events) :
    Sound src cap ⟨t.st, events ++ t.log⟩ :=
  ⟨he.allOk.append h.ok, by rw [dropped_append, he.dropped, Nat.zero_add]; exact h.counted, h.source, h.size, h.room⟩

theorem note_holds (he : AllQuiet events) : Holds (Sound src cap) (note events) fun _ => True :=
  Keeps.note fun _ ht => ⟨trivial, ht.note he⟩

theorem readBits_holds (hn : n ≤ 24) : Holds (Sound src cap) (Accesses.readBits n) fun _ => True := by
  refine Keeps.traced fun t ht => ⟨fun a s' hrun => ?_, fun s' hrun => ?_⟩
  · obtain ⟨hcounted, hsrc, hok, hdrop⟩ := bsRead_counted ht.counted hn
    obtain ⟨-, rfl⟩ := Prod.mk.inj (Option.some.inj hrun)
    refine ⟨trivial, hok.append ht.ok, ?_, hsrc.trans ht.source, ht.size, ht.room⟩
    rw [dropped_append, hdrop, Nat.add_comm]
    exact hcounted
  · cases (Prod.mk.inj (Option.some.inj hrun)).1

theorem align_holds : Holds (Sound src cap) Accesses.align fun _ => True := by
  refine Keeps.traced fun t ht => ⟨fun a s' hrun => ?_, fun s' hrun => ?_⟩
  · obtain ⟨hcounted, hsrc, -, hok, hdrop⟩ := bsAlign_counted ht.counted
    obtain ⟨-, rfl⟩ := Prod.mk.inj (Option.some.inj hrun)
    refine ⟨trivial, hok.append ht.ok, ?_, hsrc.trans ht.source, ht.size, ht.room⟩
    rw [dropped_append, hdrop, Nat.add_comm]
    exact hcounted
  · cases (Prod.mk.inj (Option.some.inj hrun)).1

theorem readU16_holds : Holds (Sound src cap) Accesses.readU16 fun _ => True := by
  refine align_holds.bind fun _ _ => (readBits_holds (by decide)).bind fun _ _ =>
    (readBits_holds (by decide)).bind fun _ _ => ?_
  exact (note_holds (AllQuiet.cons (shift_quiet (by decide)) allQuiet_nil)).bind fun _ _ => Holds.pure trivial

theorem decode_holds {h : Huffman} (hsyms : h.nsyms ≤ HUFF_MAX_SYMS) :
    Holds (Sound src cap) (Accesses.decode h) fun _ => True := by
  have hlens : ∀ len ∈ List.range' 1 HUFF_MAX_BITS, len ≤ HUFF_MAX_BITS := by
    intro len hlen
    have := List.mem_range'_1.mp hlen
    omega
  have hspec := fun t (ht : Sound src cap t) => huffDecodeFrom_counted hsyms hlens 0 ht.counted
  refine Keeps.traced fun t ht => ⟨fun a s' hrun => ?_, fun s' hrun => ?_⟩
  all_goals
    obtain ⟨hcounted, hsrc, hok⟩ := hspec t ht
    obtain ⟨-, rfl⟩ := Prod.mk.inj (Option.some.inj hrun)
    have hsound : Sound src cap ⟨{ t.st with bs := (huffDecode h t.st.bs).2 },
        huffDecodeEvents h (List.range' 1 HUFF_MAX_BITS) 0 t.st.bs ++ t.log⟩ := by
      refine ⟨hok.append ht.ok, ?_, hsrc.trans ht.source, ht.size, ht.room⟩
      rw [dropped_append, Nat.add_comm]
      exact hcounted
  · exact ⟨trivial, hsound⟩
  · exact hsound

theorem build_holds {base size : ℕ} {lengths : List ℕ} (h : base + lengths.length ≤ size)
    (hsyms : lengths.length ≤ HUFF_MAX_SYMS) :
    Holds (Sound src cap) (Accesses.build base size lengths) fun t => t.nsyms ≤ HUFF_MAX_SYMS := by
  have hquiet := huffBuildEvents_quiet h hsyms
  refine Keeps.traced fun t ht => ⟨fun a s' hrun => ?_, fun s' hrun => ?_⟩
  · obtain ⟨hb, rfl⟩ := Prod.mk.inj (Option.some.inj hrun)
    obtain ⟨-, hnsyms, -⟩ := huffBuild_some hb
    exact ⟨hnsyms.le.trans hsyms, ht.note hquiet⟩
  · obtain ⟨-, rfl⟩ := Prod.mk.inj (Option.some.inj hrun)
    exact ht.note hquiet

theorem outByte_run (b : UInt8) (s : St) :
    (s.out.cap ≤ s.out.data.length ∧ (Inflate.outByte b).run s = some (none, s)) ∨
      (s.out.data.length < s.out.cap ∧ (Inflate.outByte b).run s = some
      (some (), { s with out := { s.out with data := s.out.data ++ [b] } })) := by
  by_cases h : s.out.cap ≤ s.out.data.length
  · exact Or.inl ⟨h, congrArg some (if_pos h)⟩
  · exact Or.inr ⟨Nat.not_le.mp h, congrArg some (if_neg h)⟩

/-- A byte is written, and what has been written stays. -/
theorem outByte_keeps (b : UInt8) (m : ℕ) : Keeps (fun t => m ≤ t.st.out.data.length ∧
    Sound src cap t) (Accesses.outByte b)
    (fun _ t => m ≤ t.st.out.data.length ∧ Sound src cap t) (Sound src cap) := by
  refine Keeps.traced fun t ht => ?_
  obtain ⟨hm, hs⟩ := ht
  rcases outByte_run b t.st with ⟨hfull, hrun⟩ | ⟨hroom, hrun⟩
  · rw [if_pos hfull]
    refine ⟨fun a s' h => ?_, fun s' h => ?_⟩
    · rw [hrun] at h
      cases h
    · rw [hrun] at h
      cases h
      exact hs
  · rw [if_neg (by omega)]
    refine ⟨fun a s' h => ?_, fun s' h => ?_⟩
    · rw [hrun] at h
      cases h
      have hquiet : AllQuiet [Event.access t.st.out.data.length t.st.out.cap] :=
        AllQuiet.cons (access_quiet hroom) allQuiet_nil
      have hnote := hs.note hquiet
      have hcap := hs.size
      refine ⟨?_, hnote.ok, hnote.counted, hnote.source, hnote.size, ?_⟩
      · change m ≤ (t.st.out.data ++ [b]).length
        rw [List.length_append]
        omega
      · change (t.st.out.data ++ [b]).length ≤ cap
        rw [List.length_append, List.length_singleton]
        omega
    · rw [hrun] at h
      cases h

theorem outByte_holds (b : UInt8) : Holds (Sound src cap) (Accesses.outByte b) fun _ => True :=
  (outByte_keeps b 0).mono (fun _ h => ⟨Nat.zero_le _, h⟩) (fun _ _ h => ⟨trivial, h.2⟩) fun _ h =>
  h

theorem getSt_keeps {P E : Traced St Event → Prop} : Keeps P getSt (fun s t => t.st = s ∧ P t) E := by
  refine Keeps.traced fun t ht => ⟨fun s s' h => ?_, fun s' h => by cases h⟩
  cases h
  exact ⟨rfl, ht⟩

/-- The bytes behind the position are read within what has been written. -/
theorem outCopyBytes_keeps (hcap : cap < 2 ^ 32) {dist : ℕ} (hdist : 0 < dist) (len : ℕ) :
    Keeps (fun t => dist ≤ t.st.out.data.length ∧ Sound src cap t) (Accesses.outCopyBytes dist len)
      (fun _ t => dist ≤ t.st.out.data.length ∧ Sound src cap t) (Sound src cap) := by
  induction len with
  | zero => exact Keeps.pure fun _ h => h
  | succ len ih =>
    refine Keeps.bind getSt_keeps fun s => ?_
    refine Keeps.bind (Q := fun _ t => dist ≤ t.st.out.data.length ∧ Sound src cap t)
      (Keeps.note fun t ht => ?_) fun _ => ?_
    · obtain ⟨rfl, hle, hs⟩ := ht
      have hroom := hs.room
      have hc := hs.size
      refine ⟨hle, hs.note (AllQuiet.cons (access_quiet ?_) allQuiet_nil)⟩
      unfold u32
      omega
    · exact (outByte_keeps _ dist).bind fun _ => ih

theorem outCopy_holds (hcap : cap < 2 ^ 32) {dist : ℕ} (hdist : 0 < dist) (len : ℕ) :
    Holds (Sound src cap) (Accesses.outCopy dist len) fun _ => True := by
  refine Keeps.bind getSt_keeps fun s => ?_
  refine Keeps.bind (Q := fun _ t => dist ≤ t.st.out.data.length ∧ Sound src cap t)
    (Keeps.check (fun t hc ht => ?_) fun t ht => ht.2) fun _ => ?_
  · obtain ⟨rfl, hs⟩ := ht
    exact ⟨of_decide_eq_true hc, hs⟩
  · exact (outCopyBytes_keeps hcap hdist len).mono (fun _ h => h) (fun _ _ h => ⟨trivial, h.2⟩) fun _ h => h

theorem backReference_holds (hcap : cap < 2 ^ 32) {distH : Huffman} (hsyms : distH.nsyms ≤ HUFF_MAX_SYMS) (lcode : ℕ) :
    Holds (Sound src cap) (Accesses.backReference distH lcode) fun _ => True := by
  have hbase : ∀ i < 30, 0 < distBase.getD i 0 := by decide
  refine (Holds.check _).bind fun _ hl => ?_
  have hlcode := access_quiet (of_decide_eq_true hl)
  refine (note_holds (AllQuiet.cons hlcode (AllQuiet.cons hlcode allQuiet_nil))).bind fun _ _ => ?_
  refine (readBits_holds (lenExtra_le lcode)).bind fun _ _ => (decode_holds hsyms).bind fun dcode _ => ?_
  refine (Holds.check _).bind fun _ hd => ?_
  have hdcode := access_quiet (of_decide_eq_true hd)
  refine (note_holds (AllQuiet.cons hdcode (AllQuiet.cons hdcode allQuiet_nil))).bind fun _ _ => ?_
  refine (readBits_holds (distExtra_le dcode)).bind fun extraDist _ => ?_
  exact outCopy_holds hcap (Nat.lt_of_lt_of_le (hbase dcode (of_decide_eq_true hd)) (Nat.le_add_right _ _)) _

theorem inflateBlock_holds (hcap : cap < 2 ^ 32) {litlen distH : Huffman} (hlit : litlen.nsyms ≤ HUFF_MAX_SYMS)
    (hdist : distH.nsyms ≤ HUFF_MAX_SYMS) :
    Holds (Sound src cap) (Accesses.inflateBlock fuel litlen distH) fun _ => True := by
  refine Holds.loop (fun _ => True) (fun _ _ => ?_) fuel trivial
  refine (decode_holds hlit).bind fun sym _ => Holds.ite (fun _ => ?_) fun _ => Holds.ite (fun _ => ?_) fun _ => ?_
  · exact (outByte_holds _).bind fun _ _ => Holds.pure trivial
  · exact Holds.pure trivial
  · exact (backReference_holds hcap hdist _).bind fun _ _ => Holds.pure trivial

/-- The places of the order that remain are within the order. -/
theorem readClLengths_holds {places : List ℕ} (i : ℕ) (hplaces : ∀ x ∈ places, x < 19) (hi : i + places.length ≤ 19)
    {lens : List ℕ} (hlens : lens.length = 19) :
    Holds (Sound src cap) (Accesses.readClLengths i places lens) fun lens => lens.length = 19 := by
  induction places generalizing i lens with
  | nil => exact Holds.pure hlens
  | cons place places ih =>
    rw [List.length_cons] at hi
    refine (readBits_holds (by decide)).bind fun l _ => ?_
    have hplace := access_quiet (hplaces place List.mem_cons_self)
    refine (note_holds (AllQuiet.cons (access_quiet (by omega)) (AllQuiet.cons hplace allQuiet_nil))).bind fun _ _ => ?_
    exact ih (i + 1) (fun x hx => hplaces x (List.mem_cons_of_mem place hx)) (by omega) (by rw [List.length_set, hlens])

theorem repeatEvents_quiet {total : ℕ} (htotal : total ≤ 286 + 30) (rep i : ℕ) :
    AllQuiet (Accesses.repeatEvents total rep i) := by
  induction rep generalizing i with
  | zero => exact allQuiet_nil
  | succ rep ih =>
    rw [Accesses.repeatEvents]
    split
    · exact AllQuiet.cons (access_quiet (by omega)) (ih (i + 1))
    · exact allQuiet_nil

theorem length_repeatLength_le {total v : ℕ} (rep : ℕ) {lens : List ℕ} (h : lens.length ≤ total) :
    (repeatLength total v rep lens).length ≤ total := by
  induction rep generalizing lens with
  | zero => exact h
  | succ rep ih =>
    rw [repeatLength]
    split
    · refine ih ?_
      rw [List.length_append, List.length_singleton]
      omega
    · exact h

theorem codeLengths_holds {clTree : Huffman} (hsyms : clTree.nsyms ≤ HUFF_MAX_SYMS) {total : ℕ}
    (htotal : total ≤ 286 + 30) :
    Holds (Sound src cap) (loop (Accesses.codeLengthTurn clTree total) fuel []) fun lens => lens.length = total := by
  refine Holds.loop (fun lens => lens.length ≤ total) (fun lens hlens => ?_) fuel (Nat.zero_le total)
  have hrepeat : ∀ rep, Holds (Sound src cap) (note (repeatEvents total rep lens.length)) fun _ => True :=
    fun rep => note_holds (repeatEvents_quiet htotal rep lens.length)
  refine Holds.ite (fun h => Holds.pure (by omega)) fun hlt => (decode_holds hsyms).bind fun sym _ => ?_
  refine Holds.ite (fun _ => ?_) fun _ => Holds.ite (fun _ => ?_) fun _ => Holds.ite (fun _ => ?_) fun _ =>
    Holds.ite (fun _ => ?_) fun _ => Holds.fail
  · refine (note_holds (AllQuiet.cons (access_quiet (by omega)) allQuiet_nil)).bind fun _ _ => Holds.pure ?_
    change (lens ++ [sym]).length ≤ total
    rw [List.length_append, List.length_singleton]
    omega
  · refine (Holds.check _).bind fun _ _ => (readBits_holds (by decide)).bind fun rep _ => ?_
    exact (note_holds (AllQuiet.cons (access_quiet (by omega)) (repeatEvents_quiet htotal _ _))).bind fun _ _ =>
      Holds.pure (length_repeatLength_le _ hlens)
  · exact (readBits_holds (by decide)).bind fun rep _ => (hrepeat _).bind fun _ _ =>
      Holds.pure (length_repeatLength_le _ hlens)
  · exact (readBits_holds (by decide)).bind fun rep _ => (hrepeat _).bind fun _ _ =>
      Holds.pure (length_repeatLength_le _ hlens)

theorem inflateDynamic_holds (hcap : cap < 2 ^ 32) : Holds (Sound src cap)
    (Accesses.inflateDynamic fuel) fun _ => True := by
  have horder : ∀ x ∈ codelenOrder, x < 19 := by decide
  refine (readBits_holds (by decide)).bind fun hlit _ => (readBits_holds (by decide)).bind fun hdist _ => ?_
  refine (readBits_holds (by decide)).bind fun hclen _ => (Holds.check _).bind fun _ hc => ?_
  simp only [Bool.and_eq_true, decide_eq_true_eq] at hc
  refine (note_holds (AllQuiet.map fun i hi => access_quiet (List.mem_range.mp hi))).bind fun _ _ => ?_
  refine (readClLengths_holds 0 (fun x hx => horder x (List.mem_of_mem_take hx)) ?_ (List.length_replicate)).bind
    fun clLengths hcl => ?_
  · rw [List.length_take]
    change 0 + min _ 19 ≤ 19
    omega
  refine (build_holds (by omega) (by rw [hcl]; decide)).bind fun clTree hclTree => ?_
  refine (codeLengths_holds hclTree (by omega)).bind fun lens hlens => ?_
  have hmax : HUFF_MAX_SYMS = 288 := rfl
  refine (build_holds ?_ ?_).bind fun litlenTree hlitlen => (build_holds ?_ ?_).bind fun distTree hdistTree => ?_
  · rw [List.length_take]
    omega
  · rw [List.length_take]
    omega
  · rw [List.length_drop]
    omega
  · rw [List.length_drop]
    omega
  · exact inflateBlock_holds hcap hlitlen hdistTree

theorem storedBytes_holds (m : ℕ) : Holds (Sound src cap) (Accesses.storedBytes m) fun _ => True := by
  induction m with
  | zero => exact Holds.pure trivial
  | succ m ih => exact (readBits_holds (by decide)).bind fun b _ => (outByte_holds _).bind fun _ _ => ih

theorem storedBlock_holds : Holds (Sound src cap) Accesses.storedBlock fun _ => True :=
  align_holds.bind fun _ _ => readU16_holds.bind fun _ _ => readU16_holds.bind fun _ _ =>
  (Holds.check _).bind fun _ _ =>
    storedBytes_holds _

theorem block_holds (hcap : cap < 2 ^ 32) (btype : ℕ) :
    Holds (Sound src cap) (Accesses.block fuel btype) fun _ => True := by
  refine Holds.ite (fun _ => storedBlock_holds) fun _ => Holds.ite (fun _ => ?_) fun _ =>
    Holds.ite (fun _ => ?_) fun _ =>
    Holds.fail
  · exact inflateBlock_holds hcap (by decide +kernel) (by decide +kernel)
  · exact inflateDynamic_holds hcap

theorem blocks_hold (hcap : cap < 2 ^ 32) :
    Holds (Sound src cap) (loop (fun _ => Accesses.blockTurn fuel) fuel ()) fun _ => True := by
  refine Holds.loop (fun _ => True) (fun _ _ => ?_) fuel trivial
  refine (readBits_holds (by decide)).bind fun finalBlock _ => (readBits_holds (by decide)).bind fun btype _ => ?_
  refine (block_holds hcap btype).bind fun _ _ => Holds.pure ?_
  split <;> trivial

variable {inp : List UInt8} {pos : ℕ}

/-- Nothing but accesses has happened. -/
def Begun (s : St) (t : Traced St Event) : Prop := t.st = s ∧ AllQuiet t.log

theorem note_begun {s : St} (he : AllQuiet events) : Holds (Begun s) (note events) fun _ => True :=
  Keeps.note fun _ ht => ⟨trivial, ht.1, he.append ht.2⟩

theorem skipField_holds {s : St} (flag : Bool) (pos : ℕ) :
    Holds (Begun s) (Accesses.skipField flag inp fuel pos) fun _ => True := by
  refine Holds.ite (fun _ => ?_) fun _ => Holds.pure trivial
  refine Holds.loop (fun _ => True) (fun pos _ => ?_) fuel trivial
  refine (note_begun ?_).bind fun _ _ => Holds.pure (by split <;> trivial)
  split
  · rename_i h
    exact AllQuiet.cons (access_quiet h) allQuiet_nil
  · exact allQuiet_nil

theorem gzipHeader_holds {s : St} : Holds (Begun s) (Accesses.gzipHeader inp fuel) fun pos => pos < inp.length := by
  refine (Holds.check _).bind fun _ hc => ?_
  have h18 : 18 ≤ inp.length := of_decide_eq_true hc
  have hat : ∀ i < 18, (Event.access i inp.length).Quiet := fun i hi => access_quiet (by omega)
  refine (note_begun (AllQuiet.cons (hat 0 (by decide))
    (AllQuiet.cons (hat 1 (by decide)) allQuiet_nil))).bind fun _ _ => ?_
  refine (Holds.check _).bind fun _ _ =>
    (note_begun (AllQuiet.cons (hat 2 (by decide)) allQuiet_nil)).bind fun _ _ => ?_
  refine (Holds.check _).bind fun _ _ =>
    (note_begun (AllQuiet.cons (hat 3 (by decide)) allQuiet_nil)).bind fun _ _ => ?_
  refine (Holds.check _).bind fun _ _ => (note_begun ?_).bind fun _ _ => ?_
  · split
    · exact allQuiet_nil
    · exact AllQuiet.cons (hat 10 (by decide)) (AllQuiet.cons (hat 11 (by decide))
        (AllQuiet.cons (shift_quiet (by decide)) allQuiet_nil))
  refine (skipField_holds _ _).bind fun _ _ => (skipField_holds _ _).bind fun _ _ => ?_
  exact (Holds.check _).bind fun _ h => Holds.pure (of_decide_eq_true h)

theorem fixedEvents_quiet : AllQuiet fixedEvents := by
  have hfill : ∀ m ≤ 288, AllQuiet ((List.range m).map (Event.access · 288)) := fun m hm =>
    AllQuiet.map fun i hi => access_quiet ((List.mem_range.mp hi).trans_le hm)
  unfold fixedEvents
  refine AllQuiet.append (AllQuiet.append (AllQuiet.append (hfill _ (by decide)) ?_) (hfill _ (by decide))) ?_
  · exact huffBuildEvents_quiet (by simp only [List.length_append, List.length_replicate]; decide)
      (by simp only [List.length_append, List.length_replicate]; decide)
  · exact huffBuildEvents_quiet (by rw [List.length_replicate]; decide) (by rw [List.length_replicate]; decide)

/-- The state in which the decompressor begins. -/
def start (outCap : ℕ) : Traced St Event := ⟨⟨⟨[], 0, 0, 0⟩, ⟨[], outCap⟩⟩, []⟩

/-- After the blocks. -/
theorem gzipDeflate_keeps (hcap : cap < 2 ^ 32) : Keeps (· = start cap) (gzipDeflate inp fuel)
    (fun pos t => pos < inp.length ∧ Sound (inp.drop pos) cap t) (fun t => AllOk t.log) := by
  have hhead : Keeps (· = start cap) (note fixedEvents >>= fun _ => Accesses.gzipHeader inp fuel)
      (fun pos t => pos < inp.length ∧ Begun (start cap).st t) (fun t => AllOk t.log) := by
    refine Keeps.mono ((note_begun (s := (start cap).st) fixedEvents_quiet).bind fun _ _ => gzipHeader_holds)
      (fun t ht => ?_) (fun _ _ h => h) fun t ht => ht.2.allOk
    rw [ht]
    exact ⟨rfl, allQuiet_nil⟩
  have hassoc : gzipDeflate inp fuel = (note fixedEvents >>= fun _ => Accesses.gzipHeader inp fuel) >>= fun pos => (do
      traced (fun _ => []) (modify fun s => { s with bs := { src := inp.drop pos, srcPos := 0, bits := 0, nbits := 0 } })
      loop (fun _ => Accesses.blockTurn fuel) fuel ()
      pure pos) := by
    rw [bind_assoc]
    rfl
  rw [hassoc]
  refine hhead.bind fun pos => Keeps.assume fun hpos => ?_
  refine Keeps.bind (Q := fun _ => Sound (inp.drop pos) cap)
    (Keeps.traced fun t ht => ⟨fun a s' h => ?_, fun s' h => by cases h⟩)
    fun _ => ?_
  · cases h
    obtain ⟨hst, hquiet⟩ := ht
    have hdrop : dropped ([] ++ t.log) = 0 := hquiet.dropped
    refine ⟨hquiet.allOk, ?_, rfl, by rw [hst]; rfl, by rw [hst]; exact Nat.zero_le _⟩
    rw [hdrop]
    exact counted_start _
  · have hholds : Holds (Sound (inp.drop pos) cap) (loop (fun _ => Accesses.blockTurn fuel) fuel ()) fun _ => True :=
      blocks_hold hcap
    have hblocks := Keeps.mono hholds (fun _ h => h) (fun _ _ h => h.2) fun t (h : Sound _ _ t) => h.ok
    exact hblocks.bind fun _ => Keeps.pure fun t ht => ⟨hpos, ht⟩

/-- The trailer of an input whose blocks end `used` bits behind position `pos`: it stands behind the
byte with the last of these bits, all of which are in the input, and fits the data. -/
structure Trailer (inp : List UInt8) (pos used : ℕ) (data : List UInt8) : Prop where
  inside : used ≤ 8 * (inp.length - pos)
  room : pos + (used + 7) / 8 + 8 ≤ inp.length
  crc : crc32 data = UInt32.ofNat (le32 inp (pos + (used + 7) / 8))
  size : data.length = le32 inp (pos + (used + 7) / 8 + 4)

theorem le32Events_quiet (h : pos + 4 ≤ inp.length) : AllQuiet (le32Events inp pos) := by
  have hshift : ∀ n < 32, (Event.shift n).Quiet := fun n hn => shift_quiet hn
  unfold le32Events
  refine AllQuiet.cons (access_quiet (by omega))
    (AllQuiet.cons (access_quiet (by omega)) (AllQuiet.cons (hshift 8 (by decide)) ?_))
  refine AllQuiet.cons (access_quiet (by omega)) (AllQuiet.cons (hshift 16 (by decide)) ?_)
  exact AllQuiet.cons (access_quiet (by omega)) (AllQuiet.cons (hshift 24 (by decide)) allQuiet_nil)

theorem crc32Events_quiet {len : ℕ} (h : len ≤ cap) : AllQuiet (crc32Events len cap) := by
  intro e he
  obtain ⟨i, hi, he⟩ := List.mem_flatMap.mp he
  rcases List.mem_cons.mp he with rfl | he
  · exact access_quiet ((List.mem_range.mp hi).trans_le h)
  · rw [List.eq_of_mem_replicate he]
    exact shift_quiet (by decide)

/-- After the last alignment the bits that have been taken are whole bytes. -/
theorem align_keeps_count (used : ℕ) : Keeps (fun t => dropped t.log = used ∧ Sound src cap t) Accesses.align
    (fun _ t => t.st.bs.nbits = 0 ∧ (∃ discard < 8, dropped t.log = used + discard) ∧
    Sound src cap t) (fun t => AllOk t.log) := by
  refine Keeps.traced fun t ht => ⟨fun a s' hrun => ?_, fun s' hrun => by cases hrun⟩
  obtain ⟨hused, hs⟩ := ht
  obtain ⟨hcounted, hsrc, hnbits, hok, hdrop⟩ := bsAlign_counted hs.counted
  cases hrun
  have hall : dropped (bsAlignEvents t.st.bs ++ t.log) = dropped t.log + t.st.bs.nbits := by
    rw [dropped_append, hdrop, Nat.add_comm]
  refine ⟨hnbits, ⟨t.st.bs.nbits, hs.counted.ready.small, by rw [← hused]; exact hall⟩,
    hok.append hs.ok, ?_, hsrc.trans hs.source, hs.size, hs.room⟩
  rw [hall]
  exact hcounted

theorem gzipTrailer_keeps (hin : inp.length < 2 ^ 32 - 65536) (hpos : pos < inp.length) (used : ℕ) :
    Keeps (fun t => dropped t.log = used ∧ Sound (inp.drop pos) cap t) (Accesses.gzipTrailer inp pos)
      (fun r t => r = int32 t.st.out.data.length ∧ t.st.out.data.length ≤ cap ∧
        Trailer inp pos used t.st.out.data ∧ AllOk t.log) (fun t => AllOk t.log) := by
  refine (align_keeps_count used).bind fun _ => Keeps.bind getSt_keeps fun s => ?_
  refine Keeps.bind (Q := fun _ t => t.st = s ∧ Sound (inp.drop pos) cap t ∧ s.bs.nbits = 0 ∧
    s.bs.srcPos = (used + 7) / 8 ∧ used ≤ 8 * (inp.length - pos) ∧
    pos + (used + 7) / 8 + 8 ≤ inp.length) (Keeps.check (fun t hc ht => ?_) fun t ht => ?_)
    fun _ => ?_
  · obtain ⟨rfl, hnbits, ⟨discard, hdiscard, hdrop⟩, hs⟩ := ht
    obtain ⟨zeros, htaken, hzeros⟩ := hs.counted.taken
    have hwithin := hs.counted.within
    rw [hs.source, List.length_drop] at hzeros hwithin
    have hpass : u32 (u32 (pos + (t.st.bs.srcPos + (2 ^ 32 - t.st.bs.nbits / 8))) + 8) ≤
      inp.length := of_decide_eq_true hc
    rw [hnbits] at hpass
    unfold u32 at hpass
    -- as the trailer is inside, not all of the input has been read
    have hnone : zeros = 0 := by omega
    exact ⟨rfl, hs, hnbits, by omega, by omega, by omega⟩
  · exact ht.2.2.2.ok
  refine fun t ht => ?_
  obtain ⟨rfl, hs, hnbits, hpos', hinside, hroom⟩ := ht
  have hplace : u32 (pos + (t.st.bs.srcPos + (2 ^ 32 - t.st.bs.nbits / 8))) = pos + (used + 7) / 8 := by
    rw [hnbits, hpos']
    unfold u32
    omega
  rw [hplace]
  have hquiet : AllQuiet (le32Events inp (pos + (used + 7) / 8) ++ le32Events inp (pos + (used + 7) / 8 + 4)) :=
    (le32Events_quiet (by omega)).append (le32Events_quiet (by omega))
  have hdata := hs.room
  have hcrc : AllQuiet (crc32Events t.st.out.data.length t.st.out.cap) :=
    crc32Events_quiet (by rw [hs.size]; exact hdata)
  refine Keeps.bind (Q := fun _ t' => t'.st = t.st ∧ AllOk t'.log)
    (Keeps.note (P := (· = t)) fun t' ht' => ?_) (fun _ => ?_) t rfl
  · subst ht'
    exact ⟨rfl, hquiet.allOk.append hs.ok⟩
  refine Keeps.bind (Q := fun _ t' => le32 inp (pos + (used + 7) / 8 + 4) = t.st.out.data.length ∧
    t'.st = t.st ∧ AllOk t'.log)
    (Keeps.check (fun _ hc ht' => ⟨of_decide_eq_true hc, ht'⟩) fun _ ht' => ht'.2) fun _ => Keeps.assume fun hsize => ?_
  refine Keeps.bind (Q := fun _ t' => t'.st = t.st ∧ AllOk t'.log) (Keeps.note fun t' ht' => ?_) fun _ => ?_
  · exact ⟨ht'.1, hcrc.allOk.append ht'.2⟩
  refine Keeps.bind (Q := fun _ t' => crc32 t.st.out.data = UInt32.ofNat
    (le32 inp (pos + (used + 7) / 8)) ∧ t'.st = t.st ∧
    AllOk t'.log) (Keeps.check (fun _ hc ht' => ⟨of_decide_eq_true hc, ht'⟩) fun _ ht' => ht'.2)
    fun _ => ?_
  refine Keeps.assume fun hsum => Keeps.pure fun t' ht' => ?_
  rw [ht'.1]
  exact ⟨rfl, hdata, ⟨hinside, hroom, hsum, hsize.symm⟩, ht'.2⟩

theorem int32_le (n : ℕ) : int32 n ≤ n := by
  unfold int32
  rw [BitVec.toInt_eq_toNat_cond, BitVec.toNat_ofNat]
  have := Nat.mod_le n (2 ^ 32)
  split <;> omega

/-- With every input, every size of the output buffer and turns enough, all accesses of
`inflate_gzip` are in range and all shifts by less than 32. When it returns a number that is not
negative, the number is at most the size of the buffer, and the blocks end within the input, with
the trailer that fits the output directly behind them. -/
theorem inflateGzip_safe (inp : List UInt8) (outCap fuel : ℕ) (hin : inp.length < 2 ^ 32 - 65536)
    (hcap : outCap < 2 ^ 32)
    (hfuel : 8 * inp.length + outCap + 317 ≤ fuel) : ∃ r t, (Accesses.gzipBody inp fuel).run
      (start outCap) = some (r, t) ∧ inflateGzip fuel inp outCap = some
      (r.getD (-1), t.st.out.data) ∧ AllOk t.log ∧
        (0 ≤ r.getD (-1) → r.getD (-1) ≤ outCap ∧
        ∃ pos t', (gzipDeflate inp fuel).run (start outCap) = some (some pos, t') ∧
        Trailer inp pos (dropped t'.log) t.st.out.data) := by
  have herase := gzipBody_erases inp fuel (start outCap)
  obtain ⟨r, s, hrun, -⟩ := gzipBody_ends (by omega) hfuel (start outCap).st rfl
  rw [hrun] at herase
  obtain ⟨⟨r', t⟩, hbody, heq⟩ := Option.map_eq_some_iff.mp herase
  obtain ⟨rfl, rfl⟩ := Prod.mk.inj heq
  refine ⟨r', t, hbody, ?_, ?_⟩
  · exact congrArg (Option.map fun p => (p.1.getD (-1), p.2.out.data)) hrun
  obtain ⟨hsome, hnone⟩ : _ ∧ _ := (gzipDeflate_keeps hcap : Keeps _ (gzipDeflate inp fuel) _ _) (start outCap) rfl
  unfold Accesses.gzipBody at hbody
  rw [bind_run] at hbody
  rcases hdeflate : (gzipDeflate inp fuel).run (start outCap) with _ | ⟨_ | pos, t'⟩
  · rw [hdeflate] at hbody
    cases hbody
  · rw [hdeflate] at hbody
    cases hbody
    exact ⟨hnone _ hdeflate, fun h => absurd h (by decide)⟩
  · rw [hdeflate] at hbody
    obtain ⟨hpos, hs⟩ := hsome pos t' hdeflate
    obtain ⟨hsome', hnone'⟩ := gzipTrailer_keeps hin hpos (dropped t'.log) t' ⟨rfl, hs⟩
    cases r' with
    | none => exact ⟨hnone' _ hbody, fun h => absurd h (by decide)⟩
    | some r =>
      obtain ⟨rfl, hdata, htrailer, hok⟩ := hsome' r t hbody
      refine ⟨hok, fun _ => ⟨?_, pos, t', rfl, htrailer⟩⟩
      exact (int32_le _).trans (Int.ofNat_le.mpr hdata)

/-- A stored block without data. -/
def gzipEmpty : List UInt8 := [31, 139, 8, 0, 0, 0, 0, 0, 0, 3, 1, 0, 0, 255, 255, 0, 0, 0, 0, 0, 0, 0, 0]

theorem inflateGzip_safe_empty : ∃ t, (Accesses.gzipBody gzipEmpty 600).run (start 10) = some
    (some 0, t) ∧ AllOk t.log ∧ ∃ pos t', (gzipDeflate gzipEmpty 600).run (start 10) = some
    (some pos, t') ∧ Trailer gzipEmpty pos (dropped t'.log) [] := by
  have hret : inflateGzip 600 gzipEmpty 10 = some (0, []) := by decide +kernel
  obtain ⟨r, t, hrun, hval, hok, hpass⟩ := inflateGzip_safe gzipEmpty 10 600 (by decide) (by decide) (by decide)
  rw [hret] at hval
  obtain ⟨hr, hdata⟩ := Prod.mk.inj (Option.some.inj hval)
  obtain ⟨-, pos, t', hdeflate, htrailer⟩ := hpass (by rw [← hr])
  have hzero : r = some 0 := by
    cases r with
    | none => exact absurd hr (by decide)
    | some r => exact congrArg some hr.symm
  rw [← hdata] at htrailer
  exact ⟨t, by rw [hrun, hzero], hok, pos, t', hdeflate, htrailer⟩

end ComputerOS.Inflate
