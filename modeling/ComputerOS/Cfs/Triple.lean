import ComputerOS.Cfs.Consistent

/-!
Rules of pre- and postconditions for the core's programs, on a device that may fail at any
access. A triple has a postcondition for a value returned and one for `-1`. The functions
that only read keep everything but the device's answers still to come, and what they find
is what the volume holds, unless a read failed on the way.
-/
namespace ComputerOS.Cfs

open M Bytes Function

variable {α β : Type}

/-- From every state with `P`, a run of `x` that returns `a` ends with `Q a`, and one that
returns `-1` with `E`. -/
def Triple (P : St → Prop) (x : M α) (Q : α → St → Prop) (E : St → Prop) : Prop :=
  ∀ s, P s → (∀ a s', x.run s = (some a, s') → Q a s') ∧ ∀ s', x.run s = (none, s') → E s'

/-- A run of `x` keeps `I`, however it ends, and returns only values with `Q`. -/
abbrev Holds (I : St → Prop) (x : M α) (Q : α → Prop) : Prop :=
  Triple I x (fun a s => I s ∧ Q a) I

namespace Triple

variable {P P' E : St → Prop} {Q R : α → St → Prop} {S : β → St → Prop}

/-- The two parts of a triple for a run that returned a value. -/
theorem at_some {x : M α} {s s1 : St} {a : α} (hrun : x.run s = (some a, s1)) (h : Q a s1) :
    (∀ b s', x.run s = (some b, s') → Q b s') ∧ ∀ s', x.run s = (none, s') → E s' := by
  rw [hrun]
  refine ⟨fun b s' heq => ?_, fun s' heq => absurd (congrArg Prod.fst heq) (by simp)⟩
  obtain ⟨hval, rfl⟩ := Prod.mk.inj heq
  obtain rfl := Option.some.inj hval
  exact h

/-- The two parts of a triple for a run that returned `-1`. -/
theorem at_none {x : M α} {s s1 : St} (hrun : x.run s = (none, s1)) (h : E s1) :
    (∀ b s', x.run s = (some b, s') → Q b s') ∧ ∀ s', x.run s = (none, s') → E s' := by
  rw [hrun]
  refine ⟨fun b s' heq => absurd (congrArg Prod.fst heq) (by simp), fun s' heq => ?_⟩
  obtain rfl : s1 = s' := congrArg Prod.snd heq
  exact h

theorem pure {a : α} (h : ∀ s, P s → Q a s) : Triple P (Pure.pure a : M α) Q E :=
  fun s hs => at_some (pure_run a s) (h s hs)

theorem fail (h : ∀ s, P s → E s) : Triple P (M.fail : M α) Q E :=
  fun s hs => at_none (fail_run s) (h s hs)

theorem bind {x : M α} {f : α → M β} (hx : Triple P x Q E) (hf : ∀ a, Triple (Q a) (f a) S E) :
    Triple P (x >>= f) S E := by
  refine fun s hs => ⟨fun b s' hrun => ?_, fun s' hrun => ?_⟩
  · obtain ⟨a, s1, h1, h2⟩ := bind_eq_some hrun
    exact (hf a s1 ((hx s hs).1 a s1 h1)).1 b s' h2
  · rcases bind_eq_none hrun with h1 | ⟨a, s1, h1, h2⟩
    · exact (hx s hs).2 s' h1
    · exact (hf a s1 ((hx s hs).1 a s1 h1)).2 s' h2

theorem mono {E' : St → Prop} {x : M α} (h : Triple P x Q E) (hP : ∀ s, P' s → P s)
    (hQ : ∀ a s, Q a s → R a s) (hE : ∀ s, E s → E' s) : Triple P' x R E' := fun s hs =>
  ⟨fun a s' hrun => hQ a s' ((h s (hP s hs)).1 a s' hrun), fun s' hrun =>
  hE s' ((h s (hP s hs)).2 s' hrun)⟩

theorem ensure {c : Prop} [Decidable c] {Q : Unit → St → Prop} (hpos : c → ∀ s, P s → Q () s)
    (hneg : ¬ c → ∀ s, P s → E s) : Triple P (M.ensure c) Q E := by
  by_cases hc : c
  · rw [M.ensure, if_pos hc]
    exact pure (hpos hc)
  · rw [M.ensure, if_neg hc]
    exact fail (hneg hc)

theorem attempt {x : M α} (h : Triple P x Q E) :
    Triple P (M.attempt x) (fun r s => match r with | some a => Q a s | none => E s) fun _ => False := by
  intro s hs
  rcases hx : x.run s with ⟨_ | a, s1⟩
  · have hrun : (M.attempt x).run s = (some none, s1) := by rw [attempt_run, hx]
    exact at_some hrun ((h s hs).2 s1 hx)
  · have hrun : (M.attempt x).run s = (some (some a), s1) := by rw [attempt_run, hx]
    exact at_some hrun ((h s hs).1 a s1 hx)

end Triple

namespace Holds

variable {I : St → Prop} {Q R : α → Prop} {S : β → Prop}

theorem pure {a : α} (h : Q a) : Holds I (Pure.pure a : M α) Q := Triple.pure fun _ hs => ⟨hs, h⟩

theorem fail : Holds I (M.fail : M α) Q := Triple.fail fun _ hs => hs

theorem mono {x : M α} (h : Holds I x Q) (hQ : ∀ a, Q a → R a) : Holds I x R :=
  Triple.mono h (fun _ => id) (fun a _ ha => ⟨ha.1, hQ a ha.2⟩) fun _ => id

theorem bind {x : M α} {f : α → M β} (hx : Holds I x Q) (hf : ∀ a, Q a → Holds I (f a) S) :
    Holds I (x >>= f) S :=
  Triple.bind hx fun a s hs => hf a hs.2 s hs.1

/-- A first part that keeps `I`, and a second one that goes on from it to something weaker. -/
theorem andThen {J : St → Prop} {T : β → St → Prop} {x : M α} {f : α → M β} (hx : Holds I x Q)
    (hJ : ∀ s, I s → J s) (hf : ∀ a, Q a → Triple I (f a) T J) : Triple I (x >>= f) T J :=
  Triple.bind (Triple.mono hx (fun _ => id) (fun _ _ => id) hJ) fun a s hs => hf a hs.2 s hs.1

theorem ensure (c : Prop) [Decidable c] : Holds I (M.ensure c) fun _ => c :=
  Triple.ensure (fun hc _ hs => And.intro hs hc) fun _ _ hs => hs

theorem attempt {x : M α} (h : Holds I x Q) :
    Holds I (M.attempt x) fun r => ∀ a, r = some a → Q a := by
  refine Triple.mono (Triple.attempt h) (fun _ => id) (fun r s hr => ?_) fun _ => False.elim
  cases r with
  | none => exact ⟨hr, by simp⟩
  | some a =>
    refine ⟨hr.1, ?_⟩
    rintro b hb
    obtain rfl := Option.some.inj hb
    exact hr.2

theorem orUndo {x : M α} {undo : M Unit} (hx : Holds I x Q) (hu : Holds I undo fun _ => True) :
    Holds I (M.orUndo x undo) Q := by
  refine bind hx.attempt fun r hr => ?_
  cases r with
  | none => exact bind hu fun _ _ => fail
  | some a => exact pure (hr a rfl)

theorem getFs {P : Fs → Prop} (h : ∀ s, I s → P s.fs) : Holds I M.getFs P :=
  fun s hs => Triple.at_some (getFs_run s) ⟨hs, h s hs⟩

end Holds

/-- `s` differs from `s₀` in the answers the device still has to give. -/
def Asked (s₀ s : St) : Prop := ∃ r, s = { s₀ with rd := r }

section Asked

variable {s₀ : St} {g : Geom}

theorem Asked.refl (s : St) : Asked s s := ⟨s.rd, rfl⟩

theorem Asked.view {s : St} (h : Asked s₀ s) : s.view = s₀.view := by
  obtain ⟨r, rfl⟩ := h
  rfl

theorem Asked.vol {s : St} (h : Asked s₀ s) : s.vol = s₀.vol := by
  obtain ⟨r, rfl⟩ := h
  rfl

theorem Asked.fs {s : St} (h : Asked s₀ s) : s.fs = s₀.fs := by
  obtain ⟨r, rfl⟩ := h
  rfl

theorem Asked.disk {s : St} (h : Asked s₀ s) : s.disk = s₀.disk := by
  obtain ⟨r, rfl⟩ := h
  rfl

theorem rawReadBlock_asks (b : ℕ) : Holds (Asked s₀) (rawReadBlock b) fun v => v = s₀.disk b := by
  rintro s ⟨r, rfl⟩
  rw [rawReadBlock_run]
  refine ⟨fun v s' hrun => ?_, fun s' hrun => ?_⟩
  · obtain ⟨heq, rfl⟩ := Prod.mk.inj hrun
    refine ⟨⟨_, rfl⟩, ?_⟩
    split at heq
    · exact (Option.some.inj heq).symm
    · simp at heq
  · obtain ⟨-, rfl⟩ := Prod.mk.inj hrun
    exact ⟨_, rfl⟩

theorem bdReadBlock_asks (b : ℕ) : Holds (Asked s₀) (bdReadBlock b) fun v => v = s₀.view b := by
  intro s hs
  rw [bdReadBlock_eq, ← hs.view, St.view]
  cases ha : s.txnActive with
  | false => simpa [hs.disk] using rawReadBlock_asks b s hs
  | true =>
    cases hf : txnFind s.txn b with
    | none => simpa [hs.disk] using rawReadBlock_asks b s hs
    | some v =>
      refine ⟨fun a s' hrun => ?_, fun s' hrun => ?_⟩
      · obtain ⟨heq, rfl⟩ := Prod.mk.inj hrun
        exact ⟨hs, by simpa using heq.symm⟩
      · simp at hrun

/-- A name looked up where a read may fail: not found, or what the blocks hold. -/
theorem lookupBlocks_asks (d : DInode) (name : Name) (fbs : List ℕ) :
    Holds (Asked s₀) (lookupBlocks d name fbs) fun c =>
      c = 0 ∨ c = lookupEnt ((mappedAt d fbs).flatMap fun b => dirEnts (s₀.view b)) name := by
  induction fbs with
  | nil => exact .pure (Or.inl rfl)
  | cons fb fbs ih =>
    rw [lookupBlocks]
    by_cases hz : mapFileblock d fb = 0
    · rw [mappedAt_zero fbs hz]
      simpa [hz] using ih
    · rw [mappedAt_pos fbs hz, List.flatMap_cons, lookupEnt_block]
      simp only [if_neg hz]
      refine .bind (.attempt (bdReadBlock_asks _)) fun r hr => ?_
      cases r with
      | none => exact .pure (Or.inl rfl)
      | some blk =>
        obtain rfl := hr blk rfl
        dsimp only
        cases (dirRecs (s₀.view (mapFileblock d fb)) 0).find?
            (nameEq (s₀.view (mapFileblock d fb)) name) with
        | none => exact ih
        | some off => exact .pure (Or.inr rfl)

theorem emptyBlocks_asks (d : DInode) (fbs : List ℕ) :
    Holds (Asked s₀) (emptyBlocks d fbs) fun _ => True := by
  induction fbs with
  | nil => exact .pure trivial
  | cons fb fbs ih =>
    rw [emptyBlocks]
    by_cases hz : mapFileblock d fb = 0
    · simpa [hz] using ih
    · simp only [if_neg hz]
      refine .bind (.attempt (bdReadBlock_asks _)) fun r _ => ?_
      cases r with
      | none => exact .pure trivial
      | some blk =>
        dsimp only
        split
        · exact ih
        · exact .pure trivial

variable (hgeom : s₀.fs.toGeom = g)

include hgeom

theorem readDinode_asks (n : ℕ) : Holds (Asked s₀) (readDinode n) fun d =>
    d = s₀.vol.ino n ∧ n ≠ 0 ∧ n < g.totalInodes := by
  refine .bind (.getFs (P := fun fs => fs = s₀.fs) fun s hs => hs.fs) fun fs hfs => ?_
  obtain rfl := hfs
  refine .bind (.ensure _) fun _ hn => .bind (bdReadBlock_asks _) fun buf hbuf => .pure ?_
  have hlt : n < s₀.fs.totalInodes := hn.2
  refine ⟨?_, hn.1, by rw [← hgeom]; exact hlt⟩
  rw [hbuf]
  change _ = (if n < s₀.fs.totalInodes then _ else _)
  rw [if_pos hlt]

variable (hv : Readable g s₀.vol)

include hv

theorem dirLookup_asks {n : ℕ} (hn : s₀.vol.Reach n) (hd : (s₀.vol.ino n).isDir = true) (name : Name) :
    Holds (Asked s₀) (dirLookup (s₀.vol.ino n) name) fun c =>
      c = 0 ∨ c = lookupEnt (s₀.vol.out n) name := by
  have hents : entsIn s₀.view (s₀.vol.ino n) = s₀.vol.out n := by
    rw [Vol.out_of_isDir hd, Vol.ents]
    refine entsIn_congr fun b hb => ?_
    change _ = (if s₀.fs.IsData b then _ else _)
    rw [if_pos (by rw [hgeom]; exact hv.data n hn hd b hb)]
  rw [← hents]
  exact lookupBlocks_asks _ name _

theorem walk_asks (cs : List Name) {n : ℕ} (hn : s₀.vol.Reach n) :
    Holds (Asked s₀) (walk n cs) fun c => c = 0 ∨ c = s₀.vol.walk n cs := by
  induction cs generalizing n with
  | nil => exact .pure (Or.inr rfl)
  | cons c cs ih =>
    rw [walk, Vol.walk]
    by_cases hlen : CFS_NAME_MAX < c.length
    · rw [if_pos hlen]
      exact .pure (Or.inl rfl)
    · rw [if_neg hlen, if_neg hlen]
      refine .bind (.attempt (readDinode_asks hgeom n)) fun r hr => ?_
      cases r with
      | none => exact .pure (Or.inl rfl)
      | some d =>
        obtain ⟨rfl, -, -⟩ := hr d rfl
        dsimp only
        by_cases hd : (s₀.vol.ino n).isDir = true
        · rw [if_neg (by simp [hd])]
          refine .bind (dirLookup_asks hgeom hv hn hd c) fun m hm => ?_
          by_cases hm0 : m = 0
          · rw [if_pos hm0]
            exact .pure (Or.inl rfl)
          · rw [if_neg hm0]
            obtain rfl : m = lookupEnt (s₀.vol.out n) c := hm.resolve_left hm0
            rw [if_neg hm0]
            exact ih (.step hn (lookupEnt_mem hm0))
        · rw [if_pos (by simpa using hd)]
          exact .pure (Or.inl rfl)

theorem resolveIno_asks (hroot : g.rootIno = CFS_ROOT_INO) (path : List UInt8) :
    Holds (Asked s₀) (resolveIno path) fun c => c = 0 ∨ c = s₀.vol.resolve path := by
  refine .bind (.getFs (P := fun fs => fs = s₀.fs) fun s hs => hs.fs) fun fs hfs => ?_
  obtain rfl := hfs
  have hr : s₀.fs.rootIno = CFS_ROOT_INO := by
    rw [← hroot, ← hgeom]
  rw [hr]
  exact walk_asks hgeom hv _ .root

theorem resolveParent_asks (hroot : g.rootIno = CFS_ROOT_INO) (path : List UInt8) :
    Holds (Asked s₀) (resolveParent path) fun r => Located s₀.vol path r.1 r.2 := by
  refine .bind (.ensure _) fun _ hleaf => .bind (.ensure _) fun _ hpar => ?_
  refine .bind (resolveIno_asks hgeom hv hroot _) fun p hp => .bind (.ensure _) fun _ hne => ?_
  refine .bind (readDinode_asks hgeom p) fun d hd => .bind (.ensure _) fun _ hdir => .pure ?_
  obtain ⟨rfl, -, -⟩ := hd
  obtain rfl : p = s₀.vol.resolve (parentOf path) := hp.resolve_left hne
  exact ⟨rfl, hleaf.1, hleaf.2, hpar, rfl, resolve_reach hne, hdir⟩

end Asked

end ComputerOS.Cfs
