import ComputerOS.Lib.Looping

/-!
Functions on a state beside which a list of events is kept, the last one first. Erasing the list
gives the function without it, so what is proved of the list is about every run of that function. An
invariant of state and list is kept when each step keeps it, whatever the outcome.
-/
namespace ComputerOS

/-- A state and the events so far. -/
structure Traced (σ ε : Type) where
  st : σ
  log : List ε

namespace Looping

variable {σ ε α β ρ : Type}

/-- Whatever the outcome from a state with `P`: a result `a` comes with `Q a`, and giving up with
`E`. -/
def Keeps (P : σ → Prop) (x : Looping σ α) (Q : α → σ → Prop) (E : σ → Prop) : Prop :=
  ∀ s, P s → (∀ a s', x.run s = some (some a, s') → Q a s') ∧ ∀ s', x.run s = some (none, s') → E s'

namespace Keeps

variable {P P' E E' : σ → Prop} {Q R : α → σ → Prop} {S : β → σ → Prop}

theorem pure {a : α} (h : ∀ s, P s → Q a s) : Keeps P (Pure.pure a : Looping σ α) Q E := by
  refine fun s hs => ⟨fun b s' hrun => ?_, fun s' hrun => by cases hrun⟩
  cases hrun
  exact h s hs

theorem fail (h : ∀ s, P s → E s) : Keeps P (Looping.fail : Looping σ α) Q E := by
  refine fun s hs => ⟨fun b s' hrun => (by cases hrun), fun s' hrun => ?_⟩
  cases hrun
  exact h s hs

theorem check {c : Bool} {Q : Unit → σ → Prop} (h : ∀ s, c = true → P s → Q () s) (hE : ∀ s, P s → E s) :
    Keeps P (Looping.check c : Looping σ Unit) Q E := by
  cases c with
  | true => exact pure fun s hs => h s rfl hs
  | false => exact fail hE

theorem bind {x : Looping σ α} {f : α → Looping σ β} (hx : Keeps P x Q E) (hf : ∀ a, Keeps (Q a) (f a) S E) :
    Keeps P (x >>= f) S E := by
  intro s hs
  obtain ⟨h1, h2⟩ := hx s hs
  rcases hrun : x.run s with _ | ⟨_ | a, s1⟩
  · refine ⟨fun b s' hb => ?_, fun s' hb => ?_⟩ <;>
    · rw [bind_run, hrun] at hb
      cases hb
  · refine ⟨fun b s' hb => ?_, fun s' hb => ?_⟩
    · rw [bind_run, hrun] at hb
      cases hb
    · rw [bind_run, hrun] at hb
      cases hb
      exact h2 _ hrun
  · obtain ⟨h3, h4⟩ := hf a s1 (h1 a s1 hrun)
    refine ⟨fun b s' hb => ?_, fun s' hb => ?_⟩
    · rw [bind_run, hrun] at hb
      exact h3 b s' hb
    · rw [bind_run, hrun] at hb
      exact h4 s' hb

theorem mono {x : Looping σ α} (h : Keeps P x Q E) (hP : ∀ s, P' s → P s) (hQ : ∀ a s, Q a s → R a s)
    (hE : ∀ s, E s → E' s) : Keeps P' x R E' :=
  fun s hs => ⟨fun a s' hrun => hQ a s' ((h s (hP s hs)).1 a s' hrun), fun s' hrun =>
  hE s' ((h s (hP s hs)).2 s' hrun)⟩

theorem ite {c : Prop} [Decidable c] {x y : Looping σ α} (hx : c → Keeps P x Q E) (hy : ¬ c → Keeps P y Q E) :
    Keeps P (if c then x else y) Q E := by
  split
  · exact hx ‹_›
  · exact hy ‹_›

/-- A fact that does not depend on the state may be assumed. -/
theorem assume {p : Prop} {x : Looping σ α} (h : p → Keeps P x Q E) : Keeps (fun s => p ∧ P s) x Q E :=
  fun s hs => h hs.1 s hs.2

/-- Each turn keeps `I`. -/
theorem loop {f : β → Looping σ (β ⊕ ρ)} {T : ρ → σ → Prop} (I : β → σ → Prop)
    (hbody : ∀ b, Keeps (I b) (f b) (fun r s => match r with
      | .inl b' => I b' s
      | .inr a => T a s) E) (n : ℕ) (b : β) : Keeps (I b) (Looping.loop f n b) T E := by
  induction n generalizing b with
  | zero => exact fun s _ => ⟨fun a s' hrun => (by cases hrun), fun s' hrun => by cases hrun⟩
  | succ n ih =>
    refine bind (hbody b) fun r => ?_
    cases r with
    | inl b' => exact ih b'
    | inr a => exact pure fun s hs => hs

end Keeps

def Holds (I : σ → Prop) (x : Looping σ α) (Q : α → Prop) : Prop := Keeps I x (fun a s => Q a ∧ I s) I

namespace Holds

variable {I : σ → Prop} {Q R : α → Prop} {S : β → Prop}

theorem pure {a : α} (h : Q a) : Holds I (Pure.pure a) Q := Keeps.pure fun _ hs => ⟨h, hs⟩

theorem fail : Holds I Looping.fail Q := Keeps.fail fun _ hs => hs

theorem check (c : Bool) : Holds I (Looping.check c) fun _ => c = true :=
  Keeps.check (fun _ hc hs => ⟨hc, hs⟩) fun _ hs => hs

theorem bind {x : Looping σ α} {f : α → Looping σ β} (hx : Holds I x Q) (hf : ∀ a, Q a → Holds I (f a) S) :
    Holds I (x >>= f) S := Keeps.bind hx fun a => Keeps.assume (hf a)

theorem ite {c : Prop} [Decidable c] {x y : Looping σ α} (hx : c → Holds I x Q) (hy : ¬ c → Holds I y Q) :
    Holds I (if c then x else y) Q := Keeps.ite hx hy

theorem loop {f : β → Looping σ (β ⊕ ρ)} {T : ρ → Prop} (J : β → Prop) (hbody : ∀ b, J b → Holds I (f b) fun r =>
    match r with
    | .inl b' => J b'
    | .inr a => T a) (n : ℕ) {b : β} (hb : J b) : Holds I (Looping.loop f n b) T := by
  have hloop := Keeps.loop (E := I) (T := fun a s => T a ∧ I s) (fun b s => J b ∧ I s) (f := f)
    (fun b => Keeps.assume fun hJ => ?_) n b
  · exact Keeps.mono hloop (fun s hs => ⟨hb, hs⟩) (fun _ _ h => h) fun _ hs => hs
  · refine Keeps.mono (hbody b hJ) (fun _ hs => hs) (fun r s hs => ?_) fun _ hs => hs
    cases r with
    | inl b' => exact hs
    | inr a => exact hs

end Holds

/-- A function whose events depend on the state that it begins in. -/
def traced (events : σ → List ε) (x : Looping σ α) : Looping (Traced σ ε) α := mk fun t =>
  (x.run t.st).map fun r => (r.1, ⟨r.2, events t.st ++ t.log⟩)

/-- The events happen, and nothing else. -/
def note (events : List ε) : Looping (Traced σ ε) Unit := traced (fun _ => events) (pure ())

def Erases (x : Looping (Traced σ ε) α) (y : Looping σ α) : Prop :=
  ∀ t, (x.run t).map (fun r => (r.1, r.2.st)) = y.run t.st

namespace Erases

theorem pure (a : α) : Erases (Pure.pure a : Looping (Traced σ ε) α) (Pure.pure a) := fun _ => rfl

theorem fail : Erases (Looping.fail : Looping (Traced σ ε) α) Looping.fail := fun _ => rfl

theorem traced (events : σ → List ε) (x : Looping σ α) : Erases (Looping.traced events x) x := by
  intro t
  change ((x.run t.st).map _).map _ = x.run t.st
  rw [Option.map_map]
  exact Option.map_id'

theorem check (c : Bool) : Erases (Looping.check c : Looping (Traced σ ε) Unit) (Looping.check c) := by
  cases c with
  | true => exact pure ()
  | false => exact fail

theorem bind {x : Looping (Traced σ ε) α} {y : Looping σ α} {f : α → Looping (Traced σ ε) β} {f' : α → Looping σ β}
    (hx : Erases x y) (hf : ∀ a, Erases (f a) (f' a)) : Erases (x >>= f) (y >>= f') := by
  intro t
  have h := hx t
  rw [bind_run, bind_run]
  rcases hrun : x.run t with _ | ⟨_ | a, t'⟩
  · rw [hrun] at h
    rw [← h]
    rfl
  · rw [hrun] at h
    rw [← h]
    rfl
  · rw [hrun] at h
    rw [← h]
    exact hf a t'

/-- Events between two steps do not count. -/
theorem note_bind {events : List ε} {f : Unit → Looping (Traced σ ε) β} {y : Looping σ β} (hf : Erases (f ()) y) :
    Erases (note events >>= f) y :=
  fun t => hf ⟨t.st, events ++ t.log⟩

theorem ite {c : Prop} [Decidable c] {x x' : Looping (Traced σ ε) α} {y y' : Looping σ α} (hx : Erases x y)
    (hx' : Erases x' y') : Erases (if c then x else x') (if c then y else y') := by
  split
  · exact hx
  · exact hx'

theorem loop {f : β → Looping (Traced σ ε) (β ⊕ ρ)} {f' : β → Looping σ (β ⊕ ρ)} (h : ∀ b, Erases (f b) (f' b)) (n : ℕ)
    (b : β) : Erases (Looping.loop f n b) (Looping.loop f' n b) := by
  induction n generalizing b with
  | zero => exact fun _ => rfl
  | succ n ih =>
    refine (h b).bind fun r => ?_
    cases r with
    | inl b' => exact ih b'
    | inr a => exact pure a

end Erases

theorem Keeps.traced {P E : Traced σ ε → Prop} {Q : α → Traced σ ε → Prop} {events : σ → List ε} {x : Looping σ α}
    (h : ∀ t, P t → (∀ a s', x.run t.st = some (some a, s') → Q a ⟨s', events t.st ++ t.log⟩) ∧
      ∀ s', x.run t.st = some (none, s') → E ⟨s', events t.st ++ t.log⟩) : Keeps P (Looping.traced events x) Q E := by
  refine fun t ht => ⟨fun a t' hrun => ?_, fun t' hrun => ?_⟩
  · obtain ⟨⟨r, s'⟩, hx, heq⟩ := Option.map_eq_some_iff.mp hrun
    cases heq
    exact (h t ht).1 a s' hx
  · obtain ⟨⟨r, s'⟩, hx, heq⟩ := Option.map_eq_some_iff.mp hrun
    cases heq
    exact (h t ht).2 s' hx

theorem Keeps.note {P E : Traced σ ε → Prop} {Q : Unit → Traced σ ε → Prop} {events : List ε}
    (h : ∀ t, P t → Q () ⟨t.st, events ++ t.log⟩) : Keeps P (note events) Q E :=
  Keeps.traced fun t ht => ⟨fun _ _ hrun => by
    cases hrun
    exact h t ht, fun _ hrun => by cases hrun⟩

end Looping

end ComputerOS
