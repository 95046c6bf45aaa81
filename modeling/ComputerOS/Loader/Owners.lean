import ComputerOS.Lib.Ledger
import ComputerOS.Loader.Placed

/-!
Who owns the frames of user memory. The records of a task list each frame of its lower half once,
and no frame is in the records of two tasks, as long as no page is mapped over another one and
no record is lost.
-/
namespace ComputerOS.Loader

open Function Fallible

def Space.frames (u : Space) : List ℕ := u.records.map Prod.snd

def live (m : Frames) (f : ℕ) : Prop := m.allocated f = true ∧ f ≠ 0

/-- The records are the mappings of the lower half. -/
structure Sound (u : Space) : Prop where
  current : ∀ v f, (v, f) ∈ u.records → page v < USER_PAGES ∧ u.pd (page v) = some f
  recorded : ∀ p f, u.pd p = some f → ∃ v, page v = p ∧ (v, f) ∈ u.records
  heap : u.heapMax = LOADER_HEAP_BASE + LOADER_HEAP_MAX

/-- The space is sound, others hold frames too, and pages outside `dom` are not mapped. -/
structure Kept (others : ℕ → Prop) (dom : ℕ → Prop) (w : View) : Prop where
  ledger : Ledger (live w.m) others w.u.frames
  sound : Sound w.u
  within : ∀ p, w.u.pd p ≠ none → dom p

variable {α : Type} {others dom : ℕ → Prop} {e : PageEnv} {v f : ℕ} {content : ℕ → UInt8} {u : Space} {m : Frames}
  {w : View} {o : Option Unit × View}

/-- A page that is placed takes a frame that nobody had. -/
theorem Placed.ledger (hp : Placed e v content w o) (h : Ledger (live w.m) others w.u.frames) :
    Ledger (live o.2.m) others o.2.u.frames := by
  cases hp with
  | refused bytes hbytes => exact h
  | lost hfree hrec =>
    have hframes : (w.mapIn v e.frame).u.frames = w.u.frames := by
      rw [Space.frames, Space.frames, Space.records, Space.records, mapIn_blocks]
    rw [← hframes] at h
    exact h
  | done blocks hfree h0 hrec =>
    refine h.take (a := e.frame) ?_ ?_ ⟨update_self .., h0⟩ (hrec.map Prod.snd)
    · rintro ⟨hlive, -⟩
      rw [hfree] at hlive
      cases hlive
    · rintro g ⟨hlive, hg⟩
      have hne : g ≠ e.frame := by
        rintro rfl
        rw [hfree] at hlive
        cases hlive
      exact ⟨(update_of_ne hne _ _).trans hlive, hg⟩

/-- A page of the lower half that was not mapped. -/
theorem Sound.place (h : Sound w.u) (hv : page v < USER_PAGES) (hnone : w.u.pd (page v) = none)
    {blocks : List (List (ℕ × ℕ))} (hrec : blocks.flatten.Perm ((v, f) :: w.u.records)) :
    Sound (w.place v f content blocks).u := by
  have hmem : ∀ r, r ∈ (w.place v f content blocks).u.records ↔ r = (v, f) ∨ r ∈ w.u.records := fun r =>
    hrec.mem_iff.trans List.mem_cons
  have hpd : (w.place v f content blocks).u.pd = update w.u.pd (page v) (some f) := by
    rw [View.place, mapIn_user w f hv]
  refine ⟨fun v' f' hr => ?_, fun p f' hp => ?_, (mapIn_heapMax w v f).trans h.heap⟩
  · rw [hpd]
    rcases (hmem _).mp hr with heq | hold
    · cases heq
      exact ⟨hv, update_self ..⟩
    · obtain ⟨huser, hcur⟩ := h.current v' f' hold
      have hne : page v' ≠ page v := by
        intro heq
        rw [heq, hnone] at hcur
        cases hcur
      exact ⟨huser, (update_of_ne hne _ _).trans hcur⟩
  · rw [hpd] at hp
    by_cases hpv : p = page v
    · subst hpv
      rw [update_self] at hp
      cases hp
      exact ⟨v, rfl, (hmem _).mpr (Or.inl rfl)⟩
    · rw [update_of_ne hpv] at hp
      obtain ⟨v', hv', hr⟩ := h.recorded p f' hp
      exact ⟨v', hv', (hmem _).mpr (Or.inr hr)⟩

/-- When a page cannot be placed, the space stays sound unless the record is lost. -/
theorem Placed.sound (hp : Placed e v content w o) (h : Sound w.u) (hv : page v < USER_PAGES)
    (hnone : w.u.pd (page v) = none) (hok : o.1 = some () ∨ e.recOk = true) : Sound o.2.u := by
  cases hp with
  | refused bytes hbytes => exact h
  | lost hfree hrec =>
    rcases hok with hok | hok
    · cases hok
    · rw [hrec] at hok
      cases hok
  | done blocks hfree h0 hrec => exact h.place hv hnone hrec

theorem Placed.within (hp : Placed e v content w o) (h : ∀ p, w.u.pd p ≠ none → dom p) (hdom : dom (page v))
    (p : ℕ) (hmapped : o.2.u.pd p ≠ none) : dom p := by
  by_cases hpv : p = page v
  · rw [hpv]
    exact hdom
  · rw [hp.pd hpv] at hmapped
    exact h p hmapped

/-- What is left when the placing of pages fails; with `strict` no record was lost. -/
def Failed (strict : Prop) (others dom : ℕ → Prop) (w : View) : Prop :=
  Ledger (live w.m) others w.u.frames ∧ (strict → Kept others dom w)

theorem Placed.kept {strict : Prop} (hp : Placed e v content w o) (h : Kept others dom w) (hv : page v < USER_PAGES)
    (hdom : dom (page v)) (hnone : w.u.pd (page v) = none) (hrec : strict → e.recOk = true) :
    (o.1 = some () → Kept others dom o.2) ∧ (o.1 = none → Failed strict others dom o.2) := by
  have hledger := hp.ledger h.ledger
  have hwithin := hp.within h.within hdom
  exact ⟨fun hok => ⟨hledger, hp.sound h.sound hv hnone (Or.inl hok), hwithin⟩,
    fun _ => ⟨hledger, fun hs => ⟨hledger, hp.sound h.sound hv hnone (Or.inr (hrec hs)), hwithin⟩⟩⟩

/-- A page that is not mapped yet. -/
theorem kept_new {strict : Prop} (hv : page v < USER_PAGES) (hdom : dom (page v)) (hrec : strict → e.recOk = true) :
    Triple (fun w => Kept others dom w ∧ w.u.pd (page v) = none) (allocUserPage e v) (fun _ => Kept others dom)
      (Failed strict others dom) :=
  triple_placed id (fun _ _ => 0) (fun w _ => placed_alloc e v w)
    fun _ _ hw hp => hp.kept hw.1 hv hdom hw.2 hrec

/-- A page that may be mapped already. -/
theorem kept_anon {strict : Prop} (hv : page v < USER_PAGES) (hdom : dom (page v)) (hrec : strict → e.recOk = true) :
    Triple (Kept others dom) (loaderMapAnonPage e v) (fun _ => Kept others dom) (Failed strict others dom) := by
  refine triple_anon (fun _ hw _ => hw) ((kept_new hv hdom hrec).mono (fun w hw => ⟨hw.1, ?_⟩)
    (fun _ _ => id) fun _ => id)
  rw [← resolve_user w hv]
  exact hw.2

theorem kept_eachAnon (strict : Prop) {l : List ℕ} {env : ℕ → PageEnv}
    (hl : ∀ v ∈ l, page v < USER_PAGES ∧ dom (page v))
    (henv : ∀ i, strict → (env i).recOk = true) :
    Triple (Kept others dom) (each loaderMapAnonPage env l) (fun _ => Kept others dom) (Failed strict others dom) := by
  exact Triple.each_keeps (fun e => strict → e.recOk = true)
    (fun e he v hv => kept_anon (hl v hv).1 (hl v hv).2 he) henv

/-- Pages that are not mapped yet, each at its address. -/
structure Vacant (dom : ℕ → Prop) (addr : α → ℕ) (l : List α) (w : View) : Prop where
  user : ∀ a ∈ l, page (addr a) < USER_PAGES ∧ dom (page (addr a))
  nodup : (l.map fun a => page (addr a)).Nodup
  none : ∀ a ∈ l, w.u.pd (page (addr a)) = none

theorem kept_each {strict : Prop} {f : PageEnv → α → Fallible View Unit} {addr : α → ℕ} {content : α → View → ℕ → UInt8}
    {good : α → Prop} (hf : ∀ e a w, good a → Placed e (addr a) (content a w) w ((f e a).run w)) {l : List α}
    {env : ℕ → PageEnv} (hgood : ∀ a ∈ l, good a) (henv : ∀ i, strict → (env i).recOk = true) :
    Triple (fun w => Kept others dom w ∧ Vacant dom addr l w) (each f env l) (fun _ => Kept others dom)
      (Failed strict others dom) := by
  have hloop : Triple (fun w => (Kept others dom w ∧ Vacant dom addr l w) ∧ ∀ a ∈ l, good a) (each f env l)
      (fun _ w => (Kept others dom w ∧ Vacant dom addr [] w) ∧ ∀ a ∈ [], good a) (Failed strict others dom) := by
    refine Triple.each (I := fun l w => (Kept others dom w ∧ Vacant dom addr l w) ∧ ∀ a ∈ l, good a)
      (fun e => strict → e.recOk = true) ?_ l henv
    intro e a l he w hw
    obtain ⟨⟨hk, hvac⟩, hg⟩ := hw
    obtain ⟨huser, hdom⟩ := hvac.user a (List.mem_cons_self ..)
    have hp := hf e a w (hg a (List.mem_cons_self ..))
    have h := hp.kept hk huser hdom (hvac.none a (List.mem_cons_self ..)) he
    obtain ⟨hnot, hnodup⟩ := List.nodup_cons.mp hvac.nodup
    refine ⟨fun x hx => ⟨⟨h.1 hx, ⟨fun b hb => hvac.user b (List.mem_cons_of_mem _ hb), hnodup,
      fun b hb => ?_⟩⟩, fun b hb => hg b (List.mem_cons_of_mem _ hb)⟩, h.2⟩
    have hne : page (addr b) ≠ page (addr a) := fun heq => hnot (List.mem_map.mpr ⟨b, hb, heq⟩)
    rw [hp.pd hne]
    exact hvac.none b (List.mem_cons_of_mem _ hb)
  exact hloop.mono (fun _ hw => ⟨hw, hgood⟩) (fun _ _ hw => hw.1.1) fun _ => id

theorem kept_eachNew (strict : Prop) {l : List ℕ} {env : ℕ → PageEnv} (henv : ∀ i, strict → (env i).recOk = true) :
    Triple (fun w => Kept others dom w ∧ Vacant dom id l w) (each allocUserPage env l) (fun _ => Kept others dom)
      (Failed strict others dom) :=
  kept_each (fun e v w _ => placed_alloc e v w) (fun _ _ => trivial) henv

theorem allocated_release {l : List (ℕ × ℕ)} (hf : f ∉ l.map Prod.snd) (m : Frames) :
    (l.foldl (fun m r => if r.2 = 0 then m else pmmFree r.2 m) m).allocated f = m.allocated f := by
  induction l generalizing m with
  | nil => rfl
  | cons r l ih =>
    obtain ⟨hne, hrest⟩ := not_or.mp fun h => hf (List.mem_cons.mpr h)
    rw [List.foldl_cons, ih hrest]
    split
    · rfl
    · exact update_of_ne hne _ _

/-- Frames that the space has not recorded stay allocated. -/
theorem live_release (h : live m f) (hf : f ∉ u.frames) : live (releaseResources u m) f :=
  ⟨(allocated_release hf m).trans h.1, h.2⟩

theorem dropped (h : Ledger (live w.m) others w.u.frames) : Dropped (fun m => ∀ g, others g → live m g) w :=
  h.release fun _ => live_release

/-- The pages of the image are in the lower half, away from those of the stack. -/
def Image.Fits (image : Image) (stack : List ℕ) : Prop :=
  ∀ v ∈ image.pages, page v < USER_PAGES ∧ ∀ x ∈ stack, page x ≠ page v

theorem sound_empty : Sound {} where
  current v f h := by cases h
  recorded p f h := by cases h
  heap := rfl

theorem kept_empty (h : ∀ g, others g → live m g) : Kept others dom ⟨{}, m⟩ where
  ledger := Ledger.empty h
  sound := sound_empty
  within _ hp := absurd rfl hp

def Image.covers (image : Image) (p : ℕ) : Prop := ∃ v ∈ image.pages, page v = p

theorem flatPages_vacant (filesz : ℕ) (w : View) (hw : w = ⟨{}, m⟩) :
    Vacant (Image.flat filesz).covers id flatPages w where
  user v hv := by
    have huser : ∀ v ∈ flatPages, page v < USER_PAGES := by decide +kernel
    exact ⟨huser v hv, v, hv, rfl⟩
  nodup := by decide +kernel
  none v _ := by rw [hw]

/-- The image of a program in an empty space. -/
theorem kept_loadImage {image : Image} {env : ℕ → ℕ → ℕ → PageEnv} {stack : List ℕ} (hfits : image.Fits stack)
    (h : ∀ g, others g → live m g) :
    Triple (fun w => w = ⟨{}, m⟩) (loadImage image env) (fun _ => Kept others image.covers)
      (fun w => Ledger (live w.m) others w.u.frames) := by
  have hstart : ∀ w, w = ⟨{}, m⟩ → Kept others image.covers w := by
    rintro w rfl
    exact kept_empty h
  refine loadImage_triple hstart (fun w hw => hw.ledger) (fun e v hv => ?_) fun filesz himage env => ?_
  · have hanon : Triple (Kept others image.covers) (loaderMapAnonPage e v) (fun _ => Kept others image.covers)
        (Failed False others image.covers) := kept_anon (hfits v hv).1 ⟨v, hv, rfl⟩ False.elim
    exact hanon.mono (fun _ => id) (fun _ _ => id) fun _ hw => hw.1
  · subst himage
    have hnew : Triple (fun w => Kept others (Image.flat filesz).covers w ∧
      Vacant (Image.flat filesz).covers id flatPages w)
        (each allocUserPage env flatPages) (fun _ => Kept others (Image.flat filesz).covers)
        (Failed False others (Image.flat filesz).covers) := kept_eachNew False fun _ => False.elim
    exact hnew.mono (fun w hw => ⟨hstart w hw, flatPages_vacant filesz w hw⟩) (fun _ _ => id) fun _ hw => hw.1

theorem Kept.none_of_fits {image : Image} {stack : List ℕ} (hfits : image.Fits stack) (h : Kept others image.covers w)
    (hv : v ∈ stack) : w.u.pd (page v) = none := by
  by_contra hmapped
  obtain ⟨x, hx, heq⟩ := h.within (page v) hmapped
  exact (hfits x hx).2 v hv heq.symm

theorem Kept.anywhere (h : Kept others dom w) : Kept others (fun _ => True) w := ⟨h.ledger, h.sound, fun _ _ => trivial⟩

theorem stackPages_user : ∀ v ∈ stackPages, page v < USER_PAGES := by decide +kernel

theorem stackPages_nodup : (stackPages.map page).Nodup := by decide +kernel

def execStackPages (linuxAbi : Bool) : List ℕ := if linuxAbi then stackPages else [LOADER_STACK_PAGE]

theorem kept_mapUserStack {image : Image} {env : ℕ → PageEnv} (hfits : image.Fits stackPages) :
    Triple (Kept others image.covers) (mapUserStack env) (fun _ => Kept others fun _ => True)
      (fun w => Ledger (live w.m) others w.u.frames) := by
  have hnew : Triple (fun w => Kept others (fun _ => True) w ∧ Vacant (fun _ => True) id stackPages w)
      (each allocUserPage env stackPages) (fun _ => Kept others fun _ => True) (Failed False others fun _ => True) :=
    kept_eachNew False fun _ => False.elim
  exact hnew.mono (fun w hw => ⟨hw.anywhere, fun v hv => ⟨stackPages_user v hv, trivial⟩,
    stackPages_nodup, fun v hv => hw.none_of_fits hfits hv⟩) (fun _ _ => id) fun _ hw => hw.1

theorem kept_execStack {image : Image} {linuxAbi : Bool} {env : ℕ → PageEnv}
    (hfits : image.Fits (execStackPages linuxAbi)) :
    Triple (Kept others image.covers) (execStack linuxAbi env) (fun _ => Kept others fun _ => True)
      (fun w => Ledger (live w.m) others w.u.frames) := by
  cases linuxAbi with
  | true => exact kept_mapUserStack hfits
  | false =>
    have huser : page LOADER_STACK_PAGE < USER_PAGES := stackPages_user LOADER_STACK_PAGE (by decide +kernel)
    have hnew : Triple (fun w => Kept others (fun _ => True) w ∧ w.u.pd (page LOADER_STACK_PAGE) = none)
        (allocUserPage (env 0) LOADER_STACK_PAGE) (fun _ => Kept others fun _ => True)
        (Failed False others fun _ => True) := kept_new huser trivial False.elim
    exact hnew.mono (fun w hw => ⟨hw.anywhere, hw.none_of_fits hfits (List.mem_singleton_self _)⟩) (fun _ _ => id)
      fun _ hw => hw.1

/-- A space made beside others is sound and has frames of its own; one given up leaves theirs. -/
abbrev Made (others : ℕ → Prop) : Option Space × Frames → Prop :=
  Outcome (Kept others fun _ => True) fun m => ∀ g, others g → live m g

theorem made_load {env : LoadEnv} (hfits : ∀ image, env.image = some image → image.Fits stackPages)
    (h : ∀ g, others g → live m g) : Made others (loaderRunArgs env m) := by
  unfold Made
  rcases henv : env.image with _ | image
  · refine loaderRunArgs_outcome (I := fun _ => False) h (fun image himage => ?_)
      (fun _ hw => hw.elim) fun w hw => dropped hw.ledger
    rw [henv] at himage
    cases himage
  · refine loaderRunArgs_outcome (I := Kept others image.covers) h (fun image' himage => ?_) ?_
      fun w hw => dropped hw.ledger
    · rw [henv] at himage
      obtain rfl := Option.some.inj himage
      exact (kept_loadImage (hfits image henv) h).mono (fun _ => id) (fun _ _ => id) fun w hw => hw.kept
    · exact (kept_mapUserStack (hfits image henv)).mono (fun _ => id) (fun _ _ => id) fun w hw => dropped hw

theorem made_exec {linuxAbi : Bool} {env : LoadEnv}
    (hfits : ∀ image, env.image = some image → image.Fits (execStackPages linuxAbi))
    (h : ∀ g, others g → live m g) : Made others (doExec linuxAbi env m) := by
  unfold Made
  rcases henv : env.image with _ | image
  · refine doExec_outcome (I := fun _ => False) h (fun image himage => ?_) (fun _ hw => hw.elim)
      fun w hw => dropped hw.ledger
    rw [henv] at himage
    cases himage
  · refine doExec_outcome (I := Kept others image.covers) h (fun image' himage => ?_) ?_ fun w hw => dropped hw.ledger
    · rw [henv] at himage
      obtain rfl := Option.some.inj himage
      exact (kept_loadImage (hfits image henv) h).mono (fun _ => id) (fun _ _ => id) fun w hw => dropped hw
    · exact (kept_execStack (hfits image henv)).mono (fun _ => id) (fun _ _ => id) fun w hw => dropped hw

theorem Sound.nodup (h : Sound u) (hframes : u.frames.Nodup) : (u.records.map fun r => page r.1).Nodup := by
  refine List.Nodup.map_on (fun r hr r' hr' heq => ?_) (hframes.of_map _)
  have hcur := (h.current r.1 r.2 hr).2
  have hcur' := (h.current r'.1 r'.2 hr').2
  rw [heq, hcur'] at hcur
  exact List.inj_on_of_nodup_map hframes hr hr' (Option.some.inj hcur).symm

theorem made_fork {pr : Space} {env : ForkEnv} (hpr : Sound pr) (hframes : pr.frames.Nodup)
    (h0 : ∀ g ∈ pr.frames, g ≠ 0)
    (h : ∀ g, others g → live m g) : Made others (loaderFork pr env m) := by
  have hclone : Triple (fun w => Kept others (fun _ => True) w ∧ Vacant (fun _ => True) Prod.fst pr.records w)
      (cloneResources pr env.pages) (fun _ => Kept others fun _ => True) (Failed False others fun _ => True) :=
    kept_each (fun e r w hr => placed_clone e hr w)
      (fun r hr => h0 r.2 (List.mem_map_of_mem hr)) fun _ => False.elim
  refine loaderFork_outcome h (hclone.mono ?_ (fun _ _ => id) fun w hw => dropped hw.1) fun w hw => dropped hw.ledger
  rintro w rfl
  have hsound : Sound (childSpace pr) := ⟨fun _ _ hr => (by cases hr), fun _ _ hp => (by cases hp), hpr.heap⟩
  refine ⟨⟨Ledger.empty h, hsound, fun _ _ => trivial⟩,
    ⟨fun r hr => ⟨(hpr.current r.1 r.2 hr).1, trivial⟩, hpr.nodup hframes, fun _ _ => rfl⟩⟩

end ComputerOS.Loader
