import ComputerOS.Loader.Model
import Mathlib.Data.List.Perm.Basic
import Mathlib.Data.List.Nodup

/-!
What the placing of one page can do: it is refused and nothing is mapped, or the page is mapped and
recorded, or it is mapped and its record is lost.
-/
namespace ComputerOS.Loader

open Function Fallible

variable {e : PageEnv} {v f p : ℕ} {content : ℕ → UInt8} {u : Space} {m : Frames} {w w' : View} {o : Option Unit × View}

theorem own_user (m : Frames) (hv : page v < USER_PAGES) : m.own v = true := by
  rw [Frames.own, decide_eq_true hv, Bool.true_or]

theorem resolve_user (w : View) (hv : page v < USER_PAGES) : w.resolve v = w.u.pd (page v) := by
  rw [View.resolve, if_pos (own_user w.m hv)]

theorem mapIn_user (w : View) (f : ℕ) (hv : page v < USER_PAGES) :
    w.mapIn v f = { w with u := { w.u with pd := update w.u.pd (page v) (some f) } } := by
  rw [View.mapIn, if_pos (own_user w.m hv)]

@[simp] theorem mapIn_blocks (w : View) (v f : ℕ) : (w.mapIn v f).u.blocks = w.u.blocks := by
  unfold View.mapIn
  split <;> rfl

@[simp] theorem mapIn_heapMax (w : View) (v f : ℕ) : (w.mapIn v f).u.heapMax = w.u.heapMax := by
  unfold View.mapIn
  split <;> rfl

theorem mapIn_pd (w : View) (v f : ℕ) (hp : p ≠ page v) : (w.mapIn v f).u.pd p = w.u.pd p := by
  unfold View.mapIn
  split
  · exact update_of_ne hp _ _
  · rfl

/-- The frames with another bitmap and other contents. -/
def Frames.set (m : Frames) (allocated : ℕ → Bool) (bytes : ℕ → ℕ → UInt8) : Frames :=
  { m with allocated := allocated, bytes := bytes }

/-- Which frames are allocated, and what they hold, plays no part in the mapping. -/
theorem mapIn_set (w : View) (v f : ℕ) (allocated : ℕ → Bool) (bytes : ℕ → ℕ → UInt8) :
    View.mapIn ⟨w.u, w.m.set allocated bytes⟩ v f = ⟨(w.mapIn v f).u, (w.mapIn v f).m.set allocated bytes⟩ := by
  have hown : (w.m.set allocated bytes).own v = w.m.own v := rfl
  unfold View.mapIn
  dsimp only
  rw [hown]
  split <;> rfl

/-- The page of `v` mapped to frame `f`, with these records. -/
def View.place (w : View) (v f : ℕ) (content : ℕ → UInt8) (blocks : List (List (ℕ × ℕ))) : View where
  u := { (w.mapIn v f).u with blocks := blocks }
  m := (w.mapIn v f).m.set (update w.m.allocated f true) (update w.m.bytes f content)

inductive Placed (e : PageEnv) (v : ℕ) (content : ℕ → UInt8) (w : View) : Option Unit × View → Prop
  | refused (bytes : ℕ → ℕ → UInt8) (hbytes : ∀ g, w.m.allocated g = true → bytes g = w.m.bytes g) :
      Placed e v content w (none, ⟨w.u, w.m.set w.m.allocated bytes⟩)
  | lost (hfree : w.m.allocated e.frame = false) (hrec : e.recOk = false) :
      Placed e v content w (none,
        ⟨(w.mapIn v e.frame).u, (w.mapIn v e.frame).m.set w.m.allocated (update w.m.bytes e.frame content)⟩)
  | done (blocks : List (List (ℕ × ℕ))) (hfree : w.m.allocated e.frame = false) (h0 : e.frame ≠ 0)
      (hrec : blocks.flatten.Perm ((v, e.frame) :: w.u.records)) :
      Placed e v content w (some (), w.place v e.frame content blocks)

/-- No other page is mapped anew. -/
theorem Placed.pd (h : Placed e v content w o) (hp : p ≠ page v) : o.2.u.pd p = w.u.pd p := by
  cases h with
  | refused bytes hbytes => rfl
  | lost hfree hrec => exact mapIn_pd w v e.frame hp
  | done blocks hfree h0 hrec => exact mapIn_pd w v e.frame hp

theorem Placed.heapMax (h : Placed e v content w o) : o.2.u.heapMax = w.u.heapMax := by
  cases h with
  | refused bytes hbytes => rfl
  | lost hfree hrec => exact mapIn_heapMax w v e.frame
  | done blocks hfree h0 hrec => exact mapIn_heapMax w v e.frame

theorem pmmAlloc_some {m' : Frames} (h : pmmAlloc f m = some m') :
    m.allocated f = false ∧ f ≠ 0 ∧ m' = m.set (update m.allocated f true) m.bytes := by
  unfold pmmAlloc at h
  split at h
  · cases h
  · rename_i hno
    rw [not_or] at hno
    exact ⟨Bool.eq_false_iff.mpr hno.2, hno.1, (Option.some.inj h).symm⟩

theorem pmmFree_alloc {allocated : ℕ → Bool} (hfree : allocated f = false) (m : Frames) (bytes : ℕ → ℕ → UInt8) :
    pmmFree f (m.set (update allocated f true) bytes) = m.set allocated bytes := by
  have hsame : update (update allocated f true) f false = allocated := by
    rw [update_idem, ← hfree, update_eq_self]
  have hset : pmmFree f (m.set (update allocated f true) bytes) = m.set
    (update (update allocated f true) f false) bytes := rfl
  rw [hset, hsame]

/-- A record is added to the first block, or to a new one. -/
theorem recordPage_cases (recOk : Bool) (v f : ℕ) (u : Space) :
    (recOk = false ∧ recordPage recOk v f u = none) ∨
    ∃ blocks, blocks.flatten.Perm ((v, f) :: u.records) ∧
    recordPage recOk v f u = some { u with blocks := blocks } := by
  unfold recordPage Space.records
  rcases hblocks : u.blocks with _ | ⟨b, bs⟩
  · cases recOk with
    | false => exact Or.inl ⟨rfl, rfl⟩
    | true => exact Or.inr ⟨[[(v, f)]], List.Perm.refl _, rfl⟩
  · by_cases hlen : b.length < PAGES_PER_BLOCK
    · refine Or.inr ⟨(b ++ [(v, f)]) :: bs, ?_, if_pos hlen⟩
      simpa only [List.flatten_cons, List.append_assoc, List.singleton_append] using List.perm_middle
    · cases recOk with
      | false => exact Or.inl ⟨rfl, by simp [hlen]⟩
      | true => exact Or.inr ⟨[(v, f)] :: b :: bs, List.Perm.refl _, by simp [hlen]⟩

/-- A page just mapped to a new frame is recorded, or its frame is freed. -/
theorem placed_recorded (content : ℕ → UInt8) (hfree : w.m.allocated e.frame = false) (h0 : e.frame ≠ 0) :
    Placed e v content w (recorded e v ⟨(w.mapIn v e.frame).u,
      (w.mapIn v e.frame).m.set (update w.m.allocated e.frame true) (update w.m.bytes e.frame content)⟩) := by
  unfold recorded
  dsimp only
  rcases recordPage_cases e.recOk v e.frame (w.mapIn v e.frame).u with ⟨hrec, hnone⟩ | ⟨blocks, hperm, hsome⟩
  · rw [hnone]
    dsimp only
    rw [pmmFree_alloc hfree]
    exact Placed.lost hfree hrec
  · rw [hsome]
    unfold Space.records at hperm
    rw [mapIn_blocks] at hperm
    exact Placed.done blocks hfree h0 hperm

theorem placed_alloc (e : PageEnv) (v : ℕ) (w : View) :
    Placed e v (fun _ => 0) w ((allocUserPage e v).run w) := by
  have hsame : Placed e v (fun _ => 0) w (none, w) := Placed.refused w.m.bytes fun _ _ => rfl
  rcases halloc : pmmAlloc e.frame w.m with _ | m
  · rw [allocUserPage_none v halloc]
    exact hsame
  · rw [allocUserPage_some v halloc]
    obtain ⟨hfree, h0, rfl⟩ := pmmAlloc_some halloc
    split
    · rw [mapIn_set]
      have h := placed_recorded (v := v) (fun _ => 0) hfree h0
      exact h
    · rw [pmmFree_alloc hfree]
      exact hsame

theorem placed_clone (e : PageEnv) {r : ℕ × ℕ} (hr : r.2 ≠ 0) (w : View) :
    Placed e r.1 (w.m.bytes r.2) w ((clonePage e r).run w) := by
  rcases halloc : pmmAlloc e.frame w.m with _ | m
  · have hrun : (clonePage e r).run w = (none, w) := by simp only [clonePage, mk, run, halloc, if_neg hr]
    rw [hrun]
    exact Placed.refused w.m.bytes fun _ _ => rfl
  · obtain ⟨hfree, h0, rfl⟩ := pmmAlloc_some halloc
    have hne : ∀ g, w.m.allocated g = true → g ≠ e.frame := by
      intro g hg heq
      rw [heq, hfree] at hg
      cases hg
    simp only [clonePage, mk, run, halloc, if_neg hr]
    change Placed e r.1 (w.m.bytes r.2) w
      (if e.mapOk then recorded e r.1 (View.mapIn ⟨w.u, w.m.set (update w.m.allocated e.frame true)
          (update w.m.bytes e.frame (w.m.bytes r.2))⟩ r.1 e.frame)
        else (none, ⟨w.u, pmmFree e.frame (w.m.set (update w.m.allocated e.frame true)
          (update w.m.bytes e.frame (w.m.bytes r.2)))⟩))
    split
    · rw [mapIn_set]
      exact placed_recorded _ hfree h0
    · rw [pmmFree_alloc hfree]
      exact Placed.refused _ fun g hg => update_of_ne (hne g hg) _ _

end ComputerOS.Loader

-- Rules for the loading of a program: what the placing of each of its pages keeps, the loading
-- keeps, and a space that is given up on the way is released.
namespace ComputerOS.Loader

open Function Fallible

variable {α : Type} {P I Q E : View → Prop} {N : Frames → Prop} {w : View} {m : Frames} {v p : ℕ}

def Elf.pages (dynBase : ℕ) (f : Elf) : List ℕ :=
  f.loads.flatMap fun s => if s.memsz = 0 ∨ s.memsz < s.filesz then [] else s.pages (f.bias dynBase)

/-- The pages that the loading of a program may place. -/
def Image.pages : Image → List ℕ
  | .flat _ => flatPages
  | .elf main interp => main.elim [] (Elf.pages LOADER_PIE_BASE) ++
      interp.elim [] fun g => g.elim [] (Elf.pages LOADER_INTERP_BASE)

theorem triple_placed {f : PageEnv → α → Fallible View Unit} {e : PageEnv} {a : α} (addr : α → ℕ)
    (content : View → ℕ → UInt8)
    (hf : ∀ w, P w → Placed e (addr a) (content w) w ((f e a).run w))
    (h : ∀ w o, P w → Placed e (addr a) (content w) w o → (o.1 = some () → Q o.2) ∧ (o.1 = none → E o.2)) :
    Triple P (f e a) (fun _ => Q) E :=
  fun w hw => ⟨fun _ ha => (h w _ hw (hf w hw)).1 ha, (h w _ hw (hf w hw)).2⟩

/-- A page that is mapped already is left alone. -/
theorem triple_anon {e : PageEnv} (hseen : ∀ w, P w → (w.resolve v).isSome → Q w)
    (hnew : Triple (fun w => P w ∧ w.resolve v = none) (allocUserPage e v) (fun _ => Q) E) :
    Triple P (loaderMapAnonPage e v) (fun _ => Q) E := by
  intro w hw
  by_cases hres : (w.resolve v).isSome
  · have hrun : (loaderMapAnonPage e v).run w = (some (), w) := if_pos hres
    rw [hrun]
    exact ⟨fun _ _ => hseen w hw hres, fun hn => by cases hn⟩
  · have hrun : (loaderMapAnonPage e v).run w = (allocUserPage e v).run w := if_neg hres
    rw [hrun]
    exact hnew w ⟨hw, Option.not_isSome_iff_eq_none.mp hres⟩

theorem mapSegment_triple {bias : ℕ} {env : ℕ → PageEnv} {s : Segment} (hE : ∀ w, I w → E w)
    (hanon : ¬ (s.memsz = 0 ∨ s.memsz < s.filesz) → ∀ e, ∀ v ∈ s.pages bias,
      Triple I (loaderMapAnonPage e v) (fun _ => I) E) :
    Triple I (mapSegment bias env s) (fun _ => I) E := by
  unfold mapSegment
  split
  · exact .pure fun _ hw => hw
  split
  · exact .fail hE
  · rename_i h0 hlt
    have hpages := hanon (not_or.mpr ⟨h0, hlt⟩)
    exact Triple.each_keeps (fun _ => True) (fun e _ => hpages e) fun _ => trivial

theorem elfMap_triple {dynBase : ℕ} {env : ℕ → ℕ → PageEnv} {f : Elf} (hE : ∀ w, I w → E w)
    (hanon : ∀ e, ∀ v ∈ f.pages dynBase, Triple I (loaderMapAnonPage e v) (fun _ => I) E) :
    Triple I (elfMap dynBase env f) (fun _ => I) E := by
  have hloads : Triple I (each (mapSegment (f.bias dynBase)) env f.loads) (fun _ => I) E := by
    refine Triple.each_keeps (fun _ => True) (fun e _ s hs => ?_) fun _ => trivial
    refine mapSegment_triple hE fun hok e v hv => hanon e v (List.mem_flatMap.mpr ⟨s, hs, ?_⟩)
    rw [if_neg hok]
    exact hv
  exact .bind (Q := fun _ => I) (.check (fun _ _ hw => hw) hE) fun _ => .bind hloads fun _ =>
    .bind (Q := fun _ => I) (.check (fun _ _ hw => hw) hE) fun _ => .pure fun _ hw => hw

theorem loadImage_triple {image : Image} {env : ℕ → ℕ → ℕ → PageEnv} (hP : ∀ w, P w → I w) (hE : ∀ w, I w → E w)
    (hanon : ∀ e, ∀ v ∈ image.pages, Triple I (loaderMapAnonPage e v) (fun _ => I) E)
    (hflat : ∀ filesz, image = .flat filesz → ∀ env, Triple P (each allocUserPage env flatPages) (fun _ => I) E) :
    Triple P (loadImage image env) (fun _ => I) E := by
  have hentry : ∀ entry : ℕ, Triple I (do check (entry ≠ 0); pure entry) (fun _ => I) E := fun entry =>
    .bind (Q := fun _ => I) (.check (fun _ _ hw => hw) hE) fun _ => .pure fun _ hw => hw
  cases image with
  | flat filesz =>
    refine .bind (Q := fun _ => I) ?_ hentry
    exact .bind (Q := fun _ => P) (.check (fun _ _ hw => hw) fun w hw => hE w (hP w hw)) fun _ =>
      .bind (hflat filesz rfl _) fun _ => .pure fun _ hw => hw
  | elf main interp =>
    refine .bind (Q := fun _ => I) (Triple.mono ?_ hP (fun _ _ => id) fun _ => id) hentry
    cases main with
    | none => exact .fail hE
    | some f =>
      refine .bind (Q := fun _ => I) (elfMap_triple hE fun e v hv => hanon e v (List.mem_append_left _ hv)) fun _ => ?_
      rcases interp with _ | _ | g
      · exact .pure fun _ hw => hw
      · exact .fail hE
      · exact elfMap_triple hE fun e v hv => hanon e v (List.mem_append_right _ hv)

/-- What became of the making of a space. -/
def Outcome (Q : View → Prop) (N : Frames → Prop) : Option Space × Frames → Prop
  | (some u, m) => Q ⟨u, m⟩
  | (none, m) => N m

/-- The frames left when the space is given up. -/
def Dropped (N : Frames → Prop) (w : View) : Prop := N (releaseResources w.u w.m)

theorem loaderRunArgs_outcome {env : LoadEnv} (hm : N m)
    (himage : ∀ image, env.image = some image →
      Triple (fun w => w = ⟨{}, m⟩) (loadImage image env.pages) (fun _ => I) fun w => N w.m)
    (hstack : Triple I (mapUserStack env.stack) (fun _ => Q) (Dropped N)) (hdrop : ∀ w, Q w → Dropped N w) :
    Outcome Q N (loaderRunArgs env m) := by
  unfold loaderRunArgs
  split
  · exact hm
  rcases henv : env.image with _ | image
  · exact hm
  have h1 := himage image henv ⟨{}, m⟩ rfl
  dsimp only
  rcases hrun : (loadImage image env.pages).run ⟨{}, m⟩ with ⟨_ | entry, w⟩
  · rw [hrun] at h1
    exact h1.2 rfl
  rw [hrun] at h1
  have h2 := hstack w (h1.1 entry rfl)
  dsimp only
  rcases hrun2 : (mapUserStack env.stack).run w with ⟨_ | _, w2⟩
  · rw [hrun2] at h2
    exact h2.2 rfl
  rw [hrun2] at h2
  dsimp only
  split
  · exact h2.1 () rfl
  · exact hdrop w2 (h2.1 () rfl)

theorem build_outcome {linuxAbi : Bool} {env : LoadEnv} {image : Image}
    (himage : Triple (fun w => w = ⟨{}, m⟩) (loadImage image env.pages) (fun _ => I) (Dropped N))
    (hstack : Triple I (execStack linuxAbi env.stack) (fun _ => Q) (Dropped N)) (hdrop : ∀ w, Q w → Dropped N w) :
    Outcome Q N (doExec.build linuxAbi env image m) := by
  have h1 := himage ⟨{}, m⟩ rfl
  unfold doExec.build
  rcases hrun : (loadImage image env.pages).run ⟨{}, m⟩ with ⟨_ | entry, w⟩
  · rw [hrun] at h1
    exact h1.2 rfl
  rw [hrun] at h1
  have h2 := hstack w (h1.1 entry rfl)
  dsimp only
  rcases hrun2 : (execStack linuxAbi env.stack).run w with ⟨_ | _, w2⟩
  · rw [hrun2] at h2
    exact h2.2 rfl
  rw [hrun2] at h2
  dsimp only
  split
  · exact h2.1 () rfl
  · exact hdrop w2 (h2.1 () rfl)

theorem doExec_outcome {linuxAbi : Bool} {env : LoadEnv} (hm : N m)
    (himage : ∀ image, env.image = some image →
      Triple (fun w => w = ⟨{}, m⟩) (loadImage image env.pages) (fun _ => I) (Dropped N))
    (hstack : Triple I (execStack linuxAbi env.stack) (fun _ => Q) (Dropped N)) (hdrop : ∀ w, Q w → Dropped N w) :
    Outcome Q N (doExec linuxAbi env m) := by
  unfold doExec
  split
  · exact hm
  rcases henv : env.image with _ | (filesz | ⟨main, interp⟩)
  · exact hm
  · dsimp only
    split
    · exact hm
    · exact build_outcome (himage _ henv) hstack hdrop
  · exact build_outcome (himage _ henv) hstack hdrop

def childSpace (pr : Space) : Space := { heapBase := pr.heapBase, heapBrk := pr.heapBrk, heapMax := pr.heapMax }

theorem loaderFork_outcome {pr : Space} {env : ForkEnv} (hm : N m)
    (hclone : Triple (fun w => w = ⟨childSpace pr, m⟩) (cloneResources pr env.pages) (fun _ => Q) (Dropped N))
    (hdrop : ∀ w, Q w → Dropped N w) : Outcome Q N (loaderFork pr env m) := by
  have h := hclone ⟨childSpace pr, m⟩ rfl
  unfold loaderFork
  split
  · exact hm
  unfold childSpace at h
  dsimp only
  rcases hrun : (cloneResources pr env.pages).run
    ⟨{ heapBase := pr.heapBase, heapBrk := pr.heapBrk, heapMax := pr.heapMax }, m⟩ with ⟨_ | _, w⟩
  · rw [hrun] at h
    exact h.2 rfl
  rw [hrun] at h
  dsimp only
  split
  · exact h.1 () rfl
  · exact hdrop w (h.1 () rfl)

def freeMachine : Frames where
  allocated _ := false
  bytes _ _ := 0
  shared _ := false
  kernel _ := none

/-- A program of one page at 0x400000. -/
def onePage : Image :=
  .elf (some {
    dyn := false, entry := 0x400000
    loads := [{ vaddr := 0x400000, filesz := 0x1000, memsz := 0x1000 }] }) none

def onePageLoad : LoadEnv where
  image := some onePage
  pages _ _ _ := { frame := 0x100000 }
  stack i := { frame := 0x200000 + i * 0x1000 }

end ComputerOS.Loader
