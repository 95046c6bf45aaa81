import ComputerOS.Loader.Image

/-!
What `elf_map` does to the half of memory that belongs to the kernel. The addresses of the segments
are those of the file, and nothing compares them with the end of the user half: a program keeps out
of the kernel's half exactly when its own headers do.
-/
namespace ComputerOS.Loader

open Function Fallible

/-- All pages that were mapped lie in the user half, all bytes that were stored lie below it, and
the translations of the kernel's half are as at the start, in this space and in those that share
them. -/
structure UserOnly (start : View) (s : Loading) : Prop where
  pages : ∀ v ∈ s.mapped, page v < USER_PAGES
  bytes : ∀ a ∈ s.wrote, a < 2 ^ 47
  own : ∀ v, USER_PAGES ≤ page v → s.w.resolve v = start.resolve v
  kernel : s.w.m.kernel = start.m.kernel

/-- However the load ends, it does not touch the kernel. -/
def KernelKept (dynBase : ℕ) (file : List UInt8) : Prop :=
  ∀ e₁ e₂ env start, UserOnly start ((mapFile dynBase e₁ e₂ env file).run { w := start }).2

/-- The range is empty or lies in the user half. -/
def Low (a n : ℕ) : Prop := n = 0 ∨ a + n ≤ 2 ^ 47

/-- The mapping loop does not skip the header. -/
def Phdr.Maps (ph : Phdr) : Prop := ph.type = PT_LOAD ∧ ph.memsz ≠ 0

/-- The loading loop does not skip the header. -/
def Phdr.Loads (ph : Phdr) : Prop := ph.type = PT_LOAD ∧ ph.filesz ≠ 0

/-- The pages of the segments, up to the first one that is refused, lie in the user half. -/
def MapsLow (bias : ℕ) : List Phdr → Prop
  | [] => True
  | ph :: phs =>
    (ph.Maps → ph.filesz ≤ ph.memsz → ∀ v ∈ ph.segment.pages bias, page v < USER_PAGES) ∧
      ((ph.Maps → ph.filesz ≤ ph.memsz) → MapsLow bias phs)

/-- The bytes that a read of the segment can store: those that the file has, or all that are asked
for where the range wraps. -/
def Phdr.reach (file : List UInt8) (ph : Phdr) : ℕ :=
  if Wraps (u32 ph.offset) (u32 ph.filesz) then u32 ph.filesz else (ph.data file).length

/-- A read can give all bytes of the segment, or their number is negative as an `int`. -/
def Phdr.Passes (file : List UInt8) (ph : Phdr) : Prop := 2 ^ 31 ≤ u32 ph.filesz ∨ u32 ph.filesz ≤ ph.reach file

/-- What is stored for the segments, up to the first one that cannot be read, lies in the user half.
-/
def WritesLow (bias : ℕ) (file : List UInt8) : List Phdr → Prop
  | [] => True
  | ph :: phs =>
    (ph.Loads → Low (ph.start bias) (ph.reach file) ∧
      (ph.Passes file → Low (u64 (ph.start bias + ph.filesz)) ph.bss.length)) ∧
      ((ph.Loads → ph.Passes file) → WritesLow bias file phs)

/-- The path of the dynamic loader can be read. -/
def Phdr.InterpOk (file : List UInt8) (ph : Phdr) : Prop :=
  ph.type = PT_INTERP → 0 < u32 ph.filesz ∧ u32 ph.filesz < INTERP_SIZE ∧
  u32 ph.filesz ≤ ph.reach file

/-- The headers are refused before a page is mapped, or their segments lie in the user half. -/
def Headers.Low (h : Headers) (dynBase : ℕ) (file : List UInt8) : Prop :=
  minVaddr h.phdrs ≠ 2 ^ 64 - 1 → (∀ ph ∈ h.phdrs, ph.InterpOk file) →
    MapsLow (h.bias dynBase) h.phdrs ∧
      ((∀ ph ∈ h.phdrs, ph.Maps → ph.filesz ≤ ph.memsz) → WritesLow (h.bias dynBase) file h.phdrs)

variable {start : View} {s : Loading} {e : PageEnv} {o : Option Unit × View} {content : ℕ → UInt8} {w : View}
  {bias dynBase v a : ℕ} {ph : Phdr} {phs : List Phdr} {file bs : List UInt8} {h : Headers}

theorem Placed.upper (hp : Placed e v content w o) (hv : page v < USER_PAGES) :
    (∀ x, USER_PAGES ≤ page x → o.2.resolve x = w.resolve x) ∧ o.2.m.kernel = w.m.kernel := by
  have hpd : ∀ x, USER_PAGES ≤ page x → (w.mapIn v e.frame).u.pd (page x) = w.u.pd (page x) :=
    fun x hx => mapIn_pd w v e.frame (by omega)
  have hm : (w.mapIn v e.frame).m = w.m := by rw [mapIn_user w _ hv]
  cases hp with
  | refused bytes hbytes => exact ⟨fun _ _ => rfl, rfl⟩
  | lost hfree hrec =>
    refine ⟨fun x hx => ?_, by rw [hm]; rfl⟩
    have hx := hpd x hx
    unfold View.resolve
    rw [hm, hx]
    rfl
  | done blocks hfree h0 hrec =>
    refine ⟨fun x hx => ?_, by rw [View.place, hm]; rfl⟩
    have hx := hpd x hx
    unfold View.resolve View.place
    dsimp only
    rw [hm, hx]
    rfl

theorem userOnly_mapPage (hv : page v < USER_PAGES) :
    Triple (UserOnly start) (mapPage e v) (fun _ => UserOnly start) (UserOnly start) := by
  have hrun : ∀ s, UserOnly start s → UserOnly start ((mapPage e v).run s).2 := by
    intro s hs
    rw [mapPage_run]
    split
    · exact hs
    · obtain ⟨hown, hkernel⟩ := (placed_alloc e v s.w).upper hv
      refine ⟨fun x hx => ?_, hs.bytes, fun x hx => (hown x hx).trans (hs.own x hx), hkernel.trans hs.kernel⟩
      dsimp only at hx
      split at hx
      · rcases List.mem_cons.1 hx with rfl | hx
        · exact hv
        · exact hs.pages x hx
      · exact hs.pages x hx
  exact fun s hs => ⟨fun _ _ => hrun s hs, fun _ => hrun s hs⟩

theorem userOnly_mapPhdrs (env : ℕ → ℕ → PageEnv) (hlow : MapsLow bias phs) :
    Triple (UserOnly start) (each (mapPhdr bias) env phs)
      (fun _ s => UserOnly start s ∧ ∀ ph ∈ phs, ph.Maps → ph.filesz ≤ ph.memsz) (UserOnly start) := by
  induction phs generalizing env with
  | nil => exact Triple.pure fun s hs => ⟨hs, fun _ hm => by cases hm⟩
  | cons ph phs ih =>
    obtain ⟨hpages, hrest⟩ := hlow
    have hone : Triple (UserOnly start) (mapPhdr bias (env 0) ph)
        (fun _ s => (ph.Maps → ph.filesz ≤ ph.memsz) ∧ UserOnly start s) (UserOnly start) := by
      unfold mapPhdr
      split
      · rename_i hskip
        exact Triple.pure fun s hs => ⟨fun hm => absurd hskip (by simp [hm.1, hm.2]), hs⟩
      rename_i hskip
      rw [not_or, not_not] at hskip
      split
      · exact Triple.fail fun s hs => hs
      rename_i hsize
      have hpages := hpages hskip (by omega)
      refine (Triple.each_keeps (fun _ => True) (fun e _ v hv => userOnly_mapPage (hpages v hv)) fun _ => trivial).mono
        (fun _ hs => hs) (fun _ _ hs => ⟨fun _ => by omega, hs⟩) fun _ hs => hs
    refine Triple.bind hone fun _ => Triple.assume fun hsize => ?_
    exact (ih (fun i => env (i + 1)) (hrest hsize)).mono (fun _ hs => hs)
      (fun _ _ hs => ⟨hs.1, List.forall_mem_cons.2 ⟨hsize, hs.2⟩⟩) fun _ hs => hs

theorem userOnly_storeByte (b : UInt8) (ha : a < 2 ^ 47) :
    Triple (UserOnly start) (storeByte a b) (fun _ => UserOnly start) (UserOnly start) := by
  have hwrote : ∀ s, UserOnly start s → ∀ x ∈ a :: s.wrote, x < 2 ^ 47 :=
    fun s hs => List.forall_mem_cons.2 ⟨ha, hs.bytes⟩
  intro s hs
  rcases hacc : s.w.access a with _ | f
  · rw [storeByte_none hacc]
    exact ⟨fun _ hx => (by cases hx), fun _ => ⟨hs.pages, hwrote s hs, hs.own, hs.kernel⟩⟩
  · rw [storeByte_some hacc]
    exact ⟨fun _ _ => ⟨hs.pages, hwrote s hs, hs.own, hs.kernel⟩, fun hx => (by cases hx)⟩

theorem userOnly_storeAll (hlow : Low a bs.length) :
    Triple (UserOnly start) (storeAll a bs) (fun _ => UserOnly start) (UserOnly start) := by
  induction bs generalizing a with
  | nil => exact Triple.pure fun _ hs => hs
  | cons b bs ih =>
    have hend : a + (bs.length + 1) ≤ 2 ^ 47 := hlow.resolve_left (Nat.succ_ne_zero _)
    have hmod : u64 a = a := Nat.mod_eq_of_lt (by omega)
    exact Triple.bind (userOnly_storeByte b (by omega)) fun _ => ih (Or.inr (by omega))

theorem stored_length_le (e : ReadAtEnv) (all : List UInt8) : (e.stored all).length ≤ all.length := by
  unfold ReadAtEnv.stored
  split
  · exact le_refl _
  · rw [List.length_take]
    exact Nat.min_le_right _ _

theorem Low.mono {n m : ℕ} (hlow : Low a n) (hle : m ≤ n) : Low a m := by
  unfold Low at *
  omega

theorem data_length_le (file : List UInt8) (ph : Phdr) : (ph.data file).length ≤ u32 ph.filesz := by
  rw [Phdr.data, fileRange, List.length_take]
  exact Nat.min_le_left _ _

theorem reach_le (file : List UInt8) (ph : Phdr) : ph.reach file ≤ u32 ph.filesz := by
  unfold Phdr.reach
  split
  · exact le_refl _
  · exact data_length_le file ph

theorem read_length_le (e : ReadAtEnv) (file : List UInt8) (ph : Phdr) : (ph.read e file).length ≤ ph.reach file := by
  unfold Phdr.read ReadAtEnv.source Phdr.reach
  split
  · exact List.length_take_le ..
  · exact le_refl _

/-- A read that stores as much as one can. -/
def strays (n : ℕ) : ReadAtEnv where
  stray := some (List.replicate n 0)

theorem read_strays_length (file : List UInt8) (ph : Phdr) :
    (ph.read (strays (u32 ph.filesz)) file).length = ph.reach file := by
  unfold Phdr.read ReadAtEnv.source Phdr.reach strays
  split
  · rw [Option.getD_some, List.length_take, List.length_replicate, Nat.min_self]
  · rfl

theorem u32_lt (x : ℕ) : u32 x < 2 ^ 32 := Nat.mod_lt _ (by decide)

/-- A read that is not taken for a short one got all bytes, or their number is negative. -/
theorem passes_of_ret {e : ReadAtEnv} (hret : int32 (u32 ph.filesz) ≤ e.ret (ph.read e file)) : ph.Passes file := by
  refine or_iff_not_imp_left.2 fun hsmall => ?_
  have hlen := (read_length_le e file ph).trans (reach_le file ph)
  have hread := read_length_le e file ph
  have hstored := stored_length_le e (ph.read e file)
  rw [int32_of_lt (by omega)] at hret
  unfold ReadAtEnv.ret at hret
  split at hret
  · rw [int32_of_lt (by omega)] at hret
    omega
  · omega

theorem userOnly_loadPhdrs (env : ℕ → ReadAtEnv) (hlow : WritesLow bias file phs) :
    Triple (UserOnly start) (each (loadPhdr bias file) env phs) (fun _ => UserOnly start) (UserOnly start) := by
  induction phs generalizing env with
  | nil => exact Triple.pure fun _ hs => hs
  | cons ph phs ih =>
    obtain ⟨hph, hrest⟩ := hlow
    have hone : Triple (UserOnly start) (loadPhdr bias file (env 0) ph)
        (fun _ s => (ph.Loads → ph.Passes file) ∧ UserOnly start s) (UserOnly start) := by
      unfold loadPhdr
      split
      · rename_i hskip
        exact Triple.pure fun s hs => ⟨fun hm => absurd hskip (by simp [hm.1, hm.2]), hs⟩
      rename_i hskip
      rw [not_or, not_not] at hskip
      obtain ⟨hdata, hbss⟩ := hph hskip
      have hstored := (stored_length_le (env 0) (ph.read (env 0) file)).trans (read_length_le (env 0) file ph)
      refine Triple.bind (userOnly_storeAll (hdata.mono hstored)) fun _ => ?_
      refine Triple.bind (Q := fun _ s => ph.Passes file ∧ UserOnly start s) ?_ fun _ => Triple.assume fun hpass => ?_
      · exact Triple.check (fun s hret hs => ⟨passes_of_ret (of_decide_eq_true hret), hs⟩) fun _ hs => hs
      · exact (userOnly_storeAll (hbss hpass)).mono (fun _ hs => hs) (fun _ _ hs => ⟨fun _ => hpass, hs⟩) fun _ hs => hs
    exact Triple.bind hone fun _ => Triple.assume fun hpass => ih (fun i => env (i + 1)) (hrest hpass)

theorem interpOk_of_findInterp {env : ℕ → ReadAtEnv} {interp path : List UInt8}
    (hfind : findInterp env file interp phs = some path) : ∀ ph ∈ phs, ph.InterpOk file := by
  induction phs generalizing env interp with
  | nil => exact fun _ hm => by cases hm
  | cons ph phs ih =>
    unfold findInterp at hfind
    split at hfind
    · split at hfind
      · cases hfind
      rename_i s hread
      refine List.forall_mem_cons.2 ⟨fun _ => ?_, ih hfind⟩
      unfold readInterp at hread
      dsimp only at hread
      split at hread
      · cases hread
      rename_i hsize
      split at hread
      · cases hread
      rename_i hret
      have hread := read_length_le (env 0) file ph
      have hreach := reach_le file ph
      have hstored := stored_length_le (env 0) (ph.read (env 0) file)
      unfold INTERP_SIZE at hsize ⊢
      rw [not_or] at hsize
      refine ⟨by omega, by omega, ?_⟩
      change ¬ (env 0).ret (ph.read (env 0) file) < u32 ph.filesz at hret
      unfold ReadAtEnv.ret at hret
      split at hret
      · rw [int32_of_lt (by omega)] at hret
        omega
      · omega
    · rename_i hother
      exact List.forall_mem_cons.2 ⟨fun h => absurd h hother, ih hfind⟩

/-- Headers whose segments lie in the user half keep the load there. -/
theorem userOnly_of_low (env : MapEnv) (hlow : h.Low dynBase file) :
    Triple (UserOnly start) (mapHeaders dynBase env file h) (fun _ => UserOnly start) (UserOnly start) := by
  unfold mapHeaders
  split
  · exact Triple.fail fun _ hs => hs
  rename_i hmin
  split
  · exact Triple.fail fun _ hs => hs
  rename_i interp hfind
  obtain ⟨hmaps, hwrites⟩ := hlow hmin (interpOk_of_findInterp hfind)
  refine Triple.bind (userOnly_mapPhdrs env.pages hmaps) fun _ => ?_
  intro s hs
  refine Triple.bind (userOnly_loadPhdrs env.reads (hwrites hs.2)) (fun _ => ?_) s hs.1
  exact Triple.pure fun _ hs => hs

-- a segment outside the user half is reached in a space where all other pages are mapped

/-- What was mapped and stored before still is. -/
def Grew (s s' : Loading) : Prop := s.mapped ⊆ s'.mapped ∧ s.wrote ⊆ s'.wrote

theorem Grew.refl (s : Loading) : Grew s s := ⟨List.Subset.refl _, List.Subset.refl _⟩

def Grows {α : Type} (x : Fallible Loading α) : Prop := ∀ s, Grew s (x.run s).2

theorem grew_bind {α β : Type} (x : Fallible Loading α) {g : α → Fallible Loading β}
    (hg : ∀ a, Grows (g a)) (s : Loading) :
    Grew (x.run s).2 ((x >>= g).run s).2 := by
  rw [bind_run]
  rcases x.run s with ⟨_ | a, s'⟩
  · exact Grew.refl s'
  · exact hg a s'

theorem Grows.bind {α β : Type} {x : Fallible Loading α} {g : α → Fallible Loading β} (hx : Grows x)
    (hg : ∀ a, Grows (g a)) : Grows (x >>= g) := fun s =>
  ⟨List.Subset.trans (hx s).1 (grew_bind x hg s).1, List.Subset.trans (hx s).2 (grew_bind x hg s).2⟩

theorem Grows.each {ε β : Type} {f : ε → β → Fallible Loading Unit} (hf : ∀ e b, Grows (f e b))
    (env : ℕ → ε) (l : List β) :
    Grows (each f env l) := by
  induction l generalizing env with
  | nil => exact fun s => Grew.refl s
  | cons b l ih => exact (hf (env 0) b).bind fun _ => ih fun i => env (i + 1)

theorem grows_mapPage (e : PageEnv) (v : ℕ) : Grows (mapPage e v) := by
  intro s
  rw [mapPage_run]
  split
  · exact Grew.refl s
  · refine ⟨?_, List.Subset.refl _⟩
    dsimp only
    split
    · exact List.subset_cons_self _ _
    · exact List.Subset.refl _

theorem grows_mapPhdr (bias : ℕ) (env : ℕ → PageEnv) (ph : Phdr) : Grows (mapPhdr bias env ph) := by
  unfold mapPhdr
  split
  · exact fun s => Grew.refl s
  split
  · exact fun s => Grew.refl s
  · exact Grows.each grows_mapPage env _

theorem grows_storeByte (a : ℕ) (b : UInt8) : Grows (storeByte a b) := by
  intro s
  rcases hacc : s.w.access a with _ | f
  · rw [storeByte_none hacc]
    exact ⟨List.Subset.refl _, List.subset_cons_self _ _⟩
  · rw [storeByte_some hacc]
    exact ⟨List.Subset.refl _, List.subset_cons_self _ _⟩

theorem grows_storeAll (a : ℕ) (bs : List UInt8) : Grows (storeAll a bs) := by
  induction bs generalizing a with
  | nil => exact fun s => Grew.refl s
  | cons b bs ih => exact (grows_storeByte _ b).bind fun _ => ih (a + 1)

theorem grows_check (c : Bool) : Grows (check c) := by
  cases c
  · exact fun s => Grew.refl s
  · exact fun s => Grew.refl s

theorem grows_loadPhdr (bias : ℕ) (file : List UInt8) (e : ReadAtEnv) (ph : Phdr) :
    Grows (loadPhdr bias file e ph) := by
  unfold loadPhdr
  split
  · exact fun s => Grew.refl s
  · exact (grows_storeAll _ _).bind fun _ => (grows_check _).bind fun _ => grows_storeAll _ _

/-- A page that is mapped is skipped. -/
theorem mapPages_seen {env : ℕ → PageEnv} {l : List ℕ} (hseen : ∀ v ∈ l, (s.w.resolve v).isSome) :
    (each mapPage env l).run s = (some (), s) := by
  induction l generalizing env with
  | nil => rfl
  | cons v l ih =>
    have hv : (mapPage (env 0) v).run s = (some (), s) := by rw [mapPage_run, if_pos (hseen v (List.mem_cons_self ..))]
    unfold Fallible.each
    rw [bind_of_some hv]
    exact ih fun x hx => hseen x (List.mem_cons_of_mem _ hx)

theorem mapPhdrs_seen {env : ℕ → ℕ → PageEnv} (hseen : ∀ ph ∈ phs, ∀ v ∈ ph.segment.pages bias, (s.w.resolve v).isSome)
    (hsize : ∀ ph ∈ phs, ph.Maps → ph.filesz ≤ ph.memsz) : (each (mapPhdr bias) env phs).run s = (some (), s) := by
  induction phs generalizing env with
  | nil => rfl
  | cons ph phs ih =>
    rw [List.forall_mem_cons] at hseen hsize
    have hph : (mapPhdr bias (env 0) ph).run s = (some (), s) := by
      unfold mapPhdr
      split
      · rfl
      rename_i hskip
      rw [not_or, not_not] at hskip
      rw [if_neg (Nat.not_lt.2 (hsize.1 hskip))]
      exact mapPages_seen hseen.1
    unfold Fallible.each
    rw [bind_of_some hph]
    exact ih hseen.2 hsize.2

theorem mapIn_resolve (w : View) (v f : ℕ) : (w.mapIn v f).resolve v = some f := by
  unfold View.mapIn
  split
  · rename_i hown
    unfold View.resolve
    rw [if_pos hown]
    exact update_self ..
  · rename_i hown
    have hsame : ∀ k : ℕ → Option ℕ, ({ w.m with kernel := k } : Frames).own v = w.m.own v := fun _ => rfl
    unfold View.resolve
    dsimp only
    rw [hsame, if_neg hown]
    exact update_self ..

/-- With a free frame a page is mapped, whether or not it is recorded. -/
theorem allocUserPage_resolve (hfree : w.m.allocated e.frame = false) (h0 : e.frame ≠ 0)
    (hmap : e.mapOk = true) (v : ℕ) :
    ((allocUserPage e v).run w).2.resolve v = some e.frame := by
  have halloc : pmmAlloc e.frame w.m = some { w.m with allocated := update w.m.allocated e.frame true } :=
    if_neg (by rw [hfree]; simp [h0])
  have hbytes : ∀ w' : View, ((recorded e v w').2).resolve v = w'.resolve v := by
    intro w'
    unfold recorded
    rcases recordPage_cases e.recOk v e.frame w'.u with ⟨-, hnone⟩ | ⟨blocks, -, hsome⟩
    · rw [hnone]
      rfl
    · rw [hsome]
      rfl
  rw [allocUserPage_some v halloc]
  rw [if_pos hmap, hbytes]
  exact mapIn_resolve _ v e.frame

def UserSeen (w : View) : Prop := ∀ v, (w.resolve v).isSome ↔ page v < USER_PAGES

def oneFrame : PageEnv where
  frame := 1

/-- The first page outside the user half is mapped. -/
theorem high_mapPages (hseen : UserSeen s.w) (hfree : s.w.m.allocated 1 = false) (l : List ℕ) :
    (∀ v ∈ l, page v < USER_PAGES) ∨
      ∃ x ∈ ((each mapPage (fun _ => oneFrame) l).run s).2.mapped, USER_PAGES ≤ page x := by
  induction l with
  | nil => exact Or.inl fun _ hm => by cases hm
  | cons v l ih =>
    unfold Fallible.each
    by_cases hv : page v < USER_PAGES
    · have hrun : (mapPage oneFrame v).run s = (some (), s) := by rw [mapPage_run, if_pos ((hseen v).2 hv)]
      rw [bind_of_some hrun]
      exact ih.imp_left fun hl => List.forall_mem_cons.2 ⟨hv, hl⟩
    · refine Or.inr ⟨v, (grew_bind _ (fun _ => Grows.each grows_mapPage _ l) s).1 ?_, Nat.le_of_not_lt hv⟩
      have hres := allocUserPage_resolve (e := oneFrame) hfree (by decide) rfl v
      rw [mapPage_run, if_neg fun h => hv ((hseen v).1 h)]
      dsimp only
      rw [hres]
      exact List.mem_cons_self ..

theorem high_mapPhdrs (hseen : UserSeen s.w) (hfree : s.w.m.allocated 1 = false) (bias : ℕ) (phs : List Phdr) :
    MapsLow bias phs ∨
      ∃ x ∈ ((each (mapPhdr bias) (fun _ _ => oneFrame) phs).run s).2.mapped, USER_PAGES ≤ page x := by
  induction phs with
  | nil => exact Or.inl trivial
  | cons ph phs ih =>
    have hgrow := (grew_bind (mapPhdr bias (fun _ => oneFrame) ph)
      (fun _ => Grows.each (grows_mapPhdr bias) (fun _ _ => oneFrame) phs) s).1
    by_cases hmaps : ph.Maps
    · by_cases hsize : ph.filesz ≤ ph.memsz
      · have heq : mapPhdr bias (fun _ => oneFrame) ph = each mapPage (fun _ => oneFrame) (ph.segment.pages bias) := by
          unfold mapPhdr
          rw [if_neg (by simp [hmaps.1, hmaps.2]), if_neg (by omega)]
        rw [heq] at hgrow
        rcases high_mapPages hseen hfree (ph.segment.pages bias) with hlow | ⟨x, hx, hhigh⟩
        · unfold Fallible.each
          rw [heq, bind_of_some (mapPages_seen fun v hv => (hseen v).2 (hlow v hv))]
          exact ih.imp_left fun hrest => ⟨fun _ _ => hlow, fun _ => hrest⟩
        · refine Or.inr ⟨x, ?_, hhigh⟩
          unfold Fallible.each
          rw [heq]
          exact hgrow hx
      · exact Or.inl ⟨fun _ h => absurd h hsize, fun h => absurd (h hmaps) hsize⟩
    · have hrun : (mapPhdr bias (fun _ => oneFrame) ph).run s = (some (), s) := by
        unfold mapPhdr
        rw [if_pos (by unfold Phdr.Maps at hmaps; tauto)]
        rfl
      unfold Fallible.each
      rw [bind_of_some hrun]
      exact ih.imp_left fun hrest => ⟨fun h => absurd h hmaps, fun _ => hrest⟩

def AllSeen (w : View) : Prop := ∀ v, (w.resolve v).isSome

theorem AllSeen.access (hseen : AllSeen s.w) (ha : a < 2 ^ 47) : ∃ f, s.w.access a = some f := by
  have hcan : canonical a = true := decide_eq_true (Or.inl ha)
  rw [View.access, if_pos hcan]
  exact Option.isSome_iff_exists.1 (hseen a)

theorem storeAll_low (hseen : AllSeen s.w) (hlow : Low a bs.length) :
    ∃ s', (storeAll a bs).run s = (some (), s') ∧ AllSeen s'.w := by
  induction bs generalizing a s with
  | nil => exact ⟨s, rfl, hseen⟩
  | cons b bs ih =>
    have hend : a + (bs.length + 1) ≤ 2 ^ 47 := hlow.resolve_left (Nat.succ_ne_zero _)
    have hmod : u64 a = a := Nat.mod_eq_of_lt (by omega)
    obtain ⟨f, hf⟩ := hseen.access (show a < 2 ^ 47 by omega)
    unfold storeAll
    rw [hmod, bind_of_some (storeByte_some hf)]
    exact ih (s := { s with w := s.w.setByte f (a % 4096) b, wrote := a :: s.wrote }) hseen (Or.inr (by omega))

/-- The first store outside the user half takes place, or halts the kernel. -/
theorem storeAll_high (hseen : AllSeen s.w) (ha : a < 2 ^ 64) (hhigh : ¬ Low a bs.length) :
    ∃ x ∈ ((storeAll a bs).run s).2.wrote, 2 ^ 47 ≤ x := by
  induction bs generalizing a s with
  | nil => exact absurd (Or.inl rfl) hhigh
  | cons b bs ih =>
    have hmod : u64 a = a := Nat.mod_eq_of_lt ha
    unfold storeAll
    rw [hmod]
    by_cases hlow : a < 2 ^ 47
    · obtain ⟨f, hf⟩ := hseen.access hlow
      rw [bind_of_some (storeByte_some hf)]
      refine ih (s := { s with w := s.w.setByte f (a % 4096) b, wrote := a :: s.wrote }) hseen (by omega) ?_
      unfold Low at *
      rw [List.length_cons] at hhigh
      omega
    · refine ⟨a, (grew_bind _ (fun _ => grows_storeAll (a + 1) bs) s).2 ?_, Nat.le_of_not_lt hlow⟩
      rcases hacc : s.w.access a with _ | f
      · rw [storeByte_none hacc]
        exact List.mem_cons_self ..
      · rw [storeByte_some hacc]
        exact List.mem_cons_self ..

/-- A read that is not taken for a short one, and stores what the user half holds. -/
theorem ret_of_passes (hpass : ph.Passes file) (hlow : Low a (ph.reach file)) :
    ∃ e : ReadAtEnv, Low a (e.stored (ph.read e file)).length ∧ int32 (u32 ph.filesz) ≤ e.ret (ph.read e file) := by
  have hlen := reach_le file ph
  rcases hpass with hbig | hfull
  · refine ⟨{ failed := some 0 }, Or.inl rfl, ?_⟩
    have hlt := u32_lt ph.filesz
    have hret : ∀ all, ({ failed := some 0 } : ReadAtEnv).ret all = -1 := fun _ => rfl
    rw [hret, int32, if_neg (by omega)]
    omega
  · have hread := read_strays_length file ph
    refine ⟨strays (u32 ph.filesz), ?_, ?_⟩
    · change Low a (ph.read (strays (u32 ph.filesz)) file).length
      rwa [hread]
    · have hret : ∀ all, (strays (u32 ph.filesz)).ret all = int32 all.length := fun _ => rfl
      rw [hret, hread, Nat.le_antisymm hlen hfull]

/-- The read of the first segment, and those of the others. -/
def firstRead (e : ReadAtEnv) (env : ℕ → ReadAtEnv) : ℕ → ReadAtEnv
  | 0 => e
  | i + 1 => env i

theorem high_loadPhdrs (hseen : AllSeen s.w) (bias : ℕ) (file : List UInt8) (phs : List Phdr) :
    WritesLow bias file phs ∨
      ∃ env, ∃ x ∈ ((each (loadPhdr bias file) env phs).run s).2.wrote, 2 ^ 47 ≤ x := by
  induction phs generalizing s with
  | nil => exact Or.inl trivial
  | cons ph phs ih =>
    by_cases hloads : ph.Loads
    swap
    · have hrun : ∀ e, (loadPhdr bias file e ph).run s = (some (), s) := by
        intro e
        unfold loadPhdr
        rw [if_pos (by unfold Phdr.Loads at hloads; tauto)]
        rfl
      rcases ih hseen with hrest | ⟨env, x, hx, hhigh⟩
      · exact Or.inl ⟨fun h => absurd h hloads, fun _ => hrest⟩
      · refine Or.inr ⟨firstRead {} env, x, ?_, hhigh⟩
        unfold Fallible.each
        rw [bind_of_some (hrun _)]
        exact hx
    have heq : ∀ e, loadPhdr bias file e ph = (do
        storeAll (ph.start bias) (e.stored (ph.read e file))
        check (int32 (u32 ph.filesz) ≤ e.ret (ph.read e file))
        storeAll (u64 (ph.start bias + ph.filesz)) ph.bss) := by
      intro e
      unfold loadPhdr
      rw [if_neg (by simp [hloads.1, hloads.2])]
    have hgrow : ∀ env, Grew ((loadPhdr bias file (env 0) ph).run s).2
      ((each (loadPhdr bias file) env (ph :: phs)).run s).2 :=
      fun env => grew_bind _ (fun _ => Grows.each (grows_loadPhdr bias file) _ phs) s
    by_cases hdata : Low (ph.start bias) (ph.reach file)
    swap
    · rw [← read_strays_length] at hdata
      obtain ⟨x, hx, hhigh⟩ := storeAll_high hseen (Nat.mod_lt _ (by decide)) hdata
      refine Or.inr ⟨fun _ => strays (u32 ph.filesz), x, (hgrow _).2 ?_, hhigh⟩
      rw [heq]
      exact (grew_bind _ (fun _ => (grows_check _).bind fun _ => grows_storeAll _ _) s).2 hx
    by_cases hpass : ph.Passes file
    swap
    · exact Or.inl ⟨fun _ => ⟨hdata, fun h => absurd h hpass⟩, fun h => absurd (h hloads) hpass⟩
    obtain ⟨e, hlow, hret⟩ := ret_of_passes hpass hdata
    obtain ⟨s₁, hrun₁, hseen₁⟩ := storeAll_low hseen hlow
    have hcheck : (check (int32 (u32 ph.filesz) ≤ e.ret (ph.read e file)) :
      Fallible Loading Unit).run s₁ = (some (), s₁) := by
      rw [decide_eq_true hret]
      rfl
    have hrun : (loadPhdr bias file e ph).run s = (storeAll (u64 (ph.start bias + ph.filesz)) ph.bss).run s₁ := by
      rw [heq, bind_of_some hrun₁, bind_of_some hcheck]
    by_cases hbss : Low (u64 (ph.start bias + ph.filesz)) ph.bss.length
    · obtain ⟨s₂, hrun₂, hseen₂⟩ := storeAll_low hseen₁ hbss
      rcases ih hseen₂ with hrest | ⟨env, x, hx, hhigh⟩
      · exact Or.inl ⟨fun _ => ⟨hdata, fun _ => hbss⟩, fun _ => hrest⟩
      · refine Or.inr ⟨firstRead e env, x, ?_, hhigh⟩
        unfold Fallible.each firstRead
        rw [bind_of_some (hrun.trans hrun₂)]
        exact hx
    · obtain ⟨x, hx, hhigh⟩ := storeAll_high hseen₁ (Nat.mod_lt _ (by decide)) hbss
      refine Or.inr ⟨fun _ => e, x, (hgrow _).2 ?_, hhigh⟩
      rw [hrun]
      exact hx

def userSpace : View where
  u := { pd := fun p => if p < USER_PAGES then some 0 else none }
  m := { allocated := fun _ => false, bytes := fun _ _ => 0, shared := fun _ => false, kernel := fun _ => none }

/-- A space in which everything is mapped. -/
def fullSpace : View where
  u := { pd := fun _ => some 0 }
  m := { allocated := fun _ => true, bytes := fun _ _ => 0, shared := fun _ => true, kernel := fun _ => some 0 }

theorem userSpace_seen : UserSeen userSpace := by
  intro v
  have hown : userSpace.m.own v = true := by simp [userSpace, Frames.own]
  rw [View.resolve, if_pos hown]
  change (if page v < USER_PAGES then some 0 else none).isSome = true ↔ _
  split <;> simp_all

theorem fullSpace_seen : AllSeen fullSpace := by
  intro v
  unfold View.resolve
  split <;> rfl

theorem findInterp_of_ok {interp : List UInt8} (hok : ∀ ph ∈ phs, ph.InterpOk file) :
    ∃ env path, findInterp env file interp phs = some path := by
  induction phs generalizing interp with
  | nil => exact ⟨fun _ => {}, interp, rfl⟩
  | cons ph phs ih =>
    rw [List.forall_mem_cons] at hok
    by_cases hinterp : ph.type = PT_INTERP
    · obtain ⟨hpos, hlt, hfull⟩ := hok.1 hinterp
      have hlen := reach_le file ph
      have hread : readInterp (strays (u32 ph.filesz)) file ph = some (ph.read (strays (u32 ph.filesz)) file) := by
        have hret : ¬ (strays (u32 ph.filesz)).ret (ph.read (strays (u32 ph.filesz)) file) < u32 ph.filesz := by
          have hret : ∀ all, (strays (u32 ph.filesz)).ret all = int32 all.length := fun _ => rfl
          unfold INTERP_SIZE at hlt
          rw [hret, read_strays_length, int32_of_lt (by omega)]
          omega
        unfold readInterp
        dsimp only
        rw [if_neg (by omega)]
        exact if_neg hret
      obtain ⟨env, path, hfind⟩ := @ih (ph.read (strays (u32 ph.filesz)) file) hok.2
      refine ⟨firstRead (strays (u32 ph.filesz)) env, path, ?_⟩
      unfold findInterp firstRead
      rw [if_pos hinterp, hread]
      exact hfind
    · obtain ⟨env, path, hfind⟩ := @ih interp hok.2
      refine ⟨firstRead {} env, path, ?_⟩
      unfold findInterp firstRead
      rw [if_neg hinterp]
      exact hfind

/-- Segments outside the user half are mapped or loaded there. -/
theorem low_of_userOnly (hkept : ∀ env start, UserOnly start ((mapHeaders dynBase env file h).run { w := start }).2) :
    h.Low dynBase file := by
  intro hmin hinterp
  obtain ⟨interp, path, hpath⟩ := @findInterp_of_ok h.phdrs file [] hinterp
  have heq : ∀ env : MapEnv, env.interp = interp → mapHeaders dynBase env file h = (do
      each (mapPhdr (h.bias dynBase)) env.pages h.phdrs
      each (loadPhdr (h.bias dynBase) file) env.reads h.phdrs
      pure (h.info dynBase path)) := by
    intro env henv
    unfold mapHeaders
    rw [if_neg hmin, henv, hpath]
  have hgrow : ∀ env : MapEnv, Grows (each (loadPhdr (h.bias dynBase) file) env.reads h.phdrs) :=
    fun env => Grows.each (grows_loadPhdr _ _) _ _
  have hpure : ∀ i : ElfInfo, Grows (pure i : Fallible Loading ElfInfo) := fun _ s => Grew.refl s
  constructor
  · rcases high_mapPhdrs (s := { w := userSpace }) userSpace_seen rfl (h.bias dynBase)
      h.phdrs with hlow | ⟨x, hx, hhigh⟩
    · exact hlow
    · let env : MapEnv := { interp := interp, pages := fun _ _ => oneFrame }
      have hx' := (grew_bind _ (fun _ => (hgrow env).bind fun _ => hpure (h.info dynBase path)) _).1 hx
      have huser := (hkept env userSpace).pages x
      rw [heq env rfl] at huser
      exact absurd (huser hx') (Nat.not_lt.2 hhigh)
  · intro hsize
    rcases high_loadPhdrs (s := { w := fullSpace }) fullSpace_seen (h.bias dynBase) file h.phdrs with
      hlow | ⟨reads, x, hx, hhigh⟩
    · exact hlow
    · let env : MapEnv := { interp := interp, reads := reads }
      have hmap : (each (mapPhdr (h.bias dynBase)) env.pages h.phdrs).run { w := fullSpace } =
        (some (), { w := fullSpace }) :=
        mapPhdrs_seen (fun _ _ v _ => fullSpace_seen v) hsize
      have huser := (hkept env fullSpace).bytes x
      rw [heq env rfl, bind_of_some hmap] at huser
      have hx' := (grew_bind _ (fun _ => hpure (h.info dynBase path)) _).2 hx
      exact absurd (huser hx') (Nat.not_lt.2 hhigh)

/-- A program of one segment at the lowest address of the kernel's half: no memory, so that its
pages are not mapped and its size is not checked, and one byte of the file, the header's first. -/
def kernelWriter : List UInt8 :=
  [0x7f, 0x45, 0x4c, 0x46, 2, 1, 1, 0, 0, 0, 0, 0, 0, 0, 0, 0, 2, 0, 62, 0, 1, 0, 0, 0,
    0, 0, 0x40, 0, 0, 0, 0, 0, 64, 0, 0, 0, 0, 0, 0, 0, 0, 0, 0, 0, 0, 0, 0, 0,
    0, 0, 0, 0, 64, 0, 56, 0, 1, 0, 0, 0, 0, 0, 0, 0,
    1, 0, 0, 0, 6, 0, 0, 0, 0, 0, 0, 0, 0, 0, 0, 0, 0, 0, 0, 0, 0, 0x80, 0xff, 0xff,
    0, 0, 0, 0, 0, 0, 0, 0, 1, 0, 0, 0, 0, 0, 0, 0, 0, 0, 0, 0, 0, 0, 0, 0, 0, 0x10, 0, 0, 0, 0, 0, 0]

end ComputerOS.Loader
