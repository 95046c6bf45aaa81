import ComputerOS.Loader.Fresh
import ComputerOS.Loader.KernelHalf
import Mathlib.Data.List.DropRight
import Mathlib.Data.List.Induction

/-!
What `elf_map` makes of a well-formed image. While pages are mapped they hold zeros and no two share
a frame; from then on the bytes of the image are a function on addresses, which every store changes
at its own address only. The segments do not overlap, so that the function ends as the file says.
-/
namespace ComputerOS.Loader

open Function Fallible

variable {all : List ℕ} {s s' : Loading} {e : PageEnv} {v a bias dynBase : ℕ} {b : UInt8}
    {bs file : List UInt8} {c : Mem}
  {ph : Phdr} {phs : List Phdr} {w : View}

theorem page_of_low (ha : a < 2 ^ 47) : page a = a / 4096 ∧ page a < USER_PAGES := by
  unfold page USER_PAGES
  omega

/-- An address lies in the page that it is rounded down to. -/
theorem page_floor (ha : a < 2 ^ 47) : page (a / 4096 * 4096) = page a := by
  rw [(page_of_low (show a / 4096 * 4096 < 2 ^ 47 by omega)).1, (page_of_low ha).1]
  omega

/-- The pages hold zeros, and have frames of their own. -/
structure Zeros (pages : List ℕ) (w : View) : Prop where
  zero : ∀ v ∈ pages, Zeroed w v
  inj : ∀ v ∈ pages, ∀ x ∈ pages, w.u.pd (page v) = w.u.pd (page x) → v = x

theorem zeros_nil (w : View) : Zeros [] w := ⟨fun _ h => (by cases h), fun _ h => (by cases h)⟩

theorem Zeros.alloc {pages : List ℕ} {w' : View} (hz : Zeros pages w) (hv : page v < USER_PAGES)
    (hnew : ∀ x ∈ pages, page x ≠ page v) (hrun : (allocUserPage e v).run w = (some (), w')) :
    Zeros (v :: pages) w' ∧ (∃ f, w'.u.pd (page v) = some f) ∧ ∀ p, p ≠ page v → w'.u.pd p = w.u.pd p := by
  have hp := placed_alloc e v w
  rw [hrun] at hp
  have hzero : ∀ x, (page x ≠ page v → Zeroed w x) → Zeroed w' x := fun x => hp.zeroed rfl hv
  have hpd : ∀ p, p ≠ page v → w'.u.pd p = w.u.pd p := fun p hne => hp.pd hne
  obtain ⟨f, hf, hfree⟩ : ∃ f, w'.u.pd (page v) = some f ∧ w.m.allocated f = false := by
    cases hp with
    | done blocks hfree h0 hrec =>
      refine ⟨e.frame, ?_, hfree⟩
      rw [View.place, mapIn_user w e.frame hv]
      exact update_self ..
  have hframe : ∀ x ∈ pages, w'.u.pd (page x) ≠ some f := by
    intro x hx heq
    obtain ⟨g, hg, hlive, -⟩ := hz.zero x hx
    rw [hpd _ (hnew x hx), hg] at heq
    cases heq
    rw [hfree] at hlive
    cases hlive
  refine ⟨⟨?_, fun x hx y hy heq => ?_⟩, ⟨f, hf⟩, hpd⟩
  · exact List.forall_mem_cons.2 ⟨hzero v fun h => absurd rfl h, fun x hx => hzero x fun _ => hz.zero x hx⟩
  · rcases List.mem_cons.1 hx with rfl | hx'
    · rcases List.mem_cons.1 hy with rfl | hy'
      · rfl
      · exact absurd (heq.symm.trans hf) (hframe y hy')
    · rcases List.mem_cons.1 hy with rfl | hy'
      · exact absurd (heq.trans hf) (hframe x hx')
      · rw [hpd _ (hnew x hx'), hpd _ (hnew y hy')] at heq
        exact hz.inj x hx' y hy' heq

def UserPages (all : List ℕ) : Prop := ∀ v ∈ all, v < 2 ^ 47 ∧ v % 4096 = 0

/-- Of the pages `all`, those mapped so far hold zeros; the others are not mapped. -/
structure ZeroPages (all : List ℕ) (s : Loading) : Prop where
  sub : ∀ v ∈ s.mapped, v ∈ all
  nodup : s.mapped.Nodup
  todo : ∀ v ∈ all, v ∉ s.mapped → s.w.u.pd (page v) = none
  zeros : Zeros s.mapped s.w

theorem UserPages.page_inj (huser : UserPages all) {x : ℕ} (hv : v ∈ all) (hx : x ∈ all)
    (h : page v = page x) : v = x := by
  obtain ⟨hlt, hmod⟩ := huser v hv
  obtain ⟨hlt', hmod'⟩ := huser x hx
  rw [(page_of_low hlt).1, (page_of_low hlt').1] at h
  omega

theorem ZeroPages.mapPage (hm : ZeroPages all s) (huser : UserPages all) (hv : v ∈ all)
    (hrun : (mapPage e v).run s = (some (), s')) : ZeroPages all s' ∧ v ∈ s'.mapped := by
  have hpage := (page_of_low (huser v hv).1).2
  rw [mapPage_run] at hrun
  split at hrun
  · rename_i hseen
    cases hrun
    refine ⟨hm, by_contra fun hno => ?_⟩
    rw [resolve_user s.w hpage, hm.todo v hv hno] at hseen
    cases hseen
  rename_i hnew
  have hnot : v ∉ s.mapped := by
    intro hmem
    obtain ⟨f, hf, -⟩ := hm.zeros.zero v hmem
    rw [resolve_user s.w hpage, hf] at hnew
    exact hnew rfl
  have hother : ∀ x ∈ all, x ≠ v → page x ≠ page v := fun x hx hne heq => hne (huser.page_inj hx hv heq)
  obtain ⟨hok, rfl⟩ := Prod.mk.inj hrun
  obtain ⟨hzeros, ⟨f, hf⟩, hpd⟩ := hm.zeros.alloc hpage (fun x hx => hother x (hm.sub x hx) fun heq => hnot (heq ▸ hx))
    (Prod.ext hok rfl)
  have hmapped : (((allocUserPage e v).run s.w).2.resolve v).isSome := by
    rw [resolve_user _ hpage, hf]
    rfl
  rw [if_pos hmapped]
  refine ⟨⟨List.forall_mem_cons.2 ⟨hv, hm.sub⟩, List.nodup_cons.2 ⟨hnot, hm.nodup⟩, fun x hx hno =>
    ?_, hzeros⟩, List.mem_cons_self ..⟩
  rw [List.mem_cons, not_or] at hno
  exact (hpd _ (hother x hx hno.1)).trans (hm.todo x hx hno.2)

theorem ZeroPages.mapPages (hm : ZeroPages all s) (huser : UserPages all) {l : List ℕ} (hl : ∀ v ∈ l, v ∈ all)
    {env : ℕ → PageEnv} (hrun : (each Loader.mapPage env l).run s = (some (), s')) :
    ZeroPages all s' ∧ ∀ v ∈ l, v ∈ s'.mapped := by
  induction l generalizing env s with
  | nil =>
    cases hrun
    exact ⟨hm, fun _ hx => by cases hx⟩
  | cons v l ih =>
    rw [List.forall_mem_cons] at hl
    obtain ⟨⟨⟩, s₁, hrun₁, hrest⟩ := bind_eq_some hrun
    obtain ⟨hm₁, hv⟩ := hm.mapPage huser hl.1 hrun₁
    obtain ⟨hm', hl'⟩ := ih hm₁ hl.2 hrest
    have hgrow := (Grows.each grows_mapPage (fun i => env (i + 1)) l s₁).1
    rw [hrest] at hgrow
    exact ⟨hm', List.forall_mem_cons.2 ⟨hgrow hv, hl'⟩⟩

/-- The mapping loop maps the pages of every segment. -/
theorem ZeroPages.mapPhdrs (hm : ZeroPages all s) (huser : UserPages all)
    (hl : ∀ ph ∈ phs, ph.Maps → ∀ v ∈ ph.segment.pages bias, v ∈ all) {env : ℕ → ℕ → PageEnv}
    (hrun : (each (mapPhdr bias) env phs).run s = (some (), s')) :
    ZeroPages all s' ∧ ∀ ph ∈ phs, ph.Maps → ∀ v ∈ ph.segment.pages bias, v ∈ s'.mapped := by
  induction phs generalizing env s with
  | nil =>
    cases hrun
    exact ⟨hm, fun _ hx => by cases hx⟩
  | cons ph phs ih =>
    rw [List.forall_mem_cons] at hl
    obtain ⟨⟨⟩, s₁, hrun₁, hrest⟩ := bind_eq_some hrun
    obtain ⟨hm₁, hpages⟩ : ZeroPages all s₁ ∧ (ph.Maps → ∀ v ∈ ph.segment.pages bias, v ∈ s₁.mapped) := by
      unfold mapPhdr at hrun₁
      split at hrun₁
      · rename_i hskip
        cases hrun₁
        exact ⟨hm, fun h => absurd hskip (by simp [h.1, h.2])⟩
      rename_i hskip
      rw [not_or, not_not] at hskip
      split at hrun₁
      · cases hrun₁
      obtain ⟨hm₁, hin⟩ := hm.mapPages huser (hl.1 hskip) hrun₁
      exact ⟨hm₁, fun _ => hin⟩
    obtain ⟨hm', hphs⟩ := ih hm₁ hl.2 hrest
    have hgrow := (Grows.each (grows_mapPhdr bias) (fun i => env (i + 1)) phs s₁).1
    rw [hrest] at hgrow
    exact ⟨hm', List.forall_mem_cons.2 ⟨fun h v hv => hgrow (hpages h v hv), hphs⟩⟩

/-- The pages have frames of their own, and `c` is what they hold. -/
structure Content (pages : List ℕ) (c : Mem) (w : View) : Prop where
  inj : ∀ v ∈ pages, ∀ x ∈ pages, w.u.pd (page v) = w.u.pd (page x) → v = x
  bytes : ∀ x < 2 ^ 47, x / 4096 * 4096 ∈ pages → w.load x = some (c x)

theorem access_low (w : View) (ha : a < 2 ^ 47) : w.access a = w.u.pd (page a) := by
  have hcan : canonical a = true := decide_eq_true (Or.inl ha)
  rw [View.access, if_pos hcan, resolve_user w (page_of_low ha).2]

theorem Zeros.content {pages : List ℕ} (hz : Zeros pages w) : Content pages (fun _ => 0) w where
  inj := hz.inj
  bytes x hx hin := by
    obtain ⟨f, hf, -, hbytes⟩ := hz.zero _ hin
    rw [page_floor hx] at hf
    rw [View.load, access_low _ hx, hf, Option.map_some, hbytes]

theorem Content.storeByte {pages : List ℕ} (hc : Content pages c s.w) (ha : a < 2 ^ 47) (hin : a / 4096 * 4096 ∈ pages)
    (hrun : (storeByte a b).run s = (some (), s')) :
    Content pages (update c a b) s'.w ∧ s'.mapped = s.mapped := by
  rcases hacc : s.w.access a with _ | f
  · rw [storeByte_none hacc] at hrun
    cases hrun
  rw [storeByte_some hacc] at hrun
  cases hrun
  refine ⟨⟨hc.inj, fun x hx hxin => ?_⟩, rfl⟩
  have hold := hc.bytes x hx hxin
  unfold View.load at hold ⊢
  rw [setByte_access]
  rcases hxacc : s.w.access x with _ | g
  · rw [hxacc] at hold
    cases hold
  rw [hxacc, Option.map_some, Option.some.injEq] at hold
  rw [Option.map_some, setByte_bytes, hold]
  by_cases hxa : x = a
  · have hfg : g = f := by
      rw [hxa, hacc] at hxacc
      exact (Option.some.inj hxacc).symm
    rw [if_pos ⟨hfg, by rw [hxa]⟩, hxa, update_self]
  · rw [update_of_ne hxa, if_neg]
    rintro ⟨rfl, hoff⟩
    rw [access_low _ hx] at hxacc
    rw [access_low _ ha] at hacc
    have hsame := hc.inj _ hxin _ hin (by rw [page_floor hx, page_floor ha, hxacc, hacc])
    omega

/-- Stored bytes stand where they were stored. -/
theorem Content.storeAll {pages : List ℕ} (hc : Content pages c s.w) (ha : a + bs.length ≤ 2 ^ 47)
    (hin : ∀ x, a ≤ x → x < a + bs.length → x / 4096 * 4096 ∈ pages) (hrun : (storeAll a bs).run s = (some (), s')) :
    Content pages (c.put a bs) s'.w ∧ s'.mapped = s.mapped := by
  induction bs generalizing a s c with
  | nil =>
    cases hrun
    have hput : c.put a [] = c := funext fun x => Mem.put_ne c (by simp only [List.length_nil]; omega)
    rw [hput]
    exact ⟨hc, rfl⟩
  | cons b bs ih =>
    rw [List.length_cons] at ha hin
    have hmod : u64 a = a := Nat.mod_eq_of_lt (by omega)
    obtain ⟨⟨⟩, s₁, hrun₁, hrest⟩ := bind_eq_some hrun
    rw [hmod] at hrun₁
    obtain ⟨hc₁, hmapped₁⟩ := hc.storeByte (by omega) (hin a (le_refl _) (by omega)) hrun₁
    obtain ⟨hc', hmapped'⟩ := ih hc₁ (by omega) (fun x hx hlt => hin x (by omega) (by omega)) hrest
    have hput : c.put a (b :: bs) = Mem.put (update c a b) (a + 1) bs := by
      funext x
      unfold Mem.put
      rw [List.length_cons]
      by_cases hxa : x = a
      · rw [if_pos (by omega), if_neg (by omega), hxa, update_self, Nat.sub_self]
        rfl
      · rw [update_of_ne hxa]
        by_cases hx : a + 1 ≤ x ∧ x < a + 1 + bs.length
        · rw [if_pos (by omega), if_pos hx, show x - a = x - (a + 1) + 1 by omega]
          rfl
        · rw [if_neg (by omega), if_neg hx]
    rw [hput]
    exact ⟨hc', hmapped'.trans hmapped₁⟩

/-- Address `x` belongs to the memory of the segment. -/
def Phdr.Holds (bias : ℕ) (ph : Phdr) (x : ℕ) : Prop :=
  ph.type = PT_LOAD ∧ ph.start bias ≤ x ∧ x < ph.start bias + ph.memsz

/-- The sizes of a segment, and its place in the user half. -/
structure Phdr.Fits (bias : ℕ) (ph : Phdr) : Prop where
  filesz : ph.filesz ≤ ph.memsz
  memsz : ph.memsz < 2 ^ 31
  offset : ph.offset < 2 ^ 31
  user : ph.start bias + ph.memsz ≤ 2 ^ 47

structure SegmentLoaded (bias : ℕ) (file : List UInt8) (c : Mem) (ph : Phdr) : Prop where
  inFile : ph.filesz ≠ 0 → ph.offset + ph.filesz ≤ file.length
  data : ∀ i < ph.filesz, c (ph.start bias + i) = file.getD (ph.offset + i) 0
  bss : ∀ i, ph.filesz ≤ i → i < ph.memsz → c (ph.start bias + i) = 0

/-- The pages of a segment are those that its memory begins and ends in, and those between them. -/
theorem mem_pages (hfits : ph.Fits bias) : v ∈ ph.segment.pages bias ↔
    v % 4096 = 0 ∧ ph.start bias / 4096 * 4096 ≤ v ∧ v < ph.start bias + ph.memsz := by
  have huser := hfits.user
  have hstart : (ph.vaddr + bias) % 2 ^ 64 = ph.start bias := rfl
  have hend : pageUp (ph.vaddr + bias + ph.memsz) = (ph.start bias + ph.memsz + 0xFFF) / 0x1000 * 0x1000 := by
    unfold pageUp
    rw [← hstart] at huser ⊢
    omega
  unfold Segment.pages pagesIn Phdr.segment
  dsimp only
  rw [hstart, hend]
  simp only [List.mem_map, List.mem_range]
  constructor
  · rintro ⟨i, hi, rfl⟩
    omega
  · rintro ⟨hmod, hle, hlt⟩
    exact ⟨(v - ph.start bias / 4096 * 4096) / 4096, by omega, by omega⟩

theorem Content.loadPhdr {pages : List ℕ} (hc : Content pages c s.w) (hload : ph.type = PT_LOAD) (hfits : ph.Fits bias)
    (hpages : ph.Maps → ∀ v ∈ ph.segment.pages bias, v ∈ pages) (hzero : ∀ x, ph.Holds bias x → c x = 0)
    (hrun : (loadPhdr bias file {} ph).run s = (some (), s')) :
    ∃ c', Content pages c' s'.w ∧ s'.mapped = s.mapped ∧ SegmentLoaded bias file c' ph ∧
      ∀ x, ¬ ph.Holds bias x → c' x = c x := by
  obtain ⟨hfilesz, hmemsz, hoffset, huser⟩ := hfits
  have hmod : ∀ x, x < 2 ^ 31 → u32 x = x := fun x hx => Nat.mod_eq_of_lt (by omega)
  unfold Loader.loadPhdr at hrun
  split at hrun
  · rename_i hskip
    cases hrun
    have hempty : ph.filesz = 0 := hskip.resolve_left (not_not.2 hload)
    refine ⟨c, hc, rfl, ⟨fun h => absurd hempty h, fun i hi => absurd hi (by omega), fun i _ hi => ?_⟩, fun _ _ => rfl⟩
    exact hzero _ ⟨hload, by omega, by omega⟩
  rename_i hskip
  rw [not_or, not_not] at hskip
  obtain ⟨⟨⟩, s₁, hrun₁, hrest⟩ := bind_eq_some hrun
  obtain ⟨⟨⟩, s₂, hrun₂, hrun₃⟩ := bind_eq_some hrest
  have hret : int32 (u32 ph.filesz) ≤ ({} : ReadAtEnv).ret (ph.read {} file) ∧ s₂ = s₁ := by
    unfold check at hrun₂
    split at hrun₂
    · rename_i hret
      cases hrun₂
      exact ⟨of_decide_eq_true hret, rfl⟩
    · cases hrun₂
  obtain ⟨hret, rfl⟩ := hret
  have hfull : ph.filesz ≤ (ph.data file).length := by
    have h := passes_of_ret hret
    have hno : ¬ Wraps (u32 ph.offset) (u32 ph.filesz) := by
      rw [hmod _ hoffset, hmod _ (by omega)]
      unfold Wraps
      omega
    unfold Phdr.Passes Phdr.reach at h
    rw [if_neg hno, hmod _ (by omega)] at h
    omega
  have hdata : ph.data file = (file.drop ph.offset).take ph.filesz := by
    rw [Phdr.data, fileRange, hmod _ hoffset, hmod _ (by omega)]
  rw [hdata, List.length_take, List.length_drop] at hfull
  have hlen : (ph.data file).length = ph.filesz := by
    rw [hdata, List.length_take, List.length_drop]
    omega
  have hin : ∀ x, ph.start bias ≤ x → x < ph.start bias + ph.memsz → x / 4096 * 4096 ∈ pages := by
    intro x hle hlt
    refine hpages ⟨hload, by omega⟩ _ ((mem_pages ⟨hfilesz, hmemsz, hoffset, huser⟩).2 ?_)
    omega
  have hbytes : ∀ i < ph.filesz, (ph.data file).getD i 0 = file.getD (ph.offset + i) 0 := by
    intro i hi
    rw [hdata, List.getD_eq_getElem?_getD, List.getElem?_take_of_lt hi, List.getElem?_drop, List.getD_eq_getElem?_getD]
  have hstored : ({} : ReadAtEnv).stored (ph.read {} file) = ph.data file := source_of_none rfl file _ _
  rw [hstored] at hrun₁
  have hbss : ph.bss.length = ph.memsz - ph.filesz ∧ ∀ i, ph.bss.getD i 0 = 0 := by
    unfold Phdr.bss
    split
    · rw [hmod _ (by omega)]
      refine ⟨List.length_replicate, fun i => ?_⟩
      rw [List.getD_eq_getElem?_getD, List.getElem?_replicate]
      split <;> rfl
    · exact ⟨by simp only [List.length_nil]; omega, fun i => rfl⟩
  have hend : u64 (ph.start bias + ph.filesz) = ph.start bias + ph.filesz := Nat.mod_eq_of_lt (by omega)
  rw [hend] at hrun₃
  obtain ⟨hc₁, hmapped₁⟩ := hc.storeAll (by omega) (fun x hle hlt => hin x hle (by omega)) hrun₁
  obtain ⟨hc', hmapped'⟩ := hc₁.storeAll (by omega) (fun x hle hlt => hin x (by omega) (by omega)) hrun₃
  refine ⟨_, hc', hmapped'.trans hmapped₁, ⟨fun _ => by omega, fun i hi => ?_, fun i hle hlt => ?_⟩, fun x hx => ?_⟩
  · rw [Mem.put_ne _ (by omega), Mem.put_at _ (by omega), hbytes i hi]
  · rw [show ph.start bias + i = ph.start bias + ph.filesz + (i - ph.filesz) by omega, Mem.put_at _ (by omega)]
    exact hbss.2 _
  · have hout : x < ph.start bias ∨ ph.start bias + ph.memsz ≤ x := by
      unfold Phdr.Holds at hx
      omega
    rw [Mem.put_ne _ (by omega), Mem.put_ne _ (by omega)]

/-- The segments do not overlap. -/
def Apart (bias : ℕ) (p q : Phdr) : Prop := ∀ x, ¬ (p.Holds bias x ∧ q.Holds bias x)

/-- The loading loop stores every segment, and nothing beside them. -/
theorem Content.loadPhdrs {pages : List ℕ} (hc : Content pages c s.w)
    (hfits : ∀ ph ∈ phs, ph.type = PT_LOAD → ph.Fits bias)
    (hpages : ∀ ph ∈ phs, ph.Maps → ∀ v ∈ ph.segment.pages bias, v ∈ pages) (happart : phs.Pairwise (Apart bias))
    (hzero : ∀ ph ∈ phs, ∀ x, ph.Holds bias x → c x = 0)
    {env : ℕ → ReadAtEnv} (henv : ∀ i, env i = {})
    (hrun : (each (Loader.loadPhdr bias file) env phs).run s = (some (), s')) :
    ∃ c', Content pages c' s'.w ∧ s'.mapped = s.mapped ∧
      (∀ ph ∈ phs, ph.type = PT_LOAD → SegmentLoaded bias file c' ph) ∧
      ∀ x, (∀ ph ∈ phs, ¬ ph.Holds bias x) → c' x = c x := by
  induction phs generalizing env s c with
  | nil =>
    cases hrun
    exact ⟨c, hc, rfl, fun _ hx => (by cases hx), fun _ _ => rfl⟩
  | cons ph phs ih =>
    rw [List.forall_mem_cons] at hfits hpages hzero
    obtain ⟨hone, hrest⟩ := List.pairwise_cons.1 happart
    obtain ⟨⟨⟩, s₁, hrun₁, hrun₂⟩ := bind_eq_some hrun
    rw [henv 0] at hrun₁
    obtain ⟨c₁, hc₁, hmapped₁, hloaded₁, hframe₁⟩ : ∃ c₁, Content pages c₁ s₁.w ∧ s₁.mapped = s.mapped ∧
        (ph.type = PT_LOAD → SegmentLoaded bias file c₁ ph) ∧ ∀ x, ¬ ph.Holds bias x → c₁ x = c x := by
      by_cases hload : ph.type = PT_LOAD
      · obtain ⟨c₁, hc₁, hmapped₁, hloaded₁, hframe₁⟩ :=
          hc.loadPhdr hload (hfits.1 hload) hpages.1 hzero.1 hrun₁
        exact ⟨c₁, hc₁, hmapped₁, fun _ => hloaded₁, hframe₁⟩
      · unfold Loader.loadPhdr at hrun₁
        rw [if_pos (Or.inl hload)] at hrun₁
        cases hrun₁
        exact ⟨c, hc, rfl, fun h => absurd h hload, fun _ _ => rfl⟩
    have hzero₁ : ∀ q ∈ phs, ∀ x, q.Holds bias x → c₁ x = 0 := by
      intro q hq x hx
      rw [hframe₁ x fun h => hone q hq x ⟨h, hx⟩]
      exact hzero.2 q hq x hx
    obtain ⟨c', hc', hmapped', hloaded', hframe'⟩ :=
      ih hc₁ hfits.2 hpages.2 hrest hzero₁ (fun i => henv (i + 1)) hrun₂
    refine ⟨c', hc', hmapped'.trans hmapped₁, List.forall_mem_cons.2 ⟨fun hload => ?_, hloaded'⟩, fun x hx => ?_⟩
    · have hloaded := hloaded₁ hload
      have hsame : ∀ i < ph.memsz, c' (ph.start bias + i) = c₁ (ph.start bias + i) := by
        intro i hi
        refine hframe' _ fun q hq h => hone q hq _ ⟨⟨hload, by omega, by omega⟩, h⟩
      have hle := (hfits.1 hload).filesz
      refine ⟨hloaded.inFile, fun i hi => ?_, fun i hle' hi => ?_⟩
      · rw [hsame i (by omega)]
        exact hloaded.data i hi
      · rw [hsame i hi]
        exact hloaded.bss i hle' hi
    · rw [List.forall_mem_cons] at hx
      rw [hframe' x hx.2, hframe₁ x hx.1]

/-- Where the headers lie when this segment holds them. -/
def Phdr.headersAt (phoff : ℕ) (ph : Phdr) : Option ℕ :=
  if ph.type = PT_LOAD ∧ ph.offset ≤ phoff ∧ phoff < u64 (ph.offset + ph.filesz) then
    some (u64 (ph.vaddr + (phoff - ph.offset)))
  else none

/-- The address that the headers give for themselves: the last `PT_PHDR` counts, else the first
segment that holds them. -/
def phdrAddress (phoff : ℕ) (phs : List Phdr) : Option ℕ :=
  phs.foldl (fun o ph => if ph.type = PT_PHDR then some ph.vaddr else o <|> ph.headersAt phoff) none

def behindPhdr (phs : List Phdr) : List Phdr := phs.rtakeWhile fun ph => ph.type ≠ PT_PHDR

theorem findPhdrs_eq (phoff v : ℕ) (ph : Phdr) : findPhdrs phoff v ph =
    if ph.type = PT_PHDR then ph.vaddr else if v = 0 then (ph.headersAt phoff).getD 0 else v := by
  unfold findPhdrs Phdr.headersAt
  by_cases hphdr : ph.type = PT_PHDR
  · have hload : ph.type ≠ PT_LOAD := by
      rw [hphdr]
      decide
    simp [hphdr, PT_PHDR, PT_LOAD]
  · by_cases hv : v = 0
    · simp only [hphdr, hv, if_false, if_true, true_and]
      split <;> rfl
    · simp [hphdr, hv]

/-- In the search 0 stands for no address: an address 0 is overlooked, and another segment's is
taken if there is one. -/
theorem findPhdrs_cases (phoff : ℕ) (phs : List Phdr) :
    (phdrAddress phoff phs = none ∧ phs.foldl (findPhdrs phoff) 0 = 0 ∧ ∀ ph ∈ phs, ph.headersAt phoff = none) ∨
    (∃ a, a ≠ 0 ∧ phdrAddress phoff phs = some a ∧ phs.foldl (findPhdrs phoff) 0 = a) ∨
    (phdrAddress phoff phs = some 0 ∧
      (phs.foldl (findPhdrs phoff) 0 = 0 ↔ ∀ ph ∈ behindPhdr phs, ∀ a, ph.headersAt phoff = some a → a = 0)) := by
  induction phs using List.reverseRecOn with
  | nil => exact Or.inl ⟨rfl, rfl, fun _ h => (by cases h)⟩
  | append_singleton phs ph ih =>
    have haddr : phdrAddress phoff (phs ++ [ph]) =
        if ph.type = PT_PHDR then some ph.vaddr else phdrAddress phoff phs <|> ph.headersAt phoff := by
      rw [phdrAddress, List.foldl_append]
      rfl
    rw [haddr, List.foldl_append, List.foldl_cons, List.foldl_nil, findPhdrs_eq]
    by_cases hphdr : ph.type = PT_PHDR
    · rw [if_pos hphdr, if_pos hphdr]
      by_cases hzero : ph.vaddr = 0
      · refine Or.inr (Or.inr ⟨by rw [hzero], ?_⟩)
        rw [behindPhdr, List.rtakeWhile_concat_neg _ _ _ (by simp [hphdr])]
        exact ⟨fun _ _ h => (by cases h), fun _ => hzero⟩
      · exact Or.inr (Or.inl ⟨ph.vaddr, hzero, rfl, rfl⟩)
    rw [if_neg hphdr, if_neg hphdr]
    have hbehind : behindPhdr (phs ++ [ph]) = behindPhdr phs ++ [ph] :=
      List.rtakeWhile_concat_pos _ _ _ (decide_eq_true hphdr)
    rw [hbehind]
    simp only [List.forall_mem_append, List.forall_mem_singleton]
    rcases ih with ⟨hnone, hfold, hall⟩ | ⟨a, ha, hsome, hfold⟩ | ⟨hzero, hfold⟩
    · rw [hnone, hfold, if_pos rfl]
      rcases hat : ph.headersAt phoff with _ | a
      · exact Or.inl ⟨rfl, rfl, hall, rfl⟩
      by_cases ha : a = 0
      · refine Or.inr (Or.inr ⟨by rw [ha]; rfl, fun _ => ⟨fun q hq b hb => ?_, fun b hb => ?_⟩, fun _ => ha⟩)
        · rw [hall q ((List.rtakeWhile_suffix _ phs).subset hq)] at hb
          cases hb
        · exact (Option.some.inj hb).symm.trans ha
      · exact Or.inr (Or.inl ⟨a, ha, rfl, rfl⟩)
    · rw [hsome, hfold, if_neg ha]
      exact Or.inr (Or.inl ⟨a, ha, rfl, rfl⟩)
    · refine Or.inr (Or.inr ⟨by rw [hzero]; rfl, ?_⟩)
      rw [← hfold]
      split
      · rename_i hv
        rcases hat : ph.headersAt phoff with _ | a
        · exact ⟨fun _ => ⟨hv, fun _ h => (by cases h)⟩, fun _ => rfl⟩
        · exact ⟨fun h => ⟨hv, fun b hb => (Option.some.inj hb).symm.trans h⟩, fun h => h.2 a rfl⟩
      · rename_i hv
        exact ⟨fun h => absurd h hv, fun h => absurd h.1 hv⟩

def fileHeaders (file : List UInt8) : Headers where
  eh := fileEhdr file
  buf := fun i => file.getD i 0
  filled := file.length

/-- The headers lie in the file, which is as long as a file can be, and the segments lie in the user
half side by side. -/
structure WellFormed (dynBase : ℕ) (file : List UInt8) : Prop where
  size : file.length < 2 ^ 32
  phnum : 1 ≤ (fileEhdr file).phnum ∧ (fileEhdr file).phnum ≤ MAX_PHDRS
  phentsize : PHDR_SIZE ≤ (fileEhdr file).phentsize
  inside : (fileEhdr file).phoff + (fileEhdr file).phnum * (fileEhdr file).phentsize ≤ file.length
  fits : ∀ ph ∈ (fileHeaders file).phdrs, ph.type = PT_LOAD → ph.Fits ((fileHeaders file).bias dynBase)
  apart : (fileHeaders file).phdrs.Pairwise (Apart ((fileHeaders file).bias dynBase))

/-- No page of the image is mapped. -/
def Unmapped (dynBase : ℕ) (file : List UInt8) (start : View) : Prop :=
  ∀ ph ∈ (fileHeaders file).phdrs, ph.Maps →
  ∀ v ∈ ph.segment.pages ((fileHeaders file).bias dynBase), start.resolve v = none

structure SegmentAt (bias : ℕ) (file : List UInt8) (w : View) (ph : Phdr) : Prop where
  inFile : ph.filesz ≠ 0 → ph.offset + ph.filesz ≤ file.length
  data : ∀ i < ph.filesz, w.load (ph.start bias + i) = some (file.getD (ph.offset + i) 0)
  bss : ∀ i, ph.filesz ≤ i → i < ph.memsz → w.load (ph.start bias + i) = some 0

structure ImageAt (dynBase : ℕ) (file : List UInt8) (s : Loading) : Prop where
  segments : ∀ ph ∈ (fileHeaders file).phdrs, ph.type = PT_LOAD →
    SegmentAt ((fileHeaders file).bias dynBase) file s.w ph
  rest : ∀ x, x / 4096 * 4096 ∈ s.mapped →
    (∀ ph ∈ (fileHeaders file).phdrs, ¬ ph.Holds ((fileHeaders file).bias dynBase) x) →
    s.w.load x = some 0
  once : s.mapped.Nodup
  pages : ∀ v, v ∈ s.mapped ↔ ∃ ph ∈ (fileHeaders file).phdrs, ph.Maps ∧
    v ∈ ph.segment.pages ((fileHeaders file).bias dynBase)

/-- The image in memory, with its entry point and the address of its headers as the file says. -/
structure Faithful (dynBase : ℕ) (file : List UInt8) (info : ElfInfo) (s : Loading) : Prop where
  image : ImageAt dynBase file s
  entry : info.entry = u64 ((fileEhdr file).entry + (fileHeaders file).bias dynBase)
  phdr : info.phdr = match phdrAddress (fileEhdr file).phoff (fileHeaders file).phdrs with
    | some a => u64 (a + (fileHeaders file).bias dynBase)
    | none => 0

/-- The headers do not lie at address 0 of an image that is moved. -/
def PhdrsFound (dynBase : ℕ) (file : List UInt8) : Prop :=
  phdrAddress (fileEhdr file).phoff (fileHeaders file).phdrs = some 0 →
    (fileHeaders file).bias dynBase = 0 ∧
      ∀ ph ∈ behindPhdr (fileHeaders file).phdrs, ∀ a, ph.headersAt (fileEhdr file).phoff = some a → a = 0

variable {e₁ e₂ : ReadEnv} {env : MapEnv} {start : View} {info : ElfInfo} {h : Headers}

theorem readHeaders_buf (hread : readHeaders e₁ e₂ file = some h) {i : ℕ} (hi : i < h.filled) :
    h.buf i = file.getD i 0 := by
  unfold readHeaders at hread
  split at hread
  · cases hread
  split at hread
  · unfold expand at hread
    split at hread
    · cases hread
    split at hread
    · cases hread
    cases hread
    exact if_pos hi
  · cases hread
    exact if_pos hi

theorem WellFormed.headers (hw : WellFormed dynBase file) (hfull : e₁.lost = 0)
    (hread : readHeaders e₁ e₂ file = some h) : h.eh = fileEhdr file ∧ h.phdrs = (fileHeaders file).phdrs := by
  obtain ⟨heh, -, hacc, hfits, hfilled⟩ := readHeaders_eq hread
  rw [heh] at hacc hfits hfilled
  obtain ⟨hsize, ⟨hpos, hmax⟩, hent, hin, -, -⟩ := hw
  refine ⟨heh, ?_⟩
  have hnph : (fileEhdr file).nph = (fileEhdr file).phnum := Nat.min_eq_left hmax
  have hend : (fileEhdr file).phdrsEnd = (fileEhdr file).phoff + (fileEhdr file).phnum * (fileEhdr file).phentsize :=
    Nat.mod_eq_of_lt (by omega)
  have hlast : (fileEhdr file).lastEnd ≤ (fileEhdr file).phdrsEnd := by
    obtain ⟨n, hn⟩ : ∃ n, (fileEhdr file).phnum = n + 1 := ⟨_, (Nat.succ_pred_eq_of_pos hpos).symm⟩
    unfold Ehdr.lastEnd
    rw [hend, hnph, hn, Nat.add_sub_cancel, Nat.add_mul, one_mul]
    omega
  have hcopied : (fileEhdr file).lastEnd ≤ h.filled := by
    rw [hfilled, readSize]
    split
    · rename_i hbig
      unfold Refused at hfits
      rw [not_and_or, not_or, not_or] at hfits
      obtain ⟨-, -, hcount⟩ := hfits.resolve_left (not_not.2 hbig)
      have hu32 : u32 (fileEhdr file).phdrsEnd = (fileEhdr file).phdrsEnd := Nat.mod_eq_of_lt (by omega)
      omega
    · rw [ReadEnv.count, hfull]
      omega
  have hinside := (copied_iff hacc (by omega)).2 hcopied
  unfold Headers.phdrs
  rw [heh]
  refine List.map_congr_left fun i hi => ?_
  have hi := hinside i (List.mem_range.1 hi)
  unfold PHDR_SIZE at hi
  have hfield : ∀ a w, a + w ≤ 56 → h.buf.getLE ((fileEhdr file).phdrOffset i + a) w =
      (fileHeaders file).buf.getLE ((fileEhdr file).phdrOffset i + a) w := by
    intro a w hw
    refine Mem.getLE_congr fun j hj => readHeaders_buf hread ?_
    omega
  have hfirst := hfield 0 4 (by omega)
  rw [Nat.add_zero] at hfirst
  unfold phdrAt
  rw [hfirst, hfield 8 8 (by omega), hfield 16 8 (by omega), hfield 32 8 (by omega), hfield 40 8 (by omega)]
  rfl

theorem WellFormed.userPages (hw : WellFormed dynBase file) :
    UserPages (((fileHeaders file).phdrs.filter fun ph => ph.type = PT_LOAD ∧ ph.memsz ≠ 0).flatMap
      fun ph => ph.segment.pages ((fileHeaders file).bias dynBase)) := by
  intro v hv
  obtain ⟨ph, hph, hv⟩ := List.mem_flatMap.1 hv
  obtain ⟨hph, hmaps⟩ := List.mem_filter.1 hph
  have hfits := hw.fits ph hph (of_decide_eq_true hmaps).1
  have huser := hfits.user
  obtain ⟨hmod, -, hlt⟩ := (mem_pages hfits).1 hv
  omega

/-- An image that was loaded stands in memory as the file says. -/
theorem WellFormed.imageAt (hw : WellFormed dynBase file) (hfresh : Unmapped dynBase file start)
    (hfull : e₁.lost = 0) (hread : ∀ i, env.reads i = {})
    (hrun : (mapFile dynBase e₁ e₂ env file).run { w := start } = (some info, s')) :
    ImageAt dynBase file s' ∧ ∃ interp, info = (fileHeaders file).info dynBase interp := by
  unfold mapFile at hrun
  rcases hheaders : readHeaders e₁ e₂ file with _ | h
  · rw [hheaders] at hrun
    cases hrun
  rw [hheaders] at hrun
  obtain ⟨heh, hphdrs⟩ := hw.headers hfull hheaders
  have hbias : h.bias dynBase = (fileHeaders file).bias dynBase := by
    unfold Headers.bias
    rw [heh, hphdrs]
    rfl
  have hinfo : ∀ interp, h.info dynBase interp = (fileHeaders file).info dynBase interp := by
    intro interp
    unfold Headers.info Headers.phdrVaddr
    rw [hbias, heh, hphdrs]
    rfl
  dsimp only at hrun
  unfold mapHeaders at hrun
  rw [hbias, hphdrs] at hrun
  split at hrun
  · cases hrun
  split at hrun
  · cases hrun
  rename_i interp hinterp
  obtain ⟨⟨⟩, s₁, hmap, hrest⟩ := bind_eq_some hrun
  obtain ⟨⟨⟩, s₂, hload, hpure⟩ := bind_eq_some hrest
  cases hpure
  set bias := (fileHeaders file).bias dynBase with hbiasdef
  set phs := (fileHeaders file).phdrs with hphs
  set all := (phs.filter fun ph => ph.type = PT_LOAD ∧ ph.memsz ≠ 0).flatMap fun ph => ph.segment.pages bias with hall
  have hmem : ∀ v, v ∈ all ↔ ∃ ph ∈ phs, ph.Maps ∧ v ∈ ph.segment.pages bias := by
    intro v
    simp only [hall, Phdr.Maps, List.mem_flatMap, List.mem_filter, decide_eq_true_eq, and_assoc]
  have hstart : ZeroPages all { w := start } := by
    refine ⟨fun _ h => (by cases h), List.nodup_nil, fun v hv _ => ?_, zeros_nil start⟩
    obtain ⟨ph, hph, hmaps, hin⟩ := (hmem v).1 hv
    have hnone := hfresh ph hph hmaps v hin
    rwa [resolve_user start (page_of_low (hw.userPages v hv).1).2] at hnone
  obtain ⟨hzero, hpages⟩ := hstart.mapPhdrs hw.userPages (fun ph hph hm v hv => (hmem v).2 ⟨ph, hph, hm, hv⟩) hmap
  obtain ⟨c, hc, hmapped, hloaded, hframe⟩ :=
    hzero.zeros.content.loadPhdrs hw.fits hpages hw.apart (fun _ _ _ _ => rfl) hread hload
  refine ⟨⟨fun ph hph htype => ?_, fun x hx hnone => ?_, ?_, fun v => ?_⟩, interp, hinfo interp⟩
  · have hfits : ph.Fits bias := hw.fits ph hph htype
    have hseg := hloaded ph hph htype
    have hfilesz := hfits.filesz
    have huser : ph.start bias + ph.memsz ≤ 2 ^ 47 := hfits.user
    have hat : ∀ i < ph.memsz, s'.w.load (ph.start bias + i) = some (c (ph.start bias + i)) := by
      intro i hi
      refine hc.bytes _ (by omega) (hpages ph hph ⟨htype, by omega⟩ _ ((mem_pages hfits).2 ?_))
      omega
    refine ⟨hseg.inFile, fun i hi => ?_, fun i hle hi => ?_⟩
    · rw [hat i (by omega), hseg.data i hi]
    · rw [hat i hi, hseg.bss i hle hi]
  · have hlow : x < 2 ^ 47 := by
      rw [hmapped] at hx
      have := (hw.userPages _ (hzero.sub _ hx)).1
      omega
    rw [hmapped] at hx
    rw [hc.bytes x hlow hx, hframe x hnone]
  · rw [hmapped]
    exact hzero.nodup
  · rw [hmapped, ← hmem]
    refine ⟨hzero.sub v, fun hv => ?_⟩
    obtain ⟨ph, hph, hmaps, hin⟩ := (hmem v).1 hv
    exact hpages ph hph hmaps v hin

theorem bias_lt (h : Headers) (dynBase : ℕ) : h.bias dynBase < 2 ^ 64 := by
  unfold Headers.bias
  split
  · exact Nat.mod_lt _ (by decide)
  · decide

theorem vaddr_lt (hph : ph ∈ h.phdrs) : ph.vaddr < 2 ^ 64 := by
  obtain ⟨i, -, rfl⟩ := List.mem_map.1 hph
  exact Mem.getLE_lt _ _ 8

/-- An address that is found is one. -/
theorem phdrVaddr_lt (phoff : ℕ) (hphs : ∀ ph ∈ phs, ph.vaddr < 2 ^ 64) : phs.foldl (findPhdrs phoff) 0 < 2 ^ 64 := by
  induction phs using List.reverseRecOn with
  | nil => exact Nat.two_pow_pos 64
  | append_singleton phs ph ih =>
    rw [List.foldl_append, List.foldl_cons, List.foldl_nil, findPhdrs_eq]
    rw [List.forall_mem_append] at hphs
    split
    · exact hphs.2 ph (List.mem_singleton.2 rfl)
    split
    · unfold Phdr.headersAt
      split
      · exact Nat.mod_lt _ (by decide)
      · decide
    · exact ih hphs.1

/-- A well-formed image that was loaded is in memory as the file says, its entry point is the
file's, and the address of its headers is, unless that is 0 and the image is moved: 0 stands for
headers that are not in memory. -/
theorem faithful_iff (hw : WellFormed dynBase file) (hfresh : Unmapped dynBase file start)
    (hfull : e₁.lost = 0) (hread : ∀ i, env.reads i = {})
    (hrun : (mapFile dynBase e₁ e₂ env file).run { w := start } = (some info, s')) :
    Faithful dynBase file info s' ↔ PhdrsFound dynBase file := by
  obtain ⟨himage, interp, rfl⟩ := hw.imageAt hfresh hfull hread hrun
  have hbias := bias_lt (fileHeaders file) dynBase
  have hlt := phdrVaddr_lt (fileEhdr file).phoff fun ph (hph : ph ∈ (fileHeaders file).phdrs) => vaddr_lt hph
  have hphdr : ((fileHeaders file).info dynBase interp).phdr =
      if (fileHeaders file).phdrs.foldl (findPhdrs (fileEhdr file).phoff) 0 = 0 then 0
      else u64 ((fileHeaders file).phdrs.foldl (findPhdrs (fileEhdr file).phoff) 0 +
        (fileHeaders file).bias dynBase) := rfl
  have hsplit : Faithful dynBase file ((fileHeaders file).info dynBase interp) s' ↔
      ((fileHeaders file).info dynBase interp).phdr =
      match phdrAddress (fileEhdr file).phoff (fileHeaders file).phdrs with
        | some a => u64 (a + (fileHeaders file).bias dynBase)
        | none => 0 :=
    ⟨fun h => h.phdr, fun h => ⟨himage, rfl, h⟩⟩
  rw [hsplit, hphdr]
  unfold PhdrsFound
  rcases findPhdrs_cases (fileEhdr file).phoff (fileHeaders file).phdrs with
    ⟨haddr, hfold, -⟩ | ⟨a, ha, haddr, hfold⟩ | ⟨haddr, hfold⟩
  · rw [haddr, hfold]
    exact ⟨fun _ h => (by cases h), fun _ => rfl⟩
  · rw [haddr, hfold, if_neg ha]
    exact ⟨fun _ h => absurd (Option.some.inj h) ha, fun _ => rfl⟩
  · rw [haddr, ← hfold]
    dsimp only
    unfold u64
    rw [Nat.zero_add, Nat.mod_eq_of_lt hbias]
    split
    · rename_i hzero
      exact ⟨fun h _ => ⟨h.symm, hzero⟩, fun h => (h rfl).1.symm⟩
    · rename_i hno
      refine ⟨fun h => absurd h ?_, fun h => absurd (h rfl).2 hno⟩
      omega

/-- A position-independent program of one segment, which begins with the program headers: they lie
at address 0 of it. -/
def headersFirst : List UInt8 :=
  [0x7f, 0x45, 0x4c, 0x46, 2, 1, 1, 0, 0, 0, 0, 0, 0, 0, 0, 0, 3, 0, 62, 0, 1, 0, 0, 0,
    0x38, 0, 0, 0, 0, 0, 0, 0, 64, 0, 0, 0, 0, 0, 0, 0, 0, 0, 0, 0, 0, 0, 0, 0,
    0, 0, 0, 0, 64, 0, 56, 0, 1, 0, 0, 0, 0, 0, 0, 0,
    1, 0, 0, 0, 7, 0, 0, 0, 64, 0, 0, 0, 0, 0, 0, 0, 0, 0, 0, 0, 0, 0, 0, 0,
    0, 0, 0, 0, 0, 0, 0, 0, 60, 0, 0, 0, 0, 0, 0, 0, 80, 0, 0, 0, 0, 0, 0, 0, 0, 0x10, 0, 0, 0, 0, 0, 0,
    0xb8, 0x3c, 0x0f, 0x05]

/-- The same program at address 0x400000. -/
def fixedHeaders : List UInt8 := headersFirst.set 16 2 |>.set 82 0x40 |>.set 26 0x40

/-- A new space in a machine with free frames only. -/
def newSpace : View where
  u := {}
  m := freeMachine

def onePageEnv : MapEnv where
  pages _ _ := { frame := 0x100000 }

theorem newSpace_unmapped (dynBase : ℕ) (file : List UInt8) : Unmapped dynBase file newSpace := by
  intro ph _ _ v _
  have hown : newSpace.m.own v = true := by simp [newSpace, freeMachine, Frames.own]
  rw [View.resolve, if_pos hown]
  rfl

theorem wellFormed_of_single {bias : ℕ} (hbias : (fileHeaders file).bias dynBase = bias)
    (hphdrs : (fileHeaders file).phdrs = [ph]) (hfits : ph.Fits bias) (hsize : file.length < 2 ^ 32)
    (hnum : (fileEhdr file).phnum = 1) (hent : (fileEhdr file).phentsize = PHDR_SIZE)
    (hin : (fileEhdr file).phoff + PHDR_SIZE ≤ file.length) : WellFormed dynBase file where
  size := hsize
  phnum := by rw [hnum]; decide
  phentsize := hent.ge
  inside := by rw [hnum, hent, one_mul]; exact hin
  fits := by
    rw [hphdrs, hbias]
    exact List.forall_mem_singleton.2 fun _ => hfits
  apart := by
    rw [hphdrs]
    exact List.pairwise_singleton _ _

theorem fixedHeaders_wellFormed : WellFormed LOADER_PIE_BASE fixedHeaders := by
  have hphdrs : (fileHeaders fixedHeaders).phdrs = [⟨1, 64, 0x400000, 60, 80⟩] := by decide +kernel
  have hbias : (fileHeaders fixedHeaders).bias LOADER_PIE_BASE = 0 := by decide +kernel
  exact wellFormed_of_single hbias hphdrs ⟨by decide, by decide, by decide, by decide⟩
    (by decide +kernel) (by decide +kernel)
    (by decide +kernel) (by decide +kernel)

theorem headersFirst_wellFormed : WellFormed LOADER_PIE_BASE headersFirst := by
  have hphdrs : (fileHeaders headersFirst).phdrs = [⟨1, 64, 0, 60, 80⟩] := by decide +kernel
  have hbias : (fileHeaders headersFirst).bias LOADER_PIE_BASE = LOADER_PIE_BASE := by decide +kernel
  exact wellFormed_of_single hbias hphdrs ⟨by decide, by decide, by decide, by decide⟩
    (by decide +kernel) (by decide +kernel)
    (by decide +kernel) (by decide +kernel)

theorem run_eq_of_fst {r : Option ElfInfo × Loading} (h : r.1 = some info) : r = (some info, r.2) := Prod.ext h rfl

/-- The program at a fixed address is loaded with the address of its headers. -/
theorem fixedHeaders_faithful : ∃ info s',
    (mapFile LOADER_PIE_BASE {} {} onePageEnv fixedHeaders).run { w := newSpace } =
      (some info, s') ∧ Faithful LOADER_PIE_BASE fixedHeaders info s' := by
  have hsome : ((mapFile LOADER_PIE_BASE {} {} onePageEnv fixedHeaders).run
    { w := newSpace }).1.isSome := by decide +kernel
  have hfound : PhdrsFound LOADER_PIE_BASE fixedHeaders := by
    intro h
    revert h
    decide +kernel
  obtain ⟨info, hinfo⟩ := Option.isSome_iff_exists.1 hsome
  have hrun := run_eq_of_fst hinfo
  exact ⟨info, _, hrun, (faithful_iff fixedHeaders_wellFormed (newSpace_unmapped _ _) rfl (fun _ => rfl) hrun).2 hfound⟩

/-- The program that is moved is loaded too, but its headers are said not to be in memory. -/
theorem headersFirst_not_faithful : ¬ ∀ dynBase file e₁ e₂ env start info s',
    WellFormed dynBase file → Unmapped dynBase file start → e₁.lost = 0 → (∀ i, env.reads i = {}) →
    (mapFile dynBase e₁ e₂ env file).run { w := start } = (some info, s') → Faithful dynBase file info s' := by
  intro hall
  have hsome : ((mapFile LOADER_PIE_BASE {} {} onePageEnv headersFirst).run { w := newSpace }).1.map
    ElfInfo.phdr = some 0 := by
    decide +kernel
  obtain ⟨info, hinfo, hphdr⟩ := Option.map_eq_some_iff.1 hsome
  have hfaith := hall LOADER_PIE_BASE headersFirst {} {} onePageEnv newSpace info _ headersFirst_wellFormed
    (newSpace_unmapped _ _) rfl (fun _ => rfl) (run_eq_of_fst hinfo)
  have haddr := hfaith.phdr
  rw [hphdr] at haddr
  revert haddr
  decide +kernel

end ComputerOS.Loader
