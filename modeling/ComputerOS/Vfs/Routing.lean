import ComputerOS.Vfs.Resolve
import Mathlib.Data.List.TakeWhile
import Mathlib.Logic.Relation

/-!
`vfs_resolve` against the list-level normalisation of paths, and `route` against the
whole-component prefixes of the result. The in-place stack of offsets is the stack of names
of the reference at every component.
-/
namespace ComputerOS.Vfs

open ComputerOS.Path

def joined (cwd path : Str) : Str := (if path.head? = some slash then [] else cwd) ++ slash :: path

/-- The stacks of names on the way through the joined input. -/
def nameStacks (cwd path : Str) : List (List Str) :=
  (components slash (joined cwd path)).scanl (push dot) []

/-- What a path denotes; a relative one starts at the working directory. -/
def target (cwd path : Str) : List Str :=
  normalise dot (if path.head? = some slash then [] else components slash cwd)
  (components slash path)

theorem puts_eq (size : ℕ) (buf s : Str) :
    puts size buf s = if s = [] ∨ buf.length + s.length < size then some (buf ++ s) else none := by
  induction s generalizing buf with
  | nil => simp [puts]
  | cons c s ih =>
    have hcons : puts size buf (c :: s) = (putc size buf c).bind fun b => puts size b s := by
      simp only [puts, List.foldlM_cons]
      rfl
    rw [hcons, putc]
    by_cases hfull : size ≤ buf.length + 1
    · rw [if_pos hfull, if_neg (by simp; omega)]
      rfl
    · rw [if_neg hfull, Option.bind_some, ih]
      by_cases hs : s = []
      · subst hs
        rw [if_pos (Or.inl rfl), if_pos (Or.inr (by simp; omega))]
        simp
      · have hlen : (buf ++ [c]).length + s.length = buf.length + (c :: s).length := by
          simp
          omega
        simp only [hs, false_or, hlen, List.append_assoc, List.singleton_append, reduceCtorEq]

theorem joinPath_eq (cwd path : Str) :
    joinPath cwd path = if (joined cwd path).length < 256 then some (joined cwd path) else none := by
  have hroot : ∀ buf : Str, (putc 256 buf slash).bind (fun b => puts 256 b path) =
      if (buf ++ slash :: path).length < 256 then some (buf ++ slash :: path) else none := by
    intro buf
    rw [putc]
    by_cases hfull : 256 ≤ buf.length + 1
    · rw [if_pos hfull, if_neg (by simp; omega)]
      rfl
    · rw [if_neg hfull, Option.bind_some, puts_eq]
      have hcond : path = [] ∨ (buf ++ [slash]).length + path.length < 256 ↔
          (buf ++ slash :: path).length < 256 := by
        simp only [List.length_append, List.length_cons, List.length_nil]
        constructor
        · rintro (rfl | h)
          · simp
            omega
          · omega
        · intro h
          right
          omega
      simp only [hcond, List.append_assoc, List.singleton_append]
  rw [joinPath, joined]
  by_cases hhead : path.head? = some slash
  · rw [if_neg (not_not.mpr hhead), if_pos hhead]
    exact hroot []
  · rw [if_pos hhead, if_neg hhead, puts_eq]
    by_cases hcwd : cwd = [] ∨ ([] : Str).length + cwd.length < 256
    · rw [if_pos hcwd]
      exact hroot cwd
    · rw [if_neg hcwd, if_neg]
      · rfl
      · simp only [List.length_append, List.length_cons, List.length_nil] at *
        omega

theorem scan_eq (outsz : ℕ) {fuel : ℕ} {s : Str} (hf : s.length < fuel) (o : Out) :
    scan outsz fuel s o = (components slash s).foldlM (putComponent outsz) o := by
  induction fuel generalizing s o with
  | zero => omega
  | succ fuel ih =>
    cases s with
    | nil => simp [scan]
    | cons c rest =>
      rw [List.length_cons] at hf
      by_cases hc : c = slash
      · subst hc
        rw [scan, if_pos rfl, components_sep_cons]
        exact ih (by omega) o
      · rw [scan, if_neg hc]
        -- the component is what stands before the next separator
        obtain ⟨comp, hcomp⟩ : ∃ comp, (c :: rest).takeWhile (· ≠ slash) = comp := ⟨_, rfl⟩
        obtain ⟨tail, htail⟩ : ∃ tail, (c :: rest).dropWhile (· ≠ slash) = tail := ⟨_, rfl⟩
        have happ : c :: rest = comp ++ tail := by
          rw [← hcomp, ← htail, List.takeWhile_append_dropWhile]
        have hne : comp ≠ [] := by
          rw [← hcomp, List.takeWhile_cons_of_pos (by simpa using hc)]
          simp
        have hnot : slash ∉ comp := by
          intro hmem
          rw [← hcomp] at hmem
          have := List.mem_takeWhile_imp hmem
          simp at this
        have hcomps : components slash (c :: rest) = comp :: components slash (tail.drop 1) := by
          rw [happ]
          cases tail with
          | nil => simpa using components_of_not_mem hne hnot
          | cons d tail =>
            have hd : d = slash := by
              have hhead := List.head?_dropWhile_not (fun x => decide (x ≠ slash)) (c :: rest)
              rw [htail] at hhead
              simpa using hhead
            subst hd
            exact components_append_sep_of_not_mem hne hnot tail
        have hlen : (tail.drop 1).length < fuel := by
          have hsum := congrArg List.length happ
          have hpos := List.length_pos_of_ne_nil hne
          simp only [List.length_cons, List.length_append, List.length_drop] at hsum ⊢
          omega
        rw [hcomp, htail, hcomps, List.foldlM_cons]
        refine congrArg (Option.bind (putComponent outsz o comp)) ?_
        funext o'
        exact ih hlen o'

/-- The output that holds a stack of names. -/
def outOf (stack : List Str) : Out :=
  ⟨Path.text slash stack,
    (List.range stack.length).reverse.map fun k => (Path.text slash (stack.take k)).length⟩

theorem outOf_concat (stack : List Str) (c : Str) :
    outOf (stack ++ [c]) = ⟨(outOf stack).text ++ slash :: c,
      (outOf stack).text.length :: (outOf stack).starts⟩ := by
  have htext : Path.text slash (stack ++ [c]) = Path.text slash stack ++ slash :: c := by
    rw [text_append]
    simp [Path.text]
  have hstarts : ∀ k ∈ (List.range stack.length).reverse,
      (Path.text slash ((stack ++ [c]).take k)).length = (Path.text slash (stack.take k)).length := by
    intro k hk
    have hlt : k < stack.length := by simpa using hk
    rw [List.take_append_of_le_length (by omega)]
  rw [outOf, outOf, htext, List.length_append, List.length_singleton, List.range_succ,
    List.reverse_append, List.reverse_singleton, List.singleton_append, List.map_cons,
    List.map_congr_left hstarts, List.take_left]

/-- Going back to the last offset removes the last name. -/
theorem pop_outOf (stack : List Str) : (outOf stack).pop = outOf stack.dropLast := by
  rcases List.eq_nil_or_concat stack with rfl | ⟨l, c, rfl⟩
  · rfl
  · rw [List.concat_eq_append, outOf_concat, List.dropLast_concat]
    simp only [Out.pop, List.take_left]

def Accepts (outsz : ℕ) (stack : List Str) : Prop :=
  stack.length ≤ 64 ∧ (stack = [] ∨ (Path.text slash stack).length + 1 < outsz)

instance (outsz : ℕ) (stack : List Str) : Decidable (Accepts outsz stack) :=
  inferInstanceAs (Decidable (_ ∧ _))

theorem Accepts.of_prefix {outsz : ℕ} {p q : List Str} (h : Accepts outsz q) (hp : p <+: q) :
    Accepts outsz p := by
  obtain ⟨hlen, htext⟩ := h
  refine ⟨hp.length_le.trans hlen, ?_⟩
  rcases htext with rfl | htext
  · exact Or.inl (List.prefix_nil.mp hp)
  · have := length_text_of_prefix slash hp
    exact Or.inr (by omega)

theorem putComponent_outOf {outsz : ℕ} {stack : List Str} (h : Accepts outsz stack) (c : Str) :
    putComponent outsz (outOf stack) c =
      if Accepts outsz (push dot stack c) then some (outOf (push dot stack c)) else none := by
  rw [putComponent, push]
  by_cases h1 : c = [dot]
  · rw [if_pos h1, if_pos h1, if_pos h]
  by_cases h2 : c = [dot, dot]
  · rw [if_neg h1, if_pos h2, if_neg h1, if_pos h2, if_pos (h.of_prefix stack.dropLast_prefix), pop_outOf]
  rw [if_neg h1, if_neg h2, if_neg h1, if_neg h2, outOf_concat]
  have hdepth : (outOf stack).starts.length = stack.length := by simp [outOf]
  have hlen : (Path.text slash (stack ++ [c])).length = (outOf stack).text.length + 1 + c.length := by
    rw [text_append]
    simp [Path.text, outOf]
    omega
  have hacc : Accepts outsz (stack ++ [c]) ↔
      stack.length < 64 ∧ (outOf stack).text.length + 1 + c.length + 1 < outsz := by
    simp only [Accepts, hlen, List.length_append, List.length_singleton, List.append_eq_nil_iff,
      List.cons_ne_nil, and_false, false_or]
    exact and_congr_left' Nat.lt_iff_add_one_le.symm
  by_cases h3 : 64 ≤ stack.length
  · rw [hdepth, if_pos h3, if_neg]
    rw [hacc]
    omega
  · rw [hdepth, if_neg h3]
    by_cases h4 : outsz ≤ (outOf stack).text.length + 1 + c.length + 1
    · rw [if_pos h4, if_neg]
      rw [hacc]
      omega
    · rw [if_neg h4, if_pos]
      rw [hacc]
      omega

theorem foldlM_putComponent {outsz : ℕ} (cs : List Str) {stack : List Str} (h : Accepts outsz stack) :
    cs.foldlM (putComponent outsz) (outOf stack) =
      if ∀ t ∈ cs.scanl (push dot) stack, Accepts outsz t then some (outOf (normalise dot stack cs))
      else none := by
  induction cs generalizing stack with
  | nil => simp [normalise, h]
  | cons c cs ih =>
    rw [List.foldlM_cons, putComponent_outOf h, List.scanl_cons]
    by_cases hc : Accepts outsz (push dot stack c)
    · rw [if_pos hc]
      change cs.foldlM (putComponent outsz) (outOf (push dot stack c)) = _
      rw [ih hc]
      have hall : (∀ t ∈ stack :: cs.scanl (push dot) (push dot stack c), Accepts outsz t) ↔
          ∀ t ∈ cs.scanl (push dot) (push dot stack c), Accepts outsz t := by
        simp [h]
      simp only [hall]
      rfl
    · rw [if_neg hc, if_neg]
      · rfl
      · intro hall
        apply hc
        apply hall
        cases cs with
        | nil => simp
        | cons d cs => simp

/-- The names left of the joined input. -/
def final (cwd path : Str) : List Str := normalise dot [] (components slash (joined cwd path))

/-- The input fits its buffer and the output accepts every stack. -/
structure Succeeds (cwd path : Str) (outsz : ℕ) : Prop where
  joined : (joined cwd path).length < 256
  accepts : ∀ t ∈ nameStacks cwd path, Accepts outsz t
  root : final cwd path = [] → 2 ≤ outsz

theorem scan_joined (cwd path : Str) (outsz : ℕ) :
    scan outsz ((joined cwd path).length + 1) (joined cwd path) ⟨[], []⟩ =
      if ∀ t ∈ nameStacks cwd path, Accepts outsz t then some (outOf (final cwd path)) else none := by
  have hempty : Accepts outsz [] := ⟨by simp, Or.inl rfl⟩
  rw [scan_eq outsz (Nat.lt_succ_self _)]
  exact foldlM_putComponent _ hempty

theorem vfsResolve_of_succeeds {cwd path : Str} {outsz : ℕ} (h : Succeeds cwd path outsz) :
    vfsResolve cwd path outsz = some (render slash (final cwd path)) := by
  have hscan := scan_joined cwd path outsz
  rw [if_pos h.accepts] at hscan
  have hjoin := joinPath_eq cwd path
  rw [if_pos h.joined] at hjoin
  simp only [vfsResolve, hjoin, hscan, Option.bind_eq_bind, Option.bind_some]
  by_cases hstack : final cwd path = []
  · have htwo := h.root hstack
    have hnil : (outOf (final cwd path)).text = [] := text_eq_nil.mpr hstack
    rw [if_pos hnil, if_neg (by omega), hstack]
    rfl
  · have hne : (outOf (final cwd path)).text ≠ [] := fun h => hstack (text_eq_nil.mp h)
    rw [if_neg hne, render_of_ne_nil hstack]
    rfl

theorem vfsResolve_eq_none {cwd path : Str} {outsz : ℕ} (h : ¬ Succeeds cwd path outsz) :
    vfsResolve cwd path outsz = none := by
  have hscan := scan_joined cwd path outsz
  have hjoin := joinPath_eq cwd path
  by_cases h1 : (joined cwd path).length < 256
  swap
  · rw [if_neg h1] at hjoin
    simp only [vfsResolve, hjoin, Option.bind_eq_bind, Option.bind_none]
  rw [if_pos h1] at hjoin
  by_cases h2 : ∀ t ∈ nameStacks cwd path, Accepts outsz t
  swap
  · rw [if_neg h2] at hscan
    simp only [vfsResolve, hjoin, hscan, Option.bind_eq_bind, Option.bind_some, Option.bind_none]
  rw [if_pos h2] at hscan
  have h3 : final cwd path = [] ∧ outsz < 2 := by
    by_contra hroot
    exact h ⟨h1, h2, fun h0 => by
      by_contra hlt
      exact hroot ⟨h0, by omega⟩⟩
  have hnil : (outOf (final cwd path)).text = [] := text_eq_nil.mpr h3.1
  simp only [vfsResolve, hjoin, hscan, Option.bind_eq_bind, Option.bind_some]
  rw [if_pos hnil, if_pos h3.2]

theorem vfsResolve_eq_some {cwd path out : Str} {outsz : ℕ} (h : vfsResolve cwd path outsz = some out) :
    Succeeds cwd path outsz ∧ out = render slash (final cwd path) := by
  by_cases hs : Succeeds cwd path outsz
  · rw [vfsResolve_of_succeeds hs] at h
    exact ⟨hs, (Option.some.inj h).symm⟩
  · rw [vfsResolve_eq_none hs] at h
    cases h

/-- The joined input denotes what the reference says. -/
theorem final_eq_target {cwd : Str} (hcwd : Normalised slash dot cwd) (path : Str) :
    final cwd path = target cwd path := by
  rw [final, target, joined]
  split_ifs
  · simp
  · obtain ⟨stack, hclean, rfl⟩ := hcwd
    rw [components_append_sep, normalise_append, components_render hclean,
      normalise_of_clean hclean, List.nil_append]

theorem final_clean (cwd path : Str) : Clean slash dot (final cwd path) := by
  refine normalise_clean (fun c hc => ?_) fun c hc => mem_components hc
  cases hc

theorem length_final_le {cwd : Str} (hcwd : Normalised slash dot cwd) (path : Str) :
    (render slash (final cwd path)).length ≤ (joined cwd path).length := by
  have htext : (Path.text slash (final cwd path)).length ≤ (joined cwd path).length := by
    have hnorm := length_text_normalise slash dot [] (components slash (joined cwd path))
    have hpath := length_text_components slash path
    rw [text_nil, List.length_nil, Nat.zero_add] at hnorm
    refine hnorm.trans ?_
    rw [joined]
    split_ifs
    · simpa using hpath
    · obtain ⟨stack, hclean, rfl⟩ := hcwd
      rw [components_append_sep, text_append, components_render hclean]
      have hcwd : (Path.text slash stack).length ≤ (render slash stack).length := by
        rw [render]
        split_ifs with h
        · simp [h]
        · exact le_refl _
      simp only [List.length_append, List.length_cons]
      omega
  by_cases hempty : final cwd path = []
  · rw [hempty, joined]
    simp [render]
    omega
  · rw [render_of_ne_nil hempty]
    exact htext

/-- A normalised path of at most 254 bytes that fits resolves to itself. -/
theorem vfsResolve_render {stack : List Str} (hclean : Clean slash dot stack) {outsz : ℕ}
    (hacc : Accepts outsz stack) (hroot : stack = [] → 2 ≤ outsz)
    (hlen : (render slash stack).length ≤ 254) (cwd : Str) :
    vfsResolve cwd (render slash stack) outsz = some (render slash stack) := by
  have hhead := render_head slash stack
  have hjoined : joined cwd (render slash stack) = slash :: render slash stack := by
    rw [joined, if_pos hhead]
    rfl
  have hcomps : components slash (joined cwd (render slash stack)) = stack := by
    rw [hjoined, components_sep_cons, components_render hclean]
  have hfinal : final cwd (render slash stack) = stack := by
    rw [final, hcomps, normalise_of_clean hclean, List.nil_append]
  have hs : Succeeds cwd (render slash stack) outsz := by
    refine ⟨by rw [hjoined]; simpa using by omega, ?_, by rwa [hfinal]⟩
    intro t ht
    rw [nameStacks, hcomps] at ht
    exact hacc.of_prefix (scanl_isPrefix hclean ht)
  rw [vfsResolve_of_succeeds hs, hfinal]

def WholePrefix (mountPoint path : Str) : Prop := components slash mountPoint <+: components slash path

theorem under_iff {mp path : Str} (hmp : Normalised slash dot mp) (hpath : Normalised slash dot path) :
    under mp path = true ↔ WholePrefix mp path := by
  obtain ⟨p, hp, rfl⟩ := hmp
  obtain ⟨q, hq, rfl⟩ := hpath
  rw [WholePrefix, components_render hp, components_render hq, under]
  by_cases hroot : p = []
  · subst hroot
    simp [render]
  have hne : render slash p ≠ [slash] := by
    intro h
    have hnil := render_inj hp (fun c hc => by cases hc) (h.trans (if_pos rfl).symm)
    exact hroot hnil
  rw [if_neg hne, prefix_iff_text hp hq hroot, render_of_ne_nil hroot]
  constructor
  · intro h
    split_ifs at h with htake
    have happ : render slash q = Path.text slash p ++ (render slash q).drop (Path.text slash p).length := by
      conv_lhs => rw [← List.take_append_drop (Path.text slash p).length (render slash q), not_not.mp htake]
    refine ⟨_, happ, ?_⟩
    cases hdrop : (render slash q).drop (Path.text slash p).length with
    | nil => exact Or.inl rfl
    | cons c r =>
      rw [hdrop] at h
      have hc : c = slash := by simpa using h
      exact Or.inr ⟨r, by rw [hc]⟩
  · rintro ⟨r, heq, hr⟩
    rw [heq, List.take_left, List.drop_left, if_neg (not_not.mpr rfl)]
    rcases hr with rfl | ⟨r, rfl⟩
    · rfl
    · simp

theorem under_take {mp path : Str} (hpath : path.head? = some slash) (h : under mp path = true) :
    path.take mp.length = mp := by
  rw [under] at h
  split_ifs at h with hroot htake
  · subst hroot
    cases path with
    | nil => cases hpath
    | cons c path =>
      obtain rfl : c = slash := by simpa using hpath
      simp
  · exact not_not.mp htake

/-- The mount that the search has found among the slots it has seen. -/
def Best (abspath : Str) (slots : List (Mount × ℕ)) : Option (ℕ × Mount) → Prop
  | none => ∀ x ∈ slots, x.1.inUse = true → under x.1.mountPoint abspath = false
  | some (i, m) => (m, i) ∈ slots ∧ m.inUse = true ∧ under m.mountPoint abspath = true ∧
      ∀ x ∈ slots, x.1.inUse = true → under x.1.mountPoint abspath = true →
        x.1.mountPoint.length ≤ m.mountPoint.length

theorem Best.skip {abspath : Str} {slots : List (Mount × ℕ)} {best : Option (ℕ × Mount)}
    (h : Best abspath slots best) {slot : Mount × ℕ}
    (hskip : slot.1.inUse = true → under slot.1.mountPoint abspath = false) :
    Best abspath (slots ++ [slot]) best := by
  cases best with
  | none =>
    intro x hx hu
    rcases List.mem_append.mp hx with hx | hx
    · exact h x hx hu
    · obtain rfl := List.mem_singleton.mp hx
      exact hskip hu
  | some im =>
    obtain ⟨hmem, hu, hun, hall⟩ := h
    refine ⟨List.mem_append_left _ hmem, hu, hun, fun x hx hxu hxun => ?_⟩
    rcases List.mem_append.mp hx with hx | hx
    · exact hall x hx hxu hxun
    · obtain rfl := List.mem_singleton.mp hx
      rw [hskip hxu] at hxun
      cases hxun

theorem better_best {abspath : Str} {slots : List (Mount × ℕ)} {best : Option (ℕ × Mount)}
    (h : Best abspath slots best) (slot : Mount × ℕ) :
    Best abspath (slots ++ [slot]) (better abspath best slot) := by
  rw [better.eq_def]
  by_cases hu : slot.1.inUse = true
  swap
  · rw [if_pos (by simpa using hu)]
    exact h.skip fun h => absurd h hu
  rw [if_neg (by simp [hu])]
  by_cases hun : under slot.1.mountPoint abspath = true
  swap
  · rw [if_neg hun]
    exact h.skip fun _ => by simpa using hun
  rw [if_pos hun]
  -- the slot is above the path: it wins when its mount point is the longest so far
  have hwins : (∀ x ∈ slots, x.1.inUse = true → under x.1.mountPoint abspath = true →
      x.1.mountPoint.length ≤ slot.1.mountPoint.length) →
      Best abspath (slots ++ [slot]) (some (slot.2, slot.1)) := by
    intro hall
    refine ⟨by simp, hu, hun, fun x hx hxu hxun => ?_⟩
    rcases List.mem_append.mp hx with hx | hx
    · exact hall x hx hxu hxun
    · obtain rfl := List.mem_singleton.mp hx
      exact le_refl _
  cases best with
  | none =>
    refine hwins fun x hx hxu hxun => ?_
    rw [h x hx hxu] at hxun
    cases hxun
  | some im =>
    obtain ⟨i, m⟩ := im
    obtain ⟨hmem, hmu, hmun, hall⟩ := h
    by_cases hlt : m.mountPoint.length < slot.1.mountPoint.length
    · simp only [if_pos hlt]
      exact hwins fun x hx hxu hxun => (hall x hx hxu hxun).trans hlt.le
    · simp only [if_neg hlt]
      refine ⟨List.mem_append_left _ hmem, hmu, hmun, fun x hx hxu hxun => ?_⟩
      rcases List.mem_append.mp hx with hx | hx
      · exact hall x hx hxu hxun
      · obtain rfl := List.mem_singleton.mp hx
        omega

theorem foldl_better_best {abspath : Str} (l : List (Mount × ℕ)) {slots : List (Mount × ℕ)}
    {best : Option (ℕ × Mount)} (h : Best abspath slots best) :
    Best abspath (slots ++ l) (l.foldl (better abspath) best) := by
  induction l generalizing slots best with
  | nil => simpa using h
  | cons slot l ih => simpa using ih (better_best h slot)

/-- A mount table whose mount points in use are distinct normalised paths. -/
structure MountsOk (mounts : List Mount) : Prop where
  normal : ∀ m ∈ mounts, m.inUse = true → Normalised slash dot m.mountPoint
  distinct : ∀ (i j : ℕ) (m m' : Mount), mounts[i]? = some m → mounts[j]? = some m' →
    m.inUse = true → m'.inUse = true → m.mountPoint = m'.mountPoint → i = j

/-- The path inside a mount: `mp` followed by it is the whole path, but `/` stands for the
mount point itself, and the root mount sees the path as it is. -/
def SubPath (mp path sub : Str) : Prop :=
  if mp = [slash] then sub = path else if path = mp then sub = [slash] else mp ++ sub = path

structure Longest (mounts : List Mount) (path : Str) (i : ℕ) (m : Mount) : Prop where
  slot : mounts[i]? = some m
  inUse : m.inUse = true
  above : WholePrefix m.mountPoint path
  longest : ∀ (j : ℕ) (m' : Mount), mounts[j]? = some m' → m'.inUse = true →
    WholePrefix m'.mountPoint path → j ≠ i → m'.mountPoint.length < m.mountPoint.length

def Routed (mounts : List Mount) (path : Str) : Option (ℕ × Str) → Prop
  | none => ∀ m ∈ mounts, m.inUse = true → ¬ WholePrefix m.mountPoint path
  | some (i, sub) => ∃ m, Longest mounts path i m ∧ SubPath m.mountPoint path sub

theorem Best.longest {mounts : List Mount} (hm : MountsOk mounts) {path : Str}
    (hpath : Normalised slash dot path) {i : ℕ} {m : Mount}
    (h : Best path mounts.zipIdx (some (i, m))) : Longest mounts path i m := by
  obtain ⟨hmem, hu, hun, hall⟩ := h
  have hslot : mounts[i]? = some m := List.mk_mem_zipIdx_iff_getElem?.mp hmem
  have hhead : path.head? = some slash := by
    obtain ⟨q, -, rfl⟩ := hpath
    exact render_head slash q
  have hin : m ∈ mounts := List.mem_of_getElem? hslot
  refine ⟨hslot, hu, (under_iff (hm.normal m hin hu) hpath).mp hun, fun j m' hj hju hjp hne => ?_⟩
  have hin' : m' ∈ mounts := List.mem_of_getElem? hj
  have hjun := (under_iff (hm.normal m' hin' hju) hpath).mpr hjp
  have hle := hall (m', j) (List.mk_mem_zipIdx_iff_getElem?.mpr hj) hju hjun
  refine lt_of_le_of_ne hle fun hlen => hne ?_
  -- two mount points of one length above one path are the same
  refine hm.distinct j i m' m hj hslot hju hu ?_
  rw [← under_take hhead hjun, ← under_take hhead hun, hlen]

theorem under_drop {mp path : Str} (hroot : mp ≠ [slash]) (h : under mp path = true) :
    path.drop mp.length = [] ∨ (path.drop mp.length).head? = some slash := by
  rw [under, if_neg hroot] at h
  split_ifs at h with htake
  cases hdrop : path.drop mp.length with
  | nil => exact Or.inl rfl
  | cons c r =>
    rw [hdrop] at h
    exact Or.inr (by simpa using h)

theorem route_sub {mp path : Str} (hhead : path.head? = some slash) (hlen : path.length < 256)
    (hun : under mp path = true) {i : ℕ} {rest : Str}
    (hrest : (if mp = [slash] then path else path.drop mp.length) = rest) :
    ∃ sub, SubPath mp path sub ∧
      (if rest = [] then some (i, [slash])
      else do
        let sub ← if rest.head? ≠ some slash then if 256 < 2 then none else some [slash] else some []
        let sub ← puts 256 sub rest
        some (i, sub)) = some (i, sub) := by
  have hcopy : ∀ r : Str, r ≠ [] → r.head? = some slash → r.length < 256 →
      (if r = [] then some (i, [slash])
      else do
        let sub ← if r.head? ≠ some slash then if 256 < 2 then none else some [slash] else some []
        let sub ← puts 256 sub r
        some (i, sub)) = some (i, r) := by
    intro r hne hr hlt
    have hputs : puts 256 [] r = some r := by
      rw [puts_eq, if_pos (Or.inr (by simpa using hlt))]
      rfl
    rw [if_neg hne, if_neg (not_not.mpr hr)]
    simp only [Option.bind_eq_bind, Option.bind_some, hputs]
  by_cases hroot : mp = [slash]
  · rw [if_pos hroot] at hrest
    subst hrest
    have hne : path ≠ [] := by
      rintro rfl
      cases hhead
    exact ⟨path, by rw [SubPath, if_pos hroot], hcopy path hne hhead hlen⟩
  rw [if_neg hroot] at hrest
  have happ : path = mp ++ rest := by
    conv_lhs => rw [← List.take_append_drop mp.length path, under_take hhead hun, hrest]
  have hsub : ∀ sub, SubPath mp path sub ↔ if path = mp then sub = [slash] else mp ++ sub = path := by
    intro sub
    rw [SubPath, if_neg hroot]
  rcases under_drop hroot hun with hnil | hslash
  · rw [hrest] at hnil
    subst hnil
    refine ⟨[slash], (hsub _).mpr ?_, by rw [if_pos rfl]⟩
    rw [if_pos (by simpa using happ)]
  · rw [hrest] at hslash
    have hne : rest ≠ [] := by
      rintro rfl
      cases hslash
    have hlt : rest.length < 256 := by
      have hsum := congrArg List.length happ
      rw [List.length_append] at hsum
      omega
    refine ⟨rest, (hsub _).mpr ?_, hcopy rest hne hslash hlt⟩
    rw [if_neg (by rw [happ]; simpa using hne), happ]

theorem route_routed {mounts : List Mount} (hm : MountsOk mounts) {path : Str}
    (hpath : Normalised slash dot path) (hlen : path.length < 256) :
    Routed mounts path (route mounts path 256) := by
  have hstart : Best path [] none := fun x hx => by cases hx
  have hbest : Best path mounts.zipIdx (mounts.zipIdx.foldl (better path) none) := by
    simpa using foldl_better_best mounts.zipIdx hstart
  have hhead : path.head? = some slash := by
    obtain ⟨q, -, rfl⟩ := hpath
    exact render_head slash q
  cases hfound : mounts.zipIdx.foldl (better path) none with
  | none =>
    have hnone : route mounts path 256 = none := by
      simp only [route, hfound, Option.bind_eq_bind, Option.bind_none]
    rw [hfound] at hbest
    rw [hnone]
    intro m hin hu hp
    obtain ⟨i, hi⟩ := List.getElem?_of_mem hin
    have hun := hbest (m, i) (List.mk_mem_zipIdx_iff_getElem?.mpr hi) hu
    rw [(under_iff (hm.normal m hin hu) hpath).mpr hp] at hun
    cases hun
  | some im =>
    obtain ⟨i, m⟩ := im
    rw [hfound] at hbest
    obtain ⟨sub, hsub, hcopy⟩ := route_sub (i := i) hhead hlen hbest.2.2.1 rfl
    have hsome : route mounts path 256 = some (i, sub) := by
      rw [← hcopy]
      simp only [route, hfound, Option.bind_eq_bind, Option.bind_some]
    rw [hsome]
    exact ⟨m, hbest.longest hm hpath, hsub⟩

/-- What one call of `vfs_resolve` has to do: a result is the normalised path, resolves to
itself when it fits the input buffer, and is routed by its components; a failure has a
reason, which is an input or an output that does not fit its buffer, or too many names. -/
structure ResolveOk (cwd path : Str) (outsz : ℕ) : Prop where
  normal : ∀ out, vfsResolve cwd path outsz = some out →
    out = render slash (target cwd path) ∧ Normalised slash dot out ∧
    (out.length ≤ 254 → ∀ cwd', vfsResolve cwd' out outsz = some out) ∧
    ∀ mounts, MountsOk mounts → Routed mounts out (route mounts out 256)
  fails : vfsResolve cwd path outsz = none →
    256 < (joined cwd path).length + 1 ∨
    ∃ t ∈ nameStacks cwd path, outsz < (render slash t).length + 1 ∨ 64 < t.length

/-- Everything fits, and the longest intermediate output with its terminator fills the
output buffer to the last byte. -/
structure ExactFit (cwd path : Str) (outsz : ℕ) : Prop where
  joined : (joined cwd path).length < 256
  depth : ∀ t ∈ nameStacks cwd path, t.length ≤ 64
  fits : ∀ t ∈ nameStacks cwd path, (render slash t).length + 1 ≤ outsz
  exact : ∃ t ∈ nameStacks cwd path, t ≠ [] ∧ (render slash t).length + 1 = outsz

theorem foldl_mem_scanl {α β : Type*} (f : β → α → β) (b : β) (l : List α) :
    l.foldl f b ∈ l.scanl f b := by
  induction l generalizing b with
  | nil => simp
  | cons a l ih =>
    rw [List.scanl_cons]
    exact List.mem_cons_of_mem _ (ih _)

theorem nil_mem_stacks (cwd path : Str) : [] ∈ nameStacks cwd path := by
  rw [nameStacks]
  cases components slash (joined cwd path) with
  | nil => simp
  | cons c cs => simp

/-- A result is always right. -/
theorem vfsResolve_normal {cwd : Str} (hcwd : Normalised slash dot cwd) {path out : Str} {outsz : ℕ}
    (h : vfsResolve cwd path outsz = some out) :
    out = render slash (target cwd path) ∧ Normalised slash dot out ∧
    (out.length ≤ 254 → ∀ cwd', vfsResolve cwd' out outsz = some out) ∧
    ∀ mounts, MountsOk mounts → Routed mounts out (route mounts out 256) := by
  obtain ⟨hs, rfl⟩ := vfsResolve_eq_some h
  have hclean := final_clean cwd path
  have hacc : Accepts outsz (final cwd path) := hs.accepts _ (foldl_mem_scanl _ _ _)
  have hnorm : Normalised slash dot (render slash (final cwd path)) := ⟨_, hclean, rfl⟩
  have hlen : (render slash (final cwd path)).length < 256 :=
    (length_final_le hcwd path).trans_lt hs.joined
  refine ⟨by rw [final_eq_target hcwd], hnorm, fun hle cwd' => ?_, fun mounts hm => route_routed hm hnorm hlen⟩
  exact vfsResolve_render hclean hacc hs.root hle cwd'

/-- A call does what it has to do unless an intermediate output fits exactly. -/
theorem resolveOk_iff_not_exactFit {cwd : Str} (hcwd : Normalised slash dot cwd) (path : Str) (outsz : ℕ) :
    ResolveOk cwd path outsz ↔ ¬ ExactFit cwd path outsz := by
  constructor
  · intro hok hexact
    obtain ⟨t, ht, hne, heq⟩ := hexact.exact
    have hnot : ¬ Succeeds cwd path outsz := by
      intro hs
      rcases (hs.accepts t ht).2 with h | h
      · exact hne h
      · rw [render_of_ne_nil hne] at heq
        omega
    rcases hok.fails (vfsResolve_eq_none hnot) with h | ⟨u, hu, h | h⟩
    · have := hexact.joined
      omega
    · have := hexact.fits u hu
      omega
    · have := hexact.depth u hu
      omega
  · intro hnot
    refine ⟨fun out h => vfsResolve_normal hcwd h, fun hnone => ?_⟩
    by_contra hcon
    push Not at hcon
    obtain ⟨hjoin, hall⟩ := hcon
    have hlt : ∀ t ∈ nameStacks cwd path, t ≠ [] → (render slash t).length + 1 ≠ outsz := by
      intro t ht hne heq
      exact hnot ⟨by omega, fun u hu => (hall u hu).2, fun u hu => (hall u hu).1, t, ht, hne, heq⟩
    have hs : Succeeds cwd path outsz := by
      refine ⟨by omega, fun t ht => ⟨(hall t ht).2, ?_⟩, fun _ => ?_⟩
      · by_cases hne : t = []
        · exact Or.inl hne
        · have h1 := (hall t ht).1
          have h2 := hlt t ht hne
          rw [render_of_ne_nil hne] at h1 h2
          exact Or.inr (by omega)
      · have := (hall [] (nil_mem_stacks cwd path)).1
        simpa [render] using this
    rw [vfsResolve_of_succeeds hs] at hnone
    cases hnone

def Chdir (cwd cwd' : Str) : Prop := ∃ mounts path, vfsChdir mounts cwd path = some cwd'

theorem Chdir.normalised {cwd cwd' : Str} (h : Chdir cwd cwd') : Normalised slash dot cwd' := by
  obtain ⟨mounts, path, h⟩ := h
  simp only [vfsChdir, Option.bind_eq_bind, Option.bind_eq_some_iff] at h
  obtain ⟨abspath, habs, ⟨i, sub⟩, -, m, -, isDir, -, h⟩ := h
  split_ifs at h
  obtain rfl := Option.some.inj h
  obtain ⟨hs, rfl⟩ := vfsResolve_eq_some habs
  have hacc : Accepts 256 (final cwd path) := hs.accepts _ (foldl_mem_scanl _ _ _)
  have hlen : (render slash (final cwd path)).length ≤ 255 := by
    rcases hacc.2 with hnil | hlt
    · simp [hnil, render]
    · by_cases hnil : final cwd path = []
      · simp [hnil, render]
      · rw [render_of_ne_nil hnil]
        omega
  rw [List.take_of_length_le hlen]
  exact ⟨_, final_clean cwd path, rfl⟩

/-- From a normalised working directory, `vfs_resolve` does what it has to do exactly when
no intermediate output fills the buffer to the last byte, and after any calls of `vfs_chdir`
the working directory is normalised again. -/
theorem resolve_meets_iff {cwd : Str} (hcwd : Normalised slash dot cwd) :
    (∀ path outsz, ResolveOk cwd path outsz ↔ ¬ ExactFit cwd path outsz) ∧
    ∀ cwd', Relation.ReflTransGen Chdir cwd cwd' → Normalised slash dot cwd' := by
  refine ⟨fun path outsz => resolveOk_iff_not_exactFit hcwd path outsz, fun cwd' hrun => ?_⟩
  induction hrun with
  | refl => exact hcwd
  | tail _ hstep _ => exact hstep.normalised

theorem root_normalised : Normalised slash dot [slash] := ⟨[], by simp [Clean], rfl⟩

/-- The path `/a` from the root, with room for three bytes and with room for four. -/
theorem rootA_resolve_meets :
    Normalised slash dot [slash] ∧ ¬ ResolveOk [slash] [slash, 97] 3 ∧ ResolveOk [slash] [slash, 97] 4 := by
  have hmeets := (resolve_meets_iff root_normalised).1 [slash, 97]
  have hstacks : nameStacks [slash] [slash, 97] = [[], [[97]]] := by decide
  refine ⟨root_normalised, ?_, (hmeets 4).mpr fun h => ?_⟩
  · rw [hmeets 3, not_not]
    refine ⟨by decide, ?_, ?_, [[97]], ?_⟩
    · rw [hstacks]
      decide
    · rw [hstacks]
      decide
    · rw [hstacks]
      decide
  · obtain ⟨t, ht, hne, heq⟩ := h.exact
    rw [hstacks] at ht
    revert t
    decide

/-- `/a` and its terminator fit three bytes, but `vfs_resolve` fails. -/
theorem exactFit_not_resolveOk : ¬ ResolveOk [slash] [slash, 97] 3 := by
  intro h
  have hstacks : nameStacks [slash] [slash, 97] = [[], [[97]]] := by decide
  rcases h.fails (by decide) with h | ⟨t, ht, h⟩
  · revert h
    decide
  · rw [hstacks] at ht
    revert t
    decide

end ComputerOS.Vfs
