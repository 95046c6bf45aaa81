import ComputerOS.Tar.Paths

/-!
Where an archive is extracted to. The paths that `tar_process` passes on are textual prefixes of
the destination joined with a member's name; resolving them walks down the destination and then
the components of the name. The walk stays at the destination as long as no `..` leads out of it,
except to come back along the destination's own names.
-/
namespace ComputerOS.Tar

open ComputerOS.Path Vfs

variable {cwd q p dst : Str} {D : List Str}

/-- One of the two is above the other, or they are the same. -/
def Comparable (D stack : List Str) : Prop := D <+: stack ∨ stack <+: D

/-- Every stack on the way that is not too deep is comparable with `D`, and the last one is at
or below `D` for a file. -/
def Along (D : List Str) (file : Bool) (stack cs : List Str) : Prop :=
  ∀ ds, ds <+: cs → Shallow stack ds →
    Comparable D (normalise dot stack ds) ∧ (ds = cs → file = true → D <+: normalise dot stack cs)

/-- The same with two counters, how far the walk is above `D` and how far below: above `D` the
only way on is back along the names of `D`. -/
def stays (D : List Str) (file : Bool) : ℕ → ℕ → List Str → Bool
  | up, _, [] => !file || up = 0
  | up, down, c :: cs =>
      if c = [dot] then stays D file up down cs
      else if c = [dot, dot] then
        if 0 < down then stays D file up (down - 1) cs else stays D file (min (up + 1) D.length) 0 cs
      else if up = 0 then 64 ≤ D.length + down || stays D file 0 (down + 1) cs
      else D[D.length - up]? = some c && stays D file (up - 1) 0 cs

variable {stack cs : List Str} {c : Str} {file : Bool}

theorem shallow_nil : Shallow stack [] ↔ stack.length ≤ 64 := by
  unfold Shallow
  simp

theorem shallow_cons : Shallow stack (c :: cs) ↔ stack.length ≤ 64 ∧ Shallow (push dot stack c) cs := by
  unfold Shallow
  simp [List.scanl_cons]

theorem Shallow.head (h : Shallow stack cs) : stack.length ≤ 64 := by
  cases cs with
  | nil => exact shallow_nil.mp h
  | cons c cs => exact (shallow_cons.mp h).1

theorem along_nil (hdeep : stack.length ≤ 64) :
    Along D file stack [] ↔ Comparable D stack ∧ (file = true → D <+: stack) := by
  unfold Along
  constructor
  · intro h
    obtain ⟨hcmp, hfile⟩ := h [] List.prefix_rfl (shallow_nil.mpr hdeep)
    exact ⟨hcmp, hfile rfl⟩
  · rintro ⟨hcmp, hfile⟩ ds hds -
    rw [List.prefix_nil.mp hds]
    exact ⟨hcmp, fun _ => hfile⟩

theorem along_cons (hdeep : stack.length ≤ 64) (hcmp : Comparable D stack) :
    Along D file stack (c :: cs) ↔ ((push dot stack c).length ≤ 64 → Along D file (push dot stack c) cs) := by
  constructor
  · intro h hpush ds hds hsh
    obtain ⟨h1, h2⟩ := h (c :: ds) (List.cons_prefix_cons.mpr ⟨rfl, hds⟩) (shallow_cons.mpr ⟨hdeep, hsh⟩)
    exact ⟨h1, fun heq => h2 (by rw [heq])⟩
  · intro h ds hds hsh
    cases ds with
    | nil => exact ⟨hcmp, fun heq => by cases heq⟩
    | cons d ds =>
      obtain ⟨rfl, hds'⟩ := List.cons_prefix_cons.mp hds
      obtain ⟨-, hsh'⟩ := shallow_cons.mp hsh
      obtain ⟨h1, h2⟩ := h hsh'.head ds hds' hsh'
      exact ⟨h1, fun heq => h2 (List.cons.inj heq).2⟩

theorem Along.comparable (h : Along D file stack cs) (hdeep : stack.length ≤ 64) : Comparable D stack :=
  (h [] List.nil_prefix (shallow_nil.mpr hdeep)).1

theorem Comparable.dropLast (h : Comparable D stack) : Comparable D stack.dropLast := by
  rcases h with h | h
  · by_cases heq : D.length = stack.length
    · rw [h.eq_of_length heq]
      exact Or.inr stack.dropLast_prefix
    · left
      rw [List.dropLast_eq_take]
      exact List.prefix_take_iff.mpr ⟨h, by have := h.length_le; omega⟩
  · exact Or.inr (stack.dropLast_prefix.trans h)

theorem prefix_iff_length (h : Comparable D stack) : D <+: stack ↔ D.length ≤ stack.length := by
  constructor
  · exact fun hp => hp.length_le
  · intro hle
    rcases h with h | h
    · exact h
    · rw [h.eq_of_length (by have := h.length_le; omega)]

/-- Above `D` the walk stays comparable only along the next name of `D`. -/
theorem comparable_concat (hcmp : Comparable D stack) (hlt : stack.length < D.length) :
    Comparable D (stack ++ [c]) ↔ D[stack.length]? = some c := by
  have hpre : stack <+: D := by
    rcases hcmp with h | h
    · have := h.length_le
      omega
    · exact h
  obtain ⟨rest, rfl⟩ := hpre
  rw [List.getElem?_append_right le_rfl, Nat.sub_self]
  constructor
  · rintro (h | h)
    · have hlen := h.length_le
      simp only [List.length_append, List.length_singleton] at hlen hlt
      obtain ⟨t, ht⟩ := h
      rw [List.append_assoc] at ht
      have htail := List.append_cancel_left ht
      cases rest with
      | nil => simp at hlt
      | cons d rest =>
        rw [List.cons_append] at htail
        rw [(List.cons.inj htail).1]
        rfl
    · rw [List.prefix_append_right_inj] at h
      cases rest with
      | nil => simp at hlt
      | cons d rest =>
        rw [(List.cons_prefix_cons.mp h).1]
        rfl
  · intro h
    cases rest with
    | nil => cases h
    | cons d rest =>
      obtain rfl : d = c := by simpa using h
      exact Or.inr ⟨rest, by simp⟩

theorem stays_iff (hD : D.length ≤ 64) (hdeep : stack.length ≤ 64) (hcmp : Comparable D stack) :
    stays D file (D.length - stack.length) (stack.length - D.length) cs = true ↔ Along D file stack cs := by
  induction cs generalizing stack with
  | nil =>
    rw [along_nil hdeep, stays, prefix_iff_length hcmp]
    cases file with
    | false => simp [hcmp]
    | true =>
      simp only [Bool.not_true, Bool.false_or, decide_eq_true_eq, true_imp_iff]
      exact ⟨fun h => ⟨hcmp, by omega⟩, fun h => by omega⟩
  | cons c cs ih =>
    rw [along_cons hdeep hcmp, stays]
    by_cases h1 : c = [dot]
    · have hpush : push dot stack c = stack := by rw [push, if_pos h1]
      rw [if_pos h1, hpush, ih hdeep hcmp]
      exact ⟨fun h _ => h, fun h => h hdeep⟩
    by_cases h2 : c = [dot, dot]
    · have hpush : push dot stack c = stack.dropLast := by rw [push, if_neg h1, if_pos h2]
      have hlen : stack.dropLast.length = stack.length - 1 := List.length_dropLast
      have ih := ih (by omega) hcmp.dropLast
      rw [if_neg h1, if_pos h2, hpush]
      have hstate : (if 0 < stack.length - D.length then
            stays D file (D.length - stack.length) (stack.length - D.length - 1) cs
          else stays D file (min (D.length - stack.length + 1) D.length) 0 cs) =
          stays D file (D.length - stack.dropLast.length) (stack.dropLast.length - D.length) cs := by
        rw [hlen]
        split
        · congr 1 <;> omega
        · congr 1 <;> omega
      rw [hstate, ih]
      exact ⟨fun h _ => h, fun h => h (by omega)⟩
    · have hpush : push dot stack c = stack ++ [c] := by rw [push, if_neg h1, if_neg h2]
      have hlen : (stack ++ [c]).length = stack.length + 1 := by simp
      rw [if_neg h1, if_neg h2, hpush, hlen]
      by_cases hup : D.length - stack.length = 0
      · have hpre : D <+: stack := (prefix_iff_length hcmp).mpr (by omega)
        rw [if_pos hup]
        by_cases hfull : 64 ≤ D.length + (stack.length - D.length)
        · simp only [hfull, decide_true, Bool.true_or, true_iff]
          intro h
          omega
        · simp only [hfull, decide_false, Bool.false_or]
          have ih := ih (show (stack ++ [c]).length ≤ 64 by omega) (Or.inl (hpre.trans (List.prefix_append _ _)))
          rw [hlen, show D.length - (stack.length + 1) = 0 by omega,
            show stack.length + 1 - D.length = stack.length - D.length + 1 by omega] at ih
          rw [ih]
          exact ⟨fun h _ => h, fun h => h (by omega)⟩
      · rw [if_neg hup, show D.length - (D.length - stack.length) = stack.length by omega]
        by_cases hback : D[stack.length]? = some c
        · have hnew := (comparable_concat hcmp (by omega)).mpr hback
          have ih := ih (by omega) hnew
          rw [hlen, show D.length - (stack.length + 1) = D.length - stack.length - 1 by omega,
            show stack.length + 1 - D.length = 0 by omega] at ih
          simp only [hback, decide_true, Bool.true_and]
          rw [ih]
          exact ⟨fun h _ => h, fun h => h (by omega)⟩
        · simp only [hback, decide_false, Bool.false_and, Bool.false_eq_true, false_iff]
          intro h
          have hnew := (h (by omega)).comparable (by omega)
          exact hback ((comparable_concat hcmp (by omega)).mp hnew)

/-- What the path of a call may resolve to: the destination or a path below it, and for `mkdir`
also a path above it. -/
def Contained (cwd dst : Str) : Call → Prop
  | .mkdir path => ∀ r, vfsResolve cwd path 256 = some r → WholePrefix dst r ∨ WholePrefix r dst
  | .write path _ => ∀ r, vfsResolve cwd path 256 = some r → WholePrefix dst r

theorem clean_normalise (q : Str) : Clean slash dot (normalise dot [] (components slash q)) :=
  normalise_clean (fun _ hc => by cases hc) fun _ hc => mem_components hc

theorem resolve_forall (hq : q.head? = some slash) {P : List Str → Prop} :
    (∀ r, vfsResolve cwd q 256 = some r → P (components slash r)) ↔
      (q.length ≤ 254 → Shallow [] (components slash q) → P (normalise dot [] (components slash q))) := by
  constructor
  · intro h hlen hsh
    have := h _ ((vfsResolve_absolute hq).mpr ⟨hlen, hsh, rfl⟩)
    rwa [components_render (clean_normalise q)] at this
  · intro h r hr
    obtain ⟨hlen, hsh, rfl⟩ := (vfsResolve_absolute hq).mp hr
    rw [components_render (clean_normalise q)]
    exact h hlen hsh

theorem contained_mkdir (hD : Clean slash dot D) (hdst : dst = render slash D) (hq : q.head? = some slash) :
    Contained cwd dst (.mkdir q) ↔
      (q.length ≤ 254 → Shallow [] (components slash q) → Comparable D (normalise dot [] (components slash q))) := by
  unfold Contained WholePrefix
  rw [hdst, components_render hD]
  exact resolve_forall hq (P := fun stack => D <+: stack ∨ stack <+: D)

theorem contained_write (hD : Clean slash dot D) (hdst : dst = render slash D) (hq : q.head? = some slash)
    (content : Str) : Contained cwd dst (.write q content) ↔
      (q.length ≤ 254 → Shallow [] (components slash q) → D <+: normalise dot [] (components slash q)) := by
  unfold Contained WholePrefix
  rw [hdst, components_render hD]
  exact resolve_forall hq (P := fun stack => D <+: stack)

theorem prefix_append_cases {ds : List Str} (h : ds <+: D ++ cs) : ds <+: D ∨ ∃ es, ds = D ++ es ∧ es <+: cs := by
  rcases List.prefix_or_prefix_of_prefix h (List.prefix_append D cs) with hpre | ⟨es, rfl⟩
  · exact Or.inl hpre
  · exact Or.inr ⟨es, rfl, (List.prefix_append_right_inj D).mp h⟩

/-- Going down to `D` first. -/
theorem normalise_from (hD : Clean slash dot D) (cs : List Str) :
    normalise dot [] (D ++ cs) = normalise dot D cs := by
  rw [normalise_append, normalise_of_clean hD, List.nil_append]

theorem shallow_from (hD : Clean slash dot D) (cs : List Str) :
    Shallow [] (D ++ cs) ↔ D.length ≤ 64 ∧ Shallow D cs := by
  constructor
  · intro h
    have hcs : Shallow D cs := by
      intro t ht
      obtain ⟨ds, hds, rfl⟩ := mem_scanl_iff.mp ht
      rw [← normalise_from hD]
      exact h _ (mem_scanl_iff.mpr ⟨D ++ ds, (List.prefix_append_right_inj D).mpr hds, rfl⟩)
    exact ⟨hcs.head, hcs⟩
  · rintro ⟨hdeep, hcs⟩ t ht
    obtain ⟨ds, hds, rfl⟩ := mem_scanl_iff.mp ht
    rcases prefix_append_cases hds with hpre | ⟨es, rfl, hes⟩
    · have hclean : Clean slash dot ds := fun c hc => hD c (hpre.subset hc)
      rw [normalise_of_clean hclean, List.nil_append]
      have := hpre.length_le
      omega
    · rw [normalise_from hD]
      exact hcs _ (mem_scanl_iff.mpr ⟨es, hes, rfl⟩)

theorem normalise_isPrefix (hD : Clean slash dot D) {ds : List Str} (h : ds <+: D) : normalise dot [] ds = ds :=
  normalise_of_clean (fun c hc => hD c (h.subset hc)) []

/-- Down to `D` every stack is above it; only the way on from `D` matters. -/
theorem along_from (hD : Clean slash dot D) (cs : List Str) :
    (∀ ds, ds <+: D ++ cs → Shallow [] ds → Comparable D (normalise dot [] ds)) ↔
      (D.length ≤ 64 → Along D false D cs) := by
  constructor
  · intro h hdeep ds hds hsh
    have := h (D ++ ds) ((List.prefix_append_right_inj D).mpr hds) ((shallow_from hD ds).mpr ⟨hdeep, hsh⟩)
    rw [normalise_from hD] at this
    exact ⟨this, fun _ hfile => by cases hfile⟩
  · intro h ds hds hsh
    rcases prefix_append_cases hds with hpre | ⟨es, rfl, hes⟩
    · rw [normalise_isPrefix hD hpre]
      exact Or.inr hpre
    · obtain ⟨hdeep, hsh⟩ := (shallow_from hD es).mp hsh
      rw [normalise_from hD]
      exact (h hdeep es hes hsh).1

theorem components_ne_nil {s : Str} (hne : s ≠ []) (hlast : s.getLast? ≠ some slash) : components slash s ≠ [] := by
  by_cases hmem : slash ∈ s
  · obtain ⟨a, b, rfl, hb, -⟩ := exists_last_slash hmem
    have hbne : b ≠ [] := by
      rintro rfl
      exact hlast (by simp)
    rw [components_append_sep, components_of_not_mem hbne hb]
    simp
  · rw [components_of_not_mem hne hmem]
    exact List.cons_ne_nil _ _

theorem components_prefix_of_boundary {r : Str} (h : p = q ++ r) (hr : Boundary r) :
    components slash q <+: components slash p := by
  rw [h]
  rcases hr with rfl | ⟨r, rfl⟩
  · rw [List.append_nil]
  · rw [components_append_sep]
    exact List.prefix_append _ _

/-- A path cut before its end, where a component ends, has fewer components. -/
theorem components_lt_of_boundary {r : Str} (h : p = q ++ slash :: r) (hlast : p.getLast? ≠ some slash) :
    (components slash q).length < (components slash p).length := by
  have hr : r ≠ [] := by
    rintro rfl
    exact hlast (by rw [h]; simp)
  have hrlast : r.getLast? ≠ some slash := by
    rwa [h, List.getLast?_append_of_ne_nil _ (List.cons_ne_nil _ _), List.getLast?_cons_of_ne_nil hr] at hlast
  have := List.length_pos_of_ne_nil (components_ne_nil hr hrlast)
  rw [h, components_append_sep, List.length_append]
  omega

theorem prefix_dropLast {ds es : List Str} (h : ds <+: es) (hlt : ds.length < es.length) : ds <+: es.dropLast := by
  rw [List.dropLast_eq_take]
  exact List.prefix_take_iff.mpr ⟨h, by omega⟩

/-- The components of the paths that `mkdir_p` passes on and that can be resolved. -/
theorem made_components (hp : p.head? = some slash) (hlen : p.length ≤ 255)
    (hlast : p.length = 255 → p.getLast? ≠ some slash) {ds : List Str} (hne : ds ≠ []) :
    (∃ q ∈ mkdirP p, q.length ≤ 254 ∧ components slash q = ds) ↔
      ds <+: if p.length = 255 then (components slash p).dropLast else components slash p := by
  constructor
  · rintro ⟨q, hq, hshort, rfl⟩
    obtain ⟨-, r, hqr, hr⟩ := mem_mkdirP hp hlen hq
    have hpre := components_prefix_of_boundary hqr hr
    split
    · rename_i hfull
      rcases hr with rfl | ⟨r, rfl⟩
      · rw [List.append_nil] at hqr
        rw [hqr] at hfull
        omega
      · exact prefix_dropLast hpre (components_lt_of_boundary hqr (hlast hfull))
    · exact hpre
  · intro hds
    have hpre : ds <+: components slash p := by
      split at hds
      · exact hds.trans (List.dropLast_prefix _)
      · exact hds
    obtain ⟨q, hq, hcomps⟩ := mkdirP_mem hp hlen hpre hne
    refine ⟨q, hq, ?_, hcomps⟩
    obtain ⟨-, r, hqr, hr⟩ := mem_mkdirP hp hlen hq
    have hsum : p.length = q.length + r.length := by rw [hqr, List.length_append]
    by_contra hlong
    -- then the path is all of `p`, with its last component
    have hfull : p.length = 255 := by omega
    have hrnil : r = [] := List.length_eq_zero_iff.mp (by omega)
    rw [if_pos hfull] at hds
    rw [hrnil, List.append_nil] at hqr
    rw [← hcomps, ← hqr] at hds hne
    have := hds.length_le
    rw [List.length_dropLast] at this
    have := List.length_pos_of_ne_nil hne
    omega

/-- All directories that are made stay comparable with `D`. -/
theorem mkdirs_contained (hD : Clean slash dot D) (hdst : dst = render slash D) (hp : p.head? = some slash)
    (hlen : p.length ≤ 255) (hlast : p.length = 255 → p.getLast? ≠ some slash) :
    (∀ q ∈ mkdirP p, Contained cwd dst (.mkdir q)) ↔
      ∀ ds, ds <+: (if p.length = 255 then (components slash p).dropLast else components slash p) →
        Shallow [] ds → Comparable D (normalise dot [] ds) := by
  constructor
  · intro h ds hds hsh
    by_cases hne : ds = []
    · rw [hne]
      exact Or.inr List.nil_prefix
    · obtain ⟨q, hq, hshort, rfl⟩ := (made_components hp hlen hlast hne).mpr hds
      exact (contained_mkdir hD hdst (mem_mkdirP hp hlen hq).1).mp (h q hq) hshort hsh
  · intro h q hq
    rw [contained_mkdir hD hdst (mem_mkdirP hp hlen hq).1]
    intro hshort hsh
    by_cases hne : components slash q = []
    · rw [hne]
      exact Or.inr List.nil_prefix
    · exact h _ ((made_components hp hlen hlast hne).mp ⟨q, hq, hshort, rfl⟩) hsh

/-- The condition on a member: a `..` that leads out of the destination is followed only by the
names that lead back into it, and a file does not end above it. Of a path that fills the buffer
the last component does not count, and nothing deeper than 64 levels does. A destination of 255
bytes and more is cut itself, which matters for a file when it is cut after a whole component. -/
def confined (dst : Str) (m : Member) : Bool :=
  let D := components slash dst
  if 255 ≤ dst.length then
    !(m.isFile && dst[254]? = some slash && (components slash (dst.take 254)).length ≤ 64)
  else
    let tail := tailOf dst m.name
    let cs := components slash tail
    64 < D.length || if Cut dst tail then stays D false 0 0 cs.dropLast else stays D m.isFile 0 0 cs

theorem stays_start (hD : D.length ≤ 64) (file : Bool) (cs : List Str) :
    stays D file 0 0 cs = true ↔ Along D file D cs := by
  have : stays D file (D.length - D.length) (D.length - D.length) cs = true ↔ Along D file D cs :=
    stays_iff hD hD (Or.inl List.prefix_rfl)
  rwa [Nat.sub_self] at this

theorem dir_contained (hD : Clean slash dot D) (hdst : dst = render slash D) (hlen : dst.length ≤ 254) (name : Str) :
    (∀ c ∈ dispatch dst (.dir name), Contained cwd dst c) ↔
      (D.length ≤ 64 → Along D false D (if Cut dst (tailOf dst name) then (components slash (tailOf dst name)).dropLast
        else components slash (tailOf dst name))) := by
  obtain ⟨hhead, hend⟩ := joinPath_ends hD hdst hlen name
  obtain ⟨hmax, hcut⟩ := length_joinPath hD hdst hlen name
  have hcomps := components_joinPath hD hdst hlen name
  have hlast : (joinPath dst name 256).length = 255 → (joinPath dst name 256).getLast? ≠ some slash := by
    intro hfull
    rcases hend with hend | hend
    · omega
    · exact hend
  unfold dispatch
  rw [List.forall_mem_map, mkdirs_contained hD hdst hhead hmax hlast, hcomps, ← along_from hD]
  by_cases hc : Cut dst (tailOf dst name)
  · have hfull : (joinPath dst name 256).length = 255 := by
      have := hcut.mpr hc
      omega
    rw [if_pos hfull, if_pos hc, List.dropLast_append_of_ne_nil (components_ne_nil hc.1 hc.2.2)]
  · have hfull : (joinPath dst name 256).length ≠ 255 := fun h => hc (hcut.mp (by omega))
    rw [if_neg hfull, if_neg hc]

/-- The last component of a file is not made, but written. -/
theorem along_file : Along D true stack cs ↔
    Along D false stack cs.dropLast ∧ (Shallow stack cs → D <+: normalise dot stack cs) := by
  constructor
  · intro h
    refine ⟨fun ds hds hsh => ?_, fun hsh => (h cs List.prefix_rfl hsh).2 rfl rfl⟩
    exact ⟨(h ds (hds.trans (List.dropLast_prefix _)) hsh).1, fun _ hfile => by cases hfile⟩
  · rintro ⟨hdirs, hwrite⟩ ds hds hsh
    by_cases heq : ds = cs
    · rw [heq] at hsh ⊢
      exact ⟨Or.inl (hwrite hsh), fun _ _ => hwrite hsh⟩
    · have hlt : ds.length < cs.length := by
        by_contra hge
        exact heq (hds.eq_of_length (by have := hds.length_le; omega))
      exact ⟨(hdirs ds (prefix_dropLast hds hlt) hsh).1, fun h => absurd h heq⟩

theorem parents_contained (hD : Clean slash dot D) (hdst : dst = render slash D) (hp : p.head? = some slash)
    (hlen : p.length ≤ 255) (hend : p.length ≤ 1 ∨ p.getLast? ≠ some slash) :
    (∀ q ∈ mkdirParents p, Contained cwd dst (.mkdir q)) ↔
      ∀ ds, ds <+: (components slash p).dropLast → Shallow [] ds → Comparable D (normalise dot [] ds) := by
  unfold mkdirParents
  rcases parentOf_spec hp hend with ⟨par, b, hpar, hhead, hcut, hcomps⟩ | ⟨hpar, hcomps⟩
  · have hshort : par.length < p.length := by
      have := congrArg List.length hcut
      rw [List.length_append, List.length_cons] at this
      omega
    rw [hpar, ← hcomps]
    have := @mkdirs_contained cwd _ _ _ hD hdst hhead (by omega) (by omega)
    rwa [if_neg (by omega)] at this
  · rw [hpar, hcomps]
    constructor
    · intro _ ds hds _
      rw [List.prefix_nil.mp hds]
      exact Or.inr List.nil_prefix
    · intro _ q hq
      cases hq

theorem dispatch_file (name content : Str) :
    (∀ c ∈ dispatch dst (.file name content), Contained cwd dst c) ↔
      (∀ q ∈ mkdirParents (joinPath dst name 256), Contained cwd dst (.mkdir q)) ∧
        Contained cwd dst (.write (joinPath dst name 256) content) := by
  unfold dispatch
  dsimp only
  rw [List.forall_mem_append, List.forall_mem_map, List.forall_mem_singleton]

theorem file_contained (hD : Clean slash dot D) (hdst : dst = render slash D) (hlen : dst.length ≤ 254)
    (name content : Str) : (∀ c ∈ dispatch dst (.file name content), Contained cwd dst c) ↔
      (D.length ≤ 64 → if Cut dst (tailOf dst name) then Along D false D (components slash (tailOf dst name)).dropLast
        else Along D true D (components slash (tailOf dst name))) := by
  obtain ⟨hhead, hend⟩ := joinPath_ends hD hdst hlen name
  obtain ⟨hmax, hcut⟩ := length_joinPath hD hdst hlen name
  have hcomps := components_joinPath hD hdst hlen name
  rw [dispatch_file, parents_contained hD hdst hhead hmax hend, contained_write hD hdst hhead,
    hcomps, normalise_from hD, shallow_from hD]
  have hcutne : Cut dst (tailOf dst name) → components slash (tailOf dst name) ≠ [] := fun hc =>
    components_ne_nil hc.1 hc.2.2
  generalize components slash (tailOf dst name) = cs at hcutne ⊢
  by_cases hne : cs = []
  · subst hne
    rw [if_neg fun hc => hcutne hc rfl, List.append_nil]
    constructor
    · intro _ hdeep
      exact (along_nil hdeep).mpr ⟨Or.inl List.prefix_rfl, fun _ => List.prefix_rfl⟩
    · intro _
      refine ⟨fun ds hds _ => ?_, fun _ _ => List.prefix_rfl⟩
      have hpre := hds.trans (List.dropLast_prefix D)
      rw [normalise_isPrefix hD hpre]
      exact Or.inr hpre
  · rw [List.dropLast_append_of_ne_nil hne, along_from hD]
    by_cases hc : Cut dst (tailOf dst name)
    · rw [if_pos hc]
      refine and_iff_left fun hshort => ?_
      have := hcut.mpr hc
      omega
    · rw [if_neg hc, along_file]
      have hshort : (joinPath dst name 256).length ≤ 254 := by
        by_contra hlong
        exact hc (hcut.mp (by omega))
      constructor
      · rintro ⟨hdirs, hwrite⟩ hdeep
        exact ⟨hdirs hdeep, fun hsh => hwrite hshort ⟨hdeep, hsh⟩⟩
      · intro h
        exact ⟨fun hdeep => (h hdeep).1, fun _ hsh => (h hsh.1).2 hsh.2⟩

/-- A normalised path has no empty component. -/
theorem render_ne_double (hD : Clean slash dot D) (a b : Str) : render slash D ≠ a ++ slash :: slash :: b := by
  intro h
  have hne : D ≠ [] := by
    rintro rfl
    have := congrArg List.length h
    simp [render] at this
    omega
  have hD' : D = components slash a ++ components slash b := by
    rw [← components_render hD, h, components_append_sep, components_sep_cons]
  have hlen : (render slash D).length = (Path.text slash (components slash a)).length +
      (Path.text slash (components slash b)).length := by
    rw [render_of_ne_nil hne, hD', text_append, List.length_append]
  have hb := length_text_components slash b
  have ha : (Path.text slash (components slash a)).length ≤ a.length := by
    cases a with
    | nil => simp
    | cons x a =>
      have hhead := render_head slash D
      rw [h] at hhead
      obtain rfl : x = slash := by simpa using hhead
      rw [components_sep_cons]
      exact length_text_components slash a
  rw [h] at hlen
  simp only [List.length_append, List.length_cons] at hlen
  omega

theorem strip_concat {s : Str} (hne : s ≠ []) : strip (s ++ [slash]) = strip s := by
  unfold strip
  rw [List.reverse_append, List.reverse_singleton, List.singleton_append]
  cases hrev : s.reverse with
  | nil => exact absurd (List.reverse_eq_nil_iff.mp hrev) hne
  | cons x t => rw [stripRev, if_pos rfl]

/-- A destination of 255 bytes and more is cut, and the name is left out. -/
theorem joinPath_long (hD : Clean slash dot D) (hdst : dst = render slash D) (hlen : 255 ≤ dst.length) (name : Str) :
    (joinPath dst name 256).getLast? ≠ some slash ∧
      (dst[254]? = some slash ∧ joinPath dst name 256 = dst.take 254 ∨
        dst[254]? ≠ some slash ∧ joinPath dst name 256 = dst.take 255) := by
  have hpos : 254 < dst.length := by omega
  have htake : dst.take 255 = dst.take 254 ++ [dst[254]] := by
    rw [List.take_succ_eq_append_getElem hpos]
  unfold joinPath
  dsimp only
  rw [List.getElem?_eq_getElem hpos]
  by_cases hslash : dst[254] = slash
  · have hne : dst.take 254 ≠ [] := by
      intro hnil
      have := congrArg List.length hnil
      rw [List.length_take, List.length_nil] at this
      omega
    have hlast : (dst.take 254).getLast? ≠ some slash := by
      intro hl
      obtain ⟨a, ha⟩ := List.getLast?_eq_some_iff.mp hl
      have hsplit := List.take_append_drop 255 dst
      rw [htake, hslash, ha] at hsplit
      exact render_ne_double hD a (dst.drop 255) (hdst.symm.trans (hsplit.symm.trans (by simp)))
    have hlen254 : (dst.take 254).length = 254 := by
      rw [List.length_take]
      omega
    rw [htake, hslash, strip_concat hne, strip_of_getLast hlast, if_pos (by omega)]
    have hfull : (dst.take 254 ++ [slash]).length = 255 := by rw [List.length_append, hlen254]; rfl
    rw [hfull, Nat.sub_self, List.take_zero, List.append_nil, strip_concat hne, strip_of_getLast hlast]
    exact ⟨hlast, Or.inl ⟨rfl, rfl⟩⟩
  · have hlast : (dst.take 255).getLast? ≠ some slash := by
      rw [htake, List.getLast?_concat]
      simpa using hslash
    have hlen255 : (dst.take 255).length = 255 := by
      rw [List.length_take]
      omega
    rw [strip_of_getLast hlast, if_neg (by omega), hlen255, Nat.sub_self, List.take_zero,
      List.append_nil, strip_of_getLast hlast]
    exact ⟨hlast, Or.inr ⟨by simpa using hslash, rfl⟩⟩

theorem long_head (hdst : dst = render slash D) {n : ℕ} (hn : n ≠ 0) : (dst.take n).head? = some slash := by
  have hhead := render_head slash D
  rw [← hdst] at hhead
  cases dst with
  | nil => cases hhead
  | cons x dst =>
    cases n with
    | zero => exact absurd rfl hn
    | succ n => exact hhead

/-- What is made for a long destination lies on the way down to it. -/
theorem components_dropLast_prefix (hD : Clean slash dot D) (hdst : dst = render slash D) (hp : p.head? = some slash)
    (hlast : p.getLast? ≠ some slash) (hpre : p <+: dst) : (components slash p).dropLast <+: D := by
  rcases parentOf_spec hp (Or.inr hlast) with ⟨par, b, -, -, hcut, hcomps⟩ | ⟨-, hcomps⟩
  · obtain ⟨rest, hrest⟩ := hpre
    rw [← hcomps, ← components_render hD, ← hdst, ← hrest, hcut]
    exact components_prefix_of_boundary (r := slash :: (b ++ rest)) (by simp) (Or.inr ⟨_, rfl⟩)
  · rw [hcomps]
    exact List.nil_prefix

theorem comparable_of_isPrefix (hD : Clean slash dot D) {E : List Str} (hE : E <+: D) :
    ∀ ds, ds <+: E → Shallow [] ds → Comparable D (normalise dot [] ds) := by
  intro ds hds _
  have hpre := hds.trans hE
  rw [normalise_isPrefix hD hpre]
  exact Or.inr hpre

theorem shallow_clean (hD : Clean slash dot D) : Shallow [] D ↔ D.length ≤ 64 := by
  have := shallow_from hD []
  rw [List.append_nil, shallow_nil, and_self] at this
  exact this

theorem split_of_getElem? (h : dst[254]? = some slash) : dst = dst.take 254 ++ slash :: dst.drop 255 := by
  obtain ⟨hlt, hget⟩ := List.getElem?_eq_some_iff.mp h
  have hdrop := List.drop_eq_getElem_cons hlt
  rw [hget] at hdrop
  have hsplit := List.take_append_drop 254 dst
  rw [hdrop] at hsplit
  exact hsplit.symm

theorem long_mkdirs (hD : Clean slash dot D) (hdst : dst = render slash D) (hlen : 255 ≤ dst.length) (name : Str) :
    (∀ q ∈ mkdirP (joinPath dst name 256), Contained cwd dst (.mkdir q)) ∧
      ∀ q ∈ mkdirParents (joinPath dst name 256), Contained cwd dst (.mkdir q) := by
  have hcompD : components slash dst = D := by rw [hdst, components_render hD]
  obtain ⟨hlast, hcases⟩ := joinPath_long hD hdst hlen name
  obtain ⟨n, hn, hcase⟩ : ∃ n, joinPath dst name 256 = dst.take n ∧
      (n = 254 ∧ dst[254]? = some slash ∨ n = 255) := by
    rcases hcases with ⟨hslash, hjoin⟩ | ⟨-, hjoin⟩
    · exact ⟨254, hjoin, Or.inl ⟨rfl, hslash⟩⟩
    · exact ⟨255, hjoin, Or.inr rfl⟩
  rw [hn] at hlast ⊢
  have hlen' : (dst.take n).length = n := by
    rw [List.length_take]
    omega
  have hhead : (dst.take n).head? = some slash := long_head hdst (by omega)
  have hparents := components_dropLast_prefix hD hdst hhead hlast (List.take_prefix _ _)
  rw [mkdirs_contained hD hdst hhead (by omega) fun _ => hlast,
    parents_contained hD hdst hhead (by omega) (Or.inr hlast)]
  refine ⟨comparable_of_isPrefix hD ?_, comparable_of_isPrefix hD hparents⟩
  rcases hcase with ⟨rfl, hslash⟩ | rfl
  · rw [if_neg (by omega)]
    have := components_prefix_of_boundary (split_of_getElem? hslash) (Or.inr ⟨_, rfl⟩)
    rwa [hcompD] at this
  · rw [if_pos hlen']
    exact hparents

theorem long_contained (hD : Clean slash dot D) (hdst : dst = render slash D) (hlen : 255 ≤ dst.length) (m : Member) :
    (∀ c ∈ dispatch dst m, Contained cwd dst c) ↔
      ¬ (m.isFile = true ∧ dst[254]? = some slash ∧ (components slash (dst.take 254)).length ≤ 64) := by
  have hcompD : components slash dst = D := by rw [hdst, components_render hD]
  cases m with
  | dir name =>
    refine iff_of_true ?_ fun h => by cases h.1
    unfold dispatch
    rw [List.forall_mem_map]
    exact (long_mkdirs hD hdst hlen name).1
  | file name content =>
    rw [dispatch_file, and_iff_right (long_mkdirs hD hdst hlen name).2]
    obtain ⟨hlast, hcases⟩ := joinPath_long hD hdst hlen name
    rcases hcases with ⟨hslash, hjoin⟩ | ⟨hslash, hjoin⟩
    · rw [hjoin, contained_write hD hdst (long_head hdst (by decide))]
      have hpre : components slash (dst.take 254) <+: D := by
        have := components_prefix_of_boundary (split_of_getElem? hslash) (Or.inr ⟨_, rfl⟩)
        rwa [hcompD] at this
      have hdlast : dst.getLast? ≠ some slash := by
        obtain ⟨n, -, hend, -⟩ := strip_spec (render slash D)
        rw [strip_render hD, ← hdst] at hend
        exact hend.resolve_left (by omega)
      have hlt := components_lt_of_boundary (split_of_getElem? hslash) hdlast
      rw [hcompD] at hlt
      have hclean : Clean slash dot (components slash (dst.take 254)) := fun c hc => hD c (hpre.subset hc)
      rw [normalise_isPrefix hD hpre, shallow_clean hclean]
      constructor
      · rintro h ⟨-, -, hdeep⟩
        have := (h (by rw [List.length_take]; omega) hdeep).length_le
        omega
      · intro h _ hdeep
        exact absurd ⟨rfl, hslash, hdeep⟩ h
    · refine iff_of_true ?_ fun h => hslash h.2.1
      rw [hjoin, contained_write hD hdst (long_head hdst (by decide)), List.length_take]
      omega

/-- For every member: its calls are contained exactly when its name is confined. -/
theorem dispatch_contained (hD : Clean slash dot D) (hdst : dst = render slash D) (m : Member) :
    (∀ c ∈ dispatch dst m, Contained cwd dst c) ↔ confined dst m = true := by
  have hcompD : components slash dst = D := by rw [hdst, components_render hD]
  unfold confined
  dsimp only
  by_cases hlen : 255 ≤ dst.length
  · rw [if_pos hlen, long_contained hD hdst hlen]
    simp only [Bool.not_eq_true', ← Bool.not_eq_true, Bool.and_eq_true, decide_eq_true_eq, and_assoc]
  · rw [if_neg hlen, hcompD]
    by_cases hdeep : 64 < D.length
    · simp only [hdeep, decide_true, Bool.true_or, iff_true]
      cases m with
      | dir name => exact (dir_contained hD hdst (by omega) name).mpr fun h => by omega
      | file name content => exact (file_contained hD hdst (by omega) name content).mpr fun h => by omega
    · simp only [hdeep, decide_false, Bool.false_or]
      have hD64 : D.length ≤ 64 := by omega
      cases m with
      | dir name =>
        rw [dir_contained hD hdst (by omega) name, imp_iff_right hD64]
        by_cases hc : Cut dst (tailOf dst name)
        · rw [if_pos hc, if_pos (c := Cut dst (tailOf dst (Member.dir name).name)) hc]
          exact (stays_start hD64 _ _).symm
        · rw [if_neg hc, if_neg (c := Cut dst (tailOf dst (Member.dir name).name)) hc]
          exact (stays_start hD64 _ _).symm
      | file name content =>
        rw [file_contained hD hdst (by omega) name content, imp_iff_right hD64]
        by_cases hc : Cut dst (tailOf dst name)
        · rw [if_pos hc, if_pos (c := Cut dst (tailOf dst (Member.file name content).name)) hc]
          exact (stays_start hD64 _ _).symm
        · rw [if_neg hc, if_neg (c := Cut dst (tailOf dst (Member.file name content).name)) hc]
          exact (stays_start hD64 _ _).symm

/-- Extraction stays under its destination exactly for the archives whose members are all
confined to it. -/
theorem extract_contained_iff (hdst : Normalised slash dot dst) (img : Image) (cwd : Str) :
    (∀ n, ∀ c ∈ tarProcess img dst true n, Contained cwd dst c) ↔
      ∀ n, ∀ m ∈ members img n {}, confined dst m = true := by
  obtain ⟨D, hD, hdst⟩ := hdst
  refine forall_congr' fun n => ?_
  unfold tarProcess
  rw [if_pos rfl]
  constructor
  · intro h m hm
    rw [← dispatch_contained hD hdst]
    exact fun c hc => h c (List.mem_flatMap.mpr ⟨m, hm, hc⟩)
  · intro h c hc
    obtain ⟨m, hm, hc⟩ := List.mem_flatMap.mp hc
    exact (dispatch_contained hD hdst m).mpr (h m hm) c hc

theorem members_one {img : Image} {w w' : Walk} {m m' : Member} (hfirst : step img w = some (w', some m))
    (hsecond : step img w' = none) {n : ℕ} (hm : m' ∈ members img n w) : m' = m := by
  cases n with
  | zero => simp [members] at hm
  | succ n =>
    rw [members, hfirst] at hm
    cases n with
    | zero => simpa [members] using hm
    | succ n => simpa [members, hsecond] using hm

/-- An archive of one empty file with a name of four bytes. -/
def oneFile (name : Str) : Image where
  byte := fun i =>
    if i < 4 then name.getD i 0
    -- the checksum, in octal
    else if 148 ≤ i ∧ i < 152 then 48 + UInt8.ofNat (((name.map (·.toNat)).sum + 304) / 8 ^ (151 - i) % 8)
    else if i = 156 then 48
    else 0
  size := 512

/-- `../x` under `/a` is written to `/x`. -/
theorem dotdot_escapes : ¬ ∀ (dst : Str) (img : Image) (cwd : Str), Normalised slash dot dst →
    ∀ n, ∀ c ∈ tarProcess img dst true n, Contained cwd dst c := by
  intro h
  have hnorm : Normalised slash dot [slash, 97] :=
    ⟨[[97]], fun c hc => by
      obtain rfl := List.mem_singleton.mp hc
      exact ⟨by decide, by decide, by decide, by decide⟩, rfl⟩
  have hmem : Call.write [slash, 97, slash, dot, dot, slash, 120] [] ∈
      tarProcess (oneFile [dot, dot, slash, 120]) [slash, 97] true 1 := by decide +kernel
  have hres := h _ _ [] hnorm 1 _ hmem [slash, 120] (by decide)
  exact absurd hres (by unfold WholePrefix; decide)

/-- `ab/x` stays under `/a`. -/
theorem plain_contained : Normalised slash dot [slash, 97] ∧
    ∀ n, ∀ c ∈ tarProcess (oneFile [97, 98, slash, 120]) [slash, 97] true n, Contained [slash] [slash, 97] c := by
  have hnorm : Normalised slash dot [slash, 97] :=
    ⟨[[97]], fun c hc => by
      obtain rfl := List.mem_singleton.mp hc
      exact ⟨by decide, by decide, by decide, by decide⟩, rfl⟩
  refine ⟨hnorm, (extract_contained_iff hnorm _ _).mpr fun n m hm => ?_⟩
  have hfirst : step (oneFile [97, 98, slash, 120]) {} =
      some ({ pos := 512, entries := 1 }, some (.file [97, 98, slash, 120] [])) := by decide +kernel
  have hsecond : step (oneFile [97, 98, slash, 120]) { pos := 512, entries := 1 } = none := by decide +kernel
  rw [members_one hfirst hsecond hm]
  decide +kernel

end ComputerOS.Tar
