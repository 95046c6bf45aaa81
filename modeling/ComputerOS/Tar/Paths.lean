import ComputerOS.Tar.Model
import ComputerOS.Vfs.Routing

/-!
The paths of an extraction: what the joined path of a member looks like, which prefixes of it
`mkdir_p` passes on, and what an absolute path resolves to.
-/
namespace ComputerOS.Tar

open ComputerOS.Path Vfs

/-- No stack on the way through `cs` is deeper than `vfs_resolve` goes. -/
def Shallow (stack cs : List Str) : Prop := ∀ t ∈ cs.scanl (push dot) stack, t.length ≤ 64

variable {cwd q r : Str}

theorem components_joined_of_head (hq : q.head? = some slash) :
    components slash (joined cwd q) = components slash q ∧ (joined cwd q).length = q.length + 1 := by
  have hjoined : joined cwd q = slash :: q := by
    rw [joined, if_pos hq]
    rfl
  rw [hjoined, components_sep_cons]
  exact ⟨rfl, rfl⟩

/-- An absolute path resolves when it has at most 254 bytes and is never too deep. -/
theorem vfsResolve_absolute (hq : q.head? = some slash) : vfsResolve cwd q 256 = some r ↔
    q.length ≤ 254 ∧ Shallow [] (components slash q) ∧
      r = render slash (normalise dot [] (components slash q)) := by
  obtain ⟨hcomps, hlen⟩ := components_joined_of_head hq
  have hfinal : final cwd q = normalise dot [] (components slash q) := by rw [final, hcomps]
  have hstacks : nameStacks cwd q = (components slash q).scanl (push dot) [] := by rw [nameStacks, hcomps]
  constructor
  · intro h
    obtain ⟨hs, hr⟩ := vfsResolve_eq_some h
    have hjoined := hs.joined
    refine ⟨by omega, fun t ht => (hs.accepts t (hstacks ▸ ht)).1, by rw [hr, hfinal]⟩
  · rintro ⟨hshort, hshallow, rfl⟩
    have hs : Succeeds cwd q 256 := by
      refine ⟨by omega, fun t ht => ?_, fun _ => by omega⟩
      rw [hstacks] at ht
      refine ⟨hshallow t ht, Or.inr ?_⟩
      obtain ⟨ds, hds, rfl⟩ := mem_scanl_iff.mp ht
      have h1 := length_text_normalise slash dot [] ds
      have h2 := length_text_of_prefix slash hds
      have h3 : (Path.text slash (components slash q)).length ≤ q.length := by
        cases q with
        | nil => cases hq
        | cons x q =>
          obtain rfl : x = slash := by simpa using hq
          rw [components_sep_cons]
          exact length_text_components slash q
      rw [text_nil, List.length_nil] at h1
      omega
    rw [vfsResolve_of_succeeds hs, hfinal]

theorem stripRev_spec (s : Str) : ∃ n, s = List.replicate n slash ++ stripRev s ∧
    ((stripRev s).length ≤ 1 ∨ (stripRev s).head? ≠ some slash) ∧ (s ≠ [] → stripRev s ≠ []) := by
  induction s with
  | nil => exact ⟨0, rfl, Or.inl (by simp [stripRev]), fun h => absurd rfl h⟩
  | cons c s ih =>
    cases s with
    | nil => exact ⟨0, rfl, Or.inl (by simp [stripRev]), fun _ => by simp [stripRev]⟩
    | cons d s =>
      by_cases hc : c = slash
      · obtain ⟨n, hs, hend, hne⟩ := ih
        rw [stripRev, if_pos hc]
        exact ⟨n + 1, by rw [List.replicate_succ, List.cons_append, ← hs, hc], hend,
          fun _ => hne (List.cons_ne_nil _ _)⟩
      · rw [stripRev, if_neg hc]
        exact ⟨0, rfl, Or.inr (by simpa using hc), fun _ => List.cons_ne_nil _ _⟩

theorem strip_spec (s : Str) : ∃ n, s = strip s ++ List.replicate n slash ∧
    ((strip s).length ≤ 1 ∨ (strip s).getLast? ≠ some slash) ∧ (s ≠ [] → strip s ≠ []) := by
  obtain ⟨n, hs, hend, hne⟩ := stripRev_spec s.reverse
  refine ⟨n, ?_, ?_, fun h => ?_⟩
  · have := congrArg List.reverse hs
    rw [List.reverse_reverse, List.reverse_append, List.reverse_replicate] at this
    exact this
  · rw [strip, List.length_reverse, List.getLast?_reverse]
    exact hend
  · rw [strip, Ne, List.reverse_eq_nil_iff]
    exact hne (by simpa using h)

theorem strip_of_getLast {s : Str} (h : s.getLast? ≠ some slash) : strip s = s := by
  obtain ⟨n, hs, -, -⟩ := strip_spec s
  cases n with
  | zero => simpa using hs.symm
  | succ n =>
    rw [hs, List.replicate_succ', ← List.append_assoc, List.getLast?_concat] at h
    exact absurd rfl h

theorem components_append_slashes (s : Str) (n : ℕ) :
    components slash (s ++ List.replicate n slash) = components slash s := by
  induction n with
  | zero => simp
  | succ n ih =>
    rw [List.replicate_succ', ← List.append_assoc, components_append_sep, ih, components_nil, List.append_nil]

theorem components_strip (s : Str) : components slash (strip s) = components slash s := by
  obtain ⟨n, hs, -, -⟩ := strip_spec s
  rw [← components_append_slashes (strip s) n, ← hs]

theorem head?_strip (s : Str) : (strip s).head? = s.head? := by
  obtain ⟨n, hs, -, hne⟩ := strip_spec s
  by_cases h : s = []
  · rw [h]
    rfl
  · have hhead := congrArg List.head? hs
    rw [List.head?_append_of_ne_nil _ (hne h)] at hhead
    exact hhead.symm

/-- A normalised path ends in a slash only when it is the root. -/
theorem strip_render {stack : List Str} (h : Clean slash dot stack) : strip (render slash stack) =
    render slash stack := by
  rcases List.eq_nil_or_concat stack with rfl | ⟨l, c, rfl⟩
  · rfl
  · apply strip_of_getLast
    rw [List.concat_eq_append] at h ⊢
    have hc := h c (by simp)
    rw [render_of_ne_nil (by simp), text_append]
    have htext : Path.text slash [c] = slash :: c := by simp [Path.text]
    rw [htext, List.getLast?_append_of_ne_nil _ (List.cons_ne_nil _ _), List.getLast?_cons_of_ne_nil hc.ne_nil]
    intro hlast
    exact hc.not_mem (List.mem_of_getLast? hlast)

/-- `r` is what follows when a path is cut where a component ends. -/
def Boundary (r : Str) : Prop := r = [] ∨ ∃ r', r = slash :: r'

theorem put_of_lt {buf : Str} (h : buf.length < 255) (c : UInt8) : put buf c = buf ++ [c] := if_pos h

/-- The loop passes on the path up to ends of components only. -/
theorem mem_mkdirLoop {buf rest : Str} (hlen : buf.length + rest.length ≤ 255) (h : q ∈ mkdirLoop buf rest) :
    1 < q.length ∧ ∃ r, buf ++ rest = q ++ r ∧ Boundary r := by
  induction rest generalizing buf with
  | nil =>
    rw [mkdirLoop] at h
    split at h
    · rename_i hlong
      obtain rfl := List.mem_singleton.mp h
      exact ⟨hlong, [], rfl, Or.inl rfl⟩
    · cases h
  | cons c rest ih =>
    rw [List.length_cons] at hlen
    have hput : ∀ x, (put buf x).length + rest.length ≤ 255 := by
      intro x
      rw [put_of_lt (by omega), List.length_append, List.length_singleton]
      omega
    rw [mkdirLoop] at h
    by_cases hc : c = slash
    · rw [if_pos hc] at h
      rcases List.mem_append.mp h with h | h
      · split at h
        · rename_i hlong
          obtain rfl := List.mem_singleton.mp h
          exact ⟨hlong, c :: rest, rfl, Or.inr ⟨rest, by rw [hc]⟩⟩
        · cases h
      · split at h
        · cases h
        · obtain ⟨hlong, r, hr, hb⟩ := ih (hput slash) h
          refine ⟨hlong, r, ?_, hb⟩
          rw [← hr, put_of_lt (by omega), List.append_assoc, List.singleton_append, hc]
    · rw [if_neg hc] at h
      obtain ⟨hlong, r, hr, hb⟩ := ih (hput c) h
      refine ⟨hlong, r, ?_, hb⟩
      rw [← hr, put_of_lt (by omega), List.append_assoc, List.singleton_append]

/-- The loop passes on the path up to every end of a component. -/
theorem mkdirLoop_mem {buf a b : Str} (hlen : buf.length + (a ++ b).length ≤ 255) (hb : Boundary b)
    (ha : a.getLast? ≠ some slash) (hlong : 1 < (buf ++ a).length) : buf ++ a ∈ mkdirLoop buf (a ++ b) := by
  induction a generalizing buf with
  | nil =>
    rw [List.append_nil] at hlong ⊢
    rw [List.nil_append]
    rcases hb with rfl | ⟨b, rfl⟩
    · rw [mkdirLoop, if_pos hlong]
      exact List.mem_singleton_self _
    · rw [mkdirLoop, if_pos rfl, if_pos hlong]
      exact List.mem_append_left _ (List.mem_singleton_self _)
  | cons c a ih =>
    rw [List.cons_append, List.length_cons] at hlen
    have hput : ∀ x, put buf x = buf ++ [x] := fun x => put_of_lt (by omega) x
    have hstep : (buf ++ [c]) ++ a ∈ mkdirLoop (buf ++ [c]) (a ++ b) := by
      refine ih (by rw [List.length_append, List.length_singleton]; omega) ?_ ?_
      · cases a with
        | nil => simp
        | cons d a => rwa [List.getLast?_cons_cons] at ha
      · rw [List.append_assoc, List.singleton_append]
        exact hlong
    rw [List.append_assoc, List.singleton_append] at hstep
    rw [List.cons_append, mkdirLoop]
    by_cases hc : c = slash
    · rw [if_pos hc]
      have hne : a ++ b ≠ [] := by
        intro hnil
        obtain ⟨rfl, -⟩ := List.append_eq_nil_iff.mp hnil
        exact ha (by simp [hc])
      rw [if_neg hne, hput, ← hc]
      exact List.mem_append_right _ hstep
    · rw [if_neg hc, hput]
      exact hstep

variable {p : Str}

theorem mem_mkdirP (hp : p.head? = some slash) (hlen : p.length ≤ 255) (h : q ∈ mkdirP p) :
    q.head? = some slash ∧ ∃ r, p = q ++ r ∧ Boundary r := by
  obtain ⟨rest, rfl⟩ : ∃ rest, p = slash :: rest := by
    cases p with
    | nil => cases hp
    | cons x p => exact ⟨p, by rw [show x = slash by simpa using hp]⟩
  rw [mkdirP] at h
  simp only [List.head?_cons, if_true, List.tail_cons] at h
  split at h
  · cases h
  · rw [List.length_cons] at hlen
    obtain ⟨hlong, r, hr, hb⟩ := mem_mkdirLoop (by rw [List.length_singleton]; omega) h
    refine ⟨?_, r, hr, hb⟩
    cases q with
    | nil => simp at hlong
    | cons x q => exact congrArg some (List.cons.inj hr).1.symm

theorem mkdirP_mem (hp : p.head? = some slash) (hlen : p.length ≤ 255) {cs : List Str}
    (hcs : cs <+: components slash p) (hne : cs ≠ []) : ∃ q ∈ mkdirP p, components slash q = cs := by
  obtain ⟨rest, rfl⟩ : ∃ rest, p = slash :: rest := by
    cases p with
    | nil => cases hp
    | cons x p => exact ⟨p, by rw [show x = slash by simpa using hp]⟩
  rw [components_sep_cons] at hcs
  obtain ⟨a, b, rfl, hb, ha, hlast⟩ := exists_split_of_prefix hcs hne
  have hane : a ≠ [] := by
    rintro rfl
    exact hne (by simpa using ha.symm)
  refine ⟨slash :: a, ?_, by rw [components_sep_cons, ha]⟩
  rw [mkdirP]
  simp only [List.head?_cons, if_true, List.tail_cons]
  rw [if_neg (by simp [hane])]
  rw [List.length_cons] at hlen
  refine mkdirLoop_mem (by rw [List.length_singleton]; omega) hb hlast ?_
  rw [List.length_append, List.length_singleton]
  have := List.length_pos_of_ne_nil hane
  omega

theorem exists_last_slash (hp : slash ∈ p) : ∃ a b, p = a ++ slash :: b ∧ slash ∉ b ∧
    (p.reverse.dropWhile (· ≠ slash)).reverse = a ++ [slash] := by
  obtain ⟨w, hw⟩ : ∃ w, p.reverse.takeWhile (· ≠ slash) = w := ⟨_, rfl⟩
  obtain ⟨t, ht⟩ : ∃ t, p.reverse.dropWhile (· ≠ slash) = t := ⟨_, rfl⟩
  have happ : p.reverse = w ++ t := by rw [← hw, ← ht, List.takeWhile_append_dropWhile]
  have hnot : slash ∉ w := by
    intro hmem
    rw [← hw] at hmem
    have := List.mem_takeWhile_imp hmem
    simp at this
  cases t with
  | nil =>
    rw [List.append_nil] at happ
    rw [← happ, List.mem_reverse] at hnot
    exact absurd hp hnot
  | cons x t =>
    have hhead := List.head?_dropWhile_not (fun z => decide (z ≠ slash)) p.reverse
    rw [ht] at hhead
    obtain rfl : x = slash := by simpa using hhead
    refine ⟨t.reverse, w.reverse, ?_, by simpa using hnot, by rw [ht, List.reverse_cons]⟩
    have := congrArg List.reverse happ
    simpa using this

theorem parentOf_spec (hp : p.head? = some slash) (hlast : p.length ≤ 1 ∨ p.getLast? ≠ some slash) :
    (∃ par b, parentOf p = some par ∧ par.head? = some slash ∧ p = par ++ slash :: b ∧
      components slash par = (components slash p).dropLast) ∨
    parentOf p = none ∧ (components slash p).dropLast = [] := by
  obtain ⟨a, b, hab, hb, hup⟩ := exists_last_slash (List.mem_of_mem_head? hp)
  have hdrop : (components slash p).dropLast = components slash a := by
    rw [hab, components_append_sep]
    rcases hlast with hone | hlast
    · have hlen := congrArg List.length hab
      rw [List.length_append, List.length_cons] at hlen
      have ha : a = [] := List.length_eq_zero_iff.mp (by omega)
      have hbnil : b = [] := List.length_eq_zero_iff.mp (by omega)
      rw [ha, hbnil]
      simp
    · have hbne : b ≠ [] := by
        rintro rfl
        exact hlast (by rw [hab]; simp)
      rw [components_of_not_mem hbne hb, List.dropLast_concat]
  unfold parentOf
  dsimp only
  rw [hup, hdrop]
  by_cases ha : a = []
  · right
    rw [ha]
    simp
  · left
    have hlen := List.length_pos_of_ne_nil ha
    refine ⟨a, b, ?_, ?_, hab, rfl⟩
    · rw [if_pos (by simp; omega), List.dropLast_concat]
    · rw [hab, List.head?_append_of_ne_nil _ ha] at hp
      exact hp

/-- What is left of a member's name after the destination: slashes at the front are dropped, and
the whole path is cut to 255 bytes. -/
def tailOf (dst name : Str) : Str := (name.dropWhile (· = slash)).take (254 - dst.length)

/-- The joined path fills its buffer, so that its last component may be cut short and nothing
resolves it. -/
def Cut (dst tail : Str) : Prop := tail ≠ [] ∧ dst.length + tail.length = 254 ∧ tail.getLast? ≠ some slash

instance (dst tail : Str) : Decidable (Cut dst tail) := inferInstanceAs (Decidable (_ ∧ _ ∧ _))

variable {D : List Str} {dst name : Str}

theorem joinPath_short (hD : Clean slash dot D) (hdst : dst = render slash D) (hlen : dst.length ≤ 254) (name : Str) :
    joinPath dst name 256 = strip (dst ++ slash :: tailOf dst name) := by
  unfold joinPath tailOf
  dsimp only
  rw [List.take_of_length_le (by omega), hdst, strip_render hD, ← hdst, if_pos (by omega),
    List.append_assoc, List.singleton_append, List.length_append, List.length_singleton,
    show 256 - 1 - (dst.length + 1) = 254 - dst.length by omega]

theorem components_joinPath (hD : Clean slash dot D) (hdst : dst = render slash D)
    (hlen : dst.length ≤ 254) (name : Str) :
    components slash (joinPath dst name 256) = D ++ components slash (tailOf dst name) := by
  rw [joinPath_short hD hdst hlen, components_strip, components_append_sep, hdst, components_render hD]

theorem length_tailOf (dst name : Str) : (tailOf dst name).length ≤ 254 - dst.length := List.length_take_le _ _

theorem length_strip_le (s : Str) : (strip s).length ≤ s.length := by
  obtain ⟨n, hs, -, -⟩ := strip_spec s
  have := congrArg List.length hs
  rw [List.length_append] at this
  omega

/-- The joined path has 255 bytes exactly when it was cut. -/
theorem length_joinPath (hD : Clean slash dot D) (hdst : dst = render slash D) (hlen : dst.length ≤ 254) (name : Str) :
    (joinPath dst name 256).length ≤ 255 ∧
      (255 ≤ (joinPath dst name 256).length ↔ Cut dst (tailOf dst name)) := by
  rw [joinPath_short hD hdst hlen]
  have htail := length_tailOf dst name
  generalize tailOf dst name = tail at htail ⊢
  have hs : (dst ++ slash :: tail).length = dst.length + 1 + tail.length := by
    rw [List.length_append, List.length_cons]
    omega
  have hle := length_strip_le (dst ++ slash :: tail)
  refine ⟨by omega, fun hlong => ?_, fun hcut => ?_⟩
  · obtain ⟨n, heq, hend, -⟩ := strip_spec (dst ++ slash :: tail)
    have hn : n = 0 := by
      have := congrArg List.length heq
      rw [@List.length_append _ _ (List.replicate n slash), List.length_replicate] at this
      omega
    rw [hn, List.replicate_zero, List.append_nil] at heq
    rcases hend with hend | hend
    · omega
    · rw [← heq] at hend
      have hne : tail ≠ [] := by
        rintro rfl
        exact hend (by simp)
      refine ⟨hne, by omega, ?_⟩
      rwa [List.getLast?_append_of_ne_nil _ (List.cons_ne_nil _ _), List.getLast?_cons_of_ne_nil hne] at hend
  · obtain ⟨hne, hfull, hlast⟩ := hcut
    rw [strip_of_getLast]
    · omega
    · rwa [List.getLast?_append_of_ne_nil _ (List.cons_ne_nil _ _), List.getLast?_cons_of_ne_nil hne]

theorem joinPath_ends (hD : Clean slash dot D) (hdst : dst = render slash D) (hlen : dst.length ≤ 254) (name : Str) :
    (joinPath dst name 256).head? = some slash ∧
      ((joinPath dst name 256).length ≤ 1 ∨ (joinPath dst name 256).getLast? ≠ some slash) := by
  rw [joinPath_short hD hdst hlen]
  refine ⟨?_, ?_⟩
  · have hhead := render_head slash D
    rw [← hdst] at hhead
    rw [head?_strip]
    cases dst with
    | nil => cases hhead
    | cons x dst => exact hhead
  · obtain ⟨n, -, hend, -⟩ := strip_spec (dst ++ slash :: tailOf dst name)
    exact hend

end ComputerOS.Tar
