import Mathlib.Data.List.Basic
import Mathlib.Data.List.Infix
import Mathlib.Data.List.TakeWhile

/-!
Paths over any alphabet with a separator and a dot. A path has components; normalising
them keeps a stack of names. The text of a stack of proper names has these names as its
components again, so that stacks and normalised paths are the same thing.
-/
namespace ComputerOS.Path

variable {α : Type*} (sep : α)

def text (stack : List (List α)) : List α := stack.flatMap (sep :: ·)

/-- The path of a stack; the empty stack is the root. -/
def render (stack : List (List α)) : List α := if stack = [] then [sep] else text sep stack

variable {sep} {p : List (List α)}

@[simp]
theorem text_nil : text sep ([] : List (List α)) = [] := rfl

theorem text_cons (c : List α) (cs : List (List α)) : text sep (c :: cs) = sep :: c ++ text sep cs := by
  simp [text]

theorem text_append (p q : List (List α)) : text sep (p ++ q) = text sep p ++ text sep q := by
  simp [text]

theorem text_eq_nil : text sep p = [] ↔ p = [] := by
  cases p with
  | nil => simp
  | cons c p => simp [text_cons]

/-- The text of a stack is empty or begins with a separator. -/
theorem text_head (p : List (List α)) : text sep p = [] ∨ ∃ r, text sep p = sep :: r := by
  cases p with
  | nil => exact Or.inl rfl
  | cons c p => exact Or.inr ⟨c ++ text sep p, by simp [text_cons]⟩

theorem render_of_ne_nil (h : p ≠ []) : render sep p = text sep p := if_neg h

variable (sep) in
theorem render_head (p : List (List α)) : (render sep p).head? = some sep := by
  cases p with
  | nil => simp [render]
  | cons c p => simp [render, text_cons]

variable (sep) in
theorem length_text_of_prefix {q : List (List α)} (h : p <+: q) :
    (text sep p).length ≤ (text sep q).length := by
  obtain ⟨r, rfl⟩ := h
  rw [text_append, List.length_append]
  exact Nat.le_add_right _ _

theorem length_text_filter (f : List α → Bool) (cs : List (List α)) :
    (text sep (cs.filter f)).length ≤ (text sep cs).length := by
  induction cs with
  | nil => exact le_refl _
  | cons c cs ih =>
    rw [List.filter_cons]
    split_ifs
    · simp [text_cons]
      omega
    · simp [text_cons]
      omega

variable [DecidableEq α] (sep) (dot : α)

/-- The nonempty parts between separators. -/
def components (s : List α) : List (List α) := (s.splitOn sep).filter (· ≠ [])

/-- One component: `.` is dropped, `..` removes the last name, and any other is kept. -/
def push (stack : List (List α)) (c : List α) : List (List α) :=
  if c = [dot] then stack else if c = [dot, dot] then stack.dropLast else stack ++ [c]

def normalise (stack cs : List (List α)) : List (List α) := cs.foldl (push dot) stack

/-- A component that a normalised path may have. -/
structure IsName (c : List α) : Prop where
  ne_nil : c ≠ []
  not_mem : sep ∉ c
  ne_dot : c ≠ [dot]
  ne_up : c ≠ [dot, dot]

def Clean (stack : List (List α)) : Prop := ∀ c ∈ stack, IsName sep dot c

/-- A normalised absolute path. -/
def Normalised (s : List α) : Prop := ∃ stack, Clean sep dot stack ∧ s = render sep stack

variable {sep dot} {stack cs q : List (List α)} {s c : List α}

@[simp]
theorem components_nil : components sep ([] : List α) = [] := by
  simp [components]

/-- A separator between two paths. -/
theorem components_append_sep (s t : List α) :
    components sep (s ++ sep :: t) = components sep s ++ components sep t := by
  rw [components, List.splitOn_append_cons_self, List.filter_append]
  rfl

@[simp]
theorem components_sep_cons (s : List α) : components sep (sep :: s) = components sep s := by
  simpa using components_append_sep [] s

theorem components_of_not_mem (hne : c ≠ []) (h : sep ∉ c) : components sep c = [c] := by
  rw [components, List.splitOn_eq_singleton h]
  simp [hne]

/-- The first component of a path that begins with it. -/
theorem components_append_sep_of_not_mem (hne : c ≠ []) (h : sep ∉ c) (s : List α) :
    components sep (c ++ sep :: s) = c :: components sep s := by
  rw [components_append_sep, components_of_not_mem hne h]
  rfl

theorem not_mem_of_mem_splitOn {s c : List α} (h : c ∈ s.splitOn sep) : sep ∉ c := by
  induction s generalizing c with
  | nil =>
    obtain rfl : c = [] := by simpa using h
    simp
  | cons x s ih =>
    rw [List.splitOn_cons_eq_if_modifyHead] at h
    split_ifs at h with hx
    · rcases List.mem_cons.mp h with rfl | h
      · simp
      · exact ih h
    · cases hs : s.splitOn sep with
      | nil => exact absurd hs (List.splitOn_ne_nil sep s)
      | cons d ds =>
        rw [hs, List.modifyHead_cons] at h
        have hd : sep ∉ d := ih (by rw [hs]; exact List.mem_cons_self)
        rcases List.mem_cons.mp h with rfl | h
        · have hne : sep ≠ x := fun heq => hx (by simp [heq])
          simp [hne, hd]
        · exact ih (by rw [hs]; exact List.mem_cons_of_mem _ h)

theorem mem_components (h : c ∈ components sep s) : c ≠ [] ∧ sep ∉ c := by
  obtain ⟨hc, hne⟩ := List.mem_filter.mp h
  exact ⟨by simpa using hne, not_mem_of_mem_splitOn hc⟩

/-- A path that does not begin with a separator begins with its first component. -/
theorem exists_first {x : α} (hx : x ≠ sep) (s : List α) : ∃ w t, x :: s = w ++ t ∧ w ≠ [] ∧ sep ∉ w ∧
    (t = [] ∨ ∃ t', t = sep :: t') ∧ components sep (x :: s) = w :: components sep (t.drop 1) := by
  obtain ⟨w, hw⟩ : ∃ w, (x :: s).takeWhile (· ≠ sep) = w := ⟨_, rfl⟩
  obtain ⟨t, ht⟩ : ∃ t, (x :: s).dropWhile (· ≠ sep) = t := ⟨_, rfl⟩
  have happ : x :: s = w ++ t := by rw [← hw, ← ht, List.takeWhile_append_dropWhile]
  have hne : w ≠ [] := by
    rw [← hw, List.takeWhile_cons_of_pos (by simpa using hx)]
    exact List.cons_ne_nil _ _
  have hnot : sep ∉ w := by
    intro hmem
    rw [← hw] at hmem
    have := List.mem_takeWhile_imp hmem
    simp at this
  have htail : t = [] ∨ ∃ t', t = sep :: t' := by
    cases t with
    | nil => exact Or.inl rfl
    | cons y t =>
      have hhead := List.head?_dropWhile_not (fun z => decide (z ≠ sep)) (x :: s)
      rw [ht] at hhead
      exact Or.inr ⟨t, by rw [show y = sep by simpa using hhead]⟩
  refine ⟨w, t, happ, hne, hnot, htail, ?_⟩
  rw [happ]
  rcases htail with rfl | ⟨t, rfl⟩
  · simpa using components_of_not_mem hne hnot
  · exact components_append_sep_of_not_mem hne hnot t

/-- The first components of a path end where one of them ends. -/
theorem exists_split_of_prefix {ds : List (List α)} (h : ds <+: components sep s) (hne : ds ≠ []) :
    ∃ q r, s = q ++ r ∧ (r = [] ∨ ∃ r', r = sep :: r') ∧ components sep q = ds ∧ q.getLast? ≠ some sep := by
  induction hlen : s.length using Nat.strong_induction_on generalizing s ds with
  | _ n ih =>
    cases s with
    | nil => exact absurd (List.prefix_nil.mp (by simpa using h)) hne
    | cons x s =>
      rw [List.length_cons] at hlen
      by_cases hx : x = sep
      · subst hx
        rw [components_sep_cons] at h
        obtain ⟨q, r, hqr, hr, hq, hlast⟩ := ih s.length (by omega) h hne rfl
        refine ⟨x :: q, r, by rw [hqr, List.cons_append], hr, by rw [components_sep_cons, hq], ?_⟩
        cases q with
        | nil => exact absurd (by simpa using hq.symm) hne
        | cons y q => rwa [List.getLast?_cons_cons]
      · obtain ⟨w, t, hwt, hw, hnot, ht, hcomps⟩ := exists_first hx s
        rw [hcomps] at h
        obtain ⟨ds, rfl⟩ : ∃ ds', ds = w :: ds' := by
          cases ds with
          | nil => exact absurd rfl hne
          | cons d ds => exact ⟨ds, by rw [(List.cons_prefix_cons.mp h).1]⟩
        have hwlast : w.getLast? ≠ some sep := fun hl => hnot (List.mem_of_getLast? hl)
        have hds := (List.cons_prefix_cons.mp h).2
        by_cases hnil : ds = []
        · exact ⟨w, t, hwt, ht, by rw [components_of_not_mem hw hnot, hnil], hwlast⟩
        · rcases ht with rfl | ⟨t, rfl⟩
          · exact absurd (List.prefix_nil.mp (by simpa using hds)) hnil
          · have hshort : t.length < n := by
              have := congrArg List.length hwt
              simp only [List.length_cons, List.length_append] at this
              omega
            obtain ⟨q, r, hqr, hr, hq, hlast⟩ := ih t.length hshort hds hnil rfl
            refine ⟨w ++ sep :: q, r, ?_, hr, ?_, ?_⟩
            · rw [hwt, show t = q ++ r from hqr, List.append_assoc, List.cons_append]
            · rw [components_append_sep_of_not_mem hw hnot, hq]
            · cases q with
              | nil => exact absurd (by simpa using hq.symm) hnil
              | cons y q =>
                rw [List.getLast?_append_of_ne_nil _ (List.cons_ne_nil _ _), List.getLast?_cons_cons]
                exact hlast

/-- Names can be read back from their text, whatever follows a separator. -/
theorem components_text_append (h : Clean sep dot p) (s : List α) :
    components sep (text sep p ++ sep :: s) = p ++ components sep s := by
  induction p with
  | nil => simp
  | cons c p ih =>
    have hc := h c List.mem_cons_self
    have ih := ih fun d hd => h d (List.mem_cons_of_mem _ hd)
    rw [text_cons, List.cons_append, List.cons_append, components_sep_cons, List.append_assoc]
    cases p with
    | nil => simpa using components_append_sep_of_not_mem hc.ne_nil hc.not_mem s
    | cons d p =>
      rw [text_cons, List.cons_append, List.cons_append,
        components_append_sep_of_not_mem hc.ne_nil hc.not_mem]
      rw [text_cons, List.cons_append, List.cons_append, components_sep_cons] at ih
      rw [ih, List.cons_append, List.cons_append, List.cons_append]

theorem components_text (h : Clean sep dot p) : components sep (text sep p) = p := by
  have happ := components_text_append h []
  rw [components_append_sep, components_nil, List.append_nil, List.append_nil] at happ
  exact happ

theorem components_render (h : Clean sep dot p) : components sep (render sep p) = p := by
  rw [render]
  split_ifs with hp
  · simp [hp]
  · exact components_text h

/-- Different stacks of names have different paths. -/
theorem render_inj (hp : Clean sep dot p) (hq : Clean sep dot q) (h : render sep p = render sep q) : p = q := by
  rw [← components_render hp, h, components_render hq]

/-- A stack is a prefix of another when its text is, up to the end or a separator. -/
theorem prefix_iff_text (hp : Clean sep dot p) (hq : Clean sep dot q) (hne : p ≠ []) :
    p <+: q ↔ ∃ r, render sep q = text sep p ++ r ∧ (r = [] ∨ ∃ r', r = sep :: r') := by
  constructor
  · rintro ⟨r, rfl⟩
    refine ⟨text sep r, ?_, text_head r⟩
    rw [render_of_ne_nil (by simp [hne]), text_append]
  · rintro ⟨r, heq, rfl | ⟨r, rfl⟩⟩
    · rw [List.append_nil] at heq
      have h : q = p := by rw [← components_render hq, heq, components_text hp]
      rw [h]
    · have h : q = p ++ components sep r := by
        rw [← components_render hq, heq, components_text_append hp]
      rw [h]
      exact List.prefix_append _ _

theorem normalise_append (stack p q : List (List α)) :
    normalise dot stack (p ++ q) = normalise dot (normalise dot stack p) q := List.foldl_append

theorem push_clean (hs : Clean sep dot stack) (hc : c ≠ [] ∧ sep ∉ c) : Clean sep dot (push dot stack c) := by
  intro d hd
  rw [push] at hd
  split_ifs at hd with h1 h2
  · exact hs d hd
  · exact hs d (List.mem_of_mem_dropLast hd)
  · rcases List.mem_append.mp hd with hd | hd
    · exact hs d hd
    · obtain rfl := List.mem_singleton.mp hd
      exact ⟨hc.1, hc.2, h1, h2⟩

/-- Normalising leaves proper names only. -/
theorem normalise_clean (hs : Clean sep dot stack) (hcs : ∀ c ∈ cs, c ≠ [] ∧ sep ∉ c) :
    Clean sep dot (normalise dot stack cs) := by
  induction cs generalizing stack with
  | nil => exact hs
  | cons c cs ih =>
    exact ih (push_clean hs (hcs c List.mem_cons_self)) fun d hd => hcs d (List.mem_cons_of_mem _ hd)

theorem push_name (h : IsName sep dot c) (stack : List (List α)) : push dot stack c = stack ++ [c] := by
  rw [push, if_neg h.ne_dot, if_neg h.ne_up]

/-- Proper names are all kept. -/
theorem normalise_of_clean (h : Clean sep dot cs) (stack : List (List α)) :
    normalise dot stack cs = stack ++ cs := by
  induction cs generalizing stack with
  | nil => simp [normalise]
  | cons c cs ih =>
    have ih := ih (fun d hd => h d (List.mem_cons_of_mem _ hd)) (stack ++ [c])
    change normalise dot (push dot stack c) cs = _
    rw [push_name (h c List.mem_cons_self), ih, List.append_assoc]
    rfl

/-- On the way through proper names the stacks are prefixes of the last. -/
theorem scanl_isPrefix (h : Clean sep dot cs) {t : List (List α)} (ht : t ∈ cs.scanl (push dot) stack) :
    t <+: stack ++ cs := by
  induction cs generalizing stack with
  | nil =>
    obtain rfl : t = stack := by simpa using ht
    simp
  | cons c cs ih =>
    rw [List.scanl_cons] at ht
    rcases List.mem_cons.mp ht with rfl | ht
    · exact List.prefix_append _ _
    · rw [push_name (h c List.mem_cons_self)] at ht
      simpa using ih (fun d hd => h d (List.mem_cons_of_mem _ hd)) ht

/-- The stacks on the way are those of the first components. -/
theorem mem_scanl_iff {t : List (List α)} :
    t ∈ cs.scanl (push dot) stack ↔ ∃ ds, ds <+: cs ∧ t = normalise dot stack ds := by
  induction cs generalizing stack with
  | nil =>
    constructor
    · intro ht
      exact ⟨[], List.prefix_rfl, by simpa [normalise] using ht⟩
    · rintro ⟨ds, hds, rfl⟩
      rw [List.prefix_nil.mp hds]
      simp [normalise]
  | cons c cs ih =>
    rw [List.scanl_cons, List.mem_cons, ih]
    constructor
    · rintro (rfl | ⟨ds, hds, rfl⟩)
      · exact ⟨[], List.nil_prefix, rfl⟩
      · exact ⟨c :: ds, List.cons_prefix_cons.mpr ⟨rfl, hds⟩, rfl⟩
    · rintro ⟨ds, hds, rfl⟩
      cases ds with
      | nil => exact Or.inl rfl
      | cons d ds =>
        obtain ⟨rfl, hds'⟩ := List.cons_prefix_cons.mp hds
        exact Or.inr ⟨ds, hds', rfl⟩

/-- Every directory above a normalised path is met on the way. -/
theorem exists_prefix_normalise (h : q <+: normalise dot [] cs) : ∃ ds, ds <+: cs ∧ normalise dot [] ds = q := by
  induction cs using List.reverseRecOn with
  | nil => exact ⟨[], List.prefix_rfl, (List.prefix_nil.mp h).symm⟩
  | append_singleton cs c ih =>
    have hearlier : q <+: normalise dot [] cs → ∃ ds, ds <+: cs ++ [c] ∧ normalise dot [] ds = q := by
      intro hq
      obtain ⟨ds, hds, hnorm⟩ := ih hq
      exact ⟨ds, hds.trans (List.prefix_append _ _), hnorm⟩
    have hlast : normalise dot [] (cs ++ [c]) = push dot (normalise dot [] cs) c := by
      rw [normalise_append]
      rfl
    rw [hlast, push] at h
    split_ifs at h with hdot hup
    · exact hearlier h
    · exact hearlier (h.trans (List.dropLast_prefix _))
    · obtain heq | hpre := List.prefix_concat_iff.mp h
      · refine ⟨cs ++ [c], List.prefix_rfl, ?_⟩
        rw [hlast, push, if_neg hdot, if_neg hup, heq]
      · exact hearlier hpre

variable (sep dot) in
theorem length_text_push (stack : List (List α)) (c : List α) :
    (text sep (push dot stack c)).length ≤ (text sep stack).length + (c.length + 1) := by
  rw [push]
  split_ifs
  · omega
  · have := length_text_of_prefix sep stack.dropLast_prefix
    omega
  · rw [text_append, List.length_append]
    simp [text]

variable (sep dot) in
/-- Normalising makes no path longer. -/
theorem length_text_normalise (stack cs : List (List α)) :
    (text sep (normalise dot stack cs)).length ≤ (text sep stack).length + (text sep cs).length := by
  induction cs generalizing stack with
  | nil => simp [normalise]
  | cons c cs ih =>
    have h1 := ih (push dot stack c)
    have h2 := length_text_push sep dot stack c
    have h3 : (text sep (c :: cs)).length = c.length + 1 + (text sep cs).length := by
      simp [text_cons]
      omega
    change (text sep (normalise dot (push dot stack c) cs)).length ≤ _
    omega

variable (sep) in
theorem length_text_splitOn (s : List α) : (text sep (s.splitOn sep)).length = s.length + 1 := by
  induction s with
  | nil => simp [text]
  | cons x s ih =>
    rw [List.splitOn_cons_eq_if_modifyHead]
    split_ifs
    · simp [text_cons, ih]
    · cases hs : s.splitOn sep with
      | nil => exact absurd hs (List.splitOn_ne_nil sep s)
      | cons d ds =>
        rw [hs] at ih
        rw [List.modifyHead_cons]
        simp [text_cons] at ih ⊢
        omega

variable (sep) in
theorem length_text_components (s : List α) : (text sep (components sep s)).length ≤ s.length + 1 := by
  rw [← length_text_splitOn sep s]
  exact length_text_filter _ _

end ComputerOS.Path
