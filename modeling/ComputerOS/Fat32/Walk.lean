import ComputerOS.Fat32.Steps

/-!
Where a path leads, with enough heap, and that an entry made under another name does not change
it.
-/
namespace ComputerOS.Fat32

open Function Fallible

variable {g : Geom} {v v' : Vol} {n cwd d e x : ℕ} {A comp path : Str} {comps : List Str} {u w new : Visit}
  {old : Option Visit} {D X O N : List ℕ}

/-- The directory that a component leads to. -/
def compDir (g : Geom) (v : Vol) (n dir : ℕ) (comp : Str) : Option ℕ :=
  if comp = [46] then some dir
  else if comp = [46, 46] then
    match resolveFinds g v n dir comp with
    | none => some 0
    | some w =>
      some (if entryCluster w.entry = g.rootCluster ∨
        entryCluster w.entry = 0 then 0 else entryCluster w.entry)
  else
    match resolveFinds g v n dir comp with
    | none => none
    | some w =>
        if isDirectory w.entry then some (if entryCluster w.entry = g.rootCluster then 0 else entryCluster w.entry)
        else none

theorem resolveComponent_full (comp : Str) : (resolveComponent g n d comp).run (full v cwd) =
    (compDir g v n d comp, full v cwd) := by
  unfold resolveComponent compDir
  by_cases h1 : comp = [46]
  · rw [if_pos h1, if_pos h1]
    rfl
  rw [if_neg h1, if_neg h1, bind_of_some (lookup_full _)]
  by_cases h2 : comp = [46, 46]
  · rw [if_pos h2, if_pos h2]
    cases resolveFinds g v n d comp <;> rfl
  rw [if_neg h2, if_neg h2]
  cases resolveFinds g v n d comp with
  | none => rfl
  | some w =>
    dsimp only
    cases isDirectory w.entry <;> rfl

theorem foldlM_full (comps : List Str) (d : ℕ) : (comps.foldlM (resolveComponent g n) d).run
    (full v cwd) = (comps.foldlM (compDir g v n) d, full v cwd) := by
  induction comps generalizing d with
  | nil => rfl
  | cons comp comps ih =>
    rw [List.foldlM_cons, List.foldlM_cons, bind_run, resolveComponent_full]
    cases compDir g v n d comp with
    | none => rfl
    | some x => exact ih x

/-- The last name of a path. -/
def baseOf (path : Str) : Str := (path.reverse.takeWhile (· ≠ 47)).reverse

def parentPath (path : Str) : Str :=
  let slash := path.length - (baseOf path).length - 1
  path.take (if 0 < slash then slash else 1)

def parentComps (path : Str) : List Str := if 47 ∈ path then walked (parentPath path) else []

/-- Where the walk to the parent directory begins. -/
def parentStart (cwd : ℕ) (path : Str) : ℕ := if 47 ∈ path ∧ (parentPath path).head? = some 47 then 0 else cwd

/-- The parent directory of a path and its last name. -/
def parentOf (g : Geom) (v : Vol) (n cwd : ℕ) (path : Str) : Option (ℕ × Str) :=
  if 47 ∈ path ∧ 256 ≤ (let slash := path.length - (baseOf path).length - 1; if 0 < slash then slash else 1) then none
  else ((parentComps path).foldlM (compDir g v n) (parentStart cwd path)).map fun p =>
    (p, if 47 ∈ path then (baseOf path).take 255 else path.take 255)

theorem resolveParent_full (path : Str) : (resolveParent g n path).run (full v cwd) =
    (parentOf g v n cwd path, full v cwd) := by
  have hget : (Fallible.get : M St).run (full v cwd) = (some (full v cwd), full v cwd) := rfl
  have hcwd : (full v cwd).cwd = cwd := rfl
  unfold resolveParent parentOf parentComps parentStart
  rw [bind_of_some hget, hcwd]
  by_cases hslash : 47 ∈ path
  · rw [if_pos hslash, if_pos hslash, if_pos hslash]
    simp only [hslash, true_and]
    by_cases hlong : 256 ≤ (let slash := path.length - (baseOf path).length - 1; if 0 < slash then slash else 1)
    · rw [if_pos hlong]
      exact congrFun (congrArg run (if_pos hlong)) _
    · rw [if_neg hlong]
      refine (congrFun (congrArg run (if_neg hlong)) _).trans ?_
      have hdir : (resolveDir g n (parentPath path)).run (full v cwd) =
          ((walked (parentPath path)).foldlM (compDir g v n)
          (if (parentPath path).head? = some 47 then 0 else cwd), full v cwd) := by
        rw [resolveDir, bind_of_some hget, foldlM_full, hcwd]
      change (resolveDir g n (parentPath path) >>= fun parent =>
        pure (parent, (baseOf path).take 255)).run (full v cwd) = _
      rw [bind_run, hdir]
      cases (walked (parentPath path)).foldlM (compDir g v n)
        (if (parentPath path).head? = some 47 then 0 else cwd) <;> rfl
  · simp only [hslash, false_and, if_false]
    rfl

/-- Every directory on a walk is in the tree. -/
def Inside (g : Geom) (v : Vol) (n e : ℕ) (comps : List Str) : Prop :=
  ∀ pre post x, comps = pre ++ post → pre.foldlM (compDir g v n) e = some x → IsDir g v n x

/-- No entry made for the name `A` is found for the component. -/
def NotCaught (A comp : Str) : Prop :=
  build83 comp ≠ build83 A ∧ (∀ t, build83 comp ≠ build83Tail A t) ∧
  (comp.take 255).map lower ≠ A.map lower

/-- No component that is looked up in directory `d` finds an entry made for the name `A`. -/
def Clear (g : Geom) (v : Vol) (n e d : ℕ) (A : Str) (comps : List Str) : Prop :=
  ∀ pre comp post, comps = pre ++ comp :: post → pre.foldlM (compDir g v n) e = some d →
    comp ≠ [46] → comp ≠ [46, 46] → NotCaught A comp

theorem isDot_of_dotdot (h : shortName w.entry = build83 [46, 46]) : isDot w.entry = true := by
  unfold isDot
  rw [h]
  decide

/-- An edit keeps what is found, unless it is the old entry or the new one is found instead. -/
theorem Edit.find {L L' : List Visit} {p : Visit → Bool} (h : Edit L L' old (some new))
    (hnew : p new = true → ∃ u, old = some u ∧ p u = true) (hold : ∀ u, L.find? p = some u → old ≠ some u) :
    L'.find? p = L.find? p := by
  cases h with
  | add P Q =>
    have hp : p new = false := by
      by_contra hne
      obtain ⟨u, hu, -⟩ := hnew (by rwa [Bool.not_eq_false] at hne)
      cases hu
    rw [List.find?_append, List.find?_append, List.find?_cons_of_neg (by rw [hp]; decide)]
  | replace P Q u =>
    rw [List.find?_append, List.find?_append] at *
    cases hP : P.find? p with
    | some w => rw [Option.some_or, Option.some_or]
    | none =>
      rw [hP, Option.none_or] at hold
      have hu : p u = false := by
        by_contra hne
        rw [Bool.not_eq_false] at hne
        exact hold u (by rw [List.find?_cons_of_pos hne]) rfl
      have hp : p new = false := by
        by_contra hne
        obtain ⟨w, hw, hpw⟩ := hnew (by rwa [Bool.not_eq_false] at hne)
        obtain rfl := Option.some.inj hw
        rw [hu] at hpw
        cases hpw
      rw [List.find?_cons_of_neg (by rw [hp]; decide), List.find?_cons_of_neg (by rw [hu]; decide)]

theorem Names.found {comp : Str} (h : Names A new old) (hclear : old = none → NotCaught A comp)
    (hnew : (matchesShort (build83 comp) new || matchesLong (comp.take 255) new) = true) :
    ∃ u, old = some u ∧ (matchesShort (build83 comp) u || matchesLong (comp.take 255) u) = true := by
  cases old with
  | some u =>
    obtain ⟨-, hshort, hlong⟩ := h
    refine ⟨u, rfl, ?_⟩
    unfold matchesShort matchesLong at hnew ⊢
    rwa [← hshort, ← hlong]
  | none =>
    obtain ⟨h1, h2, h3⟩ := hclear rfl
    rcases Bool.or_eq_true_iff.mp hnew with hm | hm
    · have hshort : shortName new.entry = build83 comp := of_decide_eq_true hm
      rcases h with ⟨hA, -⟩ | ⟨-, t, ht⟩
      · exact absurd (hshort.symm.trans hA) h1
      · exact absurd (hshort.symm.trans ht) (h2 t)
    · unfold matchesLong at hm
      simp only [Bool.and_eq_true, decide_eq_true_eq, ne_eq] at hm
      rcases h with ⟨-, hnil⟩ | ⟨hA, -⟩
      · exact absurd hnil hm.1.2
      · rw [hA] at hm
        exact absurd hm.2.symm h3

section Kept

variable (hg : g.Ok) (hn : g.totalClusters ≤ n) (hv : Consistent g v n)
  (h : Change g n v v' d D X O N old (some new))
  (hedit : Edit (visits g v n d) (visits g v' n d) old (some new))
  (hnames : Names A new old)

include hg hn hv h hedit hnames

theorem resolveFinds_kept (he : IsDir g v n e) (hcomp : comp ≠ [46])
    (hclear : e = d → old = none → comp ≠ [46, 46] → NotCaught A comp)
    (hdir : ∀ u, resolveFinds g v n e comp = some u → isDot u.entry = true ∨ isDirectory u.entry = true) :
    resolveFinds g v' n e comp = resolveFinds g v n e comp := by
  by_cases hed : e = d
  · subst hed
    have hold : ∀ u, resolveFinds g v n e comp = some u → old ≠ some u := by
      intro u hfind heq
      obtain ⟨hlive, hfile, -⟩ := h.gives u heq
      rcases hdir u hfind with hdot | hwdir
      · rw [(mem_live.mp hlive).2] at hdot
        cases hdot
      · rw [hfile] at hwdir
        cases hwdir
    unfold resolveFinds at hold ⊢
    rw [if_neg hcomp] at hold ⊢
    rw [if_neg hcomp]
    by_cases hdd : comp = [46, 46]
    · rw [if_pos hdd] at hold ⊢
      rw [if_pos hdd]
      refine hedit.find (fun hnew => ?_) hold
      have := h.named new rfl
      rw [isDot_of_dotdot (of_decide_eq_true hnew)] at this
      cases this
    · rw [if_neg hdd] at hold ⊢
      rw [if_neg hdd]
      exact hedit.find (hnames.found fun hnone => hclear rfl hnone hdd) hold
  · unfold resolveFinds dirFind dirFindLfn
    rw [h.visits_other hg hn hv he hed]

theorem compDir_kept (he : IsDir g v n e) (hclear : e = d → old = none → comp ≠ [46] →
    comp ≠ [46, 46] → NotCaught A comp)
    (hx : compDir g v n e comp = some x) : compDir g v' n e comp = some x := by
  by_cases hone : comp = [46]
  · unfold compDir at hx ⊢
    rwa [if_pos hone] at hx ⊢
  have hfind : resolveFinds g v' n e comp = resolveFinds g v n e comp := by
    refine resolveFinds_kept hg hn hv h hedit hnames he hone (fun hed hnone => hclear hed hnone hone) fun u hu => ?_
    by_cases htwo : comp = [46, 46]
    · rw [htwo] at hu
      have hshort := List.find?_some (show dirFind g v n e (build83 [46, 46]) = some u from hu)
      exact Or.inl (isDot_of_dotdot (of_decide_eq_true hshort))
    · right
      unfold compDir at hx
      rw [if_neg hone, if_neg htwo, hu] at hx
      dsimp only at hx
      cases hudir : isDirectory u.entry with
      | true => rfl
      | false =>
        rw [hudir] at hx
        cases hx
  unfold compDir at hx ⊢
  rwa [hfind]

/-- The walk to a directory is kept. -/
theorem foldlM_kept (hinside : Inside g v n e comps) (hclear : old = none → Clear g v n e d A comps)
    (hx : comps.foldlM (compDir g v n) e = some x) : comps.foldlM (compDir g v' n) e = some x := by
  induction comps generalizing e with
  | nil => exact hx
  | cons comp comps ih =>
    rw [List.foldlM_cons] at hx ⊢
    obtain ⟨y, hy, hrest⟩ := Option.bind_eq_some_iff.mp hx
    have he : IsDir g v n e := hinside [] (comp :: comps) e rfl rfl
    have hy' : compDir g v' n e comp = some y :=
      compDir_kept hg hn hv h hedit hnames he (fun hed hnone => hclear hnone [] comp comps rfl (congrArg some hed)) hy
    have hstep : ∀ pre, pre.foldlM (compDir g v n) y = (comp :: pre).foldlM (compDir g v n) e := by
      intro pre
      rw [List.foldlM_cons, hy]
      rfl
    refine Option.bind_eq_some_iff.mpr ⟨y, hy', ih (fun pre post z heq hz => ?_)
      (fun hnone pre c post heq hz => ?_) hrest⟩
    · exact hinside (comp :: pre) post z (by rw [heq, List.cons_append]) (by rw [← hstep, hz])
    · exact hclear hnone (comp :: pre) c post (by rw [heq, List.cons_append]) (by rw [← hstep, hz])

theorem parentOf_kept (hinside : Inside g v n (parentStart cwd path) (parentComps path))
    (hclear : old = none → Clear g v n (parentStart cwd path) d A (parentComps path))
    (hparent : parentOf g v n cwd path = some (d, A)) : parentOf g v' n cwd path = some (d, A) := by
  unfold parentOf at hparent ⊢
  split at hparent
  · cases hparent
  · rename_i hlen
    obtain ⟨p, hp, heq⟩ := Option.map_eq_some_iff.mp hparent
    obtain ⟨rfl, -⟩ := Prod.mk.inj heq
    rw [if_neg hlen, foldlM_kept hg hn hv h hedit hnames hinside hclear hp, Option.map_some, heq]

end Kept

theorem isDir_parentOf (hinside : Inside g v n (parentStart cwd path) (parentComps path))
    (h : parentOf g v n cwd path = some (d, A)) : IsDir g v n d := by
  unfold parentOf at h
  split at h
  · cases h
  · obtain ⟨p, hp, heq⟩ := Option.map_eq_some_iff.mp h
    obtain ⟨rfl, -⟩ := Prod.mk.inj heq
    exact hinside (parentComps path) [] p (List.append_nil _).symm hp

/-- The name of a file finds the entry that has been written. -/
theorem readFinds_written (hnodup : ((visits g v n d).map fun u => (u.chunk, u.idx)).Nodup)
    (hedit : Edit (visits g v n d) (visits g v' n d) old (some new)) (hnames : Names A new old)
    (hfind : writeFinds g v n d A = old) (hA : A ≠ []) (hlen : A.length ≤ 255) : readFinds g v' n d A = some new := by
  have htake : A.take 255 = A := List.take_of_length_le hlen
  unfold writeFinds dirFindLfn at hfind
  unfold readFinds dirFindLfn
  rw [htake] at hfind ⊢
  generalize visits g v n d = L, visits g v' n d = L' at *
  cases hedit with
  | add P Q =>
    have hnew : (matchesShort (build83 A) new || matchesLong A new) = true := by
      rcases hnames with ⟨hshort, -⟩ | ⟨hlong, -⟩
      · exact Bool.or_eq_true_iff.mpr (Or.inl (decide_eq_true hshort))
      · refine Bool.or_eq_true_iff.mpr (Or.inr ?_)
        unfold matchesLong
        rw [hlong]
        simp [hA]
    have hnone := List.find?_eq_none.mp hfind
    rw [List.find?_append, List.find?_eq_none.mpr fun w hw => hnone w (List.mem_append_left _ hw), Option.none_or]
    exact List.find?_cons_of_pos hnew
  | replace P Q u =>
    obtain ⟨-, hshort, hlong⟩ := hnames
    have hu := List.find?_some hfind
    have hnew : (matchesShort (build83 A) new || matchesLong A new) = true := by
      unfold matchesShort matchesLong at hu ⊢
      rwa [hshort, hlong]
    have hP : P.find? (fun w => matchesShort (build83 A) w || matchesLong A w) = none := by
      cases hP : P.find? (fun w => matchesShort (build83 A) w || matchesLong A w) with
      | none => rfl
      | some w =>
        rw [List.find?_append, hP, Option.some_or] at hfind
        obtain rfl := Option.some.inj hfind
        rw [List.map_append, List.map_cons] at hnodup
        have hdis := (List.nodup_append.mp hnodup).2.2 _ (List.mem_map_of_mem (List.mem_of_find?_eq_some hP)) _
          List.mem_cons_self
        exact absurd rfl hdis
    rw [List.find?_append, hP, Option.none_or]
    exact List.find?_cons_of_pos hnew

theorem read_written {data : Str} {max : ℕ} (hg : g.Ok) (hparent : parentOf g v n cwd path = some (d, A))
    (hfind : readFinds g v n d A = some new) (hw : FileWritten g v data new) (hmax : data.length ≤ max) :
    (fat32ReadFile g n path max).run (full v cwd) = (some data, full v cwd) := by
  have hresolve : (resolveParent g n path).run (full v cwd) = (some (d, A), full v cwd) := by
    rw [resolveParent_full, hparent]
  obtain ⟨N, hN, hstored⟩ := hw.holds
  have hcontent : contentOf g v new.entry max = data := by
    unfold contentOf
    rw [hw.size]
    have hsize : (if data.length < max then data.length else max) = data.length := by
      split
      · rfl
      · omega
    rw [hsize]
    refine readLoop_stored hg hstored ?_ le_rfl
    rcases hN with ⟨hnil, -⟩ | ⟨-, hlink⟩
    · exact Or.inr hnil
    · exact Or.inl hlink
  rw [fat32ReadFile, bind_of_some hresolve, bind_of_some (lookup_full _)]
  dsimp only
  rw [hfind]
  dsimp only
  rw [if_neg (by rw [hw.file]; decide), bind_of_some needBuf_full, bind_of_some getVol_full, hcontent]
  rfl

end ComputerOS.Fat32
