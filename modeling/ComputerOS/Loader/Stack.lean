import ComputerOS.Loader.Faithful
import ComputerOS.Loader.Owners

/-!
The first stack of a Linux program: `map_user_stack` and `build_linux_stack`. From the top of the
stack downwards lie the strings of the environment and of the arguments, 16 zero bytes, and the
vectors; a program reads them upwards from its stack pointer.
-/
namespace ComputerOS.Loader

open Function Fallible Bytes

def LOADER_MAX_ARGS : ℕ := 256

def LOADER_MAX_ARGBYTES : ℕ := 16 * 1024

/-- `(unsigned int)strlen(s) + 1` -/
def argSize (s : List UInt8) : ℕ := u32 (s.length + 1)

/-- `top -= n`, and a copy of `n` bytes to `top`. -/
def push (top : ℕ) (bs : List UInt8) : Fallible Loading ℕ := do
  let top := u64 (top + 2 ^ 64 - bs.length)
  storeAll top bs
  pure top

/-- The strings, the last one first, and where each of them is. -/
def pushStrings (top : ℕ) : List (List UInt8) → Fallible Loading (ℕ × List ℕ)
  | [] => pure (top, [])
  | s :: l => do
    let (top, ptrs) ← pushStrings top l
    let top ← push top ((s ++ [0]).take (argSize s))
    pure (top, top :: ptrs)

def pushWord (sp w : ℕ) : Fallible Loading ℕ := push sp (leBytes 8 w)

def pushWords (sp : ℕ) : List ℕ → Fallible Loading ℕ
  | [] => pure sp
  | w :: ws => do
    let sp ← pushWords sp ws
    pushWord sp w

def pushPairs (sp : ℕ) : List (ℕ × ℕ) → Fallible Loading ℕ
  | [] => pure sp
  | (k, v) :: l => do
    let sp ← pushPairs sp l
    push sp (leBytes 8 k ++ leBytes 8 v)

def pushPad (sp words : ℕ) : Fallible Loading ℕ :=
  if u64 (sp + 2 ^ 64 - words * 8) % 16 ≠ 0 then pushWord sp 0 else pure sp

/-- The auxiliary vector up to `AT_NULL`, by addresses. -/
def auxv (entry phdr phnum base random : ℕ) : List (ℕ × ℕ) :=
  [(3, phdr), (5, phnum), (4, PHDR_SIZE), (9, entry), (7, base), (11, 0), (12, 0), (13, 0), (14, 0),
    (23, 0), (25, random), (6, 4096)]

/-- The vectors, below the strings and the bytes of `AT_RANDOM`. -/
def pushVectors (top argc envc : ℕ) (argp envpp : List ℕ) (entry phdr phnum base : ℕ) : Fallible Loading ℕ := do
  let top ← push (top / 16 * 16) (List.replicate 16 0)
  let sp ← pushPad (top / 16 * 16) (26 + 1 + envc + 1 + argc + 1)
  let sp ← pushPairs sp (auxv entry phdr phnum base top ++ [(0, 0)])
  let sp ← pushWord sp 0
  let sp ← pushWords sp envpp
  let sp ← pushWord sp 0
  let sp ← pushWords sp argp
  pushWord sp argc

/-- `build_linux_stack`: the stack pointer, 0 when a limit is exceeded. -/
def buildLinuxStack (argv envp : List (List UInt8)) (entry phdr phnum base : ℕ) : Fallible Loading ℕ :=
  if LOADER_MAX_ARGS < argv.length then pure 0
  else if LOADER_MAX_ARGS < envp.length then pure 0
  else if LOADER_MAX_ARGBYTES < u32 ((argv ++ envp).map argSize).sum then pure 0
  else do
    let (top, envpp) ← pushStrings LOADER_STACK_TOP envp
    let (top, argp) ← pushStrings top argv
    pushVectors top argv.length envp.length argp envpp entry phdr phnum base

def View.word (w : View) (a : ℕ) : Option ℕ :=
  if (List.range 8).all fun i => (w.load (a + i)).isSome then some
    (Mem.getLE (fun x => (w.load x).getD 0) a 8) else none

/-- The string at address `a`, up to its terminator. -/
def StringAt (w : View) (a : ℕ) : List UInt8 → Prop
  | [] => w.load a = some 0
  | b :: s => b ≠ 0 ∧ w.load a = some b ∧ StringAt w (a + 1) s

/-- The pointers from address `a` on, up to the one that is `NULL`. -/
def PointersAt (w : View) (a : ℕ) : List ℕ → Prop
  | [] => w.word a = some 0
  | p :: ps => p ≠ 0 ∧ w.word a = some p ∧ PointersAt w (a + 8) ps

/-- The auxiliary vector from address `a` on, up to `AT_NULL`. -/
def AuxAt (w : View) (a : ℕ) : List (ℕ × ℕ) → Prop
  | [] => w.word a = some 0 ∧ w.word (a + 8) = some 0
  | (k, v) :: l => k ≠ 0 ∧ w.word a = some k ∧ w.word (a + 8) = some v ∧ AuxAt w (a + 16) l

/-- What a program finds at its stack pointer, with the addresses of the strings. -/
structure Decoded (w : View) (rsp : ℕ) (argv envp : List (List UInt8)) (argp envpp : List ℕ)
    (aux : List (ℕ × ℕ)) : Prop where
  count : w.word rsp = some argv.length
  argPointers : PointersAt w (rsp + 8) argp
  argStrings : List.Forall₂ (StringAt w) argp argv
  envPointers : PointersAt w (rsp + 8 * (argv.length + 2)) envpp
  envStrings : List.Forall₂ (StringAt w) envpp envp
  auxiliary : AuxAt w (rsp + 8 * (argv.length + envp.length + 3)) aux

/-- A string of the stack and the next one. -/
def Below (p q : ℕ × List UInt8) : Prop := p.1 + p.2.length + 1 ≤ q.1

/-- The strings do not overlap, and lie above the vectors. -/
structure Separate (rsp : ℕ) (argv envp : List (List UInt8)) (argp envpp : List ℕ) : Prop where
  strings : ((argp ++ envpp).zip (argv ++ envp)).Pairwise Below
  vectors : ∀ p ∈ argp ++ envpp, rsp + 8 * (argv.length + envp.length + 3 + 26) ≤ p

/-- The lowest address of the stack. -/
def STACK_LOW : ℕ := LOADER_STACK_TOP - LOADER_STACK_PAGES * 4096

/-- The addresses of the pages below the top of the stack. -/
def InStack (a : ℕ) : Prop := STACK_LOW ≤ a ∧ a < LOADER_STACK_TOP

/-- A limit of the arguments is exceeded. -/
def TooBig (argv envp : List (List UInt8)) : Prop :=
  LOADER_MAX_ARGS < argv.length ∨ LOADER_MAX_ARGS < envp.length ∨
    LOADER_MAX_ARGBYTES < ((argv ++ envp).map fun s => s.length + 1).sum

/-- The stack was refused, or a program reads its arguments from it. -/
def StackBuilt (argv envp : List (List UInt8)) (entry phdr phnum base : ℕ) (s : Loading)
    (r : Option ℕ × Loading) : Prop :=
  (TooBig argv envp → r = (some 0, s)) ∧
  (¬ TooBig argv envp → ∃ rsp argp envpp random, r.1 = some rsp ∧ rsp ≠ 0 ∧ rsp % 16 = 0 ∧
    Decoded r.2.w rsp argv envp argp envpp (auxv (u64 entry) (u64 phdr) (u64 phnum) (u64 base) random) ∧
    Separate rsp argv envp argp envpp ∧ ∀ a ∈ r.2.wrote, a ∈ s.wrote ∨ InStack a)

/-- The 32-bit sum of the sizes is small, and the sum is not. -/
def SizesWrap (argv envp : List (List UInt8)) : Prop :=
  argv.length ≤ LOADER_MAX_ARGS ∧ envp.length ≤ LOADER_MAX_ARGS ∧
    LOADER_MAX_ARGBYTES < ((argv ++ envp).map fun s => s.length + 1).sum ∧
    u32 ((argv ++ envp).map fun s => s.length + 1).sum ≤ LOADER_MAX_ARGBYTES

variable {s s' : Loading} {c c' : Mem} {w : View} {top rsp a : ℕ} {argv envp l : List (List UInt8)} {ptrs ws : List ℕ}
  {bs str : List UInt8}

theorem inStack_page (h : InStack a) : a < 2 ^ 47 ∧ a / 4096 * 4096 ∈ stackPages := by
  unfold InStack STACK_LOW LOADER_STACK_TOP LOADER_STACK_PAGES at h
  refine ⟨by omega, List.mem_map.2 ⟨0x7fff0 - a / 4096, List.mem_range.2 ?_, ?_⟩⟩
  · unfold LOADER_STACK_PAGES
    omega
  · unfold LOADER_STACK_PAGE LOADER_STACK_TOP
    omega

theorem Zeros.each {env : ℕ → PageEnv} {l done : List ℕ} {w w' : View} (hz : Zeros done w)
    (huser : ∀ v ∈ l, page v < USER_PAGES) (hnodup : (l.map page).Nodup) (hnew : ∀ v ∈ l, ∀ x ∈ done, page x ≠ page v)
    (hrun : (each allocUserPage env l).run w = (some (), w')) : Zeros (l.reverse ++ done) w' := by
  induction l generalizing done env w with
  | nil =>
    cases hrun
    exact hz
  | cons v l ih =>
    rw [List.forall_mem_cons] at huser hnew
    rw [List.map_cons, List.nodup_cons] at hnodup
    obtain ⟨⟨⟩, w₁, hrun₁, hrest⟩ := bind_eq_some hrun
    have hz₁ := (hz.alloc huser.1 hnew.1 hrun₁).1
    have hnew₁ : ∀ x ∈ l, ∀ y ∈ v :: done, page y ≠ page x := by
      intro x hx y hy
      rcases List.mem_cons.1 hy with rfl | hy
      · exact fun heq => hnodup.1 (List.mem_map.2 ⟨x, hx, heq.symm⟩)
      · exact hnew.2 x hx y hy
    rw [List.reverse_cons, List.append_assoc]
    exact ih hz₁ huser.2 hnodup.2 hnew₁ hrest

theorem Zeros.mono {pages pages' : List ℕ} (hz : Zeros pages w) (hsub : ∀ v ∈ pages', v ∈ pages) : Zeros pages' w :=
  ⟨fun v hv => hz.zero v (hsub v hv), fun v hv x hx => hz.inj v (hsub v hv) x (hsub x hx)⟩

/-- A new stack holds zeros. -/
theorem mapUserStack_content {env : ℕ → PageEnv} {w' : View} (hrun : (mapUserStack env).run w = (some (), w')) :
    Content stackPages (fun _ => 0) w' := by
  have hz := (zeros_nil w).each stackPages_user stackPages_nodup (fun _ _ _ h => (by cases h)) hrun
  exact (hz.mono fun v hv => List.mem_append_left _ (List.mem_reverse.2 hv)).content

/-- What was pushed lies between `top'` and `top`, and what lies above is as it was. -/
structure Pushed (c : Mem) (s : Loading) (top : ℕ) (c' : Mem) (s' : Loading) (top' : ℕ) : Prop where
  content : Content stackPages c' s'.w
  above : ∀ x, top ≤ x → c' x = c x
  wrote : ∀ a ∈ s'.wrote, a ∈ s.wrote ∨ InStack a
  low : STACK_LOW ≤ top'
  le : top' ≤ top

theorem Pushed.trans {c₁ : Mem} {s₁ : Loading} {top₁ top' : ℕ} (h : Pushed c s top c₁ s₁ top₁)
    (h' : Pushed c₁ s₁ top₁ c' s' top') : Pushed c s top c' s' top' where
  content := h'.content
  above x hx := (h'.above x (h.le.trans hx)).trans (h.above x hx)
  wrote a ha := (h'.wrote a ha).elim (h.wrote a) Or.inr
  low := h'.low
  le := h'.le.trans h.le

theorem Pushed.refl (hc : Content stackPages c s.w) (hlow : STACK_LOW ≤ top) :
    Pushed c s top c s top := ⟨hc, fun _ _ => rfl, fun _ h => Or.inl h, hlow, le_refl _⟩

theorem storeAll_stack (hc : Content stackPages c s.w) (hin : ∀ x, a ≤ x → x < a + bs.length → InStack x) :
    ∃ s', (storeAll a bs).run s = (some (), s') ∧ ∀ x ∈ s'.wrote, x ∈ s.wrote ∨ InStack x := by
  induction bs generalizing a s c with
  | nil => exact ⟨s, rfl, fun _ h => Or.inl h⟩
  | cons b bs ih =>
    rw [List.length_cons] at hin
    have ha := hin a (le_refl _) (by omega)
    obtain ⟨hlt, hpage⟩ := inStack_page ha
    have hload := hc.bytes a hlt hpage
    unfold View.load at hload
    obtain ⟨f, hf, -⟩ := Option.map_eq_some_iff.1 hload
    have hrun := storeByte_some (b := b) hf
    have hrest : ∀ x, a + 1 ≤ x → x < a + 1 + bs.length → InStack x := fun x hx hxlt => hin x (by omega) (by omega)
    obtain ⟨s', hrun', hwrote⟩ := ih (hc.storeByte hlt hpage hrun).1 hrest
    refine ⟨s', ?_, fun x hx => ?_⟩
    · unfold storeAll
      rw [show u64 a = a from Nat.mod_eq_of_lt (by omega), bind_of_some hrun]
      exact hrun'
    · rcases hwrote x hx with h | h
      · exact (List.mem_cons.1 h).elim (fun h => Or.inr (h ▸ ha)) Or.inl
      · exact Or.inr h

theorem stack_lt (h : top ≤ LOADER_STACK_TOP) : top < 2 ^ 47 := by
  unfold LOADER_STACK_TOP at h
  omega

theorem push_run (top : ℕ) (bs : List UInt8) (hc : Content stackPages c s.w) (htop : top ≤ LOADER_STACK_TOP)
    (hroom : STACK_LOW + bs.length ≤ top) :
    ∃ s', (push top bs).run s = (some (top - bs.length), s') ∧
      Pushed c s top (c.put (top - bs.length) bs) s' (top - bs.length) := by
  have hlt := stack_lt htop
  have hsub : u64 (top + 2 ^ 64 - bs.length) = top - bs.length := by
    unfold u64
    omega
  have hin : ∀ x, top - bs.length ≤ x → x < top - bs.length + bs.length → InStack x := by
    intro x hx hlt
    unfold InStack
    omega
  obtain ⟨s', hrun, hwrote⟩ := storeAll_stack hc hin
  obtain ⟨hc', -⟩ := hc.storeAll (by omega) (fun x hx hlt => (inStack_page (hin x hx hlt)).2) hrun
  refine ⟨s', ?_, hc', fun x hx => Mem.put_ne c (by omega), hwrote, by omega, by omega⟩
  unfold push
  dsimp only
  rw [hsub, bind_of_some hrun]
  rfl

/-- The string in the memory `c`, with its terminator. -/
def CString (c : Mem) (a : ℕ) (str : List UInt8) : Prop := ∀ i ≤ str.length, c (a + i) = (str ++ [0]).getD i 0

/-- Strings one behind the other from address `a` on, at the addresses `ptrs`. -/
def Laid (c : Mem) (a : ℕ) : List ℕ → List (List UInt8) → Prop
  | [], [] => True
  | p :: ptrs, str :: l => p = a ∧ CString c a str ∧ Laid c (a + str.length + 1) ptrs l
  | _, _ => False

/-- The sizes of strings with their terminators. -/
def sizes (l : List (List UInt8)) : ℕ := (l.map fun str => str.length + 1).sum

theorem Laid.congr {c' : Mem} {ptrs : List ℕ} (h : Laid c a ptrs l) (hsame : ∀ x, a ≤ x →
    c' x = c x) : Laid c' a ptrs l := by
  induction l generalizing a ptrs with
  | nil =>
    cases ptrs with
    | nil => exact h
    | cons p ptrs => exact h.elim
  | cons str l ih =>
    cases ptrs with
    | nil => exact h.elim
    | cons p ptrs =>
      obtain ⟨hp, hstr, hrest⟩ := h
      exact ⟨hp, fun i hi => (hsame _ (by omega)).trans (hstr i hi), ih hrest fun x hx => hsame x (by omega)⟩

theorem pushStrings_run (hc : Content stackPages c s.w) (htop : top ≤ LOADER_STACK_TOP) (hsizes : sizes l < 2 ^ 32)
    (hroom : STACK_LOW + sizes l ≤ top) :
    ∃ ptrs c' s', (pushStrings top l).run s = (some (top - sizes l, ptrs), s') ∧
      Pushed c s top c' s' (top - sizes l) ∧ Laid c' (top - sizes l) ptrs l := by
  induction l generalizing c s with
  | nil => exact ⟨[], c, s, rfl, Pushed.refl hc (by simpa [sizes] using hroom), trivial⟩
  | cons str l ih =>
    have hcons : sizes (str :: l) = str.length + 1 + sizes l := by rw [sizes, List.map_cons, List.sum_cons, sizes]
    rw [hcons] at hsizes hroom
    obtain ⟨ptrs, c₁, s₁, hrun₁, hpushed₁, hlaid₁⟩ := ih hc (by omega) (by omega)
    have hbytes : (str ++ [0]).take (argSize str) = str ++ [0] := by
      refine List.take_of_length_le ?_
      rw [argSize, u32, Nat.mod_eq_of_lt (by omega)]
      simp
    have hlen : (str ++ [0]).length = str.length + 1 := by simp
    obtain ⟨s₂, hrun₂, hpushed₂⟩ := push_run (top - sizes l) (str ++ [0]) hpushed₁.content (by omega) (by omega)
    have hend : top - sizes l - (str ++ [0]).length = top - sizes (str :: l) := by omega
    rw [hend] at hrun₂ hpushed₂
    refine ⟨(top - sizes (str :: l)) :: ptrs, _, s₂, ?_, hpushed₁.trans hpushed₂, rfl, fun i hi => ?_, ?_⟩
    · unfold pushStrings
      rw [bind_of_some hrun₁]
      dsimp only
      rw [hbytes, bind_of_some hrun₂]
      rfl
    · exact Mem.put_at _ (by omega)
    · have hnext : top - sizes (str :: l) + str.length + 1 = top - sizes l := by omega
      rw [hnext]
      exact hlaid₁.congr hpushed₂.above

def WordsAt (c : Mem) (a : ℕ) : List ℕ → Prop
  | [] => True
  | w :: ws => c.getLE a 8 = u64 w ∧ WordsAt c (a + 8) ws

theorem WordsAt.congr {c' : Mem} {ws : List ℕ} (h : WordsAt c a ws) (hsame : ∀ x, a ≤ x →
    c' x = c x) : WordsAt c' a ws := by
  induction ws generalizing a with
  | nil => trivial
  | cons w ws ih =>
    refine ⟨?_, ih h.2 fun x hx => hsame x (by omega)⟩
    rw [Mem.getLE_congr fun i _ => hsame (a + i) (by omega)]
    exact h.1

theorem wordsAt_append {ws ws' : List ℕ} :
    WordsAt c a (ws ++ ws') ↔ WordsAt c a ws ∧ WordsAt c (a + 8 * ws.length) ws' := by
  induction ws generalizing a with
  | nil => exact ⟨fun h => ⟨trivial, h⟩, fun h => h.2⟩
  | cons w ws ih =>
    rw [List.cons_append, WordsAt, WordsAt, ih, List.length_cons, show a + 8 + 8 * ws.length = a +
      8 * (ws.length + 1) by omega, and_assoc]

theorem push_words {n : ℕ} (ws : List ℕ) {ws' : List ℕ} (hc : Content stackPages c s.w) (htop : top ≤ LOADER_STACK_TOP)
    (hroom : STACK_LOW + 8 * ws.length ≤ top)
    (hbs : bs.length = 8 * ws.length) (hput : ∀ c : Mem, ∀ a, WordsAt (c.put a bs) a ws) (hws : WordsAt c top ws')
    (hn : n = top - 8 * ws.length) :
    ∃ c' s', (push top bs).run s = (some n, s') ∧ Pushed c s top c' s' n ∧ WordsAt c' n (ws ++ ws') := by
  obtain ⟨s', hrun, hpushed⟩ := push_run top bs hc htop (by omega)
  rw [hbs, ← hn] at hrun hpushed
  refine ⟨_, s', hrun, hpushed, wordsAt_append.2 ⟨hput _ _, ?_⟩⟩
  rw [show n + 8 * ws.length = top by omega]
  exact hws.congr hpushed.above

theorem wordsAt_put (c : Mem) (a w : ℕ) (post : List UInt8) : WordsAt (c.put a (leBytes 8 w ++ post)) a [w] := by
  have h := Mem.getLE_put c a [] 8 w post
  exact ⟨h, trivial⟩

theorem pushWord_run {ws : List ℕ} (hc : Content stackPages c s.w) (htop : top ≤ LOADER_STACK_TOP)
    (hroom : STACK_LOW + 8 ≤ top) (hws : WordsAt c top ws) (w : ℕ) :
    ∃ c' s', (pushWord top w).run s = (some (top - 8), s') ∧ Pushed c s top c' s' (top - 8) ∧
    WordsAt c' (top - 8) (w :: ws) := by
  refine push_words [w] hc htop hroom (length_leBytes 8 w) (fun c a => ?_) hws rfl
  have h := wordsAt_put c a w []
  rwa [List.append_nil] at h

theorem pushWords_run (ws : List ℕ) {ws' : List ℕ} (hc : Content stackPages c s.w) (htop : top ≤ LOADER_STACK_TOP)
    (hroom : STACK_LOW + 8 * ws.length ≤ top) (hws : WordsAt c top ws') :
    ∃ c' s', (pushWords top ws).run s = (some (top - 8 * ws.length), s') ∧ Pushed c s top c' s' (top - 8 * ws.length) ∧
      WordsAt c' (top - 8 * ws.length) (ws ++ ws') := by
  induction ws with
  | nil => exact ⟨c, s, rfl, Pushed.refl hc hroom, hws⟩
  | cons w ws ih =>
    rw [List.length_cons] at hroom ⊢
    obtain ⟨c₁, s₁, hrun₁, hpushed₁, hws₁⟩ := ih (by omega)
    obtain ⟨c₂, s₂, hrun₂, hpushed₂, hws₂⟩ := pushWord_run hpushed₁.content (by omega) (by omega) hws₁ w
    have hend : top - 8 * ws.length - 8 = top - 8 * (ws.length + 1) := by omega
    rw [hend] at hrun₂ hpushed₂ hws₂
    refine ⟨c₂, s₂, ?_, hpushed₁.trans hpushed₂, hws₂⟩
    unfold pushWords
    rw [bind_of_some hrun₁]
    exact hrun₂

def pairWords (l : List (ℕ × ℕ)) : List ℕ := l.flatMap fun p => [p.1, p.2]

theorem pushPairs_run (l : List (ℕ × ℕ)) {ws : List ℕ} (hc : Content stackPages c s.w) (htop : top ≤ LOADER_STACK_TOP)
    (hroom : STACK_LOW + 16 * l.length ≤ top) (hws : WordsAt c top ws) :
    ∃ c' s', (pushPairs top l).run s = (some (top - 16 * l.length), s') ∧ Pushed c s top c' s' (top - 16 * l.length) ∧
      WordsAt c' (top - 16 * l.length) (pairWords l ++ ws) := by
  induction l with
  | nil => exact ⟨c, s, rfl, Pushed.refl hc hroom, hws⟩
  | cons p l ih =>
    obtain ⟨k, v⟩ := p
    rw [List.length_cons] at hroom ⊢
    obtain ⟨c₁, s₁, hrun₁, hpushed₁, hws₁⟩ := ih (by omega)
    have hput : ∀ c : Mem, ∀ a, WordsAt (c.put a (leBytes 8 k ++ leBytes 8 v)) a [k, v] := by
      intro c a
      have hv := Mem.getLE_put c a (leBytes 8 k) 8 v []
      rw [List.append_nil, length_leBytes] at hv
      exact ⟨(wordsAt_put c a k _).1, hv, trivial⟩
    obtain ⟨c₂, s₂, hrun₂, hpushed₂, hws₂⟩ := push_words [k, v] hpushed₁.content (by omega)
      (by simp only [List.length_cons, List.length_nil]; omega) (by simp) hput hws₁ rfl
    have hend : top - 16 * l.length - 8 * [k, v].length = top - 16 * (l.length + 1) := by
      simp only [List.length_cons, List.length_nil]
      omega
    rw [hend] at hrun₂ hpushed₂ hws₂
    refine ⟨c₂, s₂, ?_, hpushed₁.trans hpushed₂, hws₂⟩
    unfold pushPairs
    rw [bind_of_some hrun₁]
    exact hrun₂

theorem load_of_content (hc : Content stackPages c w) (ha : InStack a) : w.load a = some (c a) :=
  hc.bytes a (inStack_page ha).1 (inStack_page ha).2

theorem word_of_content (hc : Content stackPages c w) (hin : ∀ i < 8, InStack (a + i)) :
    w.word a = some (c.getLE a 8) := by
  have hall : ((List.range 8).all fun i => (w.load (a + i)).isSome) = true := by
    rw [List.all_eq_true]
    intro i hi
    rw [load_of_content hc (hin i (List.mem_range.1 hi))]
    rfl
  unfold View.word
  rw [if_pos hall, Mem.getLE_congr fun i hi => ?_]
  rw [load_of_content hc (hin i hi)]
  rfl

theorem stringAt_of_content (hc : Content stackPages c w) (hstr : CString c a str) (hnul : 0 ∉ str)
    (hin : ∀ i ≤ str.length, InStack (a + i)) : StringAt w a str := by
  induction str generalizing a with
  | nil =>
    have h := hstr 0 (le_refl _)
    have hload := load_of_content hc (hin 0 (le_refl _))
    rw [Nat.add_zero] at h hload
    rw [StringAt, hload, h]
    rfl
  | cons b str ih =>
    rw [List.mem_cons, not_or] at hnul
    have h := hstr 0 (Nat.zero_le _)
    have hload := load_of_content hc (hin 0 (Nat.zero_le _))
    rw [Nat.add_zero] at h hload
    refine ⟨fun hb => hnul.1 hb.symm, by rw [hload, h]; rfl, ih (fun i hi => ?_) hnul.2 fun i hi => ?_⟩
    · have h := hstr (i + 1) (by rw [List.length_cons]; omega)
      rw [show a + (i + 1) = a + 1 + i by omega] at h
      exact h
    · have h := hin (i + 1) (by rw [List.length_cons]; omega)
      rwa [show a + (i + 1) = a + 1 + i by omega] at h

/-- The strings are found at their addresses, in order. -/
theorem Laid.read (h : Laid c a ptrs l) (hc : Content stackPages c w) (hnul : ∀ str ∈ l, 0 ∉ str)
    (hlow : STACK_LOW ≤ a) (hhigh : a + sizes l ≤ LOADER_STACK_TOP) :
    ptrs.length = l.length ∧ List.Forall₂ (StringAt w) ptrs l ∧ (ptrs.zip l).Pairwise Below ∧
      ∀ p ∈ ptrs.zip l, a ≤ p.1 ∧ p.1 + p.2.length + 1 ≤ a + sizes l := by
  induction l generalizing a ptrs with
  | nil =>
    cases ptrs with
    | nil => exact ⟨rfl, .nil, List.Pairwise.nil, fun _ h => (by cases h)⟩
    | cons p ptrs => exact h.elim
  | cons str l ih =>
    cases ptrs with
    | nil => exact h.elim
    | cons p ptrs =>
      obtain ⟨rfl, hstr, hrest⟩ := h
      have hcons : sizes (str :: l) = str.length + 1 + sizes l := by rw [sizes, List.map_cons, List.sum_cons, sizes]
      rw [hcons] at hhigh ⊢
      rw [List.forall_mem_cons] at hnul
      obtain ⟨hlen, hread, hpair, hbetween⟩ := ih hrest hnul.2 (by omega) (by omega)
      have hhead : StringAt w p str := stringAt_of_content hc hstr hnul.1 fun i hi => ⟨by omega, by omega⟩
      refine ⟨by rw [List.length_cons, List.length_cons,
        hlen], .cons hhead hread, List.pairwise_cons.2 ⟨fun q hq => ?_, hpair⟩, ?_⟩
      · exact (hbetween q hq).1
      · refine List.forall_mem_cons.2 ⟨⟨le_refl _, by dsimp only; omega⟩, fun q hq => ?_⟩
        have := hbetween q hq
        omega

theorem pointersAt_of_words {ws : List ℕ} (hc : Content stackPages c w) (hws : WordsAt c a (ptrs ++ 0 :: ws))
    (hptrs : ∀ p ∈ ptrs, p ≠ 0 ∧ p < 2 ^ 64) (hin : ∀ x, a ≤ x → x < a + 8 * (ptrs.length + 1) → InStack x) :
    PointersAt w a ptrs := by
  induction ptrs generalizing a with
  | nil =>
    exact (word_of_content hc fun i hi =>
      hin _ (by omega) (by simp only [List.length_nil]; omega)).trans (congrArg some hws.1)
  | cons p ptrs ih =>
    rw [List.forall_mem_cons] at hptrs
    rw [List.length_cons] at hin
    obtain ⟨hword, hrest⟩ := hws
    refine ⟨hptrs.1.1, ?_, ih hrest hptrs.2 fun x hx hlt => hin x (by omega) (by omega)⟩
    rw [word_of_content hc fun i hi => hin _ (by omega) (by omega), hword]
    exact congrArg some (Nat.mod_eq_of_lt hptrs.1.2)

theorem auxAt_of_words {l : List (ℕ × ℕ)} (hc : Content stackPages c w) (hws : WordsAt c a (pairWords (l ++ [(0, 0)])))
    (hl : ∀ p ∈ l, p.1 ≠ 0 ∧ p.1 < 2 ^ 64) (hin : ∀ x, a ≤ x → x < a + 16 * (l.length + 1) → InStack x) :
    AuxAt w a (l.map fun p => (p.1, u64 p.2)) := by
  induction l generalizing a with
  | nil =>
    obtain ⟨hkey, hval, -⟩ := hws
    refine ⟨(word_of_content hc fun i hi => hin _ (by omega) ?_).trans (congrArg some hkey),
      (word_of_content hc fun i hi => hin _ (by omega) ?_).trans (congrArg some hval)⟩
    all_goals
      simp only [List.length_nil]
      omega
  | cons p l ih =>
    rw [List.forall_mem_cons] at hl
    rw [List.length_cons] at hin
    obtain ⟨hkey, hval, hrest⟩ := hws
    refine ⟨hl.1.1, ?_, ?_, ih hrest hl.2 fun x hx hlt => hin x (by omega) (by omega)⟩
    · rw [word_of_content hc fun i hi => hin _ (by omega) (by omega), hkey]
      exact congrArg some (Nat.mod_eq_of_lt hl.1.2)
    · rw [word_of_content hc fun i hi => hin _ (by omega) (by omega), hval]

theorem u32_sizes (l : List (List UInt8)) : u32 (l.map argSize).sum = u32 (sizes l) := by
  unfold sizes
  induction l with
  | nil => rfl
  | cons str l ih =>
    rw [List.map_cons, List.sum_cons, List.map_cons, List.sum_cons]
    unfold argSize u32 at *
    omega

theorem sizes_append (l l' : List (List UInt8)) : sizes (l ++ l') = sizes l + sizes l' := by
  rw [sizes, List.map_append, List.sum_append]
  rfl

/-- The stack as it is built when no limit is exceeded. -/
structure Layout (argv envp : List (List UInt8)) (aux : List (ℕ × ℕ)) (argp envpp : List ℕ)
    (c : Mem) (rsp : ℕ) : Prop where
  words : WordsAt c rsp (argv.length :: (argp ++ 0 :: (envpp ++ 0 :: pairWords (aux ++ [(0, 0)]))))
  args : Laid c (LOADER_STACK_TOP - sizes envp - sizes argv) argp argv
  env : Laid c (LOADER_STACK_TOP - sizes envp) envpp envp
  vectors : rsp + 8 * (argv.length + envp.length + 29) ≤ LOADER_STACK_TOP - sizes envp - sizes argv
  align : rsp % 16 = 0

theorem Laid.length_eq (h : Laid c a ptrs l) : ptrs.length = l.length := by
  induction l generalizing a ptrs with
  | nil =>
    cases ptrs with
    | nil => rfl
    | cons p ptrs => exact h.elim
  | cons str l ih =>
    cases ptrs with
    | nil => exact h.elim
    | cons p ptrs => rw [List.length_cons, List.length_cons, ih h.2.2]

theorem pushPad_run (words : ℕ) (hc : Content stackPages c s.w) (htop : top ≤ LOADER_STACK_TOP)
    (hroom : STACK_LOW + 8 * words + 8 ≤ top) (halign : top % 8 = 0) :
    ∃ sp c' s', (pushPad top words).run s = (some sp, s') ∧ Pushed c s top c' s' sp ∧
      (sp - words * 8) % 16 = 0 ∧ top ≤ sp + 8 := by
  have hlt := stack_lt htop
  have hmod : u64 (top + 2 ^ 64 - words * 8) = top - words * 8 := by
    unfold u64
    omega
  unfold pushPad
  rw [hmod]
  split
  · obtain ⟨c', s', hrun, hpush, -⟩ := pushWord_run hc htop (by omega) (show WordsAt c top [] from trivial) 0
    exact ⟨_, c', s', hrun, hpush, by omega, by omega⟩
  · exact ⟨top, c, s, rfl, Pushed.refl hc (by omega), by omega, by omega⟩

theorem pushVectors_run {argp envpp : List ℕ} {argc envc : ℕ} (hc : Content stackPages c s.w)
    (htop : top ≤ LOADER_STACK_TOP)
    (hroom : STACK_LOW + 8 * (argc + envc) + 512 ≤ top) (hargc : argp.length = argc) (henvc : envpp.length = envc)
    (entry phdr phnum base : ℕ) :
    ∃ rsp random c' s', (pushVectors top argc envc argp envpp entry phdr phnum base).run s =
      (some rsp, s') ∧ Pushed c s top c' s' rsp ∧
      WordsAt c' rsp (argc :: (argp ++ 0 ::
      (envpp ++ 0 :: pairWords (auxv entry phdr phnum base random ++ [(0, 0)])))) ∧
      rsp + 8 * (argc + envc + 29) ≤ top ∧ rsp % 16 = 0 := by
  obtain ⟨s₃, hrun₃, hpush₃⟩ := push_run (top / 16 * 16) (List.replicate 16 0) hc (by omega)
    (by rw [List.length_replicate]; omega)
  rw [List.length_replicate] at hrun₃ hpush₃
  obtain ⟨sp, hsp⟩ : ∃ sp, top / 16 * 16 - 16 = sp := ⟨_, rfl⟩
  rw [hsp] at hrun₃ hpush₃
  have hround : sp / 16 * 16 = sp := by omega
  have hzeros : Pushed c s top (c.put sp (List.replicate 16 0)) s₃ sp :=
    ⟨hpush₃.content, fun x hx => hpush₃.above x (by omega), hpush₃.wrote, hpush₃.low, by omega⟩
  obtain ⟨sp₄, c₄, s₄, hrun₄, hpush₄, hpad, hnear⟩ := pushPad_run (26 + 1 + envc + 1 + argc + 1) hzeros.content
    (show sp ≤ LOADER_STACK_TOP by omega) (by omega) (by omega)
  have hle₄ := hpush₄.le
  have hlen : (auxv entry phdr phnum base sp ++ [(0, 0)]).length = 13 := rfl
  obtain ⟨c₅, s₅, hrun₅, hpush₅, hws₅⟩ := pushPairs_run (auxv entry phdr phnum base sp ++ [(0, 0)])
    hpush₄.content (show sp₄ ≤ _ by omega) (by rw [hlen]; omega) (show WordsAt c₄ sp₄ [] from trivial)
  rw [hlen] at hrun₅ hpush₅ hws₅
  obtain ⟨c₆, s₆, hrun₆, hpush₆, hws₆⟩ := pushWord_run hpush₅.content (hpush₅.le.trans (by omega)) (by omega) hws₅ 0
  obtain ⟨c₇, s₇, hrun₇, hpush₇, hws₇⟩ := pushWords_run envpp hpush₆.content (by omega) (by omega) hws₆
  obtain ⟨c₈, s₈, hrun₈, hpush₈, hws₈⟩ := pushWord_run hpush₇.content (by omega) (by omega) hws₇ 0
  obtain ⟨c₉, s₉, hrun₉, hpush₉, hws₉⟩ := pushWords_run argp hpush₈.content (by omega) (by omega) hws₈
  obtain ⟨c', s', hrun, hpush, hws⟩ := pushWord_run hpush₉.content (by omega) (by omega) hws₉ argc
  rw [List.append_nil] at hws
  have hvectors := ((((hpush₄.trans hpush₅).trans hpush₆).trans (hpush₇.trans hpush₈)).trans hpush₉).trans hpush
  refine ⟨_, sp, c', s', ?_, hzeros.trans hvectors, hws, by omega, by omega⟩
  unfold pushVectors
  rw [bind_of_some hrun₃, hround, bind_of_some hrun₄, bind_of_some hrun₅, bind_of_some hrun₆,
    bind_of_some hrun₇, bind_of_some hrun₈, bind_of_some hrun₉]
  exact hrun

theorem buildLinuxStack_run (hc : Content stackPages c s.w) (hfits : ¬ TooBig argv envp) (entry phdr phnum base : ℕ) :
    ∃ rsp argp envpp random c' s', (buildLinuxStack argv envp entry phdr phnum base).run s =
      (some rsp, s') ∧ Pushed c s LOADER_STACK_TOP c' s' rsp ∧
      Layout argv envp (auxv entry phdr phnum base random) argp envpp c' rsp := by
  unfold TooBig at hfits
  rw [not_or, not_or, Nat.not_lt, Nat.not_lt, Nat.not_lt] at hfits
  obtain ⟨hargc, henvc, hbytes⟩ := hfits
  have hsum : sizes (argv ++ envp) ≤ LOADER_MAX_ARGBYTES := hbytes
  have hcheck : u32 ((argv ++ envp).map argSize).sum ≤ LOADER_MAX_ARGBYTES := by
    rw [u32_sizes]
    exact (Nat.mod_le _ _).trans hsum
  rw [sizes_append] at hsum
  have hmax : LOADER_MAX_ARGBYTES = 16384 := rfl
  have hmaxArgs : LOADER_MAX_ARGS = 256 := rfl
  have htop : STACK_LOW + 32768 = LOADER_STACK_TOP := by decide
  obtain ⟨envpp, c₁, s₁, hrun₁, hpush₁, henv₁⟩ := pushStrings_run hc (le_refl LOADER_STACK_TOP)
    (show sizes envp < 2 ^ 32 by omega) (by omega)
  obtain ⟨argp, c₂, s₂, hrun₂, hpush₂, harg₂⟩ := pushStrings_run hpush₁.content
    (show LOADER_STACK_TOP - sizes envp ≤ LOADER_STACK_TOP from Nat.sub_le _ _)
    (show sizes argv < 2 ^ 32 by omega) (by omega)
  obtain ⟨rsp, random, c', s', hrun, hpush, hwords, hvectors, halign⟩ := pushVectors_run hpush₂.content
    (hpush₂.le.trans (Nat.sub_le _ _)) (by omega) harg₂.length_eq henv₁.length_eq entry phdr phnum base
  refine ⟨rsp, argp, envpp, random, c', s', ?_, (hpush₁.trans hpush₂).trans hpush,
    ⟨hwords, harg₂.congr hpush.above, (henv₁.congr hpush₂.above).congr fun x hx =>
    hpush.above x (by omega), hvectors, halign⟩⟩
  unfold buildLinuxStack
  rw [if_neg (Nat.not_lt.2 hargc), if_neg (Nat.not_lt.2 henvc), if_neg (Nat.not_lt.2 hcheck), bind_of_some hrun₁]
  exact (bind_of_some hrun₂).trans hrun

theorem exists_zip {α β : Type} {l : List α} {l' : List β} (hlen : l.length = l'.length) {x : α} (hx : x ∈ l) :
    ∃ y, (x, y) ∈ l.zip l' := by
  rw [← List.map_fst_zip hlen.le] at hx
  obtain ⟨⟨x', y⟩, hmem, rfl⟩ := List.mem_map.1 hx
  exact ⟨y, hmem⟩

/-- A program reads its arguments from the layout. -/
theorem Layout.decoded {argp envpp : List ℕ} {entry phdr phnum base random : ℕ}
    (hlay : Layout argv envp (auxv entry phdr phnum base random) argp envpp c rsp)
    (hc : Content stackPages c w) (hlow : STACK_LOW ≤ rsp) (hcount : argv.length < 2 ^ 64)
    (hnul : ∀ str ∈ argv ++ envp, 0 ∉ str) :
    Decoded w rsp argv envp argp envpp (auxv (u64 entry) (u64 phdr) (u64 phnum) (u64 base)
      (u64 random)) ∧ Separate rsp argv envp argp envpp := by
  have hlt := stack_lt (le_refl LOADER_STACK_TOP)
  have hsum : STACK_LOW ≤ LOADER_STACK_TOP - sizes envp - sizes argv :=
    hlow.trans ((Nat.le_add_right _ _).trans hlay.vectors)
  have hpos : 0 < STACK_LOW := by decide
  have hvec := hlay.vectors
  obtain ⟨hnarg, hargs, hargpair, hargin⟩ :=
    hlay.args.read hc (fun str h => hnul str (List.mem_append_left _ h)) hsum (by omega)
  obtain ⟨hnenv, henvs, henvpair, henvin⟩ :=
    hlay.env.read hc (fun str h => hnul str (List.mem_append_right _ h)) (by omega) (by omega)
  have hargp : ∀ p ∈ argp, LOADER_STACK_TOP - sizes envp - sizes argv ≤ p ∧ p < LOADER_STACK_TOP := by
    intro p hp
    obtain ⟨str, hz⟩ := exists_zip hnarg hp
    have := hargin _ hz
    dsimp only at this
    omega
  have henvp : ∀ p ∈ envpp, LOADER_STACK_TOP - sizes envp ≤ p ∧ p < LOADER_STACK_TOP := by
    intro p hp
    obtain ⟨str, hz⟩ := exists_zip hnenv hp
    have := henvin _ hz
    dsimp only at this
    omega
  have hin : ∀ x, rsp ≤ x → x < rsp + 8 * (argv.length + envp.length + 29) → InStack x := by
    intro x hx hxlt
    unfold InStack
    omega
  obtain ⟨hargc, hrest⟩ := hlay.words
  have hrest' := hrest
  rw [show argp ++ 0 :: (envpp ++ 0 :: pairWords (auxv entry phdr phnum base random ++ [(0, 0)])) =
    (argp ++ [0]) ++ ((envpp ++ [0]) ++ pairWords (auxv entry phdr phnum base random ++ [(0, 0)])) by simp] at hrest'
  obtain ⟨-, htail⟩ := wordsAt_append.1 hrest'
  obtain ⟨-, haux⟩ := wordsAt_append.1 htail
  rw [List.length_append, List.length_append, List.length_singleton, hnarg, hnenv] at haux
  rw [List.length_append, List.length_singleton, hnarg, List.append_assoc, List.singleton_append] at htail
  refine ⟨⟨?_, ?_, hargs, ?_, henvs, ?_⟩, ⟨?_, ?_⟩⟩
  · rw [word_of_content hc fun i hi => hin _ (by omega) (by omega), hargc]
    exact congrArg some (Nat.mod_eq_of_lt hcount)
  · refine pointersAt_of_words hc hrest (fun p hp => ?_) fun x hx hxlt => hin x (by omega) (by omega)
    have := hargp p hp
    omega
  · rw [show rsp + 8 * (argv.length + 2) = rsp + 8 + 8 * (argv.length + 1) by omega]
    refine pointersAt_of_words hc htail (fun p hp => ?_) fun x hx hxlt => hin x (by omega) (by omega)
    have := henvp p hp
    omega
  · rw [show rsp + 8 * (argv.length + envp.length + 3) = rsp + 8 + 8 * (argv.length + 1) + 8 *
      (envp.length + 1) by omega]
    have hkeys : ∀ p ∈ auxv entry phdr phnum base random, p.1 ≠ 0 ∧ p.1 < 2 ^ 64 := by
      simp [auxv]
    have hlen : (auxv entry phdr phnum base random).length = 12 := rfl
    exact auxAt_of_words hc haux hkeys fun x hx hxlt => hin x (by omega) (by omega)
  · rw [List.zip_append hnarg, List.pairwise_append]
    refine ⟨hargpair, henvpair, fun p hp q hq => ?_⟩
    have h := hargin p hp
    have h' := henvin q hq
    unfold Below
    omega
  · intro p hp
    rcases List.mem_append.1 hp with hp | hp
    · exact (by omega : rsp + 8 * (argv.length + envp.length + 3 +
        26) ≤ LOADER_STACK_TOP - sizes envp - sizes argv).trans (hargp p hp).1
    · have := henvp p hp
      omega

/-- A limit that is exceeded is found when the sum of the sizes does not wrap. -/
theorem buildLinuxStack_refuses (hbig : TooBig argv envp) (hwrap : ¬ SizesWrap argv envp) (entry phdr phnum base : ℕ) :
    (buildLinuxStack argv envp entry phdr phnum base).run s = (some 0, s) := by
  unfold buildLinuxStack
  split_ifs with hargc henvc hbytes
  · rfl
  · rfl
  · rfl
  · rw [u32_sizes] at hbytes
    rcases hbig with h | h | h
    · exact (hargc h).elim
    · exact (henvc h).elim
    · exact (hwrap ⟨Nat.le_of_not_lt hargc, Nat.le_of_not_lt henvc, h, Nat.le_of_not_lt hbytes⟩).elim

theorem storeByte_wrote {b : UInt8} (hrun : (storeByte a b).run s = (some (), s')) : a ∈ s'.wrote := by
  rcases hacc : s.w.access a with _ | f
  · rw [storeByte_none hacc] at hrun
    cases hrun
  · rw [storeByte_some hacc] at hrun
    cases hrun
    exact List.mem_cons_self ..

theorem push_wrote {n : ℕ} (hrun : (push top bs).run s = (some n, s')) (hbs : bs ≠ []) : s'.wrote ≠ [] := by
  unfold push at hrun
  obtain ⟨⟨⟩, s₁, hstores, hpure⟩ := bind_eq_some hrun
  cases hpure
  cases bs with
  | nil => exact (hbs rfl).elim
  | cons b bs =>
    unfold storeAll at hstores
    obtain ⟨⟨⟩, s₂, hstore, hrest⟩ := bind_eq_some hstores
    have hlogged := storeByte_wrote hstore
    have hgrew : s₂.wrote ⊆ ((storeAll (u64 (top + 2 ^ 64 - (b :: bs).length) + 1) bs).run
      s₂).2.wrote := (grows_storeAll _ bs s₂).2
    rw [hrest] at hgrew
    exact List.ne_nil_of_mem (hgrew hlogged)

/-- With a sum that wraps the check passes, and nothing is returned before the vectors are stored.
-/
theorem not_stackBuilt_of_wrap (hwrap : SizesWrap argv envp) (entry phdr phnum base : ℕ) (w : View) :
    ¬ StackBuilt argv envp entry phdr phnum base { w := w }
    ((buildLinuxStack argv envp entry phdr phnum base).run { w := w }) := by
  rintro ⟨hbig, -⟩
  obtain ⟨hargc, henvc, hbytes, hsum⟩ := hwrap
  have hrun := hbig (Or.inr (Or.inr hbytes))
  unfold buildLinuxStack at hrun
  rw [if_neg (Nat.not_lt.2 hargc), if_neg (Nat.not_lt.2 henvc),
    if_neg (by rw [u32_sizes]; exact Nat.not_lt.2 hsum)] at hrun
  obtain ⟨⟨_, _⟩, _, -, hrun⟩ := bind_eq_some hrun
  obtain ⟨⟨_, _⟩, _, -, hrun⟩ := bind_eq_some hrun
  unfold pushVectors at hrun
  obtain ⟨_, _, -, hrun⟩ := bind_eq_some hrun
  obtain ⟨_, _, -, hrun⟩ := bind_eq_some hrun
  obtain ⟨_, _, -, hrun⟩ := bind_eq_some hrun
  obtain ⟨_, _, -, hrun⟩ := bind_eq_some hrun
  obtain ⟨_, _, -, hrun⟩ := bind_eq_some hrun
  obtain ⟨_, _, -, hrun⟩ := bind_eq_some hrun
  obtain ⟨_, _, -, hrun⟩ := bind_eq_some hrun
  exact push_wrote hrun (List.cons_ne_nil _ _) rfl

/-- On a new stack the arguments are refused, or read back, exactly when the sum of their sizes does
not wrap to a small one. -/
theorem stackBuilt_iff {env : ℕ → PageEnv} {w₀ : View} (hstack : (mapUserStack env).run w₀ = (some (), w))
    (hnul : ∀ str ∈ argv ++ envp, 0 ∉ str) (entry phdr phnum base : ℕ) :
    StackBuilt argv envp entry phdr phnum base { w := w }
      ((buildLinuxStack argv envp entry phdr phnum base).run { w := w }) ↔ ¬ SizesWrap argv envp :=
      by
  refine ⟨fun hbuilt hwrap => not_stackBuilt_of_wrap hwrap entry phdr phnum base w hbuilt,
    fun hwrap => ⟨fun hbig => ?_, fun hfits => ?_⟩⟩
  · exact buildLinuxStack_refuses hbig hwrap entry phdr phnum base
  · obtain ⟨rsp, argp, envpp, random, c', s', hrun, hpushed, hlay⟩ :=
      buildLinuxStack_run (s := { w := w }) (mapUserStack_content hstack) hfits entry phdr phnum base
    have hcount : argv.length < 2 ^ 64 := by
      have := Nat.le_of_not_lt (not_or.1 hfits).1
      unfold LOADER_MAX_ARGS at this
      omega
    obtain ⟨hdecoded, hseparate⟩ := hlay.decoded hpushed.content hpushed.low hcount hnul
    have hpos : 0 < STACK_LOW := by decide
    rw [hrun]
    exact ⟨rsp, argp, envpp, _, rfl, by have := hpushed.low; omega, hlay.align, hdecoded, hseparate, hpushed.wrote⟩

/-- On a new stack the arguments are refused, or read back, when the sum of their sizes fits 32
bits: the callers pass a line of 512 bytes, or the 32 KiB that `execve` copies. -/
theorem stackBuilt_of_lt {env : ℕ → PageEnv} {w₀ : View} (hstack : (mapUserStack env).run w₀ = (some (), w))
    (hnul : ∀ str ∈ argv ++ envp, 0 ∉ str) (hsum : sizes (argv ++ envp) < 2 ^ 32) (entry phdr phnum base : ℕ) :
    StackBuilt argv envp entry phdr phnum base { w := w }
      ((buildLinuxStack argv envp entry phdr phnum base).run { w := w }) := by
  refine (stackBuilt_iff hstack hnul entry phdr phnum base).2 fun hwrap => ?_
  obtain ⟨-, -, hbig, hsmall⟩ := hwrap
  change u32 (sizes (argv ++ envp)) ≤ _ at hsmall
  change _ < sizes (argv ++ envp) at hbig
  rw [u32, Nat.mod_eq_of_lt hsum] at hsmall
  omega

theorem run_of_fst {σ α : Type} {x : Fallible σ α} {s : σ} {r : α} (h : (x.run s).1 = some r) :
    x.run s = (some r, (x.run s).2) := Prod.ext h rfl

def stackSpace : View := ((mapUserStack fun i => { frame := 0x200000 + i * 0x1000 }).run newSpace).2

theorem stackSpace_run : (mapUserStack fun i => { frame := 0x200000 + i * 0x1000 }).run newSpace =
    (some (), stackSpace) := by
  have hsome : ((mapUserStack fun i => { frame := 0x200000 + i * 0x1000 }).run newSpace).1 = some
    () := by decide +kernel
  unfold stackSpace
  exact run_of_fst hsome

theorem stackBuilt_sh :
    (mapUserStack fun i => { frame := 0x200000 + i * 0x1000 }).run newSpace = (some (), stackSpace) ∧
      StackBuilt [[115, 104]] [[72, 61, 47]] 0x400000 0x400040 1 0 { w := stackSpace }
        ((buildLinuxStack [[115, 104]] [[72, 61, 47]] 0x400000 0x400040 1 0).run { w := stackSpace }) :=
  ⟨stackSpace_run, stackBuilt_of_lt stackSpace_run (by decide) (by decide) 0x400000 0x400040 1 0⟩

end ComputerOS.Loader
