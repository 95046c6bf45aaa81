import ComputerOS.Lib.Linked

/-!
The tasks of `task.c`: the ring of those that may run, the list of zombies, and how spawning,
yielding, the timer, exits and waits move tasks between them. A section with interrupts off is one
step. Memory is given by addresses of tasks; what `kmalloc` returns is any address that is not in
use. A task that has been freed leaves memory behind that others may write to.
-/
namespace ComputerOS.Tasks

open Function

/-- The address of a task; 0 is null. -/
abbrev Ptr := ℕ

inductive TaskState
  | ready
  | running
  | blocked
  | dead
  deriving DecidableEq

/-- `task_t`, with `on_exit` either unset or `on_user_exit`. Its `next` is in the state. -/
structure Task where
  id : ℕ := 0
  state : TaskState := .ready
  isUser : Bool := false
  parent : Ptr := 0
  exitCode : ℤ := 0
  hasExited : Bool := false
  waitAny : Bool := false
  reapedByParent : Bool := false
  onExit : Bool := false
  userData : Ptr := 0

/-- Where a task goes on when it runs: at its entry, anywhere but in `task_wait_child_ex`, or there
at the top of the loop, before the call of `yield`, or behind it. -/
inductive Pc
  | entry
  | free
  | checking (pid : ℤ)
  | sleeping (pid : ℤ)
  | awake (pid : ℤ)
  deriving DecidableEq

structure St where
  task : Ptr → Task
  next : Ptr → Ptr
  live : Ptr → Bool
  current : Ptr
  ready : Ptr
  zombie : Ptr
  nextId : ℕ
  preempt : Bool
  pc : Ptr → Pc

namespace St

def setTask (s : St) (p : Ptr) (f : Task → Task) : St := { s with task := update s.task p (f (s.task p)) }

def setPc (s : St) (p : Ptr) (c : Pc) : St := { s with pc := update s.pc p c }

@[simp] theorem setTask_self (s : St) (p : Ptr) (f : Task → Task) : (s.setTask p f).task p = f (s.task p) :=
  update_self ..

theorem setTask_of_ne {s : St} {p q : Ptr} {f : Task → Task} (h : q ≠ p) : (s.setTask p f).task q = s.task q :=
  update_of_ne h ..

/-- More steps than any list has tasks. -/
def fuel (s : St) : ℕ := s.nextId + 1

end St

def taskingInit (k : Ptr) : St where
  task := update (fun _ => {}) k { state := .running }
  next := update (fun _ => 0) k k
  live := update (fun _ => false) k true
  current := k
  ready := k
  zombie := 0
  nextId := 1
  preempt := false
  pc := fun _ => .free

def readyInsert (s : St) (t : Ptr) : St :=
  if s.ready = 0 then { s with ready := t, next := update s.next t t }
  else { s with next := update (update s.next t (s.next s.ready)) s.ready t }

def readyRemove (s : St) (t : Ptr) : Option St :=
  if s.ready = 0 ∨ t = 0 then some s
  else (seekRound s.next (fun p => s.next p == t) s.ready s.fuel s.ready).map fun
    | none => s
    | some p =>
      if p = t then { s with ready := 0, next := update s.next t 0 }
      else { s with
        next := update (update s.next p (s.next t)) t 0
        ready := if s.ready = t then s.next t else s.ready }

def Task.runnable (t : Task) : Bool := t.state == .ready || t.state == .running

def pickNext (s : St) (from' : Ptr) : Option Ptr :=
  seek s.next (fun p => p == from' || (s.task p).runnable) s.fuel (s.next from')

/-- A task unlinked from the zombies, behind `prev` if that is not null, and freed. -/
def freeZombie (s : St) (prev z : Ptr) : St :=
  { s with
    next := if prev = 0 then s.next else update s.next prev (s.next z)
    zombie := if prev = 0 then s.next z else s.zombie
    task := if (s.task z).onExit then update s.task z { s.task z with userData := 0 } else s.task
    live := update s.live z false }

/-- The loop of `reap_zombies`. -/
def reapFrom : ℕ → Ptr → Ptr → St → Option St
  | 0, _, _, _ => none
  | n + 1, prev, z, s =>
    if z = 0 then some s
    else if (s.task z).reapedByParent then reapFrom n prev (s.next z) (freeZombie s prev z)
    else reapFrom n z (s.next z) s

def reapZombies (s : St) : Option St := reapFrom s.fuel 0 s.zombie s

/-- The switch of `yield` and `scheduler_tick`. -/
def switchTo (s : St) (nx : Ptr) : St :=
  let s := s.setTask s.current fun t => if t.state = .running then { t with state := .ready } else t
  let s := s.setTask nx fun t => { t with state := .running }
  { s with current := nx, pc := update s.pc nx (if s.pc nx = .entry then .free else s.pc nx) }

/-- The choice of the next task, and the switch to it. -/
def schedule (s : St) : Option St :=
  (pickNext s s.current).map fun nx => if nx = s.current then s else switchTo s nx

def yield (s : St) : Option St := do
  let s ← reapZombies s
  if s.current = 0 ∨ s.ready = 0 then pure s else schedule s

def schedulerTick (s : St) : Option St :=
  if !s.preempt ∨ s.current = 0 ∨ s.ready = 0 then some s else schedule s

/-- `task_spawn`, and `task_spawn_user` and `task_clone_user` with `user`: the task at `a` is put in
the ring. -/
def taskSpawn (s : St) (a : Ptr) (user : Bool) : St :=
  readyInsert { s with
    task := update s.task a { id := s.nextId, isUser := user }
    live := update s.live a true
    nextId := s.nextId + 1
    pc := update s.pc a .entry } a

/-- The parent of a task that is blocked in a wait goes on. -/
def wake (s : St) (p : Ptr) : St :=
  if p ≠ 0 ∧ (s.task p).state = .blocked ∧ (s.task p).waitAny then s.setTask p fun t => { t with state := .ready }
  else s

/-- A dead task that has left the ring is put in front of the zombies, and its parent goes on.
Without a parent nobody has to wait for it. -/
def bury (s : St) (c : Ptr) : St :=
  let p := (s.task c).parent
  let s := wake s p
  let s := if p = 0 then s.setTask c fun t => { t with reapedByParent := true } else s
  { s with next := update s.next c s.zombie, zombie := c }

/-- The first task from `ready` on that is neither dead nor blocked runs. When there is none the one
that has exited stays the current one and halts. -/
def dispatch (s : St) : Option St :=
  if s.ready = 0 then some s
  else do
    let r ← seekRound s.next (fun q => !((s.task q).state == .dead || (s.task q).state == .blocked))
      s.ready s.fuel s.ready
    match r with
    | none => pure s
    | some nx =>
      let s := s.setTask nx fun t => { t with state := .running }
      pure { s with current := nx, pc := update s.pc nx (if s.pc nx = .entry then .free else s.pc nx) }

def taskExitCode (s : St) (code : ℤ) : Option St := do
  let c := s.current
  let s ← readyRemove (s.setTask c fun t => { t with exitCode := code, hasExited := true, state := .dead }) c
  dispatch (bury s c)

def waitMatch (t : Task) (pid : ℤ) : Bool := pid ≤ 0 || t.id == pid

/-- A zombie that `has_any_child` counts. -/
def unreaped (s : St) (pid : ℤ) (z : Ptr) : Bool :=
  (s.task z).parent == s.current && !(s.task z).reapedByParent && waitMatch (s.task z) pid

/-- A task of the ring that `has_any_child` counts. -/
def alive (s : St) (pid : ℤ) (p : Ptr) : Bool :=
  (s.task p).parent == s.current && p != s.current && waitMatch (s.task p) pid &&
  (s.task p).state != .dead

def hasAnyChild (s : St) (pid : ℤ) : Option Bool := do
  let found ← if s.ready = 0 then pure none else seekRound s.next (alive s pid) s.ready s.fuel s.ready
  if found.isSome then pure true
  else do
    let z ← seek s.next (fun z => z == 0 || unreaped s pid z) s.fuel s.zombie
    pure (z != 0)

/-- `find_dead_child`, 0 when there is none -/
def findDeadChild (s : St) (pid : ℤ) : Option Ptr :=
  seek s.next (fun z => z == 0 || ((s.task z).hasExited && unreaped s pid z)) s.fuel s.zombie

/-- What a check of `task_wait_child_ex` comes to. -/
inductive WaitResult
  | child (id : ℕ) (code : ℤ)
  | noChild
  | notYet
  | block
  deriving DecidableEq

/-- The section of `task_wait_child_ex` with interrupts off. -/
def waitCheck (s : St) (pid : ℤ) (nohang : Bool) : Option (WaitResult × St) := do
  let z ← findDeadChild s pid
  if z ≠ 0 then
    pure (.child (s.task z).id (s.task z).exitCode,
      (s.setTask z fun t => { t with reapedByParent := true }).setPc s.current .free)
  else if !(← hasAnyChild s pid) then pure (.noChild, s.setPc s.current .free)
  else if nohang then pure (.notYet, s.setPc s.current .free)
  else pure (.block,
    (s.setTask s.current fun t => { t with waitAny := true, state := .blocked }).setPc s.current (.sleeping pid))

/-- The next step of a task in `task_wait_child_ex`. -/
def resume (s : St) : Option St :=
  match s.pc s.current with
  | .entry | .free => some s
  | .checking pid => (waitCheck s pid false).map Prod.snd
  | .sleeping pid => yield (s.setPc s.current (.awake pid))
  | .awake pid => some ((s.setTask s.current fun t => { t with waitAny := false }).setPc s.current (.checking pid))

/-- A step of the system. `link` is what the callers of `task_spawn_user` and `task_clone_user` do
with the new task, `scribble` a write of somebody else to memory in which no task is. -/
inductive Op
  | tick
  | enablePreemption
  | spawn (a : Ptr) (user : Bool)
  | link (c : Ptr)
  | yield
  | exit (code : ℤ)
  | wait (pid : ℤ) (nohang : Bool)
  | resume
  | scribble (p : Ptr) (t : Task)

/-- Interrupts come at any time; else the current task does what comes next, and `kmain` does not
exit. -/
def Op.Enabled (k : Ptr) (s : St) : Op → Prop
  | .tick => True
  | .enablePreemption => s.pc s.current = .free
  | .spawn a _ => s.pc s.current = .free ∧ a ≠ 0 ∧ s.live a = false
  | .link c =>
    s.pc s.current = .free ∧ s.live c = true ∧ (s.task c).isUser = true ∧ (s.task c).parent = 0 ∧
      c ≠ s.current
  | .yield => s.pc s.current = .free
  | .exit _ => s.pc s.current = .free ∧ s.current ≠ k
  | .wait _ _ => s.pc s.current = .free
  | .resume => s.pc s.current ≠ .free
  | .scribble p _ => s.live p = false

def Op.run (s : St) : Op → Option St
  | .tick => schedulerTick s
  | .enablePreemption => some { s with preempt := true }
  | .spawn a user => some (taskSpawn s a user)
  | .link c => some (s.setTask c fun t => { t with parent := s.current })
  | .yield => Tasks.yield s
  | .exit code => taskExitCode s code
  | .wait pid nohang => (waitCheck s pid nohang).map Prod.snd
  | .resume => Tasks.resume s
  | .scribble p t => some (s.setTask p fun _ => t)

/-- What a run shows: who has been spawned, has exited, and has been returned to whom. -/
inductive Event
  | linked (parent child : ℕ)
  | exited (id : ℕ) (code : ℤ)
  | waited (parent child : ℕ) (code : ℤ)
  deriving DecidableEq

/-- The result of a check, as an event. -/
def waitEvents (s : St) (pid : ℤ) (nohang : Bool) : List Event :=
  match (waitCheck s pid nohang).map Prod.fst with
  | some (.child id code) => [.waited (s.task s.current).id id code]
  | _ => []

def Op.events (s : St) : Op → List Event
  | .link c => [.linked (s.task s.current).id (s.task c).id]
  | .exit code => [.exited (s.task s.current).id code]
  | .wait pid nohang => waitEvents s pid nohang
  | .resume =>
    match s.pc s.current with
    | .checking pid => waitEvents s pid false
    | _ => []
  | _ => []

/-- A run from `tasking_init` on whose steps all have `ok`, with its events, the newest one first.
-/
inductive Run (ok : St → Op → Prop) (k : Ptr) : List Event → St → Prop
  | init : Run ok k [] (taskingInit k)
  | step {T : List Event} {s s' : St} {op : Op} (h : Run ok k T s) (hop : op.Enabled k s) (hok : ok s op)
      (hrun : op.run s = some s') : Run ok k (op.events s ++ T) s'

theorem Run.imp {ok ok' : St → Op → Prop} {k : Ptr} {T : List Event} {s : St} (h : Run ok k T s)
    (himp : ∀ s op, ok s op → ok' s op) : Run ok' k T s := by
  induction h with
  | init => exact .init
  | step _ hop hok hrun ih => exact ih.step hop (himp _ _ hok) hrun

instance {k : Ptr} {s : St} : ∀ op : Op, Decidable (op.Enabled k s)
  | .tick => inferInstanceAs (Decidable True)
  | .enablePreemption => inferInstanceAs (Decidable (_ = _))
  | .spawn .. => inferInstanceAs (Decidable (_ ∧ _ ≠ _ ∧ _))
  | .link _ => inferInstanceAs (Decidable (_ ∧ _ ∧ _ ∧ _ ∧ _ ≠ _))
  | .yield => inferInstanceAs (Decidable (_ = _))
  | .exit _ => inferInstanceAs (Decidable (_ ∧ _ ≠ _))
  | .wait .. => inferInstanceAs (Decidable (_ = _))
  | .resume => inferInstanceAs (Decidable (_ ≠ _))
  | .scribble .. => inferInstanceAs (Decidable (_ = _))

/-- The steps taken one after the other, if each of them may be. -/
def play (ok : St → Op → Prop) [∀ s op, Decidable (ok s op)] (k : Ptr) :
    List Op → List Event → St → Option (List Event × St)
  | [], T, s => some (T, s)
  | op :: ops, T, s =>
    if op.Enabled k s ∧ ok s op then (op.run s).bind (play ok k ops (op.events s ++ T)) else none

theorem Run.play {ok : St → Op → Prop} [∀ s op, Decidable (ok s op)] {k : Ptr} {ops : List Op}
    {T T' : List Event} {s s' : St}
    (h : Run ok k T s) (hp : play ok k ops T s = some (T', s')) : Run ok k T' s' := by
  induction ops generalizing T s with
  | nil =>
    cases hp
    exact h
  | cons op ops ih =>
    rw [Tasks.play] at hp
    split at hp
    · rename_i hop
      obtain ⟨s1, hrun, hp⟩ := Option.bind_eq_some_iff.mp hp
      exact ih (h.step hop.1 hop.2 hrun) hp
    · cases hp

theorem Run.exists_of_play {ok : St → Op → Prop} [∀ s op, Decidable (ok s op)] {k : Ptr} (ops : List Op)
    (P : List Event → St → Prop) [∀ T s, Decidable (P T s)]
    (h : (Tasks.play ok k ops [] (taskingInit k)).any fun x => decide (P x.1 x.2)) : ∃ T s, Run ok k T s ∧ P T s := by
  cases hx : Tasks.play ok k ops [] (taskingInit k) with
  | none =>
    rw [hx] at h
    cases h
  | some x =>
    rw [hx] at h
    exact ⟨x.1, x.2, Run.init.play hx, of_decide_eq_true h⟩

end ComputerOS.Tasks
