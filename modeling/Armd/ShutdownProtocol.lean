import Armd.Shutdown

/-!
The shutdown protocol. What `armd_module_startall` walked is what
`armd_module_stopall` finds again, whatever the registration callbacks did to
the links (`Walked`), and a handle that was closed is on no list that a pass
visits (`Inv`). So in every run everything is stopped at most once, no signal is
lost, and what was stopped is never called again (`shutdown_protocol`).
-/
namespace Armd.ShutdownProtocol
open Armd.Programs Armd.Runs Armd.LinkedRings Armd.Datastructure Armd.Message Armd.Memory Armd.Module Armd.Registry
  Armd.RegistryModel Armd.RegistryCalls Armd.StartStop Armd.Lifecycle Armd.Operations Armd.Shutdown
open Armd.Posting (PostPc beginStart openModule finishStart lockedPost_done finishPost_done)

variable {M P : Type} [DecidableEq M]

/-! ### What the main thread has walked -/

/-- What `armd_module_startall` and `armd_module_stopall` go by. -/
structure Ground (M : Type) where
  lists : Heap (Node M)
  initialized : Bool
  state : M → HandleState

def ground (w : World M) : Ground M := ⟨w.lists,w.registryInitialized,fun m => (w.modules m).async.state⟩

/-- From a sentinel through these modules, all with operations, to a cursor. -/
structure Leads (d : Modules M) (g : Ground M) (level : Fin maxLevel) (ms : List M) (node : Option (Node M)) : Prop where
  walk : Walk g.lists (g.lists (.sentinel level)).next (ms.map Node.module) node
  operated : ∀ m ∈ ms, d.sys.mops m ≠ none

/-- The loops over these levels come back to their sentinels, and pass the monitor if its timer is active. -/
structure Covers (d : Modules M) (g : Ground M) (timer : Bool) (ls : List (Fin maxLevel)) (R : Levels M) : Prop where
  initialized : g.initialized = true
  leads : ∀ l ∈ ls, Leads d g l (R l) (some (.sentinel l))
  timer : timer = true → ∃ l ∈ ls, d.monitor ∈ R l

/-- The loop over a level has come to a cursor, after the levels before. -/
def Begun (d : Modules M) (g : Ground M) (timer : Bool) (l : Fin maxLevel) (rest : List (Fin maxLevel))
    (node : Option (Node M)) : Prop :=
  ∃ before R front, levels = before ++ l :: rest ∧ Leads d g l front node ∧
    Covers d g (timer && decide (d.monitor ∉ front)) before R

/-- The module in front of a sentinel is not active, so that closing it aborts. -/
def Doomed (d : Modules M) (g : Ground M) : List (Fin maxLevel) → Prop
  | [] => False
  | l :: _ => ∃ m, (g.lists (.sentinel l)).next = some (.module m) ∧ d.sys.mops m ≠ none ∧ g.state m ≠ .active

def Walked (d : Modules M) (g : Ground M) (timer : Bool) (entered : Prop) : Pc M → Prop
  | .boot | .booted | .regcalls => timer = false
  | .startall l rest node => Begun d g timer l rest node
  | .starting m l rest | .onStart m l rest => d.sys.mops m ≠ none ∧ Begun d g timer l rest (some (.module m))
  | .stopall ls => (∃ R, Covers d g timer ls R) ∨ Doomed d g ls
  | .onStop m ls =>
    (∃ R l rest ms, ls = l :: rest ∧ R l = m :: ms ∧ Covers d g timer ls R) ∨ g.state m ≠ .active
  | _ => entered ∨ ∃ R, Covers d g timer levels R

section
variable {d : Modules M} {g g' : Ground M} {timer : Bool}

omit [DecidableEq M] in
/-- Walking only depends on the links. -/
theorem Covers.congr {ls : List (Fin maxLevel)} {R : Levels M} (covers : Covers d g timer ls R)
    (lists : g'.lists = g.lists) (initialized : g'.initialized = g.initialized) : Covers d g' timer ls R where
  initialized := initialized.trans covers.initialized
  leads := fun l member => by
    obtain ⟨walk,operated⟩ := covers.leads l member
    exact ⟨by rwa [lists],operated⟩
  timer := covers.timer

theorem Begun.congr {l : Fin maxLevel} {rest : List (Fin maxLevel)} {node : Option (Node M)}
    (begun : Begun d g timer l rest node) (lists : g'.lists = g.lists) (initialized : g'.initialized = g.initialized) :
    Begun d g' timer l rest node := by
  obtain ⟨before,R,front,split,leads,covers⟩ := begun
  exact ⟨before,R,front,split,⟨by rw [lists]; exact leads.walk,leads.operated⟩,covers.congr lists initialized⟩

/-- The module at the cursor was started. -/
theorem Begun.next {l : Fin maxLevel} {rest : List (Fin maxLevel)} {m : M} (begun : Begun d g timer l rest (some (.module m)))
    (operated : d.sys.mops m ≠ none) :
    Begun d g (timer || decide (m = d.monitor)) l rest (g.lists (.module m)).next := by
  obtain ⟨before,R,front,split,leads,covers⟩ := begun
  refine ⟨before,R,front ++ [m],split,⟨?_,fun m' member => ?_⟩,⟨covers.initialized,covers.leads,fun active => ?_⟩⟩
  · rw [List.map_append]
    exact walk_snoc leads.walk
  · rcases List.mem_append.mp member with old | new
    · exact leads.operated m' old
    · rw [List.mem_singleton.mp new]; exact operated
  · obtain ⟨active,passed⟩ := Bool.and_eq_true_iff.mp active
    have passed : d.monitor ∉ front ++ [m] := of_decide_eq_true passed
    have other : ¬ m = d.monitor := by rintro rfl; exact passed (by simp)
    exact covers.timer (by simpa [other] using And.intro active fun inside => passed (List.mem_append_left _ inside))

/-- The levels to come, after the levels before. -/
private theorem walked_enterLevel {w : World M} {before rest : List (Fin maxLevel)} {R : Levels M} {entered : Prop}
    (split : levels = before ++ rest) (covers : Covers d (ground w) timer before R) :
    Walked d (ground w) timer entered (enterLevel w rest) := by
  cases rest with
  | nil =>
    rw [List.append_nil] at split
    exact .inr ⟨R,by rwa [split]⟩
  | cons l rest => exact ⟨before,R,[],split,⟨rfl,by simp⟩,by simpa using covers⟩

/-- The end of a level. -/
private theorem covers_level {l : Fin maxLevel} {rest before : List (Fin maxLevel)} {R : Levels M} {front : List M}
    (split : levels = before ++ l :: rest) (leads : Leads d g l front (some (.sentinel l)))
    (covers : Covers d g (timer && decide (d.monitor ∉ front)) before R) :
    ∃ R', Covers d g timer (before ++ [l]) R' := by
  have fresh : l ∉ before := by
    have distinct : levels.Nodup := List.nodup_finRange maxLevel
    rw [split] at distinct
    exact fun member => (List.nodup_append.mp distinct).2.2 l member l (by simp) rfl
  have others : ∀ l' ∈ before, Function.update R l front l' = R l' := fun l' member =>
    Function.update_of_ne (by rintro rfl; exact fresh member) _ _
  refine ⟨Function.update R l front,covers.initialized,fun l' member => ?_,fun active => ?_⟩
  · rcases List.mem_append.mp member with old | new
    · rw [others l' old]; exact covers.leads l' old
    · rw [List.mem_singleton.mp new,Function.update_self]; exact leads
  · by_cases here : d.monitor ∈ front
    · exact ⟨l,by simp,by rwa [Function.update_self]⟩
    · obtain ⟨l',member,there⟩ := covers.timer (by simp [active,here])
      exact ⟨l',List.mem_append_left _ member,by rwa [others l' member]⟩

omit [DecidableEq M] in
theorem Leads.next {l : Fin maxLevel} {m : M} {ms : List M} {node : Option (Node M)} (leads : Leads d g l (m :: ms) node) :
    (g.lists (.sentinel l)).next = some (.module m) := leads.walk.1

omit [DecidableEq M] in
private theorem module_of_map {ms : List M} : ∀ x ∈ ms.map Node.module, ∃ m : M, x = .module m := by
  intro x member
  obtain ⟨m,_,rfl⟩ := List.mem_map.mp member
  exact ⟨m,rfl⟩

omit [DecidableEq M] in
private theorem sentinel_ne {l : Fin maxLevel} : ¬ ∃ m : M, Node.sentinel l = .module m := by
  rintro ⟨m,same⟩
  cases same

/-- Deleting the module in front of a sentinel takes it off the way, unless its `prev` leads elsewhere; then it
    stays in front. -/
private theorem covers_delete {l : Fin maxLevel} {rest : List (Fin maxLevel)} {R : Levels M} {m : M} {ms : List M}
    (covers : Covers d g timer (l :: rest) R) (head : R l = m :: ms)
    (deleted : armdListDelete g.lists (.module m) = some g'.lists) (initialized : g'.initialized = g.initialized)
    (closed : g'.state m ≠ .active) :
    (∃ R', Covers d g' (timer && decide (m ≠ d.monitor)) (l :: rest) R') ∨ Doomed d g' (l :: rest) := by
  obtain ⟨before,_,next⟩ := armdListDelete_next deleted
  have first : Leads d g l (m :: ms) (some (.sentinel l)) := head ▸ covers.leads l (by simp)
  have start : ∀ l', (g'.lists (.sentinel l')).next =
      if Node.sentinel l' = before then (g.lists (.module m)).next else (g.lists (.sentinel l')).next := fun l' => by
    rw [next,if_neg (by simp)]
  by_cases there : Node.sentinel l = before
  · refine .inl ⟨Function.update R l ms,initialized.trans covers.initialized,fun l' member => ?_,fun active => ?_⟩
    · have after : ∀ x, x ≠ .module m → (∃ m' : M, x = .module m') → (g'.lists x).next = (g.lists x).next := by
        rintro x other ⟨m',rfl⟩
        rw [next,if_neg other,if_neg (by rw [← there]; simp)]
      by_cases same : l' = l
      · subst same
        have fresh := walk_fresh first.walk module_of_map sentinel_ne
        rw [Function.update_self]
        refine ⟨?_,fun m' inside => first.operated m' (List.mem_cons_of_mem _ inside)⟩
        rw [start,if_pos there]
        exact walk_congr first.walk.2 fun x inside =>
          after x (by rintro rfl; exact fresh inside) (module_of_map x inside)
      · rw [Function.update_of_ne same]
        have leads := covers.leads l' member
        refine ⟨?_,leads.operated⟩
        rw [start,if_neg (by rw [← there]; simpa using same)]
        refine walk_congr leads.walk fun x inside => after x ?_ (module_of_map x inside)
        rintro rfl
        have meet := walk_apart leads.walk first.walk module_of_map module_of_map sentinel_ne sentinel_ne inside (by simp)
        exact same (by simpa using meet)
    · obtain ⟨active,other⟩ := Bool.and_eq_true_iff.mp active
      obtain ⟨l',member,inside⟩ := covers.timer active
      refine ⟨l',member,?_⟩
      by_cases same : l' = l
      · subst same
        rw [head] at inside
        rw [Function.update_self]
        exact (List.mem_cons.mp inside).resolve_left (Ne.symm (of_decide_eq_true other))
      · rwa [Function.update_of_ne same]
  · refine .inr ⟨m,?_,first.operated m (by simp),closed⟩
    rw [start,if_neg there]
    exact first.next

private theorem nextStop_done {l : Fin maxLevel} {w w' : World M} {next : Option M} (found : nextStop l w = .done next w') :
    w' = w ∧ (w.lists (.sentinel l)).next = match next with
      | none => some (.sentinel l)
      | some m => some (.module m) := by
  simp only [nextStop,Program.bind_run,Program.get_run,Outcome.andThen_done,Program.ite_run] at found
  by_cases empty : armdListEmpty w.lists (.sentinel l)
  · rw [if_pos empty] at found
    cases found
    exact ⟨rfl,of_decide_eq_true empty⟩
  · rw [if_neg empty] at found
    obtain ⟨m,w₁,member,same⟩ := Outcome.andThen_eq_done.mp found
    cases same
    cases node : (w.lists (.sentinel l)).next with
    | none => rw [node] at member; cases member
    | some x =>
      rw [node] at member
      cases x with
      | sentinel => cases member
      | module m' => cases member; exact ⟨rfl,rfl⟩

private theorem signal_done {w w' : World M} {u : Unit} (sent : uvAsyncSend .shutdown w = .done u w') :
    ground w' = ground w ∧ w'.uvLoop = w.uvLoop ∧ w'.shutdownAsync.pending = true := by
  rw [send_done sent]
  exact ⟨rfl,rfl,rfl⟩

end

/-! ### The invariant -/

/-- `on_shutdown_async` was entered. -/
def Entered (s : State M P) : Prop := .onShutdownAsync ∈ s.log

/-- A pass visits the handle, this one or the next. -/
def Listed (s : State M P) (h : Handle M) : Prop := h ∈ s.queue ∨ h ∈ s.world.uvLoop.asyncHandles

inductive Phase
  | starting
  | running
  | stopping
  deriving DecidableEq

def phase : Pc M → Phase
  | .boot | .booted | .regcalls | .startall .. | .starting .. | .onStart .. => .starting
  | .stopall _ | .onStop .. => .stopping
  | _ => .running

/-- `async_callback` runs for the module. -/
def Draining : Pc M → M → Prop
  | .asyncCallback m, m' | .onMessage m, m' => m = m'
  | _, _ => False

/-- `uv__async_io` is on the stack. -/
def inPass : Pc M → Bool
  | .asyncIo | .asyncCallback _ | .onMessage _ | .stopall _ | .onStop .. => true
  | _ => false

structure Inv (d : Modules M) (s : State M P) : Prop where
  queue : inPass s.pc = false → s.queue = []
  together : s.log.count .stopall = s.log.count .onShutdownAsync
  entered : s.log.count .onShutdownAsync ≤ 1
  closed : s.log.count .closeShutdown ≤ 1
  after : .closeShutdown ∈ s.log → Entered s ∧ phase s.pc = .running
  boot : s.pc = .boot → s.handlers = false ∧ .signalHandler ∉ s.log
  due : s.pc ≠ .boot → ¬ Entered s → Listed s .shutdown
  pending : .signalHandler ∈ s.log → ¬ Entered s → s.world.shutdownAsync.pending = true
  early : Entered s → phase s.pc ≠ .starting
  inside : phase s.pc = .stopping → Entered s
  off : Entered s → phase s.pc = .running → ¬ Listed s .shutdown ∧ s.timer = false
  stopped : ∀ m, .onStop m ∈ s.log →
    Entered s ∧ (¬ Listed s (.module m) ∨ ∃ ls, s.pc = .onStop m ls) ∧ ¬ Draining s.pc m
  orderly : Along Orderly s.log
  walked : Walked d (ground s.world) s.timer (Entered s) s.pc

section
variable {d : Modules M} {s s' : State M P} {w : World M} {pc : Pc M}

theorem inv_initial : Inv d (initial : State M P) where
  queue := fun _ => rfl
  together := rfl
  entered := Nat.zero_le 1
  closed := Nat.zero_le 1
  after := fun there => by cases there
  boot := fun _ => ⟨rfl,by simp [initial]⟩
  due := fun later => absurd rfl later
  pending := fun there => by cases there
  early := fun there => by cases there
  inside := fun stopping => by cases stopping
  off := fun there => by cases there
  stopped := fun _ there => by cases there
  orderly := along_nil _
  walked := rfl

/-- A step that writes no call down. -/
private theorem inv_quiet (inv : Inv d s) (log : s'.log = s.log)
    (phases : phase s'.pc = phase s.pc ∨ (phase s.pc = .starting ∧ phase s'.pc = .running))
    (queue : inPass s'.pc = false → (inPass s.pc = false → s.queue = []) → s'.queue = [])
    (boot : s'.pc = .boot → s.pc = .boot ∧ s'.handlers = s.handlers)
    (due : s'.pc ≠ .boot → (s.pc ≠ .boot → Listed s .shutdown) → Listed s' .shutdown)
    (pending : .signalHandler ∈ s.log → s.world.shutdownAsync.pending = true → s'.world.shutdownAsync.pending = true)
    (listed : Entered s → ∀ h, Listed s' h → Listed s h) (timer : Entered s → s'.timer = true → s.timer = true)
    (onStop : ∀ m ls, s.pc = .onStop m ls → ¬ Listed s' (.module m) ∨ ∃ ls, s'.pc = .onStop m ls)
    (draining : ∀ m, Draining s'.pc m → Draining s.pc m ∨ .onStop m ∉ s.log)
    (walked : Walked d (ground s'.world) s'.timer (Entered s) s'.pc) : Inv d s' := by
  have entered : Entered s' = Entered s := by rw [Entered,log,Entered]
  have running : Entered s → phase s'.pc = .running → phase s.pc = .running := by
    intro there after
    rcases phases with same | ⟨starting,_⟩
    · exact same ▸ after
    · exact absurd starting (inv.early there)
  refine ⟨fun outside => queue outside inv.queue,by rw [log]; exact inv.together,by rw [log]; exact inv.entered,by rw [log]; exact inv.closed,?_,?_,?_,?_,?_,?_,
    ?_,?_,by rw [log]; exact inv.orderly,by rwa [entered]⟩
  · rw [log,entered]
    intro there
    obtain ⟨shutdown,before⟩ := inv.after there
    exact ⟨shutdown,phases.elim (fun same => same.trans before) fun change => by rw [before] at change; cases change.1⟩
  · intro now
    obtain ⟨before,handlers⟩ := boot now
    rw [handlers,log]
    exact inv.boot before
  · rw [entered]
    exact fun later notYet => due later fun before => inv.due before notYet
  · rw [log,entered]
    exact fun there notYet => pending there (inv.pending there notYet)
  · rw [entered]
    intro there
    rcases phases with same | ⟨_,after⟩
    · rw [same]; exact inv.early there
    · rw [after]; simp
  · rw [entered]
    intro stopping
    rcases phases with same | ⟨_,after⟩
    · exact inv.inside (same ▸ stopping)
    · rw [after] at stopping; cases stopping
  · rw [entered]
    intro there after
    obtain ⟨gone,stopped⟩ := inv.off there (running there after)
    refine ⟨fun back => gone (listed there _ back),?_⟩
    by_contra active
    rw [timer there (by simpa using active)] at stopped
    cases stopped
  · rw [log,entered]
    intro m there
    obtain ⟨shutdown,gone,notDraining⟩ := inv.stopped m there
    refine ⟨shutdown,gone.elim (fun gone => .inl fun back => gone (listed shutdown _ back)) fun ⟨ls,pc⟩ => onStop m ls pc,
      ?_⟩
    exact fun now => (draining m now).elim notDraining fun absent => absent there

/-- The main thread goes on, and the lists of the pass stay as they are. -/
private theorem inv_goto (inv : Inv d s) (same : loopView w = loopView s.world) (begun : s.pc ≠ .boot)
    (phases : pc ≠ .boot ∧ (phase pc = phase s.pc ∨ (phase s.pc = .starting ∧ phase pc = .running)))
    (pass : inPass pc = false → inPass s.pc = false ∨ s.queue = []) (onStop : ∀ m ls, s.pc ≠ .onStop m ls)
    (draining : ∀ m, Draining pc m → Draining s.pc m ∨ .onStop m ∉ s.log)
    (walked : Walked d (ground w) s.timer (Entered s) pc) : Inv d (s.goto w pc) := by
  have pending : w.shutdownAsync.pending = s.world.shutdownAsync.pending := congrArg Prod.fst same
  have handles : w.uvLoop.asyncHandles = s.world.uvLoop.asyncHandles := congrArg Prod.snd same
  have listed : ∀ h, Listed (s.goto w pc) h ↔ Listed s h := fun h => by
    rw [Listed,Listed,← handles]
    exact Iff.rfl
  exact inv_quiet inv rfl phases.2 (fun outside before => (pass outside).elim before id) (fun now => absurd now phases.1)
    (fun _ before => (listed _).mpr (before begun)) (fun _ before => pending.trans before)
    (fun _ h => (listed h).mp) (fun _ => id) (fun m ls now => absurd now (onStop m ls)) draining walked

/-- Something happens beside the main thread. -/
private theorem inv_beside (inv : Inv d s) {poster : P → PostPc M} (grounds : ground w = ground s.world)
    (handles : w.uvLoop.asyncHandles = s.world.uvLoop.asyncHandles)
    (pending : s.world.shutdownAsync.pending = true → w.shutdownAsync.pending = true) :
    Inv d { s with world := w, poster := poster } := by
  have listed : ∀ h, Listed { s with world := w, poster := poster } h ↔ Listed s h := fun h => by
    rw [Listed,Listed,← handles]
  refine inv_quiet inv rfl (.inl rfl) (fun outside before => before outside) (fun now => ⟨now,rfl⟩)
    (fun later before => (listed _).mpr (before later)) (fun _ => pending) (fun _ h => (listed h).mp) (fun _ => id)
    (fun m ls now => .inr ⟨ls,now⟩) (fun _ now => .inl now) ?_
  show Walked d (ground w) s.timer (Entered s) s.pc
  rw [grounds]
  exact inv.walked

/-- A call that is no part of `on_shutdown_async` itself. -/
def Plain : Call M → Prop
  | .onShutdownAsync | .stopall | .closeShutdown => False
  | _ => True

/-- A call is written down: a signal with the shutdown handle pending, an `on_stop` where the main thread is in it. -/
private theorem inv_note (inv : Inv d s) (c : Call M) (plain : Plain c) (orderly : Orderly s.log c)
    (signal : c = .signalHandler → s.pc ≠ .boot ∧ s.world.shutdownAsync.pending = true)
    (onStop : ∀ m, c = .onStop m → ∃ ls, s.pc = .onStop m ls) : Inv d { s with log := s.log ++ [c] } := by
  have other : c ≠ .onShutdownAsync ∧ c ≠ .stopall ∧ c ≠ .closeShutdown := by
    cases c <;> simp [Plain] at plain ⊢
  obtain ⟨notEntered,notStopall,notClosed⟩ := other
  have entered : Entered { s with log := s.log ++ [c] } ↔ Entered s := by
    simp [Entered,Ne.symm notEntered]
  refine ⟨inv.queue,?_,?_,?_,?_,?_,?_,?_,?_,?_,?_,?_,along_snoc.mpr ⟨inv.orderly,orderly⟩,?_⟩
  · simpa [List.count_append,notEntered,notStopall] using inv.together
  · simpa [List.count_append,notEntered] using inv.entered
  · simpa [List.count_append,notClosed] using inv.closed
  · rw [entered]
    exact fun there => inv.after (by simpa [Ne.symm notClosed] using there)
  · intro boot
    obtain ⟨handlers,none⟩ := inv.boot boot
    refine ⟨handlers,fun there => ?_⟩
    rcases List.mem_append.mp there with old | new
    · exact none old
    · exact (signal (List.mem_singleton.mp new).symm).1 boot
  · rw [entered]; exact inv.due
  · rw [entered]
    intro there notYet
    rcases List.mem_append.mp there with old | new
    · exact inv.pending old notYet
    · exact (signal (List.mem_singleton.mp new).symm).2
  · rw [entered]; exact inv.early
  · rw [entered]; exact inv.inside
  · rw [entered]; exact inv.off
  · rw [entered]
    intro m there
    rcases List.mem_append.mp there with old | new
    · exact inv.stopped m old
    · obtain ⟨ls,now⟩ := onStop m (List.mem_singleton.mp new).symm
      exact ⟨inv.inside (by rw [now]; rfl),.inr ⟨ls,now⟩,by rw [now]; exact id⟩
  · rw [propext entered]; exact inv.walked

private theorem walked_running {g : Ground M} {timer : Bool} {entered : Prop} (running : phase pc = .running) :
    Walked d g timer entered pc ↔ entered ∨ ∃ R, Covers d g timer levels R := by
  cases pc <;> first | exact Iff.rfl | cases running

/-- A step of the event loop in which nothing is stopped. -/
private theorem inv_loop (inv : Inv d s) (same : outer w = outer s.world) (before : phase s.pc = .running)
    (after : phase pc = .running) (pass : inPass pc = false → inPass s.pc = false ∨ s.queue = [])
    (draining : ∀ m, Draining pc m → Draining s.pc m ∨ .onStop m ∉ s.log) : Inv d (s.goto w pc) := by
  have registry : registryView w = registryView s.world := congrArg Prod.fst same
  refine inv_goto inv (congrArg Prod.snd same) (by intro boot; rw [boot] at before; cases before)
    ⟨(by rintro rfl; cases after),.inl (after.trans before.symm)⟩ pass
    (by intro m ls now; rw [now] at before; cases before) draining ((walked_running after).mpr ?_)
  exact ((walked_running before).mp inv.walked).imp id fun ⟨R,covers⟩ =>
    ⟨R,covers.congr (congrArg Prod.fst registry) (congrArg Prod.snd registry)⟩

/-- A step of `armd_module_startall`. -/
private theorem inv_starting (inv : Inv d s) (same : loopView w = loopView s.world) (before : phase s.pc = .starting)
    (begun : s.pc ≠ .boot) (after : pc ≠ .boot ∧ phase pc ≠ .stopping) (pass : inPass pc = false)
    (walked : Walked d (ground w) s.timer (Entered s) pc) : Inv d (s.goto w pc) := by
  have outside : inPass s.pc = false := by cases now : s.pc <;> first | rfl | (rw [now] at before; cases before)
  refine inv_goto inv same begun ⟨after.1,?_⟩ (fun _ => .inl outside)
    (by intro m ls now; rw [now] at before; cases before) (fun m now => ?_) walked
  · rw [before]
    cases now : phase pc with
    | starting => exact .inl rfl
    | running => exact .inr ⟨rfl,rfl⟩
    | stopping => exact absurd now after.2
  · cases pc <;> first | exact False.elim now | cases pass

/-- The events beside the main thread. -/
private theorem inv_signal (inv : Inv d s) (handlers : s.handlers = true) (sent : uvAsyncSend .shutdown s.world = .done () w) :
    Inv d { s.goto w s.pc with log := s.log ++ [.signalHandler] } := by
  obtain ⟨grounds,loop,pending⟩ := signal_done sent
  have inv₁ : Inv d (s.goto w s.pc) := inv_beside inv grounds (by rw [loop]) fun _ => pending
  refine inv_note inv₁ .signalHandler trivial trivial (fun _ => ⟨fun boot => ?_,pending⟩) (by simp)
  rw [(inv.boot boot).1] at handlers
  cases handlers

/-- A section of a post. -/
private theorem inv_post [DecidableEq P] (inv : Inv d s) (same : outer w = outer s.world) (cores : core w = core s.world) (p : P)
    (pc : PostPc M) : Inv d (s.setPoster w p pc) := by
  have registry : registryView w = registryView s.world := congrArg Prod.fst same
  have view : loopView w = loopView s.world := congrArg Prod.snd same
  have state : (fun m => (w.modules m).async.state) = fun m => (s.world.modules m).async.state :=
    funext fun m => congrFun (congrArg Core.handle cores) (.module m)
  have grounds : ground w = ground s.world := by
    rw [ground,ground,state,show w.lists = s.world.lists from congrArg Prod.fst registry,
      show w.registryInitialized = s.world.registryInitialized from congrArg Prod.snd registry]
  refine inv_beside inv grounds (congrArg Prod.snd view) fun before => ?_
  rw [show w.shutdownAsync.pending = s.world.shutdownAsync.pending from congrArg Prod.fst view]
  exact before

/-- The next message, or the end of `async_callback`. -/
private theorem inv_drain (inv : Inv d s) {m : M} {next : Option ArmdMsg} (here : s.pc = .asyncCallback m)
    (taken : lockedTake m s.world = .done next w) (after : phase pc = .running) (pass : inPass pc = true)
    (draining : ∀ m', Draining pc m' → m' = m) : Inv d (s.goto w pc) := by
  refine inv_loop inv (outer_take m s.world next w taken) (by rw [here]; rfl) after
    (by rw [pass]; intro absurd; cases absurd) fun m' now => .inl ?_
  rw [here,draining m' now]
  rfl

/-- The pass begins: every handle of the loop is in its queue. -/
private theorem inv_pass (inv : Inv d s) (here : s.pc = .ioPoll) :
    Inv d { s.goto { s.world with uvLoop := { s.world.uvLoop with asyncHandles := [] } } .asyncIo with
      queue := s.world.uvLoop.asyncHandles } := by
  have empty : s.queue = [] := inv.queue (by rw [here]; rfl)
  have listed : ∀ h, Listed { s.goto { s.world with uvLoop := { s.world.uvLoop with asyncHandles := [] } } .asyncIo with
      queue := s.world.uvLoop.asyncHandles } h ↔ Listed s h := fun h => by
    simp [Listed,State.goto,empty]
  refine inv_quiet inv rfl (by rw [here]; exact .inl rfl) (fun outside => by cases outside) (fun now => by cases now)
    (fun _ before => (listed _).mpr (before (by rw [here]; simp))) (fun _ => id) (fun _ h => (listed h).mp) (fun _ => id)
    (fun m ls now => by rw [here] at now; cases now) (fun m now => False.elim now) ?_
  exact (walked_running (show phase s.pc = .running by rw [here]; rfl)).mp inv.walked

/-- A handle of the pass is put back into the loop's list, and its callback may be entered. -/
private theorem inv_visit (inv : Inv d s) {h : Handle M} {rest : List (Handle M)} (here : s.pc = .asyncIo)
    (queue : s.queue = h :: rest) (handles : w.uvLoop.asyncHandles = s.world.uvLoop.asyncHandles ++ [h])
    (registry : registryView w = registryView s.world)
    (pending : w.shutdownAsync.pending = s.world.shutdownAsync.pending) (after : phase pc = .running)
    (pass : inPass pc = true) (draining : ∀ m, Draining pc m → h = .module m) :
    Inv d { s.goto w pc with queue := rest } := by
  have listed : ∀ h', Listed { s.goto w pc with queue := rest } h' ↔ Listed s h' := fun h' => by
    simp only [Listed,State.goto,handles,queue,List.mem_cons,List.mem_append,List.not_mem_nil,or_false]
    tauto
  refine inv_quiet inv rfl (.inl ?_) (fun outside => ?_) (fun now => ?_)
    (fun _ before => (listed _).mpr (before (by rw [here]; simp))) (fun _ before => pending.trans before)
    (fun _ h => (listed h).mp) (fun _ => id) (fun m ls now => by rw [here] at now; cases now) (fun m now => .inr ?_)
    ((walked_running after).mpr ?_)
  · rw [here]; exact after
  · rw [show inPass pc = false from outside] at pass; cases pass
  · rw [show pc = .boot from now] at after; cases after
  · intro there
    obtain ⟨_,gone | ⟨ls,onStop⟩,_⟩ := inv.stopped m there
    · exact gone (.inl (by rw [queue,draining m now]; exact List.mem_cons_self))
    · rw [here] at onStop; cases onStop
  · exact ((walked_running (by rw [here]; rfl)).mp inv.walked).imp id fun ⟨R,covers⟩ =>
      ⟨R,covers.congr (congrArg Prod.fst registry) (congrArg Prod.snd registry)⟩

/-- `on_shutdown_async` is entered, which it never was before. -/
private theorem inv_shutdown (inv : Inv d s) {rest : List (Handle M)} (here : s.pc = .asyncIo)
    (queue : s.queue = .shutdown :: rest) :
    Inv d { s.goto (clearPending (requeue s.world .shutdown) .shutdown) (.stopall (stopLevels s.world)) with
      queue := rest
      log := s.log ++ [.onShutdownAsync] ++ [.stopall] } := by
  have running : phase s.pc = .running := by rw [here]; rfl
  have notYet : ¬ Entered s := fun there => (inv.off there running).1 (.inl (by rw [queue]; exact List.mem_cons_self))
  have none : s.log.count .onShutdownAsync = 0 := List.count_eq_zero.mpr notYet
  have open_ : .closeShutdown ∉ s.log := fun there => notYet (inv.after there).1
  obtain ⟨R,covers⟩ := ((walked_running running).mp inv.walked).resolve_left notYet
  have initialized : s.world.registryInitialized = true := covers.initialized
  refine ⟨(fun outside => by cases outside),?_,?_,?_,fun there => ?_,(fun boot => by cases boot),fun _ later => ?_,
    fun _ later => ?_,(fun _ now => by cases now),fun _ => ?_,(fun _ now => by cases now),fun m there => ?_,?_,
    .inl ⟨R,?_⟩⟩
  · have together := inv.together
    rw [none] at together
    simp [List.count_append,together,none]
  · simp [List.count_append,none]
  · simpa [List.count_append] using inv.closed
  · exact absurd (by simpa using there) open_
  · exact absurd (by simp [Entered]) later
  · exact absurd (by simp [Entered]) later
  · simp [Entered]
  · exact absurd (inv.stopped m (by simpa using there)).1 notYet
  · exact along_snoc.mpr ⟨along_snoc.mpr ⟨inv.orderly,trivial⟩,trivial⟩
  · rw [stopLevels,if_pos initialized]
    exact ⟨covers.initialized,fun l _ => covers.leads l (List.mem_finRange l),fun active => by
      obtain ⟨l,member,there⟩ := covers.timer active
      exact ⟨l,List.mem_reverse.mpr member,there⟩⟩

/-- A module is stopped, taken off both lists and off its ring. -/
private theorem inv_stopped (inv : Inv d s) {m : M} {ls : List (Fin maxLevel)} (here : s.pc = .onStop m ls)
    (finished : finishRound m s.world = .done () w) :
    Inv d { s.goto w (.stopall ls) with
      queue := s.queue.filter (· ≠ .module m)
      timer := s.timer && decide (m ≠ d.monitor) } := by
  obtain ⟨deleted,initialized,active,closing,view⟩ := finishRound_done finished
  have pending : w.shutdownAsync.pending = s.world.shutdownAsync.pending := congrArg Prod.fst view
  have handles : w.uvLoop.asyncHandles = s.world.uvLoop.asyncHandles.filter (· ≠ .module m) := congrArg Prod.snd view
  have listed : ∀ h, Listed { s.goto w (.stopall ls) with
      queue := s.queue.filter (· ≠ .module m)
      timer := s.timer && decide (m ≠ d.monitor) } h ↔ Listed s h ∧ h ≠ .module m := fun h => by
    simp only [Listed,State.goto,handles,List.mem_filter,decide_eq_true_eq]
    tauto
  have closed : (ground w).state m ≠ .active := by
    show (w.modules m).async.state ≠ .active
    rw [closing]
    simp
  refine inv_quiet inv rfl (.inl (by rw [here]; rfl)) (fun outside => by cases outside) (fun now => by cases now)
    (fun _ before => (listed _).mpr ⟨before (by rw [here]; simp),by simp⟩) (fun _ before => pending.trans before)
    (fun _ h there => ((listed h).mp there).1) (fun _ after => (Bool.and_eq_true_iff.mp after).1) (fun m' ls' now => ?_)
    (fun m' now => False.elim now) ?_
  · rw [here] at now
    cases now
    exact .inl fun there => ((listed _).mp there).2 rfl
  · have walked := inv.walked
    rw [here] at walked
    rcases walked with ⟨R,l,rest,ms,rfl,head,covers⟩ | stopped
    · exact covers_delete covers head deleted initialized closed
    · exact absurd active stopped

/-- The shutdown handle is closed, which ends `on_shutdown_async`. -/
private theorem inv_closeShutdown (inv : Inv d s) (here : s.pc = .stopall []) (closed : uvClose .shutdown s.world = .done () w) :
    Inv d { s.goto w .asyncIo with
      queue := s.queue.filter (· ≠ .shutdown)
      log := s.log ++ [.closeShutdown] } := by
  obtain ⟨_,rfl⟩ := close_done closed
  have stopping : phase s.pc = .stopping := by rw [here]; rfl
  have entered : Entered s := inv.inside stopping
  have entered' : .onShutdownAsync ∈ s.log ++ [.closeShutdown] := List.mem_append_left _ entered
  have open_ : .closeShutdown ∉ s.log := fun there => by
    have running := (inv.after there).2
    rw [stopping] at running
    cases running
  have timer : s.timer = false := by
    have walked := inv.walked
    rw [here] at walked
    rcases walked with ⟨R,covers⟩ | doomed
    · by_contra active
      obtain ⟨l,member,_⟩ := covers.timer (by simpa using active)
      cases member
    · exact doomed.elim
  have listed : ∀ h, Listed { s.goto (closeHandle (s.world.record (.close .shutdown (s.world.async .shutdown).state))
      .shutdown) .asyncIo with
        queue := s.queue.filter (· ≠ .shutdown)
        log := s.log ++ [.closeShutdown] } h → Listed s h ∧ h ≠ .shutdown := fun h => by
    simp only [Listed,State.goto,closeHandle,World.record,List.mem_filter,decide_eq_true_eq]
    tauto
  refine ⟨(fun outside => by cases outside),?_,?_,?_,fun _ => ⟨entered',rfl⟩,(fun boot => by cases boot),
    fun _ later => absurd entered' later,fun _ later => absurd entered' later,(fun _ now => by cases now),
    (fun now => by cases now),fun _ _ => ⟨fun there => (listed _ there).2 rfl,timer⟩,fun m there => ?_,
    along_snoc.mpr ⟨inv.orderly,trivial⟩,.inl entered'⟩
  · simpa [List.count_append] using inv.together
  · simpa [List.count_append] using inv.entered
  · simp [List.count_append,List.count_eq_zero.mpr open_]
  · obtain ⟨_,gone,_⟩ := inv.stopped m (by simpa using there)
    refine ⟨entered',.inl fun back => ?_,id⟩
    rcases gone with gone | ⟨ls,now⟩
    · exact gone (listed _ back).1
    · rw [here] at now; cases now

private theorem inv_enterLevel (inv : Inv d s) {before rest : List (Fin maxLevel)} {R : Levels M} (starting : phase s.pc = .starting)
    (begun : s.pc ≠ .boot) (split : levels = before ++ rest) (covers : Covers d (ground s.world) s.timer before R) :
    Inv d (s.goto s.world (enterLevel s.world rest)) := by
  refine inv_starting inv rfl starting begun ⟨?_,?_⟩ ?_ (walked_enterLevel split covers)
  · cases rest <;> simp [enterLevel]
  · cases rest <;> simp [enterLevel,phase]
  · cases rest <;> rfl

private theorem inv_init (inv : Inv d s) {ret : ℤ} (here : s.pc = .boot) (opened : uvAsyncInit 0 .shutdown s.world = .done ret w) :
    Inv d { s.goto w .booted with handlers := true } := by
  have ran : uvAsyncInit 0 .shutdown s.world = .done 0
      (initHandle (s.world.record (.asyncInit .shutdown s.world.shutdownAsync.state 0)) .shutdown) := rfl
  cases ran.symm.trans opened
  have starting : phase s.pc = .starting := by rw [here]; rfl
  have unsignalled : .signalHandler ∉ s.log := (inv.boot here).2
  refine inv_quiet inv rfl (.inl (by rw [here]; rfl)) (fun _ before => before (by rw [here]; rfl)) (fun now => by cases now)
    (fun _ _ => .inr (by simp [State.goto,initHandle])) (fun there => absurd there unsignalled)
    (fun there => absurd starting (inv.early there)) (fun _ => id) (fun m ls now => by rw [here] at now; cases now)
    (fun m now => False.elim now) ?_
  have walked := inv.walked
  rw [here] at walked
  exact walked

private theorem inv_opened (inv : Inv d s) {m : M} {level : Fin maxLevel} {rest : List (Fin maxLevel)} {ret r : ℤ}
    (here : s.pc = .starting m level rest) (opened : openModule m ret s.world = .done r w) (succeeded : ¬ r < 0) :
    Inv d (s.goto w (.onStart m level rest)) := by
  obtain ⟨registry,view⟩ := outer_open opened succeeded
  have pending : w.shutdownAsync.pending = s.world.shutdownAsync.pending := congrArg Prod.fst view
  have handles : w.uvLoop.asyncHandles = s.world.uvLoop.asyncHandles ++ [.module m] := congrArg Prod.snd view
  have starting : phase s.pc = .starting := by rw [here]; rfl
  refine inv_quiet inv rfl (.inl (by rw [here]; rfl)) (fun _ before => before (by rw [here]; rfl)) (fun now => by cases now)
    (fun _ before => ?_) (fun _ before => pending.trans before) (fun there => absurd starting (inv.early there))
    (fun _ => id) (fun m' ls now => by rw [here] at now; cases now) (fun m' now => False.elim now) ?_
  · exact (before (by rw [here]; simp)).imp id fun there => by
      show Handle.shutdown ∈ w.uvLoop.asyncHandles
      rw [handles]
      exact List.mem_append_left _ there
  · have walked := inv.walked
    rw [here] at walked
    exact ⟨walked.1,walked.2.congr (congrArg Prod.fst registry) (congrArg Prod.snd registry)⟩

private theorem inv_started (inv : Inv d s) {m : M} {level : Fin maxLevel} {rest : List (Fin maxLevel)} {ret r : ℤ}
    (here : s.pc = .onStart m level rest) (started : finishStart m ret s.world = .done r w) (succeeded : ¬ r < 0) :
    Inv d { s.goto w (.startall level rest (w.lists (.module m)).next) with
      timer := s.timer || decide (m = d.monitor) } := by
  have same := outer_started started succeeded
  have registry : registryView w = registryView s.world := congrArg Prod.fst same
  have starting : phase s.pc = .starting := by rw [here]; rfl
  have pending : w.shutdownAsync.pending = s.world.shutdownAsync.pending := congrArg (·.2.1) same
  have handles : w.uvLoop.asyncHandles = s.world.uvLoop.asyncHandles := congrArg (·.2.2) same
  refine inv_quiet inv rfl (.inl (by rw [here]; rfl)) (fun _ before => before (by rw [here]; rfl)) (fun now => by cases now)
    (fun _ before => ?_) (fun _ before => pending.trans before) (fun there => absurd starting (inv.early there))
    (fun there => absurd starting (inv.early there)) (fun m' ls now => by rw [here] at now; cases now)
    (fun m' now => False.elim now) ?_
  · exact (before (by rw [here]; simp)).imp id fun there => by
      show Handle.shutdown ∈ w.uvLoop.asyncHandles
      rwa [handles]
  · have walked := inv.walked
    rw [here] at walked
    have begun : Begun d (ground w) s.timer level rest (some (.module m)) :=
      walked.2.congr (congrArg Prod.fst registry) (congrArg Prod.snd registry)
    exact begun.next walked.1

/-- What stands in front of a sentinel while everything is stopped. -/
private theorem front_of_stopall (inv : Inv d s) {level : Fin maxLevel} {rest : List (Fin maxLevel)}
    (here : s.pc = .stopall (level :: rest)) :
    (∃ R, Covers d (ground s.world) s.timer (level :: rest) R ∧
      ((R level = [] ∧ (s.world.lists (.sentinel level)).next = some (.sentinel level)) ∨
        ∃ m ms, R level = m :: ms ∧ d.sys.mops m ≠ none ∧ (s.world.lists (.sentinel level)).next = some (.module m))) ∨
    ∃ m, (s.world.lists (.sentinel level)).next = some (.module m) ∧ d.sys.mops m ≠ none ∧
      (s.world.modules m).async.state ≠ .active := by
  have walked := inv.walked
  rw [here] at walked
  rcases walked with ⟨R,covers⟩ | doomed
  · refine .inl ⟨R,covers,?_⟩
    have leads := covers.leads level (by simp)
    cases ring : R level with
    | nil =>
      rw [ring] at leads
      exact .inl ⟨rfl,leads.walk⟩
    | cons m ms =>
      rw [ring] at leads
      exact .inr ⟨m,ms,rfl,leads.operated m (by simp),leads.next⟩
  · exact .inr doomed

private theorem inv_stop (inv : Inv d s) {level : Fin maxLevel} {rest : List (Fin maxLevel)} {m : M}
    (here : s.pc = .stopall (level :: rest)) (found : nextStop level s.world = .done (some m) w) :
    Inv d (s.goto (w.record (.stopCalled m)) (.onStop m (level :: rest))) := by
  obtain ⟨rfl,next⟩ := nextStop_done found
  refine inv_goto inv rfl (by rw [here]; simp) ⟨(fun now => by cases now),.inl (by rw [here]; rfl)⟩
    (fun outside => by cases outside) (fun m' ls now => by rw [here] at now; cases now) (fun m' now => False.elim now) ?_
  rcases front_of_stopall inv here with ⟨R,covers,⟨_,back⟩ | ⟨m',ms,ring,_,front⟩⟩ | ⟨m',front,_,closed⟩
  · cases back.symm.trans next
  · cases front.symm.trans next
    exact .inl ⟨R,level,rest,ms,rfl,ring,covers⟩
  · cases front.symm.trans next
    exact .inr closed

/-- Every module that the shutdown meets has operations. -/
private theorem stop_operated (inv : Inv d s) {level : Fin maxLevel} {rest : List (Fin maxLevel)} {m : M}
    (here : s.pc = .stopall (level :: rest)) (found : nextStop level s.world = .done (some m) w) :
    d.sys.mops m ≠ none := by
  obtain ⟨_,next⟩ := nextStop_done found
  rcases front_of_stopall inv here with ⟨R,_,⟨_,back⟩ | ⟨m',ms,_,operated,front⟩⟩ | ⟨m',front,operated,_⟩
  · cases back.symm.trans next
  · cases front.symm.trans next
    exact operated
  · cases front.symm.trans next
    exact operated

private theorem inv_stopLevel (inv : Inv d s) {level : Fin maxLevel} {rest : List (Fin maxLevel)}
    (here : s.pc = .stopall (level :: rest)) (found : nextStop level s.world = .done none w) :
    Inv d (s.goto w (.stopall rest)) := by
  obtain ⟨rfl,next⟩ := nextStop_done found
  refine inv_goto inv rfl (by rw [here]; simp) ⟨(fun now => by cases now),.inl (by rw [here]; rfl)⟩
    (fun outside => by cases outside) (fun m' ls now => by rw [here] at now; cases now) (fun m' now => False.elim now) ?_
  rcases front_of_stopall inv here with ⟨R,covers,⟨empty,_⟩ | ⟨m',ms,_,_,front⟩⟩ | ⟨m',front,_⟩
  · refine .inl ⟨R,covers.initialized,fun l member => covers.leads l (List.mem_cons_of_mem _ member),fun active => ?_⟩
    obtain ⟨l,member,there⟩ := covers.timer active
    rcases List.mem_cons.mp member with rfl | later
    · rw [empty] at there; cases there
    · exact ⟨l,later,there⟩
  · cases front.symm.trans next
  · cases front.symm.trans next

/-- Every step keeps the invariant. -/
theorem inv_step [DecidableEq P] {l : Label M P} (inv : Inv d s) (step : Step d s l s') : Inv d s' := by
  have walked := inv.walked
  cases step with
  | init here opened => exact inv_init inv here opened
  | @registryInit w here ran =>
    have same : loopView w = loopView s.world := by
      have kept : Program.Preserves loopView (registryInit : Program (World M) Unit) :=
        Program.preserves_bind Program.preserves_get fun _ =>
          Program.preserves_ite (Program.preserves_pure ()) (Program.preserves_change fun _ => rfl)
      exact kept s.world () w ran
    rw [here] at walked
    exact inv_starting inv same (by rw [here]; rfl) (by rw [here]; simp) (by simp [phase]) rfl walked
  | @registry call w here ran =>
    rw [here] at walked
    exact inv_starting inv (preserves_call (fun _ _ => rfl) (fun _ _ => rfl) call s.world () w ran) (by rw [here]; rfl) (by rw [here]; simp)
      (by simp [phase]) rfl walked
  | startall here initialized =>
    rw [here] at walked
    have covers : Covers d (ground s.world) s.timer [] noModules :=
      ⟨initialized,(fun l member => by cases member),fun active => by rw [walked] at active; cases active⟩
    exact inv_enterLevel inv (by rw [here]; rfl) (by rw [here]; simp) rfl covers
  | @nextLevel level rest here =>
    rw [here] at walked
    obtain ⟨before,R,front,split,leads,covers⟩ := walked
    obtain ⟨R',covers'⟩ := covers_level split leads covers
    exact inv_enterLevel inv (by rw [here]; rfl) (by rw [here]; simp) (by simpa using split) covers'
  | @start m level rest w here operated begun =>
    have same := outer_begin m s.world () w begun
    have registry : registryView w = registryView s.world := congrArg Prod.fst same
    rw [here] at walked
    exact inv_starting inv (congrArg Prod.snd same) (by rw [here]; rfl) (by rw [here]; simp) (by simp [phase]) rfl
      ⟨operated,walked.congr (congrArg Prod.fst registry) (congrArg Prod.snd registry)⟩
  | opened here opened succeeded => exact inv_opened inv here opened succeeded
  | started here _ started succeeded => exact inv_started inv here started succeeded
  | timer here active =>
    have orderly : Orderly s.log .monitorTimerCb := fun m there => by
      have off := (inv.off (inv.stopped m there).1 (by rw [here]; rfl)).2
      rw [active] at off
      cases off
    have inv₁ := inv_note inv .monitorTimerCb trivial orderly (by simp) (by simp)
    exact inv_loop inv₁ rfl (by show phase s.pc = _; rw [here]; rfl) rfl (fun _ => .inl (by show inPass s.pc = _; rw [here]; rfl))
      fun m now => False.elim now
  | timerDone here | poll here | exit here | noEvent here =>
    exact inv_loop inv rfl (by rw [here]; rfl) rfl (fun _ => .inl (by rw [here]; rfl)) fun m now => False.elim now
  | pass here => exact inv_pass inv here
  | skip here queue =>
    exact inv_visit inv here queue rfl rfl rfl rfl rfl fun m now => False.elim now
  | dispatch here queue =>
    exact inv_visit inv here queue rfl rfl rfl rfl rfl fun m now => by cases now; rfl
  | shutdown here queue => exact inv_shutdown inv here queue
  | passed here empty =>
    exact inv_loop inv rfl (by rw [here]; rfl) rfl (fun _ => .inr empty) fun m now => False.elim now
  | @take m msg w here taken =>
    have orderly : Orderly s.log (.onMessage m) := fun there => (inv.stopped m there).2.2 (by rw [here]; rfl)
    exact inv_drain (inv_note inv (.onMessage m) trivial orderly (by simp) (by simp)) here taken rfl rfl fun m' now => now.symm
  | drop here taken => exact inv_drain inv here taken rfl rfl fun m' now => now.symm
  | drained here taken => exact inv_drain inv here taken rfl rfl fun m' now => False.elim now
  | handled here =>
    exact inv_loop inv rfl (by rw [here]; rfl) rfl (fun outside => by cases outside) fun m' now => .inl (by rw [here]; exact now)
  | stopLevel here found => exact inv_stopLevel inv here found
  | @stop level rest m w here found operated =>
    have inv₁ := inv_stop inv here found
    by_cases called : hasOnStop d.sys m = true
    · rw [if_pos called]
      exact inv_note inv₁ (.onStop m) trivial trivial (by simp) fun m' same => by cases same; exact ⟨level :: rest,rfl⟩
    · rw [if_neg called,List.append_nil]
      exact inv₁
  | ignore here found none => exact absurd none (stop_operated inv here found)
  | stopped here finished => exact inv_stopped inv here finished
  | closeShutdown here closed => exact inv_closeShutdown inv here closed
  | @closingHandles w here ran =>
    exact inv_loop inv (outer_closings s.world () w ran) (by rw [here]; rfl) rfl (fun _ => .inl (by rw [here]; rfl))
      fun m now => False.elim now
  | signal handlers sent => exact inv_signal inv handlers sent
  | call => exact inv_post inv rfl rfl _ _
  | @lock p m msg accepted w _ locked =>
    exact inv_post inv (outer_lock m msg s.world accepted w locked) (lockedPost_done locked).1 _ _
  | @finish p m msg accepted ret w _ finished =>
    exact inv_post inv (outer_finish m msg accepted s.world ret w finished) (finishPost_done finished).1 _ _

/-- Everything is stopped and the shutdown handle closed at most once; a signal that was handled is still pending
    on a handle that the next pass visits, unless the shutdown has begun; and what was stopped is not called again. -/
structure Protocol (s : State M P) : Prop where
  stopall : s.log.count .stopall ≤ 1
  closed : s.log.count .closeShutdown ≤ 1
  signal : .signalHandler ∈ s.log →
    (s.world.shutdownAsync.pending = true ∧ Listed s .shutdown) ∨ .onShutdownAsync ∈ s.log
  orderly : Along Orderly s.log

theorem Inv.protocol (inv : Inv d s) : Protocol s where
  stopall := inv.together ▸ inv.entered
  closed := inv.closed
  signal := fun there => by
    by_cases entered : Entered s
    · exact .inr entered
    · have begun : s.pc ≠ .boot := fun boot => (inv.boot boot).2 there
      exact .inl ⟨inv.pending there entered,inv.due begun entered⟩
  orderly := inv.orderly

/-- The shutdown protocol holds in every state of every run. -/
theorem shutdown_protocol [DecidableEq P] {labels : List (Label M P)} (run : Run (Step d) initial labels s) : Protocol s := by
  have inv : Inv d s := run.invariant (Inv d) inv_initial fun _ _ _ inv step => inv_step inv step
  exact inv.protocol

end

/-- The daemon with its monitor only. -/
def monitorOnly : Modules Unit where
  sys :=
    { name := fun _ _ => 0
      mops := fun _ => some ⟨some fun _ => pure 0,some fun _ _ => pure 0,some fun _ => pure 0⟩
      uvAsyncInitRet := fun _ _ => 0 }
  monitor := ()
  startsTimer := rfl
  stopsTimer := rfl

/-- A signal that arrives before anything is registered stops the monitor in the first pass of the loop. -/
theorem shutdown_of_early_signal : ∃ s : State Unit Unit, Run (Step monitorOnly) initial
      [.init,.signal,.registryInit,.registry (.register () postLevel),.startall,.nextLevel,.nextLevel,.nextLevel,.start,
        .opened 0,.started 0,.nextLevel,.poll,.pass,.shutdown,.stop] s ∧
    s.log = [.signalHandler,.onShutdownAsync,.stopall,.onStop ()] ∧ Protocol s := by
  have run : ∃ s : State Unit Unit, Run (Step monitorOnly) initial
      [.init,.signal,.registryInit,.registry (.register () postLevel),.startall,.nextLevel,.nextLevel,.nextLevel,.start,
        .opened 0,.started 0,.nextLevel,.poll,.pass,.shutdown,.stop] s ∧
      s.log = [.signalHandler,.onShutdownAsync,.stopall,.onStop ()] :=
    ⟨_,(((((((((((((((Run.single (.init rfl rfl)).snoc (.signal rfl rfl)).snoc (.registryInit rfl rfl)).snoc
      (.registry rfl rfl)).snoc (.startall rfl rfl)).snoc (.nextLevel rfl)).snoc (.nextLevel rfl)).snoc (.nextLevel rfl)).snoc
      (.start rfl (by simp [monitorOnly]) rfl)).snoc (.opened rfl rfl (by decide))).snoc
      (.started rfl (.inr rfl) rfl (by decide))).snoc (.nextLevel rfl)).snoc (.poll rfl rfl)).snoc (.pass rfl)).snoc
      (.shutdown rfl rfl rfl)).snoc (.stop rfl rfl (by simp [monitorOnly])),rfl⟩
  obtain ⟨s,run,log⟩ := run
  exact ⟨s,run,log,shutdown_protocol run⟩

end Armd.ShutdownProtocol
