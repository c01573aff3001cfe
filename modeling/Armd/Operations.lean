import Armd.Lifecycle
import Armd.RegistryCalls
import Armd.Runs

/-!
Sequences of calls on a registry whose modules all start successfully:
registering, unregistering, starting and stopping everything, posting and turns
of the event loop. Every state that such a sequence reaches has a tidy registry
and open handles that belong to the loop (`Holds`), and each call that comes to
its end is a step on the life cycle (`step_core`, `run_core`).
-/
namespace Armd.Operations
open Armd.Programs Armd.Runs Armd.Datastructure Armd.Message Armd.Queue Armd.Memory Armd.Module Armd.Registry Armd.RegistryModel
  Armd.Traversal Armd.RegistryCalls Armd.StartStop Armd.Lifecycle

variable {M : Type} [DecidableEq M]

inductive Operation (M : Type)
  | register (m : M) (level : Fin maxLevel)
  | unregister (m : M) (level : Fin maxLevel)
  | startall
  | stopall
  | post (m : M) (msg : ArmdMsg)
  | turn

/-- `uv__async_io` on the handles of the modules; one that a callback closes leaves the queue of the pass. -/
def dispatch (sys : System M) (fuel : ℕ) : List (Handle M) → Program (World M) Unit
  | [] => pure ()
  | .shutdown :: hs => dispatch sys fuel hs
  | .module m :: hs => do
    let w ← Program.get
    if (w.async (.module m)).state = .active ∧ (w.async (.module m)).pending = true then do
      .change (fun w => w.setAsync (.module m) { w.async (.module m) with pending := false })
      asyncCallback sys fuel m
      dispatch sys fuel hs
    else dispatch sys fuel hs

def Operation.run (sys : System M) (fuel : ℕ) : Operation M → Program (World M) Unit
  | .register m level => armdModuleRegister (some m) level.val
  | .unregister m level => armdModuleUnregister (some m) level.val
  | .startall => do
    let _ ← armdModuleStartall sys fuel .defaultLoop
    pure ()
  | .stopall => armdModuleStopall sys fuel
  | .post m msg => do
    let _ ← armdModulePost (some m) (some msg)
    pure ()
  | .turn => do
    let w ← Program.get
    dispatch sys fuel w.uvLoop.asyncHandles
    uvRunClosingHandles

/-- The module is on a ring of the registry. -/
def OnRing (w : World M) (m : M) : Prop := ∃ R, Represents w.lists R ∧ Registered R m

def state (w : World M) (m : M) : HandleState := (w.modules m).async.state

/-- Only modules that are on no ring are registered, and only modules that run are posted to. -/
def Admissible (w : World M) : Operation M → Prop
  | .register m _ => ¬ OnRing w m
  | .post m _ => state w m = .active
  | _ => True

/-- A call that comes to its end. -/
def Step (sys : System M) (w : World M) (op : Operation M) (w' : World M) : Prop :=
  Admissible w op ∧ Program.Settles (fun fuel => op.run sys fuel) w w'

theorem step_unique {sys : System M} {w w₁ w₂ : World M} {op : Operation M} (first : Step sys w op w₁)
    (second : Step sys w op w₂) : w₁ = w₂ := Program.settles_unique first.2 second.2

/-- The modules have operations and start successfully, and their callbacks leave the life cycle alone. -/
structure Succeeds (sys : System M) (o : Outcomes M) : Prop where
  quiet : Quiet sys o
  mops : ∀ m, ∃ mops, sys.mops m = some mops
  init : ∀ m, 0 ≤ o.init m
  start : ∀ m, 0 ≤ o.start m
  onMessage : ∀ m mops f, sys.mops m = some mops → mops.onMessage = some f → ∀ msg,
    Program.Preserves core (f m msg) ∧ Program.Preserves registryView (f m msg)

omit [DecidableEq M] in
theorem onRing_iff {w : World M} {R : Levels M} (rep : Represents w.lists R) {m : M} : OnRing w m ↔ Registered R m :=
  ⟨fun ⟨_,rep',there⟩ => rep.unique rep' ▸ there,fun there => ⟨R,rep,there⟩⟩

/-! ### Calls that leave the life cycle alone -/

/-- The life cycle and the registry. -/
def still (w : World M) : Core M × (LinkedRings.Heap (Node M) × Bool) := (core w,registryView w)

omit [DecidableEq M] in
theorem still_record {w : World M} {e : Event M} (none : lifecycleEvent e = none) : still (w.record e) = still w := by
  refine Prod.ext ?_ rfl
  show core (w.record e) = core w
  have same : core (w.record e) = { core w with log := (w.trace ++ [e]).filterMap lifecycleEvent } := rfl
  rw [same,List.filterMap_append,List.filterMap_cons,none,List.filterMap_nil,List.append_nil]
  rfl

theorem still_setQueue (w : World M) (m : M) {q : ArmdMsgQueue} (same : q.qMutex = (w.modules m).msgQueue.qMutex) :
    still (w.setQueue m q) = still w := by
  refine Prod.ext ?_ rfl
  show core (w.setQueue m q) = core w
  have mutexes : Function.update (core w).mutex m q.qMutex = (core w).mutex := by
    rw [same]; exact Function.update_eq_self m _
  rw [World.setQueue,core_setModule w m (show ({ w.modules m with msgQueue := q } : ArmdModule).async = _ from rfl)]
  simp only [Core.setMutex,mutexes]

theorem still_setPending (w : World M) (h : Handle M) (pending : Bool) :
    still (w.setAsync h { w.async h with pending := pending }) = still w := by
  refine Prod.ext ?_ (by cases h <;> rfl)
  show core (w.setAsync h { w.async h with pending := pending }) = core w
  have handles : Function.update (core w).handle h (w.async h).state = (core w).handle := Function.update_eq_self h _
  rw [core_setState w h (show ({ w.async h with pending := pending } : UvAsync).loop = _ from rfl)]
  simp only [Core.setHandle,handles]

omit [DecidableEq M] in
theorem still_lock (m : M) : Program.Preserves still (pthreadMutexLock m) :=
  Program.preserves_change fun _ => still_record rfl

theorem still_sent (w : World M) (h : Handle M) : still (sentWorld w h) = still w :=
  (still_setPending (w.record (.asyncSend h (w.async h).state)) h true).trans (still_record rfl)

theorem still_send (h : Handle M) : Program.Preserves still (uvAsyncSend h) := by
  intro w ret w' ran
  rw [send_done ran]
  exact still_sent w h

theorem still_post (m : M) (msg : ArmdMsg) : Program.Preserves still (armdModulePost (some m) (some msg)) := by
  intro w ret w' ran
  rcases post_done ran with ⟨_,rfl⟩ | ⟨q,posted,rfl⟩
  · exact (still_record rfl).trans (still_record rfl)
  · have queued := still_setQueue (w.record (.mutexLock m (w.modules m).msgQueue.qMutex)) m (ArmdMsgQueue.post_mutex posted)
    exact (still_record rfl).trans ((still_sent _ _).trans (queued.trans (still_record rfl)))

omit [DecidableEq M] in
theorem still_onMessage {sys : System M} {o : Outcomes M} (succeeds : Succeeds sys o) {m : M}
    {f : M → ArmdMsg → Program (World M) ℤ} (there : (sys.mops m).bind (·.onMessage) = some f) (msg : ArmdMsg) :
    Program.Preserves still (f m msg) := by
  obtain ⟨mops,ops,onMessage⟩ := Option.bind_eq_some_iff.mp there
  obtain ⟨keepsCore,keepsRegistry⟩ := succeeds.onMessage m mops f ops onMessage msg
  exact fun w ret w' ran => Prod.ext (keepsCore w ret w' ran) (keepsRegistry w ret w' ran)

theorem still_asyncCallback {sys : System M} {o : Outcomes M} (succeeds : Succeeds sys o) (fuel : ℕ) (m : M) :
    Program.Preserves still (asyncCallback sys fuel m) := by
  refine Program.preserves_loop (fun _ => Program.preserves_bind (still_lock m) fun _ w ret w' ran => ?_) fuel ()
  simp only [Program.bind_run,Program.get_run,Outcome.andThen_done] at ran
  cases got : (w.modules m).msgQueue.take with
  | none => rw [got] at ran; cases ran; rfl
  | some both =>
    obtain ⟨msg,q⟩ := both
    rw [got] at ran
    have taken := still_setQueue w m (ArmdMsgQueue.take_mutex got)
    simp only [Program.bind_run,Program.change_run,Outcome.andThen_done] at ran
    cases there : (sys.mops m).bind (·.onMessage) with
    | none => rw [there] at ran; cases ran; exact taken
    | some f =>
      rw [there] at ran
      have rest : Program.Preserves still (record (.onMessage m msg) >>= fun _ => f m msg >>= fun _ =>
          (pure (.inl ()) : Program (World M) (Unit ⊕ Unit))) :=
        Program.preserves_bind (Program.preserves_change fun _ => still_record rfl) fun _ =>
          Program.preserves_bind (still_onMessage succeeds there msg) fun _ => Program.preserves_pure _
      exact (rest _ ret w' ran).trans taken

theorem still_dispatch {sys : System M} {o : Outcomes M} (succeeds : Succeeds sys o) (fuel : ℕ) (hs : List (Handle M)) :
    Program.Preserves still (dispatch sys fuel hs) := by
  induction hs with
  | nil => exact Program.preserves_pure ()
  | cons h hs ih =>
    cases h with
    | shutdown => exact ih
    | module m =>
      refine Program.preserves_bind Program.preserves_get fun w => Program.preserves_ite ?_ ih
      exact Program.preserves_bind (Program.preserves_change fun w => still_setPending w (.module m) false) fun _ =>
        Program.preserves_bind (still_asyncCallback succeeds fuel m) fun _ => ih

/-! ### The machine of the life cycle -/

/-- The calls as steps on the life cycle and the lists of registered modules. -/
inductive CoreStep (sys : System M) (o : Outcomes M) : Core M × Levels M → Operation M → Core M × Levels M → Prop
  | register {c R m level} : ¬ Registered R m → CoreStep sys o (c,R) (.register m level) (c,add R level m)
  | unregister {c R m level} : CoreStep sys o (c,R) (.unregister m level) (c,remove R m)
  | startall {c R} : CoreStep sys o (c,R) .startall ((startsCore sys o (startOrder R) c).2,R)
  | stopall {c c' R} : stopsCore sys (stopOrder R) c = some c' → CoreStep sys o (c,R) .stopall (c',noModules)
  | post {c R m msg} : c.handle (.module m) = .active → CoreStep sys o (c,R) (.post m msg) (c,R)
  | turn {c c' R} : closingsCore c = some c' → CoreStep sys o (c,R) .turn (c',R)

/-- An initialised registry whose rings are the given lists, and open handles that belong to the loop. -/
structure Holds (w : World M) (R : Levels M) : Prop where
  initialized : w.registryInitialized = true
  tidy : Tidy w.lists R
  wired : Wired (core w)

theorem holds_booted : Holds (booted : World M) noModules :=
  ⟨rfl,booted_tidy,fun h active => by cases h <;> cases active⟩

omit [DecidableEq M] in
theorem Holds.of_view {w w' : World M} {R : Levels M} (holds : Holds w R) (same : registryView w' = registryView w)
    (wired : Wired (core w')) : Holds w' R :=
  ⟨(congrArg Prod.snd same).trans holds.initialized,view_lists same ▸ holds.tidy,wired⟩

omit [DecidableEq M] in
theorem Holds.of_still {w w' : World M} {R : Levels M} (holds : Holds w R) (same : still w' = still w) : Holds w' R := by
  obtain ⟨core',view'⟩ := Prod.ext_iff.mp same
  have same' : core w' = core w := core'
  exact holds.of_view view' (by rw [same']; exact holds.wired)

section
variable {sys : System M} {o : Outcomes M} (succeeds : Succeeds sys o) {w : World M} {R : Levels M} (holds : Holds w R)
include succeeds holds

theorem startall_runs : ∃ w', Program.Settles (fun fuel => (Operation.startall : Operation M).run sys fuel) w w' ∧
    core w' = (startsCore sys o (startOrder R) (core w)).2 ∧ Holds w' R := by
  obtain ⟨w',ran,core'⟩ := startEach_core succeeds.quiet (startOrder R) holds.wired
  have view' := preserves_startEach succeeds.quiet.registry.onStart .defaultLoop (startOrder R) w _ w' ran
  refine ⟨w',⟨rounds R,fun fuel enough => ?_⟩,core',holds.of_view view' (by rw [core']; exact wired_starts _ holds.wired)⟩
  have all := startall_eq succeeds.quiet.registry.onStart holds.tidy.rings holds.initialized enough
  rw [ran,Outcome.andThen_done] at all
  simp [Operation.run,all]

theorem stopall_runs {c : Core M} (stops : stopsCore sys (stopOrder R) (core w) = some c) :
    ∃ w', Program.Settles (fun fuel => (Operation.stopall : Operation M).run sys fuel) w w' ∧ core w' = c ∧
      Holds w' noModules := by
  have mirrors := stopEach_core succeeds.quiet (stopOrder R) holds.wired holds.tidy (stopOrder_nodup holds.tidy.rings)
    (fun m member => mem_stopOrder.mp member)
  rw [stops] at mirrors
  obtain ⟨w',ran,core'⟩ := mirrors
  refine ⟨w',⟨rounds R,fun fuel enough => ?_⟩,core',?_,stopall_empties succeeds.quiet.registry.onStop holds.tidy ran,
    by rw [core']; exact wired_stops _ holds.wired stops⟩
  · show armdModuleStopall sys fuel w = .done () w'
    rw [stopall_eq succeeds.quiet.registry.onStop holds.tidy holds.initialized enough,ran]
  · exact (stopEach_initialized succeeds.quiet.registry.onStop (stopOrder R) ran).trans holds.initialized

theorem stopall_core {w' : World M}
    (settles : Program.Settles (fun fuel => (Operation.stopall : Operation M).run sys fuel) w w') :
    stopsCore sys (stopOrder R) (core w) = some (core w') ∧ Holds w' noModules := by
  cases stops : stopsCore sys (stopOrder R) (core w) with
  | none =>
    have mirrors := stopEach_core succeeds.quiet (stopOrder R) holds.wired holds.tidy (stopOrder_nodup holds.tidy.rings)
      (fun m member => mem_stopOrder.mp member)
    rw [stops] at mirrors
    obtain ⟨v,aborted⟩ := mirrors
    obtain ⟨n,ends⟩ := settles
    have ended : armdModuleStopall sys (max n (rounds R)) w = .done () w' := ends _ (le_max_left _ _)
    rw [stopall_eq succeeds.quiet.registry.onStop holds.tidy holds.initialized (le_max_right _ _),aborted] at ended
    cases ended
  | some c =>
    obtain ⟨v,settles',core',holds'⟩ := stopall_runs succeeds holds stops
    cases Program.settles_unique settles settles'
    exact ⟨by rw [core'],holds'⟩

omit succeeds in
theorem turn_core (succeeds : Succeeds sys o) {fuel : ℕ} {w' : World M}
    (ran : (Operation.turn : Operation M).run sys fuel w = .done () w') :
    closingsCore (core w) = some (core w') ∧ Holds w' R := by
  obtain ⟨u,w₂,dispatched,closed⟩ := Outcome.andThen_eq_done.mp ran
  have same := still_dispatch succeeds fuel _ w u w₂ dispatched
  have core₂ : core w₂ = core w := congrArg Prod.fst same
  have closings : closingsCore (core w) = some (core w') := by rw [← core₂]; exact closings_core closed
  have view : registryView w' = registryView w₂ := closings_registry w₂ () w' closed
  exact ⟨closings,holds.of_view (view.trans (congrArg Prod.snd same)) (wired_closings holds.wired closings)⟩

/-- A call that comes to its end is a step of the life cycle. -/
theorem step_core {op : Operation M} {w' : World M} (step : Step sys w op w') :
    ∃ R', CoreStep sys o (core w,R) op (core w',R') ∧ Holds w' R' := by
  obtain ⟨admissible,settles⟩ := step
  have ended : ∃ fuel, op.run sys fuel w = .done () w' := settles.imp fun n ends => ends n le_rfl
  cases op with
  | register m level =>
    obtain ⟨_,ran⟩ := ended
    have absent : ¬ Registered R m := fun there => admissible ((onRing_iff holds.tidy.rings).mpr there)
    obtain ⟨g,inserted,tidy,_⟩ := tidy_register holds.tidy level absent
    have registered := run_register holds.initialized m level inserted
    cases ran.symm.trans registered
    have same : core (({ w with lists := g } : World M).record (RegistryCall.register m level).event) = core w :=
      congrArg Prod.fst (still_record rfl)
    refine ⟨_,?_,holds.initialized,tidy,by rw [same]; exact holds.wired⟩
    rw [same]
    exact .register absent
  | unregister m level =>
    obtain ⟨_,ran⟩ := ended
    have deleted : ∃ g, armdListDelete w.lists (.module m) = some g ∧ Tidy g (remove R m) := by
      by_cases present : Registered R m
      · obtain ⟨g,deleted,tidy,_⟩ := tidy_delete holds.tidy present
        exact ⟨g,deleted,tidy⟩
      · rcases tidy_delete_off holds.tidy present with null | same
        · cases ran.symm.trans (run_unregister_null holds.initialized m level null)
        · exact ⟨w.lists,same,by rw [remove_of_not_registered present]; exact holds.tidy⟩
    obtain ⟨g,deleted,tidy⟩ := deleted
    cases ran.symm.trans (run_unregister holds.initialized m level deleted)
    have same : core (({ w with lists := g } : World M).record (RegistryCall.unregister m level).event) = core w :=
      congrArg Prod.fst (still_record rfl)
    refine ⟨_,?_,holds.initialized,tidy,by rw [same]; exact holds.wired⟩
    rw [same]
    exact .unregister
  | startall =>
    obtain ⟨v,settles',core',holds'⟩ := startall_runs succeeds holds
    cases Program.settles_unique settles settles'
    exact ⟨R,by rw [core']; exact .startall,holds'⟩
  | stopall =>
    obtain ⟨stops,holds'⟩ := stopall_core succeeds holds settles
    exact ⟨_,.stopall stops,holds'⟩
  | post m msg =>
    obtain ⟨_,ran⟩ := ended
    obtain ⟨ret,w₁,posted,same⟩ := Outcome.andThen_eq_done.mp ran
    cases same
    have unchanged := still_post m msg w ret w' posted
    have same : core w' = core w := congrArg Prod.fst unchanged
    rw [same]
    exact ⟨R,.post admissible,holds.of_still unchanged⟩
  | turn =>
    obtain ⟨fuel,ran⟩ := ended
    obtain ⟨closings,holds'⟩ := turn_core holds succeeds ran
    exact ⟨R,.turn closings,holds'⟩

omit holds in
/-- Every sequence of calls is a run of the life cycle. -/
theorem run_core {ops : List (Operation M)} (run : Run (Step sys) booted ops w) :
    ∃ R, Run (CoreStep sys o) (core booted,noModules) ops (core w,R) ∧ Holds w R := by
  induction run with
  | nil => exact ⟨noModules,.nil,holds_booted⟩
  | snoc _ step ih =>
    obtain ⟨R,run,holds⟩ := ih
    obtain ⟨R',step',holds'⟩ := step_core succeeds holds step
    exact ⟨R',run.snoc step',holds'⟩

end

/-! ### What starting and stopping everything do -/

section
variable {sys : System M} {o : Outcomes M}

def startedAll (sys : System M) (o : Outcomes M) (ms : List M) (c : Core M) : Core M := ms.foldl (startedCore sys o) c
def stoppedAll (sys : System M) (ms : List M) (c : Core M) : Core M := ms.foldl (stoppedCore sys) c

theorem startsCore_eq (succeeds : Succeeds sys o) (ms : List M) : ∀ c : Core M,
    startsCore sys o ms c = (none,startedAll sys o ms c) := by
  induction ms with
  | nil => intro c; rfl
  | cons m rest ih =>
    intro c
    obtain ⟨mops,ops⟩ := succeeds.mops m
    simp [startsCore,startCore_success ops (succeeds.init m) (succeeds.start m),ih,startedAll]

theorem startedAll_handle (ms : List M) (c : Core M) (h : Handle M) :
    (startedAll sys o ms c).handle h = if h ∈ ms.map .module then .active else c.handle h := by
  induction ms generalizing c with
  | nil => simp [startedAll]
  | cons m rest ih =>
    rw [startedAll,List.foldl_cons,← startedAll,ih]
    by_cases same : h = .module m
    · subst same; simp [startedCore,Core.openHandle,Core.setHandle,Core.setMutex]
    · simp [startedCore,Core.openHandle,Core.setHandle,Core.setMutex,same]

theorem startedAll_mutex (ms : List M) (c : Core M) (m : M) :
    (startedAll sys o ms c).mutex m = if m ∈ ms then .live else c.mutex m := by
  induction ms generalizing c with
  | nil => simp [startedAll]
  | cons m' rest ih =>
    rw [startedAll,List.foldl_cons,← startedAll,ih]
    by_cases same : m = m'
    · subst same; simp [startedCore,Core.setMutex]
    · simp [startedCore,Core.setMutex,Core.openHandle,Core.setHandle,same]

/-- The events of a start are about what the module was like before the call. -/
theorem startedAll_log (P : Event M → Prop) {ms : List M} (distinct : ms.Nodup) (c : Core M) :
    (∀ e ∈ (startedAll sys o ms c).log, P e) ↔ (∀ e ∈ c.log, P e) ∧ ∀ m ∈ ms, ∀ e ∈ startEvents sys o c m, P e := by
  induction ms generalizing c with
  | nil => simp [startedAll]
  | cons m rest ih =>
    obtain ⟨fresh,distinct'⟩ := List.nodup_cons.mp distinct
    have others : ∀ m' ∈ rest, startEvents sys o (startedCore sys o c m) m' = startEvents sys o c m' := by
      intro m' member
      have other : m' ≠ m := by rintro rfl; exact fresh member
      simp [startEvents,startedCore,Core.openHandle,Core.setHandle,Core.setMutex,other]
    rw [startedAll,List.foldl_cons,← startedAll,ih distinct']
    have log : (startedCore sys o c m).log = c.log ++ startEvents sys o c m := rfl
    simp only [log,List.forall_mem_append,List.forall_mem_cons,and_assoc]
    refine and_congr_right fun _ => and_congr_right fun _ => ?_
    exact forall₂_congr fun m' member => by rw [others m' member]

theorem startedAll_starts (ms : List M) (c : Core M) :
    startsOf (startedAll sys o ms c).log = startsOf c.log ++ ms := by
  induction ms generalizing c with
  | nil => simp [startedAll]
  | cons m rest ih =>
    have one : startsOf (startEvents sys o c m) = [m] := by
      unfold startEvents
      split <;> rfl
    have log : (startedCore sys o c m).log = c.log ++ startEvents sys o c m := rfl
    rw [startedAll,List.foldl_cons,← startedAll,ih,log,startsOf_append,one,List.append_assoc]
    rfl

theorem stopsCore_eq (succeeds : Succeeds sys o) {ms : List M} (distinct : ms.Nodup) (c : Core M) :
    stopsCore sys ms c = if ∀ m ∈ ms, c.handle (.module m) = .active then some (stoppedAll sys ms c) else none := by
  induction ms generalizing c with
  | nil => simp [stopsCore,stoppedAll]
  | cons m rest ih =>
    obtain ⟨mops,ops⟩ := succeeds.mops m
    obtain ⟨fresh,distinct'⟩ := List.nodup_cons.mp distinct
    rw [stopsCore,stopCore_success ops]
    by_cases active : c.handle (.module m) = .active
    · have others : (∀ m' ∈ rest, (stoppedCore sys c m).handle (.module m') = .active) ↔
          ∀ m' ∈ rest, c.handle (.module m') = .active := by
        refine forall₂_congr fun m' member => ?_
        have other : m' ≠ m := by rintro rfl; exact fresh member
        simp [stoppedCore,Core.closeHandle,Core.setHandle,Core.setMutex,other]
      rw [if_pos active,Option.bind_some,ih distinct']
      simp only [others,List.forall_mem_cons,active,true_and]
      rfl
    · have notAll : ¬ ∀ m' ∈ m :: rest, c.handle (.module m') = .active := fun all => active (all m (by simp))
      rw [if_neg active,if_neg notAll]
      rfl

theorem stoppedAll_handle (ms : List M) (c : Core M) (h : Handle M) :
    (stoppedAll sys ms c).handle h = if h ∈ ms.map .module then .closing else c.handle h := by
  induction ms generalizing c with
  | nil => simp [stoppedAll]
  | cons m rest ih =>
    rw [stoppedAll,List.foldl_cons,← stoppedAll,ih]
    by_cases same : h = .module m
    · subst same; simp [stoppedCore,Core.closeHandle,Core.setHandle,Core.setMutex]
    · simp [stoppedCore,Core.closeHandle,Core.setHandle,Core.setMutex,same]

theorem stoppedAll_mutex (ms : List M) (c : Core M) (m : M) :
    (stoppedAll sys ms c).mutex m = if m ∈ ms then .destroyed else c.mutex m := by
  induction ms generalizing c with
  | nil => simp [stoppedAll]
  | cons m' rest ih =>
    rw [stoppedAll,List.foldl_cons,← stoppedAll,ih]
    by_cases same : m = m'
    · subst same; simp [stoppedCore,Core.setMutex]
    · simp [stoppedCore,Core.setMutex,Core.closeHandle,Core.setHandle,same]

theorem stoppedAll_log (P : Event M → Prop) (each : ∀ c m, ∀ e ∈ stopEvents sys c m, P e) (ms : List M) (c : Core M) :
    (∀ e ∈ (stoppedAll sys ms c).log, P e) ↔ ∀ e ∈ c.log, P e := by
  induction ms generalizing c with
  | nil => rfl
  | cons m rest ih =>
    rw [stoppedAll,List.foldl_cons,← stoppedAll,ih]
    have log : (stoppedCore sys c m).log = c.log ++ stopEvents sys c m := rfl
    rw [log,List.forall_mem_append]
    exact and_iff_left (each c m)

/-- Starting everything as a step of the machine. -/
theorem startall_step (succeeds : Succeeds sys o) {w : World M} {R : Levels M} (holds : Holds w R) :
    ∃ w', Step sys w .startall w' ∧ core w' = startedAll sys o (startOrder R) (core w) ∧ Holds w' R := by
  obtain ⟨w',settles,core',holds'⟩ := startall_runs succeeds holds
  rw [startsCore_eq succeeds] at core'
  exact ⟨w',⟨trivial,settles⟩,core',holds'⟩

/-- Stopping everything ends when every registered module has an open handle. -/
theorem stopall_step (succeeds : Succeeds sys o) {w : World M} {R : Levels M} (holds : Holds w R)
    (running : ∀ m, Registered R m → state w m = .active) :
    ∃ w', Step sys w .stopall w' ∧ core w' = stoppedAll sys (stopOrder R) (core w) ∧ Holds w' noModules := by
  have all : ∀ m ∈ stopOrder R, (core w).handle (.module m) = .active := fun m member =>
    running m (mem_stopOrder.mp member)
  have stops := stopsCore_eq succeeds (stopOrder_nodup holds.tidy.rings) (core w)
  rw [if_pos all] at stops
  obtain ⟨w',settles,core',holds'⟩ := stopall_runs succeeds holds stops
  exact ⟨w',⟨trivial,settles⟩,core',holds'⟩

theorem register_step {w : World M} {R : Levels M} (holds : Holds w R) {m : M} (absent : ¬ Registered R m)
    (level : Fin maxLevel) :
    ∃ w', Step sys w (.register m level) w' ∧ core w' = core w ∧ Holds w' (add R level m) := by
  obtain ⟨g,inserted,tidy,_⟩ := tidy_register holds.tidy level absent
  have same : core (({ w with lists := g } : World M).record (RegistryCall.register m level).event) = core w :=
    congrArg Prod.fst (still_record rfl)
  exact ⟨_,⟨fun there => absent ((onRing_iff holds.tidy.rings).mp there),0,fun _ _ =>
    run_register holds.initialized m level inserted⟩,same,holds.initialized,tidy,by rw [same]; exact holds.wired⟩

theorem unregister_step {w : World M} {R : Levels M} (holds : Holds w R) {m : M} (present : Registered R m)
    (level : Fin maxLevel) :
    ∃ w', Step sys w (.unregister m level) w' ∧ core w' = core w ∧ Holds w' (remove R m) := by
  obtain ⟨g,deleted,tidy,_⟩ := tidy_delete holds.tidy present
  have same : core (({ w with lists := g } : World M).record (RegistryCall.unregister m level).event) = core w :=
    congrArg Prod.fst (still_record rfl)
  exact ⟨_,⟨trivial,0,fun _ _ => run_unregister holds.initialized m level deleted⟩,same,holds.initialized,tidy,
    by rw [same]; exact holds.wired⟩

end

/-! ### A system with one module -/

/-- One module that has operations but no callbacks. -/
def plainSystem : System Unit where
  name := fun _ _ => 0
  mops := fun _ => some ⟨none,none,none⟩
  uvAsyncInitRet := fun _ _ => 0

def plainOutcomes : Outcomes Unit := ⟨fun _ => 0,fun _ => 0⟩

theorem plain_succeeds : Succeeds plainSystem plainOutcomes where
  quiet :=
    { init := fun _ _ => rfl
      registry :=
        { onStart := fun _ _ _ ops there => by cases ops; cases there
          onStop := fun _ _ _ ops there => by cases ops; cases there }
      onStart := fun _ _ _ ops there => by cases ops; cases there
      onStop := fun _ _ _ ops there => by cases ops; cases there }
  mops := fun _ => ⟨_,rfl⟩
  init := fun _ => le_rfl
  start := fun _ => le_rfl
  onMessage := fun _ _ _ ops there => by cases ops; cases there

/-- The module registered and started. -/
theorem plain_started : ∃ w₁ w₂, Step plainSystem booted (.register () systemLevel) w₁ ∧ core w₁ = core booted ∧
    Step plainSystem w₁ .startall w₂ ∧ core w₂ = startedAll plainSystem plainOutcomes [()] (core booted) ∧
      Holds w₂ (add noModules systemLevel ()) := by
  obtain ⟨w₁,registered,core₁,holds₁⟩ : ∃ w, Step plainSystem booted (.register () systemLevel) w ∧
      core w = core booted ∧ Holds w (add noModules systemLevel ()) :=
    register_step holds_booted (fun ⟨_,inside⟩ => by simp [noModules] at inside) systemLevel
  obtain ⟨w₂,started,core₂,holds₂⟩ := startall_step plain_succeeds holds₁
  rw [core₁] at core₂
  exact ⟨w₁,w₂,registered,core₁,started,core₂,holds₂⟩

end Armd.Operations
