import Armd.Module

/-!
What a start does to the world, step by step: the world in which
`armd_module_start` calls `uv_async_init` (`resetWorld`), the one in which it
has returned (`initWorld`), and the one in which it calls `on_start`
(`callbackWorld`); and which modules a trace starts and stops.
-/
namespace Armd.StartStop
open Armd.Programs Armd.Message Armd.Queue Armd.Memory Armd.Module

variable {M : Type} [DecidableEq M]

/-- The modules that were started, in order. -/
def startsOf (trace : List (Event M)) : List M :=
  trace.filterMap fun
    | .startCalled m => some m
    | _ => none

omit [DecidableEq M] in
theorem startsOf_append (a b : List (Event M)) : startsOf (a ++ b) = startsOf a ++ startsOf b :=
  List.filterMap_append

/-- The modules that were stopped, in order. -/
def stopsOf (trace : List (Event M)) : List M :=
  trace.filterMap fun
    | .stopCalled m => some m
    | _ => none

omit [DecidableEq M] in
theorem stopsOf_append (a b : List (Event M)) : stopsOf (a ++ b) = stopsOf a ++ stopsOf b :=
  List.filterMap_append

/-- The modules that were started with success, in order. -/
def startedOf (trace : List (Event M)) : List M :=
  trace.filterMap fun
    | .started m 0 => some m
    | _ => none

/-- A module object whose mutex is initialised and whose queue is reset. -/
def freshModule (module : ArmdModule) : ArmdModule where
  loop := .defaultLoop
  async := module.async
  msgQueue := { module.msgQueue.reset with qMutex := .live }

/-- The world in which `armd_module_start` calls `uv_async_init`. -/
def resetWorld (w : World M) (m : M) : World M :=
  { w.setModule m (freshModule (w.modules m)) with
    trace := w.trace ++ [.startCalled m,.mutexInit m (w.modules m).msgQueue.qMutex,
      .queueReset m (w.modules m).async.state (w.modules m).msgQueue.pending] }

/-- What `uv_async_init` returns when a module is started. -/
def initRet (sys : System M) (w : World M) (m : M) : ℤ := sys.uvAsyncInitRet (resetWorld w m) (.module m)

/-- The world after `uv_async_init` returned. -/
def initWorld (sys : System M) (w : World M) (m : M) : World M :=
  (resetWorld w m).record (.asyncInit (.module m) (w.modules m).async.state (initRet sys w m))

/-- The world with the async handle open. -/
def openWorld (sys : System M) (w : World M) (m : M) : World M := initHandle (initWorld sys w m) (.module m)

/-- What a start writes down until then. -/
def openEvents (sys : System M) (w : World M) (m : M) : List (Event M) :=
  [.startCalled m,.mutexInit m (w.modules m).msgQueue.qMutex,.queueReset m (w.modules m).async.state (w.modules m).msgQueue.pending,
    .asyncInit (.module m) (w.modules m).async.state (initRet sys w m)]

theorem openWorld_trace (sys : System M) (w : World M) (m : M) :
    (openWorld sys w m).trace = w.trace ++ openEvents sys w m := by
  simp [openWorld,initHandle,World.setAsync,World.setModule,initWorld,World.record,resetWorld,openEvents]

/-- The world in which `on_start` runs. -/
def callbackWorld (sys : System M) (w : World M) (m : M) : World M := (openWorld sys w m).record (.onStart m)

theorem callbackWorld_trace (sys : System M) (w : World M) (m : M) :
    (callbackWorld sys w m).trace = w.trace ++ (openEvents sys w m ++ [.onStart m]) := by
  simp [callbackWorld,World.record,openWorld_trace]

theorem reset_run (w : World M) (m : M) :
    Module.resetModule m .defaultLoop (w.record (.startCalled m)) = .done () (resetWorld w m) := by
  simp [Module.resetModule,pthreadMutexInit,resetWorld,freshModule,World.record,World.setModule,World.setQueue,
    World.setMutex,ArmdMsgQueue.reset,ArmdMsgQueue.pending]

theorem reset_async (w : World M) (m : M) : (resetWorld w m).async (.module m) = (w.modules m).async := by
  simp [resetWorld,World.async,World.setModule,freshModule]

/-- The module object that `uv_async_init` finds. -/
theorem initWorld_modules (sys : System M) (w : World M) (m : M) :
    (initWorld sys w m).modules = Function.update w.modules m (freshModule (w.modules m)) := rfl

/-- The module object that `on_start` finds. -/
theorem callbackWorld_modules (sys : System M) (w : World M) (m : M) : (callbackWorld sys w m).modules =
    Function.update w.modules m { freshModule (w.modules m) with async := ⟨.defaultLoop,.active,false⟩ } := by
  simp only [callbackWorld,record_modules,openWorld,initHandle_modules,initWorld_modules,Function.update_self,
    Function.update_idem]

/-- A start of a module with operations, up to the result of `uv_async_init`. -/
theorem start_run (sys : System M) (w : World M) {m : M} {mops : ArmdModuleOps M} (ops : sys.mops m = some mops) :
    armdModuleStart sys (some m) .defaultLoop w =
      (if initRet sys w m < 0 then
          (pthreadMutexDestroy m >>= fun _ => pure (initRet sys w m)) (initWorld sys w m)
        else callOnStart m mops.onStart (openWorld sys w m)).andThen
        (fun ret => record (.started m ret) >>= fun _ => pure ret) := by
  simp only [armdModuleStart,startModule,ops,Program.bind_run,record,Program.change_run,Outcome.andThen_done,
    reset_run,Program.get_run,uvAsyncInit,reset_async]
  by_cases failed : initRet sys w m < 0
  · have failed' : sys.uvAsyncInitRet (resetWorld w m) (.module m) < 0 := failed
    simp [failed',initWorld,initRet]
  · have failed' : ¬ sys.uvAsyncInitRet (resetWorld w m) (.module m) < 0 := failed
    simp [failed',openWorld,initWorld,initRet]

end Armd.StartStop
