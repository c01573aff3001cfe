import Armd.RegistryCalls
import Armd.Lifecycle

/-!
`armd_module_startall` over a registry of modules that do not run. It starts the
registered modules by ascending level up to the first one that fails, takes back
what the failed start had set up, and leaves the modules after it as they were
(`startall_prefix`).
-/
namespace Armd.StartPrefix
open Armd.Programs Armd.Runs Armd.Message Armd.Queue Armd.Memory Armd.Module Armd.Registry Armd.RegistryModel
  Armd.Traversal Armd.RegistryCalls Armd.StartStop
open Armd.Lifecycle (Outcomes)

variable {M : Type}

/-- The callbacks return what the outcomes say and touch private data only, which is not part of the world. -/
structure Private (sys : System M) (o : Outcomes M) : Prop where
  init : ∀ w m, sys.uvAsyncInitRet w (.module m) = o.init m
  onStart : ∀ m mops f, sys.mops m = some mops → mops.onStart = some f → ∀ w, f m w = .done (o.start m) w

/-- The code with which a start of the module fails. -/
def failure (sys : System M) (o : Outcomes M) (m : M) : Option ℤ :=
  match sys.mops m with
  | none => some (-einval)
  | some mops =>
    if o.init m < 0 then some (o.init m)
    else if mops.onStart.isSome ∧ o.start m < 0 then some (o.start m) else none

/-- What a failed start takes back: nothing for want of operations, the mutex when the handle could not be
    opened, and both when `on_start` failed. -/
def undone (sys : System M) (o : Outcomes M) (m : M) : List (Event M) :=
  match sys.mops m with
  | none => []
  | some mops =>
    if o.init m < 0 then [.mutexDestroy m .live]
    else if mops.onStart.isSome ∧ o.start m < 0 then [.close (.module m) .active,.mutexDestroy m .live] else []

/-- The shortest prefix of the order that ends in a failing module, and its code; all of it if none fails. -/
def Reaches (failure : M → Option ℤ) (order reached : List M) (ret : Option ℤ) : Prop :=
  reached <+: order ∧
    match ret with
    | none => reached = order ∧ ∀ m ∈ order, failure m = none
    | some code => ∃ front m, reached = front ++ [m] ∧ failure m = some code ∧ ∀ x ∈ front, failure x = none

/-- The mutexes that were initialised, in order. -/
def mutexInits (trace : List (Event M)) : List M :=
  trace.filterMap fun
    | .mutexInit m _ => some m
    | _ => none

/-- The handles that were closed and the mutexes that were destroyed, in order. -/
def undoings (trace : List (Event M)) : List (Event M) :=
  trace.filter fun
    | .close _ _ => true
    | .mutexDestroy _ _ => true
    | _ => false

private theorem mutexInits_append (a b : List (Event M)) : mutexInits (a ++ b) = mutexInits a ++ mutexInits b :=
  List.filterMap_append

private theorem undoings_append (a b : List (Event M)) : undoings (a ++ b) = undoings a ++ undoings b := List.filter_append ..

def HandleOpen (w : World M) (m : M) : Prop := (w.modules m).async.state = .active
def MutexLive (w : World M) (m : M) : Prop := (w.modules m).msgQueue.qMutex = .live

/-- Calls that register modules that are not registered and unregister modules that are. -/
def Strict [DecidableEq M] (before : List (RegistryCall M)) : RegistryCall M → Prop
  | .register m _ => ¬ Registered (levelsAfter before) m
  | .unregister m _ => Registered (levelsAfter before) m

private theorem strict_disciplined [DecidableEq M] {calls : List (RegistryCall M)} (strict : Along Strict calls) :
    Disciplined calls := by
  intro before call prefixed
  have fits := strict before call prefixed
  cases call with
  | register m level => exact fits
  | unregister m level => exact seen_of_registered fits

private theorem failure_neg {sys : System M} {o : Outcomes M} {m : M} {code : ℤ} (fails : failure sys o m = some code) : code < 0 := by
  unfold failure at fails
  split at fails
  · cases fails; decide
  · split at fails
    · cases fails; assumption
    · split at fails
      · next both => cases fails; exact both.2
      · cases fails

section
variable [DecidableEq M] {sys : System M} {o : Outcomes M} {w : World M} {m : M}

/-- What starting one module, which does not run, does to the world. -/
structure Effect (sys : System M) (o : Outcomes M) (m : M) (w w' : World M) (events : List (Event M)) : Prop where
  trace : w'.trace = w.trace ++ events
  starts : startsOf events = [m]
  inits : mutexInits events = [m].filter (fun m => (sys.mops m).isSome)
  undoes : undoings events = undone sys o m
  registry : registryView w' = registryView w
  others : ∀ m', m' ≠ m → w'.modules m' = w.modules m'
  handle : HandleOpen w' m ↔ failure sys o m = none
  mutex : MutexLive w' m ↔ failure sys o m = none

/-- A module with no operations is refused at once. -/
private theorem refused_effect (ops : sys.mops m = none) (closed : ¬ HandleOpen w m) (unlocked : ¬ MutexLive w m) :
    ∃ w' events, armdModuleStart sys (some m) .defaultLoop w = .done ((failure sys o m).getD 0) w' ∧
      Effect sys o m w w' events := by
  have fails : failure sys o m = some (-einval) := by simp [failure,ops]
  refine ⟨(w.record (.startCalled m)).record (.started m (-einval)),[.startCalled m,.started m (-einval)],?_,?_⟩
  · simp [armdModuleStart,startModule,ops,record,fails]
  · refine ⟨by simp,rfl,by simp [ops]; rfl,by simp [undone,ops]; rfl,rfl,fun _ _ => rfl,?_,?_⟩
    · simpa [fails,HandleOpen] using closed
    · simpa [fails,MutexLive] using unlocked

section
variable {mops : ArmdModuleOps M} (isPrivate : Private sys o) (ops : sys.mops m = some mops)
include isPrivate ops

/-- When the handle cannot be opened, the mutex is destroyed again. -/
private theorem noHandle_effect (fails : o.init m < 0) (closed : ¬ HandleOpen w m) :
    ∃ w' events, armdModuleStart sys (some m) .defaultLoop w = .done ((failure sys o m).getD 0) w' ∧
      Effect sys o m w w' events := by
  have code : failure sys o m = some (o.init m) := by simp [failure,ops,fails]
  have ret : initRet sys w m = o.init m := isPrivate.init _ m
  refine ⟨(((initWorld sys w m).setMutex m .destroyed).record (.mutexDestroy m .live)).record (.started m (o.init m)),
    openEvents sys w m ++ [.mutexDestroy m .live,.started m (o.init m)],?_,?_⟩
  · simp [start_run sys w ops,ret,fails,code,record,pthreadMutexDestroy,initWorld_modules,freshModule]
  · refine ⟨?_,rfl,by simp [ops]; rfl,by simp [undone,ops,fails]; rfl,rfl,fun m' other => ?_,?_,?_⟩
    · simp [initWorld,resetWorld,openEvents]
    · simp [initWorld_modules,other]
    · simpa [code,HandleOpen,initWorld_modules,freshModule] using closed
    · simp [code,MutexLive]

/-- A module without `on_start` runs once its handle is open. -/
private theorem opened_effect (inits : ¬ o.init m < 0) (absent : mops.onStart = none) :
    ∃ w' events, armdModuleStart sys (some m) .defaultLoop w = .done ((failure sys o m).getD 0) w' ∧
      Effect sys o m w w' events := by
  have succeeds : failure sys o m = none := by simp [failure,ops,inits,absent]
  have ret : initRet sys w m = o.init m := isPrivate.init _ m
  have object := callbackWorld_modules sys w m
  rw [callbackWorld,record_modules] at object
  refine ⟨(openWorld sys w m).record (.started m 0),openEvents sys w m ++ [.started m 0],?_,?_⟩
  · simp [start_run sys w ops,ret,inits,absent,callOnStart,record,succeeds]
  · refine ⟨by simp [openWorld_trace],rfl,by simp [ops]; rfl,by simp [undone,ops,inits,absent]; rfl,rfl,
      fun m' other => ?_,?_,?_⟩
    · simp [object,other]
    · simp [succeeds,HandleOpen,object]
    · simp [succeeds,MutexLive,object,freshModule]

variable {f : M → Program (World M) ℤ} (inits : ¬ o.init m < 0) (onStart : mops.onStart = some f)
include inits onStart

/-- When `on_start` fails, the handle is closed and the mutex destroyed. -/
private theorem callbackFailed_effect (fails : o.start m < 0) :
    ∃ w' events, armdModuleStart sys (some m) .defaultLoop w = .done ((failure sys o m).getD 0) w' ∧
      Effect sys o m w w' events := by
  have code : failure sys o m = some (o.start m) := by simp [failure,ops,inits,onStart,fails]
  have ret : initRet sys w m = o.init m := isPrivate.init _ m
  have called := isPrivate.onStart m mops f ops onStart (callbackWorld sys w m)
  rw [callbackWorld] at called
  have object := callbackWorld_modules sys w m
  refine ⟨(((closeHandle ((callbackWorld sys w m).record (.close (.module m) .active)) (.module m)).setMutex m
    .destroyed).record (.mutexDestroy m .live)).record (.started m (o.start m)),
    openEvents sys w m ++ [.onStart m,.close (.module m) .active,.mutexDestroy m .live,.started m (o.start m)],?_,?_⟩
  · rw [callbackWorld,record_modules] at object
    simp [start_run sys w ops,ret,inits,onStart,callOnStart,record,code,called,fails,uvClose,World.async,object,
      pthreadMutexDestroy,freshModule,callbackWorld]
  · refine ⟨by simp [callbackWorld_trace],rfl,by simp [ops]; rfl,by simp [undone,ops,inits,onStart,fails]; rfl,rfl,
      fun m' other => ?_,?_,?_⟩
    · simp [object,other]
    · simp [code,HandleOpen]
    · simp [code,MutexLive]

/-- A module whose `on_start` succeeds runs. -/
private theorem called_effect (succeeds : ¬ o.start m < 0) :
    ∃ w' events, armdModuleStart sys (some m) .defaultLoop w = .done ((failure sys o m).getD 0) w' ∧
      Effect sys o m w w' events := by
  have code : failure sys o m = none := by simp [failure,ops,inits,succeeds]
  have ret : initRet sys w m = o.init m := isPrivate.init _ m
  have called := isPrivate.onStart m mops f ops onStart (callbackWorld sys w m)
  rw [callbackWorld] at called
  have object := callbackWorld_modules sys w m
  refine ⟨(callbackWorld sys w m).record (.started m 0),openEvents sys w m ++ [.onStart m,.started m 0],?_,?_⟩
  · simp [start_run sys w ops,ret,inits,onStart,callOnStart,record,code,called,succeeds,callbackWorld]
  · refine ⟨by simp [callbackWorld_trace],rfl,by simp [ops]; rfl,by simp [undone,ops,inits,succeeds]; rfl,rfl,
      fun m' other => ?_,?_,?_⟩
    · simp [object,other]
    · simp [code,HandleOpen,object]
    · simp [code,MutexLive,object,freshModule]

end

private theorem start_effect (isPrivate : Private sys o) (closed : ¬ HandleOpen w m) (unlocked : ¬ MutexLive w m) :
    ∃ w' events, armdModuleStart sys (some m) .defaultLoop w = .done ((failure sys o m).getD 0) w' ∧
      Effect sys o m w w' events := by
  cases ops : sys.mops m with
  | none => exact refused_effect ops closed unlocked
  | some mops =>
    by_cases noHandle : o.init m < 0
    · exact noHandle_effect isPrivate ops noHandle closed
    · cases onStart : mops.onStart with
      | none => exact opened_effect isPrivate ops noHandle onStart
      | some f =>
        by_cases refuses : o.start m < 0
        · exact callbackFailed_effect isPrivate ops noHandle onStart refuses
        · exact called_effect isPrivate ops noHandle onStart refuses

/-- Starting modules in turn, each of which does not run, up to the first that fails. -/
private theorem startEach_effect (isPrivate : Private sys o) (ms : List M) : ∀ w : World M, ms.Nodup →
    (∀ m ∈ ms, ¬ HandleOpen w m ∧ ¬ MutexLive w m) →
      ∃ w' new reached ret, startEach sys .defaultLoop ms w = .done ret w' ∧ Reaches (failure sys o) ms reached ret ∧
        w'.trace = w.trace ++ new ∧ startsOf new = reached ∧
        mutexInits new = reached.filter (fun m => (sys.mops m).isSome) ∧ undoings new = reached.flatMap (undone sys o) ∧
        (∀ m ∈ reached, (HandleOpen w' m ↔ failure sys o m = none) ∧ (MutexLive w' m ↔ failure sys o m = none)) ∧
        (∀ m, m ∉ reached → w'.modules m = w.modules m) ∧ registryView w' = registryView w := by
  induction ms with
  | nil =>
    intro w _ _
    exact ⟨w,[],[],none,rfl,⟨List.prefix_refl _,rfl,by simp⟩,by simp,rfl,rfl,rfl,by simp,fun _ _ => rfl,rfl⟩
  | cons m rest ih =>
    intro w distinct idle
    obtain ⟨notAgain,distinct'⟩ := List.nodup_cons.mp distinct
    obtain ⟨closed,unlocked⟩ := idle m (by simp)
    obtain ⟨w₁,events,started,effect⟩ := start_effect isPrivate closed unlocked
    cases fails : failure sys o m with
    | some code =>
      have negative := failure_neg fails
      simp only [fails,Option.getD_some] at started
      refine ⟨w₁,events,[m],some code,by simp [startEach,started,negative],
        ⟨List.prefix_cons_inj m |>.mpr List.nil_prefix,[],m,rfl,fails,by simp⟩,effect.trace,effect.starts,effect.inits,
        by simp [effect.undoes],?_,?_,effect.registry⟩
      · intro x member
        rw [List.mem_singleton.mp member]
        exact ⟨effect.handle,effect.mutex⟩
      · intro x outside
        exact effect.others x (by simpa using outside)
    | none =>
      simp only [fails,Option.getD_none] at started
      have still : ∀ x ∈ rest, w₁.modules x = w.modules x := by
        intro x member
        exact effect.others x (by rintro rfl; exact notAgain member)
      have idle' : ∀ x ∈ rest, ¬ HandleOpen w₁ x ∧ ¬ MutexLive w₁ x := by
        intro x member
        simp only [HandleOpen,MutexLive,still x member]
        exact idle x (by simp [member])
      obtain ⟨w',new,reached,ret,ran,reaches,trace,starts,inits,undoes,running,others,registry⟩ := ih w₁ distinct' idle'
      have mNotReached : m ∉ reached := fun member => notAgain (reaches.1.subset member)
      refine ⟨w',events ++ new,m :: reached,ret,by simp [startEach,started,ran],⟨?_,?_⟩,by simp [trace,effect.trace],
        by rw [startsOf_append,effect.starts,starts]; rfl,?_,?_,?_,?_,registry.trans effect.registry⟩
      · exact (List.prefix_cons_inj m).mpr reaches.1
      · cases ret with
        | none =>
          obtain ⟨all,succeed⟩ := reaches.2
          exact ⟨by rw [all],by simpa [fails] using succeed⟩
        | some code =>
          obtain ⟨front,last,split,failed,before⟩ := reaches.2
          exact ⟨m :: front,last,by rw [split]; rfl,failed,by simpa [fails] using before⟩
      · rw [mutexInits_append,effect.inits,inits,← List.filter_append,List.singleton_append]
      · rw [undoings_append,effect.undoes,undoes,List.flatMap_cons]
      · intro x member
        rcases List.mem_cons.mp member with rfl | later
        · -- the rest of the walk does not touch the module
          simp only [HandleOpen,MutexLive,others x mNotReached]
          exact ⟨effect.handle,effect.mutex⟩
        · exact running x later
      · intro x outside
        rw [List.mem_cons,not_or] at outside
        exact (others x outside.2).trans (effect.others x outside.1)

/-- Starting everything starts the registered modules by ascending level up to the first one that fails, and
    returns its code. Afterwards exactly the ones before it run, it has given back what it had, and the others
    are as they were. -/
theorem startall_prefix (isPrivate : Private sys o) {calls : List (RegistryCall M)} (strict : Along Strict calls)
    {w₀ : World M} (ran : runCalls calls World.zero = .done () w₀) (same : registryView w = registryView w₀)
    (idle : ∀ m, ¬ HandleOpen w m ∧ ¬ MutexLive w m) :
    ∃ w' new reached ret,
      (∀ fuel, rounds (levelsAfter calls) ≤ fuel → armdModuleStartall sys fuel .defaultLoop w = .done (ret.getD 0) w') ∧
      Reaches (failure sys o) (startOrder (levelsAfter calls)) reached ret ∧ reached.Nodup ∧
      w'.trace = w.trace ++ new ∧ startsOf new = reached ∧
      mutexInits new = reached.filter (fun m => (sys.mops m).isSome) ∧ undoings new = reached.flatMap (undone sys o) ∧
      (∀ m, HandleOpen w' m ↔ m ∈ reached ∧ failure sys o m = none) ∧
      (∀ m, MutexLive w' m ↔ m ∈ reached ∧ failure sys o m = none) ∧
      (∀ m, m ∉ reached → w'.modules m = w.modules m) ∧ registryView w' = registryView w := by
  obtain ⟨w₁,ran₁,tracks⟩ := tracks_of_disciplined (strict_disciplined strict)
  cases ran.symm.trans ran₁
  have lists : w.lists = w₀.lists := congrArg Prod.fst same
  have initialized : w.registryInitialized = true := (congrArg Prod.snd same).trans tracks.initialized
  have rep : Represents w.lists (levelsAfter calls) := lists ▸ tracks.tidy.rings
  have quiet : StartQuiet sys := by
    intro m mops f ops onStart v ret v' called
    rw [isPrivate.onStart m mops f ops onStart v] at called
    cases called
    rfl
  have distinct := startOrder_nodup rep
  obtain ⟨w',new,reached,ret,ran',reaches,trace,starts,inits,undoes,running,others,registry⟩ :=
    startEach_effect isPrivate (startOrder (levelsAfter calls)) w distinct (fun m _ => idle m)
  refine ⟨w',new,reached,ret,fun fuel enough => ?_,reaches,distinct.sublist reaches.1.sublist,trace,starts,inits,undoes,
    fun m => ?_,fun m => ?_,others,registry⟩
  · rw [startall_eq quiet rep initialized enough,ran']
    rfl
  · by_cases inside : m ∈ reached
    · simpa [inside] using (running m inside).1
    · simpa [inside,HandleOpen,others m inside] using (idle m).1
  · by_cases inside : m ∈ reached
    · simpa [inside] using (running m inside).2
    · simpa [inside,MutexLive,others m inside] using (idle m).2

/-- Registering and unregistering leaves the module objects alone. -/
private theorem preserves_runCalls (calls : List (RegistryCall M)) : Program.Preserves World.modules (runCalls calls) := by
  induction calls using List.reverseRecOn with
  | nil =>
    refine Program.preserves_bind Program.preserves_get fun w => ?_
    exact Program.preserves_ite (Program.preserves_pure ()) (Program.preserves_change fun _ => rfl)
  | append_singleton calls call ih =>
    rw [runCalls_snoc]
    exact Program.preserves_bind ih fun _ => preserves_call (fun _ _ => rfl) (fun _ _ => rfl) call

/-- No module runs when nothing but registrations has happened. -/
private theorem idle_of_runCalls {calls : List (RegistryCall M)} (ran : runCalls calls World.zero = .done () w) (m : M) :
    ¬ HandleOpen w m ∧ ¬ MutexLive w m := by
  have untouched : w.modules m = zeroModule := congrFun (preserves_runCalls calls _ _ _ ran) m
  simp [HandleOpen,MutexLive,untouched,zeroModule,zeroAsync,zeroQueue]

end

/-- Of two modules the second one's `on_start` fails. -/
def secondFails : System Bool where
  name := fun _ _ => 0
  mops := fun _ => some ⟨some (fun m => pure (if m then -5 else 0)),none,none⟩
  uvAsyncInitRet := fun _ _ => 0

def secondFailsOutcomes : Outcomes Bool := ⟨fun _ => 0,fun m => if m then -5 else 0⟩

def twoCalls : List (RegistryCall Bool) := [.register true coreLevel,.register false systemLevel]

private theorem twoCalls_strict : Along Strict twoCalls := by
  have empty : ∀ m : Bool, ¬ Registered (levelsAfter []) m := by rintro m ⟨l,inside⟩; cases inside
  have fit : Strict [] (.register true coreLevel : RegistryCall Bool) := empty true
  have first : Along Strict [(.register true coreLevel : RegistryCall Bool)] := along_snoc.mpr ⟨along_nil Strict,fit⟩
  refine along_snoc.mpr ⟨first,?_⟩
  rintro ⟨l,inside⟩
  rcases mem_add.mp (show false ∈ add (levelsAfter []) coreLevel true l from inside) with old | ⟨_,same⟩
  · exact empty false ⟨l,old⟩
  · cases same

/-- The first module runs, the second one does not, and starting them returns the code of the second. -/
theorem startall_second_fails : ∃ w w', runCalls twoCalls World.zero = .done () w ∧
    armdModuleStartall secondFails 3 .defaultLoop w = .done (-5) w' ∧ HandleOpen w' false ∧ ¬ HandleOpen w' true := by
  have isPrivate : Private secondFails secondFailsOutcomes := by
    refine ⟨fun _ _ => rfl,?_⟩
    intro m mops f ops onStart w
    cases ops; cases onStart; rfl
  have fails : failure secondFails secondFailsOutcomes true = some (-5) := by decide
  have succeeds : failure secondFails secondFailsOutcomes false = none := by decide
  obtain ⟨w,ran,_⟩ := tracks_of_disciplined (strict_disciplined twoCalls_strict)
  obtain ⟨w',_,reached,ret,started,reaches,_,_,_,_,_,handles,_⟩ :=
    startall_prefix isPrivate twoCalls_strict ran rfl (idle_of_runCalls ran)
  have order : startOrder (levelsAfter twoCalls) = [false,true] := by decide
  have returned : ret = some (-5) ∧ false ∈ reached := by
    rw [order] at reaches
    cases ret with
    | none => simpa [fails] using reaches.2.2 true (by simp)
    | some code =>
      obtain ⟨front,m,split,failed,_⟩ := reaches.2
      cases m with
      | false => simp [succeeds] at failed
      | true =>
        rw [fails] at failed
        refine ⟨failed.symm,?_⟩
        have prefixed := reaches.1
        rw [split] at prefixed ⊢
        cases front with
        | nil => simp [List.cons_prefix_cons] at prefixed
        | cons x rest => simp [(List.cons_prefix_cons.mp prefixed).1]
  refine ⟨w,w',ran,?_,(handles false).mpr ⟨returned.2,succeeds⟩,fun isOpen => ?_⟩
  · have code := started 3 (by decide)
    rwa [returned.1] at code
  · exact absurd ((handles true).mp isOpen).2 (by simp [fails])

end Armd.StartPrefix
