import Armd.Draining
import Armd.Operations

/-!
`async_callback` with a handler that may stop its own module, alone or with all
others. The loop goes on after the handler returned: when the module was stopped
the next round locks the destroyed mutex. A run of rounds keeps to the rules of
the mutex and the callbacks exactly when no message it takes makes the handler
stop the module (`survives_iff`).
-/
namespace Armd.HandlerStop
open Armd.Programs Armd.Runs Armd.Message Armd.Queue Armd.Memory Armd.Module Armd.Registry Armd.RegistryModel Armd.Traversal
  Armd.RegistryCalls Armd.Operations Armd.Draining

variable {M : Type} [DecidableEq M]

/-! ### Handlers -/

/-- What a handler does: it looks at the world, posts, stops its own module or stops everything. -/
inductive Reaction (M : Type)
  | ret (value : ℤ)
  | look (next : World M → Reaction M)
  | post (target : M) (msg : ArmdMsg) (next : ℤ → Reaction M)
  | stop (next : Reaction M)
  | stopall (next : Reaction M)

def perform (sys : System M) (fuel : ℕ) (m : M) : Reaction M → Program (World M) ℤ
  | .ret value => pure value
  | .look next => do
    let w ← Program.get
    perform sys fuel m (next w)
  | .post target msg next => do
    let ret ← armdModulePost (some target) (some msg)
    perform sys fuel m (next ret)
  | .stop next => do
    armdModuleStop sys (some m)
    perform sys fuel m next
  | .stopall next => do
    armdModuleStopall sys fuel
    perform sys fuel m next

/-- Called in a world, the handler comes to stop its own module, or everything while the module is on a ring. -/
def Reaction.Stops (sys : System M) (fuel : ℕ) (m : M) : Reaction M → World M → Prop
  | .ret _, _ => False
  | .look next, w => (next w).Stops sys fuel m w
  | .post target msg next, w => ∃ ret w', armdModulePost (some target) (some msg) w = .done ret w' ∧ (next ret).Stops sys fuel m w'
  | .stop _, _ => True
  | .stopall next, w => OnRing w m ∨ ∃ w', armdModuleStopall sys fuel w = .done () w' ∧ next.Stops sys fuel m w'

/-- The `on_message` of the module reacts to each message as the script says. -/
def Reacts (sys : System M) (fuel : ℕ) (m : M) (script : ArmdMsg → Reaction M) : Prop :=
  ∃ handler, (sys.mops m).bind (·.onMessage) = some handler ∧ ∀ msg, handler m msg = perform sys fuel m (script msg)

/-! ### What the events say -/

/-- An event fits those before it: no destroyed mutex is locked, the queue is not read after the module was
    stopped, and `on_message` is not called after `on_stop`. -/
def Fits (m : M) (before : List (Event M)) : Event M → Prop
  | .mutexLock m' found => m' = m → found ≠ .destroyed ∧ .stopped m ∉ before
  | .onMessage m' _ => m' = m → .onStop m ∉ before
  | _ => True

def Survives (m : M) (events : List (Event M)) : Prop := Along (Fits m) events

/-- The event does not stop the module, and finds its mutex in use. -/
def Harmless (m : M) : Event M → Prop
  | .mutexLock m' found => m' = m → found = .live
  | .onStop m' => m' ≠ m
  | .stopped m' => m' ≠ m
  | _ => True

omit [DecidableEq M] in
private theorem survives_of_harmless {m : M} {events : List (Event M)} (harmless : ∀ e ∈ events, Harmless m e) :
    Survives m events := by
  intro before e prefixed
  have inside : ∀ x ∈ before ++ [e], x ∈ events := fun x member => prefixed.subset member
  have unstopped : .stopped m ∉ before := fun there => harmless _ (inside _ (List.mem_append_left _ there)) rfl
  have silent : .onStop m ∉ before := fun there => harmless _ (inside _ (List.mem_append_left _ there)) rfl
  have last := harmless e (inside e (by simp))
  cases e with
  | mutexLock m' found =>
    intro same
    rw [last same]
    exact ⟨by decide,unstopped⟩
  | onMessage => exact fun _ => silent
  | _ => trivial

omit [DecidableEq M] in
private theorem not_survives {m : M} {events : List (Event M)} (stopped : .stopped m ∈ events) (found : Mutex) :
    ¬ Survives m (events ++ [.mutexLock m found]) :=
  fun survives => (survives events _ (List.prefix_refl _) rfl).2 stopped

/-! ### Programs and the trace -/

/-- The trace grows. -/
def Grows (w w' : World M) : Prop := w.trace <+: w'.trace

/-- While the mutex of the module is in use it stays so, and the events are harmless. -/
def Calm (m : M) (w w' : World M) : Prop :=
  (w.modules m).msgQueue.qMutex = .live → (w'.modules m).msgQueue.qMutex = .live ∧
    ∃ events, w'.trace = w.trace ++ events ∧ ∀ e ∈ events, Harmless m e

omit [DecidableEq M] in
private theorem grows_refl (w : World M) : Grows w w := List.prefix_refl _

omit [DecidableEq M] in
private theorem grows_trans (u v w : World M) (first : Grows u v) (second : Grows v w) : Grows u w := List.IsPrefix.trans first second

omit [DecidableEq M] in
private theorem calm_refl {m : M} (w : World M) : Calm m w w := fun live => ⟨live,[],by simp,by simp⟩

omit [DecidableEq M] in
private theorem calm_trans {m : M} (u v w : World M) (first : Calm m u v) (second : Calm m v w) : Calm m u w := by
  intro live
  obtain ⟨live₁,events₁,trace₁,harmless₁⟩ := first live
  obtain ⟨live₂,events₂,trace₂,harmless₂⟩ := second live₁
  refine ⟨live₂,events₁ ++ events₂,by rw [trace₂,trace₁,List.append_assoc],fun e member => ?_⟩
  exact (List.mem_append.mp member).elim (harmless₁ e) (harmless₂ e)

/-- What a post writes down. -/
private theorem post_trace {m target : M} {msg : ArmdMsg} {w w' : World M} {ret : ℤ}
    (ran : armdModulePost (some target) (some msg) w = .done ret w') :
    ∃ events, w'.trace = w.trace ++ .mutexLock target (w.modules target).msgQueue.qMutex :: events ∧
      ∀ e ∈ events, Harmless m e := by
  rcases post_done ran with ⟨_,rfl⟩ | ⟨q,_,rfl⟩
  · exact ⟨[.posted target msg (-enospc)],by simp,by simp [Harmless]⟩
  · exact ⟨[.asyncSend (.module target) (w.modules target).async.state,.posted target msg 0],by simp,by simp [Harmless]⟩

/-- Posts leave the mutexes and the registry alone. -/
private theorem post_views {target : M} {msg : ArmdMsg} {w w' : World M} {ret : ℤ}
    (ran : armdModulePost (some target) (some msg) w = .done ret w') :
    (∀ m, (w'.modules m).msgQueue.qMutex = (w.modules m).msgQueue.qMutex) ∧ registryView w' = registryView w := by
  have same := still_post target msg w ret w' ran
  exact ⟨fun m => congrFun (congrArg (fun s => s.1.mutex) same) m,congrArg Prod.snd same⟩

private theorem calm_post {m target : M} {msg : ArmdMsg} {w w' : World M} {ret : ℤ}
    (ran : armdModulePost (some target) (some msg) w = .done ret w') : Calm m w w' := by
  intro live
  obtain ⟨events,trace,harmless⟩ := post_trace ran
  refine ⟨((post_views ran).1 m).trans live,_,trace,fun e member => ?_⟩
  rcases List.mem_cons.mp member with rfl | later
  · intro same; rw [same,live]
  · exact harmless e later

/-! ### Stops -/

/-- The `on_stop` callbacks leave the registry alone and only add to the trace; those of the other modules do
    not stop the module and find its mutex in use. -/
structure Discreet (sys : System M) (m : M) : Prop where
  quiet : StopQuiet sys
  grows : ∀ x mops f, sys.mops x = some mops → mops.onStop = some f → Program.Respects Grows (f x)
  calm : ∀ x mops f, x ≠ m → sys.mops x = some mops → mops.onStop = some f → Program.Respects (Calm m) (f x)

variable {sys : System M} {m : M}

private theorem grows_close (x : M) : Program.Respects Grows (uvClose (.module x)) := by
  intro w a w' ran
  rw [(close_done ran).2]
  exact List.prefix_append _ _

private theorem grows_stopModule (discreet : Discreet sys m) (x : M) : Program.Respects Grows (stopModule sys x) :=
  respects_stopModule Grows grows_refl grows_trans (fun _ => List.prefix_append _ _) (discreet.grows x) (grows_close x)
    (Program.respects_change fun _ => List.prefix_append _ _)

private theorem grows_stop (discreet : Discreet sys m) (x : M) : Program.Respects Grows (armdModuleStop sys (some x)) := by
  refine Program.respects_bind grows_trans (Program.respects_change fun _ => List.prefix_append _ _) fun _ => ?_
  exact Program.respects_bind grows_trans (grows_stopModule discreet x) fun _ =>
    Program.respects_change fun _ => List.prefix_append _ _

omit [DecidableEq M] in
private theorem calm_record (e : Event M) (harmless : Harmless m e) (w : World M) : Calm m w (w.record e) :=
  fun live => ⟨live,[e],rfl,fun _ member => List.mem_singleton.mp member ▸ harmless⟩

/-- Stopping another module is calm. -/
private theorem calm_stop (discreet : Discreet sys m) {x : M} (other : x ≠ m) :
    Program.Respects (Calm m) (armdModuleStop sys (some x)) := by
  have close : Program.Respects (Calm m) (uvClose (.module x)) := by
    intro w a w' ran live
    rw [(close_done ran).2]
    exact ⟨by simp [other.symm,live],[_],rfl,by simp [Harmless]⟩
  have destroy : Program.Respects (Calm m) (pthreadMutexDestroy x) :=
    Program.respects_change fun w live => ⟨by simp [other.symm,live],[_],rfl,by simp [Harmless]⟩
  refine Program.respects_bind calm_trans (Program.respects_change (calm_record (.stopCalled x) trivial)) fun _ => ?_
  refine Program.respects_bind calm_trans ?_ fun _ => Program.respects_change (calm_record (.stopped x) other)
  exact respects_stopModule (Calm m) calm_refl calm_trans (calm_record (.onStop x) other)
    (fun mops f => discreet.calm x mops f other) close destroy

private theorem grows_stopEach (discreet : Discreet sys m) (ms : List M) : Program.Respects Grows (stopEach sys ms) :=
  respects_stopEach Grows grows_refl grows_trans (fun _ _ => List.prefix_refl _) fun _ _ => grows_stop discreet _

private theorem calm_stopEach (discreet : Discreet sys m) {ms : List M} (others : m ∉ ms) :
    Program.Respects (Calm m) (stopEach sys ms) :=
  respects_stopEach (Calm m) calm_refl calm_trans (fun _ _ live => ⟨live,[],by simp,by simp⟩) fun x member =>
    calm_stop discreet fun same => others (same ▸ member)

/-- The module was stopped on the way. -/
def Stopped (m : M) (w w' : World M) : Prop := ∃ events, w'.trace = w.trace ++ events ∧ .stopped m ∈ events

omit [DecidableEq M] in
theorem Stopped.after {u v w : World M} (first : Grows u v) (second : Stopped m v w) : Stopped m u w := by
  obtain ⟨before,trace₁⟩ := first
  obtain ⟨events,trace₂,there⟩ := second
  exact ⟨before ++ events,by rw [trace₂,← trace₁,List.append_assoc],List.mem_append_right _ there⟩

omit [DecidableEq M] in
theorem Stopped.before {u v w : World M} (first : Stopped m u v) (second : Grows v w) : Stopped m u w := by
  obtain ⟨events,trace₁,there⟩ := first
  obtain ⟨after,trace₂⟩ := second
  exact ⟨events ++ after,by rw [← trace₂,trace₁,List.append_assoc],List.mem_append_left _ there⟩

private theorem stopped_stop (discreet : Discreet sys m) : Program.Respects (Stopped m) (armdModuleStop sys (some m)) := by
  intro w a w' ran
  simp only [armdModuleStop,record,Program.bind_run,Program.change_run,Outcome.andThen_done] at ran
  obtain ⟨_,w₁,stopped,ran⟩ := Outcome.andThen_eq_done.mp ran
  cases ran
  obtain ⟨events,trace⟩ := grows_stopModule discreet m _ _ _ stopped
  exact ⟨.stopCalled m :: events ++ [.stopped m],by simp [← trace],by simp⟩

private theorem stopped_stopEach (discreet : Discreet sys m) {ms : List M} (there : m ∈ ms) :
    Program.Respects (Stopped m) (stopEach sys ms) := by
  induction ms with
  | nil => cases there
  | cons x rest ih =>
    intro w a w' ran
    obtain ⟨_,w₁,stopped,ran⟩ := Outcome.andThen_eq_done.mp ran
    obtain ⟨_,w₂,wrote,ran⟩ := Outcome.andThen_eq_done.mp ran
    obtain ⟨lists,_,rfl⟩ := onLists_eq_done.mp wrote
    by_cases same : x = m
    · subst same
      have onward : Grows { w₁ with lists := lists } w' := grows_stopEach discreet rest _ _ _ ran
      exact (stopped_stop discreet w _ w₁ stopped).before onward
    · have later := ih ((List.mem_cons.mp there).resolve_left (Ne.symm same)) _ _ _ ran
      exact Stopped.after (grows_stop discreet x w _ w₁ stopped) later

/-! ### Reactions -/

/-- The registry is a tidy one that the loops can go through. -/
structure Kept (fuel : ℕ) (w : World M) : Prop where
  initialized : w.registryInitialized = true
  tidy : ∃ R, Tidy w.lists R ∧ rounds R ≤ fuel

omit [DecidableEq M] in
theorem Kept.of_view {fuel : ℕ} {w w' : World M} (kept : Kept fuel w) (same : registryView w' = registryView w) :
    Kept fuel w' := by
  obtain ⟨initialized,R,tidy,enough⟩ := kept
  exact ⟨(congrArg Prod.snd same).trans initialized,R,(view_lists same).symm ▸ tidy,enough⟩

variable {fuel : ℕ} {w w' : World M}

/-- Stopping everything is stopping the registered modules in turn, and leaves an empty registry. -/
private theorem stopall_kept (discreet : Discreet sys m) (kept : Kept fuel w) (ran : armdModuleStopall sys fuel w = .done () w') :
    Kept fuel w' ∧ ∃ ms, stopEach sys ms w = .done () w' ∧ (m ∈ ms ↔ OnRing w m) := by
  obtain ⟨initialized,R,tidy,enough⟩ := kept
  rw [stopall_eq discreet.quiet tidy initialized enough] at ran
  have fewer : rounds (noModules : Levels M) ≤ fuel := (Nat.succ_le_succ (Nat.zero_le _)).trans enough
  refine ⟨⟨(stopEach_initialized discreet.quiet _ ran).trans initialized,noModules,
    stopall_empties discreet.quiet tidy ran,fewer⟩,stopOrder R,ran,?_⟩
  rw [mem_stopOrder,onRing_iff tidy.rings]

private theorem perform_kept (discreet : Discreet sys m) (reaction : Reaction M) : ∀ {w w' : World M} {ret : ℤ}, Kept fuel w →
    perform sys fuel m reaction w = .done ret w' → Kept fuel w' ∧ Grows w w' := by
  induction reaction with
  | ret value => intro w w' ret kept ran; cases ran; exact ⟨kept,grows_refl w⟩
  | look next ih => intro w w' ret kept ran; exact ih w kept ran
  | post target msg next ih =>
    intro w w' ret kept ran
    obtain ⟨code,v,posted,ran⟩ := Outcome.andThen_eq_done.mp ran
    obtain ⟨kept',grown⟩ := ih code (kept.of_view (post_views posted).2) ran
    obtain ⟨events,trace,_⟩ := post_trace (m := m) posted
    exact ⟨kept',grows_trans _ _ _ ⟨_,trace.symm⟩ grown⟩
  | stop next ih =>
    intro w w' ret kept ran
    obtain ⟨_,v,stopped,ran⟩ := Outcome.andThen_eq_done.mp ran
    obtain ⟨kept',grown⟩ := ih (kept.of_view (preserves_stop discreet.quiet m w _ v stopped)) ran
    exact ⟨kept',grows_trans _ _ _ (grows_stop discreet m w _ v stopped) grown⟩
  | stopall next ih =>
    intro w w' ret kept ran
    obtain ⟨_,v,stopped,ran⟩ := Outcome.andThen_eq_done.mp ran
    obtain ⟨kept₁,ms,each,_⟩ := stopall_kept discreet kept stopped
    obtain ⟨kept',grown⟩ := ih kept₁ ran
    exact ⟨kept',grows_trans _ _ _ (grows_stopEach discreet ms w _ v each) grown⟩

/-- A reaction that does not stop the module is calm. -/
private theorem perform_calm (discreet : Discreet sys m) (reaction : Reaction M) : ∀ {w w' : World M} {ret : ℤ}, Kept fuel w →
    ¬ reaction.Stops sys fuel m w → perform sys fuel m reaction w = .done ret w' → Calm m w w' := by
  induction reaction with
  | ret value => intro w w' ret _ _ ran; cases ran; exact calm_refl w
  | look next ih => intro w w' ret kept goesOn ran; exact ih w kept goesOn ran
  | post target msg next ih =>
    intro w w' ret kept goesOn ran
    obtain ⟨code,v,posted,ran⟩ := Outcome.andThen_eq_done.mp ran
    have rest := ih code (kept.of_view (post_views posted).2) (fun stops => goesOn ⟨code,v,posted,stops⟩) ran
    exact calm_trans _ _ _ (calm_post posted) rest
  | stop next ih => intro w w' ret _ goesOn _; exact absurd trivial goesOn
  | stopall next ih =>
    intro w w' ret kept goesOn ran
    obtain ⟨offRing,onwards⟩ := not_or.mp goesOn
    obtain ⟨_,v,stopped,ran⟩ := Outcome.andThen_eq_done.mp ran
    obtain ⟨kept₁,ms,each,there⟩ := stopall_kept discreet kept stopped
    have others : Calm m w v := calm_stopEach discreet (fun inside => offRing (there.mp inside)) w _ v each
    exact calm_trans _ _ _ others (ih kept₁ (fun stops => onwards ⟨v,stopped,stops⟩) ran)

/-- A reaction that stops the module leaves the stop in the trace. -/
private theorem perform_stopped (discreet : Discreet sys m) (reaction : Reaction M) : ∀ {w w' : World M} {ret : ℤ}, Kept fuel w →
    reaction.Stops sys fuel m w → perform sys fuel m reaction w = .done ret w' → Stopped m w w' := by
  induction reaction with
  | ret value => intro w w' ret _ stops _; exact stops.elim
  | look next ih => intro w w' ret kept stops ran; exact ih w kept stops ran
  | post target msg next ih =>
    intro w w' ret kept stops ran
    obtain ⟨code,v,posted,stops⟩ := stops
    obtain ⟨code',v',posted',ran⟩ := Outcome.andThen_eq_done.mp ran
    cases posted.symm.trans posted'
    obtain ⟨events,trace,_⟩ := post_trace (m := m) posted
    exact Stopped.after ⟨_,trace.symm⟩ (ih code (kept.of_view (post_views posted).2) stops ran)
  | stop next ih =>
    intro w w' ret kept _ ran
    obtain ⟨_,v,stopped,ran⟩ := Outcome.andThen_eq_done.mp ran
    have onward := (perform_kept discreet next (kept.of_view (preserves_stop discreet.quiet m w _ v stopped)) ran).2
    exact (stopped_stop discreet w _ v stopped).before onward
  | stopall next ih =>
    intro w w' ret kept stops ran
    obtain ⟨_,v,stopped,ran⟩ := Outcome.andThen_eq_done.mp ran
    obtain ⟨kept₁,ms,each,there⟩ := stopall_kept discreet kept stopped
    rcases stops with onRing | ⟨v',stopped',later⟩
    · have onward := (perform_kept discreet next kept₁ ran).2
      exact (stopped_stopEach discreet (there.mpr onRing) w _ v each).before onward
    · cases stopped.symm.trans stopped'
      exact Stopped.after (grows_stopEach discreet ms w _ v each) (ih kept₁ later ran)

/-! ### Runs of rounds -/

/-- A round of `async_callback` that takes a message and goes on. -/
def Takes (sys : System M) (m : M) (w : World M) (msg : ArmdMsg) (w' : World M) : Prop :=
  (∃ q, (w.modules m).msgQueue.take = some (msg,q)) ∧ asyncCallbackRound sys m w = .done (.inl ()) w'

/-- The handler, called with the message, does not stop the module. -/
def GoesOn (sys : System M) (fuel : ℕ) (m : M) (script : ArmdMsg → Reaction M) (w : World M) (msg : ArmdMsg) : Prop :=
  ∀ q, (w.modules m).msgQueue.take = some (msg,q) → ¬ (script msg).Stops sys fuel m (handlerWorld w m q msg)

/-- Rounds of the loop are rounds of `async_callback`. -/
private theorem asyncCallback_rounds {msgs : List ArmdMsg} (run : Run (Takes sys m) w msgs w') :
    ∀ n, asyncCallback sys (n+msgs.length) m w = asyncCallback sys n m w' := by
  induction run with
  | nil => intro n; rfl
  | @snoc msgs msg t t' _ takes ih =>
    intro n
    calc asyncCallback sys (n+(msgs ++ [msg]).length) m w
        = asyncCallback sys (n+1+msgs.length) m w := by
          rw [List.length_append,List.length_singleton,Nat.add_assoc n 1,Nat.add_comm 1]
      _ = asyncCallback sys (n+1) m t := ih (n+1)
      _ = asyncCallback sys n m t' := Program.loop_next n takes.2

variable {script : ArmdMsg → Reaction M} {msg : ArmdMsg}

private theorem takes_performs (reacts : Reacts sys fuel m script) (takes : Takes sys m w msg w') :
    ∃ q ret, (w.modules m).msgQueue.take = some (msg,q) ∧
      perform sys fuel m (script msg) (handlerWorld w m q msg) = .done ret w' := by
  obtain ⟨handler,handles,performs⟩ := reacts
  obtain ⟨⟨q,got⟩,ran⟩ := takes
  rw [round_taken handles got,performs] at ran
  obtain ⟨ret,v,performed,ran⟩ := Outcome.andThen_eq_done.mp ran
  cases ran
  exact ⟨q,ret,got,performed⟩

private theorem kept_handlerWorld (kept : Kept fuel w) (q : ArmdMsgQueue) : Kept fuel (handlerWorld w m q msg) := kept.of_view rfl

private theorem calm_handlerWorld {q : ArmdMsgQueue} (got : (w.modules m).msgQueue.take = some (msg,q)) :
    Calm m w (handlerWorld w m q msg) := by
  intro live
  refine ⟨by simp [handlerWorld,ArmdMsgQueue.take_mutex got,live],
    [.mutexLock m (w.modules m).msgQueue.qMutex,.onMessage m msg],by simp [handlerWorld],?_⟩
  simp [Harmless,live]

private theorem grows_handlerWorld (w : World M) (q : ArmdMsgQueue) : Grows w (handlerWorld w m q msg) :=
  ⟨[.mutexLock m (w.modules m).msgQueue.qMutex,.onMessage m msg],by simp [handlerWorld]⟩

private theorem takes_kept (reacts : Reacts sys fuel m script) (discreet : Discreet sys m) (kept : Kept fuel w)
    (takes : Takes sys m w msg w') : Kept fuel w' ∧ Grows w w' := by
  obtain ⟨q,ret,_,performed⟩ := takes_performs reacts takes
  obtain ⟨kept',grown⟩ := perform_kept discreet _ (kept_handlerWorld kept q) performed
  exact ⟨kept',grows_trans _ _ _ (grows_handlerWorld w q) grown⟩

/-- A round whose handler does not stop the module is calm. -/
private theorem takes_calm (reacts : Reacts sys fuel m script) (discreet : Discreet sys m) (kept : Kept fuel w)
    (takes : Takes sys m w msg w') (goesOn : GoesOn sys fuel m script w msg) : Calm m w w' := by
  obtain ⟨q,ret,got,performed⟩ := takes_performs reacts takes
  exact calm_trans _ _ _ (calm_handlerWorld got)
    (perform_calm discreet _ (kept_handlerWorld kept q) (goesOn q got) performed)

/-- After any other round the module is stopped. -/
private theorem takes_stopped (reacts : Reacts sys fuel m script) (discreet : Discreet sys m) (kept : Kept fuel w)
    (takes : Takes sys m w msg w') (stops : ¬ GoesOn sys fuel m script w msg) : Stopped m w w' := by
  obtain ⟨q,ret,got,performed⟩ := takes_performs reacts takes
  have stopping : (script msg).Stops sys fuel m (handlerWorld w m q msg) := by
    by_contra goesOn
    refine stops fun q' got' => ?_
    cases got.symm.trans got'
    exact goesOn
  exact Stopped.after (grows_handlerWorld w q) (perform_stopped discreet _ (kept_handlerWorld kept q) stopping performed)

private theorem takes_unique {v v' : World M} (first : Takes sys m w msg v) (second : Takes sys m w msg v') : v = v' :=
  (Outcome.done.inj (first.2.symm.trans second.2)).2

/-- A run is calm as long as no handler stops the module, and has stopped the module otherwise. -/
private theorem rounds_calm_or_stopped (reacts : Reacts sys fuel m script) (discreet : Discreet sys m) (kept : Kept fuel w)
    {msgs : List ArmdMsg} (run : Run (Takes sys m) w msgs w') :
    Kept fuel w' ∧ Grows w w' ∧ (Run (When (Takes sys m) (GoesOn sys fuel m script)) w msgs w' ∧ Calm m w w' ∨
      ¬ Run (When (Takes sys m) (GoesOn sys fuel m script)) w msgs w' ∧ Stopped m w w') := by
  induction run with
  | nil => exact ⟨kept,grows_refl w,.inl ⟨.nil,calm_refl w⟩⟩
  | @snoc msgs msg t t' before takes ih =>
    obtain ⟨keptNow,grownNow,soFar⟩ := ih
    obtain ⟨kept',grown⟩ := takes_kept reacts discreet keptNow takes
    -- a restricted run with these labels would go through the same worlds
    have through : Run (When (Takes sys m) (GoesOn sys fuel m script)) w (msgs ++ [msg]) t' →
        Run (When (Takes sys m) (GoesOn sys fuel m script)) w msgs t ∧ GoesOn sys fuel m script t msg := by
      intro restricted
      obtain ⟨v,first,_,goesOn⟩ := run_snoc_iff.mp restricted
      have same : v = t := by
        refine Run.unique ?_ first.of_when before
        exact fun _ _ _ _ one two => takes_unique one two
      exact same ▸ ⟨first,goesOn⟩
    refine ⟨kept',grows_trans _ _ _ grownNow grown,?_⟩
    rcases soFar with ⟨restricted,calm⟩ | ⟨broken,stopped⟩
    · by_cases goesOn : GoesOn sys fuel m script t msg
      · exact .inl ⟨.snoc restricted ⟨takes,goesOn⟩,
          calm_trans _ _ _ calm (takes_calm reacts discreet keptNow takes goesOn)⟩
      · exact .inr ⟨fun restricted => goesOn (through restricted).2,
          Stopped.after grownNow (takes_stopped reacts discreet keptNow takes goesOn)⟩
    · exact .inr ⟨fun restricted => broken (through restricted).1,stopped.before grown⟩

/-- From a started module on, the rounds of `async_callback` and the lock that follows them keep to the rules exactly
    when no message that is taken makes the handler stop the module. -/
theorem survives_iff (reacts : Reacts sys fuel m script) (discreet : Discreet sys m) (kept : Kept fuel w)
    (started : (w.modules m).msgQueue.qMutex = .live) {msgs : List ArmdMsg} (run : Run (Takes sys m) w msgs w') :
    (∀ n, asyncCallback sys (n+msgs.length) m w = asyncCallback sys n m w') ∧ ∃ new, w'.trace = w.trace ++ new ∧
      (Survives m (new ++ [.mutexLock m (w'.modules m).msgQueue.qMutex]) ↔
        Run (When (Takes sys m) (GoesOn sys fuel m script)) w msgs w') := by
  refine ⟨asyncCallback_rounds run,?_⟩
  rcases (rounds_calm_or_stopped reacts discreet kept run).2.2 with ⟨restricted,calm⟩ | ⟨broken,new,trace,stopped⟩
  · obtain ⟨live,new,trace,harmless⟩ := calm started
    refine ⟨new,trace,fun _ => restricted,fun _ => survives_of_harmless fun e member => ?_⟩
    rcases List.mem_append.mp member with inside | last
    · exact harmless e inside
    · rw [List.mem_singleton.mp last]
      exact fun _ => live
  · exact ⟨new,trace,fun survives => absurd survives (not_survives stopped _),fun restricted => absurd restricted broken⟩

/-! ### A shutdown command as a message -/

/-- Event 1 stops the module, event 2 stops everything. -/
def commands : ArmdMsg → Reaction Unit := fun msg =>
  if msg.event = 1 then .stop (.ret 0) else if msg.event = 2 then .stopall (.ret 0) else .ret 0

/-- The module without its `on_message`, as far as its stops go. -/
def stoppable : System Unit where
  name := fun _ _ => 0
  mops := fun _ => some ⟨none,none,some fun _ => pure 0⟩
  uvAsyncInitRet := fun _ _ => 0

def commanded : System Unit where
  name := fun _ _ => 0
  mops := fun _ => some ⟨none,some fun m msg => perform stoppable 2 m (commands msg),some fun _ => pure 0⟩
  uvAsyncInitRet := fun _ _ => 0

private theorem commanded_reacts : Reacts commanded 2 () commands := by
  refine ⟨_,rfl,fun msg => ?_⟩
  unfold commands
  split
  · rfl
  · split
    · rfl
    · rfl

private theorem commanded_discreet : Discreet commanded () where
  quiet := by
    intro _ mops f ops onStop
    cases ops; cases onStop
    exact Program.preserves_pure _
  grows := by
    intro _ mops f ops onStop
    cases ops; cases onStop
    exact Program.respects_pure grows_refl _
  calm := fun x _ _ other => absurd rfl other

def shutdownMsg : ArmdMsg := { zeroMsg with event := 1 }

/-- A started module with the command and another message in its queue. -/
def loadedWorld : World Unit :=
  { booted with
    modules := fun _ => ⟨.defaultLoop,⟨.defaultLoop,.active,false⟩,⟨fun i => if i = 0 then shutdownMsg else zeroMsg,2,0,.live⟩⟩ }

/-- A round that takes the command. -/
theorem survives_command : ∃ w', Run (Takes commanded ()) loadedWorld [shutdownMsg] w' ∧
    ((∀ n, asyncCallback commanded (n+1) () loadedWorld = asyncCallback commanded n () w') ∧
      ∃ new, w'.trace = loadedWorld.trace ++ new ∧
        (Survives () (new ++ [.mutexLock () (w'.modules ()).msgQueue.qMutex]) ↔
          Run (When (Takes commanded ()) (GoesOn commanded 2 () commands)) loadedWorld [shutdownMsg] w')) := by
  have takes : ∃ w', Takes commanded () loadedWorld shutdownMsg w' := ⟨_,⟨_,rfl⟩,rfl⟩
  obtain ⟨w',takes⟩ := takes
  have kept : Kept 2 loadedWorld := ⟨rfl,noModules,booted_tidy,by decide⟩
  exact ⟨w',Run.single takes,survives_iff commanded_reacts commanded_discreet kept rfl (Run.single takes)⟩

/-- What one run of `async_callback` does from there. -/
def afterCommand : List (Event Unit) :=
  [.mutexLock () .live,.onMessage () shutdownMsg,.stopCalled (),.onStop (),.close (.module ()) .active,
    .mutexDestroy () .live,.stopped (),.mutexLock () .destroyed,.onMessage () zeroMsg]

/-- After the command was handled the loop locks the destroyed mutex, takes the next message and hands it over. -/
theorem stopped_module_is_drained_on : Reacts commanded 2 () commands ∧
    (∃ w', asyncCallback commanded 3 () loadedWorld = .done () w' ∧
      w'.trace = loadedWorld.trace ++ (afterCommand ++ [.mutexLock () .destroyed])) ∧
        ¬ Survives () (afterCommand ++ [.mutexLock () .destroyed]) := by
  have stopped : .stopped () ∈ afterCommand := by simp [afterCommand]
  exact ⟨commanded_reacts,⟨_,rfl,rfl⟩,not_survives stopped .destroyed⟩

end Armd.HandlerStop
