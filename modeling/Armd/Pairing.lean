import Armd.Operations

/-!
The pairing of starts and stops over a whole run. Each event of a trace is
judged by those before it (`Paired`): a module is stopped only while it runs, a
handle is closed and a mutex destroyed only while it is in use, and at the end
every module that was started has been stopped once. A start of an unused module
and a stop of a running one keep a trace paired (`paced_start`, `paced_stop`),
whether the start succeeds or not; a stop of a module that does not run aborts
with a trace that is not (`stopEach_abort`).
-/
namespace Armd.Pairing
open Armd.Programs Armd.Runs Armd.Queue Armd.Memory Armd.Module Armd.Registry Armd.RegistryModel Armd.Traversal
  Armd.StartStop Armd.Lifecycle Armd.Operations

variable {M : Type} [DecidableEq M]

/-- The modules that were stopped, in order. -/
def stoppedOf (trace : List (Event M)) : List M :=
  trace.filterMap fun
    | .stopped m => some m
    | _ => none

/-- The module was started with success and was not stopped since. -/
def Running (before : List (Event M)) (m : M) : Prop := Since (.started m 0) (· = .stopped m) before

/-- What an event may be after the events before it. -/
def Allowed (sys : System M) (before : List (Event M)) : Event M → Prop
  | .stopCalled m => sys.mops m ≠ none → Running before m
  | .onStop m => Running before m
  | .close _ found => found = .active
  | .mutexDestroy _ found => found = .live
  | .loopClosed => ∀ m ∈ startedOf before, (stoppedOf before).count m = 1
  | _ => True

def Paired (sys : System M) (trace : List (Event M)) : Prop := Along (Allowed sys) trace

omit [DecidableEq M] in
theorem running_snoc {before : List (Event M)} {e : Event M} {m : M} :
    Running (before ++ [e]) m ↔ e = .started m 0 ∨ (Running before m ∧ e ≠ .stopped m) := since_snoc

/-! ### The trace and its life cycle -/

omit [DecidableEq M] in
private theorem running_log (trace : List (Event M)) (m : M) : Running (trace.filterMap lifecycleEvent) m ↔ Running trace m := by
  induction trace using List.reverseRecOn with
  | nil => rfl
  | append_singleton before e ih =>
    have kept : ∀ e' : Event M, lifecycleEvent e = some e' →
        (e' = .started m 0 ↔ e = .started m 0) ∧ (e' = .stopped m ↔ e = .stopped m) := by
      intro e' part
      cases e <;> cases part <;> simp
    have dropped : lifecycleEvent e = none → e ≠ .started m 0 ∧ e ≠ .stopped m := by
      intro part
      constructor <;> rintro rfl <;> cases part
    rw [List.filterMap_append,running_snoc,← ih]
    cases part : lifecycleEvent e with
    | none => simp [part,dropped part]
    | some e' =>
      obtain ⟨starts,stops⟩ := kept e' part
      simp only [List.filterMap_cons,part,List.filterMap_nil,running_snoc,starts,stops,ne_eq]

omit [DecidableEq M] in
private theorem startedOf_filter (trace : List (Event M)) : startedOf (trace.filterMap lifecycleEvent) = startedOf trace := by
  simp only [startedOf,List.filterMap_filterMap]
  exact List.filterMap_congr fun e _ => by cases e <;> rfl

omit [DecidableEq M] in
private theorem stoppedOf_filter (trace : List (Event M)) : stoppedOf (trace.filterMap lifecycleEvent) = stoppedOf trace := by
  simp only [stoppedOf,List.filterMap_filterMap]
  exact List.filterMap_congr fun e _ => by cases e <;> rfl

/-- A trace is paired when its life cycle is. -/
theorem paired_log (sys : System M) (w : World M) : Paired sys (core w).log ↔ Paired sys w.trace := by
  show Paired sys (w.trace.filterMap lifecycleEvent) ↔ _
  induction w.trace using List.reverseRecOn with
  | nil => rfl
  | append_singleton before e ih =>
    have snoc : Paired sys (before ++ [e]) ↔ Paired sys before ∧ Allowed sys before e := along_snoc
    rw [List.filterMap_append,snoc,← ih]
    cases part : lifecycleEvent e with
    | none =>
      have free : Allowed sys before e := by cases e <;> cases part <;> trivial
      simp [part,free,Paired]
    | some e' =>
      have same : Allowed sys (before.filterMap lifecycleEvent) e' ↔ Allowed sys before e := by
        cases e <;> cases part <;> simp [Allowed,running_log,startedOf_filter,stoppedOf_filter]
      simp only [List.filterMap_cons,part,List.filterMap_nil,along_snoc,same,Paired]

/-! ### Starting and stopping modules -/

section
variable {sys : System M} {o : Outcomes M} {c c' : Core M}

/-- A paired log, of which the handles and mutexes are what it says. -/
structure Paced (sys : System M) (c : Core M) : Prop where
  loop : LoopSound c
  running : ∀ m, Running c.log m ↔ c.handle (.module m) = .active
  synced : ∀ m, c.mutex m = .live ↔ c.handle (.module m) = .active
  operated : ∀ m, c.handle (.module m) = .active → sys.mops m ≠ none
  paired : Paired sys c.log

omit [DecidableEq M] in
theorem running_note {e : Event M} {m : M} :
    Running (c.note e).log m ↔ e = .started m 0 ∨ (Running c.log m ∧ e ≠ .stopped m) := running_snoc

theorem paired_note {e : Event M} : Paired sys (c.note e).log ↔ Paired sys c.log ∧ Allowed sys c.log e := along_snoc

/-- A module that was opened: the handle and the mutex are in use, nothing else has changed. -/
private theorem paced_open (paced : Paced sys c) {m : M} (notOpen : c.handle (.module m) ≠ .active)
    (notClosing : c.handle (.module m) ≠ .closing) (operated : sys.mops m ≠ none) {c' : Core M}
    (handle : c'.handle = (c.openHandle (.module m)).handle) (loop : c'.uvLoop = (c.openHandle (.module m)).uvLoop)
    (mutex : c'.mutex = (c.setMutex m .live).mutex) (running : ∀ m', Running c'.log m' ↔ m' = m ∨ Running c.log m')
    (paired : Paired sys c'.log) : Paced sys c' := by
  refine ⟨(loopSound_open paced.loop notOpen notClosing).congr handle loop,fun m' => ?_,fun m' => ?_,fun m' => ?_,paired⟩
  · rw [running,paced.running,handle]
    by_cases same : m' = m <;> simp [same]
  · rw [handle,mutex]
    by_cases same : m' = m
    · simp [same]
    · simpa [same] using paced.synced m'
  · rw [handle]
    by_cases same : m' = m
    · subst same; exact fun _ => operated
    · simpa [same] using paced.operated m'

/-- A module that is not in use: nothing but its mutex and its handle's state may have changed. -/
private theorem paced_unused (paced : Paced sys c) {m : M} (notOpen : c.handle (.module m) ≠ .active) {c' : Core M}
    (loop : LoopSound c') (handle : ∀ h, h ≠ .module m → c'.handle h = c.handle h)
    (closed : c'.handle (.module m) ≠ .active) (mutex : ∀ m', m' ≠ m → c'.mutex m' = c.mutex m')
    (destroyed : c'.mutex m ≠ .live) (running : ∀ m', Running c'.log m' ↔ Running c.log m')
    (paired : Paired sys c'.log) : Paced sys c' := by
  refine ⟨loop,fun m' => ?_,fun m' => ?_,fun m' => ?_,paired⟩
  · rw [running,paced.running]
    by_cases same : m' = m
    · subst same; simp [notOpen,closed]
    · rw [handle _ (by simpa using same)]
  · by_cases same : m' = m
    · subst same; simp [closed,destroyed]
    · rw [mutex m' same,handle _ (by simpa using same)]
      exact paced.synced m'
  · by_cases same : m' = m
    · subst same; simp [closed]
    · rw [handle _ (by simpa using same)]
      exact paced.operated m'

/-- Starting a module whose handle is not in use, whether it succeeds or not. -/
theorem paced_start (paced : Paced sys c) {m : M} (notOpen : c.handle (.module m) ≠ .active)
    (notClosing : c.handle (.module m) ≠ .closing) : Paced sys (startCore sys o c m).2 := by
  have paired := paced.paired
  cases ops : sys.mops m with
  | none =>
    simp only [startCore,ops]
    refine ⟨paced.loop.congr rfl rfl,fun m' => ?_,paced.synced,paced.operated,?_⟩
    · simp [running_note,paced.running,einval]
    · simpa [paired_note,Allowed] using paired
  | some mops =>
    have operated : sys.mops m ≠ none := by simp [ops]
    simp only [startCore,ops]
    by_cases failed : o.init m < 0
    · simp only [if_pos failed]
      refine paced_unused paced notOpen (paced.loop.congr rfl rfl) (fun _ _ => rfl) notOpen (fun m' other => ?_) ?_
        (fun m' => ?_) ?_
      · simp [Core.destroyMutex,Core.reset,other]
      · simp [Core.destroyMutex,Core.reset]
      · simp [Core.destroyMutex,Core.reset,running_note,failed.ne]
      · simpa [Core.destroyMutex,Core.reset,paired_note,Allowed] using paired
    · simp only [if_neg failed]
      cases mops.onStart with
      | none =>
        refine paced_open paced notOpen notClosing operated rfl rfl rfl (fun m' => ?_) ?_
        · simp [Core.reset,running_note,eq_comm]
        · simpa [Core.reset,paired_note,Allowed] using paired
      | some f =>
        by_cases refused : o.start m < 0
        · simp only [if_pos refused]
          have opened := loopSound_open paced.loop notOpen notClosing
          have closed := loopSound_close opened (show (c.openHandle (.module m)).handle (.module m) = .active by simp)
          refine paced_unused paced notOpen (closed.congr rfl rfl) (fun h other => ?_) ?_ (fun m' other => ?_) ?_
            (fun m' => ?_) ?_
          · simp [Core.destroyMutex,Core.reset,other]
          · simp [Core.destroyMutex]
          · simp [Core.destroyMutex,Core.reset,other]
          · simp [Core.destroyMutex]
          · simp [Core.destroyMutex,Core.reset,running_note,refused.ne]
          · simpa [Core.destroyMutex,Core.reset,paired_note,Allowed] using paired
        · simp only [if_neg refused]
          refine paced_open paced notOpen notClosing operated rfl rfl rfl (fun m' => ?_) ?_
          · simp [Core.reset,running_note,eq_comm]
          · simpa [Core.reset,paired_note,Allowed] using paired

/-- Stopping a module that runs, or one without operations. -/
theorem paced_stop (paced : Paced sys c) {m : M} (stops : stopCore sys c m = some c') : Paced sys c' := by
  have paired := paced.paired
  cases ops : sys.mops m with
  | none =>
    have notOpen : c.handle (.module m) ≠ .active := fun active => paced.operated m active ops
    have notRunning : ¬ Running c.log m := fun runs => notOpen ((paced.running m).mp runs)
    simp only [stopCore,ops,Option.some.injEq] at stops
    subst stops
    refine ⟨paced.loop.congr rfl rfl,fun m' => ?_,paced.synced,paced.operated,?_⟩
    · refine Iff.trans ?_ (paced.running m')
      by_cases same : m' = m
      · subst same; simp [running_note,notRunning]
      · simp [running_note,Ne.symm same]
    · simpa [paired_note,Allowed,ops] using paired
  | some mops =>
    by_cases active : c.handle (.module m) = .active
    · have runs : Running c.log m := (paced.running m).mpr active
      have live : c.mutex m = .live := (paced.synced m).mpr active
      have handle : (calledCore mops c m).handle = c.handle := by unfold calledCore; split <;> rfl
      have mutex : (calledCore mops c m).mutex = c.mutex := by unfold calledCore; split <;> rfl
      have loop : (calledCore mops c m).uvLoop = c.uvLoop := by unfold calledCore; split <;> rfl
      have running : ∀ m', Running (calledCore mops c m).log m' ↔ Running c.log m' := by
        intro m'; unfold calledCore; split <;> simp [running_note]
      have called : Paired sys (calledCore mops c m).log := by
        unfold calledCore; split <;> simp [paired_note,Allowed,running_note,runs,paired]
      have closed := loopSound_close (paced.loop.congr handle loop) (by rw [handle,active])
      have stopped : c' = ((((calledCore mops c m).note (.close (.module m) .active)).closeHandle (.module m)).destroyMutex
          m).note (.stopped m) := by simpa [stopCore,ops,active,calledCore] using stops.symm
      subst stopped
      refine ⟨closed.congr rfl rfl,fun m' => ?_,fun m' => ?_,fun m' => ?_,?_⟩
      · by_cases same : m' = m
        · subst same; simp [Core.destroyMutex,running_note]
        · simp [Core.destroyMutex,running_note,running,paced.running,handle,same,Ne.symm same]
      · by_cases same : m' = m
        · subst same; simp [Core.destroyMutex]
        · simp [Core.destroyMutex,handle,mutex,same,paced.synced]
      · by_cases same : m' = m
        · subst same; simp [Core.destroyMutex]
        · simpa [Core.destroyMutex,handle,same] using paced.operated m'
      · simp [Core.destroyMutex,paired_note,Allowed,called,mutex,live]
    · simp [stopCore,ops,active] at stops

/-! ### Starting and stopping everything -/

/-- Starting the module succeeds. -/
def starts (sys : System M) (o : Outcomes M) (m : M) : Bool :=
  (sys.mops m).isSome && decide (0 ≤ o.init m) && (!hasOnStart sys m || decide (0 ≤ o.start m))

private theorem start_ret (c : Core M) (m : M) : (startCore sys o c m).1 < 0 ↔ starts sys o m = false := by
  unfold startCore starts hasOnStart
  cases ops : sys.mops m with
  | none => simp [einval]
  | some mops =>
    by_cases failed : o.init m < 0
    · simp [failed]
    · cases onStart : mops.onStart with
      | none => simp [failed,not_lt.mp failed,onStart]
      | some f => by_cases refused : o.start m < 0 <;> simp [failed,refused,not_lt.mp failed,onStart,not_le.mpr,not_lt.mp]

private theorem start_handle_other {m : M} {h : Handle M} (other : h ≠ .module m) (c : Core M) :
    (startCore sys o c m).2.handle h = c.handle h := by
  unfold startCore
  cases sys.mops m with
  | none => rfl
  | some mops =>
    dsimp only
    split
    · rfl
    · cases mops.onStart with
      | none => simp [Core.reset,other]
      | some f => dsimp only; split <;> simp [Core.reset,Core.destroyMutex,other]

private theorem start_handle {m : M} (notOpen : c.handle (.module m) ≠ .active) :
    (startCore sys o c m).2.handle (.module m) = .active ↔ starts sys o m = true := by
  unfold startCore starts hasOnStart
  cases ops : sys.mops m with
  | none => simpa using notOpen
  | some mops =>
    by_cases failed : o.init m < 0
    · simpa [failed,not_le.mpr failed,Core.destroyMutex,Core.reset] using notOpen
    · cases onStart : mops.onStart with
      | none => simp [failed,not_lt.mp failed,onStart]
      | some f => by_cases refused : o.start m < 0 <;> simp [failed,refused,not_lt.mp failed,onStart,not_le.mpr,not_lt.mp,
          Core.destroyMutex]

omit [DecidableEq M] in
theorem startedOf_note (e : Event M) : startedOf (c.note e).log = startedOf c.log ++ startedOf [e] := List.filterMap_append

omit [DecidableEq M] in
theorem stoppedOf_note (e : Event M) : stoppedOf (c.note e).log = stoppedOf c.log ++ stoppedOf [e] := List.filterMap_append

omit [DecidableEq M] in
private theorem startedOf_failed {m : M} {ret : ℤ} (failed : ret < 0) : startedOf [.started m ret] = [] := by
  simp only [startedOf,List.filterMap_cons,List.filterMap_nil]
  split
  · rfl
  · rename_i same
    split at same
    · rename_i returned
      cases returned
      exact absurd failed (by decide)
    · cases same

/-- A start writes down its success, and no stop. -/
private theorem start_lists (c : Core M) (m : M) : startedOf (startCore sys o c m).2.log =
    startedOf c.log ++ (if starts sys o m = true then [m] else []) ∧
      stoppedOf (startCore sys o c m).2.log = stoppedOf c.log := by
  unfold startCore starts hasOnStart
  cases ops : sys.mops m with
  | none => simp [startedOf_note,stoppedOf_note,startedOf_failed,einval]; simp [startedOf,stoppedOf]
  | some mops =>
    by_cases failed : o.init m < 0
    · simp [failed,not_le.mpr failed,Core.destroyMutex,Core.reset,startedOf_note,stoppedOf_note,startedOf_failed failed]
      simp [startedOf,stoppedOf]
    · cases onStart : mops.onStart with
      | none =>
        simp [failed,not_lt.mp failed,onStart,Core.reset,startedOf_note,stoppedOf_note]
        simp [startedOf,stoppedOf]
      | some f =>
        by_cases refused : o.start m < 0
        · simp [failed,refused,not_lt.mp failed,onStart,not_le.mpr refused,Core.destroyMutex,Core.reset,startedOf_note,
            stoppedOf_note,startedOf_failed refused]
          simp [startedOf,stoppedOf]
        · simp [failed,refused,not_lt.mp failed,onStart,not_lt.mp refused,Core.reset,startedOf_note,stoppedOf_note]
          simp [startedOf,stoppedOf]

/-- What starting modules in turn leaves: those up to the first that fails have open handles. -/
structure StartedUp (sys : System M) (o : Outcomes M) (ms : List M) (c : Core M) (r : Option ℤ × Core M) : Prop where
  paced : Paced sys r.2
  handle : ∀ m, r.2.handle (.module m) = .active ↔ c.handle (.module m) = .active ∨ m ∈ ms.takeWhile (starts sys o)
  others : ∀ h, (∀ m ∈ ms, h ≠ .module m) → r.2.handle h = c.handle h
  started : startedOf r.2.log = startedOf c.log ++ ms.takeWhile (starts sys o)
  stopped : stoppedOf r.2.log = stoppedOf c.log
  ret : r.1.getD 0 < 0 ↔ ∃ m ∈ ms, starts sys o m = false

theorem startsCore_up {ms : List M} (distinct : ms.Nodup) : ∀ {c : Core M}, Paced sys c →
    (∀ m ∈ ms, c.handle (.module m) ≠ .active ∧ c.handle (.module m) ≠ .closing) →
      StartedUp sys o ms c (startsCore sys o ms c) := by
  induction ms with
  | nil => intro c paced _; exact ⟨paced,by simp [startsCore],fun _ _ => rfl,by simp [startsCore],rfl,by simp [startsCore]⟩
  | cons m rest ih =>
    intro c paced free
    obtain ⟨fresh,distinct'⟩ := List.nodup_cons.mp distinct
    obtain ⟨notOpen,notClosing⟩ := free m (by simp)
    have paced₁ : Paced sys (startCore sys o c m).2 := paced_start paced notOpen notClosing
    have same : ∀ h, h ≠ .module m → (startCore sys o c m).2.handle h = c.handle h := fun h other =>
      start_handle_other other c
    obtain ⟨started₁,stopped₁⟩ := start_lists c m
    simp only [startsCore]
    by_cases failed : starts sys o m = false
    · have ret := (start_ret c m).mpr failed
      rw [if_pos ret]
      refine ⟨paced₁,fun m' => ?_,fun h others => same h (others m (by simp)),?_,stopped₁,?_⟩
      · by_cases other : m' = m
        · subst other; simp [start_handle notOpen,failed,notOpen]
        · rw [same _ (by simpa using other)]; simp [failed]
      · rw [started₁]; simp [failed]
      · simp [ret,failed]
    · have succeeded : starts sys o m = true := by simpa using failed
      have ret : ¬ (startCore sys o c m).1 < 0 := fun negative => failed ((start_ret c m).mp negative)
      rw [if_neg ret]
      have free₁ : ∀ m' ∈ rest, (startCore sys o c m).2.handle (.module m') ≠ .active ∧
          (startCore sys o c m).2.handle (.module m') ≠ .closing := by
        intro m' member
        have other : m' ≠ m := by rintro rfl; exact fresh member
        rw [same _ (by simpa using other)]
        exact free m' (List.mem_cons_of_mem _ member)
      obtain ⟨paced',handle',others',started',stopped',ret'⟩ := ih distinct' paced₁ free₁
      refine ⟨paced',fun m' => ?_,fun h others => ?_,?_,stopped'.trans stopped₁,?_⟩
      · rw [handle',List.takeWhile_cons_of_pos succeeded,List.mem_cons]
        by_cases other : m' = m
        · subst other; simp [start_handle notOpen,succeeded]
        · rw [same _ (by simpa using other)]; simp [other]
      · rw [others' h fun m' member => others m' (List.mem_cons_of_mem _ member),same h (others m (by simp))]
      · rw [started',started₁,List.takeWhile_cons_of_pos succeeded]; simp [succeeded]
      · rw [ret']; simp [succeeded]

/-- What stopping modules in turn leaves: none of them has an open handle. -/
structure StoppedDown (sys : System M) (ms : List M) (c c' : Core M) : Prop where
  paced : Paced sys c'
  handle : ∀ m, c'.handle (.module m) = .active ↔ c.handle (.module m) = .active ∧ m ∉ ms
  others : ∀ h, (∀ m ∈ ms, h ≠ .module m) → c'.handle h = c.handle h
  loops : c'.loops = c.loops
  started : startedOf c'.log = startedOf c.log
  stopped : stoppedOf c'.log = stoppedOf c.log ++ ms

private theorem stop_down (paced : Paced sys c) {m : M} (stops : stopCore sys c m = some c') : StoppedDown sys [m] c c' := by
  have paced' := paced_stop paced stops
  cases ops : sys.mops m with
  | none =>
    have notOpen : c.handle (.module m) ≠ .active := fun active => paced.operated m active ops
    simp only [stopCore,ops,Option.some.injEq] at stops
    subst stops
    refine ⟨paced',fun m' => ?_,fun _ _ => rfl,rfl,?_,?_⟩
    · by_cases same : m' = m
      · subst same; simp [notOpen]
      · simp [same]
    · rw [startedOf_note,startedOf_note]; simp [startedOf]
    · rw [stoppedOf_note,stoppedOf_note]; simp [stoppedOf]
  | some mops =>
    rw [stopCore_success ops,Option.ite_none_right_eq_some,Option.some.injEq] at stops
    obtain ⟨_,rfl⟩ := stops
    have log : (stoppedCore sys c m).log = c.log ++ stopEvents sys c m := rfl
    have started : startedOf (stopEvents sys c m) = [] := by unfold stopEvents; split <;> rfl
    have stopped : stoppedOf (stopEvents sys c m) = [m] := by unfold stopEvents; split <;> rfl
    refine ⟨paced',fun m' => ?_,fun h others => ?_,rfl,?_,?_⟩
    · by_cases same : m' = m
      · subst same; simp [stoppedCore,Core.closeHandle,Core.setHandle,Core.setMutex]
      · simp [stoppedCore,Core.closeHandle,Core.setHandle,Core.setMutex,same]
    · simp [stoppedCore,Core.closeHandle,Core.setHandle,Core.setMutex,others m (by simp)]
    · rw [log,startedOf,List.filterMap_append,← startedOf,← startedOf,started,List.append_nil]
    · rw [log,stoppedOf,List.filterMap_append,← stoppedOf,← stoppedOf,stopped]

theorem stopsCore_down {ms : List M} : ∀ {c c' : Core M}, Paced sys c → stopsCore sys ms c = some c' →
    StoppedDown sys ms c c' := by
  induction ms with
  | nil => intro c c' paced stops; cases stops; exact ⟨paced,by simp,fun _ _ => rfl,rfl,rfl,by simp⟩
  | cons m rest ih =>
    intro c c' paced stops
    obtain ⟨c₁,first,onwards⟩ := Option.bind_eq_some_iff.mp stops
    obtain ⟨paced₁,handle₁,others₁,loops₁,started₁,stopped₁⟩ := stop_down paced first
    obtain ⟨paced',handle',others',loops',started',stopped'⟩ := ih paced₁ onwards
    refine ⟨paced',fun m' => ?_,fun h others => ?_,loops'.trans loops₁,started'.trans started₁,?_⟩
    · rw [handle',handle₁]; simp [and_assoc]
    · rw [others' h fun m' member => others m' (List.mem_cons_of_mem _ member),others₁ h (by simpa using others m (by simp))]
    · rw [stopped',stopped₁]; simp

private theorem stop_ends (m : M) (running : sys.mops m ≠ none → c.handle (.module m) = .active) :
    ∃ c', stopCore sys c m = some c' := by
  cases ops : sys.mops m with
  | none => exact ⟨_,by rw [stopCore,ops]⟩
  | some mops => exact ⟨_,by rw [stopCore_success ops,if_pos (running (by simp [ops]))]⟩

/-- Stopping modules that all run or have no operations comes to its end. -/
theorem stopsCore_ends {ms : List M} (distinct : ms.Nodup) : ∀ {c : Core M}, Paced sys c →
    (∀ m ∈ ms, sys.mops m ≠ none → c.handle (.module m) = .active) → ∃ c', stopsCore sys ms c = some c' := by
  induction ms with
  | nil => intro c _ _; exact ⟨c,rfl⟩
  | cons m rest ih =>
    intro c paced running
    obtain ⟨fresh,distinct'⟩ := List.nodup_cons.mp distinct
    obtain ⟨c₁,first⟩ := stop_ends m (running m (by simp))
    obtain ⟨paced₁,handle₁,_⟩ := stop_down paced first
    obtain ⟨c',onwards⟩ := ih distinct' paced₁ fun m' member operated => by
      have other : m' ≠ m := by rintro rfl; exact fresh member
      exact (handle₁ m').mpr ⟨running m' (List.mem_cons_of_mem _ member) operated,by simpa using other⟩
    exact ⟨c',by rw [stopsCore,first,Option.bind_some,onwards]⟩

theorem paced_closings (paced : Paced sys c) (done : closingsCore c = some c') :
    Paced sys c' ∧ ∀ h, c'.handle h = .active ↔ c.handle h = .active := by
  have sound := loopSound_closings paced.loop done
  obtain ⟨loop,mutex,log,_⟩ := closingsCore_some done
  have same : ∀ h, c'.handle h = .active ↔ c.handle h = .active := by
    intro h
    rw [← sound.openMem,loop,paced.loop.openMem]
  refine ⟨⟨sound,fun m => ?_,fun m => ?_,fun m active => ?_,by rw [log]; exact paced.paired⟩,same⟩
  · rw [log,paced.running,same]
  · rw [mutex,paced.synced,same]
  · exact paced.operated m ((same _).mp active)

/-- Stopping a module that has operations but does not run aborts, and what it wrote down is not paired. -/
theorem stopEach_abort (quiet : Quiet sys o) {ms : List M} : ∀ {R : Levels M} {w : World M}, Wired (core w) →
    Paced sys (core w) → Tidy w.lists R → ms.Nodup → (∀ m ∈ ms, Registered R m) →
      (∃ m ∈ ms, sys.mops m ≠ none ∧ (core w).handle (.module m) ≠ .active) →
        ∃ w', stopEach sys ms w = .abort w' ∧ ¬ Paired sys (core w').log := by
  induction ms with
  | nil => intro R w _ _ _ _ _ ⟨m,member,_⟩; simp at member
  | cons m rest ih =>
    intro R w wired paced tidy distinct registered ⟨bad,member,operated,notOpen⟩
    obtain ⟨fresh,distinct'⟩ := List.nodup_cons.mp distinct
    by_cases running : sys.mops m ≠ none → (core w).handle (.module m) = .active
    · obtain ⟨c₁,first⟩ := stop_ends m running
      have mirrors := stop_core quiet wired m
      rw [first] at mirrors
      obtain ⟨w₁,stopped,core₁⟩ := mirrors
      subst core₁
      obtain ⟨paced₁,handle₁,_⟩ := stop_down paced first
      have tidy₁ : Tidy w₁.lists R := view_lists (preserves_stop quiet.registry.onStop m w () w₁ stopped) ▸ tidy
      obtain ⟨g,deleted,left⟩ := delete_registered tidy₁ (registered m (by simp))
      have other : bad ≠ m := by rintro rfl; exact notOpen (running operated)
      have inside : bad ∈ rest := (List.mem_cons.mp member).resolve_left other
      have registered' : ∀ m' ∈ rest, Registered (remove R m) m' := fun m' there =>
        (registered_remove tidy.rings.nodup).mpr ⟨registered m' (by simp [there]),by rintro rfl; exact fresh there⟩
      have wired₁ : Wired (core ({ w₁ with lists := g } : World M)) := wired_stop wired first
      obtain ⟨w',aborted,broken⟩ := ih wired₁ paced₁ left distinct' registered'
        ⟨bad,inside,operated,fun active => notOpen ((handle₁ bad).mp active).1⟩
      exact ⟨w',by simp [stopEach,stopped,deleted,aborted],broken⟩
    · obtain ⟨operates,notOpen'⟩ := Classical.not_imp.mp running
      obtain ⟨mops,ops⟩ := Option.ne_none_iff_exists'.mp operates
      obtain ⟨w',aborted,logged⟩ := stop_abort quiet wired ops notOpen'
      refine ⟨w',by simp [stopEach,aborted],fun paired => notOpen' ((paced.running m).mp ?_)⟩
      exact paired _ _ logged operates

end

end Armd.Pairing
