import Mathlib.Data.Finset.Card
import Armd.AsyncWakeup

/-!
The end of an async handle. The busy flag of a handle counts the senders between
their announcement and their retirement (`Counted`), so the loop thread that
spins until it is zero waits for other threads only, each of which can go on
(`spinning_waits_for_senders`). Its store of the pending flag comes first and
nobody clears it again: who arrives later leaves without a write. A closed handle
is not visited, nobody writes to the loop for it, and once `uv__async_stop` has
closed the eventfd nobody writes to it at all (`closed_handles_are_left_alone`).
-/
namespace Armd.AsyncClose
open Armd.Runs Armd.Message Armd.Queue Armd.Location Armd.AsyncSend Armd.AsyncWakeup
open Armd.Channel (Poster)
variable {M P : Type} [DecidableEq M] [DecidableEq P]

/-! ### Counting the senders -/

/-- The handle in whose busy flag a sender is counted. -/
def busyAt : SendPc M → Option M
  | .exchange h => some h
  | .write h => some h
  | .retire h => some h
  | _ => none

/-- The busy flag of a handle is the number of its senders between announcement and retirement. -/
def Counted (s : State M P) : Prop :=
  ∀ h, ∃ senders : Finset (Poster P), (∀ p, p ∈ senders ↔ busyAt (s.poster p) = some h) ∧ senders.card = (s.handle h).busy

section
variable {onMessage : M → Bool} {s s' : State M P} {l : Label M P}

omit [DecidableEq M] [DecidableEq P] in
/-- Where no sender comes or goes and no busy flag changes, the count stays right. -/
theorem Counted.same (counted : Counted s) (senders : ∀ p, busyAt (s'.poster p) = busyAt (s.poster p))
    (busy : ∀ h, (s'.handle h).busy = (s.handle h).busy) : Counted s' := by
  intro h
  rw [busy h]
  simpa only [senders] using counted h

omit [DecidableEq M] in
private theorem busyAt_setPoster {p : Poster P} {pc : SendPc M} (same : busyAt pc = busyAt (s.poster p)) (p' : Poster P) :
    busyAt ((s.setPoster p pc).poster p') = busyAt (s.poster p') := by
  rw [setPoster_poster]
  split
  · rename_i isP
    rw [isP,same]
  · rfl

omit [DecidableEq M] [DecidableEq P] in
private theorem busyAt_target {pc : SendPc M} {h : M} (inside : busyAt pc = some h) : target pc = some h := by
  cases pc <;> first | exact inside | cases inside

/-- A sender announces itself. -/
theorem Counted.enter (counted : Counted s) {p : Poster P} {h : M} {pc : SendPc M} (before : busyAt (s.poster p) = none)
    (after_ : busyAt pc = some h) :
    Counted ((s.setPoster p pc).setHandle h { s.handle h with busy := (s.handle h).busy+1 }) := by
  intro h'
  obtain ⟨senders,member,count⟩ := counted h'
  by_cases isH : h' = h
  · subst isH
    have notIn : p ∉ senders := fun inside => by
      have at_ := (member p).mp inside
      rw [before] at at_
      cases at_
    refine ⟨insert p senders,fun p' => ?_,by simp [Finset.card_insert_of_notMem notIn,count]⟩
    rw [Finset.mem_insert,member,setHandle_poster,setPoster_poster]
    by_cases isP : p' = p <;> simp [isP,after_]
  · refine ⟨senders,fun p' => ?_,by rw [count,setHandle_of_ne _ _ _ isH]; rfl⟩
    rw [member,setHandle_poster,setPoster_poster]
    by_cases isP : p' = p
    · simp [isP,before,after_,Ne.symm isH]
    · simp [isP]

/-- A sender retires. -/
theorem Counted.leave (counted : Counted s) {p : Poster P} {h : M} {pc : SendPc M} (before : busyAt (s.poster p) = some h)
    (after_ : busyAt pc = none) :
    Counted ((s.setPoster p pc).setHandle h { s.handle h with busy := (s.handle h).busy-1 }) := by
  intro h'
  obtain ⟨senders,member,count⟩ := counted h'
  by_cases isH : h' = h
  · subst isH
    refine ⟨senders.erase p,fun p' => ?_,by simp [Finset.card_erase_of_mem ((member p).mpr before),count]⟩
    rw [Finset.mem_erase,member,setHandle_poster,setPoster_poster]
    by_cases isP : p' = p <;> simp [isP,after_]
  · refine ⟨senders,fun p' => ?_,by rw [count,setHandle_of_ne _ _ _ isH]; rfl⟩
    rw [member,setHandle_poster,setPoster_poster]
    by_cases isP : p' = p
    · simp [isP,before,after_,Ne.symm isH]
    · simp [isP]

private theorem counted_step (ordered : Ordered s) (counted : Counted s) (fires : Step onMessage s l s') : Counted s' := by
  cases fires with
  | call at_ | giveUp at_ | write at_ =>
    exact counted.same (busyAt_setPoster (by simp [at_,busyAt])) fun _ => rfl
  | load v at_ => exact counted.same (busyAt_setPoster (by cases v <;> simp [at_,busyAt])) fun _ => rfl
  | accept at_ | reject at_ =>
    exact counted.same (busyAt_setPoster (by simp [at_,busyAt])) fun _ => field_update Handle.busy rfl
  | @exchange p h at_ =>
    refine counted.same (busyAt_setPoster ?_) fun _ => field_update Handle.busy rfl
    rw [at_]
    split <;> rfl
  | announce at_ => exact counted.enter (by simp [at_,busyAt]) rfl
  | retire at_ => exact counted.leave (by simp [at_,busyAt]) rfl
  | poll | endPass | finish | leave | stop | stopSpun | stopEnd => exact counted.same (fun _ => rfl) fun _ => rfl
  | visit | pass | take | empty | deliver | close | closed | stopNext =>
    exact counted.same (fun _ => rfl) fun _ => field_update Handle.busy rfl
  | @init h may fresh =>
    intro h'
    obtain ⟨senders,member,count⟩ := counted h'
    by_cases isH : h' = h
    · subst isH
      have none : senders = ∅ := by
        refine Finset.eq_empty_of_forall_notMem fun p inside => ?_
        exact ordered.posters p h' (busyAt_target ((member p).mp inside)) fresh
      exact ⟨∅,fun p => none ▸ member p,by simp [started]⟩
    · exact ⟨senders,member,by rw [count]; simp [setHandle_of_ne _ _ _ isH]⟩

omit [DecidableEq M] [DecidableEq P] in
private theorem counted_initial (memory : M → Handle) : Counted (initial memory : State M P) :=
  fun _ => ⟨∅,fun p => by simp [initial,busyAt],rfl⟩

omit [DecidableEq M] [DecidableEq P] in
/-- A handle whose busy flag is zero has no senders. -/
theorem Counted.nobody (counted : Counted s) {h : M} (zero : (s.handle h).busy = 0) (p : Poster P) :
    busyAt (s.poster p) ≠ some h := by
  obtain ⟨senders,member,count⟩ := counted h
  rw [zero,Finset.card_eq_zero] at count
  rw [ne_eq,← member p,count]
  exact Finset.notMem_empty p

end

/-! ### Set flags that nobody clears -/

/-- The flag of the handle is set, and nobody is about to write to the loop for it. -/
structure Sealed (s : State M P) (h : M) : Prop where
  set : (s.handle h).pending.now = true
  unwritten : ∀ p, s.poster p ≠ .write h

/-- A handle that is closed is sealed, so are those that `uv__async_stop` has been over; the one that the loop spins for
    has its flag set. -/
structure Shut (s : State M P) : Prop where
  closed : ∀ h, (s.handle h).status = .closed → Sealed s h
  closing : ∀ h, (s.handle h).status = .closing → (s.handle h).pending.now = true
  spun : ∀ h, s.loop = .stopSpinning h → (s.handle h).pending.now = true
  passed : (s.loop = .stopping ∨ ∃ h, s.loop = .stopSpinning h) → ∀ h ∈ s.asyncHandles, s.loop ≠ .stopSpinning h → Sealed s h
  ended : s.loop = .ended → ∀ h, (s.handle h).status ≠ .fresh → Sealed s h

section
variable {onMessage : M → Bool} {s s' : State M P} {l : Label M P} {h : M}

/-- The flag of a handle is cleared only by a visit, and by its start. -/
private theorem flag_step (fires : Step onMessage s l s') (set : (s.handle h).pending.now = true) :
    (s'.handle h).pending.now = true ∨ (s.loop = .visiting ∧ h ∈ s.ready) ∨ (mayClose s ∧ (s.handle h).status = .fresh) := by
  have still {h₀ : M} {a : Handle} (keeps : h = h₀ → a.pending.now = true) : ((s.setHandle h₀ a).handle h).pending.now = true := by
    rw [setHandle_handle]
    split
    · exact keeps ‹_›
    · exact set
  have kept {h₀ : M} {a : Handle} (keeps : a.pending = (s.handle h₀).pending) (isH : h = h₀) : a.pending.now = true := by
    rw [keeps,← isH]
    exact set
  cases fires with
  | accept | reject | announce | retire | take | empty | deliver | closed => exact .inl (still (kept rfl))
  | exchange | close | stopNext => exact .inl (still fun _ => rfl)
  | @visit h₀ _ at_ first | @pass h₀ _ at_ first =>
    by_cases isH : h = h₀
    · subst isH
      exact .inr (.inl ⟨at_,by simp [first]⟩)
    · exact .inl (still fun same => absurd same isH)
  | @init h₀ may fresh =>
    by_cases isH : h = h₀
    · subst isH
      exact .inr (.inr ⟨may,fresh⟩)
    · exact .inl (still fun same => absurd same isH)
  | _ => exact .inl set

/-- A sender comes to write only if it finds the flag clear. -/
private theorem write_step (fires : Step onMessage s l s') {p : Poster P} (writes : s'.poster p = .write h) :
    s.poster p = .write h ∨ (s.handle h).pending.now = false := by
  have moved {p' : Poster P} {pc : SendPc M} (at_ : (s.setPoster p' pc).poster p = .write h) :
      s.poster p = .write h ∨ pc = .write h := by
    rw [setPoster_poster] at at_
    split at at_
    · exact .inr at_
    · exact .inl at_
  cases fires with
  | call | accept | reject | giveUp | announce | write | retire => exact .inl ((moved writes).resolve_right (by simp))
  | load v => exact .inl ((moved writes).resolve_right (by cases v <;> simp))
  | @exchange p' h' =>
    refine (moved writes).imp_right fun isWrite => ?_
    cases set : (s.handle h').pending.now with
    | true => simp [set] at isWrite
    | false =>
      have isH : h' = h := by simpa [set] using isWrite
      rw [← isH]
      exact set
  | _ => exact .inl writes

private theorem flag_kept (fires : Step onMessage s l s') (set : (s.handle h).pending.now = true)
    (away : s.loop = .visiting → h ∉ s.ready) (old : mayClose s → (s.handle h).status ≠ .fresh) :
    (s'.handle h).pending.now = true := by
  rcases flag_step fires set with set | ⟨visiting,inside⟩ | ⟨may,fresh⟩
  · exact set
  · exact absurd inside (away visiting)
  · exact absurd fresh (old may)

/-- A sealed handle stays so when it is not visited and not started again. -/
private theorem sealed_step (sealed : Sealed s h) (fires : Step onMessage s l s') (away : s.loop = .visiting → h ∉ s.ready)
    (old : mayClose s → (s.handle h).status ≠ .fresh) : Sealed s' h := by
  refine ⟨flag_kept fires sealed.set away old,fun p writes => ?_⟩
  rcases write_step fires writes with before | unset
  · exact sealed.unwritten p before
  · rw [sealed.set] at unset
    cases unset

/-- A handle comes to be closed where the loop has found its busy flag at zero. -/
private theorem closed_now (fires : Step onMessage s l s') (before : (s.handle h).status ≠ .closed)
    (closed : (s'.handle h).status = .closed) : (s.handle h).status = .closing ∧ (s.handle h).busy = 0 := by
  by_cases between : isPhase l = false
  · exact absurd (status_step fires between h ▸ closed) before
  · have same {h₀ : M} {a : Handle} (changed : ((s.setHandle h₀ a).handle h).status = .closed) : h = h₀ := by
      by_contra other
      exact before (by rwa [setHandle_of_ne _ _ _ other] at changed)
    cases fires with
    | init | close =>
      cases same closed
      simp [started] at closed
    | closed _ closing idle =>
      cases same closed
      exact ⟨closing,idle⟩
    | _ => exact absurd rfl between

private theorem closing_now (fires : Step onMessage s l s') (before : (s.handle h).status ≠ .closing)
    (closing : (s'.handle h).status = .closing) : (s'.handle h).pending.now = true := by
  by_cases between : isPhase l = false
  · exact absurd (status_step fires between h ▸ closing) before
  · have same {h₀ : M} {a : Handle} (changed : ((s.setHandle h₀ a).handle h).status = .closing) : h = h₀ := by
      by_contra other
      exact before (by rwa [setHandle_of_ne _ _ _ other] at changed)
    cases fires with
    | init | closed =>
      cases same closing
      simp [started] at closing
    | close =>
      cases same closing
      simp
    | _ => exact absurd rfl between

omit [DecidableEq M] [DecidableEq P] in
private theorem sealed_of_idle (counted : Counted s) (set : (s.handle h).pending.now = true) (idle : (s.handle h).busy = 0) :
    Sealed s h :=
  ⟨set,fun p writes => counted.nobody idle p (by rw [writes]; rfl)⟩

/-- What a step does after which `uv__async_stop` runs or has run. -/
inductive Ending (s s' : State M P) : Prop
  | start : s'.loop = .stopping → s'.asyncHandles = [] → Ending s s'
  | stay : shutting s.loop → s'.loop = s.loop → s'.asyncHandles = s.asyncHandles → Ending s s'
  | next {h : M} : s.loop = .stopping → s'.loop = .stopSpinning h → s'.asyncHandles = s.asyncHandles ++ [h] →
      (s'.handle h).pending.now = true → Ending s s'
  | spun {h : M} : s.loop = .stopSpinning h → (s.handle h).busy = 0 → s'.loop = .stopping →
      s'.asyncHandles = s.asyncHandles → Ending s s'
  | ends : s.loop = .stopping → s.ready = [] → s'.loop = .ended → Ending s s'

private theorem ending_step (ordered : Ordered s) (fires : Step onMessage s l s') (shuts : shutting s'.loop) : Ending s s' := by
  cases fires with
  | call | accept | reject | giveUp | load | announce | exchange | write | retire => exact .stay shuts rfl rfl
  | poll | visit | endPass | take | empty | finish | leave | close => exact shuts.elim
  | pass at_ =>
    have before : shutting s.loop := shuts
    rw [at_] at before
    exact before.elim
  | @deliver h => cases has : onMessage h <;> simp [has,shutting] at shuts
  | init may => exact absurd shuts (not_shutting_of_mayClose may)
  | @closed h back at_ =>
    rcases ordered.callbacks h back at_ with rfl | ⟨h',msg,rfl⟩
    · exact shuts.elim
    · exact shuts.elim
  | stop => exact .start rfl rfl
  | stopNext at_ => exact .next at_ rfl rfl (by simp)
  | stopSpun at_ idle => exact .spun at_ idle rfl rfl
  | stopEnd at_ none => exact .ends at_ none rfl

private theorem phase_of_shutting (fires : Step onMessage s l s') (shuts : shutting s.loop) : isPhase l = false := by
  cases fires with
  | init may | close may => exact absurd shuts (not_shutting_of_mayClose may)
  | closed at_ =>
    rw [at_] at shuts
    exact shuts.elim
  | _ => rfl

private theorem shut_step (ordered : Ordered s) (counted : Counted s) (shut : Shut s) (fires : Step onMessage s l s') : Shut s' := by
  have spinning {h : M} (closing : (s.handle h).status = .closing) : s.loop = .visiting → h ∉ s.ready := fun visiting => by
    obtain ⟨back,spins⟩ := (ordered.closings h).mp closing
    rw [visiting] at spins
    cases spins
  have notVisiting (shuts : shutting s.loop) : s.loop ≠ .visiting := fun visiting => by
    rw [visiting] at shuts
    exact shuts
  have last {h : M} (sealed : Sealed s h) (shuts : shutting s.loop) : Sealed s' h :=
    sealed_step sealed fires (fun visiting => absurd visiting (notVisiting shuts))
      fun may => absurd shuts (not_shutting_of_mayClose may)
  refine ⟨fun h closed => ?_,fun h closing => ?_,fun h spins => ?_,fun stops h inside away => ?_,fun gone h old => ?_⟩
  · by_cases before : (s.handle h).status = .closed
    · refine sealed_step (shut.closed h before) fires (fun _ inside => ?_) fun _ => by simp [before]
      have member := (ordered.member h).mp (List.mem_append_right _ inside)
      simp [before] at member
    · obtain ⟨closing,idle⟩ := closed_now fires before closed
      exact sealed_step (sealed_of_idle counted (shut.closing h closing) idle) fires (spinning closing)
        fun _ => by simp [closing]
  · by_cases before : (s.handle h).status = .closing
    · exact flag_kept fires (shut.closing h before) (spinning before) fun _ => by simp [before]
    · exact closing_now fires before closing
  · cases ending_step ordered fires (by rw [spins]; trivial) with
    | stay shuts loop =>
      exact flag_kept fires (shut.spun h (loop ▸ spins)) (fun visiting => absurd visiting (notVisiting shuts))
        fun may => absurd shuts (not_shutting_of_mayClose may)
    | next _ loop _ set =>
      rw [loop] at spins
      cases spins
      exact set
    | start loop | spun _ _ loop | ends _ _ loop =>
      rw [loop] at spins
      cases spins
  · have shuts : shutting s'.loop := by
      rcases stops with at_ | ⟨h',at_⟩
      · rw [at_]; trivial
      · rw [at_]; trivial
    cases ending_step ordered fires shuts with
    | start _ handles =>
      rw [handles] at inside
      cases inside
    | stay before loop handles =>
      rw [handles] at inside
      rw [loop] at stops away
      exact last (shut.passed stops h inside away) before
    | @next h' at_ loop handles =>
      rw [handles] at inside
      have other : h ≠ h' := by
        rintro rfl
        exact away loop
      have before : h ∈ s.asyncHandles := by simpa [other] using inside
      exact last (shut.passed (.inl at_) h before (by simp [at_])) (by rw [at_]; trivial)
    | @spun h' at_ idle loop handles =>
      rw [handles] at inside
      refine last ?_ (by rw [at_]; trivial)
      by_cases same : h = h'
      · subst same
        exact sealed_of_idle counted (shut.spun h at_) idle
      · exact shut.passed (.inr ⟨h',at_⟩) h inside (by simpa [at_] using Ne.symm same)
    | ends _ _ loop =>
      rw [loop] at stops
      rcases stops with at_ | ⟨_,at_⟩ <;> cases at_
  · cases ending_step ordered fires (by rw [gone]; trivial) with
    | stay shuts loop =>
      rw [status_step fires (phase_of_shutting fires shuts)] at old
      exact last (shut.ended (loop ▸ gone) h old) shuts
    | ends at_ none =>
      have shuts : shutting s.loop := by rw [at_]; trivial
      rw [status_step fires (phase_of_shutting fires shuts)] at old
      by_cases closed : (s.handle h).status = .closed
      · exact last (shut.closed h closed) shuts
      · have inside : h ∈ s.asyncHandles ++ s.ready := by
          rw [ordered.member]
          cases at_ : (s.handle h).status <;> simp_all
        rw [none,List.append_nil] at inside
        exact last (shut.passed (.inl at_) h inside (by simp [at_])) shuts
    | start loop | next _ loop | spun _ _ loop =>
      rw [loop] at gone
      cases gone

structure Ended (s : State M P) : Prop where
  ordered : Ordered s
  counted : Counted s
  shut : Shut s

private theorem ended_run {memory : M → Handle} {ls : List (Label M P)} (run : Run (Step onMessage) (initial memory) ls s) :
    Ended s := by
  refine run.invariant Ended ⟨ordered_initial memory,counted_initial memory,?_⟩ fun _ _ _ ended fires =>
    ⟨ordered_step ended.ordered fires,counted_step ended.ordered ended.counted fires,
      shut_step ended.ordered ended.counted ended.shut fires⟩
  refine ⟨fun h closed => ?_,fun h closing => ?_,fun h spins => ?_,fun stops => ?_,fun gone => ?_⟩
  · cases closed
  · cases closing
  · cases spins
  · rcases stops with at_ | ⟨_,at_⟩ <;> cases at_
  · cases gone

end

/-- A handle whose closing is over has left the lists of the loop, its flag stays set, and no sender is or comes to be about
    to write to the loop for it; and once the loop has closed its eventfd, no sender is about to write to that. -/
theorem closed_handles_are_left_alone (onMessage : M → Bool) (memory : M → Handle) {ls : List (Label M P)} {s : State M P}
    (run : Run (Step onMessage) (initial memory) ls s) :
    (∀ h, (s.handle h).status = .closed → h ∉ s.asyncHandles ++ s.ready ∧ (s.handle h).pending.now = true ∧
      ∀ p, s.poster p ≠ .write h) ∧ (s.eventfd = none → ∀ p h, s.poster p ≠ .write h) := by
  have ended := ended_run run
  refine ⟨fun h closed => ⟨fun inside => ?_,(ended.shut.closed h closed).set,(ended.shut.closed h closed).unwritten⟩,
    fun gone p h writes => ?_⟩
  · have member := (ended.ordered.member h).mp inside
    simp [closed] at member
  · have old := ended.ordered.posters p h (by rw [writes]; rfl)
    exact (ended.shut.ended (eventfd_run run gone) h old).unwritten p writes

/-- The loop waits for a sender that has announced itself, and another one with an old reading comes after the close. -/
theorem closed_handles_are_left_alone_one : ∃ s : State Unit Bool,
    Run (Step fun _ => true) (initial fun _ => zeroHandle)
      [.init (),.call (.thread false) () zeroMsg,.lock (.thread false),.load (.thread false),.announce (.thread false),
        .call (.thread true) () zeroMsg,.lock (.thread true),.close (),.exchange (.thread false),.retire (.thread false),
        .closed,.load (.thread true),.announce (.thread true),.exchange (.thread true)] s ∧
      s.poster (.thread true) = .retire () ∧ () ∉ s.asyncHandles ++ s.ready ∧ (s.handle ()).pending.now = true ∧
      ∀ p, s.poster p ≠ .write () := by
  have run : ∃ s : State Unit Bool, Run (Step fun _ => true) (initial fun _ => zeroHandle)
      [.init (),.call (.thread false) () zeroMsg,.lock (.thread false),.load (.thread false),.announce (.thread false),
        .call (.thread true) () zeroMsg,.lock (.thread true),.close (),.exchange (.thread false),.retire (.thread false),
        .closed,.load (.thread true),.announce (.thread true),.exchange (.thread true)] s ∧
      (s.handle ()).status = .closed ∧ s.poster (.thread true) = .retire () :=
    ⟨_,(((((((((((((Run.single (.init (.inl rfl) rfl)).snoc (.call rfl trivial rfl)).snoc (.accept rfl rfl rfl)).snoc
      (.load false rfl (.inl rfl))).snoc (.announce rfl)).snoc (.call rfl trivial rfl)).snoc (.accept rfl rfl rfl)).snoc
      (.close (.inl rfl) rfl)).snoc (.exchange rfl)).snoc (.retire rfl)).snoc (.closed rfl rfl rfl)).snoc
      (.load false rfl (.inr ⟨0,Nat.le_refl 0,rfl⟩))).snoc (.announce rfl)).snoc (.exchange rfl),rfl,rfl⟩
  obtain ⟨s,run,closed,retires⟩ := run
  obtain ⟨gone,set,unwritten⟩ := (closed_handles_are_left_alone (fun _ => true) (fun _ => zeroHandle) run).1 () closed
  exact ⟨s,run,retires,gone,set,unwritten⟩

/-- The busy flag of a handle is the number of the senders that have raised it and not yet lowered it; while the loop
    thread spins for a handle, its flag is set, and if it is busy then a thread other than the loop's is among them and can
    take its next step. -/
theorem spinning_waits_for_senders (onMessage : M → Bool) (memory : M → Handle) {ls : List (Label M P)} {s : State M P}
    (run : Run (Step onMessage) (initial memory) ls s) :
    Counted s ∧ ∀ h, ((∃ back, s.loop = .spinning h back) ∨ s.loop = .stopSpinning h) →
      (s.handle h).pending.now = true ∧ (0 < (s.handle h).busy → ∃ p : P, busyAt (s.poster (.thread p)) = some h ∧
        ∃ l s', (l = .exchange (.thread p) ∨ l = .write (.thread p) ∨ l = .retire (.thread p)) ∧ Step onMessage s l s') := by
  have ended := ended_run run
  refine ⟨ended.counted,fun h spins => ⟨?_,fun busy => ?_⟩⟩
  · rcases spins with back | last
    · exact ended.shut.closing h ((ended.ordered.closings h).mpr back)
    · exact ended.shut.spun h last
  · obtain ⟨senders,member,count⟩ := ended.counted h
    rw [← count,Finset.card_pos] at busy
    obtain ⟨p,inside⟩ := busy
    have at_ := (member p).mp inside
    have notHandling : ∀ h' msg, s.loop ≠ .handling h' msg := by
      rintro h' msg busy
      rcases spins with ⟨back,spins⟩ | spins
      · rw [spins] at busy; cases busy
      · rw [spins] at busy; cases busy
    cases p with
    | handler =>
      obtain ⟨ret,out⟩ := ended.ordered.handler.resolve_right fun ⟨h',msg,busy⟩ => notHandling h' msg busy
      rw [out] at at_
      cases at_
    | thread p =>
      refine ⟨p,at_,?_⟩
      cases pc : s.poster (.thread p) with
      | exchange h' => exact ⟨_,_,.inl rfl,.exchange pc⟩
      | retire h' => exact ⟨_,_,.inr (.inr rfl),.retire pc⟩
      | write h' =>
        have open_ : s.eventfd ≠ none := fun gone => by
          have isOver := eventfd_run run gone
          rcases spins with ⟨back,spins⟩ | spins
          · rw [spins] at isOver; cases isOver
          · rw [spins] at isOver; cases isOver
        obtain ⟨count,told⟩ := Option.ne_none_iff_exists'.mp open_
        exact ⟨_,_,.inr (.inl rfl),.write pc told⟩
      | _ =>
        rw [pc] at at_
        cases at_

/-- The loop closes a handle that a thread has announced itself at. -/
theorem spinning_waits_for_senders_one : ∃ s : State Unit Unit,
    Run (Step fun _ => true) (initial fun _ => zeroHandle)
      [.init (),.call (.thread ()) () zeroMsg,.lock (.thread ()),.load (.thread ()),.announce (.thread ()),.close ()] s ∧
      Counted s ∧ ∃ p, busyAt (s.poster (.thread p)) = some () := by
  have run : ∃ s : State Unit Unit, Run (Step fun _ => true) (initial fun _ => zeroHandle)
      [.init (),.call (.thread ()) () zeroMsg,.lock (.thread ()),.load (.thread ()),.announce (.thread ()),.close ()] s ∧
      s.loop = .spinning () .idle ∧ (s.handle ()).busy = 1 :=
    ⟨_,(((((Run.single (.init (.inl rfl) rfl)).snoc (.call rfl trivial rfl)).snoc (.accept rfl rfl rfl)).snoc
      (.load false rfl (.inl rfl))).snoc (.announce rfl)).snoc (.close (.inl rfl) rfl),rfl,rfl⟩
  obtain ⟨s,run,spins,busy⟩ := run
  have waits := spinning_waits_for_senders (fun _ => true) (fun _ => zeroHandle) run
  obtain ⟨p,inside,_⟩ := (waits.2 () (.inl ⟨_,spins⟩)).2 (by simp [busy])
  exact ⟨s,run,waits.1,p,inside⟩

end Armd.AsyncClose
