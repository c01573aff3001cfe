import Armd.AsyncSend

/-!
No wakeup between the modules of a loop is lost. A module whose queue is not
empty is attended to: its flag is set, which someone has told or is about to tell
the loop (`Rung`), or the loop is in its callback and will look at the queue
again, or a poster is still on its way whose read of the flag cannot be one from
before the loop last cleared it (`Attended`). So a read of `pending` that is out
of date does no harm: the mutex of the queue orders it after the last clearing
that the loop has followed up.
-/
namespace Armd.AsyncWakeup
open Armd.Runs Armd.BoundedQueue Armd.Message Armd.Queue Armd.Location Armd.AsyncSend
open Armd.Channel (Poster)
variable {M P : Type} [DecidableEq M] [DecidableEq P]

/-! ### One handle -/

/-- What a step can do to one handle. -/
inductive Touch (onMessage : Bool) : Handle → Handle → Prop
  | keep {a} : Touch onMessage a a
  | offer {a q msg} : a.queue.qMutex = .live → a.queue.post msg = some q →
      Touch onMessage a { a with queue := q, history := a.history ++ [.offer msg true] }
  | refuse {a msg} : a.queue.post msg = none → Touch onMessage a { a with history := a.history ++ [.offer msg false] }
  | count {a} (busy : ℕ) : Touch onMessage a { a with busy }
  | ring {a} : Touch onMessage a { a with pending := a.pending.write true }
  | clear {a} : a.pending.now = true →
      Touch onMessage a { a with pending := a.pending.write false, cleared := a.pending.position+1 }
  | pass {a} : a.pending.now = false → Touch onMessage a { a with pending := a.pending.write false }
  | take {a msg q} : a.queue.qMutex = .live → a.queue.take = some (msg,q) →
      Touch onMessage a { a with queue := q, published := a.cleared, history := a.history ++ [.take msg] }
  | empty {a} : a.queue.take = none → Touch onMessage a { a with published := a.cleared }
  | deliver {a} (msg : ArmdMsg) : Touch onMessage a { a with handled := a.handled ++ [msg] }
  | start {a} : a.status = .fresh → Touch onMessage a (started a)
  | close {a} : a.status = .running → Touch onMessage a { a with status := .closing, pending := a.pending.write true }
  | closed {a} : a.status = .closing → Touch onMessage a { a with status := .closed, queue := { a.queue with qMutex := .destroyed } }

private theorem touch_update {handle : M → Handle} {h h' : M} {a : Handle} {onMessage : Bool} (touch : Touch onMessage (handle h) a) :
    Touch onMessage (handle h') (Function.update handle h a h') := by
  by_cases same : h' = h
  · subst same
    rw [Function.update_self]
    exact touch
  · rw [Function.update_of_ne same]
    exact .keep

/-- Every step touches each handle in one of these ways. -/
theorem step_touch {onMessage : M → Bool} {s s' : State M P} {l : Label M P} (fires : Step onMessage s l s') (h : M) :
    Touch (onMessage h) (s.handle h) (s'.handle h) := by
  cases fires with
  | accept _ live posted => exact touch_update (.offer live posted)
  | reject _ _ refused => exact touch_update (.refuse refused)
  | announce => exact touch_update (.count _)
  | exchange => exact touch_update .ring
  | retire => exact touch_update (.count _)
  | visit _ _ set => exact touch_update (.clear set)
  | pass _ _ unset => exact touch_update (.pass unset)
  | take _ live got => exact touch_update (.take live got)
  | empty _ _ got => exact touch_update (.empty got)
  | deliver => exact touch_update (.deliver _)
  | init _ fresh => exact touch_update (.start fresh)
  | close _ running => exact touch_update (.close running)
  | closed _ closing => exact touch_update (.closed closing)
  | stopNext => exact touch_update .ring
  | _ => exact .keep

/-- A handle that was set up has a queue in bounds and a live mutex until it is closed; while its flag is clear, the flag
    was not set since the loop last cleared it; and the mutex has handed on nothing that was not so. -/
structure Kept (a : Handle) : Prop where
  inBounds : a.queue.InBounds
  live : a.status ≠ .closed → a.queue.qMutex = .live
  unset : a.pending.now = false → a.pending.NotSince a.cleared true
  published : a.published ≤ a.cleared
  cleared : a.cleared ≤ a.pending.position

theorem kept_started (a : Handle) : Kept (started a) :=
  ⟨ArmdMsgQueue.reset_inBounds _,fun _ => rfl,fun _ => Atomic.notSince_position _ _,le_rfl,le_rfl⟩

/-- A write of another value than is waited for, or over another, leaves a handle as it should be. -/
theorem Kept.pending {a : Handle} (kept : Kept a) {l : Atomic Bool} (later : a.pending.position ≤ l.position)
    (unset : l.now = false → l.NotSince a.cleared true) : Kept { a with pending := l } :=
  ⟨kept.inBounds,kept.live,unset,kept.published,kept.cleared.trans later⟩

private theorem kept_touch {onMessage : Bool} {a a' : Handle} (kept : a.status ≠ .fresh → Kept a) (touch : Touch onMessage a a') :
    a'.status ≠ .fresh → Kept a' := by
  intro old
  cases touch with
  | keep => exact kept old
  | offer live posted =>
    exact { kept old with
      inBounds := ArmdMsgQueue.post_inBounds (kept old).inBounds posted
      live := fun _ => (ArmdMsgQueue.post_mutex posted).trans live }
  | refuse => exact { kept old with }
  | count => exact { kept old with }
  | ring => exact (kept old).pending (by simp) nofun
  | clear set =>
    have past : (a.pending.write false).NotSince (a.pending.write false).position true := Atomic.notSince_position _ _
    rw [Atomic.write_position] at past
    exact { kept old with
      unset := fun _ => past
      published := (kept old).published.trans ((kept old).cleared.trans (Nat.le_succ _))
      cleared := by simp }
  | pass unset => exact (kept old).pending (by simp) fun _ => ((kept old).unset unset).write (by rw [unset]; simp) false
  | take live got =>
    exact { kept old with
      inBounds := ArmdMsgQueue.take_inBounds (kept old).inBounds got
      live := fun _ => (ArmdMsgQueue.take_mutex got).trans live
      published := le_rfl }
  | empty got => exact { kept old with published := le_rfl }
  | deliver => exact { kept old with }
  | start => exact kept_started a
  | close running =>
    have before := kept (by rw [running]; simp)
    have rung := before.pending (show a.pending.position ≤ (a.pending.write true).position by simp) nofun
    exact { rung with
      live := fun _ => before.live (by rw [running]; simp) }
  | closed closing =>
    have before := kept (by rw [closing]; simp)
    exact { before with
      inBounds := ⟨before.inBounds.head,before.inBounds.tail⟩
      live := fun open_ => absurd rfl open_ }

/-! ### The loop and the posters -/

/-- The handle that a poster is about. -/
def target : SendPc M → Option M
  | .outside _ => none
  | .entered h _ => some h
  | .full h => some h
  | .check h _ => some h
  | .announce h => some h
  | .exchange h => some h
  | .write h => some h
  | .retire h => some h

/-- The loop thread walks over a queue of handles of its own. -/
def walking : LoopPc M → Prop
  | .idle => False
  | .ended => False
  | .spinning _ back => walking back
  | _ => True

/-- The loop thread runs a module's callback and will look at its queue again. -/
def draining (h : M) : LoopPc M → Prop
  | .top h' => h' = h
  | .taken h' _ => h' = h
  | .handling h' _ => h' = h
  | .spinning _ back => draining h back
  | _ => False

def shutting : LoopPc M → Prop
  | .stopping => True
  | .stopSpinning _ => True
  | .ended => True
  | _ => False

/-- The handles of the loop are those that are set up and not closed; a pass has a queue of its own; posters are about
    handles that were set up; the loop's own poster is about something only in a handler. -/
structure Ordered (s : State M P) : Prop where
  kept : ∀ h, (s.handle h).status ≠ .fresh → Kept (s.handle h)
  nodup : (s.asyncHandles ++ s.ready).Nodup
  member : ∀ h, h ∈ s.asyncHandles ++ s.ready ↔ (s.handle h).status = .running ∨ (s.handle h).status = .closing
  own : s.ready ≠ [] → walking s.loop
  posters : ∀ p h, target (s.poster p) = some h → (s.handle h).status ≠ .fresh
  handler : (∃ ret, s.poster .handler = .outside ret) ∨ ∃ h msg, s.loop = .handling h msg
  closings : ∀ h, (s.handle h).status = .closing ↔ ∃ back, s.loop = .spinning h back
  callbacks : ∀ h back, s.loop = .spinning h back → back = .idle ∨ ∃ h' msg, back = .handling h' msg

omit [DecidableEq M] [DecidableEq P] in
theorem ordered_initial (memory : M → Handle) : Ordered (initial memory : State M P) := by
  constructor <;> simp [initial,target,walking]

theorem status_update {handle : M → Handle} {h h' : M} {a : Handle} (same : a.status = (handle h).status) :
    (Function.update handle h a h').status = (handle h').status := by
  by_cases isH : h' = h
  · subst isH; rw [Function.update_self,same]
  · rw [Function.update_of_ne isH]

omit [DecidableEq P] in
/-- A field that an update of one handle leaves is the same for all. -/
theorem field_update {X : Type} (field : Handle → X) {s : State M P} {h₀ h : M} {a : Handle}
    (same : field a = field (s.handle h₀)) : field ((s.setHandle h₀ a).handle h) = field (s.handle h) := by
  rw [setHandle_handle]
  split
  · rename_i isH
    rw [isH,same]
  · rfl

omit [DecidableEq P] in
private theorem field_away {X : Type} (field : Handle → X) {s : State M P} {h₀ h : M} {a : Handle} (other : h ≠ h₀) :
    field ((s.setHandle h₀ a).handle h) = field (s.handle h) :=
  congrArg field (setHandle_of_ne _ _ _ other)

/-- The steps that change the status of a handle. -/
def isPhase : Label M P → Bool
  | .init _ => true
  | .close _ => true
  | .closed => true
  | _ => false

section
variable {onMessage : M → Bool} {s s' : State M P} {l : Label M P}

theorem status_step (fires : Step onMessage s l s') (between : isPhase l = false) (h : M) :
    (s'.handle h).status = (s.handle h).status := by
  cases fires with
  | accept | reject | announce | exchange | retire | visit | pass | take | empty | deliver | stopNext =>
    exact status_update rfl
  | init | close | closed => cases between
  | _ => rfl

theorem touch_status {onMessage : Bool} {a a' : Handle} (old : a.status ≠ .fresh) (touch : Touch onMessage a a') :
    a'.status ≠ .fresh := by
  cases touch with
  | close => simp
  | closed => simp
  | start fresh => exact absurd fresh old
  | _ => exact old

/-- A poster comes to be about a handle only by a call. -/
private theorem target_step (fires : Step onMessage s l s') {p : Poster P} {h : M} (about : target (s'.poster p) = some h) :
    target (s.poster p) = some h ∨ ((s.handle h).status = .running ∧ ∃ msg, l = .call p h msg) := by
  have moved : ∀ (p' : Poster P) (pc : SendPc M), target ((s.setPoster p' pc).poster p) = some h →
      (p ≠ p' ∧ target (s.poster p) = some h) ∨ (p = p' ∧ target pc = some h) := by
    intro p' pc there
    rw [setPoster_poster] at there
    split at there
    · exact .inr ⟨‹_›,there⟩
    · exact .inl ⟨‹_›,there⟩
  cases fires with
  | call _ _ running =>
    rcases moved _ _ about with before | ⟨rfl,same⟩
    · exact .inl before.2
    · cases same
      exact .inr ⟨running,_,rfl⟩
  | accept at_ | reject at_ | announce at_ | write at_ =>
    rcases moved _ _ about with before | ⟨rfl,same⟩
    · exact .inl before.2
    · rw [at_]
      exact .inl same
  | exchange at_ =>
    rcases moved _ _ about with before | ⟨rfl,same⟩
    · exact .inl before.2
    · rw [at_]
      split at same <;> exact .inl same
  | load v at_ =>
    rcases moved _ _ about with before | ⟨rfl,same⟩
    · exact .inl before.2
    · rw [at_]
      cases v with
      | true => cases same
      | false => exact .inl same
  | giveUp | retire =>
    rcases moved _ _ about with before | ⟨rfl,same⟩
    · exact .inl before.2
    · cases same
  | _ => exact .inl about

/-- Closing takes the handle from the queue it is on. -/
private theorem erase_both {xs ys : List M} {h : M} (distinct : (xs ++ ys).Nodup) :
    (xs.erase h ++ ys.erase h).Nodup ∧ ∀ x, x ∈ xs.erase h ++ ys.erase h ↔ x ∈ xs ++ ys ∧ x ≠ h := by
  obtain ⟨first,second,apart⟩ := List.nodup_append.mp distinct
  refine ⟨List.nodup_append.mpr ⟨first.erase h,second.erase h,fun a inside b inside' =>
    apart a (List.mem_of_mem_erase inside) b (List.mem_of_mem_erase inside')⟩,fun x => ?_⟩
  rw [List.mem_append,List.mem_append,first.mem_erase_iff,second.mem_erase_iff]
  constructor
  · rintro (⟨other,inside⟩ | ⟨other,inside⟩)
    · exact ⟨.inl inside,other⟩
    · exact ⟨.inr inside,other⟩
  · rintro ⟨inside | inside,other⟩
    · exact .inl ⟨other,inside⟩
    · exact .inr ⟨other,inside⟩

/-- The handles of the loop after a step. -/
private theorem handles_step (ordered : Ordered s) (fires : Step onMessage s l s') :
    (s'.asyncHandles ++ s'.ready).Nodup ∧
      ∀ h, h ∈ s'.asyncHandles ++ s'.ready ↔ (s'.handle h).status = .running ∨ (s'.handle h).status = .closing := by
  by_cases between : isPhase l = false
  · have same : s'.asyncHandles ++ s'.ready = s.asyncHandles ++ s.ready := by
      cases fires with
      | poll idle | stop idle =>
        have none : s.ready = [] := by
          by_contra some
          have walks := ordered.own some
          rw [idle] at walks
          exact walks
        simp [none]
      | visit _ first | pass _ first | stopNext _ first => simp [first]
      | init | close | closed => cases between
      | _ => rfl
    simp only [same,status_step fires between]
    exact ⟨ordered.nodup,ordered.member⟩
  · cases fires with
    | @init h _ fresh =>
      have notIn : h ∉ s.asyncHandles ++ s.ready := fun inside => by
        have := (ordered.member h).mp inside
        simp [fresh] at this
      have perm : (s.asyncHandles ++ [h] ++ s.ready).Perm (h :: (s.asyncHandles ++ s.ready)) := by
        rw [List.append_assoc]
        exact List.perm_middle
      refine ⟨perm.nodup_iff.mpr (List.nodup_cons.mpr ⟨notIn,ordered.nodup⟩),fun h' => ?_⟩
      show h' ∈ s.asyncHandles ++ [h] ++ s.ready ↔ ((s.setHandle h (started (s.handle h))).handle h').status = .running ∨ _
      rw [perm.mem_iff,List.mem_cons,ordered.member h']
      by_cases same : h' = h
      · subst same; simp [started]
      · simp [same,setHandle_of_ne _ _ _ same]
    | @close h _ running =>
      refine ⟨ordered.nodup,fun h' => ?_⟩
      show h' ∈ s.asyncHandles ++ s.ready ↔ ((s.setHandle h _).handle h').status = .running ∨ _
      rw [ordered.member h']
      by_cases same : h' = h
      · subst same; simp [running]
      · simp [setHandle_of_ne _ _ _ same]
    | @closed h back _ closing _ =>
      obtain ⟨distinct,inside⟩ : (s.asyncHandles.erase h ++ s.ready.erase h).Nodup ∧
        ∀ x, x ∈ s.asyncHandles.erase h ++ s.ready.erase h ↔ x ∈ s.asyncHandles ++ s.ready ∧ x ≠ h := erase_both ordered.nodup
      refine ⟨distinct,fun h' => ?_⟩
      show h' ∈ s.asyncHandles.erase h ++ s.ready.erase h ↔ ((s.setHandle h _).handle h').status = .running ∨ _
      rw [inside h',ordered.member h']
      by_cases same : h' = h
      · subst same; simp
      · simp [same,setHandle_of_ne _ _ _ same]
    | _ => exact absurd rfl between

private theorem own_step (ordered : Ordered s) (fires : Step onMessage s l s') (some : s'.ready ≠ []) : walking s'.loop := by
  have still (same : s'.ready = s.ready) : walking s.loop := ordered.own (same ▸ some)
  cases fires with
  | endPass _ none => exact absurd none some
  | stopEnd _ none => exact absurd none some
  | poll | visit | take | empty | finish | leave | stop | stopNext | stopSpun => trivial
  | @pass h rest visiting => exact visiting ▸ trivial
  | @deliver h =>
    cases onMessage h <;> trivial
  | @close h => exact still rfl
  | @closed h back spins =>
    have before : s.ready ≠ [] := fun none => some (by simp [none])
    have walks := ordered.own before
    rw [spins] at walks
    exact walks
  | _ => exact still rfl

private theorem handler_step (ordered : Ordered s) (fires : Step onMessage s l s') :
    (∃ ret, s'.poster .handler = .outside ret) ∨ ∃ h msg, s'.loop = .handling h msg := by
  have moved : ∀ (p : Poster P) (pc : SendPc M), (∀ ret, s.poster p ≠ .outside ret) →
      (∃ ret, (s.setPoster p pc).poster .handler = .outside ret) ∨ ∃ h msg, s.loop = .handling h msg := by
    intro p pc inside
    rcases ordered.handler with ⟨ret,out⟩ | busy
    · have other : Poster.handler ≠ p := fun same => inside ret (same ▸ out)
      exact .inl ⟨ret,by rw [setPoster_of_ne _ _ _ other]; exact out⟩
    · exact .inr busy
  have between (idle : ∀ h msg, s.loop ≠ .handling h msg) : ∃ ret, s.poster .handler = .outside ret :=
    ordered.handler.resolve_right fun ⟨h,msg,busy⟩ => idle h msg busy
  cases fires with
  | @call p h msg ret out may running =>
    cases p with
    | thread p =>
      rcases ordered.handler with ⟨ret,out⟩ | busy
      · exact .inl ⟨ret,by rw [setPoster_of_ne _ _ _ (by simp)]; exact out⟩
      · exact .inr busy
    | handler => exact .inr may
  | accept at_ | reject at_ | giveUp at_ | load _ at_ | announce at_ | exchange at_ | write at_ | retire at_ =>
    exact moved _ _ fun ret out => by rw [at_] at out; cases out
  | poll at_ | visit at_ | pass at_ | endPass at_ | take at_ | empty at_ | leave at_ | stop at_ | stopNext at_ | stopSpun at_
  | stopEnd at_ | deliver at_ | closed at_ =>
    exact .inl (between fun h msg busy => by rw [at_] at busy; cases busy)
  | finish _ out => exact .inl ⟨_,out⟩
  | init => exact ordered.handler
  | close may =>
    rcases may with idle | ⟨h,msg,ret,busy,out⟩
    · exact .inl (between fun h msg busy => by rw [idle] at busy; cases busy)
    · exact .inl ⟨ret,out⟩

private theorem spinning_step (fires : Step onMessage s l s') (between : isPhase l = false) (h : M) (back : LoopPc M) :
    s'.loop = .spinning h back ↔ s.loop = .spinning h back := by
  cases fires with
  | poll at_ | visit at_ | pass at_ | endPass at_ | take at_ | empty at_ | finish at_ | leave at_ | stop at_ | stopNext at_
  | stopSpun at_ | stopEnd at_ => simp [at_]
  | @deliver h' _ at_ => cases onMessage h' <;> simp [at_]
  | init | close | closed => cases between
  | _ => exact Iff.rfl

private theorem closings_step (ordered : Ordered s) (fires : Step onMessage s l s') :
    (∀ h, (s'.handle h).status = .closing ↔ ∃ back, s'.loop = .spinning h back) ∧
      ∀ h back, s'.loop = .spinning h back → back = .idle ∨ ∃ h' msg, back = .handling h' msg := by
  by_cases between : isPhase l = false
  · simp only [status_step fires between,spinning_step fires between]
    exact ⟨ordered.closings,ordered.callbacks⟩
  · have quiet (may : mayClose s) (h : M) (back : LoopPc M) : s.loop ≠ .spinning h back := by
      rcases may with idle | ⟨h',msg,ret,busy,_⟩
      · simp [idle]
      · simp [busy]
    cases fires with
    | @init h may fresh =>
      refine ⟨fun h' => ?_,ordered.callbacks⟩
      show ((s.setHandle h (started (s.handle h))).handle h').status = .closing ↔ _
      by_cases same : h' = h
      · subst same
        simp [started,quiet may]
      · rw [setHandle_of_ne _ _ _ same]
        exact ordered.closings h'
    | @close h may running =>
      refine ⟨fun h' => ?_,fun h' back spins => ?_⟩
      · show ((s.setHandle h _).handle h').status = .closing ↔ ∃ back, LoopPc.spinning h s.loop = .spinning h' back
        by_cases same : h' = h
        · subst same; simp
        · rw [setHandle_of_ne _ _ _ same,ordered.closings h']
          simp [quiet may,Ne.symm same]
      · cases spins
        exact may.imp_right fun ⟨h,msg,_,busy,_⟩ => ⟨h,msg,busy⟩
    | @closed h back spins closing _ =>
      have after_ := ordered.callbacks h back spins
      have none : ∀ h' back', back ≠ .spinning h' back' := by
        rintro h' back' rfl
        simp at after_
      refine ⟨fun h' => ?_,fun h' back' again => absurd again (none h' back')⟩
      show ((s.setHandle h _).handle h').status = .closing ↔ ∃ back', back = .spinning h' back'
      by_cases same : h' = h
      · subst same; simp [none]
      · rw [setHandle_of_ne _ _ _ same,ordered.closings h',spins]
        simp [none,Ne.symm same]
    | _ => exact absurd rfl between

theorem ordered_step (ordered : Ordered s) (fires : Step onMessage s l s') : Ordered s' where
  kept := fun h => kept_touch (ordered.kept h) (step_touch fires h)
  nodup := (handles_step ordered fires).1
  member := (handles_step ordered fires).2
  own := own_step ordered fires
  posters := by
    intro p h about
    rcases target_step fires about with before | ⟨running,_⟩
    · exact touch_status (ordered.posters p h before) (step_touch fires h)
    · exact touch_status (by rw [running]; simp) (step_touch fires h)
  handler := handler_step ordered fires
  closings := (closings_step ordered fires).1
  callbacks := (closings_step ordered fires).2

/-- The eventfd is open until the loop is over. -/
private theorem eventfd_step (fires : Step onMessage s l s') (before : s.eventfd = none → s.loop = .ended) :
    s'.eventfd = none → s'.loop = .ended := by
  intro gone
  cases fires with
  | stopEnd => rfl
  | write | poll => cases gone
  | call | accept | reject | giveUp | load | announce | exchange | retire | init => exact before gone
  | close may =>
    rcases may with idle | ⟨_,_,_,busy,_⟩
    · have last := before gone
      rw [idle] at last
      cases last
    · have last := before gone
      rw [busy] at last
      cases last
  | pass at_ | visit at_ | endPass at_ | take at_ | empty at_ | deliver at_ | finish at_ | leave at_ | closed at_ | stop at_
  | stopNext at_ | stopSpun at_ =>
    have last := before gone
    rw [at_] at last
    cases last

theorem eventfd_run {memory : M → Handle} {ls : List (Label M P)} (run : Run (Step onMessage) (initial memory) ls s) :
    s.eventfd = none → s.loop = .ended :=
  run.invariant (fun s => s.eventfd = none → s.loop = .ended) (fun gone => by simp [initial] at gone)
    fun _ _ _ before fires => eventfd_step fires before

end

/-! ### Set flags are told to the loop -/

/-- The loop has been told to visit its handles, is about to be told, is on its way to this one, or is at its end. -/
def Rung (s : State M P) (h : M) : Prop :=
  (∃ count, s.eventfd = some count ∧ 0 < count) ∨ h ∈ s.ready ∨ (∃ p h', s.poster p = .write h') ∨ shutting s.loop

def Rang (s : State M P) : Prop := ∀ h, (s.handle h).status = .running → (s.handle h).pending.now = true → Rung s h

section
variable {onMessage : M → Bool} {s s' : State M P} {l : Label M P} {h : M}

omit [DecidableEq M] [DecidableEq P] in
/-- A step of a poster that was not about to write leaves what has been told. -/
theorem Rung.poster (rung : Rung s h) (p : Poster P) (before : ∀ h', s.poster p ≠ .write h')
    (others : ∀ p', p' ≠ p → s'.poster p' = s.poster p') (eventfd : s'.eventfd = s.eventfd) (ready : s'.ready = s.ready)
    (loop : s'.loop = s.loop) : Rung s' h := by
  unfold Rung
  rw [eventfd,ready,loop]
  rcases rung with told | way | ⟨p',h',writes⟩ | last
  · exact .inl told
  · exact .inr (.inl way)
  · have other : p' ≠ p := fun same => before h' (same ▸ writes)
    exact .inr (.inr (.inl ⟨p',h',by rw [others p' other,writes]⟩))
  · exact .inr (.inr (.inr last))

omit [DecidableEq M] [DecidableEq P] in
/-- So does a step of the loop that keeps the handle on its way. -/
theorem Rung.loop (rung : Rung s h) (eventfd : s'.eventfd = s.eventfd) (ready : h ∈ s.ready → h ∈ s'.ready)
    (poster : s'.poster = s.poster) (running : ¬ shutting s.loop) : Rung s' h := by
  unfold Rung
  rw [eventfd,poster]
  rcases rung with told | way | writes | last
  · exact .inl told
  · exact .inr (.inl (ready way))
  · exact .inr (.inr (.inl writes))
  · exact absurd last running

omit [DecidableEq M] [DecidableEq P] in
theorem not_shutting_of_mayClose (may : mayClose s) : ¬ shutting s.loop := by
  rcases may with idle | ⟨h,msg,ret,busy,_⟩
  · simp [idle,shutting]
  · simp [busy,shutting]

private theorem rang_step (ordered : Ordered s) (rang : Rang s) (fires : Step onMessage s l s') : Rang s' := by
  intro h running set
  have same (pending : (s'.handle h).pending = (s.handle h).pending) (status : (s'.handle h).status = (s.handle h).status) :
      Rung s h := rang h (status ▸ running) (pending ▸ set)
  have away (h₀ : M) (a : Handle) (other : h ≠ h₀) : ((s.setHandle h₀ a).handle h) = s.handle h :=
    setHandle_of_ne _ _ _ other
  cases fires with
  | @call p _ _ _ at_ | @load p _ _ _ at_ | @giveUp p _ at_ =>
    exact (same rfl rfl).poster p (by simp [at_]) (fun p' other => setPoster_of_ne _ _ _ other) rfl rfl rfl
  | @accept p h₀ _ _ at_ | @reject p h₀ _ at_ | @announce p h₀ at_ | @retire p h₀ at_ =>
    refine (same ?_ ?_).poster p (by simp [at_]) (fun p' other => setPoster_of_ne _ _ _ other) rfl rfl rfl
    · by_cases isH : h = h₀
      · subst isH; simp
      · rw [setHandle_of_ne _ _ _ isH]; rfl
    · exact status_update rfl
  | @exchange p h₀ at_ =>
    by_cases isH : h = h₀
    · subst isH
      cases before : (s.handle h).pending.now with
      | true =>
        exact (rang h (by simpa using running) before).poster p (by simp [at_])
          (fun p' other => setPoster_of_ne _ _ _ other) rfl rfl rfl
      | false => exact .inr (.inr (.inl ⟨p,h,by simp⟩))
    · rw [setHandle_of_ne _ _ _ isH] at running set
      exact (rang h running set).poster p (by simp [at_]) (fun p' other => setPoster_of_ne _ _ _ other) rfl rfl rfl
  | @write p h₀ count at_ open_ =>
    refine .inl ⟨min (count+1) eventfdMax,rfl,?_⟩
    unfold eventfdMax
    omega
  | @poll count idle =>
    have inside := (ordered.member h).mpr (.inl running)
    have none : s.ready = [] := by
      by_contra some
      have walks := ordered.own some
      rw [idle] at walks
      exact walks
    rw [none,List.append_nil] at inside
    exact .inr (.inl inside)
  | @visit h₀ rest at_ first | @pass h₀ rest at_ first =>
    have other : h ≠ h₀ := by
      rintro rfl
      simp at set
    have before := rang h (by simpa [away h₀ _ other] using running) (by simpa [away h₀ _ other] using set)
    refine before.loop rfl (fun inside => ?_) rfl (by simp [at_,shutting])
    rw [first] at inside
    exact (List.mem_cons.mp inside).resolve_left other
  | @take h₀ _ _ at_ | @empty h₀ at_ | @deliver h₀ _ at_ =>
    refine (same ?_ (status_update rfl)).loop rfl id rfl (by simp [at_,shutting])
    by_cases isH : h = h₀
    · subst isH; simp
    · simp [setHandle_of_ne _ _ _ isH]
  | endPass at_ | finish at_ | leave at_ => exact (same rfl rfl).loop rfl id rfl (by simp [at_,shutting])
  | @init h₀ may =>
    have other : h ≠ h₀ := by
      rintro rfl
      simp [started] at set
    have before := rang h (by simpa [away h₀ _ other] using running) (by simpa [away h₀ _ other] using set)
    exact before.loop rfl id rfl (not_shutting_of_mayClose may)
  | @close h₀ may =>
    have other : h ≠ h₀ := by
      rintro rfl
      simp at running
    have before := rang h (by simpa [away h₀ _ other] using running) (by simpa [away h₀ _ other] using set)
    exact before.loop rfl id rfl (not_shutting_of_mayClose may)
  | @closed h₀ back at_ =>
    have other : h ≠ h₀ := by
      rintro rfl
      simp at running
    have before := rang h (by simpa [away h₀ _ other] using running) (by simpa [away h₀ _ other] using set)
    exact before.loop rfl (fun inside => (List.mem_erase_of_ne other).mpr inside) rfl (by simp [at_,shutting])
  | stop | stopNext | stopSpun | stopEnd => exact .inr (.inr (.inr trivial))

end

/-! ### Queues that are not empty are attended to -/

/-- The poster is on its way to the exchange, and what it will read was not set before the loop's last clearing. -/
def Underway (s : State M P) (p : Poster P) (h : M) : Prop :=
  (∃ seen, s.poster p = .check h seen ∧ (s.handle h).cleared ≤ seen) ∨ s.poster p = .announce h ∨ s.poster p = .exchange h

/-- Somebody will still look at the queue. -/
def Attended (s : State M P) (h : M) : Prop :=
  (s.handle h).pending.now = true ∨ draining h s.loop ∨ ∃ p, Underway s p h

/-- The mutex has handed on every clearing, but that of a callback which has not yet locked it. -/
def Handed (s : State M P) : Prop := ∀ h, (s.handle h).published = (s.handle h).cleared ∨ s.loop = .top h

structure Wakeful (s : State M P) : Prop where
  ordered : Ordered s
  rang : Rang s
  handed : Handed s
  attended : ∀ h, (s.handle h).status = .running → (s.handle h).queue.pending ≠ [] → Attended s h

section
variable {onMessage : M → Bool} {s s' : State M P} {l : Label M P}

private theorem handed_step (handed : Handed s) (fires : Step onMessage s l s') : Handed s' := by
  intro h
  have other (at_ : ∀ h, s.loop ≠ .top h) : (s.handle h).published = (s.handle h).cleared :=
    (handed h).resolve_right (at_ h)
  have update {h₀ : M} {a : Handle} (eq : a.published = a.cleared ∨ (a.published = (s.handle h₀).published ∧
      a.cleared = (s.handle h₀).cleared)) (before : (s.handle h).published = (s.handle h).cleared) :
      ((s.setHandle h₀ a).handle h).published = ((s.setHandle h₀ a).handle h).cleared := by
    rw [setHandle_handle]
    split
    · rename_i isH
      subst isH
      rcases eq with eq | ⟨published,cleared⟩
      · exact eq
      · rw [published,cleared,before]
    · exact before
  cases fires with
  | accept | reject | announce | exchange | retire =>
    rcases handed h with eq | top
    · exact .inl (update (.inr ⟨rfl,rfl⟩) eq)
    · exact .inr top
  | @visit h₀ rest at_ =>
    by_cases isH : h = h₀
    · subst isH; exact .inr rfl
    · left
      show ((s.setHandle h₀ _).handle h).published = _
      rw [setHandle_of_ne _ _ _ isH]
      exact other fun h => by rw [at_]; simp
  | pass at_ | stopNext at_ | closed at_ => exact .inl (update (.inr ⟨rfl,rfl⟩) (other fun h => by rw [at_]; simp))
  | deliver at_ => exact .inl (update (.inr ⟨rfl,rfl⟩) (other fun h => by rw [at_]; simp))
  | @take h₀ _ _ at_ | @empty h₀ at_ =>
    left
    by_cases isH : h = h₀
    · subst isH
      simp
    · refine update (.inl rfl) ((handed h).resolve_right ?_)
      rw [at_]
      simpa using fun same : h₀ = h => isH same.symm
  | init may =>
    refine (handed h).imp_left fun eq => update (.inl rfl) eq
  | close may =>
    refine .inl (update (.inr ⟨rfl,rfl⟩) (other fun h => ?_))
    rcases may with idle | ⟨h',msg,ret,busy,_⟩
    · simp [idle]
    · simp [busy]
  | poll at_ | endPass at_ | finish at_ | leave at_ | stop at_ | stopSpun at_ | stopEnd at_ =>
    exact .inl (other fun h => by rw [at_]; simp)
  | _ => exact handed h

omit [DecidableEq M] [DecidableEq P] in
/-- A step of a poster that was not underway leaves what attends to a queue. -/
theorem Attended.poster {h : M} (attended : Attended s h) (p : Poster P) (before : ¬ Underway s p h)
    (others : ∀ p', p' ≠ p → s'.poster p' = s.poster p') (pending : (s'.handle h).pending = (s.handle h).pending)
    (cleared : (s'.handle h).cleared = (s.handle h).cleared) (loop : s'.loop = s.loop) : Attended s' h := by
  unfold Attended Underway
  rw [pending,cleared,loop]
  rcases attended with set | drains | ⟨p',under⟩
  · exact .inl set
  · exact .inr (.inl drains)
  · have other : p' ≠ p := fun same => before (same ▸ under)
    exact .inr (.inr ⟨p',by rw [others p' other]; exact under⟩)

omit [DecidableEq M] [DecidableEq P] in
/-- So does a step of the loop that keeps the flag and, where it was draining, drains on. -/
theorem Attended.loop {h : M} (attended : Attended s h) (poster : s'.poster = s.poster)
    (pending : (s'.handle h).pending = (s.handle h).pending) (cleared : (s'.handle h).cleared = (s.handle h).cleared)
    (drains : draining h s.loop → draining h s'.loop) : Attended s' h := by
  unfold Attended Underway
  rw [pending,cleared,poster]
  exact attended.imp_right (Or.imp_left drains)

private theorem attended_step (wakeful : Wakeful s) (fires : Step onMessage s l s') (h : M)
    (running : (s'.handle h).status = .running) (some : (s'.handle h).queue.pending ≠ []) : Attended s' h := by
  have same (queue : (s'.handle h).queue = (s.handle h).queue) (status : (s'.handle h).status = (s.handle h).status) :
      Attended s h := wakeful.attended h (status ▸ running) (queue ▸ some)
  have away (h₀ : M) (a : Handle) (other : h ≠ h₀) : ((s.setHandle h₀ a).handle h) = s.handle h :=
    setHandle_of_ne _ _ _ other
  cases fires with
  | @call p h₀ _ _ at_ | @giveUp p h₀ at_ =>
    exact (same rfl rfl).poster p (by simp [Underway,at_]) (fun p' other => setPoster_of_ne _ _ _ other) rfl rfl rfl
  | @write p h₀ _ at_ =>
    exact (same rfl rfl).poster p (by simp [Underway,at_]) (fun p' other => setPoster_of_ne _ _ _ other) rfl rfl rfl
  | @load p h₀ seen v at_ read =>
    by_cases under : Underway s p h
    · obtain ⟨rfl,known⟩ : h₀ = h ∧ (s.handle h).cleared ≤ seen := by
        rcases under with ⟨seen',at',known⟩ | at' | at'
        · rw [at_] at at'
          cases at'
          exact ⟨rfl,known⟩
        · rw [at_] at at'; cases at'
        · rw [at_] at at'; cases at'
      cases v with
      | false => exact .inr (.inr ⟨p,.inr (.inl (by simp))⟩)
      | true =>
        -- a set flag that this poster reads is set now
        left
        show (s.handle h₀).pending.now = true
        cases now : (s.handle h₀).pending.now with
        | true => rfl
        | false =>
          have kept := wakeful.ordered.kept h₀ (by rw [show (s.handle h₀).status = .running from running]; simp)
          rw [← now]
          exact Atomic.now_of_canRead read (kept.unset now) known
    · exact (same rfl rfl).poster p under (fun p' other => setPoster_of_ne _ _ _ other) rfl rfl rfl
  | @accept p h₀ msg q at_ live posted =>
    by_cases isH : h = h₀
    · subst isH
      rcases wakeful.handed h with eq | top
      · exact .inr (.inr ⟨p,.inl ⟨(s.handle h).published,by simp,by simp [eq]⟩⟩)
      · exact .inr (.inl (by simp [top,draining]))
    · refine (wakeful.attended h ?_ ?_).poster p (by simp [Underway,at_]) (fun p' other => setPoster_of_ne _ _ _ other)
        (field_update Handle.pending rfl) (field_update Handle.cleared rfl) rfl
      · exact field_away Handle.status isH ▸ running
      · exact field_away Handle.queue isH ▸ some
  | @reject p h₀ msg at_ | @retire p h₀ at_ =>
    exact (same (field_update Handle.queue rfl) (field_update Handle.status rfl)).poster p (by simp [Underway,at_])
      (fun p' other => setPoster_of_ne _ _ _ other) (field_update Handle.pending rfl) (field_update Handle.cleared rfl) rfl
  | @announce p h₀ at_ =>
    have before := same (field_update Handle.queue rfl) (field_update Handle.status rfl)
    by_cases under : Underway s p h
    · obtain rfl : h₀ = h := by
        rcases under with ⟨seen,at',_⟩ | at' | at'
        · rw [at_] at at'; cases at'
        · rw [at_] at at'
          cases at'
          rfl
        · rw [at_] at at'; cases at'
      exact .inr (.inr ⟨p,.inr (.inr (by simp))⟩)
    · exact before.poster p under (fun p' other => setPoster_of_ne _ _ _ other) (field_update Handle.pending rfl)
        (field_update Handle.cleared rfl) rfl
  | @exchange p h₀ at_ =>
    by_cases isH : h = h₀
    · subst isH
      exact .inl (by simp)
    · refine (same (field_update Handle.queue rfl) (field_update Handle.status rfl)).poster p ?_
        (fun p' other => setPoster_of_ne _ _ _ other) (field_away Handle.pending isH) (field_update Handle.cleared rfl) rfl
      simp [Underway,at_,Ne.symm isH]
  | poll at_ | endPass at_ | leave at_ | stop at_ | stopSpun at_ | stopEnd at_ =>
    exact (same rfl rfl).loop rfl rfl rfl (by simp [at_,draining])
  | finish at_ => exact (same rfl rfl).loop rfl rfl rfl (by simp [at_,draining])
  | @visit h₀ rest at_ =>
    by_cases isH : h = h₀
    · subst isH
      exact .inr (.inl rfl)
    · exact (same (field_update Handle.queue rfl) (field_update Handle.status rfl)).loop rfl
        (field_away Handle.pending isH) (field_away Handle.cleared isH) (by simp [at_,draining])
  | @pass h₀ rest at_ first unset =>
    have before := same (field_update Handle.queue rfl) (field_update Handle.status rfl)
    by_cases isH : h = h₀
    · subst isH
      rcases before with set | drains | ⟨p,under⟩
      · rw [unset] at set; cases set
      · simp [at_,draining] at drains
      · exact .inr (.inr ⟨p,by simpa [Underway] using under⟩)
    · exact before.loop rfl (field_away Handle.pending isH) (field_update Handle.cleared rfl) (by simp [at_,draining])
  | @take h₀ msg q at_ =>
    by_cases isH : h = h₀
    · subst isH
      exact .inr (.inl rfl)
    · refine (wakeful.attended h ?_ ?_).loop rfl (field_update Handle.pending rfl) (field_update Handle.cleared rfl)
        (by simp [at_,draining])
      · exact field_away Handle.status isH ▸ running
      · exact field_away Handle.queue isH ▸ some
  | @empty h₀ at_ live none =>
    by_cases isH : h = h₀
    · subst isH
      have kept := wakeful.ordered.kept h (by rw [show (s.handle h).status = .running by simpa using running]; simp)
      have drained := (ArmdMsgQueue.take_none_iff kept.inBounds).mp none
      simp [drained] at some
    · refine (same (field_update Handle.queue rfl) (field_update Handle.status rfl)).loop rfl (field_update Handle.pending rfl)
        (field_update Handle.cleared rfl) ?_
      simpa [at_,draining] using fun isH' : h₀ = h => isH isH'.symm
  | @deliver h₀ msg at_ =>
    refine (same (field_update Handle.queue rfl) (field_update Handle.status rfl)).loop rfl (field_update Handle.pending rfl)
      (field_update Handle.cleared rfl) ?_
    cases onMessage h₀ <;> simp [at_,draining]
  | @init h₀ may fresh =>
    by_cases isH : h = h₀
    · subst isH
      exact absurd (by simp [started,ArmdMsgQueue.reset_pending]) some
    · refine (wakeful.attended h ?_ ?_).loop rfl ?_ ?_ id
      · exact field_away Handle.status isH ▸ running
      · exact field_away Handle.queue isH ▸ some
      · simp [setHandle_of_ne _ _ _ isH]
      · simp [setHandle_of_ne _ _ _ isH]
  | @close h₀ may =>
    have isH : h ≠ h₀ := by
      rintro rfl
      simp at running
    refine (wakeful.attended h ?_ ?_).loop rfl ?_ ?_ id
    · simpa [setHandle_of_ne _ _ _ isH] using running
    · simpa [setHandle_of_ne _ _ _ isH] using some
    · simp [setHandle_of_ne _ _ _ isH]
    · simp [setHandle_of_ne _ _ _ isH]
  | @closed h₀ back at_ =>
    have isH : h ≠ h₀ := by
      rintro rfl
      simp at running
    refine (wakeful.attended h ?_ ?_).loop rfl ?_ ?_ (by simp [at_,draining])
    · simpa [setHandle_of_ne _ _ _ isH] using running
    · simpa [setHandle_of_ne _ _ _ isH] using some
    · simp [setHandle_of_ne _ _ _ isH]
    · simp [setHandle_of_ne _ _ _ isH]
  | @stopNext h₀ rest at_ =>
    by_cases isH : h = h₀
    · subst isH
      exact .inl (by simp)
    · exact (same (field_update Handle.queue rfl) (field_update Handle.status rfl)).loop rfl
        (field_away Handle.pending isH) (field_update Handle.cleared rfl) (by simp [at_,draining])

private theorem wakeful_step (wakeful : Wakeful s) (fires : Step onMessage s l s') : Wakeful s' :=
  ⟨ordered_step wakeful.ordered fires,rang_step wakeful.ordered wakeful.rang fires,handed_step wakeful.handed fires,
    attended_step wakeful fires⟩

theorem wakeful_run {memory : M → Handle} {ls : List (Label M P)} (run : Run (Step onMessage) (initial memory) ls s) :
    Wakeful s := by
  refine run.invariant Wakeful ⟨ordered_initial memory,?_,?_,?_⟩ fun _ _ _ => wakeful_step
  · intro h running; cases running
  · intro h; exact .inl rfl
  · intro h running; cases running

end

end Armd.AsyncWakeup
