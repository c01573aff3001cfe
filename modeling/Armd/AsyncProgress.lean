import Armd.AsyncChannel

/-!
What is posted to the modules of a loop is handed over. As long as a module has a
message or a set flag, somebody still sees to it, and where nobody posts any more
and the loop has nothing left to read, every running module has handled all that
it accepted (`no_wakeup_is_lost`). The loop gets there by itself: its own steps
lose work with each of them (`work`), one is always possible until nothing is
left, and none adds a message (`loop_serves_all`).
-/
namespace Armd.AsyncProgress
open Armd.Runs Armd.BoundedQueue Armd.Message Armd.Queue Armd.Location Armd.AsyncSend Armd.AsyncWakeup Armd.AsyncChannel
open Armd.Channel (Poster)
variable {M P : Type} [DecidableEq M] [DecidableEq P] {onMessage : M → Bool} {s s' : State M P} {l : Label M P}

/-- The loop waits, and nothing will wake it up. -/
structure Settled (s : State M P) : Prop where
  idle : s.loop = .idle
  silent : s.eventfd = some 0

omit [DecidableEq M] [DecidableEq P] in
/-- Where nobody posts and the loop waits, what was not seen to would have woken it up. -/
private theorem drained_of_settled (wakeful : Wakeful s) (outside : ∀ p, ∃ ret, s.poster p = .outside ret) (settled : Settled s)
    {h : M} (running : (s.handle h).status = .running) : (s.handle h).queue.pending = [] := by
  by_contra waits
  have away (p : Poster P) (h' : M) : target (s.poster p) ≠ some h' := by
    obtain ⟨ret,out⟩ := outside p
    rw [out]
    exact nofun
  rcases wakeful.attended h running waits with set | drains | ⟨p,under⟩
  · rcases wakeful.rang h running set with ⟨count,told,more⟩ | way | ⟨p,h',writes⟩ | last
    · rw [settled.silent] at told
      cases told
      exact absurd more (Nat.lt_irrefl 0)
    · have walks := wakeful.ordered.own (List.ne_nil_of_mem way)
      rw [settled.idle] at walks
      exact walks
    · exact away p h' (by rw [writes]; rfl)
    · rw [settled.idle] at last
      exact last
  · rw [settled.idle] at drains
    exact drains
  · rcases under with ⟨seen,at_,_⟩ | at_ | at_
    · exact away p h (by rw [at_]; rfl)
    · exact away p h (by rw [at_]; rfl)
    · exact away p h (by rw [at_]; rfl)

/-- A running module with messages is attended to and a set flag is told to the loop; when nobody posts and the loop
    waits with its eventfd at zero, every running module has been handed all that it accepted. -/
theorem no_wakeup_is_lost (onMessage : M → Bool) (memory : M → Handle) {ls : List (Label M P)} {s : State M P}
    (run : Run (Step onMessage) (initial memory) ls s) {h : M} (running : (s.handle h).status = .running) :
    ((s.handle h).queue.pending ≠ [] → Attended s h) ∧ ((s.handle h).pending.now = true → Rung s h) ∧
      ((∀ p, ∃ ret, s.poster p = .outside ret) → Settled s → (s.handle h).handled = accepted (s.handle h).history) := by
  have wakeful := wakeful_run run
  have served := (mirrored_run run h (.inl running)).served
  refine ⟨wakeful.attended h running,wakeful.rang h running,fun outside settled => ?_⟩
  have drained := drained_of_settled wakeful outside settled running
  rw [served.conserved,drained,settled.idle]
  simp [inHand]

/-- A thread posts, and the loop wakes up, hands the message over and waits again. -/
private theorem message_served : ∃ s t : State Unit Unit, Run (Step fun _ => true) (initial fun _ => zeroHandle)
      [.init (),.call (.thread ()) () zeroMsg,.lock (.thread ()),.load (.thread ()),.announce (.thread ()),
        .exchange (.thread ()),.write (.thread ()),.retire (.thread ())] s ∧
    Run (Step fun _ => true) s [.poll,.visit,.lockTake,.deliver,.finish,.lockTake,.leave,.endPass] t ∧ s.loop = .idle ∧
    (∀ p, ∃ ret, s.poster p = .outside ret) ∧ t.poster = s.poster ∧ Settled t ∧
    ((s.handle ()).status = .running ∧ accepted (s.handle ()).history = [zeroMsg]) ∧
    (t.handle ()).status = .running ∧ accepted (t.handle ()).history = [zeroMsg] := by
  have handed : ∃ s t : State Unit Unit, Run (Step fun _ => true) (initial fun _ => zeroHandle)
        [.init (),.call (.thread ()) () zeroMsg,.lock (.thread ()),.load (.thread ()),.announce (.thread ()),
          .exchange (.thread ()),.write (.thread ()),.retire (.thread ())] s ∧
      Run (Step fun _ => true) s [.poll,.visit,.lockTake,.deliver,.finish,.lockTake] t ∧ s.loop = .idle ∧
      (∀ p, ∃ ret, s.poster p = .outside ret) ∧ t.poster = s.poster ∧ t.loop = .leaving () ∧ t.ready = [] ∧ t.eventfd = some 0 ∧
      ((s.handle ()).status = .running ∧ accepted (s.handle ()).history = [zeroMsg]) ∧
      (t.handle ()).status = .running ∧ accepted (t.handle ()).history = [zeroMsg] := by
    refine ⟨_,_,(((((((Run.single (.init (.inl rfl) rfl)).snoc (.call rfl trivial rfl)).snoc (.accept rfl rfl rfl)).snoc
      (.load false rfl (.inl rfl))).snoc (.announce rfl)).snoc (.exchange rfl)).snoc (.write rfl rfl)).snoc (.retire rfl),
      (((((Run.single (.poll rfl rfl Nat.one_pos)).snoc (.visit rfl rfl rfl)).snoc (.take rfl rfl rfl)).snoc (.deliver rfl)).snoc
      (.finish rfl rfl)).snoc (.empty rfl rfl rfl),rfl,fun p => ?_,rfl,rfl,rfl,rfl,⟨rfl,rfl⟩,rfl,rfl⟩
    cases p with
    | thread p => exact ⟨_,rfl⟩
    | handler => exact ⟨_,rfl⟩
  obtain ⟨s,t,posted,served,idle,outside,same,leaving,visited,silent,before,after⟩ := handed
  exact ⟨s,_,posted,(served.snoc (.leave leaving)).snoc (.endPass rfl visited),idle,outside,same,⟨rfl,silent⟩,before,after⟩

theorem no_wakeup_is_lost_one : ∃ (ls : List (Label Unit Unit)) (s : State Unit Unit),
    Run (Step fun _ => true) (initial fun _ => zeroHandle) ls s ∧ Settled s ∧
      ((s.handle ()).queue.pending ≠ [] → Attended s ()) ∧ (s.handle ()).handled = [zeroMsg] := by
  obtain ⟨s,t,posted,served,_,outside,same,settled,_,running,offered⟩ := message_served
  have kept := no_wakeup_is_lost (fun _ => true) (fun _ => zeroHandle) (posted.trans served) running
  exact ⟨_,t,posted.trans served,settled,kept.1,(kept.2.2 (same ▸ outside) settled).trans offered⟩

/-! ### The loop gets there -/

/-- The steps of the loop thread that see to messages. -/
def isServing : Label M P → Bool
  | .poll => true
  | .visit => true
  | .endPass => true
  | .lockTake => true
  | .deliver => true
  | .finish => true
  | .leave => true
  | _ => false

/-- The loop thread waits, goes over its handles or serves a module that runs. -/
def serves (running : M → Prop) : LoopPc M → Prop
  | .idle => True
  | .visiting => True
  | .top h => running h
  | .taken h _ => running h
  | .handling h _ => running h
  | .leaving h => running h
  | _ => False

/-- Nobody posts, and the loop thread neither closes nor stops. -/
structure Quiet (s : State M P) : Prop where
  outside : ∀ p, ∃ ret, s.poster p = .outside ret
  serves : serves (fun h => (s.handle h).status = .running) s.loop

/-- How far the loop thread is from its next handle. -/
def effort : LoopPc M → ℕ
  | .visiting => 1
  | .leaving _ => 2
  | .top _ => 3
  | .handling _ _ => 4
  | .taken _ _ => 5
  | _ => 0

/-- The messages in the queues of the loop's modules. -/
def waiting (s : State M P) : ℕ :=
  ((s.asyncHandles ++ s.ready).map fun h => (s.handle h).queue.pending.length).sum

/-- What the loop thread has left to do. -/
def work (s : State M P) : ℕ :=
  (if s.eventfd = some 0 then 0 else 3*(s.asyncHandles ++ s.ready).length+2) + 3*s.ready.length + 3*waiting s + effort s.loop

/-- What the loop thread serves are the same handles, with their statuses and what they accepted. -/
private theorem serving_keeps (ordered : Ordered s) (fires : Step onMessage s l s') (serving : isServing l = true) :
    s'.asyncHandles ++ s'.ready = s.asyncHandles ++ s.ready ∧ s'.poster = s.poster ∧
      (∀ h, (s'.handle h).status = (s.handle h).status) ∧
      ∀ h, accepted (s'.handle h).history = accepted (s.handle h).history := by
  have statuses : ∀ h, (s'.handle h).status = (s.handle h).status :=
    status_step fires (by cases fires <;> first | rfl | cases serving)
  refine ⟨?_,?_,statuses,fun h => ?_⟩
  · cases fires with
    | poll idle =>
      have none : s.ready = [] := by
        by_contra some
        have walks := ordered.own some
        rw [idle] at walks
        exact walks
      simp [none]
    | visit _ first | pass _ first => simp [first]
    | endPass | take | empty | deliver | finish | leave => rfl
    | _ => cases serving
  · cases fires with
    | poll | visit | pass | endPass | take | empty | deliver | finish | leave => rfl
    | _ => cases serving
  · cases fires with
    | poll | endPass | finish | leave => rfl
    | visit | pass | empty | deliver => exact field_update (fun a => accepted a.history) rfl
    | take => exact field_update (fun a => accepted a.history) (by simp)
    | _ => cases serving

theorem quiet_step (ordered : Ordered s) (quiet : Quiet s) (fires : Step onMessage s l s') (serving : isServing l = true) :
    Quiet s' := by
  obtain ⟨_,poster,statuses,_⟩ := serving_keeps ordered fires serving
  refine ⟨fun p => by rw [poster]; exact quiet.outside p,?_⟩
  have before := quiet.serves
  simp only [statuses]
  cases fires with
  | poll | endPass | leave => trivial
  | pass at_ => exact before
  | @visit h rest at_ first =>
    refine ((ordered.member h).mp (by simp [first])).resolve_right fun closing => ?_
    obtain ⟨back,spins⟩ := (ordered.closings h).mp closing
    rw [at_] at spins
    cases spins
  | take at_ | empty at_ | finish at_ =>
    rw [at_] at before
    exact before
  | @deliver h msg at_ =>
    rw [at_] at before
    cases onMessage h <;> exact before
  | _ => cases serving

omit [DecidableEq M] [DecidableEq P] in
private theorem waiting_congr (handles : s'.asyncHandles ++ s'.ready = s.asyncHandles ++ s.ready)
    (pending : ∀ h, (s'.handle h).queue.pending.length = (s.handle h).queue.pending.length) : waiting s' = waiting s := by
  simp only [waiting,handles,pending]

/-- A message that is taken from the queue of one of the loop's handles waits no more. -/
private theorem sum_map_update {xs : List M} {x : M} (distinct : xs.Nodup) (inside : x ∈ xs) {f g : M → ℕ} (less : f x = g x+1)
    (others : ∀ y, y ≠ x → f y = g y) : (xs.map f).sum = (xs.map g).sum+1 := by
  have perm := List.perm_cons_erase inside
  have rest : (xs.erase x).map f = (xs.erase x).map g :=
    List.map_congr_left fun y on => others y fun same => (distinct.not_mem_erase) (same ▸ on)
  rw [(perm.map f).sum_eq,(perm.map g).sum_eq]
  simp only [List.map_cons,List.sum_cons,rest,less]
  omega

private theorem work_step (ordered : Ordered s) (quiet : Quiet s) (fires : Step onMessage s l s') (serving : isServing l = true) :
    work s' < work s := by
  have handles := (serving_keeps ordered fires serving).1
  have same (pending : ∀ h, (s'.handle h).queue.pending.length = (s.handle h).queue.pending.length) : waiting s' = waiting s :=
    waiting_congr handles pending
  unfold work
  rw [handles]
  cases fires with
  | @poll count at_ told more =>
    have none : s.ready = [] := by
      by_contra some
      have walks := ordered.own some
      rw [at_] at walks
      exact walks
    have open_ : s.eventfd ≠ some 0 := by
      rw [told]
      simp
      omega
    rw [same fun _ => rfl,if_neg open_]
    simp [none,effort]
    omega
  | endPass at_ | finish at_ | leave at_ =>
    rw [same fun _ => rfl,at_]
    simp [effort]
  | visit at_ first =>
    rw [same fun h => field_update (fun a => a.queue.pending.length) rfl]
    simp [at_,first,effort]
    omega
  | pass at_ first =>
    rw [same fun h => field_update (fun a => a.queue.pending.length) rfl]
    simp [first]
  | @take h msg q at_ live got =>
    have running : (s.handle h).status = .running := by
      have before := quiet.serves
      rw [at_] at before
      exact before
    have kept := ordered.kept h (by simp [running])
    have oldest := ArmdMsgQueue.take_some kept.inBounds got
    have less : waiting s = waiting { s.setHandle h { s.handle h with
        queue := q
        published := (s.handle h).cleared
        history := (s.handle h).history ++ [.take msg] } with
      loop := .taken h msg }+1 := by
      refine sum_map_update ordered.nodup ((ordered.member h).mpr (.inl running)) ?_ fun y other => ?_
      · simp [oldest]
      · simp [setHandle_of_ne _ _ _ other]
    rw [less,at_]
    simp [effort]
    omega
  | empty at_ =>
    rw [same fun h => field_update (fun a => a.queue.pending.length) rfl,at_]
    simp [effort]
  | @deliver h msg at_ =>
    rw [same fun h => field_update (fun a => a.queue.pending.length) rfl,at_]
    cases onMessage h <;> simp [effort]
  | _ => cases serving

/-- Until it waits with nothing left to read, the loop thread can go on. -/
private theorem serving_enabled (ordered : Ordered s) (quiet : Quiet s) (open_ : s.eventfd ≠ none) :
    Settled s ∨ ∃ l s', isServing l = true ∧ Step onMessage s l s' := by
  have before := quiet.serves
  have live {h : M} (running : (s.handle h).status = .running) : (s.handle h).queue.qMutex = .live :=
    (ordered.kept h (by simp [running])).live (by simp [running])
  cases at_ : s.loop with
  | idle =>
    obtain ⟨count,told⟩ := Option.ne_none_iff_exists'.mp open_
    by_cases more : 0 < count
    · exact .inr ⟨_,_,rfl,.poll at_ told more⟩
    · have none : count = 0 := by omega
      exact .inl ⟨at_,by rw [told,none]⟩
  | visiting =>
    right
    cases first : s.ready with
    | nil => exact ⟨_,_,rfl,.endPass at_ first⟩
    | cons h rest =>
      cases set : (s.handle h).pending.now with
      | true => exact ⟨_,_,rfl,.visit at_ first set⟩
      | false => exact ⟨_,_,rfl,.pass at_ first set⟩
  | top h =>
    right
    rw [at_] at before
    cases got : (s.handle h).queue.take with
    | none => exact ⟨_,_,rfl,.empty at_ (live before) got⟩
    | some taken => exact ⟨_,_,rfl,.take at_ (live before) got⟩
  | taken h msg => exact .inr ⟨_,_,rfl,.deliver at_⟩
  | handling h msg =>
    obtain ⟨ret,out⟩ := quiet.outside .handler
    exact .inr ⟨_,_,rfl,.finish at_ out⟩
  | leaving h => exact .inr ⟨_,_,rfl,.leave at_⟩
  | spinning | stopping | stopSpinning | ended =>
    rw [at_] at before
    exact before.elim

/-- From any state in which nobody posts and the loop neither closes nor stops, its own steps come to an end after at
    most `work` of them, and only where it waits with nothing left to read; every running module has then been handed
    all that it had accepted. -/
theorem loop_serves_all (onMessage : M → Bool) (memory : M → Handle) {ls : List (Label M P)} {s : State M P}
    (run : Run (Step onMessage) (initial memory) ls s) (quiet : Quiet s) {served : List (Label M P)} {t : State M P}
    (serving : Run (When (Step onMessage) fun _ l => isServing l = true) s served t) :
    served.length ≤ work s ∧ (Settled t ∨ ∃ l t', isServing l = true ∧ Step onMessage t l t') ∧
      (Settled t → ∀ h, (s.handle h).status = .running → (t.handle h).handled = accepted (s.handle h).history) := by
  have start := (wakeful_run run).ordered
  have keep : ∀ (t : State M P) l t', Ordered t ∧ Quiet t → When (Step onMessage) (fun _ l => isServing l = true) t l t' →
      Ordered t' ∧ Quiet t' :=
    fun _ _ _ both fires => ⟨ordered_step both.1 fires.1,quiet_step both.1 both.2 fires.1 fires.2⟩
  have whole := run.trans serving.of_when
  have wakeful := wakeful_run whole
  have quiet' := (serving.invariant (fun t => Ordered t ∧ Quiet t) ⟨start,quiet⟩ keep).2
  have kept : Ordered t ∧ (∀ h, (t.handle h).status = (s.handle h).status) ∧
      ∀ h, accepted (t.handle h).history = accepted (s.handle h).history := by
    refine serving.invariant (fun t => Ordered t ∧ (∀ h, (t.handle h).status = (s.handle h).status) ∧
      ∀ h, accepted (t.handle h).history = accepted (s.handle h).history) ⟨start,fun _ => rfl,fun _ => rfl⟩ ?_
    rintro t l t' ⟨ordered,statuses,histories⟩ ⟨fires,serves⟩
    obtain ⟨_,_,statuses',histories'⟩ := serving_keeps ordered fires serves
    exact ⟨ordered_step ordered fires,fun h => (statuses' h).trans (statuses h),fun h => (histories' h).trans (histories h)⟩
  refine ⟨?_,?_,fun settled h running => ?_⟩
  · have bound := serving.length_le work (fun t => Ordered t ∧ Quiet t) ⟨start,quiet⟩ keep
      fun _ _ _ both fires => work_step both.1 both.2 fires.1 fires.2
    omega
  · refine serving_enabled wakeful.ordered quiet' fun gone => ?_
    have before := quiet'.serves
    rw [eventfd_run whole gone] at before
    exact before
  · have running' : (t.handle h).status = .running := (kept.2.1 h).trans running
    have drained := drained_of_settled wakeful quiet'.outside settled running'
    have served := (mirrored_run whole h (.inl running')).served.conserved
    rw [kept.2.2 h,drained,settled.idle] at served
    simpa [inHand] using served.symm

/-- The loop sees to the one message in eight steps. -/
theorem loop_serves_all_one : ∃ s t : State Unit Unit, accepted (s.handle ()).history = [zeroMsg] ∧
    Run (When (Step fun _ => true) fun _ l => isServing l = true) s
      [.poll,.visit,.lockTake,.deliver,.finish,.lockTake,.leave,.endPass] t ∧ 8 ≤ work s ∧ Settled t ∧
    (t.handle ()).handled = [zeroMsg] := by
  obtain ⟨s,t,posted,served,idle,outside,_,settled,⟨running,offered⟩,_⟩ := message_served
  have quiet : Quiet s := ⟨outside,by rw [idle]; trivial⟩
  have serving := served.when fun l inside => (by revert l; decide : isServing l = true)
  have all := loop_serves_all (fun _ => true) (fun _ => zeroHandle) posted quiet serving
  exact ⟨s,t,offered,serving,all.1,settled,(all.2.2 settled () running).trans offered⟩

end Armd.AsyncProgress
