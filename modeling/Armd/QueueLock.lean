import Armd.Channel

/-!
The mutex of a message queue. Between `pthread_mutex_lock` and
`pthread_mutex_unlock` the accesses of `armd_module_post` and of `async_callback`
to `msgs`, `head` and `tail` are steps of their own, between which the other
threads and the loop thread go on with theirs. Only the holder of `q_mutex` is in
such a section (`Guarded`), the holder can always go on (`holder_goes_on`), and
each run is one of `Armd.Channel`, in which a section is a single step
(`sections_are_atomic`).
-/
namespace Armd.QueueLock
open Armd.Runs Armd.BoundedQueue Armd.Message Armd.Queue
open Armd.Channel (Poster)
variable {P : Type} [DecidableEq P]

/-- Who holds `q_mutex`. -/
inductive Holder (P : Type)
  | poster (p : Poster P)
  | loop
  deriving DecidableEq

/-- Where a poster is in `armd_module_post`; in `computed` and later it has its `next_head`. -/
inductive PostPc
  | outside (ret : Option ℤ)
  | entered (msg : ArmdMsg)
  | locked (msg : ArmdMsg)
  | computed (msg : ArmdMsg) (nextHead : ℕ)
  | room (msg : ArmdMsg) (nextHead : ℕ)
  | copied (msg : ArmdMsg) (nextHead : ℕ)
  | stored
  | dropping
  | enqueued
  | full

/-- Where the loop thread is in `async_callback`. -/
inductive LoopPc
  | idle
  | top
  | locked
  | nonempty
  | drained
  | copied (msg : ArmdMsg)
  | advanced (msg : ArmdMsg)
  | taken (msg : ArmdMsg)
  | handling (msg : ArmdMsg)
  | leaving

structure State (P : Type) where
  queue : ArmdMsgQueue
  owner : Option (Holder P)
  pending : Bool
  poster : Poster P → PostPc
  loop : LoopPc
  history : List (FifoEvent ArmdMsg)
  handled : List ArmdMsg

inductive Label (P : Type)
  | call (p : Poster P) (msg : ArmdMsg)
  | post (p : Poster P)
  | dispatch
  | drain
  | deliver
  | finish
  | leave

def State.setPoster (s : State P) (p : Poster P) (pc : PostPc) : State P :=
  { s with poster := Function.update s.poster p pc }

/-- A thread may enter at any time, the handler only while `on_message` runs. -/
def mayCall (s : State P) : Poster P → Prop
  | .thread _ => True
  | .handler => ∃ msg, s.loop = .handling msg

/-- The steps, one access to the queue or to the mutex each. -/
inductive Step (onMessage : Bool) : State P → Label P → State P → Prop
  | call {s p msg ret} : s.poster p = .outside ret → mayCall s p →
      Step onMessage s (.call p msg) (s.setPoster p (.entered msg))
  | lock {s p msg} : s.poster p = .entered msg → s.owner = none →
      Step onMessage s (.post p) { s.setPoster p (.locked msg) with owner := some (.poster p) }
  | compute {s p msg} : s.poster p = .locked msg →
      Step onMessage s (.post p) (s.setPoster p (.computed msg ((s.queue.head+1) % queueSize)))
  | fits {s p msg nextHead} : s.poster p = .computed msg nextHead → nextHead ≠ s.queue.tail →
      Step onMessage s (.post p) (s.setPoster p (.room msg nextHead))
  | drop {s p msg nextHead} : s.poster p = .computed msg nextHead → nextHead = s.queue.tail →
      Step onMessage s (.post p) { s.setPoster p .dropping with history := s.history ++ [.offer msg false] }
  | copy {s p msg nextHead} : s.poster p = .room msg nextHead →
      Step onMessage s (.post p) { s.setPoster p (.copied msg nextHead) with
        queue := { s.queue with msgs := Function.update s.queue.msgs s.queue.head msg } }
  | store {s p msg nextHead} : s.poster p = .copied msg nextHead →
      Step onMessage s (.post p) { s.setPoster p .stored with
        queue := { s.queue with head := nextHead }
        history := s.history ++ [.offer msg true] }
  | unlock {s p} : s.poster p = .stored →
      Step onMessage s (.post p) { s.setPoster p .enqueued with owner := none }
  | unlockFull {s p} : s.poster p = .dropping →
      Step onMessage s (.post p) { s.setPoster p .full with owner := none }
  | send {s p} : s.poster p = .enqueued →
      Step onMessage s (.post p) { s.setPoster p (.outside (some 0)) with pending := true }
  | giveUp {s p} : s.poster p = .full → Step onMessage s (.post p) (s.setPoster p (.outside (some (-enospc))))
  | dispatch {s} : s.loop = .idle → s.pending = true →
      Step onMessage s .dispatch { s with loop := .top, pending := false }
  | lockLoop {s} : s.loop = .top → s.owner = none →
      Step onMessage s .drain { s with loop := .locked, owner := some .loop }
  | nonempty {s} : s.loop = .locked → s.queue.tail ≠ s.queue.head → Step onMessage s .drain { s with loop := .nonempty }
  | empty {s} : s.loop = .locked → s.queue.tail = s.queue.head → Step onMessage s .drain { s with loop := .drained }
  | copyOut {s} : s.loop = .nonempty → Step onMessage s .drain { s with loop := .copied (s.queue.msgs s.queue.tail) }
  | advance {s msg} : s.loop = .copied msg →
      Step onMessage s .drain { s with
        loop := .advanced msg
        queue := { s.queue with tail := (s.queue.tail+1) % queueSize }
        history := s.history ++ [.take msg] }
  | unlockTaken {s msg} : s.loop = .advanced msg → Step onMessage s .drain { s with loop := .taken msg, owner := none }
  | unlockEmpty {s} : s.loop = .drained → Step onMessage s .drain { s with loop := .leaving, owner := none }
  | deliver {s msg} : s.loop = .taken msg →
      Step onMessage s .deliver { s with
        loop := if onMessage then .handling msg else .top
        handled := s.handled ++ [msg] }
  | finish {s msg ret} : s.loop = .handling msg → s.poster .handler = .outside ret →
      Step onMessage s .finish { s with loop := .top }
  | leave {s} : s.loop = .leaving → Step onMessage s .leave { s with loop := .idle }

/-- A module right after `armd_module_start`, over whatever its queue memory held before. -/
def started (q : ArmdMsgQueue) : State P where
  queue := ArmdMsgQueue.reset { q with qMutex := .live }
  owner := none
  pending := false
  poster := fun _ => .outside none
  loop := .idle
  history := []
  handled := []

section
variable (s : State P) (p : Poster P) (pc : PostPc)

@[simp] theorem setPoster_self : (s.setPoster p pc).poster p = pc := by simp [State.setPoster]
theorem setPoster_of_ne {p' : Poster P} (other : p' ≠ p) : (s.setPoster p pc).poster p' = s.poster p' := by
  simp [State.setPoster,other]
@[simp] theorem setPoster_queue : (s.setPoster p pc).queue = s.queue := rfl
@[simp] theorem setPoster_owner : (s.setPoster p pc).owner = s.owner := rfl
@[simp] theorem setPoster_loop : (s.setPoster p pc).loop = s.loop := rfl

end

/-! ### One holder at a time -/

/-- The poster is between `pthread_mutex_lock` and `pthread_mutex_unlock`. -/
def PostPc.inside : PostPc → Bool
  | .locked _ => true
  | .computed _ _ => true
  | .room _ _ => true
  | .copied _ _ => true
  | .stored => true
  | .dropping => true
  | _ => false

def LoopPc.inside : LoopPc → Bool
  | .locked => true
  | .nonempty => true
  | .drained => true
  | .copied _ => true
  | .advanced _ => true
  | _ => false

/-- What a poster has read and written of the queue is still so. -/
def PostPc.Knows (q : ArmdMsgQueue) : PostPc → Prop
  | .computed _ nextHead => nextHead = (q.head+1) % queueSize
  | .room _ nextHead => nextHead = (q.head+1) % queueSize ∧ nextHead ≠ q.tail
  | .copied msg nextHead => nextHead = (q.head+1) % queueSize ∧ nextHead ≠ q.tail ∧ q.msgs q.head = msg
  | _ => True

def LoopPc.Knows (q : ArmdMsgQueue) : LoopPc → Prop
  | .nonempty => q.tail ≠ q.head
  | .copied msg => q.tail ≠ q.head ∧ msg = q.msgs q.tail
  | _ => True

def State.inside (s : State P) : Holder P → Bool
  | .poster p => (s.poster p).inside
  | .loop => s.loop.inside

def State.Knows (s : State P) (q : ArmdMsgQueue) : Holder P → Prop
  | .poster p => (s.poster p).Knows q
  | .loop => s.loop.Knows q

/-- Exactly the holder of the mutex is in a section, and what it has seen there holds. -/
structure Guarded (s : State P) : Prop where
  holds : ∀ a, s.inside a = true ↔ s.owner = some a
  knows : ∀ a, s.Knows s.queue a

/-- Only `a` has moved. -/
def Apart (a : Holder P) (s s' : State P) : Prop :=
  ∀ b, b ≠ a → s'.inside b = s.inside b ∧ ∀ q, s'.Knows q b = s.Knows q b

section
variable {s s' : State P}

private theorem apart_poster {p : Poster P} {pc : PostPc} (poster : s'.poster = (s.setPoster p pc).poster) (loop : s'.loop = s.loop) :
    Apart (.poster p) s s' := by
  intro b other
  cases b with
  | poster p' =>
    have notP : p' ≠ p := fun same => other (same ▸ rfl)
    have same : s'.poster p' = s.poster p' := by rw [poster,setPoster_of_ne _ _ _ notP]
    exact ⟨by simp only [State.inside,same],fun q => by simp only [State.Knows,same]⟩
  | loop => exact ⟨by simp only [State.inside,loop],fun q => by simp only [State.Knows,loop]⟩

omit [DecidableEq P] in
private theorem apart_loop (poster : s'.poster = s.poster) : Apart .loop s s' := by
  intro b other
  cases b with
  | poster p => exact ⟨by simp only [State.inside,poster],fun q => by simp only [State.Knows,poster]⟩
  | loop => exact absurd rfl other

omit [DecidableEq P] in
/-- Outside its section nobody relies on the queue. -/
private theorem knows_outside {a : Holder P} (q : ArmdMsgQueue) (out : s.inside a = false) : s.Knows q a := by
  cases a with
  | poster p => cases pc : s.poster p <;> simp_all [State.inside,State.Knows,PostPc.inside,PostPc.Knows]
  | loop => cases pc : s.loop <;> simp_all [State.inside,State.Knows,LoopPc.inside,LoopPc.Knows]

omit [DecidableEq P] in
/-- A move of one that writes the queue only in its section, and that takes or gives up nothing but its own mutex. -/
theorem Guarded.act (guarded : Guarded s) (a : Holder P) (apart : Apart a s s') (mine : s'.inside a = true ↔ s'.owner = some a)
    (theirs : ∀ b, b ≠ a → (s'.owner = some b ↔ s.owner = some b)) (knows : s'.Knows s'.queue a)
    (queue : s'.queue = s.queue ∨ s.inside a = true) : Guarded s' := by
  refine ⟨fun b => ?_,fun b => ?_⟩
  · by_cases same : b = a
    · rw [same]
      exact mine
    · rw [(apart b same).1,theirs b same]
      exact guarded.holds b
  · by_cases same : b = a
    · rw [same]
      exact knows
    · rw [(apart b same).2]
      rcases queue with unchanged | inside
      · rw [unchanged]
        exact guarded.knows b
      · have owner := (guarded.holds a).mp inside
        refine knows_outside _ (Bool.eq_false_iff.mpr fun inside' => same ?_)
        have owner' := (guarded.holds b).mp inside'
        rw [owner] at owner'
        exact (Option.some.inj owner').symm

omit [DecidableEq P] in
theorem Guarded.stay (guarded : Guarded s) (a : Holder P) (apart : Apart a s s') (owner : s'.owner = s.owner) (same : s'.inside a = s.inside a)
    (knows : s'.Knows s'.queue a) (queue : s'.queue = s.queue ∨ s.inside a = true) : Guarded s' :=
  guarded.act a apart (by rw [same,owner]; exact guarded.holds a) (fun _ _ => by rw [owner]) knows queue

omit [DecidableEq P] in
private theorem Guarded.acquire (guarded : Guarded s) (a : Holder P) (apart : Apart a s s') (free : s.owner = none) (owner : s'.owner = some a)
    (inside : s'.inside a = true) (knows : s'.Knows s'.queue a) (queue : s'.queue = s.queue) : Guarded s' :=
  guarded.act a apart (by simp [inside,owner]) (fun b other => by simp [free,owner,Ne.symm other]) knows (.inl queue)

omit [DecidableEq P] in
private theorem Guarded.release (guarded : Guarded s) (a : Holder P) (apart : Apart a s s') (inside : s.inside a = true) (owner : s'.owner = none)
    (out : s'.inside a = false) (queue : s'.queue = s.queue) : Guarded s' := by
  have before := (guarded.holds a).mp inside
  exact guarded.act a apart (by simp [out,owner]) (fun b other => by simp [before,owner,Ne.symm other]) (knows_outside _ out)
    (.inl queue)

variable {onMessage : Bool} {l : Label P}

private theorem guarded_step (guarded : Guarded s) (fires : Step onMessage s l s') : Guarded s' := by
  have posterKnows (p : Poster P) {pc : PostPc} (at_ : s.poster p = pc) : pc.Knows s.queue := at_ ▸ guarded.knows (.poster p)
  have loopKnows {pc : LoopPc} (at_ : s.loop = pc) : pc.Knows s.queue := at_ ▸ guarded.knows .loop
  cases fires with
  | @call p _ _ at_ | @send p at_ | @giveUp p at_ =>
    exact guarded.stay (.poster p) (apart_poster rfl rfl) rfl (by simp [State.inside,at_,PostPc.inside])
      (by simp [State.Knows,PostPc.Knows]) (.inl rfl)
  | @lock p msg at_ free =>
    exact guarded.acquire (.poster p) (apart_poster rfl rfl) free rfl (by simp [State.inside,PostPc.inside])
      (by simp [State.Knows,PostPc.Knows]) rfl
  | @compute p msg at_ =>
    exact guarded.stay (.poster p) (apart_poster rfl rfl) rfl (by simp [State.inside,at_,PostPc.inside])
      (by simp [State.Knows,PostPc.Knows]) (.inl rfl)
  | @fits p msg nextHead at_ room =>
    have next : nextHead = (s.queue.head+1) % queueSize := posterKnows p at_
    exact guarded.stay (.poster p) (apart_poster rfl rfl) rfl (by simp [State.inside,at_,PostPc.inside])
      (by simpa [State.Knows,PostPc.Knows] using ⟨next,room⟩) (.inl rfl)
  | @drop p msg nextHead at_ full =>
    exact guarded.stay (.poster p) (apart_poster rfl rfl) rfl (by simp [State.inside,at_,PostPc.inside])
      (by simp [State.Knows,PostPc.Knows]) (.inl rfl)
  | @copy p msg nextHead at_ =>
    obtain ⟨next,room⟩ : nextHead = (s.queue.head+1) % queueSize ∧ nextHead ≠ s.queue.tail := posterKnows p at_
    exact guarded.stay (.poster p) (apart_poster rfl rfl) rfl (by simp [State.inside,at_,PostPc.inside])
      (by simpa [State.Knows,PostPc.Knows] using ⟨next,room⟩) (.inr (by simp [State.inside,at_,PostPc.inside]))
  | @store p msg nextHead at_ =>
    exact guarded.stay (.poster p) (apart_poster rfl rfl) rfl (by simp [State.inside,at_,PostPc.inside])
      (by simp [State.Knows,PostPc.Knows]) (.inr (by simp [State.inside,at_,PostPc.inside]))
  | @unlock p at_ | @unlockFull p at_ =>
    exact guarded.release (.poster p) (apart_poster rfl rfl) (by simp [State.inside,at_,PostPc.inside]) rfl
      (by simp [State.inside,PostPc.inside]) rfl
  | dispatch at_ | finish at_ | leave at_ =>
    exact guarded.stay .loop (apart_loop rfl) rfl (by simp [State.inside,at_,LoopPc.inside]) trivial (.inl rfl)
  | deliver at_ =>
    refine guarded.stay .loop (apart_loop rfl) rfl ?_ ?_ (.inl rfl)
    · cases onMessage <;> simp [State.inside,at_,LoopPc.inside]
    · cases onMessage <;> trivial
  | lockLoop at_ free =>
    exact guarded.acquire .loop (apart_loop rfl) free rfl rfl trivial rfl
  | nonempty at_ some =>
    exact guarded.stay .loop (apart_loop rfl) rfl (by simp [State.inside,at_,LoopPc.inside]) some (.inl rfl)
  | empty at_ =>
    exact guarded.stay .loop (apart_loop rfl) rfl (by simp [State.inside,at_,LoopPc.inside]) trivial (.inl rfl)
  | copyOut at_ =>
    exact guarded.stay .loop (apart_loop rfl) rfl (by simp [State.inside,at_,LoopPc.inside]) ⟨loopKnows at_,rfl⟩ (.inl rfl)
  | advance at_ =>
    exact guarded.stay .loop (apart_loop rfl) rfl (by simp [State.inside,at_,LoopPc.inside]) trivial
      (.inr (by simp [State.inside,at_,LoopPc.inside]))
  | unlockTaken at_ | unlockEmpty at_ =>
    exact guarded.release .loop (apart_loop rfl) (by simp [State.inside,at_,LoopPc.inside]) rfl rfl rfl

end

/-! ### Sections are single steps -/

/-- A section has taken effect where `head` or `tail` is written, or where the queue is found full or empty. -/
def postOf : PostPc → Channel.PostPc
  | .outside ret => .outside ret
  | .entered msg => .entered msg
  | .locked msg => .entered msg
  | .computed msg _ => .entered msg
  | .room msg _ => .entered msg
  | .copied msg _ => .entered msg
  | .stored => .enqueued
  | .dropping => .full
  | .enqueued => .enqueued
  | .full => .full

def loopOf : LoopPc → Channel.LoopPc
  | .idle => .idle
  | .top => .top
  | .locked => .top
  | .nonempty => .top
  | .drained => .leaving
  | .copied _ => .top
  | .advanced msg => .taken msg
  | .taken msg => .taken msg
  | .handling msg => .handling msg
  | .leaving => .leaving

/-- The queues may differ in the cell at `head`, which a poster fills before it is one of the queue's. -/
structure Matches (s : State P) (c : Channel.State P) : Prop where
  head : c.queue.head = s.queue.head
  tail : c.queue.tail = s.queue.tail
  cells : ∀ i, i ≠ s.queue.head → c.queue.msgs i = s.queue.msgs i
  pending : c.pending = s.pending
  posters : ∀ p, c.poster p = postOf (s.poster p)
  loop : c.loop = loopOf s.loop
  history : c.history = s.history
  handled : c.handled = s.handled

section
variable {onMessage : Bool} {s s' : State P} {c : Channel.State P} {l : Label P}

theorem Matches.moved (same : Matches s c) (p : Poster P) {pc : PostPc} {pc' : Channel.PostPc} (stands : pc' = postOf pc)
    (p' : Poster P) : (c.setPoster p pc').poster p' = postOf ((s.setPoster p pc).poster p') := by
  by_cases isP : p' = p
  · subst isP
    rw [Channel.setPoster_self,setPoster_self,stands]
  · rw [Channel.setPoster_of_ne _ _ isP,setPoster_of_ne _ _ _ isP,same.posters]

theorem Matches.stayed (same : Matches s c) (p : Poster P) {pc : PostPc} (still : postOf pc = postOf (s.poster p)) (p' : Poster P) :
    c.poster p' = postOf ((s.setPoster p pc).poster p') := by
  by_cases isP : p' = p
  · subst isP
    rw [setPoster_self,still,same.posters]
  · rw [setPoster_of_ne _ _ _ isP,same.posters]

/-- Every step is the step of the section, or none. -/
private theorem matches_step (guarded : Guarded s) (same : Matches s c) (fires : Step onMessage s l s') :
    ∃ ls c', Run (Channel.Step onMessage) c ls c' ∧ Matches s' c' := by
  have stutter (same' : Matches s' c) : ∃ ls c', Run (Channel.Step onMessage) c ls c' ∧ Matches s' c' := ⟨[],c,.nil,same'⟩
  have step {l : Channel.Label P} {c' : Channel.State P} (fires : Channel.Step onMessage c l c') (same' : Matches s' c') :
      ∃ ls c', Run (Channel.Step onMessage) c ls c' ∧ Matches s' c' := ⟨[l],c',.single fires,same'⟩
  have at' {p : Poster P} {pc : PostPc} (at_ : s.poster p = pc) : c.poster p = postOf pc := by rw [same.posters,at_]
  have in' {pc : LoopPc} (at_ : s.loop = pc) : c.loop = loopOf pc := by rw [same.loop,at_]
  cases fires with
  | @call p msg ret at_ may =>
    have may' : Channel.mayCall c p = true := by
      cases p with
      | thread p => rfl
      | handler =>
        obtain ⟨msg',busy⟩ := may
        simp [Channel.mayCall,in' busy,loopOf]
    exact step (.call (at' at_) may') { same with posters := same.moved p rfl }
  | @lock p msg at_ | @compute p msg at_ | @fits p msg nextHead at_ =>
    exact stutter { same with posters := same.stayed p (by rw [at_]; rfl) }
  | @copy p msg nextHead at_ =>
    refine stutter { same with posters := same.stayed p (by rw [at_]; rfl), cells := fun i other => ?_ }
    show c.queue.msgs i = Function.update s.queue.msgs s.queue.head msg i
    rw [Function.update_of_ne other]
    exact same.cells i other
  | @drop p msg nextHead at_ full =>
    have next : nextHead = (s.queue.head+1) % queueSize := by
      have knows := guarded.knows (.poster p)
      rw [State.Knows,at_] at knows
      exact knows
    have refused : c.queue.post msg = none := by simp [ArmdMsgQueue.post,same.head,same.tail,← next,full]
    exact step (.reject (at' at_) refused) { same with
      posters := same.moved p rfl
      history := by simp [same.history] }
  | @store p msg nextHead at_ =>
    obtain ⟨next,room,cell⟩ : nextHead = (s.queue.head+1) % queueSize ∧ nextHead ≠ s.queue.tail ∧ s.queue.msgs s.queue.head = msg := by
      have knows := guarded.knows (.poster p)
      rw [State.Knows,at_] at knows
      exact knows
    have posted : c.queue.post msg =
        some { c.queue with msgs := Function.update c.queue.msgs c.queue.head msg, head := nextHead } := by
      simp [ArmdMsgQueue.post,same.head,same.tail,← next,room]
    refine step (.accept (at' at_) posted) { same with
      head := rfl
      posters := same.moved p rfl
      cells := fun i _ => ?_
      history := by simp [same.history] }
    show Function.update c.queue.msgs c.queue.head msg i = s.queue.msgs i
    by_cases here : i = s.queue.head
    · rw [here,same.head,Function.update_self,cell]
    · rw [same.head,Function.update_of_ne here]
      exact same.cells i here
  | @unlock p at_ | @unlockFull p at_ => exact stutter { same with posters := same.stayed p (by rw [at_]; rfl) }
  | @send p at_ => exact step (.send (at' at_)) { same with posters := same.moved p rfl, pending := rfl }
  | @giveUp p at_ => exact step (.giveUp (at' at_)) { same with posters := same.moved p rfl }
  | dispatch at_ set => exact step (.dispatch (in' at_) (same.pending.trans set)) { same with loop := rfl, pending := rfl }
  | lockLoop at_ | nonempty at_ | copyOut at_ | unlockTaken at_ | unlockEmpty at_ =>
    exact stutter { same with loop := (in' at_).trans rfl }
  | empty at_ drained =>
    have nothing : c.queue.take = none := by simp [ArmdMsgQueue.take,same.head,same.tail,drained]
    exact step (.empty (in' at_) nothing) { same with loop := rfl }
  | @advance msg at_ =>
    obtain ⟨waits,cell⟩ : s.queue.tail ≠ s.queue.head ∧ msg = s.queue.msgs s.queue.tail := by
      have knows := guarded.knows .loop
      rw [State.Knows,at_] at knows
      exact knows
    have got : c.queue.take = some (msg,{ c.queue with tail := (s.queue.tail+1) % queueSize }) := by
      simp [ArmdMsgQueue.take,same.head,same.tail,waits,same.cells _ waits,cell]
    exact step (.take (in' at_) got) { same with
      tail := rfl
      loop := rfl
      history := by simp [same.history] }
  | deliver at_ =>
    exact step (.deliver (in' at_)) { same with
      loop := by cases onMessage <;> rfl
      handled := by simp [same.handled] }
  | finish at_ out => exact step (.finish (in' at_) (at' out)) { same with loop := rfl }
  | leave at_ => exact step (.leave (in' at_)) { same with loop := rfl }

omit [DecidableEq P] in
/-- The cell at `head` is none of the queue's, so both queues hold the same messages. -/
private theorem Matches.pending_eq (same : Matches s c) (inside : c.queue.InBounds) : s.queue.pending = c.queue.pending := by
  unfold ArmdMsgQueue.pending contents
  rw [same.head,same.tail]
  apply List.map_congr_left
  intro i member
  have headIn := inside.head
  have tailIn := inside.tail
  rw [same.head] at headIn
  rw [same.tail] at tailIn
  exact (same.cells _ (cell_ne_head headIn tailIn (List.mem_range.mp member))).symm

omit [DecidableEq P] in
private theorem guarded_started (q : ArmdMsgQueue) : Guarded (started q : State P) := by
  constructor
  · intro a
    cases a <;> simp [started,State.inside,PostPc.inside,LoopPc.inside]
  · intro a
    cases a <;> trivial

omit [DecidableEq P] in
private theorem matches_started (q : ArmdMsgQueue) : Matches (started q : State P) (Channel.started q) :=
  ⟨rfl,rfl,fun _ _ => rfl,rfl,fun _ => rfl,rfl,rfl,rfl⟩

private theorem guarded_run {q : ArmdMsgQueue} {ls : List (Label P)} (run : Run (Step onMessage) (started q) ls s) : Guarded s :=
  run.invariant Guarded (guarded_started q) fun _ _ _ guarded fires => guarded_step guarded fires

private theorem matches_run {q : ArmdMsgQueue} {ls : List (Label P)} (run : Run (Step onMessage) (started q) ls s) :
    ∃ ls' c, Run (Channel.Step onMessage) (Channel.started q) ls' c ∧ Matches s c := by
  induction run with
  | nil => exact ⟨[],_,.nil,matches_started q⟩
  | snoc before fires ih =>
    obtain ⟨ls',c,run,same⟩ := ih
    obtain ⟨more,c',goes,same'⟩ := matches_step (guarded_run before) same fires
    exact ⟨ls' ++ more,c',run.trans goes,same'⟩

end

/-- For any number of posters and every interleaving of their single accesses with those of the loop thread, what happens to
    the queue is a run in which each section under the mutex is one step; so its messages are those of the bounded queue. -/
theorem sections_are_atomic (onMessage : Bool) (q : ArmdMsgQueue) {ls : List (Label P)} {s : State P}
    (run : Run (Step onMessage) (started q) ls s) :
    (∃ ls' c, Run (Channel.Step onMessage) (Channel.started q) ls' c ∧ Matches s c) ∧
      Run (FifoStep (queueSize-1)) [] s.history s.queue.pending := by
  obtain ⟨ls',c,runs,same⟩ := matches_run run
  have refines := Channel.refines_run runs
  refine ⟨⟨ls',c,runs,same⟩,?_⟩
  rw [same.pending_eq refines.inBounds,← same.history]
  exact refines.fifo

/-- A thread is between its copy of the message and its write of `head`. -/
theorem sections_are_atomic_one : ∃ s : State Unit,
    Run (Step true) (started zeroQueue)
      [.call (.thread ()) zeroMsg,.post (.thread ()),.post (.thread ()),.post (.thread ()),.post (.thread ())] s ∧
      Run (FifoStep (queueSize-1)) [] s.history s.queue.pending := by
  have run : ∃ s : State Unit, Run (Step true) (started zeroQueue)
      [.call (.thread ()) zeroMsg,.post (.thread ()),.post (.thread ()),.post (.thread ()),.post (.thread ())] s :=
    ⟨_,((((Run.single (.call rfl trivial)).snoc (.lock rfl rfl)).snoc (.compute rfl)).snoc
      (.fits rfl (by decide))).snoc (.copy rfl)⟩
  obtain ⟨s,run⟩ := run
  exact ⟨s,run,(sections_are_atomic true zeroQueue run).2⟩

/-! ### The mutex is handed on -/

/-- The steps of its own that the holder has left before it unlocks. -/
def PostPc.left : PostPc → ℕ
  | .locked _ => 5
  | .computed _ _ => 4
  | .room _ _ => 3
  | .copied _ _ => 2
  | .stored => 1
  | .dropping => 1
  | _ => 0

def LoopPc.left : LoopPc → ℕ
  | .locked => 4
  | .nonempty => 3
  | .copied _ => 2
  | .advanced _ => 1
  | .drained => 1
  | _ => 0

def State.left (s : State P) : Holder P → ℕ
  | .poster p => (s.poster p).left
  | .loop => s.loop.left

/-- The label of the steps that a thread takes by itself inside its section. -/
def Holder.label : Holder P → Label P
  | .poster p => .post p
  | .loop => .drain

/-- The thread can take its next step, and each that it may take unlocks the mutex or brings it nearer to that. -/
def GoesOn (onMessage : Bool) (s : State P) (a : Holder P) : Prop :=
  (∃ s', Step onMessage s a.label s') ∧ ∀ s', Step onMessage s a.label s' →
    s'.owner = none ∨ (s'.owner = some a ∧ s'.left a < s.left a)

section
variable {onMessage : Bool} {s s' : State P}

private theorem inside_enabled {a : Holder P} (inside : s.inside a = true) : ∃ s', Step onMessage s a.label s' := by
  cases a with
  | poster p =>
    cases at_ : s.poster p with
    | locked msg => exact ⟨_,.compute at_⟩
    | computed msg nextHead =>
      by_cases full : nextHead = s.queue.tail
      · exact ⟨_,.drop at_ full⟩
      · exact ⟨_,.fits at_ full⟩
    | room msg nextHead => exact ⟨_,.copy at_⟩
    | copied msg nextHead => exact ⟨_,.store at_⟩
    | stored => exact ⟨_,.unlock at_⟩
    | dropping => exact ⟨_,.unlockFull at_⟩
    | _ => simp [State.inside,at_,PostPc.inside] at inside
  | loop =>
    cases at_ : s.loop with
    | locked =>
      by_cases drained : s.queue.tail = s.queue.head
      · exact ⟨_,.empty at_ drained⟩
      · exact ⟨_,.nonempty at_ drained⟩
    | nonempty => exact ⟨_,.copyOut at_⟩
    | copied msg => exact ⟨_,.advance at_⟩
    | advanced msg => exact ⟨_,.unlockTaken at_⟩
    | drained => exact ⟨_,.unlockEmpty at_⟩
    | _ => simp [State.inside,at_,LoopPc.inside] at inside

private theorem holder_poster (guarded : Guarded s) {p : Poster P} (owner : s.owner = some (.poster p))
    (fires : Step onMessage s (.post p) s') :
    s'.owner = none ∨ (s'.owner = some (.poster p) ∧ s'.left (.poster p) < s.left (.poster p)) := by
  have inside := (guarded.holds (.poster p)).mpr owner
  cases fires with
  | lock _ free =>
    rw [free] at owner
    cases owner
  | compute at_ | fits at_ | drop at_ | copy at_ | store at_ =>
    exact .inr ⟨owner,by simp [State.left,at_,PostPc.left]⟩
  | unlock | unlockFull => exact .inl rfl
  | send at_ | giveUp at_ => simp [State.inside,at_,PostPc.inside] at inside

private theorem holder_loop (owner : s.owner = some .loop) (fires : Step onMessage s .drain s') :
    s'.owner = none ∨ (s'.owner = some .loop ∧ s'.left .loop < s.left .loop) := by
  cases fires with
  | lockLoop _ free =>
    rw [free] at owner
    cases owner
  | nonempty at_ | empty at_ | copyOut at_ | advance at_ => exact .inr ⟨owner,by simp [State.left,at_,LoopPc.left]⟩
  | unlockTaken | unlockEmpty => exact .inl rfl

theorem holder_goes_on (guarded : Guarded s) {a : Holder P} (owner : s.owner = some a) : GoesOn onMessage s a := by
  refine ⟨inside_enabled ((guarded.holds a).mpr owner),fun s' fires => ?_⟩
  cases a with
  | poster p => exact holder_poster guarded owner fires
  | loop => exact holder_loop owner fires

/-- The holder's own steps lead to the unlock. -/
private theorem holder_unlocks (work : ℕ) : ∀ {s : State P} {a : Holder P}, Guarded s → s.owner = some a → s.left a ≤ work →
    ∃ n s', Run (Step onMessage) s (List.replicate n a.label) s' ∧ s'.owner = none := by
  induction work with
  | zero =>
    intro s a guarded owner done
    obtain ⟨⟨t,fires⟩,nearer⟩ := holder_goes_on guarded owner
    rcases nearer t fires with free | ⟨_,less⟩
    · exact ⟨1,t,Run.single fires,free⟩
    · omega
  | succ work ih =>
    intro s a guarded owner bound
    obtain ⟨⟨t,fires⟩,nearer⟩ := holder_goes_on guarded owner
    rcases nearer t fires with free | ⟨owner',less⟩
    · exact ⟨1,t,Run.single fires,free⟩
    · obtain ⟨n,s',run,free⟩ := ih (guarded_step guarded fires) owner' (by omega)
      exact ⟨n+1,s',(Run.single fires).trans run,free⟩

end

/-- Of all posters and the loop thread at most one is in its section, the holder of the mutex, and from wherever it is
    there its own steps are enabled and lead to the unlock. -/
theorem mutex_is_handed_on (onMessage : Bool) (q : ArmdMsgQueue) {ls : List (Label P)} {s : State P}
    (run : Run (Step onMessage) (started q) ls s) :
    (∀ a b, s.inside a = true → s.inside b = true → a = b) ∧ ∀ a, (s.inside a = true ↔ s.owner = some a) ∧
      (s.inside a = true → GoesOn onMessage s a ∧
        ∃ n s', Run (Step onMessage) s (List.replicate n a.label) s' ∧ s'.owner = none) := by
  have guarded := guarded_run run
  refine ⟨fun a b inside inside' => ?_,fun a => ⟨guarded.holds a,fun inside => ?_⟩⟩
  · have owner := (guarded.holds a).mp inside
    rw [(guarded.holds b).mp inside'] at owner
    exact (Option.some.inj owner).symm
  · have owner := (guarded.holds a).mp inside
    exact ⟨holder_goes_on guarded owner,holder_unlocks _ guarded owner le_rfl⟩

/-- A thread is inside while another one waits for the mutex. -/
theorem mutex_is_handed_on_one : ∃ s : State Bool,
    Run (Step true) (started zeroQueue)
      [.call (.thread false) zeroMsg,.call (.thread true) zeroMsg,.post (.thread false),.post (.thread false)] s ∧
      GoesOn true s (.poster (.thread false)) ∧
        ∃ n s', Run (Step true) s (List.replicate n (.post (.thread false))) s' ∧ s'.owner = none := by
  have run : ∃ s : State Bool, Run (Step true) (started zeroQueue)
      [.call (.thread false) zeroMsg,.call (.thread true) zeroMsg,.post (.thread false),.post (.thread false)] s ∧
        s.inside (.poster (.thread false)) = true :=
    ⟨_,(((Run.single (.call rfl trivial)).snoc (.call rfl trivial)).snoc (.lock rfl rfl)).snoc (.compute rfl),rfl⟩
  obtain ⟨s,run,inside⟩ := run
  exact ⟨s,run,((mutex_is_handed_on true zeroQueue run).2 _).2 inside⟩

end Armd.QueueLock
