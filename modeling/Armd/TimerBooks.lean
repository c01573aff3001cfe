import Mathlib.Data.Prod.Lex
import Mathlib.Data.List.Count
import Armd.Timers

/-!
What the timer calls do to the books of a loop, without its pointers. A call
changes the record of one timer and may take it off the queue of timers that
wait to be fired (`act`, `queueAfter`); a pass of `uv__run_timers` stops the
timers that are due, in order, and fires those that no callback before has
stopped (`fireList`). `Sound` books keep that every active timer is a handle of
the loop with a callback, that those on the queue are not active, and that the
loop counts its active handles.
-/
namespace Armd.TimerBooks
open Armd.BinaryHeap Armd.Timers
variable {T C : Type} [DecidableEq T]

def TimerCall.target : TimerCall T C → T
  | .init t => t
  | .start t _ _ _ => t
  | .stop t => t
  | .again t => t
  | .setRepeat t _ => t
  | .ref t => t
  | .unref t => t
  | .close t => t

/-- A closing timer and one without a callback are not started. -/
def startTimer (b : Books T C) (t : T) (cb : Option C) (timeout repeat_ : ℕ) : Books T C :=
  if (b.timers t).closing ∨ (b.timers t).closed ∨ cb.isNone then b
  else ((b.uvHandleStop t).armTimer t cb timeout repeat_).uvHandleStart t

def againTimer (b : Books T C) (t : T) : Books T C :=
  if (b.timers t).timerCb.isNone then b
  else if (b.timers t).repeat_ ≠ 0 then
    startTimer (b.uvHandleStop t) t (b.timers t).timerCb (b.timers t).repeat_ (b.timers t).repeat_
  else b

def closeTimer (b : Books T C) (t : T) : Books T C :=
  let b := (b.setTimer t { b.timers t with closing := true }).uvHandleStop t
  { b with closingHandles := t :: b.closingHandles }

def act (b : Books T C) : TimerCall T C → Books T C
  | .init t => b.initTimer t
  | .start t cb timeout repeat_ => startTimer b t cb timeout repeat_
  | .stop t => b.uvHandleStop t
  | .again t => againTimer b t
  | .setRepeat t repeat_ => b.uvTimerSetRepeat t repeat_
  | .ref t => b.uvHandleRef t
  | .unref t => b.uvHandleUnref t
  | .close t => closeTimer b t

/-- The call stops its timer, whatever it does to it then. -/
def Stops (b : Books T C) : TimerCall T C → Prop
  | .start t cb _ _ => ¬ ((b.timers t).closing ∨ (b.timers t).closed ∨ cb.isNone)
  | .stop _ => True
  | .again t => (b.timers t).timerCb.isSome ∧ (b.timers t).repeat_ ≠ 0
  | .close _ => True
  | _ => False

instance (b : Books T C) : (call : TimerCall T C) → Decidable (Stops b call)
  | .start t cb _ _ => inferInstanceAs (Decidable (¬ ((b.timers t).closing ∨ (b.timers t).closed ∨ cb.isNone)))
  | .again t => inferInstanceAs (Decidable ((b.timers t).timerCb.isSome ∧ (b.timers t).repeat_ ≠ 0))
  | .stop _ => inferInstanceAs (Decidable True)
  | .close _ => inferInstanceAs (Decidable True)
  | .init _ => inferInstanceAs (Decidable False)
  | .setRepeat _ _ => inferInstanceAs (Decidable False)
  | .ref _ => inferInstanceAs (Decidable False)
  | .unref _ => inferInstanceAs (Decidable False)

def queueAfter (b : Books T C) (q : List T) (call : TimerCall T C) : List T :=
  if Stops b call then q.erase (TimerCall.target call) else q

/-- What a program owes the library: handles are initialised first and closed once, times are `uint64_t`. -/
def Allowed (b : Books T C) : TimerCall T C → Prop
  | .init t => t ∉ b.handleQueue ∧ b.handleQueue.length+2 < uintMax
  | .start t _ timeout repeat_ => t ∈ b.handleQueue ∧ timeout < u64 ∧ repeat_ < u64
  | .setRepeat t repeat_ => t ∈ b.handleQueue ∧ repeat_ < u64
  | .close t => t ∈ b.handleQueue ∧ (b.timers t).closing = false ∧ (b.timers t).closed = false
  | call => TimerCall.target call ∈ b.handleQueue

/-- A call and the queue, with the call on record. -/
def turn (s : Books T C × List T) (call : TimerCall T C) : Books T C × List T :=
  ((act s.1 call).note (.called call (act s.1 call).time),queueAfter s.1 s.2 call)

def AllAllowed : Books T C → List (TimerCall T C) → Prop
  | _, [] => True
  | b, call :: calls => Allowed b call ∧ AllAllowed (turn (b,[]) call).1 calls

/-- The timer at the head of the queue is started again if it repeats and fired; the callback's calls follow. -/
def fireOne (code : C → T → Books T C → List (TimerCall T C)) (b : Books T C) (q : List T) (t : T) :
    Books T C × List T :=
  let b := againTimer b t
  match (b.timers t).timerCb with
  | none => (b,q)
  | some cb =>
    let b := b.note (.fired t b.time)
    (code cb t b).foldl turn (b,q)

def fireList (code : C → T → Books T C → List (TimerCall T C)) : ℕ → Books T C → List T → Books T C
  | n+1, b, t :: q => fireList code n (fireOne code b q t).1 (fireOne code b q t).2
  | _, b, _ => b

/-- A timer's place in the order of firing. -/
def order (timers : T → UvTimer C) (node : Node T) : ℕ ×ₗ ℕ :=
  toLex ((containerOf timers node).timeout,(containerOf timers node).startId)

/-- The timers that are due, each once, in order. -/
structure DueList (b : Books T C) (due : List T) : Prop where
  nodup : due.Nodup
  mem : ∀ t, t ∈ due ↔ (b.timers t).active = true ∧ (b.timers t).timeout ≤ b.time
  sorted : due.Pairwise fun t u => order b.timers (.timer t) ≤ order b.timers (.timer u)

def stopAll (b : Books T C) (due : List T) : Books T C := due.foldl Books.uvHandleStop b

structure Sound (others : ℕ) (b : Books T C) (q : List T) : Prop where
  nodup : b.handleQueue.Nodup
  room : b.handleQueue.length+1 < uintMax
  known : ∀ t, (b.timers t).active = true → t ∈ b.handleQueue
  live : ∀ t, (b.timers t).active = true ∨ t ∈ q →
    (b.timers t).timerCb ≠ none ∧ (b.timers t).closing = false ∧ (b.timers t).closed = false
  distinct : q.Nodup
  waiting : ∀ t ∈ q, t ∈ b.handleQueue ∧ (b.timers t).active = false
  counted : b.activeHandles = others + b.handleQueue.countP fun t => (b.timers t).active && (b.timers t).ref
  pending : ∀ t, t ∈ b.closingHandles ↔ t ∈ b.handleQueue ∧ (b.timers t).closing = true
  once : b.closingHandles.Nodup
  finished : ∀ t ∈ b.handleQueue, (b.timers t).closed = false

/-! ### What each change leaves -/

section
variable (b : Books T C) (t : T) (on : Bool)

@[simp] theorem changeActive_timers :
    (b.changeActive t on).timers = Function.update b.timers t { b.timers t with active := on } := by
  unfold Books.changeActive
  split
  · rename_i same
    rw [← same]
    exact (Function.update_eq_self t b.timers).symm
  · dsimp only
    split <;> rfl

@[simp] theorem changeRef_timers :
    (b.changeRef t on).timers = Function.update b.timers t { b.timers t with ref := on } := by
  unfold Books.changeRef
  split
  · rename_i same
    rw [← same]
    exact (Function.update_eq_self t b.timers).symm
  · dsimp only
    split
    · rfl
    · split <;> rfl

/-- What a change of one handle leaves as it is. -/
structure SameBooks (b b' : Books T C) : Prop where
  handleQueue : b'.handleQueue = b.handleQueue
  closingHandles : b'.closingHandles = b.closingHandles
  time : b'.time = b.time
  events : b'.events = b.events

omit [DecidableEq T] in
theorem sameBooks_refl : SameBooks b b := ⟨rfl,rfl,rfl,rfl⟩

variable {b} in
omit [DecidableEq T] in
theorem SameBooks.trans {b' b'' : Books T C} (first : SameBooks b b') (second : SameBooks b' b'') : SameBooks b b'' :=
  ⟨second.handleQueue.trans first.handleQueue,second.closingHandles.trans first.closingHandles,
    second.time.trans first.time,second.events.trans first.events⟩

theorem sameBooks_changeActive : SameBooks b (b.changeActive t on) := by
  unfold Books.changeActive
  split
  · exact ⟨rfl,rfl,rfl,rfl⟩
  · dsimp only
    split <;> exact ⟨rfl,rfl,rfl,rfl⟩

theorem sameBooks_changeRef : SameBooks b (b.changeRef t on) := by
  unfold Books.changeRef
  split
  · exact ⟨rfl,rfl,rfl,rfl⟩
  · dsimp only
    split
    · exact ⟨rfl,rfl,rfl,rfl⟩
    · split <;> exact ⟨rfl,rfl,rfl,rfl⟩

theorem sameBooks_startTimer (cb : Option C) (timeout repeat_ : ℕ) : SameBooks b (startTimer b t cb timeout repeat_) := by
  unfold startTimer
  split
  · exact sameBooks_refl b
  · have armed : SameBooks (b.uvHandleStop t) ((b.uvHandleStop t).armTimer t cb timeout repeat_) := ⟨rfl,rfl,rfl,rfl⟩
    exact ((sameBooks_changeActive b t false).trans armed).trans (sameBooks_changeActive _ t true)

theorem sameBooks_againTimer : SameBooks b (againTimer b t) := by
  unfold againTimer
  split
  · exact sameBooks_refl b
  · split
    · exact (sameBooks_changeActive b t false).trans (sameBooks_startTimer _ t _ _ _)
    · exact sameBooks_refl b

end

/-- The share of a timer in the loop's count. -/
def share (timer : UvTimer C) : ℕ := if timer.active && timer.ref then 1 else 0

omit [DecidableEq T] in
theorem countP_same {xs : List T} {f g : T → Bool} {t : T} (same : ∀ u, u ≠ t → g u = f u) (absent : t ∉ xs) :
    xs.countP g = xs.countP f := by
  refine List.countP_congr fun u member => ?_
  rw [same u fun isT => absent (isT ▸ member)]

omit [DecidableEq T] in
/-- Of a list without duplicates only the element whose mark changes counts otherwise. -/
theorem countP_change {xs : List T} {f g : T → Bool} {t : T} (distinct : xs.Nodup) (member : t ∈ xs)
    (same : ∀ u, u ≠ t → g u = f u) :
    xs.countP g + (if f t then 1 else 0) = xs.countP f + (if g t then 1 else 0) := by
  obtain ⟨front,back,rfl⟩ := List.append_of_mem member
  have absent := (List.nodup_cons.mp (List.nodup_middle.mp distinct)).1
  simp only [List.mem_append,not_or] at absent
  rw [List.countP_append,List.countP_append,List.countP_cons,List.countP_cons,countP_same same absent.1,
    countP_same same absent.2]
  omega

/-- A change of one handle's record keeps the books sound when the count follows it. -/
theorem Sound.edit {others : ℕ} {b b' : Books T C} {q : List T} {t : T} {r : UvTimer C} (sound : Sound others b q)
    (member : t ∈ b.handleQueue) (timers : b'.timers = Function.update b.timers t r)
    (queue : b'.handleQueue = b.handleQueue)
    (pending : ∀ u, u ∈ b'.closingHandles ↔ u ∈ b'.handleQueue ∧ (b'.timers u).closing = true) (once : b'.closingHandles.Nodup)
    (live : r.active = true ∨ t ∈ q → r.timerCb ≠ none ∧ r.closing = false) (closed : r.closed = false)
    (waiting : t ∈ q → r.active = false)
    (counted : b'.activeHandles + share (b.timers t) = b.activeHandles + share r) : Sound others b' q := by
  have here : b'.timers t = r := by rw [timers,Function.update_self]
  have away : ∀ u, u ≠ t → b'.timers u = b.timers u := fun u other => by rw [timers,Function.update_of_ne other]
  constructor
  · rw [queue]; exact sound.nodup
  · rw [queue]; exact sound.room
  · intro u active
    rw [queue]
    by_cases same : u = t
    · rw [same]; exact member
    · rw [away u same] at active; exact sound.known u active
  · intro u up
    by_cases same : u = t
    · subst same
      rw [here] at up ⊢
      exact ⟨(live up).1,(live up).2,closed⟩
    · rw [away u same] at up ⊢; exact sound.live u up
  · exact sound.distinct
  · intro u inside
    rw [queue]
    refine ⟨(sound.waiting u inside).1,?_⟩
    by_cases same : u = t
    · subst same; rw [here]; exact waiting inside
    · rw [away u same]; exact (sound.waiting u inside).2
  · have change : b.handleQueue.countP (fun u => (b'.timers u).active && (b'.timers u).ref) + _ =
        b.handleQueue.countP (fun u => (b.timers u).active && (b.timers u).ref) + _ :=
      countP_change sound.nodup member fun u other => by simp only [away u other]
    have before := sound.counted
    simp only [here] at change
    simp only [share] at counted
    rw [queue]
    omega
  · exact pending
  · exact once
  · intro u inside
    rw [queue] at inside
    by_cases same : u = t
    · subst same; rw [here]; exact closed
    · rw [away u same]; exact sound.finished u inside

section
variable {others : ℕ} {b : Books T C} {q : List T} {t : T}

omit [DecidableEq T] in
/-- Books that agree on the handles are as sound. -/
theorem Sound.congr {b' : Books T C} (sound : Sound others b q) (timers : b'.timers = b.timers)
    (queue : b'.handleQueue = b.handleQueue) (closings : b'.closingHandles = b.closingHandles)
    (handles : b'.activeHandles = b.activeHandles) : Sound others b' q := by
  constructor
  · rw [queue]; exact sound.nodup
  · rw [queue]; exact sound.room
  · rw [timers,queue]; exact sound.known
  · rw [timers]; exact sound.live
  · exact sound.distinct
  · rw [timers,queue]; exact sound.waiting
  · rw [timers,queue,handles]; exact sound.counted
  · rw [timers,queue,closings]; exact sound.pending
  · rw [closings]; exact sound.once
  · rw [timers,queue]; exact sound.finished

/-- A timer may leave the queue at any time. -/
theorem Sound.erase (sound : Sound others b q) (t : T) : Sound others b (q.erase t) :=
  { sound with
    live := fun u up => sound.live u (up.imp_right List.mem_of_mem_erase)
    distinct := sound.distinct.erase t
    waiting := fun u inside => sound.waiting u (List.mem_of_mem_erase inside) }

omit [DecidableEq T] in
/-- An inactive handle with a callback joins the queue. -/
theorem Sound.push (sound : Sound others b q) (member : t ∈ b.handleQueue) (fresh : t ∉ q)
    (idle : (b.timers t).active = false) (callback : (b.timers t).timerCb ≠ none) (open_ : (b.timers t).closing = false) :
    Sound others b (q ++ [t]) :=
  { sound with
    live := by
      rintro u (up | inside)
      · exact sound.live u (.inl up)
      · rcases List.mem_append.mp inside with before | last
        · exact sound.live u (.inr before)
        · rw [List.mem_singleton.mp last]
          exact ⟨callback,open_,sound.finished t member⟩
    distinct := by
      refine List.nodup_append.mpr ⟨sound.distinct,by simp,?_⟩
      intro a inside c last same
      rw [List.mem_singleton] at last
      exact fresh (last ▸ same ▸ inside)
    waiting := by
      intro u inside
      rcases List.mem_append.mp inside with before | last
      · exact sound.waiting u before
      · rw [List.mem_singleton.mp last]
        exact ⟨member,idle⟩ }

omit [DecidableEq T] in
theorem Sound.share_le (sound : Sound others b q) (member : t ∈ b.handleQueue) : share (b.timers t) ≤ b.activeHandles := by
  unfold share
  split
  · rename_i counts
    have some : 0 < b.handleQueue.countP fun u => (b.timers u).active && (b.timers u).ref :=
      List.countP_pos_iff.mpr ⟨t,member,counts⟩
    have total := sound.counted
    omega
  · omega

theorem changeActive_counted (counted : share (b.timers t) ≤ b.activeHandles) (on : Bool) :
    (b.changeActive t on).activeHandles + share (b.timers t) =
      b.activeHandles + share { b.timers t with active := on } := by
  unfold Books.changeActive
  cases up : (b.timers t).active <;> cases kept : (b.timers t).ref <;> cases on <;>
    simp_all [share,Books.setTimer,Books.countHandle]

theorem changeRef_counted (counted : share (b.timers t) ≤ b.activeHandles)
    (open_ : (b.timers t).active = true → (b.timers t).closing = false) (on : Bool) :
    (b.changeRef t on).activeHandles + share (b.timers t) = b.activeHandles + share { b.timers t with ref := on } := by
  unfold Books.changeRef
  cases up : (b.timers t).active <;> cases kept : (b.timers t).ref <;> cases on <;>
    simp_all [share,Books.setTimer,Books.countHandle]

omit [DecidableEq T] in
/-- The closing handles stay those of the list while no handle starts to close. -/
theorem Sound.pending_of {b' : Books T C} (sound : Sound others b q) (queue : b'.handleQueue = b.handleQueue)
    (closings : b'.closingHandles = b.closingHandles) (same : ∀ u, (b'.timers u).closing = (b.timers u).closing) :
    ∀ u, u ∈ b'.closingHandles ↔ u ∈ b'.handleQueue ∧ (b'.timers u).closing = true := by
  intro u
  rw [queue,closings,same]
  exact sound.pending u

theorem closing_update {r : UvTimer C} (timers : T → UvTimer C) (same : r.closing = (timers t).closing) (u : T) :
    (Function.update timers t r u).closing = (timers u).closing := by
  by_cases isT : u = t
  · subst isT; rw [Function.update_self,same]
  · rw [Function.update_of_ne isT]

/-- A handle is stopped, or started when it waits nowhere and has a callback. -/
theorem sound_changeActive (sound : Sound others b q) (member : t ∈ b.handleQueue) (on : Bool)
    (ready : on = true → t ∉ q ∧ (b.timers t).timerCb ≠ none ∧ (b.timers t).closing = false) :
    Sound others (b.changeActive t on) q := by
  have same := sameBooks_changeActive b t on
  refine sound.edit member (changeActive_timers b t on) same.handleQueue ?_ ?_ ?_ (sound.finished t member) ?_
    (changeActive_counted (sound.share_le member) on)
  · refine sound.pending_of same.handleQueue same.closingHandles fun u => ?_
    rw [changeActive_timers]
    exact closing_update b.timers (by rfl) u
  · rw [same.closingHandles]; exact sound.once
  · rintro (up | waits)
    · exact (ready up).2
    · exact ⟨(sound.live t (.inr waits)).1,(sound.live t (.inr waits)).2.1⟩
  · intro waits
    cases on with
    | false => rfl
    | true => exact absurd waits (ready rfl).1

theorem sound_changeRef (sound : Sound others b q) (member : t ∈ b.handleQueue) (on : Bool) :
    Sound others (b.changeRef t on) q := by
  have same := sameBooks_changeRef b t on
  refine sound.edit member (changeRef_timers b t on) same.handleQueue ?_ ?_ ?_ (sound.finished t member) ?_
    (changeRef_counted (sound.share_le member) (fun up => (sound.live t (.inl up)).2.1) on)
  · refine sound.pending_of same.handleQueue same.closingHandles fun u => ?_
    rw [changeRef_timers]
    exact closing_update b.timers (by rfl) u
  · rw [same.closingHandles]; exact sound.once
  · intro up
    exact ⟨(sound.live t up).1,(sound.live t up).2.1⟩
  · exact fun waits => (sound.waiting t waits).2

theorem sound_stop (sound : Sound others b q) (member : t ∈ b.handleQueue) : Sound others (b.uvHandleStop t) q :=
  sound_changeActive sound member false nofun

/-- New times and a new callback for a handle that is not active. -/
theorem sound_arm (sound : Sound others b q) (member : t ∈ b.handleQueue) (idle : (b.timers t).active = false)
    {cb : Option C} (callback : cb ≠ none) (timeout repeat_ : ℕ) : Sound others (b.armTimer t cb timeout repeat_) q := by
  refine sound.edit member rfl rfl ?_ sound.once ?_ (sound.finished t member) (fun _ => idle) ?_
  · exact sound.pending_of rfl rfl fun u => closing_update b.timers (by rfl) u
  · rintro (up | waits)
    · exact absurd (idle.symm.trans up) (by simp)
    · exact ⟨callback,(sound.live t (.inr waits)).2.1⟩
  · simp [Books.armTimer,Books.setTimer,share,idle]

theorem sound_setRepeat (sound : Sound others b q) (member : t ∈ b.handleQueue) (repeat_ : ℕ) :
    Sound others (b.uvTimerSetRepeat t repeat_) q := by
  refine sound.edit member rfl rfl ?_ sound.once ?_ (sound.finished t member) ?_ rfl
  · exact sound.pending_of rfl rfl fun u => closing_update b.timers (by rfl) u
  · intro up
    exact ⟨(sound.live t up).1,(sound.live t up).2.1⟩
  · exact fun waits => (sound.waiting t waits).2

/-- A start takes the timer off the queue and leaves it active with its new callback. -/
theorem sound_start (sound : Sound others b q) (member : t ∈ b.handleQueue) (cb : Option C) (timeout repeat_ : ℕ) :
    Sound others (startTimer b t cb timeout repeat_) (queueAfter b q (.start t cb timeout repeat_)) := by
  unfold startTimer queueAfter
  by_cases refused : (b.timers t).closing ∨ (b.timers t).closed ∨ cb.isNone
  · rw [if_pos refused,if_neg (fun stops : Stops b (.start t cb timeout repeat_) => stops refused)]
    exact sound
  · have same := sameBooks_changeActive b t false
    have callback : cb ≠ none := fun none => refused (.inr (.inr (by rw [none]; rfl)))
    have open_ : (b.timers t).closing = false := by
      cases up : (b.timers t).closing with
      | false => rfl
      | true => exact absurd (.inl up) refused
    rw [if_neg refused,if_pos (show Stops b (.start t cb timeout repeat_) from refused)]
    have stopped := (sound_stop sound member).erase t
    have idle : ((b.uvHandleStop t).timers t).active = false := by simp [Books.uvHandleStop]
    have member' : t ∈ (b.uvHandleStop t).handleQueue := by rw [Books.uvHandleStop,same.handleQueue]; exact member
    have armed := sound_arm stopped member' idle callback timeout repeat_
    refine sound_changeActive armed member' true fun _ => ⟨sound.distinct.not_mem_erase,?_,?_⟩
    · simpa [Books.armTimer,Books.setTimer] using callback
    · simpa [Books.armTimer,Books.setTimer,Books.uvHandleStop] using open_

theorem sound_again (sound : Sound others b q) (member : t ∈ b.handleQueue) :
    Sound others (againTimer b t) (queueAfter b q (.again t)) := by
  unfold againTimer queueAfter
  by_cases none : (b.timers t).timerCb.isNone
  · rw [if_pos none,if_neg (fun stops : Stops b (.again t) => by simp_all [Stops])]
    exact sound
  · by_cases repeats : (b.timers t).repeat_ ≠ 0
    · have stops : Stops b (.again t) := ⟨by simpa [← Option.isSome_iff_ne_none] using none,repeats⟩
      rw [if_neg none,if_pos repeats,if_pos stops]
      have same := sameBooks_changeActive b t false
      have started := sound_start (sound_stop sound member) (same.handleQueue.symm ▸ member) (b.timers t).timerCb
        (b.timers t).repeat_ (b.timers t).repeat_
      unfold queueAfter at started
      split at started
      · exact started
      · exact started.erase t
    · rw [if_neg none,if_neg repeats,if_neg (fun stops : Stops b (.again t) => repeats stops.2)]
      exact sound

/-- A closing handle is stopped and waits for its closing to be finished. -/
theorem sound_close (sound : Sound others b q) (member : t ∈ b.handleQueue) (open_ : (b.timers t).closing = false) :
    Sound others (closeTimer b t) (q.erase t) := by
  have same := sameBooks_changeActive (b.setTimer t { b.timers t with closing := true }) t false
  have fresh : t ∉ b.closingHandles := fun inside => by
    have := ((sound.pending t).mp inside).2
    rw [open_] at this
    cases this
  have timers : (closeTimer b t).timers = Function.update b.timers t { b.timers t with closing := true, active := false } := by
    simp [closeTimer,Books.uvHandleStop,Books.setTimer]
  have counted : ((b.setTimer t { b.timers t with closing := true }).changeActive t false).activeHandles + _ = _ :=
    changeActive_counted (by simpa [Books.setTimer,share] using sound.share_le member) false
  refine (sound.erase t).edit member timers same.handleQueue ?_ ?_ ?_ (sound.finished t member) ?_ ?_
  · intro u
    have queue : (closeTimer b t).handleQueue = b.handleQueue := same.handleQueue
    have closings : (closeTimer b t).closingHandles = t :: b.closingHandles := congrArg (t :: ·) same.closingHandles
    rw [queue,closings,timers,List.mem_cons]
    by_cases isT : u = t
    · subst isT; simp [member]
    · rw [Function.update_of_ne isT]
      simp [isT,sound.pending u]
  · have closings : (closeTimer b t).closingHandles = t :: b.closingHandles := congrArg (t :: ·) same.closingHandles
    rw [closings]
    exact List.nodup_cons.mpr ⟨fresh,sound.once⟩
  · rintro (up | waits)
    · cases up
    · exact absurd waits sound.distinct.not_mem_erase
  · intro _; rfl
  · simpa [closeTimer,Books.uvHandleStop,Books.setTimer,share] using counted

/-- A new handle joins those of the loop. -/
theorem sound_init (sound : Sound others b q) (fresh : t ∉ b.handleQueue) (room : b.handleQueue.length+2 < uintMax) :
    Sound others (b.initTimer t) q := by
  have away : ∀ u, u ≠ t → (b.initTimer t).timers u = b.timers u := fun u other => by
    simp [Books.initTimer,Books.setTimer,other]
  have notT : ∀ u ∈ b.handleQueue, u ≠ t := fun u inside same => fresh (same ▸ inside)
  have idle : ((b.initTimer t).timers t).active = false := by simp [Books.initTimer,Books.setTimer]
  have queue : (b.initTimer t).handleQueue = b.handleQueue ++ [t] := rfl
  have closings : (b.initTimer t).closingHandles = b.closingHandles := rfl
  constructor
  · rw [queue]
    refine List.nodup_append.mpr ⟨sound.nodup,by simp,?_⟩
    intro a inside c last same
    rw [List.mem_singleton] at last
    exact fresh (last ▸ same ▸ inside)
  · rw [queue,List.length_append,List.length_singleton]
    exact room
  · intro u up
    by_cases isT : u = t
    · rw [isT,idle] at up; cases up
    · rw [away u isT] at up
      exact List.mem_append_left _ (sound.known u up)
  · rintro u (up | waits)
    · by_cases isT : u = t
      · rw [isT,idle] at up; cases up
      · rw [away u isT] at up ⊢; exact sound.live u (.inl up)
    · rw [away u (notT u (sound.waiting u waits).1)]
      exact sound.live u (.inr waits)
  · exact sound.distinct
  · intro u waits
    obtain ⟨inside,idle⟩ := sound.waiting u waits
    exact ⟨List.mem_append_left _ inside,by rw [away u (notT u inside)]; exact idle⟩
  · rw [queue,List.countP_append]
    have others_ : b.handleQueue.countP (fun u => ((b.initTimer t).timers u).active && ((b.initTimer t).timers u).ref) =
        b.handleQueue.countP fun u => (b.timers u).active && (b.timers u).ref :=
      List.countP_congr fun u inside => by rw [away u (notT u inside)]
    have handles : (b.initTimer t).activeHandles = b.activeHandles := rfl
    rw [others_,handles,sound.counted]
    simp [idle]
  · intro u
    rw [closings,queue]
    by_cases isT : u = t
    · have notClosing : t ∉ b.closingHandles := fun inside => fresh ((sound.pending t).mp inside).1
      subst isT
      simp [notClosing,Books.initTimer,Books.setTimer]
    · rw [away u isT,List.mem_append,List.mem_singleton]
      simp [isT,sound.pending u]
  · exact sound.once
  · intro u inside
    rw [queue,List.mem_append,List.mem_singleton] at inside
    by_cases isT : u = t
    · subst isT; simp [Books.initTimer,Books.setTimer]
    · rw [away u isT]
      exact sound.finished u (inside.resolve_right isT)

/-- Every call that a program is allowed keeps the books sound. -/
theorem sound_act (sound : Sound others b q) {call : TimerCall T C} (allowed : Allowed b call) :
    Sound others (act b call) (queueAfter b q call) := by
  cases call with
  | init t => exact sound_init sound allowed.1 allowed.2
  | start t cb timeout repeat_ => exact sound_start sound allowed.1 cb timeout repeat_
  | stop t => exact (sound_stop sound allowed).erase t
  | again t => exact sound_again sound allowed
  | setRepeat t repeat_ => exact sound_setRepeat sound allowed.1 repeat_
  | ref t => exact sound_changeRef sound allowed true
  | unref t => exact sound_changeRef sound allowed false
  | close t => exact sound_close sound allowed.1 allowed.2.1

end

end Armd.TimerBooks
