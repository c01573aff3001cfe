import Armd.AsyncWakeup
import Armd.UvQueue

/-!
The lists of async handles are queues of libuv. `loop->async_handles` and the
local `queue` of `uv__async_io` and `uv__async_stop` are heads, every handle has a
member `queue`; each step of the loop moves, removes or inserts on these as the
source does (`relink`). Whatever the memory held, no step follows a null pointer,
and the queues hold the handles that the steps are stated about, in their order
(`queues_hold_handles`).
-/
namespace Armd.AsyncRings
open Armd.Runs Armd.Message Armd.LinkedRings Armd.UvQueue Armd.AsyncSend Armd.AsyncWakeup
open Armd.Channel (Poster)
variable {M P : Type} [DecidableEq M] [DecidableEq P]

/-- The nodes: `loop->async_handles`, the local `queue`, and the `queue` of each handle. -/
inductive Link (M : Type)
  | asyncHandles
  | queue
  | handle (h : M)
  deriving DecidableEq

/-- The head of the loops of `uv__async_io` and `uv__async_stop`: the first node goes to the tail of `async_handles`. -/
def nextHandle (g : Heap (Link M)) : Option (Link M × Heap (Link M)) := do
  let q ← uvQueueHead g .queue
  let g ← uvQueueRemove g q
  let g ← uvQueueInsertTail g .asyncHandles q
  return (q,g)

/-- What a step does to the queues; the handle of a visit is the one that the queue gives. -/
def relink (s : State M P) (g : Heap (Link M)) : Label M P → Option (Heap (Link M))
  | .poll => uvQueueMove g .asyncHandles .queue
  | .visit => (nextHandle g).map Prod.snd
  | .init h => uvQueueInsertTail g .asyncHandles (.handle h)
  | .closed => match s.loop with
    | .spinning h _ => uvQueueRemove g (.handle h)
    | _ => some g
  | .stop => uvQueueMove g .asyncHandles .queue
  | .stopNext => (nextHandle g).map Prod.snd
  | _ => some g

/-- The queues hold the handles of the lists; the local `queue` counts while the loop thread goes over it. -/
structure Holds (g : Heap (Link M)) (s : State M P) : Prop where
  handles : Ring g .asyncHandles (s.asyncHandles.map .handle)
  queue : walking s.loop → Ring g .queue (s.ready.map .handle)

section
variable {g : Heap (Link M)} {xs ys : List M} {h : M}

omit [DecidableEq M] in
/-- What changes only the nodes of one queue leaves the other. -/
private theorem other_queue {g' : Heap (Link M)} (ring : Ring g .queue (ys.map .handle)) (apart : ∀ y ∈ ys, y ∉ xs)
    (others : ∀ x ∉ .asyncHandles :: xs.map .handle, g' x = g x) : Ring g' .queue (ys.map .handle) := by
  refine ring.frame fun x inside => others x ?_
  rcases List.mem_cons.mp inside with rfl | inside
  · simp
  · obtain ⟨y,on,rfl⟩ := List.mem_map.mp inside
    simp [apart y on]

omit [DecidableEq M] in
private theorem other_handles {g' : Heap (Link M)} (ring : Ring g .asyncHandles (xs.map .handle)) (apart : ∀ x ∈ xs, x ∉ ys)
    (others : ∀ x ∉ .queue :: ys.map .handle, g' x = g x) : Ring g' .asyncHandles (xs.map .handle) := by
  refine ring.frame fun x inside => others x ?_
  rcases List.mem_cons.mp inside with rfl | inside
  · simp
  · obtain ⟨y,on,rfl⟩ := List.mem_map.mp inside
    simp [apart y on]

private theorem insertTail_handles (handles : Ring g .asyncHandles (xs.map .handle)) (fresh : h ∉ xs) :
    ∃ g', uvQueueInsertTail g .asyncHandles (.handle h) = some g' ∧ Ring g' .asyncHandles ((xs ++ [h]).map .handle) ∧
      ∀ x ∉ .asyncHandles :: (xs ++ [h]).map .handle, g' x = g x := by
  have fresh' : Link.handle h ∉ .asyncHandles :: xs.map .handle := by simp [fresh]
  obtain ⟨g',inserted,ring,others⟩ := uvQueueInsertTail_ring handles fresh'
  rw [List.map_append]
  exact ⟨g',inserted,ring,others⟩

/-- One round of the loops takes the first handle of the local queue and puts it behind the others. -/
private theorem nextHandle_rings (handles : Ring g .asyncHandles (xs.map .handle)) (queue : Ring g .queue ((h :: ys).map .handle))
    (distinct : (xs ++ h :: ys).Nodup) :
    ∃ g', nextHandle g = some (.handle h,g') ∧ Ring g' .asyncHandles ((xs ++ [h]).map .handle) ∧ Ring g' .queue (ys.map .handle) := by
  have apart : h ∉ xs ∧ h ∉ ys ∧ ∀ y ∈ ys, y ∉ xs := by
    simp only [List.nodup_append,List.nodup_cons] at distinct
    grind
  obtain ⟨g₁,removed,left,others₁⟩ := uvQueueRemove_ring (show Ring g .queue ([] ++ .handle h :: ys.map .handle) from queue)
  have handles₁ : Ring g₁ .asyncHandles (xs.map .handle) :=
    other_handles handles (fun x on on' => apart.2.2 x on' on) (by simpa using others₁)
  obtain ⟨g₂,inserted,longer,others₂⟩ := insertTail_handles handles₁ apart.1
  refine ⟨g₂,?_,longer,other_queue (by simpa using left) (fun y on => ?_) others₂⟩
  · simp [nextHandle,uvQueueHead_ring queue,removed,inserted]
  · have other : y ≠ h := fun same => apart.2.1 (same ▸ on)
    simp [apart.2.2 y on,other]

private theorem remove_handle {head : Link M} (ring : Ring g head (xs.map .handle)) (inside : h ∈ xs) :
    ∃ g', uvQueueRemove g (.handle h) = some g' ∧ Ring g' head ((xs.erase h).map .handle) ∧
      ∀ x ∉ head :: xs.map .handle, g' x = g x := by
  obtain ⟨front,back,_,split,erased⟩ := List.exists_erase_eq inside
  rw [erased]
  rw [split] at ring ⊢
  simp only [List.map_append,List.map_cons] at ring ⊢
  obtain ⟨g',removed,left,others⟩ := uvQueueRemove_ring ring
  refine ⟨g',removed,left,fun x outside => others x fun on => outside ?_⟩
  simp only [List.mem_cons,List.mem_append] at on ⊢
  tauto

end

/-! ### Every step -/

section
variable {onMessage : M → Bool} {s s' : State M P} {l : Label M P} {g : Heap (Link M)}

private theorem holds_step (ordered : Ordered s) (holds : Holds g s) (fires : Step onMessage s l s') :
    ∃ g', relink s g l = some g' ∧ Holds g' s' := by
  have same (handles : s'.asyncHandles = s.asyncHandles) (ready : s'.ready = s.ready) (scope : walking s'.loop → walking s.loop) :
      Holds g s' := ⟨handles ▸ holds.handles,fun walks => ready ▸ holds.queue (scope walks)⟩
  have apart : ∀ x ∈ s.asyncHandles, x ∉ s.ready := fun x on on' => (List.nodup_append.mp ordered.nodup).2.2 x on x on' rfl
  have apart' : ∀ x ∈ s.ready, x ∉ s.asyncHandles := fun x on on' => apart x on' on
  cases fires with
  | call | accept | reject | giveUp | load | announce | exchange | write | retire => exact ⟨g,rfl,same rfl rfl id⟩
  | close => exact ⟨g,rfl,same rfl rfl id⟩
  | take at_ | empty at_ | deliver at_ | finish at_ | leave at_ | stopSpun at_ =>
    exact ⟨g,rfl,same rfl rfl fun _ => by rw [at_]; trivial⟩
  | endPass | stopEnd => exact ⟨g,rfl,same rfl rfl False.elim⟩
  | poll | stop =>
    have fresh : Link.queue ∉ .asyncHandles :: s.asyncHandles.map Link.handle := by simp
    obtain ⟨g',moves,alone,ring,_⟩ := uvQueueMove_ring holds.handles fresh
    exact ⟨g',moves,alone,fun _ => ring⟩
  | visit at_ first | pass at_ first | stopNext at_ first =>
    have queue := holds.queue (by rw [at_]; trivial)
    have distinct := ordered.nodup
    rw [first] at queue distinct
    obtain ⟨g',goes,longer,shorter⟩ := nextHandle_rings holds.handles queue distinct
    exact ⟨g',by simp [relink,goes],longer,fun _ => shorter⟩
  | @init h may fresh =>
    have notIn : h ∉ s.asyncHandles ++ s.ready := fun inside => by
      have := (ordered.member h).mp inside
      simp [fresh] at this
    rw [List.mem_append,not_or] at notIn
    obtain ⟨g',inserted,longer,others⟩ := insertTail_handles holds.handles notIn.1
    refine ⟨g',inserted,longer,fun walks => other_queue (holds.queue walks) (fun y on => ?_) others⟩
    have other : y ≠ h := fun isH => notIn.2 (isH ▸ on)
    simp [apart' y on,other]
  | @closed h back at_ closing =>
    have relinks : relink s g .closed = uvQueueRemove g (.handle h) := by simp only [relink,at_]
    rw [relinks]
    have walks (after_ : walking back) : walking s.loop := by
      rw [at_]
      exact after_
    rcases List.mem_append.mp ((ordered.member h).mpr (.inr closing)) with inside | inside
    · obtain ⟨g',removed,left,others⟩ := remove_handle holds.handles inside
      refine ⟨g',removed,left,fun after_ => ?_⟩
      show Ring g' .queue ((s.ready.erase h).map .handle)
      rw [List.erase_of_not_mem (apart h inside)]
      exact other_queue (holds.queue (walks after_)) apart' others
    · have queue := holds.queue (ordered.own (List.ne_nil_of_mem inside))
      obtain ⟨g',removed,left,others⟩ := remove_handle queue inside
      refine ⟨g',removed,?_,fun _ => left⟩
      show Ring g' .asyncHandles ((s.asyncHandles.erase h).map .handle)
      rw [List.erase_of_not_mem (apart' h inside)]
      exact other_handles holds.handles apart others

/-- The steps with what they do to the queues. -/
def Relinked (onMessage : M → Bool) (a : State M P × Heap (Link M)) (l : Label M P) (b : State M P × Heap (Link M)) : Prop :=
  Step onMessage a.1 l b.1 ∧ relink a.1 a.2 l = some b.2

private theorem relinked_run {memory : M → Handle} {ls : List (Label M P)} {s : State M P} (run : Run (Step onMessage) (initial memory) ls s)
    (g : Heap (Link M)) :
    ∃ g', Run (Relinked onMessage) (initial memory,uvQueueInit g .asyncHandles) ls (s,g') ∧ Ordered s ∧ Holds g' s := by
  induction run with
  | nil => exact ⟨_,.nil,ordered_initial memory,uvQueueInit_alone g _,False.elim⟩
  | snoc _ fires ih =>
    obtain ⟨g',run,ordered,holds⟩ := ih
    obtain ⟨g'',relinks,holds'⟩ := holds_step ordered holds fires
    exact ⟨g'',run.snoc ⟨fires,relinks⟩,ordered_step ordered fires,holds'⟩

end

/-- Whatever the memory of the queues held, every run takes the source's pointer operations through without a null
    pointer; then `async_handles` is the ring of the loop's handles, and while the loop thread goes over its local
    `queue`, this is the ring of those it has not visited, empty where the list is and with the next handle at its head. -/
theorem queues_hold_handles (onMessage : M → Bool) (memory : M → Handle) {ls : List (Label M P)} {s : State M P}
    (run : Run (Step onMessage) (initial memory) ls s) (g : Heap (Link M)) :
    ∃ g', Run (Relinked onMessage) (initial memory,uvQueueInit g .asyncHandles) ls (s,g') ∧
      Ring g' .asyncHandles (s.asyncHandles.map .handle) ∧
      (walking s.loop → Ring g' .queue (s.ready.map .handle) ∧ uvQueueEmpty g' .queue = decide (s.ready = []) ∧
        ∀ h rest, s.ready = h :: rest → uvQueueHead g' .queue = some (.handle h)) := by
  obtain ⟨g',relinks,_,holds⟩ := relinked_run run g
  refine ⟨g',relinks,holds.handles,fun walks => ⟨holds.queue walks,?_,fun h rest first => ?_⟩⟩
  · rw [uvQueueEmpty_ring (holds.queue walks)]
    simp
  · have queue := holds.queue walks
    rw [first] at queue
    exact uvQueueHead_ring queue

/-- Three handles, of which the first is posted to and visited; its handler closes the second one in the middle of the
    pass. -/
def closedInPass : List (Label (Fin 3) Unit) :=
  [.init 0,.init 1,.init 2,.call (.thread ()) 0 zeroMsg,.lock (.thread ()),.load (.thread ()),.announce (.thread ()),
    .exchange (.thread ()),.write (.thread ()),.poll,.visit,.lockTake,.deliver,.close 1,.closed]

theorem queues_hold_handles_one : ∃ (s : State (Fin 3) Unit) (g' : Heap (Link (Fin 3))),
    Run (Relinked fun _ => true) (initial fun _ => zeroHandle,uvQueueInit (fun _ => ⟨none,none⟩) .asyncHandles)
      closedInPass (s,g') ∧ Ring g' .asyncHandles [.handle 0] ∧ uvQueueHead g' .queue = some (.handle 2) := by
  have run : ∃ s : State (Fin 3) Unit, Run (Step fun _ => true) (initial fun _ => zeroHandle) closedInPass s ∧
      s.loop = .handling 0 zeroMsg ∧ s.ready = [2] ∧ s.asyncHandles = [0] :=
    ⟨_,((((((((((((((Run.single (.init (.inl rfl) rfl)).snoc (.init (.inl rfl) rfl)).snoc (.init (.inl rfl) rfl)).snoc
      (.call rfl trivial rfl)).snoc (.accept rfl rfl rfl)).snoc (.load false rfl (.inl rfl))).snoc (.announce rfl)).snoc
      (.exchange rfl)).snoc (.write rfl rfl)).snoc (.poll rfl rfl Nat.one_pos)).snoc (.visit rfl rfl rfl)).snoc
      (.take rfl rfl rfl)).snoc (.deliver rfl)).snoc (.close (.inr ⟨_,_,_,rfl,rfl⟩) rfl)).snoc (.closed rfl rfl rfl),rfl,rfl,rfl⟩
  obtain ⟨s,run,handling,ready,handles⟩ := run
  obtain ⟨g',relinks,ring,queue⟩ := queues_hold_handles (fun _ => true) (fun _ => zeroHandle) run fun _ => ⟨none,none⟩
  rw [handles] at ring
  exact ⟨s,g',relinks,ring,(queue (by rw [handling]; trivial)).2.2 2 [] ready⟩

end Armd.AsyncRings
