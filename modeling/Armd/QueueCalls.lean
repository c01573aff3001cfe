import Armd.Runs
import Armd.UvQueue

/-!
The queues of libuv as lists. A heap holds any number of queues, each a list of
nodes behind its head (`Represents`); what the calls do to these lists is a model
of its own (`After`), in which a call asks that new nodes are on no queue and that
removed ones are on theirs. Any sequence of such calls runs without a null pointer
and leaves a heap that holds the lists of the model (`queue_calls`).
-/
namespace Armd.QueueCalls
open Armd.Runs Armd.LinkedRings Armd.UvQueue
universe u
variable {N : Type u}

/-- The nodes behind each head; no list where there is no queue. -/
abbrev Queues (N : Type u) := N → Option (List N)

/-- The node is neither a head nor on a queue. -/
def Free (qs : Queues N) (x : N) : Prop := ∀ l xs, qs l = some xs → x ∉ l :: xs

/-- The heap holds the queues, which share no node. -/
structure Represents (h : Heap N) (qs : Queues N) : Prop where
  rings : ∀ l xs, qs l = some xs → Ring h l xs
  apart : ∀ l m xs ys, qs l = some xs → qs m = some ys → l ≠ m → ∀ x ∈ l :: xs, x ∉ m :: ys

inductive QueueCall (N : Type u)
  | init (q : N)
  | add (l n : N)
  | split (l q n : N)
  | move (l n : N)
  | insertHead (l q : N)
  | insertTail (l q : N)
  | remove (q : N)

variable [DecidableEq N]

def QueueCall.perform (h : Heap N) : QueueCall N → Option (Heap N)
  | .init q => some (uvQueueInit h q)
  | .add l n => uvQueueAdd h l n
  | .split l q n => uvQueueSplit h l q n
  | .move l n => uvQueueMove h l n
  | .insertHead l q => uvQueueInsertHead h l q
  | .insertTail l q => uvQueueInsertTail h l q
  | .remove q => uvQueueRemove h q

/-- What the calls do to the lists; a queue that is appended to another is no queue any more. -/
inductive After : Queues N → QueueCall N → Queues N → Prop
  | init {qs q} : Free qs q → After qs (.init q) (Function.update qs q (some []))
  | add {qs l n xs ys} : qs l = some xs → qs n = some ys → l ≠ n →
      After qs (.add l n) (Function.update (Function.update qs n none) l (some (xs ++ ys)))
  | split {qs l q n front back} : qs l = some (front ++ q :: back) → Free qs n →
      After qs (.split l q n) (Function.update (Function.update qs l (some front)) n (some (q :: back)))
  | move {qs l n xs} : qs l = some xs → Free qs n →
      After qs (.move l n) (Function.update (Function.update qs l (some [])) n (some xs))
  | insertHead {qs l q xs} : qs l = some xs → Free qs q → After qs (.insertHead l q) (Function.update qs l (some (q :: xs)))
  | insertTail {qs l q xs} : qs l = some xs → Free qs q → After qs (.insertTail l q) (Function.update qs l (some (xs ++ [q])))
  | remove {qs l q front back} : qs l = some (front ++ q :: back) →
      After qs (.remove q) (Function.update qs l (some (front ++ back)))

section
variable {h g : Heap N} {qs : Queues N}

omit [DecidableEq N] in
/-- A queue that shares no node with those that were written is still there. -/
theorem Represents.frame (rep : Represents h qs) {written : List N} (others : ∀ x ∉ written, g x = h x) {l : N} {xs : List N}
    (queue : qs l = some xs) (away : ∀ x ∈ l :: xs, x ∉ written) : Ring g l xs :=
  (rep.rings l xs queue).frame fun x on => others x (away x on)

omit [DecidableEq N] in
/-- After some nodes were written the heap holds other queues, each untouched or made of these nodes. -/
theorem Represents.edit (rep : Represents h qs) {qs' : Queues N} {written : List N} (others : ∀ x ∉ written, g x = h x)
    (each : ∀ m ys, qs' m = some ys →
      (qs m = some ys ∧ ∀ x ∈ m :: ys, x ∉ written) ∨ (Ring g m ys ∧ ∀ x ∈ m :: ys, x ∈ written))
    (news : ∀ m m' ys ys', qs' m = some ys → qs' m' = some ys' → m ∈ written → m' ∈ written → m ≠ m' →
      ∀ x ∈ m :: ys, x ∉ m' :: ys') : Represents g qs' := by
  refine ⟨fun m ys queue => ?_,fun m m' ys ys' queue queue' distinct x on on' => ?_⟩
  · rcases each m ys queue with ⟨old,away⟩ | ⟨ring,_⟩
    · exact rep.frame others old away
    · exact ring
  · rcases each m ys queue with ⟨old,away⟩ | ⟨_,inside⟩
    · rcases each m' ys' queue' with ⟨old',_⟩ | ⟨_,inside'⟩
      · exact rep.apart m m' ys ys' old old' distinct x on on'
      · exact away x on (inside' x on')
    · rcases each m' ys' queue' with ⟨_,away'⟩ | ⟨_,inside'⟩
      · exact away' x on' (inside x on)
      · exact news m m' ys ys' queue queue' (inside m (by simp)) (inside' m' (by simp)) distinct x on on'

/-- One queue is replaced. -/
theorem Represents.replace (rep : Represents h qs) {l : N} {xs : List N} (written : List N) (ring : Ring g l xs)
    (others : ∀ x ∉ written, g x = h x) (inside : ∀ x ∈ l :: xs, x ∈ written)
    (apart : ∀ m ys, qs m = some ys → m ≠ l → ∀ x ∈ m :: ys, x ∉ written) :
    Represents g (Function.update qs l (some xs)) := by
  have place (m : N) (ys : List N) (queue : Function.update qs l (some xs) m = some ys) :
      (m = l ∧ ys = xs) ∨ (m ≠ l ∧ qs m = some ys) := by
    by_cases same : m = l
    · subst same
      rw [Function.update_self,Option.some.injEq] at queue
      exact .inl ⟨rfl,queue.symm⟩
    · rw [Function.update_of_ne same] at queue
      exact .inr ⟨same,queue⟩
  refine rep.edit others (fun m ys queue => ?_) fun m m' ys ys' queue queue' on on' distinct => ?_
  · rcases place m ys queue with ⟨rfl,rfl⟩ | ⟨other,old⟩
    · exact .inr ⟨ring,inside⟩
    · exact .inl ⟨old,apart m ys old other⟩
  · rcases place m ys queue with ⟨rfl,_⟩ | ⟨other,old⟩
    · rcases place m' ys' queue' with ⟨rfl,_⟩ | ⟨other,old⟩
      · exact absurd rfl distinct
      · exact absurd on' (apart m' ys' old other m' (by simp))
    · exact absurd on (apart m ys old other m (by simp))

/-- A queue is replaced by two. -/
private theorem Represents.divide (rep : Represents h qs) {l n : N} {xs ys : List N} (front : Ring g l xs) (back : Ring g n ys)
    (others : ∀ x ∉ n :: l :: (xs ++ ys), g x = h x) (disjoint : ∀ x ∈ l :: xs, x ∉ n :: ys)
    (apart : ∀ m zs, qs m = some zs → m ≠ l → m ≠ n → ∀ x ∈ m :: zs, x ∉ n :: l :: (xs ++ ys)) :
    Represents g (Function.update (Function.update qs l (some xs)) n (some ys)) := by
  have place (m : N) (zs : List N) (queue : Function.update (Function.update qs l (some xs)) n (some ys) m = some zs) :
      (m = n ∧ zs = ys) ∨ (m = l ∧ zs = xs) ∨ (m ≠ l ∧ m ≠ n ∧ qs m = some zs) := by
    by_cases isN : m = n
    · subst isN
      rw [Function.update_self,Option.some.injEq] at queue
      exact .inl ⟨rfl,queue.symm⟩
    · rw [Function.update_of_ne isN] at queue
      by_cases isL : m = l
      · subst isL
        rw [Function.update_self,Option.some.injEq] at queue
        exact .inr (.inl ⟨rfl,queue.symm⟩)
      · rw [Function.update_of_ne isL] at queue
        exact .inr (.inr ⟨isL,isN,queue⟩)
  refine rep.edit others (fun m zs queue => ?_) fun m m' zs zs' queue queue' on on' distinct => ?_
  · rcases place m zs queue with ⟨rfl,rfl⟩ | ⟨rfl,rfl⟩ | ⟨notL,notN,old⟩
    · exact .inr ⟨back,by grind⟩
    · exact .inr ⟨front,by grind⟩
    · exact .inl ⟨old,apart m zs old notL notN⟩
  · have away {m : N} {zs : List N} (notL : m ≠ l) (notN : m ≠ n) (old : qs m = some zs) :
        m ∉ n :: l :: (xs ++ ys) := apart m zs old notL notN m (by simp)
    rcases place m zs queue with ⟨rfl,rfl⟩ | ⟨rfl,rfl⟩ | ⟨notL,notN,old⟩
    · rcases place m' zs' queue' with ⟨rfl,_⟩ | ⟨rfl,rfl⟩ | ⟨notL,notN,old⟩
      · exact absurd rfl distinct
      · exact fun x inside inside' => disjoint x inside' inside
      · exact absurd on' (away notL notN old)
    · rcases place m' zs' queue' with ⟨rfl,rfl⟩ | ⟨rfl,_⟩ | ⟨notL,notN,old⟩
      · exact disjoint
      · exact absurd rfl distinct
      · exact absurd on' (away notL notN old)
    · exact absurd on (away notL notN old)

/-- A queue is given up. -/
private theorem Represents.forget (rep : Represents h qs) (n : N) : Represents h (Function.update qs n none) := by
  have place (m : N) (ys : List N) (queue : Function.update qs n none m = some ys) : qs m = some ys := by
    by_cases same : m = n
    · subst same
      rw [Function.update_self] at queue
      cases queue
    · rwa [Function.update_of_ne same] at queue
  exact ⟨fun m ys queue => rep.rings m ys (place m ys queue),fun m m' ys ys' queue queue' =>
    rep.apart m m' ys ys' (place m ys queue) (place m' ys' queue')⟩

/-- One call runs through and does to the lists what the model says. -/
private theorem perform_represents (rep : Represents h qs) {c : QueueCall N} {qs' : Queues N} (call : After qs c qs') :
    ∃ g, c.perform h = some g ∧ Represents g qs' := by
  -- the other queues share no node with the one of the call, nor with a node that is on none
  have away {l : N} {xs : List N} (queue : qs l = some xs) {m : N} {ys : List N} (old : qs m = some ys) (other : m ≠ l) {x : N}
      (on : x ∈ m :: ys) : x ∉ l :: xs := rep.apart m l ys xs old queue other x on
  have notFree {n : N} (free : Free qs n) {m : N} {ys : List N} (old : qs m = some ys) {x : N} (on : x ∈ m :: ys) : x ≠ n :=
    fun same => free m ys old (same ▸ on)
  cases call with
  | @init q free =>
    refine ⟨_,rfl,rep.replace [q] (uvQueueInit_alone h q) ?_ (by simp) fun m ys old _ x on => ?_⟩
    · exact fun x outside => uvQueueInit_of_ne h (by simpa using outside)
    · simpa using notFree free old on
  | @add l n xs ys queue queue' distinct =>
    obtain ⟨g,done,ring,others⟩ := uvQueueAdd_ring (rep.rings l xs queue) (rep.rings n ys queue')
      (rep.apart l n xs ys queue queue' distinct)
    refine ⟨g,done,(rep.forget n).replace (n :: l :: (xs ++ ys)) ring others (fun x on => by grind) fun m zs old other x on => ?_⟩
    have notN : m ≠ n := by
      rintro rfl
      rw [Function.update_self] at old
      cases old
    rw [Function.update_of_ne notN] at old
    have := away queue old other on
    have := away queue' old notN on
    grind
  | @split l q n front back queue free =>
    have ring := rep.rings l _ queue
    obtain ⟨g,done,left,right,others⟩ := uvQueueSplit_ring ring (free l _ queue)
    refine ⟨g,done,rep.divide left right others ?_ fun m zs old notL notN x on => ?_⟩
    · have distinct := ring.nodup
      have := free l _ queue
      grind
    · have := away queue old notL on
      have := notFree free old on
      grind
  | @move l n xs queue free =>
    obtain ⟨g,done,alone,ring,others⟩ := uvQueueMove_ring (rep.rings l xs queue) (free l xs queue)
    refine ⟨g,done,rep.divide alone ring (by simpa using others) ?_ fun m zs old notL notN x on => ?_⟩
    · have distinct := (rep.rings l xs queue).nodup
      have := free l xs queue
      grind
    · have := away queue old notL on
      have := notFree free old on
      grind
  | @insertHead l q xs queue free =>
    obtain ⟨g,done,ring,others⟩ := uvQueueInsertHead_ring (rep.rings l xs queue) (free l xs queue)
    refine ⟨g,done,rep.replace _ ring others (fun _ on => on) fun m zs old other x on => ?_⟩
    have := away queue old other on
    have := notFree free old on
    grind
  | @insertTail l q xs queue free =>
    obtain ⟨g,done,ring,others⟩ := uvQueueInsertTail_ring (rep.rings l xs queue) (free l xs queue)
    refine ⟨g,done,rep.replace _ ring others (fun _ on => on) fun m zs old other x on => ?_⟩
    have := away queue old other on
    have := notFree free old on
    grind
  | @remove l q front back queue =>
    obtain ⟨g,done,ring,others⟩ := uvQueueRemove_ring (rep.rings l _ queue)
    refine ⟨g,done,rep.replace _ ring others (fun _ on => on) fun m zs old other x on => ?_⟩
    have := away queue old other on
    grind

end

/-- Any sequence of calls that the model allows runs through from a heap that holds its queues; the heap then holds the
    queues of the model, and `uv__queue_empty` and `uv__queue_head` say of each what the list says. -/
theorem queue_calls {h : Heap N} {qs qs' : Queues N} (rep : Represents h qs) {calls : List (QueueCall N)}
    (run : Run After qs calls qs') :
    ∃ g, Run (fun h c g => QueueCall.perform h c = some g) h calls g ∧ Represents g qs' ∧
      ∀ l xs, qs' l = some xs → uvQueueEmpty g l = decide (xs = []) ∧ ∀ x rest, xs = x :: rest → uvQueueHead g l = some x := by
  have done : ∃ g, Run (fun h c g => QueueCall.perform h c = some g) h calls g ∧ Represents g qs' := by
    induction run with
    | nil => exact ⟨h,.nil,rep⟩
    | snoc _ call ih =>
      obtain ⟨g,runs,rep'⟩ := ih
      obtain ⟨g',performs,rep''⟩ := perform_represents rep' call
      exact ⟨g',runs.snoc performs,rep''⟩
  obtain ⟨g,runs,rep'⟩ := done
  refine ⟨g,runs,rep',fun l xs queue => ⟨uvQueueEmpty_ring (rep'.rings l xs queue),?_⟩⟩
  rintro x rest rfl
  exact uvQueueHead_ring (rep'.rings l _ queue)

theorem queue_calls_one : ∃ g : Heap ℕ, Run (fun h c g => QueueCall.perform h c = some g) (fun _ => ⟨none,none⟩)
    [.init 0,.insertTail 0 1] g ∧ uvQueueHead g 0 = some 1 := by
  have rep : Represents (fun _ => ⟨none,none⟩) (fun _ : ℕ => none) := ⟨fun _ _ queue => (by cases queue),fun _ _ _ _ queue => (by cases queue)⟩
  have free : Free (fun _ : ℕ => none) 0 := fun _ _ queue => by cases queue
  have free' : Free (Function.update (fun _ : ℕ => none) 0 (some [])) 1 := by
    intro l xs queue
    by_cases same : l = 0
    · subst same
      rw [Function.update_self] at queue
      cases queue
      simp
    · rw [Function.update_of_ne same] at queue
      cases queue
  have run := (Run.single (After.init free)).snoc (.insertTail (Function.update_self 0 _ _) free')
  obtain ⟨g,runs,_,ends⟩ := queue_calls rep run
  exact ⟨g,runs,(ends 0 _ (Function.update_self 0 _ _)).2 1 [] rfl⟩

end Armd.QueueCalls
