import Armd.AsyncWakeup

/-!
Every module of a loop is a channel. Seen from one module, the posts to it, the
visits that find its flag set and its callback are the steps of `Armd.Channel`,
where a send sets the flag at once: it does so at the exchange, or where the read
finds the flag set. The handler of another module that posts to this one is one
more thread to it. So what holds of every run of a channel holds of the modules
of a loop that wakes up through one eventfd (`modules_are_channels`).
-/
namespace Armd.AsyncChannel
open Armd.Runs Armd.BoundedQueue Armd.Message Armd.Queue Armd.Location Armd.AsyncSend Armd.AsyncWakeup
open Armd.Channel (Poster PostPc)
variable {M P : Type} [DecidableEq M] [DecidableEq P]

/-- Where a poster is in a post to the module; nowhere else is it inside for the module's channel. -/
def seenBy (h : M) : SendPc M → Option PostPc
  | .entered h' msg => if h' = h then some (.entered msg) else none
  | .full h' => if h' = h then some .full else none
  | .check h' _ => if h' = h then some .enqueued else none
  | .announce h' => if h' = h then some .enqueued else none
  | .exchange h' => if h' = h then some .enqueued else none
  | _ => none

def Stands (pc : PostPc) : Option PostPc → Prop
  | some inside => pc = inside
  | none => ∃ ret, pc = .outside ret

/-- The loop thread runs the module's own `on_message`. -/
def inHandler (h : M) : LoopPc M → Bool
  | .handling h' _ => decide (h' = h)
  | _ => false

/-- The poster of the module's channel: the loop thread is the module's handler, or in another's one more thread. -/
def asPoster (h : M) (loop : LoopPc M) : Poster P → Poster (Option P)
  | .thread p => .thread (some p)
  | .handler => if inHandler h loop then .handler else .thread none

def view (h : M) (s : State M P) : Poster (Option P) → Option PostPc
  | .thread (some p) => seenBy h (s.poster (.thread p))
  | .thread none => if inHandler h s.loop then none else seenBy h (s.poster .handler)
  | .handler => if inHandler h s.loop then seenBy h (s.poster .handler) else none

def loopOf (h : M) : LoopPc M → Channel.LoopPc
  | .top h' => if h' = h then .top else .idle
  | .taken h' msg => if h' = h then .taken msg else .idle
  | .handling h' msg => if h' = h then .handling msg else .idle
  | .leaving h' => if h' = h then .leaving else .idle
  | .spinning _ back => loopOf h back
  | _ => .idle

/-- A module of the loop and the channel that it is. -/
structure Matches (h : M) (s : State M P) (c : Channel.State (Option P)) : Prop where
  queue : c.queue = (s.handle h).queue
  pending : (s.handle h).status = .running → ¬ shutting s.loop → (s.handle h).pending.now = true → c.pending = true
  loop : c.loop = loopOf h s.loop
  posters : ∀ p, Stands (c.poster p) (view h s p)
  history : c.history = (s.handle h).history
  handled : c.handled = (s.handle h).handled

section
variable {h : M} {s s' : State M P} {c : Channel.State (Option P)}

omit [DecidableEq P] in
private theorem view_asPoster (h : M) (s : State M P) (p : Poster P) : view h s (asPoster h s.loop p) = seenBy h (s.poster p) := by
  cases p with
  | thread p => rfl
  | handler => cases inside : inHandler h s.loop <;> simp [asPoster,view,inside]

/-- A step of one poster changes what the module sees of this one. -/
private theorem view_setPoster (h : M) (s : State M P) (p : Poster P) (pc : SendPc M) (p' : Poster (Option P)) :
    view h (s.setPoster p pc) p' = if p' = asPoster h s.loop p then seenBy h pc else view h s p' := by
  cases p with
  | thread p =>
    have handler : (s.setPoster (.thread p) pc).poster .handler = s.poster .handler := setPoster_of_ne _ _ _ (by simp)
    rcases p' with (_ | q) | _
    · simp [view,asPoster,handler]
    · by_cases same : q = p
      · subst same; simp [view,asPoster]
      · simp [view,asPoster,setPoster_poster,same]
    · simp [view,asPoster,handler]
  | handler =>
    rcases p' with (_ | q) | _
    · cases inside : inHandler h s.loop <;> simp [view,asPoster,inside]
    · have thread : (s.setPoster .handler pc).poster (.thread q) = s.poster (.thread q) := setPoster_of_ne _ _ _ (by simp)
      cases inside : inHandler h s.loop <;> simp [view,asPoster,thread,inside]
    · cases inside : inHandler h s.loop <;> simp [view,asPoster,inside]

omit [DecidableEq P] in
/-- While the loop's own poster is outside, it does not matter to the module where the loop is. -/
private theorem view_loop (outside : ∃ ret, s.poster .handler = .outside ret) (same : s'.poster = s.poster) (p : Poster (Option P)) :
    view h s' p = view h s p := by
  obtain ⟨ret,out⟩ := outside
  rcases p with (_ | q) | _
  · simp [view,same,out,seenBy]
  · simp [view,same]
  · simp [view,same,out,seenBy]

/-- What the module's channel sees after a step of one poster that is a step of the channel. -/
theorem Matches.moved (same : Matches h s c) (p : Poster P) {pc : SendPc M} {pc' : PostPc} (stands : Stands pc' (seenBy h pc))
    (p' : Poster (Option P)) : Stands ((c.setPoster (asPoster h s.loop p) pc').poster p') (view h (s.setPoster p pc) p') := by
  rw [view_setPoster]
  by_cases isP : p' = asPoster h s.loop p
  · subst isP
    rw [Channel.setPoster_self,if_pos rfl]
    exact stands
  · rw [Channel.setPoster_of_ne _ _ isP,if_neg isP]
    exact same.posters p'

/-- And after one that is none. -/
theorem Matches.stayed (same : Matches h s c) (p : Poster P) {pc : SendPc M} (still : seenBy h pc = seenBy h (s.poster p))
    (p' : Poster (Option P)) : Stands (c.poster p') (view h (s.setPoster p pc) p') := by
  rw [view_setPoster]
  split
  · rename_i isP
    rw [still,isP,← view_asPoster]
    exact same.posters _
  · exact same.posters p'

omit [DecidableEq P] in
theorem Matches.at (same : Matches h s c) {p : Poster P} {pc : SendPc M} {inside : PostPc} (at_ : s.poster p = pc)
    (seen : seenBy h pc = some inside) : c.poster (asPoster h s.loop p) = inside := by
  have stands := same.posters (asPoster h s.loop p)
  rw [view_asPoster,at_,seen] at stands
  exact stands

omit [DecidableEq P] in
/-- A step that the module does not notice. -/
private theorem Matches.unnoticed (same : Matches h s c) (posters : ∀ p, Stands (c.poster p) (view h s' p)) (queue : (s'.handle h).queue = (s.handle h).queue)
    (history : (s'.handle h).history = (s.handle h).history) (handled : (s'.handle h).handled = (s.handle h).handled)
    (pending : (s'.handle h).status = .running → ¬ shutting s'.loop → (s'.handle h).pending.now = true →
      (s.handle h).status = .running ∧ ¬ shutting s.loop ∧ (s.handle h).pending.now = true)
    (loop : loopOf h s'.loop = loopOf h s.loop) : Matches h s' c where
  queue := same.queue.trans queue.symm
  pending := fun running open_ set =>
    have before := pending running open_ set
    same.pending before.1 before.2.1 before.2.2
  loop := same.loop.trans loop.symm
  posters := posters
  history := same.history.trans history.symm
  handled := same.handled.trans handled.symm

omit [DecidableEq P] in
theorem Matches.untouched (same : Matches h s c) (posters : ∀ p, Stands (c.poster p) (view h s' p))
    (handle : s'.handle h = s.handle h) (last : shutting s.loop → shutting s'.loop) (loop : loopOf h s'.loop = loopOf h s.loop) :
    Matches h s' c := by
  refine same.unnoticed posters ?_ ?_ ?_ (fun running open_ set => ⟨?_,fun last' => open_ (last last'),?_⟩) loop
  · rw [handle]
  · rw [handle]
  · rw [handle]
  · rwa [handle] at running
  · rwa [handle] at set

private theorem Matches.aside (same : Matches h s c) (p : Poster P) {pc : SendPc M} (still : seenBy h pc = seenBy h (s.poster p)) :
    Matches h (s.setPoster p pc) c := { same with posters := same.stayed p still }

omit [DecidableEq P] in
theorem Matches.elsewhere (same : Matches h s c) {h₀ : M} (a : Handle) (other : h ≠ h₀) : Matches h (s.setHandle h₀ a) c :=
  have posters : ∀ p, Stands (c.poster p) (view h (s.setHandle h₀ a) p) := same.posters
  same.untouched posters (setHandle_of_ne _ _ _ other) id rfl

omit [DecidableEq P] in
theorem Matches.counted (same : Matches h s c) (h₀ : M) (busy : ℕ) :
    Matches h (s.setHandle h₀ { s.handle h₀ with busy }) c := by
  have posters : ∀ p, Stands (c.poster p) (view h (s.setHandle h₀ { s.handle h₀ with busy }) p) := same.posters
  refine same.unnoticed posters (field_update Handle.queue rfl) (field_update Handle.history rfl)
    (field_update Handle.handled rfl) (fun running open_ set => ?_) rfl
  have status : ((s.setHandle h₀ { s.handle h₀ with busy }).handle h).status = (s.handle h).status := status_update rfl
  have pending : ((s.setHandle h₀ { s.handle h₀ with busy }).handle h).pending = (s.handle h).pending :=
    field_update Handle.pending rfl
  rw [status] at running
  rw [pending] at set
  exact ⟨running,open_,set⟩

/-! ### Every step is one of the channel's, or none -/

/-- The channel can go on to where the module is. -/
def Followed (onMessage : Bool) (h : M) (c : Channel.State (Option P)) (s : State M P) : Prop :=
  ∃ ls c', Run (Channel.Step onMessage) c ls c' ∧ Matches h s c'

variable {onMessage : M → Bool} {l : Label M P}

theorem Matches.followed {onMessage : Bool} (same : Matches h s' c) : Followed onMessage h c s' := ⟨[],c,.nil,same⟩

private theorem followed_by {onMessage : Bool} {c' : Channel.State (Option P)} {l : Channel.Label (Option P)}
    (fires : Channel.Step onMessage c l c') (same : Matches h s' c') : Followed onMessage h c s' :=
  ⟨[l],c',.single fires,same⟩

/-- The steps of `armd_module_post`. -/
def isPosting : Label M P → Bool
  | .call _ _ _ => true
  | .lock _ => true
  | .giveUp _ => true
  | .load _ => true
  | .announce _ => true
  | .exchange _ => true
  | .write _ => true
  | .retire _ => true
  | _ => false

omit [DecidableEq P] in
private theorem mayCall_asPoster (same : Matches h s c) {p : Poster P} (may : mayCall s p) :
    Channel.mayCall c (asPoster h s.loop p) = true := by
  cases p with
  | thread p => rfl
  | handler =>
    cases inside : inHandler h s.loop with
    | false => simp [asPoster,inside,Channel.mayCall]
    | true =>
      obtain ⟨h',msg,busy⟩ := may
      have isH : h' = h := by simpa [busy,inHandler] using inside
      simp [asPoster,inHandler,Channel.mayCall,same.loop,busy,loopOf,isH]

private theorem posting_followed (same : Matches h s c) (fires : Step onMessage s l s') (posting : isPosting l) :
    Followed (onMessage h) h c s' := by
  cases fires with
  | @call p h₀ msg ret at_ may =>
    by_cases isH : h = h₀
    · subst isH
      obtain ⟨ret',out⟩ : ∃ ret', c.poster (asPoster h s.loop p) = .outside ret' := by
        have stands := same.posters (asPoster h s.loop p)
        rw [view_asPoster,at_] at stands
        exact stands
      have stands : Stands (.entered msg) (seenBy h (.entered h msg)) := by simp [seenBy,Stands]
      exact followed_by (.call out (mayCall_asPoster same may)) { same with posters := same.moved p stands }
    · exact (same.aside p (by simp [seenBy,at_,Ne.symm isH])).followed
  | @accept p h₀ msg q at_ live posted =>
    by_cases isH : h = h₀
    · subst isH
      have entered := same.at at_ (show seenBy h (.entered h msg) = some (.entered msg) by simp [seenBy])
      have stands : Stands .enqueued (seenBy h (.check h (s.handle h).published)) := by simp [seenBy,Stands]
      exact followed_by (.accept entered (by rw [same.queue]; exact posted)) { same with
        queue := by simp
        pending := by simpa using same.pending
        posters := same.moved p stands
        history := by simp [same.history]
        handled := by simp [same.handled] }
    · exact ((same.aside p (by simp [seenBy,at_,Ne.symm isH])).elsewhere _ isH).followed
  | @reject p h₀ msg at_ live refused =>
    by_cases isH : h = h₀
    · subst isH
      have entered := same.at at_ (show seenBy h (.entered h msg) = some (.entered msg) by simp [seenBy])
      have stands : Stands .full (seenBy h (.full h)) := by simp [seenBy,Stands]
      exact followed_by (.reject entered (by rw [same.queue]; exact refused)) { same with
        queue := by simp [same.queue]
        pending := by simpa using same.pending
        posters := same.moved p stands
        history := by simp [same.history]
        handled := by simp [same.handled] }
    · exact ((same.aside p (by simp [seenBy,at_,Ne.symm isH])).elsewhere _ isH).followed
  | @giveUp p h₀ at_ =>
    by_cases isH : h = h₀
    · subst isH
      have full := same.at at_ (show seenBy h (.full h) = some .full by simp [seenBy])
      have stands : Stands (.outside (some (-enospc))) (seenBy h (.outside (some (-enospc)))) := ⟨_,rfl⟩
      exact followed_by (.giveUp full) { same with posters := same.moved p stands }
    · exact (same.aside p (by simp [seenBy,at_,Ne.symm isH])).followed
  | @load p h₀ seen v at_ read =>
    by_cases isH : h = h₀ ∧ v = true
    · obtain ⟨rfl,rfl⟩ := isH
      -- the poster leaves the wakeup to whoever set the flag; to the channel it has set it
      have enqueued := same.at at_ (show seenBy h (.check h seen) = some .enqueued by simp [seenBy])
      have stands : Stands (.outside (some 0)) (seenBy h (.outside (some 0))) := ⟨_,rfl⟩
      exact followed_by (.send enqueued) { same with
        pending := fun _ _ _ => rfl
        posters := same.moved p stands }
    · refine (same.aside p ?_).followed
      cases v with
      | false => simp [seenBy,at_]
      | true =>
        have other : h₀ ≠ h := fun isH' => isH ⟨isH'.symm,rfl⟩
        simp [seenBy,at_,other]
  | @announce p h₀ at_ | @retire p h₀ at_ =>
    exact ((same.aside p (by simp [seenBy,at_])).counted h₀ _).followed
  | @exchange p h₀ at_ =>
    by_cases isH : h = h₀
    · subst isH
      have enqueued := same.at at_ (show seenBy h (.exchange h) = some .enqueued by simp [seenBy])
      have stands : Stands (.outside (some 0)) (seenBy h (if (s.handle h).pending.now then .retire h else .write h)) := by
        split <;> exact ⟨_,rfl⟩
      exact followed_by (.send enqueued) { same with
        queue := by simp [same.queue]
        pending := fun _ _ _ => rfl
        posters := same.moved p stands
        history := by simp [same.history]
        handled := by simp [same.handled] }
    · refine ((same.aside p ?_).elsewhere _ isH).followed
      split <;> simp [seenBy,at_,Ne.symm isH]
  | @write p h₀ count at_ =>
    have aside : Matches h (s.setPoster p (.retire h₀)) c := same.aside p (by simp [seenBy,at_])
    exact Matches.followed { aside with }
  | _ => cases posting

private theorem poster_step (fires : Step onMessage s l s') (loop : isPosting l = false) : s'.poster = s.poster := by
  cases fires with
  | call | accept | reject | giveUp | load | announce | exchange | write | retire => cases loop
  | _ => rfl

/-- The loop thread goes on only when it is not posting. -/
private theorem outside_step (ordered : Ordered s) (fires : Step onMessage s l s') (loop : isPosting l = false) :
    ∃ ret, s.poster .handler = .outside ret := by
  have between (idle : ∀ h msg, s.loop ≠ .handling h msg) : ∃ ret, s.poster .handler = .outside ret :=
    ordered.handler.resolve_right fun ⟨h,msg,busy⟩ => idle h msg busy
  cases fires with
  | call | accept | reject | giveUp | load | announce | exchange | write | retire => cases loop
  | finish _ out => exact ⟨_,out⟩
  | init may | close may =>
    rcases may with idle | ⟨_,_,ret,_,out⟩
    · exact between fun h msg busy => by rw [idle] at busy; cases busy
    · exact ⟨ret,out⟩
  | poll at_ | visit at_ | pass at_ | endPass at_ | take at_ | empty at_ | deliver at_ | leave at_ | closed at_ | stop at_
  | stopNext at_ | stopSpun at_ | stopEnd at_ =>
    exact between fun h msg busy => by rw [at_] at busy; cases busy

private theorem looping_followed (ordered : Ordered s) (same : Matches h s c) (fires : Step onMessage s l s')
    (loop : isPosting l = false) (old : (s.handle h).status ≠ .fresh) (open_ : (s'.handle h).status ≠ .closed) :
    Followed (onMessage h) h c s' := by
  have posters (p : Poster (Option P)) : Stands (c.poster p) (view h s' p) := by
    rw [view_loop (outside_step ordered fires loop) (poster_step fires loop)]
    exact same.posters p
  have away {h₀ : M} {a : Handle} (other : h ≠ h₀) : (s.setHandle h₀ a).handle h = s.handle h := setHandle_of_ne _ _ _ other
  have here : c.loop = loopOf h s.loop := same.loop
  cases fires with
  | call | accept | reject | giveUp | load | announce | exchange | write | retire => cases loop
  | poll at_ | endPass at_ =>
    exact (same.untouched posters rfl (by simp [at_,shutting]) (by simp [at_,loopOf])).followed
  | stop at_ | stopSpun at_ | stopEnd at_ =>
    exact (same.untouched posters rfl (fun _ => trivial) (by simp [at_,loopOf])).followed
  | @visit h₀ rest at_ first set =>
    by_cases isH : h = h₀
    · subst isH
      have running : (s.handle h).status = .running := by
        refine ((ordered.member h).mp (by simp [first])).resolve_right fun closing => ?_
        obtain ⟨back,spins⟩ := (ordered.closings h).mp closing
        rw [at_] at spins
        cases spins
      have pending := same.pending running (by simp [at_,shutting]) set
      refine followed_by (.dispatch (by simp [here,at_,loopOf]) pending) { same with
        queue := by simp [same.queue]
        pending := fun _ _ set => by simp at set
        loop := by simp [loopOf]
        posters := posters
        history := by simp [same.history]
        handled := by simp [same.handled] }
    · exact (same.untouched posters (away isH) (by simp [at_,shutting]) (by simp [at_,loopOf,Ne.symm isH])).followed
  | @pass h₀ rest at_ first unset =>
    refine (same.unnoticed posters (field_update Handle.queue rfl) (field_update Handle.history rfl)
      (field_update Handle.handled rfl) (fun running _ set => ?_) rfl).followed
    have other : h ≠ h₀ := by
      rintro rfl
      simp at set
    simp only [away other] at running set
    exact ⟨running,by simp [at_,shutting],set⟩
  | @stopNext h₀ rest at_ =>
    exact (same.unnoticed posters (field_update Handle.queue rfl) (field_update Handle.history rfl)
      (field_update Handle.handled rfl) (fun _ last _ => absurd trivial last) (by simp [at_,loopOf])).followed
  | @take h₀ msg q at_ live got =>
    by_cases isH : h = h₀
    · subst isH
      have top : c.loop = .top := by simp [here,at_,loopOf]
      refine followed_by (.take top (by rw [same.queue]; exact got)) { same with
        queue := by simp
        pending := fun running _ set => same.pending (by simpa using running) (by simp [at_,shutting]) (by simpa using set)
        loop := by simp [loopOf]
        posters := posters
        history := by simp [same.history]
        handled := by simp [same.handled] }
    · exact (same.untouched posters (away isH) (by simp [at_,shutting]) (by simp [at_,loopOf,Ne.symm isH])).followed
  | @empty h₀ at_ live none =>
    by_cases isH : h = h₀
    · subst isH
      have top : c.loop = .top := by simp [here,at_,loopOf]
      refine followed_by (.empty top (by rw [same.queue]; exact none)) { same with
        queue := by simp [same.queue]
        pending := fun running _ set => same.pending (by simpa using running) (by simp [at_,shutting]) (by simpa using set)
        loop := by simp [loopOf]
        posters := posters
        history := by simp [same.history]
        handled := by simp [same.handled] }
    · exact (same.untouched posters (away isH) (by simp [at_,shutting]) (by simp [at_,loopOf,Ne.symm isH])).followed
  | @deliver h₀ msg at_ =>
    by_cases isH : h = h₀
    · subst isH
      have got : c.loop = .taken msg := by simp [here,at_,loopOf]
      refine followed_by (.deliver got) { same with
        queue := by simp [same.queue]
        pending := fun running _ set => same.pending (by simpa using running) (by simp [at_,shutting]) (by simpa using set)
        loop := by cases onMessage h <;> simp [loopOf]
        posters := posters
        history := by simp [same.history]
        handled := by simp [same.handled] }
    · refine (same.untouched posters (away isH) (by simp [at_,shutting]) ?_).followed
      cases onMessage h₀ <;> simp [at_,loopOf,Ne.symm isH]
  | @finish h₀ msg ret at_ out =>
    by_cases isH : h = h₀
    · subst isH
      have busy : c.loop = .handling msg := by simp [here,at_,loopOf]
      obtain ⟨ret',outside⟩ : ∃ ret', c.poster .handler = .outside ret' := by
        have stands := same.posters .handler
        rwa [show view h s .handler = none by simp [view,out,seenBy]] at stands
      exact followed_by (.finish busy outside) { same with
        pending := fun running _ set => same.pending running (by simp [at_,shutting]) set
        loop := by simp [loopOf]
        posters := posters }
    · exact (same.untouched posters rfl (by simp [at_,shutting]) (by simp [at_,loopOf,Ne.symm isH])).followed
  | @leave h₀ at_ =>
    by_cases isH : h = h₀
    · subst isH
      exact followed_by (.leave (by simp [here,at_,loopOf])) { same with
        pending := fun running _ set => same.pending running (by simp [at_,shutting]) set
        loop := by simp [loopOf]
        posters := posters }
    · exact (same.untouched posters rfl (by simp [at_,shutting]) (by simp [at_,loopOf,Ne.symm isH])).followed
  | @init h₀ may fresh =>
    have other : h ≠ h₀ := by
      rintro rfl
      exact old fresh
    exact (same.untouched posters (away other) id rfl).followed
  | @close h₀ may running₀ =>
    refine (same.unnoticed posters (field_update Handle.queue rfl) (field_update Handle.history rfl)
      (field_update Handle.handled rfl) (fun running _ set => ?_) rfl).followed
    have other : h ≠ h₀ := by
      rintro rfl
      simp at running
    simp only [away other] at running set
    exact ⟨running,not_shutting_of_mayClose may,set⟩
  | @closed h₀ back at_ closing idle =>
    have other : h ≠ h₀ := by
      rintro rfl
      simp at open_
    exact (same.untouched posters (away other) (by simp [at_,shutting]) (by simp [at_,loopOf])).followed

/-! ### Runs -/

/-- A module whose callback runs was set up. -/
def Located (s : State M P) : Prop := ∀ h, loopOf h s.loop ≠ .idle → (s.handle h).status ≠ .fresh

private theorem located_step (ordered : Ordered s) (located : Located s) (fires : Step onMessage s l s') : Located s' := by
  intro h inside
  by_cases before : loopOf h s.loop = .idle
  · cases fires with
    | @visit h₀ rest at_ first =>
      have isH : h₀ = h := by
        by_contra other
        simp [loopOf,other] at inside
      subst isH
      have member := (ordered.member h₀).mp (by simp [first])
      show ((s.setHandle h₀ _).handle h₀).status ≠ .fresh
      rw [setHandle_self]
      rcases member with running | closing
      · simp [running]
      · simp [closing]
    | call | accept | reject | giveUp | load | announce | exchange | write | retire | pass | init | close =>
      exact absurd before inside
    | @deliver h₀ _ at_ =>
      have other : h₀ ≠ h := by simpa [at_,loopOf] using before
      exact absurd (by cases onMessage h₀ <;> simp [loopOf,other]) inside
    | poll at_ | endPass at_ | take at_ | empty at_ | finish at_ | leave at_ | closed at_ | stop at_ | stopNext at_ | stopSpun at_
    | stopEnd at_ =>
      rw [at_] at before
      simp_all [loopOf]
  · exact touch_status (located h before) (step_touch fires h)

/-- The module has behaved as a channel since it was started. -/
def Mirrored (onMessage : Bool) (s : State M P) (h : M) : Prop :=
  ∃ q ls c, Run (Channel.Step onMessage) (Channel.started q) ls c ∧ Matches h s c

/-- A module that has just been started is a channel that has just been started. -/
private theorem mirrored_init (ordered : Ordered s) (located : Located s) (fires : Step onMessage s (.init h) s') :
    Mirrored (onMessage h) s' h := by
  cases fires with
  | init may fresh =>
    have idle : loopOf h s.loop = .idle := by
      by_contra inside
      exact located h inside fresh
    have away (p : Poster P) : seenBy h (s.poster p) = none := by
      have none : target (s.poster p) ≠ some h := fun about => ordered.posters p h about fresh
      cases at_ : s.poster p <;> simp_all [seenBy,target]
    refine ⟨(s.handle h).queue,[],_,.nil,?_,fun _ _ set => ?_,idle.symm,fun p => ?_,?_,?_⟩
    · simp [started,Channel.started]
    · simp [started] at set
    · have seen : view h s p = none := by
        rcases p with (_ | q) | _
        · simp [view,away]
        · exact away _
        · simp [view,away]
      show Stands _ (view h s p)
      rw [seen]
      exact ⟨_,rfl⟩
    · simp [started,Channel.started]
    · simp [started,Channel.started]

private theorem closed_touch {onMessage : Bool} {a a' : Handle} (touch : Touch onMessage a a') (closed : a.status = .closed) :
    a'.status = .closed := by
  cases touch with
  | start fresh => rw [closed] at fresh; cases fresh
  | close running => rw [closed] at running; cases running
  | closed => rfl
  | _ => exact closed

/-- Only its start makes a module of what is none yet. -/
private theorem init_of_fresh (fires : Step onMessage s l s') (fresh : (s.handle h).status = .fresh)
    (started : (s'.handle h).status ≠ .fresh) : l = .init h := by
  by_cases between : isPhase l = false
  · exact absurd ((status_step fires between h).trans fresh) started
  · have same {h₀ : M} {a : Handle} (changed : ((s.setHandle h₀ a).handle h).status ≠ .fresh) : h = h₀ := by
      by_contra other
      exact changed (by rw [setHandle_of_ne _ _ _ other]; exact fresh)
    cases fires with
    | init => rw [same started]
    | close _ running =>
      cases same started
      rw [fresh] at running
      cases running
    | closed _ closing =>
      cases same started
      rw [fresh] at closing
      cases closing
    | _ => exact absurd rfl between

private theorem mirrored_step (ordered : Ordered s) (located : Located s)
    (mirrored : (s.handle h).status = .running ∨ (s.handle h).status = .closing → Mirrored (onMessage h) s h)
    (fires : Step onMessage s l s') (open_ : (s'.handle h).status = .running ∨ (s'.handle h).status = .closing) :
    Mirrored (onMessage h) s' h := by
  by_cases old : (s.handle h).status = .fresh
  · have isInit := init_of_fresh fires old (by rcases open_ with at_ | at_ <;> simp [at_])
    subst isInit
    exact mirrored_init ordered located fires
  · have open' : (s'.handle h).status ≠ .closed := by rcases open_ with at_ | at_ <;> simp [at_]
    have before : (s.handle h).status = .running ∨ (s.handle h).status = .closing := by
      cases at_ : (s.handle h).status with
      | fresh => exact absurd at_ old
      | running => exact .inl rfl
      | closing => exact .inr rfl
      | closed => exact absurd (closed_touch (step_touch fires h) at_) open'
    obtain ⟨q,ls,c,run,same⟩ := mirrored before
    obtain ⟨ls',c',more,same'⟩ : Followed (onMessage h) h c s' := by
      cases loop : isPosting l with
      | true => exact posting_followed same fires loop
      | false => exact looping_followed ordered same fires loop old open'
    exact ⟨q,ls ++ ls',c',run.trans more,same'⟩

theorem mirrored_run {memory : M → Handle} {ls : List (Label M P)} (run : Run (Step onMessage) (initial memory) ls s)
    (h : M) (open_ : (s.handle h).status = .running ∨ (s.handle h).status = .closing) : Mirrored (onMessage h) s h := by
  have all : Ordered s ∧ Located s ∧
      ((s.handle h).status = .running ∨ (s.handle h).status = .closing → Mirrored (onMessage h) s h) := by
    refine run.invariant (fun s => Ordered s ∧ Located s ∧
      ((s.handle h).status = .running ∨ (s.handle h).status = .closing → Mirrored (onMessage h) s h)) ?_ ?_
    · refine ⟨ordered_initial memory,fun h inside => absurd rfl inside,fun open_ => ?_⟩
      rcases open_ with at_ | at_ <;> cases at_
    · rintro s l s' ⟨ordered,located,mirrored⟩ fires
      exact ⟨ordered_step ordered fires,located_step ordered located fires,mirrored_step ordered located mirrored fires⟩
  exact all.2.2 open_

/-- The message that the module's callback has taken out and not yet handed over. -/
def inHand (h : M) : LoopPc M → List ArmdMsg
  | .taken h' msg => if h' = h then [msg] else []
  | .spinning _ back => inHand h back
  | _ => []

omit [DecidableEq P] in
private theorem inHand_loopOf (h : M) (loop : LoopPc M) {c : Channel.State (Option P)} (same : c.loop = loopOf h loop) :
    Channel.inHand c = inHand h loop := by
  induction loop with
  | spinning _ back ih => exact ih same
  | top h' | handling h' msg | leaving h' =>
    by_cases isH : h' = h <;> simp [Channel.inHand,inHand,loopOf,same,isH]
  | taken h' msg => by_cases isH : h' = h <;> simp [Channel.inHand,inHand,loopOf,same,isH]
  | _ => simp [Channel.inHand,inHand,loopOf,same]

/-- What is offered to a module and taken from it is a run of the bounded queue, and what it accepted has been handed
    over, is in hand or waits, in this order. -/
structure Served (s : State M P) (h : M) : Prop where
  fifo : Run (FifoStep (queueSize-1)) [] (s.handle h).history (s.handle h).queue.pending
  conserved : accepted (s.handle h).history = (s.handle h).handled ++ inHand h s.loop ++ (s.handle h).queue.pending

theorem Mirrored.served {onMessage : Bool} (mirrored : Mirrored onMessage s h) : Served s h := by
  obtain ⟨q,ls,c,run,same⟩ := mirrored
  have refines := Channel.refines_run run
  have fifo := refines.fifo
  have handed := refines.handedOver
  rw [same.history,same.queue] at fifo
  rw [same.history,same.handled,inHand_loopOf h s.loop same.loop] at handed
  exact ⟨fifo,by rw [fifo_conserves fifo,handed]⟩

/-- Each module of a loop, whatever the others do, behaves as a channel of its own from its start to the end of its
    closing, and serves what is posted to it in order. -/
theorem modules_are_channels (onMessage : M → Bool) (memory : M → Handle) {ls : List (Label M P)} {s : State M P}
    (run : Run (Step onMessage) (initial memory) ls s) {h : M}
    (open_ : (s.handle h).status = .running ∨ (s.handle h).status = .closing) :
    Mirrored (onMessage h) s h ∧ Served s h :=
  have mirrored := mirrored_run run h open_
  ⟨mirrored,mirrored.served⟩

end

/-- A module with a message in its queue. -/
theorem modules_are_channels_one : ∃ (ls : List (Label Unit Unit)) (s : State Unit Unit),
    Run (Step fun _ => true) (initial fun _ => zeroHandle) ls s ∧ Mirrored true s () ∧ Served s () := by
  obtain ⟨s,run,running,_⟩ := one_message
  exact ⟨_,s,run,modules_are_channels (fun _ => true) (fun _ => zeroHandle) run (.inl running)⟩

end Armd.AsyncChannel
