import Armd.StartCallbacks
import Mathlib.Data.List.Flatten

/-!
`armd_module_stopall` while the modules' `on_stop` callbacks look modules up and
unregister them. Every round stops the module at the head of a ring, whoever
left the rings meanwhile, and the delete that ends the round finds the module on
its ring or linked to itself. So the loops empty all rings and stop each module
once at most, in order (`stopall_under_callbacks`); the assertion of `uv_close`
on a handle that was not open is the only other way out, which is taken exactly
when the turn comes to a module that has operations and was not open on entry
(`stopall_clears_iff`).
-/
namespace Armd.StopCallbacks
open Armd.Programs Armd.LinkedRings Armd.Datastructure Armd.Memory Armd.Module Armd.Registry Armd.RegistryModel
  Armd.Traversal Armd.RegistryCalls Armd.StartStop
open Armd.StartCallbacks (Left left_append bothModules bothModules_disciplined)

variable {M : Type}

/-! ### Callbacks that look up and unregister -/

/-- An `on_stop` as the registry calls it makes; what it does next may depend on what a lookup found. -/
inductive Callback (M : Type)
  | ret (value : ℤ)
  | find (name : Option (ℕ → UInt8)) (next : Option M → Callback M)
  | unregister (m : M) (level : ℕ) (next : Callback M)

/-- The names of modules, for lookups. -/
def lookups (name : M → ℕ → UInt8) : System M := ⟨name,fun _ => none,fun _ _ => 0⟩

def perform [DecidableEq M] (name : M → ℕ → UInt8) (fuel : ℕ) : Callback M → Program (World M) ℤ
  | .ret value => pure value
  | .find query next => do
    let found ← armdModuleFind (lookups name) fuel query
    perform name fuel (next found)
  | .unregister m level next => do
    armdModuleUnregister (some m) level
    perform name fuel next

/-- The callback unregisters modules of a class only, as long as lookups find no others. -/
def Callback.Within (ever : M → Prop) : Callback M → Prop
  | .ret _ => True
  | .find _ next => ∀ found, (∀ m, found = some m → ever m) → (next found).Within ever
  | .unregister m _ next => ever m ∧ next.Within ever

/-- The `on_stop` of each module, which may depend on the world it is called in. -/
abbrev Script (M : Type) := M → World M → Callback M

def scripted [DecidableEq M] (name : M → ℕ → UInt8) (fuel : ℕ) (script : Script M) (m : M) : Program (World M) ℤ := do
  let w ← Program.get
  perform name fuel (script m w)

/-- Every `on_stop` there is follows the script. -/
def Scripted [DecidableEq M] (sys : System M) (fuel : ℕ) (script : Script M) : Prop :=
  ∀ m mops, sys.mops m = some mops → mops.onStop = none ∨ mops.onStop = some (scripted sys.name fuel script)

/-- The rings are the lists, and the modules that were ever registered are on them or linked to themselves. -/
structure Sound (ever : M → Prop) (R : Levels M) (w : World M) : Prop where
  initialized : w.registryInitialized = true
  rep : Represents w.lists R
  known : ∀ m, Registered R m → ever m
  off : ∀ m, ever m → ¬ Registered R m → Alone w.lists (.module m)

/-- Some modules have left the rings, each with an event, and no module object has changed. -/
structure Thins (R R' : Levels M) (w w' : World M) (during : List (Event M)) : Prop where
  sub : ∀ l, (R' l).Sublist (R l)
  left : ∀ m, Registered R m → Registered R' m ∨ Left during m
  gone : ∀ m, Left during m → ¬ Registered R' m
  trace : w'.trace = w.trace ++ during
  silent : stopsOf during = []
  modules : w'.modules = w.modules

private theorem registered_of_sub {R R' : Levels M} (sub : ∀ l, (R' l).Sublist (R l)) {m : M} : Registered R' m → Registered R m :=
  fun ⟨l,inside⟩ => ⟨l,(sub l).subset inside⟩

private theorem not_left_nil (m : M) : ¬ Left ([] : List (Event M)) m := by simp [Left]

theorem Thins.refl (R : Levels M) (w : World M) : Thins R R w w [] :=
  ⟨fun _ => List.Sublist.refl _,fun _ there => .inl there,fun m gone => absurd gone (not_left_nil m),by simp,rfl,rfl⟩

theorem Thins.trans {R₁ R₂ R₃ : Levels M} {w₁ w₂ w₃ : World M} {a b : List (Event M)} (first : Thins R₁ R₂ w₁ w₂ a)
    (second : Thins R₂ R₃ w₂ w₃ b) : Thins R₁ R₃ w₁ w₃ (a ++ b) where
  sub := fun l => (second.sub l).trans (first.sub l)
  left := by
    intro m there
    rw [left_append]
    rcases first.left m there with still | gone
    · exact (second.left m still).imp_right .inr
    · exact .inr (.inl gone)
  gone := by
    intro m gone still
    rcases left_append.mp gone with before | later
    · exact first.gone m before (registered_of_sub second.sub still)
    · exact second.gone m later still
  trace := by rw [second.trace,first.trace,List.append_assoc]
  silent := by rw [stopsOf_append,first.silent,second.silent,List.append_nil]
  modules := second.modules.trans first.modules

private theorem rounds_mono {R R' : Levels M} (sub : ∀ l, (R' l).Sublist (R l)) : rounds R' ≤ rounds R :=
  Nat.succ_le_succ (List.Sublist.flatMap_right levels fun l _ => sub l).length_le

section
variable [DecidableEq M] {ever : M → Prop} {R : Levels M} {w : World M}

/-- Deleting a module that was ever registered takes it off the rings, on which it need not be. -/
private theorem sound_delete (sound : Sound ever R w) {m : M} (known : ever m) :
    ∃ g, armdListDelete w.lists (.module m) = some g ∧ Sound ever (remove R m) { w with lists := g } := by
  by_cases present : Registered R m
  · obtain ⟨g,deleted,rep,alone,others⟩ := represents_unregister sound.rep present
    refine ⟨g,deleted,sound.initialized,rep,fun x there => ?_,fun x once out => ?_⟩
    · exact sound.known x ((registered_remove sound.rep.nodup).mp there).1
    · rw [registered_remove sound.rep.nodup,not_and_or,not_not] at out
      by_cases same : x = m
      · exact same ▸ alone
      · have off := out.resolve_right same
        refine (sound.off x once off).frame fun y at_x => ?_
        rw [List.mem_singleton.mp at_x]
        exact others x off
  · have deleted := armdListDelete_alone (sound.off m known present)
    rw [remove_of_not_registered present]
    exact ⟨w.lists,deleted,sound⟩

private theorem remove_sub (R : Levels M) (m : M) (l : Fin maxLevel) : (remove R m l).Sublist (R l) := List.erase_sublist

/-- A callback may unregister a module at any level, and one that is on no ring. -/
private theorem unregister_thins (sound : Sound ever R w) {m : M} (known : ever m) (level : ℕ) :
    ∃ w' R' during, armdModuleUnregister (some m) level w = .done () w' ∧ Sound ever R' w' ∧ Thins R R' w w' during := by
  by_cases inside : level < maxLevel
  · obtain ⟨g,deleted,sound'⟩ := sound_delete sound known
    have ran := run_unregister sound.initialized m ⟨level,inside⟩ deleted
    refine ⟨_,remove R m,_,ran,⟨sound'.initialized,sound'.rep,sound'.known,sound'.off⟩,remove_sub R m,fun x there => ?_,
      fun x gone still => ?_,rfl,rfl,rfl⟩
    · by_cases same : x = m
      · exact .inr ⟨level,by simp [same,RegistryCall.event]⟩
      · exact .inl ((registered_remove sound.rep.nodup).mpr ⟨there,same⟩)
    · obtain ⟨level',member⟩ := gone
      cases List.mem_singleton.mp member
      exact ((registered_remove sound.rep.nodup).mp still).2 rfl
  · refine ⟨w,R,[],?_,sound,Thins.refl R w⟩
    have beyond : maxLevel ≤ level := by omega
    simp [armdModuleUnregister,beyond]

/-- A lookup ends and finds registered modules only. -/
private theorem find_known (sound : Sound ever R w) (name : M → ℕ → UInt8) {fuel : ℕ} (enough : rounds R ≤ fuel)
    (query : Option (ℕ → UInt8)) :
    ∃ found, armdModuleFind (lookups name) fuel query w = .done found w ∧ ∀ m, found = some m → ever m := by
  cases query with
  | none => exact ⟨none,rfl,by simp⟩
  | some q =>
    refine ⟨_,find_eq (lookups name) q sound.rep sound.initialized enough,fun m found => ?_⟩
    exact sound.known m (mem_startOrder.mp (List.mem_of_find?_eq_some found))

/-- A callback returns, and has taken some modules off the rings. -/
private theorem perform_thins (name : M → ℕ → UInt8) {fuel : ℕ} (callback : Callback M) : ∀ {R : Levels M} {w : World M},
    Sound ever R w → callback.Within ever → rounds R ≤ fuel →
      ∃ ret w' R' during, perform name fuel callback w = .done ret w' ∧ Sound ever R' w' ∧ Thins R R' w w' during := by
  induction callback with
  | ret value => intro R w sound _ _; exact ⟨value,w,R,[],rfl,sound,Thins.refl R w⟩
  | find query next ih =>
    intro R w sound within enough
    obtain ⟨found,looked,known⟩ := find_known sound name enough query
    obtain ⟨ret,w',R',during,ran,sound',thins⟩ := ih found sound (within found known) enough
    exact ⟨ret,w',R',during,by simp [perform,looked,ran],sound',thins⟩
  | unregister m level next ih =>
    intro R w sound within enough
    obtain ⟨w₁,R₁,first,unregistered,sound₁,thins₁⟩ := unregister_thins sound within.1 level
    obtain ⟨ret,w',R',rest,ran,sound',thins'⟩ := ih sound₁ within.2 ((rounds_mono thins₁.sub).trans enough)
    exact ⟨ret,w',R',first ++ rest,by simp [perform,unregistered,ran],sound',thins₁.trans thins'⟩

/-- What a stop has done that came back: its callback took some modules off the rings, and of the module
    objects only that of the stopped one has changed. -/
structure Stopped (sys : System M) (m : M) (R R' : Levels M) (w w' : World M) (events : List (Event M)) : Prop where
  sub : ∀ l, (R' l).Sublist (R l)
  left : ∀ x, Registered R x → Registered R' x ∨ Left events x
  gone : ∀ x, Left events x → ¬ Registered R' x
  opened : sys.mops m ≠ none → (w.modules m).async.state = .active
  trace : w'.trace = w.trace ++ events
  stops : stopsOf events = [m]
  others : ∀ x, x ≠ m → w'.modules x = w.modules x

/-- `uv_close` found the handle of the module not open. -/
structure Aborted (m : M) (w w' : World M) (events : List (Event M)) : Prop where
  trace : w'.trace = w.trace ++ events
  stops : stopsOf events = [m]
  notOpen : (w.modules m).async.state ≠ .active
  first : ∃ rest, events = .stopCalled m :: rest
  last : events.getLast? = some (.close (.module m) (w.modules m).async.state)

variable {sys : System M} {fuel : ℕ} {script : Script M}

/-- The `on_stop` call of a stop. -/
private theorem callOnStop_thins (behaves : Scripted sys fuel script)
    (within : ∀ m w R, Sound ever R w → (script m w).Within ever) (sound : Sound ever R w) (enough : rounds R ≤ fuel)
    {m : M} {mops : ArmdModuleOps M} (ops : sys.mops m = some mops) :
    ∃ w' R' during, callOnStop m mops.onStop w = .done () w' ∧ Sound ever R' w' ∧ Thins R R' w w' during := by
  rcases behaves m mops ops with absent | present
  · exact ⟨w,R,[],by simp [absent,callOnStop],sound,Thins.refl R w⟩
  · have called : Sound ever R (w.record (.onStop m)) := ⟨sound.initialized,sound.rep,sound.known,sound.off⟩
    obtain ⟨ret,w',R',during,ran,sound',thins⟩ := perform_thins sys.name (script m _) called (within m _ R called) enough
    have entered : Thins R R w (w.record (.onStop m)) [.onStop m] :=
      ⟨fun _ => List.Sublist.refl _,fun _ there => .inl there,by simp [Left],rfl,rfl,rfl⟩
    exact ⟨w',R',_,by simp [present,callOnStop,record,scripted,ran],sound',entered.trans thins⟩

private theorem stop_scripted (behaves : Scripted sys fuel script)
    (within : ∀ m w R, Sound ever R w → (script m w).Within ever) (sound : Sound ever R w) (enough : rounds R ≤ fuel)
    (m : M) :
    (∃ w' R' events, armdModuleStop sys (some m) w = .done () w' ∧ Sound ever R' w' ∧ Stopped sys m R R' w w' events) ∨
      ∃ w' events, armdModuleStop sys (some m) w = .abort w' ∧ sys.mops m ≠ none ∧ Aborted m w w' events := by
  cases ops : sys.mops m with
  | none =>
    refine .inl ⟨(w.record (.stopCalled m)).record (.stopped m),R,[.stopCalled m,.stopped m],
      by simp [armdModuleStop,stopModule,ops,record],⟨sound.initialized,sound.rep,sound.known,sound.off⟩,?_⟩
    exact ⟨fun _ => List.Sublist.refl _,fun _ there => .inl there,by simp [Left],fun operates => absurd ops operates,by simp,
      rfl,fun _ _ => rfl⟩
  | some mops =>
    have entered : Sound ever R (w.record (.stopCalled m)) := ⟨sound.initialized,sound.rep,sound.known,sound.off⟩
    obtain ⟨w₁,R₁,during,called,sound₁,thins⟩ := callOnStop_thins behaves within entered enough ops
    have object : w₁.modules m = w.modules m := congrFun thins.modules m
    by_cases isOpen : (w.modules m).async.state = .active
    · refine .inl ⟨((closeHandle (w₁.record (.close (.module m) .active)) (.module m)).setMutex m .destroyed).record
        (.mutexDestroy m (w.modules m).msgQueue.qMutex) |>.record (.stopped m),R₁,
        .stopCalled m :: (during ++ [.close (.module m) .active,.mutexDestroy m (w.modules m).msgQueue.qMutex,.stopped m]),
        ?_,⟨sound₁.initialized,sound₁.rep,sound₁.known,sound₁.off⟩,thins.sub,fun x there => ?_,fun x gone => ?_,
        fun _ => isOpen,?_,?_,fun x other => ?_⟩
      · simp [armdModuleStop,stopModule,ops,record,called,uvClose,World.async,object,isOpen,pthreadMutexDestroy]
      · refine (thins.left x there).imp_right ?_
        rintro ⟨level,gone⟩
        exact ⟨level,by simp [gone]⟩
      · obtain ⟨level,member⟩ := gone
        exact thins.gone x ⟨level,by simpa using member⟩
      · simp [thins.trace]
      · have parts := stopsOf_append during [.close (.module m) .active,
          .mutexDestroy m (w.modules m).msgQueue.qMutex,.stopped m]
        rw [thins.silent] at parts
        exact congrArg (m :: ·) parts
      · simp [other,thins.modules]
    · refine .inr ⟨w₁.record (.close (.module m) (w.modules m).async.state),
        .stopCalled m :: (during ++ [.close (.module m) (w.modules m).async.state]),?_,by simp,?_,?_,isOpen,⟨_,rfl⟩,?_⟩
      · simp [armdModuleStop,stopModule,ops,record,called,uvClose,World.async,object,isOpen]
      · simp [thins.trace]
      · have parts := stopsOf_append during [.close (.module m) (w.modules m).async.state]
        rw [thins.silent] at parts
        exact congrArg (m :: ·) parts
      · rw [← List.cons_append,List.getLast?_concat]

/-! ### The loops -/

/-- On the way through the levels `ls`, called in `w₀` over the registry `R₀`: the stops so far and the modules
    still ahead are, in order, some of those registered on entry, and the others were unregistered. -/
structure Stopping (sys : System M) (ever : M → Prop) (R₀ : Levels M) (w₀ : World M) (ls : List (Fin maxLevel))
    (R : Levels M) (w : World M) (new : List (Event M)) : Prop where
  sound : Sound ever R w
  sub : ∀ l, (R l).Sublist (R₀ l)
  trace : w.trace = w₀.trace ++ new
  order : (stopsOf new ++ ls.flatMap R).Sublist (stopOrder R₀)
  covers : ∀ m, Registered R₀ m → m ∈ stopsOf new ∨ Left new m ∨ Registered R m
  gone : ∀ m, Left new m → ¬ Registered R m
  opened : ∀ m ∈ stopsOf new, sys.mops m ≠ none → (w₀.modules m).async.state = .active
  emptied : ∀ l, l ∉ ls → R l = []
  untouched : ∀ m, m ∉ stopsOf new → w.modules m = w₀.modules m

/-- No callback unregisters the module before it is stopped. -/
def Remains (m : M) (new : List (Event M)) : Prop :=
  ∀ before level, before ++ [.unregistered m level] <+: new → .stopCalled m ∈ before

/-- How the whole run is cut short: a module that was registered on entry, has operations and was not open then
    is stopped, as no callback unregistered it before. -/
def Cut (sys : System M) (R₀ : Levels M) (w₀ w' : World M) (new : List (Event M)) : Prop :=
  ∃ m, Registered R₀ m ∧ sys.mops m ≠ none ∧ (w₀.modules m).async.state ≠ .active ∧ Remains m new ∧
    w'.trace = w₀.trace ++ new ∧ (stopsOf new).Sublist (stopOrder R₀) ∧
      new.getLast? = some (.close (.module m) (w₀.modules m).async.state)

omit [DecidableEq M] in
theorem Remains.stopped {m : M} {new : List (Event M)} (remains : Remains m new) (gone : Left new m) : m ∈ stopsOf new := by
  obtain ⟨level,member⟩ := gone
  obtain ⟨before,after,rfl⟩ := List.append_of_mem member
  have earlier : .stopCalled m ∈ before := remains before level ⟨after,by simp⟩
  exact List.mem_filterMap.mpr ⟨_,List.mem_append_left _ earlier,rfl⟩

omit [DecidableEq M] in
/-- A module that has not left when it is stopped was not unregistered before. -/
private theorem remains_of_first {m : M} {new rest : List (Event M)} (there : ¬ Left new m) :
    Remains m (new ++ .stopCalled m :: rest) := by
  rintro before level ⟨after,same⟩
  rw [List.append_assoc] at same
  rcases List.append_eq_append_iff.mp same with ⟨between,early,split⟩ | ⟨between,late,split⟩
  · cases between with
    | nil => cases split
    | cons e others =>
      cases split
      exact absurd ⟨level,by simp [early]⟩ there
  · cases between with
    | nil => cases split
    | cons e others =>
      cases split
      simp [late]

variable {R₀ : Levels M} {w₀ : World M}

/-- A round stops the head of the ring and takes it off, if it is still there. -/
private theorem stopping_round (behaves : Scripted sys fuel script)
    (within : ∀ m w R, Sound ever R w → (script m w).Within ever) (rep₀ : Represents w₀.lists R₀)
    (enough : rounds R₀ ≤ fuel) {l : Fin maxLevel} {later : List (Fin maxLevel)} {m : M} {rest : List M}
    {new : List (Event M)} (split : R l = m :: rest) (stopping : Stopping sys ever R₀ w₀ (l :: later) R w new) :
    (∃ w' R' new', stopallRound sys (.sentinel l) w = .done (.inl ()) w' ∧
      Stopping sys ever R₀ w₀ (l :: later) R' w' new' ∧ stopsOf new' = stopsOf new ++ [m]) ∨
      ∃ w' new', stopallRound sys (.sentinel l) w = .abort w' ∧ Cut sys R₀ w₀ w' new' := by
  have ahead : stopsOf new ++ (l :: later).flatMap R = stopsOf new ++ [m] ++ (rest ++ later.flatMap R) := by
    simp [split]
  have order := stopping.order
  rw [ahead] at order
  have distinct := (stopOrder_nodup rep₀).sublist order
  have onEntry : Registered R₀ m := mem_stopOrder.mp (order.subset (by simp))
  have unstopped : m ∉ stopsOf new := by
    intro there
    exact (List.nodup_append.mp (List.nodup_append.mp distinct).1).2.2 m there m (by simp) rfl
  have object := stopping.untouched m unstopped
  have round := stopallRound_cons sys stopping.sound.rep split
  have enoughNow := (rounds_mono stopping.sub).trans enough
  rcases stop_scripted behaves within stopping.sound enoughNow m with
    ⟨w₁,R₁,events,stopped,sound₁,did⟩ | ⟨w₁,events,aborted,ops,did⟩
  · have once : ever m := stopping.sound.known m ⟨l,by simp [split]⟩
    obtain ⟨g,deleted,sound₂⟩ := sound_delete sound₁ once
    have stops : stopsOf (new ++ events) = stopsOf new ++ [m] := by rw [stopsOf_append,did.stops]
    have sub : ∀ l, (remove R₁ m l).Sublist (R l) := fun l => (remove_sub R₁ m l).trans (did.sub l)
    have headGone : (remove R₁ m l).Sublist rest := by
      have erased := (did.sub l).erase m
      rwa [split,List.erase_cons_head] at erased
    refine .inl ⟨{ w₁ with lists := g },remove R₁ m,new ++ events,?_,?_,stops⟩
    · simp [round,stopped,onLists,deleted]
    · refine ⟨sound₂,fun l => (sub l).trans (stopping.sub l),by simp [did.trace,stopping.trace],?_,?_,?_,?_,?_,?_⟩
      · rw [stops]
        refine List.Sublist.trans ?_ order
        have onward := List.Sublist.flatMap_right later fun l _ => sub l
        exact (List.Sublist.refl _).append (headGone.append onward)
      · intro x there
        rw [stops,left_append,List.mem_append,List.mem_singleton]
        rcases stopping.covers x there with before | gone | still
        · exact .inl (.inl before)
        · exact .inr (.inl (.inl gone))
        · by_cases same : x = m
          · exact .inl (.inr same)
          · rcases did.left x still with kept | gone
            · exact .inr (.inr ((registered_remove sound₁.rep.nodup).mpr ⟨kept,same⟩))
            · exact .inr (.inl (.inr gone))
      · intro x gone still
        rcases left_append.mp gone with before | during
        · exact stopping.gone x before (registered_of_sub sub still)
        · exact did.gone x during (registered_of_sub (remove_sub R₁ m) still)
      · intro x stopped operates
        rw [stops,List.mem_append,List.mem_singleton] at stopped
        rcases stopped with before | rfl
        · exact stopping.opened x before operates
        · rw [← object]
          exact did.opened operates
      · intro l' outside
        have shorter := sub l'
        rw [stopping.emptied l' outside] at shorter
        exact List.sublist_nil.mp shorter
      · intro x outside
        rw [stops,List.mem_append,List.mem_singleton,not_or] at outside
        exact (did.others x outside.2).trans (stopping.untouched x outside.1)
  · have present : ¬ Left new m := fun gone => stopping.gone m gone ⟨l,by simp [split]⟩
    obtain ⟨others,begun⟩ := did.first
    refine .inr ⟨w₁,new ++ events,by simp [round,aborted],m,onEntry,ops,object ▸ did.notOpen,begun ▸ remains_of_first present,
      by simp [did.trace,stopping.trace],?_,?_⟩
    · rw [stopsOf_append,did.stops]
      exact (List.sublist_append_left _ _).trans order
    · have nonempty : events ≠ [] := by rintro rfl; cases did.last
      rw [List.getLast?_append_of_ne_nil _ nonempty,did.last,object]

/-- The loop over a ring ends with the ring empty, or is cut short. -/
private theorem stopping_ring (behaves : Scripted sys fuel script)
    (within : ∀ m w R, Sound ever R w → (script m w).Within ever) (rep₀ : Represents w₀.lists R₀)
    (enough : rounds R₀ ≤ fuel) {l : Fin maxLevel} {later : List (Fin maxLevel)} {new : List (Event M)}
    (stopping : Stopping sys ever R₀ w₀ (l :: later) R w new) :
    (∃ w' R' new', Program.loop (fun _ => stopallRound sys (.sentinel l)) fuel () w = .done () w' ∧
      Stopping sys ever R₀ w₀ later R' w' new') ∨
      ∃ w' new', Program.loop (fun _ => stopallRound sys (.sentinel l)) fuel () w = .abort w' ∧ Cut sys R₀ w₀ w' new' := by
  have since : ∀ {R w new}, Stopping sys ever R₀ w₀ (l :: later) R w new → w.trace.drop w₀.trace.length = new := by
    intro R w new inv; rw [inv.trace,List.drop_left]
  refine Program.loop_ends (fun _ w => ∃ R new, Stopping sys ever R₀ w₀ (l :: later) R w new)
    (fun _ w => (stopOrder R₀).length-(stopsOf (w.trace.drop w₀.trace.length)).length)
    (fun o => (∃ w' R' new', o = .done () w' ∧ Stopping sys ever R₀ w₀ later R' w' new') ∨
      ∃ w' new', o = .abort w' ∧ Cut sys R₀ w₀ w' new') ?_ fuel () w ⟨R,new,stopping⟩ ?_
  · rintro ⟨⟩ w ⟨R,new,stopping⟩
    cases split : R l with
    | nil =>
      have empty := armdListEmpty_ring (stopping.sound.rep.ring l)
      refine .inr (.inl ⟨(),w,by simp [stopallRound,empty,split],.inl ⟨w,R,new,rfl,?_⟩⟩)
      exact { stopping with
        order := by simpa [split] using stopping.order
        emptied := by
          intro l' outside
          by_cases same : l' = l
          · rw [same,split]
          · exact stopping.emptied l' (by simp [same,outside]) }
    | cons m rest =>
      rcases stopping_round behaves within rep₀ enough split stopping with
        ⟨w',R',new',ran,stopping',stops⟩ | ⟨w',new',ran,cut⟩
      · have bound := ((List.sublist_append_left _ _).trans stopping'.order).length_le
        rw [stops,List.length_append,List.length_singleton] at bound
        refine .inl ⟨(),w',ran,⟨R',new',stopping'⟩,?_⟩
        show (stopOrder R₀).length-(stopsOf (w'.trace.drop w₀.trace.length)).length <
          (stopOrder R₀).length-(stopsOf (w.trace.drop w₀.trace.length)).length
        rw [since stopping,since stopping',stops,List.length_append,List.length_singleton]
        omega
      · exact .inr (.inr ⟨w',ran,.inr ⟨w',new',rfl,cut⟩⟩)
  · have sameLength := ((List.reverse_perm levels).flatMap_right R₀).length_eq
    have fewer : (stopOrder R₀).length < rounds R₀ := Nat.lt_succ_of_le (le_of_eq sameLength)
    exact Nat.lt_of_le_of_lt (Nat.sub_le _ _) (Nat.lt_of_lt_of_le fewer enough)

private theorem stopping_levels (behaves : Scripted sys fuel script)
    (within : ∀ m w R, Sound ever R w → (script m w).Within ever) (rep₀ : Represents w₀.lists R₀)
    (enough : rounds R₀ ≤ fuel) (ls : List (Fin maxLevel)) : ∀ {R : Levels M} {w : World M} {new : List (Event M)},
      Stopping sys ever R₀ w₀ ls R w new →
        (∃ w' R' new', stopallLevels sys fuel ls w = .done () w' ∧ Stopping sys ever R₀ w₀ [] R' w' new') ∨
          ∃ w' new', stopallLevels sys fuel ls w = .abort w' ∧ Cut sys R₀ w₀ w' new' := by
  induction ls with
  | nil => intro R w new stopping; exact .inl ⟨w,R,new,rfl,stopping⟩
  | cons l later ih =>
    intro R w new stopping
    rcases stopping_ring behaves within rep₀ enough stopping with ⟨w₁,R₁,new₁,ran,stopping₁⟩ | ⟨w₁,new₁,ran,cut⟩
    · simpa [stopallLevels,ran] using ih stopping₁
    · exact .inr ⟨w₁,new₁,by simp [stopallLevels,ran],cut⟩

omit [DecidableEq M] in
/-- Before the first round. -/
theorem Stopping.enter (sys : System M) (sound : Sound ever R₀ w₀) : Stopping sys ever R₀ w₀ levels.reverse R₀ w₀ [] where
  sound := sound
  sub := fun _ => List.Sublist.refl _
  trace := by simp
  order := List.Sublist.refl _
  covers := fun _ there => .inr (.inr there)
  gone := fun m gone => absurd gone (not_left_nil m)
  opened := by simp [stopsOf]
  emptied := by simp [levels]
  untouched := fun _ _ => rfl

omit [DecidableEq M] in
/-- Everything is stopped by descending level. -/
private theorem stopOrder_descends (rep : Represents w.lists R) :
    (stopOrder R).Pairwise fun a b => ∀ l l', a ∈ R l → b ∈ R l' → l' ≤ l := by
  refine List.pairwise_flatMap.mpr ⟨fun k _ => List.pairwise_of_forall_mem_list ?_,?_⟩
  · intro a first b second l l' at_l at_l'
    rw [rep.apart _ _ _ at_l first,rep.apart _ _ _ at_l' second]
  · refine (List.pairwise_reverse.mpr (List.pairwise_lt_finRange maxLevel)).imp ?_
    intro k k' lower a first b second l l' at_l at_l'
    rw [rep.apart _ _ _ at_l first,rep.apart _ _ _ at_l' second]
    exact lower.le

/-- Under callbacks that look up and unregister modules, stopping everything stops some of the registered
    modules in order. It empties the rings and has stopped each module that was not unregistered before, or
    `uv_close` aborts at a module that has operations and was not open on entry. -/
theorem stopall_under_callbacks (behaves : Scripted sys fuel script)
    (within : ∀ m w R, Sound ever R w → (script m w).Within ever) (sound : Sound ever R w) (enough : rounds R ≤ fuel) :
    ∃ w' new, w'.trace = w.trace ++ new ∧ (stopsOf new).Nodup ∧ (stopsOf new).Sublist (stopOrder R) ∧
      ((stopsOf new).Pairwise fun a b => ∀ l l', a ∈ R l → b ∈ R l' → l' ≤ l) ∧
        (armdModuleStopall sys fuel w = .done () w' ∧ Represents w'.lists noModules ∧
          (∀ m, ever m → Alone w'.lists (.module m)) ∧ (∀ m, Registered R m → Remains m new → m ∈ stopsOf new) ∧
            (∀ m ∈ stopsOf new, sys.mops m ≠ none → (w.modules m).async.state = .active) ∨
        armdModuleStopall sys fuel w = .abort w' ∧ ∃ m, Registered R m ∧ sys.mops m ≠ none ∧ Remains m new ∧
          (w.modules m).async.state ≠ .active ∧ new.getLast? = some (.close (.module m) (w.modules m).async.state)) := by
  have runs : armdModuleStopall sys fuel w = stopallLevels sys fuel levels.reverse w := by
    simp [armdModuleStopall,sound.initialized]
  have ordered : ∀ {stops : List M}, stops.Sublist (stopOrder R) → stops.Nodup ∧ stops.Sublist (stopOrder R) ∧
      stops.Pairwise fun a b => ∀ l l', a ∈ R l → b ∈ R l' → l' ≤ l :=
    fun order => ⟨(stopOrder_nodup sound.rep).sublist order,order,(stopOrder_descends sound.rep).sublist order⟩
  rw [runs]
  rcases stopping_levels behaves within sound.rep enough levels.reverse (.enter sys sound) with
    ⟨w',R',new,ran,ended⟩ | ⟨w',new,ran,m,onEntry,ops,notOpen,remains,trace,order,last⟩
  · have empty : R' = noModules := funext fun l => ended.emptied l (by simp)
    have order : (stopsOf new).Sublist (stopOrder R) := by simpa using ended.order
    have nobody : ∀ m, ¬ Registered R' m := by
      rintro m ⟨l,inside⟩
      simp [empty,noModules] at inside
    obtain ⟨once,sub,descends⟩ := ordered order
    refine ⟨w',new,ended.trace,once,sub,descends,.inl ⟨ran,empty ▸ ended.sound.rep,?_,?_,ended.opened⟩⟩
    · exact fun m known => ended.sound.off m known (nobody m)
    · intro m onEntry remains
      rcases ended.covers m onEntry with stopped | gone | there
      · exact stopped
      · exact remains.stopped gone
      · exact absurd there (nobody m)
  · obtain ⟨once,sub,descends⟩ := ordered order
    exact ⟨w',new,trace,once,sub,descends,.inr ⟨ran,m,onEntry,ops,remains,notOpen,last⟩⟩

/-- Stopping everything returns with the rings empty, and has stopped each module at most once and each that was
    there at its turn, by descending level and in the order of registration. -/
structure Clears (sys : System M) (fuel : ℕ) (ever : M → Prop) (R : Levels M) (w w' : World M)
    (new : List (Event M)) : Prop where
  returns : armdModuleStopall sys fuel w = .done () w'
  empty : Represents w'.lists noModules
  alone : ∀ m, ever m → Alone w'.lists (.module m)
  once : (stopsOf new).Nodup
  order : (stopsOf new).Sublist (stopOrder R)
  descends : (stopsOf new).Pairwise fun a b => ∀ l l', a ∈ R l → b ∈ R l' → l' ≤ l
  covers : ∀ m, Registered R m → Remains m new → m ∈ stopsOf new

/-- The handle of every registered module that has operations and is still there at its turn was open on entry. -/
def OpenOnEntry (sys : System M) (R : Levels M) (w : World M) (new : List (Event M)) : Prop :=
  ∀ m, Registered R m → sys.mops m ≠ none → Remains m new → (w.modules m).async.state = .active

/-- Under callbacks that look up and unregister modules, stopping everything comes to an end, and does what it is to
    do exactly when the modules that it comes to were open. -/
theorem stopall_clears_iff (behaves : Scripted sys fuel script)
    (within : ∀ m w R, Sound ever R w → (script m w).Within ever) (sound : Sound ever R w) (enough : rounds R ≤ fuel) :
    ∃ w' new, (armdModuleStopall sys fuel w = .done () w' ∨ armdModuleStopall sys fuel w = .abort w') ∧
      w'.trace = w.trace ++ new ∧ (Clears sys fuel ever R w w' new ↔ OpenOnEntry sys R w new) := by
  obtain ⟨w',new,trace,once,order,descends,ended | aborted⟩ := stopall_under_callbacks behaves within sound enough
  · obtain ⟨ran,empty,alone,covers,opened⟩ := ended
    refine ⟨w',new,.inl ran,trace,fun _ m onEntry operates remains => ?_,fun _ => ?_⟩
    · exact opened m (covers m onEntry remains) operates
    · exact ⟨ran,empty,alone,once,order,descends,covers⟩
  · obtain ⟨ran,m,onEntry,operates,remains,notOpen,_⟩ := aborted
    refine ⟨w',new,.inr ran,trace,fun clears => ?_,fun opened => ?_⟩
    · cases ran.symm.trans clears.returns
    · exact absurd (opened m onEntry operates remains) notOpen

end

/-! ### Two modules, of which one removes the other -/

/-- A callback that unregisters whatever module the lookup of the empty name finds. -/
def removesFirst : Script Bool := fun _ _ => .find (some fun _ => 0) fun found =>
  match found with
  | none => .ret 0
  | some m => .unregister m 0 (.ret 0)

def removingSystem : System Bool where
  name := fun _ _ => 0
  mops := fun _ => some ⟨none,none,some (scripted (fun _ _ => 0) 3 removesFirst)⟩
  uvAsyncInitRet := fun _ _ => 0

/-- The world with all handles open. -/
def allOpen (w : World M) : World M :=
  { w with modules := fun m => { w.modules m with async := ⟨.defaultLoop,.active,false⟩ } }

/-- The module on the last level is stopped, and its callback removes the one on the first level. -/
theorem stopall_removing : ∃ w R, runCalls bothModules World.zero = .done () w ∧ Represents w.lists R ∧
    ∃ w' new, w'.trace = w.trace ++ new ∧ Clears removingSystem 3 (fun _ => True) R (allOpen w) w' new := by
  obtain ⟨w,ran,tracks⟩ := tracks_of_disciplined bothModules_disciplined
  have everyone : ∀ m, Registered (levelsAfter bothModules) m := by
    intro m
    cases m with
    | false => exact ⟨systemLevel,by decide⟩
    | true => exact ⟨postLevel,by decide⟩
  have sound : Sound (fun _ => True) (levelsAfter bothModules) (allOpen w) :=
    ⟨tracks.initialized,tracks.tidy.rings,fun _ _ => trivial,fun m _ off => absurd (everyone m) off⟩
  have within : ∀ m w R, Sound (fun _ => True) R w → (removesFirst m w).Within (fun _ : Bool => True) := by
    intro _ _ _ _ found _
    cases found with
    | none => trivial
    | some m => exact ⟨trivial,trivial⟩
  have behaves : Scripted removingSystem 3 removesFirst := by
    intro m mops ops
    cases ops
    exact .inr rfl
  obtain ⟨w',new,_,trace,clears⟩ := stopall_clears_iff behaves within sound (by decide)
  exact ⟨w,_,ran,tracks.tidy.rings,w',new,trace,clears.mpr fun _ _ _ _ => rfl⟩

/-! ### A module that was never started -/

/-- A module with operations, none of them given. -/
def silentSystem : System Unit where
  name := fun _ _ => 0
  mops := fun _ => some ⟨none,none,none⟩
  uvAsyncInitRet := fun _ _ => 0

/-- Stopping everything aborts at a module that was registered and never started, which stays on its ring. -/
theorem unstarted_module_aborts : ∃ w R, runCalls [.register () systemLevel] World.zero = .done () w ∧
    Represents w.lists R ∧ Registered R () ∧ ∀ fuel, 0 < fuel → (∃ w', armdModuleStopall silentSystem fuel w = .abort w' ∧
      w'.trace = w.trace ++ [.stopCalled (),.close (.module ()) .unknown] ∧ w'.lists = w.lists) ∧
        ∀ ever w' new, ¬ Clears silentSystem fuel ever R w w' new := by
  obtain ⟨w,ran,tracks⟩ := tracks_of_disciplined (disciplined_single () systemLevel)
  refine ⟨w,_,ran,tracks.tidy.rings,⟨systemLevel,by decide⟩,fun fuel some => ?_⟩
  obtain ⟨fuel,rfl⟩ : ∃ k, fuel = k+1 := ⟨fuel-1,by omega⟩
  cases ran
  exact ⟨⟨_,rfl,rfl,rfl⟩,fun _ _ _ clears => by cases clears.returns⟩

end Armd.StopCallbacks
