import Armd.RegistryCalls
import Armd.StartStop
import Mathlib.Data.Fintype.Card

/-!
`armd_module_startall` while the modules' `on_start` callbacks register and
unregister modules. The walk reads the next node after the callback ran, so all
that matters is where the callback has left its module: on a ring, with a module
next in line that was not started before, with nobody on the walked ring that it
has gone past, and at the end of no other ring. The call completes if and only if
every callback does that (`startall_under_callbacks`). A callback that unregisters
its own module makes the walk go round on that module forever
(`unregistering_itself_never_ends`).
-/
namespace Armd.StartCallbacks
open Armd.Programs Armd.LinkedRings Armd.Datastructure Armd.Memory Armd.Module Armd.Registry Armd.RegistryModel
  Armd.Traversal Armd.RegistryCalls Armd.StartStop

variable {M : Type} [DecidableEq M]

/-! ### Callbacks that make registry calls -/

/-- The calls that `on_start` makes for a module in a world. -/
abbrev Script (M : Type) := M → World M → List (RegistryCall M)

def perform : List (RegistryCall M) → Program (World M) Unit
  | [] => pure ()
  | call :: rest => do
    call.run
    perform rest

/-- An `on_start` that makes the calls of the script. -/
def scripted (script : Script M) (ret : M → World M → ℤ) (m : M) : Program (World M) ℤ := do
  let w ← Program.get
  perform (script m w)
  pure (ret m w)

/-- Every module has operations, and its `on_start` makes the calls of the script and succeeds, as
    `uv_async_init` does. -/
structure Scripted (sys : System M) (script : Script M) : Prop where
  inits : ∀ w m, 0 ≤ sys.uvAsyncInitRet w (.module m)
  onStart : ∀ m, ∃ mops, sys.mops m = some mops ∧
    ((mops.onStart = none ∧ ∀ w, script m w = []) ∨
      ∃ ret, (∀ w, 0 ≤ ret m w) ∧ mops.onStart = some (scripted script ret))

/-- A call that registers a module that is on no ring or unregisters one that is on a ring. -/
def Valid (R : Levels M) : RegistryCall M → Prop
  | .register m _ => ¬ Registered R m
  | .unregister m _ => Registered R m

def AllValid : Levels M → List (RegistryCall M) → Prop
  | _, [] => True
  | R, call :: rest => Valid R call ∧ AllValid (apply R call) rest

/-- A valid call does to the heap what it does to the lists. -/
private theorem run_valid {R : Levels M} {w : World M} (rep : Represents w.lists R) (initialized : w.registryInitialized = true)
    {call : RegistryCall M} (valid : Valid R call) :
    ∃ w', call.run w = .done () w' ∧ w'.registryInitialized = true ∧ Represents w'.lists (apply R call) ∧
      w'.trace = w.trace ++ [call.event] := by
  cases call with
  | register m level =>
    obtain ⟨g,inserted,rep',_⟩ := represents_register rep level valid
    exact ⟨_,run_register initialized m level inserted,initialized,rep',rfl⟩
  | unregister m level =>
    obtain ⟨g,deleted,rep',_⟩ := represents_unregister rep valid
    exact ⟨_,run_unregister initialized m level deleted,initialized,rep',rfl⟩

private theorem perform_run (calls : List (RegistryCall M)) : ∀ {R : Levels M} {w : World M}, Represents w.lists R →
    w.registryInitialized = true → AllValid R calls →
      ∃ w', perform calls w = .done () w' ∧ w'.registryInitialized = true ∧
        Represents w'.lists (calls.foldl apply R) ∧ w'.trace = w.trace ++ calls.map RegistryCall.event := by
  induction calls with
  | nil => intro R w rep initialized _; exact ⟨w,rfl,initialized,rep,by simp⟩
  | cons call rest ih =>
    intro R w rep initialized valid
    obtain ⟨w₁,called,initialized₁,rep₁,trace₁⟩ := run_valid rep initialized valid.1
    obtain ⟨w₂,performed,initialized₂,rep₂,trace₂⟩ := ih rep₁ initialized₁ valid.2
    exact ⟨w₂,by simp [perform,called,performed],initialized₂,rep₂,by simp [trace₂,trace₁]⟩

/-- A module on a ring stays on one or is left linked to itself. -/
private theorem call_links {R : Levels M} {w w' : World M} (rep : Represents w.lists R)
    (initialized : w.registryInitialized = true) {call : RegistryCall M} (valid : Valid R call)
    (ran : call.run w = .done () w') {m : M} (before : Registered R m ∨ Alone w.lists (.module m)) :
    Registered (apply R call) m ∨ Alone w'.lists (.module m) := by
  cases call with
  | register y level =>
    obtain ⟨g,inserted,_,others⟩ := represents_register rep level valid
    cases (run_register initialized y level inserted).symm.trans ran
    by_cases same : m = y
    · exact .inl (registered_add.mpr (.inr same))
    · by_cases there : Registered R m
      · exact .inl (registered_add.mpr (.inl there))
      · have links : g (.module m) = w.lists (.module m) := others m same there
        have alone : Alone g (.module m) := (before.resolve_left there).frame (by simpa using links)
        exact .inr alone
  | unregister y level =>
    obtain ⟨g,deleted,_,alone,others⟩ := represents_unregister rep valid
    cases (run_unregister initialized y level deleted).symm.trans ran
    by_cases same : m = y
    · exact .inr (same ▸ alone)
    · by_cases there : Registered R m
      · exact .inl ((registered_remove rep.nodup).mpr ⟨there,same⟩)
      · have links : g (.module m) = w.lists (.module m) := others m there
        have alone : Alone g (.module m) := (before.resolve_left there).frame (by simpa using links)
        exact .inr alone

private theorem perform_links {m : M} (calls : List (RegistryCall M)) : ∀ {R : Levels M} {w w' : World M},
    Represents w.lists R → w.registryInitialized = true → AllValid R calls → perform calls w = .done () w' →
      Registered R m ∨ Alone w.lists (.module m) → Registered (calls.foldl apply R) m ∨ Alone w'.lists (.module m) := by
  induction calls with
  | nil => intro R w w' _ _ _ ran before; cases ran; exact before
  | cons call rest ih =>
    intro R w w' rep initialized valid ran before
    obtain ⟨w₁,called,initialized₁,rep₁,_⟩ := run_valid rep initialized valid.1
    have performed : perform rest w₁ = .done () w' := by simpa [perform,called] using ran
    exact ih rep₁ initialized₁ valid.2 performed (call_links rep initialized valid.1 called before)

/-- The module was unregistered. -/
def Left (trace : List (Event M)) (m : M) : Prop := ∃ level, .unregistered m level ∈ trace

/-- The calls that `on_start` makes when the module is started in a world. -/
def callsIn (sys : System M) (script : Script M) (w : World M) (m : M) : List (RegistryCall M) :=
  script m (callbackWorld sys w m)

/-- Starting a module makes the calls of its script, over the rings that are there. -/
private theorem start_scripted {sys : System M} {script : Script M} (behaves : Scripted sys script) {R : Levels M}
    {w : World M} (rep : Represents w.lists R) (initialized : w.registryInitialized = true) {m : M}
    (valid : AllValid R (callsIn sys script w m)) :
    ∃ w₂ w' during, perform (callsIn sys script w m) (callbackWorld sys w m) = .done () w₂ ∧ w'.lists = w₂.lists ∧
      armdModuleStart sys (some m) .defaultLoop w = .done 0 w' ∧ w'.registryInitialized = true ∧
        Represents w'.lists ((callsIn sys script w m).foldl apply R) ∧ startsOf during = [m] ∧
          w'.trace = w.trace ++ during ++ (callsIn sys script w m).map RegistryCall.event ++ [.started m 0] := by
  obtain ⟨mops,ops,onStart⟩ := behaves.onStart m
  have inits : ¬ initRet sys w m < 0 := not_lt.mpr (behaves.inits _ m)
  have started := start_run sys w ops
  rw [if_neg inits] at started
  rcases onStart with ⟨absent,silent⟩ | ⟨ret,succeeds,present⟩
  · have none : callsIn sys script w m = [] := silent _
    refine ⟨callbackWorld sys w m,(openWorld sys w m).record (.started m 0),openEvents sys w m,by rw [none]; rfl,rfl,
      by rw [started,absent]; rfl,initialized,by rw [none]; exact rep,rfl,?_⟩
    simp [none,World.record,openWorld_trace]
  · have ready : Represents (callbackWorld sys w m).lists R := rep
    obtain ⟨w₂,performed,initialized₂,rep₂,trace₂⟩ := perform_run (callsIn sys script w m) ready initialized valid
    have success := not_lt.mpr (succeeds (callbackWorld sys w m))
    refine ⟨w₂,w₂.record (.started m 0),openEvents sys w m ++ [.onStart m],performed,rfl,?_,initialized₂,rep₂,rfl,?_⟩
    · have called : scripted script ret m (callbackWorld sys w m) = .done (ret m (callbackWorld sys w m)) w₂ := by
        have performed' := performed
        rw [callsIn] at performed'
        simp [scripted,performed']
      rw [callbackWorld] at called success
      simp [started,present,callOnStart,record,called,success]
    · simp [World.record,trace₂,callbackWorld_trace]

/-! ### The walk -/

/-- The modules that a walk still has before it, in order: the rest of its ring and the rings of later levels. -/
def ahead (R : Levels M) (rest : List M) (later : List (Fin maxLevel)) : List M := rest ++ later.flatMap R

/-- A module that is not unregistered stays on its ring. -/
private theorem mem_applyAll {x : M} {l : Fin maxLevel} (calls : List (RegistryCall M)) : ∀ {R : Levels M}, x ∈ R l →
    (∀ level, .unregister x level ∉ calls) → x ∈ calls.foldl apply R l := by
  induction calls with
  | nil => intro R inside _; exact inside
  | cons call rest ih =>
    intro R inside stays
    simp only [List.mem_cons,not_or] at stays
    refine ih ?_ fun level => (stays level).2
    cases call with
    | register m level => exact mem_add.mpr (.inl inside)
    | unregister m level =>
      have other : x ≠ m := by rintro rfl; exact (stays level).1 rfl
      exact (List.mem_erase_of_ne other).mpr inside

/-- Where `armd_module_startall` comes to, called in `w₀`: a level with those after it, a node of its ring
    and the world there. -/
inductive Comes (sys : System M) (w₀ : World M) : Fin maxLevel → List (Fin maxLevel) → Option (Node M) → World M → Prop
  | enter {l later} : levels = l :: later → Comes sys w₀ l later (w₀.lists (.sentinel l)).next w₀
  | onwards {l later m w w'} : Comes sys w₀ l later (some (.module m)) w →
      armdModuleStart sys (some m) .defaultLoop w = .done 0 w' → Comes sys w₀ l later (w'.lists (.module m)).next w'
  | nextLevel {l l' later w} : Comes sys w₀ l (l' :: later) (some (.sentinel l)) w →
      Comes sys w₀ l' later (w.lists (.sentinel l')).next w

/-- The calls that every `on_start` of the walk makes are valid when they are made. -/
def ValidCalls (sys : System M) (script : Script M) (w₀ : World M) : Prop :=
  ∀ l later m w R, Comes sys w₀ l later (some (.module m)) w → Represents w.lists R → AllValid R (callsIn sys script w m)

/-- Somewhere on the walk the module has been unregistered. -/
def Leaves (sys : System M) (w₀ : World M) (x : M) : Prop :=
  ∃ l later node w new, Comes sys w₀ l later node w ∧ w.trace = w₀.trace ++ new ∧ Left new x

/-- An `on_start` has returned and left its module on a ring, on that of the level if no module is behind it there. The
    module next in line, behind it or else at the head of the next ring that is not empty, was not started before. If it is
    the ring of the level, the modules in front that were registered on entry were started, unless the walk unregisters
    them. -/
def Goes (sys : System M) (w₀ : World M) (R₀ R : Levels M) (l : Fin maxLevel) (later : List (Fin maxLevel)) (m : M)
    (new : List (Event M)) : Prop :=
  ∃ k front rest, R k = front ++ m :: rest ∧ (rest = [] → k = l) ∧
    (∀ x, (ahead R rest later).head? = some x → x ∉ startsOf new) ∧
    (k = l → ∀ x ∈ front, Registered R₀ x → x ∈ startsOf new ∨ Leaves sys w₀ x)

/-- Every `on_start` of the walk leaves the rings so that the walk goes on. -/
def Careful (sys : System M) (R₀ : Levels M) (w₀ : World M) : Prop :=
  ∀ l later m w w' R new, Comes sys w₀ l later (some (.module m)) w →
    armdModuleStart sys (some m) .defaultLoop w = .done 0 w' → Represents w'.lists R → w'.trace = w₀.trace ++ new →
      Goes sys w₀ R₀ R l later m new

/-- Starting everything returns 0, starts no module twice, and starts every module that was registered on entry and not
    unregistered. -/
def Completes [Fintype M] (sys : System M) (R₀ : Levels M) (w₀ : World M) : Prop :=
  ∀ fuel, Fintype.card M < fuel → ∃ w' new, armdModuleStartall sys fuel .defaultLoop w₀ = .done 0 w' ∧
    w'.trace = w₀.trace ++ new ∧ (startsOf new).Nodup ∧
      ∀ m, Registered R₀ m → (∀ level, .unregistered m level ∉ new) → m ∈ startsOf new

/-! ### From a place of the walk to its end -/

/-- The rings, and the place of the walk on one of them, between the modules in front of it and those behind it. Only the
    ring of the level is walked to its end. -/
structure Place (w₀ : World M) (l : Fin maxLevel) (later : List (Fin maxLevel)) (node : Option (Node M)) (w : World M)
    (R : Levels M) (k : Fin maxLevel) (front rest : List M) (new : List (Event M)) : Prop where
  initialized : w.registryInitialized = true
  rep : Represents w.lists R
  split : R k = front ++ rest
  node : node = cursor k rest
  home : rest = [] → k = l
  trace : w.trace = w₀.trace ++ new
  distinct : (l :: later).Nodup

section
variable {w₀ w : World M} {l k : Fin maxLevel} {later : List (Fin maxLevel)} {R : Levels M} {front rest : List M}
  {new : List (Event M)}

omit [DecidableEq M] in
private theorem Place.at_module {m : M} (place : Place w₀ l later (some (.module m)) w R k front rest new) :
    ∃ rest', rest = m :: rest' := by
  cases rest with
  | nil => cases place.node
  | cons y rest =>
    obtain rfl : m = y := by simpa [cursor] using place.node
    exact ⟨rest,rfl⟩

omit [DecidableEq M] in
private theorem Place.at_sentinel (place : Place w₀ l later (some (.sentinel l)) w R k front rest new) :
    rest = [] ∧ k = l := by
  cases rest with
  | nil => exact ⟨rfl,place.home rfl⟩
  | cons y rest => cases place.node

end

/-- From the places of the rings, every `on_start` of the walk leaves its module on a ring, and on that of the level if no
    module is behind it. -/
def Stays (sys : System M) (w₀ : World M) : Prop :=
  ∀ l later m w w' R k front rest new R' new', Comes sys w₀ l later (some (.module m)) w →
    Place w₀ l later (some (.module m)) w R k front (m :: rest) new → armdModuleStart sys (some m) .defaultLoop w = .done 0 w' →
      Represents w'.lists R' → w'.trace = w₀.trace ++ new' →
        ∃ k' front' rest', R' k' = front' ++ m :: rest' ∧ (rest' = [] → k' = l)

private theorem Careful.stays {sys : System M} {w₀ : World M} {R₀ : Levels M} (careful : Careful sys R₀ w₀) : Stays sys w₀ := by
  intro l later m w w' R k front rest new R' new' comes place started rep trace
  obtain ⟨k',front',rest',split,home,_⟩ := careful l later m w w' R' new' comes started rep trace
  exact ⟨k',front',rest',split,home⟩

/-- The rest of the walk. -/
inductive Walks (sys : System M) : Fin maxLevel → List (Fin maxLevel) → Option (Node M) → World M → World M → Prop
  | done {l w} : Walks sys l [] (some (.sentinel l)) w w
  | onwards {l later m w w' last} : armdModuleStart sys (some m) .defaultLoop w = .done 0 w' →
      Walks sys l later (w'.lists (.module m)).next w' last → Walks sys l later (some (.module m)) w last
  | nextLevel {l l' later w last} : Walks sys l' later (w.lists (.sentinel l')).next w last →
      Walks sys l (l' :: later) (some (.sentinel l)) w last

/-- What is left of the call at a place of the walk. -/
def remaining (sys : System M) (fuel : ℕ) (l : Fin maxLevel) (later : List (Fin maxLevel)) (n : ℕ) (node : Option (Node M)) :
    Program (World M) ℤ := do
  match ← Program.loop (startallRound sys .defaultLoop (.sentinel l)) n node with
  | some ret => pure ret
  | none => startallLevels sys fuel .defaultLoop later

/-- What was in front of a module stays there, wherever the module goes on its ring. -/
private theorem before_applyAll {x m : M} {l : Fin maxLevel} (calls : List (RegistryCall M)) :
    ∀ {R : Levels M}, (R l).Nodup → AllValid R calls → x ∈ R l → (m ∈ R l → [x,m].Sublist (R l)) →
      (∀ level, .unregister x level ∉ calls) → m ∈ calls.foldl apply R l → [x,m].Sublist (calls.foldl apply R l) := by
  induction calls with
  | nil => intro R _ _ _ before _ there; exact before there
  | cons call rest ih =>
    intro R distinct valid inside before stays there
    simp only [List.mem_cons,not_or] at stays
    have still : x ∈ apply R call l := mem_applyAll [call] inside fun level => by simp [(stays level).1]
    refine ih ?_ valid.2 still ?_ (fun level => (stays level).2) there
    · cases call with
      | register y level =>
        by_cases here : l = level
        · subst here
          have fresh : y ∉ R l := fun onRing => valid.1 ⟨l,onRing⟩
          simpa [apply,add,List.nodup_append] using ⟨distinct,fun a inside same => fresh (same ▸ inside)⟩
        · simpa [apply,add,here] using distinct
      | unregister y level => exact distinct.erase y
    · cases call with
      | register y level =>
        by_cases here : l = level
        · subst here
          intro there
          rw [apply,add,Function.update_self] at there ⊢
          rcases List.mem_append.mp there with earlier | last
          · exact (before earlier).trans (List.sublist_append_left ..)
          · exact (List.singleton_sublist.mpr inside).append (List.singleton_sublist.mpr last)
        · simpa [apply,add,here] using before
      | unregister y level =>
        intro there
        have notX : y ≠ x := fun isX => (stays level).1 (by rw [isX])
        have notM : y ≠ m := fun isM => absurd (isM ▸ there) distinct.not_mem_erase
        have kept := (before (List.mem_of_mem_erase there)).erase y
        rwa [List.erase_of_not_mem (by simp [notX,notM])] at kept

omit [DecidableEq M] in
private theorem mem_front {x m : M} {front rest : List M} (distinct : (front ++ m :: rest).Nodup)
    (before : [x,m].Sublist (front ++ m :: rest)) : x ∈ front := by
  have alone : m ∉ rest := (List.nodup_cons.mp (List.nodup_append.mp distinct).2.1).1
  obtain ⟨as,bs,split,inFront,behind⟩ := List.sublist_append_iff.mp before
  cases as with
  | cons a as =>
    obtain ⟨rfl,_⟩ := List.cons.inj split
    exact inFront.subset (List.mem_cons_self ..)
  | nil =>
    obtain rfl : [x,m] = bs := split
    have late : [m].Sublist rest := List.sublist_cons_iff.mp behind |>.elim (fun both => (List.sublist_cons_self ..).trans both)
      fun ⟨r,same,sub⟩ => (List.cons.inj same).2 ▸ sub
    exact absurd (late.subset (List.mem_singleton_self m)) alone

omit [DecidableEq M] in
private theorem startsOf_calls (calls : List (RegistryCall M)) : startsOf (calls.map RegistryCall.event) = [] := by
  induction calls with
  | nil => rfl
  | cons call rest ih => cases call <;> exact ih

omit [DecidableEq M] in
/-- The calls that a callback makes start nothing. -/
private theorem startsOf_start {during : List (Event M)} {m : M} (begun : startsOf during = [m])
    (calls : List (RegistryCall M)) :
    startsOf (during ++ calls.map RegistryCall.event ++ [.started m 0]) = [m] := by
  have quiet : startsOf [.started m 0] = [] := rfl
  simp only [startsOf_append,startsOf_calls,begun,quiet,List.append_nil]

omit [DecidableEq M] in
theorem left_append {a b : List (Event M)} {m : M} : Left (a ++ b) m ↔ Left a m ∨ Left b m := by
  simp [Left,exists_or]

omit [DecidableEq M] in
private theorem left_calls {calls : List (RegistryCall M)} {m : M} {level : Fin maxLevel} (member : .unregister m level ∈ calls) :
    Left (calls.map RegistryCall.event) m :=
  ⟨level.val,List.mem_map.mpr ⟨_,member,rfl⟩⟩

section
variable {sys : System M} {script : Script M} {w₀ : World M}

private theorem comes_levels {l : Fin maxLevel} {later : List (Fin maxLevel)} {node : Option (Node M)} {w : World M}
    (comes : Comes sys w₀ l later node w) : (l :: later).Nodup := by
  induction comes with
  | enter split => exact split ▸ List.nodup_finRange maxLevel
  | onwards _ _ ih => exact ih
  | nextLevel _ ih => exact (List.nodup_cons.mp ih).2

/-- A start at a place of the walk: its module is on a ring again, the others stay on theirs and those that the walk has
    passed stay in front of it, unless they are unregistered. -/
private theorem place_start (behaves : Scripted sys script) (valid : ValidCalls sys script w₀) (stays : Stays sys w₀)
    {l k : Fin maxLevel} {later : List (Fin maxLevel)} {m : M} {w : World M} {R : Levels M} {front rest : List M}
    {new : List (Event M)} (comes : Comes sys w₀ l later (some (.module m)) w)
    (place : Place w₀ l later (some (.module m)) w R k front (m :: rest) new) :
    ∃ w' R' k' front' rest' during, armdModuleStart sys (some m) .defaultLoop w = .done 0 w' ∧
      Place w₀ l later (w'.lists (.module m)).next w' R' k' (front' ++ [m]) rest' (new ++ during) ∧ startsOf during = [m] ∧
      ∀ x, ¬ Left during x → (∀ j, x ∈ R j → x ∈ R' j) ∧ (x ∈ R k' → (k' = k → x ∈ front) → x ∈ front') := by
  have calls := valid l later m w R comes place.rep
  obtain ⟨_,w',opening,_,_,started,initialized',rep',begun,trace'⟩ := start_scripted behaves place.rep place.initialized calls
  have since : w'.trace = w₀.trace ++ (new ++ (opening ++ (callsIn sys script w m).map RegistryCall.event ++ [.started m 0])) := by
    simp [trace',place.trace]
  obtain ⟨k',front',rest',split',home⟩ := stays l later m w w' _ _ _ _ _ _ _ comes place started rep' since
  refine ⟨w',_,k',front',rest',_,started,
    ⟨initialized',rep',by simp [split'],next_cursor rep' split',home,since,place.distinct⟩,startsOf_start begun _,fun x kept => ?_⟩
  have unregistered : ∀ level, .unregister x level ∉ callsIn sys script w m := fun level member =>
    kept (by simp only [left_append,left_calls member,or_true,true_or])
  refine ⟨fun j inside => mem_applyAll _ inside unregistered,fun inside passed => ?_⟩
  -- whatever ring the module comes to, it comes behind what is there
  have here : m ∈ R k := by rw [place.split]; simp
  have before : m ∈ R k' → [x,m].Sublist (R k') := by
    intro there
    obtain rfl := place.rep.apart k' k m there here
    rw [place.split]
    exact (List.singleton_sublist.mpr (passed rfl)).append (List.singleton_sublist.mpr (List.mem_cons_self ..))
  have after := before_applyAll _ (place.rep.nodup k') calls inside before unregistered (by simp [split'])
  rw [split'] at after
  exact mem_front (split' ▸ rep'.nodup k') after

private theorem comes_sound (behaves : Scripted sys script) (valid : ValidCalls sys script w₀) {R₀ : Levels M}
    (rep : Represents w₀.lists R₀) (initialized : w₀.registryInitialized = true)
    {l : Fin maxLevel} {later : List (Fin maxLevel)} {node : Option (Node M)} {w : World M}
    (comes : Comes sys w₀ l later node w) : ∃ R, Represents w.lists R ∧ w.registryInitialized = true := by
  induction comes with
  | enter => exact ⟨R₀,rep,initialized⟩
  | @onwards l later m w w' before ran ih =>
    obtain ⟨R,rep₁,initialized₁⟩ := ih
    obtain ⟨_,v,_,_,_,started,initialized',rep',_⟩ := start_scripted behaves rep₁ initialized₁ (valid l later m w R before rep₁)
    cases started.symm.trans ran
    exact ⟨_,rep',initialized'⟩
  | nextLevel _ ih => exact ih

/-- A start anywhere on the walk. -/
private theorem comes_start (behaves : Scripted sys script) (valid : ValidCalls sys script w₀) {R₀ : Levels M}
    (rep : Represents w₀.lists R₀) (initialized : w₀.registryInitialized = true)
    {l : Fin maxLevel} {later : List (Fin maxLevel)} {m : M} {w : World M} (comes : Comes sys w₀ l later (some (.module m)) w) :
    ∃ w' R' during, armdModuleStart sys (some m) .defaultLoop w = .done 0 w' ∧ Represents w'.lists R' ∧
      w'.trace = w.trace ++ during ∧ startsOf during = [m] ∧
        ((∃ R, Represents w.lists R ∧ Registered R m) → Registered R' m ∨ Alone w'.lists (.module m)) := by
  obtain ⟨R,rep₁,initialized₁⟩ := comes_sound behaves valid rep initialized comes
  have calls := valid l later m w R comes rep₁
  obtain ⟨w₂,w',opening,performed,lists',started,_,rep',begun,trace⟩ := start_scripted behaves rep₁ initialized₁ calls
  refine ⟨w',_,opening ++ (callsIn sys script w m).map RegistryCall.event ++ [.started m 0],started,rep',by simp [trace],
    startsOf_start begun _,?_⟩
  rintro ⟨R',rep₂,there⟩
  obtain rfl := rep₂.unique rep₁
  rw [lists']
  exact perform_links _ (show Represents (callbackWorld sys w m).lists R' from rep₁) initialized₁ calls performed (.inl there)

/-- While every module is left on a ring, the walk is always at a place of the rings. -/
private theorem comes_place (behaves : Scripted sys script) (valid : ValidCalls sys script w₀) (stays : Stays sys w₀)
    {R₀ : Levels M} (rep : Represents w₀.lists R₀) (initialized : w₀.registryInitialized = true)
    {l : Fin maxLevel} {later : List (Fin maxLevel)} {node : Option (Node M)} {w : World M}
    (comes : Comes sys w₀ l later node w) : ∃ R k front rest new, Place w₀ l later node w R k front rest new := by
  have distinct := comes_levels comes
  induction comes with
  | @enter l later split => exact ⟨R₀,l,[],R₀ l,[],initialized,rep,rfl,first_cursor rep l,fun _ => rfl,by simp,distinct⟩
  | @onwards l later m w w' before ran ih =>
    obtain ⟨R,k,front,rest,new,place⟩ := ih distinct
    obtain ⟨rest,rfl⟩ := place.at_module
    obtain ⟨v,R',k',front',rest',during,started,place',_⟩ := place_start behaves valid stays before place
    cases started.symm.trans ran
    exact ⟨R',k',front' ++ [m],rest',new ++ during,place'⟩
  | @nextLevel l l' later w before ih =>
    obtain ⟨R,k,front,rest,new,place⟩ := ih (comes_levels before)
    exact ⟨R,l',[],R l',new,place.initialized,place.rep,rfl,first_cursor place.rep l',fun _ => rfl,place.trace,distinct⟩

/-- A walk that ends goes on from every place that it comes to. -/
private theorem comes_walks {l : Fin maxLevel} {later : List (Fin maxLevel)} {node : Option (Node M)} {w last : World M}
    (comes : Comes sys w₀ l later node w)
    (whole : ∀ l later, levels = l :: later → Walks sys l later (w₀.lists (.sentinel l)).next w₀ last) :
    Walks sys l later node w last := by
  induction comes with
  | enter split => exact whole _ _ split
  | onwards _ ran ih =>
    cases ih with
    | onwards started rest =>
      cases started.symm.trans ran
      exact rest
  | nextLevel _ ih =>
    cases ih with
    | nextLevel rest => exact rest

/-- What a walk does from a place on: it starts the module that is next in line. It starts none on a ring that is not to be
    entered any more, unless the module is unregistered or it is behind the place of the walk. -/
private theorem walks_on (behaves : Scripted sys script) (valid : ValidCalls sys script w₀) (stays : Stays sys w₀)
    {l : Fin maxLevel} {later : List (Fin maxLevel)} {node : Option (Node M)} {w last : World M}
    (walks : Walks sys l later node w last) : ∀ {R : Levels M} {k : Fin maxLevel} {front rest : List M} {new : List (Event M)},
      Comes sys w₀ l later node w → Place w₀ l later node w R k front rest new →
        (∃ j, Comes sys w₀ j [] (some (.sentinel j)) last) ∧ ∃ more, last.trace = w₀.trace ++ (new ++ more) ∧
          (∀ x, (ahead R rest later).head? = some x → x ∈ startsOf more) ∧
          ∀ x j, ¬ Left more x → x ∈ R j → j ∉ later → (j = k → x ∈ front) → x ∉ startsOf more := by
  induction walks with
  | @done l w =>
    intro R k front rest new comes place
    obtain ⟨rfl,_⟩ := place.at_sentinel
    exact ⟨⟨l,comes⟩,[],by simp [place.trace],by simp [ahead],by simp [startsOf]⟩
  | @onwards l later m w w' last ran _ ih =>
    intro R k front rest new comes place
    obtain ⟨rest,rfl⟩ := place.at_module
    obtain ⟨v,R',k',front',rest',during,started,place',begun,kept⟩ := place_start behaves valid stays comes place
    cases started.symm.trans ran
    obtain ⟨ends,more,since,_,passed⟩ := ih (.onwards comes ran) place'
    refine ⟨ends,during ++ more,by simp [since],fun x next => ?_,fun x j stayed onRing closed behind => ?_⟩
    · obtain rfl : m = x := by simpa [ahead] using next
      simp [startsOf_append,begun]
    · rw [left_append,not_or] at stayed
      obtain ⟨stillThere,inFront⟩ := kept x stayed.1
      have other : x ≠ m := by
        rintro rfl
        have here : x ∈ R k := by rw [place.split]; simp
        have distinct := place.rep.nodup k
        rw [place.split] at distinct
        exact (List.nodup_append.mp distinct).2.2 x (behind (place.rep.apart j k x onRing here)) x (List.mem_cons_self ..) rfl
      rw [startsOf_append,begun,List.singleton_append,List.mem_cons,not_or]
      refine ⟨other,passed x j stayed.2 (stillThere j onRing) closed fun same => List.mem_append_left _ ?_⟩
      subst same
      exact inFront onRing behind
  | @nextLevel l l' later w last _ ih =>
    intro R k front rest new comes place
    obtain ⟨rfl,rfl⟩ := place.at_sentinel
    have next : Comes sys w₀ l' later _ w := .nextLevel comes
    obtain ⟨ends,more,since,first,passed⟩ := ih next
      ⟨place.initialized,place.rep,(List.nil_append (R l')).symm,first_cursor place.rep l',fun _ => rfl,place.trace,
        comes_levels next⟩
    refine ⟨ends,more,since,fun x inLine => first x (by simpa [ahead] using inLine),fun x j stayed onRing closed _ => ?_⟩
    rw [List.mem_cons,not_or] at closed
    exact passed x j stayed onRing closed.2 fun same => absurd same closed.1

/-- A call that returns 0 has walked to the end of a ring, and then through the later levels. -/
private theorem ring_walks (behaves : Scripted sys script) (valid : ValidCalls sys script w₀) {R₀ : Levels M}
    (rep : Represents w₀.lists R₀) (initialized : w₀.registryInitialized = true) {fuel : ℕ}
    {l : Fin maxLevel} {later : List (Fin maxLevel)} {last : World M}
    (behind : ∀ w, Comes sys w₀ l later (some (.sentinel l)) w → startallLevels sys fuel .defaultLoop later w = .done 0 last →
      Walks sys l later (some (.sentinel l)) w last) (n : ℕ) :
    ∀ {node : Option (Node M)} {w : World M}, Comes sys w₀ l later node w → remaining sys fuel l later n node w = .done 0 last →
      Walks sys l later node w last := by
  induction n with
  | zero => intro node w _ ran; cases ran
  | succ n ih =>
    intro node w comes ran
    cases node with
    | none => simp [remaining,Program.loop,startallRound,memberContainer] at ran
    | some node =>
      cases node with
      | sentinel k =>
        by_cases here : k = l
        · subst here
          exact behind w comes (by simpa [remaining,Program.loop,startallRound] using ran)
        · simp [remaining,Program.loop,startallRound,memberContainer,here] at ran
      | module m =>
        obtain ⟨w',_,_,started,_⟩ := comes_start behaves valid rep initialized comes
        refine .onwards started (ih (.onwards comes started) ?_)
        simpa [remaining,Program.loop,startallRound,memberContainer,started] using ran

private theorem levels_walk (behaves : Scripted sys script) (valid : ValidCalls sys script w₀) {R₀ : Levels M}
    (rep : Represents w₀.lists R₀) (initialized : w₀.registryInitialized = true) {fuel : ℕ} {last : World M}
    (later : List (Fin maxLevel)) : ∀ {l : Fin maxLevel} {w : World M}, Comes sys w₀ l later (w.lists (.sentinel l)).next w →
      startallLevels sys fuel .defaultLoop (l :: later) w = .done 0 last →
        Walks sys l later (w.lists (.sentinel l)).next w last := by
  induction later with
  | nil =>
    intro l w comes ran
    refine ring_walks behaves valid rep initialized (fun w _ ended => ?_) fuel comes ran
    cases ended
    exact .done
  | cons l' later ih =>
    intro l w comes ran
    exact ring_walks behaves valid rep initialized (fun w before rest => .nextLevel (ih (.nextLevel before) rest))
      fuel comes ran

/-- Where a call of `armd_module_startall` that returned 0 has come to, it goes on to its end. -/
private theorem startall_walks (behaves : Scripted sys script) (valid : ValidCalls sys script w₀) {R₀ : Levels M}
    (rep : Represents w₀.lists R₀) (initialized : w₀.registryInitialized = true) {fuel : ℕ} {last : World M}
    (ran : armdModuleStartall sys fuel .defaultLoop w₀ = .done 0 last)
    {l : Fin maxLevel} {later : List (Fin maxLevel)} {node : Option (Node M)} {w : World M}
    (comes : Comes sys w₀ l later node w) : Walks sys l later node w last := by
  have whole : startallLevels sys fuel .defaultLoop levels w₀ = .done 0 last := by
    simpa [armdModuleStartall,initialized] using ran
  exact comes_walks comes fun l later split =>
    levels_walk behaves valid rep initialized later (.enter split) (split ▸ whole)

/-- The trace only grows, and the module at hand is started. -/
private theorem walks_extend (behaves : Scripted sys script) (valid : ValidCalls sys script w₀) {R₀ : Levels M}
    (rep : Represents w₀.lists R₀) (initialized : w₀.registryInitialized = true)
    {l : Fin maxLevel} {later : List (Fin maxLevel)} {node : Option (Node M)} {w last : World M}
    (walks : Walks sys l later node w last) : Comes sys w₀ l later node w →
      ∃ more, last.trace = w.trace ++ more ∧ ∀ x, node = some (.module x) → x ∈ startsOf more := by
  induction walks with
  | done => intro _; exact ⟨[],by simp,by simp⟩
  | @onwards l later m w w' last ran _ ih =>
    intro comes
    obtain ⟨v,_,during,started,_,trace,begun,_⟩ := comes_start behaves valid rep initialized comes
    cases started.symm.trans ran
    obtain ⟨more,since,_⟩ := ih (.onwards comes ran)
    refine ⟨during ++ more,by simp [since,trace],fun x same => ?_⟩
    cases same
    simp [startsOf_append,begun]
  | nextLevel _ ih =>
    intro comes
    obtain ⟨more,since,_⟩ := ih (.nextLevel comes)
    exact ⟨more,since,by simp⟩

/-- A call that completes has left every module on a ring, as the walk would start one that is on none again, and none last
    on another ring, whose head the walk would take for a module. -/
private theorem completes_stays [Fintype M] (behaves : Scripted sys script) (valid : ValidCalls sys script w₀) {R₀ : Levels M}
    (rep : Represents w₀.lists R₀) (initialized : w₀.registryInitialized = true)
    (completes : Completes sys R₀ w₀) : Stays sys w₀ := by
  intro l later m w w' R k front rest new R' new' comes place started rep' trace'
  obtain ⟨last,whole,ran,since,once,_⟩ := completes (Fintype.card M+1) (Nat.lt_succ_self _)
  have onwards : Comes sys w₀ l later (w'.lists (.module m)).next w' := .onwards comes started
  have walks := startall_walks behaves valid rep initialized ran onwards
  obtain ⟨v,R₁,during,started₁,rep₁,trace,begun,linked⟩ := comes_start behaves valid rep initialized comes
  cases started₁.symm.trans started
  obtain rfl := rep₁.unique rep'
  have there : Registered R m := ⟨k,by rw [place.split]; simp⟩
  rcases linked ⟨R,place.rep,there⟩ with ⟨k',inside⟩ | alone
  · obtain ⟨front',rest',split⟩ := List.append_of_mem inside
    refine ⟨k',front',rest',split,?_⟩
    rintro rfl
    rw [next_cursor rep' split] at walks
    cases walks with
    | done => rfl
    | nextLevel => rfl
  · obtain ⟨more,longer,again⟩ := walks_extend behaves valid rep initialized walks onwards
    have twice := again m ((alone_iff _ _).mp alone).1
    have longer' : last.trace = w₀.trace ++ (new ++ during ++ more) := by simp [longer,trace,place.trace]
    obtain rfl := List.append_cancel_left (since.symm.trans longer')
    rw [startsOf_append,startsOf_append,begun] at once
    exact absurd rfl ((List.nodup_append.mp once).2.2 m (by simp) m twice)

end

/-- What the walk still has to come to on the ring of the level: while it is on another ring, all of it. -/
def waiting (R : Levels M) (l k : Fin maxLevel) (rest : List M) : List M := if k = l then rest else R l

/-- A walk over a registry that was `R₀` on entry: no module was started twice, the next one was not started, and what was
    started and what the walk still has to come to make up `R₀` but for the modules that the walk unregisters. -/
structure Walking (sys : System M) (w₀ : World M) (R₀ R : Levels M) (rest left : List M) (later : List (Fin maxLevel))
    (w : World M) (new : List (Event M)) : Prop where
  initialized : w.registryInitialized = true
  rep : Represents w.lists R
  trace : w.trace = w₀.trace ++ new
  once : (startsOf new).Nodup
  unstarted : ∀ x, (ahead R rest later).head? = some x → x ∉ startsOf new
  covers : ∀ x, Registered R₀ x → x ∈ startsOf new ∨ Leaves sys w₀ x ∨ x ∈ ahead R left later

section
variable {sys : System M} {script : Script M} {w₀ : World M}

/-- A round of the walk starts the module at the cursor, which is left on a ring. -/
private theorem walking_round (behaves : Scripted sys script) (valid : ValidCalls sys script w₀) {R₀ R : Levels M}
    (careful : Careful sys R₀ w₀) {l k : Fin maxLevel} {front rest : List M} {m : M} {later : List (Fin maxLevel)}
    {w : World M} {new : List (Event M)} (comes : Comes sys w₀ l later (some (.module m)) w)
    (split : R k = front ++ m :: rest) (walking : Walking sys w₀ R₀ R (m :: rest) (waiting R l k (m :: rest)) later w new) :
    ∃ w' R' k' front' rest' new', armdModuleStart sys (some m) .defaultLoop w = .done 0 w' ∧
      R' k' = front' ++ m :: rest' ∧ (rest' = [] → k' = l) ∧
        Walking sys w₀ R₀ R' rest' (waiting R' l k' rest') later w' new' ∧ startsOf new' = startsOf new ++ [m] := by
  set calls := callsIn sys script w m with callsAre
  obtain ⟨_,w',during,_,_,started,initialized',rep',begun,trace'⟩ :=
    start_scripted behaves walking.rep walking.initialized (valid l later m w R comes walking.rep)
  set new' := new ++ (during ++ calls.map RegistryCall.event ++ [.started m 0]) with newIs
  have since : w'.trace = w₀.trace ++ new' := by simp [trace',walking.trace,newIs,callsAre]
  obtain ⟨k',front',rest',split',home,next,passed⟩ := careful l later m w w' _ new' comes started rep' since
  have cursor_unstarted : m ∉ startsOf new := walking.unstarted m rfl
  have starts' : startsOf new' = startsOf new ++ [m] := by rw [newIs,startsOf_append,startsOf_start begun]
  refine ⟨w',_,k',front',rest',new',started,split',home,⟨initialized',rep',since,?_,next,?_⟩,starts'⟩
  · rw [starts']
    exact List.nodup_append.mpr ⟨walking.once,by simp,by
      rintro x inside y last rfl; rw [List.mem_singleton.mp last] at inside; exact cursor_unstarted inside⟩
  · intro x onEntry
    rcases walking.covers x onEntry with done | gone | waits
    · exact .inl (by rw [starts']; exact List.mem_append_left _ done)
    · exact .inr (.inl gone)
    · by_cases unregistered : ∃ level, .unregister x level ∈ calls
      · obtain ⟨level,member⟩ := unregistered
        have left : Left new' x := by simp only [newIs,left_append,left_calls member,or_true,true_or]
        exact .inr (.inl ⟨l,later,_,w',new',.onwards comes started,since,left⟩)
      · simp only [not_exists] at unregistered
        rcases List.mem_append.mp waits with inside | further
        · -- it is still on the ring of the level
          have here : x ∈ R l := by
            rw [waiting] at inside
            split_ifs at inside with same
            · rw [← same,split]
              exact List.mem_append_right _ inside
            · exact inside
          have still := mem_applyAll calls here unregistered
          by_cases same : k' = l
          · rw [← same,split',List.mem_append,List.mem_cons] at still
            rw [waiting,if_pos same]
            rcases still with before | rfl | behind
            · exact (passed same x before onEntry).imp_right .inl
            · exact .inl (by simp [starts'])
            · exact .inr (.inr (List.mem_append_left _ behind))
          · rw [waiting,if_neg same]
            exact .inr (.inr (List.mem_append_left _ still))
        · obtain ⟨l',there,inside⟩ := List.mem_flatMap.mp further
          exact .inr (.inr (List.mem_append_right _ (List.mem_flatMap.mpr ⟨l',there,mem_applyAll calls inside unregistered⟩)))

/-- The walk over one ring ends, and leaves nothing of that ring ahead. -/
private theorem walking_ring [Fintype M] (behaves : Scripted sys script) (valid : ValidCalls sys script w₀) {R₀ R : Levels M}
    (careful : Careful sys R₀ w₀) {l : Fin maxLevel} {later : List (Fin maxLevel)} {w : World M} {new : List (Event M)}
    (comes : Comes sys w₀ l later (w.lists (.sentinel l)).next w)
    (walking : Walking sys w₀ R₀ R (R l) (R l) later w new) {fuel : ℕ} (enough : Fintype.card M < fuel) :
    ∃ r w', Program.loop (startallRound sys .defaultLoop (.sentinel l)) fuel (w.lists (.sentinel l)).next w = .done r w' ∧
      r = none ∧ Comes sys w₀ l later (some (.sentinel l)) w' ∧ ∃ R' new', Walking sys w₀ R₀ R' [] [] later w' new' := by
  have first := first_cursor walking.rep l
  have whole : waiting R l l (R l) = R l := if_pos rfl
  refine Program.loop_variant
    (fun node w => ∃ R k front rest new, node = cursor k rest ∧ Comes sys w₀ l later node w ∧ R k = front ++ rest ∧
      (rest = [] → k = l) ∧ Walking sys w₀ R₀ R rest (waiting R l k rest) later w new)
    (fun _ w => Fintype.card M-(startsOf (w.trace.drop w₀.trace.length)).length) _ ?_ fuel _ w
    ⟨R,l,[],R l,new,first,comes,rfl,fun _ => rfl,whole.symm ▸ walking⟩ (by omega)
  rintro node w ⟨R,k,front,rest,new,rfl,comes,split,home,walking⟩
  cases rest with
  | nil =>
    obtain rfl := home rfl
    rw [waiting,if_pos rfl] at walking
    exact .inr ⟨none,w,by simp [startallRound,cursor],rfl,comes,R,new,walking⟩
  | cons m rest =>
    obtain ⟨w',R',k',front',rest',new',started,split',home',walking',starts'⟩ :=
      walking_round behaves valid careful comes split walking
    have next := next_cursor walking'.rep split'
    have since : ∀ {R rest left w new}, Walking sys w₀ R₀ R rest left later w new → w.trace.drop w₀.trace.length = new := by
      intro _ _ _ w new inv; rw [inv.trace,List.drop_left]
    have bound := walking'.once.length_le_card
    rw [starts',List.length_append,List.length_singleton] at bound
    refine .inl ⟨cursor k' rest',w',?_,⟨R',k',front' ++ [m],rest',new',rfl,?_,by simp [split'],home',walking'⟩,?_⟩
    · simp [startallRound,cursor,memberContainer,started,next]
    · exact next ▸ Comes.onwards comes started
    · show Fintype.card M-(startsOf (w'.trace.drop w₀.trace.length)).length <
        Fintype.card M-(startsOf (w.trace.drop w₀.trace.length)).length
      rw [since walking,since walking',starts',List.length_append,List.length_singleton]
      omega

private theorem walking_levels [Fintype M] (behaves : Scripted sys script) (valid : ValidCalls sys script w₀) {R₀ : Levels M}
    (careful : Careful sys R₀ w₀) {fuel : ℕ} (enough : Fintype.card M < fuel) (ls : List (Fin maxLevel)) :
    ∀ {R : Levels M} {w : World M} {new : List (Event M)},
      (∀ l later, ls = l :: later → Comes sys w₀ l later (w.lists (.sentinel l)).next w) →
        Walking sys w₀ R₀ R [] [] ls w new →
          ∃ w' R' new', startallLevels sys fuel .defaultLoop ls w = .done 0 w' ∧ Walking sys w₀ R₀ R' [] [] [] w' new' := by
  induction ls with
  | nil => intro R w new _ walking; exact ⟨w,R,new,rfl,walking⟩
  | cons l later ih =>
    intro R w new comes walking
    have same : ahead R (R l) later = ahead R [] (l :: later) := by simp [ahead]
    have entering : Walking sys w₀ R₀ R (R l) (R l) later w new := { walking with
      unstarted := same ▸ walking.unstarted
      covers := same ▸ walking.covers }
    obtain ⟨_,w₁,walked,rfl,ended,R₁,new₁,walking₁⟩ :=
      walking_ring behaves valid careful (comes l later rfl) entering enough
    obtain ⟨w',R',new',rest,done⟩ := ih (fun l' later' split => .nextLevel (split ▸ ended)) walking₁
    exact ⟨w',R',new',by simp [startallLevels,walked,rest],done⟩

private theorem careful_completes [Fintype M] (behaves : Scripted sys script) (valid : ValidCalls sys script w₀) {R₀ : Levels M}
    (rep : Represents w₀.lists R₀) (initialized : w₀.registryInitialized = true) (careful : Careful sys R₀ w₀) :
    Completes sys R₀ w₀ := by
  intro fuel enough
  have entering : Walking sys w₀ R₀ R₀ [] [] levels w₀ [] := by
    refine ⟨initialized,rep,by simp,List.nodup_nil,by simp [startsOf],?_⟩
    rintro x ⟨l,inside⟩
    exact .inr (.inr (List.mem_append_right _ (List.mem_flatMap.mpr ⟨l,List.mem_finRange l,inside⟩)))
  obtain ⟨w',R',new',walked,done⟩ := walking_levels behaves valid careful enough levels (fun _ _ split => .enter split) entering
  have ran : armdModuleStartall sys fuel .defaultLoop w₀ = .done 0 w' := by simpa [armdModuleStartall,initialized] using walked
  refine ⟨w',new',ran,done.trace,done.once,?_⟩
  intro m onEntry stayed
  rcases done.covers m onEntry with started | ⟨l,later,node,w,new,comes,since,left⟩ | waits
  · exact started
  · -- what was unregistered on the way is so at the end
    obtain ⟨R,k,front,rest,before,place⟩ := comes_place behaves valid careful.stays rep initialized comes
    obtain ⟨_,more,trace,_⟩ := walks_on behaves valid careful.stays
      (startall_walks behaves valid rep initialized ran comes) comes place
    obtain rfl := List.append_cancel_left (since.symm.trans place.trace)
    obtain rfl := List.append_cancel_left (done.trace.symm.trans trace)
    obtain ⟨level,gone⟩ := left
    exact absurd (List.mem_append_left _ gone) (stayed level)
  · simp [ahead] at waits

private theorem completes_careful [Fintype M] (behaves : Scripted sys script) (valid : ValidCalls sys script w₀) {R₀ : Levels M}
    (rep : Represents w₀.lists R₀) (initialized : w₀.registryInitialized = true) (completes : Completes sys R₀ w₀) :
    Careful sys R₀ w₀ := by
  have stays := completes_stays behaves valid rep initialized completes
  intro l later m w w' R new comes started rep' trace
  obtain ⟨last,whole,ran,since,once,covers⟩ := completes (Fintype.card M+1) (Nat.lt_succ_self _)
  obtain ⟨_,_,_,_,_,before⟩ := comes_place behaves valid stays rep initialized comes
  obtain ⟨_,rfl⟩ := before.at_module
  obtain ⟨k,front,rest,split,home⟩ := stays l later m w w' _ _ _ _ _ R new comes before started rep' trace
  have onwards : Comes sys w₀ l later (w'.lists (.module m)).next w' := .onwards comes started
  obtain ⟨R₁,_,_,_,_,place₁⟩ := comes_place behaves valid stays rep initialized onwards
  have place : Place w₀ l later (w'.lists (.module m)).next w' R k (front ++ [m]) rest new :=
    ⟨place₁.initialized,rep',by simp [split],next_cursor rep' split,home,trace,place₁.distinct⟩
  obtain ⟨⟨_,ended⟩,more,since',next,passed⟩ := walks_on behaves valid stays
    (startall_walks behaves valid rep initialized ran onwards) onwards place
  obtain rfl := List.append_cancel_left (since.symm.trans since')
  rw [startsOf_append] at once
  refine ⟨k,front,rest,split,home,fun x inLine started => ?_,?_⟩
  · exact (List.nodup_append.mp once).2.2 x started x (next x inLine) rfl
  · rintro rfl x inside onEntry
    by_cases left : Left (new ++ more) x
    · exact .inr ⟨_,[],_,last,_,ended,since,left⟩
    · have begun := covers x onEntry fun level gone => left ⟨level,gone⟩
      rw [startsOf_append,List.mem_append] at begun
      -- the walk does not come back to what it has passed
      have onRing : x ∈ R k := by rw [split]; exact List.mem_append_left _ inside
      refine .inl (begun.resolve_right (passed x k (fun late => left (left_append.mpr (.inr late))) onRing ?_ fun _ => ?_))
      · exact (List.nodup_cons.mp place.distinct).1
      · exact List.mem_append_left _ inside

/-- Under callbacks that register and unregister modules, starting everything completes if and only if every `on_start`
    leaves the rings so that the walk goes on. -/
theorem startall_under_callbacks [Fintype M] (behaves : Scripted sys script) (valid : ValidCalls sys script w₀)
    {R₀ : Levels M} (rep : Represents w₀.lists R₀) (initialized : w₀.registryInitialized = true) :
    Completes sys R₀ w₀ ↔ Careful sys R₀ w₀ :=
  ⟨completes_careful behaves valid rep initialized,careful_completes behaves valid rep initialized⟩

end

/-! ### A callback that takes its module off and puts it back -/

/-- A module on the first level and one on the last. -/
def bothModules : List (RegistryCall Bool) := [.register false systemLevel,.register true postLevel]

theorem bothModules_disciplined : Disciplined bothModules := by
  have first := disciplined_single false systemLevel
  refine Runs.along_snoc.mpr ⟨first,?_⟩
  rintro ⟨l,inside⟩
  rcases mem_add.mp inside with there | ⟨_,same⟩
  · cases there
  · cases same

/-- The first module unregisters itself and registers itself again. -/
def returningScript : Script Bool := fun m _ =>
  if m = false then [.unregister false systemLevel,.register false systemLevel] else []

def returningSystem : System Bool where
  name := fun _ _ => 0
  mops := fun _ => some ⟨some (scripted returningScript (fun _ _ => 0)),none,none⟩
  uvAsyncInitRet := fun _ _ => 0

private theorem returning_scripted : Scripted returningSystem returningScript :=
  ⟨fun _ _ => le_rfl,fun _ => ⟨_,rfl,.inr ⟨_,fun _ => le_rfl,rfl⟩⟩⟩

private theorem returning_valid (w : World Bool) (m : Bool) :
    AllValid (levelsAfter bothModules) (callsIn returningSystem returningScript w m) := by
  cases m with
  | true => trivial
  | false =>
    have there : Registered (levelsAfter bothModules) false := ⟨systemLevel,by decide⟩
    refine ⟨there,?_,trivial⟩
    rintro ⟨l,inside⟩
    revert l
    decide

private theorem returning_applied (w : World Bool) (m : Bool) :
    (callsIn returningSystem returningScript w m).foldl apply (levelsAfter bothModules) = levelsAfter bothModules := by
  cases m with
  | true => rfl
  | false =>
    show [.unregister false systemLevel,.register false systemLevel].foldl apply (levelsAfter bothModules) = _
    funext l
    revert l
    decide

/-- Where the walk comes to: the rings are what they were on entry, and the second module is not started before its
    level. -/
structure Returning (w₀ : World Bool) (l : Fin maxLevel) (later : List (Fin maxLevel)) (node : Option (Node Bool))
    (w : World Bool) : Prop where
  initialized : w.registryInitialized = true
  rep : Represents w.lists (levelsAfter bothModules)
  after : ∀ l' ∈ later, l < l'
  ascending : later.Pairwise (· < ·)
  onRing : ∀ m, node = some (.module m) → m ∈ levelsAfter bothModules l
  starts : ∃ new, w.trace = w₀.trace ++ new ∧ (true ∈ startsOf new → l = postLevel ∧ node = some (.sentinel l))

private theorem only_one {m : Bool} {l : Fin maxLevel} (inside : m ∈ levelsAfter bothModules l) :
    levelsAfter bothModules l = [m] ∧ (m = true → l = postLevel) ∧ (m = false → l = systemLevel) := by
  revert m l
  decide

private theorem cursor_onRing {l : Fin maxLevel} {m : Bool} (there : cursor l (levelsAfter bothModules l) = some (.module m)) :
    m ∈ levelsAfter bothModules l := by
  cases ring : levelsAfter bothModules l with
  | nil => rw [ring] at there; cases there
  | cons x rest => rw [ring] at there; cases there; exact List.mem_cons_self

private theorem returning_start {w : World Bool} (initialized : w.registryInitialized = true)
    (rep : Represents w.lists (levelsAfter bothModules)) (m : Bool) :
    ∃ w' during, armdModuleStart returningSystem (some m) .defaultLoop w = .done 0 w' ∧ w'.registryInitialized = true ∧
      Represents w'.lists (levelsAfter bothModules) ∧ w'.trace = w.trace ++ during ∧ startsOf during = [m] := by
  obtain ⟨_,w',during,_,_,started,initialized',rep',begun,trace⟩ :=
    start_scripted returning_scripted rep initialized (returning_valid w m)
  rw [returning_applied] at rep'
  refine ⟨w',during ++ (callsIn returningSystem returningScript w m).map RegistryCall.event ++ [.started m 0],started,
    initialized',rep',by simp [trace],startsOf_start begun _⟩

private theorem returning_comes {w₀ : World Bool} (initialized : w₀.registryInitialized = true)
    (rep : Represents w₀.lists (levelsAfter bothModules)) {l : Fin maxLevel} {later : List (Fin maxLevel)}
    {node : Option (Node Bool)} {w : World Bool} (comes : Comes returningSystem w₀ l later node w) :
    Returning w₀ l later node w := by
  induction comes with
  | @enter l later split =>
    have ascending : (l :: later).Pairwise (· < ·) := split ▸ List.pairwise_lt_finRange maxLevel
    obtain ⟨after,ascending'⟩ := List.pairwise_cons.mp ascending
    refine ⟨initialized,rep,after,ascending',fun m there => ?_,[],by simp,by simp [startsOf]⟩
    rw [first_cursor rep l] at there
    exact cursor_onRing there
  | @onwards l later m w w' _ started ih =>
    obtain ⟨v,during,started',initialized',rep',trace,begun⟩ := returning_start ih.initialized ih.rep m
    obtain rfl : v = w' := (Outcome.done.inj (started'.symm.trans started)).2
    obtain ⟨ring,isPost,_⟩ := only_one (ih.onRing m rfl)
    have next : (v.lists (.module m)).next = some (.sentinel l) :=
      next_cursor rep' (show levelsAfter bothModules l = [] ++ m :: [] from ring)
    obtain ⟨new,since,before⟩ := ih.starts
    refine ⟨initialized',rep',ih.after,ih.ascending,fun m' there => ?_,new ++ during,by simp [trace,since],fun started => ?_⟩
    · rw [next] at there
      cases there
    · rw [startsOf_append,begun,List.mem_append,List.mem_singleton] at started
      rcases started with early | last
      · cases (before early).2
      · exact ⟨isPost last.symm,next⟩
  | @nextLevel l l' later w _ ih =>
    obtain ⟨after',ascending'⟩ := List.pairwise_cons.mp ih.ascending
    obtain ⟨new,since,before⟩ := ih.starts
    refine ⟨ih.initialized,ih.rep,after',ascending',fun m there => ?_,new,since,fun started => ?_⟩
    · rw [first_cursor ih.rep l'] at there
      exact cursor_onRing there
    · -- no level comes after the last one
      have beyond := ih.after l' (List.mem_cons_self ..)
      rw [(before started).1] at beyond
      exact absurd beyond ((by decide : ∀ k : Fin maxLevel, ¬ postLevel < k) l')

private theorem returning_careful {w₀ : World Bool} (initialized : w₀.registryInitialized = true)
    (rep : Represents w₀.lists (levelsAfter bothModules)) :
    Careful returningSystem (levelsAfter bothModules) w₀ := by
  intro l later m w w' R new comes started rep' trace
  have at_m := returning_comes initialized rep comes
  have at_next := returning_comes initialized rep (.onwards comes started)
  obtain rfl := rep'.unique at_next.rep
  obtain ⟨ring,_⟩ := only_one (at_m.onRing m rfl)
  refine ⟨l,[],[],ring,fun _ => rfl,fun x next there => ?_,by simp⟩
  obtain ⟨l',inLater,inside⟩ := List.mem_flatMap.mp (List.mem_of_mem_head? (show x ∈ (later.flatMap _).head? from next))
  have beyond := at_m.after l' inLater
  obtain ⟨_,isPost,isSystem⟩ := only_one inside
  cases x with
  | false => exact absurd (isSystem rfl ▸ beyond) ((by decide : ∀ k : Fin maxLevel, ¬ k < systemLevel) l)
  | true =>
    obtain ⟨new',since,before⟩ := at_next.starts
    cases List.append_cancel_left (trace.symm.trans since)
    rw [(before there).1,isPost rfl] at beyond
    exact absurd beyond (lt_irrefl _)

/-- The first module leaves its ring and comes back while it is started; both are started, once. -/
theorem startall_returning : ∃ w R, runCalls bothModules World.zero = .done () w ∧ Represents w.lists R ∧
    Careful returningSystem R w ∧ Completes returningSystem R w := by
  obtain ⟨w,ran,tracks⟩ := tracks_of_disciplined bothModules_disciplined
  have rep := tracks.tidy.rings
  have valid : ValidCalls returningSystem returningScript w := by
    intro l later m w' R comes rep'
    obtain rfl := rep'.unique (returning_comes tracks.initialized rep comes).rep
    exact returning_valid w' m
  have careful := returning_careful tracks.initialized rep
  exact ⟨w,_,ran,rep,careful,(startall_under_callbacks returning_scripted valid rep tracks.initialized).2 careful⟩

/-! ### A callback that unregisters its own module -/

/-- While the only module is on its ring, it unregisters itself. -/
def leavingScript : Script Unit := fun _ w =>
  if (w.lists (.sentinel systemLevel)).next = some (.module ()) then [.unregister () systemLevel] else []

def leavingSystem : System Unit where
  name := fun _ _ => 0
  mops := fun _ => some ⟨some (scripted leavingScript (fun _ _ => 0)),none,none⟩
  uvAsyncInitRet := fun _ _ => 0

private theorem leaving_scripted : Scripted leavingSystem leavingScript :=
  ⟨fun _ _ => le_rfl,fun _ => ⟨_,rfl,.inr ⟨_,fun _ => le_rfl,rfl⟩⟩⟩

private theorem leaving_registered {w : World Unit} {R : Levels Unit} (rep : Represents w.lists R)
    (there : (w.lists (.sentinel systemLevel)).next = some (.module ())) : Registered R () := by
  have onRing := (rep.ring systemLevel).next_mem (List.mem_cons_self ..) there
  rcases List.mem_cons.mp onRing with same | member
  · cases same
  · obtain ⟨_,inside,_⟩ := List.mem_map.mp member
    exact ⟨systemLevel,inside⟩

private theorem leaving_valid {w : World Unit} {R : Levels Unit} (rep : Represents w.lists R) (m : Unit) :
    AllValid R (callsIn leavingSystem leavingScript w m) := by
  unfold callsIn leavingScript
  split
  · next there => exact ⟨leaving_registered rep there,trivial⟩
  · exact trivial

/-- Once its module is off the rings, or about to leave them, the walk stays on it. -/
private theorem leaving_round {w : World Unit} {R : Levels Unit} (rep : Represents w.lists R)
    (initialized : w.registryInitialized = true)
    (off : (w.lists (.sentinel systemLevel)).next = some (.module ()) ∨ Alone w.lists (.module ())) :
    ∃ w' R', startallRound leavingSystem .defaultLoop (.sentinel systemLevel) (some (.module ())) w =
        .done (.inl (some (.module ()))) w' ∧
      Represents w'.lists R' ∧ w'.registryInitialized = true ∧ Alone w'.lists (.module ()) := by
  obtain ⟨w₂,w',_,performed,lists',started,initialized',rep',_,_⟩ :=
    start_scripted leaving_scripted rep initialized (leaving_valid rep ())
  have alone : Alone w'.lists (.module ()) := by
    rw [lists']
    by_cases there : (w.lists (.sentinel systemLevel)).next = some (.module ())
    · obtain ⟨g,deleted,_,alone,_⟩ := represents_unregister rep (leaving_registered rep there)
      have calls : callsIn leavingSystem leavingScript w () = [.unregister () systemLevel] := if_pos there
      have initialized₁ : (callbackWorld leavingSystem w ()).registryInitialized = true := initialized
      rw [calls] at performed
      simp only [perform,Program.bind_run,run_unregister initialized₁ () systemLevel deleted,
        Outcome.andThen_done,Program.pure_run] at performed
      cases performed
      exact alone
    · have calls : callsIn leavingSystem leavingScript w () = [] := if_neg there
      rw [calls] at performed
      cases performed
      exact off.resolve_left there
  refine ⟨w',_,?_,rep',initialized',alone⟩
  simp [startallRound,memberContainer,started,((alone_iff _ _).mp alone).1]

/-- The walk never ends when the callback of the only module unregisters that module. -/
theorem unregistering_itself_never_ends :
    Scripted leavingSystem leavingScript ∧
      ∃ w R, runCalls [.register () systemLevel] World.zero = .done () w ∧ Represents w.lists R ∧
        ValidCalls leavingSystem leavingScript w ∧
          ∀ fuel, armdModuleStartall leavingSystem fuel .defaultLoop w = .exhausted := by
  refine ⟨leaving_scripted,?_⟩
  obtain ⟨w,ran,tracks⟩ := tracks_of_disciplined (disciplined_single () systemLevel)
  have first : (w.lists (.sentinel systemLevel)).next = some (.module ()) := first_cursor tracks.tidy.rings systemLevel
  refine ⟨w,_,ran,tracks.tidy.rings,fun _ _ m _ _ _ rep => leaving_valid rep m,fun fuel => ?_⟩
  have stuck : Program.loop (startallRound leavingSystem .defaultLoop (.sentinel systemLevel)) fuel
      (w.lists (.sentinel systemLevel)).next w = .exhausted := by
    refine Program.loop_forever (fun node w => node = some (.module ()) ∧ w.registryInitialized = true ∧
      ((w.lists (.sentinel systemLevel)).next = some (.module ()) ∨ Alone w.lists (.module ())) ∧
        ∃ R, Represents w.lists R) ?_ fuel _ w ⟨first,tracks.initialized,.inl first,_,tracks.tidy.rings⟩
    rintro node w ⟨rfl,initialized,off,R,rep⟩
    obtain ⟨w',R',walked,rep',initialized',alone⟩ := leaving_round rep initialized off
    exact ⟨_,w',walked,rfl,initialized',.inr alone,R',rep'⟩
  have levelsAre : levels = systemLevel :: [coreLevel,appLevel,postLevel] := rfl
  simp [armdModuleStartall,tracks.initialized,levelsAre,startallLevels,stuck]

end Armd.StartCallbacks
