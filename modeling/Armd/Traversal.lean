import Armd.RegistryModel
import Mathlib.Algebra.Order.BigOperators.Group.List
import Mathlib.Algebra.Order.Group.Nat

/-!
What the loops over the registry do when the heap represents four lists and the
callbacks leave the links alone: lookup is a search of the lists, starting and
stopping everything go through the modules one by one (`startall_eq`,
`stopall_eq`, `find_eq`), and each loop ends after one round for each module.
-/
namespace Armd.Traversal
open Armd.Programs Armd.LinkedRings Armd.Datastructure Armd.Queue Armd.Memory Armd.Module Armd.Registry
  Armd.RegistryModel

variable {M : Type} [DecidableEq M]

/-- The registered modules by ascending level. -/
def startOrder (R : Levels M) : List M := levels.flatMap R
/-- The registered modules by descending level. -/
def stopOrder (R : Levels M) : List M := levels.reverse.flatMap R

/-- Starting modules in turn, up to the first one that fails. -/
def startEach (sys : System M) (loop : LoopRef) : List M → Program (World M) (Option ℤ)
  | [] => pure none
  | m :: rest => do
    let ret ← armdModuleStart sys (some m) loop
    if ret < 0 then pure (some ret) else startEach sys loop rest

/-- Stopping modules in turn, each taken off its ring after it was stopped. -/
def stopEach (sys : System M) : List M → Program (World M) Unit
  | [] => pure ()
  | m :: rest => do
    armdModuleStop sys (some m)
    onLists (fun lists => armdListDelete lists (.module m))
    stopEach sys rest

/-- The node after the front of a ring, as the cursor of a loop. -/
def cursor (l : Fin maxLevel) (back : List M) : Option (Node M) :=
  match back with
  | [] => some (.sentinel l)
  | m :: _ => some (.module m)

omit [DecidableEq M] in
theorem head_cursor (l : Fin maxLevel) (back : List M) :
    some ((back.map Node.module ++ [Node.sentinel l]).head (by simp)) = cursor l back := by
  cases back <;> rfl

omit [DecidableEq M] in
theorem first_cursor {h : Heap (Node M)} {R : Levels M} (rep : Represents h R) (l : Fin maxLevel) :
    (h (.sentinel l)).next = cursor l (R l) := by
  rw [(path_first (rep.ring l).path).1,head_cursor]

omit [DecidableEq M] in
theorem next_cursor {h : Heap (Node M)} {R : Levels M} (rep : Represents h R) {l : Fin maxLevel} {front back : List M}
    {m : M} (split : R l = front ++ m :: back) : (h (.module m)).next = cursor l back := by
  have ring := rep.ring l
  rw [split,List.map_append,List.map_cons] at ring
  rw [ring.next_of_split,head_cursor]

/-! ### Starting -/

theorem startEach_append (sys : System M) (loop : LoopRef) (xs ys : List M) (w : World M) :
    startEach sys loop (xs ++ ys) w = (startEach sys loop xs w).andThen
      (fun r => match r with | some ret => pure (some ret) | none => startEach sys loop ys) := by
  induction xs generalizing w with
  | nil => rfl
  | cons m rest ih =>
    simp only [List.cons_append,startEach,Program.bind_run]
    cases armdModuleStart sys (some m) loop w with
    | abort | exhausted => rfl
    | done ret w' =>
      by_cases failed : ret < 0
      · simp [failed]
      · simp [failed,ih]

theorem preserves_startEach {sys : System M} (quiet : StartQuiet sys) (loop : LoopRef) (ms : List M) :
    Program.Preserves registryView (startEach sys loop ms) := by
  induction ms with
  | nil => exact Program.preserves_pure _
  | cons m rest ih =>
    exact Program.preserves_bind (preserves_start quiet m loop)
      (fun _ => Program.preserves_ite (Program.preserves_pure _) ih)

omit [DecidableEq M] in
theorem view_lists {w w' : World M} (same : registryView w' = registryView w) : w'.lists = w.lists :=
  congrArg Prod.fst same

/-- The inner loop of `armd_module_startall`, from any place of a ring. -/
theorem startall_ring {sys : System M} (quiet : StartQuiet sys) (loop : LoopRef) {R : Levels M} {l : Fin maxLevel}
    (back : List M) : ∀ (front : List M) (w : World M) (n : ℕ), Represents w.lists R → R l = front ++ back →
      back.length < n →
        Program.loop (startallRound sys loop (.sentinel l)) n (cursor l back) w = startEach sys loop back w := by
  induction back with
  | nil =>
    intro front w n rep split fuel
    obtain ⟨n,rfl⟩ : ∃ k, n = k+1 := ⟨n-1,by simp at fuel; omega⟩
    exact Program.loop_end n (by simp [startallRound,cursor])
  | cons m rest ih =>
    intro front w n rep split fuel
    obtain ⟨n,rfl⟩ : ∃ k, n = k+1 := ⟨n-1,by simp at fuel; omega⟩
    simp only [Program.loop,startEach,startallRound,cursor,Program.bind_run,Option.some.injEq,reduceCtorEq,
      if_false,memberContainer,Program.pure_run,Outcome.andThen_done]
    cases ran : armdModuleStart sys (some m) loop w with
    | abort | exhausted => rfl
    | done ret w' =>
      have kept := view_lists (preserves_start quiet m loop w ret w' ran)
      have rep' : Represents w'.lists R := kept ▸ rep
      by_cases failed : ret < 0
      · simp [failed]
      · have onwards := ih (front ++ [m]) w' n rep' (by simp [split]) (by simp at fuel; omega)
        simp [failed,next_cursor rep' split,onwards]

/-- The fuel that every loop over a registry needs. -/
def rounds (R : Levels M) : ℕ := (startOrder R).length+1

omit [DecidableEq M] in
theorem length_lt_rounds (R : Levels M) (l : Fin maxLevel) : (R l).length < rounds R := by
  have sub : (R l).length ≤ (startOrder R).length := by
    apply List.Sublist.length_le
    exact List.sublist_flatten_of_mem (List.mem_map.mpr ⟨l,List.mem_finRange l,rfl⟩)
  exact Nat.lt_succ_of_le sub

theorem startallLevels_eq {sys : System M} (quiet : StartQuiet sys) (loop : LoopRef) {R : Levels M} {fuel : ℕ}
    (enough : rounds R ≤ fuel) (ls : List (Fin maxLevel)) : ∀ w : World M, Represents w.lists R →
      startallLevels sys fuel loop ls w =
        (startEach sys loop (ls.flatMap R) w).andThen (fun r => pure (r.getD 0)) := by
  induction ls with
  | nil => intro w _; rfl
  | cons l rest ih =>
    intro w rep
    have bound := Nat.lt_of_lt_of_le (length_lt_rounds R l) enough
    simp only [startallLevels,Program.bind_run,Program.get_run,Outcome.andThen_done,List.flatMap_cons,
      startEach_append,first_cursor rep l,startall_ring quiet loop (R l) [] w fuel rep rfl bound]
    cases ran : startEach sys loop (R l) w with
    | abort | exhausted => rfl
    | done r w' =>
      cases r with
      | some ret => rfl
      | none => exact ih w' (view_lists (preserves_startEach quiet loop (R l) w none w' ran) ▸ rep)

/-- Starting everything starts the registered modules in order, up to the first failure. -/
theorem startall_eq {sys : System M} (quiet : StartQuiet sys) {R : Levels M} {w : World M}
    (rep : Represents w.lists R) (initialized : w.registryInitialized = true) {fuel : ℕ} (enough : rounds R ≤ fuel) :
    armdModuleStartall sys fuel .defaultLoop w =
      (startEach sys .defaultLoop (startOrder R) w).andThen (fun r => pure (r.getD 0)) := by
  simp only [armdModuleStartall,Program.bind_run,Program.get_run,Outcome.andThen_done,Program.ite_run,initialized]
  simpa [startOrder] using startallLevels_eq quiet .defaultLoop enough levels w rep

/-! ### Stopping -/

theorem stopEach_append (sys : System M) (xs ys : List M) :
    stopEach sys (xs ++ ys) = stopEach sys xs >>= fun _ => stopEach sys ys := by
  induction xs with
  | nil => rfl
  | cons m rest ih => simp only [List.cons_append,stopEach,ih,bind_assoc]

/-- A registry without the given modules. -/
def removeAll (R : Levels M) (ms : List M) : Levels M := ms.foldl remove R

theorem rounds_removeAll (R : Levels M) (ms : List M) : rounds (removeAll R ms) ≤ rounds R := by
  induction ms generalizing R with
  | nil => exact Nat.le_refl _
  | cons m rest ih =>
    refine Nat.le_trans (ih (remove R m)) (Nat.succ_le_succ ?_)
    simp only [startOrder,List.length_flatMap]
    exact List.sum_le_sum (fun l _ => List.length_erase_le)

/-- Deleting a registered module from its ring. -/
theorem delete_registered {R : Levels M} {w : World M} (tidy : Tidy w.lists R) {m : M} (present : Registered R m) :
    ∃ g, onLists (fun lists => armdListDelete lists (.module m)) w = .done () { w with lists := g } ∧
      Tidy g (remove R m) := by
  obtain ⟨g,deleted,tidy',_⟩ := tidy_delete tidy present
  exact ⟨g,by simp [onLists,deleted],tidy'⟩

theorem remove_head {R : Levels M} {l : Fin maxLevel} {m : M} {rest : List M} (split : R l = m :: rest) :
    remove R m l = rest := by
  simp [remove,split]

/-- A round of `armd_module_stopall` on a ring that is not empty stops its first module and takes it off. -/
theorem stopallRound_cons (sys : System M) {R : Levels M} {w : World M} (rep : Represents w.lists R) {l : Fin maxLevel}
    {m : M} {rest : List M} (split : R l = m :: rest) :
    stopallRound sys (.sentinel l) w = (armdModuleStop sys (some m) w).andThen
      (fun _ => onLists (fun lists => armdListDelete lists (.module m)) >>= fun _ => pure (.inl ())) := by
  have notEmpty := armdListEmpty_ring (rep.ring l)
  have head : (w.lists (.sentinel l)).next = some (.module m) := by rw [first_cursor rep l,split]; rfl
  simp only [stopallRound,Program.bind_run,Program.get_run,Outcome.andThen_done,Program.ite_run,notEmpty,split,
    List.map_cons,reduceCtorEq,decide_false,Bool.false_eq_true,if_false,head,memberContainer,Program.pure_run]

/-- The inner loop of `armd_module_stopall`. -/
theorem stopall_ring {sys : System M} (quiet : StopQuiet sys) {l : Fin maxLevel} (ms : List M) :
    ∀ (R : Levels M) (w : World M) (n : ℕ), Tidy w.lists R → R l = ms → ms.length < n →
      Program.loop (fun _ => stopallRound sys (.sentinel l)) n () w = stopEach sys ms w := by
  induction ms with
  | nil =>
    intro R w n tidy split fuel
    obtain ⟨n,rfl⟩ : ∃ k, n = k+1 := ⟨n-1,by simp at fuel; omega⟩
    have empty := armdListEmpty_ring (tidy.rings.ring l)
    exact Program.loop_end n (by simp [stopallRound,empty,split])
  | cons m rest ih =>
    intro R w n tidy split fuel
    obtain ⟨n,rfl⟩ : ∃ k, n = k+1 := ⟨n-1,by simp at fuel; omega⟩
    simp only [Program.loop,stopEach,Program.bind_run,stopallRound_cons sys tidy.rings split]
    cases ran : armdModuleStop sys (some m) w with
    | abort | exhausted => rfl
    | done u w' =>
      have tidy' : Tidy w'.lists R := view_lists (preserves_stop quiet m w u w' ran) ▸ tidy
      have present : Registered R m := ⟨l,by simp [split]⟩
      obtain ⟨g,deleted,left⟩ := delete_registered tidy' present
      simpa [deleted] using ih (remove R m) { w' with lists := g } n left (remove_head split) (by simp at fuel; omega)

omit [DecidableEq M] in
/-- The levels that are still to be stopped are as they were. -/
theorem removeAll_other {R : Levels M} (apart : ∀ l l' m, m ∈ R l → m ∈ R l' → l = l') [DecidableEq M]
    {l l' : Fin maxLevel} (other : l' ≠ l) (ms : List M) (inside : ∀ m ∈ ms, m ∈ R l) :
    removeAll R ms l' = R l' := by
  have absent : ∀ m ∈ ms, m ∉ R l' := fun m member there => other (apart _ _ _ there (inside m member))
  clear inside
  induction ms generalizing R with
  | nil => rfl
  | cons m rest ih =>
    have same : remove R m l' = R l' := List.erase_of_not_mem (absent m (by simp))
    have sub : ∀ l₁ m', m' ∈ remove R m l₁ → m' ∈ R l₁ := fun _ _ there => List.mem_of_mem_erase there
    calc removeAll R (m :: rest) l' = removeAll (remove R m) rest l' := rfl
      _ = remove R m l' := ih (fun l₁ l₂ m' first second => apart _ _ _ (sub _ _ first) (sub _ _ second))
          (fun m' member => by rw [same]; exact absent m' (by simp [member]))
      _ = R l' := same

/-- Stopping registered modules one by one takes exactly them off the rings. -/
theorem stopEach_tidy {sys : System M} (quiet : StopQuiet sys) (ms : List M) :
    ∀ (R : Levels M) (w w' : World M), Tidy w.lists R → ms.Nodup → (∀ m ∈ ms, Registered R m) →
      stopEach sys ms w = .done () w' → Tidy w'.lists (removeAll R ms) := by
  induction ms with
  | nil => intro R w w' tidy _ _ ran; cases ran; exact tidy
  | cons m rest ih =>
    intro R w w' tidy distinct registered ran
    simp only [stopEach,Program.bind_run] at ran
    obtain ⟨u,w₁,stopped,ran⟩ := Outcome.andThen_eq_done.mp ran
    have tidy₁ : Tidy w₁.lists R := view_lists (preserves_stop quiet m w u w₁ stopped) ▸ tidy
    obtain ⟨g,deleted,left⟩ := delete_registered tidy₁ (registered m (by simp))
    obtain ⟨v,w₂,removed,ran⟩ := Outcome.andThen_eq_done.mp ran
    rw [deleted] at removed
    cases removed
    refine ih (remove R m) _ w' left (List.nodup_cons.mp distinct).2 ?_ ran
    intro m' member
    have other : m' ≠ m := by rintro rfl; exact (List.nodup_cons.mp distinct).1 member
    exact (registered_remove tidy.rings.nodup).mpr ⟨registered m' (by simp [member]),other⟩

/-- Stopping registered modules leaves no null pointers behind. -/
theorem stopEach_null {sys : System M} (quiet : StopQuiet sys) (ms : List M) :
    ∀ (R : Levels M) (w w' : World M), Tidy w.lists R → ms.Nodup → (∀ m ∈ ms, Registered R m) →
      stopEach sys ms w = .done () w' →
        ∀ m, w'.lists (.module m) = ⟨none,none⟩ ↔ w.lists (.module m) = ⟨none,none⟩ := by
  induction ms with
  | nil => intro R w w' _ _ _ ran m; cases ran; exact Iff.rfl
  | cons m rest ih =>
    intro R w w' tidy distinct registered ran
    simp only [stopEach,Program.bind_run] at ran
    obtain ⟨u,w₁,stopped,ran⟩ := Outcome.andThen_eq_done.mp ran
    have kept : w₁.lists = w.lists := view_lists (preserves_stop quiet m w u w₁ stopped)
    have tidy₁ : Tidy w₁.lists R := kept ▸ tidy
    have present := registered m (by simp)
    obtain ⟨g,deleted,left,_⟩ := tidy_delete tidy₁ present
    obtain ⟨v,w₂,removed,ran⟩ := Outcome.andThen_eq_done.mp ran
    obtain ⟨lists,deleted',rfl⟩ := onLists_eq_done.mp removed
    cases deleted.symm.trans deleted'
    have others : ∀ m' ∈ rest, Registered (remove R m) m' := by
      intro m' member
      have other : m' ≠ m := by rintro rfl; exact (List.nodup_cons.mp distinct).1 member
      exact (registered_remove tidy.rings.nodup).mpr ⟨registered m' (by simp [member]),other⟩
    intro m'
    rw [ih (remove R m) _ w' left (List.nodup_cons.mp distinct).2 others ran m',← kept]
    exact null_delete tidy₁ present deleted m'

/-- Stopping modules in turn goes along a preorder when each stop does. -/
theorem respects_stopEach (R : World M → World M → Prop) (refl : ∀ w, R w w) (trans : ∀ u v w, R u v → R v w → R u w)
    (links : ∀ w lists, R w { w with lists := lists }) {ms : List M}
    (each : ∀ x ∈ ms, Program.Respects R (armdModuleStop sys (some x))) : Program.Respects R (stopEach sys ms) := by
  induction ms with
  | nil => exact Program.respects_pure refl _
  | cons x rest ih =>
    refine Program.respects_bind trans (each x (by simp)) fun _ => Program.respects_bind trans ?_ fun _ => ?_
    · intro w a w' wrote
      obtain ⟨_,_,rfl⟩ := onLists_eq_done.mp wrote
      exact links w _
    · exact ih fun y member => each y (by simp [member])

theorem stopEach_initialized {sys : System M} (quiet : StopQuiet sys) (ms : List M) {w w' : World M}
    (ran : stopEach sys ms w = .done () w') : w'.registryInitialized = w.registryInitialized := by
  have each : ∀ x ∈ ms, Program.Preserves World.registryInitialized (armdModuleStop sys (some x)) :=
    fun x _ v a v' stopped => congrArg Prod.snd (preserves_stop quiet x v a v' stopped)
  exact respects_stopEach (fun w w' => w'.registryInitialized = w.registryInitialized) (fun _ => rfl)
    (fun _ _ _ before after => after.trans before) (fun _ _ => rfl) each w () w' ran

theorem stopallLevels_eq {sys : System M} (quiet : StopQuiet sys) {fuel : ℕ} (ls : List (Fin maxLevel)) :
    ∀ (R : Levels M) (w : World M), Tidy w.lists R → rounds R ≤ fuel → ls.Nodup →
      stopallLevels sys fuel ls w = stopEach sys (ls.flatMap R) w := by
  induction ls with
  | nil => intro R w _ _ _; rfl
  | cons l rest ih =>
    intro R w tidy enough distinct
    have rep := tidy.rings
    have bound := Nat.lt_of_lt_of_le (length_lt_rounds R l) enough
    simp only [stopallLevels,Program.bind_run,List.flatMap_cons,stopEach_append,
      stopall_ring quiet (R l) R w fuel tidy rfl bound]
    cases ran : stopEach sys (R l) w with
    | abort | exhausted => rfl
    | done u w' =>
      have left := stopEach_tidy quiet (R l) R w w' tidy (rep.nodup l) (fun m member => ⟨l,member⟩) ran
      have others : ∀ l' ∈ rest, removeAll R (R l) l' = R l' := by
        intro l' member
        have other : l' ≠ l := by rintro rfl; exact (List.nodup_cons.mp distinct).1 member
        exact removeAll_other rep.apart other (R l) (fun _ there => there)
      have fewer : rounds (removeAll R (R l)) ≤ fuel := Nat.le_trans (rounds_removeAll R (R l)) enough
      rw [Outcome.andThen_done,ih (removeAll R (R l)) w' left fewer (List.nodup_cons.mp distinct).2]
      exact congrFun (congrArg (stopEach sys) (List.flatMap_congr others)) w'

/-- Stopping everything stops the registered modules one by one and takes each off its ring. -/
theorem stopall_eq {sys : System M} (quiet : StopQuiet sys) {R : Levels M} {w : World M}
    (tidy : Tidy w.lists R) (initialized : w.registryInitialized = true) {fuel : ℕ} (enough : rounds R ≤ fuel) :
    armdModuleStopall sys fuel w = stopEach sys (stopOrder R) w := by
  have distinct : levels.reverse.Nodup := List.nodup_reverse.mpr (List.nodup_finRange maxLevel)
  simp only [armdModuleStopall,Program.bind_run,Program.get_run,Outcome.andThen_done,Program.ite_run,initialized,if_true]
  exact stopallLevels_eq quiet levels.reverse R w tidy enough distinct

omit [DecidableEq M] in
theorem mem_startOrder {R : Levels M} {m : M} : m ∈ startOrder R ↔ Registered R m := by
  simp [startOrder,levels,Registered]

omit [DecidableEq M] in
theorem mem_stopOrder {R : Levels M} {m : M} : m ∈ stopOrder R ↔ Registered R m := by
  simp [stopOrder,levels,Registered]

omit [DecidableEq M] in
theorem flatMap_nodup {h : Heap (Node M)} {R : Levels M} (rep : Represents h R) {ls : List (Fin maxLevel)}
    (distinct : ls.Nodup) : (ls.flatMap R).Nodup := by
  refine List.nodup_flatMap.mpr ⟨fun l _ => rep.nodup l,?_⟩
  refine List.Pairwise.imp ?_ distinct
  intro l l' other m first second
  exact other (rep.apart l l' m first second)

omit [DecidableEq M] in
theorem startOrder_nodup {h : Heap (Node M)} {R : Levels M} (rep : Represents h R) : (startOrder R).Nodup :=
  flatMap_nodup rep (List.nodup_finRange maxLevel)

omit [DecidableEq M] in
theorem stopOrder_nodup {h : Heap (Node M)} {R : Levels M} (rep : Represents h R) : (stopOrder R).Nodup :=
  flatMap_nodup rep (List.nodup_reverse.mpr (List.nodup_finRange maxLevel))

theorem registered_removeAll {R : Levels M} (nodup : ∀ l, (R l).Nodup) (ms : List M) {m : M} :
    Registered (removeAll R ms) m ↔ Registered R m ∧ m ∉ ms := by
  induction ms generalizing R with
  | nil => simp [removeAll]
  | cons m' rest ih =>
    have left : ∀ l, (remove R m' l).Nodup := fun l => (nodup l).erase m'
    have step := ih left
    rw [registered_remove nodup] at step
    simpa [removeAll,and_assoc] using step

theorem removeAll_stopOrder {R : Levels M} (nodup : ∀ l, (R l).Nodup) : removeAll R (stopOrder R) = noModules := by
  funext l
  refine List.eq_nil_iff_forall_not_mem.mpr fun m member => ?_
  have there := (registered_removeAll nodup (stopOrder R)).mp ⟨l,member⟩
  exact there.2 (mem_stopOrder.mpr there.1)

/-- After everything was stopped the registry is empty. -/
theorem stopall_empties {sys : System M} (quiet : StopQuiet sys) {R : Levels M} {w w' : World M}
    (tidy : Tidy w.lists R) (ran : stopEach sys (stopOrder R) w = .done () w') : Tidy w'.lists noModules := by
  have left := stopEach_tidy quiet (stopOrder R) R w w' tidy (stopOrder_nodup tidy.rings)
    (fun m member => mem_stopOrder.mp member) ran
  rwa [removeAll_stopOrder tidy.rings.nodup] at left

/-! ### Finding -/

/-- The test of `armd_module_find`. -/
def nameMatches (sys : System M) (name : ℕ → UInt8) (m : M) : Bool := strncmpEq name (sys.name m) moduleNameMaxlen

/-- The inner loop of `armd_module_find`, from any place of a ring. -/
theorem find_ring (sys : System M) (name : ℕ → UInt8) {R : Levels M} {w : World M} (rep : Represents w.lists R)
    {l : Fin maxLevel} (back : List M) : ∀ (front : List M) (n : ℕ), R l = front ++ back → back.length < n →
      Program.loop (findRound sys name (.sentinel l)) n (cursor l back) w =
        .done (back.find? (nameMatches sys name)) w := by
  induction back with
  | nil =>
    intro front n split fuel
    obtain ⟨n,rfl⟩ : ∃ k, n = k+1 := ⟨n-1,by simp at fuel; omega⟩
    exact Program.loop_end n (by simp [findRound,cursor])
  | cons m rest ih =>
    intro front n split fuel
    obtain ⟨n,rfl⟩ : ∃ k, n = k+1 := ⟨n-1,by simp at fuel; omega⟩
    have onwards := ih (front ++ [m]) n (by simp [split]) (by simp at fuel; omega)
    cases found : nameMatches sys name m with
    | true =>
      have test : strncmpEq name (sys.name m) moduleNameMaxlen = true := found
      rw [List.find?_cons,found]
      exact Program.loop_end n (by simp [findRound,cursor,memberContainer,test])
    | false =>
      have test : strncmpEq name (sys.name m) moduleNameMaxlen = false := found
      rw [List.find?_cons,found,← onwards]
      exact Program.loop_next n (by simp [findRound,cursor,memberContainer,test,next_cursor rep split])

theorem findLevels_eq (sys : System M) (name : ℕ → UInt8) {R : Levels M} {w : World M} (rep : Represents w.lists R)
    {fuel : ℕ} (enough : rounds R ≤ fuel) (ls : List (Fin maxLevel)) :
    findLevels sys fuel name ls w =
      .done ((ls.flatMap R).find? (nameMatches sys name)) w := by
  induction ls with
  | nil => rfl
  | cons l rest ih =>
    have bound := Nat.lt_of_lt_of_le (length_lt_rounds R l) enough
    simp only [findLevels,Program.bind_run,Program.get_run,Outcome.andThen_done,first_cursor rep l,
      find_ring sys name rep (R l) [] fuel rfl bound,List.flatMap_cons,List.find?_append]
    cases (R l).find? (nameMatches sys name) with
    | some m => rfl
    | none => exact ih

/-- Lookup is a search of the registered modules by ascending level. -/
theorem find_eq (sys : System M) (name : ℕ → UInt8) {R : Levels M} {w : World M} (rep : Represents w.lists R)
    (initialized : w.registryInitialized = true) {fuel : ℕ} (enough : rounds R ≤ fuel) :
    armdModuleFind sys fuel (some name) w =
      .done ((startOrder R).find? (nameMatches sys name)) w := by
  simp only [armdModuleFind,Program.bind_run,Program.get_run,Outcome.andThen_done,Program.ite_run,initialized,if_true]
  exact findLevels_eq sys name rep enough levels

end Armd.Traversal
