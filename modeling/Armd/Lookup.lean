import Armd.RegistryCalls

/-!
`armd_module_find` over the whole history of a registry. The bounded comparison
of the source is equality of strings when the names of the modules fit their
field (`strncmpEq_iff`), and the walk over the rings goes through the live
registrations by ascending level and, within a level, in the order they were
made (`tracked_run`). So lookup returns the first of them with the given name
(`find_exact`).
-/
namespace Armd.Lookup
open Armd.Programs Armd.Runs Armd.LinkedRings Armd.Datastructure Armd.Memory Armd.Module Armd.Registry Armd.RegistryModel
  Armd.Traversal Armd.RegistryCalls

/-! ### Strings -/

/-- From its first byte on the memory holds the bytes of the text and a NUL. -/
structure HoldsString (s : ℕ → UInt8) (text : List UInt8) : Prop where
  bytes : ∀ i (inside : i < text.length), s i = text[i]
  nonzero : 0 ∉ text
  terminated : s text.length = 0

theorem HoldsString.first {s : ℕ → UInt8} {c : UInt8} {text : List UInt8} (holds : HoldsString s (c :: text)) : s 0 = c :=
  holds.bytes 0 (by simp)

private theorem HoldsString.head_ne {s : ℕ → UInt8} {c : UInt8} {text : List UInt8} (holds : HoldsString s (c :: text)) : c ≠ 0 := by
  rintro rfl
  exact holds.nonzero (by simp)

theorem HoldsString.rest {s : ℕ → UInt8} {c : UInt8} {text : List UInt8} (holds : HoldsString s (c :: text)) :
    HoldsString (fun i => s (i+1)) text where
  bytes := fun i inside => holds.bytes (i+1) (Nat.succ_lt_succ inside)
  nonzero := fun zero => holds.nonzero (List.mem_cons_of_mem c zero)
  terminated := by simpa using holds.terminated

/-- Comparing up to `n` bytes compares the whole strings when one of them ends within the `n` bytes. -/
theorem strncmpEq_iff (n : ℕ) : ∀ {s t : ℕ → UInt8} {a b : List UInt8}, HoldsString s a → HoldsString t b →
    b.length < n → (strncmpEq s t n = true ↔ a = b) := by
  induction n with
  | zero => intro s t a b _ _ short; omega
  | succ n ih =>
    intro s t a b query field short
    cases a with
    | nil =>
      have ends : s 0 = 0 := query.terminated
      cases b with
      | nil =>
        have ends' : t 0 = 0 := field.terminated
        simp [strncmpEq,ends,ends']
      | cons d b => simp [strncmpEq,ends,field.first,field.head_ne.symm]
    | cons c a =>
      cases b with
      | nil =>
        have ends' : t 0 = 0 := field.terminated
        simp [strncmpEq,ends',query.first,query.head_ne]
      | cons d b =>
        have deeper := ih query.rest field.rest (by simpa using short)
        simp [strncmpEq,query.first,field.first,query.head_ne,deeper]

/-! ### Histories -/

variable {M : Type} [DecidableEq M]

/-- What happens to a registry: a call that registers or unregisters a module, `armd_module_stopall`, or
    anything that leaves it alone, such as starting modules, posting to them and looking them up. -/
inductive RegistryOp (M : Type)
  | call (call : RegistryCall M)
  | stopall
  | other

inductive OpStep (sys : System M) : World M → RegistryOp M → World M → Prop
  | call {w c w'} : RegistryCall.run c w = .done () w' → OpStep sys w (.call c) w'
  | stopall {w w'} : Program.Settles (armdModuleStopall sys) w w' → OpStep sys w .stopall w'
  | other {w w'} : registryView w' = registryView w → OpStep sys w .other w'

/-- The operation takes the module off the rings. -/
def Removes (m : M) : RegistryOp M → Prop
  | .call (.unregister m' _) => m' = m
  | .stopall => True
  | _ => False

/-- Operation `i` registered the module at the level, and none since has removed it. -/
def Live (ops : List (RegistryOp M)) (m : M) (level : Fin maxLevel) (i : ℕ) : Prop :=
  ops[i]? = some (.call (.register m level)) ∧ ∀ j op, i < j → ops[j]? = some op → ¬ Removes m op

/-- The module was registered at some time. -/
def Known (ops : List (RegistryOp M)) (m : M) : Prop := ∃ level, .call (.register m level) ∈ ops

/-- Only modules that are not registered are registered, and only ones that once were are unregistered. -/
def Fits (before : List (RegistryOp M)) : RegistryOp M → Prop
  | .call (.register m _) => ∀ level i, ¬ Live before m level i
  | .call (.unregister m _) => Known before m
  | _ => True

/-- What lookup of a text is to return, given which registrations are live: the first one of that name, by
    ascending level and then by age, or nothing when there is none. -/
def Answer (live : M → Fin maxLevel → ℕ → Prop) (names : M → List UInt8) (text : List UInt8) : Option M → Prop
  | none => ∀ m level i, live m level i → names m ≠ text
  | some m => ∃ level i, live m level i ∧ names m = text ∧
      ∀ m' level' i', live m' level' i' → names m' = text → m' = m ∨ level < level' ∨ (level = level' ∧ i < i')

/-- `armd_module_find` ends with the result as soon as there is enough fuel. -/
def Finds (sys : System M) (w : World M) (name : ℕ → UInt8) (r : Option M) : Prop :=
  ∃ n, ∀ fuel, n ≤ fuel → armdModuleFind sys fuel (some name) w = .done r w

omit [DecidableEq M] in
private theorem live_lt {ops : List (RegistryOp M)} {m : M} {level : Fin maxLevel} {i : ℕ} (live : Live ops m level i) :
    i < ops.length := (List.getElem?_eq_some_iff.mp live.1).1

omit [DecidableEq M] in
/-- An operation ends the registrations it removes, and may begin one. -/
private theorem live_snoc {ops : List (RegistryOp M)} {op : RegistryOp M} {m : M} {level : Fin maxLevel} {i : ℕ} :
    Live (ops ++ [op]) m level i ↔
      (Live ops m level i ∧ ¬ Removes m op) ∨ (i = ops.length ∧ op = .call (.register m level)) := by
  constructor
  · rintro ⟨made,kept⟩
    have bound : i < ops.length+1 := by simpa using (List.getElem?_eq_some_iff.mp made).1
    rcases Nat.lt_succ_iff_lt_or_eq.mp bound with earlier | rfl
    · rw [List.getElem?_append_left earlier] at made
      refine .inl ⟨⟨made,fun j op' later there => kept j op' later ?_⟩,kept ops.length op earlier (by simp)⟩
      rwa [List.getElem?_append_left (List.getElem?_eq_some_iff.mp there).1]
    · exact .inr ⟨rfl,by simpa using made⟩
  · rintro (⟨live,keeps⟩ | ⟨rfl,rfl⟩)
    · refine ⟨by rw [List.getElem?_append_left (live_lt live)]; exact live.1,fun j op' later there => ?_⟩
      have bound : j < ops.length+1 := by simpa using (List.getElem?_eq_some_iff.mp there).1
      rcases Nat.lt_succ_iff_lt_or_eq.mp bound with earlier | rfl
      · exact live.2 j op' later (by rwa [List.getElem?_append_left earlier] at there)
      · have same : op = op' := by simpa using there
        exact same ▸ keeps
    · refine ⟨by simp,fun j op' later there => ?_⟩
      have bound : j < ops.length+1 := by simpa using (List.getElem?_eq_some_iff.mp there).1
      omega

omit [DecidableEq M] in
private theorem known_snoc {ops : List (RegistryOp M)} {op : RegistryOp M} {m : M} :
    Known (ops ++ [op]) m ↔ Known ops m ∨ ∃ level, op = .call (.register m level) := by
  simp [Known,exists_or,eq_comm]

/-! ### The rings after a history -/

/-- The rings hold the live registrations of each level by age, and only a module that was never registered has
    the null pointers of zeroed memory. -/
structure Tracked (ops : List (RegistryOp M)) (R : Levels M) (w : World M) : Prop where
  initialized : w.registryInitialized = true
  tidy : Tidy w.lists R
  known : ∀ m, w.lists (.module m) = ⟨none,none⟩ ↔ ¬ Known ops m
  live : ∀ m l, m ∈ R l ↔ ∃ i, Live ops m l i
  sorted : ∀ l, (R l).Pairwise (fun m m' => ∃ i i', Live ops m l i ∧ Live ops m' l i' ∧ i < i')
  once : ∀ m l l' i i', Live ops m l i → Live ops m l' i' → l = l' ∧ i = i'

omit [DecidableEq M] in
private theorem Tracked.registered_iff {ops : List (RegistryOp M)} {R : Levels M} {w : World M} (tracked : Tracked ops R w) {m : M} :
    Registered R m ↔ ∃ l i, Live ops m l i := by
  simp only [Registered,tracked.live]

private theorem tracked_nil : Tracked [] noModules (booted : World M) where
  initialized := rfl
  tidy := booted_tidy
  known := fun m => ⟨fun _ => by simp [Known],fun _ => booted_null m⟩
  live := by simp [noModules,Live]
  sorted := fun l => List.Pairwise.nil
  once := fun m l l' i i' live => by simp [Live] at live

section
variable {ops : List (RegistryOp M)} {R R' : Levels M} {w w' : World M}

omit [DecidableEq M] in
/-- A history grows by an operation that takes off the modules the new rings lack. -/
private theorem Tracked.shrink {op : RegistryOp M} (tracked : Tracked ops R w) (initialized : w'.registryInitialized = true)
    (tidy : Tidy w'.lists R') (null : ∀ m, w'.lists (.module m) = ⟨none,none⟩ ↔ w.lists (.module m) = ⟨none,none⟩)
    (adds : ∀ m level, op ≠ .call (.register m level)) (sub : ∀ l, (R' l).Sublist (R l))
    (rest : ∀ m l, m ∈ R' l ↔ m ∈ R l ∧ ¬ Removes m op) : Tracked (ops ++ [op]) R' w' := by
  have grown : ∀ {m l i}, Live (ops ++ [op]) m l i ↔ Live ops m l i ∧ ¬ Removes m op := by
    intro m l i
    rw [live_snoc]
    exact ⟨fun either => either.resolve_right fun added => adds m l added.2,.inl⟩
  refine ⟨initialized,tidy,fun m => ?_,fun m l => ?_,fun l => ?_,?_⟩
  · rw [null m,tracked.known m,known_snoc]
    exact not_congr ⟨.inl,fun either => either.resolve_right fun ⟨level,added⟩ => adds m level added⟩
  · rw [rest m l,tracked.live m l]
    simp only [grown,exists_and_right]
  · refine ((tracked.sorted l).sublist (sub l)).imp_of_mem ?_
    rintro m m' member member' ⟨i,i',live,live',older⟩
    exact ⟨i,i',grown.mpr ⟨live,((rest m l).mp member).2⟩,grown.mpr ⟨live',((rest m' l).mp member').2⟩,older⟩
  · intro m l l' i i' live live'
    exact tracked.once m l l' i i' (grown.mp live).1 (grown.mp live').1

/-- A module that is not registered joins its level as the youngest. -/
theorem Tracked.register (tracked : Tracked ops R w) {m : M} {level : Fin maxLevel} (fresh : ∀ level i, ¬ Live ops m level i)
    (registers : (RegistryCall.register m level).run w = .done () w') :
    Tracked (ops ++ [.call (.register m level)]) (add R level m) w' := by
  have absent : ¬ Registered R m := fun there => by
    obtain ⟨l,i,live⟩ := tracked.registered_iff.mp there
    exact fresh l i live
  obtain ⟨g,inserted,tidy,_⟩ := tidy_register tracked.tidy level absent
  rw [run_register tracked.initialized m level inserted] at registers
  cases registers
  have grown : ∀ {m' l i}, Live (ops ++ [.call (.register m level)]) m' l i ↔
      Live ops m' l i ∨ (i = ops.length ∧ m' = m ∧ l = level) := by
    intro m' l i
    rw [live_snoc]
    simp [Removes,eq_comm]
  refine ⟨tracked.initialized,tidy,fun m' => ?_,fun m' l => ?_,fun l => ?_,?_⟩
  · have knows : Known (ops ++ [.call (.register m level)]) m' ↔ Known ops m' ∨ m' = m := by
      rw [known_snoc]
      simp [eq_comm]
    rw [knows,not_or,← tracked.known m']
    exact null_register tracked.tidy absent inserted m'
  · rw [mem_add,tracked.live m' l]
    simp only [grown,exists_or,exists_eq_left]
    tauto
  · have older : (R l).Pairwise (fun m₁ m₂ => ∃ i i', Live (ops ++ [.call (.register m level)]) m₁ l i ∧
        Live (ops ++ [.call (.register m level)]) m₂ l i' ∧ i < i') := by
      refine (tracked.sorted l).imp ?_
      rintro m₁ m₂ ⟨i,i',live,live',before⟩
      exact ⟨i,i',grown.mpr (.inl live),grown.mpr (.inl live'),before⟩
    by_cases here : l = level
    · subst here
      simp only [add,Function.update_self]
      refine List.pairwise_append.mpr ⟨older,List.pairwise_singleton _ _,?_⟩
      intro m₁ member m₂ last
      rw [List.mem_singleton.mp last]
      obtain ⟨i,live⟩ := (tracked.live m₁ l).mp member
      exact ⟨i,ops.length,grown.mpr (.inl live),grown.mpr (.inr ⟨rfl,rfl,rfl⟩),live_lt live⟩
    · simpa [add,here] using older
  · intro m' l l' i i' live live'
    rcases grown.mp live with old | ⟨rfl,rfl,rfl⟩
    · rcases grown.mp live' with old' | ⟨rfl,rfl,rfl⟩
      · exact tracked.once m' l l' i i' old old'
      · exact absurd old (fresh l i)
    · rcases grown.mp live' with old' | ⟨rfl,_,rfl⟩
      · exact absurd old' (fresh l' i')
      · exact ⟨rfl,rfl⟩

/-- A module that was registered once leaves the rings if it is still there. -/
theorem Tracked.unregister (tracked : Tracked ops R w) {m : M} {level : Fin maxLevel} (known : Known ops m)
    (unregisters : (RegistryCall.unregister m level).run w = .done () w') :
    Tracked (ops ++ [.call (.unregister m level)]) (remove R m) w' := by
  have rest : ∀ m' l, m' ∈ remove R m l ↔ m' ∈ R l ∧ ¬ Removes m' (.call (.unregister m level)) := by
    intro m' l
    rw [mem_remove tracked.tidy.rings.nodup]
    simp [Removes,eq_comm]
  have sub : ∀ l, (remove R m l).Sublist (R l) := fun l => List.erase_sublist
  by_cases present : Registered R m
  · obtain ⟨g,deleted,tidy,_⟩ := tidy_delete tracked.tidy present
    rw [run_unregister tracked.initialized m level deleted] at unregisters
    cases unregisters
    exact tracked.shrink tracked.initialized tidy (null_delete tracked.tidy present deleted) (by simp) sub rest
  · have alone : Alone w.lists (.module m) :=
      (tracked.tidy.off m present).resolve_left fun null => (tracked.known m).mp null known
    rw [run_unregister tracked.initialized m level (armdListDelete_alone alone)] at unregisters
    cases unregisters
    have same : remove R m = R := remove_of_not_registered present
    exact tracked.shrink tracked.initialized (by rw [same]; exact tracked.tidy) (fun _ => Iff.rfl) (by simp) sub rest

/-- Stopping everything leaves no registration. -/
theorem Tracked.stopall {sys : System M} (quiet : StopQuiet sys) (tracked : Tracked ops R w)
    (stops : Program.Settles (armdModuleStopall sys) w w') : Tracked (ops ++ [.stopall]) noModules w' := by
  obtain ⟨n,ends⟩ := stops
  have ran : stopEach sys (stopOrder R) w = .done () w' := by
    rw [← stopall_eq quiet tracked.tidy tracked.initialized (Nat.le_max_right n (rounds R))]
    exact ends _ (Nat.le_max_left n (rounds R))
  have initialized := (stopEach_initialized quiet (stopOrder R) ran).trans tracked.initialized
  have null := stopEach_null quiet (stopOrder R) R w w' tracked.tidy (stopOrder_nodup tracked.tidy.rings)
    (fun m member => mem_stopOrder.mp member) ran
  exact tracked.shrink initialized (stopall_empties quiet tracked.tidy ran) null (by simp) (fun l => List.nil_sublist _)
    (by simp [noModules,Removes])

omit [DecidableEq M] in
theorem Tracked.other (tracked : Tracked ops R w) (same : registryView w' = registryView w) :
    Tracked (ops ++ [.other]) R w' := by
  have lists : w'.lists = w.lists := congrArg Prod.fst same
  have initialized : w'.registryInitialized = w.registryInitialized := congrArg Prod.snd same
  exact tracked.shrink (initialized.trans tracked.initialized) (lists ▸ tracked.tidy) (fun m => by rw [lists]) (by simp)
    (fun l => List.Sublist.refl _) (by simp [Removes])

end

/-- After every history the rings hold its live registrations. -/
theorem tracked_run {sys : System M} (quiet : StopQuiet sys) {ops : List (RegistryOp M)} {w : World M}
    (run : Run (OpStep sys) booted ops w) (fits : Along Fits ops) : ∃ R, Tracked ops R w := by
  induction run with
  | nil => exact ⟨noModules,tracked_nil⟩
  | @snoc ops op w w' _ fires ih =>
    obtain ⟨before,fit⟩ := along_snoc.mp fits
    obtain ⟨R,tracked⟩ := ih before
    cases fires with
    | @call c _ ran =>
      cases c with
      | register m level => exact ⟨_,tracked.register fit ran⟩
      | unregister m level => exact ⟨_,tracked.unregister fit ran⟩
    | stopall stops => exact ⟨_,tracked.stopall quiet stops⟩
    | other same => exact ⟨_,tracked.other same⟩

/-! ### Lookup -/

/-- The names of the modules, each with its NUL inside the field of the module object. -/
def Named (sys : System M) (names : M → List UInt8) : Prop :=
  ∀ m, HoldsString (sys.name m) (names m) ∧ (names m).length < moduleNameMaxlen

omit [DecidableEq M] in
private theorem matches_iff {sys : System M} {names : M → List UInt8} (named : Named sys names) {q : ℕ → UInt8} {text : List UInt8}
    (query : HoldsString q text) (m : M) : nameMatches sys q m = true ↔ names m = text := by
  rw [nameMatches,strncmpEq_iff moduleNameMaxlen query (named m).1 (named m).2,eq_comm]

section
variable {sys : System M} {ops : List (RegistryOp M)} {R : Levels M} {w : World M}

omit [DecidableEq M] in
/-- The order of lookup is that of the live registrations. -/
private theorem Tracked.startOrder_sorted (tracked : Tracked ops R w) : (startOrder R).Pairwise (fun m m' =>
    ∃ l i l' i', Live ops m l i ∧ Live ops m' l' i' ∧ (l < l' ∨ (l = l' ∧ i < i'))) := by
  refine List.pairwise_flatMap.mpr ⟨fun l _ => ?_,?_⟩
  · refine (tracked.sorted l).imp ?_
    rintro m m' ⟨i,i',live,live',older⟩
    exact ⟨l,i,l,i',live,live',.inr ⟨rfl,older⟩⟩
  · refine (List.pairwise_lt_finRange maxLevel).imp ?_
    intro l l' below m member m' member'
    obtain ⟨i,live⟩ := (tracked.live m l).mp member
    obtain ⟨i',live'⟩ := (tracked.live m' l').mp member'
    exact ⟨l,i,l',i',live,live',.inl below⟩

omit [DecidableEq M] in
/-- A search in that order gives the answer. -/
theorem Tracked.answer (tracked : Tracked ops R w) {names : M → List UInt8} {text : List UInt8} {p : M → Bool}
    (same : ∀ m, p m = true ↔ names m = text) : Answer (Live ops) names text ((startOrder R).find? p) := by
  have inOrder : ∀ {m l i}, Live ops m l i → m ∈ startOrder R := fun live =>
    mem_startOrder.mpr (tracked.registered_iff.mpr ⟨_,_,live⟩)
  cases found : (startOrder R).find? p with
  | none =>
    intro m l i live named
    exact List.find?_eq_none.mp found m (inOrder live) ((same m).mpr named)
  | some m =>
    obtain ⟨named,front,back,split,skipped⟩ := List.find?_eq_some_iff_append.mp found
    obtain ⟨l,i,live⟩ := tracked.registered_iff.mp (mem_startOrder.mp (by rw [split]; simp : m ∈ startOrder R))
    refine ⟨l,i,live,(same m).mp named,fun m' l' i' live' named' => ?_⟩
    have member := inOrder live'
    rw [split,List.mem_append,List.mem_cons] at member
    rcases member with early | rfl | late
    · have unnamed := skipped m' early
      simp [(same m').mpr named'] at unnamed
    · exact .inl rfl
    · have order := tracked.startOrder_sorted
      rw [split] at order
      have after := (List.pairwise_cons.mp (List.pairwise_append.mp order).2.1).1 m' late
      obtain ⟨l₁,i₁,l₂,i₂,live₁,live₂,before⟩ := after
      obtain ⟨rfl,rfl⟩ := tracked.once m l l₁ i i₁ live live₁
      obtain ⟨rfl,rfl⟩ := tracked.once m' l' l₂ i' i₂ live' live₂
      exact .inr before

theorem Tracked.finds (tracked : Tracked ops R w) (q : ℕ → UInt8) :
    Finds sys w q ((startOrder R).find? (nameMatches sys q)) :=
  ⟨rounds R,fun _ enough => find_eq sys q tracked.tidy.rings tracked.initialized enough⟩

private theorem finds_unique {q : ℕ → UInt8} {r r' : Option M} (first : Finds sys w q r) (second : Finds sys w q r') : r = r' := by
  obtain ⟨n,ends⟩ := first
  obtain ⟨n',ends'⟩ := second
  have both := (ends (max n n') (Nat.le_max_left n n')).symm.trans (ends' (max n n') (Nat.le_max_right n n'))
  exact (Outcome.done.inj both).1

omit [DecidableEq M] in
/-- A module that does not match is searched in vain wherever it joins. -/
private theorem find_add {p : M → Bool} {m : M} (other : p m = false) (level : Fin maxLevel) :
    (startOrder (add R level m)).find? p = (startOrder R).find? p := by
  have each : ∀ l, (add R level m l).find? p = (R l).find? p := by
    intro l
    by_cases here : l = level
    · subst here; simp [add,List.find?_append,other]
    · simp [add,here]
  unfold startOrder
  induction levels with
  | nil => rfl
  | cons l rest ih => simp only [List.flatMap_cons,List.find?_append,each,ih]

/-- Every call that fits the history returns. -/
theorem Tracked.returns (tracked : Tracked ops R w) {c : RegistryCall M} (fit : Fits ops (.call c)) :
    ∃ w', c.run w = .done () w' := by
  cases c with
  | register m level =>
    have absent : ¬ Registered R m := fun there => by
      obtain ⟨l,i,live⟩ := tracked.registered_iff.mp there
      exact fit l i live
    obtain ⟨g,inserted,_⟩ := tidy_register tracked.tidy level absent
    exact ⟨_,run_register tracked.initialized m level inserted⟩
  | unregister m level =>
    by_cases present : Registered R m
    · obtain ⟨g,deleted,_⟩ := tidy_delete tracked.tidy present
      exact ⟨_,run_unregister tracked.initialized m level deleted⟩
    · have alone := (tracked.tidy.off m present).resolve_left fun null => (tracked.known m).mp null fit
      exact ⟨_,run_unregister tracked.initialized m level (armdListDelete_alone alone)⟩

/-- After every history lookup returns the first live registration, by ascending level and then by age, whose name
    is the query as a whole string, and nothing when there is none. -/
theorem find_exact (quiet : StopQuiet sys) {names : M → List UInt8} (named : Named sys names)
    (run : Run (OpStep sys) booted ops w) (fits : Along Fits ops) {q : ℕ → UInt8} {text : List UInt8}
    (query : HoldsString q text) :
    (∃ r, Finds sys w q r ∧ Answer (Live ops) names text r) ∧
    (∀ r r', Finds sys w q r → Finds sys w q r' → r = r') ∧
    (∀ m more, more ≠ [] → text = names m ++ more ∨ names m = text ++ more → ¬ Finds sys w q (some m)) ∧
    (∀ m level, (∀ l i, ¬ Live ops m l i) → names m ≠ text →
      ∃ w', OpStep sys w (.call (.register m level)) w' ∧ ∀ r, Finds sys w' q r ↔ Finds sys w q r) ∧
    ∀ m level, Known ops m → ∃ w', OpStep sys w (.call (.unregister m level)) w' ∧
      ∃ r, Finds sys w' q r ∧ Answer (fun m' l i => Live ops m' l i ∧ m' ≠ m) names text r := by
  obtain ⟨R,tracked⟩ := tracked_run quiet run fits
  have same := matches_iff named query
  have answer := tracked.answer same
  refine ⟨⟨_,tracked.finds q,answer⟩,fun _ _ => finds_unique,?_,?_,?_⟩
  · intro m more nonempty either found
    rw [← finds_unique found (tracked.finds q)] at answer
    obtain ⟨_,_,_,isText,_⟩ := answer
    have lengths : (names m).length = text.length := congrArg List.length isText
    have positive : 0 < more.length := List.length_pos_iff.mpr nonempty
    rcases either with longer | shorter
    · rw [longer,List.length_append] at lengths; omega
    · rw [shorter,List.length_append] at lengths; omega
  · intro m level fresh other
    have fit : Fits ops (.call (.register m level)) := fresh
    obtain ⟨w',ran⟩ := tracked.returns fit
    have tracked' := tracked.register fresh ran
    have unmatched : nameMatches sys q m = false := by
      rw [Bool.eq_false_iff]
      exact fun matched => other ((same m).mp matched)
    have found : Finds sys w' q _ := tracked'.finds q
    rw [find_add unmatched level] at found
    refine ⟨w',.call ran,fun r => ⟨fun there => ?_,fun there => ?_⟩⟩
    · exact finds_unique there found ▸ tracked.finds q
    · exact finds_unique there (tracked.finds q) ▸ found
  · intro m level known
    have fit : Fits ops (.call (.unregister m level)) := known
    obtain ⟨w',ran⟩ := tracked.returns fit
    have tracked' := tracked.unregister known ran
    have live : Live (ops ++ [.call (.unregister m level)]) = fun m' l i => Live ops m' l i ∧ m' ≠ m := by
      funext m' l i
      rw [live_snoc]
      simp [Removes,eq_comm]
    exact ⟨w',.call ran,_,tracked'.finds q,live ▸ tracked'.answer same⟩

end

/-- The string "a". -/
def letterA : ℕ → UInt8 := fun i => if i = 0 then 97 else 0

def letterSystem : System Bool := ⟨fun _ => letterA,fun _ => none,fun _ _ => 0⟩

private theorem letterA_holds : HoldsString letterA [97] where
  bytes := fun i inside => by
    have first : i = 0 := by simpa using inside
    subst first; rfl
  nonzero := by decide
  terminated := rfl

/-- A module at core level, and after it another one at system level. -/
def twoLevels : List (RegistryOp Bool) := [.call (.register true coreLevel),.call (.register false systemLevel)]

private theorem twoLevels_live (m : Bool) (level : Fin maxLevel) (i : ℕ) : Live twoLevels m level i ↔
    (m = true ∧ level = coreLevel ∧ i = 0) ∨ (m = false ∧ level = systemLevel ∧ i = 1) := by
  rw [twoLevels,show ([.call (.register true coreLevel),.call (.register false systemLevel)] : List (RegistryOp Bool)) =
    ([] ++ [.call (.register true coreLevel)]) ++ [.call (.register false systemLevel)] from rfl,live_snoc,live_snoc]
  simp [Live,Removes]
  tauto

private theorem twoLevels_fits : Fits [] (.call (.register true coreLevel) : RegistryOp Bool) ∧
    Fits [.call (.register true coreLevel)] (.call (.register false systemLevel) : RegistryOp Bool) := by
  refine ⟨fun l i live => by simp [Live] at live,fun l i live => ?_⟩
  rcases (live_snoc : Live ([] ++ [.call (.register true coreLevel)]) false l i ↔ _).mp live with ⟨earlier,_⟩ | ⟨_,same⟩
  · simp [Live] at earlier
  · cases same

/-- Of two modules of one name the one at the lower level is found, which came later, and the other one after it was
    unregistered. -/
theorem find_letter : ∃ w, Run (OpStep letterSystem) booted twoLevels w ∧ Finds letterSystem w letterA (some false) ∧
    ∃ w', OpStep letterSystem w (.call (.unregister false systemLevel)) w' ∧ Finds letterSystem w' letterA (some true) := by
  have quiet : StopQuiet letterSystem := by intro m mops f none; cases none
  have named : Named letterSystem (fun _ => [97]) := fun _ => ⟨letterA_holds,show 1 < moduleNameMaxlen by decide⟩
  have fits₁ := along_snoc.mpr ⟨along_nil Fits,twoLevels_fits.1⟩
  have fits : Along Fits twoLevels := along_snoc.mpr ⟨fits₁,twoLevels_fits.2⟩
  obtain ⟨w₁,ran₁⟩ := tracked_nil.returns twoLevels_fits.1
  have run₁ : Run (OpStep letterSystem) booted [.call (.register true coreLevel)] w₁ := Run.single (.call ran₁)
  obtain ⟨R,tracked⟩ := tracked_run quiet run₁ fits₁
  obtain ⟨w,ran⟩ := tracked.returns twoLevels_fits.2
  have run : Run (OpStep letterSystem) booted twoLevels w := run₁.snoc (.call ran)
  have younger : Live twoLevels false systemLevel 1 := (twoLevels_live _ _ _).mpr (.inr ⟨rfl,rfl,rfl⟩)
  have older : Live twoLevels true coreLevel 0 := (twoLevels_live _ _ _).mpr (.inl ⟨rfl,rfl,rfl⟩)
  obtain ⟨⟨r,found,answer⟩,_,_,_,uncovers⟩ := find_exact quiet named run fits letterA_holds
  have lower : r = some false := by
    cases r with
    | none => exact absurd rfl (answer false systemLevel 1 younger)
    | some m =>
      obtain ⟨level,i,live,_,before⟩ := answer
      rcases (twoLevels_live m level i).mp live with ⟨rfl,rfl,rfl⟩ | ⟨rfl,_,_⟩
      -- the one at core level has the other before it
      · rcases before false systemLevel 1 younger rfl with same | below | ⟨same,_⟩
        · cases same
        · exact absurd below (by decide)
        · exact absurd same (by decide)
      · rfl
  obtain ⟨w',removed,r',found',answer'⟩ := uncovers false systemLevel ⟨systemLevel,by simp [twoLevels]⟩
  have uncovered : r' = some true := by
    cases r' with
    | none => exact absurd rfl (answer' true coreLevel 0 ⟨older,by decide⟩)
    | some m =>
      obtain ⟨_,_,⟨_,other⟩,_⟩ := answer'
      cases m with
      | false => exact absurd rfl other
      | true => rfl
  exact ⟨w,run,lower ▸ found,w',removed,uncovered ▸ found'⟩

end Armd.Lookup
