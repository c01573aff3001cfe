import Armd.Module

/-!
`core/module_registry.c`: registration on the rings of the four levels, lookup
by name, and starting and stopping everything that is registered.
-/
namespace Armd.Registry
open Armd.Programs Armd.LinkedRings Armd.Datastructure Armd.Queue Armd.Memory Armd.Module

def moduleNameMaxlen : ℕ := 32

variable {M : Type} [DecidableEq M]

def systemLevel : Fin maxLevel := ⟨0,by decide⟩
def coreLevel : Fin maxLevel := ⟨1,by decide⟩
def appLevel : Fin maxLevel := ⟨2,by decide⟩
def postLevel : Fin maxLevel := ⟨3,by decide⟩

/-- `for (level = SYSTEM_LEVEL; level < MAX_LEVEL; level++)`. -/
def levels : List (Fin maxLevel) := List.finRange maxLevel

/-- A sequence of pointer writes, cut short by a null pointer. -/
def onLists (f : Heap (Node M) → Option (Heap (Node M))) : Program (World M) Unit := fun w =>
  match f w.lists with
  | none => .abort w
  | some lists => .done () { w with lists := lists }

omit [DecidableEq M] in
theorem onLists_eq_done {f : Heap (Node M) → Option (Heap (Node M))} {w w' : World M} {u : Unit} :
    onLists f w = .done u w' ↔ ∃ lists, f w.lists = some lists ∧ w' = { w with lists := lists } := by
  unfold onLists
  cases f w.lists <;> simp [eq_comm]

def registryInit : Program (World M) Unit := do
  let w ← Program.get
  if w.registryInitialized then pure ()
  else .change fun w =>
    { w with
      lists := levels.foldl (fun lists level => armdListInit lists (.sentinel level)) w.lists
      registryInitialized := true }

def armdModuleRegister (mod : Option M) (level : ℕ) : Program (World M) Unit := do
  let w ← Program.get
  match mod with
  | none => pure ()
  | some m =>
    if inside : level < maxLevel then
      if w.registryInitialized then do
        onLists (fun lists => armdListInsert (armdListInit lists (.module m)) (.sentinel ⟨level,inside⟩) (.module m))
        record (.registered m level)
      else pure ()
    else pure ()

def armdModuleUnregister (mod : Option M) (level : ℕ) : Program (World M) Unit := do
  let w ← Program.get
  match mod with
  | none => pure ()
  | some m =>
    if level ≥ maxLevel ∨ !w.registryInitialized then pure ()
    else do
      onLists (fun lists => armdListDelete lists (.module m))
      record (.unregistered m level)

/-- The module around a list node; around anything else there is no module. -/
def memberContainer : Option (Node M) → Program (World M) M
  | some (.module m) => pure m
  | _ => .abort

/-- `strncmp(s, t, n) == 0`. -/
def strncmpEq (s t : ℕ → UInt8) : ℕ → Bool
  | 0 => true
  | n+1 => s 0 = t 0 && (s 0 = 0 || strncmpEq (fun i => s (i+1)) (fun i => t (i+1)) n)

/-- One round of the loop of `armd_module_find` over a ring. -/
def findRound (sys : System M) (name : ℕ → UInt8) (sentinel : Node M) (node : Option (Node M)) :
    Program (World M) (Option (Node M) ⊕ Option M) :=
  if node = some sentinel then pure (.inr none)
  else do
    let m ← memberContainer node
    if strncmpEq name (sys.name m) moduleNameMaxlen then pure (.inr (some m))
    else do
      let w ← Program.get
      pure (.inl (w.lists (.module m)).next)

def findLevels (sys : System M) (fuel : ℕ) (name : ℕ → UInt8) : List (Fin maxLevel) → Program (World M) (Option M)
  | [] => pure none
  | level :: rest => do
    let w ← Program.get
    match ← Program.loop (findRound sys name (.sentinel level)) fuel (w.lists (.sentinel level)).next with
    | some m => pure (some m)
    | none => findLevels sys fuel name rest

def armdModuleFind (sys : System M) (fuel : ℕ) (name : Option (ℕ → UInt8)) : Program (World M) (Option M) := do
  let w ← Program.get
  match name with
  | none => pure none
  | some name => if w.registryInitialized then findLevels sys fuel name levels else pure none

/-- One round of the loop of `armd_module_startall` over a ring; a failed start ends it with its code. -/
def startallRound (sys : System M) (loop : LoopRef) (sentinel : Node M) (node : Option (Node M)) :
    Program (World M) (Option (Node M) ⊕ Option ℤ) :=
  if node = some sentinel then pure (.inr none)
  else do
    let m ← memberContainer node
    let ret ← armdModuleStart sys (some m) loop
    if ret < 0 then pure (.inr (some ret))
    else do
      -- read after the module's callback has run
      let w ← Program.get
      pure (.inl (w.lists (.module m)).next)

def startallLevels (sys : System M) (fuel : ℕ) (loop : LoopRef) : List (Fin maxLevel) → Program (World M) ℤ
  | [] => pure 0
  | level :: rest => do
    let w ← Program.get
    match ← Program.loop (startallRound sys loop (.sentinel level)) fuel (w.lists (.sentinel level)).next with
    | some ret => pure ret
    | none => startallLevels sys fuel loop rest

def armdModuleStartall (sys : System M) (fuel : ℕ) (loop : LoopRef) : Program (World M) ℤ := do
  let w ← Program.get
  if loop = .null ∨ !w.registryInitialized then pure (-einval)
  else startallLevels sys fuel loop levels

/-- One round of the loop of `armd_module_stopall` over a ring. -/
def stopallRound (sys : System M) (sentinel : Node M) : Program (World M) (Unit ⊕ Unit) := do
  let w ← Program.get
  if armdListEmpty w.lists sentinel then pure (.inr ())
  else do
    let m ← memberContainer (w.lists sentinel).next
    armdModuleStop sys (some m)
    onLists (fun lists => armdListDelete lists (.module m))
    pure (.inl ())

def stopallLevels (sys : System M) (fuel : ℕ) : List (Fin maxLevel) → Program (World M) Unit
  | [] => pure ()
  | level :: rest => do
    Program.loop (fun _ => stopallRound sys (.sentinel level)) fuel ()
    stopallLevels sys fuel rest

def armdModuleStopall (sys : System M) (fuel : ℕ) : Program (World M) Unit := do
  let w ← Program.get
  if w.registryInitialized then stopallLevels sys fuel levels.reverse else pure ()

end Armd.Registry
