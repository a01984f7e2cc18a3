import Mathlib.Logic.Function.Basic

/-!
# Graphs of stones

What a program does with EVPath when it sets up its graph: it allocates stones
from a manager, gives them actions, and directs the first output of a queue to
another stone. An event that is submitted to a stone goes along the actions, as
`src/include/evpath.h` describes them: a terminal action calls its handler
(`EVassoc_terminal_action`), a split action passes the event on to each of its targets
(`EVassoc_split_action`), a bridge action delivers it to the remote stone of the process
that its contact list names (`EVassoc_bridge_action`).
-/

namespace EvPath

abbrev Stone := BitVec 32

inductive Action (H : Type) where
  | terminal (handler : H)
  | split (targets : List Stone)
  | multi
  | bridge (contact : String) (remoteStone : Stone)
  deriving DecidableEq, Repr

/-- The stones of one `CManager`; `output` is the first output of a stone. -/
structure Manager (H : Type) where
  allocated : List Stone := []
  action : Stone → Option (Action H) := fun _ => none
  output : Stone → Option Stone := fun _ => none

namespace Manager

section
variable {H : Type} (m : Manager H)

def alloc (stone : Stone) : Manager H := { m with allocated := m.allocated ++ [stone] }

def assoc (stone : Stone) (action : Action H) : Manager H :=
  { m with action := Function.update m.action stone (some action) }

def addSplitTarget (stone target : Stone) : Manager H :=
  match m.action stone with
  | some (.split targets) => m.assoc stone (.split (targets ++ [target]))
  | _ => m

def setOutput (stone target : Stone) : Manager H :=
  { m with output := Function.update m.output stone (some target) }

variable {m} {s t : Stone} {a : Action H}

@[simp] theorem alloc_allocated : (m.alloc s).allocated = m.allocated ++ [s] := rfl

@[simp] theorem assoc_allocated : (m.assoc s a).allocated = m.allocated := rfl

@[simp] theorem assoc_output : (m.assoc s a).output = m.output := rfl

@[simp] theorem setOutput_allocated : (m.setOutput s t).allocated = m.allocated := rfl

@[simp] theorem setOutput_action : (m.setOutput s t).action = m.action := rfl

@[simp] theorem setOutput_self : (m.setOutput s t).output s = some t := by simp [setOutput]

@[simp] theorem assoc_self : (m.assoc s a).action s = some a := by simp [assoc]

theorem assoc_of_ne (h : t ≠ s) : (m.assoc s a).action t = m.action t := by simp [assoc, h]

@[simp] theorem assoc_assoc {b : Action H} : (m.assoc s a).assoc s b = m.assoc s b := by simp [assoc]

@[simp] theorem addSplitTarget_assoc {targets : List Stone} :
    (m.assoc s (.split targets)).addSplitTarget s t = m.assoc s (.split (targets ++ [t])) := by
  simp [addSplitTarget]

end

end Manager

/-! ## Where an event goes -/

/-- What takes an event: a handler, or the queue of a stone. -/
inductive Sink (A H : Type) where
  | handler (site : A) (handler : H)
  | queue (site : A) (stone : Stone)
  deriving DecidableEq, Repr

section
variable {A H : Type} (resolve : String → Option A) (manager : A → Manager H)

/-- What takes the event that is submitted to a stone, in the order the actions name
them; `fuel` bounds the number of stones it passes. -/
def deliver : Nat → A → Stone → List (Sink A H)
  | 0, _, _ => []
  | fuel + 1, site, stone =>
    match (manager site).action stone with
    | some (.terminal handler) => [.handler site handler]
    | some .multi => [.queue site stone]
    | some (.split targets) => targets.flatMap (deliver fuel site)
    | some (.bridge contact remoteStone) =>
      match resolve contact with
      | some remote => deliver fuel remote remoteStone
      | none => []
    | none => []

variable {resolve manager} {fuel : Nat} {site remote : A} {stone remoteStone : Stone}

theorem deliver_terminal {h : H} (ha : (manager site).action stone = some (.terminal h)) :
    deliver resolve manager (fuel + 1) site stone = [.handler site h] := by
  rw [deliver, ha]

theorem deliver_multi (ha : (manager site).action stone = some .multi) :
    deliver resolve manager (fuel + 1) site stone = [.queue site stone] := by
  rw [deliver, ha]

theorem deliver_split {targets : List Stone} (ha : (manager site).action stone = some (.split targets)) :
    deliver resolve manager (fuel + 1) site stone = targets.flatMap (deliver resolve manager fuel site) := by
  rw [deliver, ha]

theorem deliver_bridge {contact : String} (ha : (manager site).action stone = some (.bridge contact remoteStone))
    (hr : resolve contact = some remote) :
    deliver resolve manager (fuel + 1) site stone = deliver resolve manager fuel remote remoteStone := by
  simp only [deliver, ha, hr]

end

end EvPath
