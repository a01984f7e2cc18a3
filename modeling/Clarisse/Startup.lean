import Clarisse.Address
import Clarisse.EvPath

/-!
# Starting the ranks

`monitoring_initialize` as a whole: the addresses go down the tree, and between
the two barriers each rank sets the actions of its stones. `MPI_Comm_split` then
gives the leaves their communicator, and each leaf starts its thread.
-/

namespace Clarisse.Startup

open EvPath CString

inductive Handler where
  | computeOwnMetrics
  | finalResult
  deriving DecidableEq, Repr

/-- `node_state_t`, without the addresses. -/
structure NodeState where
  multiStone : Stone
  bridgeStone : Stone
  splitStone : Stone
  terminalStone : Stone
  agregTerminalStone : Stone
  connMgr : Manager Handler

/-- What a rank gets from EVPath: the stones in the order it allocates them, and the
contact list of its manager. -/
structure Registry (T : Topology) where
  stone : Nat → Nat → Stone
  contact : Nat → Contact
  stone_inj : ∀ r i j, i < 5 → j < 5 → stone r i = stone r j → i = j
  contact_inj : ∀ r q, r < T.nprocs → q < T.nprocs → (contact r).text = (contact q).text → r = q
  fits : ∀ r, r < T.nprocs → (addrText (stone r 1).toInt (contact r).text).length + 1 ≤ addressSize

/-- Where a rank is, from the first barrier on. -/
inductive Phase where
  | booting
  | setting
  | waiting
  | splitting
  | started
  deriving DecidableEq, Repr

def Phase.index : Phase → Nat
  | booting => 0
  | setting => 1
  | waiting => 2
  | splitting => 3
  | started => 4

structure State where
  boot : Boot
  phase : Nat → Phase
  node : Nat → NodeState
  commLeafs : Nat → List Nat
  exited : Bool

inductive Act where
  | boot (a : BootStep)
  | firstBarrier (rank : Nat)
  | setStones (rank : Nat)
  | secondBarrier (rank : Nat)
  | commSplit (rank : Nat)
  deriving DecidableEq, Repr

section
variable {T : Topology} (R : Registry T)

def Registry.splitStone (rank : Nat) : Int := (R.stone rank 1).toInt

def Registry.text (rank : Nat) : String := (R.contact rank).text

def Registry.alloc (rank : Nat) (m : Manager Handler) : Stone × Manager Handler :=
  let stone := R.stone rank m.allocated.length
  (stone, m.alloc stone)

def allocStones (rank : Nat) (st : NodeState) : NodeState :=
  let (multi, m) := R.alloc rank {}
  let (split, m) := R.alloc rank m
  let (terminal, m) := R.alloc rank m
  let (bridge, m) := R.alloc rank m
  let st := { st with multiStone := multi, splitStone := split, terminalStone := terminal, bridgeStone := bridge }
  if rank = 0 then
    let (agregTerminal, m) := R.alloc rank m
    { st with agregTerminalStone := agregTerminal, connMgr := m }
  else { st with connMgr := m }

/-- A leaf creates its manager when the stones are set. -/
def startLeaf (rank : Nat) (st : NodeState) : NodeState :=
  let (bridge, m) := R.alloc rank {}
  { st with bridgeStone := bridge, connMgr := m }

/-- The branch `rank != ROOT` of `set_stones_actions`; without an address that scans the
process exits. -/
def connectParent (rank : Nat) (parentAddr : Option String) (stringList : Address) (st : NodeState) :
    Option NodeState :=
  let st := if T.isLeaf rank then startLeaf R rank st else st
  match parentAddr.bind fun text => scanAddr text.toList 0 stringList with
  | some (2, remoteStone, stringList) =>
    stringList.text.map fun contact =>
      let m := st.connMgr.assoc st.bridgeStone (.bridge (String.ofList contact) remoteStone)
      { st with connMgr := if T.isLeaf rank then m else m.setOutput st.multiStone st.bridgeStone }
  | _ => none

def connectRoot (st : NodeState) : NodeState :=
  let m := st.connMgr.assoc st.agregTerminalStone (.terminal .finalResult)
  { st with connMgr := m.setOutput st.multiStone st.agregTerminalStone }

def createMultistone (st : NodeState) : NodeState :=
  let m := st.connMgr.assoc st.terminalStone (.terminal .computeOwnMetrics)
  let m := m.assoc st.splitStone (.split [])
  let m := m.addSplitTarget st.splitStone st.terminalStone
  let m := m.addSplitTarget st.splitStone st.multiStone
  { st with connMgr := m.assoc st.multiStone .multi }

def setStonesActions (rank : Nat) (parentAddr : Option String) (stringList : Address) (st : NodeState) :
    Option NodeState :=
  let connected := if rank ≠ 0 then connectParent R rank parentAddr stringList st else some (connectRoot st)
  connected.map fun st => if T.isLeaf rank then st else createMultistone st

/-- The stones that `destroy_metrics_aggregator` destroys, in its order. -/
def destroyStones (T : Topology) (rank : Nat) (st : NodeState) : List Stone :=
  let inner :=
    if T.isLeaf rank then []
    else [st.multiStone, st.splitStone, st.terminalStone] ++ if rank = 0 then [st.agregTerminalStone] else []
  inner ++ [st.bridgeStone]

/-- What `malloc` and the stack hold at first. -/
structure Memory where
  node : Nat → NodeState
  stringList : Nat → Address

variable (mem : Memory)

def init (T : Topology) : State where
  boot := bootInit T
  phase _ := .booting
  node := mem.node
  commLeafs _ := []
  exited := false

def State.setPhase (s : State) (rank : Nat) (p : Phase) : State :=
  { s with phase := Function.update s.phase rank p }

def State.setNode (s : State) (rank : Nat) (st : NodeState) : State :=
  { s with node := Function.update s.node rank st }

def State.Reached (T : Topology) (s : State) (p : Phase) : Prop := ∀ q, q < T.nprocs → p.index ≤ (s.phase q).index

def State.Booted (T : Topology) (s : State) : Prop := ∀ q, q < T.nprocs → s.boot.pc q = .barrier

instance (s : State) (p : Phase) : Decidable (s.Reached T p) :=
  inferInstanceAs (Decidable (∀ q, q < T.nprocs → _))

instance (s : State) : Decidable (s.Booted T) := inferInstanceAs (Decidable (∀ q, q < T.nprocs → _))

def State.afterBoot (s : State) (a : BootStep) (boot : Boot) : State :=
  { s with
    boot := boot
    node :=
      match a with
      | .compute rank => Function.update s.node rank (allocStones R rank (s.node rank))
      | _ => s.node }

/-- A barrier is left when all ranks have entered it, and so is the call of
`MPI_Comm_split`, which gives a rank the ranks of its colour. -/
def step (s : State) (a : Act) : Option State :=
  if s.exited then none
  else
    match a with
    | .boot a => (bootStep T R.splitStone R.text s.boot a).map (s.afterBoot R a)
    | .firstBarrier rank =>
      if rank < T.nprocs ∧ s.phase rank = .booting ∧ s.Booted T then some (s.setPhase rank .setting) else none
    | .setStones rank =>
      if rank < T.nprocs ∧ s.phase rank = .setting then
        match setStonesActions R rank (s.boot.parentAddr rank) (mem.stringList rank) (s.node rank) with
        | some st => some ((s.setNode rank st).setPhase rank .waiting)
        | none => some { s with exited := true }
      else none
    | .secondBarrier rank =>
      if rank < T.nprocs ∧ s.phase rank = .waiting ∧ s.Reached T .waiting then
        some (s.setPhase rank .splitting)
      else none
    | .commSplit rank =>
      if rank < T.nprocs ∧ s.phase rank = .splitting ∧ s.Reached T .splitting then
        let group := (List.range T.nprocs).filter fun q => T.isLeaf q = T.isLeaf rank
        some { s.setPhase rank .started with commLeafs := Function.update s.commLeafs rank group }
      else none

def Registry.resolve (contact : String) : Option Nat := (List.range T.nprocs).find? fun r => R.text r = contact

def State.manager (s : State) (rank : Nat) : Manager Handler := (s.node rank).connMgr

def State.deliver (s : State) (fuel rank : Nat) (stone : Stone) : List (Sink Nat Handler) :=
  EvPath.deliver R.resolve s.manager fuel rank stone

/-- The stone to which a rank sends the events for its parent: the bridge of the leaf
thread, or the first output of the queue. -/
def State.upward (T : Topology) (s : State) (rank : Nat) : Option Stone :=
  if T.isLeaf rank then some (s.node rank).bridgeStone
  else (s.manager rank).output (s.node rank).multiStone

end

end Clarisse.Startup
