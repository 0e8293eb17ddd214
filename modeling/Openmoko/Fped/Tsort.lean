import Mathlib.Data.Int.Notation
import Mathlib.Data.Nat.Notation

/-!
# Topological sort (`tsort.c`)

Kahn's algorithm with priorities: of the nodes without inbound edges, the one of the highest
priority is output first. `add_node` returns the existing node of a user, so a node is known by its
user.
-/

namespace Openmoko.Fped

variable {V : Type} [DecidableEq V]

def addInt (a b : ℤ) : ℤ := (a + b).bmod 4294967296

structure Edge (V : Type) where
  dest : V
  priority : ℤ
  deriving DecidableEq, Repr

structure Node (V : Type) where
  user : V
  -- outbound edges
  edges : List (Edge V)
  -- number of incoming edges
  incoming : ℕ
  -- cumulative node priority
  priority : ℤ
  -- all node priorities decay after issuing this
  decay : Bool
  deriving DecidableEq, Repr

structure Tsort (V : Type) where
  nodes : List (Node V)
  nNodes : ℕ

def beginTsort : Tsort V := { nodes := [], nNodes := 0 }

def addNode (tsort : Tsort V) (user : V) (decay : Bool) : Tsort V :=
  if user ∈ tsort.nodes.map Node.user then tsort
  else
    { nodes := tsort.nodes ++
        [{ user := user, edges := [], incoming := 0, priority := 0, decay := decay }]
      nNodes := tsort.nNodes + 1 }

def updateNode (nodes : List (Node V)) (user : V) (f : Node V → Node V) : List (Node V) :=
  nodes.map fun node => if node.user = user then f node else node

def raiseEdge (edges : List (Edge V)) (dest : V) (priority : ℤ) : List (Edge V) :=
  edges.map fun edge =>
    if edge.dest = dest then { edge with priority := addInt edge.priority priority } else edge

def addEdge (tsort : Tsort V) (origin dest : V) (priority : ℤ) : Tsort V :=
  match tsort.nodes.find? fun node => node.user = origin with
  | none => tsort
  | some node =>
    if dest ∈ node.edges.map Edge.dest then
      { tsort with
        nodes := updateNode tsort.nodes origin fun node =>
          { node with edges := raiseEdge node.edges dest priority } }
    else
      { tsort with
        nodes := updateNode
          (updateNode tsort.nodes origin fun node =>
            { node with edges := node.edges ++ [{ dest := dest, priority := priority }] })
          dest fun node => { node with incoming := node.incoming + 1 } }

def better (first : Option (Node V)) (walk : Node V) : Option (Node V) :=
  if walk.incoming ≠ 0 then first
  else
    match first with
    | none => some walk
    | some node => if node.priority < walk.priority then some walk else some node

def selectFirst (nodes : List (Node V)) : Option (Node V) := nodes.foldl better none

def release (edges : List (Edge V)) (nodes : List (Node V)) : List (Node V) :=
  edges.foldl
    (fun nodes edge => updateNode nodes edge.dest fun node =>
      { node with
        incoming := node.incoming - 1
        priority := addInt node.priority edge.priority })
    nodes

def issue (first : Node V) (nodes : List (Node V)) : List (Node V) :=
  let nodes :=
    if first.decay then nodes.map fun node => { node with priority := 0 } else nodes
  release first.edges (nodes.filter fun node => node.user ≠ first.user)

def sortLoop : ℕ → List (Node V) → List V × List (Node V)
  | 0, nodes => ([], nodes)
  | room + 1, nodes =>
    match selectFirst nodes with
    | none => ([], nodes)
    | some first =>
      let (res, left) := sortLoop room (issue first nodes)
      (first.user :: res, left)

/-- `end_tsort`, with room for all nodes in `res`; `none` when it aborts. -/
def endTsort (tsort : Tsort V) : Option (List V) :=
  let (res, left) := sortLoop tsort.nNodes tsort.nodes
  if left = [] then some res else none

/-- What is called between `begin_tsort` and `end_tsort`. -/
inductive Call (V : Type) where
  | addNode (user : V) (decay : Bool)
  | addEdge (origin dest : V) (priority : ℤ)
  deriving DecidableEq, Repr

def Call.run (tsort : Tsort V) : Call V → Tsort V
  | .addNode user decay => Fped.addNode tsort user decay
  | .addEdge origin dest priority => Fped.addEdge tsort origin dest priority

def buildTsort (calls : List (Call V)) : Tsort V := calls.foldl Call.run beginTsort

end Openmoko.Fped
