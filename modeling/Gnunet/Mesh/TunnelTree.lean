import Mathlib.Data.Nat.Notation
import Mathlib.Logic.Function.Basic

/-!
# The tree of a mesh tunnel

`mesh_tunnel_tree.c` keeps the peers of a tunnel in a tree of allocated nodes. A node has a pointer
to its parent and the list of its children; subtrees that lost their connection are kept in a list
of their own. The tree has a pointer to the node of the local peer, whose short number is one, and a
cache with the first hop from the local peer to each peer.

Nodes are at addresses that are never used again. Reading a freed node and a failed assertion have
no result. The recursions and loops of the source are bounded by the number of allocated nodes.
-/

namespace Gnunet.Mesh

inductive MeshPeerState
  | invalid
  | root
  | relay
  | searching
  | waiting
  | ready
  | reconnecting
  deriving DecidableEq

structure MeshTunnelTreeNode where
  peer : ℕ
  parent : Option ℕ
  children : List ℕ
  status : MeshPeerState

/-- With the nodes in memory and the peers that were reported as disconnected. -/
structure MeshTunnelTree where
  nodes : ℕ → Option MeshTunnelTreeNode
  fresh : ℕ
  root : Option ℕ
  me : Option ℕ
  disconnected : List ℕ
  firstHops : ℕ → Option ℕ
  reported : List ℕ

namespace MeshTunnelTree

def setNode (t : MeshTunnelTree) (a : ℕ) (node : MeshTunnelTreeNode) : MeshTunnelTree :=
  { t with nodes := Function.update t.nodes a (some node) }

def free (t : MeshTunnelTree) (a : ℕ) : MeshTunnelTree :=
  { t with nodes := Function.update t.nodes a none }

def insertChild (t : MeshTunnelTree) (parent node : ℕ) : Option MeshTunnelTree := do
  let up ← t.nodes parent
  some (t.setNode parent { up with children := node :: up.children })

/-- The children have to contain the element. -/
def removeChild (t : MeshTunnelTree) (parent node : ℕ) : Option MeshTunnelTree := do
  let up ← t.nodes parent
  if node ∈ up.children then
    some (t.setNode parent { up with children := up.children.erase node })
  else none

def setParent (t : MeshTunnelTree) (n : ℕ) (parent : Option ℕ) : Option MeshTunnelTree := do
  let node ← t.nodes n
  some (t.setNode n { node with parent })

def setStatus (t : MeshTunnelTree) (n : ℕ) (status : MeshPeerState) : Option MeshTunnelTree := do
  let node ← t.nodes n
  some (t.setNode n { node with status })

def findIn (t : MeshTunnelTree) (peer : ℕ) : List ℕ → Option (Option ℕ)
  | [] => some none
  | n :: rest => do
    let node ← t.nodes n
    if node.peer = peer then some (some n) else t.findIn peer rest

end MeshTunnelTree

open MeshTunnelTree Function

def treeNodeNew (t : MeshTunnelTree) (parent : Option ℕ) (peer : ℕ) :
    Option (ℕ × MeshTunnelTree) := do
  let node := { peer, parent, children := [], status := .invalid }
  let allocated := { t.setNode t.fresh node with fresh := t.fresh + 1 }
  match parent with
  | none => some (t.fresh, allocated)
  | some parent => do
    let t' ← allocated.insertChild parent t.fresh
    some (t.fresh, t')

def firstFound (search : ℕ → Option (Option ℕ)) : List ℕ → Option (Option ℕ)
  | [] => some none
  | n :: rest => do
    match ← search n with
    | some r => some (some r)
    | none => firstFound search rest

def treeNodeFindPeer (t : MeshTunnelTree) (peerId : ℕ) : ℕ → ℕ → Option (Option ℕ)
  | 0, _ => none
  | fuel + 1, parent => do
    let node ← t.nodes parent
    if node.peer = peerId then some (some parent)
    else firstFound (treeNodeFindPeer t peerId fuel) node.children

def treeFindPeer (t : MeshTunnelTree) (peerId : ℕ) : Option (Option ℕ) := do
  let root ← t.root
  treeNodeFindPeer t peerId t.fresh root

/-- The way up to the local peer; the result is the last node before it. -/
def climb (t : MeshTunnelTree) : ℕ → ℕ → ℕ → Option ℕ
  | 0, _, _ => none
  | fuel + 1, aux, old =>
    if t.me = some aux then some old
    else do
      let node ← t.nodes aux
      -- `GNUNET_assert (NULL != aux)`
      let parent ← node.parent
      climb t fuel parent aux

def findHop (t : MeshTunnelTree) (parent : ℕ) : Option ℕ → Option ℕ
  | some hop => some hop
  | none => do
    let old ← climb t t.fresh parent parent
    let node ← t.nodes old
    some node.peer

def treeNodeUpdateFirstHops : ℕ → ℕ → Option ℕ → MeshTunnelTree → Option MeshTunnelTree
  | 0, _, _, _ => none
  | fuel + 1, parent, hop, t => do
    let hop ← findHop t parent hop
    let node ← t.nodes parent
    let t' := { t with firstHops := update t.firstHops node.peer (some hop) }
    node.children.foldlM (fun t n ↦ treeNodeUpdateFirstHops fuel n (some hop) t) t'

def treeNodeDestroy : ℕ → ℕ → MeshTunnelTree → Option MeshTunnelTree
  | 0, _, _ => none
  | fuel + 1, parent, t => do
    let node ← t.nodes parent
    let t ← node.children.foldlM (fun t n ↦ treeNodeDestroy fuel n t) t
    match node.parent with
    | none => some (t.free parent)
    | some up => do
      let t ← t.removeChild up parent
      some (t.free parent)

def treeNew (peer : ℕ) : MeshTunnelTree where
  nodes := update (fun _ ↦ none) 0
    (some { peer, parent := none, children := [], status := .root })
  fresh := 1
  root := some 0
  me := if peer = 1 then some 0 else none
  disconnected := []
  firstHops _ := none
  reported := []

def treeSetStatus (t : MeshTunnelTree) (peer : ℕ) (status : MeshPeerState) :
    Option MeshTunnelTree := do
  match ← treeFindPeer t peer with
  | none => some t
  | some n => t.setStatus n status

def treeGetStatus (t : MeshTunnelTree) (peer : ℕ) : Option MeshPeerState := do
  match ← treeFindPeer t peer with
  | none => some .invalid
  | some n => do
    let node ← t.nodes n
    some node.status

def treeGetFirstHop (t : MeshTunnelTree) (peer : ℕ) : Option (Option ℕ × MeshTunnelTree) :=
  match t.firstHops peer with
  | some hop => some (some hop, t)
  | none => do
    match t.me, ← treeFindPeer t peer with
    | some _, some n => do
      let t ← treeNodeUpdateFirstHops t.fresh n none t
      -- `GNUNET_assert (NULL != r)`
      let hop ← t.firstHops peer
      some (some hop, t)
    | _, _ => some (none, t)

def markPeer (t : MeshTunnelTree) (parent : ℕ) : Option MeshTunnelTree := do
  let node ← t.nodes parent
  let t :=
    if node.status = .ready then
      { t.setNode parent { node with status := .reconnecting } with
        reported := t.reported ++ [node.peer] }
    else t
  some { t with firstHops := update t.firstHops node.peer none }

def treeMarkPeersDisconnected : ℕ → ℕ → MeshTunnelTree → Option MeshTunnelTree
  | 0, _, _ => none
  | fuel + 1, parent, t => do
    let node ← t.nodes parent
    let t ← node.children.foldlM (fun t n ↦ treeMarkPeersDisconnected fuel n t) t
    markPeer t parent

def treeUpdateFirstHops (t : MeshTunnelTree) (parentId : ℕ) (hop : Option ℕ) :
    Option MeshTunnelTree := do
  let found ← treeFindPeer t parentId
  let n ← found
  treeNodeUpdateFirstHops t.fresh n hop t

def destroyRelays : ℕ → ℕ → MeshTunnelTree → Option MeshTunnelTree
  | 0, _, _ => none
  | fuel + 1, parent, t => do
    let node ← t.nodes parent
    if node.status = .relay ∧ node.children = [] then do
      let t ← treeNodeDestroy t.fresh parent t
      let n ← node.parent
      destroyRelays fuel n t
    else some t

def treeDelPath (t : MeshTunnelTree) (peerId : ℕ) : Option (Option ℕ × MeshTunnelTree) := do
  let root ← t.root
  let rootNode ← t.nodes root
  if peerId = rootNode.peer then some (none, t)
  else
    match ← t.findIn peerId t.disconnected with
    | some n => some (some n, { t with disconnected := t.disconnected.erase n })
    | none =>
      match ← treeFindPeer t peerId with
      | none => some (none, t)
      | some n => do
        let node ← t.nodes n
        let parent ← node.parent
        let t ← t.removeChild parent n
        let t ← t.setParent n none
        let t ← destroyRelays t.fresh parent t
        let t ← treeMarkPeersDisconnected t.fresh n t
        some (some n, t)

/-- What is left of the path, the position in it, the last node, and the position of the local peer.
-/
def followPath (t : MeshTunnelTree) :
    List ℕ → ℕ → ℕ → Option ℕ → Option (List ℕ × ℕ × ℕ × Option ℕ)
  | [], i, n, me => some ([], i, n, me)
  | peer :: rest, i, n, me => do
    let me := if peer = 1 then some i else me
    let node ← t.nodes n
    match ← t.findIn peer node.children with
    | none => some (peer :: rest, i, n, me)
    | some c => followPath t rest (i + 1) c me

def placeNode (oldnode : Option ℕ) (rest : List ℕ) (parent peer : ℕ) (t : MeshTunnelTree) :
    Option (ℕ × MeshTunnelTree) :=
  match rest, oldnode with
  | [], some old => do
    let t ← t.setParent old (some parent)
    let t ← t.insertChild parent old
    let t ← treeNodeUpdateFirstHops t.fresh old none t
    some (old, t)
  | _, _ => do
    let (n, t) ← treeNodeNew t (some parent) peer
    let t ← t.setStatus n .relay
    some (n, t)

def addBranch (oldnode : Option ℕ) :
    List ℕ → ℕ → ℕ → Option ℕ → MeshTunnelTree → Option (ℕ × Option ℕ × MeshTunnelTree)
  | [], _, n, me, t => some (n, me, t)
  | peer :: rest, i, parent, me, t => do
    let (n, t) ← placeNode oldnode rest parent peer t
    let node ← t.nodes n
    if node.peer = 1 then addBranch oldnode rest (i + 1) n (some i) { t with me := some n }
    else addBranch oldnode rest (i + 1) n me t

def hopsOfPath (t : MeshTunnelTree) (p : List ℕ) : Option ℕ → Option MeshTunnelTree
  | none => some t
  | some me =>
    if me < p.length - 1 then do
      let hop ← p[me + 1]?
      treeUpdateFirstHops t hop (some hop)
    else some t

def treeAddPath (t : MeshTunnelTree) : List ℕ → Option (Bool × MeshTunnelTree)
  -- `GNUNET_assert (0 != p->length)`
  | [] => none
  | first :: branch => do
    let root ← t.root
    let rootNode ← t.nodes root
    if rootNode.peer ≠ first then some (false, t)
    else
      match branch.getLast? with
      | none => some (true, t)
      | some last => do
        let (oldnode, t) ← treeDelPath t last
        let me := if rootNode.peer = 1 then some 0 else none
        let (rest, i, parent, me) ← followPath t branch 1 root me
        let (n, me, t) ← addBranch oldnode rest i parent me t
        let t ← t.setStatus n .searching
        let t ← hopsOfPath t (first :: branch) me
        match t.me with
        | some _ => some (true, t)
        | none => do
          let me ← treeFindPeer t 1
          some (true, { t with me })

def disconnect (t : MeshTunnelTree) (parent n : ℕ) : Option MeshTunnelTree := do
  let t ← treeMarkPeersDisconnected t.fresh n t
  let t ← t.removeChild parent n
  some { t with disconnected := n :: t.disconnected }

def parentIs (t : MeshTunnelTree) (peer : ℕ) : Option ℕ → Option Bool
  | none => some false
  | some parent => do
    let node ← t.nodes parent
    some (node.peer = peer)

def treeNotifyConnectionBroken (t : MeshTunnelTree) (p1 p2 : ℕ) :
    Option (ℕ × MeshTunnelTree) := do
  match ← treeFindPeer t p1 with
  | none => some (0, t)
  | some n => do
    let node ← t.nodes n
    if ← parentIs t p2 node.parent then do
      let parent ← node.parent
      let t ← disconnect t parent n
      some (p1, t)
    else
      match ← t.findIn p2 node.children with
      | none => some (0, t)
      | some c => do
        let t ← disconnect t n c
        some (p2, t)

/-- The result is whether the tree is still there. -/
def treeDelPeer (t : MeshTunnelTree) (peer : ℕ) : Option (Bool × MeshTunnelTree) := do
  let (found, t) ← treeDelPath t peer
  match found with
  | none => some (true, t)
  | some n => do
    let t ← treeNodeDestroy t.fresh n t
    let root ← t.root
    let rootNode ← t.nodes root
    if rootNode.children = [] ∧ t.me ≠ some root then do
      let t ← treeNodeDestroy t.fresh root t
      some (false, { t with root := none })
    else some (true, t)

end Gnunet.Mesh
