import HeaderLex.Outcome
import HeaderLex.Token.Basic

/-!
# Token lists in an arena

Token lists are chains of nodes that an arena owns.  Released nodes are used again, so a parser
that builds many short lists allocates little.  A node carries a generation that changes with every
release; a list that was released is recognised by it.

* `Arena.push`, `Arena.tokens`, `Arena.release`   append, read, give back;
* `Arena.liveCount`, `Arena.freeCount`            nodes in use and nodes to be used again.
-/

namespace HeaderLex

/-- A node at a time: its index and the generation it had. -/
structure NodeId where
  index : UInt32
  generation : UInt32
deriving DecidableEq, Repr

structure Node where
  /-- The token; none while the node is free. -/
  token : Option Token
  next : Option NodeId
  generation : UInt32
deriving DecidableEq, Repr

/-- A handle on a chain of nodes. -/
structure TokenList where
  head : Option NodeId
  tail : Option NodeId
  length : Nat
deriving DecidableEq, Repr

def TokenList.empty : TokenList := ⟨none, none, 0⟩

def TokenList.isEmpty (l : TokenList) : Bool := l.length == 0

structure Arena where
  nodes : Array Node
  /-- Indices of free nodes, the one to be used next first. -/
  free : List UInt32
deriving Repr

namespace Arena

def empty : Arena := ⟨#[], []⟩

/-- Nodes that belong to some list. -/
def liveCount (a : Arena) : Nat := a.nodes.size - a.free.length

def freeCount (a : Arena) : Nat := a.free.length

def node? (a : Arena) (index : UInt32) : Option Node := a.nodes[index.toNat]?

/-- The node still is what it was when `id` was handed out. -/
def isCurrent (a : Arena) (id : NodeId) : Bool :=
  match a.node? id.index with
  | some n => n.generation == id.generation && n.token.isSome
  | none => false

/-- A link of a handle is current or absent. -/
def admits (a : Arena) (id : Option NodeId) : Bool := id.all a.isCurrent

def setNode (a : Arena) (index : UInt32) (f : Node → Node) : Arena :=
  { a with nodes := a.nodes.modify index.toNat f }

/-- A node for a token: a free one if there is one, else a new one. -/
def allocate (a : Arena) (t : Token) : NodeId × Arena :=
  match a.free with
  | index :: free =>
    let generation := ((a.node? index).map Node.generation).getD 0
    (⟨index, generation⟩,
      { a with free := free }.setNode index fun n => { n with token := some t, next := none })
  | [] => (⟨a.nodes.size.toUInt32, 0⟩, { a with nodes := a.nodes.push ⟨some t, none, 0⟩ })

/-- Appends a token to a list. -/
def push (a : Arena) (l : TokenList) (t : Token) : Outcome Arena TokenList :=
  if a.admits l.tail then
    let (id, a) := a.allocate t
    match l.tail with
    | some tail =>
      .ok ⟨l.head, some id, l.length + 1⟩
        (a.setNode tail.index fun n => { n with next := some id })
    | none => .ok ⟨some id, some id, l.length + 1⟩ a
  else .misuse .staleTokenList a

/-- The tokens of the chain that begins at a node.  A chain has no more nodes than the arena. -/
def chain (a : Arena) : Nat → Option NodeId → List Token
  | 0, _ => []
  | _ + 1, none => []
  | steps + 1, some id =>
    match a.node? id.index with
    | some ⟨some t, next, _⟩ => t :: a.chain steps next
    | _ => []

/-- The tokens of a list, in the order in which they were appended. -/
def tokens (a : Arena) (l : TokenList) : Outcome Arena (List Token) :=
  if a.admits l.head then .ok (a.chain a.nodes.size l.head) a else .misuse .staleTokenList a

/-- The texts of a list side by side. -/
def join (a : Arena) (l : TokenList) : Outcome Arena String :=
  let o := a.tokens l
  ⟨o.result.map fun ts => String.join (ts.map Token.value), o.state, o.events⟩

/-- Frees a node. -/
def freeNode (a : Arena) (index : UInt32) : Arena :=
  let a := a.setNode index fun n => ⟨none, none, n.generation + 1⟩
  { a with free := index :: a.free }

/-- Frees the chain that begins at a node. -/
def releaseChain (a : Arena) : Nat → Option NodeId → Outcome Arena Unit
  | 0, _ => .ok () a
  | _ + 1, none => .ok () a
  | steps + 1, some id =>
    if a.isCurrent id then
      let next := (a.node? id.index).bind Node.next
      (a.freeNode id.index).releaseChain steps next
    else .misuse .staleTokenList a

/-- Gives the nodes of a list back. -/
def release (a : Arena) (l : TokenList) : Outcome Arena Unit :=
  a.releaseChain (a.nodes.size + 1) l.head

end Arena

end HeaderLex
