import RamOverlay.Flow.Block

/-!
# Control-flow graphs

The blocks of a source unit, or of one routine of it, in address order. A node holds a block with
what the analyses found out about it, so that a graph always knows all of it for all its blocks.
-/

namespace RamOverlay

/-- The loop headers of a block. A block that loops to itself inside another loop has itself as
primary header and the enclosing one as secondary header. -/
structure LoopLinks where
  /-- The innermost header. -/
  primary? : Option BlockId := none
  /-- The enclosing header of a block that heads a loop of its own. -/
  secondary? : Option BlockId := none
  deriving DecidableEq, Repr

/-- What is decided about a block. -/
structure Placement where
  inRam : Bool := false
  /-- The exit of the block is charged as a long exit. -/
  instrumented : Bool := false
  deriving DecidableEq, Repr

/-- A block with all that is found out about it. -/
structure Node where
  block : Block
  links : LoopLinks := {}
  isHeader : Bool := false
  iterations : Nat := 1
  placement : Placement := {}
  deriving DecidableEq, Repr

/-- The blocks of a unit or of one of its routines. A block is named by its place in the list. -/
structure Graph where
  unit : String
  nodes : Array Node := #[]
  starts : List BlockId := []
  deriving DecidableEq, Repr

namespace Graph

/-- A graph of blocks about which nothing is known. -/
def ofBlocks (unit : String) (blocks : List Block) : Graph :=
  { unit, nodes := (blocks.map fun block => { block }).toArray }

def size (graph : Graph) : Nat := graph.nodes.size

def ids (graph : Graph) : List BlockId := List.range graph.size

def blocks (graph : Graph) : List Block := graph.nodes.toList.map (·.block)

def entries (graph : Graph) : List (BlockId × Node) :=
  graph.nodes.toList.zipIdx.map fun (node, id) => (id, node)

def block? (graph : Graph) (id : BlockId) : Option Block := graph.nodes[id]?.map (·.block)

/-- Where flow goes from a block; nowhere if there is no such block. -/
def successors (graph : Graph) (id : BlockId) : List BlockId :=
  match graph.nodes[id]? with
  | some node => node.block.successors
  | none => []

/-- The blocks from which control goes to a block, once for each edge. -/
def predecessors (graph : Graph) (id : BlockId) : List BlockId :=
  graph.ids.flatMap fun other => ((graph.successors other).filter (· == id)).map fun _ => other

/-- The first block that starts at a source line. -/
def blockAtLine? (graph : Graph) (line : Nat) : Option BlockId :=
  graph.nodes.findIdx? (·.block.line == line)

/-- The first block that begins with a label. -/
def blockWithLabel? (graph : Graph) (label : String) : Option BlockId :=
  graph.nodes.findIdx? (·.block.label? == some label)

def modify (graph : Graph) (id : BlockId) (f : Node → Node) : Graph :=
  { graph with nodes := graph.nodes.modify id f }

def mapNodes (graph : Graph) (f : BlockId → Node → Node) : Graph :=
  { graph with nodes := graph.nodes.mapIdx f }

def inRam (graph : Graph) (id : BlockId) : Bool :=
  match graph.nodes[id]? with
  | some node => node.placement.inRam
  | none => false

/-- A unit name in which every character that a MathProg symbol cannot hold is an underscore. -/
def symbolName (unit : String) : String :=
  String.ofList (unit.toList.map fun c => if c.isAlphanum || c == '_' || c == '.' then c else '_')

/-- The name of a block of a unit: by its label, or by its line if it has none. -/
def nameOf (unit : String) (block : Block) : String :=
  symbolName unit ++ "_" ++ match block.label? with
    | some label => label
    | none => Text.decimal block.line

/-- The name of a block in the placement problem. -/
def blockName? (graph : Graph) (id : BlockId) : Option String :=
  (graph.block? id).map (nameOf graph.unit)

/-- The name by which a routine is reported: the label of its first start, or `fallback`. -/
def routineName (graph : Graph) (fallback : String) : String :=
  match graph.starts.head?.bind graph.block? |>.bind Block.label? with
  | some label => label
  | none => fallback

end Graph

end RamOverlay
