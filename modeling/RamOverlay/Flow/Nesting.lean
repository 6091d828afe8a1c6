import RamOverlay.Flow.AddressSet
import RamOverlay.Flow.Graph
import RamOverlay.Traced

/-!
# Loop nesting

The innermost loop header of every block, by one depth-first search from each start. An edge to a
block on the path of the search is a back edge and makes its target a header. Headers are handed up
the path as the search returns, and each block keeps its headers as a chain, from the innermost
outwards; the depth of a header on the path tells which of two is the inner one.

A block that is its own successor heads a loop of its own. It becomes its own primary header, and
the header that it had before its secondary one.
-/

namespace RamOverlay.Graph

/-- The path of a search from the current block back to the start. -/
abbrev Path := List BlockId

/-- The depth of a block on the path; the start has depth one, and a block off the path zero. -/
def depthOn (path : Path) (id : BlockId) : Nat := (path.dropWhile (· ≠ id)).length

/-- What a search for loops knows so far: the blocks that it has come to, and their links. -/
structure Search where
  visited : AddressSet
  links : Array LoopLinks
  deriving DecidableEq, Repr

/-- The primary header of a block. -/
def Search.header? (search : Search) (id : BlockId) : Option BlockId :=
  search.links[id]?.bind (·.primary?)

def Search.setHeader (search : Search) (id header : BlockId) : Search :=
  { search with links := search.links.modify id fun links => { links with primary? := header } }

/-- Puts `header` into the header chain of `id`, which is ordered by depth on the path. The flag
tells whether the chain was finished within the fuel. -/
def mergeHeader (path : Path) : Nat → BlockId → BlockId → Search → Search × Bool
  | 0, _, _, search => (search, false)
  | fuel + 1, id, header, search =>
    match search.header? id with
    | none => (search.setHeader id header, true)
    | some outer =>
      if outer = header then (search, true)
      else if depthOn path outer < depthOn path header then
        mergeHeader path fuel header outer (search.setHeader id header)
      else mergeHeader path fuel outer header search

def lineOf (graph : Graph) (id : BlockId) : Nat :=
  match graph.block? id with
  | some block => block.line
  | none => 0

/-- Makes `header` a header of `id`, unless it is `id` itself. -/
def tagHeader (graph : Graph) (path : Path) (id header : BlockId) (search : Search) :
    Traced Search :=
  if id = header then pure search
  else
    let (search, finished) := mergeHeader path (graph.size + 1) id header search
    { value := search
      events := if finished then [] else [.endlessHeaderMerge graph.unit (graph.lineOf id)] }

/-- Looks at an edge to a block that the search has come to before. -/
def meet (graph : Graph) (path : Path) (id successor : BlockId) (search : Search) :
    Traced Search :=
  if successor ∈ path then graph.tagHeader path id successor search
  else
    match search.header? successor with
    | none => pure search
    | some header =>
      if header ∈ path then graph.tagHeader path id header search
      else do
        Traced.report (.irreducibleFlow graph.unit (graph.lineOf successor))
        return search

/-- Follows the edges from `id`, the head of the path, one after the other; `visit` searches from a
block that the search has not come to before. -/
def followEdges (graph : Graph) (visit : BlockId → Search → Traced Search) (path : Path)
    (id : BlockId) : List BlockId → Search → Traced Search
  | [], search => pure search
  | successor :: rest, search => do
    let search ←
      if search.visited.contains successor then graph.meet path id successor search
      else do
        let search ← visit successor search
        match search.header? successor with
        | some header => graph.tagHeader path id header search
        | none => pure search
    graph.followEdges visit path id rest search

/-- Searches from a block below a path. Each step into the depth comes to a new block, so fuel for
the number of blocks is enough. -/
def searchFrom (graph : Graph) : Nat → Path → BlockId → Search → Traced Search
  | 0, _, _, search => pure search
  | fuel + 1, path, id, search =>
    graph.followEdges (graph.searchFrom fuel (id :: path)) (id :: path) id (graph.successors id)
      { search with visited := search.visited.insert id }

/-- Searches from each start in turn, keeping the headers that were found. -/
def searchAll (graph : Graph) (links : Array LoopLinks) :
    List BlockId → Traced (Array LoopLinks)
  | [] => pure links
  | start :: rest => do
    let search ← graph.searchFrom graph.size [] start { visited := .empty graph.size, links }
    graph.searchAll search.links rest

/-- Gives a block that is its own successor a loop of its own. -/
def linkSelfLoops (graph : Graph) (links : Array LoopLinks) : Array LoopLinks :=
  links.mapIdx fun id links =>
    if id ∈ graph.successors id then { primary? := some id, secondary? := links.primary? }
    else links

/-- Searches from each of the starts in turn. Loops of a single block are found apart from that. -/
def nesting (graph : Graph) : Traced (Array LoopLinks) := do
  let links ← graph.searchAll (Array.replicate graph.size {}) graph.starts
  return graph.linkSelfLoops links

/-- The graph with loop headers; earlier ones are forgotten. -/
def withNesting (graph : Graph) (links : Array LoopLinks) : Graph :=
  let isHeader := fun (id : BlockId) =>
    links.any fun l => l.primary? == some id || l.secondary? == some id
  graph.mapNodes fun id node =>
    { node with links := links.getD id {}, isHeader := isHeader id }

def analyzeLoops (graph : Graph) : Traced Graph := do
  let links ← graph.nesting
  return graph.withNesting links

def linksOf (graph : Graph) (id : BlockId) : LoopLinks :=
  match graph.nodes[id]? with
  | some node => node.links
  | none => {}

def isLoopHeader (graph : Graph) (id : BlockId) : Bool :=
  match graph.nodes[id]? with
  | some node => node.isHeader
  | none => false

/-- The headers, in the order of the blocks. -/
def loopHeaders (graph : Graph) : List BlockId := graph.ids.filter graph.isLoopHeader

/-- The header of the loop around a block, or around its own loop if it heads one by itself. -/
def outerHeader? (graph : Graph) (id : BlockId) : Option BlockId :=
  let links := graph.linksOf id
  if links.primary? = some id then links.secondary? else links.primary?

/-- The headers around a block, innermost first. The flag tells whether the chain came to its end
within the fuel. -/
def chainFrom (graph : Graph) : Nat → BlockId → List BlockId × Bool
  | 0, id => ([], (graph.linksOf id).primary?.isNone)
  | fuel + 1, id =>
    match graph.outerHeader? id with
    | none => ([], true)
    | some outer =>
      let (chain, finished) := graph.chainFrom fuel outer
      (outer :: chain, finished)

/-- The headers of the loops around a block, innermost first, without the block itself. -/
def headerChain (graph : Graph) (id : BlockId) : Traced (List BlockId) :=
  let (chain, finished) := graph.chainFrom (graph.size + 1) id
  { value := chain
    events := if finished then [] else [.cyclicHeaderChain graph.unit (graph.lineOf id)] }

/-- The headers of the loops that contain a block, innermost first, the block itself included if it
heads a loop. Their number is the depth at which the block is nested. -/
def loopHeadersOf (graph : Graph) (id : BlockId) : Traced (List BlockId) := do
  let chain ← graph.headerChain id
  return if graph.isLoopHeader id then id :: chain else chain

end RamOverlay.Graph
