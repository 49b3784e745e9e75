import StructuredFlow.Builder

/-
  Assembly: the tree of scopes becomes a tree of nodes. A scope is assembled to a block, and a
  function closes each block to a node; the usual one leaves the block out where it would do
  nothing. Jumps by name find their label now, and constructs that were left unfinished are
  refused; the first offence in the order of the statements is reported.
-/

namespace StructuredFlow

/-- A scope whose statements are nodes. -/
structure Block where
  locals : List Symbol
  nodes : List Node
deriving BEq, Repr, Inhabited

namespace Block

def empty : Block :=
  ⟨[], []⟩

def isEmpty (b : Block) : Bool :=
  b.nodes.isEmpty && b.locals.isEmpty

/-- The block with a node before all others. -/
def cons (n : Node) (b : Block) : Block :=
  { b with nodes := n :: b.nodes }

/-- The block as it is. -/
def toNode (b : Block) : Node :=
  .block b.locals b.nodes

/-- The least node for a block: without locals, nothing at all and a single node need no block. -/
def collapse : Block → Node
  | ⟨[], []⟩ => .nop
  | ⟨[], [n]⟩ => n
  | ⟨locals, nodes⟩ => .block locals nodes

end Block

namespace Node

/-- A jump that carries nothing. -/
def jump (l : Label) : Node :=
  goto l none

/-- The place of a label that carries nothing. -/
def mark (l : Label) : Node :=
  label l none

/-- Disposes of what a variable holds, if it holds anything. -/
def disposal (s : Symbol) : Node :=
  let call := eval (.intrinsic .dispose [.var s])
  if s.ty.isReference then
    branch (.binary .notEqual (.var s) (.null s.ty)) call nop
  else call

/-- Produces a resource, runs a body with it, and disposes of it however the body ends. -/
def withCleanup (s : Symbol) (producer : Expr) (body : Node) : Node :=
  block [s] [assign s producer, attempt body [] (some (disposal s))]

/-- A loop that tests its condition at the start of each round. -/
def ofLoop (l : Loop) (body : Node) : Node :=
  loop (branch l.condition body (jump l.leave)) l.leave l.next

/-- A loop with an iterator, which is disposed of if it has to be. -/
def ofIteration (iterator : Symbol) (collection : Expr) (walk : Node) : Node :=
  let producer := Expr.intrinsic .getIterator [collection]
  if iterator.ty.isDisposable then withCleanup iterator producer walk
  else block [iterator] [assign iterator producer, walk]

/-- A chain of tests; the node after the last one stands for none of them. -/
def ofLinks (links : List (Expr × Node)) (otherwise : Node) : Node :=
  links.foldr (fun l rest => branch l.1 l.2 rest) otherwise

/-- A switch. An empty group does what the default does: it jumps to the label before the default's
first statement, which is placed if some group needs it. -/
def ofSwitch (close : Block → Node) (value : Expr) (groups : List (Arm Block))
    (default : Option (Label × Block)) : Node :=
  match default with
  | none => switch value (groups.map (arm nop)) none
  | some (fall, body) =>
    let body := if groups.any (·.body.isEmpty) then body.cons (mark fall) else body
    switch value (groups.map (arm (jump fall))) (some (close body))
where
  arm (otherwise : Node) (g : Arm Block) : Arm Node :=
    ⟨g.values, if g.body.isEmpty then otherwise else close g.body⟩

end Node

abbrev Assembled := Except BuildError

namespace Stmt

/-- Assembles a statement from what its scopes are assembled to. -/
def assemble (label? : String → Option Label) (close : Block → Node) :
    Stmt (Assembled Block) → Assembled Node
  | .node n => return n
  | .goto name =>
    match label? name with
    | some l => return .jump l
    | none => throw (.unknownLabel name)
  | .conditional links otherwise => do
    let links ← links.mapM fun l => return (l.1, close (← l.2))
    let otherwise ← otherwise.mapM fun body => return close (← body)
    return Node.ofLinks links (otherwise.getD .nop)
  | .loop l body => return Node.ofLoop l (close (← body))
  | .iteration iterator collection l body =>
    return Node.ofIteration iterator collection (Node.ofLoop l (close (← body)))
  | .switch _ [] none => throw .emptyBranch
  | .switch _ [] (some (_, body)) => return close (← body)
  | .switch value groups default => do
    let groups ← groups.mapM fun g => return ⟨g.values, ← g.body.getD (return Block.empty)⟩
    let default ← default.mapM fun d => return (d.1, ← d.2)
    return Node.ofSwitch close value groups default
  | .attempt _ [] none => throw .emptyTry
  | .attempt body handlers cleanup => do
    let body := close (← body)
    let handlers ← handlers.mapM fun h => return ⟨h.kind, h.binding, close (← h.body)⟩
    let cleanup ← cleanup.mapM fun c => return close (← c)
    return .attempt body handlers cleanup
  | .resource s producer body => return Node.withCleanup s producer (close (← body))

end Stmt

namespace Scope

/-- Assembles the statements of a scope in their order. -/
def assemble (label? : String → Option Label) (close : Block → Node) : Scope → Assembled Block :=
  fold fun frame stmts => return ⟨frame.locals, ← stmts.mapM (Stmt.assemble label? close)⟩

end Scope

namespace Builder

/-- Assembles the program, with a function that closes blocks. The place of the return label ends
the body; a body that gets there by itself returns the zero of the return type. -/
def assembleWith (close : Block → Node) (b : Builder) : Assembled Artifact := do
  let top ← b.top.assemble b.label? close
  return {
    name := b.options.name
    params := b.params
    returnLabel := b.returnLabel
    body := .block [] [close top, .label b.returnLabel (Constant.zero? b.returnType)] }

/-- Assembles the program. -/
def assemble (b : Builder) : Assembled Artifact :=
  b.assembleWith Block.collapse

/-- Assembles one scope of the program. -/
def assembleScope (b : Builder) (id : ScopeId) : Assembled Node :=
  match b.top.find? id with
  | some s => return (← s.assemble b.label? Block.collapse).collapse
  | none => throw (.unknownScope id)

end Builder

end StructuredFlow
