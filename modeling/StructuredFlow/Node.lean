import StructuredFlow.Expr

/-
  The tree of statements that a program is assembled to, and the artifact that holds a whole
  program. Jumps are made of two nodes: `goto` leaves for a label and `label` marks the place of
  one. The `leave` and `next` labels of a loop have no marker: the loop itself is where they lead.
-/

namespace StructuredFlow

/-- One alternative of a switch: the values that select it, and what is done then. -/
structure Arm (β : Type) where
  values : List Expr
  body : β
deriving BEq, Repr, Inhabited

/-- What is done about exceptions of one kind; the binding holds the exception meanwhile. -/
structure Handler (β : Type) where
  kind : Ty
  binding : Option Symbol
  body : β
deriving BEq, Repr, Inhabited

inductive Node where
  | nop
  | eval (e : Expr)
  | assign (target : Symbol) (value : Expr)
  | block (locals : List Symbol) (body : List Node)
  | branch (test : Expr) (yes no : Node)
  | loop (body : Node) (leave next : Label)
  | label (target : Label) (default : Option Constant)
  | goto (target : Label) (value : Option Expr)
  | switch (value : Expr) (arms : List (Arm Node)) (default : Option Node)
  | attempt (body : Node) (handlers : List (Handler Node)) (cleanup : Option Node)
  | throw (value : Expr)
  | rethrow
deriving BEq, Repr, Inhabited

namespace Node

def isNop : Node → Bool
  | nop => true
  | _ => false

/-- The node marks the label's place. -/
def marks (l : LabelId) : Node → Bool
  | label target _ => target.id == l
  | _ => false

/-- The nodes directly below a node, in the order in which they are written. -/
def children : Node → List Node
  | block _ body => body
  | branch _ yes no => [yes, no]
  | loop body _ _ => [body]
  | switch _ arms default => arms.map Arm.body ++ default.toList
  | attempt body handlers cleanup => body :: (handlers.map Handler.body ++ cleanup.toList)
  | nop | eval _ | assign _ _ | label _ _ | goto _ _ | throw _ | rethrow => []

mutual

/-- The place of a label is in the tree: some node of it marks the label. -/
def defines (l : LabelId) : Node → Bool
  | label target _ => target.id == l
  | block _ body => definesAny l body
  | branch _ yes no => yes.defines l || no.defines l
  | loop body _ _ => body.defines l
  | switch _ arms none => definesArm l arms
  | switch _ arms (some default) => definesArm l arms || default.defines l
  | attempt body handlers none => body.defines l || definesHandler l handlers
  | attempt body handlers (some cleanup) =>
    body.defines l || (definesHandler l handlers || cleanup.defines l)
  | nop | eval _ | assign _ _ | goto _ _ | throw _ | rethrow => false

def definesAny (l : LabelId) : List Node → Bool
  | [] => false
  | n :: rest => n.defines l || definesAny l rest

def definesArm (l : LabelId) : List (Arm Node) → Bool
  | [] => false
  | ⟨_, n⟩ :: rest => n.defines l || definesArm l rest

def definesHandler (l : LabelId) : List (Handler Node) → Bool
  | [] => false
  | ⟨_, _, n⟩ :: rest => n.defines l || definesHandler l rest

end

mutual

/-- All nodes of a tree, each before those below it. -/
def subnodes (n : Node) : List Node :=
  n :: match n with
    | block _ body => subnodesAll body
    | branch _ yes no => yes.subnodes ++ no.subnodes
    | loop body _ _ => body.subnodes
    | switch _ arms none => subnodesArms arms
    | switch _ arms (some default) => subnodesArms arms ++ default.subnodes
    | attempt body handlers none => body.subnodes ++ subnodesHandlers handlers
    | attempt body handlers (some cleanup) =>
      body.subnodes ++ (subnodesHandlers handlers ++ cleanup.subnodes)
    | nop | eval _ | assign _ _ | label _ _ | goto _ _ | throw _ | rethrow => []

def subnodesAll : List Node → List Node
  | [] => []
  | n :: rest => n.subnodes ++ subnodesAll rest

def subnodesArms : List (Arm Node) → List Node
  | [] => []
  | ⟨_, n⟩ :: rest => n.subnodes ++ subnodesArms rest

def subnodesHandlers : List (Handler Node) → List Node
  | [] => []
  | ⟨_, _, n⟩ :: rest => n.subnodes ++ subnodesHandlers rest

end

/-- How many nodes of the tree have a property. -/
def count (p : Node → Bool) (n : Node) : Nat :=
  n.subnodes.countP p

/-! ## Through the list of children -/

@[simp] theorem definesAny_eq_any (l : LabelId) (ns : List Node) :
    definesAny l ns = ns.any (defines l) := by
  induction ns with
  | nil => rfl
  | cons n ns ih => simp [definesAny, ih]

@[simp] theorem definesArm_eq_any (l : LabelId) (arms : List (Arm Node)) :
    definesArm l arms = (arms.map Arm.body).any (defines l) := by
  induction arms with
  | nil => rfl
  | cons a arms ih => simp [definesArm, ih]

@[simp] theorem definesHandler_eq_any (l : LabelId) (hs : List (Handler Node)) :
    definesHandler l hs = (hs.map Handler.body).any (defines l) := by
  induction hs with
  | nil => rfl
  | cons h hs ih => simp [definesHandler, ih]

@[simp] theorem subnodesAll_eq_flatMap (ns : List Node) : subnodesAll ns = ns.flatMap subnodes := by
  induction ns with
  | nil => rfl
  | cons n ns ih => simp [subnodesAll, ih]

@[simp] theorem subnodesArms_eq_flatMap (arms : List (Arm Node)) :
    subnodesArms arms = (arms.map Arm.body).flatMap subnodes := by
  induction arms with
  | nil => rfl
  | cons a arms ih => simp [subnodesArms, ih]

@[simp] theorem subnodesHandlers_eq_flatMap (hs : List (Handler Node)) :
    subnodesHandlers hs = (hs.map Handler.body).flatMap subnodes := by
  induction hs with
  | nil => rfl
  | cons h hs ih => simp [subnodesHandlers, ih]

theorem defines_eq (l : LabelId) (n : Node) :
    n.defines l = (n.marks l || n.children.any (defines l)) := by
  cases n with
  | switch v arms d => cases d <;> simp [defines, marks, children]
  | attempt b hs c => cases c <;> simp [defines, marks, children]
  | _ => simp [defines, marks, children]

theorem subnodes_eq (n : Node) : n.subnodes = n :: n.children.flatMap subnodes := by
  cases n with
  | switch v arms d => cases d <;> simp [subnodes, children]
  | attempt b hs c => cases c <;> simp [subnodes, children]
  | _ => simp [subnodes, children]

theorem self_mem_subnodes (n : Node) : n ∈ n.subnodes := by
  rw [subnodes_eq]; exact List.mem_cons_self

end Node

/-- A whole program: its parameters, and a body that a `return` leaves for the return label. -/
structure Artifact where
  name : String
  params : List Symbol
  returnLabel : Label
  body : Node
deriving BEq, Repr, Inhabited

namespace Artifact

/-- The type of what the program returns is the type that its return label carries. -/
def returnType (a : Artifact) : Ty :=
  a.returnLabel.ty

end Artifact

end StructuredFlow
