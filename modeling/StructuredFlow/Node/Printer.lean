import StructuredFlow.Node

/-
  The written form of a tree: one line for each leaf, braces around the parts of a node, and two
  spaces of indentation for each level.
-/

namespace StructuredFlow

/-- A line of a listing: how deep it is indented, and its text. -/
structure Line where
  depth : Nat
  text : String
deriving DecidableEq, Repr, Inhabited

namespace Line

def render (l : Line) : String :=
  String.ofList (List.replicate (2 * l.depth) ' ') ++ l.text ++ "\n"

/-- The text of a listing. -/
def renderAll (ls : List Line) : String :=
  String.join (ls.map render)

end Line

namespace Node

/-- What stands behind `block`: the locals, if there are any. -/
def renderLocals (locals : List Symbol) : String :=
  if locals.isEmpty then "" else "[" ++ ", ".intercalate (locals.map Symbol.renderTyped) ++ "] "

/-- The line that opens a handler. -/
def renderCatch (kind : Ty) (binding : Option Symbol) : String :=
  match binding with
  | some s => "\x7d catch " ++ kind.render ++ " " ++ s.render ++ " \x7b"
  | none => "\x7d catch " ++ kind.render ++ " \x7b"

mutual

/-- The lines of a tree at a depth. -/
def lines (d : Nat) : Node → List Line
  | nop => [⟨d, "nop"⟩]
  | eval e => [⟨d, e.render⟩]
  | assign target value => [⟨d, target.render ++ " = " ++ value.render⟩]
  | block locals body =>
    ⟨d, "block " ++ renderLocals locals ++ "\x7b"⟩ :: (linesAll (d + 1) body ++ [⟨d, "\x7d"⟩])
  | branch test yes no =>
    ⟨d, "if " ++ test.render ++ " \x7b"⟩ ::
      (yes.lines (d + 1) ++
        (if no.isNop then [] else ⟨d, "\x7d else \x7b"⟩ :: no.lines (d + 1)) ++ [⟨d, "\x7d"⟩])
  | loop body leave next =>
    ⟨d, "loop break=" ++ leave.render ++ " continue=" ++ next.render ++ " \x7b"⟩ ::
      (body.lines (d + 1) ++ [⟨d, "\x7d"⟩])
  | label target none => [⟨d, target.render ++ ":"⟩]
  | label target (some value) => [⟨d, target.render ++ ": (default " ++ value.render ++ ")"⟩]
  | goto target none => [⟨d, "goto " ++ target.render⟩]
  | goto target (some value) => [⟨d, "goto " ++ target.render ++ " with " ++ value.render⟩]
  | switch value arms none =>
    ⟨d, "switch " ++ value.render ++ " \x7b"⟩ :: (linesArms d arms ++ [⟨d, "\x7d"⟩])
  | switch value arms (some default) =>
    ⟨d, "switch " ++ value.render ++ " \x7b"⟩ ::
      (linesArms d arms ++ ⟨d + 1, "default:"⟩ :: (default.lines (d + 2) ++ [⟨d, "\x7d"⟩]))
  | attempt body handlers none =>
    ⟨d, "try \x7b"⟩ :: (body.lines (d + 1) ++ (linesHandlers d handlers ++ [⟨d, "\x7d"⟩]))
  | attempt body handlers (some cleanup) =>
    ⟨d, "try \x7b"⟩ :: (body.lines (d + 1) ++ (linesHandlers d handlers ++
      ⟨d, "\x7d finally \x7b"⟩ :: (cleanup.lines (d + 1) ++ [⟨d, "\x7d"⟩])))
  | throw value => [⟨d, "throw " ++ value.render⟩]
  | rethrow => [⟨d, "rethrow"⟩]

def linesAll (d : Nat) : List Node → List Line
  | [] => []
  | n :: rest => n.lines d ++ linesAll d rest

def linesArms (d : Nat) : List (Arm Node) → List Line
  | [] => []
  | ⟨values, n⟩ :: rest =>
    ⟨d + 1, "case " ++ ", ".intercalate (values.map Expr.render) ++ ":"⟩ ::
      (n.lines (d + 2) ++ linesArms d rest)

def linesHandlers (d : Nat) : List (Handler Node) → List Line
  | [] => []
  | ⟨kind, binding, n⟩ :: rest =>
    ⟨d, renderCatch kind binding⟩ :: (n.lines (d + 1) ++ linesHandlers d rest)

end

/-- The text of a tree. -/
def render (n : Node) : String :=
  Line.renderAll (n.lines 0)

end Node

namespace Artifact

/-- The text of a program: its head, and the body one level deeper. -/
def render (a : Artifact) : String :=
  Line.renderAll
    (⟨0, "fn " ++ a.name ++ "(" ++ ", ".intercalate (a.params.map Symbol.renderTyped) ++ ") -> " ++
        a.returnType.render ++ " \x7b"⟩ ::
      (a.body.lines 1 ++ [⟨0, "\x7d"⟩]))

end Artifact

end StructuredFlow
