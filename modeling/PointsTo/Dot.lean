import PointsTo.Text.Escape

/-!
# Drawing graphs in the DOT language

A graph is drawn node by node and then edge by edge, one statement a line. Labels are escaped to
visible ASCII. The attributes of a statement are first written in brackets of their own, and then
neighbouring brackets are joined (`joinBrackets`), which some readers of the language need.
-/

namespace PointsTo.Dot

structure Node where
  label : String
  id : Nat
  /-- Seeds are drawn as boxes. -/
  isSeed : Bool
deriving DecidableEq

inductive EdgeKind where
  | field
  | epsilon
deriving DecidableEq

/-- An edge between nodes, which are known by their ids. -/
structure Edge where
  source : Nat
  target : Nat
  label : String
  kind : EdgeKind
deriving DecidableEq

structure Graph where
  nodes : List Node
  edges : List Edge

/-- An attribute in brackets of its own. -/
def bracketed (name value : String) : String :=
  s!"[{name}=\"" ++ String.ofList (Text.Escape.ascii value.toList) ++ "\"]"

def Node.statement (n : Node) : String :=
  let shape := if n.isSeed then bracketed "shape" "box" else ""
  s!"    n{n.id}" ++ bracketed "label" n.label ++ shape ++ ";\n"

/-- Edges without a field are dashed and bear no label. -/
def Edge.statement (e : Edge) : String :=
  let attributes :=
    match e.kind with
    | .field => bracketed "label" e.label ++ bracketed "style" "solid"
    | .epsilon => bracketed "label" "" ++ bracketed "style" "dashed"
  s!"    n{e.source} -> n{e.target}" ++ attributes ++ ";\n"

/-- Replaces each closing bracket that is followed by an opening one, together with it, by a space.
-/
def joinBrackets : List Char → List Char
  | ']' :: '[' :: r => ' ' :: joinBrackets r
  | c :: r => c :: joinBrackets r
  | [] => []

def Graph.statements (g : Graph) : String :=
  "digraph Field_Automata \x7b\n" ++ String.join (g.nodes.map (·.statement)) ++
    String.join (g.edges.map (·.statement)) ++ "\x7d\n"

def Graph.text (g : Graph) : String := String.ofList (joinBrackets g.statements.toList)

end PointsTo.Dot
