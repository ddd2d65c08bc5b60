import Presynth.Netlist.Census
/-!
# Drawings of netlists

A netlist is drawn in the DOT language: first its signals in name order, coloured by class, then its
edges, each once, in the order of the names that are drawn.
-/

namespace Presynth

variable {α : Type}

/-- The colour of a class. -/
def SignalClass.color? : SignalClass → Option String
  | Sequential => some "lightblue"
  | Wire => some "red"
  | Input => some "black"
  | Output => some "green"
  | Constant => some "grey"
  | Combinational => some "pink"
  | Other => none

namespace Netlist

/-- The name of a signal in a drawing: the separators of hierarchical and indexed names become
underscores. -/
def drawnName (name : String) : String :=
  name.map fun c => if c = '.' ∨ c = '[' ∨ c = ']' ∨ c = '\\' then '_' else c

/-- The line that draws a signal. -/
def drawnSignal (g : Netlist α) (name : String) : String :=
  let quoted := "    \"" ++ drawnName name ++ "\""
  match (g.classify name).color? with
  | some color => quoted ++ " [style=filled, fillcolor=" ++ color ++ "];\n"
  | none => quoted ++ ";\n"

/-- The edges by drawn names, each once, in order. Different signals may share a drawn name. -/
def drawnEdges (g : Netlist α) : List (String × String) :=
  (sortedNames (g.fanout.keys.map drawnName)).flatMap fun u =>
    let targets := g.fanout.toList.flatMap fun e => if drawnName e.1 = u then e.2 else []
    (sortedNames (targets.map drawnName)).map fun v => (u, v)

/-- The drawing of a netlist under the title `top`. -/
def drawing (g : Netlist α) (top : String) : String :=
  "digraph " ++ drawnName top ++ " \x7b\n" ++
    String.join (g.signals.map g.drawnSignal) ++
    String.join (g.drawnEdges.map fun e => "    \"" ++ e.1 ++ "\" -> \"" ++ e.2 ++ "\";\n") ++
    "\x7d\n"

end Netlist

end Presynth
