import ScalarScript.Bytecode.Compile
import ScalarScript.Bytecode.Listing
import ScalarScript.Bytecode.Machine
import ScalarScript.Bytecode.Optimize

/-! Engines that evaluate expressions, chosen by name: the tree walker, and bytecode on the stack
machine. Settings in text form decide whether bytecode is optimized, where the engine leaves that
open, and whether a listing is printed before the run. -/
namespace ScalarScript

/-- Reads a flag: the usual words for yes, in any case. An unset or blank text gives the default. -/
def flag (raw : Option String) (default : Bool) : Bool :=
  match raw.map fun s => Text.trim s.toList with
  | none | some [] => default
  | some word => [['1'], ['t', 'r', 'u', 'e'], ['y', 'e', 's'], ['o', 'n']].contains (Text.lower word)

structure Settings where
  optimize : Option String := none
  listing : Option String := none

def Settings.optimizes (s : Settings) : Bool := flag s.optimize false

def Settings.lists (s : Settings) : Bool := flag s.listing false

inductive Backend where
  | tree
  /-- Bytecode, optimized or not, or as the settings say. -/
  | bytecode (optimize : Option Bool)

namespace Backend

/-- The backend of a named engine; the default name stands in for an absent or empty one. -/
def ofEngine (engine : Option String) (default : String) (optimize : Option Bool) :
    Except Fault Backend :=
  let name := match engine with
    | none | some "" => default
    | some name => name
  if name = "interp" then .ok tree
  else if name = "vm" then .ok (bytecode optimize)
  else .error (.unknownEngine name)

/-- Evaluation that prints: the state is the text printed so far. -/
abbrev Session := Stateful String

def printLine (line : String) : Session Unit := modify (· ++ line ++ "\n")

def eval (settings : Settings) (backend : Backend) (e : Expr) : Session Value :=
  match backend with
  | tree => Stateful.lift e.eval
  | bytecode optimize => do
    let chunk ← Stateful.lift e.compile
    let chunk ← if optimize.getD settings.optimizes then Stateful.lift chunk.optimize else pure chunk
    if settings.lists then
      printLine "=== DISASM ==="
      printLine (← Stateful.lift chunk.listing)
      printLine "=== END DISASM ==="
    Stateful.lift chunk.run

end Backend
end ScalarScript
