import Valuation.Encoding.Config
import Valuation.Toml.Reader

/-!
# Settings in TOML

The configuration of the program is kept as a TOML text. TOML has no null, so the content of a case
that has none is an empty table or an empty list, and a list that stands for the engine's settings
may be longer than they are.
-/
namespace Valuation

namespace Document

/-- A case without content, as its name alone. -/
def plainName : Document → Document
  | .record [(name, .record [])] => .text name
  | .record [(name, .list [])] => .text name
  | d => d

/-- Changes the fields of a name. -/
def changeField (name : String) (f : Document → Document) : Document → Document
  | .record fs => .record (fs.map fun (k, d) => (k, if k = name then f d else d))
  | d => d

end Document

/-- The engine's settings in the form that their decoder knows: six at most, the policy by its
name. -/
def EngineConfig.normalize : Document → Document
  | .list ds => .list ((ds.take 6).modify 4 Document.plainName)
  | d => d.changeField "permission" Document.plainName

/-- The configuration that a TOML text writes. -/
def RunnerConfig.ofTomlText? (text : String) : Option RunnerConfig := do
  let d ← Document.ofTomlText? text
  RunnerConfig.ofDocument?
    ((d.changeField "mode" Document.plainName).changeField "engine" EngineConfig.normalize)

end Valuation
