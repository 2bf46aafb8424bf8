/-!
# Configuration of the analysis
-/

namespace SafeRestart

inductive ControlFlowPolicy where
  /-- The same path is taken, so a value matters from the reads on that path. -/
  | samePath
  /-- Any path may be taken, so a value matters from the entry of the region. -/
  | anyPath
deriving DecidableEq

namespace ControlFlowPolicy

def all : List ControlFlowPolicy := [.samePath, .anyPath]

def text : ControlFlowPolicy -> String
  | .samePath => "invariable"
  | .anyPath => "variable"

end ControlFlowPolicy

/-- The settings of an analysis.  No answer depends on `parallel`, which only allows functions to
be analysed side by side. -/
structure Config where
  policy : ControlFlowPolicy := .samePath
  verify : Bool := false
  parallel : Bool := true
deriving DecidableEq

namespace Config

def standard : Config := {}

def verifying : Config := { verify := true }

def variableControlFlow : Config := { policy := .anyPath }

def sequential : Config := { parallel := false }

def withPolicy (config : Config) (policy : ControlFlowPolicy) : Config :=
  { config with policy := policy }

def withVerify (config : Config) (verify : Bool) : Config :=
  { config with verify := verify }

end Config
end SafeRestart
