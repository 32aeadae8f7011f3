/-!
Diagnostics: warnings and errors collected during a session, and their rendering as lines.
-/
namespace CallByNeed

inductive Level where
  | warning
  | error
deriving DecidableEq, Repr

def Level.name : Level → String
  | warning => "Warning"
  | error => "Error"

structure Diagnostic where
  level : Level
  message : String
  /-- The text of the call the diagnostic comes from. -/
  call : Option String := none
  context : Option String := none
  code : Option String := none
deriving DecidableEq, Repr

inductive Template where
  | pretty
  | plain
deriving DecidableEq, Repr

namespace Diagnostic

def shown (d : Diagnostic) : String :=
  let body := match d.level, d.call with
    | .warning, some call => "Warning in " ++ call ++ " : " ++ d.message
    | .error, some call => "In " ++ call ++ " : " ++ d.message
    | _, none => d.message
  body ++ (d.code.map fun code => " [" ++ code ++ "]").getD ""

/-- The first line of a rendered diagnostic. -/
def header (d : Diagnostic) (template : Template) (context : String) : String :=
  let start := match template, d.level with
    | .pretty, .error => "❌ [" ++ context ++ "] "
    | .pretty, .warning => "⚠️  [" ++ context ++ "] "
    | .plain, .error => "[" ++ context ++ "] ERROR: "
    | .plain, .warning => "[" ++ context ++ "] WARNING: "
  start ++ d.message ++ (d.code.map fun code => " (" ++ code ++ ")").getD ""

def lines (d : Diagnostic) (template : Template) (context : String) : List String :=
  d.header template context :: (d.call.map fun call => "   in " ++ call).toList

/-- The lines of all diagnostics; the fallback stands in where one has no context of its own. -/
def render (ds : List Diagnostic) (fallback : String) (template : Template) : List String :=
  ds.flatMap fun d => d.lines template (d.context.getD fallback)

def warnings (ds : List Diagnostic) : List Diagnostic := ds.filter (·.level = .warning)

def hasErrors (ds : List Diagnostic) : Bool := ds.any (·.level = .error)

end Diagnostic
end CallByNeed
