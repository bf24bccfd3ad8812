import BeliefGraph.Settings.Basic

/-!
# Why settings are refused
-/

namespace BeliefGraph

inductive SettingsError
  /-- The text could not be read. -/
  | io (reason : String)
  /-- The text is no TOML, or a setting has the wrong type. -/
  | parse (reason : String)
  | validation (error : ValidationError)

def SettingsError.message : SettingsError → String
  | .io reason => "IO error: " ++ reason
  | .parse reason => "TOML parse error: " ++ reason
  | .validation e => "Config validation error: " ++ e.message

end BeliefGraph
