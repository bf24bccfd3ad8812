import BeliefGraph.Settings.Error
import BeliefGraph.Toml.Parser
import BeliefGraph.Toml.Section

/-!
# Reading settings

Settings are read from a TOML document with a section for each part of a space: `space`, `pln`, `ure`
and `ecan`. Everything may be left out. A document of the right form is then validated.
-/

namespace BeliefGraph

open Toml (Value Table)
open Toml.Value (orDefault)

def StoreSettings.ofToml? (v : Value) : Option StoreSettings := do
  let fields ← v.fields? ["max_atoms"]
  let defaults : StoreSettings := {}
  let maxAtoms ← orDefault fields "max_atoms" defaults.maxAtoms fun v => v.natural?.map some
  return ⟨maxAtoms⟩

def ReasonerSettings.ofToml? (v : Value) : Option ReasonerSettings := do
  let fields ← v.fields? ["max_steps"]
  let defaults : ReasonerSettings := {}
  let maxSteps ← orDefault fields "max_steps" defaults.maxSteps Value.natural?
  return ⟨maxSteps⟩

def ChainerSettings.ofToml? (v : Value) : Option ChainerSettings := do
  let fields ← v.fields? ["max_iter", "initial_complexity", "complexity_step"]
  let defaults : ChainerSettings := {}
  let maxIterations ← orDefault fields "max_iter" defaults.maxIterations Value.natural?
  let initial ← orDefault fields "initial_complexity" defaults.initialComplexity Value.single?
  let step ← orDefault fields "complexity_step" defaults.complexityStep Value.single?
  return ⟨maxIterations, initial, step⟩

def SpreadMode.ofToml? (v : Value) : Option SpreadMode := v.variant?.bind SpreadMode.ofName?

def AllocatorSettings.ofToml? (v : Value) : Option AllocatorSettings := do
  let fields ← v.fields? ["total_sti", "total_lti", "focus_size", "spread_mode"]
  let defaults : AllocatorSettings := {}
  let totalSti ← orDefault fields "total_sti" defaults.totalSti Value.integer?
  let totalLti ← orDefault fields "total_lti" defaults.totalLti Value.integer?
  let focusSize ← orDefault fields "focus_size" defaults.focusSize Value.natural?
  let spreadMode ← orDefault fields "spread_mode" defaults.spreadMode SpreadMode.ofToml?
  return ⟨totalSti, totalLti, focusSize, spreadMode⟩

namespace Settings

/-- The settings in a document, valid or not. -/
def ofToml? (t : Table) : Option Settings := do
  let store ← orDefault t.entries "space" {} StoreSettings.ofToml?
  let reasoner ← orDefault t.entries "pln" {} ReasonerSettings.ofToml?
  let chainer ← orDefault t.entries "ure" {} ChainerSettings.ofToml?
  let allocator ← orDefault t.entries "ecan" {} AllocatorSettings.ofToml?
  return ⟨store, reasoner, chainer, allocator⟩

/-- The settings in a text. -/
def read (text : String) : Except SettingsError Settings :=
  match Toml.parse? text.toList with
  | none => .error (.parse "the text is no TOML document")
  | some document =>
    match ofToml? document with
    | none => .error (.parse "a setting has the wrong type")
    | some s =>
      match s.validate with
      | .ok () => .ok s
      | .error e => .error (.validation e)

/-- The settings in a file, whose text is absent if it cannot be read. -/
def ofFile (text : Option String) : Except SettingsError Settings :=
  match text with
  | some text => read text
  | none => .error (.io "the file cannot be read")

/-- An empty document leaves every setting at its default. -/
theorem ofToml?_empty (origin : Toml.Origin) : ofToml? (Table.empty origin) = some {} := rfl

end Settings

end BeliefGraph
