import BeliefGraph.Space.Basic

/-!
# One-line summaries

A summary names a part of a space and lists its fields; parts that do not fit on a line are left out
and stand as two dots.
-/

namespace BeliefGraph

/-- A title and the fields in braces; `more` says that there are fields that are not listed. -/
def summary (title : String) (fields : List (String × String)) (more : Bool) : String :=
  title ++ " \x7b " ++
    String.intercalate ", " (fields.map fun (name, value) => name ++ ": " ++ value) ++
    (if more then ", .. \x7d" else " \x7d")

def SpreadMode.title : SpreadMode → String
  | broadcast => "Broadcast"
  | conservative => "Conservative"

def Ledger.summary (l : Ledger) : String :=
  BeliefGraph.summary "PlnStats" [
    ("inferences", l.inferences.repr),
    ("forward_rounds", l.forwardRounds.repr),
    ("backward_rounds", l.backwardRounds.repr),
    ("rule_matches", l.ruleMatches.repr),
    ("truth_computations", l.truthComputations.repr)] false

def Reasoner.summary (r : Reasoner) : String :=
  BeliefGraph.summary "PlnEngine" [
    ("rules", r.rules.length.repr),
    ("stats", r.ledger.summary),
    ("spread_mode", r.spreadMode.title),
    ("max_steps", r.maxSteps.repr)] true

def Allocator.summary (a : Allocator) : String :=
  BeliefGraph.summary "AttentionAllocator" [
    ("total_sti", a.totalSti.repr),
    ("total_lti", a.totalLti.repr),
    ("focus_size", a.focusSize.repr),
    ("spread_mode", a.spreadMode.title),
    ("focus", "[" ++
      String.intercalate ", " (a.focus.map fun id => "AtomId(" ++ id.repr ++ ")") ++ "]")] true

end BeliefGraph
