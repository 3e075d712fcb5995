import UnitGraph.Source.Range

/-!
# Diagnostics

A fault that touches one entity only (a range that names no tokens, a function whose control flow is not
available) is recorded as a diagnostic, and the entity appears in the result in reduced form.
-/
namespace UnitGraph

inductive Severity where
  | error
  | warning
  deriving DecidableEq, Repr

/-- The causes a diagnostic can report. -/
inductive DiagnosticCode where
  | tokenLookup
  | flowUnsupported
  | flowMalformed
  deriving DecidableEq, Repr

/-- The printed code of a cause: errors begin with `E`, warnings with `W`. -/
def DiagnosticCode.text : DiagnosticCode → String
  | .tokenLookup => "E0101"
  | .flowUnsupported => "W0101"
  | .flowMalformed => "W0102"

/-- A lost token range is an error; missing control flow only degrades the result. -/
def DiagnosticCode.severity : DiagnosticCode → Severity
  | .tokenLookup => .error
  | .flowUnsupported | .flowMalformed => .warning

/-- A recorded fault; the range is that of the entity concerned. -/
structure Diagnostic where
  code : DiagnosticCode
  message : String
  range : Option SourceRange
  deriving DecidableEq, Repr

namespace Diagnostic

def severity (d : Diagnostic) : Severity := d.code.severity

def isError (d : Diagnostic) : Bool := d.severity = .error

end Diagnostic

end UnitGraph
