import CompositeScan.Text.Quoted

/-!
# Domains

A fixed-length field takes its values from a discrete domain, and all the scan ever asks of a domain
is the value next to a given one. A step can fail for two reasons that the rest of the library
treats differently: the value is the last in its direction, which is an ordinary fact about the
data, or it is no value of the domain, so that nothing is known about its neighbours.

A domain is a pair of functions and nothing more. They are the caller's, so nothing is assumed of
them in the definitions: that they lead to neighbours in some order, agree with each other, or keep
the length of a value are hypotheses of the statements that need them, and a scan makes progress
with functions that do none of this.
-/

namespace CompositeScan

/-- Why a value has no neighbour. -/
inductive StepError where
  /-- The value is the last in this direction, or moving it would change its length. -/
  | exhausted (value : Text)
  /-- The value is not in the domain. -/
  | outsideDomain (value : Text) (domain : String)
  deriving DecidableEq

namespace StepError

/-- The wording of a step error. -/
def message : StepError → String
  | exhausted value => s!"BoundExhausted: can not step {value.quoted} without changing its length"
  | outsideDomain value domain =>
    s!"InvalidDomainValue: {value.quoted} is not a valid {domain} value"

end StepError

/-- A discrete domain, known by the neighbours of its values. -/
structure Domain where
  /-- The next value up. -/
  successor : Text → Except StepError Text
  /-- The next value down. -/
  predecessor : Text → Except StepError Text

namespace Domain

/-- A domain in which every value is the last one. -/
def frozen : Domain where
  successor value := .error (.exhausted value)
  predecessor value := .error (.exhausted value)

end Domain

end CompositeScan
