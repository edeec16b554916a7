/-!
The formats of texts that others define. The checks do not say what a URI is, nor what a date and a
time are: they are given it, and all that holds of them holds whatever they are given.
-/

namespace FlowLint

/-- Which texts are absolute URIs, and which are a date and a time with an offset. -/
class Formats where
  isUri      : String → Bool
  isDateTime : String → Bool

end FlowLint
