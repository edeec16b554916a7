import FlowLint.Format.Basic
import FlowLint.Format.DateTime
import FlowLint.Format.Uri

/-!
The formats that a run of the program goes by.
-/

namespace FlowLint

instance : Formats where
  isUri      := Format.Uri.isValid
  isDateTime := Format.DateTime.isValid

end FlowLint
