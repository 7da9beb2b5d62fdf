import Viracochan.Time

/-!
# Viracochan: configurations and their metadata

`Meta` and `Config` as declared by the library.  A `json.RawMessage` is a byte
slice that may be `nil`; the two are told apart by `json.Marshal` (`nil` is
written as `null`), so the content is an `Option`: `none` is the nil slice.
Byte strings are modelled as Lean strings, i.e. as valid UTF-8.
-/

namespace Viracochan

/-- `Meta`: versioning and integrity metadata of a configuration. -/
structure Meta where
  version : UInt64
  time : GoTime
  prevCS : String
  cs : String
  signature : String
deriving DecidableEq, Repr

/-- `Config`: metadata and the raw content bytes (`none` is a nil `json.RawMessage`). -/
structure Config where
  meta : Meta
  content : Option String
deriving DecidableEq, Repr

end Viracochan
