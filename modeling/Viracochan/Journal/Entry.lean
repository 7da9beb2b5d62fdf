import Viracochan.Config

/-!
# Viracochan: journal entries

`JournalEntry` as declared in `journal.go`: one line of the journal, with the
chain fields copied from the configuration it records and, optionally, the
configuration itself.
-/

namespace Viracochan

/-- `JournalEntry`: a single change recorded in the journal. -/
structure JournalEntry where
  id : String
  version : UInt64
  cs : String
  prevCS : String
  time : GoTime
  operation : String
  config : Option Config
deriving DecidableEq, Repr

end Viracochan
