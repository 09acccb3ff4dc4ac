import Munarium.Lib.StableSort
import Munarium.Store.Memory

/-! The read of a lineage's findings from the in-memory store. -/
namespace Munarium

structure FindingsQuery where
  asOfSeq : Option ℕ := none
  severity : Option Severity := none
  ruleId : Option String := none
  rulePrefix : Option String := none
  limit : Option ℕ := none

def FindingsQuery.admits (q : FindingsQuery) (f : StoredFinding) : Bool :=
  State.pinAdmits q.asOfSeq f.seq &&
    q.severity.all (fun severity => f.finding.severity == severity) &&
    q.ruleId.all (fun r => f.finding.ruleId == r) &&
    q.rulePrefix.all (fun p => startsWith p f.finding.ruleId)

/-- Root to leaf, sorted by their stamps. -/
def State.findingsAt [Platform] (s : State) (v : String) (q : FindingsQuery) :
    Result (List StoredFinding) := do
  let lineage ← s.lineageOf v
  .ok (((StableSort.sortByKey (·.seq) (lineage.flatMap s.findings)).filter q.admits).take
    (q.limit.getD 1000))

end Munarium
