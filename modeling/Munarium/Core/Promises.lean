import Munarium.Core.Types

/-! The pure part of the promise registry. -/
namespace Munarium

/-- Pin-aware status view: a promise fulfilled after the pin reads back open. -/
def statusAsOf (p : Promise) (asOfSeq : Option ℕ) : PromiseStatus :=
  match asOfSeq, p.fulfilledSeq, p.status with
  | some pin, some fulfilled, .fulfilled => if fulfilled > pin then .opened else .fulfilled
  | _, _, status => status

end Munarium
