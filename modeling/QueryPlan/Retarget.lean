import QueryPlan.Replace

/-!
# Retargeting scans

Every scan of one table is replaced by a scan of another one. The name under which the rows are
known stays.
-/

namespace QueryPlan

/-- A scan of `source` as a scan of `target`; other operators as they are. -/
def Op.retargetScan (source target : String) : Op → Op
  | scan table asName => scan (if table = source then target else table) asName
  | o => o

/-- Retargets each rebuilt scan. -/
def retargetScans (source target : String) : Replacers Unit where
  onOp := some fun _ rebuilt => pure (rebuilt.retargetScan source target)

/-- The plan with every scan of `source` retargeted, or the error that stops the run. -/
def Op.retarget (config : Config) (source target : String) (plan : Op) : Except RunError Op :=
  (((retargetScans source target).op config plan).exec () ()).1

end QueryPlan
