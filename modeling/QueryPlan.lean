import QueryPlan.Entry
import QueryPlan.Main
import QueryPlan.Proofs.RecursiveReplace
import QueryPlan.Proofs.RecursiveWalk
import QueryPlan.Proofs.ReplaceErrors
import QueryPlan.Proofs.SameSchedule
import QueryPlan.Proofs.Answers
import QueryPlan.Proofs.Places
import QueryPlan.Proofs.FirstBad
import QueryPlan.Proofs.Scopes
import QueryPlan.Proofs.Visits
import QueryPlan.Proofs.Unchanged
import QueryPlan.Proofs.HooksApart
import QueryPlan.Proofs.DepthLimit
import QueryPlan.Proofs.ReplaceAt
import QueryPlan.Proofs.WellFormed
import QueryPlan.Proofs.RewriteAt
import QueryPlan.Proofs.LogRecords
import QueryPlan.Proofs.WalkCounters
import QueryPlan.Proofs.LeafMap
import QueryPlan.Proofs.RewrittenWalk
import QueryPlan.Proofs.Readability
import QueryPlan.Proofs.BindingHistory
import QueryPlan.Proofs.LeftGroups
import QueryPlan.Proofs.OwnedLists
import QueryPlan.Proofs.Outlines
import QueryPlan.Proofs.DistinctPairs
import QueryPlan.Proofs.RetargetedPlans
import QueryPlan.Proofs.AlikePlans
import QueryPlan.Proofs.TextSpans
import QueryPlan.Proofs.PendingSteps
import QueryPlan.Proofs.Iterations
