import Lineage.Config.Json
import Lineage.Main
import Lineage.Proofs.LeastOrder
import Lineage.Proofs.WellFormed
import Lineage.Proofs.Lanes
import Lineage.Proofs.LinearView
import Lineage.Proofs.Stack
import Lineage.Proofs.FalseAncestry
import Lineage.Proofs.Containment
import Lineage.Proofs.Listing.Lanes
import Lineage.Proofs.Translation
import Lineage.Proofs.HeadOrder
import Lineage.Proofs.Covering
import Lineage.Proofs.Report
import Lineage.Proofs.Straightening
import Lineage.Proofs.Interleave.Greedy
import Lineage.Proofs.Strands.Lanes
import Lineage.Proofs.Coloring
import Lineage.Proofs.Store.Adjacency
import Lineage.Proofs.Stack.Filters
import Lineage.Proofs.Stack.Folding
import Lineage.Proofs.Stack.Targets
import Lineage.Proofs.CommitList
import Lineage.Proofs.CommitList.Written
import Lineage.Proofs.BreadthFirst
import Lineage.Proofs.Strands.Cover
import Lineage.Proofs.DepthFirst
import Lineage.Proofs.Trimming
import Lineage.Proofs.Countdown
import Lineage.Proofs.Rows.Targets
import Lineage.Proofs.Descents
