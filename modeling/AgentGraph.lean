import AgentGraph.Main
import AgentGraph.Disk.Folder
import AgentGraph.Proofs.Placement
import AgentGraph.Proofs.Sidecar
import AgentGraph.Proofs.RoundTrip
import AgentGraph.Proofs.Split
import AgentGraph.Proofs.Placement.Identity
import AgentGraph.Proofs.Noninterference
import AgentGraph.Proofs.OneObject
import AgentGraph.Proofs.PreFlight
import AgentGraph.Proofs.Cycle
import AgentGraph.Proofs.Unreserved
import AgentGraph.Proofs.Inert
import AgentGraph.Proofs.LoadedGraph
import AgentGraph.Proofs.Gating
import AgentGraph.Proofs.Depth
import AgentGraph.Proofs.Store
import AgentGraph.Proofs.Supplied
import AgentGraph.Proofs.Apart
import AgentGraph.Proofs.Schema.Accepted
import AgentGraph.Proofs.Naming
import AgentGraph.Proofs.Extension
import AgentGraph.Proofs.Overwritten
import AgentGraph.Proofs.Reorder
import AgentGraph.Proofs.Reach
