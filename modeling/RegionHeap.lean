import RegionHeap.Bench.Region
import RegionHeap.Bench.Slots
import RegionHeap.Bench.Workload
import RegionHeap.Growth.Race
import RegionHeap.LinkPlan
import RegionHeap.Lock.Schedule
import RegionHeap.Main
import RegionHeap.Proofs.Faultless
import RegionHeap.Proofs.Framed.Account
import RegionHeap.Proofs.Framed.Refusal
import RegionHeap.Proofs.Framed.Reuse
import RegionHeap.Proofs.Framed.Shared.Runs
import RegionHeap.Proofs.Framed.Tracing
import RegionHeap.Proofs.Growth.Linear.Edge
import RegionHeap.Proofs.Growth.Linear.Runs
import RegionHeap.Proofs.Growth.Race
import RegionHeap.Proofs.Growth.Source.Adapter
import RegionHeap.Proofs.Interchange
import RegionHeap.Proofs.Layout.Resize
import RegionHeap.Proofs.Lock.Wakeup
import RegionHeap.Proofs.Native.Runs
import RegionHeap.Proofs.Replay.Ownership
import RegionHeap.Proofs.Session.Diagnostics
import RegionHeap.Proofs.Session.Report
import RegionHeap.Proofs.Trace.Plain
import RegionHeap.Replay
import RegionHeap.Replay.Transcript
import RegionHeap.Session.Command
import RegionHeap.Proofs.Sized.Room
