import CodeAtlas.Content.Codec
import CodeAtlas.Event.Codec
import CodeAtlas.Main
import CodeAtlas.Sample
import CodeAtlas.Session.Poller
import CodeAtlas.Proofs.Controller.Run
import CodeAtlas.Proofs.Controller.Tickets
import CodeAtlas.Proofs.Controller.ViewConsistency
import CodeAtlas.Proofs.Explorer.Levels
import CodeAtlas.Proofs.Explorer.OrderIndependence
import CodeAtlas.Proofs.Layout.Exact
import CodeAtlas.Proofs.Layout.Layers
import CodeAtlas.Proofs.Layout.Placement
import CodeAtlas.Proofs.Graph.Model
import CodeAtlas.Proofs.Layout.Diagram
import CodeAtlas.Proofs.Layout.HitTest
import CodeAtlas.Proofs.Graph.Occurrences
import CodeAtlas.Proofs.Layout.Completeness
import CodeAtlas.Proofs.Controller.Calls
import CodeAtlas.Proofs.Controller.Replay
import CodeAtlas.Proofs.Content.Requests
import CodeAtlas.Proofs.Explorer.FilePaths
import CodeAtlas.Proofs.View.Files
import CodeAtlas.Proofs.View.Ownership
import CodeAtlas.Proofs.Graph.Owners
import CodeAtlas.Proofs.Layout.FileEdges
import CodeAtlas.Proofs.Controller.Display
import CodeAtlas.Proofs.Layout.Acyclic
import CodeAtlas.Proofs.Layout.Peeling
import CodeAtlas.Proofs.Layout.Ranking
import CodeAtlas.Proofs.Layout.Relabelling
import CodeAtlas.Proofs.Graph.Listing
import CodeAtlas.Proofs.Layout.ListingOrder
import CodeAtlas.Proofs.Json.RoundTrip
import CodeAtlas.Proofs.Event.RoundTrip
import CodeAtlas.Proofs.Graph.Codec
import CodeAtlas.Proofs.Analyzer.Payload
import CodeAtlas.Proofs.Analyzer.Detection
import CodeAtlas.Proofs.Session.Polling
import CodeAtlas.Proofs.Layout.CycleBreaking
import CodeAtlas.Proofs.Controller.DrawnEdges
import CodeAtlas.Proofs.Layout.LongestPaths
import CodeAtlas.Proofs.Layout.CheckedOrder
import CodeAtlas.Proofs.Layout.CheckedPlacement
import CodeAtlas.Proofs.Layout.Separation
import CodeAtlas.Proofs.Layout.CallOrder
import CodeAtlas.Proofs.Layout.Stacking
import CodeAtlas.Proofs.Explorer.NameOrder
import CodeAtlas.Proofs.Explorer.Sorting
import CodeAtlas.Proofs.Explorer.Expansion
import CodeAtlas.Proofs.Explorer.FullListing
import CodeAtlas.Proofs.Graph.Partition
import CodeAtlas.Proofs.Layout.Bounds
import CodeAtlas.Proofs.Layout.Transposition
import CodeAtlas.Proofs.Binary32.Rounding
import CodeAtlas.Proofs.Binary32.Words
import CodeAtlas.Proofs.Highlight.Runs
import CodeAtlas.Proofs.Style.Color
import CodeAtlas.Proofs.View.Dependencies
import CodeAtlas.Proofs.Binary32.Arithmetic
import CodeAtlas.Proofs.Binary32.Covering
import CodeAtlas.Proofs.Binary32.Gaps
import CodeAtlas.Proofs.Binary32.Grid
import CodeAtlas.Proofs.Binary32.ReadBack
import CodeAtlas.Proofs.Json.Numerals
import CodeAtlas.Proofs.Json.Reals
import CodeAtlas.Proofs.Disk.ReadWrite
import CodeAtlas.Proofs.Json.Written
import CodeAtlas.Proofs.Settings.RoundTrip
import CodeAtlas.Proofs.Layout.Degrees
import CodeAtlas.Proofs.Layout.Lifting
import CodeAtlas.Proofs.Style.Acceptance
import CodeAtlas.Proofs.Sample.Identifiers
import CodeAtlas.Proofs.Sample.Project
import CodeAtlas.Proofs.Style.Bytes
