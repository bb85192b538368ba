import NuLab.Merkle.Root
import NuLab.Template.Incomplete
import NuLab.Client.HalfSent
import NuLab.Client.Lifetime
import NuLab.Client.Framing
import NuLab.Client.Handshake
import NuLab.Client.Commands
import NuLab.Sha256.Chunking
import NuLab.Sha256.Midsum
import NuLab.Sha256.Reads
import NuLab.Sha256.Begin
import NuLab.BlockFile.Walk
import NuLab.Transaction.Status
import NuLab.Transaction.WitnessSection
import NuLab.Dca.Refines
import NuLab.Dca.Unchecked
import NuLab.Dca.Discipline
import NuLab.Template.MerkleRoot
import NuLab.Solver.Main
import NuLab.Solver.Dry
import NuLab.FindNonce.History
import NuLab.Json.Member
import NuLab.Json.Safety
import NuLab.Hex.RoundTrip
import NuLab.Json.FromCstr
import NuLab.FindNonce.Par
import NuLab.FindNonce.Agrees
import NuLab.FindNonce.Race
import NuLab.FindNonce.Best
import NuLab.FindNonce.Variant
import NuLab.Load.Appends
import NuLab.Builder.Solved
import NuLab.Memory.Heap
