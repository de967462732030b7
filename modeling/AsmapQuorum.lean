import AsmapQuorum.Codec.Compare
import AsmapQuorum.Codec.Holes
import AsmapQuorum.Codec.Minimal
import AsmapQuorum.Codec.Patch
import AsmapQuorum.Codec.ReferenceEntries
import AsmapQuorum.Codec.ReferenceRandom
import AsmapQuorum.Codec.Word
import AsmapQuorum.Quorum.Agreement
import AsmapQuorum.Quorum.Bottleneck
import AsmapQuorum.Quorum.Bytes
import AsmapQuorum.Quorum.Collectors
import AsmapQuorum.Quorum.Diff
import AsmapQuorum.Quorum.DiffAddrs
import AsmapQuorum.Quorum.Framing
import AsmapQuorum.Quorum.Ledger
import AsmapQuorum.Quorum.Mesh
import AsmapQuorum.Quorum.Mrt
import AsmapQuorum.Quorum.Release
import AsmapQuorum.Quorum.Report
import AsmapQuorum.Quorum.Serve
import AsmapQuorum.Quorum.Unanimous
