import DirDigest.Accumulators
import DirDigest.Cancellation
import DirDigest.Main
import DirDigest.Zip.Builder
import DirDigest.Proofs.Checksum
import DirDigest.Proofs.Reading
import DirDigest.Proofs.Zip.Content
import DirDigest.Proofs.Zip.Opening
import DirDigest.Proofs.ArchiveDigest
import DirDigest.Proofs.DigestMap
import DirDigest.Proofs.DigestRun
import DirDigest.Proofs.Deflate
import DirDigest.Proofs.Zip.Building
import DirDigest.Proofs.Zip.Layout
import DirDigest.Proofs.Zip.ReadBack
import DirDigest.Proofs.Zip.RoundTrip
import DirDigest.Proofs.Zip.Corruption
import DirDigest.Proofs.FileTree.Resolve
import DirDigest.Proofs.FileTree.Rewrite
import DirDigest.Proofs.Walk
import DirDigest.Proofs.KeyDigest
import DirDigest.Proofs.Repacking
import DirDigest.Proofs.Enumeration
import DirDigest.Proofs.LinkWalk
import DirDigest.Proofs.ChangeDetection
import DirDigest.Proofs.CommandRun
import DirDigest.Proofs.Ignoring
import DirDigest.Proofs.LinkEntries
import DirDigest.Proofs.FileTree.LinkCopy
import DirDigest.Proofs.LinkCopy
import DirDigest.Proofs.Remainder
import DirDigest.Proofs.Accumulators
import DirDigest.Proofs.Cancellation
import DirDigest.Proofs.CommandOutcome
import DirDigest.Proofs.Report.ReadBack
import DirDigest.Proofs.DigesterPast
import DirDigest.Proofs.Difference
import DirDigest.Proofs.PathOutcome
import DirDigest.Proofs.DifferenceLaws
import DirDigest.Proofs.RepeatedNames
import DirDigest.Proofs.BufferSize
import DirDigest.Proofs.IgnoredPaths
import DirDigest.Proofs.Spellings
import DirDigest.Proofs.InexpressiblePaths
import DirDigest.Proofs.ArchiveNames
import DirDigest.Proofs.RelativeKeys
import DirDigest.Proofs.Report.Grouping
