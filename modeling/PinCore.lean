import PinCore.Document.Membership
import PinCore.Document.Prefix
import PinCore.Grouped.Canonical
import PinCore.Grouped.Evaluate
import PinCore.Grouped.Inline
import PinCore.Grouped.Retire
import PinCore.Image.GroupTail
import PinCore.Lib.Merge
import PinCore.Query.Recheck
import PinCore.Reference.Answer
import PinCore.Reference.Afford
import PinCore.Reference.Rank
import PinCore.Reference.Ranking
import PinCore.Reference.Pages
import PinCore.Run.Concurrent
import PinCore.Run.Insertion
import PinCore.Run.Seek
import PinCore.Run.Work
import PinCore.Vacuum.Orphans
import PinCore.Image.OwnerRun
import PinCore.Image.SealedRun
import PinCore.Codec.Dictionary
import PinCore.Codec.PositionBlocks
import PinCore.Codec.Offsets
import PinCore.Codec.Varint
import PinCore.Grouped.Scan
import PinCore.Document.Dense
import PinCore.Analysis.Compose
import PinCore.Query.Exact
import PinCore.Grouped.Merged
import PinCore.Grouped.Written
