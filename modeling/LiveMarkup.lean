import LiveMarkup.Fragment.Growth
import LiveMarkup.Fragment.OfTokens
import LiveMarkup.Fragment.Outline
import LiveMarkup.Live.Building
import LiveMarkup.Live.Markup
import LiveMarkup.Live.Run
import LiveMarkup.Live.Snapshot
import LiveMarkup.Live.Transaction
import LiveMarkup.Markup.Cursor
import LiveMarkup.Markup.Sample
import LiveMarkup.Patch.Compile
import LiveMarkup.Patch.Transcript
import LiveMarkup.Text.LineDiff
import LiveMarkup.Proofs.Ancestry
import LiveMarkup.Proofs.Region
import LiveMarkup.Proofs.Walk
import LiveMarkup.Proofs.Markup.Name
import LiveMarkup.Proofs.Markup.RawText
import LiveMarkup.Proofs.Markup.Reference
import LiveMarkup.Proofs.Markup.Scan
import LiveMarkup.Proofs.Markup.Tokens
import LiveMarkup.Proofs.Markup.Stream
import LiveMarkup.Proofs.Markup.Verbatim
import LiveMarkup.Proofs.Markup.NameChecks
import LiveMarkup.Proofs.Markup.Occurrences
import LiveMarkup.Proofs.Text.Bytes
import LiveMarkup.Proofs.Markup.Cursor.Decoding
import LiveMarkup.Proofs.Markup.Cursor.Tags
import LiveMarkup.Proofs.Markup.Cursor.Scan
import LiveMarkup.Proofs.Fragment.Nest
import LiveMarkup.Proofs.Fragment.Playable
import LiveMarkup.Proofs.Fragment.Content
import LiveMarkup.Proofs.Fragment.Linked
import LiveMarkup.Proofs.Fragment.Reading
import LiveMarkup.Proofs.Fragment.Tidy
import LiveMarkup.Proofs.Fragment.Traversal
import LiveMarkup.Proofs.Fragment.Order
import LiveMarkup.Proofs.Fragment.Canonical
import LiveMarkup.Proofs.Patch.Denotation
import LiveMarkup.Proofs.Patch.Accepted
import LiveMarkup.Proofs.Patch.Keys
import LiveMarkup.Proofs.Patch.Compile
import LiveMarkup.Proofs.Patch.Spells
import LiveMarkup.Proofs.Patch.SkipsLast
import LiveMarkup.Proofs.Patch.TopOpens
import LiveMarkup.Proofs.Patch.Verdict
import LiveMarkup.Proofs.Patch.Exposed
import LiveMarkup.Proofs.Patch.Recursion
import LiveMarkup.Proofs.Live.Lookup
import LiveMarkup.Proofs.Live.Links
import LiveMarkup.Proofs.Live.Invariant
import LiveMarkup.Proofs.Live.Issued
import LiveMarkup.Proofs.Live.History
import LiveMarkup.Proofs.Live.Serializable
import LiveMarkup.Proofs.Live.Zipper
import LiveMarkup.Proofs.Live.Simulation
import LiveMarkup.Proofs.Live.Content
import LiveMarkup.Proofs.Live.Replay
import LiveMarkup.Proofs.Live.Confined
import LiveMarkup.Proofs.Live.Success
import LiveMarkup.Proofs.Live.Verdict
import LiveMarkup.Proofs.Live.Acceptance
import LiveMarkup.Proofs.Live.Written
import LiveMarkup.Proofs.Live.ReadBack
import LiveMarkup.Proofs.Live.Retrace
import LiveMarkup.Proofs.Live.Rank
import LiveMarkup.Proofs.Live.Kept
import LiveMarkup.Proofs.Live.RoundTrip
import LiveMarkup.Proofs.Live.Frames
import LiveMarkup.Proofs.Live.Strays
import LiveMarkup.Proofs.Live.Capacity
import LiveMarkup.Proofs.Live.Renaming
import LiveMarkup.Proofs.Live.Rebuild
import LiveMarkup.Proofs.Live.Commute
import LiveMarkup.Proofs.Live.Refusals
import LiveMarkup.Proofs.Live.Completion
import LiveMarkup.Proofs.Live.Behind
import LiveMarkup.Proofs.Patch.Opaque
import LiveMarkup.Proofs.Live.Skipped
import LiveMarkup.Proofs.Patch.Freshness
import LiveMarkup.Proofs.Live.Append
import LiveMarkup.Proofs.Text.Digits
import LiveMarkup.Proofs.Text.Escape
import LiveMarkup.Proofs.Text.LineDiff
import LiveMarkup.Proofs.Markup.Fields
import LiveMarkup.Proofs.Leveled
import LiveMarkup.Proofs.Patch.Listing
import LiveMarkup.Proofs.Patch.Transcript
import LiveMarkup.Proofs.Live.Keyed
import LiveMarkup.Proofs.Live.Snapshot
import LiveMarkup.Proofs.Text.OneLine
import LiveMarkup.Proofs.Markup.Literal
import LiveMarkup.Proofs.Fragment.Outline
import LiveMarkup.Proofs.Loop
import LiveMarkup.Proofs.Live.Recursion
