import SignedPrefixes.Content.Raw
import SignedPrefixes.Json.Forms
import SignedPrefixes.Merge.Table
import SignedPrefixes.Proofs.Address
import SignedPrefixes.Proofs.Positional
import SignedPrefixes.Record.Processing
import SignedPrefixes.Record.Wire
import SignedPrefixes.Merge.History
import SignedPrefixes.Proofs.Merge.Union
import SignedPrefixes.Merge.InPlace
import SignedPrefixes.Proofs.Merge.InPlace
import SignedPrefixes.Proofs.Merge.Table
import SignedPrefixes.Proofs.Merge.Ledger
import SignedPrefixes.Proofs.Ber.Input
import SignedPrefixes.Proofs.Ber.Minimal
import SignedPrefixes.Proofs.Ber.Reader
import SignedPrefixes.Proofs.Ber.Header
import SignedPrefixes.Proofs.Ber.Value
import SignedPrefixes.Proofs.Ber.Primitive
import SignedPrefixes.Proofs.Prefix
import SignedPrefixes.Misuse
import SignedPrefixes.PrefixWords
import SignedPrefixes.Content.Guarded
import SignedPrefixes.Record.Guarded
import SignedPrefixes.Proofs.PrefixWords
import SignedPrefixes.Proofs.Content.Accepted
import SignedPrefixes.Proofs.Content.Canonical
import SignedPrefixes.Proofs.Content.Outcome
import SignedPrefixes.Proofs.Content.RoundTrip
import SignedPrefixes.Proofs.Record.Produced
import SignedPrefixes.Proofs.Merge.Merged
import SignedPrefixes.Proofs.Record.Fields
import SignedPrefixes.Proofs.Record.Transport
import SignedPrefixes.Proofs.Merge.Reordered
import SignedPrefixes.Proofs.Content.Grammar
import SignedPrefixes.Proofs.Content.FirstFault
import SignedPrefixes.Proofs.Ber.Lenient
import SignedPrefixes.Proofs.Content.Lenient
import SignedPrefixes.Proofs.Ber.Local
import SignedPrefixes.Proofs.Ber.LocalValue
import SignedPrefixes.Proofs.Content.PrefixFree
import SignedPrefixes.Proofs.Record.Invariant
import SignedPrefixes.Proofs.Record.Steps
import SignedPrefixes.Proofs.Record.FirstRejection
import SignedPrefixes.Proofs.Merge.Transferred
import SignedPrefixes.Proofs.PrefixCodec
import SignedPrefixes.Proofs.Record.Guarded
import SignedPrefixes.Proofs.Ber.Parallel
import SignedPrefixes.Proofs.Content.Guarded
import SignedPrefixes.Proofs.Text.Numeral
import SignedPrefixes.Proofs.Text.Boundary
import SignedPrefixes.Proofs.Text.Asn
import SignedPrefixes.Proofs.Text.Joined
import SignedPrefixes.Proofs.Text.Ipv4
import SignedPrefixes.Proofs.Text.ZeroRun
import SignedPrefixes.Proofs.Text.Ipv6
import SignedPrefixes.Proofs.IpAddress
import SignedPrefixes.Proofs.Text.Prefix
import SignedPrefixes.Content.Families
import SignedPrefixes.Proofs.Content.Families
import SignedPrefixes.Proofs.PrefixRange
import SignedPrefixes.Proofs.PrefixOrder
import SignedPrefixes.Proofs.Calendar
import SignedPrefixes.Proofs.Time
import SignedPrefixes.Proofs.Text.Time
import SignedPrefixes.Proofs.Merge.Exchanged
import SignedPrefixes.Proofs.Merge.Expiry
import SignedPrefixes.Proofs.Ber.Narrow
import SignedPrefixes.Proofs.Content.Ceiling
