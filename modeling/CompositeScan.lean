import CompositeScan.Json.Codec
import CompositeScan.Proofs.Domain.Characters
import CompositeScan.Proofs.Domain.Numeral
import CompositeScan.Proofs.Key.Difference
import CompositeScan.Proofs.Reader.Coherence
import CompositeScan.Proofs.Scan.Foreign
import CompositeScan.Proofs.Scan.Fork
import CompositeScan.Proofs.Scan.Legacy
import CompositeScan.Proofs.Scan.Progress
import CompositeScan.Proofs.Scan.Split
import CompositeScan.Proofs.Selection.Contradiction
import CompositeScan.Proofs.Selection.Defect
import CompositeScan.Proofs.Selection.Exact
import CompositeScan.Proofs.Selection.Implied
import CompositeScan.Proofs.Selection.Normal
import CompositeScan.Proofs.Selection.Passing
import CompositeScan.Proofs.Selection.Tight
import CompositeScan.Proofs.Store.Enumerate
import CompositeScan.Scan.Describe
