import FlatJson.Report
import FlatJson.Session
import FlatJson.Proofs.Equality
import FlatJson.Proofs.Reprinting
import FlatJson.Proofs.Truncation
import FlatJson.Proofs.DepthLimit
import FlatJson.Proofs.LoneSurrogates
import FlatJson.Proofs.Cutting
import FlatJson.Proofs.BoundedWindow
import FlatJson.Proofs.FittingArrays
import FlatJson.Proofs.Accounts
import FlatJson.Proofs.Returns
import FlatJson.Proofs.EstimateBounds
import FlatJson.Proofs.Reservation
import FlatJson.Proofs.ValueEnds
import FlatJson.Proofs.CompleteParts
import FlatJson.Proofs.Growth
import FlatJson.Proofs.Lines
import FlatJson.Proofs.Integers
import FlatJson.Proofs.Saturation
import FlatJson.Proofs.CodeUnits
import FlatJson.Proofs.Walking
import FlatJson.Proofs.OpenContainers
