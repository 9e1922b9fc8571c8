import PlaceIR.Build
import PlaceIR.Query
import PlaceIR.Session
import PlaceIR.Proofs.Align
import PlaceIR.Proofs.Block
import PlaceIR.Proofs.Decides
import PlaceIR.Proofs.Faults
import PlaceIR.Proofs.Known
import PlaceIR.Proofs.Report
import PlaceIR.Proofs.Ty.Parts
import PlaceIR.Proofs.Ty.Known
import PlaceIR.Proofs.Ty.Tuple
import PlaceIR.Proofs.Ty.Projection
import PlaceIR.Proofs.Expr.Parts
import PlaceIR.Proofs.Expr.Align
import PlaceIR.Proofs.Expr.Origin
import PlaceIR.Proofs.Expr.Validated
import PlaceIR.Proofs.Expr.Regularity
import PlaceIR.Proofs.Func.Walk
import PlaceIR.Proofs.Func.Order
import PlaceIR.Proofs.Func.Exploration
import PlaceIR.Proofs.Func.Acceptance
import PlaceIR.Proofs.Func.Validated
import PlaceIR.Proofs.Func.Storage
import PlaceIR.Proofs.Func.Stages
import PlaceIR.Proofs.Func.Held
import PlaceIR.Proofs.Func.OrderFree
import PlaceIR.Proofs.Func.Removal
import PlaceIR.Proofs.Func.Reasons
import PlaceIR.Proofs.Ty.Layout
import PlaceIR.Proofs.IntType
import PlaceIR.Proofs.Alike
import PlaceIR.Proofs.Expr.Realign
import PlaceIR.Proofs.Func.Pending
import PlaceIR.Proofs.Func.Realign
import PlaceIR.Proofs.Frame
import PlaceIR.Proofs.Ty.Context
import PlaceIR.Proofs.Log
import PlaceIR.Proofs.Ty.Widening
import PlaceIR.Proofs.Expr.Widening
import PlaceIR.Proofs.Func.Widening
import PlaceIR.Proofs.Ty.Count
import PlaceIR.Proofs.Restriction
import PlaceIR.Proofs.PowersOfTwo
import PlaceIR.Proofs.Relabel
import PlaceIR.Proofs.Func.Relabel
import PlaceIR.Proofs.Func.Naming
import PlaceIR.Proofs.Annotations
