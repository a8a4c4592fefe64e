import MapExpr.Proofs.Descent.Safety
import MapExpr.Proofs.Log
import MapExpr.Proofs.Operators.Joined
import MapExpr.Proofs.Parse.Account
import MapExpr.Proofs.Parse.DoubleIndex
import MapExpr.Proofs.Parse.FirstFault
import MapExpr.Proofs.Parse.Located
import MapExpr.Proofs.Parse.Moved
import MapExpr.Proofs.Parse.Prefix
import MapExpr.Proofs.Parse.Raised
import MapExpr.Proofs.Print.Faithful
import MapExpr.Proofs.Token.Calls
import MapExpr.Proofs.Token.Locality
import MapExpr.Reread
import MapExpr.Settings.Json
