import ComplexAlgebra.Main
import ComplexAlgebra.Proofs.PartialEvaluation
import ComplexAlgebra.Proofs.Composition
import ComplexAlgebra.Proofs.Decision
import ComplexAlgebra.Proofs.ViablePrefix
import ComplexAlgebra.Proofs.Idempotence
import ComplexAlgebra.Proofs.PrincipalPower
import ComplexAlgebra.Proofs.Rereading
import ComplexAlgebra.Proofs.ExactReading
import ComplexAlgebra.Proofs.MaximalMunch
import ComplexAlgebra.Proofs.Spacing
import ComplexAlgebra.Proofs.ErrorPosition
import ComplexAlgebra.Proofs.WholeNumbers
import ComplexAlgebra.Proofs.NumberText
import ComplexAlgebra.Proofs.Lookahead
import ComplexAlgebra.Proofs.RootCircle
import ComplexAlgebra.Proofs.DecimalPlaces
import ComplexAlgebra.Proofs.Overflow
import ComplexAlgebra.Proofs.Termination
