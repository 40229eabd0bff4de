import Descent.Script.Session
import Descent.Peg.Derives
import Descent.Peg.WellFormed
import Descent.Grammars.Markup
import Descent.Grammars.Nesting
import Descent.Grammars.Numeral
import Descent.Proofs.Remainders
import Descent.Proofs.Markup
import Descent.Proofs.Repetition
import Descent.Proofs.Alternatives
import Descent.Proofs.Faults
import Descent.Proofs.Deferral
import Descent.Proofs.Sequences
import Descent.Proofs.Peg.Adequacy
import Descent.Proofs.Peg.Termination
import Descent.Proofs.Commitment
import Descent.Proofs.Construction
import Descent.Recipe.Places
import Descent.Proofs.Observation
import Descent.Proofs.Currying
import Descent.Proofs.Brackets
import Descent.Proofs.Lexemes
import Descent.Proofs.Unrolling
import Descent.Proofs.Spacing
import Descent.Proofs.Consumption
import Descent.Proofs.Standstill
import Descent.Proofs.Possession
import Descent.Proofs.Scanning
import Descent.Proofs.Nesting
import Descent.Proofs.Literals
import Descent.Proofs.Precedence
import Descent.Proofs.WholeTexts
import Descent.Proofs.Application
import Descent.Proofs.Naturality
import Descent.Proofs.Lossless
import Descent.Proofs.Numerals
import Descent.Proofs.Quotation
