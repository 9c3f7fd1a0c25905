import Deduction.Env.Basic
import Deduction.Env.Learning
import Deduction.Env.Scoping
import Deduction.Expansion
import Deduction.Fault
import Deduction.Goal
import Deduction.Host
import Deduction.Host.Integer
import Deduction.Host.Script
import Deduction.Matching
import Deduction.Payload
import Deduction.Proofs.Addition
import Deduction.Proofs.Alike
import Deduction.Proofs.Answer
import Deduction.Proofs.Assignment
import Deduction.Proofs.Blame
import Deduction.Proofs.Chain
import Deduction.Proofs.Commuting
import Deduction.Proofs.Completeness
import Deduction.Proofs.Computing
import Deduction.Proofs.Conjuncts
import Deduction.Proofs.Consequence
import Deduction.Proofs.Declaring
import Deduction.Proofs.Definite
import Deduction.Proofs.Enlarging
import Deduction.Proofs.Equations
import Deduction.Proofs.Evaluation
import Deduction.Proofs.Explanation
import Deduction.Proofs.Flattening
import Deduction.Proofs.Footprint
import Deduction.Proofs.Framing
import Deduction.Proofs.Growth
import Deduction.Proofs.InStep
import Deduction.Proofs.Join
import Deduction.Proofs.Judging
import Deduction.Proofs.Labelling
import Deduction.Proofs.Learning
import Deduction.Proofs.Lifting
import Deduction.Proofs.Listing
import Deduction.Proofs.MostGeneral
import Deduction.Proofs.Naturals
import Deduction.Proofs.Occurrence
import Deduction.Proofs.Pulling
import Deduction.Proofs.Quieting
import Deduction.Proofs.Reachable
import Deduction.Proofs.Relearning
import Deduction.Proofs.Renaming
import Deduction.Proofs.Reordering
import Deduction.Proofs.Representing
import Deduction.Proofs.Restoring
import Deduction.Proofs.Returning
import Deduction.Proofs.Simplifying
import Deduction.Proofs.Solution
import Deduction.Proofs.Soundness
import Deduction.Proofs.Sparing
import Deduction.Proofs.Straight
import Deduction.Proofs.Trace
import Deduction.Proofs.Unfolding
import Deduction.Proofs.Unification
import Deduction.Proofs.Unnesting
import Deduction.Proofs.Update
import Deduction.Proofs.Valuation
import Deduction.Proofs.Variants
import Deduction.Proofs.Ways
import Deduction.Proofs.WellFormed
import Deduction.Proofs.Wrapping
import Deduction.Resolution
import Deduction.Rule
import Deduction.Sample.Arithmetic
import Deduction.Sample.Family
import Deduction.Search
import Deduction.Term
import Deduction.Text.Quoted
import Deduction.Text.Unprintable
import Deduction.VarMap
import Deduction.Variable
