import HintSchema.Number.Reading
import HintSchema.Request.Execution
import HintSchema.Schema.Document
import HintSchema.Proofs.Meaning
import HintSchema.Proofs.Dispatch
import HintSchema.Proofs.Nesting
import HintSchema.Proofs.Order
import HintSchema.Proofs.Inheritance
import HintSchema.Proofs.Linearization
import HintSchema.Proofs.Subclasses
import HintSchema.Proofs.Views
import HintSchema.Proofs.Conformity
import HintSchema.Proofs.Denotation
import HintSchema.Proofs.Courses
import HintSchema.Proofs.Termination
import HintSchema.Proofs.Transparency
import HintSchema.Proofs.Respelling
import HintSchema.Proofs.Trails
import HintSchema.Proofs.Matching
import HintSchema.Proofs.Lockstep
import HintSchema.Proofs.Redeclaring
import HintSchema.Proofs.Interchange
import HintSchema.Proofs.Preorder
import HintSchema.Proofs.Blame
import HintSchema.Proofs.Echo
import HintSchema.Proofs.Inhabitants
import HintSchema.Proofs.Unbounded
import HintSchema.Proofs.Unresolved
import HintSchema.Proofs.Omission
import HintSchema.Proofs.Arguments
import HintSchema.Proofs.Productions
import HintSchema.Proofs.Printing
import HintSchema.Proofs.Extension
import HintSchema.Proofs.Erasure
import HintSchema.Proofs.Canonicity
import HintSchema.Proofs.Congruence
import HintSchema.Proofs.Attribution
import HintSchema.Proofs.Listing
import HintSchema.Proofs.Privacy
import HintSchema.Proofs.WireForms
import HintSchema.Proofs.Serialization
import HintSchema.Proofs.Enumerations
import HintSchema.Proofs.UnionLaws
import HintSchema.Proofs.Misquoted
