import ConceptForest.Main
import ConceptForest.Proofs.Forest.Grouping
import ConceptForest.Proofs.Forest.Lineage
import ConceptForest.Proofs.Forest.Requests
import ConceptForest.Proofs.Session.Lines
import ConceptForest.Proofs.Forest.Lifts
import ConceptForest.Proofs.Forest.Cousins
import ConceptForest.Proofs.Forest.Parts
import ConceptForest.Proofs.Forest.Regrouping
import ConceptForest.Proofs.Forest.LiftedParts
import ConceptForest.Proofs.Forest.Spelling
import ConceptForest.Proofs.Session.Binding
import ConceptForest.Proofs.Grammar.Yields
import ConceptForest.Proofs.Grammar.Cuts
import ConceptForest.Proofs.Grammar.Places
import ConceptForest.Proofs.Script.FreeNames
import ConceptForest.Proofs.Session.Entering
import ConceptForest.Proofs.Grammar.Joining
import ConceptForest.Proofs.Session.Joining
import ConceptForest.Proofs.Forest.Layout
import ConceptForest.Proofs.Forest.Refusals
import ConceptForest.Proofs.Session.Identities
import ConceptForest.Proofs.Forest.Excluding
import ConceptForest.Proofs.Grammar.Retyping
import ConceptForest.Proofs.Session.Reentering
import ConceptForest.Proofs.Console.Prompts
import ConceptForest.Proofs.Forest.Associations
import ConceptForest.Proofs.Forest.Preorder
import ConceptForest.Proofs.Forest.Uppermost
import ConceptForest.Proofs.Forest.Bindings
import ConceptForest.Proofs.Forest.Judging
import ConceptForest.Proofs.Forest.Repairing
import ConceptForest.Proofs.Expansion.Flattening
import ConceptForest.Proofs.Expansion.Readings
import ConceptForest.Proofs.Forest.Likeness
import ConceptForest.Proofs.Forest.Renaming
import ConceptForest.Proofs.Forest.Words
import ConceptForest.Proofs.Forest.Traversals
import ConceptForest.Proofs.Forest.Reaching
import ConceptForest.Proofs.Forest.Effects
import ConceptForest.Proofs.Script.Scanning
import ConceptForest.Proofs.Script.TokenLayout
import ConceptForest.Proofs.Script.Extending
import ConceptForest.Proofs.Script.Registering
import ConceptForest.Proofs.Grammar.Dedenting
import ConceptForest.Proofs.Script.Passing.Heights
import ConceptForest.Proofs.Script.Parser.Orderly
import ConceptForest.Proofs.Script.Parser.Resolution
import ConceptForest.Proofs.Script.Respacing
import ConceptForest.Proofs.Script.Fields
