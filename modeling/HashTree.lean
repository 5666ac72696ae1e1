import HashTree.Bytes.Hex
import HashTree.Digest.Notation
import HashTree.Error
import HashTree.Format.Encoding
import HashTree.Json.Text
import HashTree.Json.Canonical
import HashTree.Wire.Layout
import HashTree.Tree.Levels
import HashTree.Tree.Outline
import HashTree.Tree.Subtree
import HashTree.Tree.Form
import HashTree.Mapping.Value
import HashTree.Mapping.Canonical
import HashTree.Mapping.OfJson
import HashTree.Opening.Generate
import HashTree.Opening.Replay
import HashTree.Opening.Edit
import HashTree.Format.Load
import HashTree.Proofs.Format.Consistent
import HashTree.Proofs.Opening.Binding
import HashTree.Proofs.Opening.Dump
import HashTree.Proofs.Opening.Parse
import HashTree.Proofs.Tree.Halves
import HashTree.Proofs.Tree.Commitment
import HashTree.Proofs.Mapping.Untied
import HashTree.Proofs.Format.Grammar
import HashTree.Proofs.Format.Framing
import HashTree.Proofs.Format.Interchange
import HashTree.Proofs.Opening.Calls
import HashTree.Proofs.Opening.Rules
import HashTree.Proofs.Opening.Emission
import HashTree.Proofs.Opening.Spanned
import HashTree.Proofs.Opening.Sided
import HashTree.Proofs.Tree.Depth
import HashTree.Proofs.Opening.Compact
import HashTree.Proofs.Mapping.Greedy
import HashTree.Proofs.Mapping.Slots
import HashTree.Proofs.Mapping.Plain
import HashTree.Proofs.Tree.Slices
import HashTree.Proofs.Tree.LevelOrder
import HashTree.Proofs.Tree.Copied
import HashTree.Proofs.Tree.Outline
import HashTree.Proofs.Format.SelfDelimiting
import HashTree.Proofs.Wire.Turns
import HashTree.Proofs.Digest.Stream
import HashTree.Proofs.Tree.Equality
import HashTree.Proofs.Tree.Built
import HashTree.Proofs.Format.Reached
