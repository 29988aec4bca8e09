import TreePickle.Document
import TreePickle.Pickle.Attributes
import TreePickle.Pickle.Basic
import TreePickle.Ty.Lambda
import TreePickle.Ty.Visit
import TreePickle.Writer
import TreePickle.Proofs.Reading
import TreePickle.Proofs.Repetition
import TreePickle.Proofs.Numeral
import TreePickle.Proofs.ExactNumber
import TreePickle.Proofs.Canonical
import TreePickle.Proofs.Outcome
import TreePickle.Proofs.Window
import TreePickle.Proofs.Bounds
import TreePickle.Proofs.Writing
import TreePickle.Proofs.FileForm
import TreePickle.Proofs.Grammar
import TreePickle.Proofs.Layout
import TreePickle.Proofs.RoundTrip
import TreePickle.Proofs.WellFormed
import TreePickle.Proofs.RecordLength
import TreePickle.Proofs.AttributeItems
import TreePickle.Proofs.FileParts
import TreePickle.Proofs.SectionIndex
import TreePickle.Proofs.Truncation
import TreePickle.Proofs.Overwriting
import TreePickle.Proofs.Compatibility
import TreePickle.Proofs.Faults
import TreePickle.Proofs.Rebuilding
import TreePickle.Proofs.Visiting
import TreePickle.Proofs.Parameters
import TreePickle.Proofs.Substitution
import TreePickle.Proofs.FreshCopy
import TreePickle.Proofs.Occurrences
import TreePickle.Proofs.Capture
import TreePickle.Proofs.References
import TreePickle.Proofs.MissingReplacement
import TreePickle.Proofs.Rebinding
import TreePickle.Proofs.Freshness
import TreePickle.Proofs.Dotted
import TreePickle.Proofs.Markers
import TreePickle.Proofs.EntryNumbers
import TreePickle.Proofs.WrittenSize
import TreePickle.Proofs.Recording
import TreePickle.Proofs.StoredNames
