import MarkupPath.Access.Session
import MarkupPath.Document.Basic
import MarkupPath.Edit.Additions
import MarkupPath.Proofs.Editing.Additions
import MarkupPath.Proofs.Editing.Agreement
import MarkupPath.Proofs.Editing.Assignment
import MarkupPath.Proofs.Editing.Creation
import MarkupPath.Proofs.Editing.Fulfilment
import MarkupPath.Proofs.Editing.Idempotence
import MarkupPath.Proofs.Editing.Membership
import MarkupPath.Proofs.Editing.Monotonicity
import MarkupPath.Proofs.Editing.Neighbours
import MarkupPath.Proofs.Editing.Noninterference
import MarkupPath.Proofs.Editing.Refusals
import MarkupPath.Proofs.Editing.Withdrawal
import MarkupPath.Proofs.Path.Compilation
import MarkupPath.Proofs.Path.Continuation
import MarkupPath.Proofs.Path.Division
import MarkupPath.Proofs.Path.Enclosure
import MarkupPath.Proofs.Path.PathText
import MarkupPath.Proofs.Path.Problems
import MarkupPath.Proofs.Path.Slashes
import MarkupPath.Proofs.Path.Unterminated
import MarkupPath.Proofs.Path.WellFormed
import MarkupPath.Proofs.Search.Accounting
import MarkupPath.Proofs.Search.Bindings
import MarkupPath.Proofs.Search.DocumentOrder
import MarkupPath.Proofs.Search.Laziness
import MarkupPath.Proofs.Search.Levels
import MarkupPath.Proofs.Search.Listing
import MarkupPath.Proofs.Search.Namesakes
import MarkupPath.Proofs.Search.Slots
import MarkupPath.Proofs.Search.Traversal
import MarkupPath.Proofs.Search.Visits
import MarkupPath.Query.Enumeration
import MarkupPath.Query.Iterator
import MarkupPath.Query.Lookup
