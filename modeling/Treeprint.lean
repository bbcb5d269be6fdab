import Treeprint.Datum.Feed
import Treeprint.Datum.Inspect
import Treeprint.Interner.Pool
import Treeprint.Interner.Request
import Treeprint.Printer.Render
import Treeprint.Printer.Session
import Treeprint.Wire.Tree
import Treeprint.Proofs.Induction
import Treeprint.Proofs.Wire.Layout
import Treeprint.Proofs.Wire.Reads
import Treeprint.Proofs.Wire.RoundTrip
import Treeprint.Proofs.Wire.Spelling
import Treeprint.Proofs.Wire.Truncation
import Treeprint.Proofs.Printer.Canonical
import Treeprint.Proofs.Bare
import Treeprint.Proofs.Rewriting
import Treeprint.Proofs.Interner.Tables
import Treeprint.Proofs.Reading.Scan
import Treeprint.Proofs.Reading.Expression
import Treeprint.Proofs.Reading.Unique
import Treeprint.Proofs.Reading.Operators
import Treeprint.Proofs.Interner.Linearizable
import Treeprint.Proofs.Printer.Frame
import Treeprint.Proofs.Printer.Foreign
import Treeprint.Proofs.Reading.Pattern
import Treeprint.Proofs.Printer.Normal
import Treeprint.Proofs.Printer.Lines
import Treeprint.Proofs.Printer.Renaming
import Treeprint.Proofs.Printer.Grouping
import Treeprint.Proofs.Reading.Blocks
import Treeprint.Proofs.Interner.Parallel
import Treeprint.Proofs.Printer.Events
import Treeprint.Proofs.Discerning
import Treeprint.Proofs.Wire.SameBytes
import Treeprint.Proofs.Equality
import Treeprint.Proofs.Printer.Sessions
import Treeprint.Proofs.Printer.LineEnds
import Treeprint.Proofs.Reading.Quoted
import Treeprint.Proofs.Interner.Exhaustion
import Treeprint.Proofs.WrittenLists
import Treeprint.Proofs.Wire.Descent
import Treeprint.Proofs.CompactText
import Treeprint.Proofs.Decimal.Whole
import Treeprint.Proofs.Printer.Wildcard
import Treeprint.Proofs.Printer.Paths
