import TreeDelta.CommandLine.Argument
import TreeDelta.CommandLine.Run
import TreeDelta.CommandLine.World
import TreeDelta.Diff.Change
import TreeDelta.Diff.Changeset
import TreeDelta.Diff.Config
import TreeDelta.Diff.Leaf
import TreeDelta.Diff.Patch
import TreeDelta.Expression.Parse
import TreeDelta.Expression.Token
import TreeDelta.Json.Read
import TreeDelta.Json.Write
import TreeDelta.Main
import TreeDelta.Number.Binary64
import TreeDelta.Number.Shortest
import TreeDelta.Path.Basic
import TreeDelta.Pattern.Basic
import TreeDelta.Projection.Basic
import TreeDelta.Projection.Clone
import TreeDelta.Proofs.Diff.Changeset
import TreeDelta.Proofs.Diff.Filter
import TreeDelta.Proofs.Diff.Ignore
import TreeDelta.Proofs.Diff.Influence
import TreeDelta.Proofs.Diff.Leaf
import TreeDelta.Proofs.Diff.Patch
import TreeDelta.Proofs.Diff.Reached
import TreeDelta.Proofs.Diff.Standing
import TreeDelta.Proofs.Diff.Subtree
import TreeDelta.Proofs.Diff.Symmetry
import TreeDelta.Proofs.Diff.Triangle
import TreeDelta.Proofs.Diff.View
import TreeDelta.Proofs.Diff.Whole
import TreeDelta.Proofs.Expression.Dialect
import TreeDelta.Proofs.Expression.Grammar
import TreeDelta.Proofs.Expression.Lexeme
import TreeDelta.Proofs.Expression.Limit
import TreeDelta.Proofs.Expression.Literal
import TreeDelta.Proofs.Expression.Render
import TreeDelta.Proofs.Expression.Respelling
import TreeDelta.Proofs.Expression.Scan
import TreeDelta.Proofs.Expression.Viable
import TreeDelta.Proofs.Forall2
import TreeDelta.Proofs.Json.Read
import TreeDelta.Proofs.Outcome
import TreeDelta.Proofs.Path.Same
import TreeDelta.Proofs.Pattern.Cover
import TreeDelta.Proofs.Projection.Clone
import TreeDelta.Proofs.Projection.Copy
import TreeDelta.Proofs.Projection.Exclude
import TreeDelta.Proofs.Projection.Gap
import TreeDelta.Proofs.Projection.KeyList
import TreeDelta.Proofs.Projection.Retain
import TreeDelta.Proofs.Report.Balance
import TreeDelta.Proofs.Report.Colour
import TreeDelta.Proofs.Report.Layout
import TreeDelta.Proofs.Report.Mark
import TreeDelta.Proofs.Report.Tally
import TreeDelta.Proofs.Settings.Files
import TreeDelta.Proofs.Settings.Merge
import TreeDelta.Proofs.Settings.Precedence
import TreeDelta.Proofs.Text.JsonString
import TreeDelta.Proofs.Text.Numeral
import TreeDelta.Proofs.Text.Row
import TreeDelta.Proofs.Text.Spelling
import TreeDelta.Proofs.Tree.Deletion
import TreeDelta.Proofs.Tree.Edit
import TreeDelta.Proofs.Tree.Fit
import TreeDelta.Proofs.Tree.Frame
import TreeDelta.Proofs.Tree.Hole
import TreeDelta.Proofs.Tree.LastWrite
import TreeDelta.Proofs.Tree.NoEffect
import TreeDelta.Proofs.Tree.Node
import TreeDelta.Proofs.Tree.Order
import TreeDelta.Proofs.Tree.Part
import TreeDelta.Proofs.Tree.Plain
import TreeDelta.Proofs.Tree.Prune
import TreeDelta.Proofs.Tree.Reach
import TreeDelta.Proofs.Tree.Search
import TreeDelta.Proofs.Tree.Write
import TreeDelta.Proofs.Value.Equality
import TreeDelta.Proofs.Value.Key
import TreeDelta.Proofs.Version.Collect
import TreeDelta.Proofs.Version.Read
import TreeDelta.Proofs.Version.Recover
import TreeDelta.Proofs.Version.Touch
import TreeDelta.Proofs.Version.Undisturbed
import TreeDelta.Report.Layout
import TreeDelta.Report.Print
import TreeDelta.Report.Timestamp
import TreeDelta.Settings.Document
import TreeDelta.Settings.Merge
import TreeDelta.Settings.Schema
import TreeDelta.Text.Blank
import TreeDelta.Text.Digit
import TreeDelta.Text.JsonString
import TreeDelta.Text.Line
import TreeDelta.Text.Printable
import TreeDelta.Text.Quoted
import TreeDelta.Tree.Access
import TreeDelta.Tree.Search
import TreeDelta.Value.Basic
import TreeDelta.Value.Component
import TreeDelta.Value.Equality
import TreeDelta.Value.Literal
import TreeDelta.Value.Order
import TreeDelta.Version

/-!
# Differences between trees

A library about trees of JSON-like values, with the theory of it: paths and patterns that name
places of a tree, the leaves and the changes between two trees, patches that turn one tree into the
other, projections that keep or drop parts of a tree, versions that keep track of changes, reports
of all these for reading, settings files, and the commands of a program.

The modules directly under `TreeDelta` hold the definitions that run. What is proved about them is
in `TreeDelta.Proofs`, in modules that are named for what they are about. A proof module starts with
what it needs of the definitions, one small lemma after the other, and ends with its main results.

## The layers

* `TreeDelta.Text`, `TreeDelta.Number`: characters, quoted strings, digits, and floating point
  numbers as texts.
* `TreeDelta.Value`, `TreeDelta.Path`, `TreeDelta.Pattern`: values, places and sets of places.
* `TreeDelta.Expression`: paths and patterns as texts.
* `TreeDelta.Tree`: reading, searching and editing a tree.
* `TreeDelta.Diff`, `TreeDelta.Projection`, `TreeDelta.Version`: what is done with two trees or one.
* `TreeDelta.Json`, `TreeDelta.Report`: documents and reports.
* `TreeDelta.Settings`, `TreeDelta.CommandLine`, `TreeDelta.Main`: the program around it.

Code that the program only uses, and that is not its own, is a parameter where it matters: the
library that loads settings files (`Settings.Loader`) and the one that checks options
(`Settings.Checks`). The interpreter's guard against long numerals is a number of digits.
-/
