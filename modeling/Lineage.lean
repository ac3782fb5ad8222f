import Lineage.Record.Json
import Lineage.Tree.Json
import Lineage.Hive.Reader
import Lineage.Sql.Visit
import Lineage.Script
import Lineage.Settings.Reader
import Lineage.Main
import Lineage.Files.Disk
import Lineage.Proofs.Walk.Refinement
import Lineage.Proofs.Plan.Placed
import Lineage.Proofs.Plan.References
import Lineage.Proofs.Plan.Sources
import Lineage.Proofs.Walk.Capture
import Lineage.Proofs.Walk.Shift
import Lineage.Proofs.Walk.Leaks
import Lineage.Proofs.Walk.Isolation
import Lineage.Proofs.Plan.Uses
import Lineage.Proofs.Plan.Listing
import Lineage.Proofs.Plan.Tables
import Lineage.Proofs.Plan.Targets
import Lineage.Proofs.Script
import Lineage.Proofs.Plan.Behind
import Lineage.Proofs.Plan.Overlooked
import Lineage.Proofs.Walk.Emission
import Lineage.Proofs.Walk.Rearranged
import Lineage.Proofs.Walk.Renaming
import Lineage.Proofs.Hive.Grammar
import Lineage.Proofs.Walk.Numbered
import Lineage.Proofs.Walk.Rewritten
import Lineage.Proofs.Hive.Layout
import Lineage.Proofs.Outline
import Lineage.Proofs.Hive.Dump
import Lineage.Proofs.Hive.Forms
import Lineage.Proofs.Json.Strings
import Lineage.Proofs.Json.Records
import Lineage.Proofs.Record.Obtained
import Lineage.Proofs.Command.Directory
import Lineage.Proofs.Plan.Aliases
import Lineage.Proofs.Walk.Unblocked
import Lineage.Proofs.Sql.Location
import Lineage.Proofs.Hive.LineNumbers
import Lineage.Proofs.Plan.MadeRecursive
import Lineage.Proofs.Plan.SelfReference
import Lineage.Proofs.Walk.OwnName
import Lineage.Proofs.Record.Merge
import Lineage.Proofs.Scope.Checked
import Lineage.Proofs.Scope.History
import Lineage.Proofs.Walk.Checked
import Lineage.Proofs.Walk.Bounded
import Lineage.Proofs.Script.Places
import Lineage.Proofs.Plan.Outermost
import Lineage.Proofs.Hive.LeadingBlanks
import Lineage.Proofs.Hive.Calls
