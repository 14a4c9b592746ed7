import ChomskyChart.Grammar.Reader
import ChomskyChart.Grammar.Printer
import ChomskyChart.Grammar.Language
import ChomskyChart.Chart.Report
import ChomskyChart.Chart.Recognition
import ChomskyChart.Forest.Report
import ChomskyChart.Kept.Recognition
import ChomskyChart.Workspace
import ChomskyChart.Proofs.Chart.Correctness
import ChomskyChart.Proofs.Chart.Entries
import ChomskyChart.Proofs.Chart.Filling
import ChomskyChart.Proofs.Chart.Packing
import ChomskyChart.Proofs.Forest.Count
import ChomskyChart.Proofs.Forest.FirstTree
import ChomskyChart.Proofs.Forest.Number
import ChomskyChart.Proofs.Forest.Trees
import ChomskyChart.Proofs.Grammar.NewNames
import ChomskyChart.Proofs.Grammar.Occurrences
import ChomskyChart.Proofs.Grammar.Saturation
import ChomskyChart.Proofs.Grammar.Search
import ChomskyChart.Proofs.Grammar.SearchRuns
import ChomskyChart.Proofs.Kept.BackPointers
import ChomskyChart.Proofs.Kept.CanonicalTree
import ChomskyChart.Proofs.Kept.Forests
import ChomskyChart.Proofs.Kept.History
import ChomskyChart.Proofs.Kept.Membership
import ChomskyChart.Proofs.Kept.OldNames
import ChomskyChart.Proofs.Kept.Safety
import ChomskyChart.Proofs.Kept.Unchecked
import ChomskyChart.Proofs.Language.Counters
import ChomskyChart.Proofs.Language.DerivationTrees
import ChomskyChart.Proofs.Language.Extension
import ChomskyChart.Proofs.Language.Generating
import ChomskyChart.Proofs.Language.Multiplicity
import ChomskyChart.Proofs.Language.Naming
import ChomskyChart.Proofs.Language.NormalShape
import ChomskyChart.Proofs.Language.Reading
import ChomskyChart.Proofs.Language.Rewriting
import ChomskyChart.Proofs.NormalForm.Ambiguity
import ChomskyChart.Proofs.NormalForm.Binary
import ChomskyChart.Proofs.NormalForm.Epsilon
import ChomskyChart.Proofs.NormalForm.Idempotence
import ChomskyChart.Proofs.NormalForm.Lockstep
import ChomskyChart.Proofs.NormalForm.Normalize
import ChomskyChart.Proofs.NormalForm.Readings
import ChomskyChart.Proofs.NormalForm.Repetition
import ChomskyChart.Proofs.NormalForm.StartSymbol
import ChomskyChart.Proofs.NormalForm.Survivors
import ChomskyChart.Proofs.NormalForm.Terminals
import ChomskyChart.Proofs.NormalForm.Unchanged
import ChomskyChart.Proofs.NormalForm.Units
import ChomskyChart.Proofs.NormalForm.Useful
import ChomskyChart.Proofs.NormalForm.Useless
import ChomskyChart.Proofs.Grammar.NameRuns
import ChomskyChart.Proofs.Kept.Declaration
import ChomskyChart.Proofs.Chart.Places
import ChomskyChart.Proofs.Grammar.RuleText
import ChomskyChart.Proofs.NormalForm.Variants
import ChomskyChart.Proofs.Kept.PrintedRules
import ChomskyChart.Proofs.NormalForm.StandInRuns
import ChomskyChart.Proofs.NormalForm.CuttingRuns
