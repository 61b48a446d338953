import PatternText.Main
import PatternText.Proofs.Boundaries
import PatternText.Proofs.CommandLine.LineMode
import PatternText.Proofs.Escape.Overlap
import PatternText.Proofs.Journal
import PatternText.Proofs.Pattern.BraceAccount
import PatternText.Proofs.Pattern.BraceRules
import PatternText.Proofs.Pattern.ClassParts
import PatternText.Proofs.Pattern.GlobMeaning
import PatternText.Proofs.Text.Order
import PatternText.Proofs.Token.Variants
