import ScriptLang.Main
import ScriptLang.Proofs.Grammar.Replies
import ScriptLang.Proofs.Grammar.Expressions
import ScriptLang.Proofs.Grammar.Statements
import ScriptLang.Proofs.Grammar.Begins
import ScriptLang.Proofs.Grammar.Completeness
import ScriptLang.Proofs.Grammar.Recognition
import ScriptLang.Proofs.Frames.Assignments
import ScriptLang.Proofs.Joining.Scripts
import ScriptLang.Proofs.Lexing.Scanner
import ScriptLang.Proofs.Loops.Runs
import ScriptLang.Proofs.Matching.Rejections
import ScriptLang.Proofs.Numbering.References
import ScriptLang.Proofs.Output
import ScriptLang.Proofs.Reach.Chains
import ScriptLang.Proofs.Renaming.Locals
import ScriptLang.Proofs.Scoping.Violations
import ScriptLang.Proofs.Soundness.Scripts
import ScriptLang.Proofs.Lexing.Decoding
import ScriptLang.Proofs.Lexing.Lexemes
import ScriptLang.Proofs.Reading.Kinship
import ScriptLang.Proofs.Reading.Progress
import ScriptLang.Proofs.Reading.Contexts
import ScriptLang.Proofs.Reading.Merging
import ScriptLang.Proofs.Reading.Semicolons
import ScriptLang.Proofs.Reading.Recovery
import ScriptLang.Proofs.Reach.Lookups
import ScriptLang.Proofs.Numbers.Printing
import ScriptLang.Proofs.Objects.Properties
import ScriptLang.Proofs.Printing.Trees
