import ParserChain.Compilation
import ParserChain.Program.Edit
import ParserChain.Program.Export
import ParserChain.Program.Listing
import ParserChain.Program.Run
import ParserChain.Proofs.Character
import ParserChain.Proofs.Consumption
import ParserChain.Proofs.Correctness
import ParserChain.Proofs.Damage
import ParserChain.Proofs.ExportText
import ParserChain.Proofs.FixedWidth
import ParserChain.Proofs.Fusion
import ParserChain.Proofs.Hygiene
import ParserChain.Proofs.Message
import ParserChain.Proofs.MovementLaws
import ParserChain.Proofs.Refusal
import ParserChain.Proofs.Regrouping
import ParserChain.Proofs.Resolution
import ParserChain.Proofs.StackDiscipline
import ParserChain.Proofs.QuotedText
import ParserChain.Proofs.Clause
import ParserChain.Proofs.NameText
import ParserChain.Proofs.PatternText
import ParserChain.Proofs.Trace
import ParserChain.Proofs.BodyText
import ParserChain.Proofs.ListingText
import ParserChain.Proofs.ListingLines
