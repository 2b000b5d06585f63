import BraceLang.Cli
import BraceLang.Main
import BraceLang.Proofs.Grammar.Shape
import BraceLang.Proofs.Grammar.Construct
import BraceLang.Proofs.Grammar.Program
import BraceLang.Proofs.Grammar.Attempt
import BraceLang.Proofs.Grammar.Recovery
import BraceLang.Proofs.Grammar.Seam
import BraceLang.Proofs.Grammar.Containment
import BraceLang.Proofs.Lexer.NumeralForm
import BraceLang.Proofs.Lexer.Segmentation
import BraceLang.Proofs.Lexer.Boundary
import BraceLang.Proofs.Lexer.Concatenation
import BraceLang.Proofs.Parser.Calls
import BraceLang.Proofs.Lexer.Spelling
import BraceLang.Proofs.Source.Writing
import BraceLang.Proofs.Lexer.BreakOff
import BraceLang.Proofs.Text.Place
import BraceLang.Proofs.Report.Caret
import BraceLang.Proofs.Parser.Discipline
import BraceLang.Proofs.Grammar.Relabel
import BraceLang.Proofs.Parser.Labels
import BraceLang.Proofs.Parser.Blame
import BraceLang.Proofs.Source.Beginning
import BraceLang.Proofs.Source.Filename
import BraceLang.Proofs.Cli.Arguments
import BraceLang.Proofs.Cli.Script
import BraceLang.Proofs.Lexer.Offsets
import BraceLang.Proofs.Lexer.FirstBreak
import BraceLang.Proofs.Lexer.Quotes
import BraceLang.Proofs.Cli.Prompt
import BraceLang.Proofs.Grammar.Ending
import BraceLang.Proofs.Parser.Behind
import BraceLang.Proofs.Grammar.LastToken
import BraceLang.Proofs.Parser.LastToken
import BraceLang.Proofs.Parser.Turns
import BraceLang.Proofs.Grammar.Misread
import BraceLang.Proofs.Source.FaultOrder
import BraceLang.Proofs.Lexer.Respacing
import BraceLang.Proofs.Lexer.SingleToken
import BraceLang.Proofs.Lexer.Lookahead
import BraceLang.Proofs.Lexer.Blanking
import BraceLang.Proofs.Parser.OpenRow
import BraceLang.Proofs.Lexer.Rerun
import BraceLang.Proofs.Parser.Resumption
import BraceLang.Proofs.Report.Checked
import BraceLang.Proofs.Report.Alignment
import BraceLang.Proofs.Report.Styling
import BraceLang.Proofs.Cli.Precedence
import BraceLang.Proofs.Cli.Warnings
import BraceLang.Proofs.Lexer.Scanner
import BraceLang.Proofs.Lexer.ScanParts
import BraceLang.Proofs.Lexer.Progress
