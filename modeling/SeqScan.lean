import SeqScan.Command.Run
import SeqScan.Command.Reader
import SeqScan.LogFilter
import SeqScan.Main
import SeqScan.Proofs.Cut
import SeqScan.Proofs.Lexeme
import SeqScan.Proofs.LongestMatch
import SeqScan.Proofs.Places
import SeqScan.Proofs.Modes
import SeqScan.Proofs.TruePlaces
import SeqScan.Proofs.Coverage
import SeqScan.Proofs.Translated
import SeqScan.Proofs.Joined
import SeqScan.Cursor
import SeqScan.Proofs.CursorSafe
import SeqScan.Proofs.Words
import SeqScan.Proofs.CursorScan
import SeqScan.Proofs.Writes
import SeqScan.Proofs.Lines
import SeqScan.Proofs.Printed
import SeqScan.Proofs.LineByLine
import SeqScan.Proofs.Recorded
import SeqScan.Proofs.NumberText
import SeqScan.Proofs.Reader
import SeqScan.Proofs.CommandLines
import SeqScan.Proofs.FileRuns
import SeqScan.Proofs.NameKinds
import SeqScan.Proofs.Session
import SeqScan.Proofs.Nearest
import SeqScan.Proofs.NumberValue
import SeqScan.Proofs.AddedQuote
import SeqScan.Proofs.Mended
import SeqScan.Proofs.Resumed
import SeqScan.Proofs.Paired
import SeqScan.Proofs.RoundingInterval
import SeqScan.Proofs.Shortest
import SeqScan.Proofs.PrintedNumber
import SeqScan.Proofs.Erased
import SeqScan.Proofs.Uncommented
import SeqScan.Proofs.Unreturned
import SeqScan.Proofs.Disguised
import SeqScan.Proofs.LogLines
import SeqScan.Proofs.LeftToRight
import SeqScan.Proofs.ExactEquality
