import IniScan.Text.Basic
import IniScan.Text.Utf8
import IniScan.Text.Quoted
import IniScan.Kind
import IniScan.KindSet
import IniScan.Family
import IniScan.MatchMode
import IniScan.Section
import IniScan.Word.Basic
import IniScan.Word.Stored
import IniScan.Section.Match
import IniScan.Section.Spelled
import IniScan.Reader
import IniScan.Boundary
import IniScan.Path
import IniScan.Header.Subject
import IniScan.Header.RegexName
import IniScan.Header.Probe
import IniScan.Line
import IniScan.Collector
import IniScan.Config
import IniScan.Json
import IniScan.Config.Json
import IniScan.Config.Fields
import IniScan.Scanner
import IniScan.Storing
import IniScan.Cursor
import IniScan.Ledger
import IniScan.Loops
import IniScan.Token
import IniScan.Host
import IniScan.Session
import IniScan.Slicing
import IniScan.Proofs.KindSet.Built
import IniScan.Proofs.Config.Values
import IniScan.Proofs.Config.FieldOrder
import IniScan.Proofs.Config.Codec
import IniScan.Proofs.Reading.Span
import IniScan.Proofs.Cursor.Notes
import IniScan.Proofs.Host.Found
import IniScan.Proofs.Text.Case
import IniScan.Proofs.Text.CaseBytes
import IniScan.Proofs.Text.Runs
import IniScan.Proofs.Word.Compare
import IniScan.Proofs.Text.Utf8
import IniScan.Proofs.Text.WellFormed
import IniScan.Proofs.Word.Sound
import IniScan.Proofs.Word.Format
import IniScan.Proofs.Word.Run
import IniScan.Proofs.Word.Log
import IniScan.Proofs.Word.Keyword
import IniScan.Proofs.Reading.Stretch
import IniScan.Proofs.Family.Choice
import IniScan.Proofs.Family.Offered
import IniScan.Proofs.Header.RegexLanguage
import IniScan.Proofs.Reading.Orderly
import IniScan.Proofs.Reading.Marked
import IniScan.Proofs.Host.Calls
import IniScan.Proofs.Cursor.Abreast
import IniScan.Proofs.Host.Unread
import IniScan.Proofs.Host.Modes
import IniScan.Proofs.Session.TokenStream
import IniScan.Proofs.Session.Insertion
import IniScan.Proofs.Session.Consumed
import IniScan.Proofs.Session.Offsets
import IniScan.Proofs.Session.Restoring
import IniScan.Proofs.Scanner.Storing
import IniScan.Proofs.Text.Lines
import IniScan.Proofs.Section.Vocabulary
import IniScan.Proofs.Section.Modes
import IniScan.Proofs.Section.Agreement
import IniScan.Proofs.Cursor.Literal
import IniScan.Proofs.Cursor.Slices
import IniScan.Proofs.Cursor.Ahead
import IniScan.Proofs.Text.Trim
import IniScan.Proofs.Line.Between
import IniScan.Proofs.Line.Shape
import IniScan.Proofs.Reading.Local
import IniScan.Proofs.Host.Edits
import IniScan.Proofs.Document.Loop
import IniScan.Proofs.Header.Recognised
import IniScan.Proofs.Line.Probing
import IniScan.Proofs.Line.Classified
import IniScan.Proofs.Header.SubjectText
import IniScan.Proofs.Family.Selected
import IniScan.Proofs.Document.Header
import IniScan.Proofs.Path.Content
import IniScan.Proofs.Path.Call
import IniScan.Proofs.Path.Grammar
import IniScan.Proofs.Host.Repeated
import IniScan.Proofs.Host.Loops
import IniScan.Proofs.Host.Discipline
import IniScan.Proofs.Session.Eating
