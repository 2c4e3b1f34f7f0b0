import ChangeDdl.CommandLine.Directory
import ChangeDdl.Main
import ChangeDdl.Proofs.Ddl.ConvertInjective
import ChangeDdl.Proofs.Ddl.Splitting
import ChangeDdl.Proofs.Ddl.Punctuation
import ChangeDdl.Proofs.Ddl.ColumnNames
import ChangeDdl.Proofs.Ddl.ColumnLists
import ChangeDdl.Proofs.Ddl.Groups
import ChangeDdl.Proofs.Ddl.PrimaryKey
import ChangeDdl.Proofs.Ddl.Nullability
import ChangeDdl.Proofs.Ddl.Lines
import ChangeDdl.Proofs.Ddl.ForeignKeys
import ChangeDdl.Proofs.Event.DirectRoundTrip
import ChangeDdl.Proofs.Event.Envelope
import ChangeDdl.Proofs.Event.UnknownMembers
import ChangeDdl.Proofs.Event.MemberOrder
import ChangeDdl.Proofs.Event.Forms
import ChangeDdl.Proofs.Event.ColumnLength
import ChangeDdl.Proofs.CommandLine.Grammar
import ChangeDdl.Proofs.CommandLine.Run
import ChangeDdl.Proofs.Config.Building
import ChangeDdl.Proofs.Ddl.Dispatch
