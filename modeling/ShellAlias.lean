import ShellAlias.Main
import ShellAlias.Proofs.Text.Backslash
import ShellAlias.Proofs.CommandPosition
import ShellAlias.Proofs.Expansion.Visit
import ShellAlias.Proofs.Expansion.Scan
import ShellAlias.Proofs.Expansion.Edit
import ShellAlias.Proofs.Expansion.PlainWord
import ShellAlias.Proofs.Table.EscapedWord
import ShellAlias.Proofs.Session.Listing
import ShellAlias.Proofs.Expansion.Reading
import ShellAlias.Proofs.Expansion.Independent
import ShellAlias.Proofs.Expansion.Characters
import ShellAlias.Proofs.Session.Operations
import ShellAlias.Proofs.Words
import ShellAlias.Proofs.Expansion.Iterated
import ShellAlias.Proofs.Expansion.Rounds
import ShellAlias.Proofs.Expansion.EscapeByte
import ShellAlias.Proofs.Session.Completion
import ShellAlias.Proofs.Table.Refusals
import ShellAlias.Proofs.Expansion.PassCap
import ShellAlias.Proofs.Expansion.Unescaping
import ShellAlias.Proofs.Json.Spelling
import ShellAlias.Proofs.Json.Grammar
import ShellAlias.Proofs.Json.Members
import ShellAlias.Proofs.Json.Skip
import ShellAlias.Proofs.Json.Object
import ShellAlias.Proofs.Json.Value
import ShellAlias.Proofs.Settings.Members
import ShellAlias.Proofs.Settings.Reader
import ShellAlias.Proofs.Settings.Described
import ShellAlias.Proofs.Settings.Layout
import ShellAlias.Proofs.Settings.RoundTrip
import ShellAlias.Proofs.Expansion.Queries
import ShellAlias.Proofs.Session.AliasLine
import ShellAlias.Proofs.Expansion.UnusedValue
import ShellAlias.Proofs.Table.Redefinition
import ShellAlias.Proofs.Table.Removals
import ShellAlias.Proofs.Session.FirstWord
import ShellAlias.Proofs.Session.Replies
import ShellAlias.Proofs.Table.Replay
import ShellAlias.Proofs.Table.DefinedWord
import ShellAlias.Proofs.Expansion.Inapplicable
import ShellAlias.Proofs.Expansion.SelfReference
