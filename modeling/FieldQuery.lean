import FieldQuery.Json.Node
import FieldQuery.Config.Load
import FieldQuery.Config.Build
import FieldQuery.Converter
import FieldQuery.Proofs.Surface.Grammar
import FieldQuery.Proofs.Surface.Lexeme
import FieldQuery.Proofs.Surface.Acceptance
import FieldQuery.Proofs.Condition.Resolve
import FieldQuery.Proofs.Text.Backslash
import FieldQuery.Proofs.Condition.WellFormed
import FieldQuery.Proofs.Converter
import FieldQuery.Proofs.Condition.Reachable
import FieldQuery.Proofs.Sql.Reader
import FieldQuery.Proofs.Sql.RoundTrip
import FieldQuery.Proofs.Condition.Precedence
import FieldQuery.Proofs.Sql.Meaning
import FieldQuery.Proofs.Surface.Fault
import FieldQuery.Proofs.Surface.Layout
import FieldQuery.Proofs.Surface.Place
import FieldQuery.Proofs.Surface.Viability
import FieldQuery.Proofs.Surface.Limit
import FieldQuery.Proofs.Condition.Offence
import FieldQuery.Proofs.Converter.Failure
import FieldQuery.Proofs.Converter.Composition
import FieldQuery.Proofs.Surface.Reason
import FieldQuery.Proofs.Surface.Source
import FieldQuery.Proofs.Converter.Spelling
import FieldQuery.Proofs.Sql.Precedence
import FieldQuery.Proofs.Surface.Parenthesis
import FieldQuery.Proofs.Surface.Join
import FieldQuery.Proofs.Condition.Meaningful
import FieldQuery.Proofs.Sql.Arity
import FieldQuery.Proofs.Sql.Literal
import FieldQuery.Proofs.Converter.Grouping
import FieldQuery.Proofs.Json.RoundTrip
import FieldQuery.Proofs.Converter.Log
import FieldQuery.Proofs.Text.Escape
import FieldQuery.Proofs.Surface.Quoted
import FieldQuery.Proofs.Toml.Layout
import FieldQuery.Proofs.Toml.Reading
import FieldQuery.Proofs.Toml.Integer
import FieldQuery.Proofs.Toml.Document
import FieldQuery.Proofs.Config.Load
