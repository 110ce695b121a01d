import SafeForms.Forest
import SafeForms.Text.Ascii
import SafeForms.Text.Quoted
import SafeForms.Text.Utf8
import SafeForms.Node
import SafeForms.Form.Correction
import SafeForms.Dom.Search
import SafeForms.Dom.Edit
import SafeForms.Dom.Markup
import SafeForms.Dom.Outline
import SafeForms.Scope
import SafeForms.Html.Lexer
import SafeForms.Html.Cursor
import SafeForms.Html.Foreign
import SafeForms.Html.Parse
import SafeForms.CommandLine
import SafeForms.Main
import SafeForms.Proofs.SettledForms
import SafeForms.Proofs.Descendants
import SafeForms.Proofs.SanitizeMap
import SafeForms.Proofs.SecureEndpoints
import SafeForms.Proofs.FormHistory
import SafeForms.Proofs.Acts
import SafeForms.Proofs.ActsByRule
import SafeForms.Proofs.FormOrigin
import SafeForms.Proofs.Readings
import SafeForms.Proofs.ReadAgain
import SafeForms.Proofs.WrittenTags
import SafeForms.Proofs.Passages
import SafeForms.Proofs.Rereading
import SafeForms.Proofs.Candidates
import SafeForms.Proofs.GappedText
import SafeForms.Proofs.WrittenForms
import SafeForms.Proofs.DefaultEndpoint
import SafeForms.Proofs.EncodedText
import SafeForms.Proofs.PiecewiseReading
import SafeForms.Proofs.ReaderInput
import SafeForms.Proofs.CorrectedAttributes
import SafeForms.Proofs.RequestAddress
import SafeForms.Proofs.PassOrder
import SafeForms.Proofs.FragmentRoot
import SafeForms.Proofs.FailedReads
import SafeForms.Proofs.SearchOrder
import SafeForms.Proofs.AttributeMap
import SafeForms.Proofs.RecordedChanges
import SafeForms.Proofs.WrittenTexts
import SafeForms.Proofs.LostScheme
import SafeForms.Proofs.ProgramOutcome
import SafeForms.Proofs.SingleRoot
