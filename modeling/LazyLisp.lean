import LazyLisp.Brackets.Highlight
import LazyLisp.Completion
import LazyLisp.Main
import LazyLisp.Proofs.Application
import LazyLisp.Proofs.Brackets.Colours
import LazyLisp.Proofs.Brackets.Tokens
import LazyLisp.Proofs.EmptyScopes
import LazyLisp.Proofs.EvaluatedData
import LazyLisp.Proofs.FailurePlaces
import LazyLisp.Proofs.Iteration
import LazyLisp.Proofs.PrimitiveNames
import LazyLisp.Proofs.ReportPlaces
import LazyLisp.Proofs.RoundTrip
import LazyLisp.Proofs.StaticScoping
import LazyLisp.Workspace
import LazyLisp.Proofs.Brackets.Continuations
import LazyLisp.Proofs.Lexing.Slices
import LazyLisp.Proofs.ViablePrefixes
import LazyLisp.Proofs.CallSlices
import LazyLisp.Proofs.Brackets.ColourRules
import LazyLisp.Proofs.Brackets.Splicing
import LazyLisp.Proofs.Substitution
import LazyLisp.Proofs.DerivedForms
import LazyLisp.Proofs.Ranges
import LazyLisp.Proofs.Taking
import LazyLisp.Proofs.Equality
import LazyLisp.Proofs.ExactArithmetic
import LazyLisp.Proofs.ListFunctions
import LazyLisp.Proofs.TailLists
import LazyLisp.Proofs.Lexing.StringFaults
import LazyLisp.Proofs.Completions
import LazyLisp.Proofs.Lexing.Concatenation
import LazyLisp.Proofs.Sessions
