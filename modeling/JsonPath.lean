import JsonPath.Arithmetic
import JsonPath.BuiltIn
import JsonPath.Coercion
import JsonPath.Comparison
import JsonPath.Decimal
import JsonPath.Digit
import JsonPath.Environment
import JsonPath.EvalError
import JsonPath.Evaluation
import JsonPath.ExprValue
import JsonPath.Grammar
import JsonPath.IRegexp
import JsonPath.IRegexp.Cache
import JsonPath.Json
import JsonPath.Location
import JsonPath.Name
import JsonPath.NameMap
import JsonPath.Pattern
import JsonPath.Pattern.Class
import JsonPath.Pattern.Engine
import JsonPath.Pattern.Escape
import JsonPath.Pattern.Grammar
import JsonPath.Pattern.Matching
import JsonPath.Query
import JsonPath.Reader
import JsonPath.Reader.Literal
import JsonPath.Reader.Text
import JsonPath.Slice
import JsonPath.Standard
import JsonPath.Syntax
import JsonPath.Syntax.Text
import JsonPath.SyntaxError
import JsonPath.Unicode.Category
import JsonPath.Unicode.Folding
import JsonPath.Unicode.Property
import JsonPath.Walk
import JsonPath.Word
import JsonPath.Proofs.Accepted
import JsonPath.Proofs.Agreement
import JsonPath.Proofs.Anchoring
import JsonPath.Proofs.BooleanLaws
import JsonPath.Proofs.ClassDots
import JsonPath.Proofs.ClosedConditions
import JsonPath.Proofs.Collection
import JsonPath.Proofs.CommaList
import JsonPath.Proofs.Comparisons
import JsonPath.Proofs.Composition
import JsonPath.Proofs.Conditions
import JsonPath.Proofs.Descent
import JsonPath.Proofs.Diagnostics
import JsonPath.Proofs.DocumentOrder
import JsonPath.Proofs.EngineLaws
import JsonPath.Proofs.Equality
import JsonPath.Proofs.Everything
import JsonPath.Proofs.Everywhere
import JsonPath.Proofs.Extension
import JsonPath.Proofs.FencedReading
import JsonPath.Proofs.Fences
import JsonPath.Proofs.FilterFree
import JsonPath.Proofs.Filters
import JsonPath.Proofs.FloatRounding
import JsonPath.Proofs.FloatValue
import JsonPath.Proofs.Frames
import JsonPath.Proofs.Height
import JsonPath.Proofs.InPlace
import JsonPath.Proofs.LawfulPatterns
import JsonPath.Proofs.Layout
import JsonPath.Proofs.Leniency
import JsonPath.Proofs.LenientReading
import JsonPath.Proofs.LocalReading
import JsonPath.Proofs.Locality
import JsonPath.Proofs.Locations
import JsonPath.Proofs.MemberOrder
import JsonPath.Proofs.Narrowing
import JsonPath.Proofs.NestingLimit
import JsonPath.Proofs.NumberOrder
import JsonPath.Proofs.Numeral
import JsonPath.Proofs.OpenLiterals
import JsonPath.Proofs.Operators
import JsonPath.Proofs.Parallel
import JsonPath.Proofs.PatternCache
import JsonPath.Proofs.PatternReading
import JsonPath.Proofs.Places
import JsonPath.Proofs.Pointers
import JsonPath.Proofs.Quoted
import JsonPath.Proofs.Reading
import JsonPath.Proofs.References
import JsonPath.Proofs.Relocation
import JsonPath.Proofs.Reordering
import JsonPath.Proofs.RoundTrip
import JsonPath.Proofs.Segments
import JsonPath.Proofs.SelectedOnce
import JsonPath.Proofs.Selection
import JsonPath.Proofs.SelectionOrder
import JsonPath.Proofs.Selectors
import JsonPath.Proofs.Simulations
import JsonPath.Proofs.SingularPaths
import JsonPath.Proofs.Slices
import JsonPath.Proofs.Spelling
import JsonPath.Proofs.Spelling.Condition
import JsonPath.Proofs.SpeltDots
import JsonPath.Proofs.Subsets
import JsonPath.Proofs.TrailingInput
import JsonPath.Proofs.Typing
import JsonPath.Proofs.WellFormed
import JsonPath.Proofs.WrappedIntegers
