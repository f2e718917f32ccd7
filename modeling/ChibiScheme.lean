import ChibiScheme.Numeric.QuotRemBounds
import ChibiScheme.Numeric.MakeInteger
import ChibiScheme.Numeric.RatioRounding
import ChibiScheme.Numeric.Uvector
import ChibiScheme.Numeric.Truncate
import ChibiScheme.Numeric.FrameLaw
import ChibiScheme.Text.StringSet
import ChibiScheme.Text.Intern
import ChibiScheme.Port.StringPort
import ChibiScheme.Port.Descriptor
import ChibiScheme.Gc.Finalize
import ChibiScheme.Gc.Weak
import ChibiScheme.Vm.StackRoom
import ChibiScheme.Vm.Continuation
import ChibiScheme.Vm.Calls
import ChibiScheme.Compiler.Variadic
import ChibiScheme.Compiler.StripSynclos
import ChibiScheme.Compiler.Discipline
import ChibiScheme.Writer.RoundTrip
import ChibiScheme.Reader.StringLiteral
import ChibiScheme.Thread.Termination
import ChibiScheme.Hash.Update
import ChibiScheme.Iset.Cursor
import ChibiScheme.Iset.Difference
import ChibiScheme.Iset.Code
import ChibiScheme.Control.DynamicWind
import ChibiScheme.Crypto.Digest
import ChibiScheme.Env.Immutable
import ChibiScheme.Base64.Decoder
import ChibiScheme.Json.Soundness
import ChibiScheme.Json.RoundTrip
import ChibiScheme.SyntaxRules.Instantiation
import ChibiScheme.Bitwise.AndIor
import ChibiScheme.Bitwise.Xor
import ChibiScheme.Bitwise.Shift
import ChibiScheme.Bitwise.Query
import ChibiScheme.Math.Gcd
import ChibiScheme.Math.SquareRoot
import ChibiScheme.Promise.Force
import ChibiScheme.Regexp.Greediness
import ChibiScheme.Regexp.Replace
import ChibiScheme.Parse.Stream
import ChibiScheme.Parse.Lookahead
import ChibiScheme.Csv.RoundTrip
import ChibiScheme.Quasiquote.Expand
import ChibiScheme.Path.Location
import ChibiScheme.Uri.Query
