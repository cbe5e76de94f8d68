import Thera.Model.Compiler.Compile
import Thera.Soundness.Assignability
import Thera.Soundness.Calendar
import Thera.Soundness.CallArguments
import Thera.Soundness.Ceiling
import Thera.Soundness.Channels
import Thera.Soundness.ClosureConversion
import Thera.Soundness.CodecRoundTrip
import Thera.Soundness.Deadlock
import Thera.Soundness.DefiniteReturn
import Thera.Soundness.Edits
import Thera.Soundness.EncodersAgree
import Thera.Soundness.Encodings
import Thera.Soundness.Globs
import Thera.Soundness.HttpRoundTrip
import Thera.Soundness.Instantiation
import Thera.Soundness.Json
import Thera.Soundness.LineReading
import Thera.Soundness.Lists
import Thera.Soundness.MapRefinement
import Thera.Soundness.MessageFraming
import Thera.Soundness.OperandWidths
import Thera.Soundness.Paths
import Thera.Soundness.Positions
import Thera.Soundness.QuotedStrings
import Thera.Soundness.Scheduling
import Thera.Soundness.StackDiscipline
import Thera.Soundness.Strings
import Thera.Soundness.Surface
import Thera.Soundness.Timestamps
import Thera.Soundness.TomlIntegers
import Thera.Soundness.Wrapping
