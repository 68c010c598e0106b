import TemplateScan.Dialect.Loading
import TemplateScan.Dialect.Storefront
import TemplateScan.Dialect.Writing
import TemplateScan.Scan.Scanner
import TemplateScan.Proofs.Text.Occurrence
import TemplateScan.Proofs.Text.Readings
import TemplateScan.Proofs.Scan.Clear
import TemplateScan.Proofs.Scan.TagPhases
import TemplateScan.Proofs.Scan.TextStep
import TemplateScan.Proofs.Scan.Run
import TemplateScan.Proofs.Scan.Termination
import TemplateScan.Proofs.Scan.Tiling
import TemplateScan.Proofs.Scan.TagExtent
import TemplateScan.Proofs.Text.Lines
import TemplateScan.Proofs.Scan.Reads
import TemplateScan.Proofs.Scan.Slicing
import TemplateScan.Proofs.Scan.Safety
import TemplateScan.Proofs.Scan.Tokens
import TemplateScan.Proofs.Scan.Openers
import TemplateScan.Proofs.Scan.BracketBalance
import TemplateScan.Proofs.Scan.TagShape
import TemplateScan.Proofs.Scan.Replay
import TemplateScan.Proofs.Scan.BlockStep
import TemplateScan.Proofs.Scan.Follows
import TemplateScan.Proofs.Scan.Pairing
import TemplateScan.Proofs.Scan.TrimDash
import TemplateScan.Proofs.Scan.EndTag
import TemplateScan.Proofs.Scan.BlockPlaces
import TemplateScan.Proofs.Scan.BodyEnd
import TemplateScan.Proofs.Scan.Surroundings
import TemplateScan.Proofs.Scan.Twins
import TemplateScan.Proofs.Scan.Reset
import TemplateScan.Proofs.Scan.Rewind
import TemplateScan.Proofs.Text.Positions
import TemplateScan.Proofs.Text.Frames
import TemplateScan.Proofs.Text.Literals
import TemplateScan.Proofs.Scan.Lookahead
import TemplateScan.Proofs.Scan.Relocation
import TemplateScan.Proofs.Scan.Composition
import TemplateScan.Proofs.Scan.Lexemes
import TemplateScan.Proofs.Scan.TagGrammar
import TemplateScan.Proofs.Scan.Expected
import TemplateScan.Proofs.Scan.Recognizer
import TemplateScan.Proofs.Scan.TagSyntax
import TemplateScan.Proofs.Scan.Passage
import TemplateScan.Proofs.Scan.Expression
import TemplateScan.Proofs.Scan.SchemaWalk
import TemplateScan.Proofs.Scan.PrintedPaths
import TemplateScan.Proofs.Scan.PrintedFilters
import TemplateScan.Proofs.Scan.PrintedExpressions
import TemplateScan.Proofs.Scan.PropertyChecks
import TemplateScan.Proofs.Scan.FilterCalls
import TemplateScan.Proofs.Scan.Template
import TemplateScan.Proofs.Scan.PrintedTags
import TemplateScan.Proofs.Scan.PrintedTemplates
import TemplateScan.Proofs.Json.Printed
import TemplateScan.Proofs.Json.Decoders
import TemplateScan.Proofs.Dialect.RoundTrip
import TemplateScan.Proofs.Dialect.Concerns
import TemplateScan.Proofs.Scan.Comparison
import TemplateScan.Proofs.Scan.Lockstep
import TemplateScan.Proofs.Scan.Elements
import TemplateScan.Proofs.Scan.AmongElements
import TemplateScan.Proofs.Scan.Skipping
import TemplateScan.Proofs.Scan.Recovery
import TemplateScan.Proofs.Scan.Placement
import TemplateScan.Proofs.Dialect.Overlay
import TemplateScan.Proofs.Blocks.Stacks
import TemplateScan.Proofs.Scan.Ranges
import TemplateScan.Proofs.Scan.LoopSyntax
import TemplateScan.Proofs.Dialect.Slots
import TemplateScan.Proofs.Scan.Readiness
import TemplateScan.Proofs.Scan.Incremental
import TemplateScan.Proofs.Json.Spelling
import TemplateScan.Proofs.Json.Restated
import TemplateScan.Proofs.Dialect.Spellings
import TemplateScan.Proofs.Text.Order
import TemplateScan.Proofs.Scan.Locations
import TemplateScan.Proofs.Text.Requests
import TemplateScan.Proofs.Text.Languages
