import MethodGraft.ClassFile.Edit
import MethodGraft.Code.Check
import MethodGraft.Code.Layout
import MethodGraft.Source.Lexer
import MethodGraft.Source.Parser
import MethodGraft.Archive.Library
import MethodGraft.Archive.Writer
import MethodGraft.Archive.Amend
import MethodGraft.Files.Publish
import MethodGraft.Classpath.Hierarchy
import MethodGraft.Patch.Transform
import MethodGraft.Proofs.Capacity
import MethodGraft.Proofs.Pool.Growth
import MethodGraft.Proofs.Pool.Interning
import MethodGraft.Proofs.Descriptor
import MethodGraft.Proofs.Typed.Values
import MethodGraft.Proofs.Typed.Calls
import MethodGraft.Proofs.Typed.Binding
import MethodGraft.Proofs.Machine.Effect
import MethodGraft.Proofs.Machine.Decode
import MethodGraft.Proofs.Machine.Step
import MethodGraft.Proofs.Machine.Direct
import MethodGraft.Proofs.Simulation.Basic
import MethodGraft.Proofs.Simulation.Expressions
import MethodGraft.Proofs.Simulation.Conditions
import MethodGraft.Proofs.Simulation.Statements
import MethodGraft.Proofs.Assembly.Order
import MethodGraft.Proofs.Assembly.Valid
import MethodGraft.Proofs.Assembly.Primitives
import MethodGraft.Proofs.Typed.Layout
import MethodGraft.Proofs.Assembly.Instructions
import MethodGraft.Proofs.Assembly.Control
import MethodGraft.Proofs.Assembly.Quiet
import MethodGraft.Proofs.Emission.Laid
import MethodGraft.Proofs.Emission.Expressions
import MethodGraft.Proofs.Emission.Conditions
import MethodGraft.Proofs.Emission.Flags
import MethodGraft.Proofs.Emission.Statements
import MethodGraft.Proofs.Emission.FieldReads
import MethodGraft.Proofs.Emission.Method
import MethodGraft.Proofs.Finish.Code
import MethodGraft.Proofs.Finish.Frames
import MethodGraft.Proofs.Finish.StackMap
import MethodGraft.Proofs.Finish.Walk
import MethodGraft.Proofs.Finish.Layout
import MethodGraft.Proofs.Finish.Method
import MethodGraft.Proofs.Generation
import MethodGraft.Proofs.Verify.StackMap
import MethodGraft.Proofs.Verify.Body
import MethodGraft.Proofs.Finish.ReadBack
import MethodGraft.Proofs.Finish.Table
import MethodGraft.Proofs.Finish.Flow
import MethodGraft.Proofs.Assembly.Shapes
import MethodGraft.Proofs.Assembly.Meeting
import MethodGraft.Proofs.Assembly.Depth
import MethodGraft.Proofs.Text.ModifiedUtf8
import MethodGraft.Proofs.Text.Utf8
import MethodGraft.Proofs.Archive.Deflate
import MethodGraft.Proofs.Archive.Directory
import MethodGraft.Proofs.Archive.Laws
import MethodGraft.Proofs.Archive.Restoring
import MethodGraft.Proofs.Archive.Standard
import MethodGraft.Proofs.Archive.Amend
import MethodGraft.Proofs.ClassFile.Reading
import MethodGraft.Proofs.Pool.Codec
import MethodGraft.Proofs.Pool.Requests
import MethodGraft.Proofs.ClassFile.Codec
import MethodGraft.Proofs.Assembly.Requests
import MethodGraft.Proofs.Assembly.Calls
import MethodGraft.Proofs.ClassFile.Edits
import MethodGraft.Proofs.ClassFile.Methods
import MethodGraft.Proofs.ClassFile.Delimited
import MethodGraft.Proofs.Compilation
import MethodGraft.Proofs.Verification
import MethodGraft.Proofs.Patch.Contract
import MethodGraft.Proofs.Patch.CallSites
import MethodGraft.Proofs.Patch.Repetition
import MethodGraft.Proofs.Source.Readers
import MethodGraft.Proofs.Source.Tokens
import MethodGraft.Proofs.Source.Separation
import MethodGraft.Proofs.Source.LineComments
import MethodGraft.Proofs.Patch.Template
import MethodGraft.Proofs.Source.Printer
import MethodGraft.Proofs.Source.ParserRuns
import MethodGraft.Proofs.Source.Numerals
import MethodGraft.Proofs.Source.LookAhead
import MethodGraft.Proofs.Source.Expressions
import MethodGraft.Proofs.Source.Statements
import MethodGraft.Proofs.Source.Grammar
import MethodGraft.Proofs.Classpath.Meaning
import MethodGraft.Proofs.Classpath.Order
import MethodGraft.Proofs.Classpath.Walk
import MethodGraft.Proofs.Classpath.Lookup
import MethodGraft.Proofs.Classpath.Calls
import MethodGraft.Proofs.Classpath.Supertypes
import MethodGraft.Proofs.Typed.References
import MethodGraft.Proofs.Typed.Linking
import MethodGraft.Proofs.Typed.Resolution
import MethodGraft.Proofs.Classpath.Assignment
import MethodGraft.Proofs.Classpath.Reordering
import MethodGraft.Proofs.Typed.Overloads
import MethodGraft.Proofs.Typed.Choice
import MethodGraft.Proofs.Typed.Assignability
import MethodGraft.Proofs.Typed.Reordering
import MethodGraft.Proofs.Machine.Slots
import MethodGraft.Proofs.Assembly.Widths
import MethodGraft.Proofs.Assembly.Outcomes
import MethodGraft.Proofs.Assembly.Refusals
import MethodGraft.Proofs.Assembly.Depths
import MethodGraft.Proofs.Assembly.Room
import MethodGraft.Proofs.Finish.Paths
import MethodGraft.Proofs.Finish.Limits
import MethodGraft.Proofs.Typed.Determinacy
import MethodGraft.Proofs.Typed.DottedNames
import MethodGraft.Proofs.Machine.Texts
import MethodGraft.Proofs.Typed.Rules
import MethodGraft.Proofs.Typed.Listings
import MethodGraft.Proofs.Typed.Variables
import MethodGraft.Proofs.Typed.Scopes
import MethodGraft.Proofs.Typed.Concatenation
import MethodGraft.Proofs.Emission.Invocations
import MethodGraft.Proofs.TextCalls
import MethodGraft.Proofs.Code.Tiling
import MethodGraft.Proofs.Source.Spellings.Numbers
import MethodGraft.Proofs.Source.Spellings.Strings
import MethodGraft.Proofs.Source.Spellings.Tokens
import MethodGraft.Proofs.Source.Coverage
import MethodGraft.Proofs.Files.Ways
import MethodGraft.Proofs.Files.Publish
import MethodGraft.Proofs.Patch.Sight
import MethodGraft.Proofs.Patch.Turns
import MethodGraft.Proofs.Patch.Interleaving
import MethodGraft.Proofs.Emission.ShortCircuits
