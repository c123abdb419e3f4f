import TreeWalk.Command.Run
import TreeWalk.Eval.Interpreter
import TreeWalk.Json.Reader
import TreeWalk.Json.Writer
import TreeWalk.Main
import TreeWalk.Proofs.Eval.DepthLimit
import TreeWalk.Proofs.Session.Custody
import TreeWalk.Proofs.Session.Snapshot
import TreeWalk.Syntax.Build
import TreeWalk.Syntax.Encode
import TreeWalk.Value.Basic
import TreeWalk.Proofs.Eval.Termination
import TreeWalk.Proofs.Session.CallDepth
import TreeWalk.Proofs.Reference.Invariant
import TreeWalk.Proofs.Session.Meaning
import TreeWalk.Proofs.Syntax.Free
import TreeWalk.Proofs.Reference.Denotation
import TreeWalk.Proofs.Scope.Correspondence
import TreeWalk.Proofs.Eval.Parallel
import TreeWalk.Proofs.Session.Ending
import TreeWalk.Proofs.Session.WellScoped
import TreeWalk.Proofs.Session.FreeNames
import TreeWalk.Proofs.Syntax.Subterm
import TreeWalk.Proofs.Session.Origin
import TreeWalk.Proofs.Syntax.Reading
import TreeWalk.Proofs.Text.Utf8
import TreeWalk.Proofs.Text.Number
import TreeWalk.Proofs.Json.Quotes
import TreeWalk.Proofs.Json.RoundTrip
import TreeWalk.Proofs.Syntax.RoundTrip
import TreeWalk.Proofs.Session.ScopeChain
import TreeWalk.Proofs.Syntax.Binders
import TreeWalk.Proofs.Reference.Block
import TreeWalk.Proofs.Reference.BlockScope
import TreeWalk.Proofs.Session.BlockScope
import TreeWalk.Proofs.Eval.Stop
import TreeWalk.Proofs.Eval.CutShort
import TreeWalk.Proofs.Scope.Wholeness
import TreeWalk.Proofs.Session.Presence
import TreeWalk.Proofs.Scope.Relocation
import TreeWalk.Proofs.Eval.Relocation
import TreeWalk.Proofs.Session.History
import TreeWalk.Proofs.Session.Blame
import TreeWalk.Proofs.Fixture.Schedule
import TreeWalk.Proofs.Corpus.Cache
import TreeWalk.Proofs.Config.Precedence
import TreeWalk.Proofs.Text.Quoted
import TreeWalk.Proofs.Syntax.SourceText
import TreeWalk.Proofs.Syntax.Grammar
import TreeWalk.Proofs.Files.Growth
import TreeWalk.Proofs.Text.Space
import TreeWalk.Proofs.Corpus.Containment
import TreeWalk.Proofs.Corpus.Reuse
import TreeWalk.Proofs.Fixture.Verdict
import TreeWalk.Proofs.Config.Issues
import TreeWalk.Proofs.Files.Search
import TreeWalk.Proofs.Syntax.OneValue
import TreeWalk.Proofs.Session.Locations
import TreeWalk.Proofs.Config.Nearest
import TreeWalk.Proofs.Eval.Arithmetic
import TreeWalk.Proofs.Value.Equality
import TreeWalk.Proofs.Scope.Identity
import TreeWalk.Proofs.Eval.Identity
import TreeWalk.Proofs.Session.Equality
import TreeWalk.Proofs.Syntax.Integer
