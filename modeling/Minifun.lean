import Minifun.Loc
import Minifun.Text.Quoted
import Minifun.Text.Lines
import Minifun.Text.Similar
import Minifun.Text.Numeral
import Minifun.Binary64.Written
import Minifun.Ty.Unify
import Minifun.Term.Dump
import Minifun.Program.Parser
import Minifun.Report.Diagnostic
import Minifun.Typing.Checker
import Minifun.Eval.Run
import Minifun.Frames
import Minifun.Session
import Minifun.Command.Basic
import Minifun.Typing.Scopes
import Minifun.Main
import Minifun.Proofs.Ty.MostGeneral
import Minifun.Proofs.Program.Plain
import Minifun.Proofs.Typing.Reading
import Minifun.Proofs.Typing.Principal
import Minifun.Proofs.Typing.Statements
import Minifun.Proofs.Typing.Instances
import Minifun.Proofs.Eval.Inhabitants
import Minifun.Proofs.Eval.Soundness
import Minifun.Proofs.Eval.Programs
import Minifun.Proofs.Eval.Alike
import Minifun.Proofs.Eval.Parallel
import Minifun.Proofs.Eval.Definitions
import Minifun.Proofs.Ty.Store
import Minifun.Proofs.Typing.Forks
import Minifun.Proofs.Session.Rollback
import Minifun.Proofs.Session.Cutting
import Minifun.Proofs.Eval.Whole
import Minifun.Proofs.Typing.Refinement
import Minifun.Proofs.Session.Alignment
import Minifun.Proofs.Program.Derivations
import Minifun.Proofs.Program.Acceptance
import Minifun.Proofs.Program.Completeness
import Minifun.Proofs.Program.Breakdowns
import Minifun.Proofs.Program.Written
import Minifun.Proofs.Token.Layout
import Minifun.Proofs.Session.Loading
import Minifun.Proofs.Eval.Flatness
import Minifun.Proofs.Program.Locations
import Minifun.Proofs.Token.Respelling
import Minifun.Proofs.Eval.Calls
import Minifun.Proofs.Typing.Uniqueness
import Minifun.Proofs.Typing.Leftovers
import Minifun.Proofs.Session.Binding
import Minifun.Proofs.Program.Promptness
import Minifun.Proofs.Eval.Limits
import Minifun.Proofs.Ty.Canonical
import Minifun.Proofs.Token.Margins
import Minifun.Proofs.Program.Moving
import Minifun.Proofs.Session.Trimming
import Minifun.Proofs.Session.Origins
import Minifun.Proofs.Ty.Display
import Minifun.Proofs.Value.Isolation
import Minifun.Proofs.Eval.Remnants
import Minifun.Proofs.Program.Dumps
import Minifun.Proofs.Text.Edits
import Minifun.Proofs.Report.Carets
import Minifun.Proofs.Typing.Tracing
import Minifun.Proofs.Typing.Freshness
import Minifun.Proofs.Program.Termination
import Minifun.Proofs.Eval.Division
import Minifun.Proofs.Report.Colours
